import NeForce.RbEnds
import NeForce.RbErase

/-! # Taking a node out of a tree

`rb_tree_erase_rebalance` first unlinks the node: its only child takes its place
(`eraseOne_at`), or its successor does (`eraseTwo_at`).  Either way the memory then holds the
tree without the node, seen from the place that may lack a black node (`Unlink`), and the header
points at the new ends.  With the removal loop after it, the whole function leaves a balanced
tree with one node less (`eraseRebalance_at`). -/

namespace NeForce.Rb

open Ctx RbNode

variable {V : Type} {h h' : Heap V} {hd a : ℕ} {l : List ℕ} {ctx : Ctx ℕ} {t : Tree ℕ}

/-! ### A node with at most one child -/

theorem setChild_self (s : Side) (n : RbNode V) : n.setChild s (n.child s) = n := by
  cases s <;> rfl

/-- `eraseEnd` keeps the pointer of the header to the end on side `s` right. -/
theorem eraseEnd_at {s σ : Side} {c c' : Color} {X : Tree ℕ} {d : Option V} {n : RbNode V}
    (hok : h.Ok) (hat : At h hd l ctx X)
    (hn : (hd :: (plug ctx (.mk σ c .nil a X)).inorder).Nodup)
    (ha : h.load a = some (sided σ c' (holder hd ctx) 0 (ptr X) d)) (hhd : h.load hd = some n)
    (he : n.child s = endD s (plug ctx (.mk σ c .nil a X)).inorder hd) :
    ∃ h', eraseEnd s h a (ptr X) (holder hd ctx) hd = some h' ∧
      h'.load hd = some (n.setChild s (endD s l hd)) ∧ (∀ b, b ≠ hd → h'.load b = h.load b) ∧
      Within h h' hd l := by
  have hl : endD s l hd = endD s (outer s ctx) (endD s X.inorder (endD s (outer s.opp ctx) hd)) := by
    rw [← hat.labels, endD_plug]
  rw [endD_plug] at he
  have hX : a ∉ X.inorder := by
    simp only [inorder_plug, List.nodup_cons, List.nodup_append, List.mem_append,
      Tree.nodup_inorder_mk] at hn
    exact hn.2.1.2.1.2.1
  have ho : ∀ b, outer s ctx ≠ [] → endD s (outer s ctx) b ≠ a := by
    intro b hne heq
    have hm := endD_mem s hne b
    rw [heq] at hm
    simp only [inorder_plug, List.nodup_cons, List.nodup_append, List.mem_append,
      Tree.mem_inorder_mk] at hn
    cases s with
    | left => exact hn.2.1.2.2 a hm a (Or.inl rfl) rfl
    | right => exact hn.2.2.2 a (Or.inr (Or.inl rfl)) a hm rfl
  have keep : n.child s = endD s l hd → ∃ h', some h = some h' ∧
      h'.load hd = some (n.setChild s (endD s l hd)) ∧ (∀ b, b ≠ hd → h'.load b = h.load b) ∧
      Within h h' hd l := by
    intro e
    exact ⟨h, rfl, by rw [← e, setChild_self, hhd], fun _ _ => rfl, Within.refl h hd l⟩
  have move : ∀ m, m = endD s l hd → ∃ h', h.update hd (·.setChild s m) = some h' ∧
      h'.load hd = some (n.setChild s (endD s l hd)) ∧ (∀ b, b ≠ hd → h'.load b = h.load b) ∧
      Within h h' hd l := by
    rintro m rfl
    exact ⟨_, Mem.update_eq hhd _, by simp, fun b hb => by simp [hb], Within.of_set hhd (by simp) (by simp)⟩
  rw [eraseEnd, getChild_eq _ hhd]
  simp only [Option.bind_eq_bind, Option.bind_some, getChild_eq _ ha]
  by_cases hout : outer s ctx = []
  · rw [hout, endD_nil] at hl he
    rw [endD_outer hout] at hl he
    rcases Side.eq_or_opp s σ with rfl | rfl
    · rw [endD_mk, Tree.inorder_nil, endD_nil] at he
      rw [if_pos he, child_opp_sided]
      by_cases hXn : X = .nil
      · subst hXn
        exact move _ (by rw [hl]; simp)
      · rw [if_neg (hat.ptr_ne_zero hXn), hat.extremum_eq s hok hXn (holder hd ctx)]
        exact move _ hl.symm
    · rw [← Tree.mk_opp, endD_mk] at he
      by_cases hXn : X = .nil
      · subst hXn
        rw [Tree.inorder_nil, endD_nil] at he hl
        rw [if_pos he, Side.opp_opp, child_sided, if_pos rfl]
        exact move _ hl.symm
      · have hXi : X.inorder ≠ [] := List.ne_nil_of_mem (ptr_mem hXn)
        rw [if_neg]
        · exact keep (by rw [he, hl]; exact endD_congr _ hXi _ _)
        · rw [he]
          intro hea
          exact hX (hea ▸ endD_mem _ hXi _)
  · rw [if_neg]
    · exact keep (by rw [he, hl]; exact endD_congr _ hout _ _)
    · rw [he]
      exact ho _ hout

theorem erase_plug {c : Color} {tl tr : Tree ℕ} (hn : (plug ctx (.node c tl a tr)).inorder.Nodup) :
    (plug ctx (.node c tl a tr)).inorder.erase a =
      before ctx ++ (tl.inorder ++ tr.inorder) ++ after ctx := by
  have e : (plug ctx (.node c tl a tr)).inorder =
      (before ctx ++ tl.inorder) ++ a :: (tr.inorder ++ after ctx) := by
    simp [inorder_plug]
  rw [e] at hn ⊢
  have ha : a ∉ before ctx ++ tl.inorder := by
    intro hm
    rw [List.nodup_append] at hn
    exact hn.2.2 a hm a (by simp) rfl
  rw [List.erase_append_right _ ha, List.erase_cons_head]
  simp

theorem erase_plug_mk {σ : Side} {c : Color} {X : Tree ℕ}
    (hn : (plug ctx (.mk σ c .nil a X)).inorder.Nodup) :
    (plug ctx (.mk σ c .nil a X)).inorder.erase a = (plug ctx X).inorder := by
  rw [inorder_plug ctx X]
  cases σ with
  | left => exact (erase_plug hn).trans (by simp)
  | right => exact (erase_plug hn).trans (by simp)

/-- The only child `X` of the node `a` takes its place. -/
theorem eraseOne_at {σ : Side} {c : Color} {X : Tree ℕ} (hok : h.Ok)
    (hat : At h hd l ctx (.mk σ c .nil a X)) (he : Ends h hd l) :
    ∃ h', eraseOne h a (ptr X) hd = some ⟨h', ptr X, holder hd ctx⟩ ∧ At h' hd (l.erase a) ctx X ∧
      Ends h' hd (l.erase a) ∧ getColor h' a = some c ∧ Within h h' hd l := by
  obtain ⟨hctx, htn, hhd, hdis⟩ := hat.nodup_parts
  obtain ⟨⟨v, ha⟩, _, hX⟩ := linked_mk.mp hat.tree
  have hp := hat.holder_notMem
  have hroot := hat.ptr_ne_root
  have hsib := hat.ptr_ne_sib (by simp)
  have habove := hat.above
  have hnl := hat.nodup
  rw [ptr_mk] at hroot hsib habove
  simp only [Tree.nodup_inorder_mk, Tree.mem_inorder_mk, Tree.inorder_nil] at htn hhd hdis hp
  push Not at hhd hp
  obtain ⟨h1, e1, hX1, f1, r1⟩ := hX.updateParent (holder hd ctx) hat.null htn.2.2.2.1
  have fctx : ∀ b, b = hd ∨ b ∈ before ctx ∨ b ∈ after ctx → h1.load b = h.load b := by
    rintro b hb
    refine f1 b fun hm => ?_
    rcases hb with rfl | hb | hb
    · exact hhd.2.2 hm
    · exact (hdis b (Or.inr (Or.inr hm))).1 hb
    · exact (hdis b (Or.inr (Or.inr hm))).2 hb
  have hc1 : CtxLinked h1 hd ctx a :=
    habove.congr (fun b hb => fctx b (Or.inr hb)) (by rw [getParent, getParent, fctx hd (Or.inl rfl)])
  have hr1 : getParent h1 hd = some (ptr (plug ctx (.mk σ c .nil a X))) := by
    rw [getParent, fctx hd (Or.inl rfl)]
    exact hat.getParent_header
  obtain ⟨n, hn1, e2⟩ := hc1.replaceInParent (s := .left) (ptr X) hr1 hroot hsib
  set h2 := h1.set (holder hd ctx) (hook ctx (ptr X) n) with hh2
  have hholder : h1.load (holder hd ctx) = h.load (holder hd ctx) := f1 _ hp.2.2
  have hlab : (plug ctx X).inorder = l.erase a := by
    rw [← hat.labels] at hnl ⊢
    exact (erase_plug_mk (List.nodup_cons.mp hnl).2).symm
  have hnd : (hd :: l.erase a).Nodup := hnl.sublist (List.erase_sublist.cons_cons hd)
  have h20 : h2.load 0 = none := by
    obtain ⟨m, hm⟩ := hat.load_holder
    rw [hh2, Mem.load_set, if_neg (hat.ne_zero hm).symm, f1 0, hat.null]
    exact fun h0 => hat.zero_notMem (Tree.mem_inorder_mk.mpr (Or.inr (Or.inr h0)))
  have hat2 : At h2 hd (l.erase a) ctx X := by
    refine hat.replace (hX1.congr fun b hb => ?_) hlab hnd h20 (fun b hb hbp => ?_) ?_
    · rw [hh2, Mem.load_set, if_neg]
      rintro rfl
      exact hp.2.2 hb
    · rw [hh2, Mem.load_set, if_neg hbp, fctx b hb]
    · rw [hh2, Mem.load_set, if_pos rfl, ← hholder, hn1]
      rfl
  have hlX : ∀ b ∈ X.inorder, b ∈ l := by
    intro b hb
    rw [← hat.labels, inorder_plug]
    simp [Tree.mem_inorder_mk, hb]
  have hlctx : ∀ b, b ∈ before ctx ∨ b ∈ after ctx → b ∈ l := by
    intro b hb
    rw [← hat.labels, inorder_plug]
    simp only [List.mem_append]
    grind
  have hhdctx : hd ∉ before ctx ∧ hd ∉ after ctx := by
    simp only [List.nodup_cons, List.mem_append] at hctx
    grind
  have r2 : Relink h h2 hd l := (r1 hd l hhd.2.2 hlX).trans (Relink.of_hook hn1 _ hlctx hhdctx)
  have ha2 : h2.load a = some (sided σ c (holder hd ctx) 0 (ptr X) (some v)) := by
    rw [hh2, Mem.load_set, if_neg (Ne.symm hp.1), f1 a htn.2.1, ha, ptr_nil]
  obtain ⟨m, hm, hmc, hme⟩ := he.of_relink r2
  rw [← hat.labels] at hme hnl
  obtain ⟨h3, e3, hd3, f3, w3⟩ := eraseEnd_at (r2.ok hok) hat2 hnl ha2 hm (hme .left)
  have hpar : getParent h3 hd = getParent h2 hd := by
    rw [getParent_eq hd3, getParent_eq hm, parent_setChild]
  have hat3 := hat2.of_header f3 hpar
  have ha3 := (f3 a (Ne.symm hhd.1)).trans ha2
  obtain ⟨h4, e4, hd4, f4, w4⟩ := eraseEnd_at (s := .right) (w3.ok (r2.ok hok)) hat3 hnl ha3 hd3
    ((child_opp_setChild _ .left _).trans (hme .right))
  have hsub : ∀ b ∈ l.erase a, b ∈ l := fun b hb => List.mem_of_mem_erase hb
  refine ⟨h4, ?_, hat3.of_header f4 ?_, ⟨_, hd4, by simp [hmc], ?_⟩, ?_,
    r2.toWithin.trans ((w3.mono hsub).trans (w4.mono hsub))⟩
  · rw [eraseOne, getParent_eq ha]
    simp only [Option.bind_eq_bind, Option.bind_some, parent_sided, e1, e2, e3, e4]
    rfl
  · rw [getParent_eq hd4, getParent_eq hd3, parent_setChild]
  · rintro (_ | _)
    · exact (child_opp_setChild _ .right _).trans (child_setChild _ .left _)
    · exact child_setChild _ .right _
  · rw [getColor, f4 a (Ne.symm hhd.1), ha3, Option.map_some, color_sided]

/-! ### A node with two children -/

/-- `y`, already holding the subtrees, takes the place of `a`. -/
theorem takePlace_at {h₀ : Heap V} {c cy : Color} {tl tr tr' : Tree ℕ} {y q : ℕ} {v : V} {n : RbNode V}
    (hat : At h₀ hd l ctx (.node c tl a tr)) (ht : tl.inorder ++ tr.inorder = tl.inorder ++ y :: tr'.inorder)
    (hl : Linked h y tl) (hr : Linked h y tr') (hy : h.load y = some ⟨cy, q, ptr tl, ptr tr', some v⟩)
    (ha : h.load a = some n) (hap : n.parent = holder hd ctx) (hac : n.color = c)
    (h0 : h.load 0 = none)
    (hctx : ∀ b, b = hd ∨ b ∈ before ctx ∨ b ∈ after ctx → h.load b = h₀.load b) :
    ∃ h', takePlace h a y hd = some h' ∧ At h' hd (l.erase a) ctx (.node c tl y tr') ∧
      getColor h' a = some cy ∧ Relink h h' hd l := by
  obtain ⟨hparts, htn, hhd, hdis⟩ := hat.nodup_parts
  have hp := hat.holder_notMem
  have hroot := hat.ptr_ne_root
  have hsib := hat.ptr_ne_sib (by simp)
  have habove := hat.above
  have hnl := hat.nodup
  have hmem : ∀ b, b ∈ tl.inorder ∨ b = y ∨ b ∈ tr'.inorder → b ∈ (Tree.node c tl a tr).inorder ∧ b ≠ a := by
    intro b hb
    have hb' : b ∈ tl.inorder ++ tr.inorder := by rw [ht]; simpa using hb
    simp only [Tree.inorder_node, List.nodup_append, List.nodup_cons, List.mem_cons, List.mem_append] at *
    grind
  have hyt := hmem y (by simp)
  have hytl : y ∉ tl.inorder ∧ y ∉ tr'.inorder := by
    have : (tl.inorder ++ y :: tr'.inorder).Nodup := by
      rw [← ht]
      refine htn.sublist ?_
      rw [Tree.inorder_node]
      exact List.Sublist.append_left (List.sublist_cons_self a _) _
    simp only [List.nodup_append, List.nodup_cons, List.mem_cons] at this
    grind
  have hne : ∀ b, b ∈ tl.inorder ∨ b = y ∨ b ∈ tr'.inorder → b ≠ holder hd ctx ∧ b ≠ a := by
    intro b hb
    obtain ⟨h1, h2⟩ := hmem b hb
    exact ⟨fun he => hp (he ▸ h1), h2⟩
  have hpa : holder hd ctx ≠ a := by
    rintro e
    rw [e] at hp
    simp at hp
  simp only [ptr_node] at hroot hsib habove
  have hc : CtxLinked h hd ctx a :=
    habove.congr (fun b hb => hctx b (Or.inr hb)) (by rw [getParent, getParent, hctx hd (Or.inl rfl)])
  have hrt : getParent h hd = some (ptr (plug ctx (.node c tl a tr))) := by
    rw [getParent, hctx hd (Or.inl rfl)]
    exact hat.getParent_header
  obtain ⟨m, hm, e1⟩ := hc.replaceInParent (s := .left) y hrt hroot hsib
  set h1 := h.set (holder hd ctx) (hook ctx y m) with hh1
  have h1y : h1.load y = some ⟨cy, q, ptr tl, ptr tr', some v⟩ := by
    rw [hh1, Mem.load_set, if_neg (hne y (by simp)).1, hy]
  set h2 := h1.set y ⟨cy, holder hd ctx, ptr tl, ptr tr', some v⟩ with hh2
  have h2y : h2.load y = some ⟨cy, holder hd ctx, ptr tl, ptr tr', some v⟩ := by
    rw [hh2, Mem.load_set, if_pos rfl]
  have h2a : h2.load a = some n := by
    rw [hh2, Mem.load_set, if_neg hyt.2.symm, hh1, Mem.load_set, if_neg hpa.symm, ha]
  set h3 := h2.set y ⟨c, holder hd ctx, ptr tl, ptr tr', some v⟩ with hh3
  have h3a : h3.load a = some n := by rw [hh3, Mem.load_set, if_neg hyt.2.symm, h2a]
  set h4 := h3.set a (n.setColor cy) with hh4
  have f4 : ∀ b, b ≠ a → b ≠ y → b ≠ holder hd ctx → h4.load b = h.load b := by
    intro b b1 b2 b3
    rw [hh4, Mem.load_set, if_neg b1, hh3, Mem.load_set, if_neg b2, hh2, Mem.load_set, if_neg b2, hh1,
      Mem.load_set, if_neg b3]
  have hrun : takePlace h a y hd = some h4 := by
    rw [takePlace, getParent_eq ha, hap]
    simp only [Option.bind_eq_bind, Option.bind_some, e1, Mem.update_eq h1y]
    rw [show (RbNode.setParent (holder hd ctx) ⟨cy, q, ptr tl, ptr tr', some v⟩ : RbNode V) =
      ⟨cy, holder hd ctx, ptr tl, ptr tr', some v⟩ from rfl, ← hh2]
    simp only [getColor_eq h2y, getColor_eq h2a, Option.bind_some, Mem.update_eq h2y, hac]
    rw [show (RbNode.setColor c ⟨cy, holder hd ctx, ptr tl, ptr tr', some v⟩ : RbNode V) =
      ⟨c, holder hd ctx, ptr tl, ptr tr', some v⟩ from rfl, ← hh3, Mem.update_eq h3a]
  have hal : a ∈ l := by
    rw [← hat.labels, inorder_plug]
    simp
  have hyl : y ∈ l := by
    rw [← hat.labels, inorder_plug, List.mem_append, List.mem_append]
    exact Or.inl (Or.inr hyt.1)
  have hhda : hd ≠ a := by
    rintro rfl
    simp at hhd
  have hhdy : hd ≠ y := by
    rintro rfl
    exact hhd hyt.1
  refine ⟨h4, hrun, ?_, ?_, ?_⟩
  · refine hat.replace ⟨⟨v, ?_⟩, hl.congr fun b hb => ?_, hr.congr fun b hb => ?_⟩ ?_
      (hnl.sublist (List.erase_sublist.cons_cons hd)) ?_ (fun b hb hbp => ?_) ?_
    · rw [hh4, Mem.load_set, if_neg hyt.2, hh3, Mem.load_set, if_pos rfl]
    · obtain ⟨b1, b2⟩ := hne b (Or.inl hb)
      exact f4 b b2 (by rintro rfl; exact hytl.1 hb) b1
    · obtain ⟨b1, b2⟩ := hne b (Or.inr (Or.inr hb))
      exact f4 b b2 (by rintro rfl; exact hytl.2 hb) b1
    · rw [← hat.labels] at hnl ⊢
      rw [erase_plug (List.nodup_cons.mp hnl).2, inorder_plug, Tree.inorder_node, ht]
    · have hp0 : holder hd ctx ≠ 0 := by
        obtain ⟨m, hm⟩ := hat.load_holder
        exact hat.ne_zero hm
      rw [f4 0 ?_ ?_ hp0.symm, h0]
      · rintro rfl
        rw [h0] at ha
        cases ha
      · rintro rfl
        rw [h0] at hy
        cases hy
    · have hbm : b ∉ (Tree.node c tl a tr).inorder := by
        rcases hb with rfl | hb | hb
        · exact hhd
        · exact fun hm => (hdis b hm).1 hb
        · exact fun hm => (hdis b hm).2 hb
      rw [f4 b (by rintro rfl; simp at hbm) (by rintro rfl; exact hbm hyt.1) hbp, hctx b hb]
    · rw [hh4, Mem.load_set, if_neg hpa, hh3, Mem.load_set, if_neg (hne y (by simp)).1.symm, hh2,
        Mem.load_set, if_neg (hne y (by simp)).1.symm, hh1, Mem.load_set, if_pos rfl]
      have : h₀.load (holder hd ctx) = some m := by
        rw [← hctx, hm]
        cases ctx with
        | nil => exact Or.inl rfl
        | cons f ctx =>
            obtain ⟨s, c', x, u⟩ := f
            cases s <;> simp [Frame.before, Frame.after]
      rw [this]
      rfl
  · rw [hh4, getColor, Mem.load_set, if_pos rfl]
    rfl
  · have hlctx : ∀ b, b ∈ before ctx ∨ b ∈ after ctx → b ∈ l := by
      intro b hb
      rw [← hat.labels, inorder_plug]
      simp only [List.mem_append]
      grind
    have hhdctx : hd ∉ before ctx ∧ hd ∉ after ctx := by
      simp only [List.nodup_cons, List.mem_append] at hparts
      grind
    have r1 : Relink h h1 hd l := Relink.of_hook hm y hlctx hhdctx
    have r2 : Relink h1 h2 hd l := Relink.of_set h1y hyl hhdy.symm rfl
    have r3 : Relink h2 h3 hd l := Relink.of_set h2y hyl hhdy.symm rfl
    exact r1.trans (r2.trans (r3.trans (Relink.of_set h3a hal hhda.symm rfl)))

/-- The successor `y` below a proper left path leaves it to its child `u`. -/
theorem detachSuccessor_at {f : Frame ℕ} {cy : Ctx ℕ} {c : Color} {u : Tree ℕ} {y q : ℕ} {v : V}
    (hs : f.side = .left) (hc : Hung h a (f :: cy) y) (hu : Linked h y u) (h0 : h.load 0 = none)
    (hy : h.load y = some ⟨c, f.addr, q, ptr u, some v⟩)
    (hn : (plug (f :: cy) (.node c .nil y u)).inorder.Nodup) :
    ∃ h', detachSuccessor h y (ptr u) (ptr (plug (f :: cy) u)) = some (h', f.addr) ∧
      h'.load y = some ⟨c, f.addr, q, ptr (plug (f :: cy) u), some v⟩ ∧
      Linked h' y (plug (f :: cy) u) ∧
      (∀ b, b ∉ (plug (f :: cy) (.node c .nil y u)).inorder → h'.load b = h.load b) ∧
      ∀ hd l, hd ∉ (plug (f :: cy) (.node c .nil y u)).inorder →
        (∀ b ∈ (plug (f :: cy) (.node c .nil y u)).inorder, b ∈ l) → Relink h h' hd l := by
  obtain ⟨⟨w, hf⟩, hsib, hcy⟩ := hc
  have hnodes : ∀ b, b ∈ (plug (f :: cy) (.node c .nil y u)).inorder ↔
      b ∈ before (f :: cy) ∨ b = y ∨ b ∈ u.inorder ∨ b ∈ after (f :: cy) := by
    intro b
    simp only [inorder_plug, Tree.inorder_node, Tree.inorder_nil, List.mem_append, List.mem_cons,
      List.not_mem_nil, false_or]
    grind
  have hnt : (plug (f :: cy) u).inorder.Nodup := hn.sublist (by
    rw [inorder_plug, inorder_plug]
    exact ((List.sublist_cons_self y _).append_left _).append_right _)
  have hyu : y ∉ u.inorder ∧ y ∉ (plug (f :: cy) u).inorder := by
    simp only [inorder_plug, Tree.inorder_node, Tree.inorder_nil, List.nodup_append, List.nodup_cons,
      List.nil_append, List.mem_append, List.mem_cons] at hn ⊢
    grind
  have hdis : ∀ b, b ∈ u.inorder → b ∉ before (f :: cy) ∧ b ∉ after (f :: cy) := by
    simp only [inorder_plug, List.nodup_append, List.mem_append] at hnt
    grind
  have hfm := mem_frame cy (f := f) (Or.inl rfl)
  have hfu : f.addr ∉ u.inorder := fun hm => (hdis _ hm).elim fun h1 h2 => hfm.elim h1 h2
  have hfrest : f.addr ∉ f.sib.inorder ∧ f.addr ∉ before cy ∧ f.addr ∉ after cy := by
    obtain ⟨s, c', x, sb⟩ := f
    obtain rfl : s = .left := hs
    simp only [inorder_plug, before_cons, after_cons, Frame.before, Frame.after, List.append_nil,
      List.cons_append, List.nodup_append, List.nodup_cons, List.mem_append, List.mem_cons] at hnt ⊢
    grind
  have hyf : y ≠ f.addr := by
    rintro rfl
    rw [inorder_plug, List.mem_append, List.mem_append] at hyu
    grind
  -- the child of `y` is hung on the parent of `y`
  obtain ⟨h1, e1, hu1, f1, r1⟩ := hu.updateParent f.addr h0
    (hnt.sublist (by rw [inorder_plug]; exact (List.sublist_append_right _ _).trans (List.sublist_append_left _ _)))
  have h1f : h1.load f.addr = some (sided f.side f.color (holder a cy) y (ptr f.sib) (some w)) := by
    rw [f1 _ hfu, hf]
  set h2 := h1.set f.addr (sided f.side f.color (holder a cy) (ptr u) (ptr f.sib) (some w)) with hh2
  have fctx : ∀ b, (b ∈ before (f :: cy) ∨ b ∈ after (f :: cy)) → b ≠ f.addr → h2.load b = h.load b := by
    intro b hb hbf
    rw [hh2, Mem.load_set, if_neg hbf]
    exact f1 b fun hm => (hdis b hm).elim fun h1 h2 => hb.elim h1 h2
  have hlinked2 : Linked h2 a (plug (f :: cy) u) := by
    refine linked_plug.mpr ⟨⟨⟨w, by rw [hh2, Mem.load_set, if_pos rfl]⟩, hsib.congr fun b hb => ?_,
      hcy.congr fun b hb => ?_⟩, hu1.congr fun b hb => ?_⟩
    · exact fctx b (mem_frame _ (Or.inr hb)) (by rintro rfl; exact hfrest.1 hb)
    · refine fctx b ?_ (by rintro rfl; exact hb.elim hfrest.2.1 hfrest.2.2)
      simp only [before_cons, after_cons, List.mem_append]
      grind
    · rw [hh2, Mem.load_set, if_neg]
      rintro rfl
      exact hfu hb
  have h2y : h2.load y = some ⟨c, f.addr, q, ptr u, some v⟩ := by
    rw [hh2, Mem.load_set, if_neg hyf, f1 y hyu.1, hy]
  -- `y` takes the right subtree
  set h3 := h2.set y ⟨c, f.addr, q, ptr (plug (f :: cy) u), some v⟩ with hh3
  have hlinked3 : Linked h3 a (plug (f :: cy) u) := hlinked2.congr fun b hb => by
    rw [hh3, Mem.load_set, if_neg]
    rintro rfl
    exact hyu.2 hb
  have h30 : h3.load 0 = none := by
    have hf0 : f.addr ≠ 0 := by
      intro e
      rw [e, h0] at hf
      cases hf
    have hy0 : y ≠ 0 := by
      rintro rfl
      rw [h0] at hy
      cases hy
    rw [hh3, Mem.load_set, if_neg hy0.symm, hh2, Mem.load_set, if_neg hf0.symm, f1 0, h0]
    intro hm
    obtain ⟨n, hn, _⟩ := hu.load_isSome 0 hm
    rw [h0] at hn
    cases hn
  obtain ⟨h4, e4, hlinked4, f4, r4⟩ := hlinked3.updateParent y h30 hnt
  have hptr : ptr (plug (f :: cy) u) ≠ 0 := by
    obtain ⟨n, hn, _⟩ := hlinked3.load_isSome _ (ptr_mem (plug_ne_nil cy (t := f.fill u) (by simp [Frame.fill])))
    intro e
    rw [e, h30] at hn
    cases hn
  refine ⟨h4, ?_, ?_, hlinked4, ?_, ?_⟩
  · rw [setParentOf, if_pos hptr] at e4
    rw [detachSuccessor, getParent_eq hy]
    simp only [Option.bind_eq_bind, Option.bind_some, e1, Mem.update_eq h1f]
    rw [hs] at hh2 ⊢
    rw [setChild_sided, ← hh2]
    simp only [Mem.update_eq h2y, Option.bind_some]
    rw [show (RbNode.setChild .right (ptr (plug (f :: cy) u)) ⟨c, f.addr, q, ptr u, some v⟩ : RbNode V) =
      ⟨c, f.addr, q, ptr (plug (f :: cy) u), some v⟩ from rfl, ← hh3, e4]
    rfl
  · rw [f4 y hyu.2, hh3, Mem.load_set, if_pos rfl]
  · intro b hb
    rw [hnodes] at hb
    push Not at hb
    have hbt : b ∉ (plug (f :: cy) u).inorder := by
      rw [inorder_plug, List.mem_append, List.mem_append]
      grind
    rw [f4 b hbt, hh3, Mem.load_set, if_neg hb.2.1, hh2, Mem.load_set, if_neg, f1 b hb.2.2.1]
    rintro rfl
    exact hfm.elim hb.1 hb.2.2.2
  · intro hd l hhd hl
    have hsub : ∀ b ∈ (plug (f :: cy) u).inorder, b ∈ (plug (f :: cy) (.node c .nil y u)).inorder := by
      intro b hb
      rw [inorder_plug, List.mem_append, List.mem_append] at hb
      rw [hnodes]
      grind
    have hyn := (hnodes y).mpr (Or.inr (Or.inl rfl))
    have hfn : f.addr ∈ (plug (f :: cy) (.node c .nil y u)).inorder := by
      rw [hnodes]
      grind
    have hun : ∀ b ∈ u.inorder, b ∈ (plug (f :: cy) (.node c .nil y u)).inorder := by
      intro b hb
      rw [hnodes]
      grind
    have R1 : Relink h h1 hd l := r1 hd l (fun hm => hhd (hun hd hm)) fun b hb => hl b (hun b hb)
    have R2 : Relink h1 h2 hd l := Relink.of_set h1f (hl _ hfn) (fun e => hhd (e ▸ hfn)) (by simp)
    have R3 : Relink h2 h3 hd l := Relink.of_set h2y (hl _ hyn) (fun e => hhd (e ▸ hyn)) rfl
    have R4 : Relink h3 h4 hd l := r4 hd l (fun hm => hhd (hsub hd hm)) fun b hb => hl b (hsub b hb)
    exact R1.trans (R2.trans (R3.trans R4))

/-- The header points at the same ends when an inner node goes. -/
theorem endD_erase_inner {c : Color} {tl tr : Tree ℕ} (hn : (plug ctx (.node c tl a tr)).inorder.Nodup)
    (hl : tl ≠ .nil) (hr : tr ≠ .nil) (s : Side) (d : ℕ) :
    endD s ((plug ctx (.node c tl a tr)).inorder.erase a) d = endD s (plug ctx (.node c tl a tr)).inorder d := by
  have hl' : tl.inorder ≠ [] := List.ne_nil_of_mem (ptr_mem hl)
  have hr' : tr.inorder ≠ [] := List.ne_nil_of_mem (ptr_mem hr)
  rw [erase_plug hn, inorder_plug]
  cases s with
  | left =>
      simp only [Tree.inorder_node, endD_left_append]
      rw [endD_congr .left hl']
  | right =>
      have e : tl.inorder ++ a :: tr.inorder = (tl.inorder ++ [a]) ++ tr.inorder := by simp
      simp only [Tree.inorder_node, e, endD_right_append]
      rw [endD_congr .right hr']

/-- The successor of `a` takes its place. -/
theorem eraseTwo_at {c : Color} {tl tr : Tree ℕ} (hok : h.Ok) (hat : At h hd l ctx (.node c tl a tr))
    (hl : tl ≠ .nil) (hr : tr ≠ .nil) (he : Ends h hd l) :
    ∃ h' cy cc y u, tr = plug cy (.node cc .nil y u) ∧
      eraseTwo h a hd = some ⟨h', ptr u, holder hd (cy ++ ⟨.right, c, y, tl⟩ :: ctx)⟩ ∧
      At h' hd (l.erase a) (cy ++ ⟨.right, c, y, tl⟩ :: ctx) u ∧ Ends h' hd (l.erase a) ∧
      getColor h' a = some cc ∧ Within h h' hd l := by
  obtain ⟨⟨va, ha⟩, htl, htr⟩ := hat.tree
  have hatl : At h hd l (⟨.left, c, a, tr⟩ :: ctx) tl := At.cons_iff.mpr hat
  have hatr : At h hd l (⟨.right, c, a, tl⟩ :: ctx) tr := At.cons_iff.mpr hat
  obtain ⟨hparts, htn, hhd, hdis⟩ := hat.nodup_parts
  have hnl := hat.nodup
  have h0 := hat.null
  have hL := hatl.ptr_ne_zero hl
  have hlab := hat.labels
  have hltree : ∀ b ∈ (Tree.node c tl a tr).inorder, b ∈ l := by
    intro b hb
    rw [← hlab, inorder_plug, List.mem_append, List.mem_append]
    exact Or.inl (Or.inr hb)
  have hexr := htr.extremumLoop .left h0 hr (hatr.length_le_walkBound hok) 0
  obtain ⟨cy, cc, y, u, etr, hcy⟩ := exists_end .left hr
  have hy : endD .left tr.inorder 0 = y := by
    rw [etr, endD_plug, hcy, endD_nil, endD_mk]
    rfl
  rw [hy] at hexr
  simp only [outer] at hcy
  have htri : tr.inorder = y :: (u.inorder ++ after cy) := by
    rw [etr, inorder_plug, hcy]
    simp [Tree.mk]
  have hTn : tl.inorder.Nodup ∧ tr.inorder.Nodup ∧ a ∉ tl.inorder ∧ a ∉ tr.inorder ∧
      ∀ b ∈ tl.inorder, b ∉ tr.inorder := by
    simp only [Tree.inorder_node, List.nodup_append, List.nodup_cons, List.mem_cons] at htn
    grind
  obtain ⟨htln, htrn, hatl', hatr', hlr⟩ := hTn
  rw [etr] at htr
  obtain ⟨hhung, ⟨vy, hvy⟩, _, hu⟩ := linked_plug.mp htr
  rw [ptr_nil] at hvy
  have hytr : y ∈ tr.inorder := by simp [htri]
  have hytl : y ∉ tl.inorder := fun hm => hlr y hm hytr
  have hyu : y ∉ u.inorder ∧ y ∉ after cy := by
    rw [htri, List.nodup_cons, List.mem_append] at htrn
    grind
  -- the left subtree goes to `y`
  obtain ⟨h1, e1, htl1, f1, r1⟩ := htl.updateParent y h0 htln
  rw [setParentOf, if_pos hL] at e1
  have h1y : h1.load y = some ⟨cc, holder a cy, 0, ptr u, some vy⟩ := by rw [f1 y hytl, hvy]
  set h2 := h1.set y ⟨cc, holder a cy, ptr tl, ptr u, some vy⟩ with hh2
  have f2 : ∀ b, b ∉ tl.inorder → b ≠ y → h2.load b = h.load b := by
    intro b hb hby
    rw [hh2, Mem.load_set, if_neg hby, f1 b hb]
  have h2y : h2.load y = some ⟨cc, holder a cy, ptr tl, ptr u, some vy⟩ := by
    rw [hh2, Mem.load_set, if_pos rfl]
  have htl2 : Linked h2 y tl := htl1.congr fun b hb => by
    rw [hh2, Mem.load_set, if_neg]
    rintro rfl
    exact hytl hb
  have ftr : ∀ b, b ∈ u.inorder ∨ b ∈ after cy → h2.load b = h.load b := by
    intro b hb
    have hbt : b ∈ tr.inorder := by
      rw [htri, List.mem_cons, List.mem_append]
      exact Or.inr hb
    exact f2 b (fun hm => hlr b hm hbt) (by rintro rfl; exact hb.elim hyu.1 hyu.2)
  have hu2 : Linked h2 y u := hu.congr fun b hb => ftr b (Or.inl hb)
  have hhung2 : Hung h2 a cy y := hhung.congr fun b hb => ftr b (Or.inr (by simpa [hcy] using hb))
  have h20 : h2.load 0 = none := by
    rw [f2 0, h0]
    · exact fun hm => hat.zero_notMem (by simp [hm])
    · exact (hat.ne_zero hvy).symm
  have hhdt : hd ∉ tl.inorder ∧ hd ∉ tr.inorder ∧ hd ≠ a := by
    simp only [Tree.inorder_node, List.mem_append, List.mem_cons] at hhd
    grind
  have hhdy : y ≠ hd := by
    rintro rfl
    exact hhdt.2.1 hytr
  have r2 : Relink h h2 hd l := (r1 hd l hhdt.1 fun b hb => hltree b (by simp [hb])).trans
    (Relink.of_set h1y (hltree y (by simp [hytr])) hhdy rfl)
  have hctx2 : ∀ b, b = hd ∨ b ∈ before ctx ∨ b ∈ after ctx → h2.load b = h.load b := by
    intro b hb
    have hbt : b ∉ (Tree.node c tl a tr).inorder := by
      rcases hb with rfl | hb | hb
      · exact hhd
      · exact fun hm => (hdis b hm).1 hb
      · exact fun hm => (hdis b hm).2 hb
    simp only [Tree.inorder_node, List.mem_append, List.mem_cons] at hbt
    push Not at hbt
    exact f2 b hbt.1 (by rintro rfl; exact hbt.2.2 hytr)
  have h2a : h2.load a = some ⟨c, holder hd ctx, ptr tl, ptr tr, some va⟩ := by
    rw [f2 a hatl' (by rintro rfl; exact hatr' hytr), ha]
  have hsplit : tl.inorder ++ tr.inorder = tl.inorder ++ y :: (plug cy u).inorder := by
    rw [htri, inorder_plug, hcy]
    simp
  -- `y` gets its right subtree, `cy` being the path to it
  have hmid : ∃ h3 q, (if y ≠ ptr tr then detachSuccessor h2 y (ptr u) (ptr tr) else pure (h2, y)) =
      some (h3, holder y cy) ∧ h3.load y = some ⟨cc, q, ptr tl, ptr (plug cy u), some vy⟩ ∧
      Linked h3 y (plug cy u) ∧ (∀ b, b ∉ tr.inorder → h3.load b = h2.load b) ∧
      Relink h2 h3 hd l := by
    cases cy with
    | nil =>
        refine ⟨h2, a, ?_, h2y, hu2, fun _ _ => rfl, Relink.refl h2 hd l⟩
        rw [etr, plug_nil, ptr_mk, if_neg (by simp)]
        rfl
    | cons f cy =>
        have hs : f.side = .left := by
          cases hfs : f.side with
          | left => rfl
          | right => simp [Frame.before, hfs] at hcy
        have hnr : (plug (f :: cy) (.node cc .nil y u)).inorder.Nodup := etr ▸ htrn
        obtain ⟨h3, e3, h3y, hl3, f3, r3⟩ := detachSuccessor_at hs hhung2 hu2 h20 h2y hnr
        have hR : ptr (plug (f :: cy) u) = ptr tr := by
          rw [etr]
          exact ptr_plug_congr (by simp)
        have hyne : y ≠ ptr tr := by
          rw [← hR]
          intro e
          have hm := ptr_mem (plug_ne_nil cy (t := f.fill u) (by simp [Frame.fill]))
          rw [← plug_cons, ← e, inorder_plug, hcy] at hm
          simp only [List.nil_append, List.mem_append] at hm
          exact hm.elim hyu.1 hyu.2
        rw [hR] at e3
        refine ⟨h3, _, by rw [if_pos hyne]; exact e3, h3y, hl3, ?_, r3 hd l ?_ ?_⟩
        · rw [etr]
          exact f3
        · exact etr ▸ hhdt.2.1
        · intro b hb
          have hbt : b ∈ tr.inorder := by
            rw [etr]
            exact hb
          exact hltree b (by simp [hbt])
  obtain ⟨h3, q, e3, h3y, hl3, f3, r3⟩ := hmid
  obtain ⟨h4, e4, hat4, hc4, r4⟩ := takePlace_at (h := h3) hat hsplit
    (htl2.congr fun b hb => f3 b (hlr b hb)) hl3 h3y ((f3 a hatr').trans h2a) rfl rfl
    ((f3 0 fun hm => hat.zero_notMem (by simp [hm])).trans h20) fun b hb => by
      rw [f3 b, hctx2 b hb]
      rcases hb with rfl | hb | hb
      · exact hhdt.2.1
      · exact fun hm => (hdis b (by simp [hm])).1 hb
      · exact fun hm => (hdis b (by simp [hm])).2 hb
  have R := r2.trans (r3.trans r4)
  refine ⟨h4, cy, cc, y, u, etr, ?_, ?_, ?_, hc4, R.toWithin⟩
  · rw [eraseTwo, getChild_eq _ ha]
    simp only [Option.bind_eq_bind, Option.bind_some, child, hexr, getChild_eq _ hvy, getChild_eq _ ha, e1,
      Mem.update_eq h1y]
    rw [show (RbNode.setChild .left (ptr tl) ⟨cc, holder a cy, 0, ptr u, some vy⟩ : RbNode V) =
      ⟨cc, holder a cy, ptr tl, ptr u, some vy⟩ from rfl, ← hh2, e3]
    simp only [Option.bind_some, e4]
    cases cy <;> rfl
  · rw [At.iff_plug]
    exact At.cons_iff.mpr hat4
  · obtain ⟨n, hn, hcol, hends⟩ := he.of_relink R
    refine ⟨n, hn, hcol, fun s => ?_⟩
    rw [hends s, ← hlab]
    rw [← hlab] at hnl
    exact (endD_erase_inner (List.nodup_cons.mp hnl).2 hl hr s hd).symm

/-! ### The whole function -/

/-- The loop after the unlinking of a node of colour `c` above the empty tree and `u`. -/
theorem eraseFixup_at (dbg : Bool) {s : Side} {c : Color} {u : Tree ℕ} {y k : ℕ} (hok : h.Ok)
    (hat : At h hd l ctx u) (hctx : CtxRB ctx k) (hu : (Tree.mk s c .nil y u).RB k)
    (hca : getColor h a = some c) :
    ∃ h' T m, (do
        let c ← getColor h a
        if c ≠ .red then
          let (h, x) ← eraseLoop dbg hd (walkBound h) h (ptr u) (holder hd ctx)
          let h ← paintBlack h x
          pure (h, a)
        else pure (h, a)) = some (h', a) ∧
      At h' hd l [] T ∧ T.RB m ∧ T.color = .black ∧ Relink h h' hd l := by
  rw [hca]
  simp only [Option.bind_eq_bind, Option.bind_some]
  cases c with
  | red =>
      obtain ⟨_, h2, _, h4⟩ := Tree.rb_mk_red.mp hu
      obtain ⟨⟨m, hm⟩, hb⟩ := plug_rb hctx h4 (Or.inl h2)
      exact ⟨h, plug ctx u, m, by simp, hat.toRoot, hm, hb, Relink.refl h hd l⟩
  | black =>
      obtain ⟨j, rfl, h1, h2⟩ := Tree.rb_mk_black.1 hu
      have hshort : Short j u := by
        cases hc : u.color with
        | black => exact Or.inl ⟨hc, h2⟩
        | red => exact Or.inr ⟨hc, h2.setColor_black hc⟩
      obtain ⟨h1, x, h', e, e', hat', r⟩ :=
        eraseLoop_at dbg (walkBound h) ctx u hat hctx hshort (hat.length_lt_walkBound hok)
      obtain ⟨⟨m, hm⟩, hb⟩ := delFix_rb ctx u hctx hshort
      refine ⟨h', delFix ctx u, m, ?_, hat', hm, hb, r⟩
      simp [e, e']

/-- **`rb_tree_erase_rebalance`** takes the node out and leaves a balanced tree. -/
theorem eraseRebalance_at (dbg : Bool) {c : Color} {tl tr : Tree ℕ} {n : ℕ} (hok : h.Ok)
    (hat : At h hd l ctx (.node c tl a tr)) (he : Ends h hd l)
    (hrb : (plug ctx (.node c tl a tr)).RB n) (hb : (plug ctx (.node c tl a tr)).color = .black) :
    ∃ h' T m, rbTreeEraseRebalance dbg h a hd = some (h', a) ∧ At h' hd (l.erase a) [] T ∧
      T.RB m ∧ T.color = .black ∧ Ends h' hd (l.erase a) ∧ Within h h' hd l := by
  have hsub : ∀ b ∈ l.erase a, b ∈ l := fun b hb => List.mem_of_mem_erase hb
  obtain ⟨k, hctx, hrb', _⟩ := rb_of_plug hrb hb
  obtain ⟨⟨v, hv⟩, _⟩ := hat.tree
  have hatl : At h hd l (⟨.left, c, a, tr⟩ :: ctx) tl := At.cons_iff.mpr hat
  have hatr : At h hd l (⟨.right, c, a, tl⟩ :: ctx) tr := At.cons_iff.mpr hat
  rw [rbTreeEraseRebalance, getChild_eq _ hv, getChild_eq _ hv]
  simp only [Option.bind_eq_bind, Option.bind_some, child]
  by_cases hl : tl = .nil
  · subst hl
    obtain ⟨h1, e1, hat1, he1, hc1, w1⟩ := eraseOne_at (σ := .left) hok hat he
    obtain ⟨h', T, m, e2, hat2, hT, hTb, r2⟩ :=
      eraseFixup_at dbg (s := .left) (w1.ok hok) hat1 hctx hrb' hc1
    refine ⟨h', T, m, ?_, hat2, hT, hTb, he1.of_relink r2, w1.trans (r2.toWithin.mono hsub)⟩
    rw [ptr_nil, if_pos rfl, e1]
    exact e2
  · by_cases hr : tr = .nil
    · subst hr
      obtain ⟨h1, e1, hat1, he1, hc1, w1⟩ := eraseOne_at (σ := .right) hok hat he
      obtain ⟨h', T, m, e2, hat2, hT, hTb, r2⟩ :=
        eraseFixup_at dbg (s := .right) (w1.ok hok) hat1 hctx hrb' hc1
      refine ⟨h', T, m, ?_, hat2, hT, hTb, he1.of_relink r2, w1.trans (r2.toWithin.mono hsub)⟩
      rw [if_neg (hatl.ptr_ne_zero hl), ptr_nil, if_pos rfl, e1]
      exact e2
    · obtain ⟨h1, cy, cc, y, u, etr, e1, hat1, he1, hc1, w1⟩ := eraseTwo_at hok hat hl hr he
      have hplug : plug ctx (.node c tl a tr) =
          plug (cy ++ ⟨.right, c, a, tl⟩ :: ctx) (.node cc .nil y u) := by
        rw [plug_append, ← etr]
        rfl
      rw [hplug] at hrb hb
      obtain ⟨k', hctx', hrb'', _⟩ := rb_of_plug hrb hb
      obtain ⟨h', T, m, e2, hat2, hT, hTb, r2⟩ :=
        eraseFixup_at dbg (s := .left) (w1.ok hok) hat1 hctx'.relabel hrb'' hc1
      refine ⟨h', T, m, ?_, hat2, hT, hTb, he1.of_relink r2, w1.trans (r2.toWithin.mono hsub)⟩
      rw [if_neg (hatl.ptr_ne_zero hl), if_neg (hatr.ptr_ne_zero hr), e1]
      exact e2

end NeForce.Rb
