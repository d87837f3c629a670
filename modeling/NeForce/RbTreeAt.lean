import NeForce.RbInsert
import NeForce.RbIterator
import NeForce.RbTree
import NeForce.RbUnlink

/-! # The tree invariant

`TreeAt key h t s T` says that the object `t` holds the sequence `s` of nodes and values: the
balanced tree `T` lies in memory below the header, which points at both ends, the values are
constructed, sorted by the comparison of `t`, and counted by `size`.  `Owns h t used F` says that
`t` has a pool with the nodes `used` handed out, and that its footprint is `F`: the header and
all cells of the chunks.  `Holds` joins the two.

A node hung on an empty place (`At.graft`) and rebalanced gives the tree with one element more
(`linkHole`), whichever of the linking functions does it. -/

namespace NeForce.Rb

open Ctx RbNode

variable {V K : Type}

structure TreeAt (key : V → K) (h : Heap V) (t : RbTree K) (s : List (ℕ × V)) (T : Tree ℕ) : Prop where
  linked : At h t.header (s.map Prod.fst) [] T
  balanced : ∃ n, T.RB n
  black : T.color = .black
  ends : Ends h t.header (s.map Prod.fst)
  data : ∀ e ∈ s, getData h e.1 = some e.2
  sorted : Sorted t.keyCompare (fun e => key e.2) s
  size : t.size = s.length

/-- The cells of an object: the header and the chunks. -/
def footprint (t : RbTree K) (chunks : List ℕ) : List ℕ := t.header :: chunks.flatMap cells

def Owns (h : Heap V) (t : RbTree K) (used F : List ℕ) : Prop :=
  ∃ free chunks, Pool h t used free chunks ∧ t.header ∉ chunks.flatMap cells ∧ F = footprint t chunks

def Holds (key : V → K) (h : Heap V) (t : RbTree K) (s : List (ℕ × V)) (F : List ℕ) : Prop :=
  (∃ T, TreeAt key h t s T) ∧ Owns h t (s.map Prod.fst) F

/-- Operations on the elements leave the header, the comparison and the allocator alone. -/
structure SameObject (t t' : RbTree K) : Prop where
  header : t'.header = t.header
  keyCompare : t'.keyCompare = t.keyCompare
  alloc : t'.alloc = t.alloc

theorem SameObject.refl (t : RbTree K) : SameObject t t := ⟨rfl, rfl, rfl⟩

theorem SameObject.trans {t t₁ t₂ : RbTree K} (h₁ : SameObject t t₁) (h₂ : SameObject t₁ t₂) :
    SameObject t t₂ :=
  ⟨h₂.header.trans h₁.header, h₂.keyCompare.trans h₁.keyCompare, h₂.alloc.trans h₁.alloc⟩

theorem getData_eq {h : Heap V} {a : ℕ} {n : RbNode V} (e : h.load a = some n) : getData h a = n.data := by
  simp [getData, e]

theorem Within.getData_eq {h h' : Heap V} {hd : ℕ} {l : List ℕ} (w : Within h h' hd l) (a : ℕ) :
    getData h' a = getData h a := by
  have := w.data a
  simp only [getData]
  cases e : h.load a <;> cases e' : h'.load a <;> simp_all

/-! ### Hanging a node on an empty place -/

section

variable {h h' : Heap V} {hd a : ℕ} {l : List ℕ} {ctx : Ctx ℕ} {v : V}

theorem At.graft {c : Color} (hat : At h hd l ctx .nil)
    (ha : h'.load a = some ⟨c, holder hd ctx, 0, 0, some v⟩)
    (hn : (hd :: (plug ctx (.node c .nil a .nil)).inorder).Nodup) (h0 : h'.load 0 = none)
    (e : ∀ b, b ≠ hd → b ≠ a → b ≠ holder hd ctx → h'.load b = h.load b)
    (eh : getParent h' hd = if ctx = [] then some a else getParent h hd)
    (ef : ∀ f rest, ctx = f :: rest → h'.load f.addr = (h.load f.addr).map (·.setChild f.side a)) :
    At h' hd (before ctx ++ a :: after ctx) ctx (.node c .nil a .nil) := by
  refine ⟨⟨⟨v, ha⟩, trivial, trivial⟩, ?_, by simp [inorder_plug], by simpa [inorder_plug] using hn, h0⟩
  cases ctx with
  | nil =>
      rw [if_pos rfl, getParent, Option.map_eq_some_iff] at eh
      exact eh
  | cons f ctx =>
      obtain ⟨⟨w, hw⟩, hs, hc⟩ := hat.above
      rw [if_neg (by simp)] at eh
      simp only [inorder_plug, Tree.inorder_node, Tree.inorder_nil, List.nil_append] at hn
      have hne : ∀ b, b ∈ f.sib.inorder ∨ b ∈ before ctx ∨ b ∈ after ctx →
          b ≠ hd ∧ b ≠ a ∧ b ≠ f.addr := by
        obtain ⟨s, c', x, u⟩ := f
        cases s <;> simp only [before_cons, after_cons, Frame.before, Frame.after, List.append_nil,
          List.nil_append, List.append_assoc, List.cons_append, List.nodup_cons, List.nodup_append,
          List.mem_append, List.mem_cons] at hn ⊢ <;> grind
      have hkeep : ∀ b, b ∈ f.sib.inorder ∨ b ∈ before ctx ∨ b ∈ after ctx → h'.load b = h.load b := by
        intro b hb
        obtain ⟨h1, h2, h3⟩ := hne b hb
        exact e b h1 h2 h3
      refine ⟨⟨w, ?_⟩, hs.congr fun b hb => hkeep b (Or.inl hb),
        hc.congr (fun b hb => hkeep b (Or.inr hb)) eh⟩
      rw [ef f ctx rfl, hw, Option.map_some, setChild_sided, ptr_node]

/-- What the linking functions have done before they hang the node: the place knows it, and the
header its new ends. -/
structure Hooked (h h₁ : Heap V) (hd a : ℕ) (ctx : Ctx ℕ) : Prop where
  frame : ∀ b, b ≠ hd → b ≠ holder hd ctx → h₁.load b = h.load b
  parent : getParent h₁ hd = if ctx = [] then some a else getParent h hd
  place : ∀ f rest, ctx = f :: rest → h₁.load f.addr = (h.load f.addr).map (·.setChild f.side a)
  ends : Ends h₁ hd (before ctx ++ a :: after ctx)
  within : Within h h₁ hd (before ctx ++ after ctx)

/-- `hangNode` makes a balanced tree of it. -/
theorem hangNode_at {t : RbTree K} {n : RbNode V} {h₁ : Heap V} (hok : h.Ok)
    (hat : At h t.header l ctx .nil) (hctx : CtxRB ctx 0) (hn : h.load a = some n) (hv : n.data = some v)
    (hnew : a ∉ t.header :: l) (hh : Hooked h h₁ t.header a ctx) :
    ∃ h' T, hangNode h₁ t (holder t.header ctx) a = some (h', { t with size := t.size + 1 }, a) ∧
      At h' t.header (before ctx ++ a :: after ctx) [] T ∧ (∃ m, T.RB m) ∧ T.color = .black ∧
      Ends h' t.header (before ctx ++ a :: after ctx) ∧ Within h h' t.header (a :: l) := by
  have hl : before ctx ++ after ctx = l := by
    rw [← hat.labels, inorder_plug]
    simp
  rw [List.mem_cons] at hnew
  push Not at hnew
  have hnd : (t.header :: (plug ctx (.node n.color .nil a .nil)).inorder).Nodup := by
    have h1 := hat.nodup
    rw [← hl] at h1 hnew
    simp only [inorder_plug, Tree.inorder_node, Tree.inorder_nil, List.nil_append, List.append_assoc,
      List.cons_append, List.nodup_cons, List.nodup_append, List.mem_append, List.mem_cons] at h1 hnew ⊢
    grind
  have ha0 : a ≠ holder t.header ctx := by
    intro e
    cases ctx with
    | nil => exact hnew.1 e
    | cons f ctx =>
        rw [holder_cons] at e
        have hm := mem_frame ctx (f := f) (Or.inl rfl)
        rw [← e, ← List.mem_append, hl] at hm
        exact hnew.2 hm
  have h1a : h₁.load a = some n := (hh.frame a hnew.1 ha0).trans hn
  set h2 := h₁.set a (n.setParent (holder t.header ctx)) with hh2
  have h2a : h2.load a = some (n.setParent (holder t.header ctx)) := by rw [hh2, Mem.load_set, if_pos rfl]
  set h3 := h2.set a ((n.setParent (holder t.header ctx)).setChild .left 0) with hh3
  have h3a : h3.load a = some ((n.setParent (holder t.header ctx)).setChild .left 0) := by
    rw [hh3, Mem.load_set, if_pos rfl]
  set h4 := h3.set a (((n.setParent (holder t.header ctx)).setChild .left 0).setChild .right 0) with hh4
  have h4a : h4.load a = some ⟨n.color, holder t.header ctx, 0, 0, some v⟩ := by
    rw [hh4, Mem.load_set, if_pos rfl, ← hv]
    rfl
  have f4 : ∀ b, b ≠ a → h4.load b = h₁.load b := fun b hb => by
    rw [hh4, Mem.load_set, if_neg hb, hh3, Mem.load_set, if_neg hb, hh2, Mem.load_set, if_neg hb]
  have hwn : h₁.Ok := hh.within.ok hok
  have hok4 : h4.Ok := by
    refine hwn.of_isSome (fun b => ?_) rfl
    by_cases hb : b = a
    · rw [hb, h4a, h1a]
      rfl
    · rw [f4 b hb]
  have hat4 : At h4 t.header (before ctx ++ a :: after ctx) ctx (.node n.color .nil a .nil) := by
    refine hat.graft h4a hnd hok4.null (fun b b1 b2 b3 => ?_) ?_ fun f rest e => ?_
    · rw [f4 b b2, hh.frame b b1 b3]
    · rw [getParent, f4 _ hnew.1.symm]
      exact hh.parent
    · subst e
      rw [f4 f.addr fun e => ha0 e.symm]
      exact hh.place f rest rfl
  obtain ⟨h5, e5, hat5, r5⟩ := insertRebalance_at hok4 hat4 hctx
  obtain ⟨hrb, hb⟩ := insFix_rb ctx (.node .red .nil a .nil) hctx (by simp [Tree.RB]) rfl
  have hends4 : Ends h4 t.header (before ctx ++ a :: after ctx) := by
    obtain ⟨m, hm, hc, he⟩ := hh.ends
    exact ⟨m, (f4 _ hnew.1.symm).trans hm, hc, he⟩
  refine ⟨h5, insFix ctx (.node .red .nil a .nil), ?_, hat5, hrb, hb, hends4.of_relink r5, ?_⟩
  · rw [hangNode, Mem.update_eq h1a]
    simp only [Option.bind_eq_bind, Option.bind_some, ← hh2, Mem.update_eq h2a, ← hh3, Mem.update_eq h3a,
      ← hh4, e5]
    rfl
  · have w1 : Within h h₁ t.header (a :: l) :=
      hh.within.mono fun b hb => by
        rw [hl] at hb
        exact List.mem_cons_of_mem _ hb
    have w2 : Within h₁ h2 t.header (a :: l) := Within.of_set h1a (by simp) rfl
    have w3 : Within h2 h3 t.header (a :: l) := Within.of_set h2a (by simp) (by simp)
    have w4 : Within h3 h4 t.header (a :: l) := Within.of_set h3a (by simp) (by simp)
    refine w1.trans (w2.trans (w3.trans (w4.trans (r5.toWithin.mono fun b hb => ?_))))
    rw [← hl]
    simp only [List.mem_append, List.mem_cons] at hb ⊢
    tauto

theorem outer_frame (f : Frame ℕ) (ctx : Ctx ℕ) : outer f.side (f :: ctx) = outer f.side ctx ∧
    f.addr ∈ outer f.side.opp (f :: ctx) := by
  obtain ⟨s, c, x, u⟩ := f
  cases s <;> simp [outer, Side.opp, Frame.before, Frame.after]

/-- `link_left`, `link_right` on the empty side of a node. -/
theorem linkSide_at {t : RbTree K} {n : RbNode V} {f : Frame ℕ} (hok : h.Ok)
    (hat : At h t.header l (f :: ctx) .nil) (he : Ends h t.header l) (hctx : CtxRB (f :: ctx) 0)
    (hn : h.load a = some n) (hv : n.data = some v) (hnew : a ∉ t.header :: l) :
    ∃ h' T, linkSide f.side h t f.addr a = some (h', { t with size := t.size + 1 }, a) ∧
      At h' t.header (before (f :: ctx) ++ a :: after (f :: ctx)) [] T ∧ (∃ m, T.RB m) ∧
      T.color = .black ∧ Ends h' t.header (before (f :: ctx) ++ a :: after (f :: ctx)) ∧
      Within h h' t.header (a :: l) := by
  obtain ⟨w, hf⟩ := hat.load_frame
  obtain ⟨m, hm, hmc, hme⟩ := he
  have hl : before (f :: ctx) ++ after (f :: ctx) = l := by
    rw [← hat.labels, inorder_plug]
    simp
  have hfl : f.addr ∈ l := by
    rw [← hl, List.mem_append]
    exact mem_frame _ (Or.inl rfl)
  have hfhd : f.addr ≠ t.header := by
    rintro e
    have := (List.nodup_cons.mp hat.nodup).1
    rw [← e] at this
    exact this hfl
  set h1 := h.set f.addr ((sided f.side f.color (holder t.header ctx) 0 (ptr f.sib) (some w)).setChild f.side a)
    with hh1
  have hm1 : h1.load t.header = some m := by rw [hh1, Mem.load_set, if_neg hfhd.symm, hm]
  -- the ends before and after, seen from the place
  have hold : ∀ s, m.child s = endD s (outer s (f :: ctx)) (endD s (outer s.opp (f :: ctx)) t.header) := by
    intro s
    rw [hme s, ← hat.labels, endD_plug]
    simp
  have hnewl : ∀ s, endD s (before (f :: ctx) ++ a :: after (f :: ctx)) t.header =
      endD s (outer s (f :: ctx)) a := by
    intro s
    have e : before (f :: ctx) ++ a :: after (f :: ctx) = (plug (f :: ctx) (.node .red .nil a .nil)).inorder := by
      rw [inorder_plug]
      simp
    rw [e, endD_plug]
    cases s <;> simp [endD]
  obtain ⟨hout, hopp⟩ := outer_frame f ctx
  have hother : m.child f.side.opp = endD f.side.opp (before (f :: ctx) ++ a :: after (f :: ctx)) t.header := by
    rw [hold, hnewl]
    exact endD_congr _ (List.ne_nil_of_mem hopp) _ _
  have hmove : ∃ h2 m', moveEnd f.side h1 t.header f.addr a = some h2 ∧ h2.load t.header = some m' ∧
      m'.color = .red ∧ m'.parent = m.parent ∧ (∀ b, b ≠ t.header → h2.load b = h1.load b) ∧
      (∀ s, m'.child s = endD s (before (f :: ctx) ++ a :: after (f :: ctx)) t.header) ∧
      Within h1 h2 t.header l := by
    rw [moveEnd, getChild_eq _ hm1]
    simp only [Option.bind_eq_bind, Option.bind_some]
    by_cases ho : outer f.side (f :: ctx) = []
    · have hend : m.child f.side = f.addr := by
        rw [hold, endD_outer ho, ho, endD_nil, holder_cons]
      refine ⟨h1.set t.header (m.setChild f.side a), m.setChild f.side a, ?_, by simp, by simp [hmc], by simp,
        fun b hb => by simp [hb], fun s => ?_, Within.of_set hm1 (by simp) (by simp)⟩
      · rw [if_pos hend.symm, Mem.update_eq hm1]
      · rcases Side.eq_or_opp s f.side with rfl | rfl
        · rw [child_setChild, hnewl, ho, endD_nil]
        · rw [child_opp_setChild, hother]
    · have hend : m.child f.side ≠ f.addr := by
        rw [hold]
        intro e
        have h1 := endD_mem f.side ho (endD f.side (outer f.side.opp (f :: ctx)) t.header)
        rw [e] at h1
        have hnd := (List.nodup_cons.mp hat.nodup).2
        rw [← hl, List.nodup_append] at hnd
        cases hs : f.side with
        | left =>
            rw [hs] at h1 hopp
            exact hnd.2.2 _ h1 _ hopp rfl
        | right =>
            rw [hs] at h1 hopp
            exact hnd.2.2 _ hopp _ h1 rfl
      refine ⟨h1, m, ?_, hm1, hmc, rfl, fun _ _ => rfl, fun s => ?_, Within.refl h1 _ l⟩
      · rw [if_neg (Ne.symm hend)]
        rfl
      · rcases Side.eq_or_opp s f.side with rfl | rfl
        · rw [hold, hnewl]
          exact endD_congr _ ho _ _
        · exact hother
  obtain ⟨h2, m', e2, hm2, hc2, hp2, f2, hme2, w2⟩ := hmove
  have hhook : Hooked h h2 t.header a (f :: ctx) := by
    refine ⟨fun b b1 b2 => ?_, ?_, fun g rest e => ?_, ⟨m', hm2, hc2, hme2⟩, ?_⟩
    · rw [holder_cons] at b2
      rw [f2 b b1, hh1, Mem.load_set, if_neg b2]
    · rw [if_neg (by simp), getParent_eq hm2, hp2, getParent_eq hm]
    · obtain ⟨rfl, rfl⟩ := List.cons.inj e
      rw [f2 _ hfhd, hh1, Mem.load_set, if_pos rfl, hf]
      rfl
    · rw [hl]
      exact (Within.of_set hf (List.mem_cons_of_mem _ hfl) (by simp)).trans w2
  obtain ⟨h', T, e', rest⟩ := hangNode_at hok hat hctx hn hv hnew hhook
  refine ⟨h', T, ?_, rest⟩
  rw [ptr_nil] at hf
  rw [linkSide, Mem.update_eq hf]
  simp only [Option.bind_eq_bind, Option.bind_some, ← hh1, e2]
  exact e'

/-- The first node of a tree. -/
theorem linkRoot_at {t : RbTree K} {n : RbNode V} (hok : h.Ok) (hat : At h t.header [] [] .nil)
    (he : Ends h t.header []) (hn : h.load a = some n) (hv : n.data = some v) (hnew : a ≠ t.header) :
    ∃ h' T, linkRoot h t a = some (h', { t with size := t.size + 1 }, a) ∧
      At h' t.header [a] [] T ∧ (∃ m, T.RB m) ∧ T.color = .black ∧ Ends h' t.header [a] ∧
      Within h h' t.header [a] := by
  obtain ⟨m, hm, hmc, _⟩ := he
  set h1 := h.set t.header (m.setChild .left a) with hh1
  have h1h : h1.load t.header = some (m.setChild .left a) := by rw [hh1, Mem.load_set, if_pos rfl]
  set h2 := h1.set t.header ((m.setChild .left a).setParent a) with hh2
  have h2h : h2.load t.header = some ((m.setChild .left a).setParent a) := by
    rw [hh2, Mem.load_set, if_pos rfl]
  set h3 := h2.set t.header (((m.setChild .left a).setParent a).setChild .left a) with hh3
  have h3h : h3.load t.header = some (((m.setChild .left a).setParent a).setChild .left a) := by
    rw [hh3, Mem.load_set, if_pos rfl]
  set h4 := h3.set t.header ((((m.setChild .left a).setParent a).setChild .left a).setChild .right a) with hh4
  have h4h : h4.load t.header =
      some ((((m.setChild .left a).setParent a).setChild .left a).setChild .right a) := by
    rw [hh4, Mem.load_set, if_pos rfl]
  have hhook : Hooked h h4 t.header a [] := by
    refine ⟨fun b b1 _ => ?_, ?_, fun f rest e => (by cases e), ⟨_, h4h, by simp [hmc], ?_⟩, ?_⟩
    · rw [hh4, Mem.load_set, if_neg b1, hh3, Mem.load_set, if_neg b1, hh2, Mem.load_set, if_neg b1, hh1,
        Mem.load_set, if_neg b1]
    · rw [if_pos rfl, getParent_eq h4h]
      rfl
    · rintro (_ | _) <;> rfl
    · have w1 : Within h h1 t.header (before [] ++ after []) := Within.of_set hm (by simp) (by simp)
      have w2 : Within h1 h2 t.header (before [] ++ after []) := Within.of_set h1h (by simp) (by simp)
      have w3 : Within h2 h3 t.header (before [] ++ after []) := Within.of_set h2h (by simp) (by simp)
      have w4 : Within h3 h4 t.header (before [] ++ after []) := Within.of_set h3h (by simp) (by simp)
      exact w1.trans (w2.trans (w3.trans w4))
  obtain ⟨h', T, e', rest⟩ := hangNode_at hok hat trivial hn hv (by simpa using hnew) hhook
  refine ⟨h', T, ?_, rest⟩
  rw [linkRoot, Mem.update_eq hm]
  simp only [Option.bind_eq_bind, Option.bind_some, ← hh1, Mem.update_eq h1h, ← hh2, Mem.update_eq h2h,
    ← hh3, Mem.update_eq h3h, ← hh4]
  exact e'

end

/-! ### What an object holds -/

section

variable {key : V → K} {h h' : Heap V} {t t' : RbTree K} {s s₁ s₂ : List (ℕ × V)} {T T' : Tree ℕ}
  {used used' F : List ℕ} {a : ℕ} {v : V}

theorem At.congr {hd : ℕ} {l : List ℕ} (hat : At h hd l [] T) (h0 : h'.load 0 = none)
    (e : ∀ b, b = hd ∨ b ∈ l → h'.load b = h.load b) : At h' hd l [] T where
  tree := hat.tree.congr fun b hb => e b (Or.inr (by rw [← hat.labels]; simpa using hb))
  above := hat.above.congr (fun b hb => by simp at hb) (by rw [getParent, getParent, e hd (Or.inl rfl)])
  labels := hat.labels
  nodup := hat.nodup
  null := h0

theorem TreeAt.congr (hT : TreeAt key h t s T) (h0 : h'.load 0 = none)
    (e : ∀ b, b = t.header ∨ b ∈ s.map Prod.fst → h'.load b = h.load b) (so : SameObject t t')
    (hs : t'.size = t.size) : TreeAt key h' t' s T where
  linked := by
    rw [so.header]
    exact hT.linked.congr h0 e
  balanced := hT.balanced
  black := hT.black
  ends := by
    rw [so.header]
    obtain ⟨n, hn, rest⟩ := hT.ends
    exact ⟨n, (e _ (Or.inl rfl)).trans hn, rest⟩
  data p hp := by
    rw [getData, e p.1 (Or.inr (List.mem_map_of_mem hp))]
    exact hT.data p hp
  sorted := by
    rw [so.keyCompare]
    exact hT.sorted
  size := hs.trans hT.size

theorem Owns.header_mem (ho : Owns h t used F) : t.header ∈ F := by
  obtain ⟨free, chunks, _, _, rfl⟩ := ho
  simp [footprint]

theorem Owns.used_mem (ho : Owns h t used F) : ∀ b ∈ used, b ∈ F := by
  obtain ⟨free, chunks, hp, _, rfl⟩ := ho
  intro b hb
  exact List.mem_cons_of_mem _ (hp.mem_cells_of_mem (List.mem_append_left _ hb))

theorem Owns.nodup (ho : Owns h t used F) : (t.header :: used).Nodup := by
  obtain ⟨free, chunks, hp, hh, rfl⟩ := ho
  refine List.nodup_cons.mpr ⟨fun hm => hh (hp.mem_cells_of_mem (List.mem_append_left _ hm)), ?_⟩
  exact (List.nodup_append.mp hp.nodup_nodes).1

theorem Owns.of_perm (ho : Owns h t used F) (hp : used'.Perm used) : Owns h t used' F := by
  obtain ⟨free, chunks, hpool, hh, hF⟩ := ho
  exact ⟨free, chunks, hpool.of_perm hp, hh, hF⟩

/-- Relinking the header and nodes in use does not touch the pool. -/
theorem Owns.within {l : List ℕ} {u : RbTree K} (ho : Owns h t used F) (w : Within h h' t.header l)
    (hl : ∀ b ∈ l, b ∈ used) (hh : u.header = t.header) (hf : u.freeNodes = t.freeNodes)
    (hc : u.nodeChunks = t.nodeChunks) : Owns h' u used F := by
  obtain ⟨free, chunks, hp, hd, rfl⟩ := ho
  have hnd := hp.nodup_nodes
  rw [List.nodup_append] at hnd
  refine ⟨free, chunks, hp.congr (fun b hb => ?_) (fun b hb => ?_) hf hc, by rwa [hh], by
    rw [footprint, footprint, hh]⟩
  · refine w.frame b ?_ ?_
    · rintro rfl
      refine hd ?_
      rcases hb with hb | hb
      · exact hp.mem_cells_of_mem (List.mem_append_right _ hb)
      · exact List.mem_flatMap.mpr ⟨t.header, hb, by simp [cells]⟩
    · intro hbl
      rcases hb with hb | hb
      · exact hnd.2.2 b (hl b hbl) b hb rfl
      · exact hp.chunk_notMem hb (List.mem_append_left _ (hl b hbl))
  · rw [w.isSome b]
    exact hp.alloc b (hp.mem_cells_of_mem (List.mem_append_left _ hb))

theorem Owns.stays {l : List ℕ} (ho : Owns h t used F) (hok : h.Ok) (w : Within h h' t.header l)
    (hl : ∀ b ∈ l, b ∈ used) : Stays h h' F F where
  frame b _ hb := w.frame b (by rintro rfl; exact hb ho.header_mem) fun hm => hb (ho.used_mem b (hl b hm))
  grow b hb := Or.inl hb
  next := le_of_eq w.next.symm
  ok := w.ok hok

/-- The tree of an object that has taken the node `a` out of its pool. -/
structure Loose (key : V → K) (h : Heap V) (t : RbTree K) (s : List (ℕ × V)) (F : List ℕ) (a : ℕ) (v : V) :
    Prop where
  tree : ∃ T, TreeAt key h t s T
  owns : Owns h t (a :: s.map Prod.fst) F
  data : getData h a = some v

theorem Loose.load (hl : Loose key h t s F a v) : ∃ n, h.load a = some n ∧ n.data = some v := by
  have := hl.data
  rw [getData, Option.bind_eq_some_iff] at this
  exact this

theorem Loose.notMem (hl : Loose key h t s F a v) : a ∉ t.header :: s.map Prod.fst := by
  have := hl.owns.nodup
  simp only [List.nodup_cons, List.mem_cons] at this ⊢
  tauto

/-- **`create_node`** -/
theorem createNode_holds (hok : h.Ok) (hh : Holds key h t s F) (v : V) :
    ∃ h' t' a F', createNode h t v = some (h', t', a) ∧ Loose key h' t' s F' a v ∧ Stays h h' F F' ∧
      SameObject t t' ∧ t'.size = t.size := by
  obtain ⟨⟨T, hT⟩, free, chunks, hp, hd, rfl⟩ := hh
  obtain ⟨h', p, q, a, free', chunks', e, hp', ⟨n, hn, hv⟩, hs, hkeep⟩ := createNode_pool hok hp v
  have hnd := hp.nodup_nodes
  rw [List.nodup_append] at hnd
  have hlt : ∀ b, b = t.header ∨ b ∈ s.map Prod.fst → b < h.next := by
    rintro b (rfl | hb)
    · obtain ⟨m, hm, _⟩ := hT.ends
      exact hok.lt_next hm
    · obtain ⟨m, hm, _⟩ := hT.linked.load_isSome b hb
      exact hok.lt_next hm
  refine ⟨h', _, a, _, e, ⟨⟨T, hT.congr hs.ok.null (fun b hb => hkeep.frame b (hlt b hb) ?_) ⟨rfl, rfl, rfl⟩ rfl⟩,
    ⟨free', chunks', hp', ?_, rfl⟩, by rw [getData_eq hn, hv]⟩, ?_, ⟨rfl, rfl, rfl⟩, rfl⟩
  · intro hbf
    rcases hb with rfl | hb
    · exact hd (hp.mem_cells_of_mem (List.mem_append_right _ hbf))
    · exact hnd.2.2 b hb b hbf rfl
  · intro hm
    rcases hs.grow _ hm with hm | hm
    · exact hd hm
    · have h1 := hlt _ (Or.inl rfl)
      simp only at hm
      omega
  · refine ⟨fun b hb hF => hs.frame b hb fun hm => hF (List.mem_cons_of_mem _ hm), fun b hb => ?_, hs.next, hs.ok⟩
    rcases List.mem_cons.mp hb with rfl | hb
    · exact Or.inl (by simp [footprint])
    · exact (hs.grow b hb).imp_left fun hm => List.mem_cons_of_mem _ hm

/-- What inserting a node between `s₁` and `s₂` leaves. -/
structure Inserted (key : V → K) (h h' : Heap V) (t t' : RbTree K) (s₁ s₂ : List (ℕ × V)) (F F' : List ℕ)
    (a : ℕ) (v : V) : Prop where
  holds : Holds key h' t' (s₁ ++ (a, v) :: s₂) F'
  stays : Stays h h' F F'
  same : SameObject t t'

theorem Inserted.after {h₀ : Heap V} {t₀ : RbTree K} {F₀ F' : List ℕ}
    (hi : Inserted key h h' t t' s₁ s₂ F F' a v) (hs : Stays h₀ h F₀ F) (so : SameObject t₀ t) :
    Inserted key h₀ h' t₀ t' s₁ s₂ F₀ F' a v :=
  ⟨hi.holds, hs.trans hi.stays, so.trans hi.same⟩

theorem Loose.inserted (ctx : Ctx ℕ) (hok : h.Ok) (hl : Loose key h t (s₁ ++ s₂) F a v)
    (h₁ : s₁.map Prod.fst = before ctx) (h₂ : s₂.map Prod.fst = after ctx)
    (hs : Sorted t.keyCompare (fun e => key e.2) (s₁ ++ (a, v) :: s₂))
    (hat : At h' t.header (before ctx ++ a :: after ctx) [] T') (hb : ∃ n, T'.RB n) (hc : T'.color = .black)
    (he : Ends h' t.header (before ctx ++ a :: after ctx))
    (hw : Within h h' t.header (a :: (s₁ ++ s₂).map Prod.fst)) :
    Inserted key h h' t { t with size := t.size + 1 } s₁ s₂ F F a v := by
  obtain ⟨⟨T, hT⟩, ho, hd⟩ := hl
  have e : (s₁ ++ (a, v) :: s₂).map Prod.fst = before ctx ++ a :: after ctx := by simp [h₁, h₂]
  refine ⟨⟨⟨T', ?_, hb, hc, ?_, fun p hp => ?_, hs, ?_⟩, ?_⟩, ho.stays hok hw fun b hb => hb, ⟨rfl, rfl, rfl⟩⟩
  · rw [e]
    exact hat
  · rw [e]
    exact he
  · rw [hw.getData_eq]
    rcases List.mem_append.mp hp with hp | hp
    · exact hT.data p (List.mem_append_left _ hp)
    · rcases List.mem_cons.mp hp with rfl | hp
      · exact hd
      · exact hT.data p (List.mem_append_right _ hp)
  · have := hT.size
    simp only [List.length_append, List.length_cons] at this ⊢
    omega
  · refine (ho.within (u := { t with size := t.size + 1 }) hw (fun b hb => hb) rfl rfl rfl).of_perm ?_
    rw [List.map_append, List.map_cons, List.map_append]
    exact List.perm_middle

end

end NeForce.Rb
