import NeForce.RbLinked

/-! # The removal loop refines `delFix`

The loop in `rb_tree_erase_rebalance` runs on the place `ptr t` that lacks a black node and on
its parent.  With a sibling in place, which balance guarantees, one round does in memory what
`delStep` does on the focused tree (`eraseBlack_at`), and the loop ends with `delFix ctx t` in
memory after the last recolouring (`eraseLoop_at`).  No debug check fails on the way. -/

namespace NeForce.Rb

open Ctx RbNode

variable {V : Type} {h : Heap V} {hd : ℕ} {l : List ℕ} {ctx : Ctx ℕ} {t : Tree ℕ}

namespace At

theorem sibling_iff {s : Side} {c : Color} {a : ℕ} {u : Tree ℕ} :
    At h hd l (⟨s, c, a, u⟩ :: ctx) t ↔ At h hd l (⟨s.opp, c, a, t⟩ :: ctx) u := by
  refine ⟨fun hat => hat.sibling, fun hat => ?_⟩
  have := hat.sibling
  rwa [Side.opp_opp] at this

theorem paintBlack (hat : At h hd l ctx t) :
    ∃ h', paintBlack h (ptr t) = some h' ∧ At h' hd l ctx (t.setColor .black) ∧ Relink h h' hd l := by
  by_cases ht : t = .nil
  · subst ht
    exact ⟨h, by simp [Rb.paintBlack], hat, Relink.refl h hd l⟩
  · rw [Rb.paintBlack, if_pos (hat.ptr_ne_zero ht)]
    exact hat.recolor ht .black

end At

/-- Painting a black node black changes nothing. -/
theorem paintBlack_self {p : ℕ} (hb : isBlack h p = some true) : paintBlack h p = some h := by
  by_cases hp : p = 0
  · simp [paintBlack, hp]
  · simp only [isBlack, if_neg hp, getColor, Option.map_map, Option.map_eq_some_iff] at hb
    obtain ⟨n, hn, hc⟩ := hb
    simp only [Function.comp_apply, beq_iff_eq] at hc
    rw [paintBlack, if_pos hp, Mem.update_eq hn]
    congr 1
    obtain ⟨cell, next⟩ := h
    simp only [Mem.set, Mem.mk.injEq, and_true]
    funext b
    split_ifs with hb
    · subst hb
      rw [← hc]
      exact hn.symm
    · rfl

/-- The far nephew is red: one rotation puts the missing black node in place. -/
theorem eraseFinish_at {s : Side} {c : Color} {x w : ℕ} {near far : Tree ℕ}
    (hat : At h hd l (⟨s, c, x, .mk s .black near w far⟩ :: ctx) t) :
    ∃ h', eraseFinish s h x w hd = some h' ∧
      At h' hd l (⟨s, .black, x, near⟩ :: ⟨s, c, w, far.setColor .black⟩ :: ctx) t ∧
      Relink h h' hd l := by
  obtain ⟨v, hx⟩ := hat.load_frame
  obtain ⟨h1, e1, hat1, r1⟩ := hat.sibling.recolor (by simp) c
  simp only [ptr_mk, Tree.setColor_mk] at e1 hat1
  obtain ⟨h2, e2, hat2, r2⟩ := (At.sibling_iff.mpr hat1).recolor_frame .black
  have hfar := (At.cons_iff (f := ⟨s, c, w, far⟩)).mpr hat2.sibling
  obtain ⟨v', hw⟩ := hfar.load_frame
  obtain ⟨h3, e3, hat3, r3⟩ := hfar.sibling.paintBlack
  have hrot := At.cons_iff.mp (At.sibling_iff.mpr (At.cons_iff.mp (At.sibling_iff.mpr hat3)))
  obtain ⟨h4, e4, hat4, r4⟩ := hrot.rotate
  refine ⟨h4, ?_, At.cons_iff.mpr (At.cons_iff.mpr hat4), r1.trans (r2.trans (r3.trans r4))⟩
  simp only at hx hw e2
  rw [eraseFinish, getColor_eq hx, color_sided]
  simp only [Option.bind_eq_bind, Option.bind_some, e1, e2, getChild_eq _ hw, child_opp_sided, e3, e4]

/-- The near nephew is red and the far one black: a rotation at the sibling comes first. -/
theorem eraseTurn_at {s : Side} {c : Color} {x w y : ℕ} {n₁ n₂ far : Tree ℕ}
    (hat : At h hd l (⟨s, c, x, .mk s .black (.mk s .red n₁ y n₂) w far⟩ :: ctx) t) :
    ∃ h₁ h₂ h₃, paintBlack h y = some h₁ ∧ h₁.update w (·.setColor .red) = some h₂ ∧
      rbTreeRotate s.opp h₂ w hd = some h₃ ∧
      At h₃ hd l (⟨s, c, x, .mk s .black n₁ y (.mk s .red n₂ w far)⟩ :: ctx) t ∧
      Relink h h₃ hd l := by
  have hnear := (At.cons_iff (f := ⟨s, .black, w, far⟩)).mpr hat.sibling
  obtain ⟨h1, e1, hat1, r1⟩ := hnear.paintBlack
  rw [Tree.setColor_mk] at hat1
  obtain ⟨h2, e2, hat2, r2⟩ := hat1.recolor_frame .red
  have hrot := At.cons_iff.mp hat2
  simp only [Frame.fill] at hrot
  rw [← Tree.mk_opp s .red, ← Tree.mk_opp s .black] at hrot
  obtain ⟨h3, e3, hat3, r3⟩ := hrot.rotate
  rw [Tree.mk_opp, Tree.mk_opp] at hat3
  rw [ptr_mk] at e1
  exact ⟨h1, h2, h3, e1, e2, e3, At.sibling_iff.mpr hat3, r1.trans (r2.trans r3)⟩

/-- A round with a black sibling. -/
theorem eraseBlack_at {s : Side} {c : Color} {x w : ℕ} {near far : Tree ℕ}
    (hat : At h hd l (⟨s, c, x, .mk s .black near w far⟩ :: ctx) t) :
    ∃ h' u b, delStep ⟨s, c, x, .mk s .black near w far⟩ t = (u, b) ∧ Relink h h' hd l ∧
      (b = true → ∃ c₁, plug c₁ t = u ∧ At h' hd l (c₁ ++ ctx) t ∧
        eraseBlack s h x w hd = some (.done h')) ∧
      (b = false → At h' hd l ctx u ∧ ptr u = x ∧
        eraseBlack s h x w hd = some (.again h' x (holder hd ctx))) := by
  have hfar := (At.cons_iff (f := ⟨s.opp, .black, w, near⟩)).mpr
    (by simpa [Frame.fill, Tree.mk_opp] using hat.sibling)
  obtain ⟨v, hw⟩ := hfar.load_frame
  have hnearB := hfar.sibling.isBlack_eq
  have hfarB := hfar.isBlack_eq
  simp only [sided_opp] at hw hnearB
  have hnearC := (getChild_eq s hw).trans (congrArg some (child_sided ..))
  have hfarC := (getChild_eq s.opp hw).trans (congrArg some (child_opp_sided ..))
  by_cases hf : far.color = .black
  · by_cases hn : near.color = .black
    · obtain ⟨h1, e1, hat1, r1⟩ := hat.sibling.recolor (by simp) .red
      rw [ptr_mk] at e1
      rw [Tree.setColor_mk] at hat1
      have hx := At.cons_iff.mp (At.sibling_iff.mpr hat1)
      obtain ⟨m, hm, _, hp⟩ := hx.load_ptr (by simp [Frame.fill])
      rw [ptr_fill] at hm
      refine ⟨h1, _, _, delStep_black hn hf, r1, by simp, fun _ => ⟨hx, by simp, ?_⟩⟩
      rw [eraseBlack]
      simp [hnearC, hfarC, hnearB, hfarB, hn, hf, e1, getParent_eq hm, hp]
    · obtain ⟨y, e⟩ := Tree.exists_mk s (Tree.ne_nil_of_red (Color.eq_red_of_ne hn))
      rw [Color.eq_red_of_ne hn] at e
      rw [e] at hat ⊢
      obtain ⟨h1, h2, h3, e1, e2, e3, hat3, r3⟩ := eraseTurn_at hat
      obtain ⟨v', hx⟩ := hat3.load_frame
      obtain ⟨h4, e4, hat4, r4⟩ := eraseFinish_at hat3
      rw [Tree.setColor_mk] at hat4
      refine ⟨h4, _, _, delStep_near (by simp) hf, r3.trans r4,
        fun _ => ⟨[⟨s, .black, x, _⟩, ⟨s, c, y, _⟩], ?_, hat4, ?_⟩, by simp⟩
      · rfl
      · have hpn : ptr near = y := by rw [e, ptr_mk]
        rw [hpn] at hnearB hnearC
        simp only [ptr_mk] at hx
        rw [eraseBlack]
        simp [hnearC, hfarC, hnearB, hfarB, hn, hf, e1, e2, e3, e4, getChild_eq _ hx]
  · obtain ⟨h4, e4, hat4, r4⟩ := eraseFinish_at hat
    refine ⟨h4, _, _, delStep_far hf, r4,
      fun _ => ⟨[⟨s, .black, x, _⟩, ⟨s, c, w, _⟩], ?_, hat4, ?_⟩, by simp⟩
    · rfl
    · rw [eraseBlack]
      simp [hnearC, hfarC, hnearB, hfarB, hf, e4]

theorem eraseBranch_black {dbg : Bool} {s : Side} {c : Color} {x w : ℕ} {near far : Tree ℕ}
    (hat : At h hd l (⟨s, c, x, .mk s .black near w far⟩ :: ctx) t) :
    eraseBranch dbg s h x hd = eraseBlack s h x w hd := by
  obtain ⟨v, hx⟩ := hat.load_frame
  obtain ⟨n, hn, hc, _⟩ := hat.sibling.load_ptr (by simp)
  have hw := hat.sibling.ptr_ne_zero (by simp)
  simp only [ptr_mk, Tree.color_mk] at hx hn hc hw
  rw [eraseBranch]
  simp [getChild_eq _ hx, debugVerify, hw, getColor_eq hn, hc]

/-- A red sibling is rotated up first, and its near child becomes the sibling. -/
theorem eraseBranch_red (dbg : Bool) {s : Side} {c : Color} {x w : ℕ} {near far : Tree ℕ}
    (hat : At h hd l (⟨s, c, x, .mk s .red near w far⟩ :: ctx) t) :
    ∃ h', eraseBranch dbg s h x hd = eraseBlack s h' x (ptr near) hd ∧
      At h' hd l (⟨s, .red, x, near⟩ :: ⟨s, .black, w, far⟩ :: ctx) t ∧ Relink h h' hd l := by
  obtain ⟨v, hx⟩ := hat.load_frame
  obtain ⟨n, hn, hc, _⟩ := hat.sibling.load_ptr (by simp)
  have hw := hat.sibling.ptr_ne_zero (by simp)
  simp only [ptr_mk, Tree.color_mk] at hx hn hc hw
  obtain ⟨h1, e1, hat1, r1⟩ := hat.sibling.recolor (by simp) .black
  rw [ptr_mk] at e1
  rw [Tree.setColor_mk] at hat1
  obtain ⟨h2, e2, hat2, r2⟩ := (At.sibling_iff.mpr hat1).recolor_frame .red
  obtain ⟨h3, e3, hat3, r3⟩ := (At.cons_iff.mp hat2).rotate
  have hat3' := At.cons_iff (f := ⟨s, .red, x, near⟩).mpr (At.cons_iff (f := ⟨s, .black, w, far⟩).mpr hat3)
  obtain ⟨v', hx'⟩ := hat3'.load_frame
  refine ⟨h3, ?_, hat3', r1.trans (r2.trans r3)⟩
  simp only at e2 hx'
  rw [eraseBranch]
  simp [getChild_eq _ hx, debugVerify, hw, getColor_eq hn, hc, e1, e2, e3, getChild_eq _ hx']

/-! ### The loop -/

/-- The loop stops at the root and at a red node. -/
theorem eraseLoop_stop {dbg : Bool} (k p : ℕ) (hat : At h hd l ctx t)
    (hstop : ctx = [] ∨ t.color = .red) : eraseLoop dbg hd (k + 1) h (ptr t) p = some (h, ptr t) := by
  rw [eraseLoop, hat.getParent_header]
  simp only [Option.bind_eq_bind, Option.bind_some, hat.isBlack_eq]
  rcases hstop with rfl | hr
  · rw [plug_nil, if_pos rfl]
    rfl
  · split_ifs with h1 h2
    · rfl
    · rfl
    · simp [hr] at h2

/-- Elsewhere it runs a round on the side of the black focus. -/
theorem eraseLoop_round (dbg : Bool) (k : ℕ) {f : Frame ℕ} (hat : At h hd l (f :: ctx) t)
    (ht : t.color = .black) (hs : f.sib ≠ .nil) :
    eraseLoop dbg hd (k + 1) h (ptr t) f.addr =
      (eraseBranch dbg f.side h f.addr hd).bind fun
        | .done h => some (h, ptr t)
        | .again h x xParent => eraseLoop dbg hd k h x xParent := by
  have hne : ptr t ≠ ptr f.sib := by
    by_cases htn : t = .nil
    · rw [htn, ptr_nil]
      exact (hat.sibling.ptr_ne_zero hs).symm
    · exact hat.ptr_ne_sib htn f ctx rfl
  obtain ⟨q, eq, hside⟩ := hat.side_eq hne
  rw [eraseLoop, hat.getParent_header]
  simp only [Option.bind_eq_bind, Option.bind_some, if_neg (hat.ptr_ne_root (by simp)),
    hat.isBlack_eq, ht, eq, hside]
  rfl

/-- A round that starts with a red sibling. -/
theorem eraseRed_at (dbg : Bool) (k : ℕ) {f : Frame ℕ} {lt rt : Tree ℕ} {w n : ℕ}
    (hat : At h hd l (f :: ctx) t) (hctx : CtxRB (f :: ctx) (n + 1))
    (hs : f.sib = .node .red lt w rt) (ht : t.color = .black) :
    ∃ h' u b, delStep ⟨f.side, .red, f.addr, (Tree.node .red lt w rt).child f.side⟩ t = (u, b) ∧
      At h' hd l (⟨f.side, .black, w, (Tree.node .red lt w rt).child f.side.opp⟩ :: ctx) u ∧
      Relink h h' hd l ∧
      (b = true → isBlack h' (ptr t) = some true ∧
        eraseLoop dbg hd (k + 1) h (ptr t) f.addr = some (h', ptr t)) ∧
      (b = false → eraseLoop dbg hd (k + 1) h (ptr t) f.addr =
        eraseLoop dbg hd k h' (ptr u) w) := by
  have hround := eraseLoop_round dbg k hat ht (by simp [hs])
  obtain ⟨_, _, hn, hsc⟩ := redSibling_rb hctx hs
  obtain ⟨s, c, x, sib⟩ := f
  obtain rfl : sib = _ := hs
  simp only at hn hsc ⊢
  generalize hfar : (Tree.node .red lt w rt).child s.opp = far at *
  generalize hnear : (Tree.node .red lt w rt).child s = near at *
  obtain ⟨y, e⟩ := Tree.exists_mk s hn.ne_nil
  rw [hsc] at e
  have hat0 := hat
  rw [Tree.node_eq_mk s, hnear, hfar] at hat0
  obtain ⟨h1, e1, hat1, r1⟩ := eraseBranch_red dbg hat0
  rw [e] at hat1 e1 ⊢
  rw [ptr_mk] at e1
  obtain ⟨h2, u, b, e2, r2, hdone, hagain⟩ := eraseBlack_at hat1
  have hatu : At h2 hd l (⟨s, .black, w, far⟩ :: ctx) u := by
    cases b with
    | false => exact (hagain rfl).1
    | true =>
        obtain ⟨c₁, hc₁, hat2, _⟩ := hdone rfl
        rwa [At.iff_plug, hc₁] at hat2
  refine ⟨h2, u, b, e2, hatu, r1.trans r2, fun hb => ?_, fun hb => ?_⟩
  · obtain ⟨c₁, _, hat2, e3⟩ := hdone hb
    refine ⟨by rw [hat2.isBlack_eq, ht]; rfl, ?_⟩
    rw [hround]
    simp only [e1, e3]
    rfl
  · obtain ⟨_, hx, e3⟩ := hagain hb
    rw [hround, hx]
    simp only [e1, e3]
    rfl

/-- **The removal loop** with its last recolouring. -/
theorem eraseLoop_at (dbg : Bool) (k : ℕ) (ctx : Ctx ℕ) (t : Tree ℕ) {n : ℕ} (hat : At h hd l ctx t)
    (hctx : CtxRB ctx (n + 1)) (ht : Short n t) (hk : ctx.length + 1 ≤ k) :
    ∃ h₁ x h', eraseLoop dbg hd k h (ptr t) (holder hd ctx) = some (h₁, x) ∧
      paintBlack h₁ x = some h' ∧ At h' hd l [] (delFix ctx t) ∧ Relink h h' hd l := by
  fun_induction delFix ctx t generalizing h k n with
  | case1 t =>
      obtain ⟨k, rfl⟩ : ∃ j, k = j + 1 := ⟨k - 1, by simp at hk; omega⟩
      obtain ⟨h', e, hat', r⟩ := hat.paintBlack
      exact ⟨h, ptr t, h', eraseLoop_stop k _ hat (Or.inl rfl), e, hat', r⟩
  | case2 f ctx t hr =>
      obtain ⟨k, rfl⟩ : ∃ j, k = j + 1 := ⟨k - 1, by simp at hk; omega⟩
      obtain ⟨h', e, hat', r⟩ := hat.paintBlack
      exact ⟨h, ptr t, h', eraseLoop_stop k _ hat (Or.inr hr), e, hat'.toRoot, r⟩
  | case3 f ctx t hr hs ih => exact absurd hs hctx.1.ne_nil
  | case4 f ctx t hr lt w rt hs u hu =>
      obtain ⟨k, rfl⟩ : ∃ j, k = j + 1 := ⟨k - 1, by simp at hk; omega⟩
      obtain ⟨h1, u', b, e, hat1, r1, hdone, _⟩ :=
        eraseRed_at dbg k hat hctx hs (Tree.color_eq_black_of_ne hr)
      rw [hu] at e
      obtain ⟨rfl, rfl⟩ := Prod.mk.inj e
      obtain ⟨hb, e1⟩ := hdone rfl
      exact ⟨h1, ptr t, h1, e1, paintBlack_self hb, hat1.toRoot, r1⟩
  | case5 f ctx t hr lt w rt hs u hu =>
      obtain ⟨k, rfl⟩ : ∃ j, k = j + 2 := ⟨k - 2, by simp at hk; omega⟩
      obtain ⟨h1, u', b, e, hat1, r1, _, hagain⟩ :=
        eraseRed_at dbg (k + 1) hat hctx hs (Tree.color_eq_black_of_ne hr)
      rw [hu] at e
      obtain ⟨rfl, rfl⟩ := Prod.mk.inj e
      have hred : u.color = .red := by
        obtain ⟨_, _, hn, hsc⟩ := redSibling_rb hctx hs
        have := (delStep_rb (f := ⟨f.side, .red, f.addr, (Tree.node .red lt w rt).child f.side⟩)
          (ht.of_ne_red hr).2 hn hsc).1
        rwa [hu] at this
      obtain ⟨h2, e2, hat2, r2⟩ := hat1.paintBlack
      exact ⟨h1, ptr u, h2, (hagain rfl).trans (eraseLoop_stop k w hat1 (Or.inr hred)), e2,
        hat2.toRoot, r1.trans r2⟩
  | case6 f ctx t hr lt w rt hs u hu =>
      obtain ⟨k, rfl⟩ : ∃ j, k = j + 1 := ⟨k - 1, by simp at hk; omega⟩
      have hround := eraseLoop_round dbg k hat (Tree.color_eq_black_of_ne hr) (by simp [hs])
      obtain ⟨s, c, x, sib⟩ := f
      obtain rfl : sib = _ := hs
      rw [Tree.node_eq_mk s] at hat hu
      obtain ⟨h1, u', b, e, r1, hdone, _⟩ := eraseBlack_at hat
      rw [hu] at e
      obtain ⟨rfl, rfl⟩ := Prod.mk.inj e
      obtain ⟨c₁, hc₁, hat1, e1⟩ := hdone rfl
      have hat1' := hat1
      rw [At.iff_plug, hc₁] at hat1'
      refine ⟨h1, ptr t, h1, ?_, paintBlack_self ?_, hat1'.toRoot, r1⟩
      · rw [holder_cons, hround]
        simp only [eraseBranch_black hat, e1]
        rfl
      · rw [hat1.isBlack_eq, Tree.color_eq_black_of_ne hr]
        rfl
  | case7 f ctx t hr lt w rt hs u hu ih =>
      obtain ⟨k, rfl⟩ : ∃ j, k = j + 1 := ⟨k - 1, by simp at hk; omega⟩
      obtain ⟨m, hctx', hu'⟩ := delStep_short hctx ht hr (by rw [hs]; rfl) hu
      have hround := eraseLoop_round dbg k hat (Tree.color_eq_black_of_ne hr) (by simp [hs])
      obtain ⟨s, c, x, sib⟩ := f
      obtain rfl : sib = _ := hs
      rw [Tree.node_eq_mk s] at hat hu
      obtain ⟨h1, u', b, e, r1, _, hagain⟩ := eraseBlack_at hat
      rw [hu] at e
      obtain ⟨rfl, rfl⟩ := Prod.mk.inj e
      obtain ⟨hat1, hx, e1⟩ := hagain rfl
      obtain ⟨h2, x', h', e2, e', hat', r'⟩ := ih k hat1 hctx' hu'
        (by simp only [List.length_cons] at hk; omega)
      refine ⟨h2, x', h', ?_, e', hat', r1.trans r'⟩
      rw [hx] at e2
      rw [holder_cons, hround]
      simp only [eraseBranch_black hat, e1]
      exact e2

end NeForce.Rb
