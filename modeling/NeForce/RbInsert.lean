import NeForce.RbLinked

/-! # The insertion loop refines `insFix`

Each round of the loop in `rb_tree_insert_rebalance` acts on the tree in memory as the
corresponding equation of `insFix` does on the focused tree (`insertBranch_red`,
`insertBranch_black`), and so the whole function leaves `insFix ctx t` in memory
(`insertRebalance_at`). -/

namespace NeForce.Rb

open Ctx RbNode

variable {V : Type} {h : Heap V} {hd : ℕ} {l : List ℕ} {ctx : Ctx ℕ} {t : Tree ℕ} {f g : Frame ℕ}

/-- The uncle is red: parent and uncle turn black, the grandparent red. -/
theorem insertBranch_red (hat : At h hd l (f :: g :: ctx) t) (ht : t ≠ .nil)
    (hu : g.sib.color = .red) :
    ∃ h', insertBranch g.side h (ptr t) hd = some (h', g.addr) ∧
      At h' hd l ctx
        (.mk g.side .red ((f.fill t).setColor .black) g.addr (g.sib.setColor .black)) ∧
      Relink h h' hd l := by
  have hp := At.cons_iff.mp hat
  obtain ⟨v, hg⟩ := hp.load_frame
  obtain ⟨h1, e1, hat1, r1⟩ := hp.recolor (by simp [Frame.fill]) .black
  obtain ⟨h2, e2, hat2, r2⟩ := hat1.sibling.recolor (Tree.ne_nil_of_red hu) .black
  obtain ⟨h3, e3, hat3, r3⟩ := (At.cons_iff.mp hat2).recolor (by simp [Frame.fill]) .red
  rw [ptr_fill] at e1 e3
  refine ⟨h3, ?_, ?_, r1.trans (r2.trans r3)⟩
  · have hb := hp.sibling.isBlack_eq
    rw [hu] at hb
    rw [insertBranch, hat.getParent_ptr ht]
    simp only [Option.bind_eq_bind, Option.bind_some, holder_cons]
    rw [← ptr_fill f t, hp.getParent_ptr (by simp [Frame.fill])]
    simp only [Option.bind_some, holder_cons, getChild_eq _ hg, child_opp_sided, hb]
    simp only [ptr_fill, e1, Option.bind_some, e2]
    exact congrArg (fun o => o.bind fun h => some (h, g.addr)) e3
  · convert hat3 using 1
    simp [Frame.fill, Tree.mk_opp]

/-- The turn that brings an inner grandchild to the outside. -/
theorem At.turn (hat : At h hd l (f :: g :: ctx) t) (ht : t.color = .red) (hf : f.color = .red) :
    ∃ q h' a u t', getChild g.side.opp h f.addr = some q ∧
      (if ptr t = q then do
          let h ← rbTreeRotate g.side h f.addr hd
          pure (h, f.addr)
        else pure (h, ptr t)) = some (h', ptr t') ∧
      At h' hd l (⟨g.side, .red, a, u⟩ :: g :: ctx) t' ∧ t' ≠ .nil ∧
      insRotate f g t = .mk g.side .black t' a (.mk g.side .red u g.addr g.sib) ∧
      Relink h h' hd l := by
  have htn := Tree.ne_nil_of_red ht
  obtain ⟨v, hv⟩ := hat.load_frame
  obtain ⟨s, c, x, B⟩ := f
  obtain rfl : c = .red := hf
  have hsib := hat.ptr_ne_sib htn _ _ rfl
  rcases Side.eq_or_opp s g.side with rfl | rfl
  · refine ⟨_, h, x, B, t, getChild_eq _ hv, ?_, hat, htn, ?_, Relink.refl h hd l⟩
    · rw [child_opp_sided, if_neg hsib]
      rfl
    · simp [insRotate]
  · obtain ⟨y, e⟩ := Tree.exists_mk g.side htn
    rw [ht] at e
    have hat' := At.cons_iff.mp hat
    simp only [Frame.fill, Tree.mk_opp] at hat'
    rw [e] at hat'
    obtain ⟨h', e', hat'', r⟩ := hat'.rotate
    refine ⟨_, h', y, t.child g.side.opp, .mk g.side .red B x (t.child g.side),
      getChild_eq _ hv, ?_, At.cons_iff.mpr hat'', by simp, ?_, r⟩
    · rw [child_sided, if_pos rfl, e', ptr_mk]
      rfl
    · cases t with
      | nil => exact absurd rfl htn
      | node ct tl z tr =>
          obtain rfl : z = y := by
            cases hs : g.side <;> simp [hs, Tree.mk] at e <;> tauto
          simp [insRotate]

/-- The uncle is black: at most two rotations finish the loop. -/
theorem insertBranch_black (hat : At h hd l (f :: g :: ctx) t) (ht : t.color = .red)
    (hf : f.color = .red) (hu : g.sib.color = .black) :
    ∃ h' a u t', insertBranch g.side h (ptr t) hd = some (h', ptr t') ∧
      At h' hd l (⟨g.side, .black, a, u⟩ :: ctx) t' ∧ t' ≠ .nil ∧
      Frame.fill ⟨g.side, .black, a, u⟩ t' = insRotate f g t ∧
      Relink h h' hd l := by
  have htn := Tree.ne_nil_of_red ht
  have hp := At.cons_iff.mp hat
  obtain ⟨v, hg⟩ := hp.load_frame
  obtain ⟨q, h1, a, u, t', eq, e1, hat1, htn', er, r1⟩ := hat.turn ht hf
  obtain ⟨h2, e2, hat2, r2⟩ := hat1.recolor_frame .black
  obtain ⟨h3, e3, hat3, r3⟩ := (At.cons_iff.mp hat2).recolor_frame .red
  have hrot := At.cons_iff.mp hat3
  simp only [Frame.fill] at hrot
  rw [← Tree.mk_opp g.side .red, ← Tree.mk_opp g.side .black] at hrot
  obtain ⟨h4, e4, hat4, r4⟩ := hrot.rotate
  rw [Tree.mk_opp, Tree.mk_opp] at hat4
  refine ⟨h4, a, .mk g.side .red u g.addr g.sib, t', ?_, At.cons_iff.mpr hat4, htn', er.symm,
    r1.trans (r2.trans (r3.trans r4))⟩
  have hb := hp.sibling.isBlack_eq
  rw [hu] at hb
  have hpa : getParent h2 a = some g.addr := by
    have := (At.cons_iff.mp hat2).getParent_ptr (by simp [Frame.fill])
    rwa [ptr_fill] at this
  rw [insertBranch, hat.getParent_ptr htn]
  simp only [Option.bind_eq_bind, Option.bind_some, holder_cons]
  rw [← ptr_fill f t, hp.getParent_ptr (by simp [Frame.fill])]
  simp only [Option.bind_some, holder_cons, getChild_eq _ hg, child_opp_sided, hb]
  simp only [ptr_fill, eq, Option.bind_some]
  simp only [Option.bind_eq_bind] at e1
  simp only [beq_self_eq_true, Bool.not_true, Bool.false_eq_true, if_false, e1, Option.bind_some,
    hat1.getParent_ptr htn', holder_cons, e2, hpa, e3, e4]
  rfl

/-! ### The loop -/

/-- The loop stops below a black node. -/
theorem insertLoop_black (k : ℕ) (hat : At h hd l (f :: ctx) t) (ht : t ≠ .nil)
    (hf : f.color = .black) : insertLoop hd (k + 1) h (ptr t) = some h := by
  obtain ⟨v, hv⟩ := hat.load_frame
  rw [insertLoop, hat.getParent_header]
  simp only [Option.bind_eq_bind, Option.bind_some, if_neg (hat.ptr_ne_root (by simp)),
    hat.getParent_ptr ht, holder_cons, getColor_eq hv, color_sided, hf]
  rfl

/-- Below a red node it runs a round on the side the parent hangs on. -/
theorem insertLoop_red (k : ℕ) (hat : At h hd l (f :: g :: ctx) t) (ht : t ≠ .nil)
    (hf : f.color = .red) :
    insertLoop hd (k + 1) h (ptr t) =
      (insertBranch g.side h (ptr t) hd).bind fun r => insertLoop hd k r.1 r.2 := by
  obtain ⟨v, hv⟩ := hat.load_frame
  have hp := At.cons_iff.mp hat
  obtain ⟨q, eq, hside⟩ := hp.side_eq (hp.ptr_ne_sib (by simp [Frame.fill]) _ _ rfl)
  rw [ptr_fill] at hside
  rw [insertLoop, hat.getParent_header]
  simp only [Option.bind_eq_bind, Option.bind_some, if_neg (hat.ptr_ne_root (by simp)),
    hat.getParent_ptr ht, holder_cons, getColor_eq hv, color_sided, hf, getParent_eq hv,
    parent_sided, eq, hside]
  rfl

theorem insertLoop_at (k : ℕ) (ctx : Ctx ℕ) (t : Tree ℕ) {n : ℕ} (hat : At h hd l ctx t)
    (hctx : CtxRB ctx n) (ht : t.color = .red) (hk : ctx.length + 1 ≤ k) :
    ∃ h' T, insertLoop hd k h (ptr t) = some h' ∧ At h' hd l [] T ∧ T ≠ .nil ∧
      T.setColor .black = insFix ctx t ∧ Relink h h' hd l := by
  fun_induction insFix ctx t generalizing h k n with
  | case1 t =>
      obtain ⟨k, rfl⟩ : ∃ j, k = j + 1 := ⟨k - 1, by simp at hk; omega⟩
      refine ⟨h, t, ?_, hat, Tree.ne_nil_of_red ht, rfl, Relink.refl h hd l⟩
      rw [insertLoop, hat.getParent_header]
      simp
  | case2 f t =>
      obtain ⟨k, rfl⟩ : ∃ j, k = j + 1 := ⟨k - 1, by simp at hk; omega⟩
      have hf : f.color = .black := by
        obtain ⟨s, c, a, u⟩ := f
        cases c with
        | black => rfl
        | red =>
            obtain ⟨_, _, ⟨g, rest, e, _⟩, _⟩ := hctx
            cases e
      exact ⟨h, f.fill t, insertLoop_black k hat (Tree.ne_nil_of_red ht) hf, At.cons_iff.mp hat,
        by simp [Frame.fill], rfl, Relink.refl h hd l⟩
  | case3 f g ctx t hf =>
      obtain ⟨k, rfl⟩ : ∃ j, k = j + 1 := ⟨k - 1, by simp at hk; omega⟩
      exact ⟨h, plug (f :: g :: ctx) t, insertLoop_black k hat (Tree.ne_nil_of_red ht) hf, hat.toRoot,
        plug_ne_nil _ (Tree.ne_nil_of_red ht), rfl, Relink.refl h hd l⟩
  | case4 f g ctx t hf hu ih =>
      obtain ⟨k, rfl⟩ : ∃ j, k = j + 1 := ⟨k - 1, by simp at hk; omega⟩
      have htn := Tree.ne_nil_of_red ht
      have hf' := Color.eq_red_of_ne hf
      obtain ⟨h1, e1, hat1, r1⟩ := insertBranch_red hat htn hu
      obtain ⟨_, hctx1⟩ := hctx.tail
      obtain ⟨m, hctx'⟩ := hctx1.tail
      obtain ⟨h', T, e', hat', hT, hfix, r'⟩ := ih k hat1 hctx' (by simp)
        (by simp only [List.length_cons] at hk; omega)
      refine ⟨h', T, ?_, hat', hT, hfix, r1.trans r'⟩
      rw [ptr_mk] at e'
      rw [insertLoop_red k hat htn hf', e1]
      exact e'
  | case5 f g ctx t hf hu =>
      obtain ⟨k, rfl⟩ : ∃ j, k = j + 2 := ⟨k - 2, by simp at hk; omega⟩
      have htn := Tree.ne_nil_of_red ht
      have hf' := Color.eq_red_of_ne hf
      obtain ⟨h1, a, u, t', e1, hat1, ht', hfill, r1⟩ :=
        insertBranch_black hat ht hf' (Tree.color_eq_black_of_ne hu)
      refine ⟨h1, plug ctx (insRotate f g t), ?_, ?_, ?_, rfl, r1⟩
      · rw [insertLoop_red _ hat htn hf', e1]
        exact insertLoop_black k hat1 ht' rfl
      · rw [← hfill, ← plug_cons]
        exact hat1.toRoot
      · rw [← hfill]
        exact plug_ne_nil _ (by simp [Frame.fill])

/-- **`rb_tree_insert_rebalance`** after a node has been hung on an empty place. -/
theorem insertRebalance_at {a : ℕ} {c : Color} {n : ℕ} (hok : h.Ok)
    (hat : At h hd l ctx (.node c .nil a .nil)) (hctx : CtxRB ctx n) :
    ∃ h', rbTreeInsertRebalance h a hd = some h' ∧
      At h' hd l [] (insFix ctx (.node .red .nil a .nil)) ∧ Relink h h' hd l := by
  obtain ⟨h1, e1, hat1, r1⟩ := hat.recolor (by simp) .red
  obtain ⟨h2, T, e2, hat2, hT, hfix, r2⟩ := insertLoop_at (walkBound h1) ctx _ hat1 hctx rfl
    (hat1.length_lt_walkBound (r1.ok hok))
  obtain ⟨h3, e3, hat3, r3⟩ := hat2.recolor hT .black
  refine ⟨h3, ?_, ?_, r1.trans (r2.trans r3)⟩
  · rw [rbTreeInsertRebalance]
    simp only [ptr, Tree.setColor_node] at e1 e2
    simp only [e1, Option.bind_eq_bind, Option.bind_some, e2, hat2.getParent_header, plug_nil, e3]
  · rw [← Tree.setColor_node c, ← hfix]
    exact hat3

end NeForce.Rb
