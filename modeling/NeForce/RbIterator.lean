import NeForce.RbEnds

/-! # Iterators walk the sequence

`increment` at a node yields the next label of the sequence, or the header after the last one
(`increment_at`); `decrement` yields the previous label (`decrement_at`), and at the header the
last one (`decrement_header`). -/

namespace NeForce.Rb

open Ctx RbNode

variable {V : Type} {h : Heap V} {hd a : ℕ} {l : List ℕ} {ctx : Ctx ℕ} {t : Tree ℕ} {s : Side}

namespace At

theorem child_ptr (s : Side) (hat : At h hd l ctx t) (ht : t ≠ .nil) :
    getChild s h (ptr t) = some (ptr (t.child s)) := by
  obtain ⟨x, e⟩ := Tree.exists_mk s ht
  have htree := hat.tree
  rw [e] at htree ⊢
  obtain ⟨⟨v, hv⟩, _⟩ := linked_mk.mp htree
  rw [ptr_mk, getChild_eq _ hv, child_sided, Tree.child_mk]

theorem child_ne {q : ℕ} (s : Side) (hq : q ≠ 0) (hqt : q ∉ t.inorder) :
    ptr (t.child s) ≠ q := by
  rintro rfl
  have hc : t.child s ≠ .nil := by
    intro hc
    simp [hc] at hq
  by_cases ht : t = .nil
  · simp [ht] at hc
  · obtain ⟨x, e⟩ := Tree.exists_mk s ht
    exact hqt (by rw [e, Tree.mem_inorder_mk, Tree.child_mk]; exact Or.inr (Or.inl (ptr_mem hc)))

end At

/-- The climb ends below the nearest node on the other side. -/
theorem climb_frame {k : ℕ} (hat : At h hd l ctx t) (ht : t ≠ .nil) (ho : outer s ctx ≠ [])
    (hk : ctx.length ≤ k) :
    ∃ c₁ f c₂, ctx = c₁ ++ f :: c₂ ∧ climb s h k (ptr t) (holder hd ctx) = some (ptr (plug c₁ t), f.addr) ∧
      endD s.opp (outer s ctx) hd = f.addr := by
  induction ctx generalizing t k with
  | nil => cases s <;> simp [outer] at ho
  | cons f ctx ih =>
      obtain ⟨k, rfl⟩ : ∃ j, k = j + 1 := ⟨k - 1, by simp at hk; omega⟩
      obtain ⟨v, hv⟩ := hat.load_frame
      rcases Side.eq_or_opp f.side s with hs | hs
      · have ho' : outer s (f :: ctx) = outer s ctx := by
          cases s <;> simp [outer, Frame.before, Frame.after, hs]
        rw [ho'] at ho ⊢
        obtain ⟨c₁, g, c₂, rfl, e, ee⟩ :=
          ih (k := k) (At.cons_iff.mp hat) (by simp [Frame.fill]) ho (by simpa using hk)
        refine ⟨f :: c₁, g, c₂, rfl, ?_, ee⟩
        rw [ptr_fill] at e
        rw [climb, holder_cons, getChild_eq _ hv, ← hs, child_sided]
        simp only [Option.bind_eq_bind, Option.bind_some, if_true, getParent_eq hv, parent_sided]
        rw [hs, e]
        rfl
      · refine ⟨[], f, ctx, rfl, ?_, ?_⟩
        · rw [climb, holder_cons, getChild_eq _ hv]
          have hs' : s = f.side.opp := by rw [hs, Side.opp_opp]
          rw [hs', child_opp_sided]
          simp [hat.ptr_ne_sib ht f ctx rfl]
        · obtain ⟨s', c, x, u⟩ := f
          obtain rfl : s' = s.opp := hs
          cases s with
          | left =>
              have e : outer .left (⟨.right, c, x, u⟩ :: ctx) = (before ctx ++ u.inorder) ++ [x] := by
                simp [outer, Frame.before]
              rw [Side.opp, e, endD_right_append]
              rfl
          | right => rfl

/-- The climb from a place at the end of the sequence reaches the root. -/
theorem climb_root {k : ℕ} (hat : At h hd l ctx t) (ho : outer s ctx = []) :
    climb s h (k + ctx.length) (ptr t) (holder hd ctx) = climb s h k (ptr (plug ctx t)) hd := by
  induction ctx generalizing t with
  | nil => rfl
  | cons f ctx ih =>
      obtain ⟨v, hv⟩ := hat.load_frame
      have hs : f.side = s ∧ outer s ctx = [] := by
        obtain ⟨s', c, x, u⟩ := f
        cases s <;> cases s' <;> simp_all [outer, Frame.before, Frame.after]
      rw [plug_cons, ← ih (At.cons_iff.mp hat) hs.2, ptr_fill, holder_cons, List.length_cons, ← Nat.add_assoc,
        climb, getChild_eq _ hv, ← hs.1, child_sided]
      simp only [Option.bind_eq_bind, Option.bind_some, if_true, getParent_eq hv, parent_sided]

/-- `rb_tree_base_iterator::increment` -/
theorem increment_at {c : Color} {tl tr : Tree ℕ} (hok : h.Ok) (hat : At h hd l ctx (.node c tl a tr))
    (he : Ends h hd l) : increment h a = some (endD .left (tr.inorder ++ after ctx) hd) := by
  have hr := hat.child_ptr .right (by simp)
  have hp := hat.getParent_ptr (by simp)
  rw [ptr_node] at hr hp
  rw [increment, hr]
  simp only [Option.bind_eq_bind, Option.bind_some, Tree.child]
  have hatr : At h hd l (⟨.right, c, a, tl⟩ :: ctx) tr := At.cons_iff.mpr hat
  by_cases htr : tr = .nil
  · subst htr
    rw [ptr_nil, if_neg (by simp), hp]
    simp only [Option.bind_some, Tree.inorder_nil, List.nil_append]
    have hk := hat.length_lt_walkBound hok
    by_cases ho : after ctx = []
    · -- the last element: the climb ends at the root or runs into the header
      obtain ⟨k, hk'⟩ : ∃ k, walkBound h = (k + 1) + ctx.length := ⟨walkBound h - 1 - ctx.length, by omega⟩
      have hroot := hat.toRoot
      have hne : plug ctx (.node c tl a .nil) ≠ .nil := plug_ne_nil ctx (by simp)
      obtain ⟨x, e⟩ := Tree.exists_mk .right hne
      obtain ⟨n, hn, _, hends⟩ := he
      have hpar := hroot.getParent_ptr hne
      have hlast : n.right = endD .right ((plug ctx (.node c tl a .nil)).child .right).inorder x := by
        have := hends .right
        rw [← hat.labels, e, endD_mk] at this
        rw [e, Tree.child_mk]
        exact this
      have hrootr := hroot.child_ptr .right hne
      have hx : ptr (plug ctx (.node c tl a .nil)) = x := by rw [e, ptr_mk]
      have hd0 : hd ≠ 0 := hat.ne_zero hn
      have hhd : hd ∉ (plug ctx (.node c tl a .nil)).inorder := hroot.nodup_parts.2.2.1
      have hcl := climb_root (s := .right) (k := k + 1) hat ho
      rw [ptr_node] at hcl
      rw [hk', hcl, ho, climb, getChild_eq _ hn, endD_nil, hx]
      simp only [Option.bind_eq_bind, Option.bind_some, child]
      rw [hx] at hrootr hpar
      by_cases hc : (plug ctx (.node c tl a .nil)).child .right = .nil
      · rw [hc] at hlast hrootr
        obtain ⟨k, rfl⟩ : ∃ j, k = j + 1 := by
          refine ⟨k - 1, ?_⟩
          unfold walkBound at hk'
          have := hok.length_lt (l := l) (List.nodup_cons.mp hat.nodup).2 fun b hb => by
            obtain ⟨m, hm, _⟩ := hat.load_isSome b hb
            simp [hm]
          have hle := length_le_inorder_plug ctx (.node c tl a .nil)
          rw [hat.labels] at hle
          omega
        have hph : getParent h hd = some x := by rw [← hx]; exact hat.getParent_header
        rw [if_pos (by rw [hlast]; rfl), hph]
        simp only [Option.bind_some]
        rw [climb, hrootr]
        simp only [Option.bind_eq_bind, Option.bind_some, ptr_nil, if_neg hd0]
        simp [getChild_eq _ hn, child, hlast]
      · rw [if_neg]
        · simp only [Option.pure_def, Option.bind_some, hrootr]
          rw [if_pos (At.child_ne .right hd0 hhd)]
        · rw [hlast]
          intro hxe
          have hm := endD_mem .right (List.ne_nil_of_mem (ptr_mem hc)) x
          rw [← hxe] at hm
          have hnd := hroot.nodup_parts.2.1
          rw [e, Tree.nodup_inorder_mk] at hnd
          exact hnd.1 hm
    · obtain ⟨c₁, f, c₂, rfl, e, ee⟩ := climb_frame (s := .right) (k := walkBound h) hat (by simp) ho (by omega)
      rw [ptr_node] at e
      have ha₁ := hat
      rw [At.iff_plug] at ha₁
      have hne : plug c₁ (.node c tl a .nil) ≠ .nil := plug_ne_nil c₁ (by simp)
      obtain ⟨v, hv⟩ := ha₁.load_frame
      have hfm : f.addr ∉ (plug c₁ (.node c tl a .nil)).inorder := by
        have := ha₁.holder_notMem
        rwa [holder_cons] at this
      simp only [e, Option.bind_some, ha₁.child_ptr .right hne]
      rw [if_pos (At.child_ne .right (ha₁.ne_zero hv) hfm)]
      exact congrArg some ee.symm
  · rw [if_pos (hatr.ptr_ne_zero htr)]
    rw [hatr.tree.extremumLoop .left hat.null htr (hatr.length_le_walkBound hok) hd, endD_left_append,
      endD_congr .left (List.ne_nil_of_mem (ptr_mem htr))]

/-- `rb_tree_base_iterator::decrement` at a node that is not the first. -/
theorem decrement_at {c : Color} {tl tr : Tree ℕ} (hok : h.Ok) (hat : At h hd l ctx (.node c tl a tr))
    (hb : (plug ctx (.node c tl a tr)).color = .black) (hne : before ctx ++ tl.inorder ≠ []) :
    decrement h a = some (endD .right (before ctx ++ tl.inorder) hd) := by
  obtain ⟨n, hn, hnc, hnp⟩ := hat.load_ptr (by simp)
  have hl := hat.child_ptr .left (by simp)
  simp only [ptr_node, Tree.color_node] at hl hn hnc
  have hat' : At h hd l (⟨.left, c, a, tr⟩ :: ctx) tl := At.cons_iff.mpr hat
  obtain ⟨m, hm⟩ := hat.load_holder
  have hhead : isHeader h a = some false := by
    rw [isHeader, getColor_eq hn, getParent_eq hn, hnc, hnp]
    simp only [Option.bind_eq_bind, Option.bind_some]
    split_ifs with hc
    · cases ctx with
      | nil =>
          rw [plug_nil, Tree.color_node, hc.1] at hb
          cases hb
      | cons f ctx =>
          obtain ⟨v, hv⟩ := hat.load_frame
          have hnm := (At.cons_iff.mp hat).holder_notMem
          rw [holder_cons, getParent_eq hv, parent_sided, Option.bind_some]
          have : holder hd ctx ≠ a := by
            rintro rfl
            exact hnm (by rw [Frame.fill, Tree.mem_inorder_mk]; simp)
          simp [this]
    · rfl
  rw [decrement, hhead]
  simp only [Option.bind_eq_bind, Option.bind_some, Bool.false_eq_true, if_false, hl, Tree.child]
  by_cases htl : tl = .nil
  · subst htl
    rw [ptr_nil, if_neg (by simp), getParent_eq hn, hnp]
    simp only [Option.bind_some, if_neg (hat.ne_zero hm)]
    rw [Tree.inorder_nil, List.append_nil] at hne ⊢
    have hk := hat.length_lt_walkBound hok
    obtain ⟨c₁, f, c₂, _, e, ee⟩ := climb_frame (s := .left) (k := walkBound h) hat (by simp) hne (by omega)
    rw [ptr_node] at e
    rw [e]
    exact congrArg some ee.symm
  · rw [if_pos (hat'.ptr_ne_zero htl)]
    rw [hat'.tree.extremumLoop .right hat.null htl (hat'.length_le_walkBound hok) hd, endD_right_append,
      endD_congr .right (List.ne_nil_of_mem (ptr_mem htl))]

/-- `--end()` -/
theorem decrement_header (hat : At h hd l [] t) (ht : t ≠ .nil) (he : Ends h hd l) :
    decrement h hd = some (endD .right l hd) := by
  obtain ⟨n, hn, hc, hends⟩ := he
  have hp := hat.getParent_header
  have hpp := hat.getParent_ptr ht
  rw [plug_nil] at hp
  rw [decrement, isHeader, getColor_eq hn, hp, hc]
  simp only [Option.bind_eq_bind, Option.bind_some]
  rw [if_pos ⟨trivial, hat.ptr_ne_zero ht⟩, hpp]
  simp only [holder_nil, Option.bind_some, beq_self_eq_true, if_true, Option.pure_def]
  rw [getChild_eq _ hn, hends]

end NeForce.Rb
