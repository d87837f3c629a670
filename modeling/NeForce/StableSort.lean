import NeForce.Bisect

/-! # Stable rearrangements

A list is rearranged stably if the elements that are equivalent to any one keep their order.  A merge of two ascending lists
that prefers the first one is such a rearrangement, and so are the insertion behind the equivalent elements and the reversal
of a strictly descending list. -/

namespace NeForce

variable {α : Type}

/-- No element is less than an earlier one. -/
def InOrder (o : StrictWeakOrder α) (l : List α) : Prop := l.Pairwise fun x y => o.lt y x = false

/-- Neither is less. -/
def alike (o : StrictWeakOrder α) (x y : α) : Bool := !o.lt x y && !o.lt y x

structure Stable (o : StrictWeakOrder α) (l r : List α) : Prop where
  perm : r.Perm l
  filter : ∀ x, r.filter (alike o x) = l.filter (alike o x)

/-- The merge that prefers the first list. -/
def mergeBy (o : StrictWeakOrder α) (l r : List α) : List α := l.merge r fun x y => !o.lt y x

variable {o : StrictWeakOrder α} {l m r s t : List α} {x y : α}

theorem alike_eq_false_of_lt (h : o.lt y x = true) (z : α) (hz : alike o z y = true) : alike o z x = false := by
  refine Bool.eq_false_iff.mpr fun hx => ?_
  simp only [alike, Bool.and_eq_true, Bool.not_eq_true'] at hz hx
  have := o.ge_trans hx.1 hz.2
  rw [h] at this
  cases this

namespace Stable

theorem refl (l : List α) : Stable o l l := ⟨.refl _, fun _ => rfl⟩

theorem trans (h : Stable o l m) (h' : Stable o m r) : Stable o l r :=
  ⟨h'.perm.trans h.perm, fun x => (h'.filter x).trans (h.filter x)⟩

theorem append (h : Stable o l r) (h' : Stable o s t) : Stable o (l ++ s) (r ++ t) where
  perm := h.perm.append h'.perm
  filter x := by rw [List.filter_append, List.filter_append, h.filter, h'.filter]

theorem length_eq (h : Stable o l r) : r.length = l.length := h.perm.length_eq

/-- A strictly descending list has no two alike. -/
theorem reverse (h : l.Pairwise fun x y => o.lt y x = true) : Stable o l l.reverse where
  perm := List.reverse_perm l
  filter x := by
    have hf : (l.filter (alike o x)).length ≤ 1 := by
      have hp := h.filter (alike o x)
      have hall : ∀ y ∈ l.filter (alike o x), alike o x y = true := fun y hy => (List.mem_filter.mp hy).2
      revert hp hall
      generalize l.filter (alike o x) = f
      intro hp hall
      match f with
      | [] => exact Nat.zero_le 1
      | [_] => exact Nat.le_refl 1
      | y :: z :: f =>
          have hlt := (List.pairwise_cons.mp hp).1 z List.mem_cons_self
          have hz := hall z (List.mem_cons_of_mem _ List.mem_cons_self)
          have := alike_eq_false_of_lt hlt x hz
          rw [hall y List.mem_cons_self] at this
          cases this
    rw [List.filter_reverse]
    match h : l.filter (alike o x), hf with
    | [], _ => rfl
    | [_], _ => rfl
    | _ :: _ :: _, hf => simp at hf

end Stable

/-- An element goes behind those that are not greater. -/
theorem stable_insert (h : Cut (o.lt x) l s t) (hl : InOrder o l) :
    InOrder o (s ++ x :: t) ∧ Stable o (l ++ [x]) (s ++ x :: t) := by
  rw [h.eq] at hl ⊢
  obtain ⟨h1, h2, h3⟩ := List.pairwise_append.mp hl
  refine ⟨List.pairwise_append.mpr ⟨h1, List.pairwise_cons.mpr ⟨fun y hy => o.asymm (h.high y hy), h2⟩, ?_⟩, ?_, ?_⟩
  · intro a ha b hb
    rcases List.mem_cons.mp hb with rfl | hb
    · exact h.low a ha
    · exact h3 a ha b hb
  · rw [List.append_assoc]
    exact (List.perm_append_singleton x t).symm.append_left s
  · intro z
    have ht (hz : alike o z x = true) : t.filter (alike o z) = [] :=
      List.filter_eq_nil_iff.mpr fun a ha => by
        rw [alike_eq_false_of_lt (h.high a ha) z hz]
        exact Bool.false_ne_true
    simp only [List.filter_append, List.filter_cons, List.filter_nil]
    split
    · next hz => rw [ht hz, List.append_nil]
    · rw [List.append_nil]

/-! ### Merging -/

theorem mergeBy_right (h : o.lt y x = true) : mergeBy o (x :: l) (y :: r) = y :: mergeBy o (x :: l) r :=
  List.cons_merge_cons_neg _ _ _ (by simp [h])

theorem mergeBy_left (h : o.lt y x = false) : mergeBy o (x :: l) (y :: r) = x :: mergeBy o l (y :: r) :=
  List.cons_merge_cons_pos _ _ _ (by simp [h])

@[simp] theorem mergeBy_nil (l : List α) : mergeBy o l [] = l := List.merge_right l

@[simp] theorem nil_mergeBy (r : List α) : mergeBy o [] r = r := List.nil_merge r

/-- A block of elements that are less than all of the first list. -/
theorem mergeBy_block_right (h : ∀ y ∈ s, o.lt y x = true) :
    mergeBy o (x :: l) (s ++ r) = s ++ mergeBy o (x :: l) r := by
  induction s with
  | nil => rfl
  | cons y s ih =>
      rw [List.cons_append, mergeBy_right (h y List.mem_cons_self), ih fun z hz => h z (List.mem_cons_of_mem _ hz)]
      rfl

theorem mergeBy_block_left (h : ∀ x ∈ s, o.lt y x = false) :
    mergeBy o (s ++ l) (y :: r) = s ++ mergeBy o l (y :: r) := by
  induction s with
  | nil => rfl
  | cons x s ih =>
      rw [List.cons_append, mergeBy_left (h x List.mem_cons_self), ih fun z hz => h z (List.mem_cons_of_mem _ hz)]
      rfl

theorem length_mergeBy : (mergeBy o l r).length = l.length + r.length := List.length_merge ..

theorem mergeBy_inOrder (hl : InOrder o l) (hr : InOrder o r) : InOrder o (mergeBy o l r) := by
  have htrans (a b c : α) (h1 : (!o.lt b a) = true) (h2 : (!o.lt c b) = true) : (!o.lt c a) = true := by
    simp only [Bool.not_eq_true'] at h1 h2 ⊢
    exact o.ge_trans h1 h2
  have htotal (a b : α) : ((!o.lt b a) || !o.lt a b) = true := by
    cases h : o.lt b a with
    | false => rfl
    | true => rw [o.asymm h]; rfl
  have := List.pairwise_merge htrans htotal l r (hl.imp fun h => by rw [h]; rfl) (hr.imp fun h => by rw [h]; rfl)
  exact this.imp fun h => by simpa using h

theorem filter_mergeBy (hl : InOrder o l) (z : α) :
    (mergeBy o l r).filter (alike o z) = l.filter (alike o z) ++ r.filter (alike o z) := by
  induction l generalizing r with
  | nil => rw [nil_mergeBy]; rfl
  | cons x l ihl =>
      induction r with
      | nil => rw [mergeBy_nil, List.filter_nil, List.append_nil]
      | cons y r ihr =>
          obtain ⟨h1, h2⟩ := List.pairwise_cons.mp hl
          cases h : o.lt y x with
          | false => rw [mergeBy_left h, List.filter_cons, ihl h2, @List.filter_cons _ x]; split <;> rfl
          | true =>
              rw [mergeBy_right h, List.filter_cons, ihr, @List.filter_cons _ y]
              split
              · next hz =>
                -- Nothing of the first list is like an element that is less than its first one.
                have hnil : (x :: l).filter (alike o z) = [] := List.filter_eq_nil_iff.mpr fun a ha => by
                  have hlt : o.lt y a = true := by
                    rcases List.mem_cons.mp ha with rfl | ha
                    · exact h
                    · exact o.lt_of_lt_of_ge h (h1 a ha)
                  rw [alike_eq_false_of_lt hlt z hz]
                  exact Bool.false_ne_true
                rw [hnil]
                rfl
              · rfl

theorem mergeBy_stable (hl : InOrder o l) : Stable o (l ++ r) (mergeBy o l r) where
  perm := List.merge_perm_append _
  filter z := by rw [filter_mergeBy hl, List.filter_append]

end NeForce
