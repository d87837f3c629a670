import NeForce.BinaryHeap

/-! # Sorting by a heap

`sort_heap` takes the greatest element of a heap again and again; `partial_sort` keeps the least elements in a heap and
sorts them in the end. -/

namespace NeForce.BinaryHeap

open scoped List

variable {α : Type}

/-- No element is less than an earlier one. -/
def Ascending (o : StrictWeakOrder α) (l : List α) : Prop := l.Pairwise fun x y => o.lt y x = false

/-- No element of `t` is less than one of `s`. -/
def Below (o : StrictWeakOrder α) (s t : List α) : Prop := ∀ x ∈ s, ∀ y ∈ t, o.lt y x = false

section

variable (lt : α → α → Bool)

/-- The loop of `sort_heap` on the first `n` elements. -/
def sortHeap : ℕ → List α → List α
  | 0, l => l
  | n + 1, l => if 1 < n + 1 then sortHeap n (popHeap lt (l.take (n + 1)) ++ l.drop (n + 1)) else l

/-- The loop of `partial_sort` behind the heap; `pop_heap_aux` puts the front of the heap in the place of a lesser
element. -/
def partialSortLoop : List α → List α → List α × List α
  | first :: heap, x :: rest =>
      if lt x first then
        let r := partialSortLoop (adjustHeap lt (first :: heap) 0 x) rest
        (r.1, first :: r.2)
      else
        let r := partialSortLoop (first :: heap) rest
        (r.1, x :: r.2)
  | heap, rest => (heap, rest)

def partialSort (middle : ℕ) (l : List α) : List α :=
  if middle = 0 then l
  else
    let r := partialSortLoop lt (makeHeap lt (l.take middle)) (l.drop middle)
    sortHeap lt middle (r.1 ++ r.2)

end

/-! ### Ascending lists -/

variable {o : StrictWeakOrder α} {l s t : List α}

theorem ascending_append : Ascending o (s ++ t) ↔ Ascending o s ∧ Ascending o t ∧ Below o s t := List.pairwise_append

theorem Below.perm {s' t' : List α} (h : Below o s t) (hs : s'.Perm s) (ht : t'.Perm t) : Below o s' t' :=
  fun x hx y hy => h x (hs.mem_iff.mp hx) y (ht.mem_iff.mp hy)

theorem below_append : Below o l (s ++ t) ↔ Below o l s ∧ Below o l t := by
  unfold Below
  simp only [List.mem_append, or_imp, forall_and]

theorem ascending_of_length_le_one (h : l.length ≤ 1) : Ascending o l := by
  match l with
  | [] => exact .nil
  | [x] => exact List.pairwise_singleton ..
  | _ :: _ :: _ => simp at h

/-! ### `sort_heap` -/

theorem sortHeap_spec {n : ℕ} (h : IsHeap o.lt s) (hn : s.length = n) (t : List α) :
    ∃ s', sortHeap o.lt n (s ++ t) = s' ++ t ∧ s'.Perm s ∧ Ascending o s' := by
  induction n generalizing s t with
  | zero =>
      obtain rfl := List.length_eq_zero_iff.mp hn
      exact ⟨[], rfl, .refl _, .nil⟩
  | succ n ih =>
      unfold sortHeap
      split
      · rw [List.take_left' hn, List.drop_left' hn]
        match s with
        | [] => cases hn
        | first :: l =>
            -- The front of the heap goes behind it, where no element is less.
            obtain ⟨rest, h1, h2, h3⟩ := popHeap_spec h
            have hlen : rest.length = n := by
              rw [h3.length_eq]
              exact Nat.succ_injective hn
            obtain ⟨s', h4, h5, h6⟩ := ih h2 hlen (first :: t)
            have hbelow : Below o s' [first] := by
              intro x hx y hy
              obtain rfl := List.mem_singleton.mp hy
              exact h.front (List.mem_cons_of_mem _ (h3.mem_iff.mp (h5.mem_iff.mp hx)))
            rw [h1, List.append_assoc, List.singleton_append]
            refine ⟨s' ++ [first], ?_, ?_, ?_⟩
            · rw [h4, List.append_assoc, List.singleton_append]
            · exact (List.perm_append_singleton first s').trans ((h5.trans h3).cons first)
            · exact ascending_append.mpr ⟨h6, List.pairwise_singleton .., hbelow⟩
      · exact ⟨s, rfl, .refl _, ascending_of_length_le_one (by omega)⟩

/-! ### `partial_sort` -/

theorem below_singleton {y : α} : Below o s [y] ↔ ∀ x ∈ s, o.lt y x = false := by simp [Below]

theorem Below.cons {y : α} (h : Below o s [y]) (ht : Below o s t) : Below o s (y :: t) :=
  below_append.mpr ⟨h, ht⟩

theorem IsHeap.below_front {first : α} (h : IsHeap o.lt (first :: l)) {y : α} (hy : o.lt y first = false) :
    Below o (first :: l) [y] :=
  below_singleton.mpr fun _ hx => o.ge_trans (h.front hx) hy

/-- What the loop leaves in the heap is not greater than what has been in it. -/
theorem partialSortLoop_spec {heap rest : List α} (h : IsHeap o.lt heap) :
    IsHeap o.lt (partialSortLoop o.lt heap rest).1 ∧ (partialSortLoop o.lt heap rest).1.length = heap.length ∧
      ((partialSortLoop o.lt heap rest).1 ++ (partialSortLoop o.lt heap rest).2).Perm (heap ++ rest) ∧
      (heap ≠ [] → Below o (partialSortLoop o.lt heap rest).1 (partialSortLoop o.lt heap rest).2) ∧
      ∀ y, Below o heap [y] → Below o (partialSortLoop o.lt heap rest).1 [y] := by
  induction rest generalizing heap with
  | nil =>
      have hnil : partialSortLoop o.lt heap [] = (heap, []) := by cases heap <;> rfl
      rw [hnil]
      exact ⟨h, rfl, .refl _, fun _ _ _ _ hy => (List.not_mem_nil hy).elim, fun _ hy => hy⟩
  | cons x rest ih =>
      match heap with
      | [] => exact ⟨h, rfl, .refl _, fun hne => absurd rfl hne, fun _ hy => hy⟩
      | first :: heap =>
          unfold partialSortLoop
          split
          · next hless =>
            have hfrom : HeapFrom o.lt (0 + 1) (first :: heap) := fun i a b hi _ => h i a b hi (Nat.zero_le _)
            obtain ⟨h1, h2⟩ := adjustHeap_spec hfrom (Nat.succ_pos _) x
            rw [List.set_cons_zero] at h2
            obtain ⟨i1, i2, i3, i4, i5⟩ := ih h1
            have hlow (y : α) (hy : Below o (first :: heap) [y]) : Below o (adjustHeap o.lt (first :: heap) 0 x) [y] := by
              rw [below_singleton] at hy ⊢
              intro z hz
              obtain rfl | hz := List.mem_cons.mp (h2.mem_iff.mp hz)
              · exact o.ge_trans (o.asymm hless) (hy first List.mem_cons_self)
              · exact hy z (List.mem_cons_of_mem _ hz)
            have hne : adjustHeap o.lt (first :: heap) 0 x ≠ [] := fun hnil => by
              rw [hnil] at h2
              cases h2.nil_eq
            refine ⟨i1, i2.trans h2.length_eq, ?_, fun _ => ?_, fun y hy => i5 y (hlow y hy)⟩
            · calc
                _ ~ first :: _ := List.perm_middle
                _ ~ first :: (x :: heap ++ rest) := (i3.trans (h2.append_right rest)).cons first
                _ ~ _ := List.perm_middle.symm.cons first
            · exact (i5 first (hlow first (h.below_front (o.irrefl first)))).cons (i4 hne)
          · next hless =>
            obtain ⟨i1, i2, i3, i4, i5⟩ := ih h
            have hx : Below o (first :: heap) [x] := h.below_front (Bool.eq_false_iff.mpr hless)
            refine ⟨i1, i2, ?_, fun hne => (i5 x hx).cons (i4 hne), i5⟩
            calc
              _ ~ x :: _ := List.perm_middle
              _ ~ x :: (first :: heap ++ rest) := i3.cons x
              _ ~ _ := List.perm_middle.symm

/-- **`partial_sort` puts the `middle` least elements in front, in order.** -/
theorem partialSort_spec (l : List α) {middle : ℕ} (h : middle ≤ l.length) :
    ∃ s t, partialSort o.lt middle l = s ++ t ∧ s.length = middle ∧ (s ++ t).Perm l ∧ Ascending o s ∧ Below o s t := by
  unfold partialSort
  split
  · next hzero => exact ⟨[], l, rfl, hzero.symm, .refl _, .nil, fun _ hx => (List.not_mem_nil hx).elim⟩
  · next hpos =>
    obtain ⟨h1, h2⟩ := makeHeap_spec (o := o) (l.take middle)
    have hlen : (makeHeap o.lt (l.take middle)).length = middle := by
      rw [h2.length_eq, List.length_take, min_eq_left h]
    obtain ⟨h3, h4, h5, h6, -⟩ := @partialSortLoop_spec _ o _ (l.drop middle) h1
    obtain ⟨s, h7, h8, h9⟩ := sortHeap_spec h3 (h4.trans hlen) (partialSortLoop o.lt (makeHeap o.lt (l.take middle))
    (l.drop middle)).2
    have hne : makeHeap o.lt (l.take middle) ≠ [] := fun hnil => by
      rw [hnil] at hlen
      exact hpos hlen.symm
    refine ⟨s, _, h7, h8.length_eq.trans (h4.trans hlen), ?_, h9, (h6 hne).perm h8 (.refl _)⟩
    calc
      _ ~ _ := h8.append_right _
      _ ~ makeHeap o.lt (l.take middle) ++ l.drop middle := h5
      _ ~ l.take middle ++ l.drop middle := h2.append_right _
      _ = l := List.take_append_drop ..

end NeForce.BinaryHeap
