import NeForce.IntroSort

/-! # Selections

`nth_element` goes on in the part of a partition where the place is, and to the right once the pivot is there;
`partial_sort_copy` keeps the least elements of its input in a heap in the output. -/

namespace NeForce.IntroSort

open BinaryHeap
open scoped List

variable {α : Type}

section

variable (lt : α → α → Bool)

/-- The loop of `nth_element`, with so many turns at most, and the insertions behind it.  The place is counted from the front
of what is left and may be before or behind it. -/
def nthLoop : ℕ → List α → ℤ → Option (List α)
  | 0, _, _ => none
  | turns + 1, l, nth =>
      if 3 < l.length then
        let r := lomutoPartition lt l
        if r.2 ≤ nth then
          (nthLoop turns (r.1.drop (r.2 + 1)) (nth - (r.2 + 1))).map fun back => r.1.take r.2 ++ r.1[r.2]?.toList ++ back
        else (nthLoop turns (r.1.take r.2) nth).map (· ++ r.1.drop r.2)
      else insertionSort lt l

/-- A partition leaves less in either part. -/
def nthElement (l : List α) (nth : ℕ) : Option (List α) := nthLoop lt (l.length + 1) l nth

/-- The loop of `partial_sort_copy` over the rest of the input. -/
def copyLoop : List α → List α → List α
  | first :: heap, x :: rest =>
      if lt x first then copyLoop (adjustHeap lt (first :: heap) 0 x) rest else copyLoop (first :: heap) rest
  | heap, _ => heap

/-- The output, and the position behind what was copied. -/
def partialSortCopy (l result : List α) : List α × ℕ :=
  if result = [] then (result, 0)
  else
    let count := min l.length result.length
    (sortHeap lt count (copyLoop lt (makeHeap lt (l.take count)) (l.drop count)) ++ result.drop count, count)

end

variable {o : StrictWeakOrder α} {l s t heap rest result : List α} {n : ℤ}

/-! ### `nth_element` -/

/-- The element at a place has nothing greater before it and nothing less behind it. -/
def SplitAt (o : StrictWeakOrder α) (n : ℕ) (l : List α) : Prop :=
  ∃ s x t, l = s ++ x :: t ∧ s.length = n ∧ Below o s [x] ∧ Below o [x] t

theorem splitAt_of_ascending {n : ℕ} (h : Ascending o l) (hn : n < l.length) : SplitAt o n l := by
  have hsplit : l = l.take n ++ l[n] :: l.drop (n + 1) := by
    rw [List.getElem_cons_drop, List.take_append_drop]
  have h' := h
  rw [hsplit] at h'
  obtain ⟨-, h2, h3⟩ := ascending_append.mp h'
  refine ⟨_, _, _, hsplit, by rw [List.length_take, min_eq_left hn.le], fun x hx y hy => ?_, fun x hx y hy => ?_⟩
  · exact h3 x hx y (List.mem_singleton.mp hy ▸ List.mem_cons_self)
  · exact List.mem_singleton.mp hx ▸ (List.pairwise_cons.mp h2).1 y hy

/-- A pivot is between the parts, however these are arranged. -/
theorem below_pivot {low high : List α} {pivot : α} (hlow : ∀ x ∈ low, o.lt x pivot = true)
    (hhigh : ∀ x ∈ high, o.lt x pivot = false) : Below o low [pivot] ∧ Below o [pivot] high ∧ Below o low high := by
  refine ⟨fun x hx y hy => ?_, fun x hx y hy => ?_, fun x hx y hy => ?_⟩
  · exact List.mem_singleton.mp hy ▸ o.asymm (hlow x hx)
  · exact List.mem_singleton.mp hx ▸ hhigh y hy
  · exact o.ge_trans (o.asymm (hlow x hx)) (hhigh y hy)

theorem nthLoop_spec {turns : ℕ} (hturns : l.length < turns) (n : ℤ) :
    ∃ r, nthLoop o.lt turns l n = some r ∧ r.Perm l ∧ ∀ k : ℕ, n = k → k < l.length → SplitAt o k r := by
  induction turns generalizing l n with
  | zero => exact absurd hturns (Nat.not_lt_zero _)
  | succ turns ih =>
      unfold nthLoop
      split
      · next hlen =>
        obtain ⟨low, pivot, high, h1, h2, h3, h4⟩ := @lomutoPartition_spec _ o l (by omega)
        obtain ⟨b1, b2, b3⟩ := below_pivot h3 h4
        have hget : (low ++ pivot :: high)[low.length]? = some pivot := by simp
        have hcount := h2.length_eq
        rw [List.length_append, List.length_cons] at hcount
        rw [h1]
        dsimp only
        rw [hget, List.take_left, List.drop_left, Option.toList_some, ← List.drop_drop, List.drop_left, List.drop_one,
          List.tail_cons]
        split
        · next hcut =>
          obtain ⟨r, i1, i2, i3⟩ := @ih high (by omega) (n - (low.length + 1))
          rw [i1, Option.map_some]
          refine ⟨_, rfl, ?_, fun k hk hlt => ?_⟩
          · rw [List.append_assoc, List.singleton_append]
            exact ((i2.cons pivot).append_left low).trans h2
          · rcases Nat.lt_or_eq_of_le (show low.length ≤ k by omega) with hgt | rfl
            · obtain ⟨s, x, t, j1, j2, j3, j4⟩ := i3 (k - (low.length + 1)) (by omega) (by omega)
              have hx : x ∈ high := i2.mem_iff.mp (by simp [j1])
              refine ⟨low ++ [pivot] ++ s, x, t, by simp [j1], ?_, ?_, j4⟩
              · simp only [List.length_append, List.length_singleton]
                omega
              · intro y hy z hz
                rcases List.mem_append.mp hy with hy | hy
                · rw [List.mem_singleton.mp hz]
                  rcases List.mem_append.mp hy with hy | hy
                  · exact b3 y hy x hx
                  · exact b2 y hy x hx
                · exact j3 y hy z hz
            · refine ⟨low, pivot, r, by rw [List.append_assoc, List.singleton_append], rfl, b1, ?_⟩
              exact fun y hy z hz => b2 y hy z (i2.mem_iff.mp hz)
        · next hcut =>
          obtain ⟨r, i1, i2, i3⟩ := @ih low (by omega) n
          rw [i1, Option.map_some]
          refine ⟨_, rfl, (i2.append_right _).trans h2, fun k hk hlt => ?_⟩
          obtain ⟨s, x, t, j1, j2, j3, j4⟩ := i3 k hk (by omega)
          have hx : x ∈ low := i2.mem_iff.mp (by simp [j1])
          refine ⟨s, x, t ++ pivot :: high, by rw [j1, List.append_assoc, List.cons_append], j2, j3, fun y hy z hz => ?_⟩
          rcases List.mem_append.mp hz with hz | hz
          · exact j4 y hy z hz
          · rw [List.mem_singleton.mp hy]
            rcases List.mem_cons.mp hz with rfl | hz
            · exact b1 x hx z List.mem_cons_self
            · exact b3 x hx z hz
      · obtain ⟨r, h1, h2, h3⟩ := insertionSort_spec (o := o) l
        refine ⟨r, h1, h2, fun k _ hk => ?_⟩
        exact splitAt_of_ascending h3 (by rwa [h2.length_eq])

/-! ### `partial_sort_copy` -/

/-- The heap is the one of `partial_sort`, which keeps what it drops behind the heap. -/
theorem copyLoop_eq (heap rest : List α) : copyLoop o.lt heap rest = (partialSortLoop o.lt heap rest).1 := by
  induction rest generalizing heap with
  | nil => cases heap <;> rfl
  | cons x rest ih =>
      cases heap with
      | nil => rfl
      | cons first heap =>
          rw [copyLoop, partialSortLoop]
          split
          · exact ih _
          · exact ih _

theorem partialSortCopy_spec (l result : List α) : ∃ s t, partialSortCopy o.lt l result =
    (s ++ result.drop s.length, s.length) ∧ s.length = min l.length result.length ∧ (s ++ t).Perm l ∧ Ascending o s ∧
      Below o s t := by
  unfold partialSortCopy
  split
  · next hnil =>
    subst hnil
    exact ⟨[], l, rfl, by simp, .refl _, .nil, fun _ hx => (List.not_mem_nil hx).elim⟩
  · next hne =>
    obtain ⟨count, hcount⟩ : ∃ count, count = min l.length result.length := ⟨_, rfl⟩
    rw [← hcount]
    dsimp only
    obtain ⟨h1, h2⟩ := makeHeap_spec (o := o) (l.take count)
    have hlen : (makeHeap o.lt (l.take count)).length = count := by
      rw [h2.length_eq, List.length_take]
      omega
    obtain ⟨h3, h4, h5, h6, -⟩ := @partialSortLoop_spec _ o _ (l.drop count) h1
    obtain ⟨s, h7, h8, h9⟩ := sortHeap_spec h3 (h4.trans hlen) []
    rw [List.append_nil, List.append_nil] at h7
    have hs : s.length = count := h8.length_eq.trans (h4.trans hlen)
    refine ⟨s, (partialSortLoop o.lt (makeHeap o.lt (l.take count)) (l.drop count)).2, ?_, hs, ?_, h9, ?_⟩
    · rw [copyLoop_eq, h7, hs]
    · calc
        _ ~ _ := h8.append_right _
        _ ~ makeHeap o.lt (l.take count) ++ l.drop count := h5
        _ ~ l.take count ++ l.drop count := h2.append_right _
        _ = l := List.take_append_drop ..
    · rcases Nat.eq_zero_or_pos count with hzero | hpos
      · rw [hzero] at hs
        rw [List.length_eq_zero_iff.mp hs]
        exact fun _ hx => (List.not_mem_nil hx).elim
      · refine (h6 fun hnil => ?_).perm h8 (.refl _)
        rw [hnil] at hlen
        exact hpos.ne hlen

/-- **The selections put the elements of the right ranks in their places, and keep all of them.** -/
theorem selections_exact (o : StrictWeakOrder α) (l : List α) :
    (∀ middle ≤ l.length, ∃ s t, partialSort o.lt middle l = s ++ t ∧ s.length = middle ∧ (s ++ t).Perm l ∧
      Ascending o s ∧ Below o s t) ∧
    (∀ nth ≤ l.length, ∃ r, nthElement o.lt l nth = some r ∧ r.Perm l ∧ (nth < l.length → SplitAt o nth r)) ∧
    ∀ result, ∃ s t, partialSortCopy o.lt l result = (s ++ result.drop s.length, s.length) ∧
      s.length = min l.length result.length ∧ (s ++ t).Perm l ∧ Ascending o s ∧ Below o s t := by
  refine ⟨fun middle h => partialSort_spec l h, fun nth _ => ?_, fun result => partialSortCopy_spec l result⟩
  obtain ⟨r, h1, h2, h3⟩ := @nthLoop_spec _ o l _ (Nat.lt_succ_self _) nth
  exact ⟨r, h1, h2, h3 nth rfl⟩

end NeForce.IntroSort
