import Mathlib.Data.Finset.Card
import Mathlib.Algebra.Order.Group.Multiset
import Mathlib.Tactic.Abel
import Mathlib.Data.Multiset.Filter
import Mathlib.Data.Multiset.Range
import Mathlib.Logic.Function.Basic

/-! # Arrays of optional cells

The contents of the first `n` cells of an array, as a multiset, and how they change when one cell
is written, emptied or moved. -/

namespace NeForce.Cells

variable {α : Type} {n i j : ℕ} {a a' : ℕ → Option α} {v : α}

theorem filterMap_congr {β : Type} {f g : α → Option β} {s : Multiset α} (h : ∀ x ∈ s, f x = g x) :
    s.filterMap f = s.filterMap g := by
  induction s using Multiset.induction with
  | empty => rfl
  | cons x s ih =>
      rw [Multiset.filterMap_cons, Multiset.filterMap_cons, h x (Multiset.mem_cons_self x s),
        ih fun y hy => h y (Multiset.mem_cons_of_mem hy)]

def contents (n : ℕ) (a : ℕ → Option α) : Multiset α := (Multiset.range n).filterMap a

theorem mem_contents : v ∈ contents n a ↔ ∃ i < n, a i = some v := by
  simp [contents, Multiset.mem_filterMap]

theorem contents_congr (h : ∀ i < n, a i = a' i) : contents n a = contents n a' :=
  filterMap_congr fun i hi => h i (Multiset.mem_range.mp hi)

/-- The contents, with cell `i` in front. -/
theorem contents_eq (hi : i < n) :
    contents n a = Multiset.filterMap a {i} + Multiset.filterMap a ((Multiset.range n).erase i) := by
  rw [contents, ← Multiset.filterMap_add, Multiset.singleton_add, Multiset.cons_erase (Multiset.mem_range.mpr hi)]

theorem contents_update (hi : i < n) (o : Option α) :
    contents n (Function.update a i o) + Multiset.filterMap id {a i} = contents n a + Multiset.filterMap id {o} := by
  have hr : Multiset.filterMap (Function.update a i o) ((Multiset.range n).erase i) =
      Multiset.filterMap a ((Multiset.range n).erase i) := by
    refine filterMap_congr fun j hj => Function.update_of_ne ?_ _ _
    rintro rfl
    exact (Multiset.nodup_range n).notMem_erase hj
  have h1 : ∀ b : ℕ → Option α, Multiset.filterMap b {i} = Multiset.filterMap id {b i} := fun b => by
    cases e : b i <;> simp [← Multiset.cons_zero, e]
  rw [contents_eq hi, contents_eq (a := a) hi, hr, h1, h1, Function.update_self]
  abel

theorem contents_write (hi : i < n) (hn : a i = none) :
    contents n (Function.update a i (some v)) = v ::ₘ contents n a := by
  have h := contents_update (a := a) hi (some v)
  rw [hn] at h
  simpa [← Multiset.cons_zero, Multiset.filterMap_cons] using h

theorem contents_clear (hi : i < n) (hv : a i = some v) :
    v ::ₘ contents n (Function.update a i none) = contents n a := by
  have h := contents_update (a := a) hi none
  rw [hv] at h
  simpa [← Multiset.cons_zero, Multiset.filterMap_cons] using h

/-- Moving a cell to an empty one leaves the contents. -/
theorem contents_move (hi : i < n) (hj : j < n) (hij : i ≠ j) (hn : a j = none) :
    contents n (Function.update (Function.update a j (a i)) i none) = contents n a := by
  cases hv : a i with
  | none =>
      refine contents_congr fun m _ => ?_
      rcases eq_or_ne m i with rfl | hm
      · rw [Function.update_self, hv]
      rcases eq_or_ne m j with rfl | hm'
      · rw [Function.update_of_ne hm, Function.update_self, hn]
      · rw [Function.update_of_ne hm, Function.update_of_ne hm']
  | some v =>
      have h1 : Function.update a j (some v) i = some v := by rw [Function.update_of_ne hij, hv]
      rw [← Multiset.cons_inj_right v, contents_clear hi h1, contents_write hj hn]

theorem card_contents : (contents n a).card = ((Finset.range n).filter fun i => (a i).isSome).card := by
  rw [contents, Finset.card_def, Finset.filter_val, Finset.range_val, ← Multiset.countP_eq_card_filter]
  generalize Multiset.range n = s
  induction s using Multiset.induction with
  | empty => rfl
  | cons i s ih =>
      rw [Multiset.countP_cons, ← ih, Multiset.filterMap_cons]
      cases a i <;> simp

theorem card_contents_le : (contents n a).card ≤ n := by
  rw [card_contents]
  exact (Finset.card_filter_le _ _).trans_eq (Finset.card_range n)

end NeForce.Cells
