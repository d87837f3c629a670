import Mathlib.Data.List.Basic
import Mathlib.Data.List.Infix
import Mathlib.Data.List.Pairwise

/-! # Complete prefix codes

A list of bit strings is read as the leaves of a binary tree.  `isComplete` checks, bit by bit, that
every long enough bit string begins with one of them; then no two of them begin the same string
(`pairwise_of_isComplete`) and each string has a code (`exists_prefix_of_isComplete`). -/

namespace NeForce.PrefixCode

/-- What follows `b` in the codes that begin with it. -/
def tails (b : Bool) (codes : List (List Bool)) : List (List Bool) :=
  codes.filterMap fun
    | [] => none
    | x :: l => if x = b then some l else none

/-- The codes are the leaves of a tree of at most the given depth. -/
def isComplete : ℕ → List (List Bool) → Bool
  | _, [[]] => true
  | 0, _ => false
  | d + 1, codes => codes.all (· ≠ []) && isComplete d (tails false codes) && isComplete d (tails true codes)

/-- Neither code begins with the other one: no string begins with both. -/
def Apart (c c' : List Bool) : Prop := ∀ l, c <+: l → ¬ c' <+: l

variable {codes : List (List Bool)} {b : Bool} {d : ℕ} {l : List Bool}

theorem mem_tails : l ∈ tails b codes ↔ b :: l ∈ codes := by
  rw [tails, List.mem_filterMap]
  constructor
  · rintro ⟨c, hc, h⟩
    cases c with
    | nil => cases h
    | cons x t =>
        simp only [Option.ite_none_right_eq_some, Option.some.injEq] at h
        obtain ⟨rfl, rfl⟩ := h
        exact hc
  · intro h
    exact ⟨b :: l, h, by simp⟩

/-- One bit of the check. -/
theorem isComplete_cases (h : isComplete d codes = true) :
    codes = [[]] ∨ ∃ d', d = d' + 1 ∧ (∀ c ∈ codes, c ≠ []) ∧ ∀ b, isComplete d' (tails b codes) = true := by
  by_cases hc : codes = [[]]
  · exact Or.inl hc
  · cases d with
    | zero =>
        rw [isComplete.eq_2 _ hc] at h
        cases h
    | succ d =>
        rw [isComplete.eq_3 _ _ hc, Bool.and_eq_true, Bool.and_eq_true, List.all_eq_true] at h
        refine Or.inr ⟨d, rfl, fun c hm => by simpa using h.1.1 c hm, fun b => ?_⟩
        cases b
        · exact h.1.2
        · exact h.2

theorem pairwise_of_isComplete (h : isComplete d codes = true) : codes.Pairwise Apart := by
  induction d generalizing codes with
  | zero =>
      obtain rfl | ⟨d', hd, _⟩ := isComplete_cases h
      · exact List.pairwise_singleton _ _
      · cases hd
  | succ d ih =>
      obtain rfl | ⟨d', hd, hne, hb⟩ := isComplete_cases h
      · exact List.pairwise_singleton _ _
      · obtain rfl : d = d' := by omega
        have hf := List.pairwise_filterMap.mp (ih (hb false))
        have ht := List.pairwise_filterMap.mp (ih (hb true))
        refine (hf.and ht).imp_of_mem ?_
        rintro c c' hc hc' ⟨h0, h1⟩ l hp hp'
        cases l with
        | nil => exact hne c hc (List.prefix_nil.mp hp)
        | cons x l =>
            obtain ⟨t, rfl, ht⟩ := (List.prefix_cons_iff.mp hp).resolve_left (hne c hc)
            obtain ⟨t', rfl, ht'⟩ := (List.prefix_cons_iff.mp hp').resolve_left (hne c' hc')
            cases x
            · exact h0 t (by simp) t' (by simp) l ht ht'
            · exact h1 t (by simp) t' (by simp) l ht ht'

/-- A string as long as the tree is deep begins with a code. -/
theorem exists_prefix_of_isComplete (h : isComplete d codes = true) (hl : d ≤ l.length) : ∃ c ∈ codes, c <+: l := by
  induction d generalizing codes l with
  | zero =>
      obtain rfl | ⟨d', hd, _⟩ := isComplete_cases h
      · exact ⟨[], List.mem_singleton_self _, List.nil_prefix⟩
      · cases hd
  | succ d ih =>
      obtain rfl | ⟨d', hd, _, hb⟩ := isComplete_cases h
      · exact ⟨[], List.mem_singleton_self _, List.nil_prefix⟩
      · obtain rfl : d = d' := by omega
        cases l with
        | nil => simp at hl
        | cons x l =>
            obtain ⟨t, ht, hp⟩ := ih (hb x) (by simpa using hl)
            exact ⟨x :: t, mem_tails.mp ht, by simpa using hp⟩

end NeForce.PrefixCode
