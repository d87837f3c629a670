import Mathlib.Data.List.Count
import Mathlib.Data.List.Perm.Basic
import Mathlib.Data.List.Forall2

/-! # `is_permutation`

The elements that differ behind the common prefix of the ranges are counted: each one of the first range must be as often in
the second one.  Elements that only the second range has are not looked for. -/

namespace NeForce.Permutations

variable {α : Type}

section

variable (pred : α → α → Bool)

/-- What is left of the ranges behind the elements that are equal in pairs. -/
def skipCommon : List α → List α → List α × List α
  | x :: s, y :: t => if pred x y then skipCommon s t else (x :: s, y :: t)
  | s, t => (s, t)

/-- The loop over the first range: `seen` is the part before the element. -/
def countLoop (t : List α) : List α → List α → Bool
  | _, [] => true
  | seen, x :: s =>
      if seen.any (pred · x) then countLoop t (seen ++ [x]) s
      else
        let cnt2 := t.countP (pred x)
        if cnt2 = 0 then false
        else if 1 + s.countP (pred x) ≠ cnt2 then false
        else countLoop t (seen ++ [x]) s

def isPermutation (s t : List α) : Bool :=
  match skipCommon pred s t with
  | ([], []) => true
  | ([], _) => false
  | (_, []) => false
  | (s, t) => countLoop pred t [] s

end

/-- An equivalence relation that is decided by a function. -/
structure IsEquivalence (pred : α → α → Bool) : Prop where
  refl : ∀ x, pred x x = true
  symm : ∀ {x y}, pred x y = true → pred y x = true
  trans : ∀ {x y z}, pred x y = true → pred y z = true → pred x z = true

/-- Some arrangement of the second range is equivalent to the first one, place by place. -/
def Matched (pred : α → α → Bool) (s t : List α) : Prop := ∃ t', t'.Perm t ∧ List.Forall₂ (fun x y => pred x y = true) s t'

variable {pred : α → α → Bool} {s t seen : List α} {x y : α}

/-! ### Counts -/

theorem IsEquivalence.congr (h : IsEquivalence pred) (hxy : pred x y = true) (z : α) : pred z x = pred z y := by
  rw [Bool.eq_iff_iff]
  exact ⟨fun hx => h.trans hx hxy, fun hy => h.trans hy (h.symm hxy)⟩

theorem IsEquivalence.congr_left (h : IsEquivalence pred) (hxy : pred x y = true) : pred x = pred y := by
  funext z
  rw [Bool.eq_iff_iff]
  exact ⟨fun hx => h.trans (h.symm hxy) hx, fun hy => h.trans hxy hy⟩

theorem countP_eq_of_forall₂ (h : IsEquivalence pred) (hst : List.Forall₂ (fun x y => pred x y = true) s t) (z : α) :
    s.countP (pred z) = t.countP (pred z) := by
  induction hst with
  | nil => rfl
  | cons hxy _ ih => rw [List.countP_cons, List.countP_cons, ih, h.congr hxy z]

theorem Matched.countP_eq (h : IsEquivalence pred) (hst : Matched pred s t) (z : α) :
    s.countP (pred z) = t.countP (pred z) := by
  obtain ⟨t', hp, hf⟩ := hst
  rw [countP_eq_of_forall₂ h hf z, hp.countP_eq]

theorem Matched.length_eq (hst : Matched pred s t) : s.length = t.length := by
  obtain ⟨t', hp, hf⟩ := hst
  rw [hf.length_eq, hp.length_eq]

/-- A range whose elements are all in the other one often enough is matched by a part of it. -/
theorem exists_part (h : IsEquivalence pred) (hle : ∀ x ∈ s, s.countP (pred x) ≤ t.countP (pred x)) :
    ∃ m rest, t.Perm (m ++ rest) ∧ List.Forall₂ (fun x y => pred x y = true) s m := by
  induction s generalizing t with
  | nil => exact ⟨[], t, .refl _, .nil⟩
  | cons x s ih =>
      have hx := hle x List.mem_cons_self
      rw [List.countP_cons_of_pos (h.refl x)] at hx
      obtain ⟨y, hy, hxy⟩ := List.countP_pos_iff.mp (show 0 < t.countP (pred x) by omega)
      obtain ⟨t₁, ht⟩ : ∃ t₁, t.Perm (y :: t₁) := by
        obtain ⟨a, b, rfl⟩ := List.append_of_mem hy
        exact ⟨a ++ b, List.perm_middle⟩
      obtain ⟨m, rest, hm, hf⟩ := @ih t₁ fun z hz => by
        have hz' := hle z (List.mem_cons_of_mem _ hz)
        rw [ht.countP_eq, List.countP_cons, List.countP_cons, h.congr hxy z] at hz'
        omega
      exact ⟨y :: m, rest, ht.trans (hm.cons y), .cons hxy hf⟩

theorem matched_of_counts (h : IsEquivalence pred) (hle : ∀ x ∈ s, s.countP (pred x) ≤ t.countP (pred x))
    (hlen : t.length ≤ s.length) : Matched pred s t := by
  obtain ⟨m, rest, hm, hf⟩ := exists_part h hle
  have hrest : rest = [] := by
    have h1 := hm.length_eq
    have h2 := hf.length_eq
    rw [List.length_append] at h1
    exact List.length_eq_zero_iff.mp (by omega)
  rw [hrest, List.append_nil] at hm
  exact ⟨m, hm.symm, hf⟩

/-! ### The common prefix -/

theorem skipCommon_spec (s t : List α) : ∃ p q, s = p ++ (skipCommon pred s t).1 ∧ t = q ++ (skipCommon pred s t).2 ∧
    List.Forall₂ (fun x y => pred x y = true) p q := by
  induction s generalizing t with
  | nil => exact ⟨[], [], rfl, rfl, .nil⟩
  | cons x s ih =>
      cases t with
      | nil => exact ⟨[], [], rfl, rfl, .nil⟩
      | cons y t =>
          rw [skipCommon]
          split
          · next hxy =>
            obtain ⟨p, q, hs, ht, hf⟩ := ih t
            refine ⟨x :: p, y :: q, ?_, ?_, .cons hxy hf⟩
            · rw [List.cons_append, ← hs]
            · rw [List.cons_append, ← ht]
          · exact ⟨[], [], rfl, rfl, .nil⟩

theorem countP_skipCommon (h : IsEquivalence pred) (s t : List α) (z : α) :
    s.countP (pred z) = t.countP (pred z) ↔
      (skipCommon pred s t).1.countP (pred z) = (skipCommon pred s t).2.countP (pred z) := by
  obtain ⟨p, q, hs, ht, hf⟩ := @skipCommon_spec _ pred s t
  have hpq := countP_eq_of_forall₂ h hf z
  generalize (skipCommon pred s t).1 = s' at *
  generalize (skipCommon pred s t).2 = t' at *
  rw [hs, ht, List.countP_append, List.countP_append]
  omega

theorem length_skipCommon (s t : List α) :
    s.length < t.length ↔ (skipCommon pred s t).1.length < (skipCommon pred s t).2.length := by
  obtain ⟨p, q, hs, ht, hf⟩ := @skipCommon_spec _ pred s t
  have hpq := hf.length_eq
  generalize (skipCommon pred s t).1 = s' at *
  generalize (skipCommon pred s t).2 = t' at *
  rw [hs, ht, List.length_append, List.length_append]
  omega

/-! ### The loop -/

/-- The elements that were seen are as often in both ranges. -/
theorem countLoop_eq_true (h : IsEquivalence pred) (hseen : ∀ x ∈ seen, (seen ++ s).countP (pred x) = t.countP (pred x)) :
    countLoop pred t seen s = true ↔ ∀ x ∈ s, (seen ++ s).countP (pred x) = t.countP (pred x) := by
  induction s generalizing seen with
  | nil => simp [countLoop]
  | cons x s ih =>
      have happ : seen ++ x :: s = seen ++ [x] ++ s := by rw [List.append_assoc, List.singleton_append]
      have hnext : (seen ++ x :: s).countP (pred x) = t.countP (pred x) →
          (countLoop pred t (seen ++ [x]) s = true ↔ ∀ z ∈ x :: s, (seen ++ x :: s).countP (pred z) = t.countP (pred z)) := by
        intro hx
        rw [ih ?_, happ, List.forall_mem_cons]
        · rw [happ] at hx
          exact ⟨fun hs => ⟨hx, hs⟩, And.right⟩
        · intro z hz
          rw [← happ]
          rcases List.mem_append.mp hz with hz | hz
          · exact hseen z hz
          · rw [List.mem_singleton.mp hz]
            exact hx
      rw [countLoop]
      split
      · next hany =>
        obtain ⟨z, hz, hzx⟩ := List.any_eq_true.mp hany
        refine hnext ?_
        rw [← h.congr_left hzx]
        exact hseen z hz
      · next hany =>
        have hzero : seen.countP (pred x) = 0 := by
          rw [List.countP_eq_zero]
          intro z hz hxz
          exact hany (List.any_eq_true.mpr ⟨z, hz, h.symm hxz⟩)
        have hcount : (seen ++ x :: s).countP (pred x) = 1 + s.countP (pred x) := by
          rw [List.countP_append, hzero, List.countP_cons_of_pos (h.refl x)]
          omega
        have hnot : t.countP (pred x) ≠ 1 + s.countP (pred x) →
            (false = true ↔ ∀ z ∈ x :: s, (seen ++ x :: s).countP (pred z) = t.countP (pred z)) := by
          intro hne
          refine iff_of_false Bool.false_ne_true fun hall => hne ?_
          rw [← hcount, hall x List.mem_cons_self]
        dsimp only
        split
        · exact hnot (by omega)
        · split
          · next hne => exact hnot fun heq => hne heq.symm
          · next heq => exact hnext (by omega)

theorem isPermutation_eq_true (h : IsEquivalence pred) (s t : List α) :
    isPermutation pred s t = true ↔
      (skipCommon pred s t).1 = [] ∧ (skipCommon pred s t).2 = [] ∨
        (skipCommon pred s t).1 ≠ [] ∧ (skipCommon pred s t).2 ≠ [] ∧
          ∀ x ∈ (skipCommon pred s t).1,
            (skipCommon pred s t).1.countP (pred x) = (skipCommon pred s t).2.countP (pred x) := by
  unfold isPermutation
  generalize skipCommon pred s t = r
  obtain ⟨s, t⟩ := r
  cases s with
  | nil => cases t <;> simp
  | cons x s =>
      cases t with
      | nil => simp
      | cons y t =>
          have hloop := @countLoop_eq_true _ pred (x :: s) (y :: t) [] h nofun
          rw [List.nil_append] at hloop
          simpa using hloop

/-! ### What it decides -/

theorem isPermutation_of_matched (h : IsEquivalence pred) (hst : Matched pred s t) : isPermutation pred s t = true := by
  have hcount z := (countP_skipCommon h s t z).mp (hst.countP_eq h z)
  rw [isPermutation_eq_true h]
  by_cases hnil : (skipCommon pred s t).1 = []
  · refine .inl ⟨hnil, ?_⟩
    rw [List.eq_nil_iff_forall_not_mem]
    intro y hy
    have hy' := hcount y
    rw [hnil, List.countP_nil] at hy'
    exact List.countP_eq_zero.mp hy'.symm y hy (h.refl y)
  · refine .inr ⟨hnil, fun hnil' => ?_, fun x _ => hcount x⟩
    obtain ⟨x, hx⟩ := List.exists_mem_of_ne_nil _ hnil
    have hx' := hcount x
    rw [hnil', List.countP_nil] at hx'
    exact List.countP_eq_zero.mp hx' x hx (h.refl x)

theorem matched_of_isPermutation (h : IsEquivalence pred) (hlen : t.length ≤ s.length)
    (hst : isPermutation pred s t = true) : Matched pred s t := by
  obtain ⟨p, q, hs, ht, hf⟩ := @skipCommon_spec _ pred s t
  rcases (isPermutation_eq_true h s t).mp hst with ⟨h1, h2⟩ | ⟨-, -, hall⟩
  · rw [h1, List.append_nil] at hs
    rw [h2, List.append_nil] at ht
    rw [hs, ht]
    exact ⟨q, .refl _, hf⟩
  · obtain ⟨m, hm, hfm⟩ := @matched_of_counts _ pred (skipCommon pred s t).1 (skipCommon pred s t).2 h
      (fun x hx => Nat.le_of_eq (hall x hx))
        (Nat.le_of_not_lt fun hlt => Nat.not_lt_of_le hlen ((length_skipCommon s t).mpr hlt))
    refine ⟨q ++ m, ?_, ?_⟩
    · exact (hm.append_left q).trans (.of_eq ht.symm)
    · have happ : List.Forall₂ (fun x y => pred x y = true) (p ++ (skipCommon pred s t).1) (q ++ m) :=
        List.rel_append hf hfm
      rwa [← hs] at happ

/-- **The answer is wrong exactly for a longer second range, each of whose counts that are looked at is right.** -/
theorem is_permutation_exact_iff (h : IsEquivalence pred) (s t : List α) :
    (isPermutation pred s t = true ↔ Matched pred s t) ↔
      ¬(s.length < t.length ∧ (skipCommon pred s t).1 ≠ [] ∧ ∀ x ∈ (skipCommon pred s t).1,
        (skipCommon pred s t).1.countP (pred x) = (skipCommon pred s t).2.countP (pred x)) := by
  constructor
  · rintro hiff ⟨hlen, hne, hall⟩
    have hne' : (skipCommon pred s t).2 ≠ [] := by
      have := (@length_skipCommon _ pred s t).mp hlen
      exact List.ne_nil_of_length_pos (by omega)
    have hst := hiff.mp ((isPermutation_eq_true h s t).mpr (.inr ⟨hne, hne', hall⟩))
    exact Nat.ne_of_lt hlen hst.length_eq
  · intro hnot
    refine ⟨fun htrue => ?_, isPermutation_of_matched h⟩
    rcases Nat.lt_or_ge s.length t.length with hlen | hlen
    · rcases (isPermutation_eq_true h s t).mp htrue with ⟨h1, h2⟩ | ⟨h1, -, h3⟩
      · have := (@length_skipCommon _ pred s t).mp hlen
        rw [h1, h2] at this
        exact absurd this (Nat.lt_irrefl _)
      · exact absurd ⟨hlen, h1, h3⟩ hnot
    · exact matched_of_isPermutation h hlen htrue

theorem isEquivalence_beq : IsEquivalence fun x y : ℕ => x == y where
  refl x := beq_self_eq_true x
  symm h := by rw [eq_of_beq h, beq_self_eq_true]
  trans h h' := by rw [eq_of_beq h, h']

/-- Ranges of one length. -/
theorem is_permutation_exact_two : isPermutation (fun x y : ℕ => x == y) [1, 2] [2, 1] = true ↔
    Matched (fun x y : ℕ => x == y) [1, 2] [2, 1] :=
  (is_permutation_exact_iff isEquivalence_beq [1, 2] [2, 1]).mpr (by decide)

/-- The 3 is in the second range alone. -/
theorem longer_range : isPermutation (fun x y : ℕ => x == y) [1, 2] [2, 1, 3] = true ∧
    isPermutation (fun x y : ℕ => x == y) [2, 1, 3] [1, 2] = false ∧
      ¬Matched (fun x y : ℕ => x == y) [1, 2] [2, 1, 3] := by
  refine ⟨by decide, by decide, fun h => ?_⟩
  have hlen := h.length_eq
  cases hlen

end NeForce.Permutations
