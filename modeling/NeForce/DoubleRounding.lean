import Mathlib.Algebra.Order.Field.Rat
import Mathlib.Tactic.Linarith
import Mathlib.Tactic.Positivity
import Mathlib.Tactic.Ring

/-! # Rounding to doubles

The patterns of the doubles that are not negative are in the order of their values, and a pattern is even exactly if the
significand is.  So the nearest double, with ties to even, is the pattern `p` between the middles to its neighbours,
where a middle belongs to an even pattern (`IsNearest`).  Values are in units of `2^-1074`; infinity stands for the next
power of two. -/

namespace NeForce.Float64

/-- The pattern of infinity. -/
def infinityBits : ℕ := 0x7FF * 2 ^ 52

/-- The value of a pattern. -/
def units (p : ℕ) : ℕ := if p < 2 ^ 52 then p else (2 ^ 52 + p % 2 ^ 52) * 2 ^ (p / 2 ^ 52 - 1)

/-- `p` is the pattern of the double that is nearest to `x`, or to a value a bit above `x`. -/
structure Rounds (more : Bool) (p : ℕ) (x : ℚ) : Prop where
  le : p ≤ infinityBits
  lower : p = 0 ∨ (units (p - 1) + units p : ℚ) < 2 * x ∨
    (units (p - 1) + units p : ℚ) = 2 * x ∧ (p % 2 = 0 ∨ more = true)
  upper : p = infinityBits ∨ 2 * x < units p + units (p + 1) ∨
    2 * x = units p + units (p + 1) ∧ p % 2 = 0 ∧ more = false

/-- `p` is the pattern of the double that is nearest to `x`. -/
abbrev IsNearest : ℕ → ℚ → Prop := Rounds false

variable {p t m : ℕ} {x : ℚ} {more : Bool}

/-- The pattern of a significand and an exponent. -/
theorem units_join (h : t = 0 ∨ 2 ^ 52 ≤ m) (hm : m ≤ 2 ^ 53) : units (t * 2 ^ 52 + m) = m * 2 ^ t := by
  unfold units
  by_cases hsmall : t * 2 ^ 52 + m < 2 ^ 52
  · have ht : t = 0 := by omega
    rw [if_pos hsmall, ht]
    simp
  · rw [if_neg hsmall]
    have hge : 2 ^ 52 ≤ m := by
      rcases h with rfl | h
      · omega
      · exact h
    rcases Nat.lt_or_ge m (2 ^ 53) with hlt | hge53
    · have hdiv : (t * 2 ^ 52 + m) / 2 ^ 52 = t + 1 := by omega
      have hmod : 2 ^ 52 + (t * 2 ^ 52 + m) % 2 ^ 52 = m := by omega
      rw [hdiv, hmod, Nat.add_sub_cancel]
    · have hm : m = 2 ^ 53 := by omega
      have hdiv : (t * 2 ^ 52 + m) / 2 ^ 52 = t + 2 := by omega
      have hmod : (t * 2 ^ 52 + m) % 2 ^ 52 = 0 := by omega
      rw [hdiv, hmod, hm, show t + 2 - 1 = t + 1 from rfl, Nat.pow_succ]
      ring

theorem units_lt (p : ℕ) : units p < units (p + 1) := by
  by_cases hsmall : p < 2 ^ 52
  · have h := units_join (t := 0) (m := p) (.inl rfl) (by omega)
    have h' := units_join (t := 0) (m := p + 1) (.inl rfl) (by omega)
    simp only [Nat.zero_mul, Nat.zero_add, pow_zero, Nat.mul_one] at h h'
    omega
  · obtain ⟨t, m, rfl, hge, hlt⟩ : ∃ t m, p = t * 2 ^ 52 + m ∧ 2 ^ 52 ≤ m ∧ m < 2 ^ 53 :=
      ⟨p / 2 ^ 52 - 1, 2 ^ 52 + p % 2 ^ 52, by omega, by omega, by omega⟩
    rw [Nat.add_assoc, units_join (.inr hge) hlt.le, units_join (.inr (by omega)) hlt]
    exact Nat.mul_lt_mul_of_pos_right (Nat.lt_succ_self m) (Nat.two_pow_pos t)

theorem units_pred_lt (hp : 0 < p) : units (p - 1) < units p := by
  have h := units_lt (p - 1)
  rwa [Nat.sub_add_cancel hp] at h

/-- The significand below the value, if the value is not above the middle to the next one. -/
theorem rounds_down (h : t = 0 ∨ 2 ^ 52 ≤ m) (hm : m < 2 ^ 53) (ht : t ≤ 2045) (hle : (m * 2 ^ t : ℚ) ≤ x)
    (hhalf : 2 * x < (2 * m + 1) * 2 ^ t ∨ 2 * x = (2 * m + 1) * 2 ^ t ∧ m % 2 = 0 ∧ more = false) :
    Rounds more (t * 2 ^ 52 + m) x := by
  have hp := units_join h hm.le
  have hnext : units (t * 2 ^ 52 + m + 1) = (m + 1) * 2 ^ t := by
    rw [Nat.add_assoc]
    exact units_join (by omega) hm
  have hbits : t * 2 ^ 52 + m ≤ infinityBits := by
    unfold infinityBits
    omega
  have hparity : (t * 2 ^ 52 + m) % 2 = m % 2 := by omega
  obtain ⟨p, hdef⟩ : ∃ p, p = t * 2 ^ 52 + m := ⟨_, rfl⟩
  rw [← hdef] at hp hnext hbits hparity ⊢
  have hvalue : (units p : ℚ) = m * 2 ^ t := by exact_mod_cast hp
  have hvalue' : (units (p + 1) : ℚ) = (m + 1) * 2 ^ t := by exact_mod_cast hnext
  refine ⟨hbits, ?_, .inr ?_⟩
  · rcases Nat.eq_zero_or_pos p with h0 | hpos
    · exact .inl h0
    · have hlt : (units (p - 1) : ℚ) < units p := by exact_mod_cast units_pred_lt hpos
      exact .inr (.inl (by linarith))
  · rw [hvalue, hvalue', hparity]
    rcases hhalf with hlt | ⟨heq, heven⟩
    · exact .inl (by linarith)
    · exact .inr ⟨by linarith, heven⟩

/-- The significand above the value, if the value is not below the middle. -/
theorem rounds_up (h : t = 0 ∨ 2 ^ 52 ≤ m) (hm : m < 2 ^ 53) (ht : t ≤ 2045) (hlt : x < (m + 1) * 2 ^ t)
    (hhalf : (2 * m + 1) * 2 ^ t < 2 * x ∨ (2 * m + 1) * 2 ^ t = 2 * x ∧ ((m + 1) % 2 = 0 ∨ more = true)) :
    Rounds more (t * 2 ^ 52 + (m + 1)) x := by
  have hp := units_join h hm.le
  have hnext : units (t * 2 ^ 52 + m + 1) = (m + 1) * 2 ^ t := by
    rw [Nat.add_assoc]
    exact units_join (by omega) hm
  have hbits : t * 2 ^ 52 + m + 1 ≤ infinityBits := by
    unfold infinityBits
    omega
  have hparity : (t * 2 ^ 52 + m + 1) % 2 = (m + 1) % 2 := by omega
  rw [← Nat.add_assoc]
  obtain ⟨p, hdef⟩ : ∃ p, p = t * 2 ^ 52 + m := ⟨_, rfl⟩
  rw [← hdef] at hp hnext hbits hparity ⊢
  have hvalue : (units p : ℚ) = m * 2 ^ t := by exact_mod_cast hp
  have hvalue' : (units (p + 1) : ℚ) = (m + 1) * 2 ^ t := by exact_mod_cast hnext
  have hup : (units (p + 1) : ℚ) < units (p + 1 + 1) := by exact_mod_cast units_lt (p + 1)
  refine ⟨hbits, .inr ?_, .inr (.inl (by linarith))⟩
  rw [Nat.add_sub_cancel, hvalue, hvalue', hparity]
  rcases hhalf with hlt | ⟨heq, heven⟩
  · exact .inl (by linarith)
  · exact .inr ⟨by linarith, heven⟩

theorem rounds_infinity (hx : (units infinityBits : ℚ) ≤ x) : Rounds more infinityBits x := by
  have hpos : 0 < infinityBits := by decide
  have hlt : (units (infinityBits - 1) : ℚ) < units infinityBits := by exact_mod_cast units_pred_lt hpos
  exact ⟨Nat.le_refl _, .inr (.inl (by linarith)), .inl rfl⟩

theorem rounds_zero (hx : 2 * x < 1) : Rounds more 0 x := by
  refine ⟨Nat.zero_le _, .inl rfl, .inr (.inl ?_)⟩
  have h0 : units 0 = 0 := rfl
  have h1 : units (0 + 1) = 1 := rfl
  rw [h0, h1]
  push_cast
  linarith

end NeForce.Float64
