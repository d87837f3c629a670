import Mathlib.Algebra.CharP.Two
import Mathlib.Algebra.BigOperators.Group.Finset.Basic
import Mathlib.Algebra.BigOperators.Intervals
import Mathlib.Algebra.BigOperators.Ring.Finset
import Mathlib.Data.Nat.Bitwise
import Mathlib.Tactic.LinearCombination
import Mathlib.Tactic.Ring

/-! # Numbers as polynomials over two elements

`bitValue y n` is the polynomial whose coefficients are the bits of `n`, at `y`.  In a ring of characteristic 2 the
exclusive or of numbers is the sum of their values, and the product without carries (`clmul`) their product. -/

namespace NeForce

/-- The product of the low `n` bits of `a` with `b`, without carries. -/
def clmul : ℕ → ℕ → ℕ → ℕ
  | 0, _, _ => 0
  | n + 1, a, b => (if a.testBit n then b <<< n else 0) ^^^ clmul n a b

variable {R : Type*} [CommRing R] (y : R)

def bitValue (n : ℕ) : R :=
  if n = 0 then 0 else (if n % 2 = 1 then 1 else 0) + y * bitValue (n / 2)
decreasing_by omega

theorem bitValue_eq (n : ℕ) : bitValue y n = (if n % 2 = 1 then 1 else 0) + y * bitValue y (n / 2) := by
  by_cases hn : n = 0
  · have h0 : bitValue y 0 = 0 := by rw [bitValue, if_pos rfl]
    rw [hn, Nat.zero_mod, Nat.zero_div, h0, if_neg Nat.zero_ne_one, mul_zero, add_zero]
  · conv_lhs => rw [bitValue, if_neg hn]

@[simp] theorem bitValue_zero : bitValue y 0 = 0 := by rw [bitValue, if_pos rfl]

theorem bitValue_one : bitValue y 1 = 1 := by
  rw [bitValue_eq, if_pos rfl, show 1 / 2 = 0 from rfl, bitValue_zero, mul_zero, add_zero]

/-- The low `k` bits and the others. -/
theorem bitValue_add_mul {k a : ℕ} (ha : a < 2 ^ k) (b : ℕ) :
    bitValue y (a + 2 ^ k * b) = bitValue y a + y ^ k * bitValue y b := by
  induction k generalizing a with
  | zero =>
      obtain rfl : a = 0 := by omega
      rw [Nat.pow_zero, Nat.one_mul, Nat.zero_add, bitValue_zero, zero_add, pow_zero, one_mul]
  | succ k ih =>
      have hhalf : (a + 2 ^ (k + 1) * b) / 2 = a / 2 + 2 ^ k * b := by
        rw [Nat.pow_succ, Nat.mul_comm _ 2, Nat.mul_assoc, Nat.add_mul_div_left _ _ (by decide)]
      have hbit : (a + 2 ^ (k + 1) * b) % 2 = a % 2 := by
        rw [Nat.pow_succ, Nat.mul_comm _ 2, Nat.mul_assoc, Nat.add_mul_mod_self_left]
      rw [bitValue_eq, hhalf, hbit, ih (by omega), bitValue_eq y a]
      ring

theorem bitValue_split (k n : ℕ) : bitValue y n = bitValue y (n % 2 ^ k) + y ^ k * bitValue y (n / 2 ^ k) := by
  conv_lhs => rw [← Nat.mod_add_div n (2 ^ k)]
  exact bitValue_add_mul y (Nat.mod_lt _ (Nat.two_pow_pos k)) _

theorem bitValue_shiftLeft (n k : ℕ) : bitValue y (n <<< k) = y ^ k * bitValue y n := by
  have h := bitValue_add_mul y (Nat.two_pow_pos k) n
  rwa [Nat.zero_add, bitValue_zero, zero_add, Nat.mul_comm, ← Nat.shiftLeft_eq] at h

/-- The value is a sum over the bits. -/
theorem bitValue_eq_sum {k n : ℕ} (hn : n < 2 ^ k) :
    bitValue y n = ∑ i ∈ Finset.range k, if n.testBit i then y ^ i else 0 := by
  induction k generalizing n with
  | zero =>
      obtain rfl : n = 0 := by omega
      rw [bitValue_zero, Finset.range_zero, Finset.sum_empty]
  | succ k ih =>
      rw [Finset.sum_range_succ', bitValue_eq, ih (by omega), Finset.mul_sum, Nat.testBit_zero, pow_zero, add_comm]
      congr 1
      · refine Finset.sum_congr rfl fun i _ => ?_
        rw [Nat.testBit_succ, mul_ite, mul_zero, pow_succ']
      · simp

variable [CharP R 2]

theorem bitValue_xor (a b : ℕ) : bitValue y (a ^^^ b) = bitValue y a + bitValue y b := by
  induction a using Nat.strong_induction_on generalizing b with
  | _ a ih =>
      rcases Nat.eq_zero_or_pos a with rfl | hpos
      · rw [Nat.zero_xor, bitValue_zero, zero_add]
      · have hbit : (a ^^^ b) % 2 = (a % 2 + b % 2) % 2 := by
          have h := Nat.testBit_xor a b 0
          rw [Nat.testBit_zero, Nat.testBit_zero, Nat.testBit_zero] at h
          rcases Nat.mod_two_eq_zero_or_one a with ha | ha <;> rcases Nat.mod_two_eq_zero_or_one b with hb | hb <;>
            rcases Nat.mod_two_eq_zero_or_one (a ^^^ b) with hc | hc <;> simp [ha, hb, hc] at h ⊢
        rw [bitValue_eq, Nat.xor_div_two, ih (a / 2) (by omega), bitValue_eq y a, bitValue_eq y b, hbit]
        rcases Nat.mod_two_eq_zero_or_one a with ha | ha <;> rcases Nat.mod_two_eq_zero_or_one b with hb | hb
        · rw [ha, hb]
          simp
          ring
        · rw [ha, hb]
          simp
          ring
        · rw [ha, hb]
          simp
          ring
        · rw [ha, hb]
          simp
          linear_combination -(CharTwo.two_eq_zero (R := R))

/-- The product without carries is the product of the polynomials. -/
theorem bitValue_clmul {n a : ℕ} (ha : a < 2 ^ n) (b : ℕ) : bitValue y (clmul n a b) = bitValue y a * bitValue y b := by
  have h : ∀ n, bitValue y (clmul n a b) = (∑ i ∈ Finset.range n, if a.testBit i then y ^ i else 0) * bitValue y b := by
    intro n
    induction n with
    | zero => rw [clmul, bitValue_zero, Finset.range_zero, Finset.sum_empty, zero_mul]
    | succ n ih =>
        rw [clmul, bitValue_xor, ih, Finset.sum_range_succ]
        split_ifs
        · rw [bitValue_shiftLeft]
          ring
        · rw [bitValue_zero]
          ring
  rw [h, ← bitValue_eq_sum y ha]

theorem clmul_lt (n a : ℕ) {b k : ℕ} (hb : b < 2 ^ (k + 1)) : clmul n a b < 2 ^ (n + k) := by
  induction n with
  | zero => exact Nat.two_pow_pos _
  | succ n ih =>
      rw [clmul]
      refine Nat.xor_lt_two_pow ?_ (ih.trans (Nat.pow_lt_pow_right (by decide) (by omega)))
      split
      · rw [Nat.shiftLeft_eq, show n + 1 + k = (k + 1) + n by omega, Nat.pow_add 2 (k + 1) n]
        exact Nat.mul_lt_mul_of_pos_right hb (Nat.two_pow_pos n)
      · exact Nat.two_pow_pos _

end NeForce
