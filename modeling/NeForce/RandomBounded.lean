import Mathlib
import NeForce.Int128Words

/-! # Bounded random numbers

`lemire_bounded`: a random 64-bit word is multiplied with the bound, and the upper half of the product is the number.
The lower half tells the words that would make some numbers more likely than others; those are drawn again. -/

namespace NeForce.Random

open Intrinsic

/-- The loop of `lemire_bounded`, over the words that the generator gives; `none` where there are too few. -/
def lemireLoop (max threshold hi lo : UInt64) : List UInt64 → Option (UInt64 × List UInt64)
  | [] => if lo < threshold then none else some (hi, [])
  | word :: words =>
    if lo < threshold then lemireLoop max threshold (umul128 word max).1 (umul128 word max).2 words
    else some (hi, word :: words)

/-- `lemire_bounded`, with the words that are left. -/
def lemireBounded (max : UInt64) : List UInt64 → Option (UInt64 × List UInt64)
  | [] => none
  | word :: words =>
    let (hi, lo) := umul128 word max
    if max ≤ lo then some (hi, words) else lemireLoop max ((0 - max) % max) hi lo words

/-- A word that is not drawn again. -/
def Kept (max word : UInt64) : Prop := 2 ^ 64 % max.toNat ≤ (umul128 word max).2.toNat

instance (max word : UInt64) : Decidable (Kept max word) := inferInstanceAs (Decidable (_ ≤ _))

/-- What is drawn is the upper half for the first word that is kept. -/
def firstKept (max : UInt64) : List UInt64 → Option (UInt64 × List UInt64)
  | [] => none
  | word :: words => if Kept max word then some ((umul128 word max).1, words) else firstKept max words

variable {max : UInt64}

theorem threshold_eq (h : 0 < max.toNat) : ((0 - max) % max).toNat = 2 ^ 64 % max.toNat := by
  have hlt := max.toNat_lt
  rw [UInt64.toNat_mod, UInt64.toNat_sub, UInt64.toNat_zero, Nat.add_zero,
    Nat.mod_eq_of_lt (by omega : 2 ^ 64 - max.toNat < 2 ^ 64), ← Nat.mod_eq_sub_mod hlt.le]

theorem umul128_halves (a b : UInt64) : (umul128 a b).1.toNat = a.toNat * b.toNat / 2 ^ 64 ∧
    (umul128 a b).2.toNat = a.toNat * b.toNat % 2 ^ 64 := by
  have hlt := (umul128 a b).2.toNat_lt
  rw [← umul128_spec]
  constructor
  · omega
  · omega

theorem lemireLoop_eq (h : 0 < max.toNat) (word : UInt64) (words : List UInt64) :
    lemireLoop max ((0 - max) % max) (umul128 word max).1 (umul128 word max).2 words = firstKept max (word :: words) := by
  have hkept : ∀ word, (umul128 word max).2 < (0 - max) % max ↔ ¬ Kept max word := by
    intro word
    rw [UInt64.lt_iff_toNat_lt, threshold_eq h, Kept, not_le]
  induction words generalizing word with
  | nil =>
      rw [lemireLoop, firstKept, firstKept]
      by_cases hword : Kept max word
      · rw [if_pos hword, if_neg (by rwa [hkept, not_not])]
      · rw [if_neg hword, if_pos ((hkept word).mpr hword)]
  | cons next words ih =>
      rw [lemireLoop, firstKept]
      by_cases hword : Kept max word
      · rw [if_pos hword, if_neg (by rwa [hkept, not_not])]
      · rw [if_neg hword, if_pos ((hkept word).mpr hword)]
        exact ih next

theorem lemireBounded_eq (h : 0 < max.toNat) (words : List UInt64) : lemireBounded max words = firstKept max words := by
  cases words with
  | nil => rfl
  | cons word words =>
      have hlt := Nat.mod_lt (2 ^ 64) h
      rw [lemireBounded]
      dsimp only
      split_ifs with hle
      · have hkept : Kept max word := hlt.le.trans (UInt64.le_iff_toNat_le.mp hle)
        rw [firstKept, if_pos hkept]
      · exact lemireLoop_eq h word words

/-- The words that are kept and give a number are those whose product lies between two multiples of `2 ^ 64`. -/
theorem kept_and_hi_iff (word : UInt64) (r : ℕ) : Kept max word ∧ (umul128 word max).1.toNat = r ↔
    r * 2 ^ 64 + 2 ^ 64 % max.toNat ≤ word.toNat * max.toNat ∧ word.toNat * max.toNat < r * 2 ^ 64 + 2 ^ 64 := by
  have hdiv := Nat.div_add_mod (word.toNat * max.toNat) (2 ^ 64)
  have hlt := Nat.mod_lt (word.toNat * max.toNat) (by decide : 0 < 2 ^ 64)
  rw [Kept, (umul128_halves word max).1, (umul128_halves word max).2]
  constructor
  · rintro ⟨hkept, rfl⟩
    omega
  · rintro ⟨hle, hgt⟩
    have hr : word.toNat * max.toNat / 2 ^ 64 = r := by
      rw [Nat.div_eq_iff (by decide)]
      omega
    exact ⟨by omega, hr⟩

/-- Every number below the bound is drawn with the same number of words. -/
theorem card_kept (h0 : 0 < max.toNat) {r : UInt64} (hr : r < max) :
    ((Finset.range (2 ^ 64)).filter fun n => Kept max (.ofNat n) ∧ (umul128 (.ofNat n) max).1 = r).card =
      2 ^ 64 / max.toNat := by
  have hrlt := UInt64.lt_iff_toNat_lt.mp hr
  have hsplit := Nat.div_add_mod (2 ^ 64) max.toNat
  set first := (r.toNat * 2 ^ 64 + 2 ^ 64 % max.toNat) ⌈/⌉ max.toNat with hfirst
  have hle : ∀ n, r.toNat * 2 ^ 64 + 2 ^ 64 % max.toNat ≤ n * max.toNat ↔ first ≤ n := by
    intro n
    rw [mul_comm n, ceilDiv_le_iff_le_mul h0]
  have hlt : ∀ n, n * max.toNat < r.toNat * 2 ^ 64 + 2 ^ 64 ↔ n < first + 2 ^ 64 / max.toNat := by
    intro n
    obtain hsmall | hlarge := lt_or_ge n (2 ^ 64 / max.toNat)
    · refine iff_of_true ?_ (by omega)
      have := Nat.mul_le_mul_right max.toNat hsmall.le
      have := Nat.mul_lt_mul_of_pos_right hsmall h0
      have := Nat.div_mul_le_self (2 ^ 64) max.toNat
      omega
    · obtain ⟨k, rfl⟩ := Nat.exists_eq_add_of_le' hlarge
      have := hle k
      rw [Nat.add_lt_add_iff_right, ← not_le, ← not_le, ← this, not_iff_not, add_mul]
      rw [mul_comm] at hsplit
      omega
  have hset : ((Finset.range (2 ^ 64)).filter fun n => Kept max (.ofNat n) ∧ (umul128 (.ofNat n) max).1 = r) =
      Finset.Ico first (first + 2 ^ 64 / max.toNat) := by
    ext n
    rw [Finset.mem_filter, Finset.mem_Ico, Finset.mem_range, ← hle, ← hlt]
    have hword : n < 2 ^ 64 → (UInt64.ofNat n).toNat = n := fun hn => UInt64.toNat_ofNat_of_lt' hn
    constructor
    · rintro ⟨hn, hkept⟩
      rw [← UInt64.toNat_inj, kept_and_hi_iff, hword hn] at hkept
      exact hkept
    · rintro ⟨hge, hgt⟩
      have hn : n < 2 ^ 64 := by
        have hbound : n * max.toNat < 2 ^ 64 * max.toNat := by
          rw [mul_comm (2 ^ 64)]
          calc n * max.toNat < r.toNat * 2 ^ 64 + 2 ^ 64 := hgt
            _ = (r.toNat + 1) * 2 ^ 64 := by rw [Nat.succ_mul]
            _ ≤ max.toNat * 2 ^ 64 := Nat.mul_le_mul_right (2 ^ 64) hrlt
        exact Nat.lt_of_mul_lt_mul_right hbound
      rw [← UInt64.toNat_inj, kept_and_hi_iff, hword hn]
      exact ⟨hn, hge, hgt⟩
  rw [hset, Nat.card_Ico, Nat.add_sub_cancel_left]

/-- The number that is drawn is that of the first word that is kept, and each number below the bound belongs to equally many
words. -/
theorem lemire_bounded_unbiased (h : 0 < max) :
    (∀ words, lemireBounded max words = firstKept max words) ∧
    (∀ word, (umul128 word max).1 < max) ∧
    ∀ r < max, ((Finset.range (2 ^ 64)).filter fun n => Kept max (.ofNat n) ∧ (umul128 (.ofNat n) max).1 = r).card =
      2 ^ 64 / max.toNat := by
  have h0 : 0 < max.toNat := UInt64.lt_iff_toNat_lt.mp h
  refine ⟨lemireBounded_eq h0, fun word => ?_, fun r hr => card_kept h0 hr⟩
  rw [UInt64.lt_iff_toNat_lt, (umul128_halves word max).1]
  exact Nat.div_lt_of_lt_mul (Nat.mul_lt_mul_of_pos_right word.toNat_lt h0)

theorem lemire_bounded_six : lemireBounded 6 [0, 0x8000000000000000] = firstKept 6 [0, 0x8000000000000000] :=
  (lemire_bounded_unbiased (by decide)).1 [0, 0x8000000000000000]

end NeForce.Random
