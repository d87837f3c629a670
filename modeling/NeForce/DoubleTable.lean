import Mathlib.Algebra.Order.Field.Power
import Mathlib.Tactic.FieldSimp
import Mathlib.Tactic.Linarith
import Mathlib.Tactic.NormNum
import NeForce.ParseDouble

/-! # Doubles through the table

An entry of the table is the power of ten to the nearest of 128 bits.  So the product with a significand is near the value,
and the margins around 0 and the middle keep the rounding on the value's side. -/

namespace NeForce.Float64

set_option maxRecDepth 8000

variable {m t s : ℕ} {x y : ℚ} {q : ℤ} {more : Bool} {l : DecimalLiteral}

/-! ### The pattern -/

theorem assemble_eq (h : t = 0 ∨ 2 ^ 52 ≤ m) (hm : m < 2 ^ 53) (ht : t ≤ 2045) :
    assemble m (t - 1074) = t * 2 ^ 52 + m := by
  unfold assemble
  rw [if_neg (by omega)]
  by_cases h0 : t = 0
  · rw [if_neg (by omega), h0, Nat.zero_mul, Nat.zero_add]
  · have hge : 2 ^ 52 ≤ m := h.resolve_left h0
    have hexp : ((t : ℤ) - 1074 + 1075).toNat = t + 1 := by omega
    rw [if_pos (by omega), hexp, ← Nat.shiftLeft_add_eq_or_of_lt (by omega), Nat.shiftLeft_eq]
    omega

theorem assemble_large (ht : 2045 < t) : assemble m (t - 1074) = infinityBits := if_pos (by omega)

theorem assembleRounded_eq (h : t = 0 ∨ 2 ^ 52 ≤ m) (hm : m ≤ 2 ^ 53) (ht : t ≤ 2045) :
    assembleRounded m (t - 1074) = t * 2 ^ 52 + m := by
  unfold assembleRounded
  by_cases htop : m = 2 ^ 53
  · rw [if_pos htop, htop, show (t : ℤ) - 1074 + 1 = ((t + 1 : ℕ) : ℤ) - 1074 by omega]
    by_cases hlast : t = 2045
    · rw [assemble_large (by omega), hlast]
      rfl
    · rw [assemble_eq (.inr (by omega)) (by omega) (by omega)]
      omega
  · rw [if_neg htop, assemble_eq h (by omega) ht]

theorem assembleRounded_large (ht : 2045 < t) : assembleRounded m (t - 1074) = infinityBits := by
  unfold assembleRounded
  rw [assemble_large ht, show (t : ℤ) - 1074 + 1 = ((t + 1 : ℕ) : ℤ) - 1074 by omega, assemble_large (by omega), ite_self]

theorem units_infinityBits : ∃ e, e = 2046 ∧ units infinityBits = 2 ^ 52 * 2 ^ e := by
  refine ⟨_, rfl, ?_⟩
  rw [← units_join (.inr le_rfl) (by omega)]
  congr 1

theorem rounds_large (hge : 2 ^ 52 ≤ m) (ht : 2045 < t) (hle : (m * 2 ^ t : ℚ) ≤ x) : Rounds more infinityBits x := by
  refine rounds_infinity (le_trans ?_ hle)
  obtain ⟨e, he, hunits⟩ := units_infinityBits
  have hpow : 2 ^ e ≤ 2 ^ t := Nat.pow_le_pow_right (by decide) (by omega)
  rw [hunits]
  exact_mod_cast Nat.mul_le_mul hge hpow

/-- A significand rounded down or up. -/
theorem rounds_assemble (up : Prop) [Decidable up] (h : t = 0 ∨ 2 ^ 52 ≤ m) (hm : m < 2 ^ 53) (hle : (m * 2 ^ t : ℚ) ≤ x)
    (hlt : x < (m + 1) * 2 ^ t)
    (hup : up → (2 * m + 1) * 2 ^ t < 2 * x ∨ (2 * m + 1) * 2 ^ t = 2 * x ∧ ((m + 1) % 2 = 0 ∨ more = true))
    (hdown : ¬up → 2 * x < (2 * m + 1) * 2 ^ t ∨ 2 * x = (2 * m + 1) * 2 ^ t ∧ m % 2 = 0 ∧ more = false) :
    Rounds more (assembleRounded (if up then m + 1 else m) (t - 1074)) x := by
  rcases Nat.lt_or_ge 2045 t with hlarge | ht
  · rw [assembleRounded_large hlarge]
    exact rounds_large (h.resolve_left (by omega)) hlarge hle
  · by_cases hcase : up
    · rw [if_pos hcase, assembleRounded_eq (h.imp_right (by omega)) (by omega) ht]
      exact rounds_up h hm ht hlt (hup hcase)
    · rw [if_neg hcase, assembleRounded_eq h hm.le ht]
      exact rounds_down h hm ht hle (hdown hcase)

/-! ### The entries -/

/-- The entry for `10^q`, without fractions. -/
def entryOk (q tableExponent : ℤ) (mantissa : ℕ) : Bool :=
  let above := 2 * (10 ^ q.toNat * 2 ^ (127 - tableExponent).toNat)
  let below := 10 ^ (-q).toNat * 2 ^ (tableExponent - 127).toNat
  2 ^ 127 ≤ mantissa && mantissa < 2 ^ 128 && above ≤ (2 * mantissa + 1) * below && (2 * mantissa - 1) * below ≤ above &&
    (tableExponent ≠ -1140 || mantissa < 3 * 2 ^ 126)

def entriesOk : ℤ → List ℕ → List ℕ → List ℤ → Bool
  | q, high :: highs, low :: lows, exponent :: exponents =>
      entryOk q exponent (high * 2 ^ 64 + low) && entriesOk (q + 1) highs lows exponents
  | _, [], [], [] => true
  | _, _, _, _ => false

theorem entriesOk_table : entriesOk pow10Min pow10MantissaHi pow10MantissaLo pow10Exponent = true := by
  decide

theorem entryOk_getD {highs lows : List ℕ} {exponents : List ℤ} (h : entriesOk q highs lows exponents = true) {i : ℕ}
    (hi : i < highs.length) : entryOk (q + i) (exponents.getD i 0) (highs.getD i 0 * 2 ^ 64 + lows.getD i 0) = true := by
  induction highs generalizing q lows exponents i with
  | nil => exact absurd hi (Nat.not_lt_zero i)
  | cons high highs ih =>
      cases lows with
      | nil => cases h
      | cons low lows =>
          cases exponents with
          | nil => cases h
          | cons exponent exponents =>
              rw [entriesOk, Bool.and_eq_true] at h
              cases i with
              | zero => simpa using h.1
              | succ i =>
                  have := ih h.2 (Nat.lt_of_succ_lt_succ hi)
                  simpa [add_assoc, add_comm (1 : ℤ)] using this

/-- An entry as a bound in the rationals. -/
theorem entryOk_bound {tableExponent : ℤ} (h : entryOk q tableExponent m = true) :
    2 ^ 127 ≤ m ∧ m < 2 ^ 128 ∧ (tableExponent = -1140 → m < 3 * 2 ^ 126) ∧
      |(10 : ℚ) ^ q * 2 ^ (1074 : ℤ) - m * 2 ^ (tableExponent + 947)| ≤ 2 ^ (tableExponent + 947) / 2 := by
  simp only [entryOk, Bool.and_eq_true, Bool.or_eq_true, decide_eq_true_eq] at h
  obtain ⟨⟨⟨⟨hlo, hhi⟩, habove⟩, hbelow⟩, hsmall⟩ := h
  refine ⟨hlo, hhi, fun he => hsmall.resolve_left (not_not.mpr he), ?_⟩
  have hten : (10 : ℚ) ^ q = 10 ^ q.toNat / 10 ^ (-q).toNat := by
    rw [eq_div_iff (by positivity), ← zpow_natCast, ← zpow_natCast, ← zpow_add₀ (by norm_num)]
    congr 1
    omega
  have hscale : (2 : ℚ) ^ (1074 : ℤ) * 2 ^ (tableExponent - 127).toNat =
      2 ^ (tableExponent + 947) * 2 ^ (127 - tableExponent).toNat := by
    rw [← zpow_natCast, ← zpow_natCast, ← zpow_add₀ (by norm_num), ← zpow_add₀ (by norm_num)]
    congr 1
    omega
  have hbelow' : ((2 * m - 1 : ℕ) : ℚ) = 2 * m - 1 := by
    rw [Nat.cast_sub (by omega)]
    push_cast
    rfl
  have h1 : (2 * (10 ^ q.toNat * 2 ^ (127 - tableExponent).toNat) : ℚ) ≤
      (2 * m + 1) * (10 ^ (-q).toNat * 2 ^ (tableExponent - 127).toNat) := by exact_mod_cast habove
  have h2 : ((2 * m - 1) * (10 ^ (-q).toNat * 2 ^ (tableExponent - 127).toNat) : ℚ) ≤
      2 * (10 ^ q.toNat * 2 ^ (127 - tableExponent).toNat) := by
    rw [← hbelow']
    exact_mod_cast hbelow
  have hden : (0 : ℚ) < 10 ^ (-q).toNat := by positivity
  have hpow : (0 : ℚ) < 2 ^ (tableExponent - 127).toNat := by positivity
  have hw : (0 : ℚ) < 2 ^ (tableExponent + 947) := by positivity
  rw [hten]
  generalize (10 : ℚ) ^ q.toNat = a at *
  generalize (10 : ℚ) ^ (-q).toNat = b at *
  generalize (2 : ℚ) ^ (127 - tableExponent).toNat = c at *
  generalize (2 : ℚ) ^ (tableExponent - 127).toNat = d at *
  generalize (2 : ℚ) ^ (tableExponent + 947) = w at *
  generalize (2 : ℚ) ^ (1074 : ℤ) = k at *
  have hk : k = w * c / d := by rw [eq_div_iff hpow.ne', hscale]
  have hdiff : a / b * k - m * w = w * ((a * c - m * (b * d)) / (b * d)) := by
    rw [hk]
    field_simp
  rw [hdiff, abs_mul, abs_of_pos hw, div_eq_mul_one_div w 2]
  refine mul_le_mul_of_nonneg_left ?_ hw.le
  rw [abs_div, abs_of_pos (mul_pos hden hpow), div_le_iff₀ (mul_pos hden hpow), abs_le]
  constructor <;> linarith

/-! ### The product -/

/-- What is known of a scanned literal: it is exact, or its error is less than `2^-60` of it. -/
structure DecimalLiteral.Reads (l : DecimalLiteral) (x : ℚ) : Prop where
  lt : l.significand < 2 ^ 64
  exact_of : l.truncated = false → x = l.significand * 10 ^ l.exponent
  near : |x - l.significand * 10 ^ l.exponent| * 2 ^ 60 ≤ l.significand * 10 ^ l.exponent

/-- The product `P` is near the value over the exponent `w`, and the error is small beside the bits from `s - 64` on. -/
theorem product_near {k w : ℚ} {P margin : ℕ} (hr : l.Reads x) (hw : 0 < w) (hk : |10 ^ l.exponent * k - m * w| ≤ w / 2)
    (hk0 : 0 < k) (hm : 2 ^ 127 ≤ m) (hP : P = l.significand * m) (hs : 75 ≤ s) (hsize : P < 2 ^ (s + 53))
    (hmargin : margin = if l.truncated then 2 ^ 58 else 16) :
    |x * k / w - P| ≤ (margin - 1) * 2 ^ (s - 64) := by
  have hlarge : l.significand * 2 ^ 127 < 2 ^ (s - 64) * 2 ^ 117 := by
    rw [← Nat.pow_add, show s - 64 + 117 = s + 53 by omega]
    exact (hP ▸ Nat.mul_le_mul_left _ hm).trans_lt hsize
  have hPlt : (P : ℚ) < 2 ^ (s - 64) * 2 ^ 117 := by
    have : P < 2 ^ (s - 64) * 2 ^ 117 := by rwa [← Nat.pow_add, show s - 64 + 117 = s + 53 by omega]
    exact_mod_cast this
  have hlarge' : (l.significand * 2 ^ 127 : ℚ) < 2 ^ (s - 64) * 2 ^ 117 := by exact_mod_cast hlarge
  have hσ : (0 : ℚ) ≤ l.significand := Nat.cast_nonneg _
  have hu : (0 : ℚ) < 2 ^ (s - 64) := by positivity
  obtain ⟨z, hz⟩ : ∃ z, z = l.significand * 10 ^ l.exponent * k / w := ⟨_, rfl⟩
  have hzP : |z - P| ≤ l.significand / 2 := by
    have heq : z - P = l.significand * ((10 ^ l.exponent * k - m * w) / w) := by
      rw [hz, hP]
      push_cast
      field_simp
    rw [heq, abs_mul, abs_of_nonneg hσ, abs_div, abs_of_pos hw, div_eq_mul_one_div _ (2 : ℚ)]
    refine mul_le_mul_of_nonneg_left ?_ hσ
    rw [div_le_iff₀ hw]
    linarith
  have hzP' := abs_le.mp hzP
  by_cases htr : l.truncated = true
  · rw [if_pos htr] at hmargin
    have hyz : |x * k / w - z| * 2 ^ 60 ≤ z := by
      have heq : x * k / w - z = (x - l.significand * 10 ^ l.exponent) * (k / w) := by
        rw [hz]
        ring
      have hkw : 0 < k / w := div_pos hk0 hw
      rw [heq, hz, abs_mul, abs_of_pos hkw, mul_right_comm, mul_div_assoc]
      exact mul_le_mul_of_nonneg_right hr.near hkw.le
    have htri := abs_sub_le (x * k / w) z P
    rw [hmargin]
    push_cast
    generalize (2 : ℚ) ^ (s - 64) = u at *
    linarith
  · rw [if_neg htr] at hmargin
    have hyz : x * k / w = z := by rw [hz, hr.exact_of (Bool.eq_false_iff.mpr htr)]
    rw [hyz, hmargin]
    push_cast
    generalize (2 : ℚ) ^ (s - 64) = u at *
    linarith

/-- What the parts of the product say about the value. -/
theorem margins {P margin : ℕ} (hs : 64 ≤ s) (hsize : P < 2 ^ (s + 53))
    (hy : |y - P| ≤ (margin - 1) * 2 ^ (s - 64)) (hlow : margin ≤ P / 2 ^ (s - 64) % 2 ^ 64)
    (hhigh : P / 2 ^ (s - 64) % 2 ^ 64 + margin < 2 ^ 64) :
    P / 2 ^ s < 2 ^ 53 ∧ (P / 2 ^ s : ℕ) * 2 ^ s ≤ y ∧ y < ((P / 2 ^ s : ℕ) + 1) * 2 ^ s ∧
      (P / 2 ^ (s - 64) % 2 ^ 64 + margin ≤ 2 ^ 63 → 2 * y < (2 * (P / 2 ^ s : ℕ) + 1) * 2 ^ s) ∧
      (2 ^ 63 + margin ≤ P / 2 ^ (s - 64) % 2 ^ 64 → (2 * (P / 2 ^ s : ℕ) + 1) * 2 ^ s < 2 * y) := by
  obtain ⟨g, rfl⟩ := Nat.exists_eq_add_of_le' hs
  rw [Nat.add_sub_cancel] at *
  have hsplit : P = (P / 2 ^ (g + 64)) * 2 ^ (g + 64) + (P / 2 ^ g % 2 ^ 64) * 2 ^ g + P % 2 ^ g := by
    have h1 := Nat.div_add_mod P (2 ^ g)
    have h2 := Nat.div_add_mod (P / 2 ^ g) (2 ^ 64)
    rw [Nat.div_div_eq_div_mul, ← Nat.pow_add] at h2
    generalize P / 2 ^ (g + 64) = a at *
    generalize P / 2 ^ g % 2 ^ 64 = b at *
    rw [← h2] at h1
    generalize P % 2 ^ g = r at *
    rw [← h1, Nat.pow_add]
    ring
  have hrest : P % 2 ^ g < 2 ^ g := Nat.mod_lt _ (Nat.two_pow_pos g)
  have htop : P / 2 ^ (g + 64) < 2 ^ 53 := by
    rw [Nat.div_lt_iff_lt_mul (Nat.two_pow_pos _), ← Nat.pow_add, Nat.add_comm 53]
    exact hsize
  generalize P / 2 ^ (g + 64) = a at *
  generalize P / 2 ^ g % 2 ^ 64 = b at *
  generalize P % 2 ^ g = r at *
  have hPq : (P : ℚ) = a * (2 ^ 64 * 2 ^ g) + b * 2 ^ g + r := by
    rw [hsplit, Nat.pow_add]
    push_cast
    ring
  have hgpos : (0 : ℚ) < 2 ^ g := by positivity
  have hr0 : (0 : ℚ) ≤ r := Nat.cast_nonneg r
  have hr1 : (r : ℚ) < 2 ^ g := by exact_mod_cast hrest
  have hlow' : (margin : ℚ) ≤ b := by exact_mod_cast hlow
  have hhigh' : (b + margin + 1 : ℚ) ≤ 2 ^ 64 := by exact_mod_cast hhigh
  have hpow : (2 : ℚ) ^ (g + 64) = 2 ^ 64 * 2 ^ g := by rw [pow_add, mul_comm]
  obtain ⟨hy1, hy2⟩ := abs_le.mp hy
  rw [hPq] at hy1 hy2
  rw [hpow]
  generalize (2 : ℚ) ^ g = u at *
  have hb1 : margin * u ≤ b * u := mul_le_mul_of_nonneg_right hlow' hgpos.le
  have hb2 : (b + margin + 1) * u ≤ 2 ^ 64 * u := mul_le_mul_of_nonneg_right hhigh' hgpos.le
  refine ⟨htop, by linarith, by linarith, fun h => ?_, fun h => ?_⟩
  · have h' : (b + margin : ℚ) ≤ 2 ^ 63 := by exact_mod_cast h
    have := mul_le_mul_of_nonneg_right h' hgpos.le
    linarith
  · have h' : (2 ^ 63 + margin : ℚ) ≤ b := by exact_mod_cast h
    have := mul_le_mul_of_nonneg_right h' hgpos.le
    linarith

theorem DecimalLiteral.Reads.le (hr : l.Reads x) : x ≤ 2 * (l.significand * 10 ^ l.exponent) ∧
    l.significand * 10 ^ l.exponent ≤ 2 * x := by
  have h := hr.near
  have h0 : (0 : ℚ) ≤ l.significand * 10 ^ l.exponent := by positivity
  obtain ⟨h1, h2⟩ := abs_le.mp (show |x - l.significand * 10 ^ l.exponent| ≤ l.significand * 10 ^ l.exponent / 2 ^ 60 by
    rwa [le_div_iff₀ (by positivity)])
  constructor <;> linarith

/-- So small a product is less than half of the smallest double. -/
theorem tiny_product {w : ℚ} {e : ℤ} (hr : l.Reads x) (hw : w = 2 ^ (e + 947)) (he : e < -1139) (hm : m < 2 ^ 128)
    (hsmall : e = -1140 → m < 3 * 2 ^ 126) (hk : |10 ^ l.exponent * 2 ^ (1074 : ℤ) - m * w| ≤ w / 2) :
    2 * (x * 2 ^ (1074 : ℤ)) < 1 := by
  have hw0 : (0 : ℚ) < w := hw ▸ by positivity
  have hentry : (m : ℚ) * w + w ≤ 7 / 8 / 2 ^ 65 := by
    rcases Int.lt_or_eq_of_le (show e ≤ -1140 by omega) with hlt | rfl
    · have hm' : (m + 1 : ℚ) ≤ 2 ^ 128 := by exact_mod_cast hm
      have hpow : w ≤ 1 / 2 ^ 194 := by
        rw [hw, one_div, ← zpow_natCast, ← zpow_neg]
        exact zpow_le_zpow_right₀ (by norm_num) (by push_cast; omega)
      calc (m : ℚ) * w + w = (m + 1) * w := by ring
        _ ≤ 2 ^ 128 * (1 / 2 ^ 194) := mul_le_mul hm' hpow hw0.le (by positivity)
        _ ≤ 7 / 8 / 2 ^ 65 := by norm_num
    · have hm' : (m + 1 : ℚ) ≤ 3 * 2 ^ 126 := by exact_mod_cast hsmall rfl
      have hpow : w = 1 / 2 ^ 193 := by
        rw [hw, one_div, ← zpow_natCast, ← zpow_neg]
        rfl
      calc (m : ℚ) * w + w = (m + 1) * w := by ring
        _ ≤ 3 * 2 ^ 126 * (1 / 2 ^ 193) := by
            rw [hpow]
            exact mul_le_mul_of_nonneg_right hm' (by positivity)
        _ ≤ 7 / 8 / 2 ^ 65 := by norm_num
  have hten : 10 ^ l.exponent * 2 ^ (1074 : ℤ) ≤ (m : ℚ) * w + w := by linarith [(abs_le.mp hk).2]
  have hσ : (l.significand : ℚ) ≤ 2 ^ 64 := by exact_mod_cast hr.lt.le
  have hprod : l.significand * (10 ^ l.exponent * 2 ^ (1074 : ℤ)) ≤ (2 : ℚ) ^ 64 * (7 / 8 / 2 ^ 65) :=
    mul_le_mul hσ (hten.trans hentry) (by positivity) (by positivity)
  have hx : x ≤ l.significand * 10 ^ l.exponent * (1 + 1 / 2 ^ 60) := by
    have h := hr.near
    have h1 := le_abs_self (x - l.significand * 10 ^ l.exponent)
    linarith
  have hk0 : (0 : ℚ) < 2 ^ (1074 : ℤ) := by positivity
  have := mul_le_mul_of_nonneg_right hx hk0.le
  generalize (2 : ℚ) ^ (1074 : ℤ) = k at *
  generalize (10 : ℚ) ^ l.exponent = a at *
  linarith

theorem roundProduct_isNearest {e : ℤ} {p : ℕ} (hr : l.Reads x) (hpos : 0 < l.significand)
    (hok : entryOk l.exponent e m = true) (h : roundProduct l.truncated (l.significand * m) e = some p) :
    IsNearest p (x * 2 ^ (1074 : ℤ)) := by
  obtain ⟨hlo, hhi, hsmall, hk⟩ := entryOk_bound hok
  obtain ⟨P, hP⟩ : ∃ P, P = l.significand * m := ⟨_, rfl⟩
  rw [← hP] at h
  unfold roundProduct at h
  obtain ⟨shift, hshift⟩ : ∃ shift, shift = max (-947 - e) ((P.size : ℤ) - 53) := ⟨_, rfl⟩
  simp only [← hshift] at h
  have hw : (0 : ℚ) < 2 ^ (e + 947) := by positivity
  by_cases htiny : 192 < shift
  · rw [if_pos htiny] at h
    cases h
    have hlt : P < 2 ^ 64 * 2 ^ 128 := hP ▸ Nat.mul_lt_mul'' hr.lt hhi
    have hlen : P.size ≤ 64 + 128 := Nat.size_le.mpr (by rwa [Nat.pow_add])
    exact rounds_zero (tiny_product hr rfl (by omega) hhi hsmall hk)
  · rw [if_neg htiny] at h
    have hge : 2 ^ 127 ≤ P := hP ▸ hlo.trans (Nat.le_mul_of_pos_left m hpos)
    have hsize : 127 < P.size := Nat.lt_size.mpr hge
    obtain ⟨s, rfl⟩ := Int.eq_ofNat_of_zero_le (show 0 ≤ shift by omega)
    obtain ⟨t, ht⟩ := Int.eq_ofNat_of_zero_le (show 0 ≤ s + (e + 947) by omega)
    have hscale : (2 : ℚ) ^ s * 2 ^ (e + 947) = 2 ^ t := by
      rw [← zpow_natCast, ← zpow_natCast, ← zpow_add₀ (by norm_num), ht]
    have hlt : P < 2 ^ (s + 53) := (Nat.lt_size_self P).trans_le (Nat.pow_le_pow_right (by decide) (by omega))
    have hbits : t = 0 ∨ 2 ^ 52 ≤ P / 2 ^ s := by
      by_cases h0 : t = 0
      · exact .inl h0
      · right
        rw [Nat.le_div_iff_mul_le (Nat.two_pow_pos s), ← Nat.pow_add]
        exact Nat.lt_size.mp (by omega)
    rw [Int.toNat_natCast] at h
    have hfr : extractBits P (s - 64) = P / 2 ^ (s - 64) % 2 ^ 64 := rfl
    rw [hfr] at h
    obtain ⟨margin, hmargin⟩ : ∃ margin, margin = if l.truncated then 2 ^ 58 else 16 := ⟨_, rfl⟩
    have hnear := product_near hr hw hk (by positivity) hlo hP (by omega) hlt hmargin
    rw [← hmargin] at h
    split at h
    · cases h
    · rename_i hends
      split at h
      · cases h
      · rename_i hmiddle
        have hle : margin < 2 ^ 59 := by
          rw [hmargin]
          split <;> decide
        obtain ⟨htop, hy1, hy2, hy3, hy4⟩ := margins (by omega) hlt hnear (by omega) (by omega)
        have hmant : extractBits P s % 2 ^ 53 = P / 2 ^ s := by
          rw [extractBits, Nat.mod_eq_of_lt (htop.trans (by decide)), Nat.mod_eq_of_lt htop]
        rw [hmant, show e - 127 + (s : ℤ) = t - 1074 by omega] at h
        cases h
        rw [← div_mul_cancel₀ (x * 2 ^ (1074 : ℤ)) hw.ne']
        generalize x * 2 ^ (1074 : ℤ) / 2 ^ (e + 947) = y at *
        generalize (2 : ℚ) ^ (e + 947) = w at *
        refine rounds_assemble _ hbits htop ?_ ?_ (fun hup => .inl ?_) fun hdown => .inl ?_
        · rw [← hscale, ← mul_assoc]
          exact mul_le_mul_of_nonneg_right hy1 hw.le
        · rw [← hscale, ← mul_assoc]
          exact mul_lt_mul_of_pos_right hy2 hw
        · rw [← hscale, ← mul_assoc, ← mul_assoc]
          exact mul_lt_mul_of_pos_right (hy4 (by omega)) hw
        · rw [← hscale, ← mul_assoc, ← mul_assoc]
          exact mul_lt_mul_of_pos_right (hy3 (by omega)) hw

theorem cast_units_infinityBits : (units infinityBits : ℚ) = 2 ^ (2098 : ℤ) := by
  obtain ⟨e, he, hunits⟩ := units_infinityBits
  rw [hunits, Nat.cast_mul, Nat.cast_pow, Nat.cast_pow, Nat.cast_ofNat, ← pow_add, ← zpow_natCast]
  clear hunits
  congr 1
  omega

theorem large_power (h : 308 < q) : (2 : ℚ) ^ (1025 : ℤ) ≤ 10 ^ q := by
  have hnat : ∃ i j, i = 1025 ∧ j = 309 ∧ 2 ^ i ≤ 10 ^ j := ⟨_, _, rfl, rfl, by decide⟩
  obtain ⟨i, j, hi, hj, hle⟩ := hnat
  have hle' : (2 : ℚ) ^ i ≤ 10 ^ j := by exact_mod_cast hle
  rw [show (1025 : ℤ) = (i : ℕ) by omega, zpow_natCast]
  refine hle'.trans ?_
  rw [← zpow_natCast]
  exact zpow_le_zpow_right₀ (by norm_num) (by omega)

theorem small_power (h : q < -348) : (10 : ℚ) ^ q ≤ 2 ^ (-1141 : ℤ) := by
  have hnat : ∃ i j, i = 1141 ∧ j = 349 ∧ 2 ^ i ≤ 10 ^ j := ⟨_, _, rfl, rfl, by decide⟩
  obtain ⟨i, j, hi, hj, hle⟩ := hnat
  have hle' : (2 : ℚ) ^ i ≤ 10 ^ j := by exact_mod_cast hle
  rw [show (-1141 : ℤ) = -(i : ℕ) by omega, zpow_neg, zpow_natCast]
  refine le_trans ?_ (inv_anti₀ (by positivity) hle')
  rw [← zpow_natCast, ← zpow_neg]
  exact zpow_le_zpow_right₀ (by norm_num) (by omega)

theorem tableToDouble_isNearest {p : ℕ} (hr : l.Reads x) (h : tableToDouble l = some p) :
    IsNearest p (x * 2 ^ (1074 : ℤ)) := by
  obtain ⟨hle, hge⟩ := hr.le
  have hk : (0 : ℚ) < 2 ^ (1074 : ℤ) := by positivity
  unfold tableToDouble at h
  split at h
  · rename_i h0
    cases h
    rw [h0, Nat.cast_zero, zero_mul, mul_zero] at hle
    have hneg := mul_nonpos_of_nonpos_of_nonneg hle hk.le
    generalize x * 2 ^ (1074 : ℤ) = z at *
    exact rounds_zero (by linarith)
  · rename_i h0
    have hσ : (1 : ℚ) ≤ l.significand := by exact_mod_cast Nat.pos_of_ne_zero h0
    have hten0 : (0 : ℚ) < 10 ^ l.exponent := by positivity
    split at h
    · rename_i hmax
      cases h
      refine rounds_infinity ?_
      rw [cast_units_infinityBits, show (2098 : ℤ) = 1024 + 1074 from rfl, zpow_add₀ (by norm_num)]
      refine mul_le_mul_of_nonneg_right ?_ hk.le
      have hten := large_power hmax
      rw [show (1025 : ℤ) = 1024 + 1 from rfl, zpow_add_one₀ (by norm_num)] at hten
      have := mul_le_mul_of_nonneg_right hσ hten0.le
      linarith
    · split at h
      · rename_i hmin
        cases h
        have hσ' : (l.significand : ℚ) ≤ 2 ^ 64 := by exact_mod_cast hr.lt.le
        have hx : x ≤ 2 * (2 ^ 64 * 2 ^ (-1141 : ℤ)) :=
          hle.trans (mul_le_mul_of_nonneg_left (mul_le_mul hσ' (small_power hmin) hten0.le (by norm_num)) (by norm_num))
        refine rounds_zero ?_
        have hscale : (2 : ℚ) * (2 * (2 ^ 64 * 2 ^ (-1141 : ℤ)) * 2 ^ (1074 : ℤ)) = 1 / 2 := by
          rw [mul_assoc, mul_assoc, ← zpow_add₀ (by norm_num)]
          norm_num
        have hlast := mul_le_mul_of_nonneg_left (mul_le_mul_of_nonneg_right hx hk.le) (show (0 : ℚ) ≤ 2 by norm_num)
        rw [hscale] at hlast
        exact hlast.trans_lt (by norm_num)
      · rename_i hmin hmax
        obtain ⟨i, hi⟩ := Int.eq_ofNat_of_zero_le (show 0 ≤ l.exponent - pow10Min by omega)
        rw [hi, Int.toNat_natCast] at h
        have hlen : i < pow10MantissaHi.length := by
          rw [show pow10MantissaHi.length = 657 by decide]
          unfold pow10Min pow10Max at *
          omega
        have hok := entryOk_getD entriesOk_table hlen
        rw [show pow10Min + (i : ℤ) = l.exponent by omega] at hok
        exact roundProduct_isNearest hr (Nat.pos_of_ne_zero h0) hok h

end NeForce.Float64
