import Mathlib.Data.Nat.Log
import NeForce.DoubleKept

/-! # Which literals are rounded correctly

Where the table answers, the pattern is that of the double nearest to the value as it is read, with an exponent of at most six
digits.  Where it does not, only the first 400 digits count and whether there is more: the pattern is the nearest one unless a
middle between two doubles is above these digits and not above the value. -/

namespace NeForce.Float64

set_option maxRecDepth 8000

variable {p n N : ℕ} {x z : ℚ} {more : Bool} {L : Literal}

/-! ### Middles -/

/-- The value, or a bit more, goes to `n` or below and not to `n + 1`. -/
def BelowMiddle (n : ℕ) (more : Bool) (z : ℚ) : Prop :=
  2 * z < units n + units (n + 1) ∨ 2 * z = units n + units (n + 1) ∧ n % 2 = 0 ∧ more = false

theorem units_lt_units {m n : ℕ} (h : m < n) : units m < units n := by
  induction n with
  | zero => exact absurd h (Nat.not_lt_zero m)
  | succ n ih =>
      rcases Nat.lt_succ_iff_lt_or_eq.mp h with h | rfl
      · exact (ih h).trans (units_lt n)
      · exact units_lt m

theorem middle_lt {m n : ℕ} (h : m < n) : (units m + units (m + 1) : ℚ) < units n + units (n + 1) := by
  have h1 := units_lt_units h
  have h2 := units_lt_units (Nat.succ_lt_succ h)
  exact_mod_cast Nat.add_lt_add h1 h2

theorem Rounds.belowMiddle_iff (h : Rounds more p z) (hn : n < infinityBits) : BelowMiddle n more z ↔ p ≤ n := by
  constructor
  · intro hb
    by_contra hlt
    obtain ⟨k, rfl⟩ : ∃ k, p = k + 1 := ⟨p - 1, by omega⟩
    have hlower := h.lower
    rw [Nat.add_sub_cancel] at hlower
    have hlower := hlower.resolve_left (Nat.succ_ne_zero k)
    rcases Nat.lt_or_eq_of_le (show n ≤ k by omega) with hnk | rfl
    · have hmid := middle_lt hnk
      rcases hb with hb | ⟨hb, -⟩ <;> rcases hlower with hl | ⟨hl, -⟩ <;> linarith
    · rcases hb with hb | ⟨hb, heven, hmore⟩ <;> rcases hlower with hl | ⟨hl, hor⟩
      · linarith
      · linarith
      · linarith
      · rcases hor with hor | hor
        · omega
        · exact absurd (hor.symm.trans hmore) (by decide)
  · intro hle
    have hupper := h.upper.resolve_left (by omega)
    rcases Nat.lt_or_eq_of_le hle with hlt | rfl
    · have hmid := middle_lt hlt
      rcases hupper with hu | ⟨hu, -⟩ <;> exact .inl (by linarith)
    · exact hupper

/-- A pattern is nearest to another value exactly if no middle is between the two. -/
theorem Rounds.isNearest_iff (h : Rounds more p z) :
    IsNearest p x ↔ ∀ n < infinityBits, BelowMiddle n more z ↔ BelowMiddle n false x := by
  constructor
  · intro hx n hn
    rw [h.belowMiddle_iff hn, hx.belowMiddle_iff hn]
  · intro hsame
    refine ⟨h.le, ?_, ?_⟩
    · rcases Nat.eq_zero_or_pos p with h0 | hpos
      · exact .inl h0
      · have hlt : p - 1 < infinityBits := by
          have := h.le
          omega
        have hnot : ¬BelowMiddle (p - 1) false x := by
          rw [← hsame _ hlt, h.belowMiddle_iff hlt]
          omega
        rw [BelowMiddle, Nat.sub_add_cancel hpos, not_or] at hnot
        rcases lt_or_eq_of_le (not_lt.mp hnot.1) with hlt | heq
        · exact .inr (.inl hlt)
        · refine .inr (.inr ⟨heq, .inl ?_⟩)
          by_contra hodd
          exact hnot.2 ⟨heq.symm, by omega, rfl⟩
    · rcases Nat.lt_or_eq_of_le h.le with hlt | heq
      · exact .inr ((hsame p hlt).mp ((h.belowMiddle_iff hlt).mpr le_rfl))
      · exact .inl heq

/-! ### Literals -/

namespace Literal

/-- The number of all digits, without the point. -/
def number (L : Literal) : ℕ := digitsValue L.digits

/-- The exponent of the last digit as it is read. -/
def scale (L : Literal) : ℤ := L.exponentRead - L.fraction.length

/-- How many digits are behind the first 400, from the first one that is not 0. -/
def cut (L : Literal) : ℕ := Nat.log 10 L.number + 1 - bigDigits

/-- The table is used for the scanned literal. -/
def tableAnswers (L : Literal) : Bool := (scanDecimal L.text).any fun r => (tableToDouble r.2).isSome

/-- The value as it is read, and whether there is more. -/
def asRead (L : Literal) : Bool × ℚ :=
  if L.tableAnswers then (false, L.number * 10 ^ L.scale)
  else (L.number % 10 ^ L.cut ≠ 0, (L.number - L.number % 10 ^ L.cut : ℕ) * 10 ^ L.scale)

def small (L : Literal) : Kept := L.digits.foldl (fun s (d : Fin 10) => s.step d) {}

def large (L : Literal) : KeptBig := L.digits.foldl (fun s (d : Fin 10) => s.step d) {}

theorem small_holds (L : Literal) : L.small.Holds L.number :=
  Kept.Holds.foldl ⟨by decide, fun _ => rfl, fun _ => .inl rfl, fun h => nomatch h⟩

theorem large_holds (L : Literal) : L.large.Holds L.number :=
  KeptBig.Holds.foldl ⟨by decide, by decide, fun _ => rfl, rfl, by decide, (fun h => nomatch h), fun _ => ⟨rfl, rfl⟩⟩

theorem kept_eq (L : Literal) : L.kept = L.small.literal (-L.fraction.length) := by
  unfold kept small digits
  rw [List.foldl_append, show ({} : DecimalLiteral) = ({} : Kept).literal 0 from rfl, Kept.foldl_wholeDigit,
    Kept.foldl_fractionDigit, zero_sub]

theorem keptBig_eq (L : Literal) : L.keptBig = some (L.large.literal (-L.fraction.length)) := by
  have h : ({} : KeptBig).Holds 0 :=
    ⟨by decide, by decide, fun _ => rfl, rfl, by decide, (fun h => nomatch h), fun _ => ⟨rfl, rfl⟩⟩
  unfold keptBig large digits
  rw [List.foldl_append, show ({} : BigLiteral) = ({} : KeptBig).literal 0 from rfl, h.foldl_wholeDigit,
    h.foldl.foldl_fractionDigit, zero_sub]

end Literal

theorem exponentRead_lt (L : Literal) : |L.exponentRead| < 10 ^ 6 := by
  have h : ∀ (ds : List (Fin 10)) (n : ℕ), n < 10 ^ 6 → ds.foldl (fun n (d : Fin 10) => exponentDigit n d) n < 10 ^ 6 := by
    intro ds
    induction ds with
    | nil => exact fun n hn => hn
    | cons d ds ih =>
        intro n hn
        refine ih (exponentDigit n d) ?_
        have hd := d.isLt
        unfold exponentDigit exponentLimit
        split <;> omega
  unfold Literal.exponentRead
  cases L.exponent with
  | none => decide
  | some e =>
      have hlt := h e.digits 0 (by decide)
      simp only [Sign.apply]
      split
      · rw [abs_neg, Nat.abs_cast]
        exact_mod_cast hlt
      · rw [Nat.abs_cast]
        exact_mod_cast hlt

theorem Kept.dropped_le (s : Kept) (ds : List (Fin 10)) :
    (ds.foldl (fun s (d : Fin 10) => s.step d) s).dropped ≤ s.dropped + ds.length := by
  induction ds generalizing s with
  | nil => exact le_rfl
  | cons d ds ih =>
      have hstep : (s.step d).dropped ≤ s.dropped + 1 := by
        unfold Kept.step
        split <;> simp
      have := ih (s.step d)
      rw [List.foldl_cons, List.length_cons]
      omega

theorem KeptBig.dropped_le (s : KeptBig) (ds : List (Fin 10)) :
    (ds.foldl (fun s (d : Fin 10) => s.step d) s).dropped ≤ s.dropped + ds.length := by
  induction ds generalizing s with
  | nil => exact le_rfl
  | cons d ds ih =>
      have hstep : (s.step d).dropped ≤ s.dropped + 1 := by
        unfold KeptBig.step KeptBig.push
        split
        · split <;> simp
        · split <;> simp
      have := ih (s.step d)
      rw [List.foldl_cons, List.length_cons]
      omega

/-- No `int` wraps around: an exponent is between the lengths. -/
theorem wrapInt_exponent {k : ℕ} (hsize : L.digits.length + 10 ^ 6 ≤ 2 ^ 31) (hk : k ≤ L.digits.length) :
    wrapInt (wrapInt (k + -(L.fraction.length : ℤ)) + L.exponentRead) = k + L.scale := by
  have hread := abs_lt.mp (exponentRead_lt L)
  have hlen : L.fraction.length ≤ L.digits.length := by
    unfold Literal.digits
    rw [List.length_append]
    omega
  unfold Literal.scale
  rw [wrapInt_add, wrapInt_eq (by omega) (by omega)]
  ring

theorem scanDecimal_literal (hsize : L.digits.length + 10 ^ 6 ≤ 2 ^ 31) : scanDecimal L.text =
    some (decide (L.sign = .minus), ⟨L.small.significand, L.small.dropped + L.scale, L.small.truncated⟩) := by
  have hdrop : L.small.dropped ≤ L.digits.length := (Kept.dropped_le {} L.digits).trans (Nat.zero_add _).le
  have := wrapInt_exponent hsize hdrop
  rw [scanDecimal_eq, L.kept_eq]
  simp only [Kept.literal]
  rw [← this]

theorem scanBig_literal (hsize : L.digits.length + 10 ^ 6 ≤ 2 ^ 31) : scanBig L.text =
    some { L.large.literal (-L.fraction.length) with exponent := L.large.dropped + L.scale } := by
  have hdrop : L.large.dropped ≤ L.digits.length := (KeptBig.dropped_le {} L.digits).trans (Nat.zero_add _).le
  have := wrapInt_exponent hsize hdrop
  rw [scanBig_eq, L.keptBig_eq, Option.map_some]
  simp only [KeptBig.literal]
  rw [← this]

theorem tableToDouble_eq_none {l : DecimalLiteral} (h : tableToDouble l = none) :
    l.significand ≠ 0 ∧ -348 ≤ l.exponent ∧ l.exponent ≤ 308 := by
  unfold tableToDouble pow10Max pow10Min at h
  split at h
  · cases h
  · rename_i h0
    split at h
    · cases h
    · split at h
      · cases h
      · exact ⟨h0, by omega, by omega⟩

theorem KeptBig.Holds.dropped_eq {s : KeptBig} (h : s.Holds N) (hpos : 0 < N) :
    0 < s.mantissa ∧ s.dropped = Nat.log 10 N + 1 - bigDigits := by
  have heq := h.eq
  have hdig := h.digits_le
  have hmod : N % 10 ^ s.dropped < 10 ^ s.dropped := Nat.mod_lt _ (Nat.pow_pos (by decide))
  cases hs : s.started with
  | false =>
      obtain ⟨hm, hd⟩ := h.idle hs
      have h0 := h.room (by rw [hd]; decide)
      rw [hm, h0, Nat.pow_zero, Nat.mod_one] at heq
      omega
  | true =>
      obtain ⟨hle, hd⟩ := h.leading hs
      have hm : 0 < s.mantissa := (Nat.pow_pos (by decide)).trans_le hle
      have hlog : Nat.log 10 N = s.digits - 1 + s.dropped := by
        refine Nat.log_eq_of_pow_le_of_lt_pow ?_ ?_
        · rw [Nat.pow_add]
          exact (Nat.mul_le_mul_right _ hle).trans (by omega)
        · have hlt := Nat.mul_le_mul_right (10 ^ s.dropped) h.lt
          rw [← Nat.pow_add, Nat.succ_mul] at hlt
          rw [show s.digits - 1 + s.dropped + 1 = s.digits + s.dropped by omega]
          omega
      refine ⟨hm, ?_⟩
      rcases Nat.lt_or_eq_of_le hdig with hlt | heq
      · have h0 := h.room hlt
        omega
      · omega

/-- In the range of the table the large numbers are in their range. -/
theorem Literal.large_range {e : ℤ} (hreads : DecimalLiteral.Reads ⟨L.small.significand, e, L.small.truncated⟩
    (L.number * 10 ^ L.scale)) (hσ : L.small.significand ≠ 0) (hlo : -348 ≤ e) (hhi : e ≤ 308) :
    -750 ≤ L.large.dropped + L.scale ∧
      (L.large.mantissa * 10 ^ (L.large.dropped + L.scale) : ℚ) < 10 ^ (328 : ℤ) := by
  obtain ⟨hle, hge⟩ := hreads.le
  have hlt := hreads.lt
  simp only at hle hge hlt
  have hA : (0 : ℚ) < 10 ^ L.scale := by positivity
  have hexp : (10 : ℚ) ^ ((L.large.dropped : ℤ) + L.scale) = 10 ^ L.large.dropped * 10 ^ L.scale := by
    rw [zpow_add₀ (by norm_num), zpow_natCast]
  have hσ1 : (1 : ℚ) ≤ L.small.significand := by exact_mod_cast Nat.pos_of_ne_zero hσ
  have hσ2 : (L.small.significand : ℚ) ≤ 2 ^ 64 := by exact_mod_cast hlt.le
  have he0 : (0 : ℚ) < 10 ^ e := by positivity
  have heq := L.large_holds.eq
  have hmod : L.number % 10 ^ L.large.dropped < 10 ^ L.large.dropped := Nat.mod_lt _ (Nat.pow_pos (by decide))
  constructor
  · have hm : L.large.mantissa + 1 ≤ 10 ^ bigDigits :=
      L.large_holds.lt.trans_le (Nat.pow_le_pow_right (by decide) L.large_holds.digits_le)
    have hN : L.number < 10 ^ bigDigits * 10 ^ L.large.dropped := by
      have := Nat.mul_le_mul_right (10 ^ L.large.dropped) hm
      rw [Nat.add_mul] at this
      omega
    have hN' : (L.number : ℚ) < 10 ^ bigDigits * 10 ^ L.large.dropped := by exact_mod_cast hN
    have hchain : (10 : ℚ) ^ (-348 : ℤ) < 10 ^ (401 + (L.large.dropped + L.scale)) := by
      calc (10 : ℚ) ^ (-348 : ℤ) ≤ 10 ^ e := zpow_le_zpow_right₀ (by norm_num) hlo
        _ ≤ L.small.significand * 10 ^ e := le_mul_of_one_le_left he0.le hσ1
        _ ≤ 2 * (L.number * 10 ^ L.scale) := hge
        _ < 2 * (10 ^ bigDigits * 10 ^ L.large.dropped * 10 ^ L.scale) := by
            have := mul_lt_mul_of_pos_right hN' hA
            linarith
        _ ≤ 10 * (10 ^ bigDigits * 10 ^ L.large.dropped * 10 ^ L.scale) := by
            have : (0 : ℚ) ≤ 10 ^ bigDigits * 10 ^ L.large.dropped * 10 ^ L.scale := by positivity
            linarith
        _ = 10 ^ (401 + (L.large.dropped + L.scale)) := by
            rw [mul_assoc (10 ^ bigDigits : ℚ), ← hexp, ← mul_assoc, ← pow_succ', zpow_add₀ (by norm_num) 401,
              ← zpow_natCast]
            rfl
    have := (zpow_lt_zpow_iff_right₀ (by norm_num)).mp hchain
    omega
  · have hT : (L.large.mantissa * 10 ^ L.large.dropped : ℚ) ≤ L.number := by
      have : L.large.mantissa * 10 ^ L.large.dropped ≤ L.number := by omega
      exact_mod_cast this
    calc (L.large.mantissa * 10 ^ ((L.large.dropped : ℤ) + L.scale) : ℚ)
        = L.large.mantissa * 10 ^ L.large.dropped * 10 ^ L.scale := by rw [hexp, mul_assoc]
      _ ≤ L.number * 10 ^ L.scale := mul_le_mul_of_nonneg_right hT hA.le
      _ ≤ 2 * (L.small.significand * 10 ^ e) := hle
      _ ≤ 2 * (2 ^ 64 * 10 ^ e) := by
          have := mul_le_mul_of_nonneg_right hσ2 he0.le
          linarith
      _ < 10 ^ (20 : ℤ) * 10 ^ e := by
          have : (2 : ℚ) * 2 ^ 64 < 10 ^ (20 : ℤ) := by norm_num
          rw [← mul_assoc]
          exact mul_lt_mul_of_pos_right this he0
      _ ≤ 10 ^ (328 : ℤ) := by
          rw [← zpow_add₀ (by norm_num)]
          exact zpow_le_zpow_right₀ (by norm_num) (by omega)

theorem Literal.large_fits (hlt : (L.large.mantissa * 10 ^ (L.large.dropped + L.scale) : ℚ) < 10 ^ (328 : ℤ))
    (h0 : 0 ≤ L.large.dropped + L.scale) :
    (L.large.mantissa * 5 ^ (L.large.dropped + L.scale).toNat).size ≤ bigBits := by
  obtain ⟨k, hk⟩ := Int.eq_ofNat_of_zero_le h0
  obtain ⟨i, hi, hle⟩ := ten_power_fits
  have hnat : (L.large.mantissa : ℚ) * 10 ^ k < 10 ^ (i + 1) := by
    have h328 : (10 : ℚ) ^ (328 : ℤ) ≤ 10 ^ (i + 1) := by
      rw [← zpow_natCast]
      refine zpow_le_zpow_right₀ (by norm_num) ?_
      rw [hi]
      decide
    rw [hk, zpow_natCast] at hlt
    exact hlt.trans_le h328
  have hnat' : L.large.mantissa * 10 ^ k < 10 ^ (i + 1) := by exact_mod_cast hnat
  rw [hk, Int.toNat_natCast]
  refine Nat.size_le.mpr (lt_of_le_of_lt ?_ (hnat'.trans_le hle))
  exact Nat.mul_le_mul_left _ (Nat.pow_le_pow_left (by decide) k)

theorem parseDoubleExact_rounds (hsize : L.digits.length + 10 ^ 6 ≤ 2 ^ 31) :
    ∃ p, parseDoubleExact L.text = some (fromBits p (decide (L.sign = .minus))) ∧
      Rounds L.asRead.1 p (L.asRead.2 * 2 ^ (1074 : ℤ)) := by
  have hdecimal := scanDecimal_literal hsize
  have hreads := L.small_holds.reads (e := L.scale)
  unfold parseDoubleExact Literal.asRead Literal.tableAnswers
  rw [hdecimal]
  simp only [Option.bind_eq_bind, Option.bind_some, Option.any_some]
  obtain ⟨r, htable⟩ : ∃ r, tableToDouble ⟨L.small.significand, L.small.dropped + L.scale, L.small.truncated⟩ = r :=
    ⟨_, rfl⟩
  cases r with
  | some p =>
      simp only [htable, Option.isSome_some, if_true]
      exact ⟨p, rfl, tableToDouble_isNearest hreads htable⟩
  | none =>
      simp only [htable, Option.isSome_none, Bool.false_eq_true, if_false]
      obtain ⟨hσ, hlo, hhi⟩ := tableToDouble_eq_none htable
      simp only at hσ hlo hhi
      obtain ⟨hmin, hmax⟩ := Literal.large_range hreads hσ hlo hhi
      have hpos : 0 < L.number := by
        by_contra h0
        have hge := hreads.le.2
        rw [show L.number = 0 by omega, Nat.cast_zero, zero_mul, mul_zero] at hge
        have hσ1 : (0 : ℚ) < L.small.significand := by exact_mod_cast Nat.pos_of_ne_zero hσ
        exact absurd hge (not_le.mpr (mul_pos hσ1 (by positivity)))
      obtain ⟨hT, hcut⟩ := L.large_holds.dropped_eq hpos
      have hcut' : L.large.dropped = L.cut := hcut
      have hvalue : (L.large.mantissa * 10 ^ (L.large.dropped + L.scale) : ℚ) =
          (L.number - L.number % 10 ^ L.cut : ℕ) * 10 ^ L.scale := by
        have heq := L.large_holds.eq
        rw [hcut'] at heq
        rw [show L.number - L.number % 10 ^ L.cut = L.large.mantissa * 10 ^ L.cut by omega, hcut',
          zpow_add₀ (by norm_num), zpow_natCast]
        push_cast
        ring
      have hfits := L.large_holds.fits (d := 0) (by decide)
      obtain ⟨p, hp, hr⟩ := bigToDouble_rounds
        (l := { L.large.literal (-L.fraction.length) with exponent := L.large.dropped + L.scale }) hT
        (Nat.size_le.mpr (show L.large.mantissa < 2 ^ bigBits by omega)) hmin fun h0 => Literal.large_fits hmax h0
      rw [scanBig_literal hsize]
      simp only [Option.bind_some, hp, Option.map_some]
      refine ⟨p, rfl, ?_⟩
      have hmore : L.large.truncated = decide (L.number % 10 ^ L.cut ≠ 0) := by
        rw [Bool.eq_iff_iff, decide_eq_true_eq, L.large_holds.truncated_iff, hcut']
      change Rounds L.large.truncated p (L.large.mantissa * 10 ^ (L.large.dropped + L.scale) * 2 ^ (1074 : ℤ)) at hr
      rw [hvalue, hmore] at hr
      exact hr

theorem fromBits_inj {q : ℕ} {negative : Bool} (h : fromBits p negative = fromBits q negative) : p = q := by
  unfold fromBits at h
  split at h <;> omega

theorem nearest_iff_of_parse (hsize : L.digits.length + 10 ^ 6 ≤ 2 ^ 31) :
    (∃ p, parseDoubleExact L.text = some (fromBits p (decide (L.sign = .minus))) ∧ IsNearest p x) ↔
      ∀ n < infinityBits, BelowMiddle n L.asRead.1 (L.asRead.2 * 2 ^ (1074 : ℤ)) ↔ BelowMiddle n false x := by
  obtain ⟨p, hparse, hrounds⟩ := parseDoubleExact_rounds hsize
  rw [← hrounds.isNearest_iff]
  refine ⟨?_, fun h => ⟨p, hparse, h⟩⟩
  rintro ⟨q, hq, hnear⟩
  rw [hparse] at hq
  rwa [fromBits_inj (Option.some.inj hq)]

/-- The pattern is that of the nearest double exactly if no middle separates the value from what is read of it. -/
theorem parse_double_exact_iff (L : Literal) (hsize : L.digits.length + 10 ^ 6 ≤ 2 ^ 31) :
    (∃ p, parseDoubleExact L.text = some (fromBits p (decide (L.sign = .minus))) ∧
      IsNearest p (L.value * 2 ^ (1074 : ℤ))) ↔
      ∀ n < infinityBits,
        BelowMiddle n L.asRead.1 (L.asRead.2 * 2 ^ (1074 : ℤ)) ↔ BelowMiddle n false (L.value * 2 ^ (1074 : ℤ)) :=
  nearest_iff_of_parse hsize

/-- Nothing separates a value from itself: `0.1`. -/
theorem parse_double_exact_tenth : ∃ p, parseDoubleExact [0x30, 0x2E, 0x31] = some (fromBits p false) ∧
    IsNearest p (((1 : ℕ) : ℚ) * 10 ^ ((0 : ℤ) - (1 : ℕ)) * 2 ^ (1074 : ℤ)) := by
  refine (parse_double_exact_iff ⟨.none, [0], [1], none, by decide⟩ (by decide)).mpr fun n _ => ?_
  have hread : (⟨.none, [0], [1], none, by decide⟩ : Literal).asRead =
      (false, ((1 : ℕ) : ℚ) * 10 ^ ((0 : ℤ) - (1 : ℕ))) :=
    if_pos (by decide)
  rw [hread]
  exact Iff.rfl

theorem asRead_of_short (hread : L.exponentRead = L.exponentValue) (hshort : L.number < 10 ^ bigDigits) :
    L.asRead = (false, L.value) := by
  have hcut : L.cut = 0 := by
    unfold Literal.cut
    have := Nat.log_lt_of_lt_pow' (by decide) hshort
    omega
  unfold Literal.asRead Literal.value Literal.scale
  rw [hcut, hread]
  split
  · rfl
  · simp only [Nat.pow_zero, Nat.mod_one, Nat.sub_zero]
    rfl

/-- A literal of at most 400 digits with a moderate exponent is rounded correctly. -/
theorem nearest_of_short (hsize : L.digits.length + 10 ^ 6 ≤ 2 ^ 31) (hread : L.exponentRead = L.exponentValue)
    (hshort : L.number < 10 ^ bigDigits) :
    ∃ p, parseDoubleExact L.text = some (fromBits p (decide (L.sign = .minus))) ∧ IsNearest p (L.value * 2 ^ (1074 : ℤ)) := by
  refine (nearest_iff_of_parse hsize).mpr fun n _ => ?_
  rw [asRead_of_short hread hshort]

theorem nearest_of_short_sample : ∃ p, parseDoubleExact [0x2D, 0x32, 0x2E, 0x35, 0x65, 0x33] =
    some (fromBits p true) ∧ IsNearest p ((25 : ℕ) * 10 ^ (2 : ℤ) * 2 ^ (1074 : ℤ)) :=
  nearest_of_short (L := ⟨.minus, [2], [5], some ⟨false, .none, [3], by decide⟩, by decide⟩) (by decide) (by decide)
    (by decide)

/-! ### A literal of 401 digits -/

def lowDigits (k n : ℕ) : List (Fin 10) := (List.range k).reverse.map fun i => Fin.ofNat 10 (n / 10 ^ i)

/-- The first 400 digits of the middle `3 * 2 ^ -1075`, and a 9 instead of the others. -/
def awkwardNumber : ℕ := 3 * 5 ^ 1075 / 10 ^ 352 * 10 + 9

def awkward : Literal :=
  ⟨.none, lowDigits 401 awkwardNumber, [], some ⟨false, .minus, [7, 2, 4], by decide⟩, by decide +kernel⟩

theorem number_awkward : awkward.number = awkwardNumber := by decide

theorem tableAnswers_awkward : awkward.tableAnswers = false := by
  have hlen : awkward.digits.length + 10 ^ 6 ≤ 2 ^ 31 := by decide
  have hsig : awkward.small.significand = 3 * 5 ^ 1075 / 10 ^ 733 := by decide +kernel
  have hdropped : awkward.small.dropped = 382 := by decide +kernel
  have htruncated : awkward.small.truncated = true := by decide +kernel
  have htable : tableToDouble ⟨3 * 5 ^ 1075 / 10 ^ 733, (382 : ℕ) + awkward.scale, true⟩ = none := by decide
  unfold Literal.tableAnswers
  rw [scanDecimal_literal hlen, Option.any_some, hsig, hdropped, htruncated, htable]
  rfl

theorem asRead_awkward : awkward.asRead = (true, ((awkwardNumber - 9 : ℕ) : ℚ) * 10 ^ awkward.scale) := by
  have hcut : awkward.cut = 1 := by
    unfold Literal.cut
    rw [number_awkward]
    decide
  have hmod : awkwardNumber % 10 ^ 1 = 9 := by decide
  unfold Literal.asRead
  rw [tableAnswers_awkward, hcut, number_awkward, hmod, if_neg Bool.false_ne_true]
  rfl

theorem double_scaled (a i j : ℕ) : 2 * ((a : ℚ) * 10 ^ (-(i : ℤ)) * 2 ^ (j : ℤ)) = (a * 2 ^ (j + 1) : ℕ) / (10 ^ i : ℕ) := by
  rw [zpow_neg, zpow_natCast, zpow_natCast]
  push_cast
  ring

/-- The value is above the middle of the first two doubles, but its first 400 digits are below. -/
theorem awkward_not_nearest : ¬∃ p, parseDoubleExact awkward.text = some (fromBits p (decide (awkward.sign = .minus))) ∧
    IsNearest p (awkward.value * 2 ^ (1074 : ℤ)) := by
  have hlen : awkward.digits.length + 10 ^ 6 ≤ 2 ^ 31 := by decide
  have hscale : awkward.scale = -((724 : ℕ) : ℤ) := by decide
  have hvalue : awkward.value = awkwardNumber * 10 ^ (-((724 : ℕ) : ℤ)) := by
    rw [← number_awkward]
    rfl
  have hunits : (units 1 + units (1 + 1) : ℚ) = 3 := by
    rw [show units 1 = 1 from rfl, show units (1 + 1) = 2 from rfl]
    norm_num
  have hpow : ((10 ^ 724 : ℕ) : ℚ) > 0 := by exact_mod_cast Nat.pow_pos (show 0 < 10 by decide)
  intro h
  have hside := (nearest_iff_of_parse hlen).mp h 1 (by decide)
  rw [asRead_awkward, hscale, hvalue] at hside
  have hbelow : BelowMiddle 1 true (((awkwardNumber - 9 : ℕ) : ℚ) * 10 ^ (-((724 : ℕ) : ℤ)) * 2 ^ ((1074 : ℕ) : ℤ)) := by
    left
    rw [hunits, double_scaled, div_lt_iff₀ hpow]
    have : (awkwardNumber - 9) * 2 ^ (1074 + 1) < 3 * 10 ^ 724 := by decide
    exact_mod_cast this
  have habove : (3 : ℚ) < 2 * ((awkwardNumber : ℚ) * 10 ^ (-((724 : ℕ) : ℤ)) * 2 ^ ((1074 : ℕ) : ℤ)) := by
    rw [double_scaled, lt_div_iff₀ hpow]
    have : 3 * 10 ^ 724 < awkwardNumber * 2 ^ (1074 + 1) := by decide
    exact_mod_cast this
  rcases hside.mp hbelow with h | ⟨h, -⟩
  · rw [hunits] at h
    exact lt_asymm habove h
  · rw [hunits] at h
    exact habove.ne' h

end NeForce.Float64
