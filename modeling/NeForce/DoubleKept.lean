import NeForce.DoubleScan

/-! # What the scanners keep

Both scanners keep the first digits and count the ones they drop; a point moves the exponent and nothing else.  So a step is
one for the whole digits and the fraction, and the exponent is the number of dropped digits less the length of the
fraction. -/

namespace NeForce.Float64

variable {c : ℤ} {d N : ℕ} {ds : List (Fin 10)}

theorem wrapInt_add (a b : ℤ) : wrapInt (wrapInt a + b) = wrapInt (a + b) := Int.bmod_add_bmod

theorem wrapInt_sub (a b : ℤ) : wrapInt (wrapInt a - b) = wrapInt (a - b) := Int.bmod_sub_bmod

theorem wrapInt_eq {a : ℤ} (h : -(2 ^ 31) ≤ a) (h' : a < 2 ^ 31) : wrapInt a = a :=
  Int.bmod_eq_of_le (by norm_num; omega) (by norm_num; omega)

/-- The number before a digit is appended. -/
abbrev append (N d : ℕ) : ℕ := N * 10 + d

/-! ### The small scanner -/

structure Kept where
  significand : ℕ := 0
  dropped : ℕ := 0
  truncated : Bool := false

def Kept.step (s : Kept) (d : ℕ) : Kept :=
  if full s.significand d then { s with dropped := s.dropped + 1, truncated := s.truncated || d ≠ 0 }
  else { s with significand := s.significand * 10 + d }

def Kept.literal (s : Kept) (c : ℤ) : DecimalLiteral := ⟨s.significand, wrapInt (s.dropped + c), s.truncated⟩

theorem Kept.wholeDigit_literal (s : Kept) : (s.literal c).wholeDigit d = (s.step d).literal c := by
  unfold DecimalLiteral.wholeDigit Kept.step Kept.literal
  by_cases h : full s.significand d = true
  · simp only [if_pos h, wrapInt_add]
    congr 2
    push_cast
    ring
  · simp only [if_neg h]
    rfl

theorem Kept.fractionDigit_literal (s : Kept) : (s.literal c).fractionDigit d = (s.step d).literal (c - 1) := by
  unfold DecimalLiteral.fractionDigit Kept.step Kept.literal
  by_cases h : full s.significand d = true
  · simp only [if_pos h]
    congr 2
    push_cast
    ring
  · simp only [if_neg h, DecimalLiteral.push, wrapInt_sub]
    congr 2
    ring

theorem Kept.foldl_wholeDigit (s : Kept) : ds.foldl (fun l (d : Fin 10) => l.wholeDigit d) (s.literal c) =
    (ds.foldl (fun s (d : Fin 10) => s.step d) s).literal c := by
  induction ds generalizing s with
  | nil => rfl
  | cons d ds ih =>
      rw [List.foldl_cons, List.foldl_cons, Kept.wholeDigit_literal]
      exact ih _

theorem Kept.foldl_fractionDigit (s : Kept) : ds.foldl (fun l (d : Fin 10) => l.fractionDigit d) (s.literal c) =
    (ds.foldl (fun s (d : Fin 10) => s.step d) s).literal (c - ds.length) := by
  induction ds generalizing s c with
  | nil =>
      rw [List.length_nil, Nat.cast_zero, sub_zero]
      rfl
  | cons d ds ih =>
      rw [List.foldl_cons, List.foldl_cons, Kept.fractionDigit_literal, ih, List.length_cons]
      congr 1
      push_cast
      ring

/-- The digits that were kept, and how far they are from the number `N` of all digits.  A digit that has no room may be
followed by one that has: then the error is up to ten of the last digit instead of one. -/
structure Kept.Holds (s : Kept) (N : ℕ) : Prop where
  lt : s.significand < 2 ^ 64
  exact_of : s.truncated = false → N = s.significand * 10 ^ s.dropped
  dropped_of : s.truncated = false → s.dropped = 0 ∨ magnitudeLimit < s.significand
  near : s.truncated = true → ∃ c, 1 ≤ c ∧ c * magnitudeLimit ≤ s.significand ∧
    N + 1 ≤ (s.significand + c) * 10 ^ s.dropped ∧ s.significand * 10 ^ s.dropped ≤ N + (c - 1) * 10 ^ s.dropped ∧
    (s.significand = magnitudeLimit → c = 1)

theorem Kept.Holds.step {s : Kept} (h : s.Holds N) (hd : d < 10) : (s.step d).Holds (append N d) := by
  have hlimit : magnitudeLimit = 1844674407370955161 := rfl
  have hlast : magnitudeLast = 5 := rfl
  unfold Kept.step append
  by_cases hfull : full s.significand d = true
  · rw [if_pos hfull]
    have hfull' : magnitudeLimit < s.significand ∨ s.significand = magnitudeLimit ∧ magnitudeLast < d := by
      simpa [full] using hfull
    have hpow : 10 ^ (s.dropped + 1) = 10 ^ s.dropped * 10 := Nat.pow_succ _ _
    have hpos : 0 < 10 ^ s.dropped := Nat.pow_pos (by decide)
    refine ⟨h.lt, fun htr => ?_, fun htr => ?_, fun htr => ?_⟩
    · simp only [Bool.or_eq_false_iff, decide_eq_false_iff_not, not_not] at htr
      simp only
      rw [htr.2, h.exact_of htr.1, hpow]
      ring
    · simp only [Bool.or_eq_false_iff, decide_eq_false_iff_not, not_not] at htr
      exact .inr (hfull'.resolve_right fun h => by omega)
    · simp only
      rw [hpow]
      by_cases hbefore : s.truncated = true
      · obtain ⟨c, hc, hcl, hup, hlow, hone⟩ := h.near hbefore
        refine ⟨c, hc, hcl, ?_, ?_, hone⟩
        · have := Nat.mul_le_mul_right 10 hup
          rw [← Nat.mul_assoc]
          omega
        · have := Nat.mul_le_mul_right 10 hlow
          rw [Nat.add_mul] at this
          rw [← Nat.mul_assoc, ← Nat.mul_assoc]
          omega
      · have hN := h.exact_of (Bool.eq_false_iff.mpr hbefore)
        refine ⟨1, le_rfl, by omega, ?_, ?_, fun _ => rfl⟩
        · rw [Nat.add_mul, ← Nat.mul_assoc, ← hN]
          omega
        · rw [← Nat.mul_assoc, ← hN]
          omega
  · rw [if_neg hfull]
    have hfull' : ¬(magnitudeLimit < s.significand ∨ s.significand = magnitudeLimit ∧ magnitudeLast < d) := by
      simpa [full] using hfull
    refine ⟨?_, fun htr => ?_, fun htr => ?_, fun htr => ?_⟩
    · simp only
      omega
    · have h0 := (h.dropped_of htr).resolve_right fun hlt => hfull' (.inl hlt)
      have hN := h.exact_of htr
      simp only
      rw [h0, Nat.pow_zero, Nat.mul_one] at hN
      rw [h0, Nat.pow_zero, Nat.mul_one, hN]
    · exact .inl ((h.dropped_of htr).resolve_right fun hlt => hfull' (.inl hlt))
    · obtain ⟨c, hc, hcl, hup, hlow, hone⟩ := h.near htr
      have heq : s.significand = magnitudeLimit := by
        have := Nat.le_mul_of_pos_left magnitudeLimit hc
        omega
      rw [hone heq] at hup hlow
      have hpos : 0 < 10 ^ s.dropped := Nat.pow_pos (by decide)
      refine ⟨10, by decide, ?_, ?_, ?_, ?_⟩
      · simp only
        omega
      · simp only
        generalize 10 ^ s.dropped = u at *
        nlinarith
      · simp only
        have hd5 : d * 10 ^ s.dropped ≤ 9 * 10 ^ s.dropped := Nat.mul_le_mul_right _ (by omega)
        rw [Nat.sub_self, Nat.zero_mul, Nat.add_zero] at hlow
        generalize 10 ^ s.dropped = u at *
        rw [Nat.add_mul, Nat.mul_right_comm]
        omega
      · simp only
        omega

theorem Kept.Holds.foldl {s : Kept} (h : s.Holds N) : (ds.foldl (fun s (d : Fin 10) => s.step d) s).Holds
    (ds.foldl (fun n (d : Fin 10) => append n d) N) := by
  induction ds generalizing s N with
  | nil => exact h
  | cons d ds ih => exact ih (h.step d.isLt)

theorem Kept.Holds.reads {s : Kept} (h : s.Holds N) {e : ℤ} :
    DecimalLiteral.Reads ⟨s.significand, s.dropped + e, s.truncated⟩ (N * 10 ^ e) := by
  have hten : (0 : ℚ) < 10 ^ e := by positivity
  have hexp : (10 : ℚ) ^ ((s.dropped : ℤ) + e) = 10 ^ s.dropped * 10 ^ e := by
    rw [zpow_add₀ (by norm_num), zpow_natCast]
  have hexact : s.truncated = false → (N * 10 ^ e : ℚ) = s.significand * 10 ^ ((s.dropped : ℤ) + e) := by
    intro htr
    rw [hexp, ← mul_assoc]
    congr 1
    exact_mod_cast h.exact_of htr
  refine ⟨h.lt, hexact, ?_⟩
  by_cases htr : s.truncated = true
  · obtain ⟨c, hc, hcl, hup, hlow, -⟩ := h.near htr
    simp only
    rw [hexp, ← mul_assoc, ← sub_mul, abs_mul, abs_of_pos hten, mul_right_comm]
    refine mul_le_mul_of_nonneg_right ?_ hten.le
    have hup' : (N + 1 : ℚ) ≤ (s.significand + c) * 10 ^ s.dropped := by exact_mod_cast hup
    have hlow' : (s.significand * 10 ^ s.dropped : ℚ) ≤ N + (c - 1) * 10 ^ s.dropped := by
      rw [show ((c : ℚ) - 1) = ((c - 1 : ℕ) : ℚ) by rw [Nat.cast_sub hc, Nat.cast_one]]
      exact_mod_cast hlow
    have hcl' : (c * 2 ^ 60 : ℚ) ≤ s.significand := by
      have hlimit : 2 ^ 60 ≤ magnitudeLimit := by decide
      exact_mod_cast (Nat.mul_le_mul_left c hlimit).trans hcl
    have hpow : (0 : ℚ) < 10 ^ s.dropped := by positivity
    have habs : |(N : ℚ) - s.significand * 10 ^ s.dropped| ≤ c * 10 ^ s.dropped := by
      rw [abs_le]
      constructor <;> linarith
    have h1 := mul_le_mul_of_nonneg_right hcl' hpow.le
    have h2 := mul_le_mul_of_nonneg_right habs (show (0 : ℚ) ≤ 2 ^ 60 by norm_num)
    linarith
  · rw [hexact (Bool.eq_false_iff.mpr htr), sub_self, abs_zero, zero_mul]
    positivity

/-! ### The large scanner -/

structure KeptBig where
  mantissa : ℕ := 0
  dropped : ℕ := 0
  truncated : Bool := false
  digits : ℕ := 0
  started : Bool := false

def KeptBig.push (s : KeptBig) (d : ℕ) : KeptBig :=
  { s with mantissa := s.mantissa * 10 + d, digits := s.digits + 1, started := true }

def KeptBig.step (s : KeptBig) (d : ℕ) : KeptBig :=
  if !s.started then if d ≠ 0 then s.push d else s
  else if s.digits < bigDigits then s.push d
  else { s with dropped := s.dropped + 1, truncated := s.truncated || d ≠ 0 }

def KeptBig.literal (s : KeptBig) (c : ℤ) : BigLiteral :=
  ⟨s.mantissa, wrapInt (s.dropped + c), s.truncated, s.digits, s.started⟩

theorem KeptBig.push_literal {s : KeptBig} (h : s.mantissa * 10 + d < 2 ^ bigBits) :
    (s.literal c).push d = some ((s.push d).literal c) := by
  have hbig : big ((s.literal c).mantissa * 10 + d) = some (s.mantissa * 10 + d) := if_pos h
  unfold BigLiteral.push
  rw [hbig]
  rfl

theorem KeptBig.lower_literal (s : KeptBig) : (s.literal c).lower = s.literal (c - 1) := by
  unfold BigLiteral.lower KeptBig.literal
  simp only [wrapInt_sub]
  congr 2
  ring

theorem KeptBig.wholeDigit_literal {s : KeptBig} (h : s.mantissa * 10 + d < 2 ^ bigBits) :
    (s.literal c).wholeDigit d = some ((s.step d).literal c) := by
  unfold BigLiteral.wholeDigit KeptBig.step
  by_cases hs : s.started = true
  · have hlit : (!(s.literal c).started) = false := by simp [KeptBig.literal, hs]
    have hself : (!s.started) = false := by simp [hs]
    have hdigits : (s.literal c).digits = s.digits := rfl
    simp only [hlit, hself, hdigits, Bool.false_eq_true, if_false]
    by_cases hroom : s.digits < bigDigits
    · rw [if_pos hroom, if_pos hroom, KeptBig.push_literal h]
    · rw [if_neg hroom, if_neg hroom]
      simp only [KeptBig.literal, wrapInt_add]
      congr 3
      push_cast
      ring
  · have hlit : (!(s.literal c).started) = true := by simp [KeptBig.literal, hs]
    have hself : (!s.started) = true := by simp [hs]
    simp only [hlit, hself, if_true]
    by_cases hd : d ≠ 0
    · rw [if_pos hd, if_pos hd, KeptBig.push_literal h]
    · rw [if_neg hd, if_neg hd]

theorem KeptBig.fractionDigit_literal {s : KeptBig} (h : s.mantissa * 10 + d < 2 ^ bigBits) :
    (s.literal c).fractionDigit d = some ((s.step d).literal (c - 1)) := by
  unfold BigLiteral.fractionDigit KeptBig.step
  by_cases hs : s.started = true
  · have hlit : (!(s.literal c).started) = false := by simp [KeptBig.literal, hs]
    have hself : (!s.started) = false := by simp [hs]
    have hdigits : (s.literal c).digits = s.digits := rfl
    simp only [hlit, hself, hdigits, Bool.false_eq_true, if_false]
    by_cases hroom : s.digits < bigDigits
    · rw [if_pos hroom, if_pos hroom, KeptBig.push_literal h, Option.map_some, KeptBig.lower_literal]
    · rw [if_neg hroom, if_neg hroom]
      simp only [KeptBig.literal]
      congr 3
      push_cast
      ring
  · have hlit : (!(s.literal c).started) = true := by simp [KeptBig.literal, hs]
    have hself : (!s.started) = true := by simp [hs]
    simp only [hlit, hself, if_true, KeptBig.lower_literal]
    by_cases hd : d ≠ 0
    · rw [if_pos hd, if_pos hd, KeptBig.push_literal h]
    · rw [if_neg hd, if_neg hd]

/-- The first digits of the number `N`, from the first one that is not 0. -/
structure KeptBig.Holds (s : KeptBig) (N : ℕ) : Prop where
  lt : s.mantissa < 10 ^ s.digits
  digits_le : s.digits ≤ bigDigits
  room : s.digits < bigDigits → s.dropped = 0
  eq : N = s.mantissa * 10 ^ s.dropped + N % 10 ^ s.dropped
  truncated_iff : s.truncated = true ↔ N % 10 ^ s.dropped ≠ 0
  leading : s.started = true → 10 ^ (s.digits - 1) ≤ s.mantissa ∧ 0 < s.digits
  idle : s.started = false → s.mantissa = 0 ∧ s.digits = 0

theorem KeptBig.Holds.push {s : KeptBig} (h : s.Holds N) (hroom : s.digits < bigDigits) (hd : d < 10)
    (hlead : s.started = true ∨ d ≠ 0) : (s.push d).Holds (append N d) := by
  have h0 := h.room hroom
  have heq := h.eq
  have htr := h.truncated_iff
  have hlt := h.lt
  rw [h0, Nat.pow_zero, Nat.mul_one, Nat.mod_one, Nat.add_zero] at heq
  rw [h0, Nat.pow_zero, Nat.mod_one] at htr
  unfold KeptBig.push append
  refine ⟨?_, hroom, fun _ => h0, ?_, ?_, fun _ => ⟨?_, Nat.succ_pos _⟩, fun h => nomatch h⟩
  · simp only
    rw [Nat.pow_succ]
    omega
  · simp only
    rw [h0, Nat.pow_zero, Nat.mod_one, heq]
    omega
  · simp only
    rw [h0, Nat.pow_zero, Nat.mod_one]
    exact htr
  · simp only
    rw [Nat.add_sub_cancel]
    cases hs : s.started with
    | true =>
        obtain ⟨hle, hpos⟩ := h.leading hs
        rw [show s.digits = s.digits - 1 + 1 by omega, Nat.pow_succ]
        omega
    | false =>
        obtain ⟨-, hdig⟩ := h.idle hs
        have hd0 := hlead.resolve_left (by simp [hs])
        rw [hdig, Nat.pow_zero]
        omega

theorem KeptBig.Holds.step {s : KeptBig} (h : s.Holds N) (hd : d < 10) : (s.step d).Holds (append N d) := by
  unfold KeptBig.step
  by_cases hs : s.started = true
  · rw [if_neg (by simp [hs])]
    by_cases hroom : s.digits < bigDigits
    · rw [if_pos hroom]
      exact h.push hroom hd (.inl hs)
    · rw [if_neg hroom]
      have hmod : (N * 10 + d) % 10 ^ (s.dropped + 1) = N % 10 ^ s.dropped * 10 + d := by
        rw [Nat.pow_succ, Nat.mul_comm (10 ^ s.dropped), Nat.mod_mul, show (N * 10 + d) % 10 = d by omega,
          show (N * 10 + d) / 10 = N by omega]
        ring
      have heq := h.eq
      have htr := h.truncated_iff
      unfold append
      refine ⟨h.lt, h.digits_le, fun hr => absurd hr hroom, ?_, ?_, h.leading, h.idle⟩
      · simp only
        rw [hmod, Nat.pow_succ, ← Nat.mul_assoc]
        generalize N % 10 ^ s.dropped = r at *
        rw [heq]
        ring
      · simp only
        rw [hmod, Bool.or_eq_true, htr, decide_eq_true_eq]
        omega
  · rw [if_pos (by simp [hs])]
    have hs' := Bool.eq_false_iff.mpr hs
    obtain ⟨hm, hdig⟩ := h.idle hs'
    have hroom : s.digits < bigDigits := by
      rw [hdig]
      decide
    by_cases hd0 : d ≠ 0
    · rw [if_pos hd0]
      exact h.push hroom hd (.inr hd0)
    · rw [if_neg hd0]
      have hdrop := h.room hroom
      have heq := h.eq
      rw [hm, Nat.zero_mul, hdrop, Nat.pow_zero, Nat.mod_one] at heq
      have hN : append N d = N := by
        unfold append
        omega
      rw [hN]
      exact h

theorem ten_power_fits : ∃ i, i = bigDigits ∧ 10 ^ (i + 1) ≤ 2 ^ bigBits := ⟨_, rfl, by set_option maxRecDepth 8000 in decide⟩

theorem KeptBig.Holds.fits {s : KeptBig} (h : s.Holds N) (hd : d < 10) : s.mantissa * 10 + d < 2 ^ bigBits := by
  obtain ⟨i, hi, hle⟩ := ten_power_fits
  have hlt := h.lt.trans_le (Nat.pow_le_pow_right (show 0 < 10 by decide) (h.digits_le.trans hi.ge))
  refine lt_of_lt_of_le ?_ hle
  rw [Nat.pow_succ]
  omega

theorem KeptBig.Holds.foldl_wholeDigit {s : KeptBig} (h : s.Holds N) :
    ds.foldl (fun (l : Option BigLiteral) (d : Fin 10) => l.bind (·.wholeDigit d)) (some (s.literal c)) =
      some ((ds.foldl (fun s (d : Fin 10) => s.step d) s).literal c) := by
  induction ds generalizing s N with
  | nil => rfl
  | cons d ds ih =>
      rw [List.foldl_cons, List.foldl_cons, Option.bind_some, KeptBig.wholeDigit_literal (h.fits d.isLt)]
      exact ih (h.step d.isLt)

theorem KeptBig.Holds.foldl_fractionDigit {s : KeptBig} (h : s.Holds N) :
    ds.foldl (fun (l : Option BigLiteral) (d : Fin 10) => l.bind (·.fractionDigit d)) (some (s.literal c)) =
      some ((ds.foldl (fun s (d : Fin 10) => s.step d) s).literal (c - ds.length)) := by
  induction ds generalizing s N c with
  | nil =>
      rw [List.length_nil, Nat.cast_zero, sub_zero]
      rfl
  | cons d ds ih =>
      rw [List.foldl_cons, List.foldl_cons, Option.bind_some, KeptBig.fractionDigit_literal (h.fits d.isLt),
        ih (h.step d.isLt), List.length_cons]
      congr 2
      push_cast
      ring

theorem KeptBig.Holds.foldl {s : KeptBig} (h : s.Holds N) : (ds.foldl (fun s (d : Fin 10) => s.step d) s).Holds
    (ds.foldl (fun n (d : Fin 10) => append n d) N) := by
  induction ds generalizing s N with
  | nil => exact h
  | cons d ds ih => exact ih (h.step d.isLt)

end NeForce.Float64
