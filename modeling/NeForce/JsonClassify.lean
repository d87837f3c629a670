import Mathlib.Algebra.Order.Field.Power
import Mathlib.Data.Rat.Cast.Order
import Mathlib.Tactic.FieldSimp
import NeForce.JsonParsing

/-! # What `parse_number` makes of a number

Integers are classified by their exact value.  In the other literals the significand and the exponent are exact as long as
no digit is dropped, but for one thing: the exponent is an `int` that counts the digits of the fraction, and a fraction can
have more of them than an `int` can count. -/

namespace NeForce.Json

variable {D : Type} {doubles : Doubles D} {i f e t rest : Bytes} {n k v : ℕ} {d : Decimal} {a b : ℤ}

/-! ### Literals -/

/-- A number of the grammar. -/
structure Literal where
  negative : Bool
  int : Bytes
  frac : Bytes
  exp : Bytes
  isInt : IsInt int
  isFrac : IsFrac frac
  isExp : IsExp exp

/-- The text behind the sign. -/
def Literal.unsigned (l : Literal) : Bytes := l.int ++ (l.frac ++ l.exp)

def Literal.text (l : Literal) : Bytes := minus l.negative ++ l.unsigned

/-- The number of all digits before the exponent. -/
def Literal.digits (l : Literal) : ℕ := decimal (l.int ++ l.frac.tail)

/-- The number behind the letter of an exponent. -/
def expValue (e : Bytes) : ℤ := if 0x2D ∈ e then -(decimal (expDigits e) : ℤ) else decimal (expDigits e)

/-- The power of ten of the last digit before the exponent. -/
def Literal.scale (l : Literal) : ℤ := expValue l.exp - l.frac.tail.length

/-- The exact value without the sign. -/
def Literal.magnitude (l : Literal) : ℚ := l.digits * 10 ^ l.scale

/-- An integer literal, as it is classified. -/
structure Literal.Classified (l : Literal) (v : Value D) : Prop where
  integer : ∀ n, v = .integer n ↔
    l.frac = [] ∧ l.exp = [] ∧ n = signed l.negative (decimal l.int) ∧ -2 ^ 63 ≤ n ∧ n < 2 ^ 63
  uinteger : ∀ n : ℕ, v = .uinteger n ↔
    l.frac = [] ∧ l.exp = [] ∧ (n : ℤ) = signed l.negative (decimal l.int) ∧ 2 ^ 63 ≤ n ∧ n < 2 ^ 64
  real : (∃ x, v = .real x) ↔ ¬ ((∃ n, v = .integer n) ∨ ∃ n, v = .uinteger n)

/-- The variables of `parse_number` behind its loops, and the rest of the text. -/
def numberState (cursor : Bytes) : Except Failure (Decimal × Bool × Bytes) := do
  let (d, cursor) ← parseIntegerPart cursor
  let (d, real, cursor) ← parseFraction d cursor
  parseExponent d real cursor

/-! ### The exponent -/

theorem wrapInt_eq_self : wrapInt a = a ↔ -2 ^ 31 ≤ a ∧ a < 2 ^ 31 := by
  unfold wrapInt
  rw [Int.bmod_def]
  constructor
  · intro h
    split at h <;> omega
  · intro h
    split <;> omega

theorem wrapInt_add (a b : ℤ) : wrapInt (wrapInt a + b) = wrapInt (a + b) := Int.bmod_add_bmod

/-- Five digits are not cut off. -/
theorem foldDigits_exponentDigit (ht : AllDigits t) (hk : k + t.length ≤ 5) (hv : v < 10 ^ k) :
    foldDigits exponentDigit v t = decimalFrom v t := by
  induction t generalizing v k with
  | nil => rfl
  | cons c t ih =>
      obtain ⟨hc, ht⟩ := allDigits_cons.mp ht
      have hn := digit_le hc
      rw [List.length_cons] at hk
      have hle : 10 ^ k ≤ 10 ^ 5 := Nat.pow_le_pow_right (by omega) (by omega)
      have hstep : 10 * v + (c.toNat - 0x30) < 10 ^ (k + 1) := by
        rw [Nat.pow_succ]
        omega
      have hdigit : exponentDigit v (c.toNat - 0x30) = 10 * v + (c.toNat - 0x30) := by
        rw [exponentDigit, if_pos (by omega), Nat.mul_comm]
      have h := ih ht (by omega) hstep
      unfold foldDigits decimalFrom at *
      rw [List.foldl_cons, List.foldl_cons, hdigit]
      exact h

theorem decimalFrom_lt (ht : AllDigits t) (v : ℕ) : decimalFrom v t < (v + 1) * 10 ^ t.length := by
  induction t generalizing v with
  | nil => simp [decimalFrom]
  | cons c t ih =>
      obtain ⟨hc, ht⟩ := allDigits_cons.mp ht
      have hn := digit_le hc
      refine lt_of_lt_of_le (ih ht (10 * v + (c.toNat - 0x30))) ?_
      rw [List.length_cons, Nat.pow_succ, Nat.mul_comm (10 ^ t.length), ← Nat.mul_assoc]
      exact Nat.mul_le_mul_right _ (by omega)

theorem allDigits_expDigits (e : Bytes) : AllDigits (expDigits e) := fun _ hc => isDigit_iff.mp (List.mem_filter.mp hc).2

/-- An exponent of five digits. -/
theorem expValue_bounds (h : (expDigits e).length ≤ 5) : -10 ^ 5 < expValue e ∧ expValue e < 10 ^ 5 := by
  have hlt : decimal (expDigits e) < (0 + 1) * 10 ^ (expDigits e).length := decimalFrom_lt (allDigits_expDigits e) 0
  have hle : 10 ^ (expDigits e).length ≤ 10 ^ 5 := Nat.pow_le_pow_right (by omega) h
  have hdecimal : decimal (expDigits e) < 10 ^ 5 := by omega
  unfold expValue
  split <;> omega

/-! ### What is read -/

/-- The number of the digits so far, and of those of the fraction among them. -/
structure Scanned (v k : ℕ) (d : Decimal) : Prop extends Significand v d where
  truncated : v < 2 ^ 64 → d.truncated = false
  exponent : v < 2 ^ 64 → d.exponent = wrapInt (-k)

theorem Scanned.integerDigit (h : Scanned v 0 d) (hn : n ≤ 9) : Scanned (10 * v + n) 0 (d.integerDigit n) := by
  have hstay (hv : 10 * v + n < 2 ^ 64) : d.integerDigit n = { d with significand := pushDigit d.significand n } := by
    unfold Decimal.integerDigit
    rw [if_neg (by simp [h.overflow]; omega), h.isFull_eq (by omega) hn, if_neg (by simpa using hv)]
  refine ⟨h.toSignificand.digit hn, fun hv => ?_, fun hv => ?_⟩
  · rw [hstay hv]
    exact h.truncated (by omega)
  · rw [hstay hv]
    exact h.exponent (by omega)

theorem Scanned.fractionDigit (h : Scanned v k d) (hn : n ≤ 9) : Scanned (10 * v + n) (k + 1) (d.fractionDigit n) := by
  have hstay (hv : 10 * v + n < 2 ^ 64) : d.fractionDigit n =
      { d with significand := pushDigit d.significand n, exponent := wrapInt (d.exponent - 1) } := by
    unfold Decimal.fractionDigit
    rw [if_neg (by simp [h.overflow]; omega), h.isFull_eq (by omega) hn, if_neg (by simpa using hv)]
  have hsame : (d.fractionDigit n).significand = (d.integerDigit n).significand ∧
      (d.fractionDigit n).overflow = (d.integerDigit n).overflow := by
    unfold Decimal.fractionDigit Decimal.integerDigit
    split
    · exact ⟨rfl, rfl⟩
    · split <;> exact ⟨rfl, rfl⟩
  have hdigit := h.toSignificand.digit hn
  refine ⟨⟨hsame.2.trans hdigit.overflow, fun hv => hsame.1.trans (hdigit.exact hv)⟩, fun hv => ?_, fun hv => ?_⟩
  · rw [hstay hv]
    exact h.truncated (by omega)
  · rw [hstay hv]
    show wrapInt (d.exponent - 1) = _
    rw [h.exponent (by omega), sub_eq_add_neg, wrapInt_add]
    congr 1
    omega

theorem Scanned.integerDigits (h : Scanned v 0 d) (ht : AllDigits t) :
    Scanned (decimalFrom v t) 0 (foldDigits Decimal.integerDigit d t) := by
  induction t generalizing v d with
  | nil => exact h
  | cons c t ih =>
      obtain ⟨hc, ht⟩ := allDigits_cons.mp ht
      exact ih (h.integerDigit (digit_le hc)) ht

theorem Scanned.fractionDigits (h : Scanned v k d) (ht : AllDigits t) :
    Scanned (decimalFrom v t) (k + t.length) (foldDigits Decimal.fractionDigit d t) := by
  induction t generalizing v k d with
  | nil => exact h
  | cons c t ih =>
      obtain ⟨hc, ht⟩ := allDigits_cons.mp ht
      have hrest := ih (h.fractionDigit (digit_le hc)) ht
      rw [List.length_cons, Nat.add_comm t.length, ← Nat.add_assoc]
      exact hrest

theorem scanned_start (hv : v < 2 ^ 64) : Scanned v 0 { significand := v } :=
  ⟨⟨(decide_eq_false (by omega)).symm, fun _ => rfl⟩, fun _ => rfl, fun _ => rfl⟩

theorem scanned_integerState (hi : IsInt i) : Scanned (decimal i) 0 (integerState i) := by
  have hdigits := hi.allDigits.1
  unfold integerState
  split
  · next hzero =>
    subst hzero
    exact scanned_start (by decide)
  · have hlt := (decimalFrom_take hdigits).2
    have hfinal := (scanned_start (v := decimalFrom 0 (i.take fastDigits)) (by omega)).integerDigits (t := i.drop fastDigits)
      fun d hd => hdigits d (List.mem_of_mem_drop hd)
    rwa [decimalFrom_drop] at hfinal

theorem decimal_append_digits (i t : Bytes) : decimal (i ++ t) = decimalFrom (decimal i) t := List.foldl_append ..

theorem IsFrac.allDigits (hf : IsFrac f) : AllDigits f.tail := by
  cases hf with
  | none => exact fun c hc => (List.not_mem_nil hc).elim
  | digits hne ht => exact ht

theorem scanned_fractionState (hi : IsInt i) (hf : IsFrac f) :
    Scanned (decimal (i ++ f.tail)) f.tail.length (fractionState (integerState i) f) := by
  have h := (scanned_integerState hi).fractionDigits hf.allDigits
  rw [Nat.zero_add] at h
  rw [decimal_append_digits]
  exact h

/-- The variables of a literal. -/
def Literal.state (l : Literal) : Decimal := exponentState (fractionState (integerState l.int) l.frac) l.exp

theorem Literal.numberState_eq (l : Literal) (hs : Stops l.frac l.exp rest) :
    numberState (l.unsigned ++ rest) = .ok (l.state, decide (l.frac ≠ []) || decide (l.exp ≠ []), rest) := by
  obtain ⟨h1, h2, h3⟩ := hs.frac l.isFrac l.isExp
  have hassoc : l.unsigned ++ rest = l.int ++ (l.frac ++ (l.exp ++ rest)) := by simp [Literal.unsigned]
  unfold numberState
  rw [hassoc]
  simp only [bind, Except.bind, parseIntegerPart_eq l.isInt h1, parseFraction_eq l.isFrac _ h2 h3,
    parseExponent_eq l.isExp _ _ hs.digit hs.letter, Literal.state]

/-- The exponent does not change the other variables. -/
theorem exponentState_fields (d : Decimal) (e : Bytes) : (exponentState d e).significand = d.significand ∧
    (exponentState d e).overflow = d.overflow ∧ (exponentState d e).truncated = d.truncated := by
  unfold exponentState
  split <;> exact ⟨rfl, rfl, rfl⟩

/-- The variables of a literal whose digits have 64 bits. -/
theorem Literal.state_spec (l : Literal) : l.state.overflow = decide (2 ^ 64 ≤ l.digits) ∧ (l.digits < 2 ^ 64 →
    l.state.truncated = false ∧ l.state.significand = l.digits ∧
      ((expDigits l.exp).length ≤ 5 → l.state.exponent = wrapInt l.scale)) := by
  obtain ⟨⟨hoverflow, hexact⟩, htruncated, hexponent⟩ := scanned_fractionState l.isInt l.isFrac
  obtain ⟨h1, h2, h3⟩ := exponentState_fields (fractionState (integerState l.int) l.frac) l.exp
  refine ⟨h2.trans hoverflow, fun hv => ⟨h3.trans (htruncated hv), h1.trans (hexact hv), fun hfive => ?_⟩⟩
  have hwritten : foldDigits exponentDigit 0 (expDigits l.exp) = decimal (expDigits l.exp) :=
    foldDigits_exponentDigit (k := 0) (allDigits_expDigits _) (by omega) (by omega)
  unfold Literal.state exponentState Literal.scale expValue
  split
  · next hnil =>
    rw [hexponent hv, hnil]
    simp [expDigits, decimal]
  · dsimp only
    rw [hexponent hv, wrapInt_add, hwritten]
    congr 1
    omega

/-! ### Classification -/

theorem Literal.classified (l : Literal) {v : Value D} (h : NumberIs l.text v) : l.Classified v := by
  obtain ⟨negative, i, htext, hi, hvalue⟩ | ⟨⟨x, rfl⟩, hrange⟩ := h
  · have hnil : l.frac = [] ∧ l.exp = [] := by
      by_contra hne
      exact not_int l.isFrac l.isExp hne hi htext
    have hsame : l.negative = negative ∧ l.int = i := by
      refine minus_inj l.isInt hi ?_
      rw [← htext, Literal.text, Literal.unsigned, hnil.1, hnil.2, List.append_nil, List.append_nil]
    obtain ⟨rfl, rfl⟩ := hsame
    obtain ⟨rfl, hlow, hhigh⟩ | ⟨hnegative, rfl, hlow, hhigh⟩ := hvalue
    · refine ⟨fun n => ?_, fun n => ?_, ?_⟩
      · rw [Value.integer.injEq]
        constructor
        · rintro rfl
          exact ⟨hnil.1, hnil.2, rfl, hlow, hhigh⟩
        · intro h
          exact h.2.2.1.symm
      · refine iff_of_false nofun fun h => ?_
        have hn := h.2.2.1
        have hbound := h.2.2.2.1
        omega
      · exact iff_of_false nofun fun h => h (.inl ⟨_, rfl⟩)
    · have hsigned : signed l.negative (decimal l.int) = decimal l.int := by
        rw [hnegative]
        rfl
      refine ⟨fun n => ?_, fun n => ?_, ?_⟩
      · refine iff_of_false nofun fun h => ?_
        have hn := h.2.2.1
        have hbound := h.2.2.2.2
        omega
      · rw [Value.uinteger.injEq]
        constructor
        · rintro rfl
          exact ⟨hnil.1, hnil.2, hsigned.symm, hlow, hhigh⟩
        · intro h
          have hn := h.2.2.1
          omega
      · exact iff_of_false nofun fun h => h (.inr ⟨_, rfl⟩)
  · have hout (h1 : l.frac = []) (h2 : l.exp = []) :
        signed l.negative (decimal l.int) < -2 ^ 63 ∨ 2 ^ 64 ≤ signed l.negative (decimal l.int) := by
      refine hrange l.negative l.int ?_ l.isInt
      rw [Literal.text, Literal.unsigned, h1, h2, List.append_nil, List.append_nil]
    refine ⟨fun n => iff_of_false nofun fun h => ?_, fun n => iff_of_false nofun fun h => ?_, ?_⟩
    · have hrange := hout h.1 h.2.1
      have hn := h.2.2
      omega
    · have hrange := hout h.1 h.2.1
      have hn := h.2.2
      omega
    · refine iff_of_true ⟨x, rfl⟩ ?_
      rintro (⟨n, hn⟩ | ⟨n, hn⟩)
      · cases hn
      · cases hn

/-- The digits are all zero, or more than 64 bits, or the `int` has room for those of the fraction. -/
def Literal.Fits (l : Literal) : Prop := l.digits = 0 ∨ 2 ^ 64 ≤ l.digits ∨ -2 ^ 31 ≤ l.scale

/-- The significand and the exponent stand for the magnitude. -/
def Literal.Exact (l : Literal) (d : Decimal) : Prop := (d.significand : ℚ) * 10 ^ d.exponent = l.magnitude

/-- The significand and the exponent are exact just when the exponent fits. -/
theorem Literal.exact_iff (l : Literal) (hfive : (expDigits l.exp).length ≤ 5) {v : Value D} (hv : l.Classified v) :
    ((∃ x, v = .real x) → l.state.overflow = false → l.state.truncated = false → l.Exact l.state) ↔ l.Fits := by
  obtain ⟨hoverflow, hstate⟩ := l.state_spec
  obtain ⟨hlow, hhigh⟩ := expValue_bounds hfive
  have hscale : l.scale < 2 ^ 31 := by
    unfold Literal.scale
    omega
  unfold Literal.Exact Literal.magnitude
  constructor
  · intro h
    by_contra hfits
    obtain ⟨hzero, hbig, hsmall⟩ : l.digits ≠ 0 ∧ ¬ 2 ^ 64 ≤ l.digits ∧ ¬ -2 ^ 31 ≤ l.scale :=
      ⟨fun h => hfits (.inl h), fun h => hfits (.inr (.inl h)), fun h => hfits (.inr (.inr h))⟩
    obtain ⟨htruncated, hsignificand, hexponent⟩ := hstate (Nat.not_le.mp hbig)
    have hfrac : l.frac ≠ [] := by
      intro hnil
      unfold Literal.scale at hsmall
      rw [hnil] at hsmall
      simp only [List.tail_nil, List.length_nil, Nat.cast_zero] at hsmall
      omega
    have hreal : ∃ x, v = .real x := hv.real.mpr <| by
      rintro (⟨n, hn⟩ | ⟨n, hn⟩)
      · exact hfrac ((hv.integer n).mp hn).1
      · exact hfrac ((hv.uinteger n).mp hn).1
    have heq := h hreal (hoverflow.trans (decide_eq_false hbig)) htruncated
    rw [hsignificand, hexponent hfive] at heq
    have hne : (l.digits : ℚ) ≠ 0 := Nat.cast_ne_zero.mpr hzero
    have hwrap := zpow_right_injective₀ (show (0 : ℚ) < 10 by norm_num) (show (10 : ℚ) ≠ 1 by norm_num)
      (mul_left_cancel₀ hne heq)
    exact hsmall (wrapInt_eq_self.mp hwrap).1
  · intro hfits _ hover _
    have hbig : ¬ 2 ^ 64 ≤ l.digits := by
      rw [hoverflow] at hover
      exact of_decide_eq_false hover
    obtain ⟨-, hsignificand, hexponent⟩ := hstate (Nat.not_le.mp hbig)
    rw [hsignificand, hexponent hfive]
    obtain hzero | h | hsmall := hfits
    · rw [hzero, Nat.cast_zero, zero_mul, zero_mul]
    · exact absurd h hbig
    · rw [wrapInt_eq_self.mpr ⟨hsmall, hscale⟩]

/-- What `parse_number` is to make of a literal: the class by its exact value, and the variables of the real case. -/
structure Literal.Parsed (l : Literal) (v : Value D) (d : Decimal) : Prop where
  classified : l.Classified v
  exact : (∃ x, v = .real x) → d.overflow = false → d.truncated = false → (expDigits l.exp).length ≤ 5 → l.Exact d

theorem Literal.parsed_iff (l : Literal) {v : Value D} (hv : l.Classified v) :
    l.Parsed v l.state ↔ ((expDigits l.exp).length ≤ 5 → l.Fits) := by
  constructor
  · intro h hfive
    exact (l.exact_iff hfive hv).mp fun hreal hover htrunc => h.exact hreal hover htrunc hfive
  · intro h
    exact ⟨hv, fun hreal hover htrunc hfive => (l.exact_iff hfive hv).mpr (h hfive) hreal hover htrunc⟩

/-- The run of `parse_number` on a literal, whatever follows it, does what it is to do. -/
def Literal.ParsedIn (doubles : Doubles D) (l : Literal) (rest : Bytes) : Prop :=
  ∃ v d real, parseNumber doubles (l.text ++ rest) = .ok (v, rest) ∧ numberState (l.unsigned ++ rest) = .ok (d, real, rest) ∧
    l.Parsed v d

theorem Literal.parsed_of_parsedIn (l : Literal) (hs : Stops l.frac l.exp rest) (h : l.ParsedIn doubles rest) :
    ∃ v : Value D, l.Classified v ∧ l.Parsed v l.state := by
  obtain ⟨v, d, real, -, hd, hparsed⟩ := h
  cases (l.numberState_eq hs).symm.trans hd
  exact ⟨v, hparsed.classified, hparsed⟩

/-- **A number is classified by its exact value, and the variables of the real case are exact, if and only if its exponent
has more than five digits, its digits are zero or more than 64 bits, or the power of ten of its last digit fits an
`int`.** -/
theorem parse_number_exact_iff (doubles : Doubles D) (l : Literal) (hs : Stops l.frac l.exp rest) :
    l.ParsedIn doubles rest ↔ ((expDigits l.exp).length ≤ 5 → l.Fits) := by
  constructor
  · intro h
    obtain ⟨v, hv, hparsed⟩ := l.parsed_of_parsedIn hs h
    exact (l.parsed_iff hv).mp hparsed
  · intro h
    obtain ⟨v, hnumber, hparse⟩ := parseNumber_complete doubles l.negative l.isInt l.isFrac l.isExp
    exact ⟨v, _, _, hparse rest hs, l.numberState_eq hs, (l.parsed_iff (l.classified hnumber)).mpr h⟩

theorem stops_nil (f e : Bytes) : Stops f e [] := ⟨rfl, fun _ _ => by simp, fun _ => by simp⟩

/-- `1.5e2`. -/
def oneFive : Literal where
  negative := false
  int := [0x31]
  frac := [0x2E, 0x35]
  exp := [0x65, 0x32]
  isInt := .digits (by decide) (by simp [AllDigits])
  isFrac := .digits (by decide) (by simp [AllDigits])
  isExp := .digits (s := []) (.inl rfl) (.inl rfl) (by decide) (by simp [AllDigits])

theorem parse_number_oneFive :
    oneFive.ParsedIn noDoubles [] ↔ ((expDigits oneFive.exp).length ≤ 5 → oneFive.Fits) :=
  parse_number_exact_iff noDoubles oneFive (stops_nil _ _)

/-- `0.0…01` with `n` zeros behind the point. -/
def tiny (n : ℕ) : Literal where
  negative := false
  int := [0x30]
  frac := 0x2E :: (List.replicate n 0x30 ++ [0x31])
  exp := []
  isInt := .zero
  isFrac := .digits (by simp) fun c hc => by
    obtain hc | hc := List.mem_append.mp hc
    · rw [List.eq_of_mem_replicate hc]
      decide
    · rw [List.mem_singleton.mp hc]
      decide
  isExp := .none

theorem tiny_digits (n : ℕ) : (tiny n).digits = 1 := by
  have hzeros (m : ℕ) : decimalFrom 0 (List.replicate m 0x30) = 0 := by
    induction m with
    | zero => rfl
    | succ m ih => exact ih
  show decimal ([0x30] ++ (List.replicate n 0x30 ++ [0x31])) = 1
  rw [← List.append_assoc, decimal_append_digits, decimal_append_digits]
  show decimalFrom (decimalFrom 0 (List.replicate n 0x30)) [0x31] = 1
  rw [hzeros]
  rfl

theorem tiny_scale (n : ℕ) : (tiny n).scale = -(n + 1) := by
  show expValue [] - ((List.replicate n (0x30 : UInt8) ++ [0x31]).length : ℤ) = _
  rw [List.length_append, List.length_replicate]
  simp [expValue, expDigits, decimal]

/-- An `int` cannot count the digits of a fraction with `2 ^ 31` zeros and a one. -/
theorem tiny_not_exact : ¬ (tiny (2 ^ 31)).ParsedIn noDoubles [] := by
  intro h
  obtain ⟨v, hv, hparsed⟩ := (tiny (2 ^ 31)).parsed_of_parsedIn (stops_nil _ _) h
  obtain hzero | hbig | hsmall := ((tiny (2 ^ 31)).parsed_iff hv).mp hparsed (Nat.zero_le 5)
  · rw [tiny_digits] at hzero
    cases hzero
  · rw [tiny_digits] at hbig
    omega
  · rw [tiny_scale] at hsmall
    omega

end NeForce.Json
