import NeForce.DoubleBig

/-! # Decimal literals

`Literal` is a valid literal and `Literal.value` what it stands for.  The scanners keep the first digits: the small one until
64 bits are full, the large one 400.  What they keep is near the value, or exact. -/

namespace NeForce.Float64

/-! ### Literals -/

inductive Sign
  | none
  | plus
  | minus
deriving DecidableEq

def Sign.text : Sign → Bytes
  | none => []
  | plus => [0x2B]
  | minus => [0x2D]

def digitByte (d : Fin 10) : UInt8 := 0x30 + UInt8.ofNat d

def digitBytes (ds : List (Fin 10)) : Bytes := ds.map digitByte

/-- The number that digits stand for. -/
def digitsValue (ds : List (Fin 10)) : ℕ := ds.foldl (fun n (d : Fin 10) => n * 10 + d) 0

/-- The exponent of a literal, with at least one digit. -/
structure Exponent where
  upper : Bool
  sign : Sign
  digits : List (Fin 10)
  digits_ne : digits ≠ []

def Exponent.text (e : Exponent) : Bytes := (if e.upper then 0x45 else 0x65) :: (e.sign.text ++ digitBytes e.digits)

/-- A decimal literal, without a point if it has no fraction. -/
structure Literal where
  sign : Sign
  whole : List (Fin 10)
  fraction : List (Fin 10)
  exponent : Option Exponent
  whole_ne : whole ≠ []

namespace Literal

def digits (L : Literal) : List (Fin 10) := L.whole ++ L.fraction

def exponentText (L : Literal) : Bytes :=
  match L.exponent with
  | none => []
  | some e => e.text

def fractionText (L : Literal) : Bytes := if L.fraction = [] then [] else 0x2E :: digitBytes L.fraction

def text (L : Literal) : Bytes := L.sign.text ++ (digitBytes L.whole ++ (L.fractionText ++ L.exponentText))

end Literal

def Sign.apply (s : Sign) (n : ℕ) : ℤ := if s = .minus then -n else n

/-- The exponent that is written. -/
def Literal.exponentValue (L : Literal) : ℤ :=
  match L.exponent with
  | none => 0
  | some e => e.sign.apply (digitsValue e.digits)

/-- The exponent that the scanners read, which take no more digits from `100000` on. -/
def Literal.exponentRead (L : Literal) : ℤ :=
  match L.exponent with
  | none => 0
  | some e => e.sign.apply (e.digits.foldl (fun n (d : Fin 10) => exponentDigit n d) 0)

/-- The value without its sign. -/
def Literal.value (L : Literal) : ℚ := digitsValue L.digits * 10 ^ (L.exponentValue - L.fraction.length)

/-! ### Loops -/

variable {α : Type} {step : α → ℕ → α} {a : α} {ds : List (Fin 10)} {rest : Bytes}

theorem isDigit_digitByte : ∀ d, isDigit (digitByte d) = true := by decide

theorem digitOf_digitByte : ∀ d, digitOf (digitByte d) = d := by decide

theorem digitsLoop_append (h : startsWithDigit rest = false) :
    digitsLoop step a (digitBytes ds ++ rest) = (ds.foldl (fun a (d : Fin 10) => step a d) a, rest) := by
  induction ds generalizing a with
  | nil =>
      cases rest with
      | nil => rfl
      | cons c rest =>
          unfold startsWithDigit at h
          simp [digitBytes, digitsLoop, h]
  | cons d ds ih =>
      rw [digitBytes, List.map_cons, List.cons_append, digitsLoop, if_pos (isDigit_digitByte d), digitOf_digitByte]
      exact ih

/-- The first digits are taken without a check: there is room for 18 digits. -/
theorem fastLoop_append (ds : List (Fin 10)) (h : startsWithDigit rest = false) {budget k : ℕ} {l : DecimalLiteral}
    (hl : l.significand < 10 ^ k) (hk : k + budget ≤ 18) :
    (digitsLoop DecimalLiteral.wholeDigit (fastLoop budget l (digitBytes ds ++ rest)).1
      (fastLoop budget l (digitBytes ds ++ rest)).2) = (ds.foldl (fun l (d : Fin 10) => l.wholeDigit d) l, rest) := by
  induction budget generalizing l ds k with
  | zero => exact digitsLoop_append h
  | succ budget ih =>
      cases ds with
      | nil =>
          cases rest with
          | nil => rfl
          | cons c rest =>
              unfold startsWithDigit at h
              simp [digitBytes, fastLoop, digitsLoop, h]
      | cons d ds =>
          have hpow : 10 ^ k ≤ 10 ^ 17 := Nat.pow_le_pow_right (by decide) (by omega)
          have hroom : full l.significand d = false := by
            unfold full magnitudeLimit
            simp only [Bool.or_eq_false_iff, Bool.and_eq_false_iff, decide_eq_false_iff_not]
            omega
          have hpush : l.wholeDigit d = l.push d := by
            rw [DecimalLiteral.wholeDigit, hroom]
            rfl
          rw [digitBytes, List.map_cons, List.cons_append, fastLoop, if_pos (isDigit_digitByte d), digitOf_digitByte,
            List.foldl_cons, hpush]
          refine ih ds (k := k + 1) ?_ (by omega)
          have hd := d.isLt
          change l.significand * 10 + d < 10 ^ (k + 1)
          rw [Nat.pow_succ]
          omega

theorem startsWithDigit_digitBytes (rest : Bytes) (h : ds ≠ []) : startsWithDigit (digitBytes ds ++ rest) = true := by
  cases ds with
  | nil => exact absurd rfl h
  | cons d ds => exact isDigit_digitByte d

theorem scanSign_append (s : Sign) (h : startsWithDigit rest = true) :
    scanSign (s.text ++ rest) = (decide (s = .minus), rest) := by
  cases s with
  | none =>
      cases rest with
      | nil => rfl
      | cons c rest =>
          have hc : ¬(c = 0x2B ∨ c = 0x2D) := by
            rintro (rfl | rfl) <;> cases h
          exact if_neg hc
  | plus => rfl
  | minus => rfl

theorem scanExponent_eq (L : Literal) : scanExponent L.exponentText = some L.exponentRead := by
  unfold Literal.exponentText Literal.exponentRead
  cases L.exponent with
  | none => rfl
  | some e =>
      have hletter : (if e.upper then (0x45 : UInt8) else 0x65) = 0x65 ∨ (if e.upper then (0x45 : UInt8) else 0x65) = 0x45 := by
        cases e.upper
        · exact .inl rfl
        · exact .inr rfl
      have hstart := startsWithDigit_digitBytes [] e.digits_ne
      rw [List.append_nil] at hstart
      have hloop : digitsLoop exponentDigit 0 (digitBytes e.digits ++ []) = _ := digitsLoop_append rfl
      rw [List.append_nil] at hloop
      simp only [Exponent.text, scanExponent, if_pos hletter, scanSign_append _ hstart,
        hstart, if_true, hloop]
      cases e.sign <;> rfl

theorem startsWithDigit_exponentText (L : Literal) : startsWithDigit L.exponentText = false := by
  unfold Literal.exponentText
  cases L.exponent with
  | none => rfl
  | some e =>
      change startsWithDigit e.text = false
      unfold Exponent.text
      cases e.upper <;> rfl

theorem scanFraction_eq (L : Literal) :
    scanFraction step a (L.fractionText ++ L.exponentText) = some (L.fraction.foldl (fun a (d :
    Fin 10) => step a d) a, L.exponentText) := by
  unfold Literal.fractionText
  by_cases h : L.fraction = []
  · rw [if_pos h, h, List.nil_append]
    unfold Literal.exponentText
    cases L.exponent with
    | none => rfl
    | some e =>
        change scanFraction step a e.text = some (a, e.text)
        unfold Exponent.text
        cases e.upper <;> rfl
  · rw [if_neg h, List.cons_append, scanFraction, if_pos rfl, startsWithDigit_digitBytes _ h,
      digitsLoop_append (startsWithDigit_exponentText L)]
    rfl

theorem startsWithDigit_fractionText (L : Literal) : startsWithDigit (L.fractionText ++ L.exponentText) = false := by
  unfold Literal.fractionText
  by_cases h : L.fraction = []
  · rw [if_pos h]
    exact startsWithDigit_exponentText L
  · rw [if_neg h]
    rfl

/-- What the small scanner keeps. -/
def Literal.kept (L : Literal) : DecimalLiteral :=
  L.fraction.foldl (fun l (d : Fin 10) => l.fractionDigit d) (L.whole.foldl (fun l (d : Fin 10) => l.wholeDigit d) {})

theorem scanDecimal_eq (L : Literal) : scanDecimal L.text =
    some (decide (L.sign = .minus), { L.kept with exponent := wrapInt (L.kept.exponent + L.exponentRead) }) := by
  have hstart := startsWithDigit_digitBytes (L.fractionText ++ L.exponentText) L.whole_ne
  have hzero : ({} : DecimalLiteral).significand < 10 ^ 0 := by decide
  have hroom : 0 + fastDigits ≤ 18 := by decide
  have hfast := fastLoop_append L.whole (startsWithDigit_fractionText L) hzero hroom
  unfold scanDecimal Literal.text
  simp only [scanSign_append _ hstart, hstart, if_true, hfast, scanFraction_eq, scanExponent_eq, Option.bind_eq_bind,
    Option.bind_some]
  rfl

/-- What the large scanner keeps. -/
def Literal.keptBig (L : Literal) : Option BigLiteral :=
  L.fraction.foldl (fun (l : Option BigLiteral) (d : Fin 10) => l.bind (·.fractionDigit d)) (L.whole.foldl (fun (l :
    Option BigLiteral) (d : Fin 10) => l.bind (·.wholeDigit d)) (some {}))

theorem scanBig_eq (L : Literal) : scanBig L.text =
    L.keptBig.map fun l => { l with exponent := wrapInt (l.exponent + L.exponentRead) } := by
  have hstart := startsWithDigit_digitBytes (L.fractionText ++ L.exponentText) L.whole_ne
  unfold scanBig Literal.text
  simp only [scanSign_append _ hstart, hstart, if_true, digitsLoop_append (startsWithDigit_fractionText L), scanFraction_eq,
    scanExponent_eq, Option.bind_eq_bind, Option.bind_some]
  unfold Literal.keptBig
  generalize L.fraction.foldl _ _ = l
  cases l <;> rfl

end NeForce.Float64
