import Mathlib.Data.Nat.Bits
import Mathlib.Data.Nat.Size
import NeForce.BigEndian
import NeForce.DoubleRounding
import NeForce.Pow10Table

/-! # Decimal literals to doubles

`parseDoubleExact` gives the pattern of the magnitude of a literal, and its sign.  Numbers of 64 and 128 bits are natural
numbers, and so is the value of a `decimal_big`; one that does not fit into 80 words is `none`.  An `int` wraps
around. -/

namespace NeForce.Float64

/-! ### Scanning -/

def isDigit (c : UInt8) : Bool := 0x30 ≤ c && c ≤ 0x39

def digitOf (c : UInt8) : ℕ := c.toNat - 0x30

/-- An `int`. -/
def wrapInt (a : ℤ) : ℤ := Int.bmod a (2 ^ 32)

def magnitudeLimit : ℕ := 1844674407370955161

def magnitudeLast : ℕ := 5

def fastDigits : ℕ := 18

def bigDigits : ℕ := 400

def exponentLimit : ℕ := 100000

structure DecimalLiteral where
  significand : ℕ := 0
  exponent : ℤ := 0
  truncated : Bool := false

/-- A loop over digits. -/
def digitsLoop {α : Type} (step : α → ℕ → α) : α → Bytes → α × Bytes
  | l, c :: cursor => if isDigit c then digitsLoop step (step l (digitOf c)) cursor else (l, c :: cursor)
  | l, [] => (l, [])

def DecimalLiteral.push (l : DecimalLiteral) (digit : ℕ) : DecimalLiteral :=
  { l with significand := l.significand * 10 + digit }

/-- Without a check, as long as there is a budget. -/
def fastLoop : ℕ → DecimalLiteral → Bytes → DecimalLiteral × Bytes
  | budget + 1, l, c :: cursor =>
      if isDigit c then fastLoop budget (l.push (digitOf c)) cursor else (l, c :: cursor)
  | _, l, cursor => (l, cursor)

/-- There is no room for the digit. -/
def full (significand digit : ℕ) : Bool :=
  magnitudeLimit < significand || significand = magnitudeLimit && magnitudeLast < digit

def DecimalLiteral.wholeDigit (l : DecimalLiteral) (digit : ℕ) : DecimalLiteral :=
  if full l.significand digit then
    { l with exponent := wrapInt (l.exponent + 1), truncated := l.truncated || digit ≠ 0 }
  else l.push digit

def DecimalLiteral.fractionDigit (l : DecimalLiteral) (digit : ℕ) : DecimalLiteral :=
  if full l.significand digit then { l with truncated := l.truncated || digit ≠ 0 }
  else { l.push digit with exponent := wrapInt (l.exponent - 1) }

/-- The digits of an exponent. -/
def exponentDigit (written digit : ℕ) : ℕ := if written < exponentLimit then written * 10 + digit else written

def startsWithDigit : Bytes → Bool
  | c :: _ => isDigit c
  | [] => false

/-- A sign, which is there for a minus. -/
def scanSign : Bytes → Bool × Bytes
  | c :: cursor => if c = 0x2B ∨ c = 0x2D then (c = 0x2D, cursor) else (false, c :: cursor)
  | [] => (false, [])

/-- What is added to the exponent; `none` if the literal is not valid or not at its end. -/
def scanExponent : Bytes → Option ℤ
  | [] => some 0
  | c :: cursor =>
      if c = 0x65 ∨ c = 0x45 then
        let (negative, cursor) := scanSign cursor
        if startsWithDigit cursor then
          match digitsLoop exponentDigit 0 cursor with
          | (written, []) => some (if negative then -written else written)
          | _ => none
        else none
      else none

/-- The fraction, if there is one. -/
def scanFraction {α : Type} (step : α → ℕ → α) (l : α) : Bytes → Option (α × Bytes)
  | c :: cursor =>
      if c = 0x2E then if startsWithDigit cursor then some (digitsLoop step l cursor) else none else some (l, c :: cursor)
  | [] => some (l, [])

def scanDecimal (text : Bytes) : Option (Bool × DecimalLiteral) := do
  let (negative, cursor) := scanSign text
  if startsWithDigit cursor then
    let (l, cursor) := fastLoop fastDigits {} cursor
    let (l, cursor) := digitsLoop DecimalLiteral.wholeDigit l cursor
    let (l, cursor) ← scanFraction DecimalLiteral.fractionDigit l cursor
    let written ← scanExponent cursor
    some (negative, { l with exponent := wrapInt (l.exponent + written) })
  else none

/-! ### Large numbers -/

/-- A `decimal_big` has 80 words. -/
def bigBits : ℕ := 32 * 80

def big (value : ℕ) : Option ℕ := if value < 2 ^ bigBits then some value else none

structure BigLiteral where
  mantissa : ℕ := 0
  exponent : ℤ := 0
  truncated : Bool := false
  digits : ℕ := 0
  started : Bool := false

def BigLiteral.push (l : BigLiteral) (digit : ℕ) : Option BigLiteral := do
  some { l with mantissa := ← big (l.mantissa * 10 + digit), digits := l.digits + 1, started := true }

def BigLiteral.wholeDigit (l : BigLiteral) (digit : ℕ) : Option BigLiteral :=
  if !l.started then if digit ≠ 0 then l.push digit else some l
  else if l.digits < bigDigits then l.push digit
  else some { l with exponent := wrapInt (l.exponent + 1), truncated := l.truncated || digit ≠ 0 }

def BigLiteral.lower (l : BigLiteral) : BigLiteral := { l with exponent := wrapInt (l.exponent - 1) }

def BigLiteral.fractionDigit (l : BigLiteral) (digit : ℕ) : Option BigLiteral :=
  if !l.started then if digit ≠ 0 then l.lower.push digit else some l.lower
  else if l.digits < bigDigits then (l.push digit).map BigLiteral.lower
  else some { l with truncated := l.truncated || digit ≠ 0 }

def scanBig (text : Bytes) : Option BigLiteral := do
  let (_, cursor) := scanSign text
  if startsWithDigit cursor then
    let (l, cursor) := digitsLoop (fun (l : Option BigLiteral) digit => l.bind (·.wholeDigit digit)) (some {}) cursor
    let (l, cursor) ← scanFraction (fun (l : Option BigLiteral) digit => l.bind (·.fractionDigit digit)) l cursor
    let written ← scanExponent cursor
    let l ← l
    some { l with exponent := wrapInt (l.exponent + written) }
  else none

/-- A shift to the left. -/
def shl (value bits : ℕ) : Option ℕ := big (value * 2 ^ bits)

/-- The value times a power of five, one factor after the other. -/
def mulFives : ℕ → ℕ → Option ℕ
  | 0, value => some value
  | n + 1, value => do mulFives n (← big (value * 5))

def divideLoop : ℕ → ℕ → ℕ → ℕ → ℕ × ℕ
  | 0, numerator, _, quotient => (quotient, numerator)
  | n + 1, numerator, denominator, quotient =>
      if denominator ≤ numerator then divideLoop n (numerator - denominator) (denominator / 2) (quotient * 2 + 1)
      else divideLoop n numerator (denominator / 2) (quotient * 2)

/-- The quotient, and whether there is a remainder. -/
def divide (numerator denominator : ℕ) : Option (ℕ × Bool) :=
  if numerator < denominator then some (0, numerator ≠ 0)
  else do
    let shift := numerator.size - denominator.size
    let denominator ← shl denominator shift
    let (quotient, rest) := divideLoop (shift + 1) numerator denominator 0
    some (quotient % 2 ^ 64, rest ≠ 0)

def assemble (mantissa : ℕ) (exponent : ℤ) : ℕ :=
  if 971 < exponent then infinityBits
  else if -1074 < exponent then (exponent + 1075).toNat <<< 52 ||| (mantissa - 2 ^ 52)
  else mantissa

/-- The binary exponent of a quotient. -/
def binaryExponent (numerator denominator : ℕ) : Option ℤ := do
  let exponent : ℤ := numerator.size - denominator.size
  if 0 ≤ exponent then
    let shifted ← shl denominator exponent.toNat
    some (if numerator < shifted then exponent - 1 else exponent)
  else
    let shifted ← shl numerator (-exponent).toNat
    some (if shifted < denominator then exponent - 1 else exponent)

/-- The value is less than the smallest double, but maybe nearer to it than to 0. -/
def tinyToDouble (numerator denominator : ℕ) (exponent : ℤ) : Option ℕ := do
  let shift := exponent + 1075
  if 0 ≤ shift then
    let shifted ← shl numerator shift.toNat
    some (if denominator < shifted then 1 else 0)
  else
    let shifted ← shl denominator (-shift).toNat
    some (if shifted < numerator then 1 else 0)

/-- A shift to either side, and whether it drops a bit. -/
def scale (numerator : ℕ) (scaling : ℤ) : Option (ℕ × Bool) :=
  if 0 ≤ scaling then (shl numerator scaling.toNat).map (·, false)
  else some (numerator / 2 ^ (-scaling).toNat, decide (numerator % 2 ^ (-scaling).toNat ≠ 0))

/-- The quotient rounded to `bits` bits. -/
def roundQuotient (numerator denominator bits : ℕ) (binary value : ℤ) (truncated : Bool) : Option ℕ := do
  let (numerator, dropped) ← scale numerator (bits - binary)
  let (quotient, remainder) ← divide numerator denominator
  let mantissa := quotient / 2
  let mantissa :=
    if quotient % 2 = 1 ∧ (truncated || dropped || remainder || mantissa % 2 = 1) = true then mantissa + 1 else mantissa
  let exponent := value + 1 - bits
  if bits = 53 ∧ mantissa = 2 ^ 53 then some (assemble (mantissa / 2) (exponent + 1))
  else some (assemble mantissa exponent)

/-- A quotient times a power of two. -/
def ratioToDouble (numerator denominator : ℕ) (exponent : ℤ) (truncated : Bool) : Option ℕ := do
  let binary ← binaryExponent numerator denominator
  let value := binary + exponent
  if value < -1075 then some 0
  else if value < -1022 then
    let bits := (value + 1075).toNat
    if bits = 0 then tinyToDouble numerator denominator exponent
    else roundQuotient numerator denominator bits binary value truncated
  else roundQuotient numerator denominator 53 binary value truncated

def bigToDouble (l : BigLiteral) : Option ℕ := do
  let numerator ← if 0 ≤ l.exponent then mulFives l.exponent.toNat l.mantissa else some l.mantissa
  let denominator ← if 0 ≤ l.exponent then some 1 else mulFives (-l.exponent).toNat 1
  ratioToDouble numerator denominator l.exponent l.truncated

/-! ### The table -/

def extractBits (product position : ℕ) : ℕ := product / 2 ^ position % 2 ^ 64

/-- The pattern of a rounded significand, which may be the next power of two. -/
def assembleRounded (mantissa : ℕ) (exponent : ℤ) : ℕ :=
  if mantissa = 2 ^ 53 then assemble (mantissa / 2) (exponent + 1) else assemble mantissa exponent

/-- The product of a significand and an entry, which is three words; `none` where the source returns false. -/
def roundProduct (truncated : Bool) (product : ℕ) (tableExponent : ℤ) : Option ℕ :=
  let shift := max (-947 - tableExponent) (product.size - 53)
  if 192 < shift then some 0
  else
    let position := shift.toNat
    let mantissa := extractBits product position % 2 ^ 53
    let fraction := extractBits product (position - 64)
    let margin := if truncated then 2 ^ 58 else 16
    if fraction < margin ∨ 2 ^ 64 - 1 - margin < fraction then none
    else if 2 ^ 63 - margin < fraction ∧ fraction < 2 ^ 63 + margin then none
    else some (assembleRounded (if 2 ^ 63 < fraction then mantissa + 1 else mantissa) (tableExponent - 127 + shift))

def tableToDouble (l : DecimalLiteral) : Option ℕ :=
  if l.significand = 0 then some 0
  else if pow10Max < l.exponent then some infinityBits
  else if l.exponent < pow10Min then some 0
  else
    let index := (l.exponent - pow10Min).toNat
    roundProduct l.truncated
      (l.significand * (pow10MantissaHi.getD index 0 * 2 ^ 64 + pow10MantissaLo.getD index 0)) (pow10Exponent.getD index 0)

/-- The pattern with the sign, which is its highest bit. -/
def fromBits (bits : ℕ) (negative : Bool) : ℕ := if negative then bits + 2 ^ 63 else bits

/-- The pattern that `parse_double_exact` takes from the table or from the large numbers; `none` for a literal that is not
valid, and if a number does not fit. -/
def parseDoubleExact (text : Bytes) : Option ℕ := do
  let (negative, l) ← scanDecimal text
  match tableToDouble l with
  | some bits => some (fromBits bits negative)
  | none => (do bigToDouble (← scanBig text)).map (fromBits · negative)

end NeForce.Float64
