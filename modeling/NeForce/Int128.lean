import Mathlib

/-! # 128-bit integers out of 64-bit halves

The portable paths of `uint128_t` and `int128_t`, which compilers without a 128-bit type take: sums, differences and
products in 32-bit digits, a division of 128 by 64 bits, and a long division bit by bit.  Operations of the 64-bit words
wrap around as in the source; a division by zero throws. -/

namespace NeForce

/-! ### Intrinsics for 64-bit words -/

namespace Intrinsic

/-- One `if` of `clz64`, for the upper `w` bits. -/
def clzStep (w : ℕ) (s : ℕ × UInt64) : ℕ × UInt64 :=
  if s.2 >>> UInt64.ofNat (64 - w) = 0 then (s.1 + w, s.2 <<< UInt64.ofNat w) else s

def clz64 (x : UInt64) : ℕ :=
  if x = 0 then 64
  else
    let s := clzStep 2 (clzStep 4 (clzStep 8 (clzStep 16 (clzStep 32 (0, x)))))
    if s.2 >>> 63 = 0 then s.1 + 1 else s.1

/-- `__addcarry_u64`: the carry and the sum. -/
def addcarryU64 (carryIn : UInt8) (a b : UInt64) : UInt8 × UInt64 :=
  let aLo := a.toUInt32
  let aHi := (a >>> 32).toUInt32
  let bLo := b.toUInt32
  let bHi := (b >>> 32).toUInt32
  let sumLo := aLo.toUInt64 + bLo.toUInt64 + carryIn.toUInt64
  let sumHi := aHi.toUInt64 + bHi.toUInt64 + (sumLo >>> 32)
  ((sumHi >>> 32).toUInt8, (sumHi <<< 32) ||| (sumLo &&& 0xFFFFFFFF))

/-- `__subborrow_u64`: the borrow and the difference. -/
def subborrowU64 (borrowIn : UInt8) (a b : UInt64) : UInt8 × UInt64 :=
  let aLo := a.toUInt32
  let aHi := (a >>> 32).toUInt32
  let bLo := b.toUInt32
  let bHi := (b >>> 32).toUInt32
  let diffLo := aLo.toUInt64 - bLo.toUInt64 - borrowIn.toUInt64
  let borrowLo := diffLo >>> 63
  let diffHi := aHi.toUInt64 - bHi.toUInt64 - borrowLo
  let borrowHi := diffHi >>> 63
  (borrowHi.toUInt8, ((diffHi &&& 0xFFFFFFFF) <<< 32) ||| (diffLo &&& 0xFFFFFFFF))

/-- `__umul128`: the upper and the lower half of the product. -/
def umul128 (a b : UInt64) : UInt64 × UInt64 :=
  let aLo := a.toUInt32
  let aHi := (a >>> 32).toUInt32
  let bLo := b.toUInt32
  let bHi := (b >>> 32).toUInt32
  let pLl := aLo.toUInt64 * bLo.toUInt64
  let pLh := aLo.toUInt64 * bHi.toUInt64
  let pHl := aHi.toUInt64 * bLo.toUInt64
  let pHh := aHi.toUInt64 * bHi.toUInt64
  let mid := (pLl >>> 32) + (pLh &&& 0xFFFFFFFF) + (pHl &&& 0xFFFFFFFF)
  (pHh + (pLh >>> 32) + (pHl >>> 32) + (mid >>> 32), (pLl &&& (0xFFFFFFFF : UInt64)) ||| (mid <<< 32))

/-- The loop that corrects a digit `q` of the quotient with its remainder `r`, at most `fuel` times; `d_hi` has its
highest bit set, so `r` passes `2 ^ 32` after two times. -/
def correctDigit (dHi dLo u : UInt64) : ℕ → UInt64 → UInt64 → UInt64
  | 0, q, _ => q
  | fuel + 1, q, r =>
      if q ≥ 0x100000000 ∨ q * dLo > ((r <<< 32) ||| (u &&& 0xFFFFFFFF)) then
        let q := q - 1
        let r := r + dHi
        if r ≥ 0x100000000 then q else correctDigit dHi dLo u fuel q r
      else q

/-- `__udiv128`: the quotient and the remainder. -/
def udiv128 (dividendHi dividendLo divisor : UInt64) : UInt64 × UInt64 :=
  if dividendHi = 0 then (dividendLo / divisor, dividendLo % divisor)
  else
    let s := clz64 divisor
    let d := divisor <<< UInt64.ofNat s
    let u2 := if s = 0 then 0 else dividendHi >>> UInt64.ofNat (64 - s)
    let u1 :=
      if s = 0 then dividendHi
      else (dividendHi <<< UInt64.ofNat s) ||| (dividendLo >>> UInt64.ofNat (64 - s))
    let u0 := if s = 0 then dividendLo else dividendLo <<< UInt64.ofNat s
    let dHi := (d >>> 32).toUInt32.toUInt64
    let dLo := d.toUInt32.toUInt64
    let uHi := (u2 <<< 32) ||| (u1 >>> 32)
    let q1 := correctDigit dHi dLo u1 2 (uHi / dHi) (uHi % dHi)
    let prod := umul128 q1 d
    let remHi := u2 - prod.1
    let remLo := u1 - prod.2
    let remHi := if u1 < prod.2 then remHi - 1 else remHi
    let negative := remHi &&& 0x8000000000000000 != 0
    let q1 := if negative then q1 - 1 else q1
    let remLo := if negative then remLo + d else remLo
    let uHi := remLo >>> 32
    let q0 := correctDigit dHi dLo remLo 2 (uHi / dHi) (uHi % dHi)
    let prod := umul128 q0 d
    let remMidHi := 0 - prod.1
    let remMidLo := remLo - prod.2
    let remMidHi := if remLo < prod.2 then remMidHi - 1 else remMidHi
    let negative := remMidHi &&& 0x8000000000000000 != 0
    let q0 := if negative then q0 - 1 else q0
    let remMidLo := if negative then remMidLo + d else remMidLo
    ((q1 <<< 32) ||| q0, if s > 0 then (remMidLo <<< UInt64.ofNat (64 - s)) ||| (u0 >>> UInt64.ofNat s) else u0)

end Intrinsic

open Intrinsic

/-! ### Unsigned numbers -/

structure Uint128 where
  hi : UInt64
  lo : UInt64
  deriving DecidableEq, Repr

namespace Uint128

/-- The number that the halves stand for. -/
def toNat (a : Uint128) : ℕ := a.hi.toNat * 2 ^ 64 + a.lo.toNat

def zero : Uint128 := ⟨0, 0⟩

def lessThan (a rhs : Uint128) : Bool := a.hi < rhs.hi || (a.hi = rhs.hi && a.lo < rhs.lo)

def negation (a : Uint128) : Uint128 := ⟨~~~a.hi + (if a.lo = 0 then 1 else 0), ~~~a.lo + 1⟩

/-- `operator+=` -/
def add (a other : Uint128) : Uint128 :=
  let low := addcarryU64 0 a.lo other.lo
  ⟨(addcarryU64 low.1 a.hi other.hi).2, low.2⟩

/-- `operator-=` -/
def sub (a other : Uint128) : Uint128 :=
  let low := subborrowU64 0 a.lo other.lo
  ⟨(subborrowU64 low.1 a.hi other.hi).2, low.2⟩

/-- `operator<<=` with 1. -/
def shiftLeftOne (a : Uint128) : Uint128 := ⟨(a.hi <<< 1) ||| (a.lo >>> 63), a.lo <<< 1⟩

/-- `mul128`; the carry out of the first sum of upper halves goes into the second one. -/
def mul128 (a b : Uint128) : Uint128 :=
  let result := umul128 a.lo b.lo
  let t1 := umul128 a.lo b.hi
  let t2 := umul128 a.hi b.lo
  let carryHi := addcarryU64 0 result.1 t1.2
  ⟨(addcarryU64 carryHi.1 carryHi.2 t2.2).2, result.2⟩

/-- `div64`: the quotient and the remainder. -/
def div64 (a : Uint128) (divisor : UInt64) : UInt64 × UInt64 :=
  if a.hi = 0 then (a.lo / divisor, a.lo % divisor) else udiv128 a.hi a.lo divisor

/-- Bit `i` of the dividend. -/
def bit (a : Uint128) (i : ℕ) : UInt64 :=
  if i ≥ 64 then (a.hi >>> UInt64.ofNat (i - 64)) &&& 1 else (a.lo >>> UInt64.ofNat i) &&& 1

/-- The quotient with bit `i` set. -/
def setBit (a : Uint128) (i : ℕ) : Uint128 :=
  if i ≥ 64 then { a with hi := a.hi ||| (1 <<< UInt64.ofNat (i - 64)) }
  else { a with lo := a.lo ||| (1 <<< UInt64.ofNat i) }

/-- The loop of `divmod128` over the bits below `n`. -/
def divLoop (dividend divisor : Uint128) : ℕ → Uint128 → Uint128 → Uint128 × Uint128
  | 0, quotient, remainder => (quotient, remainder)
  | i + 1, quotient, remainder =>
      let shifted := remainder.shiftLeftOne
      let remainder := { shifted with lo := shifted.lo ||| dividend.bit i }
      if !remainder.lessThan divisor then divLoop dividend divisor i (quotient.setBit i) (remainder.sub divisor)
      else divLoop dividend divisor i quotient remainder

/-- `divmod128`: the quotient and the remainder, or an exception. -/
def divmod128 (dividend divisor : Uint128) : Option (Uint128 × Uint128) :=
  if divisor = zero then none
  else if divisor = ⟨0, 1⟩ then some (dividend, zero)
  else if dividend.lessThan divisor then some (zero, dividend)
  else
    let bits :=
      if dividend.hi ≠ 0 then 128 - clz64 dividend.hi
      else if dividend.lo ≠ 0 then 64 - clz64 dividend.lo
      else 0
    some (divLoop dividend divisor bits zero zero)

end Uint128

/-! ### Signed numbers -/

/-- The bits of an `int128_t`. -/
abbrev Int128 := Uint128

namespace Int128

def isNegative (a : Int128) : Bool := a.hi ≥ 0x8000000000000000

/-- The number in two's complement. -/
def toInt (a : Int128) : ℤ := if isNegative a then (a.toNat : ℤ) - 2 ^ 128 else a.toNat

/-- `operator/=` -/
def div (a other : Int128) : Option Int128 :=
  if other = Uint128.zero then none
  else do
    let negA := isNegative a
    let negB := isNegative other
    let absA := if negA then a.negation else a
    let absB := if negB then other.negation else other
    let (q, _) ← absA.divmod128 absB
    some (if negA ^^ negB then q.negation else q)

/-- `operator%=` -/
def mod (a other : Int128) : Option Int128 :=
  if other = Uint128.zero then none
  else do
    let negA := isNegative a
    let absA := if negA then a.negation else a
    let absB := if isNegative other then other.negation else other
    let (_, r) ← absA.divmod128 absB
    some (if negA then r.negation else r)

end Int128

end NeForce
