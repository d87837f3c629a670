import Mathlib
import NeForce.Aes256Modes
import NeForce.Carryless

/-! # GHASH by carry-less multiplication

The multiplication of a build with PCLMUL and the one bit by bit compute the product of polynomials modulo
`x ^ 128 + x ^ 7 + x ^ 2 + x + 1`.  The bits are reflected: the highest one is the constant coefficient, so that a state
is `x ^ 127` times its number at the inverse of `x`. -/

namespace NeForce.Aes256

/-- `_mm_clmulepi64_si128`: the lowest bits of the halves of the immediate choose a half of each operand. -/
def clmulepi64 (a b : Hash) (imm : ℕ) : Hash :=
  let p := clmul 64 (if imm.testBit 0 then a.1 else a.2).toNat (if imm.testBit 4 then b.1 else b.2).toNat
  (.ofNat (p / 2 ^ 64), .ofNat p)

def xorHash (a b : Hash) : Hash := (a.1 ^^^ b.1, a.2 ^^^ b.2)

def andHash (a b : Hash) : Hash := (a.1 &&& b.1, a.2 &&& b.2)

/-- `_mm_srli_si128` by eight bytes. -/
def srli8 (v : Hash) : Hash := (0, v.1)

/-- `_mm_slli_si128` by eight bytes. -/
def slli8 (v : Hash) : Hash := (v.2, 0)

/-- `_mm_cvtsi128_si64`. -/
def lowWord (v : Hash) : UInt64 := v.2

def ghashReduce (q : Hash) : Hash :=
  let qLo := lowWord q
  let qHi := lowWord (srli8 q)
  let u := qLo &&& 0x3F
  let tLo := qLo ^^^ (qLo <<< 1 ||| qHi >>> 63) ^^^ (qLo >>> 1 ||| qHi <<< 63) ^^^ (qLo >>> 6 ||| qHi <<< 58)
  let tHi := qHi ^^^ (qHi <<< 1 ||| qLo >>> 63) ^^^ (qHi >>> 1) ^^^ (qHi >>> 6)
  let foldHi := (u <<< 51) ^^^ (u <<< 56) ^^^ (u <<< 57) ^^^ (u <<< 58) ^^^ (if u &&& 1 ≠ 0 then 0xE100000000000000 else 0)
  (tHi ^^^ foldHi, tLo)

def ghashMult (a b : Hash) : Hash :=
  let maskLo : Hash := (0, 0xFFFFFFFFFFFFFFFF)
  let aLo := andHash a maskLo
  let aHi := srli8 a
  let bLo := andHash b maskLo
  let bHi := srli8 b
  let p0 := clmulepi64 a b 0x00
  let p3 := clmulepi64 a b 0x11
  let mid := xorHash (xorHash (clmulepi64 (xorHash aLo aHi) (xorHash bLo bHi) 0x00) p0) p3
  let pLo := xorHash p0 (slli8 mid)
  let pHi := xorHash p3 (srli8 mid)
  let pLoHi := lowWord (srli8 pLo)
  let pHiLo := lowWord pHi
  let pHiHi := lowWord (srli8 pHi)
  let resLo := (pLoHi >>> 63) ||| (pHiLo <<< 1)
  let resHi := (pHiLo >>> 63) ||| (pHiHi <<< 1)
  let q := andHash pLo (0x7FFFFFFFFFFFFFFF, 0xFFFFFFFFFFFFFFFF)
  xorHash (resHi, resLo) (ghashReduce q)

/-! ### Values -/

section Values

variable {R : Type*} [CommRing R] {x y : R}

variable (y) in
/-- The number of a state at `y`. -/
def hashValue (v : Hash) : R := bitValue y v.2.toNat + y ^ 64 * bitValue y v.1.toNat

/-- A word of the low bits of `hi` above the high bits of `lo`. -/
theorem toNat_funnel (hi lo : UInt64) {k : ℕ} (hk : 0 < k) (hk' : k < 64) :
    (lo >>> .ofNat k ||| hi <<< .ofNat (64 - k)).toNat = lo.toNat / 2 ^ k + 2 ^ (64 - k) * (hi.toNat % 2 ^ k) := by
  have hlow : lo.toNat / 2 ^ k < 2 ^ (64 - k) := by
    refine Nat.div_lt_of_lt_mul ?_
    rw [← Nat.pow_add, Nat.add_sub_cancel' hk'.le]
    exact lo.toNat_lt
  have hshift : (hi.toNat * 2 ^ (64 - k)) % 2 ^ 64 = 2 ^ (64 - k) * (hi.toNat % 2 ^ k) := by
    conv_lhs => rw [Nat.mul_comm, show 2 ^ 64 = 2 ^ (64 - k) * 2 ^ k by rw [← Nat.pow_add, Nat.sub_add_cancel hk'.le]]
    exact Nat.mul_mod_mul_left _ _ _
  have hmod {j : ℕ} (hj : j < 64) : (UInt64.ofNat j).toNat % 64 = j := by
    rw [UInt64.toNat_ofNat']
    omega
  rw [UInt64.toNat_or, UInt64.toNat_shiftRight, UInt64.toNat_shiftLeft, hmod hk', hmod (by omega), Nat.shiftRight_eq_div_pow,
    Nat.shiftLeft_eq, hshift, Nat.or_comm, ← Nat.two_pow_add_eq_or_of_lt hlow, Nat.add_comm]

variable (y) in
theorem bitValue_funnel (hi lo : UInt64) {k : ℕ} (hk : 0 < k) (hk' : k < 64) :
    bitValue y (lo >>> .ofNat k ||| hi <<< .ofNat (64 - k)).toNat =
      bitValue y (lo.toNat / 2 ^ k) + y ^ (64 - k) * bitValue y (hi.toNat % 2 ^ k) := by
  have hlow : lo.toNat / 2 ^ k < 2 ^ (64 - k) := by
    refine Nat.div_lt_of_lt_mul ?_
    rw [← Nat.pow_add, Nat.add_sub_cancel' hk'.le]
    exact lo.toNat_lt
  rw [toNat_funnel hi lo hk hk', bitValue_add_mul y hlow]

/-- A state shifted to the right by `k` bits, those of `hi` moving into `lo`. -/
theorem hashValue_shiftRight (hi lo : UInt64) {k : ℕ} (hk : 0 < k) (hk' : k < 64) :
    y ^ k * hashValue y (hi >>> .ofNat k, lo >>> .ofNat k ||| hi <<< .ofNat (64 - k)) =
      hashValue y (hi, lo) - bitValue y (lo.toNat % 2 ^ k) := by
  have hshift : (hi >>> .ofNat k).toNat = hi.toNat / 2 ^ k := by
    rw [UInt64.toNat_shiftRight, UInt64.toNat_ofNat', Nat.shiftRight_eq_div_pow]
    congr 2
    omega
  have hpow : y ^ 64 = y ^ k * y ^ (64 - k) := by rw [← pow_add, Nat.add_sub_cancel' hk'.le]
  simp only [hashValue]
  rw [bitValue_funnel y hi lo hk hk', hshift, bitValue_split y k hi.toNat, bitValue_split y k lo.toNat, hpow]
  ring

/-- A word moved to the left by less than its free bits. -/
theorem bitValue_shl {w : UInt64} {k : ℕ} (hk : k < 64) (hw : w.toNat < 2 ^ (64 - k)) :
    bitValue y (w <<< .ofNat k).toNat = y ^ k * bitValue y w.toNat := by
  have hlt : w.toNat <<< k < 2 ^ 64 := by
    rw [Nat.shiftLeft_eq, show 2 ^ 64 = 2 ^ (64 - k) * 2 ^ k by rw [← Nat.pow_add, Nat.sub_add_cancel hk.le]]
    exact Nat.mul_lt_mul_of_pos_right hw (Nat.two_pow_pos k)
  have hmod : (UInt64.ofNat k).toNat % 64 = k := by
    rw [UInt64.toNat_ofNat']
    omega
  rw [UInt64.toNat_shiftLeft, hmod, Nat.mod_eq_of_lt hlt, bitValue_shiftLeft]

variable [CharP R 2]

theorem hashValue_xor (a b : Hash) : hashValue y (xorHash a b) = hashValue y a + hashValue y b := by
  simp only [hashValue, xorHash, UInt64.toNat_xor, bitValue_xor]
  ring

/-- The constant that stands for `x` to the power of 128. -/
theorem bitValue_fold : bitValue y (0xE100000000000000 : UInt64).toNat = y ^ 56 * (1 + y ^ 5 + y ^ 6 + y ^ 7) := by
  have hfold : (0xE100000000000000 : UInt64).toNat = (1 ^^^ 1 <<< 5 ^^^ 1 <<< 6 ^^^ 1 <<< 7) <<< 56 := by decide
  rw [hfold, bitValue_shiftLeft, bitValue_xor, bitValue_xor, bitValue_xor, bitValue_shiftLeft, bitValue_shiftLeft,
    bitValue_shiftLeft, bitValue_one]
  ring

omit [CharP R 2] in
theorem pow_cancel (hxy : x * y = 1) (m n : ℕ) : y ^ (m + n) * x ^ n = y ^ m := by
  rw [pow_add, mul_assoc, ← mul_pow, mul_comm y x, hxy, one_pow, mul_one]

omit [CharP R 2] in
theorem pow_fold (hxy : x * y = 1) (hx : x ^ 128 = x ^ 7 + x ^ 2 + x + 1) :
    x ^ 127 = x ^ 6 + x + 1 + y ∧ y ^ 115 + y ^ 120 + y ^ 121 + y ^ 122 = x ^ 6 ∧
    y ^ 120 + y ^ 125 + y ^ 126 + y ^ 127 = x := by
  have hyx : y * x = 1 := by rw [mul_comm, hxy]
  have hswap (m n : ℕ) : x ^ (m + n) * y ^ n = x ^ m := pow_cancel hyx m n
  refine ⟨?_, ?_, ?_⟩
  · have h1 := hswap 127 1
    have h7 := hswap 6 1
    have h2 := hswap 1 1
    linear_combination -h1 + y * hx + h7 + h2 + hxy
  · have h7 := pow_cancel hxy 115 7
    have h2 := pow_cancel hxy 120 2
    have h1 := pow_cancel hxy 121 1
    have h128 := hswap 6 122
    linear_combination -h7 - h2 - h1 + h128 - y ^ 122 * hx
  · have h7 := pow_cancel hxy 120 7
    have h2 := pow_cancel hxy 125 2
    have h1 := pow_cancel hxy 126 1
    have h128 := hswap 1 127
    linear_combination -h7 - h2 - h1 + h128 - y ^ 127 * hx

end Values

/-! ### The reduction -/

/-- The bits that the shifts to the right lose. -/
theorem bitValue_lost {R : Type*} [CommRing R] (y : R) (w : UInt64) :
    bitValue y (w.toNat % 2) = if w &&& 1 ≠ 0 then 1 else 0 := by
  have hbit : (w &&& 1 ≠ 0) ↔ w.toNat % 2 = 1 := by
    rw [ne_eq, ← UInt64.toNat_inj, UInt64.toNat_and, show (1 : UInt64).toNat = 2 ^ 1 - 1 from rfl,
      Nat.and_two_pow_sub_one_eq_mod]
    show ¬ w.toNat % 2 = 0 ↔ _
    omega
  rcases Nat.mod_two_eq_zero_or_one w.toNat with h0 | h1
  · rw [if_neg (by rw [hbit]; omega), h0, bitValue_zero]
  · rw [if_pos (hbit.mpr h1), h1, bitValue_one]

/-- The product of 127 bits of the upper half leaves the highest bit of a state free. -/
theorem clmulepi64_lt (a b : Hash) (imm : ℕ) : (clmulepi64 a b imm).1.toNat < 2 ^ 63 := by
  have hlt := clmul_lt 64 (if imm.testBit 0 then a.1 else a.2).toNat
    (b := (if imm.testBit 4 then b.1 else b.2).toNat) (k := 63) (UInt64.toNat_lt _)
  rw [clmulepi64, UInt64.toNat_ofNat']
  omega

theorem and_ones (w : UInt64) : w &&& 0xFFFFFFFFFFFFFFFF = w := by
  refine UInt64.toNat_inj.mp ?_
  rw [UInt64.toNat_and, show (0xFFFFFFFFFFFFFFFF : UInt64).toNat = 2 ^ 64 - 1 from rfl, Nat.and_two_pow_sub_one_eq_mod,
    Nat.mod_eq_of_lt w.toNat_lt]

section Reduction

variable {R : Type*} [CommRing R] [CharP R 2] {x y : R} (hxy : x * y = 1) (hx : x ^ 128 = x ^ 7 + x ^ 2 + x + 1)
include hxy hx

/-- The fold of 127 bits. -/
theorem hashValue_ghashReduce {q : Hash} (hq : q.1.toNat < 2 ^ 63) :
    hashValue y (ghashReduce q) = x ^ 127 * hashValue y q := by
  obtain ⟨hi, lo⟩ := q
  dsimp only at hq
  obtain ⟨h127, h6, h1⟩ := pow_fold hxy hx
  have hyx : y * x = 1 := by rw [mul_comm, hxy]
  -- one bit to the left; nothing is lost, and nothing comes from above
  have hleft : hashValue y (hi <<< 1 ||| lo >>> 63, lo <<< 1 ||| hi >>> 63) = y * hashValue y (hi, lo) := by
    have hhigh : bitValue y (hi <<< 1 ||| lo >>> 63).toNat =
        bitValue y (lo.toNat / 2 ^ 63) + y ^ 1 * bitValue y (hi.toNat % 2 ^ 63) := by
      rw [UInt64.or_comm]
      exact bitValue_funnel y hi lo (by decide) (by decide)
    have hlow : bitValue y (lo <<< 1 ||| hi >>> 63).toNat =
        bitValue y (hi.toNat / 2 ^ 63) + y ^ 1 * bitValue y (lo.toNat % 2 ^ 63) := by
      rw [UInt64.or_comm]
      exact bitValue_funnel y lo hi (by decide) (by decide)
    rw [Nat.mod_eq_of_lt hq] at hhigh
    rw [Nat.div_eq_of_lt hq, bitValue_zero, zero_add] at hlow
    simp only [hashValue]
    rw [hhigh, hlow, bitValue_split y 63 lo.toNat]
    ring
  have hone : y * hashValue y (hi >>> 1, lo >>> 1 ||| hi <<< 63) = hashValue y (hi, lo) - bitValue y (lo.toNat % 2) := by
    have h := hashValue_shiftRight (y := y) hi lo (k := 1) (by decide) (by decide)
    rwa [pow_one] at h
  have hsix : y ^ 6 * hashValue y (hi >>> 6, lo >>> 6 ||| hi <<< 58) =
      hashValue y (hi, lo) - bitValue y (lo.toNat % 2 ^ 6) :=
    hashValue_shiftRight hi lo (by decide) (by decide)
  -- the low six bits, moved up
  set u := lo &&& 0x3F with hu
  have hutoNat : u.toNat = lo.toNat % 2 ^ 6 := by
    rw [hu, UInt64.toNat_and, show (0x3F : UInt64).toNat = 2 ^ 6 - 1 from rfl, Nat.and_two_pow_sub_one_eq_mod]
  have hult : u.toNat < 2 ^ 6 := by
    rw [hutoNat]
    exact Nat.mod_lt _ (by decide)
  have hup {k : ℕ} (hk : k ≤ 58) : bitValue y (u <<< .ofNat k).toNat = y ^ k * bitValue y (lo.toNat % 2 ^ 6) := by
    rw [← hutoNat]
    exact bitValue_shl (by omega) (hult.trans_le (Nat.pow_le_pow_right (by decide) (by omega)))
  have hubit : bitValue y (lo.toNat % 2) = if u &&& 1 ≠ 0 then 1 else 0 := by
    rw [← bitValue_lost y u, hutoNat, Nat.mod_mod_of_dvd _ (by decide)]
  have hfold : bitValue y ((u <<< 51) ^^^ (u <<< 56) ^^^ (u <<< 57) ^^^ (u <<< 58) ^^^
      (if u &&& 1 ≠ 0 then 0xE100000000000000 else 0)).toNat =
        (y ^ 51 + y ^ 56 + y ^ 57 + y ^ 58) * bitValue y (lo.toNat % 2 ^ 6) +
          y ^ 56 * (1 + y ^ 5 + y ^ 6 + y ^ 7) * bitValue y (lo.toNat % 2) := by
    have hconst : bitValue y (if u &&& 1 ≠ 0 then 0xE100000000000000 else 0 : UInt64).toNat =
        y ^ 56 * (1 + y ^ 5 + y ^ 6 + y ^ 7) * bitValue y (lo.toNat % 2) := by
      rw [hubit]
      split_ifs
      · rw [bitValue_fold, mul_one]
      · rw [UInt64.toNat_zero, bitValue_zero, mul_zero]
    have h51 : bitValue y (u <<< 51).toNat = _ := hup (k := 51) (by decide)
    have h56 : bitValue y (u <<< 56).toNat = _ := hup (k := 56) (by decide)
    have h57 : bitValue y (u <<< 57).toNat = _ := hup (k := 57) (by decide)
    have h58 : bitValue y (u <<< 58).toNat = _ := hup (k := 58) (by decide)
    simp only [UInt64.toNat_xor, bitValue_xor]
    rw [hconst, h51, h56, h57, h58]
    ring
  have hsum : hashValue y (ghashReduce (hi, lo)) =
      hashValue y (hi, lo) + hashValue y (hi <<< 1 ||| lo >>> 63, lo <<< 1 ||| hi >>> 63) +
        hashValue y (hi >>> 1, lo >>> 1 ||| hi <<< 63) + hashValue y (hi >>> 6, lo >>> 6 ||| hi <<< 58) +
        y ^ 64 * bitValue y ((u <<< 51) ^^^ (u <<< 56) ^^^ (u <<< 57) ^^^ (u <<< 58) ^^^
          (if u &&& 1 ≠ 0 then 0xE100000000000000 else 0)).toNat := by
    simp only [ghashReduce, lowWord, srli8, hashValue, UInt64.toNat_xor, bitValue_xor, ← hu]
    ring
  rw [hsum, hleft, hfold]
  have hx6 : x ^ 6 * y ^ 6 = 1 := by rw [← mul_pow, hxy, one_pow]
  set q := hashValue y (hi, lo)
  set v1 := hashValue y (hi >>> 1, lo >>> 1 ||| hi <<< 63)
  set v6 := hashValue y (hi >>> 6, lo >>> 6 ||| hi <<< 58)
  set b := bitValue y (lo.toNat % 2)
  set w := bitValue y (lo.toNat % 2 ^ 6)
  have hv1 : v1 = x * (q - b) := by linear_combination x * hone - v1 * hxy
  have hv6 : v6 = x ^ 6 * (q - w) := by linear_combination x ^ 6 * hsix - v6 * hx6
  rw [hv1, hv6]
  linear_combination w * h6 + b * h1 - q * h127

/-! ### The product -/

omit hxy hx in
theorem hashValue_clmulepi64 (a b : Hash) (imm : ℕ) :
    hashValue y (clmulepi64 a b imm) =
      bitValue y (if imm.testBit 0 then a.1 else a.2).toNat * bitValue y (if imm.testBit 4 then b.1 else b.2).toNat := by
  set u := (if imm.testBit 0 then a.1 else a.2)
  set v := (if imm.testBit 4 then b.1 else b.2)
  have hlt := clmul_lt 64 u.toNat (b := v.toNat) (k := 63) v.toNat_lt
  have hhigh : (UInt64.ofNat (clmul 64 u.toNat v.toNat / 2 ^ 64)).toNat = clmul 64 u.toNat v.toNat / 2 ^ 64 := by
    rw [UInt64.toNat_ofNat']
    omega
  rw [← bitValue_clmul y u.toNat_lt, hashValue, clmulepi64]
  dsimp only
  rw [hhigh, UInt64.toNat_ofNat', ← bitValue_split y 64]

/-- The product of two states, moved by 127 bits and folded. -/
theorem hashValue_ghashMult (a b : Hash) :
    hashValue y (ghashMult a b) = x ^ 127 * (hashValue y a * hashValue y b) := by
  set p0 := clmulepi64 a b 0x00 with hp0
  set p3 := clmulepi64 a b 0x11 with hp3
  set mid := xorHash (xorHash (clmulepi64 (xorHash (andHash a (0, 0xFFFFFFFFFFFFFFFF)) (srli8 a))
    (xorHash (andHash b (0, 0xFFFFFFFFFFFFFFFF)) (srli8 b)) 0x00) p0) p3 with hmid
  set pLo := xorHash p0 (slli8 mid) with hpLo
  set pHi := xorHash p3 (srli8 mid) with hpHi
  have hmult : ghashMult a b = xorHash (pHi.2 >>> 63 ||| pHi.1 <<< 1, pLo.1 >>> 63 ||| pHi.2 <<< 1)
      (ghashReduce (andHash pLo (0x7FFFFFFFFFFFFFFF, 0xFFFFFFFFFFFFFFFF))) := rfl
  -- the 255 bits of the product, by halves
  have hv0 : hashValue y p0 = bitValue y a.2.toNat * bitValue y b.2.toNat := hashValue_clmulepi64 a b 0x00
  have hv3 : hashValue y p3 = bitValue y a.1.toNat * bitValue y b.1.toNat := hashValue_clmulepi64 a b 0x11
  have hvmid : hashValue y mid = (bitValue y a.2.toNat + bitValue y a.1.toNat) * (bitValue y b.2.toNat + bitValue y b.1.toNat) +
      hashValue y p0 + hashValue y p3 := by
    have hhalf (v : Hash) : bitValue y (xorHash (andHash v (0, 0xFFFFFFFFFFFFFFFF)) (srli8 v)).2.toNat =
        bitValue y v.2.toNat + bitValue y v.1.toNat := by
      show bitValue y ((v.2 &&& 0xFFFFFFFFFFFFFFFF) ^^^ v.1).toNat = _
      rw [and_ones, UInt64.toNat_xor, bitValue_xor]
    rw [hmid, hashValue_xor, hashValue_xor, hashValue_clmulepi64]
    exact congrArg (· + _ + _) (congrArg₂ _ (hhalf a) (hhalf b))
  have hwhole : hashValue y pLo + y ^ 128 * hashValue y pHi = hashValue y a * hashValue y b := by
    have hup : hashValue y (slli8 mid) + y ^ 128 * hashValue y (srli8 mid) = y ^ 64 * hashValue y mid := by
      simp only [hashValue, slli8, srli8, UInt64.toNat_zero, bitValue_zero]
      ring
    have ha : hashValue y a = bitValue y a.2.toNat + y ^ 64 * bitValue y a.1.toNat := rfl
    have hb : hashValue y b = bitValue y b.2.toNat + y ^ 64 * bitValue y b.1.toNat := rfl
    rw [hpLo, hpHi, hashValue_xor, hashValue_xor, ha, hb]
    linear_combination hup + y ^ 64 * hvmid + (1 + y ^ 64) * hv0 + (y ^ 64 + y ^ 128) * hv3 +
      y ^ 64 * (bitValue y a.2.toNat * bitValue y b.2.toNat + bitValue y a.1.toNat * bitValue y b.1.toNat) *
        CharTwo.two_eq_zero (R := R)
  -- the upper 128 bits and the lower 127 bits
  have hfree : pHi.1.toNat < 2 ^ 63 := by
    have h : pHi.1 = p3.1 ^^^ 0 := rfl
    rw [h, UInt64.xor_zero]
    exact clmulepi64_lt a b 0x11
  have hand : (pLo.1 &&& 0x7FFFFFFFFFFFFFFF).toNat = pLo.1.toNat % 2 ^ 63 := by
    rw [UInt64.toNat_and, show (0x7FFFFFFFFFFFFFFF : UInt64).toNat = 2 ^ 63 - 1 from rfl, Nat.and_two_pow_sub_one_eq_mod]
  have hreduced : hashValue y (ghashReduce (andHash pLo (0x7FFFFFFFFFFFFFFF, 0xFFFFFFFFFFFFFFFF))) =
      x ^ 127 * (bitValue y pLo.2.toNat + y ^ 64 * bitValue y (pLo.1.toNat % 2 ^ 63)) := by
    rw [hashValue_ghashReduce hxy hx (hand.trans_lt (Nat.mod_lt _ (by decide)))]
    simp only [hashValue, andHash, and_ones, hand]
  have hupper : hashValue y (pHi.2 >>> 63 ||| pHi.1 <<< 1, pLo.1 >>> 63 ||| pHi.2 <<< 1) =
      bitValue y (pLo.1.toNat / 2 ^ 63) + y * hashValue y pHi := by
    have hlow : bitValue y (pLo.1 >>> 63 ||| pHi.2 <<< 1).toNat =
        bitValue y (pLo.1.toNat / 2 ^ 63) + y ^ 1 * bitValue y (pHi.2.toNat % 2 ^ 63) :=
      bitValue_funnel y pHi.2 pLo.1 (by decide) (by decide)
    have hhigh : bitValue y (pHi.2 >>> 63 ||| pHi.1 <<< 1).toNat =
        bitValue y (pHi.2.toNat / 2 ^ 63) + y ^ 1 * bitValue y (pHi.1.toNat % 2 ^ 63) :=
      bitValue_funnel y pHi.1 pHi.2 (by decide) (by decide)
    rw [Nat.mod_eq_of_lt hfree] at hhigh
    simp only [hashValue]
    rw [hlow, hhigh, bitValue_split y 63 pHi.2.toNat]
    ring
  have hpow : x ^ 127 * y ^ 127 = 1 := by rw [← mul_pow, hxy, one_pow]
  rw [hmult, hashValue_xor, hreduced, hupper, ← hwhole, hashValue, hashValue, bitValue_split y 63 pLo.1.toNat]
  linear_combination (-(bitValue y (pLo.1.toNat / 2 ^ 63)) - y * (bitValue y pHi.2.toNat + y ^ 64 * bitValue y pHi.1.toNat)) * hpow

/-! ### Bit by bit -/

/-- A step of the loop multiplies by `x`. -/
theorem hashValue_step (v : Hash) :
    hashValue y (if v.2 &&& 1 ≠ 0 then v.1 >>> 1 ^^^ 0xE100000000000000 else v.1 >>> 1, v.2 >>> 1 ||| v.1 <<< 63) =
      x * hashValue y v := by
  obtain ⟨hi, lo⟩ := v
  obtain ⟨-, -, h1⟩ := pow_fold hxy hx
  have hone : y * hashValue y (hi >>> 1, lo >>> 1 ||| hi <<< 63) = hashValue y (hi, lo) - bitValue y (lo.toNat % 2) := by
    have h := hashValue_shiftRight (y := y) hi lo (k := 1) (by decide) (by decide)
    rwa [pow_one] at h
  have hlost := bitValue_lost y lo
  set v := hashValue y (hi >>> 1, lo >>> 1 ||| hi <<< 63) with hv
  dsimp only
  split_ifs with hbit
  · rw [if_pos hbit] at hlost
    have hfold : hashValue y (hi >>> 1 ^^^ 0xE100000000000000, lo >>> 1 ||| hi <<< 63) =
        v + y ^ 64 * (y ^ 56 * (1 + y ^ 5 + y ^ 6 + y ^ 7)) := by
      rw [hv]
      simp only [hashValue]
      rw [UInt64.toNat_xor, bitValue_xor, bitValue_fold]
      ring
    rw [hfold]
    rw [hlost] at hone
    linear_combination x * hone - v * hxy + h1
  · rw [if_neg hbit] at hlost
    rw [hlost] at hone
    linear_combination x * hone - v * hxy

theorem hashValue_gf128Loop (w : UInt64) {n : ℕ} (hn : n ≤ 64) (z v : Hash) :
    x * hashValue y (gf128Loop w n z v).1 = x * hashValue y z + x ^ n * bitValue y (w.toNat % 2 ^ n) * hashValue y v ∧
      hashValue y (gf128Loop w n z v).2 = x ^ n * hashValue y v := by
  induction n generalizing z v with
  | zero =>
      rw [gf128Loop, Nat.pow_zero, Nat.mod_one, bitValue_zero, pow_zero, mul_zero, zero_mul, add_zero, one_mul]
      exact ⟨rfl, rfl⟩
  | succ n ih =>
      have hmod : (UInt64.ofNat n).toNat % 64 = n := by
        rw [UInt64.toNat_ofNat']
        omega
      have hbit : (w >>> .ofNat n &&& 1 ≠ 0) ↔ w.toNat / 2 ^ n % 2 = 1 := by
        rw [ne_eq, ← UInt64.toNat_inj, UInt64.toNat_and, UInt64.toNat_shiftRight, hmod, Nat.shiftRight_eq_div_pow,
          show (1 : UInt64).toNat = 2 ^ 1 - 1 from rfl, Nat.and_two_pow_sub_one_eq_mod]
        show ¬ w.toNat / 2 ^ n % 2 = 0 ↔ _
        omega
      have hsplit : bitValue y (w.toNat % 2 ^ (n + 1)) =
          bitValue y (w.toNat % 2 ^ n) + y ^ n * if w >>> .ofNat n &&& 1 ≠ 0 then 1 else 0 := by
        rw [Nat.pow_succ, Nat.mod_mul, bitValue_add_mul y (Nat.mod_lt _ (Nat.two_pow_pos n))]
        congr 2
        rcases Nat.mod_two_eq_zero_or_one (w.toNat / 2 ^ n) with h0 | h1
        · rw [if_neg (by rw [hbit]; omega), h0, bitValue_zero]
        · rw [if_pos (hbit.mpr h1), h1, bitValue_one]
      have hz : hashValue y (if w >>> .ofNat n &&& 1 ≠ 0 then (z.1 ^^^ v.1, z.2 ^^^ v.2) else z) =
          hashValue y z + (if w >>> .ofNat n &&& 1 ≠ 0 then 1 else 0) * hashValue y v := by
        split_ifs
        · rw [one_mul]
          exact hashValue_xor z v
        · rw [zero_mul, add_zero]
      have hpow : x ^ n * y ^ n = 1 := by rw [← mul_pow, hxy, one_pow]
      obtain ⟨hsum, hlast⟩ := ih (by omega)
        (if w >>> .ofNat n &&& 1 ≠ 0 then (z.1 ^^^ v.1, z.2 ^^^ v.2) else z)
        (if v.2 &&& 1 ≠ 0 then v.1 >>> 1 ^^^ 0xE100000000000000 else v.1 >>> 1, v.2 >>> 1 ||| v.1 <<< 63)
      rw [hashValue_step hxy hx] at hsum hlast
      rw [hz] at hsum
      rw [gf128Loop, hsum, hlast, hsplit]
      constructor
      · set t : R := if w >>> .ofNat n &&& 1 ≠ 0 then 1 else 0
        linear_combination -(x * t * hashValue y v) * hpow
      · ring

theorem hashValue_gf128Multiply (a h : Hash) :
    hashValue y (gf128Multiply a h) = x ^ 127 * (hashValue y a * hashValue y h) := by
  obtain ⟨hsum₁, hlast₁⟩ := hashValue_gf128Loop hxy hx a.1 le_rfl (0, 0) h
  obtain ⟨hsum₂, -⟩ := hashValue_gf128Loop hxy hx a.2 le_rfl (gf128Loop a.1 64 (0, 0) h).1 (gf128Loop a.1 64 (0, 0) h).2
  have hzero : hashValue y ((0, 0) : Hash) = 0 := by
    rw [hashValue, UInt64.toNat_zero, bitValue_zero, mul_zero, add_zero]
  rw [Nat.mod_eq_of_lt a.1.toNat_lt, hzero] at hsum₁
  rw [Nat.mod_eq_of_lt a.2.toNat_lt, hsum₁, hlast₁] at hsum₂
  have hmult : gf128Multiply a h = (gf128Loop a.2 64 (gf128Loop a.1 64 (0, 0) h).1 (gf128Loop a.1 64 (0, 0) h).2).1 := rfl
  have hpow : x ^ 64 * y ^ 64 = 1 := by rw [← mul_pow, hxy, one_pow]
  rw [hmult]
  set r := hashValue y (gf128Loop a.2 64 (gf128Loop a.1 64 (0, 0) h).1 (gf128Loop a.1 64 (0, 0) h).2).1
  rw [hashValue]
  have hcancel : x * r = x * (x ^ 127 * ((bitValue y a.2.toNat + y ^ 64 * bitValue y a.1.toNat) * hashValue y h)) := by
    linear_combination hsum₂ - x ^ 64 * bitValue y a.1.toNat * hashValue y h * hpow
  linear_combination y * hcancel - (r - x ^ 127 * ((bitValue y a.2.toNat + y ^ 64 * bitValue y a.1.toNat) * hashValue y h)) * hxy

end Reduction

/-! ### The field -/

open Polynomial

/-- The number of a state, its high half first. -/
def hashNumber (v : Hash) : ℕ := v.2.toNat + 2 ^ 64 * v.1.toNat

/-- The polynomial of a state: the highest bit is the constant coefficient. -/
noncomputable def hashPolynomial (v : Hash) : (ZMod 2)[X] :=
  ∑ i ∈ Finset.range 128, if (hashNumber v).testBit (127 - i) then X ^ i else 0

noncomputable def modulus : (ZMod 2)[X] := X ^ 128 + X ^ 7 + X ^ 2 + X + 1

theorem modulus_eq : modulus = X ^ 128 + X ^ 7 + X ^ 2 + X + 1 := by
  unfold modulus
  exact Eq.refl _

theorem hashNumber_lt (v : Hash) : hashNumber v < 2 ^ 128 := by
  have h1 := v.1.toNat_lt
  have h2 := v.2.toNat_lt
  unfold hashNumber
  omega

theorem hashNumber_injective : Function.Injective hashNumber := by
  rintro ⟨hi, lo⟩ ⟨hi', lo'⟩ h
  have h1 := lo.toNat_lt
  have h2 := lo'.toNat_lt
  simp only [hashNumber] at h
  have hlow : lo.toNat = lo'.toNat := by omega
  have hhigh : hi.toNat = hi'.toNat := by omega
  rw [UInt64.toNat_inj.mp hlow, UInt64.toNat_inj.mp hhigh]

theorem coeff_hashPolynomial (v : Hash) (m : ℕ) :
    (hashPolynomial v).coeff m = if m < 128 ∧ (hashNumber v).testBit (127 - m) then 1 else 0 := by
  rw [hashPolynomial, finsetSum_coeff]
  have hterm (i : ℕ) : (if (hashNumber v).testBit (127 - i) then X ^ i else 0 : (ZMod 2)[X]).coeff m =
      if m = i then (if (hashNumber v).testBit (127 - m) then 1 else 0) else 0 := by
    by_cases hmi : m = i
    · rw [if_pos hmi, hmi]
      split_ifs <;> simp
    · rw [if_neg hmi]
      split_ifs
      · rw [coeff_X_pow, if_neg hmi]
      · exact coeff_zero m
  simp only [hterm, Finset.sum_ite_eq, Finset.mem_range]
  by_cases hm : m < 128 <;> simp [hm]

theorem hashPolynomial_injective : Function.Injective hashPolynomial := by
  intro v w h
  refine hashNumber_injective (Nat.eq_of_testBit_eq fun j => ?_)
  rcases Nat.lt_or_ge j 128 with hlt | hge
  · have hcoeff := congrArg (fun p => coeff p (127 - j)) h
    simp only [coeff_hashPolynomial, show 127 - j < 128 by omega, show 127 - (127 - j) = j by omega, true_and] at hcoeff
    cases hv : (hashNumber v).testBit j <;> cases hw : (hashNumber w).testBit j <;> simp [hv, hw] at hcoeff ⊢
  · have hpow : 2 ^ 128 ≤ 2 ^ j := Nat.pow_le_pow_right (by decide) hge
    rw [Nat.testBit_lt_two_pow ((hashNumber_lt v).trans_le hpow), Nat.testBit_lt_two_pow ((hashNumber_lt w).trans_le hpow)]

theorem degree_hashPolynomial_lt (v : Hash) : (hashPolynomial v).degree < 128 := by
  refine (degree_lt_iff_coeff_zero _ 128).mpr fun m hm => ?_
  rw [coeff_hashPolynomial, if_neg fun h => absurd h.1 (Nat.not_lt.mpr hm)]

theorem degree_modulus : modulus.degree = 128 := by
  unfold modulus
  compute_degree!

theorem monic_modulus : modulus.Monic := by
  unfold modulus
  monicity!

/-- In the ring of remainders a state is `x ^ 127` times its number at the inverse of `x`. -/
theorem mk_hashPolynomial {y : AdjoinRoot modulus} (hxy : AdjoinRoot.root modulus * y = 1) (v : Hash) :
    AdjoinRoot.mk modulus (hashPolynomial v) = AdjoinRoot.root modulus ^ 127 * hashValue y v := by
  have hvalue : hashValue y v = bitValue y (hashNumber v) := (bitValue_add_mul y v.2.toNat_lt _).symm
  have hyx : y * AdjoinRoot.root modulus = 1 := by rw [mul_comm, hxy]
  rw [hvalue, bitValue_eq_sum y (hashNumber_lt v), Finset.mul_sum, ← Finset.sum_range_reflect, hashPolynomial, map_sum]
  refine Finset.sum_congr rfl fun i hi => ?_
  have hlt := Finset.mem_range.mp hi
  have hpow : AdjoinRoot.root modulus ^ 127 * y ^ (127 - i) = AdjoinRoot.root modulus ^ i := by
    have h := pow_cancel hyx i (127 - i)
    rwa [show i + (127 - i) = 127 by omega] at h
  rw [show 128 - 1 - i = 127 - i by omega]
  split_ifs
  · rw [hpow, map_pow, AdjoinRoot.mk_X]
  · rw [map_zero, mul_zero]

/-- The operands, the states and the data of any length: the carry-less multiplication is the one bit by bit, which is
the multiplication of polynomials modulo the one of GCM. -/
theorem ghashMult_eq_gf128Multiply :
    (∀ a h, ghashMult a h = gf128Multiply a h ∧
        hashPolynomial (gf128Multiply a h) = (hashPolynomial a * hashPolynomial h) %ₘ modulus) ∧
      (∀ h state data, ghashUpdate ghashMult h state data = ghashUpdate gf128Multiply h state data) ∧
      ∀ h state aLen cLen, ghashFinal ghashMult h state aLen cLen = ghashFinal gf128Multiply h state aLen cLen := by
  have hdegree : modulus.degree ≠ 0 := by
    rw [degree_modulus]
    decide
  have : Nontrivial (AdjoinRoot modulus) := AdjoinRoot.nontrivial modulus hdegree
  have : CharP (AdjoinRoot modulus) 2 := charP_of_injective_algebraMap (algebraMap (ZMod 2) (AdjoinRoot modulus)).injective 2
  set x := AdjoinRoot.root modulus
  have hzero : x ^ 128 + x ^ 7 + x ^ 2 + x + 1 = 0 := by
    calc x ^ 128 + x ^ 7 + x ^ 2 + x + 1 = AdjoinRoot.mk modulus (X ^ 128 + X ^ 7 + X ^ 2 + X + 1) := by
          simp only [map_add, map_pow, map_one, AdjoinRoot.mk_X, x]
      _ = AdjoinRoot.mk modulus modulus := congrArg _ modulus_eq.symm
      _ = 0 := AdjoinRoot.mk_self
  have hx : x ^ 128 = x ^ 7 + x ^ 2 + x + 1 := by
    linear_combination hzero - (x ^ 7 + x ^ 2 + x + 1) * CharTwo.two_eq_zero (R := AdjoinRoot modulus)
  have hxy : x * (x ^ 127 + x ^ 6 + x + 1) = 1 := by
    linear_combination hzero - CharTwo.two_eq_zero (R := AdjoinRoot modulus)
  have hclass (a h : Hash) : AdjoinRoot.mk modulus (hashPolynomial (gf128Multiply a h)) =
      AdjoinRoot.mk modulus (hashPolynomial a * hashPolynomial h) := by
    rw [map_mul, mk_hashPolynomial hxy, mk_hashPolynomial hxy, mk_hashPolynomial hxy, hashValue_gf128Multiply hxy hx]
    ring
  have hclass' (a h : Hash) : AdjoinRoot.mk modulus (hashPolynomial (ghashMult a h)) =
      AdjoinRoot.mk modulus (hashPolynomial a * hashPolynomial h) := by
    rw [map_mul, mk_hashPolynomial hxy, mk_hashPolynomial hxy, mk_hashPolynomial hxy, hashValue_ghashMult hxy hx]
    ring
  have hremainder {r : Hash} {p : (ZMod 2)[X]} (h : AdjoinRoot.mk modulus (hashPolynomial r) = AdjoinRoot.mk modulus p) :
      hashPolynomial r = p %ₘ modulus := by
    rw [← modByMonic_eq_of_dvd_sub monic_modulus (AdjoinRoot.mk_eq_mk.mp h)]
    exact ((modByMonic_eq_self_iff monic_modulus).mpr ((degree_hashPolynomial_lt r).trans_eq degree_modulus.symm)).symm
  have hmult : ghashMult = gf128Multiply := by
    funext a h
    exact hashPolynomial_injective ((hremainder (hclass' a h)).trans (hremainder (hclass a h)).symm)
  refine ⟨fun a h => ⟨by rw [hmult], hremainder (hclass a h)⟩, ?_, ?_⟩
  · rw [hmult]
    exact fun _ _ _ => rfl
  · rw [hmult]
    exact fun _ _ _ _ => rfl

end NeForce.Aes256
