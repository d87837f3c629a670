import NeForce.Int128Words

/-! # 128-bit arithmetic

What the portable paths compute, compared with the numbers that the halves stand for.  Sums, differences, negations,
`divmod128` and the signed divisions are exact for all operands.  `mul128` is one too large in its upper half when the
first sum there carries (`toNat_mul128`), and `div64` gives the quotient 0 as soon as the dividend does not fit into its
lower half (`div64_spec_iff`); `portable_agrees_iff` puts all of this together. -/

namespace NeForce.Uint128

open Intrinsic

variable {a b q r dividend divisor : Uint128} {i n : ℕ}

theorem toNat_lt (a : Uint128) : a.toNat < 2 ^ 128 := by
  have h1 := Intrinsic.toNat_lt a.hi
  have h2 := Intrinsic.toNat_lt a.lo
  unfold toNat
  omega

theorem toNat_inj (h : a.toNat = b.toNat) : a = b := by
  have h1 := Intrinsic.toNat_lt a.lo
  have h2 := Intrinsic.toNat_lt b.lo
  unfold toNat at h
  cases a
  cases b
  congr 1
  · exact UInt64.toNat_inj.mp (by dsimp only at *; omega)
  · exact UInt64.toNat_inj.mp (by dsimp only at *; omega)

theorem toNat_add (a b : Uint128) : (a.add b).toNat = (a.toNat + b.toNat) % 2 ^ 128 := by
  obtain ⟨h1, h2⟩ := addcarryU64_spec (c := 0) a.lo b.lo (by decide)
  obtain ⟨h3, -⟩ := addcarryU64_spec a.hi b.hi h2
  have ho1 := Intrinsic.toNat_lt (addcarryU64 0 a.lo b.lo).2
  have ho2 := Intrinsic.toNat_lt (addcarryU64 (addcarryU64 0 a.lo b.lo).1 a.hi b.hi).2
  rw [show (0 : UInt8).toNat = 0 from rfl] at h1
  unfold add toNat
  dsimp only
  omega

theorem toNat_sub (a b : Uint128) : (a.sub b).toNat = (2 ^ 128 + a.toNat - b.toNat) % 2 ^ 128 := by
  obtain ⟨h1, h2⟩ := subborrowU64_spec (c := 0) a.lo b.lo (by decide)
  obtain ⟨h3, -⟩ := subborrowU64_spec a.hi b.hi h2
  have ho1 := Intrinsic.toNat_lt (subborrowU64 0 a.lo b.lo).2
  have ho2 := Intrinsic.toNat_lt (subborrowU64 (subborrowU64 0 a.lo b.lo).1 a.hi b.hi).2
  have hb := toNat_lt b
  rw [show (0 : UInt8).toNat = 0 from rfl] at h1
  unfold toNat at hb
  unfold sub toNat
  dsimp only
  omega

theorem toNat_sub_of_le (h : b.toNat ≤ a.toNat) : (a.sub b).toNat = a.toNat - b.toNat := by
  have ha := toNat_lt a
  rw [toNat_sub]
  omega

theorem lessThan_iff : a.lessThan b = true ↔ a.toNat < b.toNat := by
  have h1 := Intrinsic.toNat_lt a.lo
  have h2 := Intrinsic.toNat_lt b.lo
  unfold lessThan toNat
  rw [Bool.or_eq_true, Bool.and_eq_true, decide_eq_true_iff, decide_eq_true_iff, decide_eq_true_iff,
    UInt64.lt_iff_toNat_lt, UInt64.lt_iff_toNat_lt, ← UInt64.toNat_inj]
  omega

theorem toNat_negation (a : Uint128) : a.negation.toNat = (2 ^ 128 - a.toNat) % 2 ^ 128 := by
  have h1 := Intrinsic.toNat_lt a.lo
  have h2 := Intrinsic.toNat_lt a.hi
  unfold negation toNat
  dsimp only
  by_cases h0 : a.lo = 0
  · rw [if_pos h0, h0, UInt64.toNat_add, UInt64.toNat_add, UInt64.toNat_not, UInt64.toNat_not]
    change ((2 ^ 64 - 1 - a.hi.toNat + 1) % 2 ^ 64) * 2 ^ 64 + (2 ^ 64 - 1 - 0 + 1) % 2 ^ 64 = _
    change _ = (2 ^ 128 - (a.hi.toNat * 2 ^ 64 + 0)) % 2 ^ 128
    omega
  · have hne : a.lo.toNat ≠ 0 := fun h => h0 (UInt64.toNat_inj.mp h)
    rw [if_neg h0, UInt64.toNat_add, UInt64.toNat_add, UInt64.toNat_not, UInt64.toNat_not]
    change ((2 ^ 64 - 1 - a.hi.toNat + 0) % 2 ^ 64) * 2 ^ 64 + (2 ^ 64 - 1 - a.lo.toNat + 1) % 2 ^ 64 = _
    omega

/-! ### Products -/

/-- The carry is added to the upper half. -/
theorem toNat_mul128 (a b : Uint128) : (a.mul128 b).toNat =
    (a.toNat * b.toNat + if 2 ^ 64 ≤ a.lo.toNat * b.lo.toNat / 2 ^ 64 + a.lo.toNat * b.hi.toNat % 2 ^ 64 then 2 ^ 64 else 0) %
      2 ^ 128 := by
  have h0 := umul128_spec a.lo b.lo
  have h1 := umul128_spec a.lo b.hi
  have h2 := umul128_spec a.hi b.lo
  have hprod : a.toNat * b.toNat = a.lo.toNat * b.lo.toNat + 2 ^ 64 * (a.lo.toNat * b.hi.toNat + a.hi.toNat * b.lo.toNat) +
      2 ^ 128 * (a.hi.toNat * b.hi.toNat) := by
    unfold toNat
    ring
  rw [hprod]
  unfold mul128 toNat
  dsimp only
  generalize a.lo.toNat * b.lo.toNat = p0 at *
  generalize a.lo.toNat * b.hi.toNat = p1 at *
  generalize a.hi.toNat * b.lo.toNat = p2 at *
  generalize a.hi.toNat * b.hi.toNat = p3 at *
  generalize umul128 a.lo b.lo = t0 at *
  generalize umul128 a.lo b.hi = t1 at *
  generalize umul128 a.hi b.lo = t2 at *
  have l0 := Intrinsic.toNat_lt t0.1
  have l0' := Intrinsic.toNat_lt t0.2
  have l1 := Intrinsic.toNat_lt t1.2
  have l2 := Intrinsic.toNat_lt t2.2
  obtain ⟨h3, h4⟩ := addcarryU64_spec (c := 0) t0.1 t1.2 (by decide)
  rw [show (0 : UInt8).toNat = 0 from rfl] at h3
  generalize addcarryU64 0 t0.1 t1.2 = s at *
  obtain ⟨h5, h6⟩ := addcarryU64_spec s.2 t2.2 h4
  generalize addcarryU64 s.1 s.2 t2.2 = s' at *
  have l3 := Intrinsic.toNat_lt s.2
  have l4 := Intrinsic.toNat_lt s'.2
  have hcarry : (if 2 ^ 64 ≤ p0 / 2 ^ 64 + p1 % 2 ^ 64 then 2 ^ 64 else 0) = 2 ^ 64 * s.1.toNat := by
    split <;> omega
  have hsum : p0 + 2 ^ 64 * (p1 + p2) + 2 ^ 128 * p3 + 2 ^ 64 * s.1.toNat =
      s'.2.toNat * 2 ^ 64 + t0.2.toNat + 2 ^ 128 * (s'.1.toNat + s.1.toNat + t1.1.toNat + t2.1.toNat + p3) := by
    omega
  rw [hcarry, hsum, Nat.add_mul_mod_self_left, Nat.mod_eq_of_lt (by omega)]

/-! ### Long division -/

theorem toNat_shiftLeftOne (a : Uint128) : a.shiftLeftOne.toNat = 2 * a.toNat % 2 ^ 128 := by
  have h1 := Intrinsic.toNat_lt a.lo
  have h2 := Intrinsic.toNat_lt a.hi
  have hhi : (a.hi <<< 1).toNat = 2 ^ 1 * (a.hi.toNat % 2 ^ 63) := by
    have h : (a.hi <<< UInt64.ofNat 1).toNat = a.hi.toNat * 2 ^ 1 % 2 ^ 64 := toNat_shiftLeft (by decide)
    refine h.trans ?_
    omega
  have hlo : (a.lo <<< 1).toNat = a.lo.toNat * 2 ^ 1 % 2 ^ 64 := toNat_shiftLeft (n := 1) (by decide)
  have htop : a.lo.toNat / 2 ^ 63 < 2 ^ 1 := by omega
  unfold shiftLeftOne toNat
  dsimp only
  rw [UInt64.toNat_or, hhi, toNat_sign, ← Nat.two_pow_add_eq_or_of_lt htop, hlo]
  omega

/-- Bits of the number are bits of its halves. -/
theorem testBit_toNat (a : Uint128) (i : ℕ) :
    a.toNat.testBit i = if i < 64 then a.lo.toNat.testBit i else a.hi.toNat.testBit (i - 64) := by
  rw [toNat, Nat.mul_comm, Nat.testBit_two_pow_mul_add _ (Intrinsic.toNat_lt a.lo)]

theorem toNat_and_one (x : UInt64) (h : n < 64) : ((x >>> UInt64.ofNat n) &&& 1).toNat = (x.toNat.testBit n).toNat := by
  rw [UInt64.toNat_and, toNat_shiftRight h, Nat.testBit_eq_decide_div_mod_eq]
  change x.toNat / 2 ^ n &&& 1 = _
  rw [Nat.and_one_is_mod]
  rcases Nat.mod_two_eq_zero_or_one (x.toNat / 2 ^ n) with h | h <;> rw [h] <;> rfl

theorem toNat_bit (a : Uint128) (h : i < 128) : (a.bit i).toNat = (a.toNat.testBit i).toNat := by
  rw [testBit_toNat, bit]
  by_cases hi : 64 ≤ i
  · rw [if_pos hi, if_neg (by omega), toNat_and_one _ (by omega)]
  · rw [if_neg hi, if_pos (by omega), toNat_and_one _ (by omega)]

/-- A bit is set above zeros only. -/
theorem toNat_or_bit {x : UInt64} (h : n < 64) (hx : 2 ^ (n + 1) ∣ x.toNat) :
    (x ||| (1 <<< UInt64.ofNat n)).toNat = x.toNat + 2 ^ n := by
  obtain ⟨m, hm⟩ := hx
  have hone : ((1 : UInt64) <<< UInt64.ofNat n).toNat = 2 ^ n := by
    rw [toNat_shiftLeft h]
    change 1 * 2 ^ n % 2 ^ 64 = _
    rw [Nat.one_mul, Nat.mod_eq_of_lt (Nat.pow_lt_pow_right (by decide) h)]
  rw [UInt64.toNat_or, hone, hm, ← Nat.two_pow_add_eq_or_of_lt (Nat.pow_lt_pow_right (by decide) (Nat.lt_succ_self n))]

theorem toNat_setBit (h : i < 128) (ha : 2 ^ (i + 1) ∣ a.toNat) : (a.setBit i).toNat = a.toNat + 2 ^ i := by
  have hlo := Intrinsic.toNat_lt a.lo
  unfold setBit
  by_cases hi : 64 ≤ i
  · have hpow : 2 ^ (i + 1) = 2 ^ 64 * 2 ^ (i - 64 + 1) := by rw [← Nat.pow_add]; congr 1; omega
    have hpow' : 2 ^ i = 2 ^ 64 * 2 ^ (i - 64) := by rw [← Nat.pow_add]; congr 1; omega
    obtain ⟨m, hm⟩ := ha
    have hlo0 : a.lo.toNat = 0 := by
      have h64 : 2 ^ 64 ∣ a.toNat := ⟨2 ^ (i - 64 + 1) * m, by rw [hm, hpow, Nat.mul_assoc]⟩
      unfold toNat at h64
      omega
    have hhi : 2 ^ (i - 64 + 1) ∣ a.hi.toNat := by
      refine ⟨m, ?_⟩
      have hm' : 2 ^ 64 * a.hi.toNat = 2 ^ 64 * (2 ^ (i - 64 + 1) * m) := by
        rw [← Nat.mul_assoc, ← hpow, ← hm, toNat, hlo0, Nat.add_zero, Nat.mul_comm]
      exact Nat.eq_of_mul_eq_mul_left (Nat.two_pow_pos 64) hm'
    rw [if_pos hi, toNat, toNat_or_bit (by omega) hhi, hpow', toNat]
    ring
  · have hlow : 2 ^ (i + 1) ∣ a.lo.toNat := by
      have h64 : 2 ^ (i + 1) ∣ a.hi.toNat * 2 ^ 64 := Dvd.dvd.mul_left (Nat.pow_dvd_pow 2 (by omega)) _
      exact (Nat.dvd_add_right h64).mp ha
    rw [if_neg hi, toNat, toNat_or_bit (by omega) hlow, toNat]
    ring

/-- The low bit of an even word. -/
theorem toNat_or_low (a : Uint128) {x : UInt64} (ha : a.toNat % 2 = 0) (hx : x.toNat ≤ 1) :
    toNat { a with lo := a.lo ||| x } = a.toNat + x.toNat := by
  have hlo : a.lo.toNat = 2 ^ 1 * (a.lo.toNat / 2) := by
    unfold toNat at ha
    omega
  have hor : (a.lo ||| x).toNat = a.lo.toNat + x.toNat := by
    rw [UInt64.toNat_or, hlo, ← Nat.two_pow_add_eq_or_of_lt (by omega : x.toNat < 2 ^ 1)]
  unfold toNat
  dsimp only
  rw [hor, Nat.add_assoc]

/-- One more bit of the dividend. -/
theorem div_two_pow (m i : ℕ) : m / 2 ^ i = 2 * (m / 2 ^ (i + 1)) + (m.testBit i).toNat := by
  rw [Nat.testBit_eq_decide_div_mod_eq, Nat.pow_succ, ← Nat.div_div_eq_div_mul]
  rcases Nat.mod_two_eq_zero_or_one (m / 2 ^ i) with h | h
  · rw [h]
    change m / 2 ^ i = 2 * (m / 2 ^ i / 2) + 0
    omega
  · rw [h]
    change m / 2 ^ i = 2 * (m / 2 ^ i / 2) + 1
    omega

/-- Invariant of the loop of `divmod128`: the upper bits of the dividend are divided. -/
structure Dividing (dividend divisor : Uint128) (i : ℕ) (q r : Uint128) : Prop where
  quotient : 2 ^ i ∣ q.toNat
  division : dividend.toNat / 2 ^ i = q.toNat / 2 ^ i * divisor.toNat + r.toNat
  remainder : r.toNat < divisor.toNat

/-- The remainder with the next bit of the dividend. -/
theorem Dividing.next (h : Dividing dividend divisor (i + 1) q r) (hi : i < 128) :
    toNat { r.shiftLeftOne with lo := r.shiftLeftOne.lo ||| dividend.bit i } =
      2 * r.toNat + (dividend.toNat.testBit i).toNat := by
  have hbit := toNat_bit dividend hi
  have hb : (dividend.toNat.testBit i).toNat ≤ 1 := Bool.toNat_le _
  have hdiv := div_two_pow dividend.toNat i
  have hle : dividend.toNat / 2 ^ i ≤ dividend.toNat := Nat.div_le_self _ _
  have hlt := toNat_lt dividend
  have hr : r.toNat ≤ dividend.toNat / 2 ^ (i + 1) := h.division ▸ Nat.le_add_left _ _
  have hdouble : r.shiftLeftOne.toNat = 2 * r.toNat := by
    rw [toNat_shiftLeftOne]
    omega
  rw [toNat_or_low _ (by omega) (by omega), hdouble, hbit]

theorem divLoop_spec (hn : n ≤ 128) (h : Dividing dividend divisor n q r) :
    Dividing dividend divisor 0 (divLoop dividend divisor n q r).1 (divLoop dividend divisor n q r).2 := by
  induction n generalizing q r with
  | zero => exact h
  | succ i ih =>
      have hnext := h.next (by omega)
      have hb : (dividend.toNat.testBit i).toNat ≤ 1 := Bool.toNat_le _
      have hrem := h.remainder
      obtain ⟨m, hm⟩ := h.quotient
      have hq : q.toNat / 2 ^ (i + 1) = m := by rw [hm, Nat.mul_div_cancel_left _ (Nat.two_pow_pos _)]
      have hq' : q.toNat / 2 ^ i = 2 * m := by
        rw [hm, Nat.pow_succ, Nat.mul_assoc, Nat.mul_div_cancel_left _ (Nat.two_pow_pos _)]
      have hdiv : dividend.toNat / 2 ^ i = 2 * m * divisor.toNat + (2 * r.toNat + (dividend.toNat.testBit i).toNat) := by
        rw [div_two_pow, h.division, hq]
        ring
      unfold divLoop
      dsimp only
      split
      · rename_i hge
        have hge : divisor.toNat ≤ 2 * r.toNat + (dividend.toNat.testBit i).toNat := by
          rw [Bool.not_eq_true', ← Bool.not_eq_true, lessThan_iff, hnext] at hge
          omega
        refine ih (by omega) ⟨?_, ?_, ?_⟩
        · rw [toNat_setBit (by omega) h.quotient, hm]
          exact ⟨2 * m + 1, by ring⟩
        · have hset : (q.setBit i).toNat / 2 ^ i = 2 * m + 1 := by
            rw [toNat_setBit (by omega) h.quotient, Nat.add_div_right _ (Nat.two_pow_pos i), hq']
          rw [hset, toNat_sub_of_le (by rw [hnext]; exact hge), hnext, hdiv, Nat.add_mul]
          omega
        · rw [toNat_sub_of_le (by rw [hnext]; exact hge), hnext]
          omega
      · rename_i hlt
        have hlt : 2 * r.toNat + (dividend.toNat.testBit i).toNat < divisor.toNat := by
          rw [Bool.not_eq_true', Bool.not_eq_false, lessThan_iff, hnext] at hlt
          exact hlt
        refine ih (by omega) ⟨?_, ?_, ?_⟩
        · exact (Nat.pow_dvd_pow 2 (Nat.le_succ i)).trans h.quotient
        · rw [hq', hnext, hdiv]
        · rw [hnext]
          exact hlt

theorem toNat_zero : zero.toNat = 0 := rfl

theorem toNat_one : toNat ⟨0, 1⟩ = 1 := rfl

theorem eq_zero_iff : a = zero ↔ a.toNat = 0 :=
  ⟨fun h => by rw [h, toNat_zero], fun h => toNat_inj (h.trans toNat_zero.symm)⟩

/-- `divmod128` looks at all bits of the dividend. -/
theorem exists_bits (a : Uint128) : ∃ bits ≤ 128, a.toNat < 2 ^ bits ∧
    (if a.hi ≠ 0 then 128 - clz64 a.hi else if a.lo ≠ 0 then 64 - clz64 a.lo else 0) = bits := by
  by_cases hhi : a.hi = 0
  · have hhi0 : a.toNat = a.lo.toNat := by
      rw [toNat, hhi]
      exact Nat.zero_add _
    rw [if_neg (not_not.mpr hhi), hhi0]
    by_cases hlo : a.lo = 0
    · have hlo0 : a.lo.toNat = 0 := by rw [hlo]; rfl
      rw [if_neg (not_not.mpr hlo), hlo0]
      exact ⟨0, by omega, Nat.two_pow_pos _, rfl⟩
    · rw [if_pos hlo]
      exact ⟨64 - clz64 a.lo, by omega, lt_two_pow_clz64 hlo, rfl⟩
  · rw [if_pos hhi]
    refine ⟨128 - clz64 a.hi, by omega, ?_, rfl⟩
    have hlo := Intrinsic.toNat_lt a.lo
    have hc := (clz64_normalizes hhi).1
    have hpow : 2 ^ (128 - clz64 a.hi) = 2 ^ (64 - clz64 a.hi) * 2 ^ 64 := by
      rw [← Nat.pow_add]
      congr 1
      omega
    have hmul : (a.hi.toNat + 1) * 2 ^ 64 ≤ 2 ^ (64 - clz64 a.hi) * 2 ^ 64 :=
      Nat.mul_le_mul_right _ (lt_two_pow_clz64 hhi)
    rw [hpow, toNat]
    omega


theorem divmod128_zero (dividend : Uint128) : dividend.divmod128 zero = none := by rw [divmod128, if_pos rfl]

theorem divmod128_one (dividend : Uint128) : dividend.divmod128 ⟨0, 1⟩ = some (dividend, zero) := by
  rw [divmod128, if_neg (by decide), if_pos rfl]

theorem divmod128_lt (h0 : divisor ≠ zero) (h1 : divisor ≠ ⟨0, 1⟩) (h : dividend.lessThan divisor = true) :
    dividend.divmod128 divisor = some (zero, dividend) := by
  rw [divmod128, if_neg h0, if_neg h1, if_pos h]

theorem divmod128_ge (h0 : divisor ≠ zero) (h1 : divisor ≠ ⟨0, 1⟩) (h : ¬ dividend.lessThan divisor = true) :
    ∃ bits ≤ 128, dividend.toNat < 2 ^ bits ∧
      dividend.divmod128 divisor = some (divLoop dividend divisor bits zero zero) := by
  obtain ⟨bits, hle, hlt, he⟩ := exists_bits dividend
  refine ⟨bits, hle, hlt, ?_⟩
  rw [divmod128, if_neg h0, if_neg h1, if_neg h]
  dsimp only
  rw [he]

/-- **`divmod128`** divides by every number but 0. -/
theorem divmod128_spec (dividend : Uint128) (h0 : divisor ≠ zero) : ∃ q r, dividend.divmod128 divisor = some (q, r) ∧
    dividend.toNat = q.toNat * divisor.toNat + r.toNat ∧ r.toNat < divisor.toNat := by
  have hpos : 0 < divisor.toNat := Nat.pos_of_ne_zero fun h => h0 (eq_zero_iff.mpr h)
  by_cases h1 : divisor = ⟨0, 1⟩
  · refine ⟨dividend, zero, h1 ▸ divmod128_one dividend, ?_, ?_⟩
    · rw [h1, toNat_one, toNat_zero, Nat.mul_one, Nat.add_zero]
    · rw [toNat_zero]
      exact hpos
  · by_cases hlt : dividend.lessThan divisor = true
    · refine ⟨zero, dividend, divmod128_lt h0 h1 hlt, ?_, lessThan_iff.mp hlt⟩
      rw [toNat_zero, Nat.zero_mul, Nat.zero_add]
    · obtain ⟨bits, hle, hbits, hdivmod⟩ := divmod128_ge h0 h1 hlt
      have h : Dividing dividend divisor bits zero zero := by
        refine ⟨by rw [toNat_zero]; exact Nat.dvd_zero _, ?_, by rw [toNat_zero]; exact hpos⟩
        rw [Nat.div_eq_of_lt hbits, toNat_zero, Nat.zero_div, Nat.zero_mul]
      have h' := divLoop_spec hle h
      have hdiv := h'.division
      rw [Nat.pow_zero, Nat.div_one, Nat.div_one] at hdiv
      exact ⟨_, _, hdivmod, hdiv, h'.remainder⟩

end NeForce.Uint128

namespace NeForce.Uint128

open Intrinsic

variable {a b : Uint128} {d : UInt64}

/-- `div64` is exact for the dividends that fit into one word. -/
theorem div64_spec_iff (hlt : a.hi.toNat < d.toNat) :
    (a.toNat = (a.div64 d).1.toNat * d.toNat + (a.div64 d).2.toNat ∧ (a.div64 d).2.toNat < d.toNat) ↔ a.hi = 0 := by
  have hd := Intrinsic.toNat_lt d
  unfold div64
  constructor
  · intro ⟨h1, h2⟩
    by_contra hhi
    have hpos : 0 < a.hi.toNat := Nat.pos_of_ne_zero fun h => hhi (UInt64.toNat_inj.mp h)
    rw [if_neg hhi] at h1 h2
    rw [udiv128_quotient hhi hlt, show (0 : UInt64).toNat = 0 from rfl, Nat.zero_mul, Nat.zero_add] at h1
    unfold toNat at h1
    omega
  · intro h
    have hlo : a.toNat = a.lo.toNat := by
      rw [toNat, h]
      exact Nat.zero_add _
    rw [if_pos h, hlo]
    dsimp only
    rw [UInt64.toNat_div, UInt64.toNat_mod, Nat.mul_comm]
    exact ⟨(Nat.div_add_mod _ _).symm, Nat.mod_lt _ (by omega)⟩

end NeForce.Uint128

namespace NeForce.Int128

open Uint128

variable {a b : Int128}

/-! ### Signed numbers -/

theorem isNegative_iff : isNegative a = true ↔ 2 ^ 127 ≤ a.toNat := by
  have h1 := Intrinsic.toNat_lt a.lo
  unfold isNegative Uint128.toNat
  rw [decide_eq_true_iff, ge_iff_le, UInt64.le_iff_toNat_le]
  change 2 ^ 63 ≤ a.hi.toNat ↔ _
  omega

/-- The absolute value, read without a sign. -/
theorem toNat_abs (a : Int128) : (if isNegative a then a.negation else a).toNat = (toInt a).natAbs := by
  have hlt := Uint128.toNat_lt a
  unfold toInt
  by_cases h : isNegative a = true
  · have hneg := isNegative_iff.1 h
    rw [if_pos h, if_pos h, toNat_negation]
    omega
  · rw [if_neg h, if_neg h, Int.natAbs_natCast]

theorem toInt_bmod (q : Uint128) : toInt q = (q.toNat : ℤ).bmod (2 ^ 128) := by
  have hlt := Uint128.toNat_lt q
  rw [Int.bmod_def, toInt]
  by_cases h : isNegative q = true
  · have hn := isNegative_iff.1 h
    rw [if_pos h]
    split <;> omega
  · have hn := mt isNegative_iff.2 h
    rw [if_neg h]
    split <;> omega

theorem toInt_negation (q : Uint128) : toInt q.negation = (-(q.toNat : ℤ)).bmod (2 ^ 128) := by
  have hlt := Uint128.toNat_lt q
  have hneg := toNat_negation q
  rw [toInt_bmod, Int.bmod_def, Int.bmod_def, hneg]
  split <;> split <;> omega

/-- A number from its sign and its absolute value. -/
theorem toInt_eq (a : Int128) : toInt a = if isNegative a then -((toInt a).natAbs : ℤ) else ((toInt a).natAbs : ℤ) := by
  have hlt := Uint128.toNat_lt a
  by_cases h : isNegative a = true
  · have hn := isNegative_iff.1 h
    rw [if_pos h, toInt, if_pos h]
    omega
  · rw [if_neg h, toInt, if_neg h, Int.natAbs_natCast]

theorem natAbs_le (a : Int128) : (toInt a).natAbs ≤ 2 ^ 127 := by
  have hlt := Uint128.toNat_lt a
  unfold toInt
  by_cases h : isNegative a = true
  · have hn := isNegative_iff.1 h
    rw [if_pos h]
    omega
  · have hn := mt isNegative_iff.2 h
    rw [if_neg h, Int.natAbs_natCast]
    omega

theorem eq_zero_iff : a = Uint128.zero ↔ toInt a = 0 := by
  rw [Uint128.eq_zero_iff, ← Int.natAbs_eq_zero, ← toNat_abs]
  by_cases h : isNegative a = true
  · have hn := isNegative_iff.1 h
    have hlt := Uint128.toNat_lt a
    rw [if_pos h, toNat_negation]
    omega
  · rw [if_neg h]

/-- Quotient and remainder of the absolute values. -/
theorem divmod_abs (a : Int128) (hb : b ≠ Uint128.zero) : ∃ q r,
    (if isNegative a then a.negation else a).divmod128 (if isNegative b then b.negation else b) = some (q, r) ∧
      q.toNat = (toInt a).natAbs / (toInt b).natAbs ∧ r.toNat = (toInt a).natAbs % (toInt b).natAbs := by
  have hb' : (if isNegative b then b.negation else b) ≠ Uint128.zero := by
    rw [Ne, Uint128.eq_zero_iff, toNat_abs, Int.natAbs_eq_zero, ← eq_zero_iff]
    exact hb
  obtain ⟨q, r, h, hdiv, hlt⟩ := divmod128_spec (if isNegative a then a.negation else a) hb'
  rw [toNat_abs, toNat_abs] at hdiv
  rw [toNat_abs] at hlt
  refine ⟨q, r, h, ?_, ?_⟩
  · rw [hdiv, Nat.mul_comm, Nat.mul_add_div (by omega), Nat.div_eq_of_lt hlt, Nat.add_zero]
  · rw [hdiv, Nat.mul_comm, Nat.mul_add_mod, Nat.mod_eq_of_lt hlt]

theorem tdiv_signed (s t : Bool) (m n : ℕ) : (if s then -(m : ℤ) else m).tdiv (if t then -(n : ℤ) else n) =
    if s ^^ t then -((m / n : ℕ) : ℤ) else ((m / n : ℕ) : ℤ) := by
  cases s <;> cases t <;> simp

theorem tmod_signed (s t : Bool) (m n : ℕ) : (if s then -(m : ℤ) else m).tmod (if t then -(n : ℤ) else n) =
    if s then -((m % n : ℕ) : ℤ) else ((m % n : ℕ) : ℤ) := by
  have h : (m : ℤ).tmod n = ((m % n : ℕ) : ℤ) := (Int.ofNat_tmod m n).symm
  cases s <;> cases t <;> simp [h]

/-- **`int128_t::operator/=`** truncates toward zero, and wraps around for the least number divided by -1. -/
theorem div_spec (a : Int128) (hb : b ≠ Uint128.zero) :
    ∃ q, div a b = some q ∧ toInt q = ((toInt a).tdiv (toInt b)).bmod (2 ^ 128) := by
  obtain ⟨q, r, h, hq, -⟩ := divmod_abs a hb
  refine ⟨if isNegative a ^^ isNegative b then q.negation else q, ?_, ?_⟩
  · unfold div
    rw [if_neg hb]
    dsimp only
    rw [h]
    rfl
  · have htdiv : (toInt a).tdiv (toInt b) = if isNegative a ^^ isNegative b then -(q.toNat : ℤ) else (q.toNat : ℤ) := by
      conv => lhs; rw [toInt_eq a, toInt_eq b]
      rw [tdiv_signed, hq]
    rw [htdiv]
    split
    · exact toInt_negation q
    · exact toInt_bmod q

/-- **`int128_t::operator%=`** has the sign of the dividend. -/
theorem mod_spec (a : Int128) (hb : b ≠ Uint128.zero) : ∃ r, mod a b = some r ∧ toInt r = (toInt a).tmod (toInt b) := by
  obtain ⟨q, r, h, -, hr⟩ := divmod_abs a hb
  have hbound : r.toNat < 2 ^ 127 := by
    have hle := natAbs_le b
    have hpos : 0 < (toInt b).natAbs := Int.natAbs_pos.mpr fun h => hb (eq_zero_iff.mpr h)
    have hlt := Nat.mod_lt (toInt a).natAbs hpos
    omega
  refine ⟨if isNegative a then r.negation else r, ?_, ?_⟩
  · unfold mod
    rw [if_neg hb]
    dsimp only
    rw [h]
    rfl
  · have htmod : (toInt a).tmod (toInt b) = if isNegative a then -(r.toNat : ℤ) else (r.toNat : ℤ) := by
      conv => lhs; rw [toInt_eq a, toInt_eq b]
      rw [tmod_signed, hr]
    rw [htmod]
    split
    · rw [toInt_negation, Int.bmod_def]
      split <;> omega
    · rw [toInt_bmod, Int.bmod_def]
      split <;> omega

end NeForce.Int128

namespace NeForce

open Uint128

/-- The portable paths agree with exact arithmetic on the operands `a` and `b`, which are also read as signed numbers,
and on the divisor `d` of `div64`. -/
structure PortableAgrees (a b : Uint128) (d : UInt64) : Prop where
  add : (a.add b).toNat = (a.toNat + b.toNat) % 2 ^ 128
  sub : (a.sub b).toNat = (2 ^ 128 + a.toNat - b.toNat) % 2 ^ 128
  mul : (a.mul128 b).toNat = a.toNat * b.toNat % 2 ^ 128
  divmodZero : a.divmod128 b = none ↔ b.toNat = 0
  divmod : b.toNat ≠ 0 → ∃ q r, a.divmod128 b = some (q, r) ∧ a.toNat = q.toNat * b.toNat + r.toNat ∧ r.toNat < b.toNat
  div64 : d.toNat ≠ 0 → a.hi.toNat < d.toNat →
    a.toNat = (a.div64 d).1.toNat * d.toNat + (a.div64 d).2.toNat ∧ (a.div64 d).2.toNat < d.toNat
  intZero : Int128.toInt b = 0 → Int128.div a b = none ∧ Int128.mod a b = none
  intDiv : Int128.toInt b ≠ 0 → ∃ q, Int128.div a b = some q ∧
    Int128.toInt q = ((Int128.toInt a).tdiv (Int128.toInt b)).bmod (2 ^ 128)
  intMod : Int128.toInt b ≠ 0 → ∃ r, Int128.mod a b = some r ∧
    Int128.toInt r = (Int128.toInt a).tmod (Int128.toInt b)

/-- The product is exact unless the first sum of upper halves carries. -/
theorem mul128_exact_iff (a b : Uint128) : (a.mul128 b).toNat = a.toNat * b.toNat % 2 ^ 128 ↔
    a.lo.toNat * b.lo.toNat / 2 ^ 64 + a.lo.toNat * b.hi.toNat % 2 ^ 64 < 2 ^ 64 := by
  rw [toNat_mul128]
  split
  · refine iff_of_false ?_ (by omega)
    generalize a.toNat * b.toNat = p
    omega
  · refine iff_of_true (by rw [Nat.add_zero]) (by omega)

/-- **The portable paths agree with exact arithmetic** exactly on these operands. -/
theorem portable_agrees_iff (a b : Uint128) (d : UInt64) : PortableAgrees a b d ↔
    a.lo.toNat * b.lo.toNat / 2 ^ 64 + a.lo.toNat * b.hi.toNat % 2 ^ 64 < 2 ^ 64 ∧ (a.hi = 0 ∨ d.toNat ≤ a.hi.toNat) := by
  constructor
  · intro h
    refine ⟨(mul128_exact_iff a b).mp h.mul, ?_⟩
    by_cases hd : d.toNat ≤ a.hi.toNat
    · exact .inr hd
    · exact .inl ((div64_spec_iff (by omega)).mp (h.div64 (by omega) (by omega)))
  · rintro ⟨hmul, hd⟩
    have hzero : b.toNat = 0 ↔ b = zero := Uint128.eq_zero_iff.symm
    have hint : Int128.toInt b = 0 ↔ b = zero := Int128.eq_zero_iff.symm
    refine ⟨toNat_add a b, toNat_sub a b, (mul128_exact_iff a b).mpr hmul, ?_, ?_, ?_, ?_, ?_, ?_⟩
    · rw [hzero]
      refine ⟨fun h => ?_, fun h => by rw [h, divmod128_zero]⟩
      by_contra h0
      obtain ⟨q, r, h', -⟩ := divmod128_spec a h0
      rw [h] at h'
      cases h'
    · exact fun h => divmod128_spec a (mt hzero.mpr h)
    · exact fun _ hlt => (div64_spec_iff hlt).mpr (hd.resolve_right (by omega))
    · intro h
      rw [hint.mp h]
      exact ⟨if_pos rfl, if_pos rfl⟩
    · exact fun h => Int128.div_spec a (mt hint.mpr h)
    · exact fun h => Int128.mod_spec a (mt hint.mpr h)

/-- `div64` of `2 ^ 64 + 5` by 7 gives 0, and the product of `2 ^ 64 - 1` and `2 ^ 65 - 1` has a carry too many. -/
theorem not_portable_agrees : ¬ PortableAgrees ⟨1, 5⟩ ⟨0, 1⟩ 7 ∧
    ¬ PortableAgrees ⟨0, 0xffffffffffffffff⟩ ⟨1, 0xffffffffffffffff⟩ 0 := by
  refine ⟨fun h => ?_, fun h => ?_⟩
  · exact absurd (h.div64 (by decide) (by decide)).1 (by decide)
  · exact absurd h.mul (by decide)

end NeForce
