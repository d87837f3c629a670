import Mathlib.Tactic.Ring
import NeForce.Int128

/-! # What the intrinsics for 64-bit words compute

Words are read as natural numbers.  `addcarry_u64_spec` and `subborrow_u64_spec` account for the carry and the borrow,
`umul128_spec` for both halves of the product, `lt_two_pow_clz64` and `clz64_normalizes` for the leading zeros. -/

namespace NeForce.Intrinsic

variable {a b x d : UInt64} {c : UInt8} {n k : ℕ}

/-! ### Parts of words -/

theorem toNat_lt (a : UInt64) : a.toNat < 2 ^ 64 := a.toNat_lt

theorem toNat_shiftRight (h : n < 64) : (a >>> UInt64.ofNat n).toNat = a.toNat / 2 ^ n := by
  rw [UInt64.toNat_shiftRight, UInt64.toNat_ofNat_of_lt' (by change n < 2 ^ 64; omega), Nat.mod_eq_of_lt h, Nat.shiftRight_eq_div_pow]

theorem toNat_shiftLeft (h : n < 64) : (a <<< UInt64.ofNat n).toNat = a.toNat * 2 ^ n % 2 ^ 64 := by
  rw [UInt64.toNat_shiftLeft, UInt64.toNat_ofNat_of_lt' (by change n < 2 ^ 64; omega), Nat.mod_eq_of_lt h, Nat.shiftLeft_eq]

theorem toNat_low (a : UInt64) : a.toUInt32.toUInt64.toNat = a.toNat % 2 ^ 32 := by
  rw [UInt32.toNat_toUInt64, UInt64.toNat_toUInt32]

theorem toNat_shiftRight_32 (a : UInt64) : (a >>> 32).toNat = a.toNat / 2 ^ 32 := toNat_shiftRight (n := 32) (by decide)

theorem toNat_high (a : UInt64) : (a >>> 32).toUInt32.toUInt64.toNat = a.toNat / 2 ^ 32 := by
  have h := toNat_lt a
  rw [toNat_low, toNat_shiftRight_32]
  omega

theorem toNat_mask (a : UInt64) : (a &&& 0xFFFFFFFF).toNat = a.toNat % 2 ^ 32 := by
  rw [UInt64.toNat_and]
  exact Nat.and_two_pow_sub_one_eq_mod _ 32

/-- Two 32-bit digits. -/
theorem toNat_join (a b : UInt64) :
    ((a <<< 32) ||| (b &&& 0xFFFFFFFF)).toNat = a.toNat % 2 ^ 32 * 2 ^ 32 + b.toNat % 2 ^ 32 := by
  have hb : b.toNat % 2 ^ 32 < 2 ^ 32 := Nat.mod_lt _ (by decide)
  have ha : (a <<< 32).toNat = 2 ^ 32 * (a.toNat % 2 ^ 32) := by
    have h := toNat_shiftLeft (a := a) (n := 32) (by decide)
    rw [show UInt64.ofNat 32 = 32 from rfl] at h
    rw [h]
    omega
  rw [UInt64.toNat_or, toNat_mask, ha, ← Nat.two_pow_add_eq_or_of_lt hb, Nat.mul_comm]

/-! ### Carry and borrow -/

theorem addcarryU64_spec (a b : UInt64) (hc : c.toNat ≤ 1) :
    (addcarryU64 c a b).2.toNat + 2 ^ 64 * (addcarryU64 c a b).1.toNat = a.toNat + b.toNat + c.toNat ∧
      (addcarryU64 c a b).1.toNat ≤ 1 := by
  have ha := toNat_lt a
  have hb := toNat_lt b
  unfold addcarryU64
  dsimp only
  have hlo : (a.toUInt32.toUInt64 + b.toUInt32.toUInt64 + c.toUInt64).toNat =
      a.toNat % 2 ^ 32 + b.toNat % 2 ^ 32 + c.toNat := by
    rw [UInt64.toNat_add, UInt64.toNat_add, toNat_low, toNat_low, UInt8.toNat_toUInt64]
    omega
  generalize a.toUInt32.toUInt64 + b.toUInt32.toUInt64 + c.toUInt64 = sumLo at hlo ⊢
  have hhi : ((a >>> 32).toUInt32.toUInt64 + (b >>> 32).toUInt32.toUInt64 + (sumLo >>> 32)).toNat =
      a.toNat / 2 ^ 32 + b.toNat / 2 ^ 32 + sumLo.toNat / 2 ^ 32 := by
    rw [UInt64.toNat_add, UInt64.toNat_add, toNat_high, toNat_high, toNat_shiftRight_32]
    omega
  generalize (a >>> 32).toUInt32.toUInt64 + (b >>> 32).toUInt32.toUInt64 + (sumLo >>> 32) = sumHi at hhi ⊢
  rw [toNat_join, UInt64.toNat_toUInt8, toNat_shiftRight_32]
  omega

theorem toNat_sign (x : UInt64) : (x >>> 63).toNat = x.toNat / 2 ^ 63 := toNat_shiftRight (n := 63) (by decide)

/-- One digit of a difference, with the borrow at the top. -/
theorem borrow_digit {u v w diff : ℕ} (hu : u < 2 ^ 32) (hv : v < 2 ^ 32) (hw : w ≤ 1)
    (hdiff : diff = (2 ^ 64 + u - v - w) % 2 ^ 64) :
    diff % 2 ^ 32 + v + w = u + 2 ^ 32 * (diff / 2 ^ 63) ∧ diff / 2 ^ 63 ≤ 1 ∧ diff < 2 ^ 64 := by
  rcases Nat.lt_or_ge u (v + w) with h | h
  · have he : diff = 2 ^ 64 + u - v - w := by omega
    omega
  · have he : diff = u - v - w := by omega
    omega

theorem subborrowU64_spec (a b : UInt64) (hc : c.toNat ≤ 1) :
    (subborrowU64 c a b).2.toNat + b.toNat + c.toNat = a.toNat + 2 ^ 64 * (subborrowU64 c a b).1.toNat ∧
      (subborrowU64 c a b).1.toNat ≤ 1 := by
  have ha := toNat_lt a
  have hb := toNat_lt b
  unfold subborrowU64
  dsimp only
  have hlo : (a.toUInt32.toUInt64 - b.toUInt32.toUInt64 - c.toUInt64).toNat =
      (2 ^ 64 + a.toNat % 2 ^ 32 - b.toNat % 2 ^ 32 - c.toNat) % 2 ^ 64 := by
    rw [UInt64.toNat_sub, UInt64.toNat_sub, toNat_low, toNat_low, UInt8.toNat_toUInt64]
    omega
  generalize a.toUInt32.toUInt64 - b.toUInt32.toUInt64 - c.toUInt64 = diffLo at hlo ⊢
  have hhi : ((a >>> 32).toUInt32.toUInt64 - (b >>> 32).toUInt32.toUInt64 - (diffLo >>> 63)).toNat =
      (2 ^ 64 + a.toNat / 2 ^ 32 - b.toNat / 2 ^ 32 - diffLo.toNat / 2 ^ 63) % 2 ^ 64 := by
    rw [UInt64.toNat_sub, UInt64.toNat_sub, toNat_high, toNat_high, toNat_sign]
    omega
  generalize (a >>> 32).toUInt32.toUInt64 - (b >>> 32).toUInt32.toUInt64 - (diffLo >>> 63) = diffHi at hhi ⊢
  rw [toNat_join, UInt64.toNat_toUInt8, toNat_sign, toNat_mask]
  have hal : a.toNat % 2 ^ 32 < 2 ^ 32 := Nat.mod_lt _ (by decide)
  have hbl : b.toNat % 2 ^ 32 < 2 ^ 32 := Nat.mod_lt _ (by decide)
  have hah : a.toNat / 2 ^ 32 < 2 ^ 32 := by omega
  have hbh : b.toNat / 2 ^ 32 < 2 ^ 32 := by omega
  obtain ⟨h1, h2, -⟩ := borrow_digit hal hbl hc hlo
  obtain ⟨h3, h4, -⟩ := borrow_digit hah hbh h2 hhi
  clear hlo hhi
  rw [Nat.mod_eq_of_lt (show diffHi.toNat / 2 ^ 63 < 2 ^ 8 by omega), Nat.mod_mod]
  exact ⟨by omega, h4⟩

/-! ### Products -/

theorem umul128_spec (a b : UInt64) : (umul128 a b).1.toNat * 2 ^ 64 + (umul128 a b).2.toNat = a.toNat * b.toNat := by
  have ha := toNat_lt a
  have hb := toNat_lt b
  have hdigit {x y : ℕ} (hx : x < 2 ^ 32) (hy : y < 2 ^ 32) : x * y ≤ (2 ^ 32 - 1) * (2 ^ 32 - 1) :=
    Nat.mul_le_mul (by omega) (by omega)
  have hal : a.toNat % 2 ^ 32 < 2 ^ 32 := Nat.mod_lt _ (by decide)
  have hbl : b.toNat % 2 ^ 32 < 2 ^ 32 := Nat.mod_lt _ (by decide)
  have hah : a.toNat / 2 ^ 32 < 2 ^ 32 := by omega
  have hbh : b.toNat / 2 ^ 32 < 2 ^ 32 := by omega
  unfold umul128
  dsimp only
  have hmul {x y : UInt64} {m n : ℕ} (hx : x.toNat = m) (hy : y.toNat = n) (hm : m < 2 ^ 32) (hn : n < 2 ^ 32) :
      (x * y).toNat = m * n := by
    have := hdigit hm hn
    rw [UInt64.toNat_mul, hx, hy, Nat.mod_eq_of_lt (by omega)]
  have hll := hmul (toNat_low a) (toNat_low b) hal hbl
  have hlh := hmul (toNat_low a) (toNat_high b) hal hbh
  have hhl := hmul (toNat_high a) (toNat_low b) hah hbl
  have hhh := hmul (toNat_high a) (toNat_high b) hah hbh
  generalize a.toUInt32.toUInt64 * b.toUInt32.toUInt64 = pLl at hll ⊢
  generalize a.toUInt32.toUInt64 * (b >>> 32).toUInt32.toUInt64 = pLh at hlh ⊢
  generalize (a >>> 32).toUInt32.toUInt64 * b.toUInt32.toUInt64 = pHl at hhl ⊢
  generalize (a >>> 32).toUInt32.toUInt64 * (b >>> 32).toUInt32.toUInt64 = pHh at hhh ⊢
  have hsum : a.toNat * b.toNat = a.toNat % 2 ^ 32 * (b.toNat % 2 ^ 32) +
      2 ^ 32 * (a.toNat % 2 ^ 32 * (b.toNat / 2 ^ 32) + a.toNat / 2 ^ 32 * (b.toNat % 2 ^ 32)) +
      2 ^ 64 * (a.toNat / 2 ^ 32 * (b.toNat / 2 ^ 32)) := by
    conv => lhs; rw [← Nat.mod_add_div a.toNat (2 ^ 32), ← Nat.mod_add_div b.toNat (2 ^ 32)]
    ring
  have hall : a.toNat * b.toNat ≤ (2 ^ 64 - 1) * (2 ^ 64 - 1) := Nat.mul_le_mul (by omega) (by omega)
  have b1 := hdigit hal hbl
  have b2 := hdigit hal hbh
  have b3 := hdigit hah hbl
  have b4 := hdigit hah hbh
  rw [hsum] at hall ⊢
  rw [← hll, ← hlh, ← hhl, ← hhh] at *
  clear hsum hmul hdigit
  have hmid : ((pLl >>> 32) + (pLh &&& 0xFFFFFFFF) + (pHl &&& 0xFFFFFFFF)).toNat =
      pLl.toNat / 2 ^ 32 + pLh.toNat % 2 ^ 32 + pHl.toNat % 2 ^ 32 := by
    rw [UInt64.toNat_add, UInt64.toNat_add, toNat_shiftRight_32, toNat_mask, toNat_mask]
    omega
  generalize (pLl >>> 32) + (pLh &&& 0xFFFFFFFF) + (pHl &&& 0xFFFFFFFF) = mid at hmid ⊢
  have hlo : ((pLl &&& (0xFFFFFFFF : UInt64)) ||| (mid <<< 32)).toNat =
      mid.toNat % 2 ^ 32 * 2 ^ 32 + pLl.toNat % 2 ^ 32 := by
    rw [UInt64.or_comm, toNat_join]
  rw [hlo, UInt64.toNat_add, UInt64.toNat_add, UInt64.toNat_add, toNat_shiftRight_32, toNat_shiftRight_32,
    toNat_shiftRight_32]
  omega

/-! ### Leading zeros -/

/-- A word that has `n` leading zeros cut off. -/
structure Shifted (x : UInt64) (w : ℕ) (s : ℕ × UInt64) : Prop where
  shift : s.2.toNat = x.toNat * 2 ^ s.1
  lower : 2 ^ (64 - w) ≤ s.2.toNat
  count : s.1 + w ≤ 64

theorem Shifted.step {w : ℕ} {s : ℕ × UInt64} (hw : 0 < w) (h : Shifted x (2 * w) s) : Shifted x w (clzStep w s) := by
  have hlt := toNat_lt s.2
  have hcount := h.count
  unfold clzStep
  split
  · rename_i hzero
    have hsmall : s.2.toNat < 2 ^ (64 - w) := by
      have h0 : (s.2 >>> UInt64.ofNat (64 - w)).toNat = 0 := by rw [hzero]; rfl
      rw [toNat_shiftRight (by omega)] at h0
      exact (Nat.div_eq_zero_iff.mp h0).resolve_left (Nat.two_pow_pos _).ne'
    have hpow : 2 ^ (64 - w) * 2 ^ w = 2 ^ 64 := by rw [← Nat.pow_add]; congr 1; omega
    have hpow' : 2 ^ (64 - 2 * w) * 2 ^ w = 2 ^ (64 - w) := by rw [← Nat.pow_add]; congr 1; omega
    have hshift : (s.2 <<< UInt64.ofNat w).toNat = s.2.toNat * 2 ^ w := by
      rw [toNat_shiftLeft (by omega)]
      exact Nat.mod_eq_of_lt (hpow ▸ Nat.mul_lt_mul_of_pos_right hsmall (Nat.two_pow_pos w))
    refine ⟨?_, ?_, by dsimp only; omega⟩
    · dsimp only
      rw [hshift, h.shift, Nat.mul_assoc, ← Nat.pow_add]
    · dsimp only
      rw [hshift, ← hpow']
      exact Nat.mul_le_mul_right _ h.lower
  · rename_i hne
    refine ⟨h.shift, ?_, by omega⟩
    by_contra hcon
    refine hne (UInt64.toNat_inj.mp ?_)
    rw [toNat_shiftRight (by omega), Nat.div_eq_of_lt (by omega)]
    rfl

/-- With its leading zeros cut off a word has its highest bit set. -/
theorem clz64_normalizes (hx : x ≠ 0) :
    clz64 x < 64 ∧ 2 ^ 63 ≤ x.toNat * 2 ^ clz64 x ∧ x.toNat * 2 ^ clz64 x < 2 ^ 64 := by
  have hpos : 0 < x.toNat := Nat.pos_of_ne_zero fun h => hx (UInt64.toNat_inj.mp h)
  have h0 : Shifted x 64 (0, x) := ⟨(Nat.mul_one _).symm, hpos, le_rfl⟩
  have h := ((((h0.step (w := 32) (by decide)).step (w := 16) (by decide)).step (w := 8) (by decide)).step
    (w := 4) (by decide)).step (w := 2) (by decide)
  unfold clz64
  rw [if_neg hx]
  dsimp only
  generalize clzStep 2 (clzStep 4 (clzStep 8 (clzStep 16 (clzStep 32 (0, x))))) = s at h ⊢
  have hlt := toNat_lt s.2
  have hlower := h.lower
  have hcount := h.count
  split
  · rename_i hzero
    have h0 : s.2.toNat / 2 ^ 63 = 0 := by rw [← toNat_sign, hzero]; rfl
    have hlast : x.toNat * 2 ^ (s.1 + 1) = s.2.toNat * 2 := by rw [h.shift, Nat.pow_succ, Nat.mul_assoc]
    rw [hlast]
    omega
  · rename_i hne
    have h0 : s.2.toNat / 2 ^ 63 ≠ 0 := fun h => hne (UInt64.toNat_inj.mp ((toNat_sign _).trans h))
    rw [← h.shift]
    omega

theorem lt_two_pow_clz64 (hx : x ≠ 0) : x.toNat < 2 ^ (64 - clz64 x) := by
  obtain ⟨h1, -, h2⟩ := clz64_normalizes hx
  have hpow : 2 ^ (64 - clz64 x) * 2 ^ clz64 x = 2 ^ 64 := by rw [← Nat.pow_add]; congr 1; omega
  exact Nat.lt_of_mul_lt_mul_right (hpow ▸ h2)

/-! ### The division of 128 by 64 bits -/

theorem umul128_zero (d : UInt64) : umul128 0 d = (0, 0) := by
  have h := umul128_spec 0 d
  rw [show (0 : UInt64).toNat = 0 from rfl, Nat.zero_mul] at h
  have h1 : (umul128 0 d).1 = 0 := UInt64.toNat_inj.mp (by change _ = 0; omega)
  have h2 : (umul128 0 d).2 = 0 := UInt64.toNat_inj.mp (by change _ = 0; omega)
  exact Prod.ext h1 h2

/-- A remainder smaller than the divisor has the digit 0. -/
theorem correctDigit_of_lt {u : UInt64} (hd : 2 ^ 63 ≤ d.toNat) (hu : u.toNat < d.toNat) :
    correctDigit (d >>> 32).toUInt32.toUInt64 d.toUInt32.toUInt64 u 2
      ((u >>> 32) / (d >>> 32).toUInt32.toUInt64) ((u >>> 32) % (d >>> 32).toUInt32.toUInt64) = 0 := by
  have hhi := toNat_high d
  have hlo := toNat_low d
  have hd64 := toNat_lt d
  generalize (d >>> 32).toUInt32.toUInt64 = dHi at *
  generalize d.toUInt32.toUInt64 = dLo at *
  have hzero (fuel : ℕ) (r : UInt64) : correctDigit dHi dLo u fuel 0 r = 0 := by
    cases fuel with
    | zero => rfl
    | succ fuel =>
        unfold correctDigit
        rw [if_neg]
        rw [UInt64.zero_mul]
        rintro (h | h)
        · exact absurd h (by decide)
        · exact absurd (UInt64.lt_iff_toNat_lt.mp h) (Nat.not_lt_zero _)
  have hu32 := toNat_shiftRight_32 u
  by_cases hlt : (u >>> 32).toNat < dHi.toNat
  · have hq : (u >>> 32) / dHi = 0 := by
      refine UInt64.toNat_inj.mp ?_
      rw [UInt64.toNat_div, Nat.div_eq_of_lt hlt]
      rfl
    rw [hq]
    exact hzero _ _
  · have he : (u >>> 32).toNat = dHi.toNat := by omega
    have heq : u >>> 32 = dHi := UInt64.toNat_inj.mp he
    have hpos : 0 < dHi.toNat := by omega
    have hq : dHi / dHi = 1 := by
      refine UInt64.toNat_inj.mp ?_
      rw [UInt64.toNat_div, Nat.div_self hpos]
      rfl
    have hr : dHi % dHi = 0 := by
      refine UInt64.toNat_inj.mp ?_
      rw [UInt64.toNat_mod, Nat.mod_self]
      rfl
    have hjoin := toNat_join 0 u
    rw [show (0 : UInt64).toNat = 0 from rfl, Nat.zero_mod, Nat.zero_mul, Nat.zero_add] at hjoin
    have hcond : (1 : UInt64) * dLo > (((0 : UInt64) <<< 32) ||| (u &&& 0xFFFFFFFF)) := by
      rw [UInt64.one_mul, gt_iff_lt, UInt64.lt_iff_toNat_lt, hjoin]
      omega
    have hstop : ¬ ((0 : UInt64) + dHi ≥ 0x100000000) := by
      rw [UInt64.zero_add, ge_iff_le, UInt64.le_iff_toNat_le]
      change ¬ 2 ^ 32 ≤ dHi.toNat
      omega
    rw [heq, hq, hr]
    unfold correctDigit
    rw [if_pos (.inr hcond)]
    dsimp only
    rw [if_neg hstop]
    exact hzero _ _

/-- The upper word of a dividend that is shifted to the left. -/
theorem toNat_upper {hi lo : UInt64} {s : ℕ} (hs : 0 < s) (hs' : s < 64) (h : hi.toNat * 2 ^ s < 2 ^ 64) :
    ((hi <<< UInt64.ofNat s) ||| (lo >>> UInt64.ofNat (64 - s))).toNat = hi.toNat * 2 ^ s + lo.toNat / 2 ^ (64 - s) := by
  have hlt := toNat_lt lo
  have hsmall : lo.toNat / 2 ^ (64 - s) < 2 ^ s := by
    refine Nat.div_lt_of_lt_mul ?_
    rw [← Nat.pow_add, show 64 - s + s = 64 by omega]
    exact hlt
  rw [UInt64.toNat_or, toNat_shiftLeft hs', toNat_shiftRight (by omega), Nat.mod_eq_of_lt h, Nat.mul_comm,
    ← Nat.two_pow_add_eq_or_of_lt hsmall]

/-- **`__udiv128`** gives the quotient 0 for every dividend that does not fit into its lower half. -/
theorem udiv128_quotient {hi lo : UInt64} (hhi : hi ≠ 0) (hlt : hi.toNat < d.toNat) : (udiv128 hi lo d).1 = 0 := by
  have hd0 : d ≠ 0 := fun h => by
    rw [h] at hlt
    exact absurd hlt (Nat.not_lt_zero _)
  obtain ⟨hs, hd1, hd2⟩ := clz64_normalizes hd0
  unfold udiv128
  rw [if_neg hhi]
  dsimp only
  generalize clz64 d = s at *
  have hd : (d <<< UInt64.ofNat s).toNat = d.toNat * 2 ^ s := by rw [toNat_shiftLeft hs, Nat.mod_eq_of_lt hd2]
  have hmul : (hi.toNat + 1) * 2 ^ s ≤ d.toNat * 2 ^ s := Nat.mul_le_mul_right _ hlt
  rw [Nat.add_mul, Nat.one_mul] at hmul
  have hspos := Nat.two_pow_pos s
  have hu2 : (if s = 0 then 0 else hi >>> UInt64.ofNat (64 - s)) = 0 := by
    split
    · rfl
    · refine UInt64.toNat_inj.mp ?_
      rw [toNat_shiftRight (by omega)]
      refine Nat.div_eq_of_lt ?_
      have hpow : 2 ^ (64 - s) * 2 ^ s = 2 ^ 64 := by rw [← Nat.pow_add]; congr 1; omega
      exact Nat.lt_of_mul_lt_mul_right (a := 2 ^ s) (by omega)
  have hu1 : (if s = 0 then hi else (hi <<< UInt64.ofNat s) ||| (lo >>> UInt64.ofNat (64 - s))).toNat < d.toNat * 2 ^ s := by
    split
    · rename_i h0
      rw [h0, Nat.pow_zero, Nat.mul_one]
      exact hlt
    · have hlo := toNat_lt lo
      have hsmall : lo.toNat / 2 ^ (64 - s) < 2 ^ s := by
        refine Nat.div_lt_of_lt_mul ?_
        rw [← Nat.pow_add, show 64 - s + s = 64 by omega]
        exact hlo
      rw [toNat_upper (by omega) hs (by omega)]
      omega
  rw [hu2]
  generalize (if s = 0 then hi else (hi <<< UInt64.ofNat s) ||| (lo >>> UInt64.ofNat (64 - s))) = u1 at *
  generalize d <<< UInt64.ofNat s = d' at *
  have hdigit := correctDigit_of_lt (d := d') (u := u1) (by omega) (by omega)
  have hor : ((0 : UInt64) <<< 32) ||| (u1 >>> 32) = u1 >>> 32 := UInt64.zero_or
  have hsub : u1 - 0 = u1 := UInt64.sub_zero u1
  have hneg : ¬ u1 < 0 := fun h => absurd (UInt64.lt_iff_toNat_lt.mp h) (Nat.not_lt_zero _)
  have hfalse : ((0 : UInt64) &&& 0x8000000000000000 != 0) = false := by decide
  simp only [hor, hdigit, umul128_zero, hsub, UInt64.sub_self, if_neg hneg, hfalse, Bool.false_eq_true, if_false]
  rfl

end NeForce.Intrinsic
