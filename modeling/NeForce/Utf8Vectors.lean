import Mathlib
import NeForce.Ssse3

/-! # Lanes of 16 and 32 bits

The instructions on registers that compare, shift, unpack and store lanes, and what they do to the lanes; the lanes of
a loaded register are made of its bytes. -/

namespace NeForce.Utf8Vectors

open Ssse3

/-! ### Instructions -/

/-- The numerals of `Fin 4` take this instance, and no proof of their own. -/
local instance neZero_four : NeZero 4 := ⟨by decide⟩

/-- All ones or all zeros. -/
def mask (w : ℕ) (p : Bool) : BitVec w := if p then BitVec.allOnes w else 0

/-- The 16-bit lane `i` of the 32-bit lane `k`. -/
def half (v : Vec) (k : Fin 4) (i : Fin 2) : BitVec 16 :=
  (v k ⟨2 * i, by omega⟩).setWidth 16 ||| (v k ⟨2 * i + 1, by omega⟩).setWidth 16 <<< 8

def ofHalves (f : Fin 4 → Fin 2 → BitVec 16) : Vec := fun k j =>
  (f k ⟨j / 2, by omega⟩).extractLsb' (8 * (j % 2)) 8

def set1Epi16 (c : BitVec 16) : Vec := ofHalves fun _ _ => c

def srliEpi16 (v : Vec) (n : ℕ) : Vec := ofHalves fun k i => half v k i >>> n

def slliEpi16 (v : Vec) (n : ℕ) : Vec := ofHalves fun k i => half v k i <<< n

def cmpgtEpi16 (a b : Vec) : Vec := ofHalves fun k i => mask 16 ((half b k i).slt (half a k i))

def cmpeqEpi16 (a b : Vec) : Vec := ofHalves fun k i => mask 16 (half a k i = half b k i)

def cmpgtEpi32 (a b : Vec) : Vec := ofLanes fun k => mask 32 ((lane b k).slt (lane a k))

def cmpeqEpi32 (a b : Vec) : Vec := ofLanes fun k => mask 32 (lane a k = lane b k)

def maxEpu8 (a b : Vec) : Vec := fun k j => if a k j < b k j then b k j else a k j

def zero : Vec := fun _ _ => 0

/-- Byte `i` of a register. -/
def byte (v : Vec) (i : ℕ) : BitVec 8 := v (Fin.ofNat 4 (i / 4)) (Fin.ofNat 4 i)

/-- The bytes of `_mm_setr_epi8`, the lowest one first. -/
def setrEpi8 (bytes : List (BitVec 8)) : Vec := fun k j => bytes.getD (4 * k + j) 0

/-- `_mm_unpacklo_epi8` for `half = 0`, `_mm_unpackhi_epi8` for 8. -/
def unpackEpi8 (start : ℕ) (a b : Vec) : Vec := fun k j =>
  byte (if (j : ℕ) % 2 = 0 then a else b) (start + (4 * k + j) / 2)

/-- `_mm_unpacklo_epi16` for `start = 0`, `_mm_unpackhi_epi16` for 8. -/
def unpackEpi16 (start : ℕ) (a b : Vec) : Vec := fun k j =>
  byte (if (j : ℕ) < 2 then a else b) (start + 2 * k + j % 2)

/-- `_mm_storeu_si128` to four `char32_t`. -/
def storeLanes (v : Vec) : List ℕ := (List.finRange 4).map fun k => (lane v k).toNat

/-! ### Lanes -/

variable (a b v : Vec) (k : Fin 4) (i : Fin 2)

theorem mask_and (w : ℕ) (p q : Bool) : mask w p &&& mask w q = mask w (p && q) := by
  cases p <;> cases q <;> simp [mask]

theorem mask_or (w : ℕ) (p q : Bool) : mask w p ||| mask w q = mask w (p || q) := by
  cases p <;> cases q <;> simp [mask]

theorem not_mask (w : ℕ) (p : Bool) : ~~~mask w p = mask w (!p) := by
  cases p <;> simp [mask]

/-- A bit of a 16-bit lane by its byte. -/
theorem getLsbD_half {n : ℕ} (hn : n < 16) :
    (half v k i).getLsbD n = (v k ⟨2 * i + n / 8, by omega⟩).getLsbD (n % 8) := by
  rw [half, BitVec.getLsbD_or, BitVec.getLsbD_setWidth, BitVec.getLsbD_shiftLeft, BitVec.getLsbD_setWidth]
  obtain hlow | hhigh := lt_or_ge n 8
  · simp [hlow, hn, Nat.mod_eq_of_lt hlow, Nat.div_eq_of_lt hlow]
  · have hdiv : n / 8 = 1 := by omega
    have hmod : n % 8 = n - 8 := by omega
    simp [hn, hhigh, not_lt.mpr hhigh, hdiv, hmod, show n - 8 < 16 by omega]

theorem getLsbD_ofHalves (f : Fin 4 → Fin 2 → BitVec 16) (j : Fin 4) {n : ℕ} (hn : n < 8) :
    (ofHalves f k j).getLsbD n = (f k ⟨j / 2, by omega⟩).getLsbD (8 * (j % 2) + n) := by
  rw [ofHalves, BitVec.getLsbD_extractLsb', decide_eq_true hn, Bool.true_and]

@[simp] theorem half_ofHalves (f : Fin 4 → Fin 2 → BitVec 16) : half (ofHalves f) k i = f k i := by
  apply BitVec.eq_of_getLsbD_eq
  intro n hn
  have hlane : (2 * i.val + n / 8) / 2 = i := by omega
  have hbit : 8 * ((2 * i.val + n / 8) % 2) + n % 8 = n := by omega
  rw [getLsbD_half _ _ _ hn, getLsbD_ofHalves _ _ _ (Nat.mod_lt n (by decide)), hbit]
  congr 2
  exact Fin.ext hlane

@[simp] theorem half_andSi128 : half (andSi128 a b) k i = half a k i &&& half b k i := by
  apply BitVec.eq_of_getLsbD_eq
  intro n hn
  rw [BitVec.getLsbD_and, getLsbD_half _ _ _ hn, getLsbD_half _ _ _ hn, getLsbD_half _ _ _ hn, andSi128, BitVec.getLsbD_and]

@[simp] theorem half_orSi128 : half (orSi128 a b) k i = half a k i ||| half b k i := by
  apply BitVec.eq_of_getLsbD_eq
  intro n hn
  rw [BitVec.getLsbD_or, getLsbD_half _ _ _ hn, getLsbD_half _ _ _ hn, getLsbD_half _ _ _ hn, orSi128, BitVec.getLsbD_or]

@[simp] theorem lane_andnotSi128 : lane (andnotSi128 a b) k = ~~~lane a k &&& lane b k := by
  apply BitVec.eq_of_getLsbD_eq
  intro n hn
  rw [BitVec.getLsbD_and, BitVec.getLsbD_not, decide_eq_true hn, getLsbD_lane _ _ hn, getLsbD_lane _ _ hn, getLsbD_lane _ _ hn,
    andnotSi128, BitVec.getLsbD_and, BitVec.getLsbD_not, decide_eq_true (Nat.mod_lt n (by decide))]

@[simp] theorem half_set1Epi16 (c : BitVec 16) (k : Fin 4) (i : Fin 2) : half (set1Epi16 c) k i = c := half_ofHalves ..

@[simp] theorem half_srliEpi16 (v : Vec) (n : ℕ) (k : Fin 4) (i : Fin 2) :
    half (srliEpi16 v n) k i = half v k i >>> n := half_ofHalves ..

@[simp] theorem half_slliEpi16 (v : Vec) (n : ℕ) (k : Fin 4) (i : Fin 2) :
    half (slliEpi16 v n) k i = half v k i <<< n := half_ofHalves ..

@[simp] theorem half_cmpgtEpi16 (a b : Vec) (k : Fin 4) (i : Fin 2) :
    half (cmpgtEpi16 a b) k i = mask 16 ((half b k i).slt (half a k i)) := half_ofHalves ..

@[simp] theorem half_cmpeqEpi16 (a b : Vec) (k : Fin 4) (i : Fin 2) :
    half (cmpeqEpi16 a b) k i = mask 16 (half a k i = half b k i) := half_ofHalves ..

@[simp] theorem lane_cmpgtEpi32 (a b : Vec) (k : Fin 4) :
    lane (cmpgtEpi32 a b) k = mask 32 ((lane b k).slt (lane a k)) := lane_ofLanes ..

@[simp] theorem lane_cmpeqEpi32 (a b : Vec) (k : Fin 4) :
    lane (cmpeqEpi32 a b) k = mask 32 (lane a k = lane b k) := lane_ofLanes ..

theorem cmpeqEpi8_apply (a b : Vec) (k j : Fin 4) : cmpeqEpi8 a b k j = mask 8 (a k j = b k j) := by
  unfold cmpeqEpi8
  split
  · next h => simp [mask, h]
  · next h => simp [mask, h]

/-! ### Masks -/

@[simp] theorem msb_mask (p : Bool) : (mask 8 p).msb = p := by
  cases p <;> decide

theorem byte_mask16 (p : Bool) (i : ℕ) (hi : i + 8 ≤ 16) : (mask 16 p).extractLsb' i 8 = mask 8 p := by
  apply BitVec.eq_of_getLsbD_eq
  intro n hn
  cases p
  · simp [mask]
  · have : i + n < 16 := by omega
    simp [mask, hn, this, -BitVec.reduceAllOnes]

theorem byte_mask32 (p : Bool) (i : ℕ) (hi : i + 8 ≤ 32) : (mask 32 p).extractLsb' i 8 = mask 8 p := by
  apply BitVec.eq_of_getLsbD_eq
  intro n hn
  cases p
  · simp [mask]
  · have : i + n < 32 := by omega
    simp [mask, hn, this, -BitVec.reduceAllOnes]

/-- All the bits are set if and only if every byte has its highest bit. -/
theorem movemask_full (v : Vec) : movemaskEpi8 v = 0xFFFF ↔ ∀ k j, (v k j).msb = true := by
  rw [movemask_eq_iff]
  constructor
  · intro h k j
    have := h ⟨4 * k + j, by omega⟩ (by dsimp only; omega)
    simpa [Nat.mul_add_div, Nat.mod_eq_of_lt j.isLt, Nat.div_eq_of_lt j.isLt] using this
  · intro h i _
    exact h _ _

theorem movemask_zero (v : Vec) : movemaskEpi8 v = 0 ↔ ∀ k j, (v k j).msb = false := by
  constructor
  · intro h k j
    have := testBit_movemask v ⟨4 * k + j, by omega⟩
    rw [h, Nat.zero_testBit] at this
    simpa [Nat.mul_add_div, Nat.mod_eq_of_lt j.isLt, Nat.div_eq_of_lt j.isLt] using this.symm
  · intro h
    apply Nat.eq_of_testBit_eq
    intro i
    rw [Nat.zero_testBit]
    by_cases hi : i < 16
    · exact (testBit_movemask v ⟨i, hi⟩).trans (h _ _)
    · have hlt : movemaskEpi8 v < 2 ^ 16 := Nat.ofBits_lt_two_pow _
      exact Nat.testBit_lt_two_pow (hlt.trans_le (Nat.pow_le_pow_right (by decide) (by omega)))

theorem movemask_ofHalves (p : Fin 4 → Fin 2 → Bool) :
    movemaskEpi8 (ofHalves fun k i => mask 16 (p k i)) = 0xFFFF ↔ ∀ k i, p k i = true := by
  rw [movemask_full]
  constructor
  · intro h k i
    have := h k ⟨2 * i, by omega⟩
    unfold ofHalves at this
    rw [byte_mask16 _ _ (by dsimp only; omega), msb_mask] at this
    simpa using this
  · intro h k j
    unfold ofHalves
    rw [byte_mask16 _ _ (by omega), msb_mask]
    exact h _ _

theorem movemask_ofLanes (p : Fin 4 → Bool) :
    movemaskEpi8 (ofLanes fun k => mask 32 (p k)) = 0xFFFF ↔ ∀ k, p k = true := by
  rw [movemask_full]
  constructor
  · intro h k
    have := h k 0
    unfold ofLanes at this
    rwa [byte_mask32 _ _ (by decide), msb_mask] at this
  · intro h k j
    unfold ofLanes
    rw [byte_mask32 _ _ (by omega), msb_mask]
    exact h _

theorem ofHalves_half (v : Vec) : ofHalves (half v) = v := by
  funext k j
  apply BitVec.eq_of_getLsbD_eq
  intro n hn
  have hbyte : 2 * (j.val / 2) + (8 * (j.val % 2) + n) / 8 = j := by omega
  have hbit : (8 * (j.val % 2) + n) % 8 = n := by omega
  rw [getLsbD_ofHalves _ _ _ hn, getLsbD_half _ _ _ (by omega), hbit]
  congr 2
  exact Fin.ext hbyte

theorem eq_ofHalves {v : Vec} {f : Fin 4 → Fin 2 → BitVec 16} (h : ∀ k i, half v k i = f k i) : v = ofHalves f := by
  have : half v = f := by
    funext k i
    exact h k i
  rw [← this, ofHalves_half]

theorem eq_ofLanes {v : Vec} {f : Fin 4 → BitVec 32} (h : ∀ k, lane v k = f k) : v = ofLanes f := by
  have : lane v = f := funext h
  rw [← this, ofLanes_lane]

theorem movemask_low (v : Vec) : movemaskEpi8 v &&& 0x000F = 0x000F ↔ ∀ j, (v 0 j).msb = true := by
  rw [show movemaskEpi8 v &&& 0x000F = 0x000F ↔ _ from movemask_and_iff v (show 4 ≤ 16 by decide)]
  constructor
  · intro h j
    simpa [Nat.mod_eq_of_lt j.isLt, Nat.div_eq_of_lt j.isLt] using h ⟨j, by omega⟩ j.isLt
  · intro h i hi
    simpa [Nat.mod_eq_of_lt hi, Nat.div_eq_of_lt hi] using h ⟨i, hi⟩

theorem movemask_low_zero (v : Vec) : movemaskEpi8 v &&& 0x000F = 0 ↔ ∀ j, (v 0 j).msb = false := by
  constructor
  · intro h j
    have hbit := congrArg (Nat.testBit · j) h
    have hj : ∀ j : Fin 4, Nat.testBit 0x000F j = true := by decide
    simp only [Nat.testBit_and, hj, Bool.and_true, Nat.zero_testBit] at hbit
    rw [testBit_movemask v ⟨j, by omega⟩] at hbit
    simpa [Nat.mod_eq_of_lt j.isLt, Nat.div_eq_of_lt j.isLt] using hbit
  · intro h
    apply Nat.eq_of_testBit_eq
    intro i
    rw [Nat.testBit_and, Nat.zero_testBit, show (0x000F : ℕ) = 2 ^ 4 - 1 from rfl, Nat.testBit_two_pow_sub_one]
    by_cases hi : i < 4
    · have hbit := testBit_movemask v ⟨i, by omega⟩
      rw [hbit, Bool.and_eq_false_iff]
      left
      simpa [Nat.mod_eq_of_lt hi, Nat.div_eq_of_lt hi] using h ⟨i, hi⟩
    · simp [hi]

/-! ### Loads -/

theorem forall_uint8 {p : UInt8 → Prop} : (∀ x, p x) ↔ ∀ i : Fin 256, p (.ofFin i) :=
  ⟨fun h _ => h _, fun h x => h x.toFin⟩

def word (lo hi : UInt8) : BitVec 16 := lo.toBitVec.setWidth 16 ||| hi.toBitVec.setWidth 16 <<< 8

theorem half_load (src : Bytes) (k : Fin 4) (i : Fin 2) :
    half (load src) k i = word (src.getD (4 * k + 2 * i) 0) (src.getD (4 * k + (2 * i + 1)) 0) := rfl

section

variable (lo hi b0 b1 b2 b3 : UInt8)

theorem word_and : word lo hi &&& 0x00FF = lo.toBitVec.setWidth 16 := by
  apply BitVec.eq_of_getLsbD_eq
  intro n hn
  unfold word
  interval_cases n <;> simp

theorem word_srl : word lo hi >>> 8 = hi.toBitVec.setWidth 16 := by
  apply BitVec.eq_of_getLsbD_eq
  intro n hn
  unfold word
  interval_cases n <;> simp

def quad (b0 b1 b2 b3 : UInt8) : BitVec 32 :=
  b0.toBitVec.setWidth 32 ||| b1.toBitVec.setWidth 32 <<< 8 ||| b2.toBitVec.setWidth 32 <<< 16 |||
    b3.toBitVec.setWidth 32 <<< 24

theorem and_mask8 (x : BitVec 32) : x &&& 0x000000FF = (x.setWidth 8).setWidth 32 := by
  apply BitVec.eq_of_toNat_eq
  rw [BitVec.toNat_and, BitVec.toNat_setWidth_of_le (by decide), BitVec.toNat_setWidth]
  exact Nat.and_two_pow_sub_one_eq_mod x.toNat 8

/-- A byte of a quad, shifted down and masked. -/
theorem quad_srl (j : Fin 4) : quad b0 b1 b2 b3 >>> (8 * j.val) &&& 0x000000FF =
    (![b0.toBitVec, b1.toBitVec, b2.toBitVec, b3.toBitVec] j).setWidth 32 := by
  have hbyte := byte_eq (fun _ => ![b0.toBitVec, b1.toBitVec, b2.toBitVec, b3.toBitVec]) 0 j
  have hlane : lane (fun _ => ![b0.toBitVec, b1.toBitVec, b2.toBitVec, b3.toBitVec]) 0 = quad b0 b1 b2 b3 := rfl
  rw [hlane] at hbyte
  rw [and_mask8, hbyte]
  congr 1

theorem quad_and : quad b0 b1 b2 b3 &&& 0x000000FF = b0.toBitVec.setWidth 32 := quad_srl b0 b1 b2 b3 0

theorem quad_srl8 : quad b0 b1 b2 b3 >>> 8 &&& 0x000000FF = b1.toBitVec.setWidth 32 := quad_srl b0 b1 b2 b3 1

theorem quad_srl16 : quad b0 b1 b2 b3 >>> 16 &&& 0x000000FF = b2.toBitVec.setWidth 32 := quad_srl b0 b1 b2 b3 2

theorem quad_srl24 : quad b0 b1 b2 b3 >>> 24 &&& 0x000000FF = b3.toBitVec.setWidth 32 := quad_srl b0 b1 b2 b3 3

end

theorem lane_load (src : Bytes) (k : Fin 4) : lane (load src) k =
    quad (src.getD (4 * k) 0) (src.getD (4 * k + 1) 0) (src.getD (4 * k + 2) 0) (src.getD (4 * k + 3) 0) := rfl

/-! ### Stores -/

/-- The bytes and the 16-bit lanes of a register in order. -/
def bytes (v : Vec) : List (BitVec 8) :=
  [v 0 0, v 0 1, v 0 2, v 0 3, v 1 0, v 1 1, v 1 2, v 1 3, v 2 0, v 2 1, v 2 2, v 2 3, v 3 0, v 3 1, v 3 2, v 3 3]

def halves (v : Vec) : List (BitVec 16) :=
  [half v 0 0, half v 0 1, half v 1 0, half v 1 1, half v 2 0, half v 2 1, half v 3 0, half v 3 1]

def lanes (v : Vec) : List (BitVec 32) := [lane v 0, lane v 1, lane v 2, lane v 3]

theorem lane_unpackEpi16 (v : Vec) (start : ℕ) (k : Fin 4) : lane (unpackEpi16 start v zero) k =
    (byte v (start + 2 * k)).setWidth 32 ||| (byte v (start + 2 * k + 1)).setWidth 32 <<< 8 := by
  have h0 : unpackEpi16 start v zero k 0 = byte v (start + 2 * k) := rfl
  have h1 : unpackEpi16 start v zero k 1 = byte v (start + 2 * k + 1) := rfl
  have h2 : unpackEpi16 start v zero k 2 = 0 := rfl
  have h3 : unpackEpi16 start v zero k 3 = 0 := rfl
  have hz16 : (0 : BitVec 8).setWidth 32 <<< 16 = 0#32 := by decide
  have hz24 : (0 : BitVec 8).setWidth 32 <<< 24 = 0#32 := by decide
  rw [lane, h0, h1, h2, h3, hz16, hz24, BitVec.or_zero, BitVec.or_zero]

theorem toNat_two (lo hi : BitVec 8) :
    (lo.setWidth 32 ||| hi.setWidth 32 <<< 8).toNat = (lo.setWidth 16 ||| hi.setWidth 16 <<< 8).toNat := by
  have hlo := lo.isLt
  have hhi := hi.isLt
  have h32 : hi.toNat * 2 ^ 8 % 2 ^ 32 = hi.toNat * 2 ^ 8 := Nat.mod_eq_of_lt (by omega)
  have h16 : hi.toNat * 2 ^ 8 % 2 ^ 16 = hi.toNat * 2 ^ 8 := Nat.mod_eq_of_lt (by omega)
  rw [BitVec.toNat_or, BitVec.toNat_or, BitVec.toNat_shiftLeft, BitVec.toNat_shiftLeft, BitVec.toNat_setWidth_of_le (by decide),
    BitVec.toNat_setWidth_of_le (by decide), BitVec.toNat_setWidth_of_le (by decide), BitVec.toNat_setWidth_of_le (by decide),
    Nat.shiftLeft_eq, h32, h16]

/-- The eight lanes of 16 bits, stored with 32 bits each. -/
theorem store_unpackEpi16 (v : Vec) : storeLanes (unpackEpi16 0 v zero) ++ storeLanes (unpackEpi16 8 v zero) =
    (halves v).map BitVec.toNat := by
  unfold storeLanes halves
  simp only [lane_unpackEpi16, toNat_two]
  rfl

end NeForce.Utf8Vectors
