import Mathlib.Data.BitVec
import Mathlib.Data.Fin.VecNotation
import Mathlib.Data.Nat.Bitwise
import Mathlib.Tactic.FinCases
import Mathlib.Tactic.IntervalCases
import NeForce.BigEndian

/-! # Registers of 128 bits

A register is four lanes of 32 bits with four bytes each, the lowest one first.  The operations have the names of the
instructions: bytewise ones, shifts within the lanes, and the shuffle of bytes. -/

namespace NeForce.Ssse3

/-- `v k j` is byte `4 * k + j`. -/
abbrev Vec : Type := Fin 4 → Fin 4 → BitVec 8

def load (src : Bytes) : Vec := fun k j => (src.getD (4 * k + j) 0).toBitVec

/-- `_mm_loadl_epi64`. -/
def loadlEpi64 (src : Bytes) : Vec := load (src.take 8)

/-- `_mm_cvtsi32_si128` of four bytes. -/
def cvtsi32 (src : Bytes) : Vec := load (src.take 4)

def store (v : Vec) : Bytes := (List.finRange 4).flatMap fun k => (List.finRange 4).map fun j => .ofBitVec (v k j)

def set1Epi8 (c : BitVec 8) : Vec := fun _ _ => c

/-- The bytes of `_mm_set_epi8`, the highest one first. -/
def setEpi8 (bytes : List (BitVec 8)) : Vec := fun k j => bytes.getD (15 - (4 * k + j)) 0

/-! ### Bytes -/

def andSi128 (a b : Vec) : Vec := fun k j => a k j &&& b k j

def orSi128 (a b : Vec) : Vec := fun k j => a k j ||| b k j

def andnotSi128 (a b : Vec) : Vec := fun k j => ~~~a k j &&& b k j

def addEpi8 (a b : Vec) : Vec := fun k j => a k j + b k j

def subEpi8 (a b : Vec) : Vec := fun k j => a k j - b k j

/-- The difference of unsigned bytes, 0 where it would be below. -/
def subsEpu8 (a b : Vec) : Vec := fun k j => if a k j < b k j then 0 else a k j - b k j

/-- The comparison of signed bytes. -/
def cmpgtEpi8 (a b : Vec) : Vec := fun k j => if (b k j).slt (a k j) then 0xFF else 0

def cmpeqEpi8 (a b : Vec) : Vec := fun k j => if a k j = b k j then 0xFF else 0

def unpackloEpi64 (a b : Vec) : Vec := fun k j => if k.val < 2 then a k j else b (k - 2) j

/-- `_mm_shuffle_epi8`: a byte of the mask has the position in its low four bits. -/
def shuffleEpi8 (v m : Vec) : Vec := fun k j =>
  if (m k j).msb then 0 else v ((m k j).extractLsb' 2 2).toFin ((m k j).extractLsb' 0 2).toFin

/-- The three bytes of a lane. -/
def laneBytes (v : Vec) (k : Fin 4) : Bytes := [UInt8.ofBitVec (v k 0), UInt8.ofBitVec (v k 1), UInt8.ofBitVec (v k 2)]

/-- The highest bits of the bytes. -/
def movemaskEpi8 (v : Vec) : ℕ :=
  Nat.ofBits fun i : Fin 16 => (v ⟨i / 4, by omega⟩ ⟨i % 4, by omega⟩).msb

/-! ### Lanes -/

def lane (v : Vec) (k : Fin 4) : BitVec 32 :=
  (v k 0).setWidth 32 ||| (v k 1).setWidth 32 <<< 8 ||| (v k 2).setWidth 32 <<< 16 ||| (v k 3).setWidth 32 <<< 24

def ofLanes (f : Fin 4 → BitVec 32) : Vec := fun k j => (f k).extractLsb' (8 * j) 8

def set1Epi32 (c : BitVec 32) : Vec := ofLanes fun _ => c

def srliEpi32 (v : Vec) (n : ℕ) : Vec := ofLanes fun k => lane v k >>> n

def slliEpi32 (v : Vec) (n : ℕ) : Vec := ofLanes fun k => lane v k <<< n

variable (a b v : Vec) (k : Fin 4)

/-- A bit of a lane by its byte. -/
theorem getLsbD_lane {i : ℕ} (hi : i < 32) : (lane v k).getLsbD i = (v k ⟨i / 8, by omega⟩).getLsbD (i % 8) := by
  unfold lane
  interval_cases i <;> simp

theorem getLsbD_ofLanes (f : Fin 4 → BitVec 32) (j : Fin 4) {i : ℕ} (hi : i < 8) :
    (ofLanes f k j).getLsbD i = (f k).getLsbD (8 * j + i) := by
  rw [ofLanes, BitVec.getLsbD_extractLsb', decide_eq_true hi, Bool.true_and]

@[simp] theorem lane_ofLanes (f : Fin 4 → BitVec 32) : lane (ofLanes f) k = f k := by
  apply BitVec.eq_of_getLsbD_eq
  intro i hi
  rw [getLsbD_lane _ _ hi, getLsbD_ofLanes _ _ _ (Nat.mod_lt i (by decide)), Nat.div_add_mod]

@[simp] theorem lane_andSi128 : lane (andSi128 a b) k = lane a k &&& lane b k := by
  apply BitVec.eq_of_getLsbD_eq
  intro i hi
  rw [BitVec.getLsbD_and, getLsbD_lane _ _ hi, getLsbD_lane _ _ hi, getLsbD_lane _ _ hi, andSi128, BitVec.getLsbD_and]

@[simp] theorem lane_orSi128 : lane (orSi128 a b) k = lane a k ||| lane b k := by
  apply BitVec.eq_of_getLsbD_eq
  intro i hi
  rw [BitVec.getLsbD_or, getLsbD_lane _ _ hi, getLsbD_lane _ _ hi, getLsbD_lane _ _ hi, orSi128, BitVec.getLsbD_or]

/-- The bytes of a register are those of its lanes. -/
theorem ofLanes_lane : ofLanes (lane v) = v := by
  funext k j
  apply BitVec.eq_of_getLsbD_eq
  intro i hi
  have hdiv : (8 * j.val + i) / 8 = j := by omega
  have hmod : (8 * j.val + i) % 8 = i := by omega
  rw [getLsbD_ofLanes _ _ _ hi, getLsbD_lane _ _ (by omega), hmod]
  congr 2
  exact Fin.ext hdiv

@[simp] theorem lane_set1Epi32 (c : BitVec 32) : lane (set1Epi32 c) k = c := lane_ofLanes ..

@[simp] theorem lane_srliEpi32 (n : ℕ) : lane (srliEpi32 v n) k = lane v k >>> n := lane_ofLanes ..

@[simp] theorem lane_slliEpi32 (n : ℕ) : lane (slliEpi32 v n) k = lane v k <<< n := lane_ofLanes ..

/-- A byte by its lane. -/
theorem byte_eq (j : Fin 4) : v k j = (lane v k).extractLsb' (8 * j) 8 := congrFun (congrFun (ofLanes_lane v).symm k) j

/-! ### Masks -/

theorem testBit_movemask (i : Fin 16) :
    (movemaskEpi8 v).testBit i = (v ⟨i / 4, by omega⟩ ⟨i % 4, by omega⟩).msb := by
  rw [movemaskEpi8, Nat.testBit_ofBits_lt _ _ i.isLt]

/-- The mask has all the bits below `n` if and only if the first `n` bytes have their highest bits. -/
theorem movemask_and_iff {n : ℕ} (hn : n ≤ 16) :
    movemaskEpi8 v &&& (2 ^ n - 1) = 2 ^ n - 1 ↔
      ∀ i : Fin 16, i < n → (v ⟨i / 4, by omega⟩ ⟨i % 4, by omega⟩).msb = true := by
  constructor
  · intro h i hi
    have hbit := congrArg (Nat.testBit · i) h
    simp only [Nat.testBit_and, Nat.testBit_two_pow_sub_one, hi, decide_true, Bool.and_true] at hbit
    rw [← testBit_movemask, hbit]
  · intro h
    apply Nat.eq_of_testBit_eq
    intro i
    rw [Nat.testBit_and, Nat.testBit_two_pow_sub_one]
    by_cases hi : i < n
    · have hbit := testBit_movemask v ⟨i, by omega⟩
      rw [h ⟨i, by omega⟩ hi] at hbit
      rw [hbit, Bool.true_and]
    · simp [hi]

theorem movemask_eq_iff :
    movemaskEpi8 v = 0xFFFF ↔ ∀ i : Fin 16, i.val < 16 → (v ⟨i / 4, by omega⟩ ⟨i % 4, by omega⟩).msb = true := by
  have hlt : movemaskEpi8 v < 2 ^ 16 := Nat.ofBits_lt_two_pow _
  rw [← movemask_and_iff v le_rfl, Nat.and_two_pow_sub_one_eq_mod, Nat.mod_eq_of_lt hlt]
  exact Iff.rfl

end NeForce.Ssse3
