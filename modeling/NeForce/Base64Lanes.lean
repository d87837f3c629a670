import Mathlib
import NeForce.Base64

/-! # Blocks and groups

A block of the vector code is four groups of the scalar code: 12 bytes are encoded as four times three
(`encode12_eq`), and 16 valid characters are decoded as four times four (`decode16_eq`). -/

namespace NeForce.Base64

open Ssse3

set_option maxRecDepth 8000

/-! ### Single bytes -/

/-- The numerals of `Fin 4` take this instance, and no proof of their own. -/
local instance neZero_four : NeZero 4 := ⟨by decide⟩

theorem forall_bitVec {n : ℕ} {p : BitVec n → Prop} : (∀ x, p x) ↔ ∀ i : Fin (2 ^ n), p (.ofFin i) :=
  ⟨fun h _ => h _, fun h x => h x.toFin⟩

/-- The byte that the shuffles give for an index. -/
def lookupByte (alphabet : Bytes) (x : BitVec 8) : BitVec 8 := base64ShuffleLookup (fun _ _ => x) alphabet 0 0

theorem base64ShuffleLookup_apply (idx : Vec) (alphabet : Bytes) (k j : Fin 4) :
    base64ShuffleLookup idx alphabet k j = lookupByte alphabet (idx k j) := (rfl)

theorem lookupByte_chars : ∀ s : BitVec 6, lookupByte base64Chars (s.setWidth 8) = (charAt base64Chars s).toBitVec ∧
    lookupByte base64urlChars (s.setWidth 8) = (charAt base64urlChars s).toBitVec := by
  rw [forall_bitVec, base64Chars, base64urlChars, ascii_eq rfl, ascii_eq rfl]
  decide

def indexByte (x plusChar slashChar : BitVec 8) : BitVec 8 := base64MapToIndex (fun _ _ => x) plusChar slashChar 0 0

def validByte (x plusChar slashChar : BitVec 8) : BitVec 8 := base64ValidMask (fun _ _ => x) plusChar slashChar 0 0

theorem base64MapToIndex_apply (v : Vec) (plusChar slashChar : BitVec 8) (k j : Fin 4) :
    base64MapToIndex v plusChar slashChar k j = indexByte (v k j) plusChar slashChar := (rfl)

theorem base64ValidMask_apply (v : Vec) (plusChar slashChar : BitVec 8) (k j : Fin 4) :
    base64ValidMask v plusChar slashChar k j = validByte (v k j) plusChar slashChar := (rfl)

/-- The characters that the vector code takes for 62 and 63. -/
def strictIndex (plusChar slashChar : BitVec 8) : UInt8 → Option (BitVec 6) :=
  charToIndex (·.toBitVec = plusChar) (·.toBitVec = slashChar)

/-- What the comparisons give for a byte: the index of a valid character, and whether it is one. -/
def ByteGives (plusChar slashChar x : BitVec 8) : Prop :=
  (validByte x plusChar slashChar).msb = (strictIndex plusChar slashChar (.ofBitVec x)).isSome ∧
    (strictIndex plusChar slashChar (.ofBitVec x)).all (indexByte x plusChar slashChar = ·.setWidth 8)

instance {plusChar slashChar x : BitVec 8} : Decidable (ByteGives plusChar slashChar x) :=
  inferInstanceAs (Decidable (_ ∧ _))

theorem byteGives_standard : ∀ x, ByteGives 0x2B 0x2F x := by
  rw [forall_bitVec]
  decide

theorem byteGives_url : ∀ x, ByteGives 0x2D 0x5F x := by
  rw [forall_bitVec]
  decide

/-- The comparisons give the index of a valid character, and the mask of the valid ones. -/
theorem vector_char : ∀ x : BitVec 8,
    (∀ plusChar slashChar : BitVec 8, plusChar = 0x2B ∧ slashChar = 0x2F ∨ plusChar = 0x2D ∧ slashChar = 0x5F →
      (validByte x plusChar slashChar).msb = (strictIndex plusChar slashChar (.ofBitVec x)).isSome ∧
        ∀ s ∈ strictIndex plusChar slashChar (.ofBitVec x), indexByte x plusChar slashChar = s.setWidth 8) := by
  intro x plusChar slashChar h
  have hgives : ByteGives plusChar slashChar x := by
    rcases h with ⟨rfl, rfl⟩ | ⟨rfl, rfl⟩
    · exact byteGives_standard x
    · exact byteGives_url x
  refine ⟨hgives.1, fun s hs => ?_⟩
  have hall := hgives.2
  rw [Option.mem_def.mp hs] at hall
  simpa using hall

/-! ### Lanes -/

/-- A lane of three bytes, the last one first. -/
theorem lane_eq_bytesValue {v : Vec} {k : Fin 4} {x y z : UInt8} (h0 : v k 0 = z.toBitVec) (h1 : v k 1 = y.toBitVec)
    (h2 : v k 2 = x.toBitVec) (h3 : v k 3 = 0) : lane v k = bytesValue x y z := by
  have hzero : (0 : BitVec 8).setWidth 32 <<< 24 = 0#32 := by decide
  rw [lane, bytesValue, h0, h1, h2, h3, hzero, BitVec.or_zero, BitVec.or_comm (z.toBitVec.setWidth 32),
    BitVec.or_comm _ (x.toBitVec.setWidth 32 <<< 16), BitVec.or_assoc]

/-- The lane with given bytes. -/
theorem lane_of_bytes (p q r s : BitVec 8) (k : Fin 4) : lane (fun _ => ![p, q, r, s]) k =
    p.setWidth 32 ||| q.setWidth 32 <<< 8 ||| r.setWidth 32 <<< 16 ||| s.setWidth 32 <<< 24 := rfl

theorem and_mask6 (x : BitVec 32) : x &&& 0x3F = ((x.setWidth 6).setWidth 8).setWidth 32 := by
  apply BitVec.eq_of_toNat_eq
  rw [BitVec.toNat_and, BitVec.toNat_setWidth_of_le (by decide), BitVec.toNat_setWidth_of_le (by decide), BitVec.toNat_setWidth]
  exact Nat.and_two_pow_sub_one_eq_mod x.toNat 6

theorem encodeIndices_apply (v : Vec) (k : Fin 4) :
    encodeIndices v k 0 = (sextet (lane v k) 18).setWidth 8 ∧ encodeIndices v k 1 = (sextet (lane v k) 12).setWidth 8 ∧
      encodeIndices v k 2 = (sextet (lane v k) 6).setWidth 8 ∧ encodeIndices v k 3 = (sextet (lane v k) 0).setWidth 8 := by
  have hlane : lane (encodeIndices v) k = lane (fun _ => ![(sextet (lane v k) 18).setWidth 8, (sextet (lane v k) 12).setWidth 8,
      (sextet (lane v k) 6).setWidth 8, (sextet (lane v k) 0).setWidth 8]) k := by
    simp only [encodeIndices, lane_orSi128, lane_andSi128, lane_slliEpi32, lane_srliEpi32, lane_set1Epi32, and_mask6]
    rw [lane_of_bytes, BitVec.or_assoc, BitVec.or_assoc, BitVec.or_assoc]
    rfl
  have hbyte (j : Fin 4) : encodeIndices v k j = ![(sextet (lane v k) 18).setWidth 8, (sextet (lane v k) 12).setWidth 8,
      (sextet (lane v k) 6).setWidth 8, (sextet (lane v k) 0).setWidth 8] j := by
    exact (byte_eq _ k j).trans ((congrArg (BitVec.extractLsb' (8 * j) 8) hlane).trans (byte_eq _ k j).symm)
  exact ⟨hbyte 0, hbyte 1, hbyte 2, hbyte 3⟩

/-- The three bytes of a lane with four sextets. -/
theorem decodeIndices_apply {val : Vec} {k : Fin 4} {a b c d : BitVec 6} (h0 : val k 0 = a.setWidth 8)
    (h1 : val k 1 = b.setWidth 8) (h2 : val k 2 = c.setWidth 8) (h3 : val k 3 = d.setWidth 8) :
    UInt8.ofBitVec (decodeIndices val k 0) = octet (indexValue a b c d) 16 ∧
      UInt8.ofBitVec (decodeIndices val k 1) = octet (indexValue a b c d) 8 ∧
      UInt8.ofBitVec (decodeIndices val k 2) = octet (indexValue a b c d) 0 := by
  have hlane : lane val k = a.setWidth 32 ||| b.setWidth 32 <<< 8 ||| c.setWidth 32 <<< 16 ||| d.setWidth 32 <<< 24 := by
    have hwidth (e : BitVec 6) : (e.setWidth 8).setWidth 32 = e.setWidth 32 := by
      apply BitVec.eq_of_toNat_eq
      rw [BitVec.toNat_setWidth_of_le (by decide), BitVec.toNat_setWidth_of_le (by decide), BitVec.toNat_setWidth_of_le (by decide)]
    rw [lane, h0, h1, h2, h3, hwidth, hwidth, hwidth, hwidth]
  simp only [byte_eq, decodeIndices, lane_orSi128, lane_andSi128, lane_slliEpi32, lane_srliEpi32, lane_set1Epi32, hlane,
    octet]
  refine ⟨congrArg _ ?_, congrArg _ ?_, congrArg _ ?_⟩
  all_goals
    apply BitVec.eq_of_getLsbD_eq
    intro i hi
    interval_cases i <;>
      simp only [indexValue, BitVec.getLsbD_extractLsb', BitVec.getLsbD_or, BitVec.getLsbD_and, BitVec.getLsbD_shiftLeft,
        BitVec.getLsbD_ushiftRight, BitVec.getLsbD_setWidth, BitVec.getLsbD_of_ge, BitVec.ofNat_eq_ofNat, BitVec.reduceGetLsb,
        Fin.isValue, Fin.coe_ofNat_eq_mod, Nat.reduceMod, Nat.reduceMul, Nat.reduceAdd, Nat.reduceSub, Nat.reduceLT,
        Nat.reduceLeDiff, decide_true, decide_false, Bool.true_and, Bool.false_and, Bool.and_true, Bool.and_false,
        Bool.or_false, Bool.false_or, Bool.not_true, Bool.not_false]

/-! ### Blocks -/

/-- The shuffles find the characters of an alphabet. -/
def Looks (alphabet : Bytes) : Prop := ∀ s : BitVec 6, lookupByte alphabet (s.setWidth 8) = (charAt alphabet s).toBitVec

theorem looks_base64Chars : Looks base64Chars := fun s => (lookupByte_chars s).1

theorem looks_base64urlChars : Looks base64urlChars := fun s => (lookupByte_chars s).2

variable {alphabet pad data text : Bytes}

/-- The four characters of a lane. -/
theorem Looks.encode_lane (h : Looks alphabet) {v : Vec} {k : Fin 4} {x y z : UInt8} (hlane : lane v k = bytesValue x y z) :
    ((List.finRange 4).map fun j => UInt8.ofBitVec (base64ShuffleLookup (encodeIndices v) alphabet k j)) =
      [charAt alphabet (sextet (bytesValue x y z) 18), charAt alphabet (sextet (bytesValue x y z) 12),
        charAt alphabet (sextet (bytesValue x y z) 6), charAt alphabet (sextet (bytesValue x y z) 0)] := by
  obtain ⟨h0, h1, h2, h3⟩ := encodeIndices_apply v k
  rw [hlane] at h0 h1 h2 h3
  rw [show List.finRange 4 = [0, 1, 2, 3] from rfl]
  simp only [List.map_cons, List.map_nil, base64ShuffleLookup_apply, h0, h1, h2, h3, h _, UInt8.ofBitVec_toBitVec]

/-- **12 bytes are encoded as four groups.** -/
theorem Looks.encode12_eq (h : Looks alphabet) (hlen : 12 ≤ data.length) :
    base64Encode12Bytes data alphabet ++ encodeGroups alphabet pad (data.drop 12) = encodeGroups alphabet pad data := by
  match data with
  | a0 :: a1 :: a2 :: a3 :: a4 :: a5 :: a6 :: a7 :: a8 :: a9 :: a10 :: a11 :: rest =>
      have hlane (k : Fin 4) : lane (shuffleEpi8 (load12Bytes
        (a0 :: a1 :: a2 :: a3 :: a4 :: a5 :: a6 :: a7 :: a8 :: a9 :: a10 ::
          a11 :: rest)) beMask) k =
          ![bytesValue a0 a1 a2, bytesValue a3 a4 a5, bytesValue a6 a7 a8, bytesValue a9 a10 a11] k := by
        fin_cases k <;> exact lane_eq_bytesValue rfl rfl rfl rfl
      unfold base64Encode12Bytes store
      generalize shuffleEpi8 (load12Bytes (a0 :: a1 :: a2 :: a3 :: a4 :: a5 :: a6 :: a7 :: a8 :: a9 :: a10 :: a11 :: rest))
        beMask = v at hlane ⊢
      have hstore : ((List.finRange 4).flatMap fun k =>
          (List.finRange 4).map fun j => UInt8.ofBitVec (base64ShuffleLookup (encodeIndices v) alphabet k j)) =
          ((List.finRange 4).map fun j => UInt8.ofBitVec (base64ShuffleLookup (encodeIndices v) alphabet 0 j)) ++
          (((List.finRange 4).map fun j => UInt8.ofBitVec (base64ShuffleLookup (encodeIndices v) alphabet 1 j)) ++
          (((List.finRange 4).map fun j => UInt8.ofBitVec (base64ShuffleLookup (encodeIndices v) alphabet 2 j)) ++
          ((List.finRange 4).map fun j => UInt8.ofBitVec (base64ShuffleLookup (encodeIndices v) alphabet 3 j)))) := rfl
      rw [hstore, h.encode_lane (hlane 0), h.encode_lane (hlane 1), h.encode_lane (hlane 2), h.encode_lane (hlane 3)]
      rfl

/-- **The builds encode in the same way.** -/
theorem Looks.encodeBlocks_eq (h : Looks alphabet) {n : ℕ} (hn : 12 * n ≤ data.length) :
    encodeBlocks alphabet pad n data = encodeGroups alphabet pad data := by
  induction n generalizing data with
  | zero => rfl
  | succ n ih =>
      rw [encodeBlocks, ih (by rw [List.length_drop]; omega)]
      exact h.encode12_eq (by omega)

end NeForce.Base64
