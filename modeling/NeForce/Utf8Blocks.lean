import NeForce.CodepointScalar
import NeForce.Utf8Vectors

/-! # The vector blocks of `decode_utf8_chunk`

The tests and the decoders of the blocks by their instructions; on sixteen bytes each is what the functions on bytes say, so
that `decode_utf8_chunk` with its loads reads what single characters give, and never beyond the end. -/

namespace NeForce.Utf8Blocks

open Ssse3 Utf8Vectors Codepoint

set_option maxRecDepth 8000

/-! ### The blocks -/

/-- `expand_ascii16`. -/
def expandAscii16 (v : Vec) : List ℕ :=
  let lowHalf := unpackEpi8 0 v zero
  let highHalf := unpackEpi8 8 v zero
  storeLanes (unpackEpi16 0 lowHalf zero) ++ storeLanes (unpackEpi16 8 lowHalf zero) ++
    storeLanes (unpackEpi16 0 highHalf zero) ++ storeLanes (unpackEpi16 8 highHalf zero)

def len2Ok (v : Vec) : Bool :=
  let byteMask := set1Epi16 0x00FF
  let lead := andSi128 v byteMask
  let cont := andSi128 (srliEpi16 v 8) byteMask
  let leadLow := cmpgtEpi16 lead (set1Epi16 0x00C1)
  let leadHigh := cmpgtEpi16 (set1Epi16 0x00E0) lead
  let contOk := cmpeqEpi16 (andSi128 cont (set1Epi16 0x00C0)) (set1Epi16 0x0080)
  movemaskEpi8 (andSi128 (andSi128 leadLow leadHigh) contOk) = 0xFFFF

def decodeLen2 (v : Vec) : List ℕ :=
  let lead := andSi128 v (set1Epi16 0x001F)
  let cont := andSi128 (srliEpi16 v 8) (set1Epi16 0x003F)
  let packed := orSi128 (slliEpi16 lead 6) cont
  storeLanes (unpackEpi16 0 packed zero) ++ storeLanes (unpackEpi16 8 packed zero)

def len4Ok (v : Vec) : Bool :=
  let byteMask := set1Epi32 0x000000FF
  let b0 := andSi128 v byteMask
  let b1 := andSi128 (srliEpi32 v 8) byteMask
  let b2 := andSi128 (srliEpi32 v 16) byteMask
  let b3 := andSi128 (srliEpi32 v 24) byteMask
  let b0Low := cmpgtEpi32 b0 (set1Epi32 0xEF)
  let b0High := cmpgtEpi32 (set1Epi32 0xF5) b0
  let contMask := set1Epi32 0xC0
  let contValue := set1Epi32 0x80
  let c1 := cmpeqEpi32 (andSi128 b1 contMask) contValue
  let c2 := cmpeqEpi32 (andSi128 b2 contMask) contValue
  let c3 := cmpeqEpi32 (andSi128 b3 contMask) contValue
  let ok := andSi128 (andSi128 b0Low b0High) (andSi128 c1 (andSi128 c2 c3))
  let isF0 := cmpeqEpi32 b0 (set1Epi32 0xF0)
  let isF4 := cmpeqEpi32 b0 (set1Epi32 0xF4)
  let f0Edge := andSi128 isF0 (cmpgtEpi32 (set1Epi32 0x90) b1)
  let f4Edge := andSi128 isF4 (cmpgtEpi32 b1 (set1Epi32 0x8F))
  movemaskEpi8 (andnotSi128 (orSi128 f0Edge f4Edge) ok) = 0xFFFF

def decodeLen4 (v : Vec) : List ℕ :=
  let contBits := set1Epi32 0x3F
  let b0 := andSi128 v (set1Epi32 0x07)
  let b1 := andSi128 (srliEpi32 v 8) contBits
  let b2 := andSi128 (srliEpi32 v 16) contBits
  let b3 := andSi128 (srliEpi32 v 24) contBits
  storeLanes (orSi128 (orSi128 (slliEpi32 b0 18) (slliEpi32 b1 12)) (orSi128 (slliEpi32 b2 6) b3))

/-- Three shuffles of four bytes each. -/
def everyThird (v : Vec) (start : BitVec 8) : Vec :=
  shuffleEpi8 v (setrEpi8 ([start, start + 3, start + 6, start + 9] ++ List.replicate 12 0x80))

def len3Ok (v : Vec) : Bool :=
  let lead := everyThird v 0
  let first := everyThird v 1
  let second := everyThird v 2
  let leadOk := cmpeqEpi8 (andSi128 lead (set1Epi8 0xF0)) (set1Epi8 0xE0)
  let contMask := set1Epi8 0xC0
  let contValue := set1Epi8 0x80
  let firstOk := cmpeqEpi8 (andSi128 first contMask) contValue
  let secondOk := cmpeqEpi8 (andSi128 second contMask) contValue
  let ok := andSi128 (andSi128 leadOk firstOk) secondOk
  let firstBelowA0 := cmpeqEpi8 (maxEpu8 first (set1Epi8 0x9F)) (set1Epi8 0x9F)
  let isE0 := cmpeqEpi8 lead (set1Epi8 0xE0)
  let isEd := cmpeqEpi8 lead (set1Epi8 0xED)
  let e0Edge := andSi128 isE0 firstBelowA0
  let edEdge := andSi128 isEd (cmpeqEpi8 firstBelowA0 zero)
  let okBits := movemaskEpi8 ok &&& 0x000F
  let edgeBits := movemaskEpi8 (orSi128 e0Edge edEdge) &&& 0x000F
  okBits = 0x000F && edgeBits = 0

def decodeLen3 (v : Vec) : List ℕ :=
  let gathered := shuffleEpi8 v
    (setrEpi8 [0, 1, 2, 0x80, 3, 4, 5, 0x80, 6, 7, 8, 0x80, 9, 10, 11, 0x80])
  let b0 := andSi128 gathered (set1Epi32 0x0F)
  let b1 := andSi128 (srliEpi32 gathered 8) (set1Epi32 0x3F)
  let b2 := andSi128 (srliEpi32 gathered 16) (set1Epi32 0x3F)
  storeLanes (orSi128 (slliEpi32 b0 12) (orSi128 (slliEpi32 b1 6) b2))

/-! ### Two bytes -/

variable {src : Bytes} (b0 b1 b2 b3 : UInt8)

/-- What the comparisons of `len2Ok` give for a lane. -/
def wordOk (h : BitVec 16) : Bool :=
  (0x00C1#16).slt (h &&& 0x00FF) && (h &&& 0x00FF).slt 0x00E0 && ((h >>> 8 &&& 0x00FF) &&& 0x00C0 = 0x0080)

theorem len2Ok_iff (v : Vec) : len2Ok v = true ↔ ∀ k i, wordOk (half v k i) = true := by
  unfold len2Ok
  dsimp only
  rw [decide_eq_true_iff, ← movemask_ofHalves]
  apply Eq.congr_left
  apply congrArg
  apply eq_ofHalves
  intro k i
  simp only [half_andSi128, half_cmpgtEpi16, half_cmpeqEpi16, half_set1Epi16, half_srliEpi16, mask_and]
  rfl

theorem word_ok : ∀ b : UInt8,
    ((0x00C1#16).slt (b.toBitVec.setWidth 16) && (b.toBitVec.setWidth 16).slt 0x00E0) =
      (decide (0xC1 < b) && decide (b < 0xE0)) ∧
    decide (b.toBitVec.setWidth 16 &&& (0x00C0 : BitVec 16) = 0x0080) = isContinuation b ∧
    ((b.toBitVec.setWidth 16 &&& (0x001F : BitVec 16)) <<< 6).toNat = (b.toNat &&& 0x1F) <<< 6 ∧
    (b.toBitVec.setWidth 16 &&& (0x003F : BitVec 16)).toNat = b.toNat &&& 0x3F ∧
    b.toBitVec.setWidth 16 &&& (0x00FF : BitVec 16) = b.toBitVec.setWidth 16 := by
  rw [forall_uint8]
  decide

theorem wordOk_word (lo hi : UInt8) : wordOk (word lo hi) = (0xC1 < lo && lo < 0xE0 && isContinuation hi) := by
  unfold wordOk
  rw [word_srl, (word_ok hi).2.2.2.2, (word_ok hi).2.1, word_and, (word_ok lo).1]

/-- The value of a lane in `decodeLen2`. -/
def wordValue (h : BitVec 16) : BitVec 16 := (h &&& 0x001F) <<< 6 ||| (h >>> 8 &&& 0x003F)

theorem wordValue_word (lo hi : UInt8) :
    (wordValue (word lo hi)).toNat = (lo.toNat &&& 0x1F) <<< 6 ||| (hi.toNat &&& 0x3F) := by
  have h : word lo hi &&& 0x001F = (word lo hi &&& 0x00FF) &&& 0x001F := by
    rw [BitVec.and_assoc]; rfl
  unfold wordValue
  rw [BitVec.toNat_or, word_srl, h, word_and, (word_ok lo).2.2.1, (word_ok hi).2.2.2.1]

theorem decodeLen2_eq (v : Vec) : decodeLen2 v = (halves v).map fun h => (wordValue h).toNat := by
  unfold decodeLen2
  dsimp only
  rw [store_unpackEpi16]
  unfold halves
  simp only [half_orSi128, half_andSi128, half_slliEpi16, half_srliEpi16, half_set1Epi16]
  rfl

/-- The sixteen bytes, stored with 32 bits each. -/
theorem expandAscii16_eq (v : Vec) : expandAscii16 v = (bytes v).map BitVec.toNat := by
  unfold expandAscii16
  dsimp only
  rw [store_unpackEpi16, List.append_assoc, store_unpackEpi16]
  have hhalf (start : ℕ) (k : Fin 4) (i : Fin 2) :
      (half (unpackEpi8 start v zero) k i).toNat = (byte v (start + (4 * k + 2 * i) / 2)).toNat := by
    have h : half (unpackEpi8 start v zero) k i = (byte v (start + (4 * k + 2 * i) / 2)).setWidth 16 := by
      apply BitVec.eq_of_getLsbD_eq
      intro n hn
      unfold half unpackEpi8 zero byte
      fin_cases i <;> interval_cases n <;> simp
    rw [h, BitVec.toNat_setWidth_of_le (by decide)]
  unfold halves
  simp only [List.map_cons, hhalf]
  rfl

/-- The bytes of a block by name. -/
theorem exists_bytes (h : src.length = 16) : ∃ c0 c1 c2 c3 c4 c5 c6 c7 c8 c9 c10 c11 c12 c13 c14 c15,
    src = [c0, c1, c2, c3, c4, c5, c6, c7, c8, c9, c10, c11, c12, c13, c14, c15] := by
  match src, h with
  | [_, _, _, _, _, _, _, _, _, _, _, _, _, _, _, _], _ => exact ⟨_, _, _, _, _, _, _, _, _, _, _, _, _, _, _, _, rfl⟩

theorem len2Ok_load (h : src.length = 16) : len2Ok (load src) = blockLen2Ok src := by
  obtain ⟨c0, c1, c2, c3, c4, c5, c6, c7, c8, c9, c10, c11, c12, c13, c14, c15, rfl⟩ := exists_bytes h
  rw [Bool.eq_iff_iff, len2Ok_iff]
  simp only [half_load, wordOk_word, Fin.forall_fin_succ, IsEmpty.forall_iff, and_true]
  simp only [blockLen2Ok, Bool.and_true, Bool.and_eq_true, and_assoc]
  exact Iff.rfl

theorem decodeLen2_load (h : src.length = 16) : decodeLen2 (load src) = decodeLen2Block src := by
  obtain ⟨c0, c1, c2, c3, c4, c5, c6, c7, c8, c9, c10, c11, c12, c13, c14, c15, rfl⟩ := exists_bytes h
  rw [decodeLen2_eq]
  simp only [halves, half_load, List.map_cons, wordValue_word]
  rfl

theorem expandAscii16_load (h : src.length = 16) : expandAscii16 (load src) = src.map UInt8.toNat := by
  obtain ⟨c0, c1, c2, c3, c4, c5, c6, c7, c8, c9, c10, c11, c12, c13, c14, c15, rfl⟩ := exists_bytes h
  rw [expandAscii16_eq]
  rfl

theorem msb_eq_false : ∀ b : UInt8, b.toBitVec.msb = false ↔ isAscii b = true := by
  rw [forall_uint8]
  decide

theorem movemask_load (h : src.length = 16) : decide (movemaskEpi8 (load src) = 0) = src.all isAscii := by
  obtain ⟨c0, c1, c2, c3, c4, c5, c6, c7, c8, c9, c10, c11, c12, c13, c14, c15, rfl⟩ := exists_bytes h
  rw [Bool.eq_iff_iff, decide_eq_true_iff, movemask_zero]
  simp only [Fin.forall_fin_succ, IsEmpty.forall_iff, and_true, load, msb_eq_false]
  simp only [List.all_cons, List.all_nil, Bool.and_true, Bool.and_eq_true, and_assoc]
  exact Iff.rfl

/-! ### Four bytes -/

/-- What the comparisons of `len4Ok` give for the four bytes of a lane. -/
def quadOk (c0 c1 c2 c3 : BitVec 32) : Bool :=
  let continuation (c : BitVec 32) : Bool := c &&& 0xC0 = 0x80
  !(decide (c0 = 0xF0) && c1.slt 0x90 || decide (c0 = 0xF4) && (0x8F#32).slt c1) &&
    ((0xEF#32).slt c0 && c0.slt 0xF5 && (continuation c1 && (continuation c2 && continuation c3)))

theorem len4Ok_iff (v : Vec) : len4Ok v = true ↔ ∀ k, quadOk (lane v k &&& 0x000000FF) (lane v k >>> 8 &&& 0x000000FF)
    (lane v k >>> 16 &&& 0x000000FF) (lane v k >>> 24 &&& 0x000000FF) = true := by
  unfold len4Ok
  dsimp only
  rw [decide_eq_true_iff, ← movemask_ofLanes]
  apply Eq.congr_left
  apply congrArg
  apply eq_ofLanes
  intro k
  simp only [lane_andSi128, lane_orSi128, lane_andnotSi128, lane_cmpgtEpi32, lane_cmpeqEpi32, lane_set1Epi32, lane_srliEpi32,
    mask_and, mask_or, not_mask]
  rfl

theorem byte32_ok : ∀ b : UInt8,
    ((0xEF#32).slt (b.toBitVec.setWidth 32) && (b.toBitVec.setWidth 32).slt 0xF5) =
      (decide (0xEF < b) && decide (b < 0xF5)) ∧
    decide (b.toBitVec.setWidth 32 &&& (0xC0 : BitVec 32) = 0x80) = isContinuation b ∧
    decide (b.toBitVec.setWidth 32 = (0xF0 : BitVec 32)) = decide (b = 0xF0) ∧
    decide (b.toBitVec.setWidth 32 = (0xF4 : BitVec 32)) = decide (b = 0xF4) ∧
    (b.toBitVec.setWidth 32).slt (0x90 : BitVec 32) = decide (b < 0x90) ∧
    (0x8F#32).slt (b.toBitVec.setWidth 32) = decide (0x8F < b) := by
  rw [forall_uint8]
  decide

theorem quadOk_bytes : quadOk (b0.toBitVec.setWidth 32) (b1.toBitVec.setWidth 32) (b2.toBitVec.setWidth 32)
    (b3.toBitVec.setWidth 32) = (0xEF < b0 && b0 < 0xF5 && isContinuation b1 && isContinuation b2 && isContinuation b3 &&
      !(b0 = 0xF0 && b1 < 0x90) && !(b0 = 0xF4 && 0x8F < b1)) := by
  obtain ⟨h0, -, hF0, hF4, -⟩ := byte32_ok b0
  obtain ⟨-, h1, -, -, h90, h8F⟩ := byte32_ok b1
  unfold quadOk
  dsimp only
  rw [h0, h1, hF0, hF4, h90, h8F, (byte32_ok b2).2.1, (byte32_ok b3).2.1, Bool.not_or]
  ac_rfl

theorem len4Ok_load (h : src.length = 16) : len4Ok (load src) = blockLen4Ok src := by
  obtain ⟨c0, c1, c2, c3, c4, c5, c6, c7, c8, c9, c10, c11, c12, c13, c14, c15, rfl⟩ := exists_bytes h
  rw [Bool.eq_iff_iff, len4Ok_iff]
  simp only [lane_load, quad_and, quad_srl8, quad_srl16, quad_srl24, quadOk_bytes]
  simp only [Fin.forall_fin_succ, IsEmpty.forall_iff, and_true]
  simp only [blockLen4Ok, Bool.and_true, Bool.and_eq_true, and_assoc]
  exact Iff.rfl

theorem byte32_value : ∀ b : UInt8,
    ((b.toBitVec.setWidth 32 &&& (0x07 : BitVec 32)) <<< 18).toNat = (b.toNat &&& 0x07) <<< 18 ∧
    ((b.toBitVec.setWidth 32 &&& (0x3F : BitVec 32)) <<< 12).toNat = (b.toNat &&& 0x3F) <<< 12 ∧
    ((b.toBitVec.setWidth 32 &&& (0x3F : BitVec 32)) <<< 6).toNat = (b.toNat &&& 0x3F) <<< 6 ∧
    (b.toBitVec.setWidth 32 &&& (0x3F : BitVec 32)).toNat = b.toNat &&& 0x3F ∧
    ((b.toBitVec.setWidth 32 &&& (0x0F : BitVec 32)) <<< 12).toNat = (b.toNat &&& 0x0F) <<< 12 := by
  rw [forall_uint8]
  decide

/-- A narrower mask needs no wider one. -/
theorem and_narrow (x : BitVec 32) : x &&& 0x07 = (x &&& 0x000000FF) &&& 0x07 ∧
    x &&& 0x0F = (x &&& 0x000000FF) &&& 0x0F ∧ x &&& 0x3F = (x &&& 0x000000FF) &&& 0x3F := by
  simp only [BitVec.and_assoc]
  exact ⟨rfl, rfl, rfl⟩

/-- The values of a lane in `decodeLen4` and `decodeLen3`. -/
def quadValue (x : BitVec 32) : BitVec 32 :=
  (x &&& 0x07) <<< 18 ||| (x >>> 8 &&& 0x3F) <<< 12 ||| ((x >>> 16 &&& 0x3F) <<< 6 ||| (x >>> 24 &&& 0x3F))

def tripleValue (x : BitVec 32) : BitVec 32 :=
  (x &&& 0x0F) <<< 12 ||| ((x >>> 8 &&& 0x3F) <<< 6 ||| (x >>> 16 &&& 0x3F))

theorem quadValue_quad : (quadValue (quad b0 b1 b2 b3)).toNat =
    (b0.toNat &&& 0x07) <<< 18 ||| (b1.toNat &&& 0x3F) <<< 12 ||| ((b2.toNat &&& 0x3F) <<< 6 ||| (b3.toNat &&& 0x3F)) := by
  unfold quadValue
  rw [(and_narrow (quad ..)).1, (and_narrow (quad .. >>> 8)).2.2, (and_narrow (quad .. >>> 16)).2.2,
    (and_narrow (quad .. >>> 24)).2.2, quad_and, quad_srl8, quad_srl16, quad_srl24]
  simp only [BitVec.toNat_or, (byte32_value _).1, (byte32_value _).2.1, (byte32_value _).2.2.1, (byte32_value _).2.2.2.1]

theorem tripleValue_quad : (tripleValue (quad b0 b1 b2 b3)).toNat =
    (b0.toNat &&& 0x0F) <<< 12 ||| ((b1.toNat &&& 0x3F) <<< 6 ||| (b2.toNat &&& 0x3F)) := by
  unfold tripleValue
  rw [(and_narrow (quad ..)).2.1, (and_narrow (quad .. >>> 8)).2.2, (and_narrow (quad .. >>> 16)).2.2,
    quad_and, quad_srl8, quad_srl16]
  simp only [BitVec.toNat_or, (byte32_value _).2.2.1, (byte32_value _).2.2.2.1, (byte32_value _).2.2.2.2]

theorem decodeLen4_load (h : src.length = 16) : decodeLen4 (load src) = decodeLen4Block src := by
  obtain ⟨c0, c1, c2, c3, c4, c5, c6, c7, c8, c9, c10, c11, c12, c13, c14, c15, rfl⟩ := exists_bytes h
  have hlane (v : Vec) : decodeLen4 v = (lanes v).map fun x => (quadValue x).toNat := by
    unfold decodeLen4 storeLanes
    simp only [lane_orSi128, lane_andSi128, lane_slliEpi32, lane_srliEpi32, lane_set1Epi32]
    rfl
  rw [hlane]
  simp only [lanes, List.map_cons, lane_load, quadValue_quad]
  rfl

/-! ### Three bytes -/

/-- What the comparisons of `len3Ok` give for three bytes: the pattern, and the two leads with a bound of their own. -/
def tripleOk (lead first second : BitVec 8) : Bool :=
  (lead &&& 0xF0 = 0xE0) && (first &&& 0xC0 = 0x80) && (second &&& 0xC0 = 0x80)

def tripleEdge (lead first : BitVec 8) : Bool :=
  let below : Bool := (if first < 0x9F then 0x9F else first) = (0x9F : BitVec 8)
  decide (lead = 0xE0) && below || decide (lead = 0xED) && !below

theorem len3Ok_iff (v : Vec) : len3Ok v = true ↔
    ∀ j, tripleOk (everyThird v 0 0 j) (everyThird v 1 0 j) (everyThird v 2 0 j) = true ∧
      tripleEdge (everyThird v 0 0 j) (everyThird v 1 0 j) = false := by
  unfold len3Ok
  dsimp only
  rw [forall_and, Bool.and_eq_true, decide_eq_true_iff, decide_eq_true_iff, movemask_low, movemask_low_zero]
  have hzero (p : Bool) : decide (mask 8 p = 0) = !p := by
    cases p <;> decide
  simp only [andSi128, orSi128, cmpeqEpi8_apply, mask_and, mask_or, msb_mask, zero, hzero]
  rfl

theorem byte8_ok : ∀ b : UInt8,
    decide (b.toBitVec &&& (0xF0 : BitVec 8) = 0xE0) = decide (b &&& 0xF0 = 0xE0) ∧
    decide (b.toBitVec &&& (0xC0 : BitVec 8) = 0x80) = isContinuation b ∧
    decide (b.toBitVec = (0xE0 : BitVec 8)) = decide (b = 0xE0) ∧
    decide (b.toBitVec = (0xED : BitVec 8)) = decide (b = 0xED) ∧
    decide ((if b.toBitVec < (0x9F : BitVec 8) then 0x9F else b.toBitVec) = (0x9F : BitVec 8)) = decide (b ≤ 0x9F) := by
  rw [forall_uint8]
  decide

theorem triple_iff (lead first second : UInt8) :
    tripleOk lead.toBitVec first.toBitVec second.toBitVec = true ∧ tripleEdge lead.toBitVec first.toBitVec = false ↔
      (lead &&& 0xF0 = 0xE0 && isContinuation first && isContinuation second &&
        !(lead = 0xE0 && first ≤ 0x9F) && !(lead = 0xED && !(first ≤ 0x9F))) = true := by
  obtain ⟨hF0, -, hE0, hED, -⟩ := byte8_ok lead
  obtain ⟨-, h1, -, -, h9F⟩ := byte8_ok first
  unfold tripleOk tripleEdge
  dsimp only
  rw [hF0, h1, hE0, hED, h9F, (byte8_ok second).2.1, ← Bool.not_eq_true', ← Bool.and_eq_true, Bool.not_or,
    ← Bool.and_assoc]

theorem len3Ok_load (h : src.length = 16) : len3Ok (load src) = blockLen3Ok (src.take 12) := by
  obtain ⟨c0, c1, c2, c3, c4, c5, c6, c7, c8, c9, c10, c11, c12, c13, c14, c15, rfl⟩ := exists_bytes h
  have hall (P : Fin 4 → Prop) : (∀ j, P j) ↔ P 0 ∧ P 1 ∧ P 2 ∧ P 3 := by
    simp only [Fin.forall_fin_succ, IsEmpty.forall_iff, and_true]
    exact Iff.rfl
  rw [Bool.eq_iff_iff, len3Ok_iff, hall]
  change (tripleOk c0.toBitVec c1.toBitVec c2.toBitVec = true ∧ tripleEdge c0.toBitVec c1.toBitVec = false) ∧
    (tripleOk c3.toBitVec c4.toBitVec c5.toBitVec = true ∧ tripleEdge c3.toBitVec c4.toBitVec = false) ∧
    (tripleOk c6.toBitVec c7.toBitVec c8.toBitVec = true ∧ tripleEdge c6.toBitVec c7.toBitVec = false) ∧
    (tripleOk c9.toBitVec c10.toBitVec c11.toBitVec = true ∧ tripleEdge c9.toBitVec c10.toBitVec = false) ↔ _
  rw [triple_iff, triple_iff, triple_iff, triple_iff]
  simp only [List.take, blockLen3Ok, Bool.and_true]
  simp only [Bool.and_eq_true, and_assoc]

theorem decodeLen3_load (h : src.length = 16) : decodeLen3 (load src) = decodeLen3Block (src.take 12) := by
  obtain ⟨c0, c1, c2, c3, c4, c5, c6, c7, c8, c9, c10, c11, c12, c13, c14, c15, rfl⟩ := exists_bytes h
  have hlane (v : Vec) : decodeLen3 v =
      (lanes (shuffleEpi8 v (setrEpi8 [0, 1, 2, 0x80, 3, 4, 5, 0x80, 6, 7, 8, 0x80, 9, 10, 11, 0x80]))).map
        fun x => (tripleValue x).toNat := by
    unfold decodeLen3 storeLanes
    simp only [lane_orSi128, lane_andSi128, lane_slliEpi32, lane_srliEpi32, lane_set1Epi32]
    rfl
  rw [hlane]
  change [(tripleValue (quad c0 c1 c2 0)).toNat, (tripleValue (quad c3 c4 c5 0)).toNat,
    (tripleValue (quad c6 c7 c8 0)).toNat, (tripleValue (quad c9 c10 c11 0)).toNat] = _
  simp only [tripleValue_quad]
  rfl

/-! ### Chunks -/

/-- A load of sixteen bytes; there is none beyond the end of the input. -/
def loadUnaligned (data : Bytes) : Option Vec := if 16 ≤ data.length then some (load (data.take 16)) else none

/-- `_mm256_movemask_epi8` of the two halves. -/
def movemask256 (low high : Vec) : ℕ := movemaskEpi8 low + 2 ^ 16 * movemaskEpi8 high

/-- The three attempts of the loop, each with the code points and the rest if it handles the block. -/
def avx2Block (capacity : ℕ) (data : Bytes) : Option (Option (List ℕ × Bytes)) :=
  if 32 ≤ data.length ∧ 32 ≤ capacity then do
    let low ← loadUnaligned data
    let high ← loadUnaligned (data.drop 16)
    if movemask256 low high = 0 then some (some (expandAscii16 low ++ expandAscii16 high, data.drop 32)) else some none
  else some none

def sse2Block (capacity : ℕ) (data : Bytes) : Option (Option (List ℕ × Bytes)) :=
  if 16 ≤ data.length then do
    let v ← loadUnaligned data
    if movemaskEpi8 v = 0 ∧ 16 ≤ capacity then some (some (expandAscii16 v, data.drop 16))
    else if 8 ≤ capacity ∧ len2Ok v then some (some (decodeLen2 v, data.drop 16))
    else if 4 ≤ capacity ∧ len4Ok v then some (some (decodeLen4 v, data.drop 16))
    else some none
  else some none

def ssse3Block (capacity : ℕ) (data : Bytes) : Option (Option (List ℕ × Bytes)) :=
  if 16 ≤ data.length ∧ 4 ≤ capacity then do
    let v3 ← loadUnaligned data
    if len3Ok v3 then some (some (decodeLen3 v3, data.drop 12)) else some none
  else some none

/-- An attempt that the build has, unless the block is handled. -/
def attempt (enabled : Bool) (block : Option (Option (List ℕ × Bytes))) (handled : Option (List ℕ × Bytes)) :
    Option (Option (List ℕ × Bytes)) :=
  if enabled && handled.isNone then block else some handled

def vectorBlock (simd : Simd) (capacity : ℕ) (data : Bytes) : Option (Option (List ℕ × Bytes)) := do
  let handled ← attempt simd.avx2 (avx2Block capacity data) none
  let handled ← attempt simd.sse2 (sse2Block capacity data) handled
  attempt simd.ssse3 (ssse3Block capacity data) handled

def chunkLoop (simd : Simd) : ℕ → ℕ → Bytes → Option (List ℕ × Bytes)
  | 0, _, data => some ([], data)
  | fuel + 1, capacity, data =>
    if data = [] ∨ capacity = 0 then some ([], data)
    else do
      let handled ← vectorBlock simd capacity data
      let (out, rest) := handled.getD (let d := decodeUtf8Char data; ([d.cp], d.rest))
      let (outs, last) ← chunkLoop simd fuel (capacity - out.length) rest
      some (out ++ outs, last)

/-- `decode_utf8_chunk`: the code points it stores and what it leaves of the input, `none` for a load beyond the end. -/
def decodeUtf8Chunk (simd : Simd) (capacity : ℕ) (data : Bytes) : Option (List ℕ × Bytes) :=
  chunkLoop simd capacity capacity data

def transcodeLoop (simd : Simd) (B : Form) : ℕ → Bytes → Option (List B.Unit)
  | 0, _ => some []
  | fuel + 1, data =>
    if data = [] then some []
    else do
      let (codepoints, rest) ← decodeUtf8Chunk simd chunkSize data
      if rest.length = data.length then some (B.appendChunk codepoints)
      else do
        let result ← transcodeLoop simd B fuel rest
        some (B.appendChunk codepoints ++ result)

/-- `transcode_utf8`. -/
def transcodeUtf8 (simd : Simd) (B : Form) (data : Bytes) : Option (List B.Unit) := transcodeLoop simd B data.length data

variable {simd : Simd} {capacity fuel : ℕ} {data : Bytes}

theorem loadUnaligned_eq (h : 16 ≤ data.length) : loadUnaligned data = some (load (data.take 16)) := if_pos h

theorem length_take16 (h : 16 ≤ data.length) : (data.take 16).length = 16 := by
  rw [List.length_take, Nat.min_eq_left h]

theorem movemask256_eq_zero (low high : Vec) :
    movemask256 low high = 0 ↔ movemaskEpi8 low = 0 ∧ movemaskEpi8 high = 0 := by
  unfold movemask256
  omega

theorem take_32 (data : Bytes) : data.take 32 = data.take 16 ++ (data.drop 16).take 16 := List.take_add (i := 16) (j := 16)

theorem avx2Block_eq (capacity : ℕ) (data : Bytes) : avx2Block capacity data =
    some (if 32 ≤ data.length && 32 ≤ capacity && (data.take 32).all isAscii then
      some ((data.take 32).map UInt8.toNat, data.drop 32) else none) := by
  unfold avx2Block
  split
  · next h =>
    have h16 : 16 ≤ data.length := by omega
    have hd : 16 ≤ (data.drop 16).length := by rw [List.length_drop]; omega
    have hmask : movemask256 (load (data.take 16)) (load ((data.drop 16).take 16)) = 0 ↔
        (data.take 32).all isAscii = true := by
      rw [movemask256_eq_zero, take_32, List.all_append, Bool.and_eq_true, ← movemask_load (length_take16 h16),
        ← movemask_load (length_take16 hd), decide_eq_true_iff, decide_eq_true_iff]
    simp only [loadUnaligned_eq h16, loadUnaligned_eq hd, Option.bind_eq_bind, Option.bind_some, hmask,
      expandAscii16_load (length_take16 h16), expandAscii16_load (length_take16 hd), ← List.map_append, ← take_32, h,
      decide_true, Bool.true_and]
    split <;> rfl
  · next h =>
    rw [if_neg]
    simp only [Bool.and_eq_true, decide_eq_true_eq]
    exact fun hc => h hc.1

theorem sse2Block_eq (capacity : ℕ) (data : Bytes) : sse2Block capacity data =
    some (if 16 ≤ data.length && (data.take 16).all isAscii && 16 ≤ capacity then
        some ((data.take 16).map UInt8.toNat, data.drop 16)
      else if 16 ≤ data.length && 8 ≤ capacity && blockLen2Ok (data.take 16) then
        some (decodeLen2Block (data.take 16), data.drop 16)
      else if 16 ≤ data.length && 4 ≤ capacity && blockLen4Ok (data.take 16) then
        some (decodeLen4Block (data.take 16), data.drop 16)
      else none) := by
  unfold sse2Block
  split
  · next h =>
    have hl := length_take16 h
    have hmask : movemaskEpi8 (load (data.take 16)) = 0 ↔ (data.take 16).all isAscii = true := by
      rw [← movemask_load hl, decide_eq_true_iff]
    simp only [loadUnaligned_eq h, Option.bind_eq_bind, Option.bind_some, hmask, expandAscii16_load hl, len2Ok_load hl,
      decodeLen2_load hl, len4Ok_load hl, decodeLen4_load hl, h, decide_true, Bool.true_and, Bool.and_eq_true,
      decide_eq_true_eq]
    split_ifs <;> rfl
  · next h => simp [h]

theorem ssse3Block_eq (capacity : ℕ) (data : Bytes) : ssse3Block capacity data =
    some (if 16 ≤ data.length && 4 ≤ capacity && blockLen3Ok (data.take 12) then
      some (decodeLen3Block (data.take 12), data.drop 12) else none) := by
  unfold ssse3Block
  split
  · next h =>
    have hl := length_take16 h.1
    have htake : (data.take 16).take 12 = data.take 12 := by
      rw [List.take_take]
      rfl
    simp only [loadUnaligned_eq h.1, Option.bind_eq_bind, Option.bind_some, len3Ok_load hl, decodeLen3_load hl, htake, h,
      decide_true, Bool.true_and]
    split <;> rfl
  · next h =>
    rw [if_neg]
    simp only [Bool.and_eq_true, decide_eq_true_eq]
    exact fun hc => h hc.1

theorem attempt_some (enabled : Bool) (block handled : Option (List ℕ × Bytes)) :
    attempt enabled (some block) handled = some (handled.or (if enabled then block else none)) := by
  cases enabled <;> cases handled <;> rfl

theorem ite_or {α : Type} (c : Prop) [Decidable c] (x : α) (r t : Option α) :
    (if c then some x else r).or t = if c then some x else r.or t := by
  split <;> rfl

theorem vectorBlock_eq (simd : Simd) (capacity : ℕ) (data : Bytes) :
    vectorBlock simd capacity data = some (utf8Block simd capacity data) := by
  unfold vectorBlock
  rw [avx2Block_eq, sse2Block_eq, ssse3Block_eq]
  simp only [attempt_some, Option.bind_eq_bind, Option.bind_some, Option.none_or]
  unfold utf8Block
  obtain ⟨sse2, ssse3, avx2⟩ := simd
  cases avx2 <;> cases sse2 <;> cases ssse3 <;>
    simp only [Bool.false_eq_true, Bool.true_and, Bool.false_and, if_false, if_true, ite_or, Option.none_or, Option.or_none]

theorem chunkLoop_eq (simd : Simd) (fuel capacity : ℕ) (data : Bytes) :
    chunkLoop simd fuel capacity data = some (decodeChunk (utf8Block simd) decodeUtf8Char fuel capacity data) := by
  induction fuel generalizing capacity data with
  | zero => rfl
  | succ fuel ih =>
      unfold chunkLoop decodeChunk
      split
      · rfl
      · rw [vectorBlock_eq]
        simp only [Option.bind_eq_bind, Option.bind_some, ih]

theorem decodeUtf8Chunk_eq (simd : Simd) (capacity : ℕ) (data : Bytes) :
    decodeUtf8Chunk simd capacity data = some (utf8Chunk simd capacity data) := chunkLoop_eq ..

theorem transcodeLoop_eq (simd : Simd) (B : Form) (fuel : ℕ) (data : Bytes) :
    transcodeLoop simd B fuel data = some (transcode (utf8Chunk simd) B.appendChunk fuel data) := by
  induction fuel generalizing data with
  | zero => rfl
  | succ fuel ih =>
      unfold transcodeLoop transcode
      split
      · rfl
      · simp only [decodeUtf8Chunk_eq, Option.bind_eq_bind, Option.bind_some, ih]
        split
        · rw [List.append_nil]
        · rfl

/-- With its vector blocks and its loads, `decode_utf8_chunk` reads what calls of `decode_utf8_char` read, as many as the
buffer has room for, and the transcoders append what one such pass over the whole text reads. -/
theorem decode_utf8_chunk_scalar (simd : Simd) (capacity offset : ℕ) (data : Bytes) (B : Form) :
    decodeUtf8Chunk simd capacity (data.drop offset) = some (scalarPass capacity (data.drop offset)) ∧
      (scalarPass capacity (data.drop offset)).1.length ≤ capacity ∧
      (scalarPass capacity (data.drop offset)).2 <:+ data.drop offset ∧
      transcodeUtf8 simd B data = some (B.appendChunk (scalarPass data.length data).1) := by
  obtain ⟨hlen, hsuffix⟩ := scalarPass_spec capacity (data.drop offset)
  obtain ⟨hchunk, -⟩ := utf8Chunk_spec simd capacity (data.drop offset) B
  obtain ⟨-, hall⟩ := utf8Chunk_spec simd capacity data B
  refine ⟨?_, hlen, hsuffix, ?_⟩
  · rw [decodeUtf8Chunk_eq, hchunk]
  · exact (transcodeLoop_eq simd B data.length data).trans (congrArg some hall)

end NeForce.Utf8Blocks
