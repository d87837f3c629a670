import NeForce.Base64Builds

/-! # The round trip of Base64

The text of `encode` is the characters of the sextets and the padding; `decode` finds the padding (`paddingStart_append`)
and gives the bytes back (`decodeGroups_encodeGroups`), with white space in the text or not. -/

namespace NeForce.Base64

set_option maxRecDepth 8000

variable {alphabet data text : Bytes} {index : UInt8 → Option (BitVec 6)} {x y z pad : UInt8}

/-! ### Sextets -/

theorem octet_sextets (x y z : UInt8) :
    let val := bytesValue x y z
    let indices := indexValue (sextet val 18) (sextet val 12) (sextet val 6) (sextet val 0)
    octet indices 16 = x ∧ octet indices 8 = y ∧ octet indices 0 = z := by
  dsimp only [octet]
  refine ⟨?_, ?_, ?_⟩
  all_goals
    apply UInt8.toBitVec_inj.mp
    apply BitVec.eq_of_getLsbD_eq
    intro i hi
    interval_cases i <;>
      simp only [bytesValue, sextet, indexValue, BitVec.getLsbD_or, BitVec.getLsbD_shiftLeft, BitVec.getLsbD_ushiftRight,
        BitVec.getLsbD_setWidth, BitVec.getLsbD_of_ge, Nat.reduceAdd, Nat.reduceSub, Nat.reduceLT, Nat.reduceLeDiff, decide_true,
        decide_false, Bool.true_and, Bool.false_and, Bool.and_true, Bool.and_false, Bool.or_false, Bool.false_or, Bool.not_true,
        Bool.not_false]

theorem sextet_two (x y : UInt8) : sextet (bytesValue x y 0) 0 = 0 := by
  apply BitVec.eq_of_getLsbD_eq
  intro i hi
  interval_cases i <;>
    simp only [bytesValue, sextet, BitVec.getLsbD_or, BitVec.getLsbD_shiftLeft, BitVec.getLsbD_ushiftRight, BitVec.getLsbD_setWidth,
      UInt8.toBitVec_zero, BitVec.getLsbD_zero, BitVec.ofNat_eq_ofNat, Nat.reduceAdd, Nat.reduceSub, Nat.reduceLT, decide_true,
      Bool.true_and, Bool.false_and, Bool.and_false, Bool.or_false, Bool.not_true]

theorem sextet_one (x : UInt8) : sextet (bytesValue x 0 0) 6 = 0 := by
  apply BitVec.eq_of_getLsbD_eq
  intro i hi
  interval_cases i <;>
    simp only [bytesValue, sextet, BitVec.getLsbD_or, BitVec.getLsbD_shiftLeft, BitVec.getLsbD_ushiftRight, BitVec.getLsbD_setWidth,
      BitVec.getLsbD_of_ge, UInt8.toBitVec_zero, BitVec.getLsbD_zero, BitVec.ofNat_eq_ofNat, Nat.reduceAdd, Nat.reduceSub,
      Nat.reduceLT, Nat.reduceLeDiff, decide_true, decide_false, Bool.true_and, Bool.false_and, Bool.and_true, Bool.and_false,
      Bool.or_false, Bool.not_true, Bool.not_false]

/-! ### Texts -/

/-- The characters of the last group that are missing. -/
def missing (data : Bytes) : ℕ := (3 - data.length % 3) % 3

theorem encodeGroups_pad (alphabet : Bytes) (pad : UInt8) (data : Bytes) :
    encodeGroups alphabet [pad] data = encodeGroups alphabet [] data ++ List.replicate (missing data) pad := by
  induction data using encodeGroups.induct with
  | case1 x y z data ih =>
      have hmissing : missing (x :: y :: z :: data) = missing data := by
        unfold missing
        simp only [List.length_cons]
        omega
      rw [encodeGroups, encodeGroups, ih, hmissing]
      rfl
  | case2 | case3 | case4 => rfl

theorem length_encodeGroups (alphabet data : Bytes) :
    (encodeGroups alphabet [] data).length + missing data = (data.length + 2) / 3 * 4 := by
  unfold missing
  induction data using encodeGroups.induct with
  | case1 x y z data ih =>
      simp only [encodeGroups, List.length_cons]
      omega
  | case2 | case3 | case4 => simp [encodeGroups]

theorem mem_encodeGroups {c : UInt8} (hc : c ∈ encodeGroups alphabet [] data) : ∃ s, c = charAt alphabet s := by
  induction data using encodeGroups.induct with
  | case1 x y z data ih =>
      simp only [encodeGroups, List.mem_cons] at hc
      obtain rfl | rfl | rfl | rfl | hc := hc
      · exact ⟨_, rfl⟩
      · exact ⟨_, rfl⟩
      · exact ⟨_, rfl⟩
      · exact ⟨_, rfl⟩
      · exact ih hc
  | case2 x y =>
      simp only [encodeGroups, List.append_nil, List.mem_cons, List.not_mem_nil, or_false] at hc
      obtain rfl | rfl | rfl := hc
      · exact ⟨_, rfl⟩
      · exact ⟨_, rfl⟩
      · exact ⟨_, rfl⟩
  | case3 x =>
      simp only [encodeGroups, List.append_nil, List.mem_cons, List.not_mem_nil, or_false] at hc
      obtain rfl | rfl := hc
      · exact ⟨_, rfl⟩
      · exact ⟨_, rfl⟩
  | case4 => cases hc

/-- **The loop over groups gives the bytes back.** -/
theorem decodeGroups_encodeGroups (h : ∀ s, index (charAt alphabet s) = some s) (pad : UInt8) (data : Bytes) :
    decodeGroups index (encodeGroups alphabet [] data).length
      (encodeGroups alphabet [] data ++ List.replicate (missing data) pad) = some data := by
  rw [← encodeGroups_pad]
  induction data using encodeGroups.induct with
  | case1 x y z data ih =>
      obtain ⟨hx, hy, hz⟩ := octet_sextets x y z
      simp only [encodeGroups, List.length_cons]
      rw [decodeGroups_group, ih, groupBytes, h, h, h, h]
      dsimp only
      rw [hx, hy, hz]
      rfl
  | case2 x y =>
      obtain ⟨hx, hy, -⟩ := octet_sextets x y 0
      rw [sextet_two] at hx hy
      refine (decodeGroups_three ..).trans ?_
      rw [h, h, h, Option.bind_some, Option.bind_some, Option.map_some, hx, hy]
  | case3 x =>
      obtain ⟨hx, -, -⟩ := octet_sextets x 0 0
      rw [sextet_two, sextet_one] at hx
      refine (decodeGroups_two ..).trans ?_
      rw [h, h, Option.bind_some, Option.map_some, hx]
  | case4 => exact decodeGroups_zero _

/-! ### The padding -/

theorem paddingStart_append {n : ℕ} (hpad : padChar ∉ text) (hn : n ≤ 2) (hlen : 0 < n → 2 ≤ text.length) :
    paddingStart (text ++ List.replicate n padChar) = text.length := by
  have hlast (h : 0 < text.length) : text[text.length - 1]? ≠ some padChar := fun he => hpad (List.mem_of_getElem? he)
  unfold paddingStart
  rw [List.length_append, List.length_replicate]
  match n with
  | 0 =>
      refine if_neg fun h => hlast (by omega) ?_
      simpa using h.2
  | 1 =>
      have hpos := hlen Nat.one_pos
      rw [if_pos ⟨by omega, by simp⟩, if_neg]
      · omega
      · rw [List.getElem?_append_left (by omega)]
        exact hlast (by omega)
  | 2 =>
      have hpos := hlen Nat.two_pos
      rw [if_pos ⟨by omega, by rw [List.getElem?_append_right (by omega)]; simp⟩, if_pos, Nat.add_sub_cancel]
      rw [List.getElem?_append_right (by omega)]
      simp

/-! ### White space -/

/-- White space has been put into a text. -/
inductive Spaced : Bytes → Bytes → Prop where
  | nil : Spaced [] []
  | char (c : UInt8) {s t : Bytes} (h : Spaced s t) : Spaced (c :: s) (c :: t)
  | space {c : UInt8} (hc : isSpace c = true) {s t : Bytes} (h : Spaced s t) : Spaced s (c :: t)

theorem Spaced.clean_eq {s t : Bytes} (h : Spaced s t) : clean t = clean s := by
  unfold clean
  induction h with
  | nil => rfl
  | char c h ih => rw [List.filter_cons, List.filter_cons, ih]
  | space hc h ih => rw [List.filter_cons_of_neg (by simp [hc]), ih]

/-- The characters of an alphabet are neither the one of the padding nor white space. -/
def Solid (alphabet : Bytes) : Prop := ∀ s, charAt alphabet s ≠ padChar ∧ isSpace (charAt alphabet s) = false

theorem solid_base64Chars : Solid base64Chars := by
  unfold Solid base64Chars
  rw [forall_bitVec, ascii_eq rfl]
  decide

theorem solid_base64urlChars : Solid base64urlChars := by
  unfold Solid base64urlChars
  rw [forall_bitVec, ascii_eq rfl]
  decide

theorem Solid.clean_encodeGroups (h : Solid alphabet) (n : ℕ) (data : Bytes) :
    clean (encodeGroups alphabet [] data ++ List.replicate n padChar) =
      encodeGroups alphabet [] data ++ List.replicate n padChar := by
  refine List.filter_eq_self.mpr fun c hc => ?_
  obtain hc | hc := List.mem_append.mp hc
  · obtain ⟨s, rfl⟩ := mem_encodeGroups hc
    rw [(h s).2]
    rfl
  · rw [List.eq_of_mem_replicate hc]
    rfl

theorem Solid.paddingStart_eq (h : Solid alphabet) (data : Bytes) :
    paddingStart (encodeGroups alphabet [] data ++ List.replicate (missing data) padChar) =
      (encodeGroups alphabet [] data).length := by
  have hlen := length_encodeGroups alphabet data
  unfold missing at hlen
  refine paddingStart_append (fun hmem => ?_) (by unfold missing; omega) (by unfold missing; omega)
  obtain ⟨s, hs⟩ := mem_encodeGroups hmem
  exact (h s).1 hs.symm

/-! ### The codec -/

theorem indexOf_charAt (build : Build) : ∀ s, indexOf build (charAt base64Chars s) = some s := by
  cases build
  all_goals
    rw [forall_bitVec, base64Chars, ascii_eq rfl]
    decide

theorem indexOfUrl_charAt (build : Build) : ∀ s, indexOfUrl build (charAt base64urlChars s) = some s := by
  cases build
  all_goals
    rw [forall_bitVec, base64urlChars, ascii_eq rfl]
    decide

theorem decode_encode (build : Build) (data : Bytes) (h : Spaced (encode build data) text) :
    decode build text = .ok data := by
  have hlen := length_encodeGroups base64Chars data
  rw [encode_eq, encodeGroups_pad] at h
  rw [decode_eq, h.clean_eq, solid_base64Chars.clean_encodeGroups, if_neg, finish_eq, solid_base64Chars.paddingStart_eq,
    decodeGroups_encodeGroups (indexOf_charAt build)]
  rw [List.length_append, List.length_replicate, hlen]
  omega

theorem decodeUrl_encodeUrl (build : Build) (data : Bytes) (padding : Bool)
    (h : Spaced (encodeUrl build data padding) text) : decodeUrl build text = .ok data := by
  have hlen := length_encodeGroups base64urlChars data
  have hfill : fillUp text = encodeGroups base64urlChars [] data ++ List.replicate (missing data) padChar := by
    have hmissing : missing data ≤ 2 := by
      unfold missing
      omega
    rw [encodeUrl_eq] at h
    unfold fillUp
    rw [h.clean_eq]
    cases padding with
    | true =>
        rw [if_pos rfl, encodeGroups_pad, solid_base64urlChars.clean_encodeGroups]
        dsimp only
        rw [if_neg]
        · exact List.append_nil _
        · rw [List.length_append, List.length_replicate, hlen]
          omega
    | false =>
        have hclean := solid_base64urlChars.clean_encodeGroups 0 data
        rw [List.replicate_zero, List.append_nil] at hclean
        rw [if_neg Bool.false_ne_true, hclean]
        dsimp only
        congr 2
        split <;> omega
  rw [decodeUrl_eq, hfill, finish_eq, solid_base64urlChars.paddingStart_eq,
    decodeGroups_encodeGroups (indexOfUrl_charAt build)]

/-- **In both builds `decode` gives back what `encode` was given, and `decode_url` what `encode_url` was given, with
white space in the text or not.** -/
theorem round_trip (build : Build) (data : Bytes) (padding : Bool) :
    (∀ text, Spaced (encode build data) text → decode build text = .ok data) ∧
      ∀ text, Spaced (encodeUrl build data padding) text → decodeUrl build text = .ok data :=
  ⟨fun _ h => decode_encode build data h, fun _ h => decodeUrl_encodeUrl build data padding h⟩

theorem round_trip_spaced : decode .ssse3 (ascii "TW Fu") = .ok (ascii "Man") := by
  refine (round_trip .ssse3 (ascii "Man") false).1 (ascii "TW Fu") ?_
  rw [show encode .ssse3 (ascii "Man") = ascii "TWFu" by decide]
  exact .char _ (.char _ (.space rfl (.char _ (.char _ .nil))))

end NeForce.Base64
