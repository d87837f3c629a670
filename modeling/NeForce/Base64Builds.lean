import NeForce.Base64Blocks

/-! # The builds of the codec

The builds agree, but for one thing: `decode_url` of the scalar build also takes the characters `+` and `/` of the other
alphabet. -/

namespace NeForce.Base64

variable {text data : Bytes} {build : Build}

/-! ### Characters -/

theorem forall_byte {p : UInt8 → Prop} : (∀ c, p c) ↔ ∀ i : Fin (2 ^ 8), p (.ofBitVec (.ofFin i)) :=
  ⟨fun h _ => h _, fun h c => h c.toBitVec.toFin⟩

theorem base64CharToIndex_eq : base64CharToIndex = strictIndex 0x2B 0x2F := by
  funext c
  revert c
  rw [forall_byte]
  set_option maxRecDepth 8000 in
  decide

/-- A character of the other alphabet that stands for 62 or 63. -/
def isForeign (c : UInt8) : Bool := c = 0x2B || c = 0x2F

theorem strictIndex_url : ∀ c, strictIndex 0x2D 0x5F c = if isForeign c then none else base64urlCharToIndex c := by
  rw [forall_byte]
  set_option maxRecDepth 8000 in
  decide

/-- The index function of a build. -/
def indexOf : Build → UInt8 → Option (BitVec 6)
  | .scalar => base64CharToIndex
  | .ssse3 => strictIndex 0x2B 0x2F

def indexOfUrl : Build → UInt8 → Option (BitVec 6)
  | .scalar => base64urlCharToIndex
  | .ssse3 => strictIndex 0x2D 0x5F

/-! ### The padding -/

theorem paddingStart_le (text : Bytes) : paddingStart text ≤ text.length := by
  unfold paddingStart
  split_ifs <;> omega

theorem paddingStart_mod (h : 4 ∣ text.length) : paddingStart text % 4 ≠ 1 := by
  unfold paddingStart
  split_ifs <;> omega

/-- Nothing but `=` stands behind the start of the padding. -/
theorem drop_paddingStart (text : Bytes) : (text.drop (paddingStart text)).all (· = padChar) = true := by
  rw [List.all_eq_true]
  intro c hc
  obtain ⟨i, hi, rfl⟩ := List.mem_iff_getElem.mp hc
  rw [List.length_drop] at hi
  rw [List.getElem_drop, decide_eq_true_eq]
  have hlt : paddingStart text + i < text.length := by omega
  have hget (j : ℕ) (hj : text[j]? = some padChar) (hij : paddingStart text + i = j) :
      text[paddingStart text + i] = padChar := by
    rw [← hij, List.getElem?_eq_getElem hlt] at hj
    exact Option.some.inj hj
  unfold paddingStart at hi hget ⊢
  split at hi
  · next hlast =>
    split at hi
    · next hboth =>
      by_cases hzero : i = 0
      · exact hget _ hboth (by rw [if_pos hlast, if_pos hboth]; omega)
      · exact hget _ hlast.2 (by rw [if_pos hlast, if_pos hboth]; omega)
    · next hone => exact hget _ hlast.2 (by rw [if_pos hlast, if_neg hone]; omega)
  · omega

theorem finish_eq (texts : Texts) (text : Bytes) (decoded : Option Bytes) :
    finish texts text decoded = match decoded with
      | none => .error texts.character
      | some result => .ok result := by
  unfold finish
  cases decoded with
  | none => rfl
  | some result => exact if_pos (drop_paddingStart text)

/-! ### Both builds by groups -/

theorem decode_eq (build : Build) (text : Bytes) :
    decode build text = if (clean text).length % 4 ≠ 0 then .error "Invalid Base64 length: not a multiple of 4"
      else finish base64Texts (clean text) (decodeGroups (indexOf build) (paddingStart (clean text)) (clean text)) := by
  by_cases hlen : (clean text).length % 4 ≠ 0
  · exact (if_pos hlen).trans (if_pos hlen).symm
  · have hgroups : 4 ∣ (clean text).length := by omega
    rw [if_neg hlen]
    cases build with
    | scalar => exact if_neg hlen
    | ssse3 =>
        refine (if_neg hlen).trans ?_
        dsimp only
        rw [decodeBlocks_eq (.inl ⟨rfl, rfl⟩) hgroups (paddingStart_le _) (paddingStart_mod hgroups)]
        rfl

theorem dvd_fillUp (text : Bytes) : 4 ∣ (fillUp text).length := by
  unfold fillUp
  rw [List.length_append, List.length_replicate]
  split <;> omega

theorem decodeUrl_eq (build : Build) (text : Bytes) :
    decodeUrl build text =
      finish base64urlTexts (fillUp text) (decodeGroups (indexOfUrl build) (paddingStart (fillUp text)) (fillUp text)) := by
  cases build with
  | scalar => rfl
  | ssse3 =>
      unfold decodeUrl
      dsimp only
      rw [decodeBlocks_eq (.inr ⟨rfl, rfl⟩) (dvd_fillUp _) (paddingStart_le _) (paddingStart_mod (dvd_fillUp _))]
      rfl

theorem encode_eq (build : Build) (data : Bytes) : encode build data = encodeGroups base64Chars [padChar] data := by
  cases build with
  | scalar => rfl
  | ssse3 => exact looks_base64Chars.encodeBlocks_eq (Nat.mul_div_le _ _)

theorem encodeUrl_eq (build : Build) (data : Bytes) (padding : Bool) :
    encodeUrl build data padding = encodeGroups base64urlChars (if padding then [padChar] else []) data := by
  cases build with
  | scalar => rfl
  | ssse3 => exact looks_base64urlChars.encodeBlocks_eq (Nat.mul_div_le _ _)

/-! ### Agreement -/

/-- The same bytes, or an exception twice. -/
def Agree (r r' : Except String Bytes) : Prop := r.toOption = r'.toOption

instance (r r' : Except String Bytes) : Decidable (Agree r r') := inferInstanceAs (Decidable (_ = _))

/-- The characters before the padding. -/
def body (text : Bytes) : Bytes := (fillUp text).take (paddingStart (fillUp text))

/-- No `+` or `/` stands before the padding, or some other character that is in neither alphabet does. -/
def Unmixed (text : Bytes) : Prop :=
  (∀ c ∈ body text, isForeign c = false) ∨ ∃ c ∈ body text, base64urlCharToIndex c = none

/-- What the builds have to agree on. -/
structure BuildsAgree (data : Bytes) (padding : Bool) (text : Bytes) : Prop where
  encode : encode .ssse3 data = encode .scalar data
  encodeUrl : encodeUrl .ssse3 data padding = encodeUrl .scalar data padding
  decode : Agree (decode .ssse3 text) (decode .scalar text)
  decodeUrl : Agree (decodeUrl .ssse3 text) (decodeUrl .scalar text)

theorem toOption_decodeUrl (build : Build) (text : Bytes) : (decodeUrl build text).toOption =
    decodeGroups (indexOfUrl build) (paddingStart (fillUp text)) (fillUp text) := by
  rw [decodeUrl_eq, finish_eq]
  cases decodeGroups (indexOfUrl build) (paddingStart (fillUp text)) (fillUp text) <;> rfl

theorem decodeUrl_agree_iff (text : Bytes) : Agree (decodeUrl .ssse3 text) (decodeUrl .scalar text) ↔ Unmixed text := by
  have hroom := room_of_length (dvd_fillUp text) (paddingStart_le _) (paddingStart_mod (dvd_fillUp text))
  have hstrict := @decodeGroups_isSome (indexOfUrl .ssse3) _ _ hroom
  have hlenient := @decodeGroups_isSome (indexOfUrl .scalar) _ _ hroom
  unfold Agree Unmixed body
  rw [toOption_decodeUrl, toOption_decodeUrl]
  constructor
  · intro heq
    rw [heq] at hstrict
    by_cases hvalid : ∀ c ∈ (fillUp text).take (paddingStart (fillUp text)), (base64urlCharToIndex c).isSome = true
    · refine .inl fun c hc => ?_
      have hsome := hstrict.mp (hlenient.mpr hvalid) c hc
      rw [indexOfUrl, strictIndex_url] at hsome
      cases hforeign : isForeign c with
      | false => rfl
      | true =>
          rw [hforeign] at hsome
          cases hsome
    · push Not at hvalid
      obtain ⟨c, hc, hnone⟩ := hvalid
      exact .inr ⟨c, hc, Option.not_isSome_iff_eq_none.mp hnone⟩
  · rintro (hplain | ⟨c, hc, hnone⟩)
    · refine decodeGroups_congr hroom fun c hc => ?_
      show strictIndex 0x2D 0x5F c = _
      rw [strictIndex_url, hplain c hc]
      rfl
    · rw [decodeGroups_none hroom, decodeGroups_none hroom]
      · intro hall
        have hsome := hall c hc
        rw [indexOfUrl, hnone] at hsome
        cases hsome
      · intro hall
        have hsome := hall c hc
        rw [indexOfUrl, strictIndex_url, hnone, ite_self] at hsome
        cases hsome

/-- **The builds agree if and only if the text has no character of the other alphabet that only the scalar `decode_url`
takes.** -/
theorem builds_agree_iff (data : Bytes) (padding : Bool) (text : Bytes) : BuildsAgree data padding text ↔ Unmixed text := by
  rw [← decodeUrl_agree_iff]
  refine ⟨BuildsAgree.decodeUrl, fun h => ⟨?_, ?_, ?_, h⟩⟩
  · rw [encode_eq, encode_eq]
  · rw [encodeUrl_eq, encodeUrl_eq]
  · unfold Agree
    rw [decode_eq, decode_eq, indexOf, indexOf, base64CharToIndex_eq]

/-- `++++` is three bytes for the scalar build, and an exception for the other one. -/
theorem builds_disagree : ¬ BuildsAgree [] false (ascii "++++") := by
  intro h
  exact absurd h.decodeUrl (by decide)

end NeForce.Base64
