import NeForce.CodepointUtf16

/-! # Transcoding

The chunks of a text, however the vector blocks cut it, are together one reading of it (`transcode_reads`), so every
transcoder writes the standard encoding of a reading, with the replacement character for the truncated characters
(`Form.transcode_eq`).  Texts without truncated characters are transcoded exactly or sanitised, and the contract fails for
all others (`transcoding_iff`). -/

namespace NeForce.Codepoint

open EncodingForm

variable {α β : Type} {E : EncodingForm α} {l rest v : List α} {cp : ℕ} {cps out outs : List ℕ}

/-! ### Chunks -/

theorem reads_block (hv : Block E v out) (hr : E.Reads Read rest outs) : E.Reads Read (v ++ rest) (out ++ outs) := by
  obtain ⟨hs, rfl⟩ := hv
  induction out with
  | nil => exact hr
  | cons cp out ih =>
      obtain ⟨hc, hs⟩ := List.forall_mem_cons.mp hs
      rw [encodeAll_cons, List.append_assoc, List.cons_append]
      exact .cons (.inl ⟨cp, hc, .inl rfl, rfl⟩) (ih hs)

theorem Block.ne_nil (hv : Block E v out) (ho : out ≠ []) : v ≠ [] := by
  obtain ⟨hs, rfl⟩ := hv
  obtain ⟨cp, out, rfl⟩ := List.exists_cons_of_ne_nil ho
  rw [encodeAll_cons]
  exact List.append_ne_nil_of_left_ne_nil (encode_ne_nil (hs cp List.mem_cons_self)) _

/-- What the decoders of a form do: a block stands for characters, and a single step reads one or rejects a piece. -/
structure Decodes (E : EncodingForm α) (block : ℕ → List α → Option (List ℕ × List α)) (one : List α → Decoded α) :
    Prop where
  block : ∀ {capacity data out rest}, block capacity data = some (out, rest) →
    out ≠ [] ∧ ∃ v, data = v ++ rest ∧ Block E v out
  one : ∀ {l}, l ≠ [] → E.ReadsOne Read l (one l).cp (one l).rest

/-- A decoder has read `out` and left `rest`. -/
def Consumes (E : EncodingForm α) (data : List α) (p : List ℕ × List α) : Prop :=
  (∀ outs, E.Reads Read p.2 outs → E.Reads Read data (p.1 ++ outs)) ∧ p.2.length ≤ data.length

variable {block : ℕ → List α → Option (List ℕ × List α)} {one : List α → Decoded α}

theorem Decodes.step (hd : Decodes E block one) (capacity : ℕ) {data : List α} (hne : data ≠ []) :
    Consumes E data ((block capacity data).getD ([(one data).cp], (one data).rest)) ∧
      ((block capacity data).getD ([(one data).cp], (one data).rest)).2.length < data.length := by
  cases hb : block capacity data with
  | none =>
      have h1 := hd.one hne
      exact ⟨⟨fun outs hr => .cons h1 hr, h1.length_lt.le⟩, h1.length_lt⟩
  | some p =>
      obtain ⟨ho, v, rfl, hv⟩ := hd.block hb
      have hlt : p.2.length < (v ++ p.2).length := by
        have := List.length_pos_of_ne_nil (hv.ne_nil ho)
        rw [List.length_append]
        omega
      exact ⟨⟨fun outs hr => reads_block hv hr, hlt.le⟩, hlt⟩

/-- A chunk is a reading of what it consumes, and consumes something. -/
theorem Decodes.chunk (hd : Decodes E block one) (fuel capacity : ℕ) (data : List α) :
    Consumes E data (decodeChunk block one fuel capacity data) ∧
      (fuel ≠ 0 → capacity ≠ 0 → data ≠ [] → (decodeChunk block one fuel capacity data).2.length < data.length) := by
  induction fuel generalizing capacity data with
  | zero => exact ⟨⟨fun outs hr => hr, le_rfl⟩, fun h => absurd rfl h⟩
  | succ fuel ih =>
      rw [decodeChunk]
      split_ifs with h
      · refine ⟨⟨fun outs hr => hr, le_rfl⟩, fun _ hcap hne => ?_⟩
        exact absurd h (not_or.mpr ⟨hne, hcap⟩)
      · obtain ⟨hne, -⟩ := not_or.mp h
        obtain ⟨⟨hreads, hle⟩, hlt⟩ := hd.step capacity hne
        dsimp only
        generalize (block capacity data).getD ([(one data).cp], (one data).rest) = p at hreads hle hlt ⊢
        obtain ⟨⟨hreads', hle'⟩, -⟩ := ih (capacity - p.1.length) p.2
        refine ⟨⟨fun outs hr => ?_, hle'.trans hle⟩, fun _ _ _ => hle'.trans_lt hlt⟩
        rw [List.append_assoc]
        exact hreads _ (hreads' outs hr)

/-- All chunks together are a reading of the text. -/
theorem transcode_reads {chunk : ℕ → List α → List ℕ × List α} {appendChunk : List ℕ → List β}
    (hchunk : ∀ data, Consumes E data (chunk chunkSize data) ∧
      (data ≠ [] → (chunk chunkSize data).2.length < data.length))
    (hnil : appendChunk [] = []) (happ : ∀ a b, appendChunk (a ++ b) = appendChunk a ++ appendChunk b)
    (fuel : ℕ) (data : List α) (hfuel : data.length ≤ fuel) :
    ∃ out, E.Reads Read data out ∧ transcode chunk appendChunk fuel data = appendChunk out := by
  induction fuel generalizing data with
  | zero =>
      obtain rfl := List.length_eq_zero_iff.mp (Nat.le_zero.mp hfuel)
      exact ⟨[], .nil, hnil.symm⟩
  | succ fuel ih =>
      rw [transcode]
      split_ifs with hne
      · exact ⟨[], hne ▸ .nil, hnil.symm⟩
      · obtain ⟨⟨hreads, -⟩, hlt⟩ := hchunk data
        have hlt := hlt hne
        obtain ⟨out, hr, he⟩ := ih (chunk chunkSize data).2 (by omega)
        refine ⟨_, hreads out hr, ?_⟩
        dsimp only
        rw [if_neg hlt.ne, he, happ]

/-! ### Forms -/

def Form.encoding : (A : Form) → EncodingForm A.Unit
  | .utf8 => Codepoint.utf8
  | .utf16 => Codepoint.utf16
  | .utf32 => Codepoint.utf32

/-- What a string of the form holds of a code point. -/
def Form.store : Form → ℕ → ℕ
  | .utf32 => id
  | _ => ofValue

theorem decodes_utf8 (simd : Simd) : Decodes utf8 (utf8Block simd) decodeUtf8Char where
  block := utf8Block_spec
  one hne := (decodeUtf8Char_readsOne hne).imp_left fun ⟨cp, hs, hv, hl⟩ => ⟨cp, hs, .inl hv.symm, hl⟩

theorem decodes_utf16 (simd : Simd) : Decodes utf16 (utf16Block simd false) (decodeUtf16 false) where
  block := utf16Block_spec
  one := decodeUtf16_readsOne

theorem decodes_utf32 (simd : Simd) : Decodes utf32 (utf32Block simd) decodeUtf32 where
  block := utf32Block_spec
  one := decodeUtf32_readsOne

theorem Form.decodeChunk_spec (simd : Simd) (A : Form) (data : List A.Unit) :
    Consumes A.encoding data (A.decodeChunk simd chunkSize data) ∧
      (data ≠ [] → (A.decodeChunk simd chunkSize data).2.length < data.length) := by
  have h0 : chunkSize ≠ 0 := by decide
  cases A with
  | utf8 => exact ((decodes_utf8 simd).chunk _ _ data).imp_right fun h => h h0 h0
  | utf16 => exact ((decodes_utf16 simd).chunk _ _ data).imp_right fun h => h h0 h0
  | utf32 => exact ((decodes_utf32 simd).chunk _ _ data).imp_right fun h => h h0 h0

theorem ofValue_small {n : ℕ} (hs : IsScalar cp) (hle : cp ≤ n) (hn : n ≤ 0xFFFF) : ofValue cp = cp := by
  rw [ofValue_eq hs, if_neg]
  unfold IsTruncated
  omega

theorem not_isTruncated_ofValue (hs : IsScalar cp) : ¬ IsTruncated (ofValue cp) := by
  rw [ofValue_eq hs]
  split_ifs with ht
  · decide
  · exact ht

theorem isScalar_ofValue (hs : IsScalar cp) : IsScalar (ofValue cp) := by
  rw [ofValue_eq hs]
  split_ifs
  · exact .inr ⟨by decide, by decide⟩
  · exact hs

theorem ofValue_ofValue (hs : IsScalar cp) : ofValue (ofValue cp) = ofValue cp := by
  rw [ofValue_eq (isScalar_ofValue hs), if_neg (not_isTruncated_ofValue hs)]

theorem Form.appendChunk_eq (B : Form) (hs : ∀ cp ∈ out, IsScalar cp) :
    B.appendChunk out = B.encoding.encodeAll (out.map B.store) := by
  unfold encodeAll
  rw [List.flatMap_map]
  cases B with
  | utf8 =>
      refine List.flatMap_congr fun cp hcp => ?_
      change _ = utf8Encode (ofValue cp)
      split_ifs with h
      · rw [ofValue_small (hs cp hcp) h (by decide), utf8Encode, if_pos (by omega)]
      · exact appendUtf8Char_eq (hs cp hcp)
  | utf16 =>
      refine List.flatMap_congr fun cp hcp => ?_
      change _ = utf16Encode (ofValue cp)
      split_ifs with h
      · rw [ofValue_small (hs cp hcp) h le_rfl, utf16Encode, if_pos (by omega)]
      · rw [appendUtf16Char_eq, ofValue_ofValue (hs cp hcp)]
  | utf32 => exact List.map_eq_flatMap

theorem Form.appendChunk_append (B : Form) (a b : List ℕ) : B.appendChunk (a ++ b) = B.appendChunk a ++ B.appendChunk b := by
  cases B with
  | utf8 => exact List.flatMap_append
  | utf16 => exact List.flatMap_append
  | utf32 => exact List.map_append

theorem read_isScalar {v : ℕ} (hs : IsScalar cp) (hv : Read cp v) : IsScalar v := by
  obtain rfl | ⟨-, rfl⟩ := hv
  · exact hs
  · exact .inr ⟨by decide, by decide⟩

/-- Every text is transcoded to the standard encoding of a reading of it. -/
theorem Form.transcode_eq (simd : Simd) (A B : Form) (data : List A.Unit) :
    ∃ out, A.encoding.Reads Read data out ∧ (∀ cp ∈ out, IsScalar cp) ∧
      A.transcode simd B data = B.encoding.encodeAll (out.map B.store) := by
  have hnil : B.appendChunk [] = [] := by cases B <;> rfl
  obtain ⟨out, hr, he⟩ := transcode_reads (A.decodeChunk_spec simd) hnil B.appendChunk_append data.length data le_rfl
  have hs := hr.forall (P := IsScalar) (fun cp v hs hv => read_isScalar hs hv) (.inr ⟨by decide, by decide⟩)
  exact ⟨out, hr, hs, he.trans (B.appendChunk_eq hs)⟩

/-! ### The contract -/

/-- Well-formed text survives the way to another form and back. -/
def RoundTrips (simd : Simd) (cps : List ℕ) : Prop :=
  ∀ A B : Form, A ≠ B → B.transcode simd A (A.transcode simd B (A.encoding.encodeAll cps)) = A.encoding.encodeAll cps

/-- Any text is transcoded to well-formed text: the characters of the text with the replacement character for each
rejected piece.  Transcoding that again changes nothing, within its form and by way of each form. -/
def Form.Sanitises (simd : Simd) (A : Form) (data : List A.Unit) : Prop :=
  ∀ B : Form, ∃ cps, (∀ cp ∈ cps, IsScalar cp) ∧ A.encoding.Reads Eq data cps ∧
    A.transcode simd B data = B.encoding.encodeAll cps ∧
    B.transcode simd B (A.transcode simd B data) = A.transcode simd B data ∧
    ∀ C : Form, C.transcode simd B (B.transcode simd C (A.transcode simd B data)) = A.transcode simd B data

theorem eq_of_forall₂_read (h : List.Forall₂ Read cps out) (hn : ∀ cp ∈ cps, ¬ IsTruncated cp) : out = cps := by
  induction h with
  | nil => rfl
  | cons hv _ ih =>
      obtain ⟨hn, hns⟩ := List.forall_mem_cons.mp hn
      rw [ih hns, hv.resolve_right fun h => hn h.1]

theorem Form.map_store (B : Form) (hs : ∀ cp ∈ cps, IsScalar cp) (hn : ∀ cp ∈ cps, ¬ IsTruncated cp) :
    cps.map B.store = cps := by
  have h : ∀ cp ∈ cps, B.store cp = id cp := by
    intro cp hcp
    have ho : ofValue cp = cp := by rw [ofValue_eq (hs cp hcp), if_neg (hn cp hcp)]
    cases B with
    | utf8 => exact ho
    | utf16 => exact ho
    | utf32 => rfl
  rw [List.map_congr_left h, List.map_id]

/-- Characters that are not truncated are transcoded exactly. -/
theorem Form.transcode_encodeAll (simd : Simd) (A B : Form) (hs : ∀ cp ∈ cps, IsScalar cp)
    (hn : ∀ cp ∈ cps, ¬ IsTruncated cp) : A.transcode simd B (A.encoding.encodeAll cps) = B.encoding.encodeAll cps := by
  obtain ⟨out, hr, -, he⟩ := A.transcode_eq simd B (A.encoding.encodeAll cps)
  rw [he, eq_of_forall₂_read (hr.of_encodeAll hs) hn, B.map_store hs hn]

theorem not_isTruncated_of_mem_map (hs : ∀ cp ∈ out, IsScalar cp) : ∀ cp ∈ out.map ofValue, ¬ IsTruncated cp := by
  rintro cp hcp
  obtain ⟨v, hv, rfl⟩ := List.mem_map.mp hcp
  exact not_isTruncated_ofValue (hs v hv)

theorem isScalar_of_mem_map (hs : ∀ cp ∈ out, IsScalar cp) : ∀ cp ∈ out.map ofValue, IsScalar cp := by
  rintro cp hcp
  obtain ⟨v, hv, rfl⟩ := List.mem_map.mp hcp
  exact isScalar_ofValue (hs v hv)

theorem wellFormed_roundTrips_iff (simd : Simd) (hs : ∀ cp ∈ cps, IsScalar cp) :
    RoundTrips simd cps ↔ ∀ cp ∈ cps, ¬ IsTruncated cp := by
  constructor
  · intro h
    obtain ⟨out, -, ho, he⟩ := Form.utf32.transcode_eq simd .utf8 (Form.utf32.encoding.encodeAll cps)
    have hn := not_isTruncated_of_mem_map ho
    have hback := Form.utf8.transcode_encodeAll simd .utf32 (isScalar_of_mem_map ho) hn
    have := h .utf32 .utf8 (by decide)
    rw [he] at this
    have heq : cps = out.map ofValue := encodeAll_injective hs (isScalar_of_mem_map ho) (this.symm.trans hback)
    exact heq ▸ hn
  · intro hn A B _
    rw [A.transcode_encodeAll simd B hs hn, B.transcode_encodeAll simd A hs hn]

theorem Form.sanitises_iff (simd : Simd) (A : Form) (data : List A.Unit) :
    A.Sanitises simd data ↔ ∀ cp, IsScalar cp → IsTruncated cp → ¬ A.encoding.Occurs cp data := by
  constructor
  · intro h cp hs ht hocc
    obtain ⟨cps, hcps, hr, he, -⟩ := h .utf8
    obtain ⟨out, -, ho, he'⟩ := A.transcode_eq simd .utf8 data
    have heq : cps = out.map ofValue := encodeAll_injective hcps (isScalar_of_mem_map ho) (he.symm.trans he')
    obtain ⟨v, hv, rfl⟩ := hr.exists_of_occurs hs hocc
    exact not_isTruncated_of_mem_map ho cp (heq ▸ hv) ht
  · intro h B
    obtain ⟨out, hr, ho, he⟩ := A.transcode_eq simd B data
    have hr' : A.encoding.Reads (fun cp v => cp = v ∧ ¬ IsTruncated v) data out := by
      refine hr.mono fun cp v hs hocc hv => ?_
      have hn : ¬ IsTruncated cp := fun ht => h cp hs ht hocc
      obtain rfl := hv.resolve_right fun h => hn h.1
      exact ⟨rfl, hn⟩
    have hn := hr'.forall (P := fun v => ¬ IsTruncated v) (fun cp v _ h => h.2) (by decide)
    rw [B.map_store ho hn] at he
    refine ⟨out, ho, hr'.mono fun cp v _ _ h => h.1, he, ?_, fun C => ?_⟩
    · rw [he, B.transcode_encodeAll simd B ho hn]
    · rw [he, B.transcode_encodeAll simd C ho hn, C.transcode_encodeAll simd B ho hn]

/-- Transcoding meets its contract exactly on the texts without truncated characters. -/
theorem transcoding_iff (simd : Simd) (cps : List ℕ) (hs : ∀ cp ∈ cps, IsScalar cp) (A : Form) (data : List A.Unit) :
    (RoundTrips simd cps ↔ ∀ cp ∈ cps, ¬ IsTruncated cp) ∧
      (A.Sanitises simd data ↔ ∀ cp, IsScalar cp → IsTruncated cp → ¬ A.encoding.Occurs cp data) :=
  ⟨wellFormed_roundTrips_iff simd hs, A.sanitises_iff simd data⟩

/-- Characters of each length, and UTF-8 with an incomplete character and a continuation byte of no character. -/
theorem transcoding_sample :
    RoundTrips ⟨true, true, true⟩ [0x41, 0xE9, 0x4E2D, 0x1F600] ∧
      Form.utf8.Sanitises ⟨true, true, true⟩ (show Bytes from [0x41, 0xE4, 0xBD, 0x41, 0x80]) := by
  have hs : ∀ cp ∈ [0x41, 0xE9, 0x4E2D, 0x1F600], IsScalar cp := by
    unfold IsScalar
    decide
  obtain ⟨hround, hsan⟩ := transcoding_iff ⟨true, true, true⟩ _ hs .utf8 (show Bytes from [0x41, 0xE4, 0xBD, 0x41, 0x80])
  refine ⟨hround.mpr (by decide), hsan.mpr fun cp hs ht hocc => ?_⟩
  have hlt : ∀ b ∈ ([0x41, 0xE4, 0xBD, 0x41, 0x80] : Bytes), b.toNat < 0xF0 := by simp
  unfold IsTruncated at ht
  unfold IsScalar at hs
  have hmem : UInt8.ofNat (0xF0 + cp / 262144) ∈ ([0x41, 0xE4, 0xBD, 0x41, 0x80] : Bytes) := by
    refine hocc.subset ?_
    change _ ∈ utf8Encode cp
    rw [utf8Encode, if_neg (by omega), if_neg (by omega), if_neg (by omega)]
    exact List.mem_cons_self
  have := hlt _ hmem
  rw [toNat_ofNat8 (by omega)] at this
  omega

/-- U+1D800 is written as the replacement character. -/
theorem transcoding_loses :
    IsScalar 0x1D800 ∧
      Form.utf8.transcode ⟨false, false, false⟩ .utf16 (show Bytes from [0xF0, 0x9D, 0xA0, 0x80]) =
        (show List UInt16 from [0xFFFD]) ∧
      ¬ RoundTrips ⟨false, false, false⟩ [0x1D800] := by
  have hs : IsScalar 0x1D800 := .inr ⟨by decide, by decide⟩
  refine ⟨hs, rfl, fun h => ?_⟩
  exact (wellFormed_roundTrips_iff _ (by simpa using hs)).mp h 0x1D800 List.mem_cons_self (by decide)

end NeForce.Codepoint
