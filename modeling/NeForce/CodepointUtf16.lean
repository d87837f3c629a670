import NeForce.CodepointUtf8

/-! # Characters and blocks of UTF-16 and UTF-32

The surrogate tests of `is_valid_codepoint` see the lower half of a code point only, so among the scalar values they
refuse exactly those of `IsTruncated`.  A character that is read through a `codepoint` is its value or, when truncated,
the replacement character (`Read`); the strings take the standard encoding of what `ofValue` makes of a value
(`appendUtf8Char_eq`, `appendUtf16Char_eq`). -/

namespace NeForce.Codepoint

open EncodingForm

variable {l : List UInt16} {cp v : ℕ}

/-! ### Truncated surrogate tests -/

/-- Scalar values beyond the first plane whose lower half is a surrogate. -/
def IsTruncated (cp : ℕ) : Prop := 0x10000 ≤ cp ∧ 0xD800 ≤ cp % 0x10000 ∧ cp % 0x10000 ≤ 0xDFFF

instance : DecidablePred IsTruncated := fun _ => inferInstanceAs (Decidable (_ ∧ _ ∧ _))

theorem isValidCodepoint_iff (hs : IsScalar cp) : isValidCodepoint cp = true ↔ ¬ IsTruncated cp := by
  unfold IsScalar at hs
  simp only [isValidCodepoint, isHighSurrogate, isLowSurrogate, IsTruncated, Bool.and_eq_true, Bool.not_eq_true',
    Bool.and_eq_false_iff, decide_eq_true_eq, decide_eq_false_iff_not]
  omega

theorem not_isValidCodepoint {n : ℕ} (hn : n < 2 ^ 32) (hs : ¬ IsScalar n) : isValidCodepoint n = false := by
  unfold IsScalar at hs
  simp only [isValidCodepoint, isHighSurrogate, isLowSurrogate, Bool.and_eq_false_iff, Bool.not_eq_false',
    Bool.and_eq_true, decide_eq_true_eq, decide_eq_false_iff_not]
  omega

/-- Values that the code reads for a character: itself, or the replacement character for the truncated ones. -/
def Read (cp v : ℕ) : Prop := v = cp ∨ (IsTruncated cp ∧ v = 0xFFFD)

theorem ofValue_eq (hs : IsScalar cp) : ofValue cp = if IsTruncated cp then 0xFFFD else cp := by
  rw [ofValue]
  by_cases ht : IsTruncated cp
  · rw [if_neg (by rw [isValidCodepoint_iff hs]; exact not_not_intro ht), if_pos ht]
  · rw [if_pos ((isValidCodepoint_iff hs).mpr ht), if_neg ht]

theorem read_ofValue (hs : IsScalar cp) : Read cp (ofValue cp) := by
  rw [ofValue_eq hs]
  split_ifs with ht
  · exact .inr ⟨ht, rfl⟩
  · exact .inl rfl

/-! ### UTF-16 -/

def utf16Encode (cp : ℕ) : List UInt16 :=
  if cp < 0x10000 then [.ofNat cp] else [.ofNat (0xD800 + (cp - 0x10000) / 0x400), .ofNat (0xDC00 + (cp - 0x10000) % 0x400)]

theorem toNat_ofNat16 {n : ℕ} (h : n < 65536) : (UInt16.ofNat n).toNat = n := by
  rw [UInt16.toNat_ofNat', Nat.mod_eq_of_lt h]

theorem isHighSurrogate_toNat (c : UInt16) : isHighSurrogate c.toNat = true ↔ 0xD800 ≤ c.toNat ∧ c.toNat ≤ 0xDBFF := by
  have := c.toNat_lt
  simp only [isHighSurrogate, Bool.and_eq_true, decide_eq_true_eq]
  omega

theorem isLowSurrogate_toNat (c : UInt16) : isLowSurrogate c.toNat = true ↔ 0xDC00 ≤ c.toNat ∧ c.toNat ≤ 0xDFFF := by
  have := c.toNat_lt
  simp only [isLowSurrogate, Bool.and_eq_true, decide_eq_true_eq]
  omega

/-- The units of a scalar value. -/
theorem utf16Encode_cases (hs : IsScalar cp) :
    (∃ c, utf16Encode cp = [c] ∧ isHighSurrogate c.toNat = false ∧ isLowSurrogate c.toNat = false ∧ cp = c.toNat) ∨
    ∃ c1 c2, utf16Encode cp = [c1, c2] ∧ isHighSurrogate c1.toNat = true ∧ isLowSurrogate c2.toNat = true ∧
      cp = 0x10000 + (c1.toNat - 0xD800) * 0x400 + (c2.toNat - 0xDC00) := by
  unfold IsScalar at hs
  unfold utf16Encode
  split_ifs with h
  · refine .inl ⟨_, rfl, ?_, ?_, (toNat_ofNat16 h).symm⟩
    · rw [← Bool.not_eq_true, isHighSurrogate_toNat, toNat_ofNat16 h]
      omega
    · rw [← Bool.not_eq_true, isLowSurrogate_toNat, toNat_ofNat16 h]
      omega
  · refine .inr ⟨_, _, rfl, ?_, ?_, ?_⟩
    · rw [isHighSurrogate_toNat, toNat_ofNat16 (by omega)]
      omega
    · rw [isLowSurrogate_toNat, toNat_ofNat16 (by omega)]
      omega
    · rw [toNat_ofNat16 (by omega), toNat_ofNat16 (by omega)]
      omega

theorem utf16Encode_pair {c1 c2 : UInt16} (h1 : isHighSurrogate c1.toNat = true) (h2 : isLowSurrogate c2.toNat = true) :
    ∃ cp, cp = 0x10000 + (c1.toNat - 0xD800) * 0x400 + (c2.toNat - 0xDC00) ∧ IsScalar cp ∧ utf16Encode cp = [c1, c2] := by
  rw [isHighSurrogate_toNat] at h1
  rw [isLowSurrogate_toNat] at h2
  refine ⟨_, rfl, .inr ⟨by omega, by omega⟩, ?_⟩
  generalize hcp : 0x10000 + (c1.toNat - 0xD800) * 0x400 + (c2.toNat - 0xDC00) = cp
  have e1 : UInt16.ofNat (0xD800 + (cp - 0x10000) / 0x400) = c1 := by
    rw [← UInt16.toNat_inj, toNat_ofNat16 (by omega)]
    omega
  have e2 : UInt16.ofNat (0xDC00 + (cp - 0x10000) % 0x400) = c2 := by
    rw [← UInt16.toNat_inj, toNat_ofNat16 (by omega)]
    omega
  rw [utf16Encode, if_neg (by omega), e1, e2]

/-- The form UTF-16: a unit that is no low surrogate is a lead. -/
def utf16 : EncodingForm UInt16 where
  encode := utf16Encode
  IsLead c := isLowSurrogate c.toNat = false
  lead cp hs := by
    rcases utf16Encode_cases hs with ⟨c, he, -, hl, -⟩ | ⟨c1, c2, he, h1, h2, -⟩
    · exact ⟨_, _, he, hl, nofun⟩
    · refine ⟨_, _, he, ?_, by simp [h2]⟩
      rw [isHighSurrogate_toNat] at h1
      rw [← Bool.not_eq_true, isLowSurrogate_toNat]
      omega
  eq_of_append cp cp' l l' hs hs' h := by
    rcases utf16Encode_cases hs with ⟨c, he, hh, -, hv⟩ | ⟨c1, c2, he, hh, -, hv⟩
    · rcases utf16Encode_cases hs' with ⟨c', he', -, -, hv'⟩ | ⟨c1', c2', he', hh', -, -⟩
      · rw [he, he', List.cons_append, List.cons_append] at h
        rw [hv, hv', (List.cons.inj h).1]
      · rw [he, he', List.cons_append, List.cons_append] at h
        rw [(List.cons.inj h).1, hh'] at hh
        cases hh
    · rcases utf16Encode_cases hs' with ⟨c', he', hh', -, -⟩ | ⟨c1', c2', he', -, -, hv'⟩
      · rw [he, he', List.cons_append, List.cons_append] at h
        rw [(List.cons.inj h).1, hh'] at hh
        cases hh
      · rw [he, he'] at h
        simp only [List.cons_append, List.cons.injEq] at h
        rw [hv, hv', h.1, h.2.1]

theorem rejects16 {c : UInt16} (hno : ∀ cp, IsScalar cp → ¬ utf16Encode cp <+: c :: l) :
    utf16.ReadsOne Read (c :: l) 0xFFFD l :=
  .inr ⟨rfl, c, [], rfl, nofun, hno⟩

/-- Every string of 16-bit units is read one character or one rejected unit at a time. -/
theorem decodeUtf16_readsOne (hl : l ≠ []) :
    utf16.ReadsOne Read l (decodeUtf16 false l).cp (decodeUtf16 false l).rest := by
  obtain ⟨c1, l, rfl⟩ := List.exists_cons_of_ne_nil hl
  have hswap (c : UInt16) : swapUnit false c = c.toNat := rfl
  have hno {c1 : UInt16} {l : List UInt16} (hh : isHighSurrogate c1.toNat = true ∨ isLowSurrogate c1.toNat = true)
      (hl : isHighSurrogate c1.toNat = true → ∀ c2 l2, l = c2 :: l2 → isLowSurrogate c2.toNat = false) :
      ∀ cp, IsScalar cp → ¬ utf16Encode cp <+: c1 :: l := by
    rintro cp hs ⟨t, ht⟩
    rcases utf16Encode_cases hs with ⟨c, he, h1, h2, -⟩ | ⟨c, c2, he, h1, h2, -⟩
    · rw [he] at ht
      obtain ⟨rfl, -⟩ := List.cons.inj ht
      rw [h1, h2] at hh
      simp at hh
    · rw [he] at ht
      obtain ⟨rfl, rfl⟩ := List.cons.inj ht
      rw [hl h1 c2 t rfl] at h2
      cases h2
  unfold decodeUtf16
  simp only [hswap]
  split_ifs with h1 h2
  · match l with
    | [] => exact rejects16 (hno (.inl h1) nofun)
    | c2 :: l2 =>
        dsimp only
        split_ifs with h3
        · obtain ⟨cp, hcp, hs, he⟩ := utf16Encode_pair h1 h3
          have hval : combineSurrogates c1.toNat c2.toNat = ofValue cp := by
            rw [combineSurrogates, Nat.shiftLeft_eq, hcp]
          refine .inl ⟨cp, hs, hval ▸ read_ofValue hs, ?_⟩
          change _ = utf16Encode cp ++ l2
          rw [he]
          rfl
        · refine rejects16 (hno (.inl h1) ?_)
          rintro - c l ⟨⟩
          simpa using h3
  · refine rejects16 (hno (.inr h2) ?_)
    intro h
    exact absurd h h1
  · have hs : IsScalar c1.toNat := by
      have := c1.toNat_lt
      rw [isHighSurrogate_toNat] at h1
      rw [isLowSurrogate_toNat] at h2
      unfold IsScalar
      omega
    refine .inl ⟨_, hs, read_ofValue hs, ?_⟩
    change _ = utf16Encode _ ++ l
    rw [utf16Encode, if_pos c1.toNat_lt, UInt16.ofNat_toNat]
    rfl

theorem and_F800 (c : UInt16) : c &&& 0xF800 = 0xD800 ↔ isHighSurrogate c.toNat = true ∨ isLowSurrogate c.toNat = true := by
  have h (n : ℕ) (hn : n < 65536) : n &&& 0xF800 = n / 2048 * 2048 := by
    have hbits : n &&& (0x1F <<< 11) = (n >>> 11 &&& 0x1F) <<< 11 := by
      refine Nat.eq_of_testBit_eq fun i => ?_
      simp only [Nat.testBit_and, Nat.testBit_shiftLeft, Nat.testBit_shiftRight]
      by_cases hi : 11 ≤ i
      · simp [hi]
      · simp [hi]
    have hand : n >>> 11 &&& 0x1F = n >>> 11 % 32 := Nat.and_two_pow_sub_one_eq_mod _ 5
    refine hbits.trans ?_
    rw [hand, Nat.shiftLeft_eq, Nat.shiftRight_eq_div_pow]
    omega
  have hc := c.toNat_lt
  rw [← UInt16.toNat_inj, UInt16.toNat_and, isHighSurrogate_toNat, isLowSurrogate_toNat]
  refine Eq.to_iff (congrArg (· = 0xD800) (h _ hc)) |>.trans ?_
  omega

theorem block_units (v : List UInt16) (hv : v.all utf16Widenable = true) :
    Block utf16 v (v.map UInt16.toNat) ∧ ∀ cp ∈ v.map UInt16.toNat, cp < 0x10000 := by
  induction v with
  | nil => exact ⟨.nil, nofun⟩
  | cons c v ih =>
      rw [List.all_cons, Bool.and_eq_true] at hv
      have hw : ¬(isHighSurrogate c.toNat = true ∨ isLowSurrogate c.toNat = true) := by
        rw [← and_F800]
        simpa [utf16Widenable] using hv.1
      have hlt := c.toNat_lt
      have hs : IsScalar c.toNat := by
        rw [isHighSurrogate_toNat, isLowSurrogate_toNat] at hw
        unfold IsScalar
        omega
      have he : utf16Encode c.toNat = [c] := by
        rw [utf16Encode, if_pos hlt, UInt16.ofNat_toNat]
      obtain ⟨hb, hlt'⟩ := ih hv.2
      exact ⟨Block.cons (E := utf16) hs he hb, List.forall_mem_cons.mpr ⟨hlt, hlt'⟩⟩

theorem utf16Block_spec {simd : Simd} {capacity : ℕ} {data rest : List UInt16} {out : List ℕ}
    (h : utf16Block simd false capacity data = some (out, rest)) :
    out ≠ [] ∧ ∃ v, data = v ++ rest ∧ Block utf16 v out := by
  unfold utf16Block at h
  split_ifs at h with h1
  simp only [Bool.and_eq_true, decide_eq_true_eq] at h1
  obtain ⟨rfl, rfl⟩ := Prod.mk.inj (Option.some.inj h)
  refine ⟨?_, _, (List.take_append_drop _ _).symm, (block_units _ h1.2).1⟩
  refine List.ne_nil_of_length_pos ?_
  rw [List.length_map, List.length_take, Nat.min_eq_left h1.1.1.2]
  decide

/-! ### UTF-32 -/

def utf32Encode (cp : ℕ) : List UInt32 := [.ofNat cp]

theorem toNat_ofNat32 {n : ℕ} (hs : IsScalar n) : (UInt32.ofNat n).toNat = n := by
  unfold IsScalar at hs
  rw [UInt32.toNat_ofNat', Nat.mod_eq_of_lt (by omega)]

/-- The form UTF-32: every unit is a lead. -/
def utf32 : EncodingForm UInt32 where
  encode := utf32Encode
  IsLead _ := True
  lead cp _ := ⟨_, _, rfl, trivial, nofun⟩
  eq_of_append cp cp' l l' hs hs' h := by
    have := congrArg UInt32.toNat (List.cons.inj h).1
    rwa [toNat_ofNat32 hs, toNat_ofNat32 hs'] at this

theorem utf32Encode_toNat (c : UInt32) : utf32Encode c.toNat = [c] := by
  rw [utf32Encode, UInt32.ofNat_toNat]

/-- Every string of 32-bit units is read one unit at a time. -/
theorem decodeUtf32_readsOne {l : List UInt32} (hl : l ≠ []) :
    utf32.ReadsOne Read l (decodeUtf32 l).cp (decodeUtf32 l).rest := by
  obtain ⟨raw, l, rfl⟩ := List.exists_cons_of_ne_nil hl
  have heq : (decodeUtf32 (raw :: l)).cp = ofValue raw.toNat ∧ (decodeUtf32 (raw :: l)).rest = l := by
    simp only [decodeUtf32, ofValue]
    split_ifs <;> exact ⟨rfl, rfl⟩
  rw [heq.1, heq.2]
  by_cases hs : IsScalar raw.toNat
  · refine .inl ⟨_, hs, read_ofValue hs, ?_⟩
    change _ = utf32Encode _ ++ l
    rw [utf32Encode_toNat]
    rfl
  · refine .inr ⟨?_, raw, [], rfl, nofun, ?_⟩
    · rw [ofValue, not_isValidCodepoint raw.toNat_lt hs]
      rfl
    · rintro cp hs' ⟨t, ht⟩
      have := congrArg UInt32.toNat (List.cons.inj ht).1
      rw [toNat_ofNat32 hs'] at this
      exact hs (this ▸ hs')

theorem block_utf32 (v : List UInt32) (hv : v.all utf32Valid = true) : Block utf32 v (v.map UInt32.toNat) := by
  induction v with
  | nil => exact .nil
  | cons c v ih =>
      rw [List.all_cons, Bool.and_eq_true] at hv
      have hs : IsScalar c.toNat := by
        have := hv.1
        simp only [utf32Valid, Bool.not_eq_true', Bool.or_eq_false_iff, Bool.and_eq_false_iff, decide_eq_false_iff_not,
          UInt32.lt_iff_toNat_lt, UInt32.reduceToNat] at this
        unfold IsScalar
        omega
      exact Block.cons (E := utf32) hs (utf32Encode_toNat c) (ih hv.2)

theorem utf32Block_spec {simd : Simd} {capacity : ℕ} {data rest : List UInt32} {out : List ℕ}
    (h : utf32Block simd capacity data = some (out, rest)) :
    out ≠ [] ∧ ∃ v, data = v ++ rest ∧ Block utf32 v out := by
  unfold utf32Block at h
  split_ifs at h with h1
  simp only [Bool.and_eq_true, decide_eq_true_eq] at h1
  obtain ⟨rfl, rfl⟩ := Prod.mk.inj (Option.some.inj h)
  refine ⟨?_, _, (List.take_append_drop _ _).symm, block_utf32 _ h1.2⟩
  refine List.ne_nil_of_length_pos ?_
  rw [List.length_map, List.length_take, Nat.min_eq_left h1.1.1.2]
  decide

/-! ### Appending -/

theorem and_80_or (cp : ℕ) : 0x80 ||| (cp &&& 0x3F) = 0x80 + cp % 64 := by
  rw [and_3F]
  exact shiftLeft_or 2 (k := 6) (by omega)

/-- A string takes the standard encoding of a scalar value, and the replacement character for a truncated one. -/
theorem appendUtf8Char_eq (hs : IsScalar cp) : appendUtf8Char cp = utf8Encode (ofValue cp) := by
  have hcond : (decide (cp > 0x10FFFF) || isHighSurrogate cp || isLowSurrogate cp) = !isValidCodepoint cp := by
    rw [isValidCodepoint]
    by_cases h : cp ≤ 0x10FFFF
    · simp [h, Nat.not_lt.mpr h]
    · simp [h, Nat.lt_of_not_le h]
  rw [appendUtf8Char, ofValue, hcond]
  cases hv : isValidCodepoint cp with
  | false =>
      have h : utf8Encode 0xFFFD = [0xEF, 0xBF, 0xBD] := by decide
      exact h.symm
  | true =>
      simp only [Bool.not_true, Bool.false_eq_true, if_false, if_true, and_80_or, Nat.shiftRight_eq_div_pow]
      unfold utf8Encode
      unfold IsScalar at hs
      split_ifs <;> try omega
      · rfl
      · congr 2
        exact shiftLeft_or 6 (b := cp / 64) (k := 5) (by omega)
      · congr 2
        exact shiftLeft_or 14 (b := cp / 4096) (k := 4) (by omega)
      · congr 2
        exact shiftLeft_or 30 (b := cp / 262144) (k := 3) (by omega)

theorem appendUtf16Char_eq (cp : ℕ) : appendUtf16Char cp = utf16Encode (ofValue cp) := by
  rw [appendUtf16Char, ofValue]
  cases hv : isValidCodepoint cp with
  | false => rfl
  | true =>
      have hand (n : ℕ) : n &&& 0x3FF = n % 0x400 := Nat.and_two_pow_sub_one_eq_mod n 10
      simp only [Bool.not_true, Bool.false_eq_true, if_false, if_true, hand, Nat.shiftRight_eq_div_pow]
      unfold utf16Encode
      split_ifs <;> try omega
      · rfl
      · rw [Nat.add_comm, Nat.add_comm _ 0xDC00]

end NeForce.Codepoint
