import NeForce.EncodingForm
import NeForce.Codepoint

/-! # Characters and blocks of UTF-8

`utf8` is the standard form; its bytes are characterised by the payload of their lead and continuation bytes
(`value2`, `value3`, `value4`).  `decodeUtf8Char` reads a character of the form or rejects a byte with continuation
bytes behind it (`decodeUtf8Char_readsOne`), and a block stands for characters of the form (`utf8Block_spec`). -/

namespace NeForce.Codepoint

open EncodingForm

set_option maxRecDepth 8000

/-! ### Bits -/

theorem shiftLeft_or (a : ℕ) {b k : ℕ} (h : b < 2 ^ k) : a <<< k ||| b = a * 2 ^ k + b := by
  rw [← Nat.shiftLeft_add_eq_or_of_lt h, Nat.shiftLeft_eq]

theorem and_3F (n : ℕ) : n &&& 0x3F = n % 64 := Nat.and_two_pow_sub_one_eq_mod n 6

/-- A masked byte, by its value. -/
theorem and_eq_iff {m v : UInt8} (P : ℕ → Prop) (h : ∀ n < 256, n &&& m.toNat = v.toNat ↔ P n) (b : UInt8) :
    b &&& m = v ↔ P b.toNat := by
  rw [← UInt8.toNat_inj, UInt8.toNat_and]
  exact h _ b.toNat_lt

theorem and_80 (b : UInt8) : b &&& 0x80 = 0 ↔ b.toNat < 0x80 := by
  apply and_eq_iff fun n => n < 0x80
  decide

theorem and_E0 (b : UInt8) : b &&& 0xE0 = 0xC0 ↔ 0xC0 ≤ b.toNat ∧ b.toNat < 0xE0 := by
  apply and_eq_iff fun n => 0xC0 ≤ n ∧ n < 0xE0
  decide

theorem and_F0 (b : UInt8) : b &&& 0xF0 = 0xE0 ↔ 0xE0 ≤ b.toNat ∧ b.toNat < 0xF0 := by
  apply and_eq_iff fun n => 0xE0 ≤ n ∧ n < 0xF0
  decide

theorem and_F8 (b : UInt8) : b &&& 0xF8 = 0xF0 ↔ 0xF0 ≤ b.toNat ∧ b.toNat < 0xF8 := by
  apply and_eq_iff fun n => 0xF0 ≤ n ∧ n < 0xF8
  decide

theorem isContinuation_iff (b : UInt8) : isContinuation b = true ↔ 0x80 ≤ b.toNat ∧ b.toNat < 0xC0 := by
  rw [isContinuation, decide_eq_true_iff]
  apply and_eq_iff fun n => 0x80 ≤ n ∧ n < 0xC0
  decide

/-- The payload of two, three and four bytes. -/
def value2 (b1 b2 : UInt8) : ℕ := b1.toNat % 32 * 64 + b2.toNat % 64

def value3 (b1 b2 b3 : UInt8) : ℕ := b1.toNat % 16 * 4096 + b2.toNat % 64 * 64 + b3.toNat % 64

def value4 (b1 b2 b3 b4 : UInt8) : ℕ :=
  b1.toNat % 8 * 262144 + b2.toNat % 64 * 4096 + b3.toNat % 64 * 64 + b4.toNat % 64

variable {α : Type} {E : EncodingForm α} {b1 b2 b3 b4 : UInt8} {l : Bytes} {cp : ℕ}

theorem bits2 (b1 b2 : UInt8) : (b1.toNat &&& 0x1F) <<< 6 ||| (b2.toNat &&& 0x3F) = value2 b1 b2 := by
  have h : b1.toNat &&& 0x1F = b1.toNat % 32 := Nat.and_two_pow_sub_one_eq_mod _ 5
  rw [and_3F, h, shiftLeft_or _ (by omega)]
  rfl

theorem bits3 (b1 b2 b3 : UInt8) :
    (b1.toNat &&& 0x0F) <<< 12 ||| ((b2.toNat &&& 0x3F) <<< 6 ||| (b3.toNat &&& 0x3F)) = value3 b1 b2 b3 := by
  have h : b1.toNat &&& 0x0F = b1.toNat % 16 := Nat.and_two_pow_sub_one_eq_mod _ 4
  rw [and_3F, and_3F, h, shiftLeft_or (b2.toNat % 64) (by omega), shiftLeft_or _ (by omega), value3]
  omega

theorem bits4 (b1 b2 b3 b4 : UInt8) :
    (b1.toNat &&& 0x07) <<< 18 ||| ((b2.toNat &&& 0x3F) <<< 12 ||| ((b3.toNat &&& 0x3F) <<< 6 ||| (b4.toNat &&& 0x3F))) =
      value4 b1 b2 b3 b4 := by
  have h : b1.toNat &&& 0x07 = b1.toNat % 8 := Nat.and_two_pow_sub_one_eq_mod _ 3
  rw [and_3F, and_3F, and_3F, h, shiftLeft_or (b3.toNat % 64) (by omega), shiftLeft_or (b2.toNat % 64) (by omega),
    shiftLeft_or _ (by omega), value4]
  omega

/-! ### UTF-8 -/

/-- The standard encoding of a scalar value. -/
def utf8Encode (cp : ℕ) : Bytes :=
  if cp < 0x80 then [.ofNat cp]
  else if cp < 0x800 then [.ofNat (0xC0 + cp / 64), .ofNat (0x80 + cp % 64)]
  else if cp < 0x10000 then [.ofNat (0xE0 + cp / 4096), .ofNat (0x80 + cp / 64 % 64), .ofNat (0x80 + cp % 64)]
  else
    [.ofNat (0xF0 + cp / 262144), .ofNat (0x80 + cp / 4096 % 64), .ofNat (0x80 + cp / 64 % 64), .ofNat (0x80 + cp % 64)]

theorem decodeUtf8Char_one (h1 : b1.toNat < 0x80) : decodeUtf8Char (b1 :: l) = ⟨true, b1.toNat, l⟩ := by
  unfold decodeUtf8Char
  dsimp only
  rw [if_pos ((and_80 b1).mpr h1)]

theorem decodeUtf8Char_lead2 (h1 : 0xC0 ≤ b1.toNat ∧ b1.toNat < 0xE0) :
    decodeUtf8Char (b1 :: l) =
      match l with
      | b2 :: l2 =>
        if !isContinuation b2 then rejected l
        else if value2 b1 b2 < 0x80 then rejected l2 else ⟨true, value2 b1 b2, l2⟩
      | _ => rejected l := by
  unfold decodeUtf8Char
  dsimp only
  rw [if_neg (by rw [and_80]; omega), if_pos ((and_E0 b1).mpr h1)]
  simp only [bits2]
  rfl

theorem decodeUtf8Char_lead3 (h1 : 0xE0 ≤ b1.toNat ∧ b1.toNat < 0xF0) :
    decodeUtf8Char (b1 :: l) =
      match l with
      | b2 :: b3 :: l3 =>
        if !isContinuation b2 then rejected l
        else if !isContinuation b3 then rejected (b3 :: l3)
        else
          if value3 b1 b2 b3 < 0x800 || (0xD800 ≤ value3 b1 b2 b3 && value3 b1 b2 b3 ≤ 0xDFFF) then rejected l3
          else ⟨true, value3 b1 b2 b3, l3⟩
      | _ => rejected l := by
  unfold decodeUtf8Char
  dsimp only
  rw [if_neg (by rw [and_80]; omega), if_neg (by rw [and_E0]; omega), if_pos ((and_F0 b1).mpr h1)]
  simp only [Nat.or_assoc, bits3]
  rfl

theorem decodeUtf8Char_lead4 (h1 : 0xF0 ≤ b1.toNat ∧ b1.toNat < 0xF8) :
    decodeUtf8Char (b1 :: l) =
      match l with
      | b2 :: b3 :: b4 :: l4 =>
        if !isContinuation b2 then rejected l
        else if !isContinuation b3 then rejected (b3 :: b4 :: l4)
        else if !isContinuation b4 then rejected (b4 :: l4)
        else
          if value4 b1 b2 b3 b4 < 0x10000 || 0x10FFFF < value4 b1 b2 b3 b4 then rejected l4
          else ⟨true, value4 b1 b2 b3 b4, l4⟩
      | _ => rejected l := by
  unfold decodeUtf8Char
  dsimp only
  rw [if_neg (by rw [and_80]; omega), if_neg (by rw [and_E0]; omega), if_neg (by rw [and_F0]; omega),
    if_pos ((and_F8 b1).mpr h1)]
  simp only [Nat.or_assoc, bits4]
  rfl

theorem decodeUtf8Char_other (h1 : 0x80 ≤ b1.toNat ∧ b1.toNat < 0xC0 ∨ 0xF8 ≤ b1.toNat) :
    decodeUtf8Char (b1 :: l) = rejected l := by
  unfold decodeUtf8Char
  dsimp only
  rw [if_neg (by rw [and_80]; omega), if_neg (by rw [and_E0]; omega), if_neg (by rw [and_F0]; omega),
    if_neg (by rw [and_F8]; omega)]

theorem toNat_ofNat8 {n : ℕ} (h : n < 256) : (UInt8.ofNat n).toNat = n := by
  rw [UInt8.toNat_ofNat', Nat.mod_eq_of_lt h]

theorem ofNat8_eq {n : ℕ} {b : UInt8} (h : n = b.toNat) : UInt8.ofNat n = b := by
  rw [h, UInt8.ofNat_toNat]

/-- The bytes of a value whose length is the least possible. -/
theorem utf8Encode_value2 (h1 : 0xC0 ≤ b1.toNat ∧ b1.toNat < 0xE0) (h2 : isContinuation b2 = true)
    (hv : 0x80 ≤ value2 b1 b2) : IsScalar (value2 b1 b2) ∧ utf8Encode (value2 b1 b2) = [b1, b2] := by
  rw [isContinuation_iff] at h2
  unfold value2 at *
  refine ⟨.inl (by omega), ?_⟩
  rw [utf8Encode, if_neg (by omega), if_pos (by omega)]
  rw [ofNat8_eq (b := b1) (by omega), ofNat8_eq (b := b2) (by omega)]

theorem utf8Encode_value3 (h1 : 0xE0 ≤ b1.toNat ∧ b1.toNat < 0xF0) (h2 : isContinuation b2 = true)
    (h3 : isContinuation b3 = true) (hv : 0x800 ≤ value3 b1 b2 b3)
    (hs : ¬(0xD800 ≤ value3 b1 b2 b3 ∧ value3 b1 b2 b3 ≤ 0xDFFF)) :
    IsScalar (value3 b1 b2 b3) ∧ utf8Encode (value3 b1 b2 b3) = [b1, b2, b3] := by
  rw [isContinuation_iff] at h2 h3
  unfold value3 at *
  refine ⟨by unfold IsScalar; omega, ?_⟩
  rw [utf8Encode, if_neg (by omega), if_neg (by omega), if_pos (by omega)]
  rw [ofNat8_eq (b := b1) (by omega), ofNat8_eq (b := b2) (by omega), ofNat8_eq (b := b3) (by omega)]

theorem utf8Encode_value4 (h1 : 0xF0 ≤ b1.toNat ∧ b1.toNat < 0xF8) (h2 : isContinuation b2 = true)
    (h3 : isContinuation b3 = true) (h4 : isContinuation b4 = true) (hv : 0x10000 ≤ value4 b1 b2 b3 b4)
    (hs : value4 b1 b2 b3 b4 ≤ 0x10FFFF) :
    IsScalar (value4 b1 b2 b3 b4) ∧ utf8Encode (value4 b1 b2 b3 b4) = [b1, b2, b3, b4] := by
  rw [isContinuation_iff] at h2 h3 h4
  unfold value4 at *
  refine ⟨by unfold IsScalar; omega, ?_⟩
  rw [utf8Encode, if_neg (by omega), if_neg (by omega), if_neg (by omega)]
  rw [ofNat8_eq (b := b1) (by omega), ofNat8_eq (b := b2) (by omega), ofNat8_eq (b := b3) (by omega),
    ofNat8_eq (b := b4) (by omega)]

/-- The bytes of a scalar value, by the number of bytes. -/
theorem utf8Encode_cases (hs : IsScalar cp) :
    (∃ b1, utf8Encode cp = [b1] ∧ b1.toNat < 0x80 ∧ cp = b1.toNat) ∨
    (∃ b1 b2, utf8Encode cp = [b1, b2] ∧ (0xC0 ≤ b1.toNat ∧ b1.toNat < 0xE0) ∧ isContinuation b2 = true ∧
      cp = value2 b1 b2 ∧ 0x80 ≤ cp) ∨
    (∃ b1 b2 b3, utf8Encode cp = [b1, b2, b3] ∧ (0xE0 ≤ b1.toNat ∧ b1.toNat < 0xF0) ∧ isContinuation b2 = true ∧
      isContinuation b3 = true ∧ cp = value3 b1 b2 b3 ∧ 0x800 ≤ cp) ∨
    (∃ b1 b2 b3 b4, utf8Encode cp = [b1, b2, b3, b4] ∧ (0xF0 ≤ b1.toNat ∧ b1.toNat < 0xF8) ∧ isContinuation b2 = true ∧
      isContinuation b3 = true ∧ isContinuation b4 = true ∧ cp = value4 b1 b2 b3 b4 ∧ 0x10000 ≤ cp) := by
  have hc (n : ℕ) : isContinuation (.ofNat (0x80 + n % 64)) = true := by
    rw [isContinuation_iff, toNat_ofNat8 (by omega)]
    omega
  unfold IsScalar at hs
  unfold utf8Encode
  split_ifs with h1 h2 h3
  · exact .inl ⟨_, rfl, by rw [toNat_ofNat8 (by omega)]; omega, by rw [toNat_ofNat8 (by omega)]⟩
  · refine .inr (.inl ⟨_, _, rfl, ?_, hc _, ?_, by omega⟩)
    · rw [toNat_ofNat8 (by omega)]
      omega
    · rw [value2, toNat_ofNat8 (by omega), toNat_ofNat8 (by omega)]
      omega
  · refine .inr (.inr (.inl ⟨_, _, _, rfl, ?_, hc _, hc _, ?_, by omega⟩))
    · rw [toNat_ofNat8 (by omega)]
      omega
    · rw [value3, toNat_ofNat8 (by omega), toNat_ofNat8 (by omega), toNat_ofNat8 (by omega)]
      omega
  · refine .inr (.inr (.inr ⟨_, _, _, _, rfl, ?_, hc _, hc _, hc _, ?_, by omega⟩))
    · rw [toNat_ofNat8 (by omega)]
      omega
    · rw [value4, toNat_ofNat8 (by omega), toNat_ofNat8 (by omega), toNat_ofNat8 (by omega), toNat_ofNat8 (by omega)]
      omega

/-- A character is decoded to its value. -/
theorem decodeUtf8Char_encode (hs : IsScalar cp) (l : Bytes) :
    decodeUtf8Char (utf8Encode cp ++ l) = ⟨true, cp, l⟩ := by
  rcases utf8Encode_cases hs with ⟨b1, he, h1, rfl⟩ | ⟨b1, b2, he, h1, h2, hv, hle⟩ | ⟨b1, b2, b3, he, h1, h2, h3, hv, hle⟩ |
    ⟨b1, b2, b3, b4, he, h1, h2, h3, h4, hv, hle⟩
  · rw [he]
    exact decodeUtf8Char_one h1
  · rw [he, List.cons_append, decodeUtf8Char_lead2 h1]
    simp only [List.cons_append, List.nil_append, h2, Bool.not_true, Bool.false_eq_true, if_false, ← hv]
    rw [if_neg (by omega)]
  · rw [he, List.cons_append, decodeUtf8Char_lead3 h1]
    simp only [List.cons_append, List.nil_append, h2, h3, Bool.not_true, Bool.false_eq_true, if_false, ← hv]
    unfold IsScalar at hs
    rw [if_neg (by simp; omega)]
  · rw [he, List.cons_append, decodeUtf8Char_lead4 h1]
    simp only [List.cons_append, List.nil_append, h2, h3, h4, Bool.not_true, Bool.false_eq_true, if_false, ← hv]
    unfold IsScalar at hs
    rw [if_neg (by simp; omega)]

/-- The form UTF-8: a byte that is no continuation byte is a lead. -/
def utf8 : EncodingForm UInt8 where
  encode := utf8Encode
  IsLead b := isContinuation b = false
  lead cp hs := by
    have hlead {b : UInt8} (hb : b.toNat < 0x80 ∨ 0xC0 ≤ b.toNat) : isContinuation b = false := by
      rw [← Bool.not_eq_true, isContinuation_iff]
      omega
    rcases utf8Encode_cases hs with ⟨b1, he, h1, -⟩ | ⟨b1, b2, he, h1, h2, -⟩ | ⟨b1, b2, b3, he, h1, h2, h3, -⟩ |
      ⟨b1, b2, b3, b4, he, h1, h2, h3, h4, -⟩
    · exact ⟨_, _, he, hlead (.inl h1), nofun⟩
    · exact ⟨_, _, he, hlead (.inr (by omega)), by simp [h2]⟩
    · exact ⟨_, _, he, hlead (.inr (by omega)), by simp [h2, h3]⟩
    · exact ⟨_, _, he, hlead (.inr (by omega)), by simp [h2, h3, h4]⟩
  eq_of_append cp cp' l l' hs hs' h := by
    have := (decodeUtf8Char_encode hs l).symm.trans ((congrArg decodeUtf8Char h).trans (decodeUtf8Char_encode hs' l'))
    exact congrArg Decoded.cp this

/-- A rejected piece is a byte with continuation bytes behind it. -/
theorem rejects {u : Bytes} (hd : decodeUtf8Char (b1 :: (u ++ l)) = rejected l) (hu : ∀ d ∈ u, isContinuation d = true) :
    utf8.ReadsOne Eq (b1 :: (u ++ l)) (decodeUtf8Char (b1 :: (u ++ l))).cp (decodeUtf8Char (b1 :: (u ++ l))).rest := by
  rw [hd]
  refine .inr ⟨rfl, b1, u, rfl, fun d hd => by simp [utf8, hu d hd], ?_⟩
  rintro cp hs ⟨t, ht⟩
  rw [← ht] at hd
  have := (decodeUtf8Char_encode hs t).symm.trans hd
  exact Bool.noConfusion (congrArg Decoded.ok this : true = false)

theorem accepts {u : Bytes} (hs : IsScalar cp) (he : utf8Encode cp = u) (hd : decodeUtf8Char (u ++ l) = ⟨true, cp, l⟩) :
    utf8.ReadsOne Eq (u ++ l) (decodeUtf8Char (u ++ l)).cp (decodeUtf8Char (u ++ l)).rest := by
  rw [hd]
  exact .inl ⟨cp, hs, rfl, by rw [← he]; rfl⟩

/-- Every byte string is read one character or one rejected piece at a time. -/
theorem decodeUtf8Char_readsOne (hl : l ≠ []) :
    utf8.ReadsOne Eq l (decodeUtf8Char l).cp (decodeUtf8Char l).rest := by
  obtain ⟨b1, l, rfl⟩ := List.exists_cons_of_ne_nil hl
  have hcases : b1.toNat < 0x80 ∨ (0xC0 ≤ b1.toNat ∧ b1.toNat < 0xE0) ∨ (0xE0 ≤ b1.toNat ∧ b1.toNat < 0xF0) ∨
      (0xF0 ≤ b1.toNat ∧ b1.toNat < 0xF8) ∨ (0x80 ≤ b1.toNat ∧ b1.toNat < 0xC0 ∨ 0xF8 ≤ b1.toNat) := by omega
  rcases hcases with h1 | h1 | h1 | h1 | h1
  · refine accepts (u := [b1]) (.inl (by omega)) ?_ (decodeUtf8Char_one h1)
    rw [utf8Encode, if_pos h1, UInt8.ofNat_toNat]
  · have hd := decodeUtf8Char_lead2 (l := l) h1
    match l with
    | [] => exact rejects (u := []) hd nofun
    | b2 :: l2 =>
        dsimp only at hd
        split_ifs at hd with h2 hv
        · exact rejects (u := []) hd nofun
        · exact rejects (u := [b2]) hd (by simpa using h2)
        · obtain ⟨hs, he⟩ := utf8Encode_value2 h1 (by simpa using h2) (Nat.not_lt.mp hv)
          exact accepts hs he hd
  · have hd := decodeUtf8Char_lead3 (l := l) h1
    match l with
    | [] => exact rejects (u := []) hd nofun
    | [b2] => exact rejects (u := []) hd nofun
    | b2 :: b3 :: l3 =>
        dsimp only at hd
        split_ifs at hd with h2 h3 hv
        · exact rejects (u := []) hd nofun
        · exact rejects (u := [b2]) hd (by simpa using h2)
        · exact rejects (u := [b2, b3]) hd (by simpa using ⟨by simpa using h2, by simpa using h3⟩)
        · have hv' : 0x800 ≤ value3 b1 b2 b3 ∧ ¬(0xD800 ≤ value3 b1 b2 b3 ∧ value3 b1 b2 b3 ≤ 0xDFFF) := by
            simpa using hv
          obtain ⟨hs, he⟩ := utf8Encode_value3 h1 (by simpa using h2) (by simpa using h3) hv'.1 hv'.2
          exact accepts hs he hd
  · have hd := decodeUtf8Char_lead4 (l := l) h1
    match l with
    | [] => exact rejects (u := []) hd nofun
    | [b2] => exact rejects (u := []) hd nofun
    | [b2, b3] => exact rejects (u := []) hd nofun
    | b2 :: b3 :: b4 :: l4 =>
        dsimp only at hd
        split_ifs at hd with h2 h3 h4 hv
        · exact rejects (u := []) hd nofun
        · exact rejects (u := [b2]) hd (by simpa using h2)
        · exact rejects (u := [b2, b3]) hd (by simpa using ⟨by simpa using h2, by simpa using h3⟩)
        · exact rejects (u := [b2, b3, b4]) hd
            (by simpa using ⟨by simpa using h2, by simpa using h3, by simpa using h4⟩)
        · have hv' : 0x10000 ≤ value4 b1 b2 b3 b4 ∧ value4 b1 b2 b3 b4 ≤ 0x10FFFF := by simpa using hv
          obtain ⟨hs, he⟩ := utf8Encode_value4 h1 (by simpa using h2) (by simpa using h3) (by simpa using h4) hv'.1 hv'.2
          exact accepts hs he hd
  · exact rejects (u := []) (decodeUtf8Char_other h1) nofun

/-! ### Blocks of UTF-8 -/

/-- The bytes are the encodings of the values. -/
def Block (E : EncodingForm α) (v : List α) (out : List ℕ) : Prop := (∀ cp ∈ out, IsScalar cp) ∧ v = E.encodeAll out

theorem Block.nil : Block E [] [] := ⟨nofun, rfl⟩

theorem Block.cons {u v : List α} {out : List ℕ} (hs : IsScalar cp) (he : E.encode cp = u) (h : Block E v out) :
    Block E (u ++ v) (cp :: out) :=
  ⟨List.forall_mem_cons.mpr ⟨hs, h.1⟩, by rw [encodeAll_cons, he, ← h.2]⟩

theorem block_ascii (v : Bytes) (hv : v.all isAscii = true) : Block utf8 v (v.map UInt8.toNat) := by
  induction v with
  | nil => exact .nil
  | cons b v ih =>
      rw [List.all_cons, Bool.and_eq_true] at hv
      have hb : b.toNat < 0x80 := by simpa [isAscii, UInt8.lt_iff_toNat_lt] using hv.1
      refine Block.cons (u := [b]) (.inl (by omega)) ?_ (ih hv.2)
      change utf8Encode b.toNat = [b]
      rw [utf8Encode, if_pos hb, UInt8.ofNat_toNat]

theorem block_len2 (k : ℕ) (v : Bytes) (hl : v.length = 2 * k) (hv : blockLen2Ok v = true) :
    Block utf8 v (decodeLen2Block v) ∧ (decodeLen2Block v).length = k := by
  induction k generalizing v with
  | zero =>
      obtain rfl := List.length_eq_zero_iff.mp hl
      exact ⟨.nil, rfl⟩
  | succ k ih =>
      match v, hl with
      | b1 :: b2 :: v, hl =>
          simp only [blockLen2Ok, Bool.and_eq_true, decide_eq_true_eq, UInt8.lt_iff_toNat_lt] at hv
          obtain ⟨⟨⟨h1, h1'⟩, h2⟩, hv⟩ := hv
          obtain ⟨hb, hk⟩ := ih v (by simp only [List.length_cons] at hl; omega) hv
          simp only [UInt8.reduceToNat] at h1 h1'
          have hlead : 0xC0 ≤ b1.toNat ∧ b1.toNat < 0xE0 := by omega
          obtain ⟨hs, he⟩ := utf8Encode_value2 hlead h2 (by rw [value2]; omega)
          rw [decodeLen2Block, bits2]
          exact ⟨Block.cons hs he hb, by rw [List.length_cons, hk]⟩

theorem block_len3 (k : ℕ) (v : Bytes) (hl : v.length = 3 * k) (hv : blockLen3Ok v = true) :
    Block utf8 v (decodeLen3Block v) ∧ (decodeLen3Block v).length = k := by
  induction k generalizing v with
  | zero =>
      obtain rfl := List.length_eq_zero_iff.mp hl
      exact ⟨.nil, rfl⟩
  | succ k ih =>
      match v, hl with
      | b1 :: b2 :: b3 :: v, hl =>
          simp only [blockLen3Ok, Bool.and_eq_true, decide_eq_true_eq, and_F0, Bool.not_eq_true', Bool.and_eq_false_iff,
            decide_eq_false_iff_not, Bool.not_eq_false', UInt8.le_iff_toNat_le] at hv
          obtain ⟨⟨⟨⟨⟨h1, h2⟩, h3⟩, he0⟩, hed⟩, hv⟩ := hv
          rw [← UInt8.toNat_inj] at he0 hed
          obtain ⟨hb, hk⟩ := ih v (by simp only [List.length_cons] at hl; omega) hv
          simp only [UInt8.reduceToNat] at he0 hed
          have h2' := (isContinuation_iff b2).mp h2
          have h3' := (isContinuation_iff b3).mp h3
          obtain ⟨hs, he⟩ := utf8Encode_value3 h1 h2 h3 (by rw [value3]; omega) (by rw [value3]; omega)
          rw [decodeLen3Block, bits3]
          exact ⟨Block.cons hs he hb, by rw [List.length_cons, hk]⟩

theorem block_len4 (k : ℕ) (v : Bytes) (hl : v.length = 4 * k) (hv : blockLen4Ok v = true) :
    Block utf8 v (decodeLen4Block v) ∧ (decodeLen4Block v).length = k := by
  induction k generalizing v with
  | zero =>
      obtain rfl := List.length_eq_zero_iff.mp hl
      exact ⟨.nil, rfl⟩
  | succ k ih =>
      match v, hl with
      | b1 :: b2 :: b3 :: b4 :: v, hl =>
          simp only [blockLen4Ok, Bool.and_eq_true, decide_eq_true_eq, Bool.not_eq_true', Bool.and_eq_false_iff,
            decide_eq_false_iff_not, UInt8.lt_iff_toNat_lt, ← UInt8.toNat_inj] at hv
          obtain ⟨⟨⟨⟨⟨⟨⟨h1, h1'⟩, h2⟩, h3⟩, h4⟩, hf0⟩, hf4⟩, hv⟩ := hv
          obtain ⟨hb, hk⟩ := ih v (by simp only [List.length_cons] at hl; omega) hv
          simp only [UInt8.reduceToNat] at h1 h1' hf0 hf4
          have h2' := (isContinuation_iff b2).mp h2
          have hlead : 0xF0 ≤ b1.toNat ∧ b1.toNat < 0xF8 := by omega
          obtain ⟨hs, he⟩ := utf8Encode_value4 hlead h2 h3 h4 (by rw [value4]; omega) (by rw [value4]; omega)
          rw [decodeLen4Block, Nat.or_assoc, bits4]
          exact ⟨Block.cons hs he hb, by rw [List.length_cons, hk]⟩

/-- A block stands for the characters that its bytes encode. -/
theorem utf8Block_spec {simd : Simd} {capacity : ℕ} {data rest : Bytes} {out : List ℕ}
    (h : utf8Block simd capacity data = some (out, rest)) :
    out ≠ [] ∧ ∃ v, data = v ++ rest ∧ Block utf8 v out := by
  have hne {k : ℕ} {out : List ℕ} (hk : out.length = k + 1) : out ≠ [] := by
    rintro rfl
    cases hk
  unfold utf8Block at h
  dsimp only at h
  split_ifs at h with h1 h2 h3 h4 h5
  · simp only [Bool.and_eq_true, decide_eq_true_eq] at h1
    obtain ⟨rfl, rfl⟩ := Prod.mk.inj (Option.some.inj h)
    refine ⟨hne (k := 31) ?_, _, (List.take_append_drop _ _).symm, block_ascii _ h1.2⟩
    rw [List.length_map, List.length_take, Nat.min_eq_left h1.1.1.2]
  · simp only [Bool.and_eq_true, decide_eq_true_eq] at h2
    obtain ⟨rfl, rfl⟩ := Prod.mk.inj (Option.some.inj h)
    refine ⟨hne (k := 15) ?_, _, (List.take_append_drop _ _).symm, block_ascii _ h2.1.2⟩
    rw [List.length_map, List.length_take, Nat.min_eq_left h2.1.1.2]
  · simp only [Bool.and_eq_true, decide_eq_true_eq] at h3
    obtain ⟨rfl, rfl⟩ := Prod.mk.inj (Option.some.inj h)
    obtain ⟨hb, hk⟩ := block_len2 8 (data.take 16) (by rw [List.length_take, Nat.min_eq_left h3.1.1.2]) h3.2
    exact ⟨hne hk, _, (List.take_append_drop _ _).symm, hb⟩
  · simp only [Bool.and_eq_true, decide_eq_true_eq] at h4
    obtain ⟨rfl, rfl⟩ := Prod.mk.inj (Option.some.inj h)
    obtain ⟨hb, hk⟩ := block_len4 4 (data.take 16) (by rw [List.length_take, Nat.min_eq_left h4.1.1.2]) h4.2
    exact ⟨hne hk, _, (List.take_append_drop _ _).symm, hb⟩
  · simp only [Bool.and_eq_true, decide_eq_true_eq] at h5
    obtain ⟨rfl, rfl⟩ := Prod.mk.inj (Option.some.inj h)
    have hl : (data.take 12).length = 3 * 4 := by
      have := h5.1.1.2
      rw [List.length_take]
      omega
    obtain ⟨hb, hk⟩ := block_len3 4 _ hl h5.2
    exact ⟨hne hk, _, (List.take_append_drop _ _).symm, hb⟩

end NeForce.Codepoint
