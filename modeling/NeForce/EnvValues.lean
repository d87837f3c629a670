import Mathlib.Data.List.TakeWhile
import NeForce.Env

/-! # Lines of variables

Reading the line of a variable gives its name, its quotes and its export flag back, and the value up to one difference:
`escape` prints escapes that `unescapeByte` does not decode, and such an escape stays in the value as it stands
(`Variable.reread`, `parseVariableLine_toString`).  A value in double quotes is read back if and only if it has none of
these bytes (`flatMap_rereadByte_eq_iff`). -/

namespace NeForce.Env

variable {name value l l₁ l₂ : Bytes} {c d : UInt8} {v : Variable}

/-! ### Single quotes -/

theorem parseSingleQuotedValue_cons (hc : c ≠ 0x27) :
    parseSingleQuotedValue (c :: l) = c :: parseSingleQuotedValue l := by
  rw [parseSingleQuotedValue.eq_def]
  simp only [if_neg hc]

/-- The look-ahead tells every splice from the quote at the end. -/
theorem parseSingleQuotedValue_splice (value : Bytes) :
    parseSingleQuotedValue (value.flatMap spliceQuote ++ [0x27]) = value := by
  induction value with
  | nil => rfl
  | cons c value ih =>
      rw [List.flatMap_cons, List.append_assoc, spliceQuote]
      split_ifs with hc
      · simp only [List.cons_append, List.nil_append, parseSingleQuotedValue, and_self, if_true, ih, hc]
      · rw [List.cons_append, List.nil_append, parseSingleQuotedValue_cons hc, ih]

/-! ### Double quotes -/

theorem parseDoubleQuotedValue_cons (hc : c ≠ 0x5C) (hq : c ≠ 0x22) :
    parseDoubleQuotedValue (c :: l) = c :: parseDoubleQuotedValue l := by
  rw [parseDoubleQuotedValue.eq_def]
  simp only [if_neg hc, if_neg hq]

/-- The bytes that come back from double quotes; the others have an escape that the parser does not decode. -/
def isDecoded (c : UInt8) : Bool := c = 0x09 || c = 0x0A || c = 0x0D || (0x20 ≤ c && c ≠ 0x27)

def rereadByte (c : UInt8) : Bytes := if isDecoded c then [c] else escapeByte c

@[simp] theorem parseDoubleQuotedValue_backslash (next : UInt8) (l : Bytes) :
    parseDoubleQuotedValue (0x5C :: next :: l) = unescapeByte next ++ parseDoubleQuotedValue l := rfl

theorem hexDigit_plain : ∀ n < 16, hexDigit (UInt8.ofNat n) ≠ 0x5C ∧ hexDigit (UInt8.ofNat n) ≠ 0x22 ∧
    hexDigit (UInt8.ofNat n) ≠ 0x0A := by decide

theorem hexDigit_ne (hc : c < 0x20) (n : UInt8) (hn : n = c >>> 4 ∨ n = c &&& 0x0F) :
    hexDigit n ≠ 0x5C ∧ hexDigit n ≠ 0x22 ∧ hexDigit n ≠ 0x0A := by
  have hc : c.toNat < 32 := hc
  have hlt : n.toNat < 16 := by
    rcases hn with rfl | rfl
    · rw [UInt8.toNat_shiftRight]
      simp [Nat.shiftRight_eq_div_pow]
      omega
    · rw [UInt8.toNat_and]
      exact Nat.lt_of_le_of_lt Nat.and_le_right (by decide)
  have := hexDigit_plain n.toNat hlt
  rwa [UInt8.ofNat_toNat] at this

/-- The bytes with an escape of two characters. -/
def shortEscapes : List UInt8 := [0x22, 0x27, 0x5C, 0x08, 0x0C, 0x0A, 0x0D, 0x09, 0x0B]

theorem escapeByte_of_not_mem (hc : c ∉ shortEscapes) : escapeByte c =
    if c < 0x20 then [0x5C, 0x75, 0x30, 0x30, hexDigit (c >>> 4), hexDigit (c &&& 0x0F)] else [c] := by
  simp only [shortEscapes, List.mem_cons, List.not_mem_nil, or_false, not_or] at hc
  obtain ⟨h₁, h₂, h₃, h₄, h₅, h₆, h₇, h₈, h₉⟩ := hc
  rw [escapeByte, if_neg h₁, if_neg h₂, if_neg h₃, if_neg h₄, if_neg h₅, if_neg h₆, if_neg h₇, if_neg h₈, if_neg h₉]

theorem isDecoded_of_not_mem (hc : c ∉ shortEscapes) : isDecoded c = decide (0x20 ≤ c) := by
  simp only [shortEscapes, List.mem_cons, List.not_mem_nil, or_false, not_or] at hc
  obtain ⟨-, h₂, -, -, -, h₆, h₇, h₈, -⟩ := hc
  simp only [isDecoded, h₂, h₆, h₇, h₈, decide_false, Bool.false_or, decide_true, Bool.and_true, ne_eq, not_false_eq_true]

theorem parseDoubleQuotedValue_escapeByte (c : UInt8) (l : Bytes) :
    parseDoubleQuotedValue (escapeByte c ++ l) = rereadByte c ++ parseDoubleQuotedValue l := by
  by_cases hs : c ∈ shortEscapes
  · simp only [shortEscapes, List.mem_cons, List.not_mem_nil, or_false] at hs
    rcases hs with rfl | rfl | rfl | rfl | rfl | rfl | rfl | rfl | rfl <;> rfl
  have he := escapeByte_of_not_mem hs
  have hd := isDecoded_of_not_mem hs
  have hq : c ≠ 0x22 := fun h => hs (h ▸ by decide)
  have hb : c ≠ 0x5C := fun h => hs (h ▸ by decide)
  by_cases hlt : c < 0x20
  · rw [if_pos hlt] at he
    obtain ⟨ha, ha', -⟩ := hexDigit_ne hlt _ (.inl rfl)
    obtain ⟨hb, hb', -⟩ := hexDigit_ne hlt _ (.inr rfl)
    rw [rereadByte, if_neg (by rw [hd, decide_eq_true_iff]; exact UInt8.not_le.mpr hlt), he]
    simp only [List.cons_append, List.nil_append]
    rw [parseDoubleQuotedValue_backslash, parseDoubleQuotedValue_cons (by decide) (by decide),
      parseDoubleQuotedValue_cons (by decide) (by decide), parseDoubleQuotedValue_cons ha ha',
      parseDoubleQuotedValue_cons hb hb']
    rfl
  · rw [if_neg hlt] at he
    rw [rereadByte, if_pos (by rw [hd, decide_eq_true_iff]; exact UInt8.not_lt.mp hlt), he, List.cons_append,
      parseDoubleQuotedValue_cons hb hq]
    rfl

/-- What the parser makes of a printed variable. -/
def Variable.reread (v : Variable) : Variable :=
  match v.quoteType with
  | .double => { v with value := v.value.flatMap rereadByte }
  | _ => v

theorem parseDoubleQuotedValue_escape (value : Bytes) :
    parseDoubleQuotedValue (escape value ++ [0x22]) = value.flatMap rereadByte := by
  unfold escape
  induction value with
  | nil => rfl
  | cons c value ih =>
      rw [List.flatMap_cons, List.append_assoc, parseDoubleQuotedValue_escapeByte, ih, List.flatMap_cons]

theorem two_le_rereadByte (hd : isDecoded c = false) : 2 ≤ (rereadByte c).length := by
  by_cases hs : c ∈ shortEscapes
  · have h : ∀ c ∈ shortEscapes, isDecoded c = false → 2 ≤ (rereadByte c).length := by decide +kernel
    exact h c hs hd
  · have hlt : c < 0x20 := by
      rw [isDecoded_of_not_mem hs, decide_eq_false_iff_not] at hd
      exact UInt8.not_le.mp hd
    rw [rereadByte, if_neg (by simp [hd]), escapeByte_of_not_mem hs, if_pos hlt]
    exact Nat.le_add_left 2 _

theorem one_le_rereadByte (c : UInt8) : 1 ≤ (rereadByte c).length := by
  cases hd : isDecoded c with
  | true => simp [rereadByte, hd]
  | false => exact (two_le_rereadByte hd).trans' (by decide)

theorem length_le_flatMap_rereadByte (value : Bytes) : value.length ≤ (value.flatMap rereadByte).length := by
  induction value with
  | nil => exact Nat.le_refl _
  | cons c value ih =>
      have := one_le_rereadByte c
      rw [List.flatMap_cons, List.length_append, List.length_cons]
      omega

/-- A value in double quotes is read back if and only if all its bytes are. -/
theorem flatMap_rereadByte_eq_iff (value : Bytes) :
    value.flatMap rereadByte = value ↔ ∀ c ∈ value, isDecoded c = true := by
  induction value with
  | nil => simp
  | cons c value ih =>
      rw [List.flatMap_cons, List.forall_mem_cons, ← ih]
      cases hd : isDecoded c with
      | true => simp [rereadByte, hd]
      | false =>
          have hc := two_le_rereadByte hd
          have hl := length_le_flatMap_rereadByte value
          refine iff_of_false (fun he => ?_) (by simp)
          have := congrArg List.length he
          rw [List.length_append, List.length_cons] at this
          omega

/-! ### Trimming -/

theorem trimLeft_cons (hc : isSpace c = false) : trimLeft (c :: l) = c :: l := by
  rw [trimLeft, List.dropWhile_cons_of_neg (by simp [hc])]

theorem trimRight_concat (hc : isSpace c = false) : trimRight (l ++ [c]) = l ++ [c] := by
  rw [trimRight, List.reverse_concat, List.dropWhile_cons_of_neg (by simp [hc]), ← List.reverse_concat,
    List.reverse_reverse]

/-- A line that begins and ends with other bytes than spaces. -/
def Trimmed (l : Bytes) : Prop := ∃ c ∈ l.head?, isSpace c = false ∧ ∃ d ∈ l.getLast?, isSpace d = false

theorem trim_eq_self (hl : Trimmed l) : trim l = l := by
  obtain ⟨c, hc, hs, d, hd, hs'⟩ := hl
  obtain ⟨t, rfl⟩ := List.head?_eq_some_iff.mp hc
  rw [trim, trimLeft_cons hs]
  obtain ⟨t', ht'⟩ := List.getLast?_eq_some_iff.mp hd
  rw [ht', trimRight_concat hs']

theorem Trimmed.of_forall (hl : l ≠ []) (h : ∀ c ∈ l, isSpace c = false) : Trimmed l :=
  ⟨_, List.head?_eq_some_head hl, h _ (List.head_mem hl), _, List.getLast?_eq_some_getLast hl, h _ (List.getLast_mem hl)⟩

/-- A prefix without `c` ends before the first `c`. -/
theorem isPrefix_of_not_mem (h : l₁ <+: name ++ c :: l) (hc : c ∉ l₁) : l₁ <+: name := by
  induction name generalizing l₁ with
  | nil =>
      cases l₁ with
      | nil => exact List.prefix_rfl
      | cons d l₁ => simp_all
  | cons d name ih =>
      cases l₁ with
      | nil => exact List.nil_prefix
      | cons e l₁ =>
          rw [List.cons_append, List.cons_prefix_cons] at h
          exact List.cons_prefix_cons.mpr ⟨h.1, ih h.2 (fun hm => hc (List.mem_cons_of_mem _ hm))⟩

/-! ### Names and values -/

def isNameStart (c : UInt8) : Bool := (0x41 ≤ c && c ≤ 0x5A) || (0x61 ≤ c && c ≤ 0x7A) || c = 0x5F

def isNameChar (c : UInt8) : Bool := isNameStart c || (0x30 ≤ c && c ≤ 0x39)

/-- Names of the form `[A-Za-z_][A-Za-z0-9_]*`. -/
def IsIdentifier (name : Bytes) : Prop := ∃ c rest, name = c :: rest ∧ isNameStart c ∧ ∀ d ∈ rest, isNameChar d

/-- The values that a style of quotes can hold. -/
structure Variable.Valid (v : Variable) : Prop where
  none : v.quoteType = .none → (∀ c ∈ v.value, isSpace c = false ∧ c ≠ 0x23) ∧
    v.value.head? ≠ some 0x27 ∧ v.value.head? ≠ some 0x22
  single : v.quoteType = .single → 0x0A ∉ v.value

theorem isNameChar_ne (hc : isNameChar c) : isSpace c = false ∧ c ≠ 0x3D ∧ c ≠ 0x23 := by
  simp only [isNameChar, isNameStart, isSpace, Bool.or_eq_true, Bool.and_eq_true, decide_eq_true_eq, UInt8.le_iff_toNat_le,
    Bool.or_eq_false_iff, Bool.and_eq_false_iff, decide_eq_false_iff_not, ne_eq, ← UInt8.toNat_inj] at hc ⊢
  simp at hc ⊢
  omega

theorem IsIdentifier.forall (hn : IsIdentifier name) : ∀ c ∈ name, isNameChar c = true := by
  obtain ⟨c, rest, rfl, hc, hrest⟩ := hn
  exact List.forall_mem_cons.mpr ⟨by simp [isNameChar, hc], hrest⟩

theorem IsIdentifier.ne_nil (hn : IsIdentifier name) : name ≠ [] := by
  obtain ⟨c, rest, rfl, -⟩ := hn
  exact List.cons_ne_nil _ _

theorem IsIdentifier.trimmed (hn : IsIdentifier name) : Trimmed name :=
  .of_forall hn.ne_nil fun c hc => (isNameChar_ne (hn.forall c hc)).1

theorem IsIdentifier.not_mem_equals (hn : IsIdentifier name) : 0x3D ∉ name :=
  fun h => (isNameChar_ne (hn.forall _ h)).2.1 rfl

theorem Variable.Valid.trimmed_valueText (hv : v.Valid) (hne : valueText v ≠ []) : Trimmed (valueText v) := by
  unfold valueText at hne ⊢
  cases hq : v.quoteType with
  | none =>
      rw [hq] at hne
      exact .of_forall hne fun c hc => ((hv.none hq).1 c hc).1
  | single => exact ⟨0x27, by simp, by decide, 0x27, by simp [List.getLast?_cons], by decide⟩
  | double => exact ⟨0x22, by simp, by decide, 0x22, by simp [List.getLast?_cons], by decide⟩

theorem Trimmed.append (h₁ : Trimmed l₁) (h₂ : Trimmed l₂) (l : Bytes) : Trimmed (l₁ ++ (l ++ l₂)) := by
  obtain ⟨c, hc, hs, -⟩ := h₁
  obtain ⟨-, -, -, d, hd, hs'⟩ := h₂
  refine ⟨c, ?_, hs, d, ?_, hs'⟩
  · rw [List.head?_append, hc, Option.some_or]
    rfl
  · rw [List.getLast?_append, List.getLast?_append, hd, Option.some_or, Option.some_or]
    rfl

theorem trimmed_body (hn : IsIdentifier name) (hv : v.Valid) : Trimmed (name ++ (0x3D :: valueText v)) := by
  rcases eq_or_ne (valueText v) [] with he | hne
  · rw [he]
    have h : Trimmed [0x3D] := ⟨0x3D, rfl, by decide, 0x3D, rfl, by decide⟩
    exact hn.trimmed.append h []
  · exact hn.trimmed.append (hv.trimmed_valueText hne) [0x3D]

/-- The first `=` ends the name. -/
theorem takeWhile_equals (hl : 0x3D ∉ l₁) : (l₁ ++ (0x3D :: l₂)).takeWhile (· ≠ 0x3D) = l₁ := by
  rw [List.takeWhile_append_of_pos, List.takeWhile_cons_of_neg (by simp), List.append_nil]
  intro c hc
  simpa using fun he : c = 0x3D => hl (he ▸ hc)

theorem dropWhile_equals (hl : 0x3D ∉ l₁) : (l₁ ++ (0x3D :: l₂)).dropWhile (· ≠ 0x3D) = 0x3D :: l₂ := by
  rw [List.dropWhile_append_of_pos, List.dropWhile_cons_of_neg (by simp)]
  intro c hc
  simpa using fun he : c = 0x3D => hl (he ▸ hc)

theorem dropWhile_blank (hl : l ≠ [] → Trimmed l) : l.dropWhile (fun c => c = 0x20 || c = 0x09) = l := by
  cases l with
  | nil => rfl
  | cons c l =>
      obtain ⟨d, hd, hs, -⟩ := hl (List.cons_ne_nil _ _)
      obtain rfl := Option.some.inj hd
      refine List.dropWhile_cons_of_neg ?_
      rintro h
      simp at h
      rcases h with rfl | rfl <;> simp [isSpace] at hs

theorem parseValue_valueText (hv : v.Valid) : parseValue (valueText v) v.isExported = v.reread := by
  obtain ⟨value, quoteType, isExported⟩ := v
  cases quoteType with
  | none =>
      obtain ⟨hall, hq, hdq⟩ := hv.none rfl
      cases value with
      | nil => rfl
      | cons c value =>
          have hc : c ≠ 0x27 := fun he => hq (by simp [he])
          have hc' : c ≠ 0x22 := fun he => hdq (by simp [he])
          have htake : parseUnquotedValue (c :: value) = c :: value := by
            unfold parseUnquotedValue
            rw [List.takeWhile_eq_self_iff]
            intro d hd
            obtain ⟨hs, hd'⟩ := hall d hd
            have h₁ : d ≠ 0x20 := by rintro rfl; simp [isSpace] at hs
            have h₂ : d ≠ 0x09 := by rintro rfl; simp [isSpace] at hs
            simp [h₁, h₂, hd']
          simp only [valueText, parseValue, if_neg hc, if_neg hc', htake, Variable.reread]
  | single =>
      simp only [valueText, escapeEnvValue, parseValue, if_true, parseSingleQuotedValue_splice, Variable.reread]
  | double =>
      simp only [valueText, escapeEnvValue, parseValue, if_neg (show (0x22 : UInt8) ≠ 0x27 by decide), if_true,
        parseDoubleQuotedValue_escape, Variable.reread]

theorem envValueToString_eq (hn : IsIdentifier name) :
    envValueToString v name =
      (if v.isExported then ascii "export " else []) ++ (name ++ (0x3D :: valueText v)) := by
  rw [envValueToString, if_pos hn.ne_nil, List.append_assoc]
  rfl

theorem no_prefix_export (hn : IsIdentifier name) (l : Bytes) : ¬ascii "export " <+: name ++ (0x3D :: l) := by
  intro h
  have hp := isPrefix_of_not_mem h (by decide)
  have := (isNameChar_ne (hn.forall 0x20 (hp.subset (by decide)))).1
  simp [isSpace] at this

theorem trimmed_envValueToString (hn : IsIdentifier name) (hv : v.Valid) : Trimmed (envValueToString v name) := by
  rw [envValueToString_eq hn]
  cases v.isExported with
  | false => exact trimmed_body hn hv
  | true =>
      obtain ⟨c, hc, hs, d, hd, hs'⟩ := trimmed_body hn hv
      refine ⟨0x65, rfl, by decide, d, ?_, hs'⟩
      rw [if_pos rfl, List.getLast?_append, hd]
      rfl

/-- Names and flags are read back, and so is the value as far as its escapes are decoded. -/
theorem parseVariableLine_toString (hn : IsIdentifier name) (hv : v.Valid) :
    parseVariableLine (envValueToString v name) = some (name, v.reread) := by
  have hline := trim_eq_self (trimmed_envValueToString hn hv)
  have hbody := trim_eq_self (trimmed_body hn hv)
  have hexp : (ascii "export ").isPrefixOf (envValueToString v name) = v.isExported := by
    rw [Bool.eq_iff_iff, List.isPrefixOf_iff_prefix, envValueToString_eq hn]
    cases v.isExported with
    | false => exact iff_of_false (no_prefix_export hn _) Bool.false_ne_true
    | true => exact iff_of_true (List.prefix_append _ _) rfl
  have htrimmed : (if v.isExported then trim ((envValueToString v name).drop 7) else envValueToString v name) =
      name ++ (0x3D :: valueText v) := by
    rw [envValueToString_eq hn]
    cases v.isExported with
    | false => rfl
    | true => exact hbody
  have hmem : (0x3D : UInt8) ∈ name ++ (0x3D :: valueText v) := by simp
  unfold parseVariableLine
  simp only [hline, hexp, htrimmed]
  rw [if_neg (not_not_intro hmem), takeWhile_equals hn.not_mem_equals, dropWhile_equals hn.not_mem_equals,
    trim_eq_self hn.trimmed, if_neg hn.ne_nil, List.drop_succ_cons, List.drop_zero,
    dropWhile_blank hv.trimmed_valueText, parseValue_valueText hv]

theorem Variable.reread_eq_iff (v : Variable) :
    v.reread = v ↔ (v.quoteType = .double → ∀ c ∈ v.value, isDecoded c = true) := by
  obtain ⟨value, quoteType, isExported⟩ := v
  cases quoteType with
  | none => simp [reread]
  | single => simp [reread]
  | double => simp [reread, flatMap_rereadByte_eq_iff]

/-! ### Newlines -/

theorem newline_not_mem_escapeByte (c : UInt8) : 0x0A ∉ escapeByte c := by
  by_cases hs : c ∈ shortEscapes
  · have h : ∀ c ∈ shortEscapes, 0x0A ∉ escapeByte c := by decide +kernel
    exact h c hs
  rw [escapeByte_of_not_mem hs]
  split_ifs with hlt
  · have ha := (hexDigit_ne hlt _ (.inl rfl)).2.2
    have hb := (hexDigit_ne hlt _ (.inr rfl)).2.2
    simp [ha.symm, hb.symm]
  · have hc : c ≠ 0x0A := fun h => hs (h ▸ by decide)
    simpa using hc.symm

theorem Variable.Valid.newline_not_mem (hv : v.Valid) : 0x0A ∉ valueText v := by
  obtain ⟨value, quoteType, isExported⟩ := v
  cases quoteType with
  | none => exact fun h => by simpa [isSpace] using ((hv.none rfl).1 _ h).1
  | single =>
      have hs := hv.single rfl
      simp only [valueText, escapeEnvValue, List.mem_cons, List.mem_append, List.mem_flatMap, spliceQuote]
      rintro (h | ⟨c, hc, h⟩ | h)
      · exact absurd h (by decide)
      · split_ifs at h with hq
        · exact absurd h (by decide)
        · exact hs (List.mem_singleton.mp h ▸ hc)
      · exact absurd h (by decide)
  | double =>
      simp only [valueText, escapeEnvValue, escape, List.mem_cons, List.mem_append, List.mem_flatMap]
      rintro (h | ⟨c, hc, h⟩ | h)
      · exact absurd h (by decide)
      · exact newline_not_mem_escapeByte c h
      · exact absurd h (by decide)

theorem newline_not_mem_toString (hn : IsIdentifier name) (hv : v.Valid) : 0x0A ∉ envValueToString v name := by
  rw [envValueToString_eq hn]
  simp only [List.mem_append, List.mem_cons]
  rintro (h | h | h | h)
  · split_ifs at h
    · exact absurd h (by decide)
    · exact List.not_mem_nil h
  · exact absurd (isNameChar_ne (hn.forall _ h)).1 (by decide)
  · exact absurd h (by decide)
  · exact hv.newline_not_mem h

end NeForce.Env
