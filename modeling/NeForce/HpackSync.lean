import NeForce.HpackTable

/-! # The encoder and the decoder

What the encoder writes is read back: integers, strings, and the field that an instruction stands
for, as long as the entries of the encoder's table are the newest entries of the decoder's table (`Synced`).
The relation survives insertions, and changes of the encoder's table size that stay within the
size of the decoder's table, so whole runs return the header lists that were encoded (`run_decodes`).

The encoder never tells the decoder about its table size: beyond the decoder's size it keeps
entries that the decoder has evicted (`enlarged_not_decoded`). -/

namespace NeForce.Hpack

open Http2 (tryReadBytes tryReadBytes_eq_some_iff)

/-! ### Integers and strings -/

section

variable {first b : UInt8} {k m n v value prefixBits : ℕ} {rest s : Bytes}

/-- The last octet of an integer. -/
theorem lastOctet : ∀ r < 128, (UInt8.ofNat r).toNat &&& 0x7F = r ∧ (UInt8.ofNat r).toNat &&& 0x80 = 0 := by
  decide

/-- The octets of an integer before the last one. -/
theorem nextOctet : ∀ r < 128,
    (UInt8.ofNat (r + 128)).toNat &&& 0x7F = r ∧ (UInt8.ofNat (r + 128)).toNat &&& 0x80 ≠ 0 := by
  decide

theorem decodeIntegerLoop_last (hv : v < 128) (h : value + v * 2 ^ m < 2 ^ 32) :
    decodeIntegerLoop (n + 1) value m (UInt8.ofNat v :: rest) = (value + v * 2 ^ m, rest) := by
  obtain ⟨h1, h2⟩ := lastOctet v hv
  rw [decodeIntegerLoop]
  simp only [h1, h2, Nat.shiftLeft_eq, if_true]
  rw [Nat.mod_eq_of_lt (by omega : v * 2 ^ m < 2 ^ 64), Nat.mod_eq_of_lt (by omega), if_neg (by omega)]

theorem decodeIntegerLoop_encode (hv : v < 128 ^ (k + 1)) (hn : k < n) (h : value + v * 2 ^ m < 2 ^ 32) :
    decodeIntegerLoop n value m (encodeIntegerLoop k v ++ rest) = (value + v * 2 ^ m, rest) := by
  induction k generalizing n value m v with
  | zero =>
      obtain ⟨n, rfl⟩ : ∃ n', n = n' + 1 := ⟨n - 1, by omega⟩
      exact decodeIntegerLoop_last (by simpa using hv) h
  | succ k ih =>
      obtain ⟨n, rfl⟩ : ∃ n', n = n' + 1 := ⟨n - 1, by omega⟩
      rw [encodeIntegerLoop]
      split
      · have hsplit : value + v * 2 ^ m = value + v % 128 * 2 ^ m + v / 128 * 2 ^ (m + 7) := by
          conv_lhs => rw [← Nat.div_add_mod v 128]
          ring
        obtain ⟨h1, h2⟩ := nextOctet (v % 128) (Nat.mod_lt _ (by decide))
        rw [List.cons_append, decodeIntegerLoop]
        simp only [h1, Nat.shiftLeft_eq]
        rw [Nat.mod_eq_of_lt (by omega : v % 128 * 2 ^ m < 2 ^ 64), Nat.mod_eq_of_lt (by omega), if_neg (by omega),
          if_neg h2, hsplit]
        exact ih (Nat.div_lt_of_lt_mul (by rwa [pow_succ'] at hv)) (by omega) (by omega)
      · exact decodeIntegerLoop_last (by omega) h

/-- `first` leaves the bits of the prefix free. -/
def FreePrefix (first : UInt8) (prefixBits : ℕ) : Prop :=
  ∀ k ≤ maxPrefix prefixBits, (first ||| UInt8.ofNat k).toNat &&& maxPrefix prefixBits = k

instance : Decidable (FreePrefix first prefixBits) := by
  unfold FreePrefix
  infer_instance

theorem freePrefix_indexed : FreePrefix 0x80 7 := by decide

theorem freePrefix_literal : FreePrefix 0x40 6 := by decide

theorem decode_encodeInteger (hf : FreePrefix first prefixBits) (hv : value < 2 ^ 32) (rest : Bytes) :
    decodeInteger prefixBits (encodeInteger first value prefixBits ++ rest) = (value, rest) := by
  rw [encodeInteger]
  split
  · rename_i hlt
    rw [List.singleton_append, decodeInteger, hf _ hlt.le]
    exact if_pos hlt
  · rename_i hge
    rw [List.cons_append, decodeInteger, hf _ le_rfl]
    simp only [lt_irrefl, if_false]
    rw [decodeIntegerLoop_encode (by omega) (by decide) (by omega), pow_zero, mul_one, Nat.add_sub_cancel' (by omega)]

/-- The first byte of an integer. -/
theorem encodeInteger_cons (first : UInt8) (value prefixBits : ℕ) :
    ∃ k ≤ maxPrefix prefixBits, ∃ tl, encodeInteger first value prefixBits = (first ||| UInt8.ofNat k) :: tl := by
  rw [encodeInteger]
  split
  · rename_i hlt
    exact ⟨value, hlt.le, [], rfl⟩
  · exact ⟨_, le_rfl, _, rfl⟩

/-- The bits by which the decoder tells the instructions and strings of the encoder apart. -/
theorem indexedBits : ∀ k ≤ maxPrefix 7, (0x80 ||| UInt8.ofNat k).toNat &&& 0x80 ≠ 0 := by decide

theorem literalBits : ∀ k ≤ maxPrefix 6,
    (0x40 ||| UInt8.ofNat k).toNat &&& 0x80 = 0 ∧ (0x40 ||| UInt8.ofNat k).toNat &&& 0x40 ≠ 0 := by
  decide

theorem decode_encodeString (hs : huffmanLength s < 2 ^ 32) : decodeString (encodeString s ++ rest) = (s, rest) := by
  have hdec := decode_encodeInteger freePrefix_indexed hs (huffmanPayload s ++ rest)
  obtain ⟨k, hk, tl, he⟩ := encodeInteger_cons 0x80 (huffmanLength s) 7
  rw [he] at hdec
  rw [encodeString, Nat.mod_eq_of_lt hs, he, List.append_assoc, List.cons_append, decodeString]
  rw [List.cons_append] at hdec
  have hread : tryReadBytes (huffmanLength s) (huffmanPayload s ++ rest) = some (huffmanPayload s, rest) :=
    tryReadBytes_eq_some_iff.mpr ⟨length_huffmanPayload s, rfl⟩
  simp only [hdec, hread, if_pos (indexedBits k hk), decode_encode_huffman]

end

/-! ### Searching the tables -/

namespace DynamicTable

variable {t t' d : DynamicTable} {e h : HeaderField} {p : HeaderField → Bool} {i : ℕ}

theorem length_staticTable : staticTable.length = staticTableSize := by decide

theorem length_le_total (l : List HeaderField) : 32 * l.length ≤ total l := by
  induction l with
  | nil => exact le_rfl
  | cons h l ih =>
      rw [total_cons, List.length_cons, HeaderField.size]
      omega

theorem Bounded.length_lt (hb : t.Bounded) : t.entries.length < 2 ^ 27 := by
  have h1 := length_le_total t.entries
  have h2 := hb.size
  have h3 := hb.le
  have h4 := hb.limit
  omega

theorem toInt32_of_lt (hi : i < 2 ^ 31) : toInt32 i = i := by
  unfold toInt32
  exact Int.bmod_eq_of_le (by omega) (by omega)

/-- An index of an entry, or `-1`. -/
def Finds (t : DynamicTable) (r : ℤ) (P : HeaderField → Prop) : Prop :=
  r = -1 ∨ ∃ i : ℕ, r = i ∧ 1 ≤ i ∧ i < 2 ^ 32 ∧ ∃ e, t.lookup i = some e ∧ P e

theorem Finds.mono {r : ℤ} {P Q : HeaderField → Prop} (hf : t.Finds r P) (h : ∀ e, P e → Q e) : t.Finds r Q := by
  rcases hf with hf | ⟨i, hr, h1, h2, e, he, hP⟩
  · exact Or.inl hf
  · exact Or.inr ⟨i, hr, h1, h2, e, he, h e hP⟩

theorem findIndex_spec (hb : t.Bounded) : t.Finds (t.findIndex p) (p · = true) := by
  unfold findIndex
  split
  · rename_i i hi
    obtain ⟨hlt, hp, _⟩ := List.findIdx?_eq_some_iff_getElem.mp hi
    have hlen := length_staticTable
    refine Or.inr ⟨i + 1, rfl, by omega, by rw [staticTableSize] at hlen; omega, staticTable[i], ?_, hp⟩
    rw [lookup, if_pos (by omega), Nat.add_sub_cancel, List.getElem?_eq_getElem hlt]
  · split
    · rename_i i hi
      obtain ⟨hlt, hp, _⟩ := List.findIdx?_eq_some_iff_getElem.mp hi
      have hlen := hb.length_lt
      rw [toInt32_of_lt (by rw [staticTableSize]; omega)]
      refine Or.inr ⟨staticTableSize + i + 1, rfl, by omega, by rw [staticTableSize]; omega, t.entries[i], ?_, hp⟩
      rw [lookup, if_neg (by omega), show staticTableSize + i + 1 - staticTableSize - 1 = i by omega,
        List.getElem?_eq_getElem hlt]
    · exact Or.inl rfl

theorem knownFields_static : ∀ e ∈ knownFields,
    1 ≤ e.2 ∧ e.2 ≤ staticTableSize ∧ staticTable[e.2 - 1]? = some ⟨ascii e.1.1, ascii e.1.2⟩ := by
  decide

theorem knownNames_static : ∀ e ∈ knownNames,
    1 ≤ e.2 ∧ e.2 ≤ staticTableSize ∧ (staticTable[e.2 - 1]?).map (·.name) = some (ascii e.1) := by
  decide

theorem findInTables_spec (hb : t.Bounded) (h : HeaderField) : t.Finds (t.findInTables h) (· = h) := by
  unfold findInTables
  split
  · rename_i e he
    obtain ⟨h1, h2, h3⟩ := knownFields_static e (List.mem_of_find?_eq_some he)
    have hm := List.find?_some he
    rw [decide_eq_true_eq] at hm
    rw [hm.1, hm.2] at h3
    exact Or.inr ⟨e.2, rfl, h1, by rw [staticTableSize] at h2; omega, h, by rw [lookup, if_pos h2, h3], rfl⟩
  · refine (findIndex_spec hb).mono fun e he => ?_
    rw [decide_eq_true_eq] at he
    cases e
    cases h
    exact congrArg₂ HeaderField.mk he.1 he.2

theorem findNameInTables_spec (hb : t.Bounded) (name : Bytes) :
    t.Finds (t.findNameInTables name) (·.name = name) := by
  unfold findNameInTables
  split
  · rename_i e he
    obtain ⟨h1, h2, h3⟩ := knownNames_static e (List.mem_of_find?_eq_some he)
    have hm := List.find?_some he
    rw [decide_eq_true_eq] at hm
    rw [hm] at h3
    obtain ⟨e', he', hn⟩ := Option.map_eq_some_iff.mp h3
    exact Or.inr ⟨e.2, rfl, h1, by rw [staticTableSize] at h2; omega, e', by rw [lookup, if_pos h2, he'], hn⟩
  · exact (findIndex_spec hb).mono fun e he => by simpa using he

/-! ### The two tables -/

/-- The encoder's table holds the newest entries of the decoder's table, and may be smaller. -/
structure Synced (t d : DynamicTable) : Prop where
  entries : t.entries <+: d.entries
  max : t.maxTableSize ≤ d.maxTableSize
  bounded : t.Bounded
  counted : d.Counted

theorem Synced.make {limit : ℕ} (h : limit < 2 ^ 32) : (make limit).Synced (make limit) :=
  ⟨List.prefix_rfl, le_rfl, .make h, rfl⟩

theorem Synced.lookup (hs : t.Synced d) (h : t.lookup i = some e) : d.lookup i = some e := by
  unfold DynamicTable.lookup at h ⊢
  split
  · rename_i hi
    rwa [if_pos hi] at h
  · rename_i hi
    rw [if_neg hi] at h
    obtain ⟨l, hl⟩ := hs.entries
    have hlt := (List.getElem?_eq_some_iff.mp h).1
    rw [← hl, List.getElem?_append_left hlt, h]

theorem Synced.setMaxTableSize {size : ℕ} (hs : t.Synced d) (h : size ≤ d.maxTableSize) (h32 : size < 2 ^ 32) :
    (t.setMaxTableSize size).Synced d := by
  have ev := setMaxTableSize_spec hs.bounded.counted size
  obtain ⟨hb, hm⟩ := hs.bounded.setMaxTableSize h32
  exact ⟨ev.isPrefix.trans hs.entries, by rw [hm]; exact h, hb, hs.counted⟩

/-- Both tables make room for the entry: what the encoder keeps fits the decoder's table as well. -/
theorem Synced.add (hs : t.Synced d) (hov : t.currentTableSize + h.size < 2 ^ 32) :
    (t.addToDynamicTable h).Synced (d.addToDynamicTable h) := by
  obtain ⟨t', ev, _, hmax, he⟩ := addToDynamicTable_spec hs.bounded.counted h
  obtain ⟨d', ev', hc', hmax', he'⟩ := addToDynamicTable_spec hs.counted h
  have hle := total_le_of_prefix ev.isPrefix
  have hsize := hs.bounded.size
  have hm := hs.max
  refine ⟨?_, by rw [hmax, hmax']; exact hm, (hs.bounded.add fun _ => hov).1, hc'⟩
  have hmod : (total t'.entries + h.size) % 2 ^ 32 = total t'.entries + h.size := Nat.mod_eq_of_lt (by omega)
  have hroom := ev.room
  rw [hmod] at hroom
  rw [he, he']
  by_cases hgt : t.maxTableSize < h.size
  · rw [if_pos hgt, hroom.resolve_right (by omega)]
    exact List.nil_prefix
  · rw [if_neg hgt, if_neg (by omega)]
    refine List.cons_prefix_cons.mpr ⟨rfl, ?_⟩
    rcases hroom with hnil | hfit
    · rw [hnil]
      exact List.nil_prefix
    · exact ev'.longest _ (ev.isPrefix.trans hs.entries) (by rw [hmod]; omega)

/-! ### Blocks -/

/-- The strings of a header list have lengths below `2 ^ 32` in the Huffman code, and no entry
overflows the size of the table. -/
def Encodable (t : DynamicTable) : List HeaderField → Prop
  | [] => True
  | h :: hs => huffmanLength h.name < 2 ^ 32 ∧ huffmanLength h.value < 2 ^ 32 ∧
      t.currentTableSize + h.size < 2 ^ 32 ∧ Encodable (t.encodeField h).2 hs

theorem readInstruction_indexed (hi : i < 2 ^ 32) (h1 : 1 ≤ i) (rest : Bytes) (h : d.lookup i = some e) :
    d.readInstruction (encodeInteger 0x80 i 7 ++ rest) = (.field e, rest) := by
  have hdec := decode_encodeInteger freePrefix_indexed hi rest
  obtain ⟨k, hk, tl, he⟩ := encodeInteger_cons 0x80 i 7
  rw [he, List.cons_append] at hdec ⊢
  rw [readInstruction]
  simp only [if_pos (indexedBits k hk), hdec, if_neg (by omega : i ≠ 0), h]

theorem readInstruction_literal {value tl rest : Bytes} (name : Bytes) (hi : i < 2 ^ 32)
    (hn : d.decodeName i tl = (name, encodeString value ++ rest)) (hv : huffmanLength value < 2 ^ 32) :
    d.readInstruction (encodeInteger 0x40 i 6 ++ tl) = (.add ⟨name, value⟩, rest) := by
  have hdec := decode_encodeInteger freePrefix_literal hi tl
  obtain ⟨k, hk, l, he⟩ := encodeInteger_cons 0x40 i 6
  obtain ⟨hb1, hb2⟩ := literalBits k hk
  rw [he, List.cons_append] at hdec ⊢
  rw [readInstruction]
  simp only [hb1, ne_eq, not_true_eq_false, if_false, if_pos hb2, hdec, hn, decode_encodeString hv]

/-- **One field is read back**, and the tables stay in step. -/
theorem Synced.encodeField (hs : t.Synced d) (hn : huffmanLength h.name < 2 ^ 32)
    (hv : huffmanLength h.value < 2 ^ 32) (hov : t.currentTableSize + h.size < 2 ^ 32) (rest : Bytes) :
    ∃ i, d.readInstruction ((t.encodeField h).1 ++ rest) = (i, rest) ∧ i.emits = [h] ∧
      (t.encodeField h).2.Synced (d.apply i) := by
  have indexed : ∀ j : ℕ, 1 ≤ j → j < 2 ^ 32 → t.lookup j = some h →
      d.readInstruction (encodeInteger 0x80 (j : ℤ).toNat 7 ++ rest) = (.field h, rest) := fun j h1 h2 hl =>
    readInstruction_indexed (by simpa using h2) (by simpa using h1) rest (hs.lookup (by simpa using hl))
  rw [DynamicTable.encodeField]
  rcases findInTables_spec hs.bounded h with hf | ⟨j, hf, h1, h2, e, hl, rfl⟩
  · refine ⟨.add h, ?_, rfl, ?_⟩
    · simp only [hf]
      rw [if_neg (by omega), if_neg (by omega)]
      simp only
      rcases findNameInTables_spec hs.bounded h.name with hnf | ⟨j, hnf, h1, h2, e, hl, hname⟩
      · rw [hnf, if_neg (by omega), List.append_assoc, List.append_assoc]
        refine readInstruction_literal h.name (by decide) ?_ hv
        rw [decodeName, if_pos rfl, decode_encodeString hn]
      · rw [hnf, if_pos (by omega), Int.toNat_natCast, List.append_assoc]
        refine readInstruction_literal h.name h2 ?_ hv
        rw [decodeName, if_neg (by omega), hs.lookup hl, Option.map_some, Option.getD_some, hname]
    · simp only [hf]
      rw [if_neg (by omega), if_neg (by omega)]
      exact hs.add hov
  · refine ⟨.field e, ?_, rfl, ?_⟩
    · simp only [hf]
      split
      · exact indexed j h1 h2 hl
      · rw [if_pos (by rw [staticTableSize] at *; omega)]
        exact indexed j h1 h2 hl
    · simp only [hf]
      split
      · exact hs
      · rw [if_pos (by rw [staticTableSize] at *; omega)]
        exact hs

theorem encodeField_ne_nil (t : DynamicTable) (h : HeaderField) : (t.encodeField h).1 ≠ [] := by
  have hne : ∀ first value prefixBits, encodeInteger first value prefixBits ≠ [] := by
    intro first value prefixBits hnil
    obtain ⟨k, _, tl, he⟩ := encodeInteger_cons first value prefixBits
    simp [he] at hnil
  rw [DynamicTable.encodeField]
  simp only
  split
  · exact hne _ _ _
  · split
    · exact hne _ _ _
    · split <;> simp [hne]

/-- **A block is read back.** -/
theorem Synced.decodeLoop {n : ℕ} {hs : List HeaderField} (hsy : t.Synced d) (he : t.Encodable hs)
    (hn : (t.encode hs).1.length ≤ n) :
    (d.decodeLoop n (t.encode hs).1).1 = hs ∧ (t.encode hs).2.Synced (d.decodeLoop n (t.encode hs).1).2 := by
  induction hs generalizing t d n with
  | nil =>
      cases n with
      | zero => exact ⟨rfl, hsy⟩
      | succ n => exact ⟨rfl, hsy⟩
  | cons h hs ih =>
      obtain ⟨h1, h2, h3, he⟩ := he
      obtain ⟨i, hread, hemit, hsy'⟩ := hsy.encodeField h1 h2 h3 ((t.encodeField h).2.encode hs).1
      have hne := encodeField_ne_nil t h
      have hpos := List.length_pos_iff.mpr hne
      rw [encode, List.length_append] at hn
      obtain ⟨n, rfl⟩ : ∃ n', n = n' + 1 := ⟨n - 1, by omega⟩
      obtain ⟨hih, hsy''⟩ := ih hsy' he (n := n) (by omega)
      rw [encode, DynamicTable.decodeLoop, if_neg (by simp [hne])]
      simp only [hread, hemit, hih]
      exact ⟨rfl, hsy''⟩

/-! ### Two decoders -/

/-- The index that the next instruction looks up, or zero. -/
def usedIndex : Bytes → ℕ
  | [] => 0
  | first :: tl =>
      if first.toNat &&& 0x80 ≠ 0 then (decodeInteger 7 (first :: tl)).1
      else if first.toNat &&& 0x40 ≠ 0 then (decodeInteger 6 (first :: tl)).1
      else if first.toNat &&& 0x20 ≠ 0 then 0
      else (decodeInteger 4 (first :: tl)).1

/-- What an encoder that has the table `t` may write next: indices of the table, and entries that do not overflow its size. -/
def Permits (t : DynamicTable) (cur : Bytes) : Prop :=
  (usedIndex cur = 0 ∨ t.lookup (usedIndex cur) ≠ none) ∧
    match (t.readInstruction cur).1 with
    | .add h => t.currentTableSize + h.size < 2 ^ 32
    | _ => True

instance (t : DynamicTable) (cur : Bytes) : Decidable (t.Permits cur) := by
  unfold Permits
  split <;> infer_instance

/-- A block of which `t` permits every instruction, at most `n` of them. -/
def PermitsBlock : ℕ → DynamicTable → Bytes → Prop
  | 0, _, _ => True
  | n + 1, t, cur =>
      cur ≠ [] → t.Permits cur ∧ PermitsBlock n (t.apply (t.readInstruction cur).1) (t.readInstruction cur).2

instance decidablePermitsBlock : ∀ (n : ℕ) (t : DynamicTable) (cur : Bytes), Decidable (PermitsBlock n t cur)
  | 0, _, _ => .isTrue trivial
  | n + 1, t, cur =>
      have := decidablePermitsBlock n (t.apply (t.readInstruction cur).1) (t.readInstruction cur).2
      inferInstanceAs (Decidable (_ → _ ∧ _))

theorem decodeIntegerLoop_lt (n value m : ℕ) (cur : Bytes) : (decodeIntegerLoop n value m cur).1 < 2 ^ 32 := by
  induction n generalizing value m cur with
  | zero => exact Nat.mod_lt _ (by decide)
  | succ n ih =>
      cases cur with
      | nil => exact Nat.mod_lt _ (by decide)
      | cons b cur =>
          rw [decodeIntegerLoop]
          split
          · show 0xFFFFFFFF < 2 ^ 32
            decide
          · split
            · omega
            · exact ih _ _ _

theorem decodeInteger_lt (prefixBits : ℕ) (cur : Bytes) : (decodeInteger prefixBits cur).1 < 2 ^ 32 := by
  cases cur with
  | nil => exact Nat.two_pow_pos 32
  | cons b cur =>
      rw [decodeInteger]
      split
      · have hle : b.toNat &&& maxPrefix prefixBits ≤ b.toNat := Nat.and_le_left
        have := b.toNat_lt
        omega
      · exact decodeIntegerLoop_lt _ _ _ _

theorem readInstruction_setSize {cur : Bytes} {n : ℕ} (h : (t.readInstruction cur).1 = .setSize n) : n < 2 ^ 32 := by
  cases cur with
  | nil => cases h
  | cons first tl =>
      rw [readInstruction] at h
      simp only at h
      split at h
      · split at h
        · cases h
        · split at h <;> cases h
      · split at h
        · cases h
        · split at h
          · obtain rfl := Instruction.setSize.inj h
            exact decodeInteger_lt 5 _
          · cases h

/-- The larger table reads a permitted instruction in the same way. -/
theorem Synced.readInstruction {cur : Bytes} (hs : t.Synced d) (hp : t.Permits cur) :
    d.readInstruction cur = t.readInstruction cur := by
  cases cur with
  | nil => rfl
  | cons first tl =>
      have hname : ∀ i rest, i = 0 ∨ t.lookup i ≠ none → d.decodeName i rest = t.decodeName i rest := by
        intro i rest hi
        unfold decodeName
        split
        · rfl
        · rename_i h0
          obtain ⟨e, he⟩ := Option.ne_none_iff_exists'.mp (hi.resolve_left h0)
          rw [he, hs.lookup he]
      have hused := hp.1
      rw [usedIndex] at hused
      rw [DynamicTable.readInstruction, DynamicTable.readInstruction]
      simp only
      split
      · rename_i h80
        rw [if_pos h80] at hused
        split
        · rfl
        · rename_i h0
          obtain ⟨e, he⟩ := Option.ne_none_iff_exists'.mp (hused.resolve_left h0)
          rw [he, hs.lookup he]
      · rename_i h80
        rw [if_neg h80] at hused
        split
        · rename_i h40
          rw [if_pos h40] at hused
          rw [hname _ _ hused]
        · rename_i h40
          rw [if_neg h40] at hused
          split
          · rfl
          · rename_i h20
            rw [if_neg h20] at hused
            rw [hname _ _ hused]

/-- A larger limit keeps the entries of the smaller table. -/
theorem Synced.setDecoder {size : ℕ} (hs : t.Synced d) (h : t.maxTableSize ≤ size) : t.Synced (d.setMaxTableSize size) := by
  have ev := setMaxTableSize_spec hs.counted size
  have h1 := hs.bounded.size
  have h2 := hs.bounded.le
  have h3 := hs.bounded.limit
  refine ⟨ev.longest _ hs.entries ?_, by rw [ev.max]; exact h, hs.bounded, ev.counted⟩
  rw [Nat.add_zero, Nat.mod_eq_of_lt (by omega)]
  simp only
  omega

theorem Synced.apply {cur : Bytes} (hs : t.Synced d) (hp : t.Permits cur) :
    (t.apply (t.readInstruction cur).1).Synced (d.apply (t.readInstruction cur).1) := by
  have hadd := hp.2
  cases hi : (t.readInstruction cur).1 with
  | nop => exact hs
  | field h => exact hs
  | add h =>
      rw [hi] at hadd
      exact hs.add hadd
  | setSize n =>
      have hn := readInstruction_setSize hi
      obtain ⟨hb, hm⟩ := hs.bounded.setMaxTableSize hn
      have ev := setMaxTableSize_spec hs.bounded.counted n
      have hshrunk : (t.setMaxTableSize n).Synced { d with maxTableSize := d.maxTableSize ⊔ n } :=
        ⟨ev.isPrefix.trans hs.entries, by rw [hm]; exact le_sup_right, hb, hs.counted⟩
      exact hshrunk.setDecoder hm.le

/-- **A permitted block is decoded alike.** -/
theorem Synced.follow {n : ℕ} {cur : Bytes} (hs : t.Synced d) (hp : PermitsBlock n t cur) :
    (d.decodeLoop n cur).1 = (t.decodeLoop n cur).1 ∧ (t.decodeLoop n cur).2.Synced (d.decodeLoop n cur).2 := by
  induction n generalizing t d cur with
  | zero => exact ⟨rfl, hs⟩
  | succ n ih =>
      rw [DynamicTable.decodeLoop, DynamicTable.decodeLoop]
      split
      · exact ⟨rfl, hs⟩
      · rename_i hne
        obtain ⟨h1, h2⟩ := hp hne
        simp only
        rw [hs.readInstruction h1]
        obtain ⟨h3, h4⟩ := ih (hs.apply h1) h2
        exact ⟨by rw [h3], h4⟩

end DynamicTable

/-! ### Runs of an encoder and its decoder -/

/-- An encoder, and a decoder that gets its blocks. -/
structure Coders where
  encoder : DynamicTable
  decoder : DynamicTable
deriving DecidableEq

/-- A header list, with what is decoded from its block, or a new table size for the encoder. -/
inductive CodersLabel where
  | encode (headers decoded : List HeaderField)
  | setMaxTableSize (size : ℕ)
deriving DecidableEq

def Coders.start (limit : ℕ) : Coders := ⟨.make limit, .make limit⟩

def Coders.exec (s : Coders) : CodersLabel → Option Coders
  | .encode headers decoded =>
      let r := s.encoder.encode headers
      let r' := s.decoder.decode r.1
      if r'.1 = decoded then some ⟨r.2, r'.2⟩ else none
  | .setMaxTableSize size => if size < 2 ^ 32 then some { s with encoder := s.encoder.setMaxTableSize size } else none

def CodersStep (s : Coders) (l : CodersLabel) (s' : Coders) : Prop := s.exec l = some s'

/-- The encoder's table does not grow beyond the decoder's, and no length or size overflows. -/
def KeepsSync (s : Coders) : CodersLabel → Prop
  | .encode headers _ => s.encoder.Encodable headers
  | .setMaxTableSize size => size ≤ s.decoder.maxTableSize

/-- The header list was decoded as it was encoded. -/
def CodersLabel.Intact : CodersLabel → Prop
  | .encode headers decoded => decoded = headers
  | .setMaxTableSize _ => True

section

variable {s s' : Coders} {l : CodersLabel} {ls : List CodersLabel} {limit : ℕ}

theorem Coders.step_intact (hs : s.encoder.Synced s.decoder) (hst : Guarded KeepsSync CodersStep s l s') :
    s'.encoder.Synced s'.decoder ∧ l.Intact := by
  obtain ⟨hk, hst⟩ := hst
  cases l with
  | encode headers decoded =>
      simp only [CodersStep, exec, Option.ite_none_right_eq_some, Option.some.injEq] at hst
      obtain ⟨hdec, rfl⟩ := hst
      obtain ⟨h1, h2⟩ := hs.decodeLoop hk le_rfl
      exact ⟨h2, hdec.symm.trans h1⟩
  | setMaxTableSize size =>
      simp only [CodersStep, exec, Option.ite_none_right_eq_some, Option.some.injEq] at hst
      obtain ⟨hlt, rfl⟩ := hst
      exact ⟨hs.setMaxTableSize hk hlt, trivial⟩

/-- **Every header list of a run is decoded as it was encoded.** -/
theorem run_decodes (hl : limit < 2 ^ 32) (hr : Run (Guarded KeepsSync CodersStep) (.start limit) ls s) :
    ∀ l ∈ ls, l.Intact := by
  have h0 : (Coders.start limit).encoder.Synced (Coders.start limit).decoder := .make hl
  generalize Coders.start limit = s₀ at hr h0
  induction hr with
  | nil => simp
  | cons hst _ ih =>
      obtain ⟨h1, h2⟩ := Coders.step_intact h0 hst
      exact List.forall_mem_cons.mpr ⟨h2, ih h1⟩

/-- The same field twice, with a smaller table for the encoder. -/
theorem run_decodes_sample : (CodersLabel.setMaxTableSize 50).Intact ∧
    (CodersLabel.encode [⟨ascii "a", ascii "b"⟩, ⟨ascii "a", ascii "b"⟩]
      [⟨ascii "a", ascii "b"⟩, ⟨ascii "a", ascii "b"⟩]).Intact := by
  have hk : (⟨50, 0, []⟩ : DynamicTable).Encodable [⟨ascii "a", ascii "b"⟩, ⟨ascii "a", ascii "b"⟩] :=
    ⟨by decide, by decide, by decide, by decide, by decide, by decide, trivial⟩
  have h1 : Guarded KeepsSync CodersStep (.start 100) (.setMaxTableSize 50) ⟨⟨50, 0, []⟩, .make 100⟩ :=
    ⟨show 50 ≤ 100 by decide, rfl⟩
  have h2 : Guarded KeepsSync CodersStep ⟨⟨50, 0, []⟩, .make 100⟩
      (.encode [⟨ascii "a", ascii "b"⟩, ⟨ascii "a", ascii "b"⟩] [⟨ascii "a", ascii "b"⟩, ⟨ascii "a", ascii "b"⟩])
      ⟨⟨50, 34, [⟨ascii "a", ascii "b"⟩]⟩, ⟨100, 34, [⟨ascii "a", ascii "b"⟩]⟩⟩ := by
    refine ⟨hk, ?_⟩
    unfold CodersStep
    decide
  have h := run_decodes (by decide) (.cons h1 (.cons h2 (.nil _)))
  exact ⟨h _ (by simp), h _ (by simp)⟩

/-- An encoder whose table grows from `0` to `100` refers to an entry that the decoder does not have. -/
theorem enlarged_not_decoded : ∃ ls s, Run CodersStep (.start 0) ls s ∧ ¬∀ l ∈ ls, l.Intact := by
  have he : [CodersLabel.setMaxTableSize 100, .encode [⟨ascii "a", ascii "b"⟩] [⟨ascii "a", ascii "b"⟩],
      .encode [⟨ascii "a", ascii "b"⟩] []].foldlM Coders.exec (.start 0) =
      some ⟨⟨100, 34, [⟨ascii "a", ascii "b"⟩]⟩, ⟨0, 0, []⟩⟩ := by
    decide
  refine ⟨_, _, Run.of_foldlM he, fun hall => ?_⟩
  have hbad : ([] : List HeaderField) = [⟨ascii "a", ascii "b"⟩] :=
    hall (.encode [⟨ascii "a", ascii "b"⟩] []) (by simp)
  simp at hbad

end

end NeForce.Hpack
