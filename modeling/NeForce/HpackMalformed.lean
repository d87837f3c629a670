import NeForce.HpackSync

/-! # Malformed header blocks

What `decode` does with a block that is not a sequence of valid instructions.  The valid instructions before the bad one
are decoded as they should be.  The bad one is refused if and only if the decoder comes to no field from there on: the
helpers return an empty or cut-off value on failure, and the loop goes on (`refused_iff`). -/

namespace NeForce.Hpack

open Http2 (tryReadBytes)

/-! ### Valid instructions -/

/-- The octets of an integer behind its prefix, at most `n` of them. -/
def readOctets : ℕ → ℕ → ℕ → Bytes → Option (ℕ × Bytes)
  | 0, _, _, _ => none
  | _ + 1, _, _, [] => none
  | n + 1, value, m, b :: cur =>
      let value := value + b.toNat % 128 * 2 ^ m
      if b.toNat < 128 then if value < 2 ^ 32 then some (value, cur) else none else readOctets n value (m + 7) cur

/-- A 32-bit integer of at most ten octets behind its prefix. -/
def readInteger (prefixBits : ℕ) : Bytes → Option (ℕ × Bytes)
  | [] => none
  | b :: cur =>
      let first := b.toNat % 2 ^ prefixBits
      if first < 2 ^ prefixBits - 1 then some (first, cur) else readOctets 10 (2 ^ prefixBits - 1) 0 cur

/-- The codes of a text, and fewer than eight ones behind them. -/
def IsHuffman (p : Bytes) : Prop := ∃ s, ∃ k < 8, bytesBits p = encBits s ++ List.replicate k true

theorem isHuffman_iff {p : Bytes} : IsHuffman p ↔ huffmanPayload (decodeHuffman p) = p := by
  constructor
  · rintro ⟨s, k, hk, h⟩
    rw [← huffmanPayload_unique hk h, decode_encode_huffman]
  · intro h
    obtain ⟨k, hk, h'⟩ := huffmanPayload_spec (decodeHuffman p)
    exact ⟨decodeHuffman p, k, hk, by rw [← h', h]⟩

instance : DecidablePred IsHuffman := fun _ => decidable_of_iff' _ isHuffman_iff

def readString : Bytes → Option (Bytes × Bytes)
  | [] => none
  | first :: tl =>
      (readInteger 7 (first :: tl)).bind fun r =>
        if r.2.length < r.1 then none
        else if first.toNat < 128 then some (r.2.take r.1, r.2.drop r.1)
        else if IsHuffman (r.2.take r.1) then some (decodeHuffman (r.2.take r.1), r.2.drop r.1)
        else none

namespace DynamicTable

/-- The entry with an index, which is not zero. -/
def entry (t : DynamicTable) (idx : ℕ) : Option HeaderField := if idx = 0 then none else t.lookup idx

def readName (t : DynamicTable) (nameIdx : ℕ) (cur : Bytes) : Option (Bytes × Bytes) :=
  if nameIdx = 0 then readString cur else (t.lookup nameIdx).map fun h => (h.name, cur)

def readLiteral (t : DynamicTable) (prefixBits : ℕ) (cur : Bytes) : Option (HeaderField × Bytes) :=
  (readInteger prefixBits cur).bind fun r =>
    (t.readName r.1 r.2).bind fun name => (readString name.2).map fun value => (⟨name.1, value.1⟩, value.2)

/-- The valid instruction at the front, and the bytes after it. -/
def readValid (t : DynamicTable) : Bytes → Option (Instruction × Bytes)
  | [] => none
  | first :: tl =>
      let cur := first :: tl
      if 128 ≤ first.toNat then (readInteger 7 cur).bind fun r => (t.entry r.1).map fun h => (.field h, r.2)
      else if 64 ≤ first.toNat then (t.readLiteral 6 cur).map fun r => (.add r.1, r.2)
      else if 32 ≤ first.toNat then (readInteger 5 cur).map fun r => (.setSize r.1, r.2)
      else (t.readLiteral 4 cur).map fun r => (.field r.1, r.2)

/-- The fields of the valid instructions, at most `n` of them; the table after them, and the bytes. -/
def validLoop : ℕ → DynamicTable → Bytes → List HeaderField × DynamicTable × Bytes
  | 0, t, cur => ([], t, cur)
  | n + 1, t, cur =>
      match t.readValid cur with
      | none => ([], t, cur)
      | some (i, rest) =>
          let r := validLoop n (t.apply i) rest
          (i.emits ++ r.1, r.2)

/-- The valid instructions of a block. -/
def validPrefix (t : DynamicTable) (data : Bytes) : List HeaderField × DynamicTable × Bytes := t.validLoop data.length data

/-- The valid instructions end before the block does. -/
def Malformed (t : DynamicTable) (data : Bytes) : Prop := (t.validPrefix data).2.2 ≠ []

/-- The callback gets the fields of the valid instructions only, and what is behind them leaves no entry. -/
structure Refused (t : DynamicTable) (data : Bytes) : Prop where
  fields : (t.decode data).1 = (t.validPrefix data).1
  entries : (t.decode data).2.entries <+: (t.validPrefix data).2.1.entries

/-- There are only indexed fields without an entry and size updates. -/
inductive Quiet : DynamicTable → Bytes → Prop
  | nil (t : DynamicTable) : Quiet t []
  | missing {t : DynamicTable} {first : UInt8} {tl : Bytes} (h : 128 ≤ first.toNat)
      (hidx : t.entry (decodeInteger 7 (first :: tl)).1 = none) (hrest : Quiet t (decodeInteger 7 (first :: tl)).2) :
      Quiet t (first :: tl)
  | resize {t : DynamicTable} {first : UInt8} {tl : Bytes} (h : first.toNat / 32 = 1)
      (hrest : Quiet (t.setMaxTableSize (decodeInteger 5 (first :: tl)).1) (decodeInteger 5 (first :: tl)).2) :
      Quiet t (first :: tl)

end DynamicTable

/-! ### A valid instruction is read as it is -/

theorem octet_bits (b : UInt8) : b.toNat &&& 0x7F = b.toNat % 128 ∧ (b.toNat &&& 0x80 = 0 ↔ b.toNat < 128) := by
  have h : ∀ n < 256, n &&& 0x7F = n % 128 ∧ (n &&& 0x80 = 0 ↔ n < 128) := by
    set_option maxRecDepth 8000 in
    decide
  exact h _ b.toNat_lt

theorem readOctets_bounds {n value m : ℕ} {cur : Bytes} {r : ℕ × Bytes} (h : readOctets n value m cur = some r) :
    value ≤ r.1 ∧ r.1 < 2 ^ 32 := by
  induction n generalizing value m cur with
  | zero => cases h
  | succ n ih =>
      cases cur with
      | nil => cases h
      | cons b cur =>
          rw [readOctets] at h
          split at h
          · split at h
            · next hlt =>
              cases h
              exact ⟨Nat.le_add_right _ _, hlt⟩
            · cases h
          · obtain ⟨h1, h2⟩ := ih h
            exact ⟨(Nat.le_add_right _ _).trans h1, h2⟩

theorem decodeIntegerLoop_valid {n value m : ℕ} {cur : Bytes} {r : ℕ × Bytes} (h : readOctets n value m cur = some r) :
    decodeIntegerLoop n value m cur = r := by
  induction n generalizing value m cur with
  | zero => cases h
  | succ n ih =>
      cases cur with
      | nil => cases h
      | cons b cur =>
          obtain ⟨hlow, hhigh⟩ := octet_bits b
          have hsum : value + b.toNat % 128 * 2 ^ m < 2 ^ 32 →
              (value + (b.toNat % 128 * 2 ^ m) % 2 ^ 64) % 2 ^ 64 = value + b.toNat % 128 * 2 ^ m := by
            intro hlt
            rw [Nat.mod_eq_of_lt (by omega : b.toNat % 128 * 2 ^ m < 2 ^ 64), Nat.mod_eq_of_lt (by omega)]
          rw [readOctets] at h
          rw [decodeIntegerLoop, hlow, Nat.shiftLeft_eq]
          split at h
          · next hb =>
            split at h
            · next hlt =>
              cases h
              rw [hsum hlt, if_neg (by omega), if_pos (hhigh.mpr hb)]
            · cases h
          · next hb =>
            obtain ⟨h1, h2⟩ := readOctets_bounds h
            rw [hsum (by omega), if_neg (by omega), if_neg (fun h0 => hb (hhigh.mp h0))]
            exact ih h

theorem decodeInteger_valid {prefixBits : ℕ} {cur : Bytes} {r : ℕ × Bytes} (h : readInteger prefixBits cur = some r) :
    decodeInteger prefixBits cur = r := by
  cases cur with
  | nil => cases h
  | cons b cur =>
      have hmax : maxPrefix prefixBits = 2 ^ prefixBits - 1 := by rw [maxPrefix, Nat.one_shiftLeft]
      rw [readInteger] at h
      rw [decodeInteger, hmax, Nat.and_two_pow_sub_one_eq_mod]
      split at h
      · next hlt =>
        rw [if_pos hlt]
        exact Option.some.inj h
      · next hge =>
        rw [if_neg hge]
        exact decodeIntegerLoop_valid h

theorem decodeString_valid {cur : Bytes} {r : Bytes × Bytes} (h : readString cur = some r) : decodeString cur = r := by
  cases cur with
  | nil => cases h
  | cons first tl =>
      obtain ⟨len, hlen, h⟩ := Option.bind_eq_some_iff.mp h
      have hhuffman := (octet_bits first).2
      rw [decodeString]
      rw [decodeInteger_valid hlen, tryReadBytes]
      split at h
      · cases h
      · next hle =>
        rw [if_neg hle]
        dsimp only
        split at h
        · next hraw =>
          rw [if_neg (not_not.mpr (hhuffman.mpr hraw))]
          exact Option.some.inj h
        · next hraw =>
          split at h
          · rw [if_pos (mt hhuffman.mp hraw)]
            exact Option.some.inj h
          · cases h

namespace DynamicTable

variable {t : DynamicTable} {n : ℕ} {cur : Bytes}

/-- A literal, as the decoder reads it. -/
def decodeLiteral (t : DynamicTable) (prefixBits : ℕ) (cur : Bytes) : HeaderField × Bytes :=
  let r := decodeInteger prefixBits cur
  let name := t.decodeName r.1 r.2
  let value := decodeString name.2
  (⟨name.1, value.1⟩, value.2)

theorem readInstruction_cons (t : DynamicTable) (first : UInt8) (tl : Bytes) :
    t.readInstruction (first :: tl) =
      if 128 ≤ first.toNat then
        (((t.entry (decodeInteger 7 (first :: tl)).1).map Instruction.field).getD .nop, (decodeInteger 7 (first :: tl)).2)
      else if 64 ≤ first.toNat then
        (.add (t.decodeLiteral 6 (first :: tl)).1, (t.decodeLiteral 6 (first :: tl)).2)
      else if 32 ≤ first.toNat then (.setSize (decodeInteger 5 (first :: tl)).1, (decodeInteger 5 (first :: tl)).2)
      else (.field (t.decodeLiteral 4 (first :: tl)).1, (t.decodeLiteral 4 (first :: tl)).2) := by
  have hbits : ∀ n < 256, (n &&& 0x80 ≠ 0 ↔ 128 ≤ n) ∧ (n < 128 → (n &&& 0x40 ≠ 0 ↔ 64 ≤ n)) ∧
      (n < 64 → (n &&& 0x20 ≠ 0 ↔ 32 ≤ n)) := by
        set_option maxRecDepth 8000 in
        decide
  obtain ⟨h80, h40, h20⟩ := hbits _ first.toNat_lt
  rw [readInstruction]
  dsimp only
  by_cases h1 : 128 ≤ first.toNat
  · rw [if_pos (h80.mpr h1), if_pos h1, entry]
    split
    · rfl
    · cases t.lookup (decodeInteger 7 (first :: tl)).1 <;> rfl
  · rw [if_neg (mt h80.mp h1), if_neg h1]
    by_cases h2 : 64 ≤ first.toNat
    · rw [if_pos ((h40 (by omega)).mpr h2), if_pos h2]
      rfl
    · rw [if_neg (mt (h40 (by omega)).mp h2), if_neg h2]
      by_cases h3 : 32 ≤ first.toNat
      · rw [if_pos ((h20 (by omega)).mpr h3), if_pos h3]
      · rw [if_neg (mt (h20 (by omega)).mp h3), if_neg h3]
        rfl

theorem decodeLiteral_valid {prefixBits : ℕ} {r : HeaderField × Bytes} (h : t.readLiteral prefixBits cur = some r) :
    t.decodeLiteral prefixBits cur = r := by
  obtain ⟨idx, hidx, h⟩ := Option.bind_eq_some_iff.mp h
  obtain ⟨name, hname, h⟩ := Option.bind_eq_some_iff.mp h
  obtain ⟨value, hvalue, rfl⟩ := Option.map_eq_some_iff.mp h
  have hdecoded : t.decodeName idx.1 idx.2 = name := by
    rw [readName] at hname
    rw [decodeName]
    split at hname
    · next h0 => rw [if_pos h0, decodeString_valid hname]
    · next h0 =>
      obtain ⟨e, he, rfl⟩ := Option.map_eq_some_iff.mp hname
      rw [if_neg h0, he]
      rfl
  rw [decodeLiteral]
  rw [decodeInteger_valid hidx, hdecoded, decodeString_valid hvalue]

theorem readInstruction_valid {r : Instruction × Bytes} (h : t.readValid cur = some r) : t.readInstruction cur = r := by
  cases cur with
  | nil => cases h
  | cons first tl =>
      rw [readValid] at h
      rw [readInstruction_cons]
      split at h
      · next h1 =>
        obtain ⟨idx, hidx, h⟩ := Option.bind_eq_some_iff.mp h
        obtain ⟨e, he, rfl⟩ := Option.map_eq_some_iff.mp h
        rw [if_pos h1, decodeInteger_valid hidx, he]
        rfl
      · next h1 =>
        rw [if_neg h1]
        split at h
        · next h2 =>
          obtain ⟨l, hl, rfl⟩ := Option.map_eq_some_iff.mp h
          rw [if_pos h2, decodeLiteral_valid hl]
        · next h2 =>
          rw [if_neg h2]
          split at h
          · next h3 =>
            obtain ⟨size, hsize, rfl⟩ := Option.map_eq_some_iff.mp h
            rw [if_pos h3, decodeInteger_valid hsize]
          · next h3 =>
            obtain ⟨l, hl, rfl⟩ := Option.map_eq_some_iff.mp h
            rw [if_neg h3, decodeLiteral_valid hl]

/-! ### Every instruction takes a byte -/

theorem length_decodeIntegerLoop (n value m : ℕ) (cur : Bytes) :
    (decodeIntegerLoop n value m cur).2.length ≤ cur.length := by
  induction n generalizing value m cur with
  | zero => exact le_rfl
  | succ n ih =>
      cases cur with
      | nil => exact le_rfl
      | cons b cur =>
          rw [decodeIntegerLoop]
          split
          · exact Nat.le_succ _
          · split
            · exact Nat.le_succ _
            · exact (ih _ _ _).trans (Nat.le_succ _)

theorem length_decodeInteger (prefixBits : ℕ) (first : UInt8) (tl : Bytes) :
    (decodeInteger prefixBits (first :: tl)).2.length ≤ tl.length := by
  rw [decodeInteger]
  split
  · exact le_rfl
  · exact length_decodeIntegerLoop _ _ _ _

theorem length_decodeString (cur : Bytes) : (decodeString cur).2.length ≤ cur.length := by
  cases cur with
  | nil => exact le_rfl
  | cons first tl =>
      have hint := length_decodeInteger 7 first tl
      rw [List.length_cons, decodeString, tryReadBytes]
      split
      · exact hint.trans (Nat.le_succ _)
      · next h =>
        split at h
        · cases h
        · cases h
          rw [List.length_drop]
          omega

theorem length_decodeLiteral (t : DynamicTable) (prefixBits : ℕ) (first : UInt8) (tl : Bytes) :
    (t.decodeLiteral prefixBits (first :: tl)).2.length ≤ tl.length := by
  refine (length_decodeString _).trans (le_trans ?_ (length_decodeInteger prefixBits first tl))
  rw [decodeName]
  split
  · exact length_decodeString _
  · exact le_rfl

theorem length_readInstruction (t : DynamicTable) (first : UInt8) (tl : Bytes) :
    (t.readInstruction (first :: tl)).2.length ≤ tl.length := by
  rw [readInstruction_cons]
  split
  · exact length_decodeInteger _ _ _
  · split
    · exact length_decodeLiteral _ _ _ _
    · split
      · exact length_decodeInteger _ _ _
      · exact length_decodeLiteral _ _ _ _

/-! ### Behind the valid instructions -/

theorem entries_evictLoop (needed n : ℕ) (t : DynamicTable) : (evictLoop needed n t).entries <+: t.entries := by
  induction n generalizing t with
  | zero => exact List.prefix_rfl
  | succ n ih =>
      rw [evictLoop]
      split
      · split
        · exact List.prefix_rfl
        · exact (ih _).trans (List.dropLast_prefix _)
      · exact List.prefix_rfl

/-- Without a callback, an instruction adds no entry. -/
theorem entries_apply {i : Instruction} (h : i.emits = []) : (t.apply i).entries <+: t.entries := by
  cases i with
  | nop => exact List.prefix_rfl
  | setSize newSize => exact entries_evictLoop _ _ _
  | field | add => cases h

theorem entries_decodeLoop (h : (t.decodeLoop n cur).1 = []) : (t.decodeLoop n cur).2.entries <+: t.entries := by
  induction n generalizing t cur with
  | zero => exact List.prefix_rfl
  | succ n ih =>
      rw [decodeLoop] at h ⊢
      split
      · exact List.prefix_rfl
      · next hne =>
        rw [if_neg hne] at h
        obtain ⟨h1, h2⟩ := List.append_eq_nil_iff.mp h
        exact (ih h2).trans (entries_apply h1)

theorem decodeLoop_cons (n : ℕ) (t : DynamicTable) (first : UInt8) (tl : Bytes) :
    t.decodeLoop (n + 1) (first :: tl) =
      ((t.readInstruction (first :: tl)).1.emits ++
          ((t.apply (t.readInstruction (first :: tl)).1).decodeLoop n (t.readInstruction (first :: tl)).2).1,
        ((t.apply (t.readInstruction (first :: tl)).1).decodeLoop n (t.readInstruction (first :: tl)).2).2) := by
  rw [decodeLoop, if_neg (List.cons_ne_nil _ _)]

/-- The decoder comes to no field just when there is none. -/
theorem decodeLoop_quiet (hn : cur.length ≤ n) : (t.decodeLoop n cur).1 = [] ↔ Quiet t cur := by
  induction n generalizing t cur with
  | zero =>
      obtain rfl := List.length_eq_zero_iff.mp (Nat.le_zero.mp hn)
      exact iff_of_true rfl (.nil t)
  | succ n ih =>
      cases cur with
      | nil => exact iff_of_true rfl (.nil t)
      | cons first tl =>
          have hle := (length_readInstruction t first tl).trans (Nat.le_of_succ_le_succ hn)
          rw [decodeLoop_cons, List.append_eq_nil_iff, ih hle, readInstruction_cons]
          constructor
          · rintro ⟨hemits, hrest⟩
            split at hemits
            · next h1 =>
              cases he : t.entry (decodeInteger 7 (first :: tl)).1 with
              | none =>
                  rw [if_pos h1, he] at hrest
                  exact .missing h1 he hrest
              | some e =>
                  rw [he] at hemits
                  cases hemits
            · next h1 =>
              split at hemits
              · cases hemits
              · next h2 =>
                split at hemits
                · next h3 =>
                  rw [if_neg h1, if_neg h2, if_pos h3] at hrest
                  exact .resize (by omega) hrest
                · cases hemits
          · intro hq
            cases hq with
            | missing h hidx hrest =>
                rw [if_pos h, hidx]
                exact ⟨rfl, hrest⟩
            | resize h hrest =>
                rw [if_neg (by omega), if_neg (by omega), if_pos (by omega)]
                exact ⟨rfl, hrest⟩

/-- The valid instructions are decoded, and the decoder goes on behind them. -/
theorem decodeLoop_valid (hn : cur.length ≤ n) : ∃ k, (t.validLoop n cur).2.2.length ≤ k ∧
    t.decodeLoop n cur = ((t.validLoop n cur).1 ++ ((t.validLoop n cur).2.1.decodeLoop k (t.validLoop n cur).2.2).1,
      ((t.validLoop n cur).2.1.decodeLoop k (t.validLoop n cur).2.2).2) := by
  induction n generalizing t cur with
  | zero => exact ⟨0, hn, rfl⟩
  | succ n ih =>
      rw [validLoop]
      cases hv : t.readValid cur with
      | none => exact ⟨n + 1, hn, rfl⟩
      | some r =>
          obtain ⟨i, rest⟩ := r
          have hread := readInstruction_valid hv
          cases cur with
          | nil => cases hv
          | cons first tl =>
              have hle := length_readInstruction t first tl
              rw [hread] at hle
              obtain ⟨k, hk, heq⟩ := ih (t := t.apply i) (hle.trans (Nat.le_of_succ_le_succ hn))
              refine ⟨k, hk, ?_⟩
              rw [decodeLoop_cons, hread]
              dsimp only
              rw [heq, List.append_assoc]

/-- **A malformed block is refused if and only if the decoder comes to no field** from the bad instruction on. -/
theorem refused_iff (t : DynamicTable) (data : Bytes) :
    Refused t data ↔ Quiet (t.validPrefix data).2.1 (t.validPrefix data).2.2 := by
  obtain ⟨k, hk, heq⟩ := decodeLoop_valid (t := t) (le_refl data.length)
  have hfields : (t.decode data).1 = (t.validPrefix data).1 ↔
      ((t.validPrefix data).2.1.decodeLoop k (t.validPrefix data).2.2).1 = [] := by
    rw [decode, heq]
    exact List.append_right_eq_self
  refine Iff.trans ?_ (decodeLoop_quiet hk)
  constructor
  · exact fun h => hfields.mp h.fields
  · intro h
    refine ⟨hfields.mpr h, ?_⟩
    rw [decode, heq]
    exact entries_decodeLoop h

/-- A name of five bytes, of which two have come: the decoder takes an empty name, reads the two bytes as the value, and
passes this field on and stores it. -/
theorem refused_cutOff : (make 4096).Malformed [0x40, 0x05, 0x01, 0x82] ∧
    ((make 4096).validPrefix [0x40, 0x05, 0x01, 0x82]).1 = [] ∧
    (make 4096).decode [0x40, 0x05, 0x01, 0x82] = ([⟨[], [0x82]⟩], ⟨4096, 33, [⟨[], [0x82]⟩]⟩) ∧
    ¬ (make 4096).Refused [0x40, 0x05, 0x01, 0x82] := by
  have hvalid : ((make 4096).validPrefix [0x40, 0x05, 0x01, 0x82]).1 = [] := by decide
  have hdecode : (make 4096).decode [0x40, 0x05, 0x01, 0x82] = ([⟨[], [0x82]⟩], ⟨4096, 33, [⟨[], [0x82]⟩]⟩) := by
    decide
  refine ⟨show _ ≠ _ by decide, hvalid, hdecode, ?_⟩
  intro h
  have hf := h.fields
  rw [hvalid, hdecode] at hf
  cases hf

end DynamicTable

end NeForce.Hpack
