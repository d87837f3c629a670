import NeForce.HpackHuffman
import NeForce.Http2Frames

/-! # HPACK

The header compression of HTTP/2: integers with a prefix, strings, the static and the dynamic
table, the encoder and the decoder.

The encoder and the decoder keep the same kind of dynamic table, newest entry first, and evict from
its end.  The size counters are 32-bit numbers: a sum is taken modulo `2 ^ 32` wherever the source does so. -/

namespace NeForce.Hpack

open Http2 (tryReadBytes)

/-! ### Integers and strings -/

def maxPrefix (prefixBits : ℕ) : ℕ := 1 <<< prefixBits - 1

/-- `while (value >= 128)`, at most `n` times, and the last byte. -/
def encodeIntegerLoop : ℕ → ℕ → Bytes
  | 0, value => [UInt8.ofNat value]
  | n + 1, value =>
      if 128 ≤ value then UInt8.ofNat (value % 128 + 128) :: encodeIntegerLoop n (value / 128) else [UInt8.ofNat value]

/-- `encode_integer` of a 32-bit value into an output whose last byte is `first`. -/
def encodeInteger (first : UInt8) (value prefixBits : ℕ) : Bytes :=
  if value < maxPrefix prefixBits then [first ||| UInt8.ofNat value]
  else (first ||| UInt8.ofNat (maxPrefix prefixBits)) :: encodeIntegerLoop 5 (value - maxPrefix prefixBits)

/-- The loop of `decode_integer`, with `n` octets to go. -/
def decodeIntegerLoop : ℕ → ℕ → ℕ → Bytes → ℕ × Bytes
  | 0, value, _, cur => (value % 2 ^ 32, cur)
  | _ + 1, value, _, [] => (value % 2 ^ 32, [])
  | n + 1, value, m, b :: cur =>
      let value := (value + ((b.toNat &&& 0x7F) <<< m) % 2 ^ 64) % 2 ^ 64
      if 0xFFFFFFFF < value then (0xFFFFFFFF, cur)
      else if b.toNat &&& 0x80 = 0 then (value, cur)
      else decodeIntegerLoop n value (m + 7) cur

def decodeInteger (prefixBits : ℕ) : Bytes → ℕ × Bytes
  | [] => (0, [])
  | b :: cur =>
      let first := b.toNat &&& maxPrefix prefixBits
      if first < maxPrefix prefixBits then (first, cur) else decodeIntegerLoop 10 (maxPrefix prefixBits) 0 cur

/-- The number of bytes of a string in the Huffman code. -/
def huffmanLength (s : Bytes) : ℕ := (totalBits s + 7) / 8

/-- `encode_string`: the length, as a 32-bit number, and the Huffman code. -/
def encodeString (s : Bytes) : Bytes := encodeInteger 0x80 (huffmanLength s % 2 ^ 32) 7 ++ huffmanPayload s

def decodeString (cur : Bytes) : Bytes × Bytes :=
  match cur with
  | [] => ([], [])
  | first :: _ =>
      let r := decodeInteger 7 cur
      match tryReadBytes r.1 r.2 with
      | none => ([], r.2)
      | some (bytes, cur) => (if first.toNat &&& 0x80 ≠ 0 then decodeHuffman bytes else bytes, cur)

/-! ### Tables -/

structure HeaderField where
  name : Bytes
  value : Bytes
deriving DecidableEq

def staticTableTexts : List (String × String) :=
  [(":authority", ""), (":method", "GET"), (":method", "POST"), (":path", "/"), (":path", "/index.html"),
   (":scheme", "http"), (":scheme", "https"), (":status", "200"), (":status", "204"), (":status", "206"),
   (":status", "304"), (":status", "400"), (":status", "404"), (":status", "500"), ("accept-charset", ""),
   ("accept-encoding", "gzip, deflate"), ("accept-language", ""), ("accept-ranges", ""), ("accept", ""),
   ("access-control-allow-origin", ""), ("age", ""), ("allow", ""), ("authorization", ""),
   ("cache-control", ""), ("content-disposition", ""), ("content-encoding", ""), ("content-language", ""),
   ("content-length", ""), ("content-location", ""), ("content-range", ""), ("content-type", ""),
   ("cookie", ""), ("date", ""), ("etag", ""), ("expect", ""), ("expires", ""), ("from", ""), ("host", ""),
   ("if-match", ""), ("if-modified-since", ""), ("if-none-match", ""), ("if-range", ""),
   ("if-unmodified-since", ""), ("last-modified", ""), ("link", ""), ("location", ""), ("max-forwards", ""),
   ("proxy-authenticate", ""), ("proxy-authorization", ""), ("range", ""), ("referer", ""), ("refresh", ""),
   ("retry-after", ""), ("server", ""), ("set-cookie", ""), ("strict-transport-security", ""),
   ("transfer-encoding", ""), ("user-agent", ""), ("vary", ""), ("via", ""), ("www-authenticate", "")]

def staticTable : List HeaderField := staticTableTexts.map fun e => ⟨ascii e.1, ascii e.2⟩

def staticTableSize : ℕ := 61

/-- The size of an entry. -/
def HeaderField.size (h : HeaderField) : ℕ := h.name.length + h.value.length + 32

/-- The dynamic table of an encoder or a decoder, with its 32-bit limit and size. -/
structure DynamicTable where
  maxTableSize : ℕ
  currentTableSize : ℕ
  entries : List HeaderField
deriving DecidableEq

namespace DynamicTable

/-- `hpack_encoder(max_table_size)` and `hpack_decoder(max_table_size)`. -/
def make (maxTableSize : ℕ) : DynamicTable := ⟨maxTableSize, 0, []⟩

/-- The eviction loop, at most `n` times. -/
def evictLoop (needed : ℕ) : ℕ → DynamicTable → DynamicTable
  | 0, t => t
  | n + 1, t =>
      if t.maxTableSize < (t.currentTableSize + needed) % 2 ^ 32 then
        match t.entries.getLast? with
        | none => t
        | some last =>
            evictLoop needed n
              { t with
                currentTableSize := (t.currentTableSize + (2 ^ 32 - last.size % 2 ^ 32)) % 2 ^ 32
                entries := t.entries.dropLast }
      else t

/-- `evict_for_size`, with a 32-bit argument. -/
def evictForSize (t : DynamicTable) (needed : ℕ) : DynamicTable := t.evictLoop (needed % 2 ^ 32) t.entries.length

def setMaxTableSize (t : DynamicTable) (size : ℕ) : DynamicTable := evictForSize { t with maxTableSize := size } 0

def addToDynamicTable (t : DynamicTable) (h : HeaderField) : DynamicTable :=
  let t := t.evictForSize h.size
  if t.maxTableSize < h.size then t
  else { t with currentTableSize := (t.currentTableSize + h.size) % 2 ^ 32, entries := h :: t.entries }

/-! ### The encoder -/

/-- `static_cast<int32_t>`. -/
def toInt32 (n : ℕ) : ℤ := Int.bmod n (2 ^ 32)

/-- The fields that `find_in_tables` compares first, with their indices. -/
def knownFields : List ((String × String) × ℕ) :=
  [((":status", "200"), 8), ((":status", "204"), 9), ((":status", "206"), 10), ((":status", "304"), 11),
   ((":status", "400"), 12), ((":status", "404"), 13), ((":status", "500"), 14), ((":method", "GET"), 2),
   ((":method", "POST"), 3), ((":scheme", "http"), 6), ((":scheme", "https"), 7), ((":path", "/"), 4),
   ((":path", "/index.html"), 5)]

/-- The names that `find_name_in_tables` compares first, with their indices. -/
def knownNames : List (String × ℕ) :=
  [(":authority", 1), (":method", 2), (":path", 4), (":scheme", 6), (":status", 8), ("content-length", 28),
   ("content-type", 31), ("date", 33), ("server", 54)]

/-- The index of the first entry of the tables that satisfies a test, or `-1`. -/
def findIndex (t : DynamicTable) (p : HeaderField → Bool) : ℤ :=
  match staticTable.findIdx? p with
  | some i => (i + 1 : ℕ)
  | none =>
      match t.entries.findIdx? p with
      | some i => toInt32 (staticTableSize + i + 1)
      | none => -1

def findInTables (t : DynamicTable) (h : HeaderField) : ℤ :=
  match knownFields.find? fun e => ascii e.1.1 = h.name ∧ ascii e.1.2 = h.value with
  | some e => e.2
  | none => t.findIndex fun e => e.name = h.name ∧ e.value = h.value

def findNameInTables (t : DynamicTable) (name : Bytes) : ℤ :=
  match knownNames.find? fun e => ascii e.1 = name with
  | some e => e.2
  | none => t.findIndex fun e => e.name = name

/-- One field of the loop of `hpack_encoder::encode`. -/
def encodeField (t : DynamicTable) (h : HeaderField) : Bytes × DynamicTable :=
  let idx := t.findInTables h
  if 1 ≤ idx ∧ idx ≤ staticTableSize then (encodeInteger 0x80 idx.toNat 7, t)
  else if 62 ≤ idx then (encodeInteger 0x80 idx.toNat 7, t)
  else
    let nameIdx := t.findNameInTables h.name
    let name := if 1 ≤ nameIdx then encodeInteger 0x40 nameIdx.toNat 6 else encodeInteger 0x40 0 6 ++ encodeString h.name
    (name ++ encodeString h.value, t.addToDynamicTable h)

def encode (t : DynamicTable) : List HeaderField → Bytes × DynamicTable
  | [] => ([], t)
  | h :: hs =>
      let r := t.encodeField h
      let r' := encode r.2 hs
      (r.1 ++ r'.1, r'.2)

/-! ### The decoder -/

/-- The entry of the tables with an index. -/
def lookup (t : DynamicTable) (idx : ℕ) : Option HeaderField :=
  if idx ≤ staticTableSize then staticTable[idx - 1]? else t.entries[idx - staticTableSize - 1]?

/-- The name of a literal: a string where the index is zero, otherwise that of an entry, and empty without an entry. -/
def decodeName (t : DynamicTable) (nameIdx : ℕ) (cur : Bytes) : Bytes × Bytes :=
  if nameIdx = 0 then decodeString cur else (((t.lookup nameIdx).map (·.name)).getD [], cur)

/-- What one instruction does beside the bytes it reads. -/
inductive Instruction where
  | nop
  | field (h : HeaderField)
  | add (h : HeaderField)
  | setSize (newSize : ℕ)
deriving DecidableEq

/-- Read one instruction, and the bytes after it. -/
def readInstruction (t : DynamicTable) : Bytes → Instruction × Bytes
  | [] => (.nop, [])
  | first :: tl =>
      let cur := first :: tl
      if first.toNat &&& 0x80 ≠ 0 then
        let r := decodeInteger 7 cur
        if r.1 = 0 then (.nop, r.2)
        else
          match t.lookup r.1 with
          | some h => (.field h, r.2)
          | none => (.nop, r.2)
      else if first.toNat &&& 0x40 ≠ 0 then
        let r := decodeInteger 6 cur
        let name := t.decodeName r.1 r.2
        let value := decodeString name.2
        (.add ⟨name.1, value.1⟩, value.2)
      else if first.toNat &&& 0x20 ≠ 0 then
        let r := decodeInteger 5 cur
        (.setSize r.1, r.2)
      else
        -- literals without indexing and never indexed
        let r := decodeInteger 4 cur
        let name := t.decodeName r.1 r.2
        let value := decodeString name.2
        (.field ⟨name.1, value.1⟩, value.2)

/-- The effect of an instruction on the table. -/
def apply (t : DynamicTable) : Instruction → DynamicTable
  | .nop | .field _ => t
  | .add h => t.addToDynamicTable h
  | .setSize newSize => t.setMaxTableSize newSize

/-- The field that an instruction passes to the callback. -/
def Instruction.emits : Instruction → List HeaderField
  | .nop | .setSize _ => []
  | .field h | .add h => [h]

/-- `decode_incremental`, at most `n` instructions. -/
def decodeLoop : ℕ → DynamicTable → Bytes → List HeaderField × DynamicTable
  | 0, t, _ => ([], t)
  | n + 1, t, cur =>
      if cur = [] then ([], t)
      else
        let r := t.readInstruction cur
        let r' := decodeLoop n (t.apply r.1) r.2
        (r.1.emits ++ r'.1, r'.2)

/-- `hpack_decoder::decode`. -/
def decode (t : DynamicTable) (data : Bytes) : List HeaderField × DynamicTable := t.decodeLoop data.length data

end DynamicTable

end NeForce.Hpack
