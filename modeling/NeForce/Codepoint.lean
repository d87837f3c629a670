import NeForce.BigEndian

/-! # Transcoding between UTF-8, UTF-16 and UTF-32

Each decoder reads one character (`decodeUtf8Char`, `decodeUtf16`, `decodeUtf32`), or a block of characters at once where
the machine has vector instructions.  A chunk decoder fills a buffer of code points, `append_chunk` appends the buffer to
the result, and `transcode` alternates the two until the text is read.

Code points are `uint32_t` values, as natural numbers; the surrogate tests take a `char16_t`, so that wider values lose
their upper bits there.  A place in a text is the rest of the text from there on. -/

namespace NeForce.Codepoint

/-! ### Code points -/

/-- The argument is a `char16_t`. -/
def isHighSurrogate (c : ℕ) : Bool := 0xD800 ≤ c % 2 ^ 16 && c % 2 ^ 16 ≤ 0xDBFF

def isLowSurrogate (c : ℕ) : Bool := 0xDC00 ≤ c % 2 ^ 16 && c % 2 ^ 16 ≤ 0xDFFF

def isValidCodepoint (v : ℕ) : Bool := v ≤ 0x10FFFF && !isHighSurrogate v && !isLowSurrogate v

/-- The value of a `codepoint` that is constructed from a number. -/
def ofValue (value : ℕ) : ℕ := if isValidCodepoint value then value else 0xFFFD

def combineSurrogates (high low : ℕ) : ℕ := ofValue (0x10000 + ((high - 0xD800) <<< 10) + (low - 0xDC00))

/-! ### One character -/

/-- What a decoder returns: whether the character is well-formed, its value and the rest of the text. -/
structure Decoded (α : Type) where
  ok : Bool
  cp : ℕ
  rest : List α

def rejected {α : Type} (rest : List α) : Decoded α := ⟨false, 0xFFFD, rest⟩

def isContinuation (b : UInt8) : Bool := b &&& 0xC0 = 0x80

def decodeUtf8Char : Bytes → Decoded UInt8
  | [] => rejected []
  | b1 :: l =>
    if b1 &&& 0x80 = 0 then ⟨true, b1.toNat, l⟩
    else if b1 &&& 0xE0 = 0xC0 then
      match l with
      | b2 :: l2 =>
        if !isContinuation b2 then rejected l
        else
          let cp := (b1.toNat &&& 0x1F) <<< 6 ||| (b2.toNat &&& 0x3F)
          if cp < 0x80 then rejected l2 else ⟨true, cp, l2⟩
      | _ => rejected l
    else if b1 &&& 0xF0 = 0xE0 then
      match l with
      | b2 :: b3 :: l3 =>
        if !isContinuation b2 then rejected l
        else if !isContinuation b3 then rejected (b3 :: l3)
        else
          let cp := (b1.toNat &&& 0x0F) <<< 12 ||| (b2.toNat &&& 0x3F) <<< 6 ||| (b3.toNat &&& 0x3F)
          if cp < 0x800 || (0xD800 ≤ cp && cp ≤ 0xDFFF) then rejected l3 else ⟨true, cp, l3⟩
      | _ => rejected l
    else if b1 &&& 0xF8 = 0xF0 then
      match l with
      | b2 :: b3 :: b4 :: l4 =>
        if !isContinuation b2 then rejected l
        else if !isContinuation b3 then rejected (b3 :: b4 :: l4)
        else if !isContinuation b4 then rejected (b4 :: l4)
        else
          let cp := (b1.toNat &&& 0x07) <<< 18 ||| (b2.toNat &&& 0x3F) <<< 12 ||| (b3.toNat &&& 0x3F) <<< 6 |||
            (b4.toNat &&& 0x3F)
          if cp < 0x10000 || 0x10FFFF < cp then rejected l4 else ⟨true, cp, l4⟩
      | _ => rejected l
    else rejected l

def byteswap16 (c : UInt16) : UInt16 := c <<< 8 ||| c >>> 8

def swapUnit (needSwap : Bool) (raw : UInt16) : ℕ := (if needSwap then byteswap16 raw else raw).toNat

/-- `utf16_codepoint` and `decode_utf16`. -/
def decodeUtf16 (needSwap : Bool) : List UInt16 → Decoded UInt16
  | [] => rejected []
  | raw1 :: l =>
    let c1 := swapUnit needSwap raw1
    if isHighSurrogate c1 then
      match l with
      | raw2 :: l2 =>
        let c2 := swapUnit needSwap raw2
        if isLowSurrogate c2 then ⟨true, combineSurrogates c1 c2, l2⟩ else rejected l
      | [] => rejected l
    else if isLowSurrogate c1 then rejected l
    else ⟨true, ofValue c1, l⟩

def decodeUtf32 : List UInt32 → Decoded UInt32
  | [] => rejected []
  | raw :: l => if isValidCodepoint raw.toNat then ⟨true, raw.toNat, l⟩ else rejected l

/-! ### Blocks -/

/-- The vector instructions of the target. -/
structure Simd where
  sse2 : Bool
  ssse3 : Bool
  avx2 : Bool

def isAscii (b : UInt8) : Bool := b < 0x80

def blockLen2Ok : Bytes → Bool
  | lead :: cont :: v => 0xC1 < lead && lead < 0xE0 && isContinuation cont && blockLen2Ok v
  | _ => true

def decodeLen2Block : Bytes → List ℕ
  | lead :: cont :: v => ((lead.toNat &&& 0x1F) <<< 6 ||| (cont.toNat &&& 0x3F)) :: decodeLen2Block v
  | _ => []

def blockLen3Ok : Bytes → Bool
  | lead :: first :: second :: v =>
    lead &&& 0xF0 = 0xE0 && isContinuation first && isContinuation second &&
      !(lead = 0xE0 && first ≤ 0x9F) && !(lead = 0xED && !(first ≤ 0x9F)) && blockLen3Ok v
  | _ => true

def decodeLen3Block : Bytes → List ℕ
  | b0 :: b1 :: b2 :: v =>
    ((b0.toNat &&& 0x0F) <<< 12 ||| ((b1.toNat &&& 0x3F) <<< 6 ||| (b2.toNat &&& 0x3F))) :: decodeLen3Block v
  | _ => []

def blockLen4Ok : Bytes → Bool
  | b0 :: b1 :: b2 :: b3 :: v =>
    0xEF < b0 && b0 < 0xF5 && isContinuation b1 && isContinuation b2 && isContinuation b3 &&
      !(b0 = 0xF0 && b1 < 0x90) && !(b0 = 0xF4 && 0x8F < b1) && blockLen4Ok v
  | _ => true

def decodeLen4Block : Bytes → List ℕ
  | b0 :: b1 :: b2 :: b3 :: v =>
    ((b0.toNat &&& 0x07) <<< 18 ||| (b1.toNat &&& 0x3F) <<< 12 ||| ((b2.toNat &&& 0x3F) <<< 6 ||| (b3.toNat &&& 0x3F))) ::
      decodeLen4Block v
  | _ => []

/-- The blocks of `decode_utf8_chunk`: 32 or 16 bytes of ASCII, eight characters of two bytes, four of four bytes and four
of three bytes. -/
def utf8Block (simd : Simd) (capacity : ℕ) (data : Bytes) : Option (List ℕ × Bytes) :=
  let v := data.take 16
  if simd.avx2 && 32 ≤ data.length && 32 ≤ capacity && (data.take 32).all isAscii then
    some ((data.take 32).map UInt8.toNat, data.drop 32)
  else if simd.sse2 && 16 ≤ data.length && v.all isAscii && 16 ≤ capacity then some (v.map UInt8.toNat, data.drop 16)
  else if simd.sse2 && 16 ≤ data.length && 8 ≤ capacity && blockLen2Ok v then some (decodeLen2Block v, data.drop 16)
  else if simd.sse2 && 16 ≤ data.length && 4 ≤ capacity && blockLen4Ok v then some (decodeLen4Block v, data.drop 16)
  else if simd.ssse3 && 16 ≤ data.length && 4 ≤ capacity && blockLen3Ok (data.take 12) then
    some (decodeLen3Block (data.take 12), data.drop 12)
  else none

def utf16Widenable (c : UInt16) : Bool := !(c &&& 0xF800 = 0xD800)

def utf16Block (simd : Simd) (needSwap : Bool) (capacity : ℕ) (data : List UInt16) : Option (List ℕ × List UInt16) :=
  if simd.sse2 && !needSwap && 8 ≤ data.length && 8 ≤ capacity && (data.take 8).all utf16Widenable then
    some ((data.take 8).map UInt16.toNat, data.drop 8)
  else none

def utf32Valid (c : UInt32) : Bool := !(0x10FFFF < c || (0xD7FF < c && c < 0xE000))

def utf32Block (simd : Simd) (capacity : ℕ) (data : List UInt32) : Option (List ℕ × List UInt32) :=
  if simd.sse2 && 4 ≤ data.length && 4 ≤ capacity && (data.take 4).all utf32Valid then
    some ((data.take 4).map UInt32.toNat, data.drop 4)
  else none

/-! ### Chunks -/

variable {α β : Type}

/-- The loop of the chunk decoders: a block where there is one, else one character; `capacity` is the room left in the
buffer, which each turn reduces. -/
def decodeChunk (block : ℕ → List α → Option (List ℕ × List α)) (one : List α → Decoded α) :
    ℕ → ℕ → List α → List ℕ × List α
  | 0, _, data => ([], data)
  | fuel + 1, capacity, data =>
    if data = [] ∨ capacity = 0 then ([], data)
    else
      let (out, rest) := (block capacity data).getD ([(one data).cp], (one data).rest)
      let (outs, rest) := decodeChunk block one fuel (capacity - out.length) rest
      (out ++ outs, rest)

def chunkSize : ℕ := 256

/-- The loop of the transcoders; it ends early when a chunk consumes nothing. -/
def transcode (chunk : ℕ → List α → List ℕ × List α) (appendChunk : List ℕ → List β) : ℕ → List α → List β
  | 0, _ => []
  | fuel + 1, data =>
    if data = [] then []
    else
      let (buffer, rest) := chunk chunkSize data
      appendChunk buffer ++ (if rest.length = data.length then [] else transcode chunk appendChunk fuel rest)

/-! ### Appending -/

def appendUtf8Char (cp : ℕ) : Bytes :=
  if cp > 0x10FFFF || isHighSurrogate cp || isLowSurrogate cp then [0xEF, 0xBF, 0xBD]
  else if cp ≤ 0x7F then [.ofNat cp]
  else if cp ≤ 0x7FF then [.ofNat (0xC0 ||| cp >>> 6), .ofNat (0x80 ||| (cp &&& 0x3F))]
  else if cp ≤ 0xFFFF then
    [.ofNat (0xE0 ||| cp >>> 12), .ofNat (0x80 ||| (cp >>> 6 &&& 0x3F)), .ofNat (0x80 ||| (cp &&& 0x3F))]
  else
    [.ofNat (0xF0 ||| cp >>> 18), .ofNat (0x80 ||| (cp >>> 12 &&& 0x3F)), .ofNat (0x80 ||| (cp >>> 6 &&& 0x3F)),
      .ofNat (0x80 ||| (cp &&& 0x3F))]

/-- `codepoint::append_to` of a `u16string`. -/
def appendUtf16Char (value : ℕ) : List UInt16 :=
  if !isValidCodepoint value then [0xFFFD]
  else if value ≤ 0xFFFF then [.ofNat value]
  else
    let adjusted := value - 0x10000
    [.ofNat ((adjusted >>> 10) + 0xD800), .ofNat ((adjusted &&& 0x3FF) + 0xDC00)]

/-- `append_chunk`, for each kind of string; code points of one unit are stored without a check. -/
def appendUtf8Chunk (codepoints : List ℕ) : Bytes :=
  codepoints.flatMap fun cp => if cp ≤ 0x7F then [.ofNat cp] else appendUtf8Char cp

def appendUtf16Chunk (codepoints : List ℕ) : List UInt16 :=
  codepoints.flatMap fun cp => if cp ≤ 0xFFFF then [.ofNat cp] else appendUtf16Char (ofValue cp)

def appendUtf32Chunk (codepoints : List ℕ) : List UInt32 := codepoints.map UInt32.ofNat

/-! ### Forms -/

inductive Form
  | utf8
  | utf16
  | utf32
deriving DecidableEq

def Form.Unit : Form → Type
  | .utf8 => UInt8
  | .utf16 => UInt16
  | .utf32 => UInt32

/-- The chunk decoder of a form; 16-bit units are in native order. -/
def Form.decodeChunk (simd : Simd) : (A : Form) → ℕ → List A.Unit → List ℕ × List A.Unit
  | .utf8, capacity, data => Codepoint.decodeChunk (α := UInt8) (utf8Block simd) decodeUtf8Char capacity capacity data
  | .utf16, capacity, data =>
    Codepoint.decodeChunk (α := UInt16) (utf16Block simd false) (decodeUtf16 false) capacity capacity data
  | .utf32, capacity, data => Codepoint.decodeChunk (α := UInt32) (utf32Block simd) decodeUtf32 capacity capacity data

def Form.appendChunk : (A : Form) → List ℕ → List A.Unit
  | .utf8 => appendUtf8Chunk
  | .utf16 => appendUtf16Chunk
  | .utf32 => appendUtf32Chunk

/-- `decode_utf8`, `decode_utf16` and `encode_utf32`, to each kind of string. -/
def Form.transcode (simd : Simd) (A B : Form) (data : List A.Unit) : List B.Unit :=
  Codepoint.transcode (A.decodeChunk simd) B.appendChunk data.length data

end NeForce.Codepoint
