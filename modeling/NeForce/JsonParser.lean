import NeForce.Json
import NeForce.Words

/-! # The JSON parser

A cursor is the text from it to the end, so that `end - cursor` is its length and a read behind the end is
`Failure.outOfBounds`.  Loops take their number of turns; one that has too few ends with `Failure.fuel`. -/

namespace NeForce.Json

inductive Failure where
  | exception (info : String)
  | outOfBounds
  | fuel
deriving DecidableEq

/-- The conversions to floating point numbers. -/
structure Doubles (D : Type) where
  /-- A significand, exactly representable, times a power of ten that is. -/
  scale : Bool → ℕ → ℤ → D
  parseDoubleExact : Bytes → Option D
  toFloat64 : Bytes → D
  write : D → Bytes

variable {D : Type} (doubles : Doubles D) (owning : Bool)

/-! ### Cursors -/

/-- `cursor[k]`. -/
def readAt (cursor : Bytes) (k : ℕ) : Except Failure UInt8 :=
  match cursor[k]? with
  | some c => .ok c
  | none => .error .outOfBounds

/-- `cursor += k`. -/
def advance (k : ℕ) (cursor : Bytes) : Except Failure Bytes :=
  if k ≤ cursor.length then .ok (cursor.drop k) else .error .outOfBounds

/-- The eight bytes at the cursor as a word. -/
def readWord (cursor : Bytes) : Except Failure (BitVec 64) :=
  if 8 ≤ cursor.length then .ok (BitVec.ofNat 64 (readLe (cursor.take 8))) else .error .outOfBounds

def isSpace (c : UInt8) : Bool := c = 0x20 || c = 0x09 || c = 0x0A || c = 0x0D

def skipSpace : Bytes → Bytes
  | [] => []
  | c :: cursor => if isSpace c then skipSpace cursor else c :: cursor

def isDigit (c : UInt8) : Bool := 0x30 ≤ c && c ≤ 0x39

/-! ### Strings -/

def hasZero (value : BitVec 64) : BitVec 64 := (value - 0x0101010101010101#64) &&& ~~~value &&& 0x8080808080808080#64

/-- The quotes, backslashes and control characters of a word. -/
def specialMask (word : BitVec 64) : BitVec 64 :=
  hasZero (word ^^^ 0x2222222222222222#64) ||| hasZero (word ^^^ 0x5C5C5C5C5C5C5C5C#64) |||
    hasZero (word &&& 0xE0E0E0E0E0E0E0E0#64)

inductive ScanStatus where
  | ok
  | controlCharacter
  | unterminated
deriving DecidableEq

/-- Where the next turn of `scan_string` goes on. -/
inductive Seek where
  | word (cursor : Bytes)
  | char (cursor : Bytes)
  | finished

def seek (cursor : Bytes) : Except Failure Seek :=
  if 8 ≤ cursor.length then do
    let mask := specialMask (← readWord cursor)
    if mask = 0 then
      .ok (.word (← advance 8 cursor))
    else
      .ok (.char (← advance (countrZero mask.toNat >>> 3) cursor))
  else if cursor = [] then .ok .finished
  else .ok (.char cursor)

/-- The loop of `scan_string`: its status, the cursor at its end, and whether there are escapes. -/
def scanLoop : ℕ → Bytes → Bool → Except Failure (ScanStatus × Bytes × Bool)
  | 0, _, _ => .error .fuel
  | n + 1, cursor, escaped => do
      match ← seek cursor with
      | .finished => .ok (.unterminated, cursor, escaped)
      | .word cursor => scanLoop n cursor escaped
      | .char cursor =>
          let c ← readAt cursor 0
          if c = 0x22 then .ok (.ok, cursor, escaped)
          else if c = 0x5C then
            let cursor ← advance 1 cursor
            scanLoop n (if cursor = [] then cursor else cursor.drop 1) true
          else if c < 0x20 then .ok (.controlCharacter, cursor, escaped)
          else scanLoop n (← advance 1 cursor) escaped

/-- What `scan_string` has found: the text between the quotes, whether it has escapes, and the cursor behind it. -/
structure Scan where
  text : Bytes
  escaped : Bool
  cursor : Bytes

def scanString (cursor : Bytes) : Except Failure Scan := do
  let start ← advance 1 cursor
  let (status, finish, escaped) ← scanLoop (start.length + 1) start false
  match status with
  | .ok => .ok ⟨start.take (start.length - finish.length), escaped, ← advance 1 finish⟩
  | .controlCharacter => .error (.exception "JSON string contains control character.")
  | .unterminated => .error (.exception "JSON string not terminated.")

def hexValue (c : UInt8) : ℤ :=
  if 0x30 ≤ c ∧ c ≤ 0x39 then c.toNat - 0x30
  else if 0x61 ≤ c ∧ c ≤ 0x66 then c.toNat - 0x61 + 10
  else if 0x41 ≤ c ∧ c ≤ 0x46 then c.toNat - 0x41 + 10
  else -1

def appendUtf8 (codePoint : ℕ) : Bytes :=
  if codePoint ≤ 0x7F then [.ofNat codePoint]
  else if codePoint ≤ 0x7FF then [.ofNat (0xC0 ||| codePoint >>> 6), .ofNat (0x80 ||| codePoint &&& 0x3F)]
  else if codePoint ≤ 0xFFFF then
    [.ofNat (0xE0 ||| codePoint >>> 12), .ofNat (0x80 ||| codePoint >>> 6 &&& 0x3F), .ofNat (0x80 ||| codePoint &&& 0x3F)]
  else
    [.ofNat (0xF0 ||| codePoint >>> 18), .ofNat (0x80 ||| codePoint >>> 12 &&& 0x3F),
      .ofNat (0x80 ||| codePoint >>> 6 &&& 0x3F), .ofNat (0x80 ||| codePoint &&& 0x3F)]

/-- The hexadecimal digits of `cursor` from `k` on, `n` of them. -/
def hexDigits (cursor : Bytes) : ℕ → ℕ → ℕ → Except Failure ℕ
  | 0, _, code => .ok code
  | n + 1, k, code => do
      let v := hexValue (← readAt cursor k)
      if v < 0 then .error (.exception "JSON invalid unicode escape.")
      else hexDigits cursor n (k + 1) (code <<< 4 ||| v.toNat)

def simpleEscape (c : UInt8) : Option UInt8 :=
  if c = 0x22 then some 0x22
  else if c = 0x5C then some 0x5C
  else if c = 0x2F then some 0x2F
  else if c = 0x62 then some 0x08
  else if c = 0x66 then some 0x0C
  else if c = 0x6E then some 0x0A
  else if c = 0x72 then some 0x0D
  else if c = 0x74 then some 0x09
  else none

/-- The escape whose `u` is at the cursor: the code point, and the cursor at its last digit. -/
def unicodeEscape (cursor : Bytes) : Except Failure (ℕ × Bytes) :=
  if cursor.length < 5 then .error (.exception "JSON invalid unicode escape.")
  else do
    let code ← hexDigits cursor 4 1 0
    let cursor ← advance 4 cursor
    if 0xD800 ≤ code ∧ code ≤ 0xDBFF then
      if cursor.length ≤ 6 then .error (.exception "JSON unpaired high surrogate.")
      else if (← readAt cursor 1) ≠ 0x5C then .error (.exception "JSON unpaired high surrogate.")
      else if (← readAt cursor 2) ≠ 0x75 then .error (.exception "JSON unpaired high surrogate.")
      else do
        let low ← hexDigits cursor 4 3 0
        if low < 0xDC00 ∨ 0xDFFF < low then .error (.exception "JSON invalid low surrogate.")
        else .ok (0x10000 + (code - 0xD800) <<< 10 + (low - 0xDC00), ← advance 6 cursor)
    else if 0xDC00 ≤ code ∧ code ≤ 0xDFFF then .error (.exception "JSON unpaired low surrogate.")
    else .ok (code, cursor)

def decodeLoop : ℕ → Bytes → Except Failure Bytes
  | 0, _ => .error .fuel
  | _ + 1, [] => .ok []
  | n + 1, c :: cursor =>
      if c ≠ 0x5C then do
        let out ← decodeLoop n cursor
        .ok (c :: out)
      else
        match cursor with
        | [] => .error (.exception "JSON invalid escape.")
        | e :: rest =>
            match simpleEscape e with
            | some b => do
                let out ← decodeLoop n rest
                .ok (b :: out)
            | none =>
                if e = 0x75 then do
                  let (code, cursor) ← unicodeEscape cursor
                  let out ← decodeLoop n (← advance 1 cursor)
                  .ok (appendUtf8 code ++ out)
                else .error (.exception "JSON invalid escape.")

def decodeString (text : Bytes) : Except Failure Bytes := decodeLoop (text.length + 1) text

def parseString (cursor : Bytes) : Except Failure (Value D × Bytes) := do
  if cursor.head? ≠ some 0x22 then .error (.exception "JSON string expected.")
  else
    let scan ← scanString cursor
    if !scan.escaped then
      .ok (if owning then makeStringValue scan.text else makeString scan.text, scan.cursor)
    else
      .ok (makeStringValue (← decodeString scan.text), scan.cursor)

/-! ### Numbers -/

/-- The digits of a number so far. -/
structure Decimal where
  significand : ℕ := 0
  exponent : ℤ := 0
  overflow : Bool := false
  truncated : Bool := false

def pushDigit (significand digit : ℕ) : ℕ := (significand * 10 + digit) % 2 ^ 64

/-- An `int` that wraps around. -/
def wrapInt (n : ℤ) : ℤ := Int.bmod n (2 ^ 32)

/-- No other digit fits into 64 bits. -/
def Decimal.isFull (d : Decimal) (digit : ℕ) : Bool :=
  1844674407370955161 < d.significand || (d.significand = 1844674407370955161 && 5 < digit)

def Decimal.integerDigit (d : Decimal) (digit : ℕ) : Decimal :=
  if d.overflow then { d with exponent := wrapInt (d.exponent + 1), truncated := d.truncated || digit ≠ 0 }
  else if d.isFull digit then { d with overflow := true, exponent := wrapInt (d.exponent + 1), truncated := digit ≠ 0 }
  else { d with significand := pushDigit d.significand digit }

def Decimal.fractionDigit (d : Decimal) (digit : ℕ) : Decimal :=
  if d.overflow then { d with truncated := d.truncated || digit ≠ 0 }
  else if d.isFull digit then { d with overflow := true, truncated := digit ≠ 0 }
  else { d with significand := pushDigit d.significand digit, exponent := wrapInt (d.exponent - 1) }

/-- A loop over digits, at most `n`. -/
def digitLoop (f : σ → ℕ → σ) : ℕ → Bytes → σ → σ × Bytes
  | 0, cursor, s => (s, cursor)
  | _ + 1, [], s => (s, [])
  | n + 1, c :: cursor, s => if isDigit c then digitLoop f n cursor (f s (c.toNat - 0x30)) else (s, c :: cursor)

def fastDigits : ℕ := 18

def isDigitAt (cursor : Bytes) : Bool := cursor.head?.any isDigit

def parseIntegerPart (cursor : Bytes) : Except Failure (Decimal × Bytes) := do
  if (← readAt cursor 0) = 0x30 then
    let cursor ← advance 1 cursor
    if isDigitAt cursor then .error (.exception "JSON number has leading zero.")
    else .ok ({}, cursor)
  else
    let (significand, cursor) := digitLoop pushDigit fastDigits cursor 0
    .ok (digitLoop Decimal.integerDigit cursor.length cursor { significand })

def parseFraction (d : Decimal) (cursor : Bytes) : Except Failure (Decimal × Bool × Bytes) := do
  if cursor.head? = some 0x2E then
    let cursor ← advance 1 cursor
    if !isDigitAt cursor then .error (.exception "JSON fraction requires digits.")
    else
      let (d, cursor) := digitLoop Decimal.fractionDigit cursor.length cursor d
      .ok (d, true, cursor)
  else .ok (d, false, cursor)

def exponentDigit (written digit : ℕ) : ℕ := if written < 100000 then written * 10 + digit else written

def parseExponent (d : Decimal) (real : Bool) (cursor : Bytes) : Except Failure (Decimal × Bool × Bytes) := do
  if cursor.head? = some 0x65 ∨ cursor.head? = some 0x45 then
    let cursor ← advance 1 cursor
    let exponentNegative := decide (cursor.head? = some 0x2D)
    let cursor ← if cursor.head? = some 0x2B ∨ cursor.head? = some 0x2D then advance 1 cursor else .ok cursor
    if !isDigitAt cursor then .error (.exception "JSON exponent requires digits.")
    else
      let (written, cursor) := digitLoop exponentDigit cursor.length cursor 0
      let exponent := wrapInt (d.exponent + if exponentNegative then -(written : ℤ) else written)
      .ok ({ d with exponent }, true, cursor)
  else .ok (d, real, cursor)

/-- `static_cast<int64_t>` of a 64-bit number. -/
def toInt64 (n : ℕ) : ℤ := Int.bmod n (2 ^ 64)

def int64Max : ℕ := 2 ^ 63 - 1

def exactMantissa : ℕ := 2 ^ 53

def realValue (negative : Bool) (d : Decimal) (text : Bytes) : Value D :=
  if !d.overflow && !d.truncated && d.significand ≤ exactMantissa && -22 ≤ d.exponent && d.exponent ≤ 22 then
    .real (doubles.scale negative d.significand d.exponent)
  else .real ((doubles.parseDoubleExact text).getD (doubles.toFloat64 text))

def numberValue (negative : Bool) (d : Decimal) (real : Bool) (text : Bytes) : Value D :=
  if !real && !d.overflow then
    if negative then
      if d.significand ≤ int64Max + 1 then .integer (toInt64 (2 ^ 64 - d.significand)) else realValue doubles negative d text
    else if d.significand ≤ int64Max then .integer (toInt64 d.significand)
    else .uinteger d.significand
  else realValue doubles negative d text

/-- `parse_number` behind the sign. -/
def parseUnsigned (negative : Bool) (start cursor : Bytes) : Except Failure (Value D × Bytes) :=
  if !isDigitAt cursor then .error (.exception "JSON invalid number.")
  else do
    let (d, cursor) ← parseIntegerPart cursor
    let (d, real, cursor) ← parseFraction d cursor
    let (d, real, cursor) ← parseExponent d real cursor
    .ok (numberValue doubles negative d real (start.take (start.length - cursor.length)), cursor)

def parseNumber (start : Bytes) : Except Failure (Value D × Bytes) := do
  if (← readAt start 0) = 0x2D then parseUnsigned doubles true start (← advance 1 start)
  else parseUnsigned doubles false start start

/-! ### Values -/

/-- Whether the cursor has these letters from `k` on. -/
def lettersAt (cursor : Bytes) : ℕ → Bytes → Except Failure Bool
  | _, [] => .ok true
  | k, c :: word => do
      if (← readAt cursor k) = c then lettersAt cursor (k + 1) word else .ok false

/-- The keyword with this first letter, and its value. -/
def keywordOf (c : UInt8) : Option (Bytes × Value D) :=
  if c = 0x74 then some (ascii "true", .boolean true)
  else if c = 0x66 then some (ascii "false", .boolean false)
  else if c = 0x6E then some (ascii "null", .null)
  else none

def parseKeyword (cursor : Bytes) : Except Failure (Value D × Bytes) := do
  match keywordOf (← readAt cursor 0) with
  | none => .error (.exception "JSON invalid keyword.")
  | some (word, value) =>
      if cursor.length < word.length then .error (.exception "JSON invalid keyword.")
      else if ← lettersAt cursor 1 word.tail then .ok (value, ← advance word.length cursor)
      else .error (.exception "JSON invalid keyword.")

mutual

def parseValue : ℕ → Bytes → Except Failure (Value D × Bytes)
  | 0, _ => .error .fuel
  | n + 1, cursor =>
      match skipSpace cursor with
      | [] => .error (.exception "JSON value expected.")
      | c :: cursor =>
          if c = 0x7B then parseObject n (c :: cursor)
          else if c = 0x5B then parseArray n (c :: cursor)
          else if c = 0x22 then parseString owning (c :: cursor)
          else if c = 0x74 ∨ c = 0x66 ∨ c = 0x6E then parseKeyword (c :: cursor)
          else parseNumber doubles (c :: cursor)

def parseArray : ℕ → Bytes → Except Failure (Value D × Bytes)
  | 0, _ => .error .fuel
  | n + 1, cursor => do
      let cursor ← advance 1 cursor
      let body := skipSpace cursor
      if body.head? = some 0x5D then .ok (.array [], ← advance 1 body)
      else arrayLoop n [] cursor

/-- The loop of `parse_array`, with the elements so far. -/
def arrayLoop : ℕ → List (Value D) → Bytes → Except Failure (Value D × Bytes)
  | 0, _, _ => .error .fuel
  | n + 1, node, cursor => do
      let (value, cursor) ← parseValue n cursor
      let node := arrayAppend node value
      let cursor := skipSpace cursor
      if cursor.head? = some 0x2C then arrayLoop n node (← advance 1 cursor)
      else if cursor.head? = some 0x5D then .ok (.array node, ← advance 1 cursor)
      else .error (.exception "JSON array not terminated.")

def parseObject : ℕ → Bytes → Except Failure (Value D × Bytes)
  | 0, _ => .error .fuel
  | n + 1, cursor => do
      let cursor ← advance 1 cursor
      let body := skipSpace cursor
      if body.head? = some 0x7D then .ok (.object [], ← advance 1 body)
      else objectLoop n [] cursor

/-- The loop of `parse_object`, with the members so far. -/
def objectLoop : ℕ → List (Key × Value D) → Bytes → Except Failure (Value D × Bytes)
  | 0, _, _ => .error .fuel
  | n + 1, node, cursor => do
      let cursor := skipSpace cursor
      if cursor.head? ≠ some 0x22 then .error (.exception "JSON object key expected.")
      else
        let scan ← scanString cursor
        let key ← if scan.escaped then storeString <$> decodeString scan.text else .ok scan.text
        let cursor := skipSpace scan.cursor
        if cursor.head? ≠ some 0x3A then .error (.exception "JSON object key not followed by colon.")
        else
          let (value, cursor) ← parseValue n (← advance 1 cursor)
          let node := objectAppend node key value owning
          let cursor := skipSpace cursor
          if cursor.head? = some 0x2C then objectLoop n node (← advance 1 cursor)
          else if cursor.head? = some 0x7D then .ok (.object node, ← advance 1 cursor)
          else .error (.exception "JSON object not terminated.")

end

/-- `json_parser::parse` of a zero-copy or an owning parser. -/
def parse (text : Bytes) : Except Failure (Value D) := do
  let (value, cursor) ← parseValue doubles owning (3 * text.length + 1) text
  if skipSpace cursor ≠ [] then .error (.exception "JSON trailing content.")
  else .ok value

end NeForce.Json
