import NeForce.JsonParser

/-! # The JSON writer

The text of a value, as `to_string` and `to_indented_string` put it together.  Keys and short strings are made in
buffers of a fixed size; more than fits is `Failure.outOfBounds`, and so is a key that cannot be viewed.  The bytes of a
member behind an inlined key are not initialised: `junk` is any value that they may have. -/

namespace NeForce.Json

variable {D : Type} (doubles : Doubles D) (junk : Key → ℕ)

/-! ### Numbers -/

def digitPairs : Bytes :=
  ascii "00010203040506070809101112131415161718192021222324252627282930313233343536373839" ++
    ascii "40414243444546474849505152535455565758596061626364656667686970717273747576777879" ++
    ascii "8081828384858687888990919293949596979899"

def pairDigit (i : ℕ) : UInt8 := digitPairs.getD i 0

def maxIntegerChars : ℕ := 20

/-- The loop of `write_uinteger`: the digits, last one first. -/
def reversedDigits : ℕ → ℕ → Bytes
  | 0, _ => []
  | n + 1, value =>
      if 100 ≤ value then
        pairDigit (value % 100 * 2 + 1) :: pairDigit (value % 100 * 2) :: reversedDigits n (value / 100)
      else if 10 ≤ value then [pairDigit (value * 2 + 1), pairDigit (value * 2)]
      else [.ofNat (0x30 + value)]

def writeUinteger (value : ℕ) : Bytes := (reversedDigits maxIntegerChars value).reverse

def writeInteger (value : ℤ) : Bytes :=
  if value < 0 then 0x2D :: writeUinteger ((2 ^ 64 - (value % 2 ^ 64)) % 2 ^ 64).toNat else writeUinteger value.toNat

/-! ### Strings -/

def needsEscape (c : UInt8) : Bool := c < 0x20 || c = 0x22 || c = 0x5C

def wordNeedsEscape (word : BitVec 64) : Bool :=
  let control := (word - 0x20#64 * 0x0101010101010101#64) &&& ~~~word &&& 0x8080808080808080#64
  control ||| hasZero (word ^^^ 0x2222222222222222#64) ||| hasZero (word ^^^ 0x5C5C5C5C5C5C5C5C#64) ≠ 0

def hexDigit (n : UInt8) : UInt8 := (ascii "0123456789abcdef").getD n.toNat 0

def appendEscape (c : UInt8) : Bytes :=
  if c = 0x22 then [0x5C, 0x22]
  else if c = 0x5C then [0x5C, 0x5C]
  else if c = 0x08 then [0x5C, 0x62]
  else if c = 0x0C then [0x5C, 0x66]
  else if c = 0x0A then [0x5C, 0x6E]
  else if c = 0x0D then [0x5C, 0x72]
  else if c = 0x09 then [0x5C, 0x74]
  else [0x5C, 0x75, 0x30, 0x30, hexDigit (c >>> 4 &&& 0x0F), hexDigit (c &&& 0x0F)]

/-- A buffer with room for `capacity` bytes. -/
def scratch (capacity : ℕ) (bytes : Bytes) : Except Failure Bytes :=
  if bytes.length ≤ capacity then .ok bytes else .error .outOfBounds

def shortStringLimit : ℕ := 16

def shortStringScratch : ℕ := 256

def buildQuoted (text : Bytes) : Bytes :=
  0x22 :: (text.flatMap fun c => if needsEscape c then appendEscape c else [c]) ++ [0x22]

/-- The loop over words without escapes, at most `n` of them. -/
def skipWords : ℕ → Bytes → Except Failure Bytes
  | 0, cursor => .ok cursor
  | n + 1, cursor =>
      if 8 ≤ cursor.length then do
        if wordNeedsEscape (← readWord cursor) then .ok cursor else skipWords n (← advance 8 cursor)
      else .ok cursor

/-- The loop of `append_escaped`; `run` is the text that is not yet written. -/
def escapeLoop : ℕ → Bytes → Bytes → Except Failure Bytes
  | 0, _, _ => .error .fuel
  | n + 1, run, cursor => do
      let cursor ← skipWords cursor.length cursor
      let cursor := if 8 ≤ cursor.length then cursor.dropWhile (!needsEscape ·) else cursor
      match cursor with
      | [] => .ok run
      | c :: rest =>
          if !needsEscape c then escapeLoop n run rest
          else
            let out ← escapeLoop n rest rest
            .ok (run.take (run.length - (c :: rest).length) ++ (appendEscape c ++ out))

def appendEscaped (text : Bytes) : Except Failure Bytes :=
  if text.length ≤ shortStringLimit then scratch shortStringScratch (buildQuoted text)
  else do
    let out ← escapeLoop (text.length + 1) text text
    .ok (0x22 :: out ++ [0x22])

/-! ### Values -/

def appendIndent (depth width : ℕ) : Bytes := 0x0A :: List.replicate (depth * width % 2 ^ 64) 0x20

/-- The eight bytes of `key_data`. -/
def Key.word (key : Key) : BitVec 64 := .ofNat 64 (readLe key.text + 256 ^ key.text.length * junk key)

def comma (first : Bool) : Bytes := if first then [] else [0x2C]

/-- An inlined key, from the word that holds it. -/
def inlinedHead (key : Key) (view : Bytes) (first : Bool) : Except Failure Bytes :=
  let mask := if view.length = 8 then ~~~0#64 else 1#64 <<< (view.length * 8) - 1
  let probe := key.word junk &&& mask ||| ~~~mask &&& 0x7878787878787878#64
  if !wordNeedsEscape probe then scratch 16 (comma first ++ (0x22 :: view ++ [0x22, 0x3A]))
  else scratch 16 (comma first ++ (buildQuoted view ++ [0x22, 0x3A]))

/-- What `write_object` puts before a member's value. -/
def memberHead (depth indent : ℕ) (key : Key) (first : Bool) : Except Failure Bytes :=
  match key.view with
  | none => .error .outOfBounds
  | some view =>
      if indent = 0 ∧ key.inlined then inlinedHead junk key view first
      else if indent = 0 ∧ view.length ≤ shortStringLimit then
        scratch shortStringScratch (comma first ++ (buildQuoted view ++ [0x3A]))
      else do
        let quoted ← appendEscaped view
        .ok (comma first ++ ((if indent ≠ 0 then appendIndent (depth + 1) indent else []) ++
          (quoted ++ (0x3A :: if indent ≠ 0 then [0x20] else []))))

def closing (depth indent : ℕ) : Bytes := if indent ≠ 0 then appendIndent depth indent else []

mutual

def writeValue (depth indent : ℕ) : Value D → Except Failure Bytes
  | .null => .ok (ascii "null")
  | .boolean b => .ok (ascii (if b then "true" else "false"))
  | .integer n => .ok (writeInteger n)
  | .uinteger n => .ok (writeUinteger n)
  | .real d => .ok (doubles.write d)
  | .string s => appendEscaped s
  | .array [] => .ok (ascii "[]")
  | .array (e :: es) => do
      let out ← writeElements depth indent true (e :: es)
      .ok (0x5B :: (out ++ (closing depth indent ++ [0x5D])))
  | .object [] => .ok (ascii "\x7b\x7d")
  | .object (m :: ms) => do
      let out ← writeMembers depth indent true (m :: ms)
      .ok (0x7B :: (out ++ (closing depth indent ++ [0x7D])))

def writeElements (depth indent : ℕ) (first : Bool) : List (Value D) → Except Failure Bytes
  | [] => .ok []
  | e :: es => do
      let out ← writeValue (depth + 1) indent e
      let rest ← writeElements depth indent false es
      .ok (comma first ++ (closing (depth + 1) indent ++ (out ++ rest)))

def writeMembers (depth indent : ℕ) (first : Bool) : List (Key × Value D) → Except Failure Bytes
  | [] => .ok []
  | (key, e) :: ms => do
      let head ← memberHead junk depth indent key first
      let out ← writeValue (depth + 1) indent e
      let rest ← writeMembers depth indent false ms
      .ok (head ++ (out ++ rest))

end

def toString (v : Value D) : Except Failure Bytes := writeValue doubles junk 0 0 v

def toIndentedString (v : Value D) (indent : ℕ) : Except Failure Bytes := writeValue doubles junk 0 indent v

end NeForce.Json
