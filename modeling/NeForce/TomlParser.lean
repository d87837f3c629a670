import NeForce.Codepoint
import NeForce.TomlRuns

/-! # The TOML parser

Values, keys and tables.  Pointers to tables are paths from the root; `float64::parse` and `to_int64` are parameters, and a
date or time is kept as its text. -/

open NeForce.Toml.Parser

namespace NeForce.Toml

/-- The conversions of numbers, `none` where they throw. -/
structure Conversions (F : Type) where
  parseFloat : Bytes → Option F
  toInt64 : ℕ → Bytes → Option ℤ

inductive StringType
  | basic
  | literal
  | multiBasic
  | multiLiteral

inductive DatetimeType
  | offsetDateTime
  | localDateTime
  | localDate
  | localTime

inductive Value (F : Type)
  | string (value : Bytes) (type : StringType)
  | integer (value : ℤ)
  | float (value : F)
  | boolean (value : Bool)
  | datetime (text : Bytes) (type : DatetimeType)
  | array (elements : List (Value F))
  | table (isInline : Bool) (members : List (Bytes × Value F))

variable {text : Bytes} {F : Type} (conv : Conversions F)

/-! ### Characters -/

def isSpace (c : UInt8) : Bool := c = 0x09 || c = 0x0A || c = 0x0B || c = 0x0C || c = 0x0D || c = 0x20

def isBlank (c : UInt8) : Bool := c = 0x20 || c = 0x09

def isDigit (c : UInt8) : Bool := 0x30 ≤ c && c ≤ 0x39

def isAlpha (c : UInt8) : Bool := 0x41 ≤ c && c ≤ 0x5A || 0x61 ≤ c && c ≤ 0x7A

def isXdigit (c : UInt8) : Bool := isDigit c || 0x41 ≤ c && c ≤ 0x46 || 0x61 ≤ c && c ≤ 0x66

def quote : UInt8 := 0x22

def apostrophe : UInt8 := 0x27

def backslash : UInt8 := 0x5C

def hexChar (n : UInt8) : UInt8 := if n < 10 then 0x30 + n else 0x57 + n

/-- `escape` of one character. -/
def escapeChar (c : UInt8) : Bytes :=
  if c = quote then ascii "\\\""
  else if c = apostrophe then ascii "\\'"
  else if c = backslash then ascii "\\\\"
  else if c = 0x08 then ascii "\\b"
  else if c = 0x0C then ascii "\\f"
  else if c = 0x0A then ascii "\\n"
  else if c = 0x0D then ascii "\\r"
  else if c = 0x09 then ascii "\\t"
  else if c = 0x0B then ascii "\\v"
  else if c < 0x20 then ascii "\\u00" ++ [hexChar (c >>> 4 &&& 0x0F), hexChar (c &&& 0x0F)]
  else [c]

def hexDigitValue (c : UInt8) : ℕ :=
  if isDigit c then c.toNat - 0x30 else if c ≤ 0x46 then c.toNat - 0x37 else c.toNat - 0x57

def hexadecimal (digits : Bytes) : ℕ := digits.foldl (fun n c => n * 16 + hexDigitValue c) 0

def expect (ch : UInt8) : Parser text Unit := do
  let c ← current
  if c ≠ ch then throwParseError (ascii "expected '" ++ ch :: ascii "' but got '" ++ escapeChar c ++ ascii "'")
  else advance

/-- `while (!eof() && p(current())) advance();` -/
def advanceWhile (p : UInt8 → Bool) : Parser text Unit := turns () fun _ => do
  if !(← eof) && p (← current) then
    advance
    return .inl ()
  else return .inr ()

/-! ### Skipping -/

def skipWhitespace : Parser text Unit := skip isSpace

def skipWhitespaceNoNewline : Parser text Unit := skip isBlank

def skipComment : Parser text Unit := do
  if (← current) = 0x23 then skip (· ≠ newline) else return

def skipWhitespaceAndComments : Parser text Unit := turns () fun _ => do
  if ← eof then return .inr ()
  skipWhitespace
  let c ← current
  if c = 0x23 then
    skipComment
    return .inl ()
  else if c = newline || c = 0x0D then
    advance
    return .inl ()
  else return .inr ()

/-! ### Strings -/

def parseUnicodeEscape (digits : ℕ) : Parser text Bytes := do
  let start ← position
  loop (fun i => do
    if i = 0 then return .inr ()
    if (← eof) || !isXdigit (← current) then throwParseError (ascii "Invalid unicode escape sequence")
    else
      advance
      return .inl (i - 1)) (digits + 1) digits
  let value := hexadecimal (← textFrom start)
  if !Codepoint.isValidCodepoint value then throwParseError (ascii "Invalid unicode codepoint")
  else return Codepoint.appendUtf8Char value

/-- The escapes of one character. -/
def simpleEscape (c : UInt8) : Option UInt8 :=
  if c = 0x62 then some 0x08
  else if c = 0x74 then some 0x09
  else if c = 0x6E then some 0x0A
  else if c = 0x66 then some 0x0C
  else if c = 0x72 then some 0x0D
  else if c = quote then some quote
  else if c = backslash then some backslash
  else none

/-- The `switch` behind a backslash; a basic string checks the end of the text behind `u` and `U`. -/
def parseEscape (checksEnd : Bool) : Parser text Bytes := do
  let c ← current
  if c = 0x75 || c = 0x55 then
    advance
    if checksEnd && (← eof) then throwParseError (ascii "Unexpected end after \\" ++ [c])
    else parseUnicodeEscape (if c = 0x75 then 4 else 8)
  else
    match simpleEscape c with
    | some b =>
      advance
      return [b]
    | none => throwParseError (ascii "Invalid escape sequence: \\" ++ [c])

def parseBasicString : Parser text (Value F) := do
  expect quote
  turns [] fun result => do
    let result := result ++ (← plain (fun c => c ≠ quote && c ≠ backslash && c ≠ newline) false (fun _ => by decide))
    if ← eof then
      expect quote
      return .inr (.string result .basic)
    let c ← current
    if c = quote then
      advance
      return .inr (.string result .basic)
    else if c = newline then throwParseError (ascii "Unescaped newline in basic string")
    else
      advance
      if ← eof then throwParseError (ascii "Unexpected end in string escape")
      else return .inl (result ++ (← parseEscape true))

def parseLiteralString : Parser text (Value F) := do
  expect apostrophe
  turns [] fun result => do
    let result := result ++ (← plain (fun c => c ≠ apostrophe && c ≠ newline) false (fun _ => by decide))
    if ← eof then
      expect apostrophe
      return .inr (.string result .literal)
    if (← current) = apostrophe then
      advance
      return .inr (.string result .literal)
    else throwParseError (ascii "Unescaped newline in literal string")

/-- The newline behind the three quotation marks. -/
def skipFirstNewline : Parser text Unit := do
  if (← current) = newline then advance
  else if (← current) = 0x0D && (← peek 1) = newline then
    advance
    advance
  else return

/-- A newline behind a backslash, with the white space after it. -/
def continueLine : Parser text Bool := do
  if (← current) = newline then
    advance
    skipWhitespace
    return true
  else if (← current) = 0x0D && (← peek 1) = newline then
    advance
    advance
    skipWhitespace
    return true
  else return false

/-- Both loops over several lines return what they have where the text ends. -/
def parseMultilineBasicString : Parser text (Value F) := do
  expect quote
  expect quote
  expect quote
  skipFirstNewline
  turns [] fun result => do
    let result := result ++ (← plain (fun c => c ≠ quote && c ≠ backslash) true (fun h => nomatch h))
    if ← eof then return .inr (.string result .multiBasic)
    let c ← current
    if c = quote then
      if (← peek 1) = quote && (← peek 2) = quote then
        advance
        advance
        advance
        return .inr (.string result .multiBasic)
      else
        advance
        return .inl (result ++ [quote])
    else
      advance
      if ← eof then throwParseError (ascii "Unexpected end in string escape")
      else if ← continueLine then return .inl result
      else if isBlank (← current) then
        skipWhitespace
        if ← continueLine then return .inl result
        else return .inl (result ++ (← parseEscape false))
      else return .inl (result ++ (← parseEscape false))

def parseMultilineLiteralString : Parser text (Value F) := do
  expect apostrophe
  expect apostrophe
  expect apostrophe
  skipFirstNewline
  turns [] fun result => do
    let result := result ++ (← plain (· ≠ apostrophe) true (fun h => nomatch h))
    if ← eof then return .inr (.string result .multiLiteral)
    if (← peek 1) = apostrophe && (← peek 2) = apostrophe then
      advance
      advance
      advance
      return .inr (.string result .multiLiteral)
    else
      advance
      return .inl (result ++ [apostrophe])

def parseString : Parser text (Value F) := do
  let c ← current
  if c = quote then
    if (← peek 1) = quote && (← peek 2) = quote then parseMultilineBasicString else parseBasicString
  else if c = apostrophe then
    if (← peek 1) = apostrophe && (← peek 2) = apostrophe then parseMultilineLiteralString else parseLiteralString
  else throwParseError (ascii "Expected string")

/-! ### Numbers, booleans and dates -/

def withoutUnderscores (s : Bytes) : Bytes := s.filter (· ≠ 0x5F)

def isDigitOrUnderscore (c : UInt8) : Bool := isDigit c || c = 0x5F

def isBaseDigit (base : ℕ) (c : UInt8) : Bool :=
  if base = 2 then c = 0x30 || c = 0x31
  else if base = 8 then 0x30 ≤ c && c ≤ 0x37
  else if base = 16 then isXdigit c
  else isDigit c

def parseInteger (base : ℕ) : Parser text (Value F) := do
  let start ← position
  advanceWhile fun c => c = 0x5F || isBaseDigit base c
  let numStr ← textFrom start
  if !numStr.any (isBaseDigit base) then throwParseError (ascii "Expected digit in integer")
  else
    match conv.toInt64 base (withoutUnderscores numStr) with
    | some value => return .integer value
    | none => throwParseError (ascii "Invalid integer value: " ++ withoutUnderscores numStr)

/-- The prefix of an integer that is not decimal, and its base. -/
def basePrefix (next : UInt8) : Option (ℕ × Bytes) :=
  if next = 0x78 || next = 0x58 then some (16, ascii "Sign not allowed for hexadecimal integer")
  else if next = 0x6F || next = 0x4F then some (8, ascii "Sign not allowed for octal integer")
  else if next = 0x62 || next = 0x42 then some (2, ascii "Sign not allowed for binary integer")
  else none

/-- The fraction and the exponent, if they are there. -/
def parseFraction : Parser text Bool := do
  if (← current) ≠ 0x2E then return false
  advance
  if !isDigit (← current) then throwParseError (ascii "Expected digit after decimal point")
  else
    advanceWhile isDigitOrUnderscore
    return true

def parseExponent : Parser text Bool := do
  let c ← current
  if c ≠ 0x65 && c ≠ 0x45 then return false
  advance
  let sign ← current
  if sign = 0x2B || sign = 0x2D then advance
  if !isDigit (← current) then throwParseError (ascii "Expected digit in exponent")
  else
    advanceWhile isDigitOrUnderscore
    return true

def hasLeadingZero (numStr : Bytes) : Bool :=
  let digits := match numStr with
    | c :: rest => if c = 0x2B || c = 0x2D then rest else numStr
    | [] => []
  1 < digits.length && digits.head? = some 0x30

def parseDecimal (start : ℕ) : Parser text (Value F) := do
  let digitsStart ← position
  advanceWhile isDigitOrUnderscore
  if !(← textFrom digitsStart).any isDigit then throwParseError (ascii "Expected digit in number")
  else
    let fraction ← parseFraction
    let exponent ← parseExponent
    let numStr := withoutUnderscores (← textFrom start)
    if fraction || exponent then
      match conv.parseFloat numStr with
      | some value => return .float value
      | none => throwParseError (ascii "Invalid numeric value: " ++ numStr)
    else if hasLeadingZero numStr then throwParseError (ascii "Leading zeros are not allowed in decimal integers")
    else
      match conv.toInt64 10 numStr with
      | some value => return .integer value
      | none => throwParseError (ascii "Invalid numeric value: " ++ numStr)

def parseNumber : Parser text (Value F) := do
  let start ← position
  let sign ← current
  let hasSign := sign = 0x2B || sign = 0x2D
  if hasSign then advance
  let c ← current
  if c = 0x69 || c = 0x6E then
    advanceWhile isAlpha
    let numStr ← textFrom start
    match conv.parseFloat numStr with
    | some value => return .float value
    | none => throwParseError (ascii "Invalid special float value: " ++ numStr)
  else
    let next ← peek 1
    match if c = 0x30 then basePrefix next else none with
    | some (base, message) =>
      if hasSign then throwParseError message
      else
        advance
        advance
        parseInteger conv base
    | none => parseDecimal conv start

def parseBoolean : Parser text (Value F) := do
  let start ← position
  let word := (text.drop start).take 5
  if word.take 4 = ascii "true" then
    advance
    advance
    advance
    advance
    return .boolean true
  else if word = ascii "false" then
    advance
    advance
    advance
    advance
    advance
    return .boolean false
  else throwParseError (ascii "Expected boolean value")

def isDatetimeChar (c : UInt8) : Bool :=
  isDigit c || c = 0x2D || c = 0x3A || c = 0x54 || c = 0x5A || c = 0x2B || c = 0x2E || c = 0x20

/-- `rfind('-') > 10`, which also holds where there is none. -/
def lastDashAfterTen (s : Bytes) : Bool := (s.reverse.findIdx? (· = 0x2D)).all fun i => 10 < s.length - 1 - i

def parseDatetime : Parser text (Value F) := do
  let start ← position
  advanceWhile isDatetimeChar
  let dtStr ← textFrom start
  let hasTimeSep := dtStr.contains 0x3A
  if !dtStr.contains 0x2D && !hasTimeSep then throwParseError (ascii "Not a valid datetime format")
  else if dtStr.contains 0x54 || dtStr.contains 0x20 then
    if dtStr.contains 0x5A || dtStr.contains 0x2B || lastDashAfterTen dtStr then
      return .datetime dtStr .offsetDateTime
    else return .datetime dtStr .localDateTime
  else if hasTimeSep then return .datetime dtStr .localTime
  else return .datetime dtStr .localDate

/-- The two attempts at a value that begins with a digit; the second failure is reported where it stands. -/
def parseDatetimeOrNumber : Parser text (Value F) :=
  catchAll parseDatetime fun failure =>
    match failure with
    | .fuel => outOfFuel
    | .parse .. => catchAll (parseNumber conv) fun failure =>
      match failure with
      | .fuel => outOfFuel
      | .parse line column _ => throwAt line column (ascii "Failed to parse numeric or datetime value")

/-! ### Keys -/

def parseBareKey : Parser text Bytes := do
  let start ← position
  advanceWhile fun c => isAlpha c || isDigit c || c = 0x5F || c = 0x2D
  let key ← textFrom start
  if key = [] then throwParseError (ascii "Expected key") else return key

def parseQuotedKey : Parser text Bytes := do
  match ← parseString (F := F) with
  | .string value _ => return value
  | _ => return []

def parseKey : Parser text Bytes := do
  let c ← current
  if c = quote || c = apostrophe then parseQuotedKey (F := F) else parseBareKey

def parseDottedKey : Parser text (List Bytes) := do
  let key ← parseKey (F := F)
  turns [key] fun keys => do
    if (← current) = 0x2E then
      advance
      skipWhitespace
      let key ← parseKey (F := F)
      skipWhitespace
      return .inl (keys ++ [key])
    else return .inr keys

/-! ### Arrays and inline tables -/

def parseArray (parseValue : Parser text (Value F)) : Parser text (Value F) := do
  expect 0x5B
  skipWhitespaceAndComments
  let elements ← turns [] fun elements => do
    if (← eof) || (← current) = 0x5D then return .inr elements
    let element ← parseValue
    skipWhitespaceAndComments
    let c ← current
    if c = 0x2C then
      advance
      skipWhitespaceAndComments
      if (← current) = 0x5D then throwParseError (ascii "Trailing comma is not allowed in array")
      else return .inl (elements ++ [element])
    else if c ≠ 0x5D then throwParseError (ascii "Expected ',' or ']' in array")
    else return .inl (elements ++ [element])
  expect 0x5D
  return .array elements

def parseInlineTable (parseValue : Parser text (Value F)) : Parser text (Value F) := do
  expect 0x7B
  skipWhitespaceNoNewline
  let members ← turns [] fun members => do
    if (← eof) || (← current) = 0x7D then return .inr members
    let key ← parseKey (F := F)
    skipWhitespaceNoNewline
    expect 0x3D
    skipWhitespaceNoNewline
    let value ← parseValue
    if (members.lookup key).isSome then throwParseError (ascii "Duplicate key in inline table: " ++ key)
    else
      let members := members ++ [(key, value)]
      skipWhitespaceNoNewline
      let c ← current
      if c = 0x2C then
        advance
        skipWhitespaceNoNewline
        if (← current) = 0x7D then throwParseError (ascii "Trailing comma is not allowed in inline table")
        else return .inl members
      else if c ≠ 0x7D then throwParseError (ascii "Expected ',' or '\x7d' in inline table")
      else return .inl members
  expect 0x7D
  return .table true members

/-- The fuel bounds how deep values are nested. -/
def parseValue : ℕ → Parser text (Value F)
  | 0 => outOfFuel
  | fuel + 1 => do
    skipWhitespaceAndComments
    if ← eof then throwParseError (ascii "Unexpected end of input when expecting a value")
    else
      let ch ← current
      if ch = quote || ch = apostrophe then parseString
      else if ch = 0x5B then parseArray (parseValue fuel)
      else if ch = 0x7B then parseInlineTable (parseValue fuel)
      else if ch = 0x74 || ch = 0x66 then parseBoolean
      else if ch = 0x2B || ch = 0x2D || ch = 0x69 || ch = 0x6E then parseNumber conv
      else if isDigit ch then parseDatetimeOrNumber conv
      else throwParseError (ascii "Unexpected character '" ++ ch :: ascii "' when parsing value")

end NeForce.Toml

/-! ## Documents, and the builds of the parser

The tables of a document and `parse`; the builds with vector instructions give what the scalar one gives, at the same line
and column and without a read beyond the end, as long as no block passes a newline or ends the text inside a string. -/


namespace NeForce.Toml

/-! ### Tables -/

/-- A pointer to a table: the way from the root. -/
inductive Place
  | key (k : Bytes)
  | element (i : ℕ)

variable {text : Bytes} {F : Type} (conv : Conversions F)

def valueAt : List Place → Value F → Option (Value F)
  | [], v => some v
  | .key k :: path, .table _ members => (members.lookup k).bind (valueAt path)
  | .element i :: path, .array elements => elements[i]?.bind (valueAt path)
  | _, _ => none

def modifyAt (f : Value F → Value F) : List Place → Value F → Value F
  | [], v => f v
  | .key k :: path, .table isInline members =>
    .table isInline (members.map fun m => if m.1 = k then (m.1, modifyAt f path m.2) else m)
  | .element i :: path, .array elements => .array (elements.modify i (modifyAt f path))
  | _, v => v

def getMember (root : Value F) (table : List Place) (key : Bytes) : Option (Value F) :=
  valueAt (table ++ [.key key]) root

def addMember (root : Value F) (table : List Place) (key : Bytes) (value : Value F) : Value F :=
  modifyAt (fun v => match v with
    | .table isInline members => .table isInline (members ++ [(key, value)])
    | v => v) table root

def addElement (root : Value F) (array : List Place) (value : Value F) : Value F :=
  modifyAt (fun v => match v with
    | .array elements => .array (elements ++ [value])
    | v => v) array root

/-- The members of the parser beside the text and its cursor. -/
structure Document (F : Type) where
  root : Value F
  table : List Place
  path : List Bytes
  contextStack : List (List Place × List Bytes)
  isInArrayTable : Bool

/-- The tables along a path, each one made where there is none. -/
def getOrCreate : List Bytes → List Place → Value F → Parser text (Value F × List Place)
  | [], table, root => return (root, table)
  | key :: path, table, root =>
    match getMember root table key with
    | some (.table ..) => getOrCreate path (table ++ [.key key]) root
    | none => getOrCreate path (table ++ [.key key]) (addMember root table key (.table false []))
    | some _ => throwParseError (ascii "Key '" ++ key ++ ascii "' already exists but is not a table")

def parseKeyValue (doc : Document F) : Parser text (Document F) := do
  skipWhitespaceAndComments
  let keyPath ← parseDottedKey (F := F)
  skipWhitespace
  expect 0x3D
  skipWhitespace
  let value ← parseValue conv (text.length + 1)
  skipWhitespace
  skipComment
  let (root, table) ← getOrCreate keyPath.dropLast doc.table doc.root
  let lastKey := keyPath.getLastD []
  if (getMember root table lastKey).isSome then throwParseError (ascii "Duplicate key: " ++ lastKey)
  else return { doc with root := addMember root table lastKey value }

def parseTableHeader (doc : Document F) : Parser text (Document F) := do
  expect 0x5B
  if (← current) = 0x5B then throwParseError (ascii "Use [[table]] for array of tables")
  else
    let path ← parseDottedKey (F := F)
    skipWhitespace
    expect 0x5D
    let (root, table) ← getOrCreate path [] doc.root
    return { doc with root, table, path, isInArrayTable := false }

def parseArrayTableHeader (doc : Document F) : Parser text (Document F) := do
  expect 0x5B
  expect 0x5B
  let path ← parseDottedKey (F := F)
  skipWhitespace
  expect 0x5D
  expect 0x5D
  if path = [] then throwParseError (ascii "Empty array table path")
  else
    let (root, parent) ← getOrCreate path.dropLast [] doc.root
    let arrayKey := path.getLastD []
    let array := parent ++ [.key arrayKey]
    let (root, count) ← match getMember root parent arrayKey with
      | some (.array elements) => pure (root, elements.length)
      | some _ => throwParseError (ascii "Key '" ++ arrayKey ++ ascii "' already exists and is not an array")
      | none => pure (addMember root parent arrayKey (.array []), 0)
    return ⟨addElement root array (.table false []), array ++ [.element count], path,
      doc.contextStack ++ [(doc.table, doc.path)], true⟩

/-- Back to the context before a table of an array. -/
def leaveArrayTable (doc : Document F) : Document F :=
  match doc.isInArrayTable, doc.contextStack.getLast? with
  | true, some (table, path) =>
    { doc with table, path, contextStack := doc.contextStack.dropLast, isInArrayTable := false }
  | _, _ => doc

/-- `pos_ += 3; column_ += 3` at the start of the text. -/
def startBehind (count : ℕ) (c : Cursor) : ℕ := if c.pos = 0 then count else 0

theorem startBehind_sound (h : text.take 3 = [0xEF, 0xBB, 0xBF]) (c : Cursor) (hc : Exact text c) :
    (Event.moved c (startBehind 3 c)).Sound text ∧ Exact text (c.moveBy (startBehind 3 c)) := by
  unfold startBehind
  split
  · next hpos =>
    have hlen : 3 ≤ text.length := by
      have := congrArg List.length h
      rw [List.length_take] at this
      change min 3 text.length = 3 at this
      omega
    refine moved_sound hc (by omega) ?_
    rw [hpos, List.drop_zero, h]
    decide
  · exact moved_sound hc hc.2 List.not_mem_nil

/-- The byte order mark. -/
def skipByteOrderMark : Parser text Unit :=
  if h : text.take 3 = [0xEF, 0xBB, 0xBF] then
    move (fun c => .moved c (startBehind 3 c)) (fun c => c.moveBy (startBehind 3 c)) (startBehind_sound h)
  else return

def parse : Parser text (Value F) := do
  skipByteOrderMark
  let doc ← turns ⟨.table false [], [], [], [], false⟩ fun doc => do
    if ← eof then return .inr doc
    skipWhitespaceAndComments
    if ← eof then return .inr doc
    if (← current) = 0x5B then
      let doc := leaveArrayTable doc
      if (← peek 1) = 0x5B then return .inl (← parseArrayTableHeader doc) else return .inl (← parseTableHeader doc)
    else
      let doc := if doc.path = [] then { doc with table := [] } else doc
      return .inl (← parseKeyValue conv doc)
  return doc.root

/-! ### Builds -/

def start : Cursor := ⟨0, 1, 1⟩

/-- `parse` of a text in a build. -/
def parseIn (build : Build) (text : Bytes) : Outcome (Value F) := (parse conv : Parser text (Value F)).run build start

/-- The document or the error with its line and column is that of the scalar build; line and column depend on the prefix
behind the cursor only, before and after every step; and nothing beyond the end is read. -/
def BuildsAgree (build : Build) (text : Bytes) : Prop :=
  (parseIn conv build text).result = (parseIn conv .scalar text).result ∧
    ∀ e ∈ (parseIn conv build text).trace, e.Sound text

/-- The builds agree if and only if no `advance_bulk` passes a newline and no string loop goes on at the end of the text. -/
theorem toml_builds_agree_iff (build : Build) (text : Bytes) :
    BuildsAgree conv build text ↔ ∀ e ∈ (parseIn conv build text).trace, e.Fine text := by
  constructor
  · rintro ⟨-, hsound⟩ e he
    exact (hsound e he).fine
  · intro hfine
    obtain ⟨hsound, hresult, -⟩ := (parse conv : Parser text (Value F)).agrees build start exact_start hfine
    exact ⟨hresult, hsound⟩

def Outcome.errorColumn {α : Type} (o : Outcome α) : Option ℕ :=
  match o.result with
  | .error (.parse _ column _) => some column
  | _ => none

/-- A newline in front of a key that is none: the error is in column 0 with blocks of 16 characters, else in column 1. -/
theorem column_behind_newline :
    ¬ BuildsAgree (F := Unit) ⟨fun _ => none, fun _ _ => none⟩ ⟨true, false⟩ (ascii "\n=aaaaaaaaaaaaaa") := by
  rintro ⟨hresult, -⟩
  have hcolumn (o o' : Outcome (Value Unit)) (h : o.result = o'.result) : o.errorColumn = o'.errorColumn := by
    unfold Outcome.errorColumn
    rw [h]
  have := hcolumn _ _ hresult
  revert this
  decide

end NeForce.Toml
