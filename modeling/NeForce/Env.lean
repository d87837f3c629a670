import Mathlib.Data.List.AList
import NeForce.BigEndian

/-! # Documents in the .env format

`env_document` maps names to variables, each with its value, its quotes and its export flag, and keeps a list of
comments.  `to_string` prints the comments as lines of their own, then an empty line, then the variables in the order of
the hash table.  `env_parser` reads a text line by line; it is split into the loops over the three kinds of values
(`parseUnquotedValue`, `parseSingleQuotedValue`, `parseDoubleQuotedValue`), the line of a variable and the line of a
document.

The hash table is an association list without duplicate names, in any order; inserting a name again replaces its
variable.  Positions in a line are the rest of the line behind them. -/

namespace NeForce.Env

/-- `env_variable::quote_type`. -/
inductive QuoteType
  | none
  | single
  | double
deriving DecidableEq, Repr

structure Variable where
  value : Bytes
  quoteType : QuoteType
  isExported : Bool
deriving DecidableEq, Repr

structure Document where
  variables_ : AList fun _ : Bytes => Variable
  comments_ : List Bytes

def Document.empty : Document := ⟨∅, []⟩

def Document.addVariable (d : Document) (name : Bytes) (v : Variable) : Document :=
  { d with variables_ := d.variables_.insert name v }

def Document.addComment (d : Document) (comment : Bytes) : Document :=
  { d with comments_ := d.comments_ ++ [comment] }

def Document.getVariable (d : Document) (name : Bytes) : Option Variable := d.variables_.lookup name

/-! ### Printing -/

def hexDigit (n : UInt8) : UInt8 := if n < 10 then n + 0x30 else n + 0x57

/-- `append_escaped` of `escape`. -/
def escapeByte (c : UInt8) : Bytes :=
  if c = 0x22 then [0x5C, 0x22]
  else if c = 0x27 then [0x5C, 0x27]
  else if c = 0x5C then [0x5C, 0x5C]
  else if c = 0x08 then [0x5C, 0x62]
  else if c = 0x0C then [0x5C, 0x66]
  else if c = 0x0A then [0x5C, 0x6E]
  else if c = 0x0D then [0x5C, 0x72]
  else if c = 0x09 then [0x5C, 0x74]
  else if c = 0x0B then [0x5C, 0x76]
  else if c < 0x20 then [0x5C, 0x75, 0x30, 0x30, hexDigit (c >>> 4), hexDigit (c &&& 0x0F)]
  else [c]

def escape (str : Bytes) : Bytes := str.flatMap escapeByte

/-- A quote inside single quotes is printed as `'\''`. -/
def spliceQuote (c : UInt8) : Bytes := if c = 0x27 then [0x27, 0x5C, 0x27, 0x27] else [c]

def escapeEnvValue (value : Bytes) : QuoteType → Bytes
  | .none => value
  | .single => value.flatMap spliceQuote
  | .double => escape value

def valueText (v : Variable) : Bytes :=
  match v.quoteType with
  | .none => v.value
  | .single => 0x27 :: (escapeEnvValue v.value .single ++ [0x27])
  | .double => 0x22 :: (escapeEnvValue v.value .double ++ [0x22])

def envValueToString (v : Variable) (key : Bytes) : Bytes :=
  (if v.isExported then ascii "export " else []) ++ ((if key ≠ [] then key ++ [0x3D] else []) ++ valueText v)

def commentText (comment : Bytes) : Bytes := ascii "# " ++ comment

/-- `env_document::to_string`. -/
def Document.toString (d : Document) : Bytes :=
  (d.comments_.flatMap fun comment => commentText comment ++ [0x0A]) ++
    ((if d.comments_ ≠ [] then [0x0A] else []) ++
      d.variables_.entries.flatMap fun p => envValueToString p.2 p.1 ++ [0x0A])

/-! ### Parsing -/

/-- `charset::ascii_space`. -/
def isSpace (c : UInt8) : Bool := (0x09 ≤ c && c ≤ 0x0D) || c = 0x20

def trimLeft (l : Bytes) : Bytes := l.dropWhile isSpace

def trimRight (l : Bytes) : Bytes := (l.reverse.dropWhile isSpace).reverse

def trim (l : Bytes) : Bytes := trimRight (trimLeft l)

def isBlankLine (line : Bytes) : Bool := trim line = []

def isCommentLine (line : Bytes) : Bool := (trim line).head? = some 0x23

def parseUnquotedValue (line : Bytes) : Bytes := line.takeWhile fun c => !(c = 0x20 || c = 0x09 || c = 0x23)

/-- The loop behind the opening quote. -/
def parseSingleQuotedValue : Bytes → Bytes
  | [] => []
  | c :: line =>
    if c = 0x27 then
      match line with
      | c₁ :: c₂ :: c₃ :: line =>
        if c₁ = 0x5C ∧ c₂ = 0x27 ∧ c₃ = 0x27 then 0x27 :: parseSingleQuotedValue line else []
      | _ => []
    else c :: parseSingleQuotedValue line

/-- What a backslash and the byte behind it stand for in double quotes. -/
def unescapeByte (next : UInt8) : Bytes :=
  if next = 0x6E then [0x0A]
  else if next = 0x72 then [0x0D]
  else if next = 0x74 then [0x09]
  else if next = 0x5C then [0x5C]
  else if next = 0x22 then [0x22]
  else if next = 0x24 then [0x24]
  else if next = 0x60 then [0x60]
  else [0x5C, next]

/-- The loop behind the opening quote. -/
def parseDoubleQuotedValue : Bytes → Bytes
  | [] => []
  | c :: line =>
    if c = 0x5C then
      match line with
      | next :: line => unescapeByte next ++ parseDoubleQuotedValue line
      | [] => [0x5C]
    else if c = 0x22 then []
    else c :: parseDoubleQuotedValue line

/-- The value behind `=` and the blanks. -/
def parseValue (line : Bytes) (isExported : Bool) : Variable :=
  match line with
  | [] => ⟨[], .none, isExported⟩
  | c :: rest =>
    if c = 0x27 then ⟨parseSingleQuotedValue rest, .single, isExported⟩
    else if c = 0x22 then ⟨parseDoubleQuotedValue rest, .double, isExported⟩
    else ⟨parseUnquotedValue (c :: rest), .none, isExported⟩

def parseVariableLine (line : Bytes) : Option (Bytes × Variable) :=
  let isExported := (ascii "export ").isPrefixOf (trim line)
  let trimmed := if isExported then trim ((trim line).drop 7) else trim line
  let name := trim (trimmed.takeWhile (· ≠ 0x3D))
  if 0x3D ∉ trimmed then none
  else if name = [] then none
  else
    let rest := (trimmed.dropWhile (· ≠ 0x3D)).drop 1
    some (name, parseValue (rest.dropWhile fun c => c = 0x20 || c = 0x09) isExported)

/-- `env_parser::parse_line`. -/
def parseLine (root : Document) (line : Bytes) : Document :=
  if isBlankLine line then root
  else if isCommentLine line then
    if (trim line).length > 1 then root.addComment (trim ((trim line).drop 1)) else root
  else
    match parseVariableLine line with
    | none => root
    | some (name, v) => root.addVariable name v

/-- The lines that the loop of `parse` cuts out of a text. -/
def lines : Bytes → List Bytes
  | [] => []
  | c :: text =>
    if c = 0x0A then [] :: lines text
    else
      match lines text with
      | [] => [[c]]
      | line :: rest => (c :: line) :: rest

/-- `env_parser::parse`. -/
def parse (text : Bytes) : Document := (lines text).foldl parseLine .empty

end NeForce.Env
