import Mathlib.Data.List.AList
import NeForce.HttpServer

/-! # Multipart bodies

`multipart_parser::parse`: the parts of a `multipart/form-data` body are found by searching for the delimiter, and the
parameters of `Content-Disposition` by searching for `name="` and `filename="`. -/

namespace NeForce.Multipart

open HttpServer (find crlf lower)
open Search (firstAt)

structure MultipartField where
  name : Bytes := []
  filename : Bytes := []
  contentType : Bytes := []
  data : Bytes := []
  headers : AList (fun _ : Bytes => Bytes) := ∅

/-- The limits of a `multipart_parser`, in bytes and fields. -/
structure Limits where
  maxFieldSize : ℕ := 10 * 2 ^ 20
  maxFields : ℕ := 256
  maxTotalSize : ℕ := 100 * 2 ^ 20

def quote : UInt8 := 0x22

/-- The text between `prefix`, which ends in a quote, and the next quote. -/
def quoted (before value : Bytes) : Option Bytes :=
  (firstAt before value).bind fun i =>
    (find value [quote] (i + before.length)).map fun stop =>
      (value.drop (i + before.length)).take (stop - (i + before.length))

/-- One header of a part. -/
def MultipartField.addHeader (field : MultipartField) (key value : Bytes) : MultipartField :=
  let field :=
    if key.map lower = ascii "content-disposition" then
      { field with
        name := (quoted (ascii "name=\"") value).getD field.name
        filename := (quoted (ascii "filename=\"") value).getD field.filename }
    else if key.map lower = ascii "content-type" then { field with contentType := value }
    else field
  { field with headers := field.headers.insert key value }

/-- `parse_part_headers`, at most `n` lines: what is left of the part, and the field. -/
def parsePartHeaders : ℕ → Bytes → MultipartField → Bytes × MultipartField
  | 0, part, field => (part, field)
  | n + 1, part, field =>
      match firstAt crlf part with
      | none => (part, field)
      | some 0 => (part.drop 2, field)
      | some (eol + 1) =>
          let line := part.take (eol + 1)
          match firstAt [0x3A] line with
          | none => parsePartHeaders n (part.drop (eol + 3)) field
          | some colon =>
              parsePartHeaders n (part.drop (eol + 3))
                (field.addHeader (line.take colon) ((line.drop (colon + 1)).dropWhile (· = 0x20)))

def dashes : Bytes := [0x2D, 0x2D]

/-- A part with its headers: the field without its data, and the data. -/
def parsePart (part : Bytes) : Bytes × MultipartField := parsePartHeaders part.length part {}

/-- The loop over the delimiters, at most `n` of them, of which the next one stands at `pos`. -/
def parseLoop (limits : Limits) (body delim : Bytes) : ℕ → ℕ → ℕ → List MultipartField → List MultipartField
  | 0, _, _, fields => fields
  | n + 1, pos, totalParsed, fields =>
      let pos := pos + delim.length
      if (body.drop pos).take 2 = dashes then fields
      else
        let pos := if (body.drop pos).take 2 = crlf then pos + 2 else pos
        match find body delim pos with
        | none => fields
        | some next =>
            let partEnd := if 2 ≤ next ∧ (body.drop (next - 2)).take 2 = crlf then next - 2 else next
            -- A length below zero is the largest one, and cut off at the end of the body.
            let part := if partEnd < pos then body.drop pos else (body.drop pos).take (partEnd - pos)
            if limits.maxFields ≤ fields.length then fields
            else
              let r := parsePart part
              if r.1 ≠ [] ∧ limits.maxFieldSize < r.1.length then []
              else if r.1 ≠ [] ∧ limits.maxTotalSize < totalParsed + r.1.length then []
              else
                parseLoop limits body delim n next (totalParsed + r.1.length)
                  (if r.2.name = [] then fields else fields ++ [{ r.2 with data := r.1 }])

/-- `multipart_parser::parse`. -/
def parse (limits : Limits) (body boundary : Bytes) : List MultipartField :=
  if body = [] ∨ boundary = [] then []
  else
    let delim := dashes ++ boundary
    match firstAt delim body with
    | none => []
    | some pos => parseLoop limits body delim body.length pos 0 []

/-! ### Bodies as they are written -/

/-- A field of a form, with a name and a filename that can stand in quotes. -/
structure FormField where
  name : Bytes
  filename : Option Bytes
  filenameFirst : Bool
  contentType : Option Bytes
  data : Bytes
  name_ne : name ≠ []
  name_unquoted : quote ∉ name
  filename_unquoted : ∀ x ∈ filename, quote ∉ x

def parameter (key : String) (value : Bytes) : Bytes := ascii key ++ (value ++ [quote])

/-- The parameters of `Content-Disposition`. -/
def FormField.disposition (f : FormField) : Bytes :=
  ascii "form-data; " ++
    match f.filename with
    | none => parameter "name=\"" f.name
    | some x =>
        if f.filenameFirst then parameter "filename=\"" x ++ (ascii "; " ++ parameter "name=\"" f.name)
        else parameter "name=\"" f.name ++ (ascii "; " ++ parameter "filename=\"" x)

def FormField.typeLine (f : FormField) : Bytes :=
  match f.contentType with
  | none => []
  | some t => ascii "Content-Type: " ++ (t ++ crlf)

/-- A part: its headers, an empty line and its data. -/
def FormField.part (f : FormField) : Bytes :=
  ascii "Content-Disposition: " ++ (f.disposition ++ (crlf ++ (f.typeLine ++ (crlf ++ f.data))))

def delimiter (boundary : Bytes) : Bytes := dashes ++ boundary

/-- The parts with the delimiters before them, and the closing delimiter. -/
def render (boundary : Bytes) : List FormField → Bytes
  | [] => delimiter boundary ++ (dashes ++ crlf)
  | f :: fs => delimiter boundary ++ (crlf ++ (f.part ++ (crlf ++ render boundary fs)))

/-- What a field is for the program that gets it. -/
structure Content where
  name : Bytes
  filename : Bytes
  contentType : Bytes
  data : Bytes
deriving DecidableEq

def MultipartField.content (f : MultipartField) : Content := ⟨f.name, f.filename, f.contentType, f.data⟩

def FormField.content (f : FormField) : Content := ⟨f.name, f.filename.getD [], f.contentType.getD [], f.data⟩

/-- The fields are within the limits of the parser. -/
structure Within (limits : Limits) (fields : List FormField) : Prop where
  count : fields.length ≤ limits.maxFields
  size : ∀ f ∈ fields, f.data.length ≤ limits.maxFieldSize
  total : (fields.map (·.data.length)).sum ≤ limits.maxTotalSize

end NeForce.Multipart
