import NeForce.BigEndian

/-! # The binary serializer

An object is written as a header and its properties, each with its name, a tag and the bytes of its value; an object in a
property is a serialized object of its own.  The reader looks the names up in the type that it has registered, and
skips a property that this type does not have.  A value is given with its type: what the writer finds in the registry is
part of the value, and what the reader finds is `Registry`.  Running out of the data is `none`, as is an exception. -/

namespace NeForce.Binary

/-! ### Values -/

/-- The types of `is_arithmetic_type`; `other` are those that the writer reads as an `int64_t`. -/
inductive Arith where
  | bool
  | float
  | double
  | int
  | unsignedInt
  | short
  | unsignedShort
  | long
  | unsignedLong
  | longLong
  | unsignedLongLong
  | char
  | other (n : ℕ)
deriving DecidableEq

/-- The type of a property or element. -/
inductive Kind where
  | arith (t : Arith)
  | string
  | enumeration (tid : ℕ)
  | container (tid : ℕ)
  | object (tid : ℕ)
deriving DecidableEq

/-- A `meta_any`.  The number of a `bool` is 0 or 1, that of a `float` or `double` its bits.  An object is its properties
that are neither transient nor read-only. -/
inductive Val where
  | empty
  | arith (t : Arith) (z : ℤ)
  | string (s : Bytes)
  | enumeration (tid : ℕ) (z : ℤ)
  | container (tid : ℕ) (es : List Val)
  | object (tid : ℕ) (props : List (Bytes × Val))

/-! ### The writer -/

/-- How many bytes of a number are written. -/
def Arith.width : Arith → ℕ
  | .bool => 1
  | .float => 4
  | _ => 8

def bitsOf (z : ℤ) : ℕ := (z % 2 ^ 64).toNat

def magic : ℕ := 0x4E454246

def version : ℕ := 1

/-- What stands before the properties. -/
def header (typeName : ℕ → Bytes) (tid count : ℕ) : Bytes :=
  writeBe 4 magic ++ (writeBe 2 version ++ (writeBe 4 1 ++
    ((writeBe 2 (typeName tid).length ++ (typeName tid ++ writeBe 8 tid)) ++
      (writeBe 4 1 ++ (writeBe 8 tid ++ writeBe 4 count)))))

mutual

def writeValue (typeName : ℕ → Bytes) : Val → Bytes
  | .empty => [0]
  | .arith t z => 1 :: writeBe t.width (bitsOf z)
  | .string s => 4 :: (writeBe 4 s.length ++ s)
  | .enumeration _ z => 1 :: writeBe 8 (bitsOf z)
  | .container _ es => 3 :: (writeBe 4 es.length ++ writeElements typeName es)
  | .object tid props =>
      let data := header typeName tid props.length ++ writeProps typeName props
      2 :: (writeBe 4 data.length ++ data)

def writeElements (typeName : ℕ → Bytes) : List Val → Bytes
  | [] => []
  | e :: es => writeValue typeName e ++ writeElements typeName es

/-- The properties, each by `write_property`. -/
def writeProps (typeName : ℕ → Bytes) : List (Bytes × Val) → Bytes
  | [] => []
  | (name, v) :: props => writeBe 2 name.length ++ (name ++ (writeValue typeName v ++ writeProps typeName props))

end

def serialize (typeName : ℕ → Bytes) (tid : ℕ) (props : List (Bytes × Val)) : Bytes :=
  header typeName tid props.length ++ writeProps typeName props

/-! ### The reader -/

/-- A type as the reader has it registered: the types of its properties, and a new instance. -/
structure Meta where
  properties : Bytes → Option Kind
  defaults : List (Bytes × Val)

structure Registry where
  find : ℕ → Option Meta
  /-- The element type of a type that is a sequential container. -/
  elements : ℕ → Option Kind

/-- A number of `n` bytes. -/
def word (n : ℕ) (data : Bytes) : Option (ℕ × Bytes) :=
  if data.length < n then none else some (readBe (data.take n), data.drop n)

/-- What the setter of a property of the type is given for 8 bytes; none if it is a value of another type. -/
def Arith.read (t : Arith) (bits : ℕ) : Option ℤ :=
  match t with
  | .bool => some (if bits ≠ 0 then 1 else 0)
  | .float => some (bits % 2 ^ 32)
  | .double => some bits
  | .int => some (Int.bmod bits (2 ^ 32))
  | .unsignedInt => some (bits % 2 ^ 32)
  | .short => some (Int.bmod bits (2 ^ 16))
  | .unsignedShort => some (bits % 2 ^ 16)
  | .char => some (Int.bmod bits (2 ^ 8))
  | .long => some (Int.bmod bits (2 ^ 64))
  | _ => none

/-- The same for an element of a container. -/
def Arith.readElement (t : Arith) (bits : ℕ) : Option ℤ :=
  match t with
  | .int => some (Int.bmod bits (2 ^ 32))
  | .double => some bits
  | .long => some (Int.bmod bits (2 ^ 64))
  | _ => none

def skipTypes : ℕ → Bytes → Option Bytes
  | 0, data => some data
  | n + 1, data => do
      let (length, data) ← word 2 data
      skipTypes n ((data.drop length).drop 8)

/-- A length and as many bytes, if there is a length. -/
def skipSized (data : Bytes) : Bytes :=
  match word 4 data with
  | none => data
  | some (length, data) => data.drop length

/-- The elements of a container that is not known. -/
def skipElements : ℕ → Bytes → Option Bytes
  | 0, data => some data
  | _ + 1, [] => none
  | n + 1, tag :: data =>
      if tag = 1 then skipElements n (data.drop 8)
      else if tag = 2 then skipElements n (skipSized data)
      else if tag = 4 then skipElements n (skipSized data)
      else skipElements n data

/-- The value of a property that is not known. -/
def skipValue : Bytes → Option Bytes
  | [] => none
  | tag :: data =>
      if tag = 1 then some (data.drop 8)
      else if tag = 2 then some (skipSized data)
      else if tag = 3 then
        match word 4 data with
        | none => some data
        | some (count, data) => skipElements count data
      else if tag = 4 then some (skipSized data)
      else some data

/-- A value that was read: `stop` where the source leaves the loop, and else the value, if the setter takes it. -/
inductive Read where
  | stop (rest : Bytes)
  | next (value : Option Val) (rest : Bytes)

/-- A value behind its length. -/
def readSized (data : Bytes) (f : Bytes → Option (Option Val)) : Option Read :=
  match word 4 data with
  | none => some (.stop data)
  | some (length, data) => if data.length < length then some (.stop data) else do
      let value ← f (data.take length)
      some (.next value (data.drop length))

/-- An object, where one of the type is wanted. -/
def ofKind (kind : Kind) (nested : Bytes → Option Val) (data : Bytes) : Option (Option Val) := do
  match ← nested data with
  | .object tid fields => some (if kind = .object tid then some (.object tid fields) else none)
  | _ => some none

/-- One element; `none` for the value if nothing is added to the container. -/
def readElement (kind : Kind) (nested : Bytes → Option Val) (tag : UInt8) (data : Bytes) : Option Read :=
  if tag = 1 then
    match word 8 data with
    | none => some (.stop data)
    | some (bits, data) =>
        match kind with
        | .arith t => some (.next ((t.readElement bits).map (.arith t)) data)
        | _ => some (.next none data)
  else if tag = 2 then readSized data (ofKind kind nested)
  else if tag = 4 then readSized data fun s => some (if kind = .string then some (.string s) else none)
  else some (.next none data)

/-- The elements of a container, behind those that were read before. -/
def readElements (kind : Kind) (nested : Bytes → Option Val) : ℕ → List Val → Bytes → Option (List Val × Bytes)
  | 0, es, data => some (es, data)
  | _ + 1, es, [] => some (es, [])
  | n + 1, es, tag :: data => do
      match ← readElement kind nested tag data with
      | .stop rest => some (es, rest)
      | .next value rest => readElements kind nested n (es ++ value.toList) rest

/-- The value of a property of the type `kind`. -/
def readValue (registry : Registry) (nested : Bytes → Option Val) (kind : Kind) : Bytes → Option Read
  | [] => none
  | tag :: data =>
      if tag = 1 then
        match word 8 data with
        | none => some (.stop data)
        | some (bits, data) =>
            match kind with
            | .arith t => some (.next ((t.read bits).map (.arith t)) data)
            | _ => some (.next none data)
      else if tag = 2 then readSized data (ofKind kind nested)
      else if tag = 3 then
        match word 4 data with
        | none => some (.stop data)
        | some (count, data) =>
            match kind with
            | .container tid =>
                match registry.elements tid with
                | none => some (.next none data)
                | some element => do
                    let (es, rest) ← readElements element nested count [] data
                    some (.next (some (.container tid es)) rest)
            | _ => some (.next none data)
      else if tag = 4 then readSized data fun s => some (if kind = .string then some (.string s) else none)
      else some (.next none data)

/-- The loop over the properties; the value that was set last is the first one with its name. -/
def readProps (registry : Registry) (type : Meta) (nested : Bytes → Option Val) :
    ℕ → Bytes → List (Bytes × Val) → Option (List (Bytes × Val))
  | 0, _, fields => some fields
  | n + 1, data, fields =>
      match word 2 data with
      | none => some fields
      | some (length, data) =>
          if data.length < length then some fields
          else
            let name := data.take length
            match type.properties name with
            | none => do readProps registry type nested n (← skipValue (data.drop length)) fields
            | some kind => do
                match ← readValue registry nested kind (data.drop length) with
                | .stop _ => some fields
                | .next none rest => readProps registry type nested n rest fields
                | .next (some v) rest => readProps registry type nested n rest ((name, v) :: fields)

/-- `deserialize`; the first argument bounds the depth of nested objects. -/
def deserializeTo (registry : Registry) : ℕ → Bytes → Option Val
  | 0, _ => none
  | depth + 1, data =>
      if data.length < 14 then none
      else do
        let (m, data) ← word 4 data
        if m ≠ magic then none
        else
          let (types, data) ← word 4 (data.drop 2)
          let data ← skipTypes types data
          let (objects, data) ← word 4 data
          if objects = 0 then some .empty
          else
            let (tid, data) ← word 8 data
            let type ← registry.find tid
            let (count, data) ← word 4 data
            let fields ← readProps registry type (deserializeTo registry depth) count data type.defaults
            some (.object tid fields)

/-- A nested object is shorter than what it is in, so that the length is enough. -/
def deserialize (registry : Registry) (data : Bytes) : Option Val := deserializeTo registry (data.length + 1) data

end NeForce.Binary
