import NeForce.BigEndian

/-! # JSON documents

`Value D` is what a `json_document` holds, with the doubles of the type `D`.  Lengths of strings and keys and the counts
of containers are stored in 32 bits; the highest bit of a key's length says that the key is in the member itself. -/

namespace NeForce.Json

variable {D : Type}

/-- The key of a `json_member`: the text it was given, and `key_size`. -/
structure Key where
  text : Bytes
  keySize : ℕ
deriving DecidableEq

def inlineKeyCapacity : ℕ := 8

def flagInlineKey : ℕ := 2 ^ 31

def Key.assign (text : Bytes) : Key :=
  if text.length ≤ inlineKeyCapacity then ⟨text, flagInlineKey ||| text.length⟩ else ⟨text, text.length % 2 ^ 32⟩

def Key.inlined (key : Key) : Bool := key.keySize &&& flagInlineKey ≠ 0

def Key.length (key : Key) : ℕ := key.keySize % flagInlineKey

/-- What `key()` views; `none` for bytes of the member that are not the key's. -/
def Key.view (key : Key) : Option Bytes :=
  if key.inlined && inlineKeyCapacity < key.text.length then
    if key.length = 0 then some [] else none
  else some (key.text.take key.length)

inductive Value (D : Type) where
  | null
  | boolean (b : Bool)
  | integer (n : ℤ)
  | uinteger (n : ℕ)
  | real (d : D)
  | string (s : Bytes)
  | array (es : List (Value D))
  | object (ms : List (Key × Value D))

/-- `json_value::make_string`, with a length of 32 bits. -/
def makeString (text : Bytes) : Value D := .string (text.take (text.length % 2 ^ 32))

def inlineStringCapacity : ℕ := 14

def storeString (text : Bytes) : Bytes := text

def makeStringValue (text : Bytes) : Value D :=
  if text.length ≤ inlineStringCapacity then .string (text.take (text.length &&& 0x0F)) else makeString (storeString text)

/-- One more entry of a container; its count wraps around to 0. -/
def append (node : List α) (x : α) : List α := if node.length + 1 = 2 ^ 32 then [] else node ++ [x]

def arrayAppend (node : List (Value D)) (value : Value D) : List (Value D) := append node value

def objectAppend (node : List (Key × Value D)) (key : Bytes) (value : Value D) (copyKey : Bool) : List (Key × Value D) :=
  append node (Key.assign (if copyKey && inlineKeyCapacity < key.length then storeString key else key), value)

end NeForce.Json
