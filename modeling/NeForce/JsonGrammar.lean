import NeForce.Json

/-! # The grammar of JSON

The rules of RFC 8259 as relations between texts and what they stand for, with bytes of 0x80 and above as ordinary
characters of strings.  `Represents v d` says that a document `d` holds the value `v`: its structure, its strings and
keys, and its integers that have 64 bits. -/

namespace NeForce.Json

/-! ### Numbers -/

def IsSpaces (t : Bytes) : Prop := ∀ c ∈ t, c = 0x20 ∨ c = 0x09 ∨ c = 0x0A ∨ c = 0x0D

def AllDigits (t : Bytes) : Prop := ∀ c ∈ t, 0x30 ≤ c ∧ c ≤ 0x39

inductive IsInt : Bytes → Prop
  | zero : IsInt [0x30]
  | digits (hc : 0x31 ≤ c ∧ c ≤ 0x39) (ht : AllDigits t) : IsInt (c :: t)

inductive IsFrac : Bytes → Prop
  | none : IsFrac []
  | digits (hne : t ≠ []) (ht : AllDigits t) : IsFrac (0x2E :: t)

inductive IsExp : Bytes → Prop
  | none : IsExp []
  | digits (he : e = 0x65 ∨ e = 0x45) (hs : s = [] ∨ s = [0x2B] ∨ s = [0x2D]) (hne : t ≠ []) (ht : AllDigits t) :
      IsExp (e :: (s ++ t))

def minus (negative : Bool) : Bytes := if negative then [0x2D] else []

inductive IsNumber : Bytes → Prop
  | mk (negative : Bool) (hi : IsInt i) (hf : IsFrac f) (he : IsExp e) : IsNumber (minus negative ++ (i ++ (f ++ e)))

def decimal (t : Bytes) : ℕ := t.foldl (fun n c => 10 * n + (c.toNat - 0x30)) 0

def signed (negative : Bool) (n : ℕ) : ℤ := if negative then -n else n

/-! ### Strings -/

def IsHex (c : UInt8) (n : ℕ) : Prop := (ascii "0123456789abcdef")[n]? = some c ∨ (ascii "0123456789ABCDEF")[n]? = some c

def IsHex4 (t : Bytes) (n : ℕ) : Prop :=
  ∃ a b c d i j k l, t = [a, b, c, d] ∧ IsHex a i ∧ IsHex b j ∧ IsHex c k ∧ IsHex d l ∧
    n = 16 * (16 * (16 * i + j) + k) + l

/-- The characters that an escape of two characters may have, and what they stand for. -/
def escapes : List (UInt8 × UInt8) :=
  [(0x22, 0x22), (0x5C, 0x5C), (0x2F, 0x2F), (0x62, 0x08), (0x66, 0x0C), (0x6E, 0x0A), (0x72, 0x0D), (0x74, 0x09)]

/-- The digits of an escape `\u`, and what follows them if they are a high surrogate. -/
inductive IsUnicode : Bytes → Char → Prop
  | char (hx : IsHex4 x c.toNat) : IsUnicode x c
  | surrogates (hx : IsHex4 x high) (hy : IsHex4 y low) (hhigh : 0xD800 ≤ high ∧ high ≤ 0xDBFF)
      (hlow : 0xDC00 ≤ low ∧ low ≤ 0xDFFF) (hc : c.toNat = 0x10000 + (high - 0xD800) * 0x400 + (low - 0xDC00)) :
      IsUnicode (x ++ 0x5C :: 0x75 :: y) c

/-- The text between the quotes of a string, and the string. -/
inductive IsChars : Bytes → Bytes → Prop
  | nil : IsChars [] []
  | unescaped (hc : 0x20 ≤ c ∧ c ≠ 0x22 ∧ c ≠ 0x5C) (ht : IsChars t s) : IsChars (c :: t) (c :: s)
  | escaped (he : (e, b) ∈ escapes) (ht : IsChars t s) : IsChars (0x5C :: e :: t) (b :: s)
  | unicode (hx : IsUnicode x c) (ht : IsChars t s) : IsChars (0x5C :: 0x75 :: (x ++ t)) (String.utf8EncodeChar c ++ s)

inductive IsString : Bytes → Bytes → Prop
  | mk (ht : IsChars t s) : IsString (0x22 :: (t ++ [0x22])) s

/-! ### Values -/

/-- A value, with the texts of its numbers and the decoded strings. -/
inductive Tree where
  | null
  | boolean (b : Bool)
  | number (text : Bytes) (h : IsNumber text)
  | string (s : Bytes)
  | array (vs : List Tree)
  | object (ms : List (Bytes × Tree))

mutual

inductive IsValue : Bytes → Tree → Prop
  | null : IsValue (ascii "null") .null
  | true : IsValue (ascii "true") (.boolean true)
  | false : IsValue (ascii "false") (.boolean false)
  | number (h : IsNumber t) : IsValue t (.number t h)
  | string (h : IsString t s) : IsValue t (.string s)
  | noElements (ha : IsSpaces a) : IsValue (0x5B :: (a ++ [0x5D])) (.array [])
  | array (h : IsElements t vs) : IsValue (0x5B :: (t ++ [0x5D])) (.array vs)
  | noMembers (ha : IsSpaces a) : IsValue (0x7B :: (a ++ [0x7D])) (.object [])
  | object (h : IsMembers t ms) : IsValue (0x7B :: (t ++ [0x7D])) (.object ms)

inductive IsElements : Bytes → List Tree → Prop
  | one (ha : IsSpaces a) (h : IsValue t v) (hb : IsSpaces b) : IsElements (a ++ (t ++ b)) [v]
  | cons (ha : IsSpaces a) (h : IsValue t v) (hb : IsSpaces b) (hs : IsElements u vs) :
      IsElements (a ++ (t ++ (b ++ 0x2C :: u))) (v :: vs)

inductive IsMembers : Bytes → List (Bytes × Tree) → Prop
  | one (ha : IsSpaces a) (hk : IsString k key) (hb : IsSpaces b) (hc : IsSpaces c) (h : IsValue t v) (hd : IsSpaces d) :
      IsMembers (a ++ (k ++ (b ++ 0x3A :: (c ++ (t ++ d))))) [(key, v)]
  | cons (ha : IsSpaces a) (hk : IsString k key) (hb : IsSpaces b) (hc : IsSpaces c) (h : IsValue t v) (hd : IsSpaces d)
      (hs : IsMembers u ms) :
      IsMembers (a ++ (k ++ (b ++ 0x3A :: (c ++ (t ++ (d ++ 0x2C :: u)))))) ((key, v) :: ms)

end

/-- A JSON text: a value between white space. -/
inductive IsText : Bytes → Tree → Prop
  | mk (ha : IsSpaces a) (h : IsValue t v) (hb : IsSpaces b) : IsText (a ++ (t ++ b)) v

/-! ### What a document holds -/

variable {D : Type}

/-- The numbers that a number's text may be stored as. -/
def NumberIs (t : Bytes) (d : Value D) : Prop :=
  (∃ negative i, t = minus negative ++ i ∧ IsInt i ∧
      (d = .integer (signed negative (decimal i)) ∧ -2 ^ 63 ≤ signed negative (decimal i) ∧
          signed negative (decimal i) < 2 ^ 63 ∨
        negative = false ∧ d = .uinteger (decimal i) ∧ 2 ^ 63 ≤ decimal i ∧ decimal i < 2 ^ 64)) ∨
    (∃ x, d = .real x) ∧ ∀ negative i, t = minus negative ++ i → IsInt i →
      signed negative (decimal i) < -2 ^ 63 ∨ 2 ^ 64 ≤ signed negative (decimal i)

mutual

def Represents : Tree → Value D → Prop
  | .null, .null => True
  | .boolean b, .boolean b' => b = b'
  | .number t _, d => NumberIs t d
  | .string s, .string s' => s = s'
  | .array vs, .array es => RepresentsAll vs es
  | .object ms, .object es => RepresentsMembers ms es
  | _, _ => False

def RepresentsAll : List Tree → List (Value D) → Prop
  | [], [] => True
  | v :: vs, e :: es => Represents v e ∧ RepresentsAll vs es
  | _, _ => False

def RepresentsMembers : List (Bytes × Tree) → List (Key × Value D) → Prop
  | [], [] => True
  | (key, v) :: ms, (key', e) :: es => key'.view = some key ∧ Represents v e ∧ RepresentsMembers ms es
  | _, _ => False

end

mutual

/-- Lengths and counts are small enough for the numbers of 31 and 32 bits that hold them. -/
def Fits : Tree → Prop
  | .null | .boolean _ | .number _ _ => True
  | .string s => s.length < 2 ^ 32
  | .array vs => vs.length < 2 ^ 32 ∧ FitsAll vs
  | .object ms => ms.length < 2 ^ 32 ∧ FitsMembers ms

def FitsAll : List Tree → Prop
  | [] => True
  | v :: vs => Fits v ∧ FitsAll vs

def FitsMembers : List (Bytes × Tree) → Prop
  | [] => True
  | (key, v) :: ms => key.length < 2 ^ 31 ∧ Fits v ∧ FitsMembers ms

end

end NeForce.Json
