import NeForce.Ssse3

/-! # Base64

The codec in its two builds.  `scalar` goes through the text in groups of four characters; `ssse3` takes 12 bytes or 16
characters at once and maps all of them by comparisons and shuffles.  A `none` of the loops of `decode` is the throw for a
character that is not in the alphabet. -/

namespace NeForce.Base64

open Ssse3

inductive Build where
  | scalar
  | ssse3
deriving DecidableEq

def base64Chars : Bytes := ascii "ABCDEFGHIJKLMNOPQRSTUVWXYZabcdefghijklmnopqrstuvwxyz0123456789+/"

def base64urlChars : Bytes := ascii "ABCDEFGHIJKLMNOPQRSTUVWXYZabcdefghijklmnopqrstuvwxyz0123456789-_"

def padChar : UInt8 := 0x3D

/-- The index of a letter or a digit, and those of the characters for 62 and 63; `none` is `-1`. -/
def charToIndex (isPlus isSlash : UInt8 → Bool) (c : UInt8) : Option (BitVec 6) :=
  if 0x41 ≤ c ∧ c ≤ 0x5A then some (.ofNat 6 (c.toNat - 0x41))
  else if 0x61 ≤ c ∧ c ≤ 0x7A then some (.ofNat 6 (c.toNat - 0x61 + 26))
  else if 0x30 ≤ c ∧ c ≤ 0x39 then some (.ofNat 6 (c.toNat - 0x30 + 52))
  else if isPlus c then some 62
  else if isSlash c then some 63
  else none

def base64CharToIndex : UInt8 → Option (BitVec 6) := charToIndex (· = 0x2B) (· = 0x2F)

/-- The characters of both alphabets. -/
def base64urlCharToIndex : UInt8 → Option (BitVec 6) :=
  charToIndex (fun c => c = 0x2D || c = 0x2B) (fun c => c = 0x5F || c = 0x2F)

/-! ### Groups of four characters -/

/-- `data[i] << 16 | data[i + 1] << 8 | data[i + 2]`. -/
def bytesValue (x y z : UInt8) : BitVec 32 :=
  x.toBitVec.setWidth 32 <<< 16 ||| y.toBitVec.setWidth 32 <<< 8 ||| z.toBitVec.setWidth 32

/-- `(val >> n) & 0x3F`. -/
def sextet (val : BitVec 32) (n : ℕ) : BitVec 6 := (val >>> n).setWidth 6

def charAt (alphabet : Bytes) (i : BitVec 6) : UInt8 := alphabet.getD i.toNat 0

/-- The loop over three bytes each, and the last one or two; `pad` is what stands for a missing character. -/
def encodeGroups (alphabet pad : Bytes) : Bytes → Bytes
  | x :: y :: z :: data =>
      let val := bytesValue x y z
      charAt alphabet (sextet val 18) :: charAt alphabet (sextet val 12) :: charAt alphabet (sextet val 6) ::
        charAt alphabet (sextet val 0) :: encodeGroups alphabet pad data
  | [x, y] =>
      let val := bytesValue x y 0
      [charAt alphabet (sextet val 18), charAt alphabet (sextet val 12), charAt alphabet (sextet val 6)] ++ pad
  | [x] =>
      let val := bytesValue x 0 0
      [charAt alphabet (sextet val 18), charAt alphabet (sextet val 12)] ++ pad ++ pad
  | [] => []

def indexValue (a b c d : BitVec 6) : BitVec 32 :=
  a.setWidth 32 <<< 18 ||| b.setWidth 32 <<< 12 ||| c.setWidth 32 <<< 6 ||| d.setWidth 32

/-- `(val >> n) & 0xFF`. -/
def octet (val : BitVec 32) (n : ℕ) : UInt8 := .ofBitVec ((val >>> n).setWidth 8)

/-- The loop over four characters each, of which `room` stand before the padding. -/
def decodeGroups (index : UInt8 → Option (BitVec 6)) : ℕ → Bytes → Option Bytes
  | room, x :: y :: z :: w :: text =>
      if room = 0 then some []
      else
        match index x, index y, (if 2 < room then index z else some 0), (if 3 < room then index w else some 0) with
        | some a, some b, some c, some d =>
            let val := indexValue a b c d
            (decodeGroups index (room - 4) text).map fun result =>
              octet val 16 :: ((if 2 < room then [octet val 8] else []) ++ ((if 3 < room then [octet val 0] else []) ++ result))
        | _, _, _, _ => none
  | room, _ => if room = 0 then some [] else none

/-! ### Blocks of 16 characters -/

/-- `base64_shuffle_lookup`. -/
def base64ShuffleLookup (idx : Vec) (alphabet : Bytes) : Vec :=
  let a0 := load alphabet
  let a1 := load (alphabet.drop 16)
  let a2 := load (alphabet.drop 32)
  let a3 := load (alphabet.drop 48)
  let m1 := cmpgtEpi8 idx (set1Epi8 15)
  let m2 := cmpgtEpi8 idx (set1Epi8 31)
  let m3 := cmpgtEpi8 idx (set1Epi8 47)
  let r0 := shuffleEpi8 a0 idx
  let r1 := shuffleEpi8 a1 (subsEpu8 idx (set1Epi8 16))
  let r2 := shuffleEpi8 a2 (subsEpu8 idx (set1Epi8 32))
  let r3 := shuffleEpi8 a3 (subsEpu8 idx (set1Epi8 48))
  let result := orSi128 (andnotSi128 m1 r0) (andSi128 m1 r1)
  let result := orSi128 (andnotSi128 m2 result) (andSi128 m2 r2)
  orSi128 (andnotSi128 m3 result) (andSi128 m3 r3)

/-- `load_12_bytes`. -/
def load12Bytes (src : Bytes) : Vec := unpackloEpi64 (loadlEpi64 src) (cvtsi32 (src.drop 8))

def beMask : Vec := setEpi8 [0xFF, 9, 10, 11, 0xFF, 6, 7, 8, 0xFF, 3, 4, 5, 0xFF, 0, 1, 2]

/-- The sextets of four times three bytes. -/
def encodeIndices (v : Vec) : Vec :=
  let mask6 := set1Epi32 0x3F
  let i0 := andSi128 (srliEpi32 v 18) mask6
  let i1 := slliEpi32 (andSi128 (srliEpi32 v 12) mask6) 8
  let i2 := slliEpi32 (andSi128 (srliEpi32 v 6) mask6) 16
  let i3 := slliEpi32 (andSi128 v mask6) 24
  orSi128 (orSi128 i0 i1) (orSi128 i2 i3)

/-- `base64_encode_12bytes`. -/
def base64Encode12Bytes (src alphabet : Bytes) : Bytes :=
  store (base64ShuffleLookup (encodeIndices (shuffleEpi8 (load12Bytes src) beMask)) alphabet)

/-- `base64_map_to_index`. -/
def base64MapToIndex (v : Vec) (plusChar slashChar : BitVec 8) : Vec :=
  let values := subEpi8 v (set1Epi8 0x41)
  let isLower := cmpgtEpi8 v (set1Epi8 (0x61 - 1))
  let values := orSi128 (andnotSi128 isLower values) (andSi128 isLower (subEpi8 v (set1Epi8 (0x61 - 26))))
  let isDigitLo := cmpgtEpi8 v (set1Epi8 (0x30 - 1))
  let isDigitHi := cmpgtEpi8 (set1Epi8 (0x39 + 1)) v
  let isDigit := andSi128 isDigitLo isDigitHi
  let values := orSi128 (andnotSi128 isDigit values)
    (andSi128 isDigit (addEpi8 (subEpi8 v (set1Epi8 0x30)) (set1Epi8 52)))
  let isPlus := cmpeqEpi8 v (set1Epi8 plusChar)
  let values := orSi128 (andnotSi128 isPlus values) (andSi128 isPlus (set1Epi8 62))
  let isSlash := cmpeqEpi8 v (set1Epi8 slashChar)
  orSi128 (andnotSi128 isSlash values) (andSi128 isSlash (set1Epi8 63))

/-- `base64_valid_mask`. -/
def base64ValidMask (v : Vec) (plusChar slashChar : BitVec 8) : Vec :=
  let isUpper := andSi128 (cmpgtEpi8 v (set1Epi8 (0x41 - 1))) (cmpgtEpi8 (set1Epi8 (0x5A + 1)) v)
  let isLower := andSi128 (cmpgtEpi8 v (set1Epi8 (0x61 - 1))) (cmpgtEpi8 (set1Epi8 (0x7A + 1)) v)
  let isDigit := andSi128 (cmpgtEpi8 v (set1Epi8 (0x30 - 1))) (cmpgtEpi8 (set1Epi8 (0x39 + 1)) v)
  let isPlus := cmpeqEpi8 v (set1Epi8 plusChar)
  let isSlash := cmpeqEpi8 v (set1Epi8 slashChar)
  orSi128 (orSi128 (orSi128 isUpper isLower) (orSi128 isDigit isPlus)) isSlash

/-- The bytes of four times four sextets, each three of them in one lane. -/
def decodeIndices (val : Vec) : Vec :=
  let mask6 := set1Epi32 0x3F
  let r12 := srliEpi32 val 12
  let r18 := srliEpi32 val 18
  let r24 := srliEpi32 val 24
  let b0 := orSi128 (slliEpi32 (andSi128 val mask6) 2) (andSi128 r12 (set1Epi32 0x03))
  let b1 := orSi128 (slliEpi32 (andSi128 (srliEpi32 val 8) (set1Epi32 0x0F)) 12)
    (slliEpi32 (andSi128 r18 (set1Epi32 0x0F)) 8)
  let b2 := orSi128 (slliEpi32 (andSi128 (srliEpi32 val 16) (set1Epi32 0x03)) 22) (slliEpi32 r24 16)
  orSi128 (orSi128 b0 b1) b2

def compactMask : Vec := setEpi8 [0xFF, 0xFF, 0xFF, 0xFF, 14, 13, 12, 10, 9, 8, 6, 5, 4, 2, 1, 0]

/-- `base64_decode_16chars`: the bytes, and the mask of the valid characters. -/
def base64Decode16Chars (src : Bytes) (plusChar slashChar : BitVec 8) : Bytes × Vec :=
  let v := load src
  let val := base64MapToIndex v plusChar slashChar
  (store (shuffleEpi8 (decodeIndices val) compactMask), base64ValidMask v plusChar slashChar)

/-- The loop over 12 bytes each, `n` times, with the groups behind it. -/
def encodeBlocks (alphabet pad : Bytes) : ℕ → Bytes → Bytes
  | 0, data => encodeGroups alphabet pad data
  | n + 1, data => base64Encode12Bytes data alphabet ++ encodeBlocks alphabet pad n (data.drop 12)

/-- The loop over 16 characters each, `n` times, with the padded block behind it; `room` characters stand before the
padding. -/
def decodeBlocks (plusChar slashChar : BitVec 8) : ℕ → ℕ → Bytes → Option Bytes
  | 0, room, text =>
      if 0 < room then
        let padded := text.take room ++ List.replicate (16 - room) 0x41
        let (buf, valid) := base64Decode16Chars padded plusChar slashChar
        let keepMask := 2 ^ room - 1
        if movemaskEpi8 valid &&& keepMask ≠ keepMask then none else some (buf.take (room * 3 / 4))
      else some []
  | n + 1, room, text =>
      let (buf, valid) := base64Decode16Chars text plusChar slashChar
      if movemaskEpi8 valid ≠ 0xFFFF then none
      else (decodeBlocks plusChar slashChar n (room - 16) (text.drop 16)).map fun result => buf.take 12 ++ result

/-! ### The codec -/

def encode (build : Build) (data : Bytes) : Bytes :=
  match build with
  | .scalar => encodeGroups base64Chars [padChar] data
  | .ssse3 => encodeBlocks base64Chars [padChar] (data.length / 12) data

def encodeUrl (build : Build) (data : Bytes) (padding : Bool) : Bytes :=
  let pad := if padding then [padChar] else []
  match build with
  | .scalar => encodeGroups base64urlChars pad data
  | .ssse3 => encodeBlocks base64urlChars pad (data.length / 12) data

def isSpace (c : UInt8) : Bool := c = 0x20 || c = 0x09 || c = 0x0A || c = 0x0D || c = 0x0C || c = 0x0B

def clean (data : Bytes) : Bytes := data.filter (!isSpace ·)

/-- The position of the padding: of the last one or two characters, if they are `=`. -/
def paddingStart (cleaned : Bytes) : ℕ :=
  if 2 ≤ cleaned.length ∧ cleaned[cleaned.length - 1]? = some padChar then
    if cleaned[cleaned.length - 2]? = some padChar then cleaned.length - 2 else cleaned.length - 1
  else cleaned.length

/-- What is thrown for an alphabet. -/
structure Texts where
  character : String
  padding : String

def base64Texts : Texts := ⟨"Invalid Base64 character", "Invalid Base64 padding"⟩

def base64urlTexts : Texts := ⟨"Invalid Base64URL character", "Invalid Base64URL padding"⟩

/-- The end of both functions. -/
def finish (texts : Texts) (cleaned : Bytes) (decoded : Option Bytes) : Except String Bytes :=
  match decoded with
  | none => .error texts.character
  | some result => if (cleaned.drop (paddingStart cleaned)).all (· = padChar) then .ok result else .error texts.padding

def decode (build : Build) (data : Bytes) : Except String Bytes :=
  let cleaned := clean data
  if cleaned.length % 4 ≠ 0 then .error "Invalid Base64 length: not a multiple of 4"
  else
    let room := paddingStart cleaned
    finish base64Texts cleaned <| match build with
      | .scalar => decodeGroups base64CharToIndex room cleaned
      | .ssse3 => decodeBlocks 0x2B 0x2F (room / 16) room cleaned

/-- The text without white space, filled up to groups of four. -/
def fillUp (data : Bytes) : Bytes :=
  let cleaned := clean data
  cleaned ++ List.replicate (if cleaned.length % 4 ≠ 0 then 4 - cleaned.length % 4 else 0) padChar

def decodeUrl (build : Build) (data : Bytes) : Except String Bytes :=
  let cleaned := fillUp data
  let room := paddingStart cleaned
  finish base64urlTexts cleaned <| match build with
    | .scalar => decodeGroups base64urlCharToIndex room cleaned
    | .ssse3 => decodeBlocks 0x2D 0x5F (room / 16) room cleaned

end NeForce.Base64
