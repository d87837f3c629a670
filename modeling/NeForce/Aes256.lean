import NeForce.BigEndian

/-! # AES-256

The field, the S-boxes and the rounds of the portable implementation, and the rounds that the AES-NI instructions
compute; their `aesdec` applies `InvMixColumns` before the round key, so that the key schedule for decryption stores the
transformed round keys.

A block is 16 bytes, column by column as in memory. -/

namespace NeForce.Aes256

/-! ### The field -/

/-- The loop of `AES256_gf_mult`. -/
def gfMultLoop : ℕ → UInt8 → UInt8 → UInt8 → UInt8
  | 0, _, _, result => result
  | n + 1, a, b, result =>
    let result := result ^^^ (a &&& ((0 : UInt8) - (b &&& 1)))
    let hiBit := a &&& 0x80
    let a := a <<< 1 ^^^ ((0x1B : UInt8) &&& ((0 : UInt8) - (hiBit >>> 7)))
    gfMultLoop n a (b >>> 1) result

def gfMult (a b : UInt8) : UInt8 := gfMultLoop 8 a b 0

def gfSquare (x : UInt8) : UInt8 := gfMult x x

/-- The 254th power. -/
def gfInv (x : UInt8) : UInt8 :=
  let t2 := gfSquare x
  let t3 := gfMult t2 x
  let t6 := gfSquare t3
  let t7 := gfMult t6 x
  let t12 := gfSquare t6
  let t14 := gfSquare t7
  let t15 := gfMult t12 t3
  let t30 := gfSquare t15
  let t60 := gfSquare t30
  let t120 := gfSquare t60
  let t240 := gfSquare t120
  gfMult t240 t14

def rotl (x : UInt8) (i : UInt8) : UInt8 := x <<< i ||| x >>> (8 - i)

def sboxCt (x : UInt8) : UInt8 :=
  let inv := gfInv x
  let y := inv ^^^ rotl inv 1 ^^^ rotl inv 2 ^^^ rotl inv 3 ^^^ rotl inv 4
  y ^^^ 0x63

def invSboxCt (x : UInt8) : UInt8 := gfInv (rotl x 1 ^^^ rotl x 3 ^^^ rotl x 6 ^^^ 0x05)

/-! ### Blocks -/

/-- The four bytes of a column, or of a 32-bit lane. -/
structure Column where
  s0 : UInt8
  s1 : UInt8
  s2 : UInt8
  s3 : UInt8
  deriving DecidableEq

def Column.toBytes (s : Column) : Bytes := [s.s0, s.s1, s.s2, s.s3]

def Column.ofBytes (l : Bytes) : Column := ⟨l.getD 0 0, l.getD 1 0, l.getD 2 0, l.getD 3 0⟩

def Column.map (f : UInt8 → UInt8) (s : Column) : Column := ⟨f s.s0, f s.s1, f s.s2, f s.s3⟩

def Column.xor (s t : Column) : Column := ⟨s.s0 ^^^ t.s0, s.s1 ^^^ t.s1, s.s2 ^^^ t.s2, s.s3 ^^^ t.s3⟩

structure Block where
  c0 : Column
  c1 : Column
  c2 : Column
  c3 : Column
  deriving DecidableEq

def Block.toBytes (b : Block) : Bytes := b.c0.toBytes ++ b.c1.toBytes ++ b.c2.toBytes ++ b.c3.toBytes

/-- The first 16 bytes of a buffer, with zeros behind its end. -/
def Block.ofBytes (l : Bytes) : Block :=
  ⟨.ofBytes l, .ofBytes (l.drop 4), .ofBytes (l.drop 8), .ofBytes (l.drop 12)⟩

def Block.xor (b b' : Block) : Block := ⟨b.c0.xor b'.c0, b.c1.xor b'.c1, b.c2.xor b'.c2, b.c3.xor b'.c3⟩

/-- The loop over the four columns. -/
def Block.map (f : Column → Column) (state : Block) : Block := ⟨f state.c0, f state.c1, f state.c2, f state.c3⟩

def subBytes : Block → Block := .map (.map sboxCt)

def invSubBytes : Block → Block := .map (.map invSboxCt)

def addRoundKey (state roundKey : Block) : Block := state.xor roundKey

def shiftRows (state : Block) : Block where
  c0 := ⟨state.c0.s0, state.c1.s1, state.c2.s2, state.c3.s3⟩
  c1 := ⟨state.c1.s0, state.c2.s1, state.c3.s2, state.c0.s3⟩
  c2 := ⟨state.c2.s0, state.c3.s1, state.c0.s2, state.c1.s3⟩
  c3 := ⟨state.c3.s0, state.c0.s1, state.c1.s2, state.c2.s3⟩

def invShiftRows (state : Block) : Block where
  c0 := ⟨state.c0.s0, state.c3.s1, state.c2.s2, state.c1.s3⟩
  c1 := ⟨state.c1.s0, state.c0.s1, state.c3.s2, state.c2.s3⟩
  c2 := ⟨state.c2.s0, state.c1.s1, state.c0.s2, state.c3.s3⟩
  c3 := ⟨state.c3.s0, state.c2.s1, state.c1.s2, state.c0.s3⟩

def mixColumn (s : Column) : Column where
  s0 := gfMult 0x02 s.s0 ^^^ gfMult 0x03 s.s1 ^^^ s.s2 ^^^ s.s3
  s1 := s.s0 ^^^ gfMult 0x02 s.s1 ^^^ gfMult 0x03 s.s2 ^^^ s.s3
  s2 := s.s0 ^^^ s.s1 ^^^ gfMult 0x02 s.s2 ^^^ gfMult 0x03 s.s3
  s3 := gfMult 0x03 s.s0 ^^^ s.s1 ^^^ s.s2 ^^^ gfMult 0x02 s.s3

def invMixColumn (s : Column) : Column where
  s0 := gfMult 0x0E s.s0 ^^^ gfMult 0x0B s.s1 ^^^ gfMult 0x0D s.s2 ^^^ gfMult 0x09 s.s3
  s1 := gfMult 0x09 s.s0 ^^^ gfMult 0x0E s.s1 ^^^ gfMult 0x0B s.s2 ^^^ gfMult 0x0D s.s3
  s2 := gfMult 0x0D s.s0 ^^^ gfMult 0x09 s.s1 ^^^ gfMult 0x0E s.s2 ^^^ gfMult 0x0B s.s3
  s3 := gfMult 0x0B s.s0 ^^^ gfMult 0x0D s.s1 ^^^ gfMult 0x09 s.s2 ^^^ gfMult 0x0E s.s3

def mixColumns : Block → Block := .map mixColumn

def invMixColumns : Block → Block := .map invMixColumn

/-! ### Key schedules -/

def rcon : List UInt8 := [0x01, 0x02, 0x04, 0x08, 0x10, 0x20, 0x40, 0x80, 0x1B, 0x36, 0x6C, 0xD8, 0xAB, 0x4D, 0x9A]

/-- The word that is added to the word eight places before. -/
def expansionWord (i : ℕ) (temp : Bytes) : Bytes :=
  if i % 8 = 0 then
    let temp := (temp.drop 1 ++ temp.take 1).map sboxCt
    List.zipWith (· ^^^ ·) temp [rcon.getD (i / 8 - 1) 0, 0, 0, 0]
  else if i % 8 = 4 then temp.map sboxCt
  else temp

/-- The words from the eighth on. -/
def expandWords : ℕ → Bytes → Bytes
  | 0, expandedKey => expandedKey
  | n + 1, expandedKey =>
    let i := expandedKey.length / 4
    let temp := expansionWord i ((expandedKey.drop ((i - 1) * 4)).take 4)
    expandWords n (expandedKey ++ List.zipWith (· ^^^ ·) ((expandedKey.drop ((i - 8) * 4)).take 4) temp)

def keyExpansion (key : Bytes) : Bytes := expandWords 52 (key.take 32)

def roundKey (expandedKey : Bytes) (round : ℕ) : Block := .ofBytes (expandedKey.drop (round * 16))

/-- `AES256_inv_key_expansion`, by round; `simd` stands for `NEFORCE_SIMD_AES_NI`. -/
def invRoundKey (simd : Bool) (key : Bytes) (round : ℕ) : Block :=
  let rk := roundKey (keyExpansion key) round
  if simd && 1 ≤ round && round < 14 then invMixColumns rk else rk

/-! ### One block -/

/-- The rounds from the first to the `n`th. -/
def encryptRounds (rk : ℕ → Block) : ℕ → Block → Block
  | 0, block => block
  | n + 1, block => addRoundKey (mixColumns (shiftRows (subBytes (encryptRounds rk n block)))) (rk (n + 1))

/-- `encrypt_block`; the `aesenc` and `aesenclast` instructions are these steps. -/
def encryptBlock (rk : ℕ → Block) (src : Block) : Block :=
  addRoundKey (shiftRows (subBytes (encryptRounds rk 13 (addRoundKey src (rk 0))))) (rk 14)

/-- A round of the portable `decrypt_block`, or `aesdec`. -/
def decryptRound (simd : Bool) (rk : Block) (block : Block) : Block :=
  if simd then addRoundKey (invMixColumns (invSubBytes (invShiftRows block))) rk
  else invMixColumns (addRoundKey (invSubBytes (invShiftRows block)) rk)

/-- The rounds from the `n`th down to the first. -/
def decryptRounds (simd : Bool) (rk : ℕ → Block) : ℕ → Block → Block
  | 0, block => block
  | n + 1, block => decryptRounds simd rk n (decryptRound simd (rk (n + 1)) block)

/-- `decrypt_block`. -/
def decryptBlock (simd : Bool) (rk : ℕ → Block) (src : Block) : Block :=
  addRoundKey (invSubBytes (invShiftRows (decryptRounds simd rk 13 (addRoundKey src (rk 14))))) (rk 0)

end NeForce.Aes256
