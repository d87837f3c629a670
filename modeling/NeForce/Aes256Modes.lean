import NeForce.Aes256

/-! # The modes of AES-256

ECB and CBC with PKCS#7 padding, and GCM. A build with AES-NI runs a loop over four blocks at a time before the loop
over single blocks; `simd` stands for `NEFORCE_SIMD_AES_NI`. The multiplication of GHASH is a parameter, as there are
two in the source. -/

namespace NeForce.Aes256

/-! ### Loops over a buffer -/

variable {σ : Type}

/-- The loop that takes `width` bytes a turn while at least `least` remain: what it writes, and where it stops. -/
def bufferLoop (width least : ℕ) (step : σ → Bytes → Bytes × σ) : ℕ → σ → Bytes → Bytes × σ × Bytes
  | 0, s, data => ([], s, data)
  | n + 1, s, data =>
    if least ≤ data.length then
      let (out, s') := step s (data.take width)
      let (rest, s'', tail) := bufferLoop width least step n s' (data.drop width)
      (out ++ rest, s'', tail)
    else ([], s, data)

/-- The loop over four blocks of an AES-NI build, then the loop over single blocks. -/
def blockLoops (simd : Bool) (step4 step : σ → Bytes → Bytes × σ) (s : σ) (data : Bytes) : Bytes :=
  let (out, s, data) := if simd then bufferLoop 64 64 step4 data.length s data else ([], s, data)
  out ++ (bufferLoop 16 1 step data.length s data).1

def xorBuf (a b : Bytes) : Bytes := List.zipWith (· ^^^ ·) a b

/-- The `i`th block of a buffer. -/
def blockAt (i : ℕ) (data : Bytes) : Block := .ofBytes (data.drop (16 * i))

/-! ### ECB -/

def keySizeText : String := "AES-256 requires 32-byte key"

def blocks4 (f : Block → Block) (data : Bytes) : Bytes :=
  (f (blockAt 0 data)).toBytes ++ (f (blockAt 1 data)).toBytes ++ (f (blockAt 2 data)).toBytes ++
    (f (blockAt 3 data)).toBytes

def ecbLoops (simd : Bool) (f : Block → Block) (data : Bytes) : Bytes :=
  blockLoops simd (fun _ d => (blocks4 f d, ())) (fun _ d => ((f (.ofBytes d)).toBytes, ())) () data

def encryptEcb (simd : Bool) (data key : Bytes) : Except String Bytes :=
  if key.length ≠ 32 then .error keySizeText
  else if data.length % 16 ≠ 0 then .error "Data size must be multiple of 16 bytes"
  else .ok (ecbLoops simd (encryptBlock (roundKey (keyExpansion key))) data)

def decryptEcb (simd : Bool) (data key : Bytes) : Except String Bytes :=
  if key.length ≠ 32 then .error keySizeText
  else if data.length % 16 ≠ 0 then .error "Data size must be multiple of 16 bytes"
  else .ok (ecbLoops simd (decryptBlock simd (invRoundKey simd key)) data)

/-- The padding that both modes append. -/
def padded (data : Bytes) : Bytes :=
  let padding := UInt8.ofNat (16 - data.length % 16)
  data ++ List.replicate padding.toNat padding

/-- The removal of the padding, with the texts for a bad length and for a bad byte. -/
def unpadded (lengthText valueText : String) (decrypted : Bytes) : Except String Bytes :=
  match decrypted.getLast? with
  | none => .ok decrypted
  | some paddingLen =>
    if paddingLen = 0 ∨ 16 < paddingLen ∨ decrypted.length < paddingLen.toNat then .error lengthText
    else
      let newSize := decrypted.length - paddingLen.toNat
      if (decrypted.drop newSize).all (· == paddingLen) then .ok (decrypted.take newSize)
      else .error valueText

def encryptEcbPkcs7 (simd : Bool) (data key : Bytes) : Except String Bytes := encryptEcb simd (padded data) key

def decryptEcbPkcs7 (simd : Bool) (data key : Bytes) : Except String Bytes := do
  let decrypted ← decryptEcb simd data key
  unpadded "Invalid PKCS7 padding (invalid length)" "Invalid PKCS7 padding (mismatched value)" decrypted

/-! ### CBC -/

/-- A turn of `encrypt_cbc`; the state is `prev`. -/
def cbcEncryptStep (f : Block → Block) (prev : Block) (data : Bytes) : Bytes × Block :=
  let block := f ((Block.ofBytes data).xor prev)
  (block.toBytes, block)

def cbcDecryptStep (f : Block → Block) (prev : Block) (data : Bytes) : Bytes × Block :=
  (((f (.ofBytes data)).xor prev).toBytes, .ofBytes data)

/-- Four blocks are decrypted before the chain is added. -/
def cbcDecryptStep4 (f : Block → Block) (prev : Block) (data : Bytes) : Bytes × Block :=
  let p0 := (f (blockAt 0 data)).xor prev
  let p1 := (f (blockAt 1 data)).xor (blockAt 0 data)
  let p2 := (f (blockAt 2 data)).xor (blockAt 1 data)
  let p3 := (f (blockAt 3 data)).xor (blockAt 2 data)
  (p0.toBytes ++ p1.toBytes ++ p2.toBytes ++ p3.toBytes, blockAt 3 data)

def encryptCbc (data key iv : Bytes) : Except String Bytes :=
  if key.length ≠ 32 then .error keySizeText
  else if iv.length ≠ 16 then .error "CBC mode requires 16-byte IV"
  else if data.length % 16 ≠ 0 then .error "Data size must be multiple of 16 bytes for CBC no padding"
  else
    let step := cbcEncryptStep (encryptBlock (roundKey (keyExpansion key)))
    .ok (bufferLoop 16 1 step data.length (.ofBytes iv) data).1

def decryptCbc (simd : Bool) (data key iv : Bytes) : Except String Bytes :=
  if key.length ≠ 32 then .error keySizeText
  else if iv.length ≠ 16 then .error "CBC mode requires 16-byte IV"
  else if data.length % 16 ≠ 0 then .error "Data size must be multiple of 16 bytes"
  else
    let f := decryptBlock simd (invRoundKey simd key)
    .ok (blockLoops simd (cbcDecryptStep4 f) (cbcDecryptStep f) (.ofBytes iv) data)

def encryptCbcPkcs7 (data key iv : Bytes) : Except String Bytes := encryptCbc (padded data) key iv

def decryptCbcPkcs7 (simd : Bool) (data key iv : Bytes) : Except String Bytes := do
  let decrypted ← decryptCbc simd data key iv
  unpadded "Invalid PKCS7 padding" "Invalid PKCS7 padding" decrypted

/-! ### GHASH -/

/-- The halves of a 128-bit state, the high one first. -/
abbrev Hash := UInt64 × UInt64

/-- A loop of `gf128_multiply` over the low `n` bits of `x`, from the highest down, with `Z` and `V`. -/
def gf128Loop (x : UInt64) : ℕ → Hash → Hash → Hash × Hash
  | 0, z, v => (z, v)
  | i + 1, z, v =>
    let z := if x >>> .ofNat i &&& 1 ≠ 0 then (z.1 ^^^ v.1, z.2 ^^^ v.2) else z
    let lo := v.2 >>> 1 ||| v.1 <<< 63
    let hi := if v.2 &&& 1 ≠ 0 then v.1 >>> 1 ^^^ 0xE100000000000000 else v.1 >>> 1
    gf128Loop x i z (hi, lo)

/-- The multiplication of a build without PCLMUL. -/
def gf128Multiply (x h : Hash) : Hash :=
  let (z, v) := gf128Loop x.1 64 (0, 0) h
  (gf128Loop x.2 64 z v).1

def readHash (block : Block) : Hash :=
  (.ofNat (readBe (block.toBytes.take 8)), .ofNat (readBe (block.toBytes.drop 8)))

variable (mult : Hash → Hash → Hash)

/-- A shorter last block is padded with zeros. -/
def ghashUpdate (h state : Hash) (data : Bytes) : Hash :=
  let step (state : Hash) (d : Bytes) : Bytes × Hash :=
    let block := readHash (.ofBytes d)
    ([], mult (state.1 ^^^ block.1, state.2 ^^^ block.2) h)
  (bufferLoop 16 1 step data.length state data).2.1

def ghashFinal (h state : Hash) (aLen cLen : ℕ) : Block :=
  let state := ghashUpdate mult h state (writeBe 8 (aLen * 8) ++ writeBe 8 (cLen * 8))
  .ofBytes (writeBe 8 state.1.toNat ++ writeBe 8 state.2.toNat)

/-! ### GCM -/

def inc32 (counter : Block) : Block :=
  { counter with c3 := .ofBytes (writeBe 4 (readBe counter.c3.toBytes + 1)) }

/-- `_mm_add_epi32` with a number in the highest lane, whose bytes are little-endian. -/
def addLane (counter : Block) (n : ℕ) : Block :=
  { counter with c3 := .ofBytes (writeBe 4 (readBe counter.c3.toBytes.reverse + n)).reverse }

/-- `AES256_ctr_keystream_x4` and the bytes it is added to; the state is the counter. -/
def ctrStep4 (f : Block → Block) (counter : Block) (data : Bytes) : Bytes × Block :=
  let keystream := (f counter).toBytes ++ (f (addLane counter 1)).toBytes ++ (f (addLane counter 2)).toBytes ++
    (f (addLane counter 3)).toBytes
  (xorBuf data keystream, inc32 (inc32 (inc32 (inc32 counter))))

def ctrStep (f : Block → Block) (counter : Block) (data : Bytes) : Bytes × Block :=
  (xorBuf data (f counter).toBytes, inc32 counter)

def ctrLoops (simd : Bool) (f : Block → Block) (counter : Block) (data : Bytes) : Bytes :=
  blockLoops simd (ctrStep4 f) (ctrStep f) counter data

def zeroBlock : Block := .ofBytes []

/-- The initial counter block. -/
def initialCounter (h : Hash) (iv : Bytes) : Block :=
  if iv.length = 12 then .ofBytes (iv ++ [0, 0, 0, 1])
  else ghashFinal mult h (ghashUpdate mult h (0, 0) iv) 0 iv.length

/-- The 16 bytes of the tag of a ciphertext. -/
def fullTag (f : Block → Block) (iv aad ciphertext : Bytes) : Bytes :=
  let h := readHash (f zeroBlock)
  let state := ghashUpdate mult h (ghashUpdate mult h (0, 0) aad) ciphertext
  let tag := ghashFinal mult h state aad.length ciphertext.length
  (tag.xor (f (initialCounter mult h iv))).toBytes

/-- The checks that encryption and decryption share. -/
def checkGcm (key iv : Bytes) : Except String Unit :=
  if key.length ≠ 32 then .error keySizeText
  else if iv = [] then .error "GCM IV cannot be empty"
  else .ok ()

def checkTagLen (tagLen : ℕ) : Except String Unit :=
  if tagLen < 12 ∨ 16 < tagLen then .error "GCM tag length must be between 12 and 16 bytes" else .ok ()

/-- The ciphertext and the tag; `tag` tells whether the pointer to its output is set. -/
def encryptGcm (simd : Bool) (data key iv aad : Bytes) (tag : Bool) (tagLen : ℕ) : Except String (Bytes × Bytes) := do
  checkGcm key iv
  if !tag then .error "GCM tag output pointer cannot be null"
  checkTagLen tagLen
  let f := encryptBlock (roundKey (keyExpansion key))
  let counter := inc32 (initialCounter mult (readHash (f zeroBlock)) iv)
  let ciphertext := ctrLoops simd f counter data
  .ok (ciphertext, (fullTag mult f iv aad ciphertext).take tagLen)

/-- Whether two buffers differ in their first `len` bytes. -/
def secureCompare (a b : Bytes) (len : ℕ) : Bool :=
  (List.zipWith (· ^^^ ·) (a.take len) (b.take len)).foldl (· ||| ·) 0 != 0

def decryptGcm (simd : Bool) (data key iv aad tag : Bytes) (tagLen : ℕ) : Except String Bytes := do
  checkGcm key iv
  checkTagLen tagLen
  if tag.length < tagLen then .error "Tag size mismatch"
  let f := encryptBlock (roundKey (keyExpansion key))
  if secureCompare (fullTag mult f iv aad data) tag tagLen then .error "GCM authentication failed"
  let counter := inc32 (initialCounter mult (readHash (f zeroBlock)) iv)
  .ok (ctrLoops simd f counter data)

end NeForce.Aes256
