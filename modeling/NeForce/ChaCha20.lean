import NeForce.Aes256RoundTrip
import NeForce.Words
import NeForce.Aes256Gcm
import NeForce.Poly1305

/-! # ChaCha20

The block function on sixteen words, and on four rows of four lanes whose rotations bring the diagonals into columns and
back.  A build with SSE2 works on rows and adds the keystream sixteen bytes at a time. -/

namespace NeForce.ChaCha20

open Aes256 (bufferLoop bufferLoop_congr bufferLoop_keystream xorBuf xorBuf_split)

def read32 (l : Bytes) (offset : ℕ) : UInt32 := .ofNat (readLe ((l.drop offset).take 4))

def write32 (w : UInt32) : Bytes := writeLe 4 w.toNat

def chachaConst : Bytes := ascii "expand 32-byte k"

def rotl (v n : UInt32) : UInt32 := v <<< n ||| v >>> (32 - n)

/-- The words of a quarter round. -/
def quarter (a b c d : UInt32) : UInt32 × UInt32 × UInt32 × UInt32 :=
  let a := a + b
  let d := rotl (d ^^^ a) 16
  let c := c + d
  let b := rotl (b ^^^ c) 12
  let a := a + b
  let d := rotl (d ^^^ a) 8
  let c := c + d
  let b := rotl (b ^^^ c) 7
  (a, b, c, d)

def chacha20QuarterRound (state : List UInt32) (a b c d : ℕ) : List UInt32 :=
  let (wa, wb, wc, wd) := quarter (state.getD a 0) (state.getD b 0) (state.getD c 0) (state.getD d 0)
  (((state.set a wa).set b wb).set c wc).set d wd

def initialState (key : Bytes) (counter : UInt32) (nonce : Bytes) : List UInt32 :=
  [read32 chachaConst 0, read32 chachaConst 4, read32 chachaConst 8, read32 chachaConst 12] ++
    ((List.range 8).map fun i => read32 key (i * 4)) ++ counter :: (List.range 3).map fun i => read32 nonce (i * 4)

/-- Four columns, then four diagonals. -/
def doubleRound (working : List UInt32) : List UInt32 :=
  let working := chacha20QuarterRound working 0 4 8 12
  let working := chacha20QuarterRound working 1 5 9 13
  let working := chacha20QuarterRound working 2 6 10 14
  let working := chacha20QuarterRound working 3 7 11 15
  let working := chacha20QuarterRound working 0 5 10 15
  let working := chacha20QuarterRound working 1 6 11 12
  let working := chacha20QuarterRound working 2 7 8 13
  chacha20QuarterRound working 3 4 9 14

def chacha20Block (key : Bytes) (counter : UInt32) (nonce : Bytes) : Bytes :=
  let state := initialState key counter nonce
  (List.zipWith (· + ·) (doubleRound^[10] state) state).flatMap write32

/-! ### Rows -/

/-- A vector of four lanes, the lowest one first. -/
structure Row where
  l0 : UInt32
  l1 : UInt32
  l2 : UInt32
  l3 : UInt32

namespace Row

def set (e3 e2 e1 e0 : UInt32) : Row := ⟨e0, e1, e2, e3⟩

def map (f : UInt32 → UInt32) (v : Row) : Row := ⟨f v.l0, f v.l1, f v.l2, f v.l3⟩

def map₂ (f : UInt32 → UInt32 → UInt32) (v w : Row) : Row := ⟨f v.l0 w.l0, f v.l1 w.l1, f v.l2 w.l2, f v.l3 w.l3⟩

def add : Row → Row → Row := map₂ (· + ·)

def xor : Row → Row → Row := map₂ (· ^^^ ·)

def or : Row → Row → Row := map₂ (· ||| ·)

def slli (v : Row) (bits : UInt32) : Row := v.map (· <<< bits)

def srli (v : Row) (bits : UInt32) : Row := v.map (· >>> bits)

def lane (v : Row) (i : ℕ) : UInt32 :=
  match i with
  | 0 => v.l0
  | 1 => v.l1
  | 2 => v.l2
  | _ => v.l3

/-- `_mm_shuffle_epi32` with `_MM_SHUFFLE(z, y, x, w)`, whose lowest lane is lane `w`. -/
def shuffle (v : Row) (z y x w : ℕ) : Row := ⟨v.lane w, v.lane x, v.lane y, v.lane z⟩

def words (v : Row) : List UInt32 := [v.l0, v.l1, v.l2, v.l3]

/-- `_mm_storeu_si128`. -/
def store (v : Row) : Bytes := v.words.flatMap write32

end Row

def chacha20Rotl32 (v : Row) (bits : UInt32) : Row := (v.slli bits).or (v.srli (32 - bits))

/-- The rows `w0` to `w3`. -/
structure Rows where
  w0 : Row
  w1 : Row
  w2 : Row
  w3 : Row

def chacha20QuarterRoundSimd (rows : Rows) : Rows :=
  let a := rows.w0.add rows.w1
  let d := chacha20Rotl32 (rows.w3.xor a) 16
  let c := rows.w2.add d
  let b := chacha20Rotl32 (rows.w1.xor c) 12
  let a := a.add b
  let d := chacha20Rotl32 (d.xor a) 8
  let c := c.add d
  let b := chacha20Rotl32 (b.xor c) 7
  ⟨a, b, c, d⟩

/-- The diagonals become columns. -/
def Rows.rotate (rows : Rows) : Rows :=
  ⟨rows.w0, rows.w1.shuffle 0 3 2 1, rows.w2.shuffle 1 0 3 2, rows.w3.shuffle 2 1 0 3⟩

def Rows.rotateBack (rows : Rows) : Rows :=
  ⟨rows.w0, rows.w1.shuffle 2 1 0 3, rows.w2.shuffle 1 0 3 2, rows.w3.shuffle 0 3 2 1⟩

def doubleRoundSimd (rows : Rows) : Rows := (chacha20QuarterRoundSimd (chacha20QuarterRoundSimd rows).rotate).rotateBack

def initialRows (key : Bytes) (counter : UInt32) (nonce : Bytes) : Rows where
  w0 := .set (read32 chachaConst 12) (read32 chachaConst 8) (read32 chachaConst 4) (read32 chachaConst 0)
  w1 := .set (read32 key 12) (read32 key 8) (read32 key 4) (read32 key 0)
  w2 := .set (read32 key 28) (read32 key 24) (read32 key 20) (read32 key 16)
  w3 := .set (read32 nonce 8) (read32 nonce 4) (read32 nonce 0) counter

def chacha20BlockSimd (key : Bytes) (counter : UInt32) (nonce : Bytes) : Bytes :=
  let v := initialRows key counter nonce
  let w := doubleRoundSimd^[10] v
  (w.w0.add v.w0).store ++ (w.w1.add v.w1).store ++ (w.w2.add v.w2).store ++ (w.w3.add v.w3).store

/-! ### The stream -/

/-- A chunk of at most 64 bytes: sixteen bytes at a time with SSE2, then the bytes that are left. -/
def xorChunk (simd : Bool) (chunk keystream : Bytes) : Bytes :=
  if simd then
    let step (keystream d : Bytes) : Bytes × Bytes := (xorBuf d (keystream.take 16), keystream.drop 16)
    let (out, keystream, tail) := bufferLoop 16 16 step chunk.length keystream chunk
    out ++ xorBuf tail keystream
  else xorBuf chunk keystream

def chacha20Encrypt (simd : Bool) (key : Bytes) (counter : UInt32) (nonce data : Bytes) : Bytes :=
  let step (counter : UInt32) (chunk : Bytes) : Bytes × UInt32 :=
    (xorChunk simd chunk (if simd then chacha20BlockSimd key counter nonce else chacha20Block key counter nonce), counter + 1)
  (bufferLoop 64 1 step data.length counter data).1

/-- The blocks of `counter`, `counter + 1` and so on. -/
def keystream (key : Bytes) (counter : UInt32) (nonce : Bytes) (n : ℕ) : Bytes :=
  (List.range n).flatMap fun i => chacha20Block key (counter + .ofNat i) nonce

def Rows.words (rows : Rows) : List UInt32 := rows.w0.words ++ rows.w1.words ++ rows.w2.words ++ rows.w3.words

variable {n : ℕ}

/-! ### Rows and words -/

/-- A quarter round on rows is one on every column. -/
theorem quarterRoundSimd_eq (rows : Rows) :
    chacha20QuarterRoundSimd rows =
      let q0 := quarter rows.w0.l0 rows.w1.l0 rows.w2.l0 rows.w3.l0
      let q1 := quarter rows.w0.l1 rows.w1.l1 rows.w2.l1 rows.w3.l1
      let q2 := quarter rows.w0.l2 rows.w1.l2 rows.w2.l2 rows.w3.l2
      let q3 := quarter rows.w0.l3 rows.w1.l3 rows.w2.l3 rows.w3.l3
      ⟨⟨q0.1, q1.1, q2.1, q3.1⟩, ⟨q0.2.1, q1.2.1, q2.2.1, q3.2.1⟩, ⟨q0.2.2.1, q1.2.2.1, q2.2.2.1, q3.2.2.1⟩,
        ⟨q0.2.2.2, q1.2.2.2, q2.2.2.2, q3.2.2.2⟩⟩ := rfl

theorem words_columns (rows : Rows) :
    (chacha20QuarterRoundSimd rows).words =
      chacha20QuarterRound (chacha20QuarterRound (chacha20QuarterRound (chacha20QuarterRound rows.words 0 4 8 12) 1 5 9 13) 2 6 10 14) 3 7 11 15 := by
  simp only [quarterRoundSimd_eq, chacha20QuarterRound, Rows.words, Row.words]
  generalize quarter = q
  simp only [List.cons_append, List.nil_append, List.getD_cons_succ, List.getD_cons_zero, List.set_cons_succ, List.set_cons_zero]

theorem words_diagonals (rows : Rows) :
    (chacha20QuarterRoundSimd rows.rotate).rotateBack.words =
      chacha20QuarterRound (chacha20QuarterRound (chacha20QuarterRound (chacha20QuarterRound rows.words 0 5 10 15) 1 6 11 12) 2 7 8 13) 3 4 9 14 := by
  simp only [quarterRoundSimd_eq, chacha20QuarterRound, Rows.words, Row.words, Rows.rotate, Rows.rotateBack, Row.shuffle, Row.lane]
  generalize quarter = q
  simp only [List.cons_append, List.nil_append, List.getD_cons_succ, List.getD_cons_zero, List.set_cons_succ, List.set_cons_zero]

/-- A double round on rows is one on their words. -/
theorem words_doubleRoundSimd (rows : Rows) : (doubleRoundSimd rows).words = doubleRound rows.words := by
  rw [doubleRoundSimd, words_diagonals, words_columns, doubleRound]

theorem words_initialRows (key : Bytes) (counter : UInt32) (nonce : Bytes) :
    (initialRows key counter nonce).words = initialState key counter nonce := rfl

theorem words_iterate (n : ℕ) (rows : Rows) : (doubleRoundSimd^[n] rows).words = doubleRound^[n] rows.words :=
  (Function.Semiconj.iterate_right words_doubleRoundSimd n) rows

theorem blockSimd_eq (key : Bytes) (counter : UInt32) (nonce : Bytes) :
    chacha20BlockSimd key counter nonce = chacha20Block key counter nonce := by
  have hsum (w v : Rows) : (w.w0.add v.w0).store ++ (w.w1.add v.w1).store ++ (w.w2.add v.w2).store ++ (w.w3.add v.w3).store =
      (List.zipWith (· + ·) w.words v.words).flatMap write32 := rfl
  rw [chacha20BlockSimd, chacha20Block, ← words_initialRows, ← words_iterate]
  exact hsum _ _

theorem length_write32 (l : List UInt32) : (l.flatMap write32).length = 4 * l.length := by
  induction l with
  | nil => rfl
  | cons w l ih =>
      rw [List.flatMap_cons, List.length_append, List.length_cons, ih, write32, length_writeLe]
      omega

theorem length_chacha20Block (key : Bytes) (counter : UInt32) (nonce : Bytes) :
    (chacha20Block key counter nonce).length = 64 := by
  have hwords (rows : Rows) : rows.words.length = 16 := rfl
  rw [chacha20Block, length_write32, ← words_initialRows, ← words_iterate, List.length_zipWith, hwords, hwords, Nat.min_self]

/-! ### Chunks -/

/-- The parts of sixteen bytes and the bytes that are left. -/
theorem xorChunk_eq (simd : Bool) (chunk keystream : Bytes) (hlen : chunk.length ≤ keystream.length) :
    xorChunk simd chunk keystream = xorBuf chunk keystream := by
  cases simd with
  | false => rfl
  | true =>
      rw [xorChunk, if_pos rfl]
      suffices h : ∀ n, ∀ chunk keystream : Bytes, chunk.length ≤ keystream.length →
          (bufferLoop 16 16 (fun keystream d => (xorBuf d (keystream.take 16), keystream.drop 16)) n keystream chunk).1 ++
            xorBuf (bufferLoop 16 16 (fun keystream d => (xorBuf d (keystream.take 16), keystream.drop 16)) n keystream chunk).2.2
              (bufferLoop 16 16 (fun keystream d => (xorBuf d (keystream.take 16), keystream.drop 16)) n keystream chunk).2.1 =
            xorBuf chunk keystream from h chunk.length chunk keystream hlen
      intro n
      induction n with
      | zero => exact fun chunk keystream _ => rfl
      | succ n ih =>
          intro chunk keystream hlen
          unfold bufferLoop
          split
          case isTrue h16 =>
            have hchunk := List.length_drop (i := 16) (l := chunk)
            have hkeys := List.length_drop (i := 16) (l := keystream)
            have htake : (keystream.take 16).length = 16 := by
              rw [List.length_take]
              omega
            dsimp only
            rw [List.append_assoc, ih _ _ (by omega)]
            conv_rhs => rw [← List.take_append_drop 16 keystream, xorBuf_split, htake]
          case isFalse => rfl

/-- Every build adds the same keystream, for data of any length. -/
theorem encryptStream_eq (simd : Bool) (key : Bytes) (counter : UInt32) (nonce data : Bytes) :
    chacha20Encrypt simd key counter nonce data = xorBuf data (keystream key counter nonce ((data.length + 63) / 64)) := by
  have hcounter (i : ℕ) : (· + 1)^[i] counter = counter + .ofNat i := by
    induction i with
    | zero => exact (UInt32.add_zero counter).symm
    | succ i ih => rw [Function.iterate_succ_apply', ih, UInt32.add_assoc, UInt32.ofNat_add]; rfl
  have hloop := bufferLoop_keystream (by decide) (fun c => length_chacha20Block key c nonce) (· + 1) counter
    (le_refl data.length)
  simp only [hcounter] at hloop
  rw [keystream, ← hloop, chacha20Encrypt]
  refine congrArg Prod.fst (bufferLoop_congr (fun c d hd => ?_) _ _ _)
  have hkeys : (if simd then chacha20BlockSimd key c nonce else chacha20Block key c nonce) = chacha20Block key c nonce := by
    rw [blockSimd_eq, ite_self]
  rw [hkeys, xorChunk_eq simd d _ (by rw [length_chacha20Block]; exact hd)]

end NeForce.ChaCha20

/-! ## ChaCha20-Poly1305

The tag is computed over the additional data and the ciphertext, each filled up to sixteen bytes, and their lengths. -/

namespace NeForce.ChaCha20

open Aes256 (secureCompare secureCompare_eq xorBuf xorBuf_xorBuf)
open Poly1305 (poly1305Mac poly1305Mac_eq)

def pad16Len (len : ℕ) : ℕ := (16 - len % 16) % 16

def polyMsg (aad ciphertext : Bytes) : Bytes :=
  aad ++ List.replicate (pad16Len aad.length) 0 ++ ciphertext ++ List.replicate (pad16Len ciphertext.length) 0 ++
    writeLe 8 aad.length ++ writeLe 8 ciphertext.length

/-- The tag under the one-time key, the first half of block zero; every message has one. -/
def computedTag (key nonce aad ciphertext : Bytes) : Bytes :=
  (poly1305Mac ((chacha20Block key 0 nonce).take 32) (polyMsg aad ciphertext)).getD []

def checkSizes (key nonce : Bytes) : Except String Unit :=
  if key.length ≠ 32 then .error "ChaCha20-Poly1305 requires 32-byte key"
  else if nonce.length ≠ 12 then .error "ChaCha20-Poly1305 requires 12-byte nonce"
  else .ok ()

/-- The ciphertext and the tag; `tag` tells whether the pointer to its output is set. -/
def encrypt (simd : Bool) (data key nonce aad : Bytes) (tag : Bool) : Except String (Bytes × Bytes) := do
  checkSizes key nonce
  if !tag then .error "ChaCha20-Poly1305 tag output pointer cannot be null"
  let ciphertext := chacha20Encrypt simd key 1 nonce data
  .ok (ciphertext, computedTag key nonce aad ciphertext)

def decrypt (simd : Bool) (data key nonce aad tag : Bytes) : Except String Bytes := do
  checkSizes key nonce
  if tag.length ≠ 16 then .error "ChaCha20-Poly1305 requires 16-byte authentication tag"
  if secureCompare (computedTag key nonce aad data) tag 16 then .error "ChaCha20-Poly1305 authentication failed"
  .ok (chacha20Encrypt simd key 1 nonce data)

variable {key nonce : Bytes}

theorem length_computedTag (key nonce aad ciphertext : Bytes) : (computedTag key nonce aad ciphertext).length = 16 := by
  have hkey : ((chacha20Block key 0 nonce).take 32).length = 32 := by
    rw [List.length_take, length_chacha20Block]
    rfl
  obtain ⟨v, hmac, -⟩ := poly1305Mac_eq _ (polyMsg aad ciphertext) hkey
  rw [computedTag, hmac, Option.getD_some, length_writeLe]

theorem length_keystream (key : Bytes) (counter : UInt32) (nonce : Bytes) (n : ℕ) :
    (keystream key counter nonce n).length = 64 * n := by
  induction n with
  | zero => rfl
  | succ n ih =>
      rw [keystream] at ih ⊢
      rw [List.range_succ, List.flatMap_append, List.length_append, ih, List.flatMap_singleton, length_chacha20Block]
      rfl

/-- The stream is added twice. -/
theorem encryptStream_undoes (simd simd' : Bool) (key : Bytes) (counter : UInt32) (nonce data : Bytes) :
    chacha20Encrypt simd' key counter nonce (chacha20Encrypt simd key counter nonce data) = data := by
  have hle : data.length ≤ (keystream key counter nonce ((data.length + 63) / 64)).length := by
    rw [length_keystream]
    omega
  have hlen : (xorBuf data (keystream key counter nonce ((data.length + 63) / 64))).length = data.length := by
    rw [xorBuf, List.length_zipWith, Nat.min_eq_left hle]
  rw [encryptStream_eq, encryptStream_eq, hlen, xorBuf_xorBuf hle]

theorem decrypt_eq (simd : Bool) (data aad : Bytes) {tag : Bytes} (hkey : key.length = 32) (hnonce : nonce.length = 12)
    (htag : tag.length = 16) :
    decrypt simd data key nonce aad tag =
      if tag = computedTag key nonce aad data then .ok (chacha20Encrypt simd key 1 nonce data)
      else .error "ChaCha20-Poly1305 authentication failed" := by
  have hlen := length_computedTag key nonce aad data
  have hcompare := secureCompare_eq (a := computedTag key nonce aad data) (b := tag) hlen.ge htag.ge
  rw [List.take_of_length_le hlen.le, List.take_of_length_le htag.le] at hcompare
  simp only [decrypt, checkSizes, hkey, hnonce, htag]
  by_cases h : tag = computedTag key nonce aad data
  · have hsame : secureCompare (computedTag key nonce aad data) tag 16 ≠ true := fun hs => hcompare.mp hs h.symm
    rw [if_pos h, if_neg hsame]
    rfl
  · rw [if_neg h, if_pos (hcompare.mpr (Ne.symm h))]
    rfl

/-- The blocks and the stream are the same in every build, decryption in any build gives back what any build encrypted,
and a tag that is not the recomputed one is refused. -/
theorem chacha20_same_in_every_build (data aad : Bytes) (hkey : key.length = 32) (hnonce : nonce.length = 12) :
    (∀ counter, chacha20BlockSimd key counter nonce = chacha20Block key counter nonce ∧
    (chacha20Block key counter nonce).length = 64) ∧
      (∀ simd counter, chacha20Encrypt simd key counter nonce data =
        xorBuf data ((List.range ((data.length + 63) / 64)).flatMap fun i => chacha20Block key (counter + .ofNat i) nonce)) ∧
      (∀ simd simd', (encrypt simd data key nonce aad true).bind (fun c => decrypt simd' c.1 key nonce aad c.2) = .ok data) ∧
      (∀ simd tag, tag ≠ computedTag key nonce aad data → ∃ e, decrypt simd data key nonce aad tag = .error e) := by
  refine ⟨fun counter => ⟨blockSimd_eq key counter nonce, length_chacha20Block key counter nonce⟩,
    fun simd counter => encryptStream_eq simd key counter nonce data, fun simd simd' => ?_, fun simd tag hne => ?_⟩
  · have henc : encrypt simd data key nonce aad true =
        .ok (chacha20Encrypt simd key 1 nonce data, computedTag key nonce aad (chacha20Encrypt simd key 1 nonce data)) := by
      simp only [encrypt, checkSizes, hkey, hnonce]
      rfl
    rw [henc]
    show decrypt simd' _ key nonce aad _ = .ok data
    rw [decrypt_eq simd' _ aad hkey hnonce (length_computedTag ..), if_pos rfl, encryptStream_undoes]
  · by_cases htag : tag.length = 16
    · rw [decrypt_eq simd data aad hkey hnonce htag, if_neg hne]
      exact ⟨_, rfl⟩
    · refine ⟨"ChaCha20-Poly1305 requires 16-byte authentication tag", ?_⟩
      simp only [decrypt, checkSizes, hkey, hnonce]
      rw [if_pos htag]
      rfl

theorem chacha20_round_trip_short :
    (encrypt true [1, 2, 3] (List.replicate 32 7) (List.replicate 12 5) [4] true).bind
      (fun c => decrypt false c.1 (List.replicate 32 7) (List.replicate 12 5) [4] c.2) = .ok [1, 2, 3] :=
  (chacha20_same_in_every_build [1, 2, 3] [4] (List.length_replicate ..) (List.length_replicate ..)).2.2.1 true false

end NeForce.ChaCha20
