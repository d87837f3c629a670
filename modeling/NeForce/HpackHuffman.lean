import NeForce.Bits
import NeForce.PrefixCode
import Mathlib.Algebra.BigOperators.Group.List.Basic

/-! # The Huffman code of HPACK

`encodeHuffman` packs the codes of the bytes of a string into bytes through a 64-bit buffer and
fills the last byte with ones.  `decodeHuffman` reads the codes back through a bit cursor: it fills
a 64-bit buffer, looks the next fifteen bits up in a table, and falls back to a search through all
the codes.  No code is a prefix of another one, so it returns what was encoded (`decode_encode_huffman`). -/

namespace NeForce.Hpack

open PrefixCode

/-! ### The code -/

/-- The code of each byte and its number of bits. -/
def huffmanTable : List (ℕ × ℕ) :=
  [(0x1ff8, 13), (0x7fffd8, 23), (0xfffffe2, 28), (0xfffffe3, 28), (0xfffffe4, 28), (0xfffffe5, 28),
   (0xfffffe6, 28), (0xfffffe7, 28), (0xfffffe8, 28), (0xffffea, 24), (0x3ffffffc, 30), (0xfffffe9, 28),
   (0xfffffea, 28), (0x3ffffffd, 30), (0xfffffeb, 28), (0xfffffec, 28), (0xfffffed, 28), (0xfffffee, 28),
   (0xfffffef, 28), (0xffffff0, 28), (0xffffff1, 28), (0xffffff2, 28), (0x3ffffffe, 30), (0xffffff3, 28),
   (0xffffff4, 28), (0xffffff5, 28), (0xffffff6, 28), (0xffffff7, 28), (0xffffff8, 28), (0xffffff9, 28),
   (0xffffffa, 28), (0xffffffb, 28), (0x14, 6), (0x3f8, 10), (0x3f9, 10), (0xffa, 12), (0x1ff9, 13), (0x15, 6),
   (0xf8, 8), (0x7fa, 11), (0x3fa, 10), (0x3fb, 10), (0xf9, 8), (0x7fb, 11), (0xfa, 8), (0x16, 6), (0x17, 6),
   (0x18, 6), (0x0, 5), (0x1, 5), (0x2, 5), (0x19, 6), (0x1a, 6), (0x1b, 6), (0x1c, 6), (0x1d, 6), (0x1e, 6),
   (0x1f, 6), (0x5c, 7), (0xfb, 8), (0x7ffc, 15), (0x20, 6), (0xffb, 12), (0x3fc, 10), (0x1ffa, 13), (0x21, 6),
   (0x5d, 7), (0x5e, 7), (0x5f, 7), (0x60, 7), (0x61, 7), (0x62, 7), (0x63, 7), (0x64, 7), (0x65, 7),
   (0x66, 7), (0x67, 7), (0x68, 7), (0x69, 7), (0x6a, 7), (0x6b, 7), (0x6c, 7), (0x6d, 7), (0x6e, 7),
   (0x6f, 7), (0x70, 7), (0x71, 7), (0x72, 7), (0xfc, 8), (0x73, 7), (0xfd, 8), (0x1ffb, 13), (0x7fff0, 19),
   (0x1ffc, 13), (0x3ffc, 14), (0x22, 6), (0x7ffd, 15), (0x3, 5), (0x23, 6), (0x4, 5), (0x24, 6), (0x5, 5),
   (0x25, 6), (0x26, 6), (0x27, 6), (0x6, 5), (0x74, 7), (0x75, 7), (0x28, 6), (0x29, 6), (0x2a, 6), (0x7, 5),
   (0x2b, 6), (0x76, 7), (0x2c, 6), (0x8, 5), (0x9, 5), (0x2d, 6), (0x77, 7), (0x78, 7), (0x79, 7), (0x7a, 7),
   (0x7b, 7), (0x7ffe, 15), (0x7fc, 11), (0x3ffd, 14), (0x1ffd, 13), (0xffffffc, 28), (0xfffe6, 20),
   (0x3fffd2, 22), (0xfffe7, 20), (0xfffe8, 20), (0x3fffd3, 22), (0x3fffd4, 22), (0x3fffd5, 22),
   (0x7fffd9, 23), (0x3fffd6, 22), (0x7fffda, 23), (0x7fffdb, 23), (0x7fffdc, 23), (0x7fffdd, 23),
   (0x7fffde, 23), (0xffffeb, 24), (0x7fffdf, 23), (0xffffec, 24), (0xffffed, 24), (0x3fffd7, 22),
   (0x7fffe0, 23), (0xffffee, 24), (0x7fffe1, 23), (0x7fffe2, 23), (0x7fffe3, 23), (0x7fffe4, 23),
   (0x1fffdc, 21), (0x3fffd8, 22), (0x7fffe5, 23), (0x3fffd9, 22), (0x7fffe6, 23), (0x7fffe7, 23),
   (0xffffef, 24), (0x3fffda, 22), (0x1fffdd, 21), (0xfffe9, 20), (0x3fffdb, 22), (0x3fffdc, 22),
   (0x7fffe8, 23), (0x7fffe9, 23), (0x1fffde, 21), (0x7fffea, 23), (0x3fffdd, 22), (0x3fffde, 22),
   (0xfffff0, 24), (0x1fffdf, 21), (0x3fffdf, 22), (0x7fffeb, 23), (0x7fffec, 23), (0x1fffe0, 21),
   (0x1fffe1, 21), (0x3fffe0, 22), (0x1fffe2, 21), (0x7fffed, 23), (0x3fffe1, 22), (0x7fffee, 23),
   (0x7fffef, 23), (0xfffea, 20), (0x3fffe2, 22), (0x3fffe3, 22), (0x3fffe4, 22), (0x7ffff0, 23),
   (0x3fffe5, 22), (0x3fffe6, 22), (0x7ffff1, 23), (0x3ffffe0, 26), (0x3ffffe1, 26), (0xfffeb, 20),
   (0x7fff1, 19), (0x3fffe7, 22), (0x7ffff2, 23), (0x3fffe8, 22), (0x1ffffec, 25), (0x3ffffe2, 26),
   (0x3ffffe3, 26), (0x3ffffe4, 26), (0x7ffffde, 27), (0x7ffffdf, 27), (0x3ffffe5, 26), (0xfffff1, 24),
   (0x1ffffed, 25), (0x7fff2, 19), (0x1fffe3, 21), (0x3ffffe6, 26), (0x7ffffe0, 27), (0x7ffffe1, 27),
   (0x3ffffe7, 26), (0x7ffffe2, 27), (0xfffff2, 24), (0x1fffe4, 21), (0x1fffe5, 21), (0x3ffffe8, 26),
   (0x3ffffe9, 26), (0xffffffd, 28), (0x7ffffe3, 27), (0x7ffffe4, 27), (0x7ffffe5, 27), (0xfffec, 20),
   (0xfffff3, 24), (0xfffed, 20), (0x1fffe6, 21), (0x3fffe9, 22), (0x1fffe7, 21), (0x1fffe8, 21),
   (0x7ffff3, 23), (0x3fffea, 22), (0x3fffeb, 22), (0x1ffffee, 25), (0x1ffffef, 25), (0xfffff4, 24),
   (0xfffff5, 24), (0x3ffffea, 26), (0x7ffff4, 23), (0x3ffffeb, 26), (0x7ffffe6, 27), (0x3ffffec, 26),
   (0x3ffffed, 26), (0x7ffffe7, 27), (0x7ffffe8, 27), (0x7ffffe9, 27), (0x7ffffea, 27), (0x7ffffeb, 27),
   (0xffffffe, 28), (0x7ffffec, 27), (0x7ffffed, 27), (0x7ffffee, 27), (0x7ffffef, 27), (0x7fffff0, 27),
   (0x3ffffee, 26)]

def huffmanCode (b : UInt8) : ℕ := (huffmanTable.getD b.toNat (0, 0)).1

def huffmanBits (b : UInt8) : ℕ := (huffmanTable.getD b.toNat (0, 0)).2

/-! ### Encoding -/

/-- `while (bits_in_buf >= 8)`: the full bytes of the buffer, and the number of bits left in it. -/
def flushBytes (bitBuf : ℕ) : ℕ → ℕ → Bytes × ℕ
  | 0, bitsInBuf => ([], bitsInBuf)
  | n + 1, bitsInBuf =>
      if 8 ≤ bitsInBuf then
        let r := flushBytes bitBuf n (bitsInBuf - 8)
        (UInt8.ofNat ((bitBuf >>> (bitsInBuf - 8)) &&& 0xFF) :: r.1, r.2)
      else ([], bitsInBuf)

/-- The encoding loop, with its 64-bit buffer, and the padding of the last byte. -/
def encodeHuffmanLoop : Bytes → ℕ → ℕ → Bytes
  | [], bitBuf, bitsInBuf =>
      if 0 < bitsInBuf then
        [UInt8.ofNat (((bitBuf <<< (8 - bitsInBuf)) &&& 0xFF) ||| (1 <<< (8 - bitsInBuf) - 1))]
      else []
  | b :: s, bitBuf, bitsInBuf =>
      let bitBuf := (bitBuf <<< huffmanBits b) % 2 ^ 64 ||| huffmanCode b
      let r := flushBytes bitBuf (bitsInBuf + huffmanBits b) (bitsInBuf + huffmanBits b)
      r.1 ++ encodeHuffmanLoop s bitBuf r.2

/-- The bits of a string in the code. -/
def totalBits (s : Bytes) : ℕ := (s.map huffmanBits).sum

/-- The payload that `encode_huffman` writes. -/
def huffmanPayload (s : Bytes) : Bytes := encodeHuffmanLoop s 0 0

/-! ### Decoding -/

/-- The bit reader of `byte_cursor`: unread bytes and a 64-bit buffer. -/
structure BitCursor where
  rest : Bytes
  bitBuf : ℕ
  bitsInBuf : ℕ

namespace BitCursor

def refillBits (c : BitCursor) : BitCursor :=
  match c.rest with
  | [] => c
  | b :: rest => ⟨rest, (c.bitBuf <<< 8) % 2 ^ 64 ||| b.toNat, c.bitsInBuf + 8⟩

/-- `while (bits_remaining() < 32 && !exhausted())`, at most `n` times. -/
def refill : ℕ → BitCursor → BitCursor
  | 0, c => c
  | n + 1, c => if c.bitsInBuf < 32 ∧ c.rest ≠ [] then refill n c.refillBits else c

def tryPeekBits (c : BitCursor) (n : ℕ) : Option ℕ :=
  if 64 < n ∨ c.bitsInBuf < n then none else some ((c.bitBuf >>> (c.bitsInBuf - n)) % 2 ^ n)

def skipBits (c : BitCursor) (n : ℕ) : BitCursor :=
  { c with bitsInBuf := if n ≤ c.bitsInBuf then c.bitsInBuf - n else 0 }

end BitCursor

def eosCode : ℕ := 0x3fffffff
def eosBits : ℕ := 30

/-- The entry of the table of `huffman_table_15` for fifteen bits: the byte whose code they begin with, and
the number of its bits. -/
def huffmanTable15 (p : ℕ) : ℕ × ℕ :=
  (huffmanTable.zipIdx.filter fun e => e.1.2 ≤ 15 && p >>> (15 - e.1.2) = e.1.1).getLast?.elim (0, 0) fun e =>
    (e.2, e.1.2)

/-- The first byte whose code is next in the buffer. -/
def findCode (c : BitCursor) : Option (ℕ × ℕ) :=
  (huffmanTable.zipIdx.find? fun e => e.1.2 ≤ c.bitsInBuf && c.tryPeekBits e.1.2 = some e.1.1).map fun e => (e.2, e.1.2)

/-- The byte that is next in the buffer and the number of its bits, through the table where it has the code. -/
def nextSymbol (c : BitCursor) : Option (ℕ × ℕ) :=
  if 15 ≤ c.bitsInBuf then
    match c.tryPeekBits 15 with
    | some p =>
        let e := huffmanTable15 p
        if e.2 ≠ 0 ∧ e.2 ≤ c.bitsInBuf then some e else findCode c
    | none => findCode c
  else findCode c

/-- The decoding loop: the bytes and the cursor after it, or `none` at the code for the end of the string. -/
def decodeHuffmanLoop : ℕ → BitCursor → Bytes → Option (Bytes × BitCursor)
  | 0, c, result => some (result, c)
  | n + 1, c, result =>
      if c.rest ≠ [] ∨ 5 ≤ c.bitsInBuf then
        let c := c.refill 4
        if c.bitsInBuf = 0 then some (result, c)
        else if c.tryPeekBits eosBits = some eosCode then none
        else
          match nextSymbol c with
          | some (symbol, bits) => decodeHuffmanLoop n (c.skipBits bits) (result ++ [UInt8.ofNat symbol])
          | none => some (result, c)
      else some (result, c)

/-- Fewer than eight bits are left, and they are ones. -/
def paddingOk (c : BitCursor) : Bool :=
  if 7 < c.bitsInBuf then false else c.bitBuf % 2 ^ c.bitsInBuf = 1 <<< c.bitsInBuf - 1

def decodeHuffman (input : Bytes) : Bytes :=
  match decodeHuffmanLoop (8 * input.length + 1) ⟨input, 0, 0⟩ [] with
  | some (result, c) => if paddingOk c then result else []
  | none => []

/-! ### The codes as bit strings -/

/-- The bits of the code of a byte. -/
def codeBits (b : UInt8) : List Bool := toBits (huffmanBits b) (huffmanCode b)

/-- The bits of the codes of a string. -/
def encBits (s : Bytes) : List Bool := s.flatMap codeBits

theorem length_huffmanTable : huffmanTable.length = 256 := by
  set_option maxRecDepth 8000 in
  decide

/-- The codes have five to thirty bits, not all of them ones. -/
theorem huffmanTable_bounds : ∀ e ∈ huffmanTable, e.1 + 1 < 2 ^ e.2 ∧ 5 ≤ e.2 ∧ e.2 ≤ 30 := by
  set_option maxRecDepth 8000 in
  decide

/-- The codes of the bytes, and the one for the end of the string. -/
def codeStrings : List (List Bool) := huffmanTable.map (fun e => toBits e.2 e.1) ++ [toBits eosBits eosCode]

/-- The codes with the one for the end of the string are the leaves of a binary tree. -/
theorem isComplete_codeStrings : isComplete 30 codeStrings = true := by decide +kernel

/-- The entry of a byte, with its index. -/
theorem mem_zipIdx (b : UInt8) : ((huffmanCode b, huffmanBits b), b.toNat) ∈ huffmanTable.zipIdx := by
  have hb : b.toNat < huffmanTable.length := by rw [length_huffmanTable]; exact b.toNat_lt
  rw [List.mem_zipIdx_iff_getElem?, huffmanCode, huffmanBits, List.getD_eq_getElem _ _ hb]
  exact List.getElem?_eq_getElem hb

theorem code_bounds (b : UInt8) : huffmanCode b + 1 < 2 ^ huffmanBits b ∧ 5 ≤ huffmanBits b ∧ huffmanBits b ≤ 30 :=
  huffmanTable_bounds (huffmanCode b, huffmanBits b) (List.fst_mem_of_mem_zipIdx (mem_zipIdx b))

/-- No code is a prefix of another one. -/
theorem prefix_unique {e e' : (ℕ × ℕ) × ℕ} {l : List Bool} (he : e ∈ huffmanTable.zipIdx) (he' : e' ∈ huffmanTable.zipIdx)
    (h : toBits e.1.2 e.1.1 <+: l) (h' : toBits e'.1.2 e'.1.1 <+: l) : e = e' := by
  have hpw := (List.pairwise_append.mp (pairwise_of_isComplete isComplete_codeStrings)).1
  rw [List.pairwise_map, List.pairwise_iff_getElem] at hpw
  rw [List.mem_zipIdx_iff_getElem?, List.getElem?_eq_some_iff] at he he'
  obtain ⟨hi, he⟩ := he
  obtain ⟨hi', he'⟩ := he'
  rcases Nat.lt_trichotomy e.2 e'.2 with hlt | heq | hlt
  · exact absurd (he' ▸ h') (hpw _ _ hi hi' hlt l (he ▸ h))
  · refine Prod.ext ?_ heq
    rw [← he, ← he']
    simp only [heq]
  · exact absurd (he ▸ h) (hpw _ _ hi' hi hlt l (he' ▸ h'))

/-! ### What the encoder writes -/

theorem flushBytes_spec {n k : ℕ} (bitBuf : ℕ) (hn : k ≤ n) :
    (flushBytes bitBuf n k).2 < 8 ∧
      toBits k bitBuf = bytesBits (flushBytes bitBuf n k).1 ++ toBits (flushBytes bitBuf n k).2 bitBuf := by
  induction n generalizing k with
  | zero =>
      obtain rfl : k = 0 := by omega
      exact ⟨by simp [flushBytes], rfl⟩
  | succ n ih =>
      rw [flushBytes]
      split
      · rename_i h8
        obtain ⟨h1, h2⟩ := ih (k := k - 8) (by omega)
        refine ⟨h1, ?_⟩
        have hbyte : ∀ v : ℕ, toBits 8 (UInt8.ofNat (v &&& 0xFF)).toNat = toBits 8 v := fun v => by
          rw [toBits_ofNat, show v &&& 0xFF = v % 2 ^ 8 from Nat.and_two_pow_sub_one_eq_mod v 8, toBits_mod le_rfl]
        have e : toBits k bitBuf = toBits (8 + (k - 8)) bitBuf := by rw [show 8 + (k - 8) = k by omega]
        simp only [bytesBits_cons, hbyte]
        rw [List.append_assoc, ← h2, e, toBits_add]
      · exact ⟨by simp only; omega, rfl⟩

theorem encodeHuffmanLoop_spec {s : Bytes} {k : ℕ} (bitBuf : ℕ) (hk : k < 8) :
    ∃ p < 8, bytesBits (encodeHuffmanLoop s bitBuf k) = toBits k bitBuf ++ (encBits s ++ List.replicate p true) := by
  induction s generalizing bitBuf k with
  | nil =>
      rw [encodeHuffmanLoop]
      split
      · rename_i hk0
        have hlt : 1 <<< (8 - k) - 1 < 2 ^ (8 - k) := by
          have := Nat.two_pow_pos (8 - k)
          rw [Nat.one_shiftLeft]
          omega
        have hmask : toBits 8 (((bitBuf <<< (8 - k)) &&& 0xFF) ||| (1 <<< (8 - k) - 1)) =
            toBits 8 (bitBuf <<< (8 - k) ||| (1 <<< (8 - k) - 1)) := by
          refine toBits_congr fun i hi => ?_
          rw [Nat.testBit_or, Nat.testBit_or, show (bitBuf <<< (8 - k)) &&& 0xFF = (bitBuf <<< (8 - k)) % 2 ^ 8 from
            Nat.and_two_pow_sub_one_eq_mod _ 8, Nat.testBit_mod_two_pow, decide_eq_true hi, Bool.true_and]
        refine ⟨8 - k, by omega, ?_⟩
        have hp := toBits_push (m := k) (v := bitBuf) hlt
        rw [show k + (8 - k) = 8 by omega] at hp
        rw [bytesBits_cons, bytesBits_nil, List.append_nil, toBits_ofNat, hmask, hp, Nat.one_shiftLeft, toBits_ones]
        rfl
      · obtain rfl : k = 0 := by omega
        exact ⟨0, by omega, rfl⟩
  | cons b s ih =>
      obtain ⟨hc, h5, h30⟩ := code_bounds b
      rw [encodeHuffmanLoop]
      set v := (bitBuf <<< huffmanBits b) % 2 ^ 64 ||| huffmanCode b with hv
      obtain ⟨h8, hf⟩ := flushBytes_spec v (le_refl (k + huffmanBits b))
      obtain ⟨p, hp, he⟩ := ih v h8
      refine ⟨p, hp, ?_⟩
      have hbuf : toBits (k + huffmanBits b) v = toBits k bitBuf ++ codeBits b := by
        rw [codeBits, ← toBits_push (by omega : huffmanCode b < 2 ^ huffmanBits b)]
        refine toBits_congr fun i hi => ?_
        rw [hv, Nat.testBit_or, Nat.testBit_or, Nat.testBit_mod_two_pow, decide_eq_true (by omega), Bool.true_and]
      rw [bytesBits_append, he, ← List.append_assoc, ← hf, hbuf, encBits, encBits, List.flatMap_cons]
      simp only [List.append_assoc]

/-- The payload is the codes of the string and at most seven ones. -/
theorem huffmanPayload_spec (s : Bytes) :
    ∃ p < 8, bytesBits (huffmanPayload s) = encBits s ++ List.replicate p true := by
  obtain ⟨p, hp, h⟩ := encodeHuffmanLoop_spec (s := s) (k := 0) 0 (by omega)
  exact ⟨p, hp, h⟩

/-- No other bytes have these bits. -/
theorem huffmanPayload_unique {p s : Bytes} {k : ℕ} (hk : k < 8) (h : bytesBits p = encBits s ++ List.replicate k true) :
    huffmanPayload s = p := by
  obtain ⟨q, hq, h'⟩ := huffmanPayload_spec s
  have hl := congrArg List.length h
  have hl' := congrArg List.length h'
  rw [length_bytesBits, List.length_append, List.length_replicate] at hl hl'
  obtain rfl : k = q := by omega
  exact bytesBits_inj (h'.trans h.symm)

theorem length_encBits (s : Bytes) : (encBits s).length = totalBits s := by
  induction s with
  | nil => rfl
  | cons b s ih =>
      rw [encBits, List.flatMap_cons, List.length_append, totalBits, List.map_cons, List.sum_cons]
      rw [encBits, totalBits] at ih
      rw [ih, codeBits, length_toBits]

theorem length_huffmanPayload (s : Bytes) : (huffmanPayload s).length = (totalBits s + 7) / 8 := by
  obtain ⟨p, hp, h⟩ := huffmanPayload_spec s
  have hl := congrArg List.length h
  rw [length_bytesBits, List.length_append, length_encBits, List.length_replicate] at hl
  omega

/-! ### What the decoder reads -/

/-- The bits a cursor has still to give. -/
def BitCursor.bits (c : BitCursor) : List Bool := toBits c.bitsInBuf c.bitBuf ++ bytesBits c.rest

section

variable {c : BitCursor} {b : UInt8} {s : Bytes} {l : List Bool} {n : ℕ}

theorem refillBits_bits (h : c.bitsInBuf + 8 ≤ 64) : c.refillBits.bits = c.bits := by
  obtain ⟨rest, v, k⟩ := c
  cases rest with
  | nil => rfl
  | cons b rest =>
      have hb : b.toNat < 2 ^ 8 := b.toNat_lt
      have e : toBits (k + 8) ((v <<< 8) % 2 ^ 64 ||| b.toNat) = toBits (k + 8) (v <<< 8 ||| b.toNat) := by
        refine toBits_congr fun i hi => ?_
        simp only at h
        rw [Nat.testBit_or, Nat.testBit_or, Nat.testBit_mod_two_pow, decide_eq_true (by omega), Bool.true_and]
      simp only [BitCursor.bits, BitCursor.refillBits, e, toBits_push hb, bytesBits_cons, List.append_assoc]

theorem refill_spec (h : 32 ≤ c.bitsInBuf + 8 * n) (h40 : c.bitsInBuf < 40) :
    (c.refill n).bits = c.bits ∧ (c.refill n).bitsInBuf < 40 ∧ ((c.refill n).rest = [] ∨ 32 ≤ (c.refill n).bitsInBuf) := by
  induction n generalizing c with
  | zero => exact ⟨rfl, h40, Or.inr h⟩
  | succ n ih =>
      rw [BitCursor.refill]
      split
      · rename_i hc
        have hk : c.refillBits.bitsInBuf = c.bitsInBuf + 8 := by
          unfold BitCursor.refillBits
          cases hr : c.rest with
          | nil => exact absurd hr hc.2
          | cons b rest => rfl
        obtain ⟨h1, h2, h3⟩ := ih (c := c.refillBits) (by omega) (by omega)
        exact ⟨by rw [h1, refillBits_bits (by omega)], h2, h3⟩
      · rename_i hc
        refine ⟨rfl, h40, ?_⟩
        by_cases hr : c.rest = []
        · exact Or.inl hr
        · exact Or.inr (by by_contra hlt; exact hc ⟨by omega, hr⟩)

/-- A short code that is next is in the buffer. -/
theorem prefix_buffer (h : codeBits b <+: c.bits) (hr : c.rest = [] ∨ 32 ≤ c.bitsInBuf) :
    huffmanBits b ≤ c.bitsInBuf ∧ codeBits b <+: toBits c.bitsInBuf c.bitBuf := by
  obtain ⟨_, _, h30⟩ := code_bounds b
  have hk : huffmanBits b ≤ c.bitsInBuf := by
    rcases hr with hr | hr
    · have := h.length_le
      rw [BitCursor.bits, hr, bytesBits_nil, List.append_nil, length_toBits, codeBits, length_toBits] at this
      exact this
    · omega
  refine ⟨hk, List.prefix_of_prefix_length_le h (List.prefix_append _ _) ?_⟩
  rw [codeBits, length_toBits, length_toBits]
  exact hk

theorem peek_entry {e : (ℕ × ℕ) × ℕ} (he : e ∈ huffmanTable.zipIdx) (h : e.1.2 ≤ c.bitsInBuf)
    (hp : c.tryPeekBits e.1.2 = some e.1.1) : toBits e.1.2 e.1.1 <+: toBits c.bitsInBuf c.bitBuf := by
  obtain ⟨h1, _, h3⟩ := huffmanTable_bounds e.1 (List.fst_mem_of_mem_zipIdx he)
  rw [BitCursor.tryPeekBits, if_neg (by omega), Option.some.injEq] at hp
  exact (peek_eq_iff h (by omega)).mp hp

theorem findCode_eq (hk : huffmanBits b ≤ c.bitsInBuf) (h : codeBits b <+: toBits c.bitsInBuf c.bitBuf) :
    findCode c = some (b.toNat, huffmanBits b) := by
  obtain ⟨h1, _, h3⟩ := code_bounds b
  have hpeek : c.tryPeekBits (huffmanBits b) = some (huffmanCode b) := by
    rw [BitCursor.tryPeekBits, if_neg (by omega), (peek_eq_iff hk (by omega)).mpr h]
  have hex : (huffmanTable.zipIdx.find? fun e =>
      e.1.2 ≤ c.bitsInBuf && c.tryPeekBits e.1.2 = some e.1.1).isSome := by
    rw [List.find?_isSome]
    exact ⟨_, mem_zipIdx b, by simp [hk, hpeek]⟩
  obtain ⟨e, he⟩ := Option.isSome_iff_exists.mp hex
  have hmem := List.mem_of_find?_eq_some he
  have hcond := List.find?_some he
  simp only [Bool.and_eq_true, decide_eq_true_eq] at hcond
  obtain rfl := prefix_unique hmem (mem_zipIdx b) (peek_entry hmem hcond.1 hcond.2) h
  rw [findCode, he]
  rfl

/-- The table entry of fifteen bits that come next, where the code of `b` comes next. -/
theorem huffmanTable15_eq {p : ℕ} (hp : p < 2 ^ 15) (hl : toBits 15 p <+: l) (h : codeBits b <+: l) :
    huffmanTable15 p = if huffmanBits b ≤ 15 then (b.toNat, huffmanBits b) else (0, 0) := by
  obtain ⟨hb, _, _⟩ := code_bounds b
  have hf : ∀ e ∈ huffmanTable.zipIdx.filter fun e => e.1.2 ≤ 15 && p >>> (15 - e.1.2) = e.1.1,
      e.1.2 ≤ 15 ∧ e = ((huffmanCode b, huffmanBits b), b.toNat) := by
    intro e he
    rw [List.mem_filter, Bool.and_eq_true, decide_eq_true_eq, decide_eq_true_eq] at he
    obtain ⟨he, hk, hc⟩ := he
    obtain ⟨h1, _, _⟩ := huffmanTable_bounds e.1 (List.fst_mem_of_mem_zipIdx he)
    refine ⟨hk, prefix_unique he (mem_zipIdx b) (List.IsPrefix.trans ((peek_eq_iff hk (by omega)).mp ?_) hl) h⟩
    rw [hc, Nat.mod_eq_of_lt (by omega)]
  unfold huffmanTable15
  cases e : (huffmanTable.zipIdx.filter fun e => e.1.2 ≤ 15 && p >>> (15 - e.1.2) = e.1.1).getLast? with
  | none =>
      rw [List.getLast?_eq_none_iff] at e
      split
      · rename_i hk
        -- the entry of `b` passes the test of the table
        have hpre : codeBits b <+: toBits 15 p :=
          List.prefix_of_prefix_length_le h hl (by simpa [codeBits] using hk)
        have hc := (peek_eq_iff hk (by omega)).mpr hpre
        rw [Nat.mod_eq_of_lt] at hc
        · have hmem : ((huffmanCode b, huffmanBits b), b.toNat) ∈ huffmanTable.zipIdx.filter
              fun e => e.1.2 ≤ 15 && p >>> (15 - e.1.2) = e.1.1 :=
            List.mem_filter.mpr ⟨mem_zipIdx b, by simp [hk, hc]⟩
          rw [e] at hmem
          cases hmem
        · rw [Nat.shiftRight_eq_div_pow, Nat.div_lt_iff_lt_mul (Nat.two_pow_pos _), ← Nat.pow_add,
            Nat.add_sub_cancel' hk]
          exact hp
      · rfl
  | some e' =>
      obtain ⟨hk, rfl⟩ := hf e' (List.mem_of_getLast? e)
      rw [if_pos hk]
      rfl

/-- **The byte whose code comes next is found.** -/
theorem nextSymbol_eq (h : codeBits b <+: c.bits) (hr : c.rest = [] ∨ 32 ≤ c.bitsInBuf) :
    nextSymbol c = some (b.toNat, huffmanBits b) := by
  obtain ⟨hk, hbuf⟩ := prefix_buffer h hr
  obtain ⟨_, h5, _⟩ := code_bounds b
  rw [nextSymbol]
  split
  · rename_i h15
    rw [BitCursor.tryPeekBits, if_neg (by omega)]
    have hlt : (c.bitBuf >>> (c.bitsInBuf - 15)) % 2 ^ 15 < 2 ^ 15 := Nat.mod_lt _ (by decide)
    have hl := (peek_eq_iff h15 hlt).mp rfl
    simp only [huffmanTable15_eq hlt hl hbuf]
    by_cases h15' : huffmanBits b ≤ 15
    · rw [if_pos h15', if_pos ⟨by simp only; omega, hk⟩]
    · rw [if_neg h15', if_neg (by simp), findCode_eq hk hbuf]
  · exact findCode_eq hk hbuf

/-- Only ones begin a string of ones. -/
theorem eq_ones_of_prefix {w p : ℕ} (hw : w < 2 ^ n) (h : toBits n w <+: List.replicate p true) : w = 2 ^ n - 1 := by
  refine eq_of_toBits hw (by omega) ?_
  have hn : n ≤ p := by simpa using h.length_le
  rw [toBits_ones, List.prefix_iff_eq_take.mp h, length_toBits, List.take_replicate, Nat.min_eq_left hn]

/-- The code for the end of the string is not next where the code of a byte is. -/
theorem not_eos (h : codeBits b <+: c.bits) : c.tryPeekBits eosBits ≠ some eosCode := by
  intro he
  rw [BitCursor.tryPeekBits] at he
  split at he
  · cases he
  · rename_i hn
    rw [eosBits, eosCode] at *
    have hp := (peek_eq_iff (n := 30) (by omega) (by decide)).mp (Option.some.inj he)
    obtain ⟨h1, h5, h30⟩ := code_bounds b
    have hpre : codeBits b <+: toBits 30 0x3fffffff :=
      List.prefix_of_prefix_length_le h (hp.trans (List.prefix_append _ _)) (by simpa [codeBits] using h30)
    rw [show 0x3fffffff = 2 ^ 30 - 1 by decide, toBits_ones] at hpre
    have := eq_ones_of_prefix (by omega : huffmanCode b < 2 ^ huffmanBits b) hpre
    omega

/-- The loop reads the codes of `s` and stops before the padding. -/
theorem decodeHuffmanLoop_eq {p : ℕ} (result : Bytes) (hp : p < 8) (hn : s.length < n) (h40 : c.bitsInBuf < 40)
    (h : c.bits = encBits s ++ List.replicate p true) :
    ∃ c', decodeHuffmanLoop n c result = some (result ++ s, c') ∧ c'.bits = List.replicate p true := by
  induction n generalizing c s result with
  | zero => omega
  | succ n ih =>
      rw [decodeHuffmanLoop]
      obtain ⟨hb, hk, hr⟩ := refill_spec (c := c) (n := 4) (by omega) h40
      rw [h] at hb
      cases s with
      | nil =>
          rw [List.append_nil]
          split
          · have hlen := congrArg List.length hb
            rw [BitCursor.bits, List.length_append, length_toBits, length_bytesBits, encBits, List.flatMap_nil,
              List.nil_append, List.length_replicate] at hlen
            -- the padding is all that is left, and it is in the buffer
            have hrest : (c.refill 4).rest = [] := hr.resolve_right (by omega)
            rw [hrest, List.length_nil] at hlen
            have hbuf : toBits (c.refill 4).bitsInBuf (c.refill 4).bitBuf = List.replicate p true := by
              rw [BitCursor.bits, hrest, bytesBits_nil, List.append_nil] at hb
              exact hb
            simp only
            split
            · exact ⟨_, rfl, hb⟩
            · have heos : (c.refill 4).tryPeekBits eosBits ≠ some eosCode := by
                rw [BitCursor.tryPeekBits, if_pos (Or.inr (by rw [eosBits]; omega))]
                simp
              have hfind : nextSymbol (c.refill 4) = none := by
                rw [nextSymbol, if_neg (by omega), findCode, Option.map_eq_none_iff, List.find?_eq_none]
                intro e he hcond
                rw [Bool.and_eq_true, decide_eq_true_eq, decide_eq_true_eq] at hcond
                have hpre := peek_entry he hcond.1 hcond.2
                rw [hbuf] at hpre
                obtain ⟨h1, _, _⟩ := huffmanTable_bounds e.1 (List.fst_mem_of_mem_zipIdx he)
                have := eq_ones_of_prefix (by omega : e.1.1 < 2 ^ e.1.2) hpre
                omega
              rw [if_neg heos, hfind]
              exact ⟨_, rfl, hb⟩
          · exact ⟨c, rfl, h⟩
      | cons b s =>
          obtain ⟨hcode, h5, h30⟩ := code_bounds b
          have hb' : (c.refill 4).bits = codeBits b ++ (encBits s ++ List.replicate p true) := by
            rw [hb, encBits, List.flatMap_cons, List.append_assoc]
            rfl
          have hpre : codeBits b <+: (c.refill 4).bits := by
            rw [hb']
            exact List.prefix_append _ _
          obtain ⟨hle, hbuf⟩ := prefix_buffer hpre hr
          have hcond : c.rest ≠ [] ∨ 5 ≤ c.bitsInBuf := by
            by_contra hc
            simp only [not_or, not_not] at hc
            have hlen := congrArg List.length (hb.symm.trans hb')
            rw [← h, BitCursor.bits, hc.1, bytesBits_nil, List.append_nil, length_toBits, List.length_append, codeBits,
              length_toBits] at hlen
            omega
          rw [if_pos hcond]
          simp only
          rw [if_neg (by omega), if_neg (not_eos hpre), nextSymbol_eq hpre hr]
          simp only
          have hskip : ((c.refill 4).skipBits (huffmanBits b)).bits = encBits s ++ List.replicate p true := by
            have hd := congrArg (List.drop (huffmanBits b)) hb'
            rw [BitCursor.bits, List.drop_append_of_le_length (by rw [length_toBits]; exact hle), toBits_drop hle,
              List.drop_append_of_le_length (by rw [codeBits, length_toBits]),
              List.drop_of_length_le (by rw [codeBits, length_toBits]), List.nil_append] at hd
            rw [BitCursor.bits, BitCursor.skipBits, if_pos hle]
            exact hd
          obtain ⟨c', h1, h2⟩ := ih (c := (c.refill 4).skipBits (huffmanBits b))
            (s := s) (result ++ [UInt8.ofNat b.toNat]) (by simpa using hn)
            (by rw [BitCursor.skipBits, if_pos hle]; simp only; omega) hskip
          refine ⟨c', ?_, h2⟩
          rw [h1, UInt8.ofNat_toNat, List.append_assoc]
          rfl

theorem paddingOk_eq {p : ℕ} (hp : p < 8) (h : c.bits = List.replicate p true) : paddingOk c = true := by
  have hlen := congrArg List.length h
  rw [BitCursor.bits, List.length_append, length_toBits, length_bytesBits, List.length_replicate] at hlen
  have hrest : c.rest = [] := List.eq_nil_of_length_eq_zero (by omega)
  rw [BitCursor.bits, hrest, bytesBits_nil, List.append_nil] at h
  rw [paddingOk, if_neg (by omega), decide_eq_true_eq, Nat.one_shiftLeft]
  refine eq_of_toBits (n := c.bitsInBuf) (Nat.mod_lt _ (Nat.two_pow_pos _)) (Nat.sub_lt (Nat.two_pow_pos _) one_pos) ?_
  rw [toBits_mod le_rfl, h, toBits_ones]
  congr 1
  rw [hrest] at hlen
  simpa using hlen.symm

end

/-- **Decoding gives back what was encoded.** -/
theorem decode_encode_huffman (s : Bytes) : decodeHuffman (huffmanPayload s) = s := by
  obtain ⟨p, hp, h⟩ := huffmanPayload_spec s
  have hlen := congrArg List.length h
  rw [length_bytesBits, List.length_append, length_encBits, List.length_replicate] at hlen
  have hs : s.length ≤ totalBits s := by
    rw [totalBits, ← List.length_map (f := huffmanBits)]
    refine List.length_le_sum_of_one_le _ fun i hi => ?_
    obtain ⟨b, _, rfl⟩ := List.mem_map.mp hi
    have := (code_bounds b).2.1
    omega
  obtain ⟨c', h1, h2⟩ := decodeHuffmanLoop_eq (c := ⟨huffmanPayload s, 0, 0⟩)
    (n := 8 * (huffmanPayload s).length + 1) [] hp (by omega) (by simp) h
  rw [decodeHuffman, h1]
  simp only
  rw [paddingOk_eq hp h2, if_pos rfl, List.nil_append]

end NeForce.Hpack
