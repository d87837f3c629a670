import NeForce.HpackHuffman

/-! # The Huffman code of HPACK is canonical

Every string of thirty bits begins with the code of a byte or the one for the end of the string, so the
decoder stops only at the end of its input or there.  What it returns is then the text whose codes
the input begins with, and the rest of the input is fewer than eight ones: the input is what the
encoder writes (`huffman_canonical`). -/

namespace NeForce.Hpack

open PrefixCode

/-! ### The code is complete -/

/-- Every entry of the table is that of a byte. -/
theorem exists_entry {e : (ℕ × ℕ) × ℕ} (he : e ∈ huffmanTable.zipIdx) :
    ∃ b : UInt8, e = ((huffmanCode b, huffmanBits b), b.toNat) := by
  rw [List.mem_zipIdx_iff_getElem?, List.getElem?_eq_some_iff] at he
  obtain ⟨hi, he⟩ := he
  have hi' : (UInt8.ofNat e.2).toNat = e.2 := UInt8.toNat_ofNat_of_lt' (by rwa [length_huffmanTable] at hi)
  refine ⟨UInt8.ofNat e.2, ?_⟩
  rw [huffmanBits, huffmanCode, hi', List.getD_eq_getElem _ _ hi, he]

/-- A string of thirty bits begins with the code of a byte or the one for the end of the string. -/
theorem exists_code {l : List Bool} (h : 30 ≤ l.length) : (∃ b, codeBits b <+: l) ∨ toBits eosBits eosCode <+: l := by
  obtain ⟨c, hc, hp⟩ := exists_prefix_of_isComplete isComplete_codeStrings h
  rw [codeStrings, List.mem_append, List.mem_map, List.mem_singleton] at hc
  obtain ⟨e, he, rfl⟩ | rfl := hc
  · obtain ⟨i, hi, rfl⟩ := List.mem_iff_getElem.mp he
    obtain ⟨b, hb⟩ := exists_entry (e := (huffmanTable[i], i)) (List.mem_zipIdx_iff_getElem?.mpr
      (List.getElem?_eq_getElem hi))
    rw [(Prod.mk.inj hb).1] at hp
    exact Or.inl ⟨b, hp⟩
  · exact Or.inr hp

/-! ### What the decoder consumes -/

section

variable {c c' : BitCursor} {result r : Bytes} {l : List Bool} {n : ℕ}

/-- What the search finds is next in the buffer. -/
theorem findCode_some {e : ℕ × ℕ} (h : findCode c = some e) :
    ∃ b, e = (b.toNat, huffmanBits b) ∧ codeBits b <+: toBits c.bitsInBuf c.bitBuf := by
  rw [findCode, Option.map_eq_some_iff] at h
  obtain ⟨e', he, rfl⟩ := h
  have hcond := List.find?_some he
  simp only [Bool.and_eq_true, decide_eq_true_eq] at hcond
  obtain ⟨b, rfl⟩ := exists_entry (List.mem_of_find?_eq_some he)
  exact ⟨b, rfl, peek_entry (mem_zipIdx b) hcond.1 hcond.2⟩

/-- An entry of the table that is not empty is that of a code its fifteen bits begin with. -/
theorem huffmanTable15_some {p : ℕ} (h : (huffmanTable15 p).2 ≠ 0) :
    ∃ b, huffmanTable15 p = (b.toNat, huffmanBits b) ∧ codeBits b <+: toBits 15 p := by
  unfold huffmanTable15 at h ⊢
  cases e : (huffmanTable.zipIdx.filter fun e => e.1.2 ≤ 15 && p >>> (15 - e.1.2) = e.1.1).getLast? with
  | none =>
      rw [e] at h
      exact absurd rfl h
  | some e' =>
      have hmem := List.mem_of_getLast? e
      rw [List.mem_filter, Bool.and_eq_true, decide_eq_true_eq, decide_eq_true_eq] at hmem
      obtain ⟨hmem, hk, hc⟩ := hmem
      obtain ⟨b, rfl⟩ := exists_entry hmem
      obtain ⟨h1, _, _⟩ := code_bounds b
      have hlt : huffmanCode b < 2 ^ huffmanBits b := by omega
      refine ⟨b, rfl, (peek_eq_iff hk hlt).mp ?_⟩
      rw [hc, Nat.mod_eq_of_lt hlt]

/-- **The byte found is the one whose code is next in the buffer.** -/
theorem nextSymbol_some {e : ℕ × ℕ} (h : nextSymbol c = some e) :
    ∃ b, e = (b.toNat, huffmanBits b) ∧ codeBits b <+: toBits c.bitsInBuf c.bitBuf := by
  rw [nextSymbol] at h
  split at h
  · rename_i h15
    rw [BitCursor.tryPeekBits, if_neg (by omega)] at h
    simp only at h
    split at h
    · rename_i hne
      obtain ⟨b, he, hp⟩ := huffmanTable15_some hne.1
      have hlt : (c.bitBuf >>> (c.bitsInBuf - 15)) % 2 ^ 15 < 2 ^ 15 := Nat.mod_lt _ (by decide)
      exact ⟨b, by rw [← he, Option.some.inj h], hp.trans ((peek_eq_iff h15 hlt).mp rfl)⟩
    · exact findCode_some h
  · exact findCode_some h

/-- With thirty-two bits in the buffer a byte is found, where the string does not end. -/
theorem nextSymbol_ne_none (h32 : 32 ≤ c.bitsInBuf) (heos : c.tryPeekBits eosBits ≠ some eosCode) :
    nextSymbol c ≠ none := by
  obtain ⟨b, hb⟩ | hb := exists_code (l := toBits c.bitsInBuf c.bitBuf) (by rw [length_toBits]; omega)
  · rw [nextSymbol_eq (hb.trans (List.prefix_append _ _)) (Or.inr h32)]
    exact Option.some_ne_none _
  · refine absurd ?_ heos
    rw [BitCursor.tryPeekBits, if_neg (by rw [eosBits]; omega)]
    exact congrArg some ((peek_eq_iff (by rw [eosBits]; omega) (by decide)).mpr hb)

/-- The bits left after a code are skipped to. -/
theorem bits_skipBits {b : UInt8} (h : codeBits b <+: toBits c.bitsInBuf c.bitBuf) :
    c.bits = codeBits b ++ (c.skipBits (huffmanBits b)).bits ∧
      (c.skipBits (huffmanBits b)).bitsInBuf + huffmanBits b = c.bitsInBuf := by
  have hle : huffmanBits b ≤ c.bitsInBuf := by simpa [codeBits] using h.length_le
  obtain ⟨t, ht⟩ := h
  have hd := congrArg (List.drop (huffmanBits b)) ht
  rw [toBits_drop hle, List.drop_left' (by rw [codeBits, length_toBits])] at hd
  rw [BitCursor.skipBits, if_pos hle]
  refine ⟨?_, by simp only; omega⟩
  rw [BitCursor.bits, ← ht, BitCursor.bits, ← hd, List.append_assoc]

/-- The loop consumes the codes of the bytes it adds, and stops at the end of the bytes. -/
theorem decodeHuffmanLoop_some (hn : c.bits.length < n) (h40 : c.bitsInBuf < 40)
    (h : decodeHuffmanLoop n c result = some (r, c')) :
    ∃ s, r = result ++ s ∧ c.bits = encBits s ++ c'.bits ∧ c'.rest = [] := by
  induction n generalizing c result with
  | zero => omega
  | succ n ih =>
      rw [decodeHuffmanLoop] at h
      obtain ⟨hb, hk, hr⟩ := refill_spec (c := c) (n := 4) (by omega) h40
      split at h
      · simp only at h
        split at h
        · rename_i h0
          obtain ⟨rfl, rfl⟩ := Prod.mk.inj (Option.some.inj h)
          exact ⟨[], by rw [List.append_nil], by rw [hb]; rfl, hr.resolve_right (by omega)⟩
        · split at h
          · cases h
          · rename_i heos
            cases hs : nextSymbol (c.refill 4) with
            | none =>
                rw [hs] at h
                obtain ⟨rfl, rfl⟩ := Prod.mk.inj (Option.some.inj h)
                refine ⟨[], by rw [List.append_nil], by rw [hb]; rfl, hr.resolve_right fun h32 => ?_⟩
                exact nextSymbol_ne_none h32 heos hs
            | some e =>
                obtain ⟨b, rfl, hp⟩ := nextSymbol_some hs
                rw [hs] at h
                simp only [UInt8.ofNat_toNat] at h
                obtain ⟨hbits, hlen⟩ := bits_skipBits hp
                obtain ⟨_, h5, _⟩ := code_bounds b
                have hl := congrArg List.length hbits
                rw [hb, List.length_append, codeBits, length_toBits] at hl
                obtain ⟨s, rfl, hs', hrest⟩ := ih (by omega) (by omega) h
                refine ⟨b :: s, by rw [List.append_assoc, List.singleton_append], ?_, hrest⟩
                rw [← hb, hbits, hs', encBits, encBits, List.flatMap_cons, List.append_assoc]
      · rename_i hc
        obtain ⟨rfl, rfl⟩ := Prod.mk.inj (Option.some.inj h)
        exact ⟨[], by rw [List.append_nil], rfl, not_not.mp (not_or.mp hc).1⟩

/-- Padding that is accepted is at most seven ones. -/
theorem bits_of_paddingOk (h : paddingOk c = true) (hr : c.rest = []) : ∃ p < 8, c.bits = List.replicate p true := by
  rw [paddingOk] at h
  split at h
  · cases h
  · refine ⟨c.bitsInBuf, by omega, ?_⟩
    rw [decide_eq_true_eq, Nat.one_shiftLeft] at h
    rw [BitCursor.bits, hr, bytesBits_nil, List.append_nil, ← toBits_mod (k := c.bitsInBuf) le_rfl, h, toBits_ones]

end

/-- What is decoded is the text whose codes the input begins with, up to at most seven ones. -/
theorem decodeHuffman_spec {p : Bytes} (h : decodeHuffman p ≠ []) :
    ∃ k < 8, bytesBits p = encBits (decodeHuffman p) ++ List.replicate k true := by
  unfold decodeHuffman at h ⊢
  cases hl : decodeHuffmanLoop (8 * p.length + 1) ⟨p, 0, 0⟩ [] with
  | none =>
      rw [hl] at h
      exact absurd rfl h
  | some rc =>
      obtain ⟨r, c⟩ := rc
      have h0 : BitCursor.bits ⟨p, 0, 0⟩ = bytesBits p := rfl
      obtain ⟨s, hs, hbits, hrest⟩ := decodeHuffmanLoop_some (by rw [h0, length_bytesBits]; omega) (by simp) hl
      rw [List.nil_append] at hs
      rw [hl] at h
      simp only at h ⊢
      split at h
      · rename_i hpad
        obtain ⟨k, hk, hones⟩ := bits_of_paddingOk hpad hrest
        rw [if_pos hpad]
        exact ⟨k, hk, by rw [← h0, hbits, hones, hs]⟩
      · exact absurd rfl h

/-- **The Huffman code is lossless and canonical.**  Decoding gives back every string that was encoded, and an
input with a non-empty decoding is the encoding of it: the padding is fewer than eight ones, and the code for
the end of the string is not taken for padding. -/
theorem huffman_canonical : (∀ s, decodeHuffman (huffmanPayload s) = s) ∧
    ∀ p, decodeHuffman p ≠ [] → huffmanPayload (decodeHuffman p) = p := by
  refine ⟨decode_encode_huffman, fun p hp => ?_⟩
  obtain ⟨k, hk, h⟩ := decodeHuffman_spec hp
  exact huffmanPayload_unique hk h

/-- The letter `a` is five bits, filled with three ones. -/
theorem huffman_canonical_a : decodeHuffman [0x1f] = [97] ∧ huffmanPayload [97] = [0x1f] := by
  have e : decodeHuffman [0x1f] = [97] := by decide
  refine ⟨e, ?_⟩
  have := huffman_canonical.2 [0x1f] (by rw [e]; exact List.cons_ne_nil _ _)
  rwa [e] at this

end NeForce.Hpack
