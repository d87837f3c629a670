import NeForce.Aes256RoundTrip

/-! # GCM, and the three modes together

Encryption and decryption of GCM share the keystream, so that they invert each other in every build; the tag is checked
before anything is returned. The keystream of an AES-NI build is the one of the loop over single blocks exactly on
buffers of less than 64 bytes. -/

namespace NeForce.Aes256

variable (mult : Hash → Hash → Hash)

/-! ### The keystream -/

/-- The first of two loops, with turns of 64 bytes that undo one another. -/
theorem bufferLoop_undoes_four {σ : Type} {enc dec : σ → Bytes → Bytes × σ}
    (h64 : ∀ d, d.length = 64 → Undoes enc dec d) {n : ℕ} (s : σ) {data : Bytes} (hn : data.length ≤ n) :
    let r := bufferLoop 64 64 enc n s data
    r.1.length + r.2.2.length = data.length ∧ r.2.2.length < 64 ∧ ∀ t : Bytes, t.length < 64 →
      ∃ d, d ++ r.2.2 = data ∧ bufferLoop 64 64 dec n s (r.1 ++ t) = (d, r.2.1, t) := by
  induction n generalizing s data with
  | zero =>
      obtain rfl : data = [] := List.length_eq_zero_iff.mp (by omega)
      exact ⟨rfl, Nat.zero_lt_succ 63, fun t _ => ⟨[], rfl, rfl⟩⟩
  | succ n ih =>
      by_cases h : 64 ≤ data.length
      · have hdrop := List.length_drop (i := 64) (l := data)
        have htake : (data.take 64).length = 64 := by
          rw [List.length_take]
          omega
        obtain ⟨hout, hdec⟩ := h64 _ htake s
        obtain ⟨hlen, hlt, hrest⟩ := @ih (enc s (data.take 64)).2 (data.drop 64) (by omega)
        have henc : bufferLoop 64 64 enc (n + 1) s data = ((enc s (data.take 64)).1 ++
            (bufferLoop 64 64 enc n (enc s (data.take 64)).2 (data.drop 64)).1,
            (bufferLoop 64 64 enc n (enc s (data.take 64)).2 (data.drop 64)).2) := by
          rw [bufferLoop, if_pos h]
        rw [henc]
        dsimp only
        refine ⟨?_, hlt, fun t ht => ?_⟩
        · rw [List.length_append]
          omega
        · obtain ⟨d, hd, hloop⟩ := hrest t ht
          refine ⟨data.take 64 ++ d, ?_, ?_⟩
          · rw [List.append_assoc, hd, List.take_append_drop]
          · have hge : 64 ≤ ((enc s (data.take 64)).1 ++
                (bufferLoop 64 64 enc n (enc s (data.take 64)).2 (data.drop 64)).1 ++ t).length := by
              rw [List.length_append, List.length_append]
              omega
            rw [bufferLoop, if_pos hge, List.append_assoc, List.take_left' (by omega), List.drop_left' (by omega), hdec]
            dsimp only
            rw [hloop]
      · have hstop (step : σ → Bytes → Bytes × σ) {l : Bytes} (hl : l.length < 64) :
            bufferLoop 64 64 step (n + 1) s l = ([], s, l) := by
          rw [bufferLoop, if_neg (by omega)]
        rw [hstop enc (by omega)]
        exact ⟨Nat.zero_add _, Nat.lt_of_not_le h, fun t ht => ⟨[], rfl, hstop dec ht⟩⟩

theorem length_four (a b c d : Block) : (a.toBytes ++ b.toBytes ++ c.toBytes ++ d.toBytes).length = 64 := by
  simp only [List.length_append, length_toBytes]

theorem ctr_undoes_four (f : Block → Block) {d : Bytes} (hd : d.length = 64) :
    Undoes (ctrStep4 f) (ctrStep4 f) d := by
  refine fun counter => ⟨?_, ?_⟩
  · rw [ctrStep4, xorBuf, List.length_zipWith, length_four, hd, Nat.min_self]
  · rw [ctrStep4, ctrStep4, xorBuf_xorBuf (by rw [length_four, hd])]

theorem ctrLoops_false (f : Block → Block) (counter : Block) (data : Bytes) :
    (ctrLoops false f counter data).length = data.length ∧
      ctrLoops false f counter (ctrLoops false f counter data) = data :=
  blockLoops_undoes (fun _ hd => ctr_undoes f hd.le) _ _ counter (.inr fun _ hd => ctr_undoes f hd.le)

/-- The keystream is added twice. -/
theorem ctrLoops_undoes (simd : Bool) (f : Block → Block) (counter : Block) (data : Bytes) :
    ctrLoops simd f counter (ctrLoops simd f counter data) = data := by
  cases simd with
  | false =>
      exact (ctrLoops_false f counter data).2
  | true =>
      obtain ⟨hlen, hlt, hrest⟩ := bufferLoop_undoes_four (fun d => ctr_undoes_four f) counter (le_refl data.length)
      have henc : ctrLoops true f counter data =
          (bufferLoop 64 64 (ctrStep4 f) data.length counter data).1 ++
            ctrLoops false f (bufferLoop 64 64 (ctrStep4 f) data.length counter data).2.1
              (bufferLoop 64 64 (ctrStep4 f) data.length counter data).2.2 := rfl
      generalize bufferLoop 64 64 (ctrStep4 f) data.length counter data = r at hlen hlt hrest henc
      obtain ⟨htlen, htail⟩ := ctrLoops_false f r.2.1 r.2.2
      obtain ⟨d, hd, hdec⟩ := hrest (ctrLoops false f r.2.1 r.2.2) (by omega)
      have hclen : (ctrLoops true f counter data).length = data.length := by
        rw [henc, List.length_append]
        omega
      calc ctrLoops true f counter (ctrLoops true f counter data)
          = (bufferLoop 64 64 (ctrStep4 f) data.length counter (ctrLoops true f counter data)).1 ++
              ctrLoops false f (bufferLoop 64 64 (ctrStep4 f) data.length counter (ctrLoops true f counter data)).2.1
                (bufferLoop 64 64 (ctrStep4 f) data.length counter (ctrLoops true f counter data)).2.2 := by
            conv_rhs => rw [← hclen]
            rfl
        _ = data := by rw [henc, hdec, htail, hd]

theorem ctrLoops_of_lt (simd : Bool) (f : Block → Block) (counter : Block) {data : Bytes} (h : data.length < 64) :
    ctrLoops simd f counter data = ctrLoops false f counter data := by
  have hstop (n : ℕ) : bufferLoop 64 64 (ctrStep4 f) n counter data = ([], counter, data) := by
    cases n with
    | zero => rfl
    | succ n => rw [bufferLoop, if_neg (by omega)]
  cases simd with
  | false => rfl
  | true =>
      rw [ctrLoops, ctrLoops, blockLoops, blockLoops, if_pos rfl, if_neg (by simp), hstop]

theorem readBe_four (a b c d : UInt8) :
    readBe [a, b, c, d] = ((a.toNat * 256 + b.toNat) * 256 + c.toNat) * 256 + d.toNat := by
  simp only [readBe, List.foldl_cons, List.foldl_nil, shift_or_byte]
  omega

/-- The last byte counts up. -/
theorem inc32_last (c : Block) : (inc32 c).c3.s3.toNat = (c.c3.s3.toNat + 1) % 256 := by
  have h : (inc32 c).c3.s3 = UInt8.ofNat ((readBe c.c3.toBytes + 1) >>> (8 * 0)) := rfl
  rw [h, UInt8.toNat_ofNat', Column.toBytes, readBe_four, Nat.mul_zero, Nat.shiftRight_zero]
  omega

/-- An addition to the lane reaches its last byte through a carry only. -/
theorem addLane_last (c : Block) {n : ℕ} (hn : n < 256) :
    (addLane c n).c3.s3.toNat = c.c3.s3.toNat ∨ (addLane c n).c3.s3.toNat = (c.c3.s3.toNat + 1) % 256 := by
  have h : (addLane c n).c3.s3 = UInt8.ofNat ((readBe [c.c3.s3, c.c3.s2, c.c3.s1, c.c3.s0] + n) >>> (8 * 3)) := rfl
  rw [h, UInt8.toNat_ofNat', readBe_four, Nat.shiftRight_eq_div_pow]
  have h0 := c.c3.s0.toNat_lt
  have h1 := c.c3.s1.toNat_lt
  have h2 := c.c3.s2.toNat_lt
  have h3 := c.c3.s3.toNat_lt
  omega

/-- The third counter of the loop over four blocks is not the one of the other loop. -/
theorem addLane_ne_inc32 (c : Block) : addLane c 2 ≠ inc32 (inc32 c) := by
  intro h
  have hinc : (inc32 (inc32 c)).c3.s3.toNat = (c.c3.s3.toNat + 2) % 256 := by
    rw [inc32_last, inc32_last]
    omega
  have h3 := c.c3.s3.toNat_lt
  rcases addLane_last c (n := 2) (by omega) with hadd | hadd
  · rw [h, hinc] at hadd
    omega
  · rw [h, hinc] at hadd
    omega

theorem xorBuf_append {a k : Bytes} (h : a.length = k.length) (b l : Bytes) :
    xorBuf (a ++ b) (k ++ l) = xorBuf a k ++ xorBuf b l := List.zipWith_append h

theorem xorBuf_right_injective {a k l : Bytes} (hk : k.length = a.length) (hl : l.length = a.length)
    (h : xorBuf a k = xorBuf a l) : k = l := by
  have hcomm (b : Bytes) : xorBuf a b = xorBuf b a := List.zipWith_comm_of_comm UInt8.xor_comm
  rw [hcomm, hcomm] at h
  rw [← xorBuf_xorBuf hk.le, h, xorBuf_xorBuf hl.le]

/-- Four turns over single blocks. -/
theorem ctr_four (f : Block → Block) (c : Block) {d : Bytes} (hd : d.length = 64) :
    (bufferLoop 16 1 (ctrStep f) 4 c d).1 = xorBuf d ((f c).toBytes ++ (f (inc32 c)).toBytes ++
      (f (inc32 (inc32 c))).toBytes ++ (f (inc32 (inc32 (inc32 c)))).toBytes) := by
  have hchunks : d = chunkAt 0 d ++ chunkAt 1 d ++ chunkAt 2 d ++ chunkAt 3 d := by
    have h3 : chunkAt 3 d = d.drop 48 := List.take_of_length_le (by rw [List.length_drop]; omega)
    have hsplit (i : ℕ) : chunkAt i d ++ d.drop (16 * i + 16) = d.drop (16 * i) := by
      rw [chunkAt, ← List.drop_drop, List.take_append_drop]
    rw [List.append_assoc, List.append_assoc, h3, hsplit 2, hsplit 1, hsplit 0]
    rfl
  have h0 := length_chunkAt hd (i := 0) (by omega)
  have h1 := length_chunkAt hd (i := 1) (by omega)
  have h2 := length_chunkAt hd (i := 2) (by omega)
  rw [bufferLoop_four c hd]
  conv_rhs => rw [hchunks]
  rw [xorBuf_append, xorBuf_append, xorBuf_append]
  · rfl
  · rw [h0, length_toBytes]
  · simp only [List.length_append, h0, h1, length_toBytes]
  · simp only [List.length_append, h0, h1, h2, length_toBytes]

theorem third_block {a b c d a' b' c' d' : Block} (h : a.toBytes ++ b.toBytes ++ c.toBytes ++ d.toBytes =
    a'.toBytes ++ b'.toBytes ++ c'.toBytes ++ d'.toBytes) : c = c' := by
  have hlen : (a.toBytes ++ b.toBytes ++ c.toBytes).length = (a'.toBytes ++ b'.toBytes ++ c'.toBytes).length := by
    simp only [List.length_append, length_toBytes]
  have hlen' : (a.toBytes ++ b.toBytes).length = (a'.toBytes ++ b'.toBytes).length := by
    simp only [List.length_append, length_toBytes]
  have hc := (List.append_inj (List.append_inj h hlen).1 hlen').2
  rw [← ofBytes_toBytes c, hc, ofBytes_toBytes]

/-- The two keystreams differ. -/
theorem ctrLoops_ne {f : Block → Block} (hf : Function.Injective f) (counter : Block) {data : Bytes}
    (h : 64 ≤ data.length) : ctrLoops true f counter data ≠ ctrLoops false f counter data := by
  have hlen : (data.take 64).length = 64 := by
    rw [List.length_take]
    omega
  have hfour : (ctrLoops true f counter data).take 64 = (ctrStep4 f counter (data.take 64)).1 := by
    obtain ⟨n, hn⟩ : ∃ n, data.length = n + 1 := ⟨data.length - 1, by omega⟩
    have hout : (ctrStep4 f counter (data.take 64)).1.length = 64 := by
      rw [ctrStep4, xorBuf, List.length_zipWith, length_four, hlen, Nat.min_self]
    rw [ctrLoops, blockLoops, if_pos rfl, hn, bufferLoop, if_pos h]
    dsimp only
    rw [List.append_assoc, List.take_left' hout]
  have hone : (ctrLoops false f counter data).take 64 = (bufferLoop 16 1 (ctrStep f) 4 counter (data.take 64)).1 := by
    have hfuel : bufferLoop 16 1 (ctrStep f) data.length counter data =
        bufferLoop 16 1 (ctrStep f) (4 + data.length) counter data :=
      bufferLoop_fuel (by omega) le_rfl counter le_rfl (by omega)
    rw [ctrLoops, blockLoops, if_neg (by simp)]
    dsimp only
    rw [List.nil_append, hfuel]
    conv_lhs => rw [← List.take_append_drop 64 data]
    rw [bufferLoop_append 4 _ counter hlen]
    have hout : (bufferLoop 16 1 (ctrStep f) 4 counter (data.take 64)).1.length = 64 := by
      rw [ctr_four f counter hlen, xorBuf, List.length_zipWith, length_four, hlen, Nat.min_self]
    exact List.take_left' hout
  intro heq
  rw [heq, hone, ctr_four f counter hlen] at hfour
  have hkeys := xorBuf_right_injective ((length_four _ _ _ _).trans hlen.symm) ((length_four _ _ _ _).trans hlen.symm) hfour
  exact addLane_ne_inc32 counter (hf (third_block hkeys)).symm

/-! ### The tag -/

theorem foldl_or_eq_zero (l : Bytes) (acc : UInt8) : l.foldl (· ||| ·) acc = 0 ↔ acc = 0 ∧ ∀ x ∈ l, x = 0 := by
  induction l generalizing acc with
  | nil => simp
  | cons x l ih => simp [ih, and_assoc]

theorem zipWith_xor_zero {a b : Bytes} (h : a.length = b.length) : (∀ x ∈ xorBuf a b, x = 0) ↔ a = b := by
  induction a generalizing b with
  | nil =>
      obtain rfl : b = [] := List.length_eq_zero_iff.mp h.symm
      simp [xorBuf]
  | cons x a ih =>
      cases b with
      | nil => simp at h
      | cons y b =>
          have := ih (b := b) (by simpa using h)
          rw [xorBuf] at this
          simp [xorBuf, this]

theorem secureCompare_eq {a b : Bytes} {len : ℕ} (ha : len ≤ a.length) (hb : len ≤ b.length) :
    secureCompare a b len = true ↔ a.take len ≠ b.take len := by
  have hlen : (a.take len).length = (b.take len).length := by
    rw [List.length_take, List.length_take]
    omega
  rw [secureCompare, bne_iff_ne, ne_eq, ne_eq, foldl_or_eq_zero, ← zipWith_xor_zero hlen]
  simp [xorBuf]

variable {key nonce : Bytes} {tagLen : ℕ}

theorem encryptGcm_eq (simd : Bool) (data aad : Bytes) (hkey : key.length = 32) (hnonce : nonce ≠ [])
    (htag : 12 ≤ tagLen ∧ tagLen ≤ 16) :
    encryptGcm mult simd data key nonce aad true tagLen =
      let f := encryptBlock (roundKey (keyExpansion key))
      let c := ctrLoops simd f (inc32 (initialCounter mult (readHash (f zeroBlock)) nonce)) data
      .ok (c, (fullTag mult f nonce aad c).take tagLen) := by
  have ht : ¬ (tagLen < 12 ∨ 16 < tagLen) := by omega
  simp only [encryptGcm, checkGcm, checkTagLen, hkey, hnonce, ht]
  rfl

theorem decryptGcm_eq (simd : Bool) (data aad : Bytes) {tag : Bytes} (hkey : key.length = 32) (hnonce : nonce ≠ [])
    (htag : 12 ≤ tagLen ∧ tagLen ≤ 16) (hlen : tagLen ≤ tag.length) :
    decryptGcm mult simd data key nonce aad tag tagLen =
      let f := encryptBlock (roundKey (keyExpansion key))
      if tag.take tagLen = (fullTag mult f nonce aad data).take tagLen then
        .ok (ctrLoops simd f (inc32 (initialCounter mult (readHash (f zeroBlock)) nonce)) data)
      else .error "GCM authentication failed" := by
  have ht : ¬ (tagLen < 12 ∨ 16 < tagLen) := by omega
  have hl : ¬ tag.length < tagLen := by omega
  have hfull : tagLen ≤ (fullTag mult (encryptBlock (roundKey (keyExpansion key))) nonce aad data).length := htag.2
  have hc := secureCompare_eq hfull hlen
  simp only [decryptGcm, checkGcm, checkTagLen, hkey, hnonce, ht, hl]
  by_cases h : tag.take tagLen = (fullTag mult (encryptBlock (roundKey (keyExpansion key))) nonce aad data).take tagLen
  · have hf : secureCompare (fullTag mult (encryptBlock (roundKey (keyExpansion key))) nonce aad data) tag tagLen ≠ true :=
      fun hs => hc.mp hs h.symm
    rw [if_pos h, if_neg hf]
    rfl
  · rw [if_neg h, if_pos (hc.mpr (Ne.symm h))]
    rfl

/-! ### The three modes -/

/-- What a build promises of a key, initialization vectors, additional data, a buffer and a length of tags. -/
structure Inverts (simd : Bool) (key iv nonce aad data : Bytes) (tagLen : ℕ) : Prop where
  block : ∀ build b, decryptBlock build (invRoundKey build key) (encryptBlock (roundKey (keyExpansion key)) b) = b
  ecb : (encryptEcbPkcs7 simd data key).bind (decryptEcbPkcs7 simd · key) = .ok data
  cbc : (encryptCbcPkcs7 data key iv).bind (decryptCbcPkcs7 simd · key iv) = .ok data
  gcm : (encryptGcm mult simd data key nonce aad true tagLen).bind
    (fun c => decryptGcm mult simd c.1 key nonce aad c.2 tagLen) = .ok data
  ecbEncryptLoops : encryptEcb simd data key = encryptEcb false data key
  ecbDecryptLoops : decryptEcb simd data key = decryptEcb false data key
  cbcDecryptLoops : decryptCbc simd data key iv = decryptCbc false data key iv
  gcmEncryptLoops :
    encryptGcm mult simd data key nonce aad true tagLen = encryptGcm mult false data key nonce aad true tagLen
  gcmDecryptLoops : ∀ tag,
    decryptGcm mult simd data key nonce aad tag tagLen = decryptGcm mult false data key nonce aad tag tagLen
  rejects : ∀ tag,
    tag.take tagLen ≠ (fullTag mult (encryptBlock (roundKey (keyExpansion key))) nonce aad data).take tagLen →
    ∃ e, decryptGcm mult simd data key nonce aad tag tagLen = .error e

theorem decryptBlock_build (simd : Bool) (key : Bytes) :
    decryptBlock simd (invRoundKey simd key) = decryptBlock false (invRoundKey false key) := by
  funext block
  rw [decryptBlock_simd, decryptBlock_simd false]

theorem encryptEcb_simd (simd : Bool) (data key : Bytes) : encryptEcb simd data key = encryptEcb false data key := by
  rw [encryptEcb, encryptEcb, ecbLoops_simd]

theorem decryptEcb_simd (simd : Bool) (data key : Bytes) : decryptEcb simd data key = decryptEcb false data key := by
  rw [decryptEcb, decryptEcb, ecbLoops_simd, decryptBlock_build]

theorem decryptCbc_simd (simd : Bool) (data key iv : Bytes) :
    decryptCbc simd data key iv = decryptCbc false data key iv := by
  simp only [decryptCbc]
  rw [cbcDecrypt_simd, decryptBlock_build]

theorem ecb_roundTrip (simd : Bool) (data : Bytes) (hkey : key.length = 32) :
    (encryptEcbPkcs7 simd data key).bind (decryptEcbPkcs7 simd · key) = .ok data := by
  have hpad := length_padded data
  obtain ⟨hlen, hdec⟩ := ecbLoops_undoes (decryptBlock_inverts simd key) simd hpad
  have henc : encryptEcbPkcs7 simd data key =
      .ok (ecbLoops simd (encryptBlock (roundKey (keyExpansion key))) (padded data)) := by
    rw [encryptEcbPkcs7, encryptEcb, if_neg (by simp [hkey]), if_neg (by simp [hpad])]
  rw [henc]
  change decryptEcbPkcs7 simd _ key = _
  rw [decryptEcbPkcs7, decryptEcb, if_neg (by simp [hkey]), if_neg (by simp [hlen, hpad]), hdec]
  exact unpadded_padded _ _ data

theorem cbc_roundTrip (simd : Bool) (data : Bytes) {iv : Bytes} (hkey : key.length = 32) (hiv : iv.length = 16) :
    (encryptCbcPkcs7 data key iv).bind (decryptCbcPkcs7 simd · key iv) = .ok data := by
  have hpad := length_padded data
  have hsteps (d : Bytes) (hd : d.length = 16) := cbc_undoes (decryptBlock_inverts simd key) hd
  obtain ⟨hlen, hdec⟩ := blockLoops_undoes hsteps (cbcDecryptStep4 id)
    (cbcDecryptStep4 (decryptBlock simd (invRoundKey simd key))) (.ofBytes iv) (.inl hpad)
  have henc : encryptCbcPkcs7 data key iv = .ok (blockLoops false (cbcDecryptStep4 id)
      (cbcEncryptStep (encryptBlock (roundKey (keyExpansion key)))) (.ofBytes iv) (padded data)) := by
    rw [encryptCbcPkcs7, encryptCbc, if_neg (by simp [hkey]), if_neg (by simp [hiv]), if_neg (by simp [hpad])]
    rfl
  rw [henc]
  change decryptCbcPkcs7 simd _ key iv = _
  rw [decryptCbcPkcs7, decryptCbc, if_neg (by simp [hkey]), if_neg (by simp [hiv]), if_neg (by simp [hlen, hpad])]
  dsimp only
  rw [cbcDecrypt_simd, hdec]
  exact unpadded_padded _ _ data

theorem length_fullTag (f : Block → Block) (iv aad ciphertext : Bytes) :
    (fullTag mult f iv aad ciphertext).length = 16 := rfl

theorem gcm_roundTrip (simd : Bool) (data aad : Bytes) (hkey : key.length = 32) (hnonce : nonce ≠ [])
    (htag : 12 ≤ tagLen ∧ tagLen ≤ 16) :
    (encryptGcm mult simd data key nonce aad true tagLen).bind
      (fun c => decryptGcm mult simd c.1 key nonce aad c.2 tagLen) = .ok data := by
  rw [encryptGcm_eq mult simd data aad hkey hnonce htag]
  dsimp only [Except.bind]
  rw [decryptGcm_eq mult simd _ aad hkey hnonce htag]
  · dsimp only
    rw [if_pos (by rw [List.take_take, Nat.min_self]), ctrLoops_undoes]
  · rw [List.length_take, length_fullTag]
    omega

theorem decryptGcm_short (simd : Bool) (data aad : Bytes) {tag : Bytes} (hkey : key.length = 32) (hnonce : nonce ≠ [])
    (htag : 12 ≤ tagLen ∧ tagLen ≤ 16) (hlt : tag.length < tagLen) :
    decryptGcm mult simd data key nonce aad tag tagLen = .error "Tag size mismatch" := by
  have ht : ¬ (tagLen < 12 ∨ 16 < tagLen) := by omega
  simp only [decryptGcm, checkGcm, checkTagLen, hkey, hnonce, ht, hlt]
  rfl

/-- A tag that differs is refused. -/
theorem decryptGcm_rejects (simd : Bool) (data aad tag : Bytes) (hkey : key.length = 32) (hnonce : nonce ≠ [])
    (htag : 12 ≤ tagLen ∧ tagLen ≤ 16)
    (h : tag.take tagLen ≠ (fullTag mult (encryptBlock (roundKey (keyExpansion key))) nonce aad data).take tagLen) :
    ∃ e, decryptGcm mult simd data key nonce aad tag tagLen = .error e := by
  rcases Nat.lt_or_ge tag.length tagLen with hlt | hge
  · exact ⟨_, decryptGcm_short mult simd data aad hkey hnonce htag hlt⟩
  · have := decryptGcm_eq mult simd data aad hkey hnonce htag hge
    dsimp only at this
    rw [if_neg h] at this
    exact ⟨_, this⟩

theorem encryptGcm_of_lt (simd : Bool) {data aad : Bytes} (h : data.length < 64) :
    encryptGcm mult simd data key nonce aad true tagLen = encryptGcm mult false data key nonce aad true tagLen := by
  simp only [encryptGcm, ctrLoops_of_lt simd _ _ h]

theorem decryptGcm_of_lt (simd : Bool) {data aad : Bytes} (h : data.length < 64) (tag : Bytes) :
    decryptGcm mult simd data key nonce aad tag tagLen = decryptGcm mult false data key nonce aad tag tagLen := by
  simp only [decryptGcm, ctrLoops_of_lt simd _ _ h]

theorem encryptGcm_ne {data aad : Bytes} (h : 64 ≤ data.length) (hkey : key.length = 32) (hnonce : nonce ≠ [])
    (htag : 12 ≤ tagLen ∧ tagLen ≤ 16) :
    encryptGcm mult true data key nonce aad true tagLen ≠ encryptGcm mult false data key nonce aad true tagLen := by
  rw [encryptGcm_eq mult true data aad hkey hnonce htag, encryptGcm_eq mult false data aad hkey hnonce htag]
  intro heq
  exact ctrLoops_ne (encryptBlock_injective _) _ h (Prod.mk.inj (Except.ok.inj heq)).1

/-- All of it holds in a build without AES-NI, and in a build with AES-NI exactly for buffers of less than 64 bytes. -/
theorem inverts_iff (simd : Bool) {iv : Bytes} (aad data : Bytes) (hkey : key.length = 32) (hiv : iv.length = 16)
    (hnonce : nonce ≠ []) (htag : 12 ≤ tagLen ∧ tagLen ≤ 16) :
    Inverts mult simd key iv nonce aad data tagLen ↔ simd = false ∨ data.length < 64 := by
  constructor
  · intro h
    by_contra hc
    push Not at hc
    obtain ⟨hsimd, hlen⟩ := hc
    obtain rfl : simd = true := by simpa using hsimd
    exact encryptGcm_ne mult hlen hkey hnonce htag h.gcmEncryptLoops
  · intro h
    exact {
      block := fun build b => decryptBlock_inverts build key b
      ecb := ecb_roundTrip simd data hkey
      cbc := cbc_roundTrip simd data hkey hiv
      gcm := gcm_roundTrip mult simd data aad hkey hnonce htag
      ecbEncryptLoops := encryptEcb_simd simd data key
      ecbDecryptLoops := decryptEcb_simd simd data key
      cbcDecryptLoops := decryptCbc_simd simd data key iv
      gcmEncryptLoops := by
        rcases h with rfl | h
        · rfl
        · exact encryptGcm_of_lt mult simd h
      gcmDecryptLoops := fun tag => by
        rcases h with rfl | h
        · rfl
        · exact decryptGcm_of_lt mult simd h tag
      rejects := fun tag => decryptGcm_rejects mult simd data aad tag hkey hnonce htag }

theorem inverts_short :
    Inverts gf128Multiply true (List.replicate 32 7) (List.replicate 16 9) (List.replicate 12 5) [1, 2] [3, 4, 5] 16 :=
  (inverts_iff gf128Multiply true [1, 2] [3, 4, 5] (List.length_replicate ..) (List.length_replicate ..) (by decide)
    (by decide)).mpr (.inr (by decide))

/-- Four blocks of zeros. -/
theorem zeros_not_inverts :
    ¬ Inverts gf128Multiply true (List.replicate 32 7) (List.replicate 16 9) (List.replicate 12 5) []
      (List.replicate 64 0) 16 := fun h =>
  encryptGcm_ne gf128Multiply (List.length_replicate ..).ge (List.length_replicate ..) (by decide) (by decide)
    h.gcmEncryptLoops

end NeForce.Aes256
