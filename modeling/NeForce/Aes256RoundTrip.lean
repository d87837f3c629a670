import NeForce.Aes256Blocks
import NeForce.Aes256Modes

/-! # Encryption and decryption of a buffer

One theorem about a pair of loops whose turns undo one another serves the three modes. The loop over four blocks is
exact for ECB and CBC; for GCM the counters of its blocks are formed by an addition to the little-endian lane, while
`inc32` counts in big-endian order, so that from 64 bytes on the two keystreams differ. -/

namespace NeForce.Aes256

/-! ### Loops -/

section Loops

variable {σ : Type} {width least : ℕ} {step step4 enc dec : σ → Bytes → Bytes × σ}

theorem bufferLoop_nil (hl : 1 ≤ least) (n : ℕ) (s : σ) : bufferLoop width least step n s [] = ([], s, []) := by
  cases n with
  | zero => rfl
  | succ n =>
      rw [bufferLoop, if_neg]
      simp
      omega

/-- Only what a step does with at most `width` bytes matters. -/
theorem bufferLoop_congr {step step' : σ → Bytes → Bytes × σ} (h : ∀ s d, d.length ≤ width → step s d = step' s d) (n : ℕ)
    (s : σ) (data : Bytes) : bufferLoop width least step n s data = bufferLoop width least step' n s data := by
  induction n generalizing s data with
  | zero => rfl
  | succ n ih =>
      rw [bufferLoop, bufferLoop, h s _ (List.length_take_le _ _)]
      dsimp only
      rw [ih]

/-- The fuel does not matter once it covers the buffer. -/
theorem bufferLoop_fuel (hw : 1 ≤ width) (hl : 1 ≤ least) {n m : ℕ} (s : σ) {data : Bytes} (hn : data.length ≤ n)
    (hm : data.length ≤ m) : bufferLoop width least step n s data = bufferLoop width least step m s data := by
  induction n generalizing m s data with
  | zero =>
      obtain rfl : data = [] := List.length_eq_zero_iff.mp (by omega)
      rw [bufferLoop_nil hl, bufferLoop_nil hl]
  | succ n ih =>
      cases m with
      | zero =>
          obtain rfl : data = [] := List.length_eq_zero_iff.mp (by omega)
          rw [bufferLoop_nil hl, bufferLoop_nil hl]
      | succ m =>
          rw [bufferLoop, bufferLoop]
          by_cases h : least ≤ data.length
          · rw [if_pos h, if_pos h]
            dsimp only
            have hdrop := List.length_drop (i := width) (l := data)
            rw [ih (m := m) (step s (data.take width)).2 (by omega) (by omega)]
          · rw [if_neg h, if_neg h]

/-- The loop over a buffer of whole blocks followed by another. -/
theorem bufferLoop_append (k n : ℕ) (s : σ) {d : Bytes} (hd : d.length = 16 * k) (e : Bytes) :
    bufferLoop 16 1 step (k + n) s (d ++ e) =
      ((bufferLoop 16 1 step k s d).1 ++ (bufferLoop 16 1 step n (bufferLoop 16 1 step k s d).2.1 e).1,
        (bufferLoop 16 1 step n (bufferLoop 16 1 step k s d).2.1 e).2) := by
  induction k generalizing s d with
  | zero =>
      obtain rfl : d = [] := List.length_eq_zero_iff.mp (by omega)
      simp [bufferLoop]
  | succ k ih =>
      have htake : (d ++ e).take 16 = d.take 16 := List.take_append_of_le_length (by omega)
      have hdrop : (d ++ e).drop 16 = d.drop 16 ++ e := List.drop_append_of_le_length (by omega)
      have hlen : (d.drop 16).length = 16 * k := by
        rw [List.length_drop]
        omega
      have he : 1 ≤ (d ++ e).length := by
        rw [List.length_append]
        omega
      rw [Nat.add_right_comm, bufferLoop, bufferLoop, if_pos he, if_pos (by omega), htake, hdrop]
      dsimp only
      rw [ih _ hlen, List.append_assoc]

/-- The two loops of an AES-NI build do what the loop over single blocks does. -/
theorem blockLoops_simd (h4 : ∀ s d, d.length = 64 →
      step4 s d = ((bufferLoop 16 1 step 4 s d).1, (bufferLoop 16 1 step 4 s d).2.1))
    (simd : Bool) (s : σ) (data : Bytes) : blockLoops simd step4 step s data = blockLoops false step4 step s data := by
  have hloop (n : ℕ) : ∀ (s : σ) (data : Bytes), data.length ≤ n →
      (bufferLoop 64 64 step4 n s data).1 ++ (bufferLoop 16 1 step (bufferLoop 64 64 step4 n s data).2.2.length
        (bufferLoop 64 64 step4 n s data).2.1 (bufferLoop 64 64 step4 n s data).2.2).1 =
      (bufferLoop 16 1 step data.length s data).1 := by
    induction n with
    | zero => simp [bufferLoop]
    | succ n ih =>
        intro s data hn
        rw [bufferLoop]
        by_cases h : 64 ≤ data.length
        · have hlen : (data.take 64).length = 64 := by
            rw [List.length_take]
            omega
          have hdrop := List.length_drop (i := 64) (l := data)
          have hone : bufferLoop 16 1 step data.length s data =
              bufferLoop 16 1 step (4 + data.length) s (data.take 64 ++ data.drop 64) := by
            rw [List.take_append_drop]
            exact bufferLoop_fuel (by omega) le_rfl s le_rfl (by omega)
          rw [if_pos h, hone, bufferLoop_append 4 _ s hlen, h4 s _ hlen]
          dsimp only
          rw [List.append_assoc, ih _ _ (by omega), bufferLoop_fuel (m := data.length) (by omega) le_rfl _ le_rfl (by omega)]
        · rw [if_neg h]
          rfl
  cases simd with
  | false => rfl
  | true =>
      rw [blockLoops, blockLoops, if_pos rfl, if_neg (by simp)]
      exact hloop data.length s data le_rfl

/-- A turn of decryption undoes a turn of encryption on `d`, from every state. -/
def Undoes (enc dec : σ → Bytes → Bytes × σ) (d : Bytes) : Prop :=
  ∀ s, (enc s d).1.length = d.length ∧ dec s (enc s d).1 = (d, (enc s d).2)

/-- A chunk is full or the last one. -/
theorem take_drop_chunk {a b : Bytes} (h : a.length = 16 ∨ a.length ≤ 16 ∧ b = []) :
    (a ++ b).take 16 = a ∧ (a ++ b).drop 16 = b := by
  obtain h | ⟨h, rfl⟩ := h
  · exact ⟨List.take_left' h, List.drop_left' h⟩
  · rw [List.append_nil]
    exact ⟨List.take_of_length_le h, List.drop_of_length_le h⟩

theorem bufferLoop_undoes (h16 : ∀ d, d.length = 16 → Undoes enc dec d) {n : ℕ} (s : σ) {data : Bytes}
    (hn : data.length ≤ n) (hshort : data.length % 16 = 0 ∨ ∀ d : Bytes, d.length < 16 → Undoes enc dec d) :
    (bufferLoop 16 1 enc n s data).1.length = data.length ∧
      (bufferLoop 16 1 dec n s (bufferLoop 16 1 enc n s data).1).1 = data := by
  induction n generalizing s data with
  | zero =>
      obtain rfl : data = [] := List.length_eq_zero_iff.mp (by omega)
      exact ⟨rfl, rfl⟩
  | succ n ih =>
      by_cases h : 1 ≤ data.length
      · have hdrop := List.length_drop (i := 16) (l := data)
        have htake := List.length_take (i := 16) (l := data)
        have hu : Undoes enc dec (data.take 16) := by
          rcases hshort with hs | hs
          · exact h16 _ (by omega)
          · rcases Nat.lt_or_ge data.length 16 with hlt | hge
            · exact hs _ (by omega)
            · exact h16 _ (by omega)
        obtain ⟨hlen, hdec⟩ := hu s
        obtain ⟨ihl, ihd⟩ := @ih (enc s (data.take 16)).2 (data.drop 16) (by omega)
          (hshort.imp_left fun hs => by omega)
        have henc : (bufferLoop 16 1 enc (n + 1) s data).1 = (enc s (data.take 16)).1 ++
            (bufferLoop 16 1 enc n (enc s (data.take 16)).2 (data.drop 16)).1 := by
          rw [bufferLoop, if_pos h]
        have hl : (bufferLoop 16 1 enc (n + 1) s data).1.length = data.length := by
          rw [henc, List.length_append]
          omega
        have hchunk : (enc s (data.take 16)).1.length = 16 ∨ (enc s (data.take 16)).1.length ≤ 16 ∧
            (bufferLoop 16 1 enc n (enc s (data.take 16)).2 (data.drop 16)).1 = [] := by
          obtain hlt | hge := Nat.lt_or_ge data.length 16
          · exact .inr ⟨by omega, List.length_eq_zero_iff.mp (by omega)⟩
          · exact .inl (by omega)
        obtain ⟨htake', hdrop'⟩ := take_drop_chunk hchunk
        rw [← henc] at htake' hdrop'
        refine ⟨hl, ?_⟩
        rw [bufferLoop, if_pos (by omega), htake', hdrop', hdec]
        dsimp only
        rw [ihd, List.take_append_drop]
      · obtain rfl : data = [] := List.length_eq_zero_iff.mp (by omega)
        rw [bufferLoop_nil le_rfl, bufferLoop_nil le_rfl]
        exact ⟨rfl, rfl⟩

theorem blockLoops_undoes (h16 : ∀ d, d.length = 16 → Undoes enc dec d) (enc4 dec4 : σ → Bytes → Bytes × σ) (s : σ)
    {data : Bytes} (hshort : data.length % 16 = 0 ∨ ∀ d : Bytes, d.length < 16 → Undoes enc dec d) :
    (blockLoops false enc4 enc s data).length = data.length ∧
      blockLoops false dec4 dec s (blockLoops false enc4 enc s data) = data := by
  obtain ⟨hlen, hdec⟩ := bufferLoop_undoes h16 s le_rfl hshort
  refine ⟨hlen, ?_⟩
  have hfuel : (bufferLoop 16 1 enc data.length s data).1.length = data.length := hlen
  calc blockLoops false dec4 dec s (blockLoops false enc4 enc s data)
      = (bufferLoop 16 1 dec (bufferLoop 16 1 enc data.length s data).1.length s
          (bufferLoop 16 1 enc data.length s data).1).1 := rfl
    _ = data := by rw [hfuel, hdec]

/-- The `i`th chunk of 16 bytes. -/
def chunkAt (i : ℕ) (d : Bytes) : Bytes := (d.drop (16 * i)).take 16

theorem length_chunkAt {i : ℕ} {d : Bytes} (hd : d.length = 64) (hi : i < 4) : (chunkAt i d).length = 16 := by
  rw [chunkAt, List.length_take, List.length_drop]
  omega

/-- Four turns of the loop. -/
theorem bufferLoop_four (s : σ) {d : Bytes} (hd : d.length = 64) :
    let r0 := step s (chunkAt 0 d)
    let r1 := step r0.2 (chunkAt 1 d)
    let r2 := step r1.2 (chunkAt 2 d)
    let r3 := step r2.2 (chunkAt 3 d)
    bufferLoop 16 1 step 4 s d = (r0.1 ++ r1.1 ++ r2.1 ++ r3.1, r3.2, []) := by
  have h1 : 1 ≤ (d.drop 16).length := by
    rw [List.length_drop]
    omega
  have h2 : 1 ≤ (d.drop 32).length := by
    rw [List.length_drop]
    omega
  have h3 : 1 ≤ (d.drop 48).length := by
    rw [List.length_drop]
    omega
  have h4 : d.drop 64 = [] := List.drop_of_length_le (by omega)
  simp only [bufferLoop, List.drop_drop, Nat.reduceAdd]
  rw [if_pos (by omega), if_pos h1, if_pos h2, if_pos h3, h4]
  simp only [chunkAt, List.append_assoc, List.append_nil, Nat.reduceMul, List.drop_zero]

end Loops

/-! ### Blocks of a buffer -/

@[simp] theorem length_toBytes (b : Block) : b.toBytes.length = 16 := rfl

theorem ofBytes_toBytes (b : Block) : .ofBytes b.toBytes = b := rfl

theorem toBytes_ofBytes {d : Bytes} (h : d.length = 16) : (Block.ofBytes d).toBytes = d := by
  match d, h with
  | [_, _, _, _, _, _, _, _, _, _, _, _, _, _, _, _], _ => rfl

theorem ofBytes_take (d : Bytes) : Block.ofBytes (d.take 16) = Block.ofBytes d := by
  simp [Block.ofBytes, Column.ofBytes, List.getD_eq_getElem?_getD]

theorem ofBytes_chunkAt (i : ℕ) (d : Bytes) : Block.ofBytes (chunkAt i d) = blockAt i d := ofBytes_take _

/-! ### ECB -/

/-- The turn of the ECB loops. -/
def ecbStep (f : Block → Block) (_ : Unit) (d : Bytes) : Bytes × Unit := ((f (.ofBytes d)).toBytes, ())

theorem ecbLoops_simd (simd : Bool) (f : Block → Block) (data : Bytes) :
    ecbLoops simd f data = ecbLoops false f data := by
  refine blockLoops_simd (fun s d hd => ?_) simd () data
  rw [bufferLoop_four s hd]
  simp only [blocks4, ofBytes_chunkAt]

theorem ecb_undoes {f g : Block → Block} (h : ∀ b, g (f b) = b) {d : Bytes} (hd : d.length = 16) :
    Undoes (ecbStep f) (ecbStep g) d := by
  refine fun _ => ⟨?_, ?_⟩
  · rw [hd]
    rfl
  · rw [ecbStep, ecbStep, ofBytes_toBytes, h, toBytes_ofBytes hd]

theorem ecbLoops_undoes {f g : Block → Block} (h : ∀ b, g (f b) = b) (simd : Bool) {data : Bytes}
    (hdata : data.length % 16 = 0) :
    (ecbLoops simd f data).length = data.length ∧ ecbLoops simd g (ecbLoops simd f data) = data := by
  rw [ecbLoops_simd simd f, ecbLoops_simd simd g]
  exact blockLoops_undoes (fun d hd => ecb_undoes h hd) _ _ () (.inl hdata)

theorem length_padded (data : Bytes) : (padded data).length % 16 = 0 := by
  have hp : (UInt8.ofNat (16 - data.length % 16)).toNat = 16 - data.length % 16 := by
    rw [UInt8.toNat_ofNat']
    omega
  rw [padded, List.length_append, List.length_replicate, hp]
  omega

/-- The padding comes off again. -/
theorem unpadded_padded (lengthText valueText : String) (data : Bytes) :
    unpadded lengthText valueText (padded data) = .ok data := by
  have hp : (UInt8.ofNat (16 - data.length % 16)).toNat = 16 - data.length % 16 := by
    rw [UInt8.toNat_ofNat']
    omega
  generalize hpad : UInt8.ofNat (16 - data.length % 16) = p at hp
  have hpos : 0 < p.toNat := by omega
  have hpadded : padded data = data ++ List.replicate p.toNat p := by rw [padded, hpad]
  have hlast : (padded data).getLast? = some p := by
    rw [hpadded, List.getLast?_append, List.getLast?_replicate, if_neg (by omega)]
    rfl
  have hlen : (padded data).length = data.length + p.toNat := by
    rw [hpadded, List.length_append, List.length_replicate]
  have hne : p ≠ 0 := by
    rintro rfl
    exact absurd hpos (by decide)
  have hle : ¬ 16 < p := by
    rw [UInt8.lt_iff_toNat_lt, hp]
    have : (16 : UInt8).toNat = 16 := rfl
    omega
  rw [unpadded, hlast]
  have hcheck : ¬ (p = 0 ∨ 16 < p ∨ (padded data).length < p.toNat) := by
    rintro (h | h | h)
    · exact hne h
    · exact hle h
    · omega
  dsimp only
  rw [if_neg hcheck, hlen, Nat.add_sub_cancel, hpadded, List.drop_left, List.take_left, if_pos (by simp)]

/-! ### CBC -/

theorem cbcDecrypt_simd (simd : Bool) (f : Block → Block) (prev : Block) (data : Bytes) :
    blockLoops simd (cbcDecryptStep4 f) (cbcDecryptStep f) prev data =
      blockLoops false (cbcDecryptStep4 f) (cbcDecryptStep f) prev data := by
  refine blockLoops_simd (fun s d hd => ?_) simd prev data
  rw [bufferLoop_four s hd]
  simp only [cbcDecryptStep, cbcDecryptStep4, ofBytes_chunkAt]

theorem cbc_undoes {f g : Block → Block} (h : ∀ b, g (f b) = b) {d : Bytes} (hd : d.length = 16) :
    Undoes (cbcEncryptStep f) (cbcDecryptStep g) d := by
  refine fun prev => ⟨?_, ?_⟩
  · rw [hd]
    rfl
  · rw [cbcEncryptStep, cbcDecryptStep, ofBytes_toBytes, h, Block.xor_xor, toBytes_ofBytes hd]

/-! ### Counters -/

theorem xorBuf_split (data k l : Bytes) :
    xorBuf data (k ++ l) = xorBuf (data.take k.length) k ++ xorBuf (data.drop k.length) l := by
  induction k generalizing data with
  | nil => rfl
  | cons b k ih =>
      cases data with
      | nil => simp [xorBuf]
      | cons d data =>
          have := ih data
          rw [xorBuf] at this
          simp [xorBuf, this]

/-- A loop that adds one block of a keystream a turn. -/
theorem bufferLoop_keystream {width : ℕ} (hwidth : 1 ≤ width) {key : σ → Bytes} (hkey : ∀ s, (key s).length = width)
    (next : σ → σ) {n : ℕ} (s : σ) {data : Bytes} (hn : data.length ≤ n) :
    (bufferLoop width 1 (fun s d => (xorBuf d (key s), next s)) n s data).1 =
      xorBuf data ((List.range ((data.length + (width - 1)) / width)).flatMap fun i => key (next^[i] s)) := by
  induction n generalizing s data with
  | zero =>
      obtain rfl : data = [] := List.length_eq_zero_iff.mp (by omega)
      rfl
  | succ n ih =>
      unfold bufferLoop
      split
      case isTrue hdata =>
        have hdrop := List.length_drop (i := width) (l := data)
        have hblocks : (data.length + (width - 1)) / width = ((data.drop width).length + (width - 1)) / width + 1 := by
          rcases Nat.lt_or_ge data.length width with hlt | hge
          · rw [hdrop, Nat.div_eq_of_lt_le (k := 1) (by omega) (by omega), Nat.div_eq_of_lt (by omega)]
          · rw [hdrop, ← Nat.add_div_right _ (by omega)]
            congr 1
            omega
        rw [hblocks, List.range_succ_eq_map, List.flatMap_cons, Function.iterate_zero_apply, xorBuf_split, hkey s,
          List.flatMap_map]
        dsimp only
        rw [ih (next s) (by omega)]
        rfl
      case isFalse hdata =>
        obtain rfl : data = [] := List.length_eq_zero_iff.mp (by omega)
        rfl

theorem xorBuf_xorBuf {a k : Bytes} (h : a.length ≤ k.length) : xorBuf (xorBuf a k) k = a := by
  induction a generalizing k with
  | nil => simp [xorBuf]
  | cons x a ih =>
      cases k with
      | nil => simp at h
      | cons y k =>
          have := ih (k := k) (by simpa using h)
          simp only [xorBuf, List.zipWith_cons_cons] at this ⊢
          rw [this, UInt8.xor_assoc, UInt8.xor_self, UInt8.xor_zero]

theorem ctr_undoes (f : Block → Block) {d : Bytes} (hd : d.length ≤ 16) : Undoes (ctrStep f) (ctrStep f) d := by
  refine fun counter => ⟨?_, ?_⟩
  · simp only [ctrStep, xorBuf, List.length_zipWith, length_toBytes]
    omega
  · rw [ctrStep, ctrStep, xorBuf_xorBuf (by rw [length_toBytes]; exact hd)]

end NeForce.Aes256
