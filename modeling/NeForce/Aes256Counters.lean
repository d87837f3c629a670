import NeForce.Aes256Gcm
import Mathlib.Data.List.Nodup

/-! # The counters of GCM

Which counter blocks a build encrypts for a message, in order.  The keystream is made of these. -/

namespace NeForce.Aes256

/-- The counters of `n` turns over four blocks, and the one that follows. -/
def counters4 : ℕ → Block → List Block × Block
  | 0, counter => ([], counter)
  | n + 1, counter =>
      let (counters, next) := counters4 n (inc32 (inc32 (inc32 (inc32 counter))))
      (counter :: addLane counter 1 :: addLane counter 2 :: addLane counter 3 :: counters, next)

def counters1 : ℕ → Block → List Block
  | 0, _ => []
  | n + 1, counter => counter :: counters1 n (inc32 counter)

/-- The counters for `size` bytes of data. -/
def counters (simd : Bool) (counter : Block) (size : ℕ) : List Block :=
  if simd then
    let (blocks, next) := counters4 (size / 64) counter
    blocks ++ counters1 ((size % 64 + 15) / 16) next
  else counters1 ((size + 15) / 16) counter

def keystream (f : Block → Block) (counters : List Block) : Bytes := counters.flatMap fun c => (f c).toBytes

variable {f : Block → Block} {n m size : ℕ} {c : Block}

/-! ### The keystream -/

theorem counters1_eq (n : ℕ) (c : Block) : counters1 n c = (List.range n).map fun i => inc32^[i] c := by
  induction n generalizing c with
  | zero => rfl
  | succ n ih =>
      rw [counters1, ih, List.range_succ_eq_map, List.map_cons, List.map_map]
      rfl

/-- The loop over single blocks. -/
theorem bufferLoop_counters1 (f : Block → Block) (c : Block) {data : Bytes} (hn : data.length ≤ n) :
    (bufferLoop 16 1 (ctrStep f) n c data).1 = xorBuf data (keystream f (counters1 ((data.length + 15) / 16) c)) := by
  rw [counters1_eq, keystream, List.flatMap_map]
  exact bufferLoop_keystream (by decide) (fun c => length_toBytes (f c)) inc32 c hn

/-- The loop over four blocks. -/
theorem bufferLoop_counters4 (f : Block → Block) (c : Block) {data : Bytes} (hn : data.length ≤ n) :
    bufferLoop 64 64 (ctrStep4 f) n c data =
      (xorBuf (data.take (64 * (data.length / 64))) (keystream f (counters4 (data.length / 64) c).1),
        (counters4 (data.length / 64) c).2, data.drop (64 * (data.length / 64))) := by
  induction n generalizing c data with
  | zero =>
      obtain rfl : data = [] := List.length_eq_zero_iff.mp (by omega)
      rfl
  | succ n ih =>
      unfold bufferLoop
      split
      case isTrue hdata =>
        have hdrop := List.length_drop (i := 64) (l := data)
        have hturns : data.length / 64 = (data.drop 64).length / 64 + 1 := by omega
        set keys := (f c).toBytes ++ (f (addLane c 1)).toBytes ++ (f (addLane c 2)).toBytes ++ (f (addLane c 3)).toBytes
          with hdef
        have hkeys : keys.length = 64 := length_four (f c) (f (addLane c 1)) (f (addLane c 2)) (f (addLane c 3))
        have hcons (cs : List Block) : keystream f (c :: addLane c 1 :: addLane c 2 :: addLane c 3 :: cs) =
            keys ++ keystream f cs := by
          simp only [hdef, keystream, List.flatMap_cons, List.append_assoc]
        dsimp only [ctrStep4]
        rw [← hdef]
        rw [ih (inc32 (inc32 (inc32 (inc32 c)))) (by omega), hturns, counters4]
        dsimp only
        rw [hcons, xorBuf_split (data.take _) keys,
          hkeys, List.take_take, Nat.min_eq_left (by omega), List.drop_take, List.drop_drop,
          show 64 * ((data.drop 64).length / 64 + 1) - 64 = 64 * ((data.drop 64).length / 64) by omega,
          show 64 + 64 * ((data.drop 64).length / 64) = 64 * ((data.drop 64).length / 64 + 1) by omega]
      case isFalse hdata =>
        rw [Nat.div_eq_of_lt (Nat.not_le.mp hdata)]
        rfl

theorem length_counters4 (n : ℕ) (c : Block) : (counters4 n c).1.length = 4 * n := by
  induction n generalizing c with
  | zero => rfl
  | succ n ih =>
      rw [counters4]
      simp only [List.length_cons, ih]
      omega

theorem length_keystream (f : Block → Block) (cs : List Block) : (keystream f cs).length = 16 * cs.length := by
  induction cs with
  | nil => rfl
  | cons c cs ih =>
      have := length_toBytes (f c)
      rw [keystream] at ih ⊢
      rw [List.flatMap_cons, List.length_append, List.length_cons, ih]
      omega

/-- The counters of a build are the ones its keystream is made of. -/
theorem ctrLoops_counters (simd : Bool) (f : Block → Block) (c : Block) (data : Bytes) :
    ctrLoops simd f c data = xorBuf data (keystream f (counters simd c data.length)) := by
  rw [ctrLoops, blockLoops, counters]
  cases simd with
  | false =>
      dsimp only
      rw [if_neg Bool.false_ne_true, if_neg Bool.false_ne_true]
      dsimp only
      rw [List.nil_append, bufferLoop_counters1 f c le_rfl]
  | true =>
      rw [if_pos rfl, if_pos rfl, bufferLoop_counters4 f c le_rfl]
      dsimp only
      have hdrop := List.length_drop (i := 64 * (data.length / 64)) (l := data)
      have hkeys : (keystream f (counters4 (data.length / 64) c).1).length = 64 * (data.length / 64) := by
        rw [length_keystream, length_counters4]
        omega
      rw [bufferLoop_counters1 f _ (by omega), hdrop, show data.length - 64 * (data.length / 64) = data.length % 64 by omega]
      conv_rhs => rw [keystream, List.flatMap_append, xorBuf_split]
      rw [keystream] at hkeys
      rw [hkeys]
      rfl

/-! ### Counting -/

theorem readBe_inc32 (c : Block) : readBe (inc32 c).c3.toBytes = (readBe c.c3.toBytes + 1) % 2 ^ 32 :=
  readBe_writeBe 4 (readBe c.c3.toBytes + 1)

theorem readBe_iterate (n : ℕ) (c : Block) : readBe (inc32^[n] c).c3.toBytes = (readBe c.c3.toBytes + n) % 2 ^ 32 := by
  have hlt : readBe c.c3.toBytes < 2 ^ 32 := by
    have h0 := c.c3.s0.toNat_lt
    have h1 := c.c3.s1.toNat_lt
    have h2 := c.c3.s2.toNat_lt
    have h3 := c.c3.s3.toNat_lt
    rw [Column.toBytes, readBe_four]
    omega
  induction n with
  | zero => exact (Nat.mod_eq_of_lt hlt).symm
  | succ n ih =>
      rw [Function.iterate_succ_apply', readBe_inc32, ih]
      omega

/-- The counters of a message and the one of its tag are distinct. -/
theorem nodup_counters (c : Block) (hn : n < 2 ^ 32) : (c :: (List.range n).map fun i => inc32^[i + 1] c).Nodup := by
  have hrange : (c :: (List.range n).map fun i => inc32^[i + 1] c) = (List.range (n + 1)).map fun i => inc32^[i] c := by
    rw [List.range_succ_eq_map, List.map_cons, List.map_map]
    rfl
  rw [hrange]
  refine (List.nodup_map_iff_inj_on List.nodup_range).mpr fun i hi k hk heq => ?_
  have hval := readBe_iterate i c
  rw [heq, readBe_iterate k c] at hval
  have := List.mem_range.mp hi
  have := List.mem_range.mp hk
  omega

/-- A build counts as the loop over single blocks does exactly if it runs no turn over four blocks. -/
theorem counters_eq_iff (simd : Bool) (c : Block) (size : ℕ) :
    counters simd c size = counters false c size ↔ simd = false ∨ size < 64 := by
  constructor
  · intro h
    by_contra hc
    push Not at hc
    obtain ⟨hsimd, hsize⟩ := hc
    obtain rfl : simd = true := by simpa using hsimd
    obtain ⟨n, hn⟩ : ∃ n, size / 64 = n + 1 := ⟨size / 64 - 1, by omega⟩
    have hthird : (counters true c size)[2]? = some (addLane c 2) := by
      rw [counters, if_pos rfl, hn]
      rfl
    obtain ⟨m, hm⟩ : ∃ m, (size + 15) / 16 = m + 3 := ⟨(size + 15) / 16 - 3, by omega⟩
    have hsingle : (counters false c size)[2]? = some (inc32 (inc32 c)) := by
      rw [counters, if_neg Bool.false_ne_true, hm]
      rfl
    rw [h, hsingle] at hthird
    exact addLane_ne_inc32 c (Option.some.inj hthird).symm
  · rintro (rfl | hsize)
    · rfl
    · cases simd with
      | false => rfl
      | true =>
          rw [counters, counters, if_pos rfl, if_neg Bool.false_ne_true, Nat.div_eq_of_lt hsize, Nat.mod_eq_of_lt hsize]
          rfl

/-! ### The cipher of a build -/

variable (mult : Hash → Hash → Hash)

/-- What a build promises of a message: block `i` is processed with the counter `i + 1` steps behind the initial one, no
counter block is used twice, the keystream of every permutation is the one of the other build, and so are the
ciphertext and the tag. -/
structure SameCipher (simd : Bool) (key nonce aad data : Bytes) (tagLen : ℕ) : Prop where
  order : let j0 := initialCounter mult (readHash (encryptBlock (roundKey (keyExpansion key)) zeroBlock)) nonce
    counters simd (inc32 j0) data.length = (List.range ((data.length + 15) / 16)).map fun i => inc32^[i + 1] j0
  fresh : let j0 := initialCounter mult (readHash (encryptBlock (roundKey (keyExpansion key)) zeroBlock)) nonce
    (j0 :: counters simd (inc32 j0) data.length).Nodup
  stream : ∀ (f : Equiv.Perm Block) (j0 : Block), ctrLoops simd f (inc32 j0) data =
    xorBuf data (keystream f ((List.range ((data.length + 15) / 16)).map fun i => inc32^[i + 1] j0))
  encrypt : encryptGcm mult simd data key nonce aad true tagLen = encryptGcm mult false data key nonce aad true tagLen
  decrypt : ∀ tag,
    decryptGcm mult simd data key nonce aad tag tagLen = decryptGcm mult false data key nonce aad tag tagLen

theorem counters_inc32 (j0 : Block) (size : ℕ) :
    counters false (inc32 j0) size = (List.range ((size + 15) / 16)).map fun i => inc32^[i + 1] j0 :=
  counters1_eq _ _

/-- It does so without AES-NI, and with AES-NI exactly for data of less than 64 bytes. -/
theorem sameCipher_iff (simd : Bool) (key nonce aad data : Bytes) (tagLen : ℕ) (hblocks :
    (data.length + 15) / 16 < 2 ^ 32 - 2) :
    SameCipher mult simd key nonce aad data tagLen ↔ simd = false ∨ data.length < 64 := by
  constructor
  · intro h
    exact (counters_eq_iff simd _ data.length).mp (h.order.trans (counters_inc32 _ _).symm)
  · intro h
    have hcounters (j0 : Block) : counters simd (inc32 j0) data.length =
        (List.range ((data.length + 15) / 16)).map fun i => inc32^[i + 1] j0 :=
      ((counters_eq_iff simd (inc32 j0) data.length).mpr h).trans (counters_inc32 j0 _)
    exact {
      order := hcounters _
      fresh := by
        dsimp only
        rw [hcounters]
        exact nodup_counters _ (by omega)
      stream := fun f j0 => by rw [ctrLoops_counters, hcounters]
      encrypt := by
        rcases h with rfl | h
        · rfl
        · exact encryptGcm_of_lt mult simd h
      decrypt := fun tag => by
        rcases h with rfl | h
        · rfl
        · exact decryptGcm_of_lt mult simd h tag }

theorem sameCipher_short :
    SameCipher gf128Multiply true (List.replicate 32 7) (List.replicate 12 5) [1, 2] [3, 4, 5] 16 :=
  (sameCipher_iff gf128Multiply true _ _ [1, 2] [3, 4, 5] 16 (by decide)).mpr (.inr (by decide))

/-- Four blocks of zeros are encrypted with other counters. -/
theorem zeros_not_sameCipher :
    ¬ SameCipher gf128Multiply true (List.replicate 32 7) (List.replicate 12 5) [] (List.replicate 64 0) 16 := fun h =>
  encryptGcm_ne gf128Multiply (List.length_replicate ..).ge (List.length_replicate ..) (by decide) (by decide) h.encrypt

end NeForce.Aes256
