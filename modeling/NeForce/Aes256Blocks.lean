import NeForce.Aes256

/-! # Decryption of a block

The S-box and the column map have inverses: the product in the field is linear in its second factor, and the rest is
a check of every byte. A round of decryption then undoes a round of encryption, and the instructions of AES-NI, which
apply the linear map before the transformed round key, compute the same rounds. -/

namespace NeForce.Aes256

set_option maxRecDepth 8000

/-! ### Multiplication -/

variable {a b s t : UInt8}

/-- `AES256_gf_mult` on natural numbers. -/
def natMultLoop : ℕ → ℕ → ℕ → ℕ → ℕ
  | 0, _, _, result => result
  | n + 1, a, b, result => natMultLoop n (a * 2 % 256 ^^^ 0x1B * (a / 128)) (b / 2) (result ^^^ a * (b % 2))

theorem and_neg_bit (a b : UInt8) : (a &&& ((0 : UInt8) - (b &&& 1))).toNat = a.toNat * (b.toNat % 2) := by
  have hb : (b &&& 1).toNat = b.toNat % 2 := by
    rw [UInt8.toNat_and]
    exact Nat.and_two_pow_sub_one_eq_mod _ 1
  rcases Nat.mod_two_eq_zero_or_one b.toNat with h | h
  · rw [h] at hb ⊢
    have : b &&& 1 = 0 := UInt8.toNat_inj.mp hb
    rw [this]
    simp
  · rw [h] at hb ⊢
    have : b &&& 1 = 1 := UInt8.toNat_inj.mp hb
    rw [this]
    have h255 : (0 : UInt8) - 1 = 255 := by decide
    rw [h255, UInt8.toNat_and, Nat.mul_one]
    exact (Nat.and_two_pow_sub_one_eq_mod _ 8).trans (Nat.mod_eq_of_lt a.toNat_lt)

theorem toNat_gfMultLoop (n : ℕ) (a b result : UInt8) :
    (gfMultLoop n a b result).toNat = natMultLoop n a.toNat b.toNat result.toNat := by
  induction n generalizing a b result with
  | zero => rfl
  | succ n ih =>
      have hhi : ((0x1B : UInt8) &&& ((0 : UInt8) - ((a &&& 0x80) >>> 7))).toNat = 0x1B * (a.toNat / 128) := by
        have hbit : ∀ n < 256, (n &&& 0x80) >>> 7 = n / 128 := by decide
        have h1 : ((a &&& 0x80) >>> 7) &&& (1 : UInt8) = (a &&& 0x80) >>> 7 := by
          rw [← UInt8.toNat_inj]
          have : ∀ n < 256, ((n &&& 0x80) >>> 7) &&& 1 = (n &&& 0x80) >>> 7 := by decide
          exact this _ a.toNat_lt
        have := and_neg_bit 0x1B ((a &&& 0x80) >>> 7)
        rw [h1] at this
        rw [this]
        have e : ((a &&& 0x80) >>> 7).toNat = a.toNat / 128 := hbit _ a.toNat_lt
        have := a.toNat_lt
        rw [e, Nat.mod_eq_of_lt (by omega)]
        rfl
      have hb : (b >>> 1).toNat = b.toNat / 2 := rfl
      have ha : (a <<< 1).toNat = a.toNat * 2 % 256 := by
        rw [UInt8.toNat_shiftLeft]
        simp [Nat.shiftLeft_eq]
      rw [gfMultLoop, natMultLoop, ih, UInt8.toNat_xor, UInt8.toNat_xor, and_neg_bit, hhi, hb, ha]

theorem toNat_gfMult (a b : UInt8) : (gfMult a b).toNat = natMultLoop 8 a.toNat b.toNat 0 := toNat_gfMultLoop 8 a b 0

theorem xor_mod_two (m n : ℕ) : (m ^^^ n) % 2 = (m % 2 + n % 2) % 2 := by
  have : (m ^^^ n) % 2 = (m + n) % 2 := Nat.xor_mod_two_eq
  omega

/-- The summand of a step is linear in the second factor. -/
theorem and_neg_bit_xor (a s t : UInt8) :
    a &&& ((0 : UInt8) - ((s ^^^ t) &&& 1)) =
      (a &&& ((0 : UInt8) - (s &&& 1))) ^^^ (a &&& ((0 : UInt8) - (t &&& 1))) := by
  rw [← UInt8.toNat_inj, UInt8.toNat_xor, and_neg_bit, and_neg_bit, and_neg_bit, UInt8.toNat_xor, xor_mod_two]
  rcases Nat.mod_two_eq_zero_or_one s.toNat with hs | hs
  · rcases Nat.mod_two_eq_zero_or_one t.toNat with ht | ht
    · simp [hs, ht]
    · simp [hs, ht]
  · rcases Nat.mod_two_eq_zero_or_one t.toNat with ht | ht
    · simp [hs, ht]
    · simp [hs, ht]

theorem gfMultLoop_xor (n : ℕ) (a s t r u : UInt8) :
    gfMultLoop n a (s ^^^ t) (r ^^^ u) = gfMultLoop n a s r ^^^ gfMultLoop n a t u := by
  induction n generalizing a s t r u with
  | zero => rfl
  | succ n ih =>
      have hshift : (s ^^^ t) >>> 1 = s >>> 1 ^^^ t >>> 1 := by
        rw [← UInt8.toNat_inj]
        exact Nat.shiftRight_xor_distrib
      have hcomm (w x y z : UInt8) : w ^^^ x ^^^ (y ^^^ z) = w ^^^ y ^^^ (x ^^^ z) := by
        rw [UInt8.xor_assoc, ← UInt8.xor_assoc x, UInt8.xor_comm x, UInt8.xor_assoc y, ← UInt8.xor_assoc]
      rw [gfMultLoop, and_neg_bit_xor, hcomm, hshift]
      exact ih _ _ _ _ _

/-- A product with a fixed first factor is linear. -/
theorem gfMult_xor (a s t : UInt8) : gfMult a (s ^^^ t) = gfMult a s ^^^ gfMult a t := gfMultLoop_xor 8 a s t 0 0

/-! ### The inverse column map -/

theorem forall_byte (p : UInt8 → Prop) (h : ∀ n < 256, p (UInt8.ofNat n)) (x : UInt8) : p x := by
  have := h x.toNat x.toNat_lt
  rwa [UInt8.ofNat_toNat] at this

def natMult (a b : ℕ) : ℕ := natMultLoop 8 a b 0

/-- The four combinations of coefficients that occur in the product of the two column maps. -/
theorem natMix : ∀ n < 256,
    natMult 0x0E (natMult 2 n) ^^^ natMult 0x0B n ^^^ natMult 0x0D n ^^^ natMult 9 (natMult 3 n) = n ∧
    natMult 0x0E (natMult 3 n) ^^^ natMult 0x0B (natMult 2 n) ^^^ natMult 0x0D n ^^^ natMult 9 n = 0 ∧
    natMult 0x0E n ^^^ natMult 0x0B (natMult 3 n) ^^^ natMult 0x0D (natMult 2 n) ^^^ natMult 9 n = 0 ∧
    natMult 0x0E n ^^^ natMult 0x0B n ^^^ natMult 0x0D (natMult 3 n) ^^^ natMult 9 (natMult 2 n) = 0 := by
  decide

theorem gfMix (x : UInt8) :
    gfMult 0x0E (gfMult 2 x) ^^^ gfMult 0x0B x ^^^ gfMult 0x0D x ^^^ gfMult 9 (gfMult 3 x) = x ∧
    gfMult 0x0E (gfMult 3 x) ^^^ gfMult 0x0B (gfMult 2 x) ^^^ gfMult 0x0D x ^^^ gfMult 9 x = 0 ∧
    gfMult 0x0E x ^^^ gfMult 0x0B (gfMult 3 x) ^^^ gfMult 0x0D (gfMult 2 x) ^^^ gfMult 9 x = 0 ∧
    gfMult 0x0E x ^^^ gfMult 0x0B x ^^^ gfMult 0x0D (gfMult 3 x) ^^^ gfMult 9 (gfMult 2 x) = 0 := by
  have h := natMix x.toNat x.toNat_lt
  simp only [← UInt8.toNat_inj, UInt8.toNat_xor, toNat_gfMult]
  exact h

/-- The sum over a square, by rows and by columns. -/
theorem xor_transpose (a0 a1 a2 a3 b0 b1 b2 b3 c0 c1 c2 c3 d0 d1 d2 d3 : UInt8) :
    a0 ^^^ a1 ^^^ a2 ^^^ a3 ^^^ (b0 ^^^ b1 ^^^ b2 ^^^ b3) ^^^ (c0 ^^^ c1 ^^^ c2 ^^^ c3) ^^^ (d0 ^^^ d1 ^^^ d2 ^^^ d3) =
      a0 ^^^ b0 ^^^ c0 ^^^ d0 ^^^ (a1 ^^^ b1 ^^^ c1 ^^^ d1) ^^^ (a2 ^^^ b2 ^^^ c2 ^^^ d2) ^^^
        (a3 ^^^ b3 ^^^ c3 ^^^ d3) := by
  ac_rfl

theorem xor_rotate (a b c d : UInt8) : d ^^^ a ^^^ b ^^^ c = a ^^^ b ^^^ c ^^^ d := by ac_rfl

theorem invMixColumn_mixColumn (s : Column) : invMixColumn (mixColumn s) = s := by
  obtain ⟨s0, s1, s2, s3⟩ := s
  obtain ⟨a0, b0, c0, d0⟩ := gfMix s0
  obtain ⟨a1, b1, c1, d1⟩ := gfMix s1
  obtain ⟨a2, b2, c2, d2⟩ := gfMix s2
  obtain ⟨a3, b3, c3, d3⟩ := gfMix s3
  simp only [invMixColumn, mixColumn, gfMult_xor, Column.mk.injEq]
  refine ⟨?_, ?_, ?_, ?_⟩
  · rw [xor_transpose, a0, b1, c2, d3]
    simp
  · rw [← xor_rotate] at d0 a1 b2 c3
    rw [xor_transpose, d0, a1, b2, c3]
    simp
  · rw [← xor_rotate, ← xor_rotate] at c0 d1 a2 b3
    rw [xor_transpose, c0, d1, a2, b3]
    simp
  · rw [← xor_rotate, ← xor_rotate, ← xor_rotate] at b0 c1 d2 a3
    rw [xor_transpose, b0, c1, d2, a3]
    simp

def natSquare (x : ℕ) : ℕ := natMult x x

/-- `AES256_gf_inv` on natural numbers. -/
def natInv (x : ℕ) : ℕ :=
  let t2 := natSquare x
  let t3 := natMult t2 x
  let t6 := natSquare t3
  let t7 := natMult t6 x
  let t12 := natSquare t6
  let t14 := natSquare t7
  let t15 := natMult t12 t3
  let t240 := natSquare (natSquare (natSquare (natSquare t15)))
  natMult t240 t14

theorem toNat_gfInv (x : UInt8) : (gfInv x).toNat = natInv x.toNat := by
  simp only [gfInv, gfSquare, toNat_gfMult]
  rfl

theorem natInv_natInv : ∀ n < 256, natInv (natInv n) = n := by decide +kernel

theorem gfInv_gfInv (x : UInt8) : gfInv (gfInv x) = x := by
  rw [← UInt8.toNat_inj, toNat_gfInv, toNat_gfInv]
  exact natInv_natInv _ x.toNat_lt

/-- The affine map of the S-box. -/
def affine (y : UInt8) : UInt8 := y ^^^ rotl y 1 ^^^ rotl y 2 ^^^ rotl y 3 ^^^ rotl y 4 ^^^ 0x63

def invAffine (z : UInt8) : UInt8 := rotl z 1 ^^^ rotl z 3 ^^^ rotl z 6 ^^^ 0x05

theorem invAffine_affine (y : UInt8) : invAffine (affine y) = y := by
  have h : ∀ n < 256, invAffine (affine (.ofNat n)) = .ofNat n := by decide
  exact forall_byte (fun y => invAffine (affine y) = y) h y

theorem invSboxCt_sboxCt (x : UInt8) : invSboxCt (sboxCt x) = x := by
  have : invSboxCt (sboxCt x) = gfInv (invAffine (affine (gfInv x))) := rfl
  rw [this, invAffine_affine, gfInv_gfInv]

/-! ### Rounds -/

theorem Column.map_map (f g : UInt8 → UInt8) (h : ∀ x, f (g x) = x) (s : Column) : (s.map g).map f = s := by
  simp only [Column.map, h]

theorem Block.map_map (f g : Column → Column) (h : ∀ s, f (g s) = s) (b : Block) : (b.map g).map f = b := by
  simp only [Block.map, h]

theorem invSubBytes_subBytes (b : Block) : invSubBytes (subBytes b) = b :=
  Block.map_map _ _ (Column.map_map _ _ invSboxCt_sboxCt) b

theorem invShiftRows_shiftRows (b : Block) : invShiftRows (shiftRows b) = b := rfl

theorem invMixColumns_mixColumns (b : Block) : invMixColumns (mixColumns b) = b :=
  Block.map_map _ _ invMixColumn_mixColumn b

theorem Column.xor_xor (s t : Column) : (s.xor t).xor t = s := by
  simp only [Column.xor, UInt8.xor_assoc, UInt8.xor_self, UInt8.xor_zero]

theorem Block.xor_xor (b k : Block) : (b.xor k).xor k = b := by
  simp only [Block.xor, Column.xor_xor]

theorem addRoundKey_addRoundKey (b k : Block) : addRoundKey (addRoundKey b k) k = b := Block.xor_xor b k

/-- The inverse column map is linear. -/
theorem invMixColumn_xor (s t : Column) : invMixColumn (s.xor t) = (invMixColumn s).xor (invMixColumn t) := by
  simp only [invMixColumn, Column.xor, gfMult_xor, Column.mk.injEq]
  refine ⟨?_, ?_, ?_, ?_⟩ <;> ac_rfl

theorem invMixColumns_xor (b k : Block) : invMixColumns (b.xor k) = (invMixColumns b).xor (invMixColumns k) := by
  simp only [invMixColumns, Block.map, Block.xor, invMixColumn_xor]

/-- `aesdec` with a transformed round key is a round of the portable loop. -/
theorem decryptRound_true (rk block : Block) :
    decryptRound true (invMixColumns rk) block = decryptRound false rk block := by
  rw [decryptRound, decryptRound, if_pos rfl, if_neg (by simp), addRoundKey, addRoundKey, invMixColumns_xor]

theorem decryptRounds_simd (simd : Bool) (key : Bytes) {n : ℕ} (hn : n ≤ 13) (block : Block) :
    decryptRounds simd (invRoundKey simd key) n block =
      decryptRounds false (roundKey (keyExpansion key)) n block := by
  induction n generalizing block with
  | zero => rfl
  | succ n ih =>
      have hround : decryptRound simd (invRoundKey simd key (n + 1)) block =
          decryptRound false (roundKey (keyExpansion key) (n + 1)) block := by
        cases simd with
        | false => simp [invRoundKey]
        | true =>
            have hlt : n + 1 < 14 := by omega
            simp [invRoundKey, hlt, decryptRound_true]
      rw [decryptRounds, decryptRounds, hround]
      exact ih (by omega) _

/-- Both builds decrypt alike. -/
theorem decryptBlock_simd (simd : Bool) (key : Bytes) (block : Block) :
    decryptBlock simd (invRoundKey simd key) block = decryptBlock false (roundKey (keyExpansion key)) block := by
  have hends (r : ℕ) (h : r = 0 ∨ r = 14) : invRoundKey simd key r = roundKey (keyExpansion key) r := by
    rcases h with rfl | rfl
    · simp [invRoundKey]
    · simp [invRoundKey]
  rw [decryptBlock, decryptBlock, decryptRounds_simd simd key le_rfl, hends 0 (.inl rfl), hends 14 (.inr rfl)]

theorem decryptRound_encrypt (rk block : Block) :
    decryptRound false rk (shiftRows (subBytes (addRoundKey (mixColumns block) rk))) = block := by
  rw [decryptRound, if_neg (by simp), invShiftRows_shiftRows, invSubBytes_subBytes, addRoundKey_addRoundKey,
    invMixColumns_mixColumns]

/-- The rounds of decryption undo the rounds of encryption, from the step before the round key on. -/
theorem decryptRounds_encryptRounds (rk : ℕ → Block) (n : ℕ) (block : Block) :
    decryptRounds false rk n (shiftRows (subBytes (encryptRounds rk n block))) = shiftRows (subBytes block) := by
  induction n with
  | zero => rfl
  | succ n ih => rw [decryptRounds, encryptRounds, decryptRound_encrypt, ih]

theorem decryptBlock_encryptBlock (rk : ℕ → Block) (src : Block) :
    decryptBlock false rk (encryptBlock rk src) = src := by
  rw [decryptBlock, encryptBlock, addRoundKey_addRoundKey, decryptRounds_encryptRounds, invShiftRows_shiftRows,
    invSubBytes_subBytes, addRoundKey_addRoundKey]

/-- Decryption inverts encryption in both builds. -/
theorem decryptBlock_inverts (simd : Bool) (key : Bytes) (src : Block) :
    decryptBlock simd (invRoundKey simd key) (encryptBlock (roundKey (keyExpansion key)) src) = src := by
  rw [decryptBlock_simd, decryptBlock_encryptBlock]

theorem encryptBlock_injective (rk : ℕ → Block) : Function.Injective (encryptBlock rk) :=
  Function.LeftInverse.injective (decryptBlock_encryptBlock rk)

end NeForce.Aes256
