import NeForce.Words
import Mathlib.Data.Nat.ModEq

/-! # Poly1305

The accumulator is kept in five limbs of 26 bits, with carries that are passed on late.  A sum or a product that does not
fit into 64 bits has no value here; there is none for any key and message. -/

namespace NeForce.Poly1305

/-- A 64-bit word. -/
def word (n : ℕ) : Option ℕ := if n < 2 ^ 64 then some n else none

def read32 (l : Bytes) (offset : ℕ) : ℕ := readLe ((l.drop offset).take 4)

structure Limbs where
  h0 : ℕ
  h1 : ℕ
  h2 : ℕ
  h3 : ℕ
  h4 : ℕ

/-- The bytes of `r` of which bits are cleared, and the bits that stay. -/
def clampMask : Bytes := [255, 255, 255, 15, 252, 255, 255, 15, 252, 255, 255, 15, 252, 255, 255, 15]

def poly1305Clamp (r : Bytes) : Bytes := List.zipWith (· &&& ·) r clampMask

def limbs (l : Bytes) : Limbs :=
  ⟨read32 l 0 &&& 0x03ffffff, read32 l 3 >>> 2 &&& 0x03ffffff, read32 l 6 >>> 4 &&& 0x03ffffff,
    read32 l 9 >>> 6 &&& 0x03ffffff, read32 l 12 >>> 8 &&& 0x03ffffff⟩

/-- The 17 bytes of a block: at most 16 bytes of the message, a one and zeros. -/
def paddedBlock (l : Bytes) : Bytes := l ++ 1 :: List.replicate (16 - l.length) 0

def blockLimbs (block : Bytes) : Limbs :=
  { limbs block with h4 := (limbs block).h4 ||| (block.getD 16 0).toNat <<< 24 }

def addBlock (h b : Limbs) : Option Limbs := do
  let h0 ← word (h.h0 + b.h0)
  let h1 ← word (h.h1 + b.h1)
  let h2 ← word (h.h2 + b.h2)
  let h3 ← word (h.h3 + b.h3)
  let h4 ← word (h.h4 + b.h4)
  some ⟨h0, h1, h2, h3, h4⟩

/-- The products `d0` to `d4`. Where one of them fits, so do the products and the sums it is made of. -/
def products (h r : Limbs) : Option Limbs := do
  let s1 ← word (r.h1 * 5)
  let s2 ← word (r.h2 * 5)
  let s3 ← word (r.h3 * 5)
  let s4 ← word (r.h4 * 5)
  let d0 ← word (h.h0 * r.h0 + h.h1 * s4 + h.h2 * s3 + h.h3 * s2 + h.h4 * s1)
  let d1 ← word (h.h0 * r.h1 + h.h1 * r.h0 + h.h2 * s4 + h.h3 * s3 + h.h4 * s2)
  let d2 ← word (h.h0 * r.h2 + h.h1 * r.h1 + h.h2 * r.h0 + h.h3 * s4 + h.h4 * s3)
  let d3 ← word (h.h0 * r.h3 + h.h1 * r.h2 + h.h2 * r.h1 + h.h3 * r.h0 + h.h4 * s4)
  let d4 ← word (h.h0 * r.h4 + h.h1 * r.h3 + h.h2 * r.h2 + h.h3 * r.h1 + h.h4 * r.h0)
  some ⟨d0, d1, d2, d3, d4⟩

/-- The carries behind the products. -/
def carryProducts (d : Limbs) : Option Limbs := do
  let c := d.h0 >>> 26
  let h0 := d.h0 &&& 0x03ffffff
  let c ← word (c + d.h1)
  let h1 := c &&& 0x03ffffff
  let c ← word ((c >>> 26) + d.h2)
  let h2 := c &&& 0x03ffffff
  let c ← word ((c >>> 26) + d.h3)
  let h3 := c &&& 0x03ffffff
  let c ← word ((c >>> 26) + d.h4)
  let h4 := c &&& 0x03ffffff
  let c := c >>> 26
  let h0 ← word (h0 + c * 5)
  let c := h0 >>> 26
  let h0 := h0 &&& 0x03ffffff
  let h1 ← word (h1 + c)
  some ⟨h0, h1, h2, h3, h4⟩

def turn (r h : Limbs) (block : Bytes) : Option Limbs := do
  let h ← addBlock h (blockLimbs (paddedBlock block))
  let d ← products h r
  carryProducts d

/-- A pass of carries behind the last block. -/
def pass (h : Limbs) : Option Limbs := do
  let c := h.h1 >>> 26
  let h1 := h.h1 &&& 0x03ffffff
  let h2 ← word (h.h2 + c)
  let c := h2 >>> 26
  let h2 := h2 &&& 0x03ffffff
  let h3 ← word (h.h3 + c)
  let c := h3 >>> 26
  let h3 := h3 &&& 0x03ffffff
  let h4 ← word (h.h4 + c)
  let c := h4 >>> 26
  let h4 := h4 &&& 0x03ffffff
  let h0 ← word (h.h0 + c * 5)
  let c := h0 >>> 26
  let h0 := h0 &&& 0x03ffffff
  let h1 ← word (h1 + c)
  some ⟨h0, h1, h2, h3, h4⟩

/-- The blocks of a message of at most `n` bytes. -/
def blocks : ℕ → Bytes → List Bytes
  | 0, _ => []
  | n + 1, msg => if msg = [] then [] else msg.take 16 :: blocks n (msg.drop 16)

/-- The two words of the limbs; nothing is left above them that is kept. -/
def packed (h : Limbs) : ℕ × ℕ :=
  (h.h0 ||| h.h1 <<< 26 ||| (h.h2 &&& 0xFFF) <<< 52, h.h2 >>> 12 ||| h.h3 <<< 14 ||| (h.h4 &&& 0xFFFFFF) <<< 40)

/-- The addition of the second half of the key, modulo `2 ^ 128`. -/
def addKey (g : ℕ × ℕ) (sLo sHi : ℕ) : Bytes :=
  let g0 := (g.1 + sLo) % 2 ^ 64
  let carry1 := if g0 < sLo then 1 else 0
  let g1 := (g.2 + (sHi + carry1)) % 2 ^ 64
  writeLe 8 g0 ++ writeLe 8 g1

def poly1305Mac (key msg : Bytes) : Option Bytes := do
  let r := limbs (poly1305Clamp (key.take 16))
  let h ← (blocks msg.length msg).foldlM (turn r) ⟨0, 0, 0, 0, 0⟩
  let h ← pass h
  let h ← pass h
  some (addKey (packed h) (readLe ((key.drop 16).take 8)) (readLe ((key.drop 24).take 8)))

/-! ### What it computes -/

/-- `2 ^ 130 - 5`. -/
def prime : ℕ := 0x3fffffffffffffffffffffffffffffffb

/-- The clamped number of the first half of the key. -/
def clamped (key : Bytes) : ℕ := readLe (key.take 16) &&& 0x0ffffffc0ffffffc0ffffffc0fffffff

/-- The polynomial whose coefficients are the blocks, each with a one behind it, at `r`. -/
def polynomial (r : ℕ) (msg : Bytes) : ℕ :=
  (blocks msg.length msg).foldl (fun acc block => (acc + readLe (block ++ [1])) * r) 0

def tag (key msg : Bytes) : Bytes :=
  writeLe 16 ((polynomial (clamped key) msg % prime + readLe ((key.drop 16).take 16)) % 2 ^ 128)

variable {n m c : ℕ} {h r b d : Limbs}

/-- The number that the limbs stand for. -/
def Limbs.value (h : Limbs) : ℕ := h.h0 + 2 ^ 26 * h.h1 + 2 ^ 52 * h.h2 + 2 ^ 78 * h.h3 + 2 ^ 104 * h.h4

/-- Limbs of 26 bits. -/
structure Limbs.Reduced (h : Limbs) : Prop where
  h0 : h.h0 < 2 ^ 26
  h1 : h.h1 < 2 ^ 26
  h2 : h.h2 < 2 ^ 26
  h3 : h.h3 < 2 ^ 26
  h4 : h.h4 < 2 ^ 26

/-- What a turn leaves. -/
structure Limbs.Carried (h : Limbs) : Prop where
  h0 : h.h0 < 2 ^ 26
  h1 : h.h1 < 2 ^ 26 + 2 ^ 12
  h2 : h.h2 < 2 ^ 26
  h3 : h.h3 < 2 ^ 26
  h4 : h.h4 < 2 ^ 26

theorem word_eq (hn : n < 2 ^ 64) : word n = some n := if_pos hn

theorem and_mask (n : ℕ) : n &&& 0x03ffffff = n % 2 ^ 26 := Nat.and_two_pow_sub_one_eq_mod n 26

/-! ### Limbs of bytes -/

theorem read32_eq (l : Bytes) (offset : ℕ) : read32 l offset = readLe l / 256 ^ offset % 2 ^ 32 :=
  readLe_drop_take l offset 4

theorem limbs_reduced (l : Bytes) : (limbs l).Reduced := by
  constructor <;> exact (and_mask _).trans_lt (Nat.mod_lt _ (by decide))

theorem value_limbs (l : Bytes) : (limbs l).value = readLe l % 2 ^ 128 := by
  simp only [Limbs.value, limbs, and_mask, read32_eq, Nat.shiftRight_eq_div_pow]
  omega

theorem readLe_replicate_zero (n : ℕ) : readLe (List.replicate n 0) = 0 := by
  induction n with
  | zero => rfl
  | succ n ih => rw [List.replicate_succ, readLe, ih]; rfl

theorem readLe_paddedBlock (l : Bytes) : readLe (paddedBlock l) = readLe (l ++ [1]) := by
  rw [paddedBlock, List.append_cons, readLe_append _ (List.replicate _ _), readLe_replicate_zero, Nat.mul_zero, Nat.add_zero]

/-- The limbs of a block and the number they stand for. -/
theorem blockLimbs_spec {l : Bytes} (hl : l.length ≤ 16) :
    (blockLimbs (paddedBlock l)).Reduced ∧ (blockLimbs (paddedBlock l)).value = readLe (l ++ [1]) := by
  set block := paddedBlock l with hblock
  have hlen : block.length = 17 := by
    rw [hblock, paddedBlock, List.length_append, List.length_cons, List.length_replicate]
    omega
  have htop : (block.getD 16 0).toNat = readLe block / 2 ^ 128 := by
    obtain ⟨b, hb⟩ : ∃ b, (block.drop 16).take 1 = [b] := by
      rw [← List.length_eq_one_iff, List.length_take, List.length_drop, hlen]
      rfl
    have hget : block.getD 16 0 = b := by
      have := congrArg (·.getD 0 0) hb
      simpa [List.getD_eq_getElem?_getD, List.getElem?_drop] using this
    have hread := readLe_drop_take block 16 1
    rw [hb] at hread
    have hlt := readLe_lt block
    rw [hlen] at hlt
    rw [hget]
    simp only [readLe] at hread
    omega
  have hone : readLe block / 2 ^ 128 ≤ 1 := by
    have hlt := readLe_lt l
    have hpow : 256 ^ l.length ≤ 256 ^ 16 := Nat.pow_le_pow_right (by decide) hl
    rw [hblock, readLe_paddedBlock, readLe_append, show readLe [1] = 1 from rfl, Nat.mul_one]
    omega
  have hh4 : (blockLimbs block).h4 = (limbs block).h4 + 2 ^ 24 * (readLe block / 2 ^ 128) := by
    have hlow : (limbs block).h4 < 2 ^ 24 := by
      simp only [limbs, and_mask, read32_eq, Nat.shiftRight_eq_div_pow]
      omega
    show (limbs block).h4 ||| (block.getD 16 0).toNat <<< 24 = _
    rw [htop, Nat.or_comm, ← Nat.shiftLeft_add_eq_or_of_lt hlow, Nat.shiftLeft_eq]
    omega
  have hreduced := limbs_reduced block
  refine ⟨⟨hreduced.h0, hreduced.h1, hreduced.h2, hreduced.h3, ?_⟩, ?_⟩
  · have hlow : (limbs block).h4 < 2 ^ 24 := by
      simp only [limbs, and_mask, read32_eq, Nat.shiftRight_eq_div_pow]
      omega
    rw [hh4]
    omega
  · have hvalue := value_limbs block
    have hsplit : (blockLimbs block).value = (limbs block).value + 2 ^ 128 * (readLe block / 2 ^ 128) := by
      simp only [Limbs.value, hh4]
      simp only [blockLimbs]
      omega
    rw [hsplit, hvalue, ← readLe_paddedBlock, Nat.mod_add_div]

theorem value_clamp {key : Bytes} (hkey : 16 ≤ key.length) :
    (limbs (poly1305Clamp (key.take 16))).value = clamped key := by
  have hlen : (key.take 16).length = clampMask.length := by
    rw [List.length_take, Nat.min_eq_left hkey]
    rfl
  have hmask : readLe clampMask = 0x0ffffffc0ffffffc0ffffffc0fffffff := by decide
  have hlt : readLe (key.take 16) &&& 0x0ffffffc0ffffffc0ffffffc0fffffff < 2 ^ 128 :=
    Nat.and_lt_two_pow _ (by decide)
  rw [value_limbs, poly1305Clamp, readLe_zipWith_and hlen, hmask, Nat.mod_eq_of_lt hlt]
  rfl

/-! ### A turn -/

theorem addBlock_spec (hh : h.Carried) (hb : b.Reduced) :
    addBlock h b = some ⟨h.h0 + b.h0, h.h1 + b.h1, h.h2 + b.h2, h.h3 + b.h3, h.h4 + b.h4⟩ := by
  obtain ⟨h0, h1, h2, h3, h4⟩ := hh
  obtain ⟨b0, b1, b2, b3, b4⟩ := hb
  rw [addBlock, word_eq (by omega), word_eq (by omega), word_eq (by omega), word_eq (by omega), word_eq (by omega)]
  rfl

/-- What was subtracted by taking the limbs from `2 ^ 130` on five times. -/
def wrapped (h r : Limbs) : ℕ :=
  (h.h1 * r.h4 + h.h2 * r.h3 + h.h3 * r.h2 + h.h4 * r.h1) + 2 ^ 26 * (h.h2 * r.h4 + h.h3 * r.h3 + h.h4 * r.h2) +
    2 ^ 52 * (h.h3 * r.h4 + h.h4 * r.h3) + 2 ^ 78 * (h.h4 * r.h4)

/-- Limbs of 27 bits and a little more. -/
structure Limbs.Summed (h : Limbs) : Prop where
  h0 : h.h0 ≤ 2 ^ 28
  h1 : h.h1 ≤ 2 ^ 28
  h2 : h.h2 ≤ 2 ^ 28
  h3 : h.h3 ≤ 2 ^ 28
  h4 : h.h4 ≤ 2 ^ 28

theorem products_spec (hh : h.Summed) (hr : r.Reduced) :
    ∃ d, products h r = some d ∧ d.h0 < 2 ^ 60 ∧ d.h1 < 2 ^ 60 ∧ d.h2 < 2 ^ 60 ∧ d.h3 < 2 ^ 60 ∧ d.h4 < 2 ^ 60 ∧
      d.value + 2 ^ 130 * wrapped h r = h.value * r.value + 5 * wrapped h r ∧
      5 * ((h.h1 + h.h2 + h.h3 + h.h4) * r.h0 + (h.h0 + h.h1 + h.h2 + h.h3 + h.h4) * (r.h1 + r.h2 + r.h3 + r.h4)) +
        h.h0 * r.h0 ≤ d.value := by
  obtain ⟨h0, h1, h2, h3, h4⟩ := h
  obtain ⟨r0, r1, r2, r3, r4⟩ := r
  obtain ⟨hh0, hh1, hh2, hh3, hh4⟩ := hh
  obtain ⟨hr0, hr1, hr2, hr3, hr4⟩ := hr
  dsimp only at *
  have hprod {x y : ℕ} (hx : x ≤ 2 ^ 28) (hy : y < 2 ^ 26) : x * y ≤ 2 ^ 54 :=
    (Nat.mul_le_mul hx hy.le).trans_eq (by decide)
  have h00 := hprod hh0 hr0
  have h01 := hprod hh0 hr1
  have h02 := hprod hh0 hr2
  have h03 := hprod hh0 hr3
  have h04 := hprod hh0 hr4
  have h10 := hprod hh1 hr0
  have h11 := hprod hh1 hr1
  have h12 := hprod hh1 hr2
  have h13 := hprod hh1 hr3
  have h14 := hprod hh1 hr4
  have h20 := hprod hh2 hr0
  have h21 := hprod hh2 hr1
  have h22 := hprod hh2 hr2
  have h23 := hprod hh2 hr3
  have h24 := hprod hh2 hr4
  have h30 := hprod hh3 hr0
  have h31 := hprod hh3 hr1
  have h32 := hprod hh3 hr2
  have h33 := hprod hh3 hr3
  have h34 := hprod hh3 hr4
  have h40 := hprod hh4 hr0
  have h41 := hprod hh4 hr1
  have h42 := hprod hh4 hr2
  have h43 := hprod hh4 hr3
  have h44 := hprod hh4 hr4
  simp only [products, word_eq (show r1 * 5 < 2 ^ 64 by omega), word_eq (show r2 * 5 < 2 ^ 64 by omega),
    word_eq (show r3 * 5 < 2 ^ 64 by omega), word_eq (show r4 * 5 < 2 ^ 64 by omega), Option.bind_eq_bind,
    Option.bind_some, ← Nat.mul_assoc]
  rw [word_eq (by omega), Option.bind_some, word_eq (by omega), Option.bind_some, word_eq (by omega), Option.bind_some,
    word_eq (by omega), Option.bind_some, word_eq (by omega), Option.bind_some]
  refine ⟨_, rfl, by dsimp only; omega, by dsimp only; omega, by dsimp only; omega, by dsimp only; omega,
    by dsimp only; omega, ?_, ?_⟩
  · simp only [Limbs.value, wrapped]
    ring
  · simp only [Limbs.value, Nat.mul_add, Nat.add_mul]
    omega

/-- The carries keep the number, up to multiples of `2 ^ 130 - 5`. -/
theorem carryProducts_spec (h0 : d.h0 < 2 ^ 60) (h1 : d.h1 < 2 ^ 60) (h2 : d.h2 < 2 ^ 60) (h3 : d.h3 < 2 ^ 60)
    (h4 : d.h4 < 2 ^ 60) :
    ∃ h, carryProducts d = some h ∧ h.Carried ∧ h.value = d.value % 2 ^ 130 + 5 * (d.value / 2 ^ 130) := by
  obtain ⟨d0, d1, d2, d3, d4⟩ := d
  dsimp only at *
  simp only [carryProducts, and_mask, Nat.shiftRight_eq_div_pow, Option.bind_eq_bind]
  set c1 := d0 / 2 ^ 26 + d1 with hc1
  rw [word_eq (n := c1) (by omega), Option.bind_some]
  set c2 := c1 / 2 ^ 26 + d2 with hc2
  rw [word_eq (n := c2) (by omega), Option.bind_some]
  set c3 := c2 / 2 ^ 26 + d3 with hc3
  rw [word_eq (n := c3) (by omega), Option.bind_some]
  set c4 := c3 / 2 ^ 26 + d4 with hc4
  rw [word_eq (n := c4) (by omega), Option.bind_some]
  set g0 := d0 % 2 ^ 26 + c4 / 2 ^ 26 * 5 with hg0
  rw [word_eq (n := g0) (by omega), Option.bind_some]
  have hg1 : c1 % 2 ^ 26 + g0 / 2 ^ 26 < 2 ^ 26 + 2 ^ 12 := by omega
  rw [word_eq (by omega), Option.bind_some]
  -- the digits below `2 ^ 130`, and what is left above them
  have hdigits : d0 + 2 ^ 26 * d1 + 2 ^ 52 * d2 + 2 ^ 78 * d3 + 2 ^ 104 * d4 =
      (d0 % 2 ^ 26 + 2 ^ 26 * (c1 % 2 ^ 26) + 2 ^ 52 * (c2 % 2 ^ 26) + 2 ^ 78 * (c3 % 2 ^ 26) + 2 ^ 104 * (c4 % 2 ^ 26)) +
        2 ^ 130 * (c4 / 2 ^ 26) := by omega
  have hlow : d0 % 2 ^ 26 + 2 ^ 26 * (c1 % 2 ^ 26) + 2 ^ 52 * (c2 % 2 ^ 26) + 2 ^ 78 * (c3 % 2 ^ 26) +
      2 ^ 104 * (c4 % 2 ^ 26) < 2 ^ 130 := by omega
  refine ⟨_, rfl, ⟨?_, hg1, ?_, ?_, ?_⟩, ?_⟩
  · exact Nat.mod_lt _ (by decide)
  · exact Nat.mod_lt _ (by decide)
  · exact Nat.mod_lt _ (by decide)
  · exact Nat.mod_lt _ (by decide)
  · simp only [Limbs.value]
    rw [hdigits, Nat.add_mul_mod_self_left, Nat.mod_eq_of_lt hlow, Nat.add_mul_div_left _ _ (by decide),
      Nat.div_eq_of_lt hlow, Nat.zero_add]
    omega

theorem prime_eq : prime + 5 = 2 ^ 130 := by decide

theorem modEq_add_prime_mul (v k : ℕ) : v ≡ v + prime * k [MOD prime] := (Nat.add_mul_mod_self_left v prime k).symm

/-- Folding the bits from `2 ^ 130` on keeps the number modulo the prime. -/
theorem fold_modEq (v : ℕ) : v % 2 ^ 130 + 5 * (v / 2 ^ 130) ≡ v [MOD prime] := by
  have hsplit : v = v % 2 ^ 130 + 5 * (v / 2 ^ 130) + prime * (v / 2 ^ 130) := by
    calc v = v % 2 ^ 130 + (prime + 5) * (v / 2 ^ 130) := by rw [prime_eq, Nat.mod_add_div]
      _ = _ := by ring
  conv_rhs => rw [hsplit]
  exact modEq_add_prime_mul _ _

/-- A turn adds the block and multiplies by `r`. What it leaves is above 4 unless `r` is zero. -/
theorem turn_spec {acc : ℕ} {block : Bytes} (hr : r.Reduced) (hh : h.Carried) (hblock : block.length ≤ 16) (hne : block ≠ [])
    (hacc : h.value ≡ acc [MOD prime]) :
    ∃ h', turn r h block = some h' ∧ h'.Carried ∧ h'.value ≡ (acc + readLe (block ++ [1])) * r.value [MOD prime] ∧
      (h'.value < 5 → r.value = 0) ∧ (r.value = 0 → h'.value = 0) := by
  obtain ⟨hb, hbvalue⟩ := blockLimbs_spec hblock
  set b := blockLimbs (paddedBlock block)
  set s : Limbs := ⟨h.h0 + b.h0, h.h1 + b.h1, h.h2 + b.h2, h.h3 + b.h3, h.h4 + b.h4⟩ with hs
  have hsvalue : s.value = h.value + b.value := by
    simp only [hs, Limbs.value]
    ring
  have hsummed : s.Summed := by
    obtain ⟨h0, h1, h2, h3, h4⟩ := hh
    obtain ⟨b0, b1, b2, b3, b4⟩ := hb
    constructor <;> simp only [hs] <;> omega
  obtain ⟨d, hd, d0, d1, d2, d3, d4, hvalue, hlow⟩ := products_spec hsummed hr
  obtain ⟨h', hcarry, hcarried, hfold⟩ := carryProducts_spec d0 d1 d2 d3 d4
  refine ⟨h', ?_, hcarried, ?_, fun hsmall => ?_, fun hzero => ?_⟩
  · rw [turn, addBlock_spec hh hb]
    simp only [Option.bind_eq_bind, Option.bind_some]
    rw [hd]
    exact hcarry
  · have hd : d.value ≡ s.value * r.value [MOD prime] := by
      have hsum : d.value + prime * wrapped s r = s.value * r.value := by
        have : d.value + (prime + 5) * wrapped s r = s.value * r.value + 5 * wrapped s r := by rw [prime_eq, hvalue]
        rw [Nat.add_mul] at this
        omega
      rw [← hsum]
      exact modEq_add_prime_mul _ _
    calc h'.value = d.value % 2 ^ 130 + 5 * (d.value / 2 ^ 130) := hfold
      _ ≡ d.value [MOD prime] := fold_modEq _
      _ ≡ s.value * r.value [MOD prime] := hd
      _ = (h.value + readLe (block ++ [1])) * r.value := by rw [hsvalue, hbvalue]
      _ ≡ (acc + readLe (block ++ [1])) * r.value [MOD prime] := (hacc.add_right _).mul_right _
  · -- a number below 5 was not folded, and the products of nonzero limbs are at least 5 or have the lowest one
    have hdsmall : d.value < 5 := by omega
    have hbig : 256 ≤ s.value := by
      have hlen : 1 ≤ block.length := List.length_pos_iff.mpr hne
      have hpow : 256 ^ 1 ≤ 256 ^ block.length := Nat.pow_le_pow_right (by decide) hlen
      have hone : readLe (block ++ [1]) = readLe block + 256 ^ block.length := by
        rw [readLe_append, show readLe [1] = 1 from rfl, Nat.mul_one]
      omega
    obtain ⟨r0, r1, r2, r3, r4⟩ := r
    obtain ⟨s0, s1, s2, s3, s4⟩ := s
    simp only [Limbs.value] at hbig ⊢
    dsimp only at hlow
    have hsum : 1 ≤ s0 + s1 + s2 + s3 + s4 := by omega
    have hhigh : r1 + r2 + r3 + r4 = 0 := by
      by_contra hpos
      have := Nat.mul_le_mul hsum (Nat.pos_of_ne_zero hpos)
      omega
    have hlowest : r0 = 0 := by
      by_contra hpos
      rcases Nat.eq_zero_or_pos (s1 + s2 + s3 + s4) with hzero | hrest
      · have hs0 : 256 ≤ s0 := by omega
        have := Nat.mul_le_mul hs0 (Nat.pos_of_ne_zero hpos)
        omega
      · have := Nat.mul_le_mul hrest (Nat.pos_of_ne_zero hpos)
        omega
    omega
  · rw [hzero, Nat.mul_zero] at hvalue
    omega

/-! ### A message -/

theorem blocks_spec {msg : Bytes} : ∀ block ∈ blocks n msg, block.length ≤ 16 ∧ block ≠ [] := by
  induction n generalizing msg with
  | zero => exact fun block hmem => absurd hmem List.not_mem_nil
  | succ n ih =>
      intro block hmem
      rw [blocks] at hmem
      split at hmem
      case isTrue => exact absurd hmem List.not_mem_nil
      case isFalse hne =>
        rcases List.mem_cons.mp hmem with rfl | hmem
        · refine ⟨List.length_take_le _ _, fun hnil => hne ?_⟩
          rcases List.take_eq_nil_iff.mp hnil with h | h
          · cases h
          · exact h
        · exact ih block hmem

/-- The turns over a list of blocks. -/
theorem foldlM_turn {acc : ℕ} {l : List Bytes} (hr : r.Reduced) (hh : h.Carried)
    (hl : ∀ block ∈ l, block.length ≤ 16 ∧ block ≠ []) (hacc : h.value ≡ acc [MOD prime]) :
    ∃ h', l.foldlM (turn r) h = some h' ∧ h'.Carried ∧
      h'.value ≡ l.foldl (fun acc block => (acc + readLe (block ++ [1])) * r.value) acc [MOD prime] ∧
      (h'.value < 5 → l = [] ∨ r.value = 0) ∧ (l = [] ∨ r.value = 0 → h.value = 0 → h'.value = 0) := by
  induction l generalizing h acc with
  | nil => exact ⟨h, rfl, hh, hacc, fun _ => .inl rfl, fun _ h0 => h0⟩
  | cons block l ih =>
      obtain ⟨hlen, hne⟩ := hl block List.mem_cons_self
      obtain ⟨h₁, hturn, hcarried, hvalue, h5, hzero⟩ := turn_spec hr hh hlen hne hacc
      obtain ⟨h', hrun, hcarried', hvalue', h5', hzero'⟩ :=
        ih hcarried (fun block hmem => hl block (List.mem_cons_of_mem _ hmem)) hvalue
      refine ⟨h', ?_, hcarried', hvalue', fun h => ?_, fun h _ => ?_⟩
      · rw [List.foldlM_cons, hturn]
        exact hrun
      · rcases h5' h with rfl | h0
        · exact .inr (h5 (by rwa [show h₁ = h' from Option.some.inj hrun]))
        · exact .inr h0
      · rcases h with hnil | h0
        · exact absurd hnil (List.cons_ne_nil _ _)
        · exact hzero' (.inr h0) (hzero h0)

/-! ### The last carries -/

theorem pass_spec (h0 : h.h0 < 2 ^ 26) (h1 : h.h1 < 2 ^ 27) (h2 : h.h2 < 2 ^ 26) (h3 : h.h3 < 2 ^ 26) (h4 : h.h4 < 2 ^ 26) :
    ∃ h', pass h = some h' ∧ h'.h0 < 2 ^ 26 ∧ h'.h1 < 2 ^ 27 ∧ h'.h2 < 2 ^ 26 ∧ h'.h3 < 2 ^ 26 ∧ h'.h4 < 2 ^ 26 ∧
      h'.value = h.value % 2 ^ 130 + 5 * (h.value / 2 ^ 130) ∧ (h.value < 2 ^ 130 → h'.Reduced) := by
  obtain ⟨x0, x1, x2, x3, x4⟩ := h
  dsimp only at *
  simp only [pass, and_mask, Nat.shiftRight_eq_div_pow, Option.bind_eq_bind]
  set c2 := x2 + x1 / 2 ^ 26 with hc2
  rw [word_eq (n := c2) (by omega), Option.bind_some]
  set c3 := x3 + c2 / 2 ^ 26 with hc3
  rw [word_eq (n := c3) (by omega), Option.bind_some]
  set c4 := x4 + c3 / 2 ^ 26 with hc4
  rw [word_eq (n := c4) (by omega), Option.bind_some]
  set c0 := x0 + c4 / 2 ^ 26 * 5 with hc0
  rw [word_eq (n := c0) (by omega), Option.bind_some]
  have hc1 : x1 % 2 ^ 26 + c0 / 2 ^ 26 < 2 ^ 27 := by omega
  rw [word_eq (by omega), Option.bind_some]
  have hdigits : x0 + 2 ^ 26 * x1 + 2 ^ 52 * x2 + 2 ^ 78 * x3 + 2 ^ 104 * x4 =
      (x0 + 2 ^ 26 * (x1 % 2 ^ 26) + 2 ^ 52 * (c2 % 2 ^ 26) + 2 ^ 78 * (c3 % 2 ^ 26) + 2 ^ 104 * (c4 % 2 ^ 26)) +
        2 ^ 130 * (c4 / 2 ^ 26) := by omega
  have hlow : x0 + 2 ^ 26 * (x1 % 2 ^ 26) + 2 ^ 52 * (c2 % 2 ^ 26) + 2 ^ 78 * (c3 % 2 ^ 26) + 2 ^ 104 * (c4 % 2 ^ 26) <
      2 ^ 130 := by omega
  refine ⟨_, rfl, Nat.mod_lt _ (by decide), hc1, Nat.mod_lt _ (by decide), Nat.mod_lt _ (by decide),
    Nat.mod_lt _ (by decide), ?_, fun hlt => ?_⟩
  · simp only [Limbs.value]
    rw [hdigits, Nat.add_mul_mod_self_left, Nat.mod_eq_of_lt hlow, Nat.add_mul_div_left _ _ (by decide),
      Nat.div_eq_of_lt hlow, Nat.zero_add]
    omega
  · simp only [Limbs.value] at hlt
    have hnone : c4 / 2 ^ 26 = 0 := by omega
    have hfirst : c0 / 2 ^ 26 = 0 := by omega
    refine ⟨Nat.mod_lt _ (by decide), ?_, Nat.mod_lt _ (by decide), Nat.mod_lt _ (by decide), Nat.mod_lt _ (by decide)⟩
    rw [hfirst]
    exact Nat.mod_lt _ (by decide)

/-- Both passes: the number is folded once, and not reduced by the prime. -/
theorem passes_spec (hh : h.Carried) :
    ∃ h', (do pass (← pass h)) = some h' ∧ h'.Reduced ∧ h'.value = h.value % 2 ^ 130 + 5 * (h.value / 2 ^ 130) := by
  obtain ⟨h0, h1, h2, h3, h4⟩ := hh
  obtain ⟨g, hpass, g0, g1, g2, g3, g4, hvalue, -⟩ := pass_spec h0 (by omega) h2 h3 h4
  have hlt : g.value < 2 ^ 130 := by
    have hbound : h.value < 2 ^ 130 + 2 ^ 39 := by
      simp only [Limbs.value]
      omega
    omega
  obtain ⟨h', hpass', -, -, -, -, -, hvalue', hreduced⟩ := pass_spec g0 g1 g2 g3 g4
  refine ⟨h', ?_, hreduced hlt, ?_⟩
  · rw [hpass]
    exact hpass'
  · rw [hvalue', Nat.mod_eq_of_lt hlt, Nat.div_eq_of_lt hlt, Nat.mul_zero, Nat.add_zero, hvalue]

theorem packed_eq (hh : h.Reduced) : packed h = (h.value % 2 ^ 64, h.value / 2 ^ 64 % 2 ^ 64) := by
  obtain ⟨h0, h1, h2, h3, h4⟩ := h
  obtain ⟨hh0, hh1, hh2, hh3, hh4⟩ := hh
  dsimp only at *
  have hor {x y k : ℕ} (hx : x < 2 ^ k) : x ||| y <<< k = x + y * 2 ^ k := by
    rw [Nat.or_comm, ← Nat.shiftLeft_add_eq_or_of_lt hx, Nat.shiftLeft_eq, Nat.add_comm]
  have hmid : h2 &&& 0xFFF = h2 % 2 ^ 12 := Nat.and_two_pow_sub_one_eq_mod h2 12
  have hlast : h4 &&& 0xFFFFFF = h4 % 2 ^ 24 := Nat.and_two_pow_sub_one_eq_mod h4 24
  have hlow : h0 ||| h1 <<< 26 = h0 + h1 * 2 ^ 26 := hor hh0
  have hhigh : h2 >>> 12 ||| h3 <<< 14 = h2 / 2 ^ 12 + h3 * 2 ^ 14 := by
    rw [Nat.shiftRight_eq_div_pow, hor (by omega)]
  simp only [packed, hmid, hlast, hlow, hhigh, Limbs.value]
  rw [hor (k := 52) (by omega), hor (k := 40) (by omega), Prod.mk.injEq]
  omega

theorem addKey_eq (v s : ℕ) :
    addKey (v % 2 ^ 64, v / 2 ^ 64 % 2 ^ 64) (s % 2 ^ 64) (s / 2 ^ 64) = writeLe 16 ((v + s) % 2 ^ 128) := by
  have hlow : (v % 2 ^ 64 + s % 2 ^ 64) % 2 ^ 64 = (v + s) % 2 ^ 128 % 2 ^ 64 := by omega
  have hhigh : (v / 2 ^ 64 % 2 ^ 64 + (s / 2 ^ 64 + if (v % 2 ^ 64 + s % 2 ^ 64) % 2 ^ 64 < s % 2 ^ 64 then 1 else 0)) % 2 ^ 64 =
      (v + s) % 2 ^ 128 / 2 ^ 64 := by
    split_ifs <;> omega
  rw [addKey]
  dsimp only
  rw [hhigh, hlow, writeLe_mod _ le_rfl, ← Nat.shiftRight_eq_div_pow, show 64 = 8 * 8 from rfl, writeLe_append]

/-! ### The tag -/

theorem blocks_eq_nil {msg : Bytes} : blocks msg.length msg = [] ↔ msg = [] := by
  cases msg with
  | nil => exact iff_of_true rfl rfl
  | cons b msg =>
      refine iff_of_false ?_ (List.cons_ne_nil b msg)
      rw [List.length_cons, blocks, if_neg (List.cons_ne_nil b msg)]
      exact List.cons_ne_nil _ _

/-- Every key and message has a tag, made of a number below `2 ^ 130` that may exceed the prime: it is zero for an empty
message and for `r = 0`, and at least 5 otherwise. -/
theorem poly1305Mac_eq (key msg : Bytes) (hkey : key.length = 32) :
    ∃ v, poly1305Mac key msg = some (writeLe 16 ((v + readLe ((key.drop 16).take 16)) % 2 ^ 128)) ∧
      v ≡ polynomial (clamped key) msg [MOD prime] ∧ v < 2 ^ 130 ∧ (v < 5 → msg = [] ∨ clamped key = 0) ∧
      (msg = [] ∨ clamped key = 0 → v = 0) := by
  have hclamp := value_clamp (show 16 ≤ key.length by omega)
  have hr := limbs_reduced (poly1305Clamp (key.take 16))
  have hstart : (⟨0, 0, 0, 0, 0⟩ : Limbs).Carried := by constructor <;> decide
  obtain ⟨h, hrun, hcarried, hvalue, hsmall, hzero⟩ :=
    foldlM_turn (l := blocks msg.length msg) hr hstart blocks_spec (Nat.ModEq.refl 0)
  obtain ⟨g, hpasses, hreduced, hfold⟩ := passes_spec hcarried
  rw [hclamp] at hvalue hsmall hzero
  rw [blocks_eq_nil] at hsmall hzero
  have hbound : g.value < 2 ^ 130 := by
    obtain ⟨g0, g1, g2, g3, g4⟩ := hreduced
    simp only [Limbs.value]
    omega
  -- the two words of the second half of the key
  have hlo : readLe ((key.drop 16).take 8) = readLe ((key.drop 16).take 16) % 2 ^ 64 := by
    rw [readLe_drop_take, readLe_drop_take]
    omega
  have hhi : readLe ((key.drop 24).take 8) = readLe ((key.drop 16).take 16) / 2 ^ 64 := by
    rw [readLe_drop_take, readLe_drop_take]
    omega
  refine ⟨g.value, ?_, ?_, hbound, fun h5 => hsmall (by omega), fun h0 => ?_⟩
  · rw [poly1305Mac]
    simp only [hrun, Option.bind_eq_bind, Option.bind_some]
    rw [← Option.bind_assoc, show (pass h).bind pass = some g from hpasses, Option.bind_some, packed_eq hreduced, hlo, hhi,
      addKey_eq]
  · rw [hfold]
    exact (fold_modEq _).trans hvalue
  · rw [hfold, hzero h0 rfl, Nat.zero_mod, Nat.zero_div]

/-- A tag is the one of Poly1305 unless the polynomial of a message that is not empty, at an `r` that is not zero, leaves
at most 4 modulo the prime. No intermediate sum or product leaves 64 bits. -/
theorem poly1305Mac_iff (key msg : Bytes) (hkey : key.length = 32) :
    (poly1305Mac key msg).isSome ∧
      (poly1305Mac key msg = some (tag key msg) ↔
        msg = [] ∨ clamped key = 0 ∨ 5 ≤ polynomial (clamped key) msg % prime) := by
  obtain ⟨v, hmac, hmod, hlt, hsmall, hzero⟩ := poly1305Mac_eq key msg hkey
  have hp : prime = 0x3fffffffffffffffffffffffffffffffb := rfl
  rw [hmac]
  refine ⟨rfl, ?_⟩
  rw [Option.some.injEq, tag]
  set s := readLe ((key.drop 16).take 16)
  set a := polynomial (clamped key) msg % prime with ha
  have hva : v % 0x3fffffffffffffffffffffffffffffffb = a := hmod
  constructor
  · intro heq
    by_contra hnot
    rw [not_or, not_or] at hnot
    obtain ⟨hmsg, hr, ha5⟩ := hnot
    have hv5 : 5 ≤ v := by
      by_contra hv5
      rcases hsmall (by omega) with h0 | h0
      · exact hmsg h0
      · exact hr h0
    -- the number is the prime above what it should be
    have hv : v = prime + a := by omega
    have hread := congrArg readLe heq
    rw [readLe_writeLe, readLe_writeLe, hv] at hread
    omega
  · intro h
    have hv : v = a := by
      rcases or_assoc.mpr h with h0 | h5
      · rw [hzero h0] at hva
        exact (hzero h0).trans hva
      · omega
    rw [hv]

/-- A key with `r = 2`. -/
def keyOfTwo : Bytes := 2 :: List.replicate 31 0

theorem poly1305Mac_zeros : poly1305Mac keyOfTwo (List.replicate 16 0) = some (tag keyOfTwo (List.replicate 16 0)) :=
  ((poly1305Mac_iff keyOfTwo (List.replicate 16 0) rfl).2).mpr (.inr (.inr (by decide)))

/-- The number of a block of ones is `2 ^ 129 - 1`, twice that is 3 modulo the prime, and the tag is that of
`2 ^ 130 - 2`. -/
theorem poly1305Mac_ones : poly1305Mac keyOfTwo (List.replicate 16 255) ≠ some (tag keyOfTwo (List.replicate 16 255)) ∧
    poly1305Mac keyOfTwo (List.replicate 16 255) = some (254 :: List.replicate 15 255) ∧
    tag keyOfTwo (List.replicate 16 255) = 3 :: List.replicate 15 0 := by
  decide

end NeForce.Poly1305
