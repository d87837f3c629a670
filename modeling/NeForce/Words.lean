import Mathlib.Data.List.Basic
import Mathlib.Data.Nat.Bitwise
import NeForce.BigEndian

/-! # Bytes compared in a word

`readLe` reads bytes as a number, least significant byte first.  `lessMask n c v` is the well-known test of all `n`
bytes of `v` against `c` at once: its lowest bit is the highest bit of the first byte below `c`.  Later bits may be set
by the borrow of the subtraction. -/

namespace NeForce

def readLe : Bytes → ℕ
  | [] => 0
  | b :: l => b.toNat + 256 * readLe l

/-- The low `n` bytes of a number, the lowest one first. -/
def writeLe : ℕ → ℕ → Bytes
  | 0, _ => []
  | n + 1, v => UInt8.ofNat v :: writeLe n (v >>> 8)

/-- A word whose `n` bytes all are `c`. -/
def repeatByte : ℕ → ℕ → ℕ
  | 0, _ => 0
  | n + 1, c => c + 256 * repeatByte n c

def lessMask (n c v : ℕ) : ℕ :=
  (v + (256 ^ n - repeatByte n c)) % 256 ^ n &&& (256 ^ n - 1 - v) &&& repeatByte n 128

/-- The number of zero bits below the lowest one of a word of 64 bits. -/
def countrZero (m : ℕ) : ℕ := ((List.range 64).takeWhile fun j => !m.testBit j).length

variable {l : Bytes} {b : UInt8} {c d n k j v w m : ℕ}

/-! ### Words made of bytes -/

theorem readLe_lt (l : Bytes) : readLe l < 256 ^ l.length := by
  induction l with
  | nil => simp [readLe]
  | cons b l ih =>
      have := b.toNat_lt
      rw [readLe, List.length_cons, Nat.pow_succ]
      omega

theorem readLe_append (l l' : Bytes) : readLe (l ++ l') = readLe l + 256 ^ l.length * readLe l' := by
  induction l with
  | nil => rw [List.nil_append, readLe, List.length_nil, Nat.pow_zero, Nat.one_mul, Nat.zero_add]
  | cons b l ih =>
      rw [List.cons_append, readLe, readLe, ih, List.length_cons, Nat.pow_succ]
      ring

/-- The `n` bytes from the `i`th one on. -/
theorem readLe_drop_take (l : Bytes) (i n : ℕ) : readLe ((l.drop i).take n) = readLe l / 256 ^ i % 256 ^ n := by
  have htake (l : Bytes) : readLe (l.take n) = readLe l % 256 ^ n := by
    rcases Nat.lt_or_ge l.length n with hlt | hge
    · have hpow : 256 ^ l.length ≤ 256 ^ n := Nat.pow_le_pow_right (by decide) hlt.le
      rw [List.take_of_length_le hlt.le, Nat.mod_eq_of_lt ((readLe_lt l).trans_le hpow)]
    · have hlt := readLe_lt (l.take n)
      rw [List.length_take, Nat.min_eq_left hge] at hlt
      conv_rhs => rw [← List.take_append_drop n l, readLe_append, List.length_take, Nat.min_eq_left hge]
      rw [Nat.add_mul_mod_self_left, Nat.mod_eq_of_lt hlt]
  have hdrop : readLe (l.drop i) = readLe l / 256 ^ i := by
    rcases Nat.lt_or_ge l.length i with hlt | hge
    · have hpow : 256 ^ l.length ≤ 256 ^ i := Nat.pow_le_pow_right (by decide) hlt.le
      rw [List.drop_of_length_le hlt.le, Nat.div_eq_of_lt ((readLe_lt l).trans_le hpow), readLe]
    · have hlt := readLe_lt (l.take i)
      rw [List.length_take, Nat.min_eq_left hge] at hlt
      conv_rhs => rw [← List.take_append_drop i l, readLe_append, List.length_take, Nat.min_eq_left hge]
      rw [Nat.add_mul_div_left _ _ (Nat.pow_pos (by decide)), Nat.div_eq_of_lt hlt, Nat.zero_add]
  rw [htake, hdrop]

theorem length_writeLe (n v : ℕ) : (writeLe n v).length = n := by
  induction n generalizing v with
  | zero => rfl
  | succ n ih => rw [writeLe, List.length_cons, ih]

theorem readLe_writeLe (n v : ℕ) : readLe (writeLe n v) = v % 256 ^ n := by
  induction n generalizing v with
  | zero => rw [writeLe, readLe, Nat.pow_zero, Nat.mod_one]
  | succ n ih =>
      rw [writeLe, readLe, ih, UInt8.toNat_ofNat', Nat.shiftRight_eq_div_pow, show 256 ^ (n + 1) = 256 * 256 ^ n from Nat.pow_succ',
        Nat.mod_mul]

theorem writeLe_append (n m v : ℕ) : writeLe n v ++ writeLe m (v >>> (8 * n)) = writeLe (n + m) v := by
  induction n generalizing v with
  | zero => rw [writeLe, List.nil_append, Nat.mul_zero, Nat.shiftRight_zero, Nat.zero_add]
  | succ n ih =>
      rw [writeLe, List.cons_append, Nat.succ_add, writeLe, ← ih (v >>> 8), ← Nat.shiftRight_add,
        show 8 + 8 * n = 8 * (n + 1) by omega]

/-- Only the bits below the bytes that are written matter. -/
theorem writeLe_mod {n k : ℕ} (v : ℕ) (h : 8 * n ≤ k) : writeLe n (v % 2 ^ k) = writeLe n v := by
  induction n generalizing v k with
  | zero => rfl
  | succ n ih =>
      obtain ⟨j, rfl⟩ : ∃ j, k = 8 + j := ⟨k - 8, by omega⟩
      have hbyte : UInt8.ofNat (v % 2 ^ (8 + j)) = UInt8.ofNat v := by
        refine UInt8.toNat_inj.mp ?_
        rw [UInt8.toNat_ofNat', UInt8.toNat_ofNat', Nat.mod_mod_of_dvd _ (Nat.pow_dvd_pow 2 (Nat.le_add_right 8 j))]
      have hrest : (v % 2 ^ (8 + j)) >>> 8 = (v >>> 8) % 2 ^ j := by
        rw [Nat.shiftRight_eq_div_pow, Nat.shiftRight_eq_div_pow, Nat.pow_add, Nat.mod_mul_right_div_self]
      rw [writeLe, writeLe, hbyte, hrest, ih (v >>> 8) (by omega)]

theorem repeatByte_lt (hc : c < 256) : repeatByte n c < 256 ^ n := by
  induction n with
  | zero => simp [repeatByte]
  | succ n ih =>
      rw [repeatByte, Nat.pow_succ]
      omega

theorem testBit_byte_add (hv : v < 256) : (v + 256 * w).testBit j = if j < 8 then v.testBit j else w.testBit (j - 8) := by
  rw [Nat.add_comm]
  exact Nat.testBit_two_pow_mul_add w (i := 8) hv j

theorem land_byte_add (hd : d < 256) (hc : c < 256) :
    (d + 256 * v) &&& (c + 256 * w) = (d &&& c) + 256 * (v &&& w) := by
  have hand : d &&& c < 256 := Nat.and_lt_two_pow d (n := 8) hc
  apply Nat.eq_of_testBit_eq
  intro j
  rw [Nat.testBit_and, testBit_byte_add hd, testBit_byte_add hc, testBit_byte_add hand]
  split <;> rw [Nat.testBit_and]

theorem xor_byte_add (hd : d < 256) (hc : c < 256) :
    (d + 256 * v) ^^^ (c + 256 * w) = (d ^^^ c) + 256 * (v ^^^ w) := by
  have hxor : d ^^^ c < 256 := Nat.xor_lt_two_pow (n := 8) hd hc
  apply Nat.eq_of_testBit_eq
  intro j
  rw [Nat.testBit_xor, testBit_byte_add hd, testBit_byte_add hc, testBit_byte_add hxor]
  split <;> rw [Nat.testBit_xor]

theorem readLe_zipWith_and {l l' : Bytes} (h : l.length = l'.length) :
    readLe (List.zipWith (· &&& ·) l l') = readLe l &&& readLe l' := by
  induction l generalizing l' with
  | nil =>
      obtain rfl : l' = [] := List.length_eq_zero_iff.mp h.symm
      rfl
  | cons b l ih =>
      cases l' with
      | nil => cases h
      | cons b' l' =>
          rw [List.zipWith_cons_cons, readLe, readLe, readLe, land_byte_add b.toNat_lt b'.toNat_lt,
            ← ih (Nat.succ.inj h), UInt8.toNat_and]

theorem readLe_map_and (l : Bytes) (d : UInt8) :
    readLe (l.map (· &&& d)) = readLe l &&& repeatByte l.length d.toNat := by
  induction l with
  | nil => simp [readLe]
  | cons b l ih =>
      rw [List.map_cons, readLe, readLe, List.length_cons, repeatByte, land_byte_add b.toNat_lt d.toNat_lt, ← ih,
        UInt8.toNat_and]

theorem readLe_map_xor (l : Bytes) (d : UInt8) :
    readLe (l.map (· ^^^ d)) = readLe l ^^^ repeatByte l.length d.toNat := by
  induction l with
  | nil => simp [readLe, repeatByte]
  | cons b l ih =>
      rw [List.map_cons, readLe, readLe, List.length_cons, repeatByte, xor_byte_add b.toNat_lt d.toNat_lt, ← ih,
        UInt8.toNat_xor]

/-! ### The test -/

theorem land_128 (hv : v < 256) (hw : w < 256) : v &&& w &&& 128 = if 128 ≤ v ∧ 128 ≤ w then 128 else 0 := by
  have htop {x : ℕ} (hx : x < 256) : x.testBit 7 = decide (128 ≤ x) := by
    rw [Nat.testBit_eq_decide_div_mod_eq, decide_eq_decide]
    omega
  have hand := Nat.and_two_pow (v &&& w) 7
  rw [Nat.testBit_and, htop hv, htop hw, ← Bool.decide_and] at hand
  refine hand.trans ?_
  split_ifs with h <;> simp [h]

theorem add_mul_mod (hv : v < 256) : (v + 256 * w) % (256 * m) = v + 256 * (w % m) := by
  rw [Nat.mod_mul, Nat.add_mul_mod_self_left, Nat.mod_eq_of_lt hv, Nat.add_mul_div_left _ _ (by omega),
    Nat.div_eq_of_lt hv, Nat.zero_add]

/-- The lowest byte of the test; it borrows from the others only if it is below `c`. -/
theorem lessMask_byte (hc : 0 < c) (hc' : c ≤ 128) (hv : v < 256) (hw : w < 256 ^ n) :
    ∃ q, lessMask (n + 1) c (v + 256 * w) = (if v < c then 128 else 0) + 256 * q ∧ (c ≤ v → q = lessMask n c w) := by
  have hones : repeatByte n c < 256 ^ n := repeatByte_lt (by omega)
  have hnot : 256 * 256 ^ n - 1 - (v + 256 * w) = (255 - v) + 256 * (256 ^ n - 1 - w) := by omega
  have hmask (p q : ℕ) (hp : p < 256) :
      (p + 256 * q) % (256 * 256 ^ n) &&& ((255 - v) + 256 * (256 ^ n - 1 - w)) &&& (128 + 256 * repeatByte n 128) =
        (if 128 ≤ p ∧ 128 ≤ 255 - v then 128 else 0) + 256 * (q % 256 ^ n &&& (256 ^ n - 1 - w) &&& repeatByte n 128) := by
    have hand : p &&& (255 - v) < 256 := Nat.and_lt_two_pow p (n := 8) (by omega)
    rw [add_mul_mod hp, land_byte_add hp (by omega), land_byte_add hand (by omega), land_128 hp (by omega)]
  unfold lessMask
  rw [repeatByte, repeatByte, Nat.pow_succ, Nat.mul_comm (256 ^ n) 256, hnot]
  by_cases hless : v < c
  · have hborrow : v + 256 * w + (256 * 256 ^ n - (c + 256 * repeatByte n c)) =
        (v + 256 - c) + 256 * (w + (256 ^ n - repeatByte n c) - 1) := by omega
    rw [hborrow, hmask _ _ (by omega), if_pos hless, if_pos (by omega)]
    exact ⟨_, rfl, fun h => absurd hless (Nat.not_lt.mpr h)⟩
  · have hkeep : v + 256 * w + (256 * 256 ^ n - (c + 256 * repeatByte n c)) =
        (v - c) + 256 * (w + (256 ^ n - repeatByte n c)) := by omega
    rw [hkeep, hmask _ _ (by omega), if_neg hless, if_neg (by omega)]
    exact ⟨_, rfl, fun _ => rfl⟩

/-- No bit is set before the first byte that is below `c`. -/
theorem testBit_lessMask_before (hc : 0 < c) (hc' : c ≤ 128) (hk : ∀ b ∈ l.take k, c ≤ b.toNat) (hj : j < 8 * k + 7) :
    (lessMask l.length c (readLe l)).testBit j = false := by
  induction l generalizing k j with
  | nil => simp [lessMask, repeatByte]
  | cons b l ih =>
      obtain ⟨q, hq, hqeq⟩ := lessMask_byte (n := l.length) hc hc' b.toNat_lt (readLe_lt l)
      rw [List.length_cons, readLe, hq, testBit_byte_add (by split <;> omega)]
      cases k with
      | zero =>
          rw [if_pos (by omega)]
          split
          · rw [show 128 = 2 ^ 7 from rfl, Nat.testBit_two_pow_of_ne (by omega)]
          · rw [Nat.zero_testBit]
      | succ k =>
          have hb : c ≤ b.toNat := hk b (by simp)
          rw [if_neg (Nat.not_lt.mpr hb), hqeq hb]
          split
          · rw [Nat.zero_testBit]
          · exact ih (k := k) (fun d hd => hk d (by simp [hd])) (by omega)

/-- The first byte below `c` has its highest bit set. -/
theorem testBit_lessMask (hc : 0 < c) (hc' : c ≤ 128) (hk : ∀ b ∈ l.take k, c ≤ b.toNat) (hb : l[k]? = some b)
    (hless : b.toNat < c) : (lessMask l.length c (readLe l)).testBit (8 * k + 7) = true := by
  induction l generalizing k with
  | nil => cases hb
  | cons d l ih =>
      obtain ⟨q, hq, hqeq⟩ := lessMask_byte (n := l.length) hc hc' d.toNat_lt (readLe_lt l)
      rw [List.length_cons, readLe, hq, testBit_byte_add (by split <;> omega)]
      cases k with
      | zero =>
          obtain rfl : d = b := by simpa using hb
          rw [if_pos (by omega), if_pos hless]
          rfl
      | succ k =>
          have hd : c ≤ d.toNat := hk d (by simp)
          rw [if_neg (by omega), hqeq hd, show 8 * (k + 1) + 7 - 8 = 8 * k + 7 by omega]
          exact ih (fun d hd => hk d (by simp [hd])) (by simpa using hb)

/-- The first byte with a property. -/
theorem exists_first {p : UInt8 → Bool} (h : ∃ b ∈ l, p b = true) :
    ∃ k b, (∀ d ∈ l.take k, p d = false) ∧ l[k]? = some b ∧ p b = true := by
  induction l with
  | nil =>
      obtain ⟨b, hb, _⟩ := h
      cases hb
  | cons d l ih =>
      cases hd : p d with
      | true => exact ⟨0, d, by simp, rfl, hd⟩
      | false =>
          obtain ⟨b, hb, hp⟩ := h
          have hl : b ∈ l := by
            rcases List.mem_cons.mp hb with rfl | hl
            · rw [hd] at hp
              cases hp
            · exact hl
          obtain ⟨k, b', hk, hb', hp'⟩ := ih ⟨b, hl, hp⟩
          exact ⟨k + 1, b', by simpa [hd] using hk, by simpa using hb', hp'⟩

/-- The test finds no byte below `c` only if there is none. -/
theorem lessMask_eq_zero_iff (hc : 0 < c) (hc' : c ≤ 128) :
    lessMask l.length c (readLe l) = 0 ↔ ∀ b ∈ l, c ≤ b.toNat := by
  constructor
  · intro hzero
    by_contra hnot
    obtain ⟨k, b, hk, hb, hless⟩ := exists_first (p := fun b => b.toNat < c) (by simpa using hnot)
    have hbit := testBit_lessMask hc hc' (fun d hd => by simpa using hk d hd) hb (by simpa using hless)
    rw [hzero, Nat.zero_testBit] at hbit
    cases hbit
  · intro hall
    refine Nat.eq_of_testBit_eq fun j => ?_
    rw [Nat.zero_testBit]
    exact testBit_lessMask_before (k := j + 1) hc hc' (fun b hb => hall b (List.mem_of_mem_take hb)) (by omega)

theorem countrZero_eq (hk : k < 64) (hbit : m.testBit k = true) (hlow : ∀ j < k, m.testBit j = false) : countrZero m = k := by
  have hsplit : List.range 64 = List.range k ++ (List.range (64 - k)).map (k + ·) := by
    rw [← List.range_add, Nat.add_sub_cancel' hk.le]
  have hfirst : (List.range (64 - k)).map (k + ·) = k :: (List.range (63 - k)).map (k + 1 + ·) := by
    rw [show 64 - k = (63 - k) + 1 by omega, List.range_succ_eq_map, List.map_cons, List.map_map]
    exact congrArg _ (List.map_congr_left fun x _ => by simp; omega)
  unfold countrZero
  rw [hsplit, hfirst, List.takeWhile_append_of_pos (fun j hj => by simp [hlow j (List.mem_range.mp hj)]),
    List.takeWhile_cons_of_neg (by simp [hbit]), List.append_nil, List.length_range]

end NeForce
