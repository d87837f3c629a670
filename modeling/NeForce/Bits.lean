import NeForce.BigEndian
import Mathlib.Data.Nat.Bitwise
import Mathlib.Data.List.Infix

/-! # Bit strings

`toBits n v` are the low `n` bits of `v`, most significant bit first.  A bit buffer holds a bit
string as a number and a length: appending a code shifts the number, and the first bits are read by
shifting it back. -/

namespace NeForce

def toBits : ℕ → ℕ → List Bool
  | 0, _ => []
  | n + 1, v => v.testBit n :: toBits n v

/-- The bits of a byte string. -/
def bytesBits (l : Bytes) : List Bool := l.flatMap fun b => toBits 8 b.toNat

variable {m n k v w : ℕ}

@[simp] theorem length_toBits (n v : ℕ) : (toBits n v).length = n := by
  induction n with
  | zero => rfl
  | succ n ih => rw [toBits, List.length_cons, ih]

theorem toBits_congr (h : ∀ i < n, v.testBit i = w.testBit i) : toBits n v = toBits n w := by
  induction n with
  | zero => rfl
  | succ n ih => rw [toBits, toBits, h n (by omega), ih fun i hi => h i (by omega)]

theorem toBits_inj (h : toBits n v = toBits n w) : ∀ i < n, v.testBit i = w.testBit i := by
  induction n with
  | zero => intro i hi; omega
  | succ n ih =>
      rw [toBits, toBits, List.cons.injEq] at h
      intro i hi
      rcases Nat.lt_or_ge i n with hlt | hge
      · exact ih h.2 i hlt
      · rw [show i = n by omega]
        exact h.1

theorem eq_of_toBits (hv : v < 2 ^ n) (hw : w < 2 ^ n) (h : toBits n v = toBits n w) : v = w := by
  refine Nat.eq_of_testBit_eq fun i => ?_
  rcases Nat.lt_or_ge i n with hlt | hge
  · exact toBits_inj h i hlt
  · have hp : 2 ^ n ≤ 2 ^ i := Nat.pow_le_pow_right (by omega) hge
    rw [Nat.testBit_lt_two_pow (by omega), Nat.testBit_lt_two_pow (by omega)]

@[simp] theorem toBits_mod (h : n ≤ k) : toBits n (v % 2 ^ k) = toBits n v :=
  toBits_congr fun i hi => by
    rw [Nat.testBit_mod_two_pow]
    simp
    omega

/-- The bits above the low `n`, and these. -/
theorem toBits_add (m n v : ℕ) : toBits (m + n) v = toBits m (v >>> n) ++ toBits n v := by
  induction m with
  | zero => simp [toBits]
  | succ m ih => rw [show m + 1 + n = m + n + 1 by omega, toBits, ih, toBits, Nat.testBit_shiftRight, Nat.add_comm n m,
      List.cons_append]

/-- Appending the code `w` of `n` bits to the buffer `v`. -/
theorem toBits_push (hw : w < 2 ^ n) : toBits (m + n) (v <<< n ||| w) = toBits m v ++ toBits n w := by
  rw [toBits_add]
  congr 1
  · refine toBits_congr fun i _ => ?_
    have h : 2 ^ n ≤ 2 ^ (n + i) := Nat.pow_le_pow_right (by omega) (by omega)
    rw [Nat.testBit_shiftRight, Nat.testBit_or, Nat.testBit_lt_two_pow (by omega : w < 2 ^ (n + i)), Nat.testBit_shiftLeft]
    simp
  · refine toBits_congr fun i hi => ?_
    rw [Nat.testBit_or, Nat.testBit_shiftLeft]
    simp
    omega

/-- The first `n` of the `k` bits of a buffer. -/
theorem toBits_take (h : n ≤ k) : (toBits k v).take n = toBits n (v >>> (k - n)) := by
  obtain ⟨j, rfl⟩ : ∃ j, k = n + j := ⟨k - n, by omega⟩
  rw [toBits_add, List.take_append_of_le_length (by simp), List.take_of_length_le (by simp),
    Nat.add_sub_cancel_left]

theorem toBits_drop (h : n ≤ k) : (toBits k v).drop n = toBits (k - n) v := by
  obtain ⟨j, rfl⟩ : ∃ j, k = n + j := ⟨k - n, by omega⟩
  rw [toBits_add, List.drop_append_of_le_length (by simp), List.drop_of_length_le (by simp), Nat.add_sub_cancel_left,
    List.nil_append]

/-- The first `n` bits of a buffer are those of `w` if they read as `w`. -/
theorem peek_eq_iff (h : n ≤ k) (hw : w < 2 ^ n) : (v >>> (k - n)) % 2 ^ n = w ↔ toBits n w <+: toBits k v := by
  rw [List.prefix_iff_eq_take, length_toBits, toBits_take h]
  constructor
  · rintro rfl
    rw [toBits_mod le_rfl]
  · intro e
    refine (eq_of_toBits (n := n) hw (Nat.mod_lt _ (Nat.two_pow_pos n)) ?_).symm
    rw [toBits_mod le_rfl, e]

/-- All bits of `2 ^ n - 1` are set. -/
theorem toBits_ones (n : ℕ) : toBits n (2 ^ n - 1) = List.replicate n true := by
  have h : ∀ k ≤ n, toBits k (2 ^ n - 1) = List.replicate k true := by
    intro k hk
    induction k with
    | zero => rfl
    | succ k ih =>
        rw [toBits, ih (by omega), Nat.testBit_two_pow_sub_one, List.replicate_succ]
        simp
        omega
  exact h n le_rfl

@[simp] theorem bytesBits_nil : bytesBits [] = [] := rfl

@[simp] theorem bytesBits_cons (b : UInt8) (l : Bytes) : bytesBits (b :: l) = toBits 8 b.toNat ++ bytesBits l := rfl

@[simp] theorem bytesBits_append (l l' : Bytes) : bytesBits (l ++ l') = bytesBits l ++ bytesBits l' :=
  List.flatMap_append

theorem length_bytesBits (l : Bytes) : (bytesBits l).length = 8 * l.length := by
  induction l with
  | nil => rfl
  | cons b l ih =>
      rw [bytesBits_cons, List.length_append, length_toBits, ih, List.length_cons]
      omega

/-- A byte string is its bits. -/
theorem bytesBits_inj {l l' : Bytes} (h : bytesBits l = bytesBits l') : l = l' := by
  induction l generalizing l' with
  | nil =>
      have := congrArg List.length h
      rw [bytesBits_nil, length_bytesBits, List.length_nil] at this
      exact (List.eq_nil_of_length_eq_zero (by omega)).symm
  | cons b l ih =>
      cases l' with
      | nil =>
          have := congrArg List.length h
          rw [length_bytesBits, bytesBits_nil, List.length_cons, List.length_nil] at this
          omega
      | cons b' l' =>
          rw [bytesBits_cons, bytesBits_cons] at h
          obtain ⟨h1, h2⟩ := List.append_inj h (by rw [length_toBits, length_toBits])
          rw [ih h2, UInt8.toNat_inj.mp (eq_of_toBits b.toNat_lt b'.toNat_lt h1)]

theorem toBits_ofNat (v : ℕ) : toBits 8 (UInt8.ofNat v).toNat = toBits 8 v := by
  rw [UInt8.toNat_ofNat', toBits_mod le_rfl]

end NeForce
