import Mathlib.Data.List.Basic
import Mathlib.Data.Nat.Bitwise
import Mathlib.Tactic.Ring

/-! # Byte strings and big-endian numbers

`readBe` reads a byte string as a number, most significant byte first, and `writeBe n v` writes the
low `n` bytes of `v`. -/

namespace NeForce

abbrev Bytes := List UInt8

def ascii (s : String) : Bytes := s.toList.map fun c => UInt8.ofNat c.toNat

/-- The bytes of a text by its characters, without their encoding in the text. -/
theorem ascii_eq {s : String} {l : List Char} (h : s = .ofList l) : ascii s = l.map fun c => UInt8.ofNat c.toNat := by
  rw [h, ascii, String.toList_ofList]

def readBe (l : Bytes) : ℕ := l.foldl (fun n b => n <<< 8 ||| b.toNat) 0

def writeBe : ℕ → ℕ → Bytes
  | 0, _ => []
  | n + 1, v => UInt8.ofNat (v >>> (8 * n)) :: writeBe n v

theorem shift_or_byte (n : ℕ) (b : UInt8) : n <<< 8 ||| b.toNat = n * 256 + b.toNat := by
  have hb : b.toNat < 2 ^ 8 := b.toNat_lt
  rw [Nat.shiftLeft_eq, Nat.mul_comm, ← Nat.two_pow_add_eq_or_of_lt hb]

@[simp] theorem length_writeBe (n v : ℕ) : (writeBe n v).length = n := by
  induction n with
  | zero => rfl
  | succ n ih => exact congrArg (· + 1) ih

theorem foldl_writeBe (a n v : ℕ) :
    (writeBe n v).foldl (fun n b => n <<< 8 ||| b.toNat) a = a * 256 ^ n + v % 256 ^ n := by
  induction n generalizing a with
  | zero => simp [writeBe, Nat.mod_one]
  | succ n ih =>
      have hb : (UInt8.ofNat (v >>> (8 * n))).toNat = v / 256 ^ n % 256 := by
        rw [UInt8.toNat_ofNat', Nat.shiftRight_eq_div_pow, Nat.pow_mul]
      have hm : v % 256 ^ (n + 1) = v % 256 ^ n + 256 ^ n * (v / 256 ^ n % 256) := by
        rw [Nat.pow_succ, Nat.mod_mul]
      rw [writeBe, List.foldl_cons, ih, shift_or_byte, hb, hm, Nat.pow_succ]
      ring

/-- Reading what was written gives the low bytes. -/
theorem readBe_writeBe (n v : ℕ) : readBe (writeBe n v) = v % 256 ^ n := by
  rw [readBe, foldl_writeBe, Nat.zero_mul, Nat.zero_add]

end NeForce
