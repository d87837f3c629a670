import NeForce.BitRows
import NeForce.Outcomes

/-! # The bit array `bitmap`

A bitmap has a block of 32-bit words, which is missing (a null pointer) when no word was asked for, and an iterator to
its end, whose distance from the start is a signed number of bits.  Iterators are moved by `difference_type`, a signed
64-bit number, so a size or an index from `2 ^ 63` on moves them backwards.  An access outside the words is
`outOfBounds`, which stands for undefined behaviour; a write through a null pointer has no effect, as `bit_reference`
has it.

`Sized m` says that a bitmap has exactly the words for `m` bits.  The reads, writes and copies of such a bitmap stay
inside it and do what they do to the row of its bits. -/

namespace NeForce

/-- What can go wrong. -/
inductive Failure
  | outOfBounds
  | allocateException
  | valueException (what : String)
  deriving DecidableEq, Repr

structure Bitmap where
  /-- The words of `storage_`, none for a null pointer. -/
  words : List (BitVec 32)
  /-- The distance from `start_` to `finish_`. -/
  finish : ℤ
  deriving DecidableEq, Repr

namespace Bitmap

variable {b : Bitmap} {m : ℕ} {i j : ℕ} {v : Bool} {alloc : UInt64 → Bool}

open BitRow

/-- `static_cast<difference_type>` -/
def difference (n : UInt64) : ℤ := n.toBitVec.toInt

def wordCount (word : UInt64) : UInt64 := (word + 32 - 1) / 32

/-- A block of zeroed words; `alloc` tells which numbers of words the allocator has a block for. -/
def allocate (alloc : UInt64 → Bool) (word : UInt64) : Except Failure (List (BitVec 32)) :=
  if word = 0 then .ok []
  else if alloc word then .ok (List.replicate word.toNat 0#32)
  else .error .allocateException

/-- `bitmap(word, false)` -/
def new (alloc : UInt64 → Bool) (word : UInt64) : Except Failure Bitmap :=
  if word = 0 then .ok ⟨[], 0⟩
  else do
    let words ← allocate alloc (wordCount word)
    .ok ⟨words, difference word⟩

/-- The bit at a distance from the start, through an iterator to constant bits. -/
def readAt (b : Bitmap) (off : ℤ) : Except Failure Bool :=
  if off < 0 then .error .outOfBounds
  else match b.words[off.toNat / 32]? with
    | some x => .ok (x &&& 1#32 <<< (off.toNat % 32) != 0#32)
    | none => .error .outOfBounds

/-- Assignment through the `bit_reference` at a distance from the start. -/
def writeAt (b : Bitmap) (off : ℤ) (value : Bool) : Except Failure Bitmap :=
  if off < 0 then .error .outOfBounds
  else if b.words = [] ∧ off.toNat / 32 = 0 then .ok b
  else match b.words[off.toNat / 32]? with
    | some x => .ok { b with words := b.words.set (off.toNat / 32) (writeBit x (off.toNat % 32) value) }
    | none => .error .outOfBounds

/-- `operator[]` of a constant bitmap. -/
def get (b : Bitmap) (n : UInt64) : Except Failure Bool := b.readAt (difference n)

/-- `operator[]` and the assignment of a `bool`. -/
def put (b : Bitmap) (n : UInt64) (value : Bool) : Except Failure Bitmap := b.writeAt (difference n) value

/-- The loop of `fill` from `first` to `last`.  With `fuel` used up `first` is behind all words. -/
def fillLoop (value : Bool) (last : ℤ) : ℕ → ℤ → Bitmap → Except Failure Bitmap
  | 0, first, b => if first = last then .ok b else .error .outOfBounds
  | fuel + 1, first, b =>
      if first = last then .ok b
      else do
        let b' ← b.writeAt first value
        fillLoop value last fuel (first + 1) b'

/-- `fill(begin(), end(), value)` -/
def fill (b : Bitmap) (value : Bool) : Except Failure Bitmap :=
  fillLoop value b.finish (32 * b.words.length + 32) 0 b

/-- The copy constructor, which copies bit by bit. -/
def copy (alloc : UInt64 → Bool) (other : Bitmap) : Except Failure Bitmap :=
  if other.finish = 0 then .ok ⟨[], 0⟩
  else do
    let words ← allocate alloc (wordCount (UInt64.ofInt other.finish))
    forLoop other.finish.toNat (fun i (tmp : Bitmap) => do
      let value ← other.readAt i
      tmp.writeAt i value) ⟨words, other.finish.toNat⟩

/-! ### Bitmaps that have the words for their bits -/

structure Sized (m : ℕ) (b : Bitmap) : Prop where
  words : b.words.length = (m + 31) / 32
  finish : b.finish = m

/-- Bit `i` of a bitmap. -/
def bit (b : Bitmap) (i : ℕ) : Bool := bitAt b.words i

theorem difference_of_lt {n : UInt64} (h : n.toNat < 2 ^ 63) : difference n = n.toNat := by
  unfold difference
  rw [BitVec.toInt_eq_toNat_of_lt (by rw [UInt64.toNat_toBitVec]; omega), UInt64.toNat_toBitVec]

theorem difference_neg {n : UInt64} (h : 2 ^ 63 ≤ n.toNat) : difference n < 0 := by
  have hlt : n.toNat < 2 ^ 64 := UInt64.toNat_lt n
  unfold difference
  rw [BitVec.toInt_eq_toNat_cond, if_neg (by rw [UInt64.toNat_toBitVec]; omega), UInt64.toNat_toBitVec]
  omega

theorem toNat_wordCount {n : UInt64} (h : n.toNat < 2 ^ 63) : (wordCount n).toNat = (n.toNat + 31) / 32 := by
  unfold wordCount
  have h1 : (n + 32 - 1).toNat = n.toNat + 31 := by
    have : n + 32 - 1 = n + 31 := by
      rw [UInt64.sub_eq_add_neg, UInt64.add_assoc]
      rfl
    rw [this, UInt64.toNat_add]
    exact Nat.mod_eq_of_lt (by change n.toNat + 31 < 2 ^ 64; omega)
  rw [UInt64.toNat_div, h1]
  rfl

theorem Sized.lt (hb : Sized m b) (hi : i < m) : i / 32 < b.words.length := by
  rw [hb.words]
  omega

theorem readAt_ok (hb : Sized m b) (hi : i < m) : b.readAt i = .ok (b.bit i) := by
  have hx := List.getElem?_eq_getElem (hb.lt hi)
  rw [readAt, if_neg (by omega), Int.toNat_natCast, hx]
  dsimp only
  rw [and_one_shiftLeft (Nat.mod_lt _ (by decide)), bit, bitAt_eq hx]

theorem writeAt_ok (hb : Sized m b) (hi : i < m) (ok : Failure → Prop) :
    Ensures ok (b.writeAt i v) fun b' => Sized m b' ∧ ∀ j, b'.bit j = if j = i then v else b.bit j := by
  have hx := List.getElem?_eq_getElem (hb.lt hi)
  have hne : ¬ (b.words = [] ∧ i / 32 = 0) := fun h => by
    have := hb.lt hi
    rw [h.1] at this
    exact absurd this (Nat.not_lt_zero _)
  rw [writeAt, if_neg (by omega), Int.toNat_natCast, if_neg hne, hx]
  exact ⟨⟨by rw [List.length_set]; exact hb.words, hb.finish⟩, fun j => bitAt_set (by decide) hx⟩

theorem get_ok {n : UInt64} (hm : m ≤ 2 ^ 63) (hb : Sized m b) (hn : n.toNat < m) : b.get n = .ok (b.bit n.toNat) := by
  rw [get, difference_of_lt (by omega), readAt_ok hb hn]

theorem put_ok {n : UInt64} (hm : m ≤ 2 ^ 63) (hb : Sized m b) (hn : n.toNat < m) (ok : Failure → Prop) :
    Ensures ok (b.put n v) fun b' => Sized m b' ∧ ∀ j, b'.bit j = if j = n.toNat then v else b.bit j := by
  rw [put, difference_of_lt (by omega)]
  exact writeAt_ok hb hn ok

/-- A new bitmap has its words, and no bit is set. -/
theorem new_spec {n : UInt64} (h : n.toNat < 2 ^ 63) (h0 : n ≠ 0) (hnew : new alloc n = .ok b) :
    Sized n.toNat b ∧ (∀ j, b.bit j = false) ∧ alloc (wordCount n) = true := by
  have hcount : (wordCount n).toNat = (n.toNat + 31) / 32 := toNat_wordCount h
  have hpos : 0 < n.toNat := Nat.pos_of_ne_zero fun h => h0 (UInt64.toNat_inj.mp h)
  have hne : wordCount n ≠ 0 := fun h => by
    rw [h] at hcount
    change 0 = _ at hcount
    omega
  rw [new, if_neg h0, allocate, if_neg hne] at hnew
  split at hnew
  · rename_i ha
    cases hnew
    exact ⟨⟨by rw [List.length_replicate, hcount], difference_of_lt h⟩, fun j => bitAt_replicate_zero _ _, ha⟩
  · cases hnew

theorem fillLoop_ok (ok : Failure → Prop) (hb : Sized m b) (fuel : ℕ) (hi : i ≤ m) (hfuel : m ≤ i + fuel) :
    Ensures ok (fillLoop v m fuel i b) fun b' => Sized m b' ∧ ∀ j, b'.bit j = if i ≤ j ∧ j < m then v else b.bit j := by
  induction fuel generalizing i b with
  | zero =>
      have him : i = m := by omega
      subst him
      rw [fillLoop, if_pos rfl]
      exact ⟨hb, fun j => (if_neg (by omega)).symm⟩
  | succ fuel ih =>
      rw [fillLoop]
      by_cases him : i = m
      · subst him
        rw [if_pos rfl]
        exact ⟨hb, fun j => (if_neg (by omega)).symm⟩
      · rw [if_neg (by omega)]
        refine (writeAt_ok hb (by omega) ok).bind fun b' ⟨hb', hbit'⟩ => ?_
        refine Ensures.mono (ih (i := i + 1) hb' (by omega) (by omega)) fun b'' ⟨hb'', hbit''⟩ => ⟨hb'', fun j => ?_⟩
        rw [hbit'' j, hbit' j]
        by_cases hj : j = i
        · rw [if_neg (by omega), if_pos hj, if_pos (by omega)]
        · rw [if_neg hj]
          exact if_congr (by omega) rfl rfl

theorem fill_ok (ok : Failure → Prop) (hb : Sized m b) :
    Ensures ok (b.fill v) fun b' => Sized m b' ∧ ∀ j < m, b'.bit j = v := by
  have h := fillLoop_ok (v := v) (i := 0) ok hb (32 * b.words.length + 32) (Nat.zero_le m)
    (by rw [hb.words]; omega)
  rw [fill, hb.finish]
  exact h.mono fun b' ⟨hb', hbit⟩ => ⟨hb', fun j hj => by rw [hbit j, if_pos ⟨Nat.zero_le j, hj⟩]⟩

/-- Counted backwards, the end is never reached. -/
theorem fillLoop_ne_ok {last : ℤ} (fuel : ℕ) {first : ℤ} (h : last < first) (b b' : Bitmap) :
    fillLoop v last fuel first b ≠ .ok b' := by
  induction fuel generalizing first b with
  | zero =>
      rw [fillLoop, if_neg (by omega)]
      exact nofun
  | succ fuel ih =>
      rw [fillLoop, if_neg (by omega)]
      cases b.writeAt first v with
      | error e => exact nofun
      | ok b'' => exact ih (by omega) b''

theorem copy_ok (ok : Failure → Prop) (hm : m < 2 ^ 63) (h0 : 0 < m) (hb : Sized m b)
    (halloc : alloc (wordCount (UInt64.ofNat m)) = true) :
    Ensures ok (b.copy alloc) fun b' => Sized m b' ∧ ∀ j < m, b'.bit j = b.bit j := by
  have hto : (UInt64.ofNat m).toNat = m := Nat.mod_eq_of_lt (by omega)
  have hcount : (wordCount (UInt64.ofNat m)).toNat = (m + 31) / 32 := by
    rw [toNat_wordCount (by rw [hto]; exact hm), hto]
  have hne : wordCount (UInt64.ofNat m) ≠ 0 := fun h => by
    rw [h] at hcount
    change 0 = _ at hcount
    omega
  rw [copy, hb.finish, if_neg (by omega), UInt64.ofInt, Int.emod_eq_of_lt (by omega) (by omega), Int.toNat_natCast,
    allocate, if_neg hne, if_pos halloc]
  refine (Ensures.forLoop (P := fun i tmp => Sized m tmp ∧ ∀ j < i, tmp.bit j = b.bit j) ?_ ?_).mono
    fun tmp ⟨htmp, hcopied⟩ => ⟨htmp, hcopied⟩
  · exact ⟨⟨by rw [List.length_replicate, hcount], rfl⟩, fun j hj => absurd hj (Nat.not_lt_zero j)⟩
  · intro i hi tmp ⟨htmp, hcopied⟩
    rw [readAt_ok hb hi]
    refine (writeAt_ok htmp hi ok).mono fun tmp' ⟨htmp', hbit⟩ => ⟨htmp', fun j hj => ?_⟩
    rw [hbit j]
    split
    · rename_i h
      rw [h]
    · exact hcopied j (by omega)

end Bitmap

end NeForce
