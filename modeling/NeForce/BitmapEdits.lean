import NeForce.Bitmap

/-! # Iterators and edits of the bit array

An iterator of a bitmap is a pointer to a word and an offset in it.  Its position, the number of bits from the start, determines it
(`BitIter.ext_position`), and all movements are additions to the position, also where the signed division of `advance` rounds
towards zero (`BitIter.position_advance`).  So the edits below write an iterator as its position.

The edits copy bit by bit, in place forwards or backwards, or into a new block. -/

namespace NeForce

/-! ### Iterators -/

/-- A pointer, counted in words from the start, and the offset in the word. -/
structure BitIter where
  ptr : ℤ
  off : ℕ
  off_lt : off < 32

namespace BitIter

variable (it : BitIter)

def increment : BitIter :=
  if h : it.off = 31 then ⟨it.ptr + 1, 0, by decide⟩
  else ⟨it.ptr, it.off + 1, by have := it.off_lt; omega⟩

def decrement : BitIter :=
  if it.off = 0 then ⟨it.ptr - 1, 31, by decide⟩
  else ⟨it.ptr, it.off - 1, by have := it.off_lt; omega⟩

/-- The division and the remainder of C++, which round towards zero. -/
def advance (off : ℤ) : BitIter :=
  let n := off + it.off
  let ptr := it.ptr + n.tdiv 32
  let n := n.tmod 32
  if h : n < 0 then ⟨ptr - 1, (n + 32).toNat, by omega⟩
  else ⟨ptr, n.toNat, by
    have h32 : (off + it.off).tmod 32 < 32 := Int.tmod_lt_of_pos _ (by decide)
    show ((off + it.off).tmod 32).toNat < 32
    omega⟩

/-- `distance_to` -/
def distanceTo (other : BitIter) : ℤ := 32 * (it.ptr - other.ptr) + it.off - other.off

def position : ℤ := 32 * it.ptr + it.off

theorem position_increment : it.increment.position = it.position + 1 := by
  unfold increment position
  split <;> dsimp only <;> omega

theorem position_advance (off : ℤ) : (it.advance off).position = it.position + off := by
  have hdiv := Int.mul_tdiv_add_tmod (off + it.off) 32
  have hlow : -32 < (off + it.off).tmod 32 := Int.lt_tmod_of_pos _ (by decide)
  unfold advance position
  dsimp only
  split
  · rename_i h
    dsimp only
    generalize (off + it.off).tmod 32 = r at h hdiv hlow ⊢
    generalize (off + it.off).tdiv 32 = q at hdiv ⊢
    omega
  · rename_i h
    dsimp only
    generalize (off + it.off).tmod 32 = r at h hdiv ⊢
    generalize (off + it.off).tdiv 32 = q at hdiv ⊢
    omega

theorem distanceTo_eq (other : BitIter) : it.distanceTo other = it.position - other.position := by
  unfold distanceTo position
  omega

/-- An iterator is determined by its position. -/
theorem ext_position {it other : BitIter} (h : it.position = other.position) : it = other := by
  have h1 := it.off_lt
  have h2 := other.off_lt
  unfold position at h
  obtain ⟨p, o, ho⟩ := it
  obtain ⟨p', o', ho'⟩ := other
  dsimp only at h h1 h2
  obtain rfl : p = p' := by omega
  obtain rfl : o = o' := by omega
  rfl

end BitIter

/-! ### Copying bits -/

namespace Bitmap

/-- `bit_copy` within a bitmap, of `n` bits from position `first`. -/
def bitCopy (first : ℤ) (n : ℕ) (result : ℤ) (b : Bitmap) : Except Failure Bitmap :=
  forLoop n (fun i b => do
    let value ← b.readAt (first + i)
    b.writeAt (result + i) value) b

/-- `bit_copy_backward`; `last` and `result` are behind the bits. -/
def bitCopyBackward (last : ℤ) (n : ℕ) (result : ℤ) (b : Bitmap) : Except Failure Bitmap :=
  forLoop n (fun i b => do
    let value ← b.readAt (last - 1 - i)
    b.writeAt (result - 1 - i) value) b

/-- `bit_copy` into new storage. -/
def bitCopyFrom (src : Bitmap) (first : ℤ) (n : ℕ) (result : ℤ) (b : Bitmap) : Except Failure Bitmap :=
  forLoop n (fun i b => do
    let value ← src.readAt (first + i)
    b.writeAt (result + i) value) b

/-- `bit_copy` of another range. -/
def bitCopyRange (l : List Bool) (result : ℤ) (b : Bitmap) : Except Failure Bitmap :=
  forLoop l.length (fun i b => b.writeAt (result + i) (l.getD i false)) b

def fillN (first : ℤ) (n : ℕ) (value : Bool) (b : Bitmap) : Except Failure Bitmap :=
  forLoop n (fun i b => b.writeAt (first + i) value) b

/-! ### Sizes -/

variable (b : Bitmap)

def size : UInt64 := UInt64.ofInt b.finish

def capacity : UInt64 := UInt64.ofNat b.words.length * 32

/-- `finish_.ptr_ == storage_.get() + storage_.capacity()` -/
def atEnd : Bool := b.finish / 32 = b.words.length

/-! ### Edits -/

section

variable (alloc : UInt64 → Bool)

/-- Into new storage: the bits before `pos`, what `mid` writes for `len` bits, and the bits from `pos` on. -/
def reallocate (pos : ℤ) (extra : UInt64) (len : ℤ) (mid : Bitmap → Except Failure Bitmap) : Except Failure Bitmap := do
  let words ← allocate alloc (wordCount (b.size + extra))
  let t ← bitCopyFrom b 0 pos.toNat 0 ⟨words, 0⟩
  let t ← mid t
  let t ← bitCopyFrom b pos (b.finish - pos).toNat (pos + len) t
  .ok { t with finish := pos + len + (b.finish - pos).toNat }

/-- `reallocate_insert` -/
def reallocateInsert (pos : ℤ) (extra : UInt64) (value : Bool) : Except Failure Bitmap :=
  b.reallocate alloc pos extra (difference extra) (fillN pos (difference extra).toNat value)

/-- `reallocate_insert_range` -/
def reallocateInsertRange (pos : ℤ) (l : List Bool) (extra : UInt64) : Except Failure Bitmap :=
  b.reallocate alloc pos extra l.length (bitCopyRange l pos)

def insertAux (pos : ℤ) (value : Bool) : Except Failure Bitmap :=
  if !b.atEnd then do
    let t ← bitCopyBackward b.finish (b.finish - pos).toNat (b.finish + 1) b
    let t ← t.writeAt pos value
    .ok { t with finish := t.finish + 1 }
  else b.reallocateInsert alloc pos 1 value

/-- `*finish_++ = value` -/
def append (value : Bool) : Except Failure Bitmap := do
  let t ← b.writeAt b.finish value
  .ok { t with finish := t.finish + 1 }

def pushBack (value : Bool) : Except Failure Bitmap :=
  if !b.atEnd then b.append value else b.insertAux alloc b.finish value

/-- `insert(position, value)`, and the position of the iterator it returns. -/
def insert (pos : ℤ) (value : Bool) : Except Failure (Bitmap × ℤ) := do
  let t ← if !b.atEnd ∧ pos = b.finish then b.append value else b.insertAux alloc pos value
  .ok (t, pos)

/-- `insert(position, n, value)` -/
def insertN (pos : ℤ) (n : UInt64) (value : Bool) : Except Failure Bitmap :=
  if n = 0 then .ok b
  else if b.capacity - b.size ≥ n then do
    let t ← bitCopyBackward b.finish (b.finish - pos).toNat (b.finish + difference n) b
    let t ← fillN pos (difference n).toNat value t
    .ok { t with finish := t.finish + difference n }
  else b.reallocateInsert alloc pos n value

/-- `insert(position, first, last)` for a range with the values `l`. -/
def insertRange (pos : ℤ) (l : List Bool) : Except Failure Bitmap :=
  if l = [] then .ok b
  else if b.capacity - b.size ≥ UInt64.ofNat l.length then do
    let t ← bitCopyBackward b.finish (b.finish - pos).toNat (b.finish + l.length) b
    let t ← bitCopyRange l pos t
    .ok { t with finish := t.finish + l.length }
  else b.reallocateInsertRange alloc pos l (UInt64.ofNat l.length)

def popBack : Bitmap := { b with finish := b.finish - 1 }

/-- `erase(position)`, and the position of the iterator it returns. -/
def erase (pos : ℤ) : Except Failure (Bitmap × ℤ) := do
  let t ← if pos + 1 ≠ b.finish then bitCopy (pos + 1) (b.finish - (pos + 1)).toNat pos b else .ok b
  .ok ({ t with finish := t.finish - 1 }, pos)

/-- `erase(first, last)`, and the position of the iterator it returns. -/
def eraseRange (first last : ℤ) : Except Failure (Bitmap × ℤ) := do
  let t ← bitCopy last (b.finish - last).toNat first b
  .ok ({ t with finish := first + (b.finish - last).toNat }, first)

def resize (n : UInt64) (value : Bool) : Except Failure Bitmap :=
  if n < b.size then (b.eraseRange (difference n) b.finish).map Prod.fst
  else b.insertN alloc b.finish (n - b.size) value

def reserve (n : UInt64) : Except Failure Bitmap :=
  if b.capacity < n then do
    let words ← allocate alloc (wordCount n)
    let t ← bitCopyFrom b 0 b.finish.toNat 0 ⟨words, 0⟩
    .ok { t with finish := b.finish.toNat }
  else .ok b

def clear : Except Failure Bitmap := (b.eraseRange 0 b.finish).map Prod.fst

end

/-- `equal_to` -/
def equalTo (rhs : Bitmap) : Except Failure Bool :=
  if b.size = rhs.size then
    (List.range b.finish.toNat).allM fun (i : ℕ) => do
      let x ← b.readAt i
      let y ← rhs.readAt i
      .ok (x == y)
  else .ok false

end Bitmap

end NeForce
