import Mathlib.Data.List.Basic
import Mathlib.Data.Nat.Bitwise
import Mathlib.Logic.Function.Basic

/-! # The slots of the flat hash table

A flat hash table keeps its elements in an array of slots, with one metadata byte per slot:
`htEmpty` for a slot that was never used, `htDeleted` for one whose element was removed, and
otherwise the low seven bits of the hash of its key.  `Slots` are the two arrays and their length;
a slot without an object is `none`, and reading it is undefined behaviour (`none` in the result).

A probe starts at the home slot of a key and goes round the array.  Each probe of the source is
here twice, slot by slot and by groups of sixteen bytes; a bit mask of a group is the ascending list of its
bits. -/

namespace NeForce.Flat

variable {K V : Type}

def htEmpty : ℕ := 0x80
def htDeleted : ℕ := 0xFE
def htH2Mask : ℕ := 0x7F
def htGroup : ℕ := 16

/-- The function objects of a table. -/
structure Keying (K V : Type) where
  hasher : K → ℕ
  equals : K → K → Bool
  extracter : V → K

/-- The data and metadata arrays of `capacity` slots. -/
structure Slots (V : Type) where
  data : ℕ → Option V
  metadata : ℕ → ℕ
  capacity : ℕ

/-- `mixed_hash`, in the 64-bit arithmetic of `size_t`. -/
def Keying.mixedHash (k : Keying K V) (key : K) : ℕ :=
  let h := k.hasher key * 0x9E3779B97F4A7C15 % 2 ^ 64
  h ^^^ (h >>> 32)

def hashToH2 (hash : ℕ) : ℕ := hash &&& htH2Mask

def bitFloor (x : ℕ) : ℕ := if x = 0 then 0 else 2 ^ x.log2

def bitCeil (x : ℕ) : ℕ := if x ≤ 1 then 1 else if bitFloor x = x then x else bitFloor x <<< 1

def nextPowerOf2 (n : ℕ) : ℕ := if n ≤ 16 then 16 else bitCeil n

/-- `is_taken`, and the test of `occupied_mask` with vector instructions (the high bit) and without. -/
def isTaken (byte : ℕ) : Bool := byte < htEmpty

def isOccupied (simd : Bool) (byte : ℕ) : Bool :=
  if simd then byte &&& 0x80 = 0 else byte ≠ htEmpty ∧ byte ≠ htDeleted

namespace Slots

/-- New arrays: no objects, and every byte `htEmpty`. -/
def allocate (capacity : ℕ) : Slots V := ⟨fun _ => none, fun _ => htEmpty, capacity⟩

variable (s : Slots V) (k : Keying K V)

/-- `i & (capacity_ - 1)`. -/
def wrap (i : ℕ) : ℕ := i &&& (s.capacity - 1)

/-- `(i - 1) & (capacity_ - 1)`, where the unsigned subtraction wraps. -/
def prev (i : ℕ) : ℕ := s.wrap (i + (s.capacity - 1))

def hashToIndex (hash : ℕ) : ℕ := s.wrap (hash >>> 7)

/-- `construct(&data_[idx], value)` and `metadata_[idx] = h2`. -/
def construct (idx : ℕ) (v : V) (h2 : ℕ) : Slots V :=
  { s with data := Function.update s.data idx (some v), metadata := Function.update s.metadata idx h2 }

/-- One step of a shift: construct `dst` from `src`, destroy `src` and copy the byte. -/
def move (dst src : ℕ) : Slots V :=
  { s with
    data := Function.update (Function.update s.data dst (s.data src)) src none
    metadata := Function.update s.metadata dst (s.metadata src) }

/-- `equals_(extracter_(data_[idx]), key)`. -/
def keyIs (idx : ℕ) (key : K) : Option Bool := (s.data idx).map fun v => k.equals (k.extracter v) key

/-- `metadata_[idx] == h2 && equals_(extracter_(data_[idx]), key)`. -/
def hit (idx h2 : ℕ) (key : K) : Option Bool := if s.metadata idx = h2 then s.keyIs k idx key else some false

/-! ### Groups -/

def loadMetaGroup (idx : ℕ) : List ℕ :=
  let remaining := s.capacity - idx
  if htGroup ≤ remaining then (List.range htGroup).map fun b => s.metadata (idx + b)
  else (List.range remaining).map (fun b => s.metadata (idx + b)) ++ (List.range (htGroup - remaining)).map s.metadata

/-- `to_bitmask(match_bytes(group, fill_i8(byte)))`. -/
def matchBytes (group : List ℕ) (byte : ℕ) : List ℕ :=
  (List.range htGroup).filter fun b => group.getD b 0 = byte

/-- The number of rounds of a loop over groups. -/
def rounds : ℕ := (s.capacity + (htGroup - 1)) / htGroup

/-- `while (match != 0)`: the first slot of the group at `idx` with the key. -/
def matchSlot (key : K) (idx : ℕ) : List ℕ → Option (Option ℕ)
  | [] => some none
  | b :: bits => do
      let slot := s.wrap (idx + b)
      if ← s.keyIs k slot key then some (some slot) else matchSlot key idx bits

/-! ### The insertion probe -/

/-- `probe_find_or_insert` from slot `idx` on, with `n` iterations left. -/
def probeFindOrInsertLoop (key : K) (h2 : ℕ) : ℕ → ℕ → Option ℕ → Option (Option ℕ × Bool)
  | 0, _, firstDeleted => some (firstDeleted, false)
  | n + 1, idx, firstDeleted =>
      if s.metadata idx = htEmpty then some (some (firstDeleted.getD idx), false)
      else if s.metadata idx = htDeleted then
        probeFindOrInsertLoop key h2 n (s.wrap (idx + 1)) (firstDeleted.or (some idx))
      else do
        if ← s.hit k idx h2 key then some (some idx, true)
        else probeFindOrInsertLoop key h2 n (s.wrap (idx + 1)) firstDeleted

def probeFindOrInsert (hash : ℕ) (key : K) (h2 : ℕ) : Option (Option ℕ × Bool) :=
  s.probeFindOrInsertLoop k key h2 s.capacity (s.hashToIndex hash) none

/-- The distance of a slot from the home slot `h1`, as the source computes it. -/
def probeDist (h1 slot : ℕ) : ℕ := if h1 ≤ slot then slot - h1 else s.capacity - h1 + slot

/-- What the probe returns at a group with an empty slot. -/
def insertionSlot (h1 emptySlot : ℕ) : Option ℕ → ℕ
  | some d => if s.probeDist h1 d < s.probeDist h1 emptySlot then d else emptySlot
  | none => emptySlot

def probeFindOrInsertSimdLoop (key : K) (h1 h2 : ℕ) : ℕ → ℕ → Option ℕ → Option (Option ℕ × Bool)
  | 0, _, firstDeleted => some (firstDeleted, false)
  | n + 1, idx, firstDeleted => do
      let group := s.loadMetaGroup idx
      match ← s.matchSlot k key idx (matchBytes group h2) with
      | some slot => some (some slot, true)
      | none =>
          match matchBytes group htEmpty with
          | emptyBit :: _ => some (some (s.insertionSlot h1 (s.wrap (idx + emptyBit)) firstDeleted), false)
          | [] =>
              probeFindOrInsertSimdLoop key h1 h2 n (s.wrap (idx + htGroup))
                (firstDeleted.or ((matchBytes group htDeleted).head?.map fun b => s.wrap (idx + b)))

def probeFindOrInsertSimd (hash : ℕ) (key : K) (h2 : ℕ) : Option (Option ℕ × Bool) :=
  let h1 := s.hashToIndex hash
  s.probeFindOrInsertSimdLoop k key h1 h2 s.rounds h1 none

/-! ### The lookup probe -/

def probeFindLoop (key : K) (h2 : ℕ) : ℕ → ℕ → Option (Option ℕ)
  | 0, _ => some none
  | n + 1, idx =>
      if s.metadata idx = htEmpty then some none
      else do if ← s.hit k idx h2 key then some (some idx) else probeFindLoop key h2 n (s.wrap (idx + 1))

def probeFindSimdLoop (key : K) (h2 : ℕ) : ℕ → ℕ → Option (Option ℕ)
  | 0, _ => some none
  | n + 1, idx => do
      let group := s.loadMetaGroup idx
      match ← s.matchSlot k key idx (matchBytes group h2) with
      | some slot => some (some slot)
      | none =>
          if matchBytes group htEmpty ≠ [] then some none
          else probeFindSimdLoop key h2 n (s.wrap (idx + htGroup))

def probeFind (simd : Bool) (hash : ℕ) (key : K) (h2 : ℕ) : Option (Option ℕ) :=
  if simd then s.probeFindSimdLoop k key h2 s.rounds (s.hashToIndex hash)
  else s.probeFindLoop k key h2 s.capacity (s.hashToIndex hash)

/-! ### The counting probe -/

/-- The matches of a group before its first empty slot. -/
def liveMatches (group : List ℕ) (h2 : ℕ) : List ℕ :=
  (matchBytes group h2).filter (· < (matchBytes group htEmpty).headD htGroup)

def countMatches (key : K) (idx : ℕ) : List ℕ → ℕ → Option ℕ
  | [], result => some result
  | b :: bits, result => do
      let e ← s.keyIs k (s.wrap (idx + b)) key
      countMatches key idx bits (if e then result + 1 else result)

def probeCountLoop (key : K) (h2 : ℕ) : ℕ → ℕ → ℕ → Option ℕ
  | 0, _, result => some result
  | n + 1, idx, result =>
      if s.metadata idx = htEmpty then some result
      else do
        let e ← s.hit k idx h2 key
        probeCountLoop key h2 n (s.wrap (idx + 1)) (if e then result + 1 else result)

def probeCountSimdLoop (key : K) (h2 : ℕ) : ℕ → ℕ → ℕ → Option ℕ
  | 0, _, result => some result
  | n + 1, idx, result => do
      let group := s.loadMetaGroup idx
      let result ← s.countMatches k key idx (liveMatches group h2) result
      if matchBytes group htEmpty ≠ [] then some result
      else probeCountSimdLoop key h2 n (s.wrap (idx + htGroup)) result

def probeCount (simd : Bool) (hash : ℕ) (key : K) (h2 : ℕ) : Option ℕ :=
  if simd then s.probeCountSimdLoop k key h2 s.rounds (s.hashToIndex hash) 0
  else s.probeCountLoop k key h2 s.capacity (s.hashToIndex hash) 0

/-! ### Occupied slots -/

def occupiedMask (simd : Bool) (base : ℕ) : List ℕ :=
  (List.range htGroup).filter fun b => isOccupied simd (s.metadata (base + b))

def findOccupiedLoop (simd : Bool) : ℕ → ℕ → ℕ
  | 0, _ => s.capacity
  | n + 1, i =>
      if i < s.capacity then
        let offset := i &&& (htGroup - 1)
        let base := i - offset
        match (s.occupiedMask simd base).filter (offset ≤ ·) with
        | b :: _ => base + b
        | [] => findOccupiedLoop simd n (base + htGroup)
      else s.capacity

/-- `find_occupied` from slot `i` on. -/
def findOccupied (simd : Bool) (i : ℕ) : ℕ := s.findOccupiedLoop simd s.capacity i

/-! ### Shifting -/

/-- Go on from slot `e` to the first slot whose byte satisfies `stop`, in at most `n` steps. -/
def seek (stop : ℕ → Bool) : ℕ → ℕ → ℕ
  | 0, e => e
  | n + 1, e =>
      let e := s.wrap (e + 1)
      if stop (s.metadata e) then e else seek stop n e

/-- `while (end != pos)`: move the elements of the slots from `pos` up to `e` one slot on. -/
def shiftBack (pos : ℕ) : ℕ → Slots V → ℕ → Slots V
  | 0, s, _ => s
  | n + 1, s, e => if e = pos then s else shiftBack pos n (s.move e (s.prev e)) (s.prev e)

end Slots

end NeForce.Flat
