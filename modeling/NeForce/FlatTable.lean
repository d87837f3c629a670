import NeForce.FlatWalk
import Mathlib.Data.Rat.Floor

/-! # The operations of the flat hash table

Insertion, growth, removal of the marks of deleted slots and copying, with the function objects of the
user, which may throw, called where the source calls them.

`Calls` is a computation that counts its calls of function objects; the script says which call throws.  A
computation may also end in undefined behaviour: an object is read where there is none. -/

namespace NeForce.Flat

variable {K V : Type}

/-! ### Calls of function objects -/

inductive Fault
  | thrown
  | undefined
  /-- The exception of `emplace_equal`. -/
  | noSlot
  /-- The recursion is deeper than the bound given. -/
  | depth
deriving DecidableEq

/-- A computation with the number of calls made so far. -/
abbrev Calls (α : Type) := ℕ → Except Fault (α × ℕ)

/-- A call of a function object, and what follows. -/
def call {α : Type} (throws : ℕ → Bool) (f : Calls α) : Calls α :=
  fun c => if throws c then .error .thrown else f (c + 1)

/-- No call throws. -/
def nothrow : ℕ → Bool := fun _ => false

/-! ### Sizes -/

def thresholdOf (capacity : ℕ) (lf : ℚ) : ℕ := ⌊(capacity : ℚ) * lf⌋₊

/-- `static_cast<size_t>(static_cast<double>(n) / max_load_factor())`. -/
def slotsFor (n : ℕ) (lf : ℚ) : ℕ := ⌊(n : ℚ) / lf⌋₊

namespace Table

variable (t : Table V)

def shouldRehash : Bool := t.size + 1 > t.growthThreshold

def needsPurge : Bool := t.deleted ≠ 0 ∧ t.size + t.deleted ≥ t.growthThreshold

end Table

/-! ### Placing an element in new arrays -/

section

variable (k : Keying K V) (throws : ℕ → Bool) (key : K) (h2 : ℕ)

/-- `new_metadata[idx] == h2 && equals_(extracter_(new_data[idx]), key)`, and what follows. -/
def ifHit {α : Type} (s : Slots V) (idx : ℕ) (yes no : Calls α) : Calls α :=
  if s.metadata idx = h2 then
    call throws fun c =>
      match s.keyIs k idx key with
      | none => .error .undefined
      | some true => yes c
      | some false => no c
  else no

/-- The end of a run of equal keys, with `n` slots left: an empty slot, or one that is made free by shifting what
follows. -/
def placeRun (s : Slots V) : ℕ → ℕ → Calls (Slots V × ℕ)
  | 0, runEnd => fun c => .ok ((s, runEnd), c)
  | n + 1, runEnd =>
      let runEnd := s.wrap (runEnd + 1)
      if s.metadata runEnd = htEmpty then fun c => .ok ((s, runEnd), c)
      else ifHit k throws key h2 s runEnd (placeRun s n runEnd)
        fun c => .ok ((Slots.shiftBack runEnd s.capacity s (s.seek (· = htEmpty) s.capacity runEnd), runEnd), c)

/-- The place of an element in new arrays, with `n` slots left. -/
def place (s : Slots V) : ℕ → ℕ → Calls (Slots V × ℕ)
  | 0, idx => fun c => .ok ((s, idx), c)
  | n + 1, idx =>
      if s.metadata idx = htEmpty then fun c => .ok ((s, idx), c)
      else ifHit k throws key h2 s idx (placeRun k throws key h2 s n idx) (place s n (s.wrap (idx + 1)))

/-- One element: its hash, its place. -/
def placeElement (s : Slots V) : Calls (Slots V × ℕ) :=
  call throws (place k throws key (hashToH2 (k.mixedHash key)) s s.capacity (s.hashToIndex (k.mixedHash key)))

end

/-! ### Rehashing -/

/-- How the moves of a rehash end, with the old and the new arrays. -/
inductive Moved (V : Type)
  | done (old new : Slots V)
  | thrown (old new : Slots V)
  | undefined

/-- Move the elements of the slots from `i` on; `movedFrom v` is what a move leaves of `v`. -/
def moveAll (k : Keying K V) (movedFrom : V → V) (throws : ℕ → Bool) : ℕ → ℕ → Slots V → Slots V → ℕ → Moved V
  | 0, _, old, new, _ => .done old new
  | n + 1, i, old, new, c =>
      if old.metadata i ≠ htEmpty ∧ old.metadata i ≠ htDeleted then
        match old.data i with
        | none => .undefined
        | some v =>
            match placeElement k throws (k.extracter v) new c with
            | .error .thrown => .thrown old new
            | .error _ => .undefined
            | .ok ((new, idx), c) =>
                moveAll k movedFrom throws n (i + 1) { old with data := Function.update old.data i (some (movedFrom v)) }
                  (new.construct idx v (hashToH2 (k.mixedHash (k.extracter v)))) c
      else moveAll k movedFrom throws n (i + 1) old new c

/-- How a rehash ends: in a table, or in an exception that leaves a table. -/
inductive Rehash (V : Type)
  | done (t : Table V)
  | thrown (t : Table V)
  | undefined

/-- `rehash_impl` -/
def Table.rehashImpl (t : Table V) (k : Keying K V) (movedFrom : V → V) (throws : ℕ → Bool) (minCapacity : ℕ)
    (purgeOnly : Bool) : Rehash V :=
  let needed := max minCapacity (slotsFor t.size t.maxLoadFactor)
  let newCapacity := nextPowerOf2 needed
  if newCapacity < t.slots.capacity ∨ (newCapacity = t.slots.capacity ∧ !purgeOnly) then .done t
  else
    match moveAll k movedFrom throws t.slots.capacity 0 t.slots (Slots.allocate newCapacity) 0 with
    | .done _ new =>
        .done { t with
          slots := new
          growthThreshold := thresholdOf newCapacity t.maxLoadFactor
          deleted := 0
          block := t.block + 1 }
    | .thrown old _ => .thrown { t with slots := old }
    | .undefined => .undefined

namespace Table

variable (t : Table V) (k : Keying K V)

/-- `rehash_impl` where no function object throws. -/
def rehash (minCapacity : ℕ) (purgeOnly : Bool) : Except Fault (Table V) :=
  match t.rehashImpl k id nothrow minCapacity purgeOnly with
  | .done t => .ok t
  | .thrown _ => .error .thrown
  | .undefined => .error .undefined

def reserve (n : ℕ) : Except Fault (Table V) :=
  if n ≤ t.size then .ok t else t.rehash k (slotsFor n t.maxLoadFactor) false

def growForInsert : Except Fault (Table V) :=
  if t.shouldRehash then
    let newCap := if t.slots.capacity = 0 then 16 else t.slots.capacity * 2
    t.rehash k (max newCap (slotsFor (t.size + 1) t.maxLoadFactor)) false
  else if t.needsPurge then t.rehash k t.slots.capacity true
  else .ok t

/-- `if (should_rehash() || needs_purge()) grow_for_insert()`. -/
def prepare : Except Fault (Table V) := if t.shouldRehash || t.needsPurge then t.growForInsert k else .ok t

/-! ### Insertion -/

/-- `construct_at` -/
def constructAt (idx h2 : ℕ) (v : V) : Table V :=
  { t with
    deleted := if t.slots.metadata idx = htDeleted then t.deleted - 1 else t.deleted
    slots := t.slots.construct idx v h2
    size := t.size + 1 }

/-- `shift_make_room` -/
def shiftMakeRoom (pos : ℕ) : Table V :=
  { t with
    slots := Slots.shiftBack pos t.slots.capacity t.slots
      (t.slots.seek (fun m => m = htEmpty ∨ m = htDeleted) t.slots.capacity pos) }

/-- `emplace_unique`: the table, the slot of the element and whether it is new. -/
def emplaceUnique (simd : Bool) (v : V) : Except Fault (Table V × ℕ × Bool) := do
  let t ← t.prepare k
  let key := k.extracter v
  let hash := k.mixedHash key
  let h2 := hashToH2 hash
  match if simd then t.slots.probeFindOrInsertSimd k hash key h2 else t.slots.probeFindOrInsert k hash key h2 with
  | some (some idx, true) => .ok (t, idx, false)
  | some (some idx, false) => .ok (t.constructAt idx h2 v, idx, true)
  | _ => .error .undefined

/-- The end of the run of equal keys, with `n` slots left; no result if the run reaches the end of the arrays. -/
def emplaceRun (v : V) (h2 : ℕ) : ℕ → ℕ → Except Fault (Option (Table V × ℕ))
  | 0, _ => .error .noSlot
  | n + 1, runEnd =>
      let runEnd := t.slots.wrap (runEnd + 1)
      if runEnd = 0 then .ok none
      else if t.slots.metadata runEnd = htEmpty ∨ t.slots.metadata runEnd = htDeleted then
        .ok (some (t.constructAt runEnd h2 v, runEnd))
      else
        match t.slots.hit k runEnd h2 (k.extracter v) with
        | none => .error .undefined
        | some true => emplaceRun v h2 n runEnd
        | some false => .ok (some ((t.shiftMakeRoom runEnd).constructAt runEnd h2 v, runEnd))

/-- The loop of `emplace_equal`, with `n` slots left. -/
def emplaceEqualLoop (v : V) (h2 : ℕ) : ℕ → ℕ → Option ℕ → Except Fault (Option (Table V × ℕ))
  | 0, _, some idx => .ok (some (t.constructAt idx h2 v, idx))
  | 0, _, none => .error .noSlot
  | n + 1, idx, firstDeleted =>
      if t.slots.metadata idx = htEmpty then
        .ok (some (t.constructAt (firstDeleted.getD idx) h2 v, firstDeleted.getD idx))
      else if t.slots.metadata idx = htDeleted ∧ firstDeleted = none then
        emplaceEqualLoop v h2 n (t.slots.wrap (idx + 1)) (some idx)
      else
        match t.slots.hit k idx h2 (k.extracter v) with
        | none => .error .undefined
        | some true => t.emplaceRun k v h2 n idx
        | some false => emplaceEqualLoop v h2 n (t.slots.wrap (idx + 1)) firstDeleted

/-- `emplace_equal` up to its call of itself: the table after the growth, and the table with the new element and its
slot, if it has got one. -/
def emplaceOnce (v : V) : Except Fault (Table V × Option (Table V × ℕ)) := do
  let t ← t.prepare k
  let hash := k.mixedHash (k.extracter v)
  let r ← t.emplaceEqualLoop k v (hashToH2 hash) t.slots.capacity (t.slots.hashToIndex hash) none
  .ok (t, r)

/-- `emplace_equal`, with at most `depth` calls of itself: the table and the slot of the new element. -/
def emplaceEqual (k : Keying K V) (v : V) : ℕ → Table V → Except Fault (Table V × ℕ)
  | 0, t => do
      match ← t.emplaceOnce k v with
      | (_, some r) => .ok r
      | (_, none) => .error .depth
  | depth + 1, t => do
      match ← t.emplaceOnce k v with
      | (_, some r) => .ok r
      | (t, none) =>
          let t ← t.rehash k (max (t.slots.capacity * 2) (slotsFor (t.size + 1) t.maxLoadFactor)) false
          emplaceEqual k v depth t

end Table

/-! ### Copying -/

/-- A construction or destruction of the element of a slot or node. -/
inductive Life
  | construct (i : ℕ)
  | destroy (i : ℕ)
deriving DecidableEq

/-- How a copy ends, with its constructions and destructions in order. -/
inductive Copied (T : Type)
  | done (t : T) (log : List Life)
  | thrown (t : T) (log : List Life)

/-- The slots whose byte is a tag, as `clear` and `free_arrays` find them. -/
def Slots.tagged (s : Slots V) : List ℕ :=
  (List.range s.capacity).filter fun i => s.metadata i ≠ htEmpty ∧ s.metadata i ≠ htDeleted

/-- `clear`, and the slots whose objects it destroys. -/
def Table.clear (t : Table V) : Table V × List ℕ :=
  ({ t with
      slots := ⟨fun i => if i < t.slots.capacity then none else t.slots.data i,
        fun i => if i < t.slots.capacity then htEmpty else t.slots.metadata i, t.slots.capacity⟩
      size := 0
      deleted := 0 },
    t.slots.tagged)

/-- The loop of `copy_from` over the slots from `i` on; `throws i` says that the constructor of the copy of the element
of slot `i` throws.  The flag tells whether it did. -/
def copySlots (other : Slots V) (throws : ℕ → Bool) : ℕ → ℕ → Slots V → List Life → Bool × Slots V × List Life
  | 0, _, s, log => (false, s, log)
  | n + 1, i, s, log =>
      let s := { s with metadata := Function.update s.metadata i (other.metadata i) }
      if other.metadata i ≠ htEmpty ∧ other.metadata i ≠ htDeleted then
        if throws i then (true, s, log)
        else copySlots other throws n (i + 1) { s with data := Function.update s.data i (other.data i) } (log ++ [.construct i])
      else copySlots other throws n (i + 1) s log

/-- `copy_from` -/
def Table.copyFrom (t other : Table V) (throws : ℕ → Bool) : Copied (Table V) :=
  if other.slots.capacity = 0 then .done t []
  else
    let freed := if t.slots.capacity ≠ other.slots.capacity then t.slots.tagged else []
    let t : Table V :=
      if t.slots.capacity ≠ other.slots.capacity then
        { t with
          slots := Slots.allocate other.slots.capacity
          growthThreshold := thresholdOf other.slots.capacity t.maxLoadFactor
          block := t.block + 1 }
      else
        { t with slots := { t.slots with metadata := fun i => if i < t.slots.capacity then htEmpty else t.slots.metadata i } }
    match copySlots other.slots throws other.slots.capacity 0 t.slots (freed.map .destroy) with
    | (false, s, log) => .done { t with slots := s, size := other.size, deleted := other.deleted } log
    | (true, s, log) =>
        let (t, destroyed) := { t with slots := s, size := 0, deleted := 0 : Table V }.clear
        .thrown t (log ++ destroyed.map .destroy)

end NeForce.Flat
