import NeForce.FlatSlots
import NeForce.Runs
import Mathlib.Data.Rat.Init

/-! # Walking through the flat hash table

An iterator keeps, beside its slot, the occupied slots of the rest of the group of sixteen slots it is in,
and takes the next slot from there.  Elements may be removed meanwhile, so what it keeps may be stale: the
live slots of the rest of the group are among those kept (`Cached`), and a slot that is no longer live
sends it to a search.  Hence `++it` always goes to the next live slot (`increment_spec`), and a walk with
removals of other elements visits every element that stays, once (`walk_complete`). -/

namespace NeForce.Flat

variable {V : Type}

/-- A slot with an element. -/
def Slots.Live (s : Slots V) (i : ℕ) : Prop := i < s.capacity ∧ isTaken (s.metadata i) = true

/-- What holds of the arrays of every table: there are none, or a power of two of at least sixteen slots;
every byte is a tag or a marker, and the slots with tags have objects. -/
structure Slots.WellFormed (s : Slots V) : Prop where
  capacity : s.capacity = 0 ∨ ∃ k, 4 ≤ k ∧ s.capacity = 2 ^ k
  byte : ∀ i < s.capacity, isTaken (s.metadata i) = true ∨ s.metadata i = htEmpty ∨ s.metadata i = htDeleted
  object : ∀ i < s.capacity, (s.data i).isSome = isTaken (s.metadata i)

/-- Destroy the object of a slot and mark the slot. -/
def Slots.eraseSlot (s : Slots V) (i : ℕ) : Slots V :=
  { s with data := Function.update s.data i none, metadata := Function.update s.metadata i htDeleted }

/-- A table: its arrays, the number of elements, the number of elements that makes it grow, the number of
slots marked as deleted, and the maximal load factor.  `block` tells the arrays from others: a new pair of arrays
is in a new block. -/
structure Table (V : Type) where
  slots : Slots V
  size : ℕ
  growthThreshold : ℕ
  deleted : ℕ
  maxLoadFactor : ℚ
  block : ℕ

/-! ### Iterators -/

/-- An iterator: its slot, and the occupied slots kept of the rest of its group. -/
structure Iterator where
  index : ℕ
  mask : Option (List ℕ)

/-- `begin()`: the first slot whose byte is a tag, from slot `n` on. -/
def Slots.beginLoop (s : Slots V) : ℕ → ℕ → Iterator
  | 0, _ => ⟨s.capacity, none⟩
  | k + 1, n =>
      if s.metadata n ≠ htEmpty ∧ s.metadata n ≠ htDeleted then ⟨n, none⟩ else beginLoop s k (n + 1)

def Slots.begin (s : Slots V) : Iterator := s.beginLoop s.capacity 0

/-- `if (mask_ != 0)`, and the search after an empty mask. -/
def Slots.takeBit (s : Slots V) (simd : Bool) (base : ℕ) : List ℕ → Iterator
  | b :: bits =>
      if s.capacity ≤ base + b ∨ !isTaken (s.metadata (base + b)) then ⟨s.findOccupied simd (base + b), none⟩
      else ⟨base + b, some bits⟩
  | [] => ⟨s.findOccupied simd (base + htGroup), none⟩

/-- `flat_hashtable_iterator::increment` -/
def Slots.increment (s : Slots V) (simd : Bool) (it : Iterator) : Iterator :=
  let next := it.index + 1
  let offset := next &&& (htGroup - 1)
  let base := next - offset
  let mask :=
    if it.mask = none ∨ offset = 0 then
      if s.capacity ≤ next then none else some ((s.occupiedMask simd base).filter (offset ≤ ·))
    else it.mask
  match mask with
  | none => ⟨s.capacity, none⟩
  | some bits => s.takeBit simd base bits

/-- `dereference`: there must be an object in the slot. -/
def Slots.dereference (s : Slots V) (it : Iterator) : Option V := if it.index < s.capacity then s.data it.index else none

/-- `erase(position)`, and the slot of the iterator it returns. -/
def Table.eraseAt (t : Table V) (simd : Bool) (i : ℕ) : Table V × ℕ :=
  if t.slots.capacity ≤ i then (t, t.slots.capacity)
  else if t.slots.metadata i = htEmpty ∨ t.slots.metadata i = htDeleted then (t, t.slots.capacity)
  else
    let slots := t.slots.eraseSlot i
    ({ t with slots := slots, deleted := t.deleted + 1, size := t.size - 1 }, slots.findOccupied simd (i + 1))

/-! ### The next live slot -/

/-- The first live slot from `i` on, or the end. -/
structure Slots.IsNext (s : Slots V) (i r : ℕ) : Prop where
  le : i ≤ r
  live : r = s.capacity ∨ s.Live r
  none : ∀ j, i ≤ j → j < r → ¬ s.Live j

/-- The ascending list of the numbers that pass a test. -/
theorem filter_range_cons {n b : ℕ} {l : List ℕ} {p : ℕ → Bool} (h : (List.range n).filter p = b :: l) :
    (b < n ∧ p b = true) ∧ (∀ j < b, p j = false) ∧ ∀ j < n, b < j → p j = true → j ∈ l := by
  have hs : (b :: l).Pairwise (· < ·) := by
    rw [← h]
    exact List.pairwise_lt_range.filter p
  have hmem : ∀ j, j ∈ b :: l ↔ j < n ∧ p j = true := by
    intro j
    rw [← h, List.mem_filter, List.mem_range]
  have hb := (hmem b).mp List.mem_cons_self
  refine ⟨hb, fun j hj => ?_, fun j hj hlt hp => ?_⟩
  · by_contra hp
    have hm := (hmem j).mpr ⟨by omega, by simpa using hp⟩
    rcases List.mem_cons.mp hm with rfl | hm
    · omega
    · have := (List.pairwise_cons.mp hs).1 j hm
      omega
  · exact (List.mem_cons.mp ((hmem j).mpr ⟨hj, hp⟩)).resolve_left (by omega)

theorem isOccupied_eq {byte : ℕ} (h : isTaken byte = true ∨ byte = htEmpty ∨ byte = htDeleted) (simd : Bool) :
    isOccupied simd byte = isTaken byte := by
  obtain h | rfl | rfl := h
  · rw [h]
    have hlt : byte < 128 := of_decide_eq_true h
    cases simd with
    | false =>
        have h1 : byte ≠ htEmpty := by rw [htEmpty]; omega
        have h2 : byte ≠ htDeleted := by rw [htDeleted]; omega
        simp [isOccupied, h1, h2]
    | true =>
        have hand : ∀ b : Fin 128, b.val &&& 0x80 = 0 := by decide
        simpa [isOccupied] using hand ⟨byte, hlt⟩
  · cases simd <;> rfl
  · cases simd <;> rfl

section

variable {s : Slots V} {i : ℕ} (simd : Bool)

theorem Slots.WellFormed.mod (hs : s.WellFormed) : s.capacity % 16 = 0 := by
  obtain h | ⟨k, hk, h⟩ := hs.capacity
  · rw [h]
  · obtain ⟨j, rfl⟩ : ∃ j, k = 4 + j := ⟨k - 4, by omega⟩
    rw [h, Nat.pow_add, Nat.mul_mod_right]

theorem and_group (i : ℕ) : i &&& (htGroup - 1) = i % 16 := Nat.and_two_pow_sub_one_eq_mod i 4

/-- The bits of a group are its live slots. -/
theorem mem_occupiedMask (hs : s.WellFormed) {base : ℕ} (hb : base + 16 ≤ s.capacity) {b : ℕ} (hlt : b < 16) :
    isOccupied simd (s.metadata (base + b)) = true ↔ s.Live (base + b) := by
  rw [isOccupied_eq (hs.byte _ (by omega)), Slots.Live]
  exact ⟨fun h => ⟨by omega, h⟩, fun h => h.2⟩

theorem findOccupiedLoop_spec (hs : s.WellFormed) {n : ℕ} (hi : i ≤ s.capacity) (hn : s.capacity ≤ i + n) :
    s.IsNext i (s.findOccupiedLoop simd n i) := by
  have hm := hs.mod
  induction n generalizing i with
  | zero =>
      obtain rfl : i = s.capacity := by omega
      exact ⟨le_rfl, Or.inl rfl, fun j h1 h2 => by rw [Slots.findOccupiedLoop] at h2; omega⟩
  | succ n ih =>
      rw [Slots.findOccupiedLoop]
      split
      · rename_i hlt
        simp only [and_group]
        have hb : i - i % 16 + 16 ≤ s.capacity := by omega
        rw [Slots.occupiedMask, List.filter_filter]
        have h16 : htGroup = 16 := rfl
        split
        · rename_i b l hcons
          obtain ⟨⟨hb16, hp⟩, hleast, _⟩ := filter_range_cons hcons
          rw [Bool.and_eq_true, decide_eq_true_eq] at hp
          refine ⟨by omega, Or.inr ((mem_occupiedMask simd hs hb hb16).mp hp.2), fun j hij hj hl => ?_⟩
          obtain ⟨d, rfl⟩ : ∃ d, j = i - i % 16 + d := ⟨j - (i - i % 16), by omega⟩
          have hf := hleast d (by omega)
          have hocc := (mem_occupiedMask simd hs hb (b := d) (by omega)).mpr hl
          rw [hocc, Bool.and_true, decide_eq_false_iff_not] at hf
          omega
        · rename_i hnil
          have hnone : ∀ d < 16, i % 16 ≤ d → ¬ s.Live (i - i % 16 + d) := by
            intro d hd hge hl
            have hocc := (mem_occupiedMask simd hs hb hd).mpr hl
            have := List.filter_eq_nil_iff.mp hnil d (List.mem_range.mpr hd)
            simp [hocc, hge] at this
          obtain ⟨h1, h2, h3⟩ := ih (i := i - i % 16 + 16) hb (by omega)
          rw [show htGroup = 16 from rfl]
          refine ⟨by omega, h2, fun j hij hj => ?_⟩
          rcases Nat.lt_or_ge j (i - i % 16 + 16) with hlt' | hge
          · have := hnone (j - (i - i % 16)) (by omega) (by omega)
            rwa [show i - i % 16 + (j - (i - i % 16)) = j by omega] at this
          · exact h3 j hge hj
      · obtain rfl : i = s.capacity := by omega
        exact ⟨le_rfl, Or.inl rfl, fun j h1 h2 => by omega⟩

theorem findOccupied_spec (hs : s.WellFormed) (hi : i ≤ s.capacity) : s.IsNext i (s.findOccupied simd i) :=
  findOccupiedLoop_spec simd hs hi (by omega)

/-! ### One step of an iterator -/

/-- What an iterator keeps: slots of the rest of its group, in order, with the live ones among them. -/
def Slots.Cached (s : Slots V) (it : Iterator) : Prop :=
  ∀ bits, it.mask = some bits → (bits.Pairwise (· < ·) ∧ ∀ b ∈ bits, b < 16 ∧ it.index % 16 < b) ∧
    ∀ j, s.Live j → it.index < j → j / 16 = it.index / 16 → j % 16 ∈ bits

theorem cached_none (i : ℕ) : s.Cached ⟨i, none⟩ := fun _ h => nomatch h

/-- The rest of a group that is kept or loaded. -/
def Slots.Group (s : Slots V) (next : ℕ) (bits : List ℕ) : Prop :=
  (bits.Pairwise (· < ·) ∧ ∀ b ∈ bits, b < 16 ∧ next % 16 ≤ b) ∧
    ∀ j, s.Live j → next ≤ j → j / 16 = next / 16 → j % 16 ∈ bits

/-- The load of a group. -/
theorem group_occupiedMask (hs : s.WellFormed) (hi : i < s.capacity) :
    s.Group i ((s.occupiedMask simd (i - i % 16)).filter (i % 16 ≤ ·)) := by
  have hm := hs.mod
  have hb : i - i % 16 + 16 ≤ s.capacity := by omega
  refine ⟨⟨(List.pairwise_lt_range.filter _).filter _, fun b hmem => ?_⟩, fun j hl hij hj => ?_⟩
  · rw [List.mem_filter, decide_eq_true_eq, Slots.occupiedMask, List.mem_filter, List.mem_range] at hmem
    exact ⟨hmem.1.1, hmem.2⟩
  · rw [List.mem_filter, decide_eq_true_eq, Slots.occupiedMask, List.mem_filter, List.mem_range]
    refine ⟨⟨Nat.mod_lt _ (by decide), (mem_occupiedMask simd hs hb (Nat.mod_lt _ (by decide))).mpr ?_⟩, by omega⟩
    rwa [show i - i % 16 + j % 16 = j by omega]

/-- The step from a group that is kept: its first slot, a search where that slot is stale, or a search in the
next groups. -/
theorem group_step (hs : s.WellFormed) {bits : List ℕ} (hi : i < s.capacity) (hg : s.Group i bits) :
    s.IsNext i (s.takeBit simd (i - i % 16) bits).index ∧ s.Cached (s.takeBit simd (i - i % 16) bits) := by
  have hm := hs.mod
  obtain ⟨⟨hsort, hbound⟩, hlive⟩ := hg
  cases bits with
  | nil =>
      obtain ⟨h1, h2, h3⟩ := findOccupied_spec simd hs (i := i - i % 16 + htGroup) (by rw [htGroup]; omega)
      rw [htGroup] at h1 h3
      refine ⟨⟨by simp only [Slots.takeBit, htGroup]; omega, h2, fun j hij hj hl => ?_⟩, cached_none _⟩
      rcases Nat.lt_or_ge j (i - i % 16 + 16) with hlt | hge
      · have := hlive j hl hij (by omega)
        cases this
      · exact h3 j hge hj hl
  | cons b bits =>
      obtain ⟨hb16, hge⟩ := hbound b List.mem_cons_self
      -- a live slot from `i` on is not before the slot of `b`
      have hnot : ∀ j, i ≤ j → j < i - i % 16 + b → ¬ s.Live j := by
        intro j hij hj hl
        have hmem := hlive j hl hij (by omega)
        rcases List.mem_cons.mp hmem with he | hmem
        · omega
        · have := (List.pairwise_cons.mp hsort).1 _ hmem
          omega
      rw [Slots.takeBit]
      split
      · obtain ⟨h1, h2, h3⟩ := findOccupied_spec simd hs (i := i - i % 16 + b) (by omega)
        refine ⟨⟨by simp only; omega, h2, fun j hij hj => ?_⟩, cached_none _⟩
        rcases Nat.lt_or_ge j (i - i % 16 + b) with hlt | hge'
        · exact hnot j hij hlt
        · exact h3 j hge' hj
      · rename_i hc
        rw [not_or, Bool.not_eq_true', Bool.not_eq_false] at hc
        refine ⟨⟨by simp only; omega, Or.inr ⟨by simp only; omega, hc.2⟩, hnot⟩, ?_⟩
        intro bits' e
        obtain rfl := Option.some.inj e
        refine ⟨⟨(List.pairwise_cons.mp hsort).2, fun b' hb' => ?_⟩, fun j hl hij hj => ?_⟩
        · have := (List.pairwise_cons.mp hsort).1 b' hb'
          have := (hbound b' (List.mem_cons_of_mem _ hb')).1
          simp only
          omega
        · simp only at hij hj
          rcases List.mem_cons.mp (hlive j hl (by omega) (by omega)) with he | hmem
          · omega
          · exact hmem

/-- **`++it` goes to the next live slot.** -/
theorem increment_spec (hs : s.WellFormed) {it : Iterator} (hi : it.index < s.capacity) (hc : s.Cached it) :
    s.IsNext (it.index + 1) (s.increment simd it).index ∧ s.Cached (s.increment simd it) := by
  have hm := hs.mod
  unfold Slots.increment
  simp only [and_group]
  by_cases hload : it.mask = none ∨ (it.index + 1) % 16 = 0
  · rw [if_pos hload]
    by_cases hend : s.capacity ≤ it.index + 1
    · rw [if_pos hend]
      exact ⟨⟨by simp only; omega, Or.inl rfl, fun j h1 h2 => by simp only at h2; omega⟩, cached_none _⟩
    · rw [if_neg hend]
      exact group_step simd hs (by omega) (group_occupiedMask simd hs (by omega))
  · rw [if_neg hload]
    rw [not_or] at hload
    obtain ⟨bits, hbits⟩ := Option.ne_none_iff_exists'.mp hload.1
    obtain ⟨⟨hsort, hbound⟩, hlive⟩ := hc bits hbits
    rw [hbits]
    refine group_step simd hs (by omega) ⟨⟨hsort, fun b hb => ?_⟩, fun j hl hij hj => ?_⟩
    · have := hbound b hb
      omega
    · exact hlive j hl (by omega) (by omega)

end

/-! ### Removing an element -/

section

variable {s : Slots V} {i j : ℕ}

theorem live_eraseSlot : (s.eraseSlot i).Live j ↔ s.Live j ∧ j ≠ i := by
  simp only [Slots.Live, Slots.eraseSlot]
  by_cases h : j = i
  · subst h
    simp [isTaken, htDeleted, htEmpty]
  · rw [Function.update_of_ne h]
    simp [h]

theorem Slots.WellFormed.eraseSlot (hs : s.WellFormed) (i : ℕ) : (s.eraseSlot i).WellFormed := by
  refine ⟨hs.capacity, fun j hj => ?_, fun j hj => ?_⟩
  · by_cases h : j = i
    · subst h
      simp [Slots.eraseSlot]
    · simp only [Slots.eraseSlot, Function.update_of_ne h]
      exact hs.byte j hj
  · by_cases h : j = i
    · subst h
      simp [Slots.eraseSlot, isTaken, htDeleted, htEmpty]
    · simp only [Slots.eraseSlot, Function.update_of_ne h]
      exact hs.object j hj

theorem Slots.WellFormed.allocate {capacity : ℕ} (h : capacity = 0 ∨ ∃ k, 4 ≤ k ∧ capacity = 2 ^ k) :
    (Slots.allocate capacity : Slots V).WellFormed :=
  ⟨h, fun _ _ => Or.inr (Or.inl rfl), fun _ _ => rfl⟩

theorem Slots.WellFormed.construct (hs : s.WellFormed) (i : ℕ) (v : V) {h2 : ℕ} (h : h2 < htEmpty) :
    (s.construct i v h2).WellFormed := by
  refine ⟨hs.capacity, fun j hj => ?_, fun j hj => ?_⟩
  · by_cases e : j = i
    · subst e
      simp [Slots.construct, isTaken, h]
    · simp only [Slots.construct, Function.update_of_ne e]
      exact hs.byte j hj
  · by_cases e : j = i
    · subst e
      simp [Slots.construct, isTaken, h]
    · simp only [Slots.construct, Function.update_of_ne e]
      exact hs.object j hj

/-- `erase(position)` removes the element of a live slot, and nothing else. -/
theorem eraseAt_cases {t : Table V} (hs : t.slots.WellFormed) (simd : Bool) (i : ℕ) :
    ((t.eraseAt simd i).1 = t ∧ ¬ t.slots.Live i) ∨
      ((t.eraseAt simd i).1.slots = t.slots.eraseSlot i ∧ t.slots.Live i) := by
  unfold Table.eraseAt
  split
  · exact Or.inl ⟨rfl, fun h => absurd h.1 (by omega)⟩
  · rename_i hlt
    split
    · rename_i hb
      refine Or.inl ⟨rfl, fun h => ?_⟩
      have ht := h.2
      obtain hb | hb := hb
      · rw [hb] at ht
        cases ht
      · rw [hb] at ht
        cases ht
    · rename_i hb
      rw [not_or] at hb
      refine Or.inr ⟨rfl, by omega, ?_⟩
      obtain h | h | h := hs.byte i (by omega)
      · exact h
      · exact absurd h hb.1
      · exact absurd h hb.2

theorem live_eraseAt {t : Table V} (hs : t.slots.WellFormed) (simd : Bool) (i j : ℕ) :
    (t.eraseAt simd i).1.slots.Live j ↔ t.slots.Live j ∧ j ≠ i := by
  obtain ⟨h, hn⟩ | ⟨h, _⟩ := eraseAt_cases hs simd i
  · rw [h]
    exact ⟨fun hl => ⟨hl, fun e => hn (e ▸ hl)⟩, fun hl => hl.1⟩
  · rw [h, live_eraseSlot]

theorem eraseAt_wellFormed {t : Table V} (hs : t.slots.WellFormed) (simd : Bool) (i : ℕ) :
    (t.eraseAt simd i).1.slots.WellFormed ∧ (t.eraseAt simd i).1.slots.capacity = t.slots.capacity := by
  obtain ⟨h, _⟩ | ⟨h, _⟩ := eraseAt_cases hs simd i
  · rw [h]
    exact ⟨hs, rfl⟩
  · rw [h]
    exact ⟨hs.eraseSlot i, rfl⟩

/-- The other elements stay where they are. -/
theorem data_eraseAt {t : Table V} (hs : t.slots.WellFormed) (simd : Bool) (h : j ≠ i) :
    (t.eraseAt simd i).1.slots.data j = t.slots.data j := by
  obtain ⟨e, _⟩ | ⟨e, _⟩ := eraseAt_cases hs simd i
  · rw [e]
  · rw [e, Slots.eraseSlot]
    exact Function.update_of_ne h _ _

end

/-! ### Walks -/

/-- A walk in progress, and the slots it has dereferenced. -/
structure Walk (V : Type) where
  table : Table V
  it : Iterator
  visited : List ℕ

/-- What may happen during a walk: `++it`, and the removal of the element of a slot. -/
inductive WalkOp
  | next
  | erase (i : ℕ)
deriving DecidableEq

namespace Walk

/-- The slot the iterator is dereferenced at, if it is not the end. -/
def visit (s : Slots V) (it : Iterator) : List ℕ := if it.index = s.capacity then [] else [it.index]

def start (t : Table V) : Walk V := ⟨t, t.slots.begin, visit t.slots t.slots.begin⟩

def advance (w : Walk V) (simd : Bool) : Walk V :=
  let it := w.table.slots.increment simd w.it
  { w with it := it, visited := w.visited ++ visit w.table.slots it }

/-- The iterator moves on until it is the end, and any element but its own may be removed. -/
inductive Step (simd : Bool) : Walk V → WalkOp → Walk V → Prop
  | next {w : Walk V} : w.it.index ≠ w.table.slots.capacity → Step simd w .next (w.advance simd)
  | erase {w : Walk V} {i : ℕ} : i ≠ w.it.index →
      Step simd w (.erase i) { w with table := (w.table.eraseAt simd i).1 }

/-- The invariant of a walk over the table `t`. -/
structure Inv (t : Table V) (ls : List WalkOp) (w : Walk V) : Prop where
  wellFormed : w.table.slots.WellFormed
  capacity : w.table.slots.capacity = t.slots.capacity
  atLive : w.it.index = w.table.slots.capacity ∨ w.table.slots.Live w.it.index
  cached : w.table.slots.Cached w.it
  sorted : w.visited.Pairwise (· < ·)
  behind : ∀ j ∈ w.visited, j ≤ w.it.index ∧ t.slots.Live j
  here : ∀ j ∈ w.visited, j = w.it.index → w.it.index ≠ w.table.slots.capacity
  seen : ∀ j, w.table.slots.Live j → j ≤ w.it.index → j ∈ w.visited
  stays : ∀ j, w.table.slots.Live j → t.slots.Live j ∧ w.table.slots.data j = t.slots.data j
  count : ls.count .next ≤ w.it.index

end Walk

theorem beginLoop_spec {s : Slots V} (hs : s.WellFormed) {k n : ℕ} (h : n + k = s.capacity) :
    s.IsNext n (s.beginLoop k n).index ∧ (s.beginLoop k n).mask = none := by
  induction k generalizing n with
  | zero =>
      obtain rfl : n = s.capacity := by omega
      exact ⟨⟨le_rfl, Or.inl rfl, fun j h1 h2 => by rw [Slots.beginLoop] at h2; simp only at h2; omega⟩, rfl⟩
  | succ k ih =>
      have hn := hs.byte n (by omega)
      rw [Slots.beginLoop]
      split
      · rename_i hb
        refine ⟨⟨le_rfl, Or.inr ⟨by simp only; omega, ?_⟩, fun j h1 h2 => by simp only at h2; omega⟩, rfl⟩
        obtain h | h | h := hn
        · exact h
        · exact absurd h hb.1
        · exact absurd h hb.2
      · rename_i hb
        obtain ⟨⟨h1, h2, h3⟩, hm⟩ := ih (n := n + 1) (by omega)
        refine ⟨⟨by omega, h2, fun j hj hjr hl => ?_⟩, hm⟩
        rcases Nat.lt_or_ge n j with hlt | hge
        · exact h3 j hlt hjr hl
        · obtain rfl : j = n := by omega
          have ht := hl.2
          by_cases he : s.metadata j = htEmpty
          · rw [he] at ht
            cases ht
          · rw [not_and, not_not] at hb
            rw [hb he] at ht
            cases ht

namespace Walk

variable {t : Table V} {ls : List WalkOp} {w w' : Walk V} {simd : Bool}

theorem Inv.le (h : Inv t ls w) : w.it.index ≤ w.table.slots.capacity := by
  obtain h | h := h.atLive
  · exact h.le
  · exact h.1.le

theorem inv_start (hs : t.slots.WellFormed) : Inv t [] (start t) := by
  obtain ⟨⟨_, h2, h3⟩, hm⟩ := beginLoop_spec hs (k := t.slots.capacity) (n := 0) (by omega)
  have hvis : ∀ j ∈ visit t.slots t.slots.begin, j = t.slots.begin.index ∧ t.slots.begin.index ≠ t.slots.capacity := by
    intro j hj
    rw [visit] at hj
    split at hj
    · cases hj
    · rename_i hne
      exact ⟨List.mem_singleton.mp hj, hne⟩
  have hlive : t.slots.begin.index ≠ t.slots.capacity → t.slots.Live t.slots.begin.index := h2.resolve_left
  refine ⟨hs, rfl, h2, fun bits e => ?_, ?_, fun j hj => ?_, fun j hj _ => (hvis j hj).2, fun j hl hj => ?_,
    fun j hl => ⟨hl, rfl⟩, Nat.zero_le _⟩
  · have hm' : t.slots.begin.mask = none := hm
    rw [start, hm'] at e
    cases e
  · rw [start, visit]
    split
    · exact List.Pairwise.nil
    · exact List.pairwise_singleton _ _
  · obtain ⟨rfl, hne⟩ := hvis j hj
    exact ⟨le_rfl, hlive hne⟩
  · have hj' : j = t.slots.begin.index := by
      by_contra hne
      have hlt : j < t.slots.begin.index := lt_of_le_of_ne hj hne
      exact h3 j (Nat.zero_le j) hlt hl
    have hne : t.slots.begin.index ≠ t.slots.capacity := by
      have hlt : j < t.slots.capacity := hl.1
      omega
    rw [start, visit, if_neg hne, hj']
    exact List.mem_singleton_self _

theorem Inv.next (h : Inv t ls w) (hne : w.it.index ≠ w.table.slots.capacity) (simd : Bool) :
    Inv t (ls ++ [.next]) (w.advance simd) := by
  have hlt : w.it.index < w.table.slots.capacity := lt_of_le_of_ne h.le hne
  obtain ⟨⟨h1, h2, h3⟩, hc⟩ := increment_spec simd h.wellFormed hlt h.cached
  have hlive := h2.resolve_left
  have hvis : ∀ j ∈ visit w.table.slots (w.table.slots.increment simd w.it),
      j = (w.table.slots.increment simd w.it).index ∧
        (w.table.slots.increment simd w.it).index ≠ w.table.slots.capacity := by
    intro j hj
    rw [visit] at hj
    split at hj
    · cases hj
    · rename_i hne'
      exact ⟨List.mem_singleton.mp hj, hne'⟩
  refine ⟨h.wellFormed, h.capacity, h2, hc, ?_, fun j hj => ?_, fun j hj e => ?_, fun j hl hj => ?_, h.stays, ?_⟩
  · refine List.pairwise_append.mpr ⟨h.sorted, ?_, fun a ha b hb => ?_⟩
    · rw [visit]
      split
      · exact List.Pairwise.nil
      · exact List.pairwise_singleton _ _
    · have := (h.behind a ha).1
      have := (hvis b hb).1
      omega
  · rw [advance] at hj ⊢
    rcases List.mem_append.mp hj with hj | hj
    · obtain ⟨hle, hl⟩ := h.behind j hj
      exact ⟨by simp only; omega, hl⟩
    · obtain ⟨rfl, hne'⟩ := hvis j hj
      exact ⟨le_rfl, (h.stays _ (hlive hne')).1⟩
  · rw [advance] at hj e ⊢
    rcases List.mem_append.mp hj with hj | hj
    · have := (h.behind j hj).1
      simp only at e
      omega
    · exact (hvis j hj).2
  · rw [advance] at hj ⊢
    rw [List.mem_append]
    rcases Nat.lt_or_ge w.it.index j with hlt' | hge
    · have hj' : j = (w.table.slots.increment simd w.it).index := by
        by_contra hne'
        exact h3 j hlt' (lt_of_le_of_ne hj hne') hl
      have hne' : (w.table.slots.increment simd w.it).index ≠ w.table.slots.capacity := by
        have hlt : j < w.table.slots.capacity := hl.1
        omega
      rw [visit, if_neg hne', hj']
      exact Or.inr (List.mem_singleton_self _)
    · exact Or.inl (h.seen j hl hge)
  · have := h.count
    rw [List.count_append, List.count_singleton_self, advance]
    simp only
    omega

theorem Inv.erase (h : Inv t ls w) {i : ℕ} (hi : i ≠ w.it.index) (simd : Bool) :
    Inv t (ls ++ [.erase i]) { w with table := (w.table.eraseAt simd i).1 } := by
  obtain ⟨hwf, hcap⟩ := eraseAt_wellFormed h.wellFormed simd i
  have hl := live_eraseAt h.wellFormed simd i
  refine ⟨hwf, hcap.trans h.capacity, ?_, fun bits e => ?_, h.sorted, h.behind, ?_, fun j hj => h.seen j ((hl j).mp hj).1,
    fun j hj => ?_, ?_⟩
  · rw [hcap]
    exact h.atLive.imp_right fun h' => (hl _).mpr ⟨h', hi.symm⟩
  · obtain ⟨h1, h2⟩ := h.cached bits e
    exact ⟨h1, fun j hj => h2 j ((hl j).mp hj).1⟩
  · rw [hcap]
    exact h.here
  · obtain ⟨hj, hne⟩ := (hl j).mp hj
    rw [data_eraseAt h.wellFormed simd hne]
    exact h.stays j hj
  · have := h.count
    simpa using this

theorem run_inv (hs : t.slots.WellFormed) (hr : Run (Step simd) (start t) ls w) : Inv t ls w := by
  refine hr.history (inv_start hs) fun hi hst => ?_
  cases hst with
  | next hne => exact hi.next hne simd
  | erase hne => exact hi.erase hne simd

/-- **A walk with removals is complete.**  Whatever other elements are removed on the way, the iterator is at
the end or at an element whenever it is dereferenced; it visits no slot twice and only slots of elements; it moves
on at most `capacity` times; and when it is at the end it has visited every element that is still there, that is,
that stayed throughout. -/
theorem walk_complete (hs : t.slots.WellFormed) (hr : Run (Step simd) (start t) ls w) :
    (w.it.index = w.table.slots.capacity ∨
      w.table.slots.Live w.it.index ∧ (w.table.slots.dereference w.it).isSome) ∧
    w.visited.Nodup ∧ (∀ j ∈ w.visited, t.slots.Live j) ∧
    (ls.count .next ≤ w.it.index ∧ w.it.index ≤ t.slots.capacity) ∧
    (w.it.index = w.table.slots.capacity → ∀ j, w.table.slots.Live j → j ∈ w.visited) ∧
    ∀ j, w.table.slots.Live j → t.slots.Live j ∧ w.table.slots.data j = t.slots.data j := by
  have h := run_inv hs hr
  refine ⟨h.atLive.imp_right fun hl => ⟨hl, ?_⟩, h.sorted.imp fun hlt => Nat.ne_of_lt hlt, fun j hj => (h.behind j hj).2,
    ⟨h.count, h.capacity ▸ h.le⟩, fun he j hl => h.seen j hl ?_, h.stays⟩
  · rw [Slots.dereference, if_pos hl.1, h.wellFormed.object _ hl.1]
    exact hl.2
  · have := hl.1
    omega

/-- Three elements of one group. -/
def sample : Table ℕ :=
  ⟨(((Slots.allocate 16).construct 2 20 5).construct 3 30 6).construct 7 70 7, 3, 14, 0, 7 / 8, 1⟩

/-- The element of slot 7 is removed while the iterator, at slot 3, keeps it. -/
theorem walk_complete_sample : ∃ w, Run (Step true) (start sample) [.next, .erase 7, .next] w ∧
    w.visited.Nodup ∧ (w.it.index = w.table.slots.capacity ∨
      w.table.slots.Live w.it.index ∧ (w.table.slots.dereference w.it).isSome) := by
  have hs : sample.slots.WellFormed :=
    (((Slots.WellFormed.allocate (Or.inr ⟨4, le_rfl, rfl⟩)).construct 2 20 (by decide)).construct 3 30
      (by decide)).construct 7 70 (by decide)
  have hr : Run (Step true) (start sample) [.next, .erase 7, .next] _ :=
    .cons (.next (by decide)) (.cons (.erase (by decide)) (.cons (.next (by decide)) (.nil _)))
  obtain ⟨h1, h2, _⟩ := walk_complete hs hr
  exact ⟨_, hr, h2, h1⟩

end Walk

end NeForce.Flat
