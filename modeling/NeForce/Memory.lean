import Mathlib.Data.Finset.Card
import Mathlib.Data.Finset.Range
import Mathlib.Order.Interval.Finset.Nat

/-! # A memory of typed cells

Memory is a partial map from addresses to cells of one type; address `0` is the null pointer.
Reading or updating an address that is not allocated has no result, so a computation over
`Mem N` that yields `some` has dereferenced allocated cells only.  `alloc` hands out addresses
that were never used before, `free` returns a run of cells and fails if one of them is not
allocated. -/

namespace NeForce

structure Mem (N : Type) where
  cell : ℕ → Option N
  /-- The first address never handed out. -/
  next : ℕ

namespace Mem

variable {N : Type}

def load (m : Mem N) (a : ℕ) : Option N := m.cell a

def set (m : Mem N) (a : ℕ) (n : N) : Mem N :=
  { m with cell := fun b => if b = a then some n else m.cell b }

/-- Apply `f` to an allocated cell. -/
def update (m : Mem N) (a : ℕ) (f : N → N) : Option (Mem N) :=
  (m.load a).map fun n => m.set a (f n)

/-- Allocate `k` cells with contents `n`, at consecutive addresses. -/
def alloc (m : Mem N) (k : ℕ) (n : N) : ℕ × Mem N :=
  (m.next, ⟨fun b => if m.next ≤ b ∧ b < m.next + k then some n else m.cell b, m.next + k⟩)

/-- Free the `k` cells from `a` on. -/
def free (m : Mem N) (a : ℕ) (k : ℕ) : Option (Mem N) :=
  if (List.range k).all (fun i => (m.load (a + i)).isSome) then
    some ⟨fun b => if a ≤ b ∧ b < a + k then none else m.cell b, m.next⟩
  else none

def empty : Mem N := ⟨fun _ => none, 1⟩

@[simp] theorem load_set (m : Mem N) (a b : ℕ) (n : N) :
    (m.set a n).load b = if b = a then some n else m.load b := rfl

@[simp] theorem next_set (m : Mem N) (a : ℕ) (n : N) : (m.set a n).next = m.next := rfl

theorem update_eq {m : Mem N} {a : ℕ} {n : N} (h : m.load a = some n) (f : N → N) :
    m.update a f = some (m.set a (f n)) := by
  simp [update, h]

@[simp] theorem load_alloc (m : Mem N) (k : ℕ) (n : N) (b : ℕ) :
    (m.alloc k n).2.load b = if m.next ≤ b ∧ b < m.next + k then some n else m.load b := rfl

@[simp] theorem next_alloc (m : Mem N) (k : ℕ) (n : N) : (m.alloc k n).2.next = m.next + k := rfl

@[simp] theorem fst_alloc (m : Mem N) (k : ℕ) (n : N) : (m.alloc k n).1 = m.next := rfl

theorem free_eq {m : Mem N} {a : ℕ} {k : ℕ} (h : ∀ i < k, ∃ n, m.load (a + i) = some n) :
    ∃ m', m.free a k = some m' ∧ m'.next = m.next ∧
      ∀ b, m'.load b = if a ≤ b ∧ b < a + k then none else m.load b := by
  refine ⟨_, if_pos ?_, rfl, fun b => rfl⟩
  rw [List.all_eq_true]
  intro i hi
  obtain ⟨n, hn⟩ := h i (List.mem_range.mp hi)
  simp [hn]

/-- Null is not allocated, and neither is any address still to be handed out. -/
structure Ok (m : Mem N) : Prop where
  null : m.load 0 = none
  fresh : ∀ a, m.next ≤ a → m.load a = none
  pos : 0 < m.next

theorem empty_ok : (empty : Mem N).Ok := ⟨rfl, fun _ _ => rfl, Nat.one_pos⟩

namespace Ok

variable {m m' : Mem N}

theorem ne_zero (hm : m.Ok) {a : ℕ} {n : N} (h : m.load a = some n) : a ≠ 0 := by
  rintro rfl
  rw [hm.null] at h
  cases h

theorem lt_next (hm : m.Ok) {a : ℕ} {n : N} (h : m.load a = some n) : a < m.next := by
  by_contra hlt
  rw [hm.fresh a (by omega)] at h
  cases h

/-- A memory with the same allocated cells is as good. -/
theorem of_isSome (hm : m.Ok) (h : ∀ a, (m'.load a).isSome = (m.load a).isSome)
    (hn : m'.next = m.next) : m'.Ok where
  null := by
    have := h 0
    rw [hm.null] at this
    simpa using this
  fresh a ha := by
    have := h a
    rw [hm.fresh a (by omega)] at this
    simpa using this
  pos := by rw [hn]; exact hm.pos

theorem alloc (hm : m.Ok) (k : ℕ) (n : N) : (m.alloc k n).2.Ok where
  null := by
    have := hm.pos
    rw [load_alloc, if_neg (by omega)]
    exact hm.null
  fresh a ha := by
    rw [next_alloc] at ha
    rw [load_alloc, if_neg (by omega)]
    exact hm.fresh a (by omega)
  pos := by
    have := hm.pos
    rw [next_alloc]
    omega

/-- A duplicate-free list of allocated addresses is shorter than `next`. -/
theorem length_lt (hm : m.Ok) {l : List ℕ} (hd : l.Nodup)
    (h : ∀ a ∈ l, (m.load a).isSome) : l.length < m.next := by
  have hsub : l.toFinset ⊆ Finset.Ico 1 m.next := by
    intro a ha
    obtain ⟨n, hn⟩ := Option.isSome_iff_exists.mp (h a (List.mem_toFinset.mp ha))
    rw [Finset.mem_Ico]
    exact ⟨Nat.one_le_iff_ne_zero.mpr (hm.ne_zero hn), hm.lt_next hn⟩
  have hcard := Finset.card_le_card hsub
  rw [List.toFinset_card_of_nodup hd, Nat.card_Ico] at hcard
  have := hm.pos
  omega

end Ok

end Mem
end NeForce
