import Mathlib.Data.List.Basic
import Mathlib.Tactic.Common

/-! # The arena of a document

Memory is handed out from the end of the current chunk, and the last piece may be made longer.  A pointer is a chunk and
an offset into it; the chunks are counted from 1 on in the order they were made.  A list of blocks says what was handed
out, and to which container.  All blocks lie below what is still free and no two of them share a byte
(`Arena.Holds`). -/

namespace NeForce.Json

/-- An address. -/
structure Pointer where
  chunk : ℕ
  offset : ℕ
deriving DecidableEq

def Pointer.add (p : Pointer) (n : ℕ) : Pointer where
  chunk := p.chunk
  offset := p.offset + n

/-- `q` is one of the `n` bytes from `p` on. -/
def Pointer.Covers (p : Pointer) (n : ℕ) (q : Pointer) : Prop :=
  q.chunk = p.chunk ∧ p.offset ≤ q.offset ∧ q.offset < p.offset + n

instance (p : Pointer) (n : ℕ) (q : Pointer) : Decidable (p.Covers n q) := inferInstanceAs (Decidable (_ ∧ _ ∧ _))

/-! ### The arena -/

/-- `json_arena`, with the number of its current chunk. -/
structure Arena where
  current : ℕ := 0
  used : ℕ := 0
  capacity : ℕ := 0

def chunkSize : ℕ := 64 * 1024

def align8 (bytes : ℕ) : ℕ := bytes + 7 - (bytes + 7) % 8

def Arena.growCapacity (a : Arena) (capacity : ℕ) : Arena where
  current := a.current + 1
  used := 0
  capacity := capacity

def Arena.grow (a : Arena) (bytes : ℕ) : Arena := a.growCapacity (if chunkSize < bytes then bytes else chunkSize)

def Arena.allocate (a : Arena) (count size : ℕ) : Option Pointer × Arena :=
  let bytes := count * size
  if bytes = 0 then (none, a)
  else
    let aligned := align8 bytes
    let a := if a.current = 0 ∨ a.capacity < a.used + aligned then a.grow aligned else a
    (some ⟨a.current, a.used⟩, { a with used := a.used + aligned })

/-- The arena with a longer last allocation; `none` where the source returns false. -/
def Arena.tryExtend (a : Arena) (pointer : Option Pointer) (oldBytes newBytes : ℕ) : Option Arena :=
  match pointer with
  | none => none
  | some p =>
      if a.current = 0 then none
      else if p.add (align8 oldBytes) ≠ ⟨a.current, a.used⟩ ∨
          a.capacity < a.used - align8 oldBytes + align8 newBytes then none
      else some { a with used := a.used - align8 oldBytes + align8 newBytes }

/-! ### Blocks -/

/-- An allocation, and the container that it was made for; strings have none. -/
structure Block where
  owner : Option ℕ
  start : Pointer
  length : ℕ

def Block.Covers (b : Block) (q : Pointer) : Prop := b.start.Covers b.length q

/-- The `n` bytes from `p` on are in the block. -/
structure Block.Spans (b : Block) (p : Pointer) (n : ℕ) : Prop where
  chunk : p.chunk = b.start.chunk
  start : b.start.offset ≤ p.offset
  stop : p.offset + n ≤ b.start.offset + b.length

/-- The block is as long as `n` bytes from `p` on need. -/
def Block.extend (b : Block) (p : Pointer) (n : ℕ) : Block := { b with length := p.offset + n - b.start.offset }

/-- The block lies before the free bytes of the arena. -/
def Arena.Below (a : Arena) (b : Block) : Prop :=
  b.start.chunk < a.current ∨ b.start.chunk = a.current ∧ b.start.offset + b.length ≤ a.used

structure Arena.Holds (a : Arena) (blocks : List Block) : Prop where
  below : ∀ b ∈ blocks, a.Below b
  disjoint : ∀ {i j : ℕ} {b b' : Block} {q : Pointer}, blocks[i]? = some b → blocks[j]? = some b' → b.Covers q →
    b'.Covers q → i = j

variable {a a' : Arena} {blocks : List Block} {b : Block} {p q : Pointer} {i j n k count size : ℕ}

theorem align8_ge (n : ℕ) : n ≤ align8 n := by
  unfold align8
  omega

theorem align8_of_dvd (h : 8 ∣ n) : align8 n = n := by
  unfold align8
  omega

theorem Block.Spans.covers (h : b.Spans p n) (hk : k < n) : b.Covers (p.add k) := by
  obtain ⟨hchunk, hstart, hstop⟩ := h
  exact ⟨hchunk, by simp only [Pointer.add]; omega, by simp only [Pointer.add]; omega⟩

theorem Arena.Below.not_covers (h : a.Below b) (hq : q.chunk = a.current) (hused : a.used ≤ q.offset) : ¬b.Covers q := by
  intro hcovers
  obtain ⟨hchunk, -, hlt⟩ := hcovers
  rcases h with h | ⟨-, h⟩ <;> omega

/-- One more block at the end. -/
theorem Arena.Holds.append (h : a.Holds blocks) (hbelow : ∀ b ∈ blocks, a'.Below b) (hnew : a'.Below b)
    (hfresh : ∀ b' ∈ blocks, ∀ q, b.Covers q → ¬b'.Covers q) : a'.Holds (blocks ++ [b]) := by
  refine ⟨fun b' hb' => ?_, fun {i j c c' q} hi hj hc hc' => ?_⟩
  · rcases List.mem_append.mp hb' with hb' | hb'
    · exact hbelow b' hb'
    · rw [List.mem_singleton.mp hb']
      exact hnew
  · have hcases {i : ℕ} {c : Block} (hi : (blocks ++ [b])[i]? = some c) :
        blocks[i]? = some c ∨ i = blocks.length ∧ c = b := by
      rcases Nat.lt_trichotomy i blocks.length with hlt | rfl | hgt
      · rw [List.getElem?_append_left hlt] at hi
        exact .inl hi
      · rw [List.getElem?_concat_length] at hi
        exact .inr ⟨rfl, (Option.some.inj hi).symm⟩
      · rw [List.getElem?_eq_none (by simp; omega)] at hi
        cases hi
    rcases hcases hi with hold | ⟨rfl, rfl⟩ <;> rcases hcases hj with hold' | ⟨rfl, rfl⟩
    · exact h.disjoint hold hold' hc hc'
    · exact absurd hc (hfresh c (List.mem_of_getElem? hold) q hc')
    · exact absurd hc' (hfresh c' (List.mem_of_getElem? hold') q hc)
    · rfl

theorem Arena.allocate_holds (h : a.Holds blocks) (owner : Option ℕ) (hne : count * size ≠ 0) :
    ∃ p a', a.allocate count size = (some p, a') ∧ a'.Holds (blocks ++ [⟨owner, p, align8 (count * size)⟩]) := by
  have hpos : 0 < align8 (count * size) := Nat.lt_of_lt_of_le (Nat.pos_of_ne_zero hne) (align8_ge _)
  unfold Arena.allocate
  dsimp only
  rw [if_neg hne]
  refine ⟨_, _, rfl, ?_⟩
  split
  · -- a new chunk
    refine h.append (fun b hb => .inl ?_) (.inr ⟨rfl, Nat.le_refl _⟩) fun b hb q hq hq' => ?_
    · change _ < a.current + 1
      rcases h.below b hb with h | ⟨h, -⟩ <;> omega
    · have hchunk : b.start.chunk = a.current + 1 := hq'.1.symm.trans hq.1
      rcases h.below b hb with h | ⟨h, -⟩ <;> omega
  · refine h.append (fun b hb => ?_) (.inr ⟨rfl, Nat.le_refl _⟩) fun b hb q hq => (h.below b hb).not_covers hq.1 hq.2.1
    rcases h.below b hb with h | ⟨hc, h⟩
    · exact .inl h
    · exact .inr ⟨hc, Nat.le_add_right_of_le h⟩

/-- The last block of the chunk, longer in place. -/
theorem Arena.tryExtend_holds {old new : ℕ} (h : a.Holds blocks) (hb : blocks[i]? = some b) (hp : b.Spans p old)
    (hold : 8 ∣ old) (hnew : 8 ∣ new) (hle : old ≤ new) (hextend : a.tryExtend (some p) old new = some a') :
    a'.Holds (blocks.set i (b.extend p new)) ∧ b.length ≤ (b.extend p new).length ∧ (b.extend p new).Spans p new := by
  obtain ⟨hchunk, hstart, hstop⟩ := hp
  simp only [Arena.tryExtend, align8_of_dvd hold, align8_of_dvd hnew] at hextend
  split at hextend
  · cases hextend
  · split at hextend
    · cases hextend
    · next htail =>
      cases hextend
      obtain ⟨htail, -⟩ := not_or.mp htail
      obtain ⟨hcurrent, hused⟩ := Pointer.mk.inj (not_not.mp htail)
      have hbelow := h.below b (List.mem_of_getElem? hb)
      have hlast : b.start.offset + b.length = a.used := by
        rcases hbelow with hbelow | ⟨-, hbelow⟩ <;> omega
      have hlength : (b.extend p new).length = p.offset + new - b.start.offset := rfl
      have hextended : b.start.offset + (b.extend p new).length = a.used - old + new := by omega
      have hi : i < blocks.length := (List.getElem?_eq_some_iff.mp hb).1
      have hstop' : p.offset + new ≤ (b.extend p new).start.offset + (b.extend p new).length := by
        change _ ≤ b.start.offset + _
        omega
      refine ⟨⟨fun c hc => ?_, fun {j k c c' q} hj hk hc hc' => ?_⟩, by omega, hchunk, hstart, hstop'⟩
      · rcases List.mem_or_eq_of_mem_set hc with hc | rfl
        · rcases h.below c hc with h | ⟨hcc, h⟩
          · exact .inl h
          · refine .inr ⟨hcc, ?_⟩
            change _ ≤ a.used - old + new
            omega
        · exact .inr ⟨hchunk.symm.trans hcurrent, Nat.le_of_eq hextended⟩
      · -- a byte of the longer block is one of the shorter one, or was free
        have hcovers {j : ℕ} {c : Block} (hj : (blocks.set i (b.extend p new))[j]? = some c) (hc : c.Covers q) :
            j = i ∧ (b.Covers q ∨ q.chunk = a.current ∧ a.used ≤ q.offset) ∨ blocks[j]? = some c := by
          by_cases hji : i = j
          · subst hji
            rw [List.getElem?_set_self hi] at hj
            cases hj
            obtain ⟨hq, hqstart, hqstop⟩ := hc
            refine .inl ⟨rfl, ?_⟩
            by_cases hlt : q.offset < a.used
            · exact .inl ⟨hq, hqstart, by omega⟩
            · refine .inr ⟨?_, Nat.not_lt.mp hlt⟩
              exact hq.trans (hchunk.symm.trans hcurrent)
          · rw [List.getElem?_set_ne hji] at hj
            exact .inr hj
        have hother {j : ℕ} {c : Block} (hj : blocks[j]? = some c) (hc : c.Covers q)
            (hq : b.Covers q ∨ q.chunk = a.current ∧ a.used ≤ q.offset) : j = i := by
          rcases hq with hq | hq
          · exact h.disjoint hj hb hc hq
          · exact absurd hc ((h.below c (List.mem_of_getElem? hj)).not_covers hq.1 hq.2)
        rcases hcovers hj hc with ⟨hji, hq⟩ | hold <;> rcases hcovers hk hc' with ⟨hki, hq'⟩ | hold'
        · rw [hji, hki]
        · rw [hji, hother hold' hc' hq]
        · rw [hki, hother hold hc hq']
        · exact h.disjoint hold hold' hc hc'

end NeForce.Json
