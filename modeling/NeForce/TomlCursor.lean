import Mathlib.Data.List.TakeWhile
import NeForce.BigEndian

/-! # The cursor of the TOML parser

Position, line and column, and the steps that move them: one character, or a block of them in the builds with vector
instructions.  A parser keeps a trace of these steps, and with it the proof that a build does what the scalar one does
as long as no block passes a newline or ends the text inside a string. -/

namespace NeForce.Toml

/-- The vector instructions of a build. -/
structure Build where
  sse2 : Bool
  avx2 : Bool

def Build.scalar : Build := ⟨false, false⟩

structure Cursor where
  pos : ℕ
  line : ℕ
  column : ℕ
deriving DecidableEq

def newline : UInt8 := 0x0A

/-- `advance`. -/
def Cursor.advance (text : Bytes) (c : Cursor) : Cursor :=
  match text[c.pos]? with
  | none => c
  | some b => if b = newline then ⟨c.pos + 1, c.line + 1, 1⟩ else ⟨c.pos + 1, c.line, c.column + 1⟩

/-- The newlines of a block and the index of the last one, 0 where there is none. -/
def scanNewlines : Bytes → ℕ → ℕ × ℕ → ℕ × ℕ
  | [], _, found => found
  | b :: block, i, found => scanNewlines block (i + 1) (if b = newline then (found.1 + 1, i) else found)

/-- `advance_bulk`. -/
def Cursor.advanceBulk (text : Bytes) (count : ℕ) (c : Cursor) : Cursor :=
  let (newlines, lastNl) := scanNewlines ((text.drop c.pos).take count) 0 (0, 0)
  if 0 < newlines then ⟨c.pos + count, c.line + newlines, count - (lastNl + 1)⟩
  else ⟨c.pos + count, c.line, c.column + count⟩

/-- `column_ += count; pos_ += count`. -/
def Cursor.moveBy (count : ℕ) (c : Cursor) : Cursor := ⟨c.pos + count, c.line, c.column + count⟩

/-- The cursor after a prefix: `advance` from the start. -/
def cursorAt (text : Bytes) : ℕ → Cursor
  | 0 => ⟨0, 1, 1⟩
  | n + 1 => (cursorAt text n).advance text

/-- Line and column are those of the prefix. -/
def Exact (text : Bytes) (c : Cursor) : Prop := c = cursorAt text c.pos ∧ c.pos ≤ text.length

/-- What a step does to the cursor, and what it reads of the text apart from `current` and `peek`. -/
inductive Event
  | load (last : ℕ)                         -- a vector load up to this index
  | bulk (before : Cursor) (count : ℕ)      -- `advance_bulk`
  | moved (before : Cursor) (count : ℕ)     -- a block without newlines
  | step (before : Cursor)                  -- `advance`
  | turn (index : ℕ)                        -- `text_[pos_]` of a string loop, behind its blocks

/-- The cursors before and after a step. -/
def Event.cursors (text : Bytes) : Event → List Cursor
  | .bulk c count => [c, c.advanceBulk text count]
  | .moved c count => [c, c.moveBy count]
  | .step c => [c, c.advance text]
  | _ => []

def Event.index : Event → Option ℕ
  | .load i | .turn i => some i
  | _ => none

/-- The blocks of `advance_bulk` pass no newline, and a string loop goes on before the end of the text. -/
def Event.Fine (text : Bytes) : Event → Prop
  | .bulk c count => newline ∉ (text.drop c.pos).take count
  | .turn i => i < text.length
  | _ => True

/-- Line and column depend on the prefix only, and nothing beyond the end is read. -/
def Event.Sound (text : Bytes) (e : Event) : Prop :=
  (∀ c ∈ e.cursors text, Exact text c) ∧ ∀ i ∈ e.index, i < text.length

variable {text : Bytes} {c d : Cursor} {n : ℕ}

theorem cursorAt_pos (h : n ≤ text.length) : (cursorAt text n).pos = n := by
  induction n with
  | zero => rfl
  | succ n ih =>
      have hpos := ih (by omega)
      unfold cursorAt Cursor.advance
      rw [hpos, List.getElem?_eq_getElem h]
      dsimp only
      split <;> rfl

theorem exact_cursorAt (h : n ≤ text.length) : Exact text (cursorAt text n) := by
  unfold Exact
  rw [cursorAt_pos h]
  exact ⟨rfl, h⟩

theorem exact_start : Exact text ⟨0, 1, 1⟩ := ⟨rfl, Nat.zero_le _⟩

/-- Exact cursors differ by their positions only. -/
theorem Exact.ext (hc : Exact text c) (hd : Exact text d) (h : c.pos = d.pos) : c = d := by
  rw [hc.1, hd.1, h]

theorem Exact.advance_eq (hc : Exact text c) : c.advance text = cursorAt text (c.pos + 1) := by
  rw [cursorAt, ← hc.1]

theorem Exact.advance (hc : Exact text c) : Exact text (c.advance text) := by
  by_cases h : c.pos < text.length
  · rw [hc.advance_eq]
    exact exact_cursorAt h
  · have hend : text[c.pos]? = none := List.getElem?_eq_none (Nat.le_of_not_lt h)
    rw [Cursor.advance, hend]
    exact hc

theorem advance_pos (h : c.pos < text.length) : (c.advance text).pos = c.pos + 1 := by
  rw [Cursor.advance, List.getElem?_eq_getElem h]
  dsimp only
  split <;> rfl

/-- Characters that are no newlines move the column. -/
theorem Exact.moveBy_eq (hc : Exact text c) (hn : c.pos + n ≤ text.length) (hnl : newline ∉ (text.drop c.pos).take n) :
    c.moveBy n = cursorAt text (c.pos + n) := by
  induction n with
  | zero => exact hc.1
  | succ n ih =>
      have hlt : c.pos + n < text.length := by omega
      have htake : (text.drop c.pos).take (n + 1) = (text.drop c.pos).take n ++ [text[c.pos + n]] := by
        rw [List.take_succ_eq_append_getElem (by rw [List.length_drop]; omega), List.getElem_drop]
      rw [htake, List.mem_append, not_or, List.mem_singleton] at hnl
      have hi := ih (by omega) hnl.1
      have hget : text[(c.moveBy n).pos]? = some text[c.pos + n] := List.getElem?_eq_getElem hlt
      rw [← Nat.add_assoc, cursorAt, ← hi, Cursor.advance, hget]
      dsimp only
      rw [if_neg (Ne.symm hnl.2)]
      rfl

theorem Exact.moveBy (hc : Exact text c) (hn : c.pos + n ≤ text.length) (hnl : newline ∉ (text.drop c.pos).take n) :
    Exact text (c.moveBy n) := by
  rw [hc.moveBy_eq hn hnl]
  exact exact_cursorAt hn

theorem scanNewlines_none {block : Bytes} (h : newline ∉ block) (i : ℕ) (found : ℕ × ℕ) :
    scanNewlines block i found = found := by
  induction block generalizing i with
  | nil => rfl
  | cons b block ih =>
      obtain ⟨hb, hrest⟩ := not_or.mp (mt List.mem_cons.mpr h)
      rw [scanNewlines, if_neg (Ne.symm hb)]
      exact ih hrest (i + 1)

/-- Without newlines a block is as many characters. -/
theorem advanceBulk_eq (hnl : newline ∉ (text.drop c.pos).take n) : c.advanceBulk text n = c.moveBy n := by
  unfold Cursor.advanceBulk
  rw [scanNewlines_none hnl]
  rfl

theorem moved_sound (hc : Exact text c) (hn : c.pos + n ≤ text.length) (hnl : newline ∉ (text.drop c.pos).take n) :
    (Event.moved c n).Sound text ∧ Exact text (c.moveBy n) := by
  have hmove := hc.moveBy hn hnl
  refine ⟨⟨?_, fun i hi => absurd hi (Option.not_mem_none i)⟩, hmove⟩
  intro d hd
  rcases List.mem_pair.mp hd with rfl | rfl
  · exact hc
  · exact hmove

/-- The last newline of a block. -/
theorem scanNewlines_last {block : Bytes} (h : newline ∈ block) (i : ℕ) (found : ℕ × ℕ) :
    ∃ before after, block = before ++ newline :: after ∧ newline ∉ after ∧ 0 < (scanNewlines block i found).1 ∧
      (scanNewlines block i found).2 = i + before.length := by
  induction block generalizing i found with
  | nil => exact absurd h List.not_mem_nil
  | cons b block ih =>
      rw [scanNewlines]
      by_cases hrest : newline ∈ block
      · obtain ⟨before, after, rfl, hafter, hpos, hlast⟩ :=
          ih hrest (i + 1) (if b = newline then (found.1 + 1, i) else found)
        refine ⟨b :: before, after, rfl, hafter, hpos, ?_⟩
        rw [hlast, List.length_cons]
        omega
      · obtain rfl : newline = b := (List.mem_cons.mp h).resolve_right hrest
        rw [if_pos rfl, scanNewlines_none hrest]
        exact ⟨[], block, rfl, hrest, Nat.succ_pos _, rfl⟩

theorem advanceBulk_pos : (c.advanceBulk text n).pos = c.pos + n := by
  unfold Cursor.advanceBulk
  dsimp only
  split <;> rfl

/-- Behind a newline `advance_bulk` counts the columns from 0, and `advance` from 1. -/
theorem not_exact_advanceBulk (h : newline ∈ (text.drop c.pos).take n) :
    ¬ Exact text (c.advanceBulk text n) := by
  intro hexact
  have hle : c.pos + n ≤ text.length := by
    have := hexact.2
    rwa [advanceBulk_pos] at this
  obtain ⟨before, after, hblock, hafter, hpos, hlast⟩ := scanNewlines_last h 0 (0, 0)
  have hlen := congrArg List.length hblock
  rw [List.length_take, List.length_drop, Nat.min_eq_left (by omega), List.length_append, List.length_cons] at hlen
  -- The newline itself, and the characters behind it.
  have hsplit : text.drop c.pos = before ++ newline :: after ++ text.drop (c.pos + n) := by
    rw [← hblock, ← List.drop_drop, List.take_append_drop]
  have hget : text[c.pos + before.length]? = some newline := by
    rw [← List.getElem?_drop, hsplit, List.append_assoc, List.getElem?_append_right (Nat.le_refl _), Nat.sub_self]
    rfl
  have hrest : (text.drop (c.pos + before.length + 1)).take after.length = after := by
    rw [Nat.add_assoc, ← List.drop_drop, hsplit, List.append_assoc, ← List.drop_drop, List.drop_left, List.cons_append,
      List.drop_one, List.tail_cons, List.take_left]
  have hstart : (cursorAt text (c.pos + before.length + 1)).column = 1 := by
    rw [cursorAt, Cursor.advance, cursorAt_pos (by omega), hget]
    dsimp only
    rw [if_pos rfl]
  have hbehind : Exact text (cursorAt text (c.pos + before.length + 1)) := exact_cursorAt (by omega)
  have hmove := hbehind.moveBy_eq (n := after.length) (by rw [cursorAt_pos (by omega)]; omega)
    (by rwa [cursorAt_pos (by omega), hrest])
  have hcolumn := congrArg Cursor.column hmove
  rw [cursorAt_pos (by omega), show c.pos + before.length + 1 + after.length = c.pos + n by omega] at hcolumn
  have hbulk := congrArg Cursor.column hexact.1
  rw [advanceBulk_pos, ← hcolumn] at hbulk
  unfold Cursor.advanceBulk at hbulk
  dsimp only at hbulk
  rw [if_pos hpos, hlast] at hbulk
  change n - (0 + before.length + 1) = (cursorAt text (c.pos + before.length + 1)).column + after.length at hbulk
  omega

/-- Sound steps are fine. -/
theorem Event.Sound.fine {e : Event} (h : e.Sound text) : e.Fine text := by
  cases e with
  | bulk c n =>
      intro hmem
      exact not_exact_advanceBulk hmem (h.1 _ (by simp [Event.cursors]))
  | turn i => exact h.2 i rfl
  | load _ | moved _ _ | step _ => exact trivial

end NeForce.Toml
