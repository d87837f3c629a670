import Mathlib.Data.Nat.Notation
import NeForce.BigEndian

/-! # A terminal with a grid of cells

The terminal has a grid, whose slots hold the parts of glyphs, a cursor, and the attributes, colours and link target with
which glyphs are written. A glyph that is written over a part of a wide glyph erases the other parts; what an erased slot
shows is a parameter. A cursor in the column behind the last one stands for the pending wrap. -/

namespace NeForce.Terminal

inductive Underline
  | none
  | single
  | double
deriving DecidableEq, Repr

/-- The attributes of Select Graphic Rendition, and the colours, absent for the default ones. -/
structure Pen where
  bold : Bool := false
  dim : Bool := false
  italic : Bool := false
  inverted : Bool := false
  underline : Underline := .none
  blink : Bool := false
  strikethrough : Bool := false
  foreground : Option (ℕ × ℕ × ℕ) := none
  background : Option (ℕ × ℕ × ℕ) := none
deriving DecidableEq, Repr

/-- The part of a glyph in one column: the glyph, the number of its columns, how far the column lies behind its first
one, and how the glyph is written. -/
structure Slot where
  glyph : Bytes
  width : ℕ
  offset : ℕ
  pen : Pen
  link : Bytes
deriving DecidableEq

structure State where
  grid : ℕ → ℕ → Slot
  x : ℕ := 0
  y : ℕ := 0
  pen : Pen := {}
  link : Bytes := []

/-- What a program sends. -/
inductive Command
  /-- `ESC [ ? 25 l` and `ESC [ ? 25 h` -/
  | cursorVisible (visible : Bool)
  /-- `ESC [ n SP q` -/
  | cursorShape (n : ℕ)
  /-- `ESC [ y+1 ; x+1 H` -/
  | moveTo (x y : ℕ)
  /-- `ESC [ n C` -/
  | forward (n : ℕ)
  /-- `ESC [ n B` -/
  | down (n : ℕ)
  /-- `ESC [ n m` -/
  | sgr (n : ℕ)
  /-- `ESC [ 38 ; 2 ; r ; g ; b m`, and with 48 for the background -/
  | color (background : Bool) (r g b : ℕ)
  /-- `ESC ] 8 ; ; url ESC \` -/
  | link (url : Bytes)
  /-- The bytes of one glyph. -/
  | text (glyph : Bytes)
deriving DecidableEq

def Pen.sgr (p : Pen) (n : ℕ) : Pen :=
  match n with
  | 0 => {}
  | 1 => { p with bold := true }
  | 2 => { p with dim := true }
  | 3 => { p with italic := true }
  | 4 => { p with underline := .single }
  | 5 => { p with blink := true }
  | 7 => { p with inverted := true }
  | 9 => { p with strikethrough := true }
  | 21 => { p with underline := .double }
  | 22 => { p with bold := false, dim := false }
  | 23 => { p with italic := false }
  | 24 => { p with underline := .none }
  | 25 => { p with blink := false }
  | 27 => { p with inverted := false }
  | 29 => { p with strikethrough := false }
  | 39 => { p with foreground := none }
  | 49 => { p with background := none }
  | _ => p

/-- The size of the grid, the number of columns of a glyph, and what an erased slot shows. -/
structure Device where
  columns : ℕ
  rows : ℕ
  glyphWidth : Bytes → ℕ
  erased : Slot

variable (d : Device)

/-- The glyph that has a part in column `p` has a part in one of `n` columns from `x` on. -/
def Slot.Overlaps (s : Slot) (p x n : ℕ) : Prop := p - s.offset < x + n ∧ x < p - s.offset + s.width

instance (s : Slot) (p x n : ℕ) : Decidable (s.Overlaps p x n) := inferInstanceAs (Decidable (_ ∧ _))

/-- A row after a glyph is written at column `x`. -/
def write (row : ℕ → Slot) (x : ℕ) (glyph : Bytes) (pen : Pen) (link : Bytes) (p : ℕ) : Slot :=
  let n := d.glyphWidth glyph
  if x ≤ p ∧ p < x + n then ⟨glyph, n, p - x, pen, link⟩
  else if (row p).Overlaps p x n then d.erased
  else row p

def State.text (t : State) (glyph : Bytes) : State :=
  let (x, y) := if t.x + d.glyphWidth glyph ≤ d.columns then (t.x, t.y) else (0, t.y + 1)
  { t with
    grid := fun r => if r = y then write d (t.grid y) x glyph t.pen t.link else t.grid r
    x := x + d.glyphWidth glyph
    y := y }

def State.exec (t : State) : Command → State
  | .cursorVisible _ => t
  | .cursorShape _ => t
  | .moveTo x y => { t with x := x, y := y }
  | .forward n => { t with x := min (t.x + n) (d.columns - 1) }
  | .down n => { t with y := min (t.y + n) (d.rows - 1) }
  | .sgr n => { t with pen := t.pen.sgr n }
  | .color false r g b => { t with pen := { t.pen with foreground := some (r, g, b) } }
  | .color true r g b => { t with pen := { t.pen with background := some (r, g, b) } }
  | .link url => { t with link := url }
  | .text glyph => t.text d glyph

def State.run (t : State) (cs : List Command) : State := cs.foldl (State.exec d) t

variable {d} {t : State} {row : ℕ → Slot} {x p : ℕ} {glyph link : Bytes} {pen : Pen}

@[simp] theorem State.run_nil : t.run d [] = t := rfl

@[simp] theorem State.run_append (t : State) (cs cs' : List Command) : t.run d (cs ++ cs') = (t.run d cs).run d cs' :=
  List.foldl_append

@[simp] theorem State.run_cons (t : State) (c : Command) (cs : List Command) : t.run d (c :: cs) = (t.exec d c).run d cs :=
  rfl

theorem write_inside (h1 : x ≤ p) (h2 : p < x + d.glyphWidth glyph) :
    write d row x glyph pen link p = ⟨glyph, d.glyphWidth glyph, p - x, pen, link⟩ := if_pos ⟨h1, h2⟩

/-- A glyph elsewhere in the row stays. -/
theorem write_outside (h : ¬ (x ≤ p ∧ p < x + d.glyphWidth glyph))
    (ho : ¬ (row p).Overlaps p x (d.glyphWidth glyph)) : write d row x glyph pen link p = row p := by
  rw [write]
  simp only [if_neg h, if_neg ho]

/-- A glyph that fits into the row behind the cursor. -/
theorem State.text_fits (h : t.x + d.glyphWidth glyph ≤ d.columns) :
    t.text d glyph = { t with
      grid := fun r => if r = t.y then write d (t.grid t.y) t.x glyph t.pen t.link else t.grid r
      x := t.x + d.glyphWidth glyph } := by
  simp only [State.text, if_pos h]

end NeForce.Terminal
