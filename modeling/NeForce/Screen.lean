import NeForce.Terminal

/-! # Differences of screens

`screen::to_string` sends what turns the picture of an earlier frame into that of this one. A screen is a grid of cells
with the targets of its links; the cells of a row between the first and the last one that changed are gone through, and
each longest run of changed cells of one style is sent with at most one move of the cursor and one change of style. The
colours are true colours. -/

namespace NeForce.Tui

open Terminal

/-! ### Cells -/

/-- `color`, opaque black by default. -/
structure Color where
  r : ℕ := 0
  g : ℕ := 0
  b : ℕ := 0
  a : ℕ := 255
deriving DecidableEq, Repr

/-- `cell_text`. -/
structure CellText where
  bytes : Bytes
  width : ℕ
deriving DecidableEq

/-- The members of a cell that `same_style` compares. -/
structure Style where
  foreground : Color := {}
  background : Color := ⟨0, 0, 0, 0⟩
  bold : Bool := false
  dim : Bool := false
  italic : Bool := false
  inverted : Bool := false
  underlined : Bool := false
  underlinedDouble : Bool := false
  blink : Bool := false
  strikethrough : Bool := false
  hyperlink : ℕ := 0
deriving DecidableEq

structure Cell where
  character : CellText
  style : Style
  automerge : Bool
deriving DecidableEq

inductive CursorShape
  | hidden
  | blockBlinking
  | block
  | underlineBlinking
  | underline
  | barBlinking
  | bar
deriving DecidableEq

structure Cursor where
  x : ℤ := 0
  y : ℤ := 0
  shape : CursorShape := .hidden
deriving DecidableEq

structure Screen where
  dimx : ℕ
  dimy : ℕ
  /-- The cells by row and column. -/
  cells : ℕ → ℕ → Cell
  hyperlinks : List Bytes
  cursor : Cursor

/-- The target of a link, empty where the id is not registered. -/
def Screen.hyperlink (s : Screen) (id : ℕ) : Bytes := if id = 0 then [] else (s.hyperlinks[id - 1]?).getD []

def sameText (a b : Cell) : Bool := a.character.bytes = b.character.bytes

def sameStyle (a b : Cell) : Bool := a.style = b.style

/-! ### Styles -/

def appendColor (c : Color) (background : Bool) : List Command :=
  if c.a = 0 then [.sgr (if background then 49 else 39)] else [.color background c.r c.g c.b]

def updateWeight (prev next : Style) : List Command :=
  if next.bold ≠ prev.bold ∨ next.dim ≠ prev.dim then
    (if (prev.bold && !next.bold) || (prev.dim && !next.dim) then [.sgr 22] else []) ++
      (if next.bold then [.sgr 1] else []) ++ (if next.dim then [.sgr 2] else [])
  else []

def updateUnderline (prev next : Style) : List Command :=
  if next.underlined ≠ prev.underlined ∨ next.underlinedDouble ≠ prev.underlinedDouble then
    (if (prev.underlined && !next.underlined) || (prev.underlinedDouble && !next.underlinedDouble) then [.sgr 24]
      else []) ++
      (if next.underlinedDouble then [.sgr 21] else if next.underlined then [.sgr 4] else [])
  else []

/-- One attribute with a code of its own. -/
def updateFlag (prev next : Bool) (on off : ℕ) : List Command :=
  if next = prev then [] else [.sgr (if next then on else off)]

def Screen.updateCellStyle (s : Screen) (prev next : Style) : List Command :=
  (if next.hyperlink = prev.hyperlink then [] else [.link (s.hyperlink next.hyperlink)]) ++
    updateWeight prev next ++
    updateFlag prev.italic next.italic 3 23 ++
    updateUnderline prev next ++
    updateFlag prev.blink next.blink 5 25 ++
    updateFlag prev.inverted next.inverted 7 27 ++
    updateFlag prev.strikethrough next.strikethrough 9 29 ++
    (if next.foreground = prev.foreground then [] else appendColor next.foreground false) ++
    (if next.background = prev.background then [] else appendColor next.background true)

/-! ### Cursors -/

def appendRelativeMove (fromX fromY x y : ℕ) : List Command :=
  if y = fromY ∧ fromX < x then [.forward (x - fromX)]
  else if x = fromX ∧ fromY < y then [.down (y - fromY)]
  else [.moveTo x y]

def Cursor.clamp (v : ℤ) (dim : ℕ) : ℕ := (if v < 0 then 0 else if (dim : ℤ) ≤ v then (dim : ℤ) - 1 else v).toNat

def Screen.appendCursor (s : Screen) : List Command :=
  let shape : ℕ := match s.cursor.shape with
    | .hidden => 0
    | .blockBlinking => 1
    | .block => 2
    | .underlineBlinking => 3
    | .underline => 4
    | .barBlinking => 5
    | .bar => 6
  if s.cursor.shape = .hidden then [.cursorVisible false]
  else [.moveTo (Cursor.clamp s.cursor.x s.dimx) (Cursor.clamp s.cursor.y s.dimy), .cursorShape shape, .cursorVisible true]

/-! ### `to_string` -/

/-- The loop variables: what is sent, the cursor behind the last glyph with its row, absent before the first glyph, and
the style that the terminal is taken to have. -/
structure Emitted where
  result : List Command := []
  last : Option (ℕ × ℕ) := none
  termState : Style := {}

/-- The move of the cursor before a run. -/
def moveBefore (last : Option (ℕ × ℕ)) (x y : ℕ) : List Command :=
  match last with
  | none => [.moveTo x y]
  | some (lastX, lastY) => if lastY = y ∧ lastX = x then [] else appendRelativeMove lastX lastY x y

variable (next prev : Screen)

/-- A cell that is on the terminal already. -/
def unchanged (y x : ℕ) : Bool :=
  sameText (next.cells y x) (prev.cells y x) && sameStyle (next.cells y x) (prev.cells y x)

/-- The last cell of the run. -/
def findRunEnd (y xEnd : ℕ) (style : Style) (runEnd : ℕ) : ℕ :=
  if runEnd < xEnd then
    let c := next.cells y (runEnd + 1)
    if c.automerge ∨ c.style ≠ style ∨ unchanged next prev y (runEnd + 1) then runEnd
    else findRunEnd y xEnd style (runEnd + 1)
  else runEnd
termination_by xEnd - runEnd

theorem le_findRunEnd (y xEnd : ℕ) (style : Style) (runEnd : ℕ) : runEnd ≤ findRunEnd next prev y xEnd style runEnd := by
  fun_induction findRunEnd next prev y xEnd style runEnd with
  | case1 => exact Nat.le_refl _
  | case2 runEnd _ _ _ ih => omega
  | case3 => exact Nat.le_refl _

/-- The cells of row `y` in the columns from `x` to `runEnd`. -/
def Screen.run (s : Screen) (y x runEnd : ℕ) : List Cell := (List.range' x (runEnd + 1 - x)).map (s.cells y)

def Emitted.emitRun (e : Emitted) (y x runEnd : ℕ) : Emitted :=
  let cell := next.cells y x
  let run := next.run y x runEnd
  { result := e.result ++ moveBefore e.last x y ++ next.updateCellStyle e.termState cell.style ++
      run.map (.text ·.character.bytes)
    last := some (x + (run.map fun glyph => max 1 glyph.character.width).sum, y)
    termState := cell.style }

/-- The loop over the changed part of a row. -/
def emitCells (y xEnd x : ℕ) (e : Emitted) : Emitted :=
  if h : x ≤ xEnd then
    if (next.cells y x).automerge ∨ unchanged next prev y x then emitCells y xEnd (x + 1) e
    else
      let runEnd := findRunEnd next prev y xEnd (next.cells y x).style x
      have := le_findRunEnd next prev y xEnd (next.cells y x).style x
      emitCells y xEnd (runEnd + 1) (e.emitRun next y x runEnd)
  else e
termination_by xEnd + 1 - x

/-- A row: the columns of the first and of the last byte that differ, and the loop between them. The comparison of whole
rows before it, which a blank earlier frame leaves out, only saves the search. -/
def emitRow (e : Emitted) (y : ℕ) : Emitted :=
  let differing := (List.range (min next.dimx prev.dimx)).filter fun x => next.cells y x ≠ prev.cells y x
  match differing.head?, differing.getLast? with
  | some xBegin, some xEnd => emitCells next prev y xEnd xBegin e
  | _, _ => e

def Screen.toString : List Command :=
  let e := (List.range (min next.dimy prev.dimy)).foldl (emitRow next prev) {}
  let cursorVisible := next.cursor.shape ≠ .hidden
  let cursorChanged := next.cursor.shape ≠ prev.cursor.shape ∨
    (cursorVisible ∧ (next.cursor.x ≠ prev.cursor.x ∨ next.cursor.y ≠ prev.cursor.y))
  if e.last.isNone ∧ ¬ cursorChanged then []
  else .cursorVisible false :: (e.result ++ .sgr 0 :: next.appendCursor)

end NeForce.Tui
