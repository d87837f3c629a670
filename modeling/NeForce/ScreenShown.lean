import NeForce.Runs
import NeForce.ScreenScan

/-! # What the terminal shows

A frame is shown when each slot of the grid looks like its part of a glyph of the frame; the foreground of a plain space
does not matter. The differences of successive screens keep the frames shown as long as `Faithful` holds of each step
(`screen_run`). -/

namespace NeForce.Tui

open Terminal

/-! ### Looks -/

/-- The colour that `append_color` selects. -/
def Color.shown (c : Color) : Option (ℕ × ℕ × ℕ) := if c.a = 0 then none else some (c.r, c.g, c.b)

def Style.pen (s : Style) : Pen where
  bold := s.bold
  dim := s.dim
  italic := s.italic
  inverted := s.inverted
  underline := if s.underlinedDouble then .double else if s.underlined then .single else .none
  blink := s.blink
  strikethrough := s.strikethrough
  foreground := s.foreground.shown
  background := s.background.shown

/-- A space without a line through or under it and without inversion shows no foreground. -/
def isPlainSpace (glyph : Bytes) (p : Pen) : Bool :=
  glyph = [0x20] && p.underline = .none && !p.strikethrough && !p.inverted

def look (s : Slot) : Slot :=
  if isPlainSpace s.glyph s.pen then { s with pen := { s.pen with foreground := none } } else s

/-- The part of the glyph at `(h, y)` in the column `j` behind its first one. -/
def Screen.part (s : Screen) (y h j : ℕ) : Slot where
  glyph := (s.cells y h).character.bytes
  width := (s.cells y h).character.width
  offset := j
  pen := (s.cells y h).style.pen
  link := s.hyperlink (s.cells y h).style.hyperlink

def GlyphShown (s : Screen) (t : State) (y h : ℕ) : Prop :=
  ∀ j < (s.cells y h).character.width, look (t.grid y (h + j)) = look (s.part y h j)

/-- The terminal shows the frame. -/
def Shows (d : Device) (s : Screen) (t : State) : Prop :=
  ∀ y < d.rows, ∀ h < d.columns, ¬ (s.cells y h).automerge → GlyphShown s t y h

/-! ### The condition -/

/-- A glyph that is sent. -/
def Changed (next prev : Screen) (y x : ℕ) : Prop := ¬ (next.cells y x).automerge ∧ ¬ unchanged next prev y x

/-- A glyph of the kind is sent before the cell `(x, y)`. -/
def Earlier (d : Device) (next prev : Screen) (P : Cell → Prop) (y x : ℕ) : Prop :=
  ∃ y' x', (y' < y ∨ y' = y ∧ x' < x) ∧ x' < d.columns ∧ Changed next prev y' x' ∧ P (next.cells y' x')

/-- A glyph in opaque black, the colour that the terminal is taken to begin with, is a plain space or comes after one of
another colour; a glyph without a link finds no link open or comes after one with a link; the links of the glyphs that
stay have the same targets; and a cell that was behind a wide glyph is sent. -/
structure Faithful (d : Device) (next prev : Screen) (t : State) : Prop where
  foreground : ∀ y < d.rows, ∀ x < d.columns, Changed next prev y x → (next.cells y x).style.foreground = {} →
    isPlainSpace (next.cells y x).character.bytes (next.cells y x).style.pen ∨
      Earlier d next prev (fun c => c.style.foreground ≠ {}) y x
  closed : ∀ y < d.rows, ∀ x < d.columns, Changed next prev y x → (next.cells y x).style.hyperlink = 0 →
    t.link = [] ∨ Earlier d next prev (fun c => c.style.hyperlink ≠ 0) y x
  targets : ∀ y < d.rows, ∀ x < d.columns, ¬ (next.cells y x).automerge → unchanged next prev y x →
    next.hyperlink (next.cells y x).style.hyperlink = prev.hyperlink (next.cells y x).style.hyperlink
  uncovered : ∀ y < d.rows, ∀ x < d.columns, ¬ (next.cells y x).automerge → (prev.cells y x).automerge →
    ¬ unchanged next prev y x

/-! ### Styles on the terminal -/

variable {d : Device} {next prev : Screen} {t t₀ : State} {e : Emitted} {y x : ℕ}

theorem run_updateFlag (old new : Bool) (on off : ℕ) (f : Bool → Pen) (hon : (f old).sgr on = f true)
    (hoff : (f old).sgr off = f false) (h : t.pen = f old) :
    t.run d (updateFlag old new on off) = { t with pen := f new } := by
  unfold updateFlag
  by_cases hn : new = old
  · rw [if_pos hn, hn, ← h]
    rfl
  · rw [if_neg hn]
    cases new with
    | true => simp [State.exec, h, hon]
    | false => simp [State.exec, h, hoff]

theorem run_updateWeight {old new : Style} (p : Pen) (h : t.pen = { p with bold := old.bold, dim := old.dim }) :
    t.run d (updateWeight old new) = { t with pen := { p with bold := new.bold, dim := new.dim } } := by
  obtain ⟨grid, tx, ty, pen, link⟩ := t
  subst h
  unfold updateWeight
  cases hb : old.bold <;> cases hd : old.dim <;> cases hb' : new.bold <;> cases hd' : new.dim <;> rfl

theorem run_updateUnderline {old new : Style} (p : Pen) (h : t.pen = { p with underline := old.pen.underline }) :
    t.run d (updateUnderline old new) = { t with pen := { p with underline := new.pen.underline } } := by
  obtain ⟨grid, tx, ty, pen, link⟩ := t
  subst h
  unfold updateUnderline Style.pen
  cases hb : old.underlined <;> cases hd : old.underlinedDouble <;> cases hb' : new.underlined <;>
    cases hd' : new.underlinedDouble <;> rfl

theorem run_appendColor_foreground (c : Color) :
    t.run d (appendColor c false) = { t with pen := { t.pen with foreground := c.shown } } := by
  unfold appendColor Color.shown
  by_cases h : c.a = 0
  · rw [if_pos h, if_pos h]
    rfl
  · rw [if_neg h, if_neg h]
    rfl

theorem run_appendColor_background (c : Color) :
    t.run d (appendColor c true) = { t with pen := { t.pen with background := c.shown } } := by
  unfold appendColor Color.shown
  by_cases h : c.a = 0
  · rw [if_pos h, if_pos h]
    rfl
  · rw [if_neg h, if_neg h]
    rfl

/-- The pen and the link after a change of style; the foreground and the link are those of the terminal where the code
takes them to be set. -/
theorem run_updateCellStyle (s : Screen) {old new : Style}
    (h : t.pen = { old.pen with foreground := t.pen.foreground }) :
    t.run d (s.updateCellStyle old new) =
      { t with
        pen := { new.pen with
          foreground := if new.foreground = old.foreground then t.pen.foreground else new.foreground.shown }
        link := if new.hyperlink = old.hyperlink then t.link else s.hyperlink new.hyperlink } := by
  obtain ⟨grid, tx, ty, pen, link⟩ := t
  have hlink : ∀ t : State, t.run d (if new.hyperlink = old.hyperlink then [] else [.link (s.hyperlink new.hyperlink)]) =
      { t with link := if new.hyperlink = old.hyperlink then t.link else s.hyperlink new.hyperlink } := by
    intro t
    by_cases hl : new.hyperlink = old.hyperlink <;> simp [hl, State.exec]
  have hfore : ∀ t : State, t.run d (if new.foreground = old.foreground then [] else appendColor new.foreground false) =
      { t with pen := { t.pen with
        foreground := if new.foreground = old.foreground then t.pen.foreground else new.foreground.shown } } := by
    intro t
    by_cases hf : new.foreground = old.foreground
    · simp [hf]
    · simp [hf, run_appendColor_foreground]
  have hback : ∀ t : State, t.pen.background = old.background.shown →
      t.run d (if new.background = old.background then [] else appendColor new.background true) =
      { t with pen := { t.pen with background := new.background.shown } } := by
    intro t hb
    by_cases hf : new.background = old.background
    · simp [hf, ← hb]
    · simp [hf, run_appendColor_background]
  unfold Screen.updateCellStyle
  simp only [State.run_append, hlink]
  rw [run_updateWeight { old.pen with foreground := pen.foreground } (by exact h)]
  rw [run_updateFlag old.italic new.italic 3 23 (fun b => { old.pen with
    foreground := pen.foreground, bold := new.bold, dim := new.dim, italic := b }) rfl rfl rfl]
  rw [run_updateUnderline { old.pen with
    foreground := pen.foreground, bold := new.bold, dim := new.dim, italic := new.italic } rfl]
  rw [run_updateFlag old.blink new.blink 5 25 (fun b => { old.pen with
    foreground := pen.foreground, bold := new.bold, dim := new.dim, italic := new.italic, underline := new.pen.underline
    blink := b }) rfl rfl rfl]
  rw [run_updateFlag old.inverted new.inverted 7 27 (fun b => { old.pen with
    foreground := pen.foreground, bold := new.bold, dim := new.dim, italic := new.italic, underline := new.pen.underline
    blink := new.blink, inverted := b }) rfl rfl rfl]
  rw [run_updateFlag old.strikethrough new.strikethrough 9 29 (fun b => { old.pen with
    foreground := pen.foreground, bold := new.bold, dim := new.dim, italic := new.italic, underline := new.pen.underline
    blink := new.blink, inverted := new.inverted, strikethrough := b }) rfl rfl rfl]
  rw [hfore, hback _ rfl]
  rfl

/-! ### One glyph -/

@[simp] theorem look_width (s : Slot) : (look s).width = s.width := by unfold look; split <;> rfl

@[simp] theorem look_offset (s : Slot) : (look s).offset = s.offset := by unfold look; split <;> rfl

/-- A plain space looks the same in every foreground. -/
theorem look_foreground {s : Slot} (h : isPlainSpace s.glyph s.pen) (c : Option (ℕ × ℕ × ℕ)) :
    look { s with pen := { s.pen with foreground := c } } = look s := by
  have h' : isPlainSpace s.glyph { s.pen with foreground := c } := h
  unfold look
  rw [if_pos h, if_pos h']

/-- A glyph stays when one is written elsewhere in its row. -/
theorem GlyphShown.keep {s : Screen} {t' : State} {h : ℕ} {glyph link : Bytes} {pen : Pen} (hs : GlyphShown s t y h)
    (hapart : h + (s.cells y h).character.width ≤ x ∨ x + d.glyphWidth glyph ≤ h)
    (hgrid : t'.grid y = write d (t.grid y) x glyph pen link) : GlyphShown s t' y h := by
  intro j hj
  have hlook := hs j hj
  have hw : (t.grid y (h + j)).width = (s.cells y h).character.width := by
    have := congrArg Slot.width hlook
    simpa [Screen.part] using this
  have ho : (t.grid y (h + j)).offset = j := by
    have := congrArg Slot.offset hlook
    simpa [Screen.part] using this
  rw [hgrid, write_outside]
  · exact hlook
  · omega
  · unfold Slot.Overlaps
    rw [hw, ho]
    omega

/-- The glyphs of a row are apart. -/
theorem Screen.WellFormed.apart (hn : next.WellFormed d) (hy : y < d.rows) {h : ℕ} (hx : x < d.columns)
    (hh : h < d.columns) (hxa : ¬ (next.cells y x).automerge) (hha : ¬ (next.cells y h).automerge) (hne : h ≠ x) :
    h + (next.cells y h).character.width ≤ x ∨ x + (next.cells y x).character.width ≤ h := by
  obtain ⟨-, -, -, hj⟩ := hn.head y hy x hx hxa
  obtain ⟨-, -, -, hj'⟩ := hn.head y hy h hh hha
  by_contra hc
  rw [not_or, Nat.not_le, Nat.not_le] at hc
  obtain hlt | hlt := Nat.lt_or_gt_of_ne hne
  · have := hj' (x - h) (by omega) (by omega)
    rw [show h + (x - h) = x by omega] at this
    exact hxa this
  · have := hj (h - x) (by omega) (by omega)
    rw [show x + (h - x) = h by omega] at this
    exact hha this

theorem run_moveBefore {last : Option (ℕ × ℕ)} (hlast : ∀ lx ly, last = some (lx, ly) → t.x = lx ∧ t.y = ly)
    (hx : x < d.columns) (hy : y < d.rows) : t.run d (moveBefore last x y) = { t with x := x, y := y } := by
  unfold moveBefore
  cases last with
  | none => rfl
  | some l =>
      obtain ⟨lx, ly⟩ := l
      obtain ⟨h1, h2⟩ := hlast lx ly rfl
      simp only
      by_cases hsame : ly = y ∧ lx = x
      · rw [if_pos hsame, State.run_nil, ← hsame.1, ← hsame.2, ← h1, ← h2]
      · rw [if_neg hsame]
        unfold appendRelativeMove
        by_cases hf : y = ly ∧ lx < x
        · rw [if_pos hf, State.run_cons, State.run_nil, State.exec, h1, hf.1, ← h2,
            show min (lx + (x - lx)) (d.columns - 1) = x by omega]
        · rw [if_neg hf]
          by_cases hd : x = lx ∧ ly < y
          · rw [if_pos hd, State.run_cons, State.run_nil, State.exec, h2, hd.1, ← h1,
              show min (ly + (y - ly)) (d.rows - 1) = y by omega]
          · rw [if_neg hd]
            rfl

theorem earlier_succ {P : Cell → Prop} (h : Earlier d next prev P y (x + 1)) :
    Earlier d next prev P y x ∨ Changed next prev y x ∧ P (next.cells y x) := by
  obtain ⟨y', x', hlt, hx', hc, hP⟩ := h
  by_cases he : y' = y ∧ x' = x
  · obtain ⟨rfl, rfl⟩ := he
    exact .inr ⟨hc, hP⟩
  · exact .inl ⟨y', x', by omega, hx', hc, hP⟩

/-- Before the cell `(x, y)` of the scan: the earlier glyphs and those that stay are shown, and the terminal has the pen,
the link and the cursor that the code takes it to have, but for a foreground and a link of before the frame. -/
structure Inv (d : Device) (t₀ : State) (next prev : Screen) (y x : ℕ) (e : Emitted) : Prop where
  shown : ∀ y' < d.rows, ∀ h < d.columns, ¬ (next.cells y' h).automerge →
    (y' < y ∨ y' = y ∧ h < x ∨ unchanged next prev y' h) → GlyphShown next (t₀.run d e.result) y' h
  pen : (t₀.run d e.result).pen = { e.termState.pen with foreground := (t₀.run d e.result).pen.foreground }
  foreground : (t₀.run d e.result).pen.foreground = e.termState.foreground.shown ∨
    e.termState.foreground = {} ∧ ¬ Earlier d next prev (fun c => c.style.foreground ≠ {}) y x
  link : (t₀.run d e.result).link = next.hyperlink e.termState.hyperlink ∨
    e.termState.hyperlink = 0 ∧ (t₀.run d e.result).link = t₀.link ∧
      ¬ Earlier d next prev (fun c => c.style.hyperlink ≠ 0) y x
  last : ∀ lx ly, e.last = some (lx, ly) → (t₀.run d e.result).x = lx ∧ (t₀.run d e.result).y = ly
  silent : e.last = none → e.result = []

theorem Inv.skip (h : Inv d t₀ next prev y x e) (hskip : (next.cells y x).automerge ∨ unchanged next prev y x) :
    Inv d t₀ next prev y (x + 1) e := by
  have hch : ¬ Changed next prev y x := fun hc => hskip.elim hc.1 hc.2
  constructor
  · intro y' hy' h' hh' ha hcase
    apply h.shown y' hy' h' hh' ha
    by_cases he : y' = y ∧ h' = x
    · obtain ⟨rfl, rfl⟩ := he
      exact .inr (.inr (hskip.resolve_left ha))
    · exact hcase.imp_right fun hc => hc.imp_left fun ⟨h1, h2⟩ => ⟨h1, by omega⟩
  · exact h.pen
  · exact h.foreground.imp_right fun ⟨h1, h2⟩ => ⟨h1, fun he => (earlier_succ he).elim h2 fun hc => hch hc.1⟩
  · exact h.link.imp_right fun ⟨h1, h2, h3⟩ => ⟨h1, h2, fun he => (earlier_succ he).elim h3 fun hc => hch hc.1⟩
  · exact h.last
  · exact h.silent

theorem emitRun_self (e : Emitted) (next : Screen) (y x : ℕ) : e.emitRun next y x x = {
    result := e.result ++ moveBefore e.last x y ++ next.updateCellStyle e.termState (next.cells y x).style ++
      [.text (next.cells y x).character.bytes]
    last := some (x + max 1 (next.cells y x).character.width, y)
    termState := (next.cells y x).style } := by
  simp [Emitted.emitRun, Screen.run]

/-- The terminal after a glyph is sent. -/
theorem Inv.run_emit (h : Inv d t₀ next prev y x e) (hn : next.WellFormed d) (hy : y < d.rows) (hx : x < d.columns)
    (ha : ¬ (next.cells y x).automerge) : ∃ pen link, t₀.run d (e.emitRun next y x x).result = {
      grid := fun r => if r = y then write d ((t₀.run d e.result).grid y) x (next.cells y x).character.bytes pen link
        else (t₀.run d e.result).grid r
      x := x + (next.cells y x).character.width
      y := y
      pen := pen
      link := link } ∧
    pen = { (next.cells y x).style.pen with
      foreground := if (next.cells y x).style.foreground = e.termState.foreground then
        (t₀.run d e.result).pen.foreground else (next.cells y x).style.foreground.shown } ∧
    link = if (next.cells y x).style.hyperlink = e.termState.hyperlink then (t₀.run d e.result).link
      else next.hyperlink (next.cells y x).style.hyperlink := by
  obtain ⟨-, hw, hfit, -⟩ := hn.head y hy x hx ha
  refine ⟨_, _, ?_, rfl, rfl⟩
  rw [emitRun_self]
  simp only [State.run_append, run_moveBefore h.last hx hy]
  rw [run_updateCellStyle next (by exact h.pen)]
  simp only [State.run_cons, State.run_nil, State.exec]
  rw [State.text_fits (by simp only; omega), ← hw]

theorem Inv.emit (h : Inv d t₀ next prev y x e) (hn : next.WellFormed d) (hf : Faithful d next prev t₀)
    (hy : y < d.rows) (hx : x < d.columns) (hc : Changed next prev y x) :
    Inv d t₀ next prev y (x + 1) (e.emitRun next y x x) := by
  obtain ⟨pen, link, hrun, hpen, hlink⟩ := h.run_emit hn hy hx hc.1
  obtain ⟨h1, hw, hfit, -⟩ := hn.head y hy x hx hc.1
  have hterm : (e.emitRun next y x x).termState = (next.cells y x).style := rfl
  have hlink' : link = next.hyperlink (next.cells y x).style.hyperlink := by
    rw [hlink]
    by_cases he : (next.cells y x).style.hyperlink = e.termState.hyperlink
    · rw [if_pos he]
      obtain hl | ⟨h0, hl, hno⟩ := h.link
      · rw [hl, he]
      · rw [hl, he, h0]
        exact (hf.closed y hy x hx hc (he.trans h0)).resolve_right hno
    · rw [if_neg he]
  have hfore : pen.foreground = (next.cells y x).style.foreground.shown ∨
      isPlainSpace (next.cells y x).character.bytes (next.cells y x).style.pen ∧
        (next.cells y x).style.foreground = {} ∧
        ¬ Earlier d next prev (fun c => c.style.foreground ≠ {}) y x := by
    rw [hpen]
    by_cases he : (next.cells y x).style.foreground = e.termState.foreground
    · simp only [if_pos he]
      obtain hl | ⟨h0, hno⟩ := h.foreground
      · exact .inl (by rw [hl, he])
      · exact .inr ⟨(hf.foreground y hy x hx hc (he.trans h0)).resolve_right hno, he.trans h0, hno⟩
    · exact .inl (if_neg he)
  constructor
  · intro y' hy' h' hh' ha hcase
    by_cases hrow : y' = y
    · subst hrow
      have hgrid : (t₀.run d (e.emitRun next y' x x).result).grid y' =
          write d ((t₀.run d e.result).grid y') x (next.cells y' x).character.bytes pen link := by
        rw [hrun]
        exact if_pos rfl
      by_cases he : h' = x
      · subst he
        intro j hj
        rw [hgrid, write_inside (by omega) (by omega), Nat.add_sub_cancel_left, ← hw, hlink']
        obtain hl | ⟨hplain, -, -⟩ := hfore
        · have : pen = (next.cells y' h').style.pen := by
            rw [hpen] at hl ⊢
            simp only at hl
            rw [hl]
            rfl
          rw [this]
          rfl
        · rw [hpen]
          exact look_foreground (s := next.part y' h' j) hplain _
      · apply (h.shown y' hy' h' hh' ha
          (hcase.imp_right fun hc => hc.imp_left fun ⟨h1, h2⟩ => ⟨h1, by omega⟩)).keep _ hgrid
        rw [← hw]
        exact hn.apart hy hx hh' hc.1 ha he
    · have hgrid : (t₀.run d (e.emitRun next y x x).result).grid y' = (t₀.run d e.result).grid y' := by
        rw [hrun]
        exact if_neg hrow
      intro j hj
      rw [hgrid]
      exact h.shown y' hy' h' hh' ha (hcase.imp_right fun hc => hc.imp_left fun hc => absurd hc.1 hrow) j hj
  · rw [hrun, hterm, hpen]
  · rw [hrun, hterm]
    obtain hl | ⟨-, h0, hno⟩ := hfore
    · exact .inl hl
    · exact .inr ⟨h0, fun he => (earlier_succ he).elim hno fun hc' => hc'.2 h0⟩
  · rw [hrun, hterm]
    exact .inl hlink'
  · intro lx ly hlast
    rw [hrun]
    have : some (x + max 1 (next.cells y x).character.width, y) = some (lx, ly) := by
      rw [← hlast, emitRun_self]
    simp only [Option.some.injEq, Prod.mk.injEq] at this
    rw [max_eq_right h1] at this
    exact this
  · intro hlast
    rw [emitRun_self] at hlast
    cases hlast

/-! ### Frames -/

theorem Inv.visit (h : Inv d t₀ next prev y x e) (hn : next.WellFormed d) (hf : Faithful d next prev t₀)
    (hy : y < d.rows) (hx : x < d.columns) : Inv d t₀ next prev y (x + 1) (visit next prev y e x) := by
  unfold Tui.visit
  by_cases hskip : (next.cells y x).automerge ∨ unchanged next prev y x
  · rw [if_pos hskip]
    exact h.skip hskip
  · rw [if_neg hskip]
    exact h.emit hn hf hy hx (not_or.mp hskip)

theorem Inv.columns (h : Inv d t₀ next prev y 0 e) (hn : next.WellFormed d) (hf : Faithful d next prev t₀)
    (hy : y < d.rows) {n : ℕ} (hle : n ≤ d.columns) :
    Inv d t₀ next prev y n ((List.range n).foldl (Tui.visit next prev y) e) := by
  induction n with
  | zero => exact h
  | succ n ih =>
      rw [List.range_succ, List.foldl_append]
      exact (ih (by omega)).visit hn hf hy (by omega)

/-- The next row begins where a row ends. -/
theorem Inv.nextRow (h : Inv d t₀ next prev y d.columns e) : Inv d t₀ next prev (y + 1) 0 e := by
  have hearlier : ∀ P, Earlier d next prev P (y + 1) 0 → Earlier d next prev P y d.columns := by
    rintro P ⟨y', x', hlt, hx', hc, hP⟩
    exact ⟨y', x', by omega, hx', hc, hP⟩
  constructor
  · intro y' hy' h' hh' ha hcase
    apply h.shown y' hy' h' hh' ha
    obtain hlt | ⟨-, h0⟩ | hu := hcase
    · by_cases he : y' = y
      · exact .inr (.inl ⟨he, hh'⟩)
      · exact .inl (by omega)
    · exact absurd h0 (Nat.not_lt_zero _)
    · exact .inr (.inr hu)
  · exact h.pen
  · exact h.foreground.imp_right fun ⟨h1, h2⟩ => ⟨h1, fun he => h2 (hearlier _ he)⟩
  · exact h.link.imp_right fun ⟨h1, h2, h3⟩ => ⟨h1, h2, fun he => h3 (hearlier _ he)⟩
  · exact h.last
  · exact h.silent

theorem Inv.rows (h : Inv d t₀ next prev 0 0 {}) (hn : next.WellFormed d) (hf : Faithful d next prev t₀) {n : ℕ}
    (hle : n ≤ d.rows) : Inv d t₀ next prev n 0 (scan d next prev n) := by
  induction n with
  | zero => exact h
  | succ n ih =>
      rw [scan_succ]
      exact ((ih (by omega)).columns hn hf (by omega) (Nat.le_refl _)).nextRow

/-- A glyph that stays is on the terminal already. -/
theorem Faithful.kept (hf : Faithful d next prev t₀) (hn : next.WellFormed d) (hp : prev.WellFormed d)
    (hs : Shows d prev t₀) (hy : y < d.rows) (hx : x < d.columns) (ha : ¬ (next.cells y x).automerge)
    (hu : unchanged next prev y x) : GlyphShown next t₀ y x := by
  have ha' : ¬ (prev.cells y x).automerge := fun hc => hf.uncovered y hy x hx ha hc hu
  have htarget := hf.targets y hy x hx ha hu
  obtain ⟨-, hw, -, -⟩ := hn.head y hy x hx ha
  obtain ⟨-, hw', -, -⟩ := hp.head y hy x hx ha'
  simp only [unchanged, sameText, sameStyle, Bool.and_eq_true, decide_eq_true_eq] at hu
  have hwidth : (next.cells y x).character.width = (prev.cells y x).character.width := by rw [hw, hw', hu.1]
  intro j hj
  rw [hs y hy x hx ha' j (by omega), Screen.part, Screen.part, hu.1, hwidth, htarget, hu.2]

theorem Inv.start (hn : next.WellFormed d) (hp : prev.WellFormed d) (hf : Faithful d next prev t₀)
    (hs : Shows d prev t₀) (hpen : t₀.pen = {}) : Inv d t₀ next prev 0 0 {} := by
  have hno : ∀ P, ¬ Earlier d next prev P 0 0 := by
    rintro P ⟨y', x', hlt, -⟩
    omega
  constructor
  · intro y' hy' h' hh' ha hcase
    obtain h0 | ⟨-, h0⟩ | hu := hcase
    · exact absurd h0 (Nat.not_lt_zero _)
    · exact absurd h0 (Nat.not_lt_zero _)
    · exact hf.kept hn hp hs hy' hh' ha hu
  · rw [State.run_nil, hpen]
    rfl
  · exact .inr ⟨rfl, hno _⟩
  · exact .inr ⟨rfl, rfl, hno _⟩
  · intro lx ly h
    cases h
  · intro _
    rfl

theorem run_appendCursor (s : Screen) (t : State) :
    (t.run d s.appendCursor).grid = t.grid ∧ (t.run d s.appendCursor).pen = t.pen := by
  unfold Screen.appendCursor
  by_cases h : s.cursor.shape = .hidden
  · rw [if_pos h]
    exact ⟨rfl, rfl⟩
  · rw [if_neg h]
    exact ⟨rfl, rfl⟩

/-- A step that meets the condition shows the frame and leaves the pen reset. -/
theorem Faithful.shows (hf : Faithful d next prev t) (hn : next.WellFormed d) (hp : prev.WellFormed d)
    (hs : Shows d prev t) (hpen : t.pen = {}) :
    Shows d next (t.run d (next.toString prev)) ∧ (t.run d (next.toString prev)).pen = {} := by
  have hinv := (Inv.start hn hp hf hs hpen).rows hn hf (Nat.le_refl _)
  have hshown : Shows d next (t.run d (scan d next prev d.rows).result) := by
    intro y hy h hh ha
    exact hinv.shown y hy h hh ha (.inl hy)
  rw [Screen.toString_eq hn hp]
  split
  · rename_i hnone
    rw [State.run_nil]
    rw [hinv.silent (Option.isNone_iff_eq_none.mp hnone.1)] at hshown
    exact ⟨hshown, hpen⟩
  · rw [State.run_cons, State.run_append, State.run_cons]
    obtain ⟨hgrid, hpen'⟩ := run_appendCursor (d := d) next
      (((t.exec d (.cursorVisible false)).run d (scan d next prev d.rows).result).exec d (.sgr 0))
    constructor
    · intro y hy h hh ha j hj
      rw [hgrid]
      exact hshown y hy h hh ha j hj
    · rw [hpen']
      rfl

/-! ### Runs -/

/-- A space in the style of `reset`. -/
def blankCell : Cell := ⟨⟨[0x20], 1⟩, {}, false⟩

/-- A screen after `clear`. -/
def blankScreen (d : Device) : Screen := ⟨d.columns, d.rows, fun _ _ => blankCell, [], {}⟩

/-- A terminal after it is reset. -/
def blankTerminal : State where
  grid _ _ := ⟨[0x20], 1, 0, {}, []⟩

/-- The frame that was sent last, and the terminal. -/
abbrev Shown := Screen × State

/-- The next frame is sent. -/
def step (d : Device) (s : Shown) (next : Screen) (s' : Shown) : Prop :=
  next.WellFormed d ∧ s' = (next, s.2.run d (next.toString s.1))

theorem blank_wellFormed (h : d.glyphWidth [0x20] = 1) : (blankScreen d).WellFormed d := by
  constructor
  · rfl
  · rfl
  · intro y _ x hx _
    exact ⟨Nat.le_refl _, h.symm, hx, fun j h0 h1 => absurd h1 (by change ¬ j < 1; omega)⟩
  · intro y _ x _ ha
    cases ha

theorem blank_shows : Shows d (blankScreen d) blankTerminal := by
  intro y _ h _ _ j hj
  have h0 : j = 0 := by
    change j < 1 at hj
    omega
  subst h0
  rfl

/-- From a blank terminal, any frames one after another, each of which meets the condition, are each shown. -/
theorem screen_run (d : Device) (hspace : d.glyphWidth [0x20] = 1) {frames : List Screen} {s : Shown}
    (hr : Run (Guarded (fun s next => Faithful d next s.1 s.2) (step d)) (blankScreen d, blankTerminal) frames s) :
    Shows d s.1 s.2 := by
  have h := hr.invariant (P := fun s => s.1.WellFormed d ∧ Shows d s.1 s.2 ∧ s.2.pen = {})
    ⟨blank_wellFormed hspace, blank_shows, rfl⟩ ?_
  · exact h.2.1
  · rintro s next s' ⟨hp, hs, hpen⟩ ⟨hf, hn, rfl⟩
    exact ⟨hn, hf.shows hn hp hs hpen⟩

def sampleDevice : Device := ⟨2, 1, fun _ => 1, ⟨[0x20], 1, 0, {}, []⟩⟩

/-- A letter in white. -/
def letter (c : UInt8) (link : ℕ) : Cell :=
  ⟨⟨[c], 1⟩, { foreground := ⟨255, 255, 255, 255⟩, hyperlink := link }, false⟩

def sampleFrame (a b : Cell) : Screen := ⟨2, 1, fun _ x => if x = 0 then a else b, [ascii "u"], {}⟩

theorem sampleFrame_wellFormed {a b : Cell} (ha : a.automerge = false ∧ a.character.width = 1)
    (hb : b.automerge = false ∧ b.character.width = 1) : (sampleFrame a b).WellFormed sampleDevice := by
  have hcell : ∀ x, ((sampleFrame a b).cells 0 x).automerge = false ∧ ((sampleFrame a b).cells 0 x).character.width = 1 := by
    intro x
    change (if x = 0 then a else b).automerge = false ∧ (if x = 0 then a else b).character.width = 1
    split
    · exact ha
    · exact hb
  constructor
  · rfl
  · rfl
  · intro y hy x hx _
    obtain rfl : y = 0 := Nat.lt_one_iff.mp hy
    obtain ⟨-, hw⟩ := hcell x
    rw [hw]
    exact ⟨Nat.le_refl _, rfl, hx, fun j h0 h1 => by omega⟩
  · intro y hy x _ hm
    obtain rfl : y = 0 := Nat.lt_one_iff.mp hy
    rw [(hcell x).1] at hm
    cases hm

theorem screen_run_sample : Shows sampleDevice (sampleFrame (letter 0x61 0) blankCell)
    (blankTerminal.run sampleDevice ((sampleFrame (letter 0x61 0) blankCell).toString (blankScreen sampleDevice))) := by
  have hf : Faithful sampleDevice (sampleFrame (letter 0x61 0) blankCell) (blankScreen sampleDevice) blankTerminal := by
    constructor
    · intro y _ x _ hc hblack
      by_cases h0 : x = 0
      · subst h0
        cases hblack
      · refine absurd ?_ hc.2
        simp [unchanged, sameText, sameStyle, sampleFrame, blankScreen, h0]
    · intro _ _ _ _ _ _
      exact .inl rfl
    · intro y _ x _ _ _
      by_cases h0 : x = 0 <;> simp [sampleFrame, h0, letter, blankCell, Screen.hyperlink]
    · intro _ _ _ _ _ hm
      cases hm
  exact screen_run sampleDevice rfl (.cons ⟨hf, sampleFrame_wellFormed ⟨rfl, rfl⟩ ⟨rfl, rfl⟩, rfl⟩ (.nil _))

/-- A link that is open at the end of a frame is put on a cell of the next frame that has none. -/
theorem link_leaks : ∃ (d : Device) (frames : List Screen) (s : Shown), d.glyphWidth [0x20] = 1 ∧
    Run (step d) (blankScreen d, blankTerminal) frames s ∧ ¬ Shows d s.1 s.2 := by
  have h1 := sampleFrame_wellFormed (a := letter 0x61 1) (b := blankCell) ⟨rfl, rfl⟩ ⟨rfl, rfl⟩
  have h2 := sampleFrame_wellFormed (a := letter 0x61 1) (b := letter 0x62 0) ⟨rfl, rfl⟩ ⟨rfl, rfl⟩
  refine ⟨sampleDevice, [sampleFrame (letter 0x61 1) blankCell, sampleFrame (letter 0x61 1) (letter 0x62 0)], _, rfl,
    .cons ⟨h1, rfl⟩ (.cons ⟨h2, rfl⟩ (.nil _)), fun hs => ?_⟩
  have hlink := congrArg Slot.link (hs 0 (by decide) 1 (by decide) (by decide) 0 (by decide))
  rw [Screen.toString_eq h1 (blank_wellFormed rfl), Screen.toString_eq h2 h1] at hlink
  revert hlink
  decide

end NeForce.Tui
