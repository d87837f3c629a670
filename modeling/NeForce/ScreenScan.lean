import Mathlib.Data.List.Range
import NeForce.Screen

/-! # The scan of a screen, cell by cell

A run of cells of one style is sent as its cells would be sent one after another (`emitRun_eq_foldl`), and the cells
outside the changed part of a row are unchanged, so that the loops go through all cells of the screen
(`emitRow_eq_foldl`). -/

namespace NeForce.Tui

open Terminal

/-- Each glyph has its width, as the terminal counts it, and is followed by its continuation cells; continuation cells
stand nowhere else. -/
structure Screen.WellFormed (d : Device) (s : Screen) : Prop where
  dimx : s.dimx = d.columns
  dimy : s.dimy = d.rows
  head : ∀ y < d.rows, ∀ x < d.columns, ¬ (s.cells y x).automerge →
    1 ≤ (s.cells y x).character.width ∧ (s.cells y x).character.width = d.glyphWidth (s.cells y x).character.bytes ∧
      x + (s.cells y x).character.width ≤ d.columns ∧
      ∀ j, 0 < j → j < (s.cells y x).character.width → (s.cells y (x + j)).automerge
  continuation : ∀ y < d.rows, ∀ x < d.columns, (s.cells y x).automerge →
    ∃ h < x, ¬ (s.cells y h).automerge ∧ x < h + (s.cells y h).character.width

variable {d : Device} {next prev : Screen} {e : Emitted} {y x runEnd xEnd : ℕ}

theorem range_split {a b c : ℕ} (hab : a ≤ b) (hbc : b ≤ c) :
    List.range' a (c - a) = List.range' a (b - a) ++ List.range' b (c - b) := by
  have h := List.range'_append_1 (s := a) (m := b - a) (n := c - b)
  rw [show a + (b - a) = b by omega, show b - a + (c - b) = c - a by omega] at h
  exact h.symm

/-- A cell of the scan. -/
def visit (next prev : Screen) (y : ℕ) (e : Emitted) (x : ℕ) : Emitted :=
  if (next.cells y x).automerge ∨ unchanged next prev y x then e else e.emitRun next y x x

theorem updateCellStyle_self (s : Screen) (style : Style) : s.updateCellStyle style style = [] := by
  simp [Screen.updateCellStyle, updateWeight, updateUnderline, updateFlag]

theorem Screen.WellFormed.width_eq_one (hn : next.WellFormed d) (hy : y < d.rows) (hx : x + 1 < d.columns)
    (h : ¬ (next.cells y x).automerge) (h' : ¬ (next.cells y (x + 1)).automerge) :
    (next.cells y x).character.width = 1 := by
  obtain ⟨h1, -, -, hj⟩ := hn.head y hy x (by omega) h
  by_contra hne
  exact h' (hj 1 (by omega) (by omega))

theorem run_succ (h : x ≤ runEnd) : next.run y x (runEnd + 1) = next.run y x runEnd ++ [next.cells y (runEnd + 1)] := by
  have e : runEnd + 1 + 1 - x = (runEnd + 1 - x) + 1 := by omega
  rw [Screen.run, Screen.run, e, List.range'_concat, List.map_append, List.map_singleton]
  congr 3
  omega

/-- The cells of a run before its last one take one column each. -/
theorem emitRun_succ (h : x ≤ runEnd) (hw : ∀ p, x ≤ p → p ≤ runEnd → (next.cells y p).character.width = 1)
    (hs : (next.cells y (runEnd + 1)).style = (next.cells y x).style) :
    e.emitRun next y x (runEnd + 1) = (e.emitRun next y x runEnd).emitRun next y (runEnd + 1) (runEnd + 1) := by
  have hsum : ((next.run y x runEnd).map fun glyph => max 1 glyph.character.width).sum = runEnd + 1 - x := by
    have hmap : (next.run y x runEnd).map (fun glyph => max 1 glyph.character.width) =
        List.replicate (runEnd + 1 - x) 1 := by
      refine List.eq_replicate_iff.mpr ⟨by simp [Screen.run], ?_⟩
      intro n hn
      simp only [Screen.run, List.map_map, List.mem_map, List.mem_range'_1] at hn
      obtain ⟨p, ⟨hp, hp'⟩, rfl⟩ := hn
      simp only [Function.comp_apply, hw p hp (by omega), max_self]
    rw [hmap]
    simp
  have hsingle : next.run y (runEnd + 1) (runEnd + 1) = [next.cells y (runEnd + 1)] := by
    rw [Screen.run, Nat.add_sub_cancel_left]
    rfl
  have hlast : x + (runEnd + 1 - x) = runEnd + 1 := by omega
  simp only [Emitted.emitRun, run_succ h, hsingle, List.map_append, List.map_singleton, List.sum_append, hsum, hlast,
    moveBefore, and_self, if_true, hs, updateCellStyle_self, List.append_nil, List.append_assoc, List.sum_singleton,
    ← Nat.add_assoc]

theorem findRunEnd_spec (next prev : Screen) (y xEnd : ℕ) (style : Style) (runEnd : ℕ) :
    findRunEnd next prev y xEnd style runEnd ≤ max xEnd runEnd ∧
    ∀ p, runEnd < p → p ≤ findRunEnd next prev y xEnd style runEnd →
      ¬ (next.cells y p).automerge ∧ (next.cells y p).style = style ∧ ¬ unchanged next prev y p := by
  fun_induction findRunEnd next prev y xEnd style runEnd with
  | case1 => exact ⟨by omega, fun p h1 h2 => by omega⟩
  | case2 runEnd hlt c hc ih =>
      refine ⟨by omega, fun p h1 h2 => ?_⟩
      by_cases hp : p = runEnd + 1
      · subst hp
        simp only [not_or, not_not] at hc
        exact hc
      · exact ih.2 p (by omega) h2
  | case3 => exact ⟨by omega, fun p h1 h2 => by omega⟩

/-- A run is sent cell by cell. -/
theorem emitRun_eq_foldl (hn : next.WellFormed d) (hy : y < d.rows) (hle : x ≤ runEnd) (hend : runEnd < d.columns)
    (hhead : ¬ (next.cells y x).automerge ∧ ¬ unchanged next prev y x)
    (hrun : ∀ p, x < p → p ≤ runEnd →
      ¬ (next.cells y p).automerge ∧ (next.cells y p).style = (next.cells y x).style ∧ ¬ unchanged next prev y p) :
    e.emitRun next y x runEnd = (List.range' x (runEnd + 1 - x)).foldl (visit next prev y) e := by
  have hvisit : ∀ p, x ≤ p → p ≤ runEnd → ¬ ((next.cells y p).automerge ∨ unchanged next prev y p) := by
    intro p h1 h2 hc
    rcases Nat.eq_or_lt_of_le h1 with rfl | h1
    · exact hc.elim hhead.1 hhead.2
    · obtain ⟨ha, -, hu⟩ := hrun p h1 h2
      exact hc.elim ha hu
  induction runEnd, hle using Nat.le_induction with
  | base =>
      rw [Nat.add_sub_cancel_left]
      simp [visit, if_neg (hvisit x (Nat.le_refl _) (Nat.le_refl _))]
  | succ runEnd hle ih =>
      have hwidth : ∀ p, x ≤ p → p ≤ runEnd → (next.cells y p).character.width = 1 := fun p h1 h2 =>
        hn.width_eq_one hy (by omega) (fun ha => hvisit p h1 (by omega) (.inl ha))
          fun ha => hvisit (p + 1) (by omega) (by omega) (.inl ha)
      have e1 : runEnd + 1 + 1 - x = (runEnd + 1 - x) + 1 := by omega
      have e2 : x + (runEnd + 1 - x) = runEnd + 1 := by omega
      rw [emitRun_succ hle hwidth (hrun _ (by omega) (Nat.le_refl _)).2.1,
        ih (by omega) (fun p h1 h2 => hrun p h1 (by omega)) (fun p h1 h2 => hvisit p h1 (by omega)), e1,
        List.range'_concat, List.foldl_append, Nat.one_mul, e2]
      simp only [List.foldl_cons, List.foldl_nil]
      rw [visit, if_neg (hvisit _ (by omega) (Nat.le_refl _))]

theorem emitCells_eq_foldl (hn : next.WellFormed d) (hy : y < d.rows) (hend : xEnd < d.columns) :
    emitCells next prev y xEnd x e = (List.range' x (xEnd + 1 - x)).foldl (visit next prev y) e := by
  induction hk : xEnd + 1 - x using Nat.strongRecOn generalizing x e with
  | _ k ih =>
      rw [emitCells]
      by_cases hx : x ≤ xEnd
      · rw [dif_pos hx]
        by_cases hskip : (next.cells y x).automerge ∨ unchanged next prev y x
        · rw [if_pos hskip, ih _ (by omega) rfl, ← hk]
          have e1 : xEnd + 1 - x = (xEnd + 1 - (x + 1)) + 1 := by omega
          rw [e1, List.range'_succ, List.foldl_cons, visit, if_pos hskip]
        · rw [if_neg hskip]
          have hle := le_findRunEnd next prev y xEnd (next.cells y x).style x
          obtain ⟨hmax, hspec⟩ := findRunEnd_spec next prev y xEnd (next.cells y x).style x
          rw [max_eq_left hx] at hmax
          simp only
          rw [ih _ (by omega) rfl, emitRun_eq_foldl hn hy hle (by omega) (not_or.mp hskip) hspec, ← List.foldl_append,
            ← hk, ← range_split (by omega) (by omega)]
      · rw [dif_neg hx, ← hk, show xEnd + 1 - x = 0 by omega]
        rfl

theorem foldl_visit_eq (l : List ℕ) (h : ∀ x ∈ l, next.cells y x = prev.cells y x) :
    l.foldl (visit next prev y) e = e := by
  induction l with
  | nil => rfl
  | cons x l ih =>
      have hu : unchanged next prev y x := by simp [unchanged, sameText, sameStyle, h x (by simp)]
      rw [List.foldl_cons, visit, if_pos (.inr hu)]
      exact ih fun x hx => h x (by simp [hx])

/-- A row is scanned from its first column to its last one. -/
theorem emitRow_eq_foldl (hn : next.WellFormed d) (hp : prev.WellFormed d) (hy : y < d.rows) :
    emitRow next prev e y = (List.range d.columns).foldl (visit next prev y) e := by
  have hdim : min next.dimx prev.dimx = d.columns := by rw [hn.dimx, hp.dimx, min_self]
  rw [emitRow, hdim]
  have hmem : ∀ x < d.columns, x ∉ (List.range d.columns).filter (fun x => next.cells y x ≠ prev.cells y x) →
      next.cells y x = prev.cells y x := by
    intro x hx hm
    by_contra hne
    exact hm (List.mem_filter.mpr ⟨List.mem_range.mpr hx, decide_eq_true hne⟩)
  have hsorted := (List.pairwise_lt_range (n := d.columns)).filter fun x => decide (next.cells y x ≠ prev.cells y x)
  have hsub : ∀ x ∈ (List.range d.columns).filter (fun x => next.cells y x ≠ prev.cells y x), x < d.columns :=
    fun x hx => List.mem_range.mp (List.mem_of_mem_filter hx)
  generalize (List.range d.columns).filter (fun x => decide (next.cells y x ≠ prev.cells y x)) = l at *
  rcases List.eq_nil_or_concat l with rfl | ⟨init, xEnd, rfl⟩
  · exact (foldl_visit_eq _ fun x hx => hmem x (List.mem_range.mp hx) (by simp)).symm
  · rw [List.concat_eq_append] at *
    obtain ⟨xBegin, rest, hl⟩ := List.exists_cons_of_ne_nil (l := init ++ [xEnd]) (by simp)
    have hfirst : ∀ x ∈ init ++ [xEnd], xBegin ≤ x := by
      rw [hl] at hsorted ⊢
      rintro x (_ | ⟨_, hx⟩)
      · exact Nat.le_refl _
      · exact (List.rel_of_pairwise_cons hsorted hx).le
    have hlast : ∀ x ∈ init ++ [xEnd], x ≤ xEnd := by
      intro x hx
      rcases List.mem_append.mp hx with hx | hx
      · exact ((List.pairwise_append.mp hsorted).2.2 x hx xEnd (by simp)).le
      · simp only [List.mem_singleton] at hx
        omega
    have hxEnd := hsub xEnd (by simp)
    have hBegin := hfirst xEnd (by simp)
    have hsplit : List.range d.columns = List.range' 0 xBegin ++ (List.range' xBegin (xEnd + 1 - xBegin) ++
        List.range' (xEnd + 1) (d.columns - (xEnd + 1))) := by
      have h1 := range_split (a := 0) (b := xBegin) (c := d.columns) (by omega) (by omega)
      rw [Nat.sub_zero, Nat.sub_zero, range_split (b := xEnd + 1) (by omega) (by omega)] at h1
      rw [List.range_eq_range', h1]
    have hbefore : (List.range' 0 xBegin).foldl (visit next prev y) e = e := by
      apply foldl_visit_eq
      intro x hx
      rw [List.mem_range'_1] at hx
      exact hmem x (by omega) fun hm => by have := hfirst x hm; omega
    have hbehind : ∀ e', (List.range' (xEnd + 1) (d.columns - (xEnd + 1))).foldl (visit next prev y) e' = e' := by
      intro e'
      apply foldl_visit_eq
      intro x hx
      rw [List.mem_range'_1] at hx
      exact hmem x (by omega) fun hm => by have := hlast x hm; omega
    have hhead : (init ++ [xEnd]).head? = some xBegin := by rw [hl]; rfl
    rw [hhead, List.getLast?_concat]
    simp only
    rw [emitCells_eq_foldl hn hy hxEnd, hsplit, List.foldl_append, List.foldl_append, hbefore, hbehind]

/-- The cells of the first `n` rows. -/
def scan (d : Device) (next prev : Screen) (n : ℕ) : Emitted :=
  (List.range n).foldl (fun e y => (List.range d.columns).foldl (visit next prev y) e) {}

theorem scan_succ (n : ℕ) : scan d next prev (n + 1) =
    (List.range d.columns).foldl (visit next prev n) (scan d next prev n) := by
  rw [scan, List.range_succ, List.foldl_append]
  rfl

theorem rows_eq_scan (hn : next.WellFormed d) (hp : prev.WellFormed d) {n : ℕ} (hle : n ≤ d.rows) :
    (List.range n).foldl (emitRow next prev) {} = scan d next prev n := by
  induction n with
  | zero => rfl
  | succ n ih =>
      rw [List.range_succ, List.foldl_append, ih (by omega), scan_succ]
      exact emitRow_eq_foldl hn hp (by omega)

/-- What `to_string` sends, with the loops over all cells. -/
theorem Screen.toString_eq (hn : next.WellFormed d) (hp : prev.WellFormed d) : next.toString prev =
    if (scan d next prev d.rows).last.isNone ∧ ¬ (next.cursor.shape ≠ prev.cursor.shape ∨
        (next.cursor.shape ≠ .hidden ∧ (next.cursor.x ≠ prev.cursor.x ∨ next.cursor.y ≠ prev.cursor.y))) then []
    else .cursorVisible false :: ((scan d next prev d.rows).result ++ .sgr 0 :: next.appendCursor) := by
  rw [toString, hn.dimy, hp.dimy, min_self]
  simp only [rows_eq_scan hn hp (Nat.le_refl _)]

end NeForce.Tui
