import NeForce.StableSort

/-! # The merge of `tim_sort`

The first run goes to a buffer, and the two are merged into their place; the output never passes the next element of the
second run, for there are as many places between them as there are elements left in the buffer.  After some wins in a row of
one side the elements to take are found by a gallop: steps that double, and a binary search between the last two.

Each access is checked. -/

namespace NeForce.TimSort

variable {α : Type}

section

variable (lt : α → α → Bool)

def lowerBound (s : List α) (first last : ℕ) (value : α) : Option ℕ :=
  bisect (fun x => !lt x value) s (last - first + 1) first last

def upperBound (s : List α) (first last : ℕ) (value : α) : Option ℕ :=
  bisect (fun x => lt value x) s (last - first + 1) first last

/-- The loop of the gallops from `base` with `step`, at most `n` steps. -/
def gallop (test : α → Bool) (s : List α) : ℕ → ℕ → ℕ → Option (ℕ × ℕ)
  | 0, _, _ => none
  | n + 1, base, step =>
      if step < s.length then do
        let x ← s[step]?
        if test x then gallop test s n step (2 * step) else some (base, step)
      else some (base, step)

def gallopLeft (s : List α) (value : α) : Option ℕ :=
  if s.length = 0 then some s.length
  else do
    let (base, step) ← gallop (fun x => lt x value) s (s.length + 1) 0 1
    lowerBound lt s base (min step s.length) value

def gallopRight (s : List α) (value : α) : Option ℕ :=
  if s.length = 0 then some s.length
  else do
    let (base, step) ← gallop (fun x => !lt value x) s (s.length + 1) 0 1
    upperBound lt s base (min step s.length) value

end

/-- The range, and the variables of `tim_merge`. -/
structure Merging (α : Type) where
  range : List α
  leftIndex : ℕ
  right : ℕ
  output : ℕ
  minGallop : ℕ
  leftWins : ℕ
  rightWins : ℕ

namespace Merging

/-- `*output = move(*right)`. -/
def takeRight (s : Merging α) : Option (Merging α) := do
  let x ← s.range[s.right]?
  if s.output < s.range.length then
    some { s with range := s.range.set s.output x, output := s.output + 1, right := s.right + 1 }
  else none

def takeLeft (buffer : List α) (s : Merging α) : Option (Merging α) := do
  let x ← buffer[s.leftIndex]?
  if s.output < s.range.length then
    some { s with range := s.range.set s.output x, output := s.output + 1, leftIndex := s.leftIndex + 1 }
  else none

def takeRights : ℕ → Merging α → Option (Merging α)
  | 0, s => some s
  | n + 1, s => do takeRights n (← s.takeRight)

def takeLefts (buffer : List α) : ℕ → Merging α → Option (Merging α)
  | 0, s => some s
  | n + 1, s => do takeLefts buffer n (← s.takeLeft buffer)

end Merging

/-- `min_gallop` after a gallop. -/
def adapt (minGallop block : ℕ) : ℕ := if 1 < block then max 1 (minGallop - 1) else minGallop + 1

section

variable (lt : α → α → Bool)

/-- A turn of the loop of `tim_merge`. -/
def mergeTurn (buffer : List α) (s : Merging α) : Option (Merging α) := do
  let y ← s.range[s.right]?
  let x ← buffer[s.leftIndex]?
  if lt y x then do
    let s ← s.takeRight
    let s := { s with rightWins := s.rightWins + 1, leftWins := 0 }
    if s.minGallop ≤ s.rightWins then do
      let value ← buffer[s.leftIndex]?
      let cut ← gallopLeft lt (s.range.drop s.right) value
      let s ← s.takeRights cut
      some { s with minGallop := adapt s.minGallop cut, rightWins := 0 }
    else some s
  else do
    let s ← s.takeLeft buffer
    let s := { s with leftWins := s.leftWins + 1, rightWins := 0 }
    if s.minGallop ≤ s.leftWins then do
      let value ← s.range[s.right]?
      let cut ← gallopRight lt (buffer.drop s.leftIndex) value
      let s ← s.takeLefts buffer cut
      some { s with minGallop := adapt s.minGallop cut, leftWins := 0 }
    else some s

/-- The loop of `tim_merge`, at most `n` turns. -/
def mergeTurns (buffer : List α) : ℕ → Merging α → Option (Merging α)
  | 0, _ => none
  | n + 1, s =>
      if s.leftIndex < buffer.length ∧ s.right < s.range.length then do
        mergeTurns buffer n (← mergeTurn lt buffer s)
      else some s

/-- `tim_merge` on the two runs. -/
def timMerge (middle : ℕ) (l : List α) : Option (List α) :=
  if middle = 0 ∨ middle = l.length then some l
  else do
    let buffer := l.take middle
    let s ← mergeTurns lt buffer (l.length + 1) ⟨l, 0, middle, 0, 7, 0, 0⟩
    let s ← s.takeLefts buffer (buffer.length - s.leftIndex)
    some s.range

end

/-! ### The gallops -/

variable {o : StrictWeakOrder α} {s t l r : List α} {x y value : α}

theorem gallop_spec {test p : α → Bool} (hp : ∀ x, p x = !test x) (h : Cut p l s t) {n base step : ℕ} (hbase : base ≤ s.length)
    (hstep : 0 < step) (hpos : 0 < n) (hn : l.length < n - 1 + step) :
    ∃ base' step', gallop test l n base step = some (base', step') ∧ base' ≤ s.length ∧
      s.length ≤ min step' l.length := by
  have hlen : l.length = s.length + t.length := by rw [h.eq, List.length_append]
  induction n generalizing base step with
  | zero => omega
  | succ n ih =>
      unfold gallop
      split
      · next hlt =>
        have hget := List.getElem?_eq_getElem hlt
        have hcut := h.test_iff hget
        rw [hp] at hcut
        rw [hget, Option.bind_eq_bind, Option.bind_some]
        split
        · next ht =>
          rw [ht] at hcut
          exact ih (by simp at hcut; omega) (by omega) (by omega) (by omega)
        · next ht =>
          rw [Bool.not_eq_true] at ht
          rw [ht] at hcut
          have := hcut.mp rfl
          exact ⟨_, _, rfl, hbase, by omega⟩
      · next hge => exact ⟨_, _, rfl, hbase, by omega⟩

theorem gallopLeft_eq (hl : InOrder o l) (value : α) :
    ∃ s t, Cut (fun x => !o.lt x value) l s t ∧ gallopLeft o.lt l value = some s.length := by
  have hcut := cut_of_upward (@Sorted.upward_notBelow α α o id l hl value)
  refine ⟨_, _, hcut, ?_⟩
  unfold gallopLeft
  split
  · next h0 => simp [List.length_eq_zero_iff.mp h0]
  · next h0 =>
    obtain ⟨base, step, h1, h2, h3⟩ := gallop_spec (show ∀ x, notBelow o id value x = !o.lt x value from fun _ => rfl) hcut
      (Nat.zero_le _) Nat.one_pos (Nat.succ_pos _) (Nat.lt_succ_self _)
    rw [h1]
    exact bisect_eq hcut h2 h3 (Nat.min_le_right _ _) (Nat.lt_succ_self _)

theorem gallopRight_eq (hl : InOrder o l) (value : α) :
    ∃ s t, Cut (fun x => o.lt value x) l s t ∧ gallopRight o.lt l value = some s.length := by
  have hcut := cut_of_upward (@Sorted.upward_above α α o id l hl value)
  refine ⟨_, _, hcut, ?_⟩
  unfold gallopRight
  split
  · next h0 => simp [List.length_eq_zero_iff.mp h0]
  · next h0 =>
    obtain ⟨base, step, h1, h2, h3⟩ := gallop_spec (show ∀ x, above o id value x = !!o.lt value x from fun x => (Bool.not_not _).symm)
      hcut
      (Nat.zero_le _) Nat.one_pos (Nat.succ_pos _) (Nat.lt_succ_self _)
    rw [h1]
    exact bisect_eq hcut h2 h3 (Nat.min_le_right _ _) (Nat.lt_succ_self _)

/-! ### The turns -/

/-- `out` is written, `gap` is free, `r` is what is left of the second run and `l` what is left of the buffer. -/
structure Merging.Holds (s : Merging α) (buffer out gap l r : List α) : Prop where
  range : s.range = out ++ gap ++ r
  output : s.output = out.length
  right : s.right = out.length + gap.length
  left : buffer.drop s.leftIndex = l
  index : s.leftIndex ≤ buffer.length
  gap : gap.length = l.length

namespace Merging.Holds

variable {m m' : Merging α} {buffer out gap : List α}

theorem getElem_left (h : m.Holds buffer out gap l r) : buffer[m.leftIndex]? = l.head? := by
  rw [← h.left, List.head?_drop]

theorem getElem_right (h : m.Holds buffer out gap l r) : m.range[m.right]? = r.head? := by
  rw [h.range, h.right, ← List.length_append, List.getElem?_append_right (Nat.le_refl _), Nat.sub_self,
    List.head?_eq_getElem?]

theorem leftIndex_lt (h : m.Holds buffer out gap l r) : m.leftIndex < buffer.length ↔ l ≠ [] := by
  rw [← h.left, Ne, List.drop_eq_nil_iff]
  omega

theorem right_lt (h : m.Holds buffer out gap l r) : m.right < m.range.length ↔ r ≠ [] := by
  rw [h.range, h.right, ← List.length_pos_iff]
  simp

theorem drop_right (h : m.Holds buffer out gap l r) : m.range.drop m.right = r := by
  rw [h.range, h.right, ← List.length_append, List.drop_left]

/-- The counters do not matter. -/
theorem counters (h : m.Holds buffer out gap l r) (minGallop leftWins rightWins : ℕ) :
    Holds { m with minGallop := minGallop, leftWins := leftWins, rightWins := rightWins } buffer out gap l r :=
  ⟨h.range, h.output, h.right, h.left, h.index, h.gap⟩

theorem takeRight (h : m.Holds buffer out gap (x :: l) (y :: r)) : ∃ m' gap', m.takeRight = some m' ∧
    m'.Holds buffer (out ++ [y]) gap' (x :: l) r := by
  match gap, h with
  | [], h => exact absurd h.gap (by simp)
  | g :: gap, h =>
      have hy : m.range[m.right]? = some y := h.getElem_right
      have hlt : m.output < m.range.length := by
        rw [h.output, h.range]
        simp
      refine ⟨{ m with range := m.range.set m.output y, output := m.output + 1, right := m.right + 1 }, gap ++ [y], ?_, ?_⟩
      · rw [Merging.takeRight, hy, Option.bind_eq_bind, Option.bind_some, if_pos hlt]
      · refine ⟨?_, ?_, ?_, h.left, h.index, ?_⟩
        · change m.range.set m.output y = _
          rw [h.range, h.output]
          simp
        · change m.output + 1 = _
          rw [h.output, List.length_append, List.length_singleton]
        · change m.right + 1 = _
          rw [h.right]
          simp
          omega
        · have := h.gap
          simpa using this

theorem takeLeft (h : m.Holds buffer out gap (x :: l) r) : ∃ m' gap', m.takeLeft buffer = some m' ∧
    m'.Holds buffer (out ++ [x]) gap' l r := by
  match gap, h with
  | [], h => exact absurd h.gap (by simp)
  | g :: gap, h =>
      have hx : buffer[m.leftIndex]? = some x := h.getElem_left
      have hlt : m.output < m.range.length := by
        rw [h.output, h.range]
        simp
      refine ⟨{ m with range := m.range.set m.output x, output := m.output + 1, leftIndex := m.leftIndex + 1 }, gap, ?_, ?_⟩
      · rw [Merging.takeLeft, hx, Option.bind_eq_bind, Option.bind_some, if_pos hlt]
      · refine ⟨?_, ?_, ?_, ?_, ?_, ?_⟩
        · change m.range.set m.output x = _
          rw [h.range, h.output]
          simp
        · change m.output + 1 = _
          rw [h.output, List.length_append, List.length_singleton]
        · change m.right = _
          rw [h.right]
          simp
          omega
        · change buffer.drop (m.leftIndex + 1) = l
          rw [← List.tail_drop, h.left, List.tail_cons]
        · exact h.leftIndex_lt.mpr (List.cons_ne_nil x l)
        · have := h.gap
          simpa using this

theorem takeRights (h : m.Holds buffer out gap (x :: l) (s ++ r)) : ∃ m' gap', m.takeRights s.length = some m' ∧
    m'.Holds buffer (out ++ s) gap' (x :: l) r := by
  induction s generalizing m out gap with
  | nil => exact ⟨m, gap, rfl, by rwa [List.append_nil]⟩
  | cons y s ih =>
      obtain ⟨m₁, gap₁, h1, h2⟩ := h.takeRight
      obtain ⟨m₂, gap₂, h3, h4⟩ := ih h2
      rw [List.append_assoc, List.singleton_append] at h4
      refine ⟨m₂, gap₂, ?_, h4⟩
      rw [List.length_cons, Merging.takeRights, h1]
      exact h3

theorem takeLefts (h : m.Holds buffer out gap (s ++ l) r) : ∃ m' gap', m.takeLefts buffer s.length = some m' ∧
    m'.Holds buffer (out ++ s) gap' l r := by
  induction s generalizing m out gap with
  | nil => exact ⟨m, gap, rfl, by rwa [List.append_nil]⟩
  | cons y s ih =>
      obtain ⟨m₁, gap₁, h1, h2⟩ := h.takeLeft
      obtain ⟨m₂, gap₂, h3, h4⟩ := ih h2
      rw [List.append_assoc, List.singleton_append] at h4
      refine ⟨m₂, gap₂, ?_, h4⟩
      rw [List.length_cons, Merging.takeLefts, h1]
      exact h3

end Merging.Holds

/-- What a turn leaves: what is written with the merge of what is left is the same, and something more is written. -/
theorem mergeTurn_spec {m : Merging α} {buffer out gap : List α} (h : m.Holds buffer out gap (x :: l) (y :: r))
    (hl : InOrder o (x :: l)) (hr : InOrder o (y :: r)) :
    ∃ m' out' gap' l' r', mergeTurn o.lt buffer m = some m' ∧ m'.Holds buffer out' gap' l' r' ∧ InOrder o l' ∧
      InOrder o r' ∧ out' ++ mergeBy o l' r' = out ++ mergeBy o (x :: l) (y :: r) ∧
      l'.length + r'.length < (x :: l).length + (y :: r).length := by
  have hx : buffer[m.leftIndex]? = some x := h.getElem_left
  have hy : m.range[m.right]? = some y := h.getElem_right
  unfold mergeTurn
  rw [hy, hx]
  simp only [Option.bind_eq_bind, Option.bind_some]
  split
  · next hlt =>
    obtain ⟨m₁, gap₁, h1, h2⟩ := h.takeRight
    rw [h1, Option.bind_some]
    have h3 := h2.counters m₁.minGallop 0 (m₁.rightWins + 1)
    split
    · obtain ⟨s, t, hcut, hg⟩ := gallopLeft_eq (List.pairwise_cons.mp hr).2 x
      have hv : buffer[m₁.leftIndex]? = some x := h2.getElem_left
      obtain rfl := hcut.eq
      obtain ⟨m₂, gap₂, h4, h5⟩ := h3.takeRights
      rw [hv, Option.bind_some, h2.drop_right, hg, Option.bind_some, h4]
      refine ⟨_, _, _, _, _, rfl, h5.counters _ _ _, hl, (List.pairwise_append.mp (List.pairwise_cons.mp hr).2).2.1, ?_, ?_⟩
      · rw [mergeBy_right hlt, mergeBy_block_right fun z hz => by simpa using hcut.low z hz]
        simp
      · simp only [List.length_cons, List.length_append]
        omega
    · refine ⟨_, _, _, _, _, rfl, h3, hl, (List.pairwise_cons.mp hr).2, ?_, ?_⟩
      · rw [mergeBy_right hlt, List.append_assoc]
        rfl
      · simp
  · next hlt =>
    rw [Bool.not_eq_true] at hlt
    obtain ⟨m₁, gap₁, h1, h2⟩ := h.takeLeft
    rw [h1, Option.bind_some]
    have h3 := h2.counters m₁.minGallop (m₁.leftWins + 1) 0
    split
    · obtain ⟨s, t, hcut, hg⟩ := gallopRight_eq (List.pairwise_cons.mp hl).2 y
      have hv : m₁.range[m₁.right]? = some y := h2.getElem_right
      obtain rfl := hcut.eq
      obtain ⟨m₂, gap₂, h4, h5⟩ := h3.takeLefts
      rw [hv, Option.bind_some, h2.left, hg, Option.bind_some, h4]
      refine ⟨_, _, _, _, _, rfl, h5.counters _ _ _, (List.pairwise_append.mp (List.pairwise_cons.mp hl).2).2.1, hr, ?_, ?_⟩
      · rw [mergeBy_left hlt, mergeBy_block_left hcut.low]
        simp
      · simp only [List.length_cons, List.length_append]
        omega
    · refine ⟨_, _, _, _, _, rfl, h3, (List.pairwise_cons.mp hl).2, hr, ?_, ?_⟩
      · rw [mergeBy_left hlt, List.append_assoc]
        rfl
      · simp

theorem mergeTurns_spec {m : Merging α} {buffer out gap : List α} {n : ℕ} (h : m.Holds buffer out gap l r)
    (hl : InOrder o l) (hr : InOrder o r) (hn : l.length + r.length < n) :
    ∃ m' out' gap' l' r', mergeTurns o.lt buffer n m = some m' ∧ m'.Holds buffer out' gap' l' r' ∧
      out' ++ mergeBy o l' r' = out ++ mergeBy o l r ∧ (l' = [] ∨ r' = []) := by
  induction n generalizing m out gap l r with
  | zero => omega
  | succ n ih =>
      unfold mergeTurns
      match l, r, h, hl, hr, hn with
      | [], r, h, _, _, _ =>
          exact ⟨m, out, gap, [], r, if_neg fun hne => h.leftIndex_lt.mp hne.1 rfl, h, rfl, .inl rfl⟩
      | x :: l, [], h, _, _, _ =>
          exact ⟨m, out, gap, x :: l, [], if_neg fun hne => h.right_lt.mp hne.2 rfl, h, rfl, .inr rfl⟩
      | x :: l, y :: r, h, hl, hr, hn =>
          obtain ⟨m₁, out₁, gap₁, l₁, r₁, h1, h2, h3, h4, h5, h6⟩ := mergeTurn_spec h hl hr
          obtain ⟨m₂, out₂, gap₂, l₂, r₂, i1, i2, i3, i4⟩ := ih h2 h3 h4 (by omega)
          rw [if_pos ⟨h.leftIndex_lt.mpr (List.cons_ne_nil x l), h.right_lt.mpr (List.cons_ne_nil y r)⟩, h1]
          exact ⟨m₂, out₂, gap₂, l₂, r₂, i1, i2, i3.trans h5, i4⟩

theorem timMerge_eq (hl : InOrder o l) (hr : InOrder o r) : timMerge o.lt l.length (l ++ r) = some (mergeBy o l r) := by
  unfold timMerge
  split
  · next h =>
    rcases h with h | h
    · rw [List.length_eq_zero_iff.mp h, nil_mergeBy, List.nil_append]
    · have hr0 : r = [] := List.length_eq_zero_iff.mp (by simp only [List.length_append] at h; omega)
      rw [hr0, mergeBy_nil, List.append_nil]
  · have h0 : Merging.Holds ⟨l ++ r, 0, l.length, 0, 7, 0, 0⟩ l [] l l r :=
      ⟨rfl, rfl, (Nat.zero_add _).symm, List.drop_zero, Nat.zero_le _, rfl⟩
    obtain ⟨m, out, gap, l', r', h1, h2, h3, h4⟩ := mergeTurns_spec h0 hl hr (n := (l ++ r).length + 1)
      (by rw [List.length_append]; exact Nat.lt_succ_self _)
    have h2' : m.Holds l out gap (l' ++ []) r' := by rwa [List.append_nil]
    obtain ⟨m', gap', h5, h6⟩ := h2'.takeLefts
    have hlen : l.length - m.leftIndex = l'.length := by rw [← h2.left, List.length_drop]
    simp only [List.take_left, h1, Option.bind_eq_bind, Option.bind_some, hlen, h5]
    have hgap : gap' = [] := List.length_eq_zero_iff.mp h6.gap
    rw [h6.range, hgap, List.append_nil, Option.some.injEq]
    rw [List.nil_append] at h3
    rw [← h3, List.append_assoc]
    rcases h4 with rfl | rfl
    · rw [nil_mergeBy, List.nil_append]
    · rw [mergeBy_nil, List.append_nil]

end NeForce.TimSort
