import NeForce.TomlCursor

/-! # Runs of characters

`skip_whitespace` and its siblings, and the plain characters of a string: by blocks where the build has them, else
character by character. -/

namespace NeForce.Toml

/-- What a loop does: its steps, the cursor after them, and whether it saw a character to stop at. -/
structure Moves where
  trace : List Event
  cursor : Cursor
  done : Bool

/-- The next loop, unless this one returned. -/
def Moves.andThen (m : Moves) (next : Cursor → Moves) : Moves :=
  if m.done then m
  else
    let n := next m.cursor
    ⟨m.trace ++ n.trace, n.cursor, n.done⟩

/-- The next loop in any case. -/
def Moves.followedBy (m : Moves) (next : Cursor → Moves) : Moves :=
  let n := next m.cursor
  ⟨m.trace ++ n.trace, n.cursor, n.done⟩

section

variable (text : Bytes) (p : UInt8 → Bool)

/-- A block is passed by `advance_bulk` or, where it has no newlines, by its columns. -/
def shift (bulk : Bool) (count : ℕ) (c : Cursor) : Cursor := if bulk then c.advanceBulk text count else c.moveBy count

def shiftEvent (bulk : Bool) (count : ℕ) (c : Cursor) : Event := if bulk then .bulk c count else .moved c count

/-- The loop over blocks: a whole block of characters in `p`, or those before the first other one, where it stops. -/
def blocks (bulk : Bool) (width : ℕ) : ℕ → Cursor → Moves
  | 0, c => ⟨[], c, false⟩
  | fuel + 1, c =>
    if c.pos + width ≤ text.length then
      let count := (((text.drop c.pos).take width).takeWhile p).length
      let events := [.load (c.pos + width - 1), shiftEvent bulk count c]
      if count = width then
        let m := blocks bulk width fuel (shift text bulk count c)
        ⟨events ++ m.trace, m.cursor, m.done⟩
      else ⟨events, shift text bulk count c, true⟩
    else ⟨[], c, false⟩

def blocksIf (enabled bulk : Bool) (width : ℕ) (c : Cursor) : Moves :=
  if enabled then blocks text p bulk width (text.length + 1) c else ⟨[], c, false⟩

/-- `while (pos_ < len_ && p(text_[pos_])) advance();` -/
def oneByOne : ℕ → Cursor → Moves
  | 0, c => ⟨[], c, false⟩
  | fuel + 1, c =>
    match text[c.pos]? with
    | none => ⟨[], c, true⟩
    | some b =>
      if p b then
        let m := oneByOne fuel (c.advance text)
        ⟨.step c :: m.trace, m.cursor, m.done⟩
      else ⟨[], c, true⟩

/-- The loops of a skipping function. -/
def skipMoves (build : Build) (c : Cursor) : Moves :=
  ((blocksIf text p build.avx2 true 32 c).andThen (blocksIf text p build.sse2 true 16)).andThen
    (oneByOne text p (text.length + 1))

/-- The blocks of a string loop. -/
def stringBlocks (bulk : Bool) (build : Build) (c : Cursor) : Moves :=
  (blocksIf text p build.avx2 bulk 32 c).followedBy (blocksIf text p build.sse2 bulk 16)

/-- The turns of a string loop as long as they add plain characters: what the blocks pass, and the character behind them,
which is read without a check. -/
def plainTurns (bulk : Bool) (build : Build) : ℕ → Cursor → Bytes × Moves
  | 0, c => ([], ⟨[], c, false⟩)
  | fuel + 1, c =>
    if c.pos < text.length then
      let m := stringBlocks text p bulk build c
      let passed := (text.drop c.pos).take (m.cursor.pos - c.pos)
      let ch := text.getD m.cursor.pos 0
      let events := m.trace ++ [.turn m.cursor.pos]
      if p ch then
        let (result, n) := plainTurns bulk build fuel (m.cursor.advance text)
        (passed ++ ch :: result, ⟨events ++ .step m.cursor :: n.trace, n.cursor, n.done⟩)
      else (passed, ⟨events, m.cursor, true⟩)
    else ([], ⟨[], c, true⟩)

/-- The characters in `p` at the cursor. -/
def spanAt (c : Cursor) : Bytes := (text.drop c.pos).takeWhile p

/-- Some of them lie between the two cursors. -/
def Spans (c d : Cursor) : Prop := Exact text d ∧ ∃ n ≤ (spanAt text p c).length, d.pos = c.pos + n

/-- What a loop over characters in `p` does if its steps are fine. -/
def Moves.Along (c : Cursor) (m : Moves) : Prop :=
  (∀ e ∈ m.trace, e.Fine text) →
    (∀ e ∈ m.trace, e.Sound text) ∧ Spans text p c m.cursor ∧ (m.done = true → spanAt text p m.cursor = [])

end

variable {text : Bytes} {p : UInt8 → Bool} {c d e : Cursor} {n : ℕ} {bulk : Bool} {build : Build}

theorem drop_takeWhile {l : Bytes} (h : n ≤ (l.takeWhile p).length) : (l.drop n).takeWhile p = (l.takeWhile p).drop n := by
  induction n generalizing l with
  | zero => rfl
  | succ n ih =>
      match l with
      | [] => rfl
      | b :: l =>
          rw [List.takeWhile_cons] at h ⊢
          split at h
          · next hb =>
            rw [if_pos hb, List.drop_succ_cons, List.drop_succ_cons]
            exact ih (Nat.le_of_succ_le_succ h)
          · exact absurd h (Nat.not_succ_le_zero n)

theorem take_takeWhile' {l : Bytes} (h : n ≤ (l.takeWhile p).length) : l.take n = (l.takeWhile p).take n := by
  conv_lhs => rw [← List.takeWhile_append_dropWhile (p := p) (l := l), List.take_append_of_le_length h]

theorem takeWhile_take (l : Bytes) (w : ℕ) : ((l.take w).takeWhile p).length = min w (l.takeWhile p).length := by
  induction l generalizing w with
  | nil => simp
  | cons b l ih =>
      cases w with
      | zero => simp
      | succ w =>
          rw [List.take_succ_cons, List.takeWhile_cons, List.takeWhile_cons]
          split
          · rw [List.length_cons, List.length_cons, ih]
            omega
          · rfl

theorem spanAt_le (c : Cursor) (hc : c.pos ≤ text.length) : c.pos + (spanAt text p c).length ≤ text.length := by
  have := (List.takeWhile_prefix (l := text.drop c.pos) p).length_le
  rw [List.length_drop] at this
  unfold spanAt
  omega

theorem Spans.refl (hc : Exact text c) : Spans text p c c := ⟨hc, 0, Nat.zero_le _, rfl⟩

/-- What is left of the run behind a part of it. -/
theorem Spans.spanAt_eq (h : Spans text p c d) : spanAt text p d = (spanAt text p c).drop (d.pos - c.pos) := by
  obtain ⟨-, n, hn, hpos⟩ := h
  unfold spanAt
  rw [hpos, Nat.add_sub_cancel_left, ← List.drop_drop]
  exact drop_takeWhile hn

theorem Spans.trans (h : Spans text p c d) (h' : Spans text p d e) : Spans text p c e := by
  have hspan := h.spanAt_eq
  obtain ⟨-, n, hn, hpos⟩ := h
  obtain ⟨he, k, hk, hpos'⟩ := h'
  rw [hspan, List.length_drop] at hk
  exact ⟨he, n + k, by omega, by omega⟩

theorem Spans.passed_eq (h : Spans text p c d) :
    (text.drop c.pos).take (d.pos - c.pos) = (spanAt text p c).take (d.pos - c.pos) := by
  obtain ⟨-, n, hn, hpos⟩ := h
  exact take_takeWhile' (by rw [hpos, Nat.add_sub_cancel_left]; exact hn)

/-- A loop that stopped passed all of the run. -/
theorem Spans.pos_eq (h : Spans text p c d) (hend : spanAt text p d = []) : d.pos = c.pos + (spanAt text p c).length := by
  have hspan := h.spanAt_eq
  obtain ⟨-, n, hn, hpos⟩ := h
  rw [hend] at hspan
  have := congrArg List.length hspan
  rw [List.length_nil, List.length_drop] at this
  omega

/-! ### Blocks -/

theorem Moves.Along.nil (hc : Exact text c) : Moves.Along text p c ⟨[], c, false⟩ :=
  fun _ => ⟨fun _ he => absurd he List.not_mem_nil, .refl hc, fun h => absurd h Bool.false_ne_true⟩

/-- A block of characters in `p` is passed exactly if it has no newline. -/
theorem shift_spec (hbulk : bulk = false → p newline = false) (hc : Exact text c) (hn : n ≤ (spanAt text p c).length)
    (hfine : (shiftEvent bulk n c).Fine text) :
    (shiftEvent bulk n c).Sound text ∧ Spans text p c (shift text bulk n c) := by
  have hle : c.pos + n ≤ text.length := by
    have := spanAt_le (p := p) c hc.2
    omega
  have hnl : newline ∉ (text.drop c.pos).take n := by
    cases bulk with
    | true => exact hfine
    | false =>
        intro hmem
        rw [take_takeWhile' (p := p) hn] at hmem
        have := List.mem_takeWhile_imp (List.mem_of_mem_take hmem)
        exact Bool.false_ne_true ((hbulk rfl).symm.trans this)
  have hmove := hc.moveBy hle hnl
  have hshift : shift text bulk n c = c.moveBy n := by
    cases bulk with
    | true => exact advanceBulk_eq hnl
    | false => rfl
  rw [hshift]
  refine ⟨?_, hmove, n, hn, rfl⟩
  cases bulk with
  | true =>
      refine ⟨fun d hd => ?_, fun i hi => absurd hi (Option.not_mem_none i)⟩
      rcases List.mem_pair.mp hd with rfl | rfl
      · exact hc
      · rw [advanceBulk_eq hnl]
        exact hmove
  | false => exact (moved_sound hc hle hnl).1

theorem blocks_along (hbulk : bulk = false → p newline = false) {width : ℕ} (hw : 0 < width) (fuel : ℕ)
    (hc : Exact text c) : Moves.Along text p c (blocks text p bulk width fuel c) := by
  induction fuel generalizing c with
  | zero => exact .nil hc
  | succ fuel ih =>
      unfold blocks
      split
      · next hfit =>
        -- The characters in `p` at the front of the block are those of the run, or the whole block.
        have hcount := takeWhile_take (p := p) (text.drop c.pos) width
        have hload : (Event.load (c.pos + width - 1)).Sound text :=
          ⟨fun _ hd => absurd hd List.not_mem_nil, fun i hi => by
            obtain rfl := Option.mem_some.mp hi
            omega⟩
        have hle : (((text.drop c.pos).take width).takeWhile p).length ≤ (spanAt text p c).length :=
          hcount.trans_le (Nat.min_le_right _ _)
        dsimp only
        split
        · intro hfine
          dsimp only at hfine ⊢
          have hshift := shift_spec hbulk hc hle (hfine _ (by simp))
          obtain ⟨hsound, hspans, hdone⟩ := ih hshift.2.1 fun e he => hfine e (List.mem_append_right _ he)
          refine ⟨?_, hshift.2.trans hspans, hdone⟩
          intro e he
          rcases List.mem_append.mp he with he | he
          · rcases List.mem_pair.mp he with rfl | rfl
            · exact hload
            · exact hshift.1
          · exact hsound e he
        · next hne =>
          intro hfine
          dsimp only at hfine ⊢
          have hshift := shift_spec hbulk hc hle (hfine _ (by simp))
          refine ⟨?_, hshift.2, ?_⟩
          · intro e he
            rcases List.mem_pair.mp he with rfl | rfl
            · exact hload
            · exact hshift.1
          · intro _
            have hspan := hshift.2.spanAt_eq
            have hpos : (shift text bulk (((text.drop c.pos).take width).takeWhile p).length c).pos =
                c.pos + (((text.drop c.pos).take width).takeWhile p).length := by
              unfold shift Cursor.advanceBulk Cursor.moveBy
              split
              · dsimp only
                split <;> rfl
              · rfl
            rw [hspan, hpos, Nat.add_sub_cancel_left, List.drop_eq_nil_iff]
            have hall : (spanAt text p c).length = ((text.drop c.pos).takeWhile p).length := rfl
            omega
      · exact .nil hc

theorem blocksIf_along (hbulk : bulk = false → p newline = false) (enabled : Bool) {width : ℕ} (hw : 0 < width)
    (hc : Exact text c) : Moves.Along text p c (blocksIf text p enabled bulk width c) := by
  unfold blocksIf
  split
  · exact blocks_along hbulk hw _ hc
  · exact .nil hc

/-- Both loops go along the same run. -/
theorem Moves.Along.followedBy {m : Moves} {next : Cursor → Moves} (hm : m.Along text p c)
    (hnext : ∀ d, Exact text d → (next d).Along text p d) : (m.followedBy next).Along text p c := by
  intro hfine
  obtain ⟨hsound, hspans, -⟩ := hm fun e he => hfine e (List.mem_append_left _ he)
  obtain ⟨hsound', hspans', hdone'⟩ := hnext _ hspans.1 fun e he => hfine e (List.mem_append_right _ he)
  refine ⟨?_, hspans.trans hspans', hdone'⟩
  intro e he
  rcases List.mem_append.mp he with he | he
  · exact hsound e he
  · exact hsound' e he

theorem Moves.Along.andThen {m : Moves} {next : Cursor → Moves} (hm : m.Along text p c)
    (hnext : ∀ d, Exact text d → (next d).Along text p d) : (m.andThen next).Along text p c := by
  unfold Moves.andThen
  split
  · exact hm
  · exact Moves.Along.followedBy hm hnext

/-! ### Single characters -/

theorem step_sound (hc : Exact text c) : (Event.step c).Sound text := by
  refine ⟨?_, fun i hi => absurd hi (Option.not_mem_none i)⟩
  intro d hd
  rcases List.mem_pair.mp hd with rfl | rfl
  · exact hc
  · exact hc.advance

theorem spanAt_cons {b : UInt8} (hb : text[c.pos]? = some b) :
    spanAt text p c = if p b then b :: (text.drop (c.pos + 1)).takeWhile p else [] := by
  obtain ⟨hlt, rfl⟩ := List.getElem?_eq_some_iff.mp hb
  rw [spanAt, List.drop_eq_getElem_cons hlt, List.takeWhile_cons]

theorem spanAt_end (h : text.length ≤ c.pos) : spanAt text p c = [] := by
  rw [spanAt, List.drop_eq_nil_of_le h]
  rfl

theorem Spans.step {b : UInt8} (hc : Exact text c) (hb : text[c.pos]? = some b) (hp : p b = true) :
    Spans text p c (c.advance text) := by
  have hlt : c.pos < text.length := (List.getElem?_eq_some_iff.mp hb).1
  refine ⟨hc.advance, 1, ?_, advance_pos hlt⟩
  rw [spanAt_cons hb, if_pos hp, List.length_cons]
  exact Nat.le_add_left 1 _

theorem oneByOne_along (fuel : ℕ) (hc : Exact text c) : (oneByOne text p fuel c).Along text p c := by
  induction fuel generalizing c with
  | zero => exact .nil hc
  | succ fuel ih =>
      unfold oneByOne
      split
      · next hnone =>
        intro _
        refine ⟨fun _ he => absurd he List.not_mem_nil, .refl hc, fun _ => ?_⟩
        exact spanAt_end (List.getElem?_eq_none_iff.mp hnone)
      · next b hb =>
        split
        · next hp =>
          intro hfine
          have hspans := Spans.step hc hb hp
          obtain ⟨hsound, hspans', hdone⟩ := ih hspans.1 fun e he => hfine e (List.mem_cons_of_mem _ he)
          refine ⟨?_, hspans.trans hspans', hdone⟩
          intro e he
          rcases List.mem_cons.mp he with rfl | he
          · exact step_sound hc
          · exact hsound e he
        · next hp =>
          intro _
          refine ⟨fun _ he => absurd he List.not_mem_nil, .refl hc, fun _ => ?_⟩
          rw [spanAt_cons hb, if_neg hp]

/-- With enough fuel the loop stops at a character that is not in `p`, or at the end. -/
theorem oneByOne_done (fuel : ℕ) (hfuel : text.length < c.pos + fuel) (hc : c.pos ≤ text.length) :
    (oneByOne text p fuel c).done = true := by
  induction fuel generalizing c with
  | zero => omega
  | succ fuel ih =>
      unfold oneByOne
      split
      · rfl
      · next b hb =>
        have hlt : c.pos < text.length := (List.getElem?_eq_some_iff.mp hb).1
        split
        · have hpos := advance_pos hlt
          exact ih (by omega) (by omega)
        · rfl

/-- Single characters are always fine. -/
theorem oneByOne_fine (fuel : ℕ) (c : Cursor) : ∀ e ∈ (oneByOne text p fuel c).trace, e.Fine text := by
  induction fuel generalizing c with
  | zero => exact fun _ he => absurd he List.not_mem_nil
  | succ fuel ih =>
      unfold oneByOne
      split
      · exact fun _ he => absurd he List.not_mem_nil
      · split
        · intro e he
          rcases List.mem_cons.mp he with rfl | he
          · exact trivial
          · exact ih _ e he
        · exact fun _ he => absurd he List.not_mem_nil

/-! ### The loops of the builds -/

theorem skipMoves_along (build : Build) (hc : Exact text c) : (skipMoves text p build c).Along text p c := by
  have hbulk : true = false → p newline = false := fun h => absurd h.symm Bool.false_ne_true
  refine .andThen (.andThen (blocksIf_along hbulk _ (by decide) hc) ?_) fun d hd => oneByOne_along _ hd
  exact fun d hd => blocksIf_along hbulk _ (by decide) hd

theorem stringBlocks_along (hbulk : bulk = false → p newline = false) (build : Build) (hc : Exact text c) :
    (stringBlocks text p bulk build c).Along text p c :=
  .followedBy (blocksIf_along hbulk _ (by decide) hc) fun _ hd => blocksIf_along hbulk _ (by decide) hd

theorem Moves.Along.andThen_done {m : Moves} {next : Cursor → Moves} (hm : m.Along text p c)
    (hfine : ∀ e ∈ (m.andThen next).trace, e.Fine text) (hnext : ∀ d, Exact text d → (next d).done = true) :
    (m.andThen next).done = true := by
  unfold Moves.andThen at hfine ⊢
  split
  · assumption
  · next h =>
    rw [if_neg h] at hfine
    obtain ⟨-, hspans, -⟩ := hm fun e he => hfine e (List.mem_append_left _ he)
    exact hnext _ hspans.1

/-- A skipping function has stopped when it returns. -/
theorem skipMoves_done (hc : Exact text c) (hfine : ∀ e ∈ (skipMoves text p build c).trace, e.Fine text) :
    (skipMoves text p build c).done = true := by
  have hbulk : true = false → p newline = false := fun h => absurd h.symm Bool.false_ne_true
  refine Moves.Along.andThen_done (.andThen (blocksIf_along hbulk _ (by decide) hc) ?_) hfine fun d hd => ?_
  · exact fun d hd => blocksIf_along hbulk _ (by decide) hd
  · exact oneByOne_done _ (by omega) hd.2

/-- What a skipping function does if its steps are fine: it passes the run. -/
theorem skipMoves_spec (hc : Exact text c) (hfine : ∀ e ∈ (skipMoves text p build c).trace, e.Fine text) :
    (∀ e ∈ (skipMoves text p build c).trace, e.Sound text) ∧
      (skipMoves text p build c).cursor = cursorAt text (c.pos + (spanAt text p c).length) := by
  obtain ⟨hsound, hspans, hend⟩ := skipMoves_along build hc hfine
  refine ⟨hsound, ?_⟩
  rw [← hspans.pos_eq (hend (skipMoves_done hc hfine))]
  exact hspans.1.1

theorem skipMoves_scalar_fine (c : Cursor) : ∀ e ∈ (skipMoves text p .scalar c).trace, e.Fine text := by
  intro e he
  exact oneByOne_fine (p := p) (text.length + 1) c e he

/-! ### Plain characters -/

theorem plainTurns_spec (hbulk : bulk = false → p newline = false) (fuel : ℕ) (hfuel : text.length < c.pos + fuel)
    (hc : Exact text c) (hfine : ∀ e ∈ (plainTurns text p bulk build fuel c).2.trace, e.Fine text) :
    (∀ e ∈ (plainTurns text p bulk build fuel c).2.trace, e.Sound text) ∧
      (plainTurns text p bulk build fuel c).1 = spanAt text p c ∧
      (plainTurns text p bulk build fuel c).2.cursor = cursorAt text (c.pos + (spanAt text p c).length) := by
  induction fuel generalizing c with
  | zero =>
      have := hc.2
      omega
  | succ fuel ih =>
      unfold plainTurns at hfine ⊢
      split at hfine
      · next hlt =>
        rw [if_pos hlt]
        dsimp only at hfine ⊢
        -- The blocks go along the run; behind them is a character of the text.
        obtain ⟨hblocks, hturn⟩ : (∀ e ∈ (stringBlocks text p bulk build c).trace, e.Fine text) ∧
            (stringBlocks text p bulk build c).cursor.pos < text.length := by
          split at hfine
          · refine ⟨fun e he => hfine e (by simp [he]), ?_⟩
            exact hfine (.turn (stringBlocks text p bulk build c).cursor.pos) (by simp)
          · refine ⟨fun e he => hfine e (by simp [he]), ?_⟩
            exact hfine (.turn (stringBlocks text p bulk build c).cursor.pos) (by simp)
        obtain ⟨hsound, hspans, -⟩ := stringBlocks_along hbulk build hc hblocks
        have hturnSound : (Event.turn (stringBlocks text p bulk build c).cursor.pos).Sound text :=
          ⟨fun _ hd => absurd hd List.not_mem_nil, fun i hi => by
            obtain rfl := Option.mem_some.mp hi
            exact hturn⟩
        generalize stringBlocks text p bulk build c = m at *
        have hget : text[m.cursor.pos]? = some (text.getD m.cursor.pos 0) := by
          rw [List.getElem?_eq_getElem hturn, List.getD_eq_getElem _ _ hturn]
        have hspan := hspans.spanAt_eq
        have hpassed := hspans.passed_eq
        obtain ⟨n, hn, hpos⟩ := hspans.2
        split
        · next hp =>
          rw [if_pos hp] at hfine
          have hstep := Spans.step hspans.1 hget hp
          have hadv : (m.cursor.advance text).pos = m.cursor.pos + 1 := advance_pos hturn
          obtain ⟨hsound', hresult, hcursor⟩ := ih (by omega) hstep.1 fun e he => hfine e (by simp [he])
          have hcons := spanAt_cons (p := p) hget
          rw [if_pos hp] at hcons
          have hrest : spanAt text p (m.cursor.advance text) = (text.drop (m.cursor.pos + 1)).takeWhile p := by
            rw [spanAt, hadv]
          have hall : spanAt text p c = (spanAt text p c).take n ++ spanAt text p m.cursor := by
            rw [hspan, hpos, Nat.add_sub_cancel_left, List.take_append_drop]
          refine ⟨?_, ?_, ?_⟩
          · intro e he
            simp only [List.mem_append, List.mem_cons, List.not_mem_nil, or_false] at he
            obtain (he | rfl) | rfl | he := he
            · exact hsound e he
            · exact hturnSound
            · exact step_sound hspans.1
            · exact hsound' e he
          · rw [hpassed, hresult, hrest, ← hcons, hpos, Nat.add_sub_cancel_left, ← hall]
          · rw [hcursor, hadv, hrest]
            have hlen := congrArg List.length hall
            rw [List.length_append, hcons, List.length_cons, List.length_take, Nat.min_eq_left hn] at hlen
            congr 1
            omega
        · next hp =>
          rw [if_neg hp] at hfine
          have hstop : spanAt text p m.cursor = [] := by rw [spanAt_cons hget, if_neg hp]
          have hend := hspans.pos_eq hstop
          refine ⟨?_, ?_, ?_⟩
          · intro e he
            simp only [List.mem_append, List.mem_cons, List.not_mem_nil, or_false] at he
            obtain he | rfl := he
            · exact hsound e he
            · exact hturnSound
          · dsimp only
            rw [hpassed, hend, Nat.add_sub_cancel_left, List.take_length]
          · rw [← hend]
            exact hspans.1.1
      · next hge =>
        rw [if_neg hge]
        have hnil : spanAt text p c = [] := spanAt_end (Nat.le_of_not_lt hge)
        refine ⟨fun _ he => absurd he List.not_mem_nil, hnil.symm, ?_⟩
        rw [hnil]
        exact hc.1

theorem plainTurns_scalar_fine (fuel : ℕ) (c : Cursor) :
    ∀ e ∈ (plainTurns text p bulk .scalar fuel c).2.trace, e.Fine text := by
  induction fuel generalizing c with
  | zero => exact fun _ he => absurd he List.not_mem_nil
  | succ fuel ih =>
      unfold plainTurns
      split
      · next hlt =>
        have hm : stringBlocks text p bulk .scalar c = ⟨[], c, false⟩ := rfl
        rw [hm]
        dsimp only
        split
        · intro e he
          simp only [List.nil_append, List.mem_append, List.mem_cons, List.not_mem_nil, or_false] at he
          obtain rfl | rfl | he := he
          · exact hlt
          · exact trivial
          · exact ih _ e he
        · intro e he
          obtain rfl := List.mem_singleton.mp he
          exact hlt
      · exact fun _ he => absurd he List.not_mem_nil

end NeForce.Toml
