import NeForce.BigEndian

/-! # Boolean conditions as text

A condition is a tree of tests, negations, conjunctions and disjunctions, written with parentheses as units of text.
`Fits` is the precedence: a conjunction binds tighter than a disjunction, a negation tighter than both. A text has at
most one reading (`toks_inj`), and its value at a row is three-valued, as tests on missing values are unknown. -/

namespace NeForce.BoolSyntax

/-! ### Truth values -/

inductive Truth where
  | no
  | unknown
  | yes
  deriving DecidableEq

namespace Truth

def neg : Truth → Truth
  | no => yes
  | unknown => unknown
  | yes => no

def and : Truth → Truth → Truth
  | no, _ => no
  | _, no => no
  | yes, t => t
  | unknown, _ => unknown

def or : Truth → Truth → Truth
  | yes, _ => yes
  | _, yes => yes
  | no, t => t
  | unknown, _ => unknown

@[simp] theorem and_eq_yes (s t : Truth) : s.and t = yes ↔ s = yes ∧ t = yes := by
  cases s <;> cases t <;> decide

@[simp] theorem or_eq_yes (s t : Truth) : s.or t = yes ↔ s = yes ∨ t = yes := by
  cases s <;> cases t <;> decide

end Truth

/-! ### Conditions -/

/-- The units of the text of a condition. -/
inductive Tok where
  | test (text : Bytes)
  | not
  | and
  | or
  | lpar
  | rpar
  deriving DecidableEq

inductive Cond where
  | test (text : Bytes)
  | not (c : Cond)
  | paren (c : Cond)
  | and (c d : Cond)
  | or (c d : Cond)

namespace Cond

def toks : Cond → List Tok
  | test text => [.test text]
  | not c => .not :: c.toks
  | paren c => .lpar :: c.toks ++ [.rpar]
  | and c d => c.toks ++ .and :: d.toks
  | or c d => c.toks ++ .or :: d.toks

/-- How loosely the outermost operator binds. -/
def rank : Cond → ℕ
  | and _ _ => 1
  | or _ _ => 2
  | _ => 0

/-- The tree is the one that its text has by precedence; the operators are read from the left. -/
def Fits : Cond → Prop
  | test _ => True
  | not c => c.Fits ∧ c.rank = 0
  | paren c => c.Fits
  | and c d => c.Fits ∧ d.Fits ∧ c.rank = 0 ∧ d.rank ≤ 1
  | or c d => c.Fits ∧ d.Fits ∧ c.rank ≤ 1

/-- The value at a row, which gives the values of the tests. -/
def value (row : Bytes → Truth) : Cond → Truth
  | test text => row text
  | not c => (c.value row).neg
  | paren c => c.value row
  | and c d => (c.value row).and (d.value row)
  | or c d => (c.value row).or (d.value row)

theorem rank_le_two (c : Cond) : c.rank ≤ 2 := by
  cases c <;> simp [rank]

/-- No operator that a condition of rank `k` could go on with stands next. -/
def Stops (k : ℕ) (r : List Tok) : Prop := (1 ≤ k → r.head? ≠ some .and) ∧ (2 ≤ k → r.head? ≠ some .or)

theorem stops_zero (r : List Tok) : Stops 0 r := ⟨by omega, by omega⟩

theorem Stops.mono {j k : ℕ} {r : List Tok} (h : Stops k r) (hjk : j ≤ k) : Stops j r :=
  ⟨fun hj => h.1 (hj.trans hjk), fun hj => h.2 (hj.trans hjk)⟩

/-- The text of `c` can be read in one way as a condition of rank at most `k`. -/
def Unique (k : ℕ) (c : Cond) : Prop := c.rank ≤ k → ∀ d r r', d.Fits → d.rank ≤ k → Stops k r → Stops k r' →
  c.toks ++ r = d.toks ++ r' → c = d ∧ r = r'

/-- Readings of rank one extend those of rank zero. -/
theorem unique_one {c : Cond} (h0 : Unique 0 c) (hc : c.rank = 0) : Unique 1 c := by
  intro _ d r r' hd hr hs hs' heq
  cases d with
  | and d e =>
      rw [toks, List.append_assoc] at heq
      obtain ⟨rfl, rfl⟩ := h0 hc.le d r _ hd.1 hd.2.2.1.le (stops_zero _) (stops_zero _) heq
      exact absurd rfl (hs.1 le_rfl)
  | or d e => simp [rank] at hr
  | test text => exact h0 hc.le _ r r' hd le_rfl (stops_zero _) (stops_zero _) heq
  | not d => exact h0 hc.le _ r r' hd le_rfl (stops_zero _) (stops_zero _) heq
  | paren d => exact h0 hc.le _ r r' hd le_rfl (stops_zero _) (stops_zero _) heq

theorem unique_two {c : Cond} (h1 : Unique 1 c) (hc : c.rank ≤ 1) : Unique 2 c := by
  intro _ d r r' hd hr hs hs' heq
  by_cases hd1 : d.rank ≤ 1
  · exact h1 hc d r r' hd hd1 (hs.mono (by omega)) (hs'.mono (by omega)) heq
  · cases d with
    | or d e =>
        rw [toks, List.append_assoc] at heq
        have hor : Stops 1 (.or :: e.toks ++ r') := ⟨fun _ => by simp, by omega⟩
        obtain ⟨rfl, rfl⟩ := h1 hc d r _ hd.1 hd.2.2 (hs.mono (by omega)) hor heq
        exact absurd rfl (hs.2 le_rfl)
    | and d e => exact absurd (by simp [rank]) hd1
    | test text => exact absurd (by simp [rank]) hd1
    | not d => exact absurd (by simp [rank]) hd1
    | paren d => exact absurd (by simp [rank]) hd1

theorem unique_of_zero {c : Cond} (h0 : Unique 0 c) (hc : c.rank = 0) : ∀ k ≤ 2, Unique k c := by
  have h1 := unique_one h0 hc
  intro k hk
  obtain rfl | rfl | rfl : k = 0 ∨ k = 1 ∨ k = 2 := by omega
  · exact h0
  · exact h1
  · exact unique_two h1 (by omega)

/-- By induction on the first reading. -/
theorem unique (c : Cond) (hc : c.Fits) : ∀ k ≤ 2, Unique k c := by
  induction c with
  | test text =>
      refine unique_of_zero (fun _ d r r' hd hr _ _ heq => ?_) rfl
      cases d with
      | test text' => simpa [toks] using heq
      | not d => simp [toks] at heq
      | paren d => simp [toks] at heq
      | and d e => simp [rank] at hr
      | or d e => simp [rank] at hr
  | not c ih =>
      refine unique_of_zero (fun _ d r r' hd hr _ _ heq => ?_) rfl
      cases d with
      | not d =>
          obtain ⟨rfl, rfl⟩ := ih hc.1 0 (by omega) hc.2.le d r r' hd.1 hd.2.le (stops_zero _) (stops_zero _)
            (List.cons.inj heq).2
          exact ⟨rfl, rfl⟩
      | test text' => simp [toks] at heq
      | paren d => simp [toks] at heq
      | and d e => simp [rank] at hr
      | or d e => simp [rank] at hr
  | paren c ih =>
      refine unique_of_zero (fun _ d r r' hd hr _ _ heq => ?_) rfl
      cases d with
      | paren d =>
          have hrpar (r : List Tok) : Stops 2 (.rpar :: r) := ⟨fun _ => by simp, fun _ => by simp⟩
          have heq' : c.toks ++ .rpar :: r = d.toks ++ .rpar :: r' := by simpa [toks] using heq
          obtain ⟨rfl, htail⟩ := ih hc 2 le_rfl c.rank_le_two d _ _ hd d.rank_le_two (hrpar r) (hrpar r') heq'
          exact ⟨rfl, (List.cons.inj htail).2⟩
      | test text' => simp [toks] at heq
      | not d => simp [toks] at heq
      | and d e => simp [rank] at hr
      | or d e => simp [rank] at hr
  | and c d ihc ihd =>
      have hand (r : List Tok) : (and c d).toks ++ r = c.toks ++ .and :: (d.toks ++ r) := by simp [toks]
      have h1 : Unique 1 (and c d) := by
        intro _ e r r' he hr hs hs' heq
        rw [hand] at heq
        cases e with
        | and e f =>
            rw [toks, List.append_assoc] at heq
            obtain ⟨rfl, htail⟩ :=
              ihc hc.1 0 (by omega) hc.2.2.1.le e _ _ he.1 he.2.2.1.le (stops_zero _) (stops_zero _) heq
            obtain ⟨rfl, rfl⟩ := ihd hc.2.1 1 (by omega) hc.2.2.2 f r r' he.2.1 he.2.2.2 hs hs' (List.cons.inj htail).2
            exact ⟨rfl, rfl⟩
        | or e f => simp [rank] at hr
        | test text =>
            obtain ⟨-, rfl⟩ := ihc hc.1 0 (by omega) hc.2.2.1.le _ _ r' he le_rfl (stops_zero _) (stops_zero _) heq
            exact absurd rfl (hs'.1 le_rfl)
        | not e =>
            obtain ⟨-, rfl⟩ := ihc hc.1 0 (by omega) hc.2.2.1.le _ _ r' he le_rfl (stops_zero _) (stops_zero _) heq
            exact absurd rfl (hs'.1 le_rfl)
        | paren e =>
            obtain ⟨-, rfl⟩ := ihc hc.1 0 (by omega) hc.2.2.1.le _ _ r' he le_rfl (stops_zero _) (stops_zero _) heq
            exact absurd rfl (hs'.1 le_rfl)
      intro k hk
      obtain rfl | rfl | rfl : k = 0 ∨ k = 1 ∨ k = 2 := by omega
      · exact fun h => absurd h (by simp [rank])
      · exact h1
      · exact unique_two h1 le_rfl
  | or c d ihc ihd =>
      intro k hk
      obtain rfl | rfl | rfl : k = 0 ∨ k = 1 ∨ k = 2 := by omega
      · exact fun h => absurd h (by simp [rank])
      · exact fun h => absurd h (by simp [rank])
      · intro _ e r r' he hr hs hs' heq
        have hor (d : Cond) (r : List Tok) : Stops 1 (.or :: (d.toks ++ r)) := ⟨fun _ => by simp, by omega⟩
        have heq' : c.toks ++ .or :: (d.toks ++ r) = e.toks ++ r' := by simpa [toks] using heq
        by_cases he1 : e.rank ≤ 1
        · obtain ⟨-, rfl⟩ := ihc hc.1 1 (by omega) hc.2.2 e _ r' he he1 (hor d r) (hs'.mono (by omega)) heq'
          exact absurd rfl (hs'.2 le_rfl)
        · cases e with
          | or e f =>
              rw [toks, List.append_assoc] at heq'
              obtain ⟨rfl, htail⟩ := ihc hc.1 1 (by omega) hc.2.2 e _ _ he.1 he.2.2 (hor d r) (hor f r') heq'
              obtain ⟨rfl, rfl⟩ := ihd hc.2.1 2 le_rfl d.rank_le_two f r r' he.2.1 f.rank_le_two hs hs'
                (List.cons.inj htail).2
              exact ⟨rfl, rfl⟩
          | and e f => exact absurd (by simp [rank]) he1
          | test text => exact absurd (by simp [rank]) he1
          | not e => exact absurd (by simp [rank]) he1
          | paren e => exact absurd (by simp [rank]) he1

/-- A text has at most one reading. -/
theorem toks_inj {c d : Cond} (hc : c.Fits) (hd : d.Fits) (h : c.toks = d.toks) : c = d := by
  have hs : Stops 2 [] := ⟨fun _ => by simp, fun _ => by simp⟩
  refine (unique c hc 2 le_rfl c.rank_le_two d [] [] hd d.rank_le_two hs hs ?_).1
  rw [h]

/-! ### Conjunctions -/

/-- The conjunction of two conditions without an outer disjunction, as it is read. -/
def conj : Cond → Cond → Cond
  | and c d, e => and c (conj d e)
  | c, e => and c e

theorem conj_fits {c e : Cond} (hc : c.Fits) (hr : c.rank ≤ 1) (he : e.Fits) (hre : e.rank ≤ 1) :
    (conj c e).Fits ∧ (conj c e).rank = 1 ∧ (conj c e).toks = c.toks ++ .and :: e.toks ∧
      ∀ row, (conj c e).value row = .yes ↔ c.value row = .yes ∧ e.value row = .yes := by
  induction c with
  | and c d _ ihd =>
      obtain ⟨h1, h2, h3, h4⟩ := ihd hc.2.1 hc.2.2.2
      refine ⟨⟨hc.1, h1, hc.2.2.1, h2.le⟩, rfl, ?_, fun row => ?_⟩
      · rw [conj, toks, h3, toks, List.append_assoc, List.cons_append]
      · rw [conj, value, Truth.and_eq_yes, h4, value, Truth.and_eq_yes, and_assoc]
  | or c d => simp [rank] at hr
  | test text => exact ⟨⟨hc, he, rfl, hre⟩, rfl, rfl, fun row => Truth.and_eq_yes _ _⟩
  | not c => exact ⟨⟨hc, he, rfl, hre⟩, rfl, rfl, fun row => Truth.and_eq_yes _ _⟩
  | paren c => exact ⟨⟨hc, he, rfl, hre⟩, rfl, rfl, fun row => Truth.and_eq_yes _ _⟩

/-- The disjunction of two conditions, as it is read. -/
def disj : Cond → Cond → Cond
  | or c d, e => or c (disj d e)
  | c, e => or c e

theorem disj_fits {c e : Cond} (hc : c.Fits) (he : e.Fits) :
    (disj c e).Fits ∧ (disj c e).toks = c.toks ++ .or :: e.toks ∧
      ∀ row, (disj c e).value row = .yes ↔ c.value row = .yes ∨ e.value row = .yes := by
  induction c with
  | or c d _ ihd =>
      obtain ⟨h1, h2, h3⟩ := ihd hc.2.1
      refine ⟨⟨hc.1, h1, hc.2.2⟩, ?_, fun row => ?_⟩
      · rw [disj, toks, h2, toks, List.append_assoc, List.cons_append]
      · rw [disj, value, Truth.or_eq_yes, h3, value, Truth.or_eq_yes, or_assoc]
  | and c d => exact ⟨⟨hc, he, le_rfl⟩, rfl, fun row => Truth.or_eq_yes _ _⟩
  | test text => exact ⟨⟨hc, he, Nat.zero_le _⟩, rfl, fun row => Truth.or_eq_yes _ _⟩
  | not c => exact ⟨⟨hc, he, Nat.zero_le _⟩, rfl, fun row => Truth.or_eq_yes _ _⟩
  | paren c => exact ⟨⟨hc, he, Nat.zero_le _⟩, rfl, fun row => Truth.or_eq_yes _ _⟩

end Cond

/-- A text is satisfied by a row if it has a reading that is true there. -/
def Satisfied (row : Bytes → Truth) (text : List Tok) : Prop := ∃ c : Cond, c.Fits ∧ c.toks = text ∧ c.value row = .yes

theorem satisfied_toks {c : Cond} (hc : c.Fits) (row : Bytes → Truth) : Satisfied row c.toks ↔ c.value row = .yes := by
  constructor
  · rintro ⟨d, hd, htoks, hval⟩
    obtain rfl := Cond.toks_inj hd hc htoks
    exact hval
  · exact fun h => ⟨c, hc, rfl, h⟩

end NeForce.BoolSyntax
