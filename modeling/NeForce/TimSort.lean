import NeForce.Rotations
import NeForce.TimMerge

/-! # `tim_sort`

The range is cut into runs from the front; a run that is too short is filled up by a binary insertion sort.  The runs are
merged as the lengths of the last three of them ask for.  A run is its base and its length, the last run comes first. -/

namespace NeForce.TimSort

open Rotations (reverseRandom reverseRandom_spec)

variable {α : Type}

section

variable (lt : α → α → Bool)

/-- The loop of `minrun`. -/
def minrunLoop (n remainder : ℕ) : ℕ :=
  if 64 ≤ n then minrunLoop (n / 2) (remainder ||| n % 2) else n + remainder
termination_by n

def minrun (n : ℕ) : ℕ := minrunLoop n 0

/-- How many elements pass the test with the one before them. -/
def runLength (test : α → α → Bool) : α → List α → ℕ
  | _, [] => 0
  | previous, x :: l => if test x previous then runLength test x l + 1 else 0

/-- `count_run`: the length of the run in front, which is reversed if it descends. -/
def countRun : List α → Option (ℕ × List α)
  | [] => some (0, [])
  | [x] => some (1, [x])
  | x :: y :: l =>
      if lt y x then do
        let length := runLength lt y l + 2
        let l ← reverseRandom length 0 (x :: y :: l)
        some (length, l)
      else some (runLength (fun a b => !lt a b) y l + 2, x :: y :: l)

/-- The loop of `binary_insertion_sort`, with `n` elements to go. -/
def binaryInsertionLoop : ℕ → ℕ → List α → Option (List α)
  | 0, _, l => some l
  | n + 1, current, l => do
      let value ← l[current]?
      let position ← upperBound lt (l.take current) 0 current value
      let sorted := (l.take current).take position ++ value :: (l.take current).drop position
      binaryInsertionLoop n (current + 1) (sorted ++ l.drop (current + 1))

def binaryInsertionSort (l : List α) : Option (List α) :=
  if l = [] then some l else binaryInsertionLoop lt (l.length - 1) 1 l

/-- The run in front, of `length` elements, or of `minrun` ones if these are more and there are as many. -/
def fillRun (minrun length : ℕ) (l : List α) : Option (ℕ × List α) :=
  if length < minrun then do
    let force := min l.length minrun
    let sorted ← binaryInsertionSort lt (l.take force)
    some (force, sorted ++ l.drop force)
  else some (length, l)

abbrev Runs := List (ℕ × ℕ)

def mergeRuns (left right : ℕ × ℕ) (l : List α) : Option ((ℕ × ℕ) × List α) := do
  let stop := right.1 + right.2
  let merged ← timMerge lt (right.1 - left.1) ((l.take stop).drop left.1)
  some ((left.1, left.2 + right.2), l.take left.1 ++ merged ++ l.drop stop)

/-- `merge_at` for the last two runs, or for the two before the last one. -/
def mergeAt (lower : Bool) : Runs → List α → Option (Runs × List α)
  | last :: right :: left :: runs, l =>
      if lower then do
        let (run, l) ← mergeRuns lt left right l
        some (last :: run :: runs, l)
      else do
        let (run, l) ← mergeRuns lt right last l
        some (run :: left :: runs, l)
  | [last, right], l =>
      if lower then none
      else do
        let (run, l) ← mergeRuns lt right last l
        some ([run], l)
  | _, _ => none

/-- Merges while `next` says which runs; at most `n` times. -/
def mergeWhile (next : Runs → Option Bool) : ℕ → Runs → List α → Option (Runs × List α)
  | 0, _, _ => none
  | n + 1, runs, l =>
      match next runs with
      | none => some (runs, l)
      | some lower => do
          let (runs, l) ← mergeAt lt lower runs l
          mergeWhile next n runs l

end

/-- The choice of `collapse`. -/
def collapseNext : Runs → Option Bool
  | last :: right :: left :: _ =>
      if left.2 ≤ right.2 + last.2 then some (decide (left.2 < last.2))
      else if right.2 ≤ last.2 then some false
      else none
  | [last, right] => if right.2 ≤ last.2 then some false else none
  | _ => none

/-- The choice of the loop behind the runs. -/
def finalNext : Runs → Option Bool
  | last :: _ :: left :: _ => some (decide (left.2 < last.2))
  | [_, _] => some false
  | _ => none

section

variable (lt : α → α → Bool)

/-- The loop over the range, with at most `n` runs. -/
def runsLoop (minrun : ℕ) : ℕ → ℕ → Runs → List α → Option (Runs × List α)
  | 0, _, _, _ => none
  | n + 1, current, runs, l =>
      if current = l.length then some (runs, l)
      else do
        let (length, rest) ← countRun lt (l.drop current)
        let (length, rest) ← fillRun lt minrun length rest
        let (runs, l) ← mergeWhile lt collapseNext (runs.length + 2) ((current, length) :: runs) (l.take current ++ rest)
        runsLoop minrun n (current + length) runs l

def timSort (l : List α) : Option (List α) :=
  if l.length = 0 then some l
  else do
    let (runs, l) ← runsLoop lt (minrun l.length) (l.length + 1) 0 [] l
    let (_, l) ← mergeWhile lt finalNext (runs.length + 1) runs l
    some l

end

/-! ### Runs in front -/

variable {o : StrictWeakOrder α} {l s t rest : List α} {x y : α}

theorem runLength_spec (test : α → α → Bool) (x : α) (l : List α) : ∃ s t, l = s ++ t ∧ s.length = runLength test x l ∧
    (x :: s).IsChain fun a b => test b a = true := by
  induction l generalizing x with
  | nil => exact ⟨[], [], rfl, rfl, .singleton x⟩
  | cons y l ih =>
      unfold runLength
      split
      · next h =>
        obtain ⟨s, t, h1, h2, h3⟩ := ih y
        exact ⟨y :: s, t, by rw [h1, List.cons_append], by rw [List.length_cons, h2], .cons_cons h h3⟩
      · exact ⟨[], y :: l, rfl, rfl, .singleton x⟩

theorem countRun_spec (hl : l ≠ []) : ∃ s t, countRun o.lt l = some (s.length, s ++ t) ∧ s ≠ [] ∧ InOrder o s ∧
    Stable o l (s ++ t) := by
  match l, hl with
  | [x], _ => exact ⟨[x], [], rfl, List.cons_ne_nil _ _, List.pairwise_singleton .., .refl _⟩
  | x :: y :: l, _ =>
      rw [countRun]
      by_cases h : o.lt y x = true
      · rw [if_pos h]
        obtain ⟨s, t, rfl, h2, h3⟩ := runLength_spec o.lt y l
        have : IsTrans α fun a b => o.lt b a = true := ⟨fun _ _ _ h1 h2 => o.trans h2 h1⟩
        have hdesc : (x :: y :: s).Pairwise fun a b => o.lt b a = true := List.IsChain.pairwise (.cons_cons h h3)
        have hrev := reverseRandom_spec [] (x :: y :: s) t
        simp only [List.nil_append, List.length_nil, Nat.zero_add, List.length_cons] at hrev
        refine ⟨(x :: y :: s).reverse, t, ?_, by simp, ?_, ?_⟩
        · rw [← h2, Option.bind_eq_bind]
          have hrev' : reverseRandom (s.length + 2) 0 (x :: y :: (s ++ t)) = some ((x :: y :: s).reverse ++ t) := hrev
          simp only [hrev', Option.bind_some, List.length_reverse, List.length_cons]
        · rw [InOrder, List.pairwise_reverse]
          exact hdesc.imp fun h => o.asymm h
        · exact (Stable.reverse hdesc).append (.refl t)
      · rw [if_neg h]
        obtain ⟨s, t, rfl, h2, h3⟩ := runLength_spec (fun a b => !o.lt a b) y l
        have hasc : InOrder o (x :: y :: s) := by
          have hchain : (x :: y :: s).IsChain fun a b => o.lt b a = false :=
            .cons_cons (Bool.eq_false_iff.mpr h) (h3.imp fun _ _ h => by simpa using h)
          have : IsTrans α fun a b => o.lt b a = false := ⟨fun _ _ _ h1 h2 => o.ge_trans h1 h2⟩
          exact hchain.pairwise
        refine ⟨x :: y :: s, t, ?_, List.cons_ne_nil _ _, hasc, .refl _⟩
        rw [← h2]
        rfl

theorem upperBound_eq (hs : InOrder o s) (value : α) :
    ∃ s₁ s₂, Cut (o.lt value) s s₁ s₂ ∧ upperBound o.lt s 0 s.length value = some s₁.length := by
  have hcut := cut_of_upward (@Sorted.upward_above α α o id s hs value)
  have hle : (s.takeWhile (!above o id value ·)).length ≤ s.length := (List.takeWhile_prefix _).length_le
  exact ⟨_, _, hcut, bisect_eq hcut (Nat.zero_le _) hle (Nat.le_refl _) (Nat.lt_succ_self _)⟩

theorem binaryInsertionLoop_spec (hs : InOrder o s) (t : List α) :
    ∃ r, binaryInsertionLoop o.lt t.length s.length (s ++ t) = some r ∧ InOrder o r ∧ Stable o (s ++ t) r := by
  induction t generalizing s with
  | nil => exact ⟨s, by simp [binaryInsertionLoop], hs, by simpa using Stable.refl s⟩
  | cons x t ih =>
      obtain ⟨s₁, s₂, hcut, hpos⟩ := upperBound_eq hs x
      obtain ⟨hin, hst⟩ := stable_insert hcut hs
      obtain ⟨r, i1, i2, i3⟩ := ih hin
      have hget : (s ++ x :: t)[s.length]? = some x := by simp
      have hdrop : (s ++ x :: t).drop (s.length + 1) = t := by
        rw [← List.drop_drop, List.drop_left, List.drop_one, List.tail_cons]
      have hlen : (s₁ ++ x :: s₂).length = s.length + 1 := by
        rw [hcut.eq]
        simp
        omega
      refine ⟨r, ?_, i2, ?_⟩
      · rw [hlen] at i1
        have h1 : s.take s₁.length = s₁ := by rw [hcut.eq, List.take_left]
        have h2 : s.drop s₁.length = s₂ := by rw [hcut.eq, List.drop_left]
        rw [List.length_cons, binaryInsertionLoop]
        simp only [hget, List.take_left, hdrop, Option.bind_eq_bind, Option.bind_some, hpos, h1, h2]
        exact i1
      · have := (hst.append (.refl t)).trans i3
        rwa [List.append_assoc, List.singleton_append] at this

theorem binaryInsertionSort_spec (l : List α) : ∃ r, binaryInsertionSort o.lt l = some r ∧ InOrder o r ∧ Stable o l r := by
  unfold binaryInsertionSort
  match l with
  | [] => exact ⟨[], rfl, .nil, .refl _⟩
  | x :: l =>
      rw [if_neg (List.cons_ne_nil x l)]
      exact binaryInsertionLoop_spec (List.pairwise_singleton (fun x y => o.lt y x = false) x) l

theorem fillRun_spec {n : ℕ} (hs : s ≠ []) (hin : InOrder o s) (t : List α) : ∃ s' t',
    fillRun o.lt n s.length (s ++ t) = some (s'.length, s' ++ t') ∧ s' ≠ [] ∧ InOrder o s' ∧
      Stable o (s ++ t) (s' ++ t') := by
  unfold fillRun
  split
  · next hlt =>
    obtain ⟨r, h1, h2, h3⟩ := binaryInsertionSort_spec (o := o) ((s ++ t).take (min (s ++ t).length n))
    have hpos : 0 < s.length := List.length_pos_iff.mpr hs
    have hlen : r.length = min (s ++ t).length n := by
      rw [h3.length_eq, List.length_take]
      omega
    refine ⟨r, (s ++ t).drop (min (s ++ t).length n), ?_, ?_, h2, ?_⟩
    · rw [hlen]
      simp only [h1, Option.bind_eq_bind, Option.bind_some]
    · refine List.ne_nil_of_length_pos ?_
      rw [hlen, List.length_append]
      omega
    · have := h3.append (.refl ((s ++ t).drop (min (s ++ t).length n)))
      rwa [List.take_append_drop] at this
  · exact ⟨s, t, rfl, hs, hin, .refl _⟩

/-! ### Merging runs -/

/-- The runs one behind the other, the last run first. -/
def joined : List (List α) → List α
  | [] => []
  | s :: runs => joined runs ++ s

def layout : List (List α) → Runs
  | [] => []
  | s :: runs => ((joined runs).length, s.length) :: layout runs

@[simp] theorem length_layout (runs : List (List α)) : (layout runs).length = runs.length := by
  induction runs with
  | nil => rfl
  | cons s runs ih => rw [layout, List.length_cons, ih, List.length_cons]

theorem mergeRuns_eq (hs : InOrder o s) (ht : InOrder o t) (p q : List α) :
    mergeRuns o.lt (p.length, s.length) ((p ++ s).length, t.length) (p ++ s ++ t ++ q) =
      some ((p.length, (mergeBy o s t).length), p ++ mergeBy o s t ++ q) := by
  have hstop : (p ++ s).length + t.length = (p ++ s ++ t).length := List.length_append.symm
  have hmid : (p ++ s).length - p.length = s.length := by rw [List.length_append, Nat.add_sub_cancel_left]
  have hseg : ((p ++ s ++ t ++ q).take (p ++ s ++ t).length).drop p.length = s ++ t := by
    rw [List.take_left, List.append_assoc, List.drop_left]
  have hfront : (p ++ s ++ t ++ q).take p.length = p := by
    rw [List.append_assoc, List.append_assoc, List.take_left]
  unfold mergeRuns
  simp only [hstop, hmid, hseg, timMerge_eq hs ht, Option.bind_eq_bind, Option.bind_some, hfront, List.drop_left,
    length_mergeBy]

/-- A merge of two neighbours. -/
theorem mergeAt_spec {lower : Bool} {runs : List (List α)} (hin : ∀ s ∈ runs, InOrder o s)
    (hlen : if lower then 3 ≤ runs.length else 2 ≤ runs.length) (q : List α) : ∃ runs',
      mergeAt o.lt lower (layout runs) (joined runs ++ q) = some (layout runs', joined runs' ++ q) ∧
        (∀ s ∈ runs', InOrder o s) ∧ Stable o (joined runs) (joined runs') ∧ runs'.length + 1 = runs.length := by
  match lower, runs, hin, hlen with
  | true, last :: right :: left :: runs, hin, _ =>
      obtain ⟨h1, h2, h3, h4⟩ : InOrder o last ∧ InOrder o right ∧ InOrder o left ∧ ∀ s ∈ runs, InOrder o s := by
        simpa using hin
      have hm := mergeRuns_eq h3 h2 (joined runs) (last ++ q)
      refine ⟨last :: mergeBy o left right :: runs, ?_, ?_, ?_, rfl⟩
      · simp only [layout, joined, mergeAt, if_true, Option.bind_eq_bind]
        rw [List.append_assoc _ last q, hm, Option.bind_some]
        simp [length_mergeBy]
      · simpa using ⟨h1, mergeBy_inOrder h3 h2, h4⟩
      · have hst : Stable o (joined runs ++ (left ++ right)) (joined runs ++ mergeBy o left right) :=
          (Stable.refl _).append (mergeBy_stable h3)
        rw [← List.append_assoc] at hst
        exact hst.append (.refl last)
  | false, last :: right :: left :: runs, hin, _ =>
      obtain ⟨h1, h2, h3⟩ : InOrder o last ∧ InOrder o right ∧ ∀ s ∈ left :: runs, InOrder o s := by simpa using hin
      have hm := mergeRuns_eq h2 h1 (joined (left :: runs)) q
      refine ⟨mergeBy o right last :: left :: runs, ?_, ?_, ?_, rfl⟩
      · simp only [joined] at hm
        simp only [layout, joined, mergeAt, Bool.false_eq_true, if_false, Option.bind_eq_bind]
        rw [hm, Option.bind_some]
      · exact List.forall_mem_cons.mpr ⟨mergeBy_inOrder h2 h1, h3⟩
      · have hst : Stable o (joined (left :: runs) ++ (right ++ last)) (joined (left :: runs) ++ mergeBy o right last) :=
          (Stable.refl _).append (mergeBy_stable h2)
        rwa [← List.append_assoc] at hst
  | false, [last, right], hin, _ =>
      obtain ⟨h1, h2⟩ : InOrder o last ∧ InOrder o right := by simpa using hin
      have hm := mergeRuns_eq h2 h1 [] q
      refine ⟨[mergeBy o right last], ?_, ?_, ?_, rfl⟩
      · simp only [List.nil_append] at hm
        simp only [layout, joined, mergeAt, Bool.false_eq_true, if_false, Option.bind_eq_bind, List.nil_append]
        rw [hm, Option.bind_some]
      · simpa using mergeBy_inOrder h2 h1
      · exact mergeBy_stable h2
  | true, [], _, hlen => simp at hlen
  | true, [_], _, hlen => simp at hlen
  | true, [_, _], _, hlen => simp at hlen
  | false, [], _, hlen => simp at hlen
  | false, [_], _, hlen => simp at hlen

/-- Neither choice is made of runs that are not there. -/
def Chooses (next : Runs → Option Bool) : Prop :=
  ∀ runs lower, next runs = some lower → if lower then 3 ≤ runs.length else 2 ≤ runs.length

theorem chooses_of_three (lower : Bool) {runs : Runs} (h : 3 ≤ runs.length) :
    if lower then 3 ≤ runs.length else 2 ≤ runs.length := by
  split <;> omega

theorem chooses_collapseNext : Chooses collapseNext := by
  intro runs lower h
  match runs, h with
  | last :: right :: left :: runs, _ => exact chooses_of_three lower (by simp)
  | [last, right], h =>
      rw [collapseNext] at h
      split at h
      · rw [← Option.some.inj h]
        exact Nat.le_refl 2
      · cases h

theorem chooses_finalNext : Chooses finalNext := by
  intro runs lower h
  match runs, h with
  | last :: right :: left :: runs, _ => exact chooses_of_three lower (by simp)
  | [last, right], h =>
      rw [← Option.some.inj h]
      exact Nat.le_refl 2

theorem mergeWhile_spec {next : Runs → Option Bool} (hnext : Chooses next) {runs : List (List α)} {n : ℕ}
    (hin : ∀ s ∈ runs, InOrder o s) (hn : runs.length < n) (q : List α) : ∃ runs',
      mergeWhile o.lt next n (layout runs) (joined runs ++ q) = some (layout runs', joined runs' ++ q) ∧
        (∀ s ∈ runs', InOrder o s) ∧ Stable o (joined runs) (joined runs') ∧ next (layout runs') = none := by
  induction n generalizing runs with
  | zero => omega
  | succ n ih =>
      unfold mergeWhile
      cases h : next (layout runs) with
      | none => exact ⟨runs, rfl, hin, .refl _, h⟩
      | some lower =>
          have hlen := hnext _ _ h
          rw [length_layout] at hlen
          obtain ⟨runs₁, h1, h2, h3, h4⟩ := mergeAt_spec hin hlen q
          obtain ⟨runs₂, i1, i2, i3, i4⟩ := ih h2 (by omega)
          refine ⟨runs₂, ?_, i2, h3.trans i3, i4⟩
          simp only [h1, Option.bind_eq_bind, Option.bind_some]
          exact i1

theorem finalNext_eq_none {runs : Runs} (h : finalNext runs = none) : runs.length ≤ 1 := by
  match runs, h with
  | [], _ => exact Nat.zero_le 1
  | [_], _ => exact Nat.le_refl 1
  | [_, _], h => cases h
  | _ :: _ :: _ :: _, h => cases h

/-! ### The whole sort -/

theorem runsLoop_spec {minrun n : ℕ} {runs : List (List α)} (hin : ∀ s ∈ runs, InOrder o s) (hn : rest.length < n) :
    ∃ runs', runsLoop o.lt minrun n (joined runs).length (layout runs) (joined runs ++ rest) =
        some (layout runs', joined runs') ∧ (∀ s ∈ runs', InOrder o s) ∧ Stable o (joined runs ++ rest) (joined runs') := by
  induction n generalizing runs rest with
  | zero => omega
  | succ n ih =>
      unfold runsLoop
      split
      · next h =>
        have hrest : rest = [] := List.length_eq_zero_iff.mp (by rw [List.length_append] at h; omega)
        rw [hrest, List.append_nil]
        exact ⟨runs, rfl, hin, .refl _⟩
      · next h =>
        have hrest : rest ≠ [] := by
          rintro rfl
          rw [List.append_nil] at h
          exact h rfl
        obtain ⟨s, t, c1, c2, c3, c4⟩ := countRun_spec (o := o) hrest
        obtain ⟨s', t', f1, f2, f3, f4⟩ := fillRun_spec (n := minrun) c2 c3 t
        have hin' : ∀ r ∈ s' :: runs, InOrder o r := List.forall_mem_cons.mpr ⟨f3, hin⟩
        obtain ⟨runs₁, m1, m2, m3, -⟩ := mergeWhile_spec chooses_collapseNext hin'
          (n := (layout runs).length + 2) (by simp) t'
        have hst := c4.trans f4
        have hlen : s'.length + t'.length = rest.length := by
          rw [← hst.length_eq, List.length_append]
        have hpos : 0 < s'.length := List.length_pos_iff.mpr f2
        obtain ⟨runs₂, i1, i2, i3⟩ := ih m2 (show t'.length < n by omega)
        refine ⟨runs₂, ?_, i2, ?_⟩
        · have hcur : (joined runs).length + s'.length = (joined runs₁).length := by
            rw [m3.length_eq, joined, List.length_append]
          simp only [joined, layout, List.append_assoc] at m1
          simp only [List.drop_left, List.take_left, c1, f1, m1, Option.bind_eq_bind, Option.bind_some, hcur]
          exact i1
        · have h1 : Stable o (joined runs ++ rest) (joined (s' :: runs) ++ t') := by
            rw [joined, List.append_assoc]
            exact (Stable.refl _).append hst
          exact (h1.trans (m3.append (.refl t'))).trans i3

/-- **`tim_sort` sorts, keeps the order of equivalent elements, reads inside the range only and comes to an end.** -/
theorem tim_sort_stable (o : StrictWeakOrder α) (l : List α) :
    ∃ r, timSort o.lt l = some r ∧ InOrder o r ∧ Stable o l r := by
  unfold timSort
  split
  · next h =>
    rw [List.length_eq_zero_iff.mp h]
    exact ⟨[], rfl, .nil, .refl _⟩
  · obtain ⟨runs, h1, h2, h3⟩ := @runsLoop_spec _ o l (minrun l.length) (l.length + 1) []
      (fun _ hs => (List.not_mem_nil hs).elim) (Nat.lt_succ_self _)
    obtain ⟨runs', i1, i2, i3, i4⟩ := mergeWhile_spec chooses_finalNext h2 (n := (layout runs).length + 1) (by simp) []
    have hone := finalNext_eq_none i4
    rw [length_layout] at hone
    simp only [joined, layout, List.nil_append, List.length_nil] at h1 h3
    simp only [List.append_nil] at i1
    refine ⟨joined runs', ?_, ?_, h3.trans i3⟩
    · simp only [h1, i1, Option.bind_eq_bind, Option.bind_some]
    · match runs', hone, i2 with
      | [], _, _ => exact .nil
      | [s], _, i2 => simpa [joined] using i2 s (List.mem_singleton_self s)

end NeForce.TimSort
