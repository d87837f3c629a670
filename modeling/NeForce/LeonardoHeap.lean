import Mathlib.Data.Nat.Fib.Basic
import NeForce.HeapSort
import NeForce.Rotations

/-! # Leonardo heaps

A range cut into trees of Leonardo sizes, the root of each tree behind its children; `levels` has the level of each tree,
`toplevel` is the index of the last one.  `adjust_leonardo_heap` takes a new root to its place: through the roots of the
trees before it, then down the tree in which it stops.

Each access to the range and to `levels` is checked, and each difference of unsigned numbers; `toplevel` is an `int`, and
it is checked to stay one. -/

namespace NeForce.LeonardoHeap

open BinaryHeap Rotations

variable {α : Type}

/-- A difference of `size_t`s that does not wrap. -/
def sub (m n : ℕ) : Option ℕ := if n ≤ m then some (m - n) else none

/-- The sum of `uint64_t`s wraps. -/
def leonardo (n : ℕ) : ℕ := (2 * Nat.fib (n + 1) - 1) % 2 ^ 64

section

variable (lt : α → α → Bool)

/-- `prev_heap` holds `y`, and is less than a child of the tree at `current_heap`. -/
def childAbove (level currentHeap : ℕ) (y : α) (l : List α) : Option Bool :=
  if 1 < level then do
    let childHeap2 ← sub currentHeap 1
    let childHeap1 ← sub childHeap2 (leonardo (level - 2))
    let y1 ← l[childHeap1]?
    if lt y y1 then some true
    else do
      let y2 ← l[childHeap2]?
      some (lt y y2)
  else some false

/-- The loop through the roots of the trees: the tree and the position of the root at which it stops. -/
def adjustRoots (levels : List ℕ) : ℕ → ℕ → List α → Option (ℕ × ℕ × List α)
  | 0, currentHeap, l => some (0, currentHeap, l)
  | k + 1, currentHeap, l => do
      let level ← levels[k + 1]?
      let prevHeap ← sub currentHeap (leonardo level)
      let x ← l[currentHeap]?
      let y ← l[prevHeap]?
      if lt x y then do
        if ← childAbove lt level currentHeap y l then some (k + 1, currentHeap, l)
        else adjustRoots levels k prevHeap (← iterSwap l currentHeap prevHeap)
      else some (k + 1, currentHeap, l)

def maxChild (l : List α) (currentHeap childHeap1 childHeap2 : ℕ) : Option ℕ := do
  let x ← l[currentHeap]?
  let x1 ← l[childHeap1]?
  let m := if lt x x1 then childHeap1 else currentHeap
  let y ← l[m]?
  let x2 ← l[childHeap2]?
  some (if lt y x2 then childHeap2 else m)

/-- The loop down a tree. -/
def adjustTree : ℕ → ℕ → List α → Option (List α)
  | level + 2, currentHeap, l => do
      let childHeap2 ← sub currentHeap 1
      let childHeap1 ← sub childHeap2 (leonardo level)
      let m ← maxChild lt l currentHeap childHeap1 childHeap2
      if m = childHeap1 then adjustTree (level + 1) childHeap1 (← iterSwap l currentHeap childHeap1)
      else if m = childHeap2 then adjustTree level childHeap2 (← iterSwap l currentHeap childHeap2)
      else some l
  | _, _, l => some l

def adjustLeonardoHeap (levels : List ℕ) (levelIndex currentHeap : ℕ) (l : List α) : Option (List α) := do
  let r ← adjustRoots lt levels levelIndex currentHeap l
  let level ← levels[r.1]?
  adjustTree lt level r.2.1 r.2.2

end

/-! ### Positions -/

@[simp] theorem leonardo_zero : leonardo 0 = 1 := by decide

@[simp] theorem leonardo_one : leonardo 1 = 1 := by decide

@[simp] theorem leonardo_two : leonardo 2 = 3 := by decide

theorem sub_eq {m n k : ℕ} (h : m = k + n) : sub m n = some k := by
  rw [sub, if_pos (by omega), h, Nat.add_sub_cancel]

/-! ### The forest -/

/-- The trees of the levels before `k`, each with its root behind it, where nothing before a root is greater. -/
inductive Forest (o : StrictWeakOrder α) (levels : List ℕ) : ℕ → List α → Prop
  | nil : Forest o levels 0 []
  | tree {k v : ℕ} {s c : List α} {x : α} : Forest o levels k s → levels[k]? = some v → v ≤ 2 →
      c.length + 1 = leonardo v → Below o (s ++ c) [x] → Forest o levels (k + 1) (s ++ c ++ [x])

variable {o : StrictWeakOrder α} {levels levels' : List ℕ} {k v : ℕ} {s c t : List α} {x : α}

theorem Forest.congr (h : Forest o levels k s) (hl : ∀ j < k, levels'[j]? = levels[j]?) : Forest o levels' k s := by
  induction h with
  | nil => exact .nil
  | tree _ hv hv2 hc hb ih =>
      exact .tree (ih fun j hj => hl j (Nat.lt_succ_of_lt hj)) ((hl _ (Nat.lt_succ_self _)).trans hv) hv2 hc hb

theorem leonardo_cases (h : v ≤ 2) (hc : c.length + 1 = leonardo v) :
    v ≤ 1 ∧ c = [] ∨ v = 2 ∧ ∃ a b, c = [a, b] := by
  match v, h with
  | 0, _ => exact .inl ⟨by omega, List.length_eq_zero_iff.mp (by simpa using hc)⟩
  | 1, _ => exact .inl ⟨by omega, List.length_eq_zero_iff.mp (by simpa using hc)⟩
  | 2, _ => exact .inr ⟨rfl, List.length_eq_two.mp (by simpa using hc)⟩

/-- The loop down a tree of one or of three elements brings its greatest element to the root. -/
theorem adjustTree_spec (hv : v ≤ 2) (hc : c.length + 1 = leonardo v) (s t : List α) (x : α) :
    ∃ c' x', adjustTree o.lt v (s.length + c.length) (s ++ c ++ x :: t) = some (s ++ c' ++ x' :: t) ∧
      (c' ++ [x']).Perm (c ++ [x]) ∧ c'.length = c.length ∧ Below o (c ++ [x]) [x'] := by
  obtain ⟨hv1, rfl⟩ | ⟨rfl, a, b, rfl⟩ := leonardo_cases hv hc
  · refine ⟨[], x, ?_, .refl _, rfl, below_singleton.mpr fun y hy => ?_⟩
    · match v, hv1 with
      | 0, _ => rfl
      | 1, _ => rfl
    · rw [List.mem_singleton.mp hy]
      exact o.irrefl x
  · have h0 : (s ++ [a, b] ++ x :: t)[s.length]? = some a := by simp
    have h1 : (s ++ [a, b] ++ x :: t)[s.length + 1]? = some b := by simp
    have h2 : (s ++ [a, b] ++ x :: t)[s.length + 2]? = some x := by simp
    have hmax : maxChild o.lt (s ++ [a, b] ++ x :: t) (s.length + 2) s.length (s.length + 1) =
        some (if o.lt x a then if o.lt a b then s.length + 1 else s.length
          else if o.lt x b then s.length + 1 else s.length + 2) := by
      unfold maxChild
      simp only [h0, h1, h2, Option.bind_eq_bind, Option.bind_some]
      split
      · rw [h0, Option.bind_some]
      · rw [h2, Option.bind_some]
    have hstep : adjustTree o.lt 2 (s.length + [a, b].length) (s ++ [a, b] ++ x :: t) =
        if o.lt x a then
          if o.lt a b then some (s ++ [a, x] ++ b :: t) else some (s ++ [x, b] ++ a :: t)
        else if o.lt x b then some (s ++ [a, x] ++ b :: t) else some (s ++ [a, b] ++ x :: t) := by
      have hs1 : iterSwap (s ++ [a, b] ++ x :: t) (s.length + 2) s.length = some (s ++ [x, b] ++ a :: t) := by
        have := iterSwap_append s [b] t a x (i := s.length) (j := s.length + 2) rfl (by simp)
        rw [iterSwap_comm]
        simpa using this
      have hs2 : iterSwap (s ++ [a, b] ++ x :: t) (s.length + 2) (s.length + 1) = some (s ++ [a, x] ++ b :: t) := by
        have := iterSwap_append (s ++ [a]) [] t b x (i := s.length + 1) (j := s.length + 2) (by simp) (by simp)
        rw [iterSwap_comm]
        simpa using this
      unfold adjustTree
      rw [show s.length + [a, b].length = s.length + 2 from rfl, sub_eq (k := s.length + 1) (n := 1) rfl, leonardo_zero]
      simp only [Option.bind_eq_bind, Option.bind_some, sub_eq (k := s.length) (n := 1) (m := s.length + 1) rfl, hmax,
        hs1, hs2]
      split <;> split <;> simp [adjustTree]
    rw [hstep]
    have hi := o.irrefl
    by_cases hxa : o.lt x a
    · by_cases hab : o.lt a b
      · rw [if_pos hxa, if_pos hab]
        refine ⟨[a, x], b, rfl, ?_, rfl, below_singleton.mpr ?_⟩
        · exact (List.Perm.swap b x []).cons a
        · simpa using ⟨o.asymm hab, hi b, o.asymm (o.trans hxa hab)⟩
      · rw [if_pos hxa, if_neg hab]
        refine ⟨[x, b], a, rfl, ?_, rfl, below_singleton.mpr ?_⟩
        · exact (@List.perm_middle _ a [x, b] []).trans ((List.Perm.swap b x []).cons a)
        · simpa using ⟨hi a, Bool.eq_false_iff.mpr hab, o.asymm hxa⟩
    · by_cases hxb : o.lt x b
      · rw [if_neg hxa, if_pos hxb]
        refine ⟨[a, x], b, rfl, ?_, rfl, below_singleton.mpr ?_⟩
        · exact (List.Perm.swap b x []).cons a
        · simpa using ⟨o.ge_trans (by simpa using hxa) (o.asymm hxb), hi b, o.asymm hxb⟩
      · rw [if_neg hxa, if_neg hxb]
        refine ⟨[a, b], x, rfl, .refl _, rfl, below_singleton.mpr ?_⟩
        simpa using ⟨Bool.eq_false_iff.mpr hxa, Bool.eq_false_iff.mpr hxb, hi x⟩

/-- A tree that has an element not less than anything before it is in its place once its own root is. -/
theorem adjustTree_forest (hf : Forest o levels k s) (hk : levels[k]? = some v) (hv : v ≤ 2)
    (hc : c.length + 1 = leonardo v) (t : List α) {y : α} (hy : y ∈ c ++ [x]) (hs : Below o s [y]) :
    ∃ r, adjustTree o.lt v (s.length + c.length) (s ++ c ++ x :: t) = some (r ++ t) ∧
      r.Perm (s ++ c ++ [x]) ∧ Forest o levels (k + 1) r := by
  obtain ⟨c', x', h1, h2, h3, h4⟩ := adjustTree_spec (o := o) hv hc s t x
  refine ⟨s ++ c' ++ [x'], by simpa using h1, ?_, .tree hf hk hv (h3 ▸ hc) (below_singleton.mpr fun z hz => ?_)⟩
  · rw [List.append_assoc, List.append_assoc]
    exact h2.append_left s
  · rw [below_singleton] at hs h4
    rcases List.mem_append.mp hz with hz | hz
    · exact o.ge_trans (hs z hz) (h4 y hy)
    · exact h4 z (h2.mem_iff.mp (List.mem_append_left _ hz))

theorem adjustLeonardoHeap_stop {cur : ℕ} {l : List α} (h : adjustRoots o.lt levels k cur l = some (k, cur, l))
    (hk : levels[k]? = some v) : adjustLeonardoHeap o.lt levels k cur l = adjustTree o.lt v cur l := by
  rw [adjustLeonardoHeap, h, Option.bind_eq_bind, Option.bind_some, hk]
  rfl

/-- The children of the new root, where the previous root is not below them. -/
theorem childAbove_eq (hv : v ≤ 2) (hc : c.length + 1 = leonardo v) (s t : List α) (x y : α) :
    ∃ b, childAbove o.lt v (s.length + c.length) y (s ++ c ++ x :: t) = some b ∧
      (b = true ↔ ∃ z ∈ c, o.lt y z = true) := by
  obtain ⟨hv1, rfl⟩ | ⟨rfl, a, b, rfl⟩ := leonardo_cases hv hc
  · exact ⟨false, if_neg (by omega), by simp⟩
  · have h0 : (s ++ [a, b] ++ x :: t)[s.length]? = some a := by simp
    have h1 : (s ++ [a, b] ++ x :: t)[s.length + 1]? = some b := by simp
    refine ⟨o.lt y a || o.lt y b, ?_, by simp⟩
    rw [childAbove, if_pos (by decide), show s.length + [a, b].length = s.length + 1 + 1 from rfl, sub_eq rfl,
      Nat.sub_self, leonardo_zero]
    simp only [Option.bind_eq_bind, Option.bind_some, sub_eq (k := s.length) (n := 1) (m := s.length + 1) rfl, h0, h1]
    split
    · next h => rw [h, Bool.true_or]
    · next h => rw [Bool.eq_false_iff.mpr h, Bool.false_or]

/-- A new root goes to its place. -/
theorem adjustLeonardoHeap_spec (hf : Forest o levels k s) (hk : levels[k]? = some v) (hv : v ≤ 2)
    (hc : c.length + 1 = leonardo v) (t : List α) (x : α) :
    ∃ r, adjustLeonardoHeap o.lt levels k (s.length + c.length) (s ++ c ++ x :: t) = some (r ++ t) ∧
      r.Perm (s ++ c ++ [x]) ∧ Forest o levels (k + 1) r := by
  induction hf generalizing v c t x with
  | nil =>
      rw [adjustLeonardoHeap_stop rfl hk]
      exact adjustTree_forest .nil hk hv hc t (List.mem_append_right _ (List.mem_singleton_self x)) (by simp [Below])
  | @tree k u s₀ c₀ y hf hu hu2 hcu hb ih =>
      have hlast : Below o (s₀ ++ c₀ ++ [y]) [y] := below_singleton.mpr fun z hz => by
        rcases List.mem_append.mp hz with hz | hz
        · exact below_singleton.mp hb z hz
        · rw [List.mem_singleton.mp hz]
          exact o.irrefl y
      have hf' : Forest o levels (k + 1) (s₀ ++ c₀ ++ [y]) := .tree hf hu hu2 hcu hb
      obtain ⟨b, hb1, hb2⟩ := childAbove_eq (o := o) hv hc (s₀ ++ c₀ ++ [y]) t x y
      have hprev : sub ((s₀ ++ c₀ ++ [y]).length + c.length) (leonardo v) = some (s₀.length + c₀.length) :=
        sub_eq (by simp; omega)
      have hroots : adjustRoots o.lt levels (k + 1) ((s₀ ++ c₀ ++ [y]).length + c.length)
          (s₀ ++ c₀ ++ [y] ++ c ++ x :: t) =
          if o.lt x y = true ∧ b = false then
            adjustRoots o.lt levels k (s₀.length + c₀.length) (s₀ ++ c₀ ++ x :: (c ++ y :: t))
          else some (k + 1, (s₀ ++ c₀ ++ [y]).length + c.length, s₀ ++ c₀ ++ [y] ++ c ++ x :: t) := by
        have hx : (s₀ ++ c₀ ++ [y] ++ c ++ x :: t)[(s₀ ++ c₀ ++ [y]).length + c.length]? = some x :=
          getElem?_at List.length_append
        have hy : (s₀ ++ c₀ ++ [y] ++ c ++ x :: t)[s₀.length + c₀.length]? = some y := by
          rw [List.append_assoc (s₀ ++ c₀ ++ [y]), List.append_assoc (s₀ ++ c₀)]
          exact getElem?_at List.length_append
        have hswap : iterSwap (s₀ ++ c₀ ++ [y] ++ c ++ x :: t) ((s₀ ++ c₀ ++ [y]).length + c.length)
            (s₀.length + c₀.length) = some (s₀ ++ c₀ ++ x :: (c ++ y :: t)) := by
          rw [List.append_assoc (s₀ ++ c₀ ++ [y]), List.append_assoc (s₀ ++ c₀), List.singleton_append,
            iterSwap_comm]
          exact iterSwap_append (s₀ ++ c₀) c t y x (by simp) (by simp [Nat.add_assoc])
        conv_lhs => unfold adjustRoots
        simp only [Option.bind_eq_bind, hk, Option.bind_some, hprev, hx, hy, hb1, hswap]
        cases b <;> cases o.lt x y <;> rfl
      by_cases hgo : o.lt x y = true ∧ b = false
      · -- The roots change places, and the old one has nothing greater before it.
        rw [if_pos hgo] at hroots
        obtain ⟨r, i1, i2, i3⟩ := ih hu hu2 hcu (c ++ y :: t) x
        refine ⟨r ++ c ++ [y], ?_, ?_, ?_⟩
        · rw [adjustLeonardoHeap, hroots]
          rw [adjustLeonardoHeap] at i1
          rw [i1]
          simp
        · have h1 : (r ++ c ++ [y]).Perm (s₀ ++ c₀ ++ [x] ++ c ++ [y]) := (i2.append_right c).append_right [y]
          refine h1.trans ?_
          rw [List.append_assoc (s₀ ++ c₀), List.append_assoc (s₀ ++ c₀), List.append_assoc (s₀ ++ c₀),
            List.append_assoc (s₀ ++ c₀)]
          refine List.Perm.append_left _ ?_
          exact ((@List.perm_append_comm _ ([x] ++ c) [y]).trans
            ((@List.perm_append_comm _ [x] c).append_left [y])).trans (by simp)
        · refine .tree i3 hk hv hc (below_singleton.mpr fun z hz => ?_)
          rcases List.mem_append.mp hz with hz | hz
          · rcases List.mem_append.mp (i2.mem_iff.mp hz) with hz | hz
            · exact below_singleton.mp hb z hz
            · rw [List.mem_singleton.mp hz]
              exact o.asymm hgo.1
          · refine Bool.eq_false_iff.mpr fun hlt => ?_
            have := hb2.mpr ⟨z, hz, hlt⟩
            rw [hgo.2] at this
            cases this
      · rw [if_neg hgo] at hroots
        rw [adjustLeonardoHeap_stop hroots hk]
        by_cases hxy : o.lt x y = true
        · have hbt : b = true := by
            cases b with
            | true => rfl
            | false => exact absurd ⟨hxy, rfl⟩ hgo
          obtain ⟨z, hz1, hz2⟩ := hb2.mp hbt
          refine adjustTree_forest hf' hk hv hc t (List.mem_append_left _ hz1) (below_singleton.mpr fun w hw => ?_)
          exact o.ge_trans (below_singleton.mp hlast w hw) (o.asymm hz2)
        · refine adjustTree_forest hf' hk hv hc t (List.mem_append_right _ (List.mem_singleton_self x))
            (below_singleton.mpr fun z hz => ?_)
          exact o.ge_trans (below_singleton.mp hlast z hz) (Bool.eq_false_iff.mpr hxy)

end NeForce.LeonardoHeap
