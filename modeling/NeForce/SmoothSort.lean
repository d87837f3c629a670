import Mathlib.Tactic.Linarith
import NeForce.LeonardoHeap

/-! # Smooth sort

`levels` is pushed to and never popped, while `toplevel` moves both ways: the level of a new tree is what has been left
there.  No entry is greater than 2, and behind each 2 there is a 0, so no tree has more than three elements; the forest of
`n` elements has about `n` trees, and past a certain length `toplevel` is no `int` any more. -/

namespace NeForce.LeonardoHeap

open BinaryHeap

variable {α : Type}

structure Levels where
  levels : List ℕ
  toplevel : ℕ
deriving DecidableEq, Repr

/-- `++toplevel` on an `int`. -/
def incr (toplevel : ℕ) : Option ℕ := if toplevel + 1 < 2 ^ 31 then some (toplevel + 1) else none

/-- A tree of one element behind the others. -/
def Levels.pushTree (s : Levels) (level : ℕ) : Option Levels := do
  let toplevel ← incr s.toplevel
  some { levels := s.levels ++ [if level ≠ 1 then 1 else 0], toplevel := toplevel }

/-- The trees for one more element: the last two become the children of a new root, or it is a tree of its own. -/
def Levels.grow (s : Levels) : Option Levels := do
  let level ← s.levels[s.toplevel]?
  match s.toplevel with
  | 0 => s.pushTree level
  | t + 1 =>
      let prev ← s.levels[t]?
      if prev = level + 1 then some { levels := s.levels.set t (prev + 1), toplevel := t } else s.pushTree level

section

variable (lt : α → α → Bool)

/-- The loop that adds the elements from `i` on, `n` of them. -/
def makeLoop : ℕ → ℕ → Levels → List α → Option (Levels × List α)
  | 0, _, s, l => some (s, l)
  | n + 1, i, s, l => do
      let s ← s.grow
      let l ← adjustLeonardoHeap lt s.levels s.toplevel i l
      makeLoop n (i + 1) s l

def makeLeonardoHeap (l : List α) : Option (List α) := do
  if l.length = 0 then some l
  else
    let r ← makeLoop lt (l.length - 1) 1 { levels := [1], toplevel := 0 } l
    some r.2

/-- The loop that takes the last root from the forest, for `i` down to 1. -/
def sortLoop : ℕ → Levels → List α → Option (List α)
  | 0, _, l => some l
  | i + 1, s, l => do
      let level ← s.levels[s.toplevel]?
      if level ≤ 1 then
        let toplevel ← sub s.toplevel 1
        sortLoop i { s with toplevel := toplevel } l
      else
        let levels := s.levels.set s.toplevel (level - 1) ++ [level - 1 - 1]
        let toplevel ← incr s.toplevel
        let right ← levels[toplevel]?
        let root ← sub (i + 1) (leonardo right)
        let l ← adjustLeonardoHeap lt levels s.toplevel root l
        let l ← adjustLeonardoHeap lt levels toplevel (i + 1) l
        sortLoop i { levels := levels, toplevel := toplevel } l

def sortLeonardoHeap (l : List α) : Option (List α) := do
  if l.length < 2 then some l
  else
    let r ← makeLoop lt (l.length - 1) 1 { levels := [1], toplevel := 0 } l
    sortLoop lt (l.length - 2) r.1 r.2

def smoothSort (l : List α) : Option (List α) := do
  let l ← makeLeonardoHeap lt l
  sortLeonardoHeap lt l

end

example : smoothSort natOrder.lt [3, 1, 2, 5, 4, 0] = some [0, 1, 2, 3, 4, 5] := by decide

/-! ### The entries -/

/-- What holds of all entries, also those behind `toplevel`. -/
structure Levels.Ok (s : Levels) : Prop where
  le_two : ∀ v ∈ s.levels, v ≤ 2
  two : ∀ j, s.levels[j]? = some 2 → s.levels[j + 1]? = some 0 ∧ j + 1 < 2 ^ 31

/-- While the forest grows there is no 2 behind `toplevel`. -/
structure Levels.Grown (s : Levels) : Prop extends s.Ok where
  length : s.toplevel < s.levels.length
  top : ∀ j, s.toplevel < j → s.levels[j]? ≠ some 2

theorem grown_one : Levels.Grown { levels := [1], toplevel := 0 } where
  le_two := by decide
  two j h := by
    rw [List.getElem?_singleton] at h
    split at h <;> simp at h
  length := by decide
  top j hj h := by
    rw [List.getElem?_singleton, if_neg (Nat.ne_of_gt hj)] at h
    cases h

theorem incr_eq {t u : ℕ} (h : incr t = some u) : u = t + 1 ∧ t + 1 < 2 ^ 31 := by
  unfold incr at h
  split at h
  · next hlt => exact ⟨(Option.some.inj h).symm, hlt⟩
  · cases h

/-- `grow` makes a tree of the last two, or one of its own. -/
theorem Levels.grow_cases {s s' : Levels} (hs : s.Grown) (h : s.grow = some s') :
    (∃ t, s.toplevel = t + 1 ∧ s.levels[t]? = some 1 ∧ s.levels[t + 1]? = some 0 ∧
        s' = { levels := s.levels.set t 2, toplevel := t }) ∨
      ∃ v w, s.levels[s.toplevel]? = some v ∧ (w = 0 ∨ w = 1) ∧ s.toplevel + 1 < 2 ^ 31 ∧
        s' = { levels := s.levels ++ [w], toplevel := s.toplevel + 1 } := by
  obtain ⟨v, hv⟩ : ∃ v, s.levels[s.toplevel]? = some v := ⟨_, List.getElem?_eq_getElem hs.length⟩
  have hpush (h : s.pushTree v = some s') : ∃ v w, s.levels[s.toplevel]? = some v ∧ (w = 0 ∨ w = 1) ∧
      s.toplevel + 1 < 2 ^ 31 ∧ s' = { levels := s.levels ++ [w], toplevel := s.toplevel + 1 } := by
    obtain ⟨u, h1, h2⟩ := Option.bind_eq_some_iff.mp h
    obtain ⟨rfl, hlt⟩ := incr_eq h1
    refine ⟨v, if v ≠ 1 then 1 else 0, hv, ?_, hlt, (Option.some.inj h2).symm⟩
    split
    · exact .inr rfl
    · exact .inl rfl
  rw [Levels.grow, hv, Option.bind_eq_bind, Option.bind_some] at h
  split at h
  · exact .inr (hpush h)
  · next t ht =>
    rw [Nat.succ_eq_add_one] at ht
    obtain ⟨u, h1, h2⟩ := Option.bind_eq_some_iff.mp h
    split at h2
    · next huv =>
      have hu := hs.le_two u (List.mem_of_getElem? h1)
      have hne : u ≠ 2 := by
        rintro rfl
        have := (hs.two t h1).1
        rw [← ht, hv, Option.some.injEq] at this
        omega
      obtain ⟨rfl, rfl⟩ : u = 1 ∧ v = 0 := by omega
      exact .inl ⟨t, ht, h1, ht ▸ hv, (Option.some.inj h2).symm⟩
    · exact .inr (hpush h2)

theorem Levels.Grown.grow {s s' : Levels} (hs : s.Grown) (h : s.grow = some s')
    (hlt : s.toplevel < 2 ^ 31) : s'.Grown ∧ s'.toplevel < 2 ^ 31 := by
  obtain ⟨t, ht, h1, h2, rfl⟩ | ⟨v, w, hv, hw, hlt', rfl⟩ := Levels.grow_cases hs h
  · have htl : t < s.levels.length := (List.getElem?_eq_some_iff.mp h1).1
    refine ⟨⟨⟨fun v hv => ?_, fun j hj => ?_⟩, by simpa using htl, fun j hj hj2 => ?_⟩, ?_⟩
    · rcases List.mem_or_eq_of_mem_set hv with hv | rfl
      · exact hs.le_two v hv
      · exact Nat.le_refl 2
    · simp only [List.getElem?_set] at hj ⊢
      rcases eq_or_ne t j with rfl | hne
      · rw [if_neg (by omega)]
        exact ⟨h2, ht ▸ hlt⟩
      · rw [if_neg hne] at hj
        obtain ⟨h3, h4⟩ := hs.two j hj
        rw [if_neg]
        · exact ⟨h3, h4⟩
        · rintro rfl
          rw [h1] at h3
          cases h3
    · simp only [List.getElem?_set, if_neg (Nat.ne_of_lt hj)] at hj2
      rcases Nat.lt_or_eq_of_le (show t + 1 ≤ j from hj) with hlt | rfl
      · exact hs.top j (by omega) hj2
      · rw [h2] at hj2
        cases hj2
    · change t < 2 ^ 31
      omega
  · refine ⟨⟨⟨fun v hv => ?_, fun j hj => ?_⟩, by simpa using hs.length, fun j hj hj2 => ?_⟩, hlt'⟩
    · rcases List.mem_append.mp hv with hv | hv
      · exact hs.le_two v hv
      · rw [List.mem_singleton.mp hv]
        omega
    · rcases Nat.lt_or_ge j s.levels.length with hjl | hjl
      · rw [List.getElem?_append_left hjl] at hj
        obtain ⟨h3, h4⟩ := hs.two j hj
        rw [List.getElem?_append_left (List.getElem?_eq_some_iff.mp h3).1]
        exact ⟨h3, h4⟩
      · rw [List.getElem?_append_right hjl, List.getElem?_singleton] at hj
        split at hj
        · rw [Option.some.injEq] at hj
          omega
        · cases hj
    · rcases Nat.lt_or_ge j s.levels.length with hjl | hjl
      · rw [List.getElem?_append_left hjl] at hj2
        exact hs.top j (Nat.lt_of_succ_lt hj) hj2
      · rw [List.getElem?_append_right hjl, List.getElem?_singleton] at hj2
        split at hj2
        · rw [Option.some.injEq] at hj2
          omega
        · cases hj2

/-! ### The forest grows -/

variable {o : StrictWeakOrder α} {r t : List α} {x : α}

theorem Forest.last {levels : List ℕ} {k : ℕ} (h : Forest o levels (k + 1) r) :
    ∃ v s c x, r = s ++ c ++ [x] ∧ Forest o levels k s ∧ levels[k]? = some v ∧ v ≤ 2 ∧ c.length + 1 = leonardo v ∧
      Below o (s ++ c) [x] := by
  cases h with
  | tree hf hv hv2 hc hb => exact ⟨_, _, _, _, rfl, hf, hv, hv2, hc, hb⟩

/-- One more element. -/
theorem grow_forest {s s' : Levels} (hs : s.Grown) (h : s.grow = some s') (hf : Forest o s.levels (s.toplevel + 1) r)
    (t : List α) (x : α) : ∃ r', adjustLeonardoHeap o.lt s'.levels s'.toplevel r.length (r ++ x :: t) = some (r' ++ t) ∧
      r'.Perm (r ++ [x]) ∧ Forest o s'.levels (s'.toplevel + 1) r' := by
  obtain ⟨k, hk, h1, h2, rfl⟩ | ⟨v, w, hv, hw, hlt', rfl⟩ := Levels.grow_cases hs h
  · -- The last two trees are of one element each.
    rw [hk] at hf
    obtain ⟨v, s₁, c₁, b, rfl, hf₁, hv, hv2, hc, -⟩ := hf.last
    obtain ⟨w, s₀, c₀, a, rfl, hf₀, hw, hw2, hc₀, -⟩ := hf₁.last
    obtain rfl : v = 0 := Option.some.inj (hv.symm.trans h2)
    obtain rfl : w = 1 := Option.some.inj (hw.symm.trans h1)
    obtain rfl : c₁ = [] := List.length_eq_zero_iff.mp (by simpa using hc)
    obtain rfl : c₀ = [] := List.length_eq_zero_iff.mp (by simpa using hc₀)
    have hkl : k < s.levels.length := (List.getElem?_eq_some_iff.mp h1).1
    have hf' : Forest o (s.levels.set k 2) k s₀ :=
      hf₀.congr fun j hj => List.getElem?_set_ne (Nat.ne_of_gt hj)
    have hk2 : (s.levels.set k 2)[k]? = some 2 := List.getElem?_set_self hkl
    obtain ⟨r', i1, i2, i3⟩ := adjustLeonardoHeap_spec hf' hk2 (Nat.le_refl 2) (c := [a, b]) leonardo_two.symm t x
    exact ⟨r', by simpa using i1, by simpa using i2, i3⟩
  · have hnew : ∃ u, (s.levels ++ [w])[s.toplevel + 1]? = some u ∧ u ≤ 1 := by
      rcases Nat.lt_or_ge (s.toplevel + 1) s.levels.length with hl | hl
      · rw [List.getElem?_append_left hl]
        refine ⟨_, List.getElem?_eq_getElem hl, ?_⟩
        have h2 := hs.le_two _ (List.getElem_mem hl)
        have h3 := hs.top (s.toplevel + 1) (Nat.lt_succ_self _)
        rw [List.getElem?_eq_getElem hl, Ne, Option.some.injEq] at h3
        omega
      · have := hs.length
        rw [List.getElem?_append_right hl, show s.toplevel + 1 - s.levels.length = 0 by omega]
        exact ⟨w, rfl, by omega⟩
    obtain ⟨u, hu, hu1⟩ := hnew
    have hf' : Forest o (s.levels ++ [w]) (s.toplevel + 1) r := hf.congr fun j hj => by
      have := hs.length
      rw [List.getElem?_append_left (by omega)]
    have hc : ([] : List α).length + 1 = leonardo u := by
      match u, hu1 with
      | 0, _ => simp
      | 1, _ => simp
    obtain ⟨r', i1, i2, i3⟩ := adjustLeonardoHeap_spec hf' hu (by omega) hc t x
    exact ⟨r', by simpa using i1, by simpa using i2, i3⟩

/-- What the forest is after the trees for all elements up to one have been made: some, or none once `toplevel` is not an
`int`. -/
def grows : ℕ → Levels → Option Levels
  | 0, s => some s
  | n + 1, s => do grows n (← s.grow)

theorem makeLoop_spec {s : Levels} (hs : s.Grown) (hlt : s.toplevel < 2 ^ 31)
    (hf : Forest o s.levels (s.toplevel + 1) r) (t : List α) :
    ∃ r', makeLoop o.lt t.length r.length s (r ++ t) = (grows t.length s).map (·, r') ∧ r'.Perm (r ++ t) ∧
      ∀ s', grows t.length s = some s' → Forest o s'.levels (s'.toplevel + 1) r' ∧ s'.Ok := by
  induction t generalizing r s with
  | nil =>
      refine ⟨r, by simp [makeLoop, grows], by simp, fun s' h => ?_⟩
      obtain rfl := Option.some.inj h
      exact ⟨hf, hs.toOk⟩
  | cons x t ih =>
      rw [List.length_cons, makeLoop, grows]
      cases hg : s.grow with
      | none => exact ⟨r ++ x :: t, rfl, .refl _, fun s' h => by cases h⟩
      | some s₁ =>
          obtain ⟨r₁, h1, h2, h3⟩ := grow_forest hs hg hf t x
          obtain ⟨hs₁, hlt₁⟩ := hs.grow hg hlt
          obtain ⟨r', i1, i2, i3⟩ := ih hs₁ hlt₁ h3
          rw [h2.length_eq, List.length_append, List.length_singleton] at i1
          simp only [Option.bind_eq_bind, Option.bind_some, h1]
          refine ⟨r', i1, i2.trans ?_, i3⟩
          have := h2.append_right t
          rwa [List.append_assoc, List.singleton_append] at this

/-! ### The roots come off -/

theorem Levels.Ok.split {s : Levels} (hs : s.Ok) (h : s.levels[s.toplevel]? = some 2) :
    Levels.Ok { levels := s.levels.set s.toplevel 1 ++ [0], toplevel := s.toplevel + 1 } := by
  have hl : s.toplevel < s.levels.length := (List.getElem?_eq_some_iff.mp h).1
  refine ⟨fun v hv => ?_, fun j hj => ?_⟩
  · rcases List.mem_append.mp hv with hv | hv
    · rcases List.mem_or_eq_of_mem_set hv with hv | rfl
      · exact hs.le_two v hv
      · omega
    · rw [List.mem_singleton.mp hv]
      omega
  · rcases Nat.lt_or_ge j s.levels.length with hjl | hjl
    · rw [List.getElem?_append_left (by rwa [List.length_set]), List.getElem?_set] at hj
      split at hj
      · cases hj
      · obtain ⟨h3, h4⟩ := hs.two j hj
        refine ⟨?_, h4⟩
        have := (List.getElem?_eq_some_iff.mp h3).1
        rw [List.getElem?_append_left (by rwa [List.length_set]), List.getElem?_set_ne]
        · exact h3
        · intro he
          rw [he, h3] at h
          cases h
    · rw [List.getElem?_append_right (by rwa [List.length_set]), List.getElem?_singleton] at hj
      split at hj <;> cases hj

theorem sortLoop_spec {i : ℕ} {s : Levels} (hs : s.Ok) (hf : Forest o s.levels (s.toplevel + 1) r)
    (hr : r.length = i + 2) (ht : Ascending o t) (hrt : Below o r t) :
    ∃ l, sortLoop o.lt i s (r ++ t) = some l ∧ l.Perm (r ++ t) ∧ Ascending o l := by
  induction i generalizing s r t with
  | zero =>
      refine ⟨r ++ t, rfl, .refl _, ascending_append.mpr ⟨?_, ht, hrt⟩⟩
      obtain ⟨v, s₀, c, x, rfl, -, -, -, -, hb⟩ := hf.last
      refine ascending_append.mpr ⟨ascending_of_length_le_one ?_, List.pairwise_singleton .., hb⟩
      simp only [List.length_append, List.length_singleton] at hr ⊢
      omega
  | succ i ih =>
      obtain ⟨v, s₀, c, x, rfl, hf₀, hv, hv2, hc, hb⟩ := hf.last
      have hasc : Ascending o (x :: t) := by
        refine List.pairwise_cons.mpr ⟨fun y hy => ?_, ht⟩
        exact hrt x (List.mem_append_right _ (List.mem_singleton_self x)) y hy
      have hbelow : Below o (s₀ ++ c) (x :: t) :=
        hb.cons fun y hy => hrt y (List.mem_append_left _ hy)
      obtain ⟨hv1, rfl⟩ | ⟨rfl, a, b, rfl⟩ := leonardo_cases hv2 hc
      · -- The root is the whole tree.
        cases hk : s.toplevel with
        | zero =>
            rw [hk] at hf₀
            cases hf₀
            simp at hr
        | succ k =>
            rw [hk] at hf₀ hv
            rw [List.append_nil] at hbelow
            have hlen : s₀.length = i + 2 := by simpa using hr
            obtain ⟨l, i1, i2, i3⟩ := ih (s := { s with toplevel := k }) ⟨hs.le_two, hs.two⟩ hf₀ hlen hasc hbelow
            refine ⟨l, ?_, by simpa using i2, i3⟩
            unfold sortLoop
            rw [hk, hv, Option.bind_eq_bind, Option.bind_some, if_pos hv1, sub_eq (k := k) rfl]
            simpa using i1
      · -- Its two children are roots now, and each goes to its place.
        have hlen : s₀.length = i := by simpa using hr
        have hkl : s.toplevel < s.levels.length := (List.getElem?_eq_some_iff.mp hv).1
        obtain ⟨h0, h31⟩ := hs.two _ hv
        have h0l : s.toplevel + 1 < s.levels.length := (List.getElem?_eq_some_iff.mp h0).1
        have hok := hs.split hv
        have hl1 : (s.levels.set s.toplevel 1 ++ [0])[s.toplevel]? = some 1 := by
          rw [List.getElem?_append_left (by rwa [List.length_set]), List.getElem?_set_self hkl]
        have hl0 : (s.levels.set s.toplevel 1 ++ [0])[s.toplevel + 1]? = some 0 := by
          rw [List.getElem?_append_left (by rwa [List.length_set]), List.getElem?_set_ne (by omega), h0]
        have hf₁ : Forest o (s.levels.set s.toplevel 1 ++ [0]) s.toplevel s₀ := hf₀.congr fun j hj => by
          rw [List.getElem?_append_left (by rw [List.length_set]; omega), List.getElem?_set_ne (by omega)]
        obtain ⟨r₁, a1, a2, a3⟩ := adjustLeonardoHeap_spec hf₁ hl1 (by omega) (c := []) leonardo_one.symm (b :: x :: t) a
        obtain ⟨r₂, b1, b2, b3⟩ := adjustLeonardoHeap_spec a3 hl0 (by omega) (c := []) leonardo_zero.symm (x :: t) b
        simp only [List.append_nil, List.length_nil, Nat.add_zero] at a1 a2 b1 b2
        have hp : r₂.Perm (s₀ ++ [a, b]) := by
          have := b2.trans (a2.append_right [b])
          rwa [List.append_assoc] at this
        have hlen₁ : r₁.length = i + 1 := by rw [a2.length_eq, List.length_append, hlen, List.length_singleton]
        have hlen₂ : r₂.length = i + 2 := by rw [hp.length_eq, List.length_append,
          hlen, List.length_cons, List.length_singleton]
        obtain ⟨l, i1, i2, i3⟩ := ih hok b3 hlen₂ hasc (hbelow.perm hp (.refl _))
        refine ⟨l, ?_, i2.trans ?_, i3⟩
        · rw [hlen] at a1
          rw [hlen₁] at b1
          unfold sortLoop
          rw [hv, Option.bind_eq_bind, Option.bind_some, if_neg (by omega), incr, if_pos h31]
          simp only [Option.bind_eq_bind, Option.bind_some, Nat.add_one_sub_one, Nat.sub_self, hl0, leonardo_zero,
            sub_eq (k := i) (n := 1) (m := i + 1) rfl]
          rw [show s₀ ++ [a, b] ++ [x] ++ t = s₀ ++ a :: b :: x :: t by simp, a1, Option.bind_some, b1, Option.bind_some]
          exact i1
        · have := hp.append_right (x :: t)
          simpa using this

/-! ### How many trees -/

/-- The length from which on `toplevel` is no `int`. -/
def lengthLimit : ℕ := 2147576329

/-- The levels after `n` elements.  Behind a 2 with `m` zeros come ones, `m + 1` of them in the end; behind `m` ones come
zeros, and with the last of these the last one becomes a 2. -/
inductive Levels.Shape : ℕ → Levels → Prop
  | ones {n m j : ℕ} {l : List ℕ} : 1 ≤ m → j ≤ m → l.length + 1 = m * m → n = m * m + 2 * m + j →
      Shape n { levels := l ++ 2 :: (List.replicate m 0 ++ List.replicate j 1), toplevel := l.length + j }
  | zeros {n m j : ℕ} {l : List ℕ} : 1 ≤ m → j ≤ m → l.length + m = m * m → n + 1 = m * m + m + j →
      Shape n { levels := l ++ (List.replicate m 1 ++ List.replicate j 0), toplevel := l.length + j }

open Levels (Shape)

theorem shape_one : Shape 1 { levels := [1], toplevel := 0 } :=
  .zeros (m := 1) (j := 0) (l := []) (Nat.le_refl 1) (Nat.zero_le 1) rfl rfl

theorem square_cases (m : ℕ) : m * m ≤ 46340 * 46340 ∧ m ≤ 46340 ∨ m = 46341 ∨ 46342 * 46342 ≤ m * m ∧ 46342 ≤ m := by
  rcases Nat.lt_trichotomy m 46341 with h | h | h
  · exact .inl ⟨Nat.mul_le_mul (Nat.le_of_lt_succ h) (Nat.le_of_lt_succ h), Nat.le_of_lt_succ h⟩
  · exact .inr (.inl h)
  · exact .inr (.inr ⟨Nat.mul_le_mul h h, h⟩)

theorem Levels.Shape.toplevel_lt {n : ℕ} {s : Levels} (h : Shape n s) (hn : n < lengthLimit) : s.toplevel < 2 ^ 31 := by
  unfold lengthLimit at hn
  cases h with
  | @ones m j l hm hj hl hn' =>
      change l.length + j < 2 ^ 31
      obtain h | rfl | h := square_cases m <;> omega
  | @zeros m j l hm hj hl hn' =>
      change l.length + j < 2 ^ 31
      obtain h | rfl | h := square_cases m <;> omega

theorem Levels.Shape.le_toplevel {n : ℕ} {s : Levels} (h : Shape n s) (hn : n = lengthLimit) : 2 ^ 31 ≤ s.toplevel := by
  unfold lengthLimit at hn
  cases h with
  | @ones m j l hm hj hl hn' =>
      change 2 ^ 31 ≤ l.length + j
      obtain h | rfl | h := square_cases m <;> omega
  | @zeros m j l hm hj hl hn' =>
      change 2 ^ 31 ≤ l.length + j
      obtain h | rfl | h := square_cases m <;> omega

theorem Levels.grow_push {s : Levels} {v w : ℕ} (hv : s.levels[s.toplevel]? = some v)
    (hw : (if v ≠ 1 then 1 else 0) = w) (hne : ∀ t, s.toplevel = t + 1 → s.levels[t]? ≠ some (v + 1)) :
    s.grow = if s.toplevel + 1 < 2 ^ 31 then
      some { levels := s.levels ++ [w], toplevel := s.toplevel + 1 } else none := by
  have hpush : s.pushTree v = if s.toplevel + 1 < 2 ^ 31 then
      some { levels := s.levels ++ [w], toplevel := s.toplevel + 1 } else none := by
    rw [Levels.pushTree, incr, hw]
    split <;> rfl
  rw [Levels.grow, hv, Option.bind_eq_bind, Option.bind_some]
  split
  · exact hpush
  · next t ht =>
    have htl : t < s.levels.length := by
      have := (List.getElem?_eq_some_iff.mp hv).1
      omega
    have := hne t ht
    rw [List.getElem?_eq_getElem htl] at this ⊢
    rw [Option.bind_some, if_neg fun h => this (congrArg some h)]
    exact hpush

theorem Levels.grow_merge {s : Levels} {t : ℕ} (ht : s.toplevel = t + 1) (h1 : s.levels[t]? = some 1)
    (h0 : s.levels[t + 1]? = some 0) : s.grow = some { levels := s.levels.set t 2, toplevel := t } := by
  obtain ⟨l, k⟩ := s
  subst ht
  simp [Levels.grow, h1, h0]

theorem getElem?_ones {m j i : ℕ} {l : List ℕ} (hi : i ≤ m) :
    (l ++ 2 :: (List.replicate m 0 ++ List.replicate j 1))[l.length + i]? = some (if i = 0 then 2 else 0) := by
  rw [List.getElem?_append_right (by omega), Nat.add_sub_cancel_left]
  cases i with
  | zero => rfl
  | succ i =>
      rw [List.getElem?_cons_succ, List.getElem?_append_left (by rwa [List.length_replicate]),
        List.getElem?_replicate_of_lt hi]
      rfl

theorem getElem?_zeros {m j i : ℕ} {l : List ℕ} (hi : i < m + j) :
    (l ++ (List.replicate m 1 ++ List.replicate j 0))[l.length + i]? = some (if i < m then 1 else 0) := by
  rw [List.getElem?_append_right (by omega), Nat.add_sub_cancel_left]
  split
  · next h => rw [List.getElem?_append_left (by rwa [List.length_replicate]), List.getElem?_replicate_of_lt h]
  · next h =>
    rw [List.getElem?_append_right (by simpa using h), List.length_replicate,
      List.getElem?_replicate_of_lt (by omega)]

theorem Levels.Shape.grow {n : ℕ} {s : Levels} (h : Shape n s) (hs : s.Grown) (hlt : s.toplevel < 2 ^ 31) :
    ∃ s', Shape (n + 1) s' ∧ s.grow = if s'.toplevel < 2 ^ 31 then some s' else none := by
  cases h with
  | @ones m j l hm hj hl hn =>
      have hw : (if (if j = 0 then 2 else 0) ≠ 1 then 1 else 0) = 1 := by
        cases j <;> rfl
      refine ⟨{ levels := l ++ 2 :: (List.replicate m 0 ++ List.replicate j 1) ++ [1], toplevel := l.length + j + 1 }, ?_,
        Levels.grow_push (getElem?_ones hj) hw fun t ht => ?_⟩
      · rcases Nat.lt_or_eq_of_le hj with hj | rfl
        · have := Shape.ones (n := n + 1) (j := j + 1) (l := l) hm hj hl (by omega)
          simpa [List.replicate_succ', Nat.add_assoc] using this
        · have := Shape.zeros (n := n + 1) (m := j + 1) (j := 0) (l := l ++ 2 :: List.replicate j 0) (by omega)
            (Nat.zero_le _) (by simp; ring_nf; ring_nf at hl; omega) (by ring_nf; ring_nf at hn; omega)
          simpa [List.replicate_succ', Nat.add_assoc] using this
      · cases j with
        | zero =>
            intro h3
            have := hs.le_two _ (List.mem_of_getElem? h3)
            simp at this
        | succ j =>
            obtain rfl : t = l.length + j := by
              change l.length + (j + 1) = t + 1 at ht
              omega
            change (l ++ 2 :: (List.replicate m 0 ++ List.replicate (j + 1) 1))[l.length + j]? ≠ some 1
            rw [getElem?_ones (Nat.le_of_succ_le hj), Ne, Option.some.injEq]
            split <;> decide
  | @zeros m j l hm hj hl hn =>
      rcases Nat.lt_or_eq_of_le hj with hj | rfl
      · have hv := getElem?_zeros (l := l) (m := m) (j := j) (i := j) (by omega)
        rw [if_pos hj] at hv
        refine ⟨{ levels := l ++ (List.replicate m 1 ++ List.replicate j 0) ++ [0], toplevel := l.length + j + 1 }, ?_,
          Levels.grow_push hv rfl fun t ht h2 => ?_⟩
        · have := Shape.zeros (n := n + 1) (j := j + 1) (l := l) hm hj hl (by omega)
          simpa [List.replicate_succ', Nat.add_assoc] using this
        · have h0 := (hs.two t h2).1
          rw [← ht, hv] at h0
          cases h0
      · obtain ⟨m, rfl⟩ : ∃ m, j = m + 1 := ⟨j - 1, by omega⟩
        have h1 := getElem?_zeros (l := l) (m := m + 1) (j := m + 1) (i := m) (by omega)
        have h0 := getElem?_zeros (l := l) (m := m + 1) (j := m + 1) (i := m + 1) (by omega)
        rw [if_pos (Nat.lt_succ_self m)] at h1
        rw [if_neg (Nat.lt_irrefl _)] at h0
        refine ⟨⟨(l ++ (List.replicate (m + 1) 1 ++ List.replicate (m + 1) 0)).set (l.length + m) 2, l.length + m⟩, ?_,
          (Levels.grow_merge rfl h1 h0).trans (if_pos (show l.length + m < 2 ^ 31 from Nat.lt_of_succ_lt hlt)).symm⟩
        have := Shape.ones (n := n + 1) (m := m + 1) (j := 0) (l := l ++ List.replicate m 1) hm (Nat.zero_le _)
          (by simpa [Nat.add_assoc] using hl) (by omega)
        have he : (l ++ (List.replicate (m + 1) 1 ++ List.replicate (m + 1) 0)).set (l.length + m) 2 =
            l ++ List.replicate m 1 ++ 2 :: (List.replicate (m + 1) 0 ++ List.replicate 0 1) := by
          rw [List.replicate_succ' (a := 1), List.set_append_right _ _ (by omega), Nat.add_sub_cancel_left,
            List.set_append_left _ _ (by simp), List.set_append_right _ _ (by simp)]
          simp
        rw [he]
        simpa using this

/-- The levels are made for a range shorter than the limit, and for no other. -/
theorem grows_eq {n k : ℕ} {s : Levels} (h : Shape n s) (hs : s.Grown) (hn : n < lengthLimit) :
    (grows k s).isSome ↔ n + k < lengthLimit := by
  induction k generalizing n s with
  | zero => simpa [grows] using hn
  | succ k ih =>
      obtain ⟨s', h1, h2⟩ := h.grow hs (h.toplevel_lt hn)
      rw [grows, h2]
      rcases Nat.lt_or_ge (n + 1) lengthLimit with hlt | hge
      · rw [if_pos (h1.toplevel_lt hlt)] at h2 ⊢
        rw [Option.bind_eq_bind, Option.bind_some, ih h1 (hs.grow h2 (h.toplevel_lt hn)).1 hlt]
        omega
      · have := h1.le_toplevel (by omega)
        rw [if_neg (by omega)]
        simp only [Option.bind_eq_bind, Option.bind_none, Option.isSome_none, Bool.false_eq_true, false_iff]
        omega

/-! ### Smooth sort -/

theorem makeLoop_one (o : StrictWeakOrder α) (x : α) (t : List α) :
    ∃ r', makeLoop o.lt t.length 1 { levels := [1], toplevel := 0 } (x :: t) =
        (grows t.length { levels := [1], toplevel := 0 }).map (·, r') ∧ r'.Perm (x :: t) ∧
      ∀ s', grows t.length { levels := [1], toplevel := 0 } = some s' →
        Forest o s'.levels (s'.toplevel + 1) r' ∧ s'.Ok := by
  have hf : Forest o [1] 1 [x] :=
    .tree (s := []) (c := []) (v := 1) .nil rfl (by decide) leonardo_one.symm (by simp [Below])
  exact makeLoop_spec grown_one (by decide) hf t

theorem smoothSort_of_lt (o : StrictWeakOrder α) {l : List α} (hl : l.length < lengthLimit) :
    ∃ r, smoothSort o.lt l = some r ∧ r.Perm l ∧ Ascending o r := by
  match l with
  | [] => exact ⟨[], rfl, .refl _, .nil⟩
  | x :: t =>
      have hg := (grows_eq (k := t.length) shape_one grown_one (by decide)).mpr (by rwa [Nat.add_comm])
      obtain ⟨s, hs⟩ := Option.isSome_iff_exists.mp hg
      obtain ⟨r₁, h1, h2, -⟩ := makeLoop_one o x t
      have hmake : makeLeonardoHeap o.lt (x :: t) = some r₁ := by
        rw [makeLeonardoHeap, if_neg (by simp), List.length_cons, Nat.add_sub_cancel, h1, hs]
        rfl
      rw [smoothSort, hmake, Option.bind_eq_bind, Option.bind_some, sortLeonardoHeap]
      split
      · next hlen => exact ⟨r₁, rfl, h2, ascending_of_length_le_one (by omega)⟩
      · next hlen =>
        match r₁ with
        | [] => simp at hlen
        | y :: u =>
            have hu : u.length = t.length := Nat.succ_injective h2.length_eq
            obtain ⟨r₂, h3, h4, h5⟩ := makeLoop_one o y u
            rw [hu, hs] at h3 h5
            obtain ⟨hf, hok⟩ := h5 s rfl
            have hlen₂ : r₂.length = (y :: u).length - 2 + 2 := by
              rw [h4.length_eq]
              omega
            obtain ⟨l, i1, i2, i3⟩ := sortLoop_spec (t := []) hok hf hlen₂ .nil (by simp [Below])
            rw [List.append_nil] at i1 i2
            refine ⟨l, ?_, i2.trans (h4.trans h2), i3⟩
            rw [List.length_cons, Nat.add_sub_cancel, hu, h3]
            rw [List.length_cons, hu] at i1
            exact i1

theorem smoothSort_of_le (o : StrictWeakOrder α) {l : List α} (hl : lengthLimit ≤ l.length) :
    smoothSort o.lt l = none := by
  match l with
  | [] => simp [lengthLimit] at hl
  | x :: t =>
      have hg := (grows_eq (k := t.length) shape_one grown_one (by decide)).not.mpr
        (by rw [Nat.add_comm]; exact Nat.not_lt.mpr hl)
      rw [Option.not_isSome_iff_eq_none] at hg
      obtain ⟨r₁, h1, -⟩ := makeLoop_one o x t
      rw [smoothSort, makeLeonardoHeap, if_neg (by simp), List.length_cons, Nat.add_sub_cancel, h1, hg]
      rfl

/-- `smooth_sort` sorts, with each access in its range and no difference that wraps, the ranges shorter than the limit,
and these only. -/
theorem smooth_sort_iff (o : StrictWeakOrder α) (l : List α) :
    (∃ r, smoothSort o.lt l = some r ∧ r.Perm l ∧ Ascending o r) ↔ l.length < 2147576329 := by
  refine ⟨fun ⟨r, h, _⟩ => Nat.lt_of_not_le fun hl => ?_, smoothSort_of_lt o⟩
  rw [smoothSort_of_le o hl] at h
  cases h

/-- The last `++toplevel` of a range of equal elements. -/
theorem toplevel_overflows : ¬ ∀ (o : StrictWeakOrder ℕ) (l : List ℕ),
    ∃ r, smoothSort o.lt l = some r ∧ r.Perm l ∧ Ascending o r := by
  intro h
  obtain ⟨r, hr, -⟩ := h natOrder (List.replicate 2147576329 0)
  rw [smoothSort_of_le natOrder (by rw [List.length_replicate]; exact Nat.le_refl _)] at hr
  cases hr

end NeForce.LeonardoHeap
