import Mathlib.Data.List.Basic

/-! # The first occurrence of a pattern

`firstAt pat s` is the least index at which `pat` stands in `s`.  More input at the end does not move it
(`firstAt_append`), an occurrence inside a prefix is the first one of the prefix (`firstAt_of_append`), and input without
an occurrence may be skipped (`firstAt_skip`). -/

namespace NeForce.Search

variable {α : Type} [DecidableEq α] {pat s t l : List α} {i : ℕ}

def firstAt (pat s : List α) : Option ℕ := (List.range (s.length + 1)).find? fun i => pat.isPrefixOf (s.drop i)

theorem firstAt_eq_some :
    firstAt pat s = some i ↔ pat <+: s.drop i ∧ i ≤ s.length ∧ ∀ j < i, ¬ pat <+: s.drop j := by
  simp only [firstAt, List.find?_range_eq_some, List.isPrefixOf_iff_prefix, List.mem_range, Nat.lt_succ_iff,
    Bool.not_eq_true', Bool.eq_false_iff, ne_eq]

theorem firstAt_eq_none : firstAt pat s = none ↔ ∀ i ≤ s.length, ¬ pat <+: s.drop i := by
  simp only [firstAt, List.find?_eq_none, List.mem_range, Nat.lt_succ_iff, List.isPrefixOf_iff_prefix]

theorem firstAt_add_le (h : firstAt pat s = some i) : i + pat.length ≤ s.length := by
  obtain ⟨hp, hi, -⟩ := firstAt_eq_some.mp h
  have := hp.length_le
  rw [List.length_drop] at this
  omega

omit [DecidableEq α] in
/-- A pattern stands in a prefix where it stands in the whole and ends within the prefix. -/
theorem prefix_drop_append (hi : i + pat.length ≤ s.length) : pat <+: (s ++ t).drop i ↔ pat <+: s.drop i := by
  rw [List.drop_append_of_le_length (by omega)]
  refine ⟨fun h => ?_, fun h => h.trans (List.prefix_append _ _)⟩
  exact List.prefix_of_prefix_length_le h (List.prefix_append _ _) (by rw [List.length_drop]; omega)

theorem firstAt_append (h : firstAt pat s = some i) (t : List α) : firstAt pat (s ++ t) = some i := by
  have hle := firstAt_add_le h
  obtain ⟨hp, hi, hj⟩ := firstAt_eq_some.mp h
  refine firstAt_eq_some.mpr ⟨(prefix_drop_append hle).mpr hp, by rw [List.length_append]; omega, fun j hji => ?_⟩
  exact fun hc => hj j hji ((prefix_drop_append (by omega)).mp hc)

theorem firstAt_of_append (h : firstAt pat (s ++ t) = some i) (hi : i + pat.length ≤ s.length) :
    firstAt pat s = some i := by
  obtain ⟨hp, -, hj⟩ := firstAt_eq_some.mp h
  refine firstAt_eq_some.mpr ⟨(prefix_drop_append hi).mp hp, by omega, fun j hji hc => hj j hji ?_⟩
  exact (prefix_drop_append (by omega)).mpr hc

/-- A prefix that holds no occurrence in full holds none. -/
theorem firstAt_take_eq_none (h : firstAt pat s = some i) {n : ℕ} (hp : pat ≠ []) (hn : n < i + pat.length) :
    firstAt pat (s.take n) = none := by
  have hpos := List.length_pos_iff.mpr hp
  obtain ⟨-, -, hj⟩ := firstAt_eq_some.mp h
  refine firstAt_eq_none.mpr fun j _ hc => ?_
  have hle := hc.length_le
  rw [List.length_drop, List.length_take] at hle
  refine hj j (by omega) (hc.trans ?_)
  rw [List.drop_take]
  exact List.take_prefix _ _

theorem firstAt_skip (h : ∀ j < l.length, ¬ pat <+: (l ++ s).drop j) :
    firstAt pat (l ++ s) = (firstAt pat s).map (l.length + ·) := by
  cases e : firstAt pat s with
  | none =>
      refine firstAt_eq_none.mpr fun j hj hc => ?_
      by_cases hl : j < l.length
      · exact h j hl hc
      · rw [List.length_append] at hj
        rw [List.drop_append, List.drop_eq_nil_of_le (by omega), List.nil_append] at hc
        exact firstAt_eq_none.mp e _ (by omega) hc
  | some i =>
      obtain ⟨hp, hi, hj⟩ := firstAt_eq_some.mp e
      rw [Option.map_some]
      refine firstAt_eq_some.mpr ⟨?_, by rw [List.length_append]; omega, fun j hji hc => ?_⟩
      · rwa [List.drop_append, List.drop_eq_nil_of_le (by omega), List.nil_append, Nat.add_sub_cancel_left]
      · by_cases hl : j < l.length
        · exact h j hl hc
        · rw [List.drop_append, List.drop_eq_nil_of_le (by omega), List.nil_append] at hc
          exact hj _ (by omega) hc

omit [DecidableEq α] in
theorem not_prefix_of_not_mem {c : α} {p : List α} (h : c ∉ l) {j : ℕ} (hj : j < l.length) :
    ¬ (c :: p) <+: (l ++ s).drop j := by
  rintro ⟨r, hr⟩
  rw [List.drop_append_of_le_length (by omega), List.drop_eq_getElem_cons hj, List.cons_append, List.cons_append,
    List.cons.injEq] at hr
  exact h (hr.1 ▸ List.getElem_mem hj)

/-- The first occurrence lies behind input without the first element of the pattern. -/
theorem firstAt_of_not_mem {c : α} {p : List α} (h : c ∉ l) :
    firstAt (c :: p) (l ++ s) = (firstAt (c :: p) s).map (l.length + ·) :=
  firstAt_skip fun _ hj => not_prefix_of_not_mem h hj

theorem firstAt_self : firstAt pat (pat ++ t) = some 0 :=
  firstAt_eq_some.mpr ⟨List.prefix_append _ _, Nat.zero_le _, fun _ hj => absurd hj (Nat.not_lt_zero _)⟩

theorem firstAt_eq_none_of_not_mem {c : α} {p : List α} (h : c ∉ s) : firstAt (c :: p) s = none := by
  refine firstAt_eq_none.mpr fun j _ hc => h ?_
  exact (List.drop_sublist j s).subset (hc.subset (List.mem_cons_self ..))

section

variable {w a : List α} {q : α} {j : ℕ}

omit [DecidableEq α] in
/-- A pattern that ends in `q`, and stands before the first `q` or at it, ends there. -/
theorem eq_drop_of_ends (ha : q ∉ a) (hw : q ∉ w) (hj : j ≤ a.length) (hp : (w ++ [q]) <+: (a ++ q :: s).drop j) :
    w = a.drop j := by
  obtain ⟨r, hr⟩ := hp
  have hdrop : q ∉ a.drop j := fun hm => ha (List.drop_subset j a hm)
  rw [List.drop_append_of_le_length hj, List.append_assoc, List.singleton_append] at hr
  obtain ⟨m, hm, hm'⟩ | ⟨m, hm, hm'⟩ := List.append_eq_append_iff.mp hr
  · cases m with
    | nil => rw [hm, List.append_nil]
    | cons c m =>
        obtain ⟨rfl, -⟩ := List.cons.inj hm'
        exact absurd (hm ▸ List.mem_append_right _ (List.mem_cons_self ..)) hdrop
  · cases m with
    | nil => rw [hm, List.append_nil]
    | cons c m =>
        obtain ⟨rfl, -⟩ := List.cons.inj hm'
        exact absurd (hm ▸ List.mem_append_right _ (List.mem_cons_self ..)) hw

/-- A text up to the first `q` is skipped, if the pattern does not end there. -/
theorem firstAt_past (ha : q ∉ a) (hw : q ∉ w) (h : ¬ w <:+ a) :
    firstAt (w ++ [q]) (a ++ q :: s) = (firstAt (w ++ [q]) s).map (a.length + 1 + ·) := by
  have hskip : ∀ j < (a ++ [q]).length, ¬ (w ++ [q]) <+: ((a ++ [q]) ++ s).drop j := by
    intro j hj hp
    rw [List.length_append, List.length_singleton] at hj
    rw [List.append_assoc, List.singleton_append] at hp
    exact h (eq_drop_of_ends ha hw (Nat.le_of_lt_succ hj) hp ▸ List.drop_suffix j a)
  have hfirst := firstAt_skip hskip
  rwa [List.append_assoc, List.singleton_append, List.length_append, List.length_singleton] at hfirst

/-- The pattern ends at the first `q`. -/
theorem firstAt_ending (ha : q ∉ a) (hw : q ∉ w) : firstAt (w ++ [q]) (a ++ (w ++ q :: s)) = some a.length := by
  refine firstAt_eq_some.mpr ⟨?_, by rw [List.length_append]; omega, fun j hj hp => ?_⟩
  · rw [List.drop_left]
    exact ⟨s, List.append_assoc _ _ _⟩
  · rw [← List.append_assoc] at hp
    have haw : q ∉ a ++ w := fun hm => (List.mem_append.mp hm).elim ha hw
    have hlen := congrArg List.length (eq_drop_of_ends haw hw (by rw [List.length_append]; omega) hp)
    rw [List.length_drop, List.length_append] at hlen
    omega

end

section

variable {p a : List α} {c : α}

omit [DecidableEq α] in
theorem prefix_of_not_mem (hc : c ∉ p) (h : p <+: a ++ c :: s) : p <+: a := by
  refine List.prefix_of_prefix_length_le h (List.prefix_append _ _) ?_
  by_contra hlt
  have hac : a ++ [c] <+: a ++ c :: s := ⟨s, (List.append_cons a c s).symm⟩
  have hlen : (a ++ [c]).length ≤ p.length := by
    rw [List.length_append, List.length_singleton]
    omega
  obtain ⟨r, hr⟩ := List.prefix_of_prefix_length_le hac h hlen
  rw [← hr] at hc
  exact hc (List.mem_append_left _ (List.mem_append_right _ (List.mem_singleton_self c)))

omit [DecidableEq α] in
/-- A pattern without `c` stands before `c` or behind it. -/
theorem infix_of_not_mem (hc : c ∉ p) (h : p <:+: a ++ c :: s) : p <:+: a ∨ p <:+: s := by
  induction a with
  | nil =>
      obtain hp | hs := List.infix_cons_iff.mp h
      · exact .inl (prefix_of_not_mem (a := []) hc hp).isInfix
      · exact .inr hs
  | cons b a ih =>
      obtain hp | hs := List.infix_cons_iff.mp h
      · exact .inl (prefix_of_not_mem (a := b :: a) hc hp).isInfix
      · obtain ha | hs := ih hs
        · exact .inl (List.infix_cons ha)
        · exact .inr hs

/-- A text that does not hold the pattern, and an element that is not in it, are skipped. -/
theorem firstAt_piece (hc : c ∉ p) (ha : ¬ p <:+: a) : firstAt p (a ++ c :: s) = (firstAt p s).map (a.length + 1 + ·) := by
  have hskip : ∀ j < (a ++ [c]).length, ¬ p <+: ((a ++ [c]) ++ s).drop j := by
    intro j hj hp
    rw [List.length_append, List.length_singleton] at hj
    rw [List.append_assoc, List.singleton_append, List.drop_append_of_le_length (by omega)] at hp
    exact ha ((prefix_of_not_mem hc hp).isInfix.trans (List.drop_suffix _ _).isInfix)
  have h := firstAt_skip hskip
  rwa [List.append_assoc, List.singleton_append, List.length_append, List.length_singleton] at h

/-- What stands before the first occurrence holds none. -/
theorem not_infix_take {i k : ℕ} (hp : p ≠ []) (h : firstAt p s = some i) (hk : k ≤ i) : ¬ p <:+: s.take k := by
  rintro ⟨x, y, hxy⟩
  have hpos := List.length_pos_iff.mpr hp
  have hlen := congrArg List.length hxy
  simp only [List.length_append, List.length_take] at hlen
  refine (firstAt_eq_some.mp h).2.2 x.length (by omega) ?_
  have hdrop := congrArg (List.drop x.length) hxy
  rw [List.append_assoc, List.drop_left, List.drop_take] at hdrop
  exact (List.prefix_append _ _).trans (hdrop ▸ List.take_prefix _ _)

end

end NeForce.Search
