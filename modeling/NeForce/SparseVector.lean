import NeForce.Bisect

/-! # The sparse vector

`sparse_vector` keeps its elements in a sorted vector.  Positions are indices; the bounds of a key are found by bisection,
the end of the elements with a given key by a scan.  What an operation does is said by the three parts in which its
key cuts the vector (`Parts`): the elements that are less, those that are equivalent and those that are greater.

A hint is used only if the value fits there; the vector stays sorted, and holds the same elements as without the
hint (`emplaceUniqueHint_spec`, `emplaceEqualHint_spec`). -/

namespace NeForce

structure SparseVector (V K : Type) where
  keyCompare : StrictWeakOrder K
  data : List V

namespace SparseVector

variable {V K : Type} (key : V → K)

/-! ### The operations -/

/-- `lower_bound_index` -/
def lowerBound (c : SparseVector V K) (k : K) : Option ℕ :=
  bisect (fun a => !c.keyCompare.lt (key a) k) c.data (c.data.length + 1) 0 c.data.length

/-- `upper_bound_index` -/
def upperBound (c : SparseVector V K) (k : K) : Option ℕ :=
  bisect (fun a => c.keyCompare.lt k (key a)) c.data (c.data.length + 1) 0 c.data.length

def equalRangeEnd (c : SparseVector V K) (first : ℕ) (k : K) : Option ℕ :=
  scanFrom (fun a => c.keyCompare.lt k (key a)) c.data (c.data.length + 1) first

/-- `pos < data_.size() && !key_compare_(key, key_of(data_[pos]))` -/
def isNotAbove (c : SparseVector V K) (pos : ℕ) (k : K) : Bool :=
  (c.data[pos]?).any fun a => !c.keyCompare.lt k (key a)

def insertAt (c : SparseVector V K) (pos : ℕ) (v : V) : SparseVector V K × ℕ :=
  ({ c with data := c.data.insertIdx pos v }, pos)

def emplaceUnique (c : SparseVector V K) (v : V) : Option (SparseVector V K × ℕ × Bool) := do
  let pos ← c.lowerBound key (key v)
  if c.isNotAbove key pos (key v) then pure (c, pos, false)
  else
    let (c, i) := c.insertAt pos v
    pure (c, i, true)

/-- A vector with elements has one of three kinds of hints: a position between two elements, the first one, or the end. -/
def emplaceUniqueHint (c : SparseVector V K) (position : ℕ) (v : V) : Option (SparseVector V K × ℕ) :=
  let k := key v
  let unhinted := (c.emplaceUnique key v).map fun r => (r.1, r.2.1)
  if position ≠ c.data.length ∧ position ≠ 0 then do
    let before ← c.data[position - 1]?
    let there ← c.data[position]?
    if c.keyCompare.lt (key before) k ∧ c.keyCompare.lt k (key there) then some (c.insertAt position v) else unhinted
  else if position = 0 ∧ c.data ≠ [] then do
    let front ← c.data.head?
    if c.keyCompare.lt k (key front) then some (c.insertAt 0 v)
    else if c.keyCompare.lt (key front) k = false then some (c, 0)
    else unhinted
  else if position = c.data.length ∧ c.data ≠ [] then do
    let back ← c.data.getLast?
    if c.keyCompare.lt (key back) k then some (c.insertAt c.data.length v)
    else if c.keyCompare.lt k (key back) = false then some (c, c.data.length - 1)
    else unhinted
  else unhinted

def emplaceEqual (c : SparseVector V K) (v : V) : Option (SparseVector V K × ℕ) := do
  let pos ← c.upperBound key (key v)
  pure (c.insertAt pos v)

def emplaceEqualHint (c : SparseVector V K) (position : ℕ) (v : V) : Option (SparseVector V K × ℕ) :=
  let k := key v
  let unhinted := c.emplaceEqual key v
  if position ≠ c.data.length ∧ position ≠ 0 then do
    let before ← c.data[position - 1]?
    let there ← c.data[position]?
    if c.keyCompare.lt (key before) k ∧ c.keyCompare.lt k (key there) then some (c.insertAt position v) else unhinted
  else if position = 0 ∧ c.data ≠ [] then do
    let front ← c.data.head?
    if c.keyCompare.lt k (key front) then some (c.insertAt 0 v) else unhinted
  else if position = c.data.length ∧ c.data ≠ [] then do
    let back ← c.data.getLast?
    if c.keyCompare.lt k (key back) = false then some (c.insertAt c.data.length v) else unhinted
  else unhinted

/-- `erase(key)` -/
def eraseKey (c : SparseVector V K) (k : K) : Option (SparseVector V K × ℕ) := do
  let lo ← c.lowerBound key k
  let hi ← c.equalRangeEnd key lo k
  pure (if 0 < hi - lo then { c with data := c.data.take lo ++ c.data.drop hi } else c, hi - lo)

def find (c : SparseVector V K) (k : K) : Option ℕ := do
  let pos ← c.lowerBound key k
  pure (if c.isNotAbove key pos k then pos else c.data.length)

def count (c : SparseVector V K) (k : K) : Option ℕ := do
  let lo ← c.lowerBound key k
  let hi ← c.equalRangeEnd key lo k
  pure (hi - lo)

def equalRange (c : SparseVector V K) (k : K) : Option (ℕ × ℕ) := do
  let lo ← c.lowerBound key k
  let hi ← c.upperBound key k
  pure (lo, hi)

/-- `equal_range` of a constant vector -/
def equalRangeConst (c : SparseVector V K) (k : K) : Option (ℕ × ℕ) := do
  let lo ← c.lowerBound key k
  let hi ← c.equalRangeEnd key lo k
  pure (lo, hi)

/-! ### What they do -/

/-- The parts of a sorted sequence that are less than, equivalent to and greater than a key. -/
structure Parts (o : StrictWeakOrder K) (k : K) (s s₁ m s₂ : List V) : Prop where
  eq : s = s₁ ++ m ++ s₂
  lower : Cut (notBelow o key k) s s₁ (m ++ s₂)
  upper : Cut (above o key k) s (s₁ ++ m) s₂

variable {key} {c : SparseVector V K} {k : K} {s₁ m s₂ : List V} {v : V} {position : ℕ}

theorem exists_parts (h : Sorted c.keyCompare key c.data) (k : K) : ∃ s₁ m s₂, Parts key c.keyCompare k c.data s₁ m s₂ := by
  obtain ⟨s₁, m, s₂, he, h₁, h₂, _⟩ := h.exists_bounds k
  exact ⟨s₁, m, s₂, he, h₁, h₂⟩

theorem insertIdx_append (s₁ s₂ : List V) (v : V) : (s₁ ++ s₂).insertIdx s₁.length v = s₁ ++ v :: s₂ := by
  induction s₁ with
  | nil => rfl
  | cons a s₁ ih => exact congrArg (a :: ·) ih

theorem insertAt_eq (h : c.data = s₁ ++ s₂) :
    c.insertAt s₁.length v = ({ c with data := s₁ ++ v :: s₂ }, s₁.length) := by
  rw [insertAt, h, insertIdx_append]

namespace Parts

section

variable (h : Parts key c.keyCompare k c.data s₁ m s₂)

include h

theorem length_eq : c.data.length = s₁.length + m.length + s₂.length := by
  rw [h.eq, List.length_append, List.length_append]

theorem lowerBound_eq : c.lowerBound key k = some s₁.length := by
  have hlen := h.length_eq
  exact bisect_eq h.lower (Nat.zero_le _) (by omega) le_rfl (by omega)

theorem upperBound_eq : c.upperBound key k = some (s₁.length + m.length) := by
  have hlen := h.length_eq
  have hb := bisect_eq (n := c.data.length + 1) h.upper (Nat.zero_le _) (by simp; omega) le_rfl (by omega)
  rwa [List.length_append] at hb

theorem equalRangeEnd_eq : c.equalRangeEnd key s₁.length k = some (s₁.length + m.length) := by
  have hlen := h.length_eq
  have hb := scanFrom_eq (n := c.data.length + 1) (i := s₁.length) h.upper (by simp) (by simp; omega)
  rwa [List.length_append] at hb

theorem isNotAbove_eq : c.isNotAbove key s₁.length k = !m.isEmpty := by
  rw [isNotAbove, h.lower.getElem?_length]
  cases m with
  | nil =>
      cases s₂ with
      | nil => rfl
      | cons a s₂ =>
          have ha := h.upper.high a (by simp)
          rw [above] at ha
          simp [ha]
  | cons a m =>
      have ha := h.upper.low a (by simp)
      rw [above] at ha
      simp [ha]

theorem find_eq : c.find key k = some (if m = [] then c.data.length else s₁.length) := by
  rw [find, h.lowerBound_eq]
  simp only [Option.bind_eq_bind, Option.bind_some, h.isNotAbove_eq]
  cases m <;> rfl

theorem count_eq : c.count key k = some m.length := by
  rw [count, h.lowerBound_eq]
  simp only [Option.bind_eq_bind, Option.bind_some, h.equalRangeEnd_eq, Nat.add_sub_cancel_left]
  rfl

theorem equalRange_eq : c.equalRange key k = some (s₁.length, s₁.length + m.length) := by
  rw [equalRange, h.lowerBound_eq]
  simp only [Option.bind_eq_bind, Option.bind_some, h.upperBound_eq]
  rfl

theorem equalRangeConst_eq : c.equalRangeConst key k = c.equalRange key k := by
  rw [equalRangeConst, h.equalRange_eq, h.lowerBound_eq]
  simp only [Option.bind_eq_bind, Option.bind_some, h.equalRangeEnd_eq]
  rfl

theorem eraseKey_eq : c.eraseKey key k = some ({ c with data := s₁ ++ s₂ }, m.length) := by
  rw [eraseKey, h.lowerBound_eq]
  simp only [Option.bind_eq_bind, Option.bind_some, h.equalRangeEnd_eq, Nat.add_sub_cancel_left]
  have hdrop : c.data.take s₁.length ++ c.data.drop (s₁.length + m.length) = s₁ ++ s₂ := by
    rw [h.eq, List.append_assoc, List.take_left', ← List.append_assoc, List.drop_left'] <;> simp
  rw [hdrop]
  split
  · rfl
  · rename_i hm
    obtain rfl : m = [] := List.eq_nil_of_length_eq_zero (by omega)
    have hc : c.data = s₁ ++ s₂ := by simpa using h.eq
    rw [← hc]
    rfl

end

variable {o : StrictWeakOrder K} {s : List V} {a : V}

/-- A value that is equivalent to an element is not inserted. -/
theorem emplaceUnique_eq (h : Parts key c.keyCompare (key v) c.data s₁ m s₂) : c.emplaceUnique key v =
    some (if m = [] then ({ c with data := s₁ ++ v :: s₂ }, s₁.length, true) else (c, s₁.length, false)) := by
  rw [emplaceUnique, h.lowerBound_eq]
  simp only [Option.bind_eq_bind, Option.bind_some, h.isNotAbove_eq]
  cases m with
  | nil =>
      have hins := insertAt_eq (c := c) (v := v) (show c.data = s₁ ++ s₂ by simpa using h.eq)
      rw [hins]
      rfl
  | cons a m => rfl

/-- A value is inserted after those that are equivalent. -/
theorem emplaceEqual_eq (h : Parts key c.keyCompare (key v) c.data s₁ m s₂) : c.emplaceEqual key v =
    some ({ c with data := s₁ ++ m ++ v :: s₂ }, s₁.length + m.length) := by
  have hins := insertAt_eq (v := v) h.eq
  rw [List.length_append] at hins
  rw [emplaceEqual, h.upperBound_eq]
  simp only [Option.bind_eq_bind, Option.bind_some, hins]
  rfl

/-- Where a value fits strictly there is no equivalent element. -/
theorem of_fits (he : s = s₁ ++ s₂) (h₁ : ∀ a ∈ s₁, o.lt (key a) k = true)
    (h₂ : ∀ a ∈ s₂, o.lt k (key a) = true) : Parts key o k s s₁ [] s₂ := by
  refine ⟨by simpa using he, ⟨he, fun a ha => ?_, fun a ha => ?_⟩, ⟨by simpa using he, fun a ha => ?_, h₂⟩⟩
  · simp [notBelow, h₁ a ha]
  · simp [notBelow, StrictWeakOrder.asymm (h₂ a ha)]
  · rw [List.append_nil] at ha
    exact StrictWeakOrder.asymm (h₁ a ha)

theorem ne_nil (h : Parts key o k s s₁ m s₂) (ha : a ∈ s) (he : o.Equiv (key a) k) : m ≠ [] := by
  rintro rfl
  rw [h.eq, List.append_nil] at ha
  rcases List.mem_append.mp ha with ha | ha
  · have hlow := h.lower.low a ha
    simp [notBelow, he.1] at hlow
  · have hhigh := h.upper.high a ha
    simp [above, he.2] at hhigh

/-- A key that is not less than the last element. -/
theorem right_eq_nil (h : Parts key o k s s₁ m s₂) (hs : ∀ b ∈ s, o.lt k (key b) = false) : s₂ = [] := by
  refine List.eq_nil_iff_forall_not_mem.mpr fun b hb => ?_
  have hhigh := h.upper.high b hb
  rw [above, hs b (by rw [h.eq]; simp [hb])] at hhigh
  cases hhigh

end Parts

/-- The elements before and after a position between two elements. -/
theorem exists_between (h : position ≠ c.data.length ∧ position ≠ 0) (hle : position ≤ c.data.length) :
    ∃ s₁ before there s₂, c.data = s₁ ++ [before] ++ there :: s₂ ∧ position = (s₁ ++ [before]).length ∧
      c.data[position - 1]? = some before ∧ c.data[position]? = some there := by
  obtain ⟨n, rfl⟩ : ∃ n, position = n + 1 := ⟨position - 1, by omega⟩
  have h1 : n < c.data.length := by omega
  have h2 : n + 1 < c.data.length := by omega
  refine ⟨c.data.take n, c.data[n], c.data[n + 1], c.data.drop (n + 2), ?_, ?_, ?_, ?_⟩
  · rw [List.take_append_getElem, List.getElem_cons_drop, List.take_append_drop]
  · rw [List.length_append, List.length_take_of_le h1.le, List.length_singleton]
  · exact List.getElem?_eq_getElem h1
  · exact List.getElem?_eq_getElem h2

/-- Between two elements a value is greater than all elements before it and less than all after it. -/
theorem between_fits {o : StrictWeakOrder K} {before there : V} (h : Sorted o key (s₁ ++ [before] ++ there :: s₂))
    (hlt : o.lt (key before) k = true ∧ o.lt k (key there) = true) :
    (∀ a ∈ s₁ ++ [before], o.lt (key a) k = true) ∧ ∀ a ∈ there :: s₂, o.lt k (key a) = true := by
  obtain ⟨h1, h2, _⟩ := List.pairwise_append.mp h
  exact ⟨fun a ha => StrictWeakOrder.lt_of_ge_of_lt (Sorted.le_last h1 a ha) hlt.1,
    fun a ha => StrictWeakOrder.lt_of_lt_of_ge hlt.2 (Sorted.first_le h2 a ha)⟩

/-- **A hint changes neither the elements nor their order**, when keys are unique. -/
theorem emplaceUniqueHint_spec (h : Sorted c.keyCompare key c.data) (hle : position ≤ c.data.length) (v : V) :
    ∃ c' i j b, c.emplaceUnique key v = some (c', i, b) ∧ c.emplaceUniqueHint key position v = some (c', j) := by
  obtain ⟨s₁, m, s₂, hp⟩ := exists_parts h (key v)
  have hfall : ∃ c' i j b, c.emplaceUnique key v = some (c', i, b) ∧
      (c.emplaceUnique key v).map (fun r => (r.1, r.2.1)) = some (c', j) := by
    rw [hp.emplaceUnique_eq]
    split <;> exact ⟨_, _, _, _, rfl, rfl⟩
  have hinsert : ∀ s₁ s₂, c.data = s₁ ++ s₂ → (∀ a ∈ s₁, c.keyCompare.lt (key a) (key v) = true) →
      (∀ a ∈ s₂, c.keyCompare.lt (key v) (key a) = true) →
      ∃ c' i j b, c.emplaceUnique key v = some (c', i, b) ∧ some (c.insertAt s₁.length v) = some (c', j) := by
    intro s₁ s₂ he h1 h2
    refine ⟨{ c with data := s₁ ++ v :: s₂ }, s₁.length, s₁.length, true, ?_, ?_⟩
    · rw [(Parts.of_fits he h1 h2).emplaceUnique_eq, if_pos rfl]
    · rw [insertAt_eq he]
  have hpresent : ∀ {a} (j : ℕ), a ∈ c.data → c.keyCompare.Equiv (key a) (key v) →
      ∃ c' i j' b, c.emplaceUnique key v = some (c', i, b) ∧ some (c, j) = some (c', j') := by
    intro a j ha he
    exact ⟨c, s₁.length, j, false, by rw [hp.emplaceUnique_eq, if_neg (hp.ne_nil ha he)], rfl⟩
  rw [emplaceUniqueHint]
  split
  · rename_i hpos
    obtain ⟨t₁, before, there, t₂, he, hlen, hb, ht⟩ := exists_between hpos hle
    rw [hb, ht]
    simp only [Option.bind_eq_bind, Option.bind_some]
    split
    · rename_i hlt
      rw [he] at h
      obtain ⟨h1, h2⟩ := between_fits h hlt
      rw [hlen]
      exact hinsert _ _ he h1 h2
    · exact hfall
  · split
    · rename_i hpos
      obtain ⟨front, t, he⟩ := List.exists_cons_of_ne_nil hpos.2
      rw [he, List.head?_cons]
      simp only [Option.bind_eq_bind, Option.bind_some]
      split
      · rename_i hlt
        rw [he] at h
        exact hinsert [] _ he (by simp) fun a ha => StrictWeakOrder.lt_of_lt_of_ge hlt (Sorted.first_le h a ha)
      · split
        · rename_i hlt hge
          exact hpresent 0 (a := front) (by simp [he]) ⟨hge, by simpa using hlt⟩
        · exact hfall
    · split
      · rename_i hpos
        obtain ⟨t, back, he⟩ : ∃ t back, c.data = t ++ [back] := ⟨_, _, (List.dropLast_append_getLast hpos.2).symm⟩
        have hlast : c.data.getLast? = some back := by rw [he, List.getLast?_concat]
        rw [hlast]
        simp only [Option.bind_eq_bind, Option.bind_some]
        split
        · rename_i hlt
          have hall : ∀ a ∈ c.data, c.keyCompare.lt (key a) (key v) = true := by
            rw [he] at h ⊢
            exact fun a ha => StrictWeakOrder.lt_of_ge_of_lt (Sorted.le_last h a ha) hlt
          exact hinsert _ [] (List.append_nil _).symm hall (by simp)
        · split
          · rename_i hlt hge
            exact hpresent _ (a := back) (by simp [he]) ⟨by simpa using hlt, hge⟩
          · exact hfall
      · exact hfall

/-- **A hint changes neither the elements nor their order**, when keys may be equal. -/
theorem emplaceEqualHint_spec (h : Sorted c.keyCompare key c.data) (hle : position ≤ c.data.length) (v : V) :
    c.emplaceEqualHint key position v = c.emplaceEqual key v := by
  have hinsert : ∀ s₁ s₂, c.data = s₁ ++ s₂ → (∀ a ∈ s₁, c.keyCompare.lt (key a) (key v) = true) →
      (∀ a ∈ s₂, c.keyCompare.lt (key v) (key a) = true) → some (c.insertAt s₁.length v) = c.emplaceEqual key v := by
    intro s₁ s₂ he h1 h2
    have hp := Parts.of_fits he h1 h2
    rw [hp.emplaceEqual_eq, insertAt_eq he, List.append_nil]
    rfl
  rw [emplaceEqualHint]
  split
  · rename_i hpos
    obtain ⟨t₁, before, there, t₂, he, hlen, hb, ht⟩ := exists_between hpos hle
    rw [hb, ht]
    simp only [Option.bind_eq_bind, Option.bind_some]
    split
    · rename_i hlt
      rw [he] at h
      obtain ⟨h1, h2⟩ := between_fits h hlt
      rw [hlen]
      exact hinsert _ _ he h1 h2
    · rfl
  · split
    · rename_i hpos
      obtain ⟨front, t, he⟩ := List.exists_cons_of_ne_nil hpos.2
      rw [he, List.head?_cons]
      simp only [Option.bind_eq_bind, Option.bind_some]
      split
      · rename_i hlt
        rw [he] at h
        exact hinsert [] _ he (by simp) fun a ha => StrictWeakOrder.lt_of_lt_of_ge hlt (Sorted.first_le h a ha)
      · rfl
    · split
      · rename_i hpos
        obtain ⟨t, back, he⟩ : ∃ t back, c.data = t ++ [back] := ⟨_, _, (List.dropLast_append_getLast hpos.2).symm⟩
        have hlast : c.data.getLast? = some back := by rw [he, List.getLast?_concat]
        rw [hlast]
        simp only [Option.bind_eq_bind, Option.bind_some]
        split
        · rename_i hge
          have hall : ∀ a ∈ c.data, c.keyCompare.lt (key v) (key a) = false := by
            rw [he] at h ⊢
            exact fun a ha => StrictWeakOrder.ge_trans (Sorted.le_last h a ha) hge
          obtain ⟨s₁, m, s₂, hp⟩ := exists_parts h (key v)
          obtain rfl := hp.right_eq_nil hall
          have hdata : c.data = s₁ ++ m := by simpa using hp.eq
          rw [hp.emplaceEqual_eq, insertAt_eq (List.append_nil _).symm, hdata, List.length_append]
        · rfl
      · rfl

end SparseVector

end NeForce
