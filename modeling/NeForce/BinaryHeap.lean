import NeForce.Order

/-! # Binary heaps

A binary heap in a list: the parent of position `i` is `(i - 1) / 2`, and no parent is less than its child, so
that the greatest element is in front.

The functions move a hole through the list and put the value into it at the end, as the algorithms on random
access iterators do.  `siftUp` and `siftDown` are the two loops; both start from a list in which only the hole may be
out of order (`Rising`, `Sinking`). -/

namespace NeForce.BinaryHeap

variable {α : Type}

/-- `(hole_index - 1) / 2`. -/
def parent (i : ℕ) : ℕ := (i - 1) / 2

section

variable (lt : α → α → Bool)

/-- `push_heap_aux`, with at most `n` moves. -/
def siftUp (value : α) (top : ℕ) : ℕ → ℕ → List α → List α
  | 0, hole, l => l.set hole value
  | n + 1, hole, l =>
      match l[parent hole]? with
      | some p => if top < hole ∧ lt p value then siftUp value top n (parent hole) (l.set hole p) else l.set hole value
      | none => l.set hole value

def pushHeapAux (l : List α) (hole top : ℕ) (value : α) : List α := siftUp lt value top hole hole l

def pushHeap (l : List α) : List α :=
  match l.getLast? with
  | some value => if l.length < 2 then l else pushHeapAux lt l (l.length - 1) 0 value
  | none => l

/-- The greater child of the hole. -/
def greaterChild (l : List α) (hole : ℕ) : ℕ :=
  match l[2 * hole + 1]?, l[2 * hole + 2]? with
  | some x, some y => if lt x y then 2 * hole + 2 else 2 * hole + 1
  | _, _ => 2 * hole + 1

/-- The loop of `adjust_heap`, with at most `n` moves: where the hole is in the end. -/
def siftDown (value : α) : ℕ → ℕ → List α → ℕ × List α
  | 0, hole, l => (hole, l)
  | n + 1, hole, l =>
      match l[greaterChild lt l hole]? with
      | some c => if lt value c then siftDown value n (greaterChild lt l hole) (l.set hole c) else (hole, l)
      | none => (hole, l)

def adjustHeap (l : List α) (hole : ℕ) (value : α) : List α :=
  let r := siftDown lt value l.length hole l
  pushHeapAux lt r.2 r.1 hole value

/-- `pop_heap`: the front goes to the end. -/
def popHeap (l : List α) : List α :=
  match l, l.getLast? with
  | first :: _ :: _, some last => adjustHeap lt l.dropLast 0 last ++ [first]
  | _, _ => l

/-- The loop of `make_heap`, from the parent `n - 1` down. -/
def makeHeapLoop : ℕ → List α → List α
  | 0, l => l
  | n + 1, l =>
      match l[n]? with
      | some value => makeHeapLoop n (adjustHeap lt l n value)
      | none => makeHeapLoop n l

def makeHeap (l : List α) : List α := if l.length < 2 then l else makeHeapLoop lt ((l.length - 2) / 2 + 1) l

/-- No parent from position `lo` on is less than its child. -/
def HeapFrom (lo : ℕ) (l : List α) : Prop :=
  ∀ i x y, 0 < i → lo ≤ parent i → l[parent i]? = some x → l[i]? = some y → lt x y = false

def IsHeap (l : List α) : Prop := HeapFrom lt 0 l

end

/-! ### Positions -/

/-- `c` is a child of `p`. -/
def IsChild (c p : ℕ) : Prop := 0 < c ∧ parent c = p

theorem IsChild.lt {c p : ℕ} (h : IsChild c p) : p < c := by
  unfold IsChild parent at h
  omega

theorem IsChild.eq_or {c p : ℕ} (h : IsChild c p) : c = 2 * p + 1 ∨ c = 2 * p + 2 := by
  unfold IsChild parent at h
  omega

theorem isChild_parent {i : ℕ} (h : 0 < i) : IsChild i (parent i) := ⟨h, rfl⟩

theorem getElem?_set_self {l : List α} {i : ℕ} (h : i < l.length) (a : α) : (l.set i a)[i]? = some a := by
  simp [h]

theorem getElem?_set_other {l : List α} {i j : ℕ} (h : j ≠ i) (a : α) : (l.set i a)[j]? = l[j]? := by
  rw [List.getElem?_set_ne (Ne.symm h)]

/-! ### Upwards -/

variable {o : StrictWeakOrder α} {l : List α} {hole lo n : ℕ} {value : α}

/-- What `siftUp` needs of the order: the pairs off the hole are in order, and so are the parent of the hole, the
value and the children of the hole. -/
structure Rising (o : StrictWeakOrder α) (l : List α) (hole : ℕ) (value : α) : Prop where
  elsewhere : ∀ i x y, 0 < i → i ≠ hole → parent i ≠ hole → l[parent i]? = some x → l[i]? = some y → o.lt x y = false
  across : ∀ c x y, 0 < hole → IsChild c hole → l[parent hole]? = some x → l[c]? = some y → o.lt x y = false
  underHole : ∀ c y, IsChild c hole → l[c]? = some y → o.lt value y = false

theorem Rising.step (h : Rising o l hole value) (hpos : 0 < hole) (hlt : hole < l.length) {p : α}
    (hp : l[parent hole]? = some p) (hless : o.lt p value = true) :
    Rising o (l.set hole p) (parent hole) value := by
  have hph : parent hole ≠ hole := (isChild_parent hpos).lt.ne
  refine ⟨?_, ?_, ?_⟩
  · intro i x y hi hne hpne hx hy
    have hih : i ≠ hole := fun he => hpne (congrArg parent he)
    rw [getElem?_set_other hih] at hy
    by_cases hpi : parent i = hole
    · rw [hpi, getElem?_set_self hlt] at hx
      exact Option.some.inj hx ▸ h.across i p y hpos ⟨hi, hpi⟩ hp hy
    · rw [getElem?_set_other hpi] at hx
      exact h.elsewhere i x y hi hih hpi hx hy
  · intro c x y hpp hc hx hy
    have hpph : parent (parent hole) ≠ hole := by
      have := (isChild_parent hpp).lt
      have := (isChild_parent hpos).lt
      omega
    rw [getElem?_set_other hpph] at hx
    have hup : o.lt x p = false := h.elsewhere (parent hole) x p hpp hph hpph hx hp
    by_cases hch : c = hole
    · rw [hch, getElem?_set_self hlt] at hy
      exact Option.some.inj hy ▸ hup
    · rw [getElem?_set_other hch] at hy
      have hside : o.lt p y = false := h.elsewhere c p y hc.1 hch (by rw [hc.2]; exact hph) (by rw [hc.2]; exact hp) hy
      exact o.ge_trans hside hup
  · intro c y hc hy
    by_cases hch : c = hole
    · rw [hch, getElem?_set_self hlt] at hy
      exact Option.some.inj hy ▸ o.asymm hless
    · rw [getElem?_set_other hch] at hy
      have hside : o.lt p y = false := h.elsewhere c p y hc.1 hch (by rw [hc.2]; exact hph) (by rw [hc.2]; exact hp) hy
      cases hv : o.lt value y with
      | false => rfl
      | true =>
          rw [o.trans hless hv] at hside
          cases hside

theorem Rising.close (h : Rising o l hole value) (hlt : hole < l.length)
    (hstop : ∀ x, 0 < hole → l[parent hole]? = some x → o.lt x value = false) : IsHeap o.lt (l.set hole value) := by
  intro i x y hi _ hx hy
  by_cases hih : i = hole
  · subst hih
    rw [getElem?_set_self hlt] at hy
    rw [getElem?_set_other (isChild_parent hi).lt.ne] at hx
    exact Option.some.inj hy ▸ hstop x hi hx
  · rw [getElem?_set_other hih] at hy
    by_cases hpi : parent i = hole
    · rw [hpi, getElem?_set_self hlt] at hx
      exact Option.some.inj hx ▸ h.underHole i y ⟨hi, hpi⟩ hy
    · rw [getElem?_set_other hpi] at hx
      exact h.elsewhere i x y hi hih hpi hx hy

/-- Moving the hole exchanges two elements. -/
theorem set_move_perm {i j : ℕ} {x : α} (hi : i < l.length) (hij : i ≠ j) (hx : l[j]? = some x) (value : α) :
    ((l.set i x).set j value).Perm (l.set i value) := by
  obtain ⟨hj, rfl⟩ := List.getElem?_eq_some_iff.mp hx
  have hi' : i < (l.set i value).length := by rwa [List.length_set]
  have hj' : j < (l.set i value).length := by rwa [List.length_set]
  have hswap : (((l.set i value).set i (l.set i value)[j]).set j (l.set i value)[i]).Perm (l.set i value) :=
    List.set_set_perm hi' hj'
  rw [List.getElem_set_self, List.getElem_set_ne hij, List.set_set] at hswap
  exact hswap

theorem siftUp_spec (h : Rising o l hole value) (hlt : hole < l.length) (hn : hole ≤ n) :
    IsHeap o.lt (siftUp o.lt value 0 n hole l) ∧ (siftUp o.lt value 0 n hole l).Perm (l.set hole value) := by
  induction n generalizing hole l with
  | zero => exact ⟨h.close hlt fun x hpos => absurd hpos (by omega), .refl _⟩
  | succ n ih =>
      unfold siftUp
      cases hp : l[parent hole]? with
      | none => exact ⟨h.close hlt fun x _ hx => (Option.some_ne_none x (hx.symm.trans hp)).elim, .refl _⟩
      | some p =>
          dsimp only
          split
          · next hgo =>
            have hpar := (isChild_parent hgo.1).lt
            obtain ⟨h1, h2⟩ := ih (h.step hgo.1 hlt hp hgo.2) (by rw [List.length_set]; omega) (by omega)
            exact ⟨h1, h2.trans (set_move_perm hlt hpar.ne' hp value)⟩
          · next hstop =>
            refine ⟨h.close hlt fun x hpos hx => ?_, .refl _⟩
            obtain rfl := Option.some.inj (hp.symm.trans hx)
            exact Bool.eq_false_iff.mpr fun hless => hstop ⟨hpos, hless⟩

/-! ### Downwards -/

theorem greaterChild_spec (l : List α) (hole : ℕ) :
    IsChild (greaterChild o.lt l hole) hole ∧
      ∀ c x y, IsChild c hole → l[greaterChild o.lt l hole]? = some x → l[c]? = some y → o.lt x y = false := by
  have hleft : IsChild (2 * hole + 1) hole := by unfold IsChild parent; omega
  have hright : IsChild (2 * hole + 2) hole := by unfold IsChild parent; omega
  unfold greaterChild
  split
  · next a b ha hb =>
    split
    · next hab =>
      refine ⟨hright, fun c x y hc hx hy => ?_⟩
      obtain rfl := Option.some.inj (hb.symm.trans hx)
      rcases hc.eq_or with rfl | rfl
      · exact Option.some.inj (ha.symm.trans hy) ▸ o.asymm hab
      · exact Option.some.inj (hb.symm.trans hy) ▸ o.irrefl _
    · next hab =>
      refine ⟨hleft, fun c x y hc hx hy => ?_⟩
      obtain rfl := Option.some.inj (ha.symm.trans hx)
      rcases hc.eq_or with rfl | rfl
      · exact Option.some.inj (ha.symm.trans hy) ▸ o.irrefl _
      · exact Option.some.inj (hb.symm.trans hy) ▸ Bool.eq_false_iff.mpr hab
  · next hnot =>
    refine ⟨hleft, fun c x y hc hx hy => ?_⟩
    rcases hc.eq_or with rfl | rfl
    · exact Option.some.inj (hx.symm.trans hy) ▸ o.irrefl _
    · exact absurd hy (hnot x y hx)

theorem greaterChild_none (h : l[greaterChild o.lt l hole]? = none) {c : ℕ} (hc : IsChild c hole) : l[c]? = none := by
  have hleft : l[2 * hole + 1]? = none := by
    unfold greaterChild at h
    split at h
    · next a b ha hb =>
      split at h
      · exact (Option.some_ne_none b (hb.symm.trans h)).elim
      · exact h
    · exact h
  rw [List.getElem?_eq_none_iff] at hleft ⊢
  rcases hc.eq_or with rfl | rfl <;> omega

/-- What `siftDown` needs of the order from position `lo` on: as `Rising`, but the value may be less than the
children of the hole. -/
structure Sinking (o : StrictWeakOrder α) (lo : ℕ) (l : List α) (hole : ℕ) (value : α) : Prop where
  elsewhere : ∀ i x y, 0 < i → lo ≤ parent i → i ≠ hole → parent i ≠ hole → l[parent i]? = some x → l[i]? = some y →
    o.lt x y = false
  across : ∀ c x y, lo < hole → IsChild c hole → l[parent hole]? = some x → l[c]? = some y → o.lt x y = false
  overHole : ∀ x, lo < hole → l[parent hole]? = some x → o.lt x value = false
  inside : hole = lo ∨ lo ≤ parent hole ∧ 0 < hole

theorem Sinking.lo_le (h : Sinking o lo l hole value) : lo ≤ hole := by
  rcases h.inside with rfl | ⟨hle, hpos⟩
  · exact le_rfl
  · exact hle.trans (isChild_parent hpos).lt.le

theorem Sinking.step (h : Sinking o lo l hole value) (hlt : hole < l.length) {c : α}
    (hc : l[greaterChild o.lt l hole]? = some c) (hless : o.lt value c = true) :
    Sinking o lo (l.set hole c) (greaterChild o.lt l hole) value := by
  obtain ⟨hchild, hgreatest⟩ := greaterChild_spec (o := o) l hole
  have hgt := hchild.lt
  have hle := h.lo_le
  generalize greaterChild o.lt l hole = g at hc hchild hgreatest hgt ⊢
  refine ⟨?_, ?_, ?_, .inr ⟨by rw [hchild.2]; exact hle, hchild.1⟩⟩
  · intro i x y hi hlo hig hpg hx hy
    by_cases hih : i = hole
    · -- The greater child has come to the hole, below the old parent of the hole.
      subst hih
      rw [getElem?_set_self hlt] at hy
      rw [getElem?_set_other (isChild_parent hi).lt.ne] at hx
      have hlo' : lo < i := lt_of_le_of_lt hlo (isChild_parent hi).lt
      exact Option.some.inj hy ▸ h.across g x c hlo' hchild hx hc
    · rw [getElem?_set_other hih] at hy
      by_cases hpi : parent i = hole
      · rw [hpi, getElem?_set_self hlt] at hx
        exact Option.some.inj hx ▸ hgreatest i c y ⟨hi, hpi⟩ hc hy
      · rw [getElem?_set_other hpi] at hx
        exact h.elsewhere i x y hi hlo hih hpi hx hy
  · intro d x y _ hd hx hy
    rw [hchild.2, getElem?_set_self hlt] at hx
    have hdg := hd.lt
    rw [getElem?_set_other (by omega)] at hy
    have hup : parent d = g := hd.2
    have hside := h.elsewhere d c y hd.1 (by omega) (by omega) (by omega) (by rw [hup]; exact hc) hy
    exact Option.some.inj hx ▸ hside
  · intro x _ hx
    rw [hchild.2, getElem?_set_self hlt] at hx
    exact Option.some.inj hx ▸ o.asymm hless

theorem Sinking.close (h : Sinking o lo l hole value) (hlt : hole < l.length)
    (hstop : ∀ c y, IsChild c hole → l[c]? = some y → o.lt value y = false) : HeapFrom o.lt lo (l.set hole value) := by
  intro i x y hi hlo hx hy
  by_cases hih : i = hole
  · subst hih
    rw [getElem?_set_self hlt] at hy
    rw [getElem?_set_other (isChild_parent hi).lt.ne] at hx
    exact Option.some.inj hy ▸ h.overHole x (lt_of_le_of_lt hlo (isChild_parent hi).lt) hx
  · rw [getElem?_set_other hih] at hy
    by_cases hpi : parent i = hole
    · rw [hpi, getElem?_set_self hlt] at hx
      exact Option.some.inj hx ▸ hstop i y ⟨hi, hpi⟩ hy
    · rw [getElem?_set_other hpi] at hx
      exact h.elsewhere i x y hi hlo hih hpi hx hy

theorem siftDown_spec (h : Sinking o lo l hole value) (hlt : hole < l.length) (hn : l.length ≤ n + hole) :
    let r := siftDown o.lt value n hole l
    Sinking o lo r.2 r.1 value ∧ r.1 < r.2.length ∧ HeapFrom o.lt lo (r.2.set r.1 value) ∧
      (r.2.set r.1 value).Perm (l.set hole value) := by
  induction n generalizing hole l with
  | zero => omega
  | succ n ih =>
      unfold siftDown
      obtain ⟨hchild, hgreatest⟩ := greaterChild_spec (o := o) l hole
      cases hc : l[greaterChild o.lt l hole]? with
      | none =>
          refine ⟨h, hlt, h.close hlt fun d y hd hy => ?_, .refl _⟩
          exact (Option.some_ne_none y (hy.symm.trans (greaterChild_none hc hd))).elim
      | some c =>
          dsimp only
          split
          · next hless =>
            have hgt := hchild.lt
            obtain ⟨hglt, -⟩ := List.getElem?_eq_some_iff.mp hc
            obtain ⟨h1, h2, h3, h4⟩ := ih (h.step hlt hc hless) (by rw [List.length_set]; exact hglt)
              (by rw [List.length_set]; omega)
            exact ⟨h1, h2, h3, h4.trans (set_move_perm hlt hgt.ne hc value)⟩
          · next hstop =>
            refine ⟨h, hlt, h.close hlt fun d y hd hy => ?_, .refl _⟩
            exact o.ge_trans (hgreatest d c y hd hc hy) (Bool.eq_false_iff.mpr hstop)

/-! ### The operations -/

/-- The value that `siftDown` leaves behind does not rise again. -/
theorem siftUp_stop (h : Sinking o lo l hole value) : siftUp o.lt value lo n hole l = l.set hole value := by
  cases n with
  | zero => rfl
  | succ n =>
      unfold siftUp
      cases hp : l[parent hole]? with
      | none => rfl
      | some p =>
          refine if_neg ?_
          rintro ⟨hlo, hless⟩
          rw [h.overHole p hlo hp] at hless
          cases hless

/-- `adjust_heap` puts the subtree of one position in order, if those behind it are. -/
theorem adjustHeap_spec (h : HeapFrom o.lt (lo + 1) l) (hlt : lo < l.length) (value : α) :
    HeapFrom o.lt lo (adjustHeap o.lt l lo value) ∧ (adjustHeap o.lt l lo value).Perm (l.set lo value) := by
  have hstart : Sinking o lo l lo value :=
    ⟨fun i x y hi hlo _ hp hx hy => h i x y hi (by omega) hx hy, fun _ _ _ hlo => absurd hlo (lt_irrefl _),
      fun _ hlo => absurd hlo (lt_irrefl _), .inl rfl⟩
  obtain ⟨h1, -, h3, h4⟩ := siftDown_spec hstart hlt (Nat.le_add_right _ _)
  unfold adjustHeap pushHeapAux
  rw [siftUp_stop h1]
  exact ⟨h3, h4⟩

theorem isHeap_nil : IsHeap o.lt ([] : List α) := by
  intro i x y _ _ _ hy
  cases hy

theorem pushHeap_spec (h : IsHeap o.lt l) (value : α) :
    IsHeap o.lt (pushHeap o.lt (l ++ [value])) ∧ (pushHeap o.lt (l ++ [value])).Perm (l ++ [value]) := by
  unfold pushHeap
  rw [List.getLast?_append]
  simp only [List.getLast?_singleton, Option.some_or, List.length_append, List.length_singleton, Nat.add_sub_cancel]
  split
  · next hlen =>
    obtain rfl : l = [] := List.length_eq_zero_iff.mp (by omega)
    refine ⟨fun i x y hi _ _ hy => ?_, .refl _⟩
    have hlen := (List.getElem?_eq_some_iff.mp hy).1
    rw [List.nil_append, List.length_singleton] at hlen
    omega
  · have hback {i : ℕ} (hne : i ≠ l.length) (y : α) (hy : (l ++ [value])[i]? = some y) : l[i]? = some y := by
      have hlt : i < l.length := by
        have := (List.getElem?_eq_some_iff.mp hy).1
        rw [List.length_append, List.length_singleton] at this
        omega
      rwa [List.getElem?_append_left hlt] at hy
    have hrise : Rising o (l ++ [value]) l.length value := by
      have hchild {c : ℕ} (hc : IsChild c l.length) : (l ++ [value])[c]? = none := by
        have := hc.lt
        rw [List.getElem?_eq_none_iff, List.length_append, List.length_singleton]
        omega
      refine ⟨fun i x y hi hne hp hx hy => h i x y hi (Nat.zero_le _) (hback hp x hx) (hback hne y hy), ?_, ?_⟩
      · intro c x y _ hc _ hy
        exact (Option.some_ne_none y (hy.symm.trans (hchild hc))).elim
      · intro c y hc hy
        exact (Option.some_ne_none y (hy.symm.trans (hchild hc))).elim
    obtain ⟨h1, h2⟩ := siftUp_spec hrise (by simp) le_rfl
    refine ⟨h1, h2.trans ?_⟩
    rw [List.set_append_right _ _ le_rfl, Nat.sub_self]
    exact .refl _

/-- The front of a heap is a greatest element. -/
theorem IsHeap.front {first y : α} (h : IsHeap o.lt (first :: l)) (hy : y ∈ first :: l) : o.lt first y = false := by
  obtain ⟨i, hi⟩ := List.mem_iff_getElem?.mp hy
  induction i using Nat.strongRecOn generalizing y with
  | _ i ih =>
      rcases Nat.eq_zero_or_pos i with rfl | hpos
      · obtain rfl : first = y := Option.some.inj hi
        exact o.irrefl _
      · have hlt := (isChild_parent hpos).lt
        have hlen := (List.getElem?_eq_some_iff.mp hi).1
        have hp := List.getElem?_eq_getElem (hlt.trans hlen)
        have hup := ih _ hlt (List.getElem_mem (hlt.trans hlen)) hp
        exact o.ge_trans (h i _ y hpos (Nat.zero_le _) hp hi) hup

theorem HeapFrom.dropLast {lo : ℕ} (h : HeapFrom o.lt lo l) : HeapFrom o.lt lo l.dropLast := by
  have hsub {i : ℕ} {x : α} (hx : l.dropLast[i]? = some x) : l[i]? = some x := by
    rw [List.getElem?_dropLast] at hx
    split at hx
    · exact hx
    · cases hx
  intro i x y hi hlo hx hy
  exact h i x y hi hlo (hsub hx) (hsub hy)

/-- `pop_heap` moves the front to the end and leaves a heap of the others. -/
theorem popHeap_spec {first : α} (h : IsHeap o.lt (first :: l)) :
    ∃ rest, popHeap o.lt (first :: l) = rest ++ [first] ∧ IsHeap o.lt rest ∧ rest.Perm l := by
  cases l with
  | nil => exact ⟨[], rfl, isHeap_nil, .refl _⟩
  | cons second l =>
      obtain ⟨last, hlast⟩ : ∃ last, (first :: second :: l).getLast? = some last :=
        ⟨_, List.getLast?_eq_some_getLast (List.cons_ne_nil _ _)⟩
      unfold popHeap
      rw [hlast]
      have hinit : (first :: second :: l).dropLast = first :: (second :: l).dropLast := rfl
      have hfrom : HeapFrom o.lt (0 + 1) (first :: second :: l).dropLast :=
        HeapFrom.dropLast fun i x y hi _ hx hy => h i x y hi (Nat.zero_le _) hx hy
      obtain ⟨h1, h2⟩ := adjustHeap_spec hfrom (by rw [hinit]; exact Nat.succ_pos _) last
      refine ⟨_, rfl, h1, h2.trans ?_⟩
      have hlast' : (second :: l).getLast? = some last := by
        rwa [List.getLast?_cons_cons] at hlast
      have hsplit : second :: l = (second :: l).dropLast ++ [last] :=
        (List.dropLast_append_getLast? last (Option.mem_def.mpr hlast')).symm
      rw [hinit, List.set_cons_zero]
      conv => rhs; rw [hsplit]
      exact (List.perm_append_singleton last _).symm

theorem makeHeapLoop_spec {n : ℕ} (h : HeapFrom o.lt n l) (hn : n ≤ l.length) :
    IsHeap o.lt (makeHeapLoop o.lt n l) ∧ (makeHeapLoop o.lt n l).Perm l := by
  induction n generalizing l with
  | zero => exact ⟨h, .refl _⟩
  | succ n ih =>
      have hlt : n < l.length := by omega
      have hget := List.getElem?_eq_getElem hlt
      unfold makeHeapLoop
      rw [hget]
      obtain ⟨h1, h2⟩ := adjustHeap_spec h hlt l[n]
      rw [List.set_getElem_self] at h2
      obtain ⟨h3, h4⟩ := ih h1 (by rw [h2.length_eq]; omega)
      exact ⟨h3, h4.trans h2⟩

theorem makeHeap_spec (l : List α) : IsHeap o.lt (makeHeap o.lt l) ∧ (makeHeap o.lt l).Perm l := by
  unfold makeHeap
  split
  · next hlen =>
    refine ⟨fun i x y hi _ _ hy => ?_, .refl _⟩
    rw [List.getElem?_eq_none (by omega)] at hy
    cases hy
  · refine makeHeapLoop_spec (fun i x y hi hlo hx hy => ?_) (by omega)
    have hlt := (List.getElem?_eq_some_iff.mp hy).1
    unfold parent at hlo
    omega

end NeForce.BinaryHeap
