import Mathlib.Data.List.Induction
import Mathlib.Data.Nat.Log
import NeForce.HeapSort

/-! # `sort`

Partitions down to blocks of at most 16 elements, or a heap when the partitions are too deep, and in the end one insertion
for every element.  The insertions behind the first 16 elements do not look for the front of the range: a read before it
is `none` here, and the least element, which is among the first 16 (`introSortDispatch_spec`), is what stops them before
it. -/

namespace NeForce.IntroSort

open BinaryHeap
open scoped List

variable {α : Type}

section

variable (lt : α → α → Bool)

/-- `MEMORY_ALIGN_THRESHHOLD`. -/
def memoryAlignThreshhold : ℕ := 16

/-! ### Partitions -/

def iterSwap (l : List α) (i j : ℕ) : List α :=
  match l[i]?, l[j]? with
  | some x, some y => (l.set i y).set j x
  | _, _ => l

/-- `median_iter`. -/
def medianIter (l : List α) (a b c : ℕ) : ℕ :=
  match l[a]?, l[b]?, l[c]? with
  | some x, some y, some z =>
      if lt x y then (if lt y z then b else if lt x z then c else a)
      else (if lt x z then a else if lt y z then c else b)
  | _, _, _ => a

/-- The loop of `lomuto_partition`, which has `n` elements to go. -/
def lomutoLoop (pivot : α) : ℕ → ℕ → ℕ → List α → List α × ℕ
  | 0, _, j, l => (l, j)
  | n + 1, i, j, l =>
      match l[i]? with
      | some x =>
          if lt x pivot then lomutoLoop pivot n (i + 1) (j + 1) (if i ≠ j + 1 then iterSwap l i (j + 1) else l)
          else lomutoLoop pivot n (i + 1) j l
      | none => (l, j)

/-- `lomuto_partition`: the range, and the position of the pivot in it. -/
def lomutoPartition (l : List α) : List α × ℕ :=
  if l.length < 2 then (l, 0)
  else
    let l := iterSwap l 0 (medianIter lt l 0 (l.length / 2) (l.length - 1))
    match l with
    | pivot :: _ =>
        let r := lomutoLoop lt pivot (l.length - 1) 1 0 l
        (iterSwap r.1 0 r.2, r.2)
    | [] => (l, 0)

/-- `__intro_sort_dispatch`.  The shorter part is left to a call of its own and the other to the next turn of the loop;
they are disjoint, and both go on with the same limit. -/
def introSortDispatch : ℕ → List α → List α
  | 0, l => if memoryAlignThreshhold < l.length then partialSort lt l.length l else l
  | depth + 1, l =>
      if memoryAlignThreshhold < l.length then
        let r := lomutoPartition lt l
        introSortDispatch depth (r.1.take r.2) ++ r.1[r.2]?.toList ++ introSortDispatch depth (r.1.drop (r.2 + 1))
      else l

/-- `__log2_int` of a number of 32 bits; it is 0 below 1. -/
def log2Int (x : ℤ) : ℕ := Nat.log 2 x.toNat

/-! ### Insertions -/

/-- `__insertion_sort_aux` with the hole at a position; it fails when it reads before the first one. -/
def insertionSortAux (value : α) : ℕ → List α → Option (List α)
  | 0, _ => none
  | hole + 1, l =>
      match l[hole]? with
      | some next =>
          if lt value next then insertionSortAux value hole (l.set (hole + 1) next) else some (l.set (hole + 1) value)
      | none => none

/-- The loop of `insertion_sort`, with `n` elements to go; `copy_backward` moves those before `i`. -/
def insertionLoop : ℕ → ℕ → List α → Option (List α)
  | 0, _, l => some l
  | n + 1, i, l =>
      match l[i]?, l.head? with
      | some value, some first =>
          if lt value first then insertionLoop n (i + 1) (value :: (l.take i ++ l.drop (i + 1)))
          else (insertionSortAux lt value i l).bind (insertionLoop n (i + 1))
      | _, _ => none

def insertionSort (l : List α) : Option (List α) := if l = [] then some l else insertionLoop lt (l.length - 1) 1 l

/-- The loop of `sort` behind the first 16 elements. -/
def unguardedLoop : ℕ → ℕ → List α → Option (List α)
  | 0, _, l => some l
  | n + 1, i, l =>
      match l[i]? with
      | some value => (insertionSortAux lt value i l).bind (unguardedLoop n (i + 1))
      | none => none

/-- The limit of `sort`; the length is an `int` there. -/
def depthLimit (length : ℕ) : ℕ := log2Int (BitVec.ofNat 32 length).toInt * 2

def sort (l : List α) : Option (List α) :=
  if l = [] then some l
  else
    let l := introSortDispatch lt (depthLimit l.length) l
    if memoryAlignThreshhold < l.length then
      (insertionSort lt (l.take memoryAlignThreshhold)).bind fun s =>
        unguardedLoop lt (l.length - memoryAlignThreshhold) memoryAlignThreshhold (s ++ l.drop memoryAlignThreshhold)
    else insertionSort lt l

end

/-! ### The partition -/

variable {o : StrictWeakOrder α} {l s t : List α} {pivot value : α}

theorem iterSwap_comm (l : List α) (i j : ℕ) : iterSwap l i j = iterSwap l j i := by
  unfold iterSwap
  cases hx : l[i]? with
  | none => cases l[j]? <;> rfl
  | some x =>
      cases hy : l[j]? with
      | none => rfl
      | some y =>
          dsimp only
          by_cases hij : i = j
          · subst hij
            rw [hx] at hy
            cases hy
            rfl
          · exact List.set_comm _ _ hij

theorem iterSwap_mid (a b c : List α) (x y : α) :
    iterSwap (a ++ x :: (b ++ y :: c)) a.length (a.length + 1 + b.length) = a ++ y :: (b ++ x :: c) := by
  have hx : (a ++ x :: (b ++ y :: c))[a.length]? = some x := by simp
  have hy : (a ++ x :: (b ++ y :: c))[a.length + 1 + b.length]? = some y := by
    rw [List.getElem?_append_right (by omega), show a.length + 1 + b.length - a.length = b.length + 1 by omega]
    simp
  unfold iterSwap
  rw [hx, hy]
  dsimp only
  rw [List.set_append_right _ _ le_rfl, Nat.sub_self, List.set_cons_zero, List.set_append_right _ _ (by omega),
    show a.length + 1 + b.length - a.length = b.length + 1 by omega, List.set_cons_succ,
    List.set_append_right _ _ le_rfl, Nat.sub_self, List.set_cons_zero]

theorem iterSwap_self (l : List α) (i : ℕ) : iterSwap l i i = l := by
  unfold iterSwap
  split
  · next x y hx hy =>
    rw [hx] at hy
    cases hy
    obtain ⟨hi, rfl⟩ := List.getElem?_eq_some_iff.mp hx
    rw [List.set_set, List.set_getElem_self hi]
  · rfl

theorem iterSwap_perm (l : List α) (i j : ℕ) : (iterSwap l i j).Perm l := by
  unfold iterSwap
  split
  · next x y hx hy =>
    obtain ⟨hi, rfl⟩ := List.getElem?_eq_some_iff.mp hx
    obtain ⟨hj, rfl⟩ := List.getElem?_eq_some_iff.mp hy
    exact List.set_set_perm hi hj
  · exact .refl _

/-- The elements behind the pivot are less up to `j` and not less up to `i`. -/
theorem lomutoLoop_spec {low high rest : List α} (hlow : ∀ x ∈ low, o.lt x pivot = true)
    (hhigh : ∀ x ∈ high, o.lt x pivot = false) :
    ∃ low' high', lomutoLoop o.lt pivot rest.length (1 + low.length + high.length) low.length
        (pivot :: (low ++ (high ++ rest))) = (pivot :: (low' ++ high'), low'.length) ∧
      (low' ++ high').Perm (low ++ (high ++ rest)) ∧ (∀ x ∈ low', o.lt x pivot = true) ∧
      ∀ x ∈ high', o.lt x pivot = false := by
  induction rest generalizing low high with
  | nil => exact ⟨low, high, by simp [lomutoLoop], by simp, hlow, hhigh⟩
  | cons x rest ih =>
      have hget : (pivot :: (low ++ (high ++ x :: rest)))[1 + low.length + high.length]? = some x := by
        rw [show 1 + low.length + high.length = low.length + high.length + 1 by omega, List.getElem?_cons_succ,
          ← List.append_assoc, List.getElem?_append_right (by simp), List.length_append, Nat.sub_self]
        rfl
      have hlow' (hless : o.lt x pivot = true) : ∀ y ∈ low ++ [x], o.lt y pivot = true := by
        intro y hy
        obtain hy | hy := List.mem_append.mp hy
        · exact hlow y hy
        · exact List.mem_singleton.mp hy ▸ hless
      rw [List.length_cons, lomutoLoop, hget]
      dsimp only
      split
      · next hless =>
        cases high with
        | nil =>
            obtain ⟨low', high', h1, h2, h3, h4⟩ := @ih (low ++ [x]) [] (hlow' hless) nofun
            refine ⟨low', high', ?_, h2.trans (by simp), h3, h4⟩
            rw [if_neg (by simp [Nat.add_comm])]
            simpa [Nat.add_comm, Nat.add_left_comm, Nat.add_assoc] using h1
        | cons h high =>
            -- The first of the elements that are not less goes to the end of them.
            obtain ⟨low', high', h1, h2, h3, h4⟩ := @ih (low ++ [x]) (high ++ [h]) (hlow' hless) fun y hy => by
              obtain hy | hy := List.mem_append.mp hy
              · exact hhigh y (List.mem_cons_of_mem _ hy)
              · exact List.mem_singleton.mp hy ▸ hhigh h List.mem_cons_self
            have hswap : iterSwap (pivot :: (low ++ (h :: high ++ x :: rest))) (1 + low.length + (h :: high).length)
                (low.length + 1) = pivot :: (low ++ [x] ++ (high ++ [h] ++ rest)) := by
              have hmid := iterSwap_mid (pivot :: low) high rest h x
              rw [iterSwap_comm, List.length_cons] at hmid
              simpa [Nat.add_comm, Nat.add_left_comm, Nat.add_assoc] using hmid
            refine ⟨low', high', ?_, h2.trans ?_, h3, h4⟩
            · rw [if_pos (by simp; omega), hswap]
              simpa [Nat.add_comm, Nat.add_left_comm, Nat.add_assoc] using h1
            · calc
                _ ~ low ++ ([x] ++ (high ++ [h]) ++ rest) := by simp
                _ ~ low ++ (([h] ++ high) ++ [x] ++ rest) :=
                  ((List.perm_append_comm.trans (List.perm_append_comm.append_right [x])).append_right rest).append_left low
                _ ~ _ := by simp
      · next hless =>
        obtain ⟨low', high', h1, h2, h3, h4⟩ := @ih low (high ++ [x]) hlow fun y hy => by
          obtain hy | hy := List.mem_append.mp hy
          · exact hhigh y hy
          · exact List.mem_singleton.mp hy ▸ Bool.eq_false_iff.mpr hless
        refine ⟨low', high', ?_, h2.trans (by simp), h3, h4⟩
        simpa [Nat.add_comm, Nat.add_left_comm, Nat.add_assoc] using h1

theorem lomutoPartition_spec (hl : 2 ≤ l.length) :
    ∃ low pivot high, lomutoPartition o.lt l = (low ++ pivot :: high, low.length) ∧ (low ++ pivot :: high).Perm l ∧
      (∀ x ∈ low, o.lt x pivot = true) ∧ ∀ x ∈ high, o.lt x pivot = false := by
  have hperm := iterSwap_perm l 0 (medianIter o.lt l 0 (l.length / 2) (l.length - 1))
  unfold lomutoPartition
  rw [if_neg (by omega)]
  generalize iterSwap l 0 (medianIter o.lt l 0 (l.length / 2) (l.length - 1)) = l' at hperm ⊢
  cases l' with
  | nil =>
      rw [← hperm.length_eq] at hl
      cases hl
  | cons pivot rest =>
      obtain ⟨low, high, h1, h2, h3, h4⟩ := @lomutoLoop_spec α o pivot [] [] rest nofun nofun
      have hloop : lomutoLoop o.lt pivot ((pivot :: rest).length - 1) 1 0 (pivot :: rest) = _ := h1
      dsimp only
      rw [hloop]
      dsimp only
      obtain rfl | ⟨low', y, rfl⟩ := low.eq_nil_or_concat
      · exact ⟨[], pivot, high, by rw [List.length_nil, iterSwap_self]; rfl, (h2.cons pivot).trans hperm, h3, h4⟩
      · refine ⟨y :: low', pivot, high, ?_, ?_, ?_, h4⟩
        · have hmid := iterSwap_mid [] low' high pivot y
          simp only [List.nil_append, List.length_nil, Nat.zero_add] at hmid
          simp only [List.concat_eq_append, List.append_assoc, List.cons_append, List.nil_append, List.length_append,
            List.length_cons, List.length_nil]
          rw [Nat.add_comm low'.length, hmid]
        · calc
            _ ~ pivot :: (y :: low' ++ high) := List.perm_middle
            _ ~ pivot :: (low'.concat y ++ high) := by
              rw [List.concat_eq_append]
              exact (((List.perm_append_singleton y low').symm).append_right high).cons pivot
            _ ~ l := (h2.cons pivot).trans hperm
        · intro x hx
          apply h3
          simpa [or_comm] using hx

/-! ### The least element -/

/-- One of the first 16 elements is a least one. -/
def LeastInFront (o : StrictWeakOrder α) (l : List α) : Prop :=
  ∃ x ∈ l.take memoryAlignThreshhold, Below o [x] l

theorem exists_least (hl : l ≠ []) : ∃ x ∈ l, Below o [x] l := by
  induction l with
  | nil => exact absurd rfl hl
  | cons x l ih =>
      by_cases hnil : l = []
      · subst hnil
        exact ⟨x, List.mem_cons_self, by simp [Below, o.irrefl]⟩
      · obtain ⟨y, hy, hle⟩ := ih hnil
        have hle : ∀ z ∈ l, o.lt z y = false := fun z hz => hle y List.mem_cons_self z hz
        unfold Below
        cases hxy : o.lt x y with
        | true =>
            refine ⟨x, List.mem_cons_self, fun a ha z hz => ?_⟩
            obtain rfl := List.mem_singleton.mp ha
            obtain rfl | hz := List.mem_cons.mp hz
            · exact o.irrefl _
            · exact o.ge_trans (o.asymm hxy) (hle z hz)
        | false =>
            refine ⟨y, List.mem_cons_of_mem _ hy, fun a ha z hz => ?_⟩
            obtain rfl := List.mem_singleton.mp ha
            obtain rfl | hz := List.mem_cons.mp hz
            · exact hxy
            · exact hle z hz

/-- **The dispatch loop leaves a least element among the first 16.** -/
theorem introSortDispatch_spec (depth : ℕ) (l : List α) :
    (introSortDispatch o.lt depth l).Perm l ∧ (l ≠ [] → LeastInFront o (introSortDispatch o.lt depth l)) := by
  have hshort {l : List α} (hlen : ¬ memoryAlignThreshhold < l.length) (hne : l ≠ []) : LeastInFront o l := by
    obtain ⟨x, hx, hle⟩ := @exists_least _ o l hne
    exact ⟨x, by rwa [List.take_of_length_le (not_lt.mp hlen)], hle⟩
  induction depth generalizing l with
  | zero =>
      unfold introSortDispatch
      split
      · obtain ⟨s, t, h1, h2, h3, h4, -⟩ := @partialSort_spec _ o l _ le_rfl
        have ht : t = [] := by
          have hlen := h3.length_eq
          rw [List.length_append, h2] at hlen
          exact List.length_eq_zero_iff.mp (by omega)
        subst ht
        rw [List.append_nil] at h1 h3
        rw [h1]
        refine ⟨h3, fun hne => ?_⟩
        cases s with
        | nil => exact absurd h3.nil_eq.symm hne
        | cons first s =>
            refine ⟨first, List.mem_cons_self, fun a ha z hz => ?_⟩
            obtain rfl := List.mem_singleton.mp ha
            obtain rfl | hz := List.mem_cons.mp hz
            · exact o.irrefl _
            · exact List.rel_of_pairwise_cons h4 hz
      · next hlen => exact ⟨.refl _, hshort hlen⟩
  | succ depth ih =>
      unfold introSortDispatch
      split
      · next hlen =>
        unfold memoryAlignThreshhold at hlen
        obtain ⟨low, pivot, high, h1, h2, h3, h4⟩ := @lomutoPartition_spec _ o l (by omega)
        have hget : (low ++ pivot :: high)[low.length]? = some pivot := by simp
        rw [h1]
        dsimp only
        rw [List.take_left, hget, Option.toList_some, ← List.drop_drop, List.drop_left, List.drop_one, List.tail_cons,
          List.append_assoc, List.singleton_append]
        obtain ⟨i1, i2⟩ := ih low
        obtain ⟨j1, -⟩ := ih high
        have hperm := i1.append (j1.cons pivot)
        refine ⟨hperm.trans h2, fun _ => ?_⟩
        -- The pivot is a least element, or one that is least before it.
        by_cases hnil : low = []
        · subst hnil
          rw [i1.eq_nil, List.nil_append] at hperm ⊢
          refine ⟨pivot, List.mem_cons_self, fun a ha z hz => ?_⟩
          obtain rfl := List.mem_singleton.mp ha
          obtain rfl | hz := List.mem_cons.mp hz
          · exact o.irrefl _
          · exact h4 z (j1.mem_iff.mp hz)
        · obtain ⟨x, hx, hle⟩ := i2 hnil
          have hxlow : o.lt x pivot = true := h3 x (i1.mem_iff.mp (List.mem_of_mem_take hx))
          refine ⟨x, ?_, fun a ha z hz => ?_⟩
          · rw [List.take_append]
            exact List.mem_append_left _ hx
          · obtain rfl := List.mem_singleton.mp ha
            obtain hz | hz := List.mem_append.mp hz
            · exact hle a List.mem_cons_self z hz
            · obtain rfl | hz := List.mem_cons.mp hz
              · exact o.asymm hxlow
              · exact o.ge_trans (o.asymm hxlow) (h4 z (j1.mem_iff.mp hz))
      · next hlen => exact ⟨.refl _, hshort hlen⟩

/-! ### Insertion -/

/-- The elements before the hole are in order, and the first one is not greater than the value. -/
theorem insertionSortAux_spec {first x : α} (hs : Ascending o (first :: s)) (hv : o.lt value first = false) :
    ∃ r, insertionSortAux o.lt value (first :: s).length (first :: s ++ x :: t) = some (r ++ t) ∧
      r.Perm (value :: first :: s) ∧ Ascending o r := by
  induction s using List.reverseRecOn generalizing x t with
  | nil =>
      refine ⟨[first, value], ?_, .swap .., by simpa [Ascending] using hv⟩
      simp [insertionSortAux, hv]
  | append_singleton s y ih =>
      have hget : (first :: (s ++ [y]) ++ x :: t)[(first :: s).length]? = some y := by simp
      have hset (z : α) : (first :: (s ++ [y]) ++ x :: t).set ((first :: s).length + 1) z = first :: (s ++ [y]) ++ z :: t := by
        have hlen : (first :: s).length + 1 = (first :: (s ++ [y])).length := by simp
        rw [hlen, List.set_append_right _ _ le_rfl, Nat.sub_self, List.set_cons_zero]
      obtain ⟨hs', -, hy⟩ := ascending_append.mp (show Ascending o (first :: s ++ [y]) from hs)
      rw [show (first :: (s ++ [y])).length = (first :: s).length + 1 by simp, insertionSortAux, hget]
      dsimp only
      rw [hset, hset]
      split
      · next hless =>
        obtain ⟨r, h1, h2, h3⟩ := @ih (y :: t) y hs'
        have happ : first :: (s ++ [y]) ++ y :: t = first :: s ++ y :: y :: t := by simp
        refine ⟨r ++ [y], by rw [happ, h1, List.append_assoc, List.singleton_append], ?_, ?_⟩
        · exact (h2.append_right [y]).trans (by simp)
        · refine ascending_append.mpr ⟨h3, List.pairwise_singleton .., below_singleton.mpr fun z hz => ?_⟩
          obtain rfl | hz := List.mem_cons.mp (h2.mem_iff.mp hz)
          · exact o.asymm hless
          · exact below_singleton.mp hy z hz
      · next hless =>
        have hvy : o.lt value y = false := Bool.eq_false_iff.mpr hless
        refine ⟨first :: (s ++ [y]) ++ [value], by simp, List.perm_append_singleton .., ?_⟩
        refine ascending_append.mpr ⟨hs, List.pairwise_singleton .., below_singleton.mpr fun z hz => ?_⟩
        obtain hz | hz := List.mem_append.mp (show z ∈ first :: s ++ [y] from hz)
        · exact o.ge_trans (below_singleton.mp hy z hz) hvy
        · exact List.mem_singleton.mp hz ▸ hvy

theorem insertionLoop_spec (hs : Ascending o s) (hne : s ≠ []) :
    ∃ r, insertionLoop o.lt t.length s.length (s ++ t) = some r ∧ r.Perm (s ++ t) ∧ Ascending o r := by
  induction t generalizing s with
  | nil => exact ⟨s, by simp [insertionLoop], by simp, hs⟩
  | cons value t ih =>
      cases s with
      | nil => exact absurd rfl hne
      | cons first s =>
          have hget : (first :: s ++ value :: t)[(first :: s).length]? = some value := by simp
          rw [List.length_cons, insertionLoop, hget]
          dsimp only [List.cons_append, List.head?_cons]
          split
          · next hless =>
            have hs' : Ascending o (value :: first :: s) := by
              refine List.pairwise_cons.mpr ⟨fun z hz => ?_, hs⟩
              obtain rfl | hz := List.mem_cons.mp hz
              · exact o.asymm hless
              · exact o.ge_trans (o.asymm hless) (List.rel_of_pairwise_cons hs hz)
            obtain ⟨r, h1, h2, h3⟩ := ih hs' (List.cons_ne_nil _ _)
            refine ⟨r, ?_, h2.trans List.perm_middle.symm, h3⟩
            rw [← h1]
            congr 1
            simp
          · next hless =>
            obtain ⟨r, h1, h2, h3⟩ := @insertionSortAux_spec _ o s t value first value hs (Bool.eq_false_iff.mpr hless)
            have hlen : r.length = (first :: s).length + 1 := h2.length_eq
            have hr : r ≠ [] := fun hnil => by
              rw [hnil] at hlen
              cases hlen
            obtain ⟨r', h4, h5, h6⟩ := ih h3 hr
            rw [List.cons_append] at h1
            rw [h1, Option.bind_some, ← hlen, h4]
            exact ⟨r', rfl, h5.trans ((h2.append_right t).trans List.perm_middle.symm), h6⟩

/-- An element that is in order already, and not greater than any that comes, stops the insertions. -/
theorem unguardedLoop_spec {least : α} (hs : Ascending o s) (hmem : least ∈ s) (hle : Below o [least] t) :
    ∃ r, unguardedLoop o.lt t.length s.length (s ++ t) = some r ∧ r.Perm (s ++ t) ∧ Ascending o r := by
  induction t generalizing s with
  | nil => exact ⟨s, by simp [unguardedLoop], by simp, hs⟩
  | cons value t ih =>
      have hget : (s ++ value :: t)[s.length]? = some value := by simp
      rw [List.length_cons, unguardedLoop, hget]
      dsimp only
      cases s with
      | nil => cases hmem
      | cons first s =>
          have hfirst : o.lt least first = false := by
            obtain rfl | hmem := List.mem_cons.mp hmem
            · exact o.irrefl _
            · exact List.rel_of_pairwise_cons hs hmem
          have hvalue : o.lt value first = false :=
            o.ge_trans hfirst (hle least List.mem_cons_self value List.mem_cons_self)
          obtain ⟨r, h1, h2, h3⟩ := @insertionSortAux_spec _ o s t value first value hs hvalue
          have hlen : r.length = (first :: s).length + 1 := h2.length_eq
          obtain ⟨r', h4, h5, h6⟩ := ih h3 (h2.mem_iff.mpr (List.mem_cons_of_mem _ hmem))
            fun x hx y hy => hle x hx y (List.mem_cons_of_mem _ hy)
          rw [h1, Option.bind_some, ← hlen, h4]
          exact ⟨r', rfl, h5.trans ((h2.append_right t).trans List.perm_middle.symm), h6⟩

theorem insertionSort_spec (l : List α) : ∃ r, insertionSort o.lt l = some r ∧ r.Perm l ∧ Ascending o r := by
  unfold insertionSort
  cases l with
  | nil => exact ⟨[], rfl, .refl _, .nil⟩
  | cons x l => exact @insertionLoop_spec _ o [x] l (List.pairwise_singleton ..) (List.cons_ne_nil _ _)

/-- **`sort` never reads before the first element, and ends with the elements in order.** -/
theorem sort_sorts (o : StrictWeakOrder α) (l : List α) :
    ∃ r, sort o.lt l = some r ∧ r.Perm l ∧ r.Pairwise fun x y => o.lt y x = false := by
  unfold sort
  split
  · next hnil =>
    subst hnil
    exact ⟨[], rfl, .refl _, .nil⟩
  · next hne =>
    obtain ⟨hperm, hleast⟩ := introSortDispatch_spec (o := o) (depthLimit l.length) l
    generalize introSortDispatch o.lt (depthLimit l.length) l = l' at hperm hleast ⊢
    obtain ⟨least, hmem, hle⟩ := hleast hne
    dsimp only
    split
    · next hlen =>
      obtain ⟨s, h1, h2, h3⟩ := insertionSort_spec (o := o) (l'.take memoryAlignThreshhold)
      have hs : s.length = memoryAlignThreshhold := by
        rw [h2.length_eq, List.length_take, min_eq_left hlen.le]
      obtain ⟨r, h4, h5, h6⟩ := @unguardedLoop_spec _ o s (l'.drop memoryAlignThreshhold) least h3 (h2.mem_iff.mpr hmem)
        fun x hx y hy => hle x hx y (List.mem_of_mem_drop hy)
      rw [List.length_drop, hs] at h4
      rw [h1, Option.bind_some, h4]
      refine ⟨r, rfl, ?_, h6⟩
      calc
        _ ~ s ++ l'.drop memoryAlignThreshhold := h5
        _ ~ l'.take memoryAlignThreshhold ++ l'.drop memoryAlignThreshhold := h2.append_right _
        _ = l' := List.take_append_drop ..
        _ ~ l := hperm
    · obtain ⟨r, h1, h2, h3⟩ := insertionSort_spec (o := o) l'
      exact ⟨r, h1, h2.trans hperm, h3⟩

/-- Seventeen elements, so that the last one is inserted without a guard. -/
example : (sort natOrder.lt ((List.range 17).map fun i => 5 * i % 17)).map (·.take 4) = some [0, 1, 2, 3] := by
  decide

end NeForce.IntroSort
