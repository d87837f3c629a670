import NeForce.FlatRoom
import Mathlib.Order.Interval.Finset.Nat

/-! # Inserting equal keys ends

`emplace_equal` doubles the table and calls itself where the run of keys reaches the end of the arrays.  A home slot is below
2^57, whatever the hash, because only 57 bits of the hash are used for it; and a rehash leaves no deleted slots.  So a run that
reaches the end of large arrays would have more elements than the table (`run_reaches_end`), and the number of calls is
bounded (`emplaceEqual_adds`).  An insertion finds an empty slot where the threshold is not above the capacity, that is, where
no load factor above one was set (`Table.Sound`). -/

namespace NeForce.Flat

variable {K V : Type}

/-! ### Sound tables -/

/-- What holds of tables whose load factor is at most one: the counts are right, those of the deleted slots perhaps too
large, and the threshold is not above the capacity. -/
structure Table.Sound (t : Table V) : Prop where
  wellFormed : t.slots.WellFormed
  size : t.size = t.slots.elements.card
  deleted : t.slots.deletedCount ≤ t.deleted
  threshold : t.growthThreshold ≤ t.slots.capacity
  factor : 0 < t.maxLoadFactor ∧ t.maxLoadFactor ≤ 1

theorem le_slotsFor {lf : ℚ} (hlf : 0 < lf ∧ lf ≤ 1) (n : ℕ) : n ≤ slotsFor n lf :=
  Nat.le_floor (le_div_self n.cast_nonneg hlf.1 hlf.2)

theorem thresholdOf_le {lf : ℚ} (hlf : 0 < lf ∧ lf ≤ 1) (n : ℕ) : thresholdOf n lf ≤ n :=
  Nat.floor_le_of_le (mul_le_of_le_one_right n.cast_nonneg hlf.2)

section

variable {t t' : Table V} {m n : ℕ} {b : Bool}

/-- **A rehash of a sound table succeeds and keeps its elements.** -/
theorem rehash_sound (ht : t.Sound) (k : Keying K V) (m : ℕ) (b : Bool) : ∃ t', t.rehash k m b = .ok t' ∧ t'.Sound ∧
    t'.slots.elements = t.slots.elements ∧
    (t' = t ∧ t.KeepsArrays m b ∨ t'.slots.Ready ∧ t'.slots.Clean ∧ t'.deleted = 0 ∧ ¬ t.KeepsArrays m b ∧
      t'.slots.capacity = nextPowerOf2 (max m (slotsFor t.size t.maxLoadFactor))) := by
  rw [Table.rehash, Table.rehashImpl]
  simp only [Bool.not_eq_true']
  by_cases hkeep : t.KeepsArrays m b
  · refine ⟨t, ?_, ht, rfl, Or.inl ⟨rfl, hkeep⟩⟩
    have hc := hkeep
    rw [Table.KeepsArrays] at hc
    rw [if_pos hc]
  · have hc := hkeep
    rw [Table.KeepsArrays] at hc
    rw [if_neg hc]
    have hlarge : t.size ≤ nextPowerOf2 (max m (slotsFor t.size t.maxLoadFactor)) :=
      ((le_slotsFor ht.factor t.size).trans (le_max_right _ _)).trans (le_nextPowerOf2 _)
    generalize hC : nextPowerOf2 (max m (slotsFor t.size t.maxLoadFactor)) = C at hlarge ⊢
    have hready : (Slots.allocate C : Slots V).Ready := by
      rw [← hC]
      exact allocate_ready _
    have hnone : (Slots.allocate C : Slots V).elements = 0 := Multiset.eq_zero_of_forall_notMem fun v hv => by
      obtain ⟨i, _, h⟩ := Cells.mem_contents.mp hv
      cases h
    have hclean : (Slots.allocate C : Slots V).Clean := fun i _ h => by cases h
    have hrest : (t.slots.rest 0 t.slots.capacity).length = t.size := by
      rw [ht.size, ← rest_all, Multiset.coe_card]
    obtain ⟨old', new', e, h1, h2, h3, h4⟩ := moveAll_done ht.wellFormed (Nat.zero_add _) hready hclean
      (by rw [hnone, hrest, Multiset.card_zero, Nat.zero_add]; exact hlarge) k 0
    rw [rest_all, hnone, Multiset.zero_add] at h4
    rw [e]
    refine ⟨_, rfl, ⟨h1.toWellFormed, ?_, ?_, ?_, ht.factor⟩, h4, Or.inr ⟨h1, h2, rfl, hkeep, h3⟩⟩
    · show t.size = new'.elements.card
      rw [h4]
      exact ht.size
    · exact (deletedCount_clean h2).le
    · show thresholdOf C t.maxLoadFactor ≤ new'.capacity
      rw [h3]
      exact thresholdOf_le ht.factor C

/-- Arrays with an empty slot. -/
def Slots.Open (s : Slots V) : Prop := s.Ready ∧ ∃ j < s.capacity, s.metadata j = htEmpty

/-- A rehash for more slots than there are takes new arrays. -/
theorem not_keepsArrays (hm : t.slots.capacity < m) (b : Bool) : ¬ t.KeepsArrays m b := by
  have hle := (le_max_left m (slotsFor t.size t.maxLoadFactor)).trans (le_nextPowerOf2 _)
  rintro (h | h)
  · omega
  · omega

/-- A rehash for more slots than elements leaves an empty slot. -/
theorem rehash_open (ht : t.Sound) (k : Keying K V) (hkeep : ¬ t.KeepsArrays m b) (hm : t.size < m) (hcm : t.slots.capacity ≤ m) :
    ∃ t', t.rehash k m b = .ok t' ∧ t'.Sound ∧ t'.slots.Open ∧ t'.slots.elements = t.slots.elements ∧
      t.slots.capacity ≤ t'.slots.capacity ∧ (t.slots.Clean → t'.slots.Clean) := by
  obtain ⟨t', e, hs, helem, ⟨_, hk⟩ | ⟨hr, hc, _, _, hcap⟩⟩ := rehash_sound ht k m b
  · exact absurd hk hkeep
  · have hle : m ≤ t'.slots.capacity := by
      rw [hcap]
      exact (le_max_left _ _).trans (le_nextPowerOf2 _)
    refine ⟨t', e, hs, ⟨hr, exists_empty hr.toWellFormed ?_⟩, helem, by omega, fun _ => hc⟩
    rw [deletedCount_clean hc, helem, ← ht.size]
    omega

/-- **After the growth there is an empty slot.** -/
theorem prepare_sound (ht : t.Sound) (k : Keying K V) : ∃ t', t.prepare k = .ok t' ∧ t'.Sound ∧ t'.slots.Open ∧
    t'.slots.elements = t.slots.elements ∧ t.slots.capacity ≤ t'.slots.capacity ∧ (t.slots.Clean → t'.slots.Clean) := by
  rw [Table.prepare]
  split
  · rename_i hg
    rw [Table.growForInsert]
    split
    · have hcap : t.slots.capacity < if t.slots.capacity = 0 then 16 else t.slots.capacity * 2 := by split <;> omega
      have hsize := le_slotsFor ht.factor (t.size + 1)
      generalize (if t.slots.capacity = 0 then 16 else t.slots.capacity * 2) = newCap at hcap ⊢
      have h1 := le_max_left newCap (slotsFor (t.size + 1) t.maxLoadFactor)
      have h2 := le_max_right newCap (slotsFor (t.size + 1) t.maxLoadFactor)
      exact rehash_open ht k (not_keepsArrays (by omega) false) (by omega) (by omega)
    · rename_i hs
      have hpurge : t.needsPurge = true := by
        rw [Bool.or_eq_true] at hg
        exact hg.resolve_left hs
      rw [if_pos hpurge]
      rw [Table.shouldRehash, decide_eq_true_eq] at hs
      have hthr := ht.threshold
      refine rehash_open ht k ?_ (by omega) le_rfl
      rintro (h | ⟨_, h⟩)
      · have := (le_max_left t.slots.capacity (slotsFor t.size t.maxLoadFactor)).trans (le_nextPowerOf2 _)
        omega
      · cases h
  · rename_i hg
    rw [Bool.or_eq_true, not_or, Table.shouldRehash, Table.needsPurge, decide_eq_true_eq, decide_eq_true_eq] at hg
    have hthr := ht.threshold
    have hdel := ht.deleted
    have hsize := ht.size
    refine ⟨t, rfl, ht, ⟨⟨ht.wellFormed, by omega⟩, exists_empty ht.wellFormed ?_⟩, rfl, le_rfl, id⟩
    omega

end

/-! ### A new element -/

/-- A sound table with one element more. -/
structure Table.Adds (t t' : Table V) (v : V) : Prop where
  sound : t'.Sound
  elements : t'.slots.elements = v ::ₘ t.slots.elements

section

variable {t t' : Table V} {s s' : Slots V} {k : Keying K V} {key : K} {i d h h2 n : ℕ} {v : V} {b : Bool}

theorem deletedCount_construct (hi : i < s.capacity) (hh : h2 < 128) :
    (s.construct i v h2).deletedCount = s.deletedCount - if s.metadata i = htDeleted then 1 else 0 := by
  have he : ((Finset.range s.capacity).filter fun x => (s.construct i v h2).metadata x = htDeleted) =
      ((Finset.range s.capacity).filter fun x => s.metadata x = htDeleted).erase i := by
    ext x
    rw [Finset.mem_filter, Finset.mem_erase, Finset.mem_filter, Slots.construct]
    rcases eq_or_ne x i with rfl | hne
    · have hne : h2 ≠ htDeleted := by rw [htDeleted]; omega
      simp [hne]
    · simp [hne]
  rw [Slots.deletedCount, Slots.deletedCount]
  show ((Finset.range s.capacity).filter fun x => (s.construct i v h2).metadata x = htDeleted).card = _
  rw [he, Finset.card_erase_eq_ite]
  simp only [Finset.mem_filter, Finset.mem_range, hi, true_and]
  split <;> rfl

/-- An element in a hole of arrays that are otherwise those of the table. -/
theorem constructAt_adds (ht : t.Sound) (hsame : t.slots.Same s) (hhole : s.Hole i) (hh : h2 < 128) (v : V) :
    t.Adds ({ t with slots := s }.constructAt i h2 v) v := by
  have helem := hhole.construct_elements v h2
  rw [hsame.elements] at helem
  refine ⟨⟨(hhole.toReadyBut.construct hh).toWellFormed, ?_, ?_, ?_, ht.factor⟩, helem⟩
  · show t.size + 1 = (s.construct i v h2).elements.card
    rw [helem, Multiset.card_cons, ht.size]
  · have hle := (deletedCount_le hsame.capacity hsame.deleted).trans ht.deleted
    show (s.construct i v h2).deletedCount ≤ if s.metadata i = htDeleted then t.deleted - 1 else t.deleted
    rw [deletedCount_construct hhole.lt hh]
    split <;> omega
  · show t.growthThreshold ≤ s.capacity
    rw [hsame.capacity]
    exact ht.threshold

theorem constructAt_adds_free (ht : t.Sound) (hr : t.slots.Ready) (hi : i < t.slots.capacity)
    (hm : t.slots.metadata i = htEmpty ∨ t.slots.metadata i = htDeleted) (hh : h2 < 128) (v : V) :
    t.Adds (t.constructAt i h2 v) v := by
  refine constructAt_adds ht (Slots.Same.refl _) (hr.hole hi ?_) hh v
  obtain hm | hm := hm
  · rw [hm]
    rfl
  · rw [hm]
    rfl

/-- An element in front of an element that is moved on. -/
theorem shiftMakeRoom_adds (ht : t.Sound) (ho : t.slots.Open) (hi : i < t.slots.capacity)
    (hm : ¬ (t.slots.metadata i = htEmpty ∨ t.slots.metadata i = htDeleted)) (hh : h2 < 128) (v : V) :
    t.Adds ((t.shiftMakeRoom i).constructAt i h2 v) v := by
  obtain ⟨hr, j, hj, hje⟩ := ho
  have htaken : isTaken (t.slots.metadata i) = true := (hr.byte i hi).resolve_right hm
  have hroom := makeRoom (fun m => m = htEmpty ∨ m = htDeleted) hr ?_ ?_ ?_ hi htaken ⟨j, hj, by simp [hje]⟩
  · exact constructAt_adds ht hroom.2 hroom.1 hh v
  · intro m hm
    rw [decide_eq_false_iff_not]
    rintro (rfl | rfl) <;> cases hm
  · intro m hm
    obtain rfl | rfl := of_decide_eq_true hm <;> rfl
  · intro x _ hx hd
    rw [decide_eq_false_iff_not] at hx
    exact hx (Or.inr hd)

/-! ### The run of equal keys -/

/-- From the home slot `h` up to the end of the arrays there is no empty slot. -/
def Slots.FullTo (s : Slots V) (h : ℕ) : Prop := ∃ e, 0 < e ∧ e < s.capacity ∧ s.around h e = 0 ∧ ∀ c < e, s.metadata (s.around h c) ≠ htEmpty

/-- How the search of `emplace_equal` ends: with the element in the table, or at the end of the arrays. -/
def RunEnds (t : Table V) (h : ℕ) (v : V) (r : Except Fault (Option (Table V × ℕ))) : Prop :=
  (∃ t' idx, r = .ok (some (t', idx)) ∧ t.Adds t' v) ∨ r = .ok none ∧ t.slots.FullTo h

theorem emplaceRun_ends (ht : t.Sound) (ho : t.slots.Open) (hh : h < t.slots.capacity) (k : Keying K V) (v : V)
    (hne : ∀ c ≤ d, t.slots.metadata (t.slots.around h c) ≠ htEmpty) (hn : d + 1 + n = t.slots.capacity) :
    RunEnds t h v (t.emplaceRun k v (hashToH2 (k.mixedHash (k.extracter v))) n (t.slots.around h d)) := by
  induction n generalizing d with
  | zero => exact absurd (fun c hc => hne c (by omega)) (not_round hh ho.2)
  | succ n ih =>
      rw [Table.emplaceRun, ho.1.wrap_around]
      split
      · rename_i hzero
        exact Or.inr ⟨rfl, d + 1, by omega, by omega, hzero, fun c hc => hne c (by omega)⟩
      · split
        · rename_i hm
          exact Or.inl ⟨_, _, rfl, constructAt_adds_free ht ho.1 ho.1.around_lt hm (hashToH2_lt _) v⟩
        · rename_i hm
          rw [hit_eq ho.1]
          cases t.slots.hitAt k (k.extracter v) h (d + 1) with
          | true =>
              refine ih (fun c hc => ?_) (by omega)
              rcases Nat.eq_or_lt_of_le hc with rfl | hlt
              · exact fun e => hm (Or.inl e)
              · exact hne c (by omega)
          | false => exact Or.inl ⟨_, _, rfl, shiftMakeRoom_adds ht ho ho.1.around_lt hm (hashToH2_lt _) v⟩

theorem emplaceEqualLoop_ends (ht : t.Sound) (ho : t.slots.Open) (hh : h < t.slots.capacity) (k : Keying K V) (v : V)
    {fd : Option ℕ} (hfd : ∀ i, fd = some i → i < t.slots.capacity ∧ t.slots.metadata i = htDeleted)
    (hne : ∀ c < d, t.slots.metadata (t.slots.around h c) ≠ htEmpty) (hn : d + n = t.slots.capacity) :
    RunEnds t h v (t.emplaceEqualLoop k v (hashToH2 (k.mixedHash (k.extracter v))) n (t.slots.around h d) fd) := by
  induction n generalizing d fd with
  | zero => exact absurd (fun c hc => hne c (by omega)) (not_round hh ho.2)
  | succ n ih =>
      rw [Table.emplaceEqualLoop, ho.1.wrap_around]
      split
      · rename_i hm
        refine Or.inl ⟨_, _, rfl, ?_⟩
        cases fd with
        | none => exact constructAt_adds_free ht ho.1 ho.1.around_lt (Or.inl hm) (hashToH2_lt _) v
        | some i =>
            obtain ⟨hi, hd⟩ := hfd i rfl
            exact constructAt_adds_free ht ho.1 hi (Or.inr hd) (hashToH2_lt _) v
      · rename_i hm
        have hne' : ∀ c ≤ d, t.slots.metadata (t.slots.around h c) ≠ htEmpty := fun c hc => by
          rcases Nat.eq_or_lt_of_le hc with rfl | hlt
          · exact hm
          · exact hne c hlt
        have hnext : ∀ c < d + 1, t.slots.metadata (t.slots.around h c) ≠ htEmpty := fun c hc => hne' c (by omega)
        split
        · rename_i hdel
          refine ih (fun i hi => ?_) hnext (by omega)
          obtain rfl := Option.some.inj hi
          exact ⟨ho.1.around_lt, hdel.1⟩
        · rw [hit_eq ho.1]
          cases t.slots.hitAt k (k.extracter v) h d with
          | true => exact emplaceRun_ends ht ho hh k v hne' (by omega)
          | false => exact ih hfd hnext (by omega)

end

/-! ### The end of the arrays -/

section

variable {t t' : Table V} {s : Slots V} {k : Keying K V} {h : ℕ} {v : V}

/-- Only 57 bits of a hash choose the home slot. -/
theorem home_lt (s : Slots V) (k : Keying K V) (key : K) : s.hashToIndex (k.mixedHash key) < 2 ^ 57 := by
  have hmix : k.mixedHash key < 2 ^ 64 := by
    have hlt : k.hasher key * 0x9E3779B97F4A7C15 % 2 ^ 64 < 2 ^ 64 := Nat.mod_lt _ (Nat.two_pow_pos 64)
    rw [Keying.mixedHash]
    generalize k.hasher key * 0x9E3779B97F4A7C15 % 2 ^ 64 = x at hlt ⊢
    exact Nat.xor_lt_two_pow hlt ((Nat.shiftRight_le x 32).trans_lt hlt)
  rw [Slots.hashToIndex, Slots.wrap]
  refine Nat.and_le_left.trans_lt ?_
  rw [Nat.shiftRight_eq_div_pow]
  generalize k.mixedHash key = x at hmix ⊢
  omega

/-- Without deleted slots, arrays that are full up to the end have at most 2^57 slots more than elements. -/
theorem run_reaches_end (hr : s.Ready) (hclean : s.Clean) (hh : h < s.capacity) (hfull : s.FullTo h) :
    s.capacity ≤ h + s.elements.card := by
  obtain ⟨e, he0, he, hzero, hne⟩ := hfull
  have hend : h + e = s.capacity := by
    have hmod : (h + e) % s.capacity = 0 := hzero
    rcases Nat.lt_or_ge (h + e) s.capacity with hlt | hge
    · rw [Nat.mod_eq_of_lt hlt] at hmod
      omega
    · rw [Nat.mod_eq_sub_mod hge, Nat.mod_eq_of_lt (by omega)] at hmod
      omega
  have hsub : Finset.Ico h s.capacity ⊆ (Finset.range s.capacity).filter fun i => (s.data i).isSome := by
    intro i hi
    obtain ⟨h1, h2⟩ := Finset.mem_Ico.mp hi
    have hat : s.around h (i - h) = i := by rw [Slots.around, Nat.add_sub_cancel' h1, Nat.mod_eq_of_lt h2]
    have hm := hne (i - h) (by omega)
    rw [hat] at hm
    rw [Finset.mem_filter, hr.object i h2, taken_of_clean hr hclean h2 hm]
    exact ⟨Finset.mem_range.mpr h2, rfl⟩
  have hcard := Finset.card_le_card hsub
  rw [Nat.card_Ico, ← Cells.card_contents] at hcard
  rw [Slots.elements]
  omega

/-- One round of `emplace_equal`. -/
theorem emplaceOnce_spec (ht : t.Sound) (k : Keying K V) (v : V) : ∃ t₁ r, t.emplaceOnce k v = .ok (t₁, r) ∧ t₁.Sound ∧
    t₁.slots.Ready ∧ t₁.slots.elements = t.slots.elements ∧ t.slots.capacity ≤ t₁.slots.capacity ∧
    (t.slots.Clean → t₁.slots.Clean) ∧
    ((∃ t' idx, r = some (t', idx) ∧ t.Adds t' v) ∨ r = none ∧ (t₁.slots.Clean → t₁.slots.capacity < 2 ^ 57 + t.size)) := by
  obtain ⟨t₁, hp, hs, ho, helem, hcap, hclean⟩ := prepare_sound ht k
  have hsize : t₁.size = t.size := by rw [hs.size, helem, ht.size]
  have hhome : t₁.slots.hashToIndex (k.mixedHash (k.extracter v)) < t₁.slots.capacity := ho.1.wrap_lt _
  have hloop := emplaceEqualLoop_ends (n := t₁.slots.capacity) (d := 0) hs ho hhome k v (fun i (hi : none = some i) => by cases hi)
    (fun c hc => absurd hc (Nat.not_lt_zero c)) (Nat.zero_add _)
  rw [← around_home ho.1] at hloop
  have e : t.emplaceOnce k v = (t₁.emplaceEqualLoop k v (hashToH2 (k.mixedHash (k.extracter v))) t₁.slots.capacity
      (t₁.slots.hashToIndex (k.mixedHash (k.extracter v))) none).map fun r => (t₁, r) := by
    rw [Table.emplaceOnce, hp]
    simp only [bind, Except.bind, Except.map]
  rw [e]
  obtain ⟨t', idx, hr, ha⟩ | ⟨hr, hfull⟩ := hloop
  · rw [hr]
    exact ⟨t₁, _, rfl, hs, ho.1, helem, hcap, hclean, Or.inl ⟨t', idx, rfl, ha.sound, by rw [ha.elements, helem]⟩⟩
  · rw [hr]
    refine ⟨t₁, _, rfl, hs, ho.1, helem, hcap, hclean, Or.inr ⟨rfl, fun hc => ?_⟩⟩
    have h1 := run_reaches_end ho.1 hc hhome hfull
    have h2 := home_lt t₁.slots k (k.extracter v)
    rw [← hs.size, hsize] at h1
    omega

/-- The rehash before a further call doubles the arrays and leaves no deleted slots. -/
theorem retry_spec (ht : t.Sound) (hr : t.slots.Ready) (k : Keying K V) : ∃ t',
    t.rehash k (max (t.slots.capacity * 2) (slotsFor (t.size + 1) t.maxLoadFactor)) false = .ok t' ∧ t'.Sound ∧ t'.slots.Clean ∧
      t'.slots.elements = t.slots.elements ∧ t.slots.capacity * 2 ≤ t'.slots.capacity := by
  have hle := le_max_left (t.slots.capacity * 2) (slotsFor (t.size + 1) t.maxLoadFactor)
  generalize max (t.slots.capacity * 2) (slotsFor (t.size + 1) t.maxLoadFactor) = m at hle ⊢
  have hm := (le_max_left m (slotsFor t.size t.maxLoadFactor)).trans (le_nextPowerOf2 _)
  have hge := hr.ge
  obtain ⟨t', e, hs, helem, ⟨_, hk⟩ | ⟨_, hc, _, _, hcap⟩⟩ := rehash_sound ht k m false
  · exact absurd hk (not_keepsArrays (by omega) false)
  · exact ⟨t', e, hs, hc, helem, by omega⟩

/-- A table without deleted slots takes the element before its arrays have doubled `depth` times beyond 2^57. -/
theorem emplaceEqual_clean (depth : ℕ) (ht : t.Sound) (hclean : t.slots.Clean) (hd : 2 ^ 57 + t.size ≤ 2 ^ depth * t.slots.capacity)
    (k : Keying K V) (v : V) : ∃ t' idx, Table.emplaceEqual k v depth t = .ok (t', idx) ∧ t.Adds t' v := by
  induction depth generalizing t with
  | zero =>
      obtain ⟨t₁, r, e, _, _, _, hcap, hc, ⟨t', idx, rfl, ha⟩ | ⟨_, hlt⟩⟩ := emplaceOnce_spec ht k v
      · rw [Table.emplaceEqual, e]
        exact ⟨t', idx, rfl, ha⟩
      · have := hlt (hc hclean)
        rw [pow_zero, Nat.one_mul] at hd
        omega
  | succ depth ih =>
      obtain ⟨t₁, r, e, hs, hr, helem, hcap, hc, ⟨t', idx, rfl, ha⟩ | ⟨rfl, _⟩⟩ := emplaceOnce_spec ht k v
      · rw [Table.emplaceEqual, e]
        exact ⟨t', idx, rfl, ha⟩
      · obtain ⟨t₂, e₂, hs₂, hc₂, helem₂, hcap₂⟩ := retry_spec hs hr k
        have hsize : t₂.size = t.size := by rw [hs₂.size, helem₂, helem, ht.size]
        have hle : 2 ^ (depth + 1) * t.slots.capacity ≤ 2 ^ depth * t₂.slots.capacity := by
          rw [pow_succ, Nat.mul_assoc]
          exact Nat.mul_le_mul_left _ (by omega)
        obtain ⟨t', idx, e', ha⟩ := ih hs₂ hc₂ (by rw [hsize]; exact hd.trans hle)
        rw [Table.emplaceEqual, e]
        simp only [bind, Except.bind, e₂]
        exact ⟨t', idx, e', ha.sound, by rw [ha.elements, helem₂, helem]⟩

/-- **`emplace_equal` inserts its element after a bounded number of calls of itself.** -/
theorem emplaceEqual_adds (ht : t.Sound) (k : Keying K V) (v : V) :
    ∃ t' idx, Table.emplaceEqual k v (Nat.log2 (2 ^ 57 + t.size) + 1) t = .ok (t', idx) ∧ t.Adds t' v := by
  obtain ⟨t₁, r, e, hs, hr, helem, hcap, _, ⟨t', idx, rfl, ha⟩ | ⟨rfl, _⟩⟩ := emplaceOnce_spec ht k v
  · rw [Table.emplaceEqual, e]
    exact ⟨t', idx, rfl, ha⟩
  · obtain ⟨t₂, e₂, hs₂, hc₂, helem₂, hcap₂⟩ := retry_spec hs hr k
    have hsize : t₂.size = t.size := by rw [hs₂.size, helem₂, helem, ht.size]
    have hlog : 2 ^ 57 + t.size < 2 ^ (Nat.log2 (2 ^ 57 + t.size) + 1) := Nat.lt_log2_self
    have hge := hr.ge
    obtain ⟨t', idx, e', ha⟩ := emplaceEqual_clean (Nat.log2 (2 ^ 57 + t.size)) hs₂ hc₂
      (by
        rw [hsize]
        refine hlog.le.trans ?_
        rw [pow_succ]
        exact Nat.mul_le_mul_left _ (by omega)) k v
    rw [Table.emplaceEqual, e]
    simp only [bind, Except.bind, e₂]
    exact ⟨t', idx, e', ha.sound, by rw [ha.elements, helem₂, helem]⟩

end

end NeForce.Flat
