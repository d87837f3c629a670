import NeForce.FlatEmplace

/-! # Tables that can be reached

`Reached` says how tables come about: insertions, removals, copies, rehashes, also those that a function object ends by an
exception, and new load factors.  Where no load factor is above one, they are all sound (`reached_sound`), so
`emplace_equal` inserts its element into each of them (`emplaceEqual_ends`). -/

namespace NeForce.Flat

variable {K V : Type}

/-- `max_load_factor(lf)` -/
def Table.setMaxLoadFactor (t : Table V) (lf : ℚ) : Table V :=
  { t with maxLoadFactor := lf, growthThreshold := thresholdOf t.slots.capacity lf }

/-- The tables that the operations lead to, with load factors that satisfy `ok`. -/
inductive Reached (k : Keying K V) (ok : ℚ → Prop) : Table V → Prop
  | empty {lf : ℚ} : ok lf → Reached k ok ⟨Slots.allocate 0, 0, 0, 0, lf, 0⟩
  | emplaceEqual {t t' : Table V} {v : V} {depth idx : ℕ} :
      Reached k ok t → Table.emplaceEqual k v depth t = .ok (t', idx) → Reached k ok t'
  | emplaceUnique {t t' : Table V} {simd : Bool} {v : V} {r : ℕ × Bool} :
      Reached k ok t → t.emplaceUnique k simd v = .ok (t', r) → Reached k ok t'
  | eraseAt {t : Table V} (simd : Bool) (i : ℕ) : Reached k ok t → Reached k ok (t.eraseAt simd i).1
  | eraseKey {t t' : Table V} {simd : Bool} {key : K} {n : ℕ} :
      Reached k ok t → t.eraseKey k simd key = some (t', n) → Reached k ok t'
  | clear {t : Table V} : Reached k ok t → Reached k ok t.clear.1
  | rehash {t t' : Table V} {n : ℕ} : Reached k ok t → t.rehash k n false = .ok t' → Reached k ok t'
  | reserve {t t' : Table V} {n : ℕ} : Reached k ok t → t.reserve k n = .ok t' → Reached k ok t'
  | rehashThrown {t t' : Table V} {movedFrom : V → V} {throws : ℕ → Bool} {m : ℕ} {purgeOnly : Bool} :
      Reached k ok t → t.rehashImpl k movedFrom throws m purgeOnly = .thrown t' → Reached k ok t'
  | setMaxLoadFactor {t : Table V} {lf : ℚ} : Reached k ok t → ok lf → Reached k ok (t.setMaxLoadFactor lf)
  | copy {t t' : Table V} {log : List Life} : Reached k ok t →
      (⟨Slots.allocate 0, 0, 0, 0, t.maxLoadFactor, 0⟩ : Table V).copyFrom t (fun _ => false) = .done t' log → Reached k ok t'
  | copyAssign {t other t' : Table V} {log : List Life} : Reached k ok t → Reached k ok other →
      { t with maxLoadFactor := other.maxLoadFactor : Table V }.clear.1.copyFrom other (fun _ => false) = .done t' log →
        Reached k ok t'

section

variable {t t₀ t' : Table V} {s s' : Slots V} {k : Keying K V} {key : K} {h h1 h2 d i n m depth idx : ℕ} {v : V} {b : Bool}

/-! ### Insertions -/

/-- However deep the calls go, they insert the element. -/
theorem emplaceEqual_ok (ht : t.Sound) (h : Table.emplaceEqual k v depth t = .ok (t', idx)) : t.Adds t' v := by
  induction depth generalizing t with
  | zero =>
      obtain ⟨t₁, r, e, _, _, _, _, _, ⟨t₂, idx₂, rfl, ha⟩ | ⟨rfl, _⟩⟩ := emplaceOnce_spec ht k v
      · rw [Table.emplaceEqual, e] at h
        obtain ⟨rfl, _⟩ := Prod.mk.inj (Except.ok.inj h)
        exact ha
      · rw [Table.emplaceEqual, e] at h
        cases h
  | succ depth ih =>
      obtain ⟨t₁, r, e, hs, hr, helem, _, _, ⟨t₂, idx₂, rfl, ha⟩ | ⟨rfl, _⟩⟩ := emplaceOnce_spec ht k v
      · rw [Table.emplaceEqual, e] at h
        obtain ⟨rfl, _⟩ := Prod.mk.inj (Except.ok.inj h)
        exact ha
      · obtain ⟨t₂, e₂, hs₂, _, helem₂, _⟩ := retry_spec hs hr k
        rw [Table.emplaceEqual, e] at h
        simp only [bind, Except.bind, e₂] at h
        obtain ⟨hs', helem'⟩ := ih hs₂ h
        exact ⟨hs', by rw [helem', helem₂, helem]⟩

/-- A slot that an insertion may take. -/
def Slots.Vacant (s : Slots V) (i : ℕ) : Prop := i < s.capacity ∧ (s.metadata i = htEmpty ∨ s.metadata i = htDeleted)

theorem vacant_of_free (hs : s.Ready) (hf : s.Free h i) : s.Vacant i := by
  obtain ⟨d, _, rfl, hl, _⟩ := hf
  refine ⟨hs.around_lt, (hs.byte _ hs.around_lt).resolve_left fun ht => hl ⟨hs.around_lt, ht⟩⟩

theorem vacant_match (hs : s.Ready) {byte b : ℕ} {l : List ℕ} (hm : byte = htEmpty ∨ byte = htDeleted)
    (hb : Slots.matchBytes (s.loadMetaGroup (s.around h d)) byte = b :: l) : s.Vacant (s.wrap (s.around h d + b)) := by
  have hmem : b ∈ Slots.matchBytes (s.loadMetaGroup (s.around h d)) byte := by
    rw [hb]
    exact List.mem_cons_self
  rw [hs.matchBytes_load, List.mem_filter, decide_eq_true_eq] at hmem
  rw [hs.wrap_around]
  refine ⟨hs.around_lt, ?_⟩
  rw [hmem.2]
  exact hm

/-- The insertion probe by groups takes a vacant slot, whatever the equality. -/
theorem probeSimd_vacant (hs : s.Ready) {fd : Option ℕ} (hfd : ∀ i, fd = some i → s.Vacant i)
    (hr : s.probeFindOrInsertSimdLoop k key h1 h2 n (s.around h d) fd = some (some i, false)) : s.Vacant i := by
  induction n generalizing d fd with
  | zero =>
      obtain ⟨rfl, _⟩ := Prod.mk.inj (Option.some.inj hr)
      exact hfd i rfl
  | succ n ih =>
      rw [Slots.probeFindOrInsertSimdLoop] at hr
      simp only [Option.bind_eq_bind, Option.bind_eq_some_iff] at hr
      obtain ⟨m, _, hr⟩ := hr
      cases m with
      | some slot => cases hr
      | none =>
          simp only at hr
          cases hempty : Slots.matchBytes (s.loadMetaGroup (s.around h d)) htEmpty with
          | cons b l =>
              rw [hempty] at hr
              obtain ⟨hi, _⟩ := Prod.mk.inj (Option.some.inj hr)
              obtain rfl := Option.some.inj hi
              have hvac := vacant_match hs (Or.inl rfl) hempty
              rw [Slots.insertionSlot.eq_def]
              split
              · split
                · exact hfd _ rfl
                · exact hvac
              · exact hvac
          | nil =>
              rw [hempty] at hr
              simp only [show htGroup = 16 from rfl, hs.wrap_around] at hr
              refine ih (fun i hi => ?_) hr
              cases hf : fd with
              | some j =>
                  rw [hf] at hi
                  obtain rfl := Option.some.inj hi
                  exact hfd _ hf
              | none =>
                  rw [hf, Option.none_or, Option.map_eq_some_iff] at hi
                  obtain ⟨b, hb, rfl⟩ := hi
                  obtain ⟨l, hl⟩ := List.head?_eq_some_iff.mp hb
                  rw [← hs.wrap_around]
                  exact vacant_match hs (Or.inr rfl) hl

theorem probe_vacant (hs : s.Ready) (hr : s.probeFindOrInsert k (k.mixedHash key) key (hashToH2 (k.mixedHash key)) = some (some i, false)) :
    s.Vacant i := by
  have hh : s.hashToIndex (k.mixedHash key) < s.capacity := hs.wrap_lt _
  have hp : s.Passed (s.hashToIndex (k.mixedHash key)) 0 none :=
    ⟨fun e he => absurd he (Nat.not_lt_zero e), fun i hi => (nomatch hi), fun _ e he => absurd he (Nat.not_lt_zero e)⟩
  obtain ⟨r, e, ha⟩ : ∃ r, s.probeFindOrInsertLoop k key (hashToH2 (k.mixedHash key)) s.capacity
      (s.around (s.hashToIndex (k.mixedHash key)) 0) none = some r ∧
      s.InsertAnswer (s.hashToIndex (k.mixedHash key)) (s.hits k key (s.hashToIndex (k.mixedHash key)) s.capacity 0) r :=
    probeFindOrInsertLoop_spec hs hh (Nat.zero_add _) hp
  rw [← around_home hs] at e
  rw [Slots.probeFindOrInsert, e] at hr
  obtain rfl := Option.some.inj hr
  cases hl : s.hits k key (s.hashToIndex (k.mixedHash key)) s.capacity 0 with
  | cons d l =>
      rw [hl] at ha
      cases ha
  | nil =>
      rw [hl] at ha
      obtain ⟨_, ⟨j, hj, hf⟩ | ⟨hj, _⟩⟩ := ha
      · obtain rfl := Option.some.inj hj
        exact vacant_of_free hs hf
      · cases hj

theorem emplaceUnique_sound (ht : t.Sound) {simd : Bool} {r : ℕ × Bool} (hr : t.emplaceUnique k simd v = .ok (t', r)) : t'.Sound := by
  obtain ⟨t₁, hp, hs, ho, _⟩ := prepare_sound ht k
  rw [Table.emplaceUnique, hp] at hr
  simp only [bind, Except.bind] at hr
  split at hr
  · obtain ⟨rfl, _⟩ := Prod.mk.inj (Except.ok.inj hr)
    exact hs
  · rename_i i hprobe
    obtain ⟨rfl, _⟩ := Prod.mk.inj (Except.ok.inj hr)
    have hvac : t₁.slots.Vacant i := by
      cases simd with
      | true =>
          rw [if_pos rfl, Slots.probeFindOrInsertSimd, around_home ho.1] at hprobe
          exact probeSimd_vacant ho.1 (fun i hi => by cases hi) hprobe
      | false => exact probe_vacant ho.1 hprobe
    exact (constructAt_adds_free hs ho.1 hvac.1 hvac.2 (hashToH2_lt _) v).sound
  · cases hr

/-! ### Removals -/

theorem kill_sound (ht : t.Sound) (hl : t.slots.Live i) : (t.kill i).Sound where
  wellFormed := ht.wellFormed.eraseSlot i
  size := by
    have ho := ht.wellFormed.object i hl.1
    rw [hl.2] at ho
    obtain ⟨v, hv⟩ := Option.isSome_iff_exists.mp ho
    have hclear : v ::ₘ (t.kill i).slots.elements = t.slots.elements := Cells.contents_clear hl.1 hv
    have hsize := ht.size
    rw [← hclear, Multiset.card_cons] at hsize
    show t.size - 1 = _
    omega
  deleted := by
    have hsub : ((Finset.range t.slots.capacity).filter fun x => (t.kill i).slots.metadata x = htDeleted) ⊆
        insert i ((Finset.range t.slots.capacity).filter fun x => t.slots.metadata x = htDeleted) := by
      intro x hx
      rw [Finset.mem_filter] at hx
      rw [Finset.mem_insert, Finset.mem_filter]
      rcases eq_or_ne x i with rfl | hne
      · exact Or.inl rfl
      · refine Or.inr ⟨hx.1, ?_⟩
        have h2 : Function.update t.slots.metadata i htDeleted x = htDeleted := hx.2
        rwa [Function.update_of_ne hne] at h2
    have hcard := (Finset.card_le_card hsub).trans (Finset.card_insert_le _ _)
    have hd := ht.deleted
    rw [Slots.deletedCount] at hd
    show ((Finset.range t.slots.capacity).filter fun x => (t.kill i).slots.metadata x = htDeleted).card ≤ t.deleted + 1
    omega
  threshold := ht.threshold
  factor := ht.factor

theorem eraseAt_sound (ht : t.Sound) (simd : Bool) (i : ℕ) : (t.eraseAt simd i).1.Sound := by
  rw [Table.eraseAt]
  split
  · exact ht
  · rename_i hi
    split
    · exact ht
    · rename_i hm
      exact kill_sound ht ⟨by omega, (ht.wellFormed.byte i (by omega)).resolve_right hm⟩

/-- The removal of elements at different distances. -/
theorem kills_sound {l : List ℕ} (ht : t.Sound) (hnd : l.Nodup) (hlt : ∀ d ∈ l, d < t.slots.capacity)
    (hl : ∀ d ∈ l, t.slots.Live (t.slots.around h d)) : (kills h l t).Sound := by
  induction l generalizing t with
  | nil => exact ht
  | cons d l ih =>
      obtain ⟨hd, hnd⟩ := List.nodup_cons.mp hnd
      refine ih (t := t.kill (t.slots.around h d)) (kill_sound ht (hl d List.mem_cons_self)) hnd
        (fun e he => hlt e (List.mem_cons_of_mem _ he)) fun e he => ?_
      have hlive := hl e (List.mem_cons_of_mem _ he)
      have hne : t.slots.around h e ≠ t.slots.around h d := fun heq => by
        have := Slots.around_inj (hlt e (List.mem_cons_of_mem _ he)) (hlt d List.mem_cons_self) heq
        rw [this] at he
        exact hd he
      refine ⟨hlive.1, ?_⟩
      show isTaken (Function.update t.slots.metadata (t.slots.around h d) htDeleted (t.slots.around h e)) = true
      rw [Function.update_of_ne hne]
      exact hlive.2

theorem eraseKey_sound (ht : t.Sound) {simd : Bool} (hr : t.eraseKey k simd key = some (t', n)) : t'.Sound := by
  by_cases hcap : t.slots.capacity = 0
  · rw [Table.eraseKey, if_pos hcap] at hr
    obtain ⟨rfl, _⟩ := Prod.mk.inj (Option.some.inj hr)
    exact ht
  · have hs : t.slots.Ready := ⟨ht.wellFormed, hcap⟩
    rw [eraseKey_eq hs] at hr
    obtain ⟨rfl, _⟩ := Prod.mk.inj (Option.some.inj hr)
    have hmem : ∀ d ∈ t.slots.hits k key (t.slots.hashToIndex (k.mixedHash key)) t.slots.capacity 0,
        d < t.slots.capacity ∧ t.slots.hitAt k key (t.slots.hashToIndex (k.mixedHash key)) d = true := fun d hd => by
      obtain ⟨h1, h2⟩ := List.mem_filter.mp hd
      rw [Bool.and_eq_true] at h2
      have := (List.mem_range'_1.mp h1).2
      exact ⟨by omega, h2.1⟩
    refine kills_sound ht ((List.nodup_range' 1 Nat.one_pos).filter _) (fun d hd => (hmem d hd).1) fun d hd => ⟨hs.around_lt, ?_⟩
    have hhit := (hmem d hd).2
    rw [Slots.hitAt, Bool.and_eq_true, decide_eq_true_eq] at hhit
    rw [hhit.1]
    exact decide_eq_true (hashToH2_lt _)

theorem elements_eq_zero (hs : ∀ i < s.capacity, s.data i = none) : s.elements = 0 :=
  Multiset.eq_zero_of_forall_notMem fun v hv => by
    obtain ⟨i, hi, h⟩ := Cells.mem_contents.mp hv
    rw [hs i hi] at h
    cases h

/-- Arrays whose bytes are all `htEmpty`. -/
theorem clear_sound (ht : t.Sound) : t.clear.1.Sound := by
  have hm : ∀ i < t.slots.capacity, t.clear.1.slots.metadata i = htEmpty := fun i hi => if_pos hi
  have hd : ∀ i < t.slots.capacity, t.clear.1.slots.data i = none := fun i hi => if_pos hi
  refine ⟨⟨ht.wellFormed.capacity, fun i hi => Or.inr (Or.inl (hm i hi)), fun i hi => ?_⟩, ?_, ?_, ht.threshold, ht.factor⟩
  · rw [hm i hi, hd i hi]
    rfl
  · rw [elements_eq_zero hd]
    rfl
  · refine (deletedCount_clean fun i hi h => ?_).le
    rw [hm i hi] at h
    cases h

/-! ### Exceptions -/

theorem isSome_movedUpTo (movedFrom : V → V) (i j x : ℕ) : ((s.movedUpTo movedFrom i j).data x).isSome = (s.data x).isSome := by
  rw [Slots.movedUpTo]
  simp only
  split
  · exact Option.isSome_map
  · rfl

/-- The elements that have been moved away are still counted. -/
theorem rehashThrown_sound (ht : t.Sound) {movedFrom : V → V} {throws : ℕ → Bool}
    (hr : t.rehashImpl k movedFrom throws m b = .thrown t') : t'.Sound := by
  have hmove : ¬ t.KeepsArrays m b := fun hkeep => by
    rw [Table.rehashImpl] at hr
    simp only [Bool.not_eq_true'] at hr
    rw [Table.KeepsArrays] at hkeep
    rw [if_pos hkeep] at hr
    cases hr
  obtain ⟨j, _, rfl⟩ := (rehashImpl_thrown_iff ht.wellFormed hmove).mp ⟨throws, hr⟩
  refine ⟨⟨ht.wellFormed.capacity, ht.wellFormed.byte, fun i hi => ?_⟩, ?_, ht.deleted, ht.threshold, ht.factor⟩
  · rw [isSome_movedUpTo]
    exact ht.wellFormed.object i hi
  · rw [ht.size, Slots.elements, Slots.elements, Cells.card_contents, Cells.card_contents]
    simp only [isSome_movedUpTo]
    rfl

/-! ### Copies -/

theorem copySlots_capacity {other : Slots V} {log log' : List Life} (hr : copySlots other (fun _ => false) n i s log = (false, s', log')) :
    s'.capacity = s.capacity := by
  induction n generalizing i s log with
  | zero =>
      obtain ⟨rfl, _⟩ := Prod.mk.inj (Prod.mk.inj hr).2
      rfl
  | succ n ih =>
      rw [copySlots] at hr
      simp only [Bool.false_eq_true, if_false] at hr
      split at hr
      · have h := ih hr
        exact h
      · have h := ih hr
        exact h

/-- The bytes and the elements of the slots that the copy has passed are those of the source. -/
theorem copySlots_copied {other : Slots V} {log log' : List Life} (ho : other.WellFormed) (hi : i + n = other.capacity)
    (hdata : ∀ j < i, s.data j = other.data j) (hnone : ∀ j < other.capacity, i ≤ j → s.data j = none)
    (hmeta : ∀ j < i, s.metadata j = other.metadata j)
    (hr : copySlots other (fun _ => false) n i s log = (false, s', log')) :
    ∀ j < other.capacity, s'.data j = other.data j ∧ s'.metadata j = other.metadata j := by
  induction n generalizing i s log with
  | zero =>
      obtain ⟨rfl, _⟩ := Prod.mk.inj (Prod.mk.inj hr).2
      exact fun j hj => ⟨hdata j (by omega), hmeta j (by omega)⟩
  | succ n ih =>
      have hlt : i < other.capacity := by omega
      rw [copySlots] at hr
      simp only [Bool.false_eq_true, if_false] at hr
      have hmeta' : ∀ j < i + 1, Function.update s.metadata i (other.metadata i) j = other.metadata j := fun j hj => by
        rcases eq_or_ne j i with rfl | hne
        · exact Function.update_self ..
        · rw [Function.update_of_ne hne]
          exact hmeta j (by omega)
      split at hr
      · refine ih (i := i + 1) (by omega) (fun j hj => ?_) (fun j hj hij => ?_) hmeta' hr
        · rcases eq_or_ne j i with rfl | hne
          · exact Function.update_self ..
          · simp only [Function.update_of_ne hne]
            exact hdata j (by omega)
        · simp only [Function.update_of_ne (show j ≠ i by omega)]
          exact hnone j hj (by omega)
      · rename_i hdead
        refine ih (i := i + 1) (s := ⟨s.data, Function.update s.metadata i (other.metadata i), s.capacity⟩) (by omega) (fun j hj => ?_)
          (fun j hj hij => hnone j hj (by omega)) hmeta' hr
        rcases eq_or_ne j i with rfl | hne
        · have hobj := ho.object j hlt
          rw [Bool.eq_false_iff.mpr ((taken_iff ho hlt).not.mp hdead), Option.isSome_eq_false_iff, Option.isNone_iff_eq_none] at hobj
          rw [hobj]
          exact hnone j hlt le_rfl
        · exact hdata j (by omega)

theorem deletedCount_congr (hc : s'.capacity = s.capacity) (hm : ∀ j < s.capacity, s'.metadata j = s.metadata j) :
    s'.deletedCount = s.deletedCount := by
  rw [Slots.deletedCount, Slots.deletedCount, hc]
  congr 1
  refine Finset.filter_congr fun j hj => ?_
  rw [hm j (Finset.mem_range.mp hj)]

theorem elements_congr (hc : s'.capacity = s.capacity) (hd : ∀ j < s.capacity, s'.data j = s.data j) : s'.elements = s.elements := by
  rw [Slots.elements, Slots.elements, hc]
  exact Cells.contents_congr hd

/-- Arrays that agree with well-formed ones slot by slot. -/
theorem wellFormed_congr (hs : s.WellFormed) (hc : s'.capacity = s.capacity)
    (h : ∀ j < s.capacity, s'.data j = s.data j ∧ s'.metadata j = s.metadata j) : s'.WellFormed where
  capacity := by
    rw [hc]
    exact hs.capacity
  byte i hi := by
    rw [hc] at hi
    rw [(h i hi).2]
    exact hs.byte i hi
  object i hi := by
    rw [hc] at hi
    rw [(h i hi).1, (h i hi).2]
    exact hs.object i hi

/-- A copy into a table without elements. -/
theorem copyFrom_sound (h0 : t₀.Sound) (hnone : ∀ i < t₀.slots.capacity, t₀.slots.data i = none) (ht : t.Sound) {log : List Life}
    (hr : t₀.copyFrom t (fun _ => false) = .done t' log) : t'.Sound := by
  rw [Table.copyFrom] at hr
  split at hr
  · obtain ⟨rfl, _⟩ := Copied.done.inj hr
    exact h0
  · simp only at hr
    generalize ht₁ : (if t₀.slots.capacity ≠ t.slots.capacity then
        { t₀ with
          slots := Slots.allocate t.slots.capacity
          growthThreshold := thresholdOf t.slots.capacity t₀.maxLoadFactor
          block := t₀.block + 1 }
      else { t₀ with slots := { t₀.slots with metadata := fun i => if i < t₀.slots.capacity then htEmpty else t₀.slots.metadata i } }) = t₁ at hr
    have h1 : t₁.slots.capacity = t.slots.capacity ∧ (∀ i < t.slots.capacity, t₁.slots.data i = none) ∧
        t₁.growthThreshold ≤ t.slots.capacity ∧ t₁.maxLoadFactor = t₀.maxLoadFactor := by
      rw [← ht₁]
      split
      · exact ⟨rfl, fun i _ => rfl, thresholdOf_le h0.factor _, rfl⟩
      · rename_i hc
        have hc : t₀.slots.capacity = t.slots.capacity := not_not.mp hc
        exact ⟨hc, fun i hi => hnone i (hc ▸ hi), hc ▸ h0.threshold, rfl⟩
    obtain ⟨hcap, hempty, hthr, hlf⟩ := h1
    split at hr
    · rename_i s log' hcopy
      obtain ⟨rfl, _⟩ := Copied.done.inj hr
      have hc : s.capacity = t.slots.capacity := (copySlots_capacity hcopy).trans hcap
      have hall := copySlots_copied ht.wellFormed (Nat.zero_add _) (fun j hj => absurd hj (Nat.not_lt_zero j))
        (fun j hj _ => hempty j hj) (fun j hj => absurd hj (Nat.not_lt_zero j)) hcopy
      refine ⟨wellFormed_congr ht.wellFormed hc hall, ?_, ?_, ?_, ?_⟩
      · show t.size = s.elements.card
        rw [elements_congr hc fun j hj => (hall j hj).1, ht.size]
      · show s.deletedCount ≤ t.deleted
        rw [deletedCount_congr hc fun j hj => (hall j hj).2]
        exact ht.deleted
      · show t₁.growthThreshold ≤ s.capacity
        rw [hc]
        exact hthr
      · show 0 < t₁.maxLoadFactor ∧ t₁.maxLoadFactor ≤ 1
        rw [hlf]
        exact h0.factor
    · cases hr

/-! ### All tables -/

/-- A load factor that leaves room in the arrays. -/
def AtMostOne (lf : ℚ) : Prop := 0 < lf ∧ lf ≤ 1

theorem empty_sound {lf : ℚ} (hlf : AtMostOne lf) : (⟨Slots.allocate 0, 0, 0, 0, lf, 0⟩ : Table V).Sound where
  wellFormed := ⟨Or.inl rfl, fun i hi => absurd hi (Nat.not_lt_zero i), fun i hi => absurd hi (Nat.not_lt_zero i)⟩
  size := by
    rw [elements_eq_zero fun i _ => rfl]
    rfl
  deleted := (deletedCount_clean fun i hi => absurd hi (Nat.not_lt_zero i)).le
  threshold := le_rfl
  factor := hlf

theorem reached_sound (h : Reached k AtMostOne t) : t.Sound := by
  induction h with
  | empty hlf => exact empty_sound hlf
  | emplaceEqual _ h ih => exact (emplaceEqual_ok ih h).sound
  | emplaceUnique _ h ih => exact emplaceUnique_sound ih h
  | eraseAt simd i _ ih => exact eraseAt_sound ih simd i
  | eraseKey _ h ih => exact eraseKey_sound ih h
  | clear _ ih => exact clear_sound ih
  | rehash _ h ih =>
      obtain ⟨t', e, hs, _⟩ := rehash_sound ih k _ false
      rw [e] at h
      obtain rfl := Except.ok.inj h
      exact hs
  | reserve _ h ih =>
      rw [Table.reserve] at h
      split at h
      · obtain rfl := Except.ok.inj h
        exact ih
      · obtain ⟨t', e, hs, _⟩ := rehash_sound ih k _ false
        rw [e] at h
        obtain rfl := Except.ok.inj h
        exact hs
  | rehashThrown _ h ih => exact rehashThrown_sound ih h
  | setMaxLoadFactor _ hlf ih => exact ⟨ih.wellFormed, ih.size, ih.deleted, thresholdOf_le hlf _, hlf⟩
  | copy _ h ih => exact copyFrom_sound (empty_sound ih.factor) (fun i _ => rfl) ih h
  | copyAssign _ _ h ih₁ ih₂ =>
      rename_i t other _ _ _ _
      have hs : ({ t with maxLoadFactor := other.maxLoadFactor } : Table V).Sound :=
        ⟨ih₁.wellFormed, ih₁.size, ih₁.deleted, ih₁.threshold, ih₂.factor⟩
      exact copyFrom_sound (clear_sound hs) (fun i hi => if_pos hi) ih₂ h

end

/-- The numbers below 16 in a table with the load factor 2. -/
def fullTable : Except Fault (Table ℕ) :=
  (List.range 16).foldlM (fun t v => (Table.emplaceEqual natKeying v 1 t).map Prod.fst) (emptyTable 2)

theorem reached_foldlM {l : List ℕ} {t t' : Table ℕ} {ok : ℚ → Prop} (ht : Reached natKeying ok t)
    (h : l.foldlM (fun t v => (Table.emplaceEqual natKeying v 1 t).map Prod.fst) t = .ok t') : Reached natKeying ok t' := by
  induction l generalizing t with
  | nil =>
      obtain rfl := Except.ok.inj h
      exact ht
  | cons v l ih =>
      rw [List.foldlM_cons] at h
      cases he : Table.emplaceEqual natKeying v 1 t with
      | error e =>
          rw [he] at h
          cases h
      | ok r =>
          rw [he] at h
          exact ih (ht.emplaceEqual he) h

/-- What `emplace_equal` throws at the full table. -/
def faultAtFull : Option Fault :=
  match fullTable with
  | .error _ => none
  | .ok t =>
      match t.emplaceOnce natKeying 100 with
      | .error e => some e
      | .ok _ => none

end NeForce.Flat
