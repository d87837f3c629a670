import NeForce.HeapTimerRuns

/-! # How large the heap of timers gets

`cancel` compacts a heap that has grown too large, so that its size is bounded by the number of pending timers; but it
returns early when no timer is left, and then the cancelled entries stay. -/

namespace NeForce.Timer

/-- The bound that the compaction is there for. -/
def HeapTimer.Bounded (t : HeapTimer) : Prop := t.heap.length ≤ 2 * t.live + 64

instance (t : HeapTimer) : Decidable t.Bounded := inferInstanceAs (Decidable (_ ≤ _))

/-- The two calls that change the number of entries and of pending timers. -/
inductive Call where
  | insert (deadline : ℤ) (payload : ℕ)
  | cancel (id : ℕ)

/-- The heap is bounded after every call of `cancel`. -/
def HeapTimer.BoundedRun (t : HeapTimer) : List Call → Prop
  | [] => True
  | .insert deadline payload :: calls => (t.insert deadline payload).1.BoundedRun calls
  | .cancel id :: calls => (t.cancel id).1.Bounded ∧ (t.cancel id).1.BoundedRun calls

def HeapTimer.decidableBoundedRun : (t : HeapTimer) → (calls : List Call) → Decidable (t.BoundedRun calls)
  | _, [] => .isTrue trivial
  | t, .insert deadline payload :: calls => decidableBoundedRun (t.insert deadline payload).1 calls
  | t, .cancel id :: calls => @instDecidableAnd _ _ _ (decidableBoundedRun (t.cancel id).1 calls)

instance (t : HeapTimer) (calls : List Call) : Decidable (t.BoundedRun calls) := t.decidableBoundedRun calls

/-- `id` is not the last pending timer of a heap with more than 64 entries. -/
def HeapTimer.Keeps (t : HeapTimer) (id : ℕ) : Prop := ¬ (t.states.lookup id = some 0 ∧ t.live = 1 ∧ 64 < t.heap.length)

/-- No call of `cancel` takes the last pending timer out of a heap with more than 64 entries. -/
def HeapTimer.KeepsRun (t : HeapTimer) : List Call → Prop
  | [] => True
  | .insert deadline payload :: calls => (t.insert deadline payload).1.KeepsRun calls
  | .cancel id :: calls => t.Keeps id ∧ (t.cancel id).1.KeepsRun calls

/-! ### One call -/

variable {t t' : HeapTimer} {a : Timers}

/-- A heap that is still too large after `drop_cancelled_locked` has pending timers only. -/
theorem Dropped.length_le (hd : Dropped t t') :
    t'.heap.length ≤ compactBound t.live ∨ ∀ x ∈ t'.heap, isLive t'.states x = true := by
  by_cases hall : ∀ x ∈ t'.heap, isLive t'.states x = true
  · exact .inr hall
  · push Not at hall
    obtain ⟨x, hx, hdead⟩ := hall
    obtain ⟨-, hle⟩ := hd.dead x hx (Bool.not_eq_true _ ▸ hdead)
    refine .inl (le_trans ?_ hle)
    apply List.Subperm.length_le
    refine List.subperm_of_subset (.of_map _ hd.core.ids) fun y hy => ?_
    obtain ⟨hmem, hlook⟩ := hd.kept y hy
    refine List.mem_filter.mpr ⟨hmem, ?_⟩
    cases hlive : isLive t'.states y with
    | true => exact isLive_survives (isLive_congr hlook ▸ hlive)
    | false => simp [survives, (hd.dead y hy hlive).1]

theorem compactBound_le (live : ℕ) : compactBound live ≤ 2 * live + 64 := by
  have := Nat.mod_le (live * 2 + 64) (2 ^ 64)
  unfold compactBound
  omega

/-- `drop_cancelled_locked` and `refresh_hint_locked` leave the heap bounded. -/
theorem Matches.bounded_refresh (h : Matches t a) : t.refreshHintLocked.Bounded := by
  have hd := dropCancelledLocked_dropped h.core
  have hs := h.toSim.dropped hd
  show t.dropCancelledLocked.heap.length ≤ 2 * t.dropCancelledLocked.live + 64
  rw [hd.fields.1]
  obtain hle | hall := hd.length_le
  · exact hle.trans (compactBound_le t.live)
  · have hlen := hs.perm.length_eq
    rw [List.filter_eq_self.mpr hall, ← hs.live, hd.fields.1] at hlen
    omega

theorem Matches.insert_length (h : Matches t a) (deadline : ℤ) (payload : ℕ) :
    (t.insert deadline payload).1.heap.length = t.heap.length + 1 := by
  have hperm := (BinaryHeap.pushHeap_spec (o := laterOrder) h.core.order ⟨deadline, t.nextId, payload⟩).2
  exact hperm.length_eq.trans (List.length_append ..)

/-- An entry more, and a pending timer more. -/
theorem Matches.bounded_insert (h : Matches t a) (hid : t.nextId ≠ 0) (hb : t.Bounded) (deadline : ℤ) (payload : ℕ) :
    (t.insert deadline payload).1.Bounded := by
  obtain ⟨hm, -⟩ := h.insert hid deadline payload
  have hlive : (t.insert deadline payload).1.live = t.live + 1 := by
    rw [hm.live, h.live]
    exact List.orderedInsert_length ..
  unfold HeapTimer.Bounded at hb ⊢
  rw [h.insert_length, hlive]
  omega

/-- **A call of `cancel` leaves a bounded heap bounded if and only if it does not take the last pending timer out of a
heap with more than 64 entries.** -/
theorem Matches.bounded_cancel (h : Matches t a) (hb : t.Bounded) (id : ℕ) :
    (t.cancel id).1.Bounded ↔ t.Keeps id := by
  unfold HeapTimer.Keeps HeapTimer.cancel
  split
  · next hlook =>
    have hm := h.mark hlook
    have hlive : 0 < t.live := by
      obtain ⟨x, hx, -⟩ := (h.lookup_iff id).mp hlook
      rw [h.live]
      exact List.length_pos_of_mem hx
    have hdec : decrement t.live = t.live - 1 := if_neg hlive.ne'
    dsimp only
    rw [hdec] at hm ⊢
    by_cases hzero : t.live - 1 = 0
    · have hone : t.live = 1 := by omega
      rw [if_pos hzero]
      simp only [HeapTimer.Bounded, hlook, hone, true_and]
      omega
    · rw [if_neg hzero]
      refine iff_of_true ?_ fun hlast => hzero (by rw [hlast.2.1])
      split
      · exact hm.dropCancelled.bounded_refresh
      · next hle =>
        have hle' := compactBound_le (t.live - 1)
        unfold HeapTimer.Bounded
        dsimp only
        omega
  · next hlook => exact iff_of_true hb fun hlast => hlook hlast.1

/-! ### Runs -/

/-- A state of a run: a heap that stands for pending timers, which has room for `n` more identifiers. -/
structure HeapTimer.Reached (t : HeapTimer) (n : ℕ) : Prop where
  sim : ∃ a, Matches t a ∧ a.nextId + n ≤ 2 ^ 64

theorem HeapTimer.Reached.insert {n : ℕ} (h : t.Reached (n + 1)) (deadline : ℤ) (payload : ℕ) :
    t.nextId ≠ 0 ∧ (t.insert deadline payload).1.Reached n := by
  obtain ⟨a, hm, hle⟩ := h
  have hid : t.nextId ≠ 0 := by
    have := hm.nextId_pos
    rw [hm.nextId, Nat.mod_eq_of_lt (by omega)]
    omega
  refine ⟨hid, _, (hm.insert hid deadline payload).1, ?_⟩
  show a.nextId + 1 + n ≤ 2 ^ 64
  omega

theorem HeapTimer.Reached.cancel {n : ℕ} (h : t.Reached (n + 1)) (id : ℕ) : (t.cancel id).1.Reached n := by
  obtain ⟨a, hm, hle⟩ := h
  refine ⟨_, (hm.cancel id).1, ?_⟩
  show a.nextId + n ≤ 2 ^ 64
  omega

theorem HeapTimer.Reached.boundedRun_iff {calls : List Call} (h : t.Reached calls.length) (hb : t.Bounded) :
    t.BoundedRun calls ↔ t.KeepsRun calls := by
  induction calls generalizing t with
  | nil => exact Iff.rfl
  | cons c calls ih =>
      cases c with
      | insert deadline payload =>
          obtain ⟨hid, hr⟩ := h.insert deadline payload
          obtain ⟨a, hm, -⟩ := h
          exact ih hr (hm.bounded_insert hid hb deadline payload)
      | cancel id =>
          have hr := h.cancel id
          obtain ⟨a, hm, -⟩ := h
          have hiff := hm.bounded_cancel hb id
          constructor
          · rintro ⟨hb', hrest⟩
            exact ⟨hiff.mp hb', (ih hr hb').mp hrest⟩
          · rintro ⟨hkeep, hrest⟩
            have hb' := hiff.mpr hkeep
            exact ⟨hb', (ih hr hb').mpr hrest⟩

/-- **In every run of `insert` and `cancel` that does not use up the identifiers, the heap is bounded after every call of
`cancel` if and only if none takes the last pending timer out of a heap with more than 64 entries.** -/
theorem bounded_run_iff (calls : List Call) (hcalls : calls.length < 2 ^ 64) :
    HeapTimer.empty.BoundedRun calls ↔ HeapTimer.empty.KeepsRun calls := by
  apply HeapTimer.Reached.boundedRun_iff
  · refine ⟨Timers.empty, Matches.empty, ?_⟩
    show 1 + calls.length ≤ 2 ^ 64
    omega
  · exact Nat.zero_le _

theorem bounded_run_two :
    [Call.insert 5 0, .insert 7 0, .cancel 1].length < 2 ^ 64 ∧
      (HeapTimer.empty.BoundedRun [.insert 5 0, .insert 7 0, .cancel 1] ↔
        HeapTimer.empty.KeepsRun [.insert 5 0, .insert 7 0, .cancel 1]) :=
  ⟨by decide, bounded_run_iff _ (by decide)⟩

/-- One timer after the other, each cancelled before the next one is inserted. -/
def oneByOne (n : ℕ) : List Call := (List.range n).flatMap fun (i : ℕ) => [.insert i 0, .cancel (i + 1)]

/-- After 65 timers, each cancelled at once, the heap has 65 entries and no timer is pending. -/
theorem cancelled_entries_stay : ¬ HeapTimer.empty.BoundedRun (oneByOne 65) := by
  set_option maxRecDepth 8000 in
  decide

end NeForce.Timer
