import NeForce.HeapTimer

/-! # Timers that leave a heap

`Keeps t t' out` says that a call leaves pending timers pending unless they are in `out`, makes no timer pending, adds no
marks and gives no token.  It holds of every call but `insert` and `clear`, whatever the order of the heap and the marks are: what the heap
drops is marked as cancelled, and what it pops is handed out. -/

namespace NeForce.Timer

open BinaryHeap

variable {t t' t'' : HeapTimer} {out out' : List ℕ} {heap : List Entry} {states : States} {id : ℕ}

structure Keeps (t t' : HeapTimer) (out : List ℕ) : Prop where
  pending : ∀ id, t.states.lookup id = some 0 → t'.states.lookup id = some 0 ∨ id ∈ out
  back : ∀ id, t'.states.lookup id = some 0 → t.states.lookup id = some 0
  marks : ∀ id ∈ t'.states, id ∈ t.states
  nextId : t'.nextId = t.nextId

theorem Keeps.refl (t : HeapTimer) : Keeps t t [] := ⟨fun _ h => .inl h, fun _ h => h, fun _ h => h, rfl⟩

theorem Keeps.trans (h : Keeps t t' out) (h' : Keeps t' t'' out') : Keeps t t'' (out ++ out') where
  pending id hid := by
    rcases h.pending id hid with hid | hout
    · exact (h'.pending id hid).imp_right (List.mem_append_right _)
    · exact .inr (List.mem_append_left _ hout)
  back id hid := h.back id (h'.back id hid)
  marks id hid := h.marks id (h'.marks id hid)
  nextId := h'.nextId.trans h.nextId

theorem popHeap_getLast? {α : Type} (lt : α → α → Bool) (first : α) (l : List α) :
    (popHeap lt (first :: l)).getLast? = some first := by
  cases l with
  | nil => rfl
  | cons second l =>
      unfold popHeap
      rw [List.getLast?_eq_some_getLast (List.cons_ne_nil _ _)]
      exact List.getLast?_concat

/-- A table with the same pending timers and no other marks. -/
structure Shrinks (states states' : States) : Prop where
  pending : ∀ id, states'.lookup id = some 0 ↔ states.lookup id = some 0
  marks : ∀ id ∈ states', id ∈ states

theorem Shrinks.refl (states : States) : Shrinks states states := ⟨fun _ => Iff.rfl, fun _ h => h⟩

theorem Shrinks.trans {states' states'' : States} (h : Shrinks states states') (h' : Shrinks states' states'') :
    Shrinks states states'' :=
  ⟨fun id => (h'.pending id).trans (h.pending id), fun id hid => h.marks id (h'.marks id hid)⟩

/-- A mark of a timer that is not pending goes. -/
theorem Shrinks.erase (h : states.lookup id ≠ some 0) : Shrinks states (states.erase id) := by
  refine ⟨fun id' => ?_, fun id' hid' => (Finmap.mem_erase.mp hid').2⟩
  by_cases he : id' = id
  · rw [he, Finmap.lookup_erase]
    exact iff_of_false nofun h
  · rw [Finmap.lookup_erase_ne he]

theorem dropTops_shrinks (n : ℕ) (heap : List Entry) (states : States) : Shrinks states (dropTops n heap states).2 := by
  induction n generalizing heap states with
  | zero => exact .refl states
  | succ n ih =>
      unfold dropTops
      split
      · exact .refl states
      · rename_i first l
        split
        · exact .refl states
        · rename_i mark hmark
          split
          · exact .refl states
          · rename_i hne
            simp only [popHeap_getLast?]
            have hdead : states.lookup first.id ≠ some 0 := fun h => hne (Option.some.inj (hmark.symm.trans h))
            exact (Shrinks.erase hdead).trans (ih _ _)

theorem compact_shrinks (heap : List Entry) (states : States) : Shrinks states (compact heap states).2 := by
  induction heap generalizing states with
  | nil => exact .refl states
  | cons x heap ih =>
      unfold compact
      split
      · exact ih states
      · rename_i hdead
        exact (Shrinks.erase hdead).trans (ih _)

theorem dropCancelledLocked_keeps (t : HeapTimer) : Keeps t t.dropCancelledLocked [] := by
  have h := dropTops_shrinks t.heap.length t.heap t.states
  unfold HeapTimer.dropCancelledLocked
  dsimp only
  split
  · exact ⟨fun id hid => .inl ((h.pending id).mpr hid), fun id => (h.pending id).mp, h.marks, rfl⟩
  · have h' := h.trans (compact_shrinks (dropTops t.heap.length t.heap t.states).1 _)
    exact ⟨fun id hid => .inl ((h'.pending id).mpr hid), fun id => (h'.pending id).mp, h'.marks, rfl⟩

theorem refreshHintLocked_keeps (t : HeapTimer) : Keeps t t.refreshHintLocked [] :=
  have h := dropCancelledLocked_keeps t
  ⟨h.pending, h.back, h.marks, h.nextId⟩

theorem nextDeadline_keeps (t : HeapTimer) : Keeps t t.nextDeadline.1 [] := refreshHintLocked_keeps t

/-- What is popped is handed out, so no pending timer is lost. -/
theorem drainLoop_keeps (now : ℤ) (n : ℕ) (t : HeapTimer) :
    Keeps t (t.drainLoop now n).1 ((t.drainLoop now n).2.map (·.1)) := by
  induction n generalizing t with
  | zero => exact .refl t
  | succ n ih =>
      unfold HeapTimer.drainLoop
      split
      · exact .refl t
      · rename_i first l hheap
        split
        · dsimp only
          split
          · exact .refl t
          · rename_i top htop
            have h : Keeps t { t with heap := (popHeap later t.heap).dropLast, states := t.states.erase top.id,
                                      live := decrement t.live } [top.id] := by
              refine ⟨fun id hid => ?_, fun id hid => ?_, fun id hid => (Finmap.mem_erase.mp hid).2, rfl⟩
              · by_cases he : id = top.id
                · exact .inr (List.mem_singleton.mpr he)
                · exact .inl ((Finmap.lookup_erase_ne he).trans hid)
              · by_cases he : id = top.id
                · rw [he, Finmap.lookup_erase] at hid
                  cases hid
                · rwa [Finmap.lookup_erase_ne he] at hid
            exact h.trans (ih _)
        · exact .refl t

theorem drainExpired_keeps (t : HeapTimer) (now : ℤ) (out : Bool) (maxCount : ℕ) :
    Keeps t (t.drainExpired now out maxCount).1 ((t.drainExpired now out maxCount).2.map (·.1)) := by
  unfold HeapTimer.drainExpired
  split
  · exact .refl t
  · have h := ((dropCancelledLocked_keeps t).trans (drainLoop_keeps now maxCount _)).trans (refreshHintLocked_keeps _)
    rwa [List.nil_append, List.append_nil] at h

/-- `cancel` of a pending timer. -/
theorem cancel_keeps (h : (t.cancel id).2 = true) : Keeps t (t.cancel id).1 [id] := by
  unfold HeapTimer.cancel at h ⊢
  split
  · rename_i hid
    have hmark : Keeps t { t with states := t.states.insert id 1, live := decrement t.live } [id] := by
      refine ⟨fun id' hid' => ?_, fun id' hid' => ?_, fun id' hid' => ?_, rfl⟩
      · by_cases he : id' = id
        · exact .inr (List.mem_singleton.mpr he)
        · exact .inl ((Finmap.lookup_insert_of_ne _ he).trans hid')
      · by_cases he : id' = id
        · rw [he]
          exact hid
        · rwa [Finmap.lookup_insert_of_ne _ he] at hid'
      · rcases Finmap.mem_insert.mp hid' with rfl | hid'
        · exact Finmap.mem_of_lookup_eq_some hid
        · exact hid'
    dsimp only
    split
    · exact ⟨hmark.pending, hmark.back, hmark.marks, hmark.nextId⟩
    · split
      · exact (hmark.trans (dropCancelledLocked_keeps _)).trans (refreshHintLocked_keeps _)
      · exact hmark
  · rename_i hid
    rw [if_neg hid] at h
    cases h

/-- A timer that is not pending is not cancelled, and nothing changes. -/
theorem cancel_not_pending (h : (t.cancel id).2 = false) : (t.cancel id).1 = t ∧ t.states.lookup id ≠ some 0 := by
  unfold HeapTimer.cancel at h ⊢
  by_cases hid : t.states.lookup id = some 0
  · rw [if_pos hid] at h
    dsimp only at h
    split_ifs at h
  · rw [if_neg hid]
    exact ⟨rfl, hid⟩

/-- A new token is pending, and nothing else changes. -/
theorem insert_pending (deadline : ℤ) (payload : ℕ) (hnew : t.nextId ∉ t.states) :
    (∀ id, (t.insert deadline payload).1.states.lookup id = some 0 ↔ id = t.nextId ∨ t.states.lookup id = some 0) ∧
      ∀ id ∈ (t.insert deadline payload).1.states, id = t.nextId ∨ id ∈ t.states := by
  have hstates : (t.insert deadline payload).1.states = t.states.insert t.nextId 0 := if_neg hnew
  rw [hstates]
  refine ⟨fun id => ?_, fun id hid => Finmap.mem_insert.mp hid⟩
  by_cases he : id = t.nextId
  · rw [he, Finmap.lookup_insert]
    exact iff_of_true rfl (.inl rfl)
  · rw [Finmap.lookup_insert_of_ne _ he]
    exact ⟨.inr, fun h => h.resolve_left he⟩

end NeForce.Timer
