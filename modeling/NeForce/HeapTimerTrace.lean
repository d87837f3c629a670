import NeForce.HeapTimerRuns

/-! # Runs of a heap of timers

A trace lists the calls of a run with their results.  A run of the heap whose calls are safe has the trace of the
pending timers, and in such a trace no timer is handed out twice or after it was cancelled. -/

namespace NeForce.Timer

def HeapTimer.trace (t : HeapTimer) : List Op → List (Op × Result)
  | [] => []
  | op :: ops => (op, (t.step op).2) :: (t.step op).1.trace ops

def Timers.trace (a : Timers) : List Op → List (Op × Result)
  | [] => []
  | op :: ops => (op, (a.step op).2) :: (a.step op).1.trace ops

/-- Every call of the run is safe where it is made. -/
def HeapTimer.SafeRun (t : HeapTimer) : List Op → Prop
  | [] => True
  | op :: ops => t.Safe op ∧ (t.step op).1.SafeRun ops

instance (t : HeapTimer) : (op : Op) → Decidable (t.Safe op)
  | .insert _ _ => inferInstanceAs (Decidable (_ ≠ _))
  | .drainExpired _ _ _ => inferInstanceAs (Decidable (_ → _ ∨ ∀ x ∈ _, _ → _ → _))
  | .cancel _ | .nextDeadline | .contains _ | .size | .clear => isTrue trivial

def HeapTimer.decidableSafeRun : (t : HeapTimer) → (ops : List Op) → Decidable (t.SafeRun ops)
  | _, [] => isTrue trivial
  | t, op :: ops =>
      have := decidableSafeRun (t.step op).1 ops
      inferInstanceAs (Decidable (_ ∧ _))

instance (t : HeapTimer) (ops : List Op) : Decidable (t.SafeRun ops) := t.decidableSafeRun ops

/-- The identifiers that a call hands out. -/
def Result.expiredIds : Result → List ℕ
  | .expired es => es.map (·.1)
  | _ => []

variable {t : HeapTimer} {a : Timers} {op : Op} {ops : List Op} {id : ℕ}

/-! ### What the pending timers hand out -/

def Timers.ids (a : Timers) : List ℕ := a.pending.map (·.id)

structure Timers.Ok (a : Timers) : Prop where
  nodup : a.ids.Nodup
  old : ∀ id ∈ a.ids, id < a.nextId

theorem Timers.ok_empty : Timers.empty.Ok where
  nodup := .nil
  old id h := by cases h

theorem Timers.due_append (a : Timers) (now : ℤ) (n : ℕ) :
    a.due now n ++ a.pending.drop (a.due now n).length = a.pending :=
  List.prefix_iff_eq_append.mp ((List.take_prefix _ _).trans (List.takeWhile_prefix _))

/-- A call hands out pending timers, which then are not pending; the timers it adds are new. -/
structure Timers.Handed (a a' : Timers) (handed : List ℕ) : Prop where
  nodup : (handed ++ a'.ids).Nodup
  pending : ∀ id ∈ handed, id ∈ a.ids
  old : ∀ id ∈ a'.ids, id < a'.nextId
  kept : ∀ id ∈ a'.ids, id ∈ a.ids ∨ a.nextId ≤ id
  nextId : a.nextId ≤ a'.nextId

theorem Timers.Handed.ok {a' : Timers} {handed : List ℕ} (h : a.Handed a' handed) : a'.Ok :=
  ⟨(List.nodup_append.mp h.nodup).2.1, h.old⟩

/-- A call that at most takes timers away. -/
theorem Timers.Ok.taken {handed : List ℕ} {pending : List Entry} (h : a.Ok)
    (hsub : (handed ++ pending.map (·.id)).Sublist a.ids) : a.Handed { a with pending } handed where
  nodup := h.nodup.sublist hsub
  pending _ hid := hsub.subset (List.mem_append_left _ hid)
  old id hid := h.old id (hsub.subset (List.mem_append_right _ hid))
  kept _ hid := .inl (hsub.subset (List.mem_append_right _ hid))
  nextId := Nat.le_refl _

theorem Timers.Ok.step (h : a.Ok) (op : Op) : a.Handed (a.step op).1 (a.step op).2.expiredIds := by
  cases op with
  | insert deadline payload =>
      have hperm : (a.step (.insert deadline payload)).1.ids.Perm (a.nextId :: a.ids) :=
        (List.perm_orderedInsert _ _ _).map _
      constructor
      · show (a.step (.insert deadline payload)).1.ids.Nodup
        refine hperm.nodup_iff.mpr (List.nodup_cons.mpr ⟨fun hmem => ?_, h.nodup⟩)
        exact (h.old _ hmem).ne rfl
      · intro id hid
        cases hid
      · intro id hid
        show id < a.nextId + 1
        rcases List.mem_cons.mp (hperm.mem_iff.mp hid) with rfl | hid
        · omega
        · have := h.old id hid
          omega
      · intro id hid
        rcases List.mem_cons.mp (hperm.mem_iff.mp hid) with rfl | hid
        · exact .inr (Nat.le_refl _)
        · exact .inl hid
      · exact Nat.le_succ _
  | cancel id => exact h.taken (List.filter_sublist.map _)
  | drainExpired now out maxCount =>
      have hids := congrArg (List.map (·.id)) (a.due_append now (if out then maxCount else 0))
      rw [List.map_append] at hids
      refine h.taken ?_
      rw [Timers.step, Result.expiredIds, List.map_map]
      exact (congrArg (List.Sublist · a.ids) hids).mpr (.refl _)
  | nextDeadline => exact h.taken (.refl _)
  | contains id => exact h.taken (.refl _)
  | size => exact h.taken (.refl _)
  | clear => exact h.taken (List.nil_sublist _)

/-- What a run hands out was pending or is new. -/
theorem Timers.Ok.handed (h : a.Ok) (hid : id ∈ (a.trace ops).flatMap (·.2.expiredIds)) : id ∈ a.ids ∨ a.nextId ≤ id := by
  induction ops generalizing a with
  | nil => cases hid
  | cons op ops ih =>
      have hs := h.step op
      rcases List.mem_append.mp hid with hid | hid
      · exact .inl (hs.pending id hid)
      · rcases ih hs.ok hid with hid | hid
        · exact hs.kept id hid
        · exact .inr (hs.nextId.trans hid)

theorem Timers.Ok.handed_once (h : a.Ok) : ((a.trace ops).flatMap (·.2.expiredIds)).Nodup := by
  induction ops generalizing a with
  | nil => exact .nil
  | cons op ops ih =>
      have hs := h.step op
      obtain ⟨h1, -, h2⟩ := List.nodup_append.mp hs.nodup
      refine List.nodup_append.mpr ⟨h1, ih hs.ok, ?_⟩
      rintro i hi j hj rfl
      rcases hs.ok.handed hj with hj | hj
      · exact h2 i hi i hj rfl
      · have := h.old i (hs.pending i hi)
        have := hs.nextId
        omega

/-- No later call hands out a timer that was cancelled. -/
def NotHanded (r r' : Op × Result) : Prop := ∀ id, r = (.cancel id, .flag true) → id ∉ r'.2.expiredIds

theorem Timers.Ok.cancelled (h : a.Ok) : (a.trace ops).Pairwise NotHanded := by
  induction ops generalizing a with
  | nil => exact .nil
  | cons op ops ih =>
      have hs := h.step op
      refine List.Pairwise.cons ?_ (ih hs.ok)
      intro r hr id hcancel hid
      obtain ⟨rfl, hflag⟩ := Prod.mk.inj hcancel
      have hmem : id ∈ a.ids := by
        simpa [Timers.step, Timers.ids] using hflag
      have hgone : id ∉ (a.step (.cancel id)).1.ids := by
        simp [Timers.step, Timers.ids]
      rcases hs.ok.handed (List.mem_flatMap.mpr ⟨r, hr, hid⟩) with hid | hid
      · exact hgone hid
      · exact absurd (h.old id hmem) (Nat.not_lt.mpr hid)

/-! ### Runs of the heap -/

theorem Matches.trace (h : Matches t a) (hsafe : t.SafeRun ops) : t.trace ops = a.trace ops := by
  induction ops generalizing t a with
  | nil => rfl
  | cons op ops ih =>
      obtain ⟨hstep, hresult⟩ := h.step hsafe.1
      rw [HeapTimer.trace, Timers.trace, hresult, ih hstep hsafe.2]

/-- **Safe runs of a heap of timers** are runs of the pending timers: every result is theirs, no timer is handed out
after a call cancelled it, and none twice. -/
theorem timer_run (ops : List Op) (hsafe : HeapTimer.empty.SafeRun ops) :
    HeapTimer.empty.trace ops = Timers.empty.trace ops ∧
      (HeapTimer.empty.trace ops).Pairwise NotHanded ∧
      ((HeapTimer.empty.trace ops).flatMap (·.2.expiredIds)).Nodup := by
  have htrace := Matches.empty.trace hsafe
  refine ⟨htrace, ?_, ?_⟩
  · rw [htrace]
    exact Timers.ok_empty.cancelled
  · rw [htrace]
    exact Timers.ok_empty.handed_once

/-- Two timers in the wrong order, one of them cancelled. -/
def cancelFirst : List Op :=
  [.insert 20 2, .insert 10 1, .cancel 2, .drainExpired 5 true 10, .cancel 2, .drainExpired 15 true 10, .size]

theorem timer_run_sample :
    HeapTimer.empty.trace cancelFirst = Timers.empty.trace cancelFirst ∧
      (HeapTimer.empty.trace cancelFirst).Pairwise NotHanded ∧
      ((HeapTimer.empty.trace cancelFirst).flatMap (·.2.expiredIds)).Nodup :=
  timer_run cancelFirst (by decide)

/-- The cancelled timer is behind the other one when both are drained. -/
def cancelSecond : List Op :=
  [.insert 10 1, .insert 20 2, .cancel 2, .drainExpired 25 true 10, .size]

/-- A drain hands out a cancelled timer that comes to the front after a live one, and the count of the timers wraps. -/
theorem cancelled_timer_handed :
    (HeapTimer.empty.trace cancelSecond).map (·.2) =
        [.token 1, .token 2, .flag true, .expired [(1, 1), (2, 2)], .count (2 ^ 64 - 1)] ∧
      (Timers.empty.trace cancelSecond).map (·.2) =
        [.token 1, .token 2, .flag true, .expired [(1, 1)], .count 0] ∧
      ¬(HeapTimer.empty.trace cancelSecond).Pairwise NotHanded := by
  have htrace : (HeapTimer.empty.trace cancelSecond).map (·.2) =
      [.token 1, .token 2, .flag true, .expired [(1, 1), (2, 2)], .count (2 ^ 64 - 1)] := by decide
  refine ⟨htrace, by decide, fun h => ?_⟩
  simp only [cancelSecond, HeapTimer.trace, List.map_cons, List.map_nil, List.cons.injEq] at htrace h
  obtain ⟨-, -, hflag, hexpired, -⟩ := htrace
  rw [hflag, hexpired] at h
  obtain ⟨-, -, h, -⟩ := by simpa only [List.pairwise_cons] using h
  exact h _ (List.mem_cons_self) 2 rfl (by decide)

end NeForce.Timer
