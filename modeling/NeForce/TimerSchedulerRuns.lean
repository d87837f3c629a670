import NeForce.TimerPending
import NeForce.TimerScheduler

/-! # Runs of the timer scheduler

`Inv` is what holds in every run whose steps are allowed: tokens and tasks go together, a task that is not pending is in
the batch of the scheduler thread, and a promise that a caller waits for is set, or its handler is running, or the
thread will come to it before it is stopped.  From there the thread needs only steps of its own to set the promise
(`Inv.fulfillable`). -/

namespace NeForce.Scheduler

open Timer

def Loop.rest : Loop → List ℕ
  | .batch rest | .found _ _ rest | .running _ _ rest | .called _ _ rest => rest
  | .top | .exited => []

/-- The timer and the task in hand. -/
def Loop.current : Loop → Option (ℕ × ℕ)
  | .found id u _ | .running id u _ | .called id u _ => some (id, u)
  | .top | .batch _ | .exited => none

def Loop.Called (l : Loop) (u : ℕ) : Prop := ∃ id rest, l = .called id u rest

/-- The scheduler thread has not come to a task yet. -/
def World.Ahead (s : World) (u : ℕ) : Prop :=
  u + 1 ∈ s.loop.rest ∧ (∃ t, (u + 1, t) ∈ s.tasks) ∧ s.queue.states.lookup (u + 1) ≠ some 0 ∧
    ∀ x v, s.loop.current = some (x, v) → v ≠ u

/-- A promise is set or will be. -/
def World.Awaited (s : World) (u : ℕ) : Prop :=
  u ∈ s.fulfilled ∨ s.loop.Runs u ∨ (s.stopped = false ∧ (s.loop.Holds u ∨ s.Ahead u))

structure Inv (s : World) : Prop where
  nextId : s.queue.nextId = (s.serial + 1) % 2 ^ 64
  bound : s.serial < 2 ^ 64
  marks : ∀ id ∈ s.queue.states, id ≤ s.serial
  tasks : ∀ x ∈ s.tasks, x.1 = x.2.serial + 1 ∧ x.2.serial < s.serial
  current : ∀ x v, s.loop.current = some (x, v) → x = v + 1 ∧ v < s.serial
  pending : ∀ x ∈ s.tasks,
    s.queue.states.lookup x.1 = some 0 ∨ x.1 ∈ s.loop.rest ∨ ∃ v, s.loop.current = some (x.1, v)
  calledSet : s.stopped = false → ∀ u, s.loop.Called u → u ∈ s.fulfilled
  old : ∀ u ∈ s.fulfilled, u < s.serial
  gone : ∀ u ∈ s.fulfilled, (∀ x ∈ s.tasks, x.2.serial = u → s.loop.Called u) ∧ ¬ s.loop.Holds u
  handlerFree : s.waiting .handler = none
  waiting : ∀ c u, s.waiting c = some u → u ∈ s.cancelled ∧ s.Awaited u

variable {s s' : World} {l : Label} {id u : ℕ} {rest : List ℕ} {c : Caller}

/-! ### The table of tasks -/

theorem mem_of_find {t : Task} (h : s.find id = some t) : (id, t) ∈ s.tasks := by
  obtain ⟨x, hx, rfl⟩ := Option.map_eq_some_iff.mp h
  obtain rfl : x.1 = id := by simpa using List.find?_some hx
  exact List.mem_of_find?_eq_some hx

theorem ne_of_find_none (h : s.find id = none) : ∀ x ∈ s.tasks, x.1 ≠ id := by
  have h := List.find?_eq_none.mp (Option.map_eq_none_iff.mp h)
  exact fun x hx => by simpa using h x hx

theorem mem_erase {tasks : List (ℕ × Task)} {x : ℕ × Task} : x ∈ erase tasks id ↔ x ∈ tasks ∧ x.1 ≠ id := by
  rw [erase, List.mem_filter, decide_eq_true_iff]

/-- What `cancel` does. -/
theorem cancel_cases (s : World) (id : ℕ) :
    (s.find id = none ∧ s.cancel id = (s, .returns false)) ∨
    (∃ t, s.find id = some t ∧ (s.queue.cancel id).2 = true ∧ s.cancel id =
      ({ s with queue := (s.queue.cancel id).1, cancelled := t.serial :: s.cancelled, tasks := erase s.tasks id },
        .returns true)) ∨
    ∃ t, s.find id = some t ∧ (s.queue.cancel id).2 = false ∧ s.cancel id =
      ({ s with
          cancelled := t.serial :: s.cancelled
          tasks := s.tasks.map fun x => if x.1 = id then (x.1, { x.2 with done := false }) else x },
        if t.done then .waits t.serial else .returns true) := by
  cases hf : s.find id with
  | none => exact .inl ⟨rfl, by rw [World.cancel, hf]⟩
  | some t =>
      cases hc : (s.queue.cancel id).2 with
      | true => exact .inr (.inl ⟨t, rfl, rfl, by simp only [World.cancel, hf, hc, if_true]⟩)
      | false =>
          refine .inr (.inr ⟨t, rfl, rfl, ?_⟩)
          simp only [World.cancel, hf, hc, (cancel_not_pending hc).1]
          rfl

/-- `cancel` leaves the loop, the waiting callers and the set promises alone. -/
theorem cancel_frame {r : CancelResult} (heq : s.cancel id = (s', r)) :
    s'.loop = s.loop ∧ s'.waiting = s.waiting ∧ s'.fulfilled = s.fulfilled ∧ s.cancelled ⊆ s'.cancelled := by
  rcases cancel_cases s id with ⟨-, h1⟩ | ⟨t, -, -, h1⟩ | ⟨t, -, -, h1⟩
  all_goals
    rw [h1] at heq
    obtain ⟨rfl, -⟩ := Prod.mk.inj heq
  · exact ⟨rfl, rfl, rfl, List.Subset.refl _⟩
  · exact ⟨rfl, rfl, rfl, List.subset_cons_self _ _⟩
  · exact ⟨rfl, rfl, rfl, List.subset_cons_self _ _⟩

/-- A `cancel` that finds its task sets the flag of the task. -/
theorem cancel_marks {r : CancelResult} (heq : s.cancel id = (s', r)) (hr : r ≠ .returns false) :
    ∃ t, s.find id = some t ∧ t.serial ∈ s'.cancelled := by
  rcases cancel_cases s id with ⟨-, h1⟩ | ⟨t, hf, -, h1⟩ | ⟨t, hf, -, h1⟩
  all_goals
    rw [h1] at heq
    obtain ⟨rfl, rfl⟩ := Prod.mk.inj heq
  · exact absurd rfl hr
  · exact ⟨t, hf, List.mem_cons_self⟩
  · exact ⟨t, hf, List.mem_cons_self⟩

/-- A `cancel` that waits has found a task with its promise that is not pending. -/
theorem cancel_waits (heq : s.cancel id = (s', .waits u)) :
    ∃ t, s.find id = some t ∧ t.done = true ∧ t.serial = u ∧ (s.queue.cancel id).2 = false ∧
      s' = { s with
        cancelled := t.serial :: s.cancelled
        tasks := s.tasks.map fun x => if x.1 = id then (x.1, { x.2 with done := false }) else x } := by
  rcases cancel_cases s id with ⟨-, h1⟩ | ⟨t, -, -, h1⟩ | ⟨t, hf, hc, h1⟩
  · rw [h1] at heq
    cases heq
  · rw [h1] at heq
    cases heq
  · cases hd : t.done with
    | true =>
        rw [h1, hd] at heq
        cases heq
        exact ⟨t, hf, hd, rfl, hc, rfl⟩
    | false =>
        rw [h1, hd] at heq
        cases heq

/-! ### Invariants of the steps -/

/-- Another heap that keeps the pending timers of `tasks_`. -/
theorem Inv.with_queue (h : Inv s) {queue : HeapTimer} {out : List ℕ} (hk : Keeps s.queue queue out)
    (hout : ∀ x ∈ s.tasks, x.1 ∉ out) : Inv { s with queue } :=
  { h with
    nextId := hk.nextId.trans h.nextId
    marks := fun id hid => h.marks id (hk.marks id hid)
    pending := fun x hx => (h.pending x hx).imp_left fun hp => (hk.pending x.1 hp).resolve_right (hout x hx)
    waiting := fun c u hu => ⟨(h.waiting c u hu).1, (h.waiting c u hu).2.imp_right <| .imp_right fun ⟨hst, hpos⟩ =>
      ⟨hst, hpos.imp_right fun ⟨ha, ht, hp, hcur⟩ => ⟨ha, ht, fun hp' => hp (hk.back _ hp'), hcur⟩⟩⟩ }

theorem Inv.with_queue_nil (h : Inv s) {queue : HeapTimer} (hk : Keeps s.queue queue []) : Inv { s with queue } :=
  h.with_queue hk fun _ _ => List.not_mem_nil

theorem Inv.addTask (h : Inv s) (hid : s.queue.nextId ≠ 0) (expire : ℤ) : Inv (s.addTask expire).1 := by
  have hk := nextDeadline_keeps s.queue
  have hs : s.serial + 1 < 2 ^ 64 := by
    have hb := h.bound
    by_contra hcon
    have he : s.serial + 1 = 2 ^ 64 := by omega
    exact hid (by rw [h.nextId, he, Nat.mod_self])
  have hnext : s.queue.nextDeadline.1.nextId = s.serial + 1 := by rw [hk.nextId, h.nextId, Nat.mod_eq_of_lt hs]
  have hnew : s.queue.nextDeadline.1.nextId ∉ s.queue.nextDeadline.1.states := fun hmem => by
    have := h.marks _ (hk.marks _ hmem)
    omega
  obtain ⟨h1, h2⟩ := insert_pending expire 0 hnew
  have hfind : s.find (s.serial + 1) = none := by
    cases hf : s.find (s.serial + 1) with
    | none => rfl
    | some t =>
        have hx := h.tasks _ (mem_of_find hf)
        dsimp only at hx
        omega
  have hstates : (s.addTask expire).1.queue.states = (s.queue.nextDeadline.1.insert expire 0).1.states := rfl
  have htasks : (s.addTask expire).1.tasks = (s.serial + 1, ⟨s.serial, true⟩) :: s.tasks := by
    unfold World.addTask HeapTimer.insert
    dsimp only
    rw [hnext, hfind]
    rfl
  rw [hnext] at h1 h2
  refine
    { nextId := ?_, bound := hs, marks := ?_, tasks := ?_, current := ?_, pending := ?_, calledSet := h.calledSet, old := ?_,
      gone := ?_, handlerFree := h.handlerFree, waiting := ?_ }
  · change (s.queue.nextDeadline.1.nextId + 1) % 2 ^ 64 = _
    rw [hnext]
    rfl
  · intro id hid
    change id ≤ s.serial + 1
    rw [hstates] at hid
    rcases h2 id hid with rfl | hmem
    · exact le_rfl
    · exact (h.marks id (hk.marks id hmem)).trans (Nat.le_succ _)
  · intro x hx
    rw [htasks] at hx
    rcases List.mem_cons.mp hx with rfl | hx
    · exact ⟨rfl, Nat.lt_succ_self _⟩
    · exact ⟨(h.tasks x hx).1, Nat.lt_succ_of_lt (h.tasks x hx).2⟩
  · exact fun x v hv => ⟨(h.current x v hv).1, Nat.lt_succ_of_lt (h.current x v hv).2⟩
  · intro x hx
    rw [htasks] at hx
    rw [hstates, h1]
    rcases List.mem_cons.mp hx with rfl | hx
    · exact .inl (.inl rfl)
    · exact (h.pending x hx).imp_left fun hp => .inr ((hk.pending x.1 hp).resolve_right List.not_mem_nil)
  · exact fun u hu => Nat.lt_succ_of_lt (h.old u hu)
  · refine fun u hu => ⟨fun x hx hxu => ?_, (h.gone u hu).2⟩
    rw [htasks] at hx
    rcases List.mem_cons.mp hx with rfl | hx
    · exact absurd hxu (h.old u hu).ne'
    · exact (h.gone u hu).1 x hx hxu
  · intro c u hu
    obtain ⟨hcan, haw⟩ := h.waiting c u hu
    refine ⟨hcan, haw.imp_right (.imp_right fun ⟨hst, hpos⟩ => ⟨hst, hpos.imp_right fun ⟨ha, ⟨t, ht⟩, hp, hcur⟩ => ?_⟩)⟩
    refine ⟨ha, ⟨t, ?_⟩, ?_, hcur⟩
    · rw [htasks]
      exact List.mem_cons_of_mem _ ht
    · rw [hstates, Ne, h1]
      rintro (he | hp')
      · have := (h.tasks _ ht).2
        have := (h.tasks _ ht).1
        dsimp only at *
        omega
      · exact hp (hk.back _ hp')

/-- A pending timer is cancelled. -/
theorem Inv.cancel_pending (h : Inv s) {t : Task} (hc : (s.queue.cancel id).2 = true) :
    Inv { s with queue := (s.queue.cancel id).1, cancelled := t.serial :: s.cancelled, tasks := erase s.tasks id } := by
  have hk := cancel_keeps hc
  have hpend : s.queue.states.lookup id = some 0 := by
    by_contra hcon
    rw [HeapTimer.cancel, if_neg hcon] at hc
    cases hc
  refine
    { nextId := hk.nextId.trans h.nextId, bound := h.bound, marks := ?_, tasks := ?_, current := h.current, pending := ?_,
      calledSet := h.calledSet, old := h.old, gone := ?_, handlerFree := h.handlerFree, waiting := ?_ }
  · exact fun id hid => h.marks id (hk.marks id hid)
  · exact fun x hx => h.tasks x (mem_erase.mp hx).1
  · intro x hx
    obtain ⟨hx, hne⟩ := mem_erase.mp hx
    exact (h.pending x hx).imp_left fun hp => (hk.pending x.1 hp).resolve_right fun he => hne (List.mem_singleton.mp he)
  · exact fun u hu => ⟨fun x hx hxu => (h.gone u hu).1 x (mem_erase.mp hx).1 hxu, (h.gone u hu).2⟩
  · intro c u hu
    obtain ⟨hcan, haw⟩ := h.waiting c u hu
    refine ⟨List.mem_cons_of_mem _ hcan,
      haw.imp_right (.imp_right fun ⟨hst, hpos⟩ => ⟨hst, hpos.imp_right fun ⟨ha, ⟨t, ht⟩, hp, hcur⟩ => ?_⟩)⟩
    have hne : u + 1 ≠ id := fun he => hp (he ▸ hpend)
    exact ⟨ha, ⟨t, mem_erase.mpr ⟨ht, hne⟩⟩, fun hp' => hp (hk.back _ hp'), hcur⟩

/-- An entry that loses its promise stays. -/
theorem World.Awaited.take_promise (h : s.Awaited u) (id : ℕ) (t : Task) :
    World.Awaited { s with
      cancelled := t.serial :: s.cancelled
      tasks := s.tasks.map fun x => if x.1 = id then (x.1, { x.2 with done := false }) else x } u := by
  refine h.imp_right (.imp_right fun ⟨hst, hpos⟩ => ⟨hst, hpos.imp_right fun ⟨ha, ⟨t', ht'⟩, hp, hcur⟩ => ?_⟩)
  refine ⟨ha, ?_, hp, hcur⟩
  by_cases he : u + 1 = id
  · exact ⟨{ t' with done := false }, List.mem_map.mpr ⟨_, ht', by rw [if_pos he]⟩⟩
  · exact ⟨t', List.mem_map.mpr ⟨_, ht', by rw [if_neg he]⟩⟩

/-- A caller finds a timer that is not pending. -/
theorem Inv.cancel_drained (h : Inv s) (t : Task) :
    Inv { s with
      cancelled := t.serial :: s.cancelled
      tasks := s.tasks.map fun x => if x.1 = id then (x.1, { x.2 with done := false }) else x } := by
  have hback : ∀ y ∈ s.tasks.map (fun x => if x.1 = id then (x.1, { x.2 with done := false }) else x),
      ∃ x ∈ s.tasks, y.1 = x.1 ∧ y.2.serial = x.2.serial := by
    intro y hy
    obtain ⟨x, hx, rfl⟩ := List.mem_map.mp hy
    refine ⟨x, hx, ?_⟩
    split <;> exact ⟨rfl, rfl⟩
  refine
    { h with tasks := ?_, pending := ?_, gone := ?_, waiting := ?_ }
  · intro y hy
    obtain ⟨x, hx, h1, h2⟩ := hback y hy
    rw [h1, h2]
    exact h.tasks x hx
  · intro y hy
    obtain ⟨x, hx, h1, -⟩ := hback y hy
    rw [h1]
    exact h.pending x hx
  · refine fun u hu => ⟨fun y hy hyu => ?_, (h.gone u hu).2⟩
    obtain ⟨x, hx, -, h2⟩ := hback y hy
    exact (h.gone u hu).1 x hx (h2.symm.trans hyu)
  · exact fun c u hu => ⟨List.mem_cons_of_mem _ (h.waiting c u hu).1, (h.waiting c u hu).2.take_promise id t⟩

/-- A caller that may wait is heard in time. -/
theorem Inv.awaited (h : Inv s) {t : Task} (hf : s.find id = some t) (hc : (s.queue.cancel id).2 = false)
    (hok : t.serial ∈ s.fulfilled ∨ s.stopped = false ∨ s.loop.Runs t.serial) : s.Awaited t.serial := by
  have hmem := mem_of_find hf
  have hid : id = t.serial + 1 := (h.tasks _ hmem).1
  have hnot := (cancel_not_pending hc).2
  rcases hok with hful | hst | hrun
  · exact .inl hful
  · cases hcur : s.loop.current with
    | none =>
        have hrest : id ∈ s.loop.rest := by
          rcases h.pending _ hmem with hp | hr | ⟨v, hv⟩
          · exact absurd hp hnot
          · exact hr
          · rw [hcur] at hv
            cases hv
        exact .inr (.inr ⟨hst, .inr ⟨hid ▸ hrest, ⟨t, hid ▸ hmem⟩, hid ▸ hnot, fun x v hxv => by rw [hcur] at hxv; cases hxv⟩⟩)
    | some xv =>
        obtain ⟨x, v⟩ := xv
        have hx := (h.current x v hcur).1
        by_cases hv : v = t.serial
        · subst hv
          cases hl : s.loop with
          | found id' u rest =>
              rw [hl] at hcur
              cases hcur
              exact .inr (.inr ⟨hst, .inl (.inr ⟨_, _, hl⟩)⟩)
          | running id' u rest =>
              rw [hl] at hcur
              cases hcur
              exact .inr (.inl ⟨_, _, hl⟩)
          | called id' u rest =>
              rw [hl] at hcur
              cases hcur
              exact .inl (h.calledSet hst _ ⟨_, _, hl⟩)
          | top | batch _ | exited =>
              rw [hl] at hcur
              cases hcur
        · have hrest : id ∈ s.loop.rest := by
            rcases h.pending _ hmem with hp | hr | ⟨w, hw⟩
            · exact absurd hp hnot
            · exact hr
            · rw [hcur] at hw
              cases hw
              omega
          refine .inr (.inr ⟨hst, .inr ⟨hid ▸ hrest, ⟨t, hid ▸ hmem⟩, hid ▸ hnot, fun x' v' hxv => ?_⟩⟩)
          rw [hcur] at hxv
          cases hxv
          exact hv
  · exact .inr (.inl hrun)

/-- A caller blocks. -/
theorem Inv.block (h : Inv s) (hc : c ≠ .handler) (hcan : u ∈ s.cancelled) (haw : s.Awaited u) :
    Inv { s with waiting := Function.update s.waiting c (some u) } := by
  refine { h with handlerFree := ?_, waiting := ?_ }
  · exact (Function.update_of_ne hc.symm _ _).trans h.handlerFree
  · intro c' u' hu'
    change Function.update s.waiting c (some u) c' = some u' at hu'
    by_cases he : c' = c
    · subst he
      rw [Function.update_self] at hu'
      cases hu'
      exact ⟨hcan, haw⟩
    · rw [Function.update_of_ne he] at hu'
      exact h.waiting c' u' hu'

/-- A caller goes on. -/
theorem Inv.unblock (h : Inv s) (c : Caller) : Inv { s with waiting := Function.update s.waiting c none } := by
  have hold : ∀ c' u, Function.update s.waiting c none c' = some u → s.waiting c' = some u := by
    intro c' u hu
    by_cases he : c' = c
    · subst he
      rw [Function.update_self] at hu
      cases hu
    · rwa [Function.update_of_ne he] at hu
  refine { h with handlerFree := ?_, waiting := fun c' u hu => h.waiting c' u (hold c' u hu) }
  cases hn : Function.update s.waiting c none .handler with
  | none => exact hn
  | some u => exact absurd (h.handlerFree.symm.trans (hold _ u hn)) nofun

theorem Inv.cancelAll (h : Inv s) (hok : ∀ c u, s.waiting c = some u → u ∈ s.fulfilled ∨ s.loop.Holds u) :
    Inv s.cancelAll where
  nextId := h.nextId
  bound := h.bound
  marks id hid := absurd hid Finmap.notMem_empty
  tasks x hx := absurd hx List.not_mem_nil
  current := h.current
  pending x hx := absurd hx List.not_mem_nil
  calledSet := h.calledSet
  old := h.old
  gone u hu := ⟨fun x hx => absurd hx List.not_mem_nil, (h.gone u hu).2⟩
  handlerFree := h.handlerFree
  waiting c u hu := by
    obtain ⟨hcan, haw⟩ := h.waiting c u hu
    refine ⟨List.mem_append_right _ hcan, ?_⟩
    rcases hok c u hu with hful | hhold
    · exact .inl hful
    · rcases haw with hful | hrun | ⟨hst, -⟩
      · exact .inl hful
      · exact .inr (.inl hrun)
      · exact .inr (.inr ⟨hst, .inl hhold⟩)

theorem Inv.stop (h : Inv s) (hok : ∀ c u, s.waiting c = some u → u ∈ s.fulfilled ∨ s.loop.Runs u) : Inv s.stop :=
  { h with
    calledSet := nofun
    waiting := fun c u hu => ⟨(h.waiting c u hu).1, (hok c u hu).imp_right .inl⟩ }

/-- At the top of the loop nobody waits for a promise that is not set. -/
theorem Inv.waiting_top (h : Inv s) (hrest : s.loop.rest = []) (hcur : s.loop.current = none) (hu : s.waiting c = some u) :
    u ∈ s.cancelled ∧ u ∈ s.fulfilled := by
  obtain ⟨hcan, haw⟩ := h.waiting c u hu
  refine ⟨hcan, haw.resolve_right fun haw => ?_⟩
  have hhold : ¬ s.loop.Holds u := by
    rintro (⟨id, rest, hl⟩ | ⟨id, rest, hl⟩) <;> rw [hl] at hcur <;> cases hcur
  rcases haw with hrun | ⟨-, hhold' | ⟨hahead, -⟩⟩
  · exact hhold (.inl hrun)
  · exact hhold hhold'
  · rw [hrest] at hahead
    cases hahead

/-- The scheduler thread goes from one place without a task in hand to another one. -/
theorem Inv.goto (h : Inv s) (loop : Loop) (hcur : loop.current = none) (hrest : s.loop.rest = [])
    (hcur' : s.loop.current = none) : Inv { s with loop } := by
  have hnone : ∀ u, ¬ loop.Holds u ∧ ¬ loop.Called u := by
    refine fun u => ⟨?_, ?_⟩
    · rintro (⟨id, rest, hl⟩ | ⟨id, rest, hl⟩) <;> rw [hl] at hcur <;> cases hcur
    · rintro ⟨id, rest, hl⟩
      rw [hl] at hcur
      cases hcur
  refine { h with current := ?_, pending := ?_, calledSet := ?_, gone := ?_, waiting := ?_ }
  · exact fun x v hv => absurd (hcur.symm.trans hv) nofun
  · intro x hx
    refine .inl ((h.pending x hx).resolve_right ?_)
    rw [hrest, hcur']
    rintro (hx | ⟨v, hv⟩)
    · cases hx
    · cases hv
  · exact fun _ u hcalled => absurd hcalled (hnone u).2
  · refine fun u hu => ⟨fun x hx hxu => ?_, (hnone u).1⟩
    obtain ⟨id, rest, hl⟩ := (h.gone u hu).1 x hx hxu
    rw [hl] at hcur'
    cases hcur'
  · exact fun c u hu => ⟨(h.waiting_top hrest hcur' hu).1, .inl (h.waiting_top hrest hcur' hu).2⟩

/-- Timers are drained. -/
theorem Inv.drain (h : Inv s) {queue : HeapTimer} {out : List ℕ} (hk : Keeps s.queue queue out) (hrest : s.loop.rest = [])
    (hcur : s.loop.current = none) : Inv { s with queue, loop := .batch out } := by
  have h' := h.goto (.batch []) rfl hrest hcur
  refine
    { h' with nextId := hk.nextId.trans h.nextId, marks := fun id hid => h.marks id (hk.marks id hid), pending := ?_,
              waiting := ?_, calledSet := ?_, gone := ?_ }
  · intro x hx
    have hp : s.queue.states.lookup x.1 = some 0 := by
      refine (h'.pending x hx).resolve_right ?_
      rintro (hx | ⟨v, hv⟩)
      · cases hx
      · cases hv
    exact (hk.pending x.1 hp).imp_right .inl
  · rintro - u ⟨id, rest, hl⟩
    cases hl
  · refine fun u hu => ⟨fun x hx hxu => ?_, ?_⟩
    · obtain ⟨id, rest, hl⟩ := (h'.gone u hu).1 x hx hxu
      cases hl
    · rintro (⟨id, rest, hl⟩ | ⟨id, rest, hl⟩) <;> cases hl
  · exact fun c u hu => ⟨(h.waiting_top hrest hcur hu).1, .inl (h.waiting_top hrest hcur hu).2⟩

theorem Inv.look (h : Inv s) (hl : s.loop = .top) (now : ℤ) : Inv (s.look now) := by
  have hrest : s.loop.rest = [] := by rw [hl]; rfl
  have hcur : s.loop.current = none := by rw [hl]; rfl
  unfold World.look
  split
  · exact h.goto .exited rfl hrest hcur
  · split
    · exact h
    · dsimp only
      have hk := nextDeadline_keeps s.queue
      split
      · exact h.with_queue_nil hk
      · split
        · exact h.drain (hk.trans (drainExpired_keeps _ now true dispatchBatch)) hrest hcur
        · exact h.with_queue_nil hk

/-- The scheduler thread finds the next timer. -/
theorem Inv.copyHandler (h : Inv s) (hl : s.loop = .batch (id :: rest)) : Inv (s.copyHandler id rest) := by
  have hfind (u : ℕ) : ¬ s.loop.Holds u ∧ ¬ s.loop.Called u := by
    rw [hl]
    refine ⟨?_, ?_⟩
    · rintro (⟨id, rest, hl⟩ | ⟨id, rest, hl⟩) <;> cases hl
    · rintro ⟨id, rest, hl⟩
      cases hl
  have hpend : ∀ x ∈ s.tasks, s.queue.states.lookup x.1 = some 0 ∨ x.1 = id ∨ x.1 ∈ rest := by
    intro x hx
    refine (h.pending x hx).imp_right fun hx => ?_
    rw [hl] at hx
    rcases hx with hx | ⟨v, hv⟩
    · exact List.mem_cons.mp hx
    · cases hv
  have hwait : ∀ c u, s.waiting c = some u → u ∈ s.cancelled ∧ (u ∈ s.fulfilled ∨ (s.stopped = false ∧
      (u + 1 = id ∨ u + 1 ∈ rest) ∧ (∃ t, (u + 1, t) ∈ s.tasks) ∧ s.queue.states.lookup (u + 1) ≠ some 0)) := by
    intro c u hu
    obtain ⟨hcan, haw⟩ := h.waiting c u hu
    refine ⟨hcan, haw.imp_right fun haw => ?_⟩
    rcases haw with hrun | ⟨hst, hhold | ⟨ha, ht, hp, -⟩⟩
    · exact absurd (.inl hrun) (hfind u).1
    · exact absurd hhold (hfind u).1
    · rw [hl] at ha
      exact ⟨hst, List.mem_cons.mp ha, ht, hp⟩
  unfold World.copyHandler
  cases hf : s.find id with
  | none =>
      have hne := ne_of_find_none hf
      refine { h with current := nofun, pending := ?_, calledSet := ?_, gone := ?_, waiting := ?_ }
      · exact fun x hx => (hpend x hx).imp_right fun hx' => .inl (hx'.resolve_left (hne x hx))
      · rintro - u ⟨id', rest', hl'⟩
        cases hl'
      · refine fun u hu => ⟨fun x hx hxu => absurd ((h.gone u hu).1 x hx hxu) (hfind u).2, ?_⟩
        rintro (⟨id', rest', hl'⟩ | ⟨id', rest', hl'⟩) <;> cases hl'
      · intro c u hu
        obtain ⟨hcan, haw⟩ := hwait c u hu
        refine ⟨hcan, haw.imp_right fun ⟨hst, ha, ⟨t, ht⟩, hp⟩ => .inr ⟨hst, .inr ⟨?_, ⟨t, ht⟩, hp, nofun⟩⟩⟩
        exact ha.resolve_left (hne _ ht)
  | some task =>
      have htask := h.tasks _ (mem_of_find hf)
      refine { h with current := ?_, pending := ?_, calledSet := ?_, gone := ?_, waiting := ?_ }
      · rintro x v hv
        cases hv
        exact htask
      · intro x hx
        refine (hpend x hx).imp_right fun hx => ?_
        rcases hx with rfl | hx
        · exact .inr ⟨task.serial, rfl⟩
        · exact .inl hx
      · rintro - u ⟨id', rest', hl'⟩
        cases hl'
      · refine fun u hu => ⟨fun x hx hxu => absurd ((h.gone u hu).1 x hx hxu) (hfind u).2, ?_⟩
        rintro (⟨id', rest', hl'⟩ | ⟨id', rest', hl'⟩)
        · cases hl'
        · cases hl'
          exact (hfind _).2 ((h.gone _ hu).1 _ (mem_of_find hf) rfl)
      · intro c u hu
        obtain ⟨hcan, haw⟩ := hwait c u hu
        refine ⟨hcan, haw.imp_right fun ⟨hst, ha, ⟨t, ht⟩, hp⟩ => .inr ⟨hst, ?_⟩⟩
        by_cases he : u = task.serial
        · exact .inl (.inr ⟨id, rest, by rw [he]⟩)
        · refine .inr ⟨?_, ⟨t, ht⟩, hp, ?_⟩
          · exact ha.resolve_left fun hid => he (by have := htask.1; dsimp only at this; omega)
          · rintro x v hv
            cases hv
            exact Ne.symm he

/-- What a found task says of the promises that are set and of those that are waited for. -/
theorem Inv.found_waiting (h : Inv s) (hl : s.loop = .found id u rest) :
    (∀ v ∈ s.fulfilled, v ≠ u ∧ ∀ x ∈ s.tasks, x.2.serial ≠ v) ∧ ∀ c v, s.waiting c = some v → v ∈ s.cancelled ∧
      (v ∈ s.fulfilled ∨ s.stopped = false ∧ (v = u ∨ s.Ahead v)) := by
  refine ⟨fun v hv => ⟨?_, fun x hx hxv => ?_⟩, fun c v hv => ?_⟩
  · rintro rfl
    exact (h.gone v hv).2 (.inr ⟨_, _, hl⟩)
  · obtain ⟨id', rest', hl'⟩ := (h.gone v hv).1 x hx hxv
    rw [hl] at hl'
    cases hl'
  · obtain ⟨hcan, haw⟩ := h.waiting c v hv
    refine ⟨hcan, haw.imp_right fun haw => ?_⟩
    rcases haw with ⟨id', rest', hl'⟩ | ⟨hst, (⟨id', rest', hl'⟩ | ⟨id', rest', hl'⟩) | hahead⟩
    · rw [hl] at hl'
      cases hl'
    · rw [hl] at hl'
      cases hl'
    · rw [hl] at hl'
      cases hl'
      exact ⟨hst, .inl rfl⟩
    · exact ⟨hst, .inr hahead⟩

/-- The handler starts. -/
theorem Inv.run (h : Inv s) (hl : s.loop = .found id u rest) : Inv { s with loop := .running id u rest } := by
  obtain ⟨hful, hwait⟩ := h.found_waiting hl
  have hcur : s.loop.current = some (id, u) := by rw [hl]; rfl
  have hrest : s.loop.rest = rest := by rw [hl]; rfl
  refine { h with current := ?_, pending := ?_, calledSet := ?_, gone := ?_, waiting := ?_ }
  · exact fun x v hv => h.current x v (hcur.trans hv)
  · intro x hx
    have hp := h.pending x hx
    rwa [hrest, hcur] at hp
  · rintro - v ⟨id', rest', hl'⟩
    cases hl'
  · refine fun v hv => ⟨fun x hx hxv => absurd hxv ((hful v hv).2 x hx), ?_⟩
    rintro (⟨id', rest', hl'⟩ | ⟨id', rest', hl'⟩)
    · cases hl'
      exact (hful _ hv).1 rfl
    · cases hl'
  · intro c v hv
    obtain ⟨hcan, haw⟩ := hwait c v hv
    refine ⟨hcan, haw.imp_right fun ⟨hst, haw⟩ => ?_⟩
    rcases haw with rfl | ⟨ha, ht, hp, hne⟩
    · exact .inl ⟨id, rest, rfl⟩
    · rw [hrest] at ha
      rw [hcur] at hne
      exact .inr ⟨hst, .inr ⟨ha, ht, hp, hne⟩⟩

/-- The call of a handler is left out. -/
theorem Inv.skip (h : Inv s) (hl : s.loop = .found id u rest) (hst : s.stopped = true) :
    Inv { s with loop := .called id u rest } := by
  obtain ⟨hful, hwait⟩ := h.found_waiting hl
  have hcur : s.loop.current = some (id, u) := by rw [hl]; rfl
  have hrest : s.loop.rest = rest := by rw [hl]; rfl
  refine { h with current := ?_, pending := ?_, calledSet := ?_, gone := ?_, waiting := ?_ }
  · exact fun x v hv => h.current x v (hcur.trans hv)
  · intro x hx
    have hp := h.pending x hx
    rwa [hrest, hcur] at hp
  · exact fun hst' => absurd (hst.symm.trans hst') nofun
  · refine fun v hv => ⟨fun x hx hxv => absurd hxv ((hful v hv).2 x hx), ?_⟩
    rintro (⟨id', rest', hl'⟩ | ⟨id', rest', hl'⟩) <;> cases hl'
  · intro c v hv
    obtain ⟨hcan, haw⟩ := hwait c v hv
    exact ⟨hcan, .inl (haw.resolve_right fun haw => absurd (hst.symm.trans haw.1) nofun)⟩

/-- The promise of the task in hand is set. -/
theorem Inv.fulfil (h : Inv s) (hl : s.loop = .found id u rest ∨ s.loop = .running id u rest) :
    Inv { s with fulfilled := u :: s.fulfilled, loop := .called id u rest } := by
  have hcur : s.loop.current = some (id, u) := by rcases hl with hl | hl <;> rw [hl] <;> rfl
  have hrest : s.loop.rest = rest := by rcases hl with hl | hl <;> rw [hl] <;> rfl
  have hholds (v : ℕ) (hv : s.loop.Holds v) : v = u := by
    rcases hl with hl | hl <;> rcases hv with ⟨id', rest', hl'⟩ | ⟨id', rest', hl'⟩ <;> rw [hl] at hl' <;> cases hl' <;> rfl
  have hcalled (v : ℕ) : ¬ s.loop.Called v := by
    rintro ⟨id', rest', hl'⟩
    rcases hl with hl | hl <;> rw [hl] at hl' <;> cases hl'
  refine { h with current := ?_, pending := ?_, calledSet := ?_, old := ?_, gone := ?_, waiting := ?_ }
  · exact fun x v hv => h.current x v (hcur.trans hv)
  · intro x hx
    have hp := h.pending x hx
    rwa [hrest, hcur] at hp
  · rintro - v ⟨id', rest', hl'⟩
    cases hl'
    exact List.mem_cons_self
  · intro v hv
    rcases List.mem_cons.mp hv with rfl | hv
    · exact (h.current _ _ hcur).2
    · exact h.old v hv
  · refine fun v hv => ⟨fun x hx hxv => ?_, ?_⟩
    · rcases List.mem_cons.mp hv with rfl | hv
      · exact ⟨id, rest, rfl⟩
      · exact absurd ((h.gone v hv).1 x hx hxv) (hcalled v)
    · rintro (⟨id', rest', hl'⟩ | ⟨id', rest', hl'⟩) <;> cases hl'
  · intro c v hv
    obtain ⟨hcan, haw⟩ := h.waiting c v hv
    refine ⟨hcan, ?_⟩
    by_cases he : v = u
    · exact .inl (List.mem_cons.mpr (.inl he))
    · rcases haw with hful | hrun | ⟨hst, hhold | ⟨ha, ht, hp, hne⟩⟩
      · exact .inl (List.mem_cons_of_mem _ hful)
      · exact absurd (hholds v (.inl hrun)) he
      · exact absurd (hholds v hhold) he
      · rw [hrest] at ha
        rw [hcur] at hne
        exact .inr (.inr ⟨hst, .inr ⟨ha, ht, hp, hne⟩⟩)

theorem Inv.callHandler (h : Inv s) (hl : s.loop = .found id u rest) : Inv (s.callHandler id u rest) := by
  unfold World.callHandler
  split
  · rename_i hst
    exact h.skip hl hst
  · split
    · exact h.fulfil (.inl hl)
    · exact h.run hl

/-- The entry of a task that was called goes. -/
theorem Inv.eraseTask (h : Inv s) (hl : s.loop = .called id u rest) : Inv (s.eraseTask id rest) := by
  have hid : id = u + 1 := (h.current id u (by rw [hl]; rfl)).1
  refine { h with tasks := ?_, current := nofun, pending := ?_, calledSet := ?_, gone := ?_, waiting := ?_ }
  · exact fun x hx => h.tasks x (mem_erase.mp hx).1
  · intro x hx
    obtain ⟨hx, hne⟩ := mem_erase.mp hx
    have hp := h.pending x hx
    rw [hl] at hp
    refine hp.imp_right fun hp => .inl (hp.resolve_right ?_)
    rintro ⟨v, hv⟩
    cases hv
    exact hne rfl
  · rintro - v ⟨id', rest', hl'⟩
    cases hl'
  · refine fun v hv => ⟨fun x hx hxv => ?_, ?_⟩
    · obtain ⟨hx, hne⟩ := mem_erase.mp hx
      obtain ⟨id', rest', hl'⟩ := (h.gone v hv).1 x hx hxv
      rw [hl] at hl'
      cases hl'
      exact absurd ((h.tasks x hx).1.trans (by rw [hxv, hid])) hne
    · rintro (⟨id', rest', hl'⟩ | ⟨id', rest', hl'⟩) <;> cases hl'
  · intro c v hv
    obtain ⟨hcan, haw⟩ := h.waiting c v hv
    refine ⟨hcan, haw.imp_right fun haw => ?_⟩
    rcases haw with ⟨id', rest', hl'⟩ | ⟨hst, (⟨id', rest', hl'⟩ | ⟨id', rest', hl'⟩) | ⟨ha, ⟨t, ht⟩, hp, hne⟩⟩
    · rw [hl] at hl'
      cases hl'
    · rw [hl] at hl'
      cases hl'
    · rw [hl] at hl'
      cases hl'
    · rw [hl] at ha hne
      have hvu : v ≠ u := fun he => hne id u rfl he.symm
      exact .inr ⟨hst, .inr ⟨ha, ⟨t, mem_erase.mpr ⟨ht, by dsimp only; omega⟩⟩, hp, nofun⟩⟩

/-- Every allowed step keeps the invariant. -/
theorem Inv.step (h : Inv s) (hok : Allowed s l) (hstep : Step s l s') : Inv s' := by
  cases hstep with
  | addTask hc expire => exact h.addTask hok expire
  | @cancelReturns _ c id b hc heq =>
      rcases cancel_cases s id with ⟨-, h1⟩ | ⟨t, -, h2, h3⟩ | ⟨t, -, -, h3⟩
      · rw [h1] at heq
        cases heq
        exact h
      · rw [h3] at heq
        cases heq
        exact h.cancel_pending h2
      · rw [h3] at heq
        obtain ⟨rfl, -⟩ := Prod.mk.inj heq
        exact h.cancel_drained t
  | @cancelWaits _ c id u hc heq =>
      obtain ⟨t, hf, hdone, rfl, hnp, rfl⟩ := cancel_waits heq
      have hnot : s.queue.contains id = false := decide_eq_false (cancel_not_pending hnp).2
      obtain ⟨hne, hok⟩ := hok t hf hdone hnot
      refine (h.cancel_drained t).block hne List.mem_cons_self ?_
      exact (h.awaited hf hnp hok).take_promise id t
  | resume => exact h.unblock _
  | cancelAll => exact h.cancelAll hok
  | stop => exact h.stop hok
  | look hl now => exact h.look hl now
  | wake => exact h.with_queue_nil (nextDeadline_keeps _)
  | copy hl => exact h.copyHandler hl
  | start hl => exact h.callHandler hl
  | pass hl => exact h.callHandler hl
  | finish hl => exact h.fulfil (.inr hl)
  | erase hl => exact h.eraseTask hl
  | next hl => exact h.goto .top rfl (by rw [hl]; rfl) (by rw [hl]; rfl)

theorem Inv.init : Inv World.init where
  nextId := rfl
  bound := by decide
  marks id hid := absurd hid Finmap.notMem_empty
  tasks x hx := absurd hx List.not_mem_nil
  current := nofun
  pending x hx := absurd hx List.not_mem_nil
  calledSet := by
    rintro - u ⟨id, rest, hl⟩
    cases hl
  old u hu := absurd hu List.not_mem_nil
  gone u hu := absurd hu List.not_mem_nil
  handlerFree := rfl
  waiting := nofun

/-! ### Promises are set -/

/-- The scheduler thread is done with a task and has gone to the next timer. -/
structure Done (s s' : World) (id : ℕ) (rest : List ℕ) : Prop where
  run : ∃ ls, Run Step s ls s'
  inv : Inv s'
  loop : s'.loop = .batch rest
  tasks : s'.tasks = erase s.tasks id
  cancelled : s'.cancelled = s.cancelled
  stopped : s'.stopped = s.stopped

theorem Done.before {s₁ : World} (hd : Done s₁ s' id rest) (hstep : Step s l s₁) (htasks : s₁.tasks = s.tasks)
    (hcancelled : s₁.cancelled = s.cancelled) (hstopped : s₁.stopped = s.stopped) : Done s s' id rest where
  run := hd.run.imp' (l :: ·) fun _ => .cons hstep
  inv := hd.inv
  loop := hd.loop
  tasks := hd.tasks.trans (by rw [htasks])
  cancelled := hd.cancelled.trans hcancelled
  stopped := hd.stopped.trans hstopped

theorem Inv.done_called (h : Inv s) (hl : s.loop = .called id u rest) : ∃ s', Done s s' id rest :=
  ⟨s.eraseTask id rest, ⟨[.erase], .cons (.erase hl) (.nil _)⟩, h.eraseTask hl, rfl, rfl, rfl, rfl⟩

theorem Inv.done_running (h : Inv s) (hl : s.loop = .running id u rest) : ∃ s', Done s s' id rest := by
  obtain ⟨s', hd⟩ := (h.fulfil (.inr hl)).done_called rfl
  exact ⟨s', hd.before (.finish hl h.handlerFree) rfl rfl rfl⟩

theorem Inv.done_found (h : Inv s) (hl : s.loop = .found id u rest) : ∃ s', Done s s' id rest := by
  have h' := h.callHandler hl
  have hfields : (s.callHandler id u rest).tasks = s.tasks ∧ (s.callHandler id u rest).cancelled = s.cancelled ∧
      (s.callHandler id u rest).stopped = s.stopped := by
    unfold World.callHandler
    split
    · exact ⟨rfl, rfl, rfl⟩
    · split <;> exact ⟨rfl, rfl, rfl⟩
  have hloop : (s.callHandler id u rest).loop = .called id u rest ∧
        (s.callHandler id u rest).loop.isRunning = false ∨
      (s.callHandler id u rest).loop = .running id u rest ∧ (s.callHandler id u rest).loop.isRunning = true := by
    unfold World.callHandler
    split
    · exact .inl ⟨rfl, rfl⟩
    · split
      · exact .inl ⟨rfl, rfl⟩
      · exact .inr ⟨rfl, rfl⟩
  obtain ⟨h1, h2, h3⟩ := hfields
  rcases hloop with ⟨hl', hpass⟩ | ⟨hl', hstart⟩
  · obtain ⟨s', hd⟩ := h'.done_called hl'
    exact ⟨s', hd.before (.pass hl hpass) h1 h2 h3⟩
  · obtain ⟨s', hd⟩ := h'.done_running hl'
    exact ⟨s', hd.before (.start hl hstart) h1 h2 h3⟩

/-- The promise of a cancelled task that was found is set, unless the scheduler is stopped. -/
theorem fulfillable_found (hl : s.loop = .found id u rest) (hcan : u ∈ s.cancelled) (hst : s.stopped = false) :
    s.Fulfillable u := by
  have hcall : s.callHandler id u rest = { s with fulfilled := u :: s.fulfilled, loop := .called id u rest } := by
    rw [World.callHandler, hst, if_neg (by decide), if_pos hcan]
  refine ⟨[.pass], _, .cons (.pass hl ?_) (.nil _), ?_⟩
  · rw [hcall]
    rfl
  · rw [hcall]
    exact List.mem_cons_self

theorem World.Fulfillable.before {s₁ : World} {ls : List Label} (h : s₁.Fulfillable u) (hr : Run Step s ls s₁) :
    s.Fulfillable u := by
  obtain ⟨ls', s', hr', hu⟩ := h
  exact ⟨ls ++ ls', s', hr.append hr', hu⟩

/-- Through the batch to a cancelled task. -/
theorem Inv.fulfillable_batch (h : Inv s) (hl : s.loop = .batch rest) (hcan : u ∈ s.cancelled) (hst : s.stopped = false)
    (hu : u + 1 ∈ rest) {t : Task} (ht : (u + 1, t) ∈ s.tasks) : s.Fulfillable u := by
  induction rest generalizing s with
  | nil => cases hu
  | cons x rest ih =>
      have hcopy : Step s .copy (s.copyHandler x rest) := .copy hl
      have hrun : Run Step s [.copy] (s.copyHandler x rest) := .cons hcopy (.nil _)
      have h' := h.copyHandler hl
      refine World.Fulfillable.before ?_ hrun
      unfold World.copyHandler at h' ⊢
      cases hf : s.find x with
      | none =>
          rw [hf] at h'
          have hne : u + 1 ≠ x := ne_of_find_none hf _ ht
          exact ih h' rfl hcan hst ((List.mem_cons.mp hu).resolve_left hne) ht
      | some task =>
          rw [hf] at h'
          have hx := (h.tasks _ (mem_of_find hf)).1
          dsimp only at hx h' ⊢
          by_cases he : task.serial = u
          · subst he
            exact fulfillable_found rfl hcan hst
          · have hne : u + 1 ≠ x := by omega
            obtain ⟨s', hd⟩ := h'.done_found rfl
            obtain ⟨ls, hr⟩ := hd.run
            have ht' : (u + 1, t) ∈ s'.tasks := by
              rw [hd.tasks]
              exact mem_erase.mpr ⟨ht, hne⟩
            refine World.Fulfillable.before (ih hd.inv hd.loop ?_ ?_ ((List.mem_cons.mp hu).resolve_left hne) ht') hr
            · rw [hd.cancelled]
              exact hcan
            · rw [hd.stopped]
              exact hst

/-- No caller is blocked for good. -/
theorem Inv.fulfillable (h : Inv s) (hu : s.waiting c = some u) : s.Fulfillable u := by
  obtain ⟨hcan, haw⟩ := h.waiting c u hu
  rcases haw with hful | ⟨id, rest, hl⟩ | ⟨hst, (⟨id, rest, hl⟩ | ⟨id, rest, hl⟩) | ⟨ha, ⟨t, ht⟩, -, hne⟩⟩
  · exact ⟨[], s, .nil s, hful⟩
  · exact ⟨[.finish], _, .cons (.finish hl h.handlerFree) (.nil _), List.mem_cons_self⟩
  · exact ⟨[.finish], _, .cons (.finish hl h.handlerFree) (.nil _), List.mem_cons_self⟩
  · exact fulfillable_found hl hcan hst
  · have hdone : ∀ {id v : ℕ} {rest : List ℕ}, s.loop.current = some (id, v) → s.loop.rest = rest →
        (∃ s', Done s s' id rest) → s.Fulfillable u := by
      rintro id v rest hcur hrest ⟨s', hd⟩
      obtain ⟨ls, hr⟩ := hd.run
      have hvu : v ≠ u := hne id v hcur
      have hid := (h.current id v hcur).1
      have ht' : (u + 1, t) ∈ s'.tasks := by
        rw [hd.tasks]
        exact mem_erase.mpr ⟨ht, by dsimp only; omega⟩
      refine World.Fulfillable.before (hd.inv.fulfillable_batch hd.loop ?_ ?_ (hrest ▸ ha) ht') hr
      · rw [hd.cancelled]
        exact hcan
      · rw [hd.stopped]
        exact hst
    cases hl : s.loop with
    | batch rest =>
        rw [hl] at ha
        exact h.fulfillable_batch hl hcan hst ha ht
    | found id v rest => exact hdone (by rw [hl]; rfl) (by rw [hl]; rfl) (h.done_found hl)
    | running id v rest => exact hdone (by rw [hl]; rfl) (by rw [hl]; rfl) (h.done_running hl)
    | called id v rest => exact hdone (by rw [hl]; rfl) (by rw [hl]; rfl) (h.done_called hl)
    | top | exited =>
        rw [hl] at ha
        cases ha

/-! ### What the labels of a run say -/

/-- A handler that is cancelled or has been started does not start any more. -/
structure Past (ls : List Label) (s : World) : Prop where
  cancels : ∀ l ∈ ls, ∀ id, l.Cancels id → ∃ u, id = u + 1 ∧ u ∈ s.cancelled
  starts : ∀ l ∈ ls, ∀ id, l = .start id → ∃ u, id = u + 1 ∧ (u ∈ s.fulfilled ∨ s.loop.Runs u)
  before : ls.Pairwise Label.Before

/-- What every step keeps of the past. -/
theorem step_mono (hstep : Step s l s') : s.cancelled ⊆ s'.cancelled ∧ s.fulfilled ⊆ s'.fulfilled ∧
    ∀ u, s.loop.Runs u → u ∈ s'.fulfilled ∨ s'.loop.Runs u := by
  have hrefl : ∀ l : List ℕ, l ⊆ l := fun l => List.Subset.refl l
  have hnot : ∀ {loop : Loop}, s.loop = loop → loop.isRunning = false → ∀ u, ¬ s.loop.Runs u := by
    rintro loop hl hno u ⟨id, rest, hl'⟩
    rw [hl'] at hl
    subst hl
    cases hno
  cases hstep with
  | addTask => exact ⟨hrefl _, hrefl _, fun u hu => .inr hu⟩
  | cancelReturns hc heq | cancelWaits hc heq =>
      obtain ⟨hloop, -, hful, hcan⟩ := cancel_frame heq
      exact ⟨hcan, hful ▸ hrefl _, fun u hu => .inr (hloop ▸ hu)⟩
  | resume => exact ⟨hrefl _, hrefl _, fun u hu => .inr hu⟩
  | cancelAll => exact ⟨List.subset_append_right _ _, hrefl _, fun u hu => .inr hu⟩
  | stop => exact ⟨hrefl _, hrefl _, fun u hu => .inr hu⟩
  | look hl now =>
      refine ⟨?_, ?_, fun u hu => absurd hu (hnot hl rfl u)⟩ <;>
      · unfold World.look
        split
        · exact hrefl _
        · split
          · exact hrefl _
          · dsimp only
            split
            · exact hrefl _
            · split <;> exact hrefl _
  | wake => exact ⟨hrefl _, hrefl _, fun u hu => .inr hu⟩
  | copy hl =>
      refine ⟨?_, ?_, fun u hu => absurd hu (hnot hl rfl u)⟩ <;>
      · unfold World.copyHandler
        split <;> exact hrefl _
  | start hl | pass hl =>
      refine ⟨?_, ?_, fun u hu => absurd hu (hnot hl rfl u)⟩ <;>
      · unfold World.callHandler
        split
        · exact hrefl _
        · split
          · first | exact hrefl _ | exact List.subset_cons_self _ _
          · exact hrefl _
  | finish hl =>
      refine ⟨hrefl _, List.subset_cons_self _ _, ?_⟩
      rintro u ⟨id, rest, hl'⟩
      rw [hl] at hl'
      cases hl'
      exact .inl List.mem_cons_self
  | erase hl => exact ⟨hrefl _, hrefl _, fun u hu => absurd hu (hnot hl rfl u)⟩
  | next hl => exact ⟨hrefl _, hrefl _, fun u hu => absurd hu (hnot hl rfl u)⟩

/-- A `cancel` that returns true or waits sets the flag of the task. -/
theorem Inv.cancels (h : Inv s) (hstep : Step s l s') (hl : l.Cancels id) : ∃ u, id = u + 1 ∧ u ∈ s'.cancelled := by
  obtain ⟨c, r, rfl, hr⟩ := hl
  have hmem : ∃ t, s.find id = some t ∧ t.serial ∈ s'.cancelled := by
    cases hstep with
    | cancelReturns hc heq => exact cancel_marks heq fun he => hr (congrArg some (CancelResult.returns.inj he))
    | cancelWaits hc heq =>
        have := cancel_marks heq (fun he => by cases he)
        exact this
  obtain ⟨t, hf, hmem⟩ := hmem
  exact ⟨t.serial, (h.tasks _ (mem_of_find hf)).1, hmem⟩

/-- A handler that starts was not cancelled and has not started. -/
theorem Inv.starts (h : Inv s) (hstep : Step s (.start id) s') :
    ∃ u, id = u + 1 ∧ u ∉ s.cancelled ∧ u ∉ s.fulfilled ∧ ¬ s.loop.Runs u ∧ s'.loop.Runs u := by
  cases hstep with
  | @start _ u rest hl hstart =>
      have hcur := h.current id u (by rw [hl]; rfl)
      unfold World.callHandler at hstart ⊢
      split at hstart
      · cases hstart
      · split at hstart
        · cases hstart
        · rename_i hst hcan
          rw [if_neg hst, if_neg hcan]
          refine ⟨u, hcur.1, hcan, ((h.found_waiting hl).1 u · |>.1 rfl), ?_, id, rest, rfl⟩
          rintro ⟨id', rest', hl'⟩
          rw [hl] at hl'
          cases hl'

theorem Past.step {ls : List Label} (hp : Past ls s) (h : Inv s) (hstep : Step s l s') : Past (ls ++ [l]) s' := by
  obtain ⟨hcan, hful, hrun⟩ := step_mono hstep
  refine ⟨?_, ?_, ?_⟩
  · intro l' hl' id hid
    rcases List.mem_append.mp hl' with hl' | hl'
    · obtain ⟨u, hu, hmem⟩ := hp.cancels l' hl' id hid
      exact ⟨u, hu, hcan hmem⟩
    · rw [List.mem_singleton.mp hl'] at hid
      exact h.cancels hstep hid
  · intro l' hl' id hid
    rcases List.mem_append.mp hl' with hl' | hl'
    · obtain ⟨u, hu, hmem⟩ := hp.starts l' hl' id hid
      refine ⟨u, hu, ?_⟩
      rcases hmem with hmem | hmem
      · exact .inl (hful hmem)
      · exact hrun u hmem
    · rw [List.mem_singleton.mp hl'] at hid
      subst hid
      obtain ⟨u, hu, -, -, -, hr⟩ := h.starts hstep
      exact ⟨u, hu, .inr hr⟩
  · refine List.pairwise_append.mpr ⟨hp.before, List.pairwise_singleton _ _, fun l' hl' l'' hl'' id hid => ?_⟩
    rw [List.mem_singleton.mp hl''] at hid
    subst hid
    obtain ⟨u, rfl, hnc, hnf, hnr, -⟩ := h.starts hstep
    refine ⟨fun hs => ?_, fun hc => ?_⟩
    · obtain ⟨v, hv, hmem⟩ := hp.starts l' hl' _ hs
      obtain rfl : u = v := by omega
      exact hmem.elim hnf hnr
    · obtain ⟨v, hv, hmem⟩ := hp.cancels l' hl' _ hc
      obtain rfl : u = v := by omega
      exact hnc hmem

/-- **Cancellation is decisive** in every run of allowed steps. -/
theorem cancellation_decisive (ls : List Label) (s : World) (hr : Run (Guarded Allowed Step) World.init ls s) :
    ls.Pairwise Label.Before ∧ ∀ c u, s.waiting c = some u → s.Fulfillable u := by
  have h : Inv s ∧ Past ls s := by
    refine Run.history (P := fun ls s => Inv s ∧ Past ls s) hr ?_ ?_
    · exact ⟨.init, nofun, nofun, .nil⟩
    · rintro ls s l s' ⟨hinv, hpast⟩ ⟨hok, hstep⟩
      exact ⟨hinv.step hok hstep, hpast.step hinv hstep⟩
  exact ⟨h.2.before, fun c u hu => h.1.fulfillable hu⟩

/-- The handler of the first timer is running. -/
def firstRunning : World := (((World.init.addTask 0).1.look 0).copyHandler 1 []).callHandler 1 0 []

def firstLabels : List Label := [.addTask (.thread 0) 0 1, .look 0, .copy, .start 1]

theorem run_firstRunning : Run (Guarded Allowed Step) World.init firstLabels firstRunning := by
  have h0 : World.init.Free (.thread 0) := ⟨rfl, nofun⟩
  have h1 : Step .init (.addTask (.thread 0) 0 1) (World.init.addTask 0).1 := .addTask h0 0
  have h2 : Step (World.init.addTask 0).1 (.look 0) ((World.init.addTask 0).1.look 0) := .look rfl 0
  have h3 : Step ((World.init.addTask 0).1.look 0) .copy (((World.init.addTask 0).1.look 0).copyHandler 1 []) := .copy rfl
  have h4 : Step (((World.init.addTask 0).1.look 0).copyHandler 1 []) (.start 1) firstRunning := .start rfl rfl
  have hid : World.init.queue.nextId ≠ 0 := Nat.one_ne_zero
  exact .cons ⟨hid, h1⟩ (.cons ⟨trivial, h2⟩ (.cons ⟨trivial, h3⟩ (.cons ⟨trivial, h4⟩ (.nil _))))

/-- A thread that cancels the timer whose handler is running. -/
theorem cancellation_decisive_sample :
    (firstLabels ++ [Label.cancel (.thread 1) 1 none]).Pairwise Label.Before ∧ ∀ c u,
      Function.update (firstRunning.cancel 1).1.waiting (.thread 1) (some 0) c = some u →
        World.Fulfillable { (firstRunning.cancel 1).1 with
          waiting := Function.update (firstRunning.cancel 1).1.waiting (.thread 1) (some 0) } u := by
  have hfree : firstRunning.Free (.thread 1) := ⟨rfl, nofun⟩
  have hstep : Step firstRunning (.cancel (.thread 1) 1 none)
      { (firstRunning.cancel 1).1 with
        waiting := Function.update (firstRunning.cancel 1).1.waiting (.thread 1) (some 0) } :=
    .cancelWaits hfree rfl
  have hok : Allowed firstRunning (.cancel (.thread 1) 1 none) := by
    intro task hf _ _
    have hf' : firstRunning.find 1 = some ⟨0, true⟩ := rfl
    cases hf'.symm.trans hf
    exact ⟨nofun, .inr (.inr ⟨1, [], rfl⟩)⟩
  exact cancellation_decisive _ _ (run_firstRunning.append (.cons ⟨hok, hstep⟩ (.nil _)))

/-! ### A handler that cancels its own timer -/

/-- A handler waits for its own promise. -/
structure World.SelfWaiting (s : World) (id u : ℕ) (rest : List ℕ) : Prop where
  loop : s.loop = .running id u rest
  waiting : s.waiting .handler = some u
  unset : u ∉ s.fulfilled

/-- It waits whatever the others do. -/
theorem World.SelfWaiting.step (h : s.SelfWaiting id u rest) (hstep : Step s l s') : s'.SelfWaiting id u rest := by
  have hfree {c : Caller} (hc : s.Free c) : Caller.handler ≠ c := by
    rintro rfl
    exact absurd (h.waiting.symm.trans hc.1) nofun
  have hloop {loop : Loop} (hl : s.loop = loop) : loop = .running id u rest := hl.symm.trans h.loop
  cases hstep with
  | addTask => exact ⟨h.loop, h.waiting, h.unset⟩
  | cancelReturns hc heq =>
      obtain ⟨hl, hwait, hful, -⟩ := cancel_frame heq
      exact ⟨hl.trans h.loop, hwait ▸ h.waiting, hful ▸ h.unset⟩
  | cancelWaits hc heq =>
      obtain ⟨hl, hwait, hful, -⟩ := cancel_frame heq
      exact ⟨hl.trans h.loop, (Function.update_of_ne (hfree hc) _ _).trans (hwait ▸ h.waiting), hful ▸ h.unset⟩
  | @resume c v hc hv =>
      refine ⟨h.loop, ?_, h.unset⟩
      refine (Function.update_of_ne ?_ _ _).trans h.waiting
      rintro rfl
      rw [h.waiting] at hc
      cases hc
      exact h.unset hv
  | cancelAll => exact ⟨h.loop, h.waiting, h.unset⟩
  | stop => exact ⟨h.loop, h.waiting, h.unset⟩
  | finish hl hf => exact absurd (hf.symm.trans h.waiting) nofun
  | look hl | wake hl | copy hl | start hl | pass hl | erase hl | next hl => cases hloop hl

theorem World.SelfWaiting.not_fulfillable (h : s.SelfWaiting id u rest) : ¬ s.Fulfillable u := by
  rintro ⟨ls, s', hr, hu⟩
  have h' : s'.SelfWaiting id u rest := Run.invariant (P := fun s => s.SelfWaiting id u rest) hr h fun h hstep => h.step hstep
  exact h'.unset hu

/-- A timer is added and expires, its handler starts and cancels the timer. -/
theorem own_cancel_blocks : ¬ Decisive Step := by
  intro h
  have hstep : Step firstRunning (.cancel .handler 1 none)
      { (firstRunning.cancel 1).1 with
        waiting := Function.update (firstRunning.cancel 1).1.waiting .handler (some 0) } :=
    .cancelWaits ⟨rfl, fun _ => rfl⟩ rfl
  have hr := (run_firstRunning.mono fun h => h.2).append (.cons hstep (.nil _))
  exact World.SelfWaiting.not_fulfillable ⟨rfl, rfl, show 0 ∉ ([] : List ℕ) from List.not_mem_nil⟩
    ((h _ _ hr).2 .handler 0 rfl)

end NeForce.Scheduler
