import Mathlib.Data.List.Nodup
import Mathlib.Logic.Function.Basic
import NeForce.Runs

/-! # The strand

`strand` runs handlers one after another: `locked_` is held from the moment a handler is taken until it has returned, by
the thread that takes it and then by the task that it becomes.

* **Agents.**  An agent is a call of `post` or `dispatch`, or a task of the `io_context`; calls that a handler makes are
  agents of their own.  Every access to `locked_` or to the queue is one step, and so are the start and the end of a
  handler.  A call's index also stands for its handler.
* **Ghosts.**  `posted` and `started` are the handlers that were handed over and those that were started. -/

namespace NeForce.Strand

/-- Where an agent is.  `failure` is what `dispatch` is to throw again at its end. -/
inductive Phase where
  | idle
  | posting
  | entry (failure : Bool)
  | popping (failure : Bool)
  | emptied (failure : Bool)
  | recheck (failure : Bool)
  | scheduling (failure : Bool) (handler : ℕ)
  | direct
  | running
  | finished (failure : Bool)
  | task (handler : ℕ)
  | taskRunning (handler : ℕ)
  | taskFinished
  | done (failure : Bool)

structure World where
  locked : Bool
  queue : List ℕ
  phases : ℕ → Phase
  posted : List ℕ
  started : List ℕ

def World.new : World := ⟨false, [], fun _ => .idle, [], []⟩

def World.set (w : World) (i : ℕ) (p : Phase) : World := { w with phases := Function.update w.phases i p }

inductive Action where
  | post (i : ℕ)
  | dispatch (i : ℕ)
  | schedule (i task : ℕ)
  | step (i : ℕ) (failure : Bool)

/-- The next step of an agent; `failure` is whether a handler that ends here throws. -/
def step (w : World) (i : ℕ) (failure : Bool) : World :=
  match w.phases i with
  | .posting => { w.set i (.entry false) with queue := w.queue ++ [i], posted := w.posted ++ [i] }
  | .entry f => if w.locked then w.set i (.done f) else { w.set i (.popping f) with locked := true }
  | .popping f =>
      match w.queue with
      | [] => w.set i (.emptied f)
      | handler :: queue => { w.set i (.scheduling f handler) with queue := queue }
  | .emptied f => { w.set i (.recheck f) with locked := false }
  | .recheck f => if w.queue.isEmpty then w.set i (.done f) else w.set i (.entry f)
  | .direct => { w.set i .running with started := w.started ++ [i] }
  | .running => w.set i (.finished failure)
  | .finished f => { w.set i (.entry f) with locked := false }
  | .task handler => { w.set i (.taskRunning handler) with started := w.started ++ [handler] }
  | .taskRunning _ => w.set i .taskFinished
  | .taskFinished => { w.set i (.entry false) with locked := false }
  | .idle | .scheduling _ _ | .done _ => w

def act (w : World) : Action → World
  | .post i =>
      match w.phases i with
      | .idle => w.set i .posting
      | _ => w
  | .dispatch i =>
      match w.phases i with
      | .idle => if w.locked then w.set i .posting else { w.set i .direct with locked := true, posted := w.posted ++ [i] }
      | _ => w
  | .schedule i task =>
      match w.phases i, w.phases task with
      | .scheduling f handler, .idle => (w.set i (.done f)).set task (.task handler)
      | _, _ => w
  | .step i failure => step w i failure

def run (actions : List Action) : World := actions.foldl act .new

/-! ### Invariants -/

/-- The agent holds `locked_`. -/
def Phase.Holds : Phase → Prop
  | .popping _ | .emptied _ | .scheduling _ _ | .direct | .running | .finished _ | .task _ | .taskRunning _ | .taskFinished =>
      True
  | .idle | .posting | .entry _ | .recheck _ | .done _ => False

/-- The agent is neither in `drain_one` nor in `dispatch` with a handler, and no task of the strand. -/
def Phase.Resting : Phase → Prop
  | .idle | .posting | .done _ => True
  | _ => False

/-- The agent's handler is not handed over, or not started by `dispatch`. -/
def Phase.Unstarted : Phase → Prop
  | .idle | .posting | .direct => True
  | _ => False

/-- The handler is on its way from the queue to its start. -/
def Phase.Carries (handler : ℕ) : Phase → Prop
  | .scheduling _ h | .task h => h = handler
  | _ => False

/-- The agent runs a handler. -/
def Phase.Runs : Phase → Prop
  | .running | .taskRunning _ => True
  | _ => False

/-- One holder of the lock, or none. -/
def LockOk (locked : Bool) (phases : ℕ → Phase) : Prop :=
  ∃ owner : Option ℕ, locked = owner.isSome ∧ ∀ i, (phases i).Holds ↔ owner = some i

/-- Someone will look at a queue that is not empty. -/
def WakeOk (queue : List ℕ) (phases : ℕ → Phase) : Prop := queue ≠ [] → ∃ i, ¬(phases i).Resting

/-- Every handler is in one place. -/
structure HandlersOk (queue posted started : List ℕ) (phases : ℕ → Phase) : Prop where
  queueNodup : queue.Nodup
  startedNodup : started.Nodup
  unstarted : ∀ h, (phases h).Unstarted → h ∉ queue ∧ h ∉ started ∧ ∀ i, ¬(phases i).Carries h
  queued : ∀ h ∈ queue, h ∉ started ∧ ∀ i, ¬(phases i).Carries h
  carried : ∀ i h, (phases i).Carries h → h ∉ started
  complete : ∀ h ∈ posted, h ∈ queue ∨ h ∈ started ∨ phases h = .direct ∨ ∃ i, (phases i).Carries h

structure Good (w : World) : Prop where
  lock : LockOk w.locked w.phases
  wake : WakeOk w.queue w.phases
  handlers : HandlersOk w.queue w.posted w.started w.phases

variable {locked : Bool} {phases : ℕ → Phase} {queue posted started : List ℕ} {i t : ℕ} {p q : Phase}

/-! ### The lock -/

theorem LockOk.keep (h : LockOk locked phases) (hp : p.Holds ↔ (phases i).Holds) :
    LockOk locked (Function.update phases i p) := by
  obtain ⟨owner, hl, hown⟩ := h
  refine ⟨owner, hl, fun j => ?_⟩
  by_cases hj : j = i
  · rw [hj, Function.update_self, hp, hown]
  · rw [Function.update_of_ne hj, hown]

theorem LockOk.acquire (h : LockOk false phases) (hp : p.Holds) : LockOk true (Function.update phases i p) := by
  obtain ⟨owner, hl, hown⟩ := h
  obtain rfl : owner = none := by
    cases owner with
    | none => rfl
    | some j => cases hl
  refine ⟨some i, rfl, fun j => ?_⟩
  by_cases hj : j = i
  · rw [hj, Function.update_self]
    exact iff_of_true hp rfl
  · rw [Function.update_of_ne hj, hown]
    exact iff_of_false (fun h => by cases h) fun h => hj (Option.some.inj h).symm

theorem LockOk.release (h : LockOk locked phases) (hi : (phases i).Holds) (hp : ¬p.Holds) :
    LockOk false (Function.update phases i p) := by
  obtain ⟨owner, hl, hown⟩ := h
  have howner := (hown i).mp hi
  refine ⟨none, rfl, fun j => iff_of_false ?_ fun h => by cases h⟩
  by_cases hj : j = i
  · rwa [hj, Function.update_self]
  · rw [Function.update_of_ne hj, hown, howner]
    exact fun h => hj (Option.some.inj h).symm

/-- The lock goes from the agent that posts a task to the task. -/
theorem LockOk.transfer (h : LockOk locked phases) (hi : (phases i).Holds) (hp : ¬p.Holds) (hq : q.Holds) :
    LockOk locked (Function.update (Function.update phases i p) t q) := by
  obtain ⟨owner, hl, hown⟩ := id h
  have hlocked : locked = true := by rw [hl, (hown i).mp hi]; rfl
  rw [hlocked]
  exact (h.release hi hp).acquire hq

theorem LockOk.unique (h : LockOk locked phases) {j : ℕ} (hi : (phases i).Holds) (hj : (phases j).Holds) : i = j := by
  obtain ⟨owner, hl, hown⟩ := h
  exact Option.some.inj (((hown i).mp hi).symm.trans ((hown j).mp hj))

theorem LockOk.holder (h : LockOk true phases) : ∃ i, (phases i).Holds := by
  obtain ⟨owner, hl, hown⟩ := h
  cases owner with
  | none => cases hl
  | some i => exact ⟨i, (hown i).mpr rfl⟩

theorem Phase.Holds.not_resting (h : p.Holds) : ¬p.Resting := by
  cases p <;> simp_all [Phase.Holds, Phase.Resting]

/-! ### Wake-ups -/

theorem WakeOk.active (hp : ¬p.Resting) (queue : List ℕ) (phases : ℕ → Phase) (i : ℕ) :
    WakeOk queue (Function.update phases i p) := by
  intro _
  exact ⟨i, by rwa [Function.update_self]⟩

/-- An agent may rest if another does not. -/
theorem WakeOk.rest (h : WakeOk queue phases) (hi : (phases i).Resting) : WakeOk queue (Function.update phases i p) := by
  intro hne
  obtain ⟨j, hj⟩ := h hne
  have hji : j ≠ i := by
    rintro rfl
    exact hj hi
  exact ⟨j, by rwa [Function.update_of_ne hji]⟩

theorem WakeOk.of_holder (h : LockOk true phases) (hi : ¬(phases i).Holds) (queue : List ℕ) (p : Phase) :
    WakeOk queue (Function.update phases i p) := by
  intro _
  obtain ⟨j, hj⟩ := h.holder
  have hji : j ≠ i := by
    rintro rfl
    exact hi hj
  exact ⟨j, by rw [Function.update_of_ne hji]; exact hj.not_resting⟩

/-! ### Handlers -/

/-- A step that moves no handler. -/
theorem HandlersOk.move (h : HandlersOk queue posted started phases) (hu : p.Unstarted → (phases i).Unstarted)
    (hc : ∀ k, p.Carries k ↔ (phases i).Carries k) (hd : phases i = .direct → p = .direct) :
    HandlersOk queue posted started (Function.update phases i p) := by
  have hcarries (j k : ℕ) : (Function.update phases i p j).Carries k ↔ (phases j).Carries k := by
    by_cases hj : j = i
    · rw [hj, Function.update_self, hc]
    · rw [Function.update_of_ne hj]
  have hunstarted (k : ℕ) (hk : (Function.update phases i p k).Unstarted) : (phases k).Unstarted := by
    by_cases hj : k = i
    · rw [hj, Function.update_self] at hk
      exact hj ▸ hu hk
    · rwa [Function.update_of_ne hj] at hk
  refine ⟨h.queueNodup, h.startedNodup, fun k hk => ?_, fun k hk => ?_, fun j k hk => ?_, fun k hk => ?_⟩
  · simpa only [hcarries] using h.unstarted k (hunstarted k hk)
  · simpa only [hcarries] using h.queued k hk
  · exact h.carried j k ((hcarries j k).mp hk)
  · simp only [hcarries]
    refine (h.complete k hk).imp_right (Or.imp_right (Or.imp_left fun hdirect => ?_))
    by_cases hj : k = i
    · rw [hj, Function.update_self]
      exact hd (hj ▸ hdirect)
    · rwa [Function.update_of_ne hj]

theorem Phase.Carries.holds {k : ℕ} (h : p.Carries k) : p.Holds := by
  cases p <;> simp_all [Phase.Carries, Phase.Holds]

theorem carries_update (k j : ℕ) :
    (Function.update phases i p j).Carries k ↔ j = i ∧ p.Carries k ∨ j ≠ i ∧ (phases j).Carries k := by
  by_cases hj : j = i
  · simp [hj]
  · simp [hj]

theorem unstarted_update (k : ℕ) :
    (Function.update phases i p k).Unstarted ↔ k = i ∧ p.Unstarted ∨ k ≠ i ∧ (phases k).Unstarted := by
  by_cases hj : k = i
  · simp [hj]
  · simp [hj]

/-- `post` hands a handler over to the queue. -/
theorem HandlersOk.push (h : HandlersOk queue posted started phases) (hi : phases i = .posting) (f : Bool) :
    HandlersOk (queue ++ [i]) (posted ++ [i]) started (Function.update phases i (.entry f)) := by
  obtain ⟨hq, hs, hc⟩ := h.unstarted i (by rw [hi]; exact trivial)
  have hcarries (j k : ℕ) (hk : (Function.update phases i (.entry f) j).Carries k) : (phases j).Carries k := by
    rw [carries_update] at hk
    exact hk.elim (fun hk => hk.2.elim) fun hk => hk.2
  refine ⟨?_, h.startedNodup, fun k hk => ?_, fun k hk => ?_, fun j k hk => h.carried j k (hcarries j k hk), fun k hk => ?_⟩
  · exact h.queueNodup.append (List.nodup_singleton i) (List.disjoint_singleton.mpr hq)
  · rw [unstarted_update] at hk
    obtain ⟨hne, hk⟩ := hk.resolve_left fun hk => hk.2
    obtain ⟨h1, h2, h3⟩ := h.unstarted k hk
    refine ⟨?_, h2, fun j hj => h3 j (hcarries j k hj)⟩
    rw [List.mem_append, List.mem_singleton, not_or]
    exact ⟨h1, hne⟩
  · rcases List.mem_append.mp hk with hk | hk
    · exact ⟨(h.queued k hk).1, fun j hj => (h.queued k hk).2 j (hcarries j k hj)⟩
    · rw [List.mem_singleton.mp hk]
      exact ⟨hs, fun j hj => hc j (hcarries j i hj)⟩
  · rcases List.mem_append.mp hk with hk | hk
    · rcases h.complete k hk with hk' | hk' | hk' | ⟨j, hj⟩
      · exact .inl (List.mem_append_left _ hk')
      · exact .inr (.inl hk')
      · refine .inr (.inr (.inl ?_))
        rw [Function.update_of_ne]
        · exact hk'
        · rintro rfl
          rw [hi] at hk'
          cases hk'
      · refine .inr (.inr (.inr ⟨j, (carries_update k j).mpr (.inr ⟨?_, hj⟩)⟩))
        rintro rfl
        rw [hi] at hj
        exact hj
    · exact .inl (List.mem_append_right _ hk)

/-- `dispatch` takes the lock with its handler. -/
theorem HandlersOk.takeDirect (h : HandlersOk queue posted started phases) (hi : phases i = .idle) :
    HandlersOk queue (posted ++ [i]) started (Function.update phases i .direct) := by
  have hmove := h.move (i := i) (p := .direct) (fun _ => by rw [hi]; exact trivial)
    (fun k => by rw [hi]; exact Iff.rfl) fun _ => rfl
  refine ⟨hmove.queueNodup, hmove.startedNodup, hmove.unstarted, hmove.queued, hmove.carried, fun k hk => ?_⟩
  rcases List.mem_append.mp hk with hk | hk
  · exact hmove.complete k hk
  · rw [List.mem_singleton.mp hk]
    exact .inr (.inr (.inl (Function.update_self _ _ _)))

/-- `drain_one` takes a handler from the queue. -/
theorem HandlersOk.pop {k : ℕ} {f f' : Bool} (h : HandlersOk (k :: queue) posted started phases)
    (hi : phases i = .popping f) : HandlersOk queue posted started (Function.update phases i (.scheduling f' k)) := by
  obtain ⟨hnot, hnodup⟩ := List.nodup_cons.mp h.queueNodup
  have hcarries (j l : ℕ) (hl : (Function.update phases i (.scheduling f' k) j).Carries l) :
      j = i ∧ k = l ∨ (phases j).Carries l := by
    rw [carries_update] at hl
    exact hl.imp id fun hl => hl.2
  have hkept {l : ℕ} (hl : phases l = .direct) : Function.update phases i (.scheduling f' k) l = .direct := by
    rw [Function.update_of_ne]
    · exact hl
    · rintro rfl
      rw [hi] at hl
      cases hl
  refine ⟨hnodup, h.startedNodup, fun l hl => ?_, fun l hl => ?_, fun j l hl => ?_, fun l hl => ?_⟩
  · rw [unstarted_update] at hl
    obtain ⟨-, hl⟩ := hl.resolve_left fun hl => hl.2
    obtain ⟨h1, h2, h3⟩ := h.unstarted l hl
    refine ⟨fun hq => h1 (List.mem_cons_of_mem _ hq), h2, fun j hj => ?_⟩
    rcases hcarries j l hj with ⟨-, rfl⟩ | hj
    · exact h1 List.mem_cons_self
    · exact h3 j hj
  · obtain ⟨h1, h2⟩ := h.queued l (List.mem_cons_of_mem _ hl)
    refine ⟨h1, fun j hj => ?_⟩
    rcases hcarries j l hj with ⟨-, rfl⟩ | hj
    · exact hnot hl
    · exact h2 j hj
  · rcases hcarries j l hl with ⟨-, rfl⟩ | hl
    · exact (h.queued k List.mem_cons_self).1
    · exact h.carried j l hl
  · rcases h.complete l hl with hl | hl | hl | ⟨j, hj⟩
    · rcases List.mem_cons.mp hl with rfl | hl
      · exact .inr (.inr (.inr ⟨i, (carries_update l i).mpr (.inl ⟨rfl, rfl⟩)⟩))
      · exact .inl hl
    · exact .inr (.inl hl)
    · exact .inr (.inr (.inl (hkept hl)))
    · refine .inr (.inr (.inr ⟨j, (carries_update l j).mpr (.inr ⟨?_, hj⟩)⟩))
      rintro rfl
      rw [hi] at hj
      exact hj

/-- The task carries the handler on. -/
theorem HandlersOk.schedule {k : ℕ} {f f' : Bool} (h : HandlersOk queue posted started phases)
    (hi : phases i = .scheduling f k) (ht : phases t = .idle) :
    HandlersOk queue posted started (Function.update (Function.update phases i (.done f')) t (.task k)) := by
  have hti : t ≠ i := by
    rintro rfl
    rw [hi] at ht
    cases ht
  have hk : (phases i).Carries k := by
    rw [hi]
    exact rfl
  have hcarries (j l : ℕ) (hl : (Function.update (Function.update phases i (.done f')) t (.task k) j).Carries l) :
      k = l ∨ (phases j).Carries l := by
    rw [carries_update, carries_update] at hl
    rcases hl with ⟨-, hl⟩ | ⟨-, ⟨-, hl⟩ | ⟨-, hl⟩⟩
    · exact .inl hl
    · exact hl.elim
    · exact .inr hl
  have hunstarted (l : ℕ) (hl : (Function.update (Function.update phases i (.done f')) t (.task k) l).Unstarted) :
      (phases l).Unstarted := by
    rw [unstarted_update, unstarted_update] at hl
    rcases hl with ⟨-, hl⟩ | ⟨-, ⟨-, hl⟩ | ⟨-, hl⟩⟩
    · exact hl.elim
    · exact hl.elim
    · exact hl
  refine ⟨h.queueNodup, h.startedNodup, fun l hl => ?_, fun l hl => ?_, fun j l hl => ?_, fun l hl => ?_⟩
  · obtain ⟨h1, h2, h3⟩ := h.unstarted l (hunstarted l hl)
    refine ⟨h1, h2, fun j hj => ?_⟩
    rcases hcarries j l hj with rfl | hj
    · exact h3 i hk
    · exact h3 j hj
  · obtain ⟨h1, h2⟩ := h.queued l hl
    refine ⟨h1, fun j hj => ?_⟩
    rcases hcarries j l hj with rfl | hj
    · exact h2 i hk
    · exact h2 j hj
  · rcases hcarries j l hl with rfl | hl
    · exact h.carried i k hk
    · exact h.carried j l hl
  · have hnew (j : ℕ) (hj : j ≠ t ∧ j ≠ i) (hl : (phases j).Carries l) :
        (Function.update (Function.update phases i (.done f')) t (.task k) j).Carries l := by
      rwa [Function.update_of_ne hj.1, Function.update_of_ne hj.2]
    rcases h.complete l hl with hl | hl | hl | ⟨j, hj⟩
    · exact .inl hl
    · exact .inr (.inl hl)
    · refine .inr (.inr (.inl ?_))
      rw [Function.update_of_ne, Function.update_of_ne]
      · exact hl
      · rintro rfl
        rw [hi] at hl
        cases hl
      · rintro rfl
        rw [ht] at hl
        cases hl
    · refine .inr (.inr (.inr ?_))
      by_cases hji : j = i
      · rw [hji, hi] at hj
        refine ⟨t, ?_⟩
        rw [Function.update_self]
        exact hj
      · refine ⟨j, hnew j ⟨?_, hji⟩ hj⟩
        rintro rfl
        rw [ht] at hj
        exact hj

/-- A handler starts, in `dispatch` or in its task. -/
theorem HandlersOk.start {k : ℕ} (h : HandlersOk queue posted started phases)
    (hi : phases i = .direct ∧ k = i ∨ phases i = .task k) (hunique : ∀ j l, (phases j).Carries l → j = i)
    (hu : ¬p.Unstarted) (hc : ∀ l, ¬p.Carries l) : HandlersOk queue posted (started ++ [k]) (Function.update phases i p) := by
  have hcarries (j l : ℕ) : ¬(Function.update phases i p j).Carries l := by
    rw [carries_update]
    rintro (⟨-, hl⟩ | ⟨hj, hl⟩)
    · exact hc l hl
    · exact hj (hunique j l hl)
  have hk : k ∉ queue ∧ k ∉ started := by
    rcases hi with ⟨hi, rfl⟩ | hi
    · obtain ⟨h1, h2, -⟩ := h.unstarted k (by rw [hi]; exact trivial)
      exact ⟨h1, h2⟩
    · have hk : (phases i).Carries k := by
        rw [hi]
        exact rfl
      exact ⟨fun hq => (h.queued k hq).2 i hk, h.carried i k hk⟩
  have hne {l : ℕ} (hl : (Function.update phases i p l).Unstarted) : l ≠ i ∧ (phases l).Unstarted := by
    rw [unstarted_update] at hl
    exact hl.resolve_left fun hl => hu hl.2
  refine ⟨h.queueNodup, ?_, fun l hl => ?_, fun l hl => ?_, fun j l hl => absurd hl (hcarries j l), fun l hl => ?_⟩
  · exact h.startedNodup.append (List.nodup_singleton k) (List.disjoint_singleton.mpr hk.2)
  · obtain ⟨hli, hl⟩ := hne hl
    obtain ⟨h1, h2, h3⟩ := h.unstarted l hl
    refine ⟨h1, ?_, fun j => hcarries j l⟩
    rw [List.mem_append, List.mem_singleton, not_or]
    refine ⟨h2, ?_⟩
    rintro rfl
    rcases hi with ⟨-, rfl⟩ | hi
    · exact hli rfl
    · exact h3 i (by rw [hi]; exact rfl)
  · refine ⟨?_, fun j => hcarries j l⟩
    rw [List.mem_append, List.mem_singleton, not_or]
    refine ⟨(h.queued l hl).1, ?_⟩
    rintro rfl
    exact hk.1 hl
  · rcases h.complete l hl with hl | hl | hl | ⟨j, hj⟩
    · exact .inl hl
    · exact .inr (.inl (List.mem_append_left _ hl))
    · by_cases hli : l = i
      · rcases hi with ⟨-, rfl⟩ | hi
        · exact .inr (.inl (List.mem_append_right _ (List.mem_singleton.mpr hli)))
        · rw [hli, hi] at hl
          cases hl
      · refine .inr (.inr (.inl ?_))
        rwa [Function.update_of_ne hli]
    · obtain rfl := hunique j l hj
      rcases hi with ⟨hi, -⟩ | hi
      · rw [hi] at hj
        exact hj.elim
      · rw [hi] at hj
        obtain rfl : k = l := hj
        exact .inr (.inl (List.mem_append_right _ (List.mem_singleton.mpr rfl)))

/-! ### Runs -/

theorem step_good {w : World} (h : Good w) (i : ℕ) (failure : Bool) : Good (step w i failure) := by
  obtain ⟨hl, hw, hh⟩ := h
  have hmove {p : Phase} (hu : ¬p.Unstarted) (hc : ∀ k, ¬p.Carries k) (hi : ∀ k, ¬(w.phases i).Carries k)
      (hd : w.phases i ≠ .direct) : HandlersOk w.queue w.posted w.started (Function.update w.phases i p) :=
    hh.move (fun h => absurd h hu) (fun k => iff_of_false (hc k) (hi k)) fun h => absurd h hd
  unfold step
  cases hp : w.phases i with
  | idle => exact ⟨hl, hw, hh⟩
  | done f => exact ⟨hl, hw, hh⟩
  | scheduling f k => exact ⟨hl, hw, hh⟩
  | posting => exact ⟨hl.keep (by rw [hp]; exact Iff.rfl), .active id _ _ _, hh.push hp false⟩
  | entry f =>
      dsimp only
      split
      · next hlocked =>
        rw [hlocked] at hl
        refine ⟨?_, .of_holder hl (by rw [hp]; exact id) _ _, hmove id (fun _ => id) (by simp [hp, Phase.Carries]) (by simp [hp])⟩
        show LockOk w.locked _
        rw [hlocked]
        exact hl.keep (by rw [hp]; exact Iff.rfl)
      · next hopen =>
        rw [Bool.not_eq_true] at hopen
        rw [hopen] at hl
        exact ⟨hl.acquire trivial, .active id _ _ _, hmove id (fun _ => id) (by simp [hp, Phase.Carries]) (by simp [hp])⟩
  | popping f =>
      dsimp only
      cases hq : w.queue with
      | nil =>
          refine ⟨hl.keep (by rw [hp]; exact Iff.rfl), .active id _ _ _, ?_⟩
          exact hmove id (fun _ => id) (by simp [hp, Phase.Carries]) (by simp [hp])
      | cons k queue =>
          rw [hq] at hh
          exact ⟨hl.keep (by rw [hp]; exact Iff.rfl), .active id _ _ _, hh.pop hp⟩
  | emptied f =>
      exact ⟨hl.release (by rw [hp]; exact trivial) id, .active id _ _ _,
        hmove id (fun _ => id) (by simp [hp, Phase.Carries]) (by simp [hp])⟩
  | recheck f =>
      have hkeep {p : Phase} (hn : ¬p.Holds) : LockOk w.locked (Function.update w.phases i p) :=
        hl.keep (by rw [hp]; exact iff_of_false hn id)
      dsimp only
      split
      · next hempty =>
        refine ⟨hkeep id, fun hne => absurd (List.isEmpty_iff.mp hempty) hne, ?_⟩
        exact hmove id (fun _ => id) (by simp [hp, Phase.Carries]) (by simp [hp])
      · refine ⟨hkeep id, .active id _ _ _, ?_⟩
        exact hmove id (fun _ => id) (by simp [hp, Phase.Carries]) (by simp [hp])
  | direct =>
      have hholds : (w.phases i).Holds := by rw [hp]; exact trivial
      exact ⟨hl.keep (by rw [hp]; exact Iff.rfl), .active id _ _ _,
        hh.start (.inl ⟨hp, rfl⟩) (fun j l hj => hl.unique hj.holds hholds) id fun _ => id⟩
  | running =>
      exact ⟨hl.keep (by rw [hp]; exact Iff.rfl), .active id _ _ _,
        hmove id (fun _ => id) (by simp [hp, Phase.Carries]) (by simp [hp])⟩
  | finished f =>
      exact ⟨hl.release (by rw [hp]; exact trivial) id, .active id _ _ _,
        hmove id (fun _ => id) (by simp [hp, Phase.Carries]) (by simp [hp])⟩
  | task k =>
      have hholds : (w.phases i).Holds := by rw [hp]; exact trivial
      exact ⟨hl.keep (by rw [hp]; exact Iff.rfl), .active id _ _ _,
        hh.start (.inr hp) (fun j l hj => hl.unique hj.holds hholds) id fun _ => id⟩
  | taskRunning k =>
      exact ⟨hl.keep (by rw [hp]; exact Iff.rfl), .active id _ _ _,
        hmove id (fun _ => id) (by simp [hp, Phase.Carries]) (by simp [hp])⟩
  | taskFinished =>
      exact ⟨hl.release (by rw [hp]; exact trivial) id, .active id _ _ _,
        hmove id (fun _ => id) (by simp [hp, Phase.Carries]) (by simp [hp])⟩

/-- A call that begins. -/
theorem begin_good {w : World} (h : Good w) {i : ℕ} (hp : w.phases i = .idle) : Good (w.set i .posting) :=
  ⟨h.lock.keep (by rw [hp]; exact Iff.rfl), h.wake.rest (by rw [hp]; exact trivial),
    h.handlers.move (fun _ => by rw [hp]; exact trivial) (fun k => by rw [hp]; exact Iff.rfl) fun hd => by rw [hp] at hd; cases hd⟩

theorem act_good {w : World} (h : Good w) (a : Action) : Good (act w a) := by
  cases a with
  | post i =>
      unfold act
      dsimp only
      split
      · next hp => exact begin_good h hp
      · exact h
  | dispatch i =>
      unfold act
      dsimp only
      split
      · next hp =>
        split
        · exact begin_good h hp
        · next hopen =>
          have hl := h.lock
          rw [Bool.eq_false_iff.mpr hopen] at hl
          exact ⟨hl.acquire trivial, .active id _ _ _, h.handlers.takeDirect hp⟩
      · exact h
  | schedule i t =>
      unfold act
      dsimp only
      split
      · next hp ht =>
        exact ⟨h.lock.transfer (by rw [hp]; exact trivial) id trivial, .active id _ _ _, h.handlers.schedule hp ht⟩
      · exact h
  | step i failure => exact step_good h i failure

theorem run_good (actions : List Action) : Good (run actions) := by
  have hnew : Good World.new := by
    refine ⟨⟨none, rfl, fun i => iff_of_false id fun h => by cases h⟩, fun h => absurd rfl h, ?_⟩
    exact ⟨List.nodup_nil, List.nodup_nil, fun h _ => ⟨List.not_mem_nil, List.not_mem_nil, fun _ => id⟩,
      fun h hh => absurd hh List.not_mem_nil, fun _ _ => False.elim, fun h hh => absurd hh List.not_mem_nil⟩
  unfold run
  generalize World.new = w at hnew
  induction actions generalizing w with
  | nil => exact hnew
  | cons a actions ih => exact ih _ (act_good hnew a)

theorem Phase.Runs.holds (h : p.Runs) : p.Holds := by
  cases p <;> simp_all [Phase.Runs, Phase.Holds]

/-- **A strand runs one handler at a time and loses none.**  No two agents ever run handlers, and no handler is started
twice.  When every agent rests, `locked_` is free, the queue is empty, and every handler that was handed over has been
started. -/
theorem strand_serial (actions : List Action) :
    (∀ i j, ((run actions).phases i).Runs → ((run actions).phases j).Runs → i = j) ∧
      (run actions).started.Nodup ∧
      ((∀ i, ((run actions).phases i).Resting) →
        (run actions).locked = false ∧ (run actions).queue = [] ∧ ∀ h ∈ (run actions).posted, h ∈ (run actions).started) := by
  obtain ⟨hl, hw, hh⟩ := run_good actions
  generalize run actions = w at hl hw hh
  refine ⟨fun i j hi hj => hl.unique hi.holds hj.holds, hh.startedNodup, fun hrest => ?_⟩
  have hqueue : w.queue = [] := by
    by_contra hne
    obtain ⟨i, hi⟩ := hw hne
    exact hi (hrest i)
  refine ⟨?_, hqueue, fun h hposted => ?_⟩
  · rw [← Bool.not_eq_true]
    intro hlocked
    rw [hlocked] at hl
    obtain ⟨i, hi⟩ := hl.holder
    exact hi.not_resting (hrest i)
  · rcases hh.complete h hposted with hq | hs | hd | ⟨i, hi⟩
    · rw [hqueue] at hq
      cases hq
    · exact hs
    · have := hrest h
      rw [hd] at this
      exact this.elim
    · exact absurd (hrest i) hi.holds.not_resting

end NeForce.Strand
