import NeForce.HeapTimer
import NeForce.Runs

/-! # The timer scheduler

`timer_scheduler` keeps the handlers of its timers in `tasks_` and their deadlines in a heap of timers; its thread takes
expired timers out of the heap, at most 32 at once, and calls their handlers one after another.  Every section under
the lock is one step, and so are the call of a handler and its return.

* **Tasks.**  A task has a serial number, which stands for its shared flag and promise: `cancelled` and `fulfilled` list
  the numbers of those that are set.  An entry of `tasks_` still has its promise until a `cancel` takes it.
* **Calls.**  A call is made by a thread of its own or by the handler that is running.  A `cancel` that waits for a
  promise blocks its caller, and a handler that is blocked does not return.  Apart from that handlers return, and do
  not throw; a handler that calls `stop` cannot join its own thread and goes on. -/

namespace NeForce.Scheduler

open Timer

structure Task where
  serial : ℕ
  /-- The entry still has its promise. -/
  done : Bool

/-- Where the scheduler thread is: the timer and the task whose handler it has copied, and the rest of the expired
timers of its batch. -/
inductive Loop where
  | top
  | batch (rest : List ℕ)
  | found (id serial : ℕ) (rest : List ℕ)
  | running (id serial : ℕ) (rest : List ℕ)
  | called (id serial : ℕ) (rest : List ℕ)
  | exited

inductive Caller where
  | thread (n : ℕ)
  | handler
  deriving DecidableEq

structure World where
  stopped : Bool
  queue : HeapTimer
  tasks : List (ℕ × Task)
  /-- The number of tasks made so far. -/
  serial : ℕ
  cancelled : List ℕ
  fulfilled : List ℕ
  loop : Loop
  /-- The task each blocked caller waits for. -/
  waiting : Caller → Option ℕ

def World.init : World := ⟨false, .empty, [], 0, [], [], .top, fun _ => none⟩

def dispatchBatch : ℕ := 32

/-- `tasks_.find` -/
def World.find (s : World) (id : ℕ) : Option Task := (s.tasks.find? (·.1 = id)).map (·.2)

/-- `tasks_.erase` -/
def erase (tasks : List (ℕ × Task)) (id : ℕ) : List (ℕ × Task) := tasks.filter (·.1 ≠ id)

/-! ### The calls of users -/

/-- `add_task`; a token that `tasks_` has already keeps its old task. -/
def World.addTask (s : World) (expire : ℤ) : World × ℕ :=
  let (queue, id) := s.queue.nextDeadline.1.insert expire 0
  ({ s with
      queue
      tasks := if (s.find id).isSome then s.tasks else (id, ⟨s.serial, true⟩) :: s.tasks
      serial := s.serial + 1 }, id)

inductive CancelResult where
  | returns (b : Bool)
  | waits (serial : ℕ)

/-- The section of `cancel`; without a promise to wait for it returns at once. -/
def World.cancel (s : World) (id : ℕ) : World × CancelResult :=
  match s.find id with
  | none => (s, .returns false)
  | some task =>
      let (queue, found) := s.queue.cancel id
      if found then
        ({ s with queue, cancelled := task.serial :: s.cancelled, tasks := erase s.tasks id }, .returns true)
      else
        ({ s with
            queue
            cancelled := task.serial :: s.cancelled
            tasks := s.tasks.map fun x => if x.1 = id then (x.1, { x.2 with done := false }) else x },
          if task.done then .waits task.serial else .returns true)

def World.cancelAll (s : World) : World :=
  { s with
    cancelled := s.tasks.map (·.2.serial) ++ s.cancelled
    queue := s.queue.clear
    tasks := [] }

def World.stop (s : World) : World := { s with stopped := true }

/-! ### The scheduler thread -/

/-- The section at the top of the loop of `run`, at a time `now`; without an expired timer the thread waits. -/
def World.look (s : World) (now : ℤ) : World :=
  if s.stopped then { s with loop := .exited }
  else if s.queue.live = 0 then s
  else
    let (queue, deadline) := s.queue.nextDeadline
    match deadline with
    | none => { s with queue }
    | some expireTime =>
        if expireTime ≤ now then
          let (queue, expired) := queue.drainExpired now true dispatchBatch
          { s with queue, loop := .batch (expired.map (·.1)) }
        else { s with queue }

/-- The condition of `wait_until`, which asks for the next deadline. -/
def World.wake (s : World) : World := { s with queue := s.queue.nextDeadline.1 }

/-- The section that copies the handler of the next timer. -/
def World.copyHandler (s : World) (id : ℕ) (rest : List ℕ) : World :=
  match s.find id with
  | none => { s with loop := .batch rest }
  | some task => { s with loop := .found id task.serial rest }

/-- The call of the copied handler: it is left out after `stop`, does nothing but set its promise if its flag is set,
and starts otherwise. -/
def World.callHandler (s : World) (id serial : ℕ) (rest : List ℕ) : World :=
  if s.stopped then { s with loop := .called id serial rest }
  else if serial ∈ s.cancelled then { s with fulfilled := serial :: s.fulfilled, loop := .called id serial rest }
  else { s with loop := .running id serial rest }

/-- The handler returns, and the promise is set. -/
def World.returnHandler (s : World) (id serial : ℕ) (rest : List ℕ) : World :=
  { s with fulfilled := serial :: s.fulfilled, loop := .called id serial rest }

def World.eraseTask (s : World) (id : ℕ) (rest : List ℕ) : World :=
  { s with tasks := erase s.tasks id, loop := .batch rest }

/-! ### Steps -/

inductive Label where
  | addTask (c : Caller) (expire : ℤ) (id : ℕ)
  /-- The result of `cancel`, none while it waits. -/
  | cancel (c : Caller) (id : ℕ) (result : Option Bool)
  | resume (c : Caller)
  | cancelAll (c : Caller)
  | stop (c : Caller)
  | look (now : ℤ)
  | wake
  | copy
  | start (id : ℕ)
  | pass
  | finish
  | erase
  | next

def Loop.isRunning : Loop → Bool
  | .running _ _ _ => true
  | _ => false

/-- A caller that can make a call. -/
def World.Free (s : World) (c : Caller) : Prop :=
  s.waiting c = none ∧ (c = .handler → s.loop.isRunning = true)

inductive Step : World → Label → World → Prop
  | addTask {s : World} {c : Caller} (hc : s.Free c) (expire : ℤ) :
      Step s (.addTask c expire (s.addTask expire).2) (s.addTask expire).1
  | cancelReturns {s s' : World} {c : Caller} {id : ℕ} {b : Bool} (hc : s.Free c) (h : s.cancel id = (s', .returns b)) :
      Step s (.cancel c id (some b)) s'
  | cancelWaits {s s' : World} {c : Caller} {id u : ℕ} (hc : s.Free c) (h : s.cancel id = (s', .waits u)) :
      Step s (.cancel c id none) { s' with waiting := Function.update s'.waiting c (some u) }
  | resume {s : World} {c : Caller} {u : ℕ} (h : s.waiting c = some u) (hu : u ∈ s.fulfilled) :
      Step s (.resume c) { s with waiting := Function.update s.waiting c none }
  | cancelAll {s : World} {c : Caller} (hc : s.Free c) : Step s (.cancelAll c) s.cancelAll
  | stop {s : World} {c : Caller} (hc : s.Free c) : Step s (.stop c) s.stop
  | look {s : World} (h : s.loop = .top) (now : ℤ) : Step s (.look now) (s.look now)
  | wake {s : World} (h : s.loop = .top) : Step s .wake s.wake
  | copy {s : World} {id : ℕ} {rest : List ℕ} (h : s.loop = .batch (id :: rest)) : Step s .copy (s.copyHandler id rest)
  | start {s : World} {id u : ℕ} {rest : List ℕ} (h : s.loop = .found id u rest)
      (hstart : (s.callHandler id u rest).loop.isRunning = true) : Step s (.start id) (s.callHandler id u rest)
  | pass {s : World} {id u : ℕ} {rest : List ℕ} (h : s.loop = .found id u rest)
      (hpass : (s.callHandler id u rest).loop.isRunning = false) : Step s .pass (s.callHandler id u rest)
  | finish {s : World} {id u : ℕ} {rest : List ℕ} (h : s.loop = .running id u rest) (hfree : s.waiting .handler = none) :
      Step s .finish (s.returnHandler id u rest)
  | erase {s : World} {id u : ℕ} {rest : List ℕ} (h : s.loop = .called id u rest) : Step s .erase (s.eraseTask id rest)
  | next {s : World} (h : s.loop = .batch []) : Step s .next { s with loop := .top }

/-! ### Cancellation is decisive -/

/-- A `cancel` that returns true, now or when it has waited. -/
def Label.Cancels (l : Label) (id : ℕ) : Prop := ∃ c r, l = .cancel c id r ∧ r ≠ some false

/-- Whatever comes later, no handler starts that has started or is cancelled. -/
def Label.Before (l l' : Label) : Prop := ∀ id, l' = .start id → l ≠ .start id ∧ ¬ l.Cancels id

/-- Some steps lead to a state where the promise is set. -/
def World.Fulfillable (s : World) (u : ℕ) : Prop := ∃ ls s', Run Step s ls s' ∧ u ∈ s'.fulfilled

/-- In every run of the given steps no handler starts twice or after its cancellation, and no caller is blocked for
good. -/
def Decisive (step : World → Label → World → Prop) : Prop :=
  ∀ ls s, Run step World.init ls s → ls.Pairwise Label.Before ∧ ∀ c u, s.waiting c = some u → s.Fulfillable u

/-- The scheduler thread is in the handler of a task. -/
def Loop.Runs (l : Loop) (u : ℕ) : Prop := ∃ id rest, l = .running id u rest

/-- The scheduler thread has the handler of a task, which it has not returned from. -/
def Loop.Holds (l : Loop) (u : ℕ) : Prop := l.Runs u ∨ ∃ id rest, l = .found id u rest

/-- The condition on a step.  Tokens are not given again; a `cancel` of a timer that has left the heap, with a promise to
wait for, is not made by a handler, and after `stop` only if the promise is set or its handler is running; while a
caller waits for a promise that is not set, `cancel_all` is called only when the scheduler thread has its handler, and
`stop` only when this is running. -/
def Allowed (s : World) : Label → Prop
  | .addTask _ _ _ => s.queue.nextId ≠ 0
  | .cancel c id _ => ∀ task, s.find id = some task → task.done = true → s.queue.contains id = false →
      c ≠ .handler ∧ (task.serial ∈ s.fulfilled ∨ s.stopped = false ∨ s.loop.Runs task.serial)
  | .cancelAll _ => ∀ c u, s.waiting c = some u → u ∈ s.fulfilled ∨ s.loop.Holds u
  | .stop _ => ∀ c u, s.waiting c = some u → u ∈ s.fulfilled ∨ s.loop.Runs u
  | _ => True

end NeForce.Scheduler
