import Mathlib.Logic.Function.Basic
import NeForce.Runs

/-! # The channel

`channel`: a bounded queue of messages for any number of writers and readers, with a slot for one message in place of
the queue if the capacity is 0.  Every section under the lock is one step.  A call that waits gives up the lock and is
resumed later, at any time and any number of times; it then looks at its condition again.

* **Calls.**  The index of a call stands for the thread that makes it; every call is made once.
* **History.**  `history` is the list of what took effect, in its order: a ghost that no section reads. -/

namespace NeForce.Channel

variable {α : Type}

structure State (α : Type) where
  capacity : UInt64
  queue : List α
  size : UInt64
  closed : Bool
  handoff : Option α

def State.new (capacity : UInt64) : State α := ⟨capacity, [], 0, false, none⟩

def pushLocked (c : State α) (value : α) : State α := { c with queue := c.queue ++ [value], size := c.size + 1 }

def popLocked (c : State α) : State α × Option α :=
  match c.queue with
  | [] => (c, none)
  | out :: queue => ({ c with queue := queue, size := c.size - 1 }, some out)

/-- The message in the slot of an unbuffered channel. -/
def takeHandoff (c : State α) : State α × Option α :=
  match c.handoff with
  | none => (c, none)
  | some out => ({ c with handoff := none, size := 0 }, some out)

def tryWrite (c : State α) (value : α) : State α × Bool :=
  if c.capacity = 0 then (c, false)
  else if c.closed ∨ c.size ≥ c.capacity then (c, false)
  else (pushLocked c value, true)

inductive WriteResult where
  | wait
  | refused
  | offered
  | written

/-- A section of `write` up to its first condition or from there on. -/
def write (c : State α) (value : α) : State α × WriteResult :=
  if c.capacity = 0 then
    if ¬(c.closed ∨ c.handoff.isNone) then (c, .wait)
    else if c.closed then (c, .refused)
    else ({ c with handoff := some value, size := 1 }, .offered)
  else if ¬(c.closed ∨ c.size < c.capacity) then (c, .wait)
  else if c.closed then (c, .refused)
  else (pushLocked c value, .written)

/-- The second condition of `write`, without a buffer. -/
def handedOver (c : State α) : Bool := c.closed || c.handoff.isNone

def tryRead (c : State α) : State α × Option α := if c.capacity = 0 then takeHandoff c else popLocked c

/-- A section of `read`; `none` while it waits. -/
def read (c : State α) : Option (State α × Option α) :=
  if c.capacity = 0 then
    if ¬(c.closed ∨ c.handoff.isSome) then none else some (takeHandoff c)
  else if ¬(c.closed ∨ c.size > 0) then none
  else some (popLocked c)

def close (c : State α) : State α := { c with closed := true }

/-! ### Calls -/

/-- What took effect, and the call that did it; `blocking` for the calls that wait. -/
inductive Event (α : Type) where
  | accept (op : ℕ) (value : α)
  | refuse (op : ℕ) (blocking : Bool)
  | take (op : ℕ) (value : α)
  | miss (op : ℕ) (blocking : Bool)
  | close (op : ℕ)

def Event.op : Event α → ℕ
  | .accept op _ | .refuse op _ | .take op _ | .miss op _ | .close op => op

inductive Call (α : Type) where
  | fresh
  | writing (value : α)
  | offered (value : α)
  | reading
  | wrote (value : α) (ok : Bool)
  | got (out : Option α)
  | closed

structure World (α : Type) where
  channel : State α
  calls : ℕ → Call α
  history : List (Event α)

def World.new (capacity : UInt64) : World α := ⟨.new capacity, fun _ => .fresh, []⟩

inductive Action (α : Type) where
  | tryWrite (op : ℕ) (value : α)
  | write (op : ℕ) (value : α)
  | tryRead (op : ℕ)
  | read (op : ℕ)
  | close (op : ℕ)
  | resume (op : ℕ)

def Action.op : Action α → ℕ
  | .tryWrite op _ | .write op _ | .tryRead op | .read op | .close op | .resume op => op

def World.set (w : World α) (op : ℕ) (c : State α) (call : Call α) (events : List (Event α)) : World α :=
  ⟨c, Function.update w.calls op call, w.history ++ events⟩

def writeSection (w : World α) (op : ℕ) (value : α) : World α :=
  match write w.channel value with
  | (c, .wait) => w.set op c (.writing value) []
  | (c, .refused) => w.set op c (.wrote value false) [.refuse op true]
  | (c, .offered) => w.set op c (.offered value) [.accept op value]
  | (c, .written) => w.set op c (.wrote value true) [.accept op value]

def taken (op : ℕ) (blocking : Bool) : Option α → Event α
  | some value => .take op value
  | none => .miss op blocking

def readSection (w : World α) (op : ℕ) : World α :=
  match read w.channel with
  | none => w.set op w.channel .reading []
  | some (c, out) => w.set op c (.got out) [taken op true out]

/-- A call begins, or one that waits is resumed. -/
def act (w : World α) : Action α → World α
  | .tryWrite op value =>
      match w.calls op with
      | .fresh =>
          let (c, ok) := tryWrite w.channel value
          w.set op c (.wrote value ok) [if ok then .accept op value else .refuse op false]
      | _ => w
  | .write op value =>
      match w.calls op with
      | .fresh => writeSection w op value
      | _ => w
  | .tryRead op =>
      match w.calls op with
      | .fresh =>
          let (c, out) := tryRead w.channel
          w.set op c (.got out) [taken op false out]
      | _ => w
  | .read op =>
      match w.calls op with
      | .fresh => readSection w op
      | _ => w
  | .close op =>
      match w.calls op with
      | .fresh => w.set op (close w.channel) .closed [.close op]
      | _ => w
  | .resume op =>
      match w.calls op with
      | .writing value => writeSection w op value
      | .offered value => if handedOver w.channel then w.set op w.channel (.wrote value true) [] else w
      | .reading => readSection w op
      | _ => w

def run (capacity : UInt64) (actions : List (Action α)) : World α := actions.foldl act (.new capacity)

/-! ### The purpose of a channel

A queue of at most `max capacity 1` messages, with one effect of every call. -/

structure Fifo (α : Type) where
  pending : List α
  closed : Bool

inductive Step (capacity : ℕ) : Fifo α → Event α → Fifo α → Prop
  | accept (hroom : pending.length < max capacity 1) :
      Step capacity ⟨pending, false⟩ (.accept op value) ⟨pending ++ [value], false⟩
  | refuse (h : closed = true ∨ blocking = false ∧ capacity ≤ pending.length) :
      Step capacity ⟨pending, closed⟩ (.refuse op blocking) ⟨pending, closed⟩
  | take : Step capacity ⟨value :: pending, closed⟩ (.take op value) ⟨pending, closed⟩
  | miss (h : blocking = true → closed = true) : Step capacity ⟨[], closed⟩ (.miss op blocking) ⟨[], closed⟩
  | close : Step capacity ⟨pending, closed⟩ (.close op) ⟨pending, true⟩

def accepted : List (Event α) → List α := List.filterMap fun e =>
  match e with
  | .accept _ value => some value
  | _ => none

def delivered : List (Event α) → List α := List.filterMap fun e =>
  match e with
  | .take _ value => some value
  | _ => none

/-- What has taken effect of a call. -/
def Took (op : ℕ) (events : List (Event α)) : Call α → Prop
  | .fresh | .writing _ | .reading => events = []
  | .offered value | .wrote value true => events = [.accept op value]
  | .wrote _ false => ∃ blocking, events = [.refuse op blocking]
  | .got (some value) => events = [.take op value]
  | .got none => ∃ blocking, events = [.miss op blocking]
  | .closed => events = [.close op]

/-! ### Sections -/

def State.contents (c : State α) : List α := if c.capacity = 0 then c.handoff.toList else c.queue

def State.view (c : State α) : Fifo α := ⟨c.contents, c.closed⟩

/-- The three representations agree. -/
structure State.Ok (c : State α) : Prop where
  size : c.size.toNat = c.contents.length
  room : c.contents.length ≤ max c.capacity.toNat 1

/-- A section that keeps the representation and has the effects `events`. -/
structure Sound (c c' : State α) (events : List (Event α)) : Prop where
  ok : c'.Ok
  capacity : c'.capacity = c.capacity
  effect : Run (Step c.capacity.toNat) c.view events c'.view

variable {c : State α} {value : α} {op : ℕ}

theorem Sound.same (h : c.Ok) : Sound c c [] := ⟨h, rfl, .nil _⟩

theorem Sound.of_step {c' : State α} {e : Event α} (ok : c'.Ok) (capacity : c'.capacity = c.capacity)
    (h : Step c.capacity.toNat c.view e c'.view) : Sound c c' [e] :=
  ⟨ok, capacity, .cons h (.nil _)⟩

theorem pushLocked_sound (h : c.Ok) (hcap : c.capacity ≠ 0) (hopen : c.closed = false) (hroom : c.size < c.capacity) (op : ℕ)
    (value : α) : Sound c (pushLocked c value) [.accept op value] := by
  have hsize := h.size
  have hlt : c.size.toNat < c.capacity.toNat := hroom
  have hcontents : c.contents = c.queue := if_neg hcap
  have hcontents' : (pushLocked c value).contents = c.queue ++ [value] := if_neg hcap
  rw [hcontents] at hsize
  refine .of_step ⟨?_, ?_⟩ rfl ?_
  · have := c.capacity.toNat_lt
    rw [hcontents', List.length_append, List.length_singleton, pushLocked, UInt64.toNat_add, hsize, UInt64.toNat_one]
    exact Nat.mod_eq_of_lt (by omega)
  · rw [hcontents', List.length_append, List.length_singleton, show (pushLocked c value).capacity = c.capacity from rfl]
    omega
  · rw [State.view, State.view, hcontents, hcontents', hopen, pushLocked, hopen]
    exact .accept (by omega)

theorem popLocked_sound (h : c.Ok) (hcap : c.capacity ≠ 0) (op : ℕ) (blocking : Bool)
    (hb : blocking = true → c.closed = true ∨ c.size > 0) :
    Sound c (popLocked c).1 [taken op blocking (popLocked c).2] := by
  have hsize := h.size
  have hroom := h.room
  have hcontents : c.contents = c.queue := if_neg hcap
  rw [hcontents] at hsize hroom
  unfold popLocked
  cases hq : c.queue with
  | nil =>
      rw [hq] at hsize
      refine .of_step h rfl ?_
      rw [State.view, hcontents, hq]
      refine .miss fun hblock => (hb hblock).resolve_right fun hpos => ?_
      have : 0 < c.size.toNat := hpos
      rw [hsize] at this
      exact absurd this (Nat.lt_irrefl 0)
  | cons out queue =>
      rw [hq, List.length_cons] at hsize hroom
      have hcontents' : State.contents { c with queue := queue, size := c.size - 1 } = queue := if_neg hcap
      refine .of_step ⟨?_, ?_⟩ rfl ?_
      · have hone : (1 : UInt64) ≤ c.size := by
          rw [UInt64.le_iff_toNat_le, hsize]
          exact Nat.succ_le_succ (Nat.zero_le _)
        rw [hcontents', UInt64.toNat_sub_of_le _ _ hone, hsize]
        rfl
      · rw [hcontents']
        exact Nat.le_of_succ_le hroom
      · rw [State.view, State.view, hcontents, hcontents', hq]
        exact .take

theorem takeHandoff_sound (h : c.Ok) (hcap : c.capacity = 0) (op : ℕ) (blocking : Bool)
    (hb : blocking = true → c.closed = true ∨ c.handoff.isSome = true) :
    Sound c (takeHandoff c).1 [taken op blocking (takeHandoff c).2] := by
  have hcontents : c.contents = c.handoff.toList := if_pos hcap
  unfold takeHandoff
  cases hq : c.handoff with
  | none =>
      refine .of_step h rfl ?_
      rw [State.view, hcontents, hq]
      refine .miss fun hblock => (hb hblock).resolve_right fun hsome => ?_
      rw [hq] at hsome
      cases hsome
  | some out =>
      have hcontents' : State.contents { c with handoff := none, size := 0 } = [] := if_pos hcap
      refine .of_step ⟨?_, ?_⟩ rfl ?_
      · rw [hcontents']
        rfl
      · rw [hcontents']
        exact Nat.zero_le _
      · rw [State.view, State.view, hcontents, hcontents', hq]
        exact .take

theorem tryWrite_sound (h : c.Ok) (op : ℕ) (value : α) :
    Sound c (tryWrite c value).1 [if (tryWrite c value).2 then .accept op value else .refuse op false] := by
  unfold tryWrite
  split
  · next hcap =>
    refine .of_step h rfl (.refuse (.inr ⟨rfl, ?_⟩))
    rw [hcap]
    exact Nat.zero_le _
  · next hcap =>
    split
    · next hfull =>
      refine .of_step h rfl (.refuse (hfull.imp id fun hfull => ⟨rfl, ?_⟩))
      rw [← h.size]
      exact hfull
    · next hroom =>
      rw [not_or] at hroom
      exact pushLocked_sound h hcap (Bool.eq_false_iff.mpr hroom.1) (UInt64.not_le.mp hroom.2) op value

/-- What a section of `write` does in each of its outcomes. -/
def writeEvents (op : ℕ) (value : α) : WriteResult → List (Event α)
  | .wait => []
  | .refused => [.refuse op true]
  | .offered | .written => [.accept op value]

theorem write_sound (h : c.Ok) (op : ℕ) (value : α) :
    Sound c (write c value).1 (writeEvents op value (write c value).2) := by
  unfold write
  split
  · next hcap =>
    split
    · exact .same h
    · next hready =>
      split
      · next hclosed => exact .of_step h rfl (.refuse (.inl hclosed))
      · next hopen =>
        have hnone : c.handoff.isNone = true := (not_not.mp hready).resolve_left hopen
        rw [Bool.not_eq_true] at hopen
        have hcontents : c.contents = [] := by
          rw [State.contents, if_pos hcap, Option.isNone_iff_eq_none.mp hnone]
          rfl
        have hcontents' : State.contents { c with handoff := some value, size := 1 } = [value] := if_pos hcap
        refine .of_step ⟨?_, ?_⟩ rfl ?_
        · rw [hcontents']
          rfl
        · rw [hcontents']
          exact Nat.le_max_right _ _
        · rw [State.view, State.view, hcontents, hcontents', hopen]
          exact .accept (by rw [List.length_nil]; omega)
  · next hcap =>
    split
    · exact .same h
    · next hready =>
      split
      · next hclosed => exact .of_step h rfl (.refuse (.inl hclosed))
      · next hopen =>
        exact pushLocked_sound h hcap (Bool.eq_false_iff.mpr hopen) ((not_not.mp hready).resolve_left hopen) op value

theorem tryRead_sound (h : c.Ok) (op : ℕ) : Sound c (tryRead c).1 [taken op false (tryRead c).2] := by
  unfold tryRead
  split
  · next hcap => exact takeHandoff_sound h hcap op false fun hb => by cases hb
  · next hcap => exact popLocked_sound h hcap op false fun hb => by cases hb

theorem read_sound (h : c.Ok) (op : ℕ) {c' : State α} {out : Option α} (hr : read c = some (c', out)) :
    Sound c c' [taken op true out] := by
  unfold read at hr
  split at hr
  · next hcap =>
    rw [Option.ite_none_left_eq_some, Option.some.injEq] at hr
    have hs := takeHandoff_sound h hcap op true fun _ => not_not.mp hr.1
    rwa [hr.2] at hs
  · next hcap =>
    rw [Option.ite_none_left_eq_some, Option.some.injEq] at hr
    have hs := popLocked_sound h hcap op true fun _ => not_not.mp hr.1
    rwa [hr.2] at hs

theorem close_sound (h : c.Ok) (op : ℕ) : Sound c (close c) [.close op] :=
  .of_step ⟨h.size, h.room⟩ rfl .close

/-! ### Runs -/

theorem filter_op_of_ne {events : List (Event α)} {i : ℕ} (h : ∀ e ∈ events, e.op = op) (hi : i ≠ op) :
    events.filter (·.op = i) = [] :=
  List.filter_eq_nil_iff.mpr fun e he => by rw [h e he, decide_eq_true_eq]; exact hi.symm

theorem filter_op_self {events : List (Event α)} (h : ∀ e ∈ events, e.op = op) : events.filter (·.op = op) = events :=
  List.filter_eq_self.mpr fun e he => by rw [h e he, decide_eq_true_eq]

/-- What holds in every state. -/
structure Good (capacity : UInt64) (w : World α) : Prop where
  ok : w.channel.Ok
  fixed : w.channel.capacity = capacity
  legal : Run (Step capacity.toNat) ⟨[], false⟩ w.history w.channel.view
  took : ∀ op, Took op (w.history.filter (·.op = op)) (w.calls op)

/-- What an action does: one effect of its call, or none. -/
structure Acts (w w' : World α) (op : ℕ) (events : List (Event α)) : Prop where
  sound : Sound w.channel w'.channel events
  history : w'.history = w.history ++ events
  single : events.length ≤ 1
  own : ∀ e ∈ events, e.op = op
  other : ∀ i, i ≠ op → w'.calls i = w.calls i
  took : Took op (w.history.filter (·.op = op)) (w.calls op) → Took op (w'.history.filter (·.op = op)) (w'.calls op)

theorem Acts.same {w : World α} (h : w.channel.Ok) (op : ℕ) : Acts w w op [] :=
  ⟨.same h, (List.append_nil _).symm, Nat.zero_le _, fun _ he => absurd he List.not_mem_nil, fun _ _ => rfl, id⟩

/-- A call that has had no effect gets one, or waits. -/
theorem Acts.of_set {w : World α} {c : State α} {call : Call α} {events : List (Event α)} (hsound : Sound w.channel c events)
    (hsingle : events.length ≤ 1) (hown : ∀ e ∈ events, e.op = op)
    (hbefore : Took op (w.history.filter (·.op = op)) (w.calls op) → Took op (w.history.filter (·.op = op) ++ events) call) :
    Acts w (w.set op c call events) op events := by
  refine ⟨hsound, rfl, hsingle, hown, fun i hi => Function.update_of_ne hi _ _, fun h => ?_⟩
  have hcall : (w.set op c call events).calls op = call := Function.update_self _ _ _
  have hfilter : (w.set op c call events).history.filter (·.op = op) = w.history.filter (·.op = op) ++ events := by
    rw [World.set, List.filter_append, filter_op_self hown]
  rw [hcall, hfilter]
  exact hbefore h

/-- The first events of a call that has caused none. -/
theorem Took.first {call call' : Call α} {events events' : List (Event α)} (hnone : Took op events call → events = [])
    (h' : Took op events' call') (h : Took op events call) : Took op (events ++ events') call' := by
  rw [hnone h]
  exact h'

theorem writeSection_acts {w : World α} (h : w.channel.Ok)
    (hcall : w.calls op = .fresh ∨ w.calls op = .writing value) :
    ∃ events, Acts w (writeSection w op value) op events := by
  have hsound := write_sound h op value
  have hnone : Took op (w.history.filter (·.op = op)) (w.calls op) → w.history.filter (·.op = op) = [] := by
    intro ht
    obtain hcall | hcall := hcall
    · rw [hcall] at ht
      exact ht
    · rw [hcall] at ht
      exact ht
  unfold writeSection
  rcases hw : write w.channel value with ⟨c, r⟩
  rw [hw] at hsound
  cases r with
  | wait => exact ⟨_, .of_set hsound (Nat.zero_le _) (fun _ he => absurd he List.not_mem_nil) (Took.first hnone rfl)⟩
  | refused => exact ⟨_, .of_set hsound (Nat.le_refl _) (by simp [Event.op]) (Took.first hnone ⟨true, rfl⟩)⟩
  | offered => exact ⟨_, .of_set hsound (Nat.le_refl _) (by simp [Event.op]) (Took.first hnone rfl)⟩
  | written => exact ⟨_, .of_set hsound (Nat.le_refl _) (by simp [Event.op]) (Took.first hnone rfl)⟩

theorem taken_op (op : ℕ) (blocking : Bool) (out : Option α) : (taken op blocking out).op = op := by
  cases out <;> rfl

theorem took_taken (op : ℕ) (blocking : Bool) (out : Option α) : Took op [taken op blocking out] (.got out) := by
  cases out with
  | none => exact ⟨blocking, rfl⟩
  | some value => rfl

theorem readSection_acts {w : World α} (h : w.channel.Ok) (hcall : w.calls op = .fresh ∨ w.calls op = .reading) :
    ∃ events, Acts w (readSection w op) op events := by
  have hnone : Took op (w.history.filter (·.op = op)) (w.calls op) → w.history.filter (·.op = op) = [] := by
    intro ht
    obtain hcall | hcall := hcall
    · rw [hcall] at ht
      exact ht
    · rw [hcall] at ht
      exact ht
  unfold readSection
  cases hr : read w.channel with
  | none => exact ⟨_, .of_set (.same h) (Nat.zero_le _) (fun _ he => absurd he List.not_mem_nil) (Took.first hnone rfl)⟩
  | some p =>
      obtain ⟨c, out⟩ := p
      exact ⟨_, .of_set (read_sound h op hr) (Nat.le_refl _) (by simp [taken_op]) (Took.first hnone (took_taken op true out))⟩

/-- Every action is one of its call. -/
theorem act_acts {w : World α} (h : w.channel.Ok) (a : Action α) : ∃ events, Acts w (act w a) a.op events := by
  have hfresh {op : ℕ} (hcall : w.calls op = .fresh) :
      Took op (w.history.filter (·.op = op)) (w.calls op) → w.history.filter (·.op = op) = [] := by
    intro ht
    rw [hcall] at ht
    exact ht
  cases a with
  | tryWrite op value =>
      have hsound := tryWrite_sound h op value
      unfold act
      dsimp only
      split
      · next hcall =>
        refine ⟨_, .of_set hsound (Nat.le_refl _) ?_ (Took.first (hfresh hcall) ?_)⟩
        · cases (tryWrite w.channel value).2 <;> simp [Event.op]
        · cases (tryWrite w.channel value).2
          · exact ⟨false, rfl⟩
          · rfl
      · exact ⟨[], .same h op⟩
  | write op value =>
      unfold act
      dsimp only
      split
      · next hcall => exact writeSection_acts h (.inl hcall)
      · exact ⟨[], .same h op⟩
  | tryRead op =>
      unfold act
      dsimp only
      split
      · next hcall =>
        exact ⟨_, .of_set (tryRead_sound h op) (Nat.le_refl _) (by simp [taken_op])
          (Took.first (hfresh hcall) (took_taken op false _))⟩
      · exact ⟨[], .same h op⟩
  | read op =>
      unfold act
      dsimp only
      split
      · next hcall => exact readSection_acts h (.inl hcall)
      · exact ⟨[], .same h op⟩
  | close op =>
      unfold act
      dsimp only
      split
      · next hcall =>
        exact ⟨_, .of_set (close_sound h op) (Nat.le_refl _) (by simp [Event.op]) (Took.first (hfresh hcall) rfl)⟩
      · exact ⟨[], .same h op⟩
  | resume op =>
      unfold act
      dsimp only
      split
      · next value hcall => exact writeSection_acts h (.inr hcall)
      · next value hcall =>
        split
        · refine ⟨[], .of_set (.same h) (Nat.zero_le _) (fun _ he => absurd he List.not_mem_nil) fun ht => ?_⟩
          rw [hcall] at ht
          rw [List.append_nil]
          exact ht
        · exact ⟨[], .same h op⟩
      · next hcall => exact readSection_acts h (.inr hcall)
      · exact ⟨[], .same h op⟩

theorem Good.act {capacity : UInt64} {w : World α} (h : Good capacity w) (a : Action α) : Good capacity (act w a) := by
  obtain ⟨events, hacts⟩ := act_acts h.ok a
  refine ⟨hacts.sound.ok, hacts.sound.capacity.trans h.fixed, ?_, fun i => ?_⟩
  · have heffect := hacts.sound.effect
    rw [h.fixed] at heffect
    rw [hacts.history]
    exact h.legal.append heffect
  · by_cases hi : i = a.op
    · subst hi
      exact hacts.took (h.took a.op)
    · rw [hacts.other i hi, hacts.history, List.filter_append, filter_op_of_ne hacts.own hi, List.append_nil]
      exact h.took i

theorem run_good (capacity : UInt64) (actions : List (Action α)) : Good capacity (run capacity actions) := by
  have hnew : Good capacity (World.new capacity : World α) := by
    have hcontents : (State.new capacity : State α).contents = [] := by
      unfold State.contents
      split <;> rfl
    refine ⟨⟨?_, ?_⟩, rfl, ?_, fun _ => rfl⟩
    · rw [World.new, hcontents]
      rfl
    · rw [World.new, hcontents]
      exact Nat.zero_le _
    · rw [World.new, State.view, hcontents]
      exact .nil _
  unfold run
  generalize World.new capacity = w at hnew
  induction actions generalizing w with
  | nil => exact hnew
  | cons a actions ih => exact ih _ (hnew.act a)

/-! ### First in, first out -/

/-- What is accepted has been delivered, in order, or is still there. -/
theorem legal_fifo {capacity : ℕ} {events : List (Event α)} {s : Fifo α} (h : Run (Step capacity) ⟨[], false⟩ events s) :
    accepted events = delivered events ++ s.pending := by
  refine h.history (P := fun events s => accepted events = delivered events ++ s.pending) rfl ?_
  intro events s e s' hs hstep
  rw [accepted, delivered, List.filterMap_append, List.filterMap_append]
  change accepted events ++ _ = delivered events ++ _ ++ _
  rw [hs]
  cases hstep <;> simp

/-- A call that finds nothing finds an empty queue. -/
theorem Step.miss_pending {capacity : ℕ} {s s' : Fifo α} {blocking : Bool} (h : Step capacity s (.miss op blocking) s') :
    s.pending = [] := by
  cases h
  rfl

theorem Step.closed_accepts {capacity : ℕ} {s s' : Fifo α} {e : Event α} (h : Step capacity s e s') (hs : s.closed = true) :
    accepted [e] = [] := by
  cases h with
  | accept => cases hs
  | _ => rfl

/-- **The channel is a bounded queue with one effect of every call.**  The effects, in their order, are those of a queue
of at most `max capacity 1` messages that can be closed; every call has at most one, after it begins and before it
returns, and returns what it did.  So messages are delivered once and in order; a call that reads nothing leaves no
message that was accepted, and nothing is accepted by a channel that is closed. -/
theorem channel_linearizable (capacity : UInt64) (actions : List (Action α)) :
    (∃ s, Run (Step capacity.toNat) ⟨[], false⟩ (run capacity actions).history s ∧
        s = (run capacity actions).channel.view) ∧
      (∀ op, Took op ((run capacity actions).history.filter (·.op = op)) ((run capacity actions).calls op)) ∧
      (∀ a, ∃ events, (act (run capacity actions) a).history = (run capacity actions).history ++ events ∧
        ∀ e ∈ events, e.op = a.op) ∧
      delivered (run capacity actions).history <+: accepted (run capacity actions).history ∧
      (run capacity actions).channel.size.toNat ≤ max capacity.toNat 1 ∧
      (∀ a op blocking, (act (run capacity actions) a).history = (run capacity actions).history ++ [.miss op blocking] →
        delivered (run capacity actions).history = accepted (run capacity actions).history) ∧
      ((run capacity actions).channel.closed = true → ∀ a,
        accepted (act (run capacity actions) a).history = accepted (run capacity actions).history) := by
  have h := run_good capacity actions
  generalize run capacity actions = w at h
  have hfifo := legal_fifo h.legal
  refine ⟨⟨_, h.legal, rfl⟩, h.took, fun a => ?_, ?_, ?_, fun a op blocking hmiss => ?_, fun hclosed a => ?_⟩
  · obtain ⟨events, hacts⟩ := act_acts h.ok a
    exact ⟨events, hacts.history, hacts.own⟩
  · rw [hfifo]
    exact List.prefix_append _ _
  · rw [h.ok.size, ← h.fixed]
    exact h.ok.room
  · obtain ⟨events, hacts⟩ := act_acts h.ok a
    obtain rfl : events = [.miss op blocking] := List.append_cancel_left (hacts.history.symm.trans hmiss)
    cases hacts.sound.effect with
    | cons hstep _ =>
        rw [hfifo, hstep.miss_pending, List.append_nil]
  · obtain ⟨events, hacts⟩ := act_acts h.ok a
    rw [hacts.history, accepted, List.filterMap_append]
    change accepted _ ++ accepted events = _
    have hlen := hacts.single
    have heffect := hacts.sound.effect
    cases events with
    | nil => exact List.append_nil _
    | cons e events =>
        obtain rfl : events = [] := List.eq_nil_of_length_eq_zero (Nat.le_zero.mp (Nat.le_of_succ_le_succ hlen))
        cases heffect with
        | cons hstep _ =>
            rw [hstep.closed_accepts hclosed, List.append_nil]
            rfl

end NeForce.Channel
