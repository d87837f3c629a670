import Mathlib.Data.Finmap
import Mathlib.Data.List.Sort
import NeForce.BinaryHeap

/-! # Timers in a binary heap

`heap_timer` keeps its entries in a binary heap, the earliest deadline in front, and a mark for every identifier in
`states_`: 0 for a pending timer, 1 for a cancelled one.  `cancel` only sets the mark; cancelled entries leave the heap
when they come to the front, or when there are too many of them.

`Timers` is what the component is for: the pending timers in the order of their deadlines and identifiers, where
`cancel` removes a timer at once.  Counters of the heap are 64-bit numbers, those of `Timers` are not bounded. -/

namespace NeForce.Timer

open BinaryHeap

structure Entry where
  deadline : ℤ
  id : ℕ
  payload : ℕ
deriving DecidableEq

def later (lhs rhs : Entry) : Bool :=
  if lhs.deadline ≠ rhs.deadline then rhs.deadline < lhs.deadline else rhs.id < lhs.id

def laterOrder : StrictWeakOrder Entry where
  lt := later
  irrefl a := by simp [later]
  trans {a b c} := by
    unfold later
    split_ifs <;> simp only [decide_eq_true_eq] <;> omega
  cotrans {a b c} := by
    unfold later
    split_ifs <;> simp only [decide_eq_true_eq] <;> omega

/-- An identifier and the payload of its timer. -/
abbrev Expired := ℕ × ℕ

/-- The calls of a user; `out` tells whether `drain_expired` gets a place for its output. -/
inductive Op where
  | insert (deadline : ℤ) (payload : ℕ)
  | cancel (id : ℕ)
  | drainExpired (now : ℤ) (out : Bool) (maxCount : ℕ)
  | nextDeadline
  | contains (id : ℕ)
  | size
  | clear

/-- What a call returns or writes. -/
inductive Result where
  | token (id : ℕ)
  | flag (b : Bool)
  | expired (es : List Expired)
  | deadline (d : Option ℤ)
  | count (n : ℕ)
  | nothing
deriving DecidableEq

/-! ### The pending timers -/

structure Timers where
  pending : List Entry
  nextId : ℕ

def Timers.empty : Timers := ⟨[], 1⟩

/-- Neither is later than the other, or the second one is. -/
def Entry.Le (x y : Entry) : Prop := later x y = false

instance (x y : Entry) : Decidable (x.Le y) := inferInstanceAs (Decidable (_ = _))

/-- The timers that a call of `drain_expired` takes. -/
def Timers.due (a : Timers) (now : ℤ) (maxCount : ℕ) : List Entry :=
  (a.pending.takeWhile fun x => x.deadline ≤ now).take maxCount

def Timers.step (a : Timers) : Op → Timers × Result
  | .insert deadline payload =>
      (⟨a.pending.orderedInsert Entry.Le ⟨deadline, a.nextId, payload⟩, a.nextId + 1⟩, .token a.nextId)
  | .cancel id => ({ a with pending := a.pending.filter (·.id ≠ id) }, .flag (a.pending.any (·.id = id)))
  | .drainExpired now out maxCount =>
      let due := a.due now (if out then maxCount else 0)
      ({ a with pending := a.pending.drop due.length }, .expired (due.map fun x => (x.id, x.payload)))
  | .nextDeadline => (a, .deadline (a.pending.head?.map (·.deadline)))
  | .contains id => (a, .flag (a.pending.any (·.id = id)))
  | .size => (a, .count a.pending.length)
  | .clear => ({ a with pending := [] }, .nothing)

/-! ### The heap -/

abbrev States := Finmap fun _ : ℕ => UInt8

structure HeapTimer where
  heap : List Entry
  states : States
  nextDeadlineNs : ℤ
  nextId : ℕ
  live : ℕ

def HeapTimer.empty : HeapTimer := ⟨[], ∅, 0, 1, 0⟩

/-- `states_.emplace`. -/
def emplace (states : States) (id : ℕ) (mark : UInt8) : States := if id ∈ states then states else states.insert id mark

/-- `--live_` of a `size_t`, which wraps around below zero. -/
def decrement (live : ℕ) : ℕ := if live = 0 then 2 ^ 64 - 1 else live - 1

/-- The number of entries up to which the heap is not compacted. -/
def compactBound (live : ℕ) : ℕ := (live * 2 + 64) % 2 ^ 64

def HeapTimer.insert (t : HeapTimer) (deadline : ℤ) (payload : ℕ) : HeapTimer × ℕ :=
  ({ heap := pushHeap later (t.heap ++ [⟨deadline, t.nextId, payload⟩])
     states := emplace t.states t.nextId 0
     nextDeadlineNs := if t.nextDeadlineNs = 0 ∨ deadline < t.nextDeadlineNs then deadline else t.nextDeadlineNs
     nextId := (t.nextId + 1) % 2 ^ 64
     live := (t.live + 1) % 2 ^ 64 }, t.nextId)

/-- The first loop of `drop_cancelled_locked`, at most `n` times. -/
def dropTops : ℕ → List Entry → States → List Entry × States
  | 0, heap, states => (heap, states)
  | n + 1, heap, states =>
      match heap with
      | [] => (heap, states)
      | first :: _ =>
          match states.lookup first.id with
          | none => (heap, states)
          | some mark =>
              if mark = 0 then (heap, states)
              else
                let popped := popHeap later heap
                match popped.getLast? with
                | none => (heap, states)
                | some last => dropTops n popped.dropLast (states.erase last.id)

/-- The second loop of `drop_cancelled_locked`. -/
def compact : List Entry → States → List Entry × States
  | [], states => ([], states)
  | x :: xs, states =>
      if states.lookup x.id = some 0 then
        let r := compact xs states
        (x :: r.1, r.2)
      else compact xs (states.erase x.id)

def HeapTimer.dropCancelledLocked (t : HeapTimer) : HeapTimer :=
  let r := dropTops t.heap.length t.heap t.states
  if r.1.length ≤ compactBound t.live then { t with heap := r.1, states := r.2 }
  else
    let r' := compact r.1 r.2
    { t with heap := makeHeap later r'.1, states := r'.2 }

def HeapTimer.refreshHintLocked (t : HeapTimer) : HeapTimer :=
  let t := t.dropCancelledLocked
  { t with nextDeadlineNs := match t.heap with
      | [] => 0
      | first :: _ => first.deadline }

def HeapTimer.cancel (t : HeapTimer) (id : ℕ) : HeapTimer × Bool :=
  if t.states.lookup id = some 0 then
    let t := { t with states := t.states.insert id 1, live := decrement t.live }
    if t.live = 0 then ({ t with nextDeadlineNs := 0 }, true)
    else if compactBound t.live < t.heap.length then (t.dropCancelledLocked.refreshHintLocked, true)
    else (t, true)
  else (t, false)

def HeapTimer.nextDeadline (t : HeapTimer) : HeapTimer × Option ℤ :=
  let t := t.refreshHintLocked
  (t, t.heap.head?.map (·.deadline))

/-- The loop of `drain_expired`, with room for `n` more. -/
def HeapTimer.drainLoop (now : ℤ) : ℕ → HeapTimer → HeapTimer × List Expired
  | 0, t => (t, [])
  | n + 1, t =>
      match t.heap with
      | [] => (t, [])
      | first :: _ =>
          if first.deadline ≤ now then
            let popped := popHeap later t.heap
            match popped.getLast? with
            | none => (t, [])
            | some top =>
                let r := drainLoop now n
                  { t with heap := popped.dropLast, states := t.states.erase top.id, live := decrement t.live }
                (r.1, (top.id, top.payload) :: r.2)
          else (t, [])

def HeapTimer.drainExpired (t : HeapTimer) (now : ℤ) (out : Bool) (maxCount : ℕ) : HeapTimer × List Expired :=
  if !out || maxCount = 0 then (t, [])
  else
    let r := t.dropCancelledLocked.drainLoop now maxCount
    (r.1.refreshHintLocked, r.2)

def HeapTimer.contains (t : HeapTimer) (id : ℕ) : Bool := t.states.lookup id = some 0

def HeapTimer.clear (t : HeapTimer) : HeapTimer := { t with heap := [], states := ∅, live := 0, nextDeadlineNs := 0 }

def HeapTimer.step (t : HeapTimer) : Op → HeapTimer × Result
  | .insert deadline payload =>
      let r := t.insert deadline payload
      (r.1, .token r.2)
  | .cancel id =>
      let r := t.cancel id
      (r.1, .flag r.2)
  | .drainExpired now out maxCount =>
      let r := t.drainExpired now out maxCount
      (r.1, .expired r.2)
  | .nextDeadline =>
      let r := t.nextDeadline
      (r.1, .deadline r.2)
  | .contains id => (t, .flag (t.contains id))
  | .size => (t, .count t.live)
  | .clear => (t.clear, .nothing)

end NeForce.Timer
