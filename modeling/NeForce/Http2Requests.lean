import Mathlib
import NeForce.Http2HeaderBlocks

/-! # The requests that a connection serves

A client and the connection that gets its frames.  The client is a peer whose header blocks and DATA frames belong to
requests: a header block, a body, and perhaps a trailing header block, on a stream of its own; the requests of different
streams are interleaved as the client likes.

The connection hands every complete request to the handler, once and with its header fields and its body, and forgets
the stream when it is answered (`run_served`), under the conditions of `run_decoded` and if DATA frames
have no padding and the program resets no unfinished request; trailing header blocks are excepted.  These overwrite the
header fields of the request, drop its body and leave the stream open for ever (`trailers_not_served`). -/

namespace NeForce.Http2

open Hpack Hpack.DynamicTable
open Output (Logs)

/-! ### The client -/

/-- How far a request has come. -/
inductive Request where
  /-- the first header block is not finished -/
  | opening (endStream : Bool)
  | body (headers : List HeaderField) (data : Bytes)
  /-- the last header block is not finished -/
  | trailers (headers : List HeaderField) (data : Bytes)
  | complete (headers : List HeaderField) (data : Bytes)
  | reset
deriving DecidableEq

namespace Request

def received (headers : List HeaderField) (data : Bytes) (endStream : Bool) : Request :=
  if endStream then .complete headers data else .body headers data

/-- A HEADERS frame, which opens the request or ends it. -/
def onHeaders (headers : List HeaderField) (endStream endHeaders : Bool) : Option Request → Option Request
  | none => some (if endHeaders then received headers [] endStream else .opening endStream)
  | some (.body first data) =>
      if endStream then some (if endHeaders then .complete first data else .trailers first data) else none
  | _ => none

def onContinuation (headers : List HeaderField) (endHeaders : Bool) : Option Request → Option Request
  | some (.opening endStream) => some (if endHeaders then received headers [] endStream else .opening endStream)
  | some (.trailers first data) => some (if endHeaders then .complete first data else .trailers first data)
  | _ => none

def onData (bytes : Bytes) (endStream : Bool) : Option Request → Option Request
  | some (.body headers data) => some (received headers (data ++ bytes) endStream)
  | _ => none

def onReset : Request → Request
  | .complete headers data => .complete headers data
  | _ => .reset

def isComplete : Request → Bool
  | .complete _ _ => true
  | _ => false

/-- The client sends no more frames of the request. -/
def finished : Option Request → Bool
  | none | some (.complete _ _) | some .reset => true
  | _ => false

end Request

/-- The stream whose response a call ends. -/
def Call.ends : Call → Option ℕ
  | .sendResponse id _ _ true | .sendHeaders id _ true | .sendData id _ true | .sendTrailers id _ => some id
  | _ => none

/-- The stream that a call resets. -/
def Call.resets : Call → Option ℕ
  | .sendRstStream id _ => some id
  | _ => none

/-- The requests of a client, and the streams on which a response was ended. -/
structure Client where
  peer : Peer
  requests : IdMap Request
  responded : List ℕ

namespace Client

def start : Client := ⟨.start, ∅, []⟩

/-- The program makes calls. -/
def respond (s : Client) (calls : List Call) : Client :=
  { s with responded := s.responded ++ (calls.filterMap Call.ends).filter fun id => (s.requests.lookup id).isSome }

/-- A frame of a request, which is on an odd stream; the handler is called if it completes the request. -/
def update (s : Client) (id : ℕ) (r : Request) (calls : List Call) : Option Client :=
  if id % 2 = 1 then
    some (respond { s with requests := s.requests.insert id r } (if r.isComplete then calls else []))
  else none

/-- The header fields of a header block that ends with a piece. -/
def headers (s : Client) (id : ℕ) (piece : Bytes) : List HeaderField :=
  (s.peer.table.decode (s.peer.fragment id ++ piece)).1

def frame (s : Client) (f : RawFrame) (calls : List Call) : Option Client :=
  let id := f.streamId
  let endStream := hasFlag f.flags flagEndStream
  let endHeaders := hasFlag f.flags flagEndHeaders
  match FrameType.ofCode f.type with
  | some .headers =>
      (headerPiece f.flags f.payload).bind fun piece =>
        (Request.onHeaders (s.headers id piece) endStream endHeaders (s.requests.lookup id)).bind fun r =>
          s.update id r calls
  | some .continuation =>
      (Request.onContinuation (s.headers id f.payload) endHeaders (s.requests.lookup id)).bind fun r =>
        s.update id r calls
  | some .data =>
      (unpad f.flags f.payload).bind fun data =>
        (Request.onData data endStream (s.requests.lookup id)).bind fun r => s.update id r calls
  | some .rstStream =>
      match s.requests.lookup id with
      | none => some s
      | some r => s.update id r.onReset []
  | _ => some s

/-- A client conforms as a peer, and in its requests. -/
def next (s : Client) (e : Event) : Option Client :=
  (s.peer.next e).bind fun peer =>
    match e with
    | .frame f calls => (s.frame f calls).map fun s => { s with peer }
    | .call cl => some { s.respond [cl] with peer }
    | _ => some { s with peer }

end Client

/-- The steps of a connection and its client. -/
def ServeStep (s : Conn × Client) (e : Event) (s' : Conn × Client) : Prop :=
  Run.execBoth Conn.exec Client.next s e = some s'

/-- The conditions for the header blocks; DATA frames are accepted and have no padding, requests have no trailing header
block, and the program does not reset requests that are not finished. -/
def KeepsRequests (s : Conn × Client) (e : Event) : Prop :=
  KeepsDecoding (s.1, s.2.peer) e ∧
    match e with
    | .frame f calls =>
        (∀ id ∈ calls.filterMap Call.resets, id = f.streamId ∨ Request.finished (s.2.requests.lookup id) = true) ∧
          match FrameType.ofCode f.type with
          | some .headers => s.2.requests.lookup f.streamId = none
          | some .data => ¬s.1.Ignores f.streamId ∧ hasFlag f.flags flagPadded = false
          | _ => True
    | .call cl => ∀ id ∈ [cl].filterMap Call.resets, Request.finished (s.2.requests.lookup id) = true
    | _ => True

instance (s : Conn × Client) (e : Event) : Decidable (KeepsRequests s e) :=
  @instDecidableAnd _ _ inferInstance <|
    match e with
    | .frame f _ => @instDecidableAnd _ _ inferInstance <| by
        generalize FrameType.ofCode f.type = t
        exact match t with
          | some .headers => inferInstanceAs (Decidable (_ = _))
          | some .data => inferInstanceAs (Decidable (_ ∧ _))
          | none | some .continuation | some .settings | some .priority | some .rstStream | some .pushPromise | some .ping | some .goaway | some .windowUpdate =>
              instDecidableTrue
    | .call _ => inferInstanceAs (Decidable (∀ id ∈ _, _))
    | .readable | .readDone | .readFailed _ | .writable => instDecidableTrue

/-! ### One stream -/

/-- The requests of a stream that were handled. -/
def Output.handled (o : Output) (id : ℕ) : List (List HeaderField × Bytes) :=
  o.requests.filterMap fun r => if r.1 = id then some r.2 else none

/-- What a connection knows about a stream. -/
structure StreamView where
  state : Option StreamState
  pending : Option PendingStream
  consumed : Option ℕ
  handled : List (List HeaderField × Bytes)

def Conn.stream (c : Conn) (id : ℕ) : StreamView :=
  ⟨c.streams.lookup id, c.pending.lookup id, c.streamConsumed.lookup id, c.output.handled id⟩

/-- The state of a stream whose request is complete or not, and answered or not. -/
def Tracks (state : Option StreamState) : Bool → Bool → Prop
  | false, false => state = some .opened
  | false, true => state = some .halfClosedLocal
  | true, false => state = none ∨ state = some .halfClosedRemote
  | true, true => state = none

/-- What a connection should know about a stream. -/
def Holds (answered : Bool) (v : StreamView) : Option Request → Prop
  | none => answered = false ∧ v.state = none ∧ v.pending = none ∧ v.consumed = none ∧ v.handled = []
  | some (.opening endStream) => Tracks v.state endStream answered ∧
      (∃ ps, v.pending = some ps ∧ ps.data = [] ∧ ps.endStream = endStream) ∧ v.consumed = none ∧ v.handled = []
  | some (.body headers data) => Tracks v.state false answered ∧
      (∃ ps, v.pending = some ps ∧ ps.headers = headers ∧ ps.data = data) ∧ v.handled = []
  | some (.trailers _ _) => False
  | some (.complete headers data) =>
      Tracks v.state true answered ∧ v.pending = none ∧ v.consumed = none ∧ v.handled = [(headers, data)]
  | some .reset => v.handled = []

/-- What calls do to a stream. -/
structure Answers (id : ℕ) (calls : List Call) (v v' : StreamView) : Prop where
  handled : v'.handled = v.handled
  pending : (v'.pending = v.pending ∧ v'.consumed = v.consumed) ∨
    (id ∈ calls.filterMap Call.resets ∧ v'.pending = none ∧ v'.consumed = none)
  state : ∀ {complete answered : Bool}, Tracks v.state complete answered →
    (id ∈ calls.filterMap Call.resets → complete = true) →
    Tracks v'.state complete (answered || decide (id ∈ calls.filterMap Call.ends))

section

variable {c c' : Conn} {cl : Call} {calls : List Call} {id id' : ℕ} {streams : IdMap StreamState}
  {on : StreamState → StreamState} {state : Option StreamState} {complete answered endStream : Bool} {o o' : Output}
  {headers : List HeaderField} {data : Bytes}

theorem lookup_updateStreams : (Conn.updateStreams streams id on).lookup id =
    (streams.lookup id).bind fun s => if on s = .closed then none else some (on s) := by
  rw [Conn.updateStreams]
  cases h : streams.lookup id with
  | none => exact h
  | some s =>
      simp only [Option.bind_some]
      split
      · exact Finmap.lookup_erase _ _
      · exact Finmap.lookup_insert _

theorem lookup_updateStreams_ne (hne : id' ≠ id) :
    (Conn.updateStreams streams id on).lookup id' = streams.lookup id' := by
  rw [Conn.updateStreams]
  split
  · rfl
  · split
    · exact Finmap.lookup_erase_ne hne
    · exact Finmap.lookup_insert_of_ne _ hne

/-- A call that ends a response, or not. -/
theorem Tracks.send (h : Tracks state complete answered) (h1 : on .opened = if endStream then .halfClosedLocal else .opened)
    (h2 : on .halfClosedLocal = .halfClosedLocal)
    (h3 : on .halfClosedRemote = if endStream then .closed else .halfClosedRemote) :
    Tracks (state.bind fun s => if on s = .closed then none else some (on s)) complete (answered || endStream) := by
  cases complete with
  | false =>
      cases answered with
      | false =>
          obtain rfl : state = some .opened := h
          cases endStream <;> simp [Tracks, h1]
      | true =>
          obtain rfl : state = some .halfClosedLocal := h
          simp [Tracks, h2]
  | true =>
      cases answered with
      | false => rcases (h : state = none ∨ state = some .halfClosedRemote) with rfl | rfl <;> cases endStream <;> simp [Tracks, h3]
      | true =>
          obtain rfl : state = none := h
          rfl

/-- The end of a request. -/
theorem Tracks.receive (h : Tracks state false answered) :
    Tracks (state.bind fun s => if s.onReceiveData true = .closed then none else some (s.onReceiveData true)) true
      answered := by
  cases answered <;> simp only [Tracks] at h ⊢ <;> simp [h, StreamState.onReceiveData]

theorem Output.handled_eq (h : o'.requests = o.requests) (id : ℕ) : o'.handled id = o.handled id := by
  rw [handled, handled, h]

theorem Output.handled_emit (id' : ℕ) : (o.emit (.request id headers data)).handled id' =
    o.handled id' ++ if id = id' then [(headers, data)] else [] := by
  rw [handled, requests, Output.view_emit, List.filterMap_append]
  refine congrArg (o.handled id' ++ ·) ?_
  simp only [Effect.request?, Option.toList_some, List.filterMap_cons, List.filterMap_nil]
  split <;> simp_all

/-! ### Calls -/

namespace Answers

variable {v v' v'' : StreamView}

theorem refl (v : StreamView) : Answers id [] v v := ⟨rfl, Or.inl ⟨rfl, rfl⟩, fun h _ => by simpa using h⟩

theorem cons (h : Answers id [cl] v v') (h' : Answers id calls v' v'') : Answers id (cl :: calls) v v'' := by
  have hsplit : ∀ g : Call → Option ℕ, (cl :: calls).filterMap g = [cl].filterMap g ++ calls.filterMap g := fun g =>
    List.filterMap_append (l := [cl])
  refine ⟨h'.handled.trans h.handled, ?_, fun {r a} ht hr => ?_⟩
  · simp only [hsplit, List.mem_append]
    rcases h'.pending with ⟨hp', hc'⟩ | ⟨hr, hn⟩
    · rw [hp', hc']
      exact h.pending.imp_right fun hn => ⟨Or.inl hn.1, hn.2⟩
    · exact Or.inr ⟨Or.inr hr, hn⟩
  · simp only [hsplit, List.mem_append] at hr ⊢
    have h2 := h'.state (h.state ht fun hm => hr (Or.inl hm)) fun hm => hr (Or.inr hm)
    simpa [Bool.or_assoc] using h2

end Answers

theorem Conn.call_handled (c : Conn) (cl : Call) (id : ℕ) : (c.call cl).output.handled id = c.output.handled id :=
  Output.handled_eq ((c.call_logs cl).view fun _ => Effect.OfCall.request) id

/-- A call that does not reset the stream. -/
theorem Conn.call_answers_of (hr : cl.resets ≠ some id)
    (hs : ∀ {complete answered}, Tracks (c.streams.lookup id) complete answered →
      Tracks ((c.call cl).streams.lookup id) complete (answered || decide (cl.ends = some id))) :
    Answers id [cl] (c.stream id) ((c.call cl).stream id) := by
  have hp : (c.call cl).pending.lookup id = c.pending.lookup id ∧
      (c.call cl).streamConsumed.lookup id = c.streamConsumed.lookup id :=
    call_pending fun error he => hr (by rw [he]; rfl)
  refine ⟨call_handled c cl id, Or.inl hp, fun ht _ => ?_⟩
  have hends : (id ∈ [cl].filterMap Call.ends) ↔ cl.ends = some id := by simp [List.mem_filterMap]
  rw [decide_eq_decide.mpr hends]
  exact hs ht

theorem Conn.call_answers (c : Conn) (cl : Call) (hodd : id % 2 = 1) :
    Answers id [cl] (c.stream id) ((c.call cl).stream id) := by
  have hsame : ∀ {complete answered}, Tracks (c.streams.lookup id) complete answered →
      Tracks (c.streams.lookup id) complete (answered || false) := fun h => by rwa [Bool.or_false]
  have hsend : ∀ (on : StreamState → StreamState) (endStream : Bool) (id' : ℕ),
      on .opened = (if endStream then .halfClosedLocal else .opened) → on .halfClosedLocal = .halfClosedLocal →
      on .halfClosedRemote = (if endStream then .closed else .halfClosedRemote) → ∀ {complete answered},
      Tracks (c.streams.lookup id) complete answered →
        Tracks ((updateStreams c.streams id' on).lookup id) complete
          (answered || decide ((if endStream then some id' else none) = some id)) := by
    intro on endStream id' h1 h2 h3 complete answered ht
    by_cases hid : id' = id
    · subst hid
      rw [lookup_updateStreams]
      cases endStream <;> simpa using ht.send h1 h2 h3
    · rw [lookup_updateStreams_ne (Ne.symm hid), decide_eq_false (by cases endStream <;> simp [hid])]
      exact hsame ht
  cases cl with
  | sendResponse id' headers body endStream =>
      refine call_answers_of (by simp [Call.resets]) fun ht => ?_
      cases endStream with
      | false => exact hsame ht
      | true => exact hsend (·.onSendData true) true id' rfl rfl rfl ht
  | sendHeaders id' headers endStream =>
      refine call_answers_of (by simp [Call.resets]) fun ht => ?_
      cases endStream with
      | false => exact hsend (fun s => (s.onSendHeaders false).onSendData false) false id' rfl rfl rfl ht
      | true => exact hsend (fun s => (s.onSendHeaders false).onSendData true) true id' rfl rfl rfl ht
  | sendData id' data endStream =>
      refine call_answers_of (by simp [Call.resets]) fun ht => ?_
      cases endStream with
      | false => exact hsame ht
      | true => exact hsend (·.onSendData true) true id' rfl rfl rfl ht
  | sendTrailers id' trailers =>
      refine call_answers_of (by simp [Call.resets]) fun ht => ?_
      exact hsend (·.onSendData true) true id' rfl rfl rfl ht
  | writeBodyFrames id' data endStream => exact call_answers_of (by simp [Call.resets]) hsame
  | sendPushPromise id' promised headers =>
      refine call_answers_of (by simp [Call.resets]) fun ht => ?_
      rw [call, sendPushPromise]
      split
      · exact hsame ht
      · rename_i hp
        have hne : id ≠ promised := fun he => hp (by simp [← he, hodd])
        rw [Finmap.lookup_insert_of_ne _ hne]
        exact hsame ht
  | sendRstStream id' error =>
      by_cases hid : id' = id
      · subst hid
        have hmem : id' ∈ [Call.sendRstStream id' error].filterMap Call.resets := List.mem_singleton.mpr rfl
        refine ⟨call_handled c _ id', Or.inr ⟨hmem, Finmap.lookup_erase _ _, Finmap.lookup_erase _ _⟩, fun {r a} ht hr => ?_⟩
        obtain rfl := hr hmem
        have hnone : ((c.call (.sendRstStream id' error)).stream id').state = none := Finmap.lookup_erase _ _
        rw [hnone]
        cases a <;> simp [Tracks, Call.ends]
      · refine call_answers_of (by simpa [Call.resets] using hid) fun ht => ?_
        have hsame' : (c.call (.sendRstStream id' error)).streams.lookup id = c.streams.lookup id :=
          Finmap.lookup_erase_ne (Ne.symm hid)
        rw [hsame']
        exact hsame ht
  | sendGoaway error => exact call_answers_of (by simp [Call.resets]) hsame
  | stop => exact call_answers_of (by simp [Call.resets]) hsame

theorem Conn.foldl_call_answers (c : Conn) (calls : List Call) (hodd : id % 2 = 1) :
    Answers id calls (c.stream id) ((calls.foldl call c).stream id) := by
  induction calls generalizing c with
  | nil => exact .refl _
  | cons cl calls ih => exact (c.call_answers cl hodd).cons (ih _)

theorem Holds.answers {v v' : StreamView} {r : Option Request} (h : Holds answered v r) (ha : Answers id calls v v')
    (hr : id ∈ calls.filterMap Call.resets → Request.finished r = true) :
    Holds (answered || (r.isSome && decide (id ∈ calls.filterMap Call.ends))) v' r := by
  have hkept : Request.finished r = false → v'.pending = v.pending ∧ v'.consumed = v.consumed := by
    intro hfin
    refine ha.pending.resolve_right fun hn => ?_
    rw [hr hn.1] at hfin
    cases hfin
  have hgone : v.pending = none → v.consumed = none → v'.pending = none ∧ v'.consumed = none := by
    intro hp hc
    rcases ha.pending with ⟨hp', hc'⟩ | ⟨_, hn⟩
    · exact ⟨hp'.trans hp, hc'.trans hc⟩
    · exact hn
  cases r with
  | none =>
      obtain ⟨rfl, hs, hp, hc, hh⟩ := h
      have hs' := ha.state (show Tracks v.state true true from hs) fun _ => rfl
      exact ⟨rfl, hs', (hgone hp hc).1, (hgone hp hc).2, ha.handled.trans hh⟩
  | some r =>
      rw [Option.isSome_some, Bool.true_and]
      cases r with
      | opening endStream =>
          obtain ⟨hs, ⟨ps, hps, hd, he⟩, hc, hh⟩ := h
          have hn : id ∉ calls.filterMap Call.resets := fun hm => Bool.false_ne_true (hr hm)
          exact ⟨ha.state hs fun hm => absurd hm hn, ⟨ps, (hkept rfl).1.trans hps, hd, he⟩, (hkept rfl).2.trans hc,
            ha.handled.trans hh⟩
      | body headers data =>
          obtain ⟨hs, ⟨ps, hps, hd⟩, hh⟩ := h
          have hn : id ∉ calls.filterMap Call.resets := fun hm => Bool.false_ne_true (hr hm)
          exact ⟨ha.state hs fun hm => absurd hm hn, ⟨ps, (hkept rfl).1.trans hps, hd⟩, ha.handled.trans hh⟩
      | trailers headers data => exact h
      | complete headers data =>
          obtain ⟨hs, hp, hc, hh⟩ := h
          exact ⟨ha.state hs fun _ => rfl, (hgone hp hc).1, (hgone hp hc).2, ha.handled.trans hh⟩
      | reset => exact ha.handled.trans h

/-! ### Frames -/

/-- A frame of a stream makes its request `r`, and the handler makes its calls if `r` is complete. -/
structure Updates (c c' : Conn) (id : ℕ) (answered : Bool) (calls : List Call) (r : Request) : Prop where
  other : ∀ {id'}, id' ≠ id → id' % 2 = 1 →
    Answers id' (if r.isComplete then calls else []) (c.stream id') (c'.stream id')
  self : Holds (answered || decide (id ∈ (if r.isComplete then calls else []).filterMap Call.ends)) (c'.stream id)
    (some r)

theorem Conn.stream_eq (hs : c'.streams.lookup id = c.streams.lookup id) (hp : c'.pending.lookup id = c.pending.lookup id)
    (hc : c'.streamConsumed.lookup id = c.streamConsumed.lookup id) (ho : c'.output.requests = c.output.requests) :
    c'.stream id = c.stream id := by
  simp only [stream, hs, hp, hc, Output.handled_eq ho]

theorem Updates.of_unfinished {r : Request} (hr : r.isComplete = false)
    (hother : ∀ {id'}, id' ≠ id → c'.stream id' = c.stream id') (hself : Holds answered (c'.stream id) (some r)) :
    Updates c c' id answered calls r := by
  refine ⟨fun hne _ => ?_, ?_⟩
  · rw [hr, hother hne]
    exact .refl _
  · rw [hr]
    simpa using hself

/-- The handler is called and the stream is not pending any more. -/
theorem Updates.of_finish (c₁ : Conn) (hother : ∀ {id'}, id' ≠ id → c₁.stream id' = c.stream id')
    (hodd : id % 2 = 1) (hs : Tracks (c₁.streams.lookup id) true answered) (hh : c₁.output.handled id = [])
    (hstreams : c'.streams = (c₁.handleRequest calls id headers data).streams)
    (hout : c'.output = (c₁.handleRequest calls id headers data).output)
    (hpend : c'.pending = (c₁.handleRequest calls id headers data).pending.erase id)
    (hcons : ∀ {id'}, id' ≠ id →
      c'.streamConsumed.lookup id' = (c₁.handleRequest calls id headers data).streamConsumed.lookup id')
    (hnone : c'.streamConsumed.lookup id = none) : Updates c c' id answered calls (.complete headers data) := by
  have hans : ∀ {id'}, id' % 2 = 1 → Answers id' calls
      ({ c₁ with output := c₁.output.emit (.request id headers data) }.stream id')
      ((c₁.handleRequest calls id headers data).stream id') := fun hodd' => Conn.foldl_call_answers _ calls hodd'
  refine ⟨fun {id'} hne hodd' => ?_, ?_⟩
  · have hbefore : ({ c₁ with output := c₁.output.emit (.request id headers data) } : Conn).stream id' = c.stream id' := by
      rw [← hother hne]
      simp only [Conn.stream, Output.handled_emit, if_neg (Ne.symm hne), List.append_nil]
    have hafter : c'.stream id' = (c₁.handleRequest calls id headers data).stream id' := by
      refine Conn.stream_eq (by rw [hstreams]) ?_ (hcons hne) (by rw [hout])
      rw [hpend]
      exact Finmap.lookup_erase_ne hne
    rw [hafter, ← hbefore]
    exact hans hodd'
  · have h := hans hodd
    refine ⟨?_, ?_, hnone, ?_⟩
    · have hstate := h.state hs fun _ => rfl
      show Tracks (c'.streams.lookup id) true _
      rw [hstreams]
      exact hstate
    · show c'.pending.lookup id = none
      rw [hpend]
      exact Finmap.lookup_erase _ _
    · show c'.output.handled id = _
      rw [hout]
      refine h.handled.trans ?_
      show (c₁.output.emit _).handled id = _
      rw [Output.handled_emit, hh, if_pos rfl, List.nil_append]

variable {flags : UInt8} {block payload : Bytes} {ps : PendingStream} {f : RawFrame}

theorem Conn.handleRequest_consumed (hodd : id % 2 = 1) (h : c.streamConsumed.lookup id = none) :
    (c.handleRequest calls id headers data).streamConsumed.lookup id = none := by
  rcases (foldl_call_answers { c with output := c.output.emit (.request id headers data) } calls hodd).pending with
    ⟨_, hk⟩ | ⟨_, _, hn⟩
  · exact hk.trans h
  · exact hn

theorem Conn.decodeBlock_requests (c : Conn) (id : ℕ) (ps : PendingStream) :
    (c.decodeBlock id ps).output.requests = c.output.requests :=
  (Output.view_emit _).trans (List.append_nil _)

theorem Conn.decodeBlock_stream_ne (hne : id' ≠ id) : (c.decodeBlock id ps).stream id' = c.stream id' :=
  stream_eq rfl (Finmap.lookup_insert_of_ne _ hne) rfl (decodeBlock_requests c id ps)

theorem Conn.updateStream_stream_ne (hne : id' ≠ id) : (c.updateStream id on).stream id' = c.stream id' :=
  stream_eq (lookup_updateStreams_ne hne) rfl rfl rfl

/-- The stream is known before its header block is. -/
theorem Conn.openStream_state (hnone : c.streams.lookup id = none) (endStream : Bool) :
    Tracks ((c.openStream id endStream).streams.lookup id) endStream false ∧
      ∀ {id'}, id' ≠ id → (c.openStream id endStream).stream id' = c.stream id' := by
  have hs : (c.openStream id endStream).streams = c.streams.insert id (StreamState.idle.onReceiveHeaders endStream) :=
    if_pos hnone
  refine ⟨?_, fun hne => ?_⟩
  · rw [hs, Finmap.lookup_insert]
    cases endStream with
    | false => rfl
    | true => exact Or.inr rfl
  · refine stream_eq ?_ rfl rfl rfl
    rw [hs, Finmap.lookup_insert_of_ne _ hne]

theorem Conn.handleHeadersFrame_updates (calls : List Call) (flags : UInt8) (payload : Bytes)
    (h : Holds answered (c.stream id) none) (hodd : id % 2 = 1) (ha : c.Admits id) :
    Updates c (c.handleHeadersFrame calls flags id payload) id answered calls
      (if hasFlag flags flagEndHeaders then
        .received (c.decoder.decode payload).1 [] (hasFlag flags flagEndStream)
      else .opening (hasFlag flags flagEndStream)) := by
  obtain ⟨rfl, hs, hp, hc, hh⟩ := h
  have hp' : (c.openStream id (hasFlag flags flagEndStream)).pending.lookup id = none := hp
  rw [handleHeadersFrame, if_neg ha.not_refused]
  simp only [hp', Option.getD_none, List.nil_append]
  obtain ⟨htracks, hother⟩ := openStream_state hs (hasFlag flags flagEndStream)
  generalize hasFlag flags flagEndStream = endStream at htracks hother ⊢
  have hreq : (c.openStream id endStream).output.handled id = [] := hh
  cases hasFlag flags flagEndHeaders with
  | false =>
      rw [if_neg (by simp), if_neg (by simp)]
      refine .of_unfinished rfl (fun hne => ?_) ⟨htracks, ⟨_, Finmap.lookup_insert _, rfl, rfl⟩, hc, hreq⟩
      rw [← hother hne]
      exact stream_eq rfl (Finmap.lookup_insert_of_ne _ hne) rfl rfl
  | true =>
      rw [if_pos rfl, if_pos rfl]
      cases endStream with
      | false =>
          rw [if_neg (by simp)]
          refine .of_unfinished rfl (fun hne => (decodeBlock_stream_ne hne).trans (hother hne)) ?_
          exact ⟨htracks, ⟨_, Finmap.lookup_insert _, rfl, rfl⟩,
            (Output.handled_eq (decodeBlock_requests _ id _) id).trans hreq⟩
      | true =>
          rw [if_pos rfl]
          refine .of_finish (((c.openStream id true).decodeBlock id
            { headerBlockFragment := payload, endStream := true }).updateStream id fun s => s)
            (fun hne => ?_) hodd ?_ ?_ rfl rfl rfl (fun _ => rfl) ?_
          · rw [updateStream_stream_ne hne, decodeBlock_stream_ne hne]
            exact hother hne
          · show Tracks ((updateStreams (c.openStream id true).streams id fun s => s).lookup id) true false
            rw [lookup_updateStreams]
            rcases htracks with hn | hr
            · exact Or.inl (by rw [hn]; rfl)
            · exact Or.inr (by rw [hr]; rfl)
          · exact (Output.handled_eq (decodeBlock_requests _ id _) id).trans hreq
          · exact handleRequest_consumed hodd hc

theorem Conn.handleContinuationFrame_updates (calls : List Call) (flags : UInt8) (payload block : Bytes)
    (h : Holds answered (c.stream id) (some (.opening endStream)))
    (hodd : id % 2 = 1) (hw : ∀ ps, c.pending.lookup id = some ps →
      ps.waitingContinuation = true ∧ ps.headerBlockFragment = block) :
    Updates c (c.handleContinuationFrame calls flags id payload) id answered calls
      (if hasFlag flags flagEndHeaders then .received (c.decoder.decode (block ++ payload)).1 [] endStream
      else .opening endStream) := by
  obtain ⟨htracks, ⟨ps, hps, hd, he⟩, hc, hh⟩ := h
  have hps' : c.pending.lookup id = some ps := hps
  obtain ⟨hwait, hfrag⟩ := hw ps hps
  rw [handleContinuationFrame, hps']
  simp only [hwait, if_true, hfrag, he]
  cases hasFlag flags flagEndHeaders with
  | false =>
      rw [if_neg (by simp), if_neg (by simp)]
      refine .of_unfinished rfl (fun hne => ?_) ⟨htracks, ⟨_, Finmap.lookup_insert _, hd, rfl⟩, hc, hh⟩
      exact stream_eq rfl (Finmap.lookup_insert_of_ne _ hne) rfl rfl
  | true =>
      rw [if_pos rfl, if_pos rfl]
      cases endStream with
      | false =>
          rw [if_neg (by simp)]
          refine .of_unfinished rfl (fun hne => decodeBlock_stream_ne hne) ?_
          exact ⟨htracks, ⟨_, Finmap.lookup_insert _, rfl, hd⟩, (Output.handled_eq (decodeBlock_requests _ id _) id).trans hh⟩
      | true =>
          rw [if_pos rfl]
          refine .of_finish (c.decodeBlock id _) (fun hne => decodeBlock_stream_ne hne) hodd htracks ?_ rfl rfl rfl
            (fun _ => rfl) (handleRequest_consumed hodd hc)
          exact (Output.handled_eq (decodeBlock_requests _ id _) id).trans hh

theorem Conn.handleDataFrame_updates (h : Holds answered (c.stream id) (some (.body headers data))) (hodd : id % 2 = 1) :
    Updates c (c.handleDataFrame calls flags id payload) id answered calls
      (.received headers (data ++ payload) (hasFlag flags flagEndStream)) := by
  obtain ⟨htracks, ⟨ps, hps, rfl, rfl⟩, hh⟩ := h
  have hps' : c.pending.lookup id = some ps := hps
  have hreq : (c.receiveCredit id payload.length).output.requests = c.output.requests :=
    (c.receiveCredit_logs id payload.length).view fun _ => Effect.OfCredit.request
  rw [handleDataFrame, hps']
  simp only
  cases hasFlag flags flagEndStream with
  | false =>
      rw [if_neg (by simp)]
      refine .of_unfinished rfl (fun hne => ?_) ⟨htracks, ⟨_, Finmap.lookup_insert _, rfl, rfl⟩, ?_⟩
      · exact stream_eq rfl (Finmap.lookup_insert_of_ne _ hne) (Finmap.lookup_insert_of_ne _ hne) hreq
      · exact (Output.handled_eq hreq id).trans hh
  | true =>
      rw [if_pos rfl]
      refine .of_finish (Conn.updateStream _ id _) (fun hne => ?_) hodd ?_ ?_ rfl rfl rfl
        (fun hne => Finmap.lookup_erase_ne hne) (Finmap.lookup_erase _ _)
      · exact stream_eq (lookup_updateStreams_ne hne) (Finmap.lookup_insert_of_ne _ hne)
          (Finmap.lookup_insert_of_ne _ hne) hreq
      · show Tracks ((updateStreams c.streams id (·.onReceiveData true)).lookup id) true answered
        rw [lookup_updateStreams]
        exact htracks.receive
      · exact (Output.handled_eq hreq id).trans hh

theorem Conn.handleRstStreamFrame_updates {r : Request} (h : Holds answered (c.stream id) (some r)) :
    Updates c (c.handleRstStreamFrame id) id answered [] r.onReset := by
  refine ⟨fun {id'} hne _ => ?_, ?_⟩
  · have hsame : (c.handleRstStreamFrame id).stream id' = c.stream id' := stream_eq (lookup_updateStreams_ne hne)
      (Finmap.lookup_erase_ne hne) (Finmap.lookup_erase_ne hne) rfl
    rw [ite_self, hsame]
    exact .refl _
  · rw [ite_self]
    simp only [List.filterMap_nil, List.not_mem_nil, decide_false, Bool.or_false]
    cases r with
    | complete headers data =>
        have hnone : (c.handleRstStreamFrame id).streams.lookup id = none := by
          show (updateStreams c.streams id fun _ => .closed).lookup id = none
          rw [lookup_updateStreams]
          cases c.streams.lookup id <;> rfl
        refine ⟨?_, Finmap.lookup_erase _ _, Finmap.lookup_erase _ _, h.2.2.2⟩
        show Tracks ((c.handleRstStreamFrame id).streams.lookup id) true answered
        rw [hnone]
        cases answered with
        | false => exact Or.inl rfl
        | true => rfl
    | opening endStream => exact h.2.2.2
    | body headers data => exact h.2.2
    | trailers headers data => exact h.elim
    | reset => exact h

/-- Frames that do not belong to a request. -/
theorem Conn.handleFrame_stream (hh : FrameType.ofCode f.type ≠ some .headers)
    (hc : FrameType.ofCode f.type ≠ some .continuation) (hd : FrameType.ofCode f.type ≠ some .data)
    (hr : FrameType.ofCode f.type ≠ some .rstStream) (hp : FrameType.ofCode f.type ≠ some .pushPromise) :
    (c.handleFrame calls f).stream id = c.stream id := by
  have hout : ∀ {o}, Logs Effect.OfCall c.output o → o.requests = c.output.requests := fun h =>
    h.view fun _ => Effect.OfCall.request
  rw [handleFrame]
  split
  · rfl
  · cases ht : FrameType.ofCode f.type with
    | none => rfl
    | some type =>
        cases type with
        | headers => exact (hh ht).elim
        | continuation => exact (hc ht).elim
        | data => exact (hd ht).elim
        | rstStream => exact (hr ht).elim
        | pushPromise => exact (hp ht).elim
        | priority => rfl
        | settings =>
            simp only [handleSettingsFrame]
            split
            · rfl
            · exact stream_eq rfl rfl rfl (hout ((Logs.refl _).writeFrame trivial trivial))
        | ping =>
            simp only [handlePingFrame]
            split
            · rfl
            · split
              · rfl
              · refine stream_eq rfl rfl rfl (hout ?_)
                exact (Logs.refl _).writeFrame trivial trivial
        | goaway =>
            simp only [handleGoawayFrame]
            split
            · rfl
            · exact stream_eq rfl rfl rfl (hout ((Logs.refl _).closeConnection _ trivial))
        | windowUpdate =>
            simp only [handleWindowUpdateFrame]
            split
            · rfl
            · generalize (if f.streamId = 0 then c.flowControl.connectionWindow else _) = current
              split
              · exact stream_eq rfl rfl rfl (hout ((Logs.refl _).closeConnection _ trivial))
              · split
                · exact stream_eq rfl rfl rfl (hout (c.call_logs (.sendGoaway .flowControlError)))
                · rfl

end

/-! ### Runs -/

/-- The connection knows about every stream what it should. -/
def Knows (c : Conn) (s : Client) : Prop :=
  ∀ id, id % 2 = 1 → Holds (decide (id ∈ s.responded)) (c.stream id) (s.requests.lookup id)

structure Serves (c : Conn) (s : Client) : Prop where
  follows : Follows c s.peer
  knows : Knows c s

/-- The complete request of a stream was handled once, with its header fields and its body, and other requests were
not; the stream is forgotten when the request is complete and its response ended. -/
def Served (c : Conn) (s : Client) (id : ℕ) : Prop :=
  match s.requests.lookup id with
  | some (.complete headers data) => c.output.handled id = [(headers, data)] ∧ (id ∈ s.responded →
      c.streams.lookup id = none ∧ c.pending.lookup id = none ∧ c.streamConsumed.lookup id = none)
  | _ => c.output.handled id = []

section

variable {c c' : Conn} {s s' : Client} {e : Event} {cl : Call} {calls : List Call} {id : ℕ} {r : Request} {f : RawFrame}
  {peer : Peer}

theorem Client.mem_respond : id ∈ (s.respond calls).responded ↔
    id ∈ s.responded ∨ ((s.requests.lookup id).isSome = true ∧ id ∈ calls.filterMap Call.ends) := by
  rw [respond, List.mem_append, List.mem_filter, and_comm]

theorem Client.decide_mem_respond : decide (id ∈ (s.respond calls).responded) =
    (decide (id ∈ s.responded) || ((s.requests.lookup id).isSome && decide (id ∈ calls.filterMap Call.ends))) := by
  simp only [mem_respond, Bool.decide_or, Bool.decide_and, Bool.decide_eq_true]

theorem Knows.respond (h : Knows c s) (ha : ∀ {id}, id % 2 = 1 → Answers id calls (c.stream id) (c'.stream id))
    (hr : ∀ id ∈ calls.filterMap Call.resets, Request.finished (s.requests.lookup id) = true) :
    Knows c' (s.respond calls) := by
  intro id hodd
  rw [Client.decide_mem_respond]
  exact (h _ hodd).answers (ha hodd) (hr id)

theorem Knows.update (h : Knows c s) (hu : s.update id r calls = some s')
    (hup : id % 2 = 1 → Updates c c' id (decide (id ∈ s.responded)) calls r)
    (hr : ∀ id' ∈ calls.filterMap Call.resets, id' = id ∨ Request.finished (s.requests.lookup id') = true) :
    Knows c' s' := by
  obtain ⟨hodd, hs'⟩ := Option.ite_none_right_eq_some.mp hu
  obtain rfl := Option.some.inj hs'
  obtain ⟨hother, hself⟩ := hup hodd
  intro id' hodd'
  rw [Client.decide_mem_respond]
  by_cases hid : id' = id
  · subst hid
    simp only [Client.respond, Finmap.lookup_insert, Option.isSome_some, Bool.true_and]
    exact hself
  · simp only [Client.respond, Finmap.lookup_insert_of_ne _ hid]
    refine (h _ hodd').answers (hother hid hodd') fun hm => ?_
    split at hm
    · exact (hr id' hm).resolve_left hid
    · cases hm

/-- The connection decodes the header fields that the client encoded. -/
theorem Follows.headers {endHeaders : Bool} (h : Follows c s.peer) (id : ℕ) (piece : Bytes)
    (hadv : s.peer.advance id (s.peer.fragment id ++ piece) endHeaders = some peer) (hend : endHeaders = true) :
    (c.decoder.decode (s.peer.fragment id ++ piece)).1 = s.headers id piece := by
  rcases Peer.advance_eq_some hadv with ⟨_, hperm, _⟩ | ⟨hend', _⟩
  · exact (h.table.follow hperm).1
  · rw [hend] at hend'
    cases hend'

theorem Holds.onReset {answered : Bool} {v : StreamView} (h : Holds answered v (some r)) :
    Holds answered v (some r.onReset) := by
  cases r with
  | complete headers data => exact h
  | opening endStream => exact h.2.2.2
  | body headers data => exact h.2.2
  | trailers headers data => exact h.elim
  | reset => exact h

/-- A stream without a request can be reset. -/
theorem Knows.resetUnknown (h : Knows c s) (hnone : s.requests.lookup id = none) : Knows (c.handleRstStreamFrame id) s := by
  intro id' hodd
  by_cases hid : id' = id
  · subst hid
    have hold := h _ hodd
    rw [hnone] at hold ⊢
    obtain ⟨ha, hs, _, _, hh⟩ := hold
    refine ⟨ha, ?_, Finmap.lookup_erase _ _, Finmap.lookup_erase _ _, hh⟩
    show (Conn.updateStreams c.streams id' fun _ => .closed).lookup id' = none
    rw [lookup_updateStreams, show c.streams.lookup id' = none from hs]
    rfl
  · have hsame : (c.handleRstStreamFrame id).stream id' = c.stream id' := Conn.stream_eq (lookup_updateStreams_ne hid)
      (Finmap.lookup_erase_ne hid) (Finmap.lookup_erase_ne hid) rfl
    rw [hsame]
    exact h _ hodd

theorem Serves.headersFrame (h : Serves c s) (hk : KeepsRequests (c, s) (.frame f calls))
    (ht : FrameType.ofCode f.type = some .headers) (hs : s.frame f calls = some s') (hop : s.peer.openBlock = none)
    {piece : Bytes} (hpiece : headerPiece f.flags f.payload = some piece)
    (hadv : s.peer.advance f.streamId piece (hasFlag f.flags flagEndHeaders) = some peer) :
    Knows (c.handleFrame calls f) s' := by
  obtain ⟨hk, hr, hnone⟩ := hk
  simp only [ht, KeepsDecoding, Client.frame] at hs hnone hk
  obtain ⟨hi, ha, hpad, hprio⟩ := hk
  obtain rfl : f.payload = piece := by simpa [headerPiece, unpad, hpad, hprio] using hpiece
  have hfrag := s.peer.fragment_of_none hop f.streamId
  have hhead := h.follows.headers f.streamId f.payload (by rwa [hfrag, List.nil_append])
  rw [hfrag, List.nil_append] at hhead
  simp only [hpiece, Option.bind_some, hnone, Request.onHeaders] at hs
  refine h.knows.update hs (fun hodd => ?_) hr
  have hold := h.knows _ hodd
  rw [hnone] at hold
  have hup := Conn.handleHeadersFrame_updates calls f.flags f.payload hold hodd ha
  rw [Conn.handleFrame, if_neg hi]
  simp only [ht]
  cases heh : hasFlag f.flags flagEndHeaders with
  | false => simpa only [heh, Bool.false_eq_true, if_false] using hup
  | true => simpa only [heh, hhead heh] using hup

theorem Serves.continuationFrame (h : Serves c s) (hk : KeepsRequests (c, s) (.frame f calls))
    (ht : FrameType.ofCode f.type = some .continuation) (hs : s.frame f calls = some s') {block : Bytes}
    (hop : s.peer.openBlock = some (f.streamId, block))
    (hadv : s.peer.advance f.streamId (block ++ f.payload) (hasFlag f.flags flagEndHeaders) = some peer) :
    Knows (c.handleFrame calls f) s' := by
  obtain ⟨hk, hr, _⟩ := hk
  simp only [ht, KeepsDecoding, Client.frame] at hs hk
  obtain ⟨r, hreq, hu⟩ := Option.bind_eq_some_iff.mp hs
  have hodd := (Option.ite_none_right_eq_some.mp hu).1
  have hold := h.knows _ hodd
  have hfrag := (Peer.fragment_of_some hop).1
  have hhead := h.follows.headers f.streamId f.payload (by rwa [hfrag])
  rw [hfrag] at hhead
  refine h.knows.update hu (fun _ => ?_) hr
  rw [Conn.handleFrame, if_neg hk]
  simp only [ht]
  cases hl : s.requests.lookup f.streamId with
  | none => simp [hl, Request.onContinuation] at hreq
  | some r' =>
      rw [hl] at hold hreq
      cases r' with
      | opening endStream =>
          obtain rfl := Option.some.inj hreq
          have hup := Conn.handleContinuationFrame_updates calls f.flags f.payload block hold hodd fun ps hps => by
              obtain ⟨ps', hps', hw⟩ := h.follows.waiting hop
              obtain rfl := Option.some.inj (hps.symm.trans hps')
              exact ⟨hw, (h.follows.fragment hps).trans hfrag⟩
          cases heh : hasFlag f.flags flagEndHeaders with
          | false => simpa only [heh, Bool.false_eq_true, if_false] using hup
          | true => simpa only [heh, hhead heh] using hup
      | trailers headers data => exact hold.elim
      | _ => cases hreq

theorem Serves.dataFrame (h : Serves c s) (hk : KeepsRequests (c, s) (.frame f calls))
    (ht : FrameType.ofCode f.type = some .data) (hs : s.frame f calls = some s') : Knows (c.handleFrame calls f) s' := by
  obtain ⟨_, hr, hk⟩ := hk
  simp only [ht, Client.frame] at hs hk
  obtain ⟨hi, hpad⟩ := hk
  have hpay : unpad f.flags f.payload = some f.payload := by simp [unpad, hpad]
  rw [hpay, Option.bind_some] at hs
  obtain ⟨r, hreq, hu⟩ := Option.bind_eq_some_iff.mp hs
  have hodd := (Option.ite_none_right_eq_some.mp hu).1
  have hold := h.knows _ hodd
  refine h.knows.update hu (fun _ => ?_) hr
  rw [Conn.handleFrame, if_neg hi]
  simp only [ht]
  cases hl : s.requests.lookup f.streamId with
  | none => simp [hl, Request.onData] at hreq
  | some r' =>
      rw [hl] at hold hreq
      cases r' with
      | body headers data =>
          obtain rfl := Option.some.inj hreq
          exact Conn.handleDataFrame_updates hold hodd
      | _ => cases hreq

theorem Serves.rstStreamFrame (h : Serves c s) (ht : FrameType.ofCode f.type = some .rstStream)
    (hs : s.frame f calls = some s') : Knows (c.handleFrame calls f) s' := by
  simp only [ht, Client.frame] at hs
  rw [Conn.handleFrame]
  cases hl : s.requests.lookup f.streamId with
  | none =>
      rw [hl] at hs
      obtain rfl := Option.some.inj hs
      split
      · exact h.knows
      · simp only [ht]
        exact h.knows.resetUnknown hl
  | some r =>
      rw [hl] at hs
      refine h.knows.update hs (fun hodd => ?_) (by simp)
      have hold := h.knows _ hodd
      rw [hl] at hold
      split
      · refine ⟨fun _ _ => ?_, ?_⟩
        · rw [ite_self]
          exact .refl _
        · rw [ite_self]
          simpa using hold.onReset
      · simp only [ht]
        exact Conn.handleRstStreamFrame_updates hold

theorem Serves.frame (h : Serves c s) (hk : KeepsRequests (c, s) (.frame f calls)) (hs : s.frame f calls = some s')
    (hp : s.peer.next (.frame f calls) = some peer) : Knows (c.handleFrame calls f) s' := by
  rcases Peer.next_frame hp with ⟨ht, hop, piece, hpiece, hadv⟩ | ⟨ht, block, hop, hadv⟩ | ⟨hh, hc, hpush, _, _⟩
  · exact h.headersFrame hk ht hs hop hpiece hadv
  · exact h.continuationFrame hk ht hs hop hadv
  · by_cases hd : FrameType.ofCode f.type = some .data
    · exact h.dataFrame hk hd hs
    · by_cases hr : FrameType.ofCode f.type = some .rstStream
      · exact h.rstStreamFrame hr hs
      · intro id hodd
        rw [Conn.handleFrame_stream hh hc hd hr hpush]
        have hsame : s' = s := by
          unfold Client.frame at hs
          split at hs
          · exact (hh ‹_›).elim
          · exact (hc ‹_›).elim
          · exact (hd ‹_›).elim
          · exact (hr ‹_›).elim
          · exact (Option.some.inj hs).symm
        rw [hsame]
        exact h.knows _ hodd

/-- **One step.** -/
theorem ServeStep.serves {t t' : Conn × Client} (h : Serves t.1 t.2) (hst : Guarded KeepsRequests ServeStep t e t') :
    Serves t'.1 t'.2 := by
  obtain ⟨c, s⟩ := t
  obtain ⟨c', s'⟩ := t'
  obtain ⟨hk, hst⟩ := hst
  obtain ⟨hc, hs⟩ := Run.execBoth_eq_some.mp hst
  obtain ⟨peer, hp, hs⟩ := Option.bind_eq_some_iff.mp hs
  have hpeer : s'.peer = peer := by
    cases e with
    | frame f calls =>
        obtain ⟨s₁, _, rfl⟩ := Option.map_eq_some_iff.mp hs
        rfl
    | _ => exact congrArg Client.peer (Option.some.inj hs).symm
  have hfollows : Follows c' s'.peer := by
    rw [hpeer]
    have hlink : Guarded KeepsDecoding LinkStep (c, s.peer) e (c', peer) :=
      ⟨hk.1, Run.execBoth_eq_some.mpr ⟨hc, hp⟩⟩
    exact LinkStep.follows (s := (c, s.peer)) h.follows hlink
  refine ⟨hfollows, ?_⟩
  rcases ConnStep.inv hc with ⟨f, calls, rfl, _, rfl⟩ | ⟨cl, rfl, rfl⟩ | ⟨hidle, depth, o, hlog, rfl⟩
  · obtain ⟨s₁, hs₁, rfl⟩ := Option.map_eq_some_iff.mp hs
    have hknows : Knows (c.handleFrame calls f) s₁ := h.frame hk hs₁ hp
    exact hknows
  · obtain rfl := Option.some.inj hs
    exact h.knows.respond (fun hodd => c.call_answers cl hodd) hk.2
  · have hsame : s' = { s with peer } := by
      cases e <;> first | exact hidle.elim | exact (Option.some.inj hs).symm
    intro id hodd
    have hreq : o.requests = c.output.requests := hlog.view fun e he => by
      cases e <;> first | rfl | exact he.elim
    have hstream : ({ c with writeBatchDepth := depth, output := o } : Conn).stream id = c.stream id :=
      Conn.stream_eq rfl rfl rfl hreq
    rw [hsame, hstream]
    exact h.knows _ hodd

theorem serves_ready (l : LocalSettings) : Serves (Conn.ready l) Client.start := by
  refine ⟨follows_ready l, fun id _ => ?_⟩
  have hreq : (Conn.ready l).output.requests = [] := (Conn.ready_logs l).view fun _ => Effect.OfCall.request
  have hhandled : (Conn.ready l).output.handled id = [] := by rw [Output.handled, hreq, List.filterMap_nil]
  have hnone : Client.start.requests.lookup id = none := Finmap.lookup_empty id
  rw [hnone]
  exact ⟨rfl, Finmap.lookup_empty (β := fun _ => StreamState) id, Finmap.lookup_empty (β := fun _ => PendingStream) id,
    Finmap.lookup_empty (β := fun _ => ℕ) id, hhandled⟩

theorem Holds.served (h : Holds (decide (id ∈ s.responded)) (c.stream id) (s.requests.lookup id)) : Served c s id := by
  unfold Served
  split
  · rename_i headers data hl
    rw [hl] at h
    obtain ⟨hs, hp, hc, hh⟩ := h
    refine ⟨hh, fun hm => ⟨?_, hp, hc⟩⟩
    rw [decide_eq_true hm] at hs
    exact hs
  · rename_i hl
    cases hr : s.requests.lookup id with
    | none =>
        rw [hr] at h
        exact h.2.2.2.2
    | some r =>
        rw [hr] at h
        cases r with
        | opening endStream => exact h.2.2.2
        | body headers data => exact h.2.2
        | trailers headers data => exact h.elim
        | complete headers data => exact (hl headers data hr).elim
        | reset => exact h

end

/-- **Every complete request is handled, once and as it was sent, and forgotten when it is answered.** -/
theorem run_served {l : LocalSettings} {es : List Event} {t : Conn × Client}
    (hr : Run (Guarded KeepsRequests ServeStep) (Conn.ready l, Client.start) es t) {id : ℕ} (hodd : id % 2 = 1) :
    Served t.1 t.2 id :=
  ((hr.invariant (P := fun t => Serves t.1 t.2) (serves_ready l) ServeStep.serves).knows id hodd).served

/-- Two interleaved requests: a header block in two frames and a body in two frames, and a request without a body. -/
theorem run_served_sample : ∃ t : Conn × Client,
    t.2.requests.lookup 1 = some (.complete [⟨ascii "a", ascii "b"⟩] [1, 2]) ∧ t.2.responded = [3, 1] ∧
      Served t.1 t.2 1 ∧ Served t.1 t.2 3 := by
  have ht : (([.readable, .frame ⟨0x1, 0x0, 1, [0x40, 1]⟩ [], .frame ⟨0x9, 0x4, 1, [97, 1, 98]⟩ [],
      .frame ⟨0x0, 0x0, 1, [1]⟩ [], .frame ⟨0x1, 0x5, 3, [0xBE]⟩ [.sendResponse 3 [] [] true],
      .frame ⟨0x0, 0x1, 1, [2]⟩ [.sendResponse 1 [] [3] true]] : List Event).foldlM
      (Run.guardExec KeepsRequests (Run.execBoth Conn.exec Client.next)) (.ready {}, .start)).map
      (fun t => (t.2.requests.lookup 1, t.2.responded)) =
      some (some (.complete [⟨ascii "a", ascii "b"⟩] [1, 2]), [3, 1]) := by
    decide
  obtain ⟨t, ht, h⟩ := Option.map_eq_some_iff.mp ht
  obtain ⟨h1, h2⟩ := Prod.mk.inj h
  have hr := Run.of_guardExec ht
  exact ⟨t, h1, h2, run_served hr (by decide), run_served hr (by decide)⟩

/-- The handler gets the trailing header block and no body. -/
theorem trailers_not_served : ¬∀ (l : LocalSettings) (es : List Event) (t : Conn × Client) (id : ℕ),
    Run ServeStep (.ready l, .start) es t → id % 2 = 1 → Served t.1 t.2 id := by
  intro hall
  have ht : (([.readable, .frame ⟨0x1, 0x4, 1, [0x40, 1, 97, 1, 98]⟩ [], .frame ⟨0x0, 0x0, 1, [1]⟩ [],
      .frame ⟨0x1, 0x5, 1, [0x40, 1, 120, 1, 121]⟩ [.sendResponse 1 [] [] true]] : List Event).foldlM
      (Run.execBoth Conn.exec Client.next) (.ready {}, .start)).map
      (fun t => (t.2.requests.lookup 1, t.1.output.handled 1)) =
      some (some (.complete [⟨ascii "a", ascii "b"⟩] [1]), [([⟨ascii "x", ascii "y"⟩], [])]) := by
    decide
  obtain ⟨t, ht, h⟩ := Option.map_eq_some_iff.mp ht
  obtain ⟨h1, h2⟩ := Prod.mk.inj h
  have hserved := hall _ _ t 1 (Run.of_foldlM ht) (by decide)
  simp only [Served, h1, h2] at hserved
  exact absurd hserved.1 (by decide)

end NeForce.Http2
