import NeForce.WebsocketParser

/-! # Reading WebSocket frames

The loops over the two parsers.  A thread calls `read_frame` until it returns false; `on_readable` appends what has
arrived to `read_buffer_` and `try_parse_frames` takes frames from its front.  Both are one loop here, over
`receiveFrame` with the whole stream in front of it, and over `parseFrame` with a buffer that grows from event to
event.  `Ran` says what such a loop does, turn by turn. -/

namespace NeForce.Websocket

/-! ### The loops -/

/-- What `dispatch` and the calls that refuse a frame tell of a run. -/
def Effect.isCall : Effect → Bool
  | .refused _ _ | .dispatched _ _ _ => true
  | _ => false

/-- A frame has been refused, by a parser or by `dispatch`. -/
def Effect.isFailure : Effect → Bool
  | .refused _ _ | .dispatched _ _ false => true
  | _ => false

def calls (log : List Effect) : List Effect := log.filter (·.isCall)

variable {D : Type}

def Session.Failed (s : Session D) : Prop := ∃ e ∈ s.log, e.isFailure = true

/-- The bytes behind what the parser has taken. -/
def Parsed.rest (bs : Bytes) : Parsed → Bytes
  | .frame _ _ rest => rest
  | _ => bs

section

variable (z : Inflater D)

/-- What follows on a parse, and whether the loop goes on. -/
def Session.handle (s : Session D) : Parsed → Session D × Bool
  | .wait => (s, false)
  | .refuse status reason => ((s.sendCloseFrame status reason).emit (.refused status reason), false)
  | .frame hdr payload _ =>
      let r := s.dispatch z hdr (.ofCode hdr.opcode) payload
      (r.1.emit (.dispatched hdr payload r.2), r.2)

/-- A session and the bytes in front of its parser. -/
abbrev Reader (D : Type) := Session D × Bytes

/-- One turn of a loop of frames. -/
def turn (parse : Bool → Bytes → Parsed) (c : Reader D) : Reader D × Bool :=
  let p := parse c.1.deflateConfig.active c.2
  let r := c.1.handle z p
  ((r.1, p.rest c.2), r.2)

/-- `while (running_)`, at most `n` times. -/
def frameLoop (parse : Bool → Bytes → Parsed) : ℕ → Reader D → Reader D
  | 0, c => c
  | n + 1, c =>
      if c.1.running then
        let r := turn z parse c
        if r.2 then frameLoop parse n r.1 else r.1
      else c

/-- `try_parse_frames` over `read_buffer_`. -/
def tryParseFrames (c : Reader D) : Reader D := frameLoop z parseFrame (c.2.length + 1) c

/-- The calls of `read_frame` in `read_loop`, over the bytes that the socket gives. -/
def readFrames (c : Reader D) : Reader D := frameLoop z receiveFrame (c.2.length + 1) c

/-- `on_readable`, with the bytes that have arrived. -/
def onReadable (c : Reader D) (data : Bytes) : Reader D :=
  if c.1.running then tryParseFrames z (c.1, c.2 ++ data) else c

def onReadables (c : Reader D) (events : List Bytes) : Reader D := events.foldl (onReadable z) c

/-- The states in which `try_parse_frames` begins a turn of its loop, at most `n`. -/
def frameTurns : ℕ → Reader D → List (Reader D)
  | 0, _ => []
  | n + 1, c =>
      if c.1.running then
        let r := turn z parseFrame c
        c :: if r.2 then frameTurns n r.1 else []
      else []

/-- The states in which the events of a run begin a turn. -/
def turns (c : Reader D) : List Bytes → List (Reader D)
  | [] => []
  | data :: events =>
      (if c.1.running then frameTurns z ((c.2 ++ data).length + 1) (c.1, c.2 ++ data) else []) ++
        turns (onReadable z c data) events

/-! ### What a turn does -/

/-- `dispatch` has accepted a frame: what it may have emitted. -/
inductive Accepted : List Effect → Prop where
  | nothing : Accepted []
  | message (data : Bytes) (opcode : Opcode) : Accepted [.message data opcode]
  | ping (payload : Bytes) : Accepted [.queueFrame (buildFrame .pong payload false) true]
  | pong : Accepted [.pong]

def closeFrame (status : ℕ) (reason : Bytes) : Effect :=
  .queueFrame (buildFrame .close (makeClosePayload status reason) false) true

/-- `dispatch` has refused a frame: it has queued a Close frame, and maybe stopped the session. -/
inductive Refused : List Effect → Prop where
  | close (status : ℕ) (reason : Bytes) : Refused [closeFrame status reason]
  | stop (status : ℕ) (reason : Bytes) : Refused [closeFrame status reason, .stop status reason]

theorem Session.resetContext_eq (s : Session D) :
    (s.resetContext z).log = s.log ∧ (s.resetContext z).running = s.running := by
  unfold Session.resetContext
  split <;> exact ⟨rfl, rfl⟩

theorem Session.dispatchData_log (s : Session D) (hdr : Header) (op : Opcode) (payload : Bytes) :
    (∃ es, (s.dispatchData z hdr op payload).log = s.log ++ es ∧ Accepted es) ∧
      (s.dispatchData z hdr op payload).running = s.running := by
  unfold Session.dispatchData
  split
  · split
    · exact ⟨⟨[], (List.append_nil _).symm, .nothing⟩, rfl⟩
    · rw [(resetContext_eq z _).1, (resetContext_eq z _).2]
      exact ⟨⟨_, rfl, .message _ _⟩, rfl⟩
  · split
    · exact ⟨⟨[], (List.append_nil _).symm, .nothing⟩, rfl⟩
    · exact ⟨⟨_, rfl, .message _ _⟩, rfl⟩

theorem Session.dispatchContinuation_log (s : Session D) (hdr : Header) (payload : Bytes) :
    (∃ es, (s.dispatchContinuation z hdr payload).log = s.log ++ es ∧ Accepted es) ∧
      (s.dispatchContinuation z hdr payload).running = s.running := by
  unfold Session.dispatchContinuation
  split
  · split
    · dsimp only
      split
      · rw [(resetContext_eq z _).1, (resetContext_eq z _).2]
        exact ⟨⟨_, rfl, .message _ _⟩, rfl⟩
      · rw [(resetContext_eq z _).1, (resetContext_eq z _).2]
        exact ⟨⟨[], (List.append_nil _).symm, .nothing⟩, rfl⟩
    · exact ⟨⟨[], (List.append_nil _).symm, .nothing⟩, rfl⟩
  · dsimp only
    split
    · exact ⟨⟨_, rfl, .message _ _⟩, rfl⟩
    · exact ⟨⟨[], (List.append_nil _).symm, .nothing⟩, rfl⟩

theorem Session.close_doStop_log (s : Session D) (status : ℕ) (reason : Bytes) :
    ∃ es, ((s.sendCloseFrame status reason).doStop status reason).log = s.log ++ es ∧ Refused es := by
  unfold Session.doStop
  split
  · exact ⟨_, rfl, .close _ _⟩
  · exact ⟨_, List.append_assoc _ _ _, .stop _ _⟩

/-- **What `dispatch` emits.** -/
theorem Session.dispatch_log (s : Session D) (hdr : Header) (op : Opcode) (payload : Bytes) :
    ∃ es, (s.dispatch z hdr op payload).1.log = s.log ++ es ∧
      if (s.dispatch z hdr op payload).2 then Accepted es ∧ (s.dispatch z hdr op payload).1.running = s.running
      else Refused es := by
  have hdata (op : Opcode) : let r := if s.inFragment then
        (s.sendCloseFrame protocolError (ascii "New data frame before fragment complete"), false)
      else (s.dispatchData z hdr op payload, true)
      ∃ es, r.1.log = s.log ++ es ∧ if r.2 then Accepted es ∧ r.1.running = s.running else Refused es := by
    split
    · exact ⟨_, rfl, .close _ _⟩
    · obtain ⟨⟨es, h1, h2⟩, h3⟩ := s.dispatchData_log z hdr op payload
      exact ⟨es, h1, h2, h3⟩
  unfold Session.dispatch
  cases op with
  | text => exact hdata .text
  | binary => exact hdata .binary
  | continuation =>
      dsimp only
      split
      · exact ⟨_, rfl, .close _ _⟩
      · obtain ⟨⟨es, h1, h2⟩, h3⟩ := s.dispatchContinuation_log z hdr payload
        exact ⟨es, h1, h2, h3⟩
  | ping => exact ⟨_, rfl, .ping _, rfl⟩
  | pong => exact ⟨_, rfl, .pong, rfl⟩
  | close => exact s.close_doStop_log _ _
  | reserved => exact ⟨_, rfl, .close _ _⟩

/-! ### The loop, turn by turn -/

variable {z} {parse : Bool → Bytes → Parsed} {c r r' : Reader D}

theorem Session.failed_append {s t : Session D} {es : List Effect} (h : t.log = s.log ++ es) :
    t.Failed ↔ s.Failed ∨ ∃ e ∈ es, e.isFailure = true := by
  unfold Session.Failed
  rw [h]
  simp only [List.mem_append, or_and_right, exists_or]

theorem Accepted.not_failure {es : List Effect} (h : Accepted es) : ∀ e ∈ es, e.isFailure = false := by
  cases h <;> simp [Effect.isFailure]

theorem turn_wait (h : parse c.1.deflateConfig.active c.2 = .wait) : turn z parse c = (c, false) := by
  unfold turn
  rw [h]
  rfl

/-- A turn that finds something adds what it does and then one call to the log. -/
theorem turn_log (h : parse c.1.deflateConfig.active c.2 ≠ .wait) :
    ∃ es e, (turn z parse c).1.1.log = c.1.log ++ (es ++ [e]) ∧ e.isCall = true ∧ e.isFailure = !(turn z parse c).2 ∧
      if (turn z parse c).2 then Accepted es ∧ (turn z parse c).1.1.running = c.1.running else Refused es := by
  unfold turn
  cases hp : parse c.1.deflateConfig.active c.2 with
  | wait => exact absurd hp h
  | refuse status reason =>
      exact ⟨_, .refused status reason, List.append_assoc _ _ _, rfl, rfl, .close status reason⟩
  | frame hdr payload rest =>
      obtain ⟨es, h1, h2⟩ := c.1.dispatch_log z hdr (.ofCode hdr.opcode) payload
      refine ⟨es, .dispatched hdr payload (c.1.dispatch z hdr (.ofCode hdr.opcode) payload).2, ?_, rfl, ?_, h2⟩
      · show (Session.dispatch z _ _ _ _).1.log ++ [_] = _
        rw [h1, List.append_assoc]
      · show Effect.isFailure (.dispatched _ _ (Session.dispatch z _ _ _ _).2) = !(Session.dispatch z _ _ _ _).2
        cases (c.1.dispatch z hdr (.ofCode hdr.opcode) payload).2 <;> rfl

/-- A refusal in the log comes from the parser. -/
theorem turn_refused {status : ℕ} {reason : Bytes} (h : .refused status reason ∈ (turn z parse c).1.1.log) :
    .refused status reason ∈ c.1.log ∨ parse c.1.deflateConfig.active c.2 = .refuse status reason := by
  cases hp : parse c.1.deflateConfig.active c.2 with
  | wait =>
      rw [turn_wait hp] at h
      exact .inl h
  | refuse status' reason' =>
      simp only [turn, hp, Session.handle, Session.sendCloseFrame, Session.emit, List.mem_append, List.mem_singleton,
        Effect.refused.injEq, reduceCtorEq, or_false] at h
      rcases h with h | ⟨rfl, rfl⟩
      · exact .inl h
      · exact .inr rfl
  | frame hdr payload rest =>
      obtain ⟨es, h1, h2⟩ := c.1.dispatch_log z hdr (.ofCode hdr.opcode) payload
      simp only [turn, hp, Session.handle, Session.emit, h1, List.mem_append, List.mem_singleton, reduceCtorEq,
        or_false] at h
      refine .inl (h.resolve_right fun hes => ?_)
      split at h2
      · cases h2.1 <;> simp at hes
      · cases h2 <;> simp [closeFrame] at hes

theorem turn_go (h : (turn z parse c).2 = true) : parse c.1.deflateConfig.active c.2 ≠ .wait := by
  intro hw
  rw [turn_wait hw] at h
  cases h

theorem turn_go_not_failed (h : (turn z parse c).2 = true) (hf : ¬ c.1.Failed) : ¬ (turn z parse c).1.1.Failed := by
  obtain ⟨es, e, h1, -, h3, h4⟩ := turn_log (turn_go h)
  rw [h] at h3 h4
  rw [Session.failed_append h1]
  rintro (hc | ⟨x, hx, hxf⟩)
  · exact hf hc
  · rcases List.mem_append.mp hx with hx | hx
    · rw [h4.1.not_failure x hx] at hxf
      cases hxf
    · rw [List.mem_singleton.mp hx, h3] at hxf
      cases hxf

theorem turn_go_running (h : (turn z parse c).2 = true) : (turn z parse c).1.1.running = c.1.running := by
  obtain ⟨es, e, -, -, -, h4⟩ := turn_log (turn_go h)
  rw [h] at h4
  exact h4.2

theorem turn_fail (hw : parse c.1.deflateConfig.active c.2 ≠ .wait) (h : (turn z parse c).2 = false) :
    (turn z parse c).1.1.Failed := by
  obtain ⟨es, e, h1, -, h3, -⟩ := turn_log hw
  rw [h] at h3
  rw [Session.failed_append h1]
  exact .inr ⟨e, List.mem_append_right _ (List.mem_singleton_self e), h3⟩

/-- More bytes behind do not change a turn. -/
theorem turn_append (hp : Steady parse) (hw : parse c.1.deflateConfig.active c.2 ≠ .wait) (more : Bytes) :
    turn z parse (c.1, c.2 ++ more) = (((turn z parse c).1.1, (turn z parse c).1.2 ++ more), (turn z parse c).2) := by
  unfold turn
  simp only [hp.append more hw]
  cases hpar : parse c.1.deflateConfig.active c.2 <;> rfl

theorem turn_shrinks (hp : Steady parse) (h : (turn z parse c).2 = true) :
    (turn z parse c).1.2.length < c.2.length := by
  unfold turn at h ⊢
  cases hpar : parse c.1.deflateConfig.active c.2 with
  | wait =>
      rw [hpar] at h
      cases h
  | refuse status reason =>
      rw [hpar] at h
      cases h
  | frame hdr payload rest => exact hp.shrinks hpar

/-- A loop of frames, from its first state to the one in which it ends. -/
inductive Ran (z : Inflater D) (parse : Bool → Bytes → Parsed) : Reader D → Reader D → Prop where
  | stopped {c : Reader D} : c.1.running = false → Ran z parse c c
  | wait {c : Reader D} : c.1.running = true → parse c.1.deflateConfig.active c.2 = .wait → Ran z parse c c
  | fail {c : Reader D} : c.1.running = true → parse c.1.deflateConfig.active c.2 ≠ .wait →
      (turn z parse c).2 = false → Ran z parse c (turn z parse c).1
  | go {c r : Reader D} : c.1.running = true → (turn z parse c).2 = true → Ran z parse (turn z parse c).1 r →
      Ran z parse c r

theorem ran_frameLoop (hp : Steady parse) {n : ℕ} (hn : c.2.length < n) : Ran z parse c (frameLoop z parse n c) := by
  induction n generalizing c with
  | zero => omega
  | succ n ih =>
      unfold frameLoop
      cases hrun : c.1.running with
      | false => exact .stopped hrun
      | true =>
          cases hgo : (turn z parse c).2 with
          | true =>
              have := turn_shrinks hp hgo
              simp only [if_true, hgo]
              exact .go hrun hgo (ih (by omega))
          | false =>
              simp only [if_true, hgo, Bool.false_eq_true, if_false]
              by_cases hw : parse c.1.deflateConfig.active c.2 = .wait
              · rw [turn_wait hw]
                exact .wait hrun hw
              · exact .fail hrun hw hgo

theorem Ran.unique (h : Ran z parse c r) (h' : Ran z parse c r') : r = r' := by
  induction h with
  | stopped h1 =>
      cases h' with
      | stopped => rfl
      | wait h2 | fail h2 | go h2 => exact (Bool.false_ne_true (h1.symm.trans h2)).elim
  | wait h1 hw =>
      cases h' with
      | stopped h2 => exact (Bool.false_ne_true (h2.symm.trans h1)).elim
      | wait => rfl
      | fail _ hw' => exact absurd hw hw'
      | go _ hgo => exact absurd hw (turn_go hgo)
  | fail h1 hw hgo =>
      cases h' with
      | stopped h2 => exact (Bool.false_ne_true (h2.symm.trans h1)).elim
      | wait _ hw' => exact absurd hw' hw
      | fail => rfl
      | go _ hgo' => exact (Bool.false_ne_true (hgo.symm.trans hgo')).elim
  | go h1 hgo _ ih =>
      cases h' with
      | stopped h2 => exact (Bool.false_ne_true (h2.symm.trans h1)).elim
      | wait _ hw' => exact absurd hw' (turn_go hgo)
      | fail _ _ hgo' => exact (Bool.false_ne_true (hgo'.symm.trans hgo)).elim
      | go _ _ h2 => exact ih h2

/-- A loop that has refused nothing waits for more bytes. -/
theorem Ran.waits (h : Ran z parse c r) (hrun : c.1.running = true) (hf : ¬ r.1.Failed) :
    r.1.running = true ∧ parse r.1.deflateConfig.active r.2 = .wait := by
  induction h with
  | stopped h1 => exact (Bool.false_ne_true (h1.symm.trans hrun)).elim
  | wait h1 hw => exact ⟨h1, hw⟩
  | fail _ hw hgo => exact absurd (turn_fail hw hgo) hf
  | go _ hgo _ ih => exact ih ((turn_go_running hgo).trans hrun) hf

/-- With more bytes behind, the loop goes on where it has waited. -/
theorem Ran.append (hp : Steady parse) (h : Ran z parse c r) (hrun : c.1.running = true) (hf : ¬ r.1.Failed)
    {more : Bytes} (h' : Ran z parse (r.1, r.2 ++ more) r') : Ran z parse (c.1, c.2 ++ more) r' := by
  induction h with
  | stopped h1 => exact (Bool.false_ne_true (h1.symm.trans hrun)).elim
  | wait => exact h'
  | fail _ hw hgo => exact absurd (turn_fail hw hgo) hf
  | go h1 hgo _ ih =>
      have happ := turn_append (z := z) hp (turn_go hgo) more
      refine .go h1 (by rw [happ]; exact hgo) ?_
      rw [happ]
      exact ih ((turn_go_running hgo).trans hrun) hf h'

/-- A loop that has refused a frame does not read what comes behind. -/
theorem Ran.append_failed (hp : Steady parse) (h : Ran z parse c r) (hc : ¬ c.1.Failed) (hf : r.1.Failed)
    (more : Bytes) : Ran z parse (c.1, c.2 ++ more) (r.1, r.2 ++ more) := by
  induction h with
  | stopped => exact absurd hf hc
  | wait => exact absurd hf hc
  | fail h1 hw hgo =>
      have happ := turn_append (z := z) hp hw more
      have hrun : Ran z parse (_, _ ++ more) _ := .fail h1 (by
        rw [hp.append more hw]
        intro h
        apply hw
        revert h
        cases parse _ _ <;> simp [Parsed.append]) (by rw [happ]; exact hgo)
      rw [happ] at hrun
      exact hrun
  | go h1 hgo _ ih =>
      have happ := turn_append (z := z) hp (turn_go hgo) more
      refine .go h1 (by rw [happ]; exact hgo) ?_
      rw [happ]
      exact ih (turn_go_not_failed hgo hc) hf

theorem Ran.refused (h : Ran z parse c r) {status : ℕ} {reason : Bytes} (hmem : .refused status reason ∈ r.1.log) :
    .refused status reason ∈ c.1.log ∨ ∃ active bs, parse active bs = .refuse status reason := by
  induction h with
  | stopped => exact .inl hmem
  | wait => exact .inl hmem
  | fail => exact (turn_refused hmem).imp_right fun h => ⟨_, _, h⟩
  | go _ _ _ ih =>
      rcases ih hmem with h | h
      · exact (turn_refused h).imp_right fun h => ⟨_, _, h⟩
      · exact .inr h

/-- The log only grows. -/
theorem Ran.log (h : Ran z parse c r) : ∃ es, r.1.log = c.1.log ++ es := by
  induction h with
  | stopped => exact ⟨[], (List.append_nil _).symm⟩
  | wait => exact ⟨[], (List.append_nil _).symm⟩
  | fail _ hw _ =>
      obtain ⟨es, e, h1, -⟩ := turn_log hw
      exact ⟨_, h1⟩
  | go _ hgo _ ih =>
      obtain ⟨es, e, h1, -⟩ := turn_log (turn_go hgo)
      obtain ⟨es', h2⟩ := ih
      exact ⟨_, by rw [h2, h1, List.append_assoc]⟩

/-! ### Events -/

theorem onReadable_ran (hrun : c.1.running = true) (data : Bytes) :
    Ran z parseFrame (c.1, c.2 ++ data) (onReadable z c data) := by
  rw [onReadable, if_pos hrun]
  exact ran_frameLoop parseFrame_steady (Nat.lt_succ_self _)

theorem onReadable_stopped (hrun : c.1.running = false) (data : Bytes) : onReadable z c data = c := by
  simp [onReadable, hrun]

theorem onReadable_log (c : Reader D) (data : Bytes) : ∃ es, (onReadable z c data).1.log = c.1.log ++ es := by
  cases hrun : c.1.running with
  | false => exact ⟨[], by rw [onReadable_stopped hrun, List.append_nil]⟩
  | true => exact (onReadable_ran hrun data).log

theorem onReadables_cons (c : Reader D) (data : Bytes) (events : List Bytes) :
    onReadables z c (data :: events) = onReadables z (onReadable z c data) events := rfl

theorem onReadables_log (c : Reader D) (events : List Bytes) :
    ∃ es, (onReadables z c events).1.log = c.1.log ++ es := by
  induction events generalizing c with
  | nil => exact ⟨[], (List.append_nil _).symm⟩
  | cons data events ih =>
      obtain ⟨es, h1⟩ := ih (onReadable z c data)
      obtain ⟨es', h2⟩ := onReadable_log (z := z) c data
      exact ⟨es' ++ es, by rw [onReadables_cons, h1, h2, List.append_assoc]⟩

end

end NeForce.Websocket

/-! ## After a refused frame

Once a parser or `dispatch` has refused a frame, the session should hand no more messages to the handler, and it should
have queued a single Close frame.  `try_parse_frames` only leaves its loop: bytes that it has refused stay in
`read_buffer_`, and frames that arrive later are parsed.  `failure_final` says that this is all that can go wrong. -/

namespace NeForce.Websocket

variable {D : Type}

/-- A Close frame for `queue_frame`. -/
def Effect.isClose : Effect → Bool
  | .queueFrame (b :: _) true => b = 0x88
  | _ => false

def Effect.isMessage : Effect → Bool
  | .message _ _ => true
  | _ => false

/-- No message after a refused frame, and at most one Close frame. -/
structure Final (log : List Effect) : Prop where
  messages : ∀ before e after, log = before ++ e :: after → e.isFailure = true → ∀ x ∈ after, x.isMessage = false
  closes : (log.filter (·.isClose)).length ≤ 1

/-- A turn before which no frame has been refused, or which finds nothing. -/
def Quiet (c : Reader D) : Prop := c.1.Failed → parseFrame c.1.deflateConfig.active c.2 = .wait

/-! ### The log of a session that stays quiet -/

/-- No frame has been refused yet. -/
def Clean (log : List Effect) : Prop := ∀ e ∈ log, e.isFailure = false ∧ e.isClose = false

/-- No frame has been refused, or the last thing in the log is the first one refused. -/
def Settled (log : List Effect) : Prop :=
  Clean log ∨ ∃ before es e, log = before ++ (es ++ [e]) ∧ Clean before ∧ Refused es ∧ e.isCall = true ∧ e.isFailure = true

theorem Accepted.clean {es : List Effect} (h : Accepted es) : Clean es := by
  cases h with
  | nothing => simp [Clean]
  | message => simp [Clean, Effect.isFailure, Effect.isClose]
  | ping payload =>
      intro e he
      rw [List.mem_singleton.mp he]
      exact ⟨rfl, rfl⟩
  | pong => simp [Clean, Effect.isFailure, Effect.isClose]

theorem Effect.isCall_isClose {e : Effect} (h : e.isCall = true) : e.isClose = false := by
  cases e <;> first | rfl | cases h

theorem Refused.closes {es : List Effect} (h : Refused es) :
    (es.filter (·.isClose)).length = 1 ∧ ∀ e ∈ es, e.isFailure = false := by
  have hclose (status : ℕ) (reason : Bytes) : (closeFrame status reason).isClose = true := rfl
  cases h with
  | close status reason => exact ⟨by simp [hclose], by simp [closeFrame, Effect.isFailure]⟩
  | stop status reason => exact ⟨by simp [List.filter_cons, hclose]; rfl, by simp [closeFrame, Effect.isFailure]⟩

theorem Clean.closes {log : List Effect} (h : Clean log) : log.filter (·.isClose) = [] := by
  rw [List.filter_eq_nil_iff]
  intro e he
  rw [(h e he).2]
  exact Bool.false_ne_true

theorem Settled.final {log : List Effect} (h : Settled log) : Final log := by
  rcases h with h | ⟨pre, es, e, rfl, hpre, hes, hcall, -⟩
  · refine ⟨?_, by rw [h.closes]; exact Nat.zero_le _⟩
    rintro before e after rfl he
    rw [(h e (List.mem_append_right _ List.mem_cons_self)).1] at he
    cases he
  · constructor
    · -- Only the last entry is a failure, and nothing comes after it.
      intro before x after heq hx
      have hnot : ∀ y ∈ pre ++ es, y.isFailure = false := by
        intro y hy
        rcases List.mem_append.mp hy with hy | hy
        · exact (hpre y hy).1
        · exact hes.closes.2 y hy
      rcases List.eq_nil_or_concat after with rfl | ⟨after, y, rfl⟩
      · exact fun _ h => absurd h List.not_mem_nil
      · have hx' : x ∈ pre ++ es := by
          have heq' : (pre ++ es) ++ [e] = (before ++ x :: after) ++ [y] := by simpa using heq
          rw [(List.append_inj' heq' rfl).1]
          exact List.mem_append_right _ List.mem_cons_self
        rw [hnot x hx'] at hx
        cases hx
    · rw [List.filter_append, List.filter_append, hpre.closes, List.filter_cons, Effect.isCall_isClose hcall]
      simpa using hes.closes.1.le

/-! ### Runs of events -/

variable {z : Inflater D} {c r : Reader D}

/-- One event, as long as no frame has been refused. -/
theorem Ran.settled (h : Ran z parseFrame c r) (hc : Clean c.1.log) : Settled r.1.log ∧ (¬ r.1.Failed → Clean r.1.log) := by
  induction h with
  | stopped => exact ⟨.inl hc, fun _ => hc⟩
  | wait => exact ⟨.inl hc, fun _ => hc⟩
  | fail _ hw hgo =>
      obtain ⟨es, e, h1, h2, h3, h4⟩ := turn_log (z := z) hw
      rw [hgo] at h3 h4
      exact ⟨.inr ⟨_, es, e, h1, hc, h4, h2, h3⟩, fun hf => absurd (turn_fail hw hgo) hf⟩
  | go _ hgo _ ih =>
      obtain ⟨es, e, h1, h2, h3, h4⟩ := turn_log (z := z) (turn_go hgo)
      rw [hgo] at h3 h4
      refine ih ?_
      rw [h1]
      intro x hx
      rcases List.mem_append.mp hx with hx | hx
      · exact hc x hx
      · rcases List.mem_append.mp hx with hx | hx
        · exact h4.1.clean x hx
        · rw [List.mem_singleton.mp hx]
          exact ⟨h3, Effect.isCall_isClose h2⟩

/-- After a refused frame a quiet event changes nothing but the buffer. -/
theorem onReadable_quiet (hf : c.1.Failed) (data : Bytes)
    (hq : c.1.running = true → Quiet (c.1, c.2 ++ data)) : (onReadable z c data).1 = c.1 := by
  cases hrun : c.1.running with
  | false => rw [onReadable_stopped hrun]
  | true =>
      have hran : Ran z parseFrame (c.1, c.2 ++ data) (c.1, c.2 ++ data) := .wait hrun (hq hrun hf)
      rw [(onReadable_ran hrun data).unique hran]

theorem onReadables_settled (events : List Bytes) (hs : Settled c.1.log) (hc : ¬ c.1.Failed → Clean c.1.log)
    (hq : ∀ t ∈ turns z c events, Quiet t) : Settled (onReadables z c events).1.log := by
  induction events generalizing c with
  | nil => exact hs
  | cons data events ih =>
      rw [turns, List.forall_mem_append] at hq
      rw [onReadables_cons]
      by_cases hf : c.1.Failed
      · have hsame : (onReadable z c data).1 = c.1 := by
          refine onReadable_quiet hf data fun hrun => hq.1 _ ?_
          simp [frameTurns, hrun]
        exact ih (hsame ▸ hs) (fun h => absurd (hsame ▸ hf) h) hq.2
      · cases hrun : c.1.running with
        | false =>
            have hon := onReadable_stopped (z := z) hrun data
            rw [hon] at hq ⊢
            exact ih hs hc hq.2
        | true =>
            obtain ⟨h1, h2⟩ := (onReadable_ran (z := z) hrun data).settled (hc hf)
            exact ih h1 h2 hq.2

/-- **A refused frame is final**, as long as every turn after it finds nothing. -/
theorem failure_final (z : Inflater D) (cfg : DeflateConfig) (d : Option D) (events : List Bytes)
    (hq : ∀ t ∈ turns z (.start cfg d, []) events, Quiet t) :
    Final (onReadables z (.start cfg d, []) events).1.log := by
  have hclean : Clean (Session.start cfg d).log := fun _ h => absurd h List.not_mem_nil
  exact (onReadables_settled events (.inl hclean) (fun _ => hclean) hq).final

theorem failure_final_unexpected :
    Final (onReadables noInflater (.start ⟨false, false⟩ none, []) [[0x80], [0x00], [0x81]]).1.log :=
  failure_final _ _ _ _ (by unfold Quiet Session.Failed; decide)

/-- A continuation frame without a message is refused, and the text frame of the next event is delivered; bytes with
reserved bits are refused at every event. -/
theorem failure_not_final :
    ¬ Final (onReadables noInflater (.start ⟨false, false⟩ none, []) [[0x80, 0x00], [0x81, 0x01, 0x61]]).1.log ∧
      ¬ Final (onReadables noInflater (.start ⟨false, false⟩ none, []) [[0x90, 0x00], []]).1.log := by
  constructor
  · intro h
    have hmsg := h.messages [closeFrame protocolError (ascii "Unexpected continuation frame")]
      (.dispatched ⟨true, false, false, false, 0, false, 0⟩ [] false)
      [.message [0x61] .text, .dispatched ⟨true, false, false, false, 1, false, 1⟩ [0x61] true] (by decide) rfl
      (.message [0x61] .text) List.mem_cons_self
    cases hmsg
  · intro h
    have hcloses := h.closes
    revert hcloses
    decide

end NeForce.Websocket
