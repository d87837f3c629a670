import NeForce.Http2Trace

/-! # Pushes and the streams of the client

`handle_frame` ignores a frame whose stream is above `last_stream_id_`, which is set by GOAWAY and by `send_push_promise`.  On an
open connection it is the largest identifier promised so far (`lastStreamId_run`), and so a push silences the streams of the
client above it (`handlerOf_run_iff`). -/

namespace NeForce.Http2

open Output (Logs)

/-- The stream that is promised by a frame. -/
def Effect.promise? : Effect → Option ℕ
  | .frame (.pushPromise f) => some f.promisedStreamId
  | _ => none

/-- The streams promised so far. -/
def Output.promised (o : Output) : List ℕ := o.view Effect.promise?

namespace Conn

/-- The handler that `handle_frame` calls. -/
def handlerOf (c : Conn) (f : RawFrame) : Option FrameType := if c.Ignores f.streamId then none else FrameType.ofCode f.type

def callHandler (c : Conn) (calls : List Call) (f : RawFrame) : FrameType → Conn
  | .data => c.handleDataFrame calls f.flags f.streamId f.payload
  | .headers => c.handleHeadersFrame calls f.flags f.streamId f.payload
  | .settings => c.handleSettingsFrame f.flags f.payload
  | .ping => c.handlePingFrame f.flags f.payload
  | .goaway => c.handleGoawayFrame f.payload
  | .rstStream => c.handleRstStreamFrame f.streamId
  | .windowUpdate => c.handleWindowUpdateFrame f.streamId f.payload
  | .pushPromise => c.handlePushPromiseFrame f.payload
  | .continuation => c.handleContinuationFrame calls f.flags f.streamId f.payload
  | .priority => c

variable {c c' c₁ : Conn} {cl : Call} {calls : List Call} {f : RawFrame} {id maxFrame n : ℕ} {endStream : Bool} {data : Bytes}
  {flags : UInt8} {payload : Bytes} {fc : FlowControl} {o o' : Output}

theorem handleFrame_eq (c : Conn) (calls : List Call) (f : RawFrame) :
    c.handleFrame calls f = ((c.handlerOf f).map (c.callHandler calls f)).getD c := by
  rw [handleFrame, handlerOf]
  split
  · rfl
  · cases FrameType.ofCode f.type with
    | none => rfl
    | some t => cases t <;> rfl

/-! ### What has been promised -/

/-- Effects that promise nothing. -/
abbrev Silent (e : Effect) : Prop := e.promise? = none

/-- On the way from `c` to `c'`, what raises `last_stream_id_` is in the log. -/
structure Promises (c c' : Conn) : Prop where
  closed : c.output.closed = true → c'.output.closed = true
  promised : c'.output.closed = false →
    ∃ ps, c'.output.promised = c.output.promised ++ ps ∧ c'.lastStreamId = ps.foldl max c.lastStreamId ∧ ∀ p ∈ ps, 0 < p

theorem Promises.trans (h : c.Promises c₁) (h' : c₁.Promises c') : c.Promises c' := by
  refine ⟨fun hc => h'.closed (h.closed hc), fun hopen => ?_⟩
  have hmid : c₁.output.closed = false := by
    cases hm : c₁.output.closed with
    | false => rfl
    | true =>
        rw [h'.closed hm] at hopen
        cases hopen
  obtain ⟨ps, h1, h2, hps⟩ := h.promised hmid
  obtain ⟨ps', h3, h4, hps'⟩ := h'.promised hopen
  refine ⟨ps ++ ps', by rw [h3, h1, List.append_assoc], by rw [h4, h2, List.foldl_append], ?_⟩
  exact List.forall_mem_append.mpr ⟨hps, hps'⟩

/-- Where nothing is promised. -/
theorem Promises.of_silent (hl : c'.lastStreamId = c.lastStreamId) (h : Logs Silent c.output c'.output) : c.Promises c' :=
  ⟨h.1, fun _ => ⟨[], by rw [Output.promised, h.view fun _ he => he, List.append_nil]; rfl, hl, by simp⟩⟩

theorem Promises.refl (c : Conn) : c.Promises c := .of_silent rfl (.refl _)

/-! ### Calls -/

theorem writeHeaderBlock_silent (c : Conn) (id : ℕ) (block : Bytes) (endStream : Bool) :
    Logs Silent c.output (c.writeHeaderBlock id block endStream).output :=
  (Logs.refl _).foldl (headerFrames_forall (fun _ => rfl) fun _ => rfl) rfl

theorem writeData_silent (h : Logs Silent o o') :
    Logs Silent o (writeData id maxFrame endStream n data (fc, o')).2 := by
  induction n generalizing data fc o' with
  | zero => exact h
  | succ n ih =>
      rw [writeData]
      split
      · exact h
      · exact ih (h.writeFrame rfl rfl)

theorem writeBodyFramesLoop_silent (h : Logs Silent o o') :
    Logs Silent o (writeBodyFramesLoop id maxFrame endStream n data (fc, o')).2 := by
  induction n generalizing data fc o' with
  | zero => exact h
  | succ n ih =>
      rw [writeBodyFramesLoop]
      split
      · exact h
      · simp only
        split
        · exact ih (h.writeFrame rfl rfl)
        · exact h.closeConnection _ rfl

theorem writeBody_silent (c : Conn) (id : ℕ) (data : Bytes) (endStream : Bool) :
    Logs Silent c.output (c.writeBody id data endStream).output :=
  writeData_silent (.refl _)

theorem flushResponse_silent (h : Logs Silent o c.output) (n : ℕ) : Logs Silent o (c.flushResponse n).output := by
  unfold flushResponse
  simp only
  split
  · exact h.flushWrites
  · exact h.flushWritesOver _

theorem sendPushPromise_promises (c : Conn) (id promised : ℕ) (headers : List Hpack.HeaderField) :
    c.Promises (c.sendPushPromise id promised headers) := by
  rw [sendPushPromise]
  split
  · exact .refl c
  · rename_i hgo
    have hopen : c.output.closed = false := by
      rw [not_or, Bool.not_eq_true] at hgo
      exact hgo.1
    constructor
    · intro hc
      rw [hopen] at hc
      cases hc
    · intro ho
      refine ⟨[promised], ?_, max_comm _ _, ?_⟩
      · -- a frame that does not fit closes the connection
        simp only [Output.writeFrame] at ho ⊢
        split
        · simp [Output.promised, Output.view, Effect.promise?]
        · rename_i hfit
          rw [if_neg hfit, Output.closeConnection, if_neg (by rw [hopen]; exact Bool.false_ne_true)] at ho
          cases ho
      · rw [List.forall_mem_singleton]
        omega

theorem sendGoaway_promises (c : Conn) (error : Http2Error) : c.Promises (c.sendGoaway error) :=
  .of_silent rfl (((Logs.refl (P := Silent) c.output).writeFrame rfl rfl).closeConnection _ rfl)

/-- A call promises what it says in the log. -/
theorem call_promises (c : Conn) (cl : Call) : c.Promises (c.call cl) := by
  cases cl with
  | sendResponse id headers body endStream =>
      refine .of_silent rfl ?_
      have h₁ := writeHeaderBlock_silent { c with encoder := (c.encoder.encode headers).2 } id (c.encoder.encode headers).1
        (endStream && decide (body = []))
      have h₂ := h₁.trans (writeBody_silent _ id body endStream)
      exact flushResponse_silent (c := sentData (writeBody _ id body endStream) id endStream) h₂ body.length
  | sendHeaders id headers endStream =>
      exact .of_silent rfl (writeHeaderBlock_silent { c with encoder := (c.encoder.encode headers).2 } id _ _).flushWrites
  | sendData id data endStream => exact .of_silent rfl (c.writeBody_silent id data endStream).flushWrites
  | sendTrailers id trailers =>
      exact .of_silent rfl (writeHeaderBlock_silent { c with encoder := (c.encoder.encode trailers).2 } id _ _).flushWrites
  | writeBodyFrames id data endStream => exact .of_silent rfl (writeBodyFramesLoop_silent (.refl c.output))
  | sendPushPromise id promised headers => exact c.sendPushPromise_promises id promised headers
  | sendRstStream id error => exact .of_silent rfl ((Logs.refl c.output).writeFrame rfl rfl)
  | sendGoaway error => exact c.sendGoaway_promises error
  | stop => exact .of_silent rfl ⟨fun _ => rfl, [], (List.append_nil _).symm, by simp⟩

theorem foldl_call_promises (c : Conn) (calls : List Call) : c.Promises (calls.foldl call c) := by
  induction calls generalizing c with
  | nil => exact .refl c
  | cons cl calls ih => exact (c.call_promises cl).trans (ih (c.call cl))

/-! ### Frames -/

/-- What the handler of a request has promised. -/
theorem handleRequest_promises (h : c.Promises c₁) (calls : List Call) (id : ℕ) (headers : List Hpack.HeaderField) (data : Bytes) :
    c.Promises (c₁.handleRequest calls id headers data) := by
  have hreq : c₁.Promises { c₁ with output := c₁.output.emit (.request id headers data) } :=
    .of_silent rfl ((Logs.refl (P := Silent) c₁.output).emit rfl)
  exact (h.trans hreq).trans (foldl_call_promises _ calls)

/-- What follows on the calls changes neither the output nor the last stream. -/
theorem Promises.congr (h : c.Promises c₁) (hl : c'.lastStreamId = c₁.lastStreamId) (ho : c'.output = c₁.output) :
    c.Promises c' :=
  h.trans (.of_silent hl (by rw [ho]; exact .refl _))

theorem receiveCredit_silent (c : Conn) (id n : ℕ) : Logs Silent c.output (c.receiveCredit id n).output := by
  have h : ∀ {o o'}, Logs Silent o o' → ∀ id n, Logs Silent o (o'.sendWindowUpdate id n) :=
    fun h id n => h.sendWindowUpdate (fun _ => rfl) rfl n
  unfold receiveCredit
  simp only
  split <;> split
  · exact h (h (.refl _) _ _) _ _
  · exact h (.refl _) _ _
  · exact h (.refl _) _ _
  · exact .refl _

theorem handleDataFrame_promises : c.Promises (c.handleDataFrame calls flags id payload) := by
  rw [handleDataFrame]
  split
  · exact .of_silent rfl ((Logs.refl _).writeFrame rfl rfl)
  · have hcredit : c.Promises (c.receiveCredit id payload.length) := .of_silent rfl (c.receiveCredit_silent id _)
    simp only
    split
    · have hended (pending : IdMap PendingStream) : c.Promises (updateStream
          { c.receiveCredit id payload.length with pending := pending } id (·.onReceiveData true)) := hcredit.congr rfl rfl
      exact (handleRequest_promises (hended _) calls id _ _).congr rfl rfl
    · exact hcredit.congr rfl rfl

theorem decodeBlock_promises (h : c.Promises c₁) (id : ℕ) (ps : PendingStream) : c.Promises (c₁.decodeBlock id ps) :=
  h.trans (.of_silent rfl ((Logs.refl _).emit rfl))

theorem endHeaders_promises (h : c.Promises c₁) (calls : List Call) (id : ℕ) (headers : List Hpack.HeaderField) :
    c.Promises (c₁.endHeaders calls id headers) :=
  (handleRequest_promises h calls id headers []).congr rfl rfl

theorem handleHeadersFrame_promises : c.Promises (c.handleHeadersFrame calls flags id payload) := by
  have hopen : c.Promises (c.openStream id (hasFlag flags flagEndStream)) := (Promises.refl c).congr rfl rfl
  rw [handleHeadersFrame]
  split
  · exact .of_silent rfl ((Logs.refl _).writeFrame rfl rfl)
  · simp only
    split
    · split
      · refine endHeaders_promises ?_ calls id _
        exact (decodeBlock_promises hopen id _).congr rfl rfl
      · exact decodeBlock_promises hopen id _
    · exact hopen.congr rfl rfl

theorem handleContinuationFrame_promises : c.Promises (c.handleContinuationFrame calls flags id payload) := by
  have hclose : c.Promises { c with output := c.output.closeConnection .protocolError } :=
    .of_silent rfl ((Logs.refl _).closeConnection _ rfl)
  rw [handleContinuationFrame]
  split
  · exact hclose
  · split
    · simp only
      split
      · split
        · exact endHeaders_promises (decodeBlock_promises (.refl c) id _) calls id _
        · exact decodeBlock_promises (.refl c) id _
      · exact (Promises.refl c).congr rfl rfl
    · exact hclose

theorem handleGoawayFrame_promises : c.Promises (c.handleGoawayFrame payload) := by
  rw [handleGoawayFrame]
  split
  · exact .refl c
  · rename_i sid cur hsid
    -- GOAWAY closes the connection
    have hclosed : (c.output.closeConnection .noError).closed = true := by
      rw [Output.closeConnection]
      split
      · rename_i hc
        exact hc
      · rfl
    exact ⟨fun _ => hclosed, fun hopen => by rw [hclosed] at hopen; cases hopen⟩

theorem handleWindowUpdateFrame_promises : c.Promises (c.handleWindowUpdateFrame id payload) := by
  rw [handleWindowUpdateFrame]
  split
  · exact .refl c
  · simp only
    generalize (if id = 0 then c.flowControl.connectionWindow else c.flowControl.window id) = current
    split
    · exact .of_silent rfl ((Logs.refl _).closeConnection _ rfl)
    · split
      · exact c.sendGoaway_promises _
      · exact (Promises.refl c).congr rfl rfl

theorem callHandler_promises (t : FrameType) : c.Promises (c.callHandler calls f t) := by
  cases t with
  | data => exact handleDataFrame_promises
  | headers => exact handleHeadersFrame_promises
  | continuation => exact handleContinuationFrame_promises
  | goaway => exact handleGoawayFrame_promises
  | windowUpdate => exact handleWindowUpdateFrame_promises
  | settings =>
      simp only [callHandler, handleSettingsFrame]
      split
      · exact .refl c
      · exact .of_silent rfl ((Logs.refl _).writeFrame rfl rfl)
  | ping =>
      simp only [callHandler, handlePingFrame]
      split
      · exact .refl c
      · split
        · exact .refl c
        · exact .of_silent rfl ((Logs.refl _).writeFrame rfl rfl)
  | rstStream => exact (Promises.refl c).congr rfl rfl
  | pushPromise =>
      simp only [callHandler, handlePushPromiseFrame]
      split
      · exact .refl c
      · exact (Promises.refl c).congr rfl rfl
  | priority => exact .refl c

theorem step_promises {e : Event} (h : ConnStep c e c') : c.Promises c' := by
  obtain ⟨f, calls, _, _, rfl⟩ | ⟨cl, _, rfl⟩ | ⟨_, depth, o, ho, rfl⟩ := h.inv
  · rw [handleFrame_eq]
    cases c.handlerOf f with
    | none => exact .refl c
    | some t => exact callHandler_promises t
  · exact c.call_promises cl
  · refine .of_silent rfl (ho.mono fun e he => ?_)
    cases e with
    | close error => rfl
    | frame f => exact he.elim
    | decode id block headers => exact he.elim
    | request id headers data => exact he.elim

/-! ### Runs -/

theorem run_promises {es : List Event} (hr : Run ConnStep c es c') : c.Promises c' :=
  hr.invariant (P := c.Promises) (.refl c) fun h hstep => h.trans (step_promises hstep)

theorem ready_promised (l : LocalSettings) : (ready l).output.promised = [] := by
  have h : Logs Silent ⟨false, 0, []⟩ (ready l).output := by
    unfold ready receivePreface start make
    refine Logs.writeFrame ?_ rfl rfl
    exact Logs.flushWrites (Logs.writeFrame (.refl _) rfl rfl)
  exact h.view fun _ he => he

/-- On an open connection `last_stream_id_` is the largest stream promised. -/
theorem lastStreamId_run {l : LocalSettings} {es : List Event} (hr : Run ConnStep (ready l) es c)
    (hopen : c.output.closed = false) : c.lastStreamId = c.output.promised.foldl max 0 := by
  obtain ⟨ps, h1, h2, _⟩ := (run_promises hr).promised hopen
  rw [h2, h1, ready_promised]
  rfl

theorem promised_pos {l : LocalSettings} {es : List Event} (hr : Run ConnStep (ready l) es c)
    (hopen : c.output.closed = false) : ∀ p ∈ c.output.promised, 0 < p := by
  obtain ⟨ps, h1, _, h3⟩ := (run_promises hr).promised hopen
  rw [h1, ready_promised]
  exact h3

theorem le_foldl_max {ps : List ℕ} {m : ℕ} : n ≤ ps.foldl max m ↔ n ≤ m ∨ ∃ p ∈ ps, n ≤ p := by
  induction ps generalizing m with
  | nil => simp
  | cons p ps ih => rw [List.foldl_cons, ih, le_max_iff, or_assoc, List.exists_mem_cons_iff]

theorem handlerOf_iff {t : FrameType} (ht : FrameType.ofCode f.type = some t) :
    c.handlerOf f = some t ↔ c.lastStreamId = 0 ∨ f.streamId ≤ c.lastStreamId := by
  rw [handlerOf, ht]
  split
  · rename_i hig
    unfold Ignores at hig
    exact iff_of_false nofun (by omega)
  · rename_i hig
    unfold Ignores at hig
    exact iff_of_true rfl (by omega)

/-- **Which frames still reach their handler**: on an open connection, where no GOAWAY has been sent or received, those of all
streams until something is promised, and then those of the streams up to the largest one promised. -/
theorem handlerOf_run_iff {l : LocalSettings} {es : List Event} (hr : Run ConnStep (ready l) es c) {t : FrameType}
    (ht : FrameType.ofCode f.type = some t) :
    (c.handlerOf f = some t ↔ c.lastStreamId = 0 ∨ f.streamId ≤ c.lastStreamId) ∧
      (c.output.closed = false →
        (c.handlerOf f = some t ↔ c.output.promised = [] ∨ ∃ p ∈ c.output.promised, f.streamId ≤ p)) := by
  refine ⟨handlerOf_iff ht, fun hopen => ?_⟩
  have hlast := lastStreamId_run hr hopen
  have hpos := promised_pos hr hopen
  rw [handlerOf_iff ht]
  constructor
  · rintro (h0 | hle)
    · left
      -- a promised stream would have raised it
      refine List.eq_nil_iff_forall_not_mem.mpr fun p hp => ?_
      have hle : p ≤ c.output.promised.foldl max 0 := le_foldl_max.mpr (Or.inr ⟨p, hp, le_rfl⟩)
      have := hpos p hp
      omega
    · rw [hlast] at hle
      obtain h0 | hp := le_foldl_max.mp hle
      · cases hps : c.output.promised with
        | nil => exact Or.inl rfl
        | cons p ps => exact Or.inr ⟨p, List.mem_cons_self, by omega⟩
      · exact Or.inr hp
  · rintro (hnil | ⟨p, hp, hle⟩)
    · left
      rw [hlast, hnil]
      rfl
    · right
      rw [hlast]
      exact hle.trans (le_foldl_max.mpr (Or.inr ⟨p, hp, le_rfl⟩))

/-- The client allows pushes, and stream 2 is pushed. -/
def pushEvents : List Event := [.readable, .frame ⟨0x4, 0, 0, [0, 2, 0, 0, 0, 1]⟩ [], .call (.sendPushPromise 1 2 [])]

def pushed : Conn :=
  ({ ready {} with writeBatchDepth := 1 }.handleFrame [] ⟨0x4, 0, 0, [0, 2, 0, 0, 0, 1]⟩).call (.sendPushPromise 1 2 [])

theorem pushed_run : Run ConnStep (ready {}) pushEvents pushed := .cons rfl (.cons rfl (.cons rfl (.nil _)))

/-- HEADERS of stream 1 reaches its handler. -/
theorem handlerOf_run_iff_sample : pushed.handlerOf ⟨0x1, 0x4, 1, []⟩ = some .headers :=
  ((handlerOf_run_iff pushed_run (f := ⟨0x1, 0x4, 1, []⟩) (t := .headers) rfl).2 (by decide)).mpr
    (Or.inr ⟨2, by decide, by decide⟩)

/-- HEADERS of stream 3 does not. -/
theorem push_silences : Run ConnStep (ready {}) pushEvents pushed ∧ pushed.output.closed = false ∧
    FrameType.ofCode 0x1 = some .headers ∧ pushed.handlerOf ⟨0x1, 0x4, 3, []⟩ = none :=
  ⟨pushed_run, by decide, rfl, by decide⟩

end Conn

end NeForce.Http2
