import NeForce.Http2Connection

/-! # What a connection does

The frames in the write buffer, the decoded header blocks and the requests, as parts of the log, and what the functions
of the connection add to them (`Logs`).

The calls of a program write frames and close the connection (`Conn.call_logs`), and leave the receiving side
alone (`Conn.call_keeps`) but for a stream that they reset (`Conn.call_pending`). -/

namespace NeForce.Http2

open Hpack

/-- The frame that an effect puts into the write buffer. -/
def Effect.frame? : Effect → Option Frame
  | .frame f => some f
  | _ => none

/-- The header block that is decoded, and its header fields. -/
def Effect.decode? : Effect → Option (ℕ × Bytes × List HeaderField)
  | .decode id block headers => some (id, block, headers)
  | _ => none

/-- The request that the handler is called with. -/
def Effect.request? : Effect → Option (ℕ × List HeaderField × Bytes)
  | .request id headers data => some (id, headers, data)
  | _ => none

namespace Output

variable {o o' : Output} {f : Frame} {fs : List Frame} {β : Type} {p : Effect → Option β}

/-- The part of the log that `p` selects. -/
def view (p : Effect → Option β) (o : Output) : List β := o.log.filterMap p

/-- The frames that were put into the write buffer. -/
def frames (o : Output) : List Frame := o.view Effect.frame?

/-- The header blocks that were decoded. -/
def decoded (o : Output) : List (ℕ × Bytes × List HeaderField) := o.view Effect.decode?

/-- The requests that were handled. -/
def requests (o : Output) : List (ℕ × List HeaderField × Bytes) := o.view Effect.request?

/-- The sum of a measure of the frames in the write buffer. -/
def sent (g : Frame → ℕ) (o : Output) : ℕ := (o.frames.map g).sum

@[simp] theorem view_flushWrites : o.flushWrites.view p = o.view p := rfl

@[simp] theorem view_flushWritesOver (n : ℕ) : (o.flushWritesOver n).view p = o.view p := by
  unfold flushWritesOver
  split <;> rfl

theorem view_emit (e : Effect) : (o.emit e).view p = o.view p ++ (p e).toList := by
  cases h : p e <;> simp [view, emit, h]

theorem view_closeConnection (hp : ∀ e, p (.close e) = none) (e : Http2Error) :
    (o.closeConnection e).view p = o.view p := by
  unfold closeConnection
  split
  · rfl
  · rw [view_emit, hp]
    exact List.append_nil _

theorem frames_writeFrame : (o.writeFrame f).frames = o.frames ++ if o.Fits f then [f] else [] := by
  unfold writeFrame
  split
  · simp [frames, view, Effect.frame?]
  · rw [List.append_nil]
    exact view_closeConnection (fun _ => rfl) _

theorem sent_writeFrame (g : Frame → ℕ) : (o.writeFrame f).sent g = o.sent g + if o.Fits f then g f else 0 := by
  rw [sent, frames_writeFrame]
  split <;> simp [sent]

/-! ### Logging -/

/-- `o'` comes from `o` by effects that satisfy `P`; a closed connection stays closed. -/
def Logs (P : Effect → Prop) (o o' : Output) : Prop :=
  (o.closed = true → o'.closed = true) ∧ ∃ es, o'.log = o.log ++ es ∧ ∀ e ∈ es, P e

namespace Logs

variable {P Q : Effect → Prop}

theorem refl (o : Output) : Logs P o o := ⟨fun h => h, [], (List.append_nil _).symm, by simp⟩

theorem trans {o₁ o₂ : Output} (h₁ : Logs P o o₁) (h₂ : Logs P o₁ o₂) : Logs P o o₂ := by
  obtain ⟨hc₁, es₁, he₁, hP₁⟩ := h₁
  obtain ⟨hc₂, es₂, he₂, hP₂⟩ := h₂
  refine ⟨fun h => hc₂ (hc₁ h), es₁ ++ es₂, by rw [he₂, he₁, List.append_assoc], fun e he => ?_⟩
  exact (List.mem_append.mp he).elim (hP₁ e) (hP₂ e)

theorem mono (h : Logs P o o') (hPQ : ∀ e, P e → Q e) : Logs Q o o' := by
  obtain ⟨hc, es, he, hP⟩ := h
  exact ⟨hc, es, he, fun e hm => hPQ e (hP e hm)⟩

theorem emit (h : Logs P o o') {e : Effect} (he : P e) : Logs P o (o'.emit e) := by
  obtain ⟨hc, es, hes, hP⟩ := h
  refine ⟨hc, es ++ [e], by rw [Output.emit, hes, List.append_assoc], fun e' hm => ?_⟩
  rcases List.mem_append.mp hm with hm | hm
  · exact hP e' hm
  · exact List.mem_singleton.mp hm ▸ he

theorem flushWrites (h : Logs P o o') : Logs P o o'.flushWrites := h

theorem flushWritesOver (h : Logs P o o') (n : ℕ) : Logs P o (o'.flushWritesOver n) := by
  unfold Output.flushWritesOver
  split
  · exact h
  · exact h.flushWrites

theorem closeConnection (h : Logs P o o') (e : Http2Error) (he : P (.close e)) : Logs P o (o'.closeConnection e) := by
  unfold Output.closeConnection
  split
  · exact h
  · have h' : Logs P o (Output.flushWrites { o' with closed := true }) := ⟨fun _ => rfl, h.2⟩
    exact h'.emit he

/-- A frame is logged, or closes the connection. -/
theorem writeFrame (h : Logs P o o') {f : Frame} (hf : P (.frame f)) (hc : P (.close .enhanceYourCalm)) :
    Logs P o (o'.writeFrame f) := by
  unfold Output.writeFrame
  split
  · exact h.emit (e := .frame f) hf
  · exact h.closeConnection _ hc

theorem sendWindowUpdate (h : Logs P o o') {id : ℕ} (hf : ∀ n, P (.frame (.windowUpdate id n)))
    (hc : P (.close .enhanceYourCalm)) (n : ℕ) : Logs P o (o'.sendWindowUpdate id n) := by
  unfold Output.sendWindowUpdate
  simp only
  split
  · exact h
  · exact h.writeFrame (hf _) hc

theorem foldl (h : Logs P o o') {fs : List Frame} (hf : ∀ f ∈ fs, P (.frame f)) (hc : P (.close .enhanceYourCalm)) :
    Logs P o (fs.foldl .writeFrame o') := by
  induction fs generalizing o' with
  | nil => exact h
  | cons f fs ih =>
      rw [List.forall_mem_cons] at hf
      exact ih (h.writeFrame hf.1 hc) hf.2

/-- What is not selected does not change a part of the log. -/
theorem view (h : Logs P o o') (hp : ∀ e, P e → p e = none) : o'.view p = o.view p := by
  obtain ⟨_, es, he, hP⟩ := h
  have hnil : es.filterMap p = [] := List.filterMap_eq_nil_iff.mpr fun e hm => hp e (hP e hm)
  rw [Output.view, he, List.filterMap_append, hnil, List.append_nil]
  rfl

theorem sent (h : Logs P o o') {g : Frame → ℕ} (hg : ∀ f, P (.frame f) → g f = 0) : o'.sent g = o.sent g := by
  obtain ⟨_, es, he, hP⟩ := h
  have hzero : ((es.filterMap Effect.frame?).map g).sum = 0 := by
    refine List.sum_eq_zero fun n hn => ?_
    obtain ⟨f, hf, rfl⟩ := List.mem_map.mp hn
    obtain ⟨e, hm, hef⟩ := List.mem_filterMap.mp hf
    cases e <;> simp only [Effect.frame?, Option.some.injEq, reduceCtorEq] at hef
    subst hef
    exact hg _ (hP _ hm)
  rw [Output.sent, frames, Output.view, he, List.filterMap_append, List.map_append, List.sum_append, hzero,
    Nat.add_zero]
  rfl

end Logs

end Output

open Output (Logs)

/-- Frames that are not WINDOW_UPDATE, and the end of the connection. -/
def Effect.OfCall : Effect → Prop
  | .frame (.windowUpdate _ _) => False
  | .frame _ | .close _ => True
  | _ => False

/-- WINDOW_UPDATE frames, and the end of the connection. -/
def Effect.OfCredit : Effect → Prop
  | .frame (.windowUpdate _ _) | .close _ => True
  | _ => False

/-- Everything but DATA and WINDOW_UPDATE frames. -/
def Effect.OfFrame : Effect → Prop
  | .frame (.data _) | .frame (.windowUpdate _ _) => False
  | _ => True

theorem Effect.OfCall.decode {e : Effect} (h : e.OfCall) : e.decode? = none := by
  cases e <;> first | rfl | exact h.elim

theorem Effect.OfCall.request {e : Effect} (h : e.OfCall) : e.request? = none := by
  cases e <;> first | rfl | exact h.elim

theorem Effect.OfCredit.decode {e : Effect} (h : e.OfCredit) : e.decode? = none := by
  cases e <;> first | rfl | exact h.elim

theorem Effect.OfCredit.request {e : Effect} (h : e.OfCredit) : e.request? = none := by
  cases e <;> first | rfl | exact h.elim

namespace Conn

variable {c : Conn} {cl : Call} {id maxFrame n : ℕ} {endStream first : Bool} {data block : Bytes} {fc : FlowControl}
  {o o' : Output}

theorem splitBlock_forall {P : Frame → Prop} (hh : ∀ f, P (.headers f)) (hc : ∀ f, P (.continuation f)) :
    ∀ f ∈ splitBlock id maxFrame endStream n first block, P f := by
  induction n generalizing first block with
  | zero => simp [splitBlock]
  | succ n ih =>
      rw [splitBlock]
      split
      · simp
      · refine List.forall_mem_cons.mpr ⟨?_, ih⟩
        split
        · exact hh _
        · exact hc _

/-- A header block is sent in HEADERS and CONTINUATION frames. -/
theorem headerFrames_forall {P : Frame → Prop} (hh : ∀ f, P (.headers f)) (hc : ∀ f, P (.continuation f)) :
    ∀ f ∈ headerFrames id maxFrame block endStream, P f := by
  rw [headerFrames]
  split
  · exact splitBlock_forall hh hc
  · exact List.forall_mem_singleton.mpr (hh _)

theorem writeHeaderBlock_logs (c : Conn) (id : ℕ) (block : Bytes) (endStream : Bool) :
    Logs Effect.OfCall c.output (c.writeHeaderBlock id block endStream).output :=
  (Logs.refl _).foldl (headerFrames_forall (fun _ => trivial) fun _ => trivial) trivial

theorem writeData_logs (h : Logs Effect.OfCall o o') :
    Logs Effect.OfCall o (writeData id maxFrame endStream n data (fc, o')).2 := by
  induction n generalizing data fc o' with
  | zero => exact h
  | succ n ih =>
      rw [writeData]
      split
      · exact h
      · exact ih (h.writeFrame trivial trivial)

theorem writeBodyFramesLoop_logs (h : Logs Effect.OfCall o o') :
    Logs Effect.OfCall o (writeBodyFramesLoop id maxFrame endStream n data (fc, o')).2 := by
  induction n generalizing data fc o' with
  | zero => exact h
  | succ n ih =>
      rw [writeBodyFramesLoop]
      split
      · exact h
      · simp only
        split
        · exact ih (h.writeFrame trivial trivial)
        · exact h.closeConnection _ trivial

theorem writeBody_logs (c : Conn) (id : ℕ) (data : Bytes) (endStream : Bool) :
    Logs Effect.OfCall c.output (c.writeBody id data endStream).output :=
  writeData_logs (.refl _)

theorem flushResponse_logs (c : Conn) (n : ℕ) : Logs Effect.OfCall c.output (c.flushResponse n).output := by
  unfold flushResponse
  simp only
  split
  · exact (Logs.refl _).flushWrites
  · exact (Logs.refl _).flushWritesOver _

theorem call_logs (c : Conn) (cl : Call) : Logs Effect.OfCall c.output (c.call cl).output := by
  cases cl with
  | sendResponse id headers body endStream =>
      have h₁ := writeHeaderBlock_logs { c with encoder := (c.encoder.encode headers).2 } id (c.encoder.encode headers).1
        (endStream && decide (body = []))
      have h₂ := h₁.trans (writeBody_logs _ id body endStream)
      exact h₂.trans (flushResponse_logs (sentData (writeBody _ id body endStream) id endStream) body.length)
  | sendHeaders id headers endStream =>
      exact (writeHeaderBlock_logs { c with encoder := (c.encoder.encode headers).2 } id _ _).flushWrites
  | sendData id data endStream => exact (writeBody_logs c id data endStream).flushWrites
  | sendTrailers id trailers =>
      exact (writeHeaderBlock_logs { c with encoder := (c.encoder.encode trailers).2 } id _ _).flushWrites
  | writeBodyFrames id data endStream => exact writeBodyFramesLoop_logs (.refl _)
  | sendPushPromise id promised headers =>
      rw [call, sendPushPromise]
      split
      · exact .refl _
      · exact (Logs.refl _).writeFrame trivial trivial
  | sendRstStream id error => exact (Logs.refl _).writeFrame trivial trivial
  | sendGoaway error => exact ((Logs.refl _).writeFrame trivial trivial).closeConnection _ trivial
  | stop => exact ⟨fun _ => rfl, [], (List.append_nil _).symm, by simp⟩

theorem ready_logs (l : LocalSettings) : Logs Effect.OfCall ⟨false, 0, []⟩ (ready l).output := by
  unfold ready receivePreface start make
  refine Logs.writeFrame ?_ trivial trivial
  exact Logs.flushWrites (Logs.writeFrame (.refl _) trivial trivial)

/-- The calls of a program do not change what belongs to the receiving side. -/
structure Keeps (c c' : Conn) : Prop where
  localSettings : c'.localSettings = c.localSettings
  remoteSettings : c'.remoteSettings = c.remoteSettings
  decoder : c'.decoder = c.decoder
  connectionConsumed : c'.connectionConsumed = c.connectionConsumed
  writeBatchDepth : c'.writeBatchDepth = c.writeBatchDepth

theorem Keeps.trans {c₁ c₂ c₃ : Conn} (h : c₁.Keeps c₂) (h' : c₂.Keeps c₃) : c₁.Keeps c₃ :=
  ⟨h'.localSettings.trans h.localSettings, h'.remoteSettings.trans h.remoteSettings, h'.decoder.trans h.decoder,
    h'.connectionConsumed.trans h.connectionConsumed, h'.writeBatchDepth.trans h.writeBatchDepth⟩

theorem call_keeps (c : Conn) (cl : Call) : c.Keeps (c.call cl) := by
  cases cl with
  | sendPushPromise id promised headers =>
      rw [call, sendPushPromise]
      split <;> exact ⟨rfl, rfl, rfl, rfl, rfl⟩
  | _ => exact ⟨rfl, rfl, rfl, rfl, rfl⟩

/-- Only a reset takes a request from the pending ones. -/
theorem call_pending (h : ∀ e, cl ≠ .sendRstStream id e) :
    (c.call cl).pending.lookup id = c.pending.lookup id ∧
      (c.call cl).streamConsumed.lookup id = c.streamConsumed.lookup id := by
  cases cl with
  | sendPushPromise id promised headers =>
      rw [call, sendPushPromise]
      split <;> exact ⟨rfl, rfl⟩
  | sendRstStream id' error =>
      have hne : id ≠ id' := fun he => h error (by rw [he])
      exact ⟨Finmap.lookup_erase_ne hne, Finmap.lookup_erase_ne hne⟩
  | _ => exact ⟨rfl, rfl⟩

/-- The calls of a handler. -/
theorem foldl_call (c : Conn) (calls : List Call) :
    c.Keeps (calls.foldl call c) ∧ Logs Effect.OfCall c.output (calls.foldl call c).output := by
  induction calls generalizing c with
  | nil => exact ⟨⟨rfl, rfl, rfl, rfl, rfl⟩, .refl _⟩
  | cons cl calls ih =>
      obtain ⟨h1, h2⟩ := ih (c.call cl)
      exact ⟨(c.call_keeps cl).trans h1, (c.call_logs cl).trans h2⟩

theorem handleRequest_spec (c : Conn) (calls : List Call) (id : ℕ) (headers : List HeaderField) (data : Bytes) :
    c.Keeps (c.handleRequest calls id headers data) ∧
      Logs Effect.OfCall (c.output.emit (.request id headers data)) (c.handleRequest calls id headers data).output := by
  obtain ⟨h1, h2⟩ := foldl_call { c with output := c.output.emit (.request id headers data) } calls
  exact ⟨⟨h1.localSettings, h1.remoteSettings, h1.decoder, h1.connectionConsumed, h1.writeBatchDepth⟩, h2⟩

theorem receiveCredit_logs (c : Conn) (id n : ℕ) : Logs Effect.OfCredit c.output (c.receiveCredit id n).output := by
  have h : ∀ {o o'}, Logs Effect.OfCredit o o' → ∀ id n, Logs Effect.OfCredit o (o'.sendWindowUpdate id n) :=
    fun h id n => h.sendWindowUpdate (fun _ => trivial) trivial n
  unfold receiveCredit
  simp only
  split <;> split
  · exact h (h (.refl _) _ _) _ _
  · exact h (.refl _) _ _
  · exact h (.refl _) _ _
  · exact .refl _

/-! ### Receiving -/

/-- What a frame does before the handler makes its calls: no windows change, and neither DATA nor WINDOW_UPDATE is sent. -/
structure Prepares (c c' : Conn) : Prop where
  localSettings : c'.localSettings = c.localSettings
  remoteSettings : c'.remoteSettings = c.remoteSettings
  flowControl : c'.flowControl = c.flowControl
  connectionConsumed : c'.connectionConsumed = c.connectionConsumed
  output : Logs Effect.OfFrame c.output c'.output

/-- Two connections with the same windows and the same output. -/
structure Alike (c c' : Conn) : Prop where
  localSettings : c'.localSettings = c.localSettings
  remoteSettings : c'.remoteSettings = c.remoteSettings
  flowControl : c'.flowControl = c.flowControl
  connectionConsumed : c'.connectionConsumed = c.connectionConsumed
  output : c'.output = c.output

variable {c' : Conn} {flags : UInt8} {payload : Bytes} {calls : List Call} {f : RawFrame}

theorem Prepares.refl (c : Conn) : c.Prepares c := ⟨rfl, rfl, rfl, rfl, .refl _⟩

theorem Alike.refl (c : Conn) : c.Alike c := ⟨rfl, rfl, rfl, rfl, rfl⟩

/-- A frame prepares, and then the handler may make its calls. -/
def Handles (calls : List Call) (c c' : Conn) : Prop :=
  c.Prepares c' ∨ ∃ c₁, c.Prepares c₁ ∧ (calls.foldl call c₁).Alike c'

theorem endHeaders_handles {headers : List HeaderField} (h : c.Prepares c') :
    c.Handles calls (c'.endHeaders calls id headers) := by
  have hp : c.Prepares { c' with output := c'.output.emit (.request id headers []) } :=
    ⟨h.localSettings, h.remoteSettings, h.flowControl, h.connectionConsumed, h.output.emit trivial⟩
  exact Or.inr ⟨_, hp, ⟨rfl, rfl, rfl, rfl, rfl⟩⟩

theorem handleHeadersFrame_handles : c.Handles calls (c.handleHeadersFrame calls flags id payload) := by
  have hdec : ∀ ps, c.Prepares ((c.openStream id (hasFlag flags flagEndStream)).decodeBlock id ps) :=
    fun ps => ⟨rfl, rfl, rfl, rfl, (Logs.refl _).emit trivial⟩
  rw [handleHeadersFrame]
  split
  · exact Or.inl ⟨rfl, rfl, rfl, rfl, (Logs.refl _).writeFrame trivial trivial⟩
  · simp only
    split
    · split
      · have h := hdec { (c.pending.lookup id).getD {} with
          headerBlockFragment := ((c.pending.lookup id).getD {}).headerBlockFragment ++ payload
          endStream := hasFlag flags flagEndStream }
        exact endHeaders_handles ⟨h.localSettings, h.remoteSettings, h.flowControl, h.connectionConsumed, h.output⟩
      · exact Or.inl (hdec _)
    · exact Or.inl ⟨rfl, rfl, rfl, rfl, .refl _⟩

theorem handleContinuationFrame_handles : c.Handles calls (c.handleContinuationFrame calls flags id payload) := by
  have hclose : c.Prepares { c with output := c.output.closeConnection .protocolError } :=
    ⟨rfl, rfl, rfl, rfl, (Logs.refl _).closeConnection _ trivial⟩
  have hdec : ∀ ps, c.Prepares (c.decodeBlock id ps) := fun ps => ⟨rfl, rfl, rfl, rfl, (Logs.refl _).emit trivial⟩
  rw [handleContinuationFrame]
  split
  · exact Or.inl hclose
  · split
    · simp only
      split
      · split
        · exact endHeaders_handles (hdec _)
        · exact Or.inl (hdec _)
      · exact Or.inl ⟨rfl, rfl, rfl, rfl, .refl _⟩
    · exact Or.inl hclose

/-- Only DATA, SETTINGS and WINDOW_UPDATE frames have to do with windows. -/
theorem handleFrame_handles (hd : FrameType.ofCode f.type ≠ some .data) (hs : FrameType.ofCode f.type ≠ some .settings)
    (hw : FrameType.ofCode f.type ≠ some .windowUpdate) : c.Handles calls (c.handleFrame calls f) := by
  rw [handleFrame]
  split
  · exact Or.inl (.refl c)
  · cases ht : FrameType.ofCode f.type with
    | none => exact Or.inl (.refl c)
    | some type =>
        cases type with
        | data => exact (hd ht).elim
        | settings => exact (hs ht).elim
        | windowUpdate => exact (hw ht).elim
        | headers => exact handleHeadersFrame_handles
        | continuation => exact handleContinuationFrame_handles
        | ping =>
            refine Or.inl ?_
            simp only [handlePingFrame]
            split
            · exact .refl c
            · split
              · exact .refl c
              · exact ⟨rfl, rfl, rfl, rfl, (Logs.refl _).writeFrame trivial trivial⟩
        | goaway =>
            refine Or.inl ?_
            simp only [handleGoawayFrame]
            split
            · exact .refl c
            · exact ⟨rfl, rfl, rfl, rfl, (Logs.refl _).closeConnection _ trivial⟩
        | pushPromise =>
            refine Or.inl ?_
            simp only [handlePushPromiseFrame]
            split <;> exact ⟨rfl, rfl, rfl, rfl, .refl _⟩
        | rstStream => exact Or.inl ⟨rfl, rfl, rfl, rfl, .refl _⟩
        | priority => exact Or.inl (.refl c)

end Conn

/-! ### Steps -/

/-- The end of the connection. -/
def Effect.IsClose : Effect → Prop
  | .close _ => True
  | _ => False

/-- Neither a frame nor a call. -/
def Event.Idle : Event → Prop
  | .frame _ _ | .call _ => False
  | _ => True

/-- What a step can do. -/
theorem ConnStep.inv {c c' : Conn} {e : Event} (h : ConnStep c e c') :
    (∃ f calls, e = .frame f calls ∧ f.payload.length < 256 ^ 3 ∧ c' = c.handleFrame calls f) ∨
    (∃ cl, e = .call cl ∧ c' = c.call cl) ∨
    (e.Idle ∧ ∃ depth o, Logs Effect.IsClose c.output o ∧ c' = { c with writeBatchDepth := depth, output := o }) := by
  cases e with
  | frame f calls =>
      simp only [ConnStep, Conn.exec, Option.ite_none_left_eq_some, Option.some.injEq, not_or, not_le] at h
      exact Or.inl ⟨f, calls, rfl, h.1.2, h.2.symm⟩
  | call cl => exact Or.inr (Or.inl ⟨cl, rfl, (Option.some.inj h).symm⟩)
  | readable =>
      simp only [ConnStep, Conn.exec, Option.ite_none_left_eq_some, Option.some.injEq] at h
      exact Or.inr (Or.inr ⟨trivial, _, _, .refl _, h.2.symm⟩)
  | readDone =>
      simp only [ConnStep, Conn.exec, Option.ite_none_left_eq_some, Option.some.injEq] at h
      exact Or.inr (Or.inr ⟨trivial, _, _, (Logs.refl _).flushWrites, h.2.symm⟩)
  | readFailed error =>
      simp only [ConnStep, Conn.exec, Option.ite_none_left_eq_some, Option.some.injEq] at h
      exact Or.inr (Or.inr ⟨trivial, _, _, (Logs.refl _).closeConnection error trivial, h.2.symm⟩)
  | writable => exact Or.inr (Or.inr ⟨trivial, _, _, (Logs.refl _).flushWrites, (Option.some.inj h).symm⟩)

end NeForce.Http2
