import NeForce.Http2Protocol
import NeForce.Runs

/-! # The connection

The state of an HTTP/2 connection of a server, the calls of its interface, and what it does with the frames it receives.

Everything that leaves the connection goes through `Output`: the write buffer, of which only the size
matters, and a log of what was done, in order.  A frame that does not fit the write buffer is dropped
and closes the connection.  The handler of a request is a list of calls, made when the request is complete. -/

namespace NeForce.Http2

open Hpack

/-! ### Output -/

/-- What can be seen of a connection from outside. -/
inductive Effect where
  /-- a frame is put into the write buffer -/
  | frame (f : Frame)
  /-- a header block is decoded -/
  | decode (streamId : ℕ) (block : Bytes) (headers : List HeaderField)
  /-- the handler is called with a request -/
  | request (streamId : ℕ) (headers : List HeaderField) (data : Bytes)
  | close (error : Http2Error)
deriving DecidableEq

structure Output where
  closed : Bool
  writeBufferSize : ℕ
  log : List Effect

namespace Output

def maxWriteBufferSize : ℕ := 4194304

def emit (o : Output) (e : Effect) : Output := { o with log := o.log ++ [e] }

def flushWrites (o : Output) : Output := { o with writeBufferSize := 0 }

def flushWritesOver (o : Output) (threshold : ℕ) : Output :=
  if o.writeBufferSize < threshold then o else { o with writeBufferSize := 0 }

def closeConnection (o : Output) (error : Http2Error) : Output :=
  if o.closed then o else (flushWrites { o with closed := true }).emit (.close error)

/-- There is room for a frame. -/
def Fits (o : Output) (f : Frame) : Prop := o.writeBufferSize + f.encode.length ≤ maxWriteBufferSize

instance (o : Output) (f : Frame) : Decidable (o.Fits f) := by
  unfold Fits
  infer_instance

def writeFrame (o : Output) (f : Frame) : Output :=
  if o.Fits f then { o with writeBufferSize := o.writeBufferSize + f.encode.length, log := o.log ++ [.frame f] }
  else o.closeConnection .enhanceYourCalm

def sendWindowUpdate (o : Output) (streamId increment : ℕ) : Output :=
  let increment := increment &&& 0x7FFFFFFF
  if increment = 0 then o else o.writeFrame (.windowUpdate streamId increment)

end Output

/-! ### The state -/

structure PendingStream where
  headers : List HeaderField := []
  headerBlockFragment : Bytes := []
  data : Bytes := []
  endStream : Bool := false
  waitingContinuation : Bool := false
deriving DecidableEq

structure Conn where
  localSettings : LocalSettings
  remoteSettings : Settings
  encoder : DynamicTable
  decoder : DynamicTable
  flowControl : FlowControl
  streams : IdMap StreamState
  lastStreamId : ℕ
  connectionConsumed : ℕ
  streamConsumed : IdMap ℕ
  writeBatchDepth : ℕ
  pending : IdMap PendingStream
  output : Output

namespace Conn

/-- The constructor: the tables and the windows have the default sizes, the settings may be changed after it. -/
def make (localSettings : LocalSettings) : Conn where
  localSettings
  remoteSettings := {}
  encoder := .make 4096
  decoder := .make 4096
  flowControl := .make 65535
  streams := ∅
  lastStreamId := 0
  connectionConsumed := 0
  streamConsumed := ∅
  writeBatchDepth := 0
  pending := ∅
  output := ⟨false, 0, []⟩

def start (c : Conn) : Conn :=
  { c with
    output := (c.output.writeFrame (.settings false
      [(0x3, c.localSettings.maxConcurrentStreams), (0x4, c.localSettings.initialWindowSize),
       (0x5, c.localSettings.maxFrameSize), (0x1, c.localSettings.headerTableSize)])).flushWrites }

/-- The part of `on_readable` after the preface of the client. -/
def receivePreface (c : Conn) : Conn :=
  { c with output := c.output.writeFrame (.settings false [(0x3, 100), (0x4, 65535)]) }

/-- A connection that expects frames. -/
def ready (localSettings : LocalSettings) : Conn := (make localSettings).start.receivePreface

/-- A change of the state of a stream; a stream that is closed by it is removed. -/
def updateStreams (streams : IdMap StreamState) (streamId : ℕ) (on : StreamState → StreamState) : IdMap StreamState :=
  match streams.lookup streamId with
  | none => streams
  | some s => if on s = .closed then streams.erase streamId else streams.insert streamId (on s)

def updateStream (c : Conn) (streamId : ℕ) (on : StreamState → StreamState) : Conn :=
  { c with streams := updateStreams c.streams streamId on }

/-! ### Sending -/

/-- The frames of a header block that is larger than a frame, at most `n` of them. -/
def splitBlock (streamId maxFrame : ℕ) (endStream : Bool) : ℕ → Bool → Bytes → List Frame
  | 0, _, _ => []
  | n + 1, first, block =>
      if block = [] then []
      else
        let isLast : Bool := block.length ≤ maxFrame
        let frame : Frame :=
          if first then
            .headers {
              streamId
              headerBlock := block.take maxFrame
              endHeaders := isLast
              endStream := isLast && endStream }
          else .continuation { streamId, headerBlock := block.take maxFrame, endHeaders := isLast }
        frame :: splitBlock streamId maxFrame endStream n false (block.drop maxFrame)

/-- The frames that `write_header_block` writes. -/
def headerFrames (streamId maxFrame : ℕ) (block : Bytes) (endStream : Bool) : List Frame :=
  if maxFrame < block.length then splitBlock streamId maxFrame endStream block.length true block
  else [.headers { streamId, headerBlock := block, endHeaders := true, endStream }]

def writeHeaderBlock (c : Conn) (streamId : ℕ) (block : Bytes) (endStream : Bool) : Conn :=
  { c with
    output := (headerFrames streamId c.localSettings.maxFrameSize block endStream).foldl .writeFrame c.output }

/-- The number of bytes of the next DATA frame. -/
def chunkSize (fc : FlowControl) (streamId maxFrame remaining : ℕ) : ℕ :=
  min (min remaining (fc.available streamId)) maxFrame

/-- The loop over a body in `send_response` and `send_data`, at most `n` frames. -/
def writeData (streamId maxFrame : ℕ) (endStream : Bool) : ℕ → Bytes → FlowControl × Output → FlowControl × Output
  | 0, _, r => r
  | n + 1, data, (fc, o) =>
      if data = [] then (fc, o)
      else
        let chunk := chunkSize fc streamId maxFrame data.length
        let df : DataFrame :=
          { streamId, data := data.take chunk, endStream := decide (data.length ≤ chunk) && endStream }
        writeData streamId maxFrame endStream n (data.drop chunk) (fc.consume streamId chunk, o.writeFrame (.data df))

def writeBody (c : Conn) (streamId : ℕ) (data : Bytes) (endStream : Bool) : Conn :=
  let r := writeData streamId c.localSettings.maxFrameSize endStream data.length data (c.flowControl, c.output)
  { c with flowControl := r.1, output := r.2 }

/-- The stream after a call that ends it, or not. -/
def sentData (c : Conn) (streamId : ℕ) (endStream : Bool) : Conn :=
  { c with streams := if endStream then updateStreams c.streams streamId (·.onSendData true) else c.streams }

/-- The end of `send_response`: the write buffer is flushed, or waits for the end of `on_readable`. -/
def flushResponse (c : Conn) (bodySize : ℕ) : Conn :=
  { c with
    output :=
      if c.writeBatchDepth = 0 ∨ 16 * 1024 ≤ bodySize ∨ ¬1 < c.remoteSettings.maxConcurrentStreams then
        c.output.flushWrites
      else c.output.flushWritesOver (1024 * 1024) }

/-- `send_response`; its header frames are those of `write_header_block`. -/
def sendResponse (c : Conn) (streamId : ℕ) (headers : List HeaderField) (body : Bytes) (endStream : Bool) : Conn :=
  let r := c.encoder.encode headers
  let c := { c with encoder := r.2 }.writeHeaderBlock streamId r.1 (endStream && decide (body = []))
  ((c.writeBody streamId body endStream).sentData streamId endStream).flushResponse body.length

def sendHeaders (c : Conn) (streamId : ℕ) (headers : List HeaderField) (endStream : Bool) : Conn :=
  let r := c.encoder.encode headers
  let c := { c with encoder := r.2 }.writeHeaderBlock streamId r.1 endStream
  let c := c.updateStream streamId fun s => (s.onSendHeaders false).onSendData endStream
  { c with output := c.output.flushWrites }

def sendData (c : Conn) (streamId : ℕ) (data : Bytes) (endStream : Bool) : Conn :=
  let c := (c.writeBody streamId data endStream).sentData streamId endStream
  { c with output := c.output.flushWrites }

def sendTrailers (c : Conn) (streamId : ℕ) (trailers : List HeaderField) : Conn :=
  let r := c.encoder.encode trailers
  let c := ({ c with encoder := r.2 }.writeHeaderBlock streamId r.1 true).sentData streamId true
  { c with output := c.output.flushWrites }

/-- The loop of `write_body_frames`, at most `n` frames; unlike `writeData` it stops at a full write buffer. -/
def writeBodyFramesLoop (streamId maxFrame : ℕ) (endStream : Bool) :
    ℕ → Bytes → FlowControl × Output → FlowControl × Output
  | 0, _, r => r
  | n + 1, data, (fc, o) =>
      if data = [] then (fc, o)
      else
        let chunk := chunkSize fc streamId maxFrame data.length
        let df : DataFrame :=
          { streamId, data := data.take chunk, endStream := decide (data.length ≤ chunk) && endStream }
        if o.Fits (.data df) then
          writeBodyFramesLoop streamId maxFrame endStream n (data.drop chunk)
            (fc.consume streamId chunk, o.writeFrame (.data df))
        else (fc, o.closeConnection .enhanceYourCalm)

def writeBodyFrames (c : Conn) (streamId : ℕ) (data : Bytes) (endStream : Bool) : Conn :=
  let r := writeBodyFramesLoop streamId c.localSettings.maxFrameSize endStream data.length data (c.flowControl, c.output)
  { c with flowControl := r.1, output := r.2 }

def sendPushPromise (c : Conn) (streamId promisedStreamId : ℕ) (requestHeaders : List HeaderField) : Conn :=
  if c.output.closed ∨ c.remoteSettings.enablePush = 0 ∨ promisedStreamId % 2 = 1 ∨ promisedStreamId = 0 then c
  else
    let r := c.encoder.encode requestHeaders
    { c with
      encoder := r.2
      streams := c.streams.insert promisedStreamId (StreamState.idle.onSendHeaders false)
      output := c.output.writeFrame
        (.pushPromise { streamId, promisedStreamId, headerBlock := r.1, endHeaders := true })
      lastStreamId := max promisedStreamId c.lastStreamId }

def sendRstStream (c : Conn) (streamId : ℕ) (error : Http2Error) : Conn :=
  { c with
    output := c.output.writeFrame (.rstStream streamId error.code)
    streams := c.streams.erase streamId
    pending := c.pending.erase streamId
    streamConsumed := c.streamConsumed.erase streamId }

def sendGoaway (c : Conn) (error : Http2Error) : Conn :=
  { c with output := (c.output.writeFrame (.goaway c.lastStreamId error.code [])).closeConnection error }

end Conn

/-- The calls by which a program sends, and `stop`. -/
inductive Call where
  | sendResponse (streamId : ℕ) (headers : List HeaderField) (body : Bytes) (endStream : Bool)
  | sendHeaders (streamId : ℕ) (headers : List HeaderField) (endStream : Bool)
  | sendData (streamId : ℕ) (data : Bytes) (endStream : Bool)
  | sendTrailers (streamId : ℕ) (trailers : List HeaderField)
  | writeBodyFrames (streamId : ℕ) (data : Bytes) (endStream : Bool)
  | sendPushPromise (streamId promisedStreamId : ℕ) (requestHeaders : List HeaderField)
  | sendRstStream (streamId : ℕ) (error : Http2Error)
  | sendGoaway (error : Http2Error)
  | stop

namespace Conn

def call (c : Conn) : Call → Conn
  | .sendResponse id headers body endStream => c.sendResponse id headers body endStream
  | .sendHeaders id headers endStream => c.sendHeaders id headers endStream
  | .sendData id data endStream => c.sendData id data endStream
  | .sendTrailers id trailers => c.sendTrailers id trailers
  | .writeBodyFrames id data endStream => c.writeBodyFrames id data endStream
  | .sendPushPromise id promised headers => c.sendPushPromise id promised headers
  | .sendRstStream id error => c.sendRstStream id error
  | .sendGoaway error => c.sendGoaway error
  | .stop => { c with output := { c.output with closed := true } }

/-! ### Receiving -/

/-- The router or the handler is called with a request, and makes its calls. -/
def handleRequest (c : Conn) (calls : List Call) (streamId : ℕ) (headers : List HeaderField) (data : Bytes) : Conn :=
  calls.foldl call { c with output := c.output.emit (.request streamId headers data) }

def windowUpdateThreshold : ℕ := 65535

/-- The windows of a DATA frame with `len` bytes, and the WINDOW_UPDATE frames for them. -/
def receiveCredit (c : Conn) (streamId len : ℕ) : Conn :=
  let consumed := add32 c.connectionConsumed len
  let streamConsumed := add32 ((c.streamConsumed.lookup streamId).getD 0) len
  let o := if windowUpdateThreshold ≤ consumed then c.output.sendWindowUpdate 0 consumed else c.output
  { c with
    flowControl := c.flowControl.consume streamId len
    connectionConsumed := if windowUpdateThreshold ≤ consumed then 0 else consumed
    streamConsumed := c.streamConsumed.insert streamId (if windowUpdateThreshold ≤ streamConsumed then 0 else streamConsumed)
    output := if windowUpdateThreshold ≤ streamConsumed then o.sendWindowUpdate streamId streamConsumed else o }

def handleDataFrame (c : Conn) (calls : List Call) (flags : UInt8) (streamId : ℕ) (payload : Bytes) : Conn :=
  match c.pending.lookup streamId with
  | none => c.sendRstStream streamId .streamClosed
  | some ps =>
      let c := c.receiveCredit streamId payload.length
      let endStream := hasFlag flags flagEndStream
      let ps := { ps with data := ps.data ++ payload, endStream }
      let c := { c with pending := c.pending.insert streamId ps }
      if endStream then
        let c := c.updateStream streamId (·.onReceiveData true)
        let c := c.handleRequest calls streamId ps.headers ps.data
        { c with pending := c.pending.erase streamId, streamConsumed := c.streamConsumed.erase streamId }
      else c

/-- The fields of a pending stream once its header block is complete. -/
def decodeBlock (c : Conn) (streamId : ℕ) (ps : PendingStream) : Conn :=
  let r := c.decoder.decode ps.headerBlockFragment
  { c with
    decoder := r.2
    pending := c.pending.insert streamId
      { ps with headers := r.1, headerBlockFragment := [], waitingContinuation := false }
    output := c.output.emit (.decode streamId ps.headerBlockFragment r.1) }

/-- The handler is called with the header fields of a stream that has no body. -/
def endHeaders (c : Conn) (calls : List Call) (streamId : ℕ) (headers : List HeaderField) : Conn :=
  let c := c.handleRequest calls streamId headers []
  { c with pending := c.pending.erase streamId }

/-- A stream that is not known yet is opened. -/
def openStream (c : Conn) (streamId : ℕ) (endStream : Bool) : Conn :=
  { c with
    streams :=
      if c.streams.lookup streamId = none then
        c.streams.insert streamId (StreamState.idle.onReceiveHeaders endStream)
      else c.streams }

def handleHeadersFrame (c : Conn) (calls : List Call) (flags : UInt8) (streamId : ℕ) (payload : Bytes) : Conn :=
  let endStream := hasFlag flags flagEndStream
  if c.streams.lookup streamId = none ∧ c.localSettings.maxConcurrentStreams ≤ c.streams.keys.card then
    c.sendRstStream streamId .refusedStream
  else
    let c := c.openStream streamId endStream
    let ps := (c.pending.lookup streamId).getD {}
    let ps := { ps with headerBlockFragment := ps.headerBlockFragment ++ payload, endStream }
    if hasFlag flags flagEndHeaders then
      let headers := (c.decoder.decode ps.headerBlockFragment).1
      let c := c.decodeBlock streamId ps
      if endStream then (c.updateStream streamId id).endHeaders calls streamId headers else c
    else { c with pending := c.pending.insert streamId { ps with waitingContinuation := true } }

def handleContinuationFrame (c : Conn) (calls : List Call) (flags : UInt8) (streamId : ℕ) (payload : Bytes) : Conn :=
  match c.pending.lookup streamId with
  | none => { c with output := c.output.closeConnection .protocolError }
  | some ps =>
      if ps.waitingContinuation then
        let ps := { ps with headerBlockFragment := ps.headerBlockFragment ++ payload }
        if hasFlag flags flagEndHeaders then
          let headers := (c.decoder.decode ps.headerBlockFragment).1
          let c := c.decodeBlock streamId ps
          if ps.endStream then c.endHeaders calls streamId headers else c
        else { c with pending := c.pending.insert streamId ps }
      else { c with output := c.output.closeConnection .protocolError }

/-- `cur.data()` is the front of the payload, and as many bytes are taken from there as are left. -/
def handlePushPromiseFrame (c : Conn) (payload : Bytes) : Conn :=
  match tryReadBe 4 payload with
  | none => c
  | some (sid, cur) =>
      let promisedStreamId := sid &&& 0x7FFFFFFF
      let ps := (c.pending.lookup promisedStreamId).getD {}
      { c with
        pending := c.pending.insert promisedStreamId
          { ps with headerBlockFragment := ps.headerBlockFragment ++ payload.take cur.length } }

/-- The entries of a SETTINGS frame, at most `n`. -/
def settingsEntries : ℕ → Bytes → List (ℕ × ℕ)
  | 0, _ => []
  | n + 1, cur =>
      match tryReadBe 2 cur with
      | none => []
      | some (id, cur) =>
          match tryReadBe 4 cur with
          | none => []
          | some (value, cur) => (id, value) :: settingsEntries n cur

def handleSettingsFrame (c : Conn) (flags : UInt8) (payload : Bytes) : Conn :=
  if hasFlag flags flagAck then c
  else
    let remoteSettings := c.remoteSettings.applyRemoteSettings (settingsEntries payload.length payload)
    { c with
      remoteSettings
      encoder := c.encoder.setMaxTableSize remoteSettings.headerTableSize
      decoder := c.decoder.setMaxTableSize remoteSettings.headerTableSize
      flowControl := c.flowControl.setInitialWindow remoteSettings.initialWindowSize
      output := c.output.writeFrame (.settings true []) }

def handlePingFrame (c : Conn) (flags : UInt8) (payload : Bytes) : Conn :=
  if hasFlag flags flagAck then c
  else
    match tryReadBe 8 payload with
    | none => c
    | some (data, _) => { c with output := c.output.writeFrame (.ping true data) }

def handleGoawayFrame (c : Conn) (payload : Bytes) : Conn :=
  match tryReadBe 4 payload with
  | none => c
  | some (sid, _) => { c with lastStreamId := sid &&& 0x7FFFFFFF, output := c.output.closeConnection .noError }

def handleRstStreamFrame (c : Conn) (streamId : ℕ) : Conn :=
  let c := c.updateStream streamId fun _ => .closed
  { c with pending := c.pending.erase streamId, streamConsumed := c.streamConsumed.erase streamId }

/-- The increment of a WINDOW_UPDATE frame. -/
def windowIncrement (payload : Bytes) : Option ℕ := (tryReadBe 4 payload).map fun r => r.1 &&& 0x7FFFFFFF

def handleWindowUpdateFrame (c : Conn) (streamId : ℕ) (payload : Bytes) : Conn :=
  match windowIncrement payload with
  | none => c
  | some increment =>
      let current := if streamId = 0 then c.flowControl.connectionWindow else c.flowControl.window streamId
      if increment = 0 then { c with output := c.output.closeConnection .protocolError }
      else if 0x7FFFFFFF < current + increment then c.sendGoaway .flowControlError
      else { c with flowControl := c.flowControl.addWindow streamId increment }

/-- A frame is ignored because of its stream. -/
def Ignores (c : Conn) (streamId : ℕ) : Prop := 0 < c.lastStreamId ∧ c.lastStreamId < streamId

instance (c : Conn) (streamId : ℕ) : Decidable (c.Ignores streamId) := by
  unfold Ignores
  infer_instance

/-- `handle_frame`; `calls` are the calls of the handler, if it is called.  The weights of PRIORITY frames are never read. -/
def handleFrame (c : Conn) (calls : List Call) (f : RawFrame) : Conn :=
  if c.Ignores f.streamId then c
  else
    match FrameType.ofCode f.type with
    | some .data => c.handleDataFrame calls f.flags f.streamId f.payload
    | some .headers => c.handleHeadersFrame calls f.flags f.streamId f.payload
    | some .settings => c.handleSettingsFrame f.flags f.payload
    | some .ping => c.handlePingFrame f.flags f.payload
    | some .goaway => c.handleGoawayFrame f.payload
    | some .rstStream => c.handleRstStreamFrame f.streamId
    | some .windowUpdate => c.handleWindowUpdateFrame f.streamId f.payload
    | some .pushPromise => c.handlePushPromiseFrame f.payload
    | some .continuation => c.handleContinuationFrame calls f.flags f.streamId f.payload
    | some .priority | none => c

end Conn

/-! ### Steps -/

/-- What happens to a connection: `on_readable` begins, handles the frames that it reads one after the other and ends
with a flush, or fails; the socket gets writable; a program makes a call.  The length of a frame has three bytes. -/
inductive Event where
  | readable
  | frame (f : RawFrame) (calls : List Call)
  | readDone
  | readFailed (error : Http2Error)
  | writable
  | call (c : Call)

namespace Conn

def exec (c : Conn) : Event → Option Conn
  | .readable => if c.output.closed ∨ c.writeBatchDepth ≠ 0 then none else some { c with writeBatchDepth := 1 }
  | .frame f calls =>
      if c.writeBatchDepth = 0 ∨ 256 ^ 3 ≤ f.payload.length then none else some (c.handleFrame calls f)
  | .readDone =>
      if c.writeBatchDepth = 0 then none
      else some { c with writeBatchDepth := c.writeBatchDepth - 1, output := c.output.flushWrites }
  | .readFailed error =>
      if c.output.closed ∨ c.writeBatchDepth ≠ 0 then none
      else some { c with output := c.output.closeConnection error }
  | .writable => some { c with output := c.output.flushWrites }
  | .call cl => some (c.call cl)

end Conn

def ConnStep (c : Conn) (e : Event) (c' : Conn) : Prop := c.exec e = some c'

end NeForce.Http2
