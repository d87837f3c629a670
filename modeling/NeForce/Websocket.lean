import NeForce.Http2Frames

/-! # WebSocket sessions: the frames and `dispatch`

The frames of a WebSocket connection and what `websocket_session::dispatch` does with one of them.

A session holds what `dispatch` reads: the flag and the two buffers of a fragmented message, the negotiated
permessage-deflate parameters and the decompressor, which is a parameter (`Inflater`).  Everything that leaves the
session is an entry of its log, oldest first: messages for the handler, frames for `queue_frame`, the end
of the session.  The two fields that a pong writes are read by the heartbeat only; the log has the pong. -/

namespace NeForce.Websocket

/-! ### The frames -/

/-- `websocket_opcode`; the bits of a header may hold values that the enumeration does not name. -/
inductive Opcode where
  | continuation | text | binary | close | ping | pong
  | reserved (code : ℕ)
deriving DecidableEq

def Opcode.code : Opcode → ℕ
  | .continuation => 0x0
  | .text => 0x1
  | .binary => 0x2
  | .close => 0x8
  | .ping => 0x9
  | .pong => 0xA
  | .reserved code => code

/-- `static_cast<websocket_opcode>`. -/
def Opcode.ofCode : ℕ → Opcode
  | 0x0 => .continuation
  | 0x1 => .text
  | 0x2 => .binary
  | 0x8 => .close
  | 0x9 => .ping
  | 0xA => .pong
  | code => .reserved code

/-- `websocket_frame_header`. -/
structure Header where
  fin : Bool
  rsv1 : Bool
  rsv2 : Bool
  rsv3 : Bool
  opcode : ℕ
  masked : Bool
  payloadLen : ℕ
deriving DecidableEq

/-- The values of `websocket_status` that the session itself sends. -/
def normalClosure : ℕ := 1000
def protocolError : ℕ := 1002
def abnormalClosure : ℕ := 1006
def messageTooBig : ℕ := 1009

/-- `build_frame` without masking, as the session calls it. -/
def buildFrame (opcode : Opcode) (payload : Bytes) (rsv1 : Bool) : Bytes :=
  let firstByte : UInt8 := 0x80 ||| (UInt8.ofNat opcode.code &&& 0x0F) ||| if rsv1 then 0x40 else 0
  let len := payload.length
  firstByte ::
    (if len < 126 then [UInt8.ofNat len]
      else if len ≤ 0xFFFF then 126 :: writeBe 2 len
      else 127 :: writeBe 8 len) ++ payload

def makeClosePayload (status : ℕ) (reason : Bytes) : Bytes :=
  UInt8.ofNat (status >>> 8 &&& 0xFF) :: UInt8.ofNat (status &&& 0xFF) :: reason

/-! ### Sessions -/

/-- The decompressor: `process` of a complete message, which may throw, and `reset_context`. -/
structure Inflater (D : Type) where
  process : D → Bytes → Option Bytes × D
  resetContext : D → D

/-- A decompressor that gives nothing, for sessions without compression. -/
def noInflater : Inflater Unit := ⟨fun _ _ => (none, ()), id⟩

structure DeflateConfig where
  active : Bool
  clientNoContextTakeover : Bool
deriving DecidableEq

/-- What leaves a session. -/
inductive Effect where
  | message (data : Bytes) (opcode : Opcode)
  | queueFrame (frame : Bytes) (isControl : Bool)
  | pong
  | stop (status : ℕ) (reason : Bytes)
  /-- A parser refuses the bytes in front of it. -/
  | refused (status : ℕ) (reason : Bytes)
  /-- A call of `dispatch` has returned. -/
  | dispatched (hdr : Header) (payload : Bytes) (accepted : Bool)
deriving DecidableEq

structure Session (D : Type) where
  running : Bool
  closedOnce : Bool
  inFragment : Bool
  fragmentOpcode : Opcode
  fragmentBuffer : Bytes
  deflateFragmentBuffer : Bytes
  deflateConfig : DeflateConfig
  deflateDecompressor : Option D
  log : List Effect
deriving DecidableEq

variable {D : Type}

/-- A session that has just been started. -/
def Session.start (deflateConfig : DeflateConfig) (deflateDecompressor : Option D) : Session D :=
  ⟨true, false, false, .text, [], [], deflateConfig, deflateDecompressor, []⟩

def Session.emit (s : Session D) (e : Effect) : Session D := { s with log := s.log ++ [e] }

def Session.deliverMessage (s : Session D) (data : Bytes) (opcode : Opcode) : Session D := s.emit (.message data opcode)

def Session.sendCloseFrame (s : Session D) (status : ℕ) (reason : Bytes) : Session D :=
  s.emit (.queueFrame (buildFrame .close (makeClosePayload status reason) false) true)

def Session.doStop (s : Session D) (status : ℕ) (reason : Bytes) : Session D :=
  if s.closedOnce then s else { s with closedOnce := true, running := false, log := s.log ++ [.stop status reason] }

def Session.handleCloseFrame (s : Session D) (payload : Bytes) : Session D :=
  let status := if 2 ≤ payload.length then readBe (payload.take 2) else normalClosure
  let reason := if 2 ≤ payload.length then payload.drop 2 else []
  (s.sendCloseFrame status reason).doStop status reason

section

variable (z : Inflater D)

/-- `reset_context` after a message, if the peer starts every message anew. -/
def Session.resetContext (s : Session D) : Session D :=
  if s.deflateConfig.clientNoContextTakeover then
    { s with deflateDecompressor := s.deflateDecompressor.map z.resetContext }
  else s

/-- The cases `text` and `binary` of `dispatch`, outside a fragmented message. -/
def Session.dispatchData (s : Session D) (hdr : Header) (opcode : Opcode) (payload : Bytes) : Session D :=
  match hdr.rsv1, s.deflateDecompressor with
  | true, some d =>
      if !hdr.fin then
        { s with fragmentOpcode := opcode, deflateFragmentBuffer := s.deflateFragmentBuffer ++ payload, inFragment := true }
      else
        let r := z.process d payload
        ({ s with deflateDecompressor := some r.2 }.deliverMessage (r.1.getD payload) opcode).resetContext z
  | _, _ =>
      if !hdr.fin then { s with fragmentOpcode := opcode, fragmentBuffer := payload, inFragment := true }
      else s.deliverMessage payload opcode

/-- The case `continuation` of `dispatch`, inside a fragmented message. -/
def Session.dispatchContinuation (s : Session D) (hdr : Header) (payload : Bytes) : Session D :=
  match hdr.rsv1, s.deflateDecompressor, s.deflateFragmentBuffer with
  | true, some d, b :: bs =>
      let compressed := b :: bs ++ payload
      if hdr.fin then
        let r := z.process d compressed
        let s := { s with deflateDecompressor := some r.2 }
        let s := match r.1 with
          | some decompressed => s.deliverMessage decompressed s.fragmentOpcode
          | none => { s with fragmentBuffer := [] }
        { { s with deflateFragmentBuffer := [] }.resetContext z with inFragment := false }
      else { s with deflateFragmentBuffer := compressed }
  | _, _, _ =>
      let s := { s with fragmentBuffer := s.fragmentBuffer ++ payload }
      if hdr.fin then
        { s.deliverMessage s.fragmentBuffer s.fragmentOpcode with fragmentBuffer := [], inFragment := false }
      else s

def Session.dispatch (s : Session D) (hdr : Header) (opcode : Opcode) (payload : Bytes) : Session D × Bool :=
  match opcode with
  | .text | .binary =>
      if s.inFragment then (s.sendCloseFrame protocolError (ascii "New data frame before fragment complete"), false)
      else (s.dispatchData z hdr opcode payload, true)
  | .continuation =>
      if !s.inFragment then (s.sendCloseFrame protocolError (ascii "Unexpected continuation frame"), false)
      else (s.dispatchContinuation z hdr payload, true)
  | .ping => (s.emit (.queueFrame (buildFrame .pong payload false) true), true)
  | .pong => (s.emit .pong, true)
  | .close => (s.handleCloseFrame payload, false)
  | .reserved _ => (s.sendCloseFrame protocolError (ascii "Unknown opcode"), false)

end

end NeForce.Websocket
