import Mathlib.Data.Finmap
import NeForce.Hpack

/-! # Streams, windows and settings

The parts of an HTTP/2 connection: the state machine of a stream, the windows that limit what may be sent,
and the settings of the two endpoints.  The counters are 32-bit numbers. -/

namespace NeForce.Http2

/-- A table whose keys are stream identifiers. -/
abbrev IdMap (α : Type) := Finmap fun _ : ℕ => α

/-! ### Streams -/

inductive StreamState where
  | idle | reservedLocal | reservedRemote | opened | halfClosedLocal | halfClosedRemote | closed
deriving DecidableEq

namespace StreamState

def onSendHeaders (endStream : Bool) : StreamState → StreamState
  | idle => if endStream then halfClosedLocal else opened
  | reservedLocal => if endStream then closed else halfClosedRemote
  | s => s

def onSendData (endStream : Bool) (s : StreamState) : StreamState :=
  if endStream then
    match s with
    | opened => halfClosedLocal
    | halfClosedRemote => closed
    | s => s
  else s

def onReceiveHeaders (endStream : Bool) : StreamState → StreamState
  | idle => if endStream then halfClosedRemote else opened
  | reservedRemote => if endStream then closed else halfClosedLocal
  | halfClosedLocal => if endStream then closed else halfClosedLocal
  | s => s

def onReceiveData (endStream : Bool) (s : StreamState) : StreamState :=
  if endStream then
    match s with
    | opened => halfClosedRemote
    | halfClosedLocal => closed
    | s => s
  else s

end StreamState

/-! ### Windows -/

/-- `a - b` of 32-bit numbers. -/
def sub32 (a b : ℕ) : ℕ := (a + (2 ^ 32 - b % 2 ^ 32)) % 2 ^ 32

/-- `a + b` of 32-bit numbers. -/
def add32 (a b : ℕ) : ℕ := (a + b) % 2 ^ 32

theorem sub32_eq {a b : ℕ} (ha : a < 2 ^ 32) (h : b ≤ a) : sub32 a b = a - b := by
  unfold sub32
  omega

theorem add32_eq {a b : ℕ} (h : a + b < 2 ^ 32) : add32 a b = a + b := Nat.mod_eq_of_lt h

structure FlowControl where
  initialWindow : ℕ
  connectionWindow : ℕ
  streamWindows : IdMap ℕ

namespace FlowControl

def make (initialWindow : ℕ) : FlowControl := ⟨initialWindow, initialWindow, ∅⟩

def setInitialWindow (fc : FlowControl) (size : ℕ) : FlowControl := { fc with initialWindow := size }

/-- The window of a stream, which is the initial one until it is consumed or enlarged. -/
def window (fc : FlowControl) (streamId : ℕ) : ℕ := (fc.streamWindows.lookup streamId).getD fc.initialWindow

def consume (fc : FlowControl) (streamId amount : ℕ) : FlowControl :=
  { fc with
    connectionWindow := sub32 fc.connectionWindow amount
    streamWindows := fc.streamWindows.insert streamId (sub32 (fc.window streamId) amount) }

def addWindow (fc : FlowControl) (streamId amount : ℕ) : FlowControl :=
  if streamId = 0 then { fc with connectionWindow := add32 fc.connectionWindow amount }
  else { fc with streamWindows := fc.streamWindows.insert streamId (add32 (fc.window streamId) amount) }

/-- What the send loops take as the available window. -/
def available (fc : FlowControl) (streamId : ℕ) : ℕ :=
  let available := min (fc.window streamId) fc.connectionWindow
  if available = 0 then 1 else available

end FlowControl

/-! ### Settings -/

/-- The settings that are read, with their defaults. -/
structure Settings where
  headerTableSize : ℕ := 4096
  enablePush : ℕ := 0
  maxConcurrentStreams : ℕ := 100
  initialWindowSize : ℕ := 65535
  maxFrameSize : ℕ := 16384

/-- The settings of this endpoint, whose frames are not empty. -/
structure LocalSettings extends Settings where
  maxFrameSize_pos : 0 < maxFrameSize := by decide

namespace Settings

def applyEntry (s : Settings) (id value : ℕ) : Settings :=
  match id with
  | 0x1 => { s with headerTableSize := value }
  | 0x2 => if 1 < value then s else { s with enablePush := value }
  | 0x3 => { s with maxConcurrentStreams := value }
  | 0x4 => if 0x7FFFFFFF < value then s else { s with initialWindowSize := value }
  | 0x5 => if value < 16384 ∨ 16777215 < value then s else { s with maxFrameSize := value }
  | _ => s

def applyRemoteSettings (s : Settings) (entries : List (ℕ × ℕ)) : Settings :=
  entries.foldl (fun s e => s.applyEntry e.1 e.2) s

end Settings

/-! ### Errors -/

inductive Http2Error where
  | noError | protocolError | internalError | flowControlError | settingsTimeout | streamClosed | frameSizeError
  | refusedStream | cancel | compressionError | connectError | enhanceYourCalm | inadequateSecurity | http11Required
deriving DecidableEq

def Http2Error.code : Http2Error → ℕ
  | noError => 0x0
  | protocolError => 0x1
  | internalError => 0x2
  | flowControlError => 0x3
  | settingsTimeout => 0x4
  | streamClosed => 0x5
  | frameSizeError => 0x6
  | refusedStream => 0x7
  | cancel => 0x8
  | compressionError => 0x9
  | connectError => 0xA
  | enhanceYourCalm => 0xB
  | inadequateSecurity => 0xC
  | http11Required => 0xD

end NeForce.Http2
