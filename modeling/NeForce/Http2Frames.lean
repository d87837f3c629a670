import NeForce.BigEndian
import NeForce.Incremental

/-! # HTTP/2 frames

The frames of HTTP/2, their wire format and the framer that cuts a byte stream into frames.

`Frame.encode` writes a frame: a header of nine bytes and the payload.  `decodeFrames` is called
with every piece of input and keeps the bytes after the last complete frame in a buffer; a cursor is the list of its
unread bytes.  The framer is an incremental parser (`readFrame_steady`), so that the frames do not
depend on how the stream is cut (`decode_chunks`). -/

namespace NeForce.Http2

open Incremental

/-! ### The frames -/

def flagEndStream : UInt8 := 0x1
def flagEndHeaders : UInt8 := 0x4
def flagPadded : UInt8 := 0x8
def flagPriority : UInt8 := 0x20
def flagAck : UInt8 := 0x1

/-- `(flags & flag) != 0`. -/
def hasFlag (flags flag : UInt8) : Bool := flags &&& flag ≠ 0

inductive FrameType where
  | data | headers | priority | rstStream | settings | pushPromise | ping | goaway | windowUpdate | continuation
deriving DecidableEq

/-- The type byte of a frame. -/
def FrameType.code : FrameType → UInt8
  | .data => 0x0
  | .headers => 0x1
  | .priority => 0x2
  | .rstStream => 0x3
  | .settings => 0x4
  | .pushPromise => 0x5
  | .ping => 0x6
  | .goaway => 0x7
  | .windowUpdate => 0x8
  | .continuation => 0x9

/-- The frame type of a byte; bytes without a type are ignored by the receiver. -/
def FrameType.ofCode (c : UInt8) : Option FrameType :=
  [data, headers, priority, rstStream, settings, pushPromise, ping, goaway, windowUpdate, continuation].find?
    (·.code = c)

@[simp] theorem FrameType.ofCode_code (t : FrameType) : ofCode t.code = some t := by cases t <;> decide

structure Priority where
  streamDependency : ℕ
  weight : UInt8
deriving DecidableEq

structure DataFrame where
  streamId : ℕ
  data : Bytes
  padLength : UInt8 := 0
  endStream : Bool := false
deriving DecidableEq

structure HeadersFrame where
  streamId : ℕ
  headerBlock : Bytes
  padLength : UInt8 := 0
  priority : Priority := ⟨0, 0⟩
  endStream : Bool := false
  endHeaders : Bool := false
  hasPriority : Bool := false
deriving DecidableEq

structure PushPromiseFrame where
  streamId : ℕ
  promisedStreamId : ℕ
  headerBlock : Bytes
  padLength : UInt8 := 0
  endHeaders : Bool := false
deriving DecidableEq

structure ContinuationFrame where
  streamId : ℕ
  headerBlock : Bytes
  endHeaders : Bool := false
deriving DecidableEq

/-- The frames an endpoint writes; the entries of SETTINGS are pairs of an identifier and a value. -/
inductive Frame where
  | data (f : DataFrame)
  | headers (f : HeadersFrame)
  | pushPromise (f : PushPromiseFrame)
  | rstStream (streamId errorCode : ℕ)
  | settings (ack : Bool) (entries : List (ℕ × ℕ))
  | ping (ack : Bool) (opaqueData : ℕ)
  | goaway (lastStreamId errorCode : ℕ) (debugData : Bytes)
  | windowUpdate (streamId increment : ℕ)
  | continuation (f : ContinuationFrame)
deriving DecidableEq

/-! ### Encoding -/

/-- `flags |= flag` under a condition. -/
def flagIf (b : Bool) (flag : UInt8) : UInt8 := if b then flag else 0

/-- A stream identifier without its reserved bit, in four bytes. -/
def streamIdBytes (id : ℕ) : Bytes := UInt8.ofNat ((id >>> 24) &&& 0x7F) :: writeBe 3 id

def buildFrameHeader (type : FrameType) (flags : UInt8) (streamId payloadLen : ℕ) : Bytes :=
  writeBe 3 payloadLen ++ [type.code, flags] ++ streamIdBytes streamId

/-- A payload with its pad length in front and its padding at the end, if there is padding. -/
def padded (padLength : UInt8) (payload : Bytes) : Bytes :=
  if 0 < padLength.toNat then padLength :: payload ++ List.replicate padLength.toNat 0 else payload

def paddedLen (padLength : UInt8) (len : ℕ) : ℕ := if 0 < padLength.toNat then len + (1 + padLength.toNat) else len

def encodeDataFrame (f : DataFrame) : Bytes :=
  buildFrameHeader .data (flagIf f.endStream flagEndStream ||| flagIf (0 < f.padLength.toNat) flagPadded) f.streamId
    (paddedLen f.padLength f.data.length) ++ padded f.padLength f.data

/-- The five bytes of the priority. -/
def priorityBytes (f : HeadersFrame) : Bytes :=
  if f.hasPriority then streamIdBytes f.priority.streamDependency ++ [f.priority.weight] else []

def encodeHeadersFrame (f : HeadersFrame) : Bytes :=
  buildFrameHeader .headers
    (flagIf f.endStream flagEndStream ||| flagIf f.endHeaders flagEndHeaders ||| flagIf f.hasPriority flagPriority |||
      flagIf (0 < f.padLength.toNat) flagPadded)
    f.streamId
    (paddedLen f.padLength (if f.hasPriority then f.headerBlock.length + 5 else f.headerBlock.length)) ++
    padded f.padLength (priorityBytes f ++ f.headerBlock)

def encodePushPromiseFrame (f : PushPromiseFrame) : Bytes :=
  buildFrameHeader .pushPromise (flagIf f.endHeaders flagEndHeaders ||| flagIf (0 < f.padLength.toNat) flagPadded)
    f.streamId (paddedLen f.padLength (4 + f.headerBlock.length)) ++
    padded f.padLength (writeBe 4 (f.promisedStreamId &&& 0x7FFFFFFF) ++ f.headerBlock)

def encodeSettingsFrame (ack : Bool) (entries : List (ℕ × ℕ)) : Bytes :=
  buildFrameHeader .settings (flagIf ack flagAck) 0 (entries.length * 6) ++
    entries.flatMap fun e => writeBe 2 e.1 ++ writeBe 4 e.2

def encodeContinuationFrame (f : ContinuationFrame) : Bytes :=
  buildFrameHeader .continuation (flagIf f.endHeaders flagEndHeaders) f.streamId f.headerBlock.length ++ f.headerBlock

/-- The bytes of a frame. -/
def Frame.encode : Frame → Bytes
  | .data f => encodeDataFrame f
  | .headers f => encodeHeadersFrame f
  | .pushPromise f => encodePushPromiseFrame f
  | .rstStream id code => buildFrameHeader .rstStream 0 id 4 ++ writeBe 4 code
  | .settings ack entries => encodeSettingsFrame ack entries
  | .ping ack d => buildFrameHeader .ping (flagIf ack flagAck) 0 8 ++ writeBe 8 d
  | .goaway last code debug =>
      buildFrameHeader .goaway 0 0 (8 + debug.length) ++ streamIdBytes last ++ writeBe 4 code ++ debug
  | .windowUpdate id inc => buildFrameHeader .windowUpdate 0 id 4 ++ writeBe 4 (inc &&& 0x7FFFFFFF)
  | .continuation f => encodeContinuationFrame f

/-! ### Decoding -/

/-- What the framer passes to its callback. -/
structure RawFrame where
  type : UInt8
  flags : UInt8
  streamId : ℕ
  payload : Bytes
deriving DecidableEq

def tryReadByte : Bytes → Option (UInt8 × Bytes)
  | [] => none
  | b :: cur => some (b, cur)

def tryReadBytes (count : ℕ) (cur : Bytes) : Option (Bytes × Bytes) :=
  if cur.length < count then none else some (cur.take count, cur.drop count)

/-- `try_read_be16`, `try_read_be24`, `try_read_be32` and `try_read_be64`. -/
def tryReadBe (count : ℕ) (cur : Bytes) : Option (ℕ × Bytes) :=
  (tryReadBytes count cur).map fun r => (readBe r.1, r.2)

/-- The body of the loop of `decode_frames`: one frame from the front, if it is complete. -/
def readFrame (cur : Bytes) : Option (RawFrame × Bytes) :=
  if 9 ≤ cur.length then do
    let (length, cur) ← tryReadBe 3 cur
    let (type, cur) ← tryReadByte cur
    let (flags, cur) ← tryReadByte cur
    let (sid, cur) ← tryReadBe 4 cur
    let (payload, cur) ← tryReadBytes length cur
    pure (⟨type, flags, sid &&& 0x7FFFFFFF, payload⟩, cur)
  else none

/-- `decode_frames` with `partial_buffer_` and the new bytes: the frames, and the new `partial_buffer_`. -/
def decodeFrames (partialBuffer data : Bytes) : List RawFrame × Bytes :=
  drain readFrame (if partialBuffer ≠ [] then partialBuffer ++ data else data)

/-- Successive calls of `decode_frames`. -/
def decodeChunks (partialBuffer : Bytes) : List Bytes → List RawFrame × Bytes
  | [] => ([], partialBuffer)
  | c :: cs =>
      let r := decodeFrames partialBuffer c
      let r' := decodeChunks r.2 cs
      (r.1 ++ r'.1, r'.2)

/-- `w` is a frame of the stream with the type, flags, stream identifier and payload `f`. -/
def RawFrame.IsWire (f : RawFrame) (w : Bytes) : Prop :=
  w.length = 9 + f.payload.length ∧ readBe (w.take 3) = f.payload.length ∧ w[3]? = some f.type ∧ w[4]? = some f.flags ∧
    readBe ((w.drop 5).take 4) &&& 0x7FFFFFFF = f.streamId ∧ w.drop 9 = f.payload

/-! ### The framer is an incremental parser -/

section

variable {cur rest more : Bytes} {f : RawFrame} {n : ℕ}

theorem tryReadBytes_eq_some_iff {b : Bytes} :
    tryReadBytes n cur = some (b, rest) ↔ b.length = n ∧ cur = b ++ rest := by
  unfold tryReadBytes
  constructor
  · intro h
    split at h
    · cases h
    · simp only [Option.some.injEq, Prod.mk.injEq] at h
      obtain ⟨rfl, rfl⟩ := h
      exact ⟨by rw [List.length_take]; omega, (List.take_append_drop n cur).symm⟩
  · rintro ⟨rfl, rfl⟩
    rw [if_neg (by simp), List.take_left, List.drop_left]

theorem tryReadBe_eq_some_iff {v : ℕ} :
    tryReadBe n cur = some (v, rest) ↔ ∃ b : Bytes, b.length = n ∧ readBe b = v ∧ cur = b ++ rest := by
  simp only [tryReadBe, Option.map_eq_some_iff, Prod.exists, tryReadBytes_eq_some_iff, Prod.mk.injEq]
  constructor
  · rintro ⟨b, r, ⟨h1, h2⟩, h3, rfl⟩
    exact ⟨b, h1, h3, h2⟩
  · rintro ⟨b, h1, h2, h3⟩
    exact ⟨b, rest, ⟨h1, h3⟩, h2, rfl⟩

theorem tryReadByte_eq_some_iff {b : UInt8} : tryReadByte cur = some (b, rest) ↔ cur = b :: rest := by
  cases cur <;> simp [tryReadByte]

/-- A complete frame is a header, the payload and the bytes after it. -/
theorem readFrame_eq_some_iff : readFrame cur = some (f, rest) ↔
    ∃ l s : Bytes, l.length = 3 ∧ s.length = 4 ∧ readBe l = f.payload.length ∧ readBe s &&& 0x7FFFFFFF = f.streamId ∧
      cur = l ++ f.type :: f.flags :: (s ++ (f.payload ++ rest)) := by
  unfold readFrame
  constructor
  · intro h
    split at h
    · simp only [Option.bind_eq_bind, Option.bind_eq_some_iff, Prod.exists, tryReadBe_eq_some_iff,
        tryReadByte_eq_some_iff, tryReadBytes_eq_some_iff, Option.pure_def, Option.some.injEq, Prod.mk.injEq] at h
      obtain ⟨_, _, ⟨l, hl, rfl, rfl⟩, t, _, rfl, g, _, rfl, _, _, ⟨s, hs, rfl, rfl⟩, p, _, ⟨hp, rfl⟩, rfl, rfl⟩ := h
      exact ⟨l, s, hl, hs, hp.symm, rfl, rfl⟩
    · cases h
  · rintro ⟨l, s, hl, hs, he, hid, rfl⟩
    rw [if_pos (by simp; omega)]
    simp only [Option.bind_eq_bind, Option.bind_eq_some_iff, Prod.exists, tryReadBe_eq_some_iff,
      tryReadByte_eq_some_iff, tryReadBytes_eq_some_iff, Option.pure_def, Option.some.injEq, Prod.mk.injEq]
    exact ⟨_, _, ⟨l, hl, rfl, rfl⟩, f.type, _, rfl, f.flags, _, rfl, _, _, ⟨s, hs, rfl, rfl⟩, f.payload, rest,
      ⟨he.symm, rfl⟩, by rw [hid], rfl⟩

theorem readFrame_steady : Steady readFrame where
  shrinks h := by
    obtain ⟨l, s, hl, _, _, _, rfl⟩ := readFrame_eq_some_iff.1 h
    simp
    omega
  append more h := by
    obtain ⟨l, s, hl, hs, he, hid, rfl⟩ := readFrame_eq_some_iff.1 h
    exact readFrame_eq_some_iff.2 ⟨l, s, hl, hs, he, hid, by simp⟩

theorem readFrame_nil : readFrame [] = none := rfl

theorem readFrame_isWire (h : readFrame cur = some (f, rest)) : ∃ w, f.IsWire w ∧ cur = w ++ rest := by
  obtain ⟨l, s, hl, hs, he, hid, rfl⟩ := readFrame_eq_some_iff.1 h
  obtain ⟨b0, b1, b2, rfl⟩ := List.length_eq_three.mp hl
  obtain ⟨s0, s1, s2, s3, rfl⟩ : ∃ s0 s1 s2 s3, s = [s0, s1, s2, s3] := by
    match s, hs with
    | [s0, s1, s2, s3], _ => exact ⟨s0, s1, s2, s3, rfl⟩
  refine ⟨[b0, b1, b2] ++ f.type :: f.flags :: ([s0, s1, s2, s3] ++ f.payload), ?_, by simp⟩
  simp only [RawFrame.IsWire, List.cons_append, List.nil_append, List.length_cons, List.take_succ_cons, List.take_zero,
    List.drop_succ_cons, List.drop_zero, he, hid, List.getElem?_cons_succ, List.getElem?_cons_zero, and_self, and_true]
  omega

theorem decodeFrames_eq (partialBuffer data : Bytes) :
    decodeFrames partialBuffer data = drain readFrame (partialBuffer ++ data) := by
  unfold decodeFrames
  split
  · rfl
  · rename_i h
    rw [not_not.mp h, List.nil_append]

theorem decodeChunks_eq (partialBuffer : Bytes) (cs : List Bytes) :
    decodeChunks partialBuffer cs = feed readFrame partialBuffer cs := by
  induction cs generalizing partialBuffer with
  | nil => rfl
  | cons c cs ih => rw [decodeChunks, feed, decodeFrames_eq, ih]

end

/-- **The frames do not depend on the pieces**, and after every call the buffer holds the bytes after
the last complete frame. -/
theorem decode_chunks (cs : List Bytes) :
    decodeChunks [] cs = decodeFrames [] cs.flatten ∧
      (∃ ws, List.Forall₂ RawFrame.IsWire (decodeChunks [] cs).1 ws ∧ cs.flatten = ws.flatten ++ (decodeChunks [] cs).2) ∧
      readFrame (decodeChunks [] cs).2 = none := by
  have e : decodeChunks [] cs = drain readFrame cs.flatten := by
    rw [decodeChunks_eq, feed_chunks readFrame_steady readFrame_nil]
  refine ⟨by rw [e, decodeFrames_eq, List.nil_append], ?_, ?_⟩
  · rw [e]
    exact drain_write readFrame_steady RawFrame.IsWire readFrame_isWire _
  · rw [e]
    exact parse_drain readFrame_steady _

end NeForce.Http2
