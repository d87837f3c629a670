import Mathlib.Data.List.Forall2
import NeForce.Websocket

/-! # Sending WebSocket messages

`websocket_session::send` with permessage-deflate.  `send` compresses a message before `queue_frame` decides whether there is
room for it, so the compressor has seen messages that the peer never gets.  That would be wrong for a compressor
that carries its window from message to message (`chained_lost`).  `websocket_deflate::process` does not: it ends every
message with a reset of the stream, and each message can be read alone (`run_received`).

The stream compressor and the decompression of the peer are parameters. -/

namespace NeForce.WebsocketSend

open Websocket (Opcode buildFrame)

/-! ### `send` -/

/-- A compressor of whole messages: `process`, which may throw, and `reset_context`. -/
structure Deflater (C : Type) where
  process : C → Bytes → Option Bytes × C
  resetContext : C → C

/-- A frame of `send`; FIN is set. -/
structure DataFrame where
  opcode : Opcode
  payload : Bytes
  rsv1 : Bool
deriving DecidableEq

def DataFrame.bytes (f : DataFrame) : Bytes := buildFrame f.opcode f.payload f.rsv1

structure Sender (C : Type) where
  running : Bool
  writeQueue : List DataFrame
  deflateCompressor : Option C
  serverNoContextTakeover : Bool
  /-- The frames that `queue_frame` has taken, in order. -/
  queued : List DataFrame
  /-- The messages whose `send` has returned true. -/
  accepted : List (Opcode × Bytes)
deriving DecidableEq

def maxWriteQueueSize : ℕ := 1024

section

variable {C : Type} (z : Deflater C)

/-- A session after the handshake. -/
def Sender.start (deflateCompressor : Option C) (serverNoContextTakeover : Bool) : Sender C :=
  ⟨true, [], deflateCompressor, serverNoContextTakeover, [], []⟩

/-- `queue_frame` of a data frame. -/
def Sender.queueFrame (s : Sender C) (frame : DataFrame) : Sender C × Bool :=
  if maxWriteQueueSize ≤ s.writeQueue.length then (s, false)
  else ({ s with writeQueue := s.writeQueue ++ [frame], queued := s.queued ++ [frame] }, true)

/-- `websocket_session::send`. -/
def Sender.send (s : Sender C) (data : Bytes) (opcode : Opcode) : Sender C × Bool :=
  if !s.running then (s, false)
  else
    match s.deflateCompressor with
    | some c =>
        if opcode = .text ∨ opcode = .binary then
          match z.process c data with
          | (some (b :: compressed), c) =>
              let r := { s with deflateCompressor := some c }.queueFrame ⟨opcode, b :: compressed, true⟩
              ({ r.1 with deflateCompressor := some (if s.serverNoContextTakeover then z.resetContext c else c) }, r.2)
          | (_, c) => { s with deflateCompressor := some c }.queueFrame ⟨opcode, data, false⟩
        else s.queueFrame ⟨opcode, data, false⟩
    | none => s.queueFrame ⟨opcode, data, false⟩

/-- What happens to a session: `send`, frames that leave the queue for the socket, `do_stop`. -/
inductive SendEvent where
  | send (data : Bytes) (opcode : Opcode)
  | written (frames : ℕ)
  | stop

/-- A message counts as accepted if its `send` has returned true. -/
def accept (r : Sender C × Bool) (data : Bytes) (opcode : Opcode) : Sender C :=
  if r.2 then { r.1 with accepted := r.1.accepted ++ [(opcode, data)] } else r.1

def Sender.step (s : Sender C) : SendEvent → Sender C
  | .send data opcode => accept (s.send z data opcode) data opcode
  | .written frames => { s with writeQueue := s.writeQueue.drop frames }
  | .stop => { s with running := false }

def Sender.run (s : Sender C) (events : List SendEvent) : Sender C := events.foldl (Sender.step z) s

theorem Sender.run_append (s : Sender C) (before events : List SendEvent) :
    s.run z (before ++ events) = (s.run z before).run z events := List.foldl_append

end

/-! ### `websocket_deflate` -/

/-- The trailer of an empty stored block: LEN and NLEN. -/
def trailer : Bytes := [0x00, 0x00, 0xFF, 0xFF]

/-- A stream compressor: a fresh stream, and `compress` with its flag `finish`, which may throw. -/
structure StreamCompressor (Z : Type) where
  fresh : Z
  compress : Z → Bytes → Bool → Option Bytes × Z

/-- `websocket_deflate` as a compressor. -/
structure WebsocketDeflate (Z : Type) where
  compressor : Option Z
  streamFinished : Bool

def WebsocketDeflate.init {Z : Type} : WebsocketDeflate Z := ⟨none, false⟩

section

variable {Z : Type} (zlib : StreamCompressor Z)

def WebsocketDeflate.ensureInitialized (d : WebsocketDeflate Z) : WebsocketDeflate Z :=
  { d with compressor := some (d.compressor.getD zlib.fresh) }

def WebsocketDeflate.resetContext (d : WebsocketDeflate Z) : WebsocketDeflate Z :=
  { d with compressor := d.compressor.map fun _ => zlib.fresh }

/-- An empty final block is added to a stream without one, and its trailer is left out. -/
def stripTrailer (result : Bytes) : Bytes :=
  let result := if trailer.isSuffixOf result then result else result ++ 0x01 :: trailer
  result.take (result.length - 4)

/-- `websocket_deflate::process` of a compressor. -/
def WebsocketDeflate.process (d : WebsocketDeflate Z) (data : Bytes) (isFinal : Bool) : Bytes × WebsocketDeflate Z :=
  if data.isEmpty && !isFinal then ([], d)
  else
    let d := d.ensureInitialized zlib
    let d := if d.streamFinished then { d.resetContext zlib with streamFinished := false } else d
    match zlib.compress (d.compressor.getD zlib.fresh) data isFinal with
    | (some result, stream) =>
        let d := { d with compressor := some stream }
        if isFinal then (stripTrailer result, { d.resetContext zlib with streamFinished := true }) else (result, d)
    | (none, stream) => (data, { { d with compressor := some stream }.resetContext zlib with streamFinished := false })

/-- The compressor that `set_deflate_config` gives to a session; `send` calls `process(data, true)`. -/
def websocketDeflate : Deflater (WebsocketDeflate Z) where
  process d data := ((d.process zlib data true).1, (d.process zlib data true).2)
  resetContext d := d.resetContext zlib

end

/-! ### The peer -/

/-- The decompression of the peer, with the window it has kept of the messages before. -/
structure Peer (W : Type) where
  inflate : W → Bytes → Option Bytes × W

section

variable {W : Type} (p : Peer W)

/-- The peer reads a frame: a compressed message gets its trailer back. -/
def Peer.receive (w : W) (f : DataFrame) : Option Bytes × W :=
  if f.rsv1 then p.inflate w (f.payload ++ trailer) else (some f.payload, w)

/-- The messages of some frames, read in order with one window. -/
def Peer.receiveAll (w : W) : List DataFrame → List (Opcode × Option Bytes)
  | [] => []
  | f :: fs => (f.opcode, (p.receive w f).1) :: receiveAll (p.receive w f).2 fs

/-- The peer has got what was sent; `avail_in` of a stream has 32 bits. -/
def Received (got : Opcode × Option Bytes) (sent : Opcode × Bytes) : Prop :=
  got.1 = sent.1 ∧ (sent.2.length < 2 ^ 32 → got.2 = some sent.2)

/-- What a fresh stream makes of a message is read back whatever is in the window, with or without an empty
final block behind it. -/
structure Reads {Z : Type} (zlib : StreamCompressor Z) : Prop where
  compress {data : Bytes} : data.length < 2 ^ 32 → ∃ out, (zlib.compress zlib.fresh data true).1 = some out ∧
    ∀ w, (p.inflate w out).1 = some data ∧ (p.inflate w (out ++ 0x01 :: trailer)).1 = some data

end

/-! ### Every message is read alone -/

section

variable {Z W : Type} {zlib : StreamCompressor Z} {p : Peer W}

/-- The next message finds a fresh stream. -/
def WebsocketDeflate.Ready (zlib : StreamCompressor Z) (d : WebsocketDeflate Z) : Prop :=
  d.streamFinished = true ∨ d.compressor.getD zlib.fresh = zlib.fresh

theorem WebsocketDeflate.ready_resetContext (d : WebsocketDeflate Z) : (d.resetContext zlib).Ready zlib := by
  right
  cases hc : d.compressor <;> simp [resetContext, hc]

/-- A message is compressed with a fresh stream, and leaves one behind. -/
theorem WebsocketDeflate.process_ready {d : WebsocketDeflate Z} (h : d.Ready zlib) (data : Bytes) :
    (d.process zlib data true).1 = ((zlib.compress zlib.fresh data true).1.map stripTrailer).getD data ∧
      (d.process zlib data true).2.Ready zlib := by
  have hfresh : ((if (d.ensureInitialized zlib).streamFinished then
      { (d.ensureInitialized zlib).resetContext zlib with streamFinished := false }
      else d.ensureInitialized zlib).compressor.getD zlib.fresh) = zlib.fresh := by
    cases hf : d.streamFinished with
    | true => simp [ensureInitialized, resetContext, hf]
    | false =>
        have hc := h.resolve_left (by rw [hf]; exact Bool.false_ne_true)
        simp [ensureInitialized, hf, hc]
  unfold process
  simp only [Bool.not_true, Bool.and_false, Bool.false_eq_true, if_false, if_true, hfresh]
  generalize zlib.compress zlib.fresh data true = r
  obtain ⟨_ | result, stream⟩ := r
  · exact ⟨rfl, .inr rfl⟩
  · exact ⟨rfl, .inl rfl⟩

/-- With its trailer a message is the stream of the compressor, or that stream and an empty final block. -/
theorem stripTrailer_append (result : Bytes) :
    stripTrailer result ++ trailer = result ∨ stripTrailer result ++ trailer = result ++ 0x01 :: trailer := by
  have htake (l : Bytes) : (l ++ trailer).take ((l ++ trailer).length - 4) = l := by
    rw [List.length_append, show trailer.length = 4 from rfl, Nat.add_sub_cancel, List.take_left]
  unfold stripTrailer
  by_cases h : trailer.isSuffixOf result = true
  · left
    obtain ⟨l, rfl⟩ := List.isSuffixOf_iff_suffix.mp h
    rw [if_pos h, htake]
  · right
    rw [if_neg h, show result ++ 0x01 :: trailer = (result ++ [0x01]) ++ trailer by simp, htake]

theorem receive_compressed (hp : Reads p zlib) {data : Bytes} (hlen : data.length < 2 ^ 32) (w : W) (opcode : Opcode) :
    (p.receive w ⟨opcode, ((zlib.compress zlib.fresh data true).1.map stripTrailer).getD data, true⟩).1 = some data := by
  obtain ⟨out, h1, h2⟩ := hp.compress hlen
  rw [h1, Option.map_some, Option.getD_some, Peer.receive, if_pos rfl]
  show (p.inflate w (stripTrailer out ++ trailer)).1 = some data
  rcases stripTrailer_append out with h | h
  · rw [h]
    exact (h2 w).1
  · rw [h]
    exact (h2 w).2

theorem Peer.receiveAll_append (w : W) (fs : List DataFrame) (f : DataFrame) :
    ∃ w', p.receiveAll w (fs ++ [f]) = p.receiveAll w fs ++ [(f.opcode, (p.receive w' f).1)] := by
  induction fs generalizing w with
  | nil => exact ⟨w, rfl⟩
  | cons g fs ih =>
      obtain ⟨w', h⟩ := ih (p.receive w g).2
      exact ⟨w', congrArg _ h⟩

/-! ### Runs -/

/-- The next message finds a fresh stream, and so far the peer has got the accepted messages. -/
structure Sender.Sound (zlib : StreamCompressor Z) (p : Peer W) (w : W) (s : Sender (WebsocketDeflate Z)) : Prop where
  ready : ∀ d ∈ s.deflateCompressor, d.Ready zlib
  received : List.Forall₂ Received (p.receiveAll w s.queued) s.accepted

/-- `queue_frame` of a frame that the peer reads as `data`. -/
theorem Sender.Sound.queueFrame {w : W} {s : Sender (WebsocketDeflate Z)} (h : s.Sound zlib p w) {f : DataFrame}
    {data : Bytes} (hf : data.length < 2 ^ 32 → ∀ w, (p.receive w f).1 = some data) :
    (accept (s.queueFrame f) data f.opcode).Sound zlib p w := by
  unfold Sender.queueFrame
  split
  · exact h
  · refine ⟨h.ready, ?_⟩
    obtain ⟨w', hw⟩ := Peer.receiveAll_append (p := p) w s.queued f
    show List.Forall₂ Received (p.receiveAll w (s.queued ++ [f])) (s.accepted ++ [(f.opcode, data)])
    rw [hw]
    exact List.rel_append h.received (.cons ⟨rfl, fun hlen => hf hlen w'⟩ .nil)

theorem accept_compressor {C : Type} (r : Sender C × Bool) (c : Option C) (data : Bytes) (opcode : Opcode) :
    accept ({ r.1 with deflateCompressor := c }, r.2) data opcode = { accept r data opcode with deflateCompressor := c } := by
  unfold accept
  split <;> rfl

theorem Sender.Sound.send {w : W} {s : Sender (WebsocketDeflate Z)} (hp : Reads p zlib) (h : s.Sound zlib p w)
    (data : Bytes) (opcode : Opcode) : (accept (s.send (websocketDeflate zlib) data opcode) data opcode).Sound zlib p w := by
  have hplain (t : Sender (WebsocketDeflate Z)) (ht : t.Sound zlib p w) :
      (accept (t.queueFrame ⟨opcode, data, false⟩) data opcode).Sound zlib p w :=
    ht.queueFrame (f := ⟨opcode, data, false⟩) fun _ _ => rfl
  unfold Sender.send
  split
  · exact h
  · split
    · next d hd =>
      obtain ⟨h1, h2⟩ := WebsocketDeflate.process_ready (h.ready d hd) data
      have hnext : ({ s with deflateCompressor := some (d.process zlib data true).2 }).Sound zlib p w :=
        ⟨by rintro d' ⟨⟩; exact h2, h.received⟩
      split
      · split
        · -- The frame is built from what `process` gives.
          next b compressed d' hout =>
          obtain ⟨hbytes, rfl⟩ := Prod.mk.inj hout
          have hf (hlen : data.length < 2 ^ 32) (w' : W) :
              (p.receive w' ⟨opcode, b :: compressed, true⟩).1 = some data := by
            rw [← Option.some.inj hbytes, h1]
            exact receive_compressed hp hlen w' opcode
          have hq := hnext.queueFrame hf
          rw [accept_compressor]
          refine ⟨?_, hq.received⟩
          rintro d'' ⟨⟩
          split
          · exact WebsocketDeflate.ready_resetContext _
          · exact h2
        · next hout =>
          obtain ⟨-, rfl⟩ := Prod.mk.inj hout
          exact hplain _ hnext
      · exact hplain s h
    · exact hplain s h

theorem Sender.Sound.step {w : W} {s : Sender (WebsocketDeflate Z)} (hp : Reads p zlib) (h : s.Sound zlib p w)
    (e : SendEvent) : (s.step (websocketDeflate zlib) e).Sound zlib p w := by
  cases e with
  | send data opcode => exact h.send hp data opcode
  | written | stop => exact ⟨h.ready, h.received⟩

theorem Sender.Sound.run {w : W} {s : Sender (WebsocketDeflate Z)} (hp : Reads p zlib) (h : s.Sound zlib p w)
    (events : List SendEvent) : (s.run (websocketDeflate zlib) events).Sound zlib p w := by
  induction events generalizing s with
  | nil => exact h
  | cons e events ih => exact ih (h.step hp e)

/-- **No message is damaged by the ones that were dropped.**  Whatever calls of `send` have returned false, the peer
gets the messages of the others, in order. -/
theorem run_received (hp : Reads p zlib) (noContextTakeover : Bool) (events : List SendEvent) (w : W) :
    List.Forall₂ Received
      (p.receiveAll w ((Sender.start (some .init) noContextTakeover).run (websocketDeflate zlib) events).queued)
      ((Sender.start (some .init) noContextTakeover).run (websocketDeflate zlib) events).accepted :=
  have hstart : (Sender.start (some .init) noContextTakeover).Sound zlib p w :=
    ⟨by rintro d ⟨⟩; exact .inr rfl, .nil⟩
  (hstart.run hp events).received

end

/-! ### Stored blocks -/

/-- A deflate stream of stored blocks with one byte each; an empty message is the empty block with fixed codes. -/
def storedBlocks (data : Bytes) : Bytes := data.flatMap (fun b => [0x00, 0x01, 0x00, 0xFE, 0xFF, b]) ++ [0x03, 0x00]

def inflateBlocks : Bytes → Option Bytes
  | 0x03 :: 0x00 :: _ => some []
  | 0x00 :: 0x01 :: 0x00 :: 0xFE :: 0xFF :: b :: rest => (inflateBlocks rest).map (b :: ·)
  | _ => none

theorem inflateBlocks_storedBlocks (data more : Bytes) : inflateBlocks (storedBlocks data ++ more) = some data := by
  induction data with
  | nil => rfl
  | cons b data ih =>
      show (inflateBlocks (storedBlocks data ++ more)).map (b :: ·) = _
      rw [ih]
      rfl

def storing : StreamCompressor Unit := ⟨(), fun _ data _ => (some (storedBlocks data), ())⟩

def reading : Peer Unit := ⟨fun _ bs => (inflateBlocks bs, ())⟩

theorem reading_storing : Reads reading storing where
  compress {data} _ := ⟨_, rfl, fun _ =>
    ⟨by rw [show (reading.inflate _ _).1 = inflateBlocks (storedBlocks data) from rfl, ← inflateBlocks_storedBlocks data [],
      List.append_nil], inflateBlocks_storedBlocks data _⟩⟩

/-- Two messages, stored. -/
theorem run_received_storing :
    List.Forall₂ Received
      (reading.receiveAll () ((Sender.start (some .init) false).run (websocketDeflate storing)
        [.send [0x61] .text, .send [0x62] .text]).queued)
      ((Sender.start (some .init) false).run (websocketDeflate storing)
        [.send [0x61] .text, .send [0x62] .text]).accepted :=
  run_received reading_storing false [.send [0x61] .text, .send [0x62] .text] ()

/-! ### A compressor that carries its window over -/

/-- The output for a message depends on the bytes of all messages before. -/
def chained : Deflater UInt8 where
  process key data := (some (0x00 :: data.map (key + ·)), data.foldl (· + ·) key)
  resetContext _ := 0

/-- A peer with the same chain. -/
def chainedPeer : Peer UInt8 where
  inflate key bs :=
    let data := (bs.take (bs.length - 4)).tail.map (· - key)
    (some data, data.foldl (· + ·) key)

/-- As many empty messages as the queue takes. -/
theorem run_fill {n : ℕ} (hn : n ≤ maxWriteQueueSize) :
    (Sender.start (some 0) false).run chained (List.replicate n (.send [] .text)) =
      ⟨true, List.replicate n ⟨.text, [0x00], true⟩, some 0, false, List.replicate n ⟨.text, [0x00], true⟩,
        List.replicate n (.text, [])⟩ := by
  induction n with
  | zero => rfl
  | succ n ih =>
      have hroom : ¬ maxWriteQueueSize ≤ n := by omega
      rw [List.replicate_succ', Sender.run_append, ih (by omega), List.replicate_succ', List.replicate_succ']
      simp [Sender.run, Sender.step, Sender.send, chained, Sender.queueFrame, accept, hroom]

theorem chainedPeer_fill (n : ℕ) (fs : List DataFrame) :
    chainedPeer.receiveAll 0 (List.replicate n ⟨.text, [0x00], true⟩ ++ fs) =
      List.replicate n (.text, some []) ++ chainedPeer.receiveAll 0 fs := by
  induction n with
  | zero => rfl
  | succ n ih =>
      rw [List.replicate_succ, List.replicate_succ, List.cons_append, List.cons_append, ← ih]
      rfl

/-- The queue is filled and one message is dropped; then the queue is written, and one more message is sent. -/
def afterDrop : List SendEvent :=
  List.replicate maxWriteQueueSize (.send [] .text) ++
    [.send [0x01] .text, .written maxWriteQueueSize, .send [0x41] .text]

/-- The last message of `afterDrop` is accepted, and the peer gets another one. -/
theorem chained_lost :
    ¬ List.Forall₂ Received
      (chainedPeer.receiveAll 0 ((Sender.start (some 0) false).run chained afterDrop).queued)
      ((Sender.start (some 0) false).run chained afterDrop).accepted := by
  have hrun : (Sender.start (some 0) false).run chained afterDrop =
      ⟨true, [⟨.text, [0x00, 0x42], true⟩], some 0x42, false,
        List.replicate maxWriteQueueSize ⟨.text, [0x00], true⟩ ++ [⟨.text, [0x00, 0x42], true⟩],
        List.replicate maxWriteQueueSize (.text, []) ++ [(.text, [0x41])]⟩ := by
    have hpos : maxWriteQueueSize ≠ 0 := by decide
    rw [afterDrop, Sender.run_append, run_fill le_rfl]
    simp [Sender.run, Sender.step, Sender.send, chained, Sender.queueFrame, accept, hpos]
  rw [hrun, chainedPeer_fill]
  intro h
  have hlast := List.forall₂_drop_append _ _ _ h
  rw [List.drop_left' (by rw [List.length_replicate, List.length_replicate])] at hlast
  cases hlast with
  | cons h _ => exact absurd (h.2 (by decide)) (by decide)

end NeForce.WebsocketSend
