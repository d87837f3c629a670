import NeForce.Websocket

/-! # Reassembly of WebSocket messages

A message travels as a first frame and continuation frames, with control frames anywhere between them; RSV1
stands on the first frame of a compressed message only.  `dispatch` looks for RSV1 on every frame, and so it
treats the continuation frames of a compressed message as uncompressed ones.

`reassembled_iff` says for which messages the handler gets the message and nothing is left in the
session: all uncompressed ones, and of the compressed ones those in a single frame, and those whose first
fragment is empty and whose compressed form is the message itself. -/

namespace NeForce.Websocket

/-- What is passed to `dispatch`. -/
structure Frame where
  hdr : Header
  payload : Bytes
deriving DecidableEq

/-- Control frames have the highest bit of the opcode set. -/
def Frame.isControl (f : Frame) : Bool := 0x8 ≤ f.hdr.opcode

/-- Close, ping and pong. -/
def Frame.Known (f : Frame) : Prop := f.hdr.opcode = 0x8 ∨ f.hdr.opcode = 0x9 ∨ f.hdr.opcode = 0xA

instance (f : Frame) : Decidable f.Known := inferInstanceAs (Decidable (_ ∨ _))

/-- The continuation frames of a message. -/
def Continues : List Frame → Prop
  | [] => True
  | f :: fs => f.hdr.opcode = 0x0 ∧ f.hdr.rsv1 = false ∧ f.hdr.fin = fs.isEmpty ∧ Continues fs

/-- The data frames of one message. -/
structure IsMessage (opcode : Opcode) (compressed : Bool) (first : Frame) (rest : List Frame) : Prop where
  kind : opcode = .text ∨ opcode = .binary
  opcode_eq : first.hdr.opcode = opcode.code
  rsv1_eq : first.hdr.rsv1 = compressed
  fin_eq : first.hdr.fin = rest.isEmpty
  continues : Continues rest

/-- The payloads of the frames, joined. -/
def wire (fs : List Frame) : Bytes := fs.flatMap (·.payload)

/-- The messages for the handler. -/
def messages (log : List Effect) : List (Bytes × Opcode) :=
  log.filterMap fun
    | .message data opcode => some (data, opcode)
    | _ => none

variable {D : Type}

/-- No message is under way. -/
structure Session.Idle (s : Session D) : Prop where
  inFragment : s.inFragment = false
  fragmentBuffer : s.fragmentBuffer = []
  deflateFragmentBuffer : s.deflateFragmentBuffer = []

theorem Session.start_idle (cfg : DeflateConfig) (d : Option D) : (Session.start cfg d).Idle := ⟨rfl, rfl, rfl⟩

variable (z : Inflater D)

/-- The bytes on the wire carry the message `m`: as they are, or the decompressor gives it back. -/
def Carries (s : Session D) (compressed : Bool) (w m : Bytes) : Prop :=
  if compressed then ∃ d, s.deflateDecompressor = some d ∧ (z.process d w).1 = some m else w = m

/-- Calls of `dispatch`, one after the other. -/
def Session.dispatchAll (s : Session D) : List Frame → Session D
  | [] => s
  | f :: fs => (s.dispatch z f.hdr (.ofCode f.hdr.opcode) f.payload).1.dispatchAll fs

/-- The frames deliver exactly the message `m` and leave no message under way. -/
def Reassembles (s : Session D) (fs : List Frame) (opcode : Opcode) (m : Bytes) : Prop :=
  messages (s.dispatchAll z fs).log = messages s.log ++ [(m, opcode)] ∧ (s.dispatchAll z fs).Idle

/-! ### What a frame does to the message under way -/

/-- The part of a session that concerns messages. -/
structure Assembly (D : Type) where
  inFragment : Bool
  fragmentOpcode : Opcode
  fragmentBuffer : Bytes
  deflateFragmentBuffer : Bytes
  delivered : List (Bytes × Opcode)

def Session.assembly (s : Session D) : Assembly D :=
  ⟨s.inFragment, s.fragmentOpcode, s.fragmentBuffer, s.deflateFragmentBuffer, messages s.log⟩

@[simp] theorem messages_append (a b : List Effect) : messages (a ++ b) = messages a ++ messages b :=
  List.filterMap_append

theorem Session.doStop_assembly (s : Session D) (status : ℕ) (reason : Bytes) :
    (s.doStop status reason).assembly = s.assembly := by
  unfold Session.doStop
  split
  · rfl
  · simp [Session.assembly, messages]

/-- Control frames do not touch the message under way. -/
theorem Session.dispatch_control (s : Session D) {f : Frame} (hf : f.Known) :
    (s.dispatch z f.hdr (.ofCode f.hdr.opcode) f.payload).1.assembly = s.assembly := by
  rcases hf with h | h | h <;> rw [h]
  · show ((s.sendCloseFrame _ _).doStop _ _).assembly = _
    rw [doStop_assembly]
    simp [Session.assembly, Session.sendCloseFrame, Session.emit, messages]
  · simp [Opcode.ofCode, Session.dispatch, Session.assembly, Session.emit, messages]
  · simp [Opcode.ofCode, Session.dispatch, Session.assembly, Session.emit, messages]

/-- A continuation frame without RSV1 goes to the buffer of uncompressed messages. -/
theorem Session.dispatch_continuation {s : Session D} {f : Frame} {op : Opcode} {buf dbuf : Bytes}
    {ms : List (Bytes × Opcode)} (hs : s.assembly = ⟨true, op, buf, dbuf, ms⟩) (h0 : f.hdr.opcode = 0x0)
    (h1 : f.hdr.rsv1 = false) :
    (s.dispatch z f.hdr (.ofCode f.hdr.opcode) f.payload).1.assembly =
      if f.hdr.fin then ⟨false, op, [], dbuf, ms ++ [(buf ++ f.payload, op)]⟩
      else ⟨true, op, buf ++ f.payload, dbuf, ms⟩ := by
  simp only [Session.assembly, Assembly.mk.injEq] at hs
  obtain ⟨hin, rfl, rfl, rfl, rfl⟩ := hs
  rw [h0]
  cases hfin : f.hdr.fin
  · simp [Opcode.ofCode, Session.dispatch, Session.dispatchContinuation, hin, h1, hfin, Session.assembly]
  · simp [Opcode.ofCode, Session.dispatch, Session.dispatchContinuation, hin, h1, hfin, Session.assembly,
      Session.deliverMessage, Session.emit, messages]

/-- The first frame of a message that goes on. -/
theorem Session.dispatch_first {s : Session D} (hs : s.Idle) {f : Frame} {op : Opcode}
    (hop : op = .text ∨ op = .binary) (h0 : f.hdr.opcode = op.code) (hfin : f.hdr.fin = false) :
    (s.dispatch z f.hdr (.ofCode f.hdr.opcode) f.payload).1.assembly =
      if f.hdr.rsv1 && s.deflateDecompressor.isSome then ⟨true, op, [], f.payload, messages s.log⟩
      else ⟨true, op, f.payload, [], messages s.log⟩ := by
  obtain ⟨h1, h2, h3⟩ := hs
  rw [h0]
  cases hr : f.hdr.rsv1 <;> cases hd : s.deflateDecompressor <;> rcases hop with rfl | rfl <;>
    simp [Opcode.code, Opcode.ofCode, Session.dispatch, Session.dispatchData, h1, h2, h3, hr, hd, hfin, Session.assembly]

theorem Session.resetContext_assembly (s : Session D) : (s.resetContext z).assembly = s.assembly := by
  unfold Session.resetContext
  split <;> rfl

/-- A message in one frame is delivered at once. -/
theorem Session.dispatch_single {s : Session D} (hs : s.Idle) {f : Frame} {op : Opcode}
    (hop : op = .text ∨ op = .binary) (h0 : f.hdr.opcode = op.code) (hfin : f.hdr.fin = true) {m : Bytes}
    (hm : Carries z s f.hdr.rsv1 f.payload m) :
    (s.dispatch z f.hdr (.ofCode f.hdr.opcode) f.payload).1.assembly =
      ⟨false, s.fragmentOpcode, [], [], messages s.log ++ [(m, op)]⟩ := by
  obtain ⟨h1, h2, h3⟩ := hs
  have hop' : (s.dispatch z f.hdr (.ofCode f.hdr.opcode) f.payload).1 = s.dispatchData z f.hdr op f.payload := by
    rw [h0]
    rcases hop with rfl | rfl <;> simp [Opcode.code, Opcode.ofCode, Session.dispatch, h1]
  rw [hop']
  unfold Carries at hm
  cases hr : f.hdr.rsv1 with
  | false =>
      simp only [hr] at hm
      subst m
      simp [Session.dispatchData, hr, hfin, Session.assembly, Session.deliverMessage, Session.emit, messages, h1, h2, h3]
  | true =>
      simp only [hr] at hm
      obtain ⟨d, hd, hp⟩ := hm
      simp only [Session.dispatchData, hr, hd, hfin, hp, Bool.not_true, Bool.false_eq_true, if_false, Option.getD_some]
      rw [Session.resetContext_assembly]
      simp [Session.assembly, Session.deliverMessage, Session.emit, messages, h1, h2, h3]

/-! ### Runs of frames -/

/-- Between two data frames only control frames arrive. -/
def Interleaves (fs data : List Frame) : Prop :=
  fs.filter (!·.isControl) = data ∧ ∀ f ∈ fs, f.isControl = true → f.Known

theorem Interleaves.cases {f : Frame} {fs data : List Frame} (h : Interleaves (f :: fs) data) :
    f.Known ∧ Interleaves fs data ∨ ∃ rest, data = f :: rest ∧ Interleaves fs rest := by
  obtain ⟨hd, hk⟩ := h
  have hk' : ∀ g ∈ fs, g.isControl = true → g.Known := fun g hg => hk g (List.mem_cons_of_mem _ hg)
  cases hc : f.isControl with
  | true =>
      rw [List.filter_cons_of_neg (by simp [hc])] at hd
      exact .inl ⟨hk f List.mem_cons_self hc, hd, hk'⟩
  | false =>
      rw [List.filter_cons_of_pos (by simp [hc])] at hd
      exact .inr ⟨_, hd.symm, rfl, hk'⟩

/-- Control frames alone change nothing. -/
theorem Session.dispatchAll_controls {fs : List Frame} (s : Session D) (h : Interleaves fs []) :
    (s.dispatchAll z fs).assembly = s.assembly := by
  induction fs generalizing s with
  | nil => rfl
  | cons f fs ih =>
      rcases h.cases with ⟨hf, h⟩ | ⟨rest, hr, _⟩
      · rw [Session.dispatchAll, ih _ h, dispatch_control z s hf]
      · cases hr

/-- The continuation frames complete the message in the buffer of uncompressed messages, whatever that of
compressed messages holds. -/
theorem Session.dispatchAll_continues {fs rest : List Frame} {s : Session D} {op : Opcode} {buf dbuf : Bytes}
    {ms : List (Bytes × Opcode)} (hs : s.assembly = ⟨true, op, buf, dbuf, ms⟩) (h : Interleaves fs rest)
    (hc : Continues rest) (hne : rest ≠ []) :
    (s.dispatchAll z fs).assembly = ⟨false, op, [], dbuf, ms ++ [(buf ++ wire rest, op)]⟩ := by
  induction fs generalizing s rest buf with
  | nil => exact absurd h.1.symm hne
  | cons f fs ih =>
      unfold Session.dispatchAll
      rcases h.cases with ⟨hf, h⟩ | ⟨rest, rfl, hrest⟩
      · exact ih ((dispatch_control z s hf).trans hs) h hc hne
      · obtain ⟨h0, h1, hfin, hc⟩ := hc
        have hstep := dispatch_continuation z hs h0 h1
        cases rest with
        | nil =>
            rw [dispatchAll_controls z _ hrest, hstep, hfin]
            simp [wire]
        | cons g rest =>
            rw [hfin] at hstep
            rw [ih hstep hrest hc (List.cons_ne_nil _ _)]
            simp [wire]

theorem Session.doStop_decompressor (s : Session D) (status : ℕ) (reason : Bytes) :
    (s.doStop status reason).deflateDecompressor = s.deflateDecompressor := by
  unfold Session.doStop
  split <;> rfl

theorem Session.dispatch_control_decompressor (s : Session D) {f : Frame} (hf : f.Known) :
    (s.dispatch z f.hdr (.ofCode f.hdr.opcode) f.payload).1.deflateDecompressor = s.deflateDecompressor := by
  rcases hf with h | h | h <;> rw [h]
  · show ((s.sendCloseFrame _ _).doStop _ _).deflateDecompressor = _
    rw [doStop_decompressor]
    rfl
  · rfl
  · rfl

/-- The whole message: what the handler gets, and what is left in the session. -/
theorem Session.dispatchAll_message {fs rest : List Frame} {first : Frame} {s : Session D} (hs : s.Idle)
    {op : Opcode} {compressed : Bool} (hm : IsMessage op compressed first rest) (h : Interleaves fs (first :: rest))
    {m : Bytes} (hw : Carries z s compressed (wire (first :: rest)) m) :
    ∃ op', (s.dispatchAll z fs).assembly =
      if compressed = true ∧ rest ≠ [] then ⟨false, op', [], first.payload, messages s.log ++ [(wire rest, op)]⟩
      else ⟨false, op', [], [], messages s.log ++ [(m, op)]⟩ := by
  induction fs generalizing s with
  | nil => cases h.1
  | cons f fs ih =>
      unfold Session.dispatchAll
      rcases h.cases with ⟨hf, h⟩ | ⟨rest', hr, hrest⟩
      · have hctl := dispatch_control z s hf
        have hms : messages (s.dispatch z f.hdr (.ofCode f.hdr.opcode) f.payload).1.log = messages s.log :=
          congrArg Assembly.delivered hctl
        have hidle : (s.dispatch z f.hdr (.ofCode f.hdr.opcode) f.payload).1.Idle :=
          ⟨(congrArg Assembly.inFragment hctl).trans hs.inFragment,
            (congrArg Assembly.fragmentBuffer hctl).trans hs.fragmentBuffer,
            (congrArg Assembly.deflateFragmentBuffer hctl).trans hs.deflateFragmentBuffer⟩
        rw [← hms]
        refine ih hidle h ?_
        unfold Carries at hw ⊢
        rw [dispatch_control_decompressor z s hf]
        exact hw
      · obtain ⟨rfl, rfl⟩ := List.cons.inj hr
        obtain ⟨hop, h0, hrsv, hfin, hc⟩ := hm
        cases rest with
        | nil =>
            refine ⟨s.fragmentOpcode, ?_⟩
            have hw' : Carries z s first.hdr.rsv1 first.payload m := by
              rw [hrsv]
              simpa [wire] using hw
            rw [dispatchAll_controls z _ hrest, dispatch_single z hs hop h0 hfin hw']
            simp
        | cons g rest =>
            refine ⟨op, ?_⟩
            have hstep := dispatch_first z hs hop h0 hfin
            have hne : g :: rest ≠ [] := List.cons_ne_nil _ _
            cases compressed with
            | true =>
                obtain ⟨d, hd, -⟩ := hw
                rw [hrsv, hd] at hstep
                rw [dispatchAll_continues z hstep hrest hc hne]
                simp
            | false =>
                obtain rfl : wire (first :: g :: rest) = m := hw
                rw [hrsv] at hstep
                rw [dispatchAll_continues z hstep hrest hc hne]
                simp [wire]

/-! ### The condition -/

/-- **Reassembly.**  A message is reassembled if and only if it is uncompressed, or in one frame, or its first
fragment is empty and its compressed form is the message itself. -/
theorem reassembled_iff {fs rest : List Frame} {first : Frame} {s : Session D} (hs : s.Idle) {op : Opcode}
    {compressed : Bool} (hm : IsMessage op compressed first rest) (h : Interleaves fs (first :: rest)) {m : Bytes}
    (hw : Carries z s compressed (wire (first :: rest)) m) :
    Reassembles z s fs op m ↔
      (compressed = true → rest = [] ∨ first.payload = [] ∧ wire (first :: rest) = m) := by
  obtain ⟨op', hrun⟩ := s.dispatchAll_message z hs hm h hw
  have hms := congrArg Assembly.delivered hrun
  have hin := congrArg Assembly.inFragment hrun
  have hbuf := congrArg Assembly.fragmentBuffer hrun
  have hdbuf := congrArg Assembly.deflateFragmentBuffer hrun
  by_cases hcase : compressed = true ∧ rest ≠ []
  · obtain ⟨hc, hne⟩ := hcase
    simp only [hc, hne, ne_eq, not_false_eq_true, and_self, if_true, Session.assembly] at hms hin hbuf hdbuf
    have hwire : wire (first :: rest) = first.payload ++ wire rest := rfl
    constructor
    · rintro ⟨hdel, hidle⟩ -
      have hfirst : first.payload = [] := hdbuf.symm.trans hidle.deflateFragmentBuffer
      have hpair : (wire rest, op) = (m, op) := by
        have := hms.symm.trans hdel
        simpa using this
      rw [hwire, hfirst]
      exact .inr ⟨rfl, (Prod.mk.inj hpair).1⟩
    · intro hcond
      obtain ⟨hfirst, hm'⟩ := (hcond hc).resolve_left hne
      rw [hwire, hfirst, List.nil_append] at hm'
      exact ⟨by rw [hms, hm'], hin, hbuf, by rw [hdbuf, hfirst]⟩
  · rw [if_neg hcase] at hms hin hbuf hdbuf
    have hcond : compressed = true → rest = [] ∨ first.payload = [] ∧ wire (first :: rest) = m :=
      fun hc => .inl (by_contra fun hne => hcase ⟨hc, hne⟩)
    exact ⟨fun _ => hcond, fun _ => ⟨hms, hin, hbuf, hdbuf⟩⟩

/-! ### The message "Hello", compressed -/

/-- A decompressor that knows the raw DEFLATE block of "Hello". -/
def helloInflater : Inflater Unit where
  process _ w := (if w = [0xF2, 0x48, 0xCD, 0xC9, 0xC9, 0x07, 0x00] then some (ascii "Hello") else none, ())
  resetContext _ := ()

/-- Permessage-deflate has been negotiated. -/
def deflateSession : Session Unit := .start ⟨true, false⟩ (some ())

def helloFrame : Frame := ⟨⟨true, true, false, false, 1, false, 7⟩, [0xF2, 0x48, 0xCD, 0xC9, 0xC9, 0x07, 0x00]⟩
def helloFirst : Frame := ⟨⟨false, true, false, false, 1, false, 3⟩, [0xF2, 0x48, 0xCD]⟩
def helloLast : Frame := ⟨⟨true, false, false, false, 0, false, 4⟩, [0xC9, 0xC9, 0x07, 0x00]⟩
def pingFrame : Frame := ⟨⟨true, false, false, false, 9, false, 0⟩, []⟩

theorem reassembled_single :
    Reassembles helloInflater deflateSession [pingFrame, helloFrame] .text (ascii "Hello") := by
  have hm : IsMessage .text true helloFrame [] := ⟨.inl rfl, rfl, rfl, rfl, trivial⟩
  have hw : Carries helloInflater deflateSession true (wire [helloFrame]) (ascii "Hello") := ⟨(), rfl, by decide⟩
  exact (reassembled_iff helloInflater (Session.start_idle _ _) hm ⟨by decide, by decide⟩ hw).mpr fun _ => .inl rfl

theorem fragments_not_reassembled :
    deflateSession.Idle ∧ IsMessage .text true helloFirst [helloLast] ∧
      Interleaves [helloFirst, pingFrame, helloLast] [helloFirst, helloLast] ∧
      Carries helloInflater deflateSession true (wire [helloFirst, helloLast]) (ascii "Hello") ∧
      ¬ Reassembles helloInflater deflateSession [helloFirst, pingFrame, helloLast] .text (ascii "Hello") := by
  refine ⟨Session.start_idle _ _, ⟨.inl rfl, rfl, rfl, rfl, rfl, rfl, rfl, trivial⟩, ⟨by decide, by decide⟩,
    ⟨(), rfl, by decide⟩, fun h => ?_⟩
  have hms := h.1
  revert hms
  decide

end NeForce.Websocket
