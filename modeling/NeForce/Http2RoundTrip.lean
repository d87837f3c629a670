import NeForce.Http2Trace

/-! # Frames from the framer to the connection

A DATA or HEADERS frame that the framer encodes, cut out of the stream again and handed to a connection.  The
receiving side takes the whole payload for body bytes or for a piece of a header block: it does not look at PADDED and
PRIORITY, so that exactly the frames without padding and priority arrive intact (`survives_iff`). -/

namespace NeForce.Http2

open Hpack Incremental

/-! ### The wire -/

section

variable {type : FrameType} {flags : UInt8} {id : ℕ} {payload : Bytes} {raw : RawFrame}

/-- An identifier on the wire. -/
def wireId (id : ℕ) : ℕ := id &&& 0x7FFFFFFF

theorem readBe_streamIdBytes (id : ℕ) : readBe (streamIdBytes id) &&& 0x7FFFFFFF = wireId id := by
  have h31 : ∀ n : ℕ, n &&& 0x7FFFFFFF = n % 2 ^ 31 := fun n => Nat.and_two_pow_sub_one_eq_mod n 31
  have h7 : (id >>> 24) &&& 0x7F = id >>> 24 % 2 ^ 7 := Nat.and_two_pow_sub_one_eq_mod _ 7
  rw [wireId, h31, h31, readBe, streamIdBytes, List.foldl_cons, foldl_writeBe, h7, shift_or_byte, UInt8.toNat_ofNat',
    Nat.shiftRight_eq_div_pow]
  omega

theorem length_streamIdBytes (id : ℕ) : (streamIdBytes id).length = 4 := by simp [streamIdBytes]

theorem length_buildFrameHeader (n : ℕ) : (buildFrameHeader type flags id n).length = 9 := by
  simp [buildFrameHeader, length_streamIdBytes]

theorem readFrame_wire (hlt : payload.length < 256 ^ 3) :
    readFrame (buildFrameHeader type flags id payload.length ++ payload) =
      some (⟨type.code, flags, wireId id, payload⟩, []) := by
  rw [readFrame_eq_some_iff]
  refine ⟨writeBe 3 payload.length, streamIdBytes id, length_writeBe 3 _, length_streamIdBytes id, ?_,
    readBe_streamIdBytes id, by simp [buildFrameHeader]⟩
  rw [readBe_writeBe, Nat.mod_eq_of_lt hlt]

/-- A frame is cut out of the stream exactly if the length of its payload fits its three bytes. -/
theorem decodeFrames_eq_singleton :
    decodeFrames [] (buildFrameHeader type flags id payload.length ++ payload) = ([raw], []) ↔
      payload.length < 256 ^ 3 ∧ raw = ⟨type.code, flags, wireId id, payload⟩ := by
  rw [decodeFrames_eq, List.nil_append]
  constructor
  · intro h
    have hw := drain_write readFrame_steady RawFrame.IsWire readFrame_isWire
      (buildFrameHeader type flags id payload.length ++ payload)
    rw [h] at hw
    obtain ⟨ws, hall, hflat⟩ := hw
    obtain ⟨w, ws', hraw, hnil, rfl⟩ := List.forall₂_cons_left_iff.mp hall
    obtain rfl := List.forall₂_nil_left_iff.mp hnil
    rw [List.flatten_singleton, List.append_nil] at hflat
    obtain ⟨hlen, hbe, _⟩ := hraw
    rw [← hflat, List.length_append, length_buildFrameHeader] at hlen
    rw [← hflat, buildFrameHeader, List.append_assoc, List.append_assoc, List.take_left' (length_writeBe 3 _),
      readBe_writeBe] at hbe
    have hmod := Nat.mod_lt payload.length (show 0 < 256 ^ 3 by decide)
    have hlt : payload.length < 256 ^ 3 := by omega
    rw [drain_some readFrame_steady (readFrame_wire hlt)] at h
    exact ⟨hlt, ((List.cons.inj (Prod.mk.inj h).1).1).symm⟩
  · rintro ⟨hlt, rfl⟩
    rw [drain_some readFrame_steady (readFrame_wire hlt), drain_none readFrame_nil]

end

/-! ### Payloads -/

section

variable {pad : UInt8} {data : Bytes}

theorem length_padded (pad : UInt8) (data : Bytes) : (padded pad data).length = paddedLen pad data.length := by
  unfold padded paddedLen
  split
  · simp
    omega
  · rfl

theorem padded_eq_iff {block : Bytes} (h : block.length ≤ data.length) :
    padded pad data = block ↔ pad = 0 ∧ data = block := by
  unfold padded
  split
  · rename_i hpos
    constructor
    · intro he
      have hlen := congrArg List.length he
      simp at hlen
      omega
    · rintro ⟨rfl, _⟩
      exact absurd hpos (by decide)
  · rename_i hz
    have h0 : pad = 0 := UInt8.toNat_inj.mp (Nat.eq_zero_of_not_pos hz)
    exact ⟨fun he => ⟨h0, he⟩, fun he => he.2⟩

theorem length_priorityBytes (f : HeadersFrame) : (priorityBytes f).length = if f.hasPriority then 5 else 0 := by
  unfold priorityBytes
  split <;> simp [length_streamIdBytes]

end

/-- The payload of a DATA or HEADERS frame on the wire. -/
def Frame.wirePayload : Frame → Bytes
  | .data f => padded f.padLength f.data
  | .headers f => padded f.padLength (priorityBytes f ++ f.headerBlock)
  | _ => []

theorem encode_data (f : DataFrame) : encodeDataFrame f =
    buildFrameHeader .data (flagIf f.endStream flagEndStream ||| flagIf (0 < f.padLength.toNat) flagPadded) f.streamId
      (Frame.data f).wirePayload.length ++ (Frame.data f).wirePayload := by
  rw [Frame.wirePayload, length_padded]
  rfl

theorem encode_headers (f : HeadersFrame) : encodeHeadersFrame f =
    buildFrameHeader .headers (flagIf f.endStream flagEndStream ||| flagIf f.endHeaders flagEndHeaders |||
        flagIf f.hasPriority flagPriority ||| flagIf (0 < f.padLength.toNat) flagPadded) f.streamId
      (Frame.headers f).wirePayload.length ++ (Frame.headers f).wirePayload := by
  have hlen : (if f.hasPriority then f.headerBlock.length + 5 else f.headerBlock.length) =
      (priorityBytes f ++ f.headerBlock).length := by
    rw [List.length_append, length_priorityBytes]
    split <;> omega
  rw [Frame.wirePayload, length_padded, encodeHeadersFrame, hlen]

theorem hasFlag_data (e p : Bool) : hasFlag (flagIf e flagEndStream ||| flagIf p flagPadded) flagEndStream = e := by
  cases e <;> cases p <;> decide

theorem hasFlag_headers (e h r p : Bool) :
    hasFlag (flagIf e flagEndStream ||| flagIf h flagEndHeaders ||| flagIf r flagPriority ||| flagIf p flagPadded)
        flagEndStream = e ∧
      hasFlag (flagIf e flagEndStream ||| flagIf h flagEndHeaders ||| flagIf r flagPriority ||| flagIf p flagPadded)
        flagEndHeaders = h := by
  cases e <;> cases h <;> cases r <;> cases p <;> decide

/-! ### Receiving -/

/-- `data` is appended to the body of the request `ps`, which is handled if the stream ends. -/
structure DataArrives (c c' : Conn) (id : ℕ) (ps : PendingStream) (data : Bytes) (endStream : Bool) : Prop where
  requests : c'.output.requests =
    c.output.requests ++ if endStream then [(id, ps.headers, ps.data ++ data)] else []
  pending : endStream = false →
    c'.pending.lookup id = some { ps with data := ps.data ++ data, endStream := false }

/-- `block` is decoded if it is complete, and otherwise waits for CONTINUATION; the request is handled if the
block is complete and the stream ends. -/
structure HeadersArrive (c c' : Conn) (id : ℕ) (block : Bytes) (endStream endHeaders : Bool) : Prop where
  decoded : c'.output.decoded =
    c.output.decoded ++ if endHeaders then [(id, block, (c.decoder.decode block).1)] else []
  requests : c'.output.requests =
    c.output.requests ++ if endHeaders && endStream then [(id, (c.decoder.decode block).1, [])] else []
  pending : (endHeaders && endStream) = false → ∃ ps, c'.pending.lookup id = some ps ∧ ps.endStream = endStream ∧
    ps.waitingContinuation = !endHeaders ∧ ps.headerBlockFragment = (if endHeaders then [] else block) ∧
    (endHeaders = true → ps.headers = (c.decoder.decode block).1)

section

variable {c c' : Conn} {id : ℕ} {ps : PendingStream} {data data' : Bytes} {endStream endHeaders : Bool}

theorem DataArrives.unique (h : DataArrives c c' id ps data endStream) (h' : DataArrives c c' id ps data' endStream) :
    data = data' := by
  cases endStream with
  | false =>
      have he := (h.pending rfl).symm.trans (h'.pending rfl)
      simpa using he
  | true =>
      have he := h.requests.symm.trans h'.requests
      simpa using he

theorem HeadersArrive.unique (h : HeadersArrive c c' id data endStream endHeaders)
    (h' : HeadersArrive c c' id data' endStream endHeaders) : data = data' := by
  cases endHeaders with
  | true =>
      have he := h.decoded.symm.trans h'.decoded
      simp only [if_true, List.append_cancel_left_eq, List.cons.injEq, Prod.mk.injEq, true_and, and_true] at he
      exact he.1
  | false =>
      obtain ⟨p, hp, _, _, hf, _⟩ := h.pending rfl
      obtain ⟨p', hp', _, _, hf', _⟩ := h'.pending rfl
      obtain rfl := Option.some.inj (hp.symm.trans hp')
      exact hf.symm.trans hf'

end

namespace Conn

variable {c : Conn} {id : ℕ} {ps : PendingStream} {flags : UInt8} {payload : Bytes} {calls : List Call}

theorem handleDataFrame_arrives (calls : List Call) (flags : UInt8) (payload : Bytes)
    (hp : c.pending.lookup id = some ps) :
    DataArrives c (c.handleDataFrame calls flags id payload) id ps payload (hasFlag flags flagEndStream) := by
  have hcredit := (c.receiveCredit_logs id payload.length).view fun _ => Effect.OfCredit.request
  rw [handleDataFrame, hp]
  simp only
  cases he : hasFlag flags flagEndStream with
  | false =>
      refine ⟨?_, fun _ => ?_⟩
      · rw [if_neg (by simp), if_neg (by simp), List.append_nil]
        exact hcredit
      · rw [if_neg (by simp)]
        exact Finmap.lookup_insert _
  | true =>
      refine ⟨?_, by simp⟩
      rw [if_pos rfl, if_pos rfl]
      have hreq := (handleRequest_spec ({ c.receiveCredit id payload.length with
        pending := (c.receiveCredit id payload.length).pending.insert id
          { ps with data := ps.data ++ payload, endStream := true } }.updateStream id (·.onReceiveData true))
        calls id ps.headers (ps.data ++ payload)).2.view fun _ => Effect.OfCall.request
      rw [Output.view_emit] at hreq
      exact hreq.trans (congrArg (· ++ _) hcredit)

/-- A stream that is open, or may be opened. -/
def Admits (c : Conn) (id : ℕ) : Prop :=
  c.streams.lookup id ≠ none ∨ c.streams.keys.card < c.localSettings.maxConcurrentStreams

instance (c : Conn) (id : ℕ) : Decidable (c.Admits id) := by
  unfold Admits
  infer_instance

theorem Admits.not_refused (ha : c.Admits id) :
    ¬(c.streams.lookup id = none ∧ c.localSettings.maxConcurrentStreams ≤ c.streams.keys.card) := by
  rintro ⟨hnone, hfull⟩
  rcases ha with h | h
  · exact h hnone
  · omega

theorem handleHeadersFrame_arrives (calls : List Call) (flags : UInt8) (payload : Bytes) (ha : c.Admits id)
    (hp : ∀ ps, c.pending.lookup id = some ps → ps.headerBlockFragment = []) :
    HeadersArrive c (c.handleHeadersFrame calls flags id payload) id payload (hasFlag flags flagEndStream)
      (hasFlag flags flagEndHeaders) := by
  have hfrag : ((c.pending.lookup id).getD {}).headerBlockFragment = [] := by
    cases h : c.pending.lookup id with
    | none => rfl
    | some ps => exact hp ps h
  rw [handleHeadersFrame, if_neg ha.not_refused]
  have hpend : (c.openStream id (hasFlag flags flagEndStream)).pending = c.pending := rfl
  simp only [hpend, hfrag, List.nil_append]
  cases hh : hasFlag flags flagEndHeaders with
  | false =>
      refine ⟨?_, ?_, fun _ => ⟨_, Finmap.lookup_insert _, rfl, rfl, rfl, by simp⟩⟩
      · exact (List.append_nil _).symm
      · exact (List.append_nil _).symm
  | true =>
      rw [if_pos rfl]
      cases he : hasFlag flags flagEndStream with
      | false =>
          rw [if_neg (by simp)]
          refine ⟨?_, ?_, fun _ => ⟨_, Finmap.lookup_insert _, rfl, rfl, rfl, fun _ => rfl⟩⟩
          · exact Output.view_emit _
          · exact Output.view_emit _
      | true =>
          rw [if_pos rfl]
          obtain ⟨_, hreq⟩ := handleRequest_spec (((c.openStream id true).decodeBlock id
            { (c.pending.lookup id).getD {} with headerBlockFragment := payload, endStream := true }).updateStream id
              fun s => s) calls id (c.decoder.decode payload).1 []
          refine ⟨(hreq.view fun _ => Effect.OfCall.decode).trans ?_, (hreq.view fun _ => Effect.OfCall.request).trans ?_, by simp⟩
          · rw [Output.view_emit]
            exact (List.append_nil _).trans (Output.view_emit _)
          · rw [Output.view_emit]
            exact congrArg (· ++ _) ((Output.view_emit _).trans (List.append_nil _))

end Conn

/-! ### A frame sent and received -/

/-- A connection can take a frame: its stream is not ignored and expects DATA, or may send HEADERS, and there is no
unfinished header block. -/
def Conn.Expects (c : Conn) : Frame → Prop
  | .data f => ¬c.Ignores (wireId f.streamId) ∧ c.pending.lookup (wireId f.streamId) ≠ none
  | .headers f => ¬c.Ignores (wireId f.streamId) ∧ c.Admits (wireId f.streamId) ∧
      ∀ ps, c.pending.lookup (wireId f.streamId) = some ps → ps.headerBlockFragment = []
  | _ => False

/-- The body bytes or the header block of a frame arrive, with the meaning of its END_STREAM and END_HEADERS. -/
def Arrives (c c' : Conn) : Frame → Prop
  | .data f => ∃ ps, c.pending.lookup (wireId f.streamId) = some ps ∧
      DataArrives c c' (wireId f.streamId) ps f.data f.endStream
  | .headers f => HeadersArrive c c' (wireId f.streamId) f.headerBlock f.endStream f.endHeaders
  | _ => False

/-- A frame is encoded, decoded again and arrives. -/
def Survives (c : Conn) (calls : List Call) (f : Frame) : Prop :=
  ∃ raw, decodeFrames [] f.encode = ([raw], []) ∧ Arrives c (c.handleFrame calls raw) f

/-- No padding, no priority, and a length of three bytes. -/
def Frame.Plain : Frame → Prop
  | .data f => f.padLength = 0 ∧ f.data.length < 256 ^ 3
  | .headers f => f.padLength = 0 ∧ f.hasPriority = false ∧ f.headerBlock.length < 256 ^ 3
  | _ => False

section

variable {c : Conn} {calls : List Call} {f : Frame}

/-- **Exactly the plain frames survive.** -/
theorem survives_iff (h : c.Expects f) : Survives c calls f ↔ f.Plain := by
  have key : ∀ (type : FrameType) (flags : UInt8) (id : ℕ) (P : RawFrame → Prop),
      f.encode = buildFrameHeader type flags id f.wirePayload.length ++ f.wirePayload →
      ((∃ raw, decodeFrames [] f.encode = ([raw], []) ∧ P raw) ↔
        f.wirePayload.length < 256 ^ 3 ∧ P ⟨type.code, flags, wireId id, f.wirePayload⟩) := by
    intro type flags id P he
    simp only [he, decodeFrames_eq_singleton, and_assoc]
    exact ⟨fun ⟨raw, hlt, hraw, hP⟩ => ⟨hlt, hraw ▸ hP⟩, fun ⟨hlt, hP⟩ => ⟨_, hlt, rfl, hP⟩⟩
  cases f with
  | data f =>
      obtain ⟨hi, hp⟩ := h
      obtain ⟨ps, hps⟩ := Option.ne_none_iff_exists'.mp hp
      have harr := Conn.handleDataFrame_arrives calls
        (flagIf f.endStream flagEndStream ||| flagIf (0 < f.padLength.toNat) flagPadded) (Frame.data f).wirePayload hps
      rw [hasFlag_data] at harr
      rw [Survives, key _ _ _ _ (encode_data f)]
      simp only [Conn.handleFrame, if_neg hi, FrameType.ofCode_code, Arrives, hps]
      constructor
      · rintro ⟨hlt, ps', hps', h⟩
        obtain rfl := Option.some.inj hps'
        have heq : padded f.padLength f.data = f.data := harr.unique h
        refine ⟨((padded_eq_iff le_rfl).mp heq).1, ?_⟩
        rwa [Frame.wirePayload, heq] at hlt
      · rintro ⟨hpad, hlt⟩
        have heq : (Frame.data f).wirePayload = f.data := (padded_eq_iff le_rfl).mpr ⟨hpad, rfl⟩
        rw [heq] at harr ⊢
        exact ⟨hlt, ps, rfl, harr⟩
  | headers f =>
      obtain ⟨hi, ha, hp⟩ := h
      have harr := Conn.handleHeadersFrame_arrives calls
        (flagIf f.endStream flagEndStream ||| flagIf f.endHeaders flagEndHeaders |||
          flagIf f.hasPriority flagPriority ||| flagIf (0 < f.padLength.toNat) flagPadded)
        (Frame.headers f).wirePayload ha hp
      obtain ⟨hs, hh⟩ := hasFlag_headers f.endStream f.endHeaders f.hasPriority (0 < f.padLength.toNat)
      rw [hs, hh] at harr
      rw [Survives, key _ _ _ _ (encode_headers f)]
      simp only [Conn.handleFrame, if_neg hi, FrameType.ofCode_code, Arrives]
      have hle : f.headerBlock.length ≤ (priorityBytes f ++ f.headerBlock).length := by simp
      constructor
      · rintro ⟨hlt, h⟩
        have heq : padded f.padLength (priorityBytes f ++ f.headerBlock) = f.headerBlock := harr.unique h
        obtain ⟨hpad, hprio⟩ := (padded_eq_iff hle).mp heq
        rw [Frame.wirePayload, heq] at hlt
        refine ⟨hpad, ?_, hlt⟩
        have hlen := congrArg List.length hprio
        rw [List.length_append, length_priorityBytes] at hlen
        cases hf : f.hasPriority with
        | false => rfl
        | true =>
            rw [hf, if_pos rfl] at hlen
            omega
      · rintro ⟨hpad, hprio, hlt⟩
        have heq : (Frame.headers f).wirePayload = f.headerBlock :=
          (padded_eq_iff hle).mpr ⟨hpad, by rw [priorityBytes, if_neg (by simp [hprio]), List.nil_append]⟩
        rw [heq] at harr ⊢
        exact ⟨hlt, harr⟩
  | _ => exact h.elim

theorem Conn.ready_expects {f : HeadersFrame} (hid : wireId f.streamId = 1) : (Conn.ready {}).Expects (.headers f) := by
  have hnone : (Conn.ready {}).pending.lookup 1 = none := by decide
  rw [Expects, hid]
  exact ⟨by decide, Or.inr (by decide), fun ps hps => by simp [hnone] at hps⟩

/-- HEADERS with a header block of one byte. -/
theorem survives_sample : Survives (.ready {}) []
    (.headers { streamId := 1, headerBlock := [0x82], endStream := true, endHeaders := true }) :=
  (survives_iff (Conn.ready_expects rfl)).mpr ⟨rfl, rfl, by decide⟩

/-- One byte of padding becomes a part of the header block. -/
theorem padded_not_survives : ¬∀ (c : Conn) (calls : List Call) (f : Frame), c.Expects f → Survives c calls f := by
  intro h
  have hexp : (Conn.ready {}).Expects (.headers { streamId := 1, headerBlock := [0x82], padLength := 1 }) :=
    Conn.ready_expects rfl
  obtain ⟨raw, hraw, harr⟩ := h _ [] _ hexp
  have hraw' : decodeFrames [] (Frame.headers { streamId := 1, headerBlock := [0x82], padLength := 1 }).encode =
      ([⟨0x1, 0x8, 1, [1, 0x82, 0]⟩], []) := by decide
  obtain rfl : raw = ⟨0x1, 0x8, 1, [1, 0x82, 0]⟩ := by
    rw [hraw] at hraw'
    simpa using hraw'
  obtain ⟨ps, hps, _, _, hfrag, _⟩ := harr.pending rfl
  have hmap : (((Conn.ready {}).handleFrame [] ⟨0x1, 0x8, 1, [1, 0x82, 0]⟩).pending.lookup (wireId 1)).map
      (·.headerBlockFragment) = some [1, 0x82, 0] := by decide
  rw [hps, Option.map_some, hfrag] at hmap
  simp at hmap

end

end NeForce.Http2
