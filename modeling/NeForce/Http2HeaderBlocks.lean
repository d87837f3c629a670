import Mathlib
import NeForce.HpackSync
import NeForce.Http2RoundTrip

/-! # The header blocks that a connection receives

A peer and the connection that gets its frames.  The peer has the table of its encoder, writes its header blocks one
after the other without other frames in between, and uses only what its table permits; `Peer.completed` are its
header blocks with the header fields that they stand for.

The connection decodes all of them, in order and with these header fields (`run_decoded`), while it accepts the frames
that carry them, they have neither padding nor priority, and no SETTINGS frame makes the table of the decoder smaller
than the table of the peer: the limit that the peer sets for the encoder is also given to the decoder
(`resized_not_decoded`). -/

namespace NeForce.Http2

open Hpack Hpack.DynamicTable
open Output (Logs)

/-! ### The peer -/

/-- A payload without the pad length and the padding. -/
def unpad (flags : UInt8) (payload : Bytes) : Option Bytes :=
  if hasFlag flags flagPadded then
    match payload with
    | [] => none
    | n :: rest => if n.toNat ≤ rest.length then some (rest.take (rest.length - n.toNat)) else none
  else some payload

/-- The piece of a header block in a HEADERS frame. -/
def headerPiece (flags : UInt8) (payload : Bytes) : Option Bytes :=
  (unpad flags payload).bind fun rest =>
    if hasFlag flags flagPriority then (tryReadBytes 5 rest).map Prod.snd else some rest

/-- The table of the peer's encoder, the header block that is not finished with its stream, and the finished ones. -/
structure Peer where
  table : DynamicTable
  openBlock : Option (ℕ × Bytes)
  completed : List (ℕ × Bytes × List HeaderField)
deriving DecidableEq

namespace Peer

/-- A new connection: the encoder has the default table size. -/
def start : Peer := ⟨.make 4096, none, []⟩

/-- The header block of a stream up to the last frame; if it ends there, it stands for what its table makes of it. -/
def advance (p : Peer) (streamId : ℕ) (block : Bytes) (endHeaders : Bool) : Option Peer :=
  if endHeaders then
    if PermitsBlock block.length p.table block then
      let r := p.table.decode block
      some ⟨r.2, none, p.completed ++ [(streamId, block, r.1)]⟩
    else none
  else some { p with openBlock := some (streamId, block) }

/-- The frames of a conforming peer: header blocks are not interleaved with other frames, and clients do not push. -/
def next (p : Peer) : Event → Option Peer
  | .frame f _ =>
      match FrameType.ofCode f.type, p.openBlock with
      | some .headers, none =>
          (headerPiece f.flags f.payload).bind fun piece =>
            p.advance f.streamId piece (hasFlag f.flags flagEndHeaders)
      | some .continuation, some (id, block) =>
          if f.streamId = id then p.advance id (block ++ f.payload) (hasFlag f.flags flagEndHeaders) else none
      | some .pushPromise, _ | some .continuation, none | _, some _ => none
      | _, none => some p
  | _ => some p

/-- The unfinished header block of a stream. -/
def fragment (p : Peer) (streamId : ℕ) : Bytes :=
  match p.openBlock with
  | some (id, block) => if id = streamId then block else []
  | none => []

end Peer

/-- The steps of a connection and its peer. -/
def LinkStep (s : Conn × Peer) (e : Event) (s' : Conn × Peer) : Prop :=
  Run.execBoth Conn.exec Peer.next s e = some s'

/-- HEADERS and CONTINUATION frames are accepted, HEADERS frames are plain, SETTINGS frames leave the decoder a table as
large as the peer's, and no stream is reset within its header block. -/
def KeepsDecoding (s : Conn × Peer) : Event → Prop
  | .frame f _ =>
      match FrameType.ofCode f.type with
      | some .headers => ¬s.1.Ignores f.streamId ∧ s.1.Admits f.streamId ∧ hasFlag f.flags flagPadded = false ∧
          hasFlag f.flags flagPriority = false
      | some .continuation => ¬s.1.Ignores f.streamId
      | some .settings => hasFlag f.flags flagAck = false → s.2.table.maxTableSize ≤
          (s.1.remoteSettings.applyRemoteSettings (Conn.settingsEntries f.payload.length f.payload)).headerTableSize
      | _ => True
  | .call (.sendRstStream id _) => s.2.openBlock.map Prod.fst ≠ some id
  | _ => True

instance (s : Conn × Peer) : (e : Event) → Decidable (KeepsDecoding s e)
  | .frame f _ => by
      dsimp only [KeepsDecoding]
      generalize FrameType.ofCode f.type = t
      exact match t with
        | some .headers => inferInstanceAs (Decidable (_ ∧ _))
        | some .continuation => inferInstanceAs (Decidable (¬_))
        | some .settings => inferInstanceAs (Decidable (_ → _))
        | none | some .data | some .priority | some .rstStream | some .pushPromise | some .ping | some .goaway | some .windowUpdate => instDecidableTrue
  | .call (.sendRstStream _ _) => inferInstanceAs (Decidable (_ ≠ _))
  | .call (.sendResponse ..) | .call (.sendHeaders ..) | .call (.sendData ..) | .call (.sendTrailers ..)
  | .call (.writeBodyFrames ..) | .call (.sendPushPromise ..) | .call (.sendGoaway _) | .call .stop
  | .readable | .readDone | .readFailed _ | .writable => instDecidableTrue

/-! ### Following the peer -/

/-- The connection has decoded what the peer has completed, and keeps what the peer has not completed. -/
structure Follows (c : Conn) (p : Peer) : Prop where
  table : p.table.Synced c.decoder
  decoded : c.output.decoded = p.completed
  fragment : ∀ {id ps}, c.pending.lookup id = some ps → ps.headerBlockFragment = p.fragment id
  waiting : ∀ {id block}, p.openBlock = some (id, block) →
    ∃ ps, c.pending.lookup id = some ps ∧ ps.waitingContinuation = true

/-- What has nothing to do with header blocks. -/
structure Leaves (c c' : Conn) : Prop where
  decoder : c'.decoder = c.decoder
  decoded : c'.output.decoded = c.output.decoded
  fragment : ∀ {id ps'}, c'.pending.lookup id = some ps' →
    ∃ ps, c.pending.lookup id = some ps ∧ ps'.headerBlockFragment = ps.headerBlockFragment

section

variable {c c' c'' : Conn} {p p' : Peer} {e : Event} {cl : Call} {calls : List Call} {flags : UInt8} {id : ℕ}
  {ps : PendingStream} {block payload : Bytes} {headers : List HeaderField} {data : Bytes} {f : RawFrame}

theorem Peer.fragment_of_none (h : p.openBlock = none) (id : ℕ) : p.fragment id = [] := by simp [fragment, h]

theorem Peer.fragment_of_some (h : p.openBlock = some (id, block)) :
    p.fragment id = block ∧ ∀ id', id' ≠ id → p.fragment id' = [] := by
  rw [show p = { p with openBlock := some (id, block) } by rw [← h]]
  exact ⟨if_pos rfl, fun id' hne => if_neg hne.symm⟩

theorem Peer.advance_eq_some {endHeaders : Bool} (h : p.advance id block endHeaders = some p') :
    (endHeaders = true ∧ PermitsBlock block.length p.table block ∧ p' = ⟨(p.table.decode block).2, none,
        p.completed ++ [(id, block, (p.table.decode block).1)]⟩) ∨
      (endHeaders = false ∧ p' = { p with openBlock := some (id, block) }) := by
  unfold advance at h
  cases endHeaders with
  | true =>
      rw [if_pos rfl, Option.ite_none_right_eq_some, Option.some.injEq] at h
      exact Or.inl ⟨rfl, h.1, h.2.symm⟩
  | false => exact Or.inr ⟨rfl, (Option.some.inj h).symm⟩

/-- What a conforming peer may send. -/
theorem Peer.next_frame (h : p.next (.frame f calls) = some p') :
    (FrameType.ofCode f.type = some .headers ∧ p.openBlock = none ∧ ∃ piece, headerPiece f.flags f.payload = some piece ∧
      p.advance f.streamId piece (hasFlag f.flags flagEndHeaders) = some p') ∨
    (FrameType.ofCode f.type = some .continuation ∧ ∃ block, p.openBlock = some (f.streamId, block) ∧
      p.advance f.streamId (block ++ f.payload) (hasFlag f.flags flagEndHeaders) = some p') ∨
    (FrameType.ofCode f.type ≠ some .headers ∧ FrameType.ofCode f.type ≠ some .continuation ∧
      FrameType.ofCode f.type ≠ some .pushPromise ∧ p.openBlock = none ∧ p' = p) := by
  rw [next] at h
  split at h
  · rename_i ht hop
    rw [Option.bind_eq_some_iff] at h
    exact Or.inl ⟨ht, hop, h⟩
  · rename_i id block ht hop
    obtain ⟨rfl, h⟩ := Option.ite_none_right_eq_some.mp h
    exact Or.inr (Or.inl ⟨ht, block, hop, h⟩)
  · cases h
  · cases h
  · cases h
  · rename_i hop h1 h2 h3
    exact Or.inr (Or.inr ⟨h1, h3, h2, hop, (Option.some.inj h).symm⟩)

theorem Leaves.refl (c : Conn) : Leaves c c := ⟨rfl, rfl, fun h => ⟨_, h, rfl⟩⟩

theorem Leaves.trans (h : Leaves c c') (h' : Leaves c' c'') : Leaves c c'' := by
  refine ⟨h'.decoder.trans h.decoder, h'.decoded.trans h.decoded, fun hl => ?_⟩
  obtain ⟨ps', hl', he'⟩ := h'.fragment hl
  obtain ⟨ps, hl, he⟩ := h.fragment hl'
  exact ⟨ps, hl, he'.trans he⟩

/-- A stream that is taken from the pending ones. -/
theorem Leaves.erase (h : Leaves c c') (hd : c''.decoder = c'.decoder) (ho : c''.output.decoded = c'.output.decoded)
    (hp : c''.pending = c'.pending.erase id) : Leaves c c'' := by
  refine h.trans ⟨hd, ho, fun {id' _} hl => ⟨_, ?_, rfl⟩⟩
  rw [hp] at hl
  by_cases hid : id' = id
  · subst hid
    rw [Finmap.lookup_erase] at hl
    cases hl
  · rwa [Finmap.lookup_erase_ne hid] at hl

/-- A pending stream that keeps its fragment. -/
theorem Leaves.insert {ps' : PendingStream} (h : Leaves c c') (hps : c'.pending.lookup id = some ps)
    (hp : c''.pending = c'.pending.insert id ps') (hf : ps'.headerBlockFragment = ps.headerBlockFragment)
    (hd : c''.decoder = c'.decoder) (ho : c''.output.decoded = c'.output.decoded) : Leaves c c'' := by
  refine h.trans ⟨hd, ho, fun {id' _} hl => ?_⟩
  rw [hp] at hl
  by_cases hid : id' = id
  · subst hid
    obtain rfl := Option.some.inj ((Finmap.lookup_insert _).symm.trans hl)
    exact ⟨ps, hps, hf⟩
  · exact ⟨_, (Finmap.lookup_insert_of_ne _ hid).symm.trans hl, rfl⟩

theorem Conn.call_leaves (c : Conn) (cl : Call) : Leaves c (c.call cl) := by
  have hd := (c.call_logs cl).view fun _ => Effect.OfCall.decode
  by_cases h : ∃ id error, cl = .sendRstStream id error
  · obtain ⟨id, error, rfl⟩ := h
    exact (Leaves.refl c).erase rfl hd rfl
  · refine ⟨(c.call_keeps cl).decoder, hd, fun {id _} hl => ⟨_, ?_, rfl⟩⟩
    rw [← hl]
    exact (call_pending fun error he => h ⟨id, error, he⟩).1.symm

theorem Conn.foldl_call_leaves (c : Conn) (calls : List Call) : Leaves c (calls.foldl call c) := by
  induction calls generalizing c with
  | nil => exact .refl c
  | cons cl calls ih => exact (c.call_leaves cl).trans (ih _)

theorem Conn.handleRequest_leaves (c : Conn) (calls : List Call) (id : ℕ) (headers : List HeaderField) (data : Bytes) :
    Leaves c (c.handleRequest calls id headers data) := by
  have hemit : Leaves c { c with output := c.output.emit (.request id headers data) } :=
    ⟨rfl, (Output.view_emit _).trans (List.append_nil _), fun hl => ⟨_, hl, rfl⟩⟩
  exact hemit.trans (foldl_call_leaves _ calls)

theorem Conn.endHeaders_leaves (c : Conn) (calls : List Call) (id : ℕ) (headers : List HeaderField) :
    Leaves c (c.endHeaders calls id headers) :=
  (c.handleRequest_leaves calls id headers []).erase rfl rfl rfl

theorem Conn.finish_leaves (h : Leaves c c') (consumed : IdMap ℕ) :
    Leaves c { c'.handleRequest calls id headers data with
      pending := (c'.handleRequest calls id headers data).pending.erase id, streamConsumed := consumed } :=
  (h.trans (c'.handleRequest_leaves calls id headers data)).erase rfl rfl rfl

theorem Conn.handleDataFrame_leaves : Leaves c (c.handleDataFrame calls flags id payload) := by
  rw [handleDataFrame]
  split
  · exact c.call_leaves (.sendRstStream id .streamClosed)
  · rename_i ps hps
    have hcredit : Leaves c (c.receiveCredit id payload.length) :=
      ⟨rfl, (c.receiveCredit_logs id payload.length).view fun _ => Effect.OfCredit.decode, fun hl => ⟨_, hl, rfl⟩⟩
    simp only
    split
    · refine finish_leaves ?_ _
      exact hcredit.insert hps rfl rfl rfl rfl
    · exact hcredit.insert hps rfl rfl rfl rfl

/-- Frames that carry neither header blocks nor settings. -/
theorem Conn.handleFrame_leaves (hh : FrameType.ofCode f.type ≠ some .headers)
    (hc : FrameType.ofCode f.type ≠ some .continuation) (hs : FrameType.ofCode f.type ≠ some .settings)
    (hp : FrameType.ofCode f.type ≠ some .pushPromise) : Leaves c (c.handleFrame calls f) := by
  have hout : ∀ o, Logs Effect.OfCall c.output o → ∀ n fc, Leaves c
      { c with lastStreamId := n, flowControl := fc, output := o } := fun o h n fc =>
    ⟨rfl, h.view fun _ => Effect.OfCall.decode, fun hl => ⟨_, hl, rfl⟩⟩
  rw [handleFrame]
  split
  · exact .refl c
  · cases ht : FrameType.ofCode f.type with
    | none => exact .refl c
    | some type =>
        cases type with
        | headers => exact (hh ht).elim
        | continuation => exact (hc ht).elim
        | settings => exact (hs ht).elim
        | pushPromise => exact (hp ht).elim
        | data => exact handleDataFrame_leaves
        | priority => exact .refl c
        | ping =>
            simp only [handlePingFrame]
            split
            · exact .refl c
            · split
              · exact .refl c
              · refine hout _ ?_ _ _
                exact (Logs.refl _).writeFrame trivial trivial
        | goaway =>
            simp only [handleGoawayFrame]
            split
            · exact .refl c
            · exact hout _ ((Logs.refl _).closeConnection _ trivial) _ _
        | rstStream => exact (Leaves.refl c).erase rfl rfl rfl
        | windowUpdate =>
            simp only [handleWindowUpdateFrame]
            split
            · exact .refl c
            · generalize (if f.streamId = 0 then c.flowControl.connectionWindow else _) = current
              split
              · exact hout _ ((Logs.refl _).closeConnection _ trivial) _ _
              · split
                · exact c.call_leaves (.sendGoaway .flowControlError)
                · exact hout _ (.refl _) _ _

namespace Follows

theorem leaves (h : Follows c p) (hl : Leaves c c') (hw : ∀ {id block}, p.openBlock = some (id, block) →
    c'.pending.lookup id = c.pending.lookup id) : Follows c' p := by
  refine ⟨by rw [hl.decoder]; exact h.table, hl.decoded.trans h.decoded, fun hps => ?_, fun hop => ?_⟩
  · obtain ⟨ps, hps, he⟩ := hl.fragment hps
    exact he.trans (h.fragment hps)
  · rw [hw hop]
    exact h.waiting hop

/-- **A header block is completed.** -/
theorem decodeBlock (h : Follows c p) (id : ℕ) (ps : PendingStream) (hother : ∀ id', id' ≠ id → p.fragment id' = [])
    (hperm : PermitsBlock ps.headerBlockFragment.length p.table ps.headerBlockFragment) :
    (c.decoder.decode ps.headerBlockFragment).1 = (p.table.decode ps.headerBlockFragment).1 ∧
      Follows (c.decodeBlock id ps) ⟨(p.table.decode ps.headerBlockFragment).2, none,
        p.completed ++ [(id, ps.headerBlockFragment, (p.table.decode ps.headerBlockFragment).1)]⟩ := by
  obtain ⟨hheaders, htable⟩ := h.table.follow hperm
  refine ⟨hheaders, htable, ?_, fun {id' _} hps => ?_, fun hop => by cases hop⟩
  · refine (Output.view_emit _).trans ?_
    rw [show c.output.view Effect.decode? = p.completed from h.decoded]
    exact congrArg (fun hs => p.completed ++ [(id, ps.headerBlockFragment, hs)]) hheaders
  · by_cases hid : id' = id
    · subst hid
      obtain rfl := Option.some.inj ((Finmap.lookup_insert _).symm.trans hps)
      rfl
    · have hps' := (Finmap.lookup_insert_of_ne _ hid).symm.trans hps
      exact (h.fragment hps').trans (hother _ hid)

/-- A header block waits for its next piece. -/
theorem wait (h : Follows c p) (hother : ∀ id', id' ≠ id → p.fragment id' = [])
    (hf : ps.headerBlockFragment = block) (hw : ps.waitingContinuation = true) :
    Follows { c with pending := c.pending.insert id ps } { p with openBlock := some (id, block) } := by
  refine ⟨h.table, h.decoded, fun {id' _} hps => ?_, fun hop => ?_⟩
  · by_cases hid : id' = id
    · subst hid
      obtain rfl := Option.some.inj ((Finmap.lookup_insert _).symm.trans hps)
      simpa [Peer.fragment] using hf
    · have hps' := (Finmap.lookup_insert_of_ne _ hid).symm.trans hps
      rw [h.fragment hps', hother _ hid]
      simp [Peer.fragment, Ne.symm hid]
  · obtain ⟨rfl, rfl⟩ := Prod.mk.inj (Option.some.inj hop)
    exact ⟨ps, Finmap.lookup_insert _, hw⟩

theorem headersFrame (h : Follows c p) (hop : p.openBlock = none) (ha : c.Admits id)
    (hadv : p.advance id payload (hasFlag flags flagEndHeaders) = some p') :
    Follows (c.handleHeadersFrame calls flags id payload) p' := by
  have hnone := p.fragment_of_none hop
  have hfrag : ((c.pending.lookup id).getD {}).headerBlockFragment = [] := by
    cases hl : c.pending.lookup id with
    | none => rfl
    | some ps => exact (h.fragment hl).trans (hnone id)
  have hopened : Follows (c.openStream id (hasFlag flags flagEndStream)) p :=
    ⟨h.table, h.decoded, h.fragment, h.waiting⟩
  have hpend : (c.openStream id (hasFlag flags flagEndStream)).pending = c.pending := rfl
  rw [Conn.handleHeadersFrame, if_neg ha.not_refused]
  simp only [hpend, hfrag, List.nil_append]
  rcases Peer.advance_eq_some hadv with ⟨heh, hperm, rfl⟩ | ⟨heh, rfl⟩
  · rw [heh, if_pos rfl]
    have hdec := (hopened.decodeBlock id { (c.pending.lookup id).getD {} with
      headerBlockFragment := payload, endStream := hasFlag flags flagEndStream } (fun id' _ => hnone id') hperm).2
    split
    · refine hdec.leaves (Leaves.trans ?_ (Conn.endHeaders_leaves _ _ _ _)) (fun hop => by cases hop)
      exact ⟨rfl, rfl, fun hl => ⟨_, hl, rfl⟩⟩
    · exact hdec
  · rw [heh, if_neg (by simp)]
    exact hopened.wait (fun id' _ => hnone id') rfl rfl

theorem continuationFrame (h : Follows c p) (hop : p.openBlock = some (id, block))
    (hadv : p.advance id (block ++ payload) (hasFlag flags flagEndHeaders) = some p') :
    Follows (c.handleContinuationFrame calls flags id payload) p' := by
  obtain ⟨ps, hps, hw⟩ := h.waiting hop
  obtain ⟨hid, hother⟩ := Peer.fragment_of_some hop
  have hfrag : ps.headerBlockFragment = block := (h.fragment hps).trans hid
  rw [Conn.handleContinuationFrame, hps]
  simp only [hw, if_true, hfrag]
  rcases Peer.advance_eq_some hadv with ⟨heh, hperm, rfl⟩ | ⟨heh, rfl⟩
  · rw [heh, if_pos rfl]
    have hdec := (h.decodeBlock id { ps with headerBlockFragment := block ++ payload } hother hperm).2
    split
    · exact hdec.leaves (Conn.endHeaders_leaves _ _ _ _) (fun hop => by cases hop)
    · exact hdec
  · rw [heh, if_neg (by simp)]
    exact h.wait hother rfl rfl

/-- A limit that is not below the table of the peer. -/
theorem settingsFrame (h : Follows c p) (hop : p.openBlock = none)
    (hk : hasFlag flags flagAck = false → p.table.maxTableSize ≤
      (c.remoteSettings.applyRemoteSettings (Conn.settingsEntries payload.length payload)).headerTableSize) :
    Follows (c.handleSettingsFrame flags payload) p := by
  rw [Conn.handleSettingsFrame]
  split
  · exact h
  · rename_i hack
    have hlog : Logs Effect.OfCall c.output (c.output.writeFrame (.settings true [])) :=
      (Logs.refl _).writeFrame trivial trivial
    exact ⟨h.table.setDecoder (hk (by simpa using hack)), (hlog.view fun _ => Effect.OfCall.decode).trans h.decoded,
      h.fragment, fun hop' => by simp [hop] at hop'⟩

theorem call (h : Follows c p) (hk : KeepsDecoding (c, p) (.call cl)) : Follows (c.call cl) p := by
  refine h.leaves (c.call_leaves cl) fun {id block} hop => (Conn.call_pending ?_).1
  rintro error rfl
  exact hk (by rw [hop]; rfl)

theorem frame (h : Follows c p) (hk : KeepsDecoding (c, p) (.frame f calls))
    (hp : p.next (.frame f calls) = some p') : Follows (c.handleFrame calls f) p' := by
  rcases Peer.next_frame hp with ⟨ht, hop, piece, hpiece, hadv⟩ | ⟨ht, block, hop, hadv⟩ | ⟨h1, h2, h3, hop, rfl⟩
  · simp only [KeepsDecoding, ht] at hk
    obtain ⟨hi, ha, hpad, hprio⟩ := hk
    obtain rfl : f.payload = piece := by simpa [headerPiece, unpad, hpad, hprio] using hpiece
    rw [Conn.handleFrame, if_neg hi]
    simp only [ht]
    exact h.headersFrame hop ha hadv
  · simp only [KeepsDecoding, ht] at hk
    rw [Conn.handleFrame, if_neg hk]
    simp only [ht]
    exact h.continuationFrame hop hadv
  · by_cases hs : FrameType.ofCode f.type = some .settings
    · simp only [KeepsDecoding, hs] at hk
      rw [Conn.handleFrame]
      split
      · exact h
      · simp only [hs]
        exact h.settingsFrame hop hk
    · exact h.leaves (Conn.handleFrame_leaves h1 h2 hs h3) fun hop' => by simp [hop] at hop'

end Follows

/-- **One step.** -/
theorem LinkStep.follows {s s' : Conn × Peer} (h : Follows s.1 s.2) (hst : Guarded KeepsDecoding LinkStep s e s') :
    Follows s'.1 s'.2 := by
  obtain ⟨c, p⟩ := s
  obtain ⟨c', p'⟩ := s'
  obtain ⟨hk, hst⟩ := hst
  obtain ⟨hc, hp⟩ := Run.execBoth_eq_some.mp hst
  rcases ConnStep.inv hc with ⟨f, calls, rfl, _, rfl⟩ | ⟨cl, rfl, rfl⟩ | ⟨hidle, depth, o, hlog, rfl⟩
  · exact h.frame hk hp
  · obtain rfl := Option.some.inj hp
    exact h.call hk
  · have hpp : p' = p := by
      cases e <;> first | exact hidle.elim | exact (Option.some.inj hp).symm
    have hl : Leaves c { c with writeBatchDepth := depth, output := o } := by
      refine ⟨rfl, hlog.view fun e he => ?_, fun hl => ⟨_, hl, rfl⟩⟩
      cases e <;> first | rfl | exact he.elim
    rw [hpp]
    exact h.leaves hl fun _ => rfl

theorem follows_ready (l : LocalSettings) : Follows (Conn.ready l) Peer.start := by
  have hnone : ∀ id, (Conn.ready l).pending.lookup id = none := fun id => Finmap.lookup_empty id
  refine ⟨.make (by decide), (Conn.ready_logs l).view fun _ => Effect.OfCall.decode, fun {id _} hl => ?_, fun hop => ?_⟩
  · rw [hnone id] at hl
    cases hl
  · cases hop

end

section

variable {s : Conn × Peer} {es : List Event} {l : LocalSettings}

/-- **The connection decodes the header blocks of its peer, in order and as the peer encoded them.** -/
theorem run_decoded (hr : Run (Guarded KeepsDecoding LinkStep) (Conn.ready l, Peer.start) es s) :
    s.1.output.decoded = s.2.completed :=
  (hr.invariant (P := fun s => Follows s.1 s.2) (follows_ready l) LinkStep.follows).decoded

/-- A header block in two frames, and one that refers to its entry; the table size that the peer asks for is enough. -/
theorem run_decoded_sample : ∃ s : Conn × Peer, s.2.completed =
      [(1, [0x40, 1, 97, 1, 98], [⟨ascii "a", ascii "b"⟩]), (3, [0xBE], [⟨ascii "a", ascii "b"⟩])] ∧
    s.1.output.decoded = s.2.completed := by
  have hs : (([.readable, .frame ⟨0x1, 0x0, 1, [0x40, 1]⟩ [], .frame ⟨0x9, 0x4, 1, [97, 1, 98]⟩ [],
      .frame ⟨0x4, 0x0, 0, [0, 1, 0, 0, 16, 0]⟩ [], .frame ⟨0x1, 0x5, 3, [0xBE]⟩ []] : List Event).foldlM
      (Run.guardExec KeepsDecoding (Run.execBoth Conn.exec Peer.next)) (.ready {}, .start)).map (·.2.completed) =
      some [(1, [0x40, 1, 97, 1, 98], [⟨ascii "a", ascii "b"⟩]), (3, [0xBE], [⟨ascii "a", ascii "b"⟩])] := by
    decide
  obtain ⟨s, hs, h⟩ := Option.map_eq_some_iff.mp hs
  exact ⟨s, h, run_decoded (Run.of_guardExec hs)⟩

/-- The peer wants no table for the encoder; the decoder drops the entry that the next header block refers to. -/
theorem resized_not_decoded : ¬∀ (l : LocalSettings) (es : List Event) (s : Conn × Peer),
    Run LinkStep (.ready l, .start) es s → s.1.output.decoded = s.2.completed := by
  intro hall
  have hs : (([.readable, .frame ⟨0x1, 0x5, 1, [0x40, 1, 97, 1, 98]⟩ [], .frame ⟨0x4, 0x0, 0, [0, 1, 0, 0, 0, 0]⟩ [],
      .frame ⟨0x1, 0x5, 3, [0xBE]⟩ []] : List Event).foldlM (Run.execBoth Conn.exec Peer.next) (.ready {}, .start)).map
      (fun s => (s.1.output.decoded.map (·.2.2), s.2.completed.map (·.2.2))) =
      some ([[⟨ascii "a", ascii "b"⟩], []], [[⟨ascii "a", ascii "b"⟩], [⟨ascii "a", ascii "b"⟩]]) := by
    decide
  obtain ⟨s, hs, h⟩ := Option.map_eq_some_iff.mp hs
  rw [hall _ _ s (Run.of_foldlM hs), Prod.mk.injEq] at h
  have hbad := h.1.symm.trans h.2
  simp at hbad

end

end NeForce.Http2
