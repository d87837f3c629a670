import Mathlib.Data.List.Flatten
import NeForce.Http2Trace

/-! # The end of a stream

Which frames a call that sends puts into the write buffer, and when exactly one of them ends the stream.

The frames of a call are planned from its arguments and the windows (`Sending.frames`), and those that
find room in the write buffer are kept (`accepted`).  The planned frames carry the body, and END_STREAM
exactly once if there is a body or a header block that fits one frame; the last header frame of a larger
block is a CONTINUATION frame, and without a header block an empty body has no frame at all. -/

namespace NeForce.Http2

open Hpack

/-! ### Frames in the write buffer -/

namespace Output

variable {o : Output}

/-- The frames that find room, one after the other. -/
def accepted (o : Output) : List Frame → List Frame
  | [] => []
  | f :: fs => (if o.Fits f then [f] else []) ++ accepted (o.writeFrame f) fs

theorem frames_foldl (o : Output) (fs : List Frame) : (fs.foldl writeFrame o).frames = o.frames ++ accepted o fs := by
  induction fs generalizing o with
  | nil => exact (List.append_nil _).symm
  | cons f fs ih => rw [List.foldl_cons, ih, frames_writeFrame, accepted, List.append_assoc]

theorem accepted_sublist (o : Output) (fs : List Frame) : (accepted o fs).Sublist fs := by
  induction fs generalizing o with
  | nil => exact .slnil
  | cons f fs ih =>
      rw [accepted]
      split
      · exact (ih _).cons_cons f
      · exact (ih _).cons f

end Output

/-! ### Ending a stream -/

namespace Frame

/-- DATA and HEADERS frames of a stream. -/
def carries (id : ℕ) : Frame → Bool
  | data f => f.streamId = id
  | headers f => f.streamId = id
  | _ => false

/-- DATA and HEADERS frames of a stream with END_STREAM. -/
def endsStream (id : ℕ) : Frame → Bool
  | data f => f.streamId = id && f.endStream
  | headers f => f.streamId = id && f.endStream
  | _ => false

/-- The payload of a DATA frame of a stream. -/
def payload (id : ℕ) : Frame → Bytes
  | data f => if f.streamId = id then f.data else []
  | _ => []

end Frame

/-- The frames carry the body, and END_STREAM on exactly one frame if the stream ends and on none otherwise; no
DATA or HEADERS frame comes after it. -/
structure EndsOnce (id : ℕ) (body : Bytes) (endStream : Bool) (fs : List Frame) : Prop where
  once : fs.countP (·.endsStream id) = if endStream then 1 else 0
  last : fs.Pairwise fun f g => f.endsStream id = true → g.carries id = false
  body : fs.flatMap (·.payload id) = body

/-- Every frame with a part of the body or with END_STREAM finds room in the write buffer. -/
def Output.Delivers (id : ℕ) : Output → List Frame → Prop
  | _, [] => True
  | o, f :: fs => (f.payload id ≠ [] ∨ f.endsStream id = true → o.Fits f) ∧ Delivers id (o.writeFrame f) fs

section

variable {id n : ℕ} {o : Output} {fs : List Frame} {body : Bytes}

theorem length_accepted_le (id : ℕ) (o : Output) (fs : List Frame) :
    ((o.accepted fs).flatMap (·.payload id)).length ≤ (fs.flatMap (·.payload id)).length ∧
      (o.accepted fs).countP (·.endsStream id) ≤ fs.countP (·.endsStream id) := by
  have h := o.accepted_sublist fs
  exact ⟨(h.flatMap _).length_le, h.countP_le⟩

/-- Nothing is lost exactly if neither bytes nor ends of streams are. -/
theorem delivers_iff : o.Delivers id fs ↔
    (o.accepted fs).flatMap (·.payload id) = fs.flatMap (·.payload id) ∧
      (o.accepted fs).countP (·.endsStream id) = fs.countP (·.endsStream id) := by
  induction fs generalizing o with
  | nil => simp [Output.Delivers, Output.accepted]
  | cons f fs ih =>
      obtain ⟨hle, hle'⟩ := length_accepted_le id (o.writeFrame f) fs
      rw [Output.Delivers, Output.accepted, ih]
      by_cases hf : o.Fits f
      · simp only [hf, implies_true, true_and, if_true, List.singleton_append, List.flatMap_cons, List.countP_cons,
          List.append_cancel_left_eq, Nat.add_right_cancel_iff]
      · rw [if_neg hf, List.nil_append, List.flatMap_cons, List.countP_cons]
        constructor
        · rintro ⟨hno, hb, hc⟩
          obtain ⟨hp, he⟩ := not_or.mp fun h => hf (hno h)
          rw [not_not] at hp
          exact ⟨by rw [hb, hp, List.nil_append], by rw [hc, if_neg he, Nat.add_zero]⟩
        · rintro ⟨hb, hc⟩
          have hlen := congrArg List.length hb
          rw [List.length_append] at hlen
          have hp : f.payload id = [] := List.eq_nil_of_length_eq_zero (by omega)
          have he : ¬f.endsStream id = true := fun he => by
            rw [if_pos he] at hc
            omega
          rw [hp, List.nil_append] at hb
          rw [if_neg he, Nat.add_zero] at hc
          exact ⟨fun h => (h.elim (· hp) he).elim, hb, hc⟩

/-- The frames of a plan that carries the whole body, and END_STREAM at most once. -/
structure Planned (id : ℕ) (body : Bytes) (fs : List Frame) : Prop where
  body : fs.flatMap (·.payload id) = body
  last : fs.Pairwise fun f g => f.endsStream id = true → g.carries id = false

theorem Planned.endsOnce_iff {endStream : Bool} {ends : Prop} [Decidable ends] (hp : Planned id body fs)
    (hc : fs.countP (·.endsStream id) = if endStream = true ∧ ends then 1 else 0) :
    EndsOnce id body endStream (o.accepted fs) ↔ (endStream = true → ends) ∧ o.Delivers id fs := by
  rw [delivers_iff, hp.body]
  have hle := (length_accepted_le id o fs).2
  constructor
  · intro h
    have hone := h.once
    cases endStream with
    | false =>
        rw [if_neg (by simp)] at hc
        exact ⟨by simp, h.body, by omega⟩
    | true =>
        rw [if_pos rfl] at hone
        by_cases he : ends
        · rw [if_pos ⟨rfl, he⟩] at hc
          exact ⟨fun _ => he, h.body, by omega⟩
        · rw [if_neg (by simp [he])] at hc
          omega
  · rintro ⟨he, hb, hcount⟩
    refine ⟨?_, hp.last.sublist (o.accepted_sublist fs), hb⟩
    rw [hcount, hc]
    cases endStream with
    | false => simp
    | true => rw [if_pos ⟨rfl, he rfl⟩, if_pos rfl]

/-! ### The frames of a call -/

variable {maxFrame : ℕ} {endStream first : Bool} {block data : Bytes} {fc : FlowControl}

/-- The frames of the loop over a body. -/
def dataFrames (id maxFrame : ℕ) (endStream : Bool) : ℕ → Bytes → FlowControl → List Frame
  | 0, _, _ => []
  | n + 1, data, fc =>
      if data = [] then []
      else
        let chunk := Conn.chunkSize fc id maxFrame data.length
        .data { streamId := id, data := data.take chunk, endStream := decide (data.length ≤ chunk) && endStream } ::
          dataFrames id maxFrame endStream n (data.drop chunk) (fc.consume id chunk)

theorem writeData_output : (Conn.writeData id maxFrame endStream n data (fc, o)).2 =
    (dataFrames id maxFrame endStream n data fc).foldl .writeFrame o := by
  induction n generalizing data fc o with
  | zero => rfl
  | succ n ih =>
      rw [Conn.writeData, dataFrames]
      split
      · rfl
      · rw [List.foldl_cons]
        exact ih

theorem chunkSize_spec (fc : FlowControl) (id : ℕ) (hm : 0 < maxFrame) (hd : data ≠ []) :
    0 < Conn.chunkSize fc id maxFrame data.length ∧ Conn.chunkSize fc id maxFrame data.length ≤ data.length := by
  have hlen := List.length_pos_iff.mpr hd
  have havail : 0 < fc.available id := by
    rw [FlowControl.available]
    split <;> omega
  unfold Conn.chunkSize
  omega

/-- No frame before the last one of a body ends the stream. -/
theorem dataFrames_spec (id : ℕ) (endStream : Bool) (fc : FlowControl) (hm : 0 < maxFrame) (hn : data.length ≤ n) :
    Planned id data (dataFrames id maxFrame endStream n data fc) ∧
      (dataFrames id maxFrame endStream n data fc).countP (·.endsStream id) =
        if endStream = true ∧ data ≠ [] then 1 else 0 := by
  induction n generalizing data fc with
  | zero =>
      obtain rfl : data = [] := List.eq_nil_of_length_eq_zero (by omega)
      exact ⟨⟨rfl, .nil⟩, by simp [dataFrames]⟩
  | succ n ih =>
      rw [dataFrames]
      by_cases hd : data = []
      · subst hd
        exact ⟨⟨rfl, .nil⟩, by simp⟩
      · obtain ⟨hpos, hle⟩ := chunkSize_spec fc id hm hd
        rw [if_neg hd]
        simp only
        generalize Conn.chunkSize fc id maxFrame data.length = chunk at hpos hle ⊢
        have hdrop : (data.drop chunk).length ≤ n := by
          rw [List.length_drop]
          omega
        obtain ⟨hp, hc⟩ := ih (fc.consume id chunk) hdrop
        have hbody : ∀ g ∈ dataFrames id maxFrame endStream n (data.drop chunk) (fc.consume id chunk), data.length ≤ chunk →
            g.carries id = false := by
          intro g hg hlast
          rw [List.drop_of_length_le hlast] at hg
          cases n <;> simp [dataFrames] at hg
        refine ⟨⟨?_, ?_⟩, ?_⟩
        · rw [List.flatMap_cons, hp.body]
          simp [Frame.payload]
        · refine List.pairwise_cons.mpr ⟨fun g hg he => hbody g hg ?_, hp.last⟩
          simp only [Frame.endsStream, decide_true, Bool.true_and, Bool.and_eq_true, decide_eq_true_eq] at he
          exact he.1
        · rw [List.countP_cons, hc]
          simp only [Frame.endsStream, decide_true, Bool.true_and, Bool.and_eq_true, decide_eq_true_eq, ne_eq,
            List.drop_eq_nil_iff, hd, not_false_eq_true, and_true]
          by_cases hlast : data.length ≤ chunk <;> simp [hlast]

theorem splitBlock_spec (id maxFrame : ℕ) (endStream : Bool) (n : ℕ) (block : Bytes) :
    Planned id [] (Conn.splitBlock id maxFrame endStream n false block) ∧
      (Conn.splitBlock id maxFrame endStream n false block).countP (·.endsStream id) = 0 ∧
      ∀ g ∈ Conn.splitBlock id maxFrame endStream n false block, g.carries id = false := by
  induction n generalizing block with
  | zero => exact ⟨⟨rfl, .nil⟩, rfl, by simp [Conn.splitBlock]⟩
  | succ n ih =>
      rw [Conn.splitBlock]
      split
      · exact ⟨⟨rfl, .nil⟩, rfl, by simp⟩
      · obtain ⟨hp, hc, hg⟩ := ih (block.drop maxFrame)
        refine ⟨⟨?_, ?_⟩, ?_, ?_⟩
        · rw [List.flatMap_cons, hp.body]
          rfl
        · exact List.pairwise_cons.mpr ⟨fun g hg' _ => hg g hg', hp.last⟩
        · rw [List.countP_cons, hc]
          rfl
        · exact List.forall_mem_cons.mpr ⟨rfl, hg⟩

/-- Only a block that fits one frame ends the stream. -/
theorem headerFrames_spec (id maxFrame : ℕ) (block : Bytes) (endStream : Bool) :
    Planned id [] (Conn.headerFrames id maxFrame block endStream) ∧
      (Conn.headerFrames id maxFrame block endStream).countP (·.endsStream id) =
        if endStream = true ∧ block.length ≤ maxFrame then 1 else 0 := by
  rw [Conn.headerFrames]
  split
  · rename_i hlt
    obtain ⟨n, hn⟩ : ∃ n, block.length = n + 1 := ⟨block.length - 1, by omega⟩
    have hne : block ≠ [] := fun h => by simp [h] at hlt
    obtain ⟨hp, hc, hg⟩ := splitBlock_spec id maxFrame endStream n (block.drop maxFrame)
    rw [hn, Conn.splitBlock, if_neg hne, if_neg (by omega)]
    refine ⟨⟨?_, ?_⟩, ?_⟩
    · simp only [if_true, List.flatMap_cons, hp.body]
      rfl
    · exact List.pairwise_cons.mpr ⟨fun g hg' _ => hg g hg', hp.last⟩
    · rw [List.countP_cons, hc]
      simp [Frame.endsStream, hlt]
  · rename_i hle
    refine ⟨⟨rfl, List.pairwise_singleton _ _⟩, ?_⟩
    rw [if_congr (and_iff_left (by omega)) rfl rfl]
    simp [Frame.endsStream]

/-- What a call sends on a stream: a header block, a body, and the end of the stream. -/
structure Sending where
  streamId : ℕ
  block : Option Bytes
  body : Bytes
  endStream : Bool

/-- The frames of a call, in order. -/
def Sending.frames (s : Sending) (maxFrame : ℕ) (fc : FlowControl) : List Frame :=
  (match s.block with
    | none => []
    | some block => Conn.headerFrames s.streamId maxFrame block (s.endStream && decide (s.body = []))) ++
    dataFrames s.streamId maxFrame s.endStream s.body.length s.body fc

/-- There is a frame for END_STREAM: one with the end of the body, or with a whole header block. -/
def Sending.HasLastFrame (s : Sending) (maxFrame : ℕ) : Prop :=
  s.body ≠ [] ∨ ∃ block ∈ s.block, block.length ≤ maxFrame

instance (s : Sending) : Decidable (s.HasLastFrame maxFrame) := by
  unfold Sending.HasLastFrame
  infer_instance

theorem Sending.frames_spec (s : Sending) (fc : FlowControl) (hm : 0 < maxFrame) :
    Planned s.streamId s.body (s.frames maxFrame fc) ∧ (s.frames maxFrame fc).countP (·.endsStream s.streamId) =
      if s.endStream = true ∧ s.HasLastFrame maxFrame then 1 else 0 := by
  obtain ⟨id, block, body, endStream⟩ := s
  obtain ⟨hp, hc⟩ := dataFrames_spec id endStream fc hm (le_refl body.length)
  rw [frames]
  cases block with
  | none =>
      refine ⟨by simpa using hp, ?_⟩
      rw [List.nil_append, hc]
      simp [HasLastFrame]
  | some block =>
      obtain ⟨hp', hc'⟩ := headerFrames_spec id maxFrame block (endStream && decide (body = []))
      refine ⟨⟨?_, List.pairwise_append.mpr ⟨hp'.last, hp.last, fun f hf g hg he => ?_⟩⟩, ?_⟩
      · rw [List.flatMap_append, hp'.body, hp.body, List.nil_append]
      · by_cases hb : body = []
        · subst hb
          simp [dataFrames] at hg
        · rw [if_neg (by simp [hb]), List.countP_eq_zero] at hc'
          exact (hc' f hf he).elim
      · rw [List.countP_append, hc, hc']
        by_cases hb : body = [] <;> simp [HasLastFrame, hb]

namespace Conn

variable {c : Conn} {cl : Call}

/-- What `send_response`, `send_headers`, `send_data` and `send_trailers` send. -/
def sending (c : Conn) : Call → Option Sending
  | .sendResponse id headers body endStream => some ⟨id, some (c.encoder.encode headers).1, body, endStream⟩
  | .sendHeaders id headers endStream => some ⟨id, some (c.encoder.encode headers).1, [], endStream⟩
  | .sendData id data endStream => some ⟨id, none, data, endStream⟩
  | .sendTrailers id trailers => some ⟨id, some (c.encoder.encode trailers).1, [], true⟩
  | _ => none

/-- The frames of a call that reach the write buffer. -/
def emitted (c : Conn) (cl : Call) : List Frame := (c.call cl).output.frames.drop c.output.frames.length

theorem emitted_eq {s : Sending} (h : c.sending cl = some s) :
    c.emitted cl = c.output.accepted (s.frames c.localSettings.maxFrameSize c.flowControl) := by
  have key : (c.call cl).output.frames =
      ((s.frames c.localSettings.maxFrameSize c.flowControl).foldl .writeFrame c.output).frames := by
    cases cl <;> simp only [sending, Option.some.injEq, reduceCtorEq] at h <;> subst h
    case sendResponse id headers body endStream =>
      rw [call, sendResponse, flushResponse, Sending.frames, List.foldl_append, ← writeData_output]
      simp only [Output.frames]
      split <;> simp [writeHeaderBlock, writeBody, sentData]
    case sendHeaders id headers endStream => simp [call, sendHeaders, Sending.frames, writeHeaderBlock, dataFrames, updateStream, Output.frames]
    case sendData id data endStream =>
      simp [call, sendData, Sending.frames, ← writeData_output, writeBody, sentData, Output.frames]
    case sendTrailers id trailers =>
      simp [call, sendTrailers, Sending.frames, writeHeaderBlock, dataFrames, sentData, Output.frames]
  rw [emitted, key, Output.frames_foldl, List.drop_left]

/-- **When the end of a stream is sent exactly once.** -/
theorem emitted_endsOnce_iff {s : Sending} (h : c.sending cl = some s) :
    EndsOnce s.streamId s.body s.endStream (c.emitted cl) ↔
      (s.endStream = true → s.HasLastFrame c.localSettings.maxFrameSize) ∧
        c.output.Delivers s.streamId (s.frames c.localSettings.maxFrameSize c.flowControl) := by
  obtain ⟨hp, hc⟩ := s.frames_spec c.flowControl c.localSettings.maxFrameSize_pos
  rw [emitted_eq h]
  exact hp.endsOnce_iff hc

/-- Two bytes end a stream. -/
theorem emitted_endsOnce_sample :
    EndsOnce 1 (ascii "hi") true ((ready {}).emitted (.sendData 1 (ascii "hi") true)) := by
  have h : (ready {}).sending (.sendData 1 (ascii "hi") true) = some ⟨1, none, ascii "hi", true⟩ := rfl
  exact (emitted_endsOnce_iff h).mpr ⟨fun _ => Or.inl (by decide), delivers_iff.mpr (by decide)⟩

/-- No bytes do not. -/
theorem empty_data_not_ended :
    ¬∀ (c : Conn) (cl : Call) (s : Sending), c.sending cl = some s →
      EndsOnce s.streamId s.body s.endStream (c.emitted cl) := by
  intro h
  have hnil : (ready {}).emitted (.sendData 1 [] true) = [] := by decide
  have hone := (h (ready {}) (.sendData 1 [] true) ⟨1, none, [], true⟩ rfl).once
  rw [hnil] at hone
  simp at hone

end Conn

end

end NeForce.Http2
