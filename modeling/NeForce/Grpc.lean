import NeForce.BigEndian
import Mathlib.Data.List.Flatten
import Mathlib.Data.List.Induction
import Mathlib.Tactic.Linarith

/-! # gRPC frames and streams

A frame is a byte that tells whether the payload is compressed, the length of the payload in four bytes, and the
payload. -/

namespace NeForce.Grpc

structure GrpcMessage where
  compressed : Bool := false
  payload : Bytes
  deriving DecidableEq

/-- `grpc_framer::encode`. -/
def encode (msg : GrpcMessage) : Bytes :=
  (if msg.compressed then 1 else 0) :: (writeBe 4 msg.payload.length ++ msg.payload)

def encodeMessages (messages : List GrpcMessage) : Bytes :=
  messages.foldl (fun result msg => result ++ encode msg) []

/-- The length of the frame that begins with `data`. -/
def msgLen (data : Bytes) : ℕ := readBe ((data.drop 1).take 4)

/-- The `int` that counts frames. -/
def intCount (frames : ℕ) : ℤ := (frames : ℤ).bmod (2 ^ 32)

/-- The loop of `decode`, on the data from the offset on. -/
def decodeLoop (maxReceiveSize : ℕ) (data : Bytes) (count : ℕ) (out : List GrpcMessage) : ℤ × List GrpcMessage :=
  if h : 5 ≤ data.length then
    if maxReceiveSize < msgLen data then (-1, out)
    else if data.length < 5 + msgLen data then (intCount count, out)
    else
      let msg := { compressed := data.headD 0 != 0, payload := (data.drop 5).take (msgLen data) }
      decodeLoop maxReceiveSize ((data.drop 5).drop (msgLen data)) (count + 1) (out ++ [msg])
  else (intCount count, out)
termination_by data.length
decreasing_by
  rw [List.length_drop, List.length_drop]
  omega

/-- `grpc_framer::decode`: the number of messages or -1, and the messages. -/
def decode (maxReceiveSize : ℕ) (data : Bytes) : ℤ × List GrpcMessage := decodeLoop maxReceiveSize data 0 []

/-! ### The frames of the data -/

/-- A frame with any byte for a flag. -/
def frame (f : UInt8 × Bytes) : Bytes := f.1 :: (writeBe 4 f.2.length ++ f.2)

def message (f : UInt8 × Bytes) : GrpcMessage := { compressed := f.1 != 0, payload := f.2 }

def Fits (maxReceiveSize : ℕ) (payload : Bytes) : Prop := payload.length ≤ maxReceiveSize ∧ payload.length < 2 ^ 32

def Incomplete (maxReceiveSize : ℕ) (data : Bytes) : Prop :=
  data.length < 5 ∨ msgLen data ≤ maxReceiveSize ∧ data.length < 5 + msgLen data

def TooLong (maxReceiveSize : ℕ) (data : Bytes) : Prop := 5 ≤ data.length ∧ maxReceiveSize < msgLen data

instance (n : ℕ) (payload : Bytes) : Decidable (Fits n payload) := inferInstanceAs (Decidable (_ ∧ _))
instance (n : ℕ) (data : Bytes) : Decidable (Incomplete n data) := inferInstanceAs (Decidable (_ ∨ _))

variable {n count : ℕ} {data rest : Bytes} {out : List GrpcMessage} {f : UInt8 × Bytes}

theorem intCount_of_lt {frames : ℕ} (h : frames < 2 ^ 31) : intCount frames = frames := by
  have hframes : (frames : ℤ) < 2147483648 := by
    norm_num at h
    omega
  unfold intCount
  exact Int.bmod_eq_of_le (by norm_num) (by norm_num; omega)

theorem readBe_lt (l : Bytes) : readBe l < 256 ^ l.length := by
  induction l using List.reverseRecOn with
  | nil => exact Nat.one_pos
  | append_singleton l b ih =>
      have hb : b.toNat < 256 := b.toNat_lt
      rw [readBe] at ih ⊢
      rw [List.foldl_append, List.foldl_cons, List.foldl_nil, shift_or_byte, List.length_append, List.length_singleton,
        Nat.pow_succ]
      omega

theorem writeBe_mod (k : ℕ) {j v : ℕ} (h : j ≤ k) : writeBe j (v % 256 ^ k) = writeBe j v := by
  induction j with
  | zero => rfl
  | succ j ih =>
      have hpow : 256 ^ k = 256 ^ j * 256 * 256 ^ (k - j - 1) := by
        rw [Nat.mul_assoc, ← Nat.pow_succ', ← Nat.pow_add]
        congr 1
        omega
      have hbyte : v % 256 ^ k / 256 ^ j % 256 = v / 256 ^ j % 256 := by
        rw [hpow, Nat.mul_assoc, Nat.mod_mul_right_div_self, Nat.mod_mul_right_mod]
      rw [writeBe, writeBe, ih (by omega)]
      congr 1
      apply UInt8.toNat_inj.mp
      rw [UInt8.toNat_ofNat', UInt8.toNat_ofNat', Nat.shiftRight_eq_div_pow, Nat.shiftRight_eq_div_pow, Nat.pow_mul]
      exact hbyte

theorem writeBe_readBe (l : Bytes) : writeBe l.length (readBe l) = l := by
  induction l with
  | nil => rfl
  | cons b l ih =>
      have hread : readBe (b :: l) = b.toNat * 256 ^ l.length + readBe l := by
        have h := foldl_writeBe b.toNat l.length (readBe l)
        rw [ih, Nat.mod_eq_of_lt (readBe_lt l)] at h
        rw [readBe, List.foldl_cons, shift_or_byte, Nat.zero_mul, Nat.zero_add]
        exact h
      rw [List.length_cons, writeBe, hread, ← writeBe_mod l.length (le_refl _), Nat.mul_add_mod_self_right,
        Nat.mod_eq_of_lt (readBe_lt l), ih, Nat.shiftRight_eq_div_pow, Nat.pow_mul, Nat.mul_comm,
        Nat.mul_add_div (Nat.pow_pos (by decide)), Nat.div_eq_of_lt (readBe_lt l), Nat.add_zero, UInt8.ofNat_toNat]

theorem msgLen_frame (h : f.2.length < 2 ^ 32) (rest : Bytes) : msgLen (frame f ++ rest) = f.2.length := by
  rw [msgLen, frame, List.cons_append, List.drop_succ_cons, List.drop_zero, List.append_assoc,
    List.take_left' (length_writeBe 4 _), readBe_writeBe]
  exact Nat.mod_eq_of_lt h

theorem drop_frame (rest : Bytes) : (frame f ++ rest).drop 5 = f.2 ++ rest := by
  rw [frame, List.cons_append, List.drop_succ_cons, List.append_assoc, List.drop_left' (length_writeBe 4 _)]

theorem length_frame : (frame f).length = 5 + f.2.length := by
  rw [frame, List.length_cons, List.length_append, length_writeBe]
  omega

theorem decodeLoop_frame (h : Fits n f.2) (rest : Bytes) :
    decodeLoop n (frame f ++ rest) count out = decodeLoop n rest (count + 1) (out ++ [message f]) := by
  have hlen : (frame f ++ rest).length = 5 + f.2.length + rest.length := by rw [List.length_append, length_frame]
  conv_lhs => rw [decodeLoop]
  rw [msgLen_frame h.2, drop_frame, dif_pos (by omega), if_neg (by have := h.1; omega), if_neg (by omega),
    List.drop_left, List.take_left]
  rfl

theorem decodeLoop_frames {frames : List (UInt8 × Bytes)} (h : ∀ f ∈ frames, Fits n f.2) (rest : Bytes) :
    decodeLoop n (frames.flatMap frame ++ rest) count out =
      decodeLoop n rest (count + frames.length) (out ++ frames.map message) := by
  induction frames generalizing count out with
  | nil => rw [List.flatMap_nil, List.nil_append, List.map_nil, List.append_nil, List.length_nil, Nat.add_zero]
  | cons f frames ih =>
      rw [List.flatMap_cons, List.append_assoc, decodeLoop_frame (h f List.mem_cons_self),
        ih fun g hg => h g (List.mem_cons_of_mem f hg), List.map_cons, List.append_assoc, List.singleton_append,
        List.length_cons, Nat.add_right_comm, Nat.add_assoc]

theorem decodeLoop_incomplete (h : Incomplete n data) : decodeLoop n data count out = (intCount count, out) := by
  rw [decodeLoop]
  by_cases h5 : 5 ≤ data.length
  · obtain h | ⟨hmax, hlen⟩ := h
    · omega
    · rw [dif_pos h5, if_neg (by omega), if_pos hlen]
  · exact dif_neg h5

theorem decodeLoop_tooLong (h : TooLong n data) : decodeLoop n data count out = (-1, out) := by
  rw [decodeLoop, dif_pos h.1, if_pos h.2]

/-- Data with room for its first frame begins with a frame. -/
theorem exists_frame (h5 : 5 ≤ data.length) (hmax : msgLen data ≤ n) (hlen : 5 + msgLen data ≤ data.length) :
    ∃ f rest, data = frame f ++ rest ∧ Fits n f.2 ∧ rest.length < data.length := by
  obtain ⟨flag, tail, rfl⟩ := List.exists_cons_of_length_pos (show 0 < data.length by omega)
  rw [List.length_cons] at h5 hlen
  have h4 : (tail.take 4).length = 4 := by
    rw [List.length_take]
    omega
  have hread := readBe_lt (tail.take 4)
  have hwrite := writeBe_readBe (tail.take 4)
  rw [h4] at hread hwrite
  have hm : msgLen (flag :: tail) = readBe (tail.take 4) := rfl
  rw [hm] at hmax hlen
  have hpayload : ((tail.drop 4).take (readBe (tail.take 4))).length = readBe (tail.take 4) := by
    rw [List.length_take, List.length_drop]
    omega
  refine ⟨(flag, (tail.drop 4).take (readBe (tail.take 4))), (tail.drop 4).drop (readBe (tail.take 4)), ?_, ?_, ?_⟩
  · rw [frame, hpayload, hwrite, List.cons_append, List.append_assoc, List.take_append_drop, List.take_append_drop]
  · rw [Fits, hpayload]
    exact ⟨hmax, hread⟩
  · rw [List.length_drop, List.length_drop, List.length_cons]
    omega

theorem exists_frames (n : ℕ) (data : Bytes) : ∃ (frames : List (UInt8 × Bytes)) (rest : Bytes),
    data = frames.flatMap frame ++ rest ∧ (∀ f ∈ frames, Fits n f.2) ∧ (Incomplete n rest ∨ TooLong n rest) := by
  by_cases hlast : Incomplete n data ∨ TooLong n data
  · exact ⟨[], data, rfl, fun f hf => absurd hf List.not_mem_nil, hlast⟩
  · rw [Incomplete, TooLong] at hlast
    have hframe : ∃ f rest, data = frame f ++ rest ∧ Fits n f.2 ∧ rest.length < data.length :=
      exists_frame (by omega) (by omega) (by omega)
    obtain ⟨f, tail, hdata, hfits, hlt⟩ := hframe
    obtain ⟨frames, rest, htail, hframes, hrest⟩ := exists_frames n tail
    refine ⟨f :: frames, rest, ?_, ?_, hrest⟩
    · rw [hdata, htail, List.flatMap_cons, List.append_assoc]
    · intro g hg
      rcases List.mem_cons.mp hg with rfl | hg
      · exact hfits
      · exact hframes g hg
termination_by data.length

/-- Data are decoded to the messages of the frames they begin with, as many as there are, and -1 exactly where a frame
behind them is too long. -/
theorem decode_eq_iff (n : ℕ) (data : Bytes) (result : ℤ) (out : List GrpcMessage) :
    decode n data = (result, out) ↔ ∃ (frames : List (UInt8 × Bytes)) (rest : Bytes),
      data = frames.flatMap frame ++ rest ∧ (∀ f ∈ frames, Fits n f.2) ∧ out = frames.map message ∧
        (Incomplete n rest ∧ result = intCount frames.length ∨ TooLong n rest ∧ result = -1) := by
  have hrun : ∀ (frames : List (UInt8 × Bytes)) (rest : Bytes), (∀ f ∈ frames, Fits n f.2) →
      decode n (frames.flatMap frame ++ rest) = decodeLoop n rest frames.length (frames.map message) := by
    intro frames rest hfits
    rw [decode, decodeLoop_frames hfits, Nat.zero_add, List.nil_append]
  constructor
  · intro h
    obtain ⟨frames, rest, hdata, hfits, hrest⟩ := exists_frames n data
    refine ⟨frames, rest, hdata, hfits, ?_⟩
    rw [hdata, hrun frames rest hfits] at h
    rcases hrest with hrest | hrest
    · rw [decodeLoop_incomplete hrest] at h
      obtain ⟨hresult, hout⟩ := Prod.mk.inj h
      exact ⟨hout.symm, .inl ⟨hrest, hresult.symm⟩⟩
    · rw [decodeLoop_tooLong hrest] at h
      exact ⟨(congrArg Prod.snd h).symm, .inr ⟨hrest, (congrArg Prod.fst h).symm⟩⟩
  · rintro ⟨frames, rest, hdata, hfits, hout, ⟨hrest, hresult⟩ | ⟨hrest, hresult⟩⟩
    · rw [hdata, hrun frames rest hfits, decodeLoop_incomplete hrest, hout, hresult]
    · rw [hdata, hrun frames rest hfits, decodeLoop_tooLong hrest, hout, hresult]

theorem encodeMessages_eq (messages : List GrpcMessage) : encodeMessages messages = messages.flatMap encode := by
  have h : ∀ result : Bytes, messages.foldl (fun result msg => result ++ encode msg) result =
      result ++ messages.flatMap encode := by
    induction messages with
    | nil => exact fun result => (List.append_nil result).symm
    | cons msg messages ih =>
        intro result
        rw [List.foldl_cons, ih, List.flatMap_cons, List.append_assoc]
  exact h []

/-- The frame that is written for a message. -/
def frameOf (msg : GrpcMessage) : UInt8 × Bytes := (if msg.compressed then 1 else 0, msg.payload)

theorem message_frameOf (msg : GrpcMessage) : message (frameOf msg) = msg := by
  obtain ⟨compressed, payload⟩ := msg
  cases compressed with
  | true => rfl
  | false => rfl

theorem decode_flatMap_encode {messages : List GrpcMessage} (h : ∀ msg ∈ messages, Fits n msg.payload)
    (hrest : Incomplete n rest) : decode n (messages.flatMap encode ++ rest) = (intCount messages.length, messages) := by
  rw [decode_eq_iff]
  refine ⟨messages.map frameOf, rest, ?_, ?_, ?_, .inl ⟨hrest, ?_⟩⟩
  · rw [List.flatMap_map]
    rfl
  · intro f hf
    obtain ⟨msg, hmsg, rfl⟩ := List.mem_map.mp hf
    exact h msg hmsg
  · rw [List.map_map]
    exact (List.map_id'' message_frameOf messages).symm
  · rw [List.length_map]

/-! ### Streams -/

/-- `grpc_status`. -/
inductive GrpcStatus where
  | ok
  | cancelled
  | unknown
  | invalidArgument
  | deadlineExceeded
  | notFound
  | alreadyExists
  | permissionDenied
  | resourceExhausted
  | failedPrecondition
  | aborted
  | outOfRange
  | unimplemented
  | internal
  | unavailable
  | dataLoss
  | unauthenticated
  deriving DecidableEq

def GrpcStatus.toInt : GrpcStatus → ℕ
  | ok => 0
  | cancelled => 1
  | unknown => 2
  | invalidArgument => 3
  | deadlineExceeded => 4
  | notFound => 5
  | alreadyExists => 6
  | permissionDenied => 7
  | resourceExhausted => 8
  | failedPrecondition => 9
  | aborted => 10
  | outOfRange => 11
  | unimplemented => 12
  | internal => 13
  | unavailable => 14
  | dataLoss => 15
  | unauthenticated => 16

/-- What `send_headers`, `send_data` and `send_trailers` of the connection are called with. -/
inductive Sent where
  | headers (fields : List (String × String))
  | data (bytes : Bytes)
  | trailers (fields : List (String × String))
  deriving DecidableEq

structure GrpcStreamWriter where
  started : Bool := false
  finished : Bool := false
  connection : List Sent := []
  deriving DecidableEq

def responseHeaders : Sent := .headers [(":status", "200"), ("content-type", "application/grpc")]

def statusTrailers (status : GrpcStatus) (text : String) : Sent :=
  .trailers [("grpc-status", toString status.toInt), ("grpc-message", text)]

namespace GrpcStreamWriter

def start (w : GrpcStreamWriter) : GrpcStreamWriter :=
  if w.started || w.finished then w else { w with connection := w.connection ++ [responseHeaders], started := true }

def write (w : GrpcStreamWriter) (msg : GrpcMessage) : Bool × GrpcStreamWriter :=
  if w.finished then (false, w)
  else
    let w := if w.started then w else w.start
    (true, { w with connection := w.connection ++ [.data (encode msg)] })

def finish (w : GrpcStreamWriter) (status : GrpcStatus) (text : String) : GrpcStreamWriter :=
  if w.finished then w
  else
    let w := if w.started then w else w.start
    { w with connection := w.connection ++ [statusTrailers status text], finished := true }

/-- A call of a member function. -/
inductive Call where
  | start
  | write (msg : GrpcMessage)
  | finish (status : GrpcStatus) (text : String)

def step (w : GrpcStreamWriter) : Call → GrpcStreamWriter
  | .start => w.start
  | .write msg => (w.write msg).2
  | .finish status text => w.finish status text

def run (calls : List Call) : GrpcStreamWriter := calls.foldl step {}

/-- The messages of the calls before the stream is finished. -/
def written : List Call → List GrpcMessage
  | [] => []
  | .start :: calls => written calls
  | .write msg :: calls => msg :: written calls
  | .finish .. :: _ => []

/-- The trailers of the call that finishes the stream. -/
def lastSent : List Call → List Sent
  | [] => []
  | .start :: calls => lastSent calls
  | .write _ :: calls => lastSent calls
  | .finish status text :: _ => [statusTrailers status text]

theorem foldl_finished {w : GrpcStreamWriter} (h : w.finished = true) (calls : List Call) : calls.foldl step w = w := by
  induction calls with
  | nil => rfl
  | cons call calls ih =>
      have hstep : step w call = w := by
        cases call with
        | start => exact if_pos (by rw [h, Bool.or_true])
        | write msg => rw [step, write, if_pos h]
        | finish status text => exact if_pos h
      rw [List.foldl_cons, hstep, ih]

/-- A stream that is open sends the messages and then the trailers. -/
theorem connection_foldl_open (sent : List Sent) (calls : List Call) :
    (calls.foldl step ⟨true, false, sent⟩).connection =
      sent ++ ((written calls).map fun msg => .data (encode msg)) ++ lastSent calls := by
  induction calls generalizing sent with
  | nil => rw [written, lastSent, List.map_nil, List.append_nil, List.append_nil, List.foldl_nil]
  | cons call calls ih =>
      cases call with
      | start => exact ih sent
      | write msg =>
          rw [written, List.map_cons, lastSent, List.append_cons]
          exact ih (sent ++ [.data (encode msg)])
      | finish status text =>
          rw [written, List.map_nil, lastSent, List.append_nil, List.foldl_cons, foldl_finished rfl]
          rfl

/-- Every call but the first is one on an open stream, or on a finished one. -/
theorem connection_run (call : Call) (calls : List Call) : (run (call :: calls)).connection =
    responseHeaders :: ((written (call :: calls)).map fun msg => .data (encode msg)) ++ lastSent (call :: calls) := by
  have hopen := connection_foldl_open [responseHeaders] (call :: calls)
  rw [List.singleton_append] at hopen
  rw [← hopen]
  cases call with
  | start => rfl
  | write msg => rfl
  | finish status text => rfl

end GrpcStreamWriter

/-- The bytes of the data that were sent. -/
def sentData : List Sent → Bytes
  | [] => []
  | .headers _ :: sent => sentData sent
  | .data bytes :: sent => bytes ++ sentData sent
  | .trailers _ :: sent => sentData sent

theorem sentData_messages (messages : List GrpcMessage) (sent : List Sent) (h : sentData sent = []) :
    sentData ((messages.map fun msg => .data (encode msg)) ++ sent) = messages.flatMap encode := by
  induction messages with
  | nil => exact h
  | cons msg messages ih => rw [List.map_cons, List.cons_append, sentData, ih, List.flatMap_cons]

namespace GrpcStreamWriter

theorem sentData_lastSent (calls : List Call) : sentData (lastSent calls) = [] := by
  induction calls with
  | nil => rfl
  | cons call calls ih =>
      cases call with
      | start => exact ih
      | write msg => exact ih
      | finish status text => rfl

/-- Whatever is called, a stream sends its headers once and first, the messages that are written before it is finished in
their order, its trailers at most once and nothing behind them; and the other side decodes these messages. -/
theorem stream_sends_exactly (calls : List Call) :
    (run calls).connection = (if calls = [] then [] else
      responseHeaders :: ((written calls).map fun msg => .data (encode msg)) ++ lastSent calls) ∧
    ∀ n, (∀ msg ∈ written calls, Fits n msg.payload) →
      decode n (sentData (run calls).connection) = (intCount (written calls).length, written calls) := by
  have hsent : (run calls).connection = (if calls = [] then [] else
      responseHeaders :: ((written calls).map fun msg => .data (encode msg)) ++ lastSent calls) := by
    cases calls with
    | nil => rfl
    | cons call calls => rw [connection_run, if_neg (List.cons_ne_nil call calls)]
  refine ⟨hsent, fun n hfits => ?_⟩
  have hdata : sentData (run calls).connection = (written calls).flatMap encode := by
    rw [hsent]
    split_ifs with hnil
    · rw [hnil]
      rfl
    · rw [List.cons_append, responseHeaders, sentData, sentData_messages _ _ (sentData_lastSent calls)]
  have hdecode : decode n ((written calls).flatMap encode ++ []) = (intCount (written calls).length, written calls) :=
    decode_flatMap_encode hfits (.inl (by decide))
  rwa [List.append_nil, ← hdata] at hdecode

end GrpcStreamWriter

theorem stream_sends_one : decode 10 (sentData (GrpcStreamWriter.run
    [.write { payload := [1, 2] }, .finish .ok "", .write { payload := [3] }]).connection) = (1, [{ payload := [1, 2] }]) :=
  (GrpcStreamWriter.stream_sends_exactly [.write { payload := [1, 2] }, .finish .ok "", .write { payload := [3] }]).2 10
    (by decide)

/-- The default of `max_receive_size`. -/
def maxReceiveSize : ℕ := 4 * 1024 * 1024

/-- `grpc_handler::process_server_stream`, for a handler that writes messages and then returns or throws an exception with
a text. -/
def processServerStream (data : Bytes) (handler : GrpcMessage → List GrpcMessage × Option String) : List Sent :=
  let (decoded, messages) := decode maxReceiveSize data
  let writer : GrpcStreamWriter := {}
  match messages with
  | [] => (writer.start.finish .invalidArgument "Empty gRPC request").connection
  | first :: _ =>
      if decoded ≤ 0 then (writer.start.finish .invalidArgument "Empty gRPC request").connection
      else
        let writer := (handler first).1.foldl (fun w response => (w.write response).2) writer.start
        match (handler first).2 with
        | none => (writer.finish .ok "").connection
        | some what => (writer.finish .internal what).connection

/-- The calls of a stream that is answered. -/
def answerCalls (answer : List GrpcMessage × Option String) : List GrpcStreamWriter.Call :=
  .start :: answer.1.map .write ++ [match answer.2 with
    | none => .finish .ok ""
    | some what => .finish .internal what]

theorem foldl_writes (w : GrpcStreamWriter) (messages : List GrpcMessage) :
    (messages.map GrpcStreamWriter.Call.write).foldl GrpcStreamWriter.step w =
      messages.foldl (fun w response => (w.write response).2) w := by
  rw [List.foldl_map]
  rfl

theorem run_answerCalls (answer : List GrpcMessage × Option String) :
    (GrpcStreamWriter.run (answerCalls answer)).connection =
      let writer := answer.1.foldl (fun w response => (w.write response).2) (GrpcStreamWriter.start {})
      match answer.2 with
      | none => (writer.finish .ok "").connection
      | some what => (writer.finish .internal what).connection := by
  obtain ⟨messages, what⟩ := answer
  rw [GrpcStreamWriter.run, answerCalls, List.cons_append, List.foldl_cons, List.foldl_append, foldl_writes]
  cases what with
  | none => rfl
  | some what => rfl

theorem processServerStream_of_decode {first : GrpcMessage} {more : List GrpcMessage} {decoded : ℤ} (h : 0 < decoded)
    (hdecode : decode maxReceiveSize data = (decoded, first :: more))
    (handler : GrpcMessage → List GrpcMessage × Option String) :
    processServerStream data handler = (GrpcStreamWriter.run (answerCalls (handler first))).connection := by
  rw [processServerStream, hdecode, run_answerCalls]
  dsimp only
  rw [if_neg (by omega)]

theorem written_answerCalls (answer : List GrpcMessage × Option String) :
    GrpcStreamWriter.written (answerCalls answer) = answer.1 ∧
    GrpcStreamWriter.lastSent (answerCalls answer) = [match answer.2 with
      | none => statusTrailers .ok ""
      | some what => statusTrailers .internal what] := by
  obtain ⟨messages, what⟩ := answer
  rw [answerCalls, List.cons_append, GrpcStreamWriter.written, GrpcStreamWriter.lastSent]
  induction messages with
  | nil =>
      cases what with
      | none => exact ⟨rfl, rfl⟩
      | some what => exact ⟨rfl, rfl⟩
  | cons msg messages ih => exact ⟨congrArg (msg :: ·) ih.1, ih.2⟩

/-- A request that is framed is answered by its handler, also with a part of a frame behind it: the headers, each message
the handler writes, and its status; and no other request reaches the handler. -/
theorem server_stream_exact (handler : GrpcMessage → List GrpcMessage × Option String) :
    (∀ (first : GrpcMessage) (more : List GrpcMessage) (rest : Bytes),
      (first :: more).length < 2 ^ 31 → (∀ msg ∈ first :: more, Fits maxReceiveSize msg.payload) →
      Incomplete maxReceiveSize rest →
      processServerStream (encodeMessages (first :: more) ++ rest) handler =
        responseHeaders :: ((handler first).1.map fun msg => .data (encode msg)) ++ [match (handler first).2 with
          | none => statusTrailers .ok ""
          | some what => statusTrailers .internal what]) ∧
    ∀ data : Bytes, (∀ f rest, data = frame f ++ rest → ¬ Fits maxReceiveSize f.2) ∨ (decode maxReceiveSize data).1 = -1 →
      processServerStream data handler =
        [responseHeaders, statusTrailers .invalidArgument "Empty gRPC request"] := by
  constructor
  · intro first more rest hlen hfits hrest
    have hdecode := decode_flatMap_encode hfits hrest
    rw [← encodeMessages_eq, intCount_of_lt hlen] at hdecode
    obtain ⟨hwritten, hlast⟩ := written_answerCalls (handler first)
    rw [processServerStream_of_decode (by rw [List.length_cons]; omega) hdecode]
    have hrun := GrpcStreamWriter.connection_run .start ((answerCalls (handler first)).tail)
    rw [← hlast, ← hwritten]
    exact hrun
  · intro data hdata
    cases hdecode : decode maxReceiveSize data with
    | mk decoded messages =>
        have hle : messages = [] ∨ decoded ≤ 0 := by
          obtain ⟨frames, tail, hframes, hfits, hmessages, -⟩ := (decode_eq_iff _ _ _ _).mp hdecode
          rcases hdata with hno | hbad
          · cases frames with
            | nil => exact .inl hmessages
            | cons f frames =>
                rw [List.flatMap_cons, List.append_assoc] at hframes
                exact absurd (hfits f List.mem_cons_self) (hno f _ hframes)
          · rw [hdecode] at hbad
            exact .inr (by rw [show decoded = -1 from hbad]; decide)
        rw [processServerStream, hdecode]
        cases messages with
        | nil => rfl
        | cons first more =>
            rcases hle with hnil | hle
            · exact absurd hnil (List.cons_ne_nil first more)
            · exact if_pos hle

/-- A handler that sends the request back twice. -/
theorem echo_twice : processServerStream (encodeMessages [{ payload := [7] }] ++ [0]) (fun msg => ([msg, msg], none)) =
    [responseHeaders, .data [0, 0, 0, 0, 1, 7], .data [0, 0, 0, 0, 1, 7], statusTrailers .ok ""] :=
  (server_stream_exact fun msg => ([msg, msg], none)).1 { payload := [7] } [] [0] (by decide) (by decide) (by decide)

end NeForce.Grpc
