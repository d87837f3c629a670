import Mathlib
import NeForce.WebsocketReader
import NeForce.WebsocketWriter

/-! # The frames of `build_frame` read back

`build_frame` with and without a masking key, and the way of one of its frames through `try_parse_frames`, whatever
the cuts between the events and whatever comes behind it.

The bit RSV1 is not free: `try_parse_frames` refuses it in a session without permessage-deflate, and in control
frames (`rsv1_refused`).  Every other frame is dispatched, and nothing is read behind it (`buildFrame_dispatched`). -/

namespace NeForce.Websocket

open Http2 (tryReadBytes)

/-! ### Masked frames -/

/-- The bytes of `masking_key` in memory, lowest first. -/
def keyBytes (maskingKey : UInt32) : Bytes := (List.range 4).map fun i => (maskingKey >>> UInt32.ofNat (8 * i)).toUInt8

/-- The second byte and what follows it of the length. -/
def lengthField (masked : Bool) (len : ℕ) : Bytes :=
  let second : UInt8 := if masked then 0x80 else 0x00
  if len < 126 then [second ||| UInt8.ofNat len]
  else if len ≤ 0xFFFF then (second ||| 126) :: writeBe 2 len
  else (second ||| 127) :: writeBe 8 len

/-- The last loop of `build_frame`. -/
def maskPayload (key payload : Bytes) : Bytes := payload.mapIdx fun i b => b ^^^ key.getD (i % 4) 0

/-- The end of a frame: the key, if there is one, and the payload. -/
def keyAndPayload (maskingKey : Option UInt32) (payload : Bytes) : Bytes :=
  match maskingKey with
  | some key => keyBytes key ++ maskPayload (keyBytes key) payload
  | none => payload

/-- `build_frame`, with the key that `tl_mt.next_int` gives if the frame is masked. -/
def buildFrameWith (opcode : Opcode) (payload : Bytes) (maskingKey : Option UInt32) (rsv1 : Bool) : Bytes :=
  let firstByte : UInt8 := 0x80 ||| (UInt8.ofNat opcode.code &&& 0x0F) ||| if rsv1 then 0x40 else 0
  firstByte :: lengthField maskingKey.isSome payload.length ++ keyAndPayload maskingKey payload

/-- The header that `try_parse_frames` finds in it. -/
def headerOf (opcode : Opcode) (payload : Bytes) (maskingKey : Option UInt32) (rsv1 : Bool) : Header :=
  { fin := true
    rsv1 := rsv1
    rsv2 := false
    rsv3 := false
    opcode := opcode.code % 2 ^ 4
    masked := maskingKey.isSome
    payloadLen := if payload.length < 126 then payload.length else if payload.length ≤ 0xFFFF then 126 else 127 }

/-- RSV1 is set on data frames of sessions with permessage-deflate only. -/
def Rsv1Allowed (active : Bool) (opcode : Opcode) (rsv1 : Bool) : Prop :=
  rsv1 = true → active = true ∧ opcode.code % 2 ^ 4 < 0x8

/-! ### One frame in front of the parser -/

section

variable {opcode : Opcode} {payload rest : Bytes} {maskingKey : Option UInt32} {rsv1 active : Bool}

theorem length_keyBytes (key : UInt32) : (keyBytes key).length = 4 := by rw [keyBytes, List.length_map, List.length_range]

theorem length_maskPayload (key payload : Bytes) : (maskPayload key payload).length = payload.length :=
  List.length_mapIdx

theorem unmask_maskPayload (key payload : Bytes) : unmask true key (maskPayload key payload) = payload := by
  rw [unmask, if_pos rfl, maskPayload]
  refine List.ext_getElem (by simp) fun i _ _ => ?_
  rw [List.getElem_mapIdx, List.getElem_mapIdx, UInt8.xor_assoc, UInt8.xor_self, UInt8.xor_zero]

theorem second_bits : ∀ masked : Bool, ∀ k < 128,
    ((if masked then 0x80 else 0x00 : UInt8) ||| UInt8.ofNat k).toNat.testBit 7 = masked ∧
      ((if masked then 0x80 else 0x00 : UInt8) ||| UInt8.ofNat k).toNat % 2 ^ 7 = k := by
  decide

/-- The length is read back, together with the bit that tells whether there is a key. -/
theorem lengthField_read (masked : Bool) {len : ℕ} (h : len < 2 ^ 64) (rest : Bytes) :
    ∃ b cur, lengthField masked len = b :: cur ∧ b.toNat.testBit 7 = masked ∧
      b.toNat % 2 ^ 7 = (if len < 126 then len else if len ≤ 0xFFFF then 126 else 127) ∧
      readLength (b.toNat % 2 ^ 7) (cur ++ rest) = some (len, rest) := by
  by_cases hlt : len < 126
  · obtain ⟨h1, h2⟩ := second_bits masked len (by omega)
    simp only [lengthField, if_pos hlt]
    refine ⟨_, [], rfl, h1, h2, ?_⟩
    rw [h2, readLength, if_neg (by omega), if_neg (by omega)]
    rfl
  · simp only [lengthField, if_neg hlt]
    by_cases hle : len ≤ 0xFFFF
    · obtain ⟨h1, h2⟩ := second_bits masked 126 (by omega)
      simp only [if_pos hle]
      refine ⟨_, _, rfl, h1, h2, ?_⟩
      rw [show (126 : UInt8) = UInt8.ofNat 126 from rfl, h2]
      exact tryReadBe_write 2 len (by omega) rest
    · obtain ⟨h1, h2⟩ := second_bits masked 127 (by omega)
      simp only [if_neg hle]
      refine ⟨_, _, rfl, h1, h2, ?_⟩
      rw [show (127 : UInt8) = UInt8.ofNat 127 from rfl, h2]
      exact tryReadBe_write 8 len h rest

theorem firstByte_bits (code : ℕ) (rsv1 : Bool) (b : UInt8) :
    Header.ofFields (0x80 ||| (UInt8.ofNat code &&& 0x0F) ||| if rsv1 then 0x40 else 0) b =
      { fin := true
        rsv1 := rsv1
        rsv2 := false
        rsv3 := false
        opcode := code % 2 ^ 4
        masked := b.toNat.testBit 7
        payloadLen := b.toNat % 2 ^ 7 } := by
  have hbit (k : ℕ) : (0x80 ||| (UInt8.ofNat code &&& 0x0F) ||| if rsv1 then 0x40 else 0 : UInt8).toNat.testBit k =
      (Nat.testBit 0x80 k || ((UInt8.ofNat code).toNat.testBit k && Nat.testBit 0x0F k) ||
        (if rsv1 then 0x40 else 0 : UInt8).toNat.testBit k) := by
    rw [UInt8.toNat_or, UInt8.toNat_or, UInt8.toNat_and, Nat.testBit_or, Nat.testBit_or, Nat.testBit_and]
    rfl
  have hlow : ∀ k, 4 ≤ k → k < 8 → Nat.testBit 0x0F k = false := by decide
  unfold Header.ofFields
  rw [firstByte_opcode, hbit 4, hbit 5, hbit 6, hbit 7, hlow 4, hlow 5, hlow 6, hlow 7]
  · simp only [Bool.and_false, Bool.or_false]
    cases rsv1 <;> rfl
  all_goals decide

/-- The key and the payload are read back. -/
theorem readPayload_build (hdr : Header) (hmask : hdr.masked = maskingKey.isSome)
    (hlen : payload.length ≤ maxPayloadLength) :
    readPayload hdr payload.length (keyAndPayload maskingKey payload ++ rest) = .frame hdr payload rest := by
  rw [readPayload, if_neg (by omega), hmask]
  cases maskingKey with
  | none =>
      simp only [keyAndPayload, Option.isSome_none, readMaskKey, Bool.false_eq_true, if_false, tryReadBytes_self, unmask]
  | some key =>
      have hkey : readMaskKey true (keyBytes key ++ (maskPayload (keyBytes key) payload ++ rest)) =
          some (keyBytes key, maskPayload (keyBytes key) payload ++ rest) := by
        rw [readMaskKey, if_pos rfl, ← length_keyBytes key, tryReadBytes_self]
      have hpay : tryReadBytes payload.length (maskPayload (keyBytes key) payload ++ rest) =
          some (maskPayload (keyBytes key) payload, rest) := by
        rw [← length_maskPayload (keyBytes key) payload, tryReadBytes_self]
      simp only [keyAndPayload, Option.isSome_some, List.append_assoc, hkey, hpay, unmask_maskPayload]

/-- **One frame is read back**, and the parser stops right behind it. -/
theorem parseFrame_buildFrame (hlen : payload.length ≤ maxPayloadLength) (hrsv1 : Rsv1Allowed active opcode rsv1) :
    parseFrame active (buildFrameWith opcode payload maskingKey rsv1 ++ rest) =
      .frame (headerOf opcode payload maskingKey rsv1) payload rest := by
  have hlt : payload.length < 2 ^ 64 := by
    rw [maxPayloadLength] at hlen
    omega
  obtain ⟨b, cur, h1, h2, h3, h4⟩ := lengthField_read maskingKey.isSome hlt (keyAndPayload maskingKey payload ++ rest)
  have hdr := firstByte_bits opcode.code rsv1 b
  rw [h2, h3] at hdr
  rw [h3] at h4
  simp only [buildFrameWith, h1, List.cons_append, List.append_assoc]
  show (Header.ofShifts _ b).parse active (cur ++ (keyAndPayload maskingKey payload ++ rest)) = _
  rw [Header.ofShifts_eq, hdr]
  have hguard : (rsv1 && (!active || (headerOf opcode payload maskingKey rsv1).isControl)) = false := by
    cases hr : rsv1 with
    | false => rfl
    | true =>
        obtain ⟨ha, hc⟩ := hrsv1 hr
        have hctrl : (headerOf opcode payload maskingKey true).isControl = false := decide_eq_false (by
          show ¬ 0x8 ≤ opcode.code % 2 ^ 4
          omega)
        rw [ha, hctrl]
        rfl
  show (headerOf opcode payload maskingKey rsv1).parse active _ = _
  have hrsv : ¬ ((headerOf opcode payload maskingKey rsv1).rsv2 || (headerOf opcode payload maskingKey rsv1).rsv3) = true :=
    Bool.false_ne_true
  rw [Header.parse, if_neg hrsv, show (headerOf opcode payload maskingKey rsv1).rsv1 = rsv1 from rfl,
    if_neg (ne_true_of_eq_false hguard),
    show readLength (headerOf opcode payload maskingKey rsv1).payloadLen _ = _ from h4]
  exact readPayload_build _ rfl hlen

/-- A frame that is not complete is waited for. -/
theorem parseFrame_waits (hlen : payload.length ≤ maxPayloadLength) (hrsv1 : Rsv1Allowed active opcode rsv1)
    {kept more : Bytes} (h : kept ++ more = buildFrameWith opcode payload maskingKey rsv1) (hmore : more ≠ []) :
    parseFrame active kept = .wait := by
  by_contra hw
  have hwhole := parseFrame_steady.append more hw
  have hread := @parseFrame_buildFrame _ _ [] maskingKey _ _ hlen hrsv1
  rw [List.append_nil, ← h, hwhole] at hread
  cases hp : parseFrame active kept with
  | wait => exact hw hp
  | refuse status reason =>
      rw [hp] at hread
      cases hread
  | frame hdr payload' rest' =>
      rw [hp] at hread
      have hnil : rest' ++ more = [] := (Parsed.frame.inj hread).2.2
      exact hmore (List.append_eq_nil_iff.mp hnil).2

end

/-! ### The frame on its way through the events -/

section

variable {D : Type} (z : Inflater D) (s : Session D) {opcode : Opcode} {payload : Bytes} {maskingKey : Option UInt32}
  {rsv1 : Bool}

/-- The session behind a frame, and whether `dispatch` has accepted it. -/
def Session.dispatched (hdr : Header) (payload : Bytes) : Session D × Bool :=
  let r := s.dispatch z hdr (.ofCode hdr.opcode) payload
  (r.1.emit (.dispatched hdr payload r.2), r.2)

/-- A frame is dispatched once. -/
theorem Session.calls_dispatched (hdr : Header) (payload : Bytes) :
    calls (s.dispatched z hdr payload).1.log =
      calls s.log ++ [.dispatched hdr payload (s.dispatched z hdr payload).2] := by
  obtain ⟨es, h1, h2⟩ := s.dispatch_log z hdr (.ofCode hdr.opcode) payload
  have hes : calls es = [] := by
    refine List.filter_eq_nil_iff.mpr fun e he => ?_
    split at h2
    · cases h2.1 <;> simp only [List.mem_singleton, List.not_mem_nil] at he <;> subst he <;> exact Bool.false_ne_true
    · cases h2 <;> simp only [List.mem_cons, List.not_mem_nil, or_false] at he
      · subst he
        exact Bool.false_ne_true
      · rcases he with rfl | rfl <;> exact Bool.false_ne_true
  show calls ((s.dispatch z hdr (.ofCode hdr.opcode) payload).1.log ++ [_]) = _
  rw [h1, calls, List.filter_append, List.filter_append]
  show calls s.log ++ calls es ++ [_] = _
  rw [hes, List.append_nil]
  rfl

variable {z s}

/-- What is done with a frame and the bytes `b` that have come with its end. -/
def afterFrame (z : Inflater D) (r : Session D × Bool) (b : Bytes) : Reader D :=
  if r.2 then onReadable z (r.1, []) b else (r.1, b)

/-- The event that completes a frame. -/
theorem onReadable_buildFrame (hrun : s.running = true) (hlen : payload.length ≤ maxPayloadLength)
    (hrsv1 : Rsv1Allowed s.deflateConfig.active opcode rsv1) {kept data b : Bytes}
    (h : kept ++ data = buildFrameWith opcode payload maskingKey rsv1 ++ b) :
    onReadable z (s, kept) data = afterFrame z (s.dispatched z (headerOf opcode payload maskingKey rsv1) payload) b := by
  have hparse := @parseFrame_buildFrame _ _ b maskingKey _ _ hlen hrsv1
  have hturn : turn z parseFrame (s, kept ++ data) =
      (((s.dispatched z (headerOf opcode payload maskingKey rsv1) payload).1, b),
        (s.dispatched z (headerOf opcode payload maskingKey rsv1) payload).2) := by
    rw [h, turn, hparse]
    rfl
  have hran := onReadable_ran (z := z) (c := (s, kept)) hrun data
  have hwait : parseFrame s.deflateConfig.active (kept ++ data) ≠ .wait := by
    rw [h, hparse]
    intro hw
    cases hw
  unfold afterFrame
  cases hgo : (s.dispatched z (headerOf opcode payload maskingKey rsv1) payload).2 with
  | true =>
      have hgo' : (turn z parseFrame (s, kept ++ data)).2 = true := by rw [hturn, hgo]
      have hrun' := turn_go_running hgo'
      rw [hturn] at hrun'
      refine hran.unique (.go hrun hgo' ?_)
      rw [hturn]
      exact onReadable_ran (c := (_, [])) (hrun'.trans hrun) b
  | false =>
      have hgo' : (turn z parseFrame (s, kept ++ data)).2 = false := by rw [hturn, hgo]
      have hfail := hran.unique (.fail hrun hwait hgo')
      rw [hfail, hturn]
      rfl

/-- An event before that. -/
theorem onReadable_prefix (hrun : s.running = true) (hlen : payload.length ≤ maxPayloadLength)
    (hrsv1 : Rsv1Allowed s.deflateConfig.active opcode rsv1) {kept data more : Bytes}
    (h : kept ++ data ++ more = buildFrameWith opcode payload maskingKey rsv1) (hmore : more ≠ []) :
    onReadable z (s, kept) data = (s, kept ++ data) :=
  (onReadable_ran (c := (s, kept)) hrun data).unique (.wait hrun (parseFrame_waits hlen hrsv1 h hmore))

/-- The events up to the one that completes the frame, with the bytes `kept` of it read before. -/
theorem onReadables_buildFrame (hrun : s.running = true) (hlen : payload.length ≤ maxPayloadLength)
    (hrsv1 : Rsv1Allowed s.deflateConfig.active opcode rsv1) {kept rest : Bytes} {events : List Bytes}
    (hkept : kept.length < (buildFrameWith opcode payload maskingKey rsv1).length)
    (h : kept ++ events.flatten = buildFrameWith opcode payload maskingKey rsv1 ++ rest) :
    ∃ before a b after, events = before ++ (a ++ b) :: after ∧
      kept ++ before.flatten ++ a = buildFrameWith opcode payload maskingKey rsv1 ∧ rest = b ++ after.flatten ∧
      onReadables z (s, kept) before = (s, kept ++ before.flatten) ∧
      onReadables z (s, kept) events =
        onReadables z (afterFrame z (s.dispatched z (headerOf opcode payload maskingKey rsv1) payload) b) after := by
  induction events generalizing kept with
  | nil =>
      have hl := congrArg List.length h
      rw [List.flatten_nil, List.append_nil, List.length_append] at hl
      omega
  | cons data events ih =>
      rw [List.flatten_cons, ← List.append_assoc] at h
      by_cases hlt : (kept ++ data).length < (buildFrameWith opcode payload maskingKey rsv1).length
      · obtain ⟨more, h1, -⟩ := List.append_eq_append_iff.mp h |>.resolve_right (by
          rintro ⟨b, h1, -⟩
          rw [h1, List.length_append] at hlt
          omega)
        have hmore : more ≠ [] := by
          rintro rfl
          rw [h1, List.append_nil] at hlt
          exact lt_irrefl _ hlt
        have hdata := onReadable_prefix (z := z) hrun hlen hrsv1 h1.symm hmore
        obtain ⟨before, a, b, after, h3, h4, h5, h6, h7⟩ := ih hlt h
        refine ⟨data :: before, a, b, after, by rw [h3]; rfl, ?_, h5, ?_, ?_⟩
        · rw [List.flatten_cons, ← List.append_assoc, h4]
        · rw [onReadables_cons, hdata, h6, List.flatten_cons, List.append_assoc]
        · rw [onReadables_cons, hdata, h7]
      · -- The frame ends within this event.
        have hpre : buildFrameWith opcode payload maskingKey rsv1 <+: kept ++ data :=
          List.prefix_of_prefix_length_le ⟨rest, h.symm⟩ ⟨events.flatten, rfl⟩ (by omega)
        obtain ⟨b, hb⟩ := hpre
        obtain ⟨a, ha⟩ : kept <+: buildFrameWith opcode payload maskingKey rsv1 :=
          List.prefix_of_prefix_length_le ⟨data, rfl⟩ ⟨b, hb⟩ hkept.le
        have hdata : data = a ++ b := by
          rw [← ha, List.append_assoc] at hb
          exact (List.append_cancel_left hb).symm
        refine ⟨[], a, b, events, by rw [hdata]; rfl, ?_, ?_, ?_, ?_⟩
        · rw [List.flatten_nil, List.append_nil, ha]
        · rw [← hb, List.append_assoc] at h
          exact (List.append_cancel_left h).symm
        · rw [List.flatten_nil, List.append_nil]
          rfl
        · rw [onReadables_cons, onReadable_buildFrame hrun hlen hrsv1 hb.symm]

/-- **Round trip.**  The frame is dispatched once, when its last byte has come: with FIN, with its opcode and
its payload.  What follows is done as if the bytes `b ++ after.flatten` behind the frame had come alone: to a session
that has refused the frame, `b` has come without an event. -/
theorem buildFrame_dispatched (s : Session D) (hrun : s.running = true) (opcode : Opcode) (payload : Bytes)
    (hlen : payload.length ≤ maxPayloadLength) (maskingKey : Option UInt32) (rsv1 : Bool)
    (hrsv1 : Rsv1Allowed s.deflateConfig.active opcode rsv1) (rest : Bytes) (events : List Bytes)
    (h : events.flatten = buildFrameWith opcode payload maskingKey rsv1 ++ rest) :
    ∃ hdr before a b after, hdr.fin = true ∧ hdr.rsv1 = rsv1 ∧ hdr.opcode = opcode.code % 2 ^ 4 ∧
      events = before ++ (a ++ b) :: after ∧
      before.flatten ++ a = buildFrameWith opcode payload maskingKey rsv1 ∧ rest = b ++ after.flatten ∧
      onReadables z (s, []) before = (s, before.flatten) ∧
      calls (s.dispatched z hdr payload).1.log =
        calls s.log ++ [.dispatched hdr payload (s.dispatched z hdr payload).2] ∧
      onReadables z (s, []) events =
        if (s.dispatched z hdr payload).2 then onReadables z ((s.dispatched z hdr payload).1, []) (b :: after)
        else onReadables z ((s.dispatched z hdr payload).1, b) after := by
  obtain ⟨before, a, b, after, h1, h2, h3, h4, h5⟩ :=
    @onReadables_buildFrame _ z _ _ _ _ _ hrun hlen hrsv1 [] _ _ (Nat.succ_pos _) h
  refine ⟨headerOf opcode payload maskingKey rsv1, before, a, b, after, rfl, rfl, rfl, h1, h2, h3, h4,
    s.calls_dispatched z _ _, ?_⟩
  rw [h5, afterFrame]
  split <;> rfl

end

/-- A masked binary frame in two pieces, with the first byte of a next frame behind it. -/
theorem buildFrame_dispatched_sample :
    ∃ hdr before a b after, hdr.fin = true ∧ hdr.rsv1 = false ∧ hdr.opcode = Opcode.binary.code % 2 ^ 4 ∧
      [[0x82, 0x81, 0x04, 0x03], [0x02, 0x01, 0x05, 0x89]] = before ++ (a ++ b) :: after ∧
      before.flatten ++ a = buildFrameWith .binary [1] (some 0x01020304) false ∧ [0x89] = b ++ after.flatten ∧
      onReadables noInflater (Session.start ⟨false, false⟩ none, []) before =
        (Session.start ⟨false, false⟩ none, before.flatten) ∧
      calls ((Session.start ⟨false, false⟩ none).dispatched noInflater hdr [1]).1.log =
        calls (Session.start (D := Unit) ⟨false, false⟩ none).log ++
          [.dispatched hdr [1] ((Session.start ⟨false, false⟩ none).dispatched noInflater hdr [1]).2] ∧
      onReadables noInflater (Session.start ⟨false, false⟩ none, []) [[0x82, 0x81, 0x04, 0x03], [0x02, 0x01, 0x05, 0x89]] =
        if ((Session.start ⟨false, false⟩ none).dispatched noInflater hdr [1]).2 then
          onReadables noInflater (((Session.start ⟨false, false⟩ none).dispatched noInflater hdr [1]).1, []) (b :: after)
        else onReadables noInflater (((Session.start ⟨false, false⟩ none).dispatched noInflater hdr [1]).1, b) after :=
  buildFrame_dispatched (Session.start ⟨false, false⟩ none) rfl .binary [1] (by decide) (some 0x01020304) false nofun
    [0x89] [[0x82, 0x81, 0x04, 0x03], [0x02, 0x01, 0x05, 0x89]] (by decide)

/-- A text frame with RSV1, in a session without permessage-deflate: it is refused, and nothing is dispatched. -/
theorem rsv1_refused :
    calls (onReadables noInflater (Session.start ⟨false, false⟩ none, []) [buildFrameWith .text [] none true]).1.log =
      [.refused protocolError rsv1Unexpected] := by
  decide

end NeForce.Websocket
