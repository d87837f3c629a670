import NeForce.Websocket

/-! # Parsing WebSocket frames

One frame from the front of some bytes, in the two ways of a session: `read_frame` asks the socket for exactly the
bytes it needs (`receiveFrame`), `try_parse_frames` looks at the front of `read_buffer_` (`parseFrame`).

`parseFrame` lacks the checks of `receiveFrame` on control frames; elsewhere the two are the same
(`receiveFrame_eq`, `receiveFrame_odd`).  Neither looks behind the frame it gives (`Steady`). -/

namespace NeForce.Websocket

open Http2 (tryReadBytes tryReadBe)

/-! ### Parsing one frame -/

/-- What a parser finds in front of it. -/
inductive Parsed where
  | wait
  | refuse (status : ℕ) (reason : Bytes)
  | frame (hdr : Header) (payload rest : Bytes)
deriving DecidableEq

def Header.isControl (hdr : Header) : Bool := 0x8 ≤ hdr.opcode

/-- The bit fields of `websocket_frame_header` over two bytes of the socket, lowest bits first. -/
def Header.ofFields (b0 b1 : UInt8) : Header :=
  { opcode := b0.toNat % 2 ^ 4
    rsv3 := b0.toNat.testBit 4
    rsv2 := b0.toNat.testBit 5
    rsv1 := b0.toNat.testBit 6
    fin := b0.toNat.testBit 7
    payloadLen := b1.toNat % 2 ^ 7
    masked := b1.toNat.testBit 7 }

/-- The header as `try_parse_frames` takes it from two bytes. -/
def Header.ofShifts (b0 b1 : UInt8) : Header :=
  { opcode := b0.toNat &&& 0x0F
    rsv3 := b0.toNat >>> 4 &&& 0x01 ≠ 0
    rsv2 := b0.toNat >>> 5 &&& 0x01 ≠ 0
    rsv1 := b0.toNat >>> 6 &&& 0x01 ≠ 0
    fin := b0.toNat >>> 7 ≠ 0
    payloadLen := b1.toNat &&& 0x7F
    masked := b1.toNat >>> 7 ≠ 0 }

/-- The length of the payload, from the header or from the bytes after it. -/
def readLength (payloadLen : ℕ) (cur : Bytes) : Option (ℕ × Bytes) :=
  if payloadLen = 126 then tryReadBe 2 cur
  else if payloadLen = 127 then tryReadBe 8 cur
  else some (payloadLen, cur)

/-- The masking key, if there is one. -/
def readMaskKey (masked : Bool) (cur : Bytes) : Option (Bytes × Bytes) :=
  if masked then tryReadBytes 4 cur else some ([], cur)

def unmask (masked : Bool) (key payload : Bytes) : Bytes :=
  if masked then payload.mapIdx fun i b => b ^^^ key.getD (i % 4) 0 else payload

def maxPayloadLength : ℕ := 64 * 1024 * 1024

def reservedBits : Bytes := ascii "Reserved bits set"
def rsv1Unexpected : Bytes := ascii "RSV1 set without negotiation"
def fragmentedControl : Bytes := ascii "Fragmented control frame"
def controlTooLarge : Bytes := ascii "Control frame payload too large"
def payloadTooLarge : Bytes := ascii "Payload exceeds limit"

/-- The masking key and the payload, once the length is known. -/
def readPayload (hdr : Header) (len : ℕ) (cur : Bytes) : Parsed :=
  if maxPayloadLength < len then .refuse messageTooBig payloadTooLarge
  else
    match readMaskKey hdr.masked cur with
    | none => .wait
    | some (key, cur) =>
        match tryReadBytes len cur with
        | none => .wait
        | some (payload, cur) => .frame hdr (unmask hdr.masked key payload) cur

/-- The checks of `try_parse_frames`. -/
def Header.parse (active : Bool) (hdr : Header) (cur : Bytes) : Parsed :=
  if hdr.rsv2 || hdr.rsv3 then .refuse protocolError reservedBits
  else if hdr.rsv1 && (!active || hdr.isControl) then .refuse protocolError rsv1Unexpected
  else
    match readLength hdr.payloadLen cur with
    | none => .wait
    | some (len, cur) => readPayload hdr len cur

/-- The checks of `read_frame`. -/
def Header.receive (active : Bool) (hdr : Header) (cur : Bytes) : Parsed :=
  if hdr.rsv2 || hdr.rsv3 then .refuse protocolError reservedBits
  else if hdr.rsv1 && (!active || hdr.isControl) then .refuse protocolError rsv1Unexpected
  else if hdr.isControl && !hdr.fin then .refuse protocolError fragmentedControl
  else
    match readLength hdr.payloadLen cur with
    | none => .wait
    | some (len, cur) =>
        if hdr.isControl && 125 < len then .refuse protocolError controlTooLarge else readPayload hdr len cur

/-- `try_parse_frames` up to the call of `dispatch`, over `read_buffer_`. -/
def parseFrame (active : Bool) : Bytes → Parsed
  | b0 :: b1 :: cur => (Header.ofShifts b0 b1).parse active cur
  | _ => .wait

/-- `read_frame` up to the call of `dispatch`, over the bytes that the socket still has to give. -/
def receiveFrame (active : Bool) : Bytes → Parsed
  | b0 :: b1 :: cur => (Header.ofFields b0 b1).receive active cur
  | _ => .wait

/-- The header is acceptable but for being that of a fragmented control frame, or of one above 125 bytes. -/
def Header.OddControl (hdr : Header) (cur : Bytes) : Prop :=
  hdr.rsv1 = false ∧ hdr.rsv2 = false ∧ hdr.rsv3 = false ∧ hdr.isControl = true ∧
    (hdr.fin = false ∨ ∃ r ∈ readLength hdr.payloadLen cur, 125 < r.1)

/-- In front is such a header. -/
def OddControl : Bytes → Prop
  | b0 :: b1 :: cur => (Header.ofFields b0 b1).OddControl cur
  | _ => False

/-! ### The two parsers compared -/

theorem testBit_eq_decide (n k : ℕ) : n.testBit k = decide (n >>> k &&& 0x01 ≠ 0) := by
  rw [Nat.testBit, Nat.and_comm, Bool.eq_iff_iff, bne_iff_ne, decide_eq_true_iff]

theorem Header.ofShifts_eq (b0 b1 : UInt8) : Header.ofShifts b0 b1 = Header.ofFields b0 b1 := by
  have hand (n k : ℕ) : n &&& (2 ^ k - 1) = n % 2 ^ k := Nat.and_two_pow_sub_one_eq_mod n k
  have htop (b : UInt8) : b.toNat >>> 7 &&& 0x01 = b.toNat >>> 7 := by
    have hb := b.toNat_lt
    have hlt : b.toNat >>> 7 < 2 := by
      rw [Nat.shiftRight_eq_div_pow]
      omega
    exact (hand _ 1).trans (Nat.mod_eq_of_lt hlt)
  unfold Header.ofShifts Header.ofFields
  simp only [testBit_eq_decide, htop]
  rw [← hand _ 4, ← hand _ 7]
  rfl

section

variable {active : Bool} {hdr : Header} {cur bs : Bytes}

theorem Header.receive_eq (h : ¬ hdr.OddControl cur) : hdr.receive active cur = hdr.parse active cur := by
  unfold Header.receive Header.parse
  split
  · rfl
  next hr =>
    split
    · rfl
    next h1 =>
      simp only [Bool.or_eq_true, not_or, Bool.not_eq_true] at hr
      have hrsv1 : hdr.isControl = true → hdr.rsv1 = false := by
        intro hc
        simpa [hc] using h1
      have hodd (hc : hdr.isControl = true) : ¬ (hdr.fin = false ∨ ∃ r ∈ readLength hdr.payloadLen cur, 125 < r.1) :=
        fun hbad => h ⟨hrsv1 hc, hr.1, hr.2, hc, hbad⟩
      rw [if_neg]
      · cases hl : readLength hdr.payloadLen cur with
        | none => rfl
        | some r =>
            refine if_neg ?_
            rintro hbad
            simp only [Bool.and_eq_true, decide_eq_true_eq] at hbad
            exact hodd hbad.1 (.inr ⟨r, hl, hbad.2⟩)
      · intro hbad
        simp only [Bool.and_eq_true, Bool.not_eq_true'] at hbad
        exact hodd hbad.1 (.inl hbad.2)

theorem Header.receive_odd (active : Bool) (h : hdr.OddControl cur) :
    hdr.receive active cur = .refuse protocolError fragmentedControl ∨
      hdr.receive active cur = .refuse protocolError controlTooLarge := by
  obtain ⟨h1, h2, h3, hc, h⟩ := h
  unfold Header.receive
  simp only [h1, h2, h3, hc, Bool.or_false, Bool.false_eq_true, if_false, Bool.false_and, Bool.true_and]
  rcases h with hf | ⟨r, hr, hlen⟩
  · left
    rw [hf]
    rfl
  · cases hf : hdr.fin
    · exact .inl rfl
    · right
      rw [Option.mem_def.mp hr]
      simp [hlen]

/-- Where no control frame is odd the two parsers are the same. -/
theorem receiveFrame_eq (h : ¬ OddControl bs) : receiveFrame active bs = parseFrame active bs := by
  match bs with
  | b0 :: b1 :: cur =>
      show (Header.ofFields b0 b1).receive active cur = (Header.ofShifts b0 b1).parse active cur
      rw [Header.ofShifts_eq]
      exact Header.receive_eq h
  | [_] => rfl
  | [] => rfl

/-- An odd control frame is refused by the blocking parser as soon as its header is there. -/
theorem receiveFrame_odd (active : Bool) (h : OddControl bs) :
    receiveFrame active bs = .refuse protocolError fragmentedControl ∨
      receiveFrame active bs = .refuse protocolError controlTooLarge := by
  match bs with
  | b0 :: b1 :: cur => exact Header.receive_odd active h
  | [_] => exact h.elim
  | [] => exact h.elim

theorem readPayload_refuse {len status : ℕ} {reason : Bytes} (h : readPayload hdr len cur = .refuse status reason) :
    reason = payloadTooLarge := by
  unfold readPayload at h
  split at h
  · cases h
    rfl
  · repeat' split at h
    all_goals cases h

/-- The event-driven parser never gives the reasons for odd control frames. -/
theorem parseFrame_refuse {status : ℕ} {reason : Bytes} (h : parseFrame active bs = .refuse status reason) :
    reason ≠ fragmentedControl ∧ reason ≠ controlTooLarge := by
  have h' : reason = reservedBits ∨ reason = rsv1Unexpected ∨ reason = payloadTooLarge := by
    unfold parseFrame at h
    split at h
    · unfold Header.parse at h
      split at h
      · cases h
        exact .inl rfl
      · split at h
        · cases h
          exact .inr (.inl rfl)
        · split at h
          · cases h
          · exact .inr (.inr (readPayload_refuse h))
    · cases h
  rcases h' with rfl | rfl | rfl <;> exact ⟨by decide, by decide⟩

end

/-! ### More bytes behind -/

/-- The same with more bytes behind. -/
def Parsed.append (more : Bytes) : Parsed → Parsed
  | .frame hdr payload rest => .frame hdr payload (rest ++ more)
  | p => p

/-- A parser that decides on the bytes in front alone, and whose frames have at least one byte. -/
structure Steady (parse : Bool → Bytes → Parsed) : Prop where
  append {active : Bool} {bs : Bytes} (more : Bytes) :
    parse active bs ≠ .wait → parse active (bs ++ more) = (parse active bs).append more
  shrinks {active : Bool} {bs : Bytes} {hdr : Header} {payload rest : Bytes} :
    parse active bs = .frame hdr payload rest → rest.length < bs.length

section

variable {n len : ℕ} {active masked : Bool} {hdr : Header} {cur rest key payload : Bytes}

theorem tryReadBytes_append (more : Bytes) (h : tryReadBytes n cur = some (key, rest)) :
    tryReadBytes n (cur ++ more) = some (key, rest ++ more) ∧ rest.length ≤ cur.length := by
  unfold tryReadBytes at h ⊢
  split at h
  · cases h
  · cases h
    rw [List.length_append, if_neg (by omega), List.take_append_of_le_length (by omega),
      List.drop_append_of_le_length (by omega), List.length_drop]
    exact ⟨rfl, by omega⟩

theorem tryReadBe_append (more : Bytes) (h : tryReadBe n cur = some (len, rest)) :
    tryReadBe n (cur ++ more) = some (len, rest ++ more) ∧ rest.length ≤ cur.length := by
  unfold tryReadBe at h ⊢
  obtain ⟨⟨bytes, rest'⟩, hr, he⟩ := Option.map_eq_some_iff.mp h
  obtain ⟨h1, h2⟩ := tryReadBytes_append more hr
  cases he
  exact ⟨by rw [h1]; rfl, h2⟩

theorem readLength_append (more : Bytes) (h : readLength n cur = some (len, rest)) :
    readLength n (cur ++ more) = some (len, rest ++ more) ∧ rest.length ≤ cur.length := by
  unfold readLength at h ⊢
  split
  · next he =>
    rw [if_pos he] at h
    exact tryReadBe_append more h
  next hne =>
    rw [if_neg hne] at h
    split
    · next he =>
      rw [if_pos he] at h
      exact tryReadBe_append more h
    next hne =>
      rw [if_neg hne] at h
      cases h
      exact ⟨rfl, le_rfl⟩

theorem readMaskKey_append (more : Bytes) (h : readMaskKey masked cur = some (key, rest)) :
    readMaskKey masked (cur ++ more) = some (key, rest ++ more) ∧ rest.length ≤ cur.length := by
  unfold readMaskKey at h ⊢
  cases masked
  · cases h
    exact ⟨rfl, le_rfl⟩
  · exact tryReadBytes_append more h

theorem readPayload_append (more : Bytes) (h : readPayload hdr len cur ≠ .wait) :
    readPayload hdr len (cur ++ more) = (readPayload hdr len cur).append more := by
  unfold readPayload at h ⊢
  split
  · rfl
  next hlen =>
    rw [if_neg hlen] at h
    cases hk : readMaskKey hdr.masked cur with
    | none => simp [hk] at h
    | some r =>
        obtain ⟨key, cur'⟩ := r
        rw [(readMaskKey_append more hk).1]
        cases hp : tryReadBytes len cur' with
        | none => simp [hk, hp] at h
        | some r =>
            obtain ⟨payload, rest⟩ := r
            simp only [(tryReadBytes_append more hp).1]
            rw [hp]
            rfl

theorem readPayload_frame {hdr' : Header} (h : readPayload hdr len cur = .frame hdr' payload rest) :
    rest.length ≤ cur.length := by
  unfold readPayload at h
  split at h
  · cases h
  · split at h
    · cases h
    next hk =>
      split at h
      · cases h
      next hp =>
        cases h
        exact (tryReadBytes_append [] hp).2.trans (readMaskKey_append [] hk).2

theorem Header.parse_append (more : Bytes) (h : hdr.parse active cur ≠ .wait) :
    hdr.parse active (cur ++ more) = (hdr.parse active cur).append more := by
  unfold Header.parse at h ⊢
  split
  · rfl
  next h1 =>
    rw [if_neg h1] at h
    split
    · rfl
    next h2 =>
      rw [if_neg h2] at h
      cases hl : readLength hdr.payloadLen cur with
      | none => simp [hl] at h
      | some r =>
          rw [(readLength_append more hl).1]
          rw [hl] at h
          exact readPayload_append more h

theorem Header.receive_append (more : Bytes) (h : hdr.receive active cur ≠ .wait) :
    hdr.receive active (cur ++ more) = (hdr.receive active cur).append more := by
  unfold Header.receive at h ⊢
  split
  · rfl
  next h1 =>
    rw [if_neg h1] at h
    split
    · rfl
    next h2 =>
      rw [if_neg h2] at h
      split
      · rfl
      next h3 =>
        rw [if_neg h3] at h
        cases hl : readLength hdr.payloadLen cur with
        | none => simp [hl] at h
        | some r =>
            rw [(readLength_append more hl).1]
            simp only [hl] at h ⊢
            split
            · rfl
            next h4 =>
              rw [if_neg h4] at h
              exact readPayload_append more h

theorem Header.parse_frame {hdr' : Header} (h : hdr.parse active cur = .frame hdr' payload rest) :
    rest.length ≤ cur.length := by
  unfold Header.parse at h
  split at h
  · cases h
  · split at h
    · cases h
    · split at h
      · cases h
      next hl => exact (readPayload_frame h).trans (readLength_append [] hl).2

theorem Header.receive_frame {hdr' : Header} (h : hdr.receive active cur = .frame hdr' payload rest) :
    rest.length ≤ cur.length := by
  by_cases hodd : hdr.OddControl cur
  · rcases Header.receive_odd active hodd with h' | h' <;> rw [h'] at h <;> cases h
  · rw [Header.receive_eq hodd] at h
    exact Header.parse_frame h

theorem parseFrame_steady : Steady parseFrame where
  append {active bs} more h := by
    match bs with
    | b0 :: b1 :: cur => exact Header.parse_append more h
    | [_] => exact absurd rfl h
    | [] => exact absurd rfl h
  shrinks {active bs _ _ _} h := by
    match bs with
    | b0 :: b1 :: cur =>
        have := Header.parse_frame h
        simp only [List.length_cons]
        omega
    | [_] => cases h
    | [] => cases h

theorem receiveFrame_steady : Steady receiveFrame where
  append {active bs} more h := by
    match bs with
    | b0 :: b1 :: cur => exact Header.receive_append more h
    | [_] => exact absurd rfl h
    | [] => exact absurd rfl h
  shrinks {active bs _ _ _} h := by
    match bs with
    | b0 :: b1 :: cur =>
        have := Header.receive_frame h
        simp only [List.length_cons]
        omega
    | [_] => cases h
    | [] => cases h

end

end NeForce.Websocket
