import NeForce.Http2Push

/-! # What the frame handlers read

A handler gets a pointer and the length of the payload; `mem` is the memory behind the pointer, which goes on after the
payload.  A cursor takes its size from its constructor: the received length, or a number that the handler expects.  `Traced`
keeps the offsets that are read.

Where no handler reads past the payload the frame is handled as `Conn.handleFrame` says (`handleFrame_traced`), and
`reads_inside_iff` says when that is. -/

namespace NeForce.Http2

/-- A result, and the offsets that were read on the way. -/
structure Traced (α : Type) where
  reads : List ℕ
  result : α

namespace Traced

variable {α β : Type}

instance : Monad Traced where
  pure a := ⟨[], a⟩
  bind x f := ⟨x.reads ++ (f x.result).reads, (f x.result).result⟩

@[simp] theorem reads_pure (a : α) : (pure a : Traced α).reads = [] := rfl

@[simp] theorem result_pure (a : α) : (pure a : Traced α).result = a := rfl

@[simp] theorem reads_bind (x : Traced α) (f : α → Traced β) : (x >>= f).reads = x.reads ++ (f x.result).reads := rfl

@[simp] theorem result_bind (x : Traced α) (f : α → Traced β) : (x >>= f).result = (f x.result).result := rfl

/-- All reads are below a bound. -/
def Inside (x : Traced α) (len : ℕ) : Prop := ∀ o ∈ x.reads, o < len

theorem inside_pure (a : α) (len : ℕ) : (pure a : Traced α).Inside len := by simp [Inside]

theorem inside_bind {x : Traced α} {f : α → Traced β} {len : ℕ} :
    (x >>= f).Inside len ↔ x.Inside len ∧ (f x.result).Inside len := by
  simp only [Inside, reads_bind, List.forall_mem_append]

end Traced

/-! ### Cursors -/

/-- `byte_cursor` at the front of the payload. -/
structure Cursor where
  size : ℕ
  pos : ℕ := 0

/-- The `n` bytes from `pos` on. -/
def fetch (mem : ℕ → UInt8) (pos n : ℕ) : Traced Bytes :=
  ⟨(List.range n).map (pos + ·), (List.range n).map fun i => mem (pos + i)⟩

namespace Cursor

def remaining (cur : Cursor) : ℕ := cur.size - cur.pos

/-- `try_read_be16`, `try_read_be32` and `try_read_be64`. -/
def tryReadBe (mem : ℕ → UInt8) (n : ℕ) (cur : Cursor) : Traced (Option (ℕ × Cursor)) :=
  if cur.size < cur.pos + n then pure none
  else do
    let bytes ← fetch mem cur.pos n
    pure (some (readBe bytes, { cur with pos := cur.pos + n }))

def tryReadByte (mem : ℕ → UInt8) (cur : Cursor) : Traced (Option (UInt8 × Cursor)) :=
  if cur.size ≤ cur.pos then pure none
  else do
    let bytes ← fetch mem cur.pos 1
    pure (some (bytes.headD 0, { cur with pos := cur.pos + 1 }))

/-- `skip` does nothing where there are too few bytes. -/
def skip (count : ℕ) (cur : Cursor) : Cursor := if cur.size < cur.pos + count then cur else { cur with pos := cur.pos + count }

end Cursor

/-! ### The handlers -/

namespace Conn

variable (mem : ℕ → UInt8)

def readDataFrame (c : Conn) (calls : List Call) (flags : UInt8) (streamId len : ℕ) : Traced Conn :=
  if c.pending.lookup streamId = none then pure (c.handleDataFrame calls flags streamId [])
  else do
    let payload ← fetch mem 0 len
    pure (c.handleDataFrame calls flags streamId payload)

def readHeadersFrame (c : Conn) (calls : List Call) (flags : UInt8) (streamId len : ℕ) : Traced Conn :=
  if c.streams.lookup streamId = none ∧ c.localSettings.maxConcurrentStreams ≤ c.streams.keys.card then
    pure (c.handleHeadersFrame calls flags streamId [])
  else do
    let payload ← fetch mem 0 len
    pure (c.handleHeadersFrame calls flags streamId payload)

/-- The stream waits for CONTINUATION. -/
def Waits (c : Conn) (streamId : ℕ) : Prop := (c.pending.lookup streamId).any (·.waitingContinuation) = true

instance (c : Conn) (streamId : ℕ) : Decidable (c.Waits streamId) := inferInstanceAs (Decidable (_ = _))

def readContinuationFrame (c : Conn) (calls : List Call) (flags : UInt8) (streamId len : ℕ) : Traced Conn :=
  if ¬ c.Waits streamId then pure (c.handleContinuationFrame calls flags streamId [])
  else do
    let payload ← fetch mem 0 len
    pure (c.handleContinuationFrame calls flags streamId payload)

def readPushPromiseFrame (c : Conn) (len : ℕ) : Traced Conn := do
  match ← Cursor.tryReadBe mem 4 ⟨len, 0⟩ with
  | none => pure c
  | some (sid, cur) =>
      let promisedStreamId := sid &&& 0x7FFFFFFF
      let ps := (c.pending.lookup promisedStreamId).getD {}
      let fragment ← fetch mem 0 cur.remaining
      pure { c with
        pending := c.pending.insert promisedStreamId { ps with headerBlockFragment := ps.headerBlockFragment ++ fragment } }

/-- The weight goes to `stream_priorities_`, which is never read. -/
def readPriorityFrame (c : Conn) (len : ℕ) : Traced Conn := do
  let _ ← Cursor.tryReadByte mem (Cursor.skip 4 ⟨len, 0⟩)
  pure c

/-- `while (cur.remaining() >= 6)`, at most `n` times. -/
def readSettings : ℕ → Cursor → Traced (List (ℕ × ℕ))
  | 0, _ => pure []
  | n + 1, cur =>
      if 6 ≤ cur.remaining then do
        match ← cur.tryReadBe mem 2 with
        | none => pure []
        | some (id, cur) =>
            match ← cur.tryReadBe mem 4 with
            | none => pure []
            | some (value, cur) => do
                let entries ← readSettings n cur
                pure ((id, value) :: entries)
      else pure []

def readSettingsFrame (c : Conn) (flags : UInt8) (len : ℕ) : Traced Conn :=
  if hasFlag flags flagAck then pure c
  else do
    let entries ← readSettings mem len ⟨len, 0⟩
    let remoteSettings := c.remoteSettings.applyRemoteSettings entries
    pure { c with
      remoteSettings
      encoder := c.encoder.setMaxTableSize remoteSettings.headerTableSize
      decoder := c.decoder.setMaxTableSize remoteSettings.headerTableSize
      flowControl := c.flowControl.setInitialWindow remoteSettings.initialWindowSize
      output := c.output.writeFrame (.settings true []) }

/-- `byte_cursor cur(payload, 8)`, whatever the length is. -/
def readPingFrame (c : Conn) (flags : UInt8) : Traced Conn :=
  if hasFlag flags flagAck then pure c
  else do
    match ← Cursor.tryReadBe mem 8 ⟨8, 0⟩ with
    | none => pure c
    | some (data, _) => pure { c with output := c.output.writeFrame (.ping true data) }

/-- `byte_cursor cur(payload, 8)`, whatever the length is. -/
def readGoawayFrame (c : Conn) : Traced Conn := do
  match ← Cursor.tryReadBe mem 4 ⟨8, 0⟩ with
  | none => pure c
  | some (sid, _) => pure { c with lastStreamId := sid &&& 0x7FFFFFFF, output := c.output.closeConnection .noError }

/-- `byte_cursor cur(payload, 4)`, whatever the length is. -/
def readWindowUpdateFrame (c : Conn) (streamId : ℕ) : Traced Conn := do
  match ← Cursor.tryReadBe mem 4 ⟨4, 0⟩ with
  | none => pure c
  | some (n, _) =>
      let increment := n &&& 0x7FFFFFFF
      let current := if streamId = 0 then c.flowControl.connectionWindow else c.flowControl.window streamId
      if increment = 0 then pure { c with output := c.output.closeConnection .protocolError }
      else if 0x7FFFFFFF < current + increment then pure (c.sendGoaway .flowControlError)
      else pure { c with flowControl := c.flowControl.addWindow streamId increment }

/-- `handle_frame` with a pointer and a length. -/
def readFrame (c : Conn) (calls : List Call) (type flags : UInt8) (streamId len : ℕ) : Traced Conn :=
  if c.Ignores streamId then pure c
  else
    match FrameType.ofCode type with
    | some .data => c.readDataFrame mem calls flags streamId len
    | some .headers => c.readHeadersFrame mem calls flags streamId len
    | some .settings => c.readSettingsFrame mem flags len
    | some .ping => c.readPingFrame mem flags
    | some .goaway => c.readGoawayFrame mem
    | some .rstStream => pure (c.handleRstStreamFrame streamId)
    | some .windowUpdate => c.readWindowUpdateFrame mem streamId
    | some .priority => c.readPriorityFrame mem len
    | some .pushPromise => c.readPushPromiseFrame mem len
    | some .continuation => c.readContinuationFrame mem calls flags streamId len
    | none => pure c

/-- The payload has the bytes that the handler expects without a look at the length. -/
def LongEnough (flags : UInt8) (len : ℕ) : FrameType → Prop
  | .ping => hasFlag flags flagAck = false → 8 ≤ len
  | .goaway => 4 ≤ len
  | .windowUpdate => 4 ≤ len
  | _ => True

/-! ### Reads inside the payload -/

variable {mem} {c : Conn} {calls : List Call} {type flags : UInt8} {streamId len n pos : ℕ} {cur : Cursor}

theorem inside_fetch : (fetch mem pos n).Inside len ↔ n = 0 ∨ pos + n ≤ len := by
  simp only [Traced.Inside, fetch, List.forall_mem_map, List.mem_range]
  constructor
  · intro h
    cases n with
    | zero => exact Or.inl rfl
    | succ n =>
        have := h n (Nat.lt_succ_self n)
        omega
  · intro h i hi
    omega

theorem inside_tryReadBe : (cur.tryReadBe mem n).Inside len ↔ cur.size < cur.pos + n ∨ n = 0 ∨ cur.pos + n ≤ len := by
  rw [Cursor.tryReadBe]
  split
  · rename_i h
    exact iff_of_true (Traced.inside_pure _ _) (Or.inl h)
  · rename_i h
    rw [Traced.inside_bind, inside_fetch, or_iff_right h, and_iff_left (Traced.inside_pure _ _)]

/-- The cursor behind what has been read. -/
theorem tryReadBe_some {v : ℕ} {cur' : Cursor} (h : (cur.tryReadBe mem n).result = some (v, cur')) :
    cur.pos + n ≤ cur.size ∧ cur' = { cur with pos := cur.pos + n } ∧
      v = readBe ((List.range n).map fun i => mem (cur.pos + i)) := by
  rw [Cursor.tryReadBe] at h
  split at h
  · cases h
  · rename_i hle
    simp only [Traced.result_bind, Traced.result_pure, fetch, Option.some.injEq, Prod.mk.injEq] at h
    exact ⟨Nat.not_lt.mp hle, h.2.symm, h.1.symm⟩

theorem inside_readSettings (hsize : cur.size = len) : (readSettings mem n cur).Inside len := by
  induction n generalizing cur with
  | zero => exact Traced.inside_pure _ _
  | succ n ih =>
      rw [readSettings]
      split
      · refine Traced.inside_bind.mpr ⟨inside_tryReadBe.mpr (by omega), ?_⟩
        split
        · exact Traced.inside_pure _ _
        · rename_i id cur' hr
          obtain ⟨_, rfl, _⟩ := tryReadBe_some hr
          refine Traced.inside_bind.mpr ⟨inside_tryReadBe.mpr (by simp only; omega), ?_⟩
          split
          · exact Traced.inside_pure _ _
          · rename_i value cur'' hr'
            obtain ⟨_, rfl, _⟩ := tryReadBe_some hr'
            exact Traced.inside_bind.mpr ⟨ih hsize, Traced.inside_pure _ _⟩
      · exact Traced.inside_pure _ _

theorem inside_readPushPromiseFrame : (c.readPushPromiseFrame mem len).Inside len := by
  rw [readPushPromiseFrame]
  refine Traced.inside_bind.mpr ⟨inside_tryReadBe.mpr (by simp only; omega), ?_⟩
  split
  · exact Traced.inside_pure _ _
  · rename_i sid cur hr
    obtain ⟨_, rfl, _⟩ := tryReadBe_some hr
    refine Traced.inside_bind.mpr ⟨inside_fetch.mpr ?_, Traced.inside_pure _ _⟩
    simp only [Cursor.remaining]
    omega

theorem inside_readPriorityFrame : (c.readPriorityFrame mem len).Inside len := by
  have h : ∀ cur : Cursor, cur.size = len → (cur.tryReadByte mem).Inside len := by
    intro cur hs
    rw [Cursor.tryReadByte]
    split
    · exact Traced.inside_pure _ _
    · exact Traced.inside_bind.mpr ⟨inside_fetch.mpr (by omega), Traced.inside_pure _ _⟩
  refine Traced.inside_bind.mpr ⟨h _ ?_, Traced.inside_pure _ _⟩
  rw [Cursor.skip]
  split <;> rfl

theorem inside_payload {f : Bytes → Traced Conn} (hf : ∀ payload, (f payload).Inside len) :
    (fetch mem 0 len >>= f).Inside len :=
  Traced.inside_bind.mpr ⟨inside_fetch.mpr (by omega), hf _⟩

theorem inside_readWindowUpdateFrame : (c.readWindowUpdateFrame mem streamId).Inside len ↔ 4 ≤ len := by
  rw [readWindowUpdateFrame, Traced.inside_bind, inside_tryReadBe, and_iff_left]
  · simp
  · split
    · exact Traced.inside_pure _ _
    · dsimp only
      generalize (if streamId = 0 then c.flowControl.connectionWindow else c.flowControl.window streamId) = current
      split
      · exact Traced.inside_pure _ _
      · split <;> exact Traced.inside_pure _ _

theorem inside_readGoawayFrame : (c.readGoawayFrame mem).Inside len ↔ 4 ≤ len := by
  rw [readGoawayFrame, Traced.inside_bind, inside_tryReadBe, and_iff_left]
  · simp
  · split <;> exact Traced.inside_pure _ _

theorem inside_readPingFrame : (c.readPingFrame mem flags).Inside len ↔ (hasFlag flags flagAck = false → 8 ≤ len) := by
  rw [readPingFrame]
  split
  · rename_i hack
    exact iff_of_true (Traced.inside_pure _ _) fun h => by rw [h] at hack; cases hack
  · rename_i hack
    rw [Traced.inside_bind, inside_tryReadBe, and_iff_left]
    · simp [hack]
    · split <;> exact Traced.inside_pure _ _

/-- **When the handlers stay inside the payload**: a PING without ACK needs 8 bytes, GOAWAY and WINDOW_UPDATE need 4; all other
frames may have any length. -/
theorem reads_inside_iff (mem : ℕ → UInt8) (c : Conn) (calls : List Call) (type flags : UInt8) (streamId len : ℕ) :
    (c.readFrame mem calls type flags streamId len).Inside len ↔
      c.Ignores streamId ∨ ∀ t, FrameType.ofCode type = some t → LongEnough flags len t := by
  rw [readFrame]
  split
  · rename_i hig
    exact iff_of_true (Traced.inside_pure _ _) (Or.inl hig)
  · rename_i hig
    rw [or_iff_right hig]
    cases FrameType.ofCode type with
    | none => exact iff_of_true (Traced.inside_pure _ _) nofun
    | some t =>
        rw [show (∀ t', some t = some t' → LongEnough flags len t') ↔ LongEnough flags len t from
          ⟨fun h => h t rfl, fun h t' ht => Option.some.inj ht ▸ h⟩]
        cases t with
        | ping => exact inside_readPingFrame
        | goaway => exact inside_readGoawayFrame
        | windowUpdate => exact inside_readWindowUpdateFrame
        | data =>
            refine iff_of_true ?_ trivial
            simp only [readDataFrame]
            split
            · exact Traced.inside_pure _ _
            · exact inside_payload fun _ => Traced.inside_pure _ _
        | headers =>
            refine iff_of_true ?_ trivial
            simp only [readHeadersFrame]
            split
            · exact Traced.inside_pure _ _
            · exact inside_payload fun _ => Traced.inside_pure _ _
        | continuation =>
            refine iff_of_true ?_ trivial
            simp only [readContinuationFrame]
            split
            · exact Traced.inside_pure _ _
            · exact inside_payload fun _ => Traced.inside_pure _ _
        | settings =>
            refine iff_of_true ?_ trivial
            simp only [readSettingsFrame]
            split
            · exact Traced.inside_pure _ _
            · exact Traced.inside_bind.mpr ⟨inside_readSettings rfl, Traced.inside_pure _ _⟩
        | pushPromise => exact iff_of_true inside_readPushPromiseFrame trivial
        | priority => exact iff_of_true inside_readPriorityFrame trivial
        | rstStream => exact iff_of_true (Traced.inside_pure _ _) trivial

/-- A WINDOW_UPDATE of four bytes is read inside; a PING without payload is not: eight bytes behind the frame are read. -/
theorem ping_reads_outside :
    ((ready {}).readFrame (fun _ => 0) [] 0x8 0 0 4).Inside 4 ∧ ¬ ((ready {}).readFrame (fun _ => 0) [] 0x6 0 0 0).Inside 0 := by
  constructor
  · rw [reads_inside_iff]
    exact Or.inr fun t ht => by
      obtain rfl := Option.some.inj ht
      exact le_rfl
  · rw [reads_inside_iff]
    rintro (h | h)
    · exact absurd h.1 (by decide)
    · exact absurd (h .ping rfl rfl) (by decide)

/-! ### The handlers on the payload as a list -/

/-- The payload. -/
def payloadOf (mem : ℕ → UInt8) (len : ℕ) : Bytes := (List.range len).map mem

theorem length_payloadOf : (payloadOf mem len).length = len := by rw [payloadOf, List.length_map, List.length_range]

theorem fetch_result (h : pos + n ≤ len) : (fetch mem pos n).result = ((payloadOf mem len).drop pos).take n := by
  refine List.ext_getElem ?_ fun i h1 h2 => ?_
  · simp only [fetch, List.length_map, List.length_range, List.length_take, List.length_drop, length_payloadOf]
    omega
  · simp only [fetch, payloadOf, List.getElem_map, List.getElem_range, List.getElem_take, List.getElem_drop]

theorem fetch_payload : (fetch mem 0 len).result = payloadOf mem len := by
  rw [fetch_result (Nat.zero_add len).le, List.drop_zero, List.take_of_length_le (by rw [length_payloadOf])]

theorem tryReadBe_payload (hn : n ≤ len) :
    Http2.tryReadBe n (payloadOf mem len) = some (readBe (fetch mem 0 n).result, (payloadOf mem len).drop n) := by
  rw [Http2.tryReadBe, tryReadBytes, if_neg (by rw [length_payloadOf]; omega), fetch_result ((Nat.zero_add n).le.trans hn)]
  rfl

/-- A cursor over the payload reads what is read from the list. -/
theorem tryReadBe_result (hsize : cur.size = len) (hpos : cur.pos ≤ len) :
    (cur.tryReadBe mem n).result.map (fun r => (r.1, (payloadOf mem len).drop r.2.pos)) =
      Http2.tryReadBe n ((payloadOf mem len).drop cur.pos) := by
  rw [Cursor.tryReadBe, Http2.tryReadBe, tryReadBytes, List.length_drop, length_payloadOf]
  split
  · rw [if_pos (by omega)]
    rfl
  · rw [if_neg (by omega), List.drop_drop]
    simp only [Traced.result_bind, Traced.result_pure, Option.map_some]
    rw [fetch_result (show cur.pos + n ≤ len by omega)]

theorem settingsEntries_short {l : Bytes} (h : l.length < 6) : settingsEntries n l = [] := by
  cases n with
  | zero => rfl
  | succ n =>
      rw [settingsEntries, Http2.tryReadBe, tryReadBytes]
      split
      · rfl
      · rename_i id cur hr
        split at hr
        · cases hr
        · simp only [Option.map_some, Option.some.injEq, Prod.mk.injEq] at hr
          rw [Http2.tryReadBe, tryReadBytes, if_pos (by rw [← hr.2, List.length_drop]; omega)]
          rfl

theorem readSettings_result (hsize : cur.size = len) (hpos : cur.pos ≤ len) :
    (readSettings mem n cur).result = settingsEntries n ((payloadOf mem len).drop cur.pos) := by
  induction n generalizing cur with
  | zero => rfl
  | succ n ih =>
      rw [readSettings]
      split
      · rename_i hrem
        rw [settingsEntries, ← tryReadBe_result hsize hpos, Traced.result_bind]
        cases hr : (cur.tryReadBe mem 2).result with
        | none => rfl
        | some r =>
            obtain ⟨id, cur'⟩ := r
            obtain ⟨hle, rfl, _⟩ := tryReadBe_some hr
            dsimp only [Option.map_some]
            rw [← tryReadBe_result (show ({ cur with pos := cur.pos + 2 } : Cursor).size = len from hsize) (by simp only; omega), Traced.result_bind]
            cases hr' : (Cursor.tryReadBe mem 4 { cur with pos := cur.pos + 2 }).result with
            | none => rfl
            | some r' =>
                obtain ⟨value, cur''⟩ := r'
                obtain ⟨hle', rfl, _⟩ := tryReadBe_some hr'
                dsimp only [Option.map_some]
                rw [← ih (show ({ cur with pos := cur.pos + 2 + 4 } : Cursor).size = len from hsize) (by simp only at hle' ⊢; omega)]
                rfl
      · rename_i hrem
        refine (settingsEntries_short ?_).symm
        rw [List.length_drop, length_payloadOf]
        rw [Cursor.remaining] at hrem
        omega

theorem readPushPromiseFrame_result : (c.readPushPromiseFrame mem len).result = c.handlePushPromiseFrame (payloadOf mem len) := by
  have h : (Cursor.tryReadBe mem 4 ⟨len, 0⟩).result.map (fun r => (r.1, (payloadOf mem len).drop r.2.pos)) =
      Http2.tryReadBe 4 (payloadOf mem len) := tryReadBe_result rfl (Nat.zero_le _)
  rw [readPushPromiseFrame, handlePushPromiseFrame, ← h, Traced.result_bind]
  cases hr : (Cursor.tryReadBe mem 4 ⟨len, 0⟩).result with
  | none => rfl
  | some r =>
      obtain ⟨sid, cur⟩ := r
      obtain ⟨hle, rfl, _⟩ := tryReadBe_some hr
      simp only [Option.map_some, Traced.result_bind, Traced.result_pure, Cursor.remaining]
      rw [fetch_result (show 0 + (len - (0 + 4)) ≤ len by omega), List.drop_zero, List.length_drop, length_payloadOf]

/-- **Inside the payload** a frame is handled as if the handlers had the payload as a list. -/
theorem handleFrame_traced (h : ∀ t, FrameType.ofCode type = some t → LongEnough flags len t) :
    (c.readFrame mem calls type flags streamId len).result = c.handleFrame calls ⟨type, flags, streamId, payloadOf mem len⟩ := by
  rw [readFrame, handleFrame]
  split
  · rfl
  · cases ht : FrameType.ofCode type with
    | none => rfl
    | some t =>
        have h := h t ht
        cases t with
        | data =>
            simp only [readDataFrame]
            split
            · rename_i hn
              simp only [Traced.result_pure, handleDataFrame, hn]
            · rw [Traced.result_bind, fetch_payload, Traced.result_pure]
        | headers =>
            simp only [readHeadersFrame]
            split
            · rename_i hn
              simp only [Traced.result_pure, handleHeadersFrame, if_pos hn]
            · rw [Traced.result_bind, fetch_payload, Traced.result_pure]
        | continuation =>
            simp only [readContinuationFrame]
            split
            · rename_i hn
              rw [Waits] at hn
              rw [Traced.result_pure, handleContinuationFrame, handleContinuationFrame]
              cases hp : c.pending.lookup streamId with
              | none => rfl
              | some ps =>
                  rw [hp, Option.any_some] at hn
                  simp only [if_neg hn]
            · rw [Traced.result_bind, fetch_payload, Traced.result_pure]
        | settings =>
            simp only [readSettingsFrame, handleSettingsFrame]
            split
            · rfl
            · rw [Traced.result_bind, Traced.result_pure, readSettings_result (show Cursor.size ⟨len, 0⟩ = len from rfl) (Nat.zero_le _), List.drop_zero,
                length_payloadOf]
        | ping =>
            simp only [readPingFrame, handlePingFrame]
            split
            · rfl
            · rename_i hack
              rw [tryReadBe_payload (h (Bool.eq_false_iff.mpr hack))]
              rfl
        | goaway =>
            simp only [readGoawayFrame, handleGoawayFrame]
            rw [tryReadBe_payload h]
            rfl
        | windowUpdate =>
            simp only [readWindowUpdateFrame, handleWindowUpdateFrame, windowIncrement]
            rw [tryReadBe_payload h]
            simp only [Cursor.tryReadBe, Traced.result_bind]
            rw [if_neg (by simp)]
            simp only [Traced.result_bind, Traced.result_pure, Option.map_some]
            generalize (if streamId = 0 then c.flowControl.connectionWindow else c.flowControl.window streamId) = current
            split
            · rfl
            · split <;> rfl
        | pushPromise => exact readPushPromiseFrame_result
        | priority => rfl
        | rstStream => rfl

theorem handleFrame_traced_ping : ((ready {}).readFrame (fun _ => 7) [] 0x6 0 0 8).result =
    (ready {}).handleFrame [] ⟨0x6, 0, 0, payloadOf (fun _ => 7) 8⟩ := by
  refine handleFrame_traced fun t ht => ?_
  obtain rfl : FrameType.ping = t := Option.some.inj ht
  exact fun _ => le_refl 8

end Conn

end NeForce.Http2
