import Mathlib
import NeForce.Http2Trace

/-! # The windows for sending

The DATA frames that a connection sends, and the windows that the peer gives it.  A body that is no larger than
the windows takes from them what it sends (`Conn.call_spends`), so that runs in which every body and every received
DATA frame is within the windows respect them (`run_windows`).

A larger body is sent all the same: an empty window is taken for one byte, and the counters wrap
(`oversized_not_within`).  Received DATA frames, which have nothing to do with these windows, are taken from
them as well. -/

namespace NeForce.Http2

open Hpack
open Output (Logs)

/-! ### Counters -/

/-- `2 ^ 31 - 1`. -/
def maxWindow : ℕ := 0x7FFFFFFF

/-- `k` bytes on stream `id` were taken from the windows. -/
structure Spent (id k : ℕ) (fc fc' : FlowControl) : Prop where
  initial : fc'.initialWindow = fc.initialWindow
  connection : fc'.connectionWindow + k = fc.connectionWindow
  stream : fc'.window id + k = fc.window id
  others : ∀ id', id' ≠ id → fc'.streamWindows.lookup id' = fc.streamWindows.lookup id'
  fresh : fc'.streamWindows.lookup id = none → k = 0 ∧ fc.streamWindows.lookup id = none

section

variable {fc fc' fc₁ : FlowControl} {id id' k k' n : ℕ}

theorem Spent.refl (id : ℕ) (fc : FlowControl) : Spent id 0 fc fc := ⟨rfl, rfl, rfl, fun _ _ => rfl, fun h => ⟨rfl, h⟩⟩

theorem Spent.trans (h : Spent id k fc fc₁) (h' : Spent id k' fc₁ fc') : Spent id (k + k') fc fc' := by
  refine ⟨h'.initial.trans h.initial, ?_, ?_, fun i hi => (h'.others i hi).trans (h.others i hi), fun hn => ?_⟩
  · have h1 := h.connection
    have h2 := h'.connection
    omega
  · have h1 := h.stream
    have h2 := h'.stream
    omega
  · obtain ⟨h1, h2⟩ := h'.fresh hn
    obtain ⟨h3, h4⟩ := h.fresh h2
    exact ⟨by omega, h4⟩

theorem Spent.window_of_ne (h : Spent id k fc fc') (hne : id' ≠ id) : fc'.window id' = fc.window id' := by
  rw [FlowControl.window, FlowControl.window, h.others id' hne, h.initial]

theorem window_insert (fc : FlowControl) (id w : ℕ) :
    FlowControl.window { fc with streamWindows := fc.streamWindows.insert id w } id = w := by
  rw [FlowControl.window, Finmap.lookup_insert, Option.getD_some]

theorem window_insert_of_ne (fc : FlowControl) (w : ℕ) (h : id' ≠ id) :
    FlowControl.window { fc with streamWindows := fc.streamWindows.insert id w } id' = fc.window id' := by
  rw [FlowControl.window, Finmap.lookup_insert_of_ne _ h]
  rfl

/-- Taking bytes from windows that are large enough. -/
theorem consume_spent (h1 : k ≤ fc.window id) (h2 : k ≤ fc.connectionWindow) (h3 : fc.window id ≤ maxWindow)
    (h4 : fc.connectionWindow ≤ maxWindow) : Spent id k fc (fc.consume id k) := by
  rw [maxWindow] at h3 h4
  refine ⟨rfl, ?_, ?_, fun i hi => Finmap.lookup_insert_of_ne _ hi, fun hn => ?_⟩
  · rw [FlowControl.consume, sub32_eq (by omega) h2]
    exact Nat.sub_add_cancel h2
  · rw [FlowControl.consume, FlowControl.window, Finmap.lookup_insert, Option.getD_some, sub32_eq (by omega) h1]
    exact Nat.sub_add_cancel h1
  · rw [FlowControl.consume, Finmap.lookup_insert] at hn
    cases hn

end

/-! ### Sending -/

/-- The bytes of a DATA frame on the streams that `p` selects. -/
def Frame.dataOn (p : ℕ → Bool) : Frame → ℕ
  | .data f => if p f.streamId then f.data.length else 0
  | _ => 0

/-- The stream and the number of bytes of the body that a call sends. -/
def Call.body : Call → ℕ × ℕ
  | .sendResponse id _ body _ => (id, body.length)
  | .sendData id data _ => (id, data.length)
  | .writeBodyFrames id data _ => (id, data.length)
  | _ => (0, 0)

section

variable {fc fc' : FlowControl} {o : Output} {id maxFrame k n : ℕ} {data : Bytes} {endStream : Bool} {p : ℕ → Bool}

/-- `k` bytes were taken from the windows, and at most as many sent. -/
structure Spends (id k : ℕ) (r r' : FlowControl × Output) : Prop where
  spent : Spent id k r.1 r'.1
  sent : ∀ p : ℕ → Bool, r'.2.sent (Frame.dataOn p) ≤ r.2.sent (Frame.dataOn p) + if p id then k else 0

theorem Spends.refl (id : ℕ) (r : FlowControl × Output) : Spends id 0 r r :=
  ⟨.refl id r.1, fun p => by simp⟩

theorem Spends.trans {r r₁ r' : FlowControl × Output} {k' : ℕ} (h : Spends id k r r₁) (h' : Spends id k' r₁ r') :
    Spends id (k + k') r r' := by
  refine ⟨h.spent.trans h'.spent, fun p => ?_⟩
  have h1 := h.sent p
  have h2 := h'.sent p
  split at h1 <;> simp_all <;> omega

/-- One DATA frame. -/
theorem chunk_spends (hd : data.length ≤ fc.window id) (hd' : data.length ≤ fc.connectionWindow)
    (hw : fc.window id ≤ maxWindow) (hw' : fc.connectionWindow ≤ maxWindow) (hk : k ≤ data.length) (b : Bool) :
    Spends id k (fc, o) (fc.consume id k, o.writeFrame (.data { streamId := id, data := data.take k, endStream := b })) := by
  refine ⟨consume_spent (hk.trans hd) (hk.trans hd') hw hw', fun p => ?_⟩
  rw [Output.sent_writeFrame]
  simp only [Frame.dataOn, List.length_take, Nat.min_eq_left hk]
  split <;> omega

theorem chunkSize_le (fc : FlowControl) (id maxFrame n : ℕ) : Conn.chunkSize fc id maxFrame n ≤ n := by
  unfold Conn.chunkSize
  omega

/-- The windows after a part of the data. -/
theorem Spends.rest {r' : FlowControl × Output} (h : Spends id k (fc, o) r') (hk : k ≤ data.length)
    (hd : data.length ≤ fc.window id) (hd' : data.length ≤ fc.connectionWindow) (hw : fc.window id ≤ maxWindow)
    (hw' : fc.connectionWindow ≤ maxWindow) :
    (data.drop k).length ≤ r'.1.window id ∧ (data.drop k).length ≤ r'.1.connectionWindow ∧
      r'.1.window id ≤ maxWindow ∧ r'.1.connectionWindow ≤ maxWindow := by
  have h1 := h.spent.stream
  have h2 := h.spent.connection
  simp only at h1 h2
  rw [List.length_drop]
  omega

theorem writeData_spends (o : Output) (maxFrame : ℕ) (endStream : Bool) (n : ℕ) (hd : data.length ≤ fc.window id) (hd' : data.length ≤ fc.connectionWindow)
    (hw : fc.window id ≤ maxWindow) (hw' : fc.connectionWindow ≤ maxWindow) :
    ∃ k ≤ data.length, Spends id k (fc, o) (Conn.writeData id maxFrame endStream n data (fc, o)) := by
  induction n generalizing data fc o with
  | zero => exact ⟨0, Nat.zero_le _, .refl id _⟩
  | succ n ih =>
      rw [Conn.writeData]
      split
      · exact ⟨0, Nat.zero_le _, .refl id _⟩
      · have hk := chunkSize_le fc id maxFrame data.length
        have h₁ := chunk_spends (o := o) hd hd' hw hw' hk
          (decide (data.length ≤ Conn.chunkSize fc id maxFrame data.length) && endStream)
        obtain ⟨h1, h2, h3, h4⟩ := h₁.rest hk hd hd' hw hw'
        obtain ⟨k, hle, h₂⟩ := ih _ h1 h2 h3 h4
        rw [List.length_drop] at hle
        exact ⟨_, by omega, h₁.trans h₂⟩

theorem writeBodyFramesLoop_spends (o : Output) (maxFrame : ℕ) (endStream : Bool) (n : ℕ) (hd : data.length ≤ fc.window id) (hd' : data.length ≤ fc.connectionWindow)
    (hw : fc.window id ≤ maxWindow) (hw' : fc.connectionWindow ≤ maxWindow) :
    ∃ k ≤ data.length, Spends id k (fc, o) (Conn.writeBodyFramesLoop id maxFrame endStream n data (fc, o)) := by
  induction n generalizing data fc o with
  | zero => exact ⟨0, Nat.zero_le _, .refl id _⟩
  | succ n ih =>
      rw [Conn.writeBodyFramesLoop]
      split
      · exact ⟨0, Nat.zero_le _, .refl id _⟩
      · have hk := chunkSize_le fc id maxFrame data.length
        have h₁ := chunk_spends (o := o) hd hd' hw hw' hk
          (decide (data.length ≤ Conn.chunkSize fc id maxFrame data.length) && endStream)
        simp only
        split
        · obtain ⟨h1, h2, h3, h4⟩ := h₁.rest hk hd hd' hw hw'
          obtain ⟨k, hle, h₂⟩ := ih _ h1 h2 h3 h4
          rw [List.length_drop] at hle
          exact ⟨_, by omega, h₁.trans h₂⟩
        · refine ⟨0, Nat.zero_le _, .refl id fc, fun p => ?_⟩
          have hclose : Logs Effect.OfCredit o (o.closeConnection .enhanceYourCalm) :=
            (Logs.refl _).closeConnection _ trivial
          rw [ite_self, Nat.add_zero]
          exact (hclose.sent fun f hf => by cases f <;> first | rfl | exact hf.elim).le

end

/-- Frames that are not DATA. -/
def Effect.NoData : Effect → Prop
  | .frame (.data _) => False
  | _ => True

theorem Effect.NoData.dataOn {f : Frame} (h : (Effect.frame f).NoData) (p : ℕ → Bool) : f.dataOn p = 0 := by
  cases f <;> first | rfl | exact h.elim

theorem Effect.OfFrame.noData {e : Effect} (h : e.OfFrame) : e.NoData := by
  cases e with
  | frame f => cases f <;> trivial
  | _ => trivial

theorem Effect.OfCredit.noData {e : Effect} (h : e.OfCredit) : e.NoData := by
  cases e with
  | frame f => cases f <;> trivial
  | _ => trivial

namespace Conn

variable {c c' : Conn} {id maxFrame n : ℕ} {endStream first : Bool} {block : Bytes} {cl : Call} {calls : List Call}

theorem writeHeaderBlock_noData (c : Conn) (id : ℕ) (block : Bytes) (endStream : Bool) :
    Logs Effect.NoData c.output (c.writeHeaderBlock id block endStream).output :=
  (Logs.refl _).foldl (headerFrames_forall (fun _ => trivial) fun _ => trivial) trivial

theorem flushResponse_sent (c : Conn) (n : ℕ) (g : Frame → ℕ) : (c.flushResponse n).output.sent g = c.output.sent g := by
  unfold flushResponse Output.sent Output.frames
  simp only
  split <;> simp

/-- **A call whose body is within the windows takes at most its size from them.** -/
theorem call_spends (hd : cl.body.2 ≤ c.flowControl.window cl.body.1) (hd' : cl.body.2 ≤ c.flowControl.connectionWindow)
    (hw : c.flowControl.window cl.body.1 ≤ maxWindow) (hw' : c.flowControl.connectionWindow ≤ maxWindow) :
    ∃ k ≤ cl.body.2, Spends cl.body.1 k (c.flowControl, c.output) ((c.call cl).flowControl, (c.call cl).output) := by
  have none : ∀ {fc o}, fc = c.flowControl → Logs Effect.NoData c.output o →
      ∃ k ≤ cl.body.2, Spends cl.body.1 k (c.flowControl, c.output) (fc, o) := by
    rintro fc o rfl ho
    exact ⟨0, Nat.zero_le _, .refl _ _, fun p => by rw [ho.sent fun f hf => hf.dataOn p]; exact Nat.le_add_right _ _⟩
  cases cl with
  | sendResponse id headers body endStream =>
      let c₁ := { c with encoder := (c.encoder.encode headers).2 }.writeHeaderBlock id (c.encoder.encode headers).1
        (endStream && decide (body = []))
      have hh : Logs Effect.NoData c.output c₁.output := writeHeaderBlock_noData _ _ _ _
      obtain ⟨k, hk, h⟩ := writeData_spends c₁.output c.localSettings.maxFrameSize endStream body.length hd hd' hw hw'
      refine ⟨k, hk, h.spent, fun p => ?_⟩
      have hsent := h.sent p
      rw [hh.sent fun f hf => hf.dataOn p] at hsent
      exact (flushResponse_sent _ _ _).trans_le hsent
  | sendData id data endStream =>
      obtain ⟨k, hk, h⟩ := writeData_spends c.output c.localSettings.maxFrameSize endStream data.length hd hd' hw hw'
      exact ⟨k, hk, h.spent, h.sent⟩
  | writeBodyFrames id data endStream =>
      obtain ⟨k, hk, h⟩ := writeBodyFramesLoop_spends c.output c.localSettings.maxFrameSize endStream data.length hd hd' hw hw'
      exact ⟨k, hk, h.spent, h.sent⟩
  | sendHeaders id headers endStream =>
      exact none rfl (writeHeaderBlock_noData { c with encoder := (c.encoder.encode headers).2 } id _ _).flushWrites
  | sendTrailers id trailers =>
      exact none rfl (writeHeaderBlock_noData { c with encoder := (c.encoder.encode trailers).2 } id _ _).flushWrites
  | sendPushPromise id promised headers =>
      simp only [call, sendPushPromise]
      split
      · exact none rfl (.refl _)
      · exact none rfl ((Logs.refl _).writeFrame trivial trivial)
  | sendRstStream id error => exact none rfl ((Logs.refl _).writeFrame trivial trivial)
  | sendGoaway error => exact none rfl (((Logs.refl _).writeFrame trivial trivial).closeConnection _ trivial)
  | stop => exact none rfl ⟨fun _ => rfl, [], (List.append_nil _).symm, by simp⟩

end Conn

/-! ### Windows and what was granted -/

/-- The window that an event gives to a stream, or to the connection with the identifier 0. -/
def Event.grants (id : ℕ) : Event → ℕ
  | .frame f _ =>
      if FrameType.ofCode f.type = some .windowUpdate ∧ f.streamId = id then (Conn.windowIncrement f.payload).getD 0 else 0
  | _ => 0

/-- The sum of the increments for a stream that were received. -/
def granted (ls : List Event) (id : ℕ) : ℕ := (ls.map (Event.grants id)).sum

theorem granted_concat (ls : List Event) (e : Event) (id : ℕ) : granted (ls ++ [e]) id = granted ls id + e.grants id := by
  simp [granted]

theorem applyRemoteSettings_le {s : Settings} (entries : List (ℕ × ℕ)) (h : s.initialWindowSize ≤ maxWindow) :
    (s.applyRemoteSettings entries).initialWindowSize ≤ maxWindow := by
  induction entries generalizing s with
  | nil => exact h
  | cons e entries ih =>
      refine ih (s := s.applyEntry e.1 e.2) ?_
      unfold Settings.applyEntry
      split
      · exact h
      · split <;> exact h
      · exact h
      · split
        · exact h
        · rename_i hle
          exact not_lt.mp hle
      · split <;> exact h
      · exact h

/-- Every window, and what was sent from it, comes from the initial window and from what was granted. -/
structure Windows (g : ℕ → ℕ) (c : Conn) : Prop where
  initial : c.flowControl.initialWindow = c.remoteSettings.initialWindowSize
  initial_le : c.flowControl.initialWindow ≤ maxWindow
  window_le : ∀ id, c.flowControl.window id ≤ maxWindow
  connection_le : c.flowControl.connectionWindow ≤ maxWindow
  fresh : ∀ id, c.flowControl.streamWindows.lookup id = none → c.output.sent (Frame.dataOn (· = id)) = 0
  stream : ∀ id, c.flowControl.window id + c.output.sent (Frame.dataOn (· = id)) ≤ c.flowControl.initialWindow + g id
  connection : c.flowControl.connectionWindow + c.output.sent (Frame.dataOn fun _ => true) ≤ 65535 + g 0

namespace Windows

variable {g g' : ℕ → ℕ} {c c' : Conn} {id k : ℕ} {calls : List Call} {cl : Call} {fc : FlowControl}

theorem mono (h : Windows g c) (hg : ∀ id, g id ≤ g' id) : Windows g' c :=
  ⟨h.initial, h.initial_le, h.window_le, h.connection_le, h.fresh,
    fun id => (h.stream id).trans (Nat.add_le_add_left (hg id) _), h.connection.trans (Nat.add_le_add_left (hg 0) _)⟩

/-- Taking bytes from the windows and sending them. -/
theorem spends (h : Windows g c) (id k : ℕ) (hs : Spends id k (c.flowControl, c.output) (c'.flowControl, c'.output))
    (hr : c'.remoteSettings = c.remoteSettings) : Windows g c' := by
  obtain ⟨hsp, hsent⟩ := hs
  simp only at hsp hsent
  have hown := hsent (· = id)
  rw [if_pos (by simp)] at hown
  have hother : ∀ i, i ≠ id → c'.output.sent (Frame.dataOn (· = i)) ≤ c.output.sent (Frame.dataOn (· = i)) := by
    intro i hi
    have := hsent (· = i)
    rwa [if_neg (by simpa using hi.symm), Nat.add_zero] at this
  have h1 := hsp.stream
  have h2 := hsp.connection
  refine ⟨by rw [hsp.initial, hr, h.initial], by rw [hsp.initial]; exact h.initial_le, fun i => ?_, ?_, fun i hn => ?_,
    fun i => ?_, ?_⟩
  · by_cases hi : i = id
    · subst hi
      have := h.window_le i
      omega
    · rw [hsp.window_of_ne hi]
      exact h.window_le i
  · have := h.connection_le
    omega
  · by_cases hi : i = id
    · subst hi
      obtain ⟨rfl, hn'⟩ := hsp.fresh hn
      have := h.fresh i hn'
      omega
    · rw [hsp.others i hi] at hn
      exact Nat.le_zero.mp ((hother i hi).trans_eq (h.fresh i hn))
  · rw [hsp.initial]
    have hst := h.stream i
    by_cases hi : i = id
    · subst hi
      omega
    · rw [hsp.window_of_ne hi]
      have := hother i hi
      omega
  · have hc := h.connection
    have hall := hsent fun _ => true
    simp only [if_true] at hall
    omega

theorem call (h : Windows g c) (cl : Call) (hd : cl.body.2 ≤ c.flowControl.window cl.body.1)
    (hd' : cl.body.2 ≤ c.flowControl.connectionWindow) : Windows g (c.call cl) := by
  obtain ⟨k, _, hs⟩ := Conn.call_spends hd hd' (h.window_le _) h.connection_le
  exact h.spends _ _ hs (c.call_keeps cl).remoteSettings

end Windows

/-- The bodies of a list of calls are within the windows, one after the other. -/
def Within (fc : FlowControl) : List Call → Prop
  | [] => True
  | cl :: calls => cl.body.2 ≤ fc.window cl.body.1 ∧ cl.body.2 ≤ fc.connectionWindow ∧
      Within (fc.consume cl.body.1 cl.body.2) calls

instance decidableWithin : ∀ (fc : FlowControl) (calls : List Call), Decidable (Within fc calls)
  | _, [] => .isTrue trivial
  | fc, cl :: calls =>
      have := decidableWithin (fc.consume cl.body.1 cl.body.2) calls
      inferInstanceAs (Decidable (_ ∧ _ ∧ _))

/-- Windows that are at least as large. -/
def Covers (fc fc' : FlowControl) : Prop :=
  fc'.connectionWindow ≤ fc.connectionWindow ∧ ∀ id, fc'.window id ≤ fc.window id

namespace Windows

variable {g g' : ℕ → ℕ} {c c' c₁ : Conn} {id k : ℕ} {calls : List Call} {cl : Call} {fc : FlowControl}

/-- A call may stop before the end of the body, and leave more of the windows. -/
theorem foldl_call (h : Windows g c) (fc : FlowControl) (hc : Covers c.flowControl fc) (hw : Within fc calls) :
    Windows g (calls.foldl Conn.call c) := by
  induction calls generalizing c fc with
  | nil => exact h
  | cons cl calls ih =>
      obtain ⟨h1, h2, hw⟩ := hw
      obtain ⟨hc1, hc2⟩ := hc
      have hd := h1.trans (hc2 cl.body.1)
      obtain ⟨k, hk, hs, _⟩ := Conn.call_spends hd (h2.trans hc1) (h.window_le _) h.connection_le
      simp only at hs
      have hcs := consume_spent h1 h2 ((hc2 _).trans (h.window_le _)) (hc1.trans h.connection_le)
      refine ih (h.call cl hd (h2.trans hc1)) _ ⟨?_, fun i => ?_⟩ hw
      · have e1 := hs.connection
        have e2 := hcs.connection
        omega
      · by_cases hi : i = cl.body.1
        · subst hi
          have e1 := hs.stream
          have e2 := hcs.stream
          have := hc2 cl.body.1
          omega
        · rw [hs.window_of_ne hi, hcs.window_of_ne hi]
          exact hc2 i

theorem alike (h : Windows g c) (ha : c.Alike c') : Windows g c' := by
  obtain ⟨_, hr, hf, _, ho⟩ := ha
  obtain ⟨h1, h2, h3, h4, h5, h6, h7⟩ := h
  rw [← hf] at h1 h2 h3 h4 h5 h6 h7
  rw [← hr] at h1
  rw [← ho] at h5 h6 h7
  exact ⟨h1, h2, h3, h4, h5, h6, h7⟩

theorem sameWindows (h : Windows g c) (hr : c'.remoteSettings = c.remoteSettings) (hf : c'.flowControl = c.flowControl)
    (ho : Logs Effect.NoData c.output c'.output) : Windows g c' := by
  refine h.spends 0 0 ⟨?_, fun p => ?_⟩ hr
  · rw [hf]
    exact .refl 0 _
  · rw [ho.sent fun f hf => hf.dataOn p]
    exact Nat.le_add_right _ _

theorem handles (h : Windows g c) (hh : c.Handles calls c') (hw : Within c.flowControl calls) : Windows g c' := by
  rcases hh with hp | ⟨c₁, hp, ha⟩
  · exact h.sameWindows hp.remoteSettings hp.flowControl (hp.output.mono fun _ => Effect.OfFrame.noData)
  · have h₁ := h.sameWindows hp.remoteSettings hp.flowControl (hp.output.mono fun _ => Effect.OfFrame.noData)
    refine (h₁.foldl_call c.flowControl ?_ hw).alike ha
    rw [hp.flowControl]
    exact ⟨le_rfl, fun _ => le_rfl⟩

/-- A DATA frame is taken from the windows for sending. -/
theorem receiveCredit (h : Windows g c) {n : ℕ} (hn : n ≤ c.flowControl.window id)
    (hn' : n ≤ c.flowControl.connectionWindow) : Windows g (c.receiveCredit id n) := by
  refine h.spends id n ⟨?_, fun p => ?_⟩ rfl
  · exact consume_spent hn hn' (h.window_le id) h.connection_le
  · have hlogs := (c.receiveCredit_logs id n).mono fun _ => Effect.OfCredit.noData
    rw [hlogs.sent fun f hf => hf.dataOn p]
    exact Nat.le_add_right _ _

theorem handleRequest (h : Windows g c) (hw : Within c.flowControl calls) {headers : List HeaderField} {data : Bytes} :
    Windows g (c.handleRequest calls id headers data) := by
  have h₁ : Windows g { c with output := c.output.emit (.request id headers data) } :=
    h.sameWindows rfl rfl ((Logs.refl _).emit trivial)
  exact h₁.foldl_call _ ⟨le_rfl, fun _ => le_rfl⟩ hw

theorem handleDataFrame (h : Windows g c) {flags : UInt8} {payload : Bytes}
    (hk : c.pending.lookup id ≠ none → payload.length ≤ c.flowControl.window id ∧
      payload.length ≤ c.flowControl.connectionWindow ∧ Within (c.flowControl.consume id payload.length) calls) :
    Windows g (c.handleDataFrame calls flags id payload) := by
  rw [Conn.handleDataFrame]
  split
  · exact h.call (.sendRstStream id .streamClosed) (Nat.zero_le _) (Nat.zero_le _)
  · rename_i ps hps
    obtain ⟨h1, h2, hw⟩ := hk (by rw [hps]; simp)
    have h₁ := h.receiveCredit h1 h2
    simp only
    split
    · refine alike (handleRequest (h₁.alike ?_) hw) ⟨rfl, rfl, rfl, rfl, rfl⟩
      exact ⟨rfl, rfl, rfl, rfl, rfl⟩
    · exact h₁.alike ⟨rfl, rfl, rfl, rfl, rfl⟩

/-- New settings do not lower the initial window, or no stream has used it. -/
theorem handleSettingsFrame (h : Windows g c) {flags : UInt8} {payload : Bytes}
    (hk : hasFlag flags flagAck = false → c.flowControl.initialWindow ≤
        (c.remoteSettings.applyRemoteSettings (Conn.settingsEntries payload.length payload)).initialWindowSize ∨
      c.flowControl.streamWindows.keys = ∅) : Windows g (c.handleSettingsFrame flags payload) := by
  rw [Conn.handleSettingsFrame]
  split
  · exact h
  · rename_i hack
    have hinit := h.initial
    have hraise := hk (by simpa using hack)
    have hle : (c.remoteSettings.applyRemoteSettings
        (Conn.settingsEntries payload.length payload)).initialWindowSize ≤ maxWindow :=
      applyRemoteSettings_le _ (hinit ▸ h.initial_le)
    have hsent : ∀ p, (c.output.writeFrame (.settings true [])).sent (Frame.dataOn p) = c.output.sent (Frame.dataOn p) := by
      intro p
      rw [Output.sent_writeFrame]
      simp [Frame.dataOn]
    generalize (c.remoteSettings.applyRemoteSettings (Conn.settingsEntries payload.length payload)) = s at hraise hle ⊢
    have hwin : ∀ id, c.flowControl.streamWindows.lookup id ≠ none ∧
        (c.flowControl.setInitialWindow s.initialWindowSize).window id = c.flowControl.window id ∨
        c.flowControl.streamWindows.lookup id = none ∧
          (c.flowControl.setInitialWindow s.initialWindowSize).window id = s.initialWindowSize := by
      intro id
      simp only [FlowControl.window, FlowControl.setInitialWindow]
      cases hl : c.flowControl.streamWindows.lookup id with
      | none => exact Or.inr ⟨rfl, rfl⟩
      | some w => exact Or.inl ⟨by simp, rfl⟩
    refine ⟨rfl, hle, fun id => ?_, h.connection_le, fun id hn => ?_, fun id => ?_, ?_⟩
    · rcases hwin id with ⟨_, he⟩ | ⟨_, he⟩
      · exact he.trans_le (h.window_le id)
      · exact he.trans_le hle
    · exact (hsent _).trans (h.fresh id hn)
    · simp only [hsent]
      rcases hwin id with ⟨hused, he⟩ | ⟨hn, he⟩
      · rw [he]
        rcases hraise with hr | hr
        · exact (h.stream id).trans (Nat.add_le_add_right hr _)
        · refine (hused ?_).elim
          rw [Finmap.lookup_eq_none, ← Finmap.mem_keys, hr]
          exact Finset.notMem_empty _
      · rw [he, h.fresh id hn]
        exact Nat.add_le_add_left (Nat.zero_le _) _
    · simp only [hsent]
      exact h.connection

/-- A window grows by an increment, or the increment is rejected. -/
theorem handleWindowUpdateFrame (h : Windows g c) {payload : Bytes}
    (hg : ∀ i, g i ≤ g' i) (hinc : g id + (Conn.windowIncrement payload).getD 0 ≤ g' id) :
    Windows g' (c.handleWindowUpdateFrame id payload) := by
  rw [Conn.handleWindowUpdateFrame]
  cases hi : Conn.windowIncrement payload with
  | none => exact h.mono hg
  | some inc =>
      simp only
      rw [hi, Option.getD_some] at hinc
      by_cases h0 : inc = 0
      · rw [if_pos h0]
        exact (h.mono hg).sameWindows rfl rfl ((Logs.refl _).closeConnection _ trivial)
      · rw [if_neg h0]
        by_cases hgt : 0x7FFFFFFF < (if id = 0 then c.flowControl.connectionWindow else c.flowControl.window id) + inc
        · rw [if_pos hgt]
          exact (h.mono hg).call (.sendGoaway .flowControlError) (Nat.zero_le _) (Nat.zero_le _)
        · rw [if_neg hgt]
          rw [not_lt] at hgt
          by_cases hid : id = 0
          · subst hid
            rw [if_pos rfl] at hgt
            have hadd : add32 c.flowControl.connectionWindow inc = c.flowControl.connectionWindow + inc :=
              add32_eq (by omega)
            have hfc : c.flowControl.addWindow 0 inc =
                { c.flowControl with connectionWindow := c.flowControl.connectionWindow + inc } := by
              rw [FlowControl.addWindow, if_pos rfl, hadd]
            rw [hfc]
            refine ⟨h.initial, h.initial_le, h.window_le, hgt, h.fresh, (h.mono hg).stream, ?_⟩
            have := h.connection
            simp only
            omega
          · rw [if_neg hid] at hgt
            have hadd : add32 (c.flowControl.window id) inc = c.flowControl.window id + inc := add32_eq (by omega)
            have hfc : c.flowControl.addWindow id inc = { c.flowControl with
                streamWindows := c.flowControl.streamWindows.insert id (c.flowControl.window id + inc) } := by
              rw [FlowControl.addWindow, if_neg hid, hadd]
            rw [hfc]
            have hself := window_insert c.flowControl id (c.flowControl.window id + inc)
            have hother := fun i (hi : i ≠ id) => window_insert_of_ne c.flowControl (c.flowControl.window id + inc) hi
            refine ⟨h.initial, h.initial_le, fun i => ?_, h.connection_le, fun i hn => ?_, fun i => ?_,
              (h.mono hg).connection⟩
            · by_cases hi : i = id
              · subst hi
                rw [hself]
                exact hgt
              · rw [hother i hi]
                exact h.window_le i
            · by_cases hi : i = id
              · subst hi
                rw [Finmap.lookup_insert] at hn
                cases hn
              · rw [Finmap.lookup_insert_of_ne _ hi] at hn
                exact h.fresh i hn
            · by_cases hi : i = id
              · subst hi
                rw [hself]
                have := h.stream i
                simp only
                omega
              · rw [hother i hi]
                exact (h.mono hg).stream i

end Windows

/-! ### Runs -/

/-- Received DATA frames and the bodies that are sent are within the windows, and the initial window is not lowered
once a stream has used it. -/
def KeepsWindows (c : Conn) : Event → Prop
  | .frame f calls =>
      match FrameType.ofCode f.type with
      | some .data => ¬c.Ignores f.streamId → c.pending.lookup f.streamId ≠ none →
          f.payload.length ≤ c.flowControl.window f.streamId ∧ f.payload.length ≤ c.flowControl.connectionWindow ∧
            Within (c.flowControl.consume f.streamId f.payload.length) calls
      | some .settings => hasFlag f.flags flagAck = false → c.flowControl.initialWindow ≤
          (c.remoteSettings.applyRemoteSettings
            (Conn.settingsEntries f.payload.length f.payload)).initialWindowSize ∨
          c.flowControl.streamWindows.keys = ∅
      | _ => Within c.flowControl calls
  | .call cl => Within c.flowControl [cl]
  | _ => True

instance (c : Conn) : (e : Event) → Decidable (KeepsWindows c e)
  | .frame f _ => by
      dsimp only [KeepsWindows]
      generalize FrameType.ofCode f.type = t
      exact match t with
        | some .data => inferInstanceAs (Decidable (_ → _))
        | some .settings => inferInstanceAs (Decidable (_ → _))
        | none | some .headers | some .continuation | some .priority | some .rstStream | some .pushPromise | some .ping | some .goaway | some .windowUpdate =>
            inferInstanceAs (Decidable (Within _ _))
  | .call _ => inferInstanceAs (Decidable (Within _ _))
  | .readable | .readDone | .readFailed _ | .writable => instDecidableTrue

/-- What the peer allows was sent at most, and no counter has wrapped below zero. -/
structure RespectsWindows (c : Conn) (ls : List Event) : Prop where
  stream : ∀ id, c.output.sent (Frame.dataOn (· = id)) ≤ c.remoteSettings.initialWindowSize + granted ls id
  connection : c.output.sent (Frame.dataOn fun _ => true) ≤ 65535 + granted ls 0
  noWrap : c.flowControl.connectionWindow ≤ maxWindow ∧ ∀ id, c.flowControl.window id ≤ maxWindow

section

variable {c c' : Conn} {e : Event} {ls : List Event} {l : LocalSettings} {g g' : ℕ → ℕ}

theorem ready_windows (l : LocalSettings) : Windows (granted []) (.ready l) := by
  have hsent : ∀ p, (Conn.ready l).output.sent (Frame.dataOn p) = 0 := by
    intro p
    have h : Logs Effect.NoData ⟨false, 0, []⟩ (Conn.ready l).output := by
      unfold Conn.ready Conn.receivePreface Conn.start Conn.make
      refine Logs.writeFrame ?_ trivial trivial
      exact Logs.flushWrites (Logs.writeFrame (.refl _) trivial trivial)
    exact h.sent fun f hf => hf.dataOn p
  have hw : ∀ id, (Conn.ready l).flowControl.window id = 65535 := fun id => rfl
  have hle : 65535 ≤ maxWindow := by decide
  exact ⟨rfl, hle, fun id => (hw id).trans_le hle, hle, fun id _ => hsent _,
    fun id => by rw [hw, hsent]; exact Nat.le_add_right _ _, by rw [hsent]; exact Nat.le_add_right _ _⟩

theorem step_windows (h : Windows g c) (hst : Guarded KeepsWindows ConnStep c e c')
    (hg : ∀ id, g id + e.grants id ≤ g' id) : Windows g' c' := by
  have hmono : ∀ id, g id ≤ g' id := fun id => (Nat.le_add_right _ _).trans (hg id)
  obtain ⟨hk, hst⟩ := hst
  rcases hst.inv with ⟨f, calls, rfl, _, rfl⟩ | ⟨cl, rfl, rfl⟩ | ⟨_, _, _, ho, rfl⟩
  · simp only [KeepsWindows] at hk
    by_cases hi : c.Ignores f.streamId
    · rw [Conn.handleFrame, if_pos hi]
      exact h.mono hmono
    · by_cases hd : FrameType.ofCode f.type = some .data
      · rw [hd] at hk
        rw [Conn.handleFrame, if_neg hi, hd]
        exact (h.handleDataFrame (hk hi)).mono hmono
      · by_cases hs : FrameType.ofCode f.type = some .settings
        · rw [hs] at hk
          rw [Conn.handleFrame, if_neg hi, hs]
          exact (h.handleSettingsFrame hk).mono hmono
        · by_cases hw : FrameType.ofCode f.type = some .windowUpdate
          · rw [Conn.handleFrame, if_neg hi, hw]
            refine h.handleWindowUpdateFrame hmono ?_
            have := hg f.streamId
            rwa [Event.grants, if_pos ⟨hw, rfl⟩] at this
          · have hwithin : Within c.flowControl calls := by
              split at hk
              · exact absurd ‹_› hd
              · exact absurd ‹_› hs
              · exact hk
            exact (h.handles (Conn.handleFrame_handles hd hs hw) hwithin).mono hmono
  · obtain ⟨h1, h2, _⟩ := hk
    exact (h.call cl h1 h2).mono hmono
  · refine Windows.mono (h.sameWindows rfl rfl (ho.mono fun e he => ?_)) hmono
    cases e <;> trivial

end

end NeForce.Http2
