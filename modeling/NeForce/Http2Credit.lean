import NeForce.Http2Trace

/-! # The window of the peer

The bytes of DATA frames that a connection receives, and the WINDOW_UPDATE frames for the whole connection by which it
gives them back.  Nothing is lost in runs whose DATA frames are all for pending streams and find room for
the WINDOW_UPDATE frame that they cause (`run_credit`).  A DATA frame for a stream that is not pending any more is
answered with RST_STREAM, and its bytes are not counted (`discarded_not_credited`). -/

namespace NeForce.Run

variable {σ ι : Type} {step : σ → ι → σ → Prop} {s s' : σ} {ls : List ι}

/-- A quantity that every step changes by an amount that depends on the label only. -/
theorem sum {P : σ → Prop} {f : σ → ℕ} {g : ι → ℕ} (hr : Run step s ls s') (h0 : P s)
    (hstep : ∀ {s l s'}, P s → step s l s' → P s' ∧ f s' = f s + g l) : f s' = f s + (ls.map g).sum := by
  induction hr with
  | nil s => rfl
  | cons h _ ih =>
      obtain ⟨h1, h2⟩ := hstep h0 h
      rw [ih h1, h2, List.map_cons, List.sum_cons, Nat.add_assoc]

end NeForce.Run

namespace NeForce.Http2

open Hpack
open Output (Logs)

/-- The window that a frame gives back to the peer, for the whole connection. -/
def Frame.credit : Frame → ℕ
  | .windowUpdate id increment => if id = 0 then increment else 0
  | _ => 0

/-- The bytes that an event takes from the window of the peer. -/
def Event.dataBytes : Event → ℕ
  | .frame f _ => if FrameType.ofCode f.type = some .data then f.payload.length else 0
  | _ => 0

/-- The effects of everything but a DATA frame. -/
def Effect.Uncredited : Effect → Prop
  | .frame (.windowUpdate _ _) => False
  | _ => True

theorem Effect.OfCall.uncredited {e : Effect} (h : e.OfCall) : e.Uncredited := by
  cases e with
  | frame f => cases f <;> trivial
  | _ => trivial

theorem Effect.OfFrame.uncredited {e : Effect} (h : e.OfFrame) : e.Uncredited := by
  cases e with
  | frame f => cases f <;> trivial
  | _ => trivial

theorem Effect.Uncredited.credit {f : Frame} (h : (Effect.frame f).Uncredited) : f.credit = 0 := by
  cases f <;> first | rfl | exact h.elim

namespace Conn

variable {c c' : Conn} {id n : ℕ} {flags : UInt8} {payload : Bytes} {calls : List Call} {f : RawFrame} {e : Event}
  {ls : List Event}

/-- What the connection gave back, and what it will give back. -/
def credit (c : Conn) : ℕ := c.output.sent Frame.credit + c.connectionConsumed

/-- Neither the counter nor the WINDOW_UPDATE frames change. -/
def SameCredit (c c' : Conn) : Prop :=
  c'.connectionConsumed = c.connectionConsumed ∧ Logs Effect.Uncredited c.output c'.output

theorem SameCredit.refl (c : Conn) : c.SameCredit c := ⟨rfl, .refl _⟩

theorem SameCredit.trans {c₁ c₂ c₃ : Conn} (h : c₁.SameCredit c₂) (h' : c₂.SameCredit c₃) : c₁.SameCredit c₃ :=
  ⟨h'.1.trans h.1, h.2.trans h'.2⟩

theorem SameCredit.credit (h : c.SameCredit c') : c'.credit = c.credit := by
  rw [Conn.credit, Conn.credit, h.1, h.2.sent fun f hf => hf.credit]

theorem call_sameCredit (c : Conn) (cl : Call) : c.SameCredit (c.call cl) :=
  ⟨(c.call_keeps cl).connectionConsumed, (c.call_logs cl).mono fun _ => Effect.OfCall.uncredited⟩

theorem handleRequest_sameCredit (c : Conn) (calls : List Call) (id : ℕ) (headers : List HeaderField) (data : Bytes) :
    c.SameCredit (c.handleRequest calls id headers data) := by
  obtain ⟨h1, h2⟩ := c.handleRequest_spec calls id headers data
  exact ⟨h1.connectionConsumed, ((Logs.refl _).emit trivial).trans (h2.mono fun _ => Effect.OfCall.uncredited)⟩

theorem foldl_call_sameCredit (c : Conn) (calls : List Call) : c.SameCredit (calls.foldl call c) :=
  ⟨(c.foldl_call calls).1.connectionConsumed, (c.foldl_call calls).2.mono fun _ => Effect.OfCall.uncredited⟩

theorem Handles.sameCredit (h : c.Handles calls c') : c.SameCredit c' := by
  have prepares : ∀ {c₁}, c.Prepares c₁ → c.SameCredit c₁ :=
    fun h => ⟨h.connectionConsumed, h.output.mono fun _ => Effect.OfFrame.uncredited⟩
  rcases h with h | ⟨c₁, h, ha⟩
  · exact prepares h
  · refine ((prepares h).trans (foldl_call_sameCredit c₁ calls)).trans ⟨ha.connectionConsumed, ?_⟩
    rw [ha.output]
    exact .refl _

/-- Only DATA frames change the credit. -/
theorem handleFrame_sameCredit (h : FrameType.ofCode f.type ≠ some .data) : c.SameCredit (c.handleFrame calls f) := by
  by_cases hs : FrameType.ofCode f.type = some .settings
  · simp only [handleFrame, hs, handleSettingsFrame]
    split
    · exact .refl _
    · split
      · exact .refl _
      · exact ⟨rfl, (Logs.refl _).writeFrame trivial trivial⟩
  · by_cases hw : FrameType.ofCode f.type = some .windowUpdate
    · simp only [handleFrame, hw, handleWindowUpdateFrame]
      split
      · exact .refl _
      · split
        · exact .refl _
        · generalize (if f.streamId = 0 then _ else _) = current
          split
          · exact ⟨rfl, (Logs.refl _).closeConnection _ trivial⟩
          · split
            · exact c.call_sameCredit (.sendGoaway .flowControlError)
            · exact .refl _
    · exact (handleFrame_handles h hs hw).sameCredit

/-- The window of a DATA frame is counted, or given back. -/
theorem receiveCredit_credit (h0 : id ≠ 0) (hc : c.connectionConsumed < windowUpdateThreshold) (hn : n < 256 ^ 3)
    (hfit : windowUpdateThreshold ≤ c.connectionConsumed + n →
      c.output.Fits (.windowUpdate 0 (c.connectionConsumed + n))) :
    (c.receiveCredit id n).credit = c.credit + n ∧
      (c.receiveCredit id n).connectionConsumed < windowUpdateThreshold := by
  rw [windowUpdateThreshold] at *
  have hsum : add32 c.connectionConsumed n = c.connectionConsumed + n := add32_eq (by omega)
  -- the WINDOW_UPDATE frame of the stream does not count
  have hstream : ∀ (o : Output) (k : ℕ), (o.sendWindowUpdate id k).sent Frame.credit = o.sent Frame.credit := by
    intro o k
    unfold Output.sendWindowUpdate
    simp only
    split
    · rfl
    · rw [Output.sent_writeFrame, Frame.credit, if_neg h0, ite_self, Nat.add_zero]
  have houtput : (c.receiveCredit id n).output.sent Frame.credit =
      (if 65535 ≤ c.connectionConsumed + n then c.output.sendWindowUpdate 0 (c.connectionConsumed + n)
        else c.output).sent Frame.credit := by
    simp only [receiveCredit, windowUpdateThreshold, hsum]
    split
    · exact hstream _ _
    · rfl
  have hconsumed : (c.receiveCredit id n).connectionConsumed =
      if 65535 ≤ c.connectionConsumed + n then 0 else c.connectionConsumed + n := by
    simp only [receiveCredit, windowUpdateThreshold, hsum]
  rw [credit, credit, houtput, hconsumed]
  split
  · rename_i hge
    have hmask : (c.connectionConsumed + n) &&& 0x7FFFFFFF = c.connectionConsumed + n := by
      rw [Nat.and_two_pow_sub_one_eq_mod _ 31, Nat.mod_eq_of_lt (by omega)]
    rw [Output.sendWindowUpdate, hmask, if_neg (by omega), Output.sent_writeFrame, if_pos (hfit hge), Frame.credit, if_pos rfl]
    omega
  · omega

theorem handleDataFrame_credit (calls : List Call) (flags : UInt8) (payload : Bytes) {ps : PendingStream}
    (hp : c.pending.lookup id = some ps) :
    (c.receiveCredit id payload.length).SameCredit (c.handleDataFrame calls flags id payload) := by
  rw [handleDataFrame, hp]
  simp only
  split
  · exact handleRequest_sameCredit (updateStream _ id _) calls id _ _
  · exact .refl _

end Conn

/-! ### Runs -/

/-- A DATA frame is for a pending stream that is not ignored, and finds room for the WINDOW_UPDATE frame that is due. -/
def KeepsCredit (c : Conn) : Event → Prop
  | .frame f _ => FrameType.ofCode f.type = some .data →
      f.streamId ≠ 0 ∧ ¬c.Ignores f.streamId ∧ c.pending.lookup f.streamId ≠ none ∧
        (Conn.windowUpdateThreshold ≤ c.connectionConsumed + f.payload.length →
          c.output.Fits (.windowUpdate 0 (c.connectionConsumed + f.payload.length)))
  | _ => True

instance (c : Conn) (e : Event) : Decidable (KeepsCredit c e) := by
  unfold KeepsCredit
  split <;> infer_instance

section

variable {c c' : Conn} {e : Event} {ls : List Event} {l : LocalSettings}

theorem step_credit (hc : c.connectionConsumed < Conn.windowUpdateThreshold)
    (hst : Guarded KeepsCredit ConnStep c e c') :
    c'.connectionConsumed < Conn.windowUpdateThreshold ∧ c'.credit = c.credit + e.dataBytes := by
  obtain ⟨hk, hst⟩ := hst
  have same : c.SameCredit c' → e.dataBytes = 0 →
      c'.connectionConsumed < Conn.windowUpdateThreshold ∧ c'.credit = c.credit + e.dataBytes :=
    fun h h0 => ⟨by rw [h.1]; exact hc, by rw [h.credit, h0, Nat.add_zero]⟩
  rcases hst.inv with ⟨f, calls, rfl, hlen, rfl⟩ | ⟨cl, rfl, rfl⟩ | ⟨hidle, _, _, ho, rfl⟩
  · by_cases ht : FrameType.ofCode f.type = some .data
    · obtain ⟨h0, hi, hp, hfit⟩ := hk ht
      obtain ⟨ps, hps⟩ := Option.ne_none_iff_exists'.mp hp
      obtain ⟨h1, h2⟩ := Conn.receiveCredit_credit h0 hc hlen hfit
      have h3 := Conn.handleDataFrame_credit calls f.flags f.payload hps
      rw [Conn.handleFrame, if_neg hi, ht, Event.dataBytes, if_pos ht]
      exact ⟨by rw [h3.1]; exact h2, by rw [h3.credit, h1]⟩
    · exact same (Conn.handleFrame_sameCredit ht) (if_neg ht)
  · exact same (c.call_sameCredit cl) rfl
  · refine same ⟨rfl, ho.mono fun e he => ?_⟩ ?_
    · cases e <;> trivial
    · cases e <;> first | rfl | exact hidle.elim

/-- **No window is lost**: what was given back and what is counted is what was received. -/
theorem run_credit (hr : Run (Guarded KeepsCredit ConnStep) (.ready l) ls c) :
    c.output.sent Frame.credit + c.connectionConsumed = (ls.map Event.dataBytes).sum := by
  have hready : (Conn.ready l).credit = 0 := by
    rw [Conn.credit, (Conn.ready_logs l).sent fun f hf => (Effect.OfCall.uncredited hf).credit]
    rfl
  have hsum := hr.sum (f := Conn.credit) (g := Event.dataBytes)
    (P := fun c => c.connectionConsumed < Conn.windowUpdateThreshold) (show 0 < 65535 by decide)
    fun h0 hst => step_credit h0 hst
  rw [hready, Nat.zero_add] at hsum
  exact hsum

/-- HEADERS, and DATA with two bytes. -/
theorem run_credit_sample : ∃ ls : List Event, ∃ c : Conn, c.connectionConsumed = 2 ∧
    c.output.sent Frame.credit + c.connectionConsumed = (ls.map Event.dataBytes).sum := by
  have hc : (([.readable, .frame ⟨0x1, 0x4, 1, [0x82]⟩ [], .frame ⟨0x0, 0x0, 1, [1, 2]⟩ []] : List Event).foldlM
      (Run.guardExec KeepsCredit Conn.exec) (.ready {})).map Conn.connectionConsumed = some 2 := by decide
  obtain ⟨c, hc, h2⟩ := Option.map_eq_some_iff.mp hc
  exact ⟨_, c, h2, run_credit (Run.of_guardExec hc)⟩

/-- One byte for a stream that is not pending. -/
theorem discarded_not_credited : ∃ ls c, Run ConnStep (.ready {}) ls c ∧
    c.output.sent Frame.credit + c.connectionConsumed ≠ (ls.map Event.dataBytes).sum := by
  have hc : (([.readable, .frame ⟨0x0, 0x0, 1, [1]⟩ []] : List Event).foldlM Conn.exec (.ready {})).map Conn.credit =
      some 0 := by decide
  obtain ⟨c, hc, h0⟩ := Option.map_eq_some_iff.mp hc
  refine ⟨_, c, Run.of_foldlM hc, ?_⟩
  rw [← Conn.credit, h0]
  decide

end

end NeForce.Http2
