import NeForce.WebsocketReader

/-! # The two receive paths of a WebSocket session

The thread that calls `read_frame` and the events that call `try_parse_frames` should make the same calls of
`dispatch` and refuse the same bytes.  They differ in two ways.  `try_parse_frames` lacks the checks of `read_frame` on
control frames, and it goes on with the next event after it has refused a frame, where the thread ends.
`calls_agree_iff` says that these are the only differences. -/

namespace NeForce.Websocket

variable {D : Type}

/-- The calls of both paths are the same: the stream in pieces, and the stream as a whole. -/
def SameCalls (z : Inflater D) (s : Session D) (events : List Bytes) : Prop :=
  calls (onReadables z (s, []) events).1.log = calls (readFrames z (s, events.flatten)).1.log

/-- A turn of `try_parse_frames` without a difference: in front is no odd control frame, or a frame has been refused
before and nothing is found. -/
structure InStep (c : Reader D) : Prop where
  control : ¬ c.1.Failed → ¬ OddControl c.2
  quiet : c.1.Failed → parseFrame c.1.deflateConfig.active c.2 = .wait

variable {z : Inflater D} {n : ℕ} {c r : Reader D}

theorem turn_receiveFrame (h : ¬ OddControl c.2) : turn z receiveFrame c = turn z parseFrame c := by
  unfold turn
  rw [receiveFrame_eq h]

/-! ### One event -/

/-- Without odd control frames the two loops are the same. -/
theorem Ran.receive (h : Ran z parseFrame c r) (hc : ¬ c.1.Failed) (hn : c.2.length < n)
    (hin : ∀ t ∈ frameTurns z n c, InStep t) : Ran z receiveFrame c r := by
  induction h generalizing n with
  | stopped h1 => exact .stopped h1
  | @wait c h1 hw =>
      obtain ⟨n, rfl⟩ : ∃ m, n = m + 1 := ⟨n - 1, by omega⟩
      have hodd := (hin c (by simp [frameTurns, h1])).control hc
      exact .wait h1 (by rw [receiveFrame_eq hodd, hw])
  | @fail c h1 hw hgo =>
      obtain ⟨n, rfl⟩ : ∃ m, n = m + 1 := ⟨n - 1, by omega⟩
      have hodd := (hin c (by simp [frameTurns, h1])).control hc
      rw [← turn_receiveFrame hodd] at hgo ⊢
      exact .fail h1 (by rw [receiveFrame_eq hodd]; exact hw) hgo
  | @go c r h1 hgo _ ih =>
      obtain ⟨n, rfl⟩ : ∃ m, n = m + 1 := ⟨n - 1, by omega⟩
      have hlt := turn_shrinks parseFrame_steady hgo
      have hturns : frameTurns z (n + 1) c = c :: frameTurns z n (turn z parseFrame c).1 := by
        simp [frameTurns, h1, hgo]
      rw [hturns] at hin
      have hodd := (hin c List.mem_cons_self).control hc
      have hrec := ih (turn_go_not_failed hgo hc) (by omega) fun t ht => hin t (List.mem_cons_of_mem _ ht)
      rw [← turn_receiveFrame hodd] at hgo hrec
      exact .go h1 hgo hrec

/-- The reasons with which the blocking path refuses odd control frames. -/
def RefusedOdd (s : Session D) : Prop :=
  .refused protocolError fragmentedControl ∈ s.log ∨ .refused protocolError controlTooLarge ∈ s.log

theorem Ran.refusedOdd_of_odd (h : Ran z receiveFrame c r) (hrun : c.1.running = true) (hodd : OddControl c.2) :
    RefusedOdd r.1 ∧ r.1.Failed := by
  have hturn : ∃ reason, turn z receiveFrame c = (((c.1.sendCloseFrame protocolError reason).emit
      (.refused protocolError reason), c.2), false) ∧ (reason = fragmentedControl ∨ reason = controlTooLarge) := by
    unfold turn
    rcases receiveFrame_odd c.1.deflateConfig.active hodd with h | h <;> rw [h]
    · exact ⟨_, rfl, .inl rfl⟩
    · exact ⟨_, rfl, .inr rfl⟩
  obtain ⟨reason, hturn, hreason⟩ := hturn
  have hw : receiveFrame c.1.deflateConfig.active c.2 ≠ .wait := by
    rcases receiveFrame_odd c.1.deflateConfig.active hodd with h | h <;> rw [h] <;> simp
  have hgo : (turn z receiveFrame c).2 = false := by rw [hturn]
  have hr : r = (turn z receiveFrame c).1 := h.unique (.fail hrun hw hgo)
  refine ⟨?_, hr ▸ turn_fail hw hgo⟩
  rw [hr, hturn]
  unfold RefusedOdd
  have hmem : Effect.refused protocolError reason ∈
      ((c.1.sendCloseFrame protocolError reason).emit (.refused protocolError reason)).log :=
    List.mem_append_right _ (List.mem_singleton_self _)
  rcases hreason with rfl | rfl
  · exact .inl hmem
  · exact .inr hmem

/-- At the first odd control frame the blocking path ends. -/
theorem Ran.refusedOdd (h : Ran z receiveFrame c r) (hc : ¬ c.1.Failed)
    (hout : ∃ t ∈ frameTurns z n c, ¬ InStep t) : RefusedOdd r.1 ∧ r.1.Failed := by
  induction n generalizing c with
  | zero =>
      obtain ⟨t, ht, -⟩ := hout
      cases ht
  | succ n ih =>
      obtain ⟨t, ht, hbad⟩ := hout
      unfold frameTurns at ht
      cases hrun : c.1.running with
      | false => simp [hrun] at ht
      | true =>
          by_cases hodd : OddControl c.2
          · exact h.refusedOdd_of_odd hrun hodd
          · simp only [hrun, if_true, List.mem_cons] at ht
            rcases ht with rfl | ht
            · exact absurd ⟨fun _ => hodd, fun hf => absurd hf hc⟩ hbad
            · cases hgo : (turn z parseFrame c).2 with
              | false => simp [hgo] at ht
              | true =>
                  rw [hgo, if_pos rfl] at ht
                  have hgo' := hgo
                  rw [← turn_receiveFrame hodd] at hgo'
                  cases h with
                  | stopped h1 => exact (Bool.false_ne_true (h1.symm.trans hrun)).elim
                  | wait _ hw => exact absurd hw (turn_go hgo')
                  | fail _ _ hno => exact (Bool.false_ne_true (hno.symm.trans hgo')).elim
                  | go _ _ h2 =>
                      rw [turn_receiveFrame hodd] at h2
                      exact ih h2 (turn_go_not_failed hgo hc) ⟨t, ht, hbad⟩

/-! ### All events -/

@[simp] theorem calls_append (a b : List Effect) : calls (a ++ b) = calls a ++ calls b :=
  List.filter_append a b

theorem mem_calls {status : ℕ} {reason : Bytes} {log : List Effect} :
    .refused status reason ∈ calls log ↔ .refused status reason ∈ log := by
  unfold calls
  simp [Effect.isCall]

/-- The event-driven path never gives the reasons for odd control frames. -/
theorem onReadables_not_refusedOdd (c : Reader D) (events : List Bytes) (h : ¬ RefusedOdd c.1) :
    ¬ RefusedOdd (onReadables z c events).1 := by
  have hstep (c : Reader D) (data : Bytes) (reason : Bytes) (hodd : reason = fragmentedControl ∨ reason = controlTooLarge)
      (hmem : .refused protocolError reason ∈ (onReadable z c data).1.log) :
      .refused protocolError reason ∈ c.1.log := by
    cases hrun : c.1.running with
    | false => rwa [onReadable_stopped hrun] at hmem
    | true =>
        refine ((onReadable_ran hrun data).refused hmem).resolve_right ?_
        rintro ⟨active, bs, hp⟩
        obtain ⟨h1, h2⟩ := parseFrame_refuse hp
        rcases hodd with rfl | rfl
        · exact h1 rfl
        · exact h2 rfl
  induction events generalizing c with
  | nil => exact h
  | cons data events ih =>
      refine ih _ fun hr => h ?_
      exact hr.imp (hstep c data _ (.inl rfl)) (hstep c data _ (.inr rfl))

/-- A turn that finds something adds a call. -/
theorem Ran.calls_lt (h : Ran z parseFrame c r) (hrun : c.1.running = true)
    (hw : parseFrame c.1.deflateConfig.active c.2 ≠ .wait) : (calls c.1.log).length < (calls r.1.log).length := by
  obtain ⟨es, e, h1, h2, -⟩ := turn_log (z := z) hw
  have hturn : (calls c.1.log).length < (calls (turn z parseFrame c).1.1.log).length := by
    rw [h1, calls_append, calls_append, show calls [e] = [e] by simp [calls, h2]]
    simp only [List.length_append, List.length_singleton]
    omega
  cases h with
  | stopped h1 => exact (Bool.false_ne_true (h1.symm.trans hrun)).elim
  | wait _ hw' => exact absurd hw' hw
  | fail => exact hturn
  | go _ _ h2 =>
      obtain ⟨es', h3⟩ := h2.log
      rw [h3, calls_append, List.length_append]
      omega

/-- After a refused frame the calls stay the same exactly if nothing more is found. -/
theorem calls_failed_iff (hf : c.1.Failed) (events : List Bytes) :
    calls (onReadables z c events).1.log = calls c.1.log ↔ ∀ t ∈ turns z c events, InStep t := by
  induction events generalizing c with
  | nil => simp [onReadables, turns]
  | cons data events ih =>
      rw [onReadables_cons, turns]
      cases hrun : c.1.running with
      | false =>
          rw [onReadable_stopped hrun]
          simpa using ih hf
      | true =>
          have hran := onReadable_ran (z := z) hrun data
          rw [if_pos rfl]
          by_cases hw : parseFrame c.1.deflateConfig.active (c.2 ++ data) = .wait
          · have hon : onReadable z c data = (c.1, c.2 ++ data) := hran.unique (.wait hrun hw)
            have hturns : frameTurns z ((c.2 ++ data).length + 1) (c.1, c.2 ++ data) = [(c.1, c.2 ++ data)] := by
              have hturn : turn z parseFrame (c.1, c.2 ++ data) = ((c.1, c.2 ++ data), false) := turn_wait hw
              simp [frameTurns, hrun, hturn]
            have hfirst : InStep (c.1, c.2 ++ data) := ⟨fun h => absurd hf h, fun _ => hw⟩
            rw [hon, hturns]
            simp only [List.singleton_append, List.forall_mem_cons, hfirst, true_and]
            exact ih hf
          · have hlt := hran.calls_lt hrun hw
            obtain ⟨es, hes⟩ := onReadables_log (z := z) (onReadable z c data) events
            constructor
            · intro heq
              rw [hes, calls_append] at heq
              have hlen := congrArg List.length heq
              rw [List.length_append] at hlen
              dsimp only at hlt
              omega
            · intro hall
              have hmem : (c.1, c.2 ++ data) ∈ frameTurns z ((c.2 ++ data).length + 1) (c.1, c.2 ++ data) := by
                simp [frameTurns, hrun]
              exact absurd ((hall _ (List.mem_append_left _ hmem)).quiet hf) hw

/-- The calls of both paths, from a state in which nothing has been refused and nothing is found. -/
theorem calls_open_iff (hrun : c.1.running = true) (hc : ¬ c.1.Failed) (hodd : ¬ RefusedOdd c.1)
    (hw : receiveFrame c.1.deflateConfig.active c.2 = .wait) (events : List Bytes)
    (hr : Ran z receiveFrame (c.1, c.2 ++ events.flatten) r) :
    calls (onReadables z c events).1.log = calls r.1.log ↔ ∀ t ∈ turns z c events, InStep t := by
  induction events generalizing c with
  | nil =>
      rw [List.flatten_nil, List.append_nil] at hr
      rw [hr.unique (.wait hrun hw)]
      simp [onReadables, turns]
  | cons data events ih =>
      have hran := onReadable_ran (z := z) hrun data
      have hrec := ran_frameLoop (z := z) (c := (c.1, c.2 ++ data)) receiveFrame_steady (Nat.lt_succ_self _)
      rw [List.flatten_cons, ← List.append_assoc] at hr
      rw [onReadables_cons, turns, if_pos hrun, List.forall_mem_append]
      by_cases hin : ∀ t ∈ frameTurns z ((c.2 ++ data).length + 1) (c.1, c.2 ++ data), InStep t
      · -- The two loops have done the same with the bytes so far.
        have hsame := (hran.receive hc (Nat.lt_succ_self _) hin).unique hrec
        rw [← hsame] at hrec
        rw [and_iff_right hin]
        by_cases hf : (onReadable z c data).1.Failed
        · have hend := hrec.append_failed receiveFrame_steady hc hf events.flatten
          rw [hr.unique hend]
          exact calls_failed_iff hf events
        · obtain ⟨hrun', hw'⟩ := hrec.waits hrun hf
          refine ih hrun' hf ?_ hw' ?_
          · exact onReadables_not_refusedOdd c [data] hodd
          · have hnext := ran_frameLoop (z := z) (c := ((onReadable z c data).1, (onReadable z c data).2 ++ events.flatten))
              receiveFrame_steady (Nat.lt_succ_self _)
            rw [hr.unique (hrec.append receiveFrame_steady hrun hf hnext)]
            exact hnext
      · -- The blocking path refuses an odd control frame, with a reason that the other path does not have.
        obtain ⟨t, ht⟩ := not_forall.mp hin
        obtain ⟨ht, hbad⟩ := Classical.not_imp.mp ht
        obtain ⟨href, hf⟩ := hrec.refusedOdd hc ⟨t, ht, hbad⟩
        rw [hr.unique (hrec.append_failed receiveFrame_steady hc hf events.flatten)]
        refine iff_of_false (fun heq => ?_) fun h => hin h.1
        have hno := onReadables_not_refusedOdd (z := z) c (data :: events) hodd
        rw [onReadables_cons] at hno
        refine hno (href.imp (fun h => ?_) fun h => ?_)
        · rwa [← mem_calls, heq, mem_calls]
        · rwa [← mem_calls, heq, mem_calls]

theorem Session.start_not_failed (cfg : DeflateConfig) (d : Option D) : ¬ (Session.start cfg d).Failed := by
  rintro ⟨e, he, -⟩
  cases he

/-- **The two receive paths.**  They make the same calls if and only if no turn of the event-driven one begins at an
odd control frame before a frame has been refused, or finds anything after that. -/
theorem calls_agree_iff (z : Inflater D) (cfg : DeflateConfig) (d : Option D) (events : List Bytes) :
    SameCalls z (.start cfg d) events ↔ ∀ t ∈ turns z (.start cfg d, []) events, InStep t := by
  refine calls_open_iff (c := (Session.start cfg d, [])) rfl (Session.start_not_failed cfg d) ?_ rfl events ?_
  · rintro (h | h) <;> cases h
  · exact ran_frameLoop receiveFrame_steady (Nat.lt_succ_self _)

/-- A ping without FIN is refused by the thread and answered by the events. -/
theorem fragmented_ping_differs : ¬ SameCalls noInflater (.start ⟨false, false⟩ none) [[0x09, 0x00]] := by
  unfold SameCalls
  decide

end NeForce.Websocket
