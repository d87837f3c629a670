import NeForce.WebsocketWriter

/-! # No data after a Close frame

The invariant of the two queues in runs that are orderly (`Writer.Orderly`), and what the peer reads in them. -/

namespace NeForce.Websocket

/-! ### One queue -/

/-- What a loop of `send_all` logs: whole frames, and then maybe a part of one. -/
def CutLast (log : List (OutFrame × ℕ)) : Prop :=
  Whole log ∨ ∃ before f n, log = before ++ [(f, n)] ∧ Whole before ∧ n < f.bytes.length

theorem sendQueue_spec (socketOpen : Bool) (q : List OutFrame) (room : ℕ) :
    CutLast (sendQueue socketOpen q room).log ∧
      q = complete (sendQueue socketOpen q room).log ++ (sendQueue socketOpen q room).left ∧
      ((sendQueue socketOpen q room).ok = true →
        Whole (sendQueue socketOpen q room).log ∧ (sendQueue socketOpen q room).left = []) := by
  have hnil : Whole [] := fun _ h => absurd h List.not_mem_nil
  induction q generalizing room with
  | nil => exact ⟨.inl hnil, rfl, fun _ => ⟨hnil, rfl⟩⟩
  | cons f fs ih =>
      unfold sendQueue
      split
      · exact ⟨.inl hnil, rfl, fun h => by cases h⟩
      · split
        · obtain ⟨h1, h2, h3⟩ := ih (room - f.bytes.length)
          have hone : Whole [(f, f.bytes.length)] := by
            intro e he
            rw [List.mem_singleton.mp he]
            exact .inr rfl
          refine ⟨?_, ?_, fun hok => ⟨hone.append (h3 hok).1, (h3 hok).2⟩⟩
          · rcases h1 with h1 | ⟨before, g, n, hlog, hb, hn⟩
            · exact .inl (hone.append h1)
            · exact .inr ⟨(f, f.bytes.length) :: before, g, n, congrArg (_ :: ·) hlog, hone.append hb, hn⟩
          · have hc (log : List (OutFrame × ℕ)) : complete ((f, f.bytes.length) :: log) = f :: complete log := by
              simp [complete]
            dsimp only
            rw [hc, List.cons_append, ← h2]
        · next hlt =>
          have hne : room ≠ f.bytes.length := by omega
          refine ⟨.inr ⟨[], f, room, rfl, hnil, by omega⟩, ?_, fun h => by cases h⟩
          simp [complete, hne]

theorem sendQueue_started (socketOpen : Bool) (q : List OutFrame) (room : ℕ) :
    (started (sendQueue socketOpen q room).log).Sublist q := by
  induction q generalizing room with
  | nil => exact .slnil
  | cons f fs ih =>
      unfold sendQueue
      split
      · exact List.nil_sublist _
      · split
        · have hs (log : List (OutFrame × ℕ)) : started ((f, f.bytes.length) :: log) = f :: started log := by
            simp [started, f.bytes_length_pos]
          dsimp only
          rw [hs]
          exact (ih _).cons_cons f
        · unfold started
          have hsub := (List.filter_sublist (p := fun e : OutFrame × ℕ => 0 < e.2) (l := [(f, room)])).map (·.1)
          exact hsub.trans (List.singleton_sublist.mpr List.mem_cons_self)

/-- A socket that takes nothing. -/
theorem sendQueue_dry {socketOpen : Bool} {room : ℕ} (h : room = 0 ∨ socketOpen = false) (q : List OutFrame) :
    (∀ e ∈ (sendQueue socketOpen q room).log, e.2 = 0) ∧
      ((sendQueue socketOpen q room).room = 0 ∨ socketOpen = false) := by
  cases q with
  | nil => exact ⟨fun _ h => absurd h List.not_mem_nil, h⟩
  | cons f fs =>
      unfold sendQueue
      have hpos := f.bytes_length_pos
      rcases h with rfl | rfl
      · split
        · exact ⟨fun _ h => absurd h List.not_mem_nil, .inl rfl⟩
        · rw [if_neg (by omega)]
          exact ⟨fun e he => by rw [List.mem_singleton.mp he], .inl rfl⟩
      · exact ⟨fun _ h => absurd h List.not_mem_nil, .inr rfl⟩

theorem Whole.framed_append {log es : List (OutFrame × ℕ)} (h : Whole log) (hes : CutLast es) : Framed (log ++ es) := by
  rcases hes with hes | ⟨before, f, n, rfl, hb, hn⟩
  · exact .inl (h.append hes)
  · rw [← List.append_assoc]
    rcases Nat.eq_zero_or_pos n with rfl | hpos
    · refine .inl ((h.append hb).append fun e he => ?_)
      rw [List.mem_singleton.mp he]
      exact .inl rfl
    · exact .inr ⟨log ++ before, f, n, [], rfl, h.append hb, hpos, hn, fun _ h => absurd h List.not_mem_nil⟩

theorem Framed.append_zeros {log es : List (OutFrame × ℕ)} (h : Framed log) (hes : ∀ e ∈ es, e.2 = 0) :
    Framed (log ++ es) := by
  rcases h with h | ⟨before, f, n, after, rfl, hb, hpos, hn, ha⟩
  · exact .inl (h.append fun e he => .inl (hes e he))
  · refine .inr ⟨before, f, n, after ++ es, by simp, hb, hpos, hn, ?_⟩
    intro e he
    rcases List.mem_append.mp he with he | he
    · exact ha e he
    · exact hes e he

theorem Framed.whole {w : Writer} (h : Framed w.log) (ht : ¬ w.Torn) : Whole w.log := by
  refine h.resolve_right ?_
  rintro ⟨before, f, n, after, hlog, -, hpos, hn, -⟩
  exact ht ⟨(f, n), by rw [hlog]; simp, hpos, hn⟩

theorem CutLast.append {a b : List (OutFrame × ℕ)} (ha : Whole a) (hb : CutLast b) : CutLast (a ++ b) := by
  rcases hb with hb | ⟨before, f, n, rfl, hb, hn⟩
  · exact .inl (ha.append hb)
  · exact .inr ⟨a ++ before, f, n, by simp, ha.append hb, hn⟩

/-! ### The invariant -/

/-- The second frame may follow the first. -/
def MayFollow (f g : OutFrame) : Prop := f.IsClose → ¬ g.IsData

/-- The frame that the thread is sending. -/
def Writer.inHand (w : Writer) : List OutFrame :=
  match w.thread with
  | .sending f => [f]
  | _ => []

structure Writer.Ok (eventDriven : Bool) (w : Writer) : Prop where
  framed : Framed w.log
  /-- Without the control queue, nothing is out of order. -/
  order : (complete w.log ++ w.inHand ++ w.writeQueue).Pairwise MayFollow
  written : (started w.log).Pairwise MayFollow
  overtakes : ∀ f ∈ w.ctrlQueue, f.IsClose → ∀ g ∈ w.writeQueue, ¬ g.IsData
  control : ∀ f ∈ w.ctrlQueue, ¬ f.IsData
  known : ∀ f ∈ complete w.log ++ w.inHand ++ w.ctrlQueue ++ w.writeQueue, f ∈ w.accepted
  thread : eventDriven = true → w.thread = .done
  torn : eventDriven = false → w.Torn → w.thread = .done

theorem Writer.start_ok (eventDriven : Bool) : (Writer.start eventDriven).Ok eventDriven where
  framed := .inl fun _ h => absurd h List.not_mem_nil
  order := by cases eventDriven <;> exact .nil
  written := .nil
  overtakes _ h := absurd h List.not_mem_nil
  control _ h := absurd h List.not_mem_nil
  known := by cases eventDriven <;> exact fun _ h => absurd h List.not_mem_nil
  thread h := by rw [h]; rfl
  torn := by rintro - ⟨e, he, -⟩; cases he

theorem ControlFrame.not_isData (f : ControlFrame) : ¬ f.1.IsData := by
  have := f.2
  unfold OutFrame.IsData
  omega

/-- Frames of the control queue may come between what is written and the data queue. -/
theorem pairwise_insert {a ctrl rest : List OutFrame} (h : (a ++ rest).Pairwise MayFollow)
    (hc : ∀ f ∈ ctrl, ¬ f.IsData) (ho : ∀ f ∈ ctrl, f.IsClose → ∀ g ∈ rest, ¬ g.IsData) :
    (a ++ ctrl ++ rest).Pairwise MayFollow := by
  obtain ⟨h1, h2, h3⟩ := List.pairwise_append.mp h
  have hctrl : ctrl.Pairwise MayFollow := List.pairwise_of_forall_mem_list fun f _ g hg _ => hc g hg
  refine List.pairwise_append.mpr ⟨List.pairwise_append.mpr ⟨h1, hctrl, fun f _ g hg _ => hc g hg⟩, h2, ?_⟩
  intro f hf g hg
  rcases List.mem_append.mp hf with hf | hf
  · exact h3 f hf g hg
  · exact fun hclose => ho f hf hclose g hg

section

variable {eventDriven : Bool} {w : Writer}

theorem Writer.Ok.pushData (h : w.Ok eventDriven) {f : OutFrame} (hf : f.IsData → ∀ g ∈ w.accepted, ¬ g.IsClose) :
    Writer.Ok eventDriven { w with writeQueue := w.writeQueue ++ [f], accepted := w.accepted ++ [f] } where
  framed := h.framed
  order := by
    show (complete w.log ++ w.inHand ++ (w.writeQueue ++ [f])).Pairwise MayFollow
    rw [← List.append_assoc]
    refine List.pairwise_append.mpr ⟨h.order, List.pairwise_singleton _ _, fun g hg x hx hclose hdata => ?_⟩
    rw [List.mem_singleton.mp hx] at hdata
    refine hf hdata g (h.known g ?_) hclose
    simp only [List.mem_append] at hg ⊢
    tauto
  written := h.written
  overtakes c hc hclose g hg hdata := by
    rcases List.mem_append.mp hg with hg | hg
    · exact h.overtakes c hc hclose g hg hdata
    · rw [List.mem_singleton.mp hg] at hdata
      refine hf hdata c (h.known c ?_) hclose
      simp only [List.mem_append]
      tauto
  control := h.control
  known g hg := by
    have hg' : g ∈ complete w.log ++ w.inHand ++ w.ctrlQueue ++ (w.writeQueue ++ [f]) := hg
    rw [← List.append_assoc, List.mem_append] at hg'
    exact List.mem_append.mpr (hg'.imp_left (h.known g))
  thread := h.thread
  torn := h.torn

theorem Writer.Ok.pushControl (h : w.Ok eventDriven) {f : ControlFrame}
    (hf : f.1.IsClose → ∀ g ∈ w.writeQueue, ¬ g.IsData) :
    Writer.Ok eventDriven { w with ctrlQueue := w.ctrlQueue ++ [f.1], accepted := w.accepted ++ [f.1] } where
  framed := h.framed
  order := h.order
  written := h.written
  overtakes c hc := by
    rcases List.mem_append.mp hc with hc | hc
    · exact h.overtakes c hc
    · rw [List.mem_singleton.mp hc]
      exact hf
  control c hc := by
    rcases List.mem_append.mp hc with hc | hc
    · exact h.control c hc
    · rw [List.mem_singleton.mp hc]
      exact f.not_isData
  known g hg := by
    have hg' : g ∈ complete w.log ++ w.inHand ++ (w.ctrlQueue ++ [f.1]) ++ w.writeQueue := hg
    have hmem : g ∈ complete w.log ++ w.inHand ++ w.ctrlQueue ++ w.writeQueue ∨ g ∈ [f.1] := by
      simp only [List.mem_append] at hg' ⊢
      tauto
    exact List.mem_append.mpr (hmem.imp_left (h.known g))
  thread := h.thread
  torn := h.torn

/-- What is written of the two queues, in their order. -/
theorem Writer.Ok.write (h : w.Ok eventDriven) {ctrl data ctrlLeft dataLeft : List OutFrame} {es : List (OutFrame × ℕ)}
    (hhand : w.inHand = []) (hes : complete es = ctrl ++ data) (hctrl : w.ctrlQueue = ctrl ++ ctrlLeft)
    (hdata : w.writeQueue = data ++ dataLeft) (hframed : Framed (w.log ++ es))
    (hwritten : (started (w.log ++ es)).Pairwise MayFollow) {t : WriteThread}
    (ht : t = w.thread ∨ t = .done) (hdone : eventDriven = true ∨ t = .done) :
    Writer.Ok eventDriven { w with ctrlQueue := ctrlLeft, writeQueue := dataLeft, log := w.log ++ es, thread := t } where
  framed := hframed
  order := by
    have hhand' : Writer.inHand { w with ctrlQueue := ctrlLeft, writeQueue := dataLeft, log := w.log ++ es, thread := t } = [] := by
      rcases ht with rfl | rfl
      · exact hhand
      · rfl
    have horder := h.order
    rw [hhand, List.append_nil] at horder
    have hins : (complete w.log ++ ctrl ++ w.writeQueue).Pairwise MayFollow := pairwise_insert horder
      (fun f hf => h.control f (by rw [hctrl]; exact List.mem_append_left _ hf))
      (fun f hf => h.overtakes f (by rw [hctrl]; exact List.mem_append_left _ hf))
    rw [hhand', List.append_nil, complete_append, hes]
    rw [hdata] at hins
    simpa only [List.append_assoc] using hins
  written := hwritten
  overtakes f hf hclose g hg :=
    h.overtakes f (by rw [hctrl]; exact List.mem_append_right _ hf) hclose g (by rw [hdata]; exact List.mem_append_right _ hg)
  control f hf := h.control f (by rw [hctrl]; exact List.mem_append_right _ hf)
  known f hf := by
    have hhand' : Writer.inHand { w with ctrlQueue := ctrlLeft, writeQueue := dataLeft, log := w.log ++ es, thread := t } = [] := by
      rcases ht with rfl | rfl
      · exact hhand
      · rfl
    refine h.known f ?_
    rw [hhand'] at hf
    rw [hctrl, hdata]
    simp only [complete_append, hes, List.mem_append, List.not_mem_nil, or_false] at hf ⊢
    tauto
  thread he := by
    rcases ht with rfl | rfl
    · exact h.thread he
    · rfl
  torn he _ := hdone.resolve_left (by rw [he]; exact Bool.false_ne_true)

/-- A flush keeps the log framed if the socket takes nothing after a torn frame. -/
theorem Writer.Ok.framed_append (h : w.Ok eventDriven) {es : List (OutFrame × ℕ)} (hcut : ¬ w.Torn → CutLast es)
    (hzero : w.Torn → ∀ e ∈ es, e.2 = 0) : Framed (w.log ++ es) := by
  by_cases ht : w.Torn
  · exact h.framed.append_zeros (hzero ht)
  · exact (h.framed.whole ht).framed_append (hcut ht)

/-- Of both queues, the control queue first. -/
theorem Writer.Ok.written_append (h : w.Ok eventDriven) (hhand : w.inHand = []) {es : List (OutFrame × ℕ)}
    (hsub : (started es).Sublist (w.ctrlQueue ++ w.writeQueue)) (hzero : w.Torn → ∀ e ∈ es, e.2 = 0) :
    (started (w.log ++ es)).Pairwise MayFollow := by
  rw [started_append]
  by_cases ht : w.Torn
  · rw [(zeros_eq (hzero ht)).2.2, List.append_nil]
    exact h.written
  · have horder := h.order
    rw [hhand, List.append_nil] at horder
    have hins := pairwise_insert horder h.control h.overtakes
    rw [List.append_assoc] at hins
    rw [(h.framed.whole ht).started_eq]
    exact hins.sublist (hsub.append_left _)

theorem Writer.Ok.flush (h : w.Ok true) {room : ℕ} (hroom : w.Torn → room = 0 ∨ w.socketOpen = false) :
    (w.flushEventWrites room).Ok true := by
  have hhand : w.inHand = [] := by rw [Writer.inHand, h.thread rfl]
  obtain ⟨hcut, hctrl, hok⟩ := sendQueue_spec w.socketOpen w.ctrlQueue room
  unfold Writer.flushEventWrites
  dsimp only
  split
  · next hr =>
    obtain ⟨hwhole, hleft⟩ := hok hr
    obtain ⟨hcut', hdata, -⟩ := sendQueue_spec w.socketOpen w.writeQueue (sendQueue w.socketOpen w.ctrlQueue room).room
    have hzero : w.Torn → ∀ e ∈ (sendQueue w.socketOpen w.ctrlQueue room).log ++
        (sendQueue w.socketOpen w.writeQueue (sendQueue w.socketOpen w.ctrlQueue room).room).log, e.2 = 0 := by
      intro ht e he
      have hdry := sendQueue_dry (hroom ht) w.ctrlQueue
      rcases List.mem_append.mp he with he | he
      · exact hdry.1 e he
      · exact (sendQueue_dry hdry.2 w.writeQueue).1 e he
    have hframed := h.framed_append (fun _ => hcut'.append hwhole) hzero
    have hwritten := h.written_append hhand
      (by rw [started_append]; exact (sendQueue_started _ _ _).append (sendQueue_started _ _ _)) hzero
    rw [List.append_assoc]
    exact h.write hhand (complete_append _ _) hctrl hdata hframed hwritten (.inl rfl) (.inl rfl)
  · have hzero := fun ht => (sendQueue_dry (hroom ht) w.ctrlQueue).1
    have hwritten := h.written_append hhand ((sendQueue_started _ _ _).trans (List.sublist_append_left _ _)) hzero
    exact h.write hhand (List.append_nil _).symm hctrl (List.nil_append _).symm (h.framed_append (fun _ => hcut) hzero)
      hwritten (.inl rfl) (.inl rfl)

/-- While the thread lives, no frame has been cut off. -/
theorem Writer.Ok.thread_alive (h : w.Ok eventDriven) (ht : w.thread ≠ .done) : eventDriven = false ∧ ¬ w.Torn := by
  have hev : eventDriven = false := by
    cases eventDriven with
    | false => rfl
    | true => exact absurd (h.thread rfl) ht
  exact ⟨hev, fun htorn => ht (h.torn hev htorn)⟩

theorem Writer.Ok.drain (h : w.Ok eventDriven) (ht : w.thread = .draining) (room : ℕ) :
    (w.drainCtrl room).Ok eventDriven := by
  have hhand : w.inHand = [] := by rw [Writer.inHand, ht]
  obtain ⟨hev, hnot⟩ := h.thread_alive (by rw [ht]; simp)
  obtain ⟨hcut, hctrl, -⟩ := sendQueue_spec w.socketOpen w.ctrlQueue room
  have hwritten := h.written_append hhand
    ((sendQueue_started w.socketOpen w.ctrlQueue room).trans (List.sublist_append_left _ _)) fun ht => absurd ht hnot
  exact h.write hhand (List.append_nil _).symm hctrl (List.nil_append _).symm ((h.framed.whole hnot).framed_append hcut)
    hwritten (.inr rfl) (.inr rfl)

theorem Whole.not_torn {w : Writer} (h : Whole w.log) : ¬ w.Torn := by
  rintro ⟨e, he, hpos, hlt⟩
  rcases h e he with h | h <;> omega

theorem Writer.Ok.transmit (h : w.Ok eventDriven) {f : OutFrame} (ht : w.thread = .sending f) (room : ℕ) :
    (w.transmit f room).Ok eventDriven := by
  have hhand : w.inHand = [f] := by rw [Writer.inHand, ht]
  obtain ⟨hev, hnot⟩ := h.thread_alive (by rw [ht]; simp)
  obtain ⟨hcut, hq, hok⟩ := sendQueue_spec w.socketOpen [f] room
  have hhand' : (w.transmit f room).inHand = [] := by
    unfold Writer.transmit Writer.inHand
    dsimp only
    split
    · next hthread => split at hthread <;> cases hthread
    · rfl
  have hcomplete : complete (w.transmit f room).log ++ (w.transmit f room).inHand =
      complete w.log ++ complete (sendQueue w.socketOpen [f] room).log := by
    rw [hhand', List.append_nil]
    exact complete_append _ _
  have hsub : (complete (w.transmit f room).log ++ (w.transmit f room).inHand).Sublist (complete w.log ++ w.inHand) := by
    have hpre := List.sublist_append_left (complete (sendQueue w.socketOpen [f] room).log) (sendQueue w.socketOpen [f] room).left
    rw [← hq] at hpre
    rw [hcomplete, hhand]
    exact hpre.append_left _
  constructor
  · exact (h.framed.whole hnot).framed_append hcut
  · exact h.order.sublist (hsub.append_right _)
  · have hwhole : started w.log = complete w.log := (h.framed.whole hnot).started_eq
    have horder := (List.pairwise_append.mp h.order).1
    rw [hhand] at horder
    show (started (w.log ++ (sendQueue w.socketOpen [f] room).log)).Pairwise MayFollow
    rw [started_append, hwhole]
    exact horder.sublist ((sendQueue_started _ _ _).append_left _)
  · exact h.overtakes
  · exact h.control
  · exact fun g hg => h.known g (((hsub.append_right _).append_right _).subset hg)
  · intro he
    rw [hev] at he
    cases he
  · rintro - htorn
    show (if (sendQueue w.socketOpen [f] room).ok then WriteThread.head else .done) = .done
    split
    · next hr => exact absurd htorn (((h.framed.whole hnot).append (hok hr).1).not_torn (w := w.transmit f room))
    · rfl

theorem Writer.Ok.take (h : w.Ok eventDriven) (ht : w.thread = .waiting) : w.take.Ok eventDriven := by
  have hhand : w.inHand = [] := by rw [Writer.inHand, ht]
  obtain ⟨hev, hnot⟩ := h.thread_alive (by rw [ht]; simp)
  have hfalse {p : Prop} (he : eventDriven = true) : p := by rw [hev] at he; cases he
  have horder := h.order
  have hknown := h.known
  rw [hhand, List.append_nil] at horder hknown
  unfold Writer.take
  split
  · next f fs hc =>
    have hf : f ∈ w.ctrlQueue := by rw [hc]; exact List.mem_cons_self
    have hfs {g : OutFrame} (hg : g ∈ fs) : g ∈ w.ctrlQueue := by rw [hc]; exact List.mem_cons_of_mem _ hg
    refine ⟨h.framed, ?_, h.written, fun g hg => h.overtakes g (hfs hg), fun g hg => h.control g (hfs hg), ?_, hfalse,
      fun _ htorn => absurd htorn hnot⟩
    · have hins : (complete w.log ++ [f] ++ w.writeQueue).Pairwise MayFollow :=
        pairwise_insert horder (List.forall_mem_singleton.mpr (h.control f hf))
          (List.forall_mem_singleton.mpr (h.overtakes f hf))
      exact hins
    · intro g hg
      refine hknown g ?_
      have hg' : g ∈ complete w.log ++ [f] ++ fs ++ w.writeQueue := hg
      rw [hc]
      simp only [List.mem_append, List.mem_cons, List.not_mem_nil, or_false] at hg' ⊢
      tauto
  · next f fs hc hw =>
    have hfs {g : OutFrame} (hg : g ∈ fs) : g ∈ w.writeQueue := by rw [hw]; exact List.mem_cons_of_mem _ hg
    refine ⟨h.framed, ?_, h.written, fun g hg hclose x hx => h.overtakes g hg hclose x (hfs hx), h.control, ?_, hfalse,
      fun _ htorn => absurd htorn hnot⟩
    · show (complete w.log ++ [f] ++ fs).Pairwise MayFollow
      rw [List.append_assoc, List.singleton_append, ← hw]
      exact horder
    · intro g hg
      refine hknown g ?_
      have hg' : g ∈ complete w.log ++ [f] ++ w.ctrlQueue ++ fs := hg
      rw [hw]
      simp only [List.mem_append, List.mem_cons, List.not_mem_nil, or_false] at hg' ⊢
      tauto
  · split
    · exact h
    · refine ⟨h.framed, ?_, h.written, h.overtakes, h.control, ?_, hfalse, fun _ htorn => absurd htorn hnot⟩
      · show (complete w.log ++ [] ++ w.writeQueue).Pairwise MayFollow
        rw [List.append_nil]
        exact horder
      · intro g hg
        refine hknown g ?_
        have hg' : g ∈ complete w.log ++ [] ++ w.ctrlQueue ++ w.writeQueue := hg
        rwa [List.append_nil] at hg'

theorem Writer.Ok.enter (h : w.Ok eventDriven) (ht : w.thread = .head) :
    Writer.Ok eventDriven { w with thread := if w.running then .waiting else .draining } := by
  obtain ⟨hev, hnot⟩ := h.thread_alive (by rw [ht]; simp)
  have hhand : Writer.inHand { w with thread := if w.running then .waiting else .draining } = w.inHand := by
    cases hr : w.running <;> simp [Writer.inHand, ht]
  refine ⟨h.framed, ?_, h.written, h.overtakes, h.control, ?_, fun he => ?_, fun _ htorn => absurd htorn hnot⟩
  · rw [hhand]
    exact h.order
  · rw [hhand]
    exact h.known
  · rw [hev] at he
    cases he

/-- **One step.** -/
theorem Writer.Ok.step (h : w.Ok eventDriven) {e : WriterEvent} (he : w.Orderly e) : (w.step eventDriven e).Ok eventDriven := by
  cases e with
  | send f =>
      simp only [Writer.step, Writer.queueFrame, Bool.false_eq_true, if_false]
      split
      · next hrun =>
        split
        · exact h
        · next hlt => exact h.pushData fun hf => he hrun (by omega) hf
      · exact h
  | control f =>
      simp only [Writer.step, Writer.queueFrame, if_true]
      split
      · exact h
      · next hlt => exact h.pushControl fun hf => he (by omega) hf
  | flush room =>
      simp only [Writer.step]
      cases eventDriven with
      | false => exact h
      | true => exact h.flush he
  | enter =>
      simp only [Writer.step]
      split
      · next ht => exact h.enter ht
      · exact h
  | take =>
      simp only [Writer.step]
      split
      · next ht => exact h.take ht
      · exact h
  | transmit room =>
      simp only [Writer.step]
      split
      · next f ht => exact h.transmit ht room
      · exact h
  | drain room =>
      simp only [Writer.step]
      split
      · next ht => exact h.drain ht room
      · exact h
  | stop => exact ⟨h.framed, h.order, h.written, h.overtakes, h.control, h.known, h.thread, h.torn⟩
  | closeSocket => exact ⟨h.framed, h.order, h.written, h.overtakes, h.control, h.known, h.thread, h.torn⟩

end

/-! ### Runs -/

/-- The steps of a run, each of which is orderly in the state it begins in. -/
def Writer.OrderlyRun (eventDriven : Bool) (w : Writer) : List WriterEvent → Prop
  | [] => True
  | e :: es => w.Orderly e ∧ (w.step eventDriven e).OrderlyRun eventDriven es

def Writer.run (eventDriven : Bool) (w : Writer) (es : List WriterEvent) : Writer := es.foldl (·.step eventDriven) w

theorem Writer.Ok.run {eventDriven : Bool} {w : Writer} (h : w.Ok eventDriven) {es : List WriterEvent}
    (hes : w.OrderlyRun eventDriven es) : (w.run eventDriven es).Ok eventDriven := by
  induction es generalizing w with
  | nil => exact h
  | cons e es ih => exact ih (h.step hes.1) hes.2

theorem Writer.Ok.noDataAfterClose {eventDriven : Bool} {w : Writer} (h : w.Ok eventDriven) :
    NoDataAfterClose (wireOf w.log) := by
  unfold NoDataAfterClose
  rw [opcodes_framed h.framed]
  exact List.pairwise_map.mpr (h.written.imp fun hab hclose => Nat.le_of_not_lt (hab hclose))

/-- **No data after Close**, in every orderly run. -/
theorem no_data_after_close (eventDriven : Bool) (es : List WriterEvent)
    (h : (Writer.start eventDriven).OrderlyRun eventDriven es) :
    NoDataAfterClose (wireOf ((Writer.start eventDriven).run eventDriven es).log) :=
  ((Writer.start_ok eventDriven).run h).noDataAfterClose

/-! ### The text "a" and a Close frame -/

def textFrame : OutFrame := ⟨.text, ascii "a", false, by decide⟩
def normalClose : ControlFrame := ⟨⟨.close, makeClosePayload normalClosure [], false, by decide⟩, by decide⟩

theorem no_data_after_close_sample :
    NoDataAfterClose (wireOf ((Writer.start true).run true
      [.send textFrame, .flush 100, .control normalClose, .flush 2]).log) := by
  refine no_data_after_close true _ ⟨?_, ?_, ?_, ?_, trivial⟩
  · exact fun _ _ _ f hf => absurd hf List.not_mem_nil
  · rintro ⟨e, he, -⟩
    cases he
  · exact fun _ _ f hf => absurd hf List.not_mem_nil
  · rintro ⟨e, he, -, hlt⟩
    obtain rfl : e = (textFrame, 3) := List.mem_singleton.mp he
    exact absurd hlt (by decide)

/-- The socket has no room for the text when it is sent; the Close frame is queued later and written first. -/
theorem close_overtakes :
    ¬ NoDataAfterClose (wireOf ((Writer.start true).run true
      [.send textFrame, .flush 0, .control normalClose, .flush 100]).log) := by
  unfold NoDataAfterClose
  decide

end NeForce.Websocket
