import NeForce.DnsClient

/-! # Which answers complete a query

In a run in which ids of unfinished queries are different and every datagram for a pending query parses and has a
question, the map, the datagrams on their way and the handler calls fit together (`Inv`). An event changes one
operation; `Inv.mark` is the change that ends its time in the map. -/

namespace NeForce.DnsClient

variable {R : Type} {sections : Bytes → ℕ → Except String R}

/-! ### Parsing -/

/-- A response that parses matches, if it has a question. -/
theorem matches_of_parse {d : Bytes} {op : Op} {result : QueryResult R}
    (h : parseDnsResponse sections d op.queryId op.expectedQuestion = .ok result) (hq : op.expectedQuestion ≠ [])
    (ha : Answering d op) : Matches d op.queryId op.expectedQuestion := by
  simp only [parseDnsResponse] at h
  split at h
  · simp at h
  · split at h
    · simp at h
    · split at h
      · simp at h
      · rename_i hid
        obtain ⟨offset, hquestions, -⟩ : ∃ offset, parseQuestions d op.expectedQuestion (questionCount d) 0 12 = .ok offset ∧
            True := by
          cases hp : parseQuestions d op.expectedQuestion (questionCount d) 0 12 with
          | ok offset => exact ⟨offset, rfl, trivial⟩
          | error e => simp [hp, bind, Except.bind] at h
        obtain ⟨n, hn⟩ : ∃ n, questionCount d = n + 1 := ⟨questionCount d - 1, by have := ha.1; omega⟩
        refine ⟨?_, ha.1, ?_⟩
        · by_cases h0 : op.queryId = 0
          · rw [ha.2 h0, h0]
          · by_contra hne
            exact hid ⟨h0, hne⟩
        · rw [hn, parseQuestions] at hquestions
          cases hd : decodeDomainName d 12 with
          | error e => simp [hd, bind, Except.bind] at hquestions
          | ok r =>
              obtain ⟨decoded, behind⟩ := r
              simp only [hd, bind, Except.bind] at hquestions
              split at hquestions
              · simp at hquestions
              · rename_i hsame
                have : decoded = op.expectedQuestion := by
                  by_contra hne
                  exact hsame ⟨trivial, hq, hne⟩
                exact ⟨behind, by rw [this]⟩

/-! ### The invariant -/

/-- The operation has called its handler, or its start has. -/
def Op.closed (op : Op) : Bool := op.failed || (op.fired && (!op.inTcp || op.tcpFinished))

theorem closed_of_unfired {op : Op} (h1 : op.fired = false) (h2 : op.failed = false) : op.closed = false := by
  simp [Op.closed, h1, h2]

/-- What holds of one operation by itself. -/
structure OpOk (c : Client) (o : ℕ) (op : Op) : Prop where
  tcp : (op.inTcp = true → op.fired = true) ∧ (op.tcpFinished = true → op.inTcp = true)
  failed : op.failed = true → op.fired = false ∧ op.armed = false ∧ ∀ d, (o, d) ∉ c.taken
  question : op.failed = false → op.expectedQuestion ≠ []
  kept : op.fired = false → op.failed = false → (op.queryId, o) ∈ c.pending ∨ ∃ d, (o, d) ∈ c.taken
  count : (c.calls.filter (·.op = o)).length = if op.closed then 1 else 0

/-- What holds of one call. -/
def CallOk (k : Call) : Prop :=
  (∀ d, k.outcome = .success d → Matches d k.queryId k.question) ∧ ∀ d, k.outcome ≠ .protocolError d

structure Inv (c : Client) : Prop where
  ops : ∀ (o : ℕ) (op : Op), c.ops[o]? = some op → OpOk c o op
  pending : ∀ p ∈ c.pending, ∃ op, c.ops[p.2]? = some op ∧ op.queryId = p.1 ∧ op.fired = false ∧ op.failed = false
  nodup : (c.pending.map Prod.fst).Nodup
  taken : ∀ p ∈ c.taken, ∃ op, c.ops[p.1]? = some op
  distinct : ∀ (o o' : ℕ) (op op' : Op), c.ops[o]? = some op → c.ops[o']? = some op' → op.closed = false → op'.closed = false →
    op.queryId = op'.queryId → o = o'
  calls : ∀ k ∈ c.calls, CallOk k ∧ ∃ op, c.ops[k.op]? = some op

variable {c : Client} {o : ℕ} {op op' : Op}

theorem getElem?_set_self' {l : List Op} (h : l[o]? = some op) : (l.set o op')[o]? = some op' := by
  rw [List.getElem?_set_self]
  exact (List.getElem?_eq_some_iff.mp h).1

theorem set_cases (hop : c.ops[o]? = some op) {o₁ : ℕ} {op₁ : Op} (h : (c.ops.set o op')[o₁]? = some op₁) :
    (o₁ = o ∧ op₁ = op') ∨ (o₁ ≠ o ∧ c.ops[o₁]? = some op₁) := by
  by_cases heq : o₁ = o
  · subst heq
    exact .inl ⟨rfl, Option.some.inj (h.symm.trans (getElem?_set_self' hop))⟩
  · rw [List.getElem?_set_ne (Ne.symm heq)] at h
    exact .inr ⟨heq, h⟩

theorem set_exists (hop : c.ops[o]? = some op) {o₁ : ℕ} (h : ∃ op₁, c.ops[o₁]? = some op₁) :
    ∃ op₁, (c.ops.set o op')[o₁]? = some op₁ := by
  obtain ⟨op₁, h⟩ := h
  by_cases heq : o₁ = o
  · subst heq
    exact ⟨op', getElem?_set_self' hop⟩
  · exact ⟨op₁, (List.getElem?_set_ne (Ne.symm heq)).trans h⟩

theorem nodup_filter {l : List (ℕ × ℕ)} (h : (l.map Prod.fst).Nodup) (p : ℕ × ℕ → Bool) :
    ((l.filter p).map Prod.fst).Nodup := h.sublist ((List.filter_sublist).map _)

theorem Inv.called_iff (h : Inv c) (hop : c.ops[o]? = some op) : Called c o ↔ op.closed = true := by
  have hcount := (h.ops o op hop).count
  constructor
  · rintro ⟨k, hk, hko⟩
    by_contra hc
    rw [if_neg hc, List.length_eq_zero_iff] at hcount
    have : k ∈ c.calls.filter (·.op = o) := List.mem_filter.mpr ⟨hk, by simpa using hko⟩
    rw [hcount] at this
    simp at this
  · intro hc
    rw [if_pos hc] at hcount
    obtain ⟨k, hk⟩ := List.exists_mem_of_length_pos (by omega : 0 < (c.calls.filter (·.op = o)).length)
    exact ⟨k, (List.mem_filter.mp hk).1, by simpa using (List.mem_filter.mp hk).2⟩

/-- An open operation leaves the map: it is marked, and calls its handler if that closes it. -/
theorem Inv.mark (op' : Op) (h : Inv c) (hop : c.ops[o]? = some op) (hopen : op.closed = false)
    (hid : op'.queryId = op.queryId) (hquestion : op'.expectedQuestion = op.expectedQuestion)
    (htcp : (op'.inTcp = true → op'.fired = true) ∧ (op'.tcpFinished = true → op'.inTcp = true))
    (hfailed : op'.failed = true → op'.fired = false ∧ op'.armed = false ∧ ∀ d, (o, d) ∉ c.taken)
    (hgone : op'.fired = true ∨ op'.failed = true) {calls : List Call}
    (hcalls : ∀ k ∈ calls, CallOk k ∧ k.op = o) (hlen : calls.length = if op'.closed then 1 else 0) :
    Inv { (c.setOp o op').unregisterQuery op.queryId with calls := c.calls ++ calls } := by
  have hself : (c.ops.set o op')[o]? = some op' := getElem?_set_self' hop
  have hother {o₁ : ℕ} (hne : o₁ ≠ o) : (c.ops.set o op')[o₁]? = c.ops[o₁]? := List.getElem?_set_ne hne.symm
  have hok := h.ops o op hop
  have hq : op.failed = false := by
    simp only [Op.closed, Bool.or_eq_false_iff] at hopen
    exact hopen.1
  refine ⟨fun o₁ op₁ h1 => ?_, fun p hp => ?_, nodup_filter h.nodup _, fun p hp => ?_,
    fun o₁ o₂ op₁ op₂ h1 h2 hc1 hc2 heq => ?_, fun k hk => ?_⟩
  · rcases set_cases hop h1 with ⟨rfl, rfl⟩ | ⟨hne, h1⟩
    · exact {
        tcp := htcp
        failed := hfailed
        question := fun _ => hquestion ▸ hok.question hq
        kept := fun h1 h2 => by simp [h1, h2] at hgone
        count := by
          have hall : calls.filter (·.op = o₁) = calls :=
            List.filter_eq_self.mpr fun k hk => by simpa using (hcalls k hk).2
          have := hok.count
          rw [hopen] at this
          simp only [List.filter_append, List.length_append, hall, hlen]
          simpa using this }
    · have hok₁ := h.ops o₁ op₁ h1
      exact {
        tcp := hok₁.tcp
        failed := hok₁.failed
        question := hok₁.question
        kept := fun hf1 hf2 => by
          refine (hok₁.kept hf1 hf2).imp_left fun hmem => List.mem_filter.mpr ⟨hmem, ?_⟩
          have : op₁.queryId ≠ op.queryId := fun heq =>
            hne (h.distinct o₁ o op₁ op h1 hop (closed_of_unfired hf1 hf2) hopen heq)
          simpa using this
        count := by
          have hnone : calls.filter (·.op = o₁) = [] :=
            List.filter_eq_nil_iff.mpr fun k hk => by
              have := (hcalls k hk).2
              simp [this, hne.symm]
          simpa [List.filter_append, hnone] using hok₁.count }
  · obtain ⟨hp1, hp2⟩ := List.mem_filter.mp hp
    obtain ⟨opp, hopp, hpid, hpf⟩ := h.pending p hp1
    have hne : p.2 ≠ o := by
      intro heq
      rw [heq] at hopp
      obtain rfl := Option.some.inj (hop.symm.trans hopp)
      simp [hpid] at hp2
    exact ⟨opp, (hother hne).trans hopp, hpid, hpf⟩
  · exact set_exists hop (h.taken p hp)
  · rcases set_cases hop h1 with ⟨rfl, rfl⟩ | ⟨hne1, h1'⟩
    · rcases set_cases hop h2 with ⟨rfl, rfl⟩ | ⟨hne2, h2'⟩
      · rfl
      · exact (h.distinct o₂ o₁ op₂ op h2' hop hc2 hopen (heq.symm.trans hid)).symm
    · rcases set_cases hop h2 with ⟨rfl, rfl⟩ | ⟨hne2, h2'⟩
      · exact h.distinct o₁ o₂ op₁ op h1' hop hc1 hopen (heq.trans hid)
      · exact h.distinct o₁ o₂ op₁ op₂ h1' h2' hc1 hc2 heq
  · rcases List.mem_append.mp hk with hk | hk
    · exact (h.calls k hk).imp_right fun hk => set_exists hop hk
    · obtain ⟨h1, rfl⟩ := hcalls k hk
      exact ⟨h1, op', hself⟩

/-- Every way to finish marks an operation and calls its handler. -/
theorem Inv.finish (op' : Op) (h : Inv c) (hop : c.ops[o]? = some op) (hopen : op.closed = false)
    (hid : op'.queryId = op.queryId) (hquestion : op'.expectedQuestion = op.expectedQuestion)
    (htcp : (op'.inTcp = true → op'.fired = true) ∧ (op'.tcpFinished = true → op'.inTcp = true))
    (hfailed : op'.failed = true → op'.fired = false ∧ op'.armed = false ∧ ∀ d, (o, d) ∉ c.taken)
    (hclosed : op'.closed = true) {outcome : Outcome}
    (hcall : CallOk ⟨o, outcome, op'.queryId, op'.expectedQuestion⟩) : Inv (c.finish o op' outcome) := by
  have hgone : op'.fired = true ∨ op'.failed = true := by
    simp only [Op.closed, Bool.or_eq_true, Bool.and_eq_true] at hclosed
    exact hclosed.elim .inr fun h => .inl h.1
  rw [Client.finish, hid]
  exact h.mark op' hop hopen hid hquestion htcp hfailed hgone (List.forall_mem_singleton.mpr ⟨hcall, rfl⟩) (by simp [hclosed])

/-- The handling of a datagram is over for an operation that has fired. -/
theorem Inv.untake (h : Inv c) {i : ℕ} {d : Bytes} (hi : c.taken[i]? = some (o, d)) (hop : c.ops[o]? = some op)
    (hfired : op.fired = true) : Inv { c with taken := c.taken.eraseIdx i } := by
  have hsub : ∀ p ∈ c.taken.eraseIdx i, p ∈ c.taken := fun p hp => List.mem_of_mem_eraseIdx hp
  refine ⟨fun o₁ op₁ h1 => ?_, h.pending, h.nodup, fun p hp => h.taken p (hsub p hp), h.distinct, h.calls⟩
  have hok := h.ops o₁ op₁ h1
  refine ⟨hok.tcp, fun hf => ?_, hok.question, fun hf1 hf2 => ?_, hok.count⟩
  · obtain ⟨ha, hb, hc⟩ := hok.failed hf
    exact ⟨ha, hb, fun d hd => hc d (hsub _ hd)⟩
  · refine (hok.kept hf1 hf2).imp_right fun ⟨d', hd'⟩ => ⟨d', ?_⟩
    obtain ⟨j, hj⟩ := List.mem_iff_getElem?.mp hd'
    refine List.mem_eraseIdx_iff_getElem?.mpr ⟨j, ?_, hj⟩
    rintro rfl
    obtain ⟨rfl, -⟩ := Prod.mk.inj (Option.some.inj (hi.symm.trans hj))
    obtain rfl := Option.some.inj (hop.symm.trans h1)
    rw [hfired] at hf1
    exact absurd hf1 (by simp)

/-- A change that leaves alone what the map depends on. -/
theorem Inv.armed (h : Inv c) (hop : c.ops[o]? = some op) (hfailed : op.failed = false) :
    Inv (c.setOp o { op with armed := true }) := by
  have hok := h.ops o op hop
  refine ⟨fun o₁ op₁ h1 => ?_, fun p hp => ?_, h.nodup, fun p hp => set_exists hop (h.taken p hp),
    fun o₁ o₂ op₁ op₂ h1 h2 hc1 hc2 heq => ?_, fun k hk => (h.calls k hk).imp_right fun hk => set_exists hop hk⟩
  · rcases set_cases hop h1 with ⟨rfl, rfl⟩ | ⟨-, h1⟩
    · exact ⟨hok.tcp, fun hf => absurd hf (by simp [hfailed]), hok.question, hok.kept, hok.count⟩
    · have hok₁ := h.ops o₁ op₁ h1
      exact ⟨hok₁.tcp, hok₁.failed, hok₁.question, hok₁.kept, hok₁.count⟩
  · obtain ⟨opp, hopp, hpid, hpf⟩ := h.pending p hp
    by_cases heq : p.2 = o
    · rw [heq] at hopp
      obtain rfl := Option.some.inj (hop.symm.trans hopp)
      refine ⟨{ op with armed := true }, ?_, hpid, hpf⟩
      rw [heq]
      exact getElem?_set_self' hop
    · exact ⟨opp, (List.getElem?_set_ne (Ne.symm heq)).trans hopp, hpid, hpf⟩
  · rcases set_cases hop h1 with ⟨rfl, rfl⟩ | ⟨-, h1'⟩
    · rcases set_cases hop h2 with ⟨rfl, rfl⟩ | ⟨-, h2'⟩
      · rfl
      · exact h.distinct o₁ o₂ op op₂ hop h2' hc1 hc2 heq
    · rcases set_cases hop h2 with ⟨rfl, rfl⟩ | ⟨-, h2'⟩
      · exact h.distinct o₁ o₂ op₁ op h1' hop hc1 hc2 heq
      · exact h.distinct o₁ o₂ op₁ op₂ h1' h2' hc1 hc2 heq

/-- The fresh id is not the one of another open operation. -/
theorem Inv.fresh (h : Inv c) {id : ℕ} (hfresh : FreshFor c o id) {o₁ : ℕ} {op₁ : Op} (h1 : c.ops[o₁]? = some op₁)
    (hopen : op₁.closed = false) (hne : o₁ ≠ o) : op₁.queryId ≠ id :=
  hfresh o₁ op₁ h1 (fun hcalled => by simp [(h.called_iff h1).mp hcalled] at hopen) hne

theorem nodup_register {l : List (ℕ × ℕ)} (h : (l.map Prod.fst).Nodup) (id o : ℕ) :
    (((id, o) :: l.filter (·.1 ≠ id)).map Prod.fst).Nodup := by
  rw [List.map_cons, List.nodup_cons]
  refine ⟨fun hmem => ?_, nodup_filter h _⟩
  obtain ⟨p, hp, hpid⟩ := List.mem_map.mp hmem
  exact absurd hpid (by simpa using (List.mem_filter.mp hp).2)

/-- An operation registers under a fresh id. -/
theorem Inv.retry (h : Inv c) (hop : c.ops[o]? = some op) (hunfired : op.fired = false) (hfailed : op.failed = false)
    {id : ℕ} {question : Bytes} (hq : question ≠ []) (hfresh : FreshFor c o id) :
    Inv (((c.unregisterQuery op.queryId).setOp o
      { op with udpRetries := op.udpRetries + 1, queryId := id, expectedQuestion := question }).register id o) := by
  have hok := h.ops o op hop
  have hopen : op.closed = false := closed_of_unfired hunfired hfailed
  refine ⟨fun o₁ op₁ h1 => ?_, fun p hp => ?_, nodup_register (nodup_filter h.nodup _) id o,
    fun p hp => set_exists hop (h.taken p hp), fun o₁ o₂ op₁ op₂ h1 h2 hc1 hc2 heq => ?_,
    fun k hk => (h.calls k hk).imp_right fun hk => set_exists hop hk⟩
  · rcases set_cases hop h1 with ⟨rfl, rfl⟩ | ⟨hne, h1⟩
    · exact {
        tcp := hok.tcp
        failed := fun hf => absurd hf (by simp [hfailed])
        question := fun _ => hq
        kept := fun _ _ => .inl List.mem_cons_self
        count := hok.count }
    · have hok₁ := h.ops o₁ op₁ h1
      refine ⟨hok₁.tcp, hok₁.failed, hok₁.question, fun hf1 hf2 => ?_, hok₁.count⟩
      have hopen₁ := closed_of_unfired hf1 hf2
      refine (hok₁.kept hf1 hf2).imp_left fun hmem => List.mem_cons_of_mem _ (List.mem_filter.mpr ⟨?_, ?_⟩)
      · have : op₁.queryId ≠ op.queryId := fun heq => hne (h.distinct o₁ o op₁ op h1 hop hopen₁ hopen heq)
        exact List.mem_filter.mpr ⟨hmem, by simpa using this⟩
      · simpa using h.fresh hfresh h1 hopen₁ hne
  · rcases List.mem_cons.mp hp with rfl | hp
    · exact ⟨_, getElem?_set_self' hop, rfl, hunfired, hfailed⟩
    · obtain ⟨hp1, -⟩ := List.mem_filter.mp hp
      obtain ⟨hp1, hp2⟩ := List.mem_filter.mp hp1
      obtain ⟨opp, hopp, hpid, hpf⟩ := h.pending p hp1
      have hne : p.2 ≠ o := by
        intro heq
        rw [heq] at hopp
        obtain rfl := Option.some.inj (hop.symm.trans hopp)
        simp [hpid] at hp2
      exact ⟨opp, (List.getElem?_set_ne hne.symm).trans hopp, hpid, hpf⟩
  · rcases set_cases hop h1 with ⟨rfl, rfl⟩ | ⟨hne1, h1'⟩
    · rcases set_cases hop h2 with ⟨rfl, rfl⟩ | ⟨hne2, h2'⟩
      · rfl
      · exact absurd heq.symm (h.fresh hfresh h2' hc2 hne2)
    · rcases set_cases hop h2 with ⟨rfl, rfl⟩ | ⟨hne2, h2'⟩
      · exact absurd heq (h.fresh hfresh h1' hc1 hne1)
      · exact h.distinct o₁ o₂ op₁ op₂ h1' h2' hc1 hc2 heq

theorem append_cases {new : Op} {o₁ : ℕ} {op₁ : Op} (h : (c.ops ++ [new])[o₁]? = some op₁) :
    (o₁ = c.ops.length ∧ op₁ = new) ∨ (o₁ ≠ c.ops.length ∧ c.ops[o₁]? = some op₁) := by
  rcases Nat.lt_trichotomy o₁ c.ops.length with hlt | rfl | hgt
  · rw [List.getElem?_append_left hlt] at h
    exact .inr ⟨hlt.ne, h⟩
  · rw [List.getElem?_concat_length] at h
    exact .inl ⟨rfl, (Option.some.inj h).symm⟩
  · have := (List.getElem?_eq_some_iff.mp h).1
    rw [List.length_append, List.length_singleton] at this
    omega

theorem append_some {new : Op} {o₁ : ℕ} {op₁ : Op} (h : c.ops[o₁]? = some op₁) : (c.ops ++ [new])[o₁]? = some op₁ := by
  rw [List.getElem?_append_left (List.getElem?_eq_some_iff.mp h).1]
  exact h

theorem Inv.ne_length (h : c.ops[o]? = some op) : o ≠ c.ops.length := (List.getElem?_eq_some_iff.mp h).1.ne

/-- No call is from an operation that does not exist yet. -/
theorem Inv.no_calls (h : Inv c) : c.calls.filter (·.op = c.ops.length) = [] := by
  refine List.filter_eq_nil_iff.mpr fun k hk hop => ?_
  obtain ⟨-, op, hop'⟩ := h.calls k hk
  exact Inv.ne_length hop' (by simpa using hop)

def Op.new (id : ℕ) (question : Bytes) (cancelled : Bool) : Op :=
  ⟨id, question, false, 0, false, cancelled, false, false⟩

theorem Inv.start (h : Inv c) {id : ℕ} {question : Bytes} (hq : question ≠ []) (hfresh : FreshFor c c.ops.length id) :
    Inv ({ c with ops := c.ops ++ [Op.new id question false] }.register id c.ops.length) := by
  refine ⟨fun o₁ op₁ h1 => ?_, fun p hp => ?_, nodup_register h.nodup id _,
    fun p hp => (h.taken p hp).imp fun _ h1 => append_some h1, fun o₁ o₂ op₁ op₂ h1 h2 hc1 hc2 heq => ?_,
    fun k hk => (h.calls k hk).imp_right fun hk => hk.imp fun _ h1 => append_some h1⟩
  · rcases append_cases h1 with ⟨rfl, rfl⟩ | ⟨hne, h1⟩
    · exact {
        tcp := by simp [Op.new]
        failed := by simp [Op.new]
        question := fun _ => hq
        kept := fun _ _ => .inl List.mem_cons_self
        count := by simpa [Op.closed, Op.new, Client.register] using congrArg List.length h.no_calls }
    · have hok₁ := h.ops o₁ op₁ h1
      refine ⟨hok₁.tcp, hok₁.failed, hok₁.question, fun hf1 hf2 => ?_, hok₁.count⟩
      refine (hok₁.kept hf1 hf2).imp_left fun hmem => List.mem_cons_of_mem _ (List.mem_filter.mpr ⟨hmem, ?_⟩)
      simpa using h.fresh hfresh h1 (closed_of_unfired hf1 hf2) hne
  · rcases List.mem_cons.mp hp with rfl | hp
    · exact ⟨_, List.getElem?_concat_length, rfl, rfl, rfl⟩
    · obtain ⟨opp, hopp, hpf⟩ := h.pending p (List.mem_filter.mp hp).1
      exact ⟨opp, append_some hopp, hpf⟩
  · rcases append_cases h1 with ⟨rfl, rfl⟩ | ⟨hne1, h1'⟩
    · rcases append_cases h2 with ⟨rfl, rfl⟩ | ⟨hne2, h2'⟩
      · rfl
      · exact absurd heq.symm (h.fresh hfresh h2' hc2 hne2)
    · rcases append_cases h2 with ⟨rfl, rfl⟩ | ⟨hne2, h2'⟩
      · exact absurd heq (h.fresh hfresh h1' hc1 hne1)
      · exact h.distinct o₁ o₂ op₁ op₂ h1' h2' hc1 hc2 heq

theorem Inv.startCancelled (h : Inv c) (id : ℕ) (question : Bytes) :
    Inv ({ c with ops := c.ops ++ [Op.new id question true] }.call c.ops.length .aborted (Op.new id question true)) := by
  refine ⟨fun o₁ op₁ h1 => ?_, fun p hp => ?_, h.nodup, fun p hp => (h.taken p hp).imp fun _ h1 => append_some h1,
    fun o₁ o₂ op₁ op₂ h1 h2 hc1 hc2 heq => ?_, fun k hk => ?_⟩
  · rcases append_cases h1 with ⟨rfl, rfl⟩ | ⟨hne, h1⟩
    · refine ⟨by simp [Op.new], fun _ => ⟨rfl, rfl, fun d hd => ?_⟩, by simp [Op.new], by simp [Op.new], ?_⟩
      · obtain ⟨op, hop⟩ := h.taken _ hd
        exact Inv.ne_length hop rfl
      · simp [Op.closed, Op.new, Client.call, List.filter_append, h.no_calls]
    · have hok₁ := h.ops o₁ op₁ h1
      refine ⟨hok₁.tcp, hok₁.failed, hok₁.question, hok₁.kept, ?_⟩
      simpa [Client.call, List.filter_append, Ne.symm hne] using hok₁.count
  · obtain ⟨opp, hopp, hpf⟩ := h.pending p hp
    exact ⟨opp, append_some hopp, hpf⟩
  · rcases append_cases h1 with ⟨rfl, rfl⟩ | ⟨hne1, h1'⟩
    · simp [Op.closed, Op.new] at hc1
    · rcases append_cases h2 with ⟨rfl, rfl⟩ | ⟨hne2, h2'⟩
      · simp [Op.closed, Op.new] at hc2
      · exact h.distinct o₁ o₂ op₁ op₂ h1' h2' hc1 hc2 heq
  · rcases List.mem_append.mp hk with hk | hk
    · exact (h.calls k hk).imp_right fun hk => hk.imp fun _ h1 => append_some h1
    · obtain rfl := List.mem_singleton.mp hk
      exact ⟨⟨by simp, by simp⟩, _, List.getElem?_concat_length⟩

theorem mem_of_lookup_eq {l : List (ℕ × ℕ)} {id o : ℕ} (h : l.lookup id = some o) : (id, o) ∈ l := by
  induction l with
  | nil => simp at h
  | cons p l ih =>
      rw [List.lookup_cons] at h
      split at h
      · rename_i heq
        obtain rfl := Option.some.inj h
        have : id = p.1 := by simpa using heq
        exact this ▸ List.mem_cons_self
      · exact List.mem_cons_of_mem _ (ih h)

theorem lookup_of_mem {l : List (ℕ × ℕ)} (hnd : (l.map Prod.fst).Nodup) {id o : ℕ} (h : (id, o) ∈ l) :
    l.lookup id = some o := by
  induction l with
  | nil => simp at h
  | cons p l ih =>
      rw [List.map_cons, List.nodup_cons] at hnd
      rw [List.lookup_cons]
      rcases List.mem_cons.mp h with rfl | h
      · simp
      · have hne : id ≠ p.1 := by
          rintro rfl
          exact hnd.1 (List.mem_map.mpr ⟨_, h, rfl⟩)
        have : (id == p.1) = false := by simpa using hne
        rw [this]
        exact ih hnd.2 h

/-- A datagram takes the entry of its id out of the map. -/
theorem Inv.take (h : Inv c) {id : ℕ} (hlook : c.pending.lookup id = some o) (d : Bytes) :
    Inv { c.unregisterQuery id with taken := c.taken ++ [(o, d)] } := by
  obtain ⟨op, hop, -, -, hfailed⟩ := h.pending _ (mem_of_lookup_eq hlook)
  refine ⟨fun o₁ op₁ h1 => ?_, fun p hp => h.pending p (List.mem_filter.mp hp).1, nodup_filter h.nodup _,
    fun p hp => ?_, h.distinct, h.calls⟩
  · have hok₁ := h.ops o₁ op₁ h1
    refine ⟨hok₁.tcp, fun hf => ?_, hok₁.question, fun hf1 hf2 => ?_, hok₁.count⟩
    · obtain ⟨ha, hb, hc⟩ := hok₁.failed hf
      refine ⟨ha, hb, fun d' hd' => ?_⟩
      rcases List.mem_append.mp hd' with hd' | hd'
      · exact hc d' hd'
      · obtain ⟨rfl, -⟩ := Prod.mk.inj (List.mem_singleton.mp hd')
        obtain rfl := Option.some.inj (hop.symm.trans h1)
        simp [hfailed] at hf
    · rcases hok₁.kept hf1 hf2 with hmem | ⟨d', hd'⟩
      · by_cases hid : op₁.queryId = id
        · rw [hid] at hmem
          obtain rfl := Option.some.inj (hlook.symm.trans (lookup_of_mem h.nodup hmem))
          exact .inr ⟨d, List.mem_append_right _ (List.mem_singleton_self _)⟩
        · exact .inl (List.mem_filter.mpr ⟨hmem, by simpa using hid⟩)
      · exact .inr ⟨d', List.mem_append_left _ hd'⟩
  · rcases List.mem_append.mp hp with hp | hp
    · exact h.taken p hp
    · obtain rfl := List.mem_singleton.mp hp
      exact ⟨op, hop⟩

/-! ### Events -/

theorem callOk_error {outcome : Outcome} (h1 : ∀ d, outcome ≠ .success d) (h2 : ∀ d, outcome ≠ .protocolError d)
    (o id : ℕ) (question : Bytes) : CallOk ⟨o, outcome, id, question⟩ := ⟨fun d h => absurd h (h1 d), h2⟩

theorem Inv.not_failed (h : Inv c) (hop : c.ops[o]? = some op) (hlive : op.armed = true ∨ op.fired = true) :
    op.failed = false := by
  by_contra hf
  obtain ⟨h1, h2, -⟩ := (h.ops o op hop).failed (by simpa using hf)
  rcases hlive with h' | h'
  · simp [h2] at h'
  · simp [h1] at h'

/-- An operation that is marked as fired, outside the TCP fallback. -/
theorem Inv.fire (h : Inv c) (hop : c.ops[o]? = some op) (hunfired : op.fired = false) (hfailed : op.failed = false)
    {outcome : Outcome} (hcall : CallOk ⟨o, outcome, op.queryId, op.expectedQuestion⟩) :
    Inv (c.finish o { op with fired := true } outcome) := by
  have htcp : op.inTcp = false := by
    by_contra hi
    have := (h.ops o op hop).tcp.1 (by simpa using hi)
    simp [hunfired] at this
  exact h.finish { op with fired := true } hop (closed_of_unfired hunfired hfailed) rfl rfl
    ⟨fun _ => rfl, (h.ops o op hop).tcp.2⟩ (fun hf => absurd hf (by simp [hfailed])) (by simp [Op.closed, htcp]) hcall

theorem Inv.onTimeout (h : Inv c) (hop : c.ops[o]? = some op) (harmed : op.armed = true) (inTime : Bool) {id : ℕ}
    {question : Bytes} (hq : question ≠ []) (hfresh : FreshFor c o id) :
    Inv (onTimeout c o op inTime id question) := by
  have hfailed := h.not_failed hop (.inl harmed)
  rw [DnsClient.onTimeout]
  split
  · exact h
  · rename_i hfired
    have hunfired : op.fired = false := by simpa using hfired
    split
    · exact h.retry hop hunfired hfailed hq hfresh
    · exact h.fire hop hunfired hfailed (callOk_error (by simp) (by simp) _ _ _)

theorem Inv.doCancel (h : Inv c) (hop : c.ops[o]? = some op) (harmed : op.armed = true) : Inv (doCancel c o op) := by
  rw [DnsClient.doCancel]
  split
  · exact h
  · rename_i hfired
    exact h.fire hop (by simpa using hfired) (h.not_failed hop (.inl harmed)) (callOk_error (by simp) (by simp) _ _ _)

theorem Inv.finishTcp (h : Inv c) (hop : c.ops[o]? = some op) (htcp : op.inTcp = true) {outcome : Outcome}
    (hcall : CallOk ⟨o, outcome, op.queryId, op.expectedQuestion⟩) : Inv (finishTcp c o op outcome) := by
  have hfired := (h.ops o op hop).tcp.1 htcp
  have hfailed := h.not_failed hop (.inr hfired)
  rw [DnsClient.finishTcp]
  split
  · exact h
  · rename_i hfinished
    have hopen : op.closed = false := by
      have : op.tcpFinished = false := by simpa using hfinished
      simp [Op.closed, hfailed, htcp, this]
    exact h.finish { op with tcpFinished := true } hop hopen rfl rfl ⟨fun _ => hfired, fun _ => htcp⟩
      (fun hf => absurd hf (by simp [hfailed]))
      (by simp [Op.closed, hfired]) hcall

/-- The second half of the handling of a datagram. -/
theorem Inv.deliver (h : Inv c) {i : ℕ} {d : Bytes} (hi : c.taken[i]? = some (o, d)) (hop : c.ops[o]? = some op)
    (hreg : op.fired = false → (∃ result, parseDnsResponse sections d op.queryId op.expectedQuestion = .ok result) ∧
      Answering d op) : Inv (deliver sections { c with taken := c.taken.eraseIdx i } o op d) := by
  rw [DnsClient.deliver]
  cases hf : op.fired with
  | true =>
      have hstay := h.untake hi hop hf
      split
      · rw [onResponse, if_pos hf]
        exact hstay
      · simpa [hf] using hstay
  | false =>
      obtain ⟨⟨result, hparse⟩, hans⟩ := hreg hf
      have hok := h.ops o op hop
      have hfailed : op.failed = false := by
        by_contra hfail
        exact (hok.failed (by simpa using hfail)).2.2 d (List.mem_of_getElem? hi)
      have hself (op' : Op) : (c.ops.set o op')[o]? = some op' := getElem?_set_self' hop
      rw [hparse]
      dsimp only
      rw [onResponse, if_neg (by simp [hf])]
      split
      · have hunfinished : op.tcpFinished = false := by
          by_contra hdone
          have := hok.tcp.1 (hok.tcp.2 (by simpa using hdone))
          simp [hf] at this
        have hlen : ([] : List Call).length = if Op.closed { op with fired := true, inTcp := true } then 1 else 0 := by
          simp [Op.closed, hfailed, hunfinished]
        have hmark := h.mark { op with fired := true, inTcp := true } hop (closed_of_unfired hf hfailed) rfl rfl
          ⟨fun _ => rfl, fun _ => rfl⟩ (fun h' => absurd h' (by simp [hfailed])) (.inl rfl) (by simp) hlen
        rw [List.append_nil] at hmark
        exact hmark.untake hi (hself _) rfl
      · have hcall : CallOk ⟨o, .success d, op.queryId, op.expectedQuestion⟩ := by
          refine ⟨fun d' h' => ?_, by simp⟩
          obtain rfl := Outcome.success.inj h'
          exact matches_of_parse hparse (hok.question hfailed) hans
        have hfin := h.fire hop hf hfailed hcall
        exact hfin.untake hi (hself _) rfl

theorem Inv.onTcpResponse (h : Inv c) (hop : c.ops[o]? = some op) (htcp : op.inTcp = true) {d : Bytes}
    (hreg : (∃ result, parseDnsResponse sections d op.queryId op.expectedQuestion = .ok result) → Answering d op) :
    Inv (onTcpResponse sections c o op d) := by
  have hfailed := h.not_failed hop (.inr ((h.ops o op hop).tcp.1 htcp))
  rw [DnsClient.onTcpResponse]
  cases hparse : parseDnsResponse sections d op.queryId op.expectedQuestion with
  | error e => exact h.finishTcp hop htcp (callOk_error (by simp) (by simp) _ _ _)
  | ok result =>
      refine h.finishTcp hop htcp ⟨fun d' h' => ?_, by simp⟩
      obtain rfl := Outcome.success.inj h'
      exact matches_of_parse hparse ((h.ops o op hop).question hfailed) (hreg ⟨result, hparse⟩)

/-- Every regular event keeps the invariant. -/
theorem Inv.exec (h : Inv c) {e : Event} (he : Regular sections c e) {c' : Client} (hc : exec sections c e = some c') :
    Inv c' := by
  cases e with
  | start id question cancelled =>
      cases cancelled with
      | true =>
          obtain rfl := Option.some.inj hc
          exact h.startCancelled id question
      | false =>
          obtain rfl := Option.some.inj hc
          obtain ⟨hq, hfresh⟩ := he rfl
          exact h.start hq hfresh
  | sent o =>
      obtain ⟨op, hop, hc⟩ := Option.bind_eq_some_iff.mp hc
      split at hc
      · simp at hc
      · rename_i hlive
        obtain rfl := Option.some.inj hc
        simp only [Bool.or_eq_true, not_or, Bool.not_eq_true] at hlive
        exact h.armed hop hlive.2
  | sendFailed o =>
      obtain ⟨op, hop, hc⟩ := Option.bind_eq_some_iff.mp hc
      split at hc
      · simp at hc
      · rename_i hlive
        obtain rfl := Option.some.inj hc
        simp only [Bool.or_eq_true, not_or, Bool.not_eq_true] at hlive
        have hunfired := he.1 op hop
        exact h.finish { op with failed := true } hop (closed_of_unfired hunfired hlive.2) rfl rfl (h.ops o op hop).tcp
          (fun _ => ⟨hunfired, hlive.1, he.2⟩) (by simp [Op.closed]) (callOk_error (by simp) (by simp) _ _ _)
  | datagram d =>
      rw [DnsClient.exec] at hc
      split at hc
      · obtain rfl := Option.some.inj hc
        exact h
      · split at hc
        · obtain rfl := Option.some.inj hc
          exact h
        · rename_i o hlook
          obtain rfl := Option.some.inj hc
          exact h.take hlook d
  | deliver i =>
      obtain ⟨⟨o, d⟩, hi, hc⟩ := Option.bind_eq_some_iff.mp hc
      obtain ⟨op, hop, hc⟩ := Option.bind_eq_some_iff.mp hc
      obtain rfl := Option.some.inj hc
      exact h.deliver hi hop (he o d op hi hop)
  | timeout o inTime id question =>
      obtain ⟨op, hop, hc⟩ := Option.bind_eq_some_iff.mp hc
      split at hc
      · rename_i harmed
        obtain rfl := Option.some.inj hc
        exact h.onTimeout hop harmed inTime he.1 he.2
      · simp at hc
  | cancel o =>
      obtain ⟨op, hop, hc⟩ := Option.bind_eq_some_iff.mp hc
      split at hc
      · rename_i harmed
        obtain rfl := Option.some.inj hc
        exact h.doCancel hop harmed
      · simp at hc
  | tcpResponse o d =>
      obtain ⟨op, hop, hc⟩ := Option.bind_eq_some_iff.mp hc
      split at hc
      · rename_i htcp
        obtain rfl := Option.some.inj hc
        exact h.onTcpResponse hop htcp (he op hop)
      · simp at hc
  | tcpFail o =>
      obtain ⟨op, hop, hc⟩ := Option.bind_eq_some_iff.mp hc
      split at hc
      · rename_i htcp
        obtain rfl := Option.some.inj hc
        exact h.finishTcp hop htcp (callOk_error (by simp) (by simp) _ _ _)
      · simp at hc

theorem Inv.answers (h : Inv c) : Answers c := by
  refine ⟨fun o => ?_, fun k hk d hd => (h.calls k hk).1.1 d hd, fun k hk d => (h.calls k hk).1.2 d,
    fun o op hop hcalled htcp hfree => ?_⟩
  · cases hop : c.ops[o]? with
    | none =>
        have : c.calls.filter (·.op = o) = [] := by
          refine List.filter_eq_nil_iff.mpr fun k hk hko => ?_
          obtain ⟨-, op, hop'⟩ := h.calls k hk
          obtain rfl : k.op = o := by simpa using hko
          rw [hop] at hop'
          simp at hop'
        rw [this]
        exact Nat.zero_le 1
    | some op =>
        rw [(h.ops o op hop).count]
        split
        · exact le_rfl
        · exact Nat.zero_le 1
  · have hopen : op.closed = false := by
      by_contra hc
      exact hcalled ((h.called_iff hop).mpr (by simpa using hc))
    simp only [Op.closed, htcp, Bool.not_false, Bool.true_or, Bool.and_true, Bool.or_eq_false_iff] at hopen
    rcases (h.ops o op hop).kept hopen.2 hopen.1 with hmem | ⟨d, hd⟩
    · exact lookup_of_mem h.nodup hmem
    · exact absurd hd (hfree d)

/-- In every run of regular events, the right answers complete the queries. -/
theorem run_answers (sections : Bytes → ℕ → Except String R) {maxUdpRetries : ℕ} {es : List Event}
    (hr : Run (Guarded (Regular sections) (Step sections)) (.init maxUdpRetries) es c) : Answers c := by
  have hinv : Inv c := by
    refine hr.invariant ?_ fun h hstep => h.exec hstep.1 hstep.2
    exact ⟨by simp [Client.init], by simp [Client.init], by simp [Client.init], by simp [Client.init],
      by simp [Client.init], by simp [Client.init]⟩
  exact hinv.answers

section Sample

/-- A reader of records that finds none. -/
def noRecords (_ : Bytes) (_ : ℕ) : Except String Unit := .ok ()

/-- A response with the id 6 and the question `A`. -/
def response : Bytes := [0, 6, 0x81, 0x80, 0, 1, 0, 0, 0, 0, 0, 0, 1, 0x41, 0, 0, 1, 0, 1]

theorem response_parses : parseDnsResponse noRecords response 6 [0x41] = .ok ⟨0, false, false, true, ()⟩ := by
  have hlabel : (1 : UInt8) &&& 192 ≠ 192 := by decide
  have hname : decodeDomainName response 12 = .ok ([0x41], 15) := by
    simp [decodeDomainName, decodeLoop, response, hlabel]
  have hq : parseQuestions response [0x41] 1 0 12 = .ok 19 := by
    rw [parseQuestions, hname]
    rfl
  have hcount : questionCount response = 1 := rfl
  rw [parseDnsResponse, hcount, hq]
  rfl

/-- The client after a query and its retry. -/
def waiting : Client := ⟨1, [⟨6, [0x41], false, 1, true, false, false, false⟩], [(6, 0)], [], []⟩

/-- The client when the response to the retry is being handled. -/
def handling : Client := { waiting with pending := [], taken := [(0, response)] }

theorem waiting_run : Run (Guarded (Regular noRecords) (Step noRecords)) (.init 1)
    [.start 5 [0x61] false, .sent 0, .timeout 0 true 6 [0x41], .datagram response] handling := by
  refine .cons ⟨fun _ => ⟨by simp, fun o op h => ?_⟩, rfl⟩ (.cons ⟨trivial, rfl⟩ (.cons ⟨⟨by simp, ?_⟩, rfl⟩
    (.cons ⟨trivial, rfl⟩ (.nil _))))
  · simp [Client.init] at h
  · intro o op h _ hne
    have hlt := (List.getElem?_eq_some_iff.mp h).1
    have : o < 1 := hlt
    omega

theorem run_answers_sample : ∃ c, Run (Step noRecords) handling [.deliver 0] c ∧ c.calls.length = 1 ∧ Answers c := by
  have hstep : ∃ c, exec noRecords handling (.deliver 0) = some c ∧ c.calls.length = 1 := by
    refine ⟨deliver noRecords { handling with taken := [] } 0 ⟨6, [0x41], false, 1, true, false, false, false⟩ response,
      rfl, ?_⟩
    rw [deliver, response_parses]
    rfl
  obtain ⟨c, hc, hlen⟩ := hstep
  refine ⟨c, .cons hc (.nil c), hlen, run_answers noRecords (waiting_run.append (.cons ⟨?_, hc⟩ (.nil c)))⟩
  intro o d op hi hop _
  obtain ⟨rfl, rfl⟩ := Prod.mk.inj (Option.some.inj hi)
  obtain rfl := Option.some.inj hop
  exact ⟨⟨_, response_parses⟩, by decide, fun h => absurd h (by decide)⟩

/-- A datagram with the id of a query fails it, whatever it contains. -/
theorem datagram_fails : ∃ es c, Run (Step noRecords) (.init 1) es c ∧ ¬ Answers c := by
  have hrun : Run (Step noRecords) (.init 1)
      [.start 5 [0x61] false, .sent 0, .datagram [0, 5, 0, 0, 0, 0, 0, 0, 0, 0, 0, 0], .deliver 0]
      ⟨1, [⟨5, [0x61], true, 0, true, false, false, false⟩], [], [],
        [⟨0, .protocolError [0, 5, 0, 0, 0, 0, 0, 0, 0, 0, 0, 0], 5, [0x61]⟩]⟩ := Run.of_foldlM rfl
  exact ⟨_, _, hrun, fun h => h.patient _ (List.mem_singleton_self _) _ rfl⟩

end Sample

end NeForce.DnsClient
