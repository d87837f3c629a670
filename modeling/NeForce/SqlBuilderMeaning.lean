import NeForce.SqlBuilder

/-! # What the WHERE clause means

The conditions of the builder are followed beside the parts that the calls stand for. They agree as long as no empty
list was left out and later read as something else; conditions without an outer `OR` then join to their conjunction. -/

namespace NeForce.SqlBuilder

open BoolSyntax

/-! ### The texts -/

theorem intercalate_two {α : Type} (sep a b : List α) (l : List (List α)) :
    sep.intercalate (a :: b :: l) = a ++ (sep ++ sep.intercalate (b :: l)) := by
  simp [List.intercalate, List.intersperse]

theorem Test.exec_eq (t : Test) (b : Builder) : t.exec b = b.whereTest t.text := by
  cases t <;> rfl

/-! ### Joining conditions -/

/-- Conditions without an outer disjunction are read as their conjunction. -/
theorem exists_joined {cs : List Cond} (hne : cs ≠ []) (h : ∀ c ∈ cs, c.Fits ∧ c.rank ≤ 1) :
    ∃ c : Cond, c.Fits ∧ c.rank ≤ 1 ∧ c.toks = [Tok.and].intercalate (cs.map Cond.toks) ∧
      ∀ row, c.value row = .yes ↔ ∀ d ∈ cs, d.value row = .yes := by
  induction cs with
  | nil => exact absurd rfl hne
  | cons c cs ih =>
      obtain ⟨hc, hr⟩ := h c List.mem_cons_self
      cases cs with
      | nil => exact ⟨c, hc, hr, by simp [List.intercalate], fun row => by simp⟩
      | cons d cs =>
          obtain ⟨e, he, hre, htoks, hval⟩ := ih (by simp) fun x hx => h x (List.mem_cons_of_mem _ hx)
          obtain ⟨h1, h2, h3, h4⟩ := Cond.conj_fits hc hr he hre
          refine ⟨c.conj e, h1, h2.le, ?_, fun row => ?_⟩
          · simp only [List.map_cons] at htoks ⊢
            rw [h3, htoks, intercalate_two]
            rfl
          · rw [h4, hval, List.forall_mem_cons (l := d :: cs)]

/-- The meaning of the clause, for conditions that may be joined. -/
theorem joined_means {cs : List Cond} (h : ∀ c ∈ cs, c.Fits) (hj : cs.length ≤ 1 ∨ ∀ c ∈ cs, c.rank ≠ 2)
    (row : Bytes → Truth) :
    (∀ toks ∈ joined (cs.map Cond.toks), Satisfied row toks) ↔ ∀ c ∈ cs, c.value row = .yes := by
  cases cs with
  | nil => simp [joined]
  | cons c cs =>
      have hjoined : joined ((c :: cs).map Cond.toks) = some ([Tok.and].intercalate ((c :: cs).map Cond.toks)) := by
        simp [joined]
      obtain ⟨e, he, htoks, hval⟩ : ∃ e : Cond, e.Fits ∧ e.toks = [Tok.and].intercalate ((c :: cs).map Cond.toks) ∧
          ∀ row, e.value row = .yes ↔ ∀ d ∈ c :: cs, d.value row = .yes := by
        rcases hj with hlen | hrank
        · obtain rfl : cs = [] := List.length_eq_zero_iff.mp (by simpa using hlen)
          exact ⟨c, h c List.mem_cons_self, by simp [List.intercalate], fun row => by simp⟩
        · obtain ⟨e, he, -, htoks, hval⟩ := exists_joined (List.cons_ne_nil c cs) fun d hd => by
            have h1 := d.rank_le_two
            have h2 := hrank d hd
            exact ⟨h d hd, by omega⟩
          exact ⟨e, he, htoks, hval⟩
      rw [hjoined, ← hval row, ← satisfied_toks he, htoks]
      simp

/-! ### Following the calls -/

/-- Every part holds exactly when every condition does. -/
def AllAgree (row : Bytes → Truth) (parts : List Truth) (cs : List Cond) : Prop :=
  (∀ t ∈ parts, t = .yes) ↔ ∀ c ∈ cs, c.value row = .yes

theorem AllAgree.concat {row : Bytes → Truth} {parts : List Truth} {cs : List Cond} (h : AllAgree row parts cs)
    {t : Truth} {c : Cond} (ht : t = .yes ↔ c.value row = .yes) : AllAgree row (parts ++ [t]) (cs ++ [c]) := by
  rw [AllAgree] at h ⊢
  simp only [List.forall_mem_append, List.forall_mem_singleton, h, ht]

/-- The last parts: nothing yet, a condition that the builder has as well, or an empty list that it left out. -/
def LastAgrees (row : Bytes → Truth) (parts : List Truth) (cs : List Cond) : Option Bool → Prop
  | none => (parts = [] ∧ cs = []) ∨ ∃ parts' t cs' c, parts = parts' ++ [t] ∧ cs = cs' ++ [c] ∧
      AllAgree row parts' cs' ∧ (t = .yes ↔ c.value row = .yes)
  | some true => AllAgree row parts cs
  | some false => cs = [] ∧ ∃ parts', parts = parts' ++ [.no] ∧ ∀ t ∈ parts', t = .yes

/-- What the builder, the scan and the parts have in common. -/
structure Follows (row : Bytes → Truth) (conditions : List (List Tok)) (s : Scan) (parts : List Truth)
    (cs : List Cond) : Prop where
  fits : ∀ c ∈ cs, c.Fits
  conditions : conditions = cs.map Cond.toks
  exposed : s.exposed = cs.map fun c => decide (c.rank = 2)
  last : LastAgrees row parts cs s.pending

variable {row : Bytes → Truth} {b : Builder} {s s' : Scan} {ps : List Truth} {cs : List Cond}

theorem Follows.allAgree (h : Follows row b.whereConditions_ s ps cs) (hs : s.pending ≠ some false) :
    AllAgree row ps cs := by
  have hlast := h.last
  rcases hp : s.pending with _ | b
  · rw [hp] at hlast
    rcases hlast with ⟨rfl, rfl⟩ | ⟨ps', t, cs', c, rfl, rfl, hall, ht⟩
    · simp [AllAgree]
    · exact hall.concat ht
  · cases b with
    | true =>
        rw [hp] at hlast
        exact hlast
    | false => exact absurd hp hs

/-- A new condition. -/
theorem Follows.part (h : Follows row b.whereConditions_ s ps cs) {c : Cond} (hc : c.Fits)
    (hs : scanPart s (decide (c.rank = 2)) = some s') :
    Follows row (b.where_ c.toks).whereConditions_ s' (ps ++ [c.value row]) (cs ++ [c]) := by
  rw [scanPart] at hs
  split at hs
  · simp at hs
  · rename_i hpending
    obtain rfl := Option.some.inj hs
    exact {
      fits := List.forall_mem_append.mpr ⟨h.fits, List.forall_mem_singleton.mpr hc⟩
      conditions := by rw [Builder.where_, h.conditions, List.map_append, List.map_singleton]
      exposed := by rw [h.exposed, List.map_append, List.map_singleton]
      last := .inr ⟨ps, _, cs, c, rfl, rfl, h.allAgree hpending, Iff.rfl⟩ }

theorem Follows.test (h : Follows row b.whereConditions_ s ps cs) (test : Bytes) (hs : scanPart s false = some s') :
    ∃ cs', Follows row (b.whereTest test).whereConditions_ s' (ps ++ [row test]) cs' :=
  have hpart : Follows row (b.whereTest test).whereConditions_ s' (ps ++ [row test]) (cs ++ [Cond.test test]) :=
    h.part (c := .test test) trivial hs
  ⟨_, hpart⟩

/-- One call keeps the agreement. -/
theorem Follows.step (h : Follows row b.whereConditions_ s ps cs) (call : Call) (hs : scanStep s call = some s') :
    ∃ cs', Follows row (exec b call).whereConditions_ s' (partsAfter row ps call) cs' := by
  cases call with
  | where_ c => exact ⟨_, h.part c.2 hs⟩
  | test t =>
      rw [exec, Test.exec_eq]
      exact h.test t.text hs
  | whereIn field values =>
      rw [exec, Builder.whereIn, partsAfter]
      by_cases hv : values = []
      · rw [scanStep, if_neg (by simp [hv])] at hs
        rw [if_pos hv, if_pos hv]
        split at hs
        · simp at hs
        · rename_i hfree
          push Not at hfree
          obtain rfl := Option.some.inj hs
          obtain rfl : cs = [] := by simpa [h.exposed] using hfree.2
          have hall := h.allAgree hfree.1
          exact ⟨[], h.fits, h.conditions, rfl, rfl, ps, rfl, hall.mpr (by simp)⟩
      · rw [scanStep, if_pos hv] at hs
        rw [if_neg hv, if_neg hv]
        exact h.test _ hs
  | whereNotIn field values =>
      rw [exec, Builder.whereNotIn, partsAfter]
      by_cases hv : values = []
      · rw [scanStep, if_neg (by simp [hv])] at hs
        rw [if_pos hv, if_pos hv]
        split at hs
        · simp at hs
        · rename_i hfree
          obtain rfl := Option.some.inj hs
          have hall : AllAgree row (ps ++ [.yes]) cs := by
            have := h.allAgree hfree
            rw [AllAgree] at this ⊢
            simp only [List.forall_mem_append, List.forall_mem_singleton, and_true, this]
          exact ⟨cs, h.fits, h.conditions, h.exposed, hall⟩
      · rw [scanStep, if_pos hv] at hs
        rw [if_neg hv, if_neg hv]
        exact h.test _ hs
  | orWhere c =>
      rw [scanStep] at hs
      split at hs
      · simp at hs
      · rename_i hpending
        split at hs
        · rename_i hexposed
          obtain rfl := Option.some.inj hs
          obtain rfl : cs = [] := by simpa [h.exposed] using hexposed
          have hconds : b.whereConditions_ = [] := h.conditions
          refine ⟨[c.1], by simpa using c.2, ?_, rfl, ?_⟩
          · simp [exec, Builder.orWhere, Builder.where_, hconds]
          · rw [partsAfter]
            have hlast := h.last
            rcases hp : s.pending with _ | p
            · rw [hp] at hlast
              rcases hlast with ⟨rfl, -⟩ | ⟨_, _, cs', c', -, hcs, -⟩
              · exact .inr ⟨[], _, [], c.1, rfl, rfl, by simp [AllAgree], Iff.rfl⟩
              · exact absurd hcs (by simp)
            · cases p with
              | true => exact absurd hp hpending
              | false =>
                  rw [hp] at hlast
                  obtain ⟨-, ps', rfl, hyes⟩ := hlast
                  rw [List.getLast?_concat]
                  refine .inr ⟨ps', _, [], c.1, by rw [List.dropLast_concat], rfl, ?_, ?_⟩
                  · simpa [AllAgree] using hyes
                  · simp
        · rename_i hexposed
          obtain rfl := Option.some.inj hs
          have hlast := h.last
          have hne : cs ≠ [] := by
            rintro rfl
            exact hexposed h.exposed
          rcases hp : s.pending with _ | p
          · rw [hp] at hlast
            rcases hlast with ⟨-, rfl⟩ | ⟨ps', t, cs', d, rfl, rfl, hall, ht⟩
            · exact absurd rfl hne
            · obtain ⟨h1, h2, h3⟩ := Cond.disj_fits (h.fits d (by simp)) c.2
              refine ⟨cs' ++ [.paren (d.disj c.1)], ?_, ?_, ?_, ?_⟩
              · exact List.forall_mem_append.mpr ⟨fun e he => h.fits e (List.mem_append_left _ he),
                  List.forall_mem_singleton.mpr h1⟩
              · have hcond : b.whereConditions_ = cs'.map Cond.toks ++ [d.toks] := by simpa using h.conditions
                simp only [exec, Builder.orWhere, hcond, List.getLast?_concat, List.dropLast_concat]
                simp [Cond.toks, h2]
              · simp [h.exposed, Cond.rank]
              · rw [partsAfter, List.getLast?_concat]
                refine .inr ⟨ps', _, cs', _, by rw [List.dropLast_concat], rfl, hall, ?_⟩
                rw [Truth.or_eq_yes, ht, Cond.value, h3]
          · cases p with
            | true => exact absurd hp hpending
            | false =>
                rw [hp] at hlast
                exact absurd hlast.1 hne

theorem Follows.run {calls : List Call} (h : Follows row b.whereConditions_ s ps cs)
    (hs : calls.foldlM scanStep s = some s') :
    ∃ cs', Follows row (calls.foldl exec b).whereConditions_ s' (calls.foldl (partsAfter row) ps) cs' := by
  induction calls generalizing b s ps cs with
  | nil =>
      obtain rfl := Option.some.inj hs
      exact ⟨cs, h⟩
  | cons call calls ih =>
      rw [List.foldlM_cons] at hs
      obtain ⟨s1, h1, h2⟩ := Option.bind_eq_some_iff.mp hs
      obtain ⟨cs1, hstep⟩ := h.step call h1
      exact ih hstep h2

/-! ### The clause -/

theorem build_condition {b : Builder} {st : Statement} (h : build b = .ok st) :
    st.condition = joined b.whereConditions_ := by
  rw [build] at h
  split at h
  · simp at h
  · split at h
    · obtain rfl := Except.ok.inj h
      rfl
    · split at h
      · simp at h
      · obtain rfl := Except.ok.inj h
        rfl
    · obtain rfl := Except.ok.inj h
      rfl

/-- For calls that may be joined, every statement applies to the rows where each part holds. -/
theorem joinable_means {b : Builder} (hb : b.whereConditions_ = []) {calls : List Call} (h : Joinable calls)
    {st : Statement} (hst : build (calls.foldl exec b) = .ok st) : Means calls st := by
  obtain ⟨s, hs, hpending, hexposed⟩ := h
  intro row
  have h0 : Follows row b.whereConditions_ ⟨[], none⟩ [] [] := ⟨by simp, by simp [hb], rfl, .inl ⟨rfl, rfl⟩⟩
  obtain ⟨cs, hcs⟩ := h0.run hs
  have hj : cs.length ≤ 1 ∨ ∀ c ∈ cs, c.rank ≠ 2 := by
    rw [hcs.exposed] at hexposed
    simpa using hexposed
  have hall := hcs.allAgree hpending
  rw [Selects, build_condition hst, hcs.conditions, joined_means hcs.fits hj, parts]
  exact hall.symm

section Sample

/-- A `DELETE` without conditions yet. -/
def deletion : Builder := ⟨.delete, ascii "users", [], [], [], []⟩

def old : Expr := ⟨.test (ascii "age > 90"), trivial⟩

def banned : Expr := ⟨.test (ascii "banned"), trivial⟩

def oldOrBanned : Expr := ⟨.or old.1 banned.1, trivial, trivial, Nat.zero_le _⟩

theorem joinable_means_sample : Means [.where_ old, .orWhere banned, .test (.eq (ascii "id") (ascii "7"))]
    ⟨ascii "DELETE FROM users", some [.lpar, .test (ascii "age > 90"), .or, .test (ascii "banned"), .rpar, .and,
      .test (ascii "id = 7")], []⟩ :=
  joinable_means (b := deletion) rfl ⟨⟨[false, false], none⟩, rfl, by decide, .inr (by decide)⟩ rfl

/-- An empty `IN` list deletes every row, and an `OR` of one condition escapes the next one. -/
theorem clause_loses : (build ([Call.whereIn (ascii "id") []].foldl exec deletion) =
      .ok ⟨ascii "DELETE FROM users", none, []⟩ ∧
      ¬ Means [.whereIn (ascii "id") []] ⟨ascii "DELETE FROM users", none, []⟩) ∧
    (build ([Call.where_ oldOrBanned, .test (.eq (ascii "id") (ascii "7"))].foldl exec deletion) =
      .ok ⟨ascii "DELETE FROM users", some [.test (ascii "age > 90"), .or, .test (ascii "banned"), .and,
        .test (ascii "id = 7")], []⟩ ∧
      ¬ Means [.where_ oldOrBanned, .test (.eq (ascii "id") (ascii "7"))]
        ⟨ascii "DELETE FROM users", some [.test (ascii "age > 90"), .or, .test (ascii "banned"), .and,
          .test (ascii "id = 7")], []⟩) := by
  refine ⟨⟨rfl, fun h => ?_⟩, rfl, fun h => ?_⟩
  · have := (h fun _ => .yes).mp (by simp [Selects])
    simp [parts, partsAfter] at this
  · let row : Bytes → Truth := fun t => if t = ascii "age > 90" then .yes else .no
    let read : Cond := .or (.test (ascii "age > 90")) (.and (.test (ascii "banned")) (.test (ascii "id = 7")))
    have hread : read.Fits := ⟨trivial, ⟨trivial, trivial, rfl, Nat.zero_le _⟩, Nat.zero_le _⟩
    have hsel := (h row).mp fun toks ht => by
      obtain rfl := Option.mem_some.mp ht
      exact ⟨read, hread, rfl, rfl⟩
    have := hsel (row (ascii "id = 7")) (by simp [parts, partsAfter, Test.text, ascii])
    exact absurd this (by decide)

end Sample

end NeForce.SqlBuilder
