import NeForce.RbCorrect

/-! # Insertion with a hint

A hint only changes where the search for the place begins.  With every iterator of a valid tree,
right or wrong, `emplace_unique_hint` leaves the same sequence and returns the same element as
`emplace_unique`, and `emplace_equal_hint` adds the value in a place where the sequence stays
sorted (`emplaceHint_agrees`). -/

namespace NeForce.Rb

variable {V K : Type} {key : V → K} {h h' : Heap V} {t t' : RbTree K} {s s₁ s₂ s₁' s₂' : List (ℕ × V)} {F : List ℕ}
  {a p q : ℕ} {v : V}

/-! ### The linking functions return the node -/

theorem hangNode_addr (e : hangNode h t p a = some (h', t', q)) : q = a := by
  simp only [hangNode, Option.bind_eq_bind, Option.bind_eq_some_iff, Option.pure_def, Option.some.injEq,
    Prod.mk.injEq] at e
  obtain ⟨_, _, _, _, _, _, _, _, _, _, rfl⟩ := e
  rfl

theorem linkSide_addr {sd : Side} (e : linkSide sd h t p a = some (h', t', q)) : q = a := by
  simp only [linkSide, Option.bind_eq_bind, Option.bind_eq_some_iff] at e
  obtain ⟨_, _, _, _, e⟩ := e
  exact hangNode_addr e

theorem linkRoot_addr (e : linkRoot h t a = some (h', t', q)) : q = a := by
  simp only [linkRoot, Option.bind_eq_bind, Option.bind_eq_some_iff] at e
  obtain ⟨_, _, _, _, _, _, _, _, e⟩ := e
  exact hangNode_addr e

theorem insertInto_addr {child : ℕ} (e : insertInto key h t child p a = some (h', t', q)) : q = a := by
  rw [insertInto] at e
  split_ifs at e
  · exact linkRoot_addr e
  · exact linkSide_addr e
  · simp only [Option.bind_eq_bind, Option.bind_eq_some_iff] at e
    obtain ⟨_, _, _, _, e⟩ := e
    split_ifs at e
    · exact linkSide_addr e
    · exact linkSide_addr e

/-- A branch of `emplace_unique_hint`, once it has the new node `a`: it returns the node or leaves the search to
`insert_unique`. -/
def Answers (key : V → K) (dbg : Bool) (h : Heap V) (t : RbTree K) (a : ℕ) (o : Option (Heap V × RbTree K × ℕ)) : Prop :=
  ∀ h' t' q, o = some (h', t', q) → q = a ∨ insertUniqueFirst key dbg h t a = some (h', t', q)

section

variable {dbg : Bool} {o o' : Option (Heap V × RbTree K × ℕ)}

theorem Answers.bind {α : Type} {x : Option α} {f : α → Option (Heap V × RbTree K × ℕ)}
    (hf : ∀ r, Answers key dbg h t a (f r)) : Answers key dbg h t a (x.bind f) := by
  intro h' t' q e
  obtain ⟨r, _, e⟩ := Option.bind_eq_some_iff.mp e
  exact hf r h' t' q e

theorem Answers.ite {c : Prop} [Decidable c] (ho : Answers key dbg h t a o) (ho' : Answers key dbg h t a o') :
    Answers key dbg h t a (if c then o else o') := by
  split
  · exact ho
  · exact ho'

theorem answers_search : Answers key dbg h t a (insertUniqueFirst key dbg h t a) := fun _ _ _ e => Or.inr e

theorem answers_side (sd : Side) (p : ℕ) : Answers key dbg h t a (linkSide sd h t p a) :=
  fun _ _ _ e => Or.inl (linkSide_addr e)

theorem answers_into (c p : ℕ) : Answers key dbg h t a (insertInto key h t c p a) :=
  fun _ _ _ e => Or.inl (insertInto_addr e)

/-- With a hint the new node is linked next to it, or the search from the root decides. -/
theorem answers_emplaceUniqueHint {h₁ : Heap V} {t₁ : RbTree K} (hc : createNode h t v = some (h₁, t₁, a)) :
    Answers key dbg h₁ t₁ a (emplaceUniqueHint key dbg h t p v) := by
  rw [emplaceUniqueHint, hc]
  simp only [Option.bind_eq_bind, Option.bind_some]
  refine .bind fun k => .ite ?_ ?_
  · exact .ite (.bind fun r => .bind fun _ => .ite (answers_side _ _) answers_search) answers_search
  · refine .bind fun b => .ite ?_ ?_
    · exact .ite (.bind fun _ => .ite (answers_side _ _) answers_search) answers_search
    · refine .bind fun _ => .bind fun _ => .bind fun _ => .ite ?_ answers_search
      exact .bind fun _ => .ite (answers_into _ _) (.bind fun _ => .ite (answers_into _ _) answers_search)

end

/-! ### Where an element without equivalents goes -/

/-- The elements before a new one without equivalents are those that are less. -/
theorem lower_eq_filter {o : StrictWeakOrder K} (hs : Sorted o (fun e : ℕ × V => key e.2) (s₁ ++ (a, v) :: s₂))
    (hn : ∀ e ∈ s₁ ++ s₂, ¬ o.Equiv (key e.2) (key v)) :
    s₁ = (s₁ ++ s₂).filter (fun e => o.lt (key e.2) (key v)) := by
  obtain ⟨_, h2, h3⟩ := List.pairwise_append.mp hs
  have hlow : ∀ e ∈ s₁, o.lt (key e.2) (key v) = true := by
    intro e he
    by_contra hlt
    exact hn e (List.mem_append_left _ he) ⟨by simpa using hlt, h3 e he (a, v) List.mem_cons_self⟩
  have hhigh : ∀ e ∈ s₂, o.lt (key e.2) (key v) = false := (List.pairwise_cons.mp h2).1
  rw [List.filter_append, List.filter_eq_self.mpr hlow,
    List.filter_eq_nil_iff.mpr fun e he => by simp [hhigh e he], List.append_nil]

/-- There is one sorted sequence with the new element. -/
theorem inserted_unique {o : StrictWeakOrder K} (e : s₁ ++ s₂ = s₁' ++ s₂')
    (hs : Sorted o (fun e : ℕ × V => key e.2) (s₁ ++ (a, v) :: s₂))
    (hs' : Sorted o (fun e : ℕ × V => key e.2) (s₁' ++ (a, v) :: s₂'))
    (hn : ∀ e ∈ s₁ ++ s₂, ¬ o.Equiv (key e.2) (key v)) : s₁ ++ (a, v) :: s₂ = s₁' ++ (a, v) :: s₂' := by
  have h1 : s₁ = s₁' := by
    rw [lower_eq_filter hs hn, e]
    exact (lower_eq_filter hs' (e ▸ hn)).symm
  subst h1
  rw [List.append_cancel_left e]

/-! ### Agreement -/

theorem Holds.elements_eq (hok : h.Ok) (hh : Holds key h t s F) : elements h t = some s := by
  obtain ⟨T, hT⟩ := hh.1
  exact hT.elements_eq hok

theorem Holds.sorted (hh : Holds key h t s F) : Sorted t.keyCompare (fun e => key e.2) s := by
  obtain ⟨T, hT⟩ := hh.1
  exact hT.sorted

theorem emplaceUniqueHint_agrees (dbg : Bool) (hok : h.Ok) (hh : Holds key h t s F) (hp : Position t s p) (v : V) :
    ∃ h₁ t₁ h₂ t₂ q b s', emplaceUnique key dbg h t v = some (h₁, t₁, q, b) ∧
      emplaceUniqueHint key dbg h t p v = some (h₂, t₂, q) ∧
      elements h₁ t₁ = some s' ∧ elements h₂ t₂ = some s' := by
  obtain ⟨hc, tc, a, F1, ec, hl, hsc, so, _⟩ := createNode_holds hok hh v
  obtain ⟨h₂, t₂, q, b, F', e₂, ho⟩ := emplaceUniqueHint_spec dbg hok hh hp v
  have erun : emplaceUnique key dbg h t v = insertUnique key dbg hc tc a := by
    rw [emplaceUnique, ec]
    rfl
  rcases answers_emplaceUniqueHint ec _ _ _ e₂ with rfl | hfall
  · have hnew := hl.notMem
    cases ho with
    | present mem =>
        exact absurd (List.mem_cons_of_mem _ (List.mem_map_of_mem mem)) hnew
    | @linked s₁ s₂ _ split new ins =>
        rcases insertUnique_spec dbg hsc.ok hl with ⟨h₁, t₁, r₁, r₂, e₁, hcut, hi, _⟩ | ⟨_, _, r₁, e, r₂, _, hcut, heq, _⟩
        · have hs := ins.holds.sorted
          have hs' := hi.holds.sorted
          rw [ins.same.keyCompare] at hs
          rw [hi.same.keyCompare, so.keyCompare] at hs'
          have hsame := inserted_unique (split.symm.trans hcut.eq) hs hs' (split ▸ new)
          refine ⟨h₁, t₁, h₂, t₂, q, true, _, erun.trans e₁, e₂, hi.holds.elements_eq hi.stays.ok, ?_⟩
          rw [← hsame]
          exact ins.holds.elements_eq ins.stays.ok
        · rw [so.keyCompare] at heq
          exact absurd heq (new e (by rw [hcut.eq]; simp))
  · rw [insertUniqueFirst, Option.map_eq_some_iff] at hfall
    obtain ⟨⟨h₁, t₁, q', b'⟩, e₁, he⟩ := hfall
    simp only [Prod.mk.injEq] at he
    obtain ⟨rfl, rfl, rfl⟩ := he
    have hel : ∃ s', elements h₁ t₁ = some s' := by
      cases ho with
      | present _ _ holds stays => exact ⟨_, holds.elements_eq stays.ok⟩
      | linked _ _ ins => exact ⟨_, ins.holds.elements_eq ins.stays.ok⟩
    obtain ⟨s', hs'⟩ := hel
    exact ⟨h₁, t₁, h₁, t₁, q', b', s', erun.trans e₁, e₂, hs', hs'⟩

/-- **A hint does not change what is inserted.**  In a valid tree with elements `s`, at every iterator,
`emplace_unique_hint` leaves the sequence that `emplace_unique` leaves and returns the same element, and
`emplace_equal_hint` leaves a sorted sequence of the old elements and the new one. -/
theorem emplaceHint_agrees (dbg : Bool) (hok : h.Ok) (hh : Holds key h t s F) (hp : IsPosition h t p) (v : V) :
    (∃ h₁ t₁ h₂ t₂ q b s', emplaceUnique key dbg h t v = some (h₁, t₁, q, b) ∧
      emplaceUniqueHint key dbg h t p v = some (h₂, t₂, q) ∧
      elements h₁ t₁ = some s' ∧ elements h₂ t₂ = some s') ∧
    ∃ h₁ t₁ a s₁ s₂, emplaceEqualHint key dbg h t p v = some (h₁, t₁, a) ∧ elements h t = some (s₁ ++ s₂) ∧
      elements h₁ t₁ = some (s₁ ++ (a, v) :: s₂) ∧
      Sorted t.keyCompare (fun e => key e.2) (s₁ ++ (a, v) :: s₂) ∧ a ∉ (s₁ ++ s₂).map Prod.fst := by
  obtain ⟨T, hT⟩ := hh.1
  have hpos := hT.position hok hp
  refine ⟨emplaceUniqueHint_agrees dbg hok hh hpos v, ?_⟩
  obtain ⟨h₁, t₁, a, s₁, s₂, F', e, rfl, hi⟩ := emplaceEqualHint_spec dbg hok hh hpos v
  have hs := hi.holds.sorted
  rw [hi.same.keyCompare] at hs
  refine ⟨h₁, t₁, a, s₁, s₂, e, hT.elements_eq hok, hi.holds.elements_eq hi.stays.ok, hs, fun hm => ?_⟩
  have hn := (List.nodup_cons.mp hi.holds.2.nodup).2
  rw [List.map_append, List.map_cons, List.nodup_middle, List.nodup_cons, ← List.map_append] at hn
  exact hn.1 hm

/-- The tree of the sample program, with the hint at its begin. -/
theorem emplaceHint_agrees_sample : ∃ (h : Heap ℕ) (t : RbTree ℕ) (p : ℕ), IsPosition h t p ∧
    (∃ h₁ t₁ h₂ t₂ q b s', emplaceUnique id true h t 4 = some (h₁, t₁, q, b) ∧
      emplaceUniqueHint id true h t p 4 = some (h₂, t₂, q) ∧
      elements h₁ t₁ = some s' ∧ elements h₂ t₂ = some s') ∧
    ∃ h₁ t₁ a s₁ s₂, emplaceEqualHint id true h t p 4 = some (h₁, t₁, a) ∧ elements h t = some (s₁ ++ s₂) ∧
      elements h₁ t₁ = some (s₁ ++ (a, 4) :: s₂) ∧
      Sorted t.keyCompare (fun e => id e.2) (s₁ ++ (a, 4) :: s₂) ∧ a ∉ (s₁ ++ s₂).map Prod.fst := by
  obtain ⟨w, ls, t, _, hr, hx, ht⟩ := sample_run
  obtain ⟨F, S, hl⟩ := run_layout hr
  have hh := (hl.alive 2 t hx).holds ht
  obtain ⟨T, hT⟩ := hh.1
  have hp : IsPosition w.heap t (firstOr t (S 2)) := ⟨_, hT.begin_eq, Reaches.refl _⟩
  exact ⟨w.heap, t, _, hp, emplaceHint_agrees true hl.ok hh hp 4⟩

end NeForce.Rb
