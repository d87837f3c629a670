import NeForce.RbSearch

/-! # Insertion

Each inserting function finds an empty place (`Hole`) between the elements it compares with and
hangs the node there: at the upper bound of its key (`insertEqual_spec`, `insertUnique_spec`), or,
with a hint, next to the position named if the order allows it
(`emplaceUniqueHint_spec`, `emplaceEqualHint_spec`). -/

namespace NeForce.Rb

open Ctx RbNode

variable {V K : Type} {key : V → K} {h : Heap V} {t : RbTree K} {s s₁ s₂ : List (ℕ × V)} {T : Tree ℕ}
  {F : List ℕ} {a : ℕ} {v : V} {ctx : Ctx ℕ}

/-- The sequence with the new element is sorted. -/
def SortedWith (key : V → K) (t : RbTree K) (s₁ s₂ : List (ℕ × V)) (a : ℕ) (v : V) : Prop :=
  Sorted t.keyCompare (fun e : ℕ × V => key e.2) (s₁ ++ (a, v) :: s₂)

theorem Hole.linkSide_spec {f : Frame ℕ} (hok : h.Ok) (hl : Loose key h t (s₁ ++ s₂) F a v)
    (hole : Hole h t (f :: ctx) s₁ s₂) (hs : SortedWith key t s₁ s₂ a v) :
    ∃ h' t', linkSide f.side h t f.addr a = some (h', t', a) ∧ Inserted key h h' t t' s₁ s₂ F F a v := by
  obtain ⟨n, hn, hv⟩ := hl.load
  obtain ⟨T, hT⟩ := hl.tree
  obtain ⟨h', T', e, hat, hb, hc, he, hw⟩ := linkSide_at hok hole.at_nil hT.ends hole.ctxRB hn hv hl.notMem
  exact ⟨h', _, e, hl.inserted _ hok hole.low hole.high hs hat hb hc he hw⟩

theorem Hole.linkRoot_spec (hok : h.Ok) (hl : Loose key h t (s₁ ++ s₂) F a v) (hole : Hole h t [] s₁ s₂)
    (hs : SortedWith key t s₁ s₂ a v) :
    ∃ h' t', linkRoot h t a = some (h', t', a) ∧ Inserted key h h' t t' s₁ s₂ F F a v := by
  obtain ⟨n, hn, hv⟩ := hl.load
  obtain ⟨T, hT⟩ := hl.tree
  have h1 : s₁ = [] := by simpa using hole.low
  have h2 : s₂ = [] := by simpa using hole.high
  subst h1 h2
  have hnew := hl.notMem
  simp only [List.append_nil, List.map_nil, List.mem_singleton] at hnew
  obtain ⟨h', T', e, hat, hb, hc, he, hw⟩ := linkRoot_at hok hole.at_nil hT.ends hn hv hnew
  exact ⟨h', _, e, hl.inserted [] hok rfl rfl hs hat hb hc he hw⟩

theorem Hole.addr_ne {f : Frame ℕ} (hole : Hole h t (f :: ctx) s₁ s₂) : f.addr ≠ t.header := by
  intro e
  have hn := (List.nodup_cons.mp hole.at_nil.nodup).1
  rw [← e, List.map_append, hole.low, hole.high, List.mem_append] at hn
  exact hn (mem_frame _ (Or.inl rfl))

/-- `insert_into` with no child named, where the comparison tells the side of the place. -/
theorem Hole.insertInto_spec (hok : h.Ok) (hl : Loose key h t (s₁ ++ s₂) F a v) (hole : Hole h t ctx s₁ s₂)
    (hs : SortedWith key t s₁ s₂ a v)
    (hp : ∀ f rest, ctx = f :: rest → testAt key h (t.keyCompare.lt (key v)) f.addr = (f.side == .left)) :
    ∃ h' t', insertInto key h t 0 (holder t.header ctx) a = some (h', t', a) ∧
      Inserted key h h' t t' s₁ s₂ F F a v := by
  cases ctx with
  | nil =>
      obtain ⟨h', t', e, hi⟩ := hole.linkRoot_spec hok hl hs
      exact ⟨h', t', by rw [insertInto, holder_nil, if_pos rfl, e], hi⟩
  | cons f ctx =>
      obtain ⟨h', t', e, hi⟩ := hole.linkSide_spec hok hl hs
      obtain ⟨w, hw⟩ := hole.at_nil.load_frame
      have hk : getKey key h f.addr = some (key w) := by
        rw [getKey, getData_eq hw, data_sided]
        rfl
      have hka : getKey key h a = some (key v) := by
        rw [getKey, hl.data]
        rfl
      have hside := hp f ctx rfl
      rw [testAt, hk] at hside
      refine ⟨h', t', ?_, hi⟩
      rw [insertInto, holder_cons, if_neg hole.addr_ne, if_neg (by simp), hka, hk]
      simp only [Option.bind_eq_bind, Option.bind_some]
      simp only [Option.map_some, Option.getD_some] at hside
      rw [hside]
      cases hf : f.side with
      | left =>
          rw [hf] at e
          exact e
      | right =>
          rw [hf] at e
          exact e

/-- `insert_into` with the child named, on the left of a node. -/
theorem Hole.insertChild_spec {f : Frame ℕ} {child : ℕ} (hok : h.Ok) (hl : Loose key h t (s₁ ++ s₂) F a v)
    (hole : Hole h t (f :: ctx) s₁ s₂) (hs : SortedWith key t s₁ s₂ a v) (hc : child ≠ 0) (hf : f.side = .left) :
    ∃ h' t', insertInto key h t child f.addr a = some (h', t', a) ∧
      Inserted key h h' t t' s₁ s₂ F F a v := by
  obtain ⟨h', t', e, hi⟩ := hole.linkSide_spec hok hl hs
  rw [hf] at e
  refine ⟨h', t', ?_, hi⟩
  rw [insertInto, if_neg hole.addr_ne, if_pos hc]
  exact e

/-! ### At the upper bound -/

theorem Loose.getKey_eq (hl : Loose key h t s F a v) : getKey key h a = some (key v) := by
  rw [getKey, hl.data]
  rfl

/-- The place where both searches for an insertion end. -/
theorem Loose.place (hok : h.Ok) (hl : Loose key h t s F a v) :
    ∃ ctx s₁ s₂ comp, Cut (above t.keyCompare (fun e : ℕ × V => key e.2) (key v)) s s₁ s₂ ∧
      Hole h t ctx s₁ s₂ ∧ Path (testAt key h (t.keyCompare.lt (key v))) ctx ∧
      (∃ root, getParent h t.header = some root ∧
        insertPlace key t.keyCompare (key v) h (walkBound h) root t.header true =
          some (holder t.header ctx, comp)) ∧
      (comp = true ↔ ∀ f rest, ctx = f :: rest → f.side = .left) := by
  obtain ⟨T, hT⟩ := hl.tree
  obtain ⟨s₁, s₂, hc, hole, hp⟩ := hT.place (hT.sorted.upward_above (key v))
  have hlen := hT.length_lt hok
  have hin := hT.length_inorder
  obtain ⟨comp, e, hcomp⟩ := insertPlace_eq key (o := t.keyCompare) (k := key v) (n := walkBound h)
    true hT.linked (by unfold walkBound; omega) (by simp)
  exact ⟨_, s₁, s₂, comp, hc, hole, hp, ⟨_, hT.linked.getParent_header, e⟩, hcomp⟩

theorem Loose.sortedWith_above (hl : Loose key h t s F a v)
    (hc : Cut (above t.keyCompare (fun e : ℕ × V => key e.2) (key v)) s s₁ s₂) : SortedWith key t s₁ s₂ a v := by
  obtain ⟨T, hT⟩ := hl.tree
  exact Sorted.insert_above (a := ((a, v) : ℕ × V)) hT.sorted hc

/-- **`insert_equal`** puts the node after all elements that are not greater. -/
theorem insertEqual_spec (hok : h.Ok) (hl : Loose key h t s F a v) :
    ∃ h' t' s₁ s₂, insertEqual key h t a = some (h', t', a) ∧
      Cut (above t.keyCompare (fun e : ℕ × V => key e.2) (key v)) s s₁ s₂ ∧
      Inserted key h h' t t' s₁ s₂ F F a v := by
  obtain ⟨ctx, s₁, s₂, comp, hc, hole, hp, ⟨root, hr, e⟩, _⟩ := hl.place hok
  have hfit := hl.sortedWith_above hc
  obtain rfl := hc.eq
  obtain ⟨h', t', e', hi⟩ := hole.insertInto_spec hok hl hfit fun f rest eg => hp f (by simp [eg])
  refine ⟨h', t', s₁, s₂, ?_, hc, hi⟩
  rw [insertEqual, hr, hl.getKey_eq]
  simp only [Option.bind_eq_bind, Option.bind_some, e, e']

/-- The node is given back. -/
theorem Loose.destroyNode_spec (hok : h.Ok) (hl : Loose key h t s F a v) :
    ∃ h' t', destroyNode h t a = some (h', t') ∧ Holds key h' t' s F ∧ Stays h h' F F ∧ SameObject t t' := by
  obtain ⟨n, hn, hv⟩ := hl.load
  obtain ⟨T, hT⟩ := hl.tree
  obtain ⟨free, chunks, hp, hd, rfl⟩ := hl.owns
  have hnew := hl.notMem
  obtain ⟨h', e, hp', hs, hf, _⟩ := destroyNode_pool hok hp hn (by rw [hv]; rfl)
  refine ⟨h', _, e, ⟨⟨T, hT.congr hs.ok.null (fun b hb => hf b ?_) ⟨rfl, rfl, rfl⟩ rfl⟩, _, _, hp', hd, rfl⟩,
    ⟨fun b hb hF => hs.frame b hb fun hm => hF (List.mem_cons_of_mem _ hm), fun b hb => Or.inl hb, hs.next, hs.ok⟩,
    ⟨rfl, rfl, rfl⟩⟩
  rintro rfl
  rw [List.mem_cons] at hnew
  exact hnew hb

/-- The element before the place, as `insert_unique` finds it. -/
theorem Hole.before_place {f : Frame ℕ} (dbg : Bool) (hok : h.Ok) (hT : TreeAt key h t (s₁ ++ s₂) T)
    (hole : Hole h t (f :: ctx) s₁ s₂) :
    (f.side = .right → s₁ ≠ [] ∧ f.addr = lastOr t s₁) ∧
      (f.side = .left → (f.addr = firstOr t (s₁ ++ s₂) ↔ s₁ = []) ∧
        (s₁ ≠ [] → iterDecrement dbg h t f.addr = some (lastOr t s₁))) := by
  have hlow := hole.low
  have hhigh := hole.high
  obtain ⟨sd, c, x, u⟩ := f
  constructor
  · rintro rfl
    rw [before_cons] at hlow
    simp only [Frame.before] at hlow
    refine ⟨?_, ?_⟩
    · rintro rfl
      simp at hlow
    · rw [lastOr, hlow, ← List.append_assoc, endD_right_append]
      rfl
  · rintro rfl
    rw [after_cons] at hhigh
    simp only [Frame.after, List.cons_append] at hhigh
    obtain ⟨e, s₂, rfl, hx, _⟩ := List.map_eq_cons_iff.mp hhigh
    subst hx
    refine ⟨⟨fun he => ?_, ?_⟩, fun hs => hT.iterDecrement_eq hok hs⟩
    · cases s₁ with
      | nil => rfl
      | cons e' s₁ =>
          have hn := (List.nodup_cons.mp hT.linked.nodup).2
          rw [List.cons_append, firstOr_cons] at he
          simp only at he
          simp [he] at hn
    · rintro rfl
      rfl

/-- **`insert_unique`** links the node unless an equivalent element is there, and then finds the last one. -/
theorem insertUnique_spec (dbg : Bool) (hok : h.Ok) (hl : Loose key h t s F a v) :
    (∃ h' t' s₁ s₂, insertUnique key dbg h t a = some (h', t', a, true) ∧
      Cut (above t.keyCompare (fun e : ℕ × V => key e.2) (key v)) s s₁ s₂ ∧
      Inserted key h h' t t' s₁ s₂ F F a v ∧ ∀ e ∈ s, ¬ t.keyCompare.Equiv (key e.2) (key v)) ∨
    (∃ h' t' s₁ e s₂, insertUnique key dbg h t a = some (h', t', e.1, false) ∧
      Cut (above t.keyCompare (fun e : ℕ × V => key e.2) (key v)) s (s₁ ++ [e]) s₂ ∧
      t.keyCompare.Equiv (key e.2) (key v) ∧ Holds key h' t' s F ∧ Stays h h' F F ∧ SameObject t t') := by
  obtain ⟨ctx, s₁, s₂, comp, hc, hole, hp, ⟨root, hr, e⟩, hcomp⟩ := hl.place hok
  have hfit := hl.sortedWith_above hc
  obtain ⟨T, hT⟩ := hl.tree
  obtain rfl := hc.eq
  obtain ⟨h', t', e', hi⟩ := hole.insertInto_spec hok hl hfit fun f rest eg => hp f (by simp [eg])
  have hrun : ∀ j, (comp = true → holder t.header ctx ≠ firstOr t (s₁ ++ s₂)) →
      (if comp then iterDecrement dbg h t (holder t.header ctx) else pure (holder t.header ctx)) = some j →
      insertUnique key dbg h t a = (getKey key h j).bind fun k' =>
        if t.keyCompare.lt k' (key v) then some (h', t', a, true)
        else (destroyNode h t a).bind fun r => some (r.1, r.2, j, false) := by
    intro j hne hj
    rw [insertUnique, hr, hl.getKey_eq]
    simp only [Option.bind_eq_bind, Option.bind_some, e, hT.begin_eq]
    rw [if_neg (fun h => hne h.1 h.2), hj]
    simp only [Option.bind_some, e']
    rfl
  have hgreater : ∀ e ∈ s₂, ¬ t.keyCompare.Equiv (key e.2) (key v) := by
    intro e he heq
    have := hc.high e he
    rw [above, heq.2] at this
    cases this
  by_cases hs : s₁ = []
  · subst hs
    left
    refine ⟨h', t', [], s₂, ?_, hc, hi, hgreater⟩
    have hfst : comp = true ∧ holder t.header ctx = firstOr t ([] ++ s₂) := by
      cases ctx with
      | nil =>
          refine ⟨hcomp.mpr (by simp), ?_⟩
          have h2 : s₂ = [] := by simpa using hole.high
          subst h2
          rfl
      | cons f ctx =>
          obtain ⟨hright, hleft⟩ := hole.before_place dbg hok hT
          cases hf : f.side with
          | left =>
              refine ⟨hcomp.mpr ?_, (hleft hf).1.mpr rfl⟩
              intro g rest eg
              obtain ⟨rfl, _⟩ := List.cons.inj eg
              exact hf
          | right => exact absurd rfl (hright hf).1
    rw [insertUnique, hr, hl.getKey_eq]
    simp only [Option.bind_eq_bind, Option.bind_some, e, hT.begin_eq]
    rw [if_pos hfst, e']
    rfl
  · obtain ⟨s₀, p, rfl⟩ : ∃ s₀ p, s₁ = s₀ ++ [p] := ⟨_, _, (List.dropLast_append_getLast hs).symm⟩
    have hj : (comp = true → holder t.header ctx ≠ firstOr t (s₀ ++ [p] ++ s₂)) ∧
        (if comp then iterDecrement dbg h t (holder t.header ctx) else pure (holder t.header ctx)) = some p.1 := by
      cases ctx with
      | nil =>
          have := hole.low
          simp at this
      | cons f ctx =>
          obtain ⟨hright, hleft⟩ := hole.before_place dbg hok hT
          cases hf : f.side with
          | left =>
              have hct : comp = true := hcomp.mpr fun g rest eg => by
                obtain ⟨rfl, _⟩ := List.cons.inj eg
                exact hf
              refine ⟨fun _ hb => hs ((hleft hf).1.mp hb), ?_⟩
              rw [if_pos hct, holder_cons, (hleft hf).2 hs, lastOr_append]
          | right =>
              have hcf : comp ≠ true := fun hct => by
                have := hcomp.mp hct f ctx rfl
                rw [hf] at this
                cases this
              refine ⟨fun h => absurd h hcf, ?_⟩
              rw [if_neg hcf, holder_cons, (hright hf).2, lastOr_append]
              rfl
    have hpm : p ∈ s₀ ++ [p] ++ s₂ := by simp
    have hrun' := hrun p.1 hj.1 hj.2
    rw [hT.getKey_eq hpm, Option.bind_some] at hrun'
    have hple : t.keyCompare.lt (key v) (key p.2) = false := hc.low p (by simp)
    by_cases hlt : t.keyCompare.lt (key p.2) (key v) = true
    · left
      refine ⟨h', t', s₀ ++ [p], s₂, by rw [hrun', if_pos hlt], hc, hi, fun e he heq => ?_⟩
      rcases List.mem_append.mp he with he1 | he2
      · have hsort := hT.sorted
        have hle : t.keyCompare.lt (key p.2) (key e.2) = false := by
          rcases List.mem_append.mp he1 with he0 | he0
          · exact (List.pairwise_append.mp (List.pairwise_append.mp hsort).1).2.2 e he0 p (by simp)
          · obtain rfl := List.mem_singleton.mp he0
            exact t.keyCompare.irrefl _
        have := StrictWeakOrder.lt_of_ge_of_lt hle hlt
        rw [heq.1] at this
        cases this
      · exact hgreater e he2 heq
    · right
      obtain ⟨h2, t2, e2, hh, hst, hso⟩ := hl.destroyNode_spec hok
      refine ⟨h2, t2, s₀, p, s₂, ?_, hc, ⟨by simpa using hlt, hple⟩, hh, hst, hso⟩
      rw [hrun', if_neg hlt, e2]
      rfl

/-! ### Emplacing -/

/-- What an insertion that keeps keys unique may do to the sequence `s`: link the new node, or find
an equivalent element and change nothing. -/
inductive UniqueOutcome (key : V → K) (h h' : Heap V) (t t' : RbTree K) (s : List (ℕ × V)) (F F' : List ℕ)
    (v : V) : ℕ → Bool → Prop
  | linked {s₁ s₂ : List (ℕ × V)} {a : ℕ} (split : s = s₁ ++ s₂)
      (new : ∀ e ∈ s, ¬ t.keyCompare.Equiv (key e.2) (key v)) (ins : Inserted key h h' t t' s₁ s₂ F F' a v) :
      UniqueOutcome key h h' t t' s F F' v a true
  | present {e : ℕ × V} (mem : e ∈ s) (equiv : t.keyCompare.Equiv (key e.2) (key v))
      (holds : Holds key h' t' s F') (stays : Stays h h' F F') (same : SameObject t t') :
      UniqueOutcome key h h' t t' s F F' v e.1 false

theorem UniqueOutcome.after {h₀ h' : Heap V} {t₀ t' : RbTree K} {F₀ F' : List ℕ} {p : ℕ} {b : Bool}
    (ho : UniqueOutcome key h h' t t' s F F' v p b) (hs : Stays h₀ h F₀ F) (so : SameObject t₀ t) :
    UniqueOutcome key h₀ h' t₀ t' s F₀ F' v p b := by
  cases ho with
  | linked split new ins =>
      rw [so.keyCompare] at new
      exact .linked split new (ins.after hs so)
  | present mem equiv holds stays same =>
      rw [so.keyCompare] at equiv
      exact .present mem equiv holds (hs.trans stays) (so.trans same)

theorem insertUnique_outcome (dbg : Bool) (hok : h.Ok) (hl : Loose key h t s F a v) :
    ∃ h' t' p b, insertUnique key dbg h t a = some (h', t', p, b) ∧
      UniqueOutcome key h h' t t' s F F v p b := by
  rcases insertUnique_spec dbg hok hl with ⟨h', t', s₁, s₂, e, hc, hi, hn⟩ | ⟨h', t', s₁, p, s₂, e, hc, he, hh, hs, so⟩
  · exact ⟨h', t', a, true, e, .linked hc.eq hn hi⟩
  · exact ⟨h', t', p.1, false, e, .present (by rw [hc.eq]; simp) he hh hs so⟩

theorem insertUniqueFirst_outcome (dbg : Bool) (hok : h.Ok) (hl : Loose key h t s F a v) :
    ∃ h' t' p b, insertUniqueFirst key dbg h t a = some (h', t', p) ∧
      UniqueOutcome key h h' t t' s F F v p b := by
  obtain ⟨h', t', p, b, e, ho⟩ := insertUnique_outcome dbg hok hl
  exact ⟨h', t', p, b, by rw [insertUniqueFirst, e]; rfl, ho⟩

/-- `emplace_unique` puts the value at its upper bound, or finds the last element with its key. -/
theorem emplaceUnique_place (dbg : Bool) (hok : h.Ok) (hh : Holds key h t s F) (v : V) :
    (∃ h' t' a s₁ s₂ F', emplaceUnique key dbg h t v = some (h', t', a, true) ∧
      Cut (above t.keyCompare (fun e : ℕ × V => key e.2) (key v)) s s₁ s₂ ∧
      Inserted key h h' t t' s₁ s₂ F F' a v ∧ ∀ e ∈ s, ¬ t.keyCompare.Equiv (key e.2) (key v)) ∨
    (∃ h' t' s₁ e s₂ F', emplaceUnique key dbg h t v = some (h', t', e.1, false) ∧
      Cut (above t.keyCompare (fun e : ℕ × V => key e.2) (key v)) s (s₁ ++ [e]) s₂ ∧
      t.keyCompare.Equiv (key e.2) (key v) ∧ Holds key h' t' s F' ∧ Stays h h' F F' ∧ SameObject t t') := by
  obtain ⟨h1, t1, a, F1, e1, hl, hs, so, _⟩ := createNode_holds hok hh v
  have hrun : emplaceUnique key dbg h t v = insertUnique key dbg h1 t1 a := by
    unfold emplaceUnique
    rw [e1]
    rfl
  rw [hrun]
  rcases insertUnique_spec dbg hs.ok hl with
    ⟨h', t', s₁, s₂, e, hc, hi, hn⟩ | ⟨h', t', s₁, b, s₂, e, hc, he, hh', hs', so'⟩
  · rw [so.keyCompare] at hc hn
    exact Or.inl ⟨h', t', a, s₁, s₂, F1, e, hc, hi.after hs so, hn⟩
  · rw [so.keyCompare] at hc he
    exact Or.inr ⟨h', t', s₁, b, s₂, F1, e, hc, he, hh', hs.trans hs', so.trans so'⟩

/-- **`emplace_unique`** -/
theorem emplaceUnique_spec (dbg : Bool) (hok : h.Ok) (hh : Holds key h t s F) (v : V) :
    ∃ h' t' p b F', emplaceUnique key dbg h t v = some (h', t', p, b) ∧
      UniqueOutcome key h h' t t' s F F' v p b := by
  rcases emplaceUnique_place dbg hok hh v with
    ⟨h', t', a, s₁, s₂, F', e, hc, hi, hn⟩ | ⟨h', t', s₁, b, s₂, F', e, hc, he, hh', hs, so⟩
  · exact ⟨h', t', a, true, F', e, .linked hc.eq hn hi⟩
  · exact ⟨h', t', b.1, false, F', e, .present (by rw [hc.eq]; simp) he hh' hs so⟩

/-- **`emplace_equal`** puts the value after all elements that are not greater. -/
theorem emplaceEqual_spec (hok : h.Ok) (hh : Holds key h t s F) (v : V) :
    ∃ h' t' a s₁ s₂ F', emplaceEqual key h t v = some (h', t', a) ∧
      Cut (above t.keyCompare (fun e : ℕ × V => key e.2) (key v)) s s₁ s₂ ∧
      Inserted key h h' t t' s₁ s₂ F F' a v := by
  obtain ⟨h1, t1, a, F1, e1, hl, hs, so, _⟩ := createNode_holds hok hh v
  obtain ⟨h', t', s₁, s₂, e, hc, hi⟩ := insertEqual_spec hs.ok hl
  rw [so.keyCompare] at hc
  refine ⟨h', t', a, s₁, s₂, F1, ?_, hc, hi.after hs so⟩
  rw [emplaceEqual, e1]
  exact e

/-! ### With a hint -/

/-- The empty place after the last element. -/
theorem TreeAt.hole_last {b : ℕ × V} (hT : TreeAt key h t (s₁ ++ [b]) T) :
    ∃ f ctx, f.side = .right ∧ f.addr = b.1 ∧ Hole h t (f :: ctx) (s₁ ++ [b]) [] := by
  obtain ⟨ctx, c, tl, tr, hplug, hat, e1, e2⟩ := hT.focus
  have htr : tr = .nil := by
    cases tr with
    | nil => rfl
    | node c' l a r => simp at e2
  subst htr
  rw [← List.append_nil (s₁ ++ [b])] at hT
  refine ⟨⟨.right, c, b.1, tl⟩, ctx, rfl, rfl, hT.hole hplug.symm ?_⟩
  have := congrArg List.length e1
  simp only [List.length_append, List.length_map, before_cons, Frame.before, List.length_singleton] at this ⊢
  omega

/-- The empty place before the first element. -/
theorem TreeAt.hole_first {b : ℕ × V} (hT : TreeAt key h t (b :: s₂) T) :
    ∃ f ctx, f.side = .left ∧ f.addr = b.1 ∧ Hole h t (f :: ctx) [] (b :: s₂) := by
  have hT' : TreeAt key h t ([] ++ b :: s₂) T := hT
  obtain ⟨ctx, c, tl, tr, hplug, hat, e1, e2⟩ := hT'.focus
  have htl : tl = .nil := by
    cases tl with
    | nil => rfl
    | node c' l a r => simp at e1
  subst htl
  rw [Tree.inorder_nil, List.append_nil] at e1
  refine ⟨⟨.left, c, b.1, tr⟩, ctx, rfl, rfl, hT'.hole hplug.symm ?_⟩
  simp [Frame.before, e1]

/-- Between two neighbours there is an empty place, below the first if that has no right child,
else below the second. -/
theorem TreeAt.hole_between {b p : ℕ × V} (hT : TreeAt key h t (s₁ ++ [b] ++ p :: s₂) T) :
    ∃ r l, getChild .right h b.1 = some r ∧ getChild .left h p.1 = some l ∧
      ((r = 0 ∧ ∃ f ctx, f.side = .right ∧ f.addr = b.1 ∧ Hole h t (f :: ctx) (s₁ ++ [b]) (p :: s₂)) ∨
        (r ≠ 0 ∧ l = 0 ∧ ∃ f ctx, f.side = .left ∧ f.addr = p.1 ∧ Hole h t (f :: ctx) (s₁ ++ [b]) (p :: s₂))) := by
  have hT' : TreeAt key h t (s₁ ++ b :: (p :: s₂)) T := by simpa using hT
  obtain ⟨ctx, c, tl, tr, hplug, hat, e1, e2⟩ := hT'.focus
  obtain ⟨ctx', c', tl', tr', _, hat', _, _⟩ := hT.focus
  have hr := hat.child_ptr .right (by simp)
  have hl := hat'.child_ptr .left (by simp)
  rw [ptr_node] at hr hl
  refine ⟨_, _, hr, hl, ?_⟩
  have hatr : At h t.header ((s₁ ++ b :: (p :: s₂)).map Prod.fst) (⟨.right, c, b.1, tl⟩ :: ctx) tr :=
    At.cons_iff.mpr hat
  have hlen := congrArg List.length e1
  by_cases htr : tr = .nil
  · subst htr
    refine Or.inl ⟨rfl, ⟨.right, c, b.1, tl⟩, ctx, rfl, rfl, hT.hole hplug.symm ?_⟩
    simp only [List.length_append, List.length_map, before_cons, Frame.before, List.length_singleton] at hlen ⊢
    omega
  · refine Or.inr ⟨hatr.ptr_ne_zero htr, ?_⟩
    obtain ⟨cy, cc, y, u, rfl, hcy⟩ := exists_end .left htr
    simp only [outer] at hcy
    have hy : y = p.1 := by
      rw [inorder_plug, hcy] at e2
      simp [Tree.mk] at e2
      exact e2.1
    subst hy
    have hatp : At h t.header ((s₁ ++ b :: (p :: s₂)).map Prod.fst) (cy ++ ⟨.right, c, b.1, tl⟩ :: ctx)
        (.mk .left cc .nil p.1 u) := (At.iff_plug _ _).mpr hatr
    have hl' := hatp.child_ptr .left (by simp)
    rw [ptr_mk, hl, Option.some.injEq] at hl'
    refine ⟨by rw [hl']; simp, ⟨.left, cc, p.1, u⟩, cy ++ ⟨.right, c, b.1, tl⟩ :: ctx, rfl, rfl, hT.hole ?_ ?_⟩
    · rw [hplug, plug_cons, plug_append]
      rfl
    · rw [before_cons, before_append, hcy]
      simp only [List.length_append, List.length_map, before_cons, Frame.before, List.length_singleton,
        List.length_nil] at hlen ⊢
      omega

theorem TreeAt.size_ne_zero (hT : TreeAt key h t s T) : t.size ≠ 0 ↔ s ≠ [] := by
  rw [hT.size]
  simp

theorem TreeAt.rightmost_eq (hT : TreeAt key h t s T) : getChild .right h t.header = some (lastOr t s) := by
  obtain ⟨n, hn, _, he⟩ := hT.ends
  rw [getChild_eq _ hn, he]
  rfl

/-- Next to neighbours that allow it a new element fits. -/
theorem Loose.sortedWith (hl : Loose key h t (s₁ ++ s₂) F a v)
    (h₁ : ∀ e ∈ s₁, t.keyCompare.lt (key v) (key e.2) = false)
    (h₂ : ∀ e ∈ s₂, t.keyCompare.lt (key e.2) (key v) = false) : SortedWith key t s₁ s₂ a v := by
  obtain ⟨T, hT⟩ := hl.tree
  exact Sorted.insert (a := ((a, v) : ℕ × V)) hT.sorted h₁ h₂

/-- A hint names an element or the end. -/
def Position (t : RbTree K) (s : List (ℕ × V)) (p : ℕ) : Prop := p = t.header ∨ p ∈ s.map Prod.fst

theorem Position.cases {p : ℕ} (hp : Position t s p) (hh : p ≠ t.header) :
    ∃ s₁ e s₂, s = s₁ ++ e :: s₂ ∧ e.1 = p := by
  rcases hp with hp | hp
  · exact absurd hp hh
  · obtain ⟨e, he, rfl⟩ := List.mem_map.mp hp
    obtain ⟨s₁, s₂, rfl⟩ := List.append_of_mem he
    exact ⟨s₁, e, s₂, rfl, rfl⟩

/-- **`emplace_unique_hint`** at any position does what `emplace_unique` does. -/
theorem emplaceUniqueHint_spec (dbg : Bool) (hok : h.Ok) (hh : Holds key h t s F) {p : ℕ}
    (hp : Position t s p) (v : V) :
    ∃ h' t' q b F', emplaceUniqueHint key dbg h t p v = some (h', t', q) ∧
      UniqueOutcome key h h' t t' s F F' v q b := by
  obtain ⟨h1, t1, a, F1, e1, hl, hs, so, _⟩ := createNode_holds hok hh v
  have hfall : ∃ h' t' q b F', insertUniqueFirst key dbg h1 t1 a = some (h', t', q) ∧
      UniqueOutcome key h h' t t' s F F' v q b := by
    obtain ⟨h', t', q, b, e, ho⟩ := insertUniqueFirst_outcome dbg hs.ok hl
    exact ⟨h', t', q, b, F1, e, ho.after hs so⟩
  have hdone : ∀ {s₁ s₂ : List (ℕ × V)} {h' : Heap V} {t' : RbTree K}, s = s₁ ++ s₂ →
      (∀ e ∈ s, ¬ t1.keyCompare.Equiv (key e.2) (key v)) → Inserted key h1 h' t1 t' s₁ s₂ F1 F1 a v →
      UniqueOutcome key h h' t t' s F F1 v a true := by
    intro s₁ s₂ h' t' hsplit hn hi
    exact (UniqueOutcome.linked hsplit hn hi).after hs so
  obtain ⟨T, hT⟩ := hl.tree
  have hka := hl.getKey_eq
  rw [emplaceUniqueHint, e1]
  simp only [Option.bind_eq_bind, Option.bind_some, hka]
  by_cases hph : p = t1.header
  · rw [if_pos hph]
    by_cases hsz : t1.size ≠ 0
    · rw [if_pos hsz]
      have hne := hT.size_ne_zero.mp hsz
      obtain ⟨s₀, b, rfl⟩ : ∃ s₀ b, s = s₀ ++ [b] := ⟨_, _, (List.dropLast_append_getLast hne).symm⟩
      rw [hT.rightmost_eq, Option.bind_some, lastOr_append, hT.getKey_eq (by simp), Option.bind_some]
      split_ifs with hlt
      · have hge := Sorted.le_last hT.sorted
        have hbig : ∀ e ∈ s₀ ++ [b], t1.keyCompare.lt (key e.2) (key v) = true :=
          fun e he => StrictWeakOrder.lt_of_ge_of_lt (hge e he) hlt
        obtain ⟨f, ctx, hf, ha, hole⟩ := hT.hole_last
        rw [← List.append_nil (s₀ ++ [b])] at hl
        obtain ⟨h', t', e, hi⟩ := hole.linkSide_spec hs.ok hl
          (hl.sortedWith (fun e he => StrictWeakOrder.asymm (hbig e he)) (by simp))
        rw [hf, ha] at e
        refine ⟨h', t', a, true, F1, e, hdone (by simp) (fun e he heq => ?_) hi⟩
        have := hbig e he
        rw [heq.1] at this
        cases this
      · exact hfall
    · rw [if_neg hsz]
      exact hfall
  · rw [if_neg hph, hT.begin_eq, Option.bind_some]
    obtain ⟨s₁, e, s₂, rfl, rfl⟩ := hp.cases (by rwa [← so.header])
    have hsz : t1.size ≠ 0 := hT.size_ne_zero.mpr (by simp)
    by_cases hpb : e.1 = firstOr t1 (s₁ ++ e :: s₂)
    · have hs1 : s₁ = [] := by
        cases s₁ with
        | nil => rfl
        | cons e' s₁ =>
            have hn := (List.nodup_cons.mp hT.linked.nodup).2
            rw [List.cons_append, firstOr_cons] at hpb
            simp [hpb] at hn
      subst hs1
      rw [if_pos hpb, if_pos hsz, hT.getKey_eq (by simp), Option.bind_some]
      split_ifs with hlt
      · have hle := Sorted.first_le hT.sorted
        have hbig : ∀ e' ∈ e :: s₂, t1.keyCompare.lt (key v) (key e'.2) = true :=
          fun e' he' => StrictWeakOrder.lt_of_lt_of_ge hlt (hle e' he')
        obtain ⟨f, ctx, hf, ha, hole⟩ := TreeAt.hole_first hT
        obtain ⟨h', t', e', hi⟩ := hole.linkSide_spec hs.ok hl
          (hl.sortedWith (by simp) fun e' he' => StrictWeakOrder.asymm (hbig e' he'))
        rw [hf, ha] at e'
        refine ⟨h', t', a, true, F1, e', hdone (List.nil_append _).symm (fun e'' he'' heq => ?_) hi⟩
        have := hbig e'' he''
        rw [heq.2] at this
        cases this
      · exact hfall
    · have hs1 : s₁ ≠ [] := by
        rintro rfl
        exact hpb rfl
      obtain ⟨s₀, b, rfl⟩ : ∃ s₀ b, s₁ = s₀ ++ [b] := ⟨_, _, (List.dropLast_append_getLast hs1).symm⟩
      rw [if_neg hpb, hT.iterDecrement_eq hs.ok hs1, Option.bind_some, lastOr_append, hT.getKey_eq (by simp),
        Option.bind_some, hT.getKey_eq (by simp), Option.bind_some]
      split_ifs with hlt
      · obtain ⟨r, l, hr, hl', hcase⟩ := hT.hole_between
        have hsort := hT.sorted
        obtain ⟨hsort1, hsort2, _⟩ := List.pairwise_append.mp hsort
        have hlow : ∀ e' ∈ s₀ ++ [b], t1.keyCompare.lt (key e'.2) (key v) = true :=
          fun e' he' => StrictWeakOrder.lt_of_ge_of_lt (Sorted.le_last hsort1 e' he') hlt.1
        have hhigh : ∀ e' ∈ e :: s₂, t1.keyCompare.lt (key v) (key e'.2) = true :=
          fun e' he' => StrictWeakOrder.lt_of_lt_of_ge hlt.2 (Sorted.first_le hsort2 e' he')
        have hfit := hl.sortedWith (fun e' he' => StrictWeakOrder.asymm (hlow e' he'))
          fun e' he' => StrictWeakOrder.asymm (hhigh e' he')
        have hnew : ∀ e' ∈ s₀ ++ [b] ++ e :: s₂, ¬ t1.keyCompare.Equiv (key e'.2) (key v) := by
          intro e' he' heq
          rcases List.mem_append.mp he' with he' | he'
          · have := hlow e' he'
            rw [heq.1] at this
            cases this
          · have := hhigh e' he'
            rw [heq.2] at this
            cases this
        rw [hr, Option.bind_some]
        rcases hcase with ⟨rfl, f, ctx, hf, ha, hole⟩ | ⟨hr0, rfl, f, ctx, hf, ha, hole⟩
        · obtain ⟨h', t', e', hi⟩ := hole.insertInto_spec hs.ok hl hfit fun g rest eg => by
            obtain ⟨rfl, _⟩ := List.cons.inj eg
            rw [ha, testAt, hT.getKey_eq (by simp), hf]
            exact StrictWeakOrder.asymm hlt.1
          rw [holder_cons, ha] at e'
          exact ⟨h', t', a, true, F1, by rw [if_pos rfl, e'], hdone rfl hnew hi⟩
        · have hp0 : e.1 ≠ 0 := by
            obtain ⟨n, hn, _⟩ := hT.linked.load_isSome e.1 (by simp)
            exact hs.ok.ne_zero hn
          obtain ⟨h', t', e', hi⟩ := hole.insertChild_spec hs.ok hl hfit hp0 hf
          rw [ha] at e'
          refine ⟨h', t', a, true, F1, ?_, hdone rfl hnew hi⟩
          rw [if_neg hr0, hl', Option.bind_some, if_pos rfl, e']
      · exact hfall

/-- **`emplace_equal_hint`** at any position inserts the value where the order allows it. -/
theorem emplaceEqualHint_spec (dbg : Bool) (hok : h.Ok) (hh : Holds key h t s F) {p : ℕ}
    (hp : Position t s p) (v : V) :
    ∃ h' t' a s₁ s₂ F', emplaceEqualHint key dbg h t p v = some (h', t', a) ∧ s = s₁ ++ s₂ ∧
      Inserted key h h' t t' s₁ s₂ F F' a v := by
  obtain ⟨h1, t1, a, F1, e1, hl, hs, so, _⟩ := createNode_holds hok hh v
  have hfall : ∃ h' t' q s₁ s₂ F', insertEqual key h1 t1 a = some (h', t', q) ∧ s = s₁ ++ s₂ ∧
      Inserted key h h' t t' s₁ s₂ F F' q v := by
    obtain ⟨h', t', s₁, s₂, e, hc, hi⟩ := insertEqual_spec hs.ok hl
    exact ⟨h', t', a, s₁, s₂, F1, e, hc.eq, hi.after hs so⟩
  obtain ⟨T, hT⟩ := hl.tree
  have hka := hl.getKey_eq
  have hne0 : ∀ e ∈ s, e.1 ≠ 0 := by
    intro e he
    obtain ⟨n, hn, _⟩ := hT.linked.load_isSome e.1 (List.mem_map_of_mem he)
    exact hs.ok.ne_zero hn
  rw [emplaceEqualHint, e1]
  simp only [Option.bind_eq_bind, Option.bind_some, hka, hT.begin_eq]
  by_cases hpb : p = firstOr t1 s
  · rw [if_pos hpb]
    by_cases hsz : 0 < t1.size
    · rw [if_pos hsz]
      have hne := hT.size_ne_zero.mp (by omega)
      obtain ⟨b, s₂, rfl⟩ := List.exists_cons_of_ne_nil hne
      rw [firstOr_cons] at hpb
      rw [hpb, hT.getKey_eq (by simp), Option.bind_some]
      split_ifs with hlt
      · have hle := Sorted.first_le hT.sorted
        obtain ⟨f, ctx, hf, ha, hole⟩ := TreeAt.hole_first hT
        obtain ⟨h', t', e', hi⟩ := hole.insertChild_spec hs.ok hl (hl.sortedWith (by simp) fun e' he' =>
          StrictWeakOrder.asymm (StrictWeakOrder.lt_of_lt_of_ge hlt (hle e' he'))) (hne0 b (by simp)) hf
        rw [ha] at e'
        exact ⟨h', t', a, [], b :: s₂, F1, e', rfl, hi.after hs so⟩
      · exact hfall
    · rw [if_neg hsz]
      exact hfall
  · rw [if_neg hpb]
    by_cases hph : p = t1.header
    · rw [if_pos hph]
      have hne : s ≠ [] := by
        rintro rfl
        exact hpb hph
      obtain ⟨s₀, b, rfl⟩ : ∃ s₀ b, s = s₀ ++ [b] := ⟨_, _, (List.dropLast_append_getLast hne).symm⟩
      rw [hT.rightmost_eq, Option.bind_some, lastOr_append, hT.getKey_eq (by simp), Option.bind_some]
      split_ifs with hlt
      · have hlt' : t1.keyCompare.lt (key v) (key b.2) = false := by simpa using hlt
        have hge := Sorted.le_last hT.sorted
        obtain ⟨f, ctx, hf, ha, hole⟩ := hT.hole_last
        rw [← List.append_nil (s₀ ++ [b])] at hl
        obtain ⟨h', t', e', hi⟩ := hole.insertInto_spec hs.ok hl
          (hl.sortedWith (fun e he => StrictWeakOrder.ge_trans (hge e he) hlt') (by simp)) fun g rest eg => by
            obtain ⟨rfl, _⟩ := List.cons.inj eg
            rw [ha, testAt, hT.getKey_eq (by simp), hf]
            exact hlt'
        rw [holder_cons, ha] at e'
        exact ⟨h', t', a, s₀ ++ [b], [], F1, e', by simp, hi.after hs so⟩
      · exact hfall
    · obtain ⟨s₁, e, s₂, rfl, rfl⟩ := hp.cases (by rwa [← so.header])
      have hs1 : s₁ ≠ [] := by
        rintro rfl
        exact hpb rfl
      obtain ⟨s₀, b, rfl⟩ : ∃ s₀ b, s₁ = s₀ ++ [b] := ⟨_, _, (List.dropLast_append_getLast hs1).symm⟩
      rw [if_neg hph, hT.iterDecrement_eq hs.ok hs1, Option.bind_some, lastOr_append, hT.getKey_eq (by simp),
        Option.bind_some, hT.getKey_eq (by simp), Option.bind_some]
      split_ifs with hlt
      · obtain ⟨hlt1, hlt2⟩ := hlt
        have hlt1' : t1.keyCompare.lt (key v) (key b.2) = false := by simpa using hlt1
        have hlt2' : t1.keyCompare.lt (key e.2) (key v) = false := by simpa using hlt2
        obtain ⟨r, l, hr, hl', hcase⟩ := hT.hole_between
        obtain ⟨hsort1, hsort2, _⟩ := List.pairwise_append.mp hT.sorted
        have hfit := hl.sortedWith
          (fun e' he' => StrictWeakOrder.ge_trans (Sorted.le_last hsort1 e' he') hlt1')
          fun e' he' => StrictWeakOrder.ge_trans hlt2' (Sorted.first_le hsort2 e' he')
        rw [hr, Option.bind_some]
        rcases hcase with ⟨rfl, f, ctx, hf, ha, hole⟩ | ⟨hr0, rfl, f, ctx, hf, ha, hole⟩
        · obtain ⟨h', t', e', hi⟩ := hole.insertInto_spec hs.ok hl hfit fun g rest eg => by
            obtain ⟨rfl, _⟩ := List.cons.inj eg
            rw [ha, testAt, hT.getKey_eq (by simp), hf]
            exact hlt1'
          rw [holder_cons, ha] at e'
          exact ⟨h', t', a, s₀ ++ [b], e :: s₂, F1, by rw [if_pos rfl, e'], rfl, hi.after hs so⟩
        · obtain ⟨h', t', e', hi⟩ := hole.insertChild_spec hs.ok hl hfit (hne0 e (by simp)) hf
          rw [ha] at e'
          exact ⟨h', t', a, s₀ ++ [b], e :: s₂, F1, by rw [if_neg hr0, e'], rfl, hi.after hs so⟩
      · exact hfall

end NeForce.Rb
