import NeForce.RbCopy

/-! # One operation on a tree

`TreeOp` lists the operations on the elements of a tree, `TreeOp.Valid` says which positions they
may be given: what is reached from `begin()` by incrementing.  `elements` reads the sequence of
nodes and values off the memory, in order.

`SeqStep` is what the component is for: the effect of each operation on a sorted sequence, and its
answer.  A valid operation always succeeds, debug checks included, and does what `SeqStep` says
(`TreeOp.exec_spec`); the lookups agree with the sequence as well (`lookups`). -/

namespace NeForce.Rb

open Ctx RbNode

variable {V K : Type}

inductive TreeOp (V K : Type) where
  | emplaceUnique (v : V)
  | emplaceEqual (v : V)
  | emplaceUniqueHint (position : ℕ) (v : V)
  | emplaceEqualHint (position : ℕ) (v : V)
  | eraseAt (position : ℕ)
  | eraseRange (first last : ℕ)
  | eraseKey (k : K)
  | clear

/-- What an operation returns: nothing, an iterator, an iterator and a flag, or a number. -/
inductive Answer where
  | unit
  | pos (p : ℕ)
  | inserted (p : ℕ) (b : Bool)
  | erased (n : ℕ)
deriving DecidableEq

/-- Run an operation on a tree. -/
def TreeOp.exec (key : V → K) (dbg : Bool) (h : Heap V) (t : RbTree K) :
    TreeOp V K → Option (Heap V × RbTree K × Answer)
  | .emplaceUnique v => (Rb.emplaceUnique key dbg h t v).map fun r => (r.1, r.2.1, .inserted r.2.2.1 r.2.2.2)
  | .emplaceEqual v => (Rb.emplaceEqual key h t v).map fun r => (r.1, r.2.1, .pos r.2.2)
  | .emplaceUniqueHint p v => (Rb.emplaceUniqueHint key dbg h t p v).map fun r => (r.1, r.2.1, .pos r.2.2)
  | .emplaceEqualHint p v => (Rb.emplaceEqualHint key dbg h t p v).map fun r => (r.1, r.2.1, .pos r.2.2)
  | .eraseAt p => (Rb.eraseAt dbg h t p).map fun r => (r.1, r.2, .unit)
  | .eraseRange p q => (Rb.eraseRange dbg h t p q).map fun r => (r.1, r.2, .unit)
  | .eraseKey k => (Rb.eraseKey key dbg h t k).map fun r => (r.1, r.2.1, .erased r.2.2)
  | .clear => (Rb.clear h t).map fun r => (r.1, r.2, .unit)

/-- `q` is reached from `p` by incrementing, without passing the end. -/
inductive Reaches (h : Heap V) (t : RbTree K) : ℕ → ℕ → Prop
  | refl (p : ℕ) : Reaches h t p p
  | next {p p' q : ℕ} : p ≠ t.header → increment h p = some p' → Reaches h t p' q → Reaches h t p q

/-- The iterators of a tree. -/
def IsPosition (h : Heap V) (t : RbTree K) (p : ℕ) : Prop :=
  ∃ b, begin h t = some b ∧ Reaches h t b p

/-- The positions an operation is given are iterators of the tree, and dereferenceable where an
element is to be removed. -/
def TreeOp.Valid (h : Heap V) (t : RbTree K) : TreeOp V K → Prop
  | .emplaceUniqueHint p _ | .emplaceEqualHint p _ => IsPosition h t p
  | .eraseAt p => IsPosition h t p ∧ p ≠ t.header
  | .eraseRange p q => IsPosition h t p ∧ Reaches h t p q
  | _ => True

/-! ### The sequence in memory -/

/-- The nodes and values below `p`, in order. -/
def inorderFrom (h : Heap V) : ℕ → ℕ → Option (List (ℕ × V))
  | 0, _ => none
  | k + 1, p =>
      if p = 0 then some []
      else do
        let l ← getChild .left h p
        let r ← getChild .right h p
        let v ← getData h p
        let s₁ ← inorderFrom h k l
        let s₂ ← inorderFrom h k r
        pure (s₁ ++ (p, v) :: s₂)

/-- The elements of a tree, in order. -/
def elements (h : Heap V) (t : RbTree K) : Option (List (ℕ × V)) := do
  let root ← getParent h t.header
  inorderFrom h (walkBound h) root

section

variable {key : V → K} {h h' : Heap V} {t t' : RbTree K} {s s₁ s₂ m : List (ℕ × V)} {T : Tree ℕ} {F : List ℕ}
  {k : K}

theorem inorderFrom_eq {p n : ℕ} (hok : h.Ok) (hT : Linked h p T) (hs : T.inorder = s.map Prod.fst)
    (hd : ∀ e ∈ s, getData h e.1 = some e.2) (hn : T.inorder.length < n) :
    inorderFrom h n (ptr T) = some s := by
  induction T generalizing p n s with
  | nil =>
      obtain ⟨n, rfl⟩ : ∃ j, n = j + 1 := ⟨n - 1, by simp at hn; omega⟩
      obtain rfl : s = [] := by simpa using hs.symm
      simp [inorderFrom]
  | node c l a r ihl ihr =>
      obtain ⟨n, rfl⟩ : ∃ j, n = j + 1 := ⟨n - 1, by omega⟩
      obtain ⟨⟨v, hv⟩, hl, hr⟩ := hT
      rw [Tree.inorder_node] at hs hn
      obtain ⟨s₁, s', rfl, h1, h2⟩ := List.map_eq_append_iff.mp hs.symm
      obtain ⟨e, s₂, rfl, h3, h4⟩ := List.map_eq_cons_iff.mp h2
      simp only [List.length_append, List.length_cons] at hn
      have he := hd e (by simp)
      rw [h3] at he
      rw [inorderFrom, ptr_node, if_neg (hok.ne_zero hv), getChild_eq _ hv, getChild_eq _ hv]
      simp only [Option.bind_eq_bind, Option.bind_some, child, he]
      rw [ihl hl h1.symm (fun e he => hd e (by simp [he])) (by omega),
        ihr hr h4.symm (fun e he => hd e (by simp [he])) (by omega)]
      simp [← h3]

theorem TreeAt.elements_eq (hT : TreeAt key h t s T) (hok : h.Ok) : elements h t = some s := by
  have e := hT.linked.labels
  have h1 := hT.length_inorder
  have h2 := hT.length_lt hok
  rw [plug_nil] at e
  rw [elements, hT.linked.getParent_header, plug_nil]
  exact inorderFrom_eq hok hT.linked.tree e hT.data (by unfold walkBound; omega)

/-! ### Positions -/

theorem TreeAt.reaches {p q : ℕ} (hT : TreeAt key h t (s₁ ++ s₂) T) (hok : h.Ok) (hr : Reaches h t p q)
    (hp : p = firstOr t s₂) : ∃ m s₃, s₂ = m ++ s₃ ∧ q = firstOr t s₃ := by
  induction hr generalizing s₁ s₂ with
  | refl p => exact ⟨[], s₂, rfl, hp⟩
  | next hne hi _ ih =>
      subst hp
      cases s₂ with
      | nil => exact absurd rfl hne
      | cons e s₂ =>
          rw [firstOr_cons, hT.increment_eq hok, Option.some.injEq] at hi
          have hT' : TreeAt key h t ((s₁ ++ [e]) ++ s₂) T := by simpa using hT
          obtain ⟨m, s₃, rfl, hq⟩ := ih hT' hi.symm
          exact ⟨e :: m, s₃, rfl, hq⟩

theorem TreeAt.isPosition {p : ℕ} (hT : TreeAt key h t s T) (hok : h.Ok) (hp : IsPosition h t p) :
    ∃ s₁ s₂, s = s₁ ++ s₂ ∧ p = firstOr t s₂ := by
  obtain ⟨b, hb, hr⟩ := hp
  rw [hT.begin_eq, Option.some.injEq] at hb
  have hT' : TreeAt key h t ([] ++ s) T := hT
  exact hT'.reaches hok hr hb.symm

theorem TreeAt.position {p : ℕ} (hT : TreeAt key h t s T) (hok : h.Ok) (hp : IsPosition h t p) :
    Position t s p := by
  obtain ⟨s₁, s₂, rfl, rfl⟩ := hT.isPosition hok hp
  cases s₂ with
  | nil => exact Or.inl rfl
  | cons e s₂ => exact Or.inr (by simp [firstOr_cons])

end

/-! ### What an operation does to a sorted sequence -/

/-- The first node of a sequence, or the end. -/
def headOr (last : ℕ) (s : List (ℕ × V)) : ℕ := (s.map Prod.fst).headD last

/-- One new node `a` with the value `v` somewhere in the sequence. -/
def Adds (s s' : List (ℕ × V)) (a : ℕ) (v : V) : Prop :=
  a ∉ s.map Prod.fst ∧ ∃ s₁ s₂, s = s₁ ++ s₂ ∧ s' = s₁ ++ (a, v) :: s₂

section

variable (o : StrictWeakOrder K) (key : V → K)

/-- Whether an element is equivalent to `k`. -/
def equivTo (k : K) (e : ℕ × V) : Bool := decide (o.Equiv (key e.2) k)

/-- A value that is equivalent to an element is not inserted. -/
def UniqueStep (s s' : List (ℕ × V)) (v : V) (p : ℕ) (b : Bool) : Prop :=
  if b then (∀ e ∈ s, equivTo o key (key v) e = false) ∧ Adds s s' p v
  else s' = s ∧ ∃ e ∈ s, equivTo o key (key v) e = true ∧ e.1 = p

/-- The effect of an operation on the sequence `s` and its answer; `last` is the end iterator. -/
def SeqStep (last : ℕ) (s : List (ℕ × V)) : TreeOp V K → List (ℕ × V) → Answer → Prop
  | .emplaceUnique v, s', ans => ∃ p b, UniqueStep o key s s' v p b ∧ ans = .inserted p b
  | .emplaceUniqueHint _ v, s', ans => ∃ p b, UniqueStep o key s s' v p b ∧ ans = .pos p
  | .emplaceEqual v, s', ans =>
      ∃ a s₁ s₂, Cut (above o (fun e : ℕ × V => key e.2) (key v)) s s₁ s₂ ∧ s' = s₁ ++ (a, v) :: s₂ ∧
        a ∉ s.map Prod.fst ∧ ans = .pos a
  | .emplaceEqualHint _ v, s', ans => ∃ a, Adds s s' a v ∧ ans = .pos a
  | .eraseAt p, s', ans =>
      ∃ s₁ e s₂, s = s₁ ++ e :: s₂ ∧ e.1 = p ∧ s' = s₁ ++ s₂ ∧ ans = .unit
  | .eraseRange p q, s', ans =>
      ∃ s₁ m s₂, s = s₁ ++ (m ++ s₂) ∧ p = headOr last (m ++ s₂) ∧ q = headOr last s₂ ∧ s' = s₁ ++ s₂ ∧ ans = .unit
  | .eraseKey k, s', ans => s' = s.filter (!equivTo o key k ·) ∧ ans = .erased (s.countP (equivTo o key k))
  | .clear, s', ans => s' = [] ∧ ans = .unit

/-- The lookups and the iterators read the sequence `s`. -/
structure Lookups (dbg : Bool) (h : Heap V) (t : RbTree K) (s : List (ℕ × V)) : Prop where
  find k : find key h t k = some (headOr t.header (s.filter (equivTo o key k)))
  contains k : contains key h t k = some (s.any (equivTo o key k))
  count k : count key h t k = some (s.countP (equivTo o key k))
  lowerBound k : lowerBound key h t k = some (headOr t.header (s.filter (notBelow o (fun e : ℕ × V => key e.2) k)))
  upperBound k : upperBound key h t k = some (headOr t.header (s.filter (above o (fun e : ℕ × V => key e.2) k)))
  equalRange k : equalRange key h t k = some (headOr t.header (s.filter (notBelow o (fun e : ℕ × V => key e.2) k)),
    headOr t.header (s.filter (above o (fun e : ℕ × V => key e.2) k)))
  begin : begin h t = some (headOr t.header s)
  increment {s₁ e s₂} : s = s₁ ++ e :: s₂ → iterIncrement dbg h t e.1 = some (headOr t.header s₂)
  decrement {s₁ b e s₂} : s = s₁ ++ b :: e :: s₂ → iterDecrement dbg h t e.1 = some b.1
  decrementEnd {s₁ b} : s = s₁ ++ [b] → iterDecrement dbg h t t.header = some b.1

end

section

variable {key : V → K} {h h' : Heap V} {t t' : RbTree K} {s s₁ s₂ m : List (ℕ × V)} {T : Tree ℕ} {F F' : List ℕ}
  {k : K} {a : ℕ} {v : V}

/-- The middle part of a sequence between the bounds. -/
theorem filter_middle {p : ℕ × V → Bool} (hm : ∀ e ∈ m, p e = true) (hn : ∀ e ∈ s₁ ++ s₂, p e = false) :
    (s₁ ++ m ++ s₂).filter p = m ∧ (s₁ ++ m ++ s₂).filter (!p ·) = s₁ ++ s₂ ∧
      (s₁ ++ m ++ s₂).countP p = m.length ∧ (s₁ ++ m ++ s₂).any p = !m.isEmpty := by
  have h1 : s₁.filter p = [] := List.filter_eq_nil_iff.mpr fun a ha => by simp [hn a (by simp [ha])]
  have h2 : s₂.filter p = [] := List.filter_eq_nil_iff.mpr fun a ha => by simp [hn a (by simp [ha])]
  have hf : (s₁ ++ m ++ s₂).filter p = m := by
    rw [List.filter_append, List.filter_append, h1, h2, List.filter_eq_self.mpr hm, List.nil_append, List.append_nil]
  refine ⟨hf, ?_, by rw [List.countP_eq_length_filter, hf], ?_⟩
  · rw [List.filter_append, List.filter_append, List.filter_eq_self.mpr fun a ha => by simp [hn a (by simp [ha])],
      List.filter_eq_nil_iff.mpr fun a ha => by simp [hm a ha],
      List.filter_eq_self.mpr fun a ha => by simp [hn a (by simp [ha])], List.append_nil]
  · rw [Bool.eq_iff_iff, List.any_eq_true]
    constructor
    · rintro ⟨e, he, hp⟩
      have : e ∈ m := by
        rw [← hf]
        exact List.mem_filter.mpr ⟨he, hp⟩
      cases m with
      | nil => cases this
      | cons b m => rfl
    · intro hne
      cases m with
      | nil => cases hne
      | cons b m => exact ⟨b, by simp, hm b (by simp)⟩

/-- **The lookups agree with the sequence.** -/
theorem TreeAt.lookups (dbg : Bool) (hT : TreeAt key h t s T) (hok : h.Ok) :
    Lookups t.keyCompare key dbg h t s := by
  have hl : ∀ k, lowerBound key h t k = some (headOr t.header (s.filter (notBelow t.keyCompare (fun e : ℕ × V => key e.2) k))) := fun k => by
    have hc := cut_of_upward (hT.sorted.upward_notBelow k)
    rw [hT.lowerBound_eq hok hc, ← hc.filter_eq]
    rfl
  have hu : ∀ k, upperBound key h t k = some (headOr t.header (s.filter (above t.keyCompare (fun e : ℕ × V => key e.2) k))) := fun k => by
    have hc := cut_of_upward (hT.sorted.upward_above k)
    rw [hT.upperBound_eq hok hc, ← hc.filter_eq]
    rfl
  refine ⟨fun k => ?_, fun k => ?_, fun k => ?_, hl, hu, fun k => ?_, hT.begin_eq, fun e => ?_, fun e => ?_, fun e => ?_⟩
  · obtain ⟨s₁, m, s₂, rfl, h₁, h₂, he, hn⟩ := hT.exists_bounds k
    rw [hT.find_eq hok h₁ h₂, (filter_middle (fun e h => by simpa [equivTo] using he e h)
      fun e h => by simpa [equivTo] using hn e h).1]
    rfl
  · obtain ⟨s₁, m, s₂, rfl, h₁, h₂, he, hn⟩ := hT.exists_bounds k
    rw [hT.contains_eq hok h₁ h₂, (filter_middle (fun e h => by simpa [equivTo] using he e h)
      fun e h => by simpa [equivTo] using hn e h).2.2.2]
  · obtain ⟨s₁, m, s₂, rfl, h₁, h₂, he, hn⟩ := hT.exists_bounds k
    rw [hT.count_eq hok h₁ h₂, (filter_middle (fun e h => by simpa [equivTo] using he e h)
      fun e h => by simpa [equivTo] using hn e h).2.2.1]
  · rw [equalRange, hl, hu]
    rfl
  · subst e
    exact hT.iterIncrement_eq hok
  · rename_i s₁ b e' s₂
    have e2 : s₁ ++ b :: e' :: s₂ = (s₁ ++ [b]) ++ e' :: s₂ := by simp
    rw [e, e2] at hT
    rw [hT.iterDecrement_eq hok (by simp), lastOr_append]
  · subst e
    rw [hT.iterDecrement_end (by simp), lastOr_append]

/-! ### Every operation -/

theorem Holds.nodup (hh : Holds key h t s F) : (s.map Prod.fst).Nodup := (List.nodup_cons.mp hh.2.nodup).2

theorem Inserted.adds (hi : Inserted key h h' t t' s₁ s₂ F F' a v) : Adds (s₁ ++ s₂) (s₁ ++ (a, v) :: s₂) a v := by
  refine ⟨fun hm => ?_, s₁, s₂, rfl, rfl⟩
  have hn := hi.holds.nodup
  rw [List.map_append, List.map_cons, List.nodup_middle, List.nodup_cons, ← List.map_append] at hn
  exact hn.1 hm

/-- An outcome of a unique insertion, as a step of the sequence. -/
theorem UniqueOutcome.step {p : ℕ} {b : Bool} (ho : UniqueOutcome key h h' t t' s F F' v p b) :
    ∃ s', Holds key h' t' s' F' ∧ Stays h h' F F' ∧ SameObject t t' ∧ UniqueStep t.keyCompare key s s' v p b := by
  cases ho with
  | linked split new ins =>
      subst split
      exact ⟨_, ins.holds, ins.stays, ins.same, fun e he => by simpa [equivTo] using new e he, ins.adds⟩
  | present mem equiv holds stays same =>
      exact ⟨s, holds, stays, same, rfl, _, mem, by simpa [equivTo] using equiv, rfl⟩

/-- **Every valid operation succeeds and does to the sequence what it should.** -/
theorem TreeOp.exec_spec (dbg : Bool) (hok : h.Ok) (hh : Holds key h t s F) (op : TreeOp V K)
    (hv : op.Valid h t) :
    ∃ h' t' ans s' F', op.exec key dbg h t = some (h', t', ans) ∧ Holds key h' t' s' F' ∧ Stays h h' F F' ∧
      SameObject t t' ∧ SeqStep t.keyCompare key t.header s op s' ans := by
  obtain ⟨T, hT⟩ := hh.1
  cases op with
  | emplaceUnique v =>
      obtain ⟨h', t', p, b, F', e, ho⟩ := emplaceUnique_spec dbg hok hh v
      obtain ⟨s', h1, h2, h3, h4⟩ := ho.step
      exact ⟨h', t', _, s', F', by rw [exec, e]; rfl, h1, h2, h3, p, b, h4, rfl⟩
  | emplaceEqual v =>
      obtain ⟨h', t', a, s₁, s₂, F', e, hc, hi⟩ := emplaceEqual_spec hok hh v
      have hadd := hi.adds.1
      rw [← hc.eq] at hadd
      exact ⟨h', t', _, _, F', by rw [exec, e]; rfl, hi.holds, hi.stays, hi.same, a, s₁, s₂, hc, rfl, hadd, rfl⟩
  | emplaceUniqueHint p v =>
      obtain ⟨h', t', q, b, F', e, ho⟩ := emplaceUniqueHint_spec dbg hok hh (hT.position hok hv) v
      obtain ⟨s', h1, h2, h3, h4⟩ := ho.step
      exact ⟨h', t', _, s', F', by rw [exec, e]; rfl, h1, h2, h3, q, b, h4, rfl⟩
  | emplaceEqualHint p v =>
      obtain ⟨h', t', a, s₁, s₂, F', e, rfl, hi⟩ := emplaceEqualHint_spec dbg hok hh (hT.position hok hv) v
      exact ⟨h', t', _, _, F', by rw [exec, e]; rfl, hi.holds, hi.stays, hi.same, a, hi.adds, rfl⟩
  | eraseAt p =>
      obtain ⟨s₁, e, s₂, rfl, rfl⟩ := (hT.position hok hv.1).cases hv.2
      obtain ⟨h', t', eq, r⟩ := eraseAt_spec dbg hok hh
      exact ⟨h', t', _, _, F, by rw [exec, eq]; rfl, r.holds, r.stays, r.same, s₁, e, s₂, rfl, rfl, rfl, rfl⟩
  | eraseRange p q =>
      obtain ⟨s₁, s', rfl, rfl⟩ := hT.isPosition hok hv.1
      obtain ⟨m, s₂, rfl, rfl⟩ := hT.reaches hok hv.2 rfl
      obtain ⟨h', t', F', eq, r⟩ := eraseRange_spec dbg hok hh
      exact ⟨h', t', _, _, F', by rw [exec, eq]; rfl, r.holds, r.stays, r.same, s₁, m, s₂, rfl, rfl, rfl, rfl, rfl⟩
  | eraseKey k =>
      obtain ⟨s₁, m, s₂, rfl, h₁, h₂, he, hn⟩ := hT.exists_bounds k
      obtain ⟨h', t', F', eq, r⟩ := eraseKey_spec dbg hok hh h₁ h₂
      obtain ⟨_, f2, f3, _⟩ := filter_middle (p := equivTo t.keyCompare key k)
        (fun e h => by simpa [equivTo] using he e h) fun e h => by simpa [equivTo] using hn e h
      exact ⟨h', t', _, _, F', by rw [exec, eq]; rfl, r.holds, r.stays, r.same, f2.symm, by rw [f3]⟩
  | clear =>
      obtain ⟨h', t', F', eq, r, _⟩ := clear_spec hok hh
      exact ⟨h', t', _, _, F', by rw [exec, eq]; rfl, r.holds, r.stays, r.same, rfl, rfl⟩

end

end NeForce.Rb
