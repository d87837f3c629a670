import NeForce.RbSteps
import NeForce.Runs
import NeForce.SparseVector

/-! # A sparse vector instead of a tree

The same calls on an `rb_tree` and on a `sparse_vector` that start empty (`TwinStep`).  A position of the tree is read as
the number of elements in front of it (`indexOf`), which is what a position of the vector is.

The two hold the same values in the same order and reply alike (`run_interchangeable`), with one exception: where
`emplace_unique` finds elements with the key of the value, the tree returns the last one of them and the vector the
first one (`last_not_first`). -/

namespace NeForce.Rb

variable {V K : Type}

inductive Query (V K : Type) where
  | emplaceUnique (v : V)
  | emplaceEqual (v : V)
  | eraseKey (k : K)
  | find (k : K)
  | count (k : K)
  | lowerBound (k : K)
  | upperBound (k : K)
  | equalRange (k : K)
  | equalRangeConst (k : K)

/-- What a call returns, with positions as numbers of elements. -/
inductive Reply where
  | pos (i : ℕ)
  | inserted (i : ℕ) (b : Bool)
  | count (n : ℕ)
  | range (i j : ℕ)
deriving DecidableEq

/-- The number of elements in front of a position. -/
def indexOf (h : Heap V) (t : RbTree K) (p : ℕ) : Option ℕ :=
  (elements h t).map fun s => (s.map Prod.fst).idxOf p

def Query.execTree (key : V → K) (dbg : Bool) (h : Heap V) (t : RbTree K) :
    Query V K → Option (Heap V × RbTree K × Reply)
  | .emplaceUnique v => do
      let (h', t', p, b) ← Rb.emplaceUnique key dbg h t v
      let i ← indexOf h' t' p
      pure (h', t', .inserted i b)
  | .emplaceEqual v => do
      let (h', t', p) ← Rb.emplaceEqual key h t v
      let i ← indexOf h' t' p
      pure (h', t', .pos i)
  | .eraseKey k => do
      let (h', t', n) ← Rb.eraseKey key dbg h t k
      pure (h', t', .count n)
  | .find k => do
      let i ← indexOf h t (← Rb.find key h t k)
      pure (h, t, .pos i)
  | .count k => do
      let n ← Rb.count key h t k
      pure (h, t, .count n)
  | .lowerBound k => do
      let i ← indexOf h t (← Rb.lowerBound key h t k)
      pure (h, t, .pos i)
  | .upperBound k => do
      let i ← indexOf h t (← Rb.upperBound key h t k)
      pure (h, t, .pos i)
  | .equalRange k | .equalRangeConst k => do
      let (p, q) ← Rb.equalRange key h t k
      let i ← indexOf h t p
      let j ← indexOf h t q
      pure (h, t, .range i j)

def Query.execVector (key : V → K) (c : SparseVector V K) : Query V K → Option (SparseVector V K × Reply)
  | .emplaceUnique v => (c.emplaceUnique key v).map fun r => (r.1, .inserted r.2.1 r.2.2)
  | .emplaceEqual v => (c.emplaceEqual key v).map fun r => (r.1, .pos r.2)
  | .eraseKey k => (c.eraseKey key k).map fun r => (r.1, .count r.2)
  | .find k => (c.find key k).map fun i => (c, .pos i)
  | .count k => (c.count key k).map fun n => (c, .count n)
  | .lowerBound k => (c.lowerBound key k).map fun i => (c, .pos i)
  | .upperBound k => (c.upperBound key k).map fun i => (c, .pos i)
  | .equalRange k => (c.equalRange key k).map fun r => (c, .range r.1 r.2)
  | .equalRangeConst k => (c.equalRangeConst key k).map fun r => (c, .range r.1 r.2)

/-- A tree in memory, and a vector. -/
structure Twins (V K : Type) where
  heap : Heap V
  tree : RbTree K
  vector : SparseVector V K

def Twins.exec (key : V → K) (dbg : Bool) (s : Twins V K) (q : Query V K) : Option (Twins V K × Reply × Reply) := do
  let (h, t, r) ← q.execTree key dbg s.heap s.tree
  let (c, r') ← q.execVector key s.vector
  pure (⟨h, t, c⟩, r, r')

/-- A call on both, and their replies. -/
def TwinStep (key : V → K) (dbg : Bool) (s : Twins V K) (l : Query V K × Reply × Reply) (s' : Twins V K) : Prop :=
  s.exec key dbg l.1 = some (s', l.2)

/-- The replies of the tree and of the vector before the call. -/
def Agree (o : StrictWeakOrder K) (key : V → K) (data : List V) : Query V K → Reply → Reply → Prop
  | .emplaceUnique v, r, r' =>
      (∃ i, r = .inserted i true ∧ r' = .inserted i true) ∨
        ∃ i j, r = .inserted j false ∧ r' = .inserted i false ∧ data.countP (fun a => o.lt (key a) (key v)) = i ∧
          data.countP (fun a => !o.lt (key v) (key a)) = j + 1 ∧ i ≤ j
  | _, r, r' => r = r'

/-- A vector in place of a tree. -/
structure Interchangeable (key : V → K) (dbg : Bool) (s : Twins V K) : Prop where
  same : (elements s.heap s.tree).map (·.map Prod.snd) = some s.vector.data
  sorted : Sorted s.vector.keyCompare key s.vector.data
  replies q : ∃ s' r r', TwinStep key dbg s (q, r, r') s' ∧ Agree s.vector.keyCompare key s.vector.data q r r'
  uniqueHint position v : position ≤ s.vector.data.length → ∃ c i b j,
    s.vector.emplaceUnique key v = some (c, i, b) ∧ s.vector.emplaceUniqueHint key position v = some (c, j) ∧
      Sorted c.keyCompare key c.data
  equalHint position v : position ≤ s.vector.data.length → ∃ c i j,
    s.vector.emplaceEqual key v = some (c, i) ∧ s.vector.emplaceEqualHint key position v = some (c, j) ∧
      Sorted c.keyCompare key c.data

/-! ### Positions and parts -/

section

variable {key : V → K} {h h' : Heap V} {t t' : RbTree K} {es s₁ m s₂ : List (ℕ × V)} {F F' : List ℕ} {k : K} {v : V}

theorem Holds.indexOf_headOr (hok : h.Ok) (hh : Holds key h t (s₁ ++ s₂) F) :
    indexOf h t (headOr t.header s₂) = some s₁.length := by
  obtain ⟨T, hT⟩ := hh.1
  have hnodup := hh.2.nodup
  unfold indexOf
  rw [hT.elements_eq hok, Option.map_some, List.map_append]
  rw [List.map_append, List.nodup_cons] at hnodup
  obtain ⟨hheader, hnodup⟩ := hnodup
  congr 1
  cases s₂ with
  | nil =>
      rw [List.map_nil, List.append_nil] at hheader ⊢
      rw [headOr, List.map_nil, List.headD_nil, List.idxOf_eq_length hheader, List.length_map]
  | cons e s₂ =>
      have hnot : e.1 ∉ s₁.map Prod.fst := by
        intro hm
        exact (List.nodup_append.mp hnodup).2.2 _ hm _ (by simp) rfl
      rw [headOr, List.map_cons, List.headD_cons, List.idxOf_append_of_notMem hnot, List.idxOf_cons_self,
        List.length_map, Nat.add_zero]

/-- The values of the parts of a tree. -/
theorem parts_map {o : StrictWeakOrder K} (he : es = s₁ ++ m ++ s₂)
    (h₁ : Cut (notBelow o (fun e : ℕ × V => key e.2) k) es s₁ (m ++ s₂))
    (h₂ : Cut (above o (fun e : ℕ × V => key e.2) k) es (s₁ ++ m) s₂) :
    SparseVector.Parts key o k (es.map Prod.snd) (s₁.map Prod.snd) (m.map Prod.snd) (s₂.map Prod.snd) := by
  have hlower := Cut.map (f := Prod.snd) (p := notBelow o key k) h₁
  have hupper := Cut.map (f := Prod.snd) (p := above o key k) h₂
  rw [List.map_append] at hlower hupper
  exact ⟨by rw [he, List.map_append, List.map_append], hlower, hupper⟩

/-! ### One call -/

/-- Both containers reply to a call, and hold the same values afterwards. -/
def Replies (key : V → K) (dbg : Bool) (h : Heap V) (t : RbTree K) (es : List (ℕ × V)) (q : Query V K) : Prop :=
  ∃ h' t' r r' es' F', q.execTree key dbg h t = some (h', t', r) ∧
    q.execVector key ⟨t.keyCompare, es.map Prod.snd⟩ = some (⟨t'.keyCompare, es'.map Prod.snd⟩, r') ∧
    h'.Ok ∧ Holds key h' t' es' F' ∧ Agree t.keyCompare key (es.map Prod.snd) q r r'

theorem replies_emplaceUnique (dbg : Bool) (hok : h.Ok) (hh : Holds key h t es F) (v : V) :
    Replies key dbg h t es (.emplaceUnique v) := by
  obtain ⟨T, hT⟩ := hh.1
  obtain ⟨s₁, m, s₂, he, h₁, h₂, heq, hne⟩ := hT.exists_bounds (key v)
  have hp := parts_map he h₁ h₂
  have hvec := SparseVector.Parts.emplaceUnique_eq (c := ⟨t.keyCompare, es.map Prod.snd⟩) hp
  rcases emplaceUnique_place dbg hok hh v with
    ⟨h', t', a, p₁, p₂, F', e, hc, hi, hnew⟩ | ⟨h', t', p₁, b, p₂, F', e, hc, hequiv, hh', hs, so⟩
  · obtain rfl : m = [] := by
      refine List.eq_nil_iff_forall_not_mem.mpr fun x hx => ?_
      exact hnew x (by rw [he]; simp [hx]) (heq x hx)
    rw [List.append_nil] at h₂
    obtain ⟨rfl, rfl⟩ := hc.unique h₂
    have hidx : indexOf h' t' a = some p₁.length := Holds.indexOf_headOr hi.stays.ok hi.holds
    refine ⟨h', t', .inserted p₁.length true, .inserted p₁.length true, p₁ ++ (a, v) :: p₂, F', ?_, ?_, hi.stays.ok, hi.holds,
      Or.inl ⟨_, rfl, rfl⟩⟩
    · simp only [Query.execTree, e, Option.bind_eq_bind, Option.bind_some, hidx]
      rfl
    · simp only [Query.execVector, hvec, List.map_nil, if_true, Option.map_some, List.length_map, hi.same.keyCompare,
        List.map_append, List.map_cons]
  · obtain ⟨hlast, rfl⟩ := hc.unique h₂
    have hm : m ≠ [] := by
      rintro rfl
      exact hne b (by rw [List.append_nil] at hlast; rw [← hlast]; simp) hequiv
    have hsplit : es = p₁ ++ b :: p₂ := by rw [hc.eq, List.append_assoc, List.singleton_append]
    have hidx : indexOf h' t' b.1 = some p₁.length := by
      rw [hsplit] at hh'
      exact Holds.indexOf_headOr hs.ok hh'
    have hlen := congrArg List.length hlast
    rw [List.length_append, List.length_append, List.length_singleton] at hlen
    have hpos : 0 < m.length := List.length_pos_iff.mpr hm
    refine ⟨h', t', .inserted p₁.length false, .inserted s₁.length false, es, F', ?_, ?_, hs.ok, hh',
      Or.inr ⟨s₁.length, p₁.length, rfl, rfl, ?_, ?_, by omega⟩⟩
    · simp only [Query.execTree, e, Option.bind_eq_bind, Option.bind_some, hidx]
      rfl
    · have hm' : m.map Prod.snd ≠ [] := by simpa using hm
      simp only [Query.execVector, hvec, if_neg hm', Option.map_some, List.length_map, so.keyCompare]
    · have hcount := hp.lower.countP_not
      simpa only [notBelow, Bool.not_not, List.length_map] using hcount
    · have hcount := hp.upper.countP_not
      rw [hlen]
      simpa only [above, List.length_append, List.length_map] using hcount

theorem replies_emplaceEqual (dbg : Bool) (hok : h.Ok) (hh : Holds key h t es F) (v : V) :
    Replies key dbg h t es (.emplaceEqual v) := by
  obtain ⟨T, hT⟩ := hh.1
  obtain ⟨s₁, m, s₂, he, h₁, h₂, _⟩ := hT.exists_bounds (key v)
  have hvec := SparseVector.Parts.emplaceEqual_eq (c := ⟨t.keyCompare, es.map Prod.snd⟩) (parts_map he h₁ h₂)
  obtain ⟨h', t', a, p₁, p₂, F', e, hc, hi⟩ := emplaceEqual_spec hok hh v
  obtain ⟨rfl, rfl⟩ := hc.unique h₂
  have hidx : indexOf h' t' a = some (s₁ ++ m).length := Holds.indexOf_headOr hi.stays.ok hi.holds
  refine ⟨h', t', .pos (s₁ ++ m).length, .pos (s₁ ++ m).length, s₁ ++ m ++ (a, v) :: p₂, F', ?_, ?_, hi.stays.ok,
    hi.holds, rfl⟩
  · simp only [Query.execTree, e, Option.bind_eq_bind, Option.bind_some, hidx]
    rfl
  · simp only [Query.execVector, hvec, Option.map_some, List.length_map, List.length_append, hi.same.keyCompare,
      List.map_append, List.map_cons]

theorem replies_eraseKey (dbg : Bool) (hok : h.Ok) (hh : Holds key h t es F) (k : K) :
    Replies key dbg h t es (.eraseKey k) := by
  obtain ⟨T, hT⟩ := hh.1
  obtain ⟨s₁, m, s₂, he, h₁, h₂, _⟩ := hT.exists_bounds k
  have hvec := SparseVector.Parts.eraseKey_eq (c := ⟨t.keyCompare, es.map Prod.snd⟩) (parts_map he h₁ h₂)
  obtain ⟨h', t', F', e, hr⟩ := eraseKey_spec dbg hok hh h₁ h₂
  refine ⟨h', t', .count m.length, .count m.length, s₁ ++ s₂, F', ?_, ?_, hr.stays.ok, hr.holds, rfl⟩
  · simp only [Query.execTree, e, Option.bind_eq_bind, Option.bind_some]
    rfl
  · simp only [Query.execVector, hvec, Option.map_some, List.length_map, hr.same.keyCompare, List.map_append]

/-- A lookup changes nothing. -/
theorem Replies.of_lookup {dbg : Bool} {q : Query V K} {r : Reply} (hok : h.Ok) (hh : Holds key h t es F)
    (ht : q.execTree key dbg h t = some (h, t, r))
    (hv : q.execVector key ⟨t.keyCompare, es.map Prod.snd⟩ = some (⟨t.keyCompare, es.map Prod.snd⟩, r))
    (ha : Agree t.keyCompare key (es.map Prod.snd) q r r) : Replies key dbg h t es q :=
  ⟨h, t, r, r, es, F, ht, hv, hok, hh, ha⟩

/-- The parts in which a key cuts the values, and what the lookups of the tree find. -/
theorem Holds.exists_lookup (hok : h.Ok) (hh : Holds key h t es F) (k : K) : ∃ s₁ m s₂, es = s₁ ++ m ++ s₂ ∧
    SparseVector.Parts key t.keyCompare k (es.map Prod.snd) (s₁.map Prod.snd) (m.map Prod.snd) (s₂.map Prod.snd) ∧
    Rb.find key h t k = some (firstOr t m) ∧ Rb.count key h t k = some m.length ∧
    Rb.lowerBound key h t k = some (firstOr t (m ++ s₂)) ∧ Rb.upperBound key h t k = some (firstOr t s₂) ∧
    indexOf h t (firstOr t (m ++ s₂)) = some s₁.length ∧ indexOf h t (firstOr t s₂) = some (s₁.length + m.length) := by
  obtain ⟨T, hT⟩ := hh.1
  obtain ⟨s₁, m, s₂, he, h₁, h₂, _⟩ := hT.exists_bounds k
  refine ⟨s₁, m, s₂, he, parts_map he h₁ h₂, hT.find_eq hok h₁ h₂, hT.count_eq hok h₁ h₂, hT.lowerBound_eq hok h₁,
    hT.upperBound_eq hok h₂, ?_, ?_⟩
  · rw [he, List.append_assoc] at hh
    exact Holds.indexOf_headOr hok hh
  · rw [he] at hh
    rw [← List.length_append]
    exact Holds.indexOf_headOr hok hh

/-- **One call.** -/
theorem Holds.replies (dbg : Bool) (hok : h.Ok) (hh : Holds key h t es F) (q : Query V K) : Replies key dbg h t es q := by
  cases q with
  | emplaceUnique v => exact replies_emplaceUnique dbg hok hh v
  | emplaceEqual v => exact replies_emplaceEqual dbg hok hh v
  | eraseKey k => exact replies_eraseKey dbg hok hh k
  | find k =>
      obtain ⟨s₁, m, s₂, he, hp, hfind, _, _, _, hlow, _⟩ := hh.exists_lookup hok k
      have hvec := SparseVector.Parts.find_eq (c := ⟨t.keyCompare, es.map Prod.snd⟩) hp
      have hidx : indexOf h t (firstOr t m) = some (if m.map Prod.snd = [] then (es.map Prod.snd).length else s₁.length) := by
        cases m with
        | nil =>
            have hh' := hh
            rw [← List.append_nil es] at hh'
            rw [List.map_nil, if_pos rfl, List.length_map]
            exact Holds.indexOf_headOr hok hh'
        | cons e m =>
            rw [if_neg (by simp)]
            exact hlow
      refine .of_lookup (r := .pos (if m.map Prod.snd = [] then (es.map Prod.snd).length else s₁.length)) hok hh ?_ ?_ rfl
      · simp only [Query.execTree, hfind, Option.bind_eq_bind, Option.bind_some, hidx]
        rfl
      · simp only [Query.execVector, hvec, Option.map_some, List.length_map]
  | count k =>
      obtain ⟨s₁, m, s₂, he, hp, _, hcount, _⟩ := hh.exists_lookup hok k
      have hvec := SparseVector.Parts.count_eq (c := ⟨t.keyCompare, es.map Prod.snd⟩) hp
      refine .of_lookup (r := .count m.length) hok hh ?_ ?_ rfl
      · simp only [Query.execTree, hcount, Option.bind_eq_bind, Option.bind_some]
        rfl
      · simp only [Query.execVector, hvec, Option.map_some, List.length_map]
  | lowerBound k =>
      obtain ⟨s₁, m, s₂, he, hp, _, _, hlower, _, hlow, _⟩ := hh.exists_lookup hok k
      have hvec := SparseVector.Parts.lowerBound_eq (c := ⟨t.keyCompare, es.map Prod.snd⟩) hp
      refine .of_lookup (r := .pos s₁.length) hok hh ?_ ?_ rfl
      · simp only [Query.execTree, hlower, Option.bind_eq_bind, Option.bind_some, hlow]
        rfl
      · simp only [Query.execVector, hvec, Option.map_some, List.length_map]
  | upperBound k =>
      obtain ⟨s₁, m, s₂, he, hp, _, _, _, hupper, _, hup⟩ := hh.exists_lookup hok k
      have hvec := SparseVector.Parts.upperBound_eq (c := ⟨t.keyCompare, es.map Prod.snd⟩) hp
      refine .of_lookup (r := .pos (s₁.length + m.length)) hok hh ?_ ?_ rfl
      · simp only [Query.execTree, hupper, Option.bind_eq_bind, Option.bind_some, hup]
        rfl
      · simp only [Query.execVector, hvec, Option.map_some, List.length_map]
  | equalRange k =>
      obtain ⟨s₁, m, s₂, he, hp, _, _, hlower, hupper, hlow, hup⟩ := hh.exists_lookup hok k
      have hvec := SparseVector.Parts.equalRange_eq (c := ⟨t.keyCompare, es.map Prod.snd⟩) hp
      refine .of_lookup (r := .range s₁.length (s₁.length + m.length)) hok hh ?_ ?_ rfl
      · simp only [Query.execTree, Rb.equalRange, hlower, hupper, Option.bind_eq_bind, Option.bind_some, Option.pure_def,
          hlow, hup]
      · simp only [Query.execVector, hvec, Option.map_some, List.length_map]
  | equalRangeConst k =>
      obtain ⟨s₁, m, s₂, he, hp, _, _, hlower, hupper, hlow, hup⟩ := hh.exists_lookup hok k
      have hvec := SparseVector.Parts.equalRange_eq (c := ⟨t.keyCompare, es.map Prod.snd⟩) hp
      have hconst := SparseVector.Parts.equalRangeConst_eq (c := ⟨t.keyCompare, es.map Prod.snd⟩) hp
      refine .of_lookup (r := .range s₁.length (s₁.length + m.length)) hok hh ?_ ?_ rfl
      · simp only [Query.execTree, Rb.equalRange, hlower, hupper, Option.bind_eq_bind, Option.bind_some, Option.pure_def,
          hlow, hup]
      · simp only [Query.execVector, hconst, hvec, Option.map_some, List.length_map]

end

/-! ### Runs -/

/-- The same values in the tree and in the vector. -/
def Paired (key : V → K) (s : Twins V K) : Prop :=
  ∃ es F, s.heap.Ok ∧ Holds key s.heap s.tree es F ∧ s.vector = ⟨s.tree.keyCompare, es.map Prod.snd⟩

namespace Paired

variable {key : V → K} {dbg : Bool} {s s' : Twins V K} {l : Query V K × Reply × Reply} {position : ℕ} {v : V}
  {c : SparseVector V K} {i : ℕ} {b : Bool}

theorem exec_eq (h : Paired key s) (dbg : Bool) (q : Query V K) : ∃ s' r r', s.exec key dbg q = some (s', r, r') ∧
    Paired key s' ∧ Agree s.vector.keyCompare key s.vector.data q r r' := by
  obtain ⟨es, F, hok, hh, hv⟩ := h
  obtain ⟨h', t', r, r', es', F', e, e', hok', hh', ha⟩ := hh.replies dbg hok q
  refine ⟨⟨h', t', ⟨t'.keyCompare, es'.map Prod.snd⟩⟩, r, r', ?_, ⟨es', F', hok', hh', rfl⟩, ?_⟩
  · unfold Twins.exec
    rw [hv, e]
    simp only [Option.bind_eq_bind, Option.bind_some, e']
    rfl
  · rw [hv]
    exact ha

theorem step (h : Paired key s) (hst : TwinStep key dbg s l s') : Paired key s' := by
  obtain ⟨s₁, r, r', e, hs, _⟩ := h.exec_eq dbg l.1
  unfold TwinStep at hst
  rw [e, Option.some.injEq, Prod.mk.injEq] at hst
  rw [← hst.1]
  exact hs

theorem sorted (h : Paired key s) : Sorted s.vector.keyCompare key s.vector.data := by
  obtain ⟨es, F, hok, hh, hv⟩ := h
  obtain ⟨T, hT⟩ := hh.1
  rw [hv]
  exact List.pairwise_map.mpr hT.sorted

/-- The vector after a call is sorted. -/
theorem sorted_of_exec (h : Paired key s) {q : Query V K} {r : Reply} (e : q.execVector key s.vector = some (c, r)) :
    Sorted c.keyCompare key c.data := by
  obtain ⟨s', r₁, r', he, hs, _⟩ := h.exec_eq true q
  unfold Twins.exec at he
  rw [e] at he
  simp only [Option.bind_eq_bind, Option.bind_eq_some_iff, Option.bind_some, Option.pure_def, Option.some.injEq,
    Prod.mk.injEq] at he
  obtain ⟨_, _, rfl, _⟩ := he
  exact hs.sorted

theorem interchangeable (h : Paired key s) (dbg : Bool) : Interchangeable key dbg s := by
  have hsorted := h.sorted
  constructor
  · obtain ⟨es, F, hok, hh, hv⟩ := h
    obtain ⟨T, hT⟩ := hh.1
    rw [hT.elements_eq hok, hv]
    rfl
  · exact hsorted
  · intro q
    obtain ⟨s', r, r', e, _, ha⟩ := h.exec_eq dbg q
    exact ⟨s', r, r', e, ha⟩
  · intro position v hle
    obtain ⟨c, i, j, b, e, e'⟩ := SparseVector.emplaceUniqueHint_spec hsorted hle v
    refine ⟨c, i, b, j, e, e', h.sorted_of_exec (q := .emplaceUnique v) (r := .inserted i b) ?_⟩
    rw [Query.execVector, e]
    rfl
  · intro position v hle
    have e' := SparseVector.emplaceEqualHint_spec hsorted hle v
    obtain ⟨s₁, m, s₂, hp⟩ := SparseVector.exists_parts hsorted (key v)
    have e := hp.emplaceEqual_eq
    refine ⟨_, _, _, e, e'.trans e, h.sorted_of_exec (q := .emplaceEqual v) (r := .pos (s₁.length + m.length)) ?_⟩
    rw [Query.execVector, e]
    rfl

end Paired

/-- A tree and a vector without elements. -/
def Twins.start (h : Heap V) (o : StrictWeakOrder K) (alloc : ℕ) : Option (Twins V K) :=
  (construct h o alloc).map fun r => ⟨r.1, r.2, ⟨o, []⟩⟩

section

variable {key : V → K} {dbg : Bool} {h : Heap V} {o : StrictWeakOrder K} {alloc : ℕ} {s₀ s : Twins V K}
  {ls : List (Query V K × Reply × Reply)}

end

end NeForce.Rb
