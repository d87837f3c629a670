import NeForce.RbSteps
import NeForce.Runs

/-! # Programs over trees

A `World` is a memory with any number of `rb_tree` objects in it; `Op` are the operations of a
program: construction, copies, moves, assignments, `swap`, destruction and the operations on the
elements.  `Step` is one operation with valid arguments that has a result.

`Layout w F S` is the invariant: every object is either vacant or holds the sequence `S x` in the
cells `F x`, and these footprints are disjoint.  Every operation keeps it (`Op.exec_layout`), with
one exception: the move constructor that is given an allocator equal to that of its source takes
the tree over and leaves the chunks of its nodes behind (`Op.Strands`). -/

namespace NeForce.Rb

open Ctx RbNode

variable {V K : Type}

structure World (V K : Type) where
  heap : Heap V
  objs : ℕ → Option (RbTree K)

def World.start : World V K := ⟨Mem.empty, fun _ => none⟩

/-- The world with the memory `h`, in which `x` is now the object `t`. -/
def World.put (w : World V K) (h : Heap V) (x : ℕ) (t : Option (RbTree K)) : World V K :=
  ⟨h, Function.update w.objs x t⟩

inductive Op (V K : Type) where
  | construct (x : ℕ) (comp : StrictWeakOrder K) (alloc : ℕ)
  | copyConstruct (x y : ℕ)
  | copyConstructAlloc (x y alloc : ℕ)
  | moveConstruct (x y : ℕ)
  | moveConstructAlloc (x y alloc : ℕ)
  | copyAssign (x y : ℕ)
  | moveAssign (x y : ℕ)
  | swap (x y : ℕ)
  | destruct (x : ℕ)
  | on (x : ℕ) (op : TreeOp V K)

/-- A name that no object has. -/
def World.absent (w : World V K) (x : ℕ) : Option Unit := if (w.objs x).isNone then some () else none

section

variable (key : V → K) (tr : Traits) (dbg : Bool)

def Op.exec (w : World V K) : Op V K → Option (World V K × Answer)
  | .construct x comp alloc => do
      w.absent x
      let (h, t) ← Rb.construct w.heap comp alloc
      pure (w.put h x t, .unit)
  | .copyConstruct x y => do
      w.absent x
      let other ← w.objs y
      let (h, t) ← Rb.copyConstruct w.heap other (tr.selectOnCopy other.alloc)
      pure (w.put h x t, .unit)
  | .copyConstructAlloc x y alloc => do
      w.absent x
      let other ← w.objs y
      let (h, t) ← Rb.copyConstruct w.heap other alloc
      pure (w.put h x t, .unit)
  | .moveConstruct x y => do
      w.absent x
      let other ← w.objs y
      let (t, other) := Rb.moveConstruct other
      pure ((w.put w.heap x t).put w.heap y other, .unit)
  | .moveConstructAlloc x y alloc => do
      w.absent x
      let other ← w.objs y
      let (h, t, other) ← Rb.moveConstructAlloc key dbg w.heap other alloc
      pure ((w.put h x t).put h y other, .unit)
  | .copyAssign x y => do
      let t ← w.objs x
      let other ← w.objs y
      if x = y then pure (w, .unit)
      else
        let (h, t) ← Rb.copyAssign tr dbg w.heap t other
        pure (w.put h x t, .unit)
  | .moveAssign x y => do
      let t ← w.objs x
      let other ← w.objs y
      if x = y then pure (w, .unit)
      else
        let (h, t, other) ← Rb.moveAssign key tr dbg w.heap t other
        pure ((w.put h x t).put h y other, .unit)
  | .swap x y => do
      let t ← w.objs x
      let other ← w.objs y
      if x = y then pure (w, .unit)
      else
        let (t, other) ← swapImpl tr.pocs dbg t other
        pure ((w.put w.heap x t).put w.heap y other, .unit)
  | .destruct x => do
      let t ← w.objs x
      let h ← Rb.destruct w.heap t
      pure (w.put h x none, .unit)
  | .on x op => do
      let t ← w.objs x
      let (h, t, ans) ← op.exec key dbg w.heap t
      pure (w.put h x t, ans)

/-- The arguments are iterators of the object. -/
def Op.Valid (w : World V K) : Op V K → Prop
  | .on x op => ∀ t, w.objs x = some t → op.Valid w.heap t
  | _ => True

/-- One operation of a program, with its answer. -/
def Step (w : World V K) (l : Op V K × Answer) (w' : World V K) : Prop :=
  l.1.Valid w ∧ l.1.exec key tr dbg w = some (w', l.2)

end

/-- The move constructor is given the allocator of a source that has elements. -/
def Op.Strands (w : World V K) : Op V K → Prop
  | .moveConstructAlloc _ y alloc => ∃ other, w.objs y = some other ∧ other.alloc = alloc ∧ other.size ≠ 0
  | _ => False

/-! ### The invariant -/

/-- An object that is vacant, or holds `s` in the cells `F`. -/
def Alive (key : V → K) (h : Heap V) (t : RbTree K) (s : List (ℕ × V)) (F : List ℕ) : Prop :=
  Vacant t ∧ s = [] ∧ F = [] ∨ Holds key h t s F

structure Layout (key : V → K) (w : World V K) (F : ℕ → List ℕ) (S : ℕ → List (ℕ × V)) : Prop where
  ok : w.heap.Ok
  alive : ∀ x t, w.objs x = some t → Alive key w.heap t (S x) (F x)
  absent : ∀ x, w.objs x = none → F x = []
  disjoint : ∀ x y, x ≠ y → ∀ b ∈ F x, b ∉ F y

section

variable {key : V → K} {w w' : World V K} {h h' : Heap V} {F F' : ℕ → List ℕ} {S S' : ℕ → List (ℕ × V)} {t : RbTree K}
  {s : List (ℕ × V)} {G G' L : List ℕ}

theorem Alive.aside (hok : h.Ok) (ha : Alive key h t s L) (hs : Stays h h' G G') (hd : ∀ b ∈ L, b ∉ G) :
    Alive key h' t s L ∧ ∀ b ∈ L, b ∉ G' := by
  rcases ha with ⟨hv, rfl, rfl⟩ | hh
  · exact ⟨Or.inl ⟨hv, rfl, rfl⟩, by simp⟩
  · exact (hh.aside hok hs hd).imp_left Or.inr

theorem Alive.holds (ha : Alive key h t s L) (hne : t.header ≠ 0) : Holds key h t s L := by
  rcases ha with ⟨hv, _⟩ | hh
  · exact absurd hv.header hne
  · exact hh

theorem Holds.header_ne (hok : h.Ok) (hh : Holds key h t s L) : t.header ≠ 0 := by
  obtain ⟨T, hT⟩ := hh.1
  obtain ⟨n, hn, _⟩ := hT.ends
  exact hok.ne_zero hn

theorem start_layout : Layout key (World.start : World V K) (fun _ => []) fun _ => [] :=
  ⟨Mem.empty_ok, fun _ _ e => by simp [World.start] at e, fun _ _ => rfl, fun _ _ _ => by simp⟩

/-- A step that keeps to the footprints of the objects in `X`. -/
theorem Layout.step (hl : Layout key w F S) (X : ℕ → Prop) (hs : Stays w.heap w'.heap G G')
    (hG : ∀ x, ¬ X x → ∀ b ∈ F x, b ∉ G)
    (same : ∀ x, ¬ X x → w'.objs x = w.objs x ∧ F' x = F x ∧ S' x = S x)
    (alive : ∀ x, X x → ∀ t, w'.objs x = some t → Alive key w'.heap t (S' x) (F' x))
    (absent : ∀ x, X x → w'.objs x = none → F' x = []) (sub : ∀ x, X x → ∀ b ∈ F' x, b ∈ G')
    (dis : ∀ x y, X x → X y → x ≠ y → ∀ b ∈ F' x, b ∉ F' y) : Layout key w' F' S' := by
  have hout : ∀ x, ¬ X x → ∀ b ∈ F' x, b ∉ G' := by
    intro x hx b hb
    rw [(same x hx).2.1] at hb
    cases hw : w.objs x with
    | none => simp [hl.absent x hw] at hb
    | some t => exact ((hl.alive x t hw).aside hl.ok hs (hG x hx)).2 b hb
  refine ⟨hs.ok, fun x t e => ?_, fun x e => ?_, fun x y hxy b hb hb' => ?_⟩
  · by_cases hx : X x
    · exact alive x hx t e
    · obtain ⟨e1, e2, e3⟩ := same x hx
      rw [e1] at e
      rw [e2, e3]
      exact ((hl.alive x t e).aside hl.ok hs (hG x hx)).1
  · by_cases hx : X x
    · exact absent x hx e
    · obtain ⟨e1, e2, _⟩ := same x hx
      rw [e2]
      exact hl.absent x (e1 ▸ e)
  · by_cases hx : X x
    · by_cases hy : X y
      · exact dis x y hx hy hxy b hb hb'
      · exact hout y hy b hb' (sub x hx b hb)
    · by_cases hy : X y
      · exact hout x hx b hb (sub y hy b hb')
      · rw [(same x hx).2.1] at hb
        rw [(same y hy).2.1] at hb'
        exact hl.disjoint x y hxy b hb hb'

end

/-! ### The sequences of a world -/

/-- What an object is for: a sequence sorted by a comparison, with an end iterator. -/
structure SeqObj (V K : Type) where
  keyCompare : StrictWeakOrder K
  last : ℕ
  elems : List (ℕ × V)

def SeqObj.values (o : SeqObj V K) : List V := o.elems.map Prod.snd

/-- The sequence an object represents; a vacant object has none. -/
def World.view (w : World V K) (x : ℕ) : Option (SeqObj V K) :=
  (w.objs x).bind fun t => (elements w.heap t).map fun s => ⟨t.keyCompare, t.header, s⟩

/-- The object `x` becomes a copy of `o`. -/
def SeqCopy (o : SeqObj V K) (x : ℕ) (a a' : ℕ → Option (SeqObj V K)) : Prop :=
  ∃ o' : SeqObj V K, o'.keyCompare = o.keyCompare ∧ o'.values = o.values ∧ a' = Function.update a x (some o')

/-- The object `x`, ordered by `o`, takes the values of `y` one by one, and `y` loses them. -/
def SeqMove (key : V → K) (o : StrictWeakOrder K) (p : SeqObj V K) (x y : ℕ) (a a' : ℕ → Option (SeqObj V K)) : Prop :=
  ∃ o' p' : SeqObj V K, o'.keyCompare = o ∧ o'.values = p.values.foldl (insertAbove o key) [] ∧
    p'.keyCompare = p.keyCompare ∧ p'.elems = [] ∧ a' = Function.update (Function.update a x (some o')) y (some p')

/-- `x` and `y` exchange what they hold. -/
def SeqSwap (x y : ℕ) (a a' : ℕ → Option (SeqObj V K)) : Prop :=
  a' = Function.update (Function.update a x (a y)) y (a x)

/-- What an operation of a program does to the sequences. -/
def SeqWorldStep (key : V → K) (a : ℕ → Option (SeqObj V K)) (l : Op V K × Answer)
    (a' : ℕ → Option (SeqObj V K)) : Prop :=
  match l.1 with
  | .construct x comp _ => ∃ last, a' = Function.update a x (some ⟨comp, last, []⟩) ∧ l.2 = .unit
  | .copyConstruct x y | .copyConstructAlloc x y _ => ∃ o, a y = some o ∧ SeqCopy o x a a' ∧ l.2 = .unit
  | .moveConstruct x y => a' = Function.update (Function.update a x (a y)) y none ∧ l.2 = .unit
  | .moveConstructAlloc x y _ =>
      ((a y = none ∧ ∃ p', p'.elems = [] ∧ a' = Function.update (Function.update a x none) y (some p')) ∨
        ∃ p, a y = some p ∧ SeqMove key p.keyCompare p x y a a') ∧ l.2 = .unit
  | .copyAssign x y => (if x = y then a' = a else ∃ o, a y = some o ∧ SeqCopy o x a a') ∧ l.2 = .unit
  | .moveAssign x y =>
      (if x = y then a' = a
        else SeqSwap x y a a' ∨ (∃ o p, a x = some o ∧ a y = some p ∧ SeqMove key o.keyCompare p x y a a') ∨
          (a x = none ∧ a' = a)) ∧ l.2 = .unit
  | .swap x y => (if x = y then a' = a else SeqSwap x y a a') ∧ l.2 = .unit
  | .destruct x => a' = Function.update a x none ∧ l.2 = .unit
  | .on x op =>
      (a x = none ∧ a' = a ∧ l.2 = .unit) ∨
        ∃ o s', a x = some o ∧ SeqStep o.keyCompare key o.last o.elems op s' l.2 ∧
          a' = Function.update a x (some { o with elems := s' })

section

variable {key : V → K} {w w' : World V K} {h h' : Heap V} {F F' : ℕ → List ℕ} {S S' : ℕ → List (ℕ × V)} {t t' : RbTree K}
  {s s₁ s₂ : List (ℕ × V)} {G G' L f f₁ f₂ : List ℕ} {x y : ℕ} {o : Option (RbTree K)}

/-- The sequence of an object that holds `s`. -/
def seqObj (t : RbTree K) (s : List (ℕ × V)) : Option (SeqObj V K) :=
  if t.header = 0 then none else some ⟨t.keyCompare, t.header, s⟩

theorem Alive.view_eq (hok : h.Ok) (ha : Alive key h t s L) :
    (elements h t).map (fun s => (⟨t.keyCompare, t.header, s⟩ : SeqObj V K)) = seqObj t s := by
  rcases ha with ⟨hv, rfl, rfl⟩ | hh
  · have e : getParent h t.header = none := by rw [getParent, hv.header, hok.null]; rfl
    rw [seqObj, if_pos hv.header, elements, e]
    rfl
  · obtain ⟨T, hT⟩ := hh.1
    rw [seqObj, if_neg (hh.header_ne hok), hT.elements_eq hok]
    rfl

theorem Layout.view_eq (hl : Layout key w F S) (x : ℕ) : w.view x = (w.objs x).bind (seqObj · (S x)) := by
  rw [World.view]
  cases e : w.objs x with
  | none => rfl
  | some t => exact (hl.alive x t e).view_eq hl.ok

/-- One object changes. -/
theorem Layout.put (hl : Layout key w F S) (hs : Stays w.heap h' G G') (hG : ∀ y, y ≠ x → ∀ b ∈ F y, b ∉ G)
    (ha : ∀ t, o = some t → Alive key h' t s f) (h0 : o = none → f = []) (hf : ∀ b ∈ f, b ∈ G') :
    Layout key (w.put h' x o) (Function.update F x f) (Function.update S x s) ∧
      (w.put h' x o).view = Function.update w.view x (o.bind (seqObj · s)) := by
  have hlay : Layout key (w.put h' x o) (Function.update F x f) (Function.update S x s) := by
    refine hl.step (· = x) hs hG (fun y hy => ?_) ?_ ?_ ?_ ?_
    · simp [World.put, Function.update_of_ne hy]
    · rintro _ rfl t e
      simp only [World.put, Function.update_self] at e ⊢
      exact ha t e
    · rintro _ rfl e
      simp only [World.put, Function.update_self] at e ⊢
      exact h0 e
    · rintro _ rfl b hb
      simp only [Function.update_self] at hb
      exact hf b hb
    · rintro _ _ rfl rfl hne
      exact absurd rfl hne
  refine ⟨hlay, funext fun y => ?_⟩
  rw [hlay.view_eq]
  by_cases hy : y = x
  · subst hy
    simp [World.put]
  · rw [Function.update_of_ne hy, Function.update_of_ne hy, hl.view_eq]
    simp [World.put, Function.update_of_ne hy]

/-- Two objects change. -/
theorem Layout.put₂ (hl : Layout key w F S) (hxy : x ≠ y) (hs : Stays w.heap h' G G')
    (hG : ∀ z, z ≠ x → z ≠ y → ∀ b ∈ F z, b ∉ G) (h₁ : Alive key h' t s₁ f₁) (h₂ : Alive key h' t' s₂ f₂)
    (hf₁ : ∀ b ∈ f₁, b ∈ G') (hf₂ : ∀ b ∈ f₂, b ∈ G') (hd : ∀ b ∈ f₂, b ∉ f₁) :
    Layout key ((w.put h' x (some t)).put h' y (some t')) (Function.update (Function.update F x f₁) y f₂)
        (Function.update (Function.update S x s₁) y s₂) ∧
      ((w.put h' x (some t)).put h' y (some t')).view =
        Function.update (Function.update w.view x (seqObj t s₁)) y (seqObj t' s₂) := by
  have hlay : Layout key ((w.put h' x (some t)).put h' y (some t')) (Function.update (Function.update F x f₁) y f₂)
      (Function.update (Function.update S x s₁) y s₂) := by
    refine hl.step (fun z => z = x ∨ z = y) hs (fun z hz => ?_) (fun z hz => ?_) ?_ ?_ ?_ ?_
    · push Not at hz
      exact hG z hz.1 hz.2
    · push Not at hz
      simp [World.put, Function.update_of_ne hz.1, Function.update_of_ne hz.2]
    · rintro _ (rfl | rfl) u e
      · simp only [World.put, Function.update_of_ne hxy, Function.update_self, Option.some.injEq] at e ⊢
        rwa [← e]
      · simp only [World.put, Function.update_self, Option.some.injEq] at e ⊢
        rwa [← e]
    · rintro _ (rfl | rfl) e
      · simp [World.put, Function.update_of_ne hxy] at e
      · simp [World.put] at e
    · rintro _ (rfl | rfl) b hb
      · rw [Function.update_of_ne hxy, Function.update_self] at hb
        exact hf₁ b hb
      · rw [Function.update_self] at hb
        exact hf₂ b hb
    · rintro _ _ (rfl | rfl) (rfl | rfl) hne b hb hb'
      · exact hne rfl
      · rw [Function.update_of_ne hxy, Function.update_self] at hb
        rw [Function.update_self] at hb'
        exact hd b hb' hb
      · rw [Function.update_of_ne hxy, Function.update_self] at hb'
        rw [Function.update_self] at hb
        exact hd b hb hb'
      · exact hne rfl
  refine ⟨hlay, funext fun z => ?_⟩
  rw [hlay.view_eq]
  by_cases hy : z = y
  · subst hy
    simp [World.put]
  · rw [Function.update_of_ne hy, Function.update_of_ne hy]
    by_cases hx : z = x
    · subst hx
      simp [World.put, Function.update_of_ne hy]
    · rw [Function.update_of_ne hx, Function.update_of_ne hx, hl.view_eq]
      simp [World.put, Function.update_of_ne hx, Function.update_of_ne hy]

/-! ### Operations on an object that has been moved from -/

theorem Holds.realloc (hh : Holds key h t s L) (a : ℕ) : Holds key h { t with alloc := a } s L := by
  obtain ⟨⟨T, hT⟩, free, chunks, hp, hd⟩ := hh
  exact ⟨⟨T, ⟨hT.linked, hT.balanced, hT.black, hT.ends, hT.data, hT.sorted, hT.size⟩⟩, free, chunks,
    ⟨hp.freeList, hp.chunkList, hp.perm, hp.nodup, hp.alloc⟩, hd⟩

theorem Alive.realloc (ha : Alive key h t s L) (a : ℕ) : Alive key h { t with alloc := a } s L := by
  rcases ha with ⟨hv, rfl, rfl⟩ | hh
  · exact Or.inl ⟨⟨hv.header, hv.size, hv.freeNodes, hv.nodeChunks⟩, rfl, rfl⟩
  · exact Or.inr (hh.realloc a)

theorem Vacant.seqObj_eq (hv : Vacant t) : seqObj t s = none := by rw [seqObj, if_pos hv.header]

theorem Holds.seqObj_eq (hok : h.Ok) (hh : Holds key h t s L) :
    seqObj t s = some ⟨t.keyCompare, t.header, s⟩ := by
  rw [seqObj, if_neg (hh.header_ne hok)]

theorem Vacant.getParent_none (hok : h.Ok) (hv : Vacant t) : getParent h t.header = none := by
  rw [getParent, hv.header, hok.null]
  rfl

theorem Vacant.begin_none (hok : h.Ok) (hv : Vacant t) : begin h t = none := by
  rw [begin, getChild, hv.header, hok.null]
  rfl

theorem Vacant.createNode_none (hok : h.Ok) (hv : Vacant t) (v : V) :
    ∃ h' t' a, createNode h t v = some (h', t', a) ∧ h'.Ok ∧ t'.header = 0 := by
  obtain ⟨h', p, q, a, _, _, e, _, _, hs, _⟩ := createNode_pool hok (Pool.empty h hv.freeNodes hv.nodeChunks) v
  exact ⟨h', _, a, e, hs.ok, hv.header⟩

theorem Alive.destruct_spec (hok : h.Ok) (ha : Alive key h t s L) :
    ∃ h', destruct h t = some h' ∧ Stays h h' L [] := by
  rcases ha with ⟨hv, rfl, rfl⟩ | hh
  · exact ⟨h, hv.destruct_eq, Stays.refl hok []⟩
  · exact Rb.destruct_spec hok hh

/-- Only `clear` is possible on a vacant object, and it does nothing. -/
theorem Vacant.exec_eq {dbg : Bool} {op : TreeOp V K} {ans : Answer} (hok : h.Ok) (hv : Vacant t)
    (hop : op.Valid h t) (e : op.exec key dbg h t = some (h', t', ans)) : h' = h ∧ t' = t ∧ ans = .unit := by
  have hb := hv.begin_none hok
  have hp := hv.getParent_none hok
  have hpos : ∀ p, ¬ IsPosition h t p := by
    rintro p ⟨b, hb', _⟩
    rw [hb] at hb'
    cases hb'
  cases op with
  | emplaceUnique v =>
      obtain ⟨h1, t1, a, e1, hok1, hd⟩ := hv.createNode_none hok v
      have e2 : getParent h1 t1.header = none := by rw [getParent, hd, hok1.null]; rfl
      simp [TreeOp.exec, emplaceUnique, e1, insertUnique, e2] at e
  | emplaceEqual v =>
      obtain ⟨h1, t1, a, e1, hok1, hd⟩ := hv.createNode_none hok v
      have e2 : getParent h1 t1.header = none := by rw [getParent, hd, hok1.null]; rfl
      simp [TreeOp.exec, emplaceEqual, e1, insertEqual, e2] at e
  | emplaceUniqueHint p v => exact absurd hop (hpos p)
  | emplaceEqualHint p v => exact absurd hop (hpos p)
  | eraseAt p => exact absurd hop.1 (hpos p)
  | eraseRange p q => exact absurd hop.1 (hpos p)
  | eraseKey k => simp [TreeOp.exec, eraseKey, equalRange, lowerBound, hp] at e
  | clear =>
      rw [TreeOp.exec, hv.clear_eq, Option.map_some, Option.some.injEq] at e
      simp only [Prod.mk.injEq] at e
      exact ⟨e.1.symm, e.2.1.symm, e.2.2.symm⟩

/-! ### Every operation keeps the invariant -/

/-- The step keeps the invariant and does to the sequences what it should. -/
def Keeps (key : V → K) (w : World V K) (l : Op V K × Answer) (w' : World V K) : Prop :=
  ∃ F' S', Layout key w' F' S' ∧ SeqWorldStep key w.view l w'.view

variable {tr : Traits} {dbg : Bool} {ans : Answer} {alloc : ℕ} {comp : StrictWeakOrder K}

theorem absent_iff (u : Unit) : w.absent x = some u ↔ w.objs x = none := by
  unfold World.absent
  cases w.objs x <;> simp

theorem Layout.construct (hl : Layout key w F S) (e : (Op.construct x comp alloc).exec key tr dbg w = some (w', ans)) :
    Keeps key w (.construct x comp alloc, ans) w' := by
  obtain ⟨h1, e1, hh, hs⟩ := construct_spec key hl.ok comp alloc
  simp only [Op.exec, e1, Option.bind_eq_bind, Option.bind_some, Option.bind_eq_some_iff, Option.pure_def,
    Option.some.injEq, Prod.mk.injEq] at e
  obtain ⟨_, _, rfl, rfl⟩ := e
  obtain ⟨h1, h2⟩ := hl.put (x := x) (o := some _) hs (by simp) (fun t e => by cases e; exact Or.inr hh) (by simp)
    (fun b hb => hb)
  exact ⟨_, _, h1, _, by rw [h2, Option.bind_some, hh.seqObj_eq hs.ok], rfl⟩

theorem copyConstruct_vacant {a : ℕ} (hok : h.Ok) (hv : Vacant t) : copyConstruct h t a = none := by
  obtain ⟨h1, e1, hl, hs⟩ := headerInit_spec hok ({ keyCompare := t.keyCompare, alloc := a } : RbTree K)
  rw [copyConstruct, Rb.construct, e1]
  simp [copyFrom, hv.getParent_none hs.ok]

/-- Either form of the copy constructor. -/
theorem Layout.copy {other : RbTree K} {t : RbTree K} (hl : Layout key w F S)
    (hy : w.objs y = some other) (e : copyConstruct w.heap other alloc = some (h', t)) :
    ∃ F' S', Layout key (w.put h' x (some t)) F' S' ∧
      ∃ o, w.view y = some o ∧ SeqCopy o x w.view (w.put h' x (some t)).view := by
  rcases hl.alive y other hy with ⟨hv, _⟩ | ho
  · rw [copyConstruct_vacant hl.ok hv] at e
    cases e
  · obtain ⟨h1, t1, s', f, e1, hh, hval, hs, _, hc⟩ := copyConstruct_spec hl.ok ho alloc
    rw [e1] at e
    obtain ⟨rfl, rfl⟩ := Prod.mk.inj (Option.some.inj e)
    obtain ⟨h2, h3⟩ := hl.put (x := x) (o := some t1) hs (by simp) (fun t e => by cases e; exact Or.inr hh) (by simp)
      (fun b hb => hb)
    refine ⟨_, _, h2, ⟨other.keyCompare, other.header, S y⟩, ?_, ⟨t1.keyCompare, t1.header, s'⟩, hc, hval, ?_⟩
    · rw [hl.view_eq, hy, Option.bind_some, ho.seqObj_eq hl.ok]
    · rw [h3, Option.bind_some, hh.seqObj_eq hs.ok]

theorem Layout.outside (hl : Layout key w F S) (x y : ℕ) : ∀ z, z ≠ x → z ≠ y → ∀ b ∈ F z, b ∉ F x ++ F y := by
  intro z hzx hzy b hb hm
  rcases List.mem_append.mp hm with hm | hm
  · exact hl.disjoint z x hzx b hb hm
  · exact hl.disjoint z y hzy b hb hm

/-- The objects `x` and `y` exchange what they hold, the memory stays. -/
theorem Layout.exchange {other : RbTree K} (hl : Layout key w F S) (hxy : x ≠ y) (hx : w.objs x = some t)
    (hy : w.objs y = some other) (a b : ℕ) :
    ∃ F' S', Layout key ((w.put w.heap x (some { other with alloc := a })).put w.heap y (some { t with alloc := b }))
        F' S' ∧
      SeqSwap x y w.view ((w.put w.heap x (some { other with alloc := a })).put w.heap y
        (some { t with alloc := b })).view := by
  have ht := hl.alive x t hx
  have ho := hl.alive y other hy
  obtain ⟨h1, h2⟩ := hl.put₂ hxy (Stays.refl hl.ok (F x ++ F y)) (hl.outside x y) (ho.realloc a) (ht.realloc b)
    (fun b hb => List.mem_append_right _ hb) (fun b hb => List.mem_append_left _ hb) (hl.disjoint x y hxy)
  refine ⟨_, _, h1, ?_⟩
  rw [h2, SeqSwap, hl.view_eq, hl.view_eq, hx, hy]
  rfl

theorem Layout.moveConstruct (hl : Layout key w F S)
    (e : (Op.moveConstruct x y).exec key tr dbg w = some (w', ans)) : Keeps key w (.moveConstruct x y, ans) w' := by
  simp only [Op.exec, Option.bind_eq_bind, Option.bind_eq_some_iff, Option.pure_def, Option.some.injEq,
    Prod.mk.injEq, Rb.moveConstruct] at e
  obtain ⟨u, hx, other, hy, rfl, rfl⟩ := e
  rw [absent_iff] at hx
  have hxy : x ≠ y := by
    rintro rfl
    rw [hx] at hy
    cases hy
  have hvac : Alive key w.heap other.moved [] [] := Or.inl ⟨other.moved_vacant, rfl, rfl⟩
  obtain ⟨h1, h2⟩ := hl.put₂ hxy (Stays.refl hl.ok (F y)) (fun z _ hzy b hb hm => hl.disjoint z y hzy b hb hm)
    (hl.alive y other hy) hvac (fun b hb => hb) (by simp) (by simp)
  refine ⟨_, _, h1, ?_, rfl⟩
  rw [h2, hl.view_eq y, hy, other.moved_vacant.seqObj_eq]
  rfl

theorem Layout.swap (hl : Layout key w F S) (e : (Op.swap x y).exec key tr dbg w = some (w', ans)) :
    Keeps key w (.swap x y, ans) w' := by
  simp only [Op.exec, Option.bind_eq_bind, Option.bind_eq_some_iff] at e
  obtain ⟨t, hx, other, hy, e⟩ := e
  by_cases hxy : x = y
  · rw [if_pos hxy, Option.pure_def, Option.some.injEq, Prod.mk.injEq] at e
    obtain ⟨rfl, rfl⟩ := e
    exact ⟨F, S, hl, by rw [if_pos hxy], rfl⟩
  · rw [if_neg hxy, Option.bind_eq_some_iff] at e
    obtain ⟨⟨t1, other1⟩, e1, e2⟩ := e
    rw [Option.pure_def, Option.some.injEq, Prod.mk.injEq] at e2
    obtain ⟨rfl, rfl⟩ := e2
    have hex : ∃ a b, t1 = { other with alloc := a } ∧ other1 = { t with alloc := b } := by
      rw [swapImpl] at e1
      split_ifs at e1 with hp
      · simp only [Option.some.injEq, Prod.mk.injEq] at e1
        exact ⟨other.alloc, t.alloc, e1.1.symm, e1.2.symm⟩
      · simp only [Option.bind_eq_bind, Option.bind_eq_some_iff, Option.pure_def, Option.some.injEq, Prod.mk.injEq] at e1
        obtain ⟨_, _, rfl, rfl⟩ := e1
        exact ⟨_, _, rfl, rfl⟩
    obtain ⟨a, b, rfl, rfl⟩ := hex
    obtain ⟨F', S', h1, h2⟩ := hl.exchange hxy hx hy a b
    exact ⟨F', S', h1, by rwa [if_neg hxy], rfl⟩

theorem Layout.destruct (hl : Layout key w F S) (e : (Op.destruct x).exec key tr dbg w = some (w', ans)) :
    Keeps key w (.destruct x, ans) w' := by
  simp only [Op.exec, Option.bind_eq_bind, Option.bind_eq_some_iff, Option.pure_def, Option.some.injEq,
    Prod.mk.injEq] at e
  obtain ⟨t, hx, h1, e1, rfl, rfl⟩ := e
  obtain ⟨h2, e2, hs⟩ := (hl.alive x t hx).destruct_spec hl.ok
  rw [e1, Option.some.injEq] at e2
  subst e2
  obtain ⟨h3, h4⟩ := hl.put (x := x) (o := none) (s := []) (f := []) hs (fun y hy => hl.disjoint y x hy) (by simp) (by simp)
    (by simp)
  exact ⟨_, _, h3, by rw [h4]; rfl, rfl⟩

theorem Layout.on {op : TreeOp V K} (hl : Layout key w F S) (hv : (Op.on x op).Valid w)
    (e : (Op.on x op).exec key tr dbg w = some (w', ans)) : Keeps key w (.on x op, ans) w' := by
  simp only [Op.exec, Option.bind_eq_bind, Option.bind_eq_some_iff, Option.pure_def, Option.some.injEq,
    Prod.mk.injEq] at e
  obtain ⟨t, hx, ⟨h1, t1, ans1⟩, e1, rfl, rfl⟩ := e
  rcases hl.alive x t hx with ⟨hvac, hs, hf⟩ | hh
  · obtain ⟨rfl, rfl, hans⟩ := hvac.exec_eq hl.ok (hv t hx) e1
    have hw : w.put w.heap x (some t1) = w := by
      rw [World.put, ← hx, Function.update_eq_self]
    rw [hw]
    exact ⟨F, S, hl, Or.inl ⟨by rw [hl.view_eq, hx, Option.bind_some, hvac.seqObj_eq], rfl, hans⟩⟩
  · obtain ⟨h2, t2, ans2, s', f, e2, hh2, hs2, so, hseq⟩ := op.exec_spec dbg hl.ok hh (hv t hx)
    rw [e1] at e2
    simp only [Option.some.injEq, Prod.mk.injEq] at e2
    obtain ⟨rfl, rfl, rfl⟩ := e2
    obtain ⟨h3, h4⟩ := hl.put (x := x) (o := some t1) hs2 (fun y hy => hl.disjoint y x hy)
      (fun t e => by cases e; exact Or.inr hh2) (by simp) (fun b hb => hb)
    refine ⟨_, _, h3, Or.inr ⟨⟨t.keyCompare, t.header, S x⟩, s', ?_, hseq, ?_⟩⟩
    · rw [hl.view_eq, hx, Option.bind_some, hh.seqObj_eq hl.ok]
    · rw [h4, Option.bind_some, hh2.seqObj_eq hs2.ok, so.header, so.keyCompare]

theorem Layout.copyAssign (hl : Layout key w F S) (e : (Op.copyAssign x y).exec key tr dbg w = some (w', ans)) :
    Keeps key w (.copyAssign x y, ans) w' := by
  simp only [Op.exec, Option.bind_eq_bind, Option.bind_eq_some_iff] at e
  obtain ⟨t, hx, other, hy, e⟩ := e
  by_cases hxy : x = y
  · rw [if_pos hxy, Option.pure_def, Option.some.injEq, Prod.mk.injEq] at e
    obtain ⟨rfl, rfl⟩ := e
    exact ⟨F, S, hl, by rw [if_pos hxy], rfl⟩
  rw [if_neg hxy, Option.bind_eq_some_iff] at e
  obtain ⟨⟨h1, t1⟩, e1, e2⟩ := e
  rw [Option.pure_def, Option.some.injEq, Prod.mk.injEq] at e2
  obtain ⟨rfl, rfl⟩ := e2
  have ht := hl.alive x t hx
  rcases hl.alive y other hy with ⟨hv, _⟩ | ho
  · rw [Rb.copyAssign, copyConstruct_vacant hl.ok hv] at e1
    cases e1
  obtain ⟨h2, tmp, s', f, e2, hh, hval, hs, ha, hc⟩ :=
    copyConstruct_spec hl.ok ho (if tr.pocca then other.alloc else t.alloc)
  obtain ⟨ht2, hd2⟩ := ht.aside hl.ok hs (by simp)
  -- after the swap the old contents are in the temporary object
  have hswap : ∃ a b, swapImpl tr.pocca dbg t tmp = some ({ tmp with alloc := a }, { t with alloc := b }) := by
    rw [swapImpl]
    split_ifs with hp
    · exact ⟨tmp.alloc, t.alloc, rfl⟩
    · rw [if_neg hp] at ha
      exact ⟨t.alloc, tmp.alloc, by simp [ha, debugVerify]⟩
  obtain ⟨a, b, e3⟩ := hswap
  obtain ⟨h3, e4, hs3⟩ := (ht2.realloc b).destruct_spec hs.ok
  rw [Rb.copyAssign, e2] at e1
  simp only [Option.bind_eq_bind, Option.bind_some, e3, e4, Option.pure_def, Option.some.injEq, Prod.mk.injEq] at e1
  obtain ⟨rfl, rfl⟩ := e1
  obtain ⟨hh3, hd3⟩ := (hh.realloc a).aside hs.ok hs3 fun c hc hx' => hd2 c hx' hc
  have hst : Stays w.heap h3 (F x) f := by
    refine Stays.trans (G := F x ++ f) (hs.of_mem (by simp) fun b hb => ?_) (hs3.of_mem (fun b hb => by simp [hb])
      fun b hb => Or.inl (by simp [hb]))
    rcases List.mem_append.mp hb with hb | hb
    · exact Or.inl hb
    · exact Or.inr hb
  obtain ⟨h4, h5⟩ := hl.put (x := x) (o := some { tmp with alloc := a }) hst (fun y hy => hl.disjoint y x hy)
    (fun t e => by cases e; exact Or.inr hh3) (by simp) (fun b hb => hb)
  refine ⟨_, _, h4, ?_, rfl⟩
  rw [if_neg hxy]
  refine ⟨⟨other.keyCompare, other.header, S y⟩, ?_, ⟨tmp.keyCompare, tmp.header, s'⟩, hc, hval, ?_⟩
  · rw [hl.view_eq, hy, Option.bind_some, ho.seqObj_eq hl.ok]
  · rw [h5, Option.bind_some, hh3.seqObj_eq hs3.ok]

/-- All elements of `y` move to an empty object, which takes the place of `x`. -/
theorem Layout.moveAll {other t₁ other₁ : RbTree K} {h₁ : Heap V} (hl : Layout key w F S) (hxy : x ≠ y)
    (hy : w.objs y = some other) (hs : Stays w.heap h (F x) f) (hh : Holds key h t [] f)
    (e : Rb.moveAll key dbg h t other = some (h₁, t₁, other₁)) :
    ∃ F' S', Layout key ((w.put h₁ x (some t₁)).put h₁ y (some other₁)) F' S' ∧ ∃ p, w.view y = some p ∧
      SeqMove key t.keyCompare p x y w.view ((w.put h₁ x (some t₁)).put h₁ y (some other₁)).view := by
  rcases hl.alive y other hy with ⟨hv, _⟩ | ho
  · rw [Rb.moveAll, hv.begin_none hs.ok] at e
    cases e
  obtain ⟨ho1, hd1⟩ := ho.aside hl.ok hs (hl.disjoint y x hxy.symm)
  obtain ⟨h2, t2, other2, s', f₁, f₂, e2, hh2, ho2, hd2, hs2, so, so', hval⟩ := moveAll_spec dbg hs.ok hh ho1 hd1
  rw [e2] at e
  simp only [Option.some.injEq, Prod.mk.injEq] at e
  obtain ⟨rfl, rfl, rfl⟩ := e
  have hst : Stays w.heap h2 (F x ++ F y) (f₁ ++ f₂) := by
    refine Stays.trans (G := f ++ F y) (hs.of_mem (fun b hb => by simp [hb]) fun b hb => ?_) hs2
    simp only [List.mem_append] at hb ⊢
    tauto
  obtain ⟨h3, h4⟩ := hl.put₂ hxy hst (hl.outside x y) (Or.inr hh2) (Or.inr ho2)
    (fun b hb => List.mem_append_left _ hb) (fun b hb => List.mem_append_right _ hb) hd2
  refine ⟨_, _, h3, ⟨other.keyCompare, other.header, S y⟩, ?_, ⟨t2.keyCompare, t2.header, s'⟩,
    ⟨other2.keyCompare, other2.header, []⟩, so.keyCompare, hval, so'.keyCompare, rfl, ?_⟩
  · rw [hl.view_eq, hy, Option.bind_some, ho.seqObj_eq hl.ok]
  · rw [h4, hh2.seqObj_eq hs2.ok, ho2.seqObj_eq hs2.ok]

/-- A vacant object can take the elements of an empty one only. -/
theorem Layout.moveAll_vacant {other t₁ other₁ : RbTree K} {h₁ : Heap V} (hl : Layout key w F S)
    (hv : Vacant t) (hy : w.objs y = some other)
    (e : Rb.moveAll key dbg w.heap t other = some (h₁, t₁, other₁)) : h₁ = w.heap ∧ t₁ = t ∧ other₁ = other := by
  rcases hl.alive y other hy with ⟨hv', _⟩ | ho
  · rw [Rb.moveAll, hv'.begin_none hl.ok] at e
    cases e
  obtain ⟨T, hT⟩ := ho.1
  rw [Rb.moveAll, hT.begin_eq] at e
  cases hS : S y with
  | nil =>
      rw [hS] at ho
      obtain ⟨h2, other2, f, e2, _, hclear, _⟩ := clear_spec hl.ok ho
      obtain ⟨rfl, rfl⟩ := hclear rfl
      simp only [hS, firstOr_nil, walkBound, moveElements, Option.bind_eq_bind, Option.bind_some, if_true, e2,
        Option.pure_def, Option.some.injEq, Prod.mk.injEq] at e
      exact ⟨e.1.symm, e.2.1.symm, e.2.2.symm⟩
  | cons p s =>
      rw [hS] at hT
      obtain ⟨h1, t1, a, e1, hok1, hd⟩ := hv.createNode_none hl.ok p.2
      have e2 : getParent h1 t1.header = none := by rw [getParent, hd, hok1.null]; rfl
      rw [hS] at e
      have hT' : TreeAt key w.heap other ([] ++ p :: s) T := hT
      simp [firstOr_cons, walkBound, moveElements, hT.ne_header (e := p) (by simp), hT'.dereference_eq hl.ok,
        emplaceEqual, e1, insertEqual, e2] at e

theorem Layout.moveAssign (hl : Layout key w F S) (e : (Op.moveAssign x y).exec key tr dbg w = some (w', ans)) :
    Keeps key w (.moveAssign x y, ans) w' := by
  simp only [Op.exec, Option.bind_eq_bind, Option.bind_eq_some_iff] at e
  obtain ⟨t, hx, other, hy, e⟩ := e
  by_cases hxy : x = y
  · rw [if_pos hxy, Option.pure_def, Option.some.injEq, Prod.mk.injEq] at e
    obtain ⟨rfl, rfl⟩ := e
    exact ⟨F, S, hl, by rw [if_pos hxy], rfl⟩
  rw [if_neg hxy, Option.bind_eq_some_iff] at e
  obtain ⟨⟨h1, t1, other1⟩, e1, e2⟩ := e
  rw [Option.pure_def, Option.some.injEq, Prod.mk.injEq] at e2
  obtain ⟨rfl, rfl⟩ := e2
  rw [Rb.moveAssign] at e1
  split_ifs at e1 with hp ha
  · simp only [Option.some.injEq, Prod.mk.injEq] at e1
    obtain ⟨rfl, rfl, rfl⟩ := e1
    obtain ⟨F', S', h1, h2⟩ := hl.exchange hxy hx hy other.alloc t.alloc
    exact ⟨F', S', h1, by rw [if_neg hxy]; exact Or.inl h2, rfl⟩
  · simp only [Option.some.injEq, Prod.mk.injEq] at e1
    obtain ⟨rfl, rfl, rfl⟩ := e1
    obtain ⟨F', S', h1, h2⟩ := hl.exchange hxy hx hy t.alloc other.alloc
    exact ⟨F', S', h1, by rw [if_neg hxy]; exact Or.inl h2, rfl⟩
  · rw [Option.bind_eq_bind, Option.bind_eq_some_iff] at e1
    obtain ⟨⟨h2, t2⟩, e2, e3⟩ := e1
    rcases hl.alive x t hx with ⟨hv, _⟩ | hh
    · rw [hv.clear_eq, Option.some.injEq, Prod.mk.injEq] at e2
      obtain ⟨rfl, rfl⟩ := e2
      obtain ⟨rfl, rfl, rfl⟩ := hl.moveAll_vacant hv hy e3
      have hw : (w.put w.heap x (some t1)).put w.heap y (some other1) = w := by
        rw [World.put, World.put, ← hx, Function.update_eq_self, ← hy, Function.update_eq_self]
      rw [hw]
      exact ⟨F, S, hl, by
        rw [if_neg hxy]
        exact Or.inr (Or.inr ⟨by rw [hl.view_eq, hx, Option.bind_some, hv.seqObj_eq], rfl⟩), rfl⟩
    · obtain ⟨h2', t2', f, e2', r, _⟩ := clear_spec hl.ok hh
      rw [e2] at e2'
      simp only [Option.some.injEq, Prod.mk.injEq] at e2'
      obtain ⟨rfl, rfl⟩ := e2'
      obtain ⟨F', S', h3, p, hp1, h4⟩ := hl.moveAll hxy hy r.stays r.holds e3
      refine ⟨F', S', h3, ?_, rfl⟩
      rw [if_neg hxy]
      refine Or.inr (Or.inl ⟨⟨t.keyCompare, t.header, S x⟩, p, ?_, hp1, ?_⟩)
      · rw [hl.view_eq, hx, Option.bind_some, hh.seqObj_eq hl.ok]
      · rw [← r.same.keyCompare]
        exact h4

/-- The header of an empty object moves to a new one, and the other way round. -/
theorem Layout.takeHeader {other : RbTree K} (hl : Layout key w F S) (hxy : x ≠ y) (hy : w.objs y = some other)
    (h0 : other.size = 0)
    (hh : Holds key h { header := w.heap.next, keyCompare := other.keyCompare, alloc := alloc } [] [w.heap.next])
    (hs : Stays w.heap h [] [w.heap.next]) :
    Keeps key w (.moveConstructAlloc x y alloc, .unit) ((w.put h x (some
      { header := other.header, keyCompare := other.keyCompare, alloc := alloc, size := other.size })).put h y
        (some { other with header := w.heap.next, size := 0 })) := by
  have ha := hl.alive y other hy
  have hlt : ∀ b ∈ F y, b < w.heap.next := by
    intro b hb
    rcases ha with ⟨_, _, hf⟩ | ho
    · simp [hf] at hb
    · obtain ⟨n, hn⟩ := Option.isSome_iff_exists.mp (ho.isSome b hb)
      exact hl.ok.lt_next hn
  obtain ⟨header, keyCompare, al, size, freeNodes, nodeChunks⟩ := other
  obtain rfl : size = 0 := h0
  rcases ha with ⟨hv, hsy, hf⟩ | ho
  · obtain rfl : header = 0 := hv.header
    obtain rfl : freeNodes = 0 := hv.freeNodes
    obtain rfl : nodeChunks = 0 := hv.nodeChunks
    have hvac : Vacant ({ header := 0, keyCompare := keyCompare, alloc := alloc, size := 0 } : RbTree K) :=
      ⟨rfl, rfl, rfl, rfl⟩
    obtain ⟨h3, h4⟩ := hl.put₂ hxy hs (by simp) (Or.inl ⟨hvac, rfl, rfl⟩)
      (Or.inr (hh.realloc al)) (by simp) (fun b hb => hb) (by simp)
    refine ⟨_, _, h3, Or.inl ⟨?_, ⟨keyCompare, w.heap.next, []⟩, rfl, ?_⟩, rfl⟩
    · rw [hl.view_eq, hy, Option.bind_some, hv.seqObj_eq]
    · rw [h4, hvac.seqObj_eq, (hh.realloc al).seqObj_eq hs.ok]
  · obtain ⟨T, hT⟩ := ho.1
    have hSy : S y = [] := List.length_eq_zero_iff.mp hT.size.symm
    have ho' := ho
    obtain ⟨_, free, chunks, hp, hd, hF⟩ := (ho.aside hl.ok hs (by simp)).1
    obtain ⟨⟨T1, hT1⟩, _⟩ := (ho.aside hl.ok hs (by simp)).1
    obtain ⟨⟨T2, hT2⟩, _⟩ := hh
    rw [hSy] at hT1 hp
    have g1 : Holds key h ({ header := header, keyCompare := keyCompare, alloc := alloc, size := 0 } : RbTree K) []
        [header] :=
      ⟨⟨T1, ⟨hT1.linked, hT1.balanced, hT1.black, hT1.ends, hT1.data, hT1.sorted, rfl⟩⟩, [], [],
        Pool.empty h rfl rfl, by simp, rfl⟩
    have hcell : ∀ b ∈ chunks.flatMap cells, b < w.heap.next := fun b hb => hlt b (by
      rw [hF]
      exact List.mem_cons_of_mem _ hb)
    have g2 : Holds key h (⟨w.heap.next, keyCompare, al, 0, freeNodes, nodeChunks⟩ : RbTree K) []
        (w.heap.next :: chunks.flatMap cells) :=
      ⟨⟨T2, ⟨hT2.linked, hT2.balanced, hT2.black, hT2.ends, hT2.data, hT2.sorted, rfl⟩⟩, free, chunks,
        ⟨hp.freeList, hp.chunkList, hp.perm, hp.nodup, hp.alloc⟩, fun hm => absurd (hcell _ hm) (by simp), rfl⟩
    have hhd : header ∈ F y := by
      rw [hF]
      exact List.mem_cons_self
    have hst : Stays w.heap h (F y) (header :: w.heap.next :: chunks.flatMap cells) := hs.of_mem (by simp) fun b hb => by
      rcases List.mem_cons.mp hb with rfl | hb
      · exact Or.inl hhd
      · rcases List.mem_cons.mp hb with rfl | hb
        · exact Or.inr (by simp)
        · refine Or.inl ?_
          rw [hF]
          exact List.mem_cons_of_mem _ hb
    have hdis : ∀ b ∈ w.heap.next :: chunks.flatMap cells, b ∉ [header] := by
      intro b hb hb'
      rw [List.mem_singleton] at hb'
      subst hb'
      rcases List.mem_cons.mp hb with hb | hb
      · have := hlt _ hhd
        omega
      · exact hd hb
    obtain ⟨h3, h4⟩ := hl.put₂ hxy hst (fun z _ hzy => hl.disjoint z y hzy) (Or.inr g1) (Or.inr g2)
      (fun b hb => by simp at hb; simp [hb]) (fun b hb => List.mem_cons_of_mem _ hb) hdis
    refine ⟨_, _, h3, Or.inr ⟨⟨keyCompare, header, S y⟩, ?_, ⟨keyCompare, header, []⟩,
      ⟨keyCompare, w.heap.next, []⟩, rfl, ?_, rfl, rfl, ?_⟩, rfl⟩
    · rw [hl.view_eq, hy, Option.bind_some, ho'.seqObj_eq hl.ok]
    · rw [SeqObj.values, SeqObj.values, hSy]
      rfl
    · rw [h4, g1.seqObj_eq hs.ok, g2.seqObj_eq hs.ok]

theorem Layout.moveConstructAlloc (hl : Layout key w F S) (hn : ¬ (Op.moveConstructAlloc x y alloc).Strands w)
    (e : (Op.moveConstructAlloc x y alloc).exec key tr dbg w = some (w', ans)) :
    Keeps key w (.moveConstructAlloc x y alloc, ans) w' := by
  simp only [Op.exec, Option.bind_eq_bind, Option.bind_eq_some_iff, Option.pure_def, Option.some.injEq,
    Prod.mk.injEq] at e
  obtain ⟨u, hx, other, hy, ⟨h1, t1, other1⟩, e1, rfl, rfl⟩ := e
  rw [absent_iff] at hx
  have hxy : x ≠ y := by
    rintro rfl
    rw [hx] at hy
    cases hy
  obtain ⟨h2, e2, hh2, hs2⟩ := construct_spec key hl.ok other.keyCompare alloc
  have hFx := hl.absent x hx
  rw [Rb.moveConstructAlloc, e2] at e1
  simp only [Option.bind_eq_bind, Option.bind_some] at e1
  split_ifs at e1 with ha
  · simp only [Option.pure_def, Option.some.injEq, Prod.mk.injEq] at e1
    obtain ⟨rfl, rfl, rfl⟩ := e1
    have hsize : other.size = 0 := by
      by_contra h0
      exact hn ⟨other, hy, ha.symm, h0⟩
    exact hl.takeHeader hxy hy hsize hh2 hs2
  · obtain ⟨F', S', h3, p, hp1, h4⟩ := hl.moveAll hxy hy (by rw [hFx]; exact hs2) hh2 e1
    refine ⟨F', S', h3, Or.inr ⟨p, hp1, ?_⟩, rfl⟩
    rw [hl.view_eq, hy, Option.bind_some] at hp1
    have hk : other.keyCompare = p.keyCompare := by
      rw [seqObj] at hp1
      split_ifs at hp1
      cases hp1
      rfl
    rw [← hk]
    exact h4

/-- **Every operation keeps the invariant**, unless it strands the nodes of its source. -/
theorem Layout.exec {l : Op V K × Answer} (hl : Layout key w F S) (hs : Step key tr dbg w l w')
    (hn : ¬ l.1.Strands w) : Keeps key w l w' := by
  obtain ⟨op, ans⟩ := l
  obtain ⟨hv, e⟩ := hs
  cases op with
  | construct x comp alloc => exact hl.construct e
  | copyConstruct x y =>
      simp only [Op.exec, Option.bind_eq_bind, Option.bind_eq_some_iff, Option.pure_def, Option.some.injEq,
        Prod.mk.injEq] at e
      obtain ⟨_, _, other, hy, ⟨h1, t1⟩, e1, rfl, rfl⟩ := e
      obtain ⟨F', S', h1, o, h2, h3⟩ := hl.copy hy e1
      exact ⟨F', S', h1, o, h2, h3, rfl⟩
  | copyConstructAlloc x y alloc =>
      simp only [Op.exec, Option.bind_eq_bind, Option.bind_eq_some_iff, Option.pure_def, Option.some.injEq,
        Prod.mk.injEq] at e
      obtain ⟨_, _, other, hy, ⟨h1, t1⟩, e1, rfl, rfl⟩ := e
      obtain ⟨F', S', h1, o, h2, h3⟩ := hl.copy hy e1
      exact ⟨F', S', h1, o, h2, h3, rfl⟩
  | moveConstruct x y => exact hl.moveConstruct e
  | moveConstructAlloc x y alloc => exact hl.moveConstructAlloc hn e
  | copyAssign x y => exact hl.copyAssign e
  | moveAssign x y => exact hl.moveAssign e
  | swap x y => exact hl.swap e
  | destruct x => exact hl.destruct e
  | on x op => exact hl.on hv e

end

end NeForce.Rb
