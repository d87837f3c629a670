import NeForce.RbWorld

/-! # What holds in every run

The runs considered start in the empty world and take valid steps (`Sound`): any operations on any
objects, but for the move constructor with an allocator where it strands the nodes of its source.

* `run_balanced`: every tree that is reached is a red-black tree, and every operation on it succeeds,
  in particular without failing the debug check for a null sibling;
* `run_refines`: the sequences of the trees evolve as those of sorted lists, and the lookups and
  iterators read them;
* `run_owned`: every node lies in a chunk of its own tree, and no chunk belongs to two trees.

Where the nodes of the source are stranded, the last property is lost (`stranded_not_owned`). -/

namespace NeForce.Rb

open Ctx RbNode

variable {V K : Type}

/-- The steps that do not strand nodes. -/
def Sound (key : V → K) (tr : Traits) (dbg : Bool) : World V K → Op V K × Answer → World V K → Prop :=
  Guarded (fun w l => ¬ l.1.Strands w) (Step key tr dbg)

section

variable {key : V → K} {tr : Traits} {dbg : Bool} {w w' : World V K} {ls : List (Op V K × Answer)} {t : RbTree K} {x : ℕ}

theorem start_view : (World.start : World V K).view = fun _ => none := rfl

theorem run_simulates (hr : Run (Sound key tr dbg) World.start ls w) :
    ∃ a, Run (SeqWorldStep key) (fun _ => none) ls a ∧ ∃ F S, Layout key w F S ∧ a = w.view := by
  refine hr.simulates (R := fun w a => ∃ F S, Layout key w F S ∧ a = w.view) ⟨_, _, start_layout, start_view.symm⟩ ?_
  rintro w l w' _ ⟨F, S, hl, rfl⟩ ⟨hn, hs⟩
  obtain ⟨F', S', hl', hstep⟩ := hl.exec hs hn
  exact ⟨_, hstep, F', S', hl', rfl⟩

theorem run_layout (hr : Run (Sound key tr dbg) World.start ls w) : ∃ F S, Layout key w F S := by
  obtain ⟨_, _, F, S, hl, _⟩ := run_simulates hr
  exact ⟨F, S, hl⟩

end

/-! ### Concrete programs -/

/-- Run a list of operations, and note their answers. -/
def World.execAll (key : V → K) (tr : Traits) (dbg : Bool) (w : World V K) :
    List (Op V K) → Option (World V K × List (Op V K × Answer))
  | [] => some (w, [])
  | op :: ops => do
      let (w, ans) ← op.exec key tr dbg w
      let (w, ls) ← w.execAll key tr dbg ops
      pure (w, (op, ans) :: ls)

/-- Operations without iterator arguments. -/
def Op.plain : Op V K → Bool
  | .on _ (.emplaceUniqueHint _ _) | .on _ (.emplaceEqualHint _ _) | .on _ (.eraseAt _)
  | .on _ (.eraseRange _ _) => false
  | _ => true

theorem Op.plain_valid {op : Op V K} (h : op.plain = true) (w : World V K) : op.Valid w := by
  cases op with
  | on x op => cases op <;> simp_all [Op.plain, Op.Valid, TreeOp.Valid]
  | _ => trivial

theorem World.execAll_run (key : V → K) (tr : Traits) (dbg : Bool) (w : World V K) {l : List (Op V K)}
    (hops : ∀ op ∈ l, op.plain = true) (he : (w.execAll key tr dbg l).isSome) :
    ∃ w' ls, w.execAll key tr dbg l = some (w', ls) ∧ ls.map Prod.fst = l ∧ Run (Step key tr dbg) w ls w' := by
  induction l generalizing w with
  | nil => exact ⟨w, [], rfl, rfl, .nil w⟩
  | cons op ops ih =>
      rw [execAll] at he ⊢
      cases e1 : op.exec key tr dbg w with
      | none => simp [e1] at he
      | some r =>
          obtain ⟨w1, ans⟩ := r
          simp only [e1, Option.bind_eq_bind, Option.bind_some] at he ⊢
          have he1 : (w1.execAll key tr dbg ops).isSome := by
            cases e2 : w1.execAll key tr dbg ops with
            | none => simp [e2] at he
            | some r => rfl
          obtain ⟨w', ls, e2, hls, hr⟩ := ih w1 (fun op h => hops op (by simp [h])) he1
          refine ⟨w', (op, ans) :: ls, by simp [e2], by simp [hls], .cons ⟨Op.plain_valid (hops op (by simp)) w, e1⟩ hr⟩

/-- An allocator that never propagates. -/
def plainTraits : Traits := ⟨false, false, false, id⟩

/-- Three insertions, a removal, a copy and a move. -/
def sampleOps : List (Op ℕ ℕ) :=
  [.construct 0 natOrder 7, .on 0 (.emplaceUnique 5), .on 0 (.emplaceEqual 3), .on 0 (.emplaceEqual 5),
    .on 0 (.eraseKey 3), .copyConstruct 1 0, .moveConstruct 2 0, .on 1 .clear]

theorem sample_run : ∃ w ls t, World.start.execAll id plainTraits true sampleOps = some (w, ls) ∧
    Run (Sound id plainTraits true) World.start ls w ∧ w.objs 2 = some t ∧ t.header ≠ 0 := by
  obtain ⟨w, ls, e, hls, hr⟩ := World.execAll_run id plainTraits true World.start
    (l := sampleOps) (by decide) (by decide)
  have hobj : ((World.start.execAll id plainTraits true sampleOps).bind fun r => (r.1.objs 2).map (·.header)) = some 1 := by
    decide
  rw [e, Option.bind_some, Option.map_eq_some_iff] at hobj
  obtain ⟨t, ht, h1⟩ := hobj
  refine ⟨w, ls, t, e, hr.guard fun l hl w => ?_, ht, by omega⟩
  have hm : l.1 ∈ sampleOps := by
    rw [← hls]
    exact List.mem_map_of_mem hl
  simp only [sampleOps, List.mem_cons, List.not_mem_nil, or_false] at hm
  rcases hm with h | h | h | h | h | h | h | h <;> rw [h] <;> exact id

/-! ### Balance -/

/-- The memory below the header is a red-black tree with logarithmic height: its nodes carry the
colours of `T` and are linked as in `T`, parents included. -/
structure RbInvariant (h : Heap V) (t : RbTree K) (T : Tree ℕ) : Prop where
  root : getParent h t.header = some (ptr T)
  linked : Linked h t.header T
  nodup : (t.header :: T.inorder).Nodup
  rootBlack : T.color = .black
  headerRed : getColor h t.header = some .red
  balanced : ∃ n, T.RB n
  leftmost : getChild .left h t.header = some (T.inorder.headD t.header)
  rightmost : getChild .right h t.header = some (T.inorder.getLastD t.header)
  size : t.size = T.inorder.length
  height : T.height ≤ 2 * Nat.log 2 (t.size + 1)

section

variable {key : V → K} {tr : Traits} {dbg : Bool} {w : World V K} {ls : List (Op V K × Answer)} {t : RbTree K} {x : ℕ}
  {h : Heap V} {s : List (ℕ × V)} {T : Tree ℕ}

theorem TreeAt.invariant (hT : TreeAt key h t s T) : RbInvariant h t T := by
  obtain ⟨m, hm, hc, he⟩ := hT.ends
  have hl := hT.linked.labels
  rw [plug_nil] at hl
  have hroot := hT.linked.getParent_header
  rw [plug_nil] at hroot
  obtain ⟨n, hn⟩ := hT.balanced
  refine ⟨hroot, hT.linked.tree, by rw [hl]; exact hT.linked.nodup, hT.black, by rw [getColor_eq hm, hc], ⟨n, hn⟩,
    ?_, ?_, by rw [hT.size, hT.length_inorder], ?_⟩
  · rw [getChild_eq _ hm, he .left, hl]
    rfl
  · rw [getChild_eq _ hm, he .right, hl]
    rfl
  · have := Tree.height_le hn hT.black
    rwa [hT.length_inorder, ← hT.size] at this

/-- **Every tree that is reached is a red-black tree**, and every valid operation on it succeeds
with and without the debug checks. -/
theorem run_balanced (hr : Run (Sound key tr dbg) World.start ls w) (hx : w.objs x = some t) (ht : t.header ≠ 0) :
    (∃ T, RbInvariant w.heap t T) ∧
      ∀ (op : TreeOp V K), op.Valid w.heap t → ∀ check, (op.exec key check w.heap t).isSome := by
  obtain ⟨F, S, hl⟩ := run_layout hr
  have hh := (hl.alive x t hx).holds ht
  obtain ⟨T, hT⟩ := hh.1
  refine ⟨⟨T, hT.invariant⟩, fun op hv check => ?_⟩
  obtain ⟨h', t', ans, _, _, e, _⟩ := op.exec_spec check hl.ok hh hv
  rw [e]
  rfl

theorem run_balanced_sample : ∃ w : World ℕ ℕ, ∃ t, w.objs 2 = some t ∧ (∃ T, RbInvariant w.heap t T) ∧
    ∀ (op : TreeOp ℕ ℕ), op.Valid w.heap t → ∀ check, (op.exec id check w.heap t).isSome := by
  obtain ⟨w, ls, t, _, hr, hx, ht⟩ := sample_run
  exact ⟨w, t, hx, run_balanced hr hx ht⟩

/-! ### Sequences -/

/-- **The trees refine sorted sequences.** -/
theorem run_refines (hr : Run (Sound key tr dbg) World.start ls w) :
    Run (SeqWorldStep key) (fun _ => none) ls w.view ∧
      ∀ x t, w.objs x = some t → t.header ≠ 0 → ∃ s, elements w.heap t = some s ∧
        w.view x = some ⟨t.keyCompare, t.header, s⟩ ∧ Sorted t.keyCompare (fun e => key e.2) s ∧
        (t.header :: s.map Prod.fst).Nodup ∧ ∀ check, Lookups t.keyCompare key check w.heap t s := by
  obtain ⟨_, ha, F, S, hl, rfl⟩ := run_simulates hr
  refine ⟨ha, fun x t hx ht => ?_⟩
  have hh := (hl.alive x t hx).holds ht
  obtain ⟨T, hT⟩ := hh.1
  refine ⟨S x, hT.elements_eq hl.ok, ?_, hT.sorted, hh.2.nodup, fun check => hT.lookups check hl.ok⟩
  rw [hl.view_eq, hx, Option.bind_some, hh.seqObj_eq hl.ok]

theorem run_refines_sample : ∃ (w : World ℕ ℕ) (ls : List (Op ℕ ℕ × Answer)),
    Run (SeqWorldStep id) (fun _ => none) ls w.view ∧
      ∃ t s, w.objs 2 = some t ∧ w.view 2 = some ⟨t.keyCompare, t.header, s⟩ ∧
        Lookups t.keyCompare id true w.heap t s := by
  obtain ⟨w, ls, t, _, hr, hx, ht⟩ := sample_run
  obtain ⟨h1, h2⟩ := run_refines hr
  obtain ⟨s, _, hv, _, _, hl⟩ := h2 2 t hx ht
  exact ⟨w, ls, h1, t, s, hx, hv, hl true⟩

end

/-! ### Ownership -/

/-- The nodes linked in a tree; an object without a header links none. -/
def linkedNodes (h : Heap V) (t : RbTree K) : Option (List ℕ) :=
  if t.header = 0 then some [] else (elements h t).map (·.map Prod.fst)

/-- The nodes linked in the tree and those on its free list are different, and lie in its chunks. -/
structure OwnsNodes (h : Heap V) (t : RbTree K) (nodes free chunks : List ℕ) : Prop where
  linked : linkedNodes h t = some nodes
  freeList : Chain h t.freeNodes free
  chunkList : Chain h t.nodeChunks chunks
  inChunk : ∀ a ∈ nodes ++ free, ∃ c ∈ chunks, a ∈ slots c
  nodup : (nodes ++ free).Nodup

/-- Every object owns its nodes, and no chunk belongs to two objects. -/
def Ownership (w : World V K) : Prop :=
  ∃ nodes free chunks : ℕ → List ℕ,
    (∀ x t, w.objs x = some t → OwnsNodes w.heap t (nodes x) (free x) (chunks x)) ∧
    ∀ x y, (w.objs x).isSome → (w.objs y).isSome → x ≠ y → ∀ c ∈ chunks x, ∀ d ∈ chunks y, (cells c).Disjoint (cells d)

/-- Destroying or clearing an object leaves the header and the nodes of the others in place. -/
def NoUseAfterFree (key : V → K) (tr : Traits) (dbg : Bool) (w : World V K) : Prop :=
  ∀ x l w', l.1 = .destruct x ∨ l.1 = .on x .clear → Step key tr dbg w l w' →
    ∀ y u, y ≠ x → w.objs y = some u → u.header ≠ 0 → w'.objs y = some u ∧
      ∃ nodes, linkedNodes w.heap u = some nodes ∧ linkedNodes w'.heap u = some nodes ∧
        ∀ a ∈ u.header :: nodes, (w'.heap.load a).isSome ∧ w'.heap.load a = w.heap.load a

section

variable {key : V → K} {tr : Traits} {dbg : Bool} {w : World V K} {ls : List (Op V K × Answer)} {t : RbTree K} {x : ℕ}
  {h : Heap V} {s : List (ℕ × V)} {F : ℕ → List ℕ} {S : ℕ → List (ℕ × V)} {L : List ℕ}

theorem Alive.ownsNodes (hok : h.Ok) (ha : Alive key h t s L) :
    ∃ free chunks, OwnsNodes h t (s.map Prod.fst) free chunks ∧ ∀ b ∈ chunks.flatMap cells, b ∈ L := by
  rcases ha with ⟨hv, rfl, rfl⟩ | hh
  · exact ⟨[], [], ⟨by rw [linkedNodes, if_pos hv.header]; rfl, hv.freeNodes, hv.nodeChunks, by simp, by simp⟩, by simp⟩
  · have hne := hh.header_ne hok
    obtain ⟨⟨T, hT⟩, free, chunks, hp, _, rfl⟩ := hh
    refine ⟨free, chunks, ⟨?_, hp.freeList, hp.chunkList, fun a ha => ?_, hp.nodup_nodes⟩, fun b hb =>
      List.mem_cons_of_mem _ hb⟩
    · rw [linkedNodes, if_neg hne, hT.elements_eq hok]
      rfl
    · exact List.mem_flatMap.mp (hp.perm.mem_iff.mp ha)

theorem Layout.ownership (hl : Layout key w F S) : Ownership w := by
  have hex : ∀ x, ∃ free chunks : List ℕ, (∀ t, w.objs x = some t →
      OwnsNodes w.heap t ((S x).map Prod.fst) free chunks) ∧ ∀ b ∈ chunks.flatMap cells, b ∈ F x := by
    intro x
    cases hx : w.objs x with
    | none => exact ⟨[], [], by simp, by simp⟩
    | some t =>
        obtain ⟨free, chunks, ho, hF⟩ := (hl.alive x t hx).ownsNodes hl.ok
        exact ⟨free, chunks, fun t e => by cases e; exact ho, hF⟩
  choose free chunks ho hF using hex
  refine ⟨fun x => (S x).map Prod.fst, free, chunks, ho, fun x y _ _ hxy c hc d hd a ha ha' => ?_⟩
  exact hl.disjoint x y hxy a (hF x a (List.mem_flatMap.mpr ⟨c, hc, ha⟩)) (hF y a (List.mem_flatMap.mpr ⟨d, hd, ha'⟩))

theorem Layout.noUseAfterFree (hl : Layout key w F S) : NoUseAfterFree key tr dbg w := by
  rintro x ⟨op, ans⟩ w' hop hs y u hyx hy hu
  have hh := (hl.alive y u hy).holds hu
  -- the step keeps to the cells of `x`
  have hst : ∃ G, Stays w.heap w'.heap (F x) G ∧ w'.objs y = some u := by
    rcases hop with rfl | rfl
    · have e := hs.2
      simp only [Op.exec, Option.bind_eq_bind, Option.bind_eq_some_iff, Option.pure_def, Option.some.injEq,
        Prod.mk.injEq] at e
      obtain ⟨t, hx, h1, e1, rfl, _⟩ := e
      obtain ⟨h2, e2, hs2⟩ := (hl.alive x t hx).destruct_spec hl.ok
      rw [e1, Option.some.injEq] at e2
      subst e2
      exact ⟨[], hs2, by simp [World.put, Function.update_of_ne hyx, hy]⟩
    · have e := hs.2
      simp only [Op.exec, Option.bind_eq_bind, Option.bind_eq_some_iff, Option.pure_def, Option.some.injEq,
        Prod.mk.injEq, TreeOp.exec, Option.map_eq_some_iff] at e
      obtain ⟨t, hx, _, ⟨⟨h1, t1⟩, e1, rfl⟩, rfl, _⟩ := e
      rcases hl.alive x t hx with ⟨hv, _⟩ | hht
      · rw [hv.clear_eq, Option.some.injEq, Prod.mk.injEq] at e1
        obtain ⟨rfl, rfl⟩ := e1
        exact ⟨F x, Stays.refl hl.ok _, by simp [World.put, Function.update_of_ne hyx, hy]⟩
      · obtain ⟨h2, t2, f, e2, r, _⟩ := clear_spec hl.ok hht
        rw [e1] at e2
        simp only [Option.some.injEq, Prod.mk.injEq] at e2
        obtain ⟨rfl, rfl⟩ := e2
        exact ⟨f, r.stays, by simp [World.put, Function.update_of_ne hyx, hy]⟩
  obtain ⟨G, hst, hy'⟩ := hst
  obtain ⟨hh', hd⟩ := hh.aside hl.ok hst (hl.disjoint y x hyx)
  obtain ⟨T, hT⟩ := hh.1
  obtain ⟨T', hT'⟩ := hh'.1
  refine ⟨hy', (S y).map Prod.fst, ?_, ?_, fun a ha => ?_⟩
  · rw [linkedNodes, if_neg hu, hT.elements_eq hl.ok]
    rfl
  · rw [linkedNodes, if_neg hu, hT'.elements_eq hst.ok]
    rfl
  · have hF : a ∈ F y := by
      rcases List.mem_cons.mp ha with rfl | ha
      · exact hh.2.header_mem
      · exact hh.2.used_mem a ha
    have e := hst.load_eq hl.ok (hl.disjoint y x hyx a hF) (hh.isSome a hF)
    exact ⟨e ▸ hh.isSome a hF, e⟩

/-- **Every node lies in a chunk of its own tree, no chunk belongs to two trees**, and so no object
frees what another one links. -/
theorem run_owned (hr : Run (Sound key tr dbg) World.start ls w) :
    Ownership w ∧ NoUseAfterFree key tr dbg w := by
  obtain ⟨F, S, hl⟩ := run_layout hr
  exact ⟨hl.ownership, hl.noUseAfterFree⟩

theorem run_owned_sample : ∃ w : World ℕ ℕ, (w.objs 2).isSome ∧ Ownership w ∧ NoUseAfterFree id plainTraits true w := by
  obtain ⟨w, ls, t, _, hr, hx, _⟩ := sample_run
  exact ⟨w, by simp [hx], run_owned hr⟩

/-- The element of object `0` moves to object `1`, its chunk does not. -/
theorem stranded_not_owned : ∃ (w : World ℕ ℕ) (ls : List (Op ℕ ℕ × Answer)),
    Run (Step id plainTraits true) World.start ls w ∧ ¬ Ownership w := by
  have hops : ∀ op ∈ ([.construct 0 natOrder 7, .on 0 (.emplaceEqual 5), .moveConstructAlloc 1 0 7] : List (Op ℕ ℕ)),
      op.plain = true := by decide
  obtain ⟨w, ls, e, _, hr⟩ := World.execAll_run id plainTraits true World.start hops
    (by decide)
  have hobj : ((World.start.execAll id plainTraits true
      ([.construct 0 natOrder 7, .on 0 (.emplaceEqual 5), .moveConstructAlloc 1 0 7] : List (Op ℕ ℕ))).bind fun r =>
      (r.1.objs 1).map fun t => (t.nodeChunks, linkedNodes r.1.heap t, (r.1.heap.load 0).isNone)) =
      some (0, some [3], true) := by decide
  rw [e, Option.bind_some, Option.map_eq_some_iff] at hobj
  obtain ⟨t, hx, h1⟩ := hobj
  simp only [Prod.mk.injEq, Option.isNone_iff_eq_none] at h1
  refine ⟨w, ls, hr, ?_⟩
  rintro ⟨nodes, free, chunks, ho, _⟩
  have ho1 := ho 1 t hx
  have hnodes : nodes 1 = [3] := by
    have := ho1.linked.symm.trans h1.2.1
    exact Option.some.inj this
  obtain ⟨c, hc, _⟩ := ho1.inChunk 3 (by simp [hnodes])
  have hch := ho1.chunkList
  rw [h1.1] at hch
  cases hl : chunks 1 with
  | nil => simp [hl] at hc
  | cons d l =>
      rw [hl] at hch
      obtain ⟨rfl, n, hn, _⟩ := hch
      rw [h1.2.2] at hn
      cases hn

end

end NeForce.Rb
