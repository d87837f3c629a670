import NeForce.RbInsertion

/-! # Removal

`erase(iterator)` takes one element out and leaves the others in place (`eraseAt_spec`); the loop of
`erase(first, last)` does so for a segment (`eraseRange_spec`), `clear` for all elements, after
which it gives the chunks back (`clear_spec`), and `erase(key)` for the elements between the
bounds of the key (`eraseKey_spec`). -/

namespace NeForce.Rb

open Ctx RbNode

variable {V K : Type} {key : V → K} {h : Heap V} {t : RbTree K} {s s₁ s₂ m : List (ℕ × V)} {T : Tree ℕ}
  {F : List ℕ} {a : ℕ} {v : V} {k : K}

/-- What a removal that leaves `s` has done. -/
structure Removed (key : V → K) (h h' : Heap V) (t t' : RbTree K) (s : List (ℕ × V)) (F F' : List ℕ) :
    Prop where
  holds : Holds key h' t' s F'
  stays : Stays h h' F F'
  same : SameObject t t'

theorem destroyNode_size (h : Heap V) (t : RbTree K) (a n : ℕ) :
    destroyNode h { t with size := n } a = (destroyNode h t a).map fun r => (r.1, { r.2 with size := n }) := by
  unfold destroyNode
  split_ifs
  · rfl
  · cases h1 : destroyData h a with
    | none => rfl
    | some h2 =>
        simp only [Option.bind_eq_bind, Option.bind_some]
        cases h3 : h2.update a (fun x => x.setChild .right t.freeNodes) <;> rfl

/-- **`erase(iterator)`** -/
theorem eraseAt_spec (dbg : Bool) {e : ℕ × V} (hok : h.Ok) (hh : Holds key h t (s₁ ++ e :: s₂) F) :
    ∃ h' t', eraseAt dbg h t e.1 = some (h', t') ∧ Removed key h h' t t' (s₁ ++ s₂) F F := by
  obtain ⟨⟨T, hT⟩, ho⟩ := hh
  obtain ⟨ctx, c, tl, tr, rfl, hat, e1, e2⟩ := hT.focus
  obtain ⟨n, hrb⟩ := hT.balanced
  obtain ⟨h1, T', m, er, hat1, hT1, hb1, hends1, w1⟩ := eraseRebalance_at dbg hok hat hT.ends hrb hT.black
  have hnd := (List.nodup_cons.mp hT.linked.nodup).2
  have hl : ((s₁ ++ e :: s₂).map Prod.fst).erase e.1 = (s₁ ++ s₂).map Prod.fst := by
    rw [List.map_append, List.map_cons] at hnd ⊢
    rw [List.erase_append_right _ fun hm => (List.nodup_append.mp hnd).2.2 e.1 hm e.1 (by simp) rfl,
      List.erase_cons_head, List.map_append]
  rw [hl] at hat1 hends1
  have hloose : Loose key h1 { t with size := t.size - 1 } (s₁ ++ s₂) F e.1 e.2 := by
    refine ⟨⟨T', hat1, ⟨m, hT1⟩, hb1, hends1, fun p hp => ?_, ?_, ?_⟩, ?_, ?_⟩
    · rw [w1.getData_eq]
      refine hT.data p ?_
      simp only [List.mem_append, List.mem_cons] at hp ⊢
      tauto
    · exact Sorted.sublist hT.sorted ((List.sublist_cons_self e s₂).append_left s₁)
    · have := hT.size
      simp only [List.length_append, List.length_cons] at this ⊢
      omega
    · refine (ho.within (u := { t with size := t.size - 1 }) w1 (fun b hb => hb) rfl rfl rfl).of_perm ?_
      rw [List.map_append, List.map_append, List.map_cons]
      exact List.perm_middle.symm
    · rw [w1.getData_eq]
      exact hT.data e (by simp)
  obtain ⟨h2, t2, e2', hh2, hs2, so2⟩ := hloose.destroyNode_spec (w1.ok hok)
  rw [destroyNode_size, Option.map_eq_some_iff] at e2'
  obtain ⟨⟨h2', t2'⟩, e3, e4⟩ := e2'
  obtain ⟨rfl, rfl⟩ := Prod.mk.inj e4
  have hsize : t2'.size = t.size := by
    unfold destroyNode at e3
    split_ifs at e3
    · obtain ⟨_, rfl⟩ := Prod.mk.inj (Option.some.inj e3)
      rfl
    · simp only [Option.bind_eq_bind, Option.bind_eq_some_iff, Option.pure_def] at e3
      obtain ⟨_, _, _, _, e5⟩ := e3
      obtain ⟨_, rfl⟩ := Prod.mk.inj (Option.some.inj e5)
      rfl
  refine ⟨h2', { t2' with size := t.size - 1 }, ?_, hh2, (ho.stays hok w1 fun b hb => hb).trans hs2,
    ⟨so2.header, so2.keyCompare, so2.alloc⟩⟩
  rw [eraseAt, er]
  simp only [Option.bind_eq_bind, Option.bind_some, e3, hsize]
  rfl

/-! ### `clear` -/

/-- `erase_under` destroys the values of a subtree and returns its nodes. -/
theorem eraseUnder_spec {p n : ℕ} {rest free chunks : List ℕ} (hok : h.Ok) (hT : Linked h p T)
    (hp : Pool h t (T.inorder ++ rest) free chunks) (hn : T.inorder.length < n) :
    ∃ h' q free', eraseUnder n h t (ptr T) = some (h', { t with freeNodes := q }) ∧
      Pool h' { t with freeNodes := q } rest free' chunks ∧
      (∀ b, b ∉ T.inorder → h'.load b = h.load b) ∧ h'.Ok ∧ h'.next = h.next := by
  induction T generalizing h t p n rest free with
  | nil =>
      obtain ⟨n, rfl⟩ : ∃ j, n = j + 1 := ⟨n - 1, by simp at hn; omega⟩
      exact ⟨h, t.freeNodes, free, by simp [eraseUnder], hp, fun _ _ => rfl, hok, rfl⟩
  | node c l a r ihl ihr =>
      obtain ⟨n, rfl⟩ : ∃ j, n = j + 1 := ⟨n - 1, by omega⟩
      obtain ⟨⟨v, hv⟩, hl, hr⟩ := hT
      have hlen : l.inorder.length < n ∧ r.inorder.length < n := by
        simp only [Tree.inorder_node, List.length_append, List.length_cons] at hn
        omega
      have hnd := (List.nodup_append.mp hp.nodup_nodes).1
      rw [Tree.inorder_node] at hnd
      have hdis : a ∉ l.inorder ∧ a ∉ r.inorder ∧ ∀ b ∈ l.inorder, b ∉ r.inorder := by
        simp only [List.nodup_append, List.nodup_cons, List.mem_append, List.mem_cons] at hnd
        grind
      -- the right subtree, the left subtree, the node
      have hp1 : Pool h t (r.inorder ++ (l.inorder ++ a :: rest)) free chunks := by
        refine hp.of_perm ?_
        rw [Tree.inorder_node, List.append_assoc]
        refine List.perm_append_comm.trans ?_
        rw [List.append_assoc]
        refine List.Perm.append_left _ ?_
        rw [List.cons_append]
        exact List.Perm.cons a List.perm_append_comm
      obtain ⟨h1, q1, free1, e1, hp1', f1, hok1, n1⟩ := ihr hok hr hp1 hlen.2
      obtain ⟨h2, q2, free2, e2, hp2, f2, hok2, n2⟩ := ihl (t := { t with freeNodes := q1 }) hok1
        (hl.congr fun b hb => f1 b (hdis.2.2 b hb)) hp1' hlen.1
      have h1a : h1.load a = some ⟨c, p, ptr l, ptr r, some v⟩ := by rw [f1 a hdis.2.1, hv]
      have h2a : h2.load a = some ⟨c, p, ptr l, ptr r, some v⟩ := by rw [f2 a hdis.1, h1a]
      obtain ⟨h3, e3, hp3, hs3, f3, n3⟩ := destroyNode_pool hok2 hp2 h2a rfl
      refine ⟨h3, a, a :: free2, ?_, hp3, fun b hb => ?_, hs3.ok, by rw [n3, n2, n1]⟩
      · rw [eraseUnder, ptr_node, if_neg (hok.ne_zero hv), getChild_eq _ hv]
        simp only [Option.bind_eq_bind, Option.bind_some, child, e1, getChild_eq _ h1a, e2, e3]
      · simp only [Tree.inorder_node, List.mem_append, List.mem_cons] at hb
        push Not at hb
        rw [f3 b hb.2.1, f2 b hb.1, f1 b hb.2.2]

theorem TreeAt.empty {n : RbNode V} (hok : h.Ok) (hn : h.load t.header = some n) (hc : n.color = .red)
    (hp : n.parent = 0) (hl : n.left = t.header) (hr : n.right = t.header) (hs : t.size = 0) :
    TreeAt key h t [] .nil where
  linked := ⟨trivial, ⟨n, hn, hp⟩, rfl, by simp, hok.null⟩
  balanced := ⟨0, rfl⟩
  black := rfl
  ends := ⟨n, hn, hc, fun s => by cases s <;> assumption⟩
  data := by simp
  sorted := List.Pairwise.nil
  size := hs

/-- **`clear`** -/
theorem clear_spec (hok : h.Ok) (hh : Holds key h t s F) :
    ∃ h' t' F', clear h t = some (h', t') ∧ Removed key h h' t t' [] F F' ∧
      (s = [] → h' = h ∧ t' = t) ∧ (s ≠ [] → F' = [t.header] ∧ t'.freeNodes = 0 ∧ t'.nodeChunks = 0) := by
  have hh' := hh
  obtain ⟨⟨T, hT⟩, free, chunks, hp, hd, rfl⟩ := hh
  obtain ⟨n, hn, hc, _⟩ := hT.ends
  have hh0 := hok.ne_zero hn
  by_cases hs : s = []
  · subst hs
    refine ⟨h, t, _, ?_, ⟨hh', Stays.refl hok _, SameObject.refl t⟩, fun _ => ⟨rfl, rfl⟩, fun hne => absurd rfl hne⟩
    rw [clear, if_neg hh0, if_pos (show t.size = 0 from hT.size)]
  · have hin := hT.linked.labels
    rw [plug_nil] at hin
    have hp' : Pool h t (T.inorder ++ []) free chunks := by
      rw [List.append_nil, hin]
      exact hp
    have hlen := hT.length_lt hok
    have hlen' := hT.length_inorder
    obtain ⟨h1, q, free1, e1, hp1, f1, hok1, n1⟩ := eraseUnder_spec (n := walkBound h) hok hT.linked.tree hp'
      (by unfold walkBound; omega)
    have hhd : t.header ∉ T.inorder := by
      rw [hin]
      exact (List.nodup_cons.mp hT.linked.nodup).1
    have hn1 : h1.load t.header = some n := (f1 _ hhd).trans hn
    set h2 := h1.set t.header (n.setChild .left t.header) with hh2
    have hn2 : h2.load t.header = some (n.setChild .left t.header) := by rw [hh2, Mem.load_set, if_pos rfl]
    set h3 := h2.set t.header ((n.setChild .left t.header).setParent 0) with hh3
    have hn3 : h3.load t.header = some ((n.setChild .left t.header).setParent 0) := by
      rw [hh3, Mem.load_set, if_pos rfl]
    set h4 := h3.set t.header (((n.setChild .left t.header).setParent 0).setChild .right t.header) with hh4
    have hn4 : h4.load t.header =
        some (((n.setChild .left t.header).setParent 0).setChild .right t.header) := by
      rw [hh4, Mem.load_set, if_pos rfl]
    have f4 : ∀ b, b ≠ t.header → h4.load b = h1.load b := fun b hb => by
      rw [hh4, Mem.load_set, if_neg hb, hh3, Mem.load_set, if_neg hb, hh2, Mem.load_set, if_neg hb]
    have hok4 : h4.Ok := by
      refine hok1.of_isSome (fun b => ?_) rfl
      by_cases hb : b = t.header
      · rw [hb, hn4, hn1]
        rfl
      · rw [f4 b hb]
    have hp4 : Pool h4 { t with freeNodes := q, size := 0 } [] free1 chunks := by
      refine hp1.congr (fun b hb => f4 b ?_) (by simp) rfl rfl
      rintro rfl
      refine hd ?_
      rcases hb with hb | hb
      · exact hp1.mem_cells_of_mem (by simpa using hb)
      · exact List.mem_flatMap.mpr ⟨t.header, hb, by simp [cells]⟩
    obtain ⟨h5, e5, hok5, n5, f5⟩ := releaseNodes_pool hok4 hp4
    have hn5 : h5.load t.header =
        some (((n.setChild .left t.header).setParent 0).setChild .right t.header) := by
      rw [f5, if_neg hd, hn4]
    refine ⟨h5, { t with size := 0, freeNodes := 0, nodeChunks := 0 }, [t.header], ?_, ⟨⟨⟨.nil, TreeAt.empty hok5 hn5 (by simp [hc]) rfl rfl rfl rfl⟩, [], [],
      Pool.empty h5 rfl rfl, by simp, rfl⟩, ⟨?_, ?_, ?_, hok5⟩, ⟨rfl, rfl, rfl⟩⟩, fun h => absurd h hs,
      fun _ => ⟨rfl, rfl, rfl⟩⟩
    · rw [clear, if_neg hh0, if_neg (hT.size_ne_zero.mpr hs), hT.linked.getParent_header, plug_nil]
      simp only [Option.bind_eq_bind, Option.bind_some, e1, Mem.update_eq hn1, ← hh2, Mem.update_eq hn2, ← hh3,
        Mem.update_eq hn3, ← hh4]
      exact e5
    · intro b _ hb
      rw [footprint, List.mem_cons] at hb
      push Not at hb
      rw [f5, if_neg hb.2, f4 b hb.1, f1 b]
      intro hm
      exact hb.2 (hp'.mem_cells_of_mem (by simp [hm]))
    · intro b hb
      rw [List.mem_singleton] at hb
      exact Or.inl (by simp [footprint, hb])
    · rw [n5]
      exact le_of_eq n1.symm

/-! ### Ranges -/

theorem firstOr_congr {t t' : RbTree K} (so : SameObject t t') (s : List (ℕ × V)) : firstOr t' s = firstOr t s := by
  rw [firstOr, firstOr, so.header]

/-- The loop of `erase(first, last)`. -/
theorem eraseRangeLoop_spec (dbg : Bool) {n : ℕ} (hok : h.Ok) (hh : Holds key h t (s₁ ++ (m ++ s₂)) F)
    (hn : m.length < n) :
    ∃ h' t', eraseRangeLoop dbg n h t (firstOr t (m ++ s₂)) (firstOr t s₂) = some (h', t') ∧
      Removed key h h' t t' (s₁ ++ s₂) F F := by
  induction m generalizing h t n with
  | nil =>
      obtain ⟨n, rfl⟩ : ∃ j, n = j + 1 := ⟨n - 1, by simp at hn; omega⟩
      exact ⟨h, t, by simp [eraseRangeLoop], hh, Stays.refl hok F, SameObject.refl t⟩
  | cons e m ih =>
      obtain ⟨n, rfl⟩ : ∃ j, n = j + 1 := ⟨n - 1, by simp at hn; omega⟩
      obtain ⟨T, hT⟩ := hh.1
      rw [List.cons_append] at hT hh ⊢
      have hne : e.1 ≠ firstOr t s₂ := by
        cases s₂ with
        | nil => exact hT.ne_header (by simp)
        | cons e' s₂ =>
            intro he
            have hnd := (List.nodup_cons.mp hT.linked.nodup).2
            rw [firstOr_cons] at he
            simp [List.nodup_append, he] at hnd
      obtain ⟨h1, t1, e1, r1⟩ := eraseAt_spec dbg hok hh
      obtain ⟨h2, t2, e2, r2⟩ := ih r1.stays.ok r1.holds (by simpa using hn)
      rw [firstOr_congr r1.same, firstOr_congr r1.same] at e2
      refine ⟨h2, t2, ?_, r2.holds, r1.stays.trans r2.stays, r1.same.trans r2.same⟩
      rw [eraseRangeLoop, firstOr_cons, if_neg hne, hT.iterIncrement_eq hok]
      simp only [Option.bind_eq_bind, Option.bind_some, e1, e2]

/-- **`erase(first, last)`** on the segment `m` of the sequence. -/
theorem eraseRange_spec (dbg : Bool) (hok : h.Ok) (hh : Holds key h t (s₁ ++ (m ++ s₂)) F) :
    ∃ h' t' F', eraseRange dbg h t (firstOr t (m ++ s₂)) (firstOr t s₂) = some (h', t') ∧
      Removed key h h' t t' (s₁ ++ s₂) F F' := by
  obtain ⟨T, hT⟩ := hh.1
  have hnd := (List.nodup_cons.mp hT.linked.nodup).2
  rw [eraseRange, hT.begin_eq]
  simp only [Option.bind_eq_bind, Option.bind_some]
  by_cases hall : firstOr t (m ++ s₂) = firstOr t (s₁ ++ (m ++ s₂)) ∧ firstOr t s₂ = t.header
  · rw [if_pos hall]
    have h2 : s₂ = [] := by
      cases s₂ with
      | nil => rfl
      | cons e s₂ => exact absurd hall.2 (hT.ne_header (e := e) (by simp))
    have h1 : s₁ = [] := by
      cases s₁ with
      | nil => rfl
      | cons e s₁ =>
          have he := hall.1
          rw [List.cons_append, firstOr_cons] at he
          cases hm : m ++ s₂ with
          | nil =>
              rw [hm, firstOr_nil] at he
              exact absurd he.symm (hT.ne_header (e := e) (by simp))
          | cons e' m' =>
              rw [hm, firstOr_cons] at he
              rw [hm] at hnd
              simp [he] at hnd
    subst h1 h2
    obtain ⟨h', t', F', e, r, _⟩ := clear_spec hok hh
    exact ⟨h', t', F', e, r⟩
  · rw [if_neg hall]
    have hlen := hT.length_lt hok
    simp only [List.length_append] at hlen
    obtain ⟨h', t', e, r⟩ := eraseRangeLoop_spec dbg (n := walkBound h) hok hh (by unfold walkBound; omega)
    exact ⟨h', t', F, e, r⟩

/-- `distance` counts the elements of a segment. -/
theorem TreeAt.distance_eq (dbg : Bool) {n j : ℕ} (hT : TreeAt key h t (s₁ ++ (m ++ s₂)) T) (hok : h.Ok)
    (hn : m.length < n) :
    distance dbg h t n (firstOr t (m ++ s₂)) (firstOr t s₂) j = some (j + m.length) := by
  induction m generalizing s₁ n j with
  | nil =>
      obtain ⟨n, rfl⟩ : ∃ i, n = i + 1 := ⟨n - 1, by simp at hn; omega⟩
      simp [distance]
  | cons e m ih =>
      obtain ⟨n, rfl⟩ : ∃ i, n = i + 1 := ⟨n - 1, by simp at hn; omega⟩
      rw [List.cons_append] at hT ⊢
      have hne : e.1 ≠ firstOr t s₂ := by
        cases s₂ with
        | nil => exact hT.ne_header (by simp)
        | cons e' s₂ =>
            intro he
            have hnd := (List.nodup_cons.mp hT.linked.nodup).2
            rw [firstOr_cons] at he
            simp [List.nodup_append, he] at hnd
      rw [distance, firstOr_cons, if_neg hne, hT.iterIncrement_eq hok]
      simp only [Option.bind_eq_bind, Option.bind_some]
      have hT' : TreeAt key h t ((s₁ ++ [e]) ++ (m ++ s₂)) T := by simpa using hT
      rw [ih hT' (by simpa using hn), List.length_cons]
      congr 1
      omega

/-- **`erase(key)`** removes the elements between the bounds of the key and counts them. -/
theorem eraseKey_spec (dbg : Bool) (hok : h.Ok) (hh : Holds key h t s F)
    (h₁ : Cut (notBelow t.keyCompare (fun e : ℕ × V => key e.2) k) s s₁ (m ++ s₂))
    (h₂ : Cut (above t.keyCompare (fun e : ℕ × V => key e.2) k) s (s₁ ++ m) s₂) :
    ∃ h' t' F', eraseKey key dbg h t k = some (h', t', m.length) ∧
      Removed key h h' t t' (s₁ ++ s₂) F F' := by
  obtain ⟨T, hT⟩ := hh.1
  have hl := hT.lowerBound_eq hok h₁
  have hu := hT.upperBound_eq hok h₂
  obtain rfl := h₁.eq
  have hlen := hT.length_lt hok
  simp only [List.length_append] at hlen
  have hdist := hT.distance_eq dbg (n := walkBound h) (j := 0) hok (by unfold walkBound; omega)
  rw [Nat.zero_add] at hdist
  obtain ⟨h', t', F', e, r⟩ := eraseRange_spec dbg hok hh
  refine ⟨h', t', F', ?_, r⟩
  rw [eraseKey, equalRange, hl, hu]
  simp only [Option.bind_eq_bind, Option.bind_some, Option.pure_def, hdist, e]

end NeForce.Rb
