import NeForce.RbRemoval

/-! # Copying a tree

`CopyOf h h' p S D` says that the tree `D` in `h'`, hanging on `p`, has the shape, the colours and
the values of `S` in `h`.  `copy_under` and its loop down the left spine produce such a copy from
nodes of the copying object's pool (`copyUnder_spec`), and so the copy constructor yields an
object that holds the same values (`copyConstruct_spec`). -/

namespace NeForce.Rb

open RbNode

variable {V K : Type} {h h₁ h' : Heap V} {t : RbTree K} {used free chunks : List ℕ} {a p : ℕ} {v : V}
  {S D : Tree ℕ}

/-- The tree `D` of `h'` below `p` copies the tree `S` of `h`. -/
def CopyOf (h h' : Heap V) : ℕ → Tree ℕ → Tree ℕ → Prop
  | _, .nil, .nil => True
  | p, .node c l a r, .node c' l' a' r' =>
      c' = c ∧ (∃ v, getData h a = some v ∧ h'.load a' = some ⟨c', p, ptr l', ptr r', some v⟩) ∧
        CopyOf h h' a' l l' ∧ CopyOf h h' a' r r'
  | _, _, _ => False

namespace CopyOf

theorem nil_iff : CopyOf h h' p .nil D ↔ D = .nil := by
  cases D <;> simp [CopyOf]

theorem congr (hc : CopyOf h h' p S D) (es : ∀ b ∈ S.inorder, getData h₁ b = getData h b) {h₂ : Heap V}
    (ed : ∀ b ∈ D.inorder, h₂.load b = h'.load b) : CopyOf h₁ h₂ p S D := by
  induction S generalizing p D with
  | nil => exact nil_iff.2 (nil_iff.1 hc)
  | node c l a r ihl ihr =>
      cases D with
      | nil => exact hc.elim
      | node c' l' a' r' =>
          obtain ⟨e, ⟨v, hv, hl⟩, h1, h2⟩ := hc
          refine ⟨e, ⟨v, by rw [es a (by simp), hv], by rw [ed a' (by simp), hl]⟩,
            ihl h1 (fun b hb => es b (by simp [hb])) fun b hb => ed b (by simp [hb]),
            ihr h2 (fun b hb => es b (by simp [hb])) fun b hb => ed b (by simp [hb])⟩

theorem linked (hc : CopyOf h h' p S D) : Linked h' p D := by
  induction S generalizing p D with
  | nil =>
      obtain rfl := nil_iff.1 hc
      trivial
  | node c l a r ihl ihr =>
      cases D with
      | nil => exact hc.elim
      | node c' l' a' r' =>
          obtain ⟨_, ⟨v, _, hl⟩, h1, h2⟩ := hc
          exact ⟨⟨v, hl⟩, ihl h1, ihr h2⟩

theorem color_eq (hc : CopyOf h h' p S D) : D.color = S.color := by
  cases S with
  | nil => rw [nil_iff.1 hc]
  | node c l a r =>
      cases D with
      | nil => exact hc.elim
      | node c' l' a' r' => exact hc.1

theorem rb {n : ℕ} (hc : CopyOf h h' p S D) (hr : S.RB n) : D.RB n := by
  induction S generalizing p D n with
  | nil =>
      obtain rfl := nil_iff.1 hc
      exact hr
  | node c l a r ihl ihr =>
      cases D with
      | nil => exact hc.elim
      | node c' l' a' r' =>
          obtain ⟨rfl, _, h1, h2⟩ := hc
          cases c' with
          | red =>
              obtain ⟨hcl, hcr, hl, hr⟩ := hr
              exact ⟨h1.color_eq.trans hcl, h2.color_eq.trans hcr, ihl h1 hl, ihr h2 hr⟩
          | black =>
              obtain ⟨m, rfl, hl, hr⟩ := hr
              exact ⟨m, rfl, ihl h1 hl, ihr h2 hr⟩

theorem data_eq (hc : CopyOf h h' p S D) : D.inorder.map (getData h') = S.inorder.map (getData h) := by
  induction S generalizing p D with
  | nil => rw [nil_iff.1 hc]; rfl
  | node c l a r ihl ihr =>
      cases D with
      | nil => exact hc.elim
      | node c' l' a' r' =>
          obtain ⟨_, ⟨v, hv, hl⟩, h1, h2⟩ := hc
          simp [ihl h1, ihr h2, hv, getData_eq hl]

end CopyOf

/-! ### Copying the nodes -/

/-- Writing to a node in use. -/
theorem Pool.set_used {n m : RbNode V} (hp : Pool h t used free chunks) (ha : a ∈ used)
    (hn : h.load a = some n) : Pool (h.set a m) t used free chunks := by
  have hnd := List.nodup_append.mp hp.nodup_nodes
  refine hp.congr (fun b hb => ?_) (fun b hb => ?_) rfl rfl
  · rw [Mem.load_set, if_neg]
    rintro rfl
    rcases hb with hb | hb
    · exact hnd.2.2 b ha b hb rfl
    · exact hp.chunk_notMem hb (List.mem_append_left _ ha)
  · rw [Mem.load_set]
    split_ifs with hba
    · rfl
    · exact hp.alloc b (hp.mem_cells_of_mem (List.mem_append_left _ hb))

/-- `copy_node` -/
theorem copyNode_spec {n : RbNode V} (hok : h.Ok) (hp : Pool h t used free chunks)
    (hn : h.load p = some n) (hv : n.data = some v) (hpf : p ∉ free) :
    ∃ h' x y a q free' chunks', copyNode h t p = some (h', { t with nodeChunks := x, freeNodes := y }, a) ∧
      Pool h' { t with nodeChunks := x, freeNodes := y } (a :: used) free' chunks' ∧
      h'.load a = some ⟨n.color, q, 0, 0, some v⟩ ∧ Stays h h' free (a :: free') ∧
      Stays h h' (chunks.flatMap cells) (chunks'.flatMap cells) := by
  obtain ⟨h1, x, y, a, free1, chunks1, e1, hp1, ⟨m, hm, hmv⟩, hs1, hf1⟩ := createNode_pool hok hp v
  have hpa : p ≠ a := by
    rintro rfl
    exact hf1.notMem hok hpf (by simp [hn]) (by simp)
  have h1p : h1.load p = some n := (hf1.load_eq hok hpf (by simp [hn])).trans hn
  have hac : a ∈ chunks1.flatMap cells := hp1.mem_cells_of_mem (by simp)
  set m2 := m.setColor n.color with hm2
  set h2 := h1.set a m2 with hh2
  have h2a : h2.load a = some m2 := by rw [hh2, Mem.load_set, if_pos rfl]
  set h3 := h2.set a (m2.setChild .left 0) with hh3
  have h3a : h3.load a = some (m2.setChild .left 0) := by rw [hh3, Mem.load_set, if_pos rfl]
  set h4 := h3.set a ((m2.setChild .left 0).setChild .right 0) with hh4
  have hp2 : Pool h2 { t with nodeChunks := x, freeNodes := y } (a :: used) free1 chunks1 :=
    hp1.set_used (by simp) hm
  have hp3 : Pool h3 { t with nodeChunks := x, freeNodes := y } (a :: used) free1 chunks1 :=
    hp2.set_used (by simp) h2a
  have hw : ∀ {F : List ℕ}, a ∈ F → Stays h1 h4 F F := fun ha => by
    have s2 := Stays.of_set (m := m2) hs1.ok hm ha
    have s3 := Stays.of_set (m := m2.setChild .left 0) s2.ok h2a ha
    exact s2.trans (s3.trans (Stays.of_set s3.ok h3a ha))
  refine ⟨h4, x, y, a, m.parent, free1, chunks1, ?_, hp3.set_used (by simp) h3a, ?_, hf1.trans (hw (by simp)),
    hs1.trans (hw hac)⟩
  · rw [copyNode, getData_eq hn, hv]
    simp only [Option.bind_eq_bind, Option.bind_some, e1, getColor_eq h1p, Mem.update_eq hm, ← hm2, ← hh2,
      Mem.update_eq h2a, ← hh3, Mem.update_eq h3a, ← hh4]
    rfl
  · rw [hh4, Mem.load_set, if_pos rfl, hm2, ← hmv]
    rfl

/-- What copying the tree `S` below `p` has done; the cells `W` may have been written as well. -/
structure Copied (h h' : Heap V) (t t' : RbTree K) (p : ℕ) (S D : Tree ℕ) (W used free chunks free' chunks' : List ℕ) :
    Prop where
  copy : CopyOf h h' p S D
  same : ∃ x y, t' = { t with nodeChunks := x, freeNodes := y }
  pool : Pool h' t' (D.inorder ++ used) free' chunks'
  nodes : Stays h h' (W ++ free) (W ++ (D.inorder ++ free'))
  cells : Stays h h' (chunks.flatMap cells) (chunks'.flatMap cells)

/-- `copy_under` copies a tree that lies outside the pool. -/
def CopiesUnder (K V : Type) (S : Tree ℕ) : Prop :=
  ∀ {h : Heap V} {t : RbTree K} {p q k : ℕ} {used free chunks : List ℕ}, h.Ok → Linked h q S →
    Pool h t used free chunks → (∀ b ∈ S.inorder, b ∉ used ++ free) → S.inorder.length < k →
    ∃ h' t' D free' chunks', copyUnder k h t (ptr S) p = some (h', t', ptr D) ∧
      Copied h h' t t' p S D [] used free chunks free' chunks'

/-- The loop down the left spine does so as well, and writes the left child of `p`. -/
def CopiesLeft (K V : Type) (S : Tree ℕ) : Prop :=
  ∀ {h : Heap V} {t : RbTree K} {p q k : ℕ} {used free chunks : List ℕ} {n : RbNode V}, h.Ok →
    Linked h q S → Pool h t used free chunks → (∀ b ∈ S.inorder, b ∉ used ++ free) →
    S.inorder.length < k → p ∈ used → h.load p = some n → n.left = 0 →
    ∃ h' t' D free' chunks', copyLeft k h t (ptr S) p = some (h', t') ∧
      Copied h h' t t' p S D [p] used free chunks free' chunks' ∧
      h'.load p = some (n.setChild .left (ptr D))

theorem Stays.of_mem {F F' G H : List ℕ} (s : Stays h h' F F') (hF : ∀ b, b ∈ F → b ∈ G)
    (hG : ∀ b ∈ H, b ∈ G ∨ b ∈ F') : Stays h h' G H where
  frame b hb hn := s.frame b hb fun hm => hn (hF b hm)
  grow b hb := by
    rcases hG b hb with hb | hb
    · exact Or.inl hb
    · exact (s.grow b hb).imp_left (hF b)
  next := s.next
  ok := s.ok

/-- The right subtree of a node that has been copied to `y`. -/
theorem copyRight_spec {c : Color} {r : Tree ℕ} {k q y : ℕ} (ih : r ≠ .nil → CopiesUnder K V r) (hok : h.Ok)
    (hr : Linked h q r) (hp : Pool h t (y :: used) free chunks)
    (hout : ∀ b ∈ r.inorder, b ∉ y :: used ++ free) (hk : r.inorder.length < k)
    (hy : h.load y = some ⟨c, p, 0, 0, some v⟩) :
    ∃ h' t' D free' chunks', (if ptr r ≠ 0 then do
          let (h, t, q) ← copyUnder k h t (ptr r) y
          let h ← h.update y (·.setChild .right q)
          pure (h, t)
        else pure (h, t)) = some (h', t') ∧
      Copied h h' t t' y r D [y] (y :: used) free chunks free' chunks' ∧
      h'.load y = some ⟨c, p, 0, ptr D, some v⟩ := by
  by_cases hn : r = .nil
  · subst hn
    exact ⟨h, t, .nil, free, chunks, by simp, ⟨trivial, ⟨_, _, rfl⟩, hp, Stays.refl hok _, Stays.refl hok _⟩, hy⟩
  · have h0 : ptr r ≠ 0 := by
      obtain ⟨n, hl, _⟩ := hr.load_isSome _ (ptr_mem hn)
      exact hok.ne_zero hl
    obtain ⟨h1, t1, D, free1, chunks1, e1, c1⟩ := ih hn (p := y) hok hr hp hout hk
    have hyf : y ∉ free := by
      have := hp.nodup_nodes
      simp only [List.cons_append, List.nodup_cons, List.mem_append, not_or] at this
      exact this.1.2
    have hyD : y ∉ D.inorder := fun hm => by
      have := (List.nodup_append.mp (List.nodup_append.mp c1.pool.nodup_nodes).1).2.2
      exact this y hm y (by simp) rfl
    have hy1 : h1.load y = some ⟨c, p, 0, 0, some v⟩ := by
      rw [c1.nodes.load_eq hok (by simpa using hyf) (by simp [hy]), hy]
    have hyc : y ∈ chunks1.flatMap NeForce.Rb.cells := c1.pool.mem_cells_of_mem (by simp)
    refine ⟨h1.set y ⟨c, p, 0, ptr D, some v⟩, t1, D, free1, chunks1, ?_,
      ⟨c1.copy.congr (fun _ _ => rfl) fun b hb => ?_, c1.same, c1.pool.set_used (by simp) hy1, ?_,
        c1.cells.trans (Stays.of_set c1.nodes.ok hy1 hyc)⟩, by rw [Mem.load_set, if_pos rfl]⟩
    · rw [if_pos h0, e1]
      simp only [Option.bind_eq_bind, Option.bind_some, Mem.update_eq hy1]
      rfl
    · rw [Mem.load_set, if_neg]
      rintro rfl
      exact hyD hb
    · refine Stays.trans (G := [y] ++ (D.inorder ++ free1)) (c1.nodes.of_mem (fun b hb => by simp at hb; simp [hb])
        fun b hb => ?_) (Stays.of_set c1.nodes.ok hy1 (by simp))
      simp only [List.mem_append, List.nil_append, List.mem_singleton] at hb ⊢
      grind

/-- Both subtrees of a node that has been copied to `y`. -/
theorem copyChildren_spec {c : Color} {l r : Tree ℕ} {k q y : ℕ} (ihl : CopiesLeft K V l)
    (ihr : r ≠ .nil → CopiesUnder K V r) (hok : h.Ok) (hS : Linked h q (.node c l a r))
    (hp : Pool h t (y :: used) free chunks)
    (hout : ∀ b ∈ (Tree.node c l a r).inorder, b ∉ y :: used ++ free)
    (hk : (Tree.node c l a r).inorder.length ≤ k) (hy : h.load y = some ⟨c, p, 0, 0, some v⟩)
    (hv : getData h a = some v) :
    ∃ h1 t1 h2 t2 D free' chunks', (if ptr r ≠ 0 then do
          let (h, t, q) ← copyUnder k h t (ptr r) y
          let h ← h.update y (·.setChild .right q)
          pure (h, t)
        else pure (h, t)) = some (h1, t1) ∧ getChild .left h1 a = some (ptr l) ∧
      copyLeft k h1 t1 (ptr l) y = some (h2, t2) ∧ ptr D = y ∧
      Copied h h2 t t2 p (.node c l a r) D [y] used free chunks free' chunks' := by
  obtain ⟨⟨w, ha⟩, hl, hr⟩ := hS
  simp only [Tree.inorder_node, List.mem_append, List.mem_cons] at hout
  have hlen : l.inorder.length < k ∧ r.inorder.length < k := by
    simp only [Tree.inorder_node, List.length_append, List.length_cons] at hk
    omega
  obtain ⟨h1, t1, Dr, free1, chunks1, e1, c1, hy1⟩ := copyRight_spec ihr hok hr hp
    (fun b hb => by simpa [and_assoc] using hout b (Or.inr (Or.inr hb))) hlen.2 hy
  have hcell : ∀ {b : ℕ}, b ∈ (Tree.node c l a r).inorder → (h.load b).isSome →
      h1.load b = h.load b ∧ b ∉ (Dr.inorder ++ y :: used) ++ free1 := by
    intro b hb hs
    have hb' := hout b (by simpa using hb)
    simp only [not_or] at hb'
    have hn : b ∉ [y] ++ free := by
      simp only [List.singleton_append, List.mem_cons]
      grind
    have h1 := c1.nodes.notMem hok hn hs
    refine ⟨c1.nodes.load_eq hok hn hs, ?_⟩
    simp only [List.mem_append, List.mem_cons, List.singleton_append] at h1 hb' ⊢
    grind
  have hsome : ∀ b ∈ l.inorder, (h.load b).isSome := fun b hb => by
    obtain ⟨n, hn, _⟩ := hl.load_isSome b hb
    simp [hn]
  have hl1 : Linked h1 a l := hl.congr fun b hb => (hcell (by simp [hb]) (hsome b hb)).1
  obtain ⟨h2, t2, Dl, free2, chunks2, e2, c2, hy2⟩ := ihl (p := y) c1.nodes.ok hl1 c1.pool
    (fun b hb => (hcell (by simp [hb]) (hsome b hb)).2) hlen.1 (by simp) hy1 rfl
  have hnd := List.nodup_append.mp c1.pool.nodup_nodes
  have hDr : ∀ b ∈ Dr.inorder, h2.load b = h1.load b := by
    intro b hb
    refine c2.nodes.load_eq c1.nodes.ok ?_ (c1.pool.alloc b (c1.pool.mem_cells_of_mem (by simp [hb])))
    simp only [List.singleton_append, List.mem_cons, not_or]
    refine ⟨?_, fun hm => hnd.2.2 b (by simp [hb]) b hm rfl⟩
    rintro rfl
    exact (List.nodup_append.mp hnd.1).2.2 b hb b (by simp) rfl
  refine ⟨h1, t1, h2, t2, .node c Dl y Dr, free2, chunks2, e1, ?_, e2, rfl, ⟨⟨rfl, ⟨v, hv, ?_⟩, ?_, ?_⟩, ?_, ?_, ?_, ?_⟩⟩
  · rw [getChild_eq _ ((hcell (by simp) (by simp [ha])).1.trans ha)]
    rfl
  · rw [hy2]
    rfl
  · refine c2.copy.congr (fun b hb => ?_) fun _ _ => rfl
    rw [getData, getData, (hcell (by simp [hb]) (hsome b hb)).1]
  · exact c1.copy.congr (fun _ _ => rfl) hDr
  · obtain ⟨_, _, rfl⟩ := c1.same
    obtain ⟨x, z, rfl⟩ := c2.same
    exact ⟨x, z, rfl⟩
  · refine c2.pool.of_perm ?_
    rw [Tree.inorder_node, List.append_assoc]
    refine List.Perm.append_left _ ?_
    rw [List.cons_append]
    exact List.perm_middle.symm
  · refine (c1.nodes.trans (c2.nodes.of_mem (H := [y] ++ (Dr.inorder ++ (Dl.inorder ++ free2))) (fun b hb => ?_)
      fun b hb => ?_)).shrink fun b hb => ?_
    · simp only [List.singleton_append, List.mem_cons, List.mem_append] at hb ⊢
      grind
    · simp only [List.singleton_append, List.mem_cons, List.mem_append] at hb ⊢
      grind
    · simp only [Tree.inorder_node, List.singleton_append, List.mem_cons, List.mem_append] at hb ⊢
      grind
  · exact c1.cells.trans c2.cells

/-- What lies outside the pool is not touched, and stays outside. -/
theorem Stays.outside {F' : List ℕ} {b : ℕ} (hs : Stays h h' free F') (hok : h.Ok)
    (hb : b ∉ used ++ free) (ha : (h.load b).isSome) : h'.load b = h.load b ∧ b ∉ used ++ F' := by
  rw [List.mem_append, not_or] at hb ⊢
  exact ⟨hs.load_eq hok hb.2 ha, hb.1, hs.notMem hok hb.2 ha⟩

/-- **`copy_under`**, by induction on the tree copied. -/
theorem copies (S : Tree ℕ) : CopiesLeft K V S ∧ (S ≠ .nil → CopiesUnder K V S) := by
  induction S with
  | nil =>
      refine ⟨?_, fun hn => absurd rfl hn⟩
      intro h t p q k used free chunks n hok _ hp _ hk hpu hn hl
      obtain ⟨k, rfl⟩ : ∃ j, k = j + 1 := ⟨k - 1, by simp at hk; omega⟩
      refine ⟨h, t, .nil, free, chunks, by simp [copyLeft],
        ⟨trivial, ⟨_, _, rfl⟩, hp, Stays.refl hok _, Stays.refl hok _⟩, ?_⟩
      rw [hn]
      simp [setChild, ← hl]
  | node c l a r ihl ihr =>
      refine ⟨?_, fun _ => ?_⟩
      · intro h t p q k used free chunks n hok hS hp hout hk hpu hn hl
        obtain ⟨k, rfl⟩ : ∃ j, k = j + 1 := ⟨k - 1, by omega⟩
        have hsome : ∀ b ∈ (Tree.node c l a r).inorder, (h.load b).isSome := fun b hb => by
          obtain ⟨m, hm, _⟩ := hS.load_isSome b hb
          simp [hm]
        obtain ⟨v, ha⟩ := hS.1
        obtain ⟨h1, x1, z1, y, q1, free1, chunks1, e1, hp1, hy1, hf1, hs1⟩ := copyNode_spec hok hp ha rfl
          (fun hm => hout a (by simp) (List.mem_append_right _ hm))
        have hsrc := fun b hb => hf1.outside hok (hout b hb) (hsome b hb)
        have hnd1 := hp1.nodup_nodes
        have hpy : p ≠ y ∧ p ∉ free1 := by
          simp only [List.cons_append, List.nodup_cons, List.nodup_append, List.mem_append, not_or] at hnd1
          refine ⟨?_, fun hm => hnd1.2.2.2 p hpu p hm rfl⟩
          rintro rfl
          exact hnd1.1.1 hpu
        have hp1l : h1.load p = some n := by
          rw [hf1.load_eq hok (fun hm => (List.nodup_append.mp hp.nodup_nodes).2.2 p hpu p hm rfl) (by simp [hn]), hn]
        set h2 := h1.set p (n.setChild .left y) with hh2
        have hy2 : h2.load y = some ⟨c, q1, 0, 0, some v⟩ := by
          rw [hh2, Mem.load_set, if_neg hpy.1.symm, hy1]
        have hp2 := hp1.set_used (m := n.setChild .left y) (List.mem_cons_of_mem _ hpu) hp1l
        rw [← hh2] at hp2
        set h3 := h2.set y ⟨c, p, 0, 0, some v⟩ with hh3
        have hp3 := hp2.set_used (m := ⟨c, p, 0, 0, some v⟩) (List.mem_cons_self) hy2
        rw [← hh3] at hp3
        have hy3 : h3.load y = some ⟨c, p, 0, 0, some v⟩ := by rw [hh3, Mem.load_set, if_pos rfl]
        have hsrc3 : ∀ b ∈ (Tree.node c l a r).inorder, h3.load b = h.load b := by
          intro b hb
          have hb1 := hsrc b hb
          have hbp : b ≠ p ∧ b ≠ y := by
            refine ⟨?_, ?_⟩
            · rintro rfl
              exact hout b hb (by simp [hpu])
            · rintro rfl
              exact hb1.2 (by simp)
          rw [hh3, Mem.load_set, if_neg hbp.2, hh2, Mem.load_set, if_neg hbp.1, hb1.1]
        have st3 : ∀ {F : List ℕ}, p ∈ F → y ∈ F → Stays h1 h3 F F := fun hpF hyF => by
          have s2 := Stays.of_set (m := n.setChild .left y) hf1.ok hp1l hpF
          exact s2.trans (Stays.of_set s2.ok hy2 hyF)
        have hcell : p ∈ chunks1.flatMap NeForce.Rb.cells ∧ y ∈ chunks1.flatMap NeForce.Rb.cells :=
          ⟨hp1.mem_cells_of_mem (by simp [hpu]), hp1.mem_cells_of_mem (by simp)⟩
        have st13 : Stays h1 h3 (p :: y :: free1) (p :: y :: free1) := st3 (by simp) (by simp)
        obtain ⟨h4, t4, h5, t5, D, free', chunks', e4, e4', e5, hD, c5⟩ := copyChildren_spec (p := p) (k := k) ihl.1
          ihr.2 st13.ok (hS.congr hsrc3) hp3 (fun b hb => by
            have := (hsrc b hb).2
            simpa [or_assoc, and_assoc, and_left_comm, and_comm] using this) (by omega) hy3 (by
            rw [getData_eq (hsrc3 a (by simp) ▸ ha)])
        have hp5 : h5.load p = some (n.setChild .left y) := by
          have hn3 : h3.load p = some (n.setChild .left y) := by
            rw [hh3, Mem.load_set, if_neg hpy.1, hh2, Mem.load_set, if_pos rfl]
          rw [c5.nodes.load_eq st13.ok (by simp [hpy]) (by simp [hn3]), hn3]
        refine ⟨h5, t5, D, free', chunks', ?_, ⟨?_, ?_, c5.pool, ?_, hs1.trans ((st3 hcell.1 hcell.2).trans c5.cells)⟩,
          by rw [hp5, hD]⟩
        · rw [copyLeft, ptr_node, if_neg (hok.ne_zero ha), e1]
          simp only [Option.bind_eq_bind, Option.bind_some, Mem.update_eq hp1l, ← hh2, Mem.update_eq hy2]
          rw [show (RbNode.setParent p ⟨c, q1, 0, 0, some v⟩ : RbNode V) = ⟨c, p, 0, 0, some v⟩ from rfl, ← hh3,
            getChild_eq _ (hsrc3 a (by simp) ▸ ha)]
          simp only [Option.bind_some, child]
          simp only [Option.bind_eq_bind] at e4
          rw [e4]
          simp only [Option.bind_some, e4', e5]
        · exact c5.copy.congr (fun b hb => by rw [getData, getData, hsrc3 b hb]) fun _ _ => rfl
        · obtain ⟨x, z, rfl⟩ := c5.same
          exact ⟨x, z, rfl⟩
        · have s1 : Stays h h1 ([p] ++ free) (p :: y :: free1) := hf1.of_mem (fun b hb => by simp [hb]) fun b hb => by
            simp only [List.singleton_append, List.mem_cons] at hb ⊢
            grind
          refine (s1.trans st13).trans ((c5.nodes.of_mem (fun b hb => ?_) fun b hb => ?_).shrink (G := p :: y :: (D.inorder ++ free')) fun b hb => ?_)
          · simp only [List.singleton_append, List.mem_cons] at hb ⊢
            grind
          · simp only [List.singleton_append, List.mem_cons] at hb ⊢
            grind
          · simp only [List.singleton_append, List.mem_cons] at hb ⊢
            grind
      · intro h t p q k used free chunks hok hS hp hout hk
        obtain ⟨k, rfl⟩ : ∃ j, k = j + 1 := ⟨k - 1, by omega⟩
        have hsome : ∀ b ∈ (Tree.node c l a r).inorder, (h.load b).isSome := fun b hb => by
          obtain ⟨m, hm, _⟩ := hS.load_isSome b hb
          simp [hm]
        obtain ⟨v, ha⟩ := hS.1
        obtain ⟨h1, x1, z1, y, q1, free1, chunks1, e1, hp1, hy1, hf1, hs1⟩ := copyNode_spec hok hp ha rfl
          (fun hm => hout a (by simp) (List.mem_append_right _ hm))
        have hsrc := fun b hb => hf1.outside hok (hout b hb) (hsome b hb)
        set h2 := h1.set y ⟨c, p, 0, 0, some v⟩ with hh2
        have hp2 := hp1.set_used (m := ⟨c, p, 0, 0, some v⟩) (List.mem_cons_self) hy1
        rw [← hh2] at hp2
        have hy2 : h2.load y = some ⟨c, p, 0, 0, some v⟩ := by rw [hh2, Mem.load_set, if_pos rfl]
        have hsrc2 : ∀ b ∈ (Tree.node c l a r).inorder, h2.load b = h.load b := by
          intro b hb
          rw [hh2, Mem.load_set, if_neg, (hsrc b hb).1]
          rintro rfl
          exact (hsrc b hb).2 (by simp)
        have st2 : ∀ {F : List ℕ}, y ∈ F → Stays h1 h2 F F := fun hyF => Stays.of_set hf1.ok hy1 hyF
        have st12 : Stays h1 h2 (y :: free1) (y :: free1) := st2 (by simp)
        obtain ⟨h4, t4, h5, t5, D, free', chunks', e4, e4', e5, hD, c5⟩ := copyChildren_spec (p := p) (k := k) ihl.1
          ihr.2 st12.ok (hS.congr hsrc2) hp2 (fun b hb => by
            have := (hsrc b hb).2
            simpa [or_assoc, and_assoc, and_left_comm, and_comm] using this) (by omega) hy2 (by
            rw [getData_eq (hsrc2 a (by simp) ▸ ha)])
        refine ⟨h5, t5, D, free', chunks', ?_, ⟨?_, ?_, c5.pool, ?_,
          hs1.trans ((st2 (hp1.mem_cells_of_mem (by simp))).trans c5.cells)⟩⟩
        · rw [copyUnder, ptr_node, e1]
          simp only [Option.bind_eq_bind, Option.bind_some, Mem.update_eq hy1]
          rw [show (RbNode.setParent p ⟨c, q1, 0, 0, some v⟩ : RbNode V) = ⟨c, p, 0, 0, some v⟩ from rfl, ← hh2,
            getChild_eq _ (hsrc2 a (by simp) ▸ ha)]
          simp only [Option.bind_some, child]
          simp only [Option.bind_eq_bind] at e4
          rw [e4]
          simp only [Option.bind_some, e4', e5, hD]
          rfl
        · exact c5.copy.congr (fun b hb => by rw [getData, getData, hsrc2 b hb]) fun _ _ => rfl
        · obtain ⟨x, z, rfl⟩ := c5.same
          exact ⟨x, z, rfl⟩
        · exact (hf1.trans st12).trans (c5.nodes.shrink fun b hb => List.mem_append_right _ hb)

/-! ### Construction -/

theorem getData_of_holds {key : V → K} {s : List (ℕ × V)} {T : Tree ℕ} (hT : TreeAt key h t s T) :
    T.inorder.map (getData h) = (s.map Prod.snd).map some := by
  have e := hT.linked.labels
  rw [Ctx.plug_nil] at e
  rw [e, List.map_map, List.map_map]
  exact List.map_congr_left fun x hx => hT.data x hx

/-- **`header_init`** -/
theorem headerInit_spec (hok : h.Ok) (t : RbTree K) :
    ∃ h', headerInit h t = some (h', { t with header := h.next }) ∧
      h'.load h.next = some ⟨.red, 0, h.next, h.next, none⟩ ∧ Stays h h' [] [h.next] := by
  set h1 : Heap V := (h.alloc 1 {}).2 with hh1
  have hok1 : h1.Ok := hok.alloc _ _
  have l1 : ∀ b, h1.load b = if h.next ≤ b ∧ b < h.next + 1 then some {} else h.load b := fun b => rfl
  have e1 : h1.load h.next = some {} := by rw [l1, if_pos (by omega)]
  set h2 := h1.set h.next (RbNode.setColor .red {}) with hh2
  have e2 : h2.load h.next = some (RbNode.setColor .red {}) := by rw [hh2, Mem.load_set, if_pos rfl]
  set h3 := h2.set h.next ((RbNode.setColor .red {}).setParent 0) with hh3
  have e3 : h3.load h.next = some ((RbNode.setColor .red {}).setParent 0) := by
    rw [hh3, Mem.load_set, if_pos rfl]
  set h4 := h3.set h.next (((RbNode.setColor .red {}).setParent 0).setChild .left h.next) with hh4
  have e4 : h4.load h.next = some (((RbNode.setColor .red {}).setParent 0).setChild .left h.next) := by
    rw [hh4, Mem.load_set, if_pos rfl]
  have st : Stays h1 (h4.set h.next ((((RbNode.setColor .red {}).setParent 0).setChild .left h.next).setChild .right
      h.next)) [h.next] [h.next] := by
    have s2 := Stays.of_set (m := RbNode.setColor .red {}) hok1 e1 (List.mem_singleton_self _)
    have s3 := Stays.of_set (m := (RbNode.setColor .red {}).setParent 0) s2.ok e2 (List.mem_singleton_self _)
    have s4 := Stays.of_set (m := ((RbNode.setColor .red {}).setParent 0).setChild .left h.next) s3.ok e3
      (List.mem_singleton_self _)
    exact s2.trans (s3.trans (s4.trans (Stays.of_set s4.ok e4 (List.mem_singleton_self _))))
  refine ⟨_, ?_, by rw [Mem.load_set, if_pos rfl]; rfl, Stays.trans ⟨fun b hb _ => ?_, fun b hb => Or.inr ?_, ?_, hok1⟩ st⟩
  · rw [headerInit]
    simp only [Mem.alloc] at hh1 ⊢
    rw [← hh1, Mem.update_eq e1]
    simp only [Option.bind_eq_bind, Option.bind_some, ← hh2, Mem.update_eq e2, ← hh3, Mem.update_eq e3, ← hh4,
      Mem.update_eq e4]
    rfl
  · rw [l1, if_neg (by omega)]
  · rw [List.mem_singleton] at hb
    omega
  · rw [hh1, Mem.next_alloc]
    omega

/-- A new object. -/
theorem construct_spec (key : V → K) (hok : h.Ok) (comp : StrictWeakOrder K) (alloc : ℕ) :
    ∃ h', construct h comp alloc = some (h', { header := h.next, keyCompare := comp, alloc := alloc }) ∧
      Holds key h' { header := h.next, keyCompare := comp, alloc := alloc } [] [h.next] ∧
      Stays h h' [] [h.next] := by
  obtain ⟨h', e, hl, hs⟩ := headerInit_spec hok ({ keyCompare := comp, alloc := alloc } : RbTree K)
  exact ⟨h', e, ⟨⟨.nil, TreeAt.empty hs.ok hl rfl rfl rfl rfl rfl⟩, [], [], Pool.empty h' rfl rfl, by simp, rfl⟩, hs⟩

theorem eq_of_mem_zip {α β : Type} {f : α → Option β} {l : List α} {m : List β} (e : l.map f = m.map some) :
    ∀ x ∈ l.zip m, f x.1 = some x.2 := by
  induction l generalizing m with
  | nil => simp
  | cons a l ih =>
      cases m with
      | nil => simp
      | cons b m =>
          rw [List.map_cons, List.map_cons, List.cons.injEq] at e
          rintro x hx
          rcases List.mem_cons.mp hx with rfl | hx
          · exact e.1
          · exact ih e.2 x hx

/-- **`copy_from`** into an object that has just been constructed. -/
theorem copyFrom_spec {key : V → K} {other : RbTree K} {s : List (ℕ × V)} {F : List ℕ} (hok : h.Ok)
    (hh : Holds key h t [] [t.header]) (hc : t.nodeChunks = 0) (ho : Holds key h other s F)
    (hk : t.keyCompare = other.keyCompare) :
    ∃ h' t' s' F', copyFrom h t other = some (h', t') ∧ Holds key h' t' s' F' ∧
      s'.map Prod.snd = s.map Prod.snd ∧ Stays h h' [t.header] F' ∧ SameObject t t' := by
  obtain ⟨⟨S, hS⟩, _⟩ := ho
  obtain ⟨⟨T, hT⟩, free, chunks, hp, _, _⟩ := hh
  obtain rfl : chunks = [] := by
    have := hp.chunkList
    rw [hc] at this
    exact this.eq_nil hok
  obtain rfl : free = [] := by
    have := hp.perm
    simpa using this
  obtain ⟨n, hn, hred, _⟩ := hT.ends
  have hroot := hS.linked.getParent_header
  rw [Ctx.plug_nil] at hroot
  have hlab := hS.linked.labels
  rw [Ctx.plug_nil] at hlab
  by_cases hnil : S = .nil
  · subst hnil
    obtain rfl : s = [] := by simpa using hlab.symm
    set h1 := h.set t.header (n.setParent 0) with hh1
    have hn1 : h1.load t.header = some (n.setParent 0) := by rw [hh1, Mem.load_set, if_pos rfl]
    set h2 := h1.set t.header ((n.setParent 0).setChild .left t.header) with hh2
    have hn2 : h2.load t.header = some ((n.setParent 0).setChild .left t.header) := by
      rw [hh2, Mem.load_set, if_pos rfl]
    have s1 := Stays.of_set (m := n.setParent 0) hok hn (List.mem_singleton_self _)
    have s2 := Stays.of_set (m := (n.setParent 0).setChild .left t.header) s1.ok hn1 (List.mem_singleton_self _)
    have s3 := Stays.of_set (m := ((n.setParent 0).setChild .left t.header).setChild .right t.header) s2.ok hn2
      (List.mem_singleton_self _)
    have hfr : t.freeNodes = 0 := hp.freeList
    refine ⟨_, { t with size := other.size }, [], [t.header], ?_,
      ⟨⟨.nil, TreeAt.empty s3.ok (by rw [Mem.load_set, if_pos rfl]) (by simp [hred]) rfl rfl rfl ?_⟩, [], [],
        Pool.empty _ hfr hc, by simp, rfl⟩, rfl, s1.trans (s2.trans s3), ⟨rfl, rfl, rfl⟩⟩
    · rw [copyFrom, hroot]
      simp only [Option.bind_eq_bind, Option.bind_some, ptr_nil, if_pos, Mem.update_eq hn, ← hh1, Mem.update_eq hn1,
        ← hh2, Mem.update_eq hn2]
      rfl
    · exact hS.size
  · have hout : ∀ b ∈ S.inorder, b ∉ ([] : List ℕ) ++ [] := by simp
    have hlen : S.inorder.length < walkBound h := by
      have h1 := hS.length_inorder
      have h2 := hS.length_lt hok
      unfold walkBound
      omega
    obtain ⟨h1, t1, D, free1, chunks1, e1, c1⟩ := (copies (K := K) (V := V) S).2 hnil (p := t.header) hok hS.linked.tree
      hp hout hlen
    obtain ⟨x, z, rfl⟩ := c1.same
    have hhd : t.header < h.next := hok.lt_next hn
    have hn1 : h1.load t.header = some n := (c1.nodes.frame _ hhd (by simp)).trans hn
    have hnew : ∀ b, b ∈ D.inorder ∨ b ∈ chunks1.flatMap NeForce.Rb.cells → b ≠ t.header := by
      rintro b hb rfl
      rcases hb with hb | hb
      · have := c1.nodes.grow t.header (by simp [hb])
        simp at this
        omega
      · have := c1.cells.grow t.header hb
        simp at this
        omega
    have hDlen : D.inorder.length = (s.map Prod.snd).length := by
      have h1 := congrArg List.length c1.copy.data_eq
      rwa [List.length_map, getData_of_holds hS, List.length_map] at h1
    have hDnil : D ≠ .nil := by
      rintro rfl
      rw [List.length_map, ← hS.length_inorder] at hDlen
      have := List.length_pos_of_mem (ptr_mem hnil)
      simp at hDlen
      omega
    have hnd : (t.header :: D.inorder).Nodup := by
      refine List.nodup_cons.mpr ⟨fun hm => hnew _ (Or.inl hm) rfl, ?_⟩
      have := (List.nodup_append.mp c1.pool.nodup_nodes).1
      rwa [List.map_nil, List.append_nil] at this
    set h2 := h1.set t.header (n.setParent (ptr D)) with hh2
    have hn2 : h2.load t.header = some (n.setParent (ptr D)) := by rw [hh2, Mem.load_set, if_pos rfl]
    have s2 : Stays h1 h2 [t.header] [t.header] := Stays.of_set c1.nodes.ok hn1 (List.mem_singleton_self _)
    have hat2 : At h2 t.header D.inorder [] D := by
      refine ⟨c1.copy.linked.congr fun b hb => ?_, ⟨_, hn2, rfl⟩, rfl, hnd, s2.ok.null⟩
      rw [hh2, Mem.load_set, if_neg (hnew b (Or.inl hb))]
    have e2 := hat2.extremum_eq .left s2.ok hDnil t.header
    set h3 := h2.set t.header ((n.setParent (ptr D)).setChild .left (endD .left D.inorder t.header)) with hh3
    have hn3 : h3.load t.header = some ((n.setParent (ptr D)).setChild .left (endD .left D.inorder t.header)) := by
      rw [hh3, Mem.load_set, if_pos rfl]
    have s3 : Stays h2 h3 [t.header] [t.header] := Stays.of_set s2.ok hn2 (List.mem_singleton_self _)
    have hat3 : At h3 t.header D.inorder [] D := by
      refine hat2.of_header (fun b hb => by rw [hh3, Mem.load_set, if_neg hb]) ?_
      rw [getParent_eq hn3, getParent_eq hn2]
      rfl
    have e3 := hat3.extremum_eq .right s3.ok hDnil t.header
    set n4 := ((n.setParent (ptr D)).setChild .left (endD .left D.inorder t.header)).setChild .right
      (endD .right D.inorder t.header) with hn4
    set h4 := h3.set t.header n4 with hh4
    have hn4 : h4.load t.header = some n4 := by rw [hh4, Mem.load_set, if_pos rfl]
    have s4 : Stays h3 h4 [t.header] [t.header] := Stays.of_set s3.ok hn3 (List.mem_singleton_self _)
    have f4 : ∀ b, b ≠ t.header → h4.load b = h1.load b := fun b hb => by
      rw [hh4, Mem.load_set, if_neg hb, hh3, Mem.load_set, if_neg hb, hh2, Mem.load_set, if_neg hb]
    have hat4 : At h4 t.header D.inorder [] D := by
      refine hat3.of_header (fun b hb => by rw [hh4, Mem.load_set, if_neg hb]) ?_
      rw [getParent_eq hn4, getParent_eq hn3]
      rfl
    have hfst : (D.inorder.zip (s.map Prod.snd)).map Prod.fst = D.inorder := List.map_fst_zip (le_of_eq hDlen)
    have hsnd : (D.inorder.zip (s.map Prod.snd)).map Prod.snd = s.map Prod.snd :=
      List.map_snd_zip (le_of_eq hDlen.symm)
    obtain ⟨m, hm⟩ := hS.balanced
    refine ⟨h4, { t with nodeChunks := x, freeNodes := z, size := other.size }, D.inorder.zip (s.map Prod.snd), footprint t chunks1, ?_,
      ⟨⟨D, by rw [hfst]; exact hat4, ⟨m, c1.copy.rb hm⟩, c1.copy.color_eq.trans hS.black, ?_, ?_, ?_, ?_⟩, ?_⟩,
      hsnd, ?_, ⟨rfl, rfl, rfl⟩⟩
    · rw [copyFrom, hroot]
      have h0 : ptr S ≠ 0 := by
        obtain ⟨m, hm, _⟩ := hS.linked.load_isSome (ptr S) (by rw [← hlab]; exact ptr_mem hnil)
        exact hok.ne_zero hm
      simp only [Option.bind_eq_bind, Option.bind_some, if_neg h0, e1, Mem.update_eq hn1, ← hh2, minimum, e2,
        Mem.update_eq hn2, ← hh3, maximum, e3, Mem.update_eq hn3]
      rfl
    · rw [hfst]
      refine ⟨n4, hn4, by simp [n4, hred], fun sd => ?_⟩
      cases sd <;> rfl
    · refine eq_of_mem_zip ?_
      rw [← getData_of_holds hS, ← c1.copy.data_eq]
      refine List.map_congr_left fun b hb => ?_
      rw [getData, getData, f4 b (hnew b (Or.inl hb))]
    · have hso := hS.sorted
      rw [Sorted, ← hk] at hso
      have h1 : (s.map Prod.snd).Pairwise fun a b => t.keyCompare.lt (key b) (key a) = false :=
        List.pairwise_map.mpr hso
      rw [← hsnd] at h1
      exact List.pairwise_map.mp h1
    · simp [List.length_zip, hDlen, hS.size]
    · refine ⟨free1, chunks1, ?_, fun hm => hnew _ (Or.inr hm) rfl, rfl⟩
      rw [hfst]
      have hp1 := c1.pool
      rw [List.map_nil, List.append_nil] at hp1
      refine hp1.congr (fun b hb => f4 b (hnew b (Or.inr ?_))) (fun b hb => ?_) rfl rfl
      · rcases hb with hb | hb
        · exact hp1.mem_cells_of_mem (List.mem_append_right _ hb)
        · exact List.mem_flatMap.mpr ⟨b, hb, by simp [NeForce.Rb.cells]⟩
      · rw [f4 b (hnew b (Or.inl hb))]
        exact hp1.alloc b (hp1.mem_cells_of_mem (List.mem_append_left _ hb))
    · have s1 : Stays h h1 [t.header] (footprint t chunks1) := c1.cells.of_mem (fun b hb => by simp at hb) fun b hb => by
        simpa [footprint] using hb
      refine s1.trans ((s2.trans (s3.trans s4)).of_mem (fun b hb => ?_) fun b hb => Or.inl hb)
      rw [List.mem_singleton] at hb
      simp [footprint, hb]

/-! ### Objects side by side -/

theorem Holds.isSome {key : V → K} {s : List (ℕ × V)} {F : List ℕ} (hh : Holds key h t s F) :
    ∀ b ∈ F, (h.load b).isSome := by
  obtain ⟨⟨T, hT⟩, free, chunks, hp, _, rfl⟩ := hh
  intro b hb
  rcases List.mem_cons.mp hb with rfl | hb
  · obtain ⟨n, hn, _⟩ := hT.ends
    simp [hn]
  · exact hp.alloc b hb

/-- An object whose cells have not changed. -/
theorem Holds.congr {key : V → K} {s : List (ℕ × V)} {F : List ℕ} (hh : Holds key h t s F)
    (h0 : h'.load 0 = none) (e : ∀ b ∈ F, h'.load b = h.load b) : Holds key h' t s F := by
  have hs := hh.isSome
  obtain ⟨⟨T, hT⟩, ho⟩ := hh
  refine ⟨⟨T, hT.congr h0 (fun b hb => e b ?_) (SameObject.refl t) rfl⟩, ?_⟩
  · rcases hb with rfl | hb
    · exact ho.header_mem
    · exact ho.used_mem b hb
  · obtain ⟨free, chunks, hp, hd, rfl⟩ := ho
    have hcell : ∀ b ∈ chunks.flatMap cells, h'.load b = h.load b := fun b hb => e b (List.mem_cons_of_mem _ hb)
    refine ⟨free, chunks, hp.congr (fun b hb => hcell b ?_) (fun b hb => ?_) rfl rfl, hd, rfl⟩
    · rcases hb with hb | hb
      · exact hp.mem_cells_of_mem (List.mem_append_right _ hb)
      · exact List.mem_flatMap.mpr ⟨b, hb, by simp [cells]⟩
    · have hm := hp.mem_cells_of_mem (List.mem_append_left _ hb)
      rw [hcell b hm]
      exact hp.alloc b hm

/-- A step that keeps to another footprint. -/
theorem Holds.aside {key : V → K} {s : List (ℕ × V)} {F G G' : List ℕ} (hok : h.Ok) (hh : Holds key h t s F)
    (hs : Stays h h' G G') (hd : ∀ b ∈ F, b ∉ G) : Holds key h' t s F ∧ ∀ b ∈ F, b ∉ G' :=
  ⟨hh.congr hs.ok.null fun b hb => hs.load_eq hok (hd b hb) (hh.isSome b hb),
    fun b hb => hs.notMem hok (hd b hb) (hh.isSome b hb)⟩

/-- **The copy constructor.** -/
theorem copyConstruct_spec {key : V → K} {other : RbTree K} {s : List (ℕ × V)} {F : List ℕ} (hok : h.Ok)
    (ho : Holds key h other s F) (alloc : ℕ) :
    ∃ h' t' s' F', copyConstruct h other alloc = some (h', t') ∧ Holds key h' t' s' F' ∧
      s'.map Prod.snd = s.map Prod.snd ∧ Stays h h' [] F' ∧ t'.alloc = alloc ∧
      t'.keyCompare = other.keyCompare := by
  obtain ⟨h1, e1, hh1, hs1⟩ := construct_spec key hok other.keyCompare alloc
  obtain ⟨h2, t2, s2, F2, e2, hh2, hv, hs2, so⟩ := copyFrom_spec hs1.ok hh1 rfl
    (ho.aside hok hs1 fun _ _ => by simp).1 rfl
  refine ⟨h2, t2, s2, F2, ?_, hh2, hv, hs1.trans hs2, so.alloc, so.keyCompare⟩
  rw [copyConstruct, e1]
  exact e2

/-! ### Destruction -/

/-- An object that has been moved from. -/
structure Vacant (t : RbTree K) : Prop where
  header : t.header = 0
  size : t.size = 0
  freeNodes : t.freeNodes = 0
  nodeChunks : t.nodeChunks = 0

theorem RbTree.moved_vacant (t : RbTree K) : Vacant t.moved := ⟨rfl, rfl, rfl, rfl⟩

theorem Vacant.releaseNodes_eq (hv : Vacant t) : releaseNodes h t = some (h, t) := by
  obtain ⟨header, keyCompare, alloc, size, freeNodes, nodeChunks⟩ := t
  obtain rfl : freeNodes = 0 := hv.freeNodes
  obtain rfl : nodeChunks = 0 := hv.nodeChunks
  simp [releaseNodes, releaseLoop, walkBound]

theorem Vacant.clear_eq (hv : Vacant t) : clear h t = some (h, t) := by
  rw [clear, if_pos hv.header]

theorem Vacant.destruct_eq (hv : Vacant t) : destruct h t = some h := by
  rw [destruct, hv.clear_eq]
  simp [hv.releaseNodes_eq, hv.header]

/-- **The destructor** frees cells of the object only. -/
theorem destruct_spec {key : V → K} {s : List (ℕ × V)} {F : List ℕ} (hok : h.Ok) (hh : Holds key h t s F) :
    ∃ h', destruct h t = some h' ∧ Stays h h' F [] := by
  obtain ⟨h1, t1, F1, e1, r1, _⟩ := clear_spec hok hh
  obtain ⟨⟨T, hT⟩, free, chunks, hp, hd, rfl⟩ := r1.holds
  have hok1 := r1.stays.ok
  obtain ⟨h2, e2, hok2, n2, f2⟩ := releaseNodes_pool hok1 hp
  obtain ⟨n, hn, _⟩ := hT.ends
  have hn2 : h2.load t1.header = some n := by rw [f2, if_neg hd, hn]
  obtain ⟨h3, e3, n3, f3⟩ := Mem.free_eq (m := h2) (a := t1.header) (k := 1) fun i hi => by
    obtain rfl : i = 0 := by omega
    exact ⟨n, hn2⟩
  refine ⟨h3, ?_, ?_⟩
  · rw [destruct, e1]
    simp only [Option.bind_eq_bind, Option.bind_some, e2, if_pos (hok1.ne_zero hn), e3, ne_eq]
  · refine r1.stays.trans ⟨fun b _ hb => ?_, by simp, by omega, ⟨?_, fun b hb => ?_, by rw [n3]; exact hok2.pos⟩⟩
    · simp only [footprint, List.mem_cons, not_or] at hb
      rw [f3, if_neg (by omega), f2, if_neg hb.2]
    · rw [f3, hok2.null, ite_self]
    · rw [f3, hok2.fresh b (by omega), ite_self]

/-! ### Moving the elements one by one -/

/-- Inserting a value after all elements that are not above its key. -/
def insertAbove (o : StrictWeakOrder K) (key : V → K) (l : List V) (v : V) : List V :=
  l.takeWhile (fun w => !o.lt (key v) (key w)) ++ v :: l.dropWhile (fun w => !o.lt (key v) (key w))

theorem insertAbove_cut {key : V → K} {s₁ s₂ : List (ℕ × V)} {s : List (ℕ × V)}
    (hc : Cut (above t.keyCompare (fun e : ℕ × V => key e.2) (key v)) s s₁ s₂)
    (hs : Upward (above t.keyCompare (fun e : ℕ × V => key e.2) (key v)) s) :
    (s₁ ++ (a, v) :: s₂).map Prod.snd = insertAbove t.keyCompare key (s.map Prod.snd) v := by
  obtain ⟨rfl, rfl⟩ := hc.unique (cut_of_upward hs)
  rw [insertAbove, List.takeWhile_map, List.dropWhile_map, List.map_append, List.map_cons]
  rfl

/-- Inserting one more value. -/
theorem emplaceEqual_values {key : V → K} {s : List (ℕ × V)} {F : List ℕ} (hok : h.Ok) (hh : Holds key h t s F)
    (v : V) :
    ∃ h' t' a s' F', emplaceEqual key h t v = some (h', t', a) ∧ Holds key h' t' s' F' ∧ Stays h h' F F' ∧
      SameObject t t' ∧ s'.map Prod.snd = insertAbove t.keyCompare key (s.map Prod.snd) v := by
  obtain ⟨T, hT⟩ := hh.1
  obtain ⟨h', t', a, s₁, s₂, F', e, hc, hi⟩ := emplaceEqual_spec hok hh v
  exact ⟨h', t', a, _, F', e, hi.holds, hi.stays, hi.same, insertAbove_cut hc (hT.sorted.upward_above _)⟩

theorem TreeAt.dereference_eq {key : V → K} {dbg : Bool} {s₁ s₂ : List (ℕ × V)} {e : ℕ × V} {T : Tree ℕ}
    (hT : TreeAt key h t (s₁ ++ e :: s₂) T) (hok : h.Ok) : dereference dbg h t e.1 = some e.2 := by
  obtain ⟨ctx, c, tl, tr, rfl, hat, _, _⟩ := hT.focus
  obtain ⟨n, hn, _, hp⟩ := hat.load_ptr (by simp)
  obtain ⟨m, hm⟩ := hat.load_holder
  have h1 := hok.ne_zero hn
  have h2 := hok.ne_zero hm
  have h3 := hT.ne_header (e := e) (by simp)
  rw [ptr_node] at hn h1
  simp [dereference, debugVerify, h1, h3, getParent_eq hn, hp, h2, hT.data e (by simp)]

/-- The loop over the elements `m` of `other`. -/
theorem moveElements_spec {key : V → K} (dbg : Bool) {other : RbTree K} {s s₁ m : List (ℕ × V)} {F G : List ℕ}
    {n : ℕ} (hok : h.Ok) (hh : Holds key h t s F) (ho : Holds key h other (s₁ ++ m) G)
    (hd : ∀ b ∈ G, b ∉ F) (hn : m.length < n) :
    ∃ h' t' s' F', moveElements key dbg other n h t (firstOr other m) = some (h', t') ∧ Holds key h' t' s' F' ∧
      Stays h h' F F' ∧ SameObject t t' ∧
      s'.map Prod.snd = (m.map Prod.snd).foldl (insertAbove t.keyCompare key) (s.map Prod.snd) := by
  induction m generalizing h t s s₁ F n with
  | nil =>
      obtain ⟨n, rfl⟩ : ∃ i, n = i + 1 := ⟨n - 1, by simp at hn; omega⟩
      exact ⟨h, t, s, F, by simp [moveElements, firstOr_nil], hh, Stays.refl hok F, SameObject.refl t, rfl⟩
  | cons e m ih =>
      obtain ⟨n, rfl⟩ : ∃ i, n = i + 1 := ⟨n - 1, by simp at hn; omega⟩
      obtain ⟨T, hT⟩ := ho.1
      obtain ⟨h1, t1, a, s', F1, e1, hh1, hs1, so1, hv1⟩ := emplaceEqual_values hok hh e.2
      obtain ⟨ho1, hd1⟩ := ho.aside hok hs1 hd
      obtain ⟨T1, hT1⟩ := ho1.1
      have ho1' : Holds key h1 other ((s₁ ++ [e]) ++ m) G := by simpa using ho1
      obtain ⟨h2, t2, s2, F2, e2, hh2, hs2, so2, hv2⟩ := ih (n := n) hs1.ok hh1 ho1'
        hd1 (by simpa using hn)
      refine ⟨h2, t2, s2, F2, ?_, hh2, hs1.trans hs2, so1.trans so2, ?_⟩
      · rw [moveElements, firstOr_cons, if_neg (hT.ne_header (by simp)), hT.dereference_eq hok]
        simp only [Option.bind_eq_bind, Option.bind_some, e1, hT1.iterIncrement_eq hs1.ok, e2]
      · rw [hv2, hv1, so1.keyCompare]
        rfl

/-- **The elements of `other` move to `t`.** -/
theorem moveAll_spec {key : V → K} (dbg : Bool) {other : RbTree K} {s m : List (ℕ × V)} {F G : List ℕ}
    (hok : h.Ok) (hh : Holds key h t s F) (ho : Holds key h other m G) (hd : ∀ b ∈ G, b ∉ F) :
    ∃ h' t' other' s' F' G', moveAll key dbg h t other = some (h', t', other') ∧ Holds key h' t' s' F' ∧
      Holds key h' other' [] G' ∧ (∀ b ∈ G', b ∉ F') ∧ Stays h h' (F ++ G) (F' ++ G') ∧ SameObject t t' ∧
      SameObject other other' ∧
      s'.map Prod.snd = (m.map Prod.snd).foldl (insertAbove t.keyCompare key) (s.map Prod.snd) := by
  obtain ⟨T, hT⟩ := ho.1
  have hlen := hT.length_lt hok
  have ho₀ : Holds key h other ([] ++ m) G := ho
  obtain ⟨h1, t1, s', F1, e1, hh1, hs1, so1, hv⟩ := moveElements_spec dbg (n := walkBound h) hok hh ho₀ hd
    (by unfold walkBound; omega)
  obtain ⟨ho1, hd1⟩ := ho.aside hok hs1 hd
  obtain ⟨h2, other', G2, e2, r2, _⟩ := clear_spec hs1.ok ho1
  obtain ⟨hh2, hd2⟩ := hh1.aside hs1.ok r2.stays fun b hb hg => hd1 b hg hb
  refine ⟨h2, t1, other', s', F1, G2, ?_, hh2, r2.holds, fun b hb hf => hd2 b hf hb, ?_, so1, r2.same, hv⟩
  · rw [moveAll, hT.begin_eq]
    simp only [Option.bind_eq_bind, Option.bind_some, e1, e2]
    rfl
  · refine Stays.trans (G := F1 ++ G) (hs1.of_mem (fun b hb => by simp [hb]) fun b hb => ?_)
      (r2.stays.of_mem (fun b hb => by simp [hb]) fun b hb => ?_)
    · simp only [List.mem_append] at hb ⊢
      grind
    · simp only [List.mem_append] at hb ⊢
      grind

end NeForce.Rb
