import NeForce.Order
import NeForce.RbNode

/-! # The node pool of a tree

An `rb_tree` object (`RbTree`) gets its nodes from chunks of `1 + 64` cells.  The first cell of a
chunk only links the chunks of the tree together; the others are the nodes, and those not in
use are threaded on the free list, both through the field `right_`.

`Pool h t used free chunks` says that `t` owns the chunks listed, that they are disjoint and
allocated, and that their nodes are exactly the ones in `used` and on the free list.  The four
pool functions keep it (`createNode_pool`, `destroyNode_pool`, `releaseNodes_pool`), and touch
nothing but the pool: `Stays h h' F F'` says that a step from memory `h` to `h'` leaves alone what
was allocated outside the footprint `F`, and that the new footprint `F'` adds fresh cells only. -/

namespace NeForce.Rb

open RbNode

variable {V K : Type}

/-- The fields of an `rb_tree` object; `alloc` identifies its allocator. -/
structure RbTree (K : Type) where
  header : ℕ := 0
  keyCompare : StrictWeakOrder K
  alloc : ℕ
  size : ℕ := 0
  freeNodes : ℕ := 0
  nodeChunks : ℕ := 0

def nodeChunkSize : ℕ := 64

/-- The loop of `reserve_nodes`: thread the cells `chunk + i`, …, `chunk + 1` on the free list. -/
def threadNodes (chunk : ℕ) : ℕ → Heap V → ℕ → Option (Heap V × ℕ)
  | 0, h, free => some (h, free)
  | i + 1, h, free => do
      let h ← h.update (chunk + (i + 1)) (·.setChild .right free)
      threadNodes chunk i h (chunk + (i + 1))

/-- `reserve_nodes` -/
def reserveNodes (h : Heap V) (t : RbTree K) : Option (Heap V × RbTree K) := do
  let (chunk, h) := h.alloc (nodeChunkSize + 1) {}
  let h ← h.update chunk (·.setChild .right t.nodeChunks)
  let (h, free) ← threadNodes chunk nodeChunkSize h t.freeNodes
  pure (h, { t with nodeChunks := chunk, freeNodes := free })

/-- `create_node` -/
def createNode (h : Heap V) (t : RbTree K) (v : V) : Option (Heap V × RbTree K × ℕ) := do
  let (h, t) ← (if t.freeNodes = 0 then reserveNodes h t else pure (h, t))
  let next ← getChild .right h t.freeNodes
  let h ← h.update t.freeNodes (·.setData (some v))
  pure (h, { t with freeNodes := next }, t.freeNodes)

/-- The destructor of the value in a node; there must be one. -/
def destroyData (h : Heap V) (p : ℕ) : Option (Heap V) := do
  let n ← h.load p
  if n.data.isSome then h.update p (·.setData none) else none

/-- `destroy_node` -/
def destroyNode (h : Heap V) (t : RbTree K) (p : ℕ) : Option (Heap V × RbTree K) :=
  if p = 0 then some (h, t)
  else do
    let h ← destroyData h p
    let h ← h.update p (·.setChild .right t.freeNodes)
    pure (h, { t with freeNodes := p })

def releaseLoop : ℕ → Heap V → ℕ → Option (Heap V)
  | 0, _, _ => none
  | k + 1, h, chunk =>
      if chunk = 0 then some h
      else do
        let next ← getChild .right h chunk
        let h ← h.free chunk (nodeChunkSize + 1)
        releaseLoop k h next

/-- `release_nodes` -/
def releaseNodes (h : Heap V) (t : RbTree K) : Option (Heap V × RbTree K) := do
  let h ← releaseLoop (walkBound h) h t.nodeChunks
  pure (h, { t with nodeChunks := 0, freeNodes := 0 })

/-! ### Steps that keep to their footprint -/

structure Stays (h h' : Heap V) (F F' : List ℕ) : Prop where
  frame : ∀ b, b < h.next → b ∉ F → h'.load b = h.load b
  grow : ∀ b ∈ F', b ∈ F ∨ h.next ≤ b
  next : h.next ≤ h'.next
  ok : h'.Ok

namespace Stays

variable {h h₁ h₂ : Heap V} {F F₁ : List ℕ}

theorem refl (hok : h.Ok) (F : List ℕ) : Stays h h F F :=
  ⟨fun _ _ _ => rfl, fun _ hb => Or.inl hb, le_refl _, hok⟩

theorem trans {G H : List ℕ} (s₁ : Stays h h₁ F G) (s₂ : Stays h₁ h₂ G H) : Stays h h₂ F H where
  frame b hb hF := by
    have h1 := s₁.next
    rw [s₂.frame b (by omega) fun hm => ?_, s₁.frame b hb hF]
    rcases s₁.grow b hm with hm | hm
    · exact hF hm
    · omega
  grow b hb := by
    have h1 := s₁.next
    rcases s₂.grow b hb with hb | hb
    · exact s₁.grow b hb
    · exact Or.inr (by omega)
  next := s₁.next.trans s₂.next
  ok := s₂.ok

/-- Giving up part of the footprint. -/
theorem shrink {G H : List ℕ} (s : Stays h h₁ F G) (hs : ∀ b ∈ H, b ∈ G) : Stays h h₁ F H :=
  { s with grow := fun b hb => s.grow b (hs b hb) }

/-- Cells of another footprint stay as they are. -/
theorem load_eq (s : Stays h h₁ F F₁) (hok : h.Ok) {b : ℕ} (hb : b ∉ F)
    (ha : (h.load b).isSome) : h₁.load b = h.load b := by
  obtain ⟨n, hn⟩ := Option.isSome_iff_exists.mp ha
  exact s.frame b (hok.lt_next hn) hb

/-- They do not join the footprint either. -/
theorem notMem (s : Stays h h₁ F F₁) (hok : h.Ok) {b : ℕ} (hb : b ∉ F) (ha : (h.load b).isSome) : b ∉ F₁ := by
  obtain ⟨n, hn⟩ := Option.isSome_iff_exists.mp ha
  have := hok.lt_next hn
  intro hm
  rcases s.grow b hm with hm | hm
  · exact hb hm
  · omega

/-- Writing to a cell of the footprint. -/
theorem of_set {a : ℕ} {n m : RbNode V} (hok : h.Ok) (hn : h.load a = some n) (ha : a ∈ F) :
    Stays h (h.set a m) F F where
  frame b _ hb := by
    rw [Mem.load_set, if_neg]
    rintro rfl
    exact hb ha
  grow b hb := Or.inl hb
  next := le_refl _
  ok := by
    refine hok.of_isSome (fun b => ?_) rfl
    rw [Mem.load_set]
    split_ifs with hb
    · rw [hb, hn]
      rfl
    · rfl

end Stays

/-! ### Lists threaded through `right_` -/

/-- The cells reached from `p` along `right_`; none of them holds a value. -/
def Chain (h : Heap V) : ℕ → List ℕ → Prop
  | p, [] => p = 0
  | p, a :: l => p = a ∧ ∃ n, h.load a = some n ∧ n.data = none ∧ Chain h n.right l

theorem Chain.congr {h h' : Heap V} {p : ℕ} {l : List ℕ} (hc : Chain h p l)
    (e : ∀ a ∈ l, h'.load a = h.load a) : Chain h' p l := by
  induction l generalizing p with
  | nil => exact hc
  | cons a l ih =>
      obtain ⟨rfl, n, hn, hd, hl⟩ := hc
      exact ⟨rfl, n, by rw [e p (by simp), hn], hd, ih hl fun b hb => e b (by simp [hb])⟩

theorem Chain.eq_nil {h : Heap V} {l : List ℕ} (hok : h.Ok) (hc : Chain h 0 l) : l = [] := by
  cases l with
  | nil => rfl
  | cons a l =>
      obtain ⟨rfl, n, hn, _⟩ := hc
      exact absurd rfl (hok.ne_zero hn)

theorem Chain.ne_nil {h : Heap V} {p : ℕ} {l : List ℕ} (hc : Chain h p l) (hp : p ≠ 0) : l ≠ [] := by
  rintro rfl
  exact hp hc

/-! ### The pool -/

/-- The nodes of a chunk. -/
def slots (c : ℕ) : List ℕ := (List.range nodeChunkSize).map (c + 1 + ·)

/-- All cells of a chunk. -/
def cells (c : ℕ) : List ℕ := c :: slots c

theorem mem_slots {a c : ℕ} : a ∈ slots c ↔ c < a ∧ a ≤ c + nodeChunkSize := by
  simp only [slots, List.mem_map, List.mem_range]
  constructor
  · rintro ⟨i, hi, rfl⟩
    omega
  · rintro ⟨h1, h2⟩
    exact ⟨a - (c + 1), by omega, by omega⟩

theorem mem_cells {a c : ℕ} : a ∈ cells c ↔ c ≤ a ∧ a < c + (nodeChunkSize + 1) := by
  simp only [cells, List.mem_cons, mem_slots]
  omega

theorem nodup_cells (c : ℕ) : (cells c).Nodup := by
  refine List.nodup_cons.mpr ⟨fun h => ?_, List.nodup_range.map fun i j hij => ?_⟩
  · rw [mem_slots] at h
    omega
  · simpa using hij

structure Pool (h : Heap V) (t : RbTree K) (used free chunks : List ℕ) : Prop where
  freeList : Chain h t.freeNodes free
  chunkList : Chain h t.nodeChunks chunks
  perm : (used ++ free).Perm (chunks.flatMap slots)
  nodup : (chunks.flatMap cells).Nodup
  alloc : ∀ a ∈ chunks.flatMap cells, (h.load a).isSome

namespace Pool

variable {h h' : Heap V} {t t' : RbTree K} {used used' free chunks : List ℕ} {a : ℕ}

theorem empty (h : Heap V) {t : RbTree K} (h₁ : t.freeNodes = 0) (h₂ : t.nodeChunks = 0) :
    Pool h t [] [] [] := ⟨h₁, h₂, List.Perm.refl _, by simp, by simp⟩

theorem slots_sublist (chunks : List ℕ) : (chunks.flatMap slots).Sublist (chunks.flatMap cells) := by
  induction chunks with
  | nil => simp
  | cons c chunks ih =>
      simp only [List.flatMap_cons, cells]
      exact (List.sublist_cons_self c _).append ih

theorem mem_cells_of_mem (hp : Pool h t used free chunks) (ha : a ∈ used ++ free) :
    a ∈ chunks.flatMap cells := (slots_sublist chunks).subset (hp.perm.mem_iff.mp ha)

theorem nodup_nodes (hp : Pool h t used free chunks) : (used ++ free).Nodup :=
  hp.perm.nodup_iff.mpr (hp.nodup.sublist (slots_sublist chunks))

/-- The link cells of the chunks are not nodes. -/
theorem chunk_notMem (hp : Pool h t used free chunks) (ha : a ∈ chunks) : a ∉ used ++ free := by
  intro hm
  have hm' := hp.perm.mem_iff.mp hm
  have hn := hp.nodup
  clear hp hm
  induction chunks with
  | nil => simp at ha
  | cons c chunks ih =>
      simp only [List.flatMap_cons, List.nodup_append, List.mem_append] at hn hm'
      have hself : ∀ c ∈ chunks, c ∈ chunks.flatMap cells := fun c hc =>
        List.mem_flatMap.mpr ⟨c, hc, by simp [cells]⟩
      rcases List.mem_cons.mp ha with rfl | ha
      · rcases hm' with hm' | hm'
        · rw [mem_slots] at hm'
          omega
        · exact hn.2.2 a (by simp [cells]) a ((slots_sublist chunks).subset hm') rfl
      · rcases hm' with hm' | hm'
        · exact hn.2.2 a (List.mem_cons_of_mem _ hm') a (hself a ha) rfl
        · exact ih ha hm' hn.2.1

theorem congr (hp : Pool h t used free chunks) (e : ∀ a, a ∈ free ∨ a ∈ chunks → h'.load a = h.load a)
    (es : ∀ a, a ∈ used → (h'.load a).isSome) (hf : t'.freeNodes = t.freeNodes)
    (hc : t'.nodeChunks = t.nodeChunks) : Pool h' t' used free chunks where
  freeList := hf ▸ hp.freeList.congr fun a ha => e a (Or.inl ha)
  chunkList := hc ▸ hp.chunkList.congr fun a ha => e a (Or.inr ha)
  perm := hp.perm
  nodup := hp.nodup
  alloc a ha := by
    by_cases hac : a ∈ chunks
    · rw [e a (Or.inr hac)]
      exact hp.alloc a ha
    · have hm : a ∈ chunks.flatMap slots := by
        obtain ⟨c, hc, hac'⟩ := List.mem_flatMap.mp ha
        rcases List.mem_cons.mp hac' with rfl | hs
        · exact absurd hc hac
        · exact List.mem_flatMap.mpr ⟨c, hc, hs⟩
      rcases List.mem_append.mp (hp.perm.mem_iff.mpr hm) with hu | hf
      · exact es a hu
      · rw [e a (Or.inl hf)]
        exact hp.alloc a ha

theorem of_perm (hp : Pool h t used free chunks) (hu : used'.Perm used) : Pool h t used' free chunks :=
  { hp with perm := (hu.append_right free).trans hp.perm }

end Pool

/-! ### The pool functions -/

theorem threadNodes_chain {c i p : ℕ} {h : Heap V} {l : List ℕ} (hl : Chain h p l)
    (hc : ∀ j < i, ∃ n, h.load (c + 1 + j) = some n ∧ n.data = none ∧ c + 1 + j ∉ l) :
    ∃ h' q, threadNodes c i h p = some (h', q) ∧
      Chain h' q ((List.range i).map (c + 1 + ·) ++ l) ∧
      (∀ b, (b ≤ c ∨ c + i < b) → h'.load b = h.load b) ∧
      (∀ b, (h'.load b).isSome = (h.load b).isSome) ∧ h'.next = h.next := by
  induction i generalizing h p l with
  | zero => exact ⟨h, p, rfl, hl, fun _ _ => rfl, fun _ => rfl, rfl⟩
  | succ i ih =>
      obtain ⟨n, hn, hd, hnl⟩ := hc i (by omega)
      have hadd : c + 1 + i = c + (i + 1) := by omega
      rw [hadd] at hn hnl
      set h1 := h.set (c + (i + 1)) (n.setChild .right p) with hh1
      have f1 : ∀ b, b ≠ c + (i + 1) → h1.load b = h.load b := fun b hb => by
        rw [hh1, Mem.load_set, if_neg hb]
      have hl1 : Chain h1 (c + (i + 1)) ((c + (i + 1)) :: l) :=
        ⟨rfl, _, by rw [hh1, Mem.load_set, if_pos rfl], by simp [hd], hl.congr fun b hb => f1 b (by
          rintro rfl
          exact hnl hb)⟩
      obtain ⟨h', q, e, hchain, f, hs, hx⟩ := ih hl1 fun j hj => by
        obtain ⟨m, hm, hmd, hml⟩ := hc j (by omega)
        refine ⟨m, by rw [f1 _ (by omega), hm], hmd, ?_⟩
        rw [List.mem_cons]
        rintro (he | he)
        · omega
        · exact hml he
      refine ⟨h', q, ?_, ?_, fun b hb => ?_, fun b => ?_, hx⟩
      · rw [threadNodes, Mem.update_eq hn]
        exact e
      · rw [List.range_succ, List.map_append, List.map_singleton, List.append_assoc, hadd]
        exact hchain
      · rw [f b (by omega), f1 b (by omega)]
      · rw [hs b, hh1, Mem.load_set]
        split_ifs with hb
        · rw [hb, hn]
          rfl
        · rfl

/-- `reserve_nodes` on an empty free list. -/
theorem reserveNodes_pool {h : Heap V} {t : RbTree K} {used chunks : List ℕ} (hok : h.Ok)
    (hp : Pool h t used [] chunks) :
    ∃ h' q, reserveNodes h t = some (h', { t with nodeChunks := h.next, freeNodes := q }) ∧
      Pool h' { t with nodeChunks := h.next, freeNodes := q } used (slots h.next) (h.next :: chunks) ∧
      Stays h h' (chunks.flatMap cells) ((h.next :: chunks).flatMap cells) ∧
      ∀ b, b < h.next → h'.load b = h.load b := by
  set h1 : Heap V := (h.alloc (nodeChunkSize + 1) {}).2 with hh1
  have hok1 : h1.Ok := hok.alloc _ _
  have l1 : ∀ b, h1.load b = if h.next ≤ b ∧ b < h.next + (nodeChunkSize + 1) then some {} else h.load b :=
    fun b => rfl
  have hc : h1.load h.next = some {} := by
    rw [l1, if_pos]
    unfold nodeChunkSize
    omega
  set h2 := h1.set h.next (RbNode.setChild .right t.nodeChunks {}) with hh2
  have l2 : ∀ b, b ≠ h.next → h2.load b = h1.load b := fun b hb => by rw [hh2, Mem.load_set, if_neg hb]
  have hold : ∀ b, b < h.next → h2.load b = h.load b := by
    intro b hb
    rw [l2 b (by omega), l1, if_neg (by omega)]
  have s2 : ∀ b, (h2.load b).isSome = (h1.load b).isSome := by
    intro b
    rw [hh2, Mem.load_set]
    split_ifs with hb
    · rw [hb, hc]
      rfl
    · rfl
  have hok2 : h2.Ok := hok1.of_isSome s2 rfl
  obtain ⟨h3, q, e3, hchain, f3, s3, n3⟩ := threadNodes_chain (c := h.next) (i := nodeChunkSize) (h := h2)
    (hp.freeList.congr fun a ha => by simp at ha) fun j hj => by
      refine ⟨{}, ?_, rfl, by simp⟩
      rw [l2 _ (by omega), l1, if_pos (by omega)]
  rw [List.append_nil] at hchain
  have hok3 : h3.Ok := hok2.of_isSome s3 n3
  have hfin : ∀ b, b < h.next → h3.load b = h.load b := fun b hb => by
    rw [f3 b (by omega), hold b hb]
  have hlt : ∀ b ∈ chunks.flatMap cells, b < h.next := by
    intro b hb
    obtain ⟨n, hn⟩ := Option.isSome_iff_exists.mp (hp.alloc b hb)
    exact hok.lt_next hn
  have hself : ∀ c ∈ chunks, c ∈ chunks.flatMap cells := fun c hc =>
    List.mem_flatMap.mpr ⟨c, hc, by simp [cells]⟩
  have hnext : h3.next = h.next + (nodeChunkSize + 1) := n3
  refine ⟨h3, q, ?_, ⟨hchain, ⟨rfl, RbNode.setChild .right t.nodeChunks {}, ?_, rfl, ?_⟩, ?_, ?_, ?_⟩,
    ⟨?_, ?_, ?_, hok3⟩, hfin⟩
  · rw [reserveNodes]
    simp only [Mem.alloc] at hh1 ⊢
    rw [← hh1, Mem.update_eq hc]
    simp only [Option.bind_eq_bind, Option.bind_some, ← hh2, e3]
    rfl
  · rw [f3 _ (by omega), hh2, Mem.load_set, if_pos rfl]
  · exact hp.chunkList.congr fun c hc => hfin c (hlt c (hself c hc))
  · have := hp.perm
    rw [List.append_nil] at this
    rw [List.flatMap_cons]
    exact (List.perm_append_comm).trans (this.append_left _)
  · rw [List.flatMap_cons, List.nodup_append]
    refine ⟨nodup_cells _, hp.nodup, fun a ha b hb hab => ?_⟩
    have h1 := hlt b hb
    have h2 := (mem_cells.mp ha).1
    omega
  · intro a ha
    rw [s3 a]
    rw [List.flatMap_cons, List.mem_append] at ha
    rcases ha with ha | ha
    · rw [s2 a, l1, if_pos (mem_cells.mp ha)]
      rfl
    · rw [hold a (hlt a ha)]
      exact hp.alloc a ha
  · exact fun b hb _ => hfin b hb
  · intro b hb
    rw [List.flatMap_cons, List.mem_append] at hb
    rcases hb with hb | hb
    · exact Or.inr (mem_cells.mp hb).1
    · exact Or.inl hb
  · omega

/-- Taking the first free node. -/
theorem Pool.pop {h : Heap V} {t : RbTree K} {used free chunks : List ℕ} {a : ℕ} (hok : h.Ok)
    (hp : Pool h t used (a :: free) chunks) (v : V) :
    ∃ n, t.freeNodes = a ∧ h.load a = some n ∧
      Pool (h.set a (n.setData (some v))) { t with freeNodes := n.right } (a :: used) free chunks ∧
      Stays h (h.set a (n.setData (some v))) (chunks.flatMap cells) (chunks.flatMap cells) := by
  obtain ⟨hta, n, hn, hd, hl⟩ := hp.freeList
  have hnd := hp.nodup_nodes
  have hperm : (a :: used ++ free).Perm (used ++ a :: free) := List.perm_middle.symm
  have hfree : a ∉ free := by
    rw [List.nodup_append, List.nodup_cons] at hnd
    exact hnd.2.1.1
  have hchunk : a ∉ chunks := fun hc => hp.chunk_notMem hc (by simp)
  have hs : ∀ b, ((h.set a (n.setData (some v))).load b).isSome = (h.load b).isSome := by
    intro b
    rw [Mem.load_set]
    split_ifs with hb
    · rw [hb, hn]
      rfl
    · rfl
  have hf : ∀ b, b ≠ a → (h.set a (n.setData (some v))).load b = h.load b := fun b hb => by
    rw [Mem.load_set, if_neg hb]
  refine ⟨n, hta, hn, ⟨?_, ?_, hperm.trans hp.perm, hp.nodup, fun b hb => ?_⟩, ⟨?_, ?_, le_refl _, ?_⟩⟩
  · exact hl.congr fun b hb => hf b (by rintro rfl; exact hfree hb)
  · exact hp.chunkList.congr fun b hb => hf b (by rintro rfl; exact hchunk hb)
  · rw [hs]
    exact hp.alloc b hb
  · intro b _ hb
    refine hf b ?_
    rintro rfl
    exact hb (hp.mem_cells_of_mem (by simp))
  · exact fun b hb => Or.inl hb
  · exact hok.of_isSome hs rfl

/-- **`create_node`** hands out a node that was not in use. -/
theorem createNode_pool {h : Heap V} {t : RbTree K} {used free chunks : List ℕ} (hok : h.Ok)
    (hp : Pool h t used free chunks) (v : V) :
    ∃ h' p q a free' chunks', createNode h t v = some (h', { t with nodeChunks := p, freeNodes := q }, a) ∧
      Pool h' { t with nodeChunks := p, freeNodes := q } (a :: used) free' chunks' ∧
      (∃ n, h'.load a = some n ∧ n.data = some v) ∧
      Stays h h' (chunks.flatMap cells) (chunks'.flatMap cells) ∧ Stays h h' free (a :: free') := by
  by_cases h0 : t.freeNodes = 0
  · obtain rfl : free = [] := (h0 ▸ hp.freeList).eq_nil hok
    obtain ⟨h1, q, e1, hp1, s1, f1⟩ := reserveNodes_pool hok hp
    obtain ⟨a, free1, hfree⟩ : ∃ a l, slots h.next = a :: l := ⟨_, _, rfl⟩
    rw [hfree] at hp1
    have ha : h.next ≤ a := by
      have := (mem_slots (a := a) (c := h.next)).mp (by simp [hfree])
      omega
    obtain ⟨n, hq, hn, hp2, s2⟩ := hp1.pop s1.ok v
    refine ⟨_, _, _, a, free1, _, ?_, hp2, ⟨_, by rw [Mem.load_set, if_pos rfl], rfl⟩, s1.trans s2, ?_⟩
    · rw [createNode, if_pos h0, e1]
      simp only at hq
      subst hq
      simp [getChild_eq _ hn, Mem.update_eq hn, child]
    · refine ⟨fun b hb _ => ?_, fun b hb => ?_, (s1.trans s2).next, s2.ok⟩
      · rw [Mem.load_set, if_neg (by omega), f1 b hb]
      · rw [← hfree, mem_slots] at hb
        exact Or.inr (by omega)
  · obtain ⟨a, free1, rfl⟩ := List.exists_cons_of_ne_nil (hp.freeList.ne_nil h0)
    obtain ⟨n, hq, hn, hp2, s2⟩ := hp.pop hok v
    refine ⟨_, t.nodeChunks, _, a, free1, chunks, ?_, hp2, ⟨_, by rw [Mem.load_set, if_pos rfl], rfl⟩, s2, ?_⟩
    · subst hq
      rw [createNode, if_neg h0]
      simp [getChild_eq _ hn, Mem.update_eq hn, child]
    · exact Stays.of_set hok hn (by simp)

/-- **`destroy_node`** returns a node to the free list. -/
theorem destroyNode_pool {h : Heap V} {t : RbTree K} {used free chunks : List ℕ} {a : ℕ} {n : RbNode V}
    (hok : h.Ok) (hp : Pool h t (a :: used) free chunks) (hn : h.load a = some n) (hd : n.data.isSome) :
    ∃ h', destroyNode h t a = some (h', { t with freeNodes := a }) ∧
      Pool h' { t with freeNodes := a } used (a :: free) chunks ∧
      Stays h h' (chunks.flatMap cells) (chunks.flatMap cells) ∧
      (∀ b, b ≠ a → h'.load b = h.load b) ∧ h'.next = h.next := by
  set h1 := h.set a (n.setData none) with hh1
  have h1a : h1.load a = some (n.setData none) := by rw [hh1, Mem.load_set, if_pos rfl]
  set h2 := h1.set a ((n.setData none).setChild .right t.freeNodes) with hh2
  have f2 : ∀ b, b ≠ a → h2.load b = h.load b := fun b hb => by
    rw [hh2, Mem.load_set, if_neg hb, hh1, Mem.load_set, if_neg hb]
  have hs : ∀ b, (h2.load b).isSome = (h.load b).isSome := by
    intro b
    by_cases hb : b = a
    · rw [hb, hh2, Mem.load_set, if_pos rfl, hn]
      rfl
    · rw [f2 b hb]
  have hnd := hp.nodup_nodes
  have hfree : a ∉ free := by
    rw [List.cons_append, List.nodup_cons, List.mem_append] at hnd
    tauto
  have hchunk : a ∉ chunks := fun hc => hp.chunk_notMem hc (by simp)
  refine ⟨h2, ?_, ⟨⟨rfl, (n.setData none).setChild .right t.freeNodes, by rw [hh2, Mem.load_set, if_pos rfl], rfl, ?_⟩,
    ?_, ?_, hp.nodup, ?_⟩, ⟨?_, fun b hb => Or.inl hb, le_refl _, hok.of_isSome hs rfl⟩, f2, rfl⟩
  · rw [destroyNode, if_neg (hok.ne_zero hn), destroyData, hn]
    simp only [Option.bind_eq_bind, Option.bind_some, if_pos hd, Mem.update_eq hn, ← hh1, Mem.update_eq h1a]
    rfl
  · exact hp.freeList.congr fun b hb => f2 b (by rintro rfl; exact hfree hb)
  · exact hp.chunkList.congr fun b hb => f2 b (by rintro rfl; exact hchunk hb)
  · exact List.perm_middle.trans hp.perm
  · intro b hb
    rw [hs]
    exact hp.alloc b hb
  · intro b _ hb
    refine f2 b ?_
    rintro rfl
    exact hb (hp.mem_cells_of_mem (by simp))

theorem releaseLoop_free {h : Heap V} {p k : ℕ} {chunks : List ℕ} (hok : h.Ok)
    (hc : Chain h p chunks) (hn : (chunks.flatMap cells).Nodup)
    (ha : ∀ a ∈ chunks.flatMap cells, (h.load a).isSome) (hk : chunks.length < k) :
    ∃ h', releaseLoop k h p = some h' ∧ h'.next = h.next ∧
      ∀ b, h'.load b = if b ∈ chunks.flatMap cells then none else h.load b := by
  induction chunks generalizing h p k with
  | nil =>
      obtain ⟨k, rfl⟩ : ∃ j, k = j + 1 := ⟨k - 1, by simp at hk; omega⟩
      obtain rfl : p = 0 := hc
      exact ⟨h, by simp [releaseLoop], rfl, by simp⟩
  | cons c chunks ih =>
      obtain ⟨k, rfl⟩ : ∃ j, k = j + 1 := ⟨k - 1, by simp at hk; omega⟩
      obtain ⟨rfl, n, hload, _, hl⟩ := hc
      rw [List.flatMap_cons, List.nodup_append] at hn
      obtain ⟨h1, e1, n1, f1⟩ := Mem.free_eq (m := h) (a := p) (k := nodeChunkSize + 1) fun i hi => by
        have : p + i ∈ (p :: chunks).flatMap cells := by
          rw [List.flatMap_cons, List.mem_append, mem_cells]
          omega
        exact Option.isSome_iff_exists.mp (ha _ this)
      have hout : ∀ b ∈ chunks.flatMap cells, h1.load b = h.load b := by
        intro b hb
        rw [f1 b, if_neg]
        intro hin
        exact hn.2.2 b (mem_cells.mpr hin) b hb rfl
      have hok1 : h1.Ok := by
        refine ⟨?_, fun b hb => ?_, by rw [n1]; exact hok.pos⟩
        · rw [f1 0, hok.null]
          simp
        · rw [f1 b, hok.fresh b (by omega)]
          simp
      have hself : ∀ c ∈ chunks, c ∈ chunks.flatMap cells := fun c hc =>
        List.mem_flatMap.mpr ⟨c, hc, by simp [cells]⟩
      obtain ⟨h', e, hx, f⟩ := ih (k := k) hok1 (hl.congr fun b hb => hout b (hself b hb)) hn.2.1
        (fun b hb => by
          rw [hout b hb]
          exact ha b (by rw [List.flatMap_cons, List.mem_append]; exact Or.inr hb))
        (by simpa using hk)
      refine ⟨h', ?_, hx.trans n1, fun b => ?_⟩
      · rw [releaseLoop, if_neg (hok.ne_zero hload), getChild_eq _ hload]
        simp only [Option.bind_eq_bind, Option.bind_some, e1]
        exact e
      · rw [f b, List.flatMap_cons, f1 b]
        by_cases hb : b ∈ chunks.flatMap cells
        · rw [if_pos hb, if_pos (List.mem_append.mpr (Or.inr hb))]
        · rw [if_neg hb]
          by_cases hbc : b ∈ cells p
          · rw [if_pos (mem_cells.mp hbc), if_pos (List.mem_append.mpr (Or.inl hbc))]
          · rw [if_neg (fun hin => hbc (mem_cells.mpr hin)), if_neg]
            rw [List.mem_append]
            exact fun hor => hor.elim hbc hb

/-- **`release_nodes`** frees the chunks of the tree and nothing else. -/
theorem releaseNodes_pool {h : Heap V} {t : RbTree K} {used free chunks : List ℕ} (hok : h.Ok)
    (hp : Pool h t used free chunks) :
    ∃ h', releaseNodes h t = some (h', { t with nodeChunks := 0, freeNodes := 0 }) ∧ h'.Ok ∧
      h'.next = h.next ∧ ∀ b, h'.load b = if b ∈ chunks.flatMap cells then none else h.load b := by
  have hself : ∀ c ∈ chunks, c ∈ chunks.flatMap cells := fun c hc =>
    List.mem_flatMap.mpr ⟨c, hc, by simp [cells]⟩
  have hsub : chunks.Sublist (chunks.flatMap cells) := by
    clear hp hself
    induction chunks with
    | nil => simp
    | cons c chunks ih =>
        rw [List.flatMap_cons]
        exact (List.singleton_sublist.mpr (by simp [cells])).append ih
  have hlen := hok.length_lt (hp.nodup.sublist hsub) fun a ha => hp.alloc a (hself a ha)
  obtain ⟨h', e, hx, f⟩ := releaseLoop_free (k := walkBound h) hok hp.chunkList hp.nodup hp.alloc
    (by unfold walkBound; omega)
  refine ⟨h', ?_, ⟨?_, fun b hb => ?_, by rw [hx]; exact hok.pos⟩, hx, f⟩
  · rw [releaseNodes, e]
    rfl
  · rw [f 0, hok.null]
    simp
  · rw [f b, hok.fresh b (by omega)]
    simp

end NeForce.Rb
