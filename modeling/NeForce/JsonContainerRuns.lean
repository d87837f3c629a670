import Mathlib.Data.Nat.Log
import NeForce.JsonContainers
import NeForce.JsonStored

/-! # Containers keep their entries

A run of calls is compared with what was appended: the blocks stay disjoint, every entry is stored into a block of its
container, and each container has its entries in order (`run_intact`).  A container whose count wraps around loses all of
them (`wrapped_array_empty`). -/

namespace NeForce.Json

variable {V : Type}

/-! ### Slots and room -/

/-- The `size` bytes from `p` on are the slot `s`. -/
def SlotAt (memory : Pointer → Cell V) (p : Pointer) (size : ℕ) (s : Slot V) : Prop :=
  ∀ k < size, memory (p.add k) = .slot s k

/-- A copy of `text`, in a block of its own. -/
def Doc.TextAt (d : Doc V) (p : Pointer) (text : Bytes) : Prop :=
  ∃ (j : ℕ) (b : Block), d.blocks[j]? = some b ∧ b.owner = none ∧ b.Spans p text.length ∧
    ∀ k (hk : k < text.length), d.memory (p.add k) = .char text[k]

/-- The entry that is read from a slot. -/
def Doc.Reads (d : Doc V) : Slot V → Bytes × V → Prop
  | .element v, entry => entry = ([], v)
  | .member key stored v, entry => key.view = some entry.1 ∧ v = entry.2 ∧ ∀ p, stored = some p → d.TextAt p entry.1

/-- `cap` slots are enough for `count` entries, and for the next ones up to the count that `containerFull` finds. -/
structure Room (count reserved cap : ℕ) : Prop where
  le : count ≤ cap
  reserved_eq : reserved ≠ 0 → reserved = cap
  implied : reserved = 0 → 4 ≤ count ∧ ∃ j, count ≤ 2 ^ j ∧ 2 ^ j ≤ cap

/-- There is a slot for the next entry. -/
structure Ready (count reserved cap : ℕ) : Prop where
  lt : count < cap
  reserved_eq : reserved ≠ 0 → reserved = cap
  implied : reserved = 0 → 4 ≤ count ∧ ∃ j, count < 2 ^ j ∧ 2 ^ j ≤ cap

structure Doc.Slots (d : Doc V) (i : ℕ) (node : Node) (entries : List (Bytes × V)) (p : Pointer) (cap : ℕ) : Prop where
  block : ∃ b, d.blocks[node.block]? = some b ∧ b.owner = some i ∧ b.Spans p (cap * node.slotSize)
  entry : ∀ {k e}, entries[k]? = some e →
    ∃ s, SlotAt d.memory (p.add (k * node.slotSize)) node.slotSize s ∧ d.Reads s e

structure Doc.Contains (d : Doc V) (i : ℕ) (node : Node) (c : Appended V) : Prop where
  kind : node.isObject = c.1
  count : node.count = c.2.length
  empty : node.pointer = none → node.count = 0 ∧ node.reserved = 0
  slots : ∀ p, node.pointer = some p → ∃ cap, Room node.count node.reserved cap ∧ d.Slots i node c.2 p cap

/-- The blocks are disjoint, each container has exactly the entries that were appended to it, and each store of an entry
went into a block of its container. -/
structure Intact (d : Doc V) (m : List (Appended V)) : Prop where
  arena : d.arena.Holds d.blocks
  length : d.nodes.length = m.length
  nodes : ∀ {i node c}, d.nodes[i]? = some node → m[i]? = some c → d.Contains i node c
  writes : ∀ w ∈ d.writes, ∃ b, d.blocks[w.block]? = some b ∧ b.owner = some w.node ∧ b.Spans w.address w.size

variable {d d' : Doc V} {m m' : List (Appended V)} {i j k n count reserved cap : ℕ} {node node' : Node} {b b' : Block}
  {c : Appended V} {entries : List (Bytes × V)} {p q : Pointer} {changed : Option ℕ} {s : Slot V} {e : Bytes × V}

theorem Ready.room (h : Ready count reserved cap) : Room count reserved cap where
  le := h.lt.le
  reserved_eq := h.reserved_eq
  implied h0 := by
    obtain ⟨hfour, j, hlt, hle⟩ := h.implied h0
    exact ⟨hfour, j, hlt.le, hle⟩

theorem Ready.next (h : Ready count reserved cap) : Room (count + 1) reserved cap where
  le := h.lt
  reserved_eq := h.reserved_eq
  implied h0 := by
    obtain ⟨hfour, j, hlt, hle⟩ := h.implied h0
    exact ⟨by omega, j, hlt, hle⟩

/-- A count that is not found to be full is not a power of two, so that there is a slot before the next one. -/
theorem Room.ready (h : Room count reserved cap) (hfull : containerFull count reserved = false) :
    Ready count reserved cap := by
  unfold containerFull at hfull
  by_cases h0 : reserved = 0
  · rw [if_neg (not_not.mpr h0)] at hfull
    obtain ⟨hfour, j, hle, hroom⟩ := h.implied h0
    have hne : count ≠ 2 ^ j := by
      intro hcount
      rw [hcount, Nat.and_two_pow_sub_one_eq_mod, Nat.mod_self] at hfull
      rw [hcount] at hfour
      simp [hfour] at hfull
    have hlt : count < 2 ^ j := lt_of_le_of_ne hle hne
    exact ⟨hlt.trans_le hroom, fun h => absurd h0 h, fun _ => ⟨hfour, j, hlt, hroom⟩⟩
  · rw [if_pos h0, decide_eq_false_iff_not] at hfull
    have := h.reserved_eq h0
    exact ⟨by omega, h.reserved_eq, fun h => absurd h h0⟩

theorem lt_containerGrowth (count : ℕ) : count < containerGrowth count := by
  unfold containerGrowth
  split <;> omega

/-- The double of a count is at least the next power of two. -/
theorem ready_growth (node : Node) : Ready node.count (node.setCapacity (containerGrowth node.count)).reserved
    (containerGrowth node.count) := by
  have hlt := lt_containerGrowth node.count
  unfold Node.setCapacity
  dsimp only
  refine ⟨hlt, fun h => ?_, fun h => ?_⟩
  · by_cases hle : containerGrowth node.count ≤ reservedLimit
    · exact if_pos hle
    · exact absurd (if_neg hle) h
  · have hlarge : reservedLimit < containerGrowth node.count := by
      by_contra hle
      rw [if_pos (Nat.not_lt.mp hle)] at h
      omega
    have hfour : 4 ≤ node.count := by
      by_contra hlt
      rw [containerGrowth, if_pos (Nat.not_le.mp hlt)] at hlarge
      exact absurd hlarge (by decide)
    have hgrowth : containerGrowth node.count = node.count * 2 := if_neg (Nat.not_lt.mpr hfour)
    refine ⟨hfour, Nat.log 2 node.count + 1, Nat.lt_pow_succ_log_self (by decide) _, ?_⟩
    have := Nat.pow_log_le_self 2 (show node.count ≠ 0 by omega)
    rw [hgrowth, Nat.pow_succ]
    omega

theorem Node.slotSize_pos (node : Node) : 16 ≤ node.slotSize := by
  unfold Node.slotSize slotSizeOf valueSize
  split <;> decide

/-- A slot ends before the next one. -/
theorem slot_le {size : ℕ} (hk : k < n) : k * size + size ≤ n * size := by
  rw [← Nat.succ_mul]
  exact Nat.mul_le_mul_right _ hk

theorem dvd_slotSize (isObject : Bool) (n : ℕ) : 8 ∣ n * slotSizeOf isObject := by
  refine Dvd.dvd.mul_left ?_ n
  cases isObject <;> decide

/-! ### What is kept -/

/-- Blocks stay where they are and do not get shorter, and memory is changed in blocks of one container at most. -/
structure Doc.Extends (d d' : Doc V) (changed : Option ℕ) : Prop where
  blocks : ∀ {j : ℕ} {b : Block}, d.blocks[j]? = some b →
    ∃ b', d'.blocks[j]? = some b' ∧ b'.owner = b.owner ∧ b'.start = b.start ∧ b.length ≤ b'.length
  memory : ∀ {j : ℕ} {b : Block} {q : Pointer}, d.blocks[j]? = some b → b.owner = none ∨ b.owner ≠ changed →
    b.Covers q → d'.memory q = d.memory q

theorem Block.Spans.of_le (h : b.Spans p n) (hstart : b'.start = b.start) (hlength : b.length ≤ b'.length) : b'.Spans p n := by
  obtain ⟨hchunk, hle, hstop⟩ := h
  refine ⟨hstart ▸ hchunk, hstart ▸ hle, ?_⟩
  rw [hstart]
  omega

theorem Block.Spans.sub (h : b.Spans p n) (hk : k + count ≤ n) : b.Spans (p.add k) count := by
  obtain ⟨hchunk, hle, hstop⟩ := h
  exact ⟨hchunk, by simp only [Pointer.add]; omega, by simp only [Pointer.add]; omega⟩

theorem Doc.Extends.textAt {text : Bytes} (h : d.Extends d' changed) (htext : d.TextAt p text) : d'.TextAt p text := by
  obtain ⟨j, b, hb, howner, hspans, hchars⟩ := htext
  obtain ⟨b', hb', howner', hstart, hlength⟩ := h.blocks hb
  refine ⟨j, b', hb', howner'.trans howner, hspans.of_le hstart hlength, fun k hk => ?_⟩
  rw [h.memory hb (.inl howner) (hspans.covers hk)]
  exact hchars k hk

theorem Doc.Extends.reads (h : d.Extends d' changed) (hreads : d.Reads s e) : d'.Reads s e := by
  cases s with
  | element v => exact hreads
  | member key stored v =>
      obtain ⟨hview, hv, hstored⟩ := hreads
      exact ⟨hview, hv, fun p hp => h.textAt (hstored p hp)⟩

theorem Doc.Extends.slots (h : d.Extends d' changed) (hi : some i ≠ changed) (hroom : entries.length ≤ cap)
    (hslots : d.Slots i node entries p cap) : d'.Slots i node entries p cap := by
  obtain ⟨⟨b, hb, howner, hspans⟩, hentry⟩ := hslots
  obtain ⟨b', hb', howner', hstart, hlength⟩ := h.blocks hb
  refine ⟨⟨b', hb', howner'.trans howner, hspans.of_le hstart hlength⟩, fun {k e} he => ?_⟩
  obtain ⟨s, hs, hreads⟩ := hentry he
  refine ⟨s, fun l hl => ?_, h.reads hreads⟩
  have hk : k < entries.length := (List.getElem?_eq_some_iff.mp he).1
  have hfits : k * node.slotSize + node.slotSize ≤ cap * node.slotSize := slot_le (hk.trans_le hroom)
  rw [h.memory hb (.inr (howner ▸ hi)) ((hspans.sub hfits).covers hl)]
  exact hs l hl

theorem Doc.Extends.contains (h : d.Extends d' changed) (hi : some i ≠ changed) (hc : d.Contains i node c) :
    d'.Contains i node c where
  kind := hc.kind
  count := hc.count
  empty := hc.empty
  slots p hp := by
    obtain ⟨cap, hroom, hslots⟩ := hc.slots p hp
    exact ⟨cap, hroom, h.slots hi (hc.count ▸ hroom.le) hslots⟩

/-- A store that went into a block of its container still did. -/
theorem Doc.Extends.write {w : Write} (h : d.Extends d' changed)
    (hw : ∃ b, d.blocks[w.block]? = some b ∧ b.owner = some w.node ∧ b.Spans w.address w.size) :
    ∃ b, d'.blocks[w.block]? = some b ∧ b.owner = some w.node ∧ b.Spans w.address w.size := by
  obtain ⟨b, hb, howner, hspans⟩ := hw
  obtain ⟨b', hb', howner', hstart, hlength⟩ := h.blocks hb
  exact ⟨b', hb', howner'.trans howner, hspans.of_le hstart hlength⟩

/-- One more block, with changes in it only. -/
theorem Doc.extends_append (hblocks : d'.blocks = d.blocks ++ [b]) (hholds : d'.arena.Holds d'.blocks)
    (hmemory : ∀ q, ¬b.Covers q → d'.memory q = d.memory q) : d.Extends d' none where
  blocks {j b'} hb' := by
    refine ⟨b', ?_, rfl, rfl, Nat.le_refl _⟩
    rw [hblocks, List.getElem?_append_left (List.getElem?_eq_some_iff.mp hb').1]
    exact hb'
  memory {j b' q} hb' _ hq := by
    refine hmemory q fun hnew => ?_
    have hj := (List.getElem?_eq_some_iff.mp hb').1
    have hlast : d'.blocks[d.blocks.length]? = some b := by rw [hblocks, List.getElem?_concat_length]
    have hold : d'.blocks[j]? = some b' := by rw [hblocks, List.getElem?_append_left hj, hb']
    exact absurd (hholds.disjoint hold hlast hq hnew) (Nat.ne_of_lt hj)

theorem Doc.allocate_spec (h : d.arena.Holds d.blocks) (owner : Option ℕ) {size : ℕ} (hne : count * size ≠ 0) :
    ∃ p a, d.allocate owner count size =
        (some p, { d with arena := a, blocks := d.blocks ++ [⟨owner, p, align8 (count * size)⟩] }) ∧
      a.Holds (d.blocks ++ [⟨owner, p, align8 (count * size)⟩]) := by
  obtain ⟨p, a, hallocate, hholds⟩ := Arena.allocate_holds h owner hne
  refine ⟨p, a, ?_, hholds⟩
  unfold Doc.allocate
  rw [hallocate]

/-! ### One container at a time -/

/-- A change of container `i` that extends the document. -/
theorem Intact.set (h : Intact d m) (hextends : d.Extends d' changed) (hchanged : changed = none ∨ changed = some i)
    (harena : d'.arena.Holds d'.blocks) (hnodes : d'.nodes = d.nodes.set i node) (hnode : d'.Contains i node c)
    (hwrites : ∀ w ∈ d'.writes, w ∈ d.writes ∨
      ∃ b, d'.blocks[w.block]? = some b ∧ b.owner = some w.node ∧ b.Spans w.address w.size) :
    Intact d' (m.set i c) where
  arena := harena
  length := by rw [hnodes, List.length_set, List.length_set, h.length]
  nodes {j node' c'} hj hc := by
    by_cases hij : i = j
    · subst hij
      rw [hnodes] at hj
      have hi : i < d.nodes.length := by
        have := (List.getElem?_eq_some_iff.mp hj).1
        rwa [List.length_set] at this
      rw [List.getElem?_set_self hi] at hj
      rw [List.getElem?_set_self (h.length ▸ hi)] at hc
      cases hj
      cases hc
      exact hnode
    · rw [hnodes, List.getElem?_set_ne hij] at hj
      rw [List.getElem?_set_ne hij] at hc
      refine hextends.contains ?_ (h.nodes hj hc)
      rcases hchanged with rfl | rfl
      · exact Option.some_ne_none j
      · exact fun h => hij (Option.some.inj h).symm
  writes w hw := by
    rcases hwrites w hw with hold | hnew
    · exact hextends.write (h.writes w hold)
    · exact hnew

/-- A change of no container. -/
theorem Intact.extend (h : Intact d m) (hextends : d.Extends d' none) (harena : d'.arena.Holds d'.blocks)
    (hnodes : d'.nodes = d.nodes) (hwrites : d'.writes = d.writes) : Intact d' m where
  arena := harena
  length := hnodes ▸ h.length
  nodes {j node c} hj hc := by
    rw [hnodes] at hj
    exact hextends.contains (Option.some_ne_none j) (h.nodes hj hc)
  writes w hw := by
    exact hextends.write (h.writes w (hwrites ▸ hw))

/-- A container with a slot for its next entry. -/
def Doc.ReadyAt (d : Doc V) (i : ℕ) (node : Node) (entries : List (Bytes × V)) : Prop :=
  ∃ p cap, node.pointer = some p ∧ Ready node.count node.reserved cap ∧ d.Slots i node entries p cap

theorem Doc.ReadyAt.contains (h : d.ReadyAt i node c.2) (hkind : node.isObject = c.1) (hcount : node.count = c.2.length) :
    d.Contains i node c where
  kind := hkind
  count := hcount
  empty hp := by
    obtain ⟨p, -, hp', -⟩ := h
    rw [hp] at hp'
    cases hp'
  slots p hp := by
    obtain ⟨p', cap, hp', hready, hslots⟩ := h
    rw [hp] at hp'
    cases hp'
    exact ⟨cap, hready.room, hslots⟩

theorem set_self_of_getElem? {α : Type} {l : List α} {x : α} (h : l[i]? = some x) : l.set i x = l := by
  obtain ⟨hi, rfl⟩ := List.getElem?_eq_some_iff.mp h
  exact List.set_getElem_self hi

/-- A container gets slots, and its entries stay. -/
theorem Intact.setReady (h : Intact d m) (hc : m[i]? = some c) (hextends : d.Extends d' none)
    (harena : d'.arena.Holds d'.blocks) (hnodes : d'.nodes = d.nodes.set i node) (hwrites : d'.writes = d.writes)
    (hready : d'.ReadyAt i node c.2) (hkind : node.isObject = c.1) (hcount : node.count = c.2.length) : Intact d' m := by
  have hset := h.set hextends (.inl rfl) harena hnodes (hready.contains hkind hcount) fun w hw => .inl (hwrites ▸ hw)
  rwa [set_self_of_getElem? hc] at hset

/-- What `makeRoom` leaves. -/
structure RoomMade (d' : Doc V) (m : List (Appended V)) (i : ℕ) (node : Node) (c : Appended V) : Prop where
  intact : Intact d' m
  ready : ∃ node', d'.nodes[i]? = some node' ∧ node'.isObject = node.isObject ∧ node'.count = node.count ∧
    d'.ReadyAt i node' c.2

/-- New slots, with a copy of the entries. -/
theorem Doc.move_spec (h : Intact d m) (hnode : d.nodes[i]? = some node) (hc : m[i]? = some c) :
    RoomMade (d.move i node (containerGrowth node.count)) m i node c := by
  have hcontains := h.nodes hnode hc
  have hsize := node.slotSize_pos
  have hgrowth := lt_containerGrowth node.count
  have hdvd : 8 ∣ containerGrowth node.count * node.slotSize := dvd_slotSize _ _
  have hne : containerGrowth node.count * node.slotSize ≠ 0 := Nat.mul_ne_zero (by omega) (by omega)
  obtain ⟨p, a, hallocate, hholds⟩ := d.allocate_spec h.arena (some i) hne
  rw [align8_of_dvd hdvd] at hallocate hholds
  have hi := (List.getElem?_eq_some_iff.mp hnode).1
  generalize hmove : d.move i node (containerGrowth node.count) = d'
  unfold Doc.move at hmove
  rw [hallocate] at hmove
  have hblocks : d'.blocks = d.blocks ++ [⟨some i, p, containerGrowth node.count * node.slotSize⟩] := hmove ▸ rfl
  have hmemory : d'.memory = copyBytes d.memory (some p) node.pointer (node.count * node.slotSize) := hmove ▸ rfl
  have hnodes : d'.nodes = d.nodes.set i { node.setCapacity (containerGrowth node.count) with
      pointer := some p, block := d.blocks.length } := hmove ▸ rfl
  have hwrites : d'.writes = d.writes := hmove ▸ rfl
  have harena : d'.arena.Holds d'.blocks := hmove ▸ hholds
  have hextends : d.Extends d' none := by
    refine Doc.extends_append hblocks harena fun q hq => ?_
    rw [hmemory]
    cases node.pointer with
    | none => rfl
    | some source =>
        refine if_neg fun hcopied => hq ⟨hcopied.1, hcopied.2.1, hcopied.2.2.trans_le ?_⟩
        exact Nat.add_le_add_left (Nat.mul_le_mul_right _ hgrowth.le) _
  have hspans : (Block.mk (some i) p (containerGrowth node.count * node.slotSize)).Spans p
      (containerGrowth node.count * node.slotSize) := ⟨rfl, Nat.le_refl _, Nat.le_refl _⟩
  have hready : d'.ReadyAt i { node.setCapacity (containerGrowth node.count) with
      pointer := some p, block := d.blocks.length } c.2 := by
    refine ⟨p, containerGrowth node.count, rfl, ready_growth node, ⟨_, ?_, rfl, hspans⟩, fun {k e} he => ?_⟩
    · rw [hblocks, List.getElem?_concat_length]
    · have hk : k < c.2.length := (List.getElem?_eq_some_iff.mp he).1
      cases hp : node.pointer with
      | none =>
          have := (hcontains.empty hp).1
          have := hcontains.count
          omega
      | some source =>
          obtain ⟨cap, -, hslots⟩ := hcontains.slots source hp
          obtain ⟨s, hs, hreads⟩ := hslots.entry he
          refine ⟨s, fun l hl => ?_, hextends.reads hreads⟩
          have hl : l < node.slotSize := hl
          have hfits : k * node.slotSize + node.slotSize ≤ node.count * node.slotSize := slot_le (hcontains.count ▸ hk)
          have hcovers : p.Covers (node.count * node.slotSize) ((p.add (k * node.slotSize)).add l) := by
            refine ⟨rfl, ?_, ?_⟩ <;> simp only [Pointer.add] <;> omega
          have hsource : source.add (((p.add (k * node.slotSize)).add l).offset - p.offset) =
              (source.add (k * node.slotSize)).add l := by
            simp only [Pointer.add, Pointer.mk.injEq, true_and]
            omega
          rw [hmemory, hp]
          change copyBytes d.memory (some p) (some source) (node.count * node.slotSize)
            ((p.add (k * node.slotSize)).add l) = _
          simp only [copyBytes]
          rw [if_pos hcovers, hsource]
          exact hs l hl
  exact ⟨h.setReady hc hextends harena hnodes hwrites hready hcontains.kind hcontains.count, _,
    (congrArg (·[i]?) hnodes).trans (List.getElem?_set_self hi), rfl, rfl, hready⟩

theorem modify_eq_set {α : Type} {l : List α} {x : α} (h : l[i]? = some x) (f : α → α) : l.modify i f = l.set i (f x) := by
  obtain ⟨hi, rfl⟩ := List.getElem?_eq_some_iff.mp h
  apply List.ext_getElem?
  intro j
  rw [List.getElem?_modify, List.getElem?_set]
  by_cases hij : i = j
  · subst hij
    simp [hi]
  · simp [hij]

/-- Longer slots in place. -/
theorem Doc.extendSlots_spec (h : Intact d m) (hnode : d.nodes[i]? = some node) (hc : m[i]? = some c)
    (hp : node.pointer = some p) {a : Arena} (hextend : d.arena.tryExtend (some p) (node.count * node.slotSize)
      (containerGrowth node.count * node.slotSize) = some a) :
    RoomMade { d with
      arena := a
      nodes := d.nodes.set i (node.setCapacity (containerGrowth node.count))
      blocks := d.blocks.modify node.block (·.extend p (containerGrowth node.count * node.slotSize)) } m i node c := by
  have hcontains := h.nodes hnode hc
  have hi := (List.getElem?_eq_some_iff.mp hnode).1
  obtain ⟨cap, hroom, hslots⟩ := hcontains.slots p hp
  obtain ⟨b, hb, howner, hspans⟩ := hslots.block
  have hused : b.Spans p (node.count * node.slotSize) :=
    ⟨hspans.chunk, hspans.start, (Nat.add_le_add_left (Nat.mul_le_mul_right _ hroom.le) _).trans hspans.stop⟩
  have hgrowth := lt_containerGrowth node.count
  obtain ⟨hholds, hlonger, hnew⟩ := Arena.tryExtend_holds h.arena hb hused (dvd_slotSize _ _) (dvd_slotSize _ _)
    (Nat.mul_le_mul_right _ hgrowth.le) hextend
  rw [modify_eq_set hb]
  generalize hd' : ({ d with
      arena := a
      nodes := d.nodes.set i (node.setCapacity (containerGrowth node.count))
      blocks := d.blocks.set node.block (b.extend p (containerGrowth node.count * node.slotSize)) } : Doc V) = d'
  have hblocks : d'.blocks = d.blocks.set node.block (b.extend p (containerGrowth node.count * node.slotSize)) := hd' ▸ rfl
  have hmemory : d'.memory = d.memory := hd' ▸ rfl
  have hnodes : d'.nodes = d.nodes.set i (node.setCapacity (containerGrowth node.count)) := hd' ▸ rfl
  have hwrites : d'.writes = d.writes := hd' ▸ rfl
  have harena : d'.arena.Holds d'.blocks := hd' ▸ hholds
  have hset : d'.blocks[node.block]? = some (b.extend p (containerGrowth node.count * node.slotSize)) := by
    rw [hblocks, List.getElem?_set_self (List.getElem?_eq_some_iff.mp hb).1]
  have hextends : d.Extends d' none := by
    refine ⟨fun {j b'} hj => ?_, fun _ _ _ => by rw [hmemory]⟩
    by_cases hij : node.block = j
    · subst hij
      rw [hb] at hj
      cases hj
      exact ⟨_, hset, rfl, rfl, hlonger⟩
    · refine ⟨b', ?_, rfl, rfl, Nat.le_refl _⟩
      rw [hblocks, List.getElem?_set_ne hij, hj]
  have hready : d'.ReadyAt i (node.setCapacity (containerGrowth node.count)) c.2 := by
    refine ⟨p, containerGrowth node.count, hp, ready_growth node, ⟨_, hset, howner, hnew⟩, fun {k e} he => ?_⟩
    obtain ⟨s, hs, hreads⟩ := hslots.entry he
    exact ⟨s, fun l hl => by rw [hmemory]; exact hs l hl, hextends.reads hreads⟩
  exact ⟨h.setReady hc hextends harena hnodes hwrites hready hcontains.kind hcontains.count, _,
    (congrArg (·[i]?) hnodes).trans (List.getElem?_set_self hi), rfl, rfl, hready⟩

theorem Doc.makeRoom_spec (h : Intact d m) (hnode : d.nodes[i]? = some node) (hc : m[i]? = some c) :
    RoomMade (d.makeRoom i node) m i node c := by
  have hcontains := h.nodes hnode hc
  unfold Doc.makeRoom
  split
  · dsimp only
    split
    · next p a hp hextend =>
      rw [hp] at hextend
      exact Doc.extendSlots_spec h hnode hc hp hextend
    · exact Doc.move_spec h hnode hc
  · next hfull =>
    refine ⟨h, node, hnode, rfl, rfl, ?_⟩
    cases hp : node.pointer with
    | none =>
        obtain ⟨hcount, hreserved⟩ := hcontains.empty hp
        rw [hcount, hreserved] at hfull
        exact absurd rfl hfull
    | some p =>
        obtain ⟨cap, hroom, hslots⟩ := hcontains.slots p hp
        exact ⟨p, cap, hp, hroom.ready (Bool.eq_false_iff.mpr hfull), hslots⟩

/-- A slot made in a document, and the document that is left. -/
structure Makes (d d' : Doc V) (m : List (Appended V)) (s : Slot V) (e : Bytes × V) : Prop where
  intact : Intact d' m
  extends_none : d.Extends d' none
  nodes : d'.nodes = d.nodes
  reads : d'.Reads s e

theorem Doc.extends_refl (d : Doc V) : d.Extends d none := ⟨fun {_ b} hb => ⟨b, hb, rfl, rfl, Nat.le_refl _⟩, fun _ _ _ => rfl⟩

theorem Doc.storeString_spec (h : Intact d m) (text : Bytes) :
    Intact (d.storeString text).2 m ∧ d.Extends (d.storeString text).2 none ∧ (d.storeString text).2.nodes = d.nodes ∧
      ∀ p, (d.storeString text).1 = some p → (d.storeString text).2.TextAt p text := by
  unfold Doc.storeString
  split
  · exact ⟨h, d.extends_refl, rfl, fun p hp => by cases hp⟩
  · next htext =>
    have hne : text.length * 1 ≠ 0 := by simpa using htext
    obtain ⟨p, a, hallocate, hholds⟩ := d.allocate_spec h.arena none hne
    rw [hallocate]
    dsimp only
    have hlength : text.length ≤ align8 (text.length * 1) := (Nat.mul_one _ ▸ align8_ge text.length)
    have hextends : d.Extends { d with
        arena := a
        memory := putText d.memory p text
        blocks := d.blocks ++ [⟨none, p, align8 (text.length * 1)⟩] } none :=
      Doc.extends_append rfl hholds fun q hq =>
        if_neg fun hcovers => hq ⟨hcovers.1, hcovers.2.1, hcovers.2.2.trans_le (Nat.add_le_add_left hlength _)⟩
    refine ⟨h.extend hextends hholds rfl rfl, hextends, rfl, fun p' hp' => ?_⟩
    cases hp'
    refine ⟨d.blocks.length, _, List.getElem?_concat_length, rfl, ⟨rfl, Nat.le_refl _, Nat.add_le_add_left hlength _⟩, ?_⟩
    intro k hk
    have hcovers : p.Covers text.length (p.add k) := ⟨rfl, Nat.le_add_right _ _, Nat.add_lt_add_left hk _⟩
    change putText d.memory p text (p.add k) = _
    rw [putText, if_pos hcovers, Pointer.add, Nat.add_sub_cancel_left, List.getD_eq_getElem _ _ hk]

theorem Doc.memberSlot_spec (h : Intact d m) {key : Bytes} (hkey : key.length < 2 ^ 31) (value : V) (copyKey : Bool) :
    Makes d (Doc.memberSlot key value copyKey d).2 m (Doc.memberSlot key value copyKey d).1 (key, value) := by
  unfold Doc.memberSlot
  split
  · obtain ⟨hintact, hextends, hnodes, htext⟩ := d.storeString_spec h key
    exact ⟨hintact, hextends, hnodes, (Key.view_assign_iff key).mpr hkey, rfl, htext⟩
  · exact ⟨h, d.extends_refl, rfl, (Key.view_assign_iff key).mpr hkey, rfl, fun p hp => by cases hp⟩

theorem Doc.elementSlot_spec (h : Intact d m) (value : V) :
    Makes d (Doc.elementSlot value d).2 m (Doc.elementSlot value d).1 ([], value) :=
  ⟨h, d.extends_refl, rfl, rfl⟩

/-- The next entry goes into a slot of the container, and no other byte of a container or string changes. -/
theorem Doc.place_spec (h : Intact d m) (hnode : d.nodes[i]? = some node) (hc : m[i]? = some c)
    (hready : d.ReadyAt i node c.2) (hreads : d.Reads s e) (hfits : c.2.length + 1 < 2 ^ 32) :
    ∃ d', d.place i node s = some d' ∧ Intact d' (m.set i (c.1, c.2 ++ [e])) := by
  have hcontains := h.nodes hnode hc
  obtain ⟨p, cap, hp, hready, hslots⟩ := hready
  obtain ⟨b, hb, howner, hspans⟩ := hslots.block
  have hsize := node.slotSize_pos
  have hroom : node.count * node.slotSize + node.slotSize ≤ cap * node.slotSize := slot_le hready.lt
  have haddress : b.Spans (p.add (node.count * node.slotSize)) node.slotSize := hspans.sub hroom
  obtain ⟨d', hd'⟩ : ∃ d', d' = ({ d with
      memory := putSlot d.memory (p.add (node.count * node.slotSize)) node.slotSize s
      nodes := d.nodes.set i { node with count := (node.count + 1) % 2 ^ 32 }
      writes := ⟨i, node.block, p.add (node.count * node.slotSize), node.slotSize⟩ :: d.writes } : Doc V) := ⟨_, rfl⟩
  refine ⟨d', by rw [hd', Doc.place, hp], ?_⟩
  have hmemory : d'.memory = putSlot d.memory (p.add (node.count * node.slotSize)) node.slotSize s := by rw [hd']
  have hnodes : d'.nodes = d.nodes.set i { node with count := (node.count + 1) % 2 ^ 32 } := by rw [hd']
  have hblocks : d'.blocks = d.blocks := by rw [hd']
  have harena : d'.arena.Holds d'.blocks := by rw [hd']; exact h.arena
  have hwrites : d'.writes = ⟨i, node.block, p.add (node.count * node.slotSize), node.slotSize⟩ :: d.writes := by rw [hd']
  have hextends : d.Extends d' (some i) := by
    refine ⟨fun {j b'} hj => ⟨b', hblocks ▸ hj, rfl, rfl, Nat.le_refl _⟩, fun {j b' q} hj hother hq => ?_⟩
    rw [hmemory, putSlot]
    refine if_neg fun hcovers => ?_
    have hmine : b.Covers q :=
      ⟨hcovers.1.trans haddress.chunk, haddress.start.trans hcovers.2.1, hcovers.2.2.trans_le haddress.stop⟩
    have hij := h.arena.disjoint hj hb hq hmine
    rw [hij, hb] at hj
    cases hj
    rw [howner] at hother
    rcases hother with hnone | hne
    · cases hnone
    · exact hne rfl
  have hcount : (node.count + 1) % 2 ^ 32 = (c.2 ++ [e]).length := by
    rw [hcontains.count, Nat.mod_eq_of_lt hfits, List.length_append, List.length_singleton]
  have hentry : ∀ {k : ℕ} {e' : Bytes × V}, (c.2 ++ [e])[k]? = some e' →
      ∃ s, SlotAt d'.memory (p.add (k * node.slotSize)) node.slotSize s ∧ d'.Reads s e' := by
    intro k e' he
    rcases Nat.lt_or_ge k c.2.length with hk | hk
    · rw [List.getElem?_append_left hk] at he
      obtain ⟨s', hs, hreads⟩ := hslots.entry he
      refine ⟨s', fun l hl => ?_, hextends.reads hreads⟩
      have hbefore : k * node.slotSize + node.slotSize ≤ node.count * node.slotSize := slot_le (hcontains.count ▸ hk)
      rw [hmemory, putSlot, if_neg]
      · exact hs l hl
      · intro hcovers
        have := hcovers.2.1
        simp only [Pointer.add] at this
        omega
    · obtain ⟨hk', -⟩ := List.getElem?_eq_some_iff.mp he
      rw [List.length_append, List.length_singleton] at hk'
      have hlast : k = c.2.length := by omega
      rw [hlast, List.getElem?_concat_length] at he
      cases he
      refine ⟨s, fun l hl => ?_, hextends.reads hreads⟩
      rw [hmemory, putSlot, hlast, ← hcontains.count, if_pos ⟨rfl, Nat.le_add_right _ _, Nat.add_lt_add_left hl _⟩]
      simp only [Pointer.add, Nat.add_sub_cancel_left]
  refine h.set hextends (.inr rfl) harena hnodes ⟨hcontains.kind, hcount, fun hnone => ?_, fun p' hp' => ?_⟩ fun w hw => ?_
  · exact absurd (hp.symm.trans hnone) (Option.some_ne_none p)
  · cases hp.symm.trans hp'
    refine ⟨cap, ?_, ⟨b, hblocks ▸ hb, howner, hspans⟩, hentry⟩
    change Room ((node.count + 1) % 2 ^ 32) node.reserved cap
    rw [hcontains.count, Nat.mod_eq_of_lt hfits, ← hcontains.count]
    exact hready.next
  · rw [hwrites] at hw
    rcases List.mem_cons.mp hw with rfl | hw
    · exact .inr ⟨b, hblocks ▸ hb, howner, haddress⟩
    · exact .inl hw

/-! ### Calls -/

theorem Doc.ReadyAt.extend (h : d.ReadyAt i node entries) (hextends : d.Extends d' none)
    (hcount : node.count = entries.length) : d'.ReadyAt i node entries := by
  obtain ⟨p, cap, hp, hready, hslots⟩ := h
  exact ⟨p, cap, hp, hready, hextends.slots (Option.some_ne_none i) (hcount ▸ hready.lt.le) hslots⟩

theorem addEntry_eq_some {isObject : Bool} (h : addEntry m i isObject e = some m') :
    ∃ c, m[i]? = some c ∧ c.1 = isObject ∧ m' = m.set i (c.1, c.2 ++ [e]) := by
  unfold addEntry at h
  obtain ⟨c, hc, h⟩ := Option.bind_eq_some_iff.mp h
  by_cases hkind : c.1 = isObject
  · rw [if_neg (not_not.mpr hkind)] at h
    exact ⟨c, hc, hkind, (hkind ▸ Option.some.inj h).symm⟩
  · rw [if_pos hkind] at h
    cases h

/-- Before its last step an append has room for the entry and its slot. -/
theorem Doc.append_eq_place (h : Intact d m) (hc : m[i]? = some c) {makeSlot : Doc V → Slot V × Doc V}
    (hmake : ∀ d, Intact d m → Makes d (makeSlot d).2 m (makeSlot d).1 e) :
    ∃ d' node s, d.append i c.1 makeSlot = d'.place i node s ∧ Intact d' m ∧ d'.nodes[i]? = some node ∧
      node.count = c.2.length ∧ d'.ReadyAt i node c.2 ∧ d'.Reads s e := by
  have hi : i < d.nodes.length := h.length ▸ (List.getElem?_eq_some_iff.mp hc).1
  have hnode : d.nodes[i]? = some d.nodes[i] := List.getElem?_eq_getElem hi
  have hcontains := h.nodes hnode hc
  obtain ⟨hroom, node, hnode', -, hcount, hready⟩ := Doc.makeRoom_spec h hnode hc
  obtain ⟨hintact, hextends, hnodes, hreads⟩ := hmake _ hroom
  have hcount := hcount.trans hcontains.count
  refine ⟨_, node, _, ?_, hintact, hnodes ▸ hnode', hcount, hready.extend hextends hcount, hreads⟩
  unfold Doc.append
  rw [hnode, Option.bind_eq_bind, Option.bind_some, if_neg (not_not.mpr hcontains.kind)]
  dsimp only
  rw [hnode', Option.bind_some]

theorem Doc.append_spec (h : Intact d m) {isObject : Bool} (hm : addEntry m i isObject e = some m')
    (hfits : ∀ c ∈ m', c.2.length < 2 ^ 32) {makeSlot : Doc V → Slot V × Doc V}
    (hmake : ∀ d, Intact d m → Makes d (makeSlot d).2 m (makeSlot d).1 e) :
    ∃ d', d.append i isObject makeSlot = some d' ∧ Intact d' m' := by
  obtain ⟨c, hc, rfl, rfl⟩ := addEntry_eq_some hm
  obtain ⟨d', node, s, happend, hintact, hnode, -, hready, hreads⟩ := Doc.append_eq_place h hc hmake
  have hmem : (c.1, c.2 ++ [e]) ∈ m.set i (c.1, c.2 ++ [e]) := List.mem_set (List.getElem?_eq_some_iff.mp hc).1 _
  have hlength := hfits _ hmem
  rw [List.length_append, List.length_singleton] at hlength
  obtain ⟨d'', hplace, hintact'⟩ := Doc.place_spec hintact hnode hc hready hreads hlength
  exact ⟨d'', happend.trans hplace, hintact'⟩

theorem Doc.reserve_spec (h : Intact d m) {isObject : Bool} (hm : m[i]?.map Prod.fst = some isObject) (count : ℕ) :
    ∃ d', d.reserve i isObject count = some d' ∧ Intact d' m := by
  obtain ⟨c, hc, rfl⟩ := Option.map_eq_some_iff.mp hm
  have hi : i < d.nodes.length := h.length ▸ (List.getElem?_eq_some_iff.mp hc).1
  have hnode : d.nodes[i]? = some d.nodes[i] := List.getElem?_eq_getElem hi
  have hcontains := h.nodes hnode hc
  generalize d.nodes[i] = node at hnode hcontains
  unfold Doc.reserve
  rw [hnode, Option.bind_eq_bind, Option.bind_some, if_neg (not_not.mpr hcontains.kind)]
  split
  · exact ⟨d, rfl, h⟩
  · next hnot =>
    obtain ⟨hcount, hlimit, hzero, hp⟩ : count ≠ 0 ∧ count ≤ reservedLimit ∧ node.count = 0 ∧ node.pointer = none := by
      simp only [not_or, not_not, Nat.not_lt, Option.not_isSome_iff_eq_none] at hnot
      exact hnot
    have hsize := node.slotSize_pos
    obtain ⟨p, a, hallocate, hholds⟩ := d.allocate_spec h.arena (some i) (Nat.mul_ne_zero hcount (by omega : node.slotSize ≠ 0))
    have hdvd : 8 ∣ count * node.slotSize := dvd_slotSize _ _
    rw [align8_of_dvd hdvd] at hallocate hholds
    rw [hallocate]
    refine ⟨_, rfl, ?_⟩
    generalize hd' : ({ d with
      arena := a
      blocks := d.blocks ++ [⟨some i, p, count * node.slotSize⟩]
      nodes := d.nodes.set i { node.setCapacity count with
        pointer := some p, block := d.blocks.length } } : Doc V) = d'
    have hblocks : d'.blocks = d.blocks ++ [⟨some i, p, count * node.slotSize⟩] := hd' ▸ rfl
    have hnodes : d'.nodes = d.nodes.set i { node.setCapacity count with
        pointer := some p, block := d.blocks.length } := hd' ▸ rfl
    have harena : d'.arena.Holds d'.blocks := hd' ▸ hholds
    have hwrites : d'.writes = d.writes := hd' ▸ rfl
    have hmemory : d'.memory = d.memory := hd' ▸ rfl
    have hextends : d.Extends d' none := Doc.extends_append hblocks harena fun q _ => by rw [hmemory]
    have hnew : d'.blocks[d.blocks.length]? = some ⟨some i, p, count * node.slotSize⟩ := by
      rw [hblocks, List.getElem?_concat_length]
    have hreserved : (node.setCapacity count).reserved = count := if_pos hlimit
    have hnil : c.2 = [] := List.eq_nil_of_length_eq_zero (hcontains.count.symm.trans hzero)
    have hready : d'.ReadyAt i { node.setCapacity count with pointer := some p, block := d.blocks.length } c.2 := by
      refine ⟨p, count, rfl, ⟨?_, fun _ => hreserved, fun h => absurd (hreserved.symm.trans h) hcount⟩, ⟨_, hnew, rfl, ?_⟩,
        fun {k e} he => ?_⟩
      · change node.count < count
        omega
      · exact ⟨rfl, Nat.le_refl _, Nat.le_refl _⟩
      · rw [hnil] at he
        cases he
    exact h.setReady hc hextends harena hnodes hwrites hready hcontains.kind hcontains.count

theorem Doc.newContainer_spec (h : Intact d m) (isObject : Bool) (reserve : ℕ) :
    Intact (d.newContainer isObject reserve) (m ++ [(isObject, [])]) := by
  generalize hd' : d.newContainer isObject reserve = d'
  unfold Doc.newContainer at hd'
  dsimp only at hd'
  generalize (if reserve = 0 ∨ reservedLimit < reserve then 0 else reserve) = slots at hd'
  have hne : (valueSize + slots * slotSizeOf isObject) * 1 ≠ 0 := by
    unfold valueSize
    omega
  have hdvd : 8 ∣ (valueSize + slots * slotSizeOf isObject) * 1 := by
    rw [Nat.mul_one]
    exact Nat.dvd_add (by decide) (dvd_slotSize _ _)
  obtain ⟨p, a, hallocate, hholds⟩ := d.allocate_spec h.arena (some d.nodes.length) hne
  rw [align8_of_dvd hdvd, Nat.mul_one] at hallocate hholds
  rw [hallocate] at hd'
  have hblocks : d'.blocks = d.blocks ++ [⟨some d.nodes.length, p, valueSize + slots * slotSizeOf isObject⟩] := hd' ▸ rfl
  have hnodes : d'.nodes = d.nodes ++ [if slots ≠ 0 then
      { isObject := isObject, pointer := some (p.add valueSize), reserved := slots, block := d.blocks.length }
    else { isObject := isObject }] := hd' ▸ rfl
  have harena : d'.arena.Holds d'.blocks := hd' ▸ hholds
  have hwrites : d'.writes = d.writes := hd' ▸ rfl
  have hmemory : d'.memory = d.memory := hd' ▸ rfl
  have hextends : d.Extends d' none := Doc.extends_append hblocks harena fun q _ => by rw [hmemory]
  have hnew : d'.blocks[d.blocks.length]? = some ⟨some d.nodes.length, p, valueSize + slots * slotSizeOf isObject⟩ := by
    rw [hblocks, List.getElem?_concat_length]
  refine ⟨harena, by rw [hnodes, List.length_append, List.length_append, h.length]; rfl, fun {i node c} hi hc => ?_, ?_⟩
  · rcases Nat.lt_or_ge i d.nodes.length with hlt | hge
    · rw [hnodes, List.getElem?_append_left hlt] at hi
      rw [List.getElem?_append_left (h.length ▸ hlt)] at hc
      exact hextends.contains (Option.some_ne_none i) (h.nodes hi hc)
    · have hlast : i = d.nodes.length := by
        have := (List.getElem?_eq_some_iff.mp hi).1
        rw [hnodes, List.length_append, List.length_singleton] at this
        omega
      rw [hlast, hnodes, List.getElem?_concat_length] at hi
      rw [hlast, h.length, List.getElem?_concat_length] at hc
      cases hi
      cases hc
      by_cases h0 : slots = 0
      · rw [if_neg (not_not.mpr h0)]
        exact ⟨rfl, rfl, fun _ => ⟨rfl, rfl⟩, fun p hp => by cases hp⟩
      · rw [if_pos h0]
        refine ⟨rfl, rfl, fun hp => (by cases hp), fun p' hp' => ?_⟩
        cases hp'
        refine ⟨slots, ⟨Nat.zero_le _, fun _ => rfl, fun h => absurd h h0⟩, ⟨_, hnew, congrArg some hlast.symm, ?_⟩,
          fun {k e} he => ?_⟩
        · exact ⟨rfl, Nat.le_add_right _ _, (Nat.add_assoc _ _ _).le⟩
        · cases he
  · intro w hw
    exact hextends.write (h.writes w (hwrites ▸ hw))

/-! ### The invariant along a run -/

/-- Each container has fewer than `2^32` entries, and its keys are shorter than `2^31` bytes. -/
def Small (m : List (Appended V)) : Prop := ∀ c ∈ m, c.2.length < 2 ^ 32 ∧ ∀ e ∈ c.2, e.1.length < 2 ^ 31

/-- Each container has the entries it had, and maybe more. -/
def Grows (m m' : List (Appended V)) : Prop := ∀ c ∈ m, ∃ c' ∈ m', c.2 <+: c'.2

theorem Grows.small (h : Grows m m') (hfits : Small m') : Small m := by
  intro c hc
  obtain ⟨c', hc', hle⟩ := h c hc
  obtain ⟨hlength, hkeys⟩ := hfits c' hc'
  exact ⟨hle.length_le.trans_lt hlength, fun e he => hkeys e (hle.subset he)⟩

theorem grows_refl (m : List (Appended V)) : Grows m m := fun c hc => ⟨c, hc, List.prefix_rfl⟩

theorem addEntry_grows {isObject : Bool} (h : addEntry m i isObject e = some m') : Grows m m' := by
  obtain ⟨c, hc, rfl, rfl⟩ := addEntry_eq_some h
  obtain ⟨hi, rfl⟩ := List.getElem?_eq_some_iff.mp hc
  intro c' hc'
  obtain ⟨j, hj, rfl⟩ := List.mem_iff_getElem.mp hc'
  by_cases hij : i = j
  · subst hij
    exact ⟨_, List.mem_set hi _, List.prefix_append _ _⟩
  · refine ⟨m[j], ?_, List.prefix_rfl⟩
    rw [List.mem_iff_getElem]
    exact ⟨j, by rwa [List.length_set], List.getElem_set_ne hij _⟩

theorem appendedStep_grows {op : Op V} (h : appendedStep m op = some m') : Grows m m' := by
  cases op with
  | newContainer isObject reserve =>
      cases h
      exact fun c hc => ⟨c, List.mem_append_left _ hc, List.prefix_rfl⟩
  | objectAppend i key value copyKey => exact addEntry_grows h
  | arrayAppend i value => exact addEntry_grows h
  | reserve i isObject count =>
      change (if m[i]?.map Prod.fst = some isObject then some m else none) = some m' at h
      split at h
      · cases h
        exact grows_refl m
      · cases h
  | storeString text =>
      cases h
      exact grows_refl m

theorem appended_grows {ops : List (Op V)} (h : ops.foldlM appendedStep m = some m') : Grows m m' := by
  induction ops generalizing m with
  | nil =>
      cases h
      exact grows_refl _
  | cons op ops ih =>
      obtain ⟨m1, hstep, hrest⟩ := Option.bind_eq_some_iff.mp h
      intro c hc
      obtain ⟨c1, hc1, hle⟩ := appendedStep_grows hstep c hc
      obtain ⟨c2, hc2, hle'⟩ := ih hrest c1 hc1
      exact ⟨c2, hc2, hle.trans hle'⟩

/-- The key of a member that fits is short enough. -/
theorem addEntry_key {isObject : Bool} (h : addEntry m i isObject e = some m') (hfits : Small m') : e.1.length < 2 ^ 31 := by
  obtain ⟨c, hc, rfl, rfl⟩ := addEntry_eq_some h
  exact (hfits _ (List.mem_set (List.getElem?_eq_some_iff.mp hc).1 _)).2 e (List.mem_append_right _ List.mem_cons_self)

theorem Doc.step_spec (h : Intact d m) {op : Op V} (hm : appendedStep m op = some m') (hfits : Small m') :
    ∃ d', d.step op = some d' ∧ Intact d' m' := by
  cases op with
  | newContainer isObject reserve =>
      cases hm
      exact ⟨_, rfl, Doc.newContainer_spec h isObject reserve⟩
  | objectAppend i key value copyKey =>
      have hkey := addEntry_key hm hfits
      exact Doc.append_spec h hm (fun c hc => (hfits c hc).1) fun d hd => Doc.memberSlot_spec hd hkey value copyKey
  | arrayAppend i value =>
      exact Doc.append_spec h hm (fun c hc => (hfits c hc).1) fun d hd => Doc.elementSlot_spec hd value
  | reserve i isObject count =>
      change (if m[i]?.map Prod.fst = some isObject then some m else none) = some m' at hm
      split at hm
      · next hkind =>
        cases hm
        exact Doc.reserve_spec h hkind count
      · cases hm
  | storeString text =>
      cases hm
      exact ⟨_, rfl, (Doc.storeString_spec h text).1⟩

theorem Doc.steps_spec {ops : List (Op V)} (h : Intact d m) (hm : ops.foldlM appendedStep m = some m') (hfits : Small m') :
    ∃ d', ops.foldlM Doc.step d = some d' ∧ Intact d' m' := by
  induction ops generalizing d m with
  | nil =>
      cases hm
      exact ⟨d, rfl, h⟩
  | cons op ops ih =>
      obtain ⟨m1, hstep, hrest⟩ := Option.bind_eq_some_iff.mp hm
      obtain ⟨d1, hd1, hintact⟩ := Doc.step_spec h hstep ((appended_grows hrest).small hfits)
      obtain ⟨d', hd', hintact'⟩ := ih hintact hrest
      exact ⟨d', Option.bind_eq_some_iff.mpr ⟨d1, hd1, hd'⟩, hintact'⟩

theorem intact_empty : Intact ({} : Doc V) [] where
  arena := ⟨fun b hb => (by cases hb), fun hi => (by cases hi)⟩
  length := rfl
  nodes hi := by cases hi
  writes w hw := by cases hw

/-- **Every run of calls** for containers of the right kind goes through, and leaves a document that is intact, as long as
no container has `2^32` entries and no key `2^31` bytes. -/
theorem run_intact {ops : List (Op V)} (hm : appended ops = some m) (hfits : Small m) : ∃ d, run ops = some d ∧ Intact d m :=
  Doc.steps_spec intact_empty hm hfits

/-- Two members, one with a long key, in an object with one reserved slot, and an array element between them. -/
theorem run_intact_two : ∃ d, run [Op.newContainer true 1, .newContainer false 0, .objectAppend 0 [0x61] () true,
      .arrayAppend 1 (), .objectAppend 0 (List.replicate 9 0x62) () true] = some d ∧
    Intact d [(true, [([0x61], ()), (List.replicate 9 0x62, ())]), (false, [([], ())])] :=
  run_intact rfl (by unfold Small; decide)

/-! ### A count that wraps around -/

theorem Doc.place_count {d' : Doc V} (h : d.place i node s = some d') (hnode : d.nodes[i]? = some node) :
    d'.nodes[i]? = some { node with count := (node.count + 1) % 2 ^ 32 } := by
  unfold Doc.place at h
  split at h
  · cases h
  · cases h
    exact List.getElem?_set_self (List.getElem?_eq_some_iff.mp hnode).1

/-- One array, and `n` elements for it. -/
def elements (n : ℕ) : List (Op Unit) := .newContainer false 0 :: List.replicate n (.arrayAppend 0 ())

theorem appended_elements (n : ℕ) : appended (elements n) = some [(false, List.replicate n ([], ()))] := by
  have hfold (l : List (Bytes × Unit)) : (List.replicate n (Op.arrayAppend 0 ())).foldlM appendedStep [(false, l)] =
      some [(false, l ++ List.replicate n ([], ()))] := by
    induction n generalizing l with
    | zero => simp
    | succ n ih =>
        rw [List.replicate_succ, List.foldlM_cons]
        change List.foldlM appendedStep [(false, l ++ [([], ())])] (List.replicate n (Op.arrayAppend 0 ())) = _
        rw [ih, List.append_assoc]
        rfl
  exact hfold []

/-- Behind the largest count an array is empty again. -/
theorem elements_wrap {d : Doc Unit} (hn : n + 1 = 2 ^ 32) (h : run (elements (n + 1)) = some d) :
    ∃ node, d.nodes[0]? = some node ∧ node.count = 0 := by
  have hfits : Small [(false, List.replicate n (([], ()) : Bytes × Unit))] := by
    intro c hc
    rw [List.mem_singleton.mp hc]
    refine ⟨by rw [List.length_replicate]; omega, fun e he => ?_⟩
    rw [(List.mem_replicate.mp he).2]
    exact Nat.two_pow_pos 31
  obtain ⟨d1, hrun, hintact⟩ := run_intact (appended_elements n) hfits
  have hsplit : elements (n + 1) = elements n ++ [.arrayAppend 0 ()] := by
    rw [elements, elements, List.replicate_succ', List.cons_append]
  have hlast : d1.arrayAppend 0 () = some d := by
    rw [hsplit, run, List.foldlM_append] at h
    obtain ⟨d2, hd2, h⟩ := Option.bind_eq_some_iff.mp h
    cases hrun.symm.trans hd2
    rw [List.foldlM_cons] at h
    obtain ⟨d3, hd3, h⟩ := Option.bind_eq_some_iff.mp h
    cases h
    exact hd3
  obtain ⟨d', node, s, happend, -, hnode, hcount, -, -⟩ := Doc.append_eq_place (i := 0) hintact rfl fun d hd =>
    Doc.elementSlot_spec hd ()
  refine ⟨_, Doc.place_count (happend.symm.trans hlast) hnode, ?_⟩
  change (node.count + 1) % 2 ^ 32 = 0
  rw [hcount, List.length_replicate, hn, Nat.mod_self]

/-- An array with `2^32` elements: all of them are lost. -/
theorem wrapped_array_empty : ∃ (ops : List (Op Unit)) (m : List (Appended Unit)), appended ops = some m ∧
    ∀ d, run ops = some d → (∃ node, d.nodes[0]? = some node ∧ node.count = 0) ∧ ¬Intact d m := by
  refine ⟨elements (2 ^ 32 - 1 + 1), _, appended_elements _, fun d hd => ?_⟩
  obtain ⟨node, hnode, hcount⟩ := elements_wrap (n := 2 ^ 32 - 1) (by decide) hd
  refine ⟨⟨node, hnode, hcount⟩, fun h => ?_⟩
  have := (h.nodes hnode rfl).count
  rw [hcount, List.length_replicate] at this
  cases this

end NeForce.Json
