import NeForce.HeapTimer

/-! # Dropping cancelled timers

What `drop_cancelled_locked` does to the heap and to the marks.  An entry of the heap is live if its mark is 0; cancelled
entries with no live one before them leave the heap from the front (`dropTops_spec`), and all of them when the heap is
compacted (`compact_spec`). -/

namespace NeForce.Timer

open BinaryHeap

def isLive (states : States) (x : Entry) : Bool := states.lookup x.id = some 0

/-- The live entries that come before `x`. -/
def liveBefore (heap : List Entry) (states : States) (x : Entry) : ℕ := heap.countP fun y => isLive states y && later x y

/-- The entry is live, or a live one comes before it. -/
def survives (heap : List Entry) (states : States) (x : Entry) : Bool :=
  isLive states x || 0 < liveBefore heap states x

/-- A heap of entries with different identifiers, and the marks of exactly these. -/
structure Core (heap : List Entry) (states : States) : Prop where
  order : IsHeap later heap
  ids : (heap.map (·.id)).Nodup
  known : ∀ id, id ∈ states ↔ ∃ x ∈ heap, x.id = id

variable {heap l : List Entry} {states : States} {first x y : Entry}

theorem nodup_ids_cons : ((x :: l).map (·.id)).Nodup ↔ (∀ y ∈ l, y.id ≠ x.id) ∧ (l.map (·.id)).Nodup := by
  rw [List.map_cons, List.nodup_cons, List.mem_map]
  exact and_congr_left fun _ => ⟨fun h y hy he => h ⟨y, hy, he⟩, fun h ⟨y, hy, he⟩ => h y hy he⟩

theorem Core.id_inj (h : Core heap states) (hx : x ∈ heap) (hy : y ∈ heap) (he : x.id = y.id) : x = y :=
  List.inj_on_of_nodup_map h.ids hx hy he

/-- The front comes before the other entries. -/
theorem Core.front_before (h : Core (first :: l) states) (hx : x ∈ l) : later x first = true := by
  have hge : later first x = false := IsHeap.front (o := laterOrder) h.order (List.mem_cons_of_mem _ hx)
  have hne : x.id ≠ first.id := (nodup_ids_cons.mp h.ids).1 x hx
  unfold later at hge ⊢
  split_ifs at hge ⊢ <;> simp only [decide_eq_true_eq, decide_eq_false_iff_not] at hge ⊢ <;> omega

theorem Core.perm {l' : List Entry} {states' : States} (h : Core heap states) (hheap : IsHeap later l') (hp : l'.Perm heap)
    (hs : ∀ id, id ∈ states' ↔ id ∈ states) : Core l' states' where
  order := hheap
  ids := ((hp.map _).nodup_iff).mpr h.ids
  known id := by simp only [hs, h.known, hp.mem_iff]

theorem Core.erase_lookup (h : Core (first :: l) states) (hx : x ∈ l) :
    (states.erase first.id).lookup x.id = states.lookup x.id :=
  Finmap.lookup_erase_ne ((nodup_ids_cons.mp h.ids).1 x hx)

/-- `pop_heap` and `pop_back`. -/
theorem Core.pop (h : Core (first :: l) states) :
    ∃ rest, popHeap later (first :: l) = rest ++ [first] ∧ rest.Perm l ∧ Core rest (states.erase first.id) := by
  obtain ⟨rest, h1, h2, h3⟩ := popHeap_spec (o := laterOrder) h.order
  have hcons := nodup_ids_cons.mp h.ids
  refine ⟨rest, h1, h3, h2, ((h3.map _).nodup_iff).mpr hcons.2, fun id => ?_⟩
  rw [Finmap.mem_erase, h.known]
  constructor
  · rintro ⟨hne, x, hx, rfl⟩
    rcases List.mem_cons.mp hx with rfl | hx
    · exact absurd rfl hne
    · exact ⟨x, h3.mem_iff.mpr hx, rfl⟩
  · rintro ⟨x, hx, rfl⟩
    have hx' := h3.mem_iff.mp hx
    exact ⟨hcons.1 x hx', x, List.mem_cons_of_mem _ hx', rfl⟩

theorem isLive_congr {states' : States} (h : states'.lookup x.id = states.lookup x.id) :
    isLive states' x = isLive states x := by
  rw [isLive, h, isLive]

/-- Behind a cancelled front the same live entries come before an entry. -/
theorem liveBefore_pop (h : Core (first :: l) states) (hdead : isLive states first = false) {rest : List Entry}
    (hrest : rest.Perm l) : liveBefore rest (states.erase first.id) x = liveBefore (first :: l) states x := by
  unfold liveBefore
  rw [List.countP_cons_of_neg (by simp [hdead]), hrest.countP_eq]
  refine List.countP_congr fun y hy => ?_
  rw [isLive_congr (h.erase_lookup hy)]

theorem dropTops_spec (h : Core heap states) {n : ℕ} (hn : heap.length ≤ n) :
    Core (dropTops n heap states).1 (dropTops n heap states).2 ∧
      (dropTops n heap states).1.Perm (heap.filter (survives heap states)) ∧
      (∀ x ∈ (dropTops n heap states).1, (dropTops n heap states).2.lookup x.id = states.lookup x.id) ∧
      ∀ x, (dropTops n heap states).1.head? = some x → isLive (dropTops n heap states).2 x = true := by
  induction n generalizing heap states with
  | zero =>
      obtain rfl : heap = [] := List.length_eq_zero_iff.mp (by omega)
      exact ⟨h, .refl _, fun _ _ => rfl, fun _ hx => by cases hx⟩
  | succ n ih =>
      cases heap with
      | nil => exact ⟨h, .refl _, fun _ _ => rfl, fun _ hx => by cases hx⟩
      | cons first l =>
          obtain ⟨mark, hmark⟩ := Finmap.mem_iff.mp ((h.known first.id).mpr ⟨first, List.mem_cons_self, rfl⟩)
          unfold dropTops
          simp only [hmark]
          split
          · next hzero =>
            have hlive : isLive states first = true := by simp [isLive, hmark, hzero]
            have hall : (first :: l).filter (survives (first :: l) states) = first :: l := by
              refine List.filter_eq_self.mpr fun x hx => ?_
              rcases List.mem_cons.mp hx with rfl | hx
              · simp [survives, hlive]
              · have hpos : 0 < liveBefore (first :: l) states x :=
                  List.countP_pos_iff.mpr ⟨first, List.mem_cons_self, by simp [hlive, h.front_before hx]⟩
                simp [survives, hpos]
            exact ⟨h, by rw [hall], fun _ _ => rfl, fun x hx => Option.some.inj hx ▸ hlive⟩
          · next hzero =>
            have hdead : isLive states first = false := by simp [isLive, hmark, hzero]
            obtain ⟨rest, h1, h2, h3⟩ := h.pop
            simp only [h1, List.getLast?_append, List.getLast?_singleton, Option.some_or, List.dropLast_concat]
            obtain ⟨i1, i2, i3, i4⟩ := ih h3 (by rw [h2.length_eq]; simpa using hn)
            refine ⟨i1, i2.trans ?_, fun x hx => ?_, i4⟩
            · have hfirst : survives (first :: l) states first = false := by
                have hzero : liveBefore (first :: l) states first = 0 := by
                  refine List.countP_eq_zero.mpr fun y hy => ?_
                  have hge : later first y = false := IsHeap.front (o := laterOrder) h.order hy
                  simp [hge]
                simp [survives, hdead, hzero]
              rw [List.filter_cons_of_neg (by simp [hfirst])]
              refine (h2.filter _).trans (.of_eq (List.filter_congr fun x hx => ?_))
              rw [survives, survives, isLive_congr (h.erase_lookup hx), liveBefore_pop h hdead h2]
            · have hx' : x ∈ l := h2.mem_iff.mp (List.mem_of_mem_filter (i2.mem_iff.mp hx))
              rw [i3 x hx, h.erase_lookup hx']

theorem compact_spec (states : States) (hn : (l.map (·.id)).Nodup) :
    (compact l states).1 = l.filter (isLive states) ∧
      ∀ id, (compact l states).2.lookup id =
        if ∃ x ∈ l, x.id = id ∧ isLive states x = false then none else states.lookup id := by
  induction l generalizing states with
  | nil => exact ⟨rfl, fun id => by simp [compact]⟩
  | cons x l ih =>
      obtain ⟨hx, hn⟩ := nodup_ids_cons.mp hn
      unfold compact
      split
      · next hlive =>
        have hlive' : isLive states x = true := by simpa [isLive] using hlive
        obtain ⟨h1, h2⟩ := ih states hn
        refine ⟨by rw [List.filter_cons_of_pos hlive', ← h1], fun id => ?_⟩
        simp only [h2, List.exists_mem_cons_iff, hlive', Bool.true_eq_false, and_false, false_or]
      · next hdead =>
        have hdead' : isLive states x = false := by simpa [isLive] using hdead
        have hkeep {y : Entry} (hy : y ∈ l) : isLive (states.erase x.id) y = isLive states y :=
          isLive_congr (Finmap.lookup_erase_ne (hx y hy))
        obtain ⟨h1, h2⟩ := ih (states.erase x.id) hn
        refine ⟨?_, fun id => ?_⟩
        · rw [List.filter_cons_of_neg (by simp [hdead']), h1]
          exact List.filter_congr fun y hy => hkeep hy
        · have hiff : (∃ y ∈ l, y.id = id ∧ isLive (states.erase x.id) y = false) ↔
              ∃ y ∈ l, y.id = id ∧ isLive states y = false :=
            exists_congr fun y => and_congr_right fun hy => by rw [hkeep hy]
          rw [h2]
          simp only [hiff, List.exists_mem_cons_iff, hdead', and_true]
          by_cases he : x.id = id
          · subst he
            simp
          · simp only [he, false_or]
            rw [Finmap.lookup_erase_ne (Ne.symm he)]

/-- What `drop_cancelled_locked` keeps. -/
structure Dropped (t t' : HeapTimer) : Prop where
  core : Core t'.heap t'.states
  live : (t'.heap.filter (isLive t'.states)).Perm (t.heap.filter (isLive t.states))
  kept : ∀ x ∈ t'.heap, x ∈ t.heap ∧ t'.states.lookup x.id = t.states.lookup x.id
  front : ∀ x, t'.heap.head? = some x → isLive t'.states x = true
  dead : ∀ x ∈ t'.heap, isLive t'.states x = false →
    0 < liveBefore t.heap t.states x ∧
      (t.heap.filter (survives t.heap t.states)).length ≤ compactBound t.live
  fields : t'.live = t.live ∧ t'.nextId = t.nextId

/-- The live entries of a compacted heap. -/
theorem Core.compact (h : Core heap states) {l' : List Entry} (hp : l'.Perm (heap.filter (isLive states)))
    (hheap : IsHeap later l') :
    Core l' (compact heap states).2 ∧ ∀ x ∈ l', x ∈ heap ∧ isLive states x = true ∧
      (Timer.compact heap states).2.lookup x.id = states.lookup x.id := by
  have hmem {x : Entry} (hx : x ∈ l') : x ∈ heap ∧ isLive states x = true := List.mem_filter.mp (hp.mem_iff.mp hx)
  obtain ⟨-, hlook⟩ := compact_spec states h.ids
  have hkeep {x : Entry} (hx : x ∈ l') : (Timer.compact heap states).2.lookup x.id = states.lookup x.id := by
    rw [hlook, if_neg]
    rintro ⟨y, hy, he, hdead⟩
    obtain rfl := h.id_inj hy (hmem hx).1 he
    rw [(hmem hx).2] at hdead
    cases hdead
  refine ⟨⟨hheap, ?_, fun id => ?_⟩, fun x hx => ⟨(hmem hx).1, (hmem hx).2, hkeep hx⟩⟩
  · refine ((hp.map _).nodup_iff).mpr (h.ids.sublist ?_)
    exact List.filter_sublist.map _
  · constructor
    · intro hid
      obtain ⟨mark, hmark⟩ := Finmap.mem_iff.mp hid
      rw [hlook] at hmark
      split at hmark
      · cases hmark
      · next hnot =>
        obtain ⟨x, hx, rfl⟩ := (h.known id).mp (Finmap.mem_iff.mpr ⟨mark, hmark⟩)
        refine ⟨x, hp.mem_iff.mpr (List.mem_filter.mpr ⟨hx, ?_⟩), rfl⟩
        exact Bool.not_eq_false _ |>.mp fun hdead => hnot ⟨x, hx, rfl, hdead⟩
    · rintro ⟨x, hx, rfl⟩
      obtain ⟨mark, hmark⟩ := Finmap.mem_iff.mp ((h.known x.id).mpr ⟨x, (hmem hx).1, rfl⟩)
      exact Finmap.mem_iff.mpr ⟨mark, (hkeep hx).trans hmark⟩

theorem isLive_survives (hx : isLive states x = true) : survives heap states x = true := by
  simp [survives, hx]

/-- **`drop_cancelled_locked`.** -/
theorem dropCancelledLocked_dropped {t : HeapTimer} (h : Core t.heap t.states) : Dropped t t.dropCancelledLocked := by
  obtain ⟨hcore, hperm, hlook, hfront⟩ := dropTops_spec h le_rfl
  unfold HeapTimer.dropCancelledLocked
  generalize dropTops t.heap.length t.heap t.states = r at hcore hperm hlook hfront ⊢
  have hmem {x : Entry} (hx : x ∈ r.1) : x ∈ t.heap := List.mem_of_mem_filter (hperm.mem_iff.mp hx)
  have hlive : (r.1.filter (isLive r.2)).Perm (t.heap.filter (isLive t.states)) := by
    have h1 : r.1.filter (isLive r.2) = r.1.filter (isLive t.states) :=
      List.filter_congr fun x hx => isLive_congr (hlook x hx)
    have h2 : (t.heap.filter (survives t.heap t.states)).filter (isLive t.states) = t.heap.filter (isLive t.states) := by
      rw [List.filter_filter]
      refine List.filter_congr fun x _ => ?_
      cases hx : isLive t.states x with
      | false => rfl
      | true => simp [isLive_survives hx]
    rw [h1, ← h2]
    exact hperm.filter _
  dsimp only
  split
  · next hle =>
    refine ⟨hcore, hlive, fun x hx => ⟨hmem hx, hlook x hx⟩, hfront, fun x hx hdead => ⟨?_, hperm.length_eq ▸ hle⟩,
      rfl, rfl⟩
    have hsurv := (List.mem_filter.mp (hperm.mem_iff.mp hx)).2
    rw [isLive_congr (hlook x hx)] at hdead
    simpa [survives, hdead] using hsurv
  · obtain ⟨hheap, hmake⟩ := makeHeap_spec (o := laterOrder) (Timer.compact r.1 r.2).1
    rw [(compact_spec _ hcore.ids).1] at hmake hheap
    obtain ⟨hcore', hkeep⟩ := hcore.compact hmake hheap
    have hall {x : Entry} (hx : x ∈ makeHeap later (r.1.filter (isLive r.2))) : isLive (Timer.compact r.1 r.2).2 x = true :=
      (isLive_congr (hkeep x hx).2.2).trans (hkeep x hx).2.1
    rw [(compact_spec _ hcore.ids).1]
    refine ⟨hcore', ?_, fun x hx => ⟨hmem (hkeep x hx).1, ?_⟩, fun x hx => ?_, fun x hx hdead => ?_, rfl, rfl⟩
    · rw [List.filter_eq_self.mpr fun x hx => hall hx]
      exact hmake.trans hlive
    · exact (hkeep x hx).2.2.trans (hlook x (hkeep x hx).1)
    · exact hall (List.mem_of_mem_head? hx)
    · rw [hall hx] at hdead
      cases hdead

end NeForce.Timer
