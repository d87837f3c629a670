import Mathlib.Order.Interval.Finset.Nat
import NeForce.HeapTimerDrop

/-! # The heap of timers refines the pending timers

`Matches` relates a heap to the pending timers it stands for.  Every call keeps it and gives the same result as the
call of `Timers`, but for two cases: `drain_expired` takes whatever comes to the front, also a cancelled entry that was
behind a live one, and identifiers are given again after `2 ^ 64` of them (`HeapTimer.Safe`). -/

namespace NeForce.Timer

open BinaryHeap

/-! ### The order of the entries -/

theorem Entry.le_iff {x y : Entry} :
    x.Le y ↔ x.deadline < y.deadline ∨ x.deadline = y.deadline ∧ x.id ≤ y.id := by
  unfold Entry.Le later
  split_ifs <;> simp only [decide_eq_false_iff_not] <;> omega

instance : Std.Total Entry.Le := ⟨fun x y => by rw [Entry.le_iff, Entry.le_iff]; omega⟩

instance : IsTrans Entry Entry.Le := ⟨fun x y z => by rw [Entry.le_iff, Entry.le_iff, Entry.le_iff]; omega⟩

/-! ### Matching states -/

/-- The live entries of the heap, sorted. -/
structure Sim (t : HeapTimer) (pending : List Entry) : Prop where
  core : Core t.heap t.states
  perm : (t.heap.filter (isLive t.states)).Perm pending
  sorted : pending.Pairwise Entry.Le
  live : t.live = pending.length

structure Matches (t : HeapTimer) (a : Timers) : Prop extends Sim t a.pending where
  nextId : t.nextId = a.nextId % 2 ^ 64
  nextId_le : a.nextId ≤ 2 ^ 64
  nextId_pos : 0 < a.nextId
  old : ∀ x ∈ t.heap, 0 < x.id ∧ x.id < a.nextId

variable {t t' : HeapTimer} {a : Timers} {pending rest l : List Entry} {first x : Entry} {now : ℤ} {n : ℕ}

theorem Sim.mem_iff (h : Sim t pending) : x ∈ pending ↔ x ∈ t.heap ∧ isLive t.states x = true := by
  rw [← h.perm.mem_iff, List.mem_filter]

theorem Sim.ids (h : Sim t pending) : (pending.map (·.id)).Nodup :=
  ((h.perm.map _).nodup_iff).mp (h.core.ids.sublist (List.filter_sublist.map _))

/-- A live front is the first of the pending timers. -/
theorem Sim.head (h : Sim t (first :: rest)) (hheap : t.heap = x :: l) (hx : isLive t.states x = true) : x = first := by
  have hmem : x ∈ first :: rest := h.mem_iff.mpr ⟨hheap ▸ List.mem_cons_self, hx⟩
  rcases List.mem_cons.mp hmem with rfl | hrest
  · rfl
  · have hfirst := (h.mem_iff.mp List.mem_cons_self).1
    have h1 : first.Le x := (List.pairwise_cons.mp h.sorted).1 x hrest
    have h2 : x.Le first := by
      have horder := h.core.order
      rw [hheap] at horder hfirst
      exact IsHeap.front (o := laterOrder) horder hfirst
    rw [Entry.le_iff] at h1 h2
    exact (h.core.id_inj hfirst (hheap ▸ List.mem_cons_self) (by omega)).symm

theorem Sim.length_lt (h : Sim t pending) (hn : 0 < n) (hold : ∀ x ∈ t.heap, 0 < x.id ∧ x.id < n) : pending.length < n := by
  have hsub : (pending.map (·.id)).toFinset ⊆ Finset.Ico 1 n := by
    intro id hid
    obtain ⟨x, hx, rfl⟩ := List.mem_map.mp (List.mem_toFinset.mp hid)
    have := hold x (h.mem_iff.mp hx).1
    exact Finset.mem_Ico.mpr ⟨this.1, this.2⟩
  have hcard := Finset.card_le_card hsub
  rw [List.toFinset_card_of_nodup h.ids, List.length_map, Nat.card_Ico] at hcard
  omega

theorem Sim.dropped (h : Sim t pending) (hd : Dropped t t') : Sim t' pending where
  core := hd.core
  perm := hd.live.trans h.perm
  sorted := h.sorted
  live := hd.fields.1.trans h.live

theorem Sim.refresh (h : Sim t pending) : Sim t.refreshHintLocked pending := by
  have hd := h.dropped (dropCancelledLocked_dropped h.core)
  exact ⟨hd.core, hd.perm, hd.sorted, hd.live⟩

/-- After `drop_cancelled_locked` the front of the heap is the first of the pending timers. -/
theorem Sim.head?_eq (h : Sim t pending) : t.dropCancelledLocked.heap.head? = pending.head? := by
  have hd := dropCancelledLocked_dropped h.core
  have hs := h.dropped hd
  cases hheap : t.dropCancelledLocked.heap with
  | nil =>
      cases pending with
      | nil => rfl
      | cons first rest =>
          have := (hs.mem_iff (x := first)).mp List.mem_cons_self
          rw [hheap] at this
          cases this.1
  | cons x l =>
      have hx := hd.front x (by rw [hheap]; rfl)
      cases pending with
      | nil =>
          have := (hs.mem_iff (x := x)).mpr ⟨by rw [hheap]; exact List.mem_cons_self, hx⟩
          cases this
      | cons first rest => rw [hs.head hheap hx]; rfl

/-! ### The calls -/

theorem core_empty : Core [] ∅ where
  order := isHeap_nil (o := laterOrder)
  ids := .nil
  known id := iff_of_false Finmap.notMem_empty fun ⟨x, hx, _⟩ => by cases hx

theorem Matches.empty : Matches .empty .empty where
  core := core_empty
  perm := .refl _
  sorted := .nil
  live := rfl
  nextId := rfl
  nextId_le := by decide
  nextId_pos := Nat.one_pos
  old _ h := by cases h

theorem emplace_fresh {states : States} {id : ℕ} (h : id ∉ states) (mark : UInt8) :
    emplace states id mark = states.insert id mark := if_neg h

theorem Matches.insert (h : Matches t a) (hid : t.nextId ≠ 0) (deadline : ℤ) (payload : ℕ) :
    Matches (t.insert deadline payload).1 (a.step (.insert deadline payload)).1 ∧ t.nextId = a.nextId := by
  have hle := h.nextId_le
  have hpos := h.nextId_pos
  have hid' : t.nextId = a.nextId := by
    have hmod := h.nextId
    rcases hle.lt_or_eq with hlt | heq
    · rw [hmod, Nat.mod_eq_of_lt hlt]
    · rw [heq] at hmod
      exact absurd hmod hid
  have hlt : a.nextId < 2 ^ 64 := by
    rw [← hid', h.nextId]
    exact Nat.mod_lt _ (Nat.two_pow_pos 64)
  have hfresh : t.nextId ∉ t.states := by
    intro hmem
    obtain ⟨x, hx, he⟩ := (h.core.known _).mp hmem
    have := h.old x hx
    omega
  obtain ⟨hheap, hperm⟩ := pushHeap_spec (o := laterOrder) h.core.order ⟨deadline, t.nextId, payload⟩
  have hne {x : Entry} (hx : x ∈ t.heap) : x.id ≠ t.nextId := by
    have := h.old x hx
    omega
  have hkeep {x : Entry} (hx : x ∈ t.heap) : isLive (t.states.insert t.nextId 0) x = isLive t.states x :=
    isLive_congr (Finmap.lookup_insert_of_ne _ (hne hx))
  have hfilter (e : Entry) (he : e.id = t.nextId) : (t.heap ++ [e]).filter (isLive (t.states.insert t.nextId 0)) =
      t.heap.filter (isLive t.states) ++ [e] := by
    have hnew : isLive (t.states.insert t.nextId 0) e = true := by
      rw [isLive, he, Finmap.lookup_insert]
      rfl
    rw [List.filter_append, List.filter_congr fun x hx => hkeep hx, List.filter_cons_of_pos hnew, List.filter_nil]
  have hlen := h.length_lt hpos h.old
  refine ⟨⟨⟨?_, ?_, ?_, ?_⟩, ?_, ?_, ?_, ?_⟩, hid'⟩
  · show Core (pushHeap later (t.heap ++ [_])) (emplace t.states t.nextId 0)
    rw [emplace_fresh hfresh]
    refine ⟨hheap, ((hperm.map _).nodup_iff).mpr ?_, fun id => ?_⟩
    · rw [List.map_append, List.nodup_append]
      refine ⟨h.core.ids, List.nodup_singleton _, ?_⟩
      rintro i hi j hj rfl
      obtain ⟨x, hx, rfl⟩ := List.mem_map.mp hi
      exact hne hx (List.mem_singleton.mp hj)
    · rw [Finmap.mem_insert, h.core.known]
      constructor
      · rintro (rfl | ⟨x, hx, rfl⟩)
        · exact ⟨_, hperm.mem_iff.mpr (List.mem_append_right _ (List.mem_singleton_self _)), rfl⟩
        · exact ⟨x, hperm.mem_iff.mpr (List.mem_append_left _ hx), rfl⟩
      · rintro ⟨x, hx, rfl⟩
        rcases List.mem_append.mp (hperm.mem_iff.mp hx) with hx | hx
        · exact .inr ⟨x, hx, rfl⟩
        · rw [List.mem_singleton.mp hx]
          exact .inl rfl
  · show ((pushHeap later (t.heap ++ [_])).filter (isLive (emplace t.states t.nextId 0))).Perm _
    rw [emplace_fresh hfresh]
    refine (hperm.filter _).trans ?_
    rw [hfilter _ rfl, hid']
    refine ((h.perm.append_right _).trans (List.perm_append_singleton _ _)).trans ?_
    exact (List.perm_orderedInsert _ _ _).symm
  · exact h.sorted.orderedInsert _ _
  · show (t.live + 1) % 2 ^ 64 = (List.orderedInsert _ _ _).length
    rw [List.orderedInsert_length, h.live, Nat.mod_eq_of_lt (by omega)]
  · show (t.nextId + 1) % 2 ^ 64 = (a.nextId + 1) % 2 ^ 64
    rw [hid']
  · exact hlt
  · exact Nat.succ_pos _
  · intro x hx
    show 0 < x.id ∧ x.id < a.nextId + 1
    rcases List.mem_append.mp (hperm.mem_iff.mp hx) with hx | hx
    · have := h.old x hx
      omega
    · rw [List.mem_singleton.mp hx]
      show 0 < t.nextId ∧ t.nextId < a.nextId + 1
      omega

/-- A call that leaves the pending timers and the identifiers alone. -/
theorem Matches.keep (h : Matches t a) (hs : Sim t' a.pending) (hid : t'.nextId = t.nextId)
    (hsub : ∀ x ∈ t'.heap, x ∈ t.heap) : Matches t' a where
  toSim := hs
  nextId := hid.trans h.nextId
  nextId_le := h.nextId_le
  nextId_pos := h.nextId_pos
  old x hx := h.old x (hsub x hx)

theorem Matches.refresh (h : Matches t a) : Matches t.refreshHintLocked a :=
  have hd := dropCancelledLocked_dropped h.core
  h.keep h.toSim.refresh hd.fields.2 fun x hx => (hd.kept x hx).1

theorem Matches.dropCancelled (h : Matches t a) : Matches t.dropCancelledLocked a :=
  have hd := dropCancelledLocked_dropped h.core
  h.keep (h.toSim.dropped hd) hd.fields.2 fun x hx => (hd.kept x hx).1

theorem decrement_succ (k : ℕ) : decrement (k + 1) = k := if_neg (Nat.succ_ne_zero k)

/-- The marks say whether a timer is pending. -/
theorem Sim.lookup_iff (h : Sim t pending) (id : ℕ) : t.states.lookup id = some 0 ↔ ∃ x ∈ pending, x.id = id := by
  constructor
  · intro hlook
    obtain ⟨x, hx, rfl⟩ := (h.core.known id).mp (Finmap.mem_iff.mpr ⟨0, hlook⟩)
    exact ⟨x, h.mem_iff.mpr ⟨hx, by simp [isLive, hlook]⟩, rfl⟩
  · rintro ⟨x, hx, rfl⟩
    simpa [isLive] using (h.mem_iff.mp hx).2

theorem Sim.length_filter (h : Sim t pending) {id : ℕ} (hid : ∃ x ∈ pending, x.id = id) :
    pending.length = (pending.filter (·.id ≠ id)).length + 1 := by
  obtain ⟨x, hx, rfl⟩ := hid
  have hcount : pending.countP (fun y => decide (y.id = x.id)) = 1 := by
    have hone := List.count_eq_one_of_mem h.ids (List.mem_map_of_mem (f := fun y : Entry => y.id) hx)
    rw [List.count, List.countP_map] at hone
    rw [← hone]
    exact List.countP_congr fun y _ => by simp
  rw [List.length_eq_countP_add_countP (fun y : Entry => decide (y.id = x.id)), hcount, Nat.add_comm, ← List.countP_eq_length_filter]
  simp

/-- The heap is the same, with one live entry less. -/
theorem Matches.mark (h : Matches t a) {id : ℕ} (hlook : t.states.lookup id = some 0) :
    Matches { t with states := t.states.insert id 1, live := decrement t.live }
      { a with pending := a.pending.filter (·.id ≠ id) } := by
  have hcount := h.length_filter ((h.lookup_iff id).mp hlook)
  have hlive : decrement t.live = (a.pending.filter (·.id ≠ id)).length := by
    rw [h.live, hcount, decrement_succ]
  have hcancelled : isLive (t.states.insert id 1) = fun x => isLive t.states x && x.id ≠ id := by
    funext x
    by_cases he : x.id = id
    · subst he
      simp [isLive]
    · rw [isLive_congr (Finmap.lookup_insert_of_ne _ he)]
      simp [he]
  refine ⟨⟨?_, ?_, h.sorted.filter _, hlive⟩, h.nextId, h.nextId_le, h.nextId_pos, h.old⟩
  · refine h.core.perm h.core.order (.refl _) fun i => ?_
    rw [Finmap.mem_insert]
    exact ⟨fun hi => hi.elim (fun he => he ▸ Finmap.mem_iff.mpr ⟨0, hlook⟩) fun hi => hi, .inr⟩
  · show (t.heap.filter (isLive (t.states.insert id 1))).Perm _
    rw [hcancelled]
    have := h.perm.filter (fun x => decide (x.id ≠ id))
    rw [List.filter_filter] at this
    refine (List.Perm.of_eq (List.filter_congr fun x _ => ?_)).trans this
    rw [Bool.and_comm]

theorem Matches.cancel (h : Matches t a) (id : ℕ) :
    Matches (t.cancel id).1 (a.step (.cancel id)).1 ∧ Result.flag (t.cancel id).2 = (a.step (.cancel id)).2 := by
  unfold HeapTimer.cancel
  split
  · next hlook =>
    have hm := h.mark hlook
    have hany : a.pending.any (·.id = id) = true := by
      simpa using (h.lookup_iff id).mp hlook
    dsimp only
    split
    · exact ⟨⟨⟨hm.core, hm.perm, hm.sorted, hm.live⟩, hm.nextId, hm.nextId_le, hm.nextId_pos, hm.old⟩, by
        simp only [Timers.step, hany]⟩
    · split
      · exact ⟨hm.dropCancelled.refresh, by simp only [Timers.step, hany]⟩
      · exact ⟨hm, by simp only [Timers.step, hany]⟩
  · next hlook =>
    have hnot : ∀ x ∈ a.pending, x.id ≠ id := fun x hx he => hlook ((h.lookup_iff id).mpr ⟨x, hx, he⟩)
    have hfilter : a.pending.filter (·.id ≠ id) = a.pending :=
      List.filter_eq_self.mpr fun x hx => decide_eq_true (hnot x hx)
    have hany : a.pending.any (·.id = id) = false := by
      simpa using hnot
    simp only [Timers.step, hfilter, hany]
    exact ⟨h, trivial⟩

/-! ### Draining -/

/-- The front is not after any entry of the heap. -/
theorem Core.front_le {states : States} (h : Core (first :: l) states) (hx : x ∈ first :: l) : first.Le x :=
  IsHeap.front (o := laterOrder) h.order hx

theorem liveBefore_front {states : States} (h : Core (first :: l) states) : liveBefore (first :: l) states first = 0 := by
  refine List.countP_eq_zero.mpr fun y hy => ?_
  have hge : later first y = false := h.front_le hy
  simp [hge]

/-- A live front is one of the live entries before an entry. -/
theorem liveBefore_pop_live {states : States} (h : Core (first :: l) states) (hlive : isLive states first = true)
    {rest : List Entry} (hrest : rest.Perm l) (hx : x ∈ l) :
    liveBefore (first :: l) states x = liveBefore rest (states.erase first.id) x + 1 := by
  unfold liveBefore
  rw [List.countP_cons_of_pos (by simp [hlive, h.front_before hx]), hrest.countP_eq]
  refine congrArg (· + 1) (List.countP_congr fun y hy => ?_)
  rw [isLive_congr (h.erase_lookup hy)]

/-- Popping a live front takes the first of the pending timers. -/
theorem Sim.pop (h : Sim t (first :: rest)) (hheap : t.heap = first :: l) (hlive : isLive t.states first = true)
    {l' : List Entry} (hperm : l'.Perm l) (hcore : Core l' (t.states.erase first.id)) :
    Sim { t with heap := l', states := t.states.erase first.id, live := decrement t.live } rest where
  core := hcore
  perm := by
    have hold := h.perm
    have hc := h.core
    rw [hheap] at hold hc
    rw [List.filter_cons_of_pos hlive] at hold
    refine (hperm.filter _).trans ((List.Perm.of_eq ?_).trans hold.cons_inv)
    exact List.filter_congr fun x hx => isLive_congr (hc.erase_lookup hx)
  sorted := (List.pairwise_cons.mp h.sorted).2
  live := by
    show decrement t.live = rest.length
    rw [h.live, List.length_cons, decrement_succ]

/-- **The loop of `drain_expired`**, if every cancelled entry that is due has as many live ones before it as there is
room for. -/
theorem drainLoop_spec (h : Sim t pending)
    (hdead : ∀ x ∈ t.heap, isLive t.states x = false → x.deadline ≤ now → n ≤ liveBefore t.heap t.states x) :
    Sim (t.drainLoop now n).1 (pending.drop ((pending.takeWhile fun x => x.deadline ≤ now).take n).length) ∧
      (t.drainLoop now n).2 = ((pending.takeWhile fun x => x.deadline ≤ now).take n).map (fun x => (x.id, x.payload)) ∧
      (t.drainLoop now n).1.nextId = t.nextId ∧ ∀ x ∈ (t.drainLoop now n).1.heap, x ∈ t.heap := by
  induction n generalizing t pending with
  | zero => exact ⟨h, rfl, rfl, fun _ hx => hx⟩
  | succ n ih =>
      unfold HeapTimer.drainLoop
      cases hheap : t.heap with
      | nil =>
          obtain rfl : pending = [] := List.eq_nil_iff_forall_not_mem.mpr fun x hx => by
            have := (h.mem_iff.mp hx).1
            rw [hheap] at this
            cases this
          exact ⟨h, rfl, rfl, fun x hx => by rwa [hheap] at hx⟩
      | cons first l =>
          have hcore := h.core
          rw [hheap] at hcore
          dsimp only
          split
          · next hdue =>
            have hlive : isLive t.states first = true := by
              cases hl : isLive t.states first with
              | true => rfl
              | false =>
                  have hroom := hdead first (by rw [hheap]; exact List.mem_cons_self) hl hdue
                  rw [hheap, liveBefore_front hcore] at hroom
                  omega
            obtain ⟨p, rest, rfl⟩ : ∃ p rest, pending = p :: rest := by
              have hmem : first ∈ pending := h.mem_iff.mpr ⟨by rw [hheap]; exact List.mem_cons_self, hlive⟩
              exact List.exists_cons_of_ne_nil (List.ne_nil_of_mem hmem)
            obtain rfl := h.head hheap hlive
            obtain ⟨l', h1, h2, h3⟩ := hcore.pop
            have hs := h.pop hheap hlive h2 h3
            simp only [h1, List.getLast?_append, List.getLast?_singleton, Option.some_or, List.dropLast_concat]
            obtain ⟨i1, i2, i3, i4⟩ := ih hs fun x hx hxdead hxdue => by
              have hx' : x ∈ l := h2.mem_iff.mp hx
              rw [isLive_congr (hcore.erase_lookup hx')] at hxdead
              have hroom := hdead x (by rw [hheap]; exact List.mem_cons_of_mem _ hx') hxdead hxdue
              rw [hheap, liveBefore_pop_live hcore hlive h2 hx'] at hroom
              exact Nat.le_of_succ_le_succ hroom
            have htake : ((first :: rest).takeWhile fun x => decide (x.deadline ≤ now)).take (n + 1) =
                first :: (rest.takeWhile fun x => decide (x.deadline ≤ now)).take n := by
              rw [List.takeWhile_cons_of_pos (by simpa using hdue), List.take_succ_cons]
            rw [htake]
            refine ⟨i1, by rw [i2]; rfl, i3, fun x hx => ?_⟩
            exact List.mem_cons_of_mem _ (h2.mem_iff.mp (i4 x hx))
          · next hdue =>
            have hnone : pending.takeWhile (fun x => decide (x.deadline ≤ now)) = [] := by
              cases pending with
              | nil => rfl
              | cons p rest =>
                  have hp := (h.mem_iff.mp List.mem_cons_self).1
                  rw [hheap] at hp
                  have hle := Entry.le_iff.mp (hcore.front_le hp)
                  exact List.takeWhile_cons_of_neg (by simp only [decide_eq_true_eq]; omega)
            rw [hnone]
            exact ⟨h, rfl, rfl, fun x hx => by rwa [hheap] at hx⟩

/-- The calls for which the heap does what `Timers` does. -/
def HeapTimer.Safe (t : HeapTimer) : Op → Prop
  | .insert _ _ => t.nextId ≠ 0
  | .drainExpired now out maxCount =>
      out = true →
        compactBound t.live < (t.heap.filter (survives t.heap t.states)).length ∨
          ∀ x ∈ t.heap, isLive t.states x = false → x.deadline ≤ now →
            liveBefore t.heap t.states x = 0 ∨ maxCount ≤ liveBefore t.heap t.states x
  | _ => True

theorem Dropped.liveBefore_eq (hd : Dropped t t') (x : Entry) :
    liveBefore t'.heap t'.states x = liveBefore t.heap t.states x := by
  have hcount (heap : List Entry) (states : States) :
      liveBefore heap states x = (heap.filter (isLive states)).countP (later x) := by
    rw [liveBefore, List.countP_filter]
    exact List.countP_congr fun y _ => by rw [Bool.and_comm]
  rw [hcount, hcount, hd.live.countP_eq]

theorem Matches.drainExpired (h : Matches t a) {out : Bool} {maxCount : ℕ} (hsafe : t.Safe (.drainExpired now out maxCount)) :
    Matches (t.drainExpired now out maxCount).1 (a.step (.drainExpired now out maxCount)).1 ∧
      Result.expired (t.drainExpired now out maxCount).2 = (a.step (.drainExpired now out maxCount)).2 := by
  unfold HeapTimer.drainExpired
  split
  · next hno =>
    have hzero : (if out then maxCount else 0) = 0 := by
      cases out with
      | false => rfl
      | true => simpa using hno
    simp only [Timers.step, Timers.due, hzero, List.take_zero]
    exact ⟨h, rfl⟩
  · next hyes =>
    obtain ⟨rfl, hpos⟩ : out = true ∧ maxCount ≠ 0 := by simpa using hyes
    have hd := dropCancelledLocked_dropped h.core
    have hdead : ∀ x ∈ t.dropCancelledLocked.heap, isLive t.dropCancelledLocked.states x = false → x.deadline ≤ now →
        maxCount ≤ liveBefore t.dropCancelledLocked.heap t.dropCancelledLocked.states x := by
      intro x hx hxdead hxdue
      obtain ⟨hbefore, hbound⟩ := hd.dead x hx hxdead
      rw [hd.liveBefore_eq]
      rw [isLive_congr (hd.kept x hx).2] at hxdead
      rcases hsafe rfl with hcompact | hroom
      · omega
      · exact (hroom x (hd.kept x hx).1 hxdead hxdue).resolve_left hbefore.ne'
    obtain ⟨h1, h2, h3, h4⟩ := drainLoop_spec (h.toSim.dropped hd) hdead
    have hm : Matches (t.dropCancelledLocked.drainLoop now maxCount).1 (a.step (.drainExpired now true maxCount)).1 :=
      ⟨h1, (h3.trans hd.fields.2).trans h.nextId, h.nextId_le, h.nextId_pos, fun x hx => h.old x (hd.kept x (h4 x hx)).1⟩
    exact ⟨hm.refresh, by rw [h2]; rfl⟩

/-- **One call.** -/
theorem Matches.step (h : Matches t a) {op : Op} (hop : t.Safe op) :
    Matches (t.step op).1 (a.step op).1 ∧ (t.step op).2 = (a.step op).2 := by
  cases op with
  | insert deadline payload =>
      obtain ⟨h1, h2⟩ := h.insert hop deadline payload
      exact ⟨h1, congrArg Result.token h2⟩
  | cancel id => exact h.cancel id
  | drainExpired now out maxCount => exact h.drainExpired hop
  | nextDeadline =>
      refine ⟨h.refresh, congrArg Result.deadline ?_⟩
      exact congrArg (Option.map _) h.toSim.head?_eq
  | contains id =>
      refine ⟨h, congrArg Result.flag ?_⟩
      rw [HeapTimer.contains, Bool.eq_iff_iff, decide_eq_true_iff, h.lookup_iff]
      simp
  | size => exact ⟨h, congrArg Result.count h.live⟩
  | clear =>
      exact ⟨⟨⟨core_empty, .refl _, .nil, rfl⟩, h.nextId, h.nextId_le, h.nextId_pos, fun x hx => by cases hx⟩, rfl⟩

end NeForce.Timer
