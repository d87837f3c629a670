import NeForce.FlatWalk
import Mathlib.Data.Nat.ModEq

/-! # The probes of the flat hash table agree

A probe goes from the home slot of a key round the array, and the elements it is after are those with the
tag and the key before the first empty slot (`Slots.hits`).  Slot by slot or by groups of sixteen bytes, at
any offset and across the end of the array, the lookups, the count and the removal of a key come down
to that list (`probeFind_eq`, `probeCount_eq`, `eraseKey_eq`); a group shows matches behind its first empty slot
too, and there are none where every element can be reached from its home slot
(`Slots.Reachable`).  The two insertion probes find the same element, and otherwise each a slot that is free
(`probes_agree`). -/

namespace NeForce.Flat

variable {K V : Type}

/-! ### Removing a key -/

/-- Destroy an element found by `erase(key)`. -/
def Table.kill (t : Table V) (i : ℕ) : Table V :=
  { t with slots := t.slots.eraseSlot i, deleted := t.deleted + 1, size := t.size - 1 }

/-- `erase(key)` without vector instructions, from slot `idx` on. -/
def eraseKeyLoop (k : Keying K V) (key : K) (h2 : ℕ) : ℕ → ℕ → Table V → ℕ → Option (Table V × ℕ)
  | 0, _, t, erased => some (t, erased)
  | n + 1, idx, t, erased =>
      if t.slots.metadata idx = htEmpty then some (t, erased)
      else do
        if ← t.slots.hit k idx h2 key then eraseKeyLoop k key h2 n (t.slots.wrap (idx + 1)) (t.kill idx) (erased + 1)
        else eraseKeyLoop k key h2 n (t.slots.wrap (idx + 1)) t erased

/-- `while (match != 0)` in `erase(key)`. -/
def eraseMatches (k : Keying K V) (key : K) (idx : ℕ) : List ℕ → Table V → ℕ → Option (Table V × ℕ)
  | [], t, erased => some (t, erased)
  | b :: bits, t, erased => do
      let slot := t.slots.wrap (idx + b)
      if ← t.slots.keyIs k slot key then eraseMatches k key idx bits (t.kill slot) (erased + 1)
      else eraseMatches k key idx bits t erased

def eraseKeySimdLoop (k : Keying K V) (key : K) (h2 : ℕ) : ℕ → ℕ → Table V → ℕ → Option (Table V × ℕ)
  | 0, _, t, erased => some (t, erased)
  | n + 1, idx, t, erased => do
      let group := t.slots.loadMetaGroup idx
      let (t, erased) ← eraseMatches k key idx (Slots.liveMatches group h2) t erased
      if Slots.matchBytes group htEmpty ≠ [] then some (t, erased)
      else eraseKeySimdLoop k key h2 n (t.slots.wrap (idx + htGroup)) t erased

/-- `erase(key)`: the table and the number of elements removed. -/
def Table.eraseKey (t : Table V) (k : Keying K V) (simd : Bool) (key : K) : Option (Table V × ℕ) :=
  if t.slots.capacity = 0 then some (t, 0)
  else
    let hash := k.mixedHash key
    let h2 := hashToH2 hash
    if simd then eraseKeySimdLoop k key h2 t.slots.rounds (t.slots.hashToIndex hash) t 0
    else eraseKeyLoop k key h2 t.slots.capacity (t.slots.hashToIndex hash) t 0

/-! ### Round the array -/

namespace Slots

/-- The slot at distance `d` from slot `h`. -/
def around (s : Slots V) (h d : ℕ) : ℕ := (h + d) % s.capacity

/-- There are arrays. -/
structure Ready (s : Slots V) : Prop extends s.WellFormed where
  pos : s.capacity ≠ 0

variable {s : Slots V} {h d b n : ℕ}

theorem Ready.ge (hs : s.Ready) : 16 ≤ s.capacity := by
  obtain h | ⟨k, hk, h⟩ := hs.capacity
  · exact absurd h hs.pos
  · rw [h]
    exact Nat.pow_le_pow_right (Nat.succ_pos 1) hk

theorem Ready.wrap_eq (hs : s.Ready) (i : ℕ) : s.wrap i = i % s.capacity := by
  obtain h | ⟨k, _, h⟩ := hs.capacity
  · exact absurd h hs.pos
  · rw [wrap, h, Nat.and_two_pow_sub_one_eq_mod]

theorem Ready.around_lt (hs : s.Ready) : s.around h d < s.capacity := Nat.mod_lt _ (Nat.pos_of_ne_zero hs.pos)

theorem Ready.wrap_around (hs : s.Ready) : s.wrap (s.around h d + b) = s.around h (d + b) := by
  rw [hs.wrap_eq, around, around, Nat.mod_add_mod, Nat.add_assoc]

theorem around_inj {e : ℕ} (hd : d < s.capacity) (he : e < s.capacity) (h' : s.around h d = s.around h e) : d = e := by
  have hm : Nat.ModEq s.capacity (h + d) (h + e) := h'
  have := Nat.ModEq.add_left_cancel' h hm
  rwa [Nat.ModEq, Nat.mod_eq_of_lt hd, Nat.mod_eq_of_lt he] at this

/-- Every slot lies at some distance. -/
theorem exists_around (hi : b < s.capacity) (hh : h < s.capacity) : ∃ d < s.capacity, s.around h d = b := by
  rcases Nat.lt_or_ge b h with hlt | hge
  · refine ⟨s.capacity - h + b, by omega, ?_⟩
    rw [around, show h + (s.capacity - h + b) = b + s.capacity by omega, Nat.add_mod_right, Nat.mod_eq_of_lt hi]
  · exact ⟨b - h, by omega, by rw [around, Nat.add_sub_cancel' hge, Nat.mod_eq_of_lt hi]⟩

/-- A group is the sixteen bytes from its slot on, round the array. -/
theorem Ready.matchBytes_load (hs : s.Ready) (byte : ℕ) :
    matchBytes (s.loadMetaGroup (s.around h d)) byte =
      (List.range 16).filter fun b => s.metadata (s.around h (d + b)) = byte := by
  have hlt := hs.around_lt (h := h) (d := d)
  have hge := hs.ge
  rw [matchBytes, htGroup]
  refine List.filter_congr fun b hb => ?_
  rw [List.mem_range] at hb
  have hget : (s.loadMetaGroup (s.around h d)).getD b 0 = s.metadata (s.around h (d + b)) := by
    rw [← hs.wrap_around, hs.wrap_eq, loadMetaGroup, htGroup]
    split
    · rw [List.getD_eq_getElem _ _ (by simpa using hb), List.getElem_map, List.getElem_range,
        Nat.mod_eq_of_lt (by omega)]
    · rcases Nat.lt_or_ge b (s.capacity - s.around h d) with hlt' | hge'
      · rw [List.getD_append _ _ _ _ (by simpa using hlt'), List.getD_eq_getElem _ _ (by simpa using hlt'),
          List.getElem_map, List.getElem_range, Nat.mod_eq_of_lt (by omega)]
      · rw [List.getD_append_right _ _ _ _ (by simpa using hge'), List.length_map, List.length_range,
          List.getD_eq_getElem _ _ (by simp; omega), List.getElem_map, List.getElem_range,
          show s.around h d + b = b - (s.capacity - s.around h d) + s.capacity by omega, Nat.add_mod_right,
          Nat.mod_eq_of_lt (by omega)]
  rw [hget]

end Slots

/-! ### What a probe is after -/

namespace Slots

variable (s : Slots V) (k : Keying K V) (key : K) (h : ℕ)

/-- The tag of a key. -/
def tag : ℕ := hashToH2 (k.mixedHash key)

def emptyAt (d : ℕ) : Bool := s.metadata (s.around h d) = htEmpty

/-- At distance `d` there is an element with the tag and the key. -/
def hitAt (d : ℕ) : Bool :=
  s.metadata (s.around h d) = hashToH2 (k.mixedHash key) &&
    (s.data (s.around h d)).any fun v => k.equals (k.extracter v) key

/-- The elements with the tag and the key before the first empty slot, among `n` from distance `d` on. -/
def hits (n d : ℕ) : List ℕ :=
  (List.range' d n).filter fun e => s.hitAt k key h e && (List.range (e + 1)).all fun c => !s.emptyAt h c

end Slots

section

variable {s : Slots V} {k : Keying K V} {key : K} {h d n : ℕ}

theorem hashToH2_lt (x : ℕ) : hashToH2 x < 128 := by
  rw [hashToH2, htH2Mask, show (0x7F : ℕ) = 2 ^ 7 - 1 from rfl, Nat.and_two_pow_sub_one_eq_mod]
  exact Nat.mod_lt _ (by decide)

theorem hashToH2_ne_empty (x : ℕ) : hashToH2 x ≠ htEmpty := by
  have := hashToH2_lt x
  rw [htEmpty]
  omega

theorem hashToH2_ne_deleted (x : ℕ) : hashToH2 x ≠ htDeleted := by
  have := hashToH2_lt x
  rw [htDeleted]
  omega

/-- Under the tag there is an object. -/
theorem keyIs_of_tag (hs : s.Ready) (ht : s.metadata (s.around h d) = hashToH2 (k.mixedHash key)) :
    s.keyIs k (s.around h d) key = some (s.hitAt k key h d) := by
  have ho := hs.object _ (hs.around_lt (h := h) (d := d))
  rw [ht, isTaken, htEmpty, decide_eq_true (hashToH2_lt _)] at ho
  obtain ⟨v, hv⟩ := Option.isSome_iff_exists.mp ho
  rw [Slots.keyIs, Slots.hitAt, hv, ht]
  simp

theorem hit_eq (hs : s.Ready) :
    s.hit k (s.around h d) (hashToH2 (k.mixedHash key)) key = some (s.hitAt k key h d) := by
  rw [Slots.hit]
  split
  · rename_i ht
    exact keyIs_of_tag hs ht
  · rename_i ht
    rw [Slots.hitAt, decide_eq_false ht, Bool.false_and]

theorem hitAt_not_empty (hd : s.hitAt k key h d = true) : s.emptyAt h d = false := by
  rw [Slots.hitAt, Bool.and_eq_true, decide_eq_true_eq] at hd
  rw [Slots.emptyAt, hd.1, decide_eq_false (hashToH2_ne_empty _)]

theorem hits_add (m n d : ℕ) : s.hits k key h (m + n) d = s.hits k key h m d ++ s.hits k key h n (d + m) := by
  rw [Slots.hits, ← List.range'_append_1, List.filter_append]
  rfl

/-- Behind an empty slot there is nothing. -/
theorem hits_of_empty {e : ℕ} (he : s.emptyAt h e = true) (hle : e ≤ d) : s.hits k key h n d = [] := by
  refine List.filter_eq_nil_iff.mpr fun c hc => ?_
  rw [Bool.and_eq_true, List.all_eq_true]
  rintro ⟨_, hall⟩
  have := hall e (List.mem_range.mpr (by have := (List.mem_range'_1.mp hc).1; omega))
  rw [he] at this
  cases this

theorem hits_succ (hne : ∀ e ≤ d, s.emptyAt h e = false) :
    s.hits k key h (n + 1) d = if s.hitAt k key h d then d :: s.hits k key h n (d + 1) else s.hits k key h n (d + 1) := by
  have hall : ((List.range (d + 1)).all fun c => !s.emptyAt h c) = true := by
    rw [List.all_eq_true]
    intro c hc
    rw [hne c (Nat.lt_succ_iff.mp (List.mem_range.mp hc))]
    rfl
  rw [Slots.hits, List.range'_succ, List.filter_cons, hall, Bool.and_true]
  rfl

/-- The bit of the first empty slot of a group. -/
theorem lt_headD_iff {p : ℕ → Bool} {b : ℕ} (hb : b < 16) :
    b < ((List.range 16).filter p).headD 16 ↔ ∀ c ≤ b, p c = false := by
  cases hf : (List.range 16).filter p with
  | nil =>
      refine iff_of_true hb fun c hc => ?_
      have := List.filter_eq_nil_iff.mp hf c (List.mem_range.mpr (by omega))
      simpa using this
  | cons e l =>
      obtain ⟨⟨_, he⟩, hleast, _⟩ := filter_range_cons hf
      rw [List.headD_cons]
      constructor
      · exact fun hlt c hc => hleast c (by omega)
      · intro hall
        by_contra hge
        rw [hall e (by omega)] at he
        cases he

/-- The matches of a group before its first empty slot. -/
theorem hits_group (hs : s.Ready) (hne : ∀ e < d, s.emptyAt h e = false) :
    s.hits k key h 16 d = ((Slots.liveMatches (s.loadMetaGroup (s.around h d)) (hashToH2 (k.mixedHash key))).filter
      fun b => s.hitAt k key h (d + b)).map (d + ·) := by
  rw [Slots.hits, List.range'_eq_map_range, List.filter_map, Slots.liveMatches, hs.matchBytes_load, hs.matchBytes_load,
    List.filter_filter, List.filter_filter]
  congr 1
  refine List.filter_congr fun b hb => ?_
  rw [List.mem_range] at hb
  simp only [Function.comp_apply]
  rw [Bool.eq_iff_iff]
  simp only [Bool.and_eq_true, decide_eq_true_eq, List.all_eq_true, List.mem_range, Bool.not_eq_true',
    show htGroup = 16 from rfl]
  rw [lt_headD_iff hb]
  constructor
  · rintro ⟨hhit, hall⟩
    refine ⟨⟨hhit, fun c hc => hall (d + c) (by omega)⟩, ?_⟩
    rw [Slots.hitAt, Bool.and_eq_true, decide_eq_true_eq] at hhit
    exact hhit.1
  · rintro ⟨⟨hhit, hall⟩, _⟩
    refine ⟨hhit, fun c hc => ?_⟩
    rcases Nat.lt_or_ge c d with hlt | hge
    · exact hne c hlt
    · have := hall (c - d) (by omega)
      rwa [Slots.emptyAt, ← Nat.add_sub_cancel' hge]

/-- Whether a group shows an empty slot. -/
theorem empty_group (hs : s.Ready) :
    Slots.matchBytes (s.loadMetaGroup (s.around h d)) htEmpty ≠ [] ↔ ∃ b < 16, s.emptyAt h (d + b) = true := by
  rw [hs.matchBytes_load, Ne, List.filter_eq_nil_iff, not_forall]
  simp only [not_forall, not_not, List.mem_range, exists_prop]
  exact Iff.rfl

/-- The bits of the matches of a group before its first empty slot have the tag. -/
theorem mem_liveMatches (hs : s.Ready) {b x : ℕ}
    (hb : b ∈ Slots.liveMatches (s.loadMetaGroup (s.around h d)) x) : b < 16 ∧ s.metadata (s.around h (d + b)) = x := by
  rw [Slots.liveMatches, List.mem_filter, hs.matchBytes_load, List.mem_filter, List.mem_range, decide_eq_true_eq] at hb
  exact hb.1

theorem nodup_liveMatches (hs : s.Ready) (x : ℕ) :
    (Slots.liveMatches (s.loadMetaGroup (s.around h d)) x).Nodup := by
  rw [Slots.liveMatches, hs.matchBytes_load]
  exact (List.nodup_range.filter _).filter _

/-- The groups after one without an empty slot. -/
theorem no_empty_next (hne : ∀ e < d, s.emptyAt h e = false) (hg : ¬ ∃ b < 16, s.emptyAt h (d + b) = true) :
    ∀ e < d + 16, s.emptyAt h e = false := by
  intro e he
  rcases Nat.lt_or_ge e d with hlt | hge
  · exact hne e hlt
  · by_contra hemp
    exact hg ⟨e - d, by omega, by rw [Nat.add_sub_cancel' hge]; simpa using hemp⟩

end

/-! ### Counting -/

section

variable {s : Slots V} {k : Keying K V} {key : K} {h d n : ℕ}

theorem probeCountLoop_eq (hs : s.Ready) (result : ℕ) (hne : ∀ e < d, s.emptyAt h e = false) :
    s.probeCountLoop k key (hashToH2 (k.mixedHash key)) n (s.around h d) result =
      some (result + (s.hits k key h n d).length) := by
  induction n generalizing d result with
  | zero => rfl
  | succ n ih =>
      rw [Slots.probeCountLoop]
      split
      · rename_i he
        have hemp : s.emptyAt h d = true := decide_eq_true he
        rw [hits_of_empty hemp le_rfl]
        rfl
      · rename_i he
        have hd : ∀ e ≤ d, s.emptyAt h e = false := fun e hle => by
          rcases Nat.lt_or_eq_of_le hle with hlt | rfl
          · exact hne e hlt
          · exact decide_eq_false he
        rw [hit_eq hs, hits_succ hd]
        simp only [Option.bind_eq_bind, Option.bind_some]
        rw [hs.wrap_around, ih _ fun e hlt => hd e (by omega)]
        cases s.hitAt k key h d
        · rfl
        · rw [if_pos rfl, if_pos rfl, List.length_cons, Nat.add_assoc, Nat.add_comm 1]

theorem countMatches_eq (hs : s.Ready) {l : List ℕ}
    (hl : ∀ b ∈ l, s.metadata (s.around h (d + b)) = hashToH2 (k.mixedHash key)) (result : ℕ) :
    s.countMatches k key (s.around h d) l result =
      some (result + (l.filter fun b => s.hitAt k key h (d + b)).length) := by
  induction l generalizing result with
  | nil => rfl
  | cons b l ih =>
      rw [Slots.countMatches, hs.wrap_around, keyIs_of_tag hs (hl b List.mem_cons_self)]
      simp only [Option.bind_eq_bind, Option.bind_some]
      rw [ih fun c hc => hl c (List.mem_cons_of_mem _ hc), List.filter_cons]
      split
      · rw [List.length_cons, Nat.add_assoc, Nat.add_comm 1]
      · rfl

theorem probeCountSimdLoop_eq (hs : s.Ready) (result : ℕ) (hne : ∀ e < d, s.emptyAt h e = false) :
    s.probeCountSimdLoop k key (hashToH2 (k.mixedHash key)) n (s.around h d) result =
      some (result + (s.hits k key h (16 * n) d).length) := by
  induction n generalizing d result with
  | zero => rfl
  | succ n ih =>
      have hgroup : (s.hits k key h 16 d).length = ((Slots.liveMatches (s.loadMetaGroup (s.around h d))
          (hashToH2 (k.mixedHash key))).filter fun b => s.hitAt k key h (d + b)).length := by
        rw [hits_group hs hne, List.length_map]
      rw [Slots.probeCountSimdLoop, countMatches_eq hs fun b hb => (mem_liveMatches hs hb).2, ← hgroup]
      simp only [Option.bind_eq_bind, Option.bind_some]
      rw [show 16 * (n + 1) = 16 + 16 * n by omega, hits_add, List.length_append]
      split
      · rename_i he
        obtain ⟨b, hb, hemp⟩ := (empty_group hs).mp he
        rw [hits_of_empty hemp (by omega : d + b ≤ d + 16)]
        rfl
      · rename_i he
        rw [empty_group hs] at he
        rw [show htGroup = 16 from rfl, hs.wrap_around, ih _ (no_empty_next hne he), Nat.add_assoc]

theorem Slots.Ready.rounds_eq (hs : s.Ready) : 16 * s.rounds = s.capacity := by
  have := hs.mod
  rw [Slots.rounds, htGroup]
  omega

theorem around_home (hs : s.Ready) (x : ℕ) : s.hashToIndex x = s.around (s.hashToIndex x) 0 := by
  rw [Slots.around, Nat.add_zero, Nat.mod_eq_of_lt]
  rw [Slots.hashToIndex, hs.wrap_eq]
  exact Nat.mod_lt _ (Nat.pos_of_ne_zero hs.pos)

/-- **The count of a key.** -/
theorem probeCount_eq (hs : s.Ready) (simd : Bool) (key : K) :
    s.probeCount k simd (k.mixedHash key) key (hashToH2 (k.mixedHash key)) =
      some (s.hits k key (s.hashToIndex (k.mixedHash key)) s.capacity 0).length := by
  rw [Slots.probeCount, around_home hs]
  split
  · rw [probeCountSimdLoop_eq hs 0 (fun e he => absurd he (Nat.not_lt_zero e)), hs.rounds_eq, Nat.zero_add, ← around_home hs]
  · rw [probeCountLoop_eq hs 0 (fun e he => absurd he (Nat.not_lt_zero e)), Nat.zero_add, ← around_home hs]

end

/-! ### Removal -/

section

variable {t : Table V} {k : Keying K V} {key : K} {h d n : ℕ}

theorem Slots.Ready.kill (hs : t.slots.Ready) (i : ℕ) : (t.kill i).slots.Ready :=
  ⟨hs.toWellFormed.eraseSlot i, hs.pos⟩

theorem emptyAt_kill {c : ℕ} (hemp : t.slots.emptyAt h d = false) :
    (t.kill (t.slots.around h d)).slots.emptyAt h c = t.slots.emptyAt h c := by
  show decide (Function.update t.slots.metadata _ htDeleted (t.slots.around h c) = htEmpty) = _
  by_cases hc : t.slots.around h c = t.slots.around h d
  · rw [hc, Function.update_self, Slots.emptyAt, hc]
    exact hemp.symm
  · rw [Function.update_of_ne hc]
    rfl

theorem hitAt_kill {c : ℕ} (hd : d < t.slots.capacity) (hc : c < t.slots.capacity) (hne : c ≠ d) :
    (t.kill (t.slots.around h d)).slots.hitAt k key h c = t.slots.hitAt k key h c := by
  have hne' : t.slots.around h c ≠ t.slots.around h d := fun e => hne (Slots.around_inj hc hd e)
  show (decide (Function.update t.slots.metadata _ htDeleted (t.slots.around h c) = _) &&
    (Function.update t.slots.data _ none (t.slots.around h c)).any _) = _
  rw [Function.update_of_ne hne', Function.update_of_ne hne']
  rfl

/-- A removal does not change what the probe finds behind it. -/
theorem hits_kill {d' : ℕ} (hemp : t.slots.emptyAt h d = false) (hd : d < d') (hn : d' + n ≤ t.slots.capacity) :
    (t.kill (t.slots.around h d)).slots.hits k key h n d' = t.slots.hits k key h n d' := by
  refine List.filter_congr fun e he => ?_
  have he' := List.mem_range'_1.mp he
  rw [hitAt_kill (by omega) (by omega) (by omega)]
  simp only [emptyAt_kill hemp]

/-- The elements at the distances in `l` are removed. -/
def kills (h : ℕ) (l : List ℕ) (t : Table V) : Table V := l.foldl (fun t d => t.kill (t.slots.around h d)) t

theorem kills_slots {l : List ℕ} : (t.slots.Ready → (kills h l t).slots.Ready) ∧
    (kills h l t).slots.capacity = t.slots.capacity := by
  induction l generalizing t with
  | nil => exact ⟨id, rfl⟩
  | cons d l ih => exact ⟨fun hs => ih.1 (hs.kill _), ih.2⟩

theorem hits_kills {l : List ℕ} {d' : ℕ} (hl : ∀ e ∈ l, e < d' ∧ t.slots.emptyAt h e = false)
    (hn : d' + n ≤ t.slots.capacity) : (kills h l t).slots.hits k key h n d' = t.slots.hits k key h n d' := by
  induction l generalizing t with
  | nil => rfl
  | cons d l ih =>
      obtain ⟨hd, hemp⟩ := hl d List.mem_cons_self
      have hrest : ∀ e ∈ l, e < d' ∧ (t.kill (t.slots.around h d)).slots.emptyAt h e = false := by
        intro e he
        obtain ⟨h1, h2⟩ := hl e (List.mem_cons_of_mem _ he)
        exact ⟨h1, by rw [emptyAt_kill hemp]; exact h2⟩
      exact (ih hrest hn).trans (hits_kill hemp hd hn)

theorem emptyAt_kills {l : List ℕ} {c : ℕ} (hl : ∀ e ∈ l, t.slots.emptyAt h e = false) :
    (kills h l t).slots.emptyAt h c = t.slots.emptyAt h c := by
  induction l generalizing t with
  | nil => rfl
  | cons d l ih =>
      have hemp := hl d List.mem_cons_self
      refine (ih fun e he => ?_).trans (emptyAt_kill hemp)
      rw [emptyAt_kill hemp]
      exact hl e (List.mem_cons_of_mem _ he)

theorem eraseKeyLoop_eq (hs : t.slots.Ready) (erased : ℕ) (hn : d + n ≤ t.slots.capacity)
    (hne : ∀ e < d, t.slots.emptyAt h e = false) :
    eraseKeyLoop k key (hashToH2 (k.mixedHash key)) n (t.slots.around h d) t erased =
      some (kills h (t.slots.hits k key h n d) t, erased + (t.slots.hits k key h n d).length) := by
  induction n generalizing d t erased with
  | zero => rfl
  | succ n ih =>
      rw [eraseKeyLoop]
      split
      · rename_i he
        have hemp : t.slots.emptyAt h d = true := decide_eq_true he
        rw [hits_of_empty hemp le_rfl]
        rfl
      · rename_i he
        have hd : ∀ e ≤ d, t.slots.emptyAt h e = false := fun e hle => by
          rcases Nat.lt_or_eq_of_le hle with hlt | rfl
          · exact hne e hlt
          · exact decide_eq_false he
        rw [hit_eq hs, hits_succ hd]
        simp only [Option.bind_eq_bind, Option.bind_some]
        have hemp := hd d le_rfl
        cases t.slots.hitAt k key h d
        · rw [if_neg (by simp), if_neg (by simp), hs.wrap_around]
          exact ih hs _ (by omega) fun e hlt => hd e (by omega)
        · rw [if_pos rfl, if_pos rfl, hs.wrap_around]
          have hi := ih (d := d + 1) (hs.kill (t.slots.around h d)) (erased + 1) (by
            show d + 1 + n ≤ t.slots.capacity
            omega) fun e hlt => by
              rw [emptyAt_kill hemp]
              exact hd e (by omega)
          rw [hits_kill hemp (by omega) (by omega)] at hi
          rw [List.length_cons, show erased + ((t.slots.hits k key h n (d + 1)).length + 1) =
            erased + 1 + (t.slots.hits k key h n (d + 1)).length by omega]
          exact hi

theorem eraseMatches_eq {l : List ℕ} (hs : t.slots.Ready) (hnd : l.Nodup) (hlt : ∀ b ∈ l, d + b < t.slots.capacity)
    (hl : ∀ b ∈ l, t.slots.metadata (t.slots.around h (d + b)) = hashToH2 (k.mixedHash key)) (erased : ℕ) :
    eraseMatches k key (t.slots.around h d) l t erased =
      some (kills h ((l.filter fun b => t.slots.hitAt k key h (d + b)).map (d + ·)) t,
        erased + (l.filter fun b => t.slots.hitAt k key h (d + b)).length) := by
  induction l generalizing t erased with
  | nil => rfl
  | cons b l ih =>
      obtain ⟨hb, hnd⟩ := List.nodup_cons.mp hnd
      have hbc := hlt b List.mem_cons_self
      have hother : ∀ c ∈ l, t.slots.around h (d + c) ≠ t.slots.around h (d + b) := by
        intro c hc e
        have := Slots.around_inj (hlt c (List.mem_cons_of_mem _ hc)) hbc e
        obtain rfl : c = b := by omega
        exact hb hc
      rw [eraseMatches, hs.wrap_around, keyIs_of_tag hs (hl b List.mem_cons_self)]
      simp only [Option.bind_eq_bind, Option.bind_some]
      rw [List.filter_cons]
      split
      · have hi := ih (hs.kill (t.slots.around h (d + b))) hnd (fun c hc => hlt c (List.mem_cons_of_mem _ hc))
          (fun c hc => by
            show Function.update t.slots.metadata _ htDeleted (t.slots.around h (d + c)) = _
            rw [Function.update_of_ne (hother c hc)]
            exact hl c (List.mem_cons_of_mem _ hc)) (erased + 1)
        have hfil : (l.filter fun c => (t.kill (t.slots.around h (d + b))).slots.hitAt k key h (d + c)) =
            l.filter fun c => t.slots.hitAt k key h (d + c) := by
          refine List.filter_congr fun c hc => ?_
          rw [hitAt_kill hbc (hlt c (List.mem_cons_of_mem _ hc))]
          intro e
          obtain rfl : c = b := by omega
          exact hb hc
        rw [hfil] at hi
        refine hi.trans ?_
        rw [List.length_cons, List.map_cons, Nat.add_assoc, Nat.add_comm 1]
        rfl
      · exact ih hs hnd (fun c hc => hlt c (List.mem_cons_of_mem _ hc)) (fun c hc => hl c (List.mem_cons_of_mem _ hc)) erased

theorem eraseKeySimdLoop_eq (hs : t.slots.Ready) (erased : ℕ) (hn : d + 16 * n ≤ t.slots.capacity)
    (hne : ∀ e < d, t.slots.emptyAt h e = false) :
    eraseKeySimdLoop k key (hashToH2 (k.mixedHash key)) n (t.slots.around h d) t erased =
      some (kills h (t.slots.hits k key h (16 * n) d) t, erased + (t.slots.hits k key h (16 * n) d).length) := by
  induction n generalizing d t erased with
  | zero => rfl
  | succ n ih =>
      have hmem : ∀ b ∈ Slots.liveMatches (t.slots.loadMetaGroup (t.slots.around h d)) (hashToH2 (k.mixedHash key)),
          b < 16 ∧ t.slots.metadata (t.slots.around h (d + b)) = hashToH2 (k.mixedHash key) :=
        fun b hb => mem_liveMatches hs hb
      have hgroup : t.slots.hits k key h 16 d = _ := hits_group hs hne
      have hlen : ((Slots.liveMatches (t.slots.loadMetaGroup (t.slots.around h d))
          (hashToH2 (k.mixedHash key))).filter fun b => t.slots.hitAt k key h (d + b)).length =
            (t.slots.hits k key h 16 d).length := by
        rw [hgroup, List.length_map]
      rw [eraseKeySimdLoop, eraseMatches_eq hs (nodup_liveMatches hs _)
        (fun b hb => by have := (hmem b hb).1; omega) (fun b hb => (hmem b hb).2), ← hgroup, hlen]
      simp only [Option.bind_eq_bind, Option.bind_some]
      rw [show 16 * (n + 1) = 16 + 16 * n by omega, hits_add, List.length_append, ← Nat.add_assoc]
      have hemp : ∀ e ∈ t.slots.hits k key h 16 d, e < d + 16 ∧ t.slots.emptyAt h e = false := by
        intro e he
        rw [Slots.hits, List.mem_filter, Bool.and_eq_true] at he
        exact ⟨(List.mem_range'_1.mp he.1).2, hitAt_not_empty he.2.1⟩
      have hkills : kills h (t.slots.hits k key h 16 d ++ t.slots.hits k key h (16 * n) (d + 16)) t =
          kills h (t.slots.hits k key h (16 * n) (d + 16)) (kills h (t.slots.hits k key h 16 d) t) := List.foldl_append
      split
      · rename_i he
        obtain ⟨b, hb, hempty⟩ := (empty_group hs).mp he
        rw [hits_of_empty hempty (by omega : d + b ≤ d + 16), List.append_nil]
        rfl
      · rename_i he
        rw [empty_group hs] at he
        obtain ⟨hready, hcap⟩ := kills_slots (t := t) (h := h) (l := t.slots.hits k key h 16 d)
        have hi := ih (d := d + 16) (hready hs) (erased + (t.slots.hits k key h 16 d).length) (by omega)
          fun e hlt => by
            rw [emptyAt_kills fun c hc => (hemp c hc).2]
            exact no_empty_next hne he e hlt
        rw [hits_kills hemp (by omega)] at hi
        have harg : (kills h (t.slots.hits k key h 16 d) t).slots.wrap (t.slots.around h d + htGroup) =
            (kills h (t.slots.hits k key h 16 d) t).slots.around h (d + 16) := by
          rw [(hready hs).wrap_eq, hcap, Slots.around, Slots.around, hcap, Nat.mod_add_mod, Nat.add_assoc]
          rfl
        rw [harg, hi, hkills]

/-- **The removal of a key.** -/
theorem eraseKey_eq (hs : t.slots.Ready) (simd : Bool) (key : K) :
    t.eraseKey k simd key =
      some (kills (t.slots.hashToIndex (k.mixedHash key))
          (t.slots.hits k key (t.slots.hashToIndex (k.mixedHash key)) t.slots.capacity 0) t,
        (t.slots.hits k key (t.slots.hashToIndex (k.mixedHash key)) t.slots.capacity 0).length) := by
  have h0 : ∀ e < 0, t.slots.emptyAt (t.slots.hashToIndex (k.mixedHash key)) e = false :=
    fun e he => absurd he (Nat.not_lt_zero e)
  rw [Table.eraseKey, if_neg hs.pos]
  simp only
  rw [around_home hs]
  split
  · rw [eraseKeySimdLoop_eq (h := t.slots.hashToIndex (k.mixedHash key)) hs 0 (by rw [hs.rounds_eq]; omega) h0,
      hs.rounds_eq, Nat.zero_add, ← around_home hs]
  · rw [eraseKeyLoop_eq hs 0 (by omega) h0, Nat.zero_add, ← around_home hs]

end

/-! ### Lookup -/

/-- Equal keys have equal hashes. -/
def Keying.Lawful (k : Keying K V) : Prop := ∀ a b, k.equals a b = true → k.hasher a = k.hasher b

/-- **The probe invariant**: every element is reached from the home slot of its key without crossing an empty
slot. -/
def Slots.Reachable (s : Slots V) (k : Keying K V) : Prop :=
  ∀ i v, i < s.capacity → s.data i = some v →
    ∃ d < s.capacity, s.around (s.hashToIndex (k.mixedHash (k.extracter v))) d = i ∧
      ∀ e < d, s.emptyAt (s.hashToIndex (k.mixedHash (k.extracter v))) e = false

/-- The elements with the key lie before the first empty slot. -/
def Slots.Near (s : Slots V) (k : Keying K V) (key : K) (h : ℕ) : Prop :=
  ∀ c < s.capacity, s.hitAt k key h c = true → ∀ e ≤ c, s.emptyAt h e = false

section

variable {s : Slots V} {k : Keying K V} {key : K} {h d n : ℕ}

theorem Keying.Lawful.mixedHash_eq (hk : k.Lawful) {a b : K} (h : k.equals a b = true) :
    k.mixedHash a = k.mixedHash b := by
  unfold Keying.mixedHash
  rw [hk a b h]

theorem near_of_reachable (hs : s.Ready) (hk : k.Lawful) (hr : s.Reachable k) (key : K) :
    s.Near k key (s.hashToIndex (k.mixedHash key)) := by
  intro c hc hhit e he
  rcases Nat.lt_or_eq_of_le he with hlt | rfl
  · rw [Slots.hitAt, Bool.and_eq_true, Option.any_eq_true] at hhit
    obtain ⟨_, v, hv, hkey⟩ := hhit
    obtain ⟨d, hd, hat, hpath⟩ := hr _ v hs.around_lt hv
    rw [hk.mixedHash_eq hkey] at hat hpath
    obtain rfl := Slots.around_inj hd hc hat
    exact hpath e hlt
  · exact hitAt_not_empty hhit

theorem hits_near (hnear : s.Near k key h) (hn : d + n ≤ s.capacity) :
    s.hits k key h n d = (List.range' d n).filter (s.hitAt k key h) := by
  refine List.filter_congr fun e he => ?_
  have he' := List.mem_range'_1.mp he
  cases hh : s.hitAt k key h e with
  | false => rfl
  | true =>
      rw [Bool.true_and, List.all_eq_true]
      intro c hc
      rw [hnear e (by omega) hh c (Nat.lt_succ_iff.mp (List.mem_range.mp hc))]
      rfl

theorem probeFindLoop_eq (hs : s.Ready) (hne : ∀ e < d, s.emptyAt h e = false) :
    s.probeFindLoop k key (hashToH2 (k.mixedHash key)) n (s.around h d) =
      some ((s.hits k key h n d).head?.map (s.around h)) := by
  induction n generalizing d with
  | zero => rfl
  | succ n ih =>
      rw [Slots.probeFindLoop]
      split
      · rename_i he
        have hemp : s.emptyAt h d = true := decide_eq_true he
        rw [hits_of_empty hemp le_rfl]
        rfl
      · rename_i he
        have hd : ∀ e ≤ d, s.emptyAt h e = false := fun e hle => by
          rcases Nat.lt_or_eq_of_le hle with hlt | rfl
          · exact hne e hlt
          · exact decide_eq_false he
        rw [hit_eq hs, hits_succ hd]
        simp only [Option.bind_eq_bind, Option.bind_some]
        rw [hs.wrap_around, ih fun e hlt => hd e (by omega)]
        cases s.hitAt k key h d <;> rfl

theorem matchSlot_eq (hs : s.Ready) {l : List ℕ}
    (hl : ∀ b ∈ l, s.metadata (s.around h (d + b)) = hashToH2 (k.mixedHash key)) :
    s.matchSlot k key (s.around h d) l =
      some (((l.filter fun b => s.hitAt k key h (d + b)).map (d + ·)).head?.map (s.around h)) := by
  induction l with
  | nil => rfl
  | cons b l ih =>
      rw [Slots.matchSlot, hs.wrap_around, keyIs_of_tag hs (hl b List.mem_cons_self)]
      simp only [Option.bind_eq_bind, Option.bind_some]
      rw [ih fun c hc => hl c (List.mem_cons_of_mem _ hc), List.filter_cons]
      split <;> rfl

/-- All matches of a group, where none lies behind an empty slot. -/
theorem matchSlot_group (hs : s.Ready) (hnear : s.Near k key h) (hd : d + 16 ≤ s.capacity) :
    s.matchSlot k key (s.around h d)
        (Slots.matchBytes (s.loadMetaGroup (s.around h d)) (hashToH2 (k.mixedHash key))) =
      some ((s.hits k key h 16 d).head?.map (s.around h)) := by
  have hl : ∀ b ∈ Slots.matchBytes (s.loadMetaGroup (s.around h d)) (hashToH2 (k.mixedHash key)),
      s.metadata (s.around h (d + b)) = hashToH2 (k.mixedHash key) := by
    intro b hb
    rw [hs.matchBytes_load, List.mem_filter, decide_eq_true_eq] at hb
    exact hb.2
  rw [matchSlot_eq hs hl, hits_near hnear hd, hs.matchBytes_load, List.filter_filter, List.range'_eq_map_range,
    List.filter_map]
  congr 4
  refine List.filter_congr fun b _ => ?_
  simp only [Function.comp_apply]
  cases hh : s.hitAt k key h (d + b) with
  | false => rfl
  | true =>
      rw [Slots.hitAt, Bool.and_eq_true] at hh
      rw [hh.1]
      rfl

theorem probeFindSimdLoop_eq (hs : s.Ready) (hnear : s.Near k key h) (hn : d + 16 * n ≤ s.capacity)
    (hne : ∀ e < d, s.emptyAt h e = false) :
    s.probeFindSimdLoop k key (hashToH2 (k.mixedHash key)) n (s.around h d) =
      some ((s.hits k key h (16 * n) d).head?.map (s.around h)) := by
  induction n generalizing d with
  | zero => rfl
  | succ n ih =>
      rw [Slots.probeFindSimdLoop, matchSlot_group hs hnear (by omega), show 16 * (n + 1) = 16 + 16 * n by omega, hits_add]
      simp only [Option.bind_eq_bind, Option.bind_some]
      cases hg : s.hits k key h 16 d with
      | cons e l => rfl
      | nil =>
          simp only [List.head?_nil, Option.map_none, List.nil_append]
          split
          · rename_i he
            obtain ⟨b, hb, hemp⟩ := (empty_group hs).mp he
            rw [hits_of_empty hemp (by omega : d + b ≤ d + 16)]
            rfl
          · rename_i he
            rw [empty_group hs] at he
            rw [show htGroup = 16 from rfl, hs.wrap_around, ih (by omega) (no_empty_next hne he)]

/-- **The lookup of a key.** -/
theorem probeFind_eq (hs : s.Ready) (simd : Bool) (key : K)
    (hnear : s.Near k key (s.hashToIndex (k.mixedHash key))) :
    s.probeFind k simd (k.mixedHash key) key (hashToH2 (k.mixedHash key)) =
      some ((s.hits k key (s.hashToIndex (k.mixedHash key)) s.capacity 0).head?.map
        (s.around (s.hashToIndex (k.mixedHash key)))) := by
  have h0 : ∀ e < 0, s.emptyAt (s.hashToIndex (k.mixedHash key)) e = false :=
    fun e he => absurd he (Nat.not_lt_zero e)
  rw [Slots.probeFind, around_home hs]
  split
  · rw [probeFindSimdLoop_eq (h := s.hashToIndex (k.mixedHash key)) hs hnear (by rw [hs.rounds_eq]; omega) h0,
      hs.rounds_eq, ← around_home hs]
  · rw [probeFindLoop_eq hs h0, ← around_home hs]

end

/-! ### The place for an insertion -/

/-- A slot without an element at or before the first empty slot of the probe. -/
def Slots.Free (s : Slots V) (h i : ℕ) : Prop :=
  ∃ d < s.capacity, i = s.around h d ∧ ¬ s.Live i ∧ ∀ e < d, s.emptyAt h e = false

/-- What an insertion probe with the matches `l` may return: the first match, or a free slot, or nothing where
every slot has an element. -/
def Slots.InsertAnswer (s : Slots V) (h : ℕ) (l : List ℕ) (r : Option ℕ × Bool) : Prop :=
  match l with
  | d :: _ => r = (some (s.around h d), true)
  | [] => r.2 = false ∧ ((∃ i, r.1 = some i ∧ s.Free h i) ∨ (r.1 = none ∧ ∀ i < s.capacity, s.Live i))

/-- What a probe knows before distance `d`: no empty slot, and of the deleted ones the first, or that there
is none. -/
structure Slots.Passed (s : Slots V) (h d : ℕ) (firstDeleted : Option ℕ) : Prop where
  empty : ∀ e < d, s.emptyAt h e = false
  deleted : ∀ i, firstDeleted = some i → ∃ e < d, i = s.around h e ∧ s.metadata i = htDeleted
  none : firstDeleted = none → ∀ e < d, s.metadata (s.around h e) ≠ htDeleted

section

variable {s : Slots V} {k : Keying K V} {key : K} {h d n : ℕ} {fd : Option ℕ}

theorem Slots.Passed.free (hp : s.Passed h d fd) (hd : d ≤ s.capacity) {i : ℕ} (e : fd = some i) : s.Free h i := by
  obtain ⟨e', he', rfl, hdel⟩ := hp.deleted i e
  refine ⟨e', by omega, rfl, fun hl => ?_, fun c hc => hp.empty c (by omega)⟩
  have := hl.2
  rw [hdel] at this
  cases this

theorem free_of_empty (hp : ∀ e < d, s.emptyAt h e = false) (hd : d < s.capacity) (he : s.emptyAt h d = true) :
    s.Free h (s.around h d) := by
  refine ⟨d, hd, rfl, fun hl => ?_, hp⟩
  have := hl.2
  rw [of_decide_eq_true he] at this
  cases this

/-- At the end of the probe without an empty slot. -/
theorem Slots.Passed.answer (hs : s.Ready) (hh : h < s.capacity) (hp : s.Passed h s.capacity fd) :
    s.InsertAnswer h [] (fd, false) := by
  refine ⟨rfl, ?_⟩
  cases hf : fd with
  | some i => exact Or.inl ⟨i, rfl, hp.free le_rfl hf⟩
  | none =>
      refine Or.inr ⟨rfl, fun i hi => ⟨hi, ?_⟩⟩
      obtain ⟨d, hd, rfl⟩ := Slots.exists_around hi hh
      obtain h1 | h1 | h1 := hs.byte _ hi
      · exact h1
      · have := hp.empty d hd
        rw [Slots.emptyAt, h1] at this
        cases this
      · exact absurd h1 (hp.none hf d hd)

theorem probeFindOrInsertLoop_spec (hs : s.Ready) (hh : h < s.capacity) (hn : d + n = s.capacity)
    (hp : s.Passed h d fd) :
    ∃ r, s.probeFindOrInsertLoop k key (hashToH2 (k.mixedHash key)) n (s.around h d) fd = some r ∧
      s.InsertAnswer h (s.hits k key h n d) r := by
  induction n generalizing d fd with
  | zero =>
      obtain rfl : d = s.capacity := by omega
      exact ⟨_, rfl, hp.answer hs hh⟩
  | succ n ih =>
      rw [Slots.probeFindOrInsertLoop]
      split
      · rename_i he
        have hemp : s.emptyAt h d = true := decide_eq_true he
        refine ⟨_, rfl, ?_⟩
        rw [hits_of_empty hemp le_rfl]
        refine ⟨rfl, Or.inl ⟨_, rfl, ?_⟩⟩
        cases hf : fd with
        | none => exact free_of_empty hp.empty (by omega) hemp
        | some i => exact hp.free (by omega) hf
      · rename_i he
        have hd : ∀ e ≤ d, s.emptyAt h e = false := fun e hle => by
          rcases Nat.lt_or_eq_of_le hle with hlt | rfl
          · exact hp.empty e hlt
          · exact decide_eq_false he
        have hd' : ∀ e < d + 1, s.emptyAt h e = false := fun e hlt => hd e (by omega)
        rw [hits_succ hd]
        split
        · rename_i hdel
          have hno : s.hitAt k key h d = false := by
            rw [Slots.hitAt, hdel, decide_eq_false (Ne.symm (hashToH2_ne_deleted _)), Bool.false_and]
          rw [hno, hs.wrap_around, if_neg (by simp)]
          refine ih (by omega) ⟨hd', fun i hi => ?_, fun hi => ?_⟩
          · cases hf : fd with
            | none =>
                rw [hf] at hi
                exact ⟨d, by omega, (Option.some.inj hi).symm, by rw [← Option.some.inj hi]; exact hdel⟩
            | some j =>
                rw [hf] at hi
                obtain ⟨e, he', h1⟩ := hp.deleted j hf
                rw [← Option.some.inj hi]
                exact ⟨e, by omega, h1⟩
          · cases fd <;> cases hi
        · rename_i hdel
          rw [hit_eq hs]
          simp only [Option.bind_eq_bind, Option.bind_some]
          cases s.hitAt k key h d with
          | true => exact ⟨_, rfl, rfl⟩
          | false =>
              rw [hs.wrap_around, if_neg (by simp), if_neg (by simp)]
              refine ih (by omega) ⟨hd', fun i hi => ?_, fun hi e hlt => ?_⟩
              · obtain ⟨e, he', h1⟩ := hp.deleted i hi
                exact ⟨e, by omega, h1⟩
              · rcases Nat.lt_succ_iff_lt_or_eq.mp hlt with hlt | rfl
                · exact hp.none hi e hlt
                · exact hdel

theorem probeFindOrInsertSimdLoop_spec (hs : s.Ready) (hh : h < s.capacity) (hnear : s.Near k key h)
    (hn : d + 16 * n = s.capacity) (hp : s.Passed h d fd) :
    ∃ r, s.probeFindOrInsertSimdLoop k key h (hashToH2 (k.mixedHash key)) n (s.around h d) fd = some r ∧
      s.InsertAnswer h (s.hits k key h (16 * n) d) r := by
  induction n generalizing d fd with
  | zero =>
      obtain rfl : d = s.capacity := by omega
      exact ⟨_, rfl, hp.answer hs hh⟩
  | succ n ih =>
      rw [Slots.probeFindOrInsertSimdLoop, matchSlot_group hs hnear (by omega),
        show 16 * (n + 1) = 16 + 16 * n by omega, hits_add]
      simp only [Option.bind_eq_bind, Option.bind_some]
      cases hg : s.hits k key h 16 d with
      | cons e l => exact ⟨_, rfl, rfl⟩
      | nil =>
          simp only [List.head?_nil, Option.map_none, List.nil_append]
          cases hempty : Slots.matchBytes (s.loadMetaGroup (s.around h d)) htEmpty with
          | cons b l =>
              rw [hs.matchBytes_load] at hempty
              obtain ⟨⟨hb, hemp⟩, hleast, _⟩ := filter_range_cons hempty
              have hpass : ∀ e < d + b, s.emptyAt h e = false := by
                intro e he
                rcases Nat.lt_or_ge e d with hlt | hge
                · exact hp.empty e hlt
                · have := hleast (e - d) (by omega)
                  rwa [Nat.add_sub_cancel' hge] at this
              refine ⟨_, rfl, ?_⟩
              rw [hits_of_empty hemp (by omega : d + b ≤ d + 16), hs.wrap_around]
              refine ⟨rfl, Or.inl ⟨_, rfl, ?_⟩⟩
              have hfree := free_of_empty hpass (by omega) hemp
              rw [Slots.insertionSlot.eq_def]
              split
              · rename_i i
                split
                · exact hp.free (by omega) rfl
                · exact hfree
              · exact hfree
          | nil =>
              have hno : ¬ ∃ b < 16, s.emptyAt h (d + b) = true := fun hex => (empty_group hs).mpr hex hempty
              simp only
              rw [show htGroup = 16 from rfl, hs.wrap_around]
              refine ih (by omega) ⟨no_empty_next hp.empty hno, fun i hi => ?_, fun hi e hlt => ?_⟩
              · cases hf : fd with
                | some j =>
                    rw [hf] at hi
                    obtain ⟨e, he', h1⟩ := hp.deleted j hf
                    rw [← Option.some.inj hi]
                    exact ⟨e, by omega, h1⟩
                | none =>
                    rw [hf, Option.none_or, Option.map_eq_some_iff] at hi
                    obtain ⟨b, hb, rfl⟩ := hi
                    have hmem := List.mem_of_head? hb
                    rw [hs.matchBytes_load, List.mem_filter, List.mem_range, decide_eq_true_eq] at hmem
                    rw [hs.wrap_around]
                    exact ⟨d + b, by omega, rfl, hmem.2⟩
              · rw [Option.or_eq_none_iff, Option.map_eq_none_iff, List.head?_eq_none_iff, hs.matchBytes_load] at hi
                rcases Nat.lt_or_ge e d with hlt' | hge
                · exact hp.none hi.1 e hlt'
                · have := List.filter_eq_nil_iff.mp hi.2 (e - d) (List.mem_range.mpr (by omega))
                  rwa [decide_eq_true_eq, Nat.add_sub_cancel' hge] at this

/-- **The insertion probes.** -/
theorem probeFindOrInsert_spec (hs : s.Ready) (key : K)
    (hnear : s.Near k key (s.hashToIndex (k.mixedHash key))) :
    (∃ r, s.probeFindOrInsert k (k.mixedHash key) key (hashToH2 (k.mixedHash key)) = some r ∧
      s.InsertAnswer (s.hashToIndex (k.mixedHash key))
        (s.hits k key (s.hashToIndex (k.mixedHash key)) s.capacity 0) r) ∧
    ∃ r, s.probeFindOrInsertSimd k (k.mixedHash key) key (hashToH2 (k.mixedHash key)) = some r ∧
      s.InsertAnswer (s.hashToIndex (k.mixedHash key))
        (s.hits k key (s.hashToIndex (k.mixedHash key)) s.capacity 0) r := by
  have hh : s.hashToIndex (k.mixedHash key) < s.capacity := by
    rw [around_home hs]
    exact hs.around_lt
  have hp : s.Passed (s.hashToIndex (k.mixedHash key)) 0 none :=
    ⟨fun e he => absurd he (Nat.not_lt_zero e), fun i hi => (nomatch hi), fun _ e he => absurd he (Nat.not_lt_zero e)⟩
  constructor
  · have hl : ∃ r, s.probeFindOrInsertLoop k key (hashToH2 (k.mixedHash key)) s.capacity
        (s.around (s.hashToIndex (k.mixedHash key)) 0) none = some r ∧ s.InsertAnswer _ (s.hits k key _ s.capacity 0) r :=
      probeFindOrInsertLoop_spec hs hh (Nat.zero_add _) hp
    rwa [← around_home hs] at hl
  · have hl := probeFindOrInsertSimdLoop_spec (n := s.rounds) hs hh hnear (by rw [hs.rounds_eq, Nat.zero_add]) hp
    rwa [hs.rounds_eq, ← around_home hs] at hl

end

/-! ### Agreement -/

section

variable {t : Table V} {k : Keying K V}

/-- **The probes with and without vector instructions agree.**  Lookup, count and removal of a key do the same; the
insertion probes find the same element, and otherwise each a free slot at or before the first empty one, or both
none where every slot has an element. -/
theorem probes_agree (hs : t.slots.Ready) (hk : k.Lawful) (hr : t.slots.Reachable k) (key : K) :
    (∃ r, ∀ simd, t.slots.probeFind k simd (k.mixedHash key) key (hashToH2 (k.mixedHash key)) = some r) ∧
    (∃ n, ∀ simd, t.slots.probeCount k simd (k.mixedHash key) key (hashToH2 (k.mixedHash key)) = some n) ∧
    (∃ r, ∀ simd, t.eraseKey k simd key = some r) ∧
    ∃ r r', t.slots.probeFindOrInsert k (k.mixedHash key) key (hashToH2 (k.mixedHash key)) = some r ∧
      t.slots.probeFindOrInsertSimd k (k.mixedHash key) key (hashToH2 (k.mixedHash key)) = some r' ∧
      r.2 = r'.2 ∧ (r.2 = true → r.1 = r'.1 ∧ r.1.isSome) ∧
      (r.2 = false →
        ((∃ i, r.1 = some i ∧ t.slots.Free (t.slots.hashToIndex (k.mixedHash key)) i) ∧
          ∃ i, r'.1 = some i ∧ t.slots.Free (t.slots.hashToIndex (k.mixedHash key)) i) ∨
        (r.1 = none ∧ r'.1 = none ∧ ∀ i < t.slots.capacity, t.slots.Live i)) := by
  have hnear := near_of_reachable hs hk hr key
  refine ⟨⟨_, fun simd => probeFind_eq hs simd key hnear⟩, ⟨_, fun simd => probeCount_eq hs simd key⟩,
    ⟨_, fun simd => eraseKey_eq hs simd key⟩, ?_⟩
  obtain ⟨⟨r, e, ha⟩, r', e', ha'⟩ := probeFindOrInsert_spec hs key hnear
  refine ⟨r, r', e, e', ?_⟩
  generalize t.slots.hits k key (t.slots.hashToIndex (k.mixedHash key)) t.slots.capacity 0 = l at ha ha'
  cases l with
  | cons d l =>
      obtain rfl : r = _ := ha
      obtain rfl : r' = _ := ha'
      exact ⟨rfl, fun _ => ⟨rfl, rfl⟩, fun h => (nomatch h)⟩
  | nil =>
      obtain ⟨hf, ha⟩ := ha
      obtain ⟨hf', ha'⟩ := ha'
      refine ⟨by rw [hf, hf'], fun h => absurd (hf.symm.trans h) (by simp), fun _ => ?_⟩
      have hlt : ∀ {i}, t.slots.Free (t.slots.hashToIndex (k.mixedHash key)) i → i < t.slots.capacity ∧ ¬ t.slots.Live i := by
        rintro i ⟨d, _, rfl, hn, _⟩
        exact ⟨hs.around_lt, hn⟩
      obtain ⟨i, hi, hfree⟩ | ⟨hn, hall⟩ := ha
      · obtain ⟨i', hi', hfree'⟩ | ⟨_, hall'⟩ := ha'
        · exact Or.inl ⟨⟨i, hi, hfree⟩, i', hi', hfree'⟩
        · exact absurd (hall' i (hlt hfree).1) (hlt hfree).2
      · obtain ⟨i', hi', hfree'⟩ | ⟨hn', _⟩ := ha'
        · exact absurd (hall i' (hlt hfree').1) (hlt hfree').2
        · exact Or.inr ⟨hn, hn', hall⟩

end

/-- Keys that are their own values, all with the same home slot. -/
def sameHome : Keying ℕ ℕ := ⟨fun _ => 0, fun a b => a == b, id⟩

/-- Sixteen elements in sixteen slots. -/
def fullSlots : Slots ℕ := ⟨fun i => if i < 16 then some i else none, fun i => if i < 16 then 0 else htEmpty, 16⟩

theorem fullSlots_ready : fullSlots.Ready := by
  refine ⟨⟨Or.inr ⟨4, le_rfl, rfl⟩, fun i hi => Or.inl ?_, fun i hi => ?_⟩, by decide⟩
  · have hlt : i < 16 := hi
    simp [fullSlots, hlt, isTaken, htEmpty]
  · have hlt : i < 16 := hi
    simp [fullSlots, hlt, isTaken, htEmpty]

theorem sameHome_lawful : sameHome.Lawful := fun _ _ _ => rfl

theorem mixedHash_sameHome (key : ℕ) : sameHome.mixedHash key = 0 := by simp [Keying.mixedHash, sameHome]

theorem fullSlots_reachable : fullSlots.Reachable sameHome := by
  intro i v hi _
  have hlt : i < 16 := hi
  rw [mixedHash_sameHome]
  refine ⟨i, hi, ?_, fun e he => ?_⟩
  · show (fullSlots.hashToIndex 0 + i) % 16 = i
    rw [show fullSlots.hashToIndex 0 = 0 from rfl, Nat.zero_add, Nat.mod_eq_of_lt hlt]
  · have h16 : (fullSlots.hashToIndex 0 + e) % 16 < 16 := Nat.mod_lt _ (by decide)
    show decide ((if (fullSlots.hashToIndex 0 + e) % 16 < 16 then 0 else htEmpty) = htEmpty) = false
    rw [if_pos h16]
    rfl

/-- The table of sixteen elements, and a key that is there. -/
theorem probes_agree_sample :
    (∃ r, ∀ simd, fullSlots.probeFind sameHome simd (sameHome.mixedHash 3) 3 (hashToH2 (sameHome.mixedHash 3)) = some r) ∧
    ∃ r, ∀ simd, Table.eraseKey ⟨fullSlots, 16, 16, 0, 1, 1⟩ sameHome simd 3 = some r := by
  obtain ⟨h1, _, h3, _⟩ := probes_agree (t := ⟨fullSlots, 16, 16, 0, 1, 1⟩) fullSlots_ready sameHome_lawful fullSlots_reachable 3
  exact ⟨h1, h3⟩

/-- In a table without a free slot the insertion probes return none for a key that is not there. -/
theorem insertion_probe_full : ¬ ∀ (s : Slots ℕ) (k : Keying ℕ ℕ) (key : ℕ), s.Ready → k.Lawful → s.Reachable k →
    ∀ r, s.probeFindOrInsert k (k.mixedHash key) key (hashToH2 (k.mixedHash key)) = some r → r.2 = false →
      ∃ i, r.1 = some i ∧ s.Free (s.hashToIndex (k.mixedHash key)) i := by
  intro hall
  have e : fullSlots.probeFindOrInsert sameHome (sameHome.mixedHash 100) 100 (hashToH2 (sameHome.mixedHash 100)) =
      some (none, false) := by decide
  obtain ⟨i, hi, _⟩ := hall fullSlots sameHome 100 fullSlots_ready sameHome_lawful fullSlots_reachable _ e rfl
  cases hi

end NeForce.Flat
