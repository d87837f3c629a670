import Mathlib
import NeForce.Cells
import NeForce.FlatProbe
import NeForce.FlatReserve
import NeForce.Hashtable

/-! # What a rehash leaves where a function object throws

A rehash of the flat table moves the elements one by one into new arrays, and where a function object throws in between, the
new arrays are given back with what has been moved there: the old slots up to that element keep what a move leaves of
their elements (`moveAll_thrown`, `moveAll_throws_at`).  The script can stop the rehash at every element, so the table has its
elements after every exception if and only if moving changes none of them but the last.  A rehash of the
chained table takes the chain apart and links it anew, and after an exception the chain holds what was linked so
far, which is not all (`rehash_holds_iff`). -/

namespace NeForce.Flat

variable {K V : Type}

/-! ### Scripts -/

section

variable {α : Type} {throws : ℕ → Bool} {P : α → Prop} {f g : Calls α}

/-- `g` ends with a result that satisfies `P`; and with the script, `f` ends with the same, or in an exception if one of its
calls throws. -/
def Follows (throws : ℕ → Bool) (P : α → Prop) (f g : Calls α) : Prop :=
  ∀ c, ∃ a c', g c = .ok (a, c') ∧ c ≤ c' ∧ P a ∧
    ((∀ x, c ≤ x → x < c' → throws x = false) ∧ f c = .ok (a, c') ∨
      (∃ x, c ≤ x ∧ x < c' ∧ throws x = true) ∧ f c = .error .thrown)

theorem Follows.pure {a : α} (h : P a) : Follows throws P (fun c => .ok (a, c)) fun c => .ok (a, c) :=
  fun c => ⟨a, c, rfl, le_rfl, h, Or.inl ⟨fun x h1 h2 => by omega, rfl⟩⟩

theorem Follows.call (h : Follows throws P f g) : Follows throws P (call throws f) (call nothrow g) := by
  intro c
  obtain ⟨a, c', hg, hc, ha, hf⟩ := h (c + 1)
  refine ⟨a, c', hg, by omega, ha, ?_⟩
  cases ht : throws c with
  | true => exact Or.inr ⟨⟨c, le_rfl, by omega, ht⟩, by rw [Flat.call, if_pos ht]⟩
  | false =>
      have e : Flat.call throws f c = f (c + 1) := by rw [Flat.call, ht, if_neg Bool.false_ne_true]
      rw [e]
      obtain ⟨hno, hf⟩ | ⟨⟨x, h1, h2, h3⟩, hf⟩ := hf
      · refine Or.inl ⟨fun x h1 h2 => ?_, hf⟩
        rcases Nat.eq_or_lt_of_le h1 with rfl | hlt
        · exact ht
        · exact hno x hlt h2
      · exact Or.inr ⟨⟨x, by omega, h2, h3⟩, hf⟩

end

/-! ### Places in new arrays -/

/-- There are arrays, and every slot but `i` has an object if its byte is a tag. -/
structure Slots.ReadyBut (s : Slots V) (i : ℕ) : Prop where
  pos : s.capacity ≠ 0
  capacity : s.capacity = 0 ∨ ∃ k, 4 ≤ k ∧ s.capacity = 2 ^ k
  byte : ∀ j < s.capacity, isTaken (s.metadata j) = true ∨ s.metadata j = htEmpty ∨ s.metadata j = htDeleted
  object : ∀ j < s.capacity, j ≠ i → (s.data j).isSome = isTaken (s.metadata j)

section

variable {s s' : Slots V} {k : Keying K V} {throws : ℕ → Bool} {key : K} {i e d h2 n pos : ℕ} {v : V}

theorem Slots.Ready.but (hs : s.Ready) (i : ℕ) : s.ReadyBut i :=
  ⟨hs.pos, hs.capacity, hs.byte, fun j hj _ => hs.object j hj⟩

theorem Slots.ReadyBut.construct (hs : s.ReadyBut i) (hh : h2 < 128) : (s.construct i v h2).Ready where
  pos := hs.pos
  capacity := hs.capacity
  byte := fun j hj => by
    rw [Slots.construct]
    rcases eq_or_ne j i with rfl | hne
    · exact Or.inl (by simpa [isTaken, htEmpty] using hh)
    · simpa [Function.update_of_ne hne] using hs.byte j hj
  object := fun j hj => by
    rw [Slots.construct]
    rcases eq_or_ne j i with rfl | hne
    · simp [isTaken, htEmpty, hh]
    · simpa [Function.update_of_ne hne] using hs.object j hj hne

/-- A step of a shift moves the slot without object one back. -/
theorem Slots.ReadyBut.move (hs : s.ReadyBut i) (hi : e < s.capacity) (hne : e ≠ i) : (s.move i e).ReadyBut e where
  pos := hs.pos
  capacity := hs.capacity
  byte := fun j hj => by
    rw [Slots.move]
    rcases eq_or_ne j i with rfl | hji
    · simpa using hs.byte e hi
    · simpa [Function.update_of_ne hji] using hs.byte j hj
  object := fun j hj hje => by
    rw [Slots.move]
    simp only
    rw [Function.update_of_ne hje]
    rcases eq_or_ne j i with rfl | hji
    · rw [Function.update_self, Function.update_self]
      exact hs.object e hi hne
    · rw [Function.update_of_ne hji, Function.update_of_ne hji]
      exact hs.object j hj hji

theorem Slots.Ready.prev_around (hs : s.Ready) : s.prev (s.around pos (d + 1)) = s.around pos d := by
  have hpos := Nat.pos_of_ne_zero hs.pos
  rw [Slots.prev, hs.wrap_around, Slots.around, Slots.around, show pos + (d + 1 + (s.capacity - 1)) = pos + d + s.capacity by omega,
    Nat.add_mod_right]

theorem prev_congr (hc : s'.capacity = s.capacity) (i : ℕ) : s'.prev i = s.prev i := by
  rw [Slots.prev, Slots.prev, Slots.wrap, Slots.wrap, hc]

/-- A shift from distance `d` makes its first slot the one without object. -/
theorem shiftBack_readyBut {s₀ : Slots V} (h0 : s₀.Ready) (hpos : pos < s₀.capacity) (hd : d < s₀.capacity) (hn : d ≤ n)
    (hc : s.capacity = s₀.capacity) (hs : s.ReadyBut (s₀.around pos d)) :
    (Slots.shiftBack pos n s (s₀.around pos d)).ReadyBut pos ∧ (Slots.shiftBack pos n s (s₀.around pos d)).capacity = s₀.capacity := by
  have hzero : s₀.around pos 0 = pos := Nat.mod_eq_of_lt hpos
  induction n generalizing s d with
  | zero =>
      obtain rfl : d = 0 := by omega
      rw [hzero] at hs ⊢
      exact ⟨hs, hc⟩
  | succ n ih =>
      rw [Slots.shiftBack]
      split
      · rename_i he
        rw [he] at hs
        exact ⟨hs, hc⟩
      · rename_i hne
        cases d with
        | zero => exact absurd hzero hne
        | succ d =>
            rw [prev_congr hc, h0.prev_around]
            have hne' : s₀.around pos d ≠ s₀.around pos (d + 1) := fun e => by
              have := Slots.around_inj (by omega) hd e
              omega
            refine ih (by omega) (by omega) hc (hs.move ?_ hne')
            rw [hc]
            exact h0.around_lt

theorem Slots.Ready.wrap_lt (hs : s.Ready) (i : ℕ) : s.wrap i < s.capacity := by
  rw [hs.wrap_eq]
  exact Nat.mod_lt _ (Nat.pos_of_ne_zero hs.pos)

theorem seek_lt (hs : s.Ready) {stop : ℕ → Bool} (he : e < s.capacity) : s.seek stop n e < s.capacity := by
  induction n generalizing e with
  | zero => exact he
  | succ n ih =>
      rw [Slots.seek]
      split
      · exact hs.wrap_lt _
      · exact ih (hs.wrap_lt _)

/-- A comparison with the element of a slot never fails. -/
theorem follows_ifHit {α : Type} {P : α → Prop} {yes no yes' no' : Calls α} (hs : s.Ready) (hh : h2 < 128) (hi : i < s.capacity)
    (hyes : Follows throws P yes yes') (hno : Follows throws P no no') :
    Follows throws P (ifHit k throws key h2 s i yes no) (ifHit k nothrow key h2 s i yes' no') := by
  rw [ifHit, ifHit]
  split
  · rename_i hm
    have ho := hs.object i hi
    rw [hm, isTaken, htEmpty, decide_eq_true hh] at ho
    obtain ⟨w, hw⟩ := Option.isSome_iff_exists.mp ho
    refine Follows.call ?_
    rw [Slots.keyIs, hw, Option.map_some]
    cases k.equals (k.extracter w) key with
    | true => exact hyes
    | false => exact hno
  · exact hno

/-- The slot of a place is the only one that may lack its object. -/
def IsPlace (capacity : ℕ) (r : Slots V × ℕ) : Prop :=
  r.1.ReadyBut r.2 ∧ r.2 < capacity ∧ r.1.capacity = capacity

theorem follows_placeRun (hs : s.Ready) (hh : h2 < 128) (hi : i < s.capacity) :
    Follows throws (IsPlace s.capacity) (placeRun k throws key h2 s n i) (placeRun k nothrow key h2 s n i) := by
  induction n generalizing i with
  | zero => exact Follows.pure ⟨hs.but _, hi, rfl⟩
  | succ n ih =>
      rw [placeRun, placeRun]
      have hr := hs.wrap_lt (i + 1)
      generalize s.wrap (i + 1) = r at hr ⊢
      split
      · exact Follows.pure ⟨hs.but _, hr, rfl⟩
      · refine follows_ifHit hs hh hr (ih hr) (Follows.pure ?_)
        obtain ⟨d, hd, he⟩ := Slots.exists_around (seek_lt hs hr) hr
        rw [← he]
        obtain ⟨h1, h2⟩ := shiftBack_readyBut hs hr hd hd.le rfl (hs.but _)
        exact ⟨h1, hr, h2⟩

theorem follows_place (throws : ℕ → Bool) (k : Keying K V) (s : Slots V) (key : K) (hs : s.Ready) (hh : h2 < 128) (hi : i < s.capacity) :
    Follows throws (IsPlace s.capacity) (place k throws key h2 s n i) (place k nothrow key h2 s n i) := by
  induction n generalizing i with
  | zero => exact Follows.pure ⟨hs.but _, hi, rfl⟩
  | succ n ih =>
      rw [place, place]
      split
      · exact Follows.pure ⟨hs.but _, hi, rfl⟩
      · exact follows_ifHit hs hh hi (follows_placeRun hs hh hi) (ih (hs.wrap_lt _))

theorem follows_placeElement (throws : ℕ → Bool) (k : Keying K V) (s : Slots V) (key : K) (hs : s.Ready) :
    Follows throws (IsPlace s.capacity) (placeElement k throws key s) (placeElement k nothrow key s) :=
  Follows.call (follows_place throws k s key hs (hashToH2_lt _) (hs.wrap_lt _))

end

/-! ### The moves -/

section

variable {old old' new new' : Slots V} {k : Keying K V} {movedFrom : V → V} {throws : ℕ → Bool} {i j n c : ℕ} {v : V}

/-- The old arrays when the rehash has come from slot `i` to slot `j`. -/
def Slots.movedUpTo (s : Slots V) (movedFrom : V → V) (i j : ℕ) : Slots V :=
  { s with data := fun x => if i ≤ x ∧ x < j ∧ isTaken (s.metadata x) then (s.data x).map movedFrom else s.data x }

/-- The old arrays with the element of slot `i` moved away. -/
def Slots.movedAway (s : Slots V) (i : ℕ) (w : V) : Slots V := { s with data := Function.update s.data i (some w) }

theorem movedUpTo_self : old.movedUpTo movedFrom i i = old := by
  have h : ∀ x, ¬ (i ≤ x ∧ x < i ∧ isTaken (old.metadata x) = true) := fun x hx => by omega
  simp only [Slots.movedUpTo, if_neg (h _)]

theorem movedUpTo_of_dead (hi : isTaken (old.metadata i) = false) :
    old.movedUpTo movedFrom (i + 1) j = old.movedUpTo movedFrom i j := by
  rw [Slots.movedUpTo, Slots.movedUpTo]
  congr 1
  funext x
  rcases eq_or_ne x i with rfl | hne
  · rw [if_neg (by omega), if_neg (by simp [hi])]
  · have : i + 1 ≤ x ↔ i ≤ x := by omega
    simp only [this]

theorem movedUpTo_of_live (hi : isTaken (old.metadata i) = true) (hv : old.data i = some v) (hij : i < j) :
    (old.movedAway i (movedFrom v)).movedUpTo movedFrom (i + 1) j = old.movedUpTo movedFrom i j := by
  rw [Slots.movedUpTo, Slots.movedUpTo, Slots.movedAway]
  congr 1
  funext x
  simp only
  rcases eq_or_ne x i with rfl | hne
  · rw [if_neg (by omega), if_pos ⟨le_rfl, hij, hi⟩, Function.update_self, hv, Option.map_some]
  · have : i + 1 ≤ x ↔ i ≤ x := by omega
    simp only [this, Function.update_of_ne hne]

theorem Slots.WellFormed.movedAway (hs : old.WellFormed) (hv : old.data i = some v) (w : V) : (old.movedAway i w).WellFormed where
  capacity := hs.capacity
  byte := hs.byte
  object := fun x hx => by
    rw [Slots.movedAway]
    simp only
    rcases eq_or_ne x i with rfl | hne
    · have := hs.object x hx
      rw [hv] at this
      rw [Function.update_self]
      exact this
    · rw [Function.update_of_ne hne]
      exact hs.object x hx

theorem taken_iff (hs : old.WellFormed) (hi : i < old.capacity) :
    (old.metadata i ≠ htEmpty ∧ old.metadata i ≠ htDeleted) ↔ isTaken (old.metadata i) = true := by
  obtain h | h | h := hs.byte i hi
  · have hlt : old.metadata i < 0x80 := of_decide_eq_true h
    refine iff_of_true ⟨?_, ?_⟩ h
    · rw [htEmpty]
      omega
    · rw [htDeleted]
      omega
  · rw [h]
    decide
  · rw [h]
    decide

/-- One slot of the rehash: it is passed over; or the exception leaves the old arrays; or its element is moved. -/
theorem moveAll_succ (k : Keying K V) (movedFrom : V → V) (n c : ℕ) (hold : old.WellFormed) (hi : i < old.capacity) (hnew : new.Ready) :
    (isTaken (old.metadata i) = false ∧
      ∀ throws, moveAll k movedFrom throws (n + 1) i old new c = moveAll k movedFrom throws n (i + 1) old new c) ∨
    (isTaken (old.metadata i) = true ∧ ∃ v new₁ c₁, old.data i = some v ∧ new₁.Ready ∧ c < c₁ ∧ ∀ throws,
      ((∀ x, c ≤ x → x < c₁ → throws x = false) ∧ moveAll k movedFrom throws (n + 1) i old new c =
          moveAll k movedFrom throws n (i + 1) (old.movedAway i (movedFrom v)) new₁ c₁ ∨
        (∃ x, c ≤ x ∧ x < c₁ ∧ throws x = true) ∧ moveAll k movedFrom throws (n + 1) i old new c = .thrown old new)) := by
  cases ht : isTaken (old.metadata i) with
  | false =>
      refine Or.inl ⟨rfl, fun throws => ?_⟩
      rw [moveAll, if_neg]
      rw [taken_iff hold hi, ht]
      exact Bool.false_ne_true
  | true =>
      have ho := hold.object i hi
      rw [ht] at ho
      obtain ⟨v, hv⟩ := Option.isSome_iff_exists.mp ho
      obtain ⟨⟨s, idx⟩, c₁, hok, hc, ⟨hbut, hidx, hcap⟩, _⟩ :=
        follows_place nothrow k new (k.extracter v) (n := new.capacity) hnew (hashToH2_lt (k.mixedHash (k.extracter v)))
          (hnew.wrap_lt (k.mixedHash (k.extracter v) >>> 7)) (c + 1)
      refine Or.inr ⟨rfl, v, s.construct idx v (hashToH2 (k.mixedHash (k.extracter v))), c₁, hv,
        hbut.construct (hashToH2_lt _), hc, fun throws => ?_⟩
      obtain ⟨r, c₂, hok₂, _, _, h⟩ := follows_placeElement throws k new (k.extracter v) hnew c
      have hok' : placeElement k nothrow (k.extracter v) new c = .ok ((s, idx), c₁) := hok
      rw [hok'] at hok₂
      obtain ⟨rfl, rfl⟩ := Prod.mk.inj (Except.ok.inj hok₂)
      rw [moveAll, if_pos ((taken_iff hold hi).mpr ht), hv]
      simp only
      obtain ⟨hno, h⟩ | ⟨hx, h⟩ := h
      · rw [h]
        exact Or.inl ⟨hno, rfl⟩
      · rw [h]
        exact Or.inr ⟨hx, rfl⟩

/-- After an exception at slot `j`, the elements of the slots before it have been moved away. -/
theorem moveAll_thrown (hold : old.WellFormed) (hi : i + n = old.capacity) (hnew : new.Ready)
    (h : moveAll k movedFrom throws n i old new c = .thrown old' new') :
    ∃ j, i ≤ j ∧ old.Live j ∧ old' = old.movedUpTo movedFrom i j := by
  induction n generalizing i old new c with
  | zero => cases h
  | succ n ih =>
      have hlt : i < old.capacity := by omega
      obtain ⟨ht, e⟩ | ⟨ht, v, new₁, c₁, hv, hnew₁, _, e⟩ := moveAll_succ k movedFrom n c hold hlt hnew
      · rw [e] at h
        obtain ⟨j, hij, hl, rfl⟩ := ih hold (by omega) hnew h
        exact ⟨j, by omega, hl, movedUpTo_of_dead ht⟩
      · obtain ⟨_, e⟩ | ⟨_, e⟩ := e throws
        · rw [e] at h
          obtain ⟨j, hij, hl, rfl⟩ := ih (hold.movedAway hv _) (by exact (by omega : i + 1 + n = old.capacity)) hnew₁ h
          exact ⟨j, by omega, hl, movedUpTo_of_live ht hv hij⟩
        · rw [e] at h
          obtain ⟨rfl, _⟩ := Moved.thrown.inj h
          exact ⟨i, le_rfl, ⟨by omega, ht⟩, movedUpTo_self.symm⟩

/-- A script that throws once can stop the rehash at any element. -/
theorem moveAll_throws_at (k : Keying K V) (movedFrom : V → V) (c : ℕ) (hold : old.WellFormed) (hi : i + n = old.capacity)
    (hnew : new.Ready) (hij : i ≤ j) (hj : old.Live j) :
    ∃ N new', c ≤ N ∧ moveAll k movedFrom (fun x => x == N) n i old new c = .thrown (old.movedUpTo movedFrom i j) new' := by
  induction n generalizing i old new c with
  | zero =>
      have := hj.1
      omega
  | succ n ih =>
      have hlt : i < old.capacity := by omega
      obtain ⟨ht, e⟩ | ⟨ht, v, new₁, c₁, hv, hnew₁, hc, e⟩ := moveAll_succ k movedFrom n c hold hlt hnew
      · have hne : i ≠ j := by
          rintro rfl
          rw [hj.2] at ht
          cases ht
        have hle : i + 1 ≤ j := by omega
        obtain ⟨N, new', hN, h⟩ := ih (c := c) hold (by omega) hnew hle hj
        refine ⟨N, new', hN, ?_⟩
        rw [e, h, movedUpTo_of_dead ht]
      · rcases Nat.eq_or_lt_of_le hij with rfl | hlt
        · refine ⟨c, new, le_rfl, ?_⟩
          obtain ⟨hno, _⟩ | ⟨_, e⟩ := e (fun x => x == c)
          · have := hno c le_rfl hc
            simp at this
          · rw [e, movedUpTo_self]
        · have hcap : i + 1 + n = (old.movedAway i (movedFrom v)).capacity := by
            show i + 1 + n = old.capacity
            omega
          obtain ⟨N, new', hN, h⟩ := ih (c := c₁) (hold.movedAway hv (movedFrom v)) hcap hnew₁ hlt hj
          refine ⟨N, new', by omega, ?_⟩
          obtain ⟨_, e⟩ | ⟨⟨x, _, hx, hthrow⟩, _⟩ := e (fun x => x == N)
          · rw [e, h, movedUpTo_of_live ht hv hlt]
          · have : x = N := by simpa using hthrow
            omega

end

/-! ### The whole rehash -/

theorem bitFloor_eq {n : ℕ} (hn : n ≠ 0) : bitFloor n = 2 ^ n.log2 := if_neg hn

theorem nextPowerOf2_pow (n : ℕ) : ∃ k, 4 ≤ k ∧ nextPowerOf2 n = 2 ^ k := by
  have hpow : ∃ k, nextPowerOf2 n = 2 ^ k := by
    rw [nextPowerOf2]
    split
    · exact ⟨4, rfl⟩
    · have hf := bitFloor_eq (show n ≠ 0 by omega)
      rw [bitCeil, if_neg (by omega)]
      split
      · rename_i h
        exact ⟨n.log2, by rw [← hf, h]⟩
      · exact ⟨n.log2 + 1, by rw [hf, Nat.shiftLeft_eq, pow_one, pow_succ]⟩
  obtain ⟨k, hk⟩ := hpow
  refine ⟨k, ?_, hk⟩
  have h16 := sixteen_le_nextPowerOf2 n
  rw [hk, show 16 = 2 ^ 4 from rfl] at h16
  exact (Nat.pow_le_pow_iff_right (by decide)).mp h16

theorem allocate_ready (n : ℕ) : (Slots.allocate (nextPowerOf2 n) : Slots V).Ready where
  pos := by
    have h : (Slots.allocate (nextPowerOf2 n) : Slots V).capacity = nextPowerOf2 n := rfl
    have := sixteen_le_nextPowerOf2 n
    omega
  capacity := Or.inr (nextPowerOf2_pow n)
  byte := fun _ _ => Or.inr (Or.inl rfl)
  object := fun _ _ => rfl

/-- The table has exactly these elements, finds each of them and knows their number. -/
structure Table.Holds (t : Table V) (k : Keying K V) (elements : Multiset V) : Prop where
  contents : Cells.contents t.slots.capacity t.slots.data = elements
  size : t.size = elements.card
  found : ∀ v ∈ elements, ∀ simd, ∃ i w,
    t.slots.probeFind k simd (k.mixedHash (k.extracter v)) (k.extracter v) (hashToH2 (k.mixedHash (k.extracter v))) = some (some i) ∧
      t.slots.data i = some w ∧ k.equals (k.extracter w) (k.extracter v) = true

/-- `rehash_impl` leaves the arrays. -/
def Table.KeepsArrays (t : Table V) (minCapacity : ℕ) (purgeOnly : Bool) : Prop :=
  nextPowerOf2 (max minCapacity (slotsFor t.size t.maxLoadFactor)) < t.slots.capacity ∨
    nextPowerOf2 (max minCapacity (slotsFor t.size t.maxLoadFactor)) = t.slots.capacity ∧ purgeOnly = false

section

variable {t t' : Table V} {k : Keying K V} {movedFrom : V → V} {throws : ℕ → Bool} {m : ℕ} {b : Bool} {elements : Multiset V}

/-- Moving leaves every element as it was, but for that of the last live slot. -/
def Table.MovesKeep (t : Table V) (movedFrom : V → V) : Prop :=
  ∀ i j v, t.slots.Live i → t.slots.Live j → i < j → t.slots.data i = some v → movedFrom v = v

theorem movedUpTo_of_keep {j : ℕ} (hkeep : ∀ i v, i < j → t.slots.Live i → t.slots.data i = some v → movedFrom v = v)
    (hj : j ≤ t.slots.capacity) : t.slots.movedUpTo movedFrom 0 j = t.slots := by
  rw [Slots.movedUpTo]
  congr 1
  funext x
  split
  · rename_i h
    cases hv : t.slots.data x with
    | none => rfl
    | some v => rw [Option.map_some, hkeep x v h.2.1 ⟨by omega, h.2.2⟩ hv]
  · rfl

/-- The first live slot behind a slot. -/
theorem exists_next_live {s : Slots V} {i j : ℕ} (hj : s.Live j) (hij : i < j) :
    ∃ j, s.Live j ∧ i < j ∧ ∀ x < j, s.Live x → x ≤ i := by
  classical
  have hex : ∃ j, s.Live j ∧ i < j := ⟨j, hj, hij⟩
  refine ⟨Nat.find hex, (Nat.find_spec hex).1, (Nat.find_spec hex).2, fun x hx hl => ?_⟩
  exact Nat.not_lt.mp fun h => Nat.find_min hex hx ⟨hl, h⟩

/-- Where moving keeps what is before slot `i`, only the element of slot `i` is changed up to the next live slot. -/
theorem movedUpTo_eq_update {s : Slots V} {i j : ℕ} {v : V} (hkeep : ∀ x w, x < i → s.Live x → s.data x = some w → movedFrom w = w)
    (hi : s.Live i) (hij : i < j) (hmin : ∀ x < j, s.Live x → x ≤ i) (hv : s.data i = some v) {x : ℕ} (hx : x < s.capacity) :
    (s.movedUpTo movedFrom 0 j).data x = Function.update s.data i (some (movedFrom v)) x := by
  rw [Slots.movedUpTo]
  simp only [Nat.zero_le, true_and]
  rcases eq_or_ne x i with rfl | hne
  · rw [if_pos ⟨hij, hi.2⟩, hv, Option.map_some, Function.update_self]
  · rw [Function.update_of_ne hne]
    split
    · rename_i hlt
      have hxi : x < i := lt_of_le_of_ne (hmin x hlt.1 ⟨hx, hlt.2⟩) hne
      cases hw : s.data x with
      | none => rfl
      | some w => rw [Option.map_some, hkeep x w hxi ⟨hx, hlt.2⟩ hw]
    · rfl

theorem rehashImpl_thrown_iff (hw : t.slots.WellFormed) (hmove : ¬ t.KeepsArrays m b) :
    (∃ throws, t.rehashImpl k movedFrom throws m b = .thrown t') ↔
      ∃ j, t.slots.Live j ∧ t' = { t with slots := t.slots.movedUpTo movedFrom 0 j } := by
  unfold Table.KeepsArrays at hmove
  have hnew := allocate_ready (V := V) (max m (slotsFor t.size t.maxLoadFactor))
  constructor
  · rintro ⟨throws, h⟩
    rw [Table.rehashImpl] at h
    simp only [Bool.not_eq_true'] at h
    rw [if_neg hmove] at h
    split at h
    · cases h
    · rename_i old' new' hm
      obtain ⟨j, _, hl, rfl⟩ := moveAll_thrown hw (Nat.zero_add _) hnew hm
      exact ⟨j, hl, (Rehash.thrown.inj h).symm⟩
    · cases h
  · rintro ⟨j, hl, rfl⟩
    obtain ⟨N, new', _, hm⟩ := moveAll_throws_at k movedFrom 0 hw (Nat.zero_add _) hnew (Nat.zero_le j) hl
    refine ⟨fun x => x == N, ?_⟩
    rw [Table.rehashImpl]
    simp only [Bool.not_eq_true']
    rw [if_neg hmove, hm]

/-- **The flat table keeps its elements in every exception if and only if moving changes no element but the last**, or nothing is
moved at all. -/
theorem flat_holds_iff (hw : t.slots.WellFormed) (ht : t.Holds k elements) :
    (∀ throws t', t.rehashImpl k movedFrom throws m b = .thrown t' → t'.Holds k elements) ↔
      t.KeepsArrays m b ∨ t.MovesKeep movedFrom := by
  by_cases hmove : t.KeepsArrays m b
  · refine iff_of_true (fun throws t' h => ?_) (Or.inl hmove)
    rw [Table.rehashImpl] at h
    simp only [Bool.not_eq_true'] at h
    rw [Table.KeepsArrays] at hmove
    rw [if_pos hmove] at h
    cases h
  rw [or_iff_right hmove]
  constructor
  · intro h i
    induction i using Nat.strong_induction_on with
    | _ i ih =>
        intro j v hi hj hij hv
        -- at the next live slot an exception leaves the element of slot `i` as moving has left it
        obtain ⟨j, hj, hij, hmin⟩ := exists_next_live hj hij
        obtain ⟨throws, hthrown⟩ : ∃ throws, t.rehashImpl k movedFrom throws m b =
            .thrown { t with slots := t.slots.movedUpTo movedFrom 0 j } := (rehashImpl_thrown_iff hw hmove).mpr ⟨j, hj, rfl⟩
        have hc := (h throws _ hthrown).contents
        have hdata : ∀ x < t.slots.capacity,
            (t.slots.movedUpTo movedFrom 0 j).data x = Function.update t.slots.data i (some (movedFrom v)) x := fun x hx =>
          movedUpTo_eq_update (fun y w hy hl hw' => ih y hy i w hl hi hy hw') hi hij hmin hv hx
        have hupd := Cells.contents_update (a := t.slots.data) hi.1 (some (movedFrom v))
        rw [← Cells.contents_congr hdata, hv] at hupd
        have hc' : Cells.contents t.slots.capacity (t.slots.movedUpTo movedFrom 0 j).data = elements := hc
        rw [hc', ht.contents] at hupd
        have hs := (Multiset.add_right_inj.mp hupd).symm
        simpa [← Multiset.cons_zero, Multiset.filterMap_cons] using hs
  · intro h throws t' hthrown
    obtain ⟨j, hj, rfl⟩ := (rehashImpl_thrown_iff hw hmove).mp ⟨throws, hthrown⟩
    rw [movedUpTo_of_keep (fun i v hij hi hv => h i j v hi hj hij hv) hj.1.le]
    exact ht

end

/-- Two numbers in the slots of their keys. -/
def twoNumbers : Table ℕ :=
  ⟨((Slots.allocate 16).construct 11 1 (hashToH2 (natKeying.mixedHash 1))).construct 6 2 (hashToH2 (natKeying.mixedHash 2)),
    2, 14, 0, 7 / 8, 1⟩

theorem twoNumbers_wellFormed : twoNumbers.slots.WellFormed where
  capacity := Or.inr ⟨4, le_rfl, rfl⟩
  byte := by decide
  object := by decide

theorem twoNumbers_holds : twoNumbers.Holds natKeying {1, 2} where
  contents := by decide
  size := rfl
  found := by
    intro v hv simd
    rw [Multiset.insert_eq_cons, Multiset.mem_cons, Multiset.mem_singleton] at hv
    obtain rfl | rfl := hv
    · exact ⟨11, 1, by cases simd <;> decide, by decide, by decide⟩
    · exact ⟨6, 2, by cases simd <;> decide, by decide, by decide⟩

end NeForce.Flat

namespace NeForce.Chained

open Flat

variable {K V : Type} {k : Keying K V} {throws : ℕ → Bool}

/-- The chain has exactly these elements, and the table knows their number. -/
structure Hashtable.Holds (t : Hashtable V) (elements : Multiset V) : Prop where
  contents : (t.chain.map Prod.snd : List V) = elements
  size : t.size = elements.card

/-- `rehash` leaves the buckets. -/
def Hashtable.KeepsBuckets (t : Hashtable V) (newSize : ℕ) : Prop :=
  max newSize (slotsFor t.size t.maxLoadFactor) ≤ t.buckets.length

/-- **A rehash of the chained table keeps the elements in every exception if and only if there is none**: it leaves the buckets,
or there are no elements. -/
theorem chained_holds_iff {t : Hashtable V} {elements : Multiset V} (ht : t.Holds elements) (k : Keying K V) (primes : List ℕ)
    (newSize : ℕ) :
    (∀ throws t', t.rehash k primes throws newSize = .thrown t' → t'.Holds elements) ↔ t.KeepsBuckets newSize ∨ elements = 0 := by
  have hcard : t.chain.length = elements.card := by rw [← ht.contents, Multiset.coe_card, List.length_map]
  constructor
  · intro h
    by_contra hcon
    obtain ⟨hb, he⟩ := not_or.mp hcon
    cases hl : t.chain with
    | nil =>
        rw [hl] at hcard
        exact he (Multiset.card_eq_zero.mp hcard.symm)
    | cons e rest =>
        -- the first call of the hash function throws
        have hthrown : t.rehash k primes (fun _ => true) newSize = .thrown { t with chain := [] } := by
          rw [Hashtable.rehash]
          rw [Hashtable.KeepsBuckets] at hb
          simp only [if_neg hb, hl, relink, if_true]
        have hsize := (h _ _ hthrown).contents
        exact he hsize.symm
  · rintro (hb | rfl) throws t' h
    · rw [Hashtable.rehash] at h
      rw [Hashtable.KeepsBuckets] at hb
      simp only [if_pos hb] at h
      cases h
    · rw [Hashtable.rehash] at h
      have hnil : t.chain = [] := List.eq_nil_of_length_eq_zero (by rw [hcard, Multiset.card_zero])
      simp only [hnil, relink] at h
      split at h <;> cases h

/-- A chained table with two numbers. -/
def twoNodes : Hashtable ℕ := ⟨[(1, 1), (2, 2)], [0, 1], 2, 1⟩

theorem twoNodes_holds : twoNodes.Holds {1, 2} := ⟨rfl, rfl⟩

/-- The elements that an exception leaves. -/
def left : Flat.Rehash V → Option (Multiset V)
  | .thrown t => some (Cells.contents t.slots.capacity t.slots.data)
  | _ => none

end NeForce.Chained
