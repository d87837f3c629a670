import NeForce.FlatRehash

/-! # Room in the arrays of the flat hash table

The elements of the arrays are a multiset (`Slots.elements`).  Where there are fewer elements and deleted slots than slots, there is
an empty slot (`exists_empty`), so that every search of the table ends before it is round: a shift carries an empty
slot to where it is needed (`shiftBack_hole`), every element gets a place in new arrays (`place_placed`), and a rehash
into arrays that are large enough keeps the elements (`moveAll_done`). -/

namespace NeForce.Flat

variable {K V : Type}

namespace Slots

variable (s : Slots V)

def elements : Multiset V := Cells.contents s.capacity s.data

/-- The number of slots marked as deleted. -/
def deletedCount : ℕ := ((Finset.range s.capacity).filter fun i => s.metadata i = htDeleted).card

/-- No slot is marked as deleted. -/
def Clean : Prop := ∀ i < s.capacity, s.metadata i ≠ htDeleted

/-- The only slot that may lack an object under its tag lacks it. -/
structure Hole (s : Slots V) (i : ℕ) : Prop extends s.ReadyBut i where
  lt : i < s.capacity
  none : s.data i = none

/-- Arrays with the same elements, and no slot newly marked. -/
structure Same (s s' : Slots V) : Prop where
  capacity : s'.capacity = s.capacity
  elements : s'.elements = s.elements
  deleted : ∀ i, s'.metadata i = htDeleted → s.metadata i = htDeleted

theorem Same.refl : Same s s := ⟨rfl, rfl, fun _ h => h⟩

end Slots

section

variable {s s₀ s' : Slots V} {k : Keying K V} {key : K} {i j e d h h2 n c pos : ℕ} {v : V}

theorem Slots.Same.trans (h₁ : s₀.Same s) (h₂ : s.Same s') : s₀.Same s' :=
  ⟨h₂.capacity.trans h₁.capacity, h₂.elements.trans h₁.elements, fun i hi => h₁.deleted i (h₂.deleted i hi)⟩

theorem deletedCount_le (hc : s'.capacity = s.capacity) (hd : ∀ i, s'.metadata i = htDeleted → s.metadata i = htDeleted) :
    s'.deletedCount ≤ s.deletedCount := by
  rw [Slots.deletedCount, Slots.deletedCount, hc]
  exact Finset.card_le_card (Finset.monotone_filter_right _ fun i _ => hd i)

theorem deletedCount_clean (hs : s.Clean) : s.deletedCount = 0 := by
  rw [Slots.deletedCount, Finset.card_eq_zero, Finset.filter_eq_empty_iff]
  intro i hi
  exact hs i (Finset.mem_range.mp hi)

/-- Fewer elements and deleted slots than slots leave an empty one. -/
theorem exists_empty (hs : s.WellFormed) (hroom : s.elements.card + s.deletedCount < s.capacity) :
    ∃ i < s.capacity, s.metadata i = htEmpty := by
  by_contra hcon
  push Not at hcon
  have hsub : Finset.range s.capacity ⊆
      ((Finset.range s.capacity).filter fun i => (s.data i).isSome) ∪
        (Finset.range s.capacity).filter fun i => s.metadata i = htDeleted := by
    intro i hi
    have hlt := Finset.mem_range.mp hi
    rw [Finset.mem_union, Finset.mem_filter, Finset.mem_filter]
    obtain h | h | h := hs.byte i hlt
    · exact Or.inl ⟨hi, by rw [hs.object i hlt, h]⟩
    · exact absurd h (hcon i hlt)
    · exact Or.inr ⟨hi, h⟩
  have hcard := (Finset.card_le_card hsub).trans (Finset.card_union_le _ _)
  rw [Finset.card_range, ← Cells.card_contents] at hcard
  rw [Slots.elements, Slots.deletedCount] at hroom
  omega

/-! ### Holes -/

/-- A slot without a tag has no object. -/
theorem Slots.Ready.hole (hs : s.Ready) (hi : i < s.capacity) (hm : isTaken (s.metadata i) = false) : s.Hole i where
  toReadyBut := hs.but i
  lt := hi
  none := by
    have := hs.object i hi
    rw [hm] at this
    exact Option.isSome_eq_false_iff.mp this |> Option.isNone_iff_eq_none.mp

theorem Slots.Hole.construct_elements (hs : s.Hole i) (v : V) (h2 : ℕ) : (s.construct i v h2).elements = v ::ₘ s.elements :=
  Cells.contents_write hs.lt hs.none

/-- A step of a shift moves the hole. -/
theorem Slots.Hole.move (hs : s.Hole i) (he : e < s.capacity) (hne : e ≠ i) : (s.move i e).Hole e where
  toReadyBut := hs.toReadyBut.move he hne
  lt := he
  none := by simp [Slots.move]

theorem Slots.Hole.move_same (hs : s.Hole i) (he : e < s.capacity) (hne : e ≠ i) (hm : s.metadata e ≠ htDeleted) :
    s.Same (s.move i e) where
  capacity := rfl
  elements := Cells.contents_move he hs.lt hne hs.none
  deleted := fun x hx => by
    rw [Slots.move] at hx
    rcases eq_or_ne x i with rfl | hxi
    · simp only [Function.update_self] at hx
      exact absurd hx hm
    · simpa [Function.update_of_ne hxi] using hx

/-- A shift carries the hole from distance `d` to its first slot. -/
theorem shiftBack_hole (h0 : s₀.Ready) (hpos : pos < s₀.capacity) (hd : d < s₀.capacity) (hn : d ≤ n)
    (hc : s.capacity = s₀.capacity) (hs : s.Hole (s₀.around pos d)) (hm : ∀ c < d, s.metadata (s₀.around pos c) ≠ htDeleted) :
    (Slots.shiftBack pos n s (s₀.around pos d)).Hole pos ∧ s.Same (Slots.shiftBack pos n s (s₀.around pos d)) := by
  have hzero : s₀.around pos 0 = pos := Nat.mod_eq_of_lt hpos
  induction n generalizing s d with
  | zero =>
      obtain rfl : d = 0 := by omega
      rw [hzero] at hs ⊢
      exact ⟨hs, Slots.Same.refl s⟩
  | succ n ih =>
      rw [Slots.shiftBack]
      split
      · rename_i he
        rw [he] at hs
        exact ⟨hs, Slots.Same.refl s⟩
      · rename_i hne
        cases d with
        | zero => exact absurd hzero hne
        | succ d =>
            rw [prev_congr hc, h0.prev_around]
            have hne' : s₀.around pos d ≠ s₀.around pos (d + 1) := fun e => by
              have := Slots.around_inj (by omega) hd e
              omega
            have hlt : s₀.around pos d < s.capacity := by
              rw [hc]
              exact h0.around_lt
            have hm' : ∀ c < d, (s.move (s₀.around pos (d + 1)) (s₀.around pos d)).metadata (s₀.around pos c) ≠ htDeleted := by
              intro c hcd
              have hne'' : s₀.around pos c ≠ s₀.around pos (d + 1) := fun e => by
                have := Slots.around_inj (by omega) hd e
                omega
              rw [Slots.move]
              simp only [Function.update_of_ne hne'']
              exact hm c (by omega)
            obtain ⟨h1, h2⟩ := ih (s := s.move _ _) (d := d) (by omega) (by omega) hc (hs.move hlt hne') hm'
            exact ⟨h1, (hs.move_same hlt hne' (hm d (by omega))).trans h2⟩

/-! ### Searches -/

/-- A search from distance `d` ends at the first slot whose byte satisfies the test, if there is one in reach. -/
theorem seek_spec (hs : s.Ready) {stop : ℕ → Bool} (hd : d < c) (hn : c ≤ d + n) (hc : stop (s.metadata (s.around h c)) = true) :
    ∃ m, d < m ∧ m ≤ c ∧ s.seek stop n (s.around h d) = s.around h m ∧ stop (s.metadata (s.around h m)) = true ∧
      ∀ x, d < x → x < m → stop (s.metadata (s.around h x)) = false := by
  induction n generalizing d with
  | zero => omega
  | succ n ih =>
      rw [Slots.seek, hs.wrap_around]
      split
      · rename_i hstop
        exact ⟨d + 1, by omega, by omega, rfl, hstop, fun x h1 h2 => by omega⟩
      · rename_i hstop
        have hne : c ≠ d + 1 := by
          rintro rfl
          exact hstop hc
        obtain ⟨m, h1, h2, h3, h4, h5⟩ := ih (d := d + 1) (by omega) (by omega)
        refine ⟨m, by omega, h2, h3, h4, fun x hx hxm => ?_⟩
        rcases Nat.eq_or_lt_of_le (Nat.succ_le_of_lt hx) with rfl | hlt
        · simpa using hstop
        · exact h5 x hlt hxm

/-- Room is made at a live slot: the arrays keep their elements. -/
theorem makeRoom (stop : ℕ → Bool) (hs : s.Ready) (hstop : ∀ m, isTaken m = true → stop m = false)
    (hfree : ∀ m, stop m = true → isTaken m = false) (hkeep : ∀ i < s.capacity, stop (s.metadata i) = false → s.metadata i ≠ htDeleted)
    (hi : i < s.capacity) (hl : isTaken (s.metadata i) = true) (hex : ∃ j < s.capacity, stop (s.metadata j) = true) :
    (Slots.shiftBack i s.capacity s (s.seek stop s.capacity i)).Hole i ∧
      s.Same (Slots.shiftBack i s.capacity s (s.seek stop s.capacity i)) := by
  obtain ⟨j, hj, hjs⟩ := hex
  obtain ⟨c, hc, rfl⟩ := Slots.exists_around hj hi
  have hzero : s.around i 0 = i := Nat.mod_eq_of_lt hi
  have hc0 : c ≠ 0 := by
    rintro rfl
    rw [hzero, hstop _ hl] at hjs
    cases hjs
  obtain ⟨m, h1, h2, h3, h4, h5⟩ := seek_spec (n := s.capacity) hs (Nat.pos_of_ne_zero hc0) (by omega) hjs
  rw [hzero] at h3
  rw [h3]
  refine shiftBack_hole hs hi (by omega) (by omega) rfl (hs.hole hs.around_lt (hfree _ h4)) fun x hx => ?_
  rcases Nat.eq_zero_or_pos x with rfl | hpos
  · rw [hzero]
    exact hkeep i hi (hstop _ hl)
  · exact hkeep _ hs.around_lt (h5 x hpos hx)

/-! ### Places -/

/-- What the comparison of `ifHit` leads to where nothing throws. -/
theorem ifHit_cases {α : Type} (hs : s.Ready) (hh : h2 < 128) (hi : i < s.capacity) (k : Keying K V) (key : K) (yes no : Calls α) (c : ℕ) :
    (isTaken (s.metadata i) = true ∧ ∃ c', ifHit k nothrow key h2 s i yes no c = yes c') ∨
      ∃ c', ifHit k nothrow key h2 s i yes no c = no c' := by
  rw [ifHit]
  split
  · rename_i hm
    have htaken : isTaken (s.metadata i) = true := by
      rw [hm]
      exact decide_eq_true hh
    have ho := hs.object i hi
    rw [htaken] at ho
    obtain ⟨w, hw⟩ := Option.isSome_iff_exists.mp ho
    rw [call, nothrow, if_neg Bool.false_ne_true, Slots.keyIs, hw, Option.map_some]
    cases k.equals (k.extracter w) key with
    | true => exact Or.inl ⟨htaken, c + 1, rfl⟩
    | false => exact Or.inr ⟨c + 1, rfl⟩
  · exact Or.inr ⟨c, rfl⟩

/-- The place of an element: a hole in arrays with the same elements. -/
def Placed (s : Slots V) (r : Slots V × ℕ) : Prop := r.1.Hole r.2 ∧ s.Same r.1

theorem placed_self (hs : s.Ready) (hi : i < s.capacity) (hm : s.metadata i = htEmpty) : Placed s (s, i) :=
  ⟨hs.hole hi (by rw [hm]; rfl), Slots.Same.refl s⟩

/-- Without deleted slots, a byte that is not `htEmpty` is a tag. -/
theorem taken_of_clean (hs : s.Ready) (hclean : s.Clean) (hi : i < s.capacity) (hm : s.metadata i ≠ htEmpty) :
    isTaken (s.metadata i) = true := by
  obtain h | h | h := hs.byte i hi
  · exact h
  · exact absurd h hm
  · exact absurd h (hclean i hi)

/-- No round of the arrays passes an empty slot. -/
theorem not_round (hh : h < s.capacity) (hex : ∃ j < s.capacity, s.metadata j = htEmpty) :
    ¬ ∀ c < s.capacity, s.metadata (s.around h c) ≠ htEmpty := by
  intro hne
  obtain ⟨j, hj, hm⟩ := hex
  obtain ⟨c, hc, rfl⟩ := Slots.exists_around hj hh
  exact hne c hc hm

theorem placeRun_placed (hs : s.Ready) (hclean : s.Clean) (hex : ∃ j < s.capacity, s.metadata j = htEmpty) (hh : h < s.capacity)
    (hh2 : h2 < 128) (hne : ∀ c ≤ d, s.metadata (s.around h c) ≠ htEmpty) (hn : d + 1 + n = s.capacity) (k : Keying K V) (key : K) (c : ℕ) :
    ∃ r c', placeRun k nothrow key h2 s n (s.around h d) c = .ok (r, c') ∧ Placed s r := by
  induction n generalizing d c with
  | zero => exact absurd (fun c hc => hne c (by omega)) (not_round hh hex)
  | succ n ih =>
      rw [placeRun, hs.wrap_around]
      split
      · rename_i hm
        exact ⟨_, c, rfl, placed_self hs hs.around_lt hm⟩
      · rename_i hm
        have htaken := taken_of_clean hs hclean hs.around_lt hm
        obtain ⟨_, c', e⟩ | ⟨c', e⟩ := ifHit_cases (i := s.around h (d + 1)) hs hh2 hs.around_lt k key
          (placeRun k nothrow key h2 s n (s.around h (d + 1)))
          (fun c => .ok ((Slots.shiftBack (s.around h (d + 1)) s.capacity s (s.seek (· = htEmpty) s.capacity (s.around h (d + 1))),
            s.around h (d + 1)), c)) c
        · rw [e]
          refine ih (fun x hx => ?_) (by omega) c'
          rcases Nat.eq_or_lt_of_le hx with rfl | hlt
          · exact hm
          · exact hne x (by omega)
        · rw [e]
          refine ⟨_, c', rfl, ?_⟩
          refine makeRoom _ hs (fun m hm' => ?_) (fun m hm' => ?_) (fun j hj _ => hclean j hj) hs.around_lt htaken ?_
          · rw [decide_eq_false_iff_not]
            rintro rfl
            cases hm'
          · rw [of_decide_eq_true hm']
            rfl
          · obtain ⟨j, hj, hm'⟩ := hex
            exact ⟨j, hj, decide_eq_true hm'⟩

theorem place_placed (hs : s.Ready) (hclean : s.Clean) (hex : ∃ j < s.capacity, s.metadata j = htEmpty) (hh : h < s.capacity)
    (hh2 : h2 < 128) (hne : ∀ c < d, s.metadata (s.around h c) ≠ htEmpty) (hn : d + n = s.capacity) (k : Keying K V) (key : K) (c : ℕ) :
    ∃ r c', place k nothrow key h2 s n (s.around h d) c = .ok (r, c') ∧ Placed s r := by
  induction n generalizing d c with
  | zero => exact absurd (fun c hc => hne c (by omega)) (not_round hh hex)
  | succ n ih =>
      rw [place, hs.wrap_around]
      split
      · rename_i hm
        exact ⟨_, c, rfl, placed_self hs hs.around_lt hm⟩
      · rename_i hm
        have hne' : ∀ c ≤ d, s.metadata (s.around h c) ≠ htEmpty := fun x hx => by
          rcases Nat.eq_or_lt_of_le hx with rfl | hlt
          · exact hm
          · exact hne x hlt
        obtain ⟨_, c', e⟩ | ⟨c', e⟩ := ifHit_cases (i := s.around h d) hs hh2 hs.around_lt k key
          (placeRun k nothrow key h2 s n (s.around h d)) (place k nothrow key h2 s n (s.around h (d + 1))) c
        · rw [e]
          exact placeRun_placed hs hclean hex hh hh2 hne' (by omega) k key c'
        · rw [e]
          exact ih (fun x hx => hne' x (by omega)) (by omega) c'

end

/-! ### Moving all elements -/

section

variable {old new s : Slots V} {k : Keying K V} {i n c : ℕ} {v : V}

/-- The elements of `n` slots from slot `i` on. -/
def Slots.rest (s : Slots V) (i n : ℕ) : List V := (List.range' i n).filterMap s.data

theorem rest_all : (s.rest 0 s.capacity : Multiset V) = s.elements := by
  rw [Slots.rest, Slots.elements, Cells.contents, ← List.range_eq_range', ← Multiset.filterMap_coe]
  rfl

theorem rest_of_none (h : s.data i = none) : s.rest i (n + 1) = s.rest (i + 1) n := by
  rw [Slots.rest, List.range'_succ, List.filterMap_cons_none h, Slots.rest]

theorem rest_of_some (h : s.data i = some v) : s.rest i (n + 1) = v :: s.rest (i + 1) n := by
  rw [Slots.rest, List.range'_succ, List.filterMap_cons_some h, Slots.rest]

theorem rest_movedAway (w : V) : (s.movedAway i w).rest (i + 1) n = s.rest (i + 1) n := by
  refine List.filterMap_congr fun x hx => ?_
  have := (List.mem_range'_1.mp hx).1
  exact Function.update_of_ne (by omega) _ _

theorem clean_construct (hs : s.Clean) (v : V) {h2 : ℕ} (hh : h2 < 128) : (s.construct i v h2).Clean := by
  intro x hx
  rw [Slots.construct]
  rcases eq_or_ne x i with rfl | hne
  · simp only [Function.update_self, htDeleted]
    omega
  · simp only [Function.update_of_ne hne]
    exact hs x hx

/-- A new element gets its place where there is an empty slot. -/
theorem placeElement_placed (hs : s.Ready) (hclean : s.Clean) (hex : ∃ j < s.capacity, s.metadata j = htEmpty) (k : Keying K V)
    (key : K) (c : ℕ) : ∃ r c', placeElement k nothrow key s c = .ok (r, c') ∧ Placed s r := by
  have hhome : s.hashToIndex (k.mixedHash key) < s.capacity := hs.wrap_lt _
  rw [placeElement, call, nothrow, if_neg Bool.false_ne_true, around_home hs]
  exact place_placed hs hclean hex hhome (hashToH2_lt _) (fun x hx => absurd hx (Nat.not_lt_zero x)) (Nat.zero_add _) k key (c + 1)

/-- **Arrays that are large enough get all elements.** -/
theorem moveAll_done (hold : old.WellFormed) (hi : i + n = old.capacity) (hnew : new.Ready) (hclean : new.Clean)
    (hroom : new.elements.card + (old.rest i n).length ≤ new.capacity) (k : Keying K V) (c : ℕ) :
    ∃ old' new', moveAll k id nothrow n i old new c = .done old' new' ∧ new'.Ready ∧ new'.Clean ∧ new'.capacity = new.capacity ∧
      new'.elements = new.elements + old.rest i n := by
  induction n generalizing i old new c with
  | zero => exact ⟨old, new, rfl, hnew, hclean, rfl, by simp [Slots.rest]⟩
  | succ n ih =>
      have hlt : i < old.capacity := by omega
      have ho := hold.object i hlt
      rw [moveAll]
      cases ht : isTaken (old.metadata i) with
      | false =>
          rw [ht, Option.isSome_eq_false_iff, Option.isNone_iff_eq_none] at ho
          rw [if_neg]
          · rw [rest_of_none ho] at hroom ⊢
            exact ih hold (by omega) hnew hclean hroom c
          · rw [taken_iff hold hlt, ht]
            exact Bool.false_ne_true
      | true =>
          rw [ht] at ho
          obtain ⟨v, hv⟩ := Option.isSome_iff_exists.mp ho
          rw [rest_of_some hv, List.length_cons] at hroom
          have hex := exists_empty hnew.toWellFormed (by rw [deletedCount_clean hclean]; omega)
          obtain ⟨⟨s, idx⟩, c', hok, hhole, hsame⟩ := placeElement_placed hnew hclean hex k (k.extracter v) c
          have hclean' : s.Clean := fun x hx hd => hclean x (hsame.capacity ▸ hx) (hsame.deleted x hd)
          have helem := hhole.construct_elements v (hashToH2 (k.mixedHash (k.extracter v)))
          rw [hsame.elements] at helem
          rw [if_pos ((taken_iff hold hlt).mpr ht), hv]
          simp only [hok]
          have hcap : i + 1 + n = (old.movedAway i v).capacity := by
            show i + 1 + n = old.capacity
            omega
          have hroom' : (s.construct idx v (hashToH2 (k.mixedHash (k.extracter v)))).elements.card +
              ((old.movedAway i v).rest (i + 1) n).length ≤ (s.construct idx v (hashToH2 (k.mixedHash (k.extracter v)))).capacity := by
            rw [helem, rest_movedAway, Multiset.card_cons]
            show _ ≤ s.capacity
            rw [hsame.capacity]
            omega
          obtain ⟨old', new', e, h1, h2, h3, h4⟩ := ih (hold.movedAway hv v) hcap
            (hhole.toReadyBut.construct (v := v) (hashToH2_lt (k.mixedHash (k.extracter v))))
            (clean_construct hclean' v (hashToH2_lt _)) hroom' c'
          refine ⟨old', new', e, h1, h2, h3.trans hsame.capacity, ?_⟩
          rw [h4, helem, rest_movedAway, rest_of_some hv, ← Multiset.cons_coe, Multiset.cons_add, Multiset.add_cons]

end

end NeForce.Flat
