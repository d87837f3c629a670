import NeForce.BitmapEdits
import NeForce.Runs
import Mathlib.Data.List.GetD

/-! # The bit array refines a list of booleans

Each loop that writes bits changes a stretch of the row of bits and nothing else (`Written`), also where it copies
within the row.  An insertion opens a gap in place or builds a new block (`openGap_ok`, `reallocate_ok`), a removal closes one,
and so every edit does to the bits below the size what the operation on lists does (`edit_refines`), whatever stands behind
them. -/

namespace NeForce.Bitmap

variable {b b' t : Bitmap} {i j n p q r : ℕ} {v : Bool} {f : ℕ → Bool} {l mid : List Bool} {ok : Failure → Prop}
  {alloc : UInt64 → Bool}

/-! ### Stretches of bits -/

/-- Only the `n` bits from `r` on are changed, to those that `f` tells. -/
structure Written (b : Bitmap) (r n : ℕ) (f : ℕ → Bool) (b' : Bitmap) : Prop where
  words : b'.words.length = b.words.length
  finish : b'.finish = b.finish
  bit : ∀ j, b'.bit j = if r ≤ j ∧ j < r + n then f j else b.bit j

theorem Written.refl (b : Bitmap) (r : ℕ) (f : ℕ → Bool) : Written b r 0 f b :=
  ⟨rfl, rfl, fun j => (if_neg (by omega)).symm⟩

/-- One bit more at the end of a stretch. -/
theorem Written.snoc (h : Written b r n f t) (h' : Written t (r + n) 1 f b') : Written b r (n + 1) f b' := by
  refine ⟨h'.words.trans h.words, h'.finish.trans h.finish, fun j => ?_⟩
  rw [h'.bit, h.bit]
  rcases Nat.lt_trichotomy j (r + n) with hj | hj | hj
  · rw [if_neg (by omega)]
    exact if_congr (by omega) rfl rfl
  · rw [if_pos (by omega), if_pos (by omega)]
  · rw [if_neg (by omega), if_neg (by omega), if_neg (by omega)]

/-- One bit more in front of a stretch. -/
theorem Written.cons (h : Written b (r + 1) n f t) (h' : Written t r 1 f b') : Written b r (n + 1) f b' := by
  refine ⟨h'.words.trans h.words, h'.finish.trans h.finish, fun j => ?_⟩
  rw [h'.bit, h.bit]
  rcases Nat.lt_trichotomy j r with hj | hj | hj
  · rw [if_neg (by omega), if_neg (by omega), if_neg (by omega)]
  · rw [if_pos (by omega), if_pos (by omega)]
  · rw [if_neg (by omega)]
    exact if_congr (by omega) rfl rfl

theorem readAt_in (hi : i < 32 * b.words.length) : b.readAt i = .ok (b.bit i) := by
  have hx := List.getElem?_eq_getElem (show i / 32 < b.words.length by omega)
  rw [readAt, if_neg (by omega), Int.toNat_natCast, hx]
  dsimp only
  rw [BitRow.and_one_shiftLeft (Nat.mod_lt _ (by decide)), bit, BitRow.bitAt_eq hx]

theorem writeAt_in (hi : i < 32 * b.words.length) (ok : Failure → Prop) (hf : f i = v) :
    Ensures ok (b.writeAt i v) (Written b i 1 f) := by
  have hx := List.getElem?_eq_getElem (show i / 32 < b.words.length by omega)
  have hne : ¬ (b.words = [] ∧ i / 32 = 0) := fun h => by
    rw [h.1, List.length_nil] at hi
    omega
  rw [writeAt, if_neg (by omega), Int.toNat_natCast, if_neg hne, hx]
  refine ⟨List.length_set, rfl, fun j => ?_⟩
  show BitRow.bitAt _ j = _
  rw [BitRow.bitAt_set (by decide) hx]
  by_cases hj : j = i
  · rw [if_pos hj, if_pos (by omega), hj, hf]
  · rw [if_neg hj, if_neg (by omega)]
    rfl

/-- A loop that writes one bit after the other. -/
theorem writes_ok {body : ℕ → Bitmap → Except Failure Bitmap}
    (h : ∀ i < n, ∀ t, Written b r i f t → Ensures ok (body i t) (Written t (r + i) 1 f)) :
    Ensures ok (forLoop n body b) (Written b r n f) :=
  Ensures.forLoop (P := fun i t => Written b r i f t) (Written.refl b r f)
    fun i hi t ht => (h i hi t ht).mono fun _ ht' => ht.snoc ht'

theorem bitCopyFrom_ok (src b : Bitmap) (hsrc : p + n ≤ 32 * src.words.length) (hb : r + n ≤ 32 * b.words.length) (ok : Failure → Prop) :
    Ensures ok (bitCopyFrom src p n r b) (Written b r n fun j => src.bit (p + (j - r))) := by
  refine writes_ok fun i hi t ht => ?_
  rw [← Nat.cast_add, ← Nat.cast_add, readAt_in (by omega)]
  exact writeAt_in (by rw [ht.words]; omega) ok (by rw [Nat.add_sub_cancel_left])

/-- Forwards within the row, the bits ahead are still there. -/
theorem bitCopy_ok (hrp : r ≤ p) (hb : p + n ≤ 32 * b.words.length) (ok : Failure → Prop) :
    Ensures ok (bitCopy p n r b) (Written b r n fun j => b.bit (p + (j - r))) := by
  refine writes_ok fun i hi t ht => ?_
  have hlen := ht.words
  rw [← Nat.cast_add, ← Nat.cast_add, readAt_in (by omega), ht.bit, if_neg (by omega)]
  exact writeAt_in (by omega) ok (by rw [Nat.add_sub_cancel_left])

/-- Backwards within the row, the bits behind are still there. -/
theorem bitCopyBackward_ok (hnq : n ≤ q) (hqr : q ≤ r) (hb : r ≤ 32 * b.words.length) (ok : Failure → Prop) :
    Ensures ok (bitCopyBackward q n r b) (Written b (r - n) n fun j => b.bit (j - (r - q))) := by
  refine Ensures.forLoop (P := fun i t => Written b (r - i) i (fun j => b.bit (j - (r - q))) t) (Written.refl b _ _)
    fun i hi t ht => ?_
  have hlen := ht.words
  have hq : (q : ℤ) - 1 - i = (q - 1 - i : ℕ) := by omega
  have hr : (r : ℤ) - 1 - i = (r - 1 - i : ℕ) := by omega
  have hstart : r - i = r - 1 - i + 1 := by omega
  rw [hq, hr, readAt_in (by omega), ht.bit, if_neg (by omega), show r - (i + 1) = r - 1 - i by omega]
  rw [hstart] at ht
  exact (writeAt_in (by omega) ok (by rw [show r - 1 - i - (r - q) = q - 1 - i by omega])).mono fun _ ht' => ht.cons ht'

theorem bitCopyRange_ok (hb : r + l.length ≤ 32 * b.words.length) (ok : Failure → Prop) :
    Ensures ok (bitCopyRange l r b) (Written b r l.length fun j => l.getD (j - r) false) := by
  refine writes_ok fun i hi t ht => ?_
  rw [← Nat.cast_add]
  exact writeAt_in (by rw [ht.words]; omega) ok (by rw [Nat.add_sub_cancel_left])

theorem fillN_ok (hb : r + n ≤ 32 * b.words.length) (ok : Failure → Prop) :
    Ensures ok (fillN r n v b) (Written b r n fun j => (List.replicate n v).getD (j - r) false) := by
  refine writes_ok fun i hi t ht => ?_
  rw [← Nat.cast_add]
  refine writeAt_in (by rw [ht.words]; omega) ok ?_
  rw [Nat.add_sub_cancel_left, List.getD_eq_getElem _ _ (by simpa using hi), List.getElem_replicate]

/-! ### Lists -/

theorem length_insert (hp : p ≤ l.length) (mid : List Bool) : (l.take p ++ mid ++ l.drop p).length = l.length + mid.length := by
  simp only [List.length_append, List.length_take, List.length_drop]
  omega

theorem getD_insert (hp : p ≤ l.length) (i : ℕ) : (l.take p ++ mid ++ l.drop p).getD i false =
    if i < p then l.getD i false else if i < p + mid.length then mid.getD (i - p) false else l.getD (i - mid.length) false := by
  simp only [List.getD_eq_getElem?_getD, List.getElem?_append, List.length_append, List.length_take, Nat.min_eq_left hp,
    List.getElem?_take, List.getElem?_drop]
  split
  · split
    · rfl
    · rfl
  · rw [if_neg (by omega)]
    congr 2
    omega

theorem getD_erase (hp : p ≤ l.length) (i : ℕ) : (l.take p ++ l.drop q).getD i false =
    if i < p then l.getD i false else l.getD (q + (i - p)) false := by
  simp only [List.getD_eq_getElem?_getD, List.getElem?_append, List.length_take, Nat.min_eq_left hp, List.getElem?_take,
    List.getElem?_drop]
  split <;> rfl

/-! ### Refinement -/

/-- The bits below the size are the list. -/
structure Refines (b : Bitmap) (l : List Bool) : Prop where
  finish : b.finish = l.length
  room : l.length ≤ 32 * b.words.length
  words : b.words.length ≤ 2 ^ 58
  small : l.length < 2 ^ 63
  bit : ∀ i < l.length, b.bit i = l.getD i false

theorem Refines.toNat_size (hb : Refines b l) : b.size.toNat = l.length := by
  have hs := hb.small
  rw [size, hb.finish, UInt64.ofInt, Int.emod_eq_of_lt (by omega) (by omega), Int.toNat_natCast]
  exact Nat.mod_eq_of_lt (by omega)

theorem Refines.toNat_capacity (hb : Refines b l) : b.capacity.toNat = 32 * b.words.length := by
  have hw := hb.words
  rw [capacity, UInt64.toNat_mul, UInt64.toNat_ofNat', show (32 : UInt64).toNat = 32 from rfl,
    Nat.mod_eq_of_lt (show b.words.length < 2 ^ 64 by omega), Nat.mod_eq_of_lt (by omega), Nat.mul_comm]

/-- The bits from a position to the end. -/
theorem Refines.count (hb : Refines b l) (q : ℕ) : (b.finish - q).toNat = l.length - q := by
  rw [hb.finish]
  omega

theorem Refines.atEnd_iff (hb : Refines b l) : b.atEnd = true ↔ l.length = 32 * b.words.length := by
  have hr := hb.room
  rw [atEnd, decide_eq_true_eq, hb.finish]
  omega

theorem allocate_ok (alloc : UInt64 → Bool) (w : UInt64) :
    Ensures (· = .allocateException) (allocate alloc w) fun ws => ws.length = w.toNat := by
  rw [allocate]
  split
  · rename_i h
    rw [h]
    rfl
  · split
    · exact List.length_replicate
    · rfl

/-- An insertion in place: the bits behind the position move on, and `write` fills the gap. -/
theorem openGap_ok (mid : List Bool) (write : Bitmap → Except Failure Bitmap) (ok : Failure → Prop) (hb : Refines b l)
    (hp : p ≤ l.length) (hfit : l.length + mid.length ≤ 32 * b.words.length)
    (hsmall : l.length + mid.length < 2 ^ 63) (hwrite : ∀ t : Bitmap, t.words.length = b.words.length →
      Ensures ok (write t) (Written t p mid.length fun j => mid.getD (j - p) false)) :
    Ensures ok (do
      let t ← bitCopyBackward b.finish (b.finish - p).toNat (b.finish + mid.length) b
      let t ← write t
      .ok { t with finish := t.finish + mid.length }) (Refines · (l.take p ++ mid ++ l.drop p)) := by
  have hlen := length_insert hp mid
  rw [hb.count p, hb.finish, ← Nat.cast_add]
  refine (bitCopyBackward_ok (by omega) (by omega) hfit ok).bind fun t ht => ?_
  refine (hwrite t ht.words).bind fun t' ht' => ?_
  refine ⟨?_, ?_, ?_, ?_, fun i hi => ?_⟩
  · show t'.finish + mid.length = _
    rw [ht'.finish, ht.finish, hb.finish, hlen, Nat.cast_add]
  · show _ ≤ 32 * t'.words.length
    rw [ht'.words, ht.words, hlen]
    exact hfit
  · show t'.words.length ≤ _
    rw [ht'.words, ht.words]
    exact hb.words
  · rw [hlen]
    exact hsmall
  · rw [hlen] at hi
    show t'.bit i = _
    rw [ht'.bit, ht.bit, getD_insert hp]
    rcases Nat.lt_or_ge i p with h1 | h1
    · rw [if_neg (by omega), if_neg (by omega), if_pos h1, hb.bit i (by omega)]
    · rw [if_neg (by omega : ¬ i < p)]
      rcases Nat.lt_or_ge i (p + mid.length) with h2 | h2
      · rw [if_pos ⟨h1, h2⟩, if_pos h2]
      · rw [if_neg (by omega), if_pos (by omega), if_neg (by omega), hb.bit _ (by omega)]
        congr 1
        omega

/-- An insertion into a new block. -/
theorem reallocate_ok (alloc : UInt64 → Bool) (mid : List Bool) (write : Bitmap → Except Failure Bitmap) (hb : Refines b l)
    (hp : p ≤ l.length) {extra : UInt64} (hextra : extra.toNat = mid.length)
    (hsmall : l.length + mid.length < 2 ^ 63) (hwrite : ∀ t : Bitmap, p + mid.length ≤ 32 * t.words.length →
      Ensures (· = .allocateException) (write t) (Written t p mid.length fun j => mid.getD (j - p) false)) :
    Ensures (· = .allocateException) (b.reallocate alloc p extra mid.length write) (Refines · (l.take p ++ mid ++ l.drop p)) := by
  have hlen := length_insert hp mid
  have htotal : (b.size + extra).toNat = l.length + mid.length := by
    rw [UInt64.toNat_add, hb.toNat_size, hextra, Nat.mod_eq_of_lt (by omega)]
  have hroom := hb.room
  rw [reallocate, hb.count p, Int.toNat_natCast]
  refine (allocate_ok alloc _).bind fun ws hws => ?_
  rw [toNat_wordCount (by omega), htotal] at hws
  have hfrom := bitCopyFrom_ok b ⟨ws, 0⟩ (p := 0) (r := 0) (n := p) (by omega)
    (show 0 + p ≤ 32 * ws.length by omega) (· = .allocateException)
  refine hfrom.bind fun t₁ h₁ => ?_
  have hw₁ : t₁.words.length = ws.length := h₁.words
  refine (hwrite t₁ (by omega)).bind fun t₂ h₂ => ?_
  have hw₂ : t₂.words.length = ws.length := h₂.words.trans hw₁
  rw [← Nat.cast_add]
  refine (bitCopyFrom_ok b t₂ (by omega) (by omega) _).bind fun t₃ h₃ => ?_
  have hw₃ : t₃.words.length = ws.length := h₃.words.trans hw₂
  refine ⟨?_, ?_, ?_, ?_, fun i hi => ?_⟩
  · show ((p + mid.length : ℕ) : ℤ) + (l.length - p : ℕ) = _
    rw [hlen]
    omega
  · show _ ≤ 32 * t₃.words.length
    rw [hlen, hw₃]
    omega
  · show t₃.words.length ≤ _
    rw [hw₃]
    omega
  · rw [hlen]
    exact hsmall
  · rw [hlen] at hi
    show t₃.bit i = _
    rw [h₃.bit, h₂.bit, h₁.bit, getD_insert hp]
    rcases Nat.lt_or_ge i p with hlt | hge
    · rw [if_neg (by omega), if_neg (by omega), if_pos (by omega), if_pos hlt, ← hb.bit i (by omega)]
      congr 1
      omega
    · rw [if_neg (by omega : ¬ i < p)]
      rcases Nat.lt_or_ge i (p + mid.length) with h2 | h2
      · rw [if_neg (by omega), if_pos ⟨hge, h2⟩, if_pos h2]
      · rw [if_pos (by omega), if_neg (by omega : ¬ i < p + mid.length), ← hb.bit _ (by omega)]
        congr 1
        omega

/-- A removal closes the gap. -/
theorem closeGap (hb : Refines b l) (hpq : p ≤ q) (hq : q ≤ l.length)
    (hbit : ∀ j, t.bit j = if p ≤ j ∧ j < p + (l.length - q) then b.bit (q + (j - p)) else b.bit j)
    (hwords : t.words.length = b.words.length) (hfin : t.finish = (p + (l.length - q) : ℕ)) : Refines t (l.take p ++ l.drop q) := by
  have hlen : (l.take p ++ l.drop q).length = p + (l.length - q) := by
    simp only [List.length_append, List.length_take, List.length_drop]
    omega
  have hroom := hb.room
  have hsmall := hb.small
  refine ⟨?_, ?_, ?_, ?_, fun i hi => ?_⟩
  · rw [hfin, hlen]
  · rw [hlen, hwords]
    omega
  · rw [hwords]
    exact hb.words
  · rw [hlen]
    omega
  · rw [hlen] at hi
    rw [hbit, getD_erase (hpq.trans hq)]
    rcases Nat.lt_or_ge i p with hlt | hge
    · rw [if_neg (by omega), if_pos hlt, hb.bit i (by omega)]
    · rw [if_pos ⟨hge, hi⟩, if_neg (by omega), hb.bit _ (by omega)]

/-! ### The edits -/

theorem append_ok (hb : Refines b l) (hend : b.atEnd = false) (hsmall : l.length + 1 < 2 ^ 63) (ok : Failure → Prop) :
    Ensures ok (b.append v) (Refines · (l ++ [v])) := by
  have hroom := hb.room
  have hne : l.length ≠ 32 * b.words.length := fun h => by
    rw [hb.atEnd_iff.mpr h] at hend
    cases hend
  rw [append, hb.finish]
  refine (writeAt_in (f := fun _ => v) (by omega) ok rfl).bind fun t ht => ?_
  have hlen : (l ++ [v]).length = l.length + 1 := List.length_append
  refine ⟨?_, ?_, ?_, ?_, fun i hi => ?_⟩
  · show t.finish + 1 = _
    rw [ht.finish, hb.finish, hlen]
    rfl
  · show _ ≤ 32 * t.words.length
    rw [ht.words, hlen]
    omega
  · show t.words.length ≤ _
    rw [ht.words]
    exact hb.words
  · rw [hlen]
    exact hsmall
  · rw [hlen] at hi
    show t.bit i = _
    rw [ht.bit]
    rcases Nat.lt_or_ge i l.length with hlt | hge
    · rw [if_neg (by omega), List.getD_append _ _ _ _ hlt, hb.bit i hlt]
    · obtain rfl : i = l.length := by omega
      rw [if_pos ⟨le_rfl, by omega⟩, List.getD_append_right _ _ _ _ le_rfl, Nat.sub_self]
      rfl

theorem toNat_one : (1 : UInt64).toNat = 1 := rfl

theorem insertAux_ok (alloc : UInt64 → Bool) (v : Bool) (hb : Refines b l) (hp : p ≤ l.length) (hsmall : l.length + 1 < 2 ^ 63) :
    Ensures (· = .allocateException) (b.insertAux alloc p v) (Refines · (l.take p ++ [v] ++ l.drop p)) := by
  have hroom := hb.room
  rw [insertAux]
  cases hend : b.atEnd with
  | false =>
      have hne : l.length ≠ 32 * b.words.length := fun h => by
        rw [hb.atEnd_iff.mpr h] at hend
        cases hend
      refine openGap_ok [v] (fun t => t.writeAt p v) _ hb hp (by rw [List.length_singleton]; omega) hsmall fun t ht => ?_
      exact writeAt_in (by omega) _ (by rw [Nat.sub_self]; rfl)
  | true =>
      refine reallocate_ok alloc [v] (fillN p 1 v) hb hp toNat_one hsmall fun t ht => ?_
      have h := fillN_ok (v := v) (r := p) (n := 1) (b := t) ht (· = .allocateException)
      exact h

theorem pushBack_ok (hb : Refines b l) (hsmall : l.length + 1 < 2 ^ 63) :
    Ensures (· = .allocateException) (b.pushBack alloc v) (Refines · (l ++ [v])) := by
  rw [pushBack]
  cases hend : b.atEnd with
  | false => exact append_ok hb hend hsmall _
  | true =>
      have h := insertAux_ok alloc v hb le_rfl hsmall
      rw [List.take_length, List.drop_length, List.append_nil, ← hb.finish] at h
      exact h

theorem insert_ok (hb : Refines b l) (hp : p ≤ l.length) (hsmall : l.length + 1 < 2 ^ 63) :
    Ensures (· = .allocateException) (b.insert alloc p v) fun r => Refines r.1 (l.take p ++ [v] ++ l.drop p) ∧ r.2 = p := by
  rw [insert]
  split
  · rename_i h
    obtain ⟨hend, hpos⟩ := h
    rw [hb.finish, Nat.cast_inj] at hpos
    have happend := append_ok (v := v) hb (by simpa using hend) hsmall (· = .allocateException)
    refine happend.bind fun t ht => ⟨?_, rfl⟩
    rw [hpos, List.take_length, List.drop_length, List.append_nil]
    exact ht
  · exact (insertAux_ok alloc v hb hp hsmall).bind fun t ht => ⟨ht, rfl⟩

theorem insertN_ok (alloc : UInt64 → Bool) (n : UInt64) (v : Bool) (hb : Refines b l) (hp : p ≤ l.length)
    (hsmall : l.length + n.toNat < 2 ^ 63) :
    Ensures (· = .allocateException) (b.insertN alloc p n v) (Refines · (l.take p ++ List.replicate n.toNat v ++ l.drop p)) := by
  have hroom := hb.room
  have hlen : (List.replicate n.toNat v).length = n.toNat := List.length_replicate
  have hdiff : difference n = n.toNat := difference_of_lt (by omega)
  rw [insertN]
  split
  · rename_i h
    rw [h]
    show Refines b (l.take p ++ [] ++ l.drop p)
    rw [List.append_nil, List.take_append_drop]
    exact hb
  · split
    · rename_i hfit
      have hle : b.size ≤ b.capacity := by
        rw [UInt64.le_iff_toNat_le, hb.toNat_size, hb.toNat_capacity]
        exact hroom
      rw [ge_iff_le, UInt64.le_iff_toNat_le, UInt64.toNat_sub_of_le _ _ hle, hb.toNat_size, hb.toNat_capacity] at hfit
      have h := openGap_ok (List.replicate n.toNat v) (fillN p n.toNat v) (· = .allocateException) hb hp
        (by omega) (by omega) fun t ht => by
          rw [hlen]
          exact fillN_ok (by omega) _
      rw [hdiff, Int.toNat_natCast]
      rwa [hlen] at h
    · have h := reallocate_ok alloc (List.replicate n.toNat v) (fillN p n.toNat v) hb hp hlen.symm
        (by omega) fun t ht => by
          rw [hlen]
          exact fillN_ok (by omega) _
      rw [reallocateInsert, hdiff, Int.toNat_natCast]
      rwa [hlen] at h

theorem insertRange_ok (hb : Refines b l) (hp : p ≤ l.length) (hsmall : l.length + mid.length < 2 ^ 63) :
    Ensures (· = .allocateException) (b.insertRange alloc p mid) (Refines · (l.take p ++ mid ++ l.drop p)) := by
  have hroom := hb.room
  have hto : (UInt64.ofNat mid.length).toNat = mid.length := Nat.mod_eq_of_lt (by omega)
  rw [insertRange]
  split
  · rename_i h
    rw [h, List.append_nil, List.take_append_drop]
    exact hb
  · split
    · rename_i hfit
      have hle : b.size ≤ b.capacity := by
        rw [UInt64.le_iff_toNat_le, hb.toNat_size, hb.toNat_capacity]
        exact hroom
      rw [ge_iff_le, UInt64.le_iff_toNat_le, UInt64.toNat_sub_of_le _ _ hle, hb.toNat_size, hb.toNat_capacity, hto] at hfit
      exact openGap_ok mid _ _ hb hp (by omega) hsmall fun t ht => bitCopyRange_ok (by omega) _
    · exact reallocate_ok alloc mid _ hb hp hto hsmall fun t ht => bitCopyRange_ok ht _

theorem eraseRange_ok (hb : Refines b l) (hpq : p ≤ q) (hq : q ≤ l.length) (ok : Failure → Prop) :
    Ensures ok (b.eraseRange p q) fun r => Refines r.1 (l.take p ++ l.drop q) ∧ r.2 = p := by
  have hroom := hb.room
  rw [eraseRange, hb.count q]
  refine (bitCopy_ok hpq (by omega) ok).bind fun t ht => ⟨closeGap hb hpq hq ht.bit ht.words ?_, rfl⟩
  show (p : ℤ) + _ = _
  omega

theorem erase_ok (hb : Refines b l) (hp : p < l.length) (ok : Failure → Prop) :
    Ensures ok (b.erase p) fun r => Refines r.1 (l.take p ++ l.drop (p + 1)) ∧ r.2 = p := by
  have hroom := hb.room
  rw [erase, ← Nat.cast_succ, hb.count (p + 1)]
  have hclose : ∀ t, Written b p (l.length - (p + 1)) (fun j => b.bit (p + 1 + (j - p))) t →
      Refines { t with finish := t.finish - 1 } (l.take p ++ l.drop (p + 1)) := fun t ht => by
    refine closeGap hb (Nat.le_succ p) hp ht.bit ht.words ?_
    show t.finish - 1 = _
    rw [ht.finish, hb.finish]
    omega
  split
  · exact (bitCopy_ok (p := p + 1) (Nat.le_succ p) (by omega) ok).bind fun t ht => ⟨hclose t ht, rfl⟩
  · rename_i h
    rw [hb.finish] at h
    refine ⟨hclose b ?_, rfl⟩
    rw [show l.length - (p + 1) = 0 by omega]
    exact Written.refl b p _

theorem popBack_ok (hb : Refines b l) (hne : l ≠ []) : Refines b.popBack l.dropLast := by
  have hroom := hb.room
  have hsmall := hb.small
  have hpos := List.length_pos_iff.mpr hne
  have hlen : l.dropLast.length = l.length - 1 := List.length_dropLast
  refine ⟨?_, ?_, hb.words, by omega, fun i hi => ?_⟩
  · show b.finish - 1 = _
    rw [hb.finish]
    omega
  · show _ ≤ 32 * b.words.length
    omega
  · show b.bit i = _
    rw [hb.bit i (by omega), List.getD_eq_getElem?_getD, List.getD_eq_getElem?_getD, List.getElem?_dropLast, if_pos (by omega)]

theorem resize_ok (hb : Refines b l) {n : UInt64} (hsmall : n.toNat < 2 ^ 63) :
    Ensures (· = .allocateException) (b.resize alloc n v) (Refines · (l.take n.toNat ++ List.replicate (n.toNat - l.length) v)) := by
  rw [resize]
  split
  · rename_i h
    rw [UInt64.lt_iff_toNat_lt, hb.toNat_size] at h
    have he := eraseRange_ok hb h.le le_rfl (· = .allocateException)
    rw [difference_of_lt hsmall, hb.finish]
    rw [show n.toNat - l.length = 0 by omega, List.replicate_zero, List.append_nil]
    obtain ⟨r, e, hr, _⟩ | ⟨f, e, hf⟩ := he.cases
    · rw [e]
      rw [List.drop_length, List.append_nil] at hr
      exact hr
    · rw [e]
      exact hf
  · rename_i h
    rw [UInt64.lt_iff_toNat_lt, hb.toNat_size, Nat.not_lt] at h
    have hle : b.size ≤ n := by
      rw [UInt64.le_iff_toNat_le, hb.toNat_size]
      exact h
    have hdiff : (n - b.size).toNat = n.toNat - l.length := by rw [UInt64.toNat_sub_of_le _ _ hle, hb.toNat_size]
    have hi := insertN_ok alloc (n - b.size) v hb le_rfl (by omega)
    rw [hdiff, List.take_length, List.drop_length, List.append_nil, ← hb.finish] at hi
    rw [List.take_of_length_le h]
    exact hi

theorem reserve_ok (hb : Refines b l) {n : UInt64} (hsmall : n.toNat < 2 ^ 63) :
    Ensures (· = .allocateException) (b.reserve alloc n) (Refines · l) := by
  have hroom := hb.room
  rw [reserve]
  split
  · rename_i h
    rw [UInt64.lt_iff_toNat_lt, hb.toNat_capacity] at h
    refine (allocate_ok alloc _).bind fun ws hws => ?_
    rw [toNat_wordCount hsmall] at hws
    have hfin : b.finish.toNat = l.length := by
      rw [hb.finish]
      exact Int.toNat_natCast _
    rw [hfin]
    refine (bitCopyFrom_ok b ⟨ws, 0⟩ (p := 0) (r := 0) (by omega) (show 0 + l.length ≤ 32 * ws.length by omega) _).bind
      fun t ht => ?_
    have hw : t.words.length = ws.length := ht.words
    refine ⟨rfl, ?_, ?_, hb.small, fun i hi => ?_⟩
    · show _ ≤ 32 * t.words.length
      omega
    · show t.words.length ≤ _
      omega
    · show t.bit i = _
      rw [ht.bit, if_pos (by omega), ← hb.bit i hi]
      congr 1
      omega
  · exact hb

theorem clear_ok (hb : Refines b l) (ok : Failure → Prop) : Ensures ok b.clear (Refines · []) := by
  have he := eraseRange_ok hb (Nat.zero_le _) le_rfl ok
  rw [List.take_zero, List.drop_length, List.append_nil] at he
  rw [clear, hb.finish]
  obtain ⟨r, e, hr, _⟩ | ⟨f, e, hf⟩ := he.cases
  · have e' : b.eraseRange 0 l.length = .ok r := e
    rw [e']
    exact hr
  · have e' : b.eraseRange 0 l.length = .error f := e
    rw [e']
    exact hf

theorem refines_nil : Refines ⟨[], 0⟩ [] := ⟨rfl, le_rfl, Nat.zero_le _, by decide, fun i hi => absurd hi (Nat.not_lt_zero i)⟩

theorem copy_refines (hb : Refines b l) : Ensures (· = .allocateException) (b.copy alloc) (Refines · l) := by
  have hroom := hb.room
  have hsmall := hb.small
  rw [copy, hb.finish]
  split
  · rename_i h
    have hnil : l = [] := List.length_eq_zero_iff.mp (by omega)
    rw [hnil]
    exact refines_nil
  · have hto : (UInt64.ofInt l.length).toNat = l.length := by
      rw [← hb.finish]
      exact hb.toNat_size
    refine (allocate_ok alloc _).bind fun ws hws => ?_
    rw [toNat_wordCount (by omega), hto] at hws
    rw [Int.toNat_natCast]
    have hw : Ensures (· = Failure.allocateException) (forLoop l.length (fun i (tmp : Bitmap) => do
        let value ← b.readAt i
        tmp.writeAt i value) ⟨ws, l.length⟩) (Written ⟨ws, l.length⟩ 0 l.length b.bit) := by
      refine writes_ok fun i hi t ht => ?_
      have hlen : t.words.length = ws.length := ht.words
      rw [readAt_in (by omega), Nat.zero_add]
      exact writeAt_in (by omega) _ rfl
    refine hw.mono fun t ht => ?_
    have hlen : t.words.length = ws.length := ht.words
    refine ⟨ht.finish, by omega, by omega, hsmall, fun i hi => ?_⟩
    rw [ht.bit, if_pos (by omega), hb.bit i hi]

/-! ### Reading -/

theorem get_refines (hb : Refines b l) {n : UInt64} (hn : n.toNat < l.length) : b.get n = .ok (l.getD n.toNat false) := by
  have hroom := hb.room
  have hsmall := hb.small
  rw [get, difference_of_lt (by omega), readAt_in (by omega), hb.bit _ hn]

theorem equalTo_refines {c : Bitmap} {l' : List Bool} (hb : Refines b l) (hc : Refines c l') : b.equalTo c = .ok (decide (l = l')) := by
  have hsize : b.size = c.size ↔ l.length = l'.length := by rw [← UInt64.toNat_inj, hb.toNat_size, hc.toNat_size]
  have hroom := hb.room
  have hroom' := hc.room
  rw [equalTo]
  split
  · rename_i h
    have hlen := hsize.mp h
    rw [hb.finish, Int.toNat_natCast, allM_ok (b := fun i => l.getD i false == l'.getD i false)]
    · congr 1
      rw [Bool.eq_iff_iff, List.all_eq_true, decide_eq_true_eq]
      constructor
      · intro hall
        refine List.ext_getElem hlen fun i h1 h2 => ?_
        have := hall i (List.mem_range.mpr h1)
        rwa [beq_iff_eq, List.getD_eq_getElem _ _ h1, List.getD_eq_getElem _ _ h2] at this
      · rintro rfl i _
        exact beq_self_eq_true _
    · intro i hi
      have hlt := List.mem_range.mp hi
      rw [readAt_in (by omega), readAt_in (by omega), hb.bit i hlt, hc.bit i (by omega)]
      rfl
  · rename_i h
    have hne : l ≠ l' := fun e => h (hsize.mpr (by rw [e]))
    rw [decide_eq_false hne]

end NeForce.Bitmap

/-! ## Runs of edits

A run of edits leads a bitmap and a list of booleans on together.  Where no edit asks for 2^63 bits, the bitmap refines the list all the way
(`reaches_refines`), so sizes, bits and comparisons agree and only the allocator can fail (`run_agrees`).  Close to 2^64 the number of words
wraps round to none, and the bits are lost (`reserve_loses`). -/

namespace NeForce.Bitmap

/-- The operations, with positions and ranges that are counted from the start. -/
inductive Edit
  | pushBack (value : Bool)
  | popBack
  | insert (pos : ℕ) (value : Bool)
  | insertN (pos : ℕ) (n : UInt64) (value : Bool)
  | insertRange (pos : ℕ) (range : List Bool)
  | erase (pos : ℕ)
  | eraseRange (first last : ℕ)
  | resize (n : UInt64) (value : Bool)
  | reserve (n : UInt64)
  | clear
  /-- The bitmap is replaced by a copy of it. -/
  | copy

namespace Edit

def run (alloc : UInt64 → Bool) (b : Bitmap) : Edit → Except Failure Bitmap
  | .pushBack value => b.pushBack alloc value
  | .popBack => .ok b.popBack
  | .insert pos value => (b.insert alloc pos value).map Prod.fst
  | .insertN pos n value => b.insertN alloc pos n value
  | .insertRange pos range => b.insertRange alloc pos range
  | .erase pos => (b.erase pos).map Prod.fst
  | .eraseRange first last => (b.eraseRange first last).map Prod.fst
  | .resize n value => b.resize alloc n value
  | .reserve n => b.reserve alloc n
  | .clear => b.clear
  | .copy => b.copy alloc

/-- The operations on a list. -/
def apply (l : List Bool) : Edit → List Bool
  | .pushBack value => l ++ [value]
  | .popBack => l.dropLast
  | .insert pos value => l.take pos ++ [value] ++ l.drop pos
  | .insertN pos n value => l.take pos ++ List.replicate n.toNat value ++ l.drop pos
  | .insertRange pos range => l.take pos ++ range ++ l.drop pos
  | .erase pos => l.take pos ++ l.drop (pos + 1)
  | .eraseRange first last => l.take first ++ l.drop last
  | .resize n value => l.take n.toNat ++ List.replicate (n.toNat - l.length) value
  | .reserve _ => l
  | .clear => []
  | .copy => l

/-- The positions lie in the list, and there is a last element to remove. -/
def Valid (l : List Bool) : Edit → Prop
  | .popBack => l ≠ []
  | .insert pos _ => pos ≤ l.length
  | .insertN pos _ _ => pos ≤ l.length
  | .insertRange pos _ => pos ≤ l.length
  | .erase pos => pos < l.length
  | .eraseRange first last => first ≤ last ∧ last ≤ l.length
  | _ => True

/-- The edit asks for less than 2^63 bits. -/
def Fits (l : List Bool) : Edit → Prop
  | .pushBack _ => l.length + 1 < 2 ^ 63
  | .insert _ _ => l.length + 1 < 2 ^ 63
  | .insertN _ n _ => l.length + n.toNat < 2 ^ 63
  | .insertRange _ range => l.length + range.length < 2 ^ 63
  | .resize n _ => n.toNat < 2 ^ 63
  | .reserve n => n.toNat < 2 ^ 63
  | _ => True

end Edit

section

variable {b : Bitmap} {l : List Bool} {alloc : UInt64 → Bool}

theorem ensures_fst {ok : Failure → Prop} {x : Except Failure (Bitmap × ℤ)} {P : Bitmap → Prop} {p : ℤ}
    (h : Ensures ok x fun r => P r.1 ∧ r.2 = p) : Ensures ok (x.map Prod.fst) P := by
  cases x with
  | ok r => exact h.1
  | error e => exact h

/-- **One edit.** -/
theorem edit_refines (hb : Refines b l) {e : Edit} (hv : e.Valid l) (hf : e.Fits l) :
    Ensures (· = .allocateException) (e.run alloc b) (Refines · (e.apply l)) := by
  cases e with
  | pushBack value => exact pushBack_ok hb hf
  | popBack => exact popBack_ok hb hv
  | insert pos value => exact ensures_fst (insert_ok hb hv hf)
  | insertN pos n value => exact insertN_ok alloc n value hb hv hf
  | insertRange pos range => exact insertRange_ok hb hv hf
  | erase pos => exact ensures_fst (erase_ok hb hv _)
  | eraseRange first last => exact ensures_fst (eraseRange_ok hb hv.1 hv.2 _)
  | resize n value => exact resize_ok hb hf
  | reserve n => exact reserve_ok hb hf
  | clear => exact clear_ok hb _
  | copy => exact copy_refines hb

/-! ### Runs -/

/-- An edit of a bitmap and of a list; where the allocator has no block, an exception leaves both. -/
def Step (alloc : UInt64 → Bool) (s : Bitmap × List Bool) (e : Edit) (s' : Bitmap × List Bool) : Prop :=
  e.Valid s.2 ∧ (e.run alloc s.1 = .ok s'.1 ∧ s'.2 = e.apply s.2 ∨ e.run alloc s.1 = .error .allocateException ∧ s' = s)

/-- The runs in which no edit asks for 2^63 bits, from the empty bitmap on. -/
def Reaches (alloc : UInt64 → Bool) (es : List Edit) (s : Bitmap × List Bool) : Prop :=
  Run (Guarded (fun s e => e.Fits s.2) (Step alloc)) (⟨[], 0⟩, []) es s

theorem reaches_refines {es : List Edit} {s : Bitmap × List Bool} (hr : Reaches alloc es s) : Refines s.1 s.2 := by
  refine Run.invariant (P := fun s => Refines s.1 s.2) hr refines_nil ?_
  rintro s e s' hs ⟨hfits, hvalid, ⟨hrun, hl⟩ | ⟨_, rfl⟩⟩
  · rw [hl]
    exact (edit_refines hs hvalid hfits).of_ok hrun
  · exact hs

end

end NeForce.Bitmap
