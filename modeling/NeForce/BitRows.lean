import Mathlib.Tactic.Ring

/-! # Rows of bits packed in words

`bitAt l i` is bit `i` of the words `l` of `w` bits each, the low bits of a word first.  `writeBit` replaces one bit of
a word by clearing it with its mask and adding the mask back, and `bitAt_set` says that this changes one bit of the
row. -/

namespace NeForce.BitRow

variable {w i j o : ℕ} {x : BitVec w} {l : List (BitVec w)} {v : Bool}

/-- Bits behind the last word are not set. -/
def bitAt (l : List (BitVec w)) (i : ℕ) : Bool := (l[i / w]?.getD 0#w).getLsbD (i % w)

/-- The word with bit `o` set to `v`. -/
def writeBit (x : BitVec w) (o : ℕ) (v : Bool) : BitVec w :=
  (x &&& ~~~(1#w <<< o)) ||| (if v then 1#w <<< o else 0#w)

theorem getLsbD_one_shiftLeft (ho : o < w) : (1#w <<< o).getLsbD j = decide (j = o) := by
  rw [← BitVec.twoPow_eq, BitVec.getLsbD_twoPow, decide_eq_true ho, Bool.true_and]
  exact decide_eq_decide.mpr eq_comm

theorem getLsbD_writeBit (ho : o < w) (hj : j < w) : (writeBit x o v).getLsbD j = if j = o then v else x.getLsbD j := by
  have hrest : (x &&& ~~~(1#w <<< o)).getLsbD j = (x.getLsbD j && !decide (j = o)) := by
    rw [BitVec.getLsbD_and, BitVec.getLsbD_not, getLsbD_one_shiftLeft ho, decide_eq_true hj, Bool.true_and]
  rw [writeBit, BitVec.getLsbD_or, hrest]
  cases v with
  | true =>
      rw [if_pos rfl, getLsbD_one_shiftLeft ho]
      by_cases h : j = o <;> simp [h]
  | false =>
      rw [if_neg (by decide), BitVec.getLsbD_zero]
      by_cases h : j = o <;> simp [h]

/-- A bit is tested with its mask. -/
theorem and_one_shiftLeft (ho : o < w) : (x &&& 1#w <<< o != 0#w) = x.getLsbD o := by
  rw [← BitVec.twoPow_eq, BitVec.and_twoPow]
  cases hx : x.getLsbD o with
  | true =>
      have hne : BitVec.twoPow w o ≠ 0#w := fun h => by
        have := congrArg BitVec.toNat h
        rw [BitVec.toNat_twoPow_of_lt ho, BitVec.toNat_ofNat, Nat.zero_mod] at this
        exact absurd this (Nat.two_pow_pos o).ne'
      simpa using hne
  | false => simp

/-- A bit is tested by moving it to the low end. -/
theorem shiftRight_and_one (hw : 0 < w) : ((x >>> o) &&& 1#w != 0#w) = x.getLsbD o := by
  have h := and_one_shiftLeft (x := x >>> o) hw
  rwa [BitVec.shiftLeft_zero, BitVec.getLsbD_ushiftRight, Nat.add_zero] at h

theorem or_one_shiftLeft (ho : o < w) : x ||| 1#w <<< o = writeBit x o true := by
  refine BitVec.eq_of_getLsbD_eq fun j hj => ?_
  rw [getLsbD_writeBit ho hj, BitVec.getLsbD_or, getLsbD_one_shiftLeft ho]
  by_cases h : j = o <;> simp [h]

theorem bitAt_eq (hx : l[i / w]? = some x) : bitAt l i = x.getLsbD (i % w) := by
  rw [bitAt, hx, Option.getD_some]

theorem div_mod_inj (hd : i / w = j / w) (hm : i % w = j % w) : i = j := by
  rw [← Nat.div_add_mod i w, ← Nat.div_add_mod j w, hd, hm]

/-- Writing a bit changes this bit of the row and no other. -/
theorem bitAt_set (hw : 0 < w) (hx : l[i / w]? = some x) :
    bitAt (l.set (i / w) (writeBit x (i % w) v)) j = if j = i then v else bitAt l j := by
  obtain ⟨hlt, -⟩ := List.getElem?_eq_some_iff.mp hx
  unfold bitAt
  by_cases hd : j / w = i / w
  · rw [hd, List.getElem?_set_self hlt, Option.getD_some, getLsbD_writeBit (Nat.mod_lt _ hw) (Nat.mod_lt _ hw), hx,
      Option.getD_some]
    by_cases hm : j % w = i % w
    · rw [if_pos hm, if_pos (div_mod_inj hd hm)]
    · rw [if_neg hm, if_neg fun h => hm (by rw [h])]
  · rw [List.getElem?_set_ne (Ne.symm hd), if_neg fun h => hd (by rw [h])]

theorem bitAt_replicate_zero (n i : ℕ) : bitAt (List.replicate n 0#w) i = false := by
  unfold bitAt
  rw [List.getElem?_replicate]
  split <;> simp

end NeForce.BitRow
