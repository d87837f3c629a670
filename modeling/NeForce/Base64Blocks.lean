import NeForce.Base64Lanes

/-! # The loops of `decode`

The loop over groups succeeds if and only if all characters before the padding are valid (`decodeGroups_isSome`), and the
loop over blocks does what the loop over groups does (`decodeBlocks_eq`). -/

namespace NeForce.Base64

open Ssse3

variable {index index' : UInt8 → Option (BitVec 6)} {text rest : Bytes} {room n : ℕ} {x y z w : UInt8}

/-! ### Groups -/

/-- A text of whole groups of which `room` characters stand before the padding, not just one of the last group. -/
inductive Room : ℕ → Bytes → Prop where
  | zero (text : Bytes) : Room 0 text
  | two (x y z w : UInt8) (text : Bytes) : Room 2 (x :: y :: z :: w :: text)
  | three (x y z w : UInt8) (text : Bytes) : Room 3 (x :: y :: z :: w :: text)
  | group (x y z w : UInt8) {room : ℕ} {text : Bytes} (h : Room room text) : Room (room + 4) (x :: y :: z :: w :: text)

theorem room_of_length (hgroups : 4 ∣ text.length) (hle : room ≤ text.length) (hone : room % 4 ≠ 1) : Room room text := by
  induction hn : text.length using Nat.strongRecOn generalizing room text with
  | _ m ih =>
      match room, text with
      | 0, text => exact .zero text
      | 1, _ => exact absurd rfl hone
      | 2, x :: y :: z :: w :: text => exact .two x y z w text
      | 3, x :: y :: z :: w :: text => exact .three x y z w text
      | room + 4, x :: y :: z :: w :: text =>
          simp only [List.length_cons] at hgroups hle hn
          exact .group x y z w (ih text.length (by omega) (by omega) (by omega) (by omega) rfl)
      | room + 2, [] | room + 2, [_] | room + 2, [_, _] | room + 2, [_, _, _] =>
          simp only [List.length_cons, List.length_nil] at hgroups hle
          omega

/-- The bytes of a whole group. -/
def groupBytes (index : UInt8 → Option (BitVec 6)) (x y z w : UInt8) : Option Bytes :=
  match index x, index y, index z, index w with
  | some a, some b, some c, some d =>
      some [octet (indexValue a b c d) 16, octet (indexValue a b c d) 8, octet (indexValue a b c d) 0]
  | _, _, _, _ => none

theorem groupBytes_isSome : (groupBytes index x y z w).isSome = true ↔
    (index x).isSome = true ∧ (index y).isSome = true ∧ (index z).isSome = true ∧ (index w).isSome = true := by
  unfold groupBytes
  cases index x <;> cases index y <;> cases index z <;> cases index w <;> simp

theorem groupBytes_length {g : Bytes} (h : groupBytes index x y z w = some g) : g.length = 3 := by
  unfold groupBytes at h
  split at h
  · cases h
    rfl
  · cases h

theorem decodeGroups_zero (text : Bytes) : decodeGroups index 0 text = some [] := by
  unfold decodeGroups
  split <;> rfl

theorem decodeGroups_group (room : ℕ) (x y z w : UInt8) (text : Bytes) :
    decodeGroups index (room + 4) (x :: y :: z :: w :: text) =
      (groupBytes index x y z w).bind fun g => (decodeGroups index room text).map (g ++ ·) := by
  have h2 : 2 < room + 4 := by omega
  have h3 : 3 < room + 4 := by omega
  rw [decodeGroups, if_neg (Nat.succ_ne_zero _), if_pos h2, if_pos h3, groupBytes]
  simp only [if_pos h2, if_pos h3, Nat.add_sub_cancel]
  cases index x with
  | none => rfl
  | some a =>
      cases index y with
      | none => rfl
      | some b =>
          cases index z with
          | none => rfl
          | some c =>
              cases index w with
              | none => rfl
              | some d => rfl

theorem decodeGroups_two (x y z w : UInt8) (text : Bytes) :
    decodeGroups index 2 (x :: y :: z :: w :: text) =
      (index x).bind fun a => (index y).map fun b => [octet (indexValue a b 0 0) 16] := by
  cases hx : index x <;> cases hy : index y <;> simp [decodeGroups, decodeGroups_zero, hx, hy]

theorem decodeGroups_three (x y z w : UInt8) (text : Bytes) :
    decodeGroups index 3 (x :: y :: z :: w :: text) =
      (index x).bind fun a => (index y).bind fun b => (index z).map fun c =>
        [octet (indexValue a b c 0) 16, octet (indexValue a b c 0) 8] := by
  cases hx : index x <;> cases hy : index y <;> cases hz : index z <;> simp [decodeGroups, decodeGroups_zero, hx, hy, hz]

/-- **The loop succeeds if and only if all characters before the padding are valid.** -/
theorem decodeGroups_isSome (h : Room room text) :
    (decodeGroups index room text).isSome = true ↔ ∀ c ∈ text.take room, (index c).isSome = true := by
  induction h with
  | zero text => simp [decodeGroups_zero]
  | two x y z w text =>
      rw [decodeGroups_two]
      cases hx : index x <;> cases hy : index y <;> simp [hx, hy]
  | three x y z w text =>
      rw [decodeGroups_three]
      cases hx : index x <;> cases hy : index y <;> cases hz : index z <;> simp [hx, hy, hz]
  | group x y z w h ih =>
      rw [decodeGroups_group, List.take_succ_cons, List.take_succ_cons, List.take_succ_cons, List.take_succ_cons]
      simp only [List.forall_mem_cons, ← ih]
      have hg := @groupBytes_isSome index x y z w
      cases hgroup : groupBytes index x y z w with
      | none =>
          rw [hgroup] at hg
          refine iff_of_false Bool.false_ne_true fun hall => Bool.false_ne_true (hg.mpr ?_)
          exact ⟨hall.1, hall.2.1, hall.2.2.1, hall.2.2.2.1⟩
      | some g =>
          rw [hgroup] at hg
          obtain ⟨h1, h2, h3, h4⟩ := hg.mp rfl
          simp [h1, h2, h3, h4]

/-- Only the characters before the padding are read. -/
theorem decodeGroups_congr (h : Room room text) (heq : ∀ c ∈ text.take room, index c = index' c) :
    decodeGroups index room text = decodeGroups index' room text := by
  induction h with
  | zero text => rw [decodeGroups_zero, decodeGroups_zero]
  | two x y z w text =>
      simp only [List.take_succ_cons, List.take_zero, List.forall_mem_cons] at heq
      rw [decodeGroups_two, decodeGroups_two, heq.1, heq.2.1]
  | three x y z w text =>
      simp only [List.take_succ_cons, List.take_zero, List.forall_mem_cons] at heq
      rw [decodeGroups_three, decodeGroups_three, heq.1, heq.2.1, heq.2.2.1]
  | group x y z w h ih =>
      simp only [List.take_succ_cons, List.forall_mem_cons] at heq
      rw [decodeGroups_group, decodeGroups_group, ih heq.2.2.2.2, groupBytes, groupBytes, heq.1, heq.2.1, heq.2.2.1,
        heq.2.2.2.1]

/-- The last block is filled up with characters for 0. -/
theorem decodeGroups_fill {c : UInt8} (hc : index c = some 0) (h : Room room text) (hn : 4 ∣ n) (hle : room ≤ n) :
    decodeGroups index room text =
      (decodeGroups index n (text.take room ++ List.replicate (n - room) c)).map (List.take (room * 3 / 4)) := by
  have hzeros (m : ℕ) (hm : 4 ∣ m) : (decodeGroups index m (List.replicate m c)).isSome = true := by
    have hroom : Room m (List.replicate m c) :=
      room_of_length (by rwa [List.length_replicate]) (by rw [List.length_replicate]) (by omega)
    rw [decodeGroups_isSome hroom]
    intro d hd
    rw [List.eq_of_mem_replicate (List.mem_of_mem_take hd), hc]
    rfl
  induction h generalizing n with
  | zero text =>
      obtain ⟨r, hr⟩ := Option.isSome_iff_exists.mp (hzeros n hn)
      rw [decodeGroups_zero, List.take_zero, List.nil_append, Nat.sub_zero, hr]
      rfl
  | two x y z w text =>
      obtain ⟨m, rfl⟩ := Nat.exists_eq_add_of_le' (show 4 ≤ n by omega)
      obtain ⟨r, hr⟩ := Option.isSome_iff_exists.mp (hzeros m (by omega))
      have htext : (x :: y :: z :: w :: text).take 2 ++ List.replicate (m + 4 - 2) c =
          x :: y :: c :: c :: List.replicate m c := by
        rw [show m + 4 - 2 = m + 2 by omega]
        rfl
      rw [htext, decodeGroups_two, decodeGroups_group, hr, groupBytes, hc]
      cases index x <;> cases index y <;> rfl
  | three x y z w text =>
      obtain ⟨m, rfl⟩ := Nat.exists_eq_add_of_le' (show 4 ≤ n by omega)
      obtain ⟨r, hr⟩ := Option.isSome_iff_exists.mp (hzeros m (by omega))
      have htext : (x :: y :: z :: w :: text).take 3 ++ List.replicate (m + 4 - 3) c =
          x :: y :: z :: c :: List.replicate m c := by
        rw [show m + 4 - 3 = m + 1 by omega]
        rfl
      rw [htext, decodeGroups_three, decodeGroups_group, hr, groupBytes, hc]
      cases index x <;> cases index y <;> cases index z <;> rfl
  | @group x y z w room text h ih =>
      obtain ⟨m, rfl⟩ := Nat.exists_eq_add_of_le' (show 4 ≤ n by omega)
      have htext : (x :: y :: z :: w :: text).take (room + 4) ++ List.replicate (m + 4 - (room + 4)) c =
          x :: y :: z :: w :: (text.take room ++ List.replicate (m - room) c) := by
        rw [show m + 4 - (room + 4) = m - room by omega]
        rfl
      rw [htext, decodeGroups_group, decodeGroups_group, @ih m (by omega) (by omega)]
      cases hg : groupBytes index x y z w with
      | none => rfl
      | some g =>
          rw [Option.bind_some, Option.bind_some, Option.map_map, Option.map_map]
          congr 1
          funext r
          have hlen := groupBytes_length hg
          rw [Function.comp_apply, Function.comp_apply, List.take_append, hlen,
            List.take_of_length_le (show g.length ≤ (room + 4) * 3 / 4 by omega)]
          congr 2
          omega

/-! ### Blocks -/

/-- The two pairs of characters for 62 and 63. -/
def IsPair (plusChar slashChar : BitVec 8) : Prop :=
  plusChar = 0x2B ∧ slashChar = 0x2F ∨ plusChar = 0x2D ∧ slashChar = 0x5F

variable {plusChar slashChar : BitVec 8}

theorem strictIndex_fill (h : IsPair plusChar slashChar) : strictIndex plusChar slashChar 0x41 = some 0 := by
  obtain ⟨rfl, rfl⟩ | ⟨rfl, rfl⟩ := h <;> decide

theorem valid_apply (h : IsPair plusChar slashChar) (text : Bytes) (k j : Fin 4) :
    ((base64Decode16Chars text plusChar slashChar).2 k j).msb =
      (strictIndex plusChar slashChar (text.getD (4 * k + j) 0)).isSome := by
  have hchar := (vector_char (text.getD (4 * k + j) 0).toBitVec plusChar slashChar h).1
  rw [UInt8.ofBitVec_toBitVec] at hchar
  rw [← hchar, base64Decode16Chars]
  dsimp only
  rw [base64ValidMask_apply]
  rfl

/-- The bytes of a lane are those of its group. -/
theorem groupBytes_lane (h : IsPair plusChar slashChar) {v : Vec} {k : Fin 4} (h0 : v k 0 = x.toBitVec)
    (h1 : v k 1 = y.toBitVec) (h2 : v k 2 = z.toBitVec) (h3 : v k 3 = w.toBitVec)
    (hvalid : (groupBytes (strictIndex plusChar slashChar) x y z w).isSome = true) :
    groupBytes (strictIndex plusChar slashChar) x y z w =
      some [.ofBitVec (decodeIndices (base64MapToIndex v plusChar slashChar) k 0),
        .ofBitVec (decodeIndices (base64MapToIndex v plusChar slashChar) k 1),
        .ofBitVec (decodeIndices (base64MapToIndex v plusChar slashChar) k 2)] := by
  obtain ⟨hx, hy, hz, hw⟩ := groupBytes_isSome.mp hvalid
  obtain ⟨a, ha⟩ := Option.isSome_iff_exists.mp hx
  obtain ⟨b, hb⟩ := Option.isSome_iff_exists.mp hy
  obtain ⟨c, hc⟩ := Option.isSome_iff_exists.mp hz
  obtain ⟨d, hd⟩ := Option.isSome_iff_exists.mp hw
  have hmap (j : Fin 4) {e : UInt8} {s : BitVec 6} (he : v k j = e.toBitVec) (hs : strictIndex plusChar slashChar e = some s) :
      base64MapToIndex v plusChar slashChar k j = s.setWidth 8 := by
    rw [base64MapToIndex_apply, he]
    exact (vector_char e.toBitVec plusChar slashChar h).2 s hs
  obtain ⟨e0, e1, e2⟩ := decodeIndices_apply (hmap 0 h0 ha) (hmap 1 h1 hb) (hmap 2 h2 hc) (hmap 3 h3 hd)
  rw [e0, e1, e2]
  unfold groupBytes
  rw [ha, hb, hc, hd]

/-- **16 valid characters are decoded as four groups.** -/
theorem decode16_eq (h : IsPair plusChar slashChar) {c0 c1 c2 c3 c4 c5 c6 c7 c8 c9 c10 c11 c12 c13 c14 c15 : UInt8}
    (ht : text = c0 :: c1 :: c2 :: c3 :: c4 :: c5 :: c6 :: c7 :: c8 :: c9 :: c10 :: c11 :: c12 :: c13 :: c14 :: c15 :: rest)
    (hvalid : ∀ c ∈ text.take 16, (strictIndex plusChar slashChar c).isSome = true) :
    decodeGroups (strictIndex plusChar slashChar) (n + 16) text =
      (decodeGroups (strictIndex plusChar slashChar) n rest).map
        ((base64Decode16Chars text plusChar slashChar).1.take 12 ++ ·) := by
  have hstore (v : Vec) : (store (shuffleEpi8 v compactMask)).take 12 =
      laneBytes v 0 ++ (laneBytes v 1 ++ (laneBytes v 2 ++ laneBytes v 3)) := rfl
  subst ht
  simp only [List.take_succ_cons, List.take_zero, List.forall_mem_cons] at hvalid
  obtain ⟨h0, h1, h2, h3, h4, h5, h6, h7, h8, h9, h10, h11, h12, h13, h14, h15, -⟩ := hvalid
  unfold base64Decode16Chars
  generalize hv : load (c0 :: c1 :: c2 :: c3 :: c4 :: c5 :: c6 :: c7 :: c8 :: c9 :: c10 :: c11 :: c12 :: c13 :: c14 :: c15 ::
    rest) = v
  dsimp only
  have hg0 := groupBytes_lane h (show v 0 0 = c0.toBitVec from hv ▸ rfl) (show v 0 1 = c1.toBitVec from hv ▸ rfl)
    (show v 0 2 = c2.toBitVec from hv ▸ rfl) (show v 0 3 = c3.toBitVec from hv ▸ rfl)
    (groupBytes_isSome.mpr ⟨h0, h1, h2, h3⟩)
  have hg1 := groupBytes_lane h (show v 1 0 = c4.toBitVec from hv ▸ rfl) (show v 1 1 = c5.toBitVec from hv ▸ rfl)
    (show v 1 2 = c6.toBitVec from hv ▸ rfl) (show v 1 3 = c7.toBitVec from hv ▸ rfl)
    (groupBytes_isSome.mpr ⟨h4, h5, h6, h7⟩)
  have hg2 := groupBytes_lane h (show v 2 0 = c8.toBitVec from hv ▸ rfl) (show v 2 1 = c9.toBitVec from hv ▸ rfl)
    (show v 2 2 = c10.toBitVec from hv ▸ rfl) (show v 2 3 = c11.toBitVec from hv ▸ rfl)
    (groupBytes_isSome.mpr ⟨h8, h9, h10, h11⟩)
  have hg3 := groupBytes_lane h (show v 3 0 = c12.toBitVec from hv ▸ rfl) (show v 3 1 = c13.toBitVec from hv ▸ rfl)
    (show v 3 2 = c14.toBitVec from hv ▸ rfl) (show v 3 3 = c15.toBitVec from hv ▸ rfl)
    (groupBytes_isSome.mpr ⟨h12, h13, h14, h15⟩)
  rw [hstore, show n + 16 = n + 12 + 4 from rfl, decodeGroups_group, show n + 12 = n + 8 + 4 from rfl, decodeGroups_group,
    show n + 8 = n + 4 + 4 from rfl, decodeGroups_group, decodeGroups_group, hg0, hg1, hg2, hg3]
  simp only [Option.bind_some, Option.map_map]
  congr 1

theorem exists_sixteen (h : 16 ≤ text.length) : ∃ c0 c1 c2 c3 c4 c5 c6 c7 c8 c9 c10 c11 c12 c13 c14 c15 : UInt8,
    text = c0 :: c1 :: c2 :: c3 :: c4 :: c5 :: c6 :: c7 :: c8 :: c9 :: c10 :: c11 :: c12 :: c13 :: c14 :: c15 ::
      text.drop 16 := by
  have hdrop (i : ℕ) (hi : i < 16) : text.drop i = text[i] :: text.drop (i + 1) :=
    List.drop_eq_getElem_cons (by omega)
  refine ⟨text[0], text[1], text[2], text[3], text[4], text[5], text[6], text[7], text[8], text[9], text[10], text[11], text[12],
    text[13], text[14], text[15], ?_⟩
  rw [← hdrop 15 (by omega), ← hdrop 14 (by omega), ← hdrop 13 (by omega), ← hdrop 12 (by omega), ← hdrop 11 (by omega),
    ← hdrop 10 (by omega), ← hdrop 9 (by omega), ← hdrop 8 (by omega), ← hdrop 7 (by omega), ← hdrop 6 (by omega),
    ← hdrop 5 (by omega), ← hdrop 4 (by omega), ← hdrop 3 (by omega), ← hdrop 2 (by omega), ← hdrop 1 (by omega),
    ← hdrop 0 (by omega), List.drop_zero]

/-- The mask of a block, read character by character. -/
theorem valid_iff (h : IsPair plusChar slashChar) (hlen : 16 ≤ text.length) {m : ℕ} (hm : m ≤ 16) :
    (∀ i : Fin 16, i < m →
        ((base64Decode16Chars text plusChar slashChar).2 ⟨i / 4, by omega⟩ ⟨i % 4, by omega⟩).msb = true) ↔
      ∀ c ∈ text.take m, (strictIndex plusChar slashChar c).isSome = true := by
  have hget (i : ℕ) (hi : i < text.length) : text.getD (4 * (i / 4) + i % 4) 0 = text[i] := by
    rw [Nat.div_add_mod]
    exact List.getD_eq_getElem _ _ _
  constructor
  · intro hall c hc
    obtain ⟨i, hi, rfl⟩ := List.mem_iff_getElem.mp hc
    rw [List.length_take] at hi
    have hvalid := hall ⟨i, by omega⟩ (by dsimp only; omega)
    rw [valid_apply h, hget i (by omega)] at hvalid
    rwa [List.getElem_take]
  · intro hall i hi
    rw [valid_apply h, hget i.val (by omega)]
    exact hall _ (List.mem_take_iff_getElem.mpr ⟨i, by omega, rfl⟩)

theorem decodeGroups_none (h : Room room text) (hbad : ¬ ∀ c ∈ text.take room, (index c).isSome = true) :
    decodeGroups index room text = none := by
  rw [← decodeGroups_isSome h] at hbad
  exact Option.not_isSome_iff_eq_none.mp hbad

/-- **The loop over blocks does what the loop over groups does.** -/
theorem decodeBlocks_eq (h : IsPair plusChar slashChar) (hgroups : 4 ∣ text.length) (hle : room ≤ text.length)
    (hone : room % 4 ≠ 1) :
    decodeBlocks plusChar slashChar (room / 16) room text = decodeGroups (strictIndex plusChar slashChar) room text := by
  have hroom := room_of_length hgroups hle hone
  induction hn : room / 16 generalizing room text with
  | zero =>
      unfold decodeBlocks
      split
      · next hpos =>
        -- The padded block is decoded as four groups, and the bytes of the padding are left out.
        have htake : (text.take room ++ List.replicate (16 - room) 0x41).take room = text.take room :=
          List.take_left' (by rw [List.length_take]; omega)
        have hlen : (text.take room ++ List.replicate (16 - room) (0x41 : UInt8)).length = 16 := by
          rw [List.length_append, List.length_take, List.length_replicate]
          omega
        have hfill := decodeGroups_fill (strictIndex_fill h) hroom (show 4 ∣ 16 by omega) (show room ≤ 16 by omega)
        have hmem : ∀ c ∈ text.take room ++ List.replicate (16 - room) 0x41, c ∈ text.take room ∨ c = 0x41 := fun c hc =>
          (List.mem_append.mp hc).imp_right List.eq_of_mem_replicate
        have hmask := (movemask_and_iff (base64Decode16Chars (text.take room ++ List.replicate (16 - room) 0x41) plusChar
          slashChar).2 (show room ≤ 16 by omega)).trans (valid_iff h hlen.ge (by omega))
        rw [htake] at hmask
        generalize text.take room ++ List.replicate (16 - room) 0x41 = padded at htake hlen hfill hmem hmask ⊢
        show (if movemaskEpi8 (base64Decode16Chars padded plusChar slashChar).2 &&& (2 ^ room - 1) ≠ 2 ^ room - 1 then none
          else some ((base64Decode16Chars padded plusChar slashChar).1.take (room * 3 / 4))) = _
        split
        · next hbad => exact (decodeGroups_none hroom (mt hmask.mpr hbad)).symm
        · next hgood =>
          have hvalid := hmask.mp (not_not.mp hgood)
          obtain ⟨c0, c1, c2, c3, c4, c5, c6, c7, c8, c9, c10, c11, c12, c13, c14, c15, hc⟩ := exists_sixteen hlen.ge
          have hdecode := @decode16_eq padded (padded.drop 16) 0 _ _ h _ _ _ _ _ _ _ _ _ _ _ _ _ _ _ _ hc fun c hc => by
            obtain hc | rfl := hmem c (List.mem_of_mem_take hc)
            · exact hvalid c hc
            · rw [strictIndex_fill h]
              rfl
          rw [decodeGroups_zero, Option.map_some, List.append_nil] at hdecode
          rw [hfill, hdecode, Option.map_some, List.take_take, min_eq_left (by omega)]
      · next hzero =>
        obtain rfl : room = 0 := by omega
        rw [decodeGroups_zero]
  | succ n ih =>
      have hlen : 16 ≤ text.length := by omega
      have hmask := (movemask_eq_iff (base64Decode16Chars text plusChar slashChar).2).trans (valid_iff h hlen le_rfl)
      show (if movemaskEpi8 (base64Decode16Chars text plusChar slashChar).2 ≠ 0xFFFF then none
        else (decodeBlocks plusChar slashChar n (room - 16) (text.drop 16)).map
          ((base64Decode16Chars text plusChar slashChar).1.take 12 ++ ·)) = _
      split
      · next hbad =>
        refine (decodeGroups_none hroom fun hall => hbad (hmask.mpr fun c hc => hall c ?_)).symm
        exact (List.take_prefix_take_left (show 16 ≤ room by omega)).mem hc
      · next hgood =>
        obtain ⟨c0, c1, c2, c3, c4, c5, c6, c7, c8, c9, c10, c11, c12, c13, c14, c15, hc⟩ := exists_sixteen hlen
        have hdecode := @decode16_eq text (text.drop 16) (room - 16) _ _ h _ _ _ _ _ _ _ _ _ _ _ _ _ _ _ _ hc
          (hmask.mp (not_not.mp hgood))
        rw [Nat.sub_add_cancel (by omega)] at hdecode
        have hgroups' : 4 ∣ (text.drop 16).length := by
          rw [List.length_drop]
          omega
        have hle' : room - 16 ≤ (text.drop 16).length := by
          rw [List.length_drop]
          omega
        rw [hdecode, ih hgroups' hle' (by omega) (room_of_length hgroups' hle' (by omega)) (by omega)]

end NeForce.Base64
