import NeForce.JsonNumbers
import NeForce.JsonWriter

/-! # What the writer writes for integers and strings

Integers are their decimal digits.  Strings come out quoted, with the same escapes on the path for short texts and on
the one that looks at eight bytes at once. -/

namespace NeForce.Json

variable {s t l cursor run : Bytes} {c : UInt8} {n k v : ℕ}

/-! ### Integers -/

/-- The text of a digit. -/
def digitChar (n : ℕ) : UInt8 := .ofNat (0x30 + n)

set_option maxRecDepth 4000 in
theorem digitPairs_eq : digitPairs = (List.range 100).flatMap fun n => [digitChar (n / 10), digitChar (n % 10)] := by
  rw [digitPairs, ascii_eq rfl, ascii_eq rfl, ascii_eq rfl]
  decide

theorem getElem?_pairs {α β : Type} (f g : α → β) (l : List α) (i : ℕ) :
    (l.flatMap fun x => [f x, g x])[i * 2]? = l[i]?.map f ∧ (l.flatMap fun x => [f x, g x])[i * 2 + 1]? = l[i]?.map g := by
  induction l generalizing i with
  | nil => exact ⟨rfl, rfl⟩
  | cons x l ih =>
      cases i with
      | zero => exact ⟨rfl, rfl⟩
      | succ i =>
          rw [Nat.succ_mul]
          exact ih i

theorem pairDigit_eq (h : n < 100) :
    pairDigit (n * 2) = digitChar (n / 10) ∧ pairDigit (n * 2 + 1) = digitChar (n % 10) := by
  have hn : (List.range 100)[n]? = some n := List.getElem?_range h
  unfold pairDigit
  rw [List.getD_eq_getElem?_getD, List.getD_eq_getElem?_getD, digitPairs_eq, (getElem?_pairs _ _ _ n).1,
    (getElem?_pairs _ _ _ n).2, hn]
  exact ⟨rfl, rfl⟩

theorem digitChar_spec (h : n < 10) : (0x30 ≤ digitChar n ∧ digitChar n ≤ 0x39) ∧ (digitChar n).toNat - 0x30 = n := by
  have hall : ∀ n < 10, (0x30 ≤ digitChar n ∧ digitChar n ≤ 0x39) ∧ (digitChar n).toNat - 0x30 = n := by decide
  exact hall n h

theorem decimal_append (t : Bytes) (c : UInt8) : decimal (t ++ [c]) = 10 * decimal t + (c.toNat - 0x30) := by
  rw [decimal, List.foldl_append]
  rfl

/-- A number's digits with one more. -/
theorem IsInt.concat (hi : IsInt t) (ht : 0 < decimal t) (hc : 0x30 ≤ c ∧ c ≤ 0x39) : IsInt (t ++ [c]) := by
  cases hi with
  | zero => exact absurd ht (by decide)
  | digits hd ht' =>
      refine .digits hd fun d hd' => ?_
      rcases List.mem_append.mp hd' with h | h
      · exact ht' d h
      · rw [List.mem_singleton.mp h]
        exact hc

theorem isInt_digit (h : n < 10) : IsInt [digitChar n] ∧ decimal [digitChar n] = n := by
  obtain ⟨hc, hn⟩ := digitChar_spec h
  refine ⟨?_, by simpa [decimal] using hn⟩
  by_cases hzero : n = 0
  · subst hzero
    exact .zero
  · refine .digits ⟨?_, hc.2⟩ fun d hd => (List.not_mem_nil hd).elim
    have hall : ∀ n < 10, n ≠ 0 → 0x31 ≤ digitChar n := by decide
    exact hall n h hzero

theorem reversedDigits_spec (hn : v < 100 ^ n) (hpos : 0 < n) :
    IsInt (reversedDigits n v).reverse ∧ decimal (reversedDigits n v).reverse = v := by
  induction n generalizing v with
  | zero => omega
  | succ n ih =>
      unfold reversedDigits
      split
      · next hlarge =>
        have hn' : 0 < n := by
          rcases Nat.eq_zero_or_pos n with rfl | h
          · omega
          · exact h
        obtain ⟨hi, hd⟩ := ih (v := v / 100) (by rw [Nat.pow_succ] at hn; omega) hn'
        obtain ⟨h1, h2⟩ := pairDigit_eq (n := v % 100) (by omega)
        obtain ⟨hc1, hd1⟩ := digitChar_spec (n := v % 100 / 10) (by omega)
        obtain ⟨hc2, hd2⟩ := digitChar_spec (n := v % 100 % 10) (by omega)
        rw [h1, h2, List.reverse_cons, List.reverse_cons]
        have hdec : decimal ((reversedDigits n (v / 100)).reverse ++ [digitChar (v % 100 / 10)]) =
            10 * (v / 100) + v % 100 / 10 := by
          rw [decimal_append, hd, hd1]
        refine ⟨(hi.concat (by omega) hc1).concat (by omega) hc2, ?_⟩
        refine (decimal_append _ (digitChar (v % 100 % 10))).trans ?_
        rw [hd2]
        refine (congrArg (10 * · + v % 100 % 10) hdec).trans ?_
        omega
      · split
        · next hsmall htwo =>
          obtain ⟨h1, h2⟩ := pairDigit_eq (n := v) (by omega)
          obtain ⟨hi, hd⟩ := isInt_digit (n := v / 10) (by omega)
          obtain ⟨hc2, hd2⟩ := digitChar_spec (n := v % 10) (by omega)
          rw [h1, h2]
          refine ⟨hi.concat (by omega) hc2, ?_⟩
          refine (decimal_append [digitChar (v / 10)] (digitChar (v % 10))).trans ?_
          rw [hd, hd2]
          omega
        · next hone => exact isInt_digit (by omega)

theorem writeUinteger_spec (hv : v < 2 ^ 64) : IsInt (writeUinteger v) ∧ decimal (writeUinteger v) = v :=
  reversedDigits_spec (lt_of_lt_of_le hv (by decide)) (by decide)

theorem writeInteger_spec {z : ℤ} (hz : -2 ^ 63 ≤ z ∧ z < 2 ^ 63) :
    ∃ negative i, writeInteger z = minus negative ++ i ∧ IsInt i ∧ signed negative (decimal i) = z := by
  unfold writeInteger
  split
  · next hneg =>
    have habs : ((2 ^ 64 - z % 2 ^ 64) % 2 ^ 64).toNat = z.natAbs := by omega
    rw [habs]
    obtain ⟨hi, hd⟩ := writeUinteger_spec (v := z.natAbs) (by omega)
    exact ⟨true, writeUinteger z.natAbs, rfl, hi, by rw [signed_true, hd]; omega⟩
  · next hpos =>
    obtain ⟨hi, hd⟩ := writeUinteger_spec (v := z.toNat) (by omega)
    exact ⟨false, writeUinteger z.toNat, rfl, hi, by rw [signed_false, hd]; omega⟩

/-! ### Escapes -/

/-- The text of one byte of a string. -/
def escaped (c : UInt8) : Bytes := if needsEscape c then appendEscape c else [c]

def escapedText (l : Bytes) : Bytes := l.flatMap escaped

theorem buildQuoted_eq (l : Bytes) : buildQuoted l = 0x22 :: (escapedText l ++ [0x22]) := rfl

theorem escapedText_cons (c : UInt8) (l : Bytes) : escapedText (c :: l) = escaped c ++ escapedText l := List.flatMap_cons

theorem escapedText_append (l l' : Bytes) : escapedText (l ++ l') = escapedText l ++ escapedText l' := List.flatMap_append

theorem escaped_of_plain (h : needsEscape c = false) : escaped c = [c] := by
  rw [escaped, h, if_neg Bool.false_ne_true]

theorem escapedText_plain (h : ∀ c ∈ l, needsEscape c = false) : escapedText l = l := by
  induction l with
  | nil => rfl
  | cons c l ih =>
      rw [escapedText_cons, escaped_of_plain (h c List.mem_cons_self), ih fun d hd => h d (List.mem_cons_of_mem _ hd)]
      rfl

/-- A control character, written with four digits. -/
theorem isUnicode_control (h : n < 0x20) :
    IsUnicode [0x30, 0x30, hexDigit (UInt8.ofNat n >>> 4 &&& 0x0F), hexDigit (UInt8.ofNat n &&& 0x0F)] (Char.ofNat n) ∧
      String.utf8EncodeChar (Char.ofNat n) = [.ofNat n] := by
  have hall : ∀ n < 0x20, (ascii "0123456789abcdef")[n / 16]? = some (hexDigit (UInt8.ofNat n >>> 4 &&& 0x0F)) ∧
      (ascii "0123456789abcdef")[n % 16]? = some (hexDigit (UInt8.ofNat n &&& 0x0F)) ∧ (Char.ofNat n).toNat = n ∧
      String.utf8EncodeChar (Char.ofNat n) = [.ofNat n] := by decide
  obtain ⟨hhigh, hlow, hchar, hutf8⟩ := hall n h
  refine ⟨.char ?_, hutf8⟩
  exact ⟨_, _, _, _, 0, 0, n / 16, n % 16, rfl, .inl rfl, .inl rfl, .inl hhigh, .inl hlow, by omega⟩

theorem isChars_escaped (c : UInt8) (ht : IsChars t s) : IsChars (escaped c ++ t) (c :: s) := by
  cases hc : needsEscape c with
  | false =>
      rw [escaped_of_plain hc]
      simp only [needsEscape, Bool.or_eq_false_iff, decide_eq_false_iff_not] at hc
      exact .unescaped ⟨UInt8.not_lt.mp hc.1.1, hc.1.2, hc.2⟩ ht
  | true =>
      rw [escaped, if_pos hc, appendEscape]
      split_ifs with h1 h2 h3 h4 h5 h6 h7
      · subst h1
        exact .escaped (by decide) ht
      · subst h2
        exact .escaped (by decide) ht
      · subst h3
        exact .escaped (by decide) ht
      · subst h4
        exact .escaped (by decide) ht
      · subst h5
        exact .escaped (by decide) ht
      · subst h6
        exact .escaped (by decide) ht
      · subst h7
        exact .escaped (by decide) ht
      · have hcontrol : c < 0x20 := by simpa [needsEscape, h1, h2] using hc
        obtain ⟨hu, hutf8⟩ := isUnicode_control (n := c.toNat) hcontrol
        rw [UInt8.ofNat_toNat] at hu hutf8
        have h := IsChars.unicode hu ht
        rw [hutf8] at h
        exact h

theorem isChars_escapedText (l : Bytes) : IsChars (escapedText l) l := by
  induction l with
  | nil => exact .nil
  | cons c l ih =>
      rw [escapedText_cons]
      exact isChars_escaped c ih

/-- A quoted text is a string of the grammar. -/
theorem isString_buildQuoted (l : Bytes) : IsString (buildQuoted l) l := by
  rw [buildQuoted_eq]
  exact .mk (isChars_escapedText l)

/-! ### Words -/

theorem control_toNat (word : BitVec 64) :
    ((word - 0x20#64 * 0x0101010101010101#64) &&& ~~~word &&& 0x8080808080808080#64).toNat =
      lessMask 8 0x20 word.toNat := by
  unfold lessMask
  rw [BitVec.toNat_and, BitVec.toNat_and, BitVec.toNat_sub, BitVec.toNat_not, Nat.add_comm]
  rfl

/-- The test of a word looks for bytes that need an escape. -/
theorem wordNeedsEscape_readLe (hl : l.length = 8) :
    wordNeedsEscape (BitVec.ofNat 64 (readLe l)) = l.any needsEscape := by
  have hlt : readLe l < 2 ^ 64 := by
    have := readLe_lt l
    rwa [hl] at this
  have hxor (d : UInt8) (w : BitVec 64) (hw : w.toNat = repeatByte 8 d.toNat) :
      hasZero (BitVec.ofNat 64 (readLe l) ^^^ w) = 0 ↔ ∀ b ∈ l, b ≠ d := by
    have h := lessMask_eq_zero_iff (l := l.map (· ^^^ d)) (c := 1) (by omega) (by omega)
    rw [List.length_map, hl] at h
    rw [← BitVec.toNat_inj, hasZero_toNat, BitVec.toNat_xor, BitVec.toNat_ofNat, Nat.mod_eq_of_lt hlt, hw, ← hl,
      ← readLe_map_xor, hl]
    refine h.trans ?_
    rw [List.forall_mem_map]
    exact forall₂_congr fun b _ => by rw [ne_eq, ← xor_toNat_lt_one b d]; omega
  have hcontrol : (BitVec.ofNat 64 (readLe l) - 0x20#64 * 0x0101010101010101#64) &&& ~~~BitVec.ofNat 64 (readLe l) &&&
      0x8080808080808080#64 = 0 ↔ ∀ b ∈ l, ¬b < 0x20 := by
    have h := lessMask_eq_zero_iff (l := l) (c := 0x20) (by omega) (by omega)
    rw [hl] at h
    rw [← BitVec.toNat_inj, control_toNat, BitVec.toNat_ofNat, Nat.mod_eq_of_lt hlt]
    refine h.trans (forall₂_congr fun b _ => ?_)
    exact Nat.not_lt.symm
  have hor (v w : BitVec 64) : v ||| w = 0 ↔ v = 0 ∧ w = 0 := BitVec.or_eq_zero_iff
  rw [Bool.eq_iff_iff, wordNeedsEscape, decide_eq_true_iff, ne_eq, hor, hor, hcontrol, hxor 0x22 _ rfl, hxor 0x5C _ rfl,
    List.any_eq_true]
  simp only [needsEscape, Bool.or_eq_true, decide_eq_true_eq]
  constructor
  · intro h
    by_contra hnot
    have hall {b : UInt8} (hb : b ∈ l) {p : Prop} (hp : p → (b < 0x20 ∨ b = 0x22) ∨ b = 0x5C) : ¬p :=
      fun h => hnot ⟨b, hb, hp h⟩
    exact h ⟨⟨fun b hb => hall hb fun h => .inl (.inl h), fun b hb => hall hb fun h => .inl (.inr h)⟩,
      fun b hb => hall hb .inr⟩
  · rintro ⟨b, hb, (h | h) | h⟩ ⟨⟨h1, h2⟩, h3⟩
    · exact h1 b hb h
    · exact h2 b hb h
    · exact h3 b hb h

/-! ### Long strings -/

/-- The loop over words passes plain bytes only. -/
theorem skipWords_spec (n : ℕ) (cursor : Bytes) :
    ∃ q r, cursor = q ++ r ∧ (∀ c ∈ q, needsEscape c = false) ∧ skipWords n cursor = .ok r := by
  have hstay (cursor : Bytes) : ∃ q r, cursor = q ++ r ∧ (∀ c ∈ q, needsEscape c = false) ∧
      (.ok cursor : Except Failure Bytes) = .ok r := ⟨[], cursor, rfl, by simp, rfl⟩
  induction n generalizing cursor with
  | zero => exact hstay cursor
  | succ n ih =>
      unfold skipWords
      by_cases hlen : 8 ≤ cursor.length
      · have htake : (cursor.take 8).length = 8 := by rw [List.length_take]; omega
        simp only [if_pos hlen, readWord, bind, Except.bind, wordNeedsEscape_readLe htake, advance]
        split
        · exact hstay cursor
        · next hplain =>
          obtain ⟨q, r, hcursor, hq, hskip⟩ := ih (cursor.drop 8)
          refine ⟨cursor.take 8 ++ q, r, by rw [List.append_assoc, ← hcursor, List.take_append_drop], ?_, hskip⟩
          intro c hc
          rcases List.mem_append.mp hc with hc | hc
          · exact Bool.eq_false_iff.mpr fun h => hplain (List.any_eq_true.mpr ⟨c, hc, h⟩)
          · exact hq c hc
      · rw [if_neg hlen]
        exact hstay cursor

/-- Where a turn of `append_escaped` stands after the plain bytes. -/
theorem seekEscape_spec (cursor : Bytes) :
    ∃ q r, cursor = q ++ r ∧ (∀ c ∈ q, needsEscape c = false) ∧
      (if 8 ≤ cursor.length then cursor.dropWhile (!needsEscape ·) else cursor) = r := by
  split
  · refine ⟨cursor.takeWhile (!needsEscape ·), _, List.takeWhile_append_dropWhile.symm, fun c hc => ?_, rfl⟩
    simpa using List.all_eq_true.mp List.all_takeWhile c hc
  · exact ⟨[], cursor, rfl, by simp, rfl⟩

theorem escapeLoop_eq (p cursor : Bytes) (hp : ∀ c ∈ p, needsEscape c = false) (hn : cursor.length < n) :
    escapeLoop n (p ++ cursor) cursor = .ok (escapedText (p ++ cursor)) := by
  induction n generalizing p cursor with
  | zero => omega
  | succ n ih =>
      obtain ⟨q, r, hqr, hq, hskip⟩ := skipWords_spec cursor.length cursor
      obtain ⟨q', r', hqr', hq', hseek⟩ := seekEscape_spec r
      have hplain : ∀ c ∈ p ++ (q ++ q'), needsEscape c = false := by
        intro c hc
        rcases List.mem_append.mp hc with hc | hc
        · exact hp c hc
        · exact (List.mem_append.mp hc).elim (hq c) (hq' c)
      have hrun : p ++ cursor = p ++ (q ++ q') ++ r' := by rw [hqr, hqr']; simp
      unfold escapeLoop
      simp only [hskip, bind, Except.bind, hseek]
      cases r' with
      | nil =>
          rw [hrun, List.append_nil, escapedText_plain hplain]
      | cons c rest =>
          have hlen : rest.length < n := by
            have := congrArg List.length hrun
            simp at this
            omega
          dsimp only
          cases hc : needsEscape c with
          | false =>
              have hone : p ++ cursor = p ++ (q ++ q') ++ [c] ++ rest := by rw [hrun]; simp
              rw [Bool.not_false, if_pos rfl, hone]
              refine ih _ rest (fun d hd => ?_) hlen
              rcases List.mem_append.mp hd with hd | hd
              · exact hplain d hd
              · rw [List.mem_singleton.mp hd, hc]
          | true =>
              have hrest : escapeLoop n rest rest = .ok (escapedText rest) := ih [] rest (by simp) hlen
              have htake : (p ++ cursor).take ((p ++ cursor).length - (c :: rest).length) = p ++ (q ++ q') := by
                rw [hrun]
                exact List.take_left' (by simp only [List.length_append]; omega)
              simp only [Bool.not_true, Bool.false_eq_true, if_false, hrest, htake]
              rw [hrun, escapedText_append, escapedText_plain hplain, escapedText_cons, escaped, if_pos hc]

theorem length_escaped (c : UInt8) : (escaped c).length ≤ 6 := by
  unfold escaped appendEscape
  split_ifs <;> simp

theorem length_escapedText (l : Bytes) : (escapedText l).length ≤ 6 * l.length := by
  induction l with
  | nil => simp [escapedText]
  | cons c l ih =>
      have := length_escaped c
      rw [escapedText_cons, List.length_append, List.length_cons]
      omega

theorem length_buildQuoted (l : Bytes) : (buildQuoted l).length ≤ 6 * l.length + 2 := by
  have := length_escapedText l
  rw [buildQuoted_eq, List.length_cons, List.length_append, List.length_singleton]
  omega

theorem scratch_of_le {capacity : ℕ} (h : l.length ≤ capacity) : scratch capacity l = .ok l := if_pos h

/-- Both paths of `append_escaped` quote the text. -/
theorem appendEscaped_eq (l : Bytes) : appendEscaped l = .ok (buildQuoted l) := by
  unfold appendEscaped
  split
  · next hshort =>
    have := length_buildQuoted l
    unfold shortStringLimit at hshort
    exact scratch_of_le (by unfold shortStringScratch; omega)
  · have h := escapeLoop_eq [] l (by simp) (Nat.lt_succ_self l.length)
    rw [List.nil_append] at h
    rw [h]
    rfl

/-! ### Keys -/

theorem readLe_append (l l' : Bytes) : readLe (l ++ l') = readLe l + 256 ^ l.length * readLe l' := by
  induction l with
  | nil => simp [readLe]
  | cons b l ih =>
      rw [List.cons_append, readLe, readLe, ih, List.length_cons, Nat.pow_succ]
      ring

/-- The probe of an inlined key: its bytes, and the letter x in place of the others. -/
theorem probe_eq (word : BitVec 64) (hl : l.length ≤ 8) (hword : word.toNat % 256 ^ l.length = readLe l) :
    (let mask := if l.length = 8 then ~~~0#64 else 1#64 <<< (l.length * 8) - 1
     word &&& mask ||| ~~~mask &&& 0x7878787878787878#64) =
      BitVec.ofNat 64 (readLe (l ++ List.replicate (8 - l.length) 0x78)) := by
  have hmask : ∀ k ≤ 8, (if k = 8 then ~~~0#64 else 1#64 <<< (k * 8) - 1).toNat = 2 ^ (8 * k) - 1 ∧
      (~~~(if k = 8 then ~~~0#64 else 1#64 <<< (k * 8) - 1) &&& 0x7878787878787878#64).toNat =
        2 ^ (8 * k) * readLe (List.replicate (8 - k) 0x78) := by decide
  obtain ⟨h1, h2⟩ := hmask l.length hl
  have hpow : 256 ^ l.length = 2 ^ (8 * l.length) := by rw [Nat.pow_mul]
  have hfull : readLe (l ++ List.replicate (8 - l.length) 0x78) < 2 ^ 64 := by
    have := readLe_lt (l ++ List.replicate (8 - l.length) 0x78)
    rwa [List.length_append, List.length_replicate, Nat.add_sub_cancel' hl] at this
  have hlt := readLe_lt l
  apply BitVec.eq_of_toNat_eq
  rw [BitVec.toNat_ofNat, Nat.mod_eq_of_lt hfull]
  dsimp only
  rw [BitVec.toNat_or, h2, BitVec.toNat_and, h1, Nat.and_two_pow_sub_one_eq_mod, ← hpow, hword, readLe_append, hpow,
    Nat.lor_comm, ← Nat.two_pow_add_eq_or_of_lt (hpow ▸ hlt), Nat.add_comm]

end NeForce.Json

/-! ## Words against bytes

The tests of eight bytes at once find the first special byte of every word, so that the scan of a string and the loop of
`append_escaped` stop where a scan of every byte stops, from any offset. -/

namespace NeForce.Json

/-- The bytes of a word in memory, the lowest one first. -/
def wordBytes (word : BitVec 64) : Bytes := (List.range 8).map fun i => UInt8.ofNat (word.toNat >>> (8 * i))

/-- Where the loop of `append_escaped` stops for an escape: what is left there, at most `n` times. -/
def escapeStops : ℕ → Bytes → Except Failure (List Bytes)
  | 0, _ => .error .fuel
  | n + 1, cursor => do
      let cursor ← skipWords cursor.length cursor
      let cursor := if 8 ≤ cursor.length then cursor.dropWhile (!needsEscape ·) else cursor
      match cursor with
      | [] => .ok []
      | c :: rest =>
          if !needsEscape c then escapeStops n rest
          else
            let stops ← escapeStops n rest
            .ok ((c :: rest) :: stops)

/-- The same for a scan of every byte. -/
def byteStops : Bytes → List Bytes
  | [] => []
  | c :: rest => if needsEscape c then (c :: rest) :: byteStops rest else byteStops rest

variable {l : Bytes}

theorem readLe_digits (n v : ℕ) : readLe ((List.range n).map fun i => UInt8.ofNat (v >>> (8 * i))) = v % 256 ^ n := by
  induction n generalizing v with
  | zero => simp [readLe, Nat.mod_one]
  | succ n ih =>
      have hshift : (List.map (fun i => UInt8.ofNat (v >>> (8 * i))) ((List.range n).map Nat.succ)) =
          (List.range n).map fun i => UInt8.ofNat ((v >>> 8) >>> (8 * i)) := by
        rw [List.map_map]
        refine List.map_congr_left fun i _ => ?_
        rw [Function.comp_apply, ← Nat.shiftRight_add, Nat.succ_eq_add_one, Nat.mul_succ, Nat.add_comm]
      rw [List.range_succ_eq_map, List.map_cons, hshift, readLe, ih, Nat.mul_zero, Nat.shiftRight_zero, UInt8.toNat_ofNat',
        Nat.shiftRight_eq_div_pow, show 256 ^ (n + 1) = 256 * 256 ^ n from Nat.pow_succ', Nat.mod_mul]

theorem readLe_wordBytes (word : BitVec 64) : BitVec.ofNat 64 (readLe (wordBytes word)) = word := by
  rw [wordBytes, readLe_digits, show 256 ^ 8 = 2 ^ 64 from rfl, Nat.mod_eq_of_lt word.isLt, BitVec.ofNat_toNat,
    BitVec.setWidth_eq]

theorem length_wordBytes (word : BitVec 64) : (wordBytes word).length = 8 := by
  rw [wordBytes, List.length_map, List.length_range]

theorem needsEscape_eq (c : UInt8) : needsEscape c = isSpecial c := by
  unfold needsEscape isSpecial
  rw [Bool.or_assoc, Bool.or_comm]

theorem byteStops_append (hl : ∀ c ∈ l, needsEscape c = false) (cursor : Bytes) :
    byteStops (l ++ cursor) = byteStops cursor := by
  induction l with
  | nil => rfl
  | cons c l ih =>
      rw [List.cons_append, byteStops, hl c List.mem_cons_self, if_neg Bool.false_ne_true]
      exact ih fun d hd => hl d (List.mem_cons_of_mem _ hd)

theorem escapeStops_eq {n : ℕ} {cursor : Bytes} (hn : cursor.length < n) : escapeStops n cursor = .ok (byteStops cursor) := by
  induction n generalizing cursor with
  | zero => omega
  | succ n ih =>
      obtain ⟨q, r, hqr, hq, hskip⟩ := skipWords_spec cursor.length cursor
      obtain ⟨q', r', hqr', hq', hseek⟩ := seekEscape_spec r
      have hstops : byteStops cursor = byteStops r' := by
        rw [hqr, byteStops_append hq, hqr', byteStops_append hq']
      unfold escapeStops
      simp only [hskip, bind, Except.bind, hseek, hstops]
      cases r' with
      | nil => rfl
      | cons c rest =>
          have hlen : rest.length < n := by
            rw [hqr, hqr'] at hn
            simp only [List.length_append, List.length_cons] at hn
            omega
          dsimp only
          rw [byteStops, ih hlen]
          cases needsEscape c <;> rfl

/-- The masks of a word, and the scans that use them. -/
theorem word_scans_exact :
    (∀ word, specialMask word = 0 ↔ ∀ b ∈ wordBytes word, isSpecial b = false) ∧
      (∀ word, specialMask word ≠ 0 → ∃ b, (wordBytes word)[countrZero (specialMask word).toNat >>> 3]? = some b ∧
        isSpecial b = true ∧
          ∀ d ∈ (wordBytes word).take (countrZero (specialMask word).toNat >>> 3), isSpecial d = false) ∧
      (∀ word, wordNeedsEscape word = (wordBytes word).any isSpecial) ∧
      (∀ cursor escaped, scanLoop (cursor.length + 1) cursor escaped = .ok (scanChars cursor escaped)) ∧
      (∀ cursor, escapeStops (cursor.length + 1) cursor = .ok (byteStops cursor)) ∧
      ∀ text, appendEscaped text = .ok (buildQuoted text) := by
  refine ⟨fun word => ?_, fun word hne => ?_, fun word => ?_, fun cursor escaped => ?_, fun cursor => ?_, appendEscaped_eq⟩
  · have hspec := specialMask_spec (length_wordBytes word)
    rw [readLe_wordBytes] at hspec
    rcases hspec with ⟨hzero, hall⟩ | ⟨k, -, hne, -, -, b, hb, hspecial⟩
    · exact iff_of_true hzero hall
    · refine iff_of_false hne fun hall => ?_
      have := hall b (List.mem_of_getElem? hb)
      rw [this] at hspecial
      exact Bool.false_ne_true hspecial
  · have hspec := specialMask_spec (length_wordBytes word)
    rw [readLe_wordBytes] at hspec
    rcases hspec with ⟨hzero, -⟩ | ⟨k, -, -, rfl, hbefore, b, hb, hspecial⟩
    · exact absurd hzero hne
    · exact ⟨b, hb, hspecial, hbefore⟩
  · have h := wordNeedsEscape_readLe (length_wordBytes word)
    rw [readLe_wordBytes] at h
    rw [h]
    exact congrArg (wordBytes word).any (funext needsEscape_eq)
  · exact scanLoop_eq (Nat.lt_succ_self _) escaped
  · exact escapeStops_eq (Nat.lt_succ_self _)

end NeForce.Json
