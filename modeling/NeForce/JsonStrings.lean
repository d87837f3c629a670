import Mathlib
import NeForce.JsonGrammar
import NeForce.JsonParser
import NeForce.Outcomes

/-! # Strings of the JSON parser

`scan_string` looks at eight bytes at once; it finds the same quote as a scan of every byte (`scanLoop_eq`).  What
lies before the quote is decoded to the string that the grammar derives, or refused (`decodeLoop_sound`,
`decodeLoop_complete`). -/

namespace NeForce.Json

/-- The errors of the parser that its callers see. -/
def Failure.IsException (e : Failure) : Prop := ∃ info, e = .exception info

theorem Failure.isException (info : String) : (Failure.exception info).IsException := ⟨info, rfl⟩

variable {l t s rest cursor finish : Bytes} {c : UInt8} {e e' : Bool} {n k : ℕ}

@[simp] theorem readAt_cons_zero : readAt (c :: l) 0 = .ok c := rfl

@[simp] theorem readAt_cons_succ : readAt (c :: l) (k + 1) = readAt l k := rfl

@[simp] theorem advance_zero : advance 0 l = .ok l := rfl

@[simp] theorem advance_cons_succ : advance (k + 1) (c :: l) = advance k l := by
  simp [advance]

theorem advance_append (l rest : Bytes) : advance l.length (l ++ rest) = .ok rest := by
  rw [advance, if_pos (by simp), List.drop_left]

/-! ### Words -/

def isSpecial (c : UInt8) : Bool := c = 0x22 || c = 0x5C || c < 0x20

theorem hasZero_toNat (value : BitVec 64) : (hasZero value).toNat = lessMask 8 1 value.toNat := by
  unfold hasZero lessMask
  rw [BitVec.toNat_and, BitVec.toNat_and, BitVec.toNat_sub, BitVec.toNat_not, Nat.add_comm]
  rfl

theorem forall_uint8 {p : UInt8 → Prop} (h : ∀ n < 256, p (UInt8.ofNat n)) (c : UInt8) : p c := by
  have := h c.toNat c.toNat_lt
  rwa [UInt8.ofNat_toNat] at this

theorem xor_toNat_lt_one (c d : UInt8) : (c ^^^ d).toNat < 1 ↔ c = d := by
  rw [Nat.lt_one_iff, UInt8.toNat_xor, Nat.xor_eq_zero_iff, UInt8.toNat_inj]

set_option maxRecDepth 2000 in
theorem and_toNat_lt_one (c : UInt8) : (c &&& 0xE0).toNat < 1 ↔ c < 0x20 := by
  have h : ∀ n < 256, (UInt8.ofNat n &&& 0xE0).toNat < 1 ↔ UInt8.ofNat n < 0x20 := by decide
  exact forall_uint8 (p := fun c => (c &&& 0xE0).toNat < 1 ↔ c < 0x20) h c

/-- The three tests of a word. -/
theorem specialMask_toNat (hl : l.length = 8) :
    (specialMask (BitVec.ofNat 64 (readLe l))).toNat =
      lessMask 8 1 (readLe (l.map (· ^^^ 0x22))) ||| lessMask 8 1 (readLe (l.map (· ^^^ 0x5C))) |||
        lessMask 8 1 (readLe (l.map (· &&& 0xE0))) := by
  have hlt : readLe l < 2 ^ 64 := by
    have := readLe_lt l
    rwa [hl] at this
  unfold specialMask
  rw [BitVec.toNat_or, BitVec.toNat_or, hasZero_toNat, hasZero_toNat, hasZero_toNat, BitVec.toNat_xor, BitVec.toNat_xor,
    BitVec.toNat_and, BitVec.toNat_ofNat, Nat.mod_eq_of_lt hlt, readLe_map_xor, readLe_map_xor, readLe_map_and, hl]
  rfl

/-- Words without special bytes pass the test; in the others it finds the first of them. -/
theorem specialMask_spec (hl : l.length = 8) :
    (specialMask (BitVec.ofNat 64 (readLe l)) = 0 ∧ ∀ b ∈ l, isSpecial b = false) ∨
      ∃ k < 8, specialMask (BitVec.ofNat 64 (readLe l)) ≠ 0 ∧
        countrZero (specialMask (BitVec.ofNat 64 (readLe l))).toNat >>> 3 = k ∧ (∀ b ∈ l.take k, isSpecial b = false) ∧
        ∃ b, l[k]? = some b ∧ isSpecial b = true := by
  have hmask := specialMask_toNat hl
  have hnot {b : UInt8} (hb : isSpecial b = false) :
      1 ≤ (b ^^^ 0x22).toNat ∧ 1 ≤ (b ^^^ 0x5C).toNat ∧ 1 ≤ (b &&& 0xE0).toNat := by
    simp only [isSpecial, Bool.or_eq_false_iff, decide_eq_false_iff_not] at hb
    refine ⟨?_, ?_, ?_⟩
    · exact Nat.not_lt.mp fun h => hb.1.1 ((xor_toNat_lt_one b 0x22).mp h)
    · exact Nat.not_lt.mp fun h => hb.1.2 ((xor_toNat_lt_one b 0x5C).mp h)
    · exact Nat.not_lt.mp fun h => hb.2 ((and_toNat_lt_one b).mp h)
  -- Before the first special byte no bit is set, in none of the three tests.
  have hbefore {k j : ℕ} (hk : ∀ b ∈ l.take k, isSpecial b = false) (hj : j < 8 * k + 7) :
      (specialMask (BitVec.ofNat 64 (readLe l))).toNat.testBit j = false := by
    have hmap (f : UInt8 → UInt8) (hf : ∀ b, isSpecial b = false → 1 ≤ (f b).toNat) :
        (lessMask 8 1 (readLe (l.map f))).testBit j = false := by
      have h := testBit_lessMask_before (l := l.map f) (k := k) (j := j) (c := 1) (by omega) (by omega)
        (by
          rw [← List.map_take]
          intro d hd
          obtain ⟨b, hb, rfl⟩ := List.mem_map.mp hd
          exact hf b (hk b hb)) hj
      rwa [List.length_map, hl] at h
    rw [hmask, Nat.testBit_or, Nat.testBit_or, hmap _ fun b hb => (hnot hb).1, hmap _ fun b hb => (hnot hb).2.1,
      hmap _ fun b hb => (hnot hb).2.2]
    rfl
  by_cases hex : ∃ b ∈ l, isSpecial b = true
  · obtain ⟨k, b, hk, hb, hp⟩ := exists_first hex
    have hk8 : k < 8 := hl ▸ (List.getElem?_eq_some_iff.mp hb).1
    have hmap (f : UInt8 → UInt8) (hf : ∀ b, isSpecial b = false → 1 ≤ (f b).toNat) (hfb : (f b).toNat < 1) :
        (lessMask 8 1 (readLe (l.map f))).testBit (8 * k + 7) = true := by
      have h := testBit_lessMask (l := l.map f) (k := k) (b := f b) (c := 1) (by omega) (by omega)
        (by
          rw [← List.map_take]
          intro d hd
          obtain ⟨b, hb, rfl⟩ := List.mem_map.mp hd
          exact hf b (hk b hb)) (by rw [List.getElem?_map, hb]; rfl) hfb
      rwa [List.length_map, hl] at h
    have hbit : (specialMask (BitVec.ofNat 64 (readLe l))).toNat.testBit (8 * k + 7) = true := by
      rw [hmask, Nat.testBit_or, Nat.testBit_or]
      simp only [isSpecial, Bool.or_eq_true, decide_eq_true_eq] at hp
      rcases hp with (hquote | hslash) | hcontrol
      · rw [hmap _ (fun b hb => (hnot hb).1) ((xor_toNat_lt_one b 0x22).mpr hquote)]
        rfl
      · rw [hmap _ (fun b hb => (hnot hb).2.1) ((xor_toNat_lt_one b 0x5C).mpr hslash), Bool.or_true]
        rfl
      · rw [hmap _ (fun b hb => (hnot hb).2.2) ((and_toNat_lt_one b).mpr hcontrol), Bool.or_true]
    have hne : specialMask (BitVec.ofNat 64 (readLe l)) ≠ 0 := by
      intro hzero
      rw [hzero] at hbit
      simp at hbit
    refine .inr ⟨k, hk8, hne, ?_, hk, b, hb, hp⟩
    rw [countrZero_eq (by omega) hbit fun j hj => hbefore hk hj, Nat.shiftRight_eq_div_pow]
    omega
  · have hall : ∀ b ∈ l, isSpecial b = false := fun b hb => Bool.eq_false_iff.mpr fun h => hex ⟨b, hb, h⟩
    refine .inl ⟨BitVec.eq_of_toNat_eq (Nat.eq_of_testBit_eq fun j => ?_), hall⟩
    rw [hbefore (k := j) (fun b hb => hall b (List.mem_of_mem_take hb)) (by omega)]
    simp

/-! ### The scan -/

/-- What a turn of the scan passes over holds nothing special. -/
inductive Seeks : Bytes → Seek → Prop
  | finished : Seeks [] .finished
  | word {p r : Bytes} (hp : ∀ b ∈ p, isSpecial b = false) (hne : p ≠ []) : Seeks (p ++ r) (.word r)
  | char {p r : Bytes} {c : UInt8} (hp : ∀ b ∈ p, isSpecial b = false) : Seeks (p ++ c :: r) (.char (c :: r))

theorem seek_spec (cursor : Bytes) : ∃ s, seek cursor = .ok s ∧ Seeks cursor s := by
  unfold seek
  split
  · next hlen =>
    have htake : (cursor.take 8).length = 8 := by rw [List.length_take]; omega
    have hread : readWord cursor = .ok (BitVec.ofNat 64 (readLe (cursor.take 8))) := if_pos hlen
    have hadvance {k : ℕ} (hk : k ≤ 8) : advance k cursor = .ok (cursor.drop k) := if_pos (by omega)
    simp only [hread, bind, Except.bind]
    rcases specialMask_spec htake with ⟨hzero, hall⟩ | ⟨k, hk, hne, hcount, hall, -⟩
    · rw [if_pos hzero, hadvance (Nat.le_refl 8)]
      refine ⟨_, rfl, ?_⟩
      have h := Seeks.word (r := cursor.drop 8) hall (by rintro h; rw [h] at htake; cases htake)
      rwa [List.take_append_drop] at h
    · rw [if_neg hne, hcount, hadvance (by omega)]
      refine ⟨_, rfl, ?_⟩
      rw [List.take_take, Nat.min_eq_left (by omega)] at hall
      have hk' : k < cursor.length := by omega
      have h := Seeks.char (c := cursor[k]) (r := cursor.drop (k + 1)) hall
      rw [← List.drop_eq_getElem_cons hk', List.take_append_drop] at h
      exact h
  · split
    · next hnil => exact ⟨_, rfl, hnil ▸ .finished⟩
    · next hne =>
      obtain ⟨c, cursor, rfl⟩ := List.exists_cons_of_ne_nil hne
      exact ⟨_, rfl, Seeks.char (p := []) (by simp)⟩

/-- The scan of every byte. -/
def scanChars : Bytes → Bool → ScanStatus × Bytes × Bool
  | [], e => (.unterminated, [], e)
  | c :: l, e =>
      if c = 0x22 then (.ok, c :: l, e)
      else if c = 0x5C then
        match l with
        | [] => (.unterminated, [], true)
        | _ :: l => scanChars l true
      else if c < 0x20 then (.controlCharacter, c :: l, e)
      else scanChars l e

theorem scanChars_append (hl : ∀ b ∈ l, isSpecial b = false) (cursor : Bytes) (e : Bool) :
    scanChars (l ++ cursor) e = scanChars cursor e := by
  induction l with
  | nil => rfl
  | cons b l ih =>
      have hb := hl b List.mem_cons_self
      simp only [isSpecial, Bool.or_eq_false_iff, decide_eq_false_iff_not] at hb
      rw [List.cons_append, scanChars.eq_def]
      simp only [hb, if_false]
      exact ih fun d hd => hl d (List.mem_cons_of_mem _ hd)

theorem scanLoop_eq (hn : cursor.length < n) (e : Bool) : scanLoop n cursor e = .ok (scanChars cursor e) := by
  induction n generalizing cursor e with
  | zero => omega
  | succ n ih =>
      obtain ⟨s, hs, hseeks⟩ := seek_spec cursor
      unfold scanLoop
      simp only [hs, bind, Except.bind]
      cases hseeks with
      | finished => rfl
      | @word l cursor hl hne =>
          have hpos := List.length_pos_of_ne_nil hne
          rw [List.length_append] at hn
          rw [scanChars_append hl]
          exact ih (by omega) e
      | @char l cursor c hl =>
          rw [List.length_append, List.length_cons] at hn
          rw [scanChars_append hl, scanChars.eq_def]
          simp only [readAt_cons_zero, advance_cons_succ, advance_zero]
          split
          · rfl
          · split
            · cases cursor with
              | nil => exact ih (by simp at hn ⊢; omega) true
              | cons d cursor => exact ih (by simp at hn ⊢; omega) true
            · split
              · rfl
              · exact ih (by omega) e

/-- A text that a scan passes over, escapes included. -/
inductive IsRaw : Bytes → Prop
  | nil : IsRaw []
  | plain {c : UInt8} {t : Bytes} (hc : isSpecial c = false) (ht : IsRaw t) : IsRaw (c :: t)
  | escape {c : UInt8} {t : Bytes} (ht : IsRaw t) : IsRaw (0x5C :: c :: t)

def hasEscape (t : Bytes) : Bool := t.contains 0x5C

theorem isSpecial_eq_false_iff : isSpecial c = false ↔ c ≠ 0x22 ∧ c ≠ 0x5C ∧ ¬c < 0x20 := by
  simp only [isSpecial, Bool.or_eq_false_iff, decide_eq_false_iff_not, and_assoc, ne_eq]

theorem hasEscape_plain (hc : isSpecial c = false) : hasEscape (c :: t) = hasEscape t := by
  have := (isSpecial_eq_false_iff.mp hc).2.1
  simp [hasEscape, Ne.symm this]

/-- A scan finds the quote behind a text that it passes over. -/
theorem IsRaw.scanChars (ht : IsRaw t) (rest : Bytes) (e : Bool) :
    scanChars (t ++ 0x22 :: rest) e = (.ok, 0x22 :: rest, e || hasEscape t) := by
  induction ht generalizing e with
  | nil =>
      rw [List.nil_append, Json.scanChars.eq_def]
      simp [hasEscape]
  | @plain c t hc ht ih =>
      have h := scanChars_append (l := [c]) (by simpa using hc) (t ++ 0x22 :: rest) e
      rw [List.cons_append, hasEscape_plain hc, ← ih]
      exact h
  | @escape c t ht ih =>
      rw [List.cons_append, List.cons_append, Json.scanChars.eq_def]
      simp only [show (0x5C : UInt8) ≠ 0x22 by decide, if_false, if_true, ih]
      simp [hasEscape]

theorem scanChars_ok (h : scanChars cursor e = (.ok, finish, e')) :
    ∃ t rest, IsRaw t ∧ cursor = t ++ 0x22 :: rest ∧ finish = 0x22 :: rest ∧ e' = (e || hasEscape t) := by
  fun_induction scanChars cursor e with
  | case1 e => cases h
  | case2 l e =>
      obtain ⟨rfl, rfl⟩ : 0x22 :: l = finish ∧ e = e' := by simpa using h
      exact ⟨[], l, .nil, rfl, rfl, by simp [hasEscape]⟩
  | case3 => cases h
  | case4 e d l _ ih =>
      obtain ⟨t, rest, ht, rfl, hfinish, he⟩ := ih h
      exact ⟨0x5C :: d :: t, rest, .escape ht, rfl, hfinish, by simp [he, hasEscape]⟩
  | case5 => cases h
  | case6 c l e h1 h2 h3 ih =>
      obtain ⟨t, rest, ht, rfl, hfinish, he⟩ := ih h
      have hc : isSpecial c = false := isSpecial_eq_false_iff.mpr ⟨h1, h2, h3⟩
      exact ⟨c :: t, rest, .plain hc ht, rfl, hfinish, by rw [he, hasEscape_plain hc]⟩

theorem scanString_raw (ht : IsRaw t) (rest : Bytes) :
    scanString (0x22 :: (t ++ 0x22 :: rest)) = .ok ⟨t, hasEscape t, rest⟩ := by
  unfold scanString
  simp only [advance_cons_succ, advance_zero, bind, Except.bind]
  rw [scanLoop_eq (Nat.lt_succ_self _), ht.scanChars]
  simp

theorem scanString_spec (c : UInt8) (cursor : Bytes) :
    Ensures Failure.IsException (scanString (c :: cursor)) fun scan =>
      IsRaw scan.text ∧ cursor = scan.text ++ 0x22 :: scan.cursor ∧ scan.escaped = hasEscape scan.text := by
  unfold scanString
  simp only [advance_cons_succ, advance_zero, bind, Except.bind]
  rw [scanLoop_eq (Nat.lt_succ_self _)]
  rcases hscan : scanChars cursor false with ⟨status, finish, e⟩
  cases status with
  | ok =>
      obtain ⟨t, rest, ht, rfl, rfl, rfl⟩ := scanChars_ok hscan
      simp only [advance_cons_succ, advance_zero, List.length_append, List.length_cons, Nat.add_sub_cancel, List.take_left]
      exact ⟨ht, rfl, Bool.false_or _⟩
  | controlCharacter => exact Failure.isException _
  | unterminated => exact Failure.isException _

/-! ### Escapes -/

instance (c : UInt8) (n : ℕ) : Decidable (IsHex c n) := inferInstanceAs (Decidable (_ ∨ _))

theorem IsHex.value (h : IsHex c n) : hexValue c = n ∧ n < 16 := by
  have hlower : ∀ m : Fin 16, hexValue ((ascii "0123456789abcdef").get m) = m := by decide
  have hupper : ∀ m : Fin 16, hexValue ((ascii "0123456789ABCDEF").get m) = m := by decide
  rcases h with h | h
  · obtain ⟨hn, rfl⟩ := List.getElem?_eq_some_iff.mp h
    exact ⟨hlower ⟨n, hn⟩, hn⟩
  · obtain ⟨hn, rfl⟩ := List.getElem?_eq_some_iff.mp h
    exact ⟨hupper ⟨n, hn⟩, hn⟩

theorem isHex_hexValue (h : ¬hexValue c < 0) : IsHex c (hexValue c).toNat := by
  have hall : ∀ n < 256, ¬hexValue (UInt8.ofNat n) < 0 → IsHex (UInt8.ofNat n) (hexValue (UInt8.ofNat n)).toNat := by
    set_option maxRecDepth 8000 in
    decide
  exact forall_uint8 (p := fun c => ¬hexValue c < 0 → IsHex c (hexValue c).toNat) hall c h

theorem shift_or_hex (hn : n < 16) (code : ℕ) : code <<< 4 ||| n = 16 * code + n := by
  rw [Nat.shiftLeft_eq, Nat.mul_comm]
  exact (Nat.two_pow_add_eq_or_of_lt (i := 4) hn code).symm

theorem hexDigits_cons (n k code : ℕ) : hexDigits (c :: cursor) n (k + 1) code = hexDigits cursor n k code := by
  induction n generalizing k code with
  | zero => rfl
  | succ n ih => simp only [hexDigits, readAt_cons_succ, ih]

theorem hexDigits_hex (hx : IsHex c k) (n code : ℕ) :
    hexDigits (c :: cursor) (n + 1) 0 code = hexDigits cursor n 0 (16 * code + k) := by
  obtain ⟨hvalue, hk⟩ := hx.value
  simp only [hexDigits, readAt_cons_zero, bind, Except.bind, hvalue, hexDigits_cons, Int.toNat_natCast, shift_or_hex hk]
  rw [if_neg (by omega)]

theorem IsHex4.read (hx : IsHex4 t n) (rest : Bytes) : hexDigits (t ++ rest) 4 0 0 = .ok n := by
  obtain ⟨a, b, c, d, i, j, k, l, rfl, ha, hb, hc, hd, rfl⟩ := hx
  simp only [List.cons_append, List.nil_append]
  rw [hexDigits_hex ha, hexDigits_hex hb, hexDigits_hex hc, hexDigits_hex hd, Nat.mul_zero, Nat.zero_add]
  rfl

theorem IsHex4.length (hx : IsHex4 t n) : t.length = 4 := by
  obtain ⟨a, b, c, d, i, j, k, l, rfl, -⟩ := hx
  rfl

theorem hexDigits_step (n code : ℕ) {P : ℕ → Prop}
    (h : ∀ k, IsHex c k → Ensures Failure.IsException (hexDigits cursor n 0 (16 * code + k)) P) :
    Ensures Failure.IsException (hexDigits (c :: cursor) (n + 1) 0 code) P := by
  by_cases hv : hexValue c < 0
  · simp only [hexDigits, readAt_cons_zero, bind, Except.bind, hv, if_true]
    exact Failure.isException _
  · have hx := isHex_hexValue hv
    rw [hexDigits_hex hx]
    exact h _ hx

theorem hexDigits_spec (hlen : 4 ≤ cursor.length) :
    Ensures Failure.IsException (hexDigits cursor 4 0 0) fun n => ∃ x rest, cursor = x ++ rest ∧ IsHex4 x n := by
  obtain ⟨a, b, c, d, rest, rfl⟩ : ∃ a b c d rest, cursor = a :: b :: c :: d :: rest := by
    match cursor, hlen with
    | a :: b :: c :: d :: rest, _ => exact ⟨a, b, c, d, rest, rfl⟩
  refine hexDigits_step _ _ fun i ha => hexDigits_step _ _ fun j hb => hexDigits_step _ _ fun k hc =>
    hexDigits_step _ _ fun l hd => ?_
  exact ⟨[a, b, c, d], rest, rfl, a, b, c, d, i, j, k, l, rfl, ha, hb, hc, hd, by ring⟩

theorem appendUtf8_eq (c : Char) : appendUtf8 c.toNat = String.utf8EncodeChar c := by
  have hor (i a b : ℕ) (hb : b < 2 ^ i) : (2 ^ i * a) ||| b = b + 2 ^ i * a := by
    rw [← Nat.two_pow_add_eq_or_of_lt hb, Nat.add_comm]
  have hlow (n : ℕ) : 0x80 ||| n &&& 0x3F = n % 0x40 + 0x80 := by
    rw [show 0x3F = 2 ^ 6 - 1 from rfl, Nat.and_two_pow_sub_one_eq_mod]
    exact hor 6 2 _ (Nat.mod_lt _ (by omega))
  have hc : c.val.toNat < 0x110000 := by
    have hvalid : c.val.toNat < 0xD800 ∨ 0xDFFF < c.val.toNat ∧ c.val.toNat < 0x110000 := c.valid
    omega
  unfold appendUtf8 String.utf8EncodeChar
  simp only [Char.toNat, hlow, Nat.shiftRight_eq_div_pow]
  split
  · rfl
  · split
    · rw [show (0xC0 : ℕ) = 2 ^ 5 * 6 from rfl, hor 5 6 _ (by omega), Nat.mod_eq_of_lt (a := _ / 64) (by omega)]
    · split
      · rw [show (0xE0 : ℕ) = 2 ^ 4 * 14 from rfl, hor 4 14 _ (by omega), Nat.mod_eq_of_lt (a := _ / 4096) (by omega)]
      · rw [show (0xF0 : ℕ) = 2 ^ 3 * 30 from rfl, hor 3 30 _ (by omega), Nat.mod_eq_of_lt (a := _ / 262144) (by omega)]

theorem Char.not_surrogate (c : Char) : ¬(0xD800 ≤ c.toNat ∧ c.toNat ≤ 0xDFFF) := by
  have hvalid : c.toNat < 0xD800 ∨ 0xDFFF < c.toNat ∧ c.toNat < 0x110000 := c.valid
  omega

theorem IsHex4.eq_concat (hx : IsHex4 t n) : ∃ a b c d, t = [a, b, c, d] := by
  obtain ⟨a, b, c, d, i, j, k, l, rfl, -⟩ := hx
  exact ⟨a, b, c, d, rfl⟩

theorem unicodeEscape_complete (hu : IsUnicode t c') (rest : Bytes) :
    ∃ d, unicodeEscape (0x75 :: (t ++ rest)) = .ok (c'.toNat, d :: rest) := by
  cases hu with
  | char hx =>
      have hsurrogate := Char.not_surrogate c'
      have hread := hx.read rest
      obtain ⟨a, b, c, d, rfl⟩ := hx.eq_concat
      simp only [List.cons_append, List.nil_append] at hread
      refine ⟨d, ?_⟩
      unfold unicodeEscape
      rw [if_neg (by simp)]
      simp only [hexDigits_cons, hread, List.cons_append, List.nil_append, advance_cons_succ, advance_zero, bind, Except.bind]
      rw [if_neg (by omega), if_neg (by omega)]
  | surrogates hx hy hhigh hlow hc =>
      have hread := hx.read
      have hread' := hy.read rest
      obtain ⟨a, b, c, d, rfl⟩ := hx.eq_concat
      obtain ⟨a', b', c'', d', rfl⟩ := hy.eq_concat
      simp only [List.cons_append, List.nil_append] at hread hread'
      refine ⟨d', ?_⟩
      unfold unicodeEscape
      rw [if_neg (by simp)]
      simp only [hexDigits_cons, hread, hread', List.cons_append, List.nil_append, advance_cons_succ, advance_zero,
        readAt_cons_succ, readAt_cons_zero, bind, Except.bind]
      rw [if_pos hhigh, if_neg (by simp), if_neg (by simp), if_neg (by simp), if_neg (by omega), hc, Nat.shiftLeft_eq]

/-- A code point that is no surrogate is a character. -/
theorem exists_char (h : n < 0xD800 ∨ 0xDFFF < n ∧ n < 0x110000) : ∃ c : Char, c.toNat = n :=
  ⟨Char.ofNatAux n h, by simp [Char.toNat, Char.ofNatAux]⟩

theorem IsHex4.lt (hx : IsHex4 t n) : n < 0x10000 := by
  obtain ⟨a, b, c, d, i, j, k, l, rfl, ha, hb, hc, hd, rfl⟩ := hx
  have := ha.value.2
  have := hb.value.2
  have := hc.value.2
  have := hd.value.2
  omega

theorem unicodeEscape_spec (e : UInt8) (cursor : Bytes) :
    Ensures Failure.IsException (unicodeEscape (e :: cursor)) fun r =>
      ∃ c t d rest, cursor = t ++ rest ∧ IsUnicode t c ∧ r = (c.toNat, d :: rest) := by
  unfold unicodeEscape
  split
  · exact Failure.isException _
  · next hlen =>
    simp only [hexDigits_cons]
    refine (hexDigits_spec (by simp at hlen; omega)).bind ?_
    rintro code ⟨x, rest, rfl, hx⟩
    have hlt := hx.lt
    obtain ⟨a, b, c, d, rfl⟩ := hx.eq_concat
    simp only [List.cons_append, List.nil_append, advance_cons_succ, advance_zero, bind, Except.bind]
    split
    · next hhigh =>
      split
      · exact Failure.isException _
      · next hlen' =>
        obtain ⟨e1, l, rfl⟩ := List.exists_cons_of_ne_nil (l := rest) (by rintro rfl; simp at hlen')
        obtain ⟨e2, l, rfl⟩ := List.exists_cons_of_ne_nil (l := l) (by rintro rfl; simp at hlen')
        simp only [readAt_cons_succ, readAt_cons_zero, hexDigits_cons]
        split
        · exact Failure.isException _
        · next he1 =>
          split
          · exact Failure.isException _
          · next he2 =>
            obtain rfl : e1 = 0x5C := not_not.mp he1
            obtain rfl : e2 = 0x75 := not_not.mp he2
            refine (hexDigits_spec (by simp at hlen'; omega)).bind ?_
            rintro low ⟨y, l, rfl, hy⟩
            obtain ⟨a', b', c', d', rfl⟩ := hy.eq_concat
            simp only [List.cons_append, List.nil_append, advance_cons_succ, advance_zero]
            split
            · exact Failure.isException _
            · next hlow =>
              rw [Nat.shiftLeft_eq]
              obtain ⟨cp, hcp⟩ := exists_char (n := 0x10000 + (code - 0xD800) * 2 ^ 10 + (low - 0xDC00)) (by omega)
              exact ⟨cp, _, d', l, rfl, .surrogates hx hy hhigh (by omega) hcp, by rw [hcp]⟩
    · next hhigh =>
      split
      · exact Failure.isException _
      · next hlow =>
        obtain ⟨cp, rfl⟩ := exists_char (n := code) (by omega)
        exact ⟨cp, _, d, rest, rfl, .char hx, rfl⟩

/-! ### The decoding -/

theorem simpleEscape_of_mem {b : UInt8} (h : (c, b) ∈ escapes) : simpleEscape c = some b := by
  simp only [escapes, List.mem_cons, Prod.mk.injEq, List.not_mem_nil, or_false] at h
  rcases h with ⟨rfl, rfl⟩ | ⟨rfl, rfl⟩ | ⟨rfl, rfl⟩ | ⟨rfl, rfl⟩ | ⟨rfl, rfl⟩ | ⟨rfl, rfl⟩ | ⟨rfl, rfl⟩ | ⟨rfl, rfl⟩ <;> rfl

theorem mem_escapes {b : UInt8} (h : simpleEscape c = some b) : (c, b) ∈ escapes := by
  unfold simpleEscape at h
  split_ifs at h <;> cases h <;> subst_vars <;> decide

theorem decodeLoop_complete (ht : IsChars t s) (hn : t.length < n) : decodeLoop n t = .ok s := by
  induction ht generalizing n with
  | nil =>
      obtain ⟨n, rfl⟩ : ∃ m, n = m + 1 := ⟨n - 1, by omega⟩
      rfl
  | @unescaped c t s hc ht ih =>
      obtain ⟨n, rfl⟩ : ∃ m, n = m + 1 := ⟨n - 1, by omega⟩
      rw [List.length_cons] at hn
      unfold decodeLoop
      rw [if_pos hc.2.2, ih (by omega)]
      rfl
  | @escaped e b t s he ht ih =>
      obtain ⟨n, rfl⟩ : ∃ m, n = m + 1 := ⟨n - 1, by omega⟩
      rw [List.length_cons, List.length_cons] at hn
      unfold decodeLoop
      rw [if_neg (by simp)]
      simp only [simpleEscape_of_mem he]
      rw [ih (by omega)]
      rfl
  | @unicode x c t s hx ht ih =>
      obtain ⟨n, rfl⟩ : ∃ m, n = m + 1 := ⟨n - 1, by omega⟩
      rw [List.length_cons, List.length_cons, List.length_append] at hn
      obtain ⟨d, hd⟩ := unicodeEscape_complete hx t
      unfold decodeLoop
      rw [if_neg (by simp)]
      simp only [show simpleEscape 0x75 = none from rfl, hd, if_true, bind, Except.bind, advance_cons_succ, advance_zero]
      rw [ih (by omega), appendUtf8_eq]

theorem IsRaw.of_plain (h : IsRaw (c :: t)) (hc : c ≠ 0x5C) : isSpecial c = false ∧ IsRaw t := by
  cases h with
  | plain hspecial ht => exact ⟨hspecial, ht⟩
  | escape ht => exact absurd rfl hc

theorem IsRaw.of_escape (h : IsRaw (0x5C :: c :: t)) : IsRaw t := by
  cases h with
  | plain hspecial ht => exact absurd hspecial (by decide)
  | escape ht => exact ht

theorem IsHex.not_special (h : IsHex c n) : isSpecial c = false := by
  have hall : (ascii "0123456789abcdef" ++ ascii "0123456789ABCDEF").all (isSpecial · = false) := by decide
  refine of_decide_eq_true (List.all_eq_true.mp hall c (List.mem_append.mpr ?_))
  exact h.imp List.mem_of_getElem? List.mem_of_getElem?

theorem IsHex4.raw_append_iff (hx : IsHex4 t n) : IsRaw (t ++ l) ↔ IsRaw l := by
  obtain ⟨a, b, c, d, i, j, k, m, rfl, ha, hb, hc, hd, -⟩ := hx
  have hplain {c : UInt8} {k : ℕ} {t : Bytes} (h : IsHex c k) : IsRaw (c :: t) ↔ IsRaw t :=
    ⟨fun ht => (ht.of_plain (isSpecial_eq_false_iff.mp h.not_special).2.1).2, .plain h.not_special⟩
  simp only [List.cons_append, List.nil_append, hplain ha, hplain hb, hplain hc, hplain hd]

theorem IsUnicode.raw_append_iff (hu : IsUnicode t c') : IsRaw (t ++ l) ↔ IsRaw l := by
  cases hu with
  | char hx => exact hx.raw_append_iff
  | surrogates hx hy _ _ _ =>
      rw [List.append_assoc, hx.raw_append_iff]
      exact ⟨fun h => hy.raw_append_iff.mp h.of_escape, fun h => .escape (hy.raw_append_iff.mpr h)⟩

theorem IsChars.raw (ht : IsChars t s) : IsRaw t := by
  induction ht with
  | nil => exact .nil
  | unescaped hc ht ih =>
      exact .plain (isSpecial_eq_false_iff.mpr ⟨hc.2.1, hc.2.2, UInt8.not_lt.mpr hc.1⟩) ih
  | escaped he ht ih => exact .escape ih
  | unicode hx ht ih => exact .escape (hx.raw_append_iff.mpr ih)

theorem decodeLoop_spec (ht : IsRaw t) (hn : t.length < n) :
    Ensures Failure.IsException (decodeLoop n t) (IsChars t) := by
  induction n generalizing t with
  | zero => omega
  | succ n ih =>
      cases ht with
      | nil => exact .nil
      | @plain c t hc ht =>
          obtain ⟨h1, h2, h3⟩ := isSpecial_eq_false_iff.mp hc
          unfold decodeLoop
          rw [if_pos h2]
          refine (ih ht (by simpa using hn)).bind fun out hout => ?_
          exact IsChars.unescaped ⟨UInt8.not_lt.mp h3, h1, h2⟩ hout
      | @escape e t ht =>
          rw [List.length_cons, List.length_cons] at hn
          unfold decodeLoop
          rw [if_neg (by simp)]
          dsimp only
          split
          · next b hb =>
            refine (ih ht (by omega)).bind fun out hout => ?_
            exact IsChars.escaped (mem_escapes hb) hout
          · next hnone =>
            split
            · next hu =>
              refine (unicodeEscape_spec e t).bind ?_
              rintro _ ⟨c, x, d, rest, rfl, hx, rfl⟩
              rw [List.length_append] at hn
              simp only [advance_cons_succ, advance_zero, bind, Except.bind]
              refine (ih (hx.raw_append_iff.mp ht) (by omega)).bind fun out hout => ?_
              rw [hu, appendUtf8_eq]
              exact IsChars.unicode hx hout
            · exact Failure.isException _

theorem IsRaw.chars (ht : IsRaw t) (he : hasEscape t = false) : IsChars t t := by
  induction ht with
  | nil => exact .nil
  | plain hc ht ih =>
      obtain ⟨h1, h2, h3⟩ := isSpecial_eq_false_iff.mp hc
      exact .unescaped ⟨UInt8.not_lt.mp h3, h1, h2⟩ (ih (hasEscape_plain hc ▸ he))
  | escape ht ih => simp [hasEscape] at he

theorem IsChars.eq_of_plain (ht : IsChars t s) (he : hasEscape t = false) : s = t := by
  induction ht with
  | nil => rfl
  | @unescaped c t s hc ht ih =>
      have hspecial : isSpecial c = false := isSpecial_eq_false_iff.mpr ⟨hc.2.1, hc.2.2, UInt8.not_lt.mpr hc.1⟩
      rw [ih (hasEscape_plain hspecial ▸ he)]
  | escaped he' ht ih => simp [hasEscape] at he
  | unicode hx ht ih => simp [hasEscape] at he

/-! ### Scanned and decoded -/

/-- What the callers of `scan_string` take for the string: the text itself or its decoding. -/
def scanned (cursor : Bytes) : Except Failure (Bytes × Bytes) := do
  let scan ← scanString cursor
  let s ← if scan.escaped then decodeString scan.text else .ok scan.text
  .ok (s, scan.cursor)

theorem scanned_complete (h : IsString t s) (rest : Bytes) : scanned (t ++ rest) = .ok (s, rest) := by
  cases h with
  | @mk t _ ht =>
      unfold scanned
      rw [List.cons_append, List.append_assoc]
      simp only [List.cons_append, List.nil_append, scanString_raw ht.raw, bind, Except.bind]
      cases he : hasEscape t with
      | true =>
          rw [if_pos rfl, decodeString, decodeLoop_complete ht (Nat.lt_succ_self _)]
      | false =>
          rw [if_neg Bool.false_ne_true, ht.eq_of_plain he]

theorem scanned_spec (cursor : Bytes) :
    Ensures Failure.IsException (scanned (0x22 :: cursor)) fun r =>
      ∃ t, 0x22 :: cursor = t ++ r.2 ∧ IsString t r.1 := by
  unfold scanned
  refine (scanString_spec 0x22 cursor).bind ?_
  rintro ⟨t, escaped, rest⟩ ⟨ht, hcursor, hescaped⟩
  dsimp only at ht hcursor hescaped ⊢
  have hfound {s : Bytes} (hs : IsChars t s) : ∃ w, 0x22 :: cursor = w ++ rest ∧ IsString w s :=
    ⟨0x22 :: (t ++ [0x22]), by simp [hcursor], .mk hs⟩
  cases he : hasEscape t with
  | true =>
      rw [hescaped, he, if_pos rfl]
      refine (decodeLoop_spec ht (Nat.lt_succ_self _)).bind fun s hs => ?_
      exact hfound hs
  | false =>
      rw [hescaped, he, if_neg Bool.false_ne_true]
      exact hfound (ht.chars he)

end NeForce.Json
