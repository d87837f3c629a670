import Mathlib.Data.List.Forall2
import NeForce.JsonNumbers

/-! # What the parser stores

`store v` is the document for a value `v`: strings and keys as `make_string` and `assign_key` keep them, elements and
members appended one by one.  It holds `v` exactly if the lengths and counts fit (`represents_store`). -/

namespace NeForce.Json

variable {D : Type} {doubles : Doubles D} {t rest : Bytes} {v : Tree} {vs : List Tree} {ms : List (Bytes × Tree)}

/-! ### Numbers -/

/-- What a number's text is stored as. -/
def numberOf (doubles : Doubles D) (t : Bytes) : Value D :=
  match parseNumber doubles t with
  | .ok r => r.1
  | .error _ => .null

/-- A text that cannot go on with a number. -/
def Delimited (rest : Bytes) : Prop :=
  ∀ c, rest.head? = some c → isSpace c = true ∨ c = 0x2C ∨ c = 0x5D ∨ c = 0x7D

theorem Delimited.stops (h : Delimited rest) (f e : Bytes) : Stops f e rest := by
  have hnot (c : UInt8) (hc : isSpace c = false ∧ c ≠ 0x2C ∧ c ≠ 0x5D ∧ c ≠ 0x7D) : rest.head? ≠ some c := by
    intro hhead
    rcases h c hhead with h | h
    · rw [hc.1] at h
      cases h
    · exact absurd h (by simp [hc])
  refine ⟨?_, fun _ _ => hnot _ (by decide), fun _ => ⟨hnot _ (by decide), hnot _ (by decide)⟩⟩
  cases rest with
  | nil => rfl
  | cons c rest =>
      rw [isDigitAt_cons]
      rcases h c rfl with h | rfl | rfl | rfl
      · simp only [isSpace, Bool.or_eq_true, decide_eq_true_eq] at h
        rcases h with ((rfl | rfl) | rfl) | rfl <;> rfl
      all_goals rfl

theorem delimited_nil : Delimited [] := by
  rintro c ⟨⟩

theorem delimited_cons (c : UInt8) (rest : Bytes) (h : isSpace c = true ∨ c = 0x2C ∨ c = 0x5D ∨ c = 0x7D) : Delimited (c :: rest) := by
  rintro c ⟨⟩
  exact h

theorem numberOf_eq (doubles : Doubles D) (negative : Bool) {i f e : Bytes} (hi : IsInt i) (hf : IsFrac f) (he : IsExp e) :
    NumberIs (minus negative ++ (i ++ (f ++ e))) (numberOf doubles (minus negative ++ (i ++ (f ++ e)))) ∧
      ∀ rest, Stops f e rest → parseNumber doubles (minus negative ++ (i ++ (f ++ e)) ++ rest) =
        .ok (numberOf doubles (minus negative ++ (i ++ (f ++ e))), rest) := by
  obtain ⟨v, hv, hall⟩ := parseNumber_complete doubles negative hi hf he
  have hself := hall [] (delimited_nil.stops f e)
  rw [List.append_nil] at hself
  have hnumber : numberOf doubles (minus negative ++ (i ++ (f ++ e))) = v := by
    rw [numberOf, hself]
  rw [hnumber]
  exact ⟨hv, hall⟩

theorem numberIs_numberOf (doubles : Doubles D) (h : IsNumber t) : NumberIs t (numberOf doubles t) := by
  cases h with
  | mk negative hi hf he => exact (numberOf_eq doubles negative hi hf he).1

theorem parseNumber_text (h : IsNumber t) (hrest : Delimited rest) :
    parseNumber doubles (t ++ rest) = .ok (numberOf doubles t, rest) := by
  cases h with
  | mk negative hi hf he => exact (numberOf_eq doubles negative hi hf he).2 rest (hrest.stops _ _)

theorem parseNumber_sound (doubles : Doubles D) (c : UInt8) (cursor : Bytes) :
    Ensures Failure.IsException (parseNumber doubles (c :: cursor)) fun r =>
      ∃ t, IsNumber t ∧ c :: cursor = t ++ r.2 ∧ r.1 = numberOf doubles t := by
  have hspec := parseNumber_spec doubles c cursor
  cases hr : parseNumber doubles (c :: cursor) with
  | error e => exact hspec.of_error hr
  | ok r =>
      obtain ⟨negative, i, f, e, hcursor, hi, hf, he, hs⟩ := hspec.of_ok hr
      have h := (numberOf_eq doubles negative hi hf he).2 r.2 hs
      rw [← hcursor, hr] at h
      exact ⟨_, .mk negative hi hf he, hcursor, congrArg Prod.fst (Except.ok.inj h)⟩

/-! ### Values -/

mutual

def store (doubles : Doubles D) : Tree → Value D
  | .null => .null
  | .boolean b => .boolean b
  | .number t _ => numberOf doubles t
  | .string s => makeString s
  | .array vs => .array (storeElements doubles [] vs)
  | .object ms => .object (storeMembers doubles [] ms)

def storeElements (doubles : Doubles D) (node : List (Value D)) : List Tree → List (Value D)
  | [] => node
  | v :: vs => storeElements doubles (arrayAppend node (store doubles v)) vs

def storeMembers (doubles : Doubles D) (node : List (Key × Value D)) : List (Bytes × Tree) → List (Key × Value D)
  | [] => node
  | (key, v) :: ms => storeMembers doubles (objectAppend node key (store doubles v) false) ms

end

theorem makeStringValue_eq (s : Bytes) : (makeStringValue s : Value D) = makeString s := by
  unfold makeStringValue
  split
  · next hlen =>
    have hinline : s.length &&& 0x0F = s.length % 2 ^ 32 := by
      rw [show 0x0F = 2 ^ 4 - 1 from rfl, Nat.and_two_pow_sub_one_eq_mod]
      unfold inlineStringCapacity at hlen
      omega
    rw [makeString, hinline]
  · rfl

theorem objectAppend_eq (node : List (Key × Value D)) (key : Bytes) (value : Value D) (copyKey : Bool) :
    objectAppend node key value copyKey = objectAppend node key value false := by
  unfold objectAppend
  split <;> rfl

/-! ### What fits -/

theorem take_eq_self_iff {α : Type} {l : List α} {n : ℕ} : l.take n = l ↔ l.length ≤ n := by
  constructor
  · intro h
    have := congrArg List.length h
    rw [List.length_take] at this
    omega
  · exact List.take_of_length_le

theorem makeString_eq_iff (s : Bytes) : (makeString s : Value D) = .string s ↔ s.length < 2 ^ 32 := by
  unfold makeString
  rw [Value.string.injEq, take_eq_self_iff]
  omega

/-- The highest of 32 bits. -/
theorem land_flag_ne_zero {n : ℕ} (h : n < 2 ^ 32) : n &&& flagInlineKey ≠ 0 ↔ 2 ^ 31 ≤ n := by
  have hand : n &&& flagInlineKey = (n.testBit 31).toNat * 2 ^ 31 := Nat.and_two_pow n 31
  have hbit : n.testBit 31 = decide (2 ^ 31 ≤ n) := by
    rw [Nat.testBit_eq_decide_div_mod_eq, decide_eq_decide]
    omega
  rw [hand, hbit]
  by_cases hn : 2 ^ 31 ≤ n
  · rw [decide_eq_true hn]
    exact iff_of_true (by decide) hn
  · rw [decide_eq_false hn]
    exact iff_of_false (by decide) hn

theorem Key.view_assign_iff (text : Bytes) : (Key.assign text).view = some text ↔ text.length < 2 ^ 31 := by
  by_cases hshort : text.length ≤ 8
  · have hor : flagInlineKey ||| text.length = 2 ^ 31 + text.length := by
      rw [← Nat.mul_one flagInlineKey]
      exact (Nat.two_pow_add_eq_or_of_lt (i := 31) (by omega) 1).symm
    have hassign : Key.assign text = ⟨text, 2 ^ 31 + text.length⟩ := by
      rw [← hor]
      exact if_pos hshort
    have hlength : (Key.assign text).length = text.length := by
      rw [hassign]
      show (2 ^ 31 + text.length) % 2 ^ 31 = _
      omega
    have hkept : ¬inlineKeyCapacity < (Key.assign text).text.length := by
      rw [hassign]
      exact Nat.not_lt.mpr hshort
    rw [Key.view, decide_eq_false hkept, Bool.and_false, if_neg Bool.false_ne_true, hlength, hassign, List.take_length]
    exact iff_of_true rfl (by omega)
  · have hassign : Key.assign text = ⟨text, text.length % 2 ^ 32⟩ := if_neg hshort
    have hlength : (Key.assign text).length = text.length % 2 ^ 31 := by
      rw [hassign]
      show text.length % 2 ^ 32 % 2 ^ 31 = _
      omega
    have hflag := land_flag_ne_zero (Nat.mod_lt text.length (Nat.two_pow_pos 32))
    have hinlined : (Key.assign text).inlined = decide (2 ^ 31 ≤ text.length % 2 ^ 32) := by
      rw [hassign, Key.inlined, decide_eq_decide]
      exact hflag
    have hlong : inlineKeyCapacity < (Key.assign text).text.length := by
      rw [hassign]
      exact Nat.not_le.mp hshort
    rw [Key.view, decide_eq_true hlong, Bool.and_true, hinlined, hlength]
    by_cases hbit : 2 ^ 31 ≤ text.length % 2 ^ 32
    · rw [if_pos (decide_eq_true hbit)]
      refine iff_of_false (fun h => ?_) (by omega)
      split at h
      · have := congrArg List.length (Option.some.inj h)
        simp at this
        omega
      · cases h
    · rw [if_neg (by simpa using hbit), hassign, Option.some.injEq]
      show text.take _ = text ↔ _
      rw [take_eq_self_iff]
      omega

/-- The count of a container wraps around. -/
theorem length_append {α : Type} (node : List α) (x : α) (h : node.length < 2 ^ 32) :
    (append node x).length = (node.length + 1) % 2 ^ 32 := by
  unfold append
  split
  · next hfull => rw [hfull]; rfl
  · next hroom => rw [List.length_append, List.length_singleton, Nat.mod_eq_of_lt (by omega)]

theorem length_foldl_append {α β : Type} (g : β → α) (l : List β) (node : List α) (hnode : node.length < 2 ^ 32) :
    (l.foldl (fun node x => append node (g x)) node).length = (node.length + l.length) % 2 ^ 32 := by
  induction l generalizing node with
  | nil => exact (Nat.mod_eq_of_lt hnode).symm
  | cons x l ih =>
      have hlen := length_append node (g x) hnode
      rw [List.foldl_cons, ih _ (hlen ▸ Nat.mod_lt _ (Nat.two_pow_pos 32)), hlen, Nat.mod_add_mod, List.length_cons]
      congr 1
      omega

theorem foldl_append_of_lt {α β : Type} (g : β → α) (l : List β) (node : List α) (h : node.length + l.length < 2 ^ 32) :
    l.foldl (fun node x => append node (g x)) node = node ++ l.map g := by
  induction l generalizing node with
  | nil => rw [List.foldl_nil, List.map_nil, List.append_nil]
  | cons x l ih =>
      rw [List.length_cons] at h
      have hone : append node (g x) = node ++ [g x] := if_neg (by omega)
      rw [List.foldl_cons, hone, ih _ (by rw [List.length_append, List.length_singleton]; omega), List.map_cons,
        List.append_assoc]
      rfl

/-- A list of appended entries is related to the list it is made from if the count fits. -/
theorem forall₂_foldl_append {α β : Type} (R : β → α → Prop) (g : β → α) (l : List β) :
    List.Forall₂ R l (l.foldl (fun node x => append node (g x)) []) ↔ l.length < 2 ^ 32 ∧ ∀ x ∈ l, R x (g x) := by
  by_cases hlen : l.length < 2 ^ 32
  · rw [foldl_append_of_lt g l [] (by simpa using hlen), List.nil_append, List.forall₂_map_right_iff, List.forall₂_same]
    exact (and_iff_right hlen).symm
  · refine iff_of_false (fun h => ?_) fun h => hlen h.1
    have := h.length_eq
    rw [length_foldl_append g l [] (by simp)] at this
    have := Nat.mod_lt (0 + l.length) (Nat.two_pow_pos 32)
    simp at *
    omega

/-- Induction over values. -/
theorem Tree.ind {P : Tree → Prop} (null : P .null) (boolean : ∀ b, P (.boolean b)) (number : ∀ t h, P (.number t h))
    (string : ∀ s, P (.string s)) (array : ∀ vs, (∀ v ∈ vs, P v) → P (.array vs))
    (object : ∀ ms, (∀ m ∈ ms, P m.2) → P (.object ms)) (v : Tree) : P v := by
  match v with
  | .null => exact null
  | .boolean b => exact boolean b
  | .number t h => exact number t h
  | .string s => exact string s
  | .array vs => exact array vs fun v hv => Tree.ind null boolean number string array object v
  | .object ms => exact object ms fun m hm => Tree.ind null boolean number string array object m.2
termination_by sizeOf v
decreasing_by
  · have := List.sizeOf_lt_of_mem hv
    simp
    omega
  · have := List.sizeOf_lt_of_mem hm
    obtain ⟨key, v⟩ := m
    simp at this ⊢
    omega

theorem fitsAll_iff : FitsAll vs ↔ ∀ v ∈ vs, Fits v := by
  induction vs with
  | nil => simp [FitsAll]
  | cons v vs ih => rw [FitsAll, ih, List.forall_mem_cons]

theorem fitsMembers_iff : FitsMembers ms ↔ ∀ m ∈ ms, m.1.length < 2 ^ 31 ∧ Fits m.2 := by
  induction ms with
  | nil => simp [FitsMembers]
  | cons m ms ih => rw [FitsMembers, ih, List.forall_mem_cons, and_assoc]

theorem representsAll_iff {es : List (Value D)} : RepresentsAll vs es ↔ List.Forall₂ Represents vs es := by
  induction vs generalizing es with
  | nil => cases es <;> simp [RepresentsAll]
  | cons v vs ih =>
      cases es with
      | nil => simp [RepresentsAll]
      | cons e es => rw [RepresentsAll, ih, List.forall₂_cons]

theorem representsMembers_iff {es : List (Key × Value D)} :
    RepresentsMembers ms es ↔ List.Forall₂ (fun m e => e.1.view = some m.1 ∧ Represents m.2 e.2) ms es := by
  induction ms generalizing es with
  | nil => cases es <;> simp [RepresentsMembers]
  | cons m ms ih =>
      cases es with
      | nil => simp [RepresentsMembers]
      | cons e es => rw [RepresentsMembers, ih, List.forall₂_cons, and_assoc]

theorem storeElements_eq (doubles : Doubles D) (vs : List Tree) (node : List (Value D)) :
    storeElements doubles node vs = vs.foldl (fun node v => append node (store doubles v)) node := by
  induction vs generalizing node with
  | nil => rw [storeElements, List.foldl_nil]
  | cons v vs ih => rw [storeElements, ih, List.foldl_cons, arrayAppend]

theorem storeMembers_eq (doubles : Doubles D) (ms : List (Bytes × Tree)) (node : List (Key × Value D)) :
    storeMembers doubles node ms =
      ms.foldl (fun node m => append node (Key.assign m.1, store doubles m.2)) node := by
  induction ms generalizing node with
  | nil => rw [storeMembers, List.foldl_nil]
  | cons m ms ih =>
      rw [storeMembers, ih, List.foldl_cons, objectAppend]
      rfl

/-- **The document of a value** holds the value exactly if the lengths and counts fit. -/
theorem represents_store (doubles : Doubles D) (v : Tree) : Represents v (store doubles v) ↔ Fits v := by
  induction v using Tree.ind with
  | null => simp [Represents, store, Fits]
  | boolean b => simp [Represents, store, Fits]
  | number t h => simpa [Represents, store, Fits] using numberIs_numberOf doubles h
  | string s =>
      rw [Fits, ← makeString_eq_iff (D := D), store, makeString]
      simp [Represents, eq_comm]
  | array vs ih =>
      rw [store, Represents, Fits, representsAll_iff, fitsAll_iff, storeElements_eq,
        forall₂_foldl_append Represents (store doubles)]
      exact and_congr_right fun _ => forall₂_congr ih
  | object ms ih =>
      rw [store, Represents, Fits, representsMembers_iff, fitsMembers_iff, storeMembers_eq,
        forall₂_foldl_append _ fun m : Bytes × Tree => (Key.assign m.1, store doubles m.2)]
      exact and_congr_right fun _ => forall₂_congr fun m hm => and_congr (Key.view_assign_iff m.1) (ih m hm)

end NeForce.Json
