import Mathlib
import NeForce.HttpServerBodies

/-! # Range headers

`parse_ranges`.  What it returns lies in the file, whatever the header is; and a list of ranges written with commas and
spaces is read back as the same list, cut off at the end of the file (`parseRanges_correct`).  A number from `2 ^ 64` on
is read as the largest one, which is behind the end of every file. -/

namespace NeForce.HttpRange

open Env (isSpace trim trimLeft trimRight Trimmed trimLeft_cons trim_eq_self)
open HttpServer (toUint64 find isDigit decimalValue)
open Search (firstAt)

/-! ### The parser -/

structure ByteRange where
  start : ℕ
  end_ : ℕ
deriving DecidableEq

section

variable (fileSize : UInt64) (maxRanges : ℕ)

/-- The range of a piece of the header, from the texts on both sides of its dash. -/
def parseRange (startStr endStr : Bytes) : Option ByteRange :=
  if startStr = [] then
    if endStr = [] then none
    else
      (toUint64 endStr).map fun suffixLen =>
        ⟨if fileSize.toNat < suffixLen then 0 else fileSize.toNat - suffixLen, fileSize.toNat - 1⟩
  else
    match toUint64 startStr with
    | none => none
    | some start =>
        if fileSize.toNat ≤ start then none
        else if endStr = [] then some ⟨start, fileSize.toNat - 1⟩
        else (toUint64 endStr).map fun stop => ⟨start, if fileSize.toNat ≤ stop then fileSize.toNat - 1 else stop⟩

/-- The loop of `parse_ranges`, at most `n` rounds. -/
def rangeLoop : ℕ → Bytes → List ByteRange → List ByteRange
  | 0, _, result => result
  | n + 1, remaining, result =>
      if remaining = [] then result
      else
        let remaining := trim remaining
        match firstAt [0x2D] remaining with
        | none => []
        | some dash =>
            let comma := find remaining [0x2C] (dash + 1)
            let endPos := comma.getD remaining.length
            match parseRange fileSize (trim (remaining.take dash))
                (trim ((remaining.drop (dash + 1)).take (endPos - dash - 1))) with
            | none => []
            | some range =>
                if range.end_ < range.start then []
                else if maxRanges ≤ result.length then []
                else
                  match comma with
                  | none => result ++ [range]
                  | some comma => rangeLoop n (remaining.drop (comma + 1)) (result ++ [range])

def unit : Bytes := ascii "bytes="

def parseRanges (rangeHeader : Bytes) : List ByteRange :=
  if fileSize = 0 ∨ rangeHeader = [] then []
  else
    let remaining := if unit.isPrefixOf rangeHeader then rangeHeader.drop 6 else rangeHeader
    rangeLoop fileSize maxRanges remaining.length remaining []

end

/-! ### Written ranges -/

structure Number where
  digits : Bytes
  digits_ne : digits ≠ []
  isDigit : ∀ c ∈ digits, isDigit c = true

def Number.value (n : Number) : ℕ := decimalValue n.digits

inductive RangeSpec where
  | between (first last : Number)
  | onwards (first : Number)
  | suffix (length : Number)

/-- Any spaces. -/
abbrev Spaces := { l : Bytes // ∀ c ∈ l, isSpace c = true }

/-- A range as it is written: spaces around it and around its dash. -/
structure RangeItem where
  spec : RangeSpec
  before : Spaces
  left : Spaces
  right : Spaces
  after : Spaces

def RangeSpec.startText : RangeSpec → Bytes
  | .between first _ | .onwards first => first.digits
  | .suffix _ => []

def RangeSpec.endText : RangeSpec → Bytes
  | .between _ last | .suffix last => last.digits
  | .onwards _ => []

def RangeItem.text (i : RangeItem) : Bytes :=
  i.before.1 ++ (i.spec.startText ++ (i.left.1 ++ 0x2D :: (i.right.1 ++ (i.spec.endText ++ i.after.1))))

/-- The items with commas between them. -/
def renderItems : List RangeItem → Bytes
  | [] => []
  | [i] => i.text
  | i :: is => i.text ++ 0x2C :: renderItems is

def render (items : List RangeItem) : Bytes := unit ++ renderItems items

/-- A range in a file, if there is something of it. -/
def RangeSpec.clamp (size : ℕ) : RangeSpec → Option ByteRange
  | .between first last =>
      if first.value < size ∧ first.value ≤ last.value then some ⟨first.value, min last.value (size - 1)⟩ else none
  | .onwards first => if first.value < size then some ⟨first.value, size - 1⟩ else none
  | .suffix length => if 0 < length.value ∧ 0 < size then some ⟨size - length.value, size - 1⟩ else none

/-- The ranges, or nothing if one of them cannot be served or there are too many. -/
def expected (size maxRanges : ℕ) (items : List RangeItem) : List ByteRange :=
  if items.length ≤ maxRanges then (items.mapM fun (i : RangeItem) => i.spec.clamp size).getD [] else []

/-! ### What is returned lies in the file -/

section

variable {fileSize : UInt64} {maxRanges : ℕ}

/-- The range is not empty, and within a file of this size. -/
def ByteRange.Inside (size : ℕ) (r : ByteRange) : Prop := r.start ≤ r.end_ ∧ r.end_ < size

theorem parseRange_end (hsize : 0 < fileSize.toNat) {startStr endStr : Bytes} {r : ByteRange}
    (h : parseRange fileSize startStr endStr = some r) : r.end_ < fileSize.toNat := by
  unfold parseRange at h
  split at h
  · split at h
    · cases h
    · obtain ⟨n, -, rfl⟩ := Option.map_eq_some_iff.mp h
      exact Nat.sub_lt hsize Nat.one_pos
  · split at h
    · cases h
    · split at h
      · cases h
      · split at h
        · cases h
          exact Nat.sub_lt hsize Nat.one_pos
        · obtain ⟨n, -, rfl⟩ := Option.map_eq_some_iff.mp h
          dsimp only
          split <;> omega

theorem rangeLoop_sound (hsize : 0 < fileSize.toNat) {n : ℕ} {remaining : Bytes} {result : List ByteRange}
    (hlen : result.length ≤ maxRanges) (hin : ∀ r ∈ result, r.Inside fileSize.toNat) :
    (rangeLoop fileSize maxRanges n remaining result).length ≤ maxRanges ∧
      ∀ r ∈ rangeLoop fileSize maxRanges n remaining result, r.Inside fileSize.toNat := by
  induction n generalizing remaining result with
  | zero => exact ⟨hlen, hin⟩
  | succ n ih =>
      have hnil : ([] : List ByteRange).length ≤ maxRanges ∧ ∀ r ∈ ([] : List ByteRange), r.Inside fileSize.toNat :=
        ⟨Nat.zero_le _, nofun⟩
      rw [rangeLoop]
      split
      · exact ⟨hlen, hin⟩
      · dsimp only
        split
        · exact hnil
        · split
          · exact hnil
          · next range hr =>
            split
            · exact hnil
            · next hle =>
              split
              · exact hnil
              · next hroom =>
                have hlen' : (result ++ [range]).length ≤ maxRanges := by
                  rw [List.length_append, List.length_singleton]
                  omega
                have hin' : ∀ r ∈ result ++ [range], r.Inside fileSize.toNat := by
                  intro r hmem
                  obtain hmem | hmem := List.mem_append.mp hmem
                  · exact hin r hmem
                  · obtain rfl := List.mem_singleton.mp hmem
                    exact ⟨Nat.le_of_not_lt hle, parseRange_end hsize hr⟩
                split
                · exact ⟨hlen', hin'⟩
                · exact ih hlen' hin'

/-! ### What is written is read back -/

theorem Number.trimmed (n : Number) : Trimmed n.digits :=
  .of_forall n.digits_ne fun c hc => HttpServer.isSpace_digit (n.isDigit c hc)

theorem RangeSpec.startText_trimmed (s : RangeSpec) : s.startText = [] ∨ Trimmed s.startText := by
  cases s with
  | between a _ | onwards a => exact .inr a.trimmed
  | suffix => exact .inl rfl

theorem RangeSpec.endText_trimmed (s : RangeSpec) : s.endText = [] ∨ Trimmed s.endText := by
  cases s with
  | between _ a | suffix a => exact .inr a.trimmed
  | onwards => exact .inl rfl

/-- Neither a dash nor a comma is among the digits and the spaces. -/
theorem Number.not_mem (n : Number) : 0x2D ∉ n.digits ∧ 0x2C ∉ n.digits := by
  constructor <;> intro h <;> have := n.isDigit _ h <;> revert this <;> decide

theorem RangeSpec.not_mem (s : RangeSpec) : (0x2D ∉ s.startText ∧ 0x2C ∉ s.startText) ∧ 0x2D ∉ s.endText ∧
    0x2C ∉ s.endText := by
  cases s with
  | between a b => exact ⟨a.not_mem, b.not_mem⟩
  | onwards a => exact ⟨a.not_mem, List.not_mem_nil, List.not_mem_nil⟩
  | suffix b => exact ⟨⟨List.not_mem_nil, List.not_mem_nil⟩, b.not_mem⟩

theorem Spaces.not_mem (s : Spaces) : 0x2D ∉ s.1 ∧ 0x2C ∉ s.1 := by
  constructor <;> intro h <;> have := s.2 _ h <;> revert this <;> decide

/-- The two texts of an item give its range in the file, if there is one. -/
theorem parseRange_spec (hsize : 0 < fileSize.toNat) (s : RangeSpec) :
    ((parseRange fileSize s.startText s.endText).bind fun r => if r.end_ < r.start then none else some r) =
      s.clamp fileSize.toNat := by
  have hlt := fileSize.toNat_lt
  have hnumber (n : Number) : toUint64 n.digits = some (min n.value (2 ^ 64 - 1)) :=
    HttpServer.toUint64_min n.digits_ne n.isDigit
  cases s with
  | between a b =>
      simp only [parseRange, RangeSpec.startText, RangeSpec.endText, if_neg a.digits_ne, if_neg b.digits_ne, hnumber,
        RangeSpec.clamp, Option.map_some]
      generalize a.value = x
      generalize b.value = y
      by_cases hx : x < fileSize.toNat
      · rw [Nat.min_eq_left (by omega), if_neg (by omega), Option.bind_some]
        have hlast : (if fileSize.toNat ≤ min y (2 ^ 64 - 1) then fileSize.toNat - 1 else min y (2 ^ 64 - 1)) =
            min y (fileSize.toNat - 1) := by split <;> omega
        dsimp only
        by_cases hy : x ≤ y
        · rw [hlast, if_neg (by omega), if_pos ⟨hx, hy⟩]
        · rw [hlast, if_pos (by omega), if_neg (fun h => hy h.2)]
      · rw [if_pos (by omega), if_neg (fun h => hx h.1)]
        rfl
  | onwards a =>
      simp only [parseRange, RangeSpec.startText, RangeSpec.endText, if_neg a.digits_ne, hnumber, RangeSpec.clamp]
      generalize a.value = x
      by_cases hx : x < fileSize.toNat
      · rw [Nat.min_eq_left (by omega), if_neg (by omega), if_pos hx]
        show (if fileSize.toNat - 1 < x then none else _) = _
        exact if_neg (by omega)
      · rw [if_pos (by omega), if_neg hx]
        rfl
  | suffix b =>
      simp only [parseRange, RangeSpec.startText, RangeSpec.endText, if_neg b.digits_ne, if_true, hnumber, RangeSpec.clamp,
        Option.map_some, Option.bind_some]
      generalize b.value = y
      have hfirst : (if fileSize.toNat < min y (2 ^ 64 - 1) then 0 else fileSize.toNat - min y (2 ^ 64 - 1)) =
          fileSize.toNat - y := by split <;> omega
      rw [hfirst]
      by_cases hy : 0 < y
      · rw [if_neg (by omega), if_pos ⟨hy, hsize⟩]
      · rw [if_pos (by omega), if_neg (fun h => hy h.1)]

/-! ### Trimming -/

theorem trim_append_space {l s : Bytes} (hs : ∀ c ∈ s, isSpace c = true) : trim (l ++ s) = trim l := by
  have hdrop : s.dropWhile isSpace = [] := List.dropWhile_eq_nil_iff.mpr hs
  rw [trim, trim, trimLeft, List.dropWhile_append, hdrop]
  split
  · next h => rw [trimLeft, List.isEmpty_iff.mp h]
  · exact HttpServer.trimRight_append_space hs

/-- Only spaces are cut off. -/
theorem trimRight_append (l : Bytes) : ∃ s : Spaces, l = trimRight l ++ s.1 := by
  refine ⟨⟨(l.reverse.takeWhile isSpace).reverse, fun c hc => ?_⟩, ?_⟩
  · exact List.all_eq_true.mp List.all_takeWhile c (List.mem_reverse.mp hc)
  · rw [trimRight, ← List.reverse_append, List.takeWhile_append_dropWhile, List.reverse_reverse]

theorem trim_trimRight (l : Bytes) : trim (trimRight l) = trim l := by
  obtain ⟨s, hs⟩ := trimRight_append l
  conv_rhs => rw [hs, trim_append_space s.2]

theorem trim_spaces {l : Bytes} (hl : l = [] ∨ Trimmed l) (a b : Spaces) : trim (a.1 ++ (l ++ b.1)) = l := by
  rw [← List.append_assoc, trim_append_space b.2, trim, HttpServer.trimLeft_append_space a.2]
  obtain rfl | hl := hl
  · rfl
  · exact trim_eq_self hl

/-! ### Items -/

/-- An item at the front, without the spaces before it. -/
theorem trim_item (i : RangeItem) (tail : Bytes) : ∃ left : Spaces, trim (i.text ++ tail) =
    (i.spec.startText ++ left.1) ++ 0x2D :: trimRight (i.right.1 ++ (i.spec.endText ++ (i.after.1 ++ tail))) := by
  have hdash : isSpace 0x2D = false := rfl
  have htext : i.text ++ tail = i.before.1 ++ (i.spec.startText ++ (i.left.1 ++
      0x2D :: (i.right.1 ++ (i.spec.endText ++ (i.after.1 ++ tail))))) := by
    simp only [RangeItem.text, List.append_assoc, List.cons_append]
  rw [htext, trim, HttpServer.trimLeft_append_space i.before.2]
  obtain h | ⟨c, hc, hs, -⟩ := i.spec.startText_trimmed
  · refine ⟨⟨[], List.forall_mem_nil _⟩, ?_⟩
    rw [h, List.nil_append, HttpServer.trimLeft_append_space i.left.2, trimLeft_cons hdash]
    exact HttpServer.trimRight_append_cons [] _ hdash
  · refine ⟨i.left, ?_⟩
    obtain ⟨t, ht⟩ := List.head?_eq_some_iff.mp hc
    rw [ht, List.cons_append, trimLeft_cons hs, ← List.cons_append, ← ht, ← List.append_assoc]
    exact HttpServer.trimRight_append_cons _ _ hdash

/-- What follows on the round for an item. -/
def afterItem (fileSize : UInt64) (maxRanges n : ℕ) (result : List ByteRange) (s : RangeSpec) (tail : Bytes) :
    List ByteRange :=
  match s.clamp fileSize.toNat with
  | none => []
  | some range =>
      if maxRanges ≤ result.length then []
      else
        match tail with
        | [] => result ++ [range]
        | _ :: more => rangeLoop fileSize maxRanges n (trimRight more) (result ++ [range])

/-- The round of an item, with a comma behind it or at the end. -/
theorem rangeLoop_item (hsize : 0 < fileSize.toNat) {n : ℕ} {remaining : Bytes} {result : List ByteRange} (i : RangeItem)
    {tail : Bytes} (htail : tail = [] ∨ ∃ more, tail = 0x2C :: more) (h : trim remaining = trim (i.text ++ tail)) :
    rangeLoop fileSize maxRanges (n + 1) remaining result = afterItem fileSize maxRanges n result i.spec tail := by
  obtain ⟨left, hitem⟩ := trim_item i tail
  rw [hitem] at h
  have hne : remaining ≠ [] := by
    rintro rfl
    have := congrArg List.length h
    simp [trim, trimLeft, trimRight] at this
  obtain ⟨⟨hs1, hs2⟩, he1, he2⟩ := i.spec.not_mem
  have hdash : 0x2D ∉ i.spec.startText ++ left.1 :=
    fun hm => (List.mem_append.mp hm).elim hs1 (Spaces.not_mem left).1
  have hstart : trim (i.spec.startText ++ left.1) = i.spec.startText :=
    trim_spaces i.spec.startText_trimmed ⟨[], List.forall_mem_nil _⟩ left
  have hend : trim (i.right.1 ++ (i.spec.endText ++ i.after.1)) = i.spec.endText :=
    trim_spaces i.spec.endText_trimmed i.right i.after
  rw [rangeLoop, if_neg hne, h]
  generalize hfront : i.spec.startText ++ left.1 = front at hdash hstart
  dsimp only
  rw [HttpServer.firstAt_singleton hdash]
  dsimp only
  have hdrop (back : Bytes) : (front ++ 0x2D :: back).drop (front.length + 1) = back := by
    rw [← List.drop_drop, List.drop_left]
    rfl
  rw [List.take_left, hstart, find, hdrop, afterItem, ← parseRange_spec hsize i.spec]
  obtain rfl | ⟨more, rfl⟩ := htail
  · -- The item ends the header.
    rw [List.append_nil]
    generalize hback : trimRight (i.right.1 ++ (i.spec.endText ++ i.after.1)) = back
    have hcomma : 0x2C ∉ back := by
      intro hm
      obtain ⟨s, hs⟩ := trimRight_append (i.right.1 ++ (i.spec.endText ++ i.after.1))
      have : 0x2C ∈ i.right.1 ++ (i.spec.endText ++ i.after.1) := by
        rw [hs, hback]
        exact List.mem_append_left _ hm
      obtain hm | hm := List.mem_append.mp this
      · exact (Spaces.not_mem i.right).2 hm
      · exact (List.mem_append.mp hm).elim he2 (Spaces.not_mem i.after).2
    have hlen : (front ++ 0x2D :: back).length - front.length - 1 = back.length := by
      rw [List.length_append, List.length_cons]
      omega
    rw [Search.firstAt_eq_none_of_not_mem hcomma]
    simp only [Option.map_none, Option.getD_none]
    rw [hlen, List.take_length, ← hback, trim_trimRight, hend]
    cases parseRange fileSize i.spec.startText i.spec.endText with
    | none => rfl
    | some r =>
        rw [Option.bind_some]
        dsimp only
        split <;> rfl
  · -- A comma follows.
    have hassoc : i.right.1 ++ (i.spec.endText ++ (i.after.1 ++ 0x2C :: more)) =
        (i.right.1 ++ (i.spec.endText ++ i.after.1)) ++ 0x2C :: more := by
      simp only [List.append_assoc]
    have hback : 0x2C ∉ i.right.1 ++ (i.spec.endText ++ i.after.1) := by
      simp only [List.mem_append, not_or]
      exact ⟨(Spaces.not_mem i.right).2, he2, (Spaces.not_mem i.after).2⟩
    rw [hassoc, HttpServer.trimRight_append_cons _ _ (rfl : isSpace 0x2C = false)]
    generalize i.right.1 ++ (i.spec.endText ++ i.after.1) = back at hend hback
    have hafter : (front ++ 0x2D :: (back ++ 0x2C :: trimRight more)).drop (front.length + 1 + back.length + 1) =
        trimRight more := by
      rw [show front.length + 1 + back.length + 1 = (front.length + 1) + (back.length + 1) by omega, ← List.drop_drop, hdrop,
        ← List.drop_drop, List.drop_left]
      rfl
    rw [HttpServer.firstAt_singleton hback]
    simp only [Option.map_some, Option.getD_some]
    rw [show front.length + 1 + back.length - front.length - 1 = back.length by omega, List.take_left, hend, hafter]
    cases parseRange fileSize i.spec.startText i.spec.endText with
    | none => rfl
    | some r =>
        rw [Option.bind_some]
        dsimp only
        split <;> rfl

/-- The loop over written items. -/
theorem rangeLoop_render (hsize : 0 < fileSize.toNat) {n : ℕ} {remaining : Bytes} {result : List ByteRange}
    {items : List RangeItem} (hne : items ≠ []) (hn : items.length ≤ n) (h : trim remaining = trim (renderItems items)) :
    rangeLoop fileSize maxRanges n remaining result =
      match items.mapM fun (i : RangeItem) => i.spec.clamp fileSize.toNat with
      | none => []
      | some ranges => if result.length + items.length ≤ maxRanges then result ++ ranges else [] := by
  induction items generalizing n remaining result with
  | nil => exact absurd rfl hne
  | cons i items ih =>
      obtain ⟨n, rfl⟩ : ∃ m, n = m + 1 := ⟨n - 1, by simp at hn; omega⟩
      rw [List.mapM_cons]
      cases items with
      | nil =>
          rw [rangeLoop_item hsize i (.inl rfl) (by rw [List.append_nil]; exact h), afterItem]
          cases i.spec.clamp fileSize.toNat with
          | none => rfl
          | some range =>
              dsimp only [List.mapM_nil, Option.pure_def, Option.bind_eq_bind, Option.bind_some]
              by_cases hroom : maxRanges ≤ result.length
              · rw [if_pos hroom, if_neg (by rw [List.length_singleton]; omega)]
              · rw [if_neg hroom, if_pos (by rw [List.length_singleton]; omega)]
      | cons j items =>
          rw [rangeLoop_item hsize i (.inr ⟨renderItems (j :: items), rfl⟩) h, afterItem]
          cases i.spec.clamp fileSize.toNat with
          | none => rfl
          | some range =>
              dsimp only
              rw [ih (List.cons_ne_nil _ _) (Nat.le_of_succ_le_succ hn) (trim_trimRight _)]
              cases hm : (j :: items).mapM fun (i : RangeItem) => i.spec.clamp fileSize.toNat with
              | none => simp
              | some ranges =>
                  simp only [List.length_append, List.length_cons, List.length_nil, Option.bind_eq_bind,
                    Option.bind_some, Option.pure_def]
                  by_cases hroom : maxRanges ≤ result.length
                  · rw [if_pos hroom, if_neg (by omega)]
                  · rw [if_neg hroom, List.append_assoc, List.singleton_append]
                    congr 1
                    exact propext ⟨fun h => by omega, fun h => by omega⟩

theorem length_renderItems (items : List RangeItem) : items.length ≤ (renderItems items).length := by
  have hitem (i : RangeItem) : 0 < i.text.length := by
    simp only [RangeItem.text, List.length_append, List.length_cons]
    omega
  induction items with
  | nil => exact Nat.zero_le _
  | cons i items ih =>
      cases items with
      | nil => exact hitem i
      | cons j items =>
          have hi := hitem i
          have htext : (renderItems (i :: j :: items)).length = i.text.length + ((renderItems (j :: items)).length + 1) := by
            rw [renderItems, List.length_append, List.length_cons]
            exact List.cons_ne_nil _ _
          rw [htext, List.length_cons]
          omega

end

/-- **Ranges are sound and exact.**  Whatever the header is, at most `maxRanges` ranges are returned, and they lie in the
file; and written ranges come back, cut off at its end, or nothing if one of them has nothing in the file or there are
too many. -/
theorem parseRanges_correct (fileSize : UInt64) (maxRanges : ℕ) :
    (∀ header, (parseRanges fileSize maxRanges header).length ≤ maxRanges ∧
      ∀ r ∈ parseRanges fileSize maxRanges header, r.start ≤ r.end_ ∧ r.end_ < fileSize.toNat) ∧
    ∀ items, parseRanges fileSize maxRanges (render items) = expected fileSize.toNat maxRanges items := by
  have hpos (h : fileSize ≠ 0) : 0 < fileSize.toNat := by
    refine Nat.pos_of_ne_zero fun h0 => h ?_
    exact UInt64.toNat_inj.mp h0
  constructor
  · intro header
    unfold parseRanges
    split
    · exact ⟨Nat.zero_le _, nofun⟩
    · next h =>
      exact rangeLoop_sound (hpos fun h0 => h (.inl h0)) (Nat.zero_le _) nofun
  · intro items
    unfold parseRanges expected
    by_cases hsize : fileSize = 0
    · rw [if_pos (.inl hsize), hsize]
      cases items with
      | nil => split <;> rfl
      | cons i items =>
          have hnone : i.spec.clamp (0 : UInt64).toNat = none := by
            cases i.spec <;> simp [RangeSpec.clamp]
          rw [List.mapM_cons, hnone]
          split <;> rfl
    · have hprefix : unit.isPrefixOf (render items) = true :=
        List.isPrefixOf_iff_prefix.mpr (List.prefix_append _ _)
      have hrest : (render items).drop 6 = renderItems items := List.drop_left' rfl
      rw [if_neg (by rintro (h | h); exacts [hsize h, absurd h (by simp [render, unit, ascii])]), if_pos hprefix, hrest]
      cases items with
      | nil => simp [renderItems, rangeLoop]
      | cons i items =>
          rw [rangeLoop_render (hpos hsize) (List.cons_ne_nil _ _) (length_renderItems _) rfl]
          cases (i :: items).mapM fun (i : RangeItem) => i.spec.clamp fileSize.toNat with
          | none => simp
          | some ranges => simp

end NeForce.HttpRange
