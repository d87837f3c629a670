import Mathlib
import NeForce.JsonRoundTrip

/-! # The buffers of the writer

Numbers, short strings and the heads of members are put together in arrays on the stack.  `valueStores` lists the stores
into these arrays; the texts are those of `writeValue`.  All stores are in bounds, but for a key that is in its member
and whose escapes take more than the 16 bytes of `head` (`stores_in_bounds_iff`). -/

namespace NeForce.Json

variable {D : Type}

/-! ### Stores -/

/-- A store into an array of `size` bytes. -/
structure Store where
  size : ℕ
  index : ℕ
deriving DecidableEq

/-- Every store is at an index of its array. -/
def InBounds (l : List Store) : Prop := ∀ s ∈ l, s.index < s.size

/-- Stores at `count` indices, one after the other. -/
def fill (size start count : ℕ) : List Store := (List.range' start count).map (Store.mk size)

theorem inBounds_nil : InBounds [] := by
  intro s hs
  cases hs

@[simp] theorem inBounds_append {l l' : List Store} : InBounds (l ++ l') ↔ InBounds l ∧ InBounds l' := List.forall_mem_append

@[simp] theorem inBounds_fill {size start count : ℕ} : InBounds (fill size start count) ↔ count = 0 ∨ start + count ≤ size := by
  unfold InBounds fill
  simp only [List.forall_mem_map, List.mem_range'_1]
  constructor
  · intro h
    cases count with
    | zero => exact .inl rfl
    | succ count =>
        have := h (start + count) (by omega)
        exact .inr this
  · intro h i hi
    omega

/-! ### The writer's stores -/

def numberBufferSize : ℕ := 32

/-- `write_uinteger`, to a buffer of `size` bytes from `start` on. -/
def uintegerStores (size start value : ℕ) : List Store :=
  fill maxIntegerChars 0 (writeUinteger value).length ++ fill size start (writeUinteger value).length

def integerStores (value : ℤ) : List Store :=
  if value < 0 then
    fill numberBufferSize 0 1 ++ uintegerStores numberBufferSize 1 ((2 ^ 64 - (value % 2 ^ 64)) % 2 ^ 64).toNat
  else uintegerStores numberBufferSize 0 value.toNat

/-- The arithmetic of `write_real_fast`. -/
structure FastReals (D : Type) where
  /-- The value is less than `-2^53` or more than `2^53`. -/
  large : D → Bool
  negative : D → Bool
  /-- The magnitude times `10^k`, rounded; `none` if it is not at most `2^53`. -/
  units : D → ℕ → Option ℕ
  /-- The units over `10^k` are the magnitude. -/
  exact : D → ℕ → ℕ → Bool

/-- The characters of a number of `count` digits, `k` of them behind the point. -/
def fixedLength (negative : Bool) (count k : ℕ) : ℕ :=
  (minus negative).length +
    if k = 0 then count + 2 else if count ≤ k then 2 + (k - count) + count else (count - k) + 1 + k

def fastLoop (reals : FastReals D) (d : D) : List ℕ → List Store
  | [] => []
  | k :: ks =>
      match reals.units d k with
      | none => []
      | some units =>
          if 2 ^ 53 < units ∨ reals.exact d k units = false then fastLoop reals d ks
          else uintegerStores maxIntegerChars 0 units ++
            fill numberBufferSize 0 (fixedLength (reals.negative d) (writeUinteger units).length k)

def realStores (reals : FastReals D) (d : D) : List Store :=
  if reals.large d then [] else fastLoop reals d [0, 1, 2, 3, 4, 5, 6]

def escapedStores (text : Bytes) : List Store :=
  if text.length ≤ shortStringLimit then fill shortStringScratch 0 (buildQuoted text).length else []

/-- The bytes of members that only look as if their key was in them: what is viewed, and the word at `key_data`. -/
structure Stray where
  text : Key → Bytes
  word : Key → BitVec 64

variable (reals : FastReals D) (stray : Stray) (junk : Key → ℕ)

def inlinedProbe (word : BitVec 64) (length : ℕ) : BitVec 64 :=
  let mask := if length = 8 then ~~~0#64 else 1#64 <<< (length * 8) - 1
  word &&& mask ||| ~~~mask &&& 0x7878787878787878#64

/-- An inlined key, from its word. -/
def inlinedStores (word : BitVec 64) (key : Bytes) (first : Bool) : List Store :=
  let count := (comma first).length
  fill 16 0 (count + 1) ++
    if !wordNeedsEscape (inlinedProbe word key.length) then fill 16 (count + 1) 8 ++ fill 16 (count + 1 + key.length) 2
    else fill 16 0 count ++ (fill 16 count (buildQuoted key).length ++ fill 16 (count + (buildQuoted key).length) 2)

def Key.seen (key : Key) : Bytes := key.view.getD (stray.text key)

def Key.seenWord (key : Key) : BitVec 64 := if key.view.isSome then key.word junk else stray.word key

/-- What `write_object` stores before a member's value. -/
def memberStores (indent : ℕ) (key : Key) (first : Bool) : List Store :=
  let text := key.seen stray
  if indent = 0 ∧ key.inlined then inlinedStores (key.seenWord stray junk) text first
  else if indent = 0 ∧ text.length ≤ shortStringLimit then
    fill shortStringScratch 0 ((comma first).length + ((buildQuoted text).length + 1))
  else escapedStores text

mutual

def valueStores (indent : ℕ) : Value D → List Store
  | .null => []
  | .boolean _ => []
  | .integer n => integerStores n
  | .uinteger n => uintegerStores numberBufferSize 0 n
  | .real d => realStores reals d
  | .string s => escapedStores s
  | .array es => elementsStores indent es
  | .object ms => membersStores indent true ms

def elementsStores (indent : ℕ) : List (Value D) → List Store
  | [] => []
  | e :: es => valueStores indent e ++ elementsStores indent es

def membersStores (indent : ℕ) (first : Bool) : List (Key × Value D) → List Store
  | [] => []
  | (key, e) :: ms =>
      memberStores stray junk indent key first ++ (valueStores indent e ++ membersStores indent false ms)

end

/-! ### What fits -/

/-- The integers of a value are of 64 bits. -/
inductive Sized : Value D → Prop
  | null : Sized .null
  | boolean (b : Bool) : Sized (.boolean b)
  | integer (z : ℤ) (hz : -2 ^ 63 ≤ z ∧ z < 2 ^ 63) : Sized (.integer z)
  | uinteger (n : ℕ) (hn : n < 2 ^ 64) : Sized (.uinteger n)
  | real (d : D) : Sized (.real d)
  | string (s : Bytes) : Sized (.string s)
  | array (es : List (Value D)) (h : ∀ e ∈ es, Sized e) : Sized (.array es)
  | object (ms : List (Key × Value D)) (h : ∀ m ∈ ms, Sized m.2) : Sized (.object ms)

/-- The members of a value's objects at any depth, and whether they are the first one of their object. -/
inductive MemberAt (key : Key) : Bool → Value D → Prop
  | element (he : e ∈ es) (h : MemberAt key first e) : MemberAt key first (.array es)
  | first (e : Value D) (ms : List (Key × Value D)) : MemberAt key true (.object ((key, e) :: ms))
  | next (m : Key × Value D) (hm : (key, e) ∈ ms) : MemberAt key false (.object (m :: ms))
  | inMember (hm : (key', e) ∈ ms) (h : MemberAt key first e) : MemberAt key first (.object ms)

/-- A key has no byte that needs an escape, or its escaped bytes and the comma are at most 12.  Where the bytes are not
the key's, they and the comma are at most 13, and one less if they are escaped. -/
def Key.HeadFits (key : Key) (first : Bool) : Prop :=
  match key.view with
  | some view => (∀ c ∈ view, needsEscape c = false) ∨ (comma first).length + (escapedText view).length ≤ 12
  | none =>
      if wordNeedsEscape (inlinedProbe (stray.word key) (stray.text key).length) then
        (comma first).length + (escapedText (stray.text key)).length ≤ 12
      else (comma first).length + (stray.text key).length ≤ 13

variable {reals : FastReals D} {stray : Stray} {junk : Key → ℕ} {key : Key} {w : Bytes} {word : BitVec 64}
  {indent n k v : ℕ} {first : Bool} {es : List (Value D)} {ms : List (Key × Value D)}

/-! ### Numbers -/

theorem length_reversedDigits (hk : 0 < k) (h : v < 10 ^ k) : (reversedDigits n v).length ≤ k := by
  induction n generalizing v k with
  | zero => exact Nat.zero_le k
  | succ n ih =>
      unfold reversedDigits
      split
      · next hv =>
        obtain ⟨j, rfl⟩ : ∃ j, k = j + 3 := by
          refine ⟨k - 3, (Nat.sub_add_cancel (Nat.lt_of_not_le fun hk => ?_)).symm⟩
          have := Nat.pow_le_pow_right (show 0 < 10 by decide) hk
          omega
        have hdiv : v / 100 < 10 ^ (j + 1) := by
          rw [Nat.div_lt_iff_lt_mul (by decide)]
          calc v < 10 ^ (j + 3) := h
            _ = 10 ^ (j + 1) * 100 := by ring
        have := ih (Nat.succ_pos j) hdiv
        simp only [List.length_cons]
        omega
      · split
        · next hv =>
          have hk : k ≠ 1 := fun hk => by
            rw [hk] at h
            omega
          simp only [List.length_cons, List.length_nil]
          omega
        · exact hk

theorem length_writeUinteger (hk : 0 < k) (h : v < 10 ^ k) : (writeUinteger v).length ≤ k := by
  rw [writeUinteger, List.length_reverse]
  exact length_reversedDigits hk h

theorem inBounds_uintegerStores {size start : ℕ} (hv : v < 2 ^ 64) (hsize : start + 20 ≤ size) :
    InBounds (uintegerStores size start v) := by
  have := length_writeUinteger (k := 20) (by decide) (hv.trans (by decide))
  rw [uintegerStores, inBounds_append, inBounds_fill, inBounds_fill, maxIntegerChars]
  omega

theorem inBounds_integerStores {z : ℤ} (hz : z < 2 ^ 63) : InBounds (integerStores z) := by
  unfold integerStores
  split
  · refine inBounds_append.mpr ⟨inBounds_fill.mpr (.inr (by decide)), inBounds_uintegerStores ?_ (by decide)⟩
    omega
  · exact inBounds_uintegerStores (by omega) (by decide)

theorem inBounds_fastLoop (d : D) {ks : List ℕ} (hks : ∀ k ∈ ks, k ≤ 6) : InBounds (fastLoop reals d ks) := by
  induction ks with
  | nil => exact inBounds_nil
  | cons k ks ih =>
      have ih := ih fun k hk => hks k (List.mem_cons_of_mem _ hk)
      have hk := hks k List.mem_cons_self
      unfold fastLoop
      split
      · exact inBounds_nil
      · next units _ =>
        split
        · exact ih
        · next hunits =>
          have hunits : units ≤ 2 ^ 53 := Nat.not_lt.mp fun h => hunits (.inl h)
          have hcount := length_writeUinteger (k := 16) (by decide) (hunits.trans_lt (by decide))
          have hminus : (minus (reals.negative d)).length ≤ 1 := by cases reals.negative d <;> simp [minus]
          refine inBounds_append.mpr ⟨inBounds_uintegerStores (hunits.trans_lt (by decide)) (by decide), ?_⟩
          rw [inBounds_fill, fixedLength, numberBufferSize]
          split
          · omega
          · split <;> omega

theorem inBounds_realStores (d : D) : InBounds (realStores reals d) := by
  unfold realStores
  split
  · exact inBounds_nil
  · exact inBounds_fastLoop d (by decide)

/-! ### Strings and keys -/

theorem inBounds_escapedStores (text : Bytes) : InBounds (escapedStores text) := by
  unfold escapedStores
  split
  · next hshort =>
    have hshort : text.length ≤ 16 := hshort
    have := length_buildQuoted text
    rw [inBounds_fill, shortStringScratch]
    omega
  · exact inBounds_nil

theorem length_comma (first : Bool) : (comma first).length ≤ 1 := by cases first <;> simp [comma]

theorem inBounds_inlinedStores (word : BitVec 64) (text : Bytes) (first : Bool) :
    InBounds (inlinedStores word text first) ↔
      if wordNeedsEscape (inlinedProbe word text.length) then (comma first).length + (escapedText text).length ≤ 12
      else (comma first).length + text.length ≤ 13 := by
  have hcomma := length_comma first
  have hquoted : (buildQuoted text).length = (escapedText text).length + 2 := by
    rw [buildQuoted_eq]
    simp
  unfold inlinedStores
  cases wordNeedsEscape (inlinedProbe word text.length) with
  | true =>
      simp only [Bool.not_true, Bool.false_eq_true, if_false, if_true, inBounds_append, inBounds_fill, hquoted]
      omega
  | false =>
      simp only [Bool.not_false, Bool.false_eq_true, if_false, if_true, inBounds_append, inBounds_fill]
      omega

theorem wordNeedsEscape_inlinedProbe (junk : Key → ℕ) (hin : key.inlined = true) (h : key.view = some w) :
    wordNeedsEscape (inlinedProbe (key.word junk) w.length) = w.any needsEscape :=
  key.wordNeedsEscape_probe junk hin h

theorem not_plain (h : w.any needsEscape = true) : ¬∀ c ∈ w, needsEscape c = false := by
  obtain ⟨c, hc, hescape⟩ := List.any_eq_true.mp h
  intro hplain
  rw [hplain c hc] at hescape
  cases hescape

/-- The head of a member with its key in it. -/
theorem inBounds_inlined_iff (junk : Key → ℕ) (hin : key.inlined = true) :
    InBounds (inlinedStores (key.seenWord stray junk) (key.seen stray) first) ↔ key.HeadFits stray first := by
  rw [inBounds_inlinedStores]
  unfold Key.HeadFits Key.seen Key.seenWord
  cases hview : key.view with
  | none => rfl
  | some view =>
      obtain ⟨hlen, -⟩ := key.word_spec junk hin hview
      have hcomma := length_comma first
      simp only [Option.getD_some, Option.isSome_some, if_true, wordNeedsEscape_inlinedProbe junk hin hview]
      cases hany : view.any needsEscape with
      | true =>
          simp [not_plain hany]
      | false =>
          have hplain : ∀ c ∈ view, needsEscape c = false := by simpa using List.any_eq_false.mp hany
          simp only [Bool.false_eq_true, if_false]
          exact ⟨fun _ => .inl hplain, fun _ => by omega⟩

/-- All other heads have room. -/
theorem inBounds_memberStores : InBounds (memberStores stray junk indent key first) ↔
    (indent = 0 → key.inlined = true → key.HeadFits stray first) := by
  unfold memberStores
  dsimp only
  split
  · next h =>
    rw [inBounds_inlined_iff junk h.2]
    exact ⟨fun hfits _ _ => hfits, fun hfits => hfits h.1 h.2⟩
  · next hnot =>
    have hskip : indent = 0 → key.inlined = true → key.HeadFits stray first := fun h0 hin => absurd ⟨h0, hin⟩ hnot
    refine iff_of_true ?_ hskip
    split
    · next hshort =>
      have hshort : (key.seen stray).length ≤ 16 := hshort.2
      have hquoted := length_buildQuoted (key.seen stray)
      have hcomma := length_comma first
      rw [inBounds_fill, shortStringScratch]
      omega
    · exact inBounds_escapedStores _

/-- The writer gets past a member's head exactly if all of its stores are in bounds. -/
theorem memberHead_ok_iff (hview : key.view = some w) (depth : ℕ) :
    (∃ t, memberHead junk depth indent key first = .ok t) ↔ InBounds (memberStores stray junk indent key first) := by
  have hcomma := length_comma first
  have hquoted := length_buildQuoted w
  rw [inBounds_memberStores]
  unfold memberHead
  rw [hview]
  dsimp only
  split
  · next hin =>
    have hfits : (comma first ++ (buildQuoted w ++ if w.any needsEscape then [0x22, 0x3A] else [0x3A])).length ≤ 16 ↔
        key.HeadFits stray first := by
      obtain ⟨hlen, -⟩ := key.word_spec junk hin.2 hview
      unfold Key.HeadFits
      rw [hview, buildQuoted_eq]
      dsimp only
      cases hany : w.any needsEscape with
      | true =>
          simp only [not_plain hany, false_or, if_true, List.length_append, List.length_cons, List.length_nil]
          omega
      | false =>
          have hplain : ∀ c ∈ w, needsEscape c = false := by simpa using List.any_eq_false.mp hany
          refine iff_of_true ?_ (.inl hplain)
          rw [escapedText_plain hplain]
          simp only [Bool.false_eq_true, if_false, List.length_append, List.length_cons, List.length_nil]
          omega
    rw [inlinedHead_eq junk hin.2 hview, scratch]
    by_cases hle : (comma first ++ (buildQuoted w ++ if w.any needsEscape then [0x22, 0x3A] else [0x3A])).length ≤ 16
    · rw [if_pos hle]
      exact iff_of_true ⟨_, rfl⟩ fun _ _ => hfits.mp hle
    · rw [if_neg hle]
      refine iff_of_false ?_ fun h => hle (hfits.mpr (h hin.1 hin.2))
      rintro ⟨_, h⟩
      cases h
  · next hnot =>
    refine iff_of_true ?_ fun h0 hin => absurd ⟨h0, hin⟩ hnot
    split
    · next hshort =>
      have : w.length ≤ 16 := hshort.2
      exact ⟨_, scratch_of_le (by unfold shortStringScratch; simp; omega)⟩
    · exact ⟨_, by rw [appendEscaped_eq]; rfl⟩

/-! ### Values -/

theorem inBounds_elementsStores : InBounds (elementsStores reals stray junk indent es) ↔
    ∀ e ∈ es, InBounds (valueStores reals stray junk indent e) := by
  induction es with
  | nil =>
      rw [elementsStores]
      exact iff_of_true inBounds_nil fun e he => nomatch he
  | cons e es ih => rw [elementsStores, inBounds_append, ih, List.forall_mem_cons]

theorem inBounds_membersStores : InBounds (membersStores reals stray junk indent false ms) ↔
    ∀ m ∈ ms, InBounds (memberStores stray junk indent m.1 false) ∧ InBounds (valueStores reals stray junk indent m.2) := by
  induction ms with
  | nil =>
      rw [membersStores]
      exact iff_of_true inBounds_nil fun e he => nomatch he
  | cons m ms ih => rw [membersStores, inBounds_append, inBounds_append, ih, List.forall_mem_cons, and_assoc]

/-- **The writer's stores** are in bounds exactly if it indents, or every key that is in its member fits into `head`. -/
theorem stores_in_bounds_iff (reals : FastReals D) (stray : Stray) (junk : Key → ℕ) (indent : ℕ) {value : Value D}
    (hv : Sized value) : InBounds (valueStores reals stray junk indent value) ↔
      (indent = 0 → ∀ key first, MemberAt key first value → key.inlined = true → key.HeadFits stray first) := by
  induction hv with
  | null | boolean => exact iff_of_true inBounds_nil fun _ _ _ h => nomatch h
  | integer z hz => exact iff_of_true (inBounds_integerStores hz.2) fun _ _ _ h => nomatch h
  | uinteger n hn => exact iff_of_true (inBounds_uintegerStores hn (by decide)) fun _ _ _ h => nomatch h
  | real d => exact iff_of_true (inBounds_realStores d) fun _ _ _ h => nomatch h
  | string s => exact iff_of_true (inBounds_escapedStores s) fun _ _ _ h => nomatch h
  | array es _ ih =>
      rw [valueStores, inBounds_elementsStores]
      constructor
      · intro h h0 key first hkey
        cases hkey with
        | element he hkey => exact (ih _ he).mp (h _ he) h0 key first hkey
      · intro h e he
        exact (ih e he).mpr fun h0 key first hkey => h h0 key first (.element he hkey)
  | object ms _ ih =>
      rw [valueStores]
      cases ms with
      | nil => 
          rw [membersStores]
          exact iff_of_true inBounds_nil fun _ _ _ h => by cases h with | inMember hm => cases hm
      | cons m ms =>
          rw [membersStores, inBounds_append, inBounds_append, inBounds_membersStores, inBounds_memberStores]
          constructor
          · intro ⟨hhead, hvalue, hrest⟩ h0 key first hkey
            cases hkey with
            | first => exact hhead h0
            | next _ hm => exact inBounds_memberStores.mp (hrest _ hm).1 h0
            | inMember hm hkey =>
                refine (ih _ hm).mp ?_ h0 key first hkey
                obtain rfl | hm := List.mem_cons.mp hm
                · exact hvalue
                · exact (hrest _ hm).2
          · intro h
            refine ⟨fun h0 => h h0 m.1 true (.first m.2 ms), ?_, fun m' hm => ⟨?_, ?_⟩⟩
            · exact (ih m List.mem_cons_self).mpr fun h0 key first hkey =>
                h h0 key first (.inMember List.mem_cons_self hkey)
            · exact inBounds_memberStores.mpr fun h0 => h h0 m'.1 false (.next m hm)
            · exact (ih m' (List.mem_cons_of_mem m hm)).mpr fun h0 key first hkey =>
                h h0 key first (.inMember (List.mem_cons_of_mem m hm) hkey)

/-- Doubles that are all too large for the short form. -/
def largeReals : FastReals Unit where
  large _ := true
  negative _ := false
  units _ _ := none
  exact _ _ _ := false

def noStray : Stray where
  text _ := []
  word _ := 0

/-- A letter as the key of the largest integer. -/
theorem stores_in_bounds_letter :
    Sized (.object [(Key.assign [0x61], .uinteger (2 ^ 64 - 1))] : Value Unit) ∧
      InBounds (valueStores largeReals noStray (fun _ => 0) 0 (.object [(Key.assign [0x61], .uinteger (2 ^ 64 - 1))])) := by
  have hsized : Sized (.object [(Key.assign [0x61], .uinteger (2 ^ 64 - 1))] : Value Unit) :=
    .object _ fun m hm => by
      rw [List.mem_singleton.mp hm]
      exact .uinteger _ (by decide)
  refine ⟨hsized, (stores_in_bounds_iff largeReals noStray (fun _ => 0) 0 hsized).mpr fun _ key first hkey _ => ?_⟩
  have hview : (Key.assign [0x61]).view = some [0x61] := by decide
  cases hkey with
  | first =>
      unfold Key.HeadFits
      rw [hview]
      refine .inl fun c hc => ?_
      rw [List.mem_singleton.mp hc]
      rfl
  | next _ hm => cases hm
  | inMember hm hkey =>
      rw [(Prod.mk.inj (List.mem_singleton.mp hm)).2] at hkey
      cases hkey

/-- The escapes of three control characters are 18 bytes: the colon behind them is stored at index 21. -/
theorem head_overrun :
    Sized (.object (objectAppend [] [1, 1, 1] .null true) : Value Unit) ∧
      ¬InBounds (valueStores largeReals noStray (fun _ => 0) 0 (.object (objectAppend [] [1, 1, 1] .null true))) := by
  have hstore : ⟨16, 21⟩ ∈ valueStores largeReals noStray (fun _ => 0) 0 (.object [(Key.assign [1, 1, 1], .null)]) := by
    simp only [valueStores, membersStores]
    decide
  have hobject : objectAppend [] [1, 1, 1] .null true = [(Key.assign [1, 1, 1], (.null : Value Unit))] := rfl
  rw [hobject]
  constructor
  · refine .object _ fun m hm => ?_
    rw [List.mem_singleton.mp hm]
    exact .null
  · intro h
    exact absurd (h _ hstore) (by decide)

end NeForce.Json
