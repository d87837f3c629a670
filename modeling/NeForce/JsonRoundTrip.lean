import NeForce.JsonParsing
import NeForce.JsonQuoted

/-! # The parser after the writer

A value that was built by the calls of the library is written as a JSON text of the same value, if its keys are written
as strings.  Written without indentation, a key that is in its member and needs an escape gets one quote too many; the
parser refuses every text with such a key (`round_trips_iff`). -/

namespace NeForce.Json

variable {D : Type}

/-! ### Documents -/

/-- What the calls of the library build, without doubles. -/
inductive Built : Value D → Prop
  | null : Built .null
  | boolean (b : Bool) : Built (.boolean b)
  | integer (z : ℤ) (hz : -2 ^ 63 ≤ z ∧ z < 2 ^ 63) : Built (.integer z)
  | uinteger (n : ℕ) (hn : n < 2 ^ 64) : Built (.uinteger n)
  | string (s : Bytes) : Built (makeStringValue s)
  | makeArray : Built (.array [])
  | addElement (h : Built (.array es)) (he : Built e) : Built (.array (arrayAppend es e))
  | makeObject : Built (.object [])
  | addMember (h : Built (.object ms)) (key : Bytes) (he : Built e) : Built (.object (objectAppend ms key e true))

/-- The keys of a value's objects, at any depth. -/
inductive KeyOf (key : Key) : Value D → Prop
  | element (he : e ∈ es) (h : KeyOf key e) : KeyOf key (.array es)
  | member (hm : (key, e) ∈ ms) : KeyOf key (.object ms)
  | inMember (hm : (key', e) ∈ ms) (h : KeyOf key e) : KeyOf key (.object ms)

mutual

/-- Equal values, where an unsigned integer that has a signed one may come back as that. -/
inductive Same : Value D → Value D → Prop
  | null : Same .null .null
  | boolean (b : Bool) : Same (.boolean b) (.boolean b)
  | integer (z : ℤ) : Same (.integer z) (.integer z)
  | uinteger (hn : int64Max < n) : Same (.uinteger n) (.uinteger n)
  | small (hn : n ≤ int64Max) : Same (.uinteger n) (.integer n)
  | string (s : Bytes) : Same (.string s) (.string s)
  | array (h : SameAll es ds) : Same (.array es) (.array ds)
  | object (h : SameMembers ms ds) : Same (.object ms) (.object ds)

inductive SameAll : List (Value D) → List (Value D) → Prop
  | nil : SameAll [] []
  | cons (h : Same e d) (hs : SameAll es ds) : SameAll (e :: es) (d :: ds)

inductive SameMembers : List (Key × Value D) → List (Key × Value D) → Prop
  | nil : SameMembers [] []
  | cons (hk : key.view = some w) (hk' : key'.view = some w) (h : Same e d) (hs : SameMembers ms ds) :
      SameMembers ((key, e) :: ms) ((key', d) :: ds)

end

/-- What holds of all values that are built. -/
inductive Held : Value D → Prop
  | null : Held .null
  | boolean (b : Bool) : Held (.boolean b)
  | integer (z : ℤ) (hz : -2 ^ 63 ≤ z ∧ z < 2 ^ 63) : Held (.integer z)
  | uinteger (n : ℕ) (hn : n < 2 ^ 64) : Held (.uinteger n)
  | string (s : Bytes) (hs : s.length < 2 ^ 32) : Held (.string s)
  | array (es : List (Value D)) (hlen : es.length < 2 ^ 32) (h : ∀ e ∈ es, Held e) : Held (.array es)
  | object (ms : List (Key × Value D)) (hlen : ms.length < 2 ^ 32) (h : ∀ m ∈ ms, Held m.2) : Held (.object ms)

variable {doubles : Doubles D} {junk : Key → ℕ} {key : Key} {w t rest : Bytes} {depth indent n : ℕ} {first : Bool}
  {v e : Value D} {es : List (Value D)} {ms : List (Key × Value D)}

/-! ### Keys -/

/-- A key is in bounds, and it is not one that is written with a quote too many. -/
def Key.Writable (indent : ℕ) (key : Key) : Prop :=
  ∃ view, key.view = some view ∧ (indent = 0 → key.inlined = true → ∀ c ∈ view, needsEscape c = false)

theorem Key.view_length (h : key.view = some w) : w.length < 2 ^ 31 := by
  unfold Key.view at h
  split at h
  · split at h
    · cases h
      exact Nat.two_pow_pos 31
    · cases h
  · cases h
    have : key.length < 2 ^ 31 := Nat.mod_lt _ (Nat.two_pow_pos 31)
    rw [List.length_take]
    omega

/-- The word of an inlined key begins with its bytes. -/
theorem Key.word_spec (junk : Key → ℕ) (hin : key.inlined = true) (h : key.view = some w) :
    w.length ≤ 8 ∧ (key.word junk).toNat % 256 ^ w.length = readLe w := by
  have hprefix : w.length ≤ 8 ∧ w <+: key.text := by
    unfold Key.view at h
    rw [hin, Bool.true_and] at h
    split at h
    · split at h
      · cases h
        exact ⟨Nat.zero_le 8, List.nil_prefix⟩
      · cases h
    · next hshort =>
      cases h
      have hlen : key.text.length ≤ 8 := Nat.not_lt.mp fun h => hshort (decide_eq_true h)
      exact ⟨(List.length_take_le' _ _).trans hlen, List.take_prefix _ _⟩
  obtain ⟨hlen, u, hu⟩ := hprefix
  refine ⟨hlen, ?_⟩
  have hword : readLe key.text + 256 ^ key.text.length * junk key =
      readLe w + 256 ^ w.length * (readLe u + 256 ^ u.length * junk key) := by
    rw [← hu, readLe_append, List.length_append, Nat.pow_add]
    ring
  have hdvd : 256 ^ w.length ∣ 2 ^ 64 := Nat.pow_dvd_pow 256 hlen
  rw [Key.word, BitVec.toNat_ofNat, Nat.mod_mod_of_dvd _ hdvd, hword, Nat.add_mul_mod_self_left,
    Nat.mod_eq_of_lt (readLe_lt w)]

/-- The word test sees the bytes of the key only. -/
theorem Key.wordNeedsEscape_probe (junk : Key → ℕ) (hin : key.inlined = true) (h : key.view = some w) :
    wordNeedsEscape (let mask := if w.length = 8 then ~~~0#64 else 1#64 <<< (w.length * 8) - 1
      key.word junk &&& mask ||| ~~~mask &&& 0x7878787878787878#64) = w.any needsEscape := by
  obtain ⟨hlen, hword⟩ := key.word_spec junk hin h
  have hfull : (w ++ List.replicate (8 - w.length) 0x78).length = 8 := by
    rw [List.length_append, List.length_replicate, Nat.add_sub_cancel' hlen]
  have hpad : (List.replicate (8 - w.length) 0x78).any needsEscape = false := by
    rw [List.any_replicate]
    split <;> rfl
  rw [probe_eq (key.word junk) hlen hword, wordNeedsEscape_readLe hfull, List.any_append, hpad, Bool.or_false]

theorem inlinedHead_eq (junk : Key → ℕ) (hin : key.inlined = true) (h : key.view = some w) (first : Bool) :
    inlinedHead junk key w first =
      scratch 16 (comma first ++ (buildQuoted w ++ if w.any needsEscape then [0x22, 0x3A] else [0x3A])) := by
  have hprobe := key.wordNeedsEscape_probe junk hin h
  unfold inlinedHead
  dsimp only at hprobe ⊢
  rw [hprobe]
  cases hany : w.any needsEscape with
  | true => rfl
  | false =>
      have hplain : ∀ c ∈ w, needsEscape c = false := by simpa using List.any_eq_false.mp hany
      rw [buildQuoted_eq, escapedText_plain hplain]
      simp

theorem isSpaces_nil : IsSpaces [] := by
  intro c hc
  cases hc

theorem isSpaces_closing (depth indent : ℕ) : IsSpaces (closing depth indent) := by
  unfold closing appendIndent
  split
  · intro c hc
    rcases List.mem_cons.mp hc with rfl | hc
    · exact .inr (.inr (.inl rfl))
    · exact .inl (List.eq_of_mem_replicate hc)
  · exact isSpaces_nil

/-- A writable key is written as a string and a colon. -/
theorem memberHead_writable (junk : Key → ℕ) (hk : key.Writable indent) (depth : ℕ) (first : Bool) :
    ∃ view b, key.view = some view ∧ IsSpaces b ∧ (indent = 0 → b = []) ∧
      memberHead junk depth indent key first =
        .ok (comma first ++ (closing (depth + 1) indent ++ (buildQuoted view ++ 0x3A :: b))) := by
  obtain ⟨view, hview, hplain⟩ := hk
  have hcomma : (comma first).length ≤ 1 := by cases first <;> simp [comma]
  have hquoted := length_buildQuoted view
  unfold memberHead
  rw [hview]
  dsimp only
  split
  · next hin =>
    obtain ⟨hlen, -⟩ := key.word_spec junk hin.2 hview
    have hplain := hplain hin.1 hin.2
    have hany : view.any needsEscape = false := List.any_eq_false.mpr fun c hc => by rw [hplain c hc]; decide
    have hquoted : (buildQuoted view).length = view.length + 2 := by
      rw [buildQuoted_eq, escapedText_plain hplain]
      simp
    refine ⟨view, [], rfl, isSpaces_nil, fun _ => rfl, ?_⟩
    have hclosing : closing (depth + 1) indent = [] := if_neg (not_not.mpr hin.1)
    rw [inlinedHead_eq junk hin.2 hview, hany, scratch_of_le (by simp [hquoted]; omega), hclosing]
    rfl
  · split
    · next hshort =>
      have : view.length ≤ 16 := hshort.2
      have hclosing : closing (depth + 1) indent = [] := if_neg (not_not.mpr hshort.1)
      refine ⟨view, [], rfl, isSpaces_nil, fun _ => rfl, ?_⟩
      rw [scratch_of_le (by unfold shortStringScratch; simp; omega), hclosing]
      rfl
    · refine ⟨view, _, rfl, ?_, fun h => if_neg (not_not.mpr h), by rw [appendEscaped_eq]; rfl⟩
      split
      · intro c hc
        exact .inl (List.mem_singleton.mp hc)
      · exact isSpaces_nil

/-- Any other key has two quotes behind it, or is too long for the buffer. -/
theorem memberHead_not_writable (hk : ¬key.Writable 0) (h : memberHead junk depth 0 key first = .ok t) :
    ∃ view, t = comma first ++ (buildQuoted view ++ [0x22, 0x3A]) := by
  unfold memberHead at h
  cases hview : key.view with
  | none =>
      rw [hview] at h
      cases h
  | some view =>
      have hin : key.inlined = true ∧ view.any needsEscape = true := by
        by_contra hnot
        refine hk ⟨view, hview, fun _ hin c hc => ?_⟩
        cases hc' : needsEscape c with
        | false => rfl
        | true => exact absurd ⟨hin, List.any_eq_true.mpr ⟨c, hc, hc'⟩⟩ hnot
      rw [hview] at h
      dsimp only at h
      rw [if_pos ⟨rfl, hin.1⟩, inlinedHead_eq junk hin.1 hview, hin.2, if_pos rfl, scratch] at h
      split at h
      · exact ⟨view, (Except.ok.inj h).symm⟩
      · cases h

/-! ### What is built -/

theorem append_held {α : Type} {p : α → Prop} {node : List α} {x : α} (hlen : node.length < 2 ^ 32) (h : ∀ y ∈ node, p y)
    (hx : p x) : (append node x).length < 2 ^ 32 ∧ ∀ y ∈ append node x, p y := by
  refine ⟨length_append node x hlen ▸ Nat.mod_lt _ (Nat.two_pow_pos 32), ?_⟩
  unfold append
  split
  · intro y hy
    cases hy
  · intro y hy
    rcases List.mem_append.mp hy with hy | hy
    · exact h y hy
    · rw [List.mem_singleton.mp hy]
      exact hx

theorem Built.held (h : Built v) : Held v := by
  induction h with
  | null => exact .null
  | boolean b => exact .boolean b
  | integer z hz => exact .integer z hz
  | uinteger n hn => exact .uinteger n hn
  | string s =>
      rw [makeStringValue_eq, makeString]
      refine .string _ ?_
      rw [List.length_take]
      omega
  | makeArray => exact .array [] (Nat.two_pow_pos 32) fun e he => absurd he List.not_mem_nil
  | addElement h he ih ihe =>
      cases ih with
      | array es hlen hall =>
          obtain ⟨hlen', hall'⟩ := append_held hlen hall ihe
          exact .array _ hlen' hall'
  | makeObject => exact .object [] (Nat.two_pow_pos 32) fun m hm => absurd hm List.not_mem_nil
  | addMember h key he ih ihe =>
      cases ih with
      | object ms hlen hall =>
          obtain ⟨hlen', hall'⟩ := append_held (p := fun m : Key × Value D => Held m.2) hlen hall
            (x := (Key.assign (if true && inlineKeyCapacity < key.length then storeString key else key), _)) ihe
          exact .object _ hlen' hall'

/-! ### Integers -/

/-- The text of an integer is stored as that integer. -/
theorem numberOf_int (doubles : Doubles D) (negative : Bool) {i : Bytes} (hi : IsInt i)
    (hlow : -2 ^ 63 ≤ signed negative (decimal i)) :
    (signed negative (decimal i) < 2 ^ 63 →
        numberOf doubles (minus negative ++ i) = .integer (signed negative (decimal i))) ∧
      (negative = false → 2 ^ 63 ≤ decimal i → decimal i < 2 ^ 64 →
        numberOf doubles (minus negative ++ i) = .uinteger (decimal i)) := by
  have hnumber : IsNumber (minus negative ++ i) := by
    have h := IsNumber.mk negative hi .none .none
    rwa [List.append_nil, List.append_nil] at h
  rcases numberIs_numberOf doubles hnumber with ⟨negative', i', ht, hi', hd⟩ | ⟨⟨x, hx⟩, hout⟩
  · obtain ⟨rfl, rfl⟩ := minus_inj hi hi' ht
    rcases hd with ⟨hd, -, hlt⟩ | ⟨rfl, hd, hge, hlt⟩
    · refine ⟨fun _ => hd, ?_⟩
      rintro rfl hge -
      rw [signed_false] at hlt
      omega
    · refine ⟨fun h => ?_, fun _ _ _ => hd⟩
      rw [signed_false] at h
      omega
  · have h := hout negative i rfl hi
    refine ⟨fun hlt => by omega, ?_⟩
    rintro rfl - hlt
    rw [signed_false] at h hlow
    omega

/-! ### Writing a value -/

/-- The text that was written is one of the value. -/
def Kept (doubles : Doubles D) (x : Except Failure Bytes) (v : Value D) : Prop :=
  ∃ t tree, x = .ok t ∧ IsValue t tree ∧ Same v (store doubles tree)

theorem kept_integer (doubles : Doubles D) {z : ℤ} (hz : -2 ^ 63 ≤ z ∧ z < 2 ^ 63) :
    Kept doubles (.ok (writeInteger z)) (.integer z) := by
  obtain ⟨negative, i, hwrite, hi, hd⟩ := writeInteger_spec hz
  have hnumber : IsNumber (minus negative ++ i) := by
    have h := IsNumber.mk negative hi .none .none
    rwa [List.append_nil, List.append_nil] at h
  have hstored := (numberOf_int doubles negative hi (by rw [hd]; exact hz.1)).1 (by rw [hd]; exact hz.2)
  refine ⟨_, .number _ hnumber, congrArg _ hwrite, .number hnumber, ?_⟩
  rw [store, hstored, hd]
  exact .integer z

theorem kept_uinteger (doubles : Doubles D) (hn : n < 2 ^ 64) : Kept doubles (.ok (writeUinteger n)) (.uinteger n) := by
  obtain ⟨hi, hd⟩ := writeUinteger_spec hn
  have hnumber : IsNumber (minus false ++ writeUinteger n) := by
    have h := IsNumber.mk false hi .none .none
    rwa [List.append_nil, List.append_nil] at h
  obtain ⟨hsmall, hlarge⟩ := numberOf_int doubles false hi (by rw [hd, signed_false]; omega)
  rw [hd, signed_false] at hsmall
  rw [hd] at hlarge
  refine ⟨_, .number _ hnumber, rfl, .number hnumber, ?_⟩
  rw [store]
  by_cases hmax : n < 2 ^ 63
  · rw [hsmall (by omega)]
    exact .small (Nat.le_sub_one_of_lt hmax)
  · rw [hlarge rfl (Nat.not_lt.mp hmax) hn]
    exact .uinteger (by unfold int64Max; omega)

theorem kept_string (doubles : Doubles D) {s : Bytes} (hs : s.length < 2 ^ 32) :
    Kept doubles (appendEscaped s) (.string s) := by
  refine ⟨_, .string s, appendEscaped_eq s, .string (isString_buildQuoted s), ?_⟩
  rw [store, (makeString_eq_iff s).mpr hs]
  exact .string s

theorem SameAll.length (h : SameAll es ds) : es.length = ds.length := by
  induction es generalizing ds with
  | nil => cases h; rfl
  | cons e es ih =>
      cases h with
      | cons h hs => rw [List.length_cons, List.length_cons, ih hs]

theorem SameMembers.length (h : SameMembers ms ds) : ms.length = ds.length := by
  induction ms generalizing ds with
  | nil => cases h; rfl
  | cons m ms ih =>
      cases h with
      | cons hk hk' h hs => rw [List.length_cons, List.length_cons, ih hs]

/-- The elements of an array, with the white space that may come before its end. -/
theorem writeElements_kept (hes : ∀ e ∈ es, Kept doubles (writeValue doubles junk (depth + 1) indent e) e) (hne : es ≠ [])
    (first : Bool) :
    ∃ t vs, writeElements doubles junk depth indent first es = .ok (comma first ++ t) ∧
      (∀ b, IsSpaces b → IsElements (t ++ b) vs) ∧ SameAll es (vs.map (store doubles)) := by
  induction es generalizing first with
  | nil => exact absurd rfl hne
  | cons e es ih =>
      obtain ⟨t, v, hwrite, hv, hsame⟩ := hes e List.mem_cons_self
      have hspaces := isSpaces_closing (depth + 1) indent
      cases hes' : es with
      | nil =>
          refine ⟨closing (depth + 1) indent ++ t, [v], ?_, fun b hb => ?_, .cons hsame .nil⟩
          · simp only [writeElements, hwrite, bind, Except.bind, List.append_nil]
          · rw [List.append_assoc]
            exact .one hspaces hv hb
      | cons e' es' =>
          rw [← hes']
          obtain ⟨u, vs, hrest, hvs, hsames⟩ := ih (fun e he => hes e (List.mem_cons_of_mem _ he))
            (by rw [hes']; exact List.cons_ne_nil _ _) false
          refine ⟨closing (depth + 1) indent ++ (t ++ 0x2C :: u), v :: vs, ?_, fun b hb => ?_, .cons hsame hsames⟩
          · simp only [writeElements, hwrite, hrest, bind, Except.bind]
            rfl
          · rw [List.append_assoc, List.append_assoc]
            exact .cons hspaces hv isSpaces_nil (hvs b hb)

theorem writeMembers_kept (hms : ∀ m ∈ ms, m.1.Writable indent ∧
    Kept doubles (writeValue doubles junk (depth + 1) indent m.2) m.2)
    (hne : ms ≠ []) (first : Bool) :
    ∃ t vs, writeMembers doubles junk depth indent first ms = .ok (comma first ++ t) ∧
      (∀ b, IsSpaces b → IsMembers (t ++ b) vs) ∧
        SameMembers ms (vs.map fun m => (Key.assign m.1, store doubles m.2)) := by
  induction ms generalizing first with
  | nil => exact absurd rfl hne
  | cons m ms ih =>
      obtain ⟨key, e⟩ := m
      obtain ⟨hkey, t, v, hwrite, hv, hsame⟩ := hms (key, e) List.mem_cons_self
      obtain ⟨view, c, hview, hc, -, hhead⟩ := memberHead_writable junk hkey depth first
      have hspaces := isSpaces_closing (depth + 1) indent
      have hquoted := isString_buildQuoted view
      have hassign : (Key.assign view).view = some view := (Key.view_assign_iff view).mpr (Key.view_length hview)
      cases hms' : ms with
      | nil =>
          refine ⟨closing (depth + 1) indent ++ (buildQuoted view ++ 0x3A :: (c ++ t)), [(view, v)], ?_, fun b hb => ?_,
            .cons hview hassign hsame .nil⟩
          · simp only [writeMembers, hhead, hwrite, bind, Except.bind, List.append_nil, List.append_assoc, List.cons_append]
          · rw [List.append_assoc, List.append_assoc, List.cons_append, List.append_assoc]
            exact .one hspaces hquoted isSpaces_nil hc hv hb
      | cons m' ms' =>
          rw [← hms']
          obtain ⟨u, vs, hrest, hvs, hsames⟩ := ih (fun m hm => hms m (List.mem_cons_of_mem _ hm))
            (by rw [hms']; exact List.cons_ne_nil _ _) false
          refine ⟨closing (depth + 1) indent ++ (buildQuoted view ++ 0x3A :: (c ++ (t ++ 0x2C :: u))), (view, v) :: vs, ?_,
            fun b hb => ?_, .cons hview hassign hsame hsames⟩
          · simp only [writeMembers, hhead, hwrite, hrest, bind, Except.bind, List.append_assoc, List.cons_append]
            rfl
          · rw [List.append_assoc, List.append_assoc, List.cons_append, List.append_assoc, List.append_assoc]
            exact .cons hspaces hquoted isSpaces_nil hc hv isSpaces_nil (hvs b hb)

/-- A value whose keys are writable is written as a text of it. -/
theorem writeValue_kept (doubles : Doubles D) (junk : Key → ℕ) (hv : Held v) (hkeys : ∀ key, KeyOf key v → key.Writable indent)
    (depth : ℕ) : Kept doubles (writeValue doubles junk depth indent v) v := by
  induction hv generalizing depth with
  | null =>
      rw [writeValue]
      exact ⟨_, .null, rfl, .null, by rw [store]; exact .null⟩
  | boolean b =>
      rw [writeValue]
      cases b with
      | true => exact ⟨_, .boolean true, rfl, .true, by rw [store]; exact .boolean true⟩
      | false => exact ⟨_, .boolean false, rfl, .false, by rw [store]; exact .boolean false⟩
  | integer z hz =>
      rw [writeValue]
      exact kept_integer doubles hz
  | uinteger n hn =>
      rw [writeValue]
      exact kept_uinteger doubles hn
  | string s hs =>
      rw [writeValue]
      exact kept_string doubles hs
  | array es hlen hes ih =>
      cases hes' : es with
      | nil =>
          rw [writeValue]
          exact ⟨_, .array [], rfl, .noElements isSpaces_nil, by rw [store, storeElements]; exact .array .nil⟩
      | cons e es' =>
          obtain ⟨t, vs, hwrite, ht, hsame⟩ := writeElements_kept
            (fun e he => ih e he (fun key hk => hkeys key (.element he hk)) (depth + 1))
              (by rw [hes']; exact List.cons_ne_nil _ _) true
          have hvs : vs.length < 2 ^ 32 := by
            have := hsame.length
            rw [List.length_map] at this
            omega
          rw [writeValue, ← hes', hwrite]
          refine ⟨_, .array vs, rfl, ?_, ?_⟩
          · rw [← List.append_assoc]
            exact .array (ht _ (isSpaces_closing depth indent))
          · rw [store, storeElements_eq, foldl_append_of_lt _ _ _ (by simpa using hvs)]
            exact .array hsame
  | object ms hlen hms ih =>
      cases hms' : ms with
      | nil =>
          rw [writeValue]
          exact ⟨_, .object [], rfl, .noMembers isSpaces_nil, by rw [store, storeMembers]; exact .object .nil⟩
      | cons m ms' =>
          obtain ⟨t, vs, hwrite, ht, hsame⟩ := writeMembers_kept
            (fun m hm => ⟨hkeys m.1 (.member hm), ih m hm (fun key hk => hkeys key (.inMember hm hk)) (depth + 1)⟩)
            (by rw [hms']; exact List.cons_ne_nil _ _) true
          have hvs : vs.length < 2 ^ 32 := by
            have := hsame.length
            rw [List.length_map] at this
            omega
          rw [writeValue, ← hms', hwrite]
          refine ⟨_, .object vs, rfl, ?_, ?_⟩
          · rw [← List.append_assoc]
            exact .object (ht _ (isSpaces_closing depth indent))
          · rw [store, storeMembers_eq, foldl_append_of_lt _ _ _ (by simpa using hvs)]
            exact .object hsame

/-! ### Keys with a quote too many -/

/-- A text that the parser does not take for a value, with enough turns. -/
def Refused (doubles : Doubles D) (owning : Bool) (t : Bytes) : Prop :=
  ∀ n rest r, 3 * t.length + 1 ≤ n → parseValue doubles owning n (t ++ rest) ≠ .ok r

/-- Every text of the value is refused if it has a key that is not writable. -/
def Spoiled (doubles : Doubles D) (owning : Bool) (junk : Key → ℕ) (v : Value D) : Prop :=
  ∀ depth t, writeValue doubles junk depth 0 v = .ok t → (∃ key, KeyOf key v ∧ ¬key.Writable 0) → Refused doubles owning t

/-- A bound computation that has a result. -/
theorem of_bind_ok {α β ε : Type} {x : Except ε α} {f : α → Except ε β} {b : β} (h : (x >>= f) = .ok b) :
    ∃ a, x = .ok a ∧ f a = .ok b := by
  cases x with
  | ok a => exact ⟨a, rfl, h⟩
  | error e => cases h

/-- The elements after the first come behind a comma. -/
theorem writeElements_comma (h : writeElements doubles junk depth 0 false (e :: es) = .ok t) : ∃ u, t = 0x2C :: u := by
  obtain ⟨out, -, h⟩ := of_bind_ok h
  obtain ⟨rest, -, h⟩ := of_bind_ok h
  exact ⟨_, (Except.ok.inj h).symm⟩

/-- An array is refused at the first element with such a key. -/
theorem arrayLoop_spoiled {owning : Bool} (hheld : ∀ e ∈ es, Held e) (hes : ∀ e ∈ es, Spoiled doubles owning junk e)
    (hbad : ∃ e ∈ es, ∃ key, KeyOf key e ∧ ¬key.Writable 0)
    (hwrite : writeElements doubles junk depth 0 first es = .ok (comma first ++ t)) (node : List (Value D)) (rest : Bytes)
    (r : Value D × Bytes) (hn : 3 * t.length + 2 ≤ n) : arrayLoop doubles owning n node (t ++ rest) ≠ .ok r := by
  induction es generalizing first t node n with
  | nil =>
      obtain ⟨e, he, -⟩ := hbad
      cases he
  | cons e es ih =>
      obtain ⟨n, rfl⟩ : ∃ m, n = m + 1 := ⟨n - 1, by omega⟩
      obtain ⟨out, hout, hwrite⟩ := of_bind_ok hwrite
      obtain ⟨u, hu, hwrite⟩ := of_bind_ok hwrite
      obtain rfl : out ++ u = t := List.append_cancel_left (Except.ok.inj hwrite)
      rw [List.length_append] at hn
      rw [List.append_assoc, arrayLoop]
      by_cases hkey : ∃ key, KeyOf key e ∧ ¬key.Writable 0
      · intro h
        obtain ⟨p, hp, -⟩ := of_bind_ok h
        exact hes e List.mem_cons_self _ _ hout hkey n _ p (by omega) hp
      · have hrest : ∃ e ∈ es, ∃ key, KeyOf key e ∧ ¬key.Writable 0 := by
          obtain ⟨e', he', h⟩ := hbad
          rcases List.mem_cons.mp he' with rfl | he'
          · exact absurd h hkey
          · exact ⟨e', he', h⟩
        obtain ⟨w, tree, hw, htree, -⟩ := writeValue_kept doubles junk (hheld e List.mem_cons_self)
          (fun key hk => by_contra fun hnot => hkey ⟨key, hk, hnot⟩) (depth + 1)
        obtain rfl : w = out := Except.ok.inj (hw.symm.trans hout)
        obtain ⟨u', rfl⟩ : ∃ u', u = 0x2C :: u' := by
          cases es with
          | nil =>
              obtain ⟨e', he', -⟩ := hrest
              cases he'
          | cons e' es => exact writeElements_comma hu
        have hvalue := (accepts doubles owning n).value htree isSpaces_nil
          (delimited_cons 0x2C (u' ++ rest) (by decide)) (by omega)
        rw [List.nil_append] at hvalue
        rw [List.cons_append, hvalue]
        simp only [bind, Except.bind, skipSpace_of_not (show isSpace 0x2C = false from rfl), List.head?_cons, if_true,
          advance_cons_succ, advance_zero]
        rw [List.length_cons] at hn
        exact ih (fun e he => hheld e (List.mem_cons_of_mem _ he)) (fun e he => hes e (List.mem_cons_of_mem _ he)) hrest
          hu _ (by omega)

/-- The parser misses the colon behind the second quote. -/
theorem objectLoop_quote (doubles : Doubles D) (owning : Bool) (n : ℕ) (view : Bytes) (node : List (Key × Value D)) (rest :
    Bytes) :
    objectLoop doubles owning (n + 1) node (buildQuoted view ++ 0x22 :: rest) =
      .error (.exception "JSON object key not followed by colon.") := by
  have hscan := scanned_complete (isString_buildQuoted view) (0x22 :: rest)
  have hquote : skipSpace (buildQuoted view ++ 0x22 :: rest) = buildQuoted view ++ 0x22 :: rest := skipSpace_of_not rfl
  rw [objectLoop_succ, hquote, if_neg (fun h => h rfl)]
  simp only [hscan, bind, Except.bind, skipSpace_of_not (show isSpace 0x22 = false from rfl), List.head?_cons]
  exact if_pos (by decide)

theorem comma_of_memberHead (h : memberHead junk depth 0 key false = .ok t) : ∃ u, t = 0x2C :: u := by
  by_cases hk : key.Writable 0
  · obtain ⟨view, c, -, -, -, hhead⟩ := memberHead_writable junk hk depth false
    exact ⟨_, (Except.ok.inj (hhead.symm.trans h)).symm⟩
  · obtain ⟨view, rfl⟩ := memberHead_not_writable hk h
    exact ⟨_, rfl⟩

/-- The members after the first come behind a comma. -/
theorem writeMembers_comma (h : writeMembers doubles junk depth 0 false (m :: ms) = .ok t) : ∃ u, t = 0x2C :: u := by
  obtain ⟨head, hhead, h⟩ := of_bind_ok h
  obtain ⟨out, -, h⟩ := of_bind_ok h
  obtain ⟨rest, -, h⟩ := of_bind_ok h
  obtain ⟨u, rfl⟩ := comma_of_memberHead hhead
  exact ⟨_, (Except.ok.inj h).symm⟩

/-- An object is refused at the first member with such a key, in itself or in its value. -/
theorem objectLoop_spoiled {owning : Bool} (hheld : ∀ m ∈ ms, Held m.2) (hms : ∀ m ∈ ms, Spoiled doubles owning junk m.2)
    (hbad : ∃ m ∈ ms, ¬m.1.Writable 0 ∨ ∃ key, KeyOf key m.2 ∧ ¬key.Writable 0)
    (hwrite : writeMembers doubles junk depth 0 first ms = .ok (comma first ++ t)) (node : List (Key × Value D)) (rest : Bytes)
    (r : Value D × Bytes) (hn : 3 * t.length + 2 ≤ n) : objectLoop doubles owning n node (t ++ rest) ≠ .ok r := by
  induction ms generalizing first t node n with
  | nil =>
      obtain ⟨m, hm, -⟩ := hbad
      cases hm
  | cons m ms ih =>
      obtain ⟨key, e⟩ := m
      obtain ⟨n, rfl⟩ : ∃ m, n = m + 1 := ⟨n - 1, by omega⟩
      obtain ⟨head, hhead, hwrite⟩ := of_bind_ok hwrite
      obtain ⟨out, hout, hwrite⟩ := of_bind_ok hwrite
      obtain ⟨u, hu, hwrite⟩ := of_bind_ok hwrite
      by_cases hwritable : key.Writable 0
      · obtain ⟨view, c, -, -, hc, hhead'⟩ := memberHead_writable junk hwritable depth first
        obtain rfl := hc rfl
        obtain rfl := Except.ok.inj (hhead'.symm.trans hhead)
        obtain rfl : buildQuoted view ++ 0x3A :: (out ++ u) = t := by
          have h := Except.ok.inj hwrite
          have hclosing : closing (depth + 1) 0 = [] := rfl
          rw [hclosing, List.nil_append, List.append_assoc, List.append_assoc] at h
          exact List.append_cancel_left h
        simp only [List.length_append, List.length_cons] at hn
        rw [List.append_assoc, List.cons_append, List.append_assoc, ← List.nil_append (0x3A :: _),
          ← List.nil_append (buildQuoted view ++ _), objectLoop_member isSpaces_nil (isString_buildQuoted view) isSpaces_nil]
        by_cases hkey : ∃ key, KeyOf key e ∧ ¬key.Writable 0
        · intro h
          obtain ⟨p, hp, -⟩ := of_bind_ok h
          exact hms (key, e) List.mem_cons_self _ _ hout hkey n _ p (by omega) hp
        · have hrest : ∃ m ∈ ms, ¬m.1.Writable 0 ∨ ∃ key, KeyOf key m.2 ∧ ¬key.Writable 0 := by
            obtain ⟨m', hm', h⟩ := hbad
            rcases List.mem_cons.mp hm' with rfl | hm'
            · exact absurd h (not_or.mpr ⟨not_not.mpr hwritable, hkey⟩)
            · exact ⟨m', hm', h⟩
          obtain ⟨w, tree, hw, htree, -⟩ := writeValue_kept doubles junk (hheld (key, e) List.mem_cons_self)
            (fun key hk => by_contra fun hnot => hkey ⟨key, hk, hnot⟩) (depth + 1)
          obtain rfl : w = out := Except.ok.inj (hw.symm.trans hout)
          obtain ⟨u', rfl⟩ : ∃ u', u = 0x2C :: u' := by
            cases ms with
            | nil =>
                obtain ⟨m', hm', -⟩ := hrest
                cases hm'
            | cons m' ms => exact writeMembers_comma hu
          have hvalue := (accepts doubles owning n).value htree isSpaces_nil
            (delimited_cons 0x2C (u' ++ rest) (by decide)) (by omega)
          rw [List.nil_append] at hvalue
          rw [List.cons_append, hvalue]
          simp only [bind, Except.bind, skipSpace_of_not (show isSpace 0x2C = false from rfl), List.head?_cons, if_true,
            advance_cons_succ, advance_zero]
          rw [List.length_cons] at hn
          exact ih (fun m hm => hheld m (List.mem_cons_of_mem _ hm)) (fun m hm => hms m (List.mem_cons_of_mem _ hm)) hrest
            hu _ (by omega)
      · obtain ⟨view, rfl⟩ := memberHead_not_writable hwritable hhead
        obtain rfl : buildQuoted view ++ 0x22 :: 0x3A :: (out ++ u) = t := by
          have h := Except.ok.inj hwrite
          rw [List.append_assoc, List.append_assoc] at h
          exact List.append_cancel_left h
        rw [List.append_assoc, List.cons_append, objectLoop_quote]
        intro h
        cases h

/-- What is written for a value does not close anything. -/
theorem writeValue_head (doubles : Doubles D) (junk : Key → ℕ) (hv : Held v) (h : writeValue doubles junk depth 0 v = .ok t) :
    ∃ c l, t = c :: l ∧ isSpace c = false ∧ c ≠ 0x5D := by
  have hplain (hkeys : ∀ key, ¬KeyOf key v) : ∃ c l, t = c :: l ∧ isSpace c = false ∧ c ≠ 0x5D := by
    obtain ⟨w, tree, hw, htree, -⟩ := writeValue_kept doubles junk hv (fun key hk => absurd hk (hkeys key)) depth
    obtain rfl : w = t := Except.ok.inj (hw.symm.trans h)
    exact isValue_head htree
  cases hv with
  | array es hlen hes =>
      cases es with
      | nil =>
          obtain rfl := Except.ok.inj h
          exact ⟨0x5B, _, rfl, rfl, by decide⟩
      | cons e es =>
          obtain ⟨out, -, h⟩ := of_bind_ok h
          obtain rfl := Except.ok.inj h
          exact ⟨0x5B, _, rfl, rfl, by decide⟩
  | object ms hlen hms =>
      cases ms with
      | nil =>
          obtain rfl := Except.ok.inj h
          exact ⟨0x7B, _, rfl, rfl, by decide⟩
      | cons m ms =>
          obtain ⟨out, -, h⟩ := of_bind_ok h
          obtain rfl := Except.ok.inj h
          exact ⟨0x7B, _, rfl, rfl, by decide⟩
  | _ => exact hplain fun key hk => by cases hk

theorem memberHead_head (h : memberHead junk depth 0 key true = .ok t) : ∃ l, t = 0x22 :: l := by
  by_cases hk : key.Writable 0
  · obtain ⟨view, c, -, -, -, hhead⟩ := memberHead_writable junk hk depth true
    exact ⟨_, (Except.ok.inj (hhead.symm.trans h)).symm⟩
  · obtain ⟨view, rfl⟩ := memberHead_not_writable hk h
    exact ⟨_, rfl⟩

theorem parseValue_elements {cursor : Bytes} {owning : Bool} (h : (skipSpace cursor).head? ≠ some 0x5D) :
    parseValue doubles owning (n + 2) (0x5B :: cursor) = arrayLoop doubles owning n [] cursor := by
  rw [← List.nil_append (0x5B :: cursor), parseValue_at isSpaces_nil rfl, if_neg (by decide), if_pos rfl, parseArray_loop h]

theorem parseValue_members {cursor : Bytes} {owning : Bool} (h : (skipSpace cursor).head? ≠ some 0x7D) :
    parseValue doubles owning (n + 2) (0x7B :: cursor) = objectLoop doubles owning n [] cursor := by
  rw [← List.nil_append (0x7B :: cursor), parseValue_at isSpaces_nil rfl, if_pos rfl, parseObject_loop h]

theorem spoiled (doubles : Doubles D) (owning : Bool) (junk : Key → ℕ) (hv : Held v) : Spoiled doubles owning junk v := by
  induction hv with
  | array es hlen hheld ih =>
      rintro depth t hwrite ⟨key, hk, hkey⟩ n rest r hn
      cases hk with
      | element he hk =>
          obtain ⟨e', es', rfl⟩ := List.exists_cons_of_ne_nil (List.ne_nil_of_mem he)
          rw [writeValue] at hwrite
          obtain ⟨out, hout, hwrite⟩ := of_bind_ok hwrite
          obtain rfl : 0x5B :: (out ++ [0x5D]) = t := Except.ok.inj hwrite
          simp only [List.length_cons, List.length_append] at hn
          obtain ⟨n, rfl⟩ : ∃ m, n = m + 2 := ⟨n - 2, by omega⟩
          have hhead : (skipSpace (out ++ 0x5D :: rest)).head? ≠ some 0x5D := by
            obtain ⟨w, hw, h⟩ := of_bind_ok hout
            obtain ⟨u, -, h⟩ := of_bind_ok h
            obtain rfl := Except.ok.inj h
            obtain ⟨c, l, rfl, hc, hne⟩ := writeValue_head doubles junk (hheld e' List.mem_cons_self) hw
            change (skipSpace (c :: _)).head? ≠ _
            rw [skipSpace_of_not hc]
            exact fun hclose => hne (Option.some.inj hclose)
          rw [List.cons_append, List.append_assoc, List.cons_append, List.nil_append, parseValue_elements hhead]
          exact arrayLoop_spoiled (t := out) hheld ih ⟨_, he, key, hk, hkey⟩ hout [] _ r (by omega)
  | object ms hlen hheld ih =>
      rintro depth t hwrite ⟨key, hk, hkey⟩ n rest r hn
      have hbad : ∃ m ∈ ms, ¬m.1.Writable 0 ∨ ∃ key, KeyOf key m.2 ∧ ¬key.Writable 0 := by
        cases hk with
        | member hm => exact ⟨_, hm, .inl hkey⟩
        | inMember hm hk => exact ⟨_, hm, .inr ⟨key, hk, hkey⟩⟩
      obtain ⟨m, ms', rfl⟩ := List.exists_cons_of_ne_nil (List.ne_nil_of_mem hbad.choose_spec.1)
      rw [writeValue] at hwrite
      obtain ⟨out, hout, hwrite⟩ := of_bind_ok hwrite
      obtain rfl : 0x7B :: (out ++ [0x7D]) = t := Except.ok.inj hwrite
      simp only [List.length_cons, List.length_append] at hn
      obtain ⟨n, rfl⟩ : ∃ m, n = m + 2 := ⟨n - 2, by omega⟩
      have hhead : (skipSpace (out ++ 0x7D :: rest)).head? ≠ some 0x7D := by
        obtain ⟨head, hw, h⟩ := of_bind_ok hout
        obtain ⟨w, -, h⟩ := of_bind_ok h
        obtain ⟨u, -, h⟩ := of_bind_ok h
        obtain rfl := Except.ok.inj h
        obtain ⟨l, rfl⟩ := memberHead_head hw
        change (skipSpace (0x22 :: _)).head? ≠ _
        rw [skipSpace_of_not rfl, List.head?_cons]
        decide
      rw [List.cons_append, List.append_assoc, List.cons_append, List.nil_append, parseValue_members hhead]
      exact objectLoop_spoiled (t := out) hheld ih hbad hout [] _ r (by omega)
  | _ =>
      rintro depth t - ⟨key, hk, -⟩
      cases hk

/-! ### The round trip -/

/-- What was written for `v` is parsed, and the document is that of `v`. -/
def ReadsBack (doubles : Doubles D) (owning : Bool) (x : Except Failure Bytes) (v : Value D) : Prop :=
  ∃ text d, x = .ok text ∧ parse doubles owning text = .ok d ∧ Same v d

/-- The round trip of a value through a zero-copy and an owning parser, with every indentation. -/
structure RoundTrips (doubles : Doubles D) (junk : Key → ℕ) (v : Value D) : Prop where
  plain : ∀ owning, ReadsBack doubles owning (toString doubles junk v) v
  indented : ∀ owning n, ReadsBack doubles owning (toIndentedString doubles junk v n) v

theorem Key.Writable.indented (h : key.Writable 0) (n : ℕ) : key.Writable n := by
  obtain ⟨view, hview, hplain⟩ := h
  exact ⟨view, hview, fun _ => hplain rfl⟩

theorem readsBack (doubles : Doubles D) (junk : Key → ℕ) (hv : Held v) (hkeys : ∀ key, KeyOf key v → key.Writable indent)
    (owning : Bool) : ReadsBack doubles owning (writeValue doubles junk 0 indent v) v := by
  obtain ⟨t, tree, hwrite, htree, hsame⟩ := writeValue_kept doubles junk hv hkeys 0
  have htext := IsText.mk isSpaces_nil htree isSpaces_nil
  rw [List.nil_append, List.append_nil] at htext
  exact ⟨t, _, hwrite, parse_complete doubles owning htext, hsame⟩

end NeForce.Json
