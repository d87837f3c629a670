import NeForce.JsonStored

/-! # The JSON parser accepts what the grammar derives

Soundness and completeness go by the turns that a parser is given; every turn of a loop and every level of a value takes
at least one byte.  No run reads behind the end of its text. -/

namespace NeForce.Json

variable {D : Type} {doubles : Doubles D} {owning : Bool} {a t rest cursor : Bytes} {v : Tree} {n : ℕ}

/-! ### White space and keywords -/

theorem isSpaces_iff : IsSpaces t ↔ ∀ c ∈ t, isSpace c = true := by
  simp only [IsSpaces, isSpace, Bool.or_eq_true, decide_eq_true_eq, or_assoc]

theorem skipSpace_append (ha : IsSpaces a) (rest : Bytes) : skipSpace (a ++ rest) = skipSpace rest := by
  rw [isSpaces_iff] at ha
  induction a with
  | nil => rfl
  | cons c a ih =>
      rw [List.cons_append, skipSpace, if_pos (ha c List.mem_cons_self)]
      exact ih fun d hd => ha d (List.mem_cons_of_mem _ hd)

theorem skipSpace_of_not {c : UInt8} (hc : isSpace c = false) : skipSpace (c :: rest) = c :: rest := by
  rw [skipSpace, if_neg (by simp [hc])]

theorem skipSpace_spec (cursor : Bytes) : ∃ a, IsSpaces a ∧ cursor = a ++ skipSpace cursor := by
  simp only [isSpaces_iff]
  induction cursor with
  | nil => exact ⟨[], by simp, rfl⟩
  | cons c cursor ih =>
      obtain ⟨a, ha, hcursor⟩ := ih
      cases hc : isSpace c with
      | true =>
          rw [skipSpace, if_pos hc]
          exact ⟨c :: a, by simpa [hc] using ha, congrArg _ hcursor⟩
      | false =>
          rw [skipSpace_of_not hc]
          exact ⟨[], by simp, rfl⟩

theorem skipSpace_self (hrest : IsSpaces rest) : skipSpace rest = [] := by
  have h := skipSpace_append hrest []
  rwa [List.append_nil] at h

theorem lettersAt_cons {c : UInt8} (w : Bytes) (k : ℕ) : lettersAt (c :: cursor) (k + 1) w = lettersAt cursor k w := by
  induction w generalizing k with
  | nil => rfl
  | cons d w ih => simp only [lettersAt, readAt_cons_succ, ih]

theorem lettersAt_eq {w : Bytes} (h : w.length ≤ cursor.length) : lettersAt cursor 0 w = .ok (w.isPrefixOf cursor) := by
  induction w generalizing cursor with
  | nil => simp [lettersAt]
  | cons c w ih =>
      cases cursor with
      | nil => simp at h
      | cons d cursor =>
          simp only [lettersAt, readAt_cons_zero, bind, Except.bind, lettersAt_cons, List.isPrefixOf]
          split
          · next hd => rw [ih (by simpa using h), hd, beq_self_eq_true, Bool.true_and]
          · next hd => rw [beq_false_of_ne (Ne.symm hd), Bool.false_and]

theorem keywordOf_spec (doubles : Doubles D) {c : UInt8} {word : Bytes} {value : Value D}
    (h : keywordOf c = some (word, value)) : ∃ w v, word = c :: w ∧ IsValue word v ∧ value = store doubles v := by
  unfold keywordOf at h
  split_ifs at h with h1 h2 h3 <;> cases h
  · exact ⟨ascii "rue", .boolean true, by rw [h1]; rfl, .true, by rw [store]⟩
  · exact ⟨ascii "alse", .boolean false, by rw [h2]; rfl, .false, by rw [store]⟩
  · exact ⟨ascii "ull", .null, by rw [h3]; rfl, .null, by rw [store]⟩

theorem parseKeyword_complete {c : UInt8} {w : Bytes} {value : Value D} (h : keywordOf c = some (c :: w, value))
    (rest : Bytes) : parseKeyword (c :: (w ++ rest)) = .ok (value, rest) := by
  unfold parseKeyword
  simp only [readAt_cons_zero, bind, Except.bind, h]
  rw [if_neg (by simp), List.tail_cons, lettersAt_cons, lettersAt_eq (by simp), List.isPrefixOf_iff_prefix.mpr (List.prefix_append _ _)]
  have hadvance := advance_append (c :: w) rest
  rw [List.cons_append] at hadvance
  simp only [hadvance, if_true]

theorem parseKeyword_spec (doubles : Doubles D) (c : UInt8) (cursor : Bytes) :
    Ensures Failure.IsException (parseKeyword (c :: cursor)) fun r : Value D × Bytes =>
      ∃ t v, c :: cursor = t ++ r.2 ∧ IsValue t v ∧ r.1 = store doubles v := by
  cases hk : (keywordOf c : Option (Bytes × Value D)) with
  | none =>
      unfold parseKeyword
      simp only [readAt_cons_zero, bind, Except.bind, hk]
      exact Failure.isException _
  | some p =>
      obtain ⟨word, value⟩ := p
      obtain ⟨w, v, rfl, hv, rfl⟩ := keywordOf_spec doubles hk
      by_cases hw : w <+: cursor
      · obtain ⟨rest, rfl⟩ := hw
        rw [parseKeyword_complete hk]
        exact ⟨c :: w, v, rfl, hv, rfl⟩
      · unfold parseKeyword
        simp only [readAt_cons_zero, bind, Except.bind, hk]
        split
        · exact Failure.isException _
        · next hlen =>
          rw [List.tail_cons, lettersAt_cons, lettersAt_eq (by simpa using hlen),
            Bool.eq_false_iff.mpr (mt List.isPrefixOf_iff_prefix.mp hw)]
          exact Failure.isException _

/-! ### Strings -/

theorem parseString_eq (cursor : Bytes) :
    (parseString owning (0x22 :: cursor) : Except Failure (Value D × Bytes)) =
      (scanned (0x22 :: cursor)).map fun r => (makeString r.1, r.2) := by
  unfold parseString scanned
  rw [if_neg (by simp)]
  simp only [makeStringValue_eq, ite_self, bind, Except.bind]
  cases scanString (0x22 :: cursor) with
  | error e => rfl
  | ok scan =>
      dsimp only
      cases he : scan.escaped with
      | false => rfl
      | true =>
          cases decodeString scan.text with
          | error e => rfl
          | ok s => rfl

/-- A turn of the loop of `parse_object`. -/
theorem objectLoop_succ (node : List (Key × Value D)) (cursor : Bytes) :
    objectLoop doubles owning (n + 1) node cursor =
      (if (skipSpace cursor).head? ≠ some 0x22 then .error (.exception "JSON object key expected.")
      else do
        let (key, cursor) ← scanned (skipSpace cursor)
        if (skipSpace cursor).head? ≠ some 0x3A then .error (.exception "JSON object key not followed by colon.")
        else
          let (value, cursor) ← parseValue doubles owning n (← advance 1 (skipSpace cursor))
          let node := objectAppend node key value false
          if (skipSpace cursor).head? = some 0x2C then objectLoop doubles owning n node (← advance 1 (skipSpace cursor))
          else if (skipSpace cursor).head? = some 0x7D then .ok (.object node, ← advance 1 (skipSpace cursor))
          else .error (.exception "JSON object not terminated.")) := by
  rw [objectLoop]
  split
  · rfl
  · unfold scanned
    simp only [bind, Except.bind, objectAppend_eq _ _ _ owning]
    cases scanString (skipSpace cursor) with
    | error e => rfl
    | ok scan =>
        dsimp only
        cases he : scan.escaped with
        | false => rfl
        | true =>
            cases decodeString scan.text with
            | error e => rfl
            | ok s => rfl

/-! ### Completeness -/

theorem Delimited.spaces (ha : IsSpaces a) (h : Delimited rest) : Delimited (a ++ rest) := by
  cases a with
  | nil => exact h
  | cons c a => exact delimited_cons _ _ (.inl (isSpaces_iff.mp ha c List.mem_cons_self))

theorem parseValue_at (ha : IsSpaces a) {c : UInt8} (hc : isSpace c = false) (l : Bytes) :
    parseValue doubles owning (n + 1) (a ++ c :: l) =
      if c = 0x7B then parseObject doubles owning n (c :: l)
      else if c = 0x5B then parseArray doubles owning n (c :: l)
      else if c = 0x22 then parseString owning (c :: l)
      else if c = 0x74 ∨ c = 0x66 ∨ c = 0x6E then parseKeyword (c :: l)
      else parseNumber doubles (c :: l) := by
  rw [parseValue, skipSpace_append ha, skipSpace_of_not hc]

/-- What `n` turns are enough for. -/
structure Accepts (doubles : Doubles D) (owning : Bool) (n : ℕ) : Prop where
  value : ∀ {t v a rest}, IsValue t v → IsSpaces a → Delimited rest → 3 * t.length + 1 ≤ n →
    parseValue doubles owning n (a ++ (t ++ rest)) = .ok (store doubles v, rest)
  elements : ∀ {t vs} node rest, IsElements t vs → 3 * t.length + 2 ≤ n →
    arrayLoop doubles owning n node (t ++ 0x5D :: rest) = .ok (.array (storeElements doubles node vs), rest)
  members : ∀ {t ms} node rest, IsMembers t ms → 3 * t.length + 2 ≤ n →
    objectLoop doubles owning n node (t ++ 0x7D :: rest) = .ok (.object (storeMembers doubles node ms), rest)

theorem IsNumber.head (h : IsNumber t) (rest : Bytes) : ∃ c l, t ++ rest = c :: l ∧ (isDigit c = true ∨ c = 0x2D) := by
  cases h with
  | @mk i f e negative hi hf he =>
      cases negative with
      | true => exact ⟨0x2D, _, rfl, .inr rfl⟩
      | false =>
          obtain ⟨c, l, rfl⟩ := List.exists_cons_of_ne_nil hi.allDigits.2
          exact ⟨c, _, rfl, .inl (isDigit_iff.mpr (hi.allDigits.1 c List.mem_cons_self))⟩

theorem parseValue_number (h : IsNumber t) (ha : IsSpaces a) (hrest : Delimited rest) :
    parseValue doubles owning (n + 1) (a ++ (t ++ rest)) = .ok (numberOf doubles t, rest) := by
  rw [← parseNumber_text h hrest]
  obtain ⟨c, l, hl, hc⟩ := h.head rest
  have hnot (d : UInt8) (hd : isDigit d = false ∧ d ≠ 0x2D) : c ≠ d := by
    rintro rfl
    rcases hc with hc | hc
    · rw [hd.1] at hc
      cases hc
    · exact hd.2 hc
  have hspace : isSpace c = false := by
    simp only [isSpace, Bool.or_eq_false_iff, decide_eq_false_iff_not]
    exact ⟨⟨⟨hnot _ (by decide), hnot _ (by decide)⟩, hnot _ (by decide)⟩, hnot _ (by decide)⟩
  rw [hl, parseValue_at ha hspace, if_neg (hnot _ (by decide)), if_neg (hnot _ (by decide)), if_neg (hnot _ (by decide)),
    if_neg]
  rintro (h | h | h)
  · exact hnot _ (by decide) h
  · exact hnot _ (by decide) h
  · exact hnot _ (by decide) h

theorem parseValue_keyword (doubles : Doubles D) (owning : Bool) (n : ℕ) {c : UInt8} {w : Bytes} {value : Value D}
    (hk : keywordOf c = some (c :: w, value)) (hc : c = 0x74 ∨ c = 0x66 ∨ c = 0x6E) (ha : IsSpaces a) (rest : Bytes) :
    parseValue doubles owning (n + 1) (a ++ (c :: w ++ rest)) = .ok (value, rest) := by
  have hspace : isSpace c = false := by rcases hc with rfl | rfl | rfl <;> rfl
  rw [List.cons_append, parseValue_at ha hspace, if_neg, if_neg, if_neg, if_pos hc, parseKeyword_complete hk]
  all_goals rcases hc with rfl | rfl | rfl <;> decide

theorem parseValue_string {s : Bytes} (h : IsString t s) (ha : IsSpaces a) (rest : Bytes) :
    parseValue doubles owning (n + 1) (a ++ (t ++ rest)) = .ok (makeString s, rest) := by
  have hscan := scanned_complete h rest
  cases h with
  | mk ht =>
      rw [List.cons_append] at hscan ⊢
      rw [parseValue_at ha (by decide), if_neg (by decide), if_neg (by decide), if_pos rfl, parseString_eq, hscan]
      rfl

/-- The first character of a value is no space and closes nothing. -/
theorem isValue_head (h : IsValue t v) : ∃ c l, t = c :: l ∧ isSpace c = false ∧ c ≠ 0x5D := by
  cases h with
  | number h =>
      obtain ⟨c, l, hl, hc⟩ := h.head []
      rw [List.append_nil] at hl
      refine ⟨c, l, hl, ?_, ?_⟩
      · rcases hc with hc | rfl
        · obtain ⟨h1, h2⟩ := isDigit_iff.mp hc
          rw [isSpace]
          simp only [Bool.or_eq_false_iff, decide_eq_false_iff_not]
          refine ⟨⟨⟨?_, ?_⟩, ?_⟩, ?_⟩ <;> rintro rfl <;> exact absurd h1 (by decide)
        · rfl
      · rintro rfl
        rcases hc with hc | hc <;> exact absurd hc (by decide)
  | string h =>
      cases h with
      | mk h => exact ⟨0x22, _, rfl, rfl, by decide⟩
  | null => exact ⟨0x6E, ascii "ull", rfl, rfl, by decide⟩
  | true => exact ⟨0x74, ascii "rue", rfl, rfl, by decide⟩
  | false => exact ⟨0x66, ascii "alse", rfl, rfl, by decide⟩
  | noElements h => exact ⟨0x5B, _, rfl, rfl, by decide⟩
  | array h => exact ⟨0x5B, _, rfl, rfl, by decide⟩
  | noMembers h => exact ⟨0x7B, _, rfl, rfl, by decide⟩
  | object h => exact ⟨0x7B, _, rfl, rfl, by decide⟩

theorem parseArray_empty (ha : IsSpaces a) (rest : Bytes) :
    parseArray doubles owning (n + 1) (0x5B :: (a ++ 0x5D :: rest)) = .ok (.array [], rest) := by
  simp only [parseArray, advance_cons_succ, advance_zero, bind, Except.bind, skipSpace_append ha,
    skipSpace_of_not (show isSpace 0x5D = false from rfl), List.head?_cons, if_true]

theorem parseArray_loop (h : (skipSpace cursor).head? ≠ some 0x5D) :
    parseArray doubles owning (n + 1) (0x5B :: cursor) = arrayLoop doubles owning n [] cursor := by
  simp only [parseArray, advance_cons_succ, advance_zero, bind, Except.bind, if_neg h]

theorem parseObject_empty (ha : IsSpaces a) (rest : Bytes) :
    parseObject doubles owning (n + 1) (0x7B :: (a ++ 0x7D :: rest)) = .ok (.object [], rest) := by
  simp only [parseObject, advance_cons_succ, advance_zero, bind, Except.bind, skipSpace_append ha,
    skipSpace_of_not (show isSpace 0x7D = false from rfl), List.head?_cons, if_true]

theorem parseObject_loop (h : (skipSpace cursor).head? ≠ some 0x7D) :
    parseObject doubles owning (n + 1) (0x7B :: cursor) = objectLoop doubles owning n [] cursor := by
  simp only [parseObject, advance_cons_succ, advance_zero, bind, Except.bind, if_neg h]

theorem head?_skipSpace (ha : IsSpaces a) (h : IsValue t v) (rest : Bytes) :
    (skipSpace (a ++ (t ++ rest))).head? ≠ some 0x5D := by
  obtain ⟨c, l, rfl, hc, hne⟩ := isValue_head h
  rw [skipSpace_append ha, List.cons_append, skipSpace_of_not hc, List.head?_cons]
  exact fun h => hne (Option.some.inj h)

theorem head?_skipSpace_elements {vs : List Tree} (h : IsElements t vs) (rest : Bytes) :
    (skipSpace (t ++ rest)).head? ≠ some 0x5D := by
  cases h with
  | one ha h hb =>
      rw [List.append_assoc, List.append_assoc]
      exact head?_skipSpace ha h _
  | cons ha h hb hs =>
      rw [List.append_assoc, List.append_assoc]
      exact head?_skipSpace ha h _

theorem head?_skipSpace_members {ms : List (Bytes × Tree)} (h : IsMembers t ms) (rest : Bytes) :
    (skipSpace (t ++ rest)).head? = some 0x22 := by
  have hhead {a k key : Bytes} (ha : IsSpaces a) (hk : IsString k key) (l : Bytes) :
      (skipSpace (a ++ (k ++ l))).head? = some 0x22 := by
    cases hk with
    | mk hk => rw [skipSpace_append ha, List.cons_append, skipSpace_of_not rfl, List.head?_cons]
  cases h with
  | one ha hk hb hc h hd =>
      rw [List.append_assoc, List.append_assoc]
      exact hhead ha hk _
  | cons ha hk hb hc h hd hs =>
      rw [List.append_assoc, List.append_assoc]
      exact hhead ha hk _

theorem Accepts.value_succ (ih : ∀ m < n, Accepts doubles owning m) (h : IsValue t v) (ha : IsSpaces a)
    (hrest : Delimited rest) (hn : 3 * t.length + 1 ≤ n + 1) :
    parseValue doubles owning (n + 1) (a ++ (t ++ rest)) = .ok (store doubles v, rest) := by
  cases h with
  | null =>
      rw [store]
      exact parseValue_keyword doubles owning n (c := 0x6E) (w := ascii "ull") rfl (by decide) ha rest
  | true =>
      rw [store]
      exact parseValue_keyword doubles owning n (c := 0x74) (w := ascii "rue") rfl (by decide) ha rest
  | false =>
      rw [store]
      exact parseValue_keyword doubles owning n (c := 0x66) (w := ascii "alse") rfl (by decide) ha rest
  | number h =>
      rw [store]
      exact parseValue_number h ha hrest
  | string h =>
      rw [store]
      exact parseValue_string h ha rest
  | noElements hb =>
      obtain ⟨m, rfl⟩ : ∃ m, n = m + 1 := ⟨n - 1, by simp at hn; omega⟩
      rw [List.cons_append, parseValue_at ha rfl, if_neg (by decide), if_pos rfl, List.append_assoc, store, storeElements]
      exact parseArray_empty hb rest
  | array h =>
      obtain ⟨m, rfl⟩ : ∃ m, n = m + 1 := ⟨n - 1, by simp at hn; omega⟩
      rw [List.cons_append, parseValue_at ha rfl, if_neg (by decide), if_pos rfl, List.append_assoc, store,
        parseArray_loop (head?_skipSpace_elements h _)]
      exact (ih m (by omega)).elements [] rest h (by simp at hn; omega)
  | noMembers hb =>
      obtain ⟨m, rfl⟩ : ∃ m, n = m + 1 := ⟨n - 1, by simp at hn; omega⟩
      rw [List.cons_append, parseValue_at ha rfl, if_pos rfl, List.append_assoc, store, storeMembers]
      exact parseObject_empty hb rest
  | object h =>
      obtain ⟨m, rfl⟩ : ∃ m, n = m + 1 := ⟨n - 1, by simp at hn; omega⟩
      rw [List.cons_append, parseValue_at ha rfl, if_pos rfl, List.append_assoc, store,
        parseObject_loop (by rw [head?_skipSpace_members h]; decide)]
      exact (ih m (by omega)).members [] rest h (by simp at hn; omega)

/-- An element of an array with what follows it. -/
theorem Accepts.elements_succ (ih : Accepts doubles owning n) {vs : List Tree} (node : List (Value D)) (rest : Bytes)
    (h : IsElements t vs) (hn : 3 * t.length + 2 ≤ n + 1) :
    arrayLoop doubles owning (n + 1) node (t ++ 0x5D :: rest) = .ok (.array (storeElements doubles node vs), rest) := by
  cases h with
  | @one a t v b ha h hb =>
      have hvalue := ih.value h ha (Delimited.spaces hb (delimited_cons 0x5D rest (by decide)))
        (by simp at hn; omega)
      rw [List.append_assoc, List.append_assoc]
      simp only [arrayLoop, hvalue, bind, Except.bind, skipSpace_append hb]
      rw [skipSpace_of_not rfl]
      simp [storeElements]
  | @cons a t v b u vs ha h hb hs =>
      have hvalue := ih.value h ha (Delimited.spaces hb (delimited_cons 0x2C (u ++ 0x5D :: rest) (by decide))) (by simp at hn; omega)
      rw [List.append_assoc, List.append_assoc, List.append_assoc, List.cons_append]
      simp only [arrayLoop, hvalue, bind, Except.bind, skipSpace_append hb]
      rw [skipSpace_of_not rfl]
      simp only [List.head?_cons, if_true, advance_cons_succ, advance_zero]
      rw [ih.elements _ rest hs (by simp at hn; omega), storeElements]

/-- A member of an object up to its value. -/
theorem objectLoop_member {k key b : Bytes} (ha : IsSpaces a) (hk : IsString k key) (hb : IsSpaces b)
    (node : List (Key × Value D)) (rest : Bytes) :
    objectLoop doubles owning (n + 1) node (a ++ (k ++ (b ++ 0x3A :: rest))) = (do
      let (value, cursor) ← parseValue doubles owning n rest
      let node := objectAppend node key value false
      if (skipSpace cursor).head? = some 0x2C then objectLoop doubles owning n node (← advance 1 (skipSpace cursor))
      else if (skipSpace cursor).head? = some 0x7D then .ok (.object node, ← advance 1 (skipSpace cursor))
      else .error (.exception "JSON object not terminated.")) := by
  have hscan := scanned_complete hk (b ++ 0x3A :: rest)
  have hhead : skipSpace (a ++ (k ++ (b ++ 0x3A :: rest))) = k ++ (b ++ 0x3A :: rest) := by
    cases hk with
    | mk hk => rw [skipSpace_append ha, List.cons_append, skipSpace_of_not rfl]
  have hquote : (k ++ (b ++ 0x3A :: rest)).head? = some 0x22 := by
    cases hk with
    | mk hk => rfl
  have hcolon : skipSpace (b ++ 0x3A :: rest) = 0x3A :: rest := by
    rw [skipSpace_append hb, skipSpace_of_not rfl]
  rw [objectLoop_succ, hhead, if_neg (not_not.mpr hquote)]
  simp only [hscan, bind, Except.bind, hcolon, List.head?_cons, ne_eq, not_true_eq_false, if_false, advance_cons_succ,
    advance_zero]

theorem Accepts.members_succ (ih : Accepts doubles owning n) {ms : List (Bytes × Tree)} (node : List (Key × Value D))
    (rest : Bytes) (h : IsMembers t ms) (hn : 3 * t.length + 2 ≤ n + 1) :
    objectLoop doubles owning (n + 1) node (t ++ 0x7D :: rest) = .ok (.object (storeMembers doubles node ms), rest) := by
  cases h with
  | @one a k key b c t v d ha hk hb hc h hd =>
      have hvalue := ih.value h hc (Delimited.spaces hd (delimited_cons 0x7D rest (by decide)))
        (by simp at hn; omega)
      simp only [List.append_assoc, List.cons_append]
      rw [objectLoop_member ha hk hb]
      simp only [hvalue, bind, Except.bind, skipSpace_append hd]
      rw [skipSpace_of_not rfl]
      simp [storeMembers]
  | @cons a k key b c t v d u ms ha hk hb hc h hd hs =>
      have hvalue := ih.value h hc (Delimited.spaces hd (delimited_cons 0x2C (u ++ 0x7D :: rest) (by decide)))
        (by simp at hn; omega)
      simp only [List.append_assoc, List.cons_append]
      rw [objectLoop_member ha hk hb]
      simp only [hvalue, bind, Except.bind, skipSpace_append hd]
      rw [skipSpace_of_not rfl]
      simp only [List.head?_cons, if_true, advance_cons_succ, advance_zero]
      rw [ih.members _ rest hs (by simp at hn; omega), storeMembers]

theorem accepts (doubles : Doubles D) (owning : Bool) (n : ℕ) : Accepts doubles owning n := by
  induction n using Nat.strong_induction_on with
  | _ n ih =>
      cases n with
      | zero => exact ⟨fun _ _ _ h => by omega, fun _ _ _ h => by omega, fun _ _ _ h => by omega⟩
      | succ n =>
          have hlast := ih n (Nat.lt_succ_self n)
          exact ⟨fun h ha hrest hn => Accepts.value_succ (fun m hm => ih m (by omega)) h ha hrest hn,
            fun node rest h hn => hlast.elements_succ node rest h hn, fun node rest h hn => hlast.members_succ node rest h hn⟩

/-- **The parser accepts every JSON text.** -/
theorem parse_complete (doubles : Doubles D) (owning : Bool) (h : IsText t v) :
    parse doubles owning t = .ok (store doubles v) := by
  cases h with
  | @mk a t v b ha h hb =>
      have hdelimited : Delimited b := by
        have := Delimited.spaces hb delimited_nil
        rwa [List.append_nil] at this
      unfold parse
      rw [(accepts doubles owning _).value h ha hdelimited (by simp; omega)]
      simp [bind, Except.bind, skipSpace_self hb]

/-! ### Soundness -/

/-- What `n` turns read, or refuse. -/
structure Reads (doubles : Doubles D) (owning : Bool) (n : ℕ) : Prop where
  value : ∀ cursor, 3 * cursor.length + 1 ≤ n →
    Ensures Failure.IsException (parseValue doubles owning n cursor) fun r =>
      ∃ a t v, cursor = a ++ (t ++ r.2) ∧ IsSpaces a ∧ IsValue t v ∧ r.1 = store doubles v
  elements : ∀ node cursor, 3 * cursor.length + 2 ≤ n →
    Ensures Failure.IsException (arrayLoop doubles owning n node cursor) fun r =>
      ∃ t vs, cursor = t ++ 0x5D :: r.2 ∧ IsElements t vs ∧ r.1 = .array (storeElements doubles node vs)
  members : ∀ node cursor, 3 * cursor.length + 2 ≤ n →
    Ensures Failure.IsException (objectLoop doubles owning n node cursor) fun r =>
      ∃ t ms, cursor = t ++ 0x7D :: r.2 ∧ IsMembers t ms ∧ r.1 = .object (storeMembers doubles node ms)

/-- A cursor at a character. -/
theorem eq_cons_of_head? {c : UInt8} (h : cursor.head? = some c) : ∃ l, cursor = c :: l :=
  List.head?_eq_some_iff.mp h

theorem isValue_length (h : IsValue t v) : 0 < t.length := by
  obtain ⟨c, l, rfl, -⟩ := isValue_head h
  exact Nat.succ_pos _

theorem Reads.array (ih : ∀ m < n, Reads doubles owning m) (hn : 3 * (cursor.length + 1) ≤ n) :
    Ensures Failure.IsException (parseArray doubles owning n (0x5B :: cursor)) fun r =>
      ∃ t v, 0x5B :: cursor = t ++ r.2 ∧ IsValue t v ∧ r.1 = store doubles v := by
  obtain ⟨m, rfl⟩ : ∃ m, n = m + 1 := ⟨n - 1, by omega⟩
  by_cases hclose : (skipSpace cursor).head? = some 0x5D
  · obtain ⟨a, ha, hcursor⟩ := skipSpace_spec cursor
    obtain ⟨rest, hrest⟩ := eq_cons_of_head? hclose
    rw [hcursor, hrest, parseArray_empty ha]
    exact ⟨0x5B :: (a ++ [0x5D]), .array [], by simp, .noElements ha, by simp [store, storeElements]⟩
  · rw [parseArray_loop hclose]
    refine ((ih m (by omega)).elements [] cursor (by omega)).mono ?_
    rintro ⟨_, rest⟩ ⟨t, vs, rfl, ht, rfl⟩
    exact ⟨0x5B :: (t ++ [0x5D]), .array vs, by simp, .array ht, by rw [store]⟩

theorem Reads.object (ih : ∀ m < n, Reads doubles owning m) (hn : 3 * (cursor.length + 1) ≤ n) :
    Ensures Failure.IsException (parseObject doubles owning n (0x7B :: cursor)) fun r =>
      ∃ t v, 0x7B :: cursor = t ++ r.2 ∧ IsValue t v ∧ r.1 = store doubles v := by
  obtain ⟨m, rfl⟩ : ∃ m, n = m + 1 := ⟨n - 1, by omega⟩
  by_cases hclose : (skipSpace cursor).head? = some 0x7D
  · obtain ⟨a, ha, hcursor⟩ := skipSpace_spec cursor
    obtain ⟨rest, hrest⟩ := eq_cons_of_head? hclose
    rw [hcursor, hrest, parseObject_empty ha]
    exact ⟨0x7B :: (a ++ [0x7D]), .object [], by simp, .noMembers ha, by simp [store, storeMembers]⟩
  · rw [parseObject_loop hclose]
    refine ((ih m (by omega)).members [] cursor (by omega)).mono ?_
    rintro ⟨_, rest⟩ ⟨t, ms, rfl, ht, rfl⟩
    exact ⟨0x7B :: (t ++ [0x7D]), .object ms, by simp, .object ht, by rw [store]⟩

theorem parseString_sound (doubles : Doubles D) (cursor : Bytes) :
    Ensures Failure.IsException (parseString owning (0x22 :: cursor)) fun r =>
      ∃ t v, 0x22 :: cursor = t ++ r.2 ∧ IsValue t v ∧ r.1 = store doubles v := by
  rw [parseString_eq]
  have hspec := scanned_spec cursor
  cases hscan : scanned (0x22 :: cursor) with
  | error e => exact hspec.of_error hscan
  | ok r =>
      obtain ⟨t, hcursor, ht⟩ := hspec.of_ok hscan
      exact ⟨t, .string r.1, hcursor, .string ht, by rw [store]⟩

theorem Reads.value_succ (ih : ∀ m ≤ n, Reads doubles owning m) (hn : 3 * cursor.length + 1 ≤ n + 1) :
    Ensures Failure.IsException (parseValue doubles owning (n + 1) cursor) fun r =>
      ∃ a t v, cursor = a ++ (t ++ r.2) ∧ IsSpaces a ∧ IsValue t v ∧ r.1 = store doubles v := by
  obtain ⟨a, ha, hcursor⟩ := skipSpace_spec cursor
  have hlen := congrArg List.length hcursor
  rw [parseValue]
  cases hskip : skipSpace cursor with
  | nil => exact Failure.isException _
  | cons c l =>
      rw [hskip] at hcursor hlen
      rw [List.length_append, List.length_cons] at hlen
      -- Every parser of a value reads a text of the grammar behind the spaces.
      suffices h : ∀ x : Except Failure (Value D × Bytes), (Ensures Failure.IsException x fun r =>
          ∃ t v, c :: l = t ++ r.2 ∧ IsValue t v ∧ r.1 = store doubles v) →
          Ensures Failure.IsException x fun r =>
            ∃ a t v, cursor = a ++ (t ++ r.2) ∧ IsSpaces a ∧ IsValue t v ∧ r.1 = store doubles v by
        dsimp only
        split
        · next hc =>
          subst hc
          exact h _ (Reads.object (fun m hm => ih m (by omega)) (by omega))
        · split
          · next hc =>
            subst hc
            exact h _ (Reads.array (fun m hm => ih m (by omega)) (by omega))
          · split
            · next hc =>
              subst hc
              exact h _ (parseString_sound doubles l)
            · split
              · exact h _ (parseKeyword_spec doubles c l)
              · refine h _ ((parseNumber_sound doubles c l).mono ?_)
                rintro ⟨_, rest⟩ ⟨t, ht, hl, rfl⟩
                exact ⟨t, .number t ht, hl, .number ht, by rw [store]⟩
      intro x hx
      refine hx.mono ?_
      rintro r ⟨t, v, hl, hv, hr⟩
      exact ⟨a, t, v, by rw [hcursor, hl], ha, hv, hr⟩

theorem Reads.elements_succ (ih : Reads doubles owning n) (node : List (Value D)) (hn : 3 * cursor.length + 2 ≤ n + 1) :
    Ensures Failure.IsException (arrayLoop doubles owning (n + 1) node cursor) fun r =>
      ∃ t vs, cursor = t ++ 0x5D :: r.2 ∧ IsElements t vs ∧ r.1 = .array (storeElements doubles node vs) := by
  rw [arrayLoop]
  refine (ih.value cursor (by omega)).bind ?_
  rintro ⟨_, l⟩ ⟨a, t, v, rfl, ha, hv, rfl⟩
  have hpos := isValue_length hv
  obtain ⟨b, hb, hl⟩ := skipSpace_spec l
  dsimp only at hl ⊢
  split
  · next hcomma =>
    obtain ⟨u, hu⟩ := eq_cons_of_head? hcomma
    rw [hu] at hl ⊢
    subst hl
    simp only [List.length_append, List.length_cons] at hn
    simp only [advance_cons_succ, advance_zero, bind, Except.bind]
    refine (ih.elements _ u (by omega)).mono ?_
    rintro ⟨_, rest⟩ ⟨u, vs, rfl, hvs, rfl⟩
    exact ⟨a ++ (t ++ (b ++ 0x2C :: u)), v :: vs, by simp, .cons ha hv hb hvs, by rw [storeElements]⟩
  · split
    · next hclose =>
      obtain ⟨rest, hrest⟩ := eq_cons_of_head? hclose
      rw [hrest] at hl ⊢
      subst hl
      simp only [advance_cons_succ, advance_zero, bind, Except.bind]
      exact ⟨a ++ (t ++ b), [v], by simp, .one ha hv hb, by simp [storeElements]⟩
    · exact Failure.isException _

theorem Reads.members_succ (ih : Reads doubles owning n) (node : List (Key × Value D)) (hn : 3 * cursor.length + 2 ≤ n + 1) :
    Ensures Failure.IsException (objectLoop doubles owning (n + 1) node cursor) fun r =>
      ∃ t ms, cursor = t ++ 0x7D :: r.2 ∧ IsMembers t ms ∧ r.1 = .object (storeMembers doubles node ms) := by
  rw [objectLoop_succ]
  split
  · exact Failure.isException _
  · next hquote =>
    obtain ⟨a, ha, hcursor⟩ := skipSpace_spec cursor
    obtain ⟨l, hl⟩ := eq_cons_of_head? (not_not.mp hquote)
    have hlen := congrArg List.length hcursor
    rw [hl] at hcursor hlen ⊢
    refine (scanned_spec l).bind ?_
    rintro ⟨key, l'⟩ ⟨k, hk', hk⟩
    dsimp only at hk' hk ⊢
    split
    · exact Failure.isException _
    · next hcolon =>
      obtain ⟨b, hb, hl'⟩ := skipSpace_spec l'
      obtain ⟨m, hm⟩ := eq_cons_of_head? (not_not.mp hcolon)
      rw [hm] at hl' ⊢
      subst hl'
      rw [hk'] at hcursor hlen
      simp only [List.length_append, List.length_cons] at hlen
      simp only [advance_cons_succ, advance_zero]
      refine (ih.value m (by omega)).bind ?_
      rintro ⟨_, l''⟩ ⟨c, t, v, rfl, hc, hv, rfl⟩
      obtain ⟨d, hd, hl''⟩ := skipSpace_spec l''
      dsimp only at hl'' ⊢
      split
      · next hcomma =>
        obtain ⟨u, hu⟩ := eq_cons_of_head? hcomma
        rw [hu] at hl'' ⊢
        subst hl''
        simp only [List.length_append, List.length_cons] at hlen
        simp only [advance_cons_succ, advance_zero, bind, Except.bind]
        refine (ih.members _ u (by omega)).mono ?_
        rintro ⟨_, rest⟩ ⟨u, ms, rfl, hms, rfl⟩
        exact ⟨a ++ (k ++ (b ++ 0x3A :: (c ++ (t ++ (d ++ 0x2C :: u))))), (key, v) :: ms, by simp [hcursor],
          .cons ha hk hb hc hv hd hms, by rw [storeMembers]⟩
      · split
        · next hclose =>
          obtain ⟨rest, hrest⟩ := eq_cons_of_head? hclose
          rw [hrest] at hl'' ⊢
          subst hl''
          simp only [advance_cons_succ, advance_zero, bind, Except.bind]
          exact ⟨a ++ (k ++ (b ++ 0x3A :: (c ++ (t ++ d)))), [(key, v)], by simp [hcursor], .one ha hk hb hc hv hd,
            by simp [storeMembers]⟩
        · exact Failure.isException _

theorem reads (doubles : Doubles D) (owning : Bool) (n : ℕ) : Reads doubles owning n := by
  induction n using Nat.strong_induction_on with
  | _ n ih =>
      cases n with
      | zero => exact ⟨fun _ h => by omega, fun _ _ h => by omega, fun _ _ h => by omega⟩
      | succ n =>
          have hlast := ih n (Nat.lt_succ_self n)
          exact ⟨fun cursor hn => Reads.value_succ (fun m hm => ih m (by omega)) hn,
            fun node cursor hn => hlast.elements_succ node hn, fun node cursor hn => hlast.members_succ node hn⟩

/-- **The parser reads JSON texts only**, and refuses the others with an exception. -/
theorem parse_sound (doubles : Doubles D) (owning : Bool) (t : Bytes) :
    Ensures Failure.IsException (parse doubles owning t) fun d => ∃ v, IsText t v ∧ d = store doubles v := by
  unfold parse
  refine ((reads doubles owning _).value t (Nat.le_refl _)).bind ?_
  rintro ⟨_, rest⟩ ⟨a, w, v, rfl, ha, hv, rfl⟩
  obtain ⟨b, hb, hrest⟩ := skipSpace_spec rest
  dsimp only at hrest ⊢
  split
  · exact Failure.isException _
  · next hend =>
    rw [not_not.mp hend, List.append_nil] at hrest
    exact ⟨v, .mk ha hv (hrest ▸ hb), rfl⟩

/-! ### The parser and the grammar -/

/-- What the parser is to do with a text: hold the value that it is, or refuse it. -/
structure Faithful (doubles : Doubles D) (owning : Bool) (t : Bytes) : Prop where
  text : ∀ v, IsText t v → ∃ d, parse doubles owning t = .ok d ∧ Represents v d
  refused : (¬∃ v, IsText t v) → ∃ info, parse doubles owning t = .error (.exception info)
  inBounds : parse doubles owning t ≠ .error .outOfBounds

theorem Faithful.fits (h : Faithful doubles owning t) (hv : IsText t v) : Fits v := by
  obtain ⟨d, hd, hrep⟩ := h.text v hv
  rw [parse_complete doubles owning hv] at hd
  rw [← Except.ok.inj hd, represents_store] at hrep
  exact hrep

/-- A string of `n` letters. -/
def letters (n : ℕ) : Bytes := 0x22 :: (List.replicate n 0x61 ++ [0x22])

theorem isText_letters (n : ℕ) : IsText (letters n) (.string (List.replicate n 0x61)) := by
  have hchars : IsChars (List.replicate n 0x61) (List.replicate n 0x61) := by
    induction n with
    | zero => exact .nil
    | succ n ih => exact .unescaped (by decide) ih
  have h := IsText.mk (a := []) (b := []) (fun c hc => (List.not_mem_nil hc).elim) (.string (.mk hchars))
    (fun c hc => (List.not_mem_nil hc).elim)
  rwa [List.nil_append, List.append_nil] at h

def noDoubles : Doubles Unit := ⟨fun _ _ _ => (), fun _ => none, fun _ => (), fun _ => []⟩

end NeForce.Json
