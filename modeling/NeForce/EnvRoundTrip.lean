import NeForce.EnvValues

/-! # Documents come back

The lines of a printed document are the lines of its comments and one line for each variable (`lines_toString`).  The
variables have distinct names, so each is read back as its own line is; a line of a comment either is a comment again or
assigns a name of its own, which stays in the document unless a variable replaces it (`getVariable_parse_toString`).
Hence a document comes back if and only if its values in double quotes do and no comment assigns another name
(`roundTrips_iff`). -/

namespace NeForce.Env

variable {name text line : Bytes} {c : UInt8} {v : Variable} {d root : Document}

/-! ### Lines -/

theorem lines_append (l text : Bytes) : lines (l ++ (0x0A :: text)) = l.splitOn 0x0A ++ lines text := by
  induction l with
  | nil => rfl
  | cons c l ih =>
      rw [List.cons_append, lines, List.splitOn_cons_eq_if_modifyHead, ih]
      obtain ⟨line, rest, hl⟩ := List.exists_cons_of_ne_nil (List.splitOn_ne_nil 0x0A l)
      rw [hl]
      by_cases hc : c = 0x0A
      · simp [hc]
      · simp [hc]

theorem lines_flatMap {α : Type} (f : α → Bytes) (l : List α) (text : Bytes) :
    lines ((l.flatMap fun a => f a ++ [0x0A]) ++ text) = (l.flatMap fun a => (f a).splitOn 0x0A) ++ lines text := by
  induction l with
  | nil => rfl
  | cons a l ih =>
      rw [List.flatMap_cons, List.flatMap_cons, List.append_assoc, List.append_assoc, List.append_assoc, ← ih,
        ← lines_append]
      rfl

/-! ### The effect of a line -/

/-- The variable that a line adds. -/
def assigned (line : Bytes) : Option (Bytes × Variable) :=
  if isBlankLine line || isCommentLine line then none else parseVariableLine line

theorem getVariable_parseLine (root : Document) (line name : Bytes) :
    (parseLine root line).getVariable name =
      match assigned line with
      | none => root.getVariable name
      | some (m, v) => if name = m then some v else root.getVariable name := by
  unfold parseLine assigned
  cases isBlankLine line with
  | true => rfl
  | false =>
      cases isCommentLine line with
      | true =>
          simp only [Bool.false_eq_true, if_false, if_true, Bool.or_true]
          split_ifs <;> rfl
      | false =>
          simp only [Bool.false_eq_true, if_false, Bool.or_self]
          cases parseVariableLine line with
          | none => rfl
          | some p =>
              obtain ⟨m, v⟩ := p
              change (root.variables_.insert m v).lookup name = _
              rcases eq_or_ne name m with rfl | hne
              · simp
              · simp [Document.getVariable, AList.lookup_insert_ne hne, hne]

/-- Names that no line assigns are not in the document. -/
theorem getVariable_foldl_eq_none (ls : List Bytes) (root : Document) (name : Bytes) :
    (ls.foldl parseLine root).getVariable name = none ↔
      root.getVariable name = none ∧ ∀ line ∈ ls, ∀ v, assigned line ≠ some (name, v) := by
  induction ls generalizing root with
  | nil => simp
  | cons line ls ih =>
      rw [List.foldl_cons, ih, getVariable_parseLine, List.forall_mem_cons, ← and_assoc]
      refine and_congr_left fun _ => ?_
      cases ha : assigned line with
      | none => simp
      | some p =>
          obtain ⟨m, v⟩ := p
          rcases eq_or_ne name m with rfl | hne
          · simp
          · simp [hne, hne.symm]

/-- Lines of variables with distinct names: the last word is theirs. -/
theorem getVariable_foldl_variables (l : List (Sigma fun _ : Bytes => Variable)) (root : Document) (name : Bytes)
    (hl : l.NodupKeys) (ha : ∀ p ∈ l, assigned (envValueToString p.2 p.1) = some (p.1, p.2.reread)) :
    ((l.map fun p => envValueToString p.2 p.1).foldl parseLine root).getVariable name =
      ((l.dlookup name).map Variable.reread).or (root.getVariable name) := by
  induction l generalizing root with
  | nil => rfl
  | cons p l ih =>
      obtain ⟨m, v⟩ := p
      obtain ⟨hp, ha⟩ := List.forall_mem_cons.mp ha
      rw [List.map_cons, List.foldl_cons, ih _ (List.nodupKeys_of_nodupKeys_cons hl) ha, getVariable_parseLine, hp]
      rcases eq_or_ne name m with rfl | hne
      · rw [List.dlookup_eq_none.mpr (List.notMem_keys_of_nodupKeys_cons hl), List.dlookup_cons_eq]
        simp
      · rw [List.dlookup_cons_ne _ _ hne]
        simp [hne]

/-! ### Assignments -/

/-- A line without the spaces around it and without `export`. -/
def assignment (line : Bytes) : Bytes :=
  if ascii "export " <+: trim line then trim ((trim line).drop 7) else trim line

/-- The line is no comment, and the text before its first `=` is the name. -/
def Assigns (line name : Bytes) : Prop :=
  isCommentLine line = false ∧ name ≠ [] ∧
    ∃ before after, assignment line = before ++ (0x3D :: after) ∧ 0x3D ∉ before ∧ trim before = name

theorem parseVariableLine_isSome_iff (line name : Bytes) :
    (∃ v, parseVariableLine line = some (name, v)) ↔
      name ≠ [] ∧
        ∃ before after, assignment line = before ++ (0x3D :: after) ∧ 0x3D ∉ before ∧ trim before = name := by
  have htrimmed : (if (ascii "export ").isPrefixOf (trim line) then trim ((trim line).drop 7) else trim line) =
      assignment line := by
    simp only [assignment, List.isPrefixOf_iff_prefix]
  unfold parseVariableLine
  simp only [htrimmed]
  constructor
  · rintro ⟨v, hv⟩
    split_ifs at hv with hmem hname
    obtain ⟨before, after, hl, hb⟩ := List.eq_append_cons_of_mem hmem
    rw [hl, takeWhile_equals hb] at hv hname
    simp only [Option.some.injEq, Prod.mk.injEq] at hv
    exact ⟨hv.1 ▸ hname, before, after, hl, hb, hv.1⟩
  · rintro ⟨hne, before, after, hl, hb, rfl⟩
    rw [hl, takeWhile_equals hb, if_neg (by simp), if_neg hne]
    exact ⟨_, rfl⟩

theorem assigned_iff (line name : Bytes) : (∃ v, assigned line = some (name, v)) ↔ Assigns line name := by
  unfold assigned Assigns
  rw [← parseVariableLine_isSome_iff]
  cases isCommentLine line with
  | true => simp
  | false =>
      cases hblank : isBlankLine line with
      | false => simp
      | true =>
          have ht : trim line = [] := by simpa [isBlankLine] using hblank
          have hp : parseVariableLine line = none := by
            unfold parseVariableLine
            rw [ht]
            rfl
          simp [hp]

/-! ### Documents -/

structure Document.Valid (d : Document) : Prop where
  names : ∀ p ∈ d.variables_.entries, IsIdentifier p.1
  values : ∀ p ∈ d.variables_.entries, p.2.Valid

/-- Printing and parsing gives the same names with the same variables. -/
def Document.RoundTrips (d : Document) : Prop := ∀ name, (parse d.toString).getVariable name = d.getVariable name

/-- Values in double quotes without the bytes that are not decoded, and comments whose lines, after the first, assign no
other names than those of the document. -/
structure Document.Faithful (d : Document) : Prop where
  values : ∀ p ∈ d.variables_.entries, p.2.quoteType = .double → ∀ c ∈ p.2.value, isDecoded c = true
  comments : ∀ comment ∈ d.comments_, ∀ line ∈ (comment.splitOn 0x0A).tail, ∀ name,
    Assigns line name → name ∈ d.variables_

theorem assigned_toString (hn : IsIdentifier name) (hv : v.Valid) :
    assigned (envValueToString v name) = some (name, v.reread) := by
  obtain ⟨c, hc, hs, -⟩ := trimmed_envValueToString hn hv
  have hline := trim_eq_self (trimmed_envValueToString hn hv)
  have hblank : isBlankLine (envValueToString v name) = false := by
    rw [isBlankLine, hline, decide_eq_false_iff_not]
    rintro he
    simp [he] at hc
  have hcomment : isCommentLine (envValueToString v name) = false := by
    rw [isCommentLine, hline, decide_eq_false_iff_not, envValueToString_eq hn]
    cases v.isExported with
    | true => exact fun h => absurd (Option.some.inj h) (by decide)
    | false =>
        obtain ⟨c, rest, rfl, hc, -⟩ := hn
        have := (isNameChar_ne (c := c) (by simp [isNameChar, hc])).2.2
        simpa using this
  rw [assigned, hblank, hcomment, if_neg (by decide), parseVariableLine_toString hn hv]

theorem dropWhile_concat (hc : isSpace c = false) (l : Bytes) :
    (l ++ [c]).dropWhile isSpace = l.dropWhile isSpace ++ [c] := by
  induction l with
  | nil => simp [hc]
  | cons d l ih =>
      rw [List.cons_append, List.dropWhile_cons, List.dropWhile_cons, ih]
      split_ifs <;> rfl

theorem isCommentLine_cons (l : Bytes) : isCommentLine (0x23 :: l) = true := by
  rw [isCommentLine, trim, trimLeft_cons (by decide), trimRight, List.reverse_cons, dropWhile_concat (by decide),
    List.reverse_concat]
  rfl

/-- The first line of a comment is a comment; the others are the lines of its text. -/
theorem splitOn_commentText (comment : Bytes) :
    ∃ line, (commentText comment).splitOn 0x0A = line :: (comment.splitOn 0x0A).tail ∧ isCommentLine line = true := by
  obtain ⟨line, rest, hl⟩ := List.exists_cons_of_ne_nil (List.splitOn_ne_nil 0x0A comment)
  refine ⟨0x23 :: 0x20 :: line, ?_, isCommentLine_cons _⟩
  change (0x23 :: 0x20 :: comment).splitOn 0x0A = _
  rw [List.splitOn_cons_eq_if_modifyHead, List.splitOn_cons_eq_if_modifyHead, hl]
  rfl

/-- The lines before those of the variables. -/
def Document.commentLines (d : Document) : List Bytes :=
  (d.comments_.flatMap fun comment => (commentText comment).splitOn 0x0A) ++ (if d.comments_ ≠ [] then [[]] else [])

theorem lines_toString (hd : d.Valid) :
    lines d.toString = d.commentLines ++ d.variables_.entries.map fun p => envValueToString p.2 p.1 := by
  have hvars : lines (d.variables_.entries.flatMap fun p => envValueToString p.2 p.1 ++ [0x0A]) =
      d.variables_.entries.map fun p => envValueToString p.2 p.1 := by
    have := lines_flatMap (fun p : Sigma fun _ : Bytes => Variable => envValueToString p.2 p.1) d.variables_.entries []
    rw [List.append_nil] at this
    rw [this, lines, List.append_nil, List.map_eq_flatMap]
    refine List.flatMap_congr fun p hp => ?_
    exact List.splitOn_eq_singleton (newline_not_mem_toString (hd.names p hp) (hd.values p hp))
  rw [Document.toString, lines_flatMap, Document.commentLines, List.append_assoc]
  congr 1
  split_ifs
  · rw [List.singleton_append, lines, if_pos rfl, hvars]
    rfl
  · exact hvars

/-- Lines of the comments assign what the lines after the first of a comment assign. -/
theorem assigned_commentLines (name : Bytes) :
    (∃ line ∈ d.commentLines, ∃ v, assigned line = some (name, v)) ↔
      ∃ comment ∈ d.comments_, ∃ line ∈ (comment.splitOn 0x0A).tail, Assigns line name := by
  simp only [Document.commentLines, List.mem_append, List.mem_flatMap, assigned_iff]
  constructor
  · rintro ⟨line, ⟨comment, hc, hl⟩ | hl, ha⟩
    · obtain ⟨first, hsplit, hfirst⟩ := splitOn_commentText comment
      rw [hsplit] at hl
      rcases List.mem_cons.mp hl with rfl | hl
      · exact absurd (hfirst.symm.trans ha.1) (by decide)
      · exact ⟨comment, hc, line, hl, ha⟩
    · split_ifs at hl
      · obtain rfl := List.mem_singleton.mp hl
        obtain ⟨v, hv⟩ := (assigned_iff [] name).mpr ha
        exact absurd hv nofun
      · exact absurd hl List.not_mem_nil
  · rintro ⟨comment, hc, line, hl, ha⟩
    obtain ⟨first, hsplit, -⟩ := splitOn_commentText comment
    exact ⟨line, .inl ⟨comment, hc, hsplit ▸ List.mem_cons_of_mem _ hl⟩, ha⟩

theorem getVariable_parse_toString (hd : d.Valid) (name : Bytes) :
    (parse d.toString).getVariable name =
      ((d.getVariable name).map Variable.reread).or ((d.commentLines.foldl parseLine .empty).getVariable name) := by
  rw [parse, lines_toString hd, List.foldl_append]
  exact getVariable_foldl_variables _ _ _ d.variables_.nodupKeys fun p hp =>
    assigned_toString (hd.names p hp) (hd.values p hp)

/-- A document comes back if and only if it is faithful. -/
theorem roundTrips_iff (d : Document) (hd : d.Valid) : d.RoundTrips ↔ d.Faithful := by
  constructor
  · intro h
    refine ⟨fun p hp => p.2.reread_eq_iff.mp ?_, fun comment hc line hl name ha => ?_⟩
    · have hp' : d.getVariable p.1 = some p.2 := AList.mem_lookup_iff.mpr hp
      have := h p.1
      rw [getVariable_parse_toString hd, hp'] at this
      exact Option.some.inj this
    · by_contra hname
      have hnone : d.getVariable name = none := AList.lookup_eq_none.mpr hname
      have := h name
      rw [getVariable_parse_toString hd, hnone, Option.map_none, Option.none_or, getVariable_foldl_eq_none] at this
      obtain ⟨line', hl', v, hv⟩ := (assigned_commentLines name).mpr ⟨comment, hc, line, hl, ha⟩
      exact this.2 line' hl' v hv
  · intro h name
    rw [getVariable_parse_toString hd]
    cases hv : d.getVariable name with
    | some v =>
        have hmem : ⟨name, v⟩ ∈ d.variables_.entries := AList.mem_lookup_iff.mp hv
        rw [Option.map_some, Option.some_or, v.reread_eq_iff.mpr (h.values _ hmem)]
    | none =>
        rw [Option.map_none, Option.none_or, getVariable_foldl_eq_none]
        refine ⟨rfl, fun line hl v ha => ?_⟩
        obtain ⟨comment, hc, line', hl', ha'⟩ := (assigned_commentLines name).mp ⟨line, hl, v, ha⟩
        exact AList.lookup_eq_none.mp hv (h.comments comment hc line' hl' name ha')

/-- Quotes of the other kind, an escape that is decoded, and a comment over a variable. -/
def greeting : Document :=
  Document.empty.addVariable (ascii "_w") ⟨ascii "it's", .single, true⟩
    |>.addVariable (ascii "A1") ⟨ascii "\"hi\"\n", .double, false⟩
    |>.addComment (ascii "old\nA1=2")

theorem greeting_entries :
    greeting.variables_.entries =
      [⟨ascii "A1", ⟨ascii "\"hi\"\n", .double, false⟩⟩, ⟨ascii "_w", ⟨ascii "it's", .single, true⟩⟩] := rfl

theorem greeting_valid : greeting.Valid := by
  refine ⟨fun p hp => ?_, fun p hp => ?_⟩
  all_goals
    rw [greeting_entries, List.mem_cons, List.mem_singleton] at hp
    rcases hp with rfl | rfl
  · exact ⟨_, _, rfl, rfl, List.all_eq_true.mp rfl⟩
  · exact ⟨_, _, rfl, rfl, List.all_eq_true.mp rfl⟩
  · exact ⟨nofun, nofun⟩
  · exact ⟨nofun, fun _ => by decide⟩

theorem greeting_faithful : greeting.Faithful := by
  refine ⟨fun p hp => ?_, fun comment hc line hl name ha => ?_⟩
  · rw [greeting_entries, List.mem_cons, List.mem_singleton] at hp
    rcases hp with rfl | rfl
    · exact fun _ => List.all_eq_true.mp rfl
    · exact nofun
  · obtain rfl : comment = ascii "old\nA1=2" := List.mem_singleton.mp hc
    obtain rfl : line = ascii "A1=2" := List.mem_singleton.mp hl
    obtain ⟨v, hv⟩ := (assigned_iff _ name).mpr ha
    obtain rfl : ascii "A1" = name := congrArg Prod.fst (Option.some.inj hv)
    decide

theorem greeting_roundTrips : greeting.RoundTrips := (roundTrips_iff greeting greeting_valid).mpr greeting_faithful

/-- A single quote in double quotes. -/
def apostrophe : Document := Document.empty.addVariable (ascii "A") ⟨[0x27], .double, false⟩

/-- `escape` prints the single quote as `\'`, and `parseDoubleQuotedValue` keeps the backslash. -/
theorem apostrophe_not_roundTrips :
    apostrophe.Valid ∧ (parse apostrophe.toString).getVariable (ascii "A") = some ⟨[0x5C, 0x27], .double, false⟩ ∧
      ¬apostrophe.RoundTrips := by
  have hget : (parse apostrophe.toString).getVariable (ascii "A") = some ⟨[0x5C, 0x27], .double, false⟩ := by decide
  refine ⟨⟨?_, ?_⟩, hget, fun h => ?_⟩
  · rintro p hp
    obtain rfl := List.mem_singleton.mp hp
    exact ⟨_, _, rfl, rfl, List.all_eq_true.mp rfl⟩
  · rintro p hp
    obtain rfl := List.mem_singleton.mp hp
    exact ⟨nofun, nofun⟩
  · have := (h (ascii "A")).symm.trans hget
    exact absurd this (by decide)

end NeForce.Env
