import Mathlib.Data.List.Chain
import NeForce.HttpServerRequests
import NeForce.Multipart

/-! # Headers of a part

What is read from the headers of a written part.  The parameters are found by searching, so that a filename in front is
taken for the name (`quoted_name`), and a name that ends in `filename=` hides the filename behind it (`quoted_filename`).
What is read always stands on one line, and so the part is read as it was meant just when its headers are plain
(`read_content_iff`). -/

namespace NeForce.Multipart

open HttpServer (find crlf lower)
open Search (firstAt firstAt_append firstAt_skip firstAt_eq_some)

/-! ### Lines -/

/-- There is no line end. -/
abbrev Unbroken (s : Bytes) : Prop := s.IsChain fun a b => ¬ (a = 0x0D ∧ b = 0x0A)

theorem firstAt_crlf {line : Bytes} (h : Unbroken line) (rest : Bytes) : firstAt crlf (line ++ (crlf ++ rest)) = some line.length := by
  induction line with
  | nil => exact Search.firstAt_self
  | cons c line ih =>
      obtain ⟨hc, hline⟩ := List.isChain_cons.mp h
      rw [List.cons_append, ← List.singleton_append, firstAt_skip, ih hline]
      · exact congrArg some (Nat.add_comm _ _)
      · intro j hj
        obtain rfl : j = 0 := by simpa using hj
        rintro ⟨r, hr⟩
        cases line with
        | nil => simp [crlf] at hr
        | cons d line =>
            simp [crlf] at hr
            exact hc d rfl ⟨hr.1.symm, hr.2.1.symm⟩

/-! ### Parameters -/

/-- The text between the pattern and the next quote is found. -/
theorem quoted_eq {pat before text after : Bytes}
    (h : firstAt pat (before ++ (pat ++ (text ++ quote :: after))) = some before.length) (htext : quote ∉ text) :
    quoted pat (before ++ (pat ++ (text ++ quote :: after))) = some text := by
  have hdrop : (before ++ (pat ++ (text ++ quote :: after))).drop (before.length + pat.length) = text ++ quote :: after := by
    rw [← List.drop_drop, List.drop_left, List.drop_left]
  rw [quoted, h, Option.bind_some, find, hdrop, HttpServer.firstAt_singleton htext, Option.map_some, Option.map_some,
    Nat.add_sub_cancel_left, List.take_left]

/-- A text that the pattern comes first in. -/
theorem quoted_first {pat before text : Bytes} (h : firstAt pat (before ++ pat) = some before.length)
    (htext : quote ∉ text) (after : Bytes) : quoted pat (before ++ (pat ++ (text ++ quote :: after))) = some text := by
  refine quoted_eq ?_ htext
  rw [← List.append_assoc]
  exact firstAt_append h _

variable {f : FormField}

def nameKey : Bytes := ascii "name="

def filenameKey : Bytes := ascii "filename="

/-- The name that is read: a filename that stands first is taken for it. -/
theorem quoted_name (f : FormField) : quoted (ascii "name=\"") f.disposition =
    some (match f.filename with
      | none => f.name
      | some x => if f.filenameFirst then x else f.name) := by
  have hfirst : firstAt (ascii "name=\"") (ascii "form-data; " ++ ascii "name=\"") = some (ascii "form-data; ").length := by
    decide
  have hinside : firstAt (ascii "name=\"") (ascii "form-data; file" ++ ascii "name=\"") =
      some (ascii "form-data; file").length := by decide
  unfold FormField.disposition
  cases hx : f.filename with
  | none => exact quoted_first hfirst f.name_unquoted []
  | some x =>
      dsimp only
      split
      · have h := quoted_first hinside (f.filename_unquoted x hx) (ascii "; " ++ parameter "name=\"" f.name)
        have hbytes : ascii "filename=\"" = ascii "file" ++ ascii "name=\"" := by decide
        have hbytes' : ascii "form-data; file" = ascii "form-data; " ++ ascii "file" := by decide
        rw [parameter, hbytes]
        rw [hbytes'] at h
        simp only [List.append_assoc, List.cons_append, List.nil_append] at h ⊢
        exact h
      · have h := quoted_first hfirst f.name_unquoted (ascii "; " ++ parameter "filename=\"" x)
        simp only [parameter, List.append_assoc, List.cons_append, List.nil_append] at h ⊢
        exact h

/-- The filename that is read: a name that ends in `filename=` hides it. -/
theorem quoted_filename (f : FormField) : quoted (ascii "filename=\"") f.disposition =
    match f.filename with
    | none => none
    | some x => some (if f.filenameFirst ∨ ¬ filenameKey <:+ f.name then x else ascii "; filename=") := by
  have hfirst : firstAt (ascii "filename=\"") (ascii "form-data; " ++ ascii "filename=\"") =
      some (ascii "form-data; ").length := by decide
  have hpat : ascii "filename=\"" = filenameKey ++ [quote] := by decide
  have hkey : quote ∉ filenameKey := by decide
  have hfront : quote ∉ ascii "form-data; name=" := by decide
  have hpast (s : Bytes) : firstAt (filenameKey ++ [quote]) (ascii "form-data; name=" ++ quote :: s) =
      (firstAt (filenameKey ++ [quote]) s).map ((ascii "form-data; name=").length + 1 + ·) :=
    Search.firstAt_past hfront hkey (by decide)
  have hname (s : Bytes) : ascii "form-data; " ++ (parameter "name=\"" f.name ++ s) =
      ascii "form-data; name=" ++ quote :: (f.name ++ quote :: s) := by
    have hbytes : ascii "form-data; " ++ ascii "name=\"" = ascii "form-data; name=" ++ [quote] := by decide
    rw [parameter, List.append_assoc, ← List.append_assoc, hbytes]
    simp only [List.append_assoc, List.cons_append, List.nil_append]
  unfold FormField.disposition
  cases hx : f.filename with
  | none =>
      dsimp only
      have h := hname []
      rw [List.append_nil] at h
      rw [h, hpat]
      by_cases hsuffix : filenameKey <:+ f.name
      · obtain ⟨m, hm⟩ := hsuffix
        have hm' : quote ∉ m := fun hq => f.name_unquoted (hm ▸ List.mem_append_left _ hq)
        rw [quoted, hpast, ← hm, List.append_assoc, Search.firstAt_ending hm' hkey]
        have hnil : (ascii "form-data; name=" ++ quote :: (m ++ (filenameKey ++ [quote]))).drop
            ((ascii "form-data; name=").length + 1 + m.length + (filenameKey ++ [quote]).length) = [] := by
          refine List.drop_eq_nil_of_le ?_
          simp only [List.length_append, List.length_cons]
          omega
        rw [Option.map_some, Option.bind_some, find, hnil]
        rfl
      · rw [quoted, hpast, Search.firstAt_past f.name_unquoted hkey hsuffix]
        rfl
  | some x =>
      dsimp only
      split
      · next hfst =>
        rw [if_pos (.inl hfst)]
        have h := quoted_first hfirst (f.filename_unquoted x hx) (ascii "; " ++ parameter "name=\"" f.name)
        simp only [parameter, List.append_assoc, List.cons_append, List.nil_append] at h ⊢
        exact h
      · next hfst =>
        rw [hname, hpat]
        by_cases hsuffix : filenameKey <:+ f.name
        · rw [if_neg (by simp [hfst, hsuffix])]
          obtain ⟨m, hm⟩ := hsuffix
          have hm' : quote ∉ m := fun hq => f.name_unquoted (hm ▸ List.mem_append_left _ hq)
          have hsep : ascii "; " ++ parameter "filename=\"" x = ascii "; filename=" ++ quote :: (x ++ [quote]) := rfl
          have h := @quoted_eq (filenameKey ++ [quote]) (ascii "form-data; name=" ++ quote :: m) (ascii "; filename=")
            (x ++ [quote])
          simp only [List.append_assoc, List.cons_append, List.nil_append] at h
          rw [hsep, ← hm, List.append_assoc]
          refine h ?_ (by decide)
          rw [hpast, Search.firstAt_ending hm' hkey, Option.map_some, List.length_append, List.length_cons]
          exact congrArg some (by omega)
        · rw [if_pos (.inr hsuffix)]
          have hsep : ascii "; " ++ parameter "filename=\"" x = ascii "; " ++ (filenameKey ++ quote :: (x ++ [quote])) := rfl
          have h := @quoted_eq (filenameKey ++ [quote])
            (ascii "form-data; name=" ++ quote :: (f.name ++ quote :: ascii "; ")) x []
          simp only [List.append_assoc, List.cons_append, List.nil_append] at h
          rw [hsep]
          refine h ?_ (f.filename_unquoted x hx)
          rw [hpast, Search.firstAt_past f.name_unquoted hkey hsuffix,
            Search.firstAt_ending (show quote ∉ ascii "; " by decide) hkey]
          simp only [Option.map_some, List.length_append, List.length_cons]
          exact congrArg some (by omega)

/-! ### Headers -/

theorem unbroken_append {a b : Bytes} (ha : Unbroken a) (hb : Unbroken b)
    (h : a.getLast? ≠ some 0x0D ∨ b.head? ≠ some 0x0A) : Unbroken (a ++ b) := by
  refine List.isChain_append.mpr ⟨ha, hb, ?_⟩
  rintro x hx y hy ⟨rfl, rfl⟩
  exact h.elim (· hx) (· hy)

theorem unbroken_parameter {key : String} {value : Bytes} (hkey : Unbroken (ascii key))
    (hlast : (ascii key).getLast? = some quote) (h : Unbroken value) : Unbroken (parameter key value) := by
  refine unbroken_append hkey (unbroken_append h (List.isChain_singleton _) (.inr (by decide))) (.inl ?_)
  rw [hlast]
  decide

theorem unbroken_header {key value : Bytes} (hkey : Unbroken key) (h : Unbroken value) :
    Unbroken (key ++ 0x3A :: (0x20 :: value)) := by
  have hsep : Unbroken [0x3A, 0x20] := by decide
  exact unbroken_append hkey (unbroken_append hsep h (.inl (by decide))) (.inr (by simp))

/-- A header line is read. -/
theorem parsePartHeaders_line {key value rest : Bytes} (hkey : 0x3A ∉ key) (hline : Unbroken (key ++ 0x3A :: value))
    (n : ℕ) (field : MultipartField) :
    parsePartHeaders (n + 1) ((key ++ 0x3A :: value) ++ (crlf ++ rest)) field =
      parsePartHeaders n rest (field.addHeader key (value.dropWhile (· = 0x20))) := by
  have hlen : (key ++ 0x3A :: value).length = key.length + value.length + 1 := by
    rw [List.length_append, List.length_cons]
    omega
  have hrest : ((key ++ 0x3A :: value) ++ (crlf ++ rest)).drop (key.length + value.length + 3) = rest := by
    rw [← List.append_assoc]
    refine List.drop_left' ?_
    rw [List.length_append, hlen]
    rfl
  have htake : ((key ++ 0x3A :: value) ++ (crlf ++ rest)).take (key.length + value.length + 1) = key ++ 0x3A :: value :=
    List.take_left' hlen
  have hcolon : firstAt [0x3A] (key ++ 0x3A :: value) = some key.length := HttpServer.firstAt_singleton hkey value
  have hvalue : (key ++ 0x3A :: value).drop (key.length + 1) = value := by
    rw [← List.drop_drop, List.drop_left]
    rfl
  rw [parsePartHeaders, firstAt_crlf hline, hlen]
  dsimp only
  rw [htake, hrest, hcolon]
  dsimp only
  rw [List.take_left, hvalue]

theorem parsePartHeaders_empty (n : ℕ) (rest : Bytes) (field : MultipartField) :
    parsePartHeaders (n + 1) (crlf ++ rest) field = (rest, field) := by
  rw [parsePartHeaders, Search.firstAt_self]
  rfl

/-- What is read from the part. -/
def FormField.read (f : FormField) : MultipartField := { (parsePart f.part).2 with data := (parsePart f.part).1 }

/-- The values that stand in the headers have no line ends. -/
structure FormField.Lines (f : FormField) : Prop where
  name : Unbroken f.name
  filename : ∀ x ∈ f.filename, Unbroken x
  contentType : ∀ t ∈ f.contentType, Unbroken t

theorem unbroken_disposition (hf : f.Lines) : Unbroken f.disposition := by
  have hn : Unbroken (parameter "name=\"" f.name) :=
    unbroken_parameter (by decide) (by decide) hf.name
  have hlast : (ascii "form-data; ").getLast? ≠ some 0x0D := by decide
  have hsep : (ascii "; ").getLast? ≠ some 0x0D := by decide
  have hhead (l : Bytes) : (ascii "; " ++ l).head? ≠ some 0x0A := by
    show some 0x3B ≠ some 0x0A
    decide
  unfold FormField.disposition
  refine unbroken_append (by decide) ?_ (.inl hlast)
  cases hx : f.filename with
  | none => exact hn
  | some x =>
      have hx : Unbroken (parameter "filename=\"" x) :=
        unbroken_parameter (by decide) (by decide) (hf.filename x hx)
      dsimp only
      split
      · exact unbroken_append hx (unbroken_append (by decide) hn (.inl hsep)) (.inr (hhead _))
      · exact unbroken_append hn (unbroken_append (by decide) hx (.inl hsep)) (.inr (hhead _))

/-- The headers of a part are read up to its data. -/
theorem parsePartHeaders_part (hf : f.Lines) (n : ℕ) (behind : Bytes) (field : MultipartField) :
    parsePartHeaders (n + 3) (f.part ++ behind) field =
      (f.data ++ behind,
        match f.contentType with
        | none => field.addHeader (ascii "Content-Disposition") f.disposition
        | some t => (field.addHeader (ascii "Content-Disposition") f.disposition).addHeader (ascii "Content-Type")
            (t.dropWhile (· = 0x20))) := by
  have hpart : f.part ++ behind = (ascii "Content-Disposition" ++ 0x3A :: (0x20 :: f.disposition)) ++
      (crlf ++ (f.typeLine ++ (crlf ++ (f.data ++ behind)))) := by
    have hkey : ascii "Content-Disposition: " = ascii "Content-Disposition" ++ [0x3A, 0x20] := by decide
    rw [FormField.part, hkey]
    simp only [List.append_assoc, List.cons_append, List.nil_append]
  have hline : Unbroken (ascii "Content-Disposition" ++ 0x3A :: (0x20 :: f.disposition)) :=
    unbroken_header (by decide) (unbroken_disposition hf)
  have hdisp : (0x20 :: f.disposition).dropWhile (· = 0x20) = f.disposition := by
    rw [List.dropWhile_cons_of_pos (by decide)]
    exact List.dropWhile_cons_of_neg (by decide)
  rw [hpart, parsePartHeaders_line (by decide) hline, hdisp]
  cases ht : f.contentType with
  | none =>
      rw [FormField.typeLine, ht]
      dsimp only
      rw [List.nil_append, parsePartHeaders_empty]
  | some t =>
      have htypeLine : f.typeLine ++ (crlf ++ (f.data ++ behind)) =
          (ascii "Content-Type" ++ 0x3A :: (0x20 :: t)) ++ (crlf ++ (crlf ++ (f.data ++ behind))) := by
        have hkey : ascii "Content-Type: " = ascii "Content-Type" ++ [0x3A, 0x20] := by decide
        rw [FormField.typeLine, ht]
        dsimp only
        rw [hkey]
        simp only [List.append_assoc, List.cons_append, List.nil_append]
      rw [htypeLine, parsePartHeaders_line (by decide) (unbroken_header (by decide) (hf.contentType t ht)),
        List.dropWhile_cons_of_pos (by decide), parsePartHeaders_empty]

/-- The values that are read from a part whose headers are lines. -/
theorem read_content (hf : f.Lines) :
    f.read.content = ⟨(quoted (ascii "name=\"") f.disposition).getD [], (quoted (ascii "filename=\"") f.disposition).getD [],
      (f.contentType.getD []).dropWhile (· = 0x20), f.data⟩ := by
  obtain ⟨n, hn⟩ : ∃ n, f.part.length = n + 3 := by
    refine ⟨f.part.length - 3, ?_⟩
    have hlen : (ascii "Content-Disposition: ").length = 21 := by decide
    have : 3 ≤ f.part.length := by
      rw [FormField.part, List.length_append, hlen]
      omega
    omega
  have hfirst (field : MultipartField) (value : Bytes) : field.addHeader (ascii "Content-Disposition") value =
      { field with
        name := (quoted (ascii "name=\"") value).getD field.name
        filename := (quoted (ascii "filename=\"") value).getD field.filename
        headers := field.headers.insert (ascii "Content-Disposition") value } := by
    rw [MultipartField.addHeader, if_pos (by decide)]
  have hsecond (field : MultipartField) (value : Bytes) : field.addHeader (ascii "Content-Type") value =
      { field with contentType := value, headers := field.headers.insert (ascii "Content-Type") value } := by
    rw [MultipartField.addHeader, if_neg (by decide), if_pos (by decide)]
  have hread := parsePartHeaders_part hf n [] {}
  rw [List.append_nil, List.append_nil] at hread
  rw [FormField.read, parsePart, hn, hread]
  cases f.contentType with
  | none =>
      dsimp only
      rw [hfirst]
      rfl
  | some t =>
      dsimp only
      rw [hfirst, hsecond]
      rfl

/-! ### What is read is on a line -/

theorem unbroken_of_not_prefix {s : Bytes} (h : ∀ j, ¬ crlf <+: s.drop j) : Unbroken s := by
  induction s with
  | nil => exact List.isChain_nil
  | cons c s ih =>
      refine List.isChain_cons.mpr ⟨?_, ih fun j => h (j + 1)⟩
      rintro y hy ⟨rfl, rfl⟩
      obtain ⟨s', rfl⟩ := List.head?_eq_some_iff.mp hy
      exact h 0 ⟨s', rfl⟩

/-- The bytes before the first line end. -/
theorem unbroken_take {part : Bytes} {eol : ℕ} (h : firstAt crlf part = some eol) : Unbroken (part.take eol) := by
  refine unbroken_of_not_prefix fun j hp => ?_
  have hlen := hp.length_le
  rw [List.length_drop, List.length_take, show crlf.length = 2 from rfl] at hlen
  refine (firstAt_eq_some.mp h).2.2 j (by omega) (hp.trans ?_)
  rw [List.drop_take]
  exact List.take_prefix _ _

section

variable {P : Bytes → Prop}

theorem quoted_piece {pat value text : Bytes} (hq : quoted pat value = some text) : text <:+: value := by
  obtain ⟨i, -, hi⟩ := Option.bind_eq_some_iff.mp hq
  obtain ⟨stop, -, rfl⟩ := Option.map_eq_some_iff.mp hi
  exact (List.take_prefix _ _).isInfix.trans (List.drop_suffix _ _).isInfix

/-- The parameters and the type have a property. -/
def MultipartField.All (P : Bytes → Prop) (field : MultipartField) : Prop :=
  P field.name ∧ P field.filename ∧ P field.contentType

theorem MultipartField.All.addHeader (hP : ∀ {a b : Bytes}, a <:+: b → P b → P a) {field : MultipartField}
    (h : field.All P) (key : Bytes) {value : Bytes} (hv : P value) : (field.addHeader key value).All P := by
  have hor {pat text : Bytes} (ht : P text) : P ((quoted pat value).getD text) := by
    cases hq : quoted pat value with
    | none => exact ht
    | some text => exact hP (quoted_piece hq) hv
  obtain ⟨h1, h2, h3⟩ := h
  rw [MultipartField.addHeader]
  split
  · exact ⟨hor h1, hor h2, h3⟩
  · split
    · exact ⟨h1, h2, hv⟩
    · exact ⟨h1, h2, h3⟩

/-- The values are pieces of the lines of a part, and the data is what is left of it. -/
theorem parsePartHeaders_all (hP : ∀ {a b : Bytes}, a <:+: b → P b → P a) {n : ℕ} {part : Bytes} {field : MultipartField}
    (hlines : ∀ l eol, l <:+ part → firstAt crlf l = some eol → P (l.take eol)) (h : field.All P) :
    (parsePartHeaders n part field).1 <:+ part ∧ (parsePartHeaders n part field).2.All P := by
  induction n generalizing part field with
  | zero => exact ⟨List.suffix_rfl, h⟩
  | succ n ih =>
      rw [parsePartHeaders]
      split
      · exact ⟨List.suffix_rfl, h⟩
      · exact ⟨List.drop_suffix _ _, h⟩
      · next eol heol =>
        have hdrop (k : ℕ) : part.drop k <:+ part := List.drop_suffix _ _
        have hmore (k : ℕ) : ∀ l eol, l <:+ part.drop k → firstAt crlf l = some eol → P (l.take eol) :=
          fun l eol hl => hlines l eol (hl.trans (hdrop k))
        dsimp only
        split
        · obtain ⟨h1, h2⟩ := ih (hmore _) h
          exact ⟨h1.trans (hdrop _), h2⟩
        · have hvalue (k : ℕ) : P (((part.take (eol + 1)).drop k).dropWhile (· = 0x20)) :=
            hP ((List.dropWhile_suffix _).isInfix.trans (List.drop_suffix _ _).isInfix)
              (hlines part _ List.suffix_rfl heol)
          obtain ⟨h1, h2⟩ := ih (hmore _) (h.addHeader hP _ (hvalue _))
          exact ⟨h1.trans (hdrop _), h2⟩

end

theorem parsePart_unbroken (part : Bytes) : (parsePart part).2.All Unbroken :=
  (parsePartHeaders_all (fun h hb => hb.infix h) (fun _ _ _ h => unbroken_take h)
    ⟨List.isChain_nil, List.isChain_nil, List.isChain_nil⟩).2

/-- A field that is read with such values is written on lines. -/
theorem lines_of_content {g : MultipartField} (hg : g.All Unbroken) (h : g.content = f.content) : f.Lines := by
  obtain ⟨h1, h2, h3⟩ := hg
  obtain ⟨e1, e2, e3, -⟩ := Content.mk.inj h
  refine ⟨e1 ▸ h1, fun x hx => ?_, fun t ht => ?_⟩
  · rw [hx, Option.getD_some] at e2
    exact e2 ▸ h2
  · rw [ht, Option.getD_some] at e3
    exact e3 ▸ h3

/-! ### The condition -/

/-- The headers are read as they were meant: no value has a line end in it, the type has no space in front, a filename
that comes first is the name, and a name does not end like the key of a filename behind it. -/
structure FormField.Plain (f : FormField) : Prop where
  name : Unbroken f.name
  filename : ∀ x ∈ f.filename, Unbroken x
  contentType : ∀ t ∈ f.contentType, Unbroken t ∧ t.head? ≠ some 0x20
  order : ∀ x ∈ f.filename, if f.filenameFirst then x = f.name else filenameKey <:+ f.name → x = ascii "; filename="

/-- **A part is read as it was meant if and only if its headers are plain.** -/
theorem read_content_iff (f : FormField) : f.read.content = f.content ↔ f.Plain := by
  constructor
  · intro h
    have hf : f.Lines := by
      refine lines_of_content ?_ h
      have hall := parsePart_unbroken f.part
      rw [FormField.read]
      generalize parsePart f.part = r at hall ⊢
      exact hall
    rw [read_content hf, quoted_name, quoted_filename] at h
    obtain ⟨h1, h2, h3, -⟩ := Content.mk.inj h
    refine ⟨hf.name, hf.filename, fun t ht => ⟨hf.contentType t ht, ?_⟩, ?_⟩
    · intro hhead
      obtain ⟨t', rfl⟩ := List.head?_eq_some_iff.mp hhead
      rw [ht] at h3
      have hlen := congrArg List.length h3
      rw [Option.getD_some, List.dropWhile_cons_of_pos (by decide), List.length_cons] at hlen
      have := (List.dropWhile_suffix (· = 0x20) (l := t')).length_le
      omega
    · intro x hx
      rw [hx] at h1 h2
      split
      · next hfst => simpa [hfst] using h1
      · next hfst =>
        intro hsuffix
        simpa [hfst, hsuffix] using h2.symm
  · intro h
    have htype : (f.contentType.getD []).dropWhile (· = 0x20) = f.contentType.getD [] := by
      cases ht : f.contentType with
      | none => rfl
      | some t =>
          cases t with
          | nil => rfl
          | cons c t =>
              refine List.dropWhile_cons_of_neg ?_
              have := (h.contentType _ ht).2
              simpa using this
    rw [read_content ⟨h.name, h.filename, fun t ht => (h.contentType t ht).1⟩, quoted_name, quoted_filename, htype,
      FormField.content]
    cases hx : f.filename with
    | none => rfl
    | some x =>
        have horder := h.order x hx
        split at horder
        · next hfst =>
          simp [hfst, horder]
        · next hfst =>
          by_cases hsuffix : filenameKey <:+ f.name
          · simp [hfst, hsuffix, horder hsuffix]
          · simp [hfst, hsuffix]

end NeForce.Multipart
