import NeForce.MultipartHeaders

/-! # Delimiters

Where a delimiter can stand in a written body.  A boundary has no quote and no line end, so that a delimiter stands in
a part if and only if it stands in one of its values; and a delimiter on the line behind another one is one that
separates two parts, or ends the body (`render_of_delimiters`). -/

namespace NeForce.Multipart

open HttpServer (find crlf lower)
open Search (firstAt infix_of_not_mem)

/-- A boundary that can stand in quotes on the line of a `Content-Type`. -/
structure Boundary where
  text : Bytes
  text_ne : text ≠ []
  quotable : quote ∉ text ∧ 0x0D ∉ text ∧ 0x0A ∉ text

namespace Boundary

variable (b : Boundary) {f : FormField}

abbrev delim : Bytes := delimiter b.text

theorem not_mem : quote ∉ b.delim ∧ 0x0D ∉ b.delim ∧ 0x0A ∉ b.delim := by
  have hdashes : quote ∉ dashes ∧ (0x0D : UInt8) ∉ dashes ∧ (0x0A : UInt8) ∉ dashes := by decide
  have htext := b.quotable
  refine ⟨fun h => ?_, fun h => ?_, fun h => ?_⟩
  · exact (List.mem_append.mp h).elim hdashes.1 htext.1
  · exact (List.mem_append.mp h).elim hdashes.2.1 htext.2.1
  · exact (List.mem_append.mp h).elim hdashes.2.2 htext.2.2

/-- The delimiter is nowhere in a text. -/
def Free (s : Bytes) : Prop := ¬ b.delim <:+: s

variable {b}

theorem Free.append {a s : Bytes} {c : UInt8} (ha : b.Free a) (hs : b.Free s) (hc : c ∉ b.delim) : b.Free (a ++ c :: s) :=
  fun h => (infix_of_not_mem hc h).elim ha hs

theorem free_of_dashes {s : Bytes} (h : ¬ dashes <:+: s) : b.Free s :=
  fun hi => h ((List.prefix_append dashes b.text).isInfix.trans hi)

/-- A text in front, without two dashes and not ending in one, holds no start of the delimiter. -/
theorem Free.append_left {a s : Bytes} (hs : b.Free s) (ha : a.IsChain fun x y => ¬ (x = 0x2D ∧ y = 0x2D))
    (hlast : a.getLast? ≠ some 0x2D) : b.Free (a ++ s) := by
  induction a with
  | nil => exact hs
  | cons c a ih =>
      obtain ⟨hc, ha'⟩ := List.isChain_cons.mp ha
      intro h
      obtain ⟨r, hr⟩ | h := List.infix_cons_iff.mp h
      · -- Two dashes, of which the first is `c`.
        obtain ⟨h1, h2⟩ := List.cons.inj (show 0x2D :: (0x2D :: (b.text ++ r)) = c :: (a ++ s) from hr)
        cases a with
        | nil => exact hlast (h1 ▸ rfl)
        | cons d a => exact hc d rfl ⟨h1.symm, (List.cons.inj h2).1.symm⟩
      · refine ih ha' ?_ h
        cases a with
        | nil => exact Option.some_ne_none _ |>.symm
        | cons d a => simpa using hlast

end Boundary

variable {b : Boundary} {f : FormField}

/-- The delimiter is in none of the values. -/
structure FormField.Clear (b : Boundary) (f : FormField) : Prop where
  name : b.Free f.name
  filename : ∀ x ∈ f.filename, b.Free x
  contentType : ∀ t ∈ f.contentType, b.Free t
  data : b.Free f.data

theorem free_parameter {key value : Bytes} {k : String} (hk : ascii k = key ++ [quote])
    (hv : b.Free value) {s : Bytes} (hs : b.Free s) {before : Bytes} (hbefore : ¬ dashes <:+: before ++ key) :
    b.Free (before ++ (parameter k value ++ s)) := by
  have hq := b.not_mem.1
  have h := Boundary.Free.append (Boundary.free_of_dashes hbefore) (hv.append hs hq) hq
  rw [parameter, hk]
  simp only [List.append_assoc, List.cons_append, List.nil_append] at h ⊢
  exact h

theorem FormField.Clear.part (h : f.Clear b) : b.Free f.part := by
  obtain ⟨hq, hcr, hlf⟩ := b.not_mem
  have hnil : b.Free [] := Boundary.free_of_dashes (by decide)
  have hcrlf {a s : Bytes} (ha : b.Free a) (hs : b.Free s) : b.Free (a ++ (crlf ++ s)) :=
    ha.append (Boundary.Free.append hnil hs hlf) hcr
  have htype : b.Free (f.typeLine ++ (crlf ++ f.data)) := by
    rw [FormField.typeLine]
    cases ht : f.contentType with
    | none => exact hcrlf hnil h.data
    | some t =>
        have hline : b.Free (ascii "Content-Type: " ++ t) :=
          (h.contentType t ht).append_left (by decide +kernel) (by decide +kernel)
        have h2 := hcrlf hline (hcrlf hnil h.data)
        simp only [List.append_assoc, List.nil_append] at h2 ⊢
        exact h2
  have hrest : b.Free (crlf ++ (f.typeLine ++ (crlf ++ f.data))) := hcrlf hnil htype
  have hpart : f.part = ascii "Content-Disposition: " ++ (f.disposition ++ (crlf ++ (f.typeLine ++ (crlf ++ f.data)))) := rfl
  have hbefore : ascii "Content-Disposition: " ++ ascii "form-data; " = ascii "Content-Disposition: form-data; " := by
    decide +kernel
  rw [hpart, FormField.disposition, List.append_assoc (ascii "form-data; "), ← List.append_assoc, hbefore]
  generalize crlf ++ (f.typeLine ++ (crlf ++ f.data)) = rest at hrest
  have hname : ascii "name=\"" = nameKey ++ [quote] := by decide +kernel
  have hfilename : ascii "filename=\"" = filenameKey ++ [quote] := by decide +kernel
  cases hx : f.filename with
  | none => exact free_parameter hname h.name hrest (by decide +kernel)
  | some x =>
      dsimp only
      split
      · rw [List.append_assoc, List.append_assoc]
        exact free_parameter hfilename (h.filename x hx) (free_parameter hname h.name hrest (by decide +kernel))
          (by decide +kernel)
      · rw [List.append_assoc, List.append_assoc]
        exact free_parameter hname h.name (free_parameter hfilename (h.filename x hx) hrest (by decide +kernel))
          (by decide +kernel)

/-! ### Line ends in a body -/

/-- A line end is the end of the first line, or behind it. -/
theorem split_line {a rest x z : Bytes} (ha : Unbroken a) (h : a ++ (crlf ++ rest) = x ++ (crlf ++ z)) :
    (x = a ∧ rest = z) ∨ ∃ y, x = a ++ (crlf ++ y) ∧ rest = y ++ (crlf ++ z) := by
  obtain ⟨m, rfl, hm⟩ | ⟨m, rfl, hm⟩ := List.append_eq_append_iff.mp h
  · -- The line end comes later.
    match m, hm with
    | [], hm => exact .inl ⟨List.append_nil _, List.append_cancel_left hm⟩
    | [_], hm => exact absurd (List.cons.inj (List.cons.inj hm).2).1 (by decide)
    | _ :: _ :: y, hm =>
        obtain ⟨rfl, hm₁⟩ := List.cons.inj hm
        obtain ⟨rfl, hm₂⟩ := List.cons.inj hm₁
        exact .inr ⟨y, rfl, hm₂⟩
  · -- It cannot come earlier.
    match m, hm with
    | [], hm => exact .inl ⟨(List.append_nil _).symm, (List.append_cancel_left hm).symm⟩
    | [_], hm => exact absurd (List.cons.inj (List.cons.inj hm).2).1 (by decide)
    | _ :: _ :: y, hm =>
        obtain ⟨rfl, hm₁⟩ := List.cons.inj hm
        obtain ⟨rfl, -⟩ := List.cons.inj hm₁
        exact absurd ⟨rfl, rfl⟩ (List.isChain_append_cons_cons.mp ha).2.1

theorem unbroken_of_not_mem {s : Bytes} (h : 0x0D ∉ s) : Unbroken s := by
  induction s with
  | nil => exact List.isChain_nil
  | cons c s ih =>
      rw [List.mem_cons, not_or] at h
      exact List.isChain_cons.mpr ⟨fun _ _ he => h.1 he.1.symm, ih h.2⟩

/-- The delimiter between a line end and the end of a text without it lies behind the text. -/
theorem split_data {data rest x y : Bytes} (hdata : ¬ (crlf ++ b.delim) <:+: data)
    (h : data ++ (crlf ++ rest) = x ++ (crlf ++ (b.delim ++ y))) :
    ∃ m, x = data ++ m ∧ crlf ++ rest = m ++ (crlf ++ (b.delim ++ y)) := by
  obtain ⟨m, hx, hm⟩ | ⟨m, hx, hm⟩ := List.append_eq_append_iff.mp h
  · exact ⟨m, hx, hm⟩
  · match m, hm with
    | [], hm => exact ⟨[], by rw [hx, List.append_nil, List.append_nil], hm.symm⟩
    | c :: m, hm =>
        -- The data would hold it, or a line end would stand in it.
        exfalso
        rw [← List.append_assoc crlf] at hm
        obtain ⟨k, hk, -⟩ | ⟨k, hk, hk'⟩ := List.append_eq_append_iff.mp hm
        · refine hdata (hx ▸ ?_)
          rw [hk]
          exact ⟨x, k, by rw [List.append_assoc]⟩
        · obtain ⟨-, hcr, hlf⟩ := b.not_mem
          cases k with
          | nil =>
              refine hdata (hx ▸ ?_)
              rw [List.append_nil] at hk
              rw [← hk]
              exact (List.suffix_append _ _).isInfix
          | cons d k =>
              obtain ⟨rfl, -⟩ := List.cons.inj (show 0x0D :: (0x0A :: rest) = d :: (k ++ y) from hk')
              have hmem : (0x0D : UInt8) ∈ 0x0A :: b.delim := by
                rw [show (0x0A : UInt8) :: b.delim = m ++ 0x0D :: k from (List.cons.inj hk).2]
                exact List.mem_append_right _ (List.mem_cons_self ..)
              exact (List.mem_cons.mp hmem).elim (by decide) hcr

/-- What is between a line end and the end of a delimiter holds the delimiter. -/
theorem delim_suffix {x z w : Bytes} (h : x ++ b.delim = (z ++ crlf) ++ w) : b.delim <:+ w := by
  have hd : b.delim <:+ (z ++ crlf) ++ w := ⟨x, h⟩
  by_cases hle : b.delim.length ≤ w.length
  · exact List.suffix_of_suffix_length_le hd (List.suffix_append _ _) hle
  · have hw : 0x0A :: w <:+ (z ++ crlf) ++ w := ⟨z ++ [0x0D], by simp [crlf]⟩
    have hs := List.suffix_of_suffix_length_le hw hd (by rw [List.length_cons]; omega)
    exact absurd (hs.subset (List.mem_cons_self ..)) b.not_mem.2.2

/-- A delimiter at a line end in a part, or behind it, is not at a line end of its headers, the last one excepted. -/
theorem split_part (hf : f.Lines) {s x y : Bytes} (h : f.part ++ s = x ++ (crlf ++ (b.delim ++ y))) :
    (∃ w, x = w ++ crlf) ∨ ∃ w x', x = (w ++ crlf) ++ x' ∧ f.data ++ s = x' ++ (crlf ++ (b.delim ++ y)) := by
  have hfirst : Unbroken (ascii "Content-Disposition: " ++ f.disposition) :=
    unbroken_append (by decide) (unbroken_disposition hf) (.inl (by decide))
  have hpart : f.part ++ s = (ascii "Content-Disposition: " ++ f.disposition) ++
      (crlf ++ (f.typeLine ++ (crlf ++ (f.data ++ s)))) := by
    simp only [FormField.part, List.append_assoc]
  have hempty {s x : Bytes} (h : crlf ++ s = x ++ (crlf ++ (b.delim ++ y))) :
      x = [] ∨ ∃ x', x = crlf ++ x' ∧ s = x' ++ (crlf ++ (b.delim ++ y)) := by
    obtain ⟨rfl, -⟩ | ⟨x', rfl, hx'⟩ := split_line (a := []) List.isChain_nil h
    · exact .inl rfl
    · exact .inr ⟨x', rfl, hx'⟩
  rw [hpart] at h
  obtain ⟨-, h₁⟩ | ⟨x₁, rfl, h₁⟩ := split_line hfirst h
  · -- The next line does not begin with a dash.
    exfalso
    have hhead := congrArg List.head? h₁
    rw [FormField.typeLine] at hhead
    cases ht : f.contentType with
    | none =>
        rw [ht] at hhead
        exact absurd hhead (by show some 0x0D ≠ some 0x2D; decide)
    | some t =>
        rw [ht] at hhead
        exact absurd hhead (by show some 0x43 ≠ some 0x2D; decide)
  · rw [FormField.typeLine] at h₁
    generalize ascii "Content-Disposition: " ++ f.disposition = first
    cases ht : f.contentType with
    | none =>
        rw [ht] at h₁
        obtain rfl | ⟨x', rfl, h₂⟩ := hempty h₁
        · exact .inl ⟨first, by rw [List.append_nil]⟩
        · exact .inr ⟨first ++ crlf, x', by simp only [List.append_assoc], h₂⟩
    | some t =>
        rw [ht] at h₁
        have hsecond : Unbroken (ascii "Content-Type: " ++ t) :=
          unbroken_append (by decide) (hf.contentType t ht) (.inl (by decide))
        have h₂ : (ascii "Content-Type: " ++ t) ++ (crlf ++ (crlf ++ (f.data ++ s))) = x₁ ++ (crlf ++ (b.delim ++ y)) := by
          rw [← h₁]
          simp only [List.append_assoc]
        obtain ⟨-, h₃⟩ | ⟨x₂, rfl, h₃⟩ := split_line hsecond h₂
        · exact absurd (congrArg List.head? h₃) (by show some 0x0D ≠ some 0x2D; decide)
        · generalize ascii "Content-Type: " ++ t = second
          obtain rfl | ⟨x', rfl, h₄⟩ := hempty h₃
          · exact .inl ⟨first ++ (crlf ++ second), by simp only [List.append_assoc, List.append_nil]⟩
          · exact .inr ⟨first ++ (crlf ++ (second ++ crlf)), x', by simp only [List.append_assoc], h₄⟩

/-- Two delimiters with a line end between them: the second one is written before a field or at the end. -/
theorem render_of_delimiters {fs : List FormField} (hlines : ∀ f ∈ fs, f.Lines)
    (hdata : ∀ f ∈ fs, ¬ (crlf ++ b.delim) <:+: f.data) {x y : Bytes}
    (h : render b.text fs = (x ++ b.delim) ++ (crlf ++ (b.delim ++ y))) :
    ∃ gs, gs <:+ fs ∧ b.delim ++ y = render b.text gs := by
  obtain ⟨hq, hcr, hlf⟩ := b.not_mem
  induction fs generalizing x with
  | nil =>
      have hlen := congrArg List.length h
      simp only [render, List.length_append, delimiter, show dashes.length = 2 from rfl, show crlf.length = 2 from rfl] at hlen
      have := List.length_pos_iff.mpr b.text_ne
      omega
  | cons f fs ih =>
      have hbad {w : Bytes} (he : x ++ b.delim = w ++ crlf) : False := by
        have hs := delim_suffix (w := []) (he.trans (List.append_nil _).symm)
        rw [List.suffix_nil] at hs
        cases hs
      obtain ⟨-, h₁⟩ | ⟨x₁, hx₁, h₁⟩ := split_line (unbroken_of_not_mem hcr) h
      · exact absurd (congrArg List.head? h₁) (by show some 0x43 ≠ some 0x2D; decide)
      · obtain ⟨w, rfl⟩ | ⟨w, x₂, rfl, h₂⟩ := split_part (hlines f (List.mem_cons_self ..)) h₁
        · refine (hbad (w := b.delim ++ (crlf ++ w)) ?_).elim
          rw [hx₁]
          simp only [List.append_assoc]
        · obtain ⟨m, rfl, h₃⟩ := split_data (hdata f (List.mem_cons_self ..)) h₂
          obtain ⟨-, h₄⟩ | ⟨x₃, rfl, h₄⟩ := split_line (a := []) List.isChain_nil h₃
          · exact ⟨fs, List.suffix_cons _ _, h₄.symm⟩
          · have hs : b.delim <:+ x₃ := by
              refine delim_suffix (x := x) (z := b.delim ++ (crlf ++ ((w ++ crlf) ++ f.data))) ?_
              rw [hx₁]
              simp only [List.append_assoc, List.nil_append]
            obtain ⟨x₄, rfl⟩ := hs
            obtain ⟨gs, hgs, he⟩ := ih (fun g hg => hlines g (List.mem_cons_of_mem _ hg))
              (fun g hg => hdata g (List.mem_cons_of_mem _ hg)) h₄
            exact ⟨gs, hgs.trans (List.suffix_cons _ _), he⟩

end NeForce.Multipart
