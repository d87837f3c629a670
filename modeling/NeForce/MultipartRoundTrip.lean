import NeForce.MultipartDelimiters
import NeForce.MultipartLoop

/-! # Multipart round trips

The fields of a form come back from its body if and only if no value holds the delimiter and the headers are plain
(`roundTrip_iff`).  For the second direction, every part of a body is free of the delimiter, or begins with one; and a
part of a written body that begins with one has no name, or holds a line end and the delimiter in its data. -/

namespace NeForce.Multipart

open HttpServer (find crlf lower)
open Search (firstAt firstAt_eq_some)

variable {b : Boundary} {f : FormField} {fs : List FormField} {limits : Limits} {body part : Bytes} {n pos total : ℕ}

/-- A part that holds no delimiter ends at the one that is written behind it. -/
theorem FormField.Clear.apart (h : f.Clear b) : f.Apart b.text := by
  obtain ⟨-, hcr, hlf⟩ := b.not_mem
  have hnil : ¬ b.delim <:+: [] := Boundary.free_of_dashes (by decide)
  have hself : firstAt b.delim (b.delim ++ []) = some 0 := Search.firstAt_self
  rw [List.append_nil] at hself
  show firstAt b.delim (f.part ++ 0x0D :: ([] ++ 0x0A :: b.delim)) = _
  rw [Search.firstAt_piece hcr h.part, Search.firstAt_piece hlf hnil, hself]
  rfl

/-! ### Parts that begin with a delimiter -/

/-- The line of a delimiter leaves the name as it is. -/
theorem parsePartHeaders_delim {z : Bytes} (hz : 0x0D ∉ z) (n : ℕ) (rest : Bytes) :
    ∃ field : MultipartField, field.name = [] ∧
      parsePartHeaders (n + 1) ((b.delim ++ z) ++ (crlf ++ rest)) {} = parsePartHeaders n rest field := by
  have hline : Unbroken (b.delim ++ z) :=
    unbroken_of_not_mem fun h => (List.mem_append.mp h).elim b.not_mem.2.1 hz
  have hlen : (b.delim ++ z).length = (b.text.length + z.length + 1) + 1 := by
    simp only [List.length_append, delimiter, show dashes.length = 2 from rfl]
    omega
  have htake : ((b.delim ++ z) ++ (crlf ++ rest)).take (b.text.length + z.length + 1 + 1) = b.delim ++ z :=
    List.take_left' hlen
  have hrest : ((b.delim ++ z) ++ (crlf ++ rest)).drop (b.text.length + z.length + 1 + 3) = rest := by
    rw [← List.append_assoc]
    refine List.drop_left' ?_
    rw [List.length_append, hlen]
    rfl
  rw [parsePartHeaders, firstAt_crlf hline, hlen]
  dsimp only
  rw [htake, hrest]
  split
  · exact ⟨{}, rfl, rfl⟩
  · next colon _ =>
    refine ⟨_, ?_, rfl⟩
    -- The key is empty or begins with a dash.
    have hkey : ∀ name : Bytes, name.head? = some 0x63 → ((b.delim ++ z).take colon).map lower ≠ name := by
      rintro name hname rfl
      cases colon with
      | zero => cases hname
      | succ colon => exact absurd hname (by show some (lower 0x2D) ≠ some 0x63; decide)
    rw [MultipartField.addHeader, if_neg (hkey _ (by decide)), if_neg (hkey _ (by decide))]

theorem parsePart_render (hlines : ∀ f ∈ fs, f.Lines) :
    (parsePart (render b.text fs)).2.name = [] ∨ (crlf ++ b.delim) <:+: (parsePart (render b.text fs)).1 := by
  rw [parsePart]
  cases fs with
  | nil =>
      obtain ⟨n, hn⟩ : ∃ n, (render b.text []).length = n + 1 := ⟨_, rfl⟩
      obtain ⟨field, hname, heq⟩ := parsePartHeaders_delim (b := b) (z := dashes) (by decide) n []
      have hrender : render b.text [] = (b.delim ++ dashes) ++ (crlf ++ []) := by
        simp only [render, List.append_assoc, List.append_nil]
      have hnil : parsePartHeaders n [] field = ([], field) := by
        cases n <;> rfl
      left
      rw [hn, hrender, heq, hnil]
      exact hname
  | cons f fs =>
      obtain ⟨n, hn⟩ : ∃ n, (render b.text (f :: fs)).length = n + 4 := by
        refine ⟨(render b.text (f :: fs)).length - 4, ?_⟩
        have : 4 ≤ (render b.text (f :: fs)).length := by
          simp only [render, List.length_append, show crlf.length = 2 from rfl]
          omega
        omega
      obtain ⟨field, -, heq⟩ := parsePartHeaders_delim (b := b) (z := []) List.not_mem_nil (n + 3)
        (f.part ++ (crlf ++ render b.text fs))
      obtain ⟨tail, htail⟩ := render_eq b.text fs
      have hrender : render b.text (f :: fs) = (b.delim ++ []) ++ (crlf ++ (f.part ++ (crlf ++ render b.text fs))) := by
        rw [List.append_nil]
        rfl
      right
      rw [hn, hrender, heq, parsePartHeaders_part (hlines f (List.mem_cons_self ..)), htail]
      exact ⟨f.data, tail, by simp only [List.append_assoc]⟩

/-! ### The parts of a body -/

/-- A piece of a body that is free of the delimiter, or what is left of it behind a delimiter and a line end. -/
def Piece (b : Boundary) (body part : Bytes) : Prop :=
  b.Free part ∨ ∃ x y, part = b.delim ++ y ∧ body = (x ++ b.delim) ++ (crlf ++ part)

theorem piece_take {i k : ℕ} (h : firstAt b.delim (body.drop pos) = some i) (hk : k ≤ i) :
    Piece b body ((body.drop pos).take k) :=
  .inl (Search.not_infix_take (List.cons_ne_nil _ _) h hk)

/-- The part between two delimiters.  Its length is below zero only if they stand on two lines, one behind the other. -/
theorem piece_next {start stop i : ℕ} (hpos : b.delim <+: body.drop pos)
    (hstart : (if (body.drop (pos + b.delim.length)).take 2 = crlf then pos + b.delim.length + 2
      else pos + b.delim.length) = start)
    (hi : firstAt b.delim (body.drop start) = some i)
    (hend : (if 2 ≤ start + i ∧ (body.drop (start + i - 2)).take 2 = crlf then start + i - 2 else start + i) = stop) :
    Piece b body (if stop < start then body.drop start else (body.drop start).take (stop - start)) := by
  by_cases hlt : stop < start
  · rw [if_pos hlt]
    have hcond : 2 ≤ start + i ∧ (body.drop (start + i - 2)).take 2 = crlf := by
      by_contra h
      rw [if_neg h] at hend
      omega
    rw [if_pos hcond] at hend
    obtain ⟨-, hcr, -⟩ := b.not_mem
    obtain ⟨r, hr⟩ := hpos
    have hbehind (k : ℕ) : body.drop (pos + k) = (b.delim ++ r).drop k := by rw [hr, List.drop_drop]
    have hr' : body.drop (pos + b.delim.length) = r := by rw [hbehind, List.drop_left]
    by_cases hc : r.take 2 = crlf
    · -- The line end behind the delimiter is skipped, and the next delimiter follows.
      obtain ⟨y, rfl⟩ : ∃ y, r = crlf ++ y := ⟨r.drop 2, by rw [← hc, List.take_append_drop]⟩
      rw [hr', if_pos hc] at hstart
      obtain rfl | rfl : i = 0 ∨ i = 1 := by omega
      · have hy : body.drop start = y := by
          rw [← hstart, ← List.drop_drop, hr']
          exact List.drop_left' rfl
        rw [hy] at hi ⊢
        obtain ⟨z, hz⟩ := (firstAt_eq_some.mp hi).1
        refine .inr ⟨body.take pos, z, hz.symm, ?_⟩
        rw [List.append_assoc, hr, List.take_append_drop]
      · have hline : body.drop (start + 1 - 2) = 0x0A :: y := by
          rw [show start + 1 - 2 = pos + b.delim.length + 1 by omega, ← List.drop_drop, hr']
          rfl
        rw [hline] at hcond
        exact absurd (List.cons.inj hcond.2).1 (by decide)
    · -- The delimiter itself would end in a line end.
      exfalso
      rw [hr', if_neg hc] at hstart
      have hlen : b.delim.length = b.text.length + 2 := by
        rw [Boundary.delim, delimiter, List.length_append, show dashes.length = 2 from rfl, Nat.add_comm]
      obtain ⟨k, hk, hk'⟩ : ∃ k < b.delim.length, start + i - 2 = pos + k := ⟨start + i - 2 - pos, by omega, by omega⟩
      rw [hk', hbehind, List.drop_append_of_le_length hk.le, List.drop_eq_getElem_cons hk] at hcond
      exact hcr ((List.cons.inj hcond.2).1 ▸ List.getElem_mem hk)
  · rw [if_neg hlt]
    refine piece_take hi ?_
    rw [← hend]
    split <;> omega

theorem parseLoop_mem (hpos : b.delim <+: body.drop pos) {acc : List MultipartField} {g : MultipartField}
    (hg : g ∈ parseLoop limits body b.delim n pos total acc) :
    g ∈ acc ∨ ∃ part, Piece b body part ∧ g = { (parsePart part).2 with data := (parsePart part).1 } ∧
      (parsePart part).2.name ≠ [] := by
  induction n generalizing pos total acc with
  | zero => exact .inl hg
  | succ n ih =>
      rw [parseLoop] at hg
      dsimp only at hg
      split at hg
      · exact .inl hg
      · generalize hstart : (if (body.drop (pos + b.delim.length)).take 2 = crlf then pos + b.delim.length + 2
          else pos + b.delim.length) = start at hg
        split at hg
        · exact .inl hg
        · next next hnext =>
          obtain ⟨i, hi, rfl⟩ := Option.map_eq_some_iff.mp hnext
          have hnextpos : b.delim <+: body.drop (start + i) := by
            rw [← List.drop_drop]
            exact (firstAt_eq_some.mp hi).1
          generalize hend : (if 2 ≤ start + i ∧ (body.drop (start + i - 2)).take 2 = crlf then start + i - 2
            else start + i) = stop at hg
          have hpiece := piece_next hpos hstart hi hend
          generalize (if stop < start then body.drop start else (body.drop start).take (stop - start)) = part at hg hpiece
          split at hg
          · exact .inl hg
          · split at hg
            · cases hg
            · split at hg
              · cases hg
              · obtain hg | hg := ih hnextpos hg
                · split at hg
                  · exact .inl hg
                  · next hname =>
                    obtain hg | hg := List.mem_append.mp hg
                    · exact .inl hg
                    · exact .inr ⟨part, hpiece, List.mem_singleton.mp hg, hname⟩
                · exact .inr hg

/-! ### Round trips -/

/-- What the fields of a form are in the list that is returned. -/
theorem parse_mem (b : Boundary) {g : MultipartField} (hg : g ∈ parse limits (render b.text fs) b.text) :
    ∃ part, Piece b (render b.text fs) part ∧ g = { (parsePart part).2 with data := (parsePart part).1 } ∧
      (parsePart part).2.name ≠ [] := by
  obtain ⟨tail, htail⟩ := render_eq b.text fs
  rw [parse_render b.text_ne, List.nil_append] at hg
  obtain hg | hg := parseLoop_mem (by rw [htail]; exact List.prefix_append _ _) hg
  · exact absurd hg List.not_mem_nil
  · exact hg

/-- Fields that come back have no line end in their headers. -/
theorem RoundTrip.lines (h : RoundTrip limits b.text fs) (hf : f ∈ fs) : f.Lines := by
  have hmem : f.content ∈ (parse limits (render b.text fs) b.text).map MultipartField.content :=
    h ▸ List.mem_map_of_mem hf
  obtain ⟨g, hg, hcontent⟩ := List.mem_map.mp hmem
  obtain ⟨part, -, rfl, -⟩ := parse_mem b hg
  have hall := parsePart_unbroken part
  generalize parsePart part = r at hall hcontent
  exact lines_of_content (g := { r.2 with data := r.1 }) hall hcontent

/-- Fields that come back hold no delimiter. -/
theorem RoundTrip.clear (h : RoundTrip limits b.text fs) (hdata : ∀ f ∈ fs, ¬ (crlf ++ b.delim) <:+: f.data)
    (hf : f ∈ fs) : f.Clear b := by
  have hlines : ∀ f ∈ fs, f.Lines := fun f hf => h.lines hf
  have hmem : f.content ∈ (parse limits (render b.text fs) b.text).map MultipartField.content :=
    h ▸ List.mem_map_of_mem hf
  obtain ⟨g, hg, hcontent⟩ := List.mem_map.mp hmem
  obtain ⟨part, hpiece, rfl, hname⟩ := parse_mem b hg
  obtain ⟨e1, e2, e3, e4⟩ := Content.mk.inj hcontent
  dsimp only at e1 e2 e3 e4
  obtain hfree | ⟨x, y, rfl, hbody⟩ := hpiece
  · have hinfix {a c : Bytes} (hac : a <:+: c) (hc : b.Free c) : b.Free a := fun hd => hc (hd.trans hac)
    have hnil : b.Free [] := Boundary.free_of_dashes (by decide)
    have hall : (parsePart part).1 <:+ part ∧ (parsePart part).2.All b.Free :=
      parsePartHeaders_all hinfix
        (fun l eol hl _ => hinfix ((List.take_prefix eol l).isInfix.trans hl.isInfix) hfree) ⟨hnil, hnil, hnil⟩
    obtain ⟨h1, h2, h3, h4⟩ := hall
    refine ⟨e1 ▸ h2, fun x hx => ?_, fun t ht => ?_, e4 ▸ hinfix h1.isInfix hfree⟩
    · rw [hx, Option.getD_some] at e2
      exact e2 ▸ h3
    · rw [ht, Option.getD_some] at e3
      exact e3 ▸ h4
  · exfalso
    obtain ⟨gs, hgs, hy⟩ := render_of_delimiters hlines hdata hbody
    rw [hy] at hname e4
    obtain hnone | hholds := @parsePart_render b gs fun g hg => hlines g (hgs.subset hg)
    · exact hname hnone
    · exact hdata f hf (e4 ▸ hholds)

/-- **Multipart bodies round-trip exactly when** no name, filename, type or data holds the delimiter, and the headers are
plain. -/
theorem roundTrip_iff (limits : Limits) (b : Boundary) (fields : List FormField) (hw : Within limits fields)
    (hdata : ∀ f ∈ fields, ¬ (crlf ++ delimiter b.text) <:+: f.data) :
    RoundTrip limits b.text fields ↔ ∀ f ∈ fields, f.Clear b ∧ f.Plain := by
  have hn := length_lt_render b.text fields
  have hcount : ([] : List MultipartField).length + fields.length ≤ limits.maxFields := by
    rw [List.length_nil, Nat.zero_add]
    exact hw.count
  constructor
  · intro h f hf
    have hapart : ∀ f ∈ fields, f.Apart b.text := fun f hf => (h.clear hdata hf).apart
    refine ⟨h.clear hdata hf, (read_content_iff f).mp ?_⟩
    rw [RoundTrip, parse_render b.text_ne] at h
    obtain he | he := @parseLoop_apart limits b.text fields _ 0 [] [] hn hapart hcount
    · rw [he, List.map_nil] at h
      rw [List.map_eq_nil_iff.mp h.symm] at hf
      cases hf
    · -- No field is left out, so that each of them stands in its place.
      rw [he, List.nil_append] at h
      have hlen := congrArg List.length h
      rw [List.length_map, List.length_map] at hlen
      have hall : (fields.map FormField.read).filter (·.name ≠ []) = fields.map FormField.read := by
        refine List.Sublist.eq_of_length List.filter_sublist ?_
        rw [hlen, List.length_map]
      rw [hall, List.map_map] at h
      exact List.map_inj_left.mp h f hf
  · intro h
    have hread : ∀ f ∈ fields, f.Apart b.text ∧ f.read.content = f.content :=
      fun f hf => ⟨(h f hf).1.apart, (read_content_iff f).mpr (h f hf).2⟩
    have htotal : 0 + (fields.map (·.data.length)).sum ≤ limits.maxTotalSize := by
      rw [Nat.zero_add]
      exact hw.total
    rw [RoundTrip, parse_render b.text_ne, parseLoop_render [] [] hn hread hcount hw.size htotal, List.nil_append,
      List.map_map]
    exact List.map_congr_left fun f hf => (hread f hf).2

def sampleBoundary : Boundary := ⟨ascii "B", by decide +kernel, by decide +kernel⟩

/-- A field `a` with one byte, and a file `b` whose data ends in a line end and holds half a delimiter. -/
def sampleFields : List FormField :=
  [⟨ascii "a", none, false, none, [0x31], by decide +kernel, by decide +kernel, nofun⟩,
    ⟨ascii "b", some (ascii "c.txt"), false, some (ascii "text/plain"), ascii "--A\r\n", by decide +kernel,
      by decide +kernel, by rintro x ⟨⟩; decide +kernel⟩]

/-- The two fields come back. -/
theorem roundTrip_sample : Within {} sampleFields ∧ RoundTrip {} sampleBoundary.text sampleFields := by
  have hw : Within {} sampleFields := ⟨by decide +kernel, by decide +kernel, by decide +kernel⟩
  refine ⟨hw, (roundTrip_iff {} sampleBoundary sampleFields hw (by decide +kernel)).mpr ?_⟩
  rintro f (_ | ⟨_, _ | ⟨_, ⟨⟩⟩⟩)
  · refine ⟨⟨?_, nofun, nofun, ?_⟩, ⟨by decide +kernel, nofun, nofun, nofun⟩⟩ <;> show ¬ _ <:+: _ <;> decide +kernel
  · refine ⟨⟨?_, ?_, ?_, ?_⟩, ⟨by decide +kernel, ?_, ?_, ?_⟩⟩
    · show ¬ _ <:+: _
      decide +kernel
    · rintro x ⟨⟩
      show ¬ _ <:+: _
      decide +kernel
    · rintro x ⟨⟩
      show ¬ _ <:+: _
      decide +kernel
    · show ¬ _ <:+: _
      decide +kernel
    · rintro x ⟨⟩
      decide +kernel
    · rintro x ⟨⟩
      decide +kernel
    · rintro x ⟨⟩
      decide +kernel

/-- A file `f` in the field `a`, with the filename before the name. -/
def filenameFirst : FormField :=
  ⟨ascii "a", some (ascii "f"), true, none, ascii "x", by decide +kernel, by decide +kernel, by rintro x ⟨⟩; decide +kernel⟩

/-- The name is looked for inside `filename=`, and the field comes back under the name of the file. -/
theorem roundTrip_filenameFirst :
    (Within {} [filenameFirst] ∧ ¬ (crlf ++ delimiter sampleBoundary.text) <:+: filenameFirst.data) ∧
    (parse {} (render sampleBoundary.text [filenameFirst]) sampleBoundary.text).map MultipartField.content =
      [⟨ascii "f", ascii "f", [], ascii "x"⟩] ∧
    ¬ RoundTrip {} sampleBoundary.text [filenameFirst] := by
  have hparse : (parse {} (render sampleBoundary.text [filenameFirst]) sampleBoundary.text).map MultipartField.content =
      [⟨ascii "f", ascii "f", [], ascii "x"⟩] := by decide +kernel
  refine ⟨⟨⟨by decide +kernel, by decide +kernel, by decide +kernel⟩, by decide +kernel⟩, hparse, ?_⟩
  rw [RoundTrip, hparse]
  decide +kernel

end NeForce.Multipart
