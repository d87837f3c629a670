import NeForce.MultipartHeaders

/-! # The loop over the parts

A part whose delimiter is found where it is written is cut out as it was written (`parseLoop_cons`).  So plain fields all
come back (`parseLoop_render`), and from parts that are found, those fields that were read with a name
(`parseLoop_apart`). -/

namespace NeForce.Multipart

open HttpServer (find crlf lower)
open Search (firstAt firstAt_append firstAt_skip firstAt_eq_some)

variable {limits : Limits} {boundary body : Bytes} {f : FormField} {fs : List FormField} {n total : ℕ}

/-- The delimiter is found behind the part, and not before. -/
def FormField.Apart (boundary : Bytes) (f : FormField) : Prop :=
  firstAt (delimiter boundary) (f.part ++ (crlf ++ delimiter boundary)) = some (f.part.length + 2)

theorem render_eq (boundary : Bytes) (fs : List FormField) : ∃ tail, render boundary fs = delimiter boundary ++ tail := by
  cases fs with
  | nil => exact ⟨_, rfl⟩
  | cons f fs => exact ⟨_, rfl⟩

/-- The closing delimiter ends the loop. -/
theorem parseLoop_nil (before : Bytes) (acc : List MultipartField) :
    parseLoop limits (before ++ render boundary []) (delimiter boundary) (n + 1) before.length total acc = acc := by
  rw [parseLoop]
  dsimp only
  rw [if_pos]
  rw [render, ← List.drop_drop, List.drop_left, List.drop_left]
  rfl

/-- A part that is found is read, and its field is added if it has a name. -/
theorem parseLoop_cons (before : Bytes) (acc : List MultipartField) (hf : f.Apart boundary)
    (hcount : acc.length < limits.maxFields) :
    parseLoop limits (before ++ render boundary (f :: fs)) (delimiter boundary) (n + 1) before.length total acc =
      if f.read.data ≠ [] ∧ limits.maxFieldSize < f.read.data.length then []
      else if f.read.data ≠ [] ∧ limits.maxTotalSize < total + f.read.data.length then []
      else
        parseLoop limits ((before ++ (delimiter boundary ++ (crlf ++ (f.part ++ crlf)))) ++ render boundary fs)
          (delimiter boundary) n (before ++ (delimiter boundary ++ (crlf ++ (f.part ++ crlf)))).length
          (total + f.read.data.length) (if f.read.name = [] then acc else acc ++ [f.read]) := by
  obtain ⟨tail, htail⟩ := render_eq boundary fs
  have hbody : (before ++ (delimiter boundary ++ (crlf ++ (f.part ++ crlf)))) ++ render boundary fs =
      before ++ render boundary (f :: fs) := by
    rw [render]
    simp only [List.append_assoc]
  have hlen : (before ++ (delimiter boundary ++ (crlf ++ (f.part ++ crlf)))).length =
      before.length + (delimiter boundary).length + 2 + (f.part.length + 2) := by
    simp only [List.length_append, show crlf.length = 2 from rfl]
    omega
  rw [hbody, hlen]
  generalize hb : before ++ render boundary (f :: fs) = body
  have h1 : body.drop (before.length + (delimiter boundary).length) = crlf ++ (f.part ++ (crlf ++ render boundary fs)) := by
    rw [← hb, render, ← List.drop_drop, List.drop_left, List.drop_left]
  have h2 : body.drop (before.length + (delimiter boundary).length + 2) = f.part ++ (crlf ++ render boundary fs) := by
    rw [← List.drop_drop, h1]
    exact List.drop_left' rfl
  have h3 : body.drop (before.length + (delimiter boundary).length + 2 + f.part.length) = crlf ++ render boundary fs := by
    rw [← List.drop_drop, h2, List.drop_left]
  have hfind : find body (delimiter boundary) (before.length + (delimiter boundary).length + 2) =
      some (before.length + (delimiter boundary).length + 2 + (f.part.length + 2)) := by
    rw [find, h2, htail, ← List.append_assoc crlf, ← List.append_assoc, firstAt_append hf]
    rfl
  rw [parseLoop]
  generalize before.length + (delimiter boundary).length = pos at h1 h2 h3 hfind
  have hcrlf (l : Bytes) : (crlf ++ l).take 2 = crlf := List.take_left' rfl
  dsimp only
  rw [h1, hcrlf, if_neg (by decide), if_pos rfl, hfind]
  dsimp only
  have hend : (if 2 ≤ pos + 2 + (f.part.length + 2) ∧ crlf = crlf then pos + 2 + f.part.length
      else pos + 2 + (f.part.length + 2)) = pos + 2 + f.part.length := if_pos ⟨by omega, rfl⟩
  have hle : ¬ pos + 2 + f.part.length < pos + 2 := by omega
  rw [show pos + 2 + (f.part.length + 2) - 2 = pos + 2 + f.part.length by omega, h3, hcrlf, hend, if_neg hle, h2,
    Nat.add_sub_cancel_left, List.take_left, if_neg (by omega)]
  rfl

/-- Plain parts are all read. -/
theorem parseLoop_render (before : Bytes) (acc : List MultipartField) (hn : fs.length < n)
    (hf : ∀ f ∈ fs, f.Apart boundary ∧ f.read.content = f.content) (hcount : acc.length + fs.length ≤ limits.maxFields)
    (hsize : ∀ f ∈ fs, f.data.length ≤ limits.maxFieldSize)
    (htotal : total + (fs.map (·.data.length)).sum ≤ limits.maxTotalSize) :
    parseLoop limits (before ++ render boundary fs) (delimiter boundary) n before.length total acc =
      acc ++ fs.map FormField.read := by
  induction fs generalizing n before total acc with
  | nil =>
      obtain ⟨n, rfl⟩ : ∃ m, n = m + 1 := ⟨n - 1, by simp at hn; omega⟩
      rw [parseLoop_nil, List.map_nil, List.append_nil]
  | cons f fs ih =>
      obtain ⟨n, rfl⟩ : ∃ m, n = m + 1 := ⟨n - 1, by simp at hn; omega⟩
      obtain ⟨hapart, hcontent⟩ := hf f (List.mem_cons_self ..)
      have hname : f.read.name = f.name := congrArg Content.name hcontent
      have hdata : f.read.data = f.data := congrArg Content.data hcontent
      have hone := hsize f (List.mem_cons_self ..)
      rw [List.length_cons] at hn hcount
      rw [List.map_cons, List.sum_cons] at htotal
      rw [parseLoop_cons before acc hapart (by omega), hname, hdata, if_neg (fun h => Nat.not_lt.mpr hone h.2),
        if_neg (fun h => by omega), if_neg f.name_ne, ih _ _ (by omega) (fun g hg => hf g (List.mem_cons_of_mem _ hg))
          (by rw [List.length_append, List.length_singleton]; omega) (fun g hg => hsize g (List.mem_cons_of_mem _ hg))
          (by omega), List.append_assoc]
      rfl

/-- Parts that are found give their fields with a name, or there is too much of them. -/
theorem parseLoop_apart (before : Bytes) (acc : List MultipartField) (hn : fs.length < n)
    (hf : ∀ f ∈ fs, f.Apart boundary) (hcount : acc.length + fs.length ≤ limits.maxFields) :
    parseLoop limits (before ++ render boundary fs) (delimiter boundary) n before.length total acc = [] ∨
      parseLoop limits (before ++ render boundary fs) (delimiter boundary) n before.length total acc =
        acc ++ (fs.map FormField.read).filter (·.name ≠ []) := by
  induction fs generalizing n before total acc with
  | nil =>
      obtain ⟨n, rfl⟩ : ∃ m, n = m + 1 := ⟨n - 1, by simp at hn; omega⟩
      right
      rw [parseLoop_nil, List.map_nil, List.filter_nil, List.append_nil]
  | cons f fs ih =>
      obtain ⟨n, rfl⟩ : ∃ m, n = m + 1 := ⟨n - 1, by simp at hn; omega⟩
      rw [List.length_cons] at hn hcount
      rw [parseLoop_cons before acc (hf f (List.mem_cons_self ..)) (by omega), List.map_cons, List.filter_cons]
      have hrest : ∀ g ∈ fs, g.Apart boundary := fun g hg => hf g (List.mem_cons_of_mem _ hg)
      split
      · exact .inl rfl
      · split
        · exact .inl rfl
        · by_cases hname : f.read.name = []
          · rw [if_pos hname, if_neg (by simp [hname])]
            exact ih _ acc (by omega) hrest (by omega)
          · rw [if_neg hname, if_pos (by simp [hname])]
            have h := @ih n (total + f.read.data.length)
              (before ++ (delimiter boundary ++ (crlf ++ (f.part ++ crlf)))) (acc ++ [f.read]) (by omega) hrest
              (by rw [List.length_append, List.length_singleton]; omega)
            simpa only [List.append_assoc, List.singleton_append] using h

theorem parse_render (hb : boundary ≠ []) (limits : Limits) (fs : List FormField) :
    parse limits (render boundary fs) boundary =
      parseLoop limits ([] ++ render boundary fs) (delimiter boundary) (render boundary fs).length ([] : Bytes).length 0 [] := by
  obtain ⟨tail, htail⟩ := render_eq boundary fs
  have hne : render boundary fs ≠ [] := by
    rw [htail]
    exact List.cons_ne_nil _ _
  have hfirst : firstAt (dashes ++ boundary) (render boundary fs) = some 0 := by
    rw [htail]
    exact Search.firstAt_self
  rw [parse, if_neg (by simp [hne, hb])]
  dsimp only
  rw [hfirst]
  rfl

theorem length_lt_render (boundary : Bytes) (fs : List FormField) : fs.length < (render boundary fs).length := by
  induction fs with
  | nil =>
      simp only [render, List.length_append, show crlf.length = 2 from rfl, List.length_nil]
      omega
  | cons f fs ih =>
      simp only [render, List.length_append, show crlf.length = 2 from rfl, List.length_cons]
      omega

/-- The fields come back. -/
def RoundTrip (limits : Limits) (boundary : Bytes) (fields : List FormField) : Prop :=
  (parse limits (render boundary fields) boundary).map MultipartField.content = fields.map FormField.content

end NeForce.Multipart
