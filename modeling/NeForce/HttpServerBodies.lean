import NeForce.HttpServerRequests

/-! # Chunked bodies

`decode_chunked_body` follows the sizes of the chunks, so that it returns the data of a well-formed body whatever stands
behind the body (`decodeChunkedBody_text`). -/

namespace NeForce.HttpServer

open NeForce.Env (isSpace trim trimLeft trimRight Trimmed trim_eq_self trimLeft_cons)
open Search

/-! ### Sizes -/

theorem isSpace_of_lt {c : UInt8} (h : 0x20 < c) : isSpace c = false := by
  simp only [isSpace, UInt8.le_iff_toNat_le, UInt8.lt_iff_toNat_lt, UInt8.reduceToNat, Bool.or_eq_false_iff,
    Bool.and_eq_false_iff, decide_eq_false_iff_not, ← UInt8.toNat_inj] at h ⊢
  omega

theorem xdigit_isSpace {c : UInt8} (h : (xdigitValue c).isSome) : isSpace c = false := by
  apply isSpace_of_lt
  by_cases h1 : 0x30 ≤ c ∧ c ≤ 0x39
  · exact Nat.lt_of_lt_of_le (by decide) h1.1
  · by_cases h2 : 0x61 ≤ c ∧ c ≤ 0x66
    · exact Nat.lt_of_lt_of_le (by decide) h2.1
    · by_cases h3 : 0x41 ≤ c ∧ c ≤ 0x46
      · exact Nat.lt_of_lt_of_le (by decide) h3.1
      · simp [xdigitValue, h1, h2, h3] at h

theorem le_hexFold (digits : Bytes) (n : ℕ) : n ≤ digits.foldl (fun n c => 16 * n + (xdigitValue c).getD 0) n := by
  induction digits generalizing n with
  | nil => exact Nat.le_refl _
  | cons c digits ih =>
      have := ih (16 * n + (xdigitValue c).getD 0)
      rw [List.foldl_cons]
      omega

theorem hexDigits_blank {l : Bytes} (h : Blank l) (n : ℕ) : hexDigits l n = some n := by
  induction l with
  | nil => rfl
  | cons c l ih =>
      have hn : xdigitValue c = none := by
        rcases h c (by simp) with rfl | rfl <;> rfl
      rw [hexDigits, hn]
      simp only [h.isSpace c (by simp), if_true]
      exact ih fun c hc => h c (by simp [hc])

theorem hexDigits_eq {digits : Bytes} (h : ∀ c ∈ digits, (xdigitValue c).isSome) {l : Bytes} (hl : Blank l) {n : ℕ}
    (hlt : digits.foldl (fun n c => 16 * n + (xdigitValue c).getD 0) n < 2 ^ 63) :
    hexDigits (digits ++ l) n = some (digits.foldl (fun n c => 16 * n + (xdigitValue c).getD 0) n) := by
  induction digits generalizing n with
  | nil => exact hexDigits_blank hl n
  | cons c digits ih =>
      obtain ⟨d, hd⟩ := Option.isSome_iff_exists.mp (h c (by simp))
      rw [List.foldl_cons, hd, Option.getD_some] at hlt ⊢
      have := le_hexFold digits (16 * n + d)
      rw [List.cons_append, hexDigits, hd]
      simp only
      rw [if_neg (by omega)]
      exact ih (fun c hc => h c (by simp [hc])) hlt

/-- The digits alone decide; there is no sign and no prefix. -/
theorem hexadecimalParse_digits {digits l : Bytes} (hne : digits ≠ []) (h : ∀ c ∈ digits, (xdigitValue c).isSome)
    (hl : Blank l) : hexadecimalParse (digits ++ l) = match hexDigits (digits ++ l) 0 with
      | none => none
      | some result => if 2 ^ 63 - 1 < result then none else some (result : ℤ) := by
  obtain ⟨c, rest, rfl⟩ := List.exists_cons_of_ne_nil hne
  have hc := h c (by simp)
  have hstart : ((c :: rest) ++ l).dropWhile isSpace = (c :: rest) ++ l := by
    rw [List.cons_append, List.dropWhile_cons_of_neg (by simp [xdigit_isSpace hc])]
  have hsign : c ≠ 0x2D ∧ c ≠ 0x2B := ⟨by rintro rfl; revert hc; decide, by rintro rfl; revert hc; decide⟩
  have hpre : ∀ x : UInt8, x = 0x78 ∨ x = 0x58 → ¬ [0x30, x] <+: c :: (rest ++ l) := by
    rintro x hx ⟨t, ht⟩
    have hmem : x ∈ rest ++ l := by
      have := (List.cons.inj ht).2
      rw [← this]
      simp
    rcases List.mem_append.mp hmem with hm | hm
    · have := h x (by simp [hm])
      rcases hx with rfl | rfl <;> revert this <;> decide
    · rcases hl x hm with h0 | h0 <;> rcases hx with rfl | rfl <;> revert h0 <;> decide
  have hx : ¬ ([0x30, 0x78] <+: c :: (rest ++ l) ∨ [0x30, 0x58] <+: c :: (rest ++ l)) :=
    fun hp => hp.elim (hpre _ (.inl rfl)) (hpre _ (.inr rfl))
  rw [List.cons_append] at hstart ⊢
  rw [hexadecimalParse, hstart]
  simp only [List.cons_ne_nil, if_false, List.head?_cons, Option.some.injEq, hsign.1, hsign.2, or_self, hx]
  all_goals rfl

theorem hexadecimalParse_eq {digits l : Bytes} (hne : digits ≠ []) (h : ∀ c ∈ digits, (xdigitValue c).isSome)
    (hl : Blank l) (hlt : hexValue digits < 2 ^ 63) : hexadecimalParse (digits ++ l) = some (hexValue digits : ℤ) := by
  rw [hexadecimalParse_digits hne h hl, hexDigits_eq h hl (n := 0) hlt]
  change (if 2 ^ 63 - 1 < hexValue digits then _ else _) = _
  rw [if_neg (by omega)]
  rfl

/-! ### Size lines -/

/-- The size line as the loop sees it: the digits and then blanks. -/
theorem sizeText_eq {digits e : Bytes} (hne : digits ≠ []) (h : ∀ c ∈ digits, (xdigitValue c).isSome)
    (he : Extension e) : ∃ l, Blank l ∧ sizeText (digits ++ e) = digits ++ l := by
  obtain ⟨-, blank, rest, rfl, hb, hrest⟩ := he
  have hsemi : 0x3B ∉ digits := fun hm => by have := h _ hm; revert this; decide
  have hsemi' : 0x3B ∉ blank := fun hm => by rcases hb _ hm with h0 | h0 <;> revert h0 <;> decide
  have hdigits : Trimmed digits := .of_forall hne fun c hc => xdigit_isSpace (h c hc)
  obtain ⟨c, ds, rfl⟩ := List.exists_cons_of_ne_nil hne
  have hc : isSpace c = false := xdigit_isSpace (h c (by simp))
  rcases hrest with rfl | hrest
  · have htrim : trim (c :: ds ++ (blank ++ [])) = c :: ds := by
      rw [List.append_nil, trim, List.cons_append, trimLeft_cons hc, ← List.cons_append,
        trimRight_append_space hb.isSpace]
      have := trim_eq_self hdigits
      rwa [trim, trimLeft_cons hc] at this
    refine ⟨[], (by rintro _ ⟨⟩), ?_⟩
    rw [sizeText, htrim, firstAt_eq_none_of_not_mem hsemi, List.append_nil]
  · obtain ⟨t, rfl⟩ := List.head?_eq_some_iff.mp hrest
    have htrim : trim (c :: ds ++ (blank ++ 0x3B :: t)) = (c :: ds ++ blank) ++ 0x3B :: trimRight t := by
      rw [trim, List.cons_append, trimLeft_cons hc, ← List.cons_append, ← List.append_assoc,
        trimRight_append_cons _ _ (by decide)]
    have hfind := firstAt_singleton (fun hm => (List.mem_append.mp hm).elim hsemi hsemi') (trimRight t)
    refine ⟨blank, hb, ?_⟩
    rw [sizeText, htrim, hfind]
    exact List.take_left' rfl

theorem inline_digits {digits : Bytes} (h : ∀ c ∈ digits, (xdigitValue c).isSome) : Inline digits := by
  constructor <;> intro hm <;> have := h _ hm <;> revert this <;> decide

theorem find_crlf {line : Bytes} (h : Inline line) (pre s : Bytes) :
    find (pre ++ (line ++ (crlf ++ s))) crlf pre.length = some (pre.length + line.length) := by
  have h0 : firstAt crlf (crlf ++ s) = some 0 := firstAt_self
  have h1 := firstAt_of_not_mem (p := [0x0A]) (s := crlf ++ s) h.1
  rw [find, List.drop_left' rfl]
  exact congrArg (Option.map (pre.length + ·)) (h1.trans (congrArg (Option.map (line.length + ·)) h0))

/-! ### Decoding -/

/-- One round of the loop at a size line. -/
theorem decodeLoop_step {pre digits e s decoded : Bytes} {rounds : ℕ} (hne : digits ≠ [])
    (h : ∀ c ∈ digits, (xdigitValue c).isSome) (he : Extension e) (hlt : hexValue digits < 2 ^ 63) :
    decodeLoop (pre ++ (digits ++ e ++ (crlf ++ s))) (rounds + 1) pre.length decoded =
      if hexValue digits = 0 then .ok decoded
      else
        let pos := pre.length + (digits ++ e).length + 2
        let data := pre ++ (digits ++ e ++ (crlf ++ s))
        if data.length < (pos + hexValue digits + 2) % 2 ^ 64 then
          .error ⟨"Malformed chunked body: chunk exceeds data", 0⟩
        else decodeLoop data rounds ((pos + hexValue digits + 2) % 2 ^ 64) (decoded ++ s.take (hexValue digits)) := by
  have hfind := find_crlf ((inline_digits h).append he.1) pre s
  have hpos : ¬ (pre ++ (digits ++ e ++ (crlf ++ s))).length ≤ pre.length := by
    have := List.length_pos_iff.mpr hne
    simp only [List.length_append]
    omega
  have hline : ((pre ++ (digits ++ e ++ (crlf ++ s))).drop pre.length).take (pre.length + (digits ++ e).length - pre.length) =
      digits ++ e := by
    rw [List.drop_left' rfl, Nat.add_sub_cancel_left, List.take_left' rfl]
  obtain ⟨l, hl, hsize⟩ := sizeText_eq hne h he
  have hdrop : (pre ++ (digits ++ e ++ (crlf ++ s))).drop (pre.length + (digits ++ e).length + 2) = s := by
    rw [Nat.add_assoc, ← List.drop_drop, List.drop_left' rfl, ← List.drop_drop, List.drop_left' rfl]
    rfl
  have hval : ((hexValue digits : ℤ) % 2 ^ 64).toNat = hexValue digits := by omega
  rw [decodeLoop, if_neg hpos, hfind]
  simp only [hline]
  rw [hsize, hexadecimalParse_eq hne h hl hlt]
  simp only [hval, hdrop]

theorem hexValue_zeros {zeros : Bytes} (h : ∀ c ∈ zeros, c = 0x30) : hexValue zeros = 0 := by
  rw [hexValue]
  induction zeros with
  | nil => rfl
  | cons c zeros ih =>
      obtain rfl := h c (by simp)
      exact ih fun c hc => h c (by simp [hc])

theorem decodeLoop_chunks {chunks : List Chunk} (hk : ∀ k ∈ chunks, k.Valid) {zeros e : Bytes}
    (hz : zeros ≠ [] ∧ ∀ c ∈ zeros, c = 0x30) (he : Extension e) (pre s decoded : Bytes) {rounds : ℕ}
    (hr : chunks.length < rounds) (hlt : (pre ++ chunks.flatMap Chunk.text).length < 2 ^ 63) :
    decodeLoop (pre ++ (chunks.flatMap Chunk.text ++ (zeros ++ e ++ (crlf ++ s)))) rounds pre.length decoded =
      .ok (decoded ++ chunks.flatMap (·.data)) := by
  obtain ⟨rounds, rfl⟩ : ∃ n, rounds = n + 1 := ⟨rounds - 1, by omega⟩
  induction chunks generalizing pre decoded rounds with
  | nil =>
      have hx : ∀ c ∈ zeros, (xdigitValue c).isSome := fun c hc => by rw [hz.2 c hc]; rfl
      rw [List.flatMap_nil, List.nil_append, decodeLoop_step hz.1 hx he (by rw [hexValue_zeros hz.2]; decide),
        if_pos (hexValue_zeros hz.2), List.flatMap_nil, List.append_nil]
  | cons k chunks ih =>
      have hkv := hk k (by simp)
      have hdata := List.length_pos_iff.mpr hkv.data_ne
      have hlen : (pre ++ k.text).length = pre.length + (k.digits ++ k.extension).length + 2 + k.data.length + 2 := by
        simp only [Chunk.text, crlf, List.length_append, List.length_cons, List.length_nil]
        omega
      have htext : pre ++ ((k :: chunks).flatMap Chunk.text ++ (zeros ++ e ++ (crlf ++ s))) =
          pre ++ (k.digits ++ k.extension ++ (crlf ++ (k.data ++ (crlf ++
            (chunks.flatMap Chunk.text ++ (zeros ++ e ++ (crlf ++ s))))))) := by
        simp only [List.flatMap_cons, Chunk.text, List.append_assoc]
      have hshift : pre ++ ((k :: chunks).flatMap Chunk.text ++ (zeros ++ e ++ (crlf ++ s))) =
          (pre ++ k.text) ++ (chunks.flatMap Chunk.text ++ (zeros ++ e ++ (crlf ++ s))) := by
        simp only [List.flatMap_cons, List.append_assoc]
      have hsum : (pre ++ (k :: chunks).flatMap Chunk.text).length =
          (pre ++ k.text).length + (chunks.flatMap Chunk.text).length := by
        simp only [List.flatMap_cons, List.length_append]
        omega
      have hv := hkv.size
      have hround : chunks.length < rounds := by
        rw [List.length_cons] at hr
        omega
      obtain ⟨rounds, rfl⟩ : ∃ n, rounds = n + 1 := ⟨rounds - 1, by omega⟩
      rw [htext, decodeLoop_step hkv.digits_ne hkv.digits hkv.extension (by rw [hv]; omega), if_neg (by omega)]
      simp only [hv, ← htext]
      have hmod : (pre.length + (k.digits ++ k.extension).length + 2 + k.data.length + 2) % 2 ^ 64 =
          (pre ++ k.text).length := by
        rw [hlen]
        exact Nat.mod_eq_of_lt (by omega)
      rw [hmod, hshift, if_neg (by rw [List.length_append]; omega), List.take_left' rfl,
        ih (fun k hk' => hk k (by simp [hk'])) _ _ (by rw [List.length_append]; omega) _ hround, List.flatMap_cons,
        List.append_assoc]

/-- The decoder returns the data of a well-formed chunked body, whatever follows the body. -/
theorem decodeChunkedBody_text {r : Request} (h : r.BodyValid) {chunks : List Chunk} {zeros e : Bytes}
    {trailers : List Field} (hb : r.body = .chunked chunks zeros e trailers) (hlt : r.body.text.length < 2 ^ 63)
    (rest : Bytes) : decodeChunkedBody (r.body.text ++ rest) = .ok r.body.content := by
  rw [Request.BodyValid, hb] at h
  obtain ⟨-, -, hk, hz, he, -⟩ := h
  rw [hb] at hlt ⊢
  have htext : (Body.chunked chunks zeros e trailers).text ++ rest = [] ++ (chunks.flatMap Chunk.text ++
      (zeros ++ e ++ (crlf ++ (trailers.flatMap (·.line ++ crlf) ++ (crlf ++ rest))))) := by
    simp only [Body.text, List.append_assoc, List.nil_append]
  have hcount : chunks.length ≤ (chunks.flatMap Chunk.text).length := by
    clear hlt htext hb
    induction chunks with
    | nil => exact Nat.le_refl _
    | cons k chunks ih =>
        have := ih fun k hk' => hk k (by simp [hk'])
        have hpos := List.length_pos_iff.mpr (hk k (by simp)).digits_ne
        simp only [List.flatMap_cons, List.length_append, Chunk.text, List.length_cons] at this ⊢
        omega
  rw [decodeChunkedBody, htext]
  refine (decodeLoop_chunks hk hz he [] _ [] ?_ ?_).trans (by rfl)
  · simp only [List.nil_append, List.length_append]
    omega
  · simp only [Body.text, List.length_append] at hlt
    simp only [List.nil_append]
    omega

end NeForce.HttpServer
