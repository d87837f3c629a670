import Mathlib.Data.List.Induction
import NeForce.EnvValues
import NeForce.HttpServer

/-! # Well-formed HTTP/1 requests and their heads

A request has a request line, header fields and a body, which is absent, of the length that `Content-Length` gives, or
in chunks with extensions and trailers. `Request.text` writes it as a client sends it. The first empty line of a text
that begins with a head ends the head (`Request.Valid.firstAt_head`), and `parse` reads a head back (`Request.Valid.parse_head`). -/

namespace NeForce.HttpServer

open NeForce.Env (isSpace trim trimLeft trimRight Trimmed trim_eq_self trimLeft_cons trimRight_concat)
open Search

/-! ### Requests -/

def Word (w : Bytes) : Prop := w ≠ [] ∧ ∀ c ∈ w, isSpace c = false

def Blank (l : Bytes) : Prop := ∀ c ∈ l, c = 0x20 ∨ c = 0x09

instance {w : Bytes} : Decidable (Word w) := @instDecidableAnd _ _ _ (w.decidableBAll _)

instance {l : Bytes} : Decidable (Blank l) := l.decidableBAll _

/-- A text within one line. -/
def Inline (l : Bytes) : Prop := 0x0D ∉ l ∧ 0x0A ∉ l

instance {l : Bytes} : Decidable (Inline l) := inferInstanceAs (Decidable (_ ∧ _))

/-- A header field with the blanks around its value. -/
structure Field where
  name : Bytes
  before : Bytes
  value : Bytes
  after : Bytes

structure Field.Valid (f : Field) : Prop where
  name : Word f.name
  name_colon : 0x3A ∉ f.name
  before : Blank f.before
  value : Inline f.value
  value_trimmed : f.value = [] ∨ Trimmed f.value
  after : Blank f.after

def Field.line (f : Field) : Bytes := f.name ++ 0x3A :: (f.before ++ f.value ++ f.after)

def Field.Is (f : Field) (name : String) : Prop := asciiIequal f.name (ascii name)

instance (f : Field) (name : String) : Decidable (f.Is name) := inferInstanceAs (Decidable (_ = true))

/-- One chunk: the digits of its size, the extensions, and the data. -/
structure Chunk where
  digits : Bytes
  extension : Bytes
  data : Bytes

def hexValue (digits : Bytes) : ℕ := digits.foldl (fun n c => 16 * n + (xdigitValue c).getD 0) 0

/-- Nothing, or blanks and then something behind a semicolon. -/
def Extension (e : Bytes) : Prop :=
  Inline e ∧ ∃ blank rest, e = blank ++ rest ∧ Blank blank ∧ (rest = [] ∨ rest.head? = some 0x3B)

structure Chunk.Valid (k : Chunk) : Prop where
  digits_ne : k.digits ≠ []
  digits : ∀ c ∈ k.digits, (xdigitValue c).isSome
  size : hexValue k.digits = k.data.length
  extension : Extension k.extension
  data_ne : k.data ≠ []

def Chunk.text (k : Chunk) : Bytes := k.digits ++ k.extension ++ crlf ++ k.data ++ crlf

inductive Body
  | absent
  | length (digits content : Bytes)
  | chunked (chunks : List Chunk) (zeros extension : Bytes) (trailers : List Field)

def Body.content : Body → Bytes
  | .absent => []
  | .length _ content => content
  | .chunked chunks _ _ _ => chunks.flatMap (·.data)

def Body.text : Body → Bytes
  | .absent => []
  | .length _ content => content
  | .chunked chunks zeros extension trailers =>
    chunks.flatMap Chunk.text ++ (zeros ++ extension ++ crlf ++ (trailers.flatMap (·.line ++ crlf) ++ crlf))

structure Request where
  method : Bytes
  target : Bytes
  version : Bytes
  fields : List Field
  body : Body

namespace Request

def requestLine (r : Request) : Bytes := r.method ++ 0x20 :: (r.target ++ 0x20 :: r.version)

def lines (r : Request) : List Bytes := r.requestLine :: r.fields.map Field.line

def head (r : Request) : Bytes := r.lines.flatMap (· ++ crlf) ++ crlf

def text (r : Request) : Bytes := r.head ++ r.body.text

/-- The header fields tell the body. -/
def BodyValid (r : Request) : Prop :=
  match r.body with
  | .absent => ∀ f ∈ r.fields, ¬ f.Is "Content-Length" ∧ ¬ f.Is "Transfer-Encoding"
  | .length digits content =>
    (∃ f ∈ r.fields, f.Is "Content-Length") ∧ (∀ f ∈ r.fields, f.Is "Content-Length" → f.value = digits) ∧
      (∀ f ∈ r.fields, ¬ f.Is "Transfer-Encoding") ∧
      digits ≠ [] ∧ (∀ c ∈ digits, isDigit c) ∧ decimalValue digits = content.length
  | .chunked chunks zeros extension trailers =>
    (∀ f ∈ r.fields, ¬ f.Is "Content-Length") ∧
      (∃ f ∈ r.fields, f.Is "Transfer-Encoding" ∧ asciiIcontains f.value (ascii "chunked")) ∧
      (∀ k ∈ chunks, k.Valid) ∧ (zeros ≠ [] ∧ ∀ c ∈ zeros, c = 0x30) ∧ Extension extension ∧
      ∀ f ∈ trailers, f.Valid

structure Valid (r : Request) : Prop where
  method : Word r.method
  target : Word r.target
  version : r.version = ascii "HTTP/1.1" ∨ r.version = ascii "HTTP/1.0"
  fields : ∀ f ∈ r.fields, f.Valid
  expect : ∀ f ∈ r.fields, f.Is "Expect" → asciiIequal f.value (ascii "100-continue")
  body : r.BodyValid

/-- The size limits; no string has `2 ^ 63` bytes or more. -/
structure Within (cfg : Config) (r : Request) : Prop where
  head : r.head.length ≤ cfg.maxHeaderSize
  count : cfg.maxHeaderCount = 0 ∨ r.fields.length ≤ cfg.maxHeaderCount
  content : r.body.content.length ≤ cfg.maxBodySize
  text : r.text.length < 2 ^ 63

/-- The table of the header fields, which keeps the last one of a name. -/
def headers (r : Request) : Params := r.fields.foldl (fun headers f => setParam headers f.name f.value) []

/-- The head as the server represents it. -/
def received (r : Request) : HttpRequest where
  method := r.method
  path := decodeTolerant (r.target.takeWhile (· ≠ 0x3F))
  query := (r.target.dropWhile (· ≠ 0x3F)).drop 1
  version := r.version
  headers := r.headers
  cookies := parseCookies (header r.headers (ascii "Cookie")) []

/-- The request as the server should return it. -/
def returned (r : Request) : HttpRequest := parseParameters { r.received with body := r.body.content }

end Request

/-! ### Blanks and lines -/

theorem isSpace_ne {c : UInt8} (h : isSpace c = false) : c ≠ 0x0D ∧ c ≠ 0x0A ∧ c ≠ 0x20 := by
  refine ⟨?_, ?_, ?_⟩ <;> (rintro rfl; revert h; decide)

theorem Blank.isSpace {l : Bytes} (h : Blank l) : ∀ c ∈ l, isSpace c = true := by
  intro c hc
  rcases h c hc with rfl | rfl <;> decide

theorem Blank.inline {l : Bytes} (h : Blank l) : Inline l := by
  constructor <;> intro hc <;> rcases h _ hc with h0 | h0 <;> revert h0 <;> decide

theorem Word.trimmed {w : Bytes} (h : Word w) : Trimmed w := .of_forall h.1 h.2

theorem Word.inline {w : Bytes} (h : Word w) : Inline w :=
  ⟨fun hc => (isSpace_ne (h.2 _ hc)).1 rfl, fun hc => (isSpace_ne (h.2 _ hc)).2.1 rfl⟩

theorem Inline.append {a b : Bytes} (ha : Inline a) (hb : Inline b) : Inline (a ++ b) :=
  ⟨fun h => (List.mem_append.mp h).elim ha.1 hb.1, fun h => (List.mem_append.mp h).elim ha.2 hb.2⟩

theorem Inline.cons {c : UInt8} {l : Bytes} (h : Inline l) (hr : c ≠ 0x0D) (hn : c ≠ 0x0A) : Inline (c :: l) :=
  ⟨fun hc => (List.mem_cons.mp hc).elim (fun e => hr e.symm) h.1,
    fun hc => (List.mem_cons.mp hc).elim (fun e => hn e.symm) h.2⟩

theorem trimRight_concat_space {c : UInt8} (l : Bytes) (hc : isSpace c = true) : trimRight (l ++ [c]) = trimRight l := by
  rw [trimRight, List.reverse_concat, List.dropWhile_cons_of_pos hc, trimRight]

theorem trimRight_append_space {l s : Bytes} (hs : ∀ c ∈ s, isSpace c = true) : trimRight (l ++ s) = trimRight l := by
  induction s using List.reverseRecOn with
  | nil => rw [List.append_nil]
  | append_singleton s c ih =>
      rw [← List.append_assoc, trimRight_concat_space _ (hs c (by simp))]
      exact ih fun c hc => hs c (by simp [hc])

theorem trimLeft_append_space {l s : Bytes} (hs : ∀ c ∈ s, isSpace c = true) : trimLeft (s ++ l) = trimLeft l := by
  induction s with
  | nil => rfl
  | cons c s ih =>
      rw [List.cons_append, trimLeft, List.dropWhile_cons_of_pos (hs c (by simp))]
      exact ih fun c hc => hs c (by simp [hc])

theorem trimRight_append_cons {c : UInt8} (l s : Bytes) (hc : isSpace c = false) :
    trimRight (l ++ c :: s) = l ++ c :: trimRight s := by
  induction s using List.reverseRecOn with
  | nil => exact trimRight_concat hc
  | append_singleton s d ih =>
      rw [← List.cons_append, ← List.append_assoc]
      by_cases hd : isSpace d = true
      · rw [trimRight_concat_space _ hd, trimRight_concat_space _ hd, ih]
      · rw [Bool.not_eq_true] at hd
        rw [trimRight_concat hd, trimRight_concat hd, List.append_assoc, List.cons_append]

theorem trim_pad {a l b : Bytes} (ha : Blank a) (hb : Blank b) (hl : l = [] ∨ Trimmed l) :
    trim (trimRight (a ++ l ++ b)) = l := by
  rw [trimRight_append_space hb.isSpace]
  rcases hl with rfl | hl
  · rw [List.append_nil, ← List.nil_append a, trimRight_append_space ha.isSpace]
    rfl
  · have hr : trimRight (a ++ l) = a ++ l := by
      obtain ⟨-, -, -, d, hd, hs⟩ := hl
      obtain ⟨t, rfl⟩ := List.getLast?_eq_some_iff.mp hd
      rw [← List.append_assoc, trimRight_concat hs]
    rw [hr, trim, trimLeft_append_space ha.isSpace]
    exact trim_eq_self hl

/-- The line that `getline` cuts out ends with a carriage return. -/
theorem trim_cr {l : Bytes} (hl : Trimmed l) : trim (l ++ [0x0D]) = l := by
  have h := hl
  obtain ⟨c, hc, hs, -⟩ := h
  obtain ⟨t, rfl⟩ := List.head?_eq_some_iff.mp hc
  rw [trim, List.cons_append, trimLeft_cons hs, ← List.cons_append, trimRight_concat_space _ (by decide)]
  have := trim_eq_self hl
  rwa [trim, trimLeft_cons hs] at this

theorem lines_cons {l : Bytes} (h : 0x0A ∉ l) (t : Bytes) : Env.lines (l ++ 0x0A :: t) = l :: Env.lines t := by
  induction l with
  | nil => rfl
  | cons c l ih =>
      rw [List.cons_append, Env.lines, if_neg (fun e => h (by simp [e])), ih fun hm => h (by simp [hm])]

theorem lines_flatMap_crlf {ls : List Bytes} (h : ∀ l ∈ ls, Inline l) (t : Bytes) :
    Env.lines (ls.flatMap (· ++ crlf) ++ t) = ls.map (· ++ [0x0D]) ++ Env.lines t := by
  induction ls with
  | nil => rfl
  | cons l ls ih =>
      have hl : 0x0A ∉ l ++ [0x0D] := by simpa using (h l (by simp)).2
      have e : List.flatMap (· ++ crlf) (l :: ls) ++ t = (l ++ [0x0D]) ++ 0x0A :: (ls.flatMap (· ++ crlf) ++ t) := by
        simp [crlf]
      rw [e, lines_cons hl, ih fun l hl => h l (by simp [hl]), List.map_cons, List.cons_append]

theorem firstAt_inline {l : Bytes} (h : 0x0D ∉ l) (p s : Bytes) :
    firstAt (crlf ++ p) (l ++ s) = (firstAt (crlf ++ p) s).map (l.length + ·) :=
  firstAt_of_not_mem h

/-- The first empty line behind lines that are not empty. -/
theorem firstAt_lines {l : Bytes} {ls : List Bytes} (h : ∀ m ∈ l :: ls, m ≠ [] ∧ Inline m) (t : Bytes) :
    firstAt (crlf ++ crlf) ((l :: ls).flatMap (· ++ crlf) ++ crlf ++ t) =
      some (((l :: ls).flatMap (· ++ crlf)).length - 2) := by
  induction ls generalizing l with
  | nil =>
      have e : List.flatMap (· ++ crlf) [l] ++ crlf ++ t = l ++ (crlf ++ crlf ++ t) := by simp
      rw [e, firstAt_inline (h l (by simp)).2.1, firstAt_self]
      simp [crlf]
  | cons m ls ih =>
      have ih := ih (l := m) fun k hk => h k (List.mem_cons_of_mem _ hk)
      obtain ⟨hm, hmi⟩ := h m (by simp)
      obtain ⟨c, m, rfl⟩ := List.exists_cons_of_ne_nil hm
      have e : List.flatMap (· ++ crlf) (l :: (c :: m) :: ls) ++ crlf ++ t =
          l ++ (crlf ++ ((((c :: m) :: ls).flatMap (· ++ crlf)) ++ crlf ++ t)) := by simp
      have hskip : firstAt (crlf ++ crlf) (crlf ++ ((((c :: m) :: ls).flatMap (· ++ crlf)) ++ crlf ++ t)) =
          some ((((c :: m) :: ls).flatMap (· ++ crlf)).length - 2 + 2) := by
        rw [firstAt_skip, ih]
        · simp [crlf, Nat.add_comm]
        · have hc : c ≠ 0x0D := fun e => hmi.1 (by simp [e])
          intro j hj
          have : j = 0 ∨ j = 1 := by simp [crlf] at hj; omega
          rcases this with rfl | rfl <;> simp [crlf, List.cons_prefix_cons, hc.symm]
      have hlen : ((l :: (c :: m) :: ls).flatMap (· ++ crlf)).length =
          l.length + 2 + (((c :: m) :: ls).flatMap (· ++ crlf)).length := by
        rw [List.flatMap_cons, List.length_append, List.length_append]
        rfl
      have hpos : 2 ≤ (((c :: m) :: ls).flatMap (· ++ crlf)).length := by
        rw [List.flatMap_cons, List.length_append, List.length_append]
        simp only [crlf, List.length_cons, List.length_nil]
        omega
      rw [e, firstAt_inline (h l (by simp)).2.1, hskip, hlen, Option.map_some]
      exact congrArg some (by omega)

/-! ### Parsing a head -/

variable {r : Request}

theorem firstAt_singleton {c : UInt8} {a : Bytes} (h : c ∉ a) (b : Bytes) : firstAt [c] (a ++ c :: b) = some a.length := by
  have h0 : firstAt [c] (c :: b) = some 0 := firstAt_self (t := b)
  rw [firstAt_of_not_mem h, h0]
  rfl

theorem drop_append_cons (a : Bytes) (c : UInt8) (b : Bytes) : (a ++ c :: b).drop (a.length + 1) = b := by
  rw [List.drop_append, List.drop_eq_nil_of_le (by omega), List.nil_append, Nat.add_sub_cancel_left, List.drop_one,
    List.tail_cons]

theorem Field.Valid.inline {f : Field} (h : f.Valid) : Inline f.line :=
  h.name.inline.append (((h.before.inline.append h.value).append h.after.inline).cons (by decide) (by decide))

theorem Field.Valid.line_ne {f : Field} : f.line ≠ [] := by simp [Field.line]

theorem Request.Valid.lines (h : r.Valid) : ∀ l ∈ r.lines, l ≠ [] ∧ Inline l := by
  intro l hl
  rcases List.mem_cons.mp hl with rfl | hl
  · refine ⟨by simp [requestLine], h.method.inline.append (.cons (h.target.inline.append (.cons ?_ (by decide) (by decide)))
      (by decide) (by decide))⟩
    rcases h.version with e | e <;> rw [e] <;> decide
  · obtain ⟨f, hf, rfl⟩ := List.mem_map.mp hl
    exact ⟨Field.Valid.line_ne, (h.fields f hf).inline⟩

theorem Request.Valid.firstAt_head (h : r.Valid) (t : Bytes) :
    firstAt (crlf ++ crlf) (r.head ++ t) = some (r.head.length - 4) := by
  rw [head, Request.lines, firstAt_lines h.lines t, List.length_append]
  rfl

theorem Request.four_le_head (r : Request) : 4 ≤ r.head.length := by
  simp [Request.head, Request.lines, crlf]
  omega

theorem Word.trimmed_append {v w : Bytes} (hv : Word v) (hw : Word w) (l : Bytes) : Trimmed (v ++ l ++ w) := by
  obtain ⟨c, v, rfl⟩ := List.exists_cons_of_ne_nil hv.1
  obtain ⟨w, d, rfl⟩ := List.eq_nil_or_concat w |>.resolve_left hw.1
  refine ⟨c, by simp, hv.2 c (by simp), d, ?_, hw.2 d (by simp)⟩
  rw [List.concat_eq_append, ← List.append_assoc, List.getLast?_concat]
  rfl

theorem Request.Valid.parseRequestLine (h : r.Valid) : parseRequestLine (r.requestLine ++ [0x0D]) =
    .ok { method := r.method, path := r.target, version := r.version } := by
  have hversion : Word r.version := by
    rcases h.version with e | e <;> rw [e] <;> decide
  have htrim : trim (r.requestLine ++ [0x0D]) = r.requestLine := by
    have := h.method.trimmed_append hversion (0x20 :: (r.target ++ [0x20]))
    refine trim_cr ?_
    rw [requestLine]
    simpa using this
  have hm : 0x20 ∉ r.method := fun hc => (isSpace_ne (h.method.2 _ hc)).2.2 rfl
  have ht : 0x20 ∉ r.target := fun hc => (isSpace_ne (h.target.2 _ hc)).2.2 rfl
  have h1 : firstAt [0x20] r.requestLine = some r.method.length := firstAt_singleton hm _
  have h2 : find r.requestLine [0x20] (r.method.length + 1) = some (r.method.length + 1 + r.target.length) := by
    rw [find, requestLine, drop_append_cons, firstAt_singleton ht]
    rfl
  simp only [HttpServer.parseRequestLine, htrim, h1, h2]
  have h3 : r.method.length + 1 + r.target.length - r.method.length - 1 = r.target.length := by omega
  have h4 : r.requestLine.drop (r.method.length + 1) = r.target ++ 0x20 :: r.version := drop_append_cons ..
  have h5 : r.requestLine.drop (r.method.length + 1 + r.target.length + 1) = r.version := by
    rw [Nat.add_assoc, ← List.drop_drop, h4, drop_append_cons]
  rw [h3, h4, h5, List.take_left' rfl, requestLine, List.take_left' rfl]

theorem Field.Valid.parseHeaders {f : Field} (h : f.Valid) (lines : List Bytes) (headers : Params) :
    parseHeaders ((f.line ++ [0x0D]) :: lines) headers = parseHeaders lines (setParam headers f.name f.value) := by
  obtain ⟨c, name, hname⟩ := List.exists_cons_of_ne_nil h.name.1
  have hc : isSpace c = false := h.name.2 c (by simp [hname])
  have htrim : trim (f.line ++ [0x0D]) = f.name ++ 0x3A :: trimRight (f.before ++ f.value ++ f.after) := by
    rw [trim, Field.line, hname, List.cons_append, List.cons_append, trimLeft_cons hc, ← List.cons_append,
      trimRight_concat_space _ (by decide), ← List.cons_append, trimRight_append_cons _ _ (by decide)]
  have hname' : trim f.name = f.name := trim_eq_self h.name.trimmed
  have hfind := firstAt_singleton h.name_colon (trimRight (f.before ++ f.value ++ f.after))
  rw [HttpServer.parseHeaders, htrim]
  simp only [hfind]
  rw [if_neg (by simp), List.take_left' rfl, hname', drop_append_cons, trim_pad h.before h.after h.value_trimmed]

theorem parseHeaders_fields {fields : List Field} (h : ∀ f ∈ fields, f.Valid) (headers : Params) :
    parseHeaders (fields.map (·.line ++ [0x0D]) ++ [[0x0D]]) headers =
      fields.foldl (fun headers f => setParam headers f.name f.value) headers := by
  induction fields generalizing headers with
  | nil => rfl
  | cons f fields ih =>
      rw [List.map_cons, List.cons_append, (h f (by simp)).parseHeaders, ih fun f hf => h f (by simp [hf])]
      rfl

theorem split_query (target : Bytes) : (match firstAt [0x3F] target with
    | none => (target, [])
    | some p => (target.take p, target.drop (p + 1))) =
      (target.takeWhile (· ≠ 0x3F), (target.dropWhile (· ≠ 0x3F)).drop 1) := by
  by_cases hm : 0x3F ∈ target
  · obtain ⟨a, b, rfl, ha⟩ := List.eq_append_cons_of_mem hm
    have hne : ∀ c ∈ a, decide (c ≠ 0x3F) = true := fun c hc => decide_eq_true (ne_of_mem_of_not_mem hc ha)
    rw [firstAt_singleton ha, List.takeWhile_append_of_pos hne, List.dropWhile_append_of_pos hne]
    simp [List.drop_append]
  · have hne : ∀ c ∈ target, decide (c ≠ 0x3F) = true := fun c hc => decide_eq_true (ne_of_mem_of_not_mem hc hm)
    have hw : (target ++ []).takeWhile (· ≠ 0x3F) = _ := List.takeWhile_append_of_pos hne
    have hd : (target ++ []).dropWhile (· ≠ 0x3F) = _ := List.dropWhile_append_of_pos hne
    rw [List.append_nil] at hw hd
    rw [firstAt_eq_none_of_not_mem hm, hw, hd]
    simp

/-- The checks of `parse` on a head: a field named `Host`, spelled so, where the version needs one. -/
def Request.HostFound (r : Request) : Prop :=
  r.version = ascii "HTTP/1.1" → header r.headers (ascii "Host") ≠ []

theorem parseRest_head (h : r.Valid) (hhost : r.HostFound) :
    parseRest r.head (r.fields.map (·.line ++ [0x0D]) ++ [[0x0D]])
      { method := r.method, path := r.target, version := r.version } = .ok r.received := by
  have hbody := h.firstAt_head []
  rw [List.append_nil] at hbody
  have h4 := r.four_le_head
  have hdrop : r.head.drop (r.head.length - 4 + 4) = [] := List.drop_eq_nil_of_le (by omega)
  have hsplit := split_query r.target
  have hheaders := parseHeaders_fields h.fields []
  have hguard : ¬ (((ascii "HTTP/1.1").isPrefixOf r.version = true ∨ (ascii "HTTP/2").isPrefixOf r.version = true) ∧
      header r.headers (ascii "Host") = []) := by
    rintro ⟨hv, hnone⟩
    rcases h.version with e | e
    · exact hhost e hnone
    · rw [e] at hv
      revert hv
      decide
  unfold parseRest
  cases hq : firstAt [0x3F] r.target with
  | none =>
      rw [hq] at hsplit
      simp only [Prod.mk.injEq] at hsplit
      simp only [hheaders, hbody, hdrop]
      rw [Request.headers] at hguard
      rw [if_neg hguard, Request.received, ← hsplit.1, ← hsplit.2]
      rfl
  | some q =>
      rw [hq] at hsplit
      simp only [Prod.mk.injEq] at hsplit
      simp only [hheaders, hbody, hdrop]
      rw [Request.headers] at hguard
      rw [if_neg hguard, Request.received, ← hsplit.1, ← hsplit.2]
      rfl

theorem Request.Valid.parse_head (h : r.Valid) (hhost : r.HostFound) : parse r.head = .ok r.received := by
  have hlines : Env.lines r.head = (r.requestLine ++ [0x0D]) :: (r.fields.map (·.line ++ [0x0D]) ++ [[0x0D]]) := by
    rw [head, lines_flatMap_crlf fun l hl => (h.lines l hl).2, Request.lines, List.map_cons, List.map_map]
    rfl
  rw [parse, hlines]
  simp only [h.parseRequestLine, bind, Except.bind]
  exact parseRest_head h hhost

/-! ### Looking fields up -/

theorem mem_setParam {params : Params} {name value : Bytes} {p : Bytes × Bytes} (h : p ∈ setParam params name value) :
    p = (name, value) ∨ p ∈ params := by
  rcases List.mem_cons.mp h with h | h
  · exact .inl h
  · exact .inr (List.mem_of_mem_filter h)

theorem mem_headers {fields : List Field} {params : Params} {p : Bytes × Bytes}
    (h : p ∈ fields.foldl (fun headers f => setParam headers f.name f.value) params) :
    p ∈ params ∨ ∃ f ∈ fields, p = (f.name, f.value) := by
  induction fields generalizing params with
  | nil => exact .inl h
  | cons f fields ih =>
      rcases ih h with h | ⟨g, hg, e⟩
      · rcases mem_setParam h with e | h
        · exact .inr ⟨f, by simp, e⟩
        · exact .inl h
      · exact .inr ⟨g, by simp [hg], e⟩

theorem length_headers (fields : List Field) (params : Params) :
    (fields.foldl (fun headers f => setParam headers f.name f.value) params).length ≤ params.length + fields.length := by
  induction fields generalizing params with
  | nil => exact Nat.le_refl _
  | cons f fields ih =>
      have hset : (setParam params f.name f.value).length ≤ params.length + 1 := by
        rw [setParam, List.length_cons]
        have := List.length_filter_le (fun p : Bytes × Bytes => decide (p.1 ≠ f.name)) params
        omega
      have := ih (setParam params f.name f.value)
      rw [List.foldl_cons, List.length_cons]
      omega

theorem setParam_keeps {params : Params} {name value : Bytes} {P : Bytes → Prop} (h : ∃ p ∈ params, P p.1) :
    ∃ p ∈ setParam params name value, P p.1 := by
  obtain ⟨p, hp, hP⟩ := h
  by_cases e : p.1 = name
  · exact ⟨(name, value), List.mem_cons_self .., by rw [← e]; exact hP⟩
  · exact ⟨p, List.mem_cons_of_mem _ (List.mem_filter.mpr ⟨hp, by simpa using e⟩), hP⟩

theorem exists_headers {fields : List Field} {params : Params} {P : Bytes → Prop}
    (h : (∃ p ∈ params, P p.1) ∨ ∃ f ∈ fields, P f.name) :
    ∃ p ∈ fields.foldl (fun headers f => setParam headers f.name f.value) params, P p.1 := by
  induction fields generalizing params with
  | nil =>
      rcases h with h | ⟨_, hf, _⟩
      · exact h
      · cases hf
  | cons f fields ih =>
      rcases h with h | ⟨g, hg, hP⟩
      · exact ih (.inl (setParam_keeps h))
      · rcases List.mem_cons.mp hg with rfl | hg
        · exact ih (.inl ⟨_, List.mem_cons_self .., hP⟩)
        · exact ih (.inr ⟨g, hg, hP⟩)

/-- The value that is found is that of a field of the name. -/
theorem headerCi_of_ne {name : String} (h : headerCi r.headers (ascii name) ≠ []) :
    ∃ f ∈ r.fields, f.Is name ∧ headerCi r.headers (ascii name) = f.value := by
  rw [headerCi] at h ⊢
  cases e : r.headers.find? fun p => asciiIequal p.1 (ascii name) with
  | none => exact absurd (by rw [e]; rfl) h
  | some p =>
      have hp := List.find?_some e
      rcases mem_headers (List.mem_of_find?_eq_some e) with hn | ⟨f, hf, rfl⟩
      · cases hn
      · exact ⟨f, hf, hp, rfl⟩

theorem headerCi_eq_nil {name : String} (h : ∀ f ∈ r.fields, ¬ f.Is name) : headerCi r.headers (ascii name) = [] := by
  by_contra hne
  obtain ⟨f, hf, hi, -⟩ := headerCi_of_ne hne
  exact h f hf hi

theorem headerCi_eq {name : String} {value : Bytes} (h : ∃ f ∈ r.fields, f.Is name)
    (hv : ∀ f ∈ r.fields, f.Is name → f.value = value) : headerCi r.headers (ascii name) = value := by
  obtain ⟨p, hp, hi⟩ := exists_headers (P := fun n => asciiIequal n (ascii name)) (.inr h : (∃ p ∈ ([] : Params), _) ∨ _)
  rw [headerCi]
  cases e : r.headers.find? fun p => asciiIequal p.1 (ascii name) with
  | none => exact absurd hi (List.find?_eq_none.mp e p hp)
  | some q =>
      have hq := List.find?_some e
      rcases mem_headers (List.mem_of_find?_eq_some e) with hn | ⟨f, hf, rfl⟩
      · cases hn
      · exact hv f hf hq

theorem Request.Valid.checkHead_ok {cfg : Config} (h : r.Valid) (hw : r.Within cfg) : ∃ b, checkHead cfg r.received = .ok b := by
  have hlen := length_headers r.fields []
  have hcount : ¬ (0 < cfg.maxHeaderCount ∧ cfg.maxHeaderCount < r.received.headers.length) := by
    rintro ⟨h0, h1⟩
    change _ < (r.fields.foldl (fun headers f => setParam headers f.name f.value) []).length at h1
    simp only [List.length_nil] at hlen
    rcases hw.count with h2 | h2 <;> omega
  have hversion : ¬ (r.received.version ≠ ascii "HTTP/1.1" ∧ r.received.version ≠ ascii "HTTP/1.0") :=
    fun hn => h.version.elim hn.1 hn.2
  rw [checkHead, if_neg hversion, if_neg hcount]
  by_cases he : headerCi r.received.headers (ascii "Expect") = []
  · exact ⟨false, by rw [if_pos he]⟩
  · obtain ⟨f, hf, hi, hv⟩ := headerCi_of_ne (r := r) he
    have := h.expect f hf hi
    refine ⟨true, ?_⟩
    rw [if_neg he]
    change (if asciiIequal (headerCi r.headers (ascii "Expect")) _ = true then _ else _) = _
    rw [hv, if_pos this]

theorem takeWhile_digits {digits : Bytes} (h : ∀ c ∈ digits, isDigit c = true) : digits.takeWhile isDigit = digits := by
  have : (digits ++ []).takeWhile isDigit = _ := List.takeWhile_append_of_pos h
  simpa using this

theorem isSpace_digit {c : UInt8} (hc : isDigit c = true) : isSpace c = false := by
  revert hc
  simp only [isDigit, isSpace, Bool.and_eq_true, decide_eq_true_eq, UInt8.le_iff_toNat_le, Bool.or_eq_false_iff,
    Bool.and_eq_false_iff, decide_eq_false_iff_not, ← UInt8.toNat_inj, UInt8.reduceToNat]
  omega

/-- A number that is too large is taken for the largest one. -/
theorem toUint64_min {digits : Bytes} (hne : digits ≠ []) (h : ∀ c ∈ digits, isDigit c) :
    toUint64 digits = some (min (decimalValue digits) (2 ^ 64 - 1)) := by
  obtain ⟨c, rest, rfl⟩ := List.exists_cons_of_ne_nil hne
  have hc := h c (by simp)
  have hsign : c ≠ 0x2B ∧ c ≠ 0x2D := ⟨by rintro rfl; revert hc; decide, by rintro rfl; revert hc; decide⟩
  have hstart : (c :: rest).dropWhile isSpace = c :: rest := List.dropWhile_cons_of_neg (by simp [isSpace_digit hc])
  rw [toUint64, hstart]
  simp only [List.head?_cons, Option.some.injEq, hsign.1, hsign.2, or_self, if_false, takeWhile_digits h, if_neg hne]
  split
  · next hle => rw [Nat.min_eq_right (by omega)]
  · next hlt => rw [Nat.min_eq_left (by omega)]

theorem toUint64_digits {digits : Bytes} (hne : digits ≠ []) (h : ∀ c ∈ digits, isDigit c)
    (hlt : decimalValue digits < 2 ^ 64) : toUint64 digits = some (decimalValue digits) := by
  rw [toUint64_min hne h, Nat.min_eq_left (by omega)]

theorem Request.Valid.contentLengthOf_received {cfg : Config} (h : r.Valid) (hw : r.Within cfg) :
    contentLengthOf r.received =
      .ok (match r.body with | .length _ content => content.length | _ => 0) := by
  have hb := h.body
  rw [BodyValid] at hb
  rw [contentLengthOf]
  change (if headerCi r.headers _ = [] then _ else match toUint64 (headerCi r.headers _) with | none => _ | some n => _) = _
  cases e : r.body with
  | absent =>
      rw [e] at hb
      rw [if_pos (headerCi_eq_nil fun f hf => (hb f hf).1)]
  | length digits content =>
      rw [e] at hb
      obtain ⟨h1, h2, -, hne, hd, hval⟩ := hb
      have hc := hw.text
      rw [text, e, List.length_append] at hc
      have hlt : content.length < 2 ^ 63 := by
        change _ + content.length < _ at hc
        omega
      rw [headerCi_eq h1 h2, if_neg hne, toUint64_digits hne hd (by omega), hval]
  | chunked chunks zeros extension trailers =>
      rw [e] at hb
      rw [if_pos (headerCi_eq_nil hb.1)]

end NeForce.HttpServer
