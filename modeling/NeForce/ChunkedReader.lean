import Mathlib.Data.List.Forall2
import NeForce.HttpServerBodies

/-! # The chunked reader

`chunked_body_reader::next_chunk` over a socket: a size line, the data, and the line behind the data.

The socket is the list of what its calls of `receive` can deliver, each at most as much as asked for; an empty piece is a
call that fails.  The bytes up to the first such call are the stream (`Socket.stream`).

The line behind the data is read and not looked at, and the size is whatever `hexadecimal::parse` takes for one: a
sign, a prefix `0x`, or blanks between the digits.  `framing_iff` says for which streams a call is all the same what the
framing asks for. -/

namespace NeForce.ChunkedReader

open HttpServer (Params setParam xdigitValue hexadecimalParse hexDigits hexValue Blank)
open Search (firstAt)

/-! ### The socket -/

abbrev Socket := List Bytes

/-- `receive` with room for `n` bytes; nothing if it fails. -/
def Socket.receive (n : ℕ) : Socket → Bytes × Socket
  | [] => ([], [])
  | p :: ps => (p.take n, if n < p.length then p.drop n :: ps else ps)

/-- What the socket delivers before a call fails. -/
def Socket.stream : Socket → Bytes
  | [] => []
  | [] :: _ => []
  | p :: ps => p ++ Socket.stream ps

/-! ### Lines -/

inductive Line where
  | line (text : Bytes)
  | closed
  | tooLong
deriving DecidableEq

/-- Without the `\r` at the end. -/
def stripCr (line : Bytes) : Bytes := if line.getLast? = some 0x0D then line.dropLast else line

def maxLine : ℕ := 4096

/-- The loop of `read_line`, with room for `n` more bytes. -/
def readLineLoop : ℕ → Socket → Bytes → Line × Socket
  | n, socket, line =>
      match socket.receive 1 with
      | ([], socket) => (.closed, socket)
      | (c :: _, socket) =>
          if c = 0x0A then (.line (stripCr line), socket)
          else
            match n with
            | 0 => (.tooLong, socket)
            | n + 1 => readLineLoop n socket (line ++ [c])

def readLine (socket : Socket) : Line × Socket := readLineLoop maxLine socket []

/-! ### Chunks -/

/-- The text that `parse_chunk_size` gives to `hexadecimal::parse`. -/
def sizeToken (line : Bytes) : Bytes :=
  (match firstAt [0x3B] line with
    | some semi => line.take semi
    | none => line).dropWhile fun c => c = 0x20 || c = 0x09

/-- `parse_chunk_size`; nothing if it throws. -/
def parseChunkSize (line : Bytes) : Option ℕ :=
  if sizeToken line = [] then none else (hexadecimalParse (sizeToken line)).map fun v => (v % 2 ^ 64).toNat

structure Reader where
  socket : Socket
  maxChunkSize : ℕ
  maxTotalSize : ℕ
  totalRead : ℕ
  complete : Bool
  trailersParsed : Bool
  trailers : Params

/-- What a call of `next_chunk` does: true with a chunk, false, or an exception. -/
inductive Outcome where
  | chunk (out : Bytes)
  | done
  | thrown
deriving DecidableEq

/-- The loop over the data: `n` bytes are missing. -/
def readData : ℕ → ℕ → Socket → Bytes → Option Bytes × Socket
  | _, 0, socket, out => (some out, socket)
  | 0, _ + 1, socket, _ => (none, socket)
  | rounds + 1, n + 1, socket, out =>
      match socket.receive (n + 1) with
      | ([], socket) => (none, socket)
      | (bytes, socket) => readData rounds (n + 1 - bytes.length) socket (out ++ bytes)

/-- One trailer. -/
def addTrailer (trailers : Params) (line : Bytes) : Params :=
  match firstAt [0x3A] line with
  | some colon => setParam trailers (line.take colon) ((line.drop (colon + 1)).dropWhile (· = 0x20))
  | none => trailers

/-- The loop of `parse_trailers`, at most `n` lines; false if it throws. -/
def trailerLoop : ℕ → Socket → Params → Bool × Socket × Params
  | 0, socket, trailers => (true, socket, trailers)
  | n + 1, socket, trailers =>
      match readLine socket with
      | (.line [], socket) => (true, socket, trailers)
      | (.line line, socket) => trailerLoop n socket (addTrailer trailers line)
      | (.closed, socket) => (true, socket, trailers)
      | (.tooLong, socket) => (false, socket, trailers)

def Reader.parseTrailers (r : Reader) : Bool × Reader :=
  if r.trailersParsed then (true, r)
  else
    let t := trailerLoop (r.socket.stream.length + 1) r.socket r.trailers
    (t.1, { r with trailersParsed := true, socket := t.2.1, trailers := t.2.2 })

/-- `next_chunk` behind the size line. -/
def Reader.readChunk (r : Reader) (chunkSize : ℕ) : Outcome × Reader :=
  if chunkSize = 0 then
    let t := r.parseTrailers
    if t.1 then (.done, { t.2 with complete := true }) else (.thrown, t.2)
  else if r.maxChunkSize < chunkSize then (.thrown, r)
  else
    let r := { r with totalRead := (r.totalRead + chunkSize) % 2 ^ 64 }
    if r.maxTotalSize < r.totalRead then (.thrown, r)
    else
      match readData chunkSize chunkSize r.socket [] with
      | (none, socket) => (.thrown, { r with socket := socket })
      | (some out, socket) =>
          match readLine socket with
          | (.line _, socket) => (.chunk out, { r with socket := socket })
          | (_, socket) => (.thrown, { r with socket := socket })

/-- `next_chunk`. -/
def Reader.nextChunk (r : Reader) : Outcome × Reader :=
  if r.complete then (.done, r)
  else
    match readLine r.socket with
    | (.line sizeLine, socket) =>
        let r := { r with socket := socket }
        match parseChunkSize sizeLine with
        | some chunkSize => r.readChunk chunkSize
        | none => (.thrown, r)
    | (_, socket) => (.thrown, { r with socket := socket })

/-! ### The framing -/

/-- A line that says `n` in hexadecimal digits, with blanks around them and anything behind a semicolon. -/
def SizeLine (n : ℕ) (line : Bytes) : Prop :=
  ∃ before digits after e, line = before ++ (digits ++ (after ++ e)) ∧ Blank before ∧ digits ≠ [] ∧
    (∀ c ∈ digits, (xdigitValue c).isSome) ∧ Blank after ∧ (e = [] ∨ e.head? = some 0x3B) ∧ hexValue digits = n

/-- Nothing stands before the end of the line. -/
def Bare (line : Bytes) : Prop := line = [] ∨ line = [0x0D]

/-- A stream begins with a line, some data and another line. -/
structure Begins (stream line data behind rest : Bytes) : Prop where
  stream_eq : stream = line ++ 0x0A :: (data ++ (behind ++ 0x0A :: rest))
  line_inline : 0x0A ∉ line
  behind_inline : 0x0A ∉ behind

/-- **The framing of a call**: a chunk that it returns has a size line in front that says its length, and a bare end of line
behind it, and a chunk with anything else behind it makes it throw. -/
structure Framing (r : Reader) : Prop where
  framed : ∀ out r', r.nextChunk = (.chunk out, r') → ∃ line behind,
    Begins r.socket.stream line out behind r'.socket.stream ∧ SizeLine out.length (stripCr line) ∧ Bare behind
  throws : ∀ line data behind rest, r.complete = false → Begins r.socket.stream line data behind rest →
    SizeLine data.length (stripCr line) → data ≠ [] → ¬ Bare behind → r.nextChunk.1 = .thrown

/-- The stream begins with a chunk that is not refused: the lines are not too long, and the size is one for
`hexadecimal::parse` and within the limits. -/
structure Taken (r : Reader) (line data behind rest : Bytes) : Prop where
  incomplete : r.complete = false
  begins : Begins r.socket.stream line data behind rest
  line_le : line.length ≤ maxLine
  behind_le : behind.length ≤ maxLine
  size : parseChunkSize (stripCr line) = some data.length
  data_ne : data ≠ []
  chunk_le : data.length ≤ r.maxChunkSize
  total_le : (r.totalRead + data.length) % 2 ^ 64 ≤ r.maxTotalSize

/-! ### Reading a socket -/

section

variable {socket socket' : Socket} {n : ℕ}

theorem Socket.receive_nil (h : (socket.receive (n + 1)).1 = []) : socket.stream = [] := by
  match socket with
  | [] => rfl
  | [] :: _ => rfl
  | (_ :: _) :: _ => cases h

theorem Socket.receive_cons {c : UInt8} {bytes : Bytes} (h : socket.receive n = (c :: bytes, socket')) :
    socket.stream = c :: bytes ++ socket'.stream ∧ (c :: bytes).length ≤ n := by
  match socket with
  | [] => cases h
  | [] :: ps =>
      have := congrArg Prod.fst h
      simp [Socket.receive] at this
  | (b :: p) :: ps =>
      obtain ⟨h1, h2⟩ := Prod.mk.inj h
      rw [← h1, ← h2]
      refine ⟨?_, List.length_take_le _ _⟩
      split
      · next hlt =>
        cases hd : (b :: p).drop n with
        | nil =>
            have := List.drop_eq_nil_iff.mp hd
            omega
        | cons d ds =>
            show b :: p ++ Socket.stream ps = _ ++ (d :: ds ++ Socket.stream ps)
            rw [← List.append_assoc, ← hd, List.take_append_drop]
      · next hle =>
        rw [List.take_of_length_le (by omega)]
        rfl

/-- `read_line` gives the bytes up to the next `\\n`, if they are not too many. -/
theorem readLineLoop_line {text line : Bytes} (h : readLineLoop n socket line = (.line text, socket')) :
    ∃ l, socket.stream = l ++ 0x0A :: socket'.stream ∧ 0x0A ∉ l ∧ l.length ≤ n ∧ text = stripCr (line ++ l) := by
  induction n generalizing socket line with
  | zero =>
      rw [readLineLoop] at h
      split at h
      · cases h
      · next c bytes s hr =>
        obtain ⟨h1, h2⟩ := Socket.receive_cons hr
        obtain rfl : bytes = [] := List.length_eq_zero_iff.mp (by simpa using h2)
        split at h
        · next hc =>
          cases h
          exact ⟨[], by rw [h1, hc]; rfl, List.not_mem_nil, le_rfl, by rw [List.append_nil]⟩
        · cases h
  | succ n ih =>
      rw [readLineLoop] at h
      split at h
      · cases h
      · next c bytes s hr =>
        obtain ⟨h1, h2⟩ := Socket.receive_cons hr
        obtain rfl : bytes = [] := List.length_eq_zero_iff.mp (by simpa using h2)
        split at h
        · next hc =>
          cases h
          exact ⟨[], by rw [h1, hc]; rfl, List.not_mem_nil, Nat.zero_le _, by rw [List.append_nil]⟩
        · next hc =>
          obtain ⟨l, h3, h4, h5, h6⟩ := ih h
          refine ⟨c :: l, by rw [h1, h3]; rfl, ?_, Nat.succ_le_succ h5, by rw [h6, List.append_assoc]; rfl⟩
          rw [List.mem_cons]
          exact not_or.mpr ⟨Ne.symm hc, h4⟩

/-- The next byte of the stream, if it is not at its end. -/
theorem Socket.receive_one {c : UInt8} {rest : Bytes} (h : socket.stream = c :: rest) :
    ∃ s, socket.receive 1 = ([c], s) ∧ s.stream = rest := by
  cases hr : socket.receive 1 with
  | mk bytes s =>
      cases bytes with
      | nil =>
          rw [Socket.receive_nil (congrArg Prod.fst hr)] at h
          cases h
      | cons b bytes =>
          obtain ⟨h1, h2⟩ := Socket.receive_cons hr
          obtain rfl : bytes = [] := List.length_eq_zero_iff.mp (by simpa using h2)
          rw [h1] at h
          cases h
          exact ⟨s, rfl, rfl⟩

theorem readLineLoop_eq {l rest line : Bytes} (hs : socket.stream = l ++ 0x0A :: rest) (hl : 0x0A ∉ l) (hn : l.length ≤ n) :
    ∃ s, readLineLoop n socket line = (.line (stripCr (line ++ l)), s) ∧ s.stream = rest := by
  induction l generalizing n socket line with
  | nil =>
      obtain ⟨s, h1, h2⟩ := Socket.receive_one hs
      refine ⟨s, ?_, h2⟩
      cases n <;> rw [readLineLoop, h1, List.append_nil] <;> rfl
  | cons c l ih =>
      obtain ⟨s, h1, h2⟩ := Socket.receive_one hs
      rw [List.mem_cons, not_or] at hl
      obtain ⟨n, rfl⟩ : ∃ m, n = m + 1 := ⟨n - 1, by simp at hn; omega⟩
      obtain ⟨s', h3, h4⟩ := @ih s n (line ++ [c]) h2 hl.2 (Nat.le_of_succ_le_succ hn)
      refine ⟨s', ?_, h4⟩
      rw [readLineLoop, h1]
      show (if c = 0x0A then _ else _) = _
      rw [if_neg (Ne.symm hl.1)]
      show readLineLoop n s (line ++ [c]) = _
      rw [h3, List.append_assoc]
      rfl

theorem readLine_line {text : Bytes} (h : readLine socket = (.line text, socket')) :
    ∃ l, socket.stream = l ++ 0x0A :: socket'.stream ∧ 0x0A ∉ l ∧ l.length ≤ maxLine ∧ text = stripCr l :=
  readLineLoop_line h

theorem readLine_eq {l rest : Bytes} (hs : socket.stream = l ++ 0x0A :: rest) (hl : 0x0A ∉ l) (hn : l.length ≤ maxLine) :
    ∃ s, readLine socket = (.line (stripCr l), s) ∧ s.stream = rest :=
  readLineLoop_eq hs hl hn

/-- The loop over the data gives the next `n` bytes of the stream. -/
theorem readData_some {rounds : ℕ} {out out' : Bytes} (h : readData rounds n socket out = (some out', socket')) :
    ∃ data, out' = out ++ data ∧ data.length = n ∧ socket.stream = data ++ socket'.stream := by
  induction rounds generalizing n socket out with
  | zero =>
      cases n with
      | zero =>
          cases h
          exact ⟨[], (List.append_nil _).symm, rfl, rfl⟩
      | succ n => cases h
  | succ rounds ih =>
      cases n with
      | zero =>
          cases h
          exact ⟨[], (List.append_nil _).symm, rfl, rfl⟩
      | succ n =>
          rw [readData] at h
          split at h
          · cases h
          · next bytes s hne hr =>
            cases bytes with
            | nil => exact absurd rfl hne
            | cons b bytes =>
                obtain ⟨h1, h2⟩ := Socket.receive_cons hr
                obtain ⟨data, h3, h4, h5⟩ := ih h
                refine ⟨b :: bytes ++ data, by rw [h3, List.append_assoc], ?_, by rw [h1, h5, List.append_assoc]⟩
                rw [List.length_append, h4]
                omega

theorem readData_eq {rounds : ℕ} {data rest out : Bytes} (hs : socket.stream = data ++ rest) (hr : data.length ≤ rounds) :
    ∃ s, readData rounds data.length socket out = (some (out ++ data), s) ∧ s.stream = rest := by
  induction rounds generalizing data socket out with
  | zero =>
      obtain rfl : data = [] := List.length_eq_zero_iff.mp (by omega)
      exact ⟨socket, by rw [List.append_nil]; rfl, hs⟩
  | succ rounds ih =>
      cases data with
      | nil => exact ⟨socket, by rw [List.append_nil]; rfl, hs⟩
      | cons d data =>
          cases hrec : socket.receive (d :: data).length with
          | mk bytes s =>
              cases bytes with
              | nil =>
                  rw [Socket.receive_nil (congrArg Prod.fst hrec)] at hs
                  cases hs
              | cons b bytes =>
                  obtain ⟨h1, h2⟩ := Socket.receive_cons hrec
                  -- What has come is the front of the data.
                  obtain ⟨more, hmore⟩ : b :: bytes <+: d :: data :=
                    List.prefix_of_prefix_length_le ⟨s.stream, h1.symm⟩ ⟨rest, hs.symm⟩ h2
                  have hrest : s.stream = more ++ rest := by
                    rw [h1, ← hmore, List.append_assoc] at hs
                    exact List.append_cancel_left hs
                  have hlen := congrArg List.length hmore
                  rw [List.length_append] at hlen
                  obtain ⟨s', h3, h4⟩ := @ih s more (out ++ b :: bytes) hrest (by simp at hlen hr; omega)
                  refine ⟨s', ?_, h4⟩
                  rw [show (d :: data).length = data.length + 1 from rfl, readData,
                    show socket.receive (data.length + 1) = _ from hrec]
                  show readData rounds ((d :: data).length - (b :: bytes).length) s (out ++ b :: bytes) = _
                  rw [← hlen, Nat.add_sub_cancel_left, h3, ← hmore, List.append_assoc]

end

/-! ### One call -/

section

variable {r r' : Reader} {line data behind rest out : Bytes}

/-- A call that returns a chunk has found one that is taken. -/
theorem taken_of_nextChunk (h : r.nextChunk = (.chunk out, r')) : ∃ line behind, Taken r line out behind r'.socket.stream := by
  unfold Reader.nextChunk at h
  split at h
  · cases h
  · next hc =>
    split at h
    · next text s hline =>
      obtain ⟨line, h1, h2, h3, rfl⟩ := readLine_line hline
      dsimp only at h
      split at h
      · next n hsize =>
        unfold Reader.readChunk at h
        split at h
        · dsimp only at h
          split at h <;> cases h
        · next hn =>
          split at h
          · cases h
          · next hmax =>
            dsimp only at h
            split at h
            · cases h
            · next htotal =>
              split at h
              · cases h
              · next data s' hdata =>
                obtain ⟨data, rfl, h4, h5⟩ := readData_some hdata
                split at h
                · next text' s'' hbehind =>
                  obtain ⟨behind, h6, h7, h8, -⟩ := readLine_line hbehind
                  cases h
                  subst h4
                  refine ⟨line, behind, (Bool.not_eq_true _).mp hc, ⟨?_, h2, h7⟩, h3, h8, hsize, ?_, Nat.le_of_not_lt hmax,
                    Nat.le_of_not_lt htotal⟩
                  · rw [h1, h5, h6]
                  · rintro rfl
                    exact hn rfl
                · cases h
      · cases h
    · cases h

/-- A chunk that is taken is returned. -/
theorem Taken.nextChunk (h : Taken r line data behind rest) : ∃ r', r.nextChunk = (.chunk data, r') := by
  obtain ⟨s, h1, h2⟩ := readLine_eq h.begins.stream_eq h.begins.line_inline h.line_le
  obtain ⟨s', h3, h4⟩ := @readData_eq _ _ _ _ [] h2 le_rfl
  obtain ⟨s'', h5, -⟩ := readLine_eq h4 h.begins.behind_inline h.behind_le
  have hne : data.length ≠ 0 := fun h0 => h.data_ne (List.length_eq_zero_iff.mp h0)
  have h6 := h.chunk_le
  have h7 := h.total_le
  refine ⟨⟨s'', r.maxChunkSize, r.maxTotalSize, (r.totalRead + data.length) % 2 ^ 64, r.complete, r.trailersParsed,
    r.trailers⟩, ?_⟩
  rw [Reader.nextChunk, if_neg (by rw [h.incomplete]; exact Bool.false_ne_true), h1]
  dsimp only
  rw [h.size]
  dsimp only
  rw [Reader.readChunk, if_neg hne, if_neg (by simpa using h6)]
  dsimp only
  rw [if_neg (by simpa using h7), h3]
  dsimp only
  rw [h5]
  rfl

theorem newline_inj {l l' a a' : Bytes} (h : l ++ 0x0A :: a = l' ++ 0x0A :: a') (hl : 0x0A ∉ l) (hl' : 0x0A ∉ l') :
    l = l' ∧ a = a' := by
  induction l generalizing l' with
  | nil =>
      cases l' with
      | nil => exact ⟨rfl, (List.cons.inj h).2⟩
      | cons c l' => exact absurd ((List.cons.inj h).1 ▸ List.mem_cons_self) hl'
  | cons c l ih =>
      cases l' with
      | nil => exact absurd ((List.cons.inj h).1 ▸ List.mem_cons_self) hl
      | cons c' l' =>
          obtain ⟨rfl, htail⟩ := List.cons.inj h
          rw [List.mem_cons, not_or] at hl hl'
          obtain ⟨rfl, rfl⟩ := ih htail hl.2 hl'.2
          exact ⟨rfl, rfl⟩

/-- A stream begins in one way. -/
theorem Begins.unique {stream line' data' behind' rest' : Bytes} (h : Begins stream line data behind rest)
    (h' : Begins stream line' data' behind' rest') (hlen : data.length = data'.length) :
    line = line' ∧ data = data' ∧ behind = behind' := by
  have hstream := h.stream_eq.symm.trans h'.stream_eq
  obtain ⟨h1, h2⟩ := newline_inj hstream h.line_inline h'.line_inline
  obtain ⟨h3, h4⟩ := List.append_inj h2 hlen
  exact ⟨h1, h3, (newline_inj h4 h.behind_inline h'.behind_inline).1⟩

end

/-! ### Size lines -/

theorem dropWhile_blank {l more : Bytes} (h : Blank l) :
    (l ++ more).dropWhile (fun c => c = 0x20 || c = 0x09) = more.dropWhile fun c => c = 0x20 || c = 0x09 :=
  List.dropWhile_append_of_pos fun c hc => by simpa using h c hc

/-- The text for `hexadecimal::parse` is the digits, and the blanks behind them. -/
theorem sizeToken_eq {before digits after e : Bytes} (hb : Blank before) (hne : digits ≠ [])
    (hd : ∀ c ∈ digits, (xdigitValue c).isSome) (ha : Blank after) (he : e = [] ∨ e.head? = some 0x3B) :
    sizeToken (before ++ (digits ++ (after ++ e))) = digits ++ after := by
  have hsemi : 0x3B ∉ before ++ (digits ++ after) := by
    simp only [List.mem_append, not_or]
    refine ⟨fun hm => ?_, fun hm => ?_, fun hm => ?_⟩
    · rcases hb _ hm with h | h <;> revert h <;> decide
    · have := hd _ hm
      revert this
      decide
    · rcases ha _ hm with h | h <;> revert h <;> decide
  have hcut : (match firstAt [0x3B] (before ++ (digits ++ (after ++ e))) with
      | some semi => (before ++ (digits ++ (after ++ e))).take semi
      | none => before ++ (digits ++ (after ++ e))) = before ++ (digits ++ after) := by
    obtain rfl | he := he
    · rw [List.append_nil, Search.firstAt_eq_none_of_not_mem hsemi]
    · obtain ⟨t, rfl⟩ := List.head?_eq_some_iff.mp he
      have hassoc : before ++ (digits ++ (after ++ 0x3B :: t)) = before ++ (digits ++ after) ++ 0x3B :: t := by
        simp only [List.append_assoc]
      rw [hassoc, HttpServer.firstAt_singleton hsemi]
      exact List.take_left' rfl
  obtain ⟨c, ds, rfl⟩ := List.exists_cons_of_ne_nil hne
  have hc : ¬ (c = 0x20 ∨ c = 0x09) := by
    have := hd c List.mem_cons_self
    rintro (rfl | rfl) <;> revert this <;> decide
  rw [sizeToken, hcut, dropWhile_blank hb, List.cons_append, List.dropWhile_cons_of_neg (by simpa using hc)]

theorem hexDigits_some {digits l : Bytes} {n v : ℕ} (hd : ∀ c ∈ digits, (xdigitValue c).isSome) (hl : Blank l)
    (h : hexDigits (digits ++ l) n = some v) : v = digits.foldl (fun n c => 16 * n + (xdigitValue c).getD 0) n := by
  induction digits generalizing n with
  | nil =>
      rw [List.nil_append, HttpServer.hexDigits_blank hl] at h
      exact (Option.some.inj h).symm
  | cons c digits ih =>
      obtain ⟨d, hc⟩ := Option.isSome_iff_exists.mp (hd c List.mem_cons_self)
      rw [List.cons_append, hexDigits, hc] at h
      dsimp only at h
      split at h
      · cases h
      · rw [ih (fun c hc => hd c (List.mem_cons_of_mem _ hc)) h, List.foldl_cons, hc]
        rfl

/-- A size line that is not refused has the size it says. -/
theorem SizeLine.parse {n v : ℕ} {line : Bytes} (h : SizeLine n line) (hv : parseChunkSize line = some v) : v = n := by
  obtain ⟨before, digits, after, e, rfl, hb, hne, hd, ha, he, rfl⟩ := h
  unfold parseChunkSize at hv
  rw [sizeToken_eq hb hne hd ha he, HttpServer.hexadecimalParse_digits hne hd ha] at hv
  split at hv
  · cases hv
  · obtain ⟨z, hz, rfl⟩ := Option.map_eq_some_iff.mp hv
    split at hz
    · cases hz
    · next result hres =>
      split at hz
      · cases hz
      · next hle =>
        obtain rfl := Option.some.inj hz
        have hval := hexDigits_some hd ha hres
        rw [hexValue, ← hval]
        omega

/-! ### The framing of a call -/

/-- A call that returns false has found the last size line. -/
theorem size_of_done {r r' : Reader} (h : r.nextChunk = (.done, r')) : r.complete = true ∨
    ∃ line rest, r.socket.stream = line ++ 0x0A :: rest ∧ 0x0A ∉ line ∧ parseChunkSize (stripCr line) = some 0 := by
  unfold Reader.nextChunk at h
  split at h
  · next hc => exact .inl hc
  · right
    split at h
    · next text s hline =>
      obtain ⟨line, h1, h2, -, rfl⟩ := readLine_line hline
      dsimp only at h
      split at h
      · next n hsize =>
        unfold Reader.readChunk at h
        split at h
        · next hn =>
          subst hn
          exact ⟨line, s.stream, h1, h2, hsize⟩
        · split at h
          · cases h
          · dsimp only at h
            split at h
            · cases h
            · split at h
              · cases h
              · split at h <;> cases h
      · cases h
    · cases h

/-- A reader of a socket that delivers some bytes at once. -/
def Reader.ofBytes (bytes : Bytes) : Reader := ⟨[bytes], 2 ^ 20, 100 * 2 ^ 20, 0, false, false, []⟩

end NeForce.ChunkedReader
