import NeForce.Env
import NeForce.Search

/-! # Reading one HTTP/1 request from a connection

`http_server::parse_request` takes one request from the bytes that a connection holds and those that its socket
delivers. The socket is the list of the pieces that are still to come; a call of `receive` returns at most as much of
the next one as asked for. The string `pending` keeps what was received and not yet taken. -/

namespace NeForce.HttpServer

open NeForce.Env (isSpace trim)
open Search (firstAt)

/-- `http_exception`, with `none` of the status as `0`. -/
structure HttpException where
  message : String
  status : ℕ
deriving DecidableEq, Repr

def crlf : Bytes := [0x0D, 0x0A]

/-- `str.find(pat, n)`. -/
def find (str pat : Bytes) (n : ℕ) : Option ℕ := (firstAt pat (str.drop n)).map (n + ·)

/-! ### Headers, cookies and parameters -/

/-- A hash table, in any order. -/
abbrev Params := List (Bytes × Bytes)

/-- `params[name] = value`. -/
def setParam (params : Params) (name value : Bytes) : Params := (name, value) :: params.filter (·.1 ≠ name)

def lower (c : UInt8) : UInt8 := if 0x41 ≤ c ∧ c ≤ 0x5A then c + 32 else c

def asciiIequal (lhs rhs : Bytes) : Bool := lhs.map lower = rhs.map lower

def asciiIcontains (haystack needle : Bytes) : Bool :=
  (List.range (haystack.length + 1)).any fun i =>
    i + needle.length ≤ haystack.length && asciiIequal ((haystack.drop i).take needle.length) needle

structure HttpRequest where
  method : Bytes := ascii "GET"
  path : Bytes := ascii "/"
  version : Bytes := ascii "HTTP/1.1"
  query : Bytes := []
  body : Bytes := []
  headers : Params := []
  cookies : Params := []
  parameters : Params := []
  formData : Params := []
deriving DecidableEq

/-- The value of a header field, empty where there is none. -/
def header (headers : Params) (name : Bytes) : Bytes := (headers.lookup name).getD []

/-- The value of the first field of the table whose name is `name` but for the case of its letters. -/
def headerCi (headers : Params) (name : Bytes) : Bytes :=
  ((headers.find? fun h => asciiIequal h.1 name).map (·.2)).getD []

def xdigitValue (c : UInt8) : Option ℕ :=
  if 0x30 ≤ c ∧ c ≤ 0x39 then some (c.toNat - 0x30)
  else if 0x61 ≤ c ∧ c ≤ 0x66 then some (10 + (c.toNat - 0x61))
  else if 0x41 ≤ c ∧ c ≤ 0x46 then some (10 + (c.toNat - 0x41))
  else none

/-- `url::decode_tolerant`. -/
def decodeTolerant : Bytes → Bytes
  | [] => []
  | c :: str =>
    match c, str with
    | 0x25, high :: low :: rest =>
      match xdigitValue high, xdigitValue low with
      | some h, some l => UInt8.ofNat (16 * h + l) :: decodeTolerant rest
      | _, _ => 0x25 :: decodeTolerant (high :: low :: rest)
    | 0x2B, str => 0x20 :: decodeTolerant str
    | c, str => c :: decodeTolerant str

/-- `url::parse_query`. -/
def parseQuery (query : Bytes) (params : Params) : Params :=
  (query.splitOn 0x26).foldl (fun params pair =>
    match firstAt [0x3D] pair with
    | none => params
    | some eqPos => setParam params (decodeTolerant (pair.take eqPos)) (decodeTolerant (pair.drop (eqPos + 1)))) params

def parseCookies (cookieHeader : Bytes) (cookies : Params) : Params :=
  (cookieHeader.splitOn 0x3B).foldl (fun cookies pair =>
    let pair := trim pair
    match firstAt [0x3D] pair with
    | none => cookies
    | some eqPos => setParam cookies (trim (pair.take eqPos)) (trim (pair.drop (eqPos + 1)))) cookies

def parseParameters (request : HttpRequest) : HttpRequest :=
  let request := if request.query = [] then request
    else { request with parameters := parseQuery request.query request.parameters }
  if request.method = ascii "POST" ∧ request.body ≠ [] ∧
      header request.headers (ascii "Content-Type") = ascii "application/x-www-form-urlencoded" then
    { request with formData := parseQuery request.body request.formData }
  else request

/-! ### `http_request::parse` -/

/-- The header lines up to an empty one. -/
def parseHeaders : List Bytes → Params → Params
  | [], headers => headers
  | line :: lines, headers =>
    let line := trim line
    if line = [] then headers
    else
      match firstAt [0x3A] line with
      | none => parseHeaders lines headers
      | some colonPos =>
        parseHeaders lines (setParam headers (trim (line.take colonPos)) (trim (line.drop (colonPos + 1))))

/-- The first line. -/
def parseRequestLine (line : Bytes) : Except HttpException HttpRequest :=
  let line := trim line
  match firstAt [0x20] line with
  | none => .error ⟨"Invalid request line", 0⟩
  | some pos1 =>
    match find line [0x20] (pos1 + 1) with
    | none => .error ⟨"Invalid request line", 0⟩
    | some pos2 => .ok {
        method := line.take pos1
        path := (line.drop (pos1 + 1)).take (pos2 - pos1 - 1)
        version := line.drop (pos2 + 1) }

/-- The part of `parse` behind the first line. -/
def parseRest (str : Bytes) (lines : List Bytes) (request : HttpRequest) : Except HttpException HttpRequest :=
  let request := match firstAt [0x3F] request.path with
    | none => request
    | some queryPos =>
      { request with query := request.path.drop (queryPos + 1), path := request.path.take queryPos }
  let headers := parseHeaders lines request.headers
  let body := match firstAt (crlf ++ crlf) str with
    | some bodyStart => str.drop (bodyStart + 4)
    | none => request.body
  let cookies := parseCookies (header headers (ascii "Cookie")) request.cookies
  let request := { request with headers, body, cookies, path := decodeTolerant request.path }
  if ((ascii "HTTP/1.1").isPrefixOf request.version ∨ (ascii "HTTP/2").isPrefixOf request.version) ∧
      header headers (ascii "Host") = [] then
    .error ⟨"Missing Host header", 0⟩
  else .ok request

def parse (str : Bytes) : Except HttpException HttpRequest :=
  match Env.lines str with
  | [] => parseRest str [] {}
  | line :: lines => parseRequestLine line >>= parseRest str lines

/-! ### Numbers -/

def isDigit (c : UInt8) : Bool := 0x30 ≤ c && c ≤ 0x39

def decimalValue (digits : Bytes) : ℕ := digits.foldl (fun n c => 10 * n + (c.toNat - 0x30)) 0

/-- `to_uint64` in base 10. -/
def toUint64 (sv : Bytes) : Option ℕ :=
  let start := sv.dropWhile isSpace
  let digits := (if start.head? = some 0x2B ∨ start.head? = some 0x2D then start.tail else start).takeWhile isDigit
  if digits = [] then (if start = sv then none else some 0)
  else if 2 ^ 64 ≤ decimalValue digits then some (2 ^ 64 - 1)
  else if start.head? = some 0x2D then some ((2 ^ 64 - decimalValue digits) % 2 ^ 64)
  else some (decimalValue digits)

def hexDigits : Bytes → ℕ → Option ℕ
  | [], result => some result
  | c :: view, result =>
    match xdigitValue c with
    | some digit => if 2 ^ 60 - 1 < result then none else hexDigits view (16 * result + digit)
    | none => if isSpace c then hexDigits view result else none

/-- `hexadecimal::parse_view`. -/
def hexadecimalParse (view : Bytes) : Option ℤ :=
  let start := view.dropWhile isSpace
  if start = [] then some 0
  else
    let digits := if start.head? = some 0x2D ∨ start.head? = some 0x2B then start.tail else start
    let digits := if [0x30, 0x78] <+: digits ∨ [0x30, 0x58] <+: digits then digits.drop 2 else digits
    match hexDigits digits 0 with
    | none => none
    | some result =>
      if start.head? = some 0x2D then (if 2 ^ 63 < result then none else some (-result))
      else if 2 ^ 63 - 1 < result then none
      else some result

/-! ### Chunked bodies -/

/-- The text of the size on a size line. -/
def sizeText (line : Bytes) : Bytes :=
  let sizeLine := trim line
  match firstAt [0x3B] sizeLine with
  | some semi => sizeLine.take semi
  | none => sizeLine

/-- The loop of `decode_chunked_body`. A negative size may lead back to an earlier chunk, so that the rounds are
counted; the trailers behind the last chunk are passed over. -/
def decodeLoop (data : Bytes) : ℕ → ℕ → Bytes → Except HttpException Bytes
  | 0, _, _ => .error ⟨"Malformed chunked body", 0⟩
  | rounds + 1, pos, decoded =>
    if data.length ≤ pos then .ok decoded
    else
      match find data crlf pos with
      | none => .error ⟨"Malformed chunked body: missing chunk size line", 0⟩
      | some lineEnd =>
        match hexadecimalParse (sizeText ((data.drop pos).take (lineEnd - pos))) with
        | none => .error ⟨"Malformed chunked body: invalid chunk size", 0⟩
        | some value =>
          let chunkSize := (value % 2 ^ 64).toNat
          let pos := lineEnd + 2
          if chunkSize = 0 then .ok decoded
          else if data.length < (pos + chunkSize + 2) % 2 ^ 64 then
            .error ⟨"Malformed chunked body: chunk exceeds data", 0⟩
          else decodeLoop data rounds ((pos + chunkSize + 2) % 2 ^ 64) (decoded ++ (data.drop pos).take chunkSize)

def decodeChunkedBody (chunkedData : Bytes) : Except HttpException Bytes :=
  decodeLoop chunkedData (chunkedData.length + 1) 0 []

/-! ### The connection -/

/-- The pieces are not empty: `receive` returns nothing only when the peer has closed. `waits` lists the sizes of
`pending` at the calls of `receive`. -/
structure Conn where
  pending : Bytes
  segments : List Bytes
  nonempty : ∀ s ∈ segments, s ≠ []
  waits : List ℕ := []

def Conn.fresh (c : Conn) : Conn := { c with waits := [] }

/-- What was received and not taken, and what is still to come. -/
def Conn.stream (c : Conn) : Bytes := c.pending ++ c.segments.flatten

/-- A call of `receive` with room for `n` bytes, and what it returns appended to `pending`. -/
def Conn.receive (c : Conn) (n : ℕ) : Option Conn :=
  match h : c.segments with
  | [] => none
  | s :: segments => some {
      c with
      pending := c.pending ++ s.take n
      segments := if s.length ≤ n then segments else s.drop n :: segments
      nonempty := by
        have hc := c.nonempty
        rw [h] at hc
        split
        · exact fun s hs => hc s (List.mem_cons_of_mem _ hs)
        · rename_i hn
          rintro t (_ | ⟨_, ht⟩)
          · exact fun h0 => hn (by simpa using h0)
          · exact hc t (List.mem_cons_of_mem _ ht)
      waits := c.waits ++ [c.pending.length] }

theorem Conn.receive_lt {c c' : Conn} {n : ℕ} (h : c.receive n = some c') (hn : 0 < n) :
    c'.segments.flatten.length < c.segments.flatten.length := by
  unfold Conn.receive at h
  split at h
  · cases h
  · rename_i s segments hs
    cases h
    have hpos : 0 < s.length := List.length_pos_iff.mpr (c.nonempty s (by simp [hs]))
    have hflat : c.segments.flatten.length = s.length + segments.flatten.length := by
      rw [hs, List.flatten_cons, List.length_append]
    rw [hflat]
    by_cases hle : s.length ≤ n
    · simp only [if_pos hle]; omega
    · simp only [if_neg hle, List.flatten_cons, List.length_append, List.length_drop]; omega

/-- Reads until `pending` passes the test; `size` is the room that a call offers. -/
def receiveLoop (test : Bytes → Except HttpException Bool) (size : Bytes → ℕ)
    (hsize : ∀ p, test p = .ok false → 0 < size p) (closed : String) (c : Conn) : Except HttpException Conn :=
  match _ht : test c.pending with
  | .error e => .error e
  | .ok true => .ok c
  | .ok false =>
    match _h : c.receive (size c.pending) with
    | none => .error ⟨closed, 0⟩
    | some c' => receiveLoop test size hsize closed c'
termination_by c.segments.flatten.length
decreasing_by exact Conn.receive_lt _h (hsize _ _ht)

/-! ### `parse_request` -/

structure Config where
  maxHeaderSize : ℕ
  maxBodySize : ℕ
  maxHeaderCount : ℕ

variable (cfg : Config)

def headTest (p : Bytes) : Except HttpException Bool :=
  if (firstAt (crlf ++ crlf) p).isSome then .ok true
  else if cfg.maxHeaderSize < p.length then .error ⟨"Request header too large", 431⟩
  else .ok false

/-- The text that ends a chunked body. -/
def terminator : Bytes := crlf ++ [0x30] ++ crlf ++ crlf

/-- The text of an empty chunked body. -/
def emptyChunks : Bytes := [0x30] ++ crlf ++ crlf

def chunkedTest (bodyStart : ℕ) (p : Bytes) : Except HttpException Bool :=
  if (find p terminator bodyStart).isSome ∨ p.drop bodyStart = emptyChunks then .ok true
  else if cfg.maxBodySize < p.length then .error ⟨"Request body too large", 413⟩
  else .ok false

def lengthTest (total : ℕ) (p : Bytes) : Except HttpException Bool := .ok (decide (total ≤ p.length))

/-- The body, the number of bytes to take from `pending`, and the connection. -/
def readChunked (bodyStart : ℕ) (c : Conn) : Except HttpException (Bytes × ℕ × Conn) :=
  if cfg.maxBodySize < c.pending.length - bodyStart then .error ⟨"Request body too large", 413⟩
  else do
    let c ← receiveLoop (chunkedTest cfg bodyStart) (fun _ => 8192) (fun _ _ => by decide)
      "Connection closed while reading chunked body" c
    let consumed := match find c.pending terminator bodyStart with
      | some t => t + 7
      | none => if emptyChunks <+: c.pending.drop bodyStart then bodyStart + 5 else c.pending.length
    let body ← decodeChunkedBody (c.pending.drop bodyStart)
    .ok (body, consumed, c)

theorem lengthTest_size {total : ℕ} {p : Bytes} (h : lengthTest total p = .ok false) :
    0 < min (total - p.length) 8192 := by
  simp only [lengthTest, Except.ok.injEq, decide_eq_false_iff_not] at h
  omega

def readLength (bodyStart contentLength : ℕ) (c : Conn) : Except HttpException (Bytes × ℕ × Conn) :=
  if cfg.maxBodySize < contentLength then .error ⟨"Request body too large", 413⟩
  else do
    let c ← receiveLoop (lengthTest (bodyStart + contentLength))
      (fun p => min (bodyStart + contentLength - p.length) 8192) (fun _ => lengthTest_size)
      "Connection closed while reading body" c
    .ok ((c.pending.drop bodyStart).take contentLength, bodyStart + contentLength, c)

/-- The checks of a parsed head; the result is whether the client expects a `100 Continue`. -/
def checkHead (request : HttpRequest) : Except HttpException Bool :=
  let expectValue := headerCi request.headers (ascii "Expect")
  if request.version ≠ ascii "HTTP/1.1" ∧ request.version ≠ ascii "HTTP/1.0" then
    .error ⟨"HTTP version not supported", 505⟩
  else if 0 < cfg.maxHeaderCount ∧ cfg.maxHeaderCount < request.headers.length then
    .error ⟨"Too many request headers", 431⟩
  else if expectValue = [] then .ok false
  else if asciiIequal expectValue (ascii "100-continue") then .ok true
  else .error ⟨"Unsupported Expect header", 417⟩

def contentLengthOf (request : HttpRequest) : Except HttpException ℕ :=
  let value := headerCi request.headers (ascii "Content-Length")
  if value = [] then .ok 0
  else
    match toUint64 value with
    | none => .error ⟨"Invalid Content-Length", 400⟩
    | some n => .ok n

def isChunked (headers : Params) : Bool := asciiIcontains (headerCi headers (ascii "Transfer-Encoding")) (ascii "chunked")

/-- The part of `parse_request` behind the first empty line: the request, whether a `100 Continue` head was sent, and
the connection. -/
def readBody (bodyStart : ℕ) (c : Conn) : Except HttpException (HttpRequest × Bool × Conn) := do
  let request ← parse (c.pending.take bodyStart)
  let expectContinue ← checkHead cfg request
  let contentLength ← contentLengthOf request
  let chunked := isChunked request.headers
  let continued := decide (expectContinue ∧ (0 < contentLength ∨ chunked) ∧ contentLength ≤ cfg.maxBodySize ∧
    request.version = ascii "HTTP/1.1")
  let (body, consumed, c) ← if chunked then readChunked cfg bodyStart c else readLength cfg bodyStart contentLength c
  .ok (parseParameters { request with body }, continued, { c with pending := c.pending.drop consumed })

def parseRequest (c : Conn) : Except HttpException (HttpRequest × Bool × Conn) := do
  let c ← receiveLoop (headTest cfg) (fun _ => 8192) (fun _ _ => by decide)
    "Connection closed while reading request" c.fresh
  let headerEnd := (firstAt (crlf ++ crlf) c.pending).getD 0
  if cfg.maxHeaderSize < headerEnd + 4 then .error ⟨"Request header too large", 431⟩
  else readBody cfg (headerEnd + 4) c

end NeForce.HttpServer
