import Mathlib
import NeForce.HttpServer

/-! # Reading and printing a URL

`url::parse` looks for the delimiters `/`, `?` and `#` behind the scheme, each over the whole of the rest, and cuts the
text at what it finds. A position that is not found is `none`; a length is a difference of two `size_t`. -/

namespace NeForce.UrlParser

open HttpServer (find lower asciiIequal isDigit decimalValue)
open Search (firstAt firstAt_eq_some firstAt_append firstAt_of_append firstAt_of_not_mem firstAt_self
  firstAt_eq_none_of_not_mem)

/-! ### Ports -/

/-- What `ports::parse` compares with, in its order. -/
def portNames : List (Bytes × ℕ) :=
  [(ascii "http", 80), (ascii "ws", 80), (ascii "https", 443), (ascii "wss", 443), (ascii "ftp", 21),
    (ascii "ftp-data", 20), (ascii "tftp", 69), (ascii "ssh", 22), (ascii "telnet", 23), (ascii "smtp", 25),
    (ascii "smtps", 465), (ascii "smtp-submit", 587), (ascii "submission", 587), (ascii "pop3", 110),
    (ascii "pop3s", 995), (ascii "imap", 143), (ascii "imaps", 993), (ascii "dns", 53), (ascii "ldap", 389),
    (ascii "ldaps", 636), (ascii "dhcp-server", 67), (ascii "dhcps", 67), (ascii "dhcp-client", 68),
    (ascii "dhcpc", 68), (ascii "ntp", 123), (ascii "snmp", 161), (ascii "snmp-trap", 162), (ascii "snmptrap", 162),
    (ascii "smb", 445), (ascii "cifs", 445), (ascii "mysql", 3306), (ascii "postgresql", 5432),
    (ascii "postgres", 5432), (ascii "redis", 6379), (ascii "mongodb", 27017), (ascii "mongo", 27017)]

/-- `ports::parse`; `ports::undef` is `0`. -/
def portsParse (scheme : Bytes) : ℕ := ((portNames.find? fun e => asciiIequal scheme e.1).map (·.2)).getD 0

/-- The loop over the digits, on a `uint16_t`. -/
def portLoop : Bytes → ℕ → Option ℕ
  | [], portNum => some portNum
  | c :: portStr, portNum =>
    if isDigit c then
      let newVal := (portNum * 10 + (c.toNat - 0x30)) % 2 ^ 16
      if newVal < portNum then none else portLoop portStr newVal
    else none

/-- `to_string` of a `uint16_t`. -/
def decimalText (n : ℕ) : Bytes :=
  if n = 0 then [0x30] else (Nat.digits 10 n).reverse.map fun d => UInt8.ofNat (0x30 + d)

/-! ### `url` -/

/-- The texts of `network_exception` in `url::parse`. -/
inductive NetworkException where
  | empty | missingScheme | schemeInvalid | unclosedAddress | invalidPort | emptyPort | invalidHost
deriving DecidableEq, Repr

def NetworkException.message : NetworkException → String
  | empty => "URL is empty"
  | missingScheme => "URL missing scheme"
  | schemeInvalid => "URL scheme invalid"
  | unclosedAddress => "URL malformed: unclosed IPv6 address"
  | invalidPort => "URL invalid port"
  | emptyPort => "URL malformed: empty port"
  | invalidHost => "URL invalid host"

structure Url where
  scheme : Bytes
  host : Bytes
  port : ℕ
  path : Bytes
  query : Bytes
  fragment : Bytes
deriving DecidableEq

/-- A difference of two `size_t`. -/
def sizeSub (a b : ℕ) : ℕ := (a + 2 ^ 64 - b) % 2 ^ 64

/-- `min(n, p)` where `p` is not `npos`. -/
def clampTo (n : ℕ) (p : Option ℕ) : ℕ := match p with | none => n | some p => min n p

def schemeMark : Bytes := ascii "://"

section

variable (str : Bytes) (pos : ℕ)

def pathPos : Option ℕ := find str [0x2F] pos

def queryPos : Option ℕ := find str [0x3F] pos

def fragmentPos : Option ℕ := find str [0x23] pos

def hostEnd : ℕ := clampTo (clampTo (clampTo str.length (pathPos str pos)) (queryPos str pos)) (fragmentPos str pos)

def pathEnd : ℕ := clampTo (clampTo str.length (queryPos str pos)) (fragmentPos str pos)

def queryEnd : ℕ := (fragmentPos str pos).getD str.length

def hostPort : Bytes := (str.drop pos).take (sizeSub (hostEnd str pos) pos)

def pathOf : Bytes :=
  if hostEnd str pos < pathEnd str pos ∧ str[hostEnd str pos]? = some 0x2F then
    (str.drop (hostEnd str pos)).take (sizeSub (pathEnd str pos) (hostEnd str pos))
  else [0x2F]

def queryOf : Bytes :=
  match queryPos str pos with
  | none => []
  | some queryPos =>
    if queryPos < str.length - 1 then
      (str.drop (queryPos + 1)).take (sizeSub (sizeSub (queryEnd str pos) queryPos) 1)
    else []

def fragmentOf : Bytes :=
  match fragmentPos str pos with
  | none => []
  | some fragmentPos => if fragmentPos < str.length - 1 then str.drop (fragmentPos + 1) else []

end

/-- `find_last_of` of one byte. -/
def findLast (c : UInt8) : Bytes → Option ℕ
  | [] => none
  | x :: str =>
    match findLast c str with
    | some i => some (i + 1)
    | none => if x = c then some 0 else none

/-- The host, and the place of the colon before the port. -/
def splitHost (hostPort : Bytes) : Except NetworkException (Bytes × Option ℕ) :=
  if hostPort.head? = some 0x5B then
    match find hostPort [0x5D] 0 with
    | none => .error .unclosedAddress
    | some bracketEnd =>
      .ok ((hostPort.drop 1).take (sizeSub bracketEnd 1),
        if hostPort[bracketEnd + 1]? = some 0x3A then some (bracketEnd + 1) else none)
  else
    match findLast 0x3A hostPort with
    | some colonPos => .ok (hostPort.take colonPos, some colonPos)
    | none => .ok (hostPort, none)

def parsePort (portStr : Bytes) : Except NetworkException ℕ :=
  if portsParse portStr ≠ 0 then .ok (portsParse portStr)
  else
    match portLoop portStr 0 with
    | none => .error .invalidPort
    | some portNum => if 0 < portNum then .ok portNum else .error .invalidPort

/-- The port behind the colon, or else that of the scheme. -/
def choosePort (scheme hostPort : Bytes) : Option ℕ → Except NetworkException ℕ
  | none => .ok (portsParse scheme)
  | some colonPos =>
    if colonPos < hostPort.length - 1 then parsePort (hostPort.drop (colonPos + 1)) else .error .emptyPort

/-- `url::parse`. -/
def parse (str : Bytes) : Except NetworkException Url :=
  if str = [] then .error .empty
  else
    match find str schemeMark 0 with
    | none => .error .missingScheme
    | some schemeEnd =>
      let scheme := (str.take schemeEnd).map lower
      let pos := schemeEnd + 3
      if str.length ≤ pos then .error .schemeInvalid
      else do
        let (host, colonPos) ← splitHost (hostPort str pos)
        let port ← choosePort scheme (hostPort str pos) colonPos
        if host = [] then .error .invalidHost
        else .ok ⟨scheme, host, port, pathOf str pos, queryOf str pos, fragmentOf str pos⟩

def Url.showPort (u : Url) : Bool := u.port ≠ 0 && !(portsParse u.scheme ≠ 0 && u.port = portsParse u.scheme)

/-- `url::to_string`. -/
def Url.toString (u : Url) : Bytes :=
  u.scheme ++ (schemeMark ++ (u.host ++ ((if u.showPort then 0x3A :: decimalText u.port else []) ++
    ((if u.path = [] then [0x2F] else u.path) ++
      ((if u.query = [] then [] else 0x3F :: u.query) ++ if u.fragment = [] then [] else 0x23 :: u.fragment)))))

/-- The operands of the differences that `parse` takes for the length of a substring. -/
def lengths (str : Bytes) : List (ℕ × ℕ) :=
  match find str schemeMark 0 with
  | none => []
  | some schemeEnd =>
    let pos := schemeEnd + 3
    if str.length ≤ pos then []
    else
      (hostEnd str pos, pos) ::
        ((if (hostPort str pos).head? = some 0x5B then
            ((find (hostPort str pos) [0x5D] 0).toList.map fun bracketEnd => (bracketEnd, 1))
          else []) ++
        match parse str with
        | .error _ => []
        | .ok _ =>
          (if hostEnd str pos < pathEnd str pos ∧ str[hostEnd str pos]? = some 0x2F then
              [(pathEnd str pos, hostEnd str pos)]
            else []) ++
          (queryPos str pos).toList.flatMap fun queryPos =>
            if queryPos < str.length - 1 then [(queryEnd str pos, queryPos + 1)] else [])

/-! ### Delimiters -/

section

variable {c : UInt8} {pre a l : Bytes}

theorem firstAt_byte (c : UInt8) (l : Bytes) : firstAt [c] l = if c ∈ l then some (l.idxOf c) else none := by
  split_ifs with h
  · obtain ⟨a, b, rfl, ha⟩ := List.eq_append_cons_of_mem h
    have hself : firstAt [c] (c :: b) = some 0 := firstAt_self (t := b)
    rw [firstAt_of_not_mem ha, hself, List.idxOf_append_of_notMem ha, List.idxOf_cons_self, Option.map_some]
  · exact firstAt_eq_none_of_not_mem h

theorem find_byte (c : UInt8) (pre l : Bytes) :
    find (pre ++ l) [c] pre.length = if c ∈ l then some (pre.length + l.idxOf c) else none := by
  rw [find, List.drop_left, firstAt_byte]
  split_ifs <;> rfl

theorem clampTo_find {n : ℕ} (c : UInt8) (hn : n ≤ pre.length + l.length) :
    clampTo n (find (pre ++ l) [c] pre.length) = min n (pre.length + l.idxOf c) := by
  rw [find_byte]
  split_ifs with h
  · rfl
  · rw [clampTo, List.idxOf_eq_length h, min_eq_left hn]

theorem sizeSub_of_le {m n : ℕ} (h : n ≤ m) (hm : m < 2 ^ 64) : sizeSub m n = m - n := by
  unfold sizeSub
  omega

/-- Below zero the difference of two lengths is large. -/
theorem sizeSub_pos {m n : ℕ} (h : m < n) (hn : n + 1 < 2 ^ 64) : 0 < sizeSub (sizeSub m n) 1 := by
  have hsub : sizeSub m n = m + 2 ^ 64 - n := Nat.mod_eq_of_lt (by omega)
  rw [hsub, sizeSub_of_le (by omega) (by omega)]
  omega

theorem pathEnd_append (pre l : Bytes) :
    pathEnd (pre ++ l) pre.length = pre.length + min (l.idxOf 0x3F) (l.idxOf 0x23) := by
  have hle : l.idxOf 0x3F ≤ l.length := List.idxOf_le_length
  rw [pathEnd, queryPos, fragmentPos, List.length_append, clampTo_find 0x3F le_rfl, clampTo_find 0x23 (by omega)]
  omega

theorem hostEnd_append (pre l : Bytes) :
    hostEnd (pre ++ l) pre.length = pre.length + min (l.idxOf 0x2F) (min (l.idxOf 0x3F) (l.idxOf 0x23)) := by
  have hle : l.idxOf 0x2F ≤ l.length := List.idxOf_le_length
  rw [hostEnd, pathPos, queryPos, fragmentPos, List.length_append, clampTo_find 0x2F le_rfl,
    clampTo_find 0x3F (by omega), clampTo_find 0x23 (by omega)]
  omega

/-- A part that begins with its delimiter, or is not there. -/
def lead (c : UInt8) : Option Bytes → Bytes
  | none => []
  | some t => c :: t

theorem exists_lead (c : UInt8) (l : Bytes) : ∃ a o, l = a ++ lead c o ∧ c ∉ a := by
  by_cases h : c ∈ l
  · obtain ⟨a, b, rfl, ha⟩ := List.eq_append_cons_of_mem h
    exact ⟨a, some b, rfl, ha⟩
  · exact ⟨l, none, (List.append_nil l).symm, h⟩

end

/-! ### The parts of a text -/

/-- A text behind its scheme: the authority, the path, the query and the fragment. -/
structure Parts where
  scheme : Bytes
  authority : Bytes
  path : Option Bytes
  query : Option Bytes
  fragment : Option Bytes
  scheme_first : firstAt schemeMark (scheme ++ schemeMark) = some scheme.length
  authority_plain : 0x2F ∉ authority ∧ 0x3F ∉ authority ∧ 0x23 ∉ authority
  rest_ne_nil : authority ++ (lead 0x2F path ++ (lead 0x3F query ++ lead 0x23 fragment)) ≠ []
  path_plain : ∀ t ∈ path, 0x3F ∉ t ∧ 0x23 ∉ t
  query_plain : ∀ t ∈ query, 0x23 ∉ t

namespace Parts

variable (p : Parts)

def start : Bytes := p.scheme ++ schemeMark

def rest : Bytes := p.authority ++ (lead 0x2F p.path ++ (lead 0x3F p.query ++ lead 0x23 p.fragment))

def text : Bytes := p.start ++ p.rest

variable {p}

theorem not_mem_path : 0x3F ∉ lead 0x2F p.path ∧ 0x23 ∉ lead 0x2F p.path := by
  have h := p.path_plain
  cases hpath : p.path with
  | none => simp [lead]
  | some t => simpa [lead] using h t hpath

theorem not_mem_query : 0x23 ∉ lead 0x3F p.query := by
  have h := p.query_plain
  cases hquery : p.query with
  | none => simp [lead]
  | some t => simpa [lead] using h t hquery

theorem idxOf_query : p.rest.idxOf 0x3F =
    p.authority.length + ((lead 0x2F p.path).length + (lead 0x3F p.query ++ lead 0x23 p.fragment).idxOf 0x3F) := by
  rw [rest, List.idxOf_append_of_notMem p.authority_plain.2.1, List.idxOf_append_of_notMem not_mem_path.1]

theorem idxOf_fragment : p.rest.idxOf 0x23 = p.authority.length + ((lead 0x2F p.path).length +
    ((lead 0x3F p.query).length + (lead 0x23 p.fragment).idxOf 0x23)) := by
  rw [rest, List.idxOf_append_of_notMem p.authority_plain.2.2, List.idxOf_append_of_notMem not_mem_path.2,
    List.idxOf_append_of_notMem not_mem_query]

theorem length_rest : p.rest.length = p.authority.length + ((lead 0x2F p.path).length +
    ((lead 0x3F p.query).length + (lead 0x23 p.fragment).length)) := by
  simp only [rest, List.length_append]

theorem length_text : p.text.length = p.start.length + p.rest.length := List.length_append

theorem pathEnd_text : pathEnd p.text p.start.length =
    p.start.length + (p.authority.length + (lead 0x2F p.path).length) := by
  rw [text]
  rw [pathEnd_append, idxOf_query, idxOf_fragment]
  cases p.query with
  | some t =>
      have : (lead 0x3F (some t) ++ lead 0x23 p.fragment).idxOf 0x3F = 0 := List.idxOf_cons_self
      omega
  | none =>
      cases p.fragment with
      | none =>
          have : (lead 0x3F none ++ lead 0x23 none).idxOf 0x3F = 0 := rfl
          have : (lead 0x3F none).length + (lead 0x23 none).length = 0 := rfl
          omega
      | some t =>
          have : (lead 0x23 (some t)).idxOf 0x23 = 0 := List.idxOf_cons_self
          have : (lead 0x3F none).length = 0 := rfl
          omega

theorem hostEnd_text : hostEnd p.text p.start.length = p.start.length + p.authority.length := by
  have hend := pathEnd_text (p := p)
  have hidx : p.rest.idxOf 0x2F = p.authority.length +
      (lead 0x2F p.path ++ (lead 0x3F p.query ++ lead 0x23 p.fragment)).idxOf 0x2F := by
    rw [rest, List.idxOf_append_of_notMem p.authority_plain.1]
  rw [text, pathEnd_append] at hend
  rw [text, hostEnd_append, hidx]
  cases h : p.path with
  | some t =>
      rw [h] at hend
      have : (lead 0x2F (some t) ++ (lead 0x3F p.query ++ lead 0x23 p.fragment)).idxOf 0x2F = 0 := List.idxOf_cons_self
      omega
  | none =>
      rw [h] at hend
      have : (lead 0x2F none).length = 0 := rfl
      omega

theorem drop_start (n : ℕ) : p.text.drop (p.start.length + n) = p.rest.drop n := by
  rw [text, List.drop_length_add_append]

theorem hostPort_text (hsize : p.text.length < 2 ^ 64) : hostPort p.text p.start.length = p.authority := by
  have hlen := length_text (p := p)
  have hrest := length_rest (p := p)
  rw [hostPort, hostEnd_text, sizeSub_of_le (by omega) (by omega), Nat.add_sub_cancel_left, text, List.drop_left, rest,
    List.take_left]

theorem pathOf_text (hsize : p.text.length < 2 ^ 64) : pathOf p.text p.start.length = 0x2F :: p.path.getD [] := by
  have hlen := length_text (p := p)
  have hrest := length_rest (p := p)
  have hget : p.text[p.start.length + p.authority.length]? =
      (lead 0x2F p.path ++ (lead 0x3F p.query ++ lead 0x23 p.fragment))[0]? := by
    rw [text, rest, ← List.append_assoc, ← List.length_append,
      List.getElem?_append_right (Nat.le_refl (p.start ++ p.authority).length), Nat.sub_self]
  rw [pathOf, hostEnd_text, pathEnd_text, hget]
  cases h : p.path with
  | none => simp [lead]
  | some t =>
      rw [h] at hrest
      rw [if_pos ⟨by simp [lead], rfl⟩, sizeSub_of_le (by omega) (by omega), drop_start, rest, List.drop_left,
        Nat.add_sub_add_left, Nat.add_sub_cancel_left, h, List.take_left]
      rfl

theorem fragmentPos_text : fragmentPos p.text p.start.length = p.fragment.map fun _ =>
    p.start.length + (p.authority.length + ((lead 0x2F p.path).length + (lead 0x3F p.query).length)) := by
  rw [fragmentPos, text, find_byte, idxOf_fragment, rest]
  cases p.fragment with
  | none => simpa [lead, p.authority_plain] using ⟨not_mem_path.2, not_mem_query⟩
  | some t =>
      rw [if_pos (by simp [lead])]
      simp [lead]

theorem fragmentOf_text : fragmentOf p.text p.start.length = p.fragment.getD [] := by
  have hlen := length_text (p := p)
  have hrest := length_rest (p := p)
  have hdrop : ∀ n, p.rest.drop (p.authority.length + ((lead 0x2F p.path).length + (lead 0x3F p.query).length) + n) =
      (lead 0x23 p.fragment).drop n := by
    intro n
    rw [rest, Nat.add_assoc, List.drop_length_add_append, Nat.add_assoc, List.drop_length_add_append,
      List.drop_length_add_append]
  rw [fragmentOf, fragmentPos_text]
  cases h : p.fragment with
  | none => rfl
  | some t =>
      rw [h] at hrest hdrop
      have hlead : (lead 0x23 (some t)).length = t.length + 1 := rfl
      rw [Option.map_some, Option.getD_some]
      dsimp only
      rw [Nat.add_assoc, drop_start, hdrop]
      cases t with
      | nil => exact if_neg (by rw [List.length_nil] at hlead; omega)
      | cons c t => exact if_pos (by rw [List.length_cons] at hlead; omega)

theorem queryEnd_text : queryEnd p.text p.start.length =
    p.start.length + (p.authority.length + ((lead 0x2F p.path).length + (lead 0x3F p.query).length)) := by
  rw [queryEnd, fragmentPos_text]
  cases h : p.fragment with
  | none =>
      rw [length_text, length_rest, h]
      rfl
  | some t => rfl

theorem queryPos_some {t : Bytes} (h : p.query = some t) :
    queryPos p.text p.start.length = some (p.start.length + (p.authority.length + (lead 0x2F p.path).length)) := by
  rw [queryPos, text, find_byte, idxOf_query, h, if_pos (by simp [rest, h, lead])]
  simp [lead]

/-- Without a query the search goes on in the fragment. -/
theorem queryPos_none (h : p.query = none) : queryPos p.text p.start.length =
    if 0x3F ∈ p.fragment.getD [] then
      some (p.start.length + (p.authority.length + ((lead 0x2F p.path).length + ((p.fragment.getD []).idxOf 0x3F + 1))))
    else none := by
  rw [queryPos, text, find_byte, idxOf_query, h]
  have hmem : 0x3F ∈ p.rest ↔ 0x3F ∈ p.fragment.getD [] := by
    rw [rest, h]
    have hpath := (not_mem_path (p := p)).1
    cases p.fragment <;> simp only [List.mem_append, p.authority_plain.2.1, hpath, false_or] <;> simp [lead]
  rw [if_congr hmem rfl rfl]
  split_ifs with hf
  · cases hfragment : p.fragment with
    | none => simp [hfragment] at hf
    | some t => rw [lead, List.nil_append, lead, List.idxOf_cons_ne _ (by decide), Option.getD_some]
  · rfl

theorem queryOf_some {t : Bytes} (hsize : p.text.length < 2 ^ 64) (h : p.query = some t) :
    queryOf p.text p.start.length = t := by
  have hlen := length_text (p := p)
  have hrest := length_rest (p := p)
  have hlead : (lead 0x3F p.query).length = t.length + 1 := by
    rw [h]
    rfl
  have hend := queryEnd_text (p := p)
  have hdrop : p.text.drop (p.start.length + (p.authority.length + (lead 0x2F p.path).length) + 1) =
      t ++ lead 0x23 p.fragment := by
    rw [Nat.add_assoc, Nat.add_assoc, drop_start, rest, List.drop_length_add_append, List.drop_length_add_append, h]
    rfl
  rw [queryOf, queryPos_some h]
  dsimp only
  rw [hend, hdrop, sizeSub_of_le (m := p.start.length +
      (p.authority.length + ((lead 0x2F p.path).length + (lead 0x3F p.query).length))) (by omega) (by omega),
    sizeSub_of_le (by omega) (by omega)]
  split_ifs with hlast
  · rw [show p.start.length + (p.authority.length + ((lead 0x2F p.path).length + (lead 0x3F p.query).length)) -
      (p.start.length + (p.authority.length + (lead 0x2F p.path).length)) - 1 = t.length by omega, List.take_left]
  · exact (List.eq_nil_of_length_eq_zero (by omega)).symm

/-- A question mark in the fragment, and something behind it. -/
theorem mem_dropLast_iff {c : UInt8} {l : Bytes} : c ∈ l.dropLast ↔ c ∈ l ∧ l.idxOf c + 1 < l.length := by
  by_cases h : c ∈ l
  · obtain ⟨a, b, rfl, ha⟩ := List.eq_append_cons_of_mem h
    rw [List.dropLast_append_of_ne_nil (List.cons_ne_nil c b), List.idxOf_append_of_notMem ha, List.idxOf_cons_self]
    cases b with
    | nil => simp [ha]
    | cons x b => simp
  · exact ⟨fun hd => absurd (List.mem_of_mem_dropLast hd) h, fun hd => absurd hd.1 h⟩

theorem queryOf_none (h : p.query = none) (hf : 0x3F ∉ (p.fragment.getD []).dropLast) :
    queryOf p.text p.start.length = [] := by
  have hlen := length_text (p := p)
  have hrest := length_rest (p := p)
  rw [mem_dropLast_iff] at hf
  rw [queryOf, queryPos_none h]
  split_ifs with hmem
  · dsimp only
    cases hfragment : p.fragment with
    | none => simp [hfragment] at hmem
    | some t =>
        rw [hfragment] at hf hmem hrest
        have hlast : ¬ t.idxOf 0x3F + 1 < t.length := fun hl => hf ⟨hmem, hl⟩
        have hlead : (lead 0x23 (some t)).length = t.length + 1 := rfl
        rw [h] at hrest
        have hnone : (lead 0x3F none).length = 0 := rfl
        rw [Option.getD_some, if_neg (by omega)]
  · rfl

/-- What follows the question mark is taken for the query, by a length that is below zero. -/
theorem queryOf_stray (hsize : p.text.length < 2 ^ 64) (h : p.query = none)
    (hf : 0x3F ∈ (p.fragment.getD []).dropLast) :
    queryOf p.text p.start.length ≠ [] ∧ ∃ q, queryPos p.text p.start.length = some q ∧ q < p.text.length - 1 ∧
      queryEnd p.text p.start.length < q + 1 := by
  have hlen := length_text (p := p)
  have hrest := length_rest (p := p)
  have hend := queryEnd_text (p := p)
  obtain ⟨hmem, hlast⟩ := mem_dropLast_iff.mp hf
  have hpos := queryPos_none h
  rw [if_pos hmem] at hpos
  have hlead : (lead 0x23 p.fragment).length = (p.fragment.getD []).length + 1 := by
    cases hfragment : p.fragment with
    | none => simp [hfragment] at hmem
    | some t => rfl
  have hnone : (lead 0x3F p.query).length = 0 := by
    rw [h]
    rfl
  refine ⟨?_, _, hpos, by omega, by omega⟩
  rw [queryOf, hpos]
  dsimp only
  have hlen' : 0 < sizeSub (sizeSub (queryEnd p.text p.start.length) (p.start.length + (p.authority.length +
      ((lead 0x2F p.path).length + ((p.fragment.getD []).idxOf 0x3F + 1))))) 1 :=
    sizeSub_pos (by omega) (by omega)
  rw [if_pos (by omega), Ne, ← List.length_eq_zero_iff, List.length_take, List.length_drop]
  exact (lt_min hlen' (Nat.sub_pos_of_lt (by omega))).ne'

end Parts

/-! ### The authority -/

section

variable {c : UInt8} {a b l hp host : Bytes} {port : Option Bytes}

theorem findLast_eq_none (h : c ∉ l) : findLast c l = none := by
  induction l with
  | nil => rfl
  | cons x l ih =>
      rw [List.mem_cons, not_or] at h
      rw [findLast, ih h.2]
      exact if_neg fun hx => h.1 hx.symm

theorem findLast_append (h : c ∉ b) : findLast c (a ++ c :: b) = some a.length := by
  induction a with
  | nil =>
      rw [List.nil_append, findLast, findLast_eq_none h]
      exact if_pos rfl
  | cons x a ih =>
      rw [List.cons_append, findLast, ih]
      rfl

theorem exists_last (h : c ∈ l) : ∃ a b, l = a ++ c :: b ∧ c ∉ b := by
  obtain ⟨a, b, hl, ha⟩ := List.eq_append_cons_of_mem (List.mem_reverse.mpr h)
  refine ⟨b.reverse, a.reverse, ?_, by rwa [List.mem_reverse]⟩
  rw [← List.reverse_reverse l, hl, List.reverse_append, List.reverse_cons, List.append_assoc, List.singleton_append]

/-- The host and the port that an authority is read as. -/
inductive Reads : Bytes → Bytes → Option Bytes → Prop
  | plain {host : Bytes} : host.head? ≠ some 0x5B → 0x3A ∉ host → Reads host host none
  | plainPort {host port : Bytes} : (host ++ 0x3A :: port).head? ≠ some 0x5B → 0x3A ∉ port →
      Reads (host ++ 0x3A :: port) host (some port)
  | bracketed {host tail : Bytes} : 0x5D ∉ host → tail.head? ≠ some 0x3A →
      Reads (0x5B :: (host ++ 0x5D :: tail)) host none
  | bracketedPort {host port : Bytes} : 0x5D ∉ host →
      Reads (0x5B :: (host ++ 0x5D :: 0x3A :: port)) host (some port)

def portChoice (scheme : Bytes) : Option Bytes → Except NetworkException ℕ
  | none => .ok (portsParse scheme)
  | some t => if t = [] then .error .emptyPort else parsePort t

theorem choosePort_colon (scheme a t : Bytes) :
    choosePort scheme (a ++ c :: t) (some a.length) = portChoice scheme (some t) := by
  have hlen : (a ++ c :: t).length = a.length + (t.length + 1) := by rw [List.length_append, List.length_cons]
  rw [choosePort, List.drop_length_add_append, portChoice, List.drop_one, List.tail_cons]
  cases t with
  | nil => rw [if_neg (by rw [hlen, List.length_nil]; omega), if_pos rfl]
  | cons x t => rw [if_pos (by rw [hlen, List.length_cons]; omega), if_neg (List.cons_ne_nil x t)]

theorem find_bracket (h : 0x5D ∉ host) :
    find (0x5B :: (host ++ 0x5D :: b)) [0x5D] 0 = some (host.length + 1) := by
  have hnot : (0x5D : UInt8) ∉ 0x5B :: host := by
    rw [List.mem_cons, not_or]
    exact ⟨by decide, h⟩
  have hfind := find_byte 0x5D [] ((0x5B :: host) ++ 0x5D :: b)
  rw [if_pos (List.mem_append_right _ (List.mem_cons_self ..)), List.idxOf_append_of_notMem hnot, List.idxOf_cons_self,
    List.length_nil, Nat.zero_add, List.length_cons, Nat.add_zero] at hfind
  exact hfind

theorem splitHost_bracket (hsize : host.length + 1 < 2 ^ 64) (h : 0x5D ∉ host) :
    splitHost (0x5B :: (host ++ 0x5D :: b)) =
      .ok (host, if b.head? = some 0x3A then some (host.length + 2) else none) := by
  have hget : (0x5B :: (host ++ 0x5D :: b))[host.length + 1 + 1]? = b.head? := by
    rw [List.getElem?_cons_succ, List.getElem?_append_right (by omega), Nat.add_sub_cancel_left, List.getElem?_cons_succ,
      List.head?_eq_getElem?]
  rw [splitHost, List.head?_cons, if_pos rfl, find_bracket h]
  dsimp only
  rw [hget, sizeSub_of_le (by omega) hsize, List.drop_one, List.tail_cons, Nat.add_sub_cancel, List.take_left]

theorem Reads.split (h : Reads hp host port) (hsize : hp.length < 2 ^ 64) :
    ∃ colonPos, splitHost hp = .ok (host, colonPos) ∧ port = (colonPos.map fun i => hp.drop (i + 1)) ∧
      ∀ scheme, choosePort scheme hp colonPos = portChoice scheme port := by
  cases h with
  | plain hhead hcolon =>
      refine ⟨none, ?_, rfl, fun _ => rfl⟩
      rw [splitHost, if_neg hhead, findLast_eq_none hcolon]
  | @plainPort _ t hhead hcolon =>
      refine ⟨some host.length, ?_, ?_, fun scheme => choosePort_colon scheme host t⟩
      swap
      · rw [Option.map_some, List.drop_length_add_append]
        rfl
      rw [splitHost, if_neg hhead, findLast_append hcolon]
      dsimp only
      rw [List.take_left]
  | bracketed hb htail =>
      rw [List.length_cons, List.length_append, List.length_cons] at hsize
      refine ⟨none, ?_, rfl, fun _ => rfl⟩
      rw [splitHost_bracket (by omega) hb, if_neg htail]
  | @bracketedPort _ t hb =>
      rw [List.length_cons, List.length_append, List.length_cons] at hsize
      refine ⟨some (host.length + 2), ?_, ?_, fun scheme => ?_⟩
      · rw [splitHost_bracket (by omega) hb, List.head?_cons, if_pos rfl]
      · rw [Option.map_some, List.drop_succ_cons, List.drop_length_add_append]
        rfl
      · have hpos := choosePort_colon (c := 0x3A) scheme (0x5B :: (host ++ [0x5D])) t
        rw [List.cons_append, List.append_assoc, List.singleton_append, List.length_cons, List.length_append,
          List.length_singleton] at hpos
        exact hpos

theorem Reads.unique {host' : Bytes} {port' : Option Bytes} (h : Reads hp host port) (h' : Reads hp host' port')
    (hsize : hp.length < 2 ^ 64) : host = host' ∧ port = port' := by
  obtain ⟨i, hi, hport, -⟩ := h.split hsize
  obtain ⟨j, hj, hport', -⟩ := h'.split hsize
  rw [hi] at hj
  injection hj with hj
  injection hj with hhost hij
  exact ⟨hhost, by rw [hport, hport', hij]⟩

theorem exists_reads (hp : Bytes) : (∃ host port, Reads hp host port) ∨ splitHost hp = .error .unclosedAddress := by
  by_cases hhead : hp.head? = some 0x5B
  · obtain ⟨l, rfl⟩ : ∃ l, hp = 0x5B :: l := List.head?_eq_some_iff.mp hhead
    by_cases hmem : (0x5D : UInt8) ∈ l
    · obtain ⟨host, tail, rfl, hb⟩ := List.eq_append_cons_of_mem hmem
      by_cases htail : tail.head? = some 0x3A
      · obtain ⟨port, rfl⟩ := List.head?_eq_some_iff.mp htail
        exact Or.inl ⟨host, some port, .bracketedPort hb⟩
      · exact Or.inl ⟨host, none, .bracketed hb htail⟩
    · have hfind := find_byte 0x5D [] (0x5B :: l)
      rw [if_neg (by rw [List.mem_cons, not_or]; exact ⟨by decide, hmem⟩), List.nil_append, List.length_nil] at hfind
      exact Or.inr (by rw [splitHost, List.head?_cons, if_pos rfl, hfind])
  · by_cases hmem : (0x3A : UInt8) ∈ hp
    · obtain ⟨host, port, rfl, hp⟩ := exists_last hmem
      exact Or.inl ⟨host, some port, .plainPort hhead hp⟩
    · exact Or.inl ⟨hp, none, .plain hhead hmem⟩

end

/-! ### Ports as text -/

section

variable {t : Bytes} {n v w : ℕ}

def valueFrom (v : ℕ) (t : Bytes) : ℕ := t.foldl (fun n c => 10 * n + (c.toNat - 0x30)) v

theorem le_valueFrom (v : ℕ) (t : Bytes) : v ≤ valueFrom v t := by
  induction t generalizing v with
  | nil => exact le_rfl
  | cons c t ih => exact le_trans (by omega) (ih (10 * v + (c.toNat - 0x30)))

theorem portLoop_of_le (ht : ∀ c ∈ t, isDigit c) (hv : valueFrom v t < 2 ^ 16) : portLoop t v = some (valueFrom v t) := by
  induction t generalizing v with
  | nil => rfl
  | cons c t ih =>
      have hle := le_valueFrom (10 * v + (c.toNat - 0x30)) t
      have hstep : valueFrom v (c :: t) = valueFrom (10 * v + (c.toNat - 0x30)) t := rfl
      rw [hstep] at hv
      have hmod : (v * 10 + (c.toNat - 0x30)) % 2 ^ 16 = 10 * v + (c.toNat - 0x30) := by
        rw [Nat.mod_eq_of_lt (by omega)]
        omega
      rw [portLoop, if_pos (ht c (List.mem_cons_self ..)), hmod]
      dsimp only
      rw [if_neg (by omega), ih (fun d hd => ht d (List.mem_cons_of_mem c hd)) hv, hstep]

theorem valueFrom_mod (v : ℕ) (t : Bytes) : valueFrom (v % 2 ^ 16) t % 2 ^ 16 = valueFrom v t % 2 ^ 16 := by
  induction t generalizing v with
  | nil => exact Nat.mod_mod v _
  | cons c t ih =>
      change valueFrom (10 * (v % 2 ^ 16) + (c.toNat - 0x30)) t % 2 ^ 16 = valueFrom (10 * v + (c.toNat - 0x30)) t % 2 ^ 16
      rw [← ih, ← ih (10 * v + (c.toNat - 0x30))]
      congr 2
      omega

/-- The loop takes the value of the digits modulo `2 ^ 16`. -/
theorem portLoop_some (h : portLoop t v = some w) (hv : v < 2 ^ 16) :
    (∀ c ∈ t, isDigit c) ∧ w = valueFrom v t % 2 ^ 16 := by
  induction t generalizing v with
  | nil =>
      injection h with h
      exact ⟨by simp, by rw [← h]; exact (Nat.mod_eq_of_lt hv).symm⟩
  | cons c t ih =>
      rw [portLoop] at h
      split_ifs at h with hc
      dsimp only at h
      split_ifs at h with hlt
      obtain ⟨ht, hw⟩ := ih h (Nat.mod_lt _ (by norm_num))
      refine ⟨fun d hd => ?_, ?_⟩
      · rcases List.mem_cons.mp hd with rfl | hd
        · exact hc
        · exact ht d hd
      · rw [hw, valueFrom_mod, Nat.mul_comm]
        rfl

theorem toNat_digit {c : UInt8} (h : isDigit c) : 0x30 ≤ c.toNat ∧ c.toNat ≤ 0x39 := by
  simp only [isDigit, Bool.and_eq_true, decide_eq_true_eq, UInt8.le_iff_toNat_le] at h
  exact h

theorem toNat_lower (c : UInt8) :
    (lower c).toNat = if 0x41 ≤ c.toNat ∧ c.toNat ≤ 0x5A then c.toNat + 32 else c.toNat := by
  have hc : (0x41 ≤ c ∧ c ≤ 0x5A) ↔ (0x41 ≤ c.toNat ∧ c.toNat ≤ 0x5A) := by
    rw [UInt8.le_iff_toNat_le, UInt8.le_iff_toNat_le]
    rfl
  rw [lower, if_congr hc rfl rfl]
  split_ifs with h
  · rw [UInt8.toNat_add]
    exact Nat.mod_eq_of_lt (by have : (32 : UInt8).toNat = 32 := rfl; omega)
  · rfl

theorem lower_lower (c : UInt8) : lower (lower c) = lower c := by
  refine UInt8.toNat_inj.mp ?_
  rw [toNat_lower, toNat_lower]
  split_ifs <;> omega

theorem map_lower_lower (l : Bytes) : (l.map lower).map lower = l.map lower := by
  rw [List.map_map]
  exact List.map_congr_left fun c _ => lower_lower c

theorem portsParse_lower (l : Bytes) : portsParse (l.map lower) = portsParse l := by
  simp only [portsParse, asciiIequal, map_lower_lower]

set_option maxRecDepth 2000 in
/-- No name of a port begins with a digit. -/
theorem portsParse_digit {c : UInt8} (h : isDigit c) (t : Bytes) : portsParse (c :: t) = 0 := by
  have hnames : ∀ e ∈ portNames, 0x61 ≤ (e.1.headD 0).toNat := by decide
  have hnone : portNames.find? (fun e => asciiIequal (c :: t) e.1) = none := by
    refine List.find?_eq_none.mpr fun e he heq => ?_
    have hmap : (c :: t).map lower = e.1.map lower := of_decide_eq_true heq
    obtain ⟨d, r, hd⟩ : ∃ d r, e.1 = d :: r := by
      cases hl : e.1 with
      | nil =>
          rw [hl] at hmap
          cases hmap
      | cons d r => exact ⟨d, r, rfl⟩
    rw [hd, List.map_cons, List.map_cons, List.cons.injEq] at hmap
    have hc := toNat_digit h
    have hrange := hnames e he
    rw [hd, List.headD_cons] at hrange
    have hlower := congrArg UInt8.toNat hmap.1
    rw [toNat_lower, toNat_lower] at hlower
    split_ifs at hlower <;> omega
  rw [portsParse, hnone]
  rfl

theorem portsParse_lt (l : Bytes) : portsParse l < 2 ^ 16 := by
  have hnames : ∀ e ∈ portNames, e.2 < 2 ^ 16 := by decide
  rw [portsParse]
  cases h : portNames.find? fun e => asciiIequal l e.1 with
  | none => exact Nat.two_pow_pos 16
  | some e => exact hnames e (List.mem_of_find?_eq_some h)

theorem digit_byte : ∀ d < 10, isDigit (UInt8.ofNat (0x30 + d)) ∧ (UInt8.ofNat (0x30 + d)).toNat - 0x30 = d := by
  decide

theorem isDigit_decimalText {c : UInt8} (h : c ∈ decimalText n) : isDigit c := by
  rw [decimalText] at h
  split_ifs at h with hn
  · rw [List.mem_singleton.mp h]
    rfl
  · obtain ⟨d, hd, rfl⟩ := List.mem_map.mp h
    exact (digit_byte d (Nat.digits_lt_base (by norm_num) (List.mem_reverse.mp hd))).1

theorem valueFrom_digits {ds : List ℕ} (h : ∀ d ∈ ds, d < 10) :
    valueFrom 0 (ds.reverse.map fun d => UInt8.ofNat (0x30 + d)) = Nat.ofDigits 10 ds := by
  induction ds with
  | nil => rfl
  | cons d ds ih =>
      have hd := (digit_byte d (h d (List.mem_cons_self ..))).2
      have ih' := ih fun x hx => h x (List.mem_cons_of_mem d hx)
      rw [valueFrom] at ih' ⊢
      rw [List.reverse_cons, List.map_append, List.foldl_append, ih', List.map_singleton, List.foldl_cons, List.foldl_nil,
        hd, Nat.ofDigits_cons]
      exact Nat.add_comm _ _

theorem valueFrom_decimalText (n : ℕ) : valueFrom 0 (decimalText n) = n := by
  rw [decimalText]
  split_ifs with hn
  · exact hn.symm
  · rw [valueFrom_digits fun d hd => Nat.digits_lt_base (by norm_num) hd, Nat.ofDigits_digits]

theorem decimalText_ne_nil (n : ℕ) : decimalText n ≠ [] := by
  rw [decimalText]
  split_ifs with hn
  · exact List.cons_ne_nil _ _
  · simpa [Nat.digits_ne_nil_iff_ne_zero] using hn

theorem parsePort_digits (ht : ∀ c ∈ t, isDigit c) (hne : t ≠ []) (hv : 0 < valueFrom 0 t) (hlt : valueFrom 0 t < 2 ^ 16) :
    parsePort t = .ok (valueFrom 0 t) := by
  obtain ⟨c, r, rfl⟩ := List.exists_cons_of_ne_nil hne
  rw [parsePort, portsParse_digit (ht c (List.mem_cons_self ..)), if_neg (by simp), portLoop_of_le ht hlt]
  exact if_pos hv

theorem parsePort_ok {k : ℕ} (h : parsePort t = .ok k) : 0 < k ∧ k < 2 ^ 16 ∧
    ((portsParse t ≠ 0 ∧ k = portsParse t) ∨ (portsParse t = 0 ∧ (∀ c ∈ t, isDigit c) ∧ k = valueFrom 0 t % 2 ^ 16)) := by
  rw [parsePort] at h
  split_ifs at h with hname
  · injection h with h
    rw [← h]
    exact ⟨Nat.pos_of_ne_zero hname, portsParse_lt t, Or.inl ⟨hname, rfl⟩⟩
  · cases hloop : portLoop t 0 with
    | none =>
        rw [hloop] at h
        cases h
    | some w =>
        rw [hloop] at h
        dsimp only at h
        split_ifs at h with hpos
        injection h with h
        obtain ⟨ht, hw⟩ := portLoop_some hloop (Nat.two_pow_pos 16)
        rw [← h]
        exact ⟨hpos, by rw [hw]; exact Nat.mod_lt _ (Nat.two_pow_pos 16), Or.inr ⟨not_not.mp hname, ht, hw⟩⟩

end

/-! ### Parsing the parts -/

namespace Parts

variable {p : Parts} {host : Bytes} {port : Option Bytes}

theorem find_schemeMark : find p.text schemeMark 0 = some p.scheme.length := by
  have hfirst := firstAt_append p.scheme_first p.rest
  rw [find, List.drop_zero, text, start, hfirst, Option.map_some, Nat.zero_add]

theorem length_start : p.start.length = p.scheme.length + 3 := List.length_append

theorem length_rest_pos : 0 < p.rest.length := List.length_pos_of_ne_nil p.rest_ne_nil

/-- What `parse` makes of the parts. -/
theorem parse_text (hsize : p.text.length < 2 ^ 64) (hreads : Reads p.authority host port) :
    parse p.text = (portChoice (p.scheme.map lower) port >>= fun n =>
      if host = [] then .error .invalidHost
      else .ok ⟨p.scheme.map lower, host, n, 0x2F :: p.path.getD [], queryOf p.text p.start.length, p.fragment.getD []⟩) := by
  have hlen := length_text (p := p)
  have hrest := length_rest (p := p)
  have hpos := length_rest_pos (p := p)
  have hne : p.text ≠ [] := by
    intro hnil
    rw [hnil, List.length_nil] at hlen
    omega
  obtain ⟨colonPos, hsplit, -, hport⟩ := hreads.split (by omega)
  rw [parse, if_neg hne, find_schemeMark]
  dsimp only
  rw [← length_start, if_neg (by omega), hostPort_text hsize, hsplit, pathOf_text hsize, fragmentOf_text,
    show p.text.take p.scheme.length = p.scheme by
      rw [text, start, List.append_assoc, List.take_left]]
  rw [← hport (p.scheme.map lower)]
  rfl

theorem parse_unclosed (hsize : p.text.length < 2 ^ 64) (h : splitHost p.authority = .error .unclosedAddress) :
    parse p.text = .error .unclosedAddress := by
  have hlen := length_text (p := p)
  have hrest := length_rest (p := p)
  have hpos := length_rest_pos (p := p)
  have hne : p.text ≠ [] := by
    intro hnil
    rw [hnil, List.length_nil] at hlen
    omega
  rw [parse, if_neg hne, find_schemeMark]
  dsimp only
  rw [← length_start, if_neg (by omega), hostPort_text hsize, h]
  rfl

theorem parse_text_ok {u : Url} (hsize : p.text.length < 2 ^ 64) (hreads : Reads p.authority host port) :
    parse p.text = .ok u ↔ ∃ n, portChoice (p.scheme.map lower) port = .ok n ∧ host ≠ [] ∧
      u = ⟨p.scheme.map lower, host, n, 0x2F :: p.path.getD [], queryOf p.text p.start.length, p.fragment.getD []⟩ := by
  rw [parse_text hsize hreads]
  cases hport : portChoice (p.scheme.map lower) port with
  | error e =>
      constructor
      · intro h
        cases h
      · rintro ⟨n, h, -⟩
        cases h
  | ok n =>
      change (if host = [] then Except.error NetworkException.invalidHost else Except.ok _) = Except.ok u ↔ _
      split_ifs with hhost
      · constructor
        · intro h
          cases h
        · rintro ⟨m, -, h, -⟩
          exact absurd hhost h
      · constructor
        · intro h
          injection h with h
          exact ⟨n, rfl, hhost, h.symm⟩
        · rintro ⟨m, hm, -, rfl⟩
          injection hm with hm
          rw [hm]

end Parts

/-- A text with a scheme and something behind it has the parts. -/
theorem exists_parts {s : Bytes} {u : Url} (h : parse s = .ok u) : ∃ p : Parts, p.text = s := by
  rw [parse] at h
  split_ifs at h with hne
  cases hfind : find s schemeMark 0 with
  | none =>
      rw [hfind] at h
      cases h
  | some n =>
      rw [hfind] at h
      dsimp only at h
      split_ifs at h with hlen
      rw [find, List.drop_zero, Option.map_eq_some_iff] at hfind
      obtain ⟨m, hm, hmn⟩ := hfind
      obtain rfl : m = n := by omega
      obtain ⟨⟨rest, hrest⟩, hle, -⟩ := firstAt_eq_some.mp hm
      have hs : s = s.take m ++ schemeMark ++ rest := by
        rw [List.append_assoc, hrest, List.take_append_drop]
      have htake : (s.take m).length = m := by
        rw [List.length_take, Nat.min_eq_left hle]
      have hfirst : firstAt schemeMark (s.take m ++ schemeMark) = some m := by
        rw [hs] at hm
        exact firstAt_of_append hm (by rw [List.length_append, htake])
      obtain ⟨main, fragment, rfl, hmain⟩ := exists_lead 0x23 rest
      obtain ⟨before, query, rfl, hbefore⟩ := exists_lead 0x3F main
      obtain ⟨authority, path, rfl, hauthority⟩ := exists_lead 0x2F before
      simp only [List.mem_append, not_or] at hmain hbefore
      have hpath : ∀ t ∈ path, 0x3F ∉ t ∧ 0x23 ∉ t := by
        intro t ht
        have hq := hbefore.2
        have hf := hmain.1.2
        rw [Option.mem_def.mp ht, lead, List.mem_cons, not_or] at hq hf
        exact ⟨hq.2, hf.2⟩
      have hquery : ∀ t ∈ query, 0x23 ∉ t := by
        intro t ht
        have hf := hmain.2
        rw [Option.mem_def.mp ht, lead, List.mem_cons, not_or] at hf
        exact hf.2
      have hrest' : authority ++ (lead 0x2F path ++ (lead 0x3F query ++ lead 0x23 fragment)) ≠ [] := by
        intro hnil
        simp only [List.append_assoc] at hs
        rw [hnil, List.append_nil] at hs
        have hlength := congrArg List.length hs
        rw [List.length_append, htake] at hlength
        exact hlen (by rw [hlength]; exact le_rfl)
      exact ⟨⟨s.take m, authority, path, query, fragment, by rw [hfirst, htake], ⟨hauthority, hbefore.1, hmain.1.1⟩, hrest',
        hpath, hquery⟩, by simpa only [Parts.text, Parts.start, Parts.rest, List.append_assoc] using hs.symm⟩

/-! ### Printing -/

theorem lead_ite (c : UInt8) (t : Bytes) : lead c (if t = [] then none else some t) = if t = [] then [] else c :: t := by
  split_ifs <;> rfl

theorem getD_ite (t : Bytes) : (if t = [] then none else some t).getD [] = t := by
  split_ifs with h
  · exact h.symm
  · rfl

namespace Url

variable {u : Url}

def portText (u : Url) : Bytes := if u.showPort then 0x3A :: decimalText u.port else []

theorem toNat_portText {c : UInt8} (h : c ∈ u.portText) : 0x30 ≤ c.toNat ∧ c.toNat ≤ 0x3A := by
  rw [portText] at h
  split_ifs at h
  · rcases List.mem_cons.mp h with rfl | h
    · exact ⟨by decide, by decide⟩
    · have := toNat_digit (isDigit_decimalText h)
      omega
  · cases h

theorem not_mem_portText {c : UInt8} (h : c.toNat < 0x30 ∨ 0x3A < c.toNat) : c ∉ u.portText := by
  intro hc
  have := toNat_portText hc
  omega

/-- The fields of a URL whose text can be taken apart again. -/
structure Printable (u : Url) : Prop where
  scheme_first : firstAt schemeMark (u.scheme ++ schemeMark) = some u.scheme.length
  host_plain : 0x2F ∉ u.host ∧ 0x3F ∉ u.host ∧ 0x23 ∉ u.host
  path_eq : u.path = 0x2F :: u.path.tail
  path_plain : 0x3F ∉ u.path.tail ∧ 0x23 ∉ u.path.tail
  query_plain : 0x23 ∉ u.query

def parts (h : u.Printable) : Parts where
  scheme := u.scheme
  authority := u.host ++ u.portText
  path := some u.path.tail
  query := if u.query = [] then none else some u.query
  fragment := if u.fragment = [] then none else some u.fragment
  scheme_first := h.scheme_first
  authority_plain := by
    simp only [List.mem_append, not_or]
    exact ⟨⟨h.host_plain.1, not_mem_portText (by decide)⟩, ⟨h.host_plain.2.1, not_mem_portText (by decide)⟩,
      ⟨h.host_plain.2.2, not_mem_portText (by decide)⟩⟩
  rest_ne_nil := by
    intro hnil
    simp [lead] at hnil
  path_plain := by
    rintro t ⟨rfl⟩
    exact h.path_plain
  query_plain := by
    intro t ht
    have hquery := h.query_plain
    split_ifs at ht
    · cases ht
    · cases ht
      exact hquery

theorem text_parts (h : u.Printable) : (parts h).text = u.toString := by
  have hpath : (if u.path = [] then [0x2F] else u.path) = 0x2F :: u.path.tail := by
    rw [h.path_eq]
    rfl
  rw [toString, hpath, Parts.text, Parts.start, Parts.rest]
  simp only [parts, lead_ite, portText, List.append_assoc]
  rfl

theorem queryOf_parts (h : u.Printable) (hsize : u.toString.length < 2 ^ 64) :
    queryOf (parts h).text (parts h).start.length = u.query ↔ (u.query = [] → 0x3F ∉ u.fragment.dropLast) := by
  rw [← text_parts h] at hsize
  have hfragment : (parts h).fragment.getD [] = u.fragment := getD_ite u.fragment
  by_cases hquery : u.query = []
  · have hnone : (parts h).query = none := if_pos hquery
    constructor
    · intro hq _ hmem
      rw [← hfragment] at hmem
      exact (Parts.queryOf_stray hsize hnone hmem).1 (hq.trans hquery)
    · intro hf
      rw [Parts.queryOf_none hnone (by rw [hfragment]; exact hf hquery), hquery]
  · have hsome : (parts h).query = some u.query := if_neg hquery
    exact ⟨fun _ hnil => absurd hnil hquery, fun _ => Parts.queryOf_some hsize hsome⟩

theorem eq_iff_query (q : Bytes) (hpath : u.path = 0x2F :: u.path.tail) :
    u = ⟨u.scheme, u.host, u.port, 0x2F :: u.path.tail, q, u.fragment⟩ ↔ q = u.query := by
  rw [← hpath]
  constructor
  · intro h
    exact (congrArg Url.query h).symm
  · rintro rfl
    rfl

/-- When a printed URL is read as the same. -/
theorem parse_toString_iff (h : u.Printable) (hsize : u.toString.length < 2 ^ 64) (hhost : u.host ≠ [])
    (hlower : u.scheme.map lower = u.scheme) (hlt : u.port < 2 ^ 16)
    (hhidden : u.showPort = false → u.port = portsParse u.scheme)
    (hbracket : u.host.head? = some 0x5B → 0x5D ∉ u.host) :
    parse u.toString = .ok u ↔ u.host.head? ≠ some 0x5B ∧ (0x3A ∈ u.host → u.showPort = true) ∧
      (u.query = [] → 0x3F ∉ u.fragment.dropLast) := by
  rw [← queryOf_parts h hsize]
  have hsize' := hsize
  rw [← text_parts h] at hsize' ⊢
  obtain ⟨c, t, hct⟩ := List.exists_cons_of_ne_nil hhost
  have hauthority : (parts h).authority.head? = u.host.head? := by
    change (u.host ++ u.portText).head? = _
    rw [hct]
    rfl
  by_cases hhead : u.host.head? = some 0x5B
  · have hfind := find_byte 0x5D [] (parts h).authority
    rw [if_neg (by
      change _ ∉ u.host ++ u.portText
      rw [List.mem_append, not_or]
      exact ⟨hbracket hhead, not_mem_portText (by decide)⟩), List.nil_append, List.length_nil] at hfind
    have hsplit : splitHost (parts h).authority = .error .unclosedAddress := by
      rw [splitHost, if_pos (hauthority.trans hhead), hfind]
    rw [Parts.parse_unclosed hsize' hsplit]
    constructor
    · intro he
      cases he
    · exact fun hr => absurd hhead hr.1
  · have hparse : ∀ {n : ℕ} {port : Option Bytes}, Reads (parts h).authority u.host port →
        portChoice u.scheme port = .ok n → n = u.port →
        (parse (parts h).text = .ok u ↔ queryOf (parts h).text (parts h).start.length = u.query) := by
      intro n port hreads hport hn
      have hscheme : (parts h).scheme.map lower = u.scheme := hlower
      rw [Parts.parse_text_ok hsize' hreads, hscheme, ← eq_iff_query _ h.path_eq]
      have hfragment : (parts h).fragment.getD [] = u.fragment := getD_ite u.fragment
      rw [hfragment]
      constructor
      · rintro ⟨m, hm, -, hu⟩
        rw [hport] at hm
        injection hm with hm
        rw [← hm, hn] at hu
        exact hu
      · intro hu
        exact ⟨u.port, by rw [hport, hn], hhost, hu⟩
    by_cases hshow : u.showPort = true
    · have hreads : Reads (parts h).authority u.host (some (decimalText u.port)) := by
        have hauth : (parts h).authority = u.host ++ 0x3A :: decimalText u.port := by
          change u.host ++ u.portText = _
          rw [portText, if_pos hshow]
        rw [hauth] at hauthority ⊢
        refine .plainPort (by rwa [hauthority]) fun hmem => ?_
        have := toNat_digit (isDigit_decimalText hmem)
        exact absurd this.2 (by decide)
      have hpos : 0 < u.port := by
        rw [showPort, Bool.and_eq_true] at hshow
        exact Nat.pos_of_ne_zero (of_decide_eq_true hshow.1)
      have hport : portChoice u.scheme (some (decimalText u.port)) = .ok (valueFrom 0 (decimalText u.port)) := by
        rw [portChoice, if_neg (decimalText_ne_nil _)]
        exact parsePort_digits (fun c hc => isDigit_decimalText hc) (decimalText_ne_nil _)
          (by rwa [valueFrom_decimalText]) (by rwa [valueFrom_decimalText])
      rw [hparse hreads hport (valueFrom_decimalText _)]
      exact ⟨fun hq => ⟨hhead, fun _ => hshow, hq⟩, fun hq => hq.2.2⟩
    · have hauth : (parts h).authority = u.host := by
        change u.host ++ u.portText = _
        rw [portText, if_neg hshow, List.append_nil]
      by_cases hcolon : (0x3A : UInt8) ∈ u.host
      · obtain ⟨a, b, hab, hb⟩ := exists_last hcolon
        have hreads : Reads (parts h).authority a (some b) := by
          rw [hauth, hab]
          exact .plainPort (by rwa [← hab]) hb
        rw [Parts.parse_text_ok hsize' hreads]
        constructor
        · rintro ⟨n, -, -, hu⟩
          have hlen := congrArg (List.length ∘ Url.host) hu
          simp only [Function.comp_apply, hab, List.length_append, List.length_cons] at hlen
          omega
        · exact fun hr => absurd (hr.2.1 hcolon) hshow
      · have hreads : Reads (parts h).authority u.host none := by
          rw [hauth]
          exact .plain hhead hcolon
        rw [hparse hreads rfl (hhidden (Bool.eq_false_iff.mpr hshow)).symm]
        exact ⟨fun hq => ⟨hhead, fun hc => absurd hc hcolon, hq⟩, fun hq => hq.2.2⟩

end Url

/-! ### What survives -/

/-- The authority of a text with a scheme. -/
def authorityOf (s : Bytes) : Bytes :=
  match find s schemeMark 0 with
  | none => []
  | some schemeEnd => hostPort s (schemeEnd + 3)

/-- What is asked of a text that `parse` may refuse: the URL is printed as a text that is read as the same URL, no
length is below zero, and a port in digits is the number that they say. -/
structure Survives (s : Bytes) : Prop where
  again : ∀ u, parse s = .ok u → parse u.toString = .ok u
  lengths : ∀ d ∈ lengths s, d.2 ≤ d.1
  port : ∀ u, parse s = .ok u → ∀ host t, Reads (authorityOf s) host (some t) → (∀ c ∈ t, isDigit c) →
    1 ≤ decimalValue t ∧ decimalValue t < 2 ^ 16 ∧ u.port = decimalValue t

/-- The port that a text names, by a name or by a number. -/
def portNumber (t : Bytes) : ℕ := if portsParse t ≠ 0 then portsParse t else decimalValue t

/-- The parts that can be read, printed and read again: no bracket or colon that the printed text would miss, a number
of 16 bits, and no question mark in the fragment but for a last one, unless a query comes before it. -/
structure Parts.Faithful (p : Parts) : Prop where
  authority : ∃ host port, Reads p.authority host port ∧ host.head? ≠ some 0x5B ∧
    (0x3A ∈ host → ∃ t ∈ port, portNumber t ≠ portsParse p.scheme) ∧
    ∀ t ∈ port, (∀ c ∈ t, isDigit c) → decimalValue t < 2 ^ 16
  query : p.query.getD [] = [] → 0x3F ∉ (p.fragment.getD []).dropLast

section

variable {p : Parts} {u : Url} {host : Bytes} {port : Option Bytes} {n : ℕ}

theorem toNat_eq_of_lower {c d : UInt8} (hd : d.toNat < 0x41) (h : lower c = d) : c = d := by
  have hc := congrArg UInt8.toNat h
  rw [toNat_lower] at hc
  refine UInt8.toNat_inj.mp ?_
  split_ifs at hc <;> omega

theorem prefix_of_lower {l : Bytes} (h : schemeMark <+: l.map lower) : schemeMark <+: l := by
  obtain ⟨r, hr⟩ := h
  change 0x3A :: 0x2F :: 0x2F :: r = _ at hr
  obtain _ | ⟨x, _ | ⟨y, _ | ⟨z, l⟩⟩⟩ := l
  · exact absurd (congrArg List.length hr) (by simp)
  · exact absurd (congrArg List.length hr) (by simp)
  · exact absurd (congrArg List.length hr) (by simp)
  · simp only [List.map_cons, List.cons.injEq] at hr
    rw [toNat_eq_of_lower (by decide) hr.1.symm, toNat_eq_of_lower (by decide) hr.2.1.symm,
      toNat_eq_of_lower (by decide) hr.2.2.1.symm]
    exact ⟨l, rfl⟩

theorem scheme_first_lower (p : Parts) :
    firstAt schemeMark (p.scheme.map lower ++ schemeMark) = some (p.scheme.map lower).length := by
  obtain ⟨-, -, hfirst⟩ := firstAt_eq_some.mp p.scheme_first
  have hmark : p.scheme.map lower ++ schemeMark = (p.scheme ++ schemeMark).map lower := by
    rw [List.map_append]
    rfl
  refine firstAt_eq_some.mpr ⟨?_, ?_, fun j hj hpre => ?_⟩
  · rw [List.drop_left]
  · rw [List.length_append]
    omega
  · rw [hmark, ← List.map_drop] at hpre
    rw [List.length_map] at hj
    exact hfirst j hj (prefix_of_lower hpre)

theorem Reads.mem_host {a : Bytes} (h : Reads a host port) {c : UInt8} (hc : c ∈ host) : c ∈ a := by
  cases h <;> simp [hc]

theorem Reads.length_host {a : Bytes} (h : Reads a host port) : host.length ≤ a.length := by
  cases h <;> simp
  all_goals omega

theorem Reads.not_mem_bracket {a : Bytes} (h : Reads a host port) (hhost : host ≠ []) (hhead : host.head? = some 0x5B) :
    0x5D ∉ host := by
  obtain ⟨c, t, hct⟩ := List.exists_cons_of_ne_nil hhost
  cases h with
  | plain h _ => exact absurd hhead h
  | plainPort h _ =>
      rw [hct] at h hhead
      exact absurd hhead h
  | bracketed h _ => exact h
  | bracketedPort h => exact h

theorem length_decimalText (hn : n < 2 ^ 16) : (decimalText n).length ≤ 5 := by
  rw [decimalText]
  split_ifs
  · simp
  · rw [List.length_map, List.length_reverse]
    exact (Nat.digits_length_le_iff (by norm_num) n).mpr (by omega)

theorem authorityOf_text (hsize : p.text.length < 2 ^ 64) : authorityOf p.text = p.authority := by
  rw [authorityOf, Parts.find_schemeMark]
  dsimp only
  rw [← Parts.length_start, Parts.hostPort_text hsize]

theorem bracket_le {a : Bytes} {d : ℕ × ℕ} (hd : d ∈ if a.head? = some 0x5B then
    (find a [0x5D] 0).toList.map fun bracketEnd => (bracketEnd, 1) else []) : d.2 ≤ d.1 := by
  split_ifs at hd with hbracket
  · obtain ⟨l, rfl⟩ := List.head?_eq_some_iff.mp hbracket
    obtain ⟨b, hb, rfl⟩ := List.mem_map.mp hd
    have hfind := find_byte 0x5D [] (0x5B :: l)
    rw [List.nil_append, List.length_nil] at hfind
    rw [hfind, List.idxOf_cons_ne _ (by decide)] at hb
    split_ifs at hb
    · rw [Option.toList_some, List.mem_singleton] at hb
      dsimp only
      omega
    · cases hb
  · cases hd

theorem lengths_refused {s : Bytes} {e : NetworkException} (h : parse s = .error e) : ∀ d ∈ lengths s, d.2 ≤ d.1 := by
  intro d hd
  rw [lengths] at hd
  cases hfind : find s schemeMark 0 with
  | none =>
      rw [hfind] at hd
      cases hd
  | some n =>
      rw [hfind, h] at hd
      dsimp only at hd
      by_cases hlen : s.length ≤ n + 3
      · rw [if_pos hlen] at hd
        cases hd
      · rw [if_neg hlen, List.append_nil, List.mem_cons] at hd
        rcases hd with rfl | hd
        · have hend := hostEnd_append (s.take (n + 3)) (s.drop (n + 3))
          rw [List.take_append_drop, List.length_take, Nat.min_eq_left (by omega)] at hend
          rw [hend]
          exact Nat.le_add_right _ _
        · exact bracket_le hd

/-- The lengths that are taken of an accepted text. -/
theorem lengths_iff (hsize : p.text.length < 2 ^ 64) (hu : parse p.text = .ok u) :
    (∀ d ∈ lengths p.text, d.2 ≤ d.1) ↔ ¬ (p.query = none ∧ 0x3F ∈ (p.fragment.getD []).dropLast) := by
  have hlen := Parts.length_text (p := p)
  have hrest := Parts.length_rest (p := p)
  have hpos := Parts.length_rest_pos (p := p)
  rw [lengths, Parts.find_schemeMark]
  dsimp only
  rw [← Parts.length_start, if_neg (by omega), hu]
  dsimp only
  constructor
  · rintro h ⟨hnone, hf⟩
    obtain ⟨-, q, hq, hlast, hend⟩ := Parts.queryOf_stray hsize hnone hf
    have hmem := h (queryEnd p.text p.start.length, q + 1)
    rw [hq] at hmem
    exact absurd (hmem (by simp [hlast])) (by dsimp only; omega)
  · intro hstray d hd
    rw [List.mem_cons, List.mem_append, List.mem_append] at hd
    rcases hd with rfl | hd | hd | hd
    · rw [Parts.hostEnd_text]
      exact Nat.le_add_right _ _
    · exact bracket_le hd
    · split_ifs at hd with hpath
      · rw [List.mem_singleton] at hd
        rw [hd]
        exact le_of_lt hpath.1
      · cases hd
    · obtain ⟨q, hq, hd⟩ := List.mem_flatMap.mp hd
      rw [Option.mem_toList] at hq
      split_ifs at hd with hlast
      · rw [List.mem_singleton] at hd
        rw [hd, Parts.queryEnd_text]
        dsimp only
        cases hquery : p.query with
        | some t =>
            rw [Parts.queryPos_some hquery] at hq
            injection hq with hq
            have hlead : (lead 0x3F (some t)).length = t.length + 1 := rfl
            omega
        | none =>
            rw [Parts.queryPos_none hquery] at hq
            split_ifs at hq with hf
            injection hq with hq
            refine absurd ⟨hquery, Parts.mem_dropLast_iff.mpr ⟨hf, ?_⟩⟩ hstray
            have hnone : (lead 0x3F p.query).length = 0 := by
              rw [hquery]
              rfl
            cases hfragment : p.fragment with
            | none => simp [hfragment] at hf
            | some t =>
                rw [hfragment] at hq hrest
                have hlead : (lead 0x23 (some t)).length = t.length + 1 := rfl
                rw [Option.getD_some] at hq ⊢
                omega
      · cases hd

/-- The port of an accepted text is printed if it is not the one of the scheme. -/
theorem showPort_iff (hport : portChoice (p.scheme.map lower) port = .ok n) (hn : u.port = n)
    (hscheme : u.scheme = p.scheme.map lower) :
    u.showPort = true ↔ ∃ t ∈ port, n ≠ portsParse p.scheme := by
  have hdefault : portsParse u.scheme = portsParse p.scheme := by rw [hscheme, portsParse_lower]
  rw [Url.showPort, hdefault, hn]
  cases port with
  | none =>
      injection hport with hport
      rw [portsParse_lower] at hport
      rw [← hport]
      simp
  | some t =>
      rw [portChoice] at hport
      split_ifs at hport with ht
      have hpos := (parsePort_ok hport).1
      simp only [Bool.and_eq_true, Bool.not_eq_true', decide_eq_true_eq,
        Bool.and_eq_false_iff, decide_eq_false_iff_not, not_not]
      constructor
      · rintro ⟨-, hzero | hne⟩
        · exact ⟨t, rfl, by omega⟩
        · exact ⟨t, rfl, hne⟩
      · rintro ⟨-, -, hne⟩
        exact ⟨by omega, Or.inr hne⟩

theorem portNumber_eq {t : Bytes} (hport : parsePort t = .ok n)
    (hdigits : (∀ c ∈ t, isDigit c) → decimalValue t < 2 ^ 16) : portNumber t = n := by
  obtain ⟨-, -, hname | hdigit⟩ := parsePort_ok hport
  · rw [portNumber, if_pos hname.1, hname.2]
  · rw [portNumber, if_neg (not_not.mpr hdigit.1), hdigit.2.2]
    exact (Nat.mod_eq_of_lt (hdigits hdigit.2.1)).symm

theorem parsePort_value {t : Bytes} (hport : parsePort t = .ok n) (hne : t ≠ []) (ht : ∀ c ∈ t, isDigit c) :
    0 < n ∧ n = decimalValue t % 2 ^ 16 := by
  obtain ⟨hpos, -, hname | hdigit⟩ := parsePort_ok hport
  · obtain ⟨c, r, rfl⟩ := List.exists_cons_of_ne_nil hne
    exact absurd (portsParse_digit (ht c (List.mem_cons_self ..)) r) hname.1
  · exact ⟨hpos, hdigit.2.2⟩

theorem length_toString_le (hhost : u.host.length ≤ p.authority.length) (hscheme : u.scheme.length = p.scheme.length)
    (hpath : u.path.length ≤ (lead 0x2F p.path).length + 1) (hquery : u.query = p.query.getD [])
    (hfragment : u.fragment = p.fragment.getD []) (hport : u.port < 2 ^ 16) :
    u.toString.length ≤ p.text.length + 8 := by
  have hlen := Parts.length_text (p := p)
  have hrest := Parts.length_rest (p := p)
  have hstart := Parts.length_start (p := p)
  have hmark : schemeMark.length = 3 := rfl
  have hdigits := length_decimalText hport
  have hlead : ∀ (c : UInt8) (o : Option Bytes), (if o.getD [] = [] then
    [] else c :: o.getD []).length ≤ (lead c o).length := by
    intro c o
    cases o with
    | none => exact le_rfl
    | some t =>
        rw [Option.getD_some]
        split_ifs
        · exact Nat.zero_le _
        · exact le_rfl
  have hq := hlead 0x3F p.query
  have hf := hlead 0x23 p.fragment
  rw [← hquery] at hq
  rw [← hfragment] at hf
  have hport' : (if u.showPort then 0x3A :: decimalText u.port else []).length ≤ 6 := by
    split_ifs
    · rw [List.length_cons]
      omega
    · exact Nat.zero_le _
  have hpath' : (if u.path = [] then [0x2F] else u.path).length ≤ (lead 0x2F p.path).length + 1 := by
    split_ifs
    · exact Nat.le_add_left 1 _
    · exact hpath
  rw [Url.toString]
  simp only [List.length_append]
  omega

/-- The claim for the parts of one accepted text. -/
theorem survives_text_iff (hsize : p.text.length < 2 ^ 63) (hreads : Reads p.authority host port)
    (hu : parse p.text = .ok u) :
    Survives p.text ↔ (host.head? ≠ some 0x5B ∧ (0x3A ∈ host → ∃ t ∈ port, portNumber t ≠ portsParse p.scheme) ∧
      ∀ t ∈ port, (∀ c ∈ t, isDigit c) → decimalValue t < 2 ^ 16) ∧
      (p.query.getD [] = [] → 0x3F ∉ (p.fragment.getD []).dropLast) := by
  have hsize' : p.text.length < 2 ^ 64 := by omega
  have hlengths := lengths_iff hsize' hu
  by_cases hstray : p.query = none ∧ 0x3F ∈ (p.fragment.getD []).dropLast
  · refine iff_of_false (fun hs => hlengths.mp hs.lengths hstray) fun hf => hf.2 ?_ hstray.2
    rw [hstray.1]
    rfl
  obtain ⟨n, hport, hhost, hfields⟩ := (Parts.parse_text_ok hsize' hreads).mp hu
  have hquery : queryOf p.text p.start.length = p.query.getD [] := by
    cases h : p.query with
    | some t => exact Parts.queryOf_some hsize' h
    | none => exact Parts.queryOf_none h fun hf => hstray ⟨h, hf⟩
  rw [hquery] at hfields
  have hn : n < 2 ^ 16 := by
    cases port with
    | none =>
        injection hport with hport
        rw [← hport]
        exact portsParse_lt _
    | some t =>
        rw [portChoice] at hport
        split_ifs at hport
        exact (parsePort_ok hport).2.1
  have hprintable : u.Printable := by
    rw [hfields]
    refine ⟨scheme_first_lower p, ⟨fun h => p.authority_plain.1 (hreads.mem_host h), fun h =>
      p.authority_plain.2.1 (hreads.mem_host h), fun h => p.authority_plain.2.2 (hreads.mem_host h)⟩, rfl, ?_, ?_⟩
    · have hplain := p.path_plain
      cases h : p.path with
      | none => simp
      | some t => exact hplain t h
    · have hplain := p.query_plain
      cases h : p.query with
      | none => simp
      | some t => exact hplain t h
  have hlength : u.toString.length ≤ p.text.length + 8 := by
    refine length_toString_le ?_ ?_ ?_ ?_ ?_ ?_ <;> rw [hfields]
    · exact hreads.length_host
    · exact List.length_map _
    · cases p.path <;> simp [lead]
    · exact hn
  have hshow : u.showPort = true ↔ ∃ t ∈ port, n ≠ portsParse p.scheme :=
    showPort_iff hport (by rw [hfields]) (by rw [hfields])
  have hagain := Url.parse_toString_iff hprintable (by omega) (by rw [hfields]; exact hhost)
    (by rw [hfields]; exact map_lower_lower _) (by rw [hfields]; exact hn) (fun hhidden => ?_)
    (by rw [hfields]; exact hreads.not_mem_bracket hhost)
  swap
  · have hnone : ¬ ∃ t ∈ port, n ≠ portsParse p.scheme := fun h => by
      rw [hshow.mpr h] at hhidden
      cases hhidden
    rw [hfields]
    dsimp only
    rw [portsParse_lower]
    cases port with
    | none =>
        injection hport with hport
        rw [← hport, portsParse_lower]
    | some t => exact not_not.mp fun hne => hnone ⟨t, rfl, hne⟩
  rw [hshow, hfields] at hagain
  dsimp only at hagain
  rw [← hfields] at hagain
  have hvalue : ∀ t ∈ port, ((∀ c ∈ t, isDigit c) → decimalValue t < 2 ^ 16) → portNumber t = n := by
    rintro t rfl hdigits
    rw [portChoice] at hport
    split_ifs at hport
    exact portNumber_eq hport hdigits
  constructor
  · intro hs
    have hdigits : ∀ t ∈ port, (∀ c ∈ t, isDigit c) → decimalValue t < 2 ^ 16 := by
      rintro t rfl ht
      exact (hs.port u hu host t (by rwa [authorityOf_text hsize']) ht).2.1
    obtain ⟨hbracket, hcolon, hfragment⟩ := hagain.mp (hs.again u hu)
    refine ⟨⟨hbracket, fun hmem => ?_, hdigits⟩, hfragment⟩
    obtain ⟨t, ht, hne⟩ := hcolon hmem
    exact ⟨t, ht, by rwa [hvalue t ht (hdigits t ht)]⟩
  · rintro ⟨⟨hbracket, hcolon, hdigits⟩, hfragment⟩
    refine ⟨fun v hv => ?_, hlengths.mpr hstray, fun v hv host' t hreads' ht => ?_⟩
    · rw [hu] at hv
      injection hv with hv
      rw [← hv]
      refine hagain.mpr ⟨hbracket, fun hmem => ?_, hfragment⟩
      obtain ⟨t, ht, hne⟩ := hcolon hmem
      exact ⟨t, ht, by rwa [hvalue t ht (hdigits t ht)] at hne⟩
    · rw [authorityOf_text hsize'] at hreads'
      obtain ⟨-, rfl⟩ := hreads.unique hreads' (by
        have hlen := Parts.length_text (p := p)
        have hrest := Parts.length_rest (p := p)
        omega)
      rw [hu] at hv
      injection hv with hv
      have hlt := hdigits t rfl ht
      rw [portChoice] at hport
      split_ifs at hport with hne
      obtain ⟨hpos, hmod⟩ := parsePort_value hport hne ht
      rw [Nat.mod_eq_of_lt hlt] at hmod
      rw [← hv, hfields]
      exact ⟨by omega, hlt, hmod⟩

/-- A text survives exactly if it is refused or put together of parts without the four defects. -/
theorem url_survives_iff {s : Bytes} (hs : s.length < 2 ^ 63) :
    Survives s ↔ (∃ e, parse s = .error e) ∨ ∃ p : Parts, p.text = s ∧ p.Faithful := by
  cases hparse : parse s with
  | error e =>
      refine iff_of_true ⟨fun u hu => ?_, lengths_refused hparse, fun u hu => ?_⟩ (Or.inl ⟨e, rfl⟩) <;>
      · rw [hparse] at hu
        cases hu
  | ok u =>
      constructor
      · intro h
        obtain ⟨p, rfl⟩ := exists_parts hparse
        obtain ⟨host, port, hreads⟩ | hunclosed := exists_reads p.authority
        · obtain ⟨hauthority, hquery⟩ := (survives_text_iff hs hreads hparse).mp h
          exact Or.inr ⟨p, rfl, ⟨host, port, hreads, hauthority⟩, hquery⟩
        · rw [Parts.parse_unclosed (by omega) hunclosed] at hparse
          cases hparse
      · rintro (⟨e, he⟩ | ⟨p, rfl, ⟨host, port, hreads, hauthority⟩, hquery⟩)
        · cases he
        · exact (survives_text_iff hs hreads hparse).mpr ⟨hauthority, hquery⟩

theorem digits_small : ∀ t ∈ some (ascii "81"), (∀ c ∈ t, isDigit c) → decimalValue t < 2 ^ 16 := by
  rintro t ⟨rfl⟩ -
  exact of_decide_eq_true rfl

/-- `http://a:81/b?c#d`. -/
theorem survives_port : Survives (ascii "http://a:81/b?c#d") :=
  (url_survives_iff (by decide)).mpr (Or.inr ⟨⟨ascii "http", ascii "a:81", some (ascii "b"), some (ascii "c"), some (ascii "d"),
    by decide, by decide, by decide, by decide, by decide⟩, by decide,
    ⟨ascii "a", some (ascii "81"), @Reads.plainPort (ascii "a") (ascii "81") (by decide) (by decide), by decide,
      fun h => absurd h (by decide), digits_small⟩, by decide⟩)

/-- The brackets of an address are not printed: `http://::1/` is read as the host `:` with port 1. -/
theorem brackets_not_printed : ¬ Survives (ascii "http://[::1]/") := by
  intro h
  have hread : parse (ascii "http://[::1]/") = .ok ⟨ascii "http", ascii "::1", 80, ascii "/", [], []⟩ := by decide
  exact absurd (h.again _ hread) (by decide)

end

end NeForce.UrlParser
