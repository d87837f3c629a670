import Mathlib
import NeForce.BigEndian
import NeForce.Runs

/-! # The HTTP response cache

`response_cache` keeps responses under a key of the method and the path, and `cache_filter` looks a request up before
the handler runs and stores the response after it. A visit is one request on its way through the router: what the
filters before the cache made of it, the two readings of the clock, and what the rest of the chain answered. -/

namespace NeForce.HttpCache

/-! ### Messages -/

abbrev Headers := Bytes → Option Bytes

structure Request where
  method : Bytes
  path : Bytes
  query : Bytes
  headers : Headers

/-- The value of a header field, empty where there is none. -/
def Request.header (r : Request) (name : Bytes) : Bytes := (r.headers name).getD []

structure Response where
  status : ℕ
  statusMessage : Bytes
  headers : Headers
  body : Bytes
  bodyRef : Bytes

def Response.header (r : Response) (name : Bytes) : Bytes := (r.headers name).getD []

def Response.setHeader (r : Response) (name value : Bytes) : Response :=
  { r with headers := Function.update r.headers name (some value) }

/-- The body that is sent. -/
def Response.effectiveBody (r : Response) : Bytes := if r.bodyRef = [] then r.body else r.bodyRef

def isGet (method : Bytes) : Bool := method = ascii "GET"

/-! ### The cache -/

/-- A reading of the calendar clock, in seconds, and of the steady clock, whose count is a signed 64-bit number. -/
structure Clock where
  now : ℤ
  steadyNs : ℕ
  steadyNs_lt : steadyNs < 2 ^ 63

def Clock.steadyMs (t : Clock) : ℕ := t.steadyNs / 1000000

structure CachedResponse where
  status : ℕ
  statusMessage : Bytes
  headers : Headers
  body : Bytes
  etag : Bytes
  cachedAt : ℤ
  maxAge : ℤ

structure Entry where
  response : CachedResponse
  lastAccessMs : ℕ

abbrev Entries := List (Bytes × Entry)

/-- The members of the cache and of the filter, the digest of the ETag, and the order in which the map is gone
through. -/
structure Config where
  enabled : Bool
  cacheOnlyGet : Bool
  defaultMaxAge : ℤ
  maxEntries : ℕ
  maxBodySize : ℕ
  sha1Hex : Bytes → Bytes
  scan : Entries → Entries
  scan_perm : ∀ entries, (scan entries).Perm entries

variable (cfg : Config)

def generateEtag (body : Bytes) : Bytes := 0x22 :: cfg.sha1Hex body ++ [0x22]

def buildKey (method url : Bytes) : Bytes := method ++ 0x3A :: url

/-- The difference of two dates, a 32-bit number of seconds. -/
def age (now cachedAt : ℤ) : ℤ := Int.bmod (now - cachedAt) (2 ^ 32)

/-- `entries_[key] = e`. -/
def store (entries : Entries) (key : Bytes) (e : Entry) : Entries := (key, e) :: entries.filter (·.1 ≠ key)

def get (entries : Entries) (key : Bytes) (t : Clock) : Entries × Option CachedResponse :=
  match entries.lookup key with
  | none => (entries, none)
  | some e =>
    if e.response.maxAge ≤ age t.now e.response.cachedAt then (entries, none)
    else (store entries key { e with lastAccessMs := t.steadyMs }, some e.response)

def evictLru (entries : Entries) : Entries :=
  let oldest := (cfg.scan entries).foldl
    (fun acc kv => if kv.2.lastAccessMs < acc.1 then (kv.2.lastAccessMs, kv.1) else acc) (2 ^ 64 - 1, [])
  if oldest.2 = [] then entries else entries.filter (·.1 ≠ oldest.2)

def put (entries : Entries) (key : Bytes) (response : Response) (t : Clock) (maxAge : ℤ) : Entries :=
  if cfg.maxBodySize < response.body.length then entries
  else
    let cached : CachedResponse := {
      status := response.status
      statusMessage := response.statusMessage
      headers := response.headers
      body := response.body
      etag := generateEtag cfg response.body
      cachedAt := t.now
      maxAge := if 0 < maxAge then maxAge else cfg.defaultMaxAge }
    let entries := if cfg.maxEntries ≤ entries.length then evictLru cfg entries else entries
    store entries key ⟨cached, t.steadyMs⟩

def remove (entries : Entries) (key : Bytes) : Entries := entries.filter (·.1 ≠ key)

def cleanup (entries : Entries) (now : ℤ) : Entries :=
  entries.filter fun kv => !decide (kv.2.response.maxAge ≤ age now kv.2.response.cachedAt)

/-! ### The filter -/

/-- What reaches `post_filter` after the rest of the chain. -/
structure Handled where
  request : Request
  response : Response
  clock : Clock

/-- A request when it comes to `pre_filter`; `handled` is absent where the chain ends before `post_filter`. -/
structure Visit where
  request : Request
  response : Response
  clock : Clock
  handled : Option Handled

/-- Whether the filter leaves a request alone; a filter without a cache counts as not enabled. -/
def passes (method : Bytes) : Bool := !cfg.enabled || (cfg.cacheOnlyGet && !isGet method)

/-- The entries, whether the chain goes on, and the response. -/
def preFilter (entries : Entries) (v : Visit) : Entries × Bool × Response :=
  if passes cfg v.request.method then (entries, true, v.response)
  else
    match get entries (buildKey v.request.method v.request.path) v.clock with
    | (entries, none) => (entries, true, v.response.setHeader (ascii "X-Cache") (ascii "MISS"))
    | (entries, some cached) =>
      let ifNoneMatch := v.request.header (ascii "If-None-Match")
      if ifNoneMatch ≠ [] ∧ ifNoneMatch = cached.etag then
        let response := { v.response with status := 304, statusMessage := ascii "Not Modified" }
        (entries, false, response.setHeader (ascii "ETag") cached.etag)
      else
        let response := { v.response with
          status := cached.status
          statusMessage := cached.statusMessage
          headers := cached.headers
          body := cached.body }
        (entries, false, (response.setHeader (ascii "ETag") cached.etag).setHeader (ascii "X-Cache") (ascii "HIT"))

/-- The directives that keep a response out of the cache. -/
def uncacheable : List Bytes := [ascii "no-cache", ascii "no-store", ascii "private"]

def postFilter (entries : Entries) (h : Handled) : Entries :=
  if passes cfg h.request.method then entries
  else if h.response.status ≠ 200 then entries
  else if uncacheable.any fun w => decide (w <:+: h.response.header (ascii "Cache-Control")) then entries
  else put cfg entries (buildKey h.request.method h.request.path) h.response h.clock (-1)

/-! ### Runs -/

/-- The entries, and the visits that the handler has answered so far. -/
structure State where
  entries : Entries
  answered : List Visit

def State.init : State := ⟨[], []⟩

inductive Event where
  | visit (v : Visit)
  | remove (key : Bytes)
  | cleanup (now : ℤ)
  | clear

def serve (s : State) (v : Visit) : State :=
  let (entries, goesOn, _) := preFilter cfg s.entries v
  match goesOn, v.handled with
  | true, some h => ⟨postFilter cfg entries h, s.answered ++ [v]⟩
  | _, _ => { s with entries := entries }

def exec (s : State) : Event → State
  | .visit v => serve cfg s v
  | .remove key => { s with entries := HttpCache.remove s.entries key }
  | .cleanup now => { s with entries := HttpCache.cleanup s.entries now }
  | .clear => { s with entries := [] }

def Step (s : State) (e : Event) (s' : State) : Prop := s' = exec cfg s e

/-! ### What is promised -/

/-- Letters in lower case. -/
def lower (l : Bytes) : Bytes := l.map fun c => if 0x41 ≤ c ∧ c ≤ 0x5A then c + 0x20 else c

/-- A list of directives has the directive `w`, in any case: it stands between separators. -/
def HasDirective (w value : Bytes) : Prop :=
  ∃ a token b, value = a ++ token ++ b ∧ lower token = w ∧ (∀ c ∈ a.getLast?, c ∈ ascii ", \t") ∧
    ∀ c ∈ b.head?, c ∈ ascii ", \t=;"

/-- The response carries one of the directives in a `Cache-Control` field, written in any case. -/
def ForbidsCaching (r : Response) : Prop :=
  ∃ name value, r.headers name = some value ∧ lower name = ascii "cache-control" ∧
    ∃ w ∈ uncacheable, HasDirective w value

/-- The response `r` to `v` is the one that `h` was, in an answer to `u`: the same response, or the note that the
client has its body already. -/
structure ServedFrom (v : Visit) (r : Response) (u : Visit) (h : Handled) : Prop where
  handled : u.handled = some h
  method : u.request.method = v.request.method
  path : u.request.path = v.request.path
  query : u.request.query = v.request.query
  fresh : v.clock.now - h.clock.now < cfg.defaultMaxAge
  allowed : ¬ ForbidsCaching h.response
  content :
    (r.status = 304 ∧ v.request.header (ascii "If-None-Match") = generateEtag cfg h.response.effectiveBody) ∨
      (r.status = h.response.status ∧ r.statusMessage = h.response.statusMessage ∧
        r.effectiveBody = h.response.effectiveBody ∧ ∀ name, name ≠ ascii "ETag" → name ≠ ascii "X-Cache" →
          r.headers name = h.response.headers name)

/-- A response whose `Cache-Control` field is written as the filter looks for it, with its body in `body`. -/
structure Plain (r : Response) : Prop where
  field : ∀ name value, r.headers name = some value → lower name = ascii "cache-control" →
    name = ascii "Cache-Control" ∧ lower value = value
  body : r.bodyRef = []

/-- A visit of the kind that the cache is right about. -/
structure Regular (s : State) (v : Visit) : Prop where
  query : ∀ u ∈ s.answered, u.request.method = v.request.method → u.request.path = v.request.path →
    u.request.query = v.request.query
  keeps : ∀ h ∈ v.handled, h.request.method = v.request.method ∧ h.request.path = v.request.path
  method : cfg.cacheOnlyGet = true ∨ 0x3A ∉ v.request.method
  plain : ∀ h ∈ v.handled, Plain h.response
  body : v.response.bodyRef = []
  clock : ∀ u ∈ s.answered, ∀ h ∈ u.handled, h.clock.now ≤ v.clock.now ∧ v.clock.now < h.clock.now + 2 ^ 31

def RegularEvent (s : State) : Event → Prop
  | .visit v => Regular cfg s v
  | _ => True

end NeForce.HttpCache
