import NeForce.RouteLanguage

/-! # Routes of a server

`http_router`: the table of routes, the search for the handler of a request, the list of the methods that a path allows, and the
choice between a handler, 405 and 404.

`find_handler` and `allowed_methods` drop one trailing slash of the path, `resolve_handler` does not; `find_handler` asks a
route's regular expression for `search`, the other two for `match`; and `contains_path` is true for a wildcard without a
handler.  `consistent_iff` says when the three agree all the same.  The regular expressions are a parameter. -/

namespace NeForce.HttpRoutes

open HttpServer (Params)
open Env (trim)
open RouteTrie (Node HashOrder slash segmentsLoop segmentsFrom pathSegments update lookup_update keys_update)

/-- Regular expressions: the constructor, which may throw, the groups that `search` gives, and `match`. -/
structure Regex (R : Type) where
  compile : Bytes → Option R
  search : R → Bytes → Option (List Bytes)
  isMatch : R → Bytes → Bool

/-! ### The routes -/

/-- The characters that a pattern has in common with a regular expression and that are taken as they are. -/
def escaped : Bytes := ascii "/.?+^$|\\"

def isNameChar (c : UInt8) : Bool :=
  (0x41 ≤ c && c ≤ 0x5A) || (0x61 ≤ c && c ≤ 0x7A) || (0x30 ≤ c && c ≤ 0x39) || c = 0x5F

/-- The loop of `compile_pattern`: the regular expression and the names of the parameters, at most `n` steps. -/
def translate : ℕ → Bytes → Bytes × List Bytes
  | 0, _ => ([], [])
  | _, [] => ([], [])
  | n + 1, c :: rest =>
      if c = 0x3A then
        let name := rest.takeWhile isNameChar
        let r := translate n (rest.drop name.length)
        (ascii "([^/]+)" ++ r.1, name :: r.2)
      else
        let r := translate n rest
        (if c = 0x2A then ascii "(.*)" ++ r.1 else if c ∈ escaped then 0x5C :: c :: r.1 else c :: r.1, r.2)

variable {R H : Type} (rx : Regex R)

/-- `compile_pattern`. -/
def compilePattern (pattern : Bytes) : Option R × List Bytes :=
  if 0x28 ∈ pattern ∨ 0x5B ∈ pattern then (rx.compile (ascii "^" ++ pattern ++ ascii "$"), [])
  else if 0x3A ∈ pattern ∧ 0x2A ∈ pattern then (none, [])
  else
    let r := translate pattern.length pattern
    (rx.compile (ascii "^" ++ r.1 ++ ascii "$"), r.2)

/-- The pieces of a text between commas. -/
def splitCommas : ℕ → Bytes → List Bytes
  | 0, text => [text]
  | n + 1, text =>
      let piece := text.takeWhile (· ≠ 0x2C)
      match text.drop piece.length with
      | [] => [piece]
      | _ :: rest => piece :: splitCommas n rest

/-- `split_methods`: the last piece is not trimmed here, and it may be empty. -/
def splitMethods (text : Bytes) : List Bytes :=
  let pieces := splitCommas text.length text
  ((pieces.dropLast.map trim).filter (· ≠ [])) ++ pieces.getLast?.toList

structure RouteEntry (R H : Type) where
  pattern : Bytes
  handler : H
  paramNames : List Bytes
  /-- `regex_pattern`, if `is_regex`. -/
  regexPattern : Option R

/-- The two tables; a method without an entry has none. -/
structure Router (R H : Type) where
  routes : List (Bytes × List (RouteEntry R H))
  tries : List (Bytes × Node H)

/-- One turn of the loop in `route`. -/
def Router.routeMethod (r : Router R H) (path : Bytes) (handler : H) (method : Bytes) : Router R H :=
  let c := compilePattern rx path
  let routes := update method [] (· ++ [⟨path, handler, c.2, c.1⟩]) r.routes
  match c.1 with
  | some _ => { r with routes := routes }
  | none => ⟨routes, update method .empty (·.insertPattern path handler) r.tries⟩

/-- `http_router::route`. -/
def Router.route (r : Router R H) (methods path : Bytes) (handler : H) : Router R H :=
  if path = [] then r
  else
    let methods := if 0x2C ∈ methods then splitMethods methods else [methods]
    ((methods.map trim).filter (· ≠ [])).foldl (fun r m => r.routeMethod rx path handler m) r

/-- The registered routes: methods, path and handler of each call. -/
def Router.ofRoutes (calls : List (Bytes × Bytes × H)) : Router R H :=
  calls.foldl (fun r c => r.route rx c.1 c.2.1 c.2.2) ⟨[], []⟩

def Router.entries (r : Router R H) (method : Bytes) : List (RouteEntry R H) := (r.routes.lookup method).getD []

/-! ### The three functions -/

structure Settings where
  strictRouting : Bool
  caseSensitive : Bool
  hash : HashOrder

variable (s : Settings)

/-- The path without one trailing slash, unless routing is strict. -/
def Settings.searchPath (path : Bytes) : Bytes :=
  if !s.strictRouting && decide (1 < path.length) && decide (path.getLast? = some slash) then path.dropLast else path

/-- The parameters of a regular expression: groups with names, and numbers for the others. -/
def groupParams (names groups : List Bytes) : Params :=
  names.zip groups.tail ++ (groups.tail.drop names.length).zipIdx.map fun g =>
    (ascii (toString (names.length + g.2 + 1)), g.1)

/-- `find_handler`: the handler and the parameters that the request gets. -/
def Router.findHandler (r : Router R H) (method path : Bytes) : Option (H × Params) :=
  let searchPath := s.searchPath path
  match (r.tries.lookup method).map fun t => t.matchPath s.caseSensitive s.hash searchPath with
  | some (some handler, params) => some (handler, params)
  | _ =>
      (r.entries method).findSome? fun e =>
        (e.regexPattern.bind fun x => rx.search x searchPath).map fun groups => (e.handler, groupParams e.paramNames groups)

def RouteEntry.matches (e : RouteEntry R H) (path : Bytes) : Bool :=
  match e.regexPattern with
  | some x => rx.isMatch x path
  | none => false

def Router.trieContains (r : Router R H) (method path : Bytes) : Bool :=
  match r.tries.lookup method with
  | some t => t.containsPath s.caseSensitive s.hash path
  | none => false

/-- The methods in the list of `allowed_methods`. -/
def Router.allowed (r : Router R H) (path : Bytes) : List Bytes :=
  (s.hash.order (r.routes.map (·.1))).filter fun method =>
    r.trieContains s method (s.searchPath path) || (r.entries method).any (·.matches rx (s.searchPath path))

/-- `allowed_methods`. -/
def Router.allowedMethods (r : Router R H) (path : Bytes) : Bytes := (r.allowed rx s path).intersperse (ascii ", ") |>.flatten

/-- The three ends of `resolve_handler`. -/
inductive Answer (H : Type) where
  | run (handler : H) (params : Params)
  | methodNotAllowed
  | notFound

/-- `resolve_handler`, with the path as it is in the request. -/
def Router.resolveHandler (r : Router R H) (method path : Bytes) : Answer H :=
  match r.findHandler rx s method path with
  | some (handler, params) => .run handler params
  | none =>
      if r.tries.any (fun t => t.2.containsPath s.caseSensitive s.hash path) ||
          r.routes.any (fun m => m.2.any (·.matches rx path)) then .methodNotAllowed
      else .notFound

/-! ### Agreement -/

/-- The handler is run, 405 is answered and 404 is answered just when `find_handler` says so, and the list has just the
methods for which it finds one. -/
structure Consistent (r : Router R H) (method path : Bytes) : Prop where
  run : (∃ handler params, r.resolveHandler rx s method path = .run handler params) ↔
    (r.findHandler rx s method path).isSome = true
  notAllowed : r.resolveHandler rx s method path = .methodNotAllowed ↔
    r.findHandler rx s method path = none ∧
      ∃ m ∈ r.routes.map (·.1), m ≠ method ∧ (r.findHandler rx s m path).isSome = true
  notFound : r.resolveHandler rx s method path = .notFound ↔
    r.findHandler rx s method path = none ∧
      ∀ m ∈ r.routes.map (·.1), m ≠ method → r.findHandler rx s m path = none
  allowed : ∀ m, m ∈ r.allowed rx s path ↔ (r.findHandler rx s m path).isSome = true

/-- The trie of a method has a handler for the path. -/
def Router.TrieFinds (r : Router R H) (method path : Bytes) : Prop :=
  ∃ t, r.tries.lookup method = some t ∧ (t.matchPath s.caseSensitive s.hash path).1.isSome = true

/-- `search` succeeds for a regular expression of the method. -/
def Router.RegexFinds (r : Router R H) (method path : Bytes) : Prop :=
  ∃ e ∈ r.entries method, ∃ x, e.regexPattern = some x ∧ (rx.search x path).isSome = true

/-- `match` succeeds for a regular expression of the method. -/
def Router.RegexMatches (r : Router R H) (method path : Bytes) : Prop :=
  ∃ e ∈ r.entries method, ∃ x, e.regexPattern = some x ∧ rx.isMatch x path = true

/-- Where the trie of a method has no handler, a regular expression of the method is found by `search` just when one
is by `match`, or the trie ends at a wildcard; and where that finds nothing for the method, and no trie has the
path, a regular expression matches the path with its trailing slash just when one does without. -/
structure Agrees (r : Router R H) (method path : Bytes) : Prop where
  listed : ∀ m ∈ r.routes.map (·.1), ¬ r.TrieFinds s m (s.searchPath path) →
    (r.RegexFinds rx m (s.searchPath path) ↔
      r.trieContains s m (s.searchPath path) = true ∨ r.RegexMatches rx m (s.searchPath path))
  resolved : ¬ r.TrieFinds s method (s.searchPath path) → ¬ r.RegexFinds rx method (s.searchPath path) →
    (∀ m ∈ r.routes.map (·.1), r.trieContains s m (s.searchPath path) = false) →
    ((∃ m ∈ r.routes.map (·.1), r.RegexMatches rx m path) ↔
      ∃ m ∈ r.routes.map (·.1), r.RegexMatches rx m (s.searchPath path))

/-! ### The trailing slash -/

section

variable {H : Type} {caseSensitive : Bool} {hash : HashOrder}

theorem segmentsLoop_nil (n : ℕ) : segmentsLoop n [] = [] := by
  induction n with
  | zero => rfl
  | succ n ih => exact ih

theorem takeWhile_slash {before : Bytes} (h : slash ∉ before) (more : Bytes) :
    (before ++ slash :: more).takeWhile (· ≠ slash) = before := by
  rw [List.takeWhile_append_of_pos, List.takeWhile_cons_of_neg, List.append_nil]
  · simp
  · intro c hc
    exact decide_eq_true fun he => h (he ▸ hc)

/-- The loop at a slash. -/
theorem segmentsLoop_append {before : Bytes} (h : slash ∉ before) (more : Bytes) (n : ℕ) :
    (segmentsLoop (n + 1) (before ++ slash :: more)).map (·.1) =
      (if before = [] then [] else [before]) ++ (segmentsLoop n more).map (·.1) := by
  rw [segmentsLoop, takeWhile_slash h]
  have hdrop : (before ++ slash :: more).drop (before.length + 1) = more := by
    rw [← List.drop_drop, List.drop_left]
    rfl
  rw [hdrop]
  split <;> rfl

/-- A slash at the end adds no segment. -/
theorem segmentsLoop_slash {n m : ℕ} {text : Bytes} (hn : text.length ≤ n) (hm : text.length < m) :
    (segmentsLoop m (text ++ [slash])).map (·.1) = (segmentsLoop n text).map (·.1) := by
  induction n generalizing m text with
  | zero =>
      obtain rfl : text = [] := List.length_eq_zero_iff.mp (by omega)
      obtain ⟨m, rfl⟩ : ∃ j, m = j + 1 := ⟨m - 1, by simp at hm; omega⟩
      show (segmentsLoop m []).map _ = _
      rw [segmentsLoop_nil]
      rfl
  | succ n ih =>
      obtain ⟨m, rfl⟩ : ∃ j, m = j + 1 := ⟨m - 1, by omega⟩
      by_cases hslash : slash ∈ text
      · -- The first segment is the same, and the rest is shorter.
        obtain ⟨before, more, rfl, hbefore⟩ := List.eq_append_cons_of_mem hslash
        rw [List.length_append, List.length_cons] at hn hm
        rw [List.append_assoc, List.cons_append, segmentsLoop_append hbefore, segmentsLoop_append hbefore,
          ih (by omega) (by omega)]
      · have htake : text.takeWhile (· ≠ slash) = text := by
          have h : (text ++ []).takeWhile (· ≠ slash) = text ++ ([] : Bytes).takeWhile (· ≠ slash) :=
            List.takeWhile_append_of_pos fun c hc => decide_eq_true fun he => hslash (he ▸ hc)
          rwa [List.takeWhile_nil, List.append_nil] at h
        rw [segmentsLoop_append hslash, segmentsLoop_nil, segmentsLoop, htake, List.drop_eq_nil_of_le (Nat.le_succ _),
          segmentsLoop_nil]
        split <;> rfl

theorem containsSegments_congr {segments segments' : List (Bytes × Bytes)} (h : segments.map (·.1) = segments'.map (·.1))
    (t : Node H) : t.containsSegments caseSensitive hash segments = t.containsSegments caseSensitive hash segments' := by
  induction segments generalizing segments' t with
  | nil =>
      cases segments' with
      | nil => rfl
      | cons _ _ => cases h
  | cons a segments ih =>
      cases segments' with
      | nil => cases h
      | cons a' segments' =>
          obtain ⟨h1, h2⟩ := List.cons.inj h
          obtain ⟨segment, rest⟩ := a
          obtain ⟨segment', rest'⟩ := a'
          obtain rfl : segment = segment' := h1
          have ih' (t : Node H) := ih h2 t
          simp only [Node.containsSegments, ih']

theorem containsPath_slash (t : Node H) {path : Bytes} (h : path ≠ []) :
    t.containsPath caseSensitive hash (path ++ [slash]) = t.containsPath caseSensitive hash path := by
  cases path with
  | nil => exact absurd rfl h
  | cons c text =>
      rw [Node.containsPath, Node.containsPath, List.cons_append, pathSegments, pathSegments]
      by_cases hc : c = slash
      · rw [if_pos hc, if_pos hc]
        refine containsSegments_congr ?_ t
        rw [segmentsFrom, segmentsFrom]
        exact segmentsLoop_slash le_rfl (by rw [List.length_append]; exact Nat.lt_succ_self _)
      · rw [if_neg hc, if_neg hc]

/-- A trie does not see the trailing slash. -/
theorem containsPath_searchPath (s : Settings) (t : Node H) (path : Bytes) :
    t.containsPath caseSensitive hash (s.searchPath path) = t.containsPath caseSensitive hash path := by
  unfold Settings.searchPath
  split
  · next h =>
    simp only [Bool.and_eq_true, decide_eq_true_eq] at h
    obtain ⟨⟨-, hlen⟩, hlast⟩ := h
    have hpath := List.dropLast_append_getLast? slash hlast
    have hne : path.dropLast ≠ [] := by
      intro hnil
      have := congrArg List.length hpath
      rw [hnil] at this
      simp at this
      omega
    conv_rhs => rw [← hpath]
    rw [containsPath_slash t hne]
  · rfl

/-- Where `match` finds a handler, `contains_path` is true. -/
theorem containsSegments_of_match {segments : List (Bytes × Bytes)} {t : Node H} {params : Params}
    (h : (t.matchSegments caseSensitive hash segments params).1.isSome = true) :
    t.containsSegments caseSensitive hash segments = true := by
  induction segments generalizing t params with
  | nil => exact h
  | cons a segments ih =>
      obtain ⟨segment, rest⟩ := a
      rw [Node.matchSegments] at h
      rw [Node.containsSegments]
      split at h
      · exact ih h
      · split at h
        · exact ih h
        · rfl
        · cases h

theorem containsPath_of_match {t : Node H} {path : Bytes}
    (h : (t.matchPath caseSensitive hash path).1.isSome = true) : t.containsPath caseSensitive hash path = true := by
  unfold Node.matchPath at h
  unfold Node.containsPath
  split at h
  · exact containsSegments_of_match h
  · cases h

end

/-! ### The tables -/

section

variable {R H : Type} {rx : Regex R} {s : Settings} {r : Router R H} {method path : Bytes}

/-- Every method is once in the table of routes, and those with a trie are among them. -/
structure Router.Sound (r : Router R H) : Prop where
  nodupTries : (r.tries.map (·.1)).Nodup
  nodupRoutes : (r.routes.map (·.1)).Nodup
  subset : ∀ m ∈ r.tries.map (·.1), m ∈ r.routes.map (·.1)

theorem mem_keys_update {V : Type} {key m : Bytes} {new : V} {f : V → V} {table : List (Bytes × V)} :
    m ∈ (update key new f table).map (·.1) ↔ m = key ∨ m ∈ table.map (·.1) := by
  rw [keys_update]
  split
  · next h =>
    refine ⟨.inr, ?_⟩
    rintro (rfl | hm)
    · exact h
    · exact hm
  · rw [List.mem_append, List.mem_singleton, or_comm]

theorem nodup_keys_update {V : Type} {key : Bytes} {new : V} {f : V → V} {table : List (Bytes × V)}
    (h : (table.map (·.1)).Nodup) : ((update key new f table).map (·.1)).Nodup := by
  rw [keys_update]
  split
  · exact h
  · next hkey => exact List.nodup_append.mpr ⟨h, List.nodup_singleton _,
    by rintro a ha b hb rfl; exact hkey (List.mem_singleton.mp hb ▸ ha)⟩

theorem Router.Sound.routeMethod (h : r.Sound) (path : Bytes) (handler : H) (method : Bytes) :
    (r.routeMethod rx path handler method).Sound := by
  unfold Router.routeMethod
  dsimp only
  split
  · exact ⟨h.nodupTries, nodup_keys_update h.nodupRoutes, fun m hm => mem_keys_update.mpr (.inr (h.subset m hm))⟩
  · refine ⟨nodup_keys_update h.nodupTries, nodup_keys_update h.nodupRoutes, fun m hm => ?_⟩
    exact mem_keys_update.mpr ((mem_keys_update.mp hm).imp_right (h.subset m))

theorem Router.sound_ofRoutes (calls : List (Bytes × Bytes × H)) : (Router.ofRoutes rx calls).Sound := by
  have hroute (r : Router R H) (hr : r.Sound) (c : Bytes × Bytes × H) : (r.route rx c.1 c.2.1 c.2.2).Sound := by
    unfold Router.route
    split
    · exact hr
    · exact List.foldlRecOn _ _ hr fun r hr m _ => hr.routeMethod _ _ m
  exact List.foldlRecOn _ _ ⟨List.nodup_nil, List.nodup_nil, nofun⟩ fun r hr c _ => hroute r hr c

theorem lookup_of_mem {V : Type} {table : List (Bytes × V)} (h : (table.map (·.1)).Nodup) {p : Bytes × V}
    (hp : p ∈ table) : table.lookup p.1 = some p.2 := by
  induction table with
  | nil => cases hp
  | cons q table ih =>
      rw [List.map_cons, List.nodup_cons] at h
      rw [List.lookup_cons]
      obtain rfl | hp := List.mem_cons.mp hp
      · rw [beq_self_eq_true]
      · have hne : p.1 ≠ q.1 := fun he => h.1 (he ▸ List.mem_map_of_mem hp)
        rw [beq_false_of_ne hne]
        exact ih h.2 hp

theorem mem_keys_of_lookup {V : Type} {table : List (Bytes × V)} {m : Bytes} {v : V} (h : table.lookup m = some v) :
    (m, v) ∈ table := by
  obtain ⟨l₁, l₂, hl, -⟩ := List.lookup_eq_some_iff.mp h
  rw [hl]
  exact List.mem_append_right _ List.mem_cons_self

theorem findHandler_isSome :
    (r.findHandler rx s method path).isSome = true ↔
      r.TrieFinds s method (s.searchPath path) ∨ r.RegexFinds rx method (s.searchPath path) := by
  have hregex : ((r.entries method).findSome? fun e => (e.regexPattern.bind fun x =>
      rx.search x (s.searchPath path)).map fun groups => (e.handler, groupParams e.paramNames groups)).isSome = true ↔
      r.RegexFinds rx method (s.searchPath path) := by
    rw [List.isSome_findSome?, List.any_eq_true]
    refine exists_congr fun e => and_congr_right fun _ => ?_
    cases e.regexPattern <;> simp
  unfold Router.findHandler Router.TrieFinds
  cases htrie : r.tries.lookup method with
  | none => simpa using hregex
  | some t =>
      cases hmatch : t.matchPath s.caseSensitive s.hash (s.searchPath path) with
      | mk handler params =>
          cases handler with
          | none => simpa [hmatch] using hregex
          | some handler => simp [hmatch]

theorem mem_routes_of_findHandler (hr : r.Sound) (h : (r.findHandler rx s method path).isSome = true) :
    method ∈ r.routes.map (·.1) := by
  obtain ⟨t, ht, -⟩ | ⟨e, he, -⟩ := findHandler_isSome.mp h
  · exact hr.subset method (List.mem_map_of_mem (mem_keys_of_lookup ht))
  · unfold Router.entries at he
    cases hl : r.routes.lookup method with
    | none =>
        rw [hl] at he
        cases he
    | some es => exact List.mem_map_of_mem (mem_keys_of_lookup hl)

theorem trieContains_searchPath : r.trieContains s method (s.searchPath path) = r.trieContains s method path := by
  unfold Router.trieContains
  cases r.tries.lookup method with
  | none => rfl
  | some t => exact containsPath_searchPath s t path

theorem trieContains_of_finds (h : r.TrieFinds s method path) : r.trieContains s method path = true := by
  obtain ⟨t, ht, hmatch⟩ := h
  rw [Router.trieContains, ht]
  exact containsPath_of_match hmatch

theorem any_matches : (r.entries method).any (·.matches rx path) = true ↔ r.RegexMatches rx method path := by
  rw [List.any_eq_true]
  refine exists_congr fun e => and_congr_right fun _ => ?_
  unfold RouteEntry.matches
  cases e.regexPattern <;> simp

theorem mem_allowed : method ∈ r.allowed rx s path ↔ method ∈ r.routes.map (·.1) ∧
    (r.trieContains s method (s.searchPath path) = true ∨ r.RegexMatches rx method (s.searchPath path)) := by
  rw [Router.allowed, List.mem_filter, s.hash.mem_order, Bool.or_eq_true, any_matches]

/-- Some method has the path, as `resolve_handler` sees it. -/
def Router.PathExists (rx : Regex R) (s : Settings) (r : Router R H) (path : Bytes) : Prop :=
  ∃ m ∈ r.routes.map (·.1), r.trieContains s m path = true ∨ r.RegexMatches rx m path

theorem pathExists_iff (hr : r.Sound) : (r.tries.any (fun t => t.2.containsPath s.caseSensitive s.hash path) ||
    r.routes.any (fun m => m.2.any (·.matches rx path))) = true ↔ r.PathExists rx s path := by
  rw [Bool.or_eq_true, List.any_eq_true, List.any_eq_true]
  constructor
  · rintro (⟨p, hp, hc⟩ | ⟨p, hp, hm⟩)
    · refine ⟨p.1, hr.subset _ (List.mem_map_of_mem hp), .inl ?_⟩
      rw [Router.trieContains, lookup_of_mem hr.nodupTries hp]
      exact hc
    · refine ⟨p.1, List.mem_map_of_mem hp, .inr (any_matches.mp ?_)⟩
      rw [Router.entries, lookup_of_mem hr.nodupRoutes hp]
      exact hm
  · rintro ⟨m, -, hc | hm⟩
    · left
      unfold Router.trieContains at hc
      cases ht : r.tries.lookup m with
      | none =>
          rw [ht] at hc
          cases hc
      | some t =>
          rw [ht] at hc
          exact ⟨(m, t), mem_keys_of_lookup ht, hc⟩
    · right
      have hm := any_matches.mpr hm
      unfold Router.entries at hm
      cases hes : r.routes.lookup m with
      | none =>
          rw [hes] at hm
          cases hm
      | some es =>
          rw [hes] at hm
          exact ⟨(m, es), mem_keys_of_lookup hes, hm⟩

/-- The three ends of `resolve_handler`. -/
theorem resolveHandler_cases (hr : r.Sound) :
    (∃ p, r.findHandler rx s method path = some p ∧ r.resolveHandler rx s method path = .run p.1 p.2) ∨
      (r.findHandler rx s method path = none ∧ r.PathExists rx s path ∧
        r.resolveHandler rx s method path = .methodNotAllowed) ∨
      (r.findHandler rx s method path = none ∧ ¬ r.PathExists rx s path ∧
        r.resolveHandler rx s method path = .notFound) := by
  unfold Router.resolveHandler
  cases hf : r.findHandler rx s method path with
  | some p => exact .inl ⟨p, rfl, rfl⟩
  | none =>
      by_cases hp : r.PathExists rx s path
      · exact .inr (.inl ⟨rfl, hp, if_pos ((pathExists_iff hr).mpr hp)⟩)
      · exact .inr (.inr ⟨rfl, hp, if_neg fun h => hp ((pathExists_iff hr).mp h)⟩)

/-- The list is right just when `search` and `match` agree where no trie has a handler. -/
theorem allowed_iff (hr : r.Sound) :
    (∀ m, m ∈ r.allowed rx s path ↔ (r.findHandler rx s m path).isSome = true) ↔
      ∀ m ∈ r.routes.map (·.1), ¬ r.TrieFinds s m (s.searchPath path) →
        (r.RegexFinds rx m (s.searchPath path) ↔
          r.trieContains s m (s.searchPath path) = true ∨ r.RegexMatches rx m (s.searchPath path)) := by
  constructor
  · intro h m hm htrie
    have hiff := h m
    rw [mem_allowed, findHandler_isSome, or_iff_right htrie] at hiff
    exact ⟨fun hf => (hiff.mpr hf).2, fun hc => hiff.mp ⟨hm, hc⟩⟩
  · intro h m
    rw [mem_allowed, findHandler_isSome]
    constructor
    · rintro ⟨hm, hc⟩
      by_cases htrie : r.TrieFinds s m (s.searchPath path)
      · exact .inl htrie
      · exact .inr ((h m hm htrie).mpr hc)
    · intro hf
      have hm := mem_routes_of_findHandler hr (findHandler_isSome.mpr hf)
      refine ⟨hm, ?_⟩
      by_cases htrie : r.TrieFinds s m (s.searchPath path)
      · exact .inl (trieContains_of_finds htrie)
      · exact (h m hm htrie).mp (hf.resolve_left htrie)

/-- With a right list, `resolve_handler` sees the path for some method just when some method has a handler for it. -/
theorem pathExists_agrees (hlist : ∀ m, m ∈ r.allowed rx s path ↔ (r.findHandler rx s m path).isSome = true) :
    (r.findHandler rx s method path = none →
      (r.PathExists rx s path ↔ ∃ m ∈ r.routes.map (·.1), (r.findHandler rx s m path).isSome = true)) ↔
    (¬ r.TrieFinds s method (s.searchPath path) → ¬ r.RegexFinds rx method (s.searchPath path) →
      (∀ m ∈ r.routes.map (·.1), r.trieContains s m (s.searchPath path) = false) →
      ((∃ m ∈ r.routes.map (·.1), r.RegexMatches rx m path) ↔
        ∃ m ∈ r.routes.map (·.1), r.RegexMatches rx m (s.searchPath path))) := by
  have hfind (m : Bytes) (hm : m ∈ r.routes.map (·.1)) : (r.findHandler rx s m path).isSome = true ↔
      r.trieContains s m (s.searchPath path) = true ∨ r.RegexMatches rx m (s.searchPath path) := by
    rw [← hlist m, mem_allowed, and_iff_right hm]
  have hnone : r.findHandler rx s method path = none ↔
      ¬ r.TrieFinds s method (s.searchPath path) ∧ ¬ r.RegexFinds rx method (s.searchPath path) := by
    rw [← not_or, ← findHandler_isSome, Bool.not_eq_true, Option.isSome_eq_false_iff, Option.isNone_iff_eq_none]
  have hboth : (∀ m ∈ r.routes.map (·.1), r.trieContains s m (s.searchPath path) = false) →
      ((r.PathExists rx s path ↔ ∃ m ∈ r.routes.map (·.1), r.RegexMatches rx m path) ∧
        ((∃ m ∈ r.routes.map (·.1), (r.findHandler rx s m path).isSome = true) ↔
          ∃ m ∈ r.routes.map (·.1), r.RegexMatches rx m (s.searchPath path))) := by
    intro hno
    constructor
    · refine exists_congr fun m => and_congr_right fun hm => ?_
      rw [← trieContains_searchPath, hno m hm]
      exact or_iff_right Bool.false_ne_true
    · refine exists_congr fun m => and_congr_right fun hm => ?_
      rw [hfind m hm, hno m hm]
      exact or_iff_right Bool.false_ne_true
  constructor
  · intro h htrie hregex hno
    obtain ⟨h1, h2⟩ := hboth hno
    rw [← h1, ← h2]
    exact h (hnone.mpr ⟨htrie, hregex⟩)
  · intro h hf
    obtain ⟨htrie, hregex⟩ := hnone.mp hf
    by_cases hno : ∀ m ∈ r.routes.map (·.1), r.trieContains s m (s.searchPath path) = false
    · obtain ⟨h1, h2⟩ := hboth hno
      rw [h1, h2]
      exact h htrie hregex hno
    · -- A trie that has the path decides both.
      push Not at hno
      obtain ⟨m, hm, hc⟩ := hno
      have hc := Bool.eq_true_of_not_eq_false hc
      refine iff_of_true ⟨m, hm, .inl ?_⟩ ⟨m, hm, (hfind m hm).mpr (.inl hc)⟩
      rw [← trieContains_searchPath]
      exact hc

/-- The ends of `resolve_handler` are right just when it sees the path for the right methods. -/
theorem ends_iff (hr : r.Sound) :
    ((r.resolveHandler rx s method path = .methodNotAllowed ↔ r.findHandler rx s method path = none ∧
        ∃ m ∈ r.routes.map (·.1), m ≠ method ∧ (r.findHandler rx s m path).isSome = true) ∧
      (r.resolveHandler rx s method path = .notFound ↔ r.findHandler rx s method path = none ∧
        ∀ m ∈ r.routes.map (·.1), m ≠ method → r.findHandler rx s m path = none)) ↔
    (r.findHandler rx s method path = none →
      (r.PathExists rx s path ↔ ∃ m ∈ r.routes.map (·.1), (r.findHandler rx s m path).isSome = true)) := by
  have hother (hf : r.findHandler rx s method path = none) :
      (∃ m ∈ r.routes.map (·.1), m ≠ method ∧ (r.findHandler rx s m path).isSome = true) ↔
        ∃ m ∈ r.routes.map (·.1), (r.findHandler rx s m path).isSome = true := by
    refine exists_congr fun m => and_congr_right fun _ => ⟨And.right, fun h => ⟨?_, h⟩⟩
    rintro rfl
    rw [hf] at h
    cases h
  have hnone : (∀ m ∈ r.routes.map (·.1), m ≠ method → r.findHandler rx s m path = none) ↔
      ¬ ∃ m ∈ r.routes.map (·.1), m ≠ method ∧ (r.findHandler rx s m path).isSome = true := by
    push Not
    refine forall_congr' fun m => forall_congr' fun _ => forall_congr' fun _ => ?_
    rw [ne_eq, Bool.not_eq_true, Option.isSome_eq_false_iff, Option.isNone_iff_eq_none]
  rw [hnone]
  rcases @resolveHandler_cases R H rx s r method path hr with
    ⟨p, hf, hres⟩ | ⟨hf, hp, hres⟩ | ⟨hf, hp, hres⟩
  · rw [hres, hf]
    simp
  · rw [hres, hother hf]
    generalize (∃ m ∈ r.routes.map (·.1), (r.findHandler rx s m path).isSome = true) = found
    simp [hf, hp]
  · rw [hres, hother hf]
    generalize (∃ m ∈ r.routes.map (·.1), (r.findHandler rx s m path).isSome = true) = found
    simp [hf, hp]

/-- **When the three functions agree.** -/
theorem consistent_iff (rx : Regex R) (s : Settings) (calls : List (Bytes × Bytes × H)) (method path : Bytes) :
    Consistent rx s (.ofRoutes rx calls) method path ↔ Agrees rx s (.ofRoutes rx calls) method path := by
  have hr : (Router.ofRoutes rx calls).Sound := Router.sound_ofRoutes calls
  generalize Router.ofRoutes rx calls = r at hr
  constructor
  · intro h
    refine ⟨(allowed_iff hr).mp h.allowed, ?_⟩
    exact (pathExists_agrees h.allowed).mp ((ends_iff hr).mp ⟨h.notAllowed, h.notFound⟩)
  · intro h
    have hlist := (allowed_iff hr).mpr h.listed
    obtain ⟨h1, h2⟩ := (ends_iff hr).mpr ((pathExists_agrees hlist).mpr h.resolved)
    refine ⟨?_, h1, h2, hlist⟩
    rcases @resolveHandler_cases R H rx s r method path hr with
      ⟨p, hf, hres⟩ | ⟨hf, -, hres⟩ | ⟨hf, -, hres⟩
    · rw [hf, hres]
      exact iff_of_true ⟨_, _, rfl⟩ rfl
    · rw [hf, hres]
      exact iff_of_false (by rintro ⟨_, _, h⟩; cases h) Bool.false_ne_true
    · rw [hf, hres]
      exact iff_of_false (by rintro ⟨_, _, h⟩; cases h) Bool.false_ne_true

end

/-- Regular expressions without operators: a text with escapes between `^` and `$`. -/
def literalRegex : Regex Bytes where
  compile text := some (text.tail.dropLast.filter (· ≠ 0x5C))
  search x path := if x = path then some [path] else none
  isMatch x path := decide (x = path)

/-- Routing that is not strict, over tables in the order of insertion. -/
def lenient : Settings := ⟨false, true, RouteTrie.insertionOrder⟩

/-- A `POST` to `/a/`, where `GET` to `/a` is registered, is answered with 404. -/
theorem trailing_slash_notFound :
    ¬ Consistent literalRegex lenient (.ofRoutes literalRegex [(ascii "GET", ascii "/a", ())]) (ascii "POST")
      (ascii "/a/") := by
  intro h
  have hfound : Router.resolveHandler literalRegex lenient
      (.ofRoutes literalRegex [(ascii "GET", ascii "/a", ())]) (ascii "POST") (ascii "/a/") = .notFound := rfl
  have hget : (Router.findHandler literalRegex lenient
      (.ofRoutes literalRegex [(ascii "GET", ascii "/a", ())]) (ascii "GET") (ascii "/a/")).isSome = true := by
    decide
  rw [(h.notFound.mp hfound).2 (ascii "GET") (by decide) (by decide)] at hget
  cases hget

end NeForce.HttpRoutes
