import Mathlib.Data.List.Induction
import NeForce.HttpServer

/-! # The trie of routes

`route_trie`: the segments of a pattern are the edges from the root to the node of its handler.  The nodes of the
source are indices of a vector, and every node is made as the child of one other; here they are a tree.

What a trie finds is a walk through the list of the inserted patterns (`matchPath_eq_walk`): at each segment of the path one
edge is preferred among those of the patterns that are left, and the patterns that go on with another one are
dropped. -/

namespace NeForce.RouteTrie

open HttpServer (Params lower)

/-! ### Segments -/

def slash : UInt8 := 0x2F

/-- The segments of a path from a position on that are not empty, each with the text from its first byte on. -/
def segmentsLoop : ℕ → Bytes → List (Bytes × Bytes)
  | 0, _ => []
  | n + 1, text =>
      let segment := text.takeWhile (· ≠ slash)
      let next := segmentsLoop n (text.drop (segment.length + 1))
      if segment = [] then next else (segment, text) :: next

def segmentsFrom (text : Bytes) : List (Bytes × Bytes) := segmentsLoop text.length text

/-- The segments of a path; it begins with a slash. -/
def pathSegments : Bytes → Option (List (Bytes × Bytes))
  | c :: text => if c = slash then some (segmentsFrom text) else none
  | [] => none

/-- The three branches of `insert`. -/
inductive PatternSegment where
  | static (text : Bytes)
  | param (name : Bytes)
  | wildcard
deriving DecidableEq

def PatternSegment.ofBytes : Bytes → PatternSegment
  | 0x3A :: name => .param name
  | [0x2A] => .wildcard
  | text => .static text

def patternSegments (pattern : Bytes) : Option (List PatternSegment) :=
  (pathSegments pattern).map fun segments => segments.map fun s => .ofBytes s.1

/-! ### Tables -/

section

variable {V : Type}

/-- The value of a key, changed by `f`; a key that is not there gets `f new`. -/
def update (key : Bytes) (new : V) (f : V → V) : List (Bytes × V) → List (Bytes × V)
  | [] => [(key, f new)]
  | (k, v) :: table => if k = key then (k, f v) :: table else (k, v) :: update key new f table

theorem lookup_update (text key : Bytes) (new : V) (f : V → V) (table : List (Bytes × V)) :
    (update key new f table).lookup text =
      if text = key then some (f ((table.lookup text).getD new)) else table.lookup text := by
  induction table with
  | nil =>
      by_cases ht : text = key
      · simp [update, ht]
      · simp [update, ht, List.lookup_cons, beq_false_of_ne ht]
  | cons c table ih =>
      obtain ⟨k, c⟩ := c
      unfold update
      by_cases hk : k = key
      · subst hk
        by_cases ht : text = k
        · simp [ht]
        · simp [ht, List.lookup_cons, beq_false_of_ne ht]
      · rw [if_neg hk, List.lookup_cons, List.lookup_cons, ih]
        by_cases ht : text = k
        · simp [ht, hk]
        · rw [beq_false_of_ne ht]

theorem keys_update (key : Bytes) (new : V) (f : V → V) (table : List (Bytes × V)) :
    (update key new f table).map (·.1) =
      if key ∈ table.map (·.1) then table.map (·.1) else table.map (·.1) ++ [key] := by
  induction table with
  | nil => rfl
  | cons c table ih =>
      obtain ⟨k, c⟩ := c
      unfold update
      by_cases hk : k = key
      · simp [hk]
      · rw [if_neg hk, List.map_cons, ih, List.map_cons]
        by_cases hmem : key ∈ table.map (·.1)
        · rw [if_pos hmem, if_pos (List.mem_cons_of_mem _ hmem)]
        · have : key ∉ k :: table.map (·.1) := by
            rw [List.mem_cons]
            exact not_or.mpr ⟨Ne.symm hk, hmem⟩
          rw [if_neg hmem, if_neg this, List.cons_append]

end

/-! ### `insert` and `match` -/

structure Node (H : Type) where
  children : List (Bytes × Node H)
  paramChild : Option (Node H)
  wildcardChild : Option (Node H)
  paramName : Bytes
  handler : Option H

/-- The order in which a hash table shows its keys, given in the order in which they were inserted. -/
structure HashOrder where
  order : List Bytes → List Bytes
  mem_order : ∀ keys key, key ∈ order keys ↔ key ∈ keys

section

variable {H : Type}

def Node.empty : Node H := ⟨[], none, none, [], none⟩

/-- `route_trie::insert` from a node on. -/
def Node.insert : List PatternSegment → H → Node H → Node H
  | [], handler, t => { t with handler := some handler }
  | .param name :: segments, handler, t =>
      { t with paramChild := some ({ t.paramChild.getD empty with paramName := name }.insert segments handler) }
  | .wildcard :: segments, handler, t =>
      { t with wildcardChild := some ((t.wildcardChild.getD empty).insert segments handler) }
  | .static text :: segments, handler, t =>
      { t with children := update text empty (insert segments handler) t.children }

def Node.insertPattern (t : Node H) (pattern : Bytes) (handler : H) : Node H :=
  match patternSegments pattern with
  | some segments => t.insert segments handler
  | none => t

/-- The two strings are the same but for the case of their letters. -/
def SameLower (a b : Bytes) : Prop := a.map lower = b.map lower

instance (a b : Bytes) : Decidable (SameLower a b) := inferInstanceAs (Decidable (_ = _))

variable (caseSensitive : Bool) (hash : HashOrder)

/-- The key of the child for a segment. -/
def findKey (keys : List Bytes) (segment : Bytes) : Option Bytes :=
  if caseSensitive then (if segment ∈ keys then some segment else none)
  else (hash.order keys).find? fun key => SameLower key segment

/-- `route_trie::match` from a node on. -/
def Node.matchSegments : List (Bytes × Bytes) → Node H → Params → Option H × Params
  | [], t, params => (t.handler, params)
  | (segment, rest) :: segments, t, params =>
      match (findKey caseSensitive hash (t.children.map (·.1)) segment).bind fun key => t.children.lookup key with
      | some child => matchSegments segments child params
      | none =>
          match t.paramChild, t.wildcardChild with
          | some child, _ => matchSegments segments child (params ++ [(child.paramName, segment)])
          | none, some child => (child.handler, params ++ [([0x2A], rest)])
          | none, none => (none, params)

def Node.matchPath (t : Node H) (path : Bytes) : Option H × Params :=
  match pathSegments path with
  | some segments => t.matchSegments caseSensitive hash segments []
  | none => (none, [])

/-- `route_trie::contains_path` from a node on. -/
def Node.containsSegments : List (Bytes × Bytes) → Node H → Bool
  | [], t => t.handler.isSome
  | (segment, _) :: segments, t =>
      match (findKey caseSensitive hash (t.children.map (·.1)) segment).bind fun key => t.children.lookup key with
      | some child => containsSegments segments child
      | none =>
          match t.paramChild, t.wildcardChild with
          | some child, _ => containsSegments segments child
          | none, some _ => true
          | none, none => false

def Node.containsPath (t : Node H) (path : Bytes) : Bool :=
  match pathSegments path with
  | some segments => t.containsSegments caseSensitive hash segments
  | none => false

end

/-! ### Lists of patterns -/

/-- A pattern segment without the name of the parameter. -/
inductive Edge where
  | static (text : Bytes)
  | param
  | wildcard
deriving DecidableEq

def PatternSegment.edge : PatternSegment → Edge
  | .static text => .static text
  | .param _ => .param
  | .wildcard => .wildcard

section

variable {H : Type}

/-- A trie from its insertions. -/
def ofPatterns (ps : List (List PatternSegment × H)) : Node H := ps.foldl (fun t p => t.insert p.1 p.2) .empty

def stepAlong (e : Edge) : List PatternSegment × H → Option (List PatternSegment × H)
  | (s :: segments, handler) => if s.edge = e then some (segments, handler) else none
  | ([], _) => none

/-- The rest of the patterns that go on with an edge. -/
def after (e : Edge) (ps : List (List PatternSegment × H)) : List (List PatternSegment × H) := ps.filterMap (stepAlong e)

/-- The handler of the last pattern that ends here. -/
def lastHandler (ps : List (List PatternSegment × H)) : Option H := (ps.filter (·.1 = [])).getLast?.map (·.2)

/-- The name in the last pattern that goes on with a parameter. -/
def lastName (ps : List (List PatternSegment × H)) : Bytes :=
  ((ps.filterMap fun p => match p.1 with
    | .param name :: _ => some name
    | _ => none).getLast?).getD []

/-- The texts with which the patterns go on, in the order in which they come first. -/
def keys (ps : List (List PatternSegment × H)) : List Bytes :=
  ps.foldl (fun keys p => match p.1 with
    | .static text :: _ => if text ∈ keys then keys else keys ++ [text]
    | _ => keys) []

variable (caseSensitive : Bool) (hash : HashOrder)

/-- The edge that is taken for a segment: a static one before a parameter before a wildcard. -/
def preferred (ps : List (List PatternSegment × H)) (segment : Bytes) : Option Edge :=
  match findKey caseSensitive hash (keys ps) segment with
  | some key => some (.static key)
  | none =>
      if after .param ps ≠ [] then some .param
      else if after .wildcard ps ≠ [] then some .wildcard
      else none

def walk : List (Bytes × Bytes) → List (List PatternSegment × H) → Params → Option H × Params
  | [], ps, params => (lastHandler ps, params)
  | (segment, rest) :: segments, ps, params =>
      match preferred caseSensitive hash ps segment with
      | some (.static key) => walk segments (after (.static key) ps) params
      | some .param => walk segments (after .param ps) (params ++ [(lastName ps, segment)])
      | some .wildcard => (lastHandler (after .wildcard ps), params ++ [([0x2A], rest)])
      | none => (none, params)

end

/-! ### The trie as its patterns -/

section

variable {H : Type} {t : Node H} {ps : List (List PatternSegment × H)} {handler : H}

def Node.descend (t : Node H) : Edge → Option (Node H)
  | .static text => t.children.lookup text
  | .param => t.paramChild
  | .wildcard => t.wildcardChild

/-- A parameter node gets the name of the pattern that has come last. -/
def PatternSegment.name : PatternSegment → Node H → Node H
  | .param name, t => { t with paramName := name }
  | _, t => t

/-- What an insertion does to the children. -/
theorem Node.descend_insert (t : Node H) (s : PatternSegment) (segments : List PatternSegment) (handler : H) (e : Edge) :
    (t.insert (s :: segments) handler).descend e =
      if s.edge = e then some ((s.name ((t.descend e).getD .empty)).insert segments handler) else t.descend e := by
  cases s with
  | static text =>
      cases e with
      | static text' =>
          show (update _ _ _ _).lookup text' = _
          rw [lookup_update]
          by_cases h : text' = text
          · subst h
            rw [if_pos rfl]
            exact (if_pos rfl).symm
          · rw [if_neg h, if_neg (by rintro ⟨⟩; exact h rfl)]
            rfl
      | param | wildcard => rfl
  | param name => cases e <;> rfl
  | wildcard => cases e <;> rfl

theorem Node.insert_name (t : Node H) (name : Bytes) (segments : List PatternSegment) (handler : H) :
    { t with paramName := name }.insert segments handler = { t.insert segments handler with paramName := name } := by
  cases segments with
  | nil => rfl
  | cons s segments => cases s <;> rfl

theorem ofPatterns_append (ps : List (List PatternSegment × H)) (p : List PatternSegment × H) :
    ofPatterns (ps ++ [p]) = (ofPatterns ps).insert p.1 p.2 := List.foldl_concat ..

theorem after_append (e : Edge) (ps qs : List (List PatternSegment × H)) : after e (ps ++ qs) = after e ps ++ after e qs :=
  List.filterMap_append ..

theorem handler_ofPatterns (ps : List (List PatternSegment × H)) : (ofPatterns ps).handler = lastHandler ps := by
  induction ps using List.reverseRecOn with
  | nil => rfl
  | append_singleton ps p ih =>
      obtain ⟨segments, handler⟩ := p
      rw [ofPatterns_append, lastHandler, List.filter_append]
      cases segments with
      | nil => simp [Node.insert]
      | cons s segments =>
          have h : ((ofPatterns ps).insert (s :: segments) handler).handler = (ofPatterns ps).handler := by cases s <;> rfl
          rw [h, ih]
          simp [lastHandler]

theorem keys_ofPatterns (ps : List (List PatternSegment × H)) : (ofPatterns ps).children.map (·.1) = keys ps := by
  induction ps using List.reverseRecOn with
  | nil => rfl
  | append_singleton ps p ih =>
      obtain ⟨segments, handler⟩ := p
      rw [ofPatterns_append, keys, List.foldl_concat]
      match segments with
      | [] | .param _ :: _ | .wildcard :: _ => exact ih
      | .static text :: segments =>
          show (update _ _ _ _).map (·.1) = _
          rw [keys_update, ih]
          rfl

/-- The node of a parameter has the last name. -/
def named (e : Edge) (ps : List (List PatternSegment × H)) (t : Node H) : Node H :=
  match e with
  | .param => { t with paramName := lastName ps }
  | _ => t

theorem lastName_append (name : Bytes) (segments : List PatternSegment) (handler : H) :
    lastName (ps ++ [(.param name :: segments, handler)]) = name := by
  simp [lastName]

theorem lastName_append_ne {p : List PatternSegment × H} (h : stepAlong .param p = none) :
    lastName (ps ++ [p]) = lastName ps := by
  obtain ⟨segments, handler⟩ := p
  match segments with
  | [] | .static _ :: _ | .wildcard :: _ => simp [lastName]
  | .param _ :: _ => cases h

/-- **The children are the tries of the patterns that are left.** -/
theorem descend_ofPatterns (e : Edge) (ps : List (List PatternSegment × H)) :
    (ofPatterns ps).descend e = if after e ps = [] then none else some (named e ps (ofPatterns (after e ps))) := by
  induction ps using List.reverseRecOn with
  | nil => cases e <;> rfl
  | append_singleton ps p ih =>
      obtain ⟨segments, handler⟩ := p
      have hother (h : stepAlong e (segments, handler) = none) :
          named e (ps ++ [(segments, handler)]) (ofPatterns (after e (ps ++ [(segments, handler)]))) =
            named e ps (ofPatterns (after e ps)) ∧ after e (ps ++ [(segments, handler)]) = after e ps := by
        have ha : after e (ps ++ [(segments, handler)]) = after e ps := by
          rw [after_append, after, after, List.filterMap_cons_none h, List.filterMap_nil, List.append_nil]
        refine ⟨?_, ha⟩
        rw [ha]
        cases e with
        | static | wildcard => rfl
        | param => rw [named, named, lastName_append_ne h]
      rw [ofPatterns_append]
      cases segments with
      | nil =>
          obtain ⟨h1, h2⟩ := hother rfl
          rw [h1, h2, ← ih]
          cases e <;> rfl
      | cons s segments =>
          rw [Node.descend_insert, ih]
          by_cases hs : s.edge = e
          · have ha : after e (ps ++ [(s :: segments, handler)]) = after e ps ++ [(segments, handler)] := by
              rw [after_append, after, after]
              simp [stepAlong, hs]
            have hget : s.name ((if after e ps = [] then none else some (named e ps (ofPatterns (after e ps)))).getD .empty) =
                s.name (ofPatterns (after e ps)) := by
              split
              · next hnil => rw [hnil]; rfl
              · subst hs
                cases s <;> rfl
            rw [if_pos hs, hget, ha, if_neg (List.append_ne_nil_of_right_ne_nil _ (List.cons_ne_nil _ _)), ofPatterns_append]
            subst hs
            cases s with
            | static | wildcard => rfl
            | param name =>
                show some (Node.insert segments handler { ofPatterns (after .param ps) with paramName :=
                  name }) = some (named .param _ _)
                rw [Node.insert_name, named, lastName_append]
                rfl
          · obtain ⟨h1, h2⟩ := hother (if_neg hs)
            rw [if_neg hs, h1, h2]

variable {caseSensitive : Bool} {hash : HashOrder}

theorem findKey_mem {keys : List Bytes} {segment key : Bytes} (h : findKey caseSensitive hash keys segment = some key) :
    key ∈ keys := by
  unfold findKey at h
  split at h
  · split at h
    · next hmem =>
      cases h
      exact hmem
    · cases h
  · exact (hash.mem_order _ _).mp (List.mem_of_find?_eq_some h)

theorem mem_keys {text : Bytes} : text ∈ keys ps ↔ after (.static text) ps ≠ [] := by
  rw [← keys_ofPatterns, ← not_iff_not, not_not]
  have hd := descend_ofPatterns (.static text) ps
  constructor
  · intro h
    by_contra hne
    rw [if_neg hne] at hd
    obtain ⟨l₁, l₂, hl, -⟩ := List.lookup_eq_some_iff.mp hd
    rw [hl] at h
    simp at h
  · intro h
    rw [if_pos h] at hd
    intro hmem
    obtain ⟨⟨k, c⟩, hc, rfl⟩ := List.mem_map.mp hmem
    have := List.lookup_eq_none_iff.mp hd (k, c) hc
    simp at this

theorem Node.matchSegments_named (e : Edge) (segments : List (Bytes × Bytes)) (t : Node H) (params : Params) :
    (named e ps t).matchSegments caseSensitive hash segments params = t.matchSegments caseSensitive hash segments params := by
  cases e <;> cases segments <;> rfl

/-- The child for a segment. -/
theorem child_ofPatterns (ps : List (List PatternSegment × H)) (segment : Bytes) :
    ((findKey caseSensitive hash ((ofPatterns ps).children.map (·.1)) segment).bind fun key =>
      (ofPatterns ps).children.lookup key) =
    (findKey caseSensitive hash (keys ps) segment).map fun key => ofPatterns (after (.static key) ps) := by
  rw [keys_ofPatterns]
  cases hk : findKey caseSensitive hash (keys ps) segment with
  | none => rfl
  | some key =>
      have hd := descend_ofPatterns (.static key) ps
      rw [if_neg (mem_keys.mp (findKey_mem hk))] at hd
      exact hd

/-- **The match of a trie is a walk through its patterns.** -/
theorem matchSegments_eq_walk (segments : List (Bytes × Bytes)) (ps : List (List PatternSegment × H)) (params : Params) :
    (ofPatterns ps).matchSegments caseSensitive hash segments params = walk caseSensitive hash segments ps params := by
  induction segments generalizing ps params with
  | nil => rw [Node.matchSegments, walk, handler_ofPatterns]
  | cons s segments ih =>
      obtain ⟨segment, rest⟩ := s
      have hparam := descend_ofPatterns .param ps
      have hwild := descend_ofPatterns .wildcard ps
      rw [Node.matchSegments, walk, child_ofPatterns, preferred]
      cases findKey caseSensitive hash (keys ps) segment with
      | some key => exact ih _ _
      | none =>
          rw [show (ofPatterns ps).paramChild = _ from hparam, show (ofPatterns ps).wildcardChild = _ from hwild]
          by_cases hp : after .param ps = []
          · by_cases hw : after .wildcard ps = []
            · simp [hp, hw]
            · simp [hp, hw, named, handler_ofPatterns]
          · simp only [hp, if_false, Option.map_none, ne_eq, not_false_eq_true, if_true]
            rw [Node.matchSegments_named, ih]
            rfl

end

end NeForce.RouteTrie
