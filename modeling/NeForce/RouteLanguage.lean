import Mathlib
import NeForce.RouteTrie

/-! # What the trie of routes finds

The patterns as a language: the path has the segments of a pattern, one by one, and a wildcard at the end stands for the rest
of the path.  `route_trie::match` goes down without turning back, and a node has one name for the parameters of all
patterns that share it.  So a pattern that matches is found with its parameters if and only if none of its edges is
overtaken by another pattern's, its names are the last ones given to its nodes, and no later pattern has the same
edges (`matches_iff`). -/

namespace NeForce.RouteTrie

open HttpServer (Params lower)

/-! ### The language -/

/-- The text of a pattern and a segment of a path are the same, up to case if cases do not matter. -/
def SameText (caseSensitive : Bool) (text segment : Bytes) : Prop :=
  if caseSensitive then text = segment else SameLower text segment

instance (caseSensitive : Bool) (text segment : Bytes) : Decidable (SameText caseSensitive text segment) := by
  unfold SameText
  infer_instance

section

variable (caseSensitive : Bool)

/-- The parameters of a pattern in a path that it matches. -/
def bindSegments : List PatternSegment → List (Bytes × Bytes) → Option Params
  | [], [] => some []
  | .static text :: pattern, (segment, _) :: segments =>
      if SameText caseSensitive text segment then bindSegments pattern segments else none
  | .param name :: pattern, (segment, _) :: segments =>
      (bindSegments pattern segments).map fun params => (name, segment) :: params
  | [.wildcard], (_, rest) :: _ => some [([0x2A], rest)]
  | _, _ => none

/-- The insertions of some patterns; the handler of a pattern is its number. -/
def numbered (patterns : List Bytes) : List (List PatternSegment × ℕ) :=
  patterns.zipIdx.filterMap fun p => (patternSegments p.1).map fun segments => (segments, p.2)

variable (hash : HashOrder)

/-- What `match` gives after some insertions: the number of the pattern whose handler is returned, and the
parameters. -/
def matchOf (patterns : List Bytes) (path : Bytes) : Option ℕ × Params :=
  (patterns.zipIdx.foldl (fun (t : Node ℕ) p => t.insertPattern p.1 p.2) .empty).matchPath caseSensitive hash path

/-- A pattern matches a path, with these parameters. -/
def Binds (patterns : List Bytes) (path : Bytes) (i : ℕ) (params : Params) : Prop :=
  ∃ pattern segments, (pattern, i) ∈ numbered patterns ∧ pathSegments path = some segments ∧
    bindSegments caseSensitive pattern segments = some params

/-- **The pattern language is implemented**, for some patterns and a path. -/
def Implements (patterns : List Bytes) (path : Bytes) : Prop :=
  ((matchOf caseSensitive hash patterns path).1.isSome = true ↔ ∃ i params, Binds caseSensitive patterns path i params) ∧
    ∀ i, (matchOf caseSensitive hash patterns path).1 = some i →
      Binds caseSensitive patterns path i (matchOf caseSensitive hash patterns path).2

/-- Nothing hides a pattern from a path: for each segment of the path the pattern has the preferred edge among the
patterns that share its edges so far, and the name given last to that edge; it is the last one with all its
edges. -/
def Unhidden : List PatternSegment → ℕ → List (List PatternSegment × ℕ) → List (Bytes × Bytes) → Prop
  | .static text :: pattern, i, ps, (segment, _) :: segments =>
      preferred caseSensitive hash ps segment = some (.static text) ∧
        Unhidden pattern i (after (.static text) ps) segments
  | .param name :: pattern, i, ps, (segment, _) :: segments =>
      preferred caseSensitive hash ps segment = some .param ∧ lastName ps = name ∧
        Unhidden pattern i (after .param ps) segments
  | .wildcard :: _, i, ps, (segment, _) :: _ =>
      preferred caseSensitive hash ps segment = some .wildcard ∧ lastHandler (after .wildcard ps) = some i
  | [], i, ps, [] => lastHandler ps = some i
  | _, _, _, _ => False

/-- The condition: a pattern that matches is not hidden, if there is one that matches. -/
def Clear (patterns : List Bytes) (path : Bytes) : Prop :=
  (∃ i params, Binds caseSensitive patterns path i params) →
    ∃ pattern i segments params, (pattern, i) ∈ numbered patterns ∧ pathSegments path = some segments ∧
      bindSegments caseSensitive pattern segments = some params ∧
      Unhidden caseSensitive hash pattern i (numbered patterns) segments

end

/-! ### Walks -/

section

variable {caseSensitive : Bool} {hash : HashOrder} {H : Type}

theorem foldl_insertPattern (calls : List (Bytes × H)) (t : Node H) :
    calls.foldl (fun t p => t.insertPattern p.1 p.2) t =
      (calls.filterMap fun p => (patternSegments p.1).map fun segments => (segments, p.2)).foldl
        (fun t p => t.insert p.1 p.2) t := by
  induction calls generalizing t with
  | nil => rfl
  | cons p calls ih =>
      rw [List.foldl_cons, ih, Node.insertPattern]
      cases hp : patternSegments p.1 with
      | none => rw [List.filterMap_cons_none (by rw [hp]; rfl)]
      | some segments =>
          rw [List.filterMap_cons_some (by rw [hp]; rfl)]
          rfl

theorem matchOf_eq (patterns : List Bytes) {path : Bytes} {segments : List (Bytes × Bytes)}
    (h : pathSegments path = some segments) :
    matchOf caseSensitive hash patterns path = walk caseSensitive hash segments (numbered patterns) [] := by
  rw [matchOf, foldl_insertPattern, Node.matchPath, h]
  exact matchSegments_eq_walk segments (numbered patterns) []

theorem mem_after {e : Edge} {ps : List (List PatternSegment × H)} {pattern : List PatternSegment} {h : H}
    (hmem : (pattern, h) ∈ after e ps) : ∃ s, s.edge = e ∧ (s :: pattern, h) ∈ ps := by
  obtain ⟨⟨pattern', h'⟩, hp, hs⟩ := List.mem_filterMap.mp hmem
  match pattern' with
  | [] => cases hs
  | s :: rest =>
      rw [stepAlong] at hs
      split at hs
      · next he =>
        cases hs
        exact ⟨s, he, hp⟩
      · cases hs

theorem mem_of_lastHandler {ps : List (List PatternSegment × H)} {h : H} (hl : lastHandler ps = some h) :
    ([], h) ∈ ps := by
  obtain ⟨⟨pattern, h'⟩, hp, rfl⟩ := Option.map_eq_some_iff.mp hl
  obtain ⟨hmem, hnil⟩ := List.mem_filter.mp (List.mem_of_getLast? hp)
  obtain rfl : pattern = [] := of_decide_eq_true hnil
  exact hmem

theorem sameText_of_findKey {keys : List Bytes} {segment key : Bytes}
    (h : findKey caseSensitive hash keys segment = some key) : SameText caseSensitive key segment := by
  unfold findKey at h
  unfold SameText
  cases caseSensitive with
  | true =>
      rw [if_pos rfl] at h ⊢
      split at h
      · cases h
        rfl
      · cases h
  | false =>
      rw [if_neg Bool.false_ne_true] at h ⊢
      have hfound := List.find?_some h
      exact of_decide_eq_true hfound

theorem preferred_static {ps : List (List PatternSegment × H)} {segment text : Bytes}
    (h : preferred caseSensitive hash ps segment = some (.static text)) : SameText caseSensitive text segment := by
  unfold preferred at h
  split at h
  · next key hk =>
    cases h
    exact sameText_of_findKey hk
  · split_ifs at h <;> cases h

/-- A walk ends at a pattern that matches. -/
theorem walk_sound {segments : List (Bytes × Bytes)} {ps : List (List PatternSegment × H)} {params : Params} {h : H}
    (hw : (walk caseSensitive hash segments ps params).1 = some h) :
    ∃ pattern params', (pattern, h) ∈ ps ∧ bindSegments caseSensitive pattern segments = some params' := by
  induction segments generalizing ps params with
  | nil => exact ⟨[], [], mem_of_lastHandler hw, rfl⟩
  | cons s segments ih =>
      obtain ⟨segment, rest⟩ := s
      rw [walk] at hw
      cases hp : preferred caseSensitive hash ps segment with
      | none =>
          rw [hp] at hw
          cases hw
      | some e =>
          rw [hp] at hw
          cases e with
          | static text =>
              obtain ⟨pattern, params', hmem, hb⟩ := ih hw
              obtain ⟨s, he, hmem⟩ := mem_after hmem
              cases s with
              | static text' =>
                  cases he
                  exact ⟨_, params', hmem, by rw [bindSegments, if_pos (preferred_static hp), hb]⟩
              | param | wildcard => cases he
          | param =>
              obtain ⟨pattern, params', hmem, hb⟩ := ih hw
              obtain ⟨s, he, hmem⟩ := mem_after hmem
              cases s with
              | param name => exact ⟨_, (name, segment) :: params', hmem, by rw [bindSegments, hb, Option.map_some]⟩
              | static | wildcard => cases he
          | wildcard =>
              obtain ⟨s, he, hmem⟩ := mem_after (mem_of_lastHandler hw)
              cases s with
              | wildcard => exact ⟨_, _, hmem, rfl⟩
              | static | param => cases he

/-- The walk of a pattern that is not hidden finds it, with its parameters. -/
theorem walk_unhidden {segments : List (Bytes × Bytes)} {ps : List (List PatternSegment × ℕ)} {params params' : Params}
    {pattern : List PatternSegment} {i : ℕ} (hu : Unhidden caseSensitive hash pattern i ps segments)
    (hb : bindSegments caseSensitive pattern segments = some params') :
    walk caseSensitive hash segments ps params = (some i, params ++ params') := by
  induction segments generalizing ps params params' pattern with
  | nil =>
      cases pattern with
      | nil =>
          cases hb
          rw [walk, show lastHandler ps = some i from hu, List.append_nil]
      | cons p pattern => cases p <;> cases pattern <;> cases hb
  | cons s segments ih =>
      obtain ⟨segment, rest⟩ := s
      rw [walk]
      cases pattern with
      | nil => cases hb
      | cons p pattern =>
          cases p with
          | static text =>
              rw [bindSegments] at hb
              split at hb
              · obtain ⟨h1, h2⟩ := hu
                rw [h1]
                exact ih h2 hb
              · cases hb
          | param name =>
              obtain ⟨params'', hrest, rfl⟩ := Option.map_eq_some_iff.mp hb
              obtain ⟨h1, h2, h3⟩ := hu
              rw [h1]
              show walk _ _ _ _ _ = _
              rw [ih h3 hrest, h2, List.append_assoc]
              rfl
          | wildcard =>
              cases pattern with
              | nil =>
                  cases hb
                  obtain ⟨h1, h2⟩ := hu
                  rw [h1]
                  show (lastHandler _, _) = _
                  rw [h2]
              | cons _ _ => cases hb

/-- No two patterns have the same number. -/
def Once (ps : List (List PatternSegment × ℕ)) (i : ℕ) : Prop :=
  ∀ p q, (p, i) ∈ ps → (q, i) ∈ ps → p = q

theorem Once.after {ps : List (List PatternSegment × ℕ)} {i : ℕ} (h : Once ps i) (e : Edge) : Once (after e ps) i := by
  intro p q hp hq
  obtain ⟨s₁, -, h₁⟩ := mem_after hp
  obtain ⟨s₂, -, h₂⟩ := mem_after hq
  exact (List.cons.inj (h _ _ h₁ h₂)).2

/-- A walk adds to the parameters. -/
theorem walk_params (segments : List (Bytes × Bytes)) (ps : List (List PatternSegment × H)) (params : Params) :
    ∃ more, (walk caseSensitive hash segments ps params).2 = params ++ more := by
  induction segments generalizing ps params with
  | nil => exact ⟨[], (List.append_nil _).symm⟩
  | cons s segments ih =>
      obtain ⟨segment, rest⟩ := s
      rw [walk]
      cases preferred caseSensitive hash ps segment with
      | none => exact ⟨[], (List.append_nil _).symm⟩
      | some e =>
          cases e with
          | static text => exact ih _ _
          | wildcard => exact ⟨_, rfl⟩
          | param =>
              obtain ⟨more, h⟩ := ih (RouteTrie.after .param ps) (params ++ [(lastName ps, segment)])
              exact ⟨_, h.trans (List.append_assoc _ _ _)⟩

/-- A pattern that is found with its own parameters is not hidden. -/
theorem unhidden_of_walk {segments : List (Bytes × Bytes)} {ps : List (List PatternSegment × ℕ)}
    {params params' : Params} {pattern : List PatternSegment} {i : ℕ} (hmem : (pattern, i) ∈ ps) (honce : Once ps i)
    (hb : bindSegments caseSensitive pattern segments = some params')
    (hw : walk caseSensitive hash segments ps params = (some i, params ++ params')) :
    Unhidden caseSensitive hash pattern i ps segments := by
  induction segments generalizing ps params params' pattern with
  | nil =>
      match pattern with
      | [] => exact (Prod.mk.inj hw).1
      | .static _ :: _ | .param _ :: _ | [.wildcard] | .wildcard :: _ :: _ => cases hb
  | cons s segments ih =>
      obtain ⟨segment, rest⟩ := s
      rw [walk] at hw
      -- The pattern goes on with the preferred edge: no other one has its number.
      have hedge {e : Edge} {pattern' : List PatternSegment} (h : (pattern', i) ∈ after e ps) :
          ∃ s, s.edge = e ∧ pattern = s :: pattern' := by
        obtain ⟨s, he, hs⟩ := mem_after h
        exact ⟨s, he, honce _ _ hmem hs⟩
      cases hp : preferred caseSensitive hash ps segment with
      | none =>
          rw [hp] at hw
          cases hw
      | some e =>
          rw [hp] at hw
          cases e with
          | static text =>
              obtain ⟨pattern', -, hmem', -⟩ := walk_sound (congrArg Prod.fst hw)
              obtain ⟨s, he, rfl⟩ := hedge hmem'
              cases s with
              | static text' =>
                  cases he
                  rw [bindSegments] at hb
                  split at hb
                  · exact ⟨hp, ih hmem' (honce.after _) hb hw⟩
                  · cases hb
              | param | wildcard => cases he
          | param =>
              obtain ⟨pattern', -, hmem', -⟩ := walk_sound (congrArg Prod.fst hw)
              obtain ⟨s, he, rfl⟩ := hedge hmem'
              cases s with
              | param name =>
                  obtain ⟨params'', hrest, rfl⟩ := Option.map_eq_some_iff.mp hb
                  obtain ⟨more, hmore⟩ := @walk_params caseSensitive hash _ segments (after .param ps)
                    (params ++ [(lastName ps, segment)])
                  have hparams := hmore.symm.trans (congrArg Prod.snd hw)
                  rw [List.append_assoc] at hparams
                  have hname := (Prod.mk.inj (List.cons.inj (List.append_cancel_left hparams)).1).1
                  refine ⟨hp, hname, @ih _ (params ++ [(lastName ps, segment)]) _ _ hmem' (honce.after _) hrest ?_⟩
                  refine Eq.trans hw ?_
                  rw [hname, List.append_assoc]
                  rfl
              | static | wildcard => cases he
          | wildcard =>
              have hl := (Prod.mk.inj hw).1
              obtain ⟨s, he, rfl⟩ := hedge (mem_of_lastHandler hl)
              cases s with
              | wildcard => exact ⟨hp, hl⟩
              | static | param => cases he

theorem once_numbered (patterns : List Bytes) (i : ℕ) : Once (numbered patterns) i := by
  intro p q hp hq
  obtain ⟨⟨text, j⟩, h1, h2⟩ := List.mem_filterMap.mp hp
  obtain ⟨⟨text', j'⟩, h1', h2'⟩ := List.mem_filterMap.mp hq
  obtain ⟨segments, h3, h4⟩ := Option.map_eq_some_iff.mp h2
  obtain ⟨segments', h3', h4'⟩ := Option.map_eq_some_iff.mp h2'
  cases h4
  cases h4'
  have h5 := List.mem_zipIdx_iff_getElem?.mp h1
  have h5' := List.mem_zipIdx_iff_getElem?.mp h1'
  obtain rfl := Option.some.inj (h5.symm.trans h5')
  exact Option.some.inj (h3.symm.trans h3')

end

/-! ### The language of a trie -/

/-- **The pattern language is implemented for a path if and only if some pattern that matches it is not hidden**, or
none matches. -/
theorem implements_iff (caseSensitive : Bool) (hash : HashOrder) (patterns : List Bytes) (path : Bytes) :
    Implements caseSensitive hash patterns path ↔ Clear caseSensitive hash patterns path := by
  constructor
  · rintro ⟨h1, h2⟩ hex
    obtain ⟨i, hi⟩ := Option.isSome_iff_exists.mp (h1.mpr hex)
    obtain ⟨pattern, segments, hmem, hsegs, hb⟩ := h2 i hi
    refine ⟨pattern, i, segments, _, hmem, hsegs, hb, ?_⟩
    rw [matchOf_eq patterns hsegs] at hi hb
    refine @unhidden_of_walk _ _ _ _ [] _ _ _ hmem (once_numbered patterns i) hb ?_
    rw [← hi]
    rfl
  · intro hclear
    by_cases hex : ∃ i params, Binds caseSensitive patterns path i params
    · obtain ⟨pattern, i, segments, params, hmem, hsegs, hb, hu⟩ := hclear hex
      have hmatch : matchOf caseSensitive hash patterns path = (some i, params) :=
        (matchOf_eq patterns hsegs).trans (walk_unhidden hu hb)
      rw [Implements, hmatch]
      refine ⟨iff_of_true rfl hex, ?_⟩
      rintro i ⟨⟩
      exact ⟨pattern, segments, hmem, hsegs, hb⟩
    · have hnone : (matchOf caseSensitive hash patterns path).1 = none := by
        refine Option.eq_none_iff_forall_ne_some.mpr fun i hi => hex ?_
        cases hsegs : pathSegments path with
        | none =>
            rw [matchOf, Node.matchPath, hsegs] at hi
            cases hi
        | some segments =>
            rw [matchOf_eq patterns hsegs] at hi
            obtain ⟨pattern, params, hmem, hb⟩ := walk_sound hi
            exact ⟨i, params, pattern, segments, hmem, hsegs, hb⟩
      rw [Implements, hnone]
      exact ⟨iff_of_false Bool.false_ne_true hex, nofun⟩

/-- The keys in the order in which they were inserted. -/
def insertionOrder : HashOrder := ⟨id, fun _ _ => Iff.rfl⟩

/-- `/:x/c` matches `/a/c`, but it is hidden by `/a/b`. -/
theorem implements_hidden :
    ¬ Implements true insertionOrder [ascii "/a/b", ascii "/:x/c"] (ascii "/a/c") := by
  intro h
  have hex : ∃ i params, Binds true [ascii "/a/b", ascii "/:x/c"] (ascii "/a/c") i params :=
    ⟨1, [(ascii "x", ascii "a")], [.param (ascii "x"), .static (ascii "c")],
      [(ascii "a", ascii "a/c"), (ascii "c", ascii "c")], by decide, by decide, by decide⟩
  exact absurd (h.1.mpr hex) (by decide)

/-! ### Handlers -/

section

variable {caseSensitive : Bool} {hash : HashOrder} {H G : Type} (f : G → H)

end

end NeForce.RouteTrie

/-! ## Whether a trie contains a path

`contains_path` walks as `match` does, but ends in another way: a wildcard node is enough for it, whether the node has a
handler or not, and a handler is enough, whether it is empty or not. -/

namespace NeForce.RouteTrie

open HttpServer (Params)

/-! ### Ends of walks -/

section

variable {H : Type} (caseSensitive : Bool) (hash : HashOrder)

/-- Where the walk of a path ends: whether by a wildcard, and the rest of the patterns that go through that node. -/
def walkEnd : List (Bytes × Bytes) → List (List PatternSegment × H) → Option (Bool × List (List PatternSegment × H))
  | [], ps => some (false, ps)
  | (segment, _) :: segments, ps =>
      match preferred caseSensitive hash ps segment with
      | some (.static key) => walkEnd segments (after (.static key) ps)
      | some .param => walkEnd segments (after .param ps)
      | some .wildcard => some (true, after .wildcard ps)
      | none => none

end

section

variable {H : Type} {caseSensitive : Bool} {hash : HashOrder}

theorem walk_eq_walkEnd (segments : List (Bytes × Bytes)) (ps : List (List PatternSegment × H)) (params : Params) :
    (walk caseSensitive hash segments ps params).1 =
      (walkEnd caseSensitive hash segments ps).bind fun e => lastHandler e.2 := by
  induction segments generalizing ps params with
  | nil => rfl
  | cons s segments ih =>
      obtain ⟨segment, rest⟩ := s
      rw [walk, walkEnd]
      cases preferred caseSensitive hash ps segment with
      | none => rfl
      | some e =>
          cases e with
          | static key => exact ih _ _
          | param => exact ih _ _
          | wildcard => rfl

theorem Node.containsSegments_named (e : Edge) (ps : List (List PatternSegment × H)) (segments : List (Bytes × Bytes))
    (t : Node H) :
    (named e ps t).containsSegments caseSensitive hash segments = t.containsSegments caseSensitive hash segments := by
  cases e <;> cases segments <;> rfl

/-- **`contains_path` as a walk through the patterns.** -/
theorem containsSegments_eq_walkEnd (segments : List (Bytes × Bytes)) (ps : List (List PatternSegment × H)) :
    (ofPatterns ps).containsSegments caseSensitive hash segments =
      match walkEnd caseSensitive hash segments ps with
      | some (wild, left) => wild || (lastHandler left).isSome
      | none => false := by
  induction segments generalizing ps with
  | nil =>
      rw [Node.containsSegments, handler_ofPatterns]
      rfl
  | cons s segments ih =>
      obtain ⟨segment, rest⟩ := s
      have hparam := descend_ofPatterns .param ps
      have hwild := descend_ofPatterns .wildcard ps
      rw [Node.containsSegments, walkEnd, child_ofPatterns, preferred]
      cases findKey caseSensitive hash (keys ps) segment with
      | some key => exact ih _
      | none =>
          rw [show (ofPatterns ps).paramChild = _ from hparam, show (ofPatterns ps).wildcardChild = _ from hwild]
          by_cases hp : after .param ps = []
          · by_cases hw : after .wildcard ps = []
            · simp [hp, hw]
            · simp [hp, hw]
          · simp only [hp, if_false, Option.map_none, ne_eq, not_false_eq_true, if_true]
            rw [Node.containsSegments_named, ih]

end

/-! ### Agreement -/

section

variable {F : Type} (caseSensitive : Bool) (hash : HashOrder)

/-- A trie after calls of `insert`; a handler without a function is empty. -/
def ofCalls (calls : List (Bytes × Option F)) : Node (Option F) :=
  calls.foldl (fun t p => t.insertPattern p.1 p.2) .empty

/-- The patterns of the calls that are not ignored. -/
def callPatterns (calls : List (Bytes × Option F)) : List (List PatternSegment × Option F) :=
  calls.filterMap fun p => (patternSegments p.1).map fun segments => (segments, p.2)

/-- `match` returns a handler that is not empty. -/
def Node.Answers (t : Node (Option F)) (path : Bytes) : Prop :=
  ∃ f, (t.matchPath caseSensitive hash path).1 = some (some f)

/-- Where the walk of the path ends, the last pattern that ends there has a handler that is not empty; a walk that does
not end at a wildcard may also end where no pattern does. -/
def Settled (calls : List (Bytes × Option F)) (path : Bytes) : Prop :=
  ∀ segments wild left, pathSegments path = some segments →
    walkEnd caseSensitive hash segments (callPatterns calls) = some (wild, left) →
      lastHandler left ≠ some none ∧ (wild = true → lastHandler left ≠ none)

/-- **`contains_path` agrees with `match` on a path if and only if the walk of the path does not end at a wildcard
without a handler or at an empty handler.** -/
theorem contains_path_agrees_iff (calls : List (Bytes × Option F)) (path : Bytes) :
    ((ofCalls calls).containsPath caseSensitive hash path = true ↔ (ofCalls calls).Answers caseSensitive hash path) ↔
      Settled caseSensitive hash calls path := by
  have htrie : ofCalls calls = ofPatterns (callPatterns calls) := foldl_insertPattern calls _
  unfold Settled Node.Answers Node.containsPath Node.matchPath
  cases hsegs : pathSegments path with
  | none => exact iff_of_true (iff_of_false Bool.false_ne_true nofun) nofun
  | some segments =>
      dsimp only
      rw [htrie, containsSegments_eq_walkEnd, matchSegments_eq_walk, walk_eq_walkEnd]
      cases hend : walkEnd caseSensitive hash segments (callPatterns calls) with
      | none =>
          refine iff_of_true (iff_of_false Bool.false_ne_true nofun) ?_
          rintro _ wild left ⟨⟩ hsome
          rw [hend] at hsome
          cases hsome
      | some e =>
          obtain ⟨wild, left⟩ := e
          have hsettled : (∀ segments' wild' left', some segments = some segments' →
              walkEnd caseSensitive hash segments' (callPatterns calls) = some (wild', left') →
                lastHandler left' ≠ some none ∧ (wild' = true → lastHandler left' ≠ none)) ↔
              lastHandler left ≠ some none ∧ (wild = true → lastHandler left ≠ none) := by
            constructor
            · intro h
              exact h segments wild left rfl hend
            · rintro h _ wild' left' ⟨⟩ hsome
              rw [hend] at hsome
              cases hsome
              exact h
          rw [hsettled]
          dsimp only [Option.bind_some]
          -- The three ends of a walk: no handler, an empty one, or one with a function.
          match lastHandler left with
          | none => cases wild <;> simp
          | some none => simp
          | some (some f) => simp

end

/-- With a handler for `/*/x` alone, `contains_path` has `/y`, which `match` does not find. -/
theorem contains_path_disagrees :
    ¬ ((ofCalls [(ascii "/*/x", some ())]).containsPath true insertionOrder (ascii "/y") = true ↔
      (ofCalls [(ascii "/*/x", some ())]).Answers true insertionOrder (ascii "/y")) := by
  intro h
  obtain ⟨f, hf⟩ := h.mp (by decide)
  have hnone : ((ofCalls [(ascii "/*/x", some ())]).matchPath true insertionOrder (ascii "/y")).1 = none := by
    decide
  rw [hnone] at hf
  cases hf

end NeForce.RouteTrie
