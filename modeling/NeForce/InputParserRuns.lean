import Mathlib
import NeForce.InputParserReports
import NeForce.Runs

/-! # Runs of the input parser

Pasted text is collected up to the first end marker and reported there (`feeds_paste`).  What a state leaves in the buffers
of the others is never read again (`seen_feed`), and a modifier is kept for a character only (`Tidy`); so a flush outside
a paste makes the parser as new (`clean_flush`). -/

namespace NeForce.TuiInput

namespace InputParser

variable {s s' : InputParser} {clipboard : List UInt8 → List UInt8} {b : UInt8}

/-! ### Pastes -/

theorem feeds_flushes {is : List Input} (hs : s.state = .ground) (h : is.filterMap Input.byte? = []) :
    s.feeds clipboard is = some ([], s) := by
  induction is with
  | nil => rfl
  | cons i is ih =>
      cases i with
      | byte b => cases h
      | flush =>
          have hf : s.flush = (none, s) := by rw [flush, hs]
          rw [feeds, input, hf]
          simp only [Option.bind_eq_bind, Option.bind_some]
          rw [ih h]
          rfl

/-- The text in a paste is collected and reported at its end. -/
theorem feeds_paste {text : List UInt8} {is : List Input} (hr : Run (Guarded Orderly (Step clipboard)) s is s')
    (hs : s.state = .paste)
    (hpre : s.paste ++ is.filterMap Input.byte? = text ++ pasteEnd) (hbytes : is.filterMap Input.byte? ≠ [])
    (hend : ∀ k < (text ++ pasteEnd).length, ¬ pasteEnd <:+ (text ++ pasteEnd).take k) :
    s.feeds clipboard is = some ([.paste (normalize text)], { s with state := .ground, paste := [] }) := by
  induction hr with
  | nil s => exact absurd rfl hbytes
  | @cons s s₁ s₂ i is hstep hrun ih =>
      obtain ⟨ho, e, he⟩ := hstep
      cases i with
      | flush =>
          have hf : s.flush = (none, s) := by rw [flush, hs]
          rw [input, hf] at he
          obtain ⟨rfl, rfl⟩ := Prod.mk.inj (Option.some.inj he)
          rw [feeds, input, hf]
          simp only [Option.bind_eq_bind, Option.bind_some]
          rw [ih hs hpre hbytes]
          rfl
      | byte c =>
          have hpre : s.paste ++ [c] ++ is.filterMap Input.byte? = text ++ pasteEnd := by
            rw [List.append_assoc]
            exact hpre
          have hfeed : s.feed clipboard c = some (s.feedPaste c) := by rw [feed, hs]
          rw [input, hfeed] at he
          rw [feeds, input, hfeed]
          simp only [Option.bind_eq_bind, Option.bind_some]
          by_cases hrest : is.filterMap Input.byte? = []
          · -- the last byte of the end marker
            have hlast : s.paste ++ [c] = text ++ pasteEnd := by rwa [hrest, List.append_nil] at hpre
            have hsuffix : pasteEnd <:+ text ++ pasteEnd := List.suffix_append ..
            have hp : s.feedPaste c = (some (.paste (normalize text)), { s with state := .ground, paste := [] }) := by
              rw [feedPaste]
              simp only [hlast]
              rw [if_neg (not_not.mpr hsuffix), List.length_append, Nat.add_sub_cancel, List.take_left' rfl]
            rw [hp, feeds_flushes rfl hrest]
            rfl
          · have htake : s.paste ++ [c] = (text ++ pasteEnd).take (s.paste ++ [c]).length := by
              rw [← hpre, List.take_left' rfl]
            have hshort : (s.paste ++ [c]).length < (text ++ pasteEnd).length := by
              have hlen := congrArg List.length hpre
              rw [List.length_append] at hlen
              have := List.length_pos_iff.mpr hrest
              omega
            have hnot : ¬ pasteEnd <:+ s.paste ++ [c] := by
              rw [htake]
              exact hend _ hshort
            have hmax : ¬ maxPasteSize < (s.paste ++ [c]).length := by
              rw [Orderly, hs] at ho
              exact Nat.not_lt.mpr (by rw [List.length_append]; exact ho.resolve_left hnot)
            have hp : s.feedPaste c = (none, { s with paste := s.paste ++ [c] }) := by
              rw [feedPaste, if_pos hnot, if_neg hmax]
            rw [hp] at he
            obtain ⟨rfl, rfl⟩ := Prod.mk.inj (Option.some.inj he)
            rw [hp, ih hs hpre hrest]
            rfl

theorem completeUtf8_ne_paste {t : InputParser} (ht : t.state = .utf8) : t.completeUtf8.2.state ≠ .paste := by
  rw [completeUtf8]
  intro h
  split at h
  · cases h
  · split at h
    · cases h
    · split at h
      · rw [ht] at h
        cases h
      · split at h <;> cases h

theorem feedGround_ne_paste (t : InputParser) (b : UInt8) : (t.feedGround b).2.state ≠ .paste := by
  rw [feedGround]
  intro h
  split at h
  · cases h
  · split at h
    · exact completeUtf8_ne_paste rfl h
    · split at h <;> cases h

/-- A paste begins with an empty buffer. -/
theorem paste_empty {r : Option Event × InputParser} (hs : s.state ≠ .paste) (h : s.feed clipboard b = some r)
    (hr : r.2.state = .paste) : r.2.paste = [] := by
  rw [feed] at h
  split at h
  · rename_i hp
    exact absurd hp hs
  · rename_i ho
    obtain rfl := Option.some.inj h
    rw [feedOsc] at hr
    split at hr
    · cases hr
    · split at hr
      · cases hr
      · exact absurd hr hs
  · rename_i hu
    obtain rfl := Option.some.inj h
    rw [feedUtf8] at hr
    split at hr
    · exact absurd hr (feedGround_ne_paste _ _)
    · exact absurd hr (completeUtf8_ne_paste hu)
  · rw [feedCsi] at h
    split at h
    · obtain rfl := Option.some.inj h
      cases hr
    · split at h
      · obtain ⟨o, _, rfl⟩ := Option.map_eq_some_iff.mp h
        cases o with
        | nothing => cases hr
        | event e => cases hr
        | key ke => cases hr
        | paste => rfl
      · split at h
        · obtain rfl := Option.some.inj h
          cases hr
        · obtain rfl := Option.some.inj h
          exact absurd hr hs
  · obtain rfl := Option.some.inj h
    cases hr
  · rename_i he
    obtain rfl := Option.some.inj h
    rw [feedEscape] at hr
    split at hr
    · cases hr
    · split at hr
      · cases hr
      · split at hr
        · cases hr
        · split at hr
          · exact absurd hr hs
          · split at hr
            · exact absurd hr (completeUtf8_ne_paste rfl)
            · split at hr <;> cases hr
  · obtain rfl := Option.some.inj h
    exact absurd hr (feedGround_ne_paste _ _)

/-! ### Fresh parsers -/

/-- The parser without what is left in the buffers that its state does not use. -/
def clean (s : InputParser) : InputParser :=
  { s with
    seq := if s.state = .csi then s.seq else []
    utf8 := if s.state = .utf8 then s.utf8 else []
    paste := if s.state = .paste then s.paste else []
    osc := if s.state = .osc then s.osc else [] }

/-- The event and the parser without leftovers. -/
def seen (r : Option Event × InputParser) : Option Event × InputParser := (r.1, r.2.clean)

theorem seen_completeUtf8 {t t' : InputParser} (hs : t.state = .utf8) (hs' : t'.state = .utf8) (hu : t.utf8 = t'.utf8)
    (ha : t.alt = t'.alt) :
    seen t.completeUtf8 = seen t'.completeUtf8 := by
  rw [completeUtf8, completeUtf8, hu, ha]
  split
  · rfl
  · split
    · rfl
    · split
      · simp only [seen, clean, hs, hs', hu, ha]
        rfl
      · split <;> rfl

theorem seen_emitKey (t t' : InputParser) (ke : KeyEvent) : seen (t.emitKey ke) = seen (t'.emitKey ke) := rfl

theorem seen_feedGround (s : InputParser) (b : UInt8) : seen (s.feedGround b) = seen (s.clean.feedGround b) := by
  have ha : s.clean.alt = s.alt := rfl
  rw [feedGround, feedGround]
  split
  · rfl
  · split
    · exact seen_completeUtf8 rfl rfl rfl ha.symm
    · split
      · exact seen_emitKey ..
      · exact seen_emitKey ..

theorem seen_feedEscape (s : InputParser) (b : UInt8) (hs : s.state = .escape) :
    seen (s.feedEscape b) = seen (s.clean.feedEscape b) := by
  rw [feedEscape, feedEscape]
  split
  · rfl
  · split
    · rfl
    · split
      · rfl
      · split
        · simp only [seen, clean, hs]
          rfl
        · split
          · exact seen_completeUtf8 rfl rfl rfl rfl
          · split
            · exact seen_emitKey ..
            · exact seen_emitKey ..

theorem seen_feedCsi (s : InputParser) (b : UInt8) (hs : s.state = .csi) :
    (s.feedCsi b).map seen = (s.clean.feedCsi b).map seen := by
  have hq : s.clean.seq = s.seq := if_pos hs
  rw [feedCsi, feedCsi, hq]
  split
  · rfl
  · split
    · rw [Option.map_map, Option.map_map]
      congr 1
      funext o
      cases o with
      | nothing => rfl
      | event e => rfl
      | key ke => rfl
      | paste => rfl
    · split
      · rfl
      · simp only [Option.map_some, seen, clean, hs]
        rfl

theorem seen_feedUtf8 (s : InputParser) (b : UInt8) (hs : s.state = .utf8) :
    seen (s.feedUtf8 b) = seen (s.clean.feedUtf8 b) := by
  have hu : s.clean.utf8 = s.utf8 := if_pos hs
  rw [feedUtf8, feedUtf8, hu]
  split
  · rfl
  · exact seen_completeUtf8 hs hs rfl rfl

theorem seen_feedOsc (s : InputParser) (clipboard : List UInt8 → List UInt8) (b : UInt8) (hs : s.state = .osc) :
    seen (s.feedOsc clipboard b) = seen (s.clean.feedOsc clipboard b) := by
  have ho : s.clean.osc = s.osc := if_pos hs
  rw [feedOsc, feedOsc, ho]
  split
  · rfl
  · split
    · rfl
    · simp only [seen, clean, hs]
      rfl

theorem seen_feedPaste (s : InputParser) (b : UInt8) (hs : s.state = .paste) :
    seen (s.feedPaste b) = seen (s.clean.feedPaste b) := by
  have hp : s.clean.paste = s.paste := if_pos hs
  rw [feedPaste, feedPaste, hp]
  split
  · split
    · rfl
    · simp only [seen, clean, hs]
      rfl
  · rfl

/-- Leftovers do not matter. -/
theorem seen_feed (s : InputParser) (clipboard : List UInt8 → List UInt8) (b : UInt8) :
    (s.feed clipboard b).map seen = (s.clean.feed clipboard b).map seen := by
  have hst : s.clean.state = s.state := rfl
  rw [feed, feed, hst]
  split
  · rename_i hs
    exact congrArg some (seen_feedPaste s b hs)
  · rename_i hs
    exact congrArg some (seen_feedOsc s clipboard b hs)
  · rename_i hs
    exact congrArg some (seen_feedUtf8 s b hs)
  · rename_i hs
    exact seen_feedCsi s b hs
  · rfl
  · rename_i hs
    exact congrArg some (seen_feedEscape s b hs)
  · exact congrArg some (seen_feedGround s b)

theorem seen_flush (s : InputParser) : seen s.flush = seen s.clean.flush := by
  have hst : s.clean.state = s.state := rfl
  rw [flush, flush, hst]
  split
  · rfl
  · rfl
  · rfl
  · rfl
  · rfl
  · rename_i hs
    simp only [seen, clean, hs]
    rfl
  · rename_i hs
    simp only [seen, clean, hs]
    rfl

theorem seen_input (s : InputParser) (clipboard : List UInt8 → List UInt8) (i : Input) :
    (s.input clipboard i).map seen = (s.clean.input clipboard i).map seen := by
  cases i with
  | byte b => exact seen_feed s clipboard b
  | flush => exact congrArg some (seen_flush s)

/-- Parsers that differ in leftovers only report the same. -/
theorem feeds_congr {s t : InputParser} (clipboard : List UInt8 → List UInt8) (is : List Input) (h : s.clean = t.clean) :
    (s.feeds clipboard is).map Prod.fst = (t.feeds clipboard is).map Prod.fst := by
  induction is generalizing s t with
  | nil => rfl
  | cons i is ih =>
      have hseen : (s.input clipboard i).map seen = (t.input clipboard i).map seen := by
        rw [seen_input s, seen_input t, h]
      rw [feeds, feeds]
      cases hs : s.input clipboard i with
      | none =>
          rw [hs, Option.map_none, eq_comm, Option.map_eq_none_iff] at hseen
          rw [hseen]
      | some r =>
          rw [hs, Option.map_some] at hseen
          obtain ⟨r', hr', heq⟩ := Option.map_eq_some_iff.mp hseen.symm
          obtain ⟨e, s'⟩ := r
          obtain ⟨e', t'⟩ := r'
          simp only [seen, Prod.mk.injEq] at heq
          obtain ⟨rfl, hclean⟩ := heq
          have hrest := ih hclean.symm
          rw [hr']
          simp only [Option.bind_eq_bind, Option.bind_some]
          cases hs' : s'.feeds clipboard is with
          | none =>
              rw [hs', Option.map_none, eq_comm, Option.map_eq_none_iff] at hrest
              rw [hrest]
          | some p =>
              rw [hs', Option.map_some] at hrest
              obtain ⟨p', hp', hpeq⟩ := Option.map_eq_some_iff.mp hrest.symm
              rw [hp']
              simp only [Option.bind_some, Option.map_some, hpeq]

/-! ### The modifier of a character -/

/-- A modifier is kept for a character only. -/
def Tidy (s : InputParser) : Prop := s.state ≠ .utf8 → s.alt = {}

theorem tidy_completeUtf8 {t : InputParser} (hs : t.state = .utf8) : t.completeUtf8.2.Tidy := by
  rw [completeUtf8]
  split
  · exact fun _ => rfl
  · split
    · exact fun _ => rfl
    · split
      · exact fun h => absurd hs h
      · split <;> exact fun _ => rfl

theorem tidy_feedGround {s : InputParser} (b : UInt8) (ha : s.alt = {}) : (s.feedGround b).2.Tidy := by
  rw [feedGround]
  split
  · exact fun _ => ha
  · split
    · exact tidy_completeUtf8 rfl
    · split <;> exact fun _ => rfl

theorem tidy_feedEscape {s : InputParser} (b : UInt8) (ha : s.alt = {}) : (s.feedEscape b).2.Tidy := by
  rw [feedEscape]
  split
  · exact fun _ => ha
  · split
    · exact fun _ => ha
    · split
      · exact fun _ => ha
      · split
        · exact fun _ => rfl
        · split
          · exact tidy_completeUtf8 rfl
          · split <;> exact fun _ => rfl

theorem tidy_feedCsi {s : InputParser} {b : UInt8} {r : Option Event × InputParser} (ha : s.alt = {})
    (h : s.feedCsi b = some r) : r.2.Tidy := by
  rw [feedCsi] at h
  split at h
  · obtain rfl := Option.some.inj h
    exact fun _ => ha
  · split at h
    · obtain ⟨o, _, rfl⟩ := Option.map_eq_some_iff.mp h
      cases o with
      | nothing => exact fun _ => ha
      | event e => exact fun _ => ha
      | key ke => exact fun _ => rfl
      | paste => exact fun _ => ha
    · split at h
      · obtain rfl := Option.some.inj h
        exact fun _ => rfl
      · obtain rfl := Option.some.inj h
        exact fun _ => ha

theorem tidy_feedOsc {s : InputParser} (clipboard : List UInt8 → List UInt8) (b : UInt8) (ha : s.alt = {}) :
    (s.feedOsc clipboard b).2.Tidy := by
  rw [feedOsc]
  split
  · exact fun _ => rfl
  · split
    · exact fun _ => rfl
    · exact fun _ => ha

theorem tidy_feedPaste {s : InputParser} (b : UInt8) (ha : s.alt = {}) : (s.feedPaste b).2.Tidy := by
  rw [feedPaste]
  split
  · split <;> exact fun _ => ha
  · exact fun _ => ha

/-- A byte keeps the parser tidy. -/
theorem tidy_feed {s : InputParser} {clipboard : List UInt8 → List UInt8} {b : UInt8} {r : Option Event × InputParser}
    (ht : s.Tidy) (h : s.feed clipboard b = some r) : r.2.Tidy := by
  have halt : ∀ st, st ≠ State.utf8 → s.state = st → s.alt = {} := fun st hst hs => ht (hs ▸ hst)
  rw [feed] at h
  split at h
  · rename_i hs
    obtain rfl := Option.some.inj h
    exact tidy_feedPaste b (halt .paste (by decide) hs)
  · rename_i hs
    obtain rfl := Option.some.inj h
    exact tidy_feedOsc clipboard b (halt .osc (by decide) hs)
  · rename_i hs
    obtain rfl := Option.some.inj h
    rw [feedUtf8]
    split
    · exact tidy_feedGround b rfl
    · exact tidy_completeUtf8 hs
  · rename_i hs
    exact tidy_feedCsi (halt .csi (by decide) hs) h
  · obtain rfl := Option.some.inj h
    exact fun _ => rfl
  · rename_i hs
    obtain rfl := Option.some.inj h
    exact tidy_feedEscape b (halt .escape (by decide) hs)
  · rename_i hs
    obtain rfl := Option.some.inj h
    exact tidy_feedGround b (halt .ground (by decide) hs)

theorem tidy_flush {s : InputParser} (ht : s.Tidy) : s.flush.2.Tidy := by
  rw [flush]
  split
  · exact fun _ => rfl
  · exact fun _ => rfl
  · exact fun _ => rfl
  · exact fun _ => rfl
  · exact fun _ => rfl
  · exact ht
  · exact ht

theorem tidy_step {clipboard : List UInt8 → List UInt8} {s s' : InputParser} {i : Input} (ht : s.Tidy)
    (h : Step clipboard s i s') :
    s'.Tidy := by
  obtain ⟨e, he⟩ := h
  cases i with
  | byte b => exact tidy_feed ht he
  | flush =>
      obtain ⟨rfl, rfl⟩ := Prod.mk.inj (Option.some.inj he)
      exact tidy_flush ht

/-- Behind a flush outside a paste the parser is as new, leftovers apart. -/
theorem clean_flush {s : InputParser} (ht : s.Tidy) (hs : s.state ≠ .paste) : s.flush.2.clean = ({} : InputParser).clean := by
  rw [flush]
  split
  · rfl
  · rfl
  · rfl
  · rfl
  · rfl
  · rename_i hp
    exact absurd hp hs
  · rename_i hg
    have ha := ht (by rw [hg]; exact nofun)
    simp only [clean, hg, ha]
    rfl

/-! ### Runs -/

/-- **In an orderly run** the parser never overflows an `int`, reports scalar values only, reports what is not UTF-8 as
`U+FFFD`, keeps pasted text apart from keys, and is as new behind a flush outside a paste. -/
theorem orderly_run {clipboard : List UInt8 → List UInt8} {is : List Input} {s : InputParser}
    (hr : Run (Guarded Orderly (Step clipboard)) {} is s) :
    (∀ b, s.Orderly (.byte b) → ∃ e s', s.feed clipboard b = some (e, s') ∧
      (∀ ke, e = some (.key ke) → IsScalar ke.cp) ∧
      (s.InUnit b → Complete (s.unit b) → Malformed (s.unit b) →
        ∃ ke, e = some (.key ke) ∧ ke.key = .printable ∧ ke.cp = 0xFFFD) ∧
      (s.state ≠ .paste → s'.state = .paste → s'.paste = [])) ∧
    (∀ text is' s', s.state = .paste → s.paste = [] → is'.filterMap Input.byte? = text ++ pasteEnd →
      (∀ k < (text ++ pasteEnd).length, ¬ pasteEnd <:+ (text ++ pasteEnd).take k) →
      Run (Guarded Orderly (Step clipboard)) s is' s' →
        s.feeds clipboard is' = some ([.paste (normalize text)], { s with state := .ground, paste := [] })) ∧
    (s.state ≠ .paste → ∀ is', (s.flush.2.feeds clipboard is').map Prod.fst = (({} :
    InputParser).feeds clipboard is').map Prod.fst) := by
  have htidy : s.Tidy := hr.invariant (fun _ => rfl) fun ht hstep => tidy_step ht hstep.2
  refine ⟨fun b ho => ?_, fun text is' s' hs hp hpre hend hr' => ?_,
    fun hs is' => feeds_congr clipboard is' (clean_flush htidy hs)⟩
  · obtain ⟨⟨e, s'⟩, h⟩ := Option.isSome_iff_exists.mp (feed_isSome ho)
    exact ⟨e, s', h, scalar_feed h, fun hu hc hm => malformed_reported ho hu hc hm h, fun hs hs' => paste_empty hs h hs'⟩
  · refine feeds_paste hr' hs ?_ ?_ hend
    · rw [hp, hpre, List.nil_append]
    · rw [hpre]
      exact List.append_ne_nil_of_right_ne_nil _ nofun

/-- `ESC [ 2 0 0 ~` -/
def pasteStart : List UInt8 := [0x1B, 0x5B, 0x32, 0x30, 0x30, 0x7E]

theorem orderly_run_sample :
    Run (Guarded Orderly (Step fun _ => [])) {} (pasteStart.map .byte) { state := .paste } ∧
      ({ state := .paste } : InputParser).feeds (fun _ => [])
        (([0x61, 0x0D] ++ pasteEnd).map .byte) = some ([.paste [0x61, 0x0A]], {}) := by
  have hr : Run (Guarded Orderly (Step fun _ => [])) {} (pasteStart.map .byte) { state := .paste } :=
    .cons ⟨trivial, none, rfl⟩ <| .cons ⟨trivial, none, rfl⟩ <| .cons ⟨fun h => absurd h.1 (by decide), none, rfl⟩ <|
      .cons ⟨fun h => absurd h.1 (by decide), none, rfl⟩ <| .cons ⟨fun h => absurd h.1 (by decide), none, rfl⟩ <|
        .cons ⟨fun _ _ => by decide, none, rfl⟩ <| .nil _
  have hroom : ∀ k < 9, k ≤ maxPasteSize := fun k hk => (Nat.le_of_lt hk).trans (by decide)
  have hr' : Run (Guarded Orderly (Step fun _ => [])) { state := .paste } (([0x61, 0x0D] ++ pasteEnd).map .byte) {} :=
    .cons ⟨Or.inr (hroom 1 (by decide)), none, rfl⟩ <| .cons ⟨Or.inr (hroom 2 (by decide)), none, rfl⟩ <|
      .cons ⟨Or.inr (hroom 3 (by decide)), none, rfl⟩ <| .cons ⟨Or.inr (hroom 4 (by decide)), none, rfl⟩ <|
        .cons ⟨Or.inr (hroom 5 (by decide)), none, rfl⟩ <| .cons ⟨Or.inr (hroom 6 (by decide)), none, rfl⟩ <|
          .cons ⟨Or.inr (hroom 7 (by decide)), none, rfl⟩ <| .cons ⟨Or.inr (hroom 8 (by decide)), _, rfl⟩ <| .nil _
  exact ⟨hr, (orderly_run hr).2.1 [0x61, 0x0D] _ _ rfl rfl rfl (by decide) hr'⟩

/-- In `ESC [ 4294967296 A` a number overflows, and the overlong form `C0 AF` is reported as `/`. -/
theorem overflow_and_overlong :
    ({} : InputParser).feeds (fun _ => [])
        (([0x1B, 0x5B, 0x34, 0x32, 0x39, 0x34, 0x39, 0x36, 0x37, 0x32, 0x39, 0x36, 0x41] : List UInt8).map .byte) = none ∧
      ({} : InputParser).feeds (fun _ => []) (([0xC0, 0xAF] : List UInt8).map .byte) =
        some ([.key { key := .printable, cp := 0x2F }], {}) :=
  ⟨rfl, rfl⟩

end InputParser

end NeForce.TuiInput
