import NeForce.InputParser

/-! # What the input parser reports

A step is orderly if it passes no limit and does not cut a character short.  An orderly byte does not overflow an `int`
(`feed_isSome`), and a character that is not UTF-8 is reported as `U+FFFD` (`malformed_reported`); every key that is
reported has a scalar value, orderly or not (`scalar_feed`). -/

namespace NeForce.TuiInput

/-! ### What is orderly -/

/-- The numbers of a sequence, whatever their size. -/
def paramValuesLoop : List UInt8 → ℕ → Bool → List ℕ → List ℕ
  | [], current, hasDigit, values => values ++ [if hasDigit then current else 0]
  | c :: rest, current, hasDigit, values =>
      if c = 0x3B then paramValuesLoop rest 0 false (values ++ [if hasDigit then current else 0])
      else if isDigit c then paramValuesLoop rest (current * 10 + (c.toNat - 0x30)) true values
      else paramValuesLoop rest current hasDigit values

def paramValues (params : List UInt8) : List ℕ := paramValuesLoop params 0 false []

/-- A Unicode scalar value. -/
def IsScalar (cp : ℕ) : Prop := cp < 0xD800 ∨ 0xDFFF < cp ∧ cp ≤ 0x10FFFF

/-- A character that has a shorter form. -/
def Overlong (unit : List UInt8) : Prop :=
  unit.length = 2 ∧ unitValue unit < 0x80 ∨ unit.length = 3 ∧ unitValue unit < 0x800 ∨ unit.length = 4 ∧
    unitValue unit < 0x10000

/-- The bytes of a character are all there, or the first one cannot begin a character. -/
def Complete (unit : List UInt8) : Prop :=
  expectedLength (unit.headD 0) = none ∨ expectedLength (unit.headD 0) = some unit.length

/-- What is not UTF-8. -/
def Malformed (unit : List UInt8) : Prop :=
  expectedLength (unit.headD 0) = none ∨ Overlong unit ∨ ¬ IsScalar (unitValue unit)

/-- A byte, or the end of a batch. -/
inductive Input
  | byte (b : UInt8)
  | flush
deriving DecidableEq

def Input.byte? : Input → Option UInt8
  | .byte b => some b
  | .flush => none

namespace InputParser

variable (s : InputParser)

/-- The character that a byte belongs to. -/
def unit (b : UInt8) : List UInt8 := if s.state = .utf8 then s.utf8 ++ [b] else [b]

/-- The byte belongs to a character of more than seven bits. -/
def InUnit (b : UInt8) : Prop := s.state = .utf8 ∨ (s.state = .ground ∨ s.state = .escape) ∧ 0x80 ≤ b

/-- No limit is passed and no character is cut short or overlong: a paste stays below the limit until it ends, the numbers of a
sequence fit into an `int`, and a character goes on to its end, which is not that of an overlong form. -/
def Orderly : Input → Prop
  | .flush => s.state ≠ .utf8
  | .byte b =>
      match s.state with
      | .paste => pasteEnd <:+ s.paste ++ [b] ∨ s.paste.length + 1 ≤ maxPasteSize
      | .utf8 => b &&& 0xC0 = 0x80 ∧ ¬ (Complete (s.utf8 ++ [b]) ∧ Overlong (s.utf8 ++ [b]))
      | .csi => 0x40 ≤ b ∧ b ≤ 0x7E → b ≠ 0x75 → ∀ v ∈ paramValues s.seq, v < 2 ^ 31
      | _ => True

/-- An input. -/
def input (clipboard : List UInt8 → List UInt8) : Input → Option (Option Event × InputParser)
  | .byte b => s.feed clipboard b
  | .flush => some s.flush

def Step (clipboard : List UInt8 → List UInt8) (s : InputParser) (i : Input) (s' : InputParser) : Prop :=
  ∃ e, s.input clipboard i = some (e, s')

/-- The events of the inputs, and the parser behind them. -/
def feeds (clipboard : List UInt8 → List UInt8) : InputParser → List Input → Option (List Event × InputParser)
  | s, [] => some ([], s)
  | s, i :: is => do
      let (e, s) ← s.input clipboard i
      let (es, s) ← feeds clipboard s is
      some (e.toList ++ es, s)

end InputParser

/-! ### Numbers -/

theorem mem_paramValuesLoop {v : ℕ} {values : List ℕ} (hv : v ∈ values) (params : List UInt8) (current : ℕ)
    (hasDigit : Bool) : v ∈ paramValuesLoop params current hasDigit values := by
  induction params generalizing current hasDigit values with
  | nil => exact List.mem_append_left _ hv
  | cons c rest ih =>
      rw [paramValuesLoop]
      split
      · exact ih (List.mem_append_left _ hv) _ _
      · split
        · exact ih hv _ _
        · exact ih hv _ _

/-- The number under way is not larger than what becomes of it. -/
theorem le_paramValuesLoop (params : List UInt8) (current : ℕ) (values : List ℕ) :
    ∃ v ∈ paramValuesLoop params current true values, current ≤ v := by
  induction params generalizing current values with
  | nil => exact ⟨current, by simp [paramValuesLoop], le_rfl⟩
  | cons c rest ih =>
      rw [paramValuesLoop]
      split
      · exact ⟨current, mem_paramValuesLoop (by simp) _ _ _, le_rfl⟩
      · split
        · obtain ⟨v, hv, hle⟩ := ih (current * 10 + (c.toNat - 0x30)) values
          exact ⟨v, hv, by omega⟩
        · exact ih current values

/-- Where the numbers fit into an `int`, none overflows on the way. -/
theorem splitParamsLoop_eq {params : List UInt8} {current : ℕ} {hasDigit : Bool} {values : List ℕ}
    (h : ∀ v ∈ paramValuesLoop params current hasDigit values, v < 2 ^ 31) :
    splitParamsLoop params current hasDigit values = some (paramValuesLoop params current hasDigit values) := by
  induction params generalizing current hasDigit values with
  | nil => rfl
  | cons c rest ih =>
      rw [paramValuesLoop] at h ⊢
      rw [splitParamsLoop]
      split
      · rename_i hc
        rw [if_pos hc] at h
        exact ih h
      · rename_i hc
        rw [if_neg hc] at h
        split
        · rename_i hd
          rw [if_pos hd] at h
          obtain ⟨v, hv, hle⟩ := le_paramValuesLoop rest (current * 10 + (c.toNat - 0x30)) values
          rw [if_pos (hle.trans_lt (h v hv))]
          exact ih h
        · rename_i hd
          rw [if_neg hd] at h
          exact ih h

theorem splitParams_eq {params : List UInt8} (h : ∀ v ∈ paramValues params, v < 2 ^ 31) :
    splitParams params = some (paramValues params) := splitParamsLoop_eq h

/-- A sign in front does not matter. -/
theorem paramValues_cons {c : UInt8} {params : List UInt8} (h1 : c ≠ 0x3B) (h2 : isDigit c = false) :
    paramValues (c :: params) = paramValues params := by
  rw [paramValues, paramValuesLoop, if_neg h1, h2, if_neg Bool.false_ne_true, paramValues]

theorem finishCsi_isSome {body : List UInt8} {final : UInt8} (h : final ≠ 0x75 → ∀ v ∈ paramValues body, v < 2 ^ 31) :
    (finishCsi body final).isSome = true := by
  have hmouse : final ≠ 0x75 → body.head? = some 0x3C → ∀ release, (parseSgrMouse body release).isSome = true := by
    intro hf hhead release
    rw [parseSgrMouse]
    split
    · rfl
    · cases body with
      | nil => cases hhead
      | cons c rest =>
          obtain rfl := Option.some.inj hhead
          have hv := h hf
          rw [paramValues_cons (by decide) (by decide)] at hv
          rw [List.drop_one, List.tail_cons, splitParams_eq hv]
          rfl
  rw [finishCsi]
  split
  · rfl
  · split
    · rfl
    · split
      · rfl
      · rename_i hf
        split
        · rename_i hh
          exact hmouse hf hh.1 false
        · split
          · rename_i hh
            exact hmouse hf hh.1 true
          · rw [splitParams_eq (h hf)]
            rfl

/-! ### Characters -/

open Codepoint

theorem isScalar_ofValue (v : ℕ) : IsScalar (ofValue v) := by
  rw [ofValue]
  split
  · rename_i h
    simp only [isValidCodepoint, isHighSurrogate, isLowSurrogate, Bool.and_eq_true, Bool.not_eq_true', Bool.and_eq_false_iff,
      decide_eq_true_eq, decide_eq_false_iff_not] at h
    unfold IsScalar
    omega
  · exact Or.inr ⟨by decide, by decide⟩

theorem ofValue_of_not_scalar {v : ℕ} (h : ¬ IsScalar v) : ofValue v = 0xFFFD := by
  rw [ofValue, if_neg]
  simp only [isValidCodepoint, isHighSurrogate, isLowSurrogate, Bool.and_eq_true, Bool.not_eq_true', Bool.and_eq_false_iff,
    decide_eq_true_eq, decide_eq_false_iff_not]
  unfold IsScalar at h
  omega

theorem isScalar_zero : IsScalar 0 := Or.inl (by decide)

theorem isScalar_controlKey (b : UInt8) : IsScalar (controlKey b).cp := by
  rw [controlKey]
  split
  · exact isScalar_zero
  · split
    · exact isScalar_zero
    · split
      · exact isScalar_zero
      · exact isScalar_ofValue _

theorem isScalar_printableKey (cp : ℕ) : IsScalar (printableKey cp).cp := isScalar_ofValue cp

theorem isScalar_functionKey (n : ℕ) : IsScalar (functionKey n).cp := by
  rw [functionKey]
  split <;> exact isScalar_zero

theorem isScalar_mapKittyCode (code : ℤ) : IsScalar (mapKittyCode code).cp := by
  have hf : (mapFunctionalKey code).cp = 0 := by
    rw [mapFunctionalKey]
    split
    · rfl
    · split <;> rfl
  rw [mapKittyCode]
  split
  · rw [hf]
    exact isScalar_zero
  · repeat' refine iteInduction (motive := fun ke : KeyEvent => IsScalar ke.cp) (fun _ => ?_) fun _ => ?_
    all_goals first | exact isScalar_zero | exact isScalar_printableKey _

theorem isScalar_finalKey {final : UInt8} {ke : KeyEvent} : finalKey final = some ke → IsScalar ke.cp := by
  rw [finalKey]
  repeat' refine iteInduction (motive := fun o : Option KeyEvent => o = some ke → IsScalar ke.cp) (fun _ => ?_) fun _ => ?_
  all_goals
    intro h
    cases h
  all_goals exact isScalar_zero

/-- The keys that a sequence may report have scalar values. -/
def Outcome.Scalar : Outcome → Prop
  | .key ke => IsScalar ke.cp
  | .event (.key _) => False
  | _ => True

theorem scalar_kitty (body : List UInt8) : (kitty body).Scalar := by
  rw [kitty]
  split
  · trivial
  · simp only
    split
    · trivial
    · split
      · trivial
      · exact isScalar_mapKittyCode _

theorem scalar_tilde (values : List ℕ) (mods : Modifier) : (tilde values mods).Scalar := by
  rw [tilde.eq_def]
  simp only
  split
  · split
    · trivial
    · exact isScalar_mapKittyCode _
  · repeat' refine iteInduction (motive := Outcome.Scalar) (fun _ => ?_) fun _ => ?_
    all_goals first | exact isScalar_zero | exact isScalar_functionKey _ | trivial

theorem scalar_parseSgrMouse {body : List UInt8} {release : Bool} {o : Outcome} (h : parseSgrMouse body release = some o) :
    o.Scalar := by
  rw [parseSgrMouse] at h
  split at h
  · obtain rfl := Option.some.inj h
    trivial
  · obtain ⟨values, _, rfl⟩ := Option.map_eq_some_iff.mp h
    split <;> trivial

theorem scalar_finishCsi {body : List UInt8} {final : UInt8} {o : Outcome} (h : finishCsi body final = some o) : o.Scalar := by
  rw [finishCsi] at h
  split at h
  · obtain rfl := Option.some.inj h
    trivial
  · split at h
    · obtain rfl := Option.some.inj h
      trivial
    · split at h
      · obtain rfl := Option.some.inj h
        exact scalar_kitty body
      · split at h
        · exact scalar_parseSgrMouse h
        · split at h
          · exact scalar_parseSgrMouse h
          · obtain ⟨values, _, rfl⟩ := Option.map_eq_some_iff.mp h
            simp only
            split
            · exact scalar_tilde _ _
            · split
              · exact isScalar_zero
              · split
                · rename_i ke hk
                  show IsScalar ke.cp
                  exact isScalar_finalKey hk
                · trivial

namespace InputParser

variable {s s' : InputParser} {clipboard : List UInt8 → List UInt8} {b : UInt8}

/-- The key that a result reports has a scalar value. -/
def Scalar (r : Option Event × InputParser) : Prop := ∀ ke, r.1 = some (.key ke) → IsScalar ke.cp

theorem scalar_none (s : InputParser) : Scalar (none, s) := fun ke h => by cases h

theorem scalar_emitKey {ke : KeyEvent} (h : IsScalar ke.cp) : Scalar (s.emitKey ke) := fun ke' h' => by
  cases h'
  exact h

theorem scalar_completeUtf8 (s : InputParser) : Scalar s.completeUtf8 := by
  rw [completeUtf8]
  split
  · exact scalar_none _
  · split
    · exact scalar_emitKey (isScalar_printableKey 0xFFFD)
    · split
      · exact scalar_none _
      · split
        · exact scalar_none _
        · exact scalar_emitKey (isScalar_printableKey (unitValue s.utf8))

theorem scalar_feedGround (s : InputParser) (b : UInt8) : Scalar (s.feedGround b) := by
  rw [feedGround]
  split
  · exact scalar_none _
  · split
    · exact scalar_completeUtf8 _
    · split
      · exact scalar_emitKey (isScalar_controlKey b)
      · exact scalar_emitKey (isScalar_printableKey _)

theorem scalar_feedEscape (s : InputParser) (b : UInt8) : Scalar (s.feedEscape b) := by
  rw [feedEscape]
  split
  · exact scalar_none _
  · split
    · exact scalar_none _
    · split
      · exact scalar_none _
      · split
        · intro ke h
          cases h
          exact isScalar_zero
        · split
          · exact scalar_completeUtf8 _
          · split
            · exact scalar_emitKey (isScalar_controlKey b)
            · exact scalar_emitKey (isScalar_printableKey b.toNat)

/-- **Every key that is reported has a scalar value.** -/
theorem scalar_feed {r : Option Event × InputParser} (h : s.feed clipboard b = some r) : Scalar r := by
  rw [feed] at h
  split at h
  · obtain rfl := Option.some.inj h
    rw [feedPaste]
    split
    · split <;> exact scalar_none _
    · exact fun ke h => by cases h
  · obtain rfl := Option.some.inj h
    rw [feedOsc]
    split
    · split <;> exact fun ke h => by cases h
    · split <;> exact scalar_none _
  · obtain rfl := Option.some.inj h
    rw [feedUtf8]
    split
    · exact scalar_feedGround _ b
    · exact scalar_completeUtf8 _
  · rw [feedCsi] at h
    split at h
    · obtain rfl := Option.some.inj h
      exact scalar_none _
    · split at h
      · obtain ⟨o, ho, rfl⟩ := Option.map_eq_some_iff.mp h
        have hs := scalar_finishCsi ho
        cases o with
        | nothing => exact scalar_none _
        | event e =>
            intro ke he
            cases he
            exact hs.elim
        | key ke => exact scalar_emitKey hs
        | paste => exact scalar_none _
      · split at h
        · obtain rfl := Option.some.inj h
          exact scalar_none _
        · obtain rfl := Option.some.inj h
          exact scalar_none _
  · obtain rfl := Option.some.inj h
    refine scalar_emitKey ?_
    cases hk : finalKey b with
    | none => exact isScalar_zero
    | some ke => exact isScalar_finalKey hk
  · obtain rfl := Option.some.inj h
    exact scalar_feedEscape s b
  · obtain rfl := Option.some.inj h
    exact scalar_feedGround s b

/-! ### What an orderly step reports -/

/-- Every byte that begins a character announces another one. -/
theorem expectedLength_ne_one (first : UInt8) : expectedLength first ≠ some 1 := by
  rw [expectedLength]
  repeat' refine iteInduction (motive := (· ≠ some 1)) (fun _ => ?_) fun _ => ?_
  all_goals exact nofun

/-- A character that is not UTF-8 is reported as `U+FFFD`. -/
theorem malformed_reported {r : Option Event × InputParser} (ho : s.Orderly (.byte b)) (hu : s.InUnit b)
    (hc : Complete (s.unit b)) (hm : Malformed (s.unit b)) (h : s.feed clipboard b = some r) :
    ∃ ke, r.1 = some (.key ke) ∧ ke.key = .printable ∧ ke.cp = 0xFFFD := by
  have hrepl : (printableKey 0xFFFD).cp = 0xFFFD := by decide
  -- a complete character in the buffer
  have hcomplete : ∀ t : InputParser, t.utf8 ≠ [] → Complete t.utf8 →
      (expectedLength (t.utf8.headD 0) = none ∨ ¬ IsScalar (unitValue t.utf8)) →
      ∃ ke, t.completeUtf8.1 = some (.key ke) ∧ ke.key = .printable ∧ ke.cp = 0xFFFD := by
    intro t hne hc hm
    rw [completeUtf8]
    split
    · rename_i hnil
      exact absurd hnil hne
    · rename_i first rest hcons
      rw [Complete, hcons, List.headD_cons] at hc
      rw [hcons, List.headD_cons] at hm
      rw [hcons]
      obtain hnone | hsome := hc
      · rw [hnone]
        exact ⟨_, rfl, rfl, hrepl⟩
      · rw [hsome]
        have hbad : ¬ IsScalar (unitValue (first :: rest)) := hm.resolve_left (by rw [hsome]; exact nofun)
        simp only [Nat.lt_irrefl, if_false]
        exact ⟨_, rfl, rfl, ofValue_of_not_scalar hbad⟩
  -- a single byte is complete only if it cannot begin a character
  have hsingle : ∀ t : InputParser, t.utf8 = [b] → Complete [b] →
      ∃ ke, t.completeUtf8.1 = some (.key ke) ∧ ke.key = .printable ∧ ke.cp = 0xFFFD := by
    intro t ht hc
    have hnone : expectedLength b = none := by
      obtain hnone | hsome := hc
      · exact hnone
      · exact absurd hsome (expectedLength_ne_one b)
    refine hcomplete t (by rw [ht]; exact nofun) (by rw [ht]; exact hc) (Or.inl ?_)
    rw [ht]
    exact hnone
  rw [feed] at h
  obtain hs | ⟨hs | hs, hb⟩ := hu
  · rw [hs] at h
    obtain rfl := Option.some.inj h
    rw [unit, if_pos hs] at hc hm
    rw [Orderly, hs] at ho
    obtain ⟨hcont, hnot⟩ := ho
    rw [feedUtf8, if_neg (not_not.mpr hcont)]
    refine hcomplete _ (by simp) hc ?_
    obtain hm | hm | hm := hm
    · exact Or.inl hm
    · exact absurd ⟨hc, hm⟩ hnot
    · exact Or.inr hm
  · rw [hs] at h
    obtain rfl := Option.some.inj h
    rw [unit, if_neg (by rw [hs]; exact nofun)] at hc
    rw [feedGround, if_neg (by rintro rfl; revert hb; decide), if_pos hb]
    exact hsingle _ rfl hc
  · rw [hs] at h
    obtain rfl := Option.some.inj h
    rw [unit, if_neg (by rw [hs]; exact nofun)] at hc
    have hne : ∀ c : UInt8, c < 0x80 → b ≠ c := fun c hc he => by
      subst he
      exact absurd hb (UInt8.not_le.mpr hc)
    rw [feedEscape, if_neg (hne _ (by decide)), if_neg (hne _ (by decide)), if_neg (hne _ (by decide)),
      if_neg (hne _ (by decide)), if_pos hb]
    exact hsingle _ rfl hc

/-- No number overflows in an orderly step. -/
theorem feed_isSome (ho : s.Orderly (.byte b)) : (s.feed clipboard b).isSome = true := by
  rw [feed]
  split
  · rfl
  · rfl
  · rfl
  · rename_i hs
    rw [Orderly, hs] at ho
    rw [feedCsi]
    split
    · rfl
    · split
      · rename_i hf
        rw [Option.isSome_map]
        exact finishCsi_isSome (ho hf)
      · split <;> rfl
  · rfl
  · rfl
  · rfl

end InputParser

end NeForce.TuiInput
