import NeForce.Codepoint

/-! # The terminal input parser

The parser takes bytes one by one and reports keys, mouse and focus events, pasted text and clipboard answers.  What is
collected of an escape sequence, of a character and of a paste is in buffers of their own.  Numbers of a
sequence are computed in `int`: an overflow, which is undefined behaviour, is `none` (`splitParams`).  The decoder of
clipboard answers is a parameter. -/

namespace NeForce.TuiInput

open Codepoint

/-! ### Events -/

inductive KeyType
  | unknown | up | down | left | right | home | «end» | pageUp | pageDown | insert | delete | enter | tab | tabReverse
  | escape | backspace
  /-- `F1` to `F24`. -/
  | F (number : ℕ)
  | printable
deriving DecidableEq

structure Modifier where
  shift : Bool := false
  alt : Bool := false
  ctrl : Bool := false
deriving DecidableEq

def Modifier.or (m m' : Modifier) : Modifier := ⟨m.shift || m'.shift, m.alt || m'.alt, m.ctrl || m'.ctrl⟩

inductive KeyAction
  | press | «repeat» | release
deriving DecidableEq

structure KeyEvent where
  key : KeyType := .unknown
  cp : ℕ := 0
  mods : Modifier := {}
  action : KeyAction := .press
  baseCp : ℕ := 0
deriving DecidableEq

inductive MouseAction
  | press | release | move | wheel
deriving DecidableEq

inductive MouseButton
  | none | left | middle | right | wheelup | wheeldown
deriving DecidableEq

structure MouseEvent where
  x : ℤ
  y : ℤ
  action : MouseAction
  button : MouseButton
  mods : Modifier
deriving DecidableEq

/-- What `feed` reports. -/
inductive Event
  | key (ke : KeyEvent)
  | mouse (me : MouseEvent)
  | focus (focused : Bool)
  | paste (text : List UInt8)
  | clipboard (text : List UInt8)
deriving DecidableEq

/-! ### Numbers and names of keys -/

def maxSequenceSize : ℕ := 32
def maxPasteSize : ℕ := 1024 * 1024
def pasteEnd : List UInt8 := [0x1B, 0x5B, 0x32, 0x30, 0x31, 0x7E]

def isDigit (c : UInt8) : Bool := 0x30 ≤ c && c ≤ 0x39

def modifierOf (param : ℤ) : Modifier :=
  if param < 1 then {}
  else
    let bits := (param - 1).toNat
    ⟨bits.testBit 0, bits.testBit 1, bits.testBit 2⟩

/-- The loop of `split_params`; no result if a number is too large for an `int`. -/
def splitParamsLoop : List UInt8 → ℕ → Bool → List ℕ → Option (List ℕ)
  | [], current, hasDigit, values => some (values ++ [if hasDigit then current else 0])
  | c :: rest, current, hasDigit, values =>
      if c = 0x3B then splitParamsLoop rest 0 false (values ++ [if hasDigit then current else 0])
      else if isDigit c then
        if current * 10 + (c.toNat - 0x30) < 2 ^ 31 then splitParamsLoop rest (current * 10 + (c.toNat - 0x30)) true values
        else none
      else splitParamsLoop rest current hasDigit values

def splitParams (params : List UInt8) : Option (List ℕ) := splitParamsLoop params 0 false []

def controlKey (byte : UInt8) : KeyEvent :=
  if byte = 0x0D ∨ byte = 0x0A then { key := .enter }
  else if byte = 0x09 then { key := .tab }
  else if byte = 0x7F ∨ byte = 0x08 then { key := .backspace }
  else
    { key := .printable
      mods := { ctrl := true }
      cp := ofValue (if byte = 0 then 0x40 else if byte ≤ 26 then byte.toNat + 0x60 else byte.toNat + 0x40) }

def printableKey (cp : ℕ) : KeyEvent := { key := .printable, cp := ofValue cp }

def functionKey (number : ℕ) : KeyEvent := if 1 ≤ number ∧ number ≤ 24 then { key := .F number } else {}

def parseIntLoop (fallback : ℤ) : List UInt8 → ℤ → ℤ
  | [], value => value
  | c :: rest, value =>
      if !isDigit c then fallback
      else
        let value := value * 10 + (c.toNat - 0x30)
        if value > 10000000 then fallback else parseIntLoop fallback rest value

def parseInt (text : List UInt8) (fallback : ℤ) : ℤ := if text = [] then fallback else parseIntLoop fallback text 0

def functionalKeys : List (ℤ × KeyType) :=
  [(57344, .escape), (57345, .enter), (57346, .tab), (57347, .backspace), (57348, .insert), (57349, .delete), (57350, .left),
    (57351, .right), (57352, .up), (57353, .down), (57354, .pageUp), (57355, .pageDown), (57356, .home), (57357, .end)]

def mapFunctionalKey (code : ℤ) : KeyEvent :=
  match functionalKeys.lookup code with
  | some key => { key := key }
  | none => if 57364 ≤ code ∧ code ≤ 57387 then { key := .F (code - 57364 + 1).toNat } else {}

def mapKittyCode (code : ℤ) : KeyEvent :=
  let ke := mapFunctionalKey code
  if ke.key ≠ .unknown then ke
  else if code = 27 then { key := .escape }
  else if code = 13 then { key := .enter }
  else if code = 9 then { key := .tab }
  else if code = 127 then { key := .backspace }
  else if 32 ≤ code ∧ code ≤ 0x10FFFF then printableKey code.toNat
  else {}

/-! ### Control sequences -/

/-- How a control sequence ends: nothing is reported, an event, a key, or a paste begins. -/
inductive Outcome
  | nothing
  | event (e : Event)
  | key (ke : KeyEvent)
  | paste
deriving DecidableEq

/-- The text before the first `:`, and the text behind it if there is one. -/
def splitColon (text : List UInt8) : List UInt8 × Option (List UInt8) :=
  (text.takeWhile (· ≠ 0x3A), if 0x3A ∈ text then some ((text.dropWhile (· ≠ 0x3A)).drop 1) else none)

/-- The Kitty keyboard protocol. -/
def kitty (body : List UInt8) : Outcome :=
  if body.head? = some 0x3F ∨ body.head? = some 0x3E ∨ body.head? = some 0x3C then .nothing
  else
    let parts := body.splitOn 0x3B
    let codePart := splitColon (parts.headD [])
    let code := parseInt codePart.1 (-1)
    if code < 0 then .nothing
    else
      let modPart := ((parts[1]?).getD []).splitOn 0x3A
      let modifiers := if 1 < parts.length then parseInt (modPart.headD []) 1 else 1
      let eventType := if 1 < parts.length then (modPart[1]?.map fun p => parseInt p 1).getD 1 else 1
      let ke := mapKittyCode code
      if ke.key = .unknown then .nothing
      else
        let mods := modifierOf modifiers
        let base : ℤ := match codePart.2 with
          | some alternate => parseInt (splitColon alternate).1 0
          | none => 0
        .key { ke with
          mods := mods
          key := if ke.key = .tab ∧ mods.shift then .tabReverse else ke.key
          action := if eventType = 2 then .repeat else if eventType = 3 then .release else .press
          baseCp := if 0 < base ∧ base ≤ 0x10FFFF then ofValue base.toNat else 0 }

def mouseButton (isWheel : Bool) (code : ℕ) : MouseButton :=
  if isWheel then if code = 0 then .wheelup else if code = 1 then .wheeldown else .none
  else if code = 0 then .left else if code = 1 then .middle else if code = 2 then .right else .none

/-- `parse_sgr_mouse` -/
def parseSgrMouse (body : List UInt8) (release : Bool) : Option Outcome :=
  if body.length < 2 then some .nothing
  else
    (splitParams (body.drop 1)).map fun
      | btn :: x :: y :: _ =>
          let isWheel := btn.testBit 6
          .event (.mouse
            { x := x - 1
              y := y - 1
              action := if isWheel then .wheel else if release then .release else if btn.testBit 5 then .move else .press
              button := mouseButton isWheel (btn % 4)
              mods := ⟨btn.testBit 2, btn.testBit 3, btn.testBit 4⟩ })
      | _ => .nothing

/-- The numbers of the function keys in `CSI … ~`. -/
def functionCodes : List ℕ := [11, 12, 13, 14, 15, 17, 18, 19, 20, 21, 23, 24]

/-- `CSI … ~` -/
def tilde (values : List ℕ) (mods : Modifier) : Outcome :=
  let primary := values.headD 0
  let plain (ke : KeyEvent) : Outcome := .key { ke with mods := ke.mods.or mods }
  match values with
  | 27 :: m :: code :: _ =>
      let modified := mapKittyCode code
      if modified.key = .unknown then .nothing else .key { modified with mods := modifierOf m }
  | _ =>
      if primary = 1 ∨ primary = 7 then plain { key := .home }
      else if primary = 2 then plain { key := .insert }
      else if primary = 3 then plain { key := .delete }
      else if primary = 4 ∨ primary = 8 then plain { key := .end }
      else if primary = 5 then plain { key := .pageUp }
      else if primary = 6 then plain { key := .pageDown }
      else if primary ∈ functionCodes then plain (functionKey (functionCodes.idxOf primary + 1))
      else if primary = 200 then .paste
      else .nothing

/-- The keys named by the final byte of a sequence. -/
def finalKey (final : UInt8) : Option KeyEvent :=
  if final = 0x41 then some { key := .up }
  else if final = 0x42 then some { key := .down }
  else if final = 0x43 then some { key := .right }
  else if final = 0x44 then some { key := .left }
  else if final = 0x48 then some { key := .home }
  else if final = 0x46 then some { key := .end }
  else if final = 0x50 then some (functionKey 1)
  else if final = 0x51 then some (functionKey 2)
  else if final = 0x52 then some (functionKey 3)
  else if final = 0x53 then some (functionKey 4)
  else none

/-- `finish_csi`: what the sequence with the parameters `body` and the final byte `final` says. -/
def finishCsi (body : List UInt8) (final : UInt8) : Option Outcome :=
  if body = [] ∧ final = 0x49 then some (.event (.focus true))
  else if body = [] ∧ final = 0x4F then some (.event (.focus false))
  else if final = 0x75 then some (kitty body)
  else if body.head? = some 0x3C ∧ final = 0x4D then parseSgrMouse body false
  else if body.head? = some 0x3C ∧ final = 0x6D then parseSgrMouse body true
  else
    (splitParams body).map fun values =>
      let mods := modifierOf ((values.getD 1 1 : ℕ) : ℤ)
      if final = 0x7E then tilde values mods
      else if final = 0x5A then .key { key := .tabReverse, mods := Modifier.or { shift := true } mods }
      else match finalKey final with
        | some ke => .key { ke with mods := ke.mods.or mods }
        | none => .nothing

/-! ### Characters -/

/-- The number of bytes that the first byte of a character announces. -/
def expectedLength (first : UInt8) : Option ℕ :=
  if first &&& 0xE0 = 0xC0 then some 2
  else if first &&& 0xF0 = 0xE0 then some 3
  else if first &&& 0xF8 = 0xF0 then some 4
  else none

/-- The bits of a character. -/
def unitValue : List UInt8 → ℕ
  | [a, b] => (a &&& 0x1F).toNat <<< 6 ||| (b &&& 0x3F).toNat
  | [a, b, c] => (a &&& 0x0F).toNat <<< 12 ||| (b &&& 0x3F).toNat <<< 6 ||| (c &&& 0x3F).toNat
  | [a, b, c, d] =>
      (a &&& 0x07).toNat <<< 18 ||| (b &&& 0x3F).toNat <<< 12 ||| (c &&& 0x3F).toNat <<< 6 ||| (d &&& 0x3F).toNat
  | _ => 0

/-! ### The parser -/

inductive State
  | ground | escape | csi | ss3 | utf8 | paste | osc
deriving DecidableEq

structure InputParser where
  state : State := .ground
  seq : List UInt8 := []
  utf8 : List UInt8 := []
  paste : List UInt8 := []
  osc : List UInt8 := []
  alt : Modifier := {}

namespace InputParser

variable (s : InputParser)

def reset : InputParser := {}

/-- The state that `emit_key` leaves. -/
def emitted : InputParser := { s with state := .ground, seq := [], utf8 := [], alt := {} }

def emitKey (ke : KeyEvent) : Option Event × InputParser := (some (.key ke), s.emitted)

def completeUtf8 : Option Event × InputParser :=
  match s.utf8 with
  | [] => (none, {})
  | first :: _ =>
      match expectedLength first with
      | none => s.emitKey { printableKey 0xFFFD with mods := s.alt }
      | some expected =>
          if s.utf8.length < expected then (none, s)
          else if expected < s.utf8.length then (none, {})
          else s.emitKey { printableKey (unitValue s.utf8) with mods := s.alt }

def feedGround (byte : UInt8) : Option Event × InputParser :=
  if byte = 0x1B then (none, { s with state := .escape, seq := [] })
  else if 0x80 ≤ byte then { s with state := .utf8, utf8 := [byte] }.completeUtf8
  else if byte < 0x20 ∨ byte = 0x7F then s.emitKey (controlKey byte)
  else s.emitKey (printableKey byte.toNat)

def feedEscape (byte : UInt8) : Option Event × InputParser :=
  if byte = 0x5B then (none, { s with state := .csi, seq := [] })
  else if byte = 0x5D then (none, { s with state := .osc, osc := [0x1B, 0x5D] })
  else if byte = 0x4F then (none, { s with state := .ss3, seq := [] })
  else if byte = 0x1B then (some (.key { key := .escape }), { s with seq := [], alt := {} })
  else if 0x80 ≤ byte then { s with state := .utf8, alt := { alt := true }, utf8 := [byte] }.completeUtf8
  else if byte < 0x20 ∨ byte = 0x7F then
    s.emitKey { controlKey byte with mods := (controlKey byte).mods.or { alt := true } }
  else s.emitKey { printableKey byte.toNat with mods := { alt := true } }

/-- What a control sequence does to the parser, which is in the ground state with the sequence cleared. -/
def finish : Outcome → Option Event × InputParser
  | .nothing => (none, s)
  | .event e => (some e, s)
  | .key ke => s.emitKey ke
  | .paste => (none, { s with state := .paste, paste := [] })

def feedCsi (byte : UInt8) : Option (Option Event × InputParser) :=
  if byte = 0x1B then some (none, { s with state := .escape, seq := [] })
  else if 0x40 ≤ byte ∧ byte ≤ 0x7E then (finishCsi s.seq byte).map { s with state := .ground, seq := [] }.finish
  else if maxSequenceSize < s.seq.length + 1 then some (none, {})
  else some (none, { s with seq := s.seq ++ [byte] })

def feedSs3 (byte : UInt8) : Option Event × InputParser := s.emitKey ((finalKey byte).getD { key := .escape })

def feedUtf8 (byte : UInt8) : Option Event × InputParser :=
  if byte &&& 0xC0 ≠ 0x80 then ({} : InputParser).feedGround byte
  else { s with utf8 := s.utf8 ++ [byte] }.completeUtf8

/-- `feed_osc`, with the decoder of clipboard answers. -/
def feedOsc (clipboard : List UInt8 → List UInt8) (byte : UInt8) : Option Event × InputParser :=
  let osc := s.osc ++ [byte]
  if byte = 0x07 ∨ (s.osc.getLast? = some 0x1B ∧ byte = 0x5C) then
    (if clipboard osc = [] then none else some (.clipboard (clipboard osc)), {})
  else if maxPasteSize < osc.length then (none, {})
  else (none, { s with osc := osc })

/-- `\r` and `\r\n` become `\n`. -/
def normalize : List UInt8 → List UInt8
  | [] => []
  | 0x0D :: 0x0A :: rest => 0x0A :: normalize rest
  | c :: rest => (if c = 0x0D then 0x0A else c) :: normalize rest

def feedPaste (byte : UInt8) : Option Event × InputParser :=
  let paste := s.paste ++ [byte]
  if ¬ pasteEnd <:+ paste then
    if maxPasteSize < paste.length then (none, { s with state := .ground, paste := [] }) else (none, { s with paste := paste })
  else (some (.paste (normalize (paste.take (paste.length - pasteEnd.length)))), { s with state := .ground, paste := [] })

/-- `feed`: the event, if there is one, and the parser; no result if an `int` overflows. -/
def feed (clipboard : List UInt8 → List UInt8) (byte : UInt8) : Option (Option Event × InputParser) :=
  match s.state with
  | .paste => some (s.feedPaste byte)
  | .osc => some (s.feedOsc clipboard byte)
  | .utf8 => some (s.feedUtf8 byte)
  | .csi => s.feedCsi byte
  | .ss3 => some (s.feedSs3 byte)
  | .escape => some (s.feedEscape byte)
  | .ground => some (s.feedGround byte)

def flush : Option Event × InputParser :=
  match s.state with
  | .escape => s.emitKey { key := .escape }
  | .utf8 | .csi | .ss3 | .osc => (none, {})
  | .paste | .ground => (none, s)

end InputParser

end NeForce.TuiInput
