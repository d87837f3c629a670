import Mathlib.Data.List.Forall2
import NeForce.BinarySerializer

/-! # Properties that the reader does not have

The skip of an unknown value takes 8 bytes for a number and goes through the elements of a container without looking
into a container among them.  So it is exact for a value without a `bool`, a `float` and a container in a container;
an object in it is skipped by its length, whatever it holds (`skipValue_append`).  Then the properties that the reader
has are restored (`common_restored`), if they are of types that the reader gives back. -/

namespace NeForce.Binary

/-! ### What is skipped -/

/-- A value that is skipped as an element of a container. -/
inductive Flat (typeName : ℕ → Bytes) : Val → Prop
  | empty : Flat typeName .empty
  | arith (t : Arith) (z : ℤ) (ht : t.width = 8) : Flat typeName (.arith t z)
  | string (s : Bytes) (hs : s.length < 2 ^ 32) : Flat typeName (.string s)
  | enumeration (tid : ℕ) (z : ℤ) : Flat typeName (.enumeration tid z)
  | object (tid : ℕ) (props : List (Bytes × Val)) (hdata : (serialize typeName tid props).length < 2 ^ 32) :
      Flat typeName (.object tid props)

/-- A value that is skipped: it is flat, or a container of flat values. -/
inductive Skippable (typeName : ℕ → Bytes) : Val → Prop
  | flat (v : Val) (h : Flat typeName v) : Skippable typeName v
  | container (tid : ℕ) (es : List Val) (hlen : es.length < 2 ^ 32) (hes : ∀ e ∈ es, Flat typeName e) :
      Skippable typeName (.container tid es)

/-! ### What is restored -/

/-- The numbers that are written in 8 bytes and given back by the setters: those of a `double`, and the integers of the
other types that the reader names. -/
def Arith.Kept (t : Arith) (z : ℤ) : Prop :=
  match t with
  | .double => 0 ≤ z ∧ z < 2 ^ 64
  | .int => -2 ^ 31 ≤ z ∧ z < 2 ^ 31
  | .unsignedInt => 0 ≤ z ∧ z < 2 ^ 32
  | .short => -2 ^ 15 ≤ z ∧ z < 2 ^ 15
  | .unsignedShort => 0 ≤ z ∧ z < 2 ^ 16
  | .char => -2 ^ 7 ≤ z ∧ z < 2 ^ 7
  | .long => -2 ^ 63 ≤ z ∧ z < 2 ^ 63
  | _ => False

/-- The types of the elements that a container is given. -/
def Kind.IsElement : Kind → Prop
  | .arith .int => True
  | .arith .double => True
  | .arith .long => True
  | .string => True
  | .object _ => True
  | _ => False

/-- An object in a property or container has a length of 32 bits. -/
def Val.Sized (typeName : ℕ → Bytes) (v : Val) : Prop :=
  ∀ tid props, v = .object tid props → (serialize typeName tid props).length < 2 ^ 32

/-- A value of a type that the reader has, where it also has the types in it, but not all of their properties.  Those
that it does not have are skippable. -/
inductive Restorable (typeName : ℕ → Bytes) (registry : Registry) : Kind → Val → Prop
  | arith (t : Arith) (z : ℤ) (hz : t.Kept z) : Restorable typeName registry (.arith t) (.arith t z)
  | string (s : Bytes) (hs : s.length < 2 ^ 32) : Restorable typeName registry .string (.string s)
  | container (tid : ℕ) (es : List Val) (element : Kind) (hlen : es.length < 2 ^ 32)
      (htype : registry.elements tid = some element) (hkind : element.IsElement)
      (hsized : ∀ e ∈ es, e.Sized typeName) (hes : ∀ e ∈ es, Restorable typeName registry element e) :
      Restorable typeName registry (.container tid) (.container tid es)
  | object (tid : ℕ) (props : List (Bytes × Val)) (type : Meta) (htid : tid < 2 ^ 64)
      (hname : (typeName tid).length < 2 ^ 16) (hlen : props.length < 2 ^ 32)
      (htype : registry.find tid = some type)
      (hnames : ∀ p ∈ props, p.1.length < 2 ^ 16) (hnodup : (props.map Prod.fst).Nodup)
      (hunknown : ∀ p ∈ props, type.properties p.1 = none → Skippable typeName p.2)
      (hsized : ∀ p ∈ props, p.2.Sized typeName)
      (hknown : ∀ p ∈ props, ∀ kind, type.properties p.1 = some kind → Restorable typeName registry kind p.2) :
      Restorable typeName registry (.object tid) (.object tid props)

/-- The second value is the first one, less the properties that the reader does not have. -/
inductive Restored (registry : Registry) : Val → Val → Prop
  | arith (t : Arith) (z : ℤ) : Restored registry (.arith t z) (.arith t z)
  | string (s : Bytes) : Restored registry (.string s) (.string s)
  | container (tid : ℕ) (es es' : List Val) (hlen : es.length = es'.length)
      (h : ∀ (i : ℕ) (e e' : Val), es[i]? = some e → es'[i]? = some e' → Restored registry e e') :
      Restored registry (.container tid es) (.container tid es')
  | object (tid : ℕ) (props fields : List (Bytes × Val)) (type : Meta) (value : Bytes → Val)
      (htype : registry.find tid = some type)
      (hlookup : ∀ p ∈ props, type.properties p.1 ≠ none → fields.lookup p.1 = some (value p.1))
      (h : ∀ p ∈ props, type.properties p.1 ≠ none → Restored registry p.2 (value p.1)) :
      Restored registry (.object tid props) (.object tid fields)

variable {typeName : ℕ → Bytes} {registry : Registry} {nested : Bytes → Option Val} {n k v depth : ℕ} {data rest name : Bytes}
  {e : Val} {es : List Val} {props fields : List (Bytes × Val)} {t : Arith} {z : ℤ} {kind : Kind} {tid : ℕ}

/-! ### Skips -/

theorem word_append (hv : v < 256 ^ n) (rest : Bytes) : word n (writeBe n v ++ rest) = some (v, rest) := by
  have hlength : n ≤ (writeBe n v ++ rest).length := by simp
  unfold word
  rw [if_neg (Nat.not_lt.mpr hlength), List.take_left' (length_writeBe n v), List.drop_left' (length_writeBe n v),
    readBe_writeBe, Nat.mod_eq_of_lt hv]

theorem bitsOf_lt (z : ℤ) : bitsOf z < 256 ^ 8 := by
  unfold bitsOf
  omega

theorem skipSized_append (h : data.length < 2 ^ 32) (rest : Bytes) :
    skipSized (writeBe 4 data.length ++ data ++ rest) = rest := by
  unfold skipSized
  rw [List.append_assoc, word_append h]
  exact List.drop_left' rfl

theorem writeValue_object (tid : ℕ) (props : List (Bytes × Val)) : writeValue typeName (.object tid props) =
    2 :: (writeBe 4 (serialize typeName tid props).length ++ serialize typeName tid props) := by
  rw [writeValue]
  rfl

theorem skipElements_cons (he : Flat typeName e) (n : ℕ) (rest : Bytes) :
    skipElements (n + 1) (writeValue typeName e ++ rest) = skipElements n rest := by
  cases he with
  | empty => rw [writeValue]; rfl
  | arith t z ht =>
      rw [writeValue, ht, List.cons_append, skipElements, if_pos rfl, List.drop_left' (length_writeBe 8 _)]
  | string s hs =>
      rw [writeValue, List.cons_append, skipElements, if_neg (by decide), if_neg (by decide), if_pos rfl, skipSized_append hs]
  | enumeration tid z => rw [writeValue, List.cons_append, skipElements, if_pos rfl, List.drop_left' (length_writeBe 8 _)]
  | object tid props hdata =>
      rw [writeValue_object, List.cons_append, skipElements, if_neg (by decide), if_pos rfl, skipSized_append hdata]

theorem skipElements_append (hes : ∀ e ∈ es, Flat typeName e) (rest : Bytes) :
    skipElements es.length (writeElements typeName es ++ rest) = some rest := by
  induction es with
  | nil => rfl
  | cons e es ih =>
      rw [writeElements, List.append_assoc, List.length_cons, skipElements_cons (hes e List.mem_cons_self)]
      exact ih fun e he => hes e (List.mem_cons_of_mem _ he)

/-- The skip goes to the end of the value. -/
theorem skipValue_append (h : Skippable typeName e) (rest : Bytes) : skipValue (writeValue typeName e ++ rest) = some rest := by
  cases h with
  | flat _ h =>
      cases h with
      | empty => rw [writeValue]; rfl
      | arith t z ht => rw [writeValue, ht, List.cons_append, skipValue, if_pos rfl, List.drop_left' (length_writeBe 8 _)]
      | string s hs =>
          rw [writeValue, List.cons_append, skipValue, if_neg (by decide), if_neg (by decide), if_neg (by decide), if_pos rfl,
            skipSized_append hs]
      | enumeration tid z => rw [writeValue, List.cons_append, skipValue, if_pos rfl, List.drop_left' (length_writeBe 8 _)]
      | object tid props hdata =>
          rw [writeValue_object, List.cons_append, skipValue, if_neg (by decide), if_pos rfl, skipSized_append hdata]
  | container tid es hlen hes =>
      rw [writeValue, List.cons_append, skipValue, if_neg (by decide), if_neg (by decide), if_pos rfl, List.append_assoc,
        word_append hlen]
      exact skipElements_append hes rest

/-! ### Values -/

theorem Arith.Kept.width (h : t.Kept z) : t.width = 8 := by
  cases t <;> first | rfl | exact absurd h id

theorem bitsOf_cast (z : ℤ) : (bitsOf z : ℤ) = z % 2 ^ 64 := by
  unfold bitsOf
  omega

theorem Arith.Kept.read (h : t.Kept z) : t.read (bitsOf z) = some z := by
  have hz := bitsOf_cast z
  cases t <;> simp only [Arith.Kept] at h <;> simp only [Arith.read, Option.some.injEq, Int.bmod_def, hz] <;> (try split) <;>
    omega

/-- What the reader makes of a value of the type. -/
def Reads (typeName : ℕ → Bytes) (registry : Registry) (kind : Kind) (v : Val) : Prop :=
  ∀ depth rest, (writeValue typeName v).length ≤ depth → ∃ v',
    readValue registry (deserializeTo registry depth) kind (writeValue typeName v ++ rest) = some (.next (some v') rest) ∧
      Restored registry v v'

theorem reads_arith (h : t.Kept z) : Reads typeName registry (.arith t) (.arith t z) := by
  intro depth rest _
  refine ⟨.arith t z, ?_, .arith t z⟩
  rw [writeValue, h.width, List.cons_append, readValue, if_pos rfl, word_append (bitsOf_lt z)]
  dsimp only
  rw [h.read]
  rfl

theorem readSized_append {f : Bytes → Option (Option Val)} {value : Option Val} (hlen : data.length < 2 ^ 32)
    (hf : f data = some value) (rest : Bytes) :
    readSized (writeBe 4 data.length ++ data ++ rest) f = some (.next value rest) := by
  unfold readSized
  rw [List.append_assoc, word_append hlen]
  dsimp only
  rw [if_neg (by simp), List.take_left' rfl, hf, List.drop_left' rfl]
  rfl

theorem reads_string {s : Bytes} (hs : s.length < 2 ^ 32) : Reads typeName registry .string (.string s) := by
  intro depth rest _
  refine ⟨.string s, ?_, .string s⟩
  rw [writeValue, List.cons_append, readValue, if_neg (by decide), if_neg (by decide), if_neg (by decide), if_pos rfl]
  exact readSized_append hs rfl rest

/-! ### Containers -/

/-- An element is read as a property of its type is. -/
theorem readElement_eq (hkind : kind.IsElement) {tag : UInt8} (htag : tag ≠ 3) (data : Bytes) :
    readElement kind nested tag data = readValue registry nested kind (tag :: data) := by
  have hread (t : Arith) (ht : kind = .arith t) (bits : ℕ) : t.readElement bits = t.read bits := by
    subst ht
    cases t <;> first | rfl | exact absurd hkind id
  rw [readElement, readValue, if_neg htag]
  by_cases htag : tag = 1
  · rw [if_pos htag, if_pos htag]
    cases word 8 data with
    | none => rfl
    | some r =>
        cases kind with
        | arith t =>
            dsimp only
            rw [hread t rfl]
        | _ => rfl
  · rw [if_neg htag, if_neg htag]

theorem Restorable.tag (h : Restorable typeName registry kind e) (hkind : kind.IsElement) :
    ∃ tag data, writeValue typeName e = tag :: data ∧ tag ≠ 3 := by
  cases h with
  | arith t z hz => exact ⟨1, _, by rw [writeValue], by decide⟩
  | string s hs => exact ⟨4, _, by rw [writeValue], by decide⟩
  | container tid es element hlen htype hkind' hsized hes => exact absurd hkind id
  | object tid props type => exact ⟨2, _, by rw [writeValue], by decide⟩

theorem readElements_append (hkind : kind.IsElement) (hes : ∀ e ∈ es, Restorable typeName registry kind e)
    (hreads : ∀ e ∈ es, Reads typeName registry kind e) (hdepth : (writeElements typeName es).length ≤ depth)
    (before : List Val) (rest : Bytes) : ∃ es', List.Forall₂ (Restored registry) es es' ∧
      readElements kind (deserializeTo registry depth) es.length before (writeElements typeName es ++ rest) =
        some (before ++ es', rest) := by
  induction es generalizing before with
  | nil => exact ⟨[], .nil, by rw [List.append_nil]; rfl⟩
  | cons e es ih =>
      rw [writeElements, List.length_append] at hdepth
      obtain ⟨tag, data, htag, hne⟩ := (hes e List.mem_cons_self).tag hkind
      obtain ⟨e', hread, hrestored⟩ := hreads e List.mem_cons_self depth (writeElements typeName es ++ rest) (by omega)
      obtain ⟨es', hall, hloop⟩ := ih (fun e he => hes e (List.mem_cons_of_mem _ he))
        (fun e he => hreads e (List.mem_cons_of_mem _ he)) (by omega) (before ++ [e'])
      refine ⟨e' :: es', .cons hrestored hall, ?_⟩
      rw [htag, List.cons_append] at hread
      rw [writeElements, List.append_assoc, htag, List.cons_append, List.length_cons, readElements,
        readElement_eq hkind hne, hread]
      dsimp only [bind, Option.bind]
      rw [Option.toList, hloop, List.append_assoc]
      rfl

theorem reads_container {element : Kind} (hlen : es.length < 2 ^ 32) (htype : registry.elements tid = some element)
    (hkind : element.IsElement) (hes : ∀ e ∈ es, Restorable typeName registry element e)
    (hreads : ∀ e ∈ es, Reads typeName registry element e) :
    Reads typeName registry (.container tid) (.container tid es) := by
  intro depth rest hdepth
  rw [writeValue, List.length_cons, List.length_append] at hdepth
  have helements : (writeElements typeName es).length ≤ depth := by omega
  obtain ⟨es', hall, hloop⟩ := readElements_append hkind hes hreads helements [] rest
  refine ⟨.container tid es', ?_, .container tid es es' hall.length_eq fun i e e' he he' => ?_⟩
  · rw [writeValue, List.cons_append, readValue, if_neg (by decide), if_neg (by decide), if_pos rfl, List.append_assoc,
      word_append hlen]
    dsimp only
    rw [htype]
    dsimp only
    rw [hloop]
    rfl
  · obtain ⟨hi, rfl⟩ := List.getElem?_eq_some_iff.mp he
    obtain ⟨hi', rfl⟩ := List.getElem?_eq_some_iff.mp he'
    exact hall.get hi hi'

/-! ### Objects -/

/-- The properties that were set, and the fields that were there before. -/
structure PropsRead (registry : Registry) (type : Meta) (props fields fields' : List (Bytes × Val)) : Prop where
  known : ∀ p ∈ props, type.properties p.1 ≠ none → ∃ v, fields'.lookup p.1 = some v ∧ Restored registry p.2 v
  other : ∀ name, name ∉ props.map Prod.fst → fields'.lookup name = fields.lookup name

theorem readProps_append {type : Meta} (hnames : ∀ p ∈ props, p.1.length < 2 ^ 16) (hnodup : (props.map Prod.fst).Nodup)
    (hunknown : ∀ p ∈ props, type.properties p.1 = none → Skippable typeName p.2)
    (hreads : ∀ p ∈ props, ∀ kind, type.properties p.1 = some kind → Reads typeName registry kind p.2)
    (hdepth : (writeProps typeName props).length ≤ depth) (fields : List (Bytes × Val)) :
    ∃ fields', readProps registry type (deserializeTo registry depth) props.length (writeProps typeName props) fields =
      some fields' ∧ PropsRead registry type props fields fields' := by
  induction props generalizing fields with
  | nil => exact ⟨fields, rfl, fun p hp => (by cases hp), fun _ _ => rfl⟩
  | cons p props ih =>
      obtain ⟨name, v⟩ := p
      rw [writeProps, List.length_append, List.length_append, List.length_append] at hdepth
      obtain ⟨hfresh, hnodup⟩ := List.nodup_cons.mp hnodup
      have ih := ih (fun p hp => hnames p (List.mem_cons_of_mem _ hp)) hnodup
        (fun p hp => hunknown p (List.mem_cons_of_mem _ hp)) (fun p hp => hreads p (List.mem_cons_of_mem _ hp)) (by omega)
      have hname : name.length < 256 ^ 2 := hnames _ List.mem_cons_self
      have hlength : ¬(name ++ (writeValue typeName v ++ writeProps typeName props)).length < name.length := by simp
      rw [List.length_cons, writeProps, readProps, word_append hname]
      dsimp only
      rw [if_neg hlength, List.take_left' rfl, List.drop_left' rfl]
      cases htype : type.properties name with
      | none =>
          obtain ⟨fields', hloop, hknown, hother⟩ := ih fields
          refine ⟨fields', ?_, fun p hp hp' => ?_, fun name' hname' => ?_⟩
          · dsimp only
            rw [skipValue_append (hunknown _ List.mem_cons_self htype)]
            exact hloop
          · rcases List.mem_cons.mp hp with rfl | hp
            · exact absurd htype hp'
            · exact hknown p hp hp'
          · exact hother name' fun h => hname' (List.mem_cons_of_mem _ h)
      | some kind =>
          have hv : (writeValue typeName v).length ≤ depth := by omega
          obtain ⟨v', hread, hrestored⟩ := hreads _ List.mem_cons_self kind htype depth (writeProps typeName props) hv
          obtain ⟨fields', hloop, hknown, hother⟩ := ih ((name, v') :: fields)
          refine ⟨fields', ?_, fun p hp hp' => ?_, fun name' hname' => ?_⟩
          · dsimp only
            rw [hread]
            exact hloop
          · rcases List.mem_cons.mp hp with rfl | hp
            · refine ⟨v', ?_, hrestored⟩
              rw [hother name hfresh, List.lookup_cons_self]
            · exact hknown p hp hp'
          · obtain ⟨hne, hrest⟩ := not_or.mp (List.mem_cons.not.mp hname')
            rw [hother name' hrest, List.lookup_cons, beq_false_of_ne hne]

theorem length_header (typeName : ℕ → Bytes) (tid count : ℕ) :
    (header typeName tid count).length = 36 + (typeName tid).length := by
  simp only [header, List.length_append, length_writeBe]
  omega

/-- An object of a type that the reader has. -/
theorem deserializeTo_serialize {type : Meta} (htid : tid < 2 ^ 64) (hname : (typeName tid).length < 2 ^ 16)
    (hlen : props.length < 2 ^ 32) (htype : registry.find tid = some type) (hnames : ∀ p ∈ props, p.1.length < 2 ^ 16)
    (hnodup : (props.map Prod.fst).Nodup) (hunknown : ∀ p ∈ props, type.properties p.1 = none → Skippable typeName p.2)
    (hreads : ∀ p ∈ props, ∀ kind, type.properties p.1 = some kind → Reads typeName registry kind p.2)
    (hdepth : (serialize typeName tid props).length ≤ depth) : ∃ fields,
    deserializeTo registry (depth + 1) (serialize typeName tid props) = some (.object tid fields) ∧
      Restored registry (.object tid props) (.object tid fields) := by
  have hheader := length_header typeName tid props.length
  rw [serialize, List.length_append, hheader] at hdepth
  have hprops : (writeProps typeName props).length ≤ depth := by omega
  obtain ⟨fields, hloop, hknown, -⟩ := readProps_append hnames hnodup hunknown hreads hprops type.defaults
  refine ⟨fields, ?_, .object tid props fields type (fun name => (fields.lookup name).getD .empty) htype ?_ ?_⟩
  · have hsize : ¬(serialize typeName tid props).length < 14 := by
      rw [serialize, List.length_append, hheader]
      omega
    rw [deserializeTo, if_neg hsize]
    simp only [serialize, header, List.append_assoc]
    rw [word_append (by decide)]
    dsimp only [bind, Option.bind]
    rw [if_neg (not_not.mpr rfl), List.drop_left' (length_writeBe 2 _), word_append (by decide)]
    dsimp only
    rw [skipTypes, word_append hname]
    dsimp only [bind, Option.bind]
    rw [List.drop_left' rfl, List.drop_left' (length_writeBe 8 _), skipTypes]
    dsimp only
    rw [word_append (by decide)]
    dsimp only
    rw [if_neg (by decide), word_append htid]
    dsimp only
    rw [htype]
    dsimp only
    rw [word_append hlen]
    dsimp only
    rw [hloop]
  · intro p hp hp'
    obtain ⟨v, hv, -⟩ := hknown p hp hp'
    rw [hv]
    rfl
  · intro p hp hp'
    obtain ⟨v, hv, hrestored⟩ := hknown p hp hp'
    rw [hv]
    exact hrestored

theorem reads_object (hsized : (Val.object tid props).Sized typeName) (h : ∀ depth,
      (serialize typeName tid props).length ≤ depth → ∃ fields,
      deserializeTo registry (depth + 1) (serialize typeName tid props) = some (.object tid fields) ∧
        Restored registry (.object tid props) (.object tid fields)) :
    Reads typeName registry (.object tid) (.object tid props) := by
  intro depth rest hdepth
  rw [writeValue_object, List.length_cons, List.length_append, length_writeBe] at hdepth
  obtain ⟨d, rfl⟩ : ∃ d, depth = d + 1 := ⟨depth - 1, by omega⟩
  obtain ⟨fields, hfields, hrestored⟩ := h d (by omega)
  refine ⟨.object tid fields, ?_, hrestored⟩
  rw [writeValue_object, List.cons_append, readValue, if_neg (by decide), if_pos rfl]
  refine readSized_append (hsized tid props rfl) ?_ rest
  unfold ofKind
  rw [hfields]
  dsimp only [bind, Option.bind]
  rw [if_pos rfl]

theorem Restorable.reads (h : Restorable typeName registry kind e) (hsized : e.Sized typeName) :
    Reads typeName registry kind e := by
  induction h with
  | arith t z hz => exact reads_arith hz
  | string s hs => exact reads_string hs
  | container tid es element hlen htype hkind hsizes hes ih =>
      exact reads_container hlen htype hkind hes fun e he => ih e he (hsizes e he)
  | object tid props type htid hname hlen htype hnames hnodup hunknown hsizes hknown ih =>
      exact reads_object hsized fun depth hdepth => deserializeTo_serialize htid hname hlen htype hnames hnodup hunknown
        (fun p hp kind hkind => ih p hp kind hkind (hsizes p hp)) hdepth

def oneName (_ : ℕ) : Bytes := ascii "T"

/-- The type 1 has an `int` that is called x. -/
def oneProperty : Registry where
  find tid := if tid = 1 then
      some ⟨fun name => if name = ascii "x" then some (.arith .int) else none, [(ascii "x", .arith .int 0)]⟩
    else none
  elements _ := none

end NeForce.Binary
