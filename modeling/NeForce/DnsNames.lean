import NeForce.DnsClient
import Mathlib.Data.List.Basic

/-! # Names in DNS messages

`encode_domain_name` writes the labels of a domain, each behind its length, and a zero.  In a message the rest of a name
may stand elsewhere, behind a pointer: `Walk` follows the labels and the pointers from an offset. -/

namespace NeForce.DnsClient

def dot : UInt8 := 0x2E

/-- The domain without the dots at its end. -/
def stripDots (domain : Bytes) : Bytes := (domain.reverse.dropWhile (· == dot)).reverse

def encodeLabel (label : Bytes) : Except String Bytes :=
  if label.length = 0 ∨ 63 < label.length then .error "Invalid label length in domain name"
  else .ok (.ofNat label.length :: label)

/-- The labels from a start on; there are fewer than `n`. -/
def encodeLabels : ℕ → Bytes → Except String Bytes
  | 0, _ => .ok []
  | n + 1, rest =>
    match rest.dropWhile (· != dot) with
    | _ :: rest' => do
      let encoded ← encodeLabel (rest.takeWhile (· != dot))
      let encoded' ← encodeLabels n rest'
      .ok (encoded ++ encoded')
    | [] => if rest = [] then .ok [] else encodeLabel rest

def encodeDomainName (domain : Bytes) : Except String Bytes :=
  let domain := stripDots domain
  if domain = [] ∨ 253 < domain.length then .error "Invalid domain name length"
  else do
    let encoded ← encodeLabels (domain.length + 1) domain
    .ok (encoded ++ [0])

/-! ### Labels and where they stand -/

/-- The labels with dots between them. -/
def nameText : List Bytes → Bytes
  | [] => []
  | label :: labels => label ++ labels.flatMap (dot :: ·)

/-- The labels behind their lengths. -/
def wire (labels : List Bytes) : Bytes := labels.flatMap (fun label => .ofNat label.length :: label) ++ [0]

/-- The labels and the number of pointers on the way from an offset, the offset behind the first pointer, and where the way
leads. -/
inductive Walk (data : Bytes) : ℕ → List Bytes → ℕ → Option ℕ → ℕ → Prop
  | here (offset : ℕ) : Walk data offset [] 0 none offset
  | label {offset jumps stop : ℕ} {len : UInt8} {labels : List Bytes} {behind : Option ℕ} (hlen : data[offset]? = some len)
      (hpos : 1 ≤ len.toNat) (h63 : len.toNat ≤ 63) (hfits : offset + 1 + len.toNat ≤ data.length)
      (hrest : Walk data (offset + 1 + len.toNat) labels jumps behind stop) :
      Walk data offset ((data.drop (offset + 1)).take len.toNat :: labels) jumps behind stop
  | pointer {offset jumps stop : ℕ} {hi lo : UInt8} {labels : List Bytes} {behind : Option ℕ} (hhi : data[offset]? = some hi)
      (hlo : data[offset + 1]? = some lo) (hmark : hi &&& 0xC0 = 0xC0)
      (hlt : (hi &&& 0x3F).toNat <<< 8 ||| lo.toNat < data.length)
      (hrest : Walk data ((hi &&& 0x3F).toNat <<< 8 ||| lo.toNat) labels jumps behind stop) :
      Walk data offset labels (jumps + 1) (some (offset + 2)) stop

/-- The labels stand at the offset, and `next` is behind them or behind the first pointer. -/
def Spells (data : Bytes) (offset : ℕ) (labels : List Bytes) (jumps next : ℕ) : Prop :=
  ∃ behind stop, Walk data offset labels jumps behind stop ∧ data[stop]? = some 0 ∧ next = behind.getD (stop + 1)

/-- The message ends before the zero of the name at an offset: where a length or a pointer would stand, or within a
pointer or a label. -/
def Truncated (data : Bytes) (offset : ℕ) : Prop :=
  ∃ labels jumps behind stop, Walk data offset labels jumps behind stop ∧
    (data.length ≤ stop ∨ ∃ len, data[stop]? = some len ∧
      (len &&& 0xC0 = 0xC0 ∧ data.length ≤ stop + 1 ∨
        1 ≤ len.toNat ∧ len.toNat ≤ 63 ∧ data.length < stop + 1 + len.toNat))

/-- What is promised of the name at an offset: the text of an accepted domain whose encoding stands there, as a whole or
with the rest behind at most five pointers, and an error if the message is truncated. -/
structure NameRead (data : Bytes) (offset : ℕ) : Prop where
  direct : ∀ domain encoded, encodeDomainName domain = .ok encoded → encoded <+: data.drop offset →
    decodeDomainName data offset = .ok (stripDots domain, offset + encoded.length)
  compressed : ∀ domain labels jumps next, encodeDomainName domain = .ok (wire labels) →
    Spells data offset labels jumps next → jumps ≤ 5 → decodeDomainName data offset = .ok (stripDots domain, next)
  truncated : Truncated data offset → ∃ e, decodeDomainName data offset = .error e

/-- No name of 253 characters stands there, and the labels and pointers do not lead to the very end of the message before
the name is refused for its length or its jumps. -/
def Readable (data : Bytes) (offset : ℕ) : Prop :=
  (∀ domain labels jumps next, encodeDomainName domain = .ok (wire labels) → Spells data offset labels jumps next →
    jumps ≤ 5 → (stripDots domain).length ≤ 252) ∧
  ∀ labels jumps behind stop, Walk data offset labels jumps behind stop → data.length ≤ stop →
    5 < jumps ∨ 253 ≤ (nameText labels).length

variable {data name domain rest : Bytes} {labels labels' : List Bytes} {offset stop jumps j n : ℕ} {behind b : Option ℕ}

/-! ### Decoding along a walk -/

/-- A label behind a name. -/
def appendLabel (name label : Bytes) : Bytes := (if name = [] then name else name ++ ascii ".") ++ label

theorem appendLabel_of_ne (hname : name ≠ []) (label : Bytes) : appendLabel name label = name ++ dot :: label := by
  rw [appendLabel, if_neg hname, List.append_assoc]
  rfl

theorem foldl_appendLabel (hname : name ≠ []) (labels : List Bytes) :
    labels.foldl appendLabel name = name ++ labels.flatMap (dot :: ·) := by
  induction labels generalizing name with
  | nil => rw [List.foldl_nil, List.flatMap_nil, List.append_nil]
  | cons label labels ih =>
      have hne : name ++ dot :: label ≠ [] := fun h => hname (List.append_eq_nil_iff.mp h).1
      rw [List.foldl_cons, appendLabel_of_ne hname, ih hne, List.flatMap_cons, List.append_assoc]

theorem foldl_nameText (hlabels : ∀ label ∈ labels, label ≠ []) : labels.foldl appendLabel [] = nameText labels := by
  cases labels with
  | nil => rfl
  | cons label labels =>
      have hfirst : appendLabel [] label = label := by rw [appendLabel, if_pos rfl, List.nil_append]
      rw [List.foldl_cons, hfirst, foldl_appendLabel (hlabels label List.mem_cons_self), nameText]

theorem length_le_foldl (name : Bytes) (labels : List Bytes) : name.length ≤ (labels.foldl appendLabel name).length := by
  induction labels generalizing name with
  | nil => exact le_rfl
  | cons label labels ih =>
      refine le_trans ?_ (ih _)
      rw [appendLabel]
      split <;> simp [List.length_append]

theorem Walk.ne_nil (hw : Walk data offset labels j b stop) : ∀ label ∈ labels, label ≠ [] ∧ label.length ≤ 63 := by
  induction hw with
  | here offset => exact fun label h => absurd h List.not_mem_nil
  | @label offset _ _ len _ _ hlen hpos h63 hfits hrest ih =>
      intro label hmem
      rcases List.mem_cons.mp hmem with rfl | hmem
      · have hlength : ((data.drop (offset + 1)).take len.toNat).length = len.toNat :=
          List.length_take_of_le (by rw [List.length_drop]; omega)
        rw [← List.length_pos_iff, hlength]
        omega
      · exact ih label hmem
  | pointer hhi hlo hmark hlt hrest ih => exact ih

/-- One turn of the loop over a label. -/
theorem decodeLoop_label {len : UInt8} (hlen : data[offset]? = some len) (hpos : 1 ≤ len.toNat) (h63 : len.toNat ≤ 63)
    (hfits : offset + 1 + len.toNat ≤ data.length) (hj : jumps ≤ 5) :
    decodeLoop data offset name behind jumps hj =
      if 253 < (appendLabel name ((data.drop (offset + 1)).take len.toNat)).length + 1 then .error "Domain name too long"
      else decodeLoop data (offset + 1 + len.toNat)
        (appendLabel name ((data.drop (offset + 1)).take len.toNat)) behind jumps hj := by
  obtain ⟨hlt, hget⟩ := List.getElem?_eq_some_iff.mp hlen
  have hmark : ¬ len &&& 0xC0 = 0xC0 := by
    intro h
    have hand := congrArg UInt8.toNat h
    rw [UInt8.toNat_and, show (0xC0 : UInt8).toNat = 192 from rfl] at hand
    have := Nat.and_le_left (n := len.toNat) (m := 192)
    omega
  have hzero : ¬ len = 0 := by
    rintro rfl
    exact absurd hpos (by decide)
  have hsmall : ¬ 63 < len := by
    rw [UInt8.lt_iff_toNat_lt]
    exact Nat.not_lt.mpr h63
  have hlength : ((data.drop (offset + 1)).take len.toNat).length = len.toNat :=
    List.length_take_of_le (by rw [List.length_drop]; omega)
  rw [decodeLoop, dif_pos hlt]
  simp only [hget]
  rw [if_neg hmark, if_neg hzero, if_neg hsmall, if_neg (by omega)]
  simp only [appendLabel, List.length_append, hlength]

/-- One turn over a pointer. -/
theorem decodeLoop_pointer {hi lo : UInt8} (hhi : data[offset]? = some hi) (hlo : data[offset + 1]? = some lo)
    (hmark : hi &&& 0xC0 = 0xC0) (hlt : (hi &&& 0x3F).toNat <<< 8 ||| lo.toNat < data.length) (hj : jumps ≤ 5) :
    decodeLoop data offset name behind jumps hj =
      if h : jumps + 1 ≤ 5 then
        decodeLoop data ((hi &&& 0x3F).toNat <<< 8 ||| lo.toNat) name (some (behind.getD (offset + 2))) (jumps + 1) h
      else .error "Too many jumps in domain name" := by
  obtain ⟨hlt0, hget0⟩ := List.getElem?_eq_some_iff.mp hhi
  obtain ⟨hlt1, hget1⟩ := List.getElem?_eq_some_iff.mp hlo
  rw [decodeLoop, dif_pos hlt0]
  simp only [hget0]
  rw [if_pos hmark, dif_pos hlt1]
  simp only [hget1]
  rw [if_neg (by omega)]

/-- Along a walk within the limits the loop goes on where the walk leads. -/
theorem decodeLoop_walk (hw : Walk data offset labels j b stop) (hj : jumps + j ≤ 5)
    (hlen : labels = [] ∨ (labels.foldl appendLabel name).length ≤ 252) :
    decodeLoop data offset name behind jumps (by omega) =
      decodeLoop data stop (labels.foldl appendLabel name) (behind.or b) (jumps + j) hj := by
  induction hw generalizing name behind jumps with
  | here offset => simp only [List.foldl_nil, Option.or_none, Nat.add_zero]
  | label hlabel hpos h63 hfits hrest ih =>
      rw [List.foldl_cons] at hlen
      have hle := hlen.resolve_left (List.cons_ne_nil _ _)
      have hfirst := length_le_foldl (appendLabel name ((data.drop (_ + 1)).take _)) _ |>.trans hle
      rw [decodeLoop_label hlabel hpos h63 hfits, if_neg (by omega), ih hj (.inr hle), List.foldl_cons]
  | @pointer offset jumps' stop hi lo labels b hhi hlo hmark hlt hrest ih =>
      have hor : (some (behind.getD (offset + 2))).or b = behind.or (some (offset + 2)) := by cases behind <;> rfl
      rw [decodeLoop_pointer hhi hlo hmark hlt, dif_pos (show jumps + 1 ≤ 5 by omega),
        ih (show jumps + 1 + jumps' ≤ 5 by omega) hlen, hor]
      simp only [show jumps + 1 + jumps' = jumps + (jumps' + 1) by omega]

/-- A walk beyond the limits is refused on the way. -/
theorem decodeLoop_refuses (hw : Walk data offset labels j b stop) (hj : jumps ≤ 5)
    (hbeyond : 5 < jumps + j ∨ labels ≠ [] ∧ 253 ≤ (labels.foldl appendLabel name).length) :
    ∃ e, decodeLoop data offset name behind jumps hj = .error e := by
  induction hw generalizing name behind jumps with
  | here offset =>
      rcases hbeyond with h | h
      · omega
      · exact absurd rfl h.1
  | @label offset j stop len labels b hlabel hpos h63 hfits hrest ih =>
      rw [decodeLoop_label hlabel hpos h63 hfits]
      split
      case isTrue => exact ⟨_, rfl⟩
      case isFalse hshort =>
        refine ih hj ?_
        rcases hbeyond with h | h
        · exact .inl h
        · rw [List.foldl_cons] at h
          refine .inr ⟨?_, h.2⟩
          rintro rfl
          rw [List.foldl_nil] at h
          omega
  | @pointer offset j stop hi lo labels b hhi hlo hmark hlt hrest ih =>
      rw [decodeLoop_pointer hhi hlo hmark hlt]
      split
      case isTrue h => exact ih h (hbeyond.imp_left fun hmany => by omega)
      case isFalse => exact ⟨_, rfl⟩

/-- The zero at the end of a name. -/
theorem decodeLoop_zero (hzero : data[stop]? = some 0) (hj : jumps ≤ 5) :
    decodeLoop data stop name behind jumps hj = .ok (name, behind.getD (stop + 1)) := by
  obtain ⟨hlt, hget⟩ := List.getElem?_eq_some_iff.mp hzero
  rw [decodeLoop, dif_pos hlt]
  simp only [hget]
  rfl

/-- The end of the message is taken for the end of the name. -/
theorem decodeLoop_end (hend : data.length ≤ stop) (hj : jumps ≤ 5) :
    decodeLoop data stop name behind jumps hj = .ok (name, behind.getD stop) := by
  rw [decodeLoop, dif_neg (Nat.not_lt.mpr hend)]

/-- A pointer or a label that the message cuts is refused. -/
theorem decodeLoop_cut {len : UInt8} (hlen : data[stop]? = some len) (hj : jumps ≤ 5)
    (hcut : len &&& 0xC0 = 0xC0 ∧ data.length ≤ stop + 1 ∨
      1 ≤ len.toNat ∧ len.toNat ≤ 63 ∧ data.length < stop + 1 + len.toNat) :
    ∃ e, decodeLoop data stop name behind jumps hj = .error e := by
  obtain ⟨hlt, hget⟩ := List.getElem?_eq_some_iff.mp hlen
  rw [decodeLoop, dif_pos hlt]
  simp only [hget]
  rcases hcut with ⟨hmark, hend⟩ | ⟨hpos, h63, hend⟩
  · rw [if_pos hmark, dif_neg (Nat.not_lt.mpr hend)]
    exact ⟨_, rfl⟩
  · split
    case isTrue hmark =>
      have hand := congrArg UInt8.toNat hmark
      rw [UInt8.toNat_and, show (0xC0 : UInt8).toNat = 192 from rfl] at hand
      have := Nat.and_le_left (n := len.toNat) (m := 192)
      omega
    case isFalse =>
      have hzero : ¬ len = 0 := by
        rintro rfl
        exact absurd hpos (by decide)
      have hsmall : ¬ 63 < len := by
        rw [UInt8.lt_iff_toNat_lt]
        exact Nat.not_lt.mpr h63
      rw [if_neg hzero, if_neg hsmall]
      exact ⟨_, rfl⟩

/-! ### Encoding -/

theorem encodeLabel_eq {label encoded : Bytes} (h : encodeLabel label = .ok encoded) :
    1 ≤ label.length ∧ label.length ≤ 63 ∧ encoded = .ofNat label.length :: label := by
  rw [encodeLabel] at h
  split at h
  case isTrue => cases h
  case isFalse hlen =>
    obtain rfl := Except.ok.inj h
    exact ⟨by omega, by omega, rfl⟩

/-- The labels of an encoding have the text of the domain. -/
theorem encodeLabels_spec {encoded : Bytes} (hn : rest.length < n) (hne : rest ≠ []) (hlast : rest.getLast? ≠ some dot)
    (h : encodeLabels n rest = .ok encoded) :
    ∃ labels, (∀ label ∈ labels, 1 ≤ label.length ∧ label.length ≤ 63) ∧ labels ≠ [] ∧ nameText labels = rest ∧
      encoded = labels.flatMap fun label => .ofNat label.length :: label := by
  induction n generalizing rest encoded with
  | zero => omega
  | succ n ih =>
      have hsplit := List.takeWhile_append_dropWhile (p := (· != dot)) (l := rest)
      rw [encodeLabels] at h
      split at h
      case h_1 d rest' hdrop =>
        have hd : d = dot := by
          have := List.head_dropWhile_not (p := (· != dot)) (l := rest) (by rw [hdrop]; exact List.cons_ne_nil _ _)
          simpa [hdrop] using this
        subst hd
        rw [hdrop] at hsplit
        rw [← hsplit, List.getLast?_append_cons] at hlast
        have hne' : rest' ≠ [] := by
          rintro rfl
          exact hlast rfl
        have hlast' : rest'.getLast? ≠ some dot := by
          obtain ⟨b, rest', rfl⟩ := List.exists_cons_of_ne_nil hne'
          rwa [List.getLast?_cons_cons] at hlast
        have hlen' : rest'.length < n := by
          have := congrArg List.length hsplit
          rw [List.length_append, List.length_cons] at this
          omega
        cases hfirst : encodeLabel (rest.takeWhile (· != dot)) with
        | error e => rw [hfirst] at h; cases h
        | ok first =>
            cases hmore : encodeLabels n rest' with
            | error e => rw [hfirst, hmore] at h; cases h
            | ok more =>
                rw [hfirst, hmore] at h
                obtain rfl : first ++ more = encoded := Except.ok.inj h
                obtain ⟨h1, h63, rfl⟩ := encodeLabel_eq hfirst
                obtain ⟨labels, hlabels, hnil, htext, rfl⟩ := ih hlen' hne' hlast' hmore
                refine ⟨rest.takeWhile (· != dot) :: labels, ?_, List.cons_ne_nil _ _, ?_, ?_⟩
                · intro label hmem
                  rcases List.mem_cons.mp hmem with rfl | hmem
                  · exact ⟨h1, h63⟩
                  · exact hlabels label hmem
                · cases labels with
                  | nil => exact absurd rfl hnil
                  | cons label labels =>
                      rw [nameText, List.flatMap_cons]
                      rw [nameText] at htext
                      rw [List.cons_append, htext]
                      exact hsplit
                · rw [List.flatMap_cons]
      case h_2 hdrop =>
        rw [if_neg hne] at h
        obtain ⟨h1, h63, rfl⟩ := encodeLabel_eq h
        refine ⟨[rest], ?_, List.cons_ne_nil _ _, ?_, ?_⟩
        · intro label hmem
          rw [List.mem_singleton.mp hmem]
          exact ⟨h1, h63⟩
        · rw [nameText, List.flatMap_nil, List.append_nil]
        · rw [List.flatMap_singleton]

/-- What an accepted domain is encoded to. -/
theorem encodeDomainName_spec {encoded : Bytes} (h : encodeDomainName domain = .ok encoded) :
    ∃ labels, (∀ label ∈ labels, 1 ≤ label.length ∧ label.length ≤ 63) ∧ nameText labels = stripDots domain ∧
      encoded = wire labels ∧ (stripDots domain).length ≤ 253 := by
  rw [encodeDomainName] at h
  split at h
  case isTrue => cases h
  case isFalse hlen =>
    rw [not_or, Nat.not_lt] at hlen
    obtain ⟨hne, hle⟩ := hlen
    cases hlabels : encodeLabels ((stripDots domain).length + 1) (stripDots domain) with
    | error e => rw [hlabels] at h; cases h
    | ok body =>
        rw [hlabels] at h
        obtain rfl : body ++ [0] = encoded := Except.ok.inj h
        have hlast : (stripDots domain).getLast? ≠ some dot := by
          intro hdot
          rw [stripDots, List.getLast?_reverse] at hdot
          have := List.head?_dropWhile_not (· == dot) domain.reverse
          rw [hdot] at this
          simp at this
        obtain ⟨labels, hl, -, htext, rfl⟩ := encodeLabels_spec (Nat.lt_succ_self _) hne hlast hlabels
        exact ⟨labels, hl, htext, rfl, hle⟩

theorem wire_cons (label : Bytes) (labels : List Bytes) :
    wire (label :: labels) = .ofNat label.length :: (label ++ wire labels) := by
  rw [wire, wire, List.flatMap_cons, List.append_assoc, List.cons_append]

theorem toNat_length {label : Bytes} (h : label.length ≤ 63) : (UInt8.ofNat label.length).toNat = label.length := by
  rw [UInt8.toNat_ofNat']
  omega

/-- The labels can be read off an encoding. -/
theorem wire_injective (hl : ∀ label ∈ labels, 1 ≤ label.length ∧ label.length ≤ 63)
    (hl' : ∀ label ∈ labels', 1 ≤ label.length ∧ label.length ≤ 63) (h : wire labels = wire labels') : labels = labels' := by
  have hnil {label : Bytes} {labels : List Bytes} (hlabel : 1 ≤ label.length ∧ label.length ≤ 63) :
      wire [] ≠ wire (label :: labels) := by
    rw [wire_cons]
    intro h
    have hhead := congrArg UInt8.toNat (List.cons.inj h).1
    rw [toNat_length hlabel.2] at hhead
    exact absurd hlabel.1 (by rw [← hhead]; decide)
  induction labels generalizing labels' with
  | nil =>
      cases labels' with
      | nil => rfl
      | cons label' labels' => exact absurd h (hnil (hl' _ List.mem_cons_self))
  | cons label labels ih =>
      cases labels' with
      | nil => exact absurd h.symm (hnil (hl _ List.mem_cons_self))
      | cons label' labels' =>
          rw [wire_cons, wire_cons] at h
          obtain ⟨hhead, htail⟩ := List.cons.inj h
          have hlen := congrArg UInt8.toNat hhead
          rw [toNat_length (hl _ List.mem_cons_self).2, toNat_length (hl' _ List.mem_cons_self).2] at hlen
          obtain ⟨rfl, hrest⟩ := List.append_inj htail hlen
          rw [ih (fun l hm => hl l (List.mem_cons_of_mem _ hm)) (fun l hm => hl' l (List.mem_cons_of_mem _ hm)) hrest]

/-- An encoding that stands at an offset as a whole. -/
theorem walk_wire (hl : ∀ label ∈ labels, 1 ≤ label.length ∧ label.length ≤ 63) (h : wire labels <+: data.drop offset) :
    ∃ stop, Walk data offset labels 0 none stop ∧ data[stop]? = some 0 ∧ stop + 1 = offset + (wire labels).length := by
  induction labels generalizing offset with
  | nil =>
      obtain ⟨t, ht⟩ := h
      refine ⟨offset, .here offset, ?_, rfl⟩
      have hhead := congrArg List.head? ht
      rw [List.head?_drop] at hhead
      exact hhead.symm
  | cons label labels ih =>
      obtain ⟨h1, h63⟩ := hl label List.mem_cons_self
      obtain ⟨t, ht⟩ := h
      rw [wire_cons, List.cons_append, List.append_assoc] at ht
      have hhead : data[offset]? = some (.ofNat label.length) := by
        have := congrArg List.head? ht
        rw [List.head?_drop] at this
        exact this.symm
      have hdrop : data.drop (offset + 1) = label ++ (wire labels ++ t) := by
        have := congrArg (List.drop 1) ht
        rw [List.drop_drop] at this
        exact this.symm
      have hlen := toNat_length h63
      have htake : (data.drop (offset + 1)).take (UInt8.ofNat label.length).toNat = label := by
        rw [hlen, hdrop, List.take_left]
      have hrest : data.drop (offset + 1 + (UInt8.ofNat label.length).toNat) = wire labels ++ t := by
        rw [hlen, ← List.drop_drop, hdrop, List.drop_left]
      have hfits : offset + 1 + (UInt8.ofNat label.length).toNat ≤ data.length := by
        have := congrArg List.length hdrop
        rw [List.length_drop, List.length_append] at this
        omega
      obtain ⟨stop, hwalk, hzero, hstop⟩ := ih (fun l hm => hl l (List.mem_cons_of_mem _ hm)) (hrest ▸ List.prefix_append _ _)
      have hfirst := Walk.label hhead (by omega) (by omega) hfits hwalk
      rw [htake] at hfirst
      refine ⟨stop, hfirst, hzero, ?_⟩
      rw [hstop, wire_cons, List.length_cons, List.length_append, hlen]
      omega

/-! ### Names -/

/-- A name of at most 252 characters behind at most five pointers is decoded. -/
theorem decodeDomainName_spells (h : Spells data offset labels jumps stop) (hj : jumps ≤ 5)
    (hlen : (nameText labels).length ≤ 252) : decodeDomainName data offset = .ok (nameText labels, stop) := by
  obtain ⟨behind, last, hwalk, hlast, rfl⟩ := h
  have htext := foldl_nameText fun label hm => (hwalk.ne_nil label hm).1
  rw [decodeDomainName, decodeLoop_walk hwalk (by omega) (.inr (htext ▸ hlen)), decodeLoop_zero hlast, htext]
  rfl

theorem decodeDomainName_refuses (hw : Walk data offset labels jumps behind stop)
    (h : 5 < jumps ∨ 253 ≤ (nameText labels).length) : ∃ e, decodeDomainName data offset = .error e := by
  have htext := foldl_nameText fun label hm => (hw.ne_nil label hm).1
  refine decodeLoop_refuses hw _ (h.imp (by omega) fun hlen => ⟨?_, by rw [htext]; exact hlen⟩)
  rintro rfl
  exact absurd hlen (by decide)

/-- The labels of an encoding that is spelled out somewhere have the text of the domain. -/
theorem nameText_of_encoded (henc : encodeDomainName domain = .ok (wire labels)) (h : Spells data offset labels jumps stop) :
    nameText labels = stripDots domain ∧ (nameText labels).length ≤ 253 := by
  obtain ⟨labels', hl', htext, hwire, hle⟩ := encodeDomainName_spec henc
  obtain ⟨behind, last, hwalk, -, -⟩ := h
  have hl (label : Bytes) (hm : label ∈ labels) : 1 ≤ label.length ∧ label.length ≤ 63 :=
    ⟨List.length_pos_iff.mpr (hwalk.ne_nil label hm).1, (hwalk.ne_nil label hm).2⟩
  rw [wire_injective hl hl' hwire, htext]
  exact ⟨rfl, hle⟩

/-- The name at an offset is read as promised exactly if it is readable; for every message and offset the decoder
returns. -/
theorem nameRead_iff (data : Bytes) (offset : ℕ) : NameRead data offset ↔ Readable data offset := by
  constructor
  · intro h
    refine ⟨fun domain labels jumps next henc hspells hj => ?_, fun labels jumps behind stop hwalk hend => ?_⟩
    · obtain ⟨htext, -⟩ := nameText_of_encoded henc hspells
      have hread := h.compressed domain labels jumps next henc hspells hj
      by_contra hlong
      obtain ⟨behind, stop, hwalk, -, -⟩ := hspells
      obtain ⟨e, he⟩ := decodeDomainName_refuses hwalk (.inr (by rw [htext]; omega))
      rw [hread] at he
      cases he
    · by_contra hshort
      rw [not_or, Nat.not_lt, Nat.not_le] at hshort
      obtain ⟨e, he⟩ := h.truncated ⟨labels, jumps, behind, stop, hwalk, .inl hend⟩
      have htext := foldl_nameText fun label hm => (hwalk.ne_nil label hm).1
      rw [decodeDomainName, decodeLoop_walk hwalk (by omega) (.inr (by rw [htext]; omega)), decodeLoop_end hend] at he
      cases he
  · rintro ⟨hnames, hends⟩
    have hcompressed (domain : Bytes) (labels : List Bytes) (jumps next : ℕ) (henc :
      encodeDomainName domain = .ok (wire labels))
        (hspells : Spells data offset labels jumps next) (hj : jumps ≤ 5) :
        decodeDomainName data offset = .ok (stripDots domain, next) := by
      obtain ⟨htext, -⟩ := nameText_of_encoded henc hspells
      rw [← htext]
      exact decodeDomainName_spells hspells hj (htext ▸ hnames domain labels jumps next henc hspells hj)
    refine ⟨fun domain encoded henc hprefix => ?_, hcompressed, ?_⟩
    · obtain ⟨labels, hl, -, rfl, -⟩ := encodeDomainName_spec henc
      obtain ⟨stop, hwalk, hzero, hstop⟩ := walk_wire hl hprefix
      exact hcompressed domain labels 0 _ henc ⟨none, stop, hwalk, hzero, hstop.symm⟩ (Nat.zero_le 5)
    · rintro ⟨labels, jumps, behind, stop, hwalk, hend | ⟨len, hlen, hcut⟩⟩
      · exact decodeDomainName_refuses hwalk (hends labels jumps behind stop hwalk hend)
      · by_cases hbeyond : 5 < jumps ∨ 253 ≤ (nameText labels).length
        · exact decodeDomainName_refuses hwalk hbeyond
        · rw [not_or, Nat.not_lt, Nat.not_le] at hbeyond
          have htext := foldl_nameText fun label hm => (hwalk.ne_nil label hm).1
          rw [decodeDomainName, decodeLoop_walk hwalk (by omega) (.inr (by rw [htext]; omega))]
          exact decodeLoop_cut hlen _ hcut

/-- Four labels, 253 characters with their dots. -/
def longLabels : List Bytes :=
  [List.replicate 63 0x61, List.replicate 63 0x61, List.replicate 63 0x61, List.replicate 61 0x61]

/-- A name that ends with its message is returned, and the longest name that is encoded is not decoded. -/
theorem names_not_read : ¬ NameRead [1, 0x61] 0 ∧ ¬ NameRead (wire longLabels) 0 := by
  constructor
  · intro h
    have hwalk : Walk [1, 0x61] 0 [[0x61]] 0 none 2 :=
      .label (show ([1, 0x61] : Bytes)[0]? = some 1 from rfl) (by decide) (by decide) (by decide) (.here 2)
    obtain ⟨e, he⟩ := h.truncated ⟨_, _, _, _, hwalk, .inl le_rfl⟩
    rw [decodeDomainName, decodeLoop_walk hwalk (by decide) (.inr (by decide)), decodeLoop_end (show ([1, 0x61] :
      Bytes).length ≤ 2 from le_rfl)] at he
    cases he
  · intro h
    have henc : encodeDomainName (nameText longLabels) = .ok (wire longLabels) := by
      set_option maxRecDepth 8000 in
      decide
    have hl : ∀ label ∈ longLabels, 1 ≤ label.length ∧ label.length ≤ 63 := by decide
    obtain ⟨stop, hwalk, -⟩ := walk_wire hl (show wire longLabels <+: (wire longLabels).drop 0 from List.prefix_refl _)
    obtain ⟨e, he⟩ := decodeDomainName_refuses hwalk (.inr (by set_option maxRecDepth 8000 in decide))
    rw [h.direct _ _ henc (List.prefix_refl _)] at he
    cases he

end NeForce.DnsClient
