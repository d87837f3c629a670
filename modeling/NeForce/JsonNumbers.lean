import NeForce.JsonStrings

/-! # Numbers of the JSON parser

`parse_number` accepts the longest text that the grammar derives, and no other.  The significand is exact as long as it
has 64 bits (`Significand`), so that integers are stored as such. -/

namespace NeForce.Json

variable {D : Type} {doubles : Doubles D} {s t i f e l rest cursor : Bytes} {c : UInt8} {n k v : ℕ} {d : Decimal}
  {negative : Bool}

/-! ### Digits -/

theorem isDigit_iff : isDigit c = true ↔ 0x30 ≤ c ∧ c ≤ 0x39 := by
  rw [isDigit, Bool.and_eq_true, decide_eq_true_iff, decide_eq_true_iff]

theorem allDigits_cons : AllDigits (c :: t) ↔ (0x30 ≤ c ∧ c ≤ 0x39) ∧ AllDigits t := List.forall_mem_cons

theorem isDigitAt_append (ht : AllDigits t) (hne : t ≠ []) (rest : Bytes) : isDigitAt (t ++ rest) = true := by
  obtain ⟨c, t, rfl⟩ := List.exists_cons_of_ne_nil hne
  simpa [isDigitAt] using isDigit_iff.mpr (allDigits_cons.mp ht).1

theorem isDigitAt_cons : isDigitAt (c :: t) = isDigit c := by
  simp [isDigitAt]

/-- The digits at the cursor. -/
theorem exists_digits (cursor : Bytes) : ∃ t rest, cursor = t ++ rest ∧ AllDigits t ∧ isDigitAt rest = false := by
  induction cursor with
  | nil => exact ⟨[], [], rfl, fun c hc => (List.not_mem_nil hc).elim, rfl⟩
  | cons c cursor ih =>
      cases hc : isDigit c with
      | false => exact ⟨[], c :: cursor, rfl, fun c hc => (List.not_mem_nil hc).elim, isDigitAt_cons.trans hc⟩
      | true =>
          obtain ⟨t, rest, rfl, ht, hrest⟩ := ih
          exact ⟨c :: t, rest, rfl, allDigits_cons.mpr ⟨isDigit_iff.mp hc, ht⟩, hrest⟩

/-- A loop over these digits. -/
def foldDigits (g : σ → ℕ → σ) (s : σ) (t : Bytes) : σ := t.foldl (fun s c => g s (c.toNat - 0x30)) s

theorem digitLoop_digits (g : σ → ℕ → σ) (ht : AllDigits t) (k : ℕ) (rest : Bytes) (s : σ) :
    digitLoop g (t.length + k) (t ++ rest) s = digitLoop g k rest (foldDigits g s t) := by
  induction t generalizing s with
  | nil => rw [List.length_nil, Nat.zero_add]; rfl
  | cons c t ih =>
      obtain ⟨hc, ht⟩ := allDigits_cons.mp ht
      rw [List.length_cons, Nat.add_right_comm, List.cons_append, digitLoop, if_pos (isDigit_iff.mpr hc), ih ht]
      rfl

theorem digitLoop_stop (g : σ → ℕ → σ) (hrest : isDigitAt rest = false) (k : ℕ) (s : σ) :
    digitLoop g k rest s = (s, rest) := by
  cases k with
  | zero => simp only [digitLoop]
  | succ k =>
      cases rest with
      | nil => rfl
      | cons c rest =>
          rw [isDigitAt_cons] at hrest
          rw [digitLoop, if_neg (by simp [hrest])]

theorem digitLoop_eq (g : σ → ℕ → σ) (ht : AllDigits t) (hrest : isDigitAt rest = false) (s : σ) :
    digitLoop g (t ++ rest).length (t ++ rest) s = (foldDigits g s t, rest) := by
  rw [List.length_append, digitLoop_digits g ht, digitLoop_stop g hrest]

/-! ### The integer part -/

/-- The significand is the number of the digits so far, if it has 64 bits. -/
structure Significand (v : ℕ) (d : Decimal) : Prop where
  overflow : d.overflow = decide (2 ^ 64 ≤ v)
  exact : v < 2 ^ 64 → d.significand = v

/-- Another digit does not fit just when the number with it has more than 64 bits. -/
theorem Significand.isFull_eq (h : Significand v d) (hv : v < 2 ^ 64) (hn : n ≤ 9) :
    d.isFull n = decide (2 ^ 64 ≤ 10 * v + n) := by
  rw [Decimal.isFull, h.exact hv, Bool.eq_iff_iff]
  simp only [Bool.or_eq_true, Bool.and_eq_true, decide_eq_true_eq]
  omega

theorem Significand.digit (h : Significand v d) (hn : n ≤ 9) : Significand (10 * v + n) (d.integerDigit n) := by
  have hfull := h.isFull_eq (n := n)
  obtain ⟨hoverflow, hexact⟩ := h
  unfold Decimal.integerDigit
  by_cases hv : 2 ^ 64 ≤ v
  · rw [if_pos (hoverflow.trans (decide_eq_true hv))]
    exact ⟨by rw [hoverflow, decide_eq_decide]; omega, fun h => by omega⟩
  · have hs := hexact (Nat.not_le.mp hv)
    rw [if_neg (by simp [hoverflow]; omega), hfull (Nat.not_le.mp hv) hn]
    by_cases hnext : 2 ^ 64 ≤ 10 * v + n
    · rw [if_pos (decide_eq_true hnext)]
      exact ⟨(decide_eq_true hnext).symm, fun h => absurd hnext (Nat.not_le.mpr h)⟩
    · rw [if_neg (by simpa using hnext)]
      refine ⟨?_, fun h => ?_⟩
      · rw [hoverflow, decide_eq_decide]
        omega
      · show pushDigit d.significand n = _
        rw [pushDigit, hs, Nat.mul_comm, Nat.mod_eq_of_lt h]

theorem digit_le (hc : 0x30 ≤ c ∧ c ≤ 0x39) : c.toNat - 0x30 ≤ 9 := by
  have := UInt8.le_iff_toNat_le.mp hc.2
  simp at this
  omega

/-- The number of digits behind others. -/
def decimalFrom (v : ℕ) (t : Bytes) : ℕ := t.foldl (fun n c => 10 * n + (c.toNat - 0x30)) v

theorem Significand.digits (h : Significand v d) (ht : AllDigits t) :
    Significand (decimalFrom v t) (foldDigits Decimal.integerDigit d t) := by
  induction t generalizing v d with
  | nil => exact h
  | cons c t ih =>
      obtain ⟨hc, ht⟩ := allDigits_cons.mp ht
      exact ih (h.digit (digit_le hc)) ht

/-- The first 18 digits cannot exceed 64 bits. -/
theorem foldDigits_pushDigit (ht : AllDigits t) (hk : k + t.length ≤ 18) (hv : v < 10 ^ k) :
    foldDigits pushDigit v t = decimalFrom v t ∧ decimalFrom v t < 10 ^ 18 := by
  induction t generalizing v k with
  | nil =>
      refine ⟨rfl, lt_of_lt_of_le hv (Nat.pow_le_pow_right (by omega) (by simpa using hk))⟩
  | cons c t ih =>
      obtain ⟨hc, ht⟩ := allDigits_cons.mp ht
      have hn := digit_le hc
      have hstep : 10 * v + (c.toNat - 0x30) < 10 ^ (k + 1) := by
        rw [Nat.pow_succ]
        omega
      have hle : 10 ^ (k + 1) ≤ 10 ^ 18 := Nat.pow_le_pow_right (by omega) (by simp at hk; omega)
      have hpush : pushDigit v (c.toNat - 0x30) = 10 * v + (c.toNat - 0x30) := by
        rw [pushDigit, Nat.mul_comm, Nat.mod_eq_of_lt (by omega)]
      have h := ih ht (by simp at hk; omega) hstep
      unfold foldDigits decimalFrom at *
      rw [List.foldl_cons, List.foldl_cons, hpush]
      exact h

theorem digitLoop_take (g : σ → ℕ → σ) (ht : AllDigits t) (hrest : isDigitAt rest = false) (n : ℕ) (s : σ) :
    digitLoop g n (t ++ rest) s = (foldDigits g s (t.take n), t.drop n ++ rest) := by
  by_cases hn : t.length ≤ n
  · rw [List.take_of_length_le hn, List.drop_eq_nil_of_le hn, List.nil_append]
    obtain ⟨k, rfl⟩ := Nat.exists_eq_add_of_le hn
    rw [digitLoop_digits g ht, digitLoop_stop g hrest]
  · have hlen : (t.take n).length = n := by
      rw [List.length_take]
      omega
    have h := digitLoop_digits g (t := t.take n) (fun c hc => ht c (List.mem_of_mem_take hc)) 0 (t.drop n ++ rest) s
    rw [hlen, ← List.append_assoc, List.take_append_drop] at h
    rw [Nat.add_zero] at h
    rw [h, digitLoop]

theorem IsInt.allDigits (hi : IsInt i) : AllDigits i ∧ i ≠ [] := by
  cases hi with
  | zero => exact ⟨allDigits_cons.mpr ⟨by decide, fun c hc => (List.not_mem_nil hc).elim⟩, List.cons_ne_nil _ _⟩
  | digits hc ht =>
      refine ⟨allDigits_cons.mpr ⟨⟨?_, hc.2⟩, ht⟩, List.cons_ne_nil _ _⟩
      exact UInt8.le_trans (by decide) hc.1

/-- What is read of an integer part. -/
def integerState (i : Bytes) : Decimal :=
  if i = [0x30] then {}
  else foldDigits Decimal.integerDigit { significand := decimalFrom 0 (i.take fastDigits) } (i.drop fastDigits)

theorem decimalFrom_take (hi : AllDigits i) : foldDigits pushDigit 0 (i.take fastDigits) = decimalFrom 0 (i.take fastDigits) ∧
    decimalFrom 0 (i.take fastDigits) < 10 ^ 18 :=
  foldDigits_pushDigit (k := 0) (fun d hd => hi d (List.mem_of_mem_take hd)) (by simp [fastDigits]) (by omega)

theorem decimalFrom_drop (i : Bytes) : decimalFrom (decimalFrom 0 (i.take fastDigits)) (i.drop fastDigits) = decimal i := by
  unfold decimalFrom
  rw [← List.foldl_append, List.take_append_drop]
  rfl

theorem parseIntegerPart_eq (hi : IsInt i) (hrest : isDigitAt rest = false) :
    parseIntegerPart (i ++ rest) = .ok (integerState i, rest) := by
  have hdigits := hi.allDigits.1
  cases hi with
  | zero =>
      unfold parseIntegerPart
      simp only [List.cons_append, List.nil_append, readAt_cons_zero, advance_cons_succ, advance_zero, bind, Except.bind,
        hrest, if_true, Bool.false_eq_true, if_false]
      rfl
  | @digits c t hc ht =>
      have hhead : c ≠ 0x30 := by
        rintro rfl
        exact absurd hc.1 (by decide)
      have hskip : AllDigits ((c :: t).drop fastDigits) := fun d hd => hdigits d (List.mem_of_mem_drop hd)
      unfold parseIntegerPart integerState
      rw [if_neg (by simp [hhead])]
      simp only [List.cons_append, readAt_cons_zero, bind, Except.bind, if_neg hhead]
      rw [← List.cons_append, digitLoop_take pushDigit hdigits hrest, (decimalFrom_take hdigits).1]
      simp only [digitLoop_eq Decimal.integerDigit hskip hrest]

theorem significand_integerState (hi : IsInt i) : Significand (decimal i) (integerState i) := by
  have hdigits := hi.allDigits.1
  unfold integerState
  split
  · next hzero =>
    subst hzero
    exact ⟨by decide, fun _ => rfl⟩
  · have hlt := (decimalFrom_take hdigits).2
    have hstart : Significand (decimalFrom 0 (i.take fastDigits)) { significand := decimalFrom 0 (i.take fastDigits) } :=
      ⟨(decide_eq_false (by omega)).symm, fun _ => rfl⟩
    have hfinal := hstart.digits (t := i.drop fastDigits) fun d hd => hdigits d (List.mem_of_mem_drop hd)
    rwa [decimalFrom_drop] at hfinal

/-- The integer part, whatever follows it. -/
theorem parseIntegerPart_complete (hi : IsInt i) :
    ∃ d, Significand (decimal i) d ∧ ∀ rest, isDigitAt rest = false → parseIntegerPart (i ++ rest) = .ok (d, rest) :=
  ⟨_, significand_integerState hi, fun _ hrest => parseIntegerPart_eq hi hrest⟩

theorem parseIntegerPart_spec (hdigit : isDigitAt cursor = true) :
    Ensures Failure.IsException (parseIntegerPart cursor) fun r =>
      ∃ i, cursor = i ++ r.2 ∧ IsInt i ∧ isDigitAt r.2 = false := by
  obtain ⟨t, rest, rfl, ht, hrest⟩ := exists_digits cursor
  cases t with
  | nil =>
      rw [List.nil_append, hrest] at hdigit
      cases hdigit
  | cons c t =>
      obtain ⟨hc, ht'⟩ := allDigits_cons.mp ht
      by_cases hzero : c = 0x30
      · subst hzero
        unfold parseIntegerPart
        simp only [List.cons_append, readAt_cons_zero, advance_cons_succ, advance_zero, bind, Except.bind, if_true]
        split
        · exact Failure.isException _
        · next hnext => exact ⟨[0x30], rfl, .zero, by simpa using hnext⟩
      · have hc' : 0x31 ≤ c := by
          have h1 := UInt8.le_iff_toNat_le.mp hc.1
          have h2 : c.toNat ≠ 0x30 := fun h => hzero (UInt8.toNat_inj.mp h)
          rw [UInt8.le_iff_toNat_le]
          simp at h1 ⊢
          omega
        obtain ⟨d, -, hd⟩ := parseIntegerPart_complete (.digits ⟨hc', hc.2⟩ ht')
        rw [hd rest hrest]
        exact ⟨c :: t, rfl, .digits ⟨hc', hc.2⟩ ht', hrest⟩

/-! ### Fraction and exponent -/

/-- What is read of a fraction. -/
def fractionState (d : Decimal) (f : Bytes) : Decimal := foldDigits Decimal.fractionDigit d f.tail

theorem parseFraction_eq (hf : IsFrac f) (d : Decimal) (hrest : isDigitAt rest = false)
    (hdot : f = [] → rest.head? ≠ some 0x2E) :
    parseFraction d (f ++ rest) = .ok (fractionState d f, decide (f ≠ []), rest) := by
  cases hf with
  | none =>
      unfold parseFraction
      rw [List.nil_append, if_neg (hdot rfl)]
      rfl
  | @digits t hne ht =>
      unfold parseFraction
      simp only [List.cons_append, List.head?_cons, if_true, advance_cons_succ, advance_zero, bind, Except.bind,
        isDigitAt_append ht hne, Bool.not_true, Bool.false_eq_true, if_false, digitLoop_eq Decimal.fractionDigit ht hrest]
      simp [fractionState]

theorem parseFraction_complete (hf : IsFrac f) (d : Decimal) :
    ∃ d', (f = [] → d' = d) ∧ ∀ rest, isDigitAt rest = false → (f = [] → rest.head? ≠ some 0x2E) →
      parseFraction d (f ++ rest) = .ok (d', decide (f ≠ []), rest) := by
  refine ⟨fractionState d f, ?_, fun rest hrest hdot => parseFraction_eq hf d hrest hdot⟩
  rintro rfl
  rfl

theorem parseFraction_spec (d : Decimal) (hdigit : isDigitAt cursor = false) :
    Ensures Failure.IsException (parseFraction d cursor) fun r =>
      ∃ f, cursor = f ++ r.2.2 ∧ IsFrac f ∧ isDigitAt r.2.2 = false ∧ (f = [] → r.2.2.head? ≠ some 0x2E) := by
  by_cases hdot : cursor.head? = some 0x2E
  · obtain ⟨cursor, rfl⟩ : ∃ l, cursor = 0x2E :: l := by
      obtain ⟨l, hl⟩ := List.head?_eq_some_iff.mp hdot
      exact ⟨l, hl⟩
    obtain ⟨t, rest, rfl, ht, hrest⟩ := exists_digits cursor
    by_cases hne : t = []
    · subst hne
      unfold parseFraction
      simp only [List.nil_append, List.head?_cons, if_true, advance_cons_succ, advance_zero, bind, Except.bind, hrest,
        Bool.not_false]
      exact Failure.isException _
    · obtain ⟨d', -, hd⟩ := parseFraction_complete (.digits hne ht) d
      have h := hd rest hrest (fun h => absurd h (List.cons_ne_nil _ _))
      rw [List.cons_append] at h
      rw [h]
      exact ⟨0x2E :: t, rfl, .digits hne ht, hrest, fun h => absurd h (List.cons_ne_nil _ _)⟩
  · obtain ⟨d', -, hd⟩ := parseFraction_complete .none d
    have h := hd cursor hdigit fun _ => hdot
    rw [List.nil_append] at h
    rw [h]
    exact ⟨[], rfl, .none, hdigit, fun _ => hdot⟩

theorem head?_ne_of_digit (h : isDigitAt l = true) (hc : isDigit c = false) : l.head? ≠ some c := by
  intro hl
  rw [isDigitAt, hl, Option.any_some, hc] at h
  cases h

/-- The digits of an exponent, behind the letter and the sign. -/
def expDigits (e : Bytes) : Bytes := e.filter isDigit

/-- What is read of an exponent. -/
def exponentState (d : Decimal) (e : Bytes) : Decimal :=
  if e = [] then d
  else
    let written := foldDigits exponentDigit 0 (expDigits e)
    { d with exponent := wrapInt (d.exponent + if 0x2D ∈ e then -(written : ℤ) else written) }

theorem expDigits_eq (hletter : c = 0x65 ∨ c = 0x45) (hsign : s = [] ∨ s = [0x2B] ∨ s = [0x2D]) (ht : AllDigits t) :
    expDigits (c :: (s ++ t)) = t ∧ (0x2D ∈ c :: (s ++ t) ↔ s = [0x2D]) := by
  have hfilter : t.filter isDigit = t := List.filter_eq_self.mpr fun d hd => isDigit_iff.mpr (ht d hd)
  have hminus : (0x2D : UInt8) ∉ t := fun hmem => absurd (ht _ hmem) (by decide)
  unfold expDigits
  rcases hletter with rfl | rfl <;> rcases hsign with rfl | rfl | rfl <;> simp [hfilter, hminus, isDigit]

/-- An exponent with its digits. -/
theorem parseExponent_digits (hletter : c = 0x65 ∨ c = 0x45) (hsign : s = [] ∨ s = [0x2B] ∨ s = [0x2D]) (hne : t ≠ [])
    (ht : AllDigits t) (d : Decimal) (real : Bool) (hrest : isDigitAt rest = false) :
    parseExponent d real (c :: (s ++ (t ++ rest))) = .ok (exponentState d (c :: (s ++ t)), true, rest) := by
  obtain ⟨hdigitsOf, hminusOf⟩ := expDigits_eq hletter hsign ht
  have hstate : exponentState d (c :: (s ++ t)) = { d with exponent := wrapInt (d.exponent +
      if s = [0x2D] then -((foldDigits exponentDigit 0 t : ℕ) : ℤ) else (foldDigits exponentDigit 0 t : ℕ)) } := by
    unfold exponentState
    rw [if_neg (List.cons_ne_nil _ _), hdigitsOf]
    simp only [hminusOf]
  have hhead (cursor : Bytes) : parseExponent d real (c :: cursor) = parseExponent d real (0x65 :: cursor) := by
    rcases hletter with rfl | rfl
    · rfl
    · simp [parseExponent]
  have hat := isDigitAt_append ht hne rest
  have hdigits := digitLoop_eq exponentDigit ht hrest 0
  rw [hhead, hstate]
  rcases hsign with rfl | rfl | rfl
  · have hplus : (t ++ rest).head? ≠ some 0x2B := head?_ne_of_digit hat (by decide)
    have hminus : (t ++ rest).head? ≠ some 0x2D := head?_ne_of_digit hat (by decide)
    simp only [parseExponent, List.nil_append, List.head?_cons, true_or, if_true, advance_cons_succ, advance_zero, bind,
      Except.bind, hplus, hminus, or_self, if_false, hat, Bool.not_true, Bool.false_eq_true, hdigits, decide_false]
    simp
  · simp [parseExponent, bind, Except.bind, hat, hdigits, -List.length_append]
  · simp [parseExponent, bind, Except.bind, hat, hdigits, -List.length_append]

theorem parseExponent_eq (he : IsExp e) (d : Decimal) (real : Bool) (hrest : isDigitAt rest = false)
    (hletter : e = [] → rest.head? ≠ some 0x65 ∧ rest.head? ≠ some 0x45) :
    parseExponent d real (e ++ rest) = .ok (exponentState d e, real || decide (e ≠ []), rest) := by
  cases he with
  | none =>
      unfold parseExponent
      rw [List.nil_append, if_neg (not_or.mpr (hletter rfl))]
      simp [exponentState]
  | @digits c s t hc hsign hne ht =>
      rw [List.cons_append, List.append_assoc, parseExponent_digits hc hsign hne ht d real hrest]
      simp

theorem parseExponent_complete (he : IsExp e) (d : Decimal) :
    ∃ d', (e = [] → d' = d) ∧ ∀ real rest, isDigitAt rest = false →
      (e = [] → rest.head? ≠ some 0x65 ∧ rest.head? ≠ some 0x45) →
      parseExponent d real (e ++ rest) = .ok (d', real || decide (e ≠ []), rest) := by
  refine ⟨exponentState d e, ?_, fun real rest hrest hletter => parseExponent_eq he d real hrest hletter⟩
  rintro rfl
  rfl

theorem parseExponent_spec (d : Decimal) (real : Bool) (hdigit : isDigitAt cursor = false) :
    Ensures Failure.IsException (parseExponent d real cursor) fun r =>
      ∃ e, cursor = e ++ r.2.2 ∧ IsExp e ∧ isDigitAt r.2.2 = false ∧
        (e = [] → r.2.2.head? ≠ some 0x65 ∧ r.2.2.head? ≠ some 0x45) := by
  by_cases hletter : cursor.head? = some 0x65 ∨ cursor.head? = some 0x45
  · obtain ⟨c, cursor, rfl, hc⟩ : ∃ c l, cursor = c :: l ∧ (c = 0x65 ∨ c = 0x45) := by
      rcases hletter with h | h <;> obtain ⟨l, hl⟩ := List.head?_eq_some_iff.mp h
      · exact ⟨_, l, hl, .inl rfl⟩
      · exact ⟨_, l, hl, .inr rfl⟩
    obtain ⟨s, l, rfl, hs, hnot⟩ : ∃ s l, cursor = s ++ l ∧ (s = [] ∨ s = [0x2B] ∨ s = [0x2D]) ∧
        (s = [] → l.head? ≠ some 0x2B ∧ l.head? ≠ some 0x2D) := by
      by_cases hplus : cursor.head? = some 0x2B
      · obtain ⟨l, rfl⟩ := List.head?_eq_some_iff.mp hplus
        exact ⟨[0x2B], l, rfl, .inr (.inl rfl), fun h => absurd h (List.cons_ne_nil _ _)⟩
      · by_cases hminus : cursor.head? = some 0x2D
        · obtain ⟨l, rfl⟩ := List.head?_eq_some_iff.mp hminus
          exact ⟨[0x2D], l, rfl, .inr (.inr rfl), fun h => absurd h (List.cons_ne_nil _ _)⟩
        · exact ⟨[], cursor, rfl, .inl rfl, fun _ => ⟨hplus, hminus⟩⟩
    obtain ⟨t, rest, rfl, ht, hrest⟩ := exists_digits l
    by_cases hne : t = []
    · subst hne
      have hfail : parseExponent d real (c :: (s ++ rest)) = .error (.exception "JSON exponent requires digits.") := by
        rcases hc with rfl | rfl <;> rcases hs with rfl | rfl | rfl <;>
          simp_all [parseExponent, bind, Except.bind]
      rw [List.nil_append, hfail]
      exact Failure.isException _
    · rw [parseExponent_digits hc hs hne ht d real hrest]
      exact ⟨c :: (s ++ t), by simp, .digits hc hs hne ht, hrest, fun h => absurd h (List.cons_ne_nil _ _)⟩
  · obtain ⟨d', -, hd⟩ := parseExponent_complete .none d
    have h := hd real cursor hdigit fun _ => not_or.mp hletter
    rw [List.nil_append] at h
    rw [h]
    exact ⟨[], rfl, .none, hdigit, fun _ => not_or.mp hletter⟩

/-! ### Numbers -/

/-- What follows a number with this fraction and exponent does not go on with it. -/
structure Stops (f e rest : Bytes) : Prop where
  digit : isDigitAt rest = false
  dot : f = [] → e = [] → rest.head? ≠ some 0x2E
  letter : e = [] → rest.head? ≠ some 0x65 ∧ rest.head? ≠ some 0x45

theorem toInt64_neg (h : n ≤ 2 ^ 63) : toInt64 (2 ^ 64 - n) = -n := by
  unfold toInt64
  rw [Int.bmod_def]
  split <;> omega

theorem toInt64_of_lt (h : n < 2 ^ 63) : toInt64 n = n := by
  unfold toInt64
  rw [Int.bmod_def]
  split <;> omega

theorem isDigitAt_frac (hf : IsFrac f) (hrest : isDigitAt rest = false) : isDigitAt (f ++ rest) = false := by
  cases hf with
  | none => exact hrest
  | digits hne ht => rfl

theorem isDigitAt_exp (he : IsExp e) (hrest : isDigitAt rest = false) : isDigitAt (e ++ rest) = false := by
  cases he with
  | none => exact hrest
  | digits hletter hs hne ht => rcases hletter with rfl | rfl <;> rfl

theorem isDigitAt_int (hi : IsInt i) (rest : Bytes) : isDigitAt (i ++ rest) = true :=
  isDigitAt_append hi.allDigits.1 hi.allDigits.2 rest

/-- Only one sign and integer part make a text. -/
theorem minus_inj {negative' : Bool} {i' : Bytes} (hi : IsInt i) (hi' : IsInt i')
    (h : minus negative ++ i = minus negative' ++ i') : negative = negative' ∧ i = i' := by
  have hhead {j : Bytes} (hj : IsInt j) : j.head? ≠ some 0x2D := by
    have := isDigitAt_int hj []
    rw [List.append_nil] at this
    exact head?_ne_of_digit this (by decide)
  cases negative <;> cases negative'
  · exact ⟨rfl, h⟩
  · exact absurd (congrArg List.head? h) (hhead hi)
  · exact absurd (congrArg List.head? h).symm (hhead hi')
  · exact ⟨rfl, List.cons_injective h⟩

/-- The text of a fraction or an exponent is no integer. -/
theorem not_int {negative' : Bool} {i' : Bytes} (hf : IsFrac f) (he : IsExp e) (hne : ¬(f = [] ∧ e = [])) (hi' : IsInt i') :
    minus negative ++ (i ++ (f ++ e)) ≠ minus negative' ++ i' := by
  intro h
  obtain ⟨c, hc, hmark⟩ : ∃ c ∈ f ++ e, c = 0x2E ∨ c = 0x65 ∨ c = 0x45 := by
    cases hf with
    | digits => exact ⟨0x2E, by simp, .inl rfl⟩
    | none =>
        cases he with
        | none => exact absurd ⟨rfl, rfl⟩ hne
        | @digits c _ _ hletter => exact ⟨c, by simp, .inr hletter⟩
  have hmem : c ∈ minus negative' ++ i' := h ▸ by simp [List.mem_append.mp hc]
  rcases List.mem_append.mp hmem with hminus | hdigit
  · obtain rfl : c = 0x2D := by
      cases negative' with
      | true => exact List.mem_singleton.mp hminus
      | false => cases hminus
    rcases hmark with h | h | h <;> cases h
  · have := hi'.allDigits.1 c hdigit
    rcases hmark with rfl | rfl | rfl <;> exact absurd this (by decide)

theorem signed_true (n : ℕ) : signed true n = -n := rfl

theorem signed_false (n : ℕ) : signed false n = n := rfl

theorem realValue_real (doubles : Doubles D) (negative : Bool) (d : Decimal) (text : Bytes) :
    ∃ x, realValue doubles negative d text = .real x := by
  unfold realValue
  split
  · exact ⟨_, rfl⟩
  · exact ⟨_, rfl⟩

theorem numberIs_int (hi : IsInt i) (hd : Significand (decimal i) d) (text : Bytes) :
    NumberIs (minus negative ++ i) (numberValue doubles negative d false text) := by
  have hreal (hrange : signed negative (decimal i) < -2 ^ 63 ∨ 2 ^ 64 ≤ signed negative (decimal i)) :
      NumberIs (minus negative ++ i) (realValue doubles negative d text) := by
    refine .inr ⟨realValue_real doubles negative d text, fun negative' i' h hi' => ?_⟩
    obtain ⟨rfl, rfl⟩ := minus_inj hi hi' h
    exact hrange
  have hmax : int64Max = 2 ^ 63 - 1 := rfl
  unfold numberValue
  by_cases hlt : decimal i < 2 ^ 64
  · have hs := hd.exact hlt
    rw [if_pos (by simp [hd.overflow]; omega), hs]
    cases negative with
    | true =>
        rw [if_pos rfl]
        split
        · next hle =>
          refine .inl ⟨true, i, rfl, hi, .inl ?_⟩
          rw [toInt64_neg (by omega), signed_true]
          exact ⟨rfl, by omega, by omega⟩
        · refine hreal (.inl ?_)
          rw [signed_true]
          omega
    | false =>
        rw [if_neg Bool.false_ne_true]
        split
        · next hle =>
          refine .inl ⟨false, i, rfl, hi, .inl ?_⟩
          rw [toInt64_of_lt (by omega), signed_false]
          exact ⟨rfl, by omega, by omega⟩
        · exact .inl ⟨false, i, rfl, hi, .inr ⟨rfl, rfl, by omega, hlt⟩⟩
  · rw [if_neg (by simp [hd.overflow]; omega)]
    refine hreal ?_
    cases negative with
    | true =>
        rw [signed_true]
        omega
    | false =>
        rw [signed_false]
        omega

theorem numberIs_real (hf : IsFrac f) (he : IsExp e) (hne : ¬(f = [] ∧ e = [])) (d : Decimal) (text : Bytes) :
    NumberIs (minus negative ++ (i ++ (f ++ e))) (numberValue doubles negative d true text) := by
  refine .inr ⟨realValue_real doubles negative d text, fun negative' i' h hi' => ?_⟩
  exact absurd h (not_int hf he hne hi')

theorem Stops.frac (hf : IsFrac f) (he : IsExp e) (hs : Stops f e rest) :
    isDigitAt (f ++ (e ++ rest)) = false ∧ isDigitAt (e ++ rest) = false ∧ (f = [] → (e ++ rest).head? ≠ some 0x2E) := by
  have h := isDigitAt_exp he hs.digit
  refine ⟨isDigitAt_frac hf h, h, fun hnil => ?_⟩
  cases he with
  | none => exact hs.dot hnil rfl
  | digits hletter => rcases hletter with rfl | rfl <;> simp

/-- A number, from its sign on. -/
theorem parseNumber_eq (doubles : Doubles D) (negative : Bool) (hi : IsInt i) (hf : IsFrac f) (he : IsExp e)
    (hs : Stops f e rest) :
    parseNumber doubles (minus negative ++ (i ++ (f ++ e)) ++ rest) =
      .ok (numberValue doubles negative (exponentState (fractionState (integerState i) f) e)
        (decide (f ≠ []) || decide (e ≠ [])) (minus negative ++ (i ++ (f ++ e))), rest) := by
  obtain ⟨h1, h2, h3⟩ := hs.frac hf he
  have hdigit := isDigitAt_int hi (f ++ (e ++ rest))
  have hassoc : i ++ (f ++ e) ++ rest = i ++ (f ++ (e ++ rest)) := by simp
  have hbody (start : Bytes) : parseUnsigned doubles negative start (i ++ (f ++ e) ++ rest) =
      .ok (numberValue doubles negative (exponentState (fractionState (integerState i) f) e)
        (decide (f ≠ []) || decide (e ≠ [])) (start.take (start.length - rest.length)), rest) := by
    unfold parseUnsigned
    rw [hassoc]
    simp only [hdigit, Bool.not_true, Bool.false_eq_true, if_false, bind, Except.bind, parseIntegerPart_eq hi h1,
      parseFraction_eq hf _ h2 h3, parseExponent_eq he _ _ hs.digit hs.letter]
  have hcut : (minus negative ++ (i ++ (f ++ e)) ++ rest).take
      ((minus negative ++ (i ++ (f ++ e)) ++ rest).length - rest.length) = minus negative ++ (i ++ (f ++ e)) := by
    rw [List.length_append, Nat.add_sub_cancel, List.take_left]
  have hread := hbody (minus negative ++ (i ++ (f ++ e)) ++ rest)
  rw [hcut] at hread
  refine Eq.trans ?_ hread
  unfold parseNumber
  cases negative with
  | true => rfl
  | false =>
      obtain ⟨c, l, hl⟩ := List.exists_cons_of_ne_nil (l := i ++ (f ++ e) ++ rest) (by simp [hi.allDigits.2])
      have hc : c ≠ 0x2D := by
        have hhead := head?_ne_of_digit (c := 0x2D) hdigit (by decide)
        rw [← hassoc, hl] at hhead
        simpa using hhead
      simp only [minus, Bool.false_eq_true, if_false, List.nil_append, hl, readAt_cons_zero, bind, Except.bind, if_neg hc]

/-- **Numbers that the grammar derives** are read up to their end, and as what they are. -/
theorem parseNumber_complete (doubles : Doubles D) (negative : Bool) (hi : IsInt i) (hf : IsFrac f) (he : IsExp e) :
    ∃ v : Value D, NumberIs (minus negative ++ (i ++ (f ++ e))) v ∧ ∀ rest, Stops f e rest →
      parseNumber doubles (minus negative ++ (i ++ (f ++ e)) ++ rest) = .ok (v, rest) := by
  refine ⟨_, ?_, fun rest hs => parseNumber_eq doubles negative hi hf he hs⟩
  by_cases hne : f = [] ∧ e = []
  · obtain ⟨rfl, rfl⟩ := hne
    rw [List.append_nil, List.append_nil]
    exact numberIs_int hi (significand_integerState hi) _
  · have hreal : (decide (f ≠ []) || decide (e ≠ [])) = true := by
      rw [Bool.or_eq_true, decide_eq_true_iff, decide_eq_true_iff]
      exact not_and_or.mp hne
    rw [hreal]
    exact numberIs_real hf he hne _ _

theorem parseUnsigned_spec (doubles : Doubles D) (negative : Bool) (start cursor : Bytes) :
    Ensures Failure.IsException (parseUnsigned doubles negative start cursor) fun r =>
      ∃ i f e, cursor = i ++ (f ++ e) ++ r.2 ∧ IsInt i ∧ IsFrac f ∧ IsExp e ∧ Stops f e r.2 := by
  unfold parseUnsigned
  split
  · exact Failure.isException _
  · next hdigit =>
    refine (parseIntegerPart_spec (by simpa using hdigit)).bind ?_
    rintro ⟨d, l⟩ ⟨i, rfl, hi, hl⟩
    refine (parseFraction_spec d hl).bind ?_
    rintro ⟨d', real, l'⟩ ⟨f, hf', hf, hl', hdot⟩
    refine (parseExponent_spec d' real hl').bind ?_
    rintro ⟨d'', real', rest⟩ ⟨e, he', he, hrest, hletter⟩
    dsimp only at hf' he' hdot hletter hrest
    refine ⟨i, f, e, ?_, hi, hf, he, hrest, fun h1 h2 => ?_, hletter⟩
    · rw [hf', he']
      simp
    · have := hdot h1
      rwa [he', h2, List.nil_append] at this

theorem parseNumber_spec (doubles : Doubles D) (c : UInt8) (cursor : Bytes) :
    Ensures Failure.IsException (parseNumber doubles (c :: cursor)) fun r =>
      ∃ negative i f e, c :: cursor = minus negative ++ (i ++ (f ++ e)) ++ r.2 ∧ IsInt i ∧ IsFrac f ∧ IsExp e ∧
        Stops f e r.2 := by
  unfold parseNumber
  simp only [readAt_cons_zero, bind, Except.bind]
  split
  · next hminus =>
    refine (parseUnsigned_spec doubles true (c :: cursor) cursor).mono ?_
    rintro ⟨v, rest⟩ ⟨i, f, e, rfl, hi, hf, he, hs⟩
    exact ⟨true, i, f, e, by simp [hminus, minus], hi, hf, he, hs⟩
  · refine (parseUnsigned_spec doubles false (c :: cursor) (c :: cursor)).mono ?_
    rintro ⟨v, rest⟩ ⟨i, f, e, hcursor, hi, hf, he, hs⟩
    exact ⟨false, i, f, e, hcursor, hi, hf, he, hs⟩

end NeForce.Json
