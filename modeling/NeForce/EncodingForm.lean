import Mathlib.Data.List.Basic
import Mathlib.Data.List.Forall2

/-! # Encoding forms

An encoding form writes each scalar value as a leading unit and further units, such that no other scalar value can be
read at the same place.  `Reads R l out` says that `out` is a reading of the text `l`: a value related by `R` for each
character, and the replacement character for each rejected piece.  A piece begins where no character does and has no
leading unit behind its first unit, so no reading loses a character (`Reads.exists_of_occurs`). -/

namespace NeForce

/-- Unicode scalar values: code points up to U+10FFFF without the surrogates. -/
def IsScalar (cp : ℕ) : Prop := cp < 0xD800 ∨ (0xDFFF < cp ∧ cp ≤ 0x10FFFF)

structure EncodingForm (α : Type) where
  encode : ℕ → List α
  IsLead : α → Prop
  lead : ∀ cp, IsScalar cp → ∃ c cs, encode cp = c :: cs ∧ IsLead c ∧ ∀ d ∈ cs, ¬ IsLead d
  eq_of_append : ∀ cp cp' l l', IsScalar cp → IsScalar cp' → encode cp ++ l = encode cp' ++ l' → cp = cp'

namespace EncodingForm

variable {α : Type} {E : EncodingForm α} {R R' : ℕ → ℕ → Prop} {l rest : List α} {cp cp' v : ℕ} {cps out : List ℕ}

def encodeAll (E : EncodingForm α) (cps : List ℕ) : List α := cps.flatMap E.encode

theorem encodeAll_cons (E : EncodingForm α) (cp : ℕ) (cps : List ℕ) :
    E.encodeAll (cp :: cps) = E.encode cp ++ E.encodeAll cps := rfl

/-- The text contains the character. -/
def Occurs (E : EncodingForm α) (cp : ℕ) (l : List α) : Prop := E.encode cp <:+: l

/-- One step of a reading. -/
def ReadsOne (E : EncodingForm α) (R : ℕ → ℕ → Prop) (l : List α) (v : ℕ) (rest : List α) : Prop :=
  (∃ cp, IsScalar cp ∧ R cp v ∧ l = E.encode cp ++ rest) ∨
    (v = 0xFFFD ∧ ∃ c u, l = c :: (u ++ rest) ∧ (∀ d ∈ u, ¬ E.IsLead d) ∧ ∀ cp, IsScalar cp → ¬ E.encode cp <+: l)

inductive Reads (E : EncodingForm α) (R : ℕ → ℕ → Prop) : List α → List ℕ → Prop
  | nil : Reads E R [] []
  | cons {l rest : List α} {v : ℕ} {out : List ℕ} (h : E.ReadsOne R l v rest) (hr : Reads E R rest out) :
      Reads E R l (v :: out)

theorem encode_ne_nil (hs : IsScalar cp) : E.encode cp ≠ [] := by
  obtain ⟨c, cs, he, -⟩ := E.lead cp hs
  rw [he]
  exact List.cons_ne_nil _ _

theorem ReadsOne.length_lt (h : E.ReadsOne R l v rest) : rest.length < l.length := by
  obtain ⟨cp, hs, -, rfl⟩ | ⟨-, c, u, rfl, -⟩ := h
  · have := List.length_pos_of_ne_nil (encode_ne_nil (E := E) hs)
    rw [List.length_append]
    omega
  · rw [List.length_cons, List.length_append]
    omega

/-- A character that does not begin a text is behind its units without a lead. -/
theorem infix_of_infix_cons {c : α} {u : List α} (hs : IsScalar cp) (hu : ∀ d ∈ u, ¬ E.IsLead d)
    (h : E.Occurs cp (c :: (u ++ rest))) : E.encode cp <+: c :: (u ++ rest) ∨ E.Occurs cp rest := by
  obtain ⟨d, ds, he, hd, -⟩ := E.lead cp hs
  rcases List.infix_cons_iff.mp h with h | h
  · exact .inl h
  · right
    induction u with
    | nil => exact h
    | cons e u ih =>
        rcases List.infix_cons_iff.mp h with h | h
        · rw [he] at h
          exact absurd ((List.cons_prefix_cons.mp h).1 ▸ hd) (hu e List.mem_cons_self)
        · exact ih (fun d hd => hu d (List.mem_cons_of_mem _ hd)) (List.infix_cons h) h

theorem prefix_eq (hs : IsScalar cp) (hs' : IsScalar cp') (h : E.encode cp <+: E.encode cp' ++ rest) : cp = cp' := by
  obtain ⟨t, ht⟩ := h
  exact E.eq_of_append cp cp' t rest hs hs' ht

/-- Every character of a text is read. -/
theorem Reads.exists_of_occurs (h : E.Reads R l out) (hs : IsScalar cp) (hocc : E.Occurs cp l) : ∃ v ∈ out, R cp v := by
  induction h with
  | nil =>
      rw [Occurs, List.infix_nil] at hocc
      exact absurd hocc (encode_ne_nil hs)
  | @cons l rest v out h hr ih =>
      have hrest : E.Occurs cp rest → ∃ w ∈ v :: out, R cp w := fun h' =>
        (ih h').imp fun _ hw => ⟨List.mem_cons_of_mem _ hw.1, hw.2⟩
      obtain ⟨cp', hs', hv, rfl⟩ | ⟨-, c, u, rfl, hu, hno⟩ := h
      · obtain ⟨c, u, he, -, hu⟩ := E.lead cp' hs'
        rw [he, List.cons_append] at hocc
        rcases infix_of_infix_cons hs hu hocc with hp | hocc
        · rw [← List.cons_append, ← he] at hp
          exact ⟨v, List.mem_cons_self, prefix_eq hs hs' hp ▸ hv⟩
        · exact hrest hocc
      · rcases infix_of_infix_cons hs hu hocc with hp | hocc
        · exact absurd hp (hno cp hs)
        · exact hrest hocc

/-- A reading depends on `R` only at the characters of the text. -/
theorem Reads.mono (h : E.Reads R l out) (hR : ∀ cp v, IsScalar cp → E.Occurs cp l → R cp v → R' cp v) :
    E.Reads R' l out := by
  induction h with
  | nil => exact .nil
  | @cons l rest v out h hr ih =>
      have hsuffix : rest <:+ l := by
        obtain ⟨cp, -, -, rfl⟩ | ⟨-, c, u, rfl, -⟩ := h
        · exact List.suffix_append _ _
        · exact (List.suffix_append u rest).trans (List.suffix_cons c _)
      refine .cons ?_ (ih fun cp v hs hocc => hR cp v hs (hocc.trans hsuffix.isInfix))
      refine h.imp_left ?_
      rintro ⟨cp, hs, hv, rfl⟩
      exact ⟨cp, hs, hR cp v hs (List.prefix_append _ _).isInfix hv, rfl⟩

/-- The one reading of a well-formed text. -/
theorem Reads.of_encodeAll (hs : ∀ cp ∈ cps, IsScalar cp) (h : E.Reads R (E.encodeAll cps) out) : List.Forall₂ R cps out := by
  induction cps generalizing out with
  | nil =>
      generalize hl : E.encodeAll [] = l at h
      cases h with
      | nil => exact .nil
      | cons h hr =>
          have := h.length_lt
          rw [← hl] at this
          exact absurd this (Nat.not_lt_zero _)
  | cons cp cps ih =>
      obtain ⟨hs, hcps⟩ := List.forall_mem_cons.mp hs
      generalize hl : E.encodeAll (cp :: cps) = l at h
      rw [encodeAll_cons] at hl
      cases h with
      | nil => exact absurd (List.append_eq_nil_iff.mp hl).1 (encode_ne_nil hs)
      | @cons _ rest v out h hr =>
          obtain ⟨cp', hs', hv, rfl⟩ | ⟨-, c, u, rfl, -, hno⟩ := h
          · obtain rfl := E.eq_of_append _ _ _ _ hs hs' hl
            obtain rfl := List.append_cancel_left hl
            exact .cons hv (ih hcps hr)
          · exact absurd ⟨_, hl⟩ (hno cp hs)

/-- What holds of the values of the characters and of the replacement character holds of a reading. -/
theorem Reads.forall {P : ℕ → Prop} (h : E.Reads R l out) (hR : ∀ cp v, IsScalar cp → R cp v → P v) (h0 : P 0xFFFD) :
    ∀ v ∈ out, P v := by
  induction h with
  | nil => exact nofun
  | cons h hr ih =>
      refine List.forall_mem_cons.mpr ⟨?_, ih⟩
      obtain ⟨cp, hs, hv, -⟩ | ⟨rfl, -⟩ := h
      · exact hR cp _ hs hv
      · exact h0

theorem encodeAll_injective (hs : ∀ cp ∈ cps, IsScalar cp) {cps' : List ℕ} (hs' : ∀ cp ∈ cps', IsScalar cp)
    (h : E.encodeAll cps = E.encodeAll cps') : cps = cps' := by
  induction cps generalizing cps' with
  | nil =>
      cases cps' with
      | nil => rfl
      | cons cp' cps' =>
          have := encode_ne_nil (E := E) (hs' cp' List.mem_cons_self)
          exact absurd (List.append_eq_nil_iff.mp h.symm).1 this
  | cons cp cps ih =>
      obtain ⟨hc, hs⟩ := List.forall_mem_cons.mp hs
      cases cps' with
      | nil => exact absurd (List.append_eq_nil_iff.mp h).1 (encode_ne_nil hc)
      | cons cp' cps' =>
          obtain ⟨hc', htail⟩ := List.forall_mem_cons.mp hs'
          rw [encodeAll_cons, encodeAll_cons] at h
          obtain rfl := E.eq_of_append _ _ _ _ hc hc' h
          rw [ih hs htail (List.append_cancel_left h)]

end EncodingForm

end NeForce
