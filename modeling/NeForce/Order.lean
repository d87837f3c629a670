import Mathlib.Data.List.Basic
import Mathlib.Data.List.TakeWhile

/-! # Strict weak orders and sorted sequences

A `StrictWeakOrder` is a comparison as an ordered container expects it.  `Sorted lt key s` says
that no element of `s` is less than an earlier one; a predicate that holds of everything after
one of its members cuts such a list in two (`Cut`), and the cuts at `lt · k` and `lt k ·` are the
lower and the upper bound of `k`. -/

namespace NeForce

structure StrictWeakOrder (K : Type) where
  lt : K → K → Bool
  irrefl : ∀ a, lt a a = false
  trans : ∀ {a b c}, lt a b → lt b c → lt a c
  /-- Incomparability is transitive. -/
  cotrans : ∀ {a b c}, lt a c → lt a b ∨ lt b c

namespace StrictWeakOrder

variable {K : Type} (o : StrictWeakOrder K) {a b c : K}

/-- Neither key is less than the other. -/
def Equiv (a b : K) : Prop := o.lt a b = false ∧ o.lt b a = false

instance : Decidable (o.Equiv a b) := inferInstanceAs (Decidable (_ ∧ _))

variable {o}

theorem asymm (h : o.lt a b = true) : o.lt b a = false := by
  cases hb : o.lt b a with
  | false => rfl
  | true =>
      have := o.trans h hb
      rw [o.irrefl] at this
      cases this

theorem ge_trans (h₁ : o.lt b a = false) (h₂ : o.lt c b = false) : o.lt c a = false := by
  cases h : o.lt c a with
  | false => rfl
  | true =>
      rcases o.cotrans (b := b) h with h' | h'
      · rw [h₂] at h'
        cases h'
      · rw [h₁] at h'
        cases h'

theorem lt_of_lt_of_ge (h₁ : o.lt a b = true) (h₂ : o.lt c b = false) : o.lt a c = true := by
  rcases o.cotrans (b := c) h₁ with h | h
  · exact h
  · rw [h₂] at h
    cases h

theorem lt_of_ge_of_lt (h₁ : o.lt b a = false) (h₂ : o.lt b c = true) : o.lt a c = true := by
  rcases o.cotrans (b := a) h₂ with h | h
  · rw [h₁] at h
    cases h
  · exact h

theorem Equiv.refl (a : K) : o.Equiv a a := ⟨o.irrefl a, o.irrefl a⟩

theorem Equiv.symm (h : o.Equiv a b) : o.Equiv b a := ⟨h.2, h.1⟩

end StrictWeakOrder

def natOrder : StrictWeakOrder ℕ where
  lt a b := decide (a < b)
  irrefl := by simp
  trans := by
    simp only [decide_eq_true_eq]
    omega
  cotrans := by
    simp only [decide_eq_true_eq]
    omega

/-! ### Cuts -/

section

variable {α : Type} {p : α → Bool} {s s₁ s₂ : List α}

/-- Once `p` holds it holds to the end. -/
def Upward (p : α → Bool) (s : List α) : Prop := s.Pairwise fun a b => p a = true → p b = true

/-- `s` is split where `p` starts to hold. -/
structure Cut (p : α → Bool) (s s₁ s₂ : List α) : Prop where
  eq : s = s₁ ++ s₂
  low : ∀ a ∈ s₁, p a = false
  high : ∀ a ∈ s₂, p a = true

theorem Cut.unique {t₁ t₂ : List α} (h : Cut p s s₁ s₂) (h' : Cut p s t₁ t₂) :
    s₁ = t₁ ∧ s₂ = t₂ := by
  have e := h.eq.symm.trans h'.eq
  rcases List.append_eq_append_iff.mp e with ⟨m, e1, e2⟩ | ⟨m, e1, e2⟩
  · cases m with
    | nil =>
        rw [List.append_nil] at e1
        exact ⟨e1.symm, e2⟩
    | cons a m =>
        have h1 := h.high a (by simp [e2])
        have h2 := h'.low a (by simp [e1])
        rw [h1] at h2
        cases h2
  · cases m with
    | nil =>
        rw [List.append_nil] at e1
        exact ⟨e1, e2.symm⟩
    | cons a m =>
        have h1 := h.low a (by simp [e1])
        have h2 := h'.high a (by simp [e2])
        rw [h1] at h2
        cases h2

theorem Cut.filter_eq (h : Cut p s s₁ s₂) : s.filter p = s₂ := by
  rw [h.eq, List.filter_append, List.filter_eq_nil_iff.mpr fun a ha => by simp [h.low a ha],
    List.filter_eq_self.mpr h.high, List.nil_append]

/-- The elements before the cut are those that lack the predicate. -/
theorem Cut.countP_not (h : Cut p s s₁ s₂) : s.countP (!p ·) = s₁.length := by
  have h₁ : s₁.countP (!p ·) = s₁.length := List.countP_eq_length.mpr fun a ha => by simp [h.low a ha]
  have h₂ : s₂.countP (!p ·) = 0 := List.countP_eq_zero.mpr fun a ha => by simp [h.high a ha]
  rw [h.eq, List.countP_append, h₁, h₂, Nat.add_zero]

theorem Cut.map {β : Type} {f : β → α} {t t₁ t₂ : List β} (h : Cut (fun b => p (f b)) t t₁ t₂) :
    Cut p (t.map f) (t₁.map f) (t₂.map f) := by
  constructor
  · rw [h.eq, List.map_append]
  · intro a ha
    obtain ⟨b, hb, rfl⟩ := List.mem_map.mp ha
    exact h.low b hb
  · intro a ha
    obtain ⟨b, hb, rfl⟩ := List.mem_map.mp ha
    exact h.high b hb

/-- Such a predicate cuts the list after the elements that lack it. -/
theorem cut_of_upward (h : Upward p s) :
    Cut p s (s.takeWhile (!p ·)) (s.dropWhile (!p ·)) where
  eq := List.takeWhile_append_dropWhile.symm
  low a ha := by simpa using List.mem_takeWhile_imp ha
  high := by
    induction s with
    | nil => simp
    | cons a s ih =>
        intro b hb
        rw [List.dropWhile_cons] at hb
        split_ifs at hb with ha
        · exact ih (List.pairwise_cons.mp h).2 b hb
        · have hpa : p a = true := by simpa using ha
          rcases List.mem_cons.mp hb with rfl | hb
          · exact hpa
          · exact (List.pairwise_cons.mp h).1 b hb hpa

end

/-! ### Sorted sequences -/

section

variable {K α : Type} (o : StrictWeakOrder K) (key : α → K) {s s₁ s₂ : List α} {k : K} {a : α}

/-- No element is less than an earlier one. -/
def Sorted (s : List α) : Prop := s.Pairwise fun a b => o.lt (key b) (key a) = false

/-- The test that cuts a sorted sequence at the lower bound of `k`. -/
def notBelow (k : K) (a : α) : Bool := !o.lt (key a) k

/-- The test that cuts a sorted sequence at the upper bound of `k`. -/
def above (k : K) (a : α) : Bool := o.lt k (key a)

variable {o key}

theorem Sorted.upward_notBelow (h : Sorted o key s) (k : K) : Upward (notBelow o key k) s := by
  refine h.imp fun {a b} hab ha => ?_
  simp only [notBelow, Bool.not_eq_true'] at ha ⊢
  exact o.ge_trans ha hab

theorem Sorted.upward_above (h : Sorted o key s) (k : K) : Upward (above o key k) s :=
  h.imp fun {_ _} hab ha => o.lt_of_lt_of_ge ha hab

/-- Inserting at a place whose neighbours allow it. -/
theorem Sorted.insert (h : Sorted o key (s₁ ++ s₂)) (h₁ : ∀ b ∈ s₁, o.lt (key a) (key b) = false)
    (h₂ : ∀ b ∈ s₂, o.lt (key b) (key a) = false) : Sorted o key (s₁ ++ a :: s₂) := by
  obtain ⟨h3, h4, h5⟩ := List.pairwise_append.mp h
  refine List.pairwise_append.mpr ⟨h3, List.pairwise_cons.mpr ⟨h₂, h4⟩, fun b hb c hc => ?_⟩
  rcases List.mem_cons.mp hc with rfl | hc
  · exact h₁ b hb
  · exact h5 b hb c hc

theorem Sorted.sublist (h : Sorted o key s₁) (hs : s₂.Sublist s₁) : Sorted o key s₂ :=
  List.Pairwise.sublist hs h

/-- Inserting at the upper bound keeps a sequence sorted. -/
theorem Sorted.insert_above (h : Sorted o key s) (hc : Cut (above o key (key a)) s s₁ s₂) :
    Sorted o key (s₁ ++ a :: s₂) := by
  rw [hc.eq] at h
  exact h.insert hc.low fun b hb => o.asymm (hc.high b hb)

/-- What lies between the two bounds is what is equivalent to the key. -/
theorem Cut.mem_equiv {t₁ t₂ : List α} (h₁ : Cut (notBelow o key k) s s₁ s₂)
    (h₂ : Cut (above o key k) s t₁ t₂) : ∃ m, t₁ = s₁ ++ m ∧ s₂ = m ++ t₂ ∧
      (∀ b ∈ m, o.Equiv (key b) k) ∧ ∀ b ∈ s₁ ++ t₂, ¬ o.Equiv (key b) k := by
  have hlow : ∀ b ∈ s₁, o.lt (key b) k = true := by
    intro b hb
    simpa [notBelow] using h₁.low b hb
  have e := h₁.eq.symm.trans h₂.eq
  have hm : ∃ m, t₁ = s₁ ++ m ∧ s₂ = m ++ t₂ := by
    rcases List.append_eq_append_iff.mp e with ⟨m, e1, e2⟩ | ⟨m, e1, e2⟩
    · exact ⟨m, e1, e2⟩
    · cases m with
      | nil => exact ⟨[], by simpa using e1.symm, by simpa using e2.symm⟩
      | cons a m =>
          have h3 := hlow a (by simp [e1])
          have h4 := h₂.high a (by simp [e2])
          rw [above, o.asymm h3] at h4
          cases h4
  obtain ⟨m, e1, e2⟩ := hm
  refine ⟨m, e1, e2, fun b hb => ⟨?_, ?_⟩, fun b hb he => ?_⟩
  · have := h₁.high b (by simp [e2, hb])
    simpa [notBelow] using this
  · exact h₂.low b (by simp [e1, hb])
  · rcases List.mem_append.mp hb with hb | hb
    · have := hlow b hb
      rw [he.1] at this
      cases this
    · have := h₂.high b hb
      rw [above, he.2] at this
      cases this

theorem Sorted.le_last (h : Sorted o key (s ++ [a])) : ∀ b ∈ s ++ [a], o.lt (key a) (key b) = false := by
  intro b hb
  rcases List.mem_append.mp hb with hb | hb
  · exact (List.pairwise_append.mp h).2.2 b hb a (by simp)
  · obtain rfl := List.mem_singleton.mp hb
    exact o.irrefl _

theorem Sorted.first_le (h : Sorted o key (a :: s)) : ∀ b ∈ a :: s, o.lt (key b) (key a) = false := by
  intro b hb
  rcases List.mem_cons.mp hb with rfl | hb
  · exact o.irrefl _
  · exact (List.pairwise_cons.mp h).1 b hb

/-- A key cuts a sorted sequence in three: what is less, what is equivalent, and what is greater. -/
theorem Sorted.exists_bounds (h : Sorted o key s) (k : K) :
    ∃ s₁ m s₂, s = s₁ ++ m ++ s₂ ∧ Cut (notBelow o key k) s s₁ (m ++ s₂) ∧ Cut (above o key k) s (s₁ ++ m) s₂ ∧
      (∀ a ∈ m, o.Equiv (key a) k) ∧ ∀ a ∈ s₁ ++ s₂, ¬o.Equiv (key a) k := by
  have h₁ := cut_of_upward (h.upward_notBelow k)
  have h₂ := cut_of_upward (h.upward_above k)
  obtain ⟨m, e1, e2, he, hn⟩ := h₁.mem_equiv h₂
  rw [e2] at h₁
  rw [e1] at h₂
  exact ⟨_, m, _, h₂.eq, h₁, h₂, he, hn⟩

end

end NeForce
