import Mathlib.Data.List.Basic

/-! # Runs of a labelled transition system

`Run step s ls s'` says that the labels `ls` lead from `s` to `s'`.  A property that every step
keeps holds at the end of every run (`Run.invariant`), and a relation between two systems that every
step keeps turns runs of the one into runs of the other (`Run.simulates`). -/

namespace NeForce

variable {σ τ ι : Type}

inductive Run (step : σ → ι → σ → Prop) : σ → List ι → σ → Prop
  | nil (s : σ) : Run step s [] s
  | cons {s s₁ s₂ : σ} {l : ι} {ls : List ι} : step s l s₁ → Run step s₁ ls s₂ → Run step s (l :: ls) s₂

/-- The steps that meet a condition on the state before them. -/
def Guarded (ok : σ → ι → Prop) (step : σ → ι → σ → Prop) (s : σ) (l : ι) (s' : σ) : Prop :=
  ok s l ∧ step s l s'

namespace Run

variable {step step₁ : σ → ι → σ → Prop} {step' : τ → ι → τ → Prop} {s s' : σ} {ls : List ι}

theorem append {ls' : List ι} {s'' : σ} (hr : Run step s ls s') (hr' : Run step s' ls' s'') : Run step s (ls ++ ls') s'' := by
  induction hr with
  | nil s => exact hr'
  | cons h _ ih => exact .cons h (ih hr')

theorem invariant {P : σ → Prop} (hr : Run step s ls s') (h0 : P s)
    (hstep : ∀ {s l s'}, P s → step s l s' → P s') : P s' := by
  induction hr with
  | nil s => exact h0
  | cons h _ ih => exact ih (hstep h0 h)

/-- A property of a state and the labels that led to it. -/
theorem history {P : List ι → σ → Prop} (hr : Run step s ls s') (h0 : P [] s)
    (hstep : ∀ {ls s l s'}, P ls s → step s l s' → P (ls ++ [l]) s') : P ls s' := by
  have h : ∀ ls₀, P ls₀ s → P (ls₀ ++ ls) s' := by
    clear h0
    induction hr with
    | nil s => exact fun ls₀ h => by rwa [List.append_nil]
    | cons hs _ ih =>
        intro ls₀ h
        rw [List.append_cons]
        exact ih _ (hstep h hs)
  exact h [] h0

theorem mono (hr : Run step s ls s') (h : ∀ {s l s'}, step s l s' → step₁ s l s') : Run step₁ s ls s' := by
  induction hr with
  | nil s => exact .nil s
  | cons hs _ ih => exact .cons (h hs) ih

theorem guard {ok : σ → ι → Prop} (hr : Run step s ls s') (hok : ∀ l ∈ ls, ∀ s, ok s l) :
    Run (Guarded ok step) s ls s' := by
  induction hr with
  | nil s => exact .nil s
  | cons h _ ih => exact .cons ⟨hok _ (by simp) _, h⟩ (ih fun l hl => hok l (by simp [hl]))

theorem simulates {R : σ → τ → Prop} {t : τ} (hr : Run step s ls s') (h0 : R s t)
    (hstep : ∀ {s l s' t}, R s t → step s l s' → ∃ t', step' t l t' ∧ R s' t') :
    ∃ t', Run step' t ls t' ∧ R s' t' := by
  induction hr generalizing t with
  | nil s => exact ⟨t, .nil t, h0⟩
  | cons h _ ih =>
      obtain ⟨t₁, h₁, h0'⟩ := hstep h0 h
      obtain ⟨t', hr', h'⟩ := ih h0'
      exact ⟨t', .cons h₁ hr', h'⟩

/-- A deterministic system runs as it is executed. -/
theorem of_foldlM {exec : σ → ι → Option σ} (h : ls.foldlM exec s = some s') :
    Run (fun s l s' => exec s l = some s') s ls s' := by
  induction ls generalizing s with
  | nil =>
      obtain rfl : s = s' := Option.some.inj h
      exact .nil s
  | cons l ls ih =>
      rw [List.foldlM_cons, Option.bind_eq_bind, Option.bind_eq_some_iff] at h
      obtain ⟨s₁, h₁, h₂⟩ := h
      exact .cons h₁ (ih h₂)

/-- Execute a step if a condition holds before it. -/
def guardExec (ok : σ → ι → Prop) [∀ s l, Decidable (ok s l)] (exec : σ → ι → Option σ) (s : σ) (l : ι) : Option σ :=
  if ok s l then exec s l else none

theorem of_guardExec {ok : σ → ι → Prop} [∀ s l, Decidable (ok s l)] {exec : σ → ι → Option σ}
    (h : ls.foldlM (guardExec ok exec) s = some s') : Run (Guarded ok fun s l s' => exec s l = some s') s ls s' := by
  refine (of_foldlM h).mono fun hst => ?_
  rw [guardExec, Option.ite_none_right_eq_some] at hst
  exact hst

/-- Two systems that execute the same labels. -/
def execBoth (exec : σ → ι → Option σ) (exec' : τ → ι → Option τ) (s : σ × τ) (l : ι) : Option (σ × τ) :=
  (exec s.1 l).bind fun s' => (exec' s.2 l).map fun t' => (s', t')

theorem execBoth_eq_some {exec : σ → ι → Option σ} {exec' : τ → ι → Option τ} {s s' : σ × τ} {l : ι} :
    execBoth exec exec' s l = some s' ↔ exec s.1 l = some s'.1 ∧ exec' s.2 l = some s'.2 := by
  simp only [execBoth, Option.bind_eq_some_iff, Option.map_eq_some_iff]
  constructor
  · rintro ⟨s₁, h₁, t₁, h₂, rfl⟩
    exact ⟨h₁, h₂⟩
  · rintro ⟨h₁, h₂⟩
    exact ⟨_, h₁, _, h₂, rfl⟩

end Run

end NeForce
