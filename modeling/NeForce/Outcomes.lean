import Mathlib.Data.List.Basic

/-! # What a computation that may fail guarantees

`Ensures ok x P`: the computation `x` has a result with `P`, or fails with one of the errors `ok` allows.  An error
that is not allowed stands for what must not happen at all. -/

namespace NeForce

def Ensures (ok : ε → Prop) (x : Except ε α) (P : α → Prop) : Prop :=
  match x with
  | .ok a => P a
  | .error e => ok e

namespace Ensures

variable {ok : ε → Prop} {x : Except ε α} {f : α → Except ε β} {a : α} {e : ε} {P P' : α → Prop} {Q : β → Prop}

theorem of_ok (h : Ensures ok x P) (hx : x = .ok a) : P a := by
  subst hx
  exact h

theorem of_error (h : Ensures ok x P) (hx : x = .error e) : ok e := by
  subst hx
  exact h

theorem pure (h : P a) : Ensures ok (.ok a) P := h

theorem fail (h : ok e) : Ensures ok (.error e : Except ε α) P := h

theorem mono (h : Ensures ok x P) (hP : ∀ a, P a → P' a) : Ensures ok x P' := by
  cases x with
  | ok a => exact hP a h
  | error e => exact h

/-- One computation after another. -/
theorem bind (h : Ensures ok x P) (hf : ∀ a, P a → Ensures ok (f a) Q) : Ensures ok (x >>= f) Q := by
  cases x with
  | ok a => exact hf a h
  | error e => exact h

/-- An allowed error, or a result. -/
theorem cases (h : Ensures ok x P) : (∃ a, x = .ok a ∧ P a) ∨ ∃ e, x = .error e ∧ ok e := by
  cases x with
  | ok a => exact .inl ⟨a, rfl, h⟩
  | error e => exact .inr ⟨e, rfl, h⟩

end Ensures

end NeForce

/-! ## Counting loops

`forLoop n body` runs `body` for the indices below `n` in turn, and what holds of the state at index `0` and is kept from
one index to the next holds at the end (`Ensures.forLoop`). -/

namespace NeForce

variable {ε σ : Type} {ok : ε → Prop} {n : ℕ} {s : σ}

def forLoop (n : ℕ) (body : ℕ → σ → Except ε σ) (s : σ) : Except ε σ := (List.range n).foldlM (fun s i => body i s) s

theorem forLoop_succ (n : ℕ) (body : ℕ → σ → Except ε σ) (s : σ) :
    forLoop (n + 1) body s = forLoop n body s >>= body n := by
  unfold forLoop
  rw [List.range_succ, List.foldlM_append]
  cases (List.range n).foldlM (fun s i => body i s) s with
  | ok s' =>
      change List.foldlM (fun s i => body i s) s' [n] = body n s'
      rw [List.foldlM_cons]
      cases body n s' <;> rfl
  | error e => rfl

theorem Ensures.forLoop {body : ℕ → σ → Except ε σ} {P : ℕ → σ → Prop} (h0 : P 0 s)
    (hstep : ∀ i < n, ∀ s, P i s → Ensures ok (body i s) (P (i + 1))) : Ensures ok (forLoop n body s) (P n) := by
  induction n with
  | zero => exact .pure h0
  | succ n ih =>
      rw [forLoop_succ]
      exact (ih fun i hi => hstep i (by omega)).bind (hstep n (by omega))

/-- Tests that all have a result. -/
theorem allM_ok {l : List ℕ} {test : ℕ → Except ε Bool} {b : ℕ → Bool} (h : ∀ i ∈ l, test i = .ok (b i)) :
    l.allM test = .ok (l.all b) := by
  induction l with
  | nil => rfl
  | cons i l ih =>
      have ih := ih fun j hj => h j (List.mem_cons_of_mem _ hj)
      rw [List.allM, h i List.mem_cons_self, List.all_cons]
      cases hb : b i with
      | true => exact ih
      | false => rfl

end NeForce
