import Mathlib.Data.List.Basic

/-! # Incremental parsing

A parser of single items from the front of a list is *steady* when it shortens the list and when
more input at the end changes neither the item nor what comes before the new input.  Such a parser
gives the same items whether the input arrives in one piece or in many, with the unparsed end kept
between the pieces (`feed_chunks`). -/

namespace NeForce.Incremental

variable {β ι : Type}

structure Steady (parse : List β → Option (ι × List β)) : Prop where
  shrinks {bs i rest} : parse bs = some (i, rest) → rest.length < bs.length
  append {bs i rest} (more : List β) : parse bs = some (i, rest) → parse (bs ++ more) = some (i, rest ++ more)

section

variable (parse : List β → Option (ι × List β))

/-- At most `n` items from the front, and what is left. -/
def drainLoop : ℕ → List β → List ι × List β
  | 0, bs => ([], bs)
  | n + 1, bs =>
      match parse bs with
      | none => ([], bs)
      | some (i, rest) => (i :: (drainLoop n rest).1, (drainLoop n rest).2)

/-- All items from the front, and what is left. -/
def drain (bs : List β) : List ι × List β := drainLoop parse (bs.length + 1) bs

/-- One piece of input after another: the items, and what is left. -/
def feed (kept : List β) : List (List β) → List ι × List β
  | [] => ([], kept)
  | c :: cs =>
      let r := drain parse (kept ++ c)
      let r' := feed r.2 cs
      (r.1 ++ r'.1, r'.2)

end

variable {parse : List β → Option (ι × List β)} {bs rest : List β} {i : ι} {m n : ℕ}

theorem drainLoop_congr (h : Steady parse) (hm : bs.length < m) (hn : bs.length < n) :
    drainLoop parse m bs = drainLoop parse n bs := by
  induction m generalizing n bs with
  | zero => omega
  | succ m ih =>
      obtain ⟨n, rfl⟩ : ∃ j, n = j + 1 := ⟨n - 1, by omega⟩
      unfold drainLoop
      cases e : parse bs with
      | none => rfl
      | some r =>
          obtain ⟨i, rest⟩ := r
          have := h.shrinks e
          have hrest : drainLoop parse m rest = drainLoop parse n rest := ih (by omega) (by omega)
          simp only [hrest]

theorem drain_none (e : parse bs = none) : drain parse bs = ([], bs) := by
  rw [drain, drainLoop, e]

theorem drain_some (h : Steady parse) (e : parse bs = some (i, rest)) :
    drain parse bs = (i :: (drain parse rest).1, (drain parse rest).2) := by
  have hs := h.shrinks e
  have hc : drainLoop parse bs.length rest = drain parse rest := drainLoop_congr h hs (Nat.lt_succ_self _)
  rw [drain, drainLoop, e]
  simp only [hc]

/-- What is left holds no item. -/
theorem parse_drain (h : Steady parse) (bs : List β) : parse (drain parse bs).2 = none := by
  induction hn : bs.length using Nat.strongRecOn generalizing bs with
  | _ n ih =>
      cases e : parse bs with
      | none => rw [drain_none e, e]
      | some r =>
          obtain ⟨i, rest⟩ := r
          rw [drain_some h e]
          exact ih _ (hn ▸ h.shrinks e) rest rfl

theorem drain_append (h : Steady parse) (bs more : List β) :
    drain parse (bs ++ more) =
      ((drain parse bs).1 ++ (drain parse ((drain parse bs).2 ++ more)).1,
        (drain parse ((drain parse bs).2 ++ more)).2) := by
  induction hn : bs.length using Nat.strongRecOn generalizing bs with
  | _ n ih =>
      cases e : parse bs with
      | none => rw [drain_none e, List.nil_append]
      | some r =>
          obtain ⟨i, rest⟩ := r
          rw [drain_some h e, drain_some h (h.append more e), ih _ (hn ▸ h.shrinks e) rest rfl, List.cons_append]

/-- **The pieces do not matter.** -/
theorem feed_eq (h : Steady parse) {kept : List β} (hk : parse kept = none) (cs : List (List β)) :
    feed parse kept cs = drain parse (kept ++ cs.flatten) := by
  induction cs generalizing kept with
  | nil => rw [feed, List.flatten_nil, List.append_nil, drain_none hk]
  | cons c cs ih =>
      rw [feed, ih (parse_drain h _), List.flatten_cons, ← List.append_assoc, drain_append h (kept ++ c)]

theorem feed_chunks (h : Steady parse) (hk : parse [] = none) (cs : List (List β)) :
    feed parse [] cs = drain parse cs.flatten := by
  rw [feed_eq h hk, List.nil_append]

/-- The list is its items, in the form `write` gives them, and what is left. -/
theorem drain_write (h : Steady parse) (write : ι → List β → Prop)
    (hw : ∀ {bs i rest}, parse bs = some (i, rest) → ∃ w, write i w ∧ bs = w ++ rest) (bs : List β) :
    ∃ ws, List.Forall₂ write (drain parse bs).1 ws ∧ bs = ws.flatten ++ (drain parse bs).2 := by
  induction hn : bs.length using Nat.strongRecOn generalizing bs with
  | _ n ih =>
      cases e : parse bs with
      | none => exact ⟨[], by rw [drain_none e]; exact ⟨.nil, rfl⟩⟩
      | some r =>
          obtain ⟨i, rest⟩ := r
          obtain ⟨w, h1, h2⟩ := hw e
          obtain ⟨ws, h3, h4⟩ := ih _ (hn ▸ h.shrinks e) rest rfl
          refine ⟨w :: ws, ?_⟩
          rw [drain_some h e, List.flatten_cons, List.append_assoc, ← h4]
          exact ⟨.cons h1 h3, h2⟩

end NeForce.Incremental
