import NeForce.Order

/-! # Searching a sorted sequence

Where a test starts to hold in a list: by bisection (`bisect`), and from a given position onwards (`scanFrom`).  A position
that is not in the list gives `none`; on a list that the test cuts in two both find the cut (`bisect_eq`, `scanFrom_eq`). -/

namespace NeForce

variable {α : Type} {p : α → Bool} {s s₁ s₂ m : List α} {n lo hi : ℕ} {a : α}

/-- The first position in `lo, …, hi` at which `p` holds, or `hi`; at most `n` steps. -/
def bisect (p : α → Bool) (s : List α) : ℕ → ℕ → ℕ → Option ℕ
  | 0, _, _ => none
  | n + 1, lo, hi =>
      if lo < hi then
        let mid := lo + (hi - lo) / 2
        match s[mid]? with
        | none => none
        | some a => if p a then bisect p s n lo mid else bisect p s n (mid + 1) hi
      else some lo

/-- The first position from `i` on at which `p` holds, or the end; at most `n` steps. -/
def scanFrom (p : α → Bool) (s : List α) : ℕ → ℕ → Option ℕ
  | 0, _ => none
  | n + 1, i =>
      if i < s.length then
        match s[i]? with
        | none => none
        | some a => if p a then some i else scanFrom p s n (i + 1)
      else some i

/-- The elements before the cut and those after it, by their positions. -/
theorem Cut.test_iff {i : ℕ} (h : Cut p s s₁ s₂) (hi : s[i]? = some a) : p a = true ↔ s₁.length ≤ i := by
  rw [h.eq] at hi
  rcases lt_or_ge i s₁.length with hlt | hge
  · rw [List.getElem?_append_left hlt] at hi
    have hlow := h.low a (List.mem_of_getElem? hi)
    rw [hlow]
    exact ⟨fun hf => absurd hf Bool.false_ne_true, fun hle => absurd hle (not_le.mpr hlt)⟩
  · rw [List.getElem?_append_right hge] at hi
    exact ⟨fun _ => hge, fun _ => h.high a (List.mem_of_getElem? hi)⟩

theorem bisect_eq (h : Cut p s s₁ s₂) (hlo : lo ≤ s₁.length) (hhi : s₁.length ≤ hi) (hs : hi ≤ s.length)
    (hn : hi - lo < n) : bisect p s n lo hi = some s₁.length := by
  induction n generalizing lo hi with
  | zero => omega
  | succ n ih =>
      rw [bisect]
      split
      · rename_i hlt
        have hmid : lo + (hi - lo) / 2 < s.length := by omega
        have hget := List.getElem?_eq_getElem hmid
        have htest := h.test_iff hget
        simp only [hget]
        split
        · rename_i hp
          have hle := htest.mp hp
          exact ih hlo hle (by omega) (by omega)
        · rename_i hp
          have hlt' : ¬s₁.length ≤ lo + (hi - lo) / 2 := fun hle => hp (htest.mpr hle)
          exact ih (by omega) hhi hs (by omega)
      · exact congrArg some (by omega)

theorem scanFrom_eq {i : ℕ} (h : Cut p s s₁ s₂) (hi : i ≤ s₁.length) (hn : s₁.length - i < n) :
    scanFrom p s n i = some s₁.length := by
  have hlen : s.length = s₁.length + s₂.length := by rw [h.eq, List.length_append]
  induction n generalizing i with
  | zero => omega
  | succ n ih =>
      rw [scanFrom]
      split
      · rename_i hlt
        have hget := List.getElem?_eq_getElem hlt
        have htest := h.test_iff hget
        simp only [hget]
        split
        · rename_i hp
          exact congrArg some (le_antisymm hi (htest.mp hp))
        · rename_i hp
          have hlt' : ¬s₁.length ≤ i := fun hle => hp (htest.mpr hle)
          exact ih (by omega) (by omega)
      · exact congrArg some (by omega)

/-- The first element after a cut. -/
theorem Cut.getElem?_length (h : Cut p s s₁ s₂) : s[s₁.length]? = s₂.head? := by
  rw [h.eq, List.getElem?_append_right le_rfl, Nat.sub_self, List.head?_eq_getElem?]

end NeForce
