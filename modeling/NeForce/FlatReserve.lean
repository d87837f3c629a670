import NeForce.FlatTable

/-! # What `reserve` promises

After `reserve(n)` insertions up to `n` elements should leave the arrays of the table where they are.  An insertion gets
new arrays if the number of elements has reached the threshold, even for a key that is there already, or
if the deleted slots are too many (`emplaceUnique_block`).  So the promise holds where the threshold is above
`n`, by as much as there are deleted slots (`reserve_keeps`); the threshold is not: `n / lf` is rounded down, and so
is `capacity * lf`, and `reserve` leaves deleted slots where the capacity is enough. -/

namespace NeForce.Flat

variable {K V : Type}

/-! ### Growing -/

theorem le_bitCeil (n : ℕ) : n ≤ bitCeil n := by
  unfold bitCeil
  split
  · omega
  · rename_i h
    split
    · exact le_rfl
    · have h0 : n ≠ 0 := by omega
      have hlt : n < 2 ^ (n.log2 + 1) := Nat.lt_log2_self
      rw [bitFloor, if_neg h0, Nat.shiftLeft_eq, pow_one, ← Nat.pow_succ]
      exact hlt.le

theorem le_nextPowerOf2 (n : ℕ) : n ≤ nextPowerOf2 n := by
  unfold nextPowerOf2
  split
  · assumption
  · exact le_bitCeil n

theorem sixteen_le_nextPowerOf2 (n : ℕ) : 16 ≤ nextPowerOf2 n := by
  unfold nextPowerOf2
  split
  · exact le_rfl
  · have := le_bitCeil n
    omega

section

variable {t t' : Table V} {k : Keying K V} {m n : ℕ} {b : Bool}

/-- A rehash leaves the table, or gives it new arrays. -/
theorem rehash_cases (h : t.rehash k m b = .ok t') :
    (t' = t ∧ (nextPowerOf2 (max m (slotsFor t.size t.maxLoadFactor)) < t.slots.capacity ∨
      nextPowerOf2 (max m (slotsFor t.size t.maxLoadFactor)) = t.slots.capacity ∧ b = false)) ∨
    (t'.size = t.size ∧ t'.maxLoadFactor = t.maxLoadFactor ∧ t'.deleted = 0 ∧ t'.block = t.block + 1 ∧
      t'.growthThreshold = thresholdOf (nextPowerOf2 (max m (slotsFor t.size t.maxLoadFactor))) t.maxLoadFactor ∧
      ¬ (nextPowerOf2 (max m (slotsFor t.size t.maxLoadFactor)) < t.slots.capacity ∨
        nextPowerOf2 (max m (slotsFor t.size t.maxLoadFactor)) = t.slots.capacity ∧ b = false)) := by
  rw [Table.rehash, Table.rehashImpl] at h
  simp only [Bool.not_eq_true'] at h
  split at h
  · rename_i t₁ h₁
    obtain rfl := Except.ok.inj h
    split at h₁
    · rename_i hc
      obtain rfl := Rehash.done.inj h₁
      exact Or.inl ⟨rfl, hc⟩
    · rename_i hc
      split at h₁
      · obtain rfl := Rehash.done.inj h₁
        exact Or.inr ⟨rfl, rfl, rfl, rfl, rfl, hc⟩
      · cases h₁
      · cases h₁
  · cases h
  · cases h

/-- Where an insertion grows the table, it gets new arrays. -/
theorem prepare_cases (h : t.prepare k = .ok t') :
    t'.size = t.size ∧
    ((t.shouldRehash = false ∧ t.needsPurge = false ∧ t' = t) ∨
      ((t.shouldRehash = true ∨ t.needsPurge = true) ∧ t'.block = t.block + 1)) := by
  rw [Table.prepare] at h
  split at h
  · rename_i hg
    rw [Bool.or_eq_true] at hg
    rw [Table.growForInsert] at h
    split at h
    · -- the new capacity is larger
      have hcap : t.slots.capacity < if t.slots.capacity = 0 then 16 else t.slots.capacity * 2 := by split <;> omega
      simp only at h
      generalize (if t.slots.capacity = 0 then 16 else t.slots.capacity * 2) = newCap at h hcap
      have hlarge := le_nextPowerOf2 (max (max newCap (slotsFor (t.size + 1) t.maxLoadFactor)) (slotsFor t.size t.maxLoadFactor))
      have hmax : newCap ≤ max (max newCap (slotsFor (t.size + 1) t.maxLoadFactor)) (slotsFor t.size t.maxLoadFactor) :=
        (le_max_left _ _).trans (le_max_left _ _)
      obtain ⟨_, hle⟩ | ⟨hs, _, _, hb, _⟩ := rehash_cases h
      · exfalso
        omega
      · exact ⟨hs, Or.inr ⟨hg, hb⟩⟩
    · rename_i hs
      rw [if_pos (hg.resolve_left hs)] at h
      have hlarge := le_nextPowerOf2 (max t.slots.capacity (slotsFor t.size t.maxLoadFactor))
      obtain ⟨_, hle⟩ | ⟨hs, _, _, hb, _⟩ := rehash_cases h
      · exfalso
        obtain hlt | ⟨_, hf⟩ := hle
        · omega
        · cases hf
      · exact ⟨hs, Or.inr ⟨hg, hb⟩⟩
  · rename_i hg
    rw [Bool.or_eq_true, not_or, Bool.not_eq_true, Bool.not_eq_true] at hg
    obtain rfl := Except.ok.inj h
    exact ⟨rfl, Or.inl ⟨hg.1, hg.2, rfl⟩⟩

/-! ### One insertion -/

variable {simd : Bool} {v : V} {r : ℕ × Bool}

/-- What an insertion does after the growth. -/
theorem emplaceUnique_cases (h : t.emplaceUnique k simd v = .ok (t', r)) :
    ∃ t₀, t.prepare k = .ok t₀ ∧ (t' = t₀ ∨ ∃ idx, t' = t₀.constructAt idx (hashToH2 (k.mixedHash (k.extracter v))) v) := by
  rw [Table.emplaceUnique] at h
  cases hp : t.prepare k with
  | error e =>
      rw [hp] at h
      cases h
  | ok t₀ =>
      rw [hp] at h
      simp only [bind, Except.bind] at h
      refine ⟨t₀, rfl, ?_⟩
      split at h
      · rename_i idx _
        obtain ⟨rfl, _⟩ := Prod.mk.inj (Except.ok.inj h)
        exact Or.inl rfl
      · rename_i idx _
        obtain ⟨rfl, _⟩ := Prod.mk.inj (Except.ok.inj h)
        exact Or.inr ⟨idx, rfl⟩
      · cases h

/-- **An insertion keeps the arrays if and only if neither the elements nor the deleted slots are too many.** -/
theorem emplaceUnique_block (h : t.emplaceUnique k simd v = .ok (t', r)) :
    t'.block = t.block ↔ t.shouldRehash = false ∧ t.needsPurge = false := by
  obtain ⟨t₀, hp, ht'⟩ := emplaceUnique_cases h
  have hb : t'.block = t₀.block := by
    obtain rfl | ⟨idx, rfl⟩ := ht' <;> rfl
  rw [hb]
  obtain ⟨_, ⟨h1, h2, rfl⟩ | ⟨hg, hb'⟩⟩ := prepare_cases hp
  · exact iff_of_true rfl ⟨h1, h2⟩
  · refine iff_of_false (by omega) fun hn => ?_
    rw [hn.1, hn.2] at hg
    simp at hg

/-- Room for `n` elements: the threshold is above `n`, and above the elements and the deleted slots together. -/
def Table.Roomy (t : Table V) (n : ℕ) : Prop :=
  n < t.growthThreshold ∧ (t.deleted = 0 ∨ n + t.deleted < t.growthThreshold)

theorem emplaceUnique_size (h : t.emplaceUnique k simd v = .ok (t', r)) : t.size ≤ t'.size := by
  obtain ⟨t₀, hp, ht'⟩ := emplaceUnique_cases h
  have hs := (prepare_cases hp).1
  obtain rfl | ⟨idx, rfl⟩ := ht'
  · exact hs.ge
  · rw [Table.constructAt]
    simp only
    omega

/-- An insertion into a table with room keeps the arrays and the room. -/
theorem emplaceUnique_roomy (h : t.emplaceUnique k simd v = .ok (t', r)) (hr : t.Roomy n) (hn : t.size ≤ n) :
    t'.block = t.block ∧ t'.Roomy n := by
  obtain ⟨hthr, hdel⟩ := hr
  have hs : t.shouldRehash = false := by
    rw [Table.shouldRehash]
    simp
    omega
  have hp : t.needsPurge = false := by
    rw [Table.needsPurge]
    simp
    omega
  refine ⟨(emplaceUnique_block h).mpr ⟨hs, hp⟩, ?_⟩
  obtain ⟨t₀, hpre, ht'⟩ := emplaceUnique_cases h
  obtain ⟨_, ⟨_, _, rfl⟩ | ⟨hg, _⟩⟩ := prepare_cases hpre
  · obtain rfl | ⟨idx, rfl⟩ := ht'
    · exact ⟨hthr, hdel⟩
    · refine ⟨hthr, ?_⟩
      rw [Table.constructAt]
      simp only
      split <;> omega
  · rw [hs, hp] at hg
    simp at hg

end

/-! ### Runs of insertions -/

/-- An insertion of `emplace_unique`. -/
def Emplaces (k : Keying K V) (simd : Bool) (t : Table V) (v : V) (t' : Table V) : Prop :=
  ∃ r, t.emplaceUnique k simd v = .ok (t', r)

/-- Whether there is room for `n` elements after `reserve(n)`: in the new arrays, where it gets new ones, or in those that
are there. -/
def Table.ReserveKeeps (t : Table V) (n : ℕ) : Prop :=
  if t.size < n ∧ t.slots.capacity < nextPowerOf2 (max (slotsFor n t.maxLoadFactor) (slotsFor t.size t.maxLoadFactor)) then
    n < thresholdOf (nextPowerOf2 (max (slotsFor n t.maxLoadFactor) (slotsFor t.size t.maxLoadFactor))) t.maxLoadFactor
  else t.Roomy n

section

variable {t t₁ t' : Table V} {k : Keying K V} {n : ℕ} {simd : Bool} {vs : List V}

theorem run_size (hr : Run (Emplaces k simd) t vs t') : t.size ≤ t'.size := by
  induction hr with
  | nil t => exact le_rfl
  | cons h _ ih =>
      obtain ⟨r, h⟩ := h
      exact (emplaceUnique_size h).trans ih

theorem run_roomy (hr : Run (Emplaces k simd) t vs t') (hroom : t.Roomy n) (hn : t'.size ≤ n) : t'.block = t.block := by
  induction hr with
  | nil t => rfl
  | cons h hrest ih =>
      obtain ⟨r, h⟩ := h
      have hs := run_size hrest
      obtain ⟨hb, hroom'⟩ := emplaceUnique_roomy h hroom ((emplaceUnique_size h).trans (hs.trans hn))
      rw [ih hroom' hn, hb]

theorem reserve_roomy (h : t.reserve k n = .ok t₁) (hk : t.ReserveKeeps n) : t₁.Roomy n := by
  rw [Table.reserve] at h
  rw [Table.ReserveKeeps] at hk
  split at h
  · rename_i hle
    rw [if_neg (fun hc => absurd hc.1 (Nat.not_lt.mpr hle))] at hk
    obtain rfl := Except.ok.inj h
    exact hk
  · rename_i hlt
    obtain ⟨rfl, hc⟩ | ⟨_, _, hd, _, hthr, hc⟩ := rehash_cases h
    · rw [if_neg] at hk
      · exact hk
      · rintro ⟨_, hlarge⟩
        obtain hc | ⟨hc, _⟩ := hc <;> omega
    · have hlarge : t.slots.capacity < nextPowerOf2 (max (slotsFor n t.maxLoadFactor) (slotsFor t.size t.maxLoadFactor)) := by
        obtain ⟨hge, hpurge⟩ := not_or.mp hc
        have hne : nextPowerOf2 (max (slotsFor n t.maxLoadFactor) (slotsFor t.size t.maxLoadFactor)) ≠ t.slots.capacity :=
          fun e => hpurge ⟨e, rfl⟩
        omega
      rw [if_pos ⟨by omega, hlarge⟩] at hk
      exact ⟨hthr ▸ hk, Or.inl hd⟩

end

/-! ### Tables that `reserve` leaves without room -/

/-- Numbers as their own keys and hashes. -/
def natKeying : Keying ℕ ℕ := ⟨id, fun a b => a == b, id⟩

/-- A table without arrays. -/
def emptyTable (lf : ℚ) : Table ℕ := ⟨Slots.allocate 0, 0, 0, 0, lf, 0⟩

def emplaceAll (t : Table ℕ) (l : List ℕ) : Except Fault (Table ℕ) :=
  l.foldlM (fun t v => (t.emplaceUnique natKeying true v).map Prod.fst) t

/-- Fourteen elements, all but one removed again. -/
def withDeleted : Except Fault (Table ℕ) :=
  (emplaceAll (emptyTable (7 / 8)) (List.range 14)).map fun t =>
    (List.range 16).foldl (fun t i => if t.size = 1 then t else (t.eraseAt true i).1) t

end NeForce.Flat
