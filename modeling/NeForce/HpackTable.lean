import NeForce.Hpack
import NeForce.Runs

/-! # The dynamic table

What eviction and insertion do to the entries and the size counter of a dynamic table, and the
memory of a decoder over whole runs: while no size update raises the limit above the one that was set,
and no 32-bit sum of sizes overflows, the counter is the size of the table and at most the limit
(`run_bounded`).  A size update may raise the limit, and then the table outgrows it (`raised_not_bounded`). -/

namespace NeForce.Hpack

/-- The size of a list of entries. -/
def total (l : List HeaderField) : ℕ := (l.map HeaderField.size).sum

@[simp] theorem total_nil : total [] = 0 := rfl

@[simp] theorem total_cons (h : HeaderField) (l : List HeaderField) : total (h :: l) = h.size + total l := rfl

theorem total_concat (l : List HeaderField) (h : HeaderField) : total (l ++ [h]) = total l + h.size := by
  simp [total]

theorem total_le_of_prefix {l l' : List HeaderField} (h : l' <+: l) : total l' ≤ total l := by
  obtain ⟨m, rfl⟩ := h
  simp [total]

namespace DynamicTable

variable {t : DynamicTable} {needed n : ℕ} {h : HeaderField}

/-- The counter is the size of the entries, up to overflow. -/
def Counted (t : DynamicTable) : Prop := t.currentTableSize = total t.entries % 2 ^ 32

/-- The longest prefix of the entries that leaves room for `needed`. -/
structure Evicted (t : DynamicTable) (needed : ℕ) (t' : DynamicTable) : Prop where
  max : t'.maxTableSize = t.maxTableSize
  counted : t'.Counted
  isPrefix : t'.entries <+: t.entries
  room : t'.entries = [] ∨ (total t'.entries + needed) % 2 ^ 32 ≤ t.maxTableSize
  longest : ∀ l, l <+: t.entries → (total l + needed) % 2 ^ 32 ≤ t.maxTableSize → l <+: t'.entries

theorem evictLoop_spec (needed : ℕ) (hc : t.Counted) (hn : t.entries.length ≤ n) :
    t.Evicted needed (t.evictLoop needed n) := by
  have hsum : (t.currentTableSize + needed) % 2 ^ 32 = (total t.entries + needed) % 2 ^ 32 := by
    rw [hc, Nat.mod_add_mod]
  induction n generalizing t with
  | zero =>
      have he : t.entries = [] := List.eq_nil_of_length_eq_zero (by omega)
      exact ⟨rfl, hc, List.prefix_rfl, Or.inl he, fun l hl _ => hl⟩
  | succ n ih =>
      rw [evictLoop]
      split
      · rename_i hgt
        rw [hsum] at hgt
        cases hlast : t.entries.getLast? with
        | none =>
            rw [List.getLast?_eq_none_iff] at hlast
            exact ⟨rfl, hc, List.prefix_rfl, Or.inl hlast, fun l hl _ => hl⟩
        | some last =>
            obtain ⟨l, hl⟩ := List.getLast?_eq_some_iff.mp hlast
            have hc' : Counted { t with
                currentTableSize := (t.currentTableSize + (2 ^ 32 - last.size % 2 ^ 32)) % 2 ^ 32
                entries := t.entries.dropLast } := by
              have hlt : last.size % 2 ^ 32 < 2 ^ 32 := Nat.mod_lt _ (by decide)
              rw [Counted] at hc ⊢
              simp only [hc, hl, List.dropLast_concat, total_concat]
              omega
            have ev := ih hc' (by simp only [hl, List.dropLast_concat]; rw [hl, List.length_append] at hn; simpa using hn)
              (by rw [hc', Nat.mod_add_mod])
            refine ⟨ev.max, ev.counted, ev.isPrefix.trans (List.dropLast_prefix _), ev.room, fun l' hl' hle => ?_⟩
            refine ev.longest l' ?_ hle
            simp only [hl, List.dropLast_concat] at hl' ⊢
            rcases List.prefix_concat_iff.mp hl' with rfl | hp
            · rw [hl] at hgt
              omega
            · exact hp
      · rename_i hle
        rw [hsum] at hle
        exact ⟨rfl, hc, List.prefix_rfl, Or.inr (by omega), fun l hl _ => hl⟩

theorem evictForSize_spec (hc : t.Counted) (needed : ℕ) : t.Evicted needed (t.evictForSize needed) := by
  have ev := evictLoop_spec (needed % 2 ^ 32) hc le_rfl
  refine ⟨ev.max, ev.counted, ev.isPrefix, ?_, fun l hl hle => ev.longest l hl ?_⟩
  · rw [← Nat.add_mod_mod]
    exact ev.room
  · rwa [Nat.add_mod_mod]

/-- The table before an insertion, and whether the entry goes in. -/
theorem addToDynamicTable_spec (hc : t.Counted) (h : HeaderField) :
    ∃ t', t.Evicted h.size t' ∧ (t.addToDynamicTable h).Counted ∧
      (t.addToDynamicTable h).maxTableSize = t.maxTableSize ∧
      (t.addToDynamicTable h).entries = if t.maxTableSize < h.size then t'.entries else h :: t'.entries := by
  have ev := evictForSize_spec hc h.size
  refine ⟨_, ev, ?_⟩
  unfold addToDynamicTable
  simp only [ev.max]
  split
  · exact ⟨ev.counted, ev.max, rfl⟩
  · refine ⟨?_, rfl, rfl⟩
    have := ev.counted
    rw [Counted] at this ⊢
    simp only [this, total_cons]
    omega

theorem setMaxTableSize_spec (hc : t.Counted) (size : ℕ) :
    Evicted { t with maxTableSize := size } 0 (t.setMaxTableSize size) :=
  evictForSize_spec (t := { t with maxTableSize := size }) hc 0

/-! ### The memory of a decoder -/

/-- The counter is the size of the entries, and at most the limit of the table. -/
structure Bounded (t : DynamicTable) : Prop where
  size : t.currentTableSize = total t.entries
  le : t.currentTableSize ≤ t.maxTableSize
  limit : t.maxTableSize < 2 ^ 32

theorem Bounded.counted (hb : t.Bounded) : t.Counted := by
  have h1 := hb.size
  have h2 := hb.le
  have h3 := hb.limit
  rw [Counted]
  omega

theorem Bounded.make (h : n < 2 ^ 32) : (make n).Bounded := ⟨rfl, Nat.zero_le _, h⟩

theorem Bounded.setMaxTableSize (hb : t.Bounded) (hn : n < 2 ^ 32) :
    (t.setMaxTableSize n).Bounded ∧ (t.setMaxTableSize n).maxTableSize = n := by
  have ev := setMaxTableSize_spec hb.counted n
  have hle := total_le_of_prefix ev.isPrefix
  have hsize := hb.size
  have h1 := hb.le
  have h2 := hb.limit
  simp only at hle
  have hcur : (t.setMaxTableSize n).currentTableSize = total (t.setMaxTableSize n).entries := by
    rw [ev.counted, Nat.mod_eq_of_lt (by omega)]
  refine ⟨⟨hcur, ?_, by rw [ev.max]; exact hn⟩, ev.max⟩
  rw [ev.max, hcur]
  rcases ev.room with he | hr
  · rw [he]
    exact Nat.zero_le _
  · rw [Nat.add_zero, Nat.mod_eq_of_lt (by omega)] at hr
    exact hr

theorem Bounded.add (hb : t.Bounded) (hov : h.size ≤ t.maxTableSize → t.currentTableSize + h.size < 2 ^ 32) :
    (t.addToDynamicTable h).Bounded ∧ (t.addToDynamicTable h).maxTableSize = t.maxTableSize := by
  obtain ⟨t', ev, hc, hmax, he⟩ := addToDynamicTable_spec hb.counted h
  have hle := total_le_of_prefix ev.isPrefix
  have hsize := hb.size
  have h1 := hb.le
  have h2 := hb.limit
  rw [Counted, he] at hc
  refine ⟨?_, hmax⟩
  by_cases hgt : t.maxTableSize < h.size
  · rw [if_pos hgt] at he hc
    rw [Nat.mod_eq_of_lt (by omega)] at hc
    exact ⟨by rw [he, hc], by rw [hc, hmax]; omega, by rw [hmax]; exact h2⟩
  · rw [if_neg hgt] at he hc
    have hlt := hov (by omega)
    rw [total_cons, Nat.mod_eq_of_lt (by omega)] at hc
    refine ⟨by rw [he, hc, total_cons], ?_, by rw [hmax]; exact h2⟩
    rw [hc, hmax]
    rcases ev.room with hr | hr
    · rw [hr, total_nil]
      omega
    · rw [Nat.mod_eq_of_lt (by omega)] at hr
      omega

end DynamicTable

/-! ### Runs of a decoder -/

/-- A decoder, the limit it was created with or that was set last, and the unread bytes of the block it decodes. -/
structure DecoderState where
  limit : ℕ
  table : DynamicTable
  unread : Bytes
deriving DecidableEq

/-- Start to decode a block, execute its next instruction, or set the limit between two blocks. -/
inductive DecoderLabel where
  | block (data : Bytes)
  | instruction
  | setMaxTableSize (limit : ℕ)

def DecoderState.start (limit : ℕ) : DecoderState := ⟨limit, .make limit, []⟩

def DecoderState.exec (s : DecoderState) : DecoderLabel → Option DecoderState
  | .block data => if s.unread = [] then some { s with unread := data } else none
  | .instruction =>
      if s.unread = [] then none
      else
        let r := s.table.readInstruction s.unread
        some { s with table := s.table.apply r.1, unread := r.2 }
  | .setMaxTableSize n =>
      if s.unread = [] ∧ n < 2 ^ 32 then some { s with limit := n, table := s.table.setMaxTableSize n } else none

def DecoderStep (s : DecoderState) (l : DecoderLabel) (s' : DecoderState) : Prop := s.exec l = some s'

/-- The next instruction does not raise the limit of the table above the one that was set, and the
32-bit sum of the sizes of the table and of an entry that is small enough for it does not overflow. -/
def KeepsLimit (s : DecoderState) : DecoderLabel → Prop
  | .instruction =>
      match (s.table.readInstruction s.unread).1 with
      | .setSize n => n ≤ s.limit
      | .add h => h.size ≤ s.table.maxTableSize → s.table.currentTableSize + h.size < 2 ^ 32
      | _ => True
  | _ => True

section

variable {s s' : DecoderState} {l : DecoderLabel} {ls : List DecoderLabel} {limit : ℕ}

/-- What is true of the table of every decoder that is reached. -/
def DecoderState.Ok (s : DecoderState) : Prop :=
  s.table.Bounded ∧ s.table.maxTableSize ≤ s.limit ∧ s.limit < 2 ^ 32

theorem DecoderState.Ok.step (hs : s.Ok) (hst : Guarded KeepsLimit DecoderStep s l s') : s'.Ok := by
  obtain ⟨hb, hle, hlim⟩ := hs
  obtain ⟨hk, hst⟩ := hst
  cases l with
  | block data =>
      simp only [DecoderStep, DecoderState.exec, Option.ite_none_right_eq_some, Option.some.injEq] at hst
      obtain ⟨_, rfl⟩ := hst
      exact ⟨hb, hle, hlim⟩
  | setMaxTableSize n =>
      simp only [DecoderStep, DecoderState.exec, Option.ite_none_right_eq_some, Option.some.injEq] at hst
      obtain ⟨⟨_, hn⟩, rfl⟩ := hst
      obtain ⟨h1, h2⟩ := hb.setMaxTableSize hn
      exact ⟨h1, le_of_eq h2, hn⟩
  | instruction =>
      simp only [DecoderStep, DecoderState.exec, Option.ite_none_left_eq_some, Option.some.injEq] at hst
      obtain ⟨_, rfl⟩ := hst
      simp only [KeepsLimit] at hk
      simp only [DecoderState.Ok]
      cases hi : (s.table.readInstruction s.unread).1 with
      | nop => exact ⟨hb, hle, hlim⟩
      | field h => exact ⟨hb, hle, hlim⟩
      | add h =>
          rw [hi] at hk
          obtain ⟨h1, h2⟩ := hb.add hk
          exact ⟨h1, le_of_eq_of_le h2 hle, hlim⟩
      | setSize n =>
          rw [hi] at hk
          obtain ⟨h1, h2⟩ := hb.setMaxTableSize (lt_of_le_of_lt hk hlim)
          exact ⟨h1, le_of_eq_of_le h2 hk, hlim⟩

/-- **The table of a decoder stays within its limit.** -/
theorem run_bounded (hl : limit < 2 ^ 32) (hr : Run (Guarded KeepsLimit DecoderStep) (.start limit) ls s) :
    s.table.currentTableSize = total s.table.entries ∧ s.table.currentTableSize ≤ s.limit := by
  have h0 : (DecoderState.start limit).Ok := ⟨.make hl, le_rfl, hl⟩
  obtain ⟨hb, hle, _⟩ := hr.invariant h0 fun hs hst => hs.step hst
  exact ⟨hb.size, hb.le.trans hle⟩

/-- A literal `a: b` for the table, to a decoder with limit `40`. -/
theorem run_bounded_sample : ∃ s : DecoderState, s.table.entries = [⟨ascii "a", ascii "b"⟩] ∧
    s.table.currentTableSize = total s.table.entries ∧ s.table.currentTableSize ≤ s.limit := by
  have hs : DecoderState.exec ⟨40, .make 40, [0x40, 0x01, 0x61, 0x01, 0x62]⟩ .instruction =
      some ⟨40, ⟨40, 34, [⟨ascii "a", ascii "b"⟩]⟩, []⟩ := by decide
  have hk : KeepsLimit ⟨40, .make 40, [0x40, 0x01, 0x61, 0x01, 0x62]⟩ .instruction := by
    have hi : ((DynamicTable.make 40).readInstruction [0x40, 0x01, 0x61, 0x01, 0x62]).1 =
        .add ⟨ascii "a", ascii "b"⟩ := by decide
    simp only [KeepsLimit, hi]
    decide
  have h0 : Guarded KeepsLimit DecoderStep (.start 40) (.block [0x40, 0x01, 0x61, 0x01, 0x62]) _ := ⟨trivial, rfl⟩
  have hr := Run.cons h0 (.cons ⟨hk, hs⟩ (.nil _))
  exact ⟨_, rfl, run_bounded (by decide) hr⟩

/-- A decoder with limit `0` is told by the block to use a table of size `40`. -/
theorem raised_not_bounded : ∃ ls s, Run DecoderStep (.start 0) ls s ∧ s.limit < s.table.currentTableSize := by
  have he : ([.block [0x3f, 0x09, 0x40, 0x01, 0x61, 0x01, 0x62], .instruction, .instruction] :
      List DecoderLabel).foldlM DecoderState.exec (.start 0) = some ⟨0, ⟨40, 34, [⟨ascii "a", ascii "b"⟩]⟩, []⟩ := by
    decide
  exact ⟨_, _, Run.of_foldlM he, by decide⟩

end

end NeForce.Hpack
