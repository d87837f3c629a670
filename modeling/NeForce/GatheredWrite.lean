import Mathlib.Data.List.Basic
import NeForce.BigEndian

/-! # The gathered write of a response

`send_response` offers what is left of the header and of the body to `writev` until nothing of the header is left.  What the
system has taken is `sent`; it takes any positive number of the bytes that are offered, in their order. -/

namespace NeForce.SendResponse

/-- The two buffers and what was written. -/
structure Gather where
  header : Bytes
  body : Bytes
  sent : Bytes := []

namespace Gather

/-- The number of bytes that a call of `writev` offers. -/
def offered (s : Gather) : ℕ := s.header.length + s.body.length

/-- A call that wrote so many bytes, and the loop's arithmetic on the buffers. -/
def step (s : Gather) (written : ℕ) : Gather :=
  let sent := s.sent ++ (s.header ++ s.body).take written
  if s.header.length ≤ written then ⟨[], s.body.drop (written - s.header.length), sent⟩
  else ⟨s.header.drop written, s.body, sent⟩

end Gather

/-- The loop, with the numbers that the calls return. -/
inductive Sends : Gather → List ℕ → Gather → Prop
  | done {s : Gather} : s.header = [] → Sends s [] s
  | write {s s' : Gather} {written : ℕ} {counts : List ℕ} : s.header ≠ [] → 0 < written → written ≤ s.offered →
      Sends (s.step written) counts s' → Sends s (written :: counts) s'

variable {s s' : Gather} {n : ℕ} {counts : List ℕ}

/-! ### One call -/

/-- Nothing is lost between the buffers and the system. -/
theorem step_conserves (s : Gather) (n : ℕ) :
    (s.step n).sent ++ ((s.step n).header ++ (s.step n).body) = s.sent ++ (s.header ++ s.body) := by
  unfold Gather.step
  split
  · next h =>
    rw [List.nil_append, List.append_assoc, List.take_append, List.take_of_length_le h, List.append_assoc,
      List.take_append_drop]
  · next h =>
    have hlt : n ≤ s.header.length := (not_le.mp h).le
    rw [List.append_assoc, List.take_append_of_le_length hlt, ← List.append_assoc (s.header.take n), List.take_append_drop]

theorem offered_step (hn : n ≤ s.offered) : (s.step n).offered + n = s.offered := by
  unfold Gather.offered at hn ⊢
  unfold Gather.step
  split
  · rw [List.length_nil, List.length_drop]
    omega
  · dsimp only
    rw [List.length_drop]
    omega

theorem length_header_step (s : Gather) (n : ℕ) : (s.step n).header.length = s.header.length - n := by
  unfold Gather.step
  split
  · rw [List.length_nil]
    omega
  · rw [List.length_drop]

/-! ### Runs -/

theorem Sends.conserves (h : Sends s counts s') : s'.sent ++ s'.body = s.sent ++ (s.header ++ s.body) := by
  induction h with
  | done hnil => rw [hnil, List.nil_append]
  | write _ _ _ _ ih => rw [ih, step_conserves]

theorem Sends.sum_counts (h : Sends s counts s') : s'.body.length + counts.sum = s.offered := by
  induction h with
  | done hnil =>
      unfold Gather.offered
      rw [hnil]
      simp
  | write _ _ hle _ ih =>
      rw [List.sum_cons, ← offered_step hle, ← ih]
      omega

/-- The loop goes on as long as the header is not written, and then it ends. -/
theorem Sends.header_le_iff (h : Sends s counts s') {k : ℕ} (hk : k ≤ counts.length) :
    s.header.length ≤ (counts.take k).sum ↔ k = counts.length := by
  induction h generalizing k with
  | done hnil =>
      rw [hnil]
      simpa using hk
  | @write s s' written counts hne hpos _ _ ih =>
      have hlen : 0 < s.header.length := List.length_pos_of_ne_nil hne
      cases k with
      | zero =>
          rw [List.take_zero, List.sum_nil, List.length_cons]
          omega
      | succ k =>
          have hrest := ih (Nat.le_of_succ_le_succ hk)
          rw [length_header_step] at hrest
          rw [List.take_succ_cons, List.sum_cons, List.length_cons, Nat.succ_inj, ← hrest]
          omega

/-- **The response is sent exactly if the write that ends the header ends the body too.** -/
theorem response_sent_iff {header body : Bytes} (h : Sends ⟨header, body, []⟩ counts s') :
    s'.sent = header ++ body ↔
      ∀ k ≤ counts.length, header.length ≤ (counts.take k).sum → (counts.take k).sum = header.length + body.length := by
  have hall := h.conserves
  have hsum := h.sum_counts
  simp only [List.nil_append, Gather.offered] at hall hsum
  have hsent : s'.sent = header ++ body ↔ s'.body.length = 0 := by
    rw [← hall, List.length_eq_zero_iff]
    exact ⟨fun heq => List.append_right_eq_self.mp heq.symm, fun hnil => by rw [hnil, List.append_nil]⟩
  rw [hsent]
  constructor
  · intro hzero k hk hle
    rw [(h.header_le_iff hk).mp hle, List.take_length]
    omega
  · intro hcounts
    have := hcounts counts.length le_rfl ((h.header_le_iff le_rfl).mpr rfl)
    rw [List.take_length] at this
    omega

/-- A write of the header's first byte, and one of the rest. -/
theorem response_sent_two : ∃ s', Sends ⟨[0x48, 0x54], [0x62, 0x63], []⟩ [1, 3] s' ∧ s'.sent = [0x48, 0x54] ++
    [0x62, 0x63] := by
  have h : Sends ⟨[0x48, 0x54], [0x62, 0x63], []⟩ [1, 3] ⟨[], [], [0x48, 0x54, 0x62, 0x63]⟩ :=
    .write (by decide) (by decide) (by decide) (.write (by decide) (by decide) (by decide) (.done rfl))
  exact ⟨_, h, (response_sent_iff h).mpr (by decide)⟩

/-- The body is lost if the first write ends with the header. -/
theorem body_lost : ∃ s', Sends ⟨[0x48], [0x62], []⟩ [1] s' ∧ s'.sent ≠ [0x48] ++ [0x62] :=
  ⟨⟨[], [0x62], [0x48]⟩, .write (by decide) (by decide) (by decide) (.done rfl), by decide⟩

end NeForce.SendResponse
