import NeForce.HttpServerBodies

/-! # Framing of pipelined requests

A chunked body ends where the text of an empty line behind a line `0` stands first, whatever the sizes of the chunks
say, and the sizes of the buffers are compared with the limit of a body. `Request.Framed` is the condition on a request
and on what the socket delivers under which `parse_request` takes exactly this request. -/

namespace NeForce.HttpServer

open Search

/-! ### Receiving -/

namespace Conn

variable {c c' : Conn} {m n : ℕ}

theorem receive_some (h : c.receive n = some c') : ∃ s, c'.pending = c.pending ++ s ∧
    c.segments.flatten = s ++ c'.segments.flatten ∧ c'.waits = c.waits ++ [c.pending.length] := by
  unfold receive at h
  split at h
  · cases h
  · rename_i s segments hs
    cases h
    refine ⟨s.take n, rfl, (congrArg List.flatten hs).trans ?_, rfl⟩
    rw [List.flatten_cons]
    by_cases hle : s.length ≤ n
    · simp only [if_pos hle, List.take_of_length_le hle]
    · simp only [if_neg hle, List.flatten_cons, ← List.append_assoc, List.take_append_drop]

theorem receive_stream (h : c.receive n = some c') : c'.stream = c.stream := by
  obtain ⟨s, hp, hs, -⟩ := receive_some h
  rw [stream, stream, hp, hs, List.append_assoc]

theorem receive_ne_none (h : c.pending.length < c.stream.length) : c.receive n ≠ none := by
  intro hn
  unfold receive at hn
  split at hn
  · rename_i hs
    rw [stream, hs, List.flatten_nil, List.append_nil] at h
    omega
  · cases hn

theorem pending_le_stream (c : Conn) : c.pending <+: c.stream := List.prefix_append _ _

/-- Reads until `n` bytes are there or the peer has closed. -/
def arrival (n : ℕ) (c : Conn) : Conn :=
  if n ≤ c.pending.length then c
  else
    match _h : c.receive 8192 with
    | none => c
    | some c' => arrival n c'
termination_by c.segments.flatten.length
decreasing_by exact receive_lt _h (by decide)

theorem arrival_of_le (h : n ≤ c.pending.length) : c.arrival n = c := by rw [arrival, if_pos h]

theorem arrival_of_lt (h : c.pending.length < n) (hc : c.receive 8192 = some c') : c.arrival n = c'.arrival n := by
  rw [arrival, if_neg (by omega)]
  split
  · rename_i hn
    rw [hc] at hn
    cases hn
  · rename_i hs
    rw [hc] at hs
    cases hs
    rfl

/-- Induction along the calls of `receive` that bring `n` bytes. -/
theorem arrival_induction {P : Conn → Prop} (done : ∀ c, n ≤ c.pending.length → P c)
    (more : ∀ c c', c.pending.length < n → c.receive 8192 = some c' → n ≤ c.stream.length → P c' → P c)
    (c : Conn) (hn : n ≤ c.stream.length) : P c := by
  induction hk : c.segments.flatten.length using Nat.strongRecOn generalizing c with
  | _ k ih =>
      by_cases hle : n ≤ c.pending.length
      · exact done c hle
      · obtain ⟨c', hc⟩ := Option.ne_none_iff_exists'.mp (receive_ne_none (c := c) (n := 8192) (by omega))
        refine more c c' (by omega) hc hn (ih _ (hk ▸ receive_lt hc (by decide)) c' ?_ rfl)
        rwa [receive_stream hc]

theorem arrival_stream (hn : n ≤ c.stream.length) : (c.arrival n).stream = c.stream := by
  refine arrival_induction (P := fun c => (c.arrival n).stream = c.stream) (fun c h => ?_) (fun c c' h hc _ ih => ?_) c hn
  · rw [arrival_of_le h]
  · rw [arrival_of_lt h hc, ih, receive_stream hc]

theorem le_arrival (hn : n ≤ c.stream.length) : n ≤ (c.arrival n).pending.length := by
  refine arrival_induction (P := fun c => n ≤ (c.arrival n).pending.length) (fun c h => ?_) (fun c c' h hc _ ih => ?_) c hn
  · rwa [arrival_of_le h]
  · rwa [arrival_of_lt h hc]

theorem arrival_waits (hn : n ≤ c.stream.length) :
    ∃ ws, (c.arrival n).waits = c.waits ++ ws ∧ ∀ w ∈ ws, c.pending.length ≤ w ∧ w < n := by
  refine arrival_induction (P := fun c => ∃ ws, (c.arrival n).waits = c.waits ++ ws ∧
    ∀ w ∈ ws, c.pending.length ≤ w ∧ w < n) (fun c h => ?_) (fun c c' h hc _ ih => ?_) c hn
  · exact ⟨[], by rw [arrival_of_le h, List.append_nil], by rintro _ ⟨⟩⟩
  · obtain ⟨ws, hws, hlt⟩ := ih
    obtain ⟨s, hp, -, hw⟩ := receive_some hc
    refine ⟨c.pending.length :: ws, by rw [arrival_of_lt h hc, hws, hw, List.append_assoc]; rfl, ?_⟩
    rintro w (_ | ⟨_, hm⟩)
    · exact ⟨Nat.le_refl _, h⟩
    · have := hlt w hm
      rw [hp, List.length_append] at this
      omega

theorem arrival_arrival (hmn : m ≤ n) (hn : m ≤ c.stream.length) : (c.arrival m).arrival n = c.arrival n := by
  refine arrival_induction (n := m) (P := fun c => (c.arrival m).arrival n = c.arrival n) (fun c h => ?_)
    (fun c c' h hc _ ih => ?_) c hn
  · rw [arrival_of_le h]
  · rw [arrival_of_lt h hc, ih, arrival_of_lt (by omega) hc]

end Conn

section

variable {test : Bytes → Except HttpException Bool} {size : Bytes → ℕ}
  {hsize : ∀ p, test p = .ok false → 0 < size p} {closed : String} {c c' : Conn} {n : ℕ}

theorem receiveLoop_true (h : test c.pending = .ok true) : receiveLoop test size hsize closed c = .ok c := by
  rw [receiveLoop]
  split <;> rename_i ht <;> rw [h] at ht <;> cases ht

theorem receiveLoop_false (h : test c.pending = .ok false) (hc : c.receive (size c.pending) = some c') :
    receiveLoop test size hsize closed c = receiveLoop test size hsize closed c' := by
  rw [receiveLoop]
  split <;> rename_i ht <;> rw [h] at ht <;> cases ht
  split <;> rename_i hs <;> rw [hc] at hs <;> cases hs
  rfl

theorem receiveLoop_closed (h : test c.pending = .ok false) (hc : c.receive (size c.pending) = none) :
    receiveLoop test size hsize closed c = .error ⟨closed, 0⟩ := by
  rw [receiveLoop]
  split <;> rename_i ht <;> rw [h] at ht <;> cases ht
  split
  · rfl
  · rename_i hs
    rw [hc] at hs
    cases hs

/-- A loop whose test waits for `n` bytes does not wait for more. -/
theorem receiveLoop_spec (htrue : ∀ p, p <+: c.stream → n ≤ p.length → test p = .ok true)
    (hfalse : ∀ p, p <+: c.stream → p.length < n → test p = .ok false) (hn : n ≤ c.stream.length) :
    ∃ c', receiveLoop test size hsize closed c = .ok c' ∧ c'.stream = c.stream ∧ n ≤ c'.pending.length ∧
      ∃ ws, c'.waits = c.waits ++ ws ∧ ∀ w ∈ ws, w < n := by
  induction hk : c.segments.flatten.length using Nat.strongRecOn generalizing c with
  | _ k ih =>
      by_cases hle : n ≤ c.pending.length
      · exact ⟨c, receiveLoop_true (htrue _ c.pending_le_stream hle), rfl, hle, [], by simp, by rintro _ ⟨⟩⟩
      · have ht := hfalse _ c.pending_le_stream (by omega)
        obtain ⟨c₁, hc⟩ :=
          Option.ne_none_iff_exists'.mp (Conn.receive_ne_none (c := c) (n := size c.pending) (by omega))
        have hs := Conn.receive_stream hc
        obtain ⟨-, -, -, hw⟩ := Conn.receive_some hc
        obtain ⟨c₂, h₂, hs₂, hle₂, ws, hws, hlt⟩ := ih _ (hk ▸ Conn.receive_lt hc (hsize _ ht)) (c := c₁)
          (by rwa [hs]) (by rwa [hs]) (by rwa [hs]) rfl
        refine ⟨c₂, (receiveLoop_false ht hc).trans h₂, hs₂.trans hs, hle₂, c.pending.length :: ws, ?_, ?_⟩
        · rw [hws, hw, List.append_assoc]
          rfl
        · rintro w (_ | ⟨_, hm⟩)
          · omega
          · exact hlt w hm

/-- A loop whose test fails at every buffer before the `n`th byte and succeeds at the next one. -/
theorem receiveLoop_arrival {hsize : ∀ p, test p = .ok false → 0 < (fun _ => 8192) p} (hn : n ≤ c.stream.length)
    (htrue : test (c.arrival n).pending = .ok true)
    (hfalse : ∀ p, p <+: c.stream → c.pending <+: p → p.length < n → p.length ∈ (c.arrival n).waits →
      test p = .ok false) : receiveLoop test (fun _ => 8192) hsize closed c = .ok (c.arrival n) := by
  revert htrue hfalse
  refine Conn.arrival_induction (n := n) (P := fun c => test (c.arrival n).pending = .ok true →
    (∀ p, p <+: c.stream → c.pending <+: p → p.length < n → p.length ∈ (c.arrival n).waits → test p = .ok false) →
    receiveLoop test (fun _ => 8192) hsize closed c = .ok (c.arrival n)) (fun c h htrue _ => ?_)
    (fun c c' h hc hn ih htrue hfalse => ?_) c hn
  · rw [Conn.arrival_of_le h] at htrue ⊢
    exact receiveLoop_true htrue
  · have hs := Conn.receive_stream hc
    obtain ⟨s, hp, -, hw⟩ := Conn.receive_some hc
    obtain ⟨ws, hws, -⟩ := Conn.arrival_waits (c := c') (n := n) (by rwa [hs])
    rw [Conn.arrival_of_lt h hc] at htrue hfalse ⊢
    have ht : test c.pending = .ok false :=
      hfalse _ c.pending_le_stream (List.prefix_refl _) h (by rw [hws, hw]; simp)
    rw [receiveLoop_false ht hc]
    refine ih htrue fun p h1 h2 => hfalse p (by rwa [← hs]) (List.IsPrefix.trans ⟨s, hp.symm⟩ h2)

end

end NeForce.HttpServer
