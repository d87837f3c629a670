import NeForce.TomlBlocks

/-! # Parsers with their trace

A parser of the TOML text runs in each build, and carries the proof that the builds agree where the steps are fine.  It is
composed with `do`; only the loops over characters depend on the build. -/

namespace NeForce.Toml

/-- The exception of `throw_parse_error`, and what stands for a loop or recursion that got no more fuel. -/
inductive Failure
  | parse (line column : ℕ) (message : Bytes)
  | fuel

structure Outcome (α : Type) where
  trace : List Event
  result : Except Failure (α × Cursor)

def Outcome.bind {α β : Type} (o : Outcome α) (f : α → Cursor → Outcome β) : Outcome β :=
  match o.result with
  | .error e => ⟨o.trace, .error e⟩
  | .ok (a, d) => ⟨o.trace ++ (f a d).trace, (f a d).result⟩

/-- The handler runs behind the steps of the failed attempt, with what the attempt failed with. -/
def Outcome.catch {α : Type} (o : Outcome α) (handler : Failure → Outcome α) : Outcome α :=
  match o.result with
  | .error e => ⟨o.trace ++ (handler e).trace, (handler e).result⟩
  | .ok _ => o

/-- Where its steps are fine, they are sound and the result is that of the scalar build. -/
def Agrees {α : Type} (text : Bytes) (vector scalar : Cursor → Outcome α) : Prop :=
  ∀ c, Exact text c → (∀ e ∈ (vector c).trace, e.Fine text) →
    (∀ e ∈ (vector c).trace, e.Sound text) ∧ (vector c).result = (scalar c).result ∧
      ∀ a d, (vector c).result = .ok (a, d) → Exact text d

variable {α β : Type} {text : Bytes}

theorem Agrees.bind {m m' : Cursor → Outcome α} {f f' : α → Cursor → Outcome β} (hm : Agrees text m m')
    (hf : ∀ a, Agrees text (f a) (f' a)) : Agrees text (fun c => (m c).bind f) fun c => (m' c).bind f' := by
  intro c hc hfine
  have hthis := hm c hc
  dsimp only at hfine ⊢
  unfold Outcome.bind at hfine ⊢
  cases hr : (m c).result with
  | error e =>
      rw [hr] at hfine hthis
      obtain ⟨hsound, hresult, -⟩ := hthis hfine
      rw [← hresult]
      exact ⟨hsound, rfl, fun _ _ h => nomatch h⟩
  | ok r =>
      obtain ⟨a, d⟩ := r
      rw [hr] at hfine hthis
      obtain ⟨hsound, hresult, hexact⟩ := hthis fun e he => hfine e (List.mem_append_left _ he)
      obtain ⟨hsound', hresult', hexact'⟩ := hf a d (hexact a d rfl) fun e he => hfine e (List.mem_append_right _ he)
      rw [← hresult]
      exact ⟨List.forall_mem_append.mpr ⟨hsound, hsound'⟩, hresult', hexact'⟩

theorem Agrees.catch {m m' : Cursor → Outcome α} {f f' : Failure → Cursor → Outcome α} (hm : Agrees text m m')
    (hf : ∀ e, Agrees text (f e) (f' e)) :
    Agrees text (fun c => (m c).catch fun e => f e c) fun c => (m' c).catch fun e => f' e c := by
  intro c hc hfine
  have hthis := hm c hc
  dsimp only at hfine ⊢
  unfold Outcome.catch at hfine ⊢
  cases hr : (m c).result with
  | error e =>
      rw [hr] at hfine hthis
      obtain ⟨hsound, hresult, -⟩ := hthis fun e he => hfine e (List.mem_append_left _ he)
      obtain ⟨hsound', hresult', hexact'⟩ := hf e c hc fun e he => hfine e (List.mem_append_right _ he)
      rw [← hresult]
      exact ⟨List.forall_mem_append.mpr ⟨hsound, hsound'⟩, hresult', hexact'⟩
  | ok r =>
      rw [hr] at hfine hthis
      obtain ⟨hsound, hresult, hexact⟩ := hthis hfine
      rw [← hresult]
      exact ⟨hsound, hr.trans hresult, fun a d h => hexact a d (hr.symm.trans h)⟩

/-- A parser and the agreement of its builds. -/
structure Parser (text : Bytes) (α : Type) where
  run : Build → Cursor → Outcome α
  agrees : ∀ build, Agrees text (run build) (run .scalar)

theorem Agrees.pure (a : α) : Agrees text (fun c => ⟨[], .ok (a, c)⟩) fun c => ⟨[], .ok (a, c)⟩ := by
  intro c hc _
  refine ⟨fun _ he => absurd he List.not_mem_nil, rfl, fun a' d h => ?_⟩
  obtain ⟨-, rfl⟩ := Prod.mk.inj (Except.ok.inj h)
  exact hc

instance : Monad (Parser text) where
  pure a := ⟨fun _ c => ⟨[], .ok (a, c)⟩, fun _ => .pure a⟩
  bind m f := ⟨fun build c => (m.run build c).bind fun a d => (f a).run build d, fun build =>
    (m.agrees build).bind fun a => (f a).agrees build⟩

namespace Parser

/-- What does not move and does not depend on the build. -/
def still (result : Cursor → Except Failure α) : Parser text α :=
  ⟨fun _ c => ⟨[], (result c).map fun a => (a, c)⟩, fun _ c hc _ =>
    ⟨fun _ he => absurd he List.not_mem_nil, rfl, fun a d h => by
      dsimp only at h
      cases hr : result c with
      | error e => rw [hr] at h; exact nomatch h
      | ok r =>
          rw [hr] at h
          obtain ⟨-, rfl⟩ := Prod.mk.inj (Except.ok.inj h)
          exact hc⟩⟩

/-- One step in each build, which keeps cursors exact. -/
def move (event : Cursor → Event) (next : Cursor → Cursor)
    (h : ∀ c, Exact text c → (event c).Sound text ∧ Exact text (next c)) : Parser text Unit :=
  ⟨fun _ c => ⟨[event c], .ok ((), next c)⟩, fun _ c hc _ =>
    ⟨fun _ he => List.mem_singleton.mp he ▸ (h c hc).1, rfl, fun a d hr => by
      obtain ⟨-, rfl⟩ := Prod.mk.inj (Except.ok.inj hr)
      exact (h c hc).2⟩⟩

/-- `catch (...)`: the handler runs from the cursor before the attempt. -/
def catchAll (m : Parser text α) (handler : Failure → Parser text α) : Parser text α :=
  ⟨fun build c => (m.run build c).catch fun e => (handler e).run build c, fun build =>
    (m.agrees build).catch fun e => (handler e).agrees build⟩

/-! ### Characters -/

def current : Parser text UInt8 := still fun c => .ok (text.getD c.pos 0)

def peek (offset : ℕ) : Parser text UInt8 := still fun c => .ok (text.getD (c.pos + offset) 0)

def eof : Parser text Bool := still fun c => .ok (decide (text.length ≤ c.pos))

def position : Parser text ℕ := still fun c => .ok c.pos

/-- The text from a position to the cursor. -/
def textFrom (start : ℕ) : Parser text Bytes := still fun c => .ok ((text.drop start).take (c.pos - start))

def advance : Parser text Unit := move .step (·.advance text) fun _ hc => ⟨step_sound hc, hc.advance⟩

def throwParseError (message : Bytes) : Parser text α := still fun c => .error (.parse c.line c.column message)

/-- `throw_parse_error` where the cursor of another failure stands. -/
def throwAt (line column : ℕ) (message : Bytes) : Parser text α := still fun _ => .error (.parse line column message)

def outOfFuel : Parser text α := still fun _ => .error .fuel

/-- A loop; `.inl` is the state of the next turn. -/
def loop {σ : Type} (body : σ → Parser text (σ ⊕ α)) : ℕ → σ → Parser text α
  | 0, _ => outOfFuel
  | fuel + 1, s => do
    match ← body s with
    | .inl s => loop body fuel s
    | .inr a => pure a

/-- A loop that reads a character in each turn. -/
def turns {σ : Type} (s : σ) (body : σ → Parser text (σ ⊕ α)) : Parser text α := loop body (text.length + 1) s

/-! ### Runs -/

theorem agrees_of_spec {run : Build → Cursor → Outcome α} (value : Cursor → α) (finish : Cursor → ℕ)
    (hle : ∀ c, Exact text c → finish c ≤ text.length)
    (hscalar : ∀ c, ∀ e ∈ (run .scalar c).trace, e.Fine text)
    (hspec : ∀ build c, Exact text c → (∀ e ∈ (run build c).trace, e.Fine text) →
      (∀ e ∈ (run build c).trace, e.Sound text) ∧ (run build c).result = .ok (value c, cursorAt text (finish c)))
    (build : Build) : Agrees text (run build) (run .scalar) := by
  intro c hc hfine
  obtain ⟨hsound, hresult⟩ := hspec build c hc hfine
  obtain ⟨-, hresult'⟩ := hspec .scalar c hc (hscalar c)
  refine ⟨hsound, hresult.trans hresult'.symm, fun a d h => ?_⟩
  obtain ⟨-, rfl⟩ := Prod.mk.inj (Except.ok.inj (hresult.symm.trans h))
  exact exact_cursorAt (hle c hc)

/-- A skipping function. -/
def skip (p : UInt8 → Bool) : Parser text Unit :=
  ⟨fun build c => ⟨(skipMoves text p build c).trace, .ok ((), (skipMoves text p build c).cursor)⟩,
    agrees_of_spec (fun _ => ()) (fun c => c.pos + (spanAt text p c).length) (fun c hc => spanAt_le c hc.2)
      (fun c => skipMoves_scalar_fine c) fun build c hc hfine => by
        obtain ⟨hsound, hcursor⟩ := skipMoves_spec hc hfine
        exact ⟨hsound, by rw [hcursor]⟩⟩

/-- The turns of a string loop that add plain characters. -/
def plain (p : UInt8 → Bool) (bulk : Bool) (hbulk : bulk = false → p newline = false) : Parser text Bytes :=
  ⟨fun build c =>
      let r := plainTurns text p bulk build (text.length + 1) c
      ⟨r.2.trace, .ok (r.1, r.2.cursor)⟩,
    agrees_of_spec (spanAt text p) (fun c => c.pos + (spanAt text p c).length) (fun c hc => spanAt_le c hc.2)
      (fun c => plainTurns_scalar_fine _ c) fun build c hc hfine => by
        obtain ⟨hsound, hresult, hcursor⟩ := plainTurns_spec hbulk _ (by omega) hc hfine
        refine ⟨hsound, ?_⟩
        dsimp only
        rw [hresult, hcursor]⟩

end Parser

end NeForce.Toml
