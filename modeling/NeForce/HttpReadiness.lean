import Mathlib
import NeForce.HttpServerRuns
import NeForce.HttpServing

/-! # Whether a request is complete

An event-driven connection calls `parse_request` only when `has_complete_request` says that it can do without `receive`.
With a socket whose peer has closed, the calls of `receive` are those that end in one of three errors. -/

namespace NeForce.HttpServer

open Search

/-- `has_complete_request`. -/
def hasCompleteRequest (maxHeaderSize : ℕ) (pending : Bytes) : Bool :=
  match firstAt (crlf ++ crlf) pending with
  | none => false
  | some headerEnd =>
    if maxHeaderSize < headerEnd + 4 then true
    else
      match parse (pending.take (headerEnd + 4)) with
      | .error _ => true
      | .ok request =>
        match contentLengthOf request with
        | .error _ => true
        | .ok contentLength =>
          if isChunked request.headers then
            (find pending terminator (headerEnd + 4)).isSome || decide (emptyChunks <+: pending.drop (headerEnd + 4))
          else decide ((headerEnd + 4 + contentLength) % 2 ^ 64 ≤ pending.length)

/-- What was received from a peer that has closed. -/
def Conn.closed (pending : Bytes) : Conn := ⟨pending, [], nofun, []⟩

/-- What `parse_request` throws where `receive` returns nothing. -/
def closedErrors : List HttpException :=
  [⟨"Connection closed while reading request", 0⟩, ⟨"Connection closed while reading chunked body", 0⟩,
    ⟨"Connection closed while reading body", 0⟩]

/-- `parse_request` calls `receive`. -/
def Receives (cfg : Config) (pending : Bytes) : Prop :=
  ∃ e ∈ closedErrors, parseRequest cfg (.closed pending) = .error e

/-- What is behind the head is refused for the size of the body, whatever is still to come. -/
def TooLarge (cfg : Config) (bodyStart contentLength : ℕ) (chunked : Bool) (pending : Bytes) : Prop :=
  if chunked then
    cfg.maxBodySize < pending.length - bodyStart ∨
      (find pending terminator bodyStart = none ∧ pending.drop bodyStart ≠ emptyChunks ∧
        cfg.maxBodySize < pending.length)
  else cfg.maxBodySize < contentLength

/-- The body is there, as `parse_request` finds it. -/
def BodyThere (bodyStart contentLength : ℕ) (chunked : Bool) (pending : Bytes) : Prop :=
  if chunked then find pending terminator bodyStart ≠ none ∨ pending.drop bodyStart = emptyChunks
  else bodyStart + contentLength ≤ pending.length

/-- The body is there, as `has_complete_request` finds it. -/
def BodySeen (bodyStart contentLength : ℕ) (chunked : Bool) (pending : Bytes) : Prop :=
  if chunked then find pending terminator bodyStart ≠ none ∨ emptyChunks <+: pending.drop bodyStart
  else (bodyStart + contentLength) % 2 ^ 64 ≤ pending.length

variable {cfg : Config} {pending : Bytes} {e : HttpException}

/-! ### The errors -/

theorem exists_ok {β : Type} {x : Except HttpException β} {a : β} {P : β → Prop} (h : x = .ok a) :
    (∃ r, x = .ok r ∧ P r) ↔ P a := by
  constructor
  · rintro ⟨r, hr, hP⟩
    rwa [Except.ok.inj (h.symm.trans hr)]
  · exact fun hP => ⟨a, h, hP⟩

theorem forall_ok {β : Type} {x : Except HttpException β} {a : β} {P : β → Prop} (h : x = .ok a) :
    (∀ r, x = .ok r → P r) ↔ P a := by
  constructor
  · exact fun hP => hP a h
  · intro hP r hr
    rwa [← Except.ok.inj (h.symm.trans hr)]

theorem parse_error {str : Bytes} (h : parse str = .error e) : e ∉ closedErrors := by
  have hrest (lines : List Bytes) (request : HttpRequest) (h : parseRest str lines request = .error e) :
      e ∉ closedErrors := by
    have hite {P : Prop} [Decidable P] {message : HttpException} {r : HttpRequest} (hm : message ∉ closedErrors)
        (h : (if P then .error message else .ok r) = Except.error e) : e ∉ closedErrors := by
      split at h
      · rwa [← Except.error.inj h]
      · cases h
    exact hite (by decide) h
  unfold parse at h
  split at h
  · exact hrest _ _ h
  · next line lines hl =>
    cases hr : parseRequestLine line with
    | ok request =>
        rw [hr] at h
        exact hrest _ _ h
    | error e' =>
        rw [hr] at h
        obtain rfl : e' = e := Except.error.inj h
        unfold parseRequestLine at hr
        dsimp only at hr
        split at hr
        · rw [← Except.error.inj hr]
          decide
        · split at hr
          · rw [← Except.error.inj hr]
            decide
          · cases hr

theorem checkHead_error {request : HttpRequest} (h : checkHead cfg request = .error e) : e ∉ closedErrors := by
  unfold checkHead at h
  dsimp only at h
  split at h
  · rw [← Except.error.inj h]
    decide
  · split at h
    · rw [← Except.error.inj h]
      decide
    · split at h
      · cases h
      · split at h
        · cases h
        · rw [← Except.error.inj h]
          decide

theorem contentLengthOf_error {request : HttpRequest} (h : contentLengthOf request = .error e) : e ∉ closedErrors := by
  unfold contentLengthOf at h
  dsimp only at h
  split at h
  · cases h
  · split at h
    · rw [← Except.error.inj h]
      decide
    · cases h

theorem decodeLoop_error {data decoded : Bytes} {rounds pos : ℕ} (h : decodeLoop data rounds pos decoded = .error e) :
    e ∉ closedErrors := by
  induction rounds generalizing pos decoded with
  | zero =>
      rw [← Except.error.inj h]
      decide
  | succ rounds ih =>
      unfold decodeLoop at h
      split at h
      · cases h
      · split at h
        · rw [← Except.error.inj h]
          decide
        · split at h
          · rw [← Except.error.inj h]
            decide
          · dsimp only at h
            split at h
            · cases h
            · split at h
              · rw [← Except.error.inj h]
                decide
              · exact ih h

/-! ### The calls of `receive` -/

section

variable {test : Bytes → Except HttpException Bool} {size : Bytes → ℕ}
  {hsize : ∀ p, test p = .ok false → 0 < size p} {closed : String} {c : Conn}

theorem receiveLoop_error (h : test c.pending = .error e) : receiveLoop test size hsize closed c = .error e := by
  rw [receiveLoop]
  split <;> rename_i ht <;> rw [h] at ht <;> cases ht
  rfl

end

theorem readChunked_closed (bodyStart : ℕ) (pending : Bytes) :
    (∃ e ∈ closedErrors, readChunked cfg bodyStart (.closed pending) = .error e) ↔
      ¬ TooLarge cfg bodyStart 0 true pending ∧ ¬ BodyThere bodyStart 0 true pending := by
  unfold readChunked TooLarge BodyThere
  simp only [if_true]
  by_cases h1 : cfg.maxBodySize < pending.length - bodyStart
  · rw [if_pos (show cfg.maxBodySize < (Conn.closed pending).pending.length - bodyStart from h1)]
    refine iff_of_false ?_ (fun h => h.1 (.inl h1))
    rintro ⟨e, he, h⟩
    rw [← Except.error.inj h] at he
    revert he
    decide
  · rw [if_neg (show ¬ cfg.maxBodySize < (Conn.closed pending).pending.length - bodyStart from h1)]
    by_cases h2 : (find pending terminator bodyStart).isSome ∨ pending.drop bodyStart = emptyChunks
    · have ht : chunkedTest cfg bodyStart (Conn.closed pending).pending = .ok true := if_pos h2
      rw [receiveLoop_true ht]
      refine iff_of_false ?_ fun h => h.2 (h2.imp_left Option.isSome_iff_ne_none.mp)
      rintro ⟨e, he, h⟩
      simp only [bind, Except.bind] at h
      cases hd : decodeChunkedBody ((Conn.closed pending).pending.drop bodyStart) with
      | ok body =>
          rw [hd] at h
          cases h
      | error e' =>
          rw [hd] at h
          obtain rfl : e' = e := Except.error.inj h
          exact decodeLoop_error hd he
    · have h2' : find pending terminator bodyStart = none ∧ pending.drop bodyStart ≠ emptyChunks := by
        rw [not_or, Bool.not_eq_true, Option.isSome_eq_false_iff, Option.isNone_iff_eq_none] at h2
        exact h2
      by_cases h3 : cfg.maxBodySize < pending.length
      · have ht : chunkedTest cfg bodyStart (Conn.closed pending).pending =
            .error ⟨"Request body too large", 413⟩ := (if_neg h2).trans (if_pos h3)
        rw [receiveLoop_error ht]
        refine iff_of_false ?_ fun h => h.1 (.inr ⟨h2'.1, h2'.2, h3⟩)
        rintro ⟨e, he, h⟩
        rw [← Except.error.inj h] at he
        revert he
        decide
      · have ht : chunkedTest cfg bodyStart (Conn.closed pending).pending = .ok false :=
          (if_neg h2).trans (if_neg h3)
        rw [receiveLoop_closed ht rfl]
        refine iff_of_true ⟨_, ?_, rfl⟩ ⟨?_, ?_⟩
        · decide
        · rintro (h | ⟨-, -, h⟩)
          · exact h1 h
          · exact h3 h
        · rintro (h | h)
          · exact h h2'.1
          · exact h2'.2 h

theorem readLength_closed (bodyStart contentLength : ℕ) (pending : Bytes) :
    (∃ e ∈ closedErrors, readLength cfg bodyStart contentLength (.closed pending) = .error e) ↔
      ¬ TooLarge cfg bodyStart contentLength false pending ∧ ¬ BodyThere bodyStart contentLength false pending := by
  unfold readLength TooLarge BodyThere
  simp only [Bool.false_eq_true, if_false]
  by_cases h1 : cfg.maxBodySize < contentLength
  · rw [if_pos h1]
    refine iff_of_false ?_ (fun h => h.1 h1)
    rintro ⟨e, he, h⟩
    rw [← Except.error.inj h] at he
    revert he
    decide
  · rw [if_neg h1]
    by_cases h2 : bodyStart + contentLength ≤ pending.length
    · have ht : lengthTest (bodyStart + contentLength) (Conn.closed pending).pending = .ok true :=
        congrArg Except.ok (decide_eq_true h2)
      rw [receiveLoop_true ht]
      refine iff_of_false ?_ fun h => h.2 h2
      rintro ⟨e, he, h⟩
      cases h
    · have ht : lengthTest (bodyStart + contentLength) (Conn.closed pending).pending = .ok false :=
        congrArg Except.ok (decide_eq_false h2)
      rw [receiveLoop_closed ht rfl]
      exact iff_of_true ⟨_, by decide, rfl⟩ ⟨h1, h2⟩

theorem readBody_closed (bodyStart : ℕ) (pending : Bytes) :
    (∃ e ∈ closedErrors, readBody cfg bodyStart (.closed pending) = .error e) ↔
      ∃ request, parse (pending.take bodyStart) = .ok request ∧ (∃ b, checkHead cfg request = .ok b) ∧
        ∃ n, contentLengthOf request = .ok n ∧ ¬ TooLarge cfg bodyStart n (isChunked request.headers) pending ∧
          ¬ BodyThere bodyStart n (isChunked request.headers) pending := by
  unfold readBody
  change (∃ e ∈ closedErrors, (parse (pending.take bodyStart) >>= _) = .error e) ↔ _
  cases hp : parse (pending.take bodyStart) with
  | error e' =>
      refine iff_of_false ?_ (by rintro ⟨_, h, _⟩; cases h)
      rintro ⟨e, he, h⟩
      obtain rfl : e' = e := Except.error.inj h
      exact parse_error hp he
  | ok request =>
      simp only [exists_ok (rfl : Except.ok request = .ok request)]
      simp only [bind, Except.bind]
      cases hc : checkHead cfg request with
      | error e' =>
          refine iff_of_false ?_ (by rintro ⟨⟨_, h⟩, _⟩; cases h)
          rintro ⟨e, he, h⟩
          obtain rfl : e' = e := Except.error.inj h
          exact checkHead_error hc he
      | ok b =>
          cases hl : contentLengthOf request with
          | error e' =>
              refine iff_of_false ?_ (by rintro ⟨-, _, h, _⟩; cases h)
              rintro ⟨e, he, h⟩
              obtain rfl : e' = e := Except.error.inj h
              exact contentLengthOf_error hl he
          | ok n =>
              have hright : ((∃ b', Except.ok b = (.ok b' : Except HttpException Bool)) ∧
                  ∃ n', Except.ok n = (.ok n' : Except HttpException ℕ) ∧
                    ¬ TooLarge cfg bodyStart n' (isChunked request.headers) pending ∧
                    ¬ BodyThere bodyStart n' (isChunked request.headers) pending) ↔
                  ¬ TooLarge cfg bodyStart n (isChunked request.headers) pending ∧
                    ¬ BodyThere bodyStart n (isChunked request.headers) pending := by
                rw [exists_ok rfl]
                exact and_iff_right ⟨b, rfl⟩
              rw [hright]
              have hresult {x : Except HttpException (Bytes × ℕ × Conn)} {g : Bytes × ℕ × Conn → HttpRequest × Bool × Conn} :
                  (∃ e ∈ closedErrors, (x.bind fun r => .ok (g r)) = .error e) ↔ ∃ e ∈ closedErrors, x = .error e := by
                cases x with
                | ok r =>
                    refine iff_of_false ?_ ?_ <;>
                    · rintro ⟨_, _, h⟩
                      cases h
                | error e' =>
                    constructor <;>
                    · rintro ⟨e, he, h⟩
                      exact ⟨e, he, congrArg _ (Except.error.inj h)⟩
              cases hch : isChunked request.headers with
              | true =>
                  simp only [if_true]
                  exact hresult.trans (readChunked_closed bodyStart pending)
              | false =>
                  simp only [Bool.false_eq_true, if_false]
                  exact hresult.trans (readLength_closed bodyStart n pending)

/-- The reasons for which `parse_request` waits for more. -/
theorem receives_iff (cfg : Config) (pending : Bytes) : Receives cfg pending ↔
    match firstAt (crlf ++ crlf) pending with
    | none => pending.length ≤ cfg.maxHeaderSize
    | some headerEnd => headerEnd + 4 ≤ cfg.maxHeaderSize ∧
        ∃ request, parse (pending.take (headerEnd + 4)) = .ok request ∧ (∃ b, checkHead cfg request = .ok b) ∧
          ∃ n, contentLengthOf request = .ok n ∧ ¬ TooLarge cfg (headerEnd + 4) n (isChunked request.headers) pending ∧
            ¬ BodyThere (headerEnd + 4) n (isChunked request.headers) pending := by
  unfold Receives parseRequest
  change (∃ e ∈ closedErrors, (receiveLoop (headTest cfg) (fun _ => 8192) _ "Connection closed while reading request"
    (Conn.closed pending) >>= _) = .error e) ↔ _
  cases hf : firstAt (crlf ++ crlf) pending with
  | none =>
      by_cases h : cfg.maxHeaderSize < pending.length
      · have ht : headTest cfg (Conn.closed pending).pending = .error ⟨"Request header too large", 431⟩ :=
          (if_neg (by rw [Conn.closed, hf]; decide)).trans (if_pos h)
        rw [receiveLoop_error ht]
        refine iff_of_false ?_ (Nat.not_le.mpr h)
        rintro ⟨e, he, h⟩
        rw [← Except.error.inj h] at he
        revert he
        decide
      · have ht : headTest cfg (Conn.closed pending).pending = .ok false :=
          (if_neg (by rw [Conn.closed, hf]; decide)).trans (if_neg h)
        rw [receiveLoop_closed ht rfl]
        exact iff_of_true ⟨_, by decide, rfl⟩ (Nat.le_of_not_lt h)
  | some headerEnd =>
      have ht : headTest cfg (Conn.closed pending).pending = .ok true := if_pos (by rw [Conn.closed, hf]; rfl)
      rw [receiveLoop_true ht]
      simp only [bind, Except.bind]
      have hend : (firstAt (crlf ++ crlf) (Conn.closed pending).pending).getD 0 = headerEnd := by
        rw [Conn.closed, hf, Option.getD_some]
      rw [hend]
      by_cases hmax : cfg.maxHeaderSize < headerEnd + 4
      · rw [if_pos hmax]
        refine iff_of_false ?_ fun h => Nat.not_le.mpr hmax h.1
        rintro ⟨e, he, h⟩
        rw [← Except.error.inj h] at he
        revert he
        decide
      · rw [if_neg hmax, readBody_closed]
        exact ⟨fun h => ⟨Nat.le_of_not_lt hmax, h⟩, fun h => h.2⟩

/-! ### The answer -/

theorem hasCompleteRequest_iff (maxHeaderSize : ℕ) (pending : Bytes) : hasCompleteRequest maxHeaderSize pending = true ↔
    match firstAt (crlf ++ crlf) pending with
    | none => False
    | some headerEnd => headerEnd + 4 ≤ maxHeaderSize →
        ∀ request, parse (pending.take (headerEnd + 4)) = .ok request → ∀ n, contentLengthOf request = .ok n →
          BodySeen (headerEnd + 4) n (isChunked request.headers) pending := by
  unfold hasCompleteRequest
  cases firstAt (crlf ++ crlf) pending with
  | none => simp
  | some headerEnd =>
      dsimp only
      split
      · next h => exact iff_of_true rfl fun h' => absurd h' (Nat.not_le.mpr h)
      · next h =>
        rw [forall_prop_of_true (Nat.le_of_not_lt h)]
        cases hp : parse (pending.take (headerEnd + 4)) with
        | error e => exact iff_of_true rfl fun _ h => by cases h
        | ok request =>
            rw [forall_ok rfl]
            dsimp only
            cases hl : contentLengthOf request with
            | error e => exact iff_of_true rfl fun _ h => by cases h
            | ok n =>
                rw [forall_ok rfl]
                unfold BodySeen
                dsimp only
                split
                · rw [Bool.or_eq_true, decide_eq_true_eq, Option.isSome_iff_ne_none]
                · rw [decide_eq_true_eq]

/-- A pending text on which the two differ: the limit of the head is passed before the head ends; or the head is there
and is right in itself, and a request that is refused has not arrived whole, or the body seems to be there and is not. -/
def Misjudged (cfg : Config) (pending : Bytes) : Prop :=
  match firstAt (crlf ++ crlf) pending with
  | none => cfg.maxHeaderSize < pending.length
  | some headerEnd => headerEnd + 4 ≤ cfg.maxHeaderSize ∧
      ∃ request, parse (pending.take (headerEnd + 4)) = .ok request ∧ ∃ n, contentLengthOf request = .ok n ∧
        (((¬ ∃ b, checkHead cfg request = .ok b) ∨
            TooLarge cfg (headerEnd + 4) n (isChunked request.headers) pending) ∧
          ¬ BodySeen (headerEnd + 4) n (isChunked request.headers) pending ∨
        (∃ b, checkHead cfg request = .ok b) ∧ ¬ TooLarge cfg (headerEnd + 4) n (isChunked request.headers) pending ∧
          BodySeen (headerEnd + 4) n (isChunked request.headers) pending ∧
          ¬ BodyThere (headerEnd + 4) n (isChunked request.headers) pending)

theorem BodyThere.seen {bodyStart n : ℕ} {chunked : Bool} (h : BodyThere bodyStart n chunked pending) :
    BodySeen bodyStart n chunked pending := by
  cases chunked with
  | true => exact Or.imp_right (fun he : pending.drop bodyStart = emptyChunks => ⟨[], by simpa using he.symm⟩) h
  | false => exact (Nat.mod_le (bodyStart + n) (2 ^ 64)).trans h

theorem agree_iff {seen there refused checked : Prop} (h : there → seen) :
    (seen ↔ ¬ (checked ∧ ¬ refused ∧ ¬ there)) ↔
      ¬ ((¬ checked ∨ refused) ∧ ¬ seen ∨ checked ∧ ¬ refused ∧ seen ∧ ¬ there) := by
  by_cases hs : seen
  · by_cases hc : checked <;> by_cases hr : refused <;> simp [hs, hc, hr]
  · have ht : ¬ there := fun ht => hs (h ht)
    by_cases hc : checked <;> by_cases hr : refused <;> simp [hs, hc, hr, ht]

end NeForce.HttpServer
