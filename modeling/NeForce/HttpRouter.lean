import NeForce.HttpServer

/-! # Filters, handlers and forwards

`http_router` runs a request through the filters and the handler of its path, in one copy for the synchronous loop and
another one for the event-driven sessions, which works on a copy of the request and reports the response to a callback;
an exception that escapes from it ends in the event loop, and no response is sent. Filters, handlers and the
exception handler are arbitrary code: they change the request, the response and the state of the server, and may
throw. The filters are plain ones, without callbacks of their own. -/

namespace NeForce.HttpServer

/-- What code throws: an `exception` with its text, or anything else. -/
inductive Thrown
  | exception (what : Bytes)
  | other

structure Cookie where
  name : Bytes
  value : Bytes
  httpOnly : Bool := false
  secure : Bool := false
  sameSite : Bytes := []

/-- `http_response`, with the body that `body_view` shows. -/
structure HttpResponse where
  version : Bytes := ascii "HTTP/1.1"
  status : ℕ := 404
  statusMessage : Bytes := []
  headers : Params := [(ascii "Content-Type", ascii "text/plain; charset=utf-8")]
  cookies : List Cookie := []
  body : Bytes := []
  redirectUrl : Bytes := []
  forwardPath : Bytes := []
  suppressContentLength : Bool := false
  rawResponse : Bytes := []
  closeAfterSend : Bool := false

def HttpResponse.setContentType (response : HttpResponse) (value : Bytes) : HttpResponse :=
  { response with headers := setParam response.headers (ascii "Content-Type") value }

/-- A request as the server handles it, with the handle of its session and the data of its context. -/
structure ServerRequest (χ : Type) extends HttpRequest where
  session : Option Bytes := none
  created : Bool := false
  context : χ

/-- The parts of `session_manager` that depend on clocks and random numbers. -/
structure SessionManager (σ : Type) where
  cookieName : Bytes
  /-- `get_session` without creation. -/
  get : σ → Bytes → Option Bytes × σ
  isNew : σ → Bytes → Bool
  touch : σ → Bytes → σ

/-- What the code of filters and handlers works on. -/
structure Env (χ σ : Type) where
  request : ServerRequest χ
  response : HttpResponse
  state : σ

abbrev Code (χ σ : Type) := Env χ σ → Env χ σ × Option Thrown

structure HttpFilter (χ σ : Type) where
  preFilter : Env χ σ → Env χ σ × Except Thrown Bool
  doFilter : Code χ σ
  postFilter : Code χ σ

/-- The filters, the handlers with their tables, and the exception handler, which may be absent. -/
structure HttpRouter (χ σ : Type) where
  filters : List (HttpFilter χ σ)
  resolveHandler : Code χ σ
  exceptionHandler : Option (Bytes → Code χ σ)

variable {χ σ : Type}

/-! ### The filter chain -/

/-- Both copies stop at a filter that throws. -/
def executePreFilters : List (HttpFilter χ σ) → Env χ σ → Env χ σ × Bool
  | [], e => (e, true)
  | filter :: filters, e =>
    match filter.preFilter e with
    | (e, .ok true) => executePreFilters filters e
    | (e, _) => (e, false)

def executeFilters (filters : List (HttpFilter χ σ)) (e : Env χ σ) : Env χ σ :=
  filters.foldl (fun e filter => (filter.doFilter e).1) e

/-- The last filter comes first. -/
def executePostFilters (filters : List (HttpFilter χ σ)) (e : Env χ σ) : Env χ σ :=
  filters.reverse.foldl (fun e filter => (filter.postFilter e).1) e

/-- The first filter comes first, and only an `exception` is caught. -/
def executePostFiltersAsync : List (HttpFilter χ σ) → Env χ σ → Option (Env χ σ)
  | [], e => some e
  | filter :: filters, e =>
    match filter.postFilter e with
    | (_, some .other) => none
    | (e, _) => executePostFiltersAsync filters e

/-! ### Requests -/

def start (request : ServerRequest χ) (state : σ) : Env χ σ where
  request := request
  response := if request.version = [] then {} else { version := request.version }
  state := state

/-- The response where there is no exception handler. -/
def internalServerError (response : HttpResponse) : HttpResponse :=
  { response.setContentType (ascii "text/plain") with
    status := 500, statusMessage := ascii "Internal Server Error", body := ascii "Internal Server Error" }

/-- `handle_request`; what it throws goes to the loop that called it. -/
def handleRequest (router : HttpRouter χ σ) (request : ServerRequest χ) (state : σ) : Env χ σ × Option Thrown :=
  match executePreFilters router.filters (start request state) with
  | (e, false) => (e, none)
  | (e, true) =>
    match router.resolveHandler (executeFilters router.filters e) with
    | (e, none) => (executePostFilters router.filters e, none)
    | (e, some .other) => (e, some .other)
    | (e, some (.exception what)) =>
      match router.exceptionHandler with
      | none => ({ e with response := internalServerError e.response }, none)
      | some handler =>
        match handler what e with
        | (e, some (.exception what)) => handler what e
        | (e, thrown) => (e, thrown)

/-- `handle_request_async_with_request`: the response, if the callback gets one. -/
def handleRequestAsync (router : HttpRouter χ σ) (request : ServerRequest χ) (state : σ) : Option (HttpResponse × σ) :=
  match executePreFilters router.filters (start request state) with
  | (e, false) => some (e.response, e.state)
  | (e, true) =>
    match router.resolveHandler (executeFilters router.filters e) with
    | (e, none) => (executePostFiltersAsync router.filters e).map fun e => (e.response, e.state)
    | (_, some .other) => none
    | (e, some (.exception what)) =>
      match router.exceptionHandler with
      | none =>
        (executePostFiltersAsync router.filters { e with response := internalServerError e.response }).map fun e =>
          (e.response, e.state)
      | some handler =>
        match handler what e with
        | (e, none) => some (e.response, e.state)
        | (_, some _) => none

/-! ### Forwards -/

def maxForwardCount : ℕ := 5

def forwarded (request : ServerRequest χ) (path : Bytes) : ServerRequest χ :=
  { request with toHttpRequest := parseParameters { request.toHttpRequest with path := path, parameters := [] } }

def tooManyForwards : HttpResponse :=
  { ({} : HttpResponse).setContentType (ascii "text/plain") with
    status := 500, statusMessage := ascii "Internal Server Error", body := ascii "Too many forwards" }

def addSessionCookie (manager : SessionManager σ) (request : ServerRequest χ) (response : HttpResponse) (state : σ) :
    HttpResponse × σ :=
  match request.session with
  | none => (response, state)
  | some id =>
    if ¬ request.created ∧ ¬ manager.isNew state id then (response, state)
    else
      let https := header request.headers (ascii "X-Forwarded-Proto") = ascii "https"
      let cookie : Cookie := {
        name := manager.cookieName
        value := id
        httpOnly := true
        secure := https
        sameSite := if https then ascii "Strict" else ascii "Lax" }
      ({ response with cookies := response.cookies ++ [cookie] }, manager.touch state id)

variable (router : HttpRouter χ σ) (manager : SessionManager σ)

/-- `handle_request_with_forward` with `n` rounds left. -/
def handleRequestWithForward : ℕ → ServerRequest χ → σ → Except (Thrown × σ) (HttpResponse × ServerRequest χ × σ)
  | 0, request, state => .ok (tooManyForwards, request, state)
  | n + 1, request, state =>
    match handleRequest router request state with
    | (e, some thrown) => .error (thrown, e.state)
    | (e, none) =>
      if e.response.forwardPath ≠ [] then
        handleRequestWithForward n (forwarded e.request e.response.forwardPath) e.state
      else
        let answer := addSessionCookie manager e.request e.response e.state
        .ok (answer.1, e.request, answer.2)

/-- `async_forward_state::run` with `n` forwards left; the request is the one that `run` keeps. -/
def handleRequestWithForwardAsync : ℕ → ServerRequest χ → σ → Option (HttpResponse × σ)
  | n, request, state =>
    match handleRequestAsync router request state with
    | none => none
    | some (response, state) =>
      if response.forwardPath ≠ [] then
        match n with
        | 0 => some (tooManyForwards, state)
        | n + 1 => handleRequestWithForwardAsync n (forwarded request response.forwardPath) state
      else some (addSessionCookie manager request response state)

/-! ### Where the copies agree -/

/-- The post filters throw nothing but exceptions. -/
def QuietPost : List (HttpFilter χ σ) → Env χ σ → Prop
  | [], _ => True
  | filter :: filters, e => (filter.postFilter e).2 ≠ some .other ∧ QuietPost filters (filter.postFilter e).1

/-- The handler throws nothing but exceptions, which the exception handler takes without a throw; the post filters throw
nothing but exceptions, and their order does not matter. -/
structure Orderly (request : ServerRequest χ) (state : σ) : Prop where
  handler : ∀ e e' thrown, executePreFilters router.filters (start request state) = (e, true) →
    router.resolveHandler (executeFilters router.filters e) = (e', some thrown) →
      ∃ what handler, thrown = .exception what ∧ router.exceptionHandler = some handler ∧ (handler what e').2 = none
  quiet : ∀ e e', executePreFilters router.filters (start request state) = (e, true) →
    router.resolveHandler (executeFilters router.filters e) = (e', none) → QuietPost router.filters e'
  order : ∀ e e', executePreFilters router.filters (start request state) = (e, true) →
    router.resolveHandler (executeFilters router.filters e) = (e', none) →
      executePostFilters router.filters.reverse e' = executePostFilters router.filters e'

theorem executePostFiltersAsync_eq {filters : List (HttpFilter χ σ)} {e : Env χ σ} (h : QuietPost filters e) :
    executePostFiltersAsync filters e = some (executePostFilters filters.reverse e) := by
  rw [executePostFilters, List.reverse_reverse]
  induction filters generalizing e with
  | nil => rfl
  | cons filter filters ih =>
      obtain ⟨hne, hrest⟩ := h
      rw [executePostFiltersAsync, List.foldl_cons, ← ih hrest]
      cases hp : filter.postFilter e with
      | mk e' thrown =>
          rw [hp] at hne
          cases thrown with
          | none => rfl
          | some thrown =>
              cases thrown with
              | exception what => rfl
              | other => exact absurd rfl hne

variable {router manager}

theorem Orderly.handleRequestAsync_eq {request : ServerRequest χ} {state : σ} (h : Orderly router request state) :
    ∃ e, handleRequest router request state = (e, none) ∧
      handleRequestAsync router request state = some (e.response, e.state) := by
  unfold handleRequest handleRequestAsync
  cases hpre : executePreFilters router.filters (start request state) with
  | mk e go =>
      cases go with
      | false => exact ⟨e, rfl, rfl⟩
      | true =>
          simp only
          cases hres : router.resolveHandler (executeFilters router.filters e) with
          | mk e' thrown =>
              cases thrown with
              | none =>
                  refine ⟨_, rfl, ?_⟩
                  simp only
                  rw [executePostFiltersAsync_eq (h.quiet e e' hpre hres), h.order e e' hpre hres]
                  rfl
              | some thrown =>
                  obtain ⟨what, handler, rfl, hset, hnone⟩ := h.handler e e' thrown hpre hres
                  simp only [hset]
                  cases hh : handler what e' with
                  | mk e'' thrown =>
                      rw [hh] at hnone
                      obtain rfl : thrown = none := hnone
                      exact ⟨e'', rfl, rfl⟩

/-- A round that forwards leaves the request as it was, but for the path and the parameters. -/
def KeepsForwarded (before after : ServerRequest χ) : Prop :=
  ∃ path parameters, after = { before with path := path, parameters := parameters }

/-- The members of a request that the loops look at behind the round. -/
structure Kept (before after : ServerRequest χ) : Prop where
  method : after.method = before.method
  version : after.version = before.version
  headers : after.headers = before.headers
  session : after.session = before.session
  created : after.created = before.created

/-- The request comes to a response in less than `n + 1` rounds, each of them orderly. -/
def Settles (router : HttpRouter χ σ) : ℕ → ServerRequest χ → σ → Prop
  | 0, _, _ => False
  | n + 1, request, state => Orderly router request state ∧
      let e := (handleRequest router request state).1
      if e.response.forwardPath ≠ [] then
        KeepsForwarded request e.request ∧ Settles router n (forwarded e.request e.response.forwardPath) e.state
      else Kept request e.request ∧ (e.response.rawResponse = [] → e.response.version = request.version)

theorem Kept.refl (request : ServerRequest χ) : Kept request request := ⟨rfl, rfl, rfl, rfl, rfl⟩

theorem Kept.trans {q q' q'' : ServerRequest χ} (h : Kept q q') (h' : Kept q' q'') : Kept q q'' where
  method := h'.method.trans h.method
  version := h'.version.trans h.version
  headers := h'.headers.trans h.headers
  session := h'.session.trans h.session
  created := h'.created.trans h.created

theorem parseParameters_keeps (request : HttpRequest) : (parseParameters request).method = request.method ∧
    (parseParameters request).version = request.version ∧ (parseParameters request).headers = request.headers := by
  unfold parseParameters
  dsimp only
  split_ifs <;> exact ⟨rfl, rfl, rfl⟩

theorem forwarded_kept (request : ServerRequest χ) (path : Bytes) : Kept request (forwarded request path) := by
  obtain ⟨h1, h2, h3⟩ := parseParameters_keeps { request.toHttpRequest with path := path, parameters := [] }
  exact ⟨h1, h2, h3, rfl, rfl⟩

theorem KeepsForwarded.forwarded_eq {before after : ServerRequest χ} (h : KeepsForwarded before after) (path : Bytes) :
    forwarded after path = forwarded before path := by
  obtain ⟨path', parameters, rfl⟩ := h
  rfl

theorem addSessionCookie_kept {before after : ServerRequest χ} (h : Kept before after) (response : HttpResponse)
    (state : σ) : addSessionCookie manager after response state = addSessionCookie manager before response state := by
  unfold addSessionCookie
  rw [h.session, h.created, h.headers]

theorem addSessionCookie_keeps (manager : SessionManager σ) (request : ServerRequest χ) (response : HttpResponse)
    (state : σ) :
    (addSessionCookie manager request response state).1.version = response.version ∧
      (addSessionCookie manager request response state).1.rawResponse = response.rawResponse ∧
      (addSessionCookie manager request response state).1.closeAfterSend = response.closeAfterSend := by
  unfold addSessionCookie
  split
  · exact ⟨rfl, rfl, rfl⟩
  · split_ifs <;> exact ⟨rfl, rfl, rfl⟩

/-- Both copies of the forwards give the same response, and leave what the loops look at. -/
theorem Settles.forward_eq (manager : SessionManager σ) {n m : ℕ} {request : ServerRequest χ} {state : σ} (h : Settles router n request state)
    (hm : n ≤ m + 1) : ∃ response request' state',
      handleRequestWithForward router manager n request state = .ok (response, request', state') ∧
      handleRequestWithForwardAsync router manager m request state = some (response, state') ∧
      Kept request request' ∧ (response.rawResponse = [] → response.version = request.version) := by
  induction n generalizing m request state with
  | zero => exact h.elim
  | succ n ih =>
      obtain ⟨horderly, hround⟩ := h
      obtain ⟨e, hsync, hasync⟩ := horderly.handleRequestAsync_eq
      rw [hsync] at hround
      rw [handleRequestWithForward, handleRequestWithForwardAsync, hsync, hasync]
      simp only at hround ⊢
      by_cases hf : e.response.forwardPath ≠ []
      · rw [if_pos hf] at hround
        rw [if_pos hf, if_pos hf]
        obtain ⟨hkeeps, hrest⟩ := hround
        rw [hkeeps.forwarded_eq] at hrest ⊢
        have hkept := forwarded_kept request e.response.forwardPath
        cases m with
        | zero =>
            obtain rfl : n = 0 := by omega
            exact hrest.elim
        | succ m =>
            obtain ⟨response, request', state', h1, h2, h3, h4⟩ := ih hrest (by omega : n ≤ m + 1)
            exact ⟨response, request', state', h1, h2, hkept.trans h3, fun hr => (h4 hr).trans hkept.version⟩
      · rw [if_neg hf] at hround
        rw [if_neg hf, if_neg hf]
        obtain ⟨hkept, hversion⟩ := hround
        obtain ⟨h1, h2, -⟩ := addSessionCookie_keeps manager request e.response e.state
        refine ⟨(addSessionCookie manager request e.response e.state).1, e.request,
          (addSessionCookie manager request e.response e.state).2, ?_, rfl, hkept, ?_⟩
        · rw [addSessionCookie_kept hkept]
        · rw [h1, h2]
          exact hversion

end NeForce.HttpServer
