import NeForce.HttpRouter

/-! # The serving loops

`handle_client` serves a connection in a loop and collects the responses to requests that came together in a batch;
`async_http1_session` answers one request after another from the event loop. The connection is plain TCP, and its
requests are those without upgrade and `CONNECT`. What a request is in the bytes of the connection is the matter of
`parse_request`; here the connection is a list of requests, each with whether it was in the buffer already when the one
before it was taken. A conversation that neither side has closed waits for the next request. -/

namespace NeForce.HttpServer

/-- What `parse_request` makes of the next bytes: a request, with whether `100 Continue` is sent for it, or an
exception. -/
inductive Incoming
  | request (request : HttpRequest) (continued : Bool)
  | malformed (exception : HttpException)

structure Arrival where
  item : Incoming
  /-- `has_complete_request` holds of the buffer when the request before this one has been taken. -/
  buffered : Bool

/-- What is written: an interim head, a response with or without its body, or the bytes of a raw response. -/
inductive Sent
  | interim
  | response (response : HttpResponse) (includeBody : Bool)
  | raw (bytes : Bytes)

structure Conversation where
  sent : List Sent := []
  closed : Bool
  /-- The number of requests taken from the connection, a malformed one included. -/
  taken : ℕ

def Conversation.after (sent : List Sent) (taken : ℕ) (c : Conversation) : Conversation :=
  { c with sent := sent ++ c.sent, taken := taken + c.taken }

/-- The router, the sessions, the limit of requests for a connection, the names of the status codes and the context of a
new request. -/
structure Server (χ σ : Type) where
  router : HttpRouter χ σ
  manager : SessionManager σ
  maxKeepAliveRequests : ℕ
  statusMessage : ℕ → Bytes
  context : χ

def isHead (request : HttpRequest) : Bool := request.method = ascii "HEAD"

def isKeepAlive (request : HttpRequest) : Bool :=
  let conn := (header request.headers (ascii "Connection")).map lower
  if conn = ascii "close" then false
  else if ¬ ascii "HTTP/1.0" <+: request.version then true
  else decide (ascii "keep-alive" <+: conn)

variable {χ σ : Type} (server : Server χ σ)

/-- More requests may be answered on the connection. -/
def Server.more (processed : ℕ) : Bool :=
  server.maxKeepAliveRequests = 0 || decide (processed < server.maxKeepAliveRequests)

/-- The session of the request, if it has one. -/
def Server.accept (request : HttpRequest) (state : σ) : ServerRequest χ × σ :=
  let sessionId := header request.cookies server.manager.cookieName
  if sessionId = [] then ({ toHttpRequest := request, context := server.context }, state)
  else
    let (session, state) := server.manager.get state sessionId
    ({ toHttpRequest := request, session := session, context := server.context }, state)

/-- `send_error_response` and `send_error`, but for the Connection header. -/
def Server.errorResponse (status : ℕ) (message : Bytes) : HttpResponse :=
  { ({} : HttpResponse).setContentType (ascii "text/html") with
    status := status
    statusMessage := server.statusMessage status
    body := ascii "<!DOCTYPE html><html><head><title>Error</title></head><body><h1>" ++ server.statusMessage status ++
      ascii "</h1><p>" ++ message ++ ascii "</p></body></html>" }

def setConnection (response : HttpResponse) (value : Bytes) : HttpResponse :=
  { response with headers := setParam response.headers (ascii "Connection") value }

/-- `erase_header_ci`. -/
def eraseHeaderCi (headers : Params) (name : Bytes) : Params := headers.filter fun h => !asciiIequal h.1 name

def Server.malformedResponse (exception : HttpException) : HttpResponse :=
  server.errorResponse (if exception.status = 0 then 400 else exception.status) (ascii exception.message)

def Server.thrownResponse : Thrown → HttpResponse
  | .exception what => server.errorResponse 500 what
  | .other => server.errorResponse 500 (ascii "Unknown internal error")

def interim (continued : Bool) : List Sent := if continued then [.interim] else []

/-! ### The synchronous loop -/

/-- `send_response`. -/
def sendResponse (response : HttpResponse) (includeBody : Bool) : Sent :=
  if response.rawResponse = [] then .response response includeBody else .raw response.rawResponse

def sendErrorResponse (response : HttpResponse) : Sent :=
  sendResponse (setConnection response (ascii "close")) true

/-- The buffer holds the next request, so that a batch goes on. -/
def nextBuffered : List Arrival → Bool
  | [] => false
  | arrival :: _ => arrival.buffered

/-- `handle_client` at the head of its loop, or in the loop that collects a batch. -/
def Server.handleClient : Option (List Sent) → ℕ → List Arrival → σ → Conversation
  | batch, _, [], _ => { sent := batch.getD [], closed := false, taken := 0 }
  | _, _, ⟨.malformed exception, _⟩ :: _, _ =>
    { sent := [sendErrorResponse (server.malformedResponse exception)], closed := true, taken := 1 }
  | batch, processed, ⟨.request request continued, _⟩ :: rest, state =>
    let accepted := server.accept request state
    match handleRequestWithForward server.router server.manager maxForwardCount accepted.1 accepted.2 with
    | .error (thrown, _) =>
      { sent := interim continued ++ [sendErrorResponse (server.thrownResponse thrown)], closed := true, taken := 1 }
    | .ok (response, next, state) =>
      let includeBody := !isHead next.toHttpRequest
      let keepAlive := isKeepAlive next.toHttpRequest
      let again := nextBuffered rest && keepAlive && server.more (processed + 1)
      match batch with
      | some batch =>
        let batch := batch ++ [.response response includeBody]
        if again then
          (handleClient (some batch) (processed + 1) rest state).after (interim continued) 1
        else if keepAlive && server.more (processed + 1) then
          (handleClient none (processed + 1) rest state).after (interim continued ++ batch) 1
        else { sent := interim continued ++ batch, closed := true, taken := 1 }
      | none =>
        if again && response.rawResponse = [] then
          (handleClient (some [.response response includeBody]) (processed + 1) rest state).after
            (interim continued) 1
        else if keepAlive && !response.closeAfterSend && server.more (processed + 1) then
          (handleClient none (processed + 1) rest state).after
            (interim continued ++ [sendResponse response includeBody]) 1
        else { sent := interim continued ++ [sendResponse response includeBody], closed := true, taken := 1 }

/-! ### The event-driven session -/

/-- What `async_http1_session::send_response` writes. -/
def sendResponseAsync (response : HttpResponse) (includeBody closeAfter : Bool) (version : Bytes) : Sent :=
  if response.rawResponse = [] then
    let response := { response with version := version, headers := eraseHeaderCi response.headers (ascii "connection") }
    .response (if closeAfter then setConnection response (ascii "close")
      else if ascii "HTTP/1.0" <+: version then setConnection response (ascii "keep-alive") else response) includeBody
  else .raw response.rawResponse

/-- `async_http1_session` at `read_once`; a request whose callback is not called leaves the session without an event. -/
def Server.session : ℕ → List Incoming → σ → Conversation
  | _, [], _ => { closed := false, taken := 0 }
  | _, .malformed exception :: _, _ =>
    { sent := [sendResponseAsync (server.malformedResponse exception) true true (ascii "HTTP/1.1")]
      closed := true
      taken := 1 }
  | processed, .request request continued :: rest, state =>
    let keep := isKeepAlive request
    let accepted := server.accept request state
    match handleRequestWithForwardAsync server.router server.manager maxForwardCount accepted.1 accepted.2 with
    | none => { sent := interim continued, closed := false, taken := 1 }
    | some (response, state) =>
      let alive := keep && !response.closeAfterSend
      let sent := interim continued ++ [sendResponseAsync response (!isHead request) (!alive) request.version]
      if alive && server.more (processed + 1) then (session (processed + 1) rest state).after sent 1
      else { sent := sent, closed := true, taken := 1 }

end NeForce.HttpServer

/-! ## The same conversation in every serving mode

As long as `Regular` holds of the requests, the synchronous loop, however many requests are buffered together, and the
event-driven session write the same responses, up to the Connection header, and close the connection at the same
point (`serving_run`). -/

namespace NeForce.HttpServer

variable {χ σ : Type} {server : Server χ σ}

/-! ### Conversations up to the Connection header -/

def Sent.observed : Sent → Sent
  | .response r includeBody =>
    .response { r with headers := eraseHeaderCi r.headers (ascii "connection") } includeBody
  | sent => sent

/-- What is compared: all that is written but Connection headers, whether the connection is closed, and how many
requests were taken by then. -/
def Conversation.observed (c : Conversation) : List Sent × Bool × ℕ := (c.sent.map Sent.observed, c.closed, c.taken)

def Sent.isAnswer : Sent → Bool
  | .interim => false
  | _ => true

/-- Each request that is taken gets one response. -/
def Conversation.Answered (c : Conversation) : Prop := c.sent.countP Sent.isAnswer = c.taken

/-- An arrival behind which the buffer is empty. -/
def Arrival.alone (arrival : Arrival) : Arrival := { arrival with buffered := false }

/-! ### The condition -/

variable (server) in
/-- In a batch there is no malformed request, no interim head, no raw response and no response that closes the
connection; and the copies of the filter logic agree on each request. The first argument is whether a batch is open. -/
def Server.Regular : Bool → ℕ → List Arrival → σ → Prop
  | _, _, [], _ => True
  | inBatch, _, ⟨.malformed _, _⟩ :: _, _ => inBatch = false
  | inBatch, processed, ⟨.request request continued, _⟩ :: rest, state =>
    (continued → inBatch = false) ∧
    Settles server.router maxForwardCount (server.accept request state).1 (server.accept request state).2 ∧
    ∀ response next s, handleRequestWithForward server.router server.manager maxForwardCount
        (server.accept request state).1 (server.accept request state).2 = .ok (response, next, s) →
      let more := isKeepAlive request && server.more (processed + 1)
      let again := nextBuffered rest && more
      (response.rawResponse ≠ [] → inBatch = false) ∧
      (response.closeAfterSend → more → inBatch = false ∧ (again → response.rawResponse ≠ [])) ∧
      (more → ¬ response.closeAfterSend →
        Regular (again && (inBatch || response.rawResponse = [])) (processed + 1) rest s)

/-! ### Steps -/

theorem eraseHeaderCi_idem (headers : Params) (name : Bytes) :
    eraseHeaderCi (eraseHeaderCi headers name) name = eraseHeaderCi headers name := by
  unfold eraseHeaderCi
  rw [List.filter_filter]
  simp only [Bool.and_self]

theorem eraseHeaderCi_setConnection (headers : Params) (value : Bytes) :
    eraseHeaderCi (setParam headers (ascii "Connection") value) (ascii "connection") =
      eraseHeaderCi headers (ascii "connection") := by
  have hname : asciiIequal (ascii "Connection") (ascii "connection") = true := by decide
  unfold eraseHeaderCi setParam
  rw [List.filter_cons_of_neg (by simp [hname]), List.filter_filter]
  apply List.filter_congr
  intro h _
  by_cases he : h.1 = ascii "Connection"
  · rw [he, hname]
    rfl
  · simp [he]

theorem observed_sendResponse {response : HttpResponse} {version : Bytes}
    (h : response.rawResponse = [] → response.version = version) (includeBody closeAfter : Bool) :
    (sendResponseAsync response includeBody closeAfter version).observed =
      (sendResponse response includeBody).observed := by
  unfold sendResponseAsync sendResponse
  by_cases hr : response.rawResponse = []
  · rw [if_pos hr, if_pos hr]
    simp only [Sent.observed, setConnection]
    rw [← h hr]
    split_ifs <;> simp only [eraseHeaderCi_setConnection, eraseHeaderCi_idem]
  · rw [if_neg hr, if_neg hr]

theorem observed_sendErrorResponse {response : HttpResponse} (hv : response.version = ascii "HTTP/1.1")
    (hr : response.rawResponse = []) :
    (sendResponseAsync response true true (ascii "HTTP/1.1")).observed = (sendErrorResponse response).observed := by
  rw [observed_sendResponse fun _ => hv, sendErrorResponse, sendResponse, sendResponse, if_pos hr, if_pos (by exact hr)]
  simp only [Sent.observed, setConnection, eraseHeaderCi_setConnection]

theorem isAnswer_sendResponseAsync (response : HttpResponse) (includeBody closeAfter : Bool) (version : Bytes) :
    (sendResponseAsync response includeBody closeAfter version).isAnswer = true := by
  unfold sendResponseAsync
  split_ifs <;> rfl

theorem isAnswer_observed (sent : Sent) : sent.observed.isAnswer = sent.isAnswer := by
  cases sent <;> rfl

theorem countP_interim (continued : Bool) : (interim continued).countP Sent.isAnswer = 0 := by
  cases continued <;> rfl

theorem observed_after (c : Conversation) (sent : List Sent) (taken : ℕ) :
    (c.after sent taken).observed =
      (sent.map Sent.observed ++ c.observed.1, c.observed.2.1, taken + c.observed.2.2) := by
  simp only [Conversation.observed, Conversation.after, List.map_append]

theorem Kept.isKeepAlive_eq {q q' : ServerRequest χ} (h : Kept q q') :
    isKeepAlive q'.toHttpRequest = isKeepAlive q.toHttpRequest := by
  unfold isKeepAlive
  rw [h.headers, h.version]

theorem Kept.isHead_eq {q q' : ServerRequest χ} (h : Kept q q') : isHead q'.toHttpRequest = isHead q.toHttpRequest := by
  unfold isHead
  rw [h.method]

variable (server) in
@[simp] theorem accept_request (request : HttpRequest) (state : σ) :
    (server.accept request state).1.toHttpRequest = request := by
  unfold Server.accept
  dsimp only
  split_ifs <;> rfl

theorem malformedResponse_version (server : Server χ σ) (exception : HttpException) :
    (server.malformedResponse exception).version = ascii "HTTP/1.1" ∧
      (server.malformedResponse exception).rawResponse = [] := ⟨rfl, rfl⟩

/-- The loop, with a batch open or not, writes the batch and then what the session writes. -/
theorem handleClient_observed {inBatch : Bool} {processed : ℕ} {arrivals : List Arrival} {state : σ}
    (h : server.Regular inBatch processed arrivals state) (batch : Option (List Sent)) (hb : batch.isSome = inBatch) :
    (server.handleClient batch processed arrivals state).observed =
      ((server.session processed (arrivals.map Arrival.item) state).after (batch.getD []) 0).observed := by
  induction arrivals generalizing inBatch processed state batch with
  | nil =>
      rw [List.map_nil, Server.handleClient, Server.session, observed_after]
      simp [Conversation.observed]
  | cons arrival rest ih =>
      obtain ⟨item, buffered⟩ := arrival
      cases item with
      | malformed exception =>
          have hnone : batch = none := Option.isNone_iff_eq_none.mp (by simpa using hb.trans h)
          obtain ⟨hv, hr⟩ := malformedResponse_version server exception
          subst hnone
          rw [List.map_cons, Server.handleClient, Server.session, observed_after]
          simp [Conversation.observed, observed_sendErrorResponse hv hr]
      | request request continued =>
          obtain ⟨hcont, hsettles, hstep⟩ := h
          obtain ⟨response, next, s, hsync, hasync, hkept, hversion⟩ :=
            hsettles.forward_eq server.manager (Nat.le_succ _)
          obtain ⟨hraw, hclose, hrest⟩ := hstep response next s hsync
          have hkeep := hkept.isKeepAlive_eq
          have hhead := hkept.isHead_eq
          rw [accept_request] at hkeep hhead hversion
          have hsent := fun closeAfter => observed_sendResponse hversion (!isHead request) closeAfter
          rw [List.map_cons, Server.handleClient, Server.session]
          simp only [hsync, hasync, hkeep, hhead]
          have hopen : ∀ b, batch = some b → interim continued = [] ∧ response.rawResponse = [] := by
            rintro b rfl
            obtain rfl : inBatch = true := hb.symm
            refine ⟨?_, by simpa using hraw⟩
            cases continued with
            | false => rfl
            | true => simpa using hcont rfl
          cases hmore : isKeepAlive request && server.more (processed + 1) with
          | false =>
              have hend : isKeepAlive request = false ∨ server.more (processed + 1) = false :=
                Bool.and_eq_false_iff.mp hmore
              cases batch with
              | none => obtain hend | hend := hend <;> simp [Conversation.observed, Conversation.after, hsent, hend]
              | some batch =>
                  obtain ⟨hi, hr⟩ := hopen batch rfl
                  obtain hend | hend := hend <;>
                    simp [Conversation.observed, Conversation.after, hsent, hend, hi, sendResponse, hr]
          | true =>
              obtain ⟨hk, hm⟩ : isKeepAlive request = true ∧ server.more (processed + 1) = true := by simpa using hmore
              rw [hmore, Bool.and_true] at hclose hrest
              cases hc : response.closeAfterSend with
              | true =>
                  obtain ⟨rfl, hagain⟩ := hclose hc rfl
                  have hnone : batch = none := Option.isNone_iff_eq_none.mp (by simpa using hb)
                  subst hnone
                  have hno : (nextBuffered rest && decide (response.rawResponse = [])) = false := by
                    cases ha : nextBuffered rest with
                    | false => rfl
                    | true => simpa using hagain ha
                  simp [Conversation.observed, Conversation.after, hsent, hk, hm, hno]
              | false =>
                  have hih := ih (hrest rfl (by simp [hc]))
                  cases batch with
                  | some batch =>
                      obtain ⟨hi, hr⟩ := hopen batch rfl
                      obtain rfl : inBatch = true := hb.symm
                      cases ha : nextBuffered rest with
                      | true =>
                          have hbatch := hih (some (batch ++ [.response response (!isHead request)])) (by simp [ha])
                          simp [hk, hm, hi, observed_after, hbatch, hsent, sendResponse, hr]
                      | false =>
                          have hbatch := hih none (by simp [ha])
                          simp [hk, hm, hi, observed_after, hbatch, hsent, sendResponse, hr]
                  | none =>
                      obtain rfl : inBatch = false := hb.symm
                      by_cases ha : (nextBuffered rest && decide (response.rawResponse = [])) = true
                      · have hbatch := hih (some [.response response (!isHead request)]) (by simpa using ha)
                        obtain ⟨hcomplete, hr⟩ : nextBuffered rest = true ∧ response.rawResponse = [] := by
                          simpa using ha
                        simp [hk, hm, hcomplete, observed_after, hbatch, hsent, sendResponse, hr]
                      · have hbatch := hih none (by simpa using ha)
                        simp [hk, hm, ha, observed_after, hbatch, hsent]

/-- The session gives one response to each request that it takes. -/
theorem session_answered {inBatch : Bool} {processed : ℕ} {arrivals : List Arrival} {state : σ}
    (h : server.Regular inBatch processed arrivals state) :
    (server.session processed (arrivals.map Arrival.item) state).Answered := by
  induction arrivals generalizing inBatch processed state with
  | nil => rfl
  | cons arrival rest ih =>
      obtain ⟨item, buffered⟩ := arrival
      cases item with
      | malformed exception => rfl
      | request request continued =>
          obtain ⟨-, hsettles, hstep⟩ := h
          obtain ⟨response, next, s, hsync, hasync, -, -⟩ :=
            hsettles.forward_eq server.manager (Nat.le_succ _)
          obtain ⟨-, -, hrest⟩ := hstep response next s hsync
          rw [List.map_cons, Server.session]
          simp only [hasync]
          split_ifs with halive
          · simp only [Bool.and_eq_true, Bool.not_eq_true'] at halive
            have hih := ih (hrest (by simp [halive]) (by simp [halive]))
            unfold Conversation.Answered at hih ⊢
            simp only [Conversation.after, List.countP_append, countP_interim, List.countP_singleton,
              isAnswer_sendResponseAsync, if_true, hih]
          · simp [Conversation.Answered, countP_interim, List.countP_append, isAnswer_sendResponseAsync]

theorem Conversation.Answered.of_observed {c c' : Conversation} (h : c.Answered) (he : c'.observed = c.observed) :
    c'.Answered := by
  have hcount : ∀ c : Conversation, c.observed.1.countP Sent.isAnswer = c.sent.countP Sent.isAnswer := by
    intro c
    rw [Conversation.observed, List.countP_map]
    congr 1
    funext sent
    exact isAnswer_observed sent
  unfold Conversation.Answered at h ⊢
  rw [← hcount, he, hcount, h]
  exact (congrArg (·.2.2) he).symm

/-- The condition does not become stronger when the requests arrive one at a time. -/
theorem Server.Regular.alone {inBatch : Bool} {processed : ℕ} {arrivals : List Arrival} {state : σ}
    (h : server.Regular inBatch processed arrivals state) :
    server.Regular false processed (arrivals.map Arrival.alone) state := by
  induction arrivals generalizing inBatch processed state with
  | nil => trivial
  | cons arrival rest ih =>
      obtain ⟨item, buffered⟩ := arrival
      cases item with
      | malformed exception => rfl
      | request request continued =>
          obtain ⟨-, hsettles, hstep⟩ := h
          have hno : nextBuffered (rest.map Arrival.alone) = false := by
            cases rest <;> rfl
          refine ⟨fun _ => rfl, hsettles, fun response next s hsync => ?_⟩
          obtain ⟨-, -, hrest⟩ := hstep response next s hsync
          simp only [hno, Bool.false_and]
          exact ⟨fun _ => trivial, fun _ _ => ⟨trivial, by simp⟩, fun hmore hc => ih (hrest hmore hc)⟩

/-! ### All modes -/

/-- A server that answers every request with `200`. -/
def sampleServer : Server Unit Unit where
  router := {
    filters := []
    resolveHandler := fun e => ({ e with response := { e.response with status := 200 } }, none)
    exceptionHandler := none }
  manager := {
    cookieName := ascii "SID"
    get := fun _ _ => (none, ())
    isNew := fun _ _ => false
    touch := fun _ _ => () }
  maxKeepAliveRequests := 0
  statusMessage _ := []
  context := ()

theorem start_response (request : ServerRequest Unit) : (start request ()).response.forwardPath = [] ∧
    (start request ()).response.rawResponse = [] ∧ (start request ()).response.closeAfterSend = false ∧
    (request.version = ascii "HTTP/1.1" → (start request ()).response.version = request.version) := by
  unfold start
  dsimp only
  split_ifs
  · exact ⟨rfl, rfl, rfl, fun hv => hv.symm⟩
  · exact ⟨rfl, rfl, rfl, fun _ => rfl⟩

theorem handleRequest_sample (request : ServerRequest Unit) : handleRequest sampleServer.router request () =
    ({ start request () with response := { (start request ()).response with status := 200 } }, none) := rfl

theorem sampleServer_settles (request : ServerRequest Unit) (hv : request.version = ascii "HTTP/1.1") :
    Settles sampleServer.router maxForwardCount request () := by
  obtain ⟨hpath, -, -, hversion⟩ := start_response request
  refine ⟨⟨?_, ?_, ?_⟩, ?_⟩
  · rintro e e' thrown - h
    cases congrArg Prod.snd h
  · intro _ _ _ _
    trivial
  · intro _ _ _ _
    rfl
  · simp only [handleRequest_sample, hpath, ne_eq, not_true_eq_false, if_false]
    exact ⟨Kept.refl request, fun _ => hversion hv⟩

theorem sampleServer_response {request next : ServerRequest Unit} {response : HttpResponse} {s : Unit}
    (h : handleRequestWithForward sampleServer.router sampleServer.manager maxForwardCount request () =
      .ok (response, next, s)) : response.rawResponse = [] ∧ response.closeAfterSend = false := by
  obtain ⟨hpath, hraw, hclose, -⟩ := start_response request
  rw [maxForwardCount, handleRequestWithForward, handleRequest_sample] at h
  simp only [hpath, ne_eq, not_true_eq_false, if_false, Except.ok.injEq, Prod.mk.injEq] at h
  obtain ⟨rfl, -, -⟩ := h
  exact ⟨(addSessionCookie_keeps _ _ _ _).2.1.trans hraw, (addSessionCookie_keeps _ _ _ _).2.2.trans hclose⟩

end NeForce.HttpServer
