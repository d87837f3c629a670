import Mathlib.Tactic.Linarith
import NeForce.BigEndian
import NeForce.Runs

/-! # Asynchronous DNS queries over one socket

`dns_client` keeps its unfinished queries in a map by their id. A datagram takes the entry of its id out of the map
before it is parsed, in two critical sections, so that other events fall between them. The client is modelled with all
operations that it has started, the map, the datagrams on their way to an operation, and the calls of handlers. Random
ids and case patterns are arguments of the events. -/

namespace NeForce.DnsClient

/-! ### Messages -/

/-- The part of `decode_domain_name` behind a pointer counts jumps; the result is the name and where the loop stopped,
with the offset behind the first pointer. -/
def decodeLoop (data : Bytes) (offset : ℕ) (name : Bytes) (behind : Option ℕ) (jumps : ℕ) (hj : jumps ≤ 5) :
    Except String (Bytes × ℕ) :=
  if h : offset < data.length then
    let len := data[offset]
    if len &&& 0xC0 = 0xC0 then
      if h1 : offset + 1 < data.length then
        let pointer := (len &&& 0x3F).toNat <<< 8 ||| (data[offset + 1]).toNat
        if data.length ≤ pointer then .error "Pointer exceeds buffer"
        else if hlt : jumps + 1 ≤ 5 then
          decodeLoop data pointer name (some (behind.getD (offset + 2))) (jumps + 1) hlt
        else .error "Too many jumps in domain name"
      else .error "Invalid pointer in domain name"
    else if len = 0 then .ok (name, behind.getD (offset + 1))
    else if 63 < len then .error "Invalid label length"
    else if data.length < offset + 1 + len.toNat then .error "Domain name exceeds buffer"
    else
      let name := if name = [] then name else name ++ ascii "."
      if 253 < name.length + len.toNat + 1 then .error "Domain name too long"
      else decodeLoop data (offset + 1 + len.toNat) (name ++ (data.drop (offset + 1)).take len.toNat) behind jumps hj
  else .ok (name, behind.getD offset)
termination_by (5 - jumps, data.length - offset)

def decodeDomainName (data : Bytes) (offset : ℕ) : Except String (Bytes × ℕ) :=
  decodeLoop data offset [] none 0 (Nat.zero_le 5)

/-- The `i`th 16-bit field of the header. -/
def headerField (data : Bytes) (i : ℕ) : ℕ := readBe ((data.drop (2 * i)).take 2)

def messageId (data : Bytes) : ℕ := headerField data 0

def questionCount (data : Bytes) : ℕ := headerField data 2

/-- What `parse_dns_response` returns; `records` stands for the three sections behind the questions. -/
structure QueryResult (R : Type) where
  responseCode : ℕ
  authoritative : Bool
  truncated : Bool
  recursiveAvailable : Bool
  records : R

/-- The question section from the `i`th question on, with `n` more to read. -/
def parseQuestions (data expectedQuestion : Bytes) : ℕ → ℕ → ℕ → Except String ℕ
  | 0, _, offset => .ok offset
  | n + 1, i, offset => do
    let (decoded, offset) ← decodeDomainName data offset
    if i = 0 ∧ expectedQuestion ≠ [] ∧ decoded ≠ expectedQuestion then
      .error "0x20 question case mismatch in DNS response"
    else if data.length < offset + 4 then .error "Question section exceeds buffer"
    else parseQuestions data expectedQuestion n (i + 1) (offset + 4)

variable {R : Type} (sections : Bytes → ℕ → Except String R)

/-- `parse_dns_response`; `sections` reads the records from an offset. -/
def parseDnsResponse (response : Bytes) (expectedId : ℕ) (expectedQuestion : Bytes) :
    Except String (QueryResult R) :=
  if response.length < 12 then .error "Response too short"
  else
    let flags := headerField response 1
    if flags &&& 0x8000 = 0 then .error "QR bit not set in DNS response"
    else if expectedId ≠ 0 ∧ messageId response ≠ expectedId then .error "Response ID mismatch"
    else do
      let offset ← parseQuestions response expectedQuestion (questionCount response) 0 12
      let records ← sections response offset
      .ok {
        responseCode := flags &&& 0x000F
        authoritative := flags &&& 0x0400 != 0
        truncated := flags &&& 0x0200 != 0
        recursiveAvailable := flags &&& 0x0080 != 0
        records := records }

/-- The response carries the id and, as its first question, the name. -/
def Matches (response : Bytes) (id : ℕ) (question : Bytes) : Prop :=
  messageId response = id ∧ 1 ≤ questionCount response ∧
    ∃ offset, decodeDomainName response 12 = .ok (question, offset)

/-! ### The client -/

/-- `dns_query_op`. The timer and the cancellation slot are set once the first datagram is sent (`armed`); `failed`
marks an operation whose start has called the handler with an error. -/
structure Op where
  queryId : ℕ
  expectedQuestion : Bytes
  fired : Bool
  udpRetries : ℕ
  armed : Bool
  failed : Bool
  inTcp : Bool
  tcpFinished : Bool

inductive Outcome where
  | success (response : Bytes)
  | protocolError (datagram : Bytes)
  | ioError
  | timedOut
  | aborted
  | tcpError

/-- A call of the handler of an operation, with the query that was current. -/
structure Call where
  op : ℕ
  outcome : Outcome
  queryId : ℕ
  question : Bytes

structure Client where
  maxUdpRetries : ℕ
  ops : List Op
  pending : List (ℕ × ℕ)
  taken : List (ℕ × Bytes)
  calls : List Call

def Client.init (maxUdpRetries : ℕ) : Client := ⟨maxUdpRetries, [], [], [], []⟩

namespace Client

variable (c : Client)

def setOp (o : ℕ) (op : Op) : Client := { c with ops := c.ops.set o op }

def unregisterQuery (id : ℕ) : Client := { c with pending := c.pending.filter (·.1 ≠ id) }

/-- `pending_queries_[id]` is overwritten. -/
def register (id o : ℕ) : Client := { c with pending := (id, o) :: c.pending.filter (·.1 ≠ id) }

def call (o : ℕ) (outcome : Outcome) (op : Op) : Client :=
  { c with calls := c.calls ++ [⟨o, outcome, op.queryId, op.expectedQuestion⟩] }

/-- An operation is marked, leaves the map and calls its handler. -/
def finish (o : ℕ) (op : Op) (outcome : Outcome) : Client :=
  ((c.setOp o op).unregisterQuery op.queryId).call o outcome op

end Client

inductive Event where
  /-- `start` up to the registration; with a cancelled slot only the handler is called. -/
  | start (id : ℕ) (question : Bytes) (cancelled : Bool)
  | sent (o : ℕ)
  | sendFailed (o : ℕ)
  /-- The first critical section of `dispatch_to_op`. -/
  | datagram (d : Bytes)
  /-- The rest of `dispatch_to_op`, for the `i`th datagram on its way. -/
  | deliver (i : ℕ)
  | timeout (o : ℕ) (inTime : Bool) (id : ℕ) (question : Bytes)
  | cancel (o : ℕ)
  | tcpResponse (o : ℕ) (d : Bytes)
  | tcpFail (o : ℕ)

def onResponse (c : Client) (o : ℕ) (op : Op) (d : Bytes) (result : QueryResult R) : Client :=
  if op.fired then c
  else if result.truncated then
    (c.setOp o { op with fired := true, inTcp := true }).unregisterQuery op.queryId
  else c.finish o { op with fired := true } (.success d)

def deliver (c : Client) (o : ℕ) (op : Op) (d : Bytes) : Client :=
  match parseDnsResponse sections d op.queryId op.expectedQuestion with
  | .ok result => onResponse c o op d result
  | .error _ =>
    if op.fired then c
    else
      let op := { op with fired := true }
      (c.setOp o op).call o (.protocolError d) op

def onTimeout (c : Client) (o : ℕ) (op : Op) (inTime : Bool) (id : ℕ) (question : Bytes) : Client :=
  if op.fired then c
  else if op.udpRetries < c.maxUdpRetries ∧ inTime then
    let op' := { op with udpRetries := op.udpRetries + 1, queryId := id, expectedQuestion := question }
    ((c.unregisterQuery op.queryId).setOp o op').register id o
  else c.finish o { op with fired := true } .timedOut

def doCancel (c : Client) (o : ℕ) (op : Op) : Client :=
  if op.fired then c else c.finish o { op with fired := true } .aborted

def finishTcp (c : Client) (o : ℕ) (op : Op) (outcome : Outcome) : Client :=
  if op.tcpFinished then c else c.finish o { op with tcpFinished := true } outcome

def onTcpResponse (c : Client) (o : ℕ) (op : Op) (d : Bytes) : Client :=
  match parseDnsResponse sections d op.queryId op.expectedQuestion with
  | .ok _ => finishTcp c o op (.success d)
  | .error _ => finishTcp c o op .tcpError

def exec (c : Client) : Event → Option Client
  | .start id question cancelled =>
    let op : Op := ⟨id, question, false, 0, false, cancelled, false, false⟩
    let c' := { c with ops := c.ops ++ [op] }
    if cancelled then some (c'.call c.ops.length .aborted op) else some (c'.register id c.ops.length)
  | .sent o => do
    let op ← c.ops[o]?
    if op.armed || op.failed then none else some (c.setOp o { op with armed := true })
  | .sendFailed o => do
    let op ← c.ops[o]?
    if op.armed || op.failed then none else some (c.finish o { op with failed := true } .ioError)
  | .datagram d =>
    if d.length < 2 then some c
    else
      match c.pending.lookup (messageId d) with
      | none => some c
      | some o => some { c.unregisterQuery (messageId d) with taken := c.taken ++ [(o, d)] }
  | .deliver i => do
    let (o, d) ← c.taken[i]?
    let op ← c.ops[o]?
    some (deliver sections { c with taken := c.taken.eraseIdx i } o op d)
  | .timeout o inTime id question => do
    let op ← c.ops[o]?
    if op.armed then some (onTimeout c o op inTime id question) else none
  | .cancel o => do
    let op ← c.ops[o]?
    if op.armed then some (doCancel c o op) else none
  | .tcpResponse o d => do
    let op ← c.ops[o]?
    if op.inTcp then some (onTcpResponse sections c o op d) else none
  | .tcpFail o => do
    let op ← c.ops[o]?
    if op.inTcp then some (finishTcp c o op .tcpError) else none

def Step (c : Client) (e : Event) (c' : Client) : Prop := exec sections c e = some c'

/-! ### What is promised -/

/-- The operation has called its handler. -/
def Called (c : Client) (o : ℕ) : Prop := ∃ k ∈ c.calls, k.op = o

/-- No handler is called twice, every success matches the current query, no datagram fails an operation, and an
unfinished operation that is not in the TCP fallback has its entry, unless a datagram for it is being handled. -/
structure Answers (c : Client) : Prop where
  once : ∀ o, (c.calls.filter (·.op = o)).length ≤ 1
  matching : ∀ k ∈ c.calls, ∀ d, k.outcome = .success d → Matches d k.queryId k.question
  patient : ∀ k ∈ c.calls, ∀ d, k.outcome ≠ .protocolError d
  kept : ∀ o op, c.ops[o]? = some op → ¬ Called c o → op.inTcp = false → (∀ d, (o, d) ∉ c.taken) →
    c.pending.lookup op.queryId = some o

/-! ### Regular events -/

/-- The id is not the one of another operation that is not finished. -/
def FreshFor (c : Client) (o id : ℕ) : Prop :=
  ∀ o' op, c.ops[o']? = some op → ¬ Called c o' → o' ≠ o → op.queryId ≠ id

/-- A response that parses has a question, and the id if the query has the id 0, which the parser does not check. -/
def Answering (d : Bytes) (op : Op) : Prop := 1 ≤ questionCount d ∧ (op.queryId = 0 → messageId d = 0)

/-- The events that the client is right about. -/
def Regular (c : Client) : Event → Prop
  | .start id question cancelled => cancelled = false → question ≠ [] ∧ FreshFor c c.ops.length id
  | .sent _ => True
  | .sendFailed o => (∀ op, c.ops[o]? = some op → op.fired = false) ∧ ∀ d, (o, d) ∉ c.taken
  | .datagram _ => True
  | .deliver i => ∀ o d op, c.taken[i]? = some (o, d) → c.ops[o]? = some op → op.fired = false →
      (∃ result, parseDnsResponse sections d op.queryId op.expectedQuestion = .ok result) ∧ Answering d op
  | .timeout o _ id question => question ≠ [] ∧ FreshFor c o id
  | .cancel _ => True
  | .tcpResponse o d => ∀ op, c.ops[o]? = some op →
      (∃ result, parseDnsResponse sections d op.queryId op.expectedQuestion = .ok result) → Answering d op
  | .tcpFail _ => True

end NeForce.DnsClient
