import ExecutionFabric.Lib.Fifo
import ExecutionFabric.Model.System
import ExecutionFabric.Model.Protocol

/-!
# The coordinator server

The server owns one runtime and serves it to connections. A connection keeps a single
session slot; the session in it ends when the connection goes away. Serving one frame is
one step. Payloads are modelled as the requests and the results they carry.
-/
namespace ExecutionFabric

open Lib Program

variable [AppendLimit]

structure ServerConfig where
  runtime : RuntimeConfig := {}
  maxConnections : Nat := 64
  requestCacheSize : Nat := 8192
  allowRemoteShutdown : Bool := true
  deriving DecidableEq, Repr

structure ConnectionState where
  session : SessionId := .nil
  established : Bool := false
  isWorker : Bool := false
  worker : WorkerId := .nil
  boot : WorkerBootId := .nil
  deriving DecidableEq, Repr

/-! ## Requests -/

structure HelloRequest where
  worker : WorkerId := .nil
  boot : WorkerBootId := .nil
  asWorker : Bool := false
  deriving DecidableEq, Repr

/-- A decoded payload. -/
inductive ServedRequest
  | hello (request : HelloRequest)
  | ping (token : UInt64)
  | shutdown
  | createExecution (request : CreateExecutionRequest)
  | bindWorker (request : BindWorkerRequest)
  | start (request : StartRequest)
  | beginAction (request : BeginActionRequest)
  | completeAction (request : CompleteActionRequest)
  | failAction (request : FailActionRequest)
  | reportSideEffect (request : ReportSideEffectRequest)
  | registerCheckpoint (request : RegisterCheckpointRequest)
  | resume (request : ResumeRequest)
  | suspendBegin (execution : ExecutionId)
  | suspendCommit (execution : ExecutionId)
  | fence (execution : ExecutionId)
  | cancel (execution : ExecutionId)
  | retire (execution : ExecutionId)
  | drain (execution : ExecutionId)
  | completeExecution (execution : ExecutionId)
  | advanceGeneration (execution : ExecutionId)
  | updatePolicy (execution : ExecutionId) (policy : ExecutionPolicy) (apply : Bool)
  | classify (execution : ExecutionId)
  | recover (execution : ExecutionId)
  | resolveAmbiguity (request : ResolveAmbiguityRequest)
  | query (execution : ExecutionId)
  | listExecutions
  | revalidateContinuation (execution : ExecutionId)
  | snapshot (truncateJournal : Bool)
  | audit
  deriving DecidableEq, Repr

def ServedRequest.base : ServedRequest → MessageType
  | .hello _ => .hello
  | .ping _ => .ping
  | .shutdown => .shutdown
  | .createExecution _ => .createExecution
  | .bindWorker _ => .bindWorker
  | .start _ => .start
  | .beginAction _ => .beginAction
  | .completeAction _ => .completeAction
  | .failAction _ => .failAction
  | .reportSideEffect _ => .reportSideEffect
  | .registerCheckpoint _ => .registerCheckpoint
  | .resume _ => .resume
  | .suspendBegin _ => .suspendBegin
  | .suspendCommit _ => .suspendCommit
  | .fence _ => .fence
  | .cancel _ => .cancel
  | .retire _ => .retire
  | .drain _ => .drain
  | .completeExecution _ => .completeExecution
  | .advanceGeneration _ => .advanceGeneration
  | .updatePolicy _ _ _ => .updatePolicy
  | .classify _ => .classify
  | .recover _ => .recover
  | .resolveAmbiguity _ => .resolveAmbiguity
  | .query _ => .query
  | .listExecutions => .listExecutions
  | .revalidateContinuation _ => .revalidateContinuation
  | .snapshot _ => .snapshot
  | .audit => .audit

/-- A received frame with what its payload decodes to, if it decodes. -/
structure RequestFrame where
  type : MessageType
  request : RequestId := .nil
  body : Option ServedRequest := none
  typed : ∀ r, body = some r → r.base = type.base

/-- The frame of a request. -/
def ServedRequest.frame (r : ServedRequest) (request : RequestId) : RequestFrame where
  type := r.base
  request := request
  body := some r
  typed := by
    intro r' h
    cases h
    cases r <;> simp only [ServedRequest.base] <;> decide

/-- What the server takes the frame for: SHUTDOWN, LIST_EXECUTIONS and AUDIT need no payload. -/
def RequestFrame.served (f : RequestFrame) : Option ServedRequest :=
  if f.type.base = .shutdown then some .shutdown
  else if f.type.base = .listExecutions then some .listExecutions
  else if f.type.base = .audit then some .audit
  else f.body

/-- The name a payload that does not decode is refused under, for the types the server handles. -/
def payloadName (base : MessageType) : Option String :=
  if base = .hello then some "HELLO"
  else if base = .ping then some "PING"
  else if base = .createExecution then some "CREATE_EXECUTION"
  else if base = .bindWorker then some "BIND_WORKER"
  else if base = .start then some "START"
  else if base = .beginAction then some "BEGIN_ACTION"
  else if base = .completeAction then some "COMPLETE_ACTION"
  else if base = .failAction then some "FAIL_ACTION"
  else if base = .reportSideEffect then some "REPORT_SIDE_EFFECT"
  else if base = .registerCheckpoint then some "CHECKPOINT"
  else if base = .resume then some "RESUME"
  else if base = .suspendBegin ∨ base = .suspendCommit then some "suspend"
  else if base = .fence ∨ base = .cancel ∨ base = .retire ∨ base = .drain ∨
    base = .completeExecution ∨ base = .advanceGeneration then some "lifecycle"
  else if base = .updatePolicy then some "UPDATE_POLICY"
  else if base = .classify then some "CLASSIFY"
  else if base = .recover then some "RECOVER"
  else if base = .resolveAmbiguity then some "RESOLVE_AMBIGUITY"
  else if base = .query then some "QUERY"
  else if base = .revalidateContinuation then some "VALIDATE_CONTINUATION"
  else if base = .snapshot then some "SNAPSHOT"
  else none

/-- Why a frame without a served request is refused. -/
def unservedDefect (base : MessageType) : Status :=
  match payloadName base with
  | some name => err .protocolViolation (name ++ " payload did not decode")
  | none => err .protocolViolation "message type is not handled by this coordinator"

/-! ## Replies -/

/-- The result a reply carries beside its status. -/
inductive Answer
  | simple
  | hello (store : StoreId) (epoch : Nat) (session : SessionId) (journalSequence : Nat)
  | pong (token : UInt64) (epoch : Nat)
  | stopping
  | created (result : CreateExecutionResult)
  | bound (result : BindWorkerResult)
  | begun (result : BeginActionResult)
  | completed (result : CompleteActionResult)
  | checkpointed (result : RegisterCheckpointResult)
  | resumed (result : ResumeResult)
  | recovered (outcome : RecoveryOutcome)
  | resolved (result : ResolveAmbiguityResult)
  | snapshot (status : Except Status Unit) (journalSequence : Nat)
  /-- QUERY, CLASSIFY, LIST_EXECUTIONS, VALIDATE_CONTINUATION and AUDIT only read. -/
  | view

structure CachedReply where
  type : MessageType
  outcome : Except Status Answer

structure Reply where
  type : MessageType
  request : RequestId
  outcome : Except Status Answer

def RequestFrame.reply (f : RequestFrame) (type : MessageType) (outcome : Except Status Answer) :
    Reply :=
  ⟨type.reply, f.request, outcome⟩

/-- The runtime operation behind a request that changes executions. -/
def ServedRequest.operation (r : ServedRequest) (caller : CallerContext) (request : RequestId) :
    Option (Op Answer) :=
  match r with
  | .createExecution typed => some (Answer.created <$> ExecutionFabric.createExecution caller typed)
  | .bindWorker typed => some (Answer.bound <$> ExecutionFabric.bindWorker caller typed)
  | .start typed => some ((fun _ => Answer.simple) <$> ExecutionFabric.start typed)
  | .beginAction typed => some (Answer.begun <$> ExecutionFabric.beginAction typed)
  | .completeAction typed => some (Answer.completed <$> ExecutionFabric.completeAction typed)
  | .failAction typed => some ((fun _ => Answer.simple) <$> ExecutionFabric.failAction typed)
  | .reportSideEffect typed =>
    some ((fun _ => Answer.simple) <$> ExecutionFabric.reportSideEffect typed)
  | .registerCheckpoint typed =>
    some (Answer.checkpointed <$> ExecutionFabric.registerCheckpoint typed)
  | .resume typed => some (Answer.resumed <$> ExecutionFabric.resume typed)
  | .suspendBegin execution =>
    some ((fun _ => Answer.simple) <$> ExecutionFabric.suspendBegin caller request execution)
  | .suspendCommit execution =>
    some ((fun _ => Answer.simple) <$> ExecutionFabric.suspendCommit caller request execution)
  | .fence execution =>
    some ((fun _ => Answer.simple) <$> ExecutionFabric.fence caller request execution)
  | .cancel execution =>
    some ((fun _ => Answer.simple) <$> ExecutionFabric.cancel caller request execution)
  | .retire execution =>
    some ((fun _ => Answer.simple) <$> ExecutionFabric.retire caller request execution)
  | .drain execution =>
    some ((fun _ => Answer.simple) <$> ExecutionFabric.drain caller request execution)
  | .completeExecution execution =>
    some ((fun _ => Answer.simple) <$> ExecutionFabric.completeExecution caller request execution)
  | .advanceGeneration execution => some ((fun _ => Answer.simple) <$>
      ExecutionFabric.advanceExecutionGeneration caller request execution)
  | .updatePolicy execution policy apply => some ((fun _ => Answer.simple) <$>
      ExecutionFabric.updatePolicy caller request execution policy apply)
  | .recover execution => some (Answer.recovered <$> recoverLocked caller request execution)
  | .resolveAmbiguity typed => some (Answer.resolved <$>
      ExecutionFabric.resolveAmbiguity { typed with caller := caller })
  | _ => none

/-! ## The server -/

structure Server where
  config : ServerConfig := {}
  runtime : Runtime := {}
  stopRequested : Bool := false
  requests : Nat := 0
  refusals : Nat := 0
  replayed : Nat := 0
  activeConnections : Nat := 0
  replyCache : RequestId → Option CachedReply := fun _ => none
  replyOrder : List RequestId := []
  /-- The connections in the order they were accepted, those that are gone left empty. -/
  connections : Nat → Option ConnectionState := fun _ => none
  nextConnection : Nat := 0

namespace Server

variable (v : Server)

/-- `CoordinatorServer::start`: the server runs once its runtime is open. -/
def start (config : ServerConfig) (entropy : UInt64) (runtime : Runtime) : Option Server :=
  match (Call.openRuntime config.runtime entropy).status runtime with
  | .ok _ => some
    { config := config, runtime := (Call.openRuntime config.runtime entropy).perform runtime }
  | .error _ => none

/-- `remember_reply`: the oldest replies make room. -/
def rememberReply (id : RequestId) (reply : CachedReply) : Server :=
  if id.valid = false ∨ v.config.requestCacheSize = 0 then v
  else if (v.replyCache id).isSome = true then v
  else
    let remembered := Fifo.insert v.config.requestCacheSize id reply v.replyOrder v.replyCache
    { v with replyOrder := remembered.1, replyCache := remembered.2 }

def lookupReply (id : RequestId) : Option CachedReply :=
  if id.valid = true then v.replyCache id else none

def refuse (f : RequestFrame) (e : Status) : Reply × Server :=
  (f.reply f.type.base (.error e), { v with refusals := v.refusals + 1 })

/-- HELLO: a worker begins a session, which takes the slot of the connection. -/
def serveHello (k : Nat) (f : RequestFrame) (hello : HelloRequest) : Reply × Server :=
  let answer := fun session => Answer.hello v.runtime.state.store v.runtime.state.epoch session
    v.runtime.state.sequence
  if hello.asWorker = true then
    match (beginSession hello.worker hello.boot).exec v.runtime with
    | (.error e, runtime) => { v with runtime := runtime }.refuse f e
    | (.ok (_, session), runtime) =>
      (f.reply f.type.base (.ok (answer session)),
        { v with
          runtime := runtime
          connections := Function.update v.connections k
            (some ⟨session, true, true, hello.worker, hello.boot⟩) })
  else (f.reply f.type.base (.ok (answer .nil)), v)

def caller (connection : ConnectionState) : CallerContext where
  epoch := v.runtime.state.epoch
  session := if connection.established = true then connection.session else .nil

/-- Performs an operation and remembers the reply of one that succeeded; other requests read. -/
def serveOperation (f : RequestFrame) (operation : Option (Op Answer)) : Reply × Server :=
  match operation with
  | none => (f.reply f.type.base (.ok .view), v)
  | some operation =>
    let (outcome, runtime) := operation.exec v.runtime
    let served := { v with runtime := runtime }
    (f.reply f.type.base outcome, match outcome with
      | .ok _ => served.rememberReply f.request ⟨f.type.base, outcome⟩
      | .error _ => served)

/-- A request that is neither a replay nor malformed. -/
def serveRequest (k : Nat) (connection : ConnectionState) (f : RequestFrame) (r : ServedRequest) :
    Reply × Server :=
  match r with
  | .hello hello => v.serveHello k f hello
  | .ping token => (f.reply f.type.base (.ok (.pong token v.runtime.state.epoch)), v)
  | .shutdown =>
    if v.config.allowRemoteShutdown = false then
      v.refuse f (err .policyRefused "remote shutdown is disabled on this coordinator")
    else (f.reply f.type.base (.ok .stopping), { v with stopRequested := true })
  | .snapshot truncateJournal =>
    let (status, runtime) := (takeSnapshot truncateJournal).exec v.runtime
    (f.reply f.type.base (.ok (.snapshot status runtime.state.sequence)),
      { v with runtime := runtime })
  | r => v.serveOperation f (r.operation (v.caller connection) f.request)

/-- Serves one exchange on the connection `k`. -/
def serve (k : Nat) (connection : ConnectionState) (f : RequestFrame) : Reply × Server :=
  let v := { v with requests := v.requests + 1 }
  if f.type.isReply = true then
    (f.reply .ping (.error (err .protocolViolation "a reply frame was received as a request")), v)
  else
    let cached := if f.type.base ≠ .hello ∧ f.type.base ≠ .ping then v.lookupReply f.request
      else none
    match cached with
    | some cached =>
      (f.reply cached.type cached.outcome, { v with replayed := v.replayed + 1 })
    | none =>
      match f.served with
      | none => v.refuse f (unservedDefect f.type.base)
      | some r => v.serveRequest k connection f r

/-- A connection is accepted, or closed at once when there are too many. -/
def accept : Server :=
  if v.stopRequested = true ∨ v.config.maxConnections ≤ v.activeConnections then v
  else { v with
    activeConnections := v.activeConnections + 1
    connections := Function.update v.connections v.nextConnection (some {})
    nextConnection := v.nextConnection + 1 }

/-- The end of the connection loop: the worker session in the slot ends. -/
def exit (k : Nat) (connection : ConnectionState) : Server :=
  { v with
    runtime := if connection.established = true ∧ connection.isWorker = true then
        (Call.endSession connection.session).perform v.runtime
      else v.runtime
    connections := Function.update v.connections k none
    activeConnections := v.activeConnections - 1 }

end Server

/-- A step of the server; the connections take turns frame by frame. -/
inductive ServerEvent
  | accept
  | request (k : Nat) (frame : RequestFrame)
  | exit (k : Nat)

def ServerEvent.perform (e : ServerEvent) (v : Server) : Server :=
  match e with
  | .accept => v.accept
  | .request k frame =>
    match v.connections k with
    | some connection => (v.serve k connection frame).2
    | none => v
  | .exit k =>
    match v.connections k with
    | some connection => v.exit k connection
    | none => v

/-- The server after the events, in order. -/
def Server.after : Server → List ServerEvent → Server
  | v, [] => v
  | v, e :: rest => Server.after (e.perform v) rest

end ExecutionFabric
