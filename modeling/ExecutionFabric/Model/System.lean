import ExecutionFabric.Model.Resolution

/-!
# Lifecycle operations, sessions, restart, and runs

The remaining public operations, the restart path, and the transition system: a
step is one public call, or the loss of the process with a journal prefix kept.
-/
namespace ExecutionFabric

open Lib Program

variable [AppendLimit]

/-! ## Lifecycle operations -/

/-- Open ambiguities keep an execution from completing or retiring. -/
def openAmbiguityDefect (st : DurableState) (x : ExecutionRecord) (message : String) :
    Option Status :=
  match currentAmbiguity st x with
  | some amb => if ambiguityIsOpen amb.state = true then some (err .unresolvedAmbiguity message)
    else none
  | none => none

/-- The family of caller operations that are one lifecycle transition. -/
def transitionOp (caller : CallerContext) (request : RequestId) (executionId : ExecutionId)
    (defect : DurableState → ExecutionRecord → Option Status) (target : Lifecycle)
    (what : String) : Op Unit := do
  let x ← findChecked caller executionId
  let s ← get
  match lookupRequest s request with
  | some _ => return ()
  | none =>
    refuseOn (defect s.state x)
    persistTransition x target what
    rememberRequest request ⟨0, 0⟩

def fence (caller : CallerContext) (request : RequestId) (executionId : ExecutionId) : Op Unit :=
  transitionOp caller request executionId (fun _ _ => none) .fenced "fence"

def retire (caller : CallerContext) (request : RequestId) (executionId : ExecutionId) : Op Unit :=
  transitionOp caller request executionId
    (fun st x => openAmbiguityDefect st x
      "an execution with an unresolved ambiguity cannot be retired") .retired "retire"

def cancel (caller : CallerContext) (request : RequestId) (executionId : ExecutionId) : Op Unit :=
  transitionOp caller request executionId (fun _ _ => none) .cancelled "cancel"

def drain (caller : CallerContext) (request : RequestId) (executionId : ExecutionId) : Op Unit :=
  transitionOp caller request executionId (fun _ _ => none) .draining "drain"

def completeExecution (caller : CallerContext) (request : RequestId)
    (executionId : ExecutionId) : Op Unit :=
  transitionOp caller request executionId
    (fun st x => openAmbiguityDefect st x
      "an execution with an unresolved ambiguity cannot complete") .completed "complete"

def suspendBegin (caller : CallerContext) (request : RequestId) (executionId : ExecutionId) :
    Op Unit :=
  transitionOp caller request executionId (fun _ _ => none) .suspending "suspend"

def suspendCommit (caller : CallerContext) (request : RequestId) (executionId : ExecutionId) :
    Op Unit :=
  transitionOp caller request executionId (fun _ _ => none) .suspended "suspend"

/-- Every continuation of an execution that is not Stale yet, marked Stale. -/
def staleContinuations (st : DurableState) (execution : ExecutionId) : List ContinuationRecord :=
  (st.continuations.records.filter fun c => c.execution = execution ∧ c.state ≠ .stale).map
    fun c => { c with state := .stale }

/-- The execution under its next generation. -/
def nextGeneration (x : ExecutionRecord) : ExecutionRecord :=
  let next := if x.lease.valid = true then x.withoutLease else x
  { next with
    generation := x.generation + 1
    continuation := .nil
    continuationGeneration := 0
    lifecycle := if isActiveState x.lifecycle = true then .recoveryRequired else x.lifecycle }

def advanceExecutionGeneration (caller : CallerContext) (request : RequestId)
    (executionId : ExecutionId) : Op Unit := do
  let x ← findChecked caller executionId
  let s ← get
  match lookupRequest s request with
  | some _ => return ()
  | none =>
    refuseIf (isTerminalState x.lifecycle = true)
      (err .lifecycleRefused ("cannot advance the generation of an execution that is " ++
        lifecycleName x.lifecycle))
    Op.putAll ((staleContinuations s.state executionId).map .continuation)
    provided (x.lease.valid = true) (putLeaseAs (activeLease s.state x) .revoked)
    provided (isActiveState x.lifecycle = true)
      (requireTransition x.lifecycle .recoveryRequired "generation advance")
    Op.put (.execution { nextGeneration x with epoch := s.state.epoch })
    rememberRequest request ⟨word (x.generation + 1), 0⟩

/-! ## Sessions -/

def beginSession (worker : WorkerId) (boot : WorkerBootId) : Op (CallerContext × SessionId) := do
  let s ← get
  refuseIf (s.isOpen = false) (err .notFound "runtime is not open")
  refuseIf (s.shuttingDown = true) (err .shuttingDown "coordinator is shutting down")
  refuseIf (worker.valid = false ∨ boot.valid = false)
    (err .invalidArgument "worker id and worker boot id must both be non-nil")
  let session : SessionId := ⟨word s.nextSession⟩
  Program.update fun s => { s with
    nextSession := s.nextSession + 1
    sessions := Function.update s.sessions session (some ⟨worker, boot⟩) }
  return (⟨session, s.state.epoch⟩, session)

/-- The records that take authority from one execution whose worker is lost. -/
def fenceRecords (st : DurableState) (x : ExecutionRecord) : List JournalEntry :=
  if isLegalTransition x.lifecycle .fenced = false ∧ x.lease.valid = false then []
  else
    let next := if isLegalTransition x.lifecycle .fenced = true then { x with lifecycle := .fenced }
      else x
    if x.lease.valid = true then
      leaseAs (st.leases.find x.lease) .revoked ++ [.execution next.withoutLease]
    else [.execution next]

/-- The executions a lost worker boot was bound to. -/
def boundTo (st : DurableState) (info : SessionInfo) : List ExecutionRecord :=
  st.executions.records.filter fun x =>
    x.worker = info.worker ∧ x.boot = info.boot ∧ isTerminalState x.lifecycle = false

/-- Fences the executions one after the other. -/
def fenceAll : List ExecutionRecord → Op Unit
  | [] => pure ()
  | x :: rest => do
    let s ← get
    Op.putAll (fenceRecords s.state x)
    fenceAll rest

def endSession (session : SessionId) : Op Unit := do
  let s ← get
  let info ← require (s.sessions session) (err .notFound "session is not present")
  Program.update fun s => { s with sessions := Function.update s.sessions session none }
  fenceAll (boundTo s.state info)

/-! ## Open and shutdown -/

structure OpenOutcome where
  previousEpoch : Nat := 0
  epoch : Nat := 0
  created : Bool := false
  reclassified : List ExecutionId := []
  leasesRevoked : Nat := 0
  reconciledCommits : Nat := 0
  detail : String := ""
  deriving DecidableEq, Repr

/-- The Active leases of earlier epochs, revoked. -/
def revokedLeases (st : DurableState) (epoch : Nat) : List LeaseRecord :=
  (st.leases.records.filter fun l => l.state = .active ∧ l.epoch ≠ epoch).map
    fun l => { l with state := .revoked }

/-- The execution without a lease that is no longer authoritative in `epoch`. -/
def withoutStaleLease (st : DurableState) (epoch : Nat) (x : ExecutionRecord) :
    ExecutionRecord :=
  if x.lease.valid = true then
    match st.leases.find x.lease with
    | some l => if l.state ≠ .active ∨ l.epoch ≠ epoch then x.withoutLease else x
    | none => x.withoutLease
  else x

/-- The execution as a restart leaves it: RUNNING is never revived from durable bytes. -/
def restarted (st : DurableState) (epoch : Nat) (x : ExecutionRecord) : ExecutionRecord :=
  let next := withoutStaleLease st epoch x
  if isActiveState x.lifecycle = true ∨ x.lifecycle = .fenced then
    { next with lifecycle := .recoveryRequired }
  else next

/-- The executions a restart changes, in insertion order. -/
def restartedExecutions (st : DurableState) (epoch : Nat) : List ExecutionRecord :=
  (st.executions.records.filter fun x =>
    (isActiveState x.lifecycle = true ∨ x.lifecycle = .fenced) ∨
      (x.lease.valid = true ∧ (withoutStaleLease st epoch x).lease.valid = false)).map
    (restarted st epoch)

/-- The Valid continuations of earlier epochs, marked Stale. -/
def expiredContinuations (st : DurableState) (epoch : Nat) : List ContinuationRecord :=
  (st.continuations.records.filter fun c => c.epoch ≠ epoch ∧ c.state = .valid).map
    fun c => { c with state := .stale }

/-- Classifies the pending executions one after the other; a refusal is only reported. -/
def recoverPending (caller : CallerContext) : List ExecutionId → Op String
  | [] => pure ""
  | id :: rest => do
    let s ← get
    let outcome := (recoverLocked caller .nil id).exec s
    Program.update fun _ => outcome.2
    let note := "execution " ++ hex64 id.value ++ ": " ++ match outcome.1 with
      | .ok recovered => recoveryDecisionName recovered.plan.decision
      | .error e => e.toText
    let notes ← recoverPending caller rest
    return note ++ "; " ++ notes

/-- Loads the store into memory; an unsupported or foreign state is refused. -/
def loadState (entropy : UInt64) : Op LoadReport := do
  let s ← get
  let opened := s.store.openStore s.config.createIfMissing entropy
  Program.update fun s => s.mapJournaled fun j => { j with store := opened.2 }
  check opened.1
  let directory ← require opened.2.directory (err .notFound "store has neither snapshot nor journal")
  let (report, loaded) := loadDirectory directory s.state
  Op.setState fun _ => loaded
  let report ← check report
  refuseIf (loaded.store ≠ .nil ∧ loaded.store ≠ opened.2.storeId)
    (err .corruptState "journal store id does not match the recovered state")
  Op.setState fun st => { st with store := opened.2.storeId }
  refuseIf (loaded.schema ≠ 0 ∧ loaded.schema ≠ persistenceSchemaVersion)
    (err .unsupported "durable state schema is not supported by this build")
  Op.setState fun st => { st with schema := persistenceSchemaVersion }
  return report

/-- Brings aggregates forward to their detail records and journals the repaired commits. -/
def reconcile : Op Reconciliation := do
  let s ← get
  let reconciled := reconcileState s.state
  Program.update fun s => s.mapJournaled fun j =>
    Journaled.rebuildIndexes { j with state := reconciled.state }
  Op.appendAll (reconciled.repairs.map .commitGroup)
  return reconciled

/-- The restart proper: the epoch advances, authority of earlier epochs is dropped, interrupted
executions are reclassified. Returns the revoked leases and the changed executions. -/
def restartAt (epoch : Nat) : Op (List LeaseRecord × List ExecutionRecord) := do
  Op.setState fun st => { st with epoch := epoch }
  Op.putStoreMeta
  let s ← get
  let revoked := revokedLeases s.state epoch
  Op.putAll (revoked.map .lease)
  let s ← get
  let changed := restartedExecutions s.state epoch
  Op.putAll (changed.map .execution)
  let s ← get
  Op.putAll ((expiredContinuations s.state epoch).map .continuation)
  return (revoked, changed)

def restart : Op (List LeaseRecord × List ExecutionRecord) := do
  let s ← get
  restartAt (s.state.epoch + 1)

/-- `Runtime::open`: a restart advances the epoch, drops all authority of earlier epochs, and
classifies every execution that requires recovery. -/
def openRuntime (config : RuntimeConfig) (entropy : UInt64) : Op OpenOutcome := do
  let s ← get
  refuseIf (s.isOpen = true) (err .alreadyExists "runtime is already open")
  Program.update fun s => { s with config := config, shuttingDown := false }
  let report ← loadState entropy
  let reconciled ← reconcile
  let (revoked, changed) ← restart
  Program.update fun s => { s with isOpen := true }
  let s ← get
  let pending := (s.state.executions.records.filter fun x => x.lifecycle = .recoveryRequired).map
    ExecutionRecord.id
  let notes ← recoverPending { epoch := s.state.epoch } pending
  return {
    previousEpoch := s.state.epoch - 1
    epoch := s.state.epoch
    created := !report.snapshotPresent && report.recordsLoaded = 0
    reclassified := changed.map ExecutionRecord.id
    leasesRevoked := revoked.length
    reconciledCommits := reconciled.repairs.length
    detail := (if reconciled.changed then "reconciled " ++ toString reconciled.repairs.length ++
      " commit(s) whose aggregate update was lost; " else "") ++ notes }

def shutdown : Op Unit := do
  let s ← get
  if s.isOpen = false then
    return ()
  else
    Program.update fun s => { s with
      store := s.store.close
      shuttingDown := true
      sessions := fun _ => none
      requestCache := fun _ => none
      requestOrder := []
      isOpen := false }

/-! ## Maintenance -/

def takeSnapshot (truncateJournal : Bool) : Op Unit := do
  let s ← get
  refuseIf (s.isOpen = false) (err .notFound "runtime is not open")
  Program.update fun s => s.mapJournaled fun j =>
    { j with store := j.store.writeSnapshot j.state truncateJournal }

def flush : Op Unit := do
  let s ← get
  refuseIf (s.isOpen = false) (err .notFound "runtime is not open")

/-! ## Calls, events and runs -/

/-- A public call with its arguments. `entropy` is the store id a missing store is created under. -/
inductive Call
  | openRuntime (config : RuntimeConfig) (entropy : UInt64)
  | shutdown
  | beginSession (worker : WorkerId) (boot : WorkerBootId)
  | endSession (session : SessionId)
  | createExecution (caller : CallerContext) (request : CreateExecutionRequest)
  | updatePolicy (caller : CallerContext) (request : RequestId) (execution : ExecutionId)
      (policy : ExecutionPolicy) (apply : Bool)
  | bindWorker (caller : CallerContext) (request : BindWorkerRequest)
  | start (request : StartRequest)
  | beginAction (request : BeginActionRequest)
  | completeAction (request : CompleteActionRequest)
  | failAction (request : FailActionRequest)
  | reportSideEffect (request : ReportSideEffectRequest)
  | registerCheckpoint (request : RegisterCheckpointRequest)
  | resume (request : ResumeRequest)
  | recover (caller : CallerContext) (request : RequestId) (execution : ExecutionId)
  | resolveAmbiguity (request : ResolveAmbiguityRequest)
  | fence (caller : CallerContext) (request : RequestId) (execution : ExecutionId)
  | retire (caller : CallerContext) (request : RequestId) (execution : ExecutionId)
  | cancel (caller : CallerContext) (request : RequestId) (execution : ExecutionId)
  | drain (caller : CallerContext) (request : RequestId) (execution : ExecutionId)
  | completeExecution (caller : CallerContext) (request : RequestId) (execution : ExecutionId)
  | advanceExecutionGeneration (caller : CallerContext) (request : RequestId)
      (execution : ExecutionId)
  | suspendBegin (caller : CallerContext) (request : RequestId) (execution : ExecutionId)
  | suspendCommit (caller : CallerContext) (request : RequestId) (execution : ExecutionId)
  | takeSnapshot (truncateJournal : Bool)
  | flush
  deriving DecidableEq, Repr

/-- The runtime after a call, whether the call succeeded or was refused. -/
def Call.perform (c : Call) (s : Runtime) : Runtime :=
  match c with
  | .openRuntime config entropy => ((ExecutionFabric.openRuntime config entropy).exec s).2
  | .shutdown => (ExecutionFabric.shutdown.exec s).2
  | .beginSession worker boot => ((ExecutionFabric.beginSession worker boot).exec s).2
  | .endSession session => ((ExecutionFabric.endSession session).exec s).2
  | .createExecution caller request =>
    ((ExecutionFabric.createExecution caller request).exec s).2
  | .updatePolicy caller request execution policy apply =>
    ((ExecutionFabric.updatePolicy caller request execution policy apply).exec s).2
  | .bindWorker caller request => ((ExecutionFabric.bindWorker caller request).exec s).2
  | .start request => ((ExecutionFabric.start request).exec s).2
  | .beginAction request => ((ExecutionFabric.beginAction request).exec s).2
  | .completeAction request => ((ExecutionFabric.completeAction request).exec s).2
  | .failAction request => ((ExecutionFabric.failAction request).exec s).2
  | .reportSideEffect request => ((ExecutionFabric.reportSideEffect request).exec s).2
  | .registerCheckpoint request => ((ExecutionFabric.registerCheckpoint request).exec s).2
  | .resume request => ((ExecutionFabric.resume request).exec s).2
  | .recover caller request execution => ((recoverLocked caller request execution).exec s).2
  | .resolveAmbiguity request => ((ExecutionFabric.resolveAmbiguity request).exec s).2
  | .fence caller request execution => ((ExecutionFabric.fence caller request execution).exec s).2
  | .retire caller request execution => ((ExecutionFabric.retire caller request execution).exec s).2
  | .cancel caller request execution => ((ExecutionFabric.cancel caller request execution).exec s).2
  | .drain caller request execution => ((ExecutionFabric.drain caller request execution).exec s).2
  | .completeExecution caller request execution =>
    ((ExecutionFabric.completeExecution caller request execution).exec s).2
  | .advanceExecutionGeneration caller request execution =>
    ((ExecutionFabric.advanceExecutionGeneration caller request execution).exec s).2
  | .suspendBegin caller request execution =>
    ((ExecutionFabric.suspendBegin caller request execution).exec s).2
  | .suspendCommit caller request execution =>
    ((ExecutionFabric.suspendCommit caller request execution).exec s).2
  | .takeSnapshot truncateJournal => ((ExecutionFabric.takeSnapshot truncateJournal).exec s).2
  | .flush => (ExecutionFabric.flush.exec s).2

/-- The status a program returns, without the value beside it. -/
def Op.status {α : Type} (m : Op α) (s : Runtime) : Except Status Unit :=
  (m.exec s).1.map fun _ => ()

/-- The status a call returns. -/
def Call.status (c : Call) (s : Runtime) : Except Status Unit :=
  match c with
  | .openRuntime config entropy => Op.status (ExecutionFabric.openRuntime config entropy) s
  | .shutdown => Op.status ExecutionFabric.shutdown s
  | .beginSession worker boot => Op.status (ExecutionFabric.beginSession worker boot) s
  | .endSession session => Op.status (ExecutionFabric.endSession session) s
  | .createExecution caller request =>
    Op.status (ExecutionFabric.createExecution caller request) s
  | .updatePolicy caller request execution policy apply =>
    Op.status (ExecutionFabric.updatePolicy caller request execution policy apply) s
  | .bindWorker caller request => Op.status (ExecutionFabric.bindWorker caller request) s
  | .start request => Op.status (ExecutionFabric.start request) s
  | .beginAction request => Op.status (ExecutionFabric.beginAction request) s
  | .completeAction request => Op.status (ExecutionFabric.completeAction request) s
  | .failAction request => Op.status (ExecutionFabric.failAction request) s
  | .reportSideEffect request => Op.status (ExecutionFabric.reportSideEffect request) s
  | .registerCheckpoint request => Op.status (ExecutionFabric.registerCheckpoint request) s
  | .resume request => Op.status (ExecutionFabric.resume request) s
  | .recover caller request execution => Op.status (recoverLocked caller request execution) s
  | .resolveAmbiguity request => Op.status (ExecutionFabric.resolveAmbiguity request) s
  | .fence caller request execution => Op.status (ExecutionFabric.fence caller request execution) s
  | .retire caller request execution =>
    Op.status (ExecutionFabric.retire caller request execution) s
  | .cancel caller request execution =>
    Op.status (ExecutionFabric.cancel caller request execution) s
  | .drain caller request execution => Op.status (ExecutionFabric.drain caller request execution) s
  | .completeExecution caller request execution =>
    Op.status (ExecutionFabric.completeExecution caller request execution) s
  | .advanceExecutionGeneration caller request execution =>
    Op.status (ExecutionFabric.advanceExecutionGeneration caller request execution) s
  | .suspendBegin caller request execution =>
    Op.status (ExecutionFabric.suspendBegin caller request execution) s
  | .suspendCommit caller request execution =>
    Op.status (ExecutionFabric.suspendCommit caller request execution) s
  | .takeSnapshot truncateJournal => Op.status (ExecutionFabric.takeSnapshot truncateJournal) s
  | .flush => Op.status ExecutionFabric.flush s

/-- One step of the system: a public call, or the loss of the process. A lost process leaves the
journal up to the record numbered `kept`; records a snapshot covers are flushed and stay. -/
inductive Event
  | call (c : Call)
  | crash (kept : Nat)
  deriving DecidableEq, Repr

/-- A fresh process on the directory the lost one left. -/
def Runtime.crashed (s : Runtime) (kept : Nat) : Runtime :=
  { store :=
      { directory := s.store.directory.map fun d => d.cut (max kept d.snapshotSequence)
        history := s.store.history } }

def Event.perform (e : Event) (s : Runtime) : Runtime :=
  match e with
  | .call c => c.perform s
  | .crash kept => s.crashed kept

/-- `Runs allow s events s'`: the events, each admitted in the state it meets, lead from `s` to
`s'`. -/
inductive Runs (allow : Runtime → Event → Prop) : Runtime → List Event → Runtime → Prop
  | nil (s : Runtime) : Runs allow s [] s
  | cons {s s' : Runtime} {e : Event} {events : List Event} (h : allow s e)
      (rest : Runs allow (e.perform s) events s') : Runs allow s (e :: events) s'

/-- A state some admitted run from a fresh process without a store ends in. -/
def Reachable (allow : Runtime → Event → Prop) (s : Runtime) : Prop :=
  ∃ events, Runs allow {} events s

end ExecutionFabric
