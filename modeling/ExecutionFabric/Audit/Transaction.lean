import ExecutionFabric.Audit.Image

/-!
# Transactions

A transaction is what one operation writes: a list of journal records together with
the facts the operation established before writing them. `Transaction j i es` says
that an operation with intent `i`, started on `j`, may write exactly `es`. The
constructors follow the write paths of the operations, refused paths that already
wrote included; the inversion theorems of the next module show that there are no
others.
-/
namespace ExecutionFabric

open Lib

/-- What an operation set out to do, with the objects its request names. -/
inductive Intent
  | create
  | updatePolicy (execution : ExecutionId)
  | bind (execution : ExecutionId)
  | start (execution : ExecutionId)
  | begin (execution : ExecutionId)
  | complete (execution : ExecutionId) (request : RequestId) (key : ActionKey)
  | fail (execution : ExecutionId) (key : ActionKey)
  | report (execution : ExecutionId) (key : ActionKey) (applied : Bool)
  | checkpoint (execution : ExecutionId)
  | resume (execution : ExecutionId)
  | recover (execution : ExecutionId)
  | resolve (execution : ExecutionId) (ambiguity : AmbiguityId) (resolution : AmbiguityState)
  | transition (execution : ExecutionId) (target : Lifecycle)
  | advance (execution : ExecutionId)
  | lose (execution : ExecutionId)

/-- The stored lease an execution holds. -/
def heldLease (st : DurableState) (x : ExecutionRecord) : Option LeaseRecord :=
  if x.lease.valid = true then st.leases.find x.lease else none

/-- The stored Active lease an execution holds. -/
def heldActiveLease (st : DurableState) (x : ExecutionRecord) : Option LeaseRecord :=
  if x.lease.valid = true then activeLease st x else none

/-- The metadata record that advances the execution counter. -/
def advancedMeta (st : DurableState) : StoreMetaRecord :=
  { store := st.store
    epoch := st.epoch
    nextExecutionSequence := st.nextExecutionSequence + 1
    sequence := st.sequence
    schema := persistenceSchemaVersion }

/-- The execution `create_execution` writes. -/
def createdExecution (st : DurableState) : ExecutionRecord :=
  let id := deriveExecutionId st.store st.nextExecutionSequence
  { id := id
    generation := 1
    lifecycle := .created
    policy := derivePolicyId id 1
    policyGeneration := 1
    epoch := st.epoch
    createdSequence := st.nextExecutionSequence }

/-- The execution entering RUNNING by `start`, before its continuation is known. -/
def startedExecution (st : DurableState) (x : ExecutionRecord) : ExecutionRecord :=
  { x with lifecycle := .running, epoch := st.epoch }

/-- The execution entering RESUMING with the bindings the worker offers. -/
def resumingExecution (st : DurableState) (x : ExecutionRecord) (bindings : BindingSet) :
    ExecutionRecord :=
  { x with bindings := bindings, epoch := st.epoch, lifecycle := .resuming }

/-- The execution pointing at its new checkpoint, back in RUNNING. -/
def checkpointedExecution (x : ExecutionRecord) (c : CheckpointRecord) : ExecutionRecord :=
  { x with checkpoint := c.id, checkpointGeneration := c.generation, lifecycle := .running }

/-- The records that make `c` the only Valid continuation and `x` the execution it continues. -/
def continuationRecords (st : DurableState) (x : ExecutionRecord) (c : ContinuationRecord) :
    List JournalEntry :=
  (retiredContinuations st x.id c.id).map .continuation ++
    [.continuation c, .execution (x.continuedBy c)]

/-- The transition of `persist_transition`. -/
def transitioned (st : DurableState) (x : ExecutionRecord) (target : Lifecycle) :
    ExecutionRecord :=
  let next := { x with lifecycle := target }
  if dropsAuthority target = true ∧ x.lease.valid = true then
    { next.withoutLease with epoch := st.epoch }
  else { next with epoch := st.epoch }

/-- The plan of a recovery. -/
def planOf (j : Journaled) (x : ExecutionRecord) : RecoveryPlan :=
  classifyRecovery (recoveryInput j x)

/-- The records every recovery ends with: its own record and the execution it leaves. -/
def recoveryRecords (st : DurableState) (x next : ExecutionRecord) (plan : RecoveryPlan)
    (inFlight : Option ActionRecord) : List JournalEntry :=
  [.recovery (recoveryRecordOf st x (atPlannedCheckpoint next plan) plan inFlight),
    .execution (recoveredExecution st x (atPlannedCheckpoint next plan) plan)]

/-- The records of a recovery that records the ambiguity of `a`. -/
def ambiguityRecords (st : DurableState) (x : ExecutionRecord) (plan : RecoveryPlan)
    (a : ActionRecord) : List JournalEntry :=
  .ambiguity (recordedAmbiguity st x plan a) :: .action { a with status := .ambiguous } ::
    recoveryRecords st x (blockedBy st x (recordedAmbiguity st x plan a) a) plan (some a)

/-- The records of a recovery that commits `a` from its receipt. -/
def receiptRecords (st : DurableState) (x : ExecutionRecord) (plan : RecoveryPlan)
    (a : ActionRecord) (request : RequestId) : List JournalEntry :=
  .commitGroup (commitGroupOf st x a request a.receipt) ::
    recoveryRecords st x (commitGroupOf st x a request a.receipt).execution plan (some a)

/-- The records that enter CHECKPOINTING. -/
def enterCheckpointing (x : ExecutionRecord) : List JournalEntry :=
  if x.lifecycle = .running then [.execution { x with lifecycle := .checkpointing }] else []

/-- The records up to the new checkpoint. -/
def newCheckpointRecords (x : ExecutionRecord) (c : CheckpointRecord) : List JournalEntry :=
  enterCheckpointing x ++ [.checkpoint c]

/-- The records up to the demotion of the previous checkpoint. -/
def demotionRecords (j : Journaled) (x : ExecutionRecord) (c : CheckpointRecord) :
    List JournalEntry :=
  newCheckpointRecords x c ++
    (demotedCheckpoint (j.write (newCheckpointRecords x c)).state x).toList.map .checkpoint

/-- The records of a registered checkpoint. -/
def checkpointRecords (j : Journaled) (x : ExecutionRecord) (c : CheckpointRecord) :
    List JournalEntry :=
  demotionRecords j x c ++
    continuationRecords (j.write (demotionRecords j x c)).state (checkpointedExecution x c)
      (mintContinuation (j.write (newCheckpointRecords x c)).state x (checkpointedExecution x c)
        .valid x.actionFrontier)

/-- The state RESUMING is durable in. -/
def resumingState (j : Journaled) (x : ExecutionRecord) (bindings : BindingSet) : DurableState :=
  (j.put (.execution (resumingExecution j.state x bindings))).state

/-- The continuation `resume` mints. -/
def resumedContinuation (j : Journaled) (x : ExecutionRecord) (bindings : BindingSet) :
    ContinuationRecord :=
  mintContinuation (resumingState j x bindings) (resumingExecution j.state x bindings)
    (resumingExecution j.state x bindings) .valid x.actionFrontier

/-- The records of a resume that reaches RUNNING. -/
def resumeRecords (j : Journaled) (x : ExecutionRecord) (bindings : BindingSet) :
    List JournalEntry :=
  .execution (resumingExecution j.state x bindings) ::
    continuationRecords (resumingState j x bindings)
      { resumingExecution j.state x bindings with lifecycle := .running }
      (resumedContinuation j x bindings)

inductive Transaction (j : Journaled) : Intent → List JournalEntry → Prop
  | create (policy : ExecutionPolicy) (hid : policy.id = (createdExecution j.state).policy) :
      Transaction j .create [.storeMeta (advancedMeta j.state), .policy policy,
        .execution (createdExecution j.state)]
  | updatePolicy {x : ExecutionRecord} (policy : ExecutionPolicy)
      (hx : j.state.executions.find x.id = some x)
      (hgeneration : policy.generation = x.policyGeneration + 1) :
      Transaction j (.updatePolicy x.id)
        (.policy policy :: (leaseAs (heldLease j.state x) .revoked ++
          (demotedContinuations j.state x.id policy).map .continuation ++
          [.execution (underPolicy x policy.generation)]))
  | bind {x : ExecutionRecord} (request : BindWorkerRequest)
      (hx : j.state.executions.find x.id = some x)
      (hworker : request.worker.valid = true) (hboot : request.boot.valid = true)
      (hbindable : isBindable x.lifecycle = true)
      (hlive : x.lease.valid = true → x.boot ≠ request.boot → activeLease j.state x = none) :
      Transaction j (.bind x.id)
        (leaseAs (heldActiveLease j.state x) .superseded ++
          [.lease (grantedLease j.state x request), .execution (boundExecution j.state x request)])
  | start {x : ExecutionRecord} {l : LeaseRecord} (token : LeaseToken)
      (htoken : validateToken j.state token = .ok (x, l)) (hready : x.lifecycle = .ready) :
      Transaction j (.start x.id)
        (continuationRecords j.state (startedExecution j.state x)
          (mintContinuation j.state (startedExecution j.state x) (startedExecution j.state x) .valid
            x.actionFrontier))
  | begin {x : ExecutionRecord} {l : LeaseRecord} (request : BeginActionRequest)
      (htoken : validateToken j.state request.token = .ok (x, l)) (hrunning : x.lifecycle = .running)
      (hblocked : x.blocked = true →
        (begunAction x request (redriven x (j.latestAction x.id))).sequence
          ≤ x.blockedAboveOrdinal) :
      Transaction j (.begin x.id)
        ((redriven x (j.latestAction x.id)).toList.map (fun a => .replay (admittedReplay j.state x
            request a (begunAction x request (redriven x (j.latestAction x.id))))) ++
          [.action (begunAction x request (redriven x (j.latestAction x.id))),
            .execution (dispatched x (begunAction x request (redriven x (j.latestAction x.id)))
              (redriven x (j.latestAction x.id)))])
  | complete {x : ExecutionRecord} {l : LeaseRecord} {a : ActionRecord}
      (request : CompleteActionRequest)
      (htoken : validateToken j.state request.token = .ok (x, l)) (hrunning : x.lifecycle = .running)
      (ha : j.state.findAction request.action request.actionGeneration = some a)
      (hfresh : a.status = .committed → j.state.commits.find a.commit = none)
      (hdefect : completionDefect x request a = none)
      (hcommit : j.state.commits.find
        (commitGroupOf j.state x a request.request request.evidence).commit.id = none) :
      Transaction j (.complete x.id request.request ⟨request.action, request.actionGeneration⟩)
        [.commitGroup (commitGroupOf j.state x a request.request request.evidence)]
  | fail {x : ExecutionRecord} {l : LeaseRecord} {a : ActionRecord} (request : FailActionRequest)
      (htoken : validateToken j.state request.token = .ok (x, l))
      (ha : j.state.findAction request.action request.actionGeneration = some a)
      (howner : a.execution = x.id) (hcommitted : a.status ≠ .committed)
      (hambiguous : a.status ≠ .ambiguous) :
      Transaction j (.fail x.id ⟨request.action, request.actionGeneration⟩)
        [.action { a with status := .failed, receipt := request.evidence }]
  | report {x : ExecutionRecord} {l : LeaseRecord} {a : ActionRecord}
      (request : ReportSideEffectRequest)
      (htoken : validateToken j.state request.token = .ok (x, l))
      (ha : j.state.findAction request.action request.actionGeneration = some a)
      (hcommitted : a.status ≠ .committed) (hambiguous : a.status ≠ .ambiguous)
      (habandoned : a.status ≠ .abandoned) :
      Transaction j (.report x.id ⟨request.action, request.actionGeneration⟩ request.applied)
        [.action (receipted a request.applied request.evidence)]
  | enterCheckpoint {x : ExecutionRecord} {l : LeaseRecord} (request : RegisterCheckpointRequest)
      (htoken : validateToken j.state request.token = .ok (x, l))
      (hlifecycle : x.lifecycle = .running ∨ x.lifecycle = .checkpointing) :
      Transaction j (.checkpoint x.id) (enterCheckpointing x)
  | checkpoint {x : ExecutionRecord} {l : LeaseRecord} {depth : Nat}
      (request : RegisterCheckpointRequest)
      (htoken : validateToken j.state request.token = .ok (x, l))
      (hlifecycle : x.lifecycle = .running ∨ x.lifecycle = .checkpointing)
      (hdepth : lineageDepth j.state x = .ok depth) :
      Transaction j (.checkpoint x.id)
        (checkpointRecords j x (registeredCheckpoint j.state x request depth))
  | enterResume {x : ExecutionRecord} {l : LeaseRecord} (request : ResumeRequest)
      (htoken : validateToken j.state request.token = .ok (x, l))
      (hresumable : isResumable x.lifecycle = true)
      (hrecovery : recoveryDefect j.state x = none) :
      Transaction j (.resume x.id)
        [.execution (resumingExecution j.state x request.observedBindings)]
  | resume {x : ExecutionRecord} {l : LeaseRecord} (request : ResumeRequest)
      (htoken : validateToken j.state request.token = .ok (x, l))
      (hresumable : isResumable x.lifecycle = true)
      (hrecovery : recoveryDefect j.state x = none)
      (hvalid : (validateContinuationState (resumingState j x request.observedBindings)
        (resumedContinuation j x request.observedBindings)).1 = .valid) :
      Transaction j (.resume x.id) (resumeRecords j x request.observedBindings)
  | recoverPlain {x : ExecutionRecord} (hx : j.state.executions.find x.id = some x)
      (hlive : isTerminalState x.lifecycle = false)
      (hopens : opensAmbiguity (planOf j x).decision = true →
        plannedAction j.state (planOf j x) = none)
      (hreceipt : (planOf j x).commitFromReceipt = true →
        plannedAction j.state (planOf j x) = none) :
      Transaction j (.recover x.id)
        (recoveryRecords j.state x x (planOf j x) (plannedAction j.state (planOf j x)))
  | recoverAmbiguous {x : ExecutionRecord} {a : ActionRecord}
      (hx : j.state.executions.find x.id = some x)
      (hlive : isTerminalState x.lifecycle = false)
      (hopens : opensAmbiguity (planOf j x).decision = true)
      (ha : plannedAction j.state (planOf j x) = some a) :
      Transaction j (.recover x.id) (ambiguityRecords j.state x (planOf j x) a)
  | recoverCommit {x : ExecutionRecord} {a : ActionRecord} (request : RequestId)
      (hx : j.state.executions.find x.id = some x)
      (hlive : isTerminalState x.lifecycle = false)
      (hreceipt : (planOf j x).commitFromReceipt = true)
      (ha : plannedAction j.state (planOf j x) = some a)
      (hcommit : j.state.commits.find (commitGroupOf j.state x a request a.receipt).commit.id
        = none) :
      Transaction j (.recover x.id) (receiptRecords j.state x (planOf j x) a request)
  | resolveCommit {x : ExecutionRecord} {amb : AmbiguityRecord} {a : ActionRecord}
      (request : ResolveAmbiguityRequest)
      (hx : j.state.executions.find x.id = some x)
      (hamb : j.state.ambiguities.find request.ambiguity = some amb)
      (howner : amb.execution = x.id) (hopen : ambiguityIsOpen amb.state = true)
      (ha : j.state.actions.find amb.actionKey = some a)
      (hresolution : request.resolution = .resolvedApplied ∨ request.resolution = .accepted)
      (hcommit : j.state.commits.find
        (commitGroupOf j.state x a request.request request.evidence).commit.id = none) :
      Transaction j (.resolve x.id amb.id request.resolution)
        [.commitGroup (commitGroupOf j.state x a request.request request.evidence),
          .ambiguity (resolvedAmbiguity amb request),
          .execution (commitGroupOf j.state x a request.request request.evidence).execution.unblocked]
  | resolveAction {x : ExecutionRecord} {amb : AmbiguityRecord} {a : ActionRecord}
      (request : ResolveAmbiguityRequest) (status : ActionStatus)
      (hx : j.state.executions.find x.id = some x)
      (hamb : j.state.ambiguities.find request.ambiguity = some amb)
      (howner : amb.execution = x.id) (hopen : ambiguityIsOpen amb.state = true)
      (ha : j.state.actions.find amb.actionKey = some a)
      (hresolution : (request.resolution = .resolvedNotApplied ∧ status = .failed) ∨
        (request.resolution = .abandoned ∧ status = .abandoned)) :
      Transaction j (.resolve x.id amb.id request.resolution)
        [.action { a with status := status, receipt := request.evidence },
          .ambiguity (resolvedAmbiguity amb request), .execution x.unblocked]
  | resolveManual {x : ExecutionRecord} {amb : AmbiguityRecord} {a : ActionRecord}
      (request : ResolveAmbiguityRequest)
      (hx : j.state.executions.find x.id = some x)
      (hamb : j.state.ambiguities.find request.ambiguity = some amb)
      (howner : amb.execution = x.id) (hopen : ambiguityIsOpen amb.state = true)
      (ha : j.state.actions.find amb.actionKey = some a)
      (hresolution : request.resolution = .manualResolutionRequired) :
      Transaction j (.resolve x.id amb.id request.resolution)
        [.ambiguity (resolvedAmbiguity amb request), .execution { x with blocked := true }]
  | transition {x : ExecutionRecord} (target : Lifecycle)
      (hx : j.state.executions.find x.id = some x)
      (hlegal : isLegalTransition x.lifecycle target = true)
      (hambiguity : target = .completed ∨ target = .retired → ∀ amb,
        currentAmbiguity j.state x = some amb → ambiguityIsOpen amb.state = false) :
      Transaction j (.transition x.id target)
        ((if dropsAuthority target = true then leaseAs (heldActiveLease j.state x) .revoked else [])
          ++ [.execution (transitioned j.state x target)])
  | advance {x : ExecutionRecord} (hx : j.state.executions.find x.id = some x)
      (hlive : isTerminalState x.lifecycle = false) :
      Transaction j (.advance x.id)
        ((staleContinuations j.state x.id).map .continuation ++
          leaseAs (heldActiveLease j.state x) .revoked ++
          [.execution { nextGeneration x with epoch := j.state.epoch }])
  | lose {x : ExecutionRecord} (hx : j.state.executions.find x.id = some x)
      (hlive : isTerminalState x.lifecycle = false) :
      Transaction j (.lose x.id) (fenceRecords j.state x)

end ExecutionFabric
