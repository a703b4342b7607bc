import ExecutionFabric.Model.Continuations

/-!
# Recovery and ambiguity resolution

Recovery classifies an execution and applies the durable consequences that are
safe without an operator: it commits from a receipt, or records an ambiguity. An
ambiguity is closed by an explicit resolution.
-/
namespace ExecutionFabric

open Lib Program

variable [AppendLimit]

/-- The newest action that has not reached a settled state. -/
def unsettledLatest (latest : Option ActionRecord) : Option ActionRecord :=
  latest.filter fun a => ¬ (a.status = .committed ∨ a.status = .compensated ∨ a.status = .abandoned)

/-- The current checkpoint cannot be interpreted. -/
def checkpointUnusable (st : DurableState) (x : ExecutionRecord) : Bool :=
  x.checkpoint.valid &&
    match st.checkpoints.find x.checkpoint with
    | none => true
    | some c => decide (c.state = .corrupt ∨ c.state = .unsupported)

/-- The current checkpoint when it may seed a continuation. -/
def seedingCheckpoint (st : DurableState) (x : ExecutionRecord) : Option CheckpointRecord :=
  if x.checkpoint.valid = true then
    (st.checkpoints.find x.checkpoint).filter fun c => checkpointCanSeedContinuation c.state
  else none

/-- Seedable checkpoints of an execution in descending generation order. -/
def seedableCandidates (st : DurableState) (execution : ExecutionId) : List CheckpointRecord :=
  (st.checkpoints.canonicalOrder.filter fun c =>
    c.execution = execution ∧ checkpointCanSeedContinuation c.state = true).insertionSort
      fun a b => a.generation ≥ b.generation

/-- The ambiguity record an execution refers to. -/
def currentAmbiguity (st : DurableState) (x : ExecutionRecord) : Option AmbiguityRecord :=
  if x.ambiguity.valid = true then st.ambiguities.find x.ambiguity else none

/-- The classification input `recover_locked` and `classify` collect. -/
def recoveryInput (j : Journaled) (x : ExecutionRecord) : RecoveryInput :=
  { execution := some x
    policy := policyOf j.state x
    epoch := j.state.epoch
    inFlight := unsettledLatest (j.latestAction x.id)
    currentCheckpoint := seedingCheckpoint j.state x
    candidates := seedableCandidates j.state x.id
    ambiguity := currentAmbiguity j.state x
    checkpointUnusable := checkpointUnusable j.state x }

def opensAmbiguity (decision : RecoveryDecision) : Bool :=
  decision = .ambiguousCompletion || decision = .manualResolutionRequired ||
    decision = .compensate

/-- The ambiguity a recovery records: the open one the execution refers to, or a new one. -/
def recordedAmbiguity (st : DurableState) (x : ExecutionRecord) (plan : RecoveryPlan)
    (action : ActionRecord) : AmbiguityRecord :=
  let fresh (generation : Nat) : AmbiguityRecord :=
    { id := deriveAmbiguityId x.id action.id generation
      generation := generation
      execution := x.id
      executionGeneration := x.generation
      action := action.id
      actionGeneration := action.generation
      effectClass := action.effectClass
      actionOrdinal := action.sequence
      state := if plan.decision = .ambiguousCompletion then .open else .manualResolutionRequired
      reason := text plan.explanation }
  match currentAmbiguity st x with
  | some existing =>
    if ambiguityIsOpen existing.state = true then existing else fresh (existing.generation + 1)
  | none => fresh 1

/-- The execution pointing at the recorded ambiguity, its frontier blocked where policy says so. -/
def blockedBy (st : DurableState) (x : ExecutionRecord) (ambiguity : AmbiguityRecord)
    (action : ActionRecord) : ExecutionRecord :=
  let next := { x with
    ambiguity := ambiguity.id
    ambiguityGeneration := ambiguity.generation }
  if (policyOf st x).all fun p => p.ambiguityBlocksLaterProgress then
    { next with blocked := true, blockedAboveOrdinal := action.sequence - 1 }
  else next

/-- The recovery record of a classification applied to `next`. -/
def recoveryRecordOf (st : DurableState) (x next : ExecutionRecord) (plan : RecoveryPlan)
    (inFlight : Option ActionRecord) : RecoveryRecord :=
  { id := deriveRecoveryId x.id (x.recoveryGeneration + 1)
    generation := x.recoveryGeneration + 1
    execution := x.id
    executionGeneration := x.generation
    decision := plan.decision.ordinal
    continuation := next.continuation
    continuationGeneration := next.continuationGeneration
    checkpoint := next.checkpoint
    checkpointGeneration := next.checkpointGeneration
    epoch := st.epoch
    evidence := (inFlight.map (·.receipt)).getD {}
    explanation := text plan.explanation }

/-- The execution after the classification `plan`, pointing at its recovery record. -/
def recoveredExecution (st : DurableState) (x next : ExecutionRecord) (plan : RecoveryPlan) :
    ExecutionRecord :=
  { next with
    recovery := deriveRecoveryId x.id (x.recoveryGeneration + 1)
    recoveryGeneration := x.recoveryGeneration + 1
    lifecycle := if x.lifecycle = .recoveryRequired ∧
        recoveryAllowsAutomaticContinue plan.decision = true then .recovering else next.lifecycle
    epoch := st.epoch }

structure RecoveryOutcome where
  plan : RecoveryPlan := {}
  applied : Bool := false
  committed : Bool := false
  commit : CommitId := .nil
  recovery : RecoveryId := .nil
  recoveryGeneration : Nat := 0
  ambiguity : AmbiguityId := .nil
  ambiguityGeneration : Nat := 0
  continuation : ContinuationId := .nil
  continuationGeneration : Nat := 0
  deriving DecidableEq, Repr

/-- The execution with the checkpoint the plan resumes from. -/
def atPlannedCheckpoint (x : ExecutionRecord) (plan : RecoveryPlan) : ExecutionRecord :=
  if plan.decision = .resumeFromCheckpoint ∧ plan.checkpoint.valid = true then
    { x with checkpoint := plan.checkpoint, checkpointGeneration := plan.checkpointGeneration }
  else x

/-- The interrupted action a plan names. -/
def plannedAction (st : DurableState) (plan : RecoveryPlan) : Option ActionRecord :=
  if plan.action.valid = true then st.findAction plan.action plan.actionGeneration else none

/-- Records the ambiguity a plan demands and returns the execution that refers to it. -/
def recordAmbiguity (x : ExecutionRecord) (plan : RecoveryPlan) (inFlight : Option ActionRecord) :
    Op ExecutionRecord := do
  let s ← get
  match opensAmbiguity plan.decision, inFlight with
  | true, some action =>
    let ambiguity := recordedAmbiguity s.state x plan action
    Op.put (.ambiguity ambiguity)
    Op.put (.action { action with status := .ambiguous })
    return blockedBy s.state x ambiguity action
  | _, _ => return x

/-- Commits from a durable receipt where the plan allows it; returns the promoted execution. -/
def commitFromReceipt (x next : ExecutionRecord) (plan : RecoveryPlan) (request : RequestId)
    (inFlight : Option ActionRecord) : Op (ExecutionRecord × CommitId) := do
  match plan.commitFromReceipt, inFlight with
  | true, some action =>
    let group ← stageCommit x action request action.receipt
    let s ← get
    return ((s.state.executions.find x.id).getD next, group.commit.id)
  | _, _ => return (next, .nil)

/-- Applies the durable consequences of a classification. -/
def applyRecovery (request : RequestId) (x : ExecutionRecord) (plan : RecoveryPlan)
    (inFlight : Option ActionRecord) : Op RecoveryOutcome := do
  let s ← get
  let blocked ← recordAmbiguity x plan inFlight
  let (promoted, commit) ← commitFromReceipt x blocked plan request inFlight
  let next := atPlannedCheckpoint promoted plan
  let recovery := recoveryRecordOf s.state x next plan inFlight
  provided (x.lifecycle = .recoveryRequired ∧
      recoveryAllowsAutomaticContinue plan.decision = true)
    (requireTransition next.lifecycle .recovering "recover")
  Op.put (.recovery recovery)
  Op.put (.execution (recoveredExecution s.state x next plan))
  rememberRequest request ⟨recovery.id.value, plan.decision.ordinal.toUInt64⟩
  return {
    plan := plan
    applied := true
    committed := plan.commitFromReceipt && inFlight.isSome
    commit := commit
    recovery := recovery.id
    recoveryGeneration := recovery.generation
    ambiguity := next.ambiguity
    ambiguityGeneration := next.ambiguityGeneration
    continuation := next.continuation
    continuationGeneration := next.continuationGeneration }

/-- The plan a recovery would follow; nothing is written. -/
def classify (caller : CallerContext) (executionId : ExecutionId) : Op RecoveryPlan := do
  let x ← findChecked caller executionId
  let s ← get
  return classifyRecovery (recoveryInput s.toJournaled x)

def recoverLocked (caller : CallerContext) (request : RequestId) (executionId : ExecutionId) :
    Op RecoveryOutcome := do
  let x ← findChecked caller executionId
  refuseIf (isTerminalState x.lifecycle = true)
    (err .lifecycleRefused ("cannot recover an execution that is " ++ lifecycleName x.lifecycle))
  let s ← get
  let plan := classifyRecovery (recoveryInput s.toJournaled x)
  applyRecovery request x plan (plannedAction s.state plan)

/-! ## Ambiguity resolution -/

structure ResolveAmbiguityRequest where
  request : RequestId := .nil
  caller : CallerContext := {}
  execution : ExecutionId := .nil
  ambiguity : AmbiguityId := .nil
  ambiguityGeneration : Nat := 0
  resolution : AmbiguityState := .manualResolutionRequired
  evidence : Evidence := {}
  note : Bytes := []
  deriving DecidableEq, Repr

structure ResolveAmbiguityResult where
  state : AmbiguityState := .open
  committed : Bool := false
  commit : CommitId := .nil
  progressGeneration : Nat := 0
  replayAdmitted : Bool := false
  ambiguity : AmbiguityId := .nil
  ambiguityGeneration : Nat := 0
  action : ActionId := .nil
  actionGeneration : Nat := 0
  deriving DecidableEq, Repr

/-- The durable ordinal of an ambiguity state. -/
def AmbiguityState.ordinal : AmbiguityState → UInt64
  | .open => 0
  | .resolvedApplied => 1
  | .resolvedNotApplied => 2
  | .accepted => 3
  | .abandoned => 4
  | .manualResolutionRequired => 5

def ExecutionRecord.unblocked (x : ExecutionRecord) : ExecutionRecord :=
  { x with blocked := false, blockedAboveOrdinal := 0 }

/-- The ambiguity with its resolution. -/
def resolvedAmbiguity (amb : AmbiguityRecord) (request : ResolveAmbiguityRequest) :
    AmbiguityRecord :=
  { amb with
    state := request.resolution
    resolutionEvidence := request.evidence
    resolutionNote := request.note }

/-- Applies a resolution to the ambiguous action. Returns the execution it leaves, with the commit
and progress generation where the resolution commits. -/
def applyResolution (x : ExecutionRecord) (action : ActionRecord)
    (request : ResolveAmbiguityRequest) : Op (ExecutionRecord × Option (CommitId × Nat)) :=
  match request.resolution with
  | .resolvedApplied | .accepted => do
    let group ← stageCommit x action request.request request.evidence
    let s ← get
    return (((s.state.executions.find x.id).getD x).unblocked,
      some (group.commit.id, group.commit.progressGeneration))
  | .resolvedNotApplied => do
    Op.put (.action { action with status := .failed, receipt := request.evidence })
    return (x.unblocked, none)
  | .abandoned => do
    Op.put (.action { action with status := .abandoned, receipt := request.evidence })
    return (x.unblocked, none)
  | .open | .manualResolutionRequired => return ({ x with blocked := true }, none)

def resolveAmbiguity (request : ResolveAmbiguityRequest) : Op ResolveAmbiguityResult := do
  let x ← findChecked request.caller request.execution
  let s ← get
  let amb ← require (s.state.ambiguities.find request.ambiguity)
    (err .notFound "ambiguity record is not present in the durable store")
  refuseIf (amb.execution ≠ request.execution)
    (err .invalidArgument "ambiguity does not belong to this execution")
  refuseIf (amb.generation ≠ request.ambiguityGeneration)
    (err .staleContinuation "ambiguity generation does not match")
  refuseIf (ambiguityIsOpen amb.state = false)
    (err .duplicateRequest "ambiguity is already resolved")
  let action ← require (s.state.actions.find amb.actionKey)
    (err .corruptState "the ambiguous action is missing from the durable store")
  refuseIf (request.resolution = .open) (err .invalidArgument "OPEN is not a resolution")
  let resolved := resolvedAmbiguity amb request
  let (next, commit) ← applyResolution x action request
  Op.put (.ambiguity resolved)
  Op.put (.execution next)
  rememberRequest request.request ⟨resolved.id.value, resolved.state.ordinal⟩
  return {
    state := resolved.state
    committed := commit.isSome
    commit := (commit.map (·.1)).getD .nil
    progressGeneration := (commit.map (·.2)).getD x.progressGeneration
    replayAdmitted := request.resolution = .resolvedNotApplied
    ambiguity := resolved.id
    ambiguityGeneration := resolved.generation
    action := action.id
    actionGeneration := action.generation }

end ExecutionFabric
