import ExecutionFabric.Model.Records

/-!
# Recovery classification

Classification is a pure function of durable state and policy: it decides how an
interrupted execution may continue, and explains the decision from record fields.
The interrupted action is classified by `classifyInFlight`, the remaining durable
points by `classifyAtRest`.
-/
namespace ExecutionFabric

inductive RecoveryDecision
  | resumeFromCurrent | resumeFromCheckpoint | replaySafeAction | revalidateBindings | recompute
  | compensate | ambiguousCompletion | manualResolutionRequired | unsupported | terminal
  deriving DecidableEq, Repr

/-- The numeric form stored in a recovery record. -/
def RecoveryDecision.ordinal : RecoveryDecision → UInt8
  | .resumeFromCurrent => 0
  | .resumeFromCheckpoint => 1
  | .replaySafeAction => 2
  | .revalidateBindings => 3
  | .recompute => 4
  | .compensate => 5
  | .ambiguousCompletion => 6
  | .manualResolutionRequired => 7
  | .unsupported => 8
  | .terminal => 9

/-- The decision a stored byte stands for; a byte above 9 stands for none. -/
def RecoveryDecision.ofOrdinal (b : UInt8) : Option RecoveryDecision :=
  [.resumeFromCurrent, .resumeFromCheckpoint, .replaySafeAction, .revalidateBindings, .recompute,
    .compensate, .ambiguousCompletion, .manualResolutionRequired, .unsupported,
    .terminal][b.toNat]?

theorem RecoveryDecision.ofOrdinal_ordinal (d : RecoveryDecision) :
    RecoveryDecision.ofOrdinal d.ordinal = some d := by
  cases d <;> rfl

def recoveryDecisionName : RecoveryDecision → String
  | .resumeFromCurrent => "RESUME_FROM_CURRENT"
  | .resumeFromCheckpoint => "RESUME_FROM_CHECKPOINT"
  | .replaySafeAction => "REPLAY_SAFE_ACTION"
  | .revalidateBindings => "REVALIDATE_BINDINGS"
  | .recompute => "RECOMPUTE"
  | .compensate => "COMPENSATE"
  | .ambiguousCompletion => "AMBIGUOUS_COMPLETION"
  | .manualResolutionRequired => "MANUAL_RESOLUTION_REQUIRED"
  | .unsupported => "UNSUPPORTED"
  | .terminal => "TERMINAL"

def recoveryAllowsAutomaticContinue : RecoveryDecision → Bool
  | .resumeFromCurrent | .resumeFromCheckpoint | .replaySafeAction | .recompute => true
  | _ => false

structure RecoveryInput where
  execution : Option ExecutionRecord := none
  policy : Option ExecutionPolicy := none
  epoch : Nat := 0
  inFlight : Option ActionRecord := none
  currentCheckpoint : Option CheckpointRecord := none
  candidates : List CheckpointRecord := []
  ambiguity : Option AmbiguityRecord := none
  bindingMismatch : Bool := false
  checkpointUnusable : Bool := false

structure RecoveryPlan where
  decision : RecoveryDecision := .unsupported
  execution : ExecutionId := .nil
  executionGeneration : Nat := 0
  epoch : Nat := 0
  action : ActionId := .nil
  actionGeneration : Nat := 0
  checkpoint : CheckpointId := .nil
  checkpointGeneration : Nat := 0
  continuation : ContinuationId := .nil
  continuationGeneration : Nat := 0
  ambiguity : AmbiguityId := .nil
  ambiguityGeneration : Nat := 0
  commitFromReceipt : Bool := false
  explanation : String := ""
  deriving DecidableEq, Repr

/-- A test of the policy that fails when no policy is stored. -/
def policyHas (policy : Option ExecutionPolicy) (p : ExecutionPolicy → Bool) : Bool :=
  match policy with
  | some q => p q
  | none => false

def forbidsReplay (policy : Option ExecutionPolicy) : Bool :=
  policyHas policy fun p => p.replayAllowance = .forbidReplay

def demandsCompensation (policy : Option ExecutionPolicy) : Bool :=
  policyHas policy fun p => p.ambiguityHandling = .requireCompensation

namespace RecoveryPlan

/-- The plan with its decision and explanation set. -/
def withDecision (plan : RecoveryPlan) (decision : RecoveryDecision) (explanation : String) :
    RecoveryPlan :=
  { plan with decision := decision, explanation := explanation }

end RecoveryPlan

/-- The plan for an execution whose ambiguity `amb` is still open. -/
def classifyOpenAmbiguity (plan : RecoveryPlan) (amb : AmbiguityRecord) (explanation : String) :
    RecoveryPlan :=
  { plan with
    action := amb.action
    actionGeneration := amb.actionGeneration
    decision := if amb.state = .manualResolutionRequired then .manualResolutionRequired
      else .ambiguousCompletion
    explanation := explanation }

/-- An explicit resolution states that the effect of exactly this action did not apply. -/
def resolvedAsNotApplied (ambiguity : Option AmbiguityRecord) (action : ActionRecord) : Bool :=
  match ambiguity with
  | some amb => decide (amb.state = .resolvedNotApplied ∧ amb.action = action.id ∧
      amb.actionGeneration = action.generation)
  | none => false

/-- Step 6: an action that never reached a sealed state decides how execution may proceed. -/
def classifyInFlight (base : RecoveryPlan) (policy : Option ExecutionPolicy)
    (ambiguity : Option AmbiguityRecord) (action : ActionRecord) : RecoveryPlan :=
  let plan := { base with action := action.id, actionGeneration := action.generation }
  let cls := action.effectClass
  match action.status with
  | .effectApplied | .completedUnacknowledged =>
    if cls = .compensatable ∧ demandsCompensation policy then
      plan.withDecision .compensate
        "effect applied but policy requires compensation for COMPENSATABLE actions"
    else
      { plan with
        decision := .resumeFromCurrent
        commitFromReceipt := true
        explanation := "a durable side-effect receipt states the action applied; " ++
          "the logical commit may proceed without replay" }
  | .effectNotApplied =>
    if forbidsReplay policy then
      plan.withDecision .unsupported "effect did not apply but policy forbids replay"
    else
      plan.withDecision .replaySafeAction ("a durable side-effect receipt states the action did not " ++
        "apply; the action may be re-driven")
  | .committed =>
    plan.withDecision .resumeFromCurrent "the interrupted action already holds a durable logical commit"
  | .compensated =>
    plan.withDecision .resumeFromCurrent "the interrupted action was compensated; execution may continue"
  | .abandoned =>
    plan.withDecision .resumeFromCurrent
      "the interrupted action was explicitly abandoned; execution may continue"
  | .prepared | .inFlight | .failed | .ambiguous =>
    if resolvedAsNotApplied ambiguity action then
      if forbidsReplay policy then
        plan.withDecision .unsupported "the effect was resolved as not applied but policy forbids replay"
      else
        plan.withDecision .replaySafeAction ("an explicit resolution established that the effect did " ++
          "not apply; the same logical action may be re-driven under a new generation")
    else if forbidsReplay policy then
      plan.withDecision .unsupported "action was interrupted in flight and policy forbids replay"
    else if autoReplayable cls then
      plan.withDecision .replaySafeAction ("action was interrupted in flight; class " ++
        sideEffectClassName cls ++ " permits re-driving the same logical action")
    else if cls = .compensatable ∧ demandsCompensation policy then
      plan.withDecision .compensate "action was interrupted in flight and policy requires compensation"
    else
      plan.withDecision
        (if policyHas policy fun p => decide (p.ambiguityHandling = .manualResolutionRequired)
          then .manualResolutionRequired else .ambiguousCompletion)
        ("action was interrupted in flight with class " ++ sideEffectClassName cls ++
          " and no durable receipt; the physical outcome is unknown")

/-- The candidate recovery prefers: the newest, or the newest at or before the frontier. -/
def chosenCandidate (policy : Option ExecutionPolicy) (execution : ExecutionRecord)
    (front : CheckpointRecord) (candidates : List CheckpointRecord) : CheckpointRecord :=
  if policyHas policy fun p => p.recoveryPreference = .preferCheckpointBeforeInterruption then
    (candidates.find? fun c => c.effectBoundaryOrdinal ≤ execution.actionFrontier).getD front
  else front

/-- Step 7: no interrupted action; a checkpoint or the progress frontier is the durable point. -/
def classifyAtRest (plan : RecoveryPlan) (input : RecoveryInput) (execution : ExecutionRecord) :
    RecoveryPlan :=
  let preferCheckpoint :=
    policyHas input.policy fun p => p.recoveryPreference ≠ .requireManualSelection
  let seedable := match input.currentCheckpoint with
    | some c => if checkpointCanSeedContinuation c.state then some c else none
    | none => none
  match preferCheckpoint, seedable, input.candidates with
  | true, some c, _ =>
    { plan with
      decision := .resumeFromCurrent
      checkpoint := c.id
      checkpointGeneration := c.generation
      explanation := "the current checkpoint is verified and binds the current generations" }
  | true, none, front :: rest =>
    let chosen := chosenCandidate input.policy execution front (front :: rest)
    { plan with
      decision := .resumeFromCheckpoint
      checkpoint := chosen.id
      checkpointGeneration := chosen.generation
      explanation := "no action is in flight; resuming from checkpoint generation " ++
        toString chosen.generation }
  | _, _, _ =>
    if policyHas input.policy fun p => p.recoveryPreference = .requireManualSelection then
      plan.withDecision .manualResolutionRequired "policy requires an explicit continuation selection"
    else
      plan.withDecision .resumeFromCurrent ("no action is in flight; the durable progress frontier is " ++
        "a legal continuation point")

/-- The open ambiguity of the input, if there is one. -/
def RecoveryInput.openAmbiguity (input : RecoveryInput) : Option AmbiguityRecord :=
  input.ambiguity.filter fun amb => ambiguityIsOpen amb.state

def classifyRecovery (input : RecoveryInput) : RecoveryPlan :=
  match input.execution with
  | none => { decision := .unsupported, explanation := "no durable execution record" }
  | some execution =>
    let plan : RecoveryPlan :=
      { execution := execution.id
        executionGeneration := execution.generation
        epoch := input.epoch
        continuation := execution.continuation
        continuationGeneration := execution.continuationGeneration
        checkpoint := execution.checkpoint
        checkpointGeneration := execution.checkpointGeneration
        ambiguity := execution.ambiguity
        ambiguityGeneration := execution.ambiguityGeneration }
    if isTerminalState execution.lifecycle then
      plan.withDecision .terminal ("lifecycle is " ++ lifecycleName execution.lifecycle)
    else if execution.lifecycle = .failed ∧
        ¬ policyHas input.policy fun p => p.allowRecoveryFromFailed then
      plan.withDecision .terminal "execution failed and policy does not allow recovery from FAILED"
    else
      match execution.blocked, input.openAmbiguity with
      | true, some amb =>
        classifyOpenAmbiguity plan amb ("progress above ordinal " ++
          toString execution.blockedAboveOrdinal ++ " is blocked by an unresolved ambiguity")
      | _, openAmbiguity =>
        if input.bindingMismatch then
          if policyHas input.policy fun p => p.staleBindingBehavior = .refuse then
            plan.withDecision .unsupported
              "a required binding generation changed and policy refuses revalidation"
          else
            plan.withDecision .revalidateBindings
              "a required binding generation changed; the continuation requires revalidation"
        else
          match openAmbiguity with
          | some amb =>
            classifyOpenAmbiguity plan amb ("ambiguity is " ++ ambiguityStateName amb.state ++
              " for action ordinal " ++ toString amb.actionOrdinal)
          | none =>
            if input.checkpointUnusable then
              plan.withDecision .unsupported
                "a referenced checkpoint is missing, corrupt, or unsupported"
            else
              match input.inFlight with
              | some action => classifyInFlight plan input.policy input.ambiguity action
              | none => classifyAtRest plan input execution

end ExecutionFabric
