import ExecutionFabric.Model.Actions

/-!
# Checkpoints, continuation validity and resume

A checkpoint supersedes the previous one and mints the continuation of the new
durable point. Resume installs the offered bindings, validates the continuation it
mints against the state it just wrote, and only then enters RUNNING.
-/
namespace ExecutionFabric

open Lib Program

variable [AppendLimit]

structure RegisterCheckpointRequest where
  request : RequestId := .nil
  token : LeaseToken := {}
  expectedCheckpoint : CheckpointId := .nil
  expectedCheckpointGeneration : Nat := 0
  contentSize : UInt64 := 0
  contentHash : UInt64 := 0
  effectBoundaryOrdinal : UInt64 := 0
  deriving DecidableEq, Repr

structure RegisterCheckpointResult where
  checkpoint : CheckpointId := .nil
  checkpointGeneration : Nat := 0
  state : CheckpointState := .created
  continuation : ContinuationId := .nil
  continuationGeneration : Nat := 0
  lineageDepth : Nat := 0
  deriving DecidableEq, Repr

/-- The lineage depth under the current checkpoint, or why the lineage is unusable. -/
def lineageDepth (st : DurableState) (x : ExecutionRecord) : Except Status Nat :=
  if x.checkpoint.valid = true then
    match st.checkpoints.find x.checkpoint with
    | none => .error (err .corruptState "the checkpoint lineage parent is missing")
    | some parent =>
      if parent.execution ≠ x.id then
        .error (err .corruptState
          "the checkpoint lineage parent belongs to another execution")
      else .ok (parent.lineageDepth + 1)
  else .ok 0

/-- The checkpoint record of a registration. -/
def registeredCheckpoint (st : DurableState) (x : ExecutionRecord)
    (request : RegisterCheckpointRequest) (depth : Nat) : CheckpointRecord :=
  { id := deriveCheckpointId x.id (x.checkpointGeneration + 1)
    generation := x.checkpointGeneration + 1
    execution := x.id
    executionGeneration := x.generation
    incarnationGeneration := x.incarnationGeneration
    progressGeneration := x.progressGeneration
    actionGeneration := x.actionGeneration
    policy := x.policy
    policyGeneration := x.policyGeneration
    bindings := x.bindings
    epoch := st.epoch
    worker := x.worker
    boot := x.boot
    parent := x.checkpoint
    parentGeneration := x.checkpointGeneration
    lineageDepth := depth
    effectBoundaryOrdinal :=
      if request.effectBoundaryOrdinal.toNat > x.actionFrontier then x.actionFrontier
      else request.effectBoundaryOrdinal.toNat
    contentSize := request.contentSize
    contentHash := request.contentHash
    state := .verified }

/-- The previous checkpoint, demoted unless it already is superseded. -/
def demotedCheckpoint (st : DurableState) (x : ExecutionRecord) :
    Option CheckpointRecord :=
  if x.checkpoint.valid = true then
    match st.checkpoints.find x.checkpoint with
    | some previous =>
      if previous.state ≠ .superseded then
        some { previous with
          state := if policyHas (policyOf st x) fun p => p.allowOlderCheckpoints then .verified
            else .superseded }
      else none
    | none => none
  else none

def registerCheckpoint (request : RegisterCheckpointRequest) : Op RegisterCheckpointResult := do
  let x ← authorize request.token
  let s ← get
  match lookupRequest s request.request with
  | some cached =>
    match s.state.checkpoints.find ⟨cached.a⟩ with
    | some c => return {
        checkpoint := ⟨cached.a⟩
        checkpointGeneration := c.generation
        state := c.state
        lineageDepth := c.lineageDepth }
    | none => return { checkpoint := ⟨cached.a⟩ }
  | none =>
    refuseIf (x.lifecycle ≠ .running ∧ x.lifecycle ≠ .checkpointing)
      (err .lifecycleRefused ("cannot register a checkpoint while the execution is " ++
        lifecycleName x.lifecycle))
    refuseIf (request.contentHash = 0)
      (err .invalidArgument "a checkpoint must carry a non-zero content integrity digest")
    refuseIf (request.expectedCheckpoint ≠ x.checkpoint ∨
        request.expectedCheckpointGeneration ≠ x.checkpointGeneration)
      (err .staleCheckpointGeneration
        "the checkpoint the caller believes is current is not the current checkpoint")
    let working := { x with lifecycle := .checkpointing }
    -- CHECKPOINTING is durable before the checkpoint record exists.
    provided (x.lifecycle = .running) do
      requireTransition x.lifecycle .checkpointing "checkpoint"
      Op.put (.execution working)
    let depth ← check (lineageDepth s.state x)
    let checkpoint := registeredCheckpoint s.state x request depth
    Op.put (.checkpoint checkpoint)
    let s ← get
    Op.putAll ((demotedCheckpoint s.state x).toList.map .checkpoint)
    let next := { working with
      checkpoint := checkpoint.id
      checkpointGeneration := checkpoint.generation
      lifecycle := if isLegalTransition .checkpointing .running then .running
        else .checkpointing }
    let continuation := mintContinuation s.state x next .valid next.actionFrontier
    retireOtherContinuations x.id continuation.id
    Op.put (.continuation continuation)
    Op.put (.execution (next.continuedBy continuation))
    rememberRequest request.request ⟨checkpoint.id.value, 0⟩
    return {
      checkpoint := checkpoint.id
      checkpointGeneration := checkpoint.generation
      state := checkpoint.state
      continuation := continuation.id
      continuationGeneration := continuation.generation
      lineageDepth := checkpoint.lineageDepth }

/-! ## Continuation validity -/

/-- A verdict on a continuation and its reason. -/
abbrev ContinuationVerdict := ContinuationState × String

/-- The referenced checkpoint of a continuation that cannot be supported at all, if it is one. -/
def unsupportableCheckpoint (st : DurableState) (c : ContinuationRecord) :
    Option ContinuationVerdict :=
  if c.checkpoint.valid = true then
    match st.checkpoints.find c.checkpoint with
    | none => some (.invalid, "continuation references a checkpoint that does not exist")
    | some checkpoint =>
      if checkpoint.state = .corrupt ∨ checkpoint.state = .unsupported then
        some (.unsupported, "referenced checkpoint state is " ++
          checkpointStateName checkpoint.state)
      else none
  else none

/-- An open ambiguity at or below the resume point of the continuation. -/
def ambiguityDominates (st : DurableState) (x : ExecutionRecord) (c : ContinuationRecord) : Bool :=
  x.blocked && x.ambiguity.valid &&
    match st.ambiguities.find x.ambiguity with
    | some amb => ambiguityIsOpen amb.state && decide (amb.actionOrdinal ≤ c.resumeOrdinal)
    | none => false

/-- A referenced checkpoint that may no longer seed a continuation. -/
def unseedableCheckpoint (st : DurableState) (c : ContinuationRecord) :
    Option ContinuationVerdict :=
  if c.checkpoint.valid = true then
    match st.checkpoints.find c.checkpoint with
    | some checkpoint =>
      if checkpointCanSeedContinuation checkpoint.state = false then
        some (.revalidationRequired, "referenced checkpoint state is " ++
          checkpointStateName checkpoint.state)
      else none
    | none => none
  else none

/-- The verdict once every claimed generation is known to exist. -/
def currencyVerdict (st : DurableState) (x : ExecutionRecord) (c : ContinuationRecord) :
    ContinuationVerdict :=
  let policy := policyOf st x
  if c.epoch ≠ st.epoch then
    (.stale, "continuation was issued under a previous coordinator epoch")
  else if c.incarnationGeneration ≠ x.incarnationGeneration then
    (.stale, "continuation was issued for a previous execution incarnation")
  else if c.executionGeneration ≠ x.generation then
    (.stale, "continuation was issued for a previous execution generation")
  else if c.policyGeneration ≠ x.policyGeneration then
    if policyHas policy fun p => p.policyChangeInvalidatesContinuations then
      (.invalid, "continuation was issued under a policy generation that has been replaced")
    else (.revalidationRequired, "continuation was issued under a previous policy generation")
  else if c.bindings.refs.length ≠ x.bindings.refs.length ∨
      c.bindings.equalsGenerations x.bindings = false then
    if policyHas policy fun p => p.staleBindingBehavior = .refuse then
      (.invalid, "a required binding generation changed and policy refuses revalidation")
    else (.revalidationRequired, "a required binding generation changed")
  else (unseedableCheckpoint st c).getD
    (.valid, "all bound generations are current and the durable point is not ambiguous")

/-- Validates a continuation record against durable state. -/
def validateContinuationState (st : DurableState) (c : ContinuationRecord) :
    ContinuationVerdict :=
  match st.executions.find c.execution with
  | none => (.invalid, "continuation references an execution that does not exist")
  | some x =>
    if c.executionGeneration > x.generation then
      (.invalid, "continuation claims an execution generation that does not exist")
    else if c.progressGeneration > x.progressGeneration then
      (.invalid, "continuation claims progress beyond the authoritative frontier")
    else if c.actionGeneration > x.actionGeneration then
      (.invalid, "continuation claims an action generation that does not exist")
    else if c.resumeOrdinal > x.actionFrontier then
      (.invalid, "continuation claims a resume ordinal beyond the action frontier")
    else
      match unsupportableCheckpoint st c with
      | some verdict => verdict
      | none =>
        if c.checkpointGeneration > x.checkpointGeneration then
          (.invalid, "continuation claims a checkpoint generation that does not exist")
        else if ambiguityDominates st x c = true then
          (.ambiguous, "an unresolved ambiguous action sits at or below this continuation point")
        else currencyVerdict st x c

/-! ## Resume -/

structure ResumeRequest where
  request : RequestId := .nil
  token : LeaseToken := {}
  observedBindings : BindingSet := {}
  revalidateBindings : Bool := false
  deriving DecidableEq, Repr

structure ResumeResult where
  continuationState : ContinuationState := .invalid
  lifecycle : Lifecycle := .created
  decision : RecoveryDecision := .unsupported
  deriving DecidableEq, Repr

def isResumable : Lifecycle → Bool
  | .suspended | .recoveryRequired | .recovering | .resuming => true
  | _ => false

/-- Why the recorded recovery does not let a RECOVERY_REQUIRED execution continue, if so. -/
def recoveryDefect (st : DurableState) (x : ExecutionRecord) : Option Status :=
  if x.lifecycle ≠ .recoveryRequired then none
  else if x.recovery.valid = false then
    some (err .lifecycleRefused "execution requires recovery and no recovery has been applied")
  else
    match st.recoveries.find x.recovery with
    | none => some (err .corruptState "the recorded recovery is missing")
    | some recovery =>
      match RecoveryDecision.ofOrdinal recovery.decision with
      | some decision =>
        if recoveryAllowsAutomaticContinue decision then none
        else some (err .policyRefused ("recovery decision " ++ recoveryDecisionName decision ++
          " does not permit automatic continuation"))
      | none => some (err .policyRefused ("recovery decision UNKNOWN_DECISION" ++
          " does not permit automatic continuation"))

def resume (request : ResumeRequest) : Op ResumeResult := do
  let x ← authorize request.token
  let s ← get
  match lookupRequest s request.request with
  | some _ => return { lifecycle := x.lifecycle }
  | none =>
    refuseIf (isResumable x.lifecycle = false)
      (err .lifecycleRefused ("cannot resume an execution that is " ++ lifecycleName x.lifecycle))
    refuseOn (recoveryDefect s.state x)
    refuseIf (x.bindings.equalsGenerations request.observedBindings = false ∧
        request.revalidateBindings = false)
      (err .staleBindingGeneration
        "a required binding generation changed; revalidation is required")
    -- The lifecycle walks RECOVERY_REQUIRED -> RECOVERING -> RESUMING, or SUSPENDED -> RESUMING.
    let entered := if x.lifecycle = .recoveryRequired then .recovering else x.lifecycle
    provided (x.lifecycle = .recoveryRequired)
      (requireTransition x.lifecycle .recovering "resume")
    provided (entered ≠ .resuming) (requireTransition entered .resuming "resume")
    let next := { x with
      bindings := request.observedBindings
      epoch := s.state.epoch
      lifecycle := .resuming }
    Op.put (.execution next)
    let s ← get
    let continuation := mintContinuation s.state next next .valid next.actionFrontier
    let verdict := validateContinuationState s.state continuation
    refuseIf (verdict.1 ≠ .valid)
      (err .staleContinuation ("the continuation minted for resume is not valid: " ++ verdict.2))
    requireTransition next.lifecycle .running "resume"
    retireOtherContinuations x.id continuation.id
    Op.put (.continuation continuation)
    Op.put (.execution { next.continuedBy continuation with lifecycle := .running })
    rememberRequest request.request ⟨0, 0⟩
    return { continuationState := verdict.1, lifecycle := .running }

end ExecutionFabric
