import ExecutionFabric.Model.Identity

/-!
# Status codes, lifecycle, side effects and policy

The enumerations and small decision functions every operation consults: the
refusal codes, the lifecycle transition table, the side-effect classes, the
action and ambiguity states, and the persistent policy with its validation.
-/
namespace ExecutionFabric

inductive Code
  | ok | invalidArgument | notFound | alreadyExists | illegalTransition | staleEpoch
  | staleWorkerBoot | staleLease | staleExecutionGeneration | staleIncarnation
  | staleContinuation | staleCheckpointGeneration | stalePolicyGeneration
  | staleBindingGeneration | staleRequest | duplicateRequest | duplicateCommit
  | ambiguousCompletion | unresolvedAmbiguity | authorityRevoked | fenced | lifecycleRefused
  | policyRefused | unsupported | limitExceeded | corruptState | truncatedState
  | persistenceFailure | transportFailure | protocolViolation | shuttingDown | internal
  deriving DecidableEq, Repr

def codeName : Code → String
  | .ok => "OK"
  | .invalidArgument => "INVALID_ARGUMENT"
  | .notFound => "NOT_FOUND"
  | .alreadyExists => "ALREADY_EXISTS"
  | .illegalTransition => "ILLEGAL_TRANSITION"
  | .staleEpoch => "STALE_EPOCH"
  | .staleWorkerBoot => "STALE_WORKER_BOOT"
  | .staleLease => "STALE_LEASE"
  | .staleExecutionGeneration => "STALE_EXECUTION_GENERATION"
  | .staleIncarnation => "STALE_INCARNATION"
  | .staleContinuation => "STALE_CONTINUATION"
  | .staleCheckpointGeneration => "STALE_CHECKPOINT_GENERATION"
  | .stalePolicyGeneration => "STALE_POLICY_GENERATION"
  | .staleBindingGeneration => "STALE_BINDING_GENERATION"
  | .staleRequest => "STALE_REQUEST"
  | .duplicateRequest => "DUPLICATE_REQUEST"
  | .duplicateCommit => "DUPLICATE_COMMIT"
  | .ambiguousCompletion => "AMBIGUOUS_COMPLETION"
  | .unresolvedAmbiguity => "UNRESOLVED_AMBIGUITY"
  | .authorityRevoked => "AUTHORITY_REVOKED"
  | .fenced => "FENCED"
  | .lifecycleRefused => "LIFECYCLE_REFUSED"
  | .policyRefused => "POLICY_REFUSED"
  | .unsupported => "UNSUPPORTED"
  | .limitExceeded => "LIMIT_EXCEEDED"
  | .corruptState => "CORRUPT_STATE"
  | .truncatedState => "TRUNCATED_STATE"
  | .persistenceFailure => "PERSISTENCE_FAILURE"
  | .transportFailure => "TRANSPORT_FAILURE"
  | .protocolViolation => "PROTOCOL_VIOLATION"
  | .shuttingDown => "SHUTTING_DOWN"
  | .internal => "INTERNAL"

/-- A refusal: its code and its diagnostic message. -/
structure Status where
  code : Code
  message : String
  deriving DecidableEq, Repr

def err (code : Code) (message : String) : Status := ⟨code, message⟩

/-- `Status::to_string` of a refusal. -/
def Status.toText (s : Status) : String := codeName s.code ++ ": " ++ s.message

/-- Sixteen lowercase hexadecimal digits, most significant first. -/
def hex64 (v : UInt64) : String :=
  String.ofList <| (List.range 16).reverse.map fun i =>
    Nat.digitChar ((v.toNat / 16 ^ i) % 16)

/-! ## Lifecycle -/

inductive Lifecycle
  | created | ready | running | checkpointing | suspending | suspended | recoveryRequired
  | recovering | resuming | draining | completed | failed | cancelled | fenced | retired
  deriving DecidableEq, Repr, Inhabited

def lifecycleName : Lifecycle → String
  | .created => "CREATED"
  | .ready => "READY"
  | .running => "RUNNING"
  | .checkpointing => "CHECKPOINTING"
  | .suspending => "SUSPENDING"
  | .suspended => "SUSPENDED"
  | .recoveryRequired => "RECOVERY_REQUIRED"
  | .recovering => "RECOVERING"
  | .resuming => "RESUMING"
  | .draining => "DRAINING"
  | .completed => "COMPLETED"
  | .failed => "FAILED"
  | .cancelled => "CANCELLED"
  | .fenced => "FENCED"
  | .retired => "RETIRED"

/-- The row of the transition table: every state that may follow `from`. -/
def legalTargets : Lifecycle → List Lifecycle
  | .created => [.ready, .suspended, .fenced, .cancelled, .retired, .failed]
  | .ready => [.running, .suspended, .fenced, .cancelled, .retired, .failed, .recoveryRequired]
  | .running => [.checkpointing, .suspending, .draining, .suspended, .recoveryRequired, .fenced,
      .failed, .cancelled, .completed]
  | .checkpointing => [.running, .suspending, .suspended, .recoveryRequired, .fenced, .failed,
      .cancelled]
  | .suspending => [.suspended, .recoveryRequired, .fenced, .failed, .cancelled]
  | .suspended => [.resuming, .ready, .recoveryRequired, .fenced, .failed, .cancelled, .retired]
  | .recoveryRequired => [.recovering, .suspended, .fenced, .failed, .cancelled, .retired]
  | .recovering => [.resuming, .recoveryRequired, .suspended, .fenced, .failed, .cancelled]
  | .resuming => [.running, .recoveryRequired, .suspended, .fenced, .failed, .cancelled]
  | .draining => [.completed, .cancelled, .failed, .recoveryRequired, .fenced, .retired,
      .suspended]
  | .completed => [.retired]
  | .failed => [.recoveryRequired, .retired, .cancelled, .fenced]
  | .cancelled => [.retired]
  | .fenced => [.recoveryRequired, .retired, .cancelled]
  | .retired => []

def isLegalTransition (source target : Lifecycle) : Bool := (legalTargets source).contains target

/-- Authority is exercisable; process death here forces reclassification. -/
def isActiveState : Lifecycle → Bool
  | .running | .checkpointing | .suspending | .recovering | .resuming | .draining => true
  | _ => false

def isTerminalState : Lifecycle → Bool
  | .completed | .cancelled | .retired => true
  | _ => false

/-! ## Side effects -/

inductive SideEffectClass
  | pure | idempotent | repeatableWithKey | compensatable | nonRepeatable | unknown
  deriving DecidableEq, Repr, Inhabited

def sideEffectClassName : SideEffectClass → String
  | .pure => "PURE"
  | .idempotent => "IDEMPOTENT"
  | .repeatableWithKey => "REPEATABLE_WITH_KEY"
  | .compensatable => "COMPENSATABLE"
  | .nonRepeatable => "NON_REPEATABLE"
  | .unknown => "UNKNOWN"

/-- The fabric may re-drive the action without an external receipt. -/
def autoReplayable : SideEffectClass → Bool
  | .pure | .idempotent | .repeatableWithKey => true
  | .compensatable | .nonRepeatable | .unknown => false

def requiresRequestKey (cls : SideEffectClass) : Bool := cls = .repeatableWithKey

inductive EvidenceKind
  | none | real | synthetic | unsupported
  deriving DecidableEq, Repr, Inhabited

inductive ActionStatus
  | prepared | inFlight | effectApplied | effectNotApplied | completedUnacknowledged | committed
  | failed | ambiguous | compensated | abandoned
  deriving DecidableEq, Repr, Inhabited

def actionStatusName : ActionStatus → String
  | .prepared => "PREPARED"
  | .inFlight => "IN_FLIGHT"
  | .effectApplied => "EFFECT_APPLIED"
  | .effectNotApplied => "EFFECT_NOT_APPLIED"
  | .completedUnacknowledged => "COMPLETED_UNACKNOWLEDGED"
  | .committed => "COMMITTED"
  | .failed => "FAILED"
  | .ambiguous => "AMBIGUOUS"
  | .compensated => "COMPENSATED"
  | .abandoned => "ABANDONED"

/-- The action identity must never dispatch physically again. -/
def actionIsPhysicallySealed : ActionStatus → Bool
  | .committed | .ambiguous | .compensated | .abandoned | .completedUnacknowledged
  | .effectApplied => true
  | _ => false

inductive AmbiguityState
  | open | resolvedApplied | resolvedNotApplied | accepted | abandoned | manualResolutionRequired
  deriving DecidableEq, Repr, Inhabited

def ambiguityStateName : AmbiguityState → String
  | .open => "OPEN"
  | .resolvedApplied => "RESOLVED_APPLIED"
  | .resolvedNotApplied => "RESOLVED_NOT_APPLIED"
  | .accepted => "ACCEPTED"
  | .abandoned => "ABANDONED"
  | .manualResolutionRequired => "MANUAL_RESOLUTION_REQUIRED"

def ambiguityIsOpen (state : AmbiguityState) : Bool :=
  state = .open || state = .manualResolutionRequired

/-! ## Policy -/

inductive AmbiguityHandling
  | refuseAutomaticRetry | manualResolutionRequired | requireCompensation
  deriving DecidableEq, Repr, Inhabited

inductive RecoveryPreference
  | preferNewestValidCheckpoint | preferCheckpointBeforeInterruption | requireManualSelection
  deriving DecidableEq, Repr, Inhabited

inductive StaleBindingBehavior
  | refuse | requireRevalidation
  deriving DecidableEq, Repr

inductive ReplayAllowance
  | safeClassesOnly | allowCompensatedReplay | forbidReplay
  deriving DecidableEq, Repr, Inhabited

inductive DurabilityMode
  | durableOnCommit | journaledNotFlushed
  deriving DecidableEq, Repr, Inhabited

structure ExecutionPolicy where
  id : PolicyId := .nil
  generation : Nat := 0
  checkpointIntervalActions : UInt32 := 0
  allowOlderCheckpoints : Bool := false
  maxCheckpointsPerExecution : UInt32 := 8
  replayAllowance : ReplayAllowance := .safeClassesOnly
  maxReplayDepth : UInt32 := 4
  allowRecompute : Bool := true
  ambiguityHandling : AmbiguityHandling := .refuseAutomaticRetry
  ambiguityBlocksLaterProgress : Bool := true
  recoveryPreference : RecoveryPreference := .preferNewestValidCheckpoint
  allowRecoveryFromFailed : Bool := false
  staleBindingBehavior : StaleBindingBehavior := .requireRevalidation
  policyChangeInvalidatesContinuations : Bool := true
  durability : DurabilityMode := .durableOnCommit
  maxActionHistory : UInt32 := 100000
  maxReplayRecords : UInt32 := 4096
  maxAmbiguityRecords : UInt32 := 1024
  maxContinuationHistory : UInt32 := 4096
  deriving DecidableEq, Repr

/-- The first reason a policy is unusable as durable state, if there is one. -/
def validatePolicy (policy : ExecutionPolicy) : Option String :=
  if ¬ policy.id.valid then some "policy id must be non-nil"
  else if policy.generation = 0 then some "policy generation must be established"
  else if policy.maxCheckpointsPerExecution = 0 then
    some "max_checkpoints_per_execution must be at least 1"
  else if policy.maxCheckpointsPerExecution > 4096 then
    some "max_checkpoints_per_execution exceeds the supported bound of 4096"
  else if policy.maxReplayDepth > 64 then
    some "max_replay_depth exceeds the supported bound of 64"
  else if policy.maxActionHistory = 0 then some "max_action_history must be at least 1"
  else if policy.maxActionHistory > 10000000 then
    some "max_action_history exceeds the supported bound of 10000000"
  else if policy.maxReplayRecords > 1000000 then
    some "max_replay_records exceeds the supported bound of 1000000"
  else if policy.maxAmbiguityRecords > 1000000 then
    some "max_ambiguity_records exceeds the supported bound of 1000000"
  else if policy.maxContinuationHistory > 1000000 then
    some "max_continuation_history exceeds the supported bound of 1000000"
  else if policy.replayAllowance = .forbidReplay ∧ policy.allowRecompute then
    some "allow_recompute cannot be combined with ReplayAllowance::ForbidReplay"
  else if policy.ambiguityHandling = .requireCompensation ∧
      ¬ policy.ambiguityBlocksLaterProgress then
    some "RequireCompensation requires ambiguity_blocks_later_progress"
  else none

/-- The conservative default policy. -/
def defaultPolicy (id : PolicyId) : ExecutionPolicy := { id := id, generation := 1 }

/-- Every default passes its own check. -/
theorem validatePolicy_default (id : PolicyId) (h : id.valid = true) :
    validatePolicy (defaultPolicy id) = none := by
  unfold validatePolicy defaultPolicy
  rw [if_neg (by simp [h])]
  rfl

end ExecutionFabric
