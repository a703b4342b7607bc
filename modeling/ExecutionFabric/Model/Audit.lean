import ExecutionFabric.Model.Durable

/-!
# The invariant auditor

`auditState` checks a durable state and reports a finding for everything that is not
as it should be. The checks come in the order of the source: the store, each
execution with what it refers to, and then the other tables.
-/
namespace ExecutionFabric

open Lib

/-- A finding: its stable code, what it says and the execution it is about. -/
structure AuditFinding where
  code : String
  detail : String
  execution : ExecutionId := .nil
  deriving DecidableEq, Repr

structure AuditCounts where
  executions : Nat := 0
  actions : Nat := 0
  progress : Nat := 0
  checkpoints : Nat := 0
  continuations : Nat := 0
  leases : Nat := 0
  replays : Nat := 0
  ambiguities : Nat := 0
  commits : Nat := 0
  recoveries : Nat := 0
  policies : Nat := 0
  deriving DecidableEq, Repr

structure AuditReport where
  counts : AuditCounts := {}
  findings : List AuditFinding := []
  epoch : Nat := 0
  store : StoreId := .nil
  sequence : Nat := 0
  deriving DecidableEq, Repr

/-- The finding of one check, if it fails. -/
def addIf (violated : Prop) [Decidable violated] (code detail : String)
    (execution : ExecutionId := .nil) : List AuditFinding :=
  if violated then [⟨code, detail, execution⟩] else []

/-! ## Executions -/

/-- The incarnation an execution names is the one derived for its generation. -/
def auditIncarnation (x : ExecutionRecord) : List AuditFinding :=
  if x.incarnation.valid = true ∨ x.incarnationGeneration ≠ 0 then
    if x.incarnationGeneration = 0 then
      [⟨"INCARNATION_GENERATION_ZERO",
        "execution has an incarnation but no incarnation generation", x.id⟩]
    else
      addIf (deriveIncarnationId x.id x.incarnationGeneration ≠ x.incarnation)
        "INCARNATION_ID_MISMATCH"
        "execution incarnation id is not the derived identity for its generation" x.id
  else []

/-- The lease an execution names repeats what the execution is bound to. -/
def auditNamedLease (st : DurableState) (x : ExecutionRecord) : Option LeaseRecord →
    List AuditFinding
  | none => [⟨"EXECUTION_LEASE_MISSING", "execution references a missing lease", x.id⟩]
  | some lease =>
    addIf (lease.state ≠ .active) "EXECUTION_REFERENCES_INACTIVE_LEASE"
        "execution references a lease that is not active" x.id ++
      addIf (lease.execution ≠ x.id) "LEASE_EXECUTION_MISMATCH"
        "lease belongs to a different execution" x.id ++
      addIf (lease.worker ≠ x.worker ∨ lease.boot ≠ x.boot) "LEASE_WORKER_MISMATCH"
        "lease worker or boot does not match the execution binding" x.id ++
      addIf (lease.epoch ≠ st.epoch) "LEASE_STALE_EPOCH"
        "active lease carries an epoch that is not current" x.id ++
      addIf (lease.incarnationGeneration ≠ x.incarnationGeneration) "LEASE_INCARNATION_MISMATCH"
        "active lease binds a different incarnation generation" x.id ++
      addIf (lease.policyGeneration ≠ x.policyGeneration) "LEASE_POLICY_MISMATCH"
        "active lease binds a different policy generation" x.id

def auditBinding (st : DurableState) (x : ExecutionRecord) : List AuditFinding :=
  if x.lease.valid = true then
    auditNamedLease st x (st.leases.find x.lease) ++
      addIf (¬ x.worker.valid = true ∨ ¬ x.boot.valid = true) "EXECUTION_WORKER_MISSING"
        "execution holds a lease but records no worker binding" x.id
  else
    addIf (x.worker.valid = true) "EXECUTION_WORKER_WITHOUT_LEASE"
      "execution records a worker binding but no lease" x.id

/-- Terminal executions keep neither authority nor an open ambiguity. -/
def auditTerminal (st : DurableState) (x : ExecutionRecord) : List AuditFinding :=
  addIf (isTerminalState x.lifecycle = true ∧ x.lease.valid = true)
      "TERMINAL_EXECUTION_HOLDS_LEASE"
      ("lifecycle " ++ lifecycleName x.lifecycle ++ " still holds a lease") x.id ++
    addIf (x.lifecycle = .retired ∧ (st.leases.find x.lease).any (·.state = .active) = true)
      "RETIRED_EXECUTION_ACTIVE_LEASE" "a retired execution has an active lease" x.id ++
    addIf (isTerminalState x.lifecycle = true ∧ x.ambiguity.valid = true ∧
        (st.ambiguities.find x.ambiguity).any (ambiguityIsOpen ·.state) = true)
      "TERMINAL_EXECUTION_OPEN_AMBIGUITY" "a terminal execution still has an open ambiguity" x.id

/-- The checkpoint a continuation names may still seed an execution. -/
def auditSeed (x : ExecutionRecord) : Option CheckpointRecord → List AuditFinding
  | none =>
    [⟨"CONTINUATION_CHECKPOINT_MISSING", "continuation references a missing checkpoint", x.id⟩]
  | some checkpoint =>
    addIf (checkpoint.state = .corrupt ∨ checkpoint.state = .unsupported)
      "CONTINUATION_CHECKPOINT_UNUSABLE"
      "continuation references a checkpoint that cannot seed execution" x.id

/-- The continuation an execution names claims nothing the execution has not reached. -/
def auditNamedContinuation (st : DurableState) (x : ExecutionRecord) :
    Option ContinuationRecord → List AuditFinding
  | none =>
    [⟨"EXECUTION_CONTINUATION_MISSING", "execution references a missing continuation", x.id⟩]
  | some continuation =>
    addIf (continuation.execution ≠ x.id) "CONTINUATION_EXECUTION_MISMATCH"
        "continuation belongs to a different execution" x.id ++
      addIf (continuation.executionGeneration > x.generation) "CONTINUATION_GENERATION_AHEAD"
        "continuation claims an execution generation that does not exist" x.id ++
      addIf (continuation.progressGeneration > x.progressGeneration) "CONTINUATION_PROGRESS_AHEAD"
        "continuation claims progress beyond the authoritative frontier" x.id ++
      addIf (continuation.actionGeneration > x.actionGeneration) "CONTINUATION_ACTION_AHEAD"
        "continuation claims an action generation that does not exist" x.id ++
      (if continuation.checkpoint.valid = true then
        auditSeed x (st.checkpoints.find continuation.checkpoint) else []) ++
      addIf (continuation.policyGeneration > x.policyGeneration) "CONTINUATION_POLICY_AHEAD"
        "continuation claims a policy generation that does not exist" x.id ++
      addIf (continuation.state = .valid ∧ continuation.epoch ≠ st.epoch)
        "VALID_CONTINUATION_STALE_EPOCH"
        "a continuation marked VALID carries a non-current epoch" x.id

def auditNamedCheckpoint (x : ExecutionRecord) : Option CheckpointRecord → List AuditFinding
  | none => [⟨"EXECUTION_CHECKPOINT_MISSING", "execution references a missing checkpoint", x.id⟩]
  | some checkpoint =>
    addIf (checkpoint.execution ≠ x.id) "CHECKPOINT_EXECUTION_MISMATCH"
        "checkpoint belongs to a different execution" x.id ++
      addIf (checkpoint.contentHash = 0) "CHECKPOINT_CONTENT_HASH_ZERO"
        "checkpoint carries no content integrity digest" x.id ++
      addIf (checkpoint.state = .corrupt) "CURRENT_CHECKPOINT_CORRUPT"
        "the execution's current checkpoint is marked corrupt" x.id

/-- A progress record of the execution `x`. -/
def auditProgressRecord (st : DurableState) (x : ExecutionRecord) (p : ProgressRecord) :
    List AuditFinding :=
  addIf (¬ p.id.valid = true) "PROGRESS_ID_NIL" "progress record carries a nil id" x.id ++
    addIf (p.generation = 0) "PROGRESS_GENERATION_ZERO"
      "progress record carries no generation" x.id ++
    addIf (p.generation > x.progressGeneration) "PROGRESS_BEYOND_FRONTIER"
      "progress generation exceeds the execution's authoritative progress" x.id ++
    addIf (p.executionGeneration > x.generation) "PROGRESS_EXECUTION_GENERATION_AHEAD"
      "progress record claims a future execution generation" x.id ++
    addIf (p.committed = true ∧ st.commits.find p.commit = none)
      "COMMITTED_PROGRESS_WITHOUT_COMMIT"
      "committed progress has no durable commit record" x.id ++
    addIf (x.blocked = true ∧ p.committed = true ∧ p.ordinal > x.blockedAboveOrdinal)
      "PROGRESS_BEYOND_AMBIGUOUS_ACTION"
      "committed progress exists above an unresolved ambiguous action" x.id

/-- The progress records of an execution, in insertion order. -/
def progressOf (st : DurableState) (x : ExecutionRecord) : List ProgressRecord :=
  st.progress.records.filter fun p => p.execution = x.id

/-- The committed progress of an execution, by generation. -/
def committedProgress (st : DurableState) (x : ExecutionRecord) : List ProgressRecord :=
  ((progressOf st x).filter fun p => p.committed).insertionSort fun a b =>
    ¬ b.generation < a.generation

/-- The ordinals of committed progress, ascending. -/
def committedOrdinals (st : DurableState) (x : ExecutionRecord) : List Nat :=
  ((committedProgress st x).map (·.ordinal)).insertionSort (· ≤ ·)

/-- Two neighbours are equal. -/
def adjacentFind : List Nat → Bool
  | a :: b :: rest => a = b || adjacentFind (b :: rest)
  | _ => false

/-- The execution agrees with the last of its committed progress. -/
def auditFrontier (x : ExecutionRecord) : Option ProgressRecord → List AuditFinding
  | none =>
    addIf (x.progressGeneration ≠ 0) "FRONTIER_WITHOUT_COMMITS"
      "execution reports a progress generation with no committed progress" x.id
  | some last =>
    addIf (x.progressGeneration ≠ last.generation) "FRONTIER_NOT_LATEST_COMMIT"
        "authoritative progress generation is not the latest durable commit" x.id ++
      addIf (x.lastCommit ≠ last.commit) "LAST_COMMIT_MISMATCH"
        "execution's last commit identity is not the latest durable commit" x.id

def auditProgress (st : DurableState) (x : ExecutionRecord) : List AuditFinding :=
  let committed := committedProgress st x
  (progressOf st x).flatMap (auditProgressRecord st x) ++
    addIf (∃ p ∈ committed.zipIdx 1, p.1.generation ≠ p.2) "PROGRESS_GENERATION_NOT_CONTIGUOUS"
      "committed progress generations are not contiguous from 1" x.id ++
    addIf (adjacentFind (committedOrdinals st x) = true) "PROGRESS_ORDINAL_DUPLICATE"
      "two committed progress records share an action ordinal" x.id ++
    addIf (committed.length ≠ x.committedActions) "COMMITTED_ACTION_COUNT_MISMATCH"
      "execution's committed action counter disagrees with its committed progress" x.id ++
    auditFrontier x committed.getLast?

def auditNamedAmbiguity (x : ExecutionRecord) : Option AmbiguityRecord → List AuditFinding
  | none =>
    [⟨"EXECUTION_AMBIGUITY_MISSING", "execution references a missing ambiguity record", x.id⟩]
  | some ambiguity =>
    addIf (ambiguity.execution ≠ x.id) "AMBIGUITY_EXECUTION_MISMATCH"
        "ambiguity record belongs to a different execution" x.id ++
      addIf (¬ ambiguityIsOpen ambiguity.state = true ∧ x.blocked = true)
        "BLOCK_WITH_RESOLVED_AMBIGUITY"
        "execution is blocked but its ambiguity is resolved" x.id

def auditBlock (st : DurableState) (x : ExecutionRecord) : List AuditFinding :=
  if x.ambiguity.valid = true then auditNamedAmbiguity x (st.ambiguities.find x.ambiguity)
  else
    addIf (x.blocked = true) "BLOCK_WITHOUT_AMBIGUITY"
      "execution is blocked but references no ambiguity record" x.id

def auditExecution (st : DurableState) (x : ExecutionRecord) : List AuditFinding :=
  if ¬ x.id.valid = true then
    [⟨"EXECUTION_ID_NIL", "execution record carries a nil id", .nil⟩]
  else
    addIf (x.generation = 0) "EXECUTION_GENERATION_ZERO"
        "execution generation is not established" x.id ++
      addIf (x.policyGeneration = 0) "EXECUTION_POLICY_GENERATION_ZERO"
        "execution references no policy generation" x.id ++
      addIf (x.epoch > st.epoch) "EXECUTION_EPOCH_AHEAD"
        "execution records a coordinator epoch the store has not reached" x.id ++
      addIf (st.policies.find x.policy = none) "EXECUTION_POLICY_MISSING"
        "execution references a missing policy" x.id ++
      auditIncarnation x ++ auditBinding st x ++ auditTerminal st x ++
      (if x.continuation.valid = true then
        auditNamedContinuation st x (st.continuations.find x.continuation) else []) ++
      (if x.checkpoint.valid = true then
        auditNamedCheckpoint x (st.checkpoints.find x.checkpoint) else []) ++
      auditProgress st x ++ auditBlock st x ++
      addIf (x.recovery.valid = true ∧ st.recoveries.find x.recovery = none)
        "EXECUTION_RECOVERY_MISSING" "execution references a missing recovery record" x.id ++
      (bindingSetDefect x.bindings).toList.map (⟨"EXECUTION_BINDING_SET_DEFECT", ·, x.id⟩)

/-! ## The other tables -/

/-- The commit of a committed action names it. -/
def auditSeal (a : ActionRecord) : Option CommitRecord → List AuditFinding
  | none =>
    [⟨"COMMITTED_ACTION_WITHOUT_COMMIT", "action is committed but has no durable commit record",
      a.execution⟩]
  | some commit =>
    addIf (commit.action ≠ a.id ∨ commit.actionGeneration ≠ a.generation) "COMMIT_ACTION_MISMATCH"
      "commit record does not identify the committed action" a.execution

/-- An action of the execution `x`. -/
def auditOwnedAction (st : DurableState) (a : ActionRecord) (x : ExecutionRecord) :
    List AuditFinding :=
  addIf (a.executionGeneration > x.generation) "ACTION_EXECUTION_GENERATION_AHEAD"
      "action claims a future execution generation" a.execution ++
    addIf (a.sequence = 0) "ACTION_ORDINAL_ZERO" "action has no ordinal" a.execution ++
    addIf (a.sequence > x.actionFrontier) "ACTION_BEYOND_FRONTIER"
      "action ordinal exceeds the execution's action frontier" a.execution ++
    addIf (requiresRequestKey a.effectClass = true ∧ a.requestKey = []) "ACTION_MISSING_REQUEST_KEY"
      "an action whose class requires a request key has none" a.execution ++
    addIf (actionIsPhysicallySealed a.status = true ∧ a.receipt.kind = .none ∧
        a.status = .effectApplied)
      "ACTION_SEALED_WITHOUT_RECEIPT" "action is sealed as applied without durable evidence"
      a.execution ++
    (if a.status = .committed then auditSeal a (st.commits.find a.commit) else []) ++
    addIf (a.replayedFrom.valid = true ∧ st.findLatestAction a.replayedFrom = none)
      "REPLAY_ORIGIN_MISSING" "replayed action references a missing original action" a.execution

def auditAction (st : DurableState) (a : ActionRecord) : List AuditFinding :=
  if ¬ a.id.valid = true then [⟨"ACTION_ID_NIL", "action record carries a nil id", .nil⟩]
  else
    addIf (a.generation = 0) "ACTION_GENERATION_ZERO" "action record carries no generation"
        a.execution ++
      match st.executions.find a.execution with
      | none =>
        [⟨"ACTION_EXECUTION_MISSING", "action references a missing execution", .nil⟩]
      | some x => auditOwnedAction st a x

/-- The parent of a checkpoint is the checkpoint before it. -/
def auditParent (c : CheckpointRecord) : Option CheckpointRecord → List AuditFinding
  | none =>
    [⟨"CHECKPOINT_LINEAGE_BREAK", "checkpoint references a missing parent", c.execution⟩]
  | some parent =>
    addIf (parent.execution ≠ c.execution) "CHECKPOINT_LINEAGE_CROSS_EXECUTION"
        "checkpoint parent belongs to a different execution" c.execution ++
      addIf (c.lineageDepth ≠ parent.lineageDepth + 1) "CHECKPOINT_LINEAGE_DEPTH_MISMATCH"
        "checkpoint lineage depth does not follow its parent" c.execution ++
      addIf (parent.generation ≥ c.generation) "CHECKPOINT_LINEAGE_NOT_BACKWARD"
        "checkpoint parent generation is not older than the child" c.execution

/-- A checkpoint of the execution `x`. -/
def auditOwnedCheckpoint (st : DurableState) (c : CheckpointRecord) (x : ExecutionRecord) :
    List AuditFinding :=
  addIf (c.contentHash = 0) "CHECKPOINT_HASH_ZERO"
      "checkpoint carries no content integrity digest" c.execution ++
    addIf (c.progressGeneration > x.progressGeneration) "CHECKPOINT_PROGRESS_AHEAD"
      "checkpoint claims progress beyond the authoritative frontier" c.execution ++
    addIf (c.generation = 0) "CHECKPOINT_GENERATION_ZERO" "checkpoint carries no generation"
      c.execution ++
    (if c.parent.valid = true then auditParent c (st.checkpoints.find c.parent)
    else
      addIf (c.lineageDepth ≠ 0) "CHECKPOINT_LINEAGE_DEPTH_WITHOUT_PARENT"
        "checkpoint declares lineage depth but has no parent" c.execution) ++
    (bindingSetDefect c.bindings).toList.map (⟨"CHECKPOINT_BINDING_SET_DEFECT", ·, c.execution⟩)

def auditCheckpoint (st : DurableState) (c : CheckpointRecord) : List AuditFinding :=
  if ¬ c.id.valid = true then
    [⟨"CHECKPOINT_ID_NIL", "checkpoint record carries a nil id", .nil⟩]
  else match st.executions.find c.execution with
    | none =>
      [⟨"CHECKPOINT_EXECUTION_MISSING", "checkpoint references a missing execution", .nil⟩]
    | some x => auditOwnedCheckpoint st c x

/-- The checkpoint of a Valid continuation. -/
def auditValidSeed (c : ContinuationRecord) : Option CheckpointRecord → List AuditFinding
  | none =>
    [⟨"VALID_CONTINUATION_MISSING_CHECKPOINT",
      "a continuation marked VALID references a checkpoint that does not exist", c.execution⟩]
  | some checkpoint =>
    addIf (¬ checkpointCanSeedContinuation checkpoint.state = true)
      "VALID_CONTINUATION_UNSEEDABLE_CHECKPOINT"
      "a continuation marked VALID references a checkpoint that cannot seed" c.execution

def auditContinuation (st : DurableState) (c : ContinuationRecord) : List AuditFinding :=
  addIf (st.executions.find c.execution = none) "CONTINUATION_EXECUTION_MISSING"
      "continuation references a missing execution" ++
    (if c.state = .valid ∧ c.checkpoint.valid = true then
      auditValidSeed c (st.checkpoints.find c.checkpoint) else [])

/-- The Valid continuations of an execution, in insertion order. -/
def validContinuations (st : DurableState) (x : ExecutionRecord) : List ContinuationRecord :=
  st.continuations.records.filter fun c => c.execution = x.id ∧ c.state = .valid

/-- The lifecycles in which a worker exercises authority. -/
def exercisesAuthority (l : Lifecycle) : Bool :=
  l = .running || l = .checkpointing || l = .draining

/-- An execution has at most one Valid continuation, its current one, and exactly one while a worker
exercises authority. -/
def auditValidity (st : DurableState) (x : ExecutionRecord) : List AuditFinding :=
  let valid := validContinuations st x
  let validId := (valid.getLast?.map (·.id)).getD .nil
  addIf (valid.length > 1) "MULTIPLE_VALID_CONTINUATIONS"
      "more than one continuation is marked VALID for one execution" x.id ++
    addIf (valid.length = 1 ∧ validId ≠ x.continuation) "VALID_CONTINUATION_NOT_CURRENT"
      "a continuation is marked VALID but is not the execution's current continuation" x.id ++
    addIf (valid.length = 0 ∧ exercisesAuthority x.lifecycle = true)
      "ACTIVE_EXECUTION_WITHOUT_VALID_CONTINUATION"
      "an execution that is exercising authority has no VALID continuation" x.id

def auditLease (st : DurableState) (l : LeaseRecord) : List AuditFinding :=
  if l.execution = .nil then [⟨"LEASE_EXECUTION_NIL", "lease carries a nil execution id", .nil⟩]
  else match st.executions.find l.execution with
    | none => [⟨"LEASE_EXECUTION_MISSING", "lease references a missing execution", .nil⟩]
    | some x =>
      addIf (l.epoch < st.epoch ∧ l.state = .active) "STALE_LEASE_STILL_ACTIVE"
          "a lease from a previous coordinator epoch is still active" l.execution ++
        addIf (l.state = .active ∧ x.lease ≠ l.id) "ORPHAN_ACTIVE_LEASE"
          "an active lease is not the execution's current lease" l.execution

/-- The progress record a commit names. -/
def auditPromotion (c : CommitRecord) : Option ProgressRecord → List AuditFinding
  | none =>
    [⟨"COMMIT_PROGRESS_MISSING", "commit references a missing progress record", c.execution⟩]
  | some p =>
    addIf (¬ p.committed = true) "COMMIT_PROGRESS_NOT_COMMITTED"
      "commit references a progress record that is not committed" c.execution

/-- The commits left to check. The source collects the keys in a set of texts; `seen` lists the
keys themselves. -/
def auditCommits (st : DurableState) (seen : List ActionKey) : List CommitRecord → List AuditFinding
  | [] => []
  | c :: rest =>
    if ¬ c.id.valid = true then
      ⟨"COMMIT_ID_NIL", "commit record carries a nil id", .nil⟩ :: auditCommits st seen rest
    else match st.findAction c.action c.actionGeneration with
      | none =>
        ⟨"COMMIT_ACTION_MISSING", "commit references a missing action", c.execution⟩ ::
          auditCommits st seen rest
      | some _ =>
        addIf (∃ key ∈ seen, key = c.actionKey) "DUPLICATE_LOGICAL_COMMIT"
            "two commit records exist for the same action identity and generation" c.execution ++
          auditPromotion c (st.progress.find c.progress) ++
          auditCommits st (c.actionKey :: seen) rest

def auditReplay (st : DurableState) (r : ReplayRecord) : List AuditFinding :=
  addIf (st.findLatestAction r.action = none) "REPLAY_ACTION_MISSING"
      "replay references a missing action" r.execution ++
    addIf (r.newAction.valid = true ∧ st.findLatestAction r.newAction = none)
      "REPLAY_TARGET_MISSING" "replay references a missing replacement action" r.execution ++
    addIf (r.status = .admitted ∧ ¬ r.newAction.valid = true) "ADMITTED_REPLAY_WITHOUT_TARGET"
      "an admitted replay has no replacement action identity" r.execution

def auditAmbiguity (st : DurableState) (a : AmbiguityRecord) : List AuditFinding :=
  match st.executions.find a.execution with
  | none =>
    [⟨"AMBIGUITY_EXECUTION_MISSING", "ambiguity references a missing execution", .nil⟩]
  | some x =>
    addIf (st.findAction a.action a.actionGeneration = none) "AMBIGUITY_ACTION_MISSING"
        "ambiguity references a missing action" a.execution ++
      addIf (ambiguityIsOpen a.state = true ∧ ¬ x.ambiguity.valid = true)
        "OPEN_AMBIGUITY_NOT_REFERENCED" "an open ambiguity is not referenced by its execution"
        a.execution

def recoveryDecisionCount : UInt8 := 10

def auditRecovery (st : DurableState) (r : RecoveryRecord) : List AuditFinding :=
  addIf (st.executions.find r.execution = none) "RECOVERY_EXECUTION_MISSING"
      "recovery record references a missing execution" ++
    addIf (r.decision ≥ recoveryDecisionCount) "RECOVERY_DECISION_INVALID"
      "recovery record carries an unknown decision ordinal" r.execution

def auditPolicy (p : ExecutionPolicy) : List AuditFinding :=
  (validatePolicy p).toList.map (⟨"POLICY_INVALID", ·, .nil⟩)

def auditStore (st : DurableState) : List AuditFinding :=
  addIf (¬ st.store.valid = true) "STORE_ID_NIL" "durable state carries no store id" ++
    addIf (st.schema ≠ persistenceSchemaVersion) "STORE_SCHEMA_UNEXPECTED"
      "durable state schema is not the supported version"

/-- Audits a complete durable state. -/
def auditState (st : DurableState) : AuditReport where
  counts := {
    executions := st.executions.size
    actions := st.actions.size
    progress := st.progress.size
    checkpoints := st.checkpoints.size
    continuations := st.continuations.size
    leases := st.leases.size
    replays := st.replays.size
    ambiguities := st.ambiguities.size
    commits := st.commits.size
    recoveries := st.recoveries.size
    policies := st.policies.size }
  findings :=
    auditStore st ++
      st.executions.records.flatMap (auditExecution st) ++
      st.actions.records.flatMap (auditAction st) ++
      st.checkpoints.records.flatMap (auditCheckpoint st) ++
      st.continuations.records.flatMap (auditContinuation st) ++
      st.executions.records.flatMap (auditValidity st) ++
      st.leases.records.flatMap (auditLease st) ++
      auditCommits st [] st.commits.records ++
      st.replays.records.flatMap (auditReplay st) ++
      st.ambiguities.records.flatMap (auditAmbiguity st) ++
      st.recoveries.records.flatMap (auditRecovery st) ++
      st.policies.records.flatMap auditPolicy
  epoch := st.epoch
  store := st.store
  sequence := st.sequence

end ExecutionFabric
