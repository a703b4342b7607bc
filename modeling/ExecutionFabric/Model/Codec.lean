import ExecutionFabric.Lib.Codec
import ExecutionFabric.Model.Durable

/-!
# The record codec

Every durable record is written and read field by field in canonical durable order.
Identities, generations and counters are 64-bit words, enumerations are one byte,
texts and binding sets are prefixed by a 32-bit length. Reading is bounded by the
decode limits; writing is not.
-/
namespace ExecutionFabric

open Lib

/-- The limits every reader of persisted bytes runs under. -/
structure DecodeLimits where
  maxString : Nat := 64 * 1024
  maxContainer : Nat := 2 ^ 20
  maxTotal : Nat := 256 * 1024 * 1024
  deriving DecidableEq, Repr

def defaultDecodeLimits : DecodeLimits := {}

def maxString : Nat := defaultDecodeLimits.maxString
def maxContainer : Nat := defaultDecodeLimits.maxContainer
def maxTotal : Nat := defaultDecodeLimits.maxTotal

/-! ## Fields -/

def u8 : Codec maxTotal UInt8 :=
  (Codec.word maxTotal 1).imap UInt8.ofNat UInt8.toNat (fun _ => UInt8.ofNat_toNat)
    fun _ h => UInt8.toNat_ofNat_of_lt (of_decide_eq_true h)

def u32 : Codec maxTotal UInt32 :=
  (Codec.word maxTotal 4).imap UInt32.ofNat UInt32.toNat (fun _ => UInt32.ofNat_toNat)
    fun _ h => UInt32.toNat_ofNat_of_lt (of_decide_eq_true h)

def u64 : Codec maxTotal UInt64 :=
  (Codec.word maxTotal 8).imap UInt64.ofNat UInt64.toNat (fun _ => UInt64.ofNat_toNat)
    fun _ h => UInt64.toNat_ofNat_of_lt (of_decide_eq_true h)

/-- A counter the coordinator advances. -/
def counter : Codec maxTotal Nat := Codec.word maxTotal 8

/-- A counter of 32 bits. -/
def counter32 : Codec maxTotal Nat := Codec.word maxTotal 4

def idCodec {d : IdDomain} : Codec maxTotal (Id d) :=
  u64.imap Id.mk Id.value (fun _ => rfl) fun _ _ => rfl

/-- One byte that is 0 or 1. -/
def boolean : Codec maxTotal Bool :=
  (Codec.word maxTotal 1).enumeration [false, true] (by decide) (by decide)

def textCodec : Codec maxTotal Bytes := Codec.text maxTotal 4 maxString

/-- One byte with the durable ordinal of a value; no other ordinal is read. -/
def ordinal {α : Type} [DecidableEq α] (values : List α)
    (h : ∀ a, values[values.idxOf a]? = some a) (hnodup : values.Nodup) : Codec maxTotal α :=
  (Codec.word maxTotal 1).enumeration values h hnodup

def ambiguityHandlingCodec : Codec maxTotal AmbiguityHandling :=
  ordinal [.refuseAutomaticRetry, .manualResolutionRequired, .requireCompensation]
    (by intro a; cases a <;> rfl) (by decide)

def recoveryPreferenceCodec : Codec maxTotal RecoveryPreference :=
  ordinal [.preferNewestValidCheckpoint, .preferCheckpointBeforeInterruption,
      .requireManualSelection]
    (by intro a; cases a <;> rfl) (by decide)

def staleBindingBehaviorCodec : Codec maxTotal StaleBindingBehavior :=
  ordinal [.refuse, .requireRevalidation]
    (by intro a; cases a <;> rfl) (by decide)

def replayAllowanceCodec : Codec maxTotal ReplayAllowance :=
  ordinal [.safeClassesOnly, .allowCompensatedReplay, .forbidReplay]
    (by intro a; cases a <;> rfl) (by decide)

def durabilityModeCodec : Codec maxTotal DurabilityMode :=
  ordinal [.durableOnCommit, .journaledNotFlushed]
    (by intro a; cases a <;> rfl) (by decide)

def lifecycleCodec : Codec maxTotal Lifecycle :=
  ordinal [.created, .ready, .running, .checkpointing, .suspending, .suspended,
      .recoveryRequired, .recovering, .resuming, .draining, .completed, .failed, .cancelled,
      .fenced, .retired]
    (by intro a; cases a <;> rfl) (by decide)

def sideEffectClassCodec : Codec maxTotal SideEffectClass :=
  ordinal [.pure, .idempotent, .repeatableWithKey, .compensatable, .nonRepeatable, .unknown]
    (by intro a; cases a <;> rfl) (by decide)

def evidenceKindCodec : Codec maxTotal EvidenceKind :=
  ordinal [.none, .real, .synthetic, .unsupported]
    (by intro a; cases a <;> rfl) (by decide)

def actionStatusCodec : Codec maxTotal ActionStatus :=
  ordinal [.prepared, .inFlight, .effectApplied, .effectNotApplied, .completedUnacknowledged,
      .committed, .failed, .ambiguous, .compensated, .abandoned]
    (by intro a; cases a <;> rfl) (by decide)

def ambiguityStateCodec : Codec maxTotal AmbiguityState :=
  ordinal [.open, .resolvedApplied, .resolvedNotApplied, .accepted, .abandoned,
      .manualResolutionRequired]
    (by intro a; cases a <;> rfl) (by decide)

def bindingDomainCodec : Codec maxTotal BindingDomain :=
  ordinal [.memory, .model, .tool, .resource, .environment, .filesystem, .hardware, .custom]
    (by intro a; cases a <;> rfl) (by decide)

def checkpointStateCodec : Codec maxTotal CheckpointState :=
  ordinal [.created, .verified, .current, .stale, .superseded, .corrupt, .revalidationRequired,
      .unsupported]
    (by intro a; cases a <;> rfl) (by decide)

def continuationStateCodec : Codec maxTotal ContinuationState :=
  ordinal [.valid, .stale, .revalidationRequired, .ambiguous, .unsupported, .invalid]
    (by intro a; cases a <;> rfl) (by decide)

def leaseStateCodec : Codec maxTotal LeaseState :=
  ordinal [.active, .superseded, .revoked]
    (by intro a; cases a <;> rfl) (by decide)

def replayStatusCodec : Codec maxTotal ReplayStatus :=
  ordinal [.admitted, .rejected, .completed]
    (by intro a; cases a <;> rfl) (by decide)

/-! ## Records -/

def executionPolicyCodec : Codec maxTotal ExecutionPolicy :=
  (idCodec.pair <| counter.pair <| u32.pair <| boolean.pair <| u32.pair <|
      replayAllowanceCodec.pair <| u32.pair <| boolean.pair <| ambiguityHandlingCodec.pair <|
      boolean.pair <| recoveryPreferenceCodec.pair <| boolean.pair <|
      staleBindingBehaviorCodec.pair <| boolean.pair <| durabilityModeCodec.pair <| u32.pair <|
      u32.pair <| u32.pair u32).imap
    (fun (id, generation, checkpointIntervalActions, allowOlderCheckpoints,
        maxCheckpointsPerExecution, replayAllowance, maxReplayDepth, allowRecompute,
        ambiguityHandling, ambiguityBlocksLaterProgress, recoveryPreference,
        allowRecoveryFromFailed, staleBindingBehavior, policyChangeInvalidatesContinuations,
        durability, maxActionHistory, maxReplayRecords, maxAmbiguityRecords,
        maxContinuationHistory) =>
      ⟨id, generation, checkpointIntervalActions, allowOlderCheckpoints,
        maxCheckpointsPerExecution, replayAllowance, maxReplayDepth, allowRecompute,
        ambiguityHandling, ambiguityBlocksLaterProgress, recoveryPreference,
        allowRecoveryFromFailed, staleBindingBehavior, policyChangeInvalidatesContinuations,
        durability, maxActionHistory, maxReplayRecords, maxAmbiguityRecords,
        maxContinuationHistory⟩)
    (fun r => (r.id, r.generation, r.checkpointIntervalActions, r.allowOlderCheckpoints,
        r.maxCheckpointsPerExecution, r.replayAllowance, r.maxReplayDepth, r.allowRecompute,
        r.ambiguityHandling, r.ambiguityBlocksLaterProgress, r.recoveryPreference,
        r.allowRecoveryFromFailed, r.staleBindingBehavior, r.policyChangeInvalidatesContinuations,
        r.durability, r.maxActionHistory, r.maxReplayRecords, r.maxAmbiguityRecords,
        r.maxContinuationHistory))
    (fun _ => rfl) fun _ _ => rfl

def evidenceCodec : Codec maxTotal Evidence :=
  (idCodec.pair <| u64.pair <| evidenceKindCodec.pair <| textCodec.pair <| u64.pair u64).imap
    (fun (id, generation, kind, source, observedSequence, observedDigest) =>
      ⟨id, generation, kind, source, observedSequence, observedDigest⟩)
    (fun r => (r.id, r.generation, r.kind, r.source, r.observedSequence, r.observedDigest))
    (fun _ => rfl) fun _ _ => rfl

def bindingRefCodec : Codec maxTotal BindingRef :=
  (bindingDomainCodec.pair <| idCodec.pair <| u64.pair textCodec).imap
    (fun (domain, id, generation, label) =>
      ⟨domain, id, generation, label⟩)
    (fun r => (r.domain, r.id, r.generation, r.label))
    (fun _ => rfl) fun _ _ => rfl

def bindingSetCodec : Codec maxTotal BindingSet :=
  (bindingRefCodec.vector 4 maxContainer).imap BindingSet.mk BindingSet.refs (fun _ => rfl)
    fun _ _ => rfl

def actionRecordCodec : Codec maxTotal ActionRecord :=
  (idCodec.pair <| counter.pair <| idCodec.pair <| counter.pair <| counter.pair <|
      counter.pair <| idCodec.pair <| counter.pair <| sideEffectClassCodec.pair <|
      textCodec.pair <| actionStatusCodec.pair <| idCodec.pair <| counter.pair <|
      evidenceCodec.pair <| counter.pair <| idCodec.pair <| counter.pair <|
      idCodec.pair counter32).imap
    (fun (id, generation, execution, executionGeneration, incarnationGeneration, sequence,
        attempt, attemptGeneration, effectClass, requestKey, status, effectId, effectGeneration,
        receipt, replayGeneration, replayedFrom, replayedFromGeneration, commit, dispatchCount) =>
      ⟨id, generation, execution, executionGeneration, incarnationGeneration, sequence, attempt,
        attemptGeneration, effectClass, requestKey, status, effectId, effectGeneration, receipt,
        replayGeneration, replayedFrom, replayedFromGeneration, commit, dispatchCount⟩)
    (fun r => (r.id, r.generation, r.execution, r.executionGeneration, r.incarnationGeneration,
        r.sequence, r.attempt, r.attemptGeneration, r.effectClass, r.requestKey, r.status,
        r.effectId, r.effectGeneration, r.receipt, r.replayGeneration, r.replayedFrom,
        r.replayedFromGeneration, r.commit, r.dispatchCount))
    (fun _ => rfl) fun _ _ => rfl

def progressRecordCodec : Codec maxTotal ProgressRecord :=
  (idCodec.pair <| counter.pair <| idCodec.pair <| counter.pair <| idCodec.pair <|
      counter.pair <| idCodec.pair <| counter.pair <| counter.pair <| boolean.pair counter).imap
    (fun (id, generation, execution, executionGeneration, action, actionGeneration, commit, epoch,
        ordinal, committed, durableSequence) =>
      ⟨id, generation, execution, executionGeneration, action, actionGeneration, commit, epoch,
        ordinal, committed, durableSequence⟩)
    (fun r => (r.id, r.generation, r.execution, r.executionGeneration, r.action,
        r.actionGeneration, r.commit, r.epoch, r.ordinal, r.committed, r.durableSequence))
    (fun _ => rfl) fun _ _ => rfl

def checkpointRecordCodec : Codec maxTotal CheckpointRecord :=
  (idCodec.pair <| counter.pair <| idCodec.pair <| counter.pair <| counter.pair <|
      counter.pair <| counter.pair <| idCodec.pair <| counter.pair <| bindingSetCodec.pair <|
      counter.pair <| idCodec.pair <| idCodec.pair <| idCodec.pair <| counter.pair <|
      counter32.pair <| counter.pair <| idCodec.pair <| u64.pair <|
      u64.pair checkpointStateCodec).imap
    (fun (id, generation, execution, executionGeneration, incarnationGeneration,
        progressGeneration, actionGeneration, policy, policyGeneration, bindings, epoch, worker,
        boot, parent, parentGeneration, lineageDepth, effectBoundaryOrdinal, boundaryAction,
        contentSize, contentHash, state) =>
      ⟨id, generation, execution, executionGeneration, incarnationGeneration, progressGeneration,
        actionGeneration, policy, policyGeneration, bindings, epoch, worker, boot, parent,
        parentGeneration, lineageDepth, effectBoundaryOrdinal, boundaryAction, contentSize,
        contentHash, state⟩)
    (fun r => (r.id, r.generation, r.execution, r.executionGeneration, r.incarnationGeneration,
        r.progressGeneration, r.actionGeneration, r.policy, r.policyGeneration, r.bindings,
        r.epoch, r.worker, r.boot, r.parent, r.parentGeneration, r.lineageDepth,
        r.effectBoundaryOrdinal, r.boundaryAction, r.contentSize, r.contentHash, r.state))
    (fun _ => rfl) fun _ _ => rfl

def continuationRecordCodec : Codec maxTotal ContinuationRecord :=
  (idCodec.pair <| counter.pair <| idCodec.pair <| counter.pair <| idCodec.pair <|
      counter.pair <| idCodec.pair <| counter.pair <| counter.pair <| counter.pair <|
      idCodec.pair <| counter.pair <| bindingSetCodec.pair <| counter.pair <| idCodec.pair <|
      counter.pair <| continuationStateCodec.pair counter).imap
    (fun (id, generation, execution, executionGeneration, incarnation, incarnationGeneration,
        checkpoint, checkpointGeneration, progressGeneration, actionGeneration, policy,
        policyGeneration, bindings, epoch, recovery, recoveryGeneration, state, resumeOrdinal) =>
      ⟨id, generation, execution, executionGeneration, incarnation, incarnationGeneration,
        checkpoint, checkpointGeneration, progressGeneration, actionGeneration, policy,
        policyGeneration, bindings, epoch, recovery, recoveryGeneration, state, resumeOrdinal⟩)
    (fun r => (r.id, r.generation, r.execution, r.executionGeneration, r.incarnation,
        r.incarnationGeneration, r.checkpoint, r.checkpointGeneration, r.progressGeneration,
        r.actionGeneration, r.policy, r.policyGeneration, r.bindings, r.epoch, r.recovery,
        r.recoveryGeneration, r.state, r.resumeOrdinal))
    (fun _ => rfl) fun _ _ => rfl

def leaseRecordCodec : Codec maxTotal LeaseRecord :=
  (idCodec.pair <| counter.pair <| idCodec.pair <| counter.pair <| idCodec.pair <|
      counter.pair <| idCodec.pair <| idCodec.pair <| counter.pair <| counter.pair <|
      bindingSetCodec.pair leaseStateCodec).imap
    (fun (id, generation, execution, executionGeneration, incarnation, incarnationGeneration,
        worker, boot, epoch, policyGeneration, bindings, state) =>
      ⟨id, generation, execution, executionGeneration, incarnation, incarnationGeneration, worker,
        boot, epoch, policyGeneration, bindings, state⟩)
    (fun r => (r.id, r.generation, r.execution, r.executionGeneration, r.incarnation,
        r.incarnationGeneration, r.worker, r.boot, r.epoch, r.policyGeneration, r.bindings,
        r.state))
    (fun _ => rfl) fun _ _ => rfl

def replayRecordCodec : Codec maxTotal ReplayRecord :=
  (idCodec.pair <| counter.pair <| idCodec.pair <| counter.pair <| idCodec.pair <|
      counter.pair <| idCodec.pair <| counter.pair <| sideEffectClassCodec.pair <|
      textCodec.pair <| counter.pair <| counter.pair <| counter.pair <| counter.pair <|
      replayStatusCodec.pair evidenceCodec).imap
    (fun (id, generation, execution, executionGeneration, action, actionGeneration, newAction,
        newActionGeneration, effectClass, requestKey, progressGeneration, checkpointGeneration,
        policyGeneration, epoch, status, evidence) =>
      ⟨id, generation, execution, executionGeneration, action, actionGeneration, newAction,
        newActionGeneration, effectClass, requestKey, progressGeneration, checkpointGeneration,
        policyGeneration, epoch, status, evidence⟩)
    (fun r => (r.id, r.generation, r.execution, r.executionGeneration, r.action,
        r.actionGeneration, r.newAction, r.newActionGeneration, r.effectClass, r.requestKey,
        r.progressGeneration, r.checkpointGeneration, r.policyGeneration, r.epoch, r.status,
        r.evidence))
    (fun _ => rfl) fun _ _ => rfl

def ambiguityRecordCodec : Codec maxTotal AmbiguityRecord :=
  (idCodec.pair <| counter.pair <| idCodec.pair <| counter.pair <| idCodec.pair <|
      counter.pair <| sideEffectClassCodec.pair <| counter.pair <| ambiguityStateCodec.pair <|
      textCodec.pair <| evidenceCodec.pair textCodec).imap
    (fun (id, generation, execution, executionGeneration, action, actionGeneration, effectClass,
        actionOrdinal, state, reason, resolutionEvidence, resolutionNote) =>
      ⟨id, generation, execution, executionGeneration, action, actionGeneration, effectClass,
        actionOrdinal, state, reason, resolutionEvidence, resolutionNote⟩)
    (fun r => (r.id, r.generation, r.execution, r.executionGeneration, r.action,
        r.actionGeneration, r.effectClass, r.actionOrdinal, r.state, r.reason,
        r.resolutionEvidence, r.resolutionNote))
    (fun _ => rfl) fun _ _ => rfl

def commitRecordCodec : Codec maxTotal CommitRecord :=
  (idCodec.pair <| idCodec.pair <| counter.pair <| idCodec.pair <| counter.pair <|
      idCodec.pair <| counter.pair <| counter.pair idCodec).imap
    (fun (id, execution, executionGeneration, action, actionGeneration, progress,
        progressGeneration, epoch, request) =>
      ⟨id, execution, executionGeneration, action, actionGeneration, progress, progressGeneration,
        epoch, request⟩)
    (fun r => (r.id, r.execution, r.executionGeneration, r.action, r.actionGeneration, r.progress,
        r.progressGeneration, r.epoch, r.request))
    (fun _ => rfl) fun _ _ => rfl

def executionRecordCodec : Codec maxTotal ExecutionRecord :=
  (idCodec.pair <| counter.pair <| idCodec.pair <| counter.pair <| lifecycleCodec.pair <|
      idCodec.pair <| counter.pair <| idCodec.pair <| counter.pair <| counter.pair <|
      counter.pair <| counter.pair <| boolean.pair <| idCodec.pair <| counter.pair <|
      idCodec.pair <| counter.pair <| counter.pair <| idCodec.pair <| idCodec.pair <|
      idCodec.pair <| counter.pair <| idCodec.pair <| idCodec.pair <| counter.pair <|
      idCodec.pair <| counter.pair <| bindingSetCodec.pair <| counter.pair <|
      counter.pair counter).imap
    (fun (id, generation, incarnation, incarnationGeneration, lifecycle, continuation,
        continuationGeneration, progress, progressGeneration, actionGeneration, actionFrontier,
        blockedAboveOrdinal, blocked, checkpoint, checkpointGeneration, policy, policyGeneration,
        epoch, worker, boot, lease, leaseGeneration, lastCommit, recovery, recoveryGeneration,
        ambiguity, ambiguityGeneration, bindings, committedActions, replayCount,
        createdSequence) =>
      ⟨id, generation, incarnation, incarnationGeneration, lifecycle, continuation,
        continuationGeneration, progress, progressGeneration, actionGeneration, actionFrontier,
        blockedAboveOrdinal, blocked, checkpoint, checkpointGeneration, policy, policyGeneration,
        epoch, worker, boot, lease, leaseGeneration, lastCommit, recovery, recoveryGeneration,
        ambiguity, ambiguityGeneration, bindings, committedActions, replayCount, createdSequence⟩)
    (fun r => (r.id, r.generation, r.incarnation, r.incarnationGeneration, r.lifecycle,
        r.continuation, r.continuationGeneration, r.progress, r.progressGeneration,
        r.actionGeneration, r.actionFrontier, r.blockedAboveOrdinal, r.blocked, r.checkpoint,
        r.checkpointGeneration, r.policy, r.policyGeneration, r.epoch, r.worker, r.boot, r.lease,
        r.leaseGeneration, r.lastCommit, r.recovery, r.recoveryGeneration, r.ambiguity,
        r.ambiguityGeneration, r.bindings, r.committedActions, r.replayCount, r.createdSequence))
    (fun _ => rfl) fun _ _ => rfl

def recoveryRecordCodec : Codec maxTotal RecoveryRecord :=
  (idCodec.pair <| counter.pair <| idCodec.pair <| counter.pair <| u8.pair <| idCodec.pair <|
      counter.pair <| idCodec.pair <| counter.pair <| counter.pair <|
      evidenceCodec.pair textCodec).imap
    (fun (id, generation, execution, executionGeneration, decision, continuation,
        continuationGeneration, checkpoint, checkpointGeneration, epoch, evidence, explanation) =>
      ⟨id, generation, execution, executionGeneration, decision, continuation,
        continuationGeneration, checkpoint, checkpointGeneration, epoch, evidence, explanation⟩)
    (fun r => (r.id, r.generation, r.execution, r.executionGeneration, r.decision, r.continuation,
        r.continuationGeneration, r.checkpoint, r.checkpointGeneration, r.epoch, r.evidence,
        r.explanation))
    (fun _ => rfl) fun _ _ => rfl

def storeMetaRecordCodec : Codec maxTotal StoreMetaRecord :=
  (idCodec.pair <| counter.pair <| counter.pair <| counter.pair counter32).imap
    (fun (store, epoch, nextExecutionSequence, sequence, schema) =>
      ⟨store, epoch, nextExecutionSequence, sequence, schema⟩)
    (fun r => (r.store, r.epoch, r.nextExecutionSequence, r.sequence, r.schema))
    (fun _ => rfl) fun _ _ => rfl

def barrierRecordCodec : Codec maxTotal BarrierRecord :=
  (counter.pair u32).imap
    (fun (sequence, reason) =>
      ⟨sequence, reason⟩)
    (fun r => (r.sequence, r.reason))
    (fun _ => rfl) fun _ _ => rfl

def commitGroupRecordCodec : Codec maxTotal CommitGroupRecord :=
  (commitRecordCodec.pair <| progressRecordCodec.pair <|
      actionRecordCodec.pair executionRecordCodec).imap
    (fun (commit, progress, action, execution) =>
      ⟨commit, progress, action, execution⟩)
    (fun r => (r.commit, r.progress, r.action, r.execution))
    (fun _ => rfl) fun _ _ => rfl

/-! ## Journal payloads -/

inductive RecordKind
  | storeMeta | policy | execution | action | progress | checkpoint | continuation | lease
  | replay | ambiguity | commit | recovery | barrier | commitGroup
  deriving DecidableEq, Repr

/-- The record kinds by their number, which starts at 1. -/
def recordKinds : List RecordKind :=
  [.storeMeta, .policy, .execution, .action, .progress, .checkpoint, .continuation, .lease,
    .replay, .ambiguity, .commit, .recovery, .barrier, .commitGroup]

def maxRecordKind : Nat := 14

def RecordKind.number (kind : RecordKind) : Nat := recordKinds.idxOf kind + 1

def RecordKind.ofNumber (n : Nat) : Option RecordKind :=
  if n = 0 ∨ n > maxRecordKind then none else recordKinds[n - 1]?

theorem RecordKind.ofNumber_number (kind : RecordKind) :
    RecordKind.ofNumber kind.number = some kind := by
  cases kind <;> rfl

theorem RecordKind.number_lt (kind : RecordKind) : kind.number < 256 ^ 2 := by
  cases kind <;> decide

namespace JournalEntry

def kind : JournalEntry → RecordKind
  | .storeMeta _ => .storeMeta
  | .policy _ => .policy
  | .execution _ => .execution
  | .action _ => .action
  | .progress _ => .progress
  | .checkpoint _ => .checkpoint
  | .continuation _ => .continuation
  | .lease _ => .lease
  | .replay _ => .replay
  | .ambiguity _ => .ambiguity
  | .commit _ => .commit
  | .recovery _ => .recovery
  | .barrier _ => .barrier
  | .commitGroup _ => .commitGroup

/-- `encode_to_bytes` of the record an entry carries. -/
def encode : JournalEntry → Bytes
  | .storeMeta r => storeMetaRecordCodec.write r
  | .policy r => executionPolicyCodec.write r
  | .execution r => executionRecordCodec.write r
  | .action r => actionRecordCodec.write r
  | .progress r => progressRecordCodec.write r
  | .checkpoint r => checkpointRecordCodec.write r
  | .continuation r => continuationRecordCodec.write r
  | .lease r => leaseRecordCodec.write r
  | .replay r => replayRecordCodec.write r
  | .ambiguity r => ambiguityRecordCodec.write r
  | .commit r => commitRecordCodec.write r
  | .recovery r => recoveryRecordCodec.write r
  | .barrier r => barrierRecordCodec.write r
  | .commitGroup r => commitGroupRecordCodec.write r

/-- Every field of the record can be read back. -/
def fits : JournalEntry → Bool
  | .storeMeta r => storeMetaRecordCodec.fits r
  | .policy r => executionPolicyCodec.fits r
  | .execution r => executionRecordCodec.fits r
  | .action r => actionRecordCodec.fits r
  | .progress r => progressRecordCodec.fits r
  | .checkpoint r => checkpointRecordCodec.fits r
  | .continuation r => continuationRecordCodec.fits r
  | .lease r => leaseRecordCodec.fits r
  | .replay r => replayRecordCodec.fits r
  | .ambiguity r => ambiguityRecordCodec.fits r
  | .commit r => commitRecordCodec.fits r
  | .recovery r => recoveryRecordCodec.fits r
  | .barrier r => barrierRecordCodec.fits r
  | .commitGroup r => commitGroupRecordCodec.fits r

/-- The record a payload decodes to; bytes left over are refused. -/
def decode (kind : RecordKind) (payload : Bytes) : Option JournalEntry :=
  match kind with
  | .storeMeta => (storeMetaRecordCodec.decodeAll payload).map .storeMeta
  | .policy => (executionPolicyCodec.decodeAll payload).map .policy
  | .execution => (executionRecordCodec.decodeAll payload).map .execution
  | .action => (actionRecordCodec.decodeAll payload).map .action
  | .progress => (progressRecordCodec.decodeAll payload).map .progress
  | .checkpoint => (checkpointRecordCodec.decodeAll payload).map .checkpoint
  | .continuation => (continuationRecordCodec.decodeAll payload).map .continuation
  | .lease => (leaseRecordCodec.decodeAll payload).map .lease
  | .replay => (replayRecordCodec.decodeAll payload).map .replay
  | .ambiguity => (ambiguityRecordCodec.decodeAll payload).map .ambiguity
  | .commit => (commitRecordCodec.decodeAll payload).map .commit
  | .recovery => (recoveryRecordCodec.decodeAll payload).map .recovery
  | .barrier => (barrierRecordCodec.decodeAll payload).map .barrier
  | .commitGroup => (commitGroupRecordCodec.decodeAll payload).map .commitGroup

/-- A payload that fits is read back. -/
theorem decode_encode {e : JournalEntry} (hfits : e.fits = true)
    (hroom : e.encode.length ≤ maxTotal) : decode e.kind e.encode = some e := by
  cases e with
  | storeMeta r =>
    rw [encode, kind, decode, storeMetaRecordCodec.decodeAll_write hfits hroom, Option.map_some]
  | policy r =>
    rw [encode, kind, decode, executionPolicyCodec.decodeAll_write hfits hroom, Option.map_some]
  | execution r =>
    rw [encode, kind, decode, executionRecordCodec.decodeAll_write hfits hroom, Option.map_some]
  | action r =>
    rw [encode, kind, decode, actionRecordCodec.decodeAll_write hfits hroom, Option.map_some]
  | progress r =>
    rw [encode, kind, decode, progressRecordCodec.decodeAll_write hfits hroom, Option.map_some]
  | checkpoint r =>
    rw [encode, kind, decode, checkpointRecordCodec.decodeAll_write hfits hroom, Option.map_some]
  | continuation r =>
    rw [encode, kind, decode, continuationRecordCodec.decodeAll_write hfits hroom, Option.map_some]
  | lease r =>
    rw [encode, kind, decode, leaseRecordCodec.decodeAll_write hfits hroom, Option.map_some]
  | replay r =>
    rw [encode, kind, decode, replayRecordCodec.decodeAll_write hfits hroom, Option.map_some]
  | ambiguity r =>
    rw [encode, kind, decode, ambiguityRecordCodec.decodeAll_write hfits hroom, Option.map_some]
  | commit r =>
    rw [encode, kind, decode, commitRecordCodec.decodeAll_write hfits hroom, Option.map_some]
  | recovery r =>
    rw [encode, kind, decode, recoveryRecordCodec.decodeAll_write hfits hroom, Option.map_some]
  | barrier r =>
    rw [encode, kind, decode, barrierRecordCodec.decodeAll_write hfits hroom, Option.map_some]
  | commitGroup r =>
    rw [encode, kind, decode, commitGroupRecordCodec.decodeAll_write hfits hroom, Option.map_some]

end JournalEntry

/-! ## Snapshot payloads -/

namespace DurableState

def scalarsCodec : Codec maxTotal (Nat × StoreId × Nat × Nat × Nat) :=
  counter32.pair <| idCodec.pair <| counter.pair <| counter.pair counter

def scalars (st : DurableState) : Nat × StoreId × Nat × Nat × Nat :=
  (st.schema, st.store, st.epoch, st.sequence, st.nextExecutionSequence)

def tablesCodec : Codec maxTotal (List ExecutionPolicy × List ExecutionRecord ×
    List ActionRecord × List ProgressRecord × List CheckpointRecord × List ContinuationRecord ×
    List LeaseRecord × List ReplayRecord × List AmbiguityRecord × List CommitRecord ×
    List RecoveryRecord) :=
  (executionPolicyCodec.vector 4 maxContainer).pair <|
  (executionRecordCodec.vector 4 maxContainer).pair <|
  (actionRecordCodec.vector 4 maxContainer).pair <|
  (progressRecordCodec.vector 4 maxContainer).pair <|
  (checkpointRecordCodec.vector 4 maxContainer).pair <|
  (continuationRecordCodec.vector 4 maxContainer).pair <|
  (leaseRecordCodec.vector 4 maxContainer).pair <|
  (replayRecordCodec.vector 4 maxContainer).pair <|
  (ambiguityRecordCodec.vector 4 maxContainer).pair <|
  (commitRecordCodec.vector 4 maxContainer).pair <|
  recoveryRecordCodec.vector 4 maxContainer

/-- The records of every table in canonical order. -/
def tables (st : DurableState) : List ExecutionPolicy × List ExecutionRecord ×
    List ActionRecord × List ProgressRecord × List CheckpointRecord × List ContinuationRecord ×
    List LeaseRecord × List ReplayRecord × List AmbiguityRecord × List CommitRecord ×
    List RecoveryRecord :=
  (st.policies.canonicalOrder, st.executions.canonicalOrder, st.actions.canonicalOrder,
    st.progress.canonicalOrder, st.checkpoints.canonicalOrder, st.continuations.canonicalOrder,
    st.leases.canonicalOrder, st.replays.canonicalOrder, st.ambiguities.canonicalOrder,
    st.commits.canonicalOrder, st.recoveries.canonicalOrder)

def encode (st : DurableState) : Bytes :=
  scalarsCodec.write st.scalars ++ tablesCodec.write st.tables

/-- Every field of every record can be read back. -/
def fits (st : DurableState) : Bool :=
  scalarsCodec.fits st.scalars && tablesCodec.fits st.tables

/-- Reads a state; the records of a table are put in one after the other. -/
def decode : Reader DurableState := fun cursor => do
  let ((schema, store, epoch, sequence, nextExecutionSequence), cursor) ← scalarsCodec.read cursor
  if schema ≠ persistenceSchemaVersion then none
  else
    let ((policies, executions, actions, progress, checkpoints, continuations, leases, replays,
      ambiguities, commits, recoveries), cursor) ← tablesCodec.read cursor
    some ({
      store := store
      epoch := epoch
      sequence := sequence
      nextExecutionSequence := nextExecutionSequence
      schema := schema
      policies := .ofRecords policies
      executions := .ofRecords executions
      actions := .ofRecords actions
      progress := .ofRecords progress
      checkpoints := .ofRecords checkpoints
      continuations := .ofRecords continuations
      leases := .ofRecords leases
      replays := .ofRecords replays
      ambiguities := .ofRecords ambiguities
      commits := .ofRecords commits
      recoveries := .ofRecords recoveries }, cursor)

/-- A state that fits is read back in canonical order. -/
theorem decode_encode {st : DurableState} (hschema : st.schema = persistenceSchemaVersion)
    (hfits : st.fits = true) (hroom : st.encode.length ≤ maxTotal) :
    decode ⟨st.encode, 0⟩ = some (st.canonical, ⟨[], st.encode.length⟩) := by
  obtain ⟨hscalars, htables⟩ := Bool.and_eq_true_iff.mp hfits
  rw [encode, List.length_append] at hroom
  have hread := scalarsCodec.read_write st.scalars (tablesCodec.write st.tables) 0 hscalars
    (by omega)
  have hread' := tablesCodec.read_write st.tables [] (0 + (scalarsCodec.write st.scalars).length)
    htables (by omega)
  rw [List.append_nil] at hread'
  rw [decode, encode, hread]
  simp only [scalars, Option.bind_eq_bind, Option.bind_some, hschema, ne_eq, not_true_eq_false,
    if_false] at hread' ⊢
  rw [hread']
  simp only [tables, Option.bind_some, Table.ofRecords_canonicalOrder, canonical, hschema,
    List.length_append, Nat.zero_add]

end DurableState

end ExecutionFabric
