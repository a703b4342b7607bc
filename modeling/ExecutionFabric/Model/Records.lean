import ExecutionFabric.Model.Lifecycle
import Mathlib.Data.List.Sort
import Mathlib.Data.List.Destutter

/-!
# Durable records

One structure for each durable record, with the fields in their canonical durable
order and the source's defaults. Client-supplied 64-bit values keep their machine
type; counters the coordinator advances are natural numbers.
-/
namespace ExecutionFabric

inductive BindingDomain
  | memory | model | tool | resource | environment | filesystem | hardware | custom
  deriving DecidableEq, Repr, Inhabited

/-- The durable ordinal, which also orders binding references. -/
def BindingDomain.ordinal : BindingDomain → Nat
  | .memory => 0
  | .model => 1
  | .tool => 2
  | .resource => 3
  | .environment => 4
  | .filesystem => 5
  | .hardware => 6
  | .custom => 7

inductive CheckpointState
  | created | verified | current | stale | superseded | corrupt | revalidationRequired
  | unsupported
  deriving DecidableEq, Repr, Inhabited

def checkpointStateName : CheckpointState → String
  | .created => "CREATED"
  | .verified => "VERIFIED"
  | .current => "CURRENT"
  | .stale => "STALE"
  | .superseded => "SUPERSEDED"
  | .corrupt => "CORRUPT"
  | .revalidationRequired => "REVALIDATION_REQUIRED"
  | .unsupported => "UNSUPPORTED"

def checkpointCanSeedContinuation (state : CheckpointState) : Bool :=
  state = .verified || state = .current

inductive ContinuationState
  | valid | stale | revalidationRequired | ambiguous | unsupported | invalid
  deriving DecidableEq, Repr

inductive LeaseState
  | active | superseded | revoked
  deriving DecidableEq, Repr, Inhabited

def leaseStateName : LeaseState → String
  | .active => "ACTIVE"
  | .superseded => "SUPERSEDED"
  | .revoked => "REVOKED"

inductive ReplayStatus
  | admitted | rejected | completed
  deriving DecidableEq, Repr

structure Evidence where
  id : EvidenceId := .nil
  generation : UInt64 := 0
  kind : EvidenceKind := .none
  source : Bytes := []
  observedSequence : UInt64 := 0
  observedDigest : UInt64 := 0
  deriving DecidableEq, Repr

structure BindingRef where
  domain : BindingDomain := .custom
  id : BindingId := .nil
  generation : UInt64 := 0
  label : Bytes := []
  deriving DecidableEq, Repr

/-- `operator<` of binding references: by domain, id, generation and label. -/
def BindingRef.lt (a b : BindingRef) : Bool :=
  if a.domain ≠ b.domain then a.domain.ordinal < b.domain.ordinal
  else if a.id ≠ b.id then a.id < b.id
  else if a.generation ≠ b.generation then a.generation < b.generation
  else a.label < b.label

structure BindingSet where
  refs : List BindingRef := []
  deriving DecidableEq, Repr

namespace BindingSet

def find (s : BindingSet) (id : BindingId) : Option BindingRef :=
  s.refs.find? fun r => r.id = id

/-- Every reference of `s` is matched in `other` with the same generation. -/
def covers (s other : BindingSet) : Bool :=
  s.refs.all fun r => match other.find r.id with
    | some m => m.generation = r.generation
    | none => false

def equalsGenerations (s other : BindingSet) : Bool := s.covers other && other.covers s

/-- Sorts the references, drops repeated ones, and then every reference whose left neighbour has
the same binding id. -/
def canonicalize (s : BindingSet) : BindingSet :=
  ⟨((s.refs.insertionSort fun a b => ¬ b.lt a).destutter (· ≠ ·)).destutter fun a b => a.id ≠ b.id⟩

end BindingSet

/-- The defect of the first two neighbours that share a binding id, if there are any. -/
def duplicateBindingDefect : List BindingRef → Option String
  | a :: b :: rest =>
    if a.id = b.id then
      if a.generation ≠ b.generation then
        some "binding set has duplicate ids with conflicting generations"
      else some "binding set contains a duplicate binding id"
    else duplicateBindingDefect (b :: rest)
  | _ => none

def bindingRefDefect (r : BindingRef) : Option String :=
  if ¬ r.id.valid then some "binding set contains a nil binding id"
  else if r.generation = 0 then some "binding set contains an unestablished binding generation"
  else if r.label.length > 256 then some "binding set label exceeds 256 bytes"
  else none

/-- The structural check of a binding set: neighbours in sorted order first, then each reference. -/
def bindingSetDefect (s : BindingSet) : Option String :=
  match duplicateBindingDefect (s.refs.insertionSort fun a b => ¬ b.lt a) with
  | some reason => some reason
  | none => s.refs.findSome? bindingRefDefect

structure ActionRecord where
  id : ActionId := .nil
  generation : Nat := 0
  execution : ExecutionId := .nil
  executionGeneration : Nat := 0
  incarnationGeneration : Nat := 0
  sequence : Nat := 0
  attempt : AttemptId := .nil
  attemptGeneration : Nat := 0
  effectClass : SideEffectClass := .unknown
  requestKey : Bytes := []
  status : ActionStatus := .prepared
  effectId : SideEffectId := .nil
  effectGeneration : Nat := 0
  receipt : Evidence := {}
  replayGeneration : Nat := 0
  replayedFrom : ActionId := .nil
  replayedFromGeneration : Nat := 0
  commit : CommitId := .nil
  dispatchCount : Nat := 0
  deriving DecidableEq, Repr

/-- Actions are keyed by logical identity and generation. -/
structure ActionKey where
  id : ActionId
  generation : Nat
  deriving DecidableEq, Repr

instance : LT ActionKey :=
  ⟨fun a b => a.id < b.id ∨ (a.id = b.id ∧ a.generation < b.generation)⟩

instance : DecidableLT ActionKey := fun a b =>
  inferInstanceAs (Decidable (a.id < b.id ∨ (a.id = b.id ∧ a.generation < b.generation)))

def ActionRecord.key (a : ActionRecord) : ActionKey := ⟨a.id, a.generation⟩

structure ProgressRecord where
  id : ProgressId := .nil
  generation : Nat := 0
  execution : ExecutionId := .nil
  executionGeneration : Nat := 0
  action : ActionId := .nil
  actionGeneration : Nat := 0
  commit : CommitId := .nil
  epoch : Nat := 0
  ordinal : Nat := 0
  committed : Bool := false
  durableSequence : Nat := 0
  deriving DecidableEq, Repr

structure CheckpointRecord where
  id : CheckpointId := .nil
  generation : Nat := 0
  execution : ExecutionId := .nil
  executionGeneration : Nat := 0
  incarnationGeneration : Nat := 0
  progressGeneration : Nat := 0
  actionGeneration : Nat := 0
  policy : PolicyId := .nil
  policyGeneration : Nat := 0
  bindings : BindingSet := {}
  epoch : Nat := 0
  worker : WorkerId := .nil
  boot : WorkerBootId := .nil
  parent : CheckpointId := .nil
  parentGeneration : Nat := 0
  lineageDepth : Nat := 0
  effectBoundaryOrdinal : Nat := 0
  boundaryAction : ActionId := .nil
  contentSize : UInt64 := 0
  contentHash : UInt64 := 0
  state : CheckpointState := .created
  deriving DecidableEq, Repr

structure ContinuationRecord where
  id : ContinuationId := .nil
  generation : Nat := 0
  execution : ExecutionId := .nil
  executionGeneration : Nat := 0
  incarnation : ExecutionIncarnationId := .nil
  incarnationGeneration : Nat := 0
  checkpoint : CheckpointId := .nil
  checkpointGeneration : Nat := 0
  progressGeneration : Nat := 0
  actionGeneration : Nat := 0
  policy : PolicyId := .nil
  policyGeneration : Nat := 0
  bindings : BindingSet := {}
  epoch : Nat := 0
  recovery : RecoveryId := .nil
  recoveryGeneration : Nat := 0
  state : ContinuationState := .invalid
  resumeOrdinal : Nat := 0
  deriving DecidableEq, Repr

structure LeaseRecord where
  id : LeaseId := .nil
  generation : Nat := 0
  execution : ExecutionId := .nil
  executionGeneration : Nat := 0
  incarnation : ExecutionIncarnationId := .nil
  incarnationGeneration : Nat := 0
  worker : WorkerId := .nil
  boot : WorkerBootId := .nil
  epoch : Nat := 0
  policyGeneration : Nat := 0
  bindings : BindingSet := {}
  state : LeaseState := .active
  deriving DecidableEq, Repr

structure ReplayRecord where
  id : ReplayId := .nil
  generation : Nat := 0
  execution : ExecutionId := .nil
  executionGeneration : Nat := 0
  action : ActionId := .nil
  actionGeneration : Nat := 0
  newAction : ActionId := .nil
  newActionGeneration : Nat := 0
  effectClass : SideEffectClass := .unknown
  requestKey : Bytes := []
  progressGeneration : Nat := 0
  checkpointGeneration : Nat := 0
  policyGeneration : Nat := 0
  epoch : Nat := 0
  status : ReplayStatus := .rejected
  evidence : Evidence := {}
  deriving DecidableEq, Repr

structure AmbiguityRecord where
  id : AmbiguityId := .nil
  generation : Nat := 0
  execution : ExecutionId := .nil
  executionGeneration : Nat := 0
  action : ActionId := .nil
  actionGeneration : Nat := 0
  effectClass : SideEffectClass := .unknown
  actionOrdinal : Nat := 0
  state : AmbiguityState := .open
  reason : Bytes := []
  resolutionEvidence : Evidence := {}
  resolutionNote : Bytes := []
  deriving DecidableEq, Repr

/-- The key of the action an ambiguity is about. -/
def AmbiguityRecord.actionKey (a : AmbiguityRecord) : ActionKey := ⟨a.action, a.actionGeneration⟩

structure CommitRecord where
  id : CommitId := .nil
  execution : ExecutionId := .nil
  executionGeneration : Nat := 0
  action : ActionId := .nil
  actionGeneration : Nat := 0
  progress : ProgressId := .nil
  progressGeneration : Nat := 0
  epoch : Nat := 0
  request : RequestId := .nil
  deriving DecidableEq, Repr

/-- The key of the action a commit seals. -/
def CommitRecord.actionKey (c : CommitRecord) : ActionKey := ⟨c.action, c.actionGeneration⟩

structure ExecutionRecord where
  id : ExecutionId := .nil
  generation : Nat := 0
  incarnation : ExecutionIncarnationId := .nil
  incarnationGeneration : Nat := 0
  lifecycle : Lifecycle := .created
  continuation : ContinuationId := .nil
  continuationGeneration : Nat := 0
  progress : ProgressId := .nil
  progressGeneration : Nat := 0
  actionGeneration : Nat := 0
  actionFrontier : Nat := 0
  blockedAboveOrdinal : Nat := 0
  blocked : Bool := false
  checkpoint : CheckpointId := .nil
  checkpointGeneration : Nat := 0
  policy : PolicyId := .nil
  policyGeneration : Nat := 0
  epoch : Nat := 0
  worker : WorkerId := .nil
  boot : WorkerBootId := .nil
  lease : LeaseId := .nil
  leaseGeneration : Nat := 0
  lastCommit : CommitId := .nil
  recovery : RecoveryId := .nil
  recoveryGeneration : Nat := 0
  ambiguity : AmbiguityId := .nil
  ambiguityGeneration : Nat := 0
  bindings : BindingSet := {}
  committedActions : Nat := 0
  replayCount : Nat := 0
  createdSequence : Nat := 0
  deriving DecidableEq, Repr

structure RecoveryRecord where
  id : RecoveryId := .nil
  generation : Nat := 0
  execution : ExecutionId := .nil
  executionGeneration : Nat := 0
  decision : UInt8 := 0
  continuation : ContinuationId := .nil
  continuationGeneration : Nat := 0
  checkpoint : CheckpointId := .nil
  checkpointGeneration : Nat := 0
  epoch : Nat := 0
  evidence : Evidence := {}
  explanation : Bytes := []
  deriving DecidableEq, Repr

end ExecutionFabric
