import Mathlib.Data.UInt
import Mathlib.Data.List.Basic

/-!
# Identity domains and derived identities

Every identity is a 64-bit value in one authority domain, and identities of
different domains have different types. Value 0 is the nil identity. Derived
identities are FNV-1a digests of a domain salt and the derivation inputs, fed
byte by byte in little-endian order. Generations and other counters are natural
numbers here; a digest sees their low 64 bits, as the machine counter has. A
generation of 0 is not established yet.
-/
namespace ExecutionFabric

inductive IdDomain
  | execution | incarnation | worker | workerBoot | session | store | attempt | continuation
  | checkpoint | progress | action | sideEffect | replay | lease | binding | policy | recovery
  | commit | request | evidence | ambiguity
  deriving DecidableEq, Repr

/-- An opaque 64-bit identifier in a single authority domain. -/
structure Id (d : IdDomain) where
  value : UInt64
  deriving DecidableEq, Repr

namespace Id

variable {d : IdDomain}

def nil : Id d := ⟨0⟩

def valid (i : Id d) : Bool := i.value != 0

instance : Inhabited (Id d) := ⟨nil⟩

instance : LT (Id d) := ⟨fun a b => a.value < b.value⟩

instance : DecidableLT (Id d) := fun a b => inferInstanceAs (Decidable (a.value < b.value))

@[simp] theorem valid_nil : (nil : Id d).valid = false := rfl

theorem valid_iff (i : Id d) : i.valid = true ↔ i ≠ nil := by
  cases i with
  | mk v => simp [valid, nil]

end Id

abbrev ExecutionId := Id .execution
abbrev ExecutionIncarnationId := Id .incarnation
abbrev WorkerId := Id .worker
abbrev WorkerBootId := Id .workerBoot
abbrev SessionId := Id .session
abbrev StoreId := Id .store
abbrev AttemptId := Id .attempt
abbrev ContinuationId := Id .continuation
abbrev CheckpointId := Id .checkpoint
abbrev ProgressId := Id .progress
abbrev ActionId := Id .action
abbrev SideEffectId := Id .sideEffect
abbrev ReplayId := Id .replay
abbrev LeaseId := Id .lease
abbrev BindingId := Id .binding
abbrev PolicyId := Id .policy
abbrev RecoveryId := Id .recovery
abbrev CommitId := Id .commit
abbrev RequestId := Id .request
abbrev EvidenceId := Id .evidence
abbrev AmbiguityId := Id .ambiguity

abbrev Bytes := List UInt8

/-- The bytes of a text the coordinator itself composes. -/
def text (s : String) : Bytes := s.toUTF8.data.toList

/-! ## FNV-1a -/

def fnvOffsetBasis : UInt64 := 0xcbf29ce484222325
def fnvPrime : UInt64 := 0x00000100000001b3

def fnv1aStep (h : UInt64) (b : UInt8) : UInt64 := (h ^^^ b.toUInt64) * fnvPrime

/-- The eight bytes of a 64-bit value, least significant first. -/
def littleEndian (v : UInt64) : List UInt8 :=
  [v.toUInt8, (v >>> 8).toUInt8, (v >>> 16).toUInt8, (v >>> 24).toUInt8,
    (v >>> 32).toUInt8, (v >>> 40).toUInt8, (v >>> 48).toUInt8, (v >>> 56).toUInt8]

/-- `HashBuilder::u64`. -/
def hashU64 (h v : UInt64) : UInt64 := (littleEndian v).foldl fnv1aStep h

/-- The digest of a domain salt followed by the derivation inputs. -/
def derive (salt : UInt64) (inputs : List UInt64) : UInt64 :=
  inputs.foldl hashU64 (hashU64 fnvOffsetBasis salt)

def saltCommit : UInt64 := 0x1001
def saltSideEffect : UInt64 := 0x1002
def saltReplay : UInt64 := 0x1003
def saltContinuation : UInt64 := 0x1004
def saltLease : UInt64 := 0x1005
def saltCheckpoint : UInt64 := 0x1006
def saltProgress : UInt64 := 0x1007
def saltAction : UInt64 := 0x1008
def saltAmbiguity : UInt64 := 0x1009
def saltRecovery : UInt64 := 0x100a
def saltExecution : UInt64 := 0x100b
def saltIncarnation : UInt64 := 0x100c
def saltPolicy : UInt64 := 0x100d
def saltAttempt : UInt64 := 0x100e

/-- A counter as the 64-bit value the digest is fed with. -/
def word (n : Nat) : UInt64 := UInt64.ofNat n

def deriveCommitId (execution : ExecutionId) (action : ActionId)
    (actionGeneration progressGeneration : Nat) : CommitId :=
  ⟨derive saltCommit [execution.value, action.value, word actionGeneration,
    word progressGeneration]⟩

def deriveSideEffectId (execution : ExecutionId) (action : ActionId)
    (actionGeneration : Nat) : SideEffectId :=
  ⟨derive saltSideEffect [execution.value, action.value, word actionGeneration]⟩

def deriveReplayId (action : ActionId) (generation : Nat) : ReplayId :=
  ⟨derive saltReplay [action.value, word generation]⟩

def deriveContinuationId (execution : ExecutionId)
    (incarnation progress generation : Nat) : ContinuationId :=
  ⟨derive saltContinuation [execution.value, word incarnation, word progress, word generation]⟩

def deriveLeaseId (execution : ExecutionId) (worker : WorkerId) (boot : WorkerBootId)
    (generation : Nat) : LeaseId :=
  ⟨derive saltLease [execution.value, worker.value, boot.value, word generation]⟩

def deriveCheckpointId (execution : ExecutionId) (generation : Nat) : CheckpointId :=
  ⟨derive saltCheckpoint [execution.value, word generation]⟩

def deriveProgressId (execution : ExecutionId) (generation : Nat) : ProgressId :=
  ⟨derive saltProgress [execution.value, word generation]⟩

def deriveActionId (execution : ExecutionId) (ordinal : Nat) : ActionId :=
  ⟨derive saltAction [execution.value, word ordinal]⟩

def deriveAmbiguityId (execution : ExecutionId) (action : ActionId)
    (generation : Nat) : AmbiguityId :=
  ⟨derive saltAmbiguity [execution.value, action.value, word generation]⟩

def deriveRecoveryId (execution : ExecutionId) (generation : Nat) : RecoveryId :=
  ⟨derive saltRecovery [execution.value, word generation]⟩

def deriveExecutionId (store : StoreId) (sequence : Nat) : ExecutionId :=
  ⟨derive saltExecution [store.value, word sequence]⟩

def deriveIncarnationId (execution : ExecutionId)
    (generation : Nat) : ExecutionIncarnationId :=
  ⟨derive saltIncarnation [execution.value, word generation]⟩

def derivePolicyId (execution : ExecutionId) (generation : Nat) : PolicyId :=
  ⟨derive saltPolicy [execution.value, word generation]⟩

def deriveAttemptId (action : ActionId) (generation : Nat) : AttemptId :=
  ⟨derive saltAttempt [action.value, word generation]⟩

end ExecutionFabric
