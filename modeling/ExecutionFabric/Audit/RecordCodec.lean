import ExecutionFabric.Model.Codec
import Mathlib.Tactic.Tauto

/-!
# What the record codec accepts

The extent of a record is what the decode limits bound: its counters, its texts and
the lengths of its vectors. Identities, flags and enumerations are never refused. A
record is read back exactly when its extent is within the limits, and the codec of
every durable record is canonical.
-/
namespace ExecutionFabric

open Lib

/-! ## Extents -/

/-- The counters of 64 and of 32 bits of a value, its texts and the lengths of its vectors. -/
structure Extent where
  counters : List Nat := []
  counters32 : List Nat := []
  texts : List Bytes := []
  vectors : List Nat := []

instance : Append Extent :=
  ⟨fun x y => ⟨x.counters ++ y.counters, x.counters32 ++ y.counters32, x.texts ++ y.texts,
    x.vectors ++ y.vectors⟩⟩

/-- Every counter has its width, and texts and vectors are within the decode limits. -/
structure Extent.Within (x : Extent) : Prop where
  counters : ∀ n ∈ x.counters, n < 2 ^ 64
  counters32 : ∀ n ∈ x.counters32, n < 2 ^ 32
  texts : ∀ s ∈ x.texts, s.length ≤ maxString
  vectors : ∀ n ∈ x.vectors, n ≤ maxContainer

namespace Extent

@[simp] theorem within_mk (counters counters32 : List Nat) (texts : List Bytes)
    (vectors : List Nat) : (Extent.mk counters counters32 texts vectors).Within ↔
      (∀ n ∈ counters, n < 2 ^ 64) ∧ (∀ n ∈ counters32, n < 2 ^ 32) ∧
        (∀ s ∈ texts, s.length ≤ maxString) ∧ ∀ n ∈ vectors, n ≤ maxContainer :=
  ⟨fun h => ⟨h.counters, h.counters32, h.texts, h.vectors⟩, fun ⟨h, h', ht, hv⟩ => ⟨h, h', ht, hv⟩⟩

@[simp] theorem within_append (x y : Extent) : (x ++ y).Within ↔ x.Within ∧ y.Within := by
  change (Extent.mk _ _ _ _).Within ↔ _
  obtain ⟨c, c', t, v⟩ := x
  obtain ⟨d, d', u, w⟩ := y
  simp only [within_mk, List.forall_mem_append]
  tauto

end Extent

def ExecutionPolicy.extent (r : ExecutionPolicy) : Extent := { counters := [r.generation] }

def Evidence.extent (r : Evidence) : Extent := { texts := [r.source] }

def BindingRef.extent (r : BindingRef) : Extent := { texts := [r.label] }

def BindingSet.extent (s : BindingSet) : Extent :=
  { texts := s.refs.map BindingRef.label, vectors := [s.refs.length] }

def ActionRecord.extent (r : ActionRecord) : Extent :=
  { counters := [r.generation, r.executionGeneration, r.incarnationGeneration, r.sequence,
      r.attemptGeneration, r.effectGeneration, r.replayGeneration, r.replayedFromGeneration]
    counters32 := [r.dispatchCount]
    texts := [r.requestKey] } ++ r.receipt.extent

def ProgressRecord.extent (r : ProgressRecord) : Extent :=
  { counters := [r.generation, r.executionGeneration, r.actionGeneration, r.epoch, r.ordinal,
      r.durableSequence] }

def CheckpointRecord.extent (r : CheckpointRecord) : Extent :=
  { counters := [r.generation, r.executionGeneration, r.incarnationGeneration,
      r.progressGeneration, r.actionGeneration, r.policyGeneration, r.epoch, r.parentGeneration,
      r.effectBoundaryOrdinal]
    counters32 := [r.lineageDepth] } ++ r.bindings.extent

def ContinuationRecord.extent (r : ContinuationRecord) : Extent :=
  { counters := [r.generation, r.executionGeneration, r.incarnationGeneration,
      r.checkpointGeneration, r.progressGeneration, r.actionGeneration, r.policyGeneration, r.epoch,
      r.recoveryGeneration, r.resumeOrdinal] } ++ r.bindings.extent

def LeaseRecord.extent (r : LeaseRecord) : Extent :=
  { counters := [r.generation, r.executionGeneration, r.incarnationGeneration, r.epoch,
      r.policyGeneration] } ++ r.bindings.extent

def ReplayRecord.extent (r : ReplayRecord) : Extent :=
  { counters := [r.generation, r.executionGeneration, r.actionGeneration, r.newActionGeneration,
      r.progressGeneration, r.checkpointGeneration, r.policyGeneration, r.epoch]
    texts := [r.requestKey] } ++ r.evidence.extent

def AmbiguityRecord.extent (r : AmbiguityRecord) : Extent :=
  { counters := [r.generation, r.executionGeneration, r.actionGeneration, r.actionOrdinal]
    texts := [r.reason, r.resolutionNote] } ++ r.resolutionEvidence.extent

def CommitRecord.extent (r : CommitRecord) : Extent :=
  { counters := [r.executionGeneration, r.actionGeneration, r.progressGeneration, r.epoch] }

def ExecutionRecord.extent (r : ExecutionRecord) : Extent :=
  { counters := [r.generation, r.incarnationGeneration, r.continuationGeneration,
      r.progressGeneration, r.actionGeneration, r.actionFrontier, r.blockedAboveOrdinal,
      r.checkpointGeneration, r.policyGeneration, r.epoch, r.leaseGeneration, r.recoveryGeneration,
      r.ambiguityGeneration, r.committedActions, r.replayCount, r.createdSequence] } ++
    r.bindings.extent

def RecoveryRecord.extent (r : RecoveryRecord) : Extent :=
  { counters := [r.generation, r.executionGeneration, r.continuationGeneration,
      r.checkpointGeneration, r.epoch]
    texts := [r.explanation] } ++ r.evidence.extent

def StoreMetaRecord.extent (r : StoreMetaRecord) : Extent :=
  { counters := [r.epoch, r.nextExecutionSequence, r.sequence], counters32 := [r.schema] }

def BarrierRecord.extent (r : BarrierRecord) : Extent := { counters := [r.sequence] }

def CommitGroupRecord.extent (r : CommitGroupRecord) : Extent :=
  r.commit.extent ++ r.progress.extent ++ r.action.extent ++ r.execution.extent

/-! ## Values that fit -/

section Fits

variable {α β : Type}

@[simp] theorem fits_counter (n : Nat) : counter.fits n = decide (n < 2 ^ 64) := rfl

@[simp] theorem fits_counter32 (n : Nat) : counter32.fits n = decide (n < 2 ^ 32) := rfl

@[simp] theorem fits_u8 (v : UInt8) : u8.fits v = true := decide_eq_true v.toNat_lt

@[simp] theorem fits_u32 (v : UInt32) : u32.fits v = true := decide_eq_true v.toNat_lt

@[simp] theorem fits_u64 (v : UInt64) : u64.fits v = true := decide_eq_true v.toNat_lt

@[simp] theorem fits_id {d : IdDomain} (i : Id d) : idCodec.fits i = true := fits_u64 i.value

@[simp] theorem fits_boolean (b : Bool) : boolean.fits b = true := by
  cases b <;> rfl

@[simp] theorem fits_text (s : Bytes) : textCodec.fits s = decide (s.length ≤ maxString) := by
  have hlimit : maxString < 256 ^ 4 := by decide
  change (decide (s.length < 256 ^ 4) && decide (s.length ≤ maxString)) = _
  by_cases h : s.length ≤ maxString
  · rw [decide_eq_true h, decide_eq_true (Nat.lt_of_le_of_lt h hlimit), Bool.and_self]
  · rw [decide_eq_false h, Bool.and_false]

@[simp] theorem fits_ordinal [DecidableEq α] {values : List α}
    (h : ∀ a, values[values.idxOf a]? = some a) (hnodup : values.Nodup)
    (hlength : values.length ≤ 256) (a : α) : (ordinal values h hnodup).fits a = true := by
  obtain ⟨hlt, -⟩ := List.getElem?_eq_some_iff.mp (h a)
  exact decide_eq_true (Nat.lt_of_lt_of_le hlt hlength)

theorem fits_vector (c : Codec maxTotal α) (as : List α) :
    (c.vector 4 maxContainer).fits as = (decide (as.length ≤ maxContainer) && as.all c.fits) := by
  have hlimit : maxContainer < 256 ^ 4 := by decide
  change ((decide (as.length < 256 ^ 4) && decide (as.length ≤ maxContainer)) && _) = _
  by_cases h : as.length ≤ maxContainer
  · rw [decide_eq_true h, decide_eq_true (Nat.lt_of_le_of_lt h hlimit), Bool.and_self]
  · rw [decide_eq_false h, Bool.and_false]

@[simp] theorem fits_pair (c : Codec maxTotal α) (d : Codec maxTotal β) (p : α × β) :
    (c.pair d).fits p = (c.fits p.1 && d.fits p.2) := rfl

@[simp] theorem fits_imap (c : Codec maxTotal α) (toValue : α → β) (ofValue : β → α)
    (h : ∀ b, toValue (ofValue b) = b) (h' : ∀ a, c.fits a = true → ofValue (toValue a) = a)
    (b : β) : (c.imap toValue ofValue h h').fits b = c.fits (ofValue b) := rfl

end Fits

theorem fits_executionPolicy (r : ExecutionPolicy) :
    executionPolicyCodec.fits r = true ↔ r.extent.Within := by
  simp (disch := decide) [executionPolicyCodec, replayAllowanceCodec, ambiguityHandlingCodec,
    recoveryPreferenceCodec, staleBindingBehaviorCodec, durabilityModeCodec, ExecutionPolicy.extent]

theorem fits_evidence (r : Evidence) : evidenceCodec.fits r = true ↔ r.extent.Within := by
  simp (disch := decide) [evidenceCodec, evidenceKindCodec, Evidence.extent]

theorem fits_bindingRef (r : BindingRef) : bindingRefCodec.fits r = true ↔ r.extent.Within := by
  simp (disch := decide) [bindingRefCodec, bindingDomainCodec, BindingRef.extent]

theorem fits_bindingSet (s : BindingSet) : bindingSetCodec.fits s = true ↔ s.extent.Within := by
  simp only [bindingSetCodec, fits_imap, fits_vector, Bool.and_eq_true, List.all_eq_true,
    decide_eq_true_eq, fits_bindingRef, BindingRef.extent, BindingSet.extent, Extent.within_mk,
    List.forall_mem_map]
  simp [and_comm]

theorem fits_actionRecord (r : ActionRecord) :
    actionRecordCodec.fits r = true ↔ r.extent.Within := by
  simp (disch := decide) [actionRecordCodec, sideEffectClassCodec, actionStatusCodec,
    fits_evidence, ActionRecord.extent]
  tauto

theorem fits_progressRecord (r : ProgressRecord) :
    progressRecordCodec.fits r = true ↔ r.extent.Within := by
  simp (disch := decide) [progressRecordCodec, ProgressRecord.extent]

theorem fits_checkpointRecord (r : CheckpointRecord) :
    checkpointRecordCodec.fits r = true ↔ r.extent.Within := by
  simp (disch := decide) [checkpointRecordCodec, checkpointStateCodec, fits_bindingSet,
    CheckpointRecord.extent]
  tauto

theorem fits_continuationRecord (r : ContinuationRecord) :
    continuationRecordCodec.fits r = true ↔ r.extent.Within := by
  simp (disch := decide) [continuationRecordCodec, continuationStateCodec, fits_bindingSet,
    ContinuationRecord.extent]
  tauto

theorem fits_leaseRecord (r : LeaseRecord) : leaseRecordCodec.fits r = true ↔ r.extent.Within := by
  simp (disch := decide) [leaseRecordCodec, leaseStateCodec, fits_bindingSet, LeaseRecord.extent]
  tauto

theorem fits_replayRecord (r : ReplayRecord) :
    replayRecordCodec.fits r = true ↔ r.extent.Within := by
  simp (disch := decide) [replayRecordCodec, sideEffectClassCodec, replayStatusCodec,
    fits_evidence, ReplayRecord.extent]
  tauto

theorem fits_ambiguityRecord (r : AmbiguityRecord) :
    ambiguityRecordCodec.fits r = true ↔ r.extent.Within := by
  simp (disch := decide) [ambiguityRecordCodec, sideEffectClassCodec, ambiguityStateCodec,
    fits_evidence, AmbiguityRecord.extent]
  tauto

theorem fits_commitRecord (r : CommitRecord) :
    commitRecordCodec.fits r = true ↔ r.extent.Within := by
  simp (disch := decide) [commitRecordCodec, CommitRecord.extent]

theorem fits_executionRecord (r : ExecutionRecord) :
    executionRecordCodec.fits r = true ↔ r.extent.Within := by
  simp (disch := decide) [executionRecordCodec, lifecycleCodec, fits_bindingSet,
    ExecutionRecord.extent]
  tauto

theorem fits_recoveryRecord (r : RecoveryRecord) :
    recoveryRecordCodec.fits r = true ↔ r.extent.Within := by
  simp (disch := decide) [recoveryRecordCodec, fits_evidence, RecoveryRecord.extent]
  tauto

theorem fits_storeMetaRecord (r : StoreMetaRecord) :
    storeMetaRecordCodec.fits r = true ↔ r.extent.Within := by
  simp (disch := decide) [storeMetaRecordCodec, StoreMetaRecord.extent]
  tauto

theorem fits_barrierRecord (r : BarrierRecord) :
    barrierRecordCodec.fits r = true ↔ r.extent.Within := by
  simp (disch := decide) [barrierRecordCodec, BarrierRecord.extent]

theorem fits_commitGroupRecord (r : CommitGroupRecord) :
    commitGroupRecordCodec.fits r = true ↔ r.extent.Within := by
  simp only [commitGroupRecordCodec, fits_imap, fits_pair, Bool.and_eq_true, fits_commitRecord,
    fits_progressRecord, fits_actionRecord, fits_executionRecord, CommitGroupRecord.extent,
    Extent.within_append, and_assoc]

/-! ## Canonicity -/

/-- Every durable record within the decode limits is read back from its encoding and nothing else
is read, it has one encoding, and no encoding of it is a proper beginning of another. -/
theorem record_codecs_canonical :
    executionPolicyCodec.Canonical (fun r => r.extent.Within) ∧
    evidenceCodec.Canonical (fun r => r.extent.Within) ∧
    bindingRefCodec.Canonical (fun r => r.extent.Within) ∧
    bindingSetCodec.Canonical (fun r => r.extent.Within) ∧
    actionRecordCodec.Canonical (fun r => r.extent.Within) ∧
    progressRecordCodec.Canonical (fun r => r.extent.Within) ∧
    checkpointRecordCodec.Canonical (fun r => r.extent.Within) ∧
    continuationRecordCodec.Canonical (fun r => r.extent.Within) ∧
    leaseRecordCodec.Canonical (fun r => r.extent.Within) ∧
    replayRecordCodec.Canonical (fun r => r.extent.Within) ∧
    ambiguityRecordCodec.Canonical (fun r => r.extent.Within) ∧
    commitRecordCodec.Canonical (fun r => r.extent.Within) ∧
    executionRecordCodec.Canonical (fun r => r.extent.Within) ∧
    recoveryRecordCodec.Canonical (fun r => r.extent.Within) ∧
    storeMetaRecordCodec.Canonical (fun r => r.extent.Within) ∧
    barrierRecordCodec.Canonical (fun r => r.extent.Within) ∧
    commitGroupRecordCodec.Canonical (fun r => r.extent.Within) :=
  ⟨Codec.canonical _ fits_executionPolicy, Codec.canonical _ fits_evidence,
    Codec.canonical _ fits_bindingRef, Codec.canonical _ fits_bindingSet,
    Codec.canonical _ fits_actionRecord, Codec.canonical _ fits_progressRecord,
    Codec.canonical _ fits_checkpointRecord, Codec.canonical _ fits_continuationRecord,
    Codec.canonical _ fits_leaseRecord, Codec.canonical _ fits_replayRecord,
    Codec.canonical _ fits_ambiguityRecord, Codec.canonical _ fits_commitRecord,
    Codec.canonical _ fits_executionRecord, Codec.canonical _ fits_recoveryRecord,
    Codec.canonical _ fits_storeMetaRecord, Codec.canonical _ fits_barrierRecord,
    Codec.canonical _ fits_commitGroupRecord⟩

/-- A set of one labelled binding, read back from its 39 bytes, and not from them with one more. -/
theorem record_codecs_canonical_bindings :
    let s : BindingSet := ⟨[⟨.memory, ⟨5⟩, 1, [0x6D, 0x65]⟩]⟩
    s.extent.Within ∧ bindingSetCodec.decodeAll (bindingSetCodec.write s) = some s ∧
      bindingSetCodec.decodeAll (bindingSetCodec.write s ++ [0]) = none := by
  intro s
  have hwithin : s.extent.Within := ⟨by decide, by decide, by decide, by decide⟩
  have hcanonical := record_codecs_canonical.2.2.2.1
  have hread := hcanonical.round_trip s hwithin (by decide)
  exact ⟨hwithin, hread, hcanonical.closed _ [0] s hread (List.cons_ne_nil _ _)⟩

end ExecutionFabric
