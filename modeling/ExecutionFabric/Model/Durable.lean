import ExecutionFabric.Lib.Table
import ExecutionFabric.Model.Recovery

/-!
# Durable state, journal records and the store

The durable state is eleven keyed tables and five scalars. Every journal record is
a full-record upsert, so replay is a fold. The store is one directory with at most
one snapshot and one append-only journal; here both hold decoded records, and
`ExecutionFabric.Persistence` gives the bytes they stand for.
-/
namespace ExecutionFabric

open Lib

def persistenceSchemaVersion : Nat := 1

structure StoreMetaRecord where
  store : StoreId := .nil
  epoch : Nat := 0
  nextExecutionSequence : Nat := 1
  sequence : Nat := 0
  schema : Nat := 0
  deriving DecidableEq, Repr

structure BarrierRecord where
  sequence : Nat := 0
  reason : UInt32 := 0
  deriving DecidableEq, Repr

/-- One logical commit and everything it implies, written as one record. -/
structure CommitGroupRecord where
  commit : CommitRecord
  progress : ProgressRecord
  action : ActionRecord
  execution : ExecutionRecord
  deriving DecidableEq, Repr

/-- A journal record with its decoded payload, one constructor for each record kind. -/
inductive JournalEntry
  | storeMeta (r : StoreMetaRecord)
  | policy (r : ExecutionPolicy)
  | execution (r : ExecutionRecord)
  | action (r : ActionRecord)
  | progress (r : ProgressRecord)
  | checkpoint (r : CheckpointRecord)
  | continuation (r : ContinuationRecord)
  | lease (r : LeaseRecord)
  | replay (r : ReplayRecord)
  | ambiguity (r : AmbiguityRecord)
  | commit (r : CommitRecord)
  | recovery (r : RecoveryRecord)
  | barrier (r : BarrierRecord)
  | commitGroup (r : CommitGroupRecord)
  deriving DecidableEq, Repr

/-- The complete durable state of one store. -/
structure DurableState where
  store : StoreId := .nil
  epoch : Nat := 0
  sequence : Nat := 0
  nextExecutionSequence : Nat := 1
  schema : Nat := 0
  policies : Table ExecutionPolicy.id := .empty
  executions : Table ExecutionRecord.id := .empty
  actions : Table ActionRecord.key := .empty
  progress : Table ProgressRecord.id := .empty
  checkpoints : Table CheckpointRecord.id := .empty
  continuations : Table ContinuationRecord.id := .empty
  leases : Table LeaseRecord.id := .empty
  replays : Table ReplayRecord.id := .empty
  ambiguities : Table AmbiguityRecord.id := .empty
  commits : Table CommitRecord.id := .empty
  recoveries : Table RecoveryRecord.id := .empty

namespace DurableState

/-- Drops every record. The scalars keep their values. -/
def clear (st : DurableState) : DurableState :=
  { store := st.store
    epoch := st.epoch
    sequence := st.sequence
    nextExecutionSequence := st.nextExecutionSequence
    schema := st.schema }

def findAction (st : DurableState) (id : ActionId) (generation : Nat) :
    Option ActionRecord := st.actions.find ⟨id, generation⟩

/-- The highest generation recorded for a logical action. -/
def findLatestAction (st : DurableState) (id : ActionId) : Option ActionRecord :=
  st.actions.records.foldl (fun best r =>
    if r.id ≠ id then best
    else match best with
      | none => some r
      | some b => if r.generation > b.generation then some r else some b) none

/-- The same tables in canonical order, which is the order a snapshot stores. -/
def canonical (st : DurableState) : DurableState :=
  { st with
    policies := st.policies.canonical
    executions := st.executions.canonical
    actions := st.actions.canonical
    progress := st.progress.canonical
    checkpoints := st.checkpoints.canonical
    continuations := st.continuations.canonical
    leases := st.leases.canonical
    replays := st.replays.canonical
    ambiguities := st.ambiguities.canonical
    commits := st.commits.canonical
    recoveries := st.recoveries.canonical }

/-- What a journal record writes. -/
def install (st : DurableState) : JournalEntry → DurableState
  | .storeMeta r =>
    { st with
      store := r.store
      epoch := r.epoch
      nextExecutionSequence := r.nextExecutionSequence
      schema := r.schema }
  | .policy r => { st with policies := st.policies.upsert r }
  | .execution r => { st with executions := st.executions.upsert r }
  | .action r => { st with actions := st.actions.upsert r }
  | .progress r => { st with progress := st.progress.upsert r }
  | .checkpoint r => { st with checkpoints := st.checkpoints.upsert r }
  | .continuation r => { st with continuations := st.continuations.upsert r }
  | .lease r => { st with leases := st.leases.upsert r }
  | .replay r => { st with replays := st.replays.upsert r }
  | .ambiguity r => { st with ambiguities := st.ambiguities.upsert r }
  | .commit r => { st with commits := st.commits.upsert r }
  | .recovery r => { st with recoveries := st.recoveries.upsert r }
  | .barrier _ => st
  | .commitGroup r =>
    { st with
      commits := st.commits.upsert r.commit
      progress := st.progress.upsert r.progress
      actions := st.actions.upsert r.action
      executions := st.executions.upsert r.execution }

end DurableState

/-- `apply_record` on a decoded payload: metadata of a different store is refused. -/
def applyRecord (st : DurableState) (entry : JournalEntry) : Option DurableState :=
  match entry with
  | .storeMeta r =>
    if st.store.valid ∧ r.store ≠ st.store then none else some (st.install (.storeMeta r))
  | e => some (st.install e)

/-! ## Reconciliation

A torn journal tail can leave detail records that the aggregate never promoted. -/

/-- The better of the best progress record so far and `p`. -/
def betterProgress (execution : ExecutionId) (best : Option ProgressRecord) (p : ProgressRecord) :
    Option ProgressRecord :=
  if p.execution ≠ execution ∨ ¬ p.committed then best
  else match best with
    | none => some p
    | some b => if p.generation > b.generation then some p else some b

/-- The newest committed progress record of an execution. -/
def newestProgress (st : DurableState) (execution : ExecutionId) : Option ProgressRecord :=
  st.progress.records.foldl (betterProgress execution) none

def committedCount (st : DurableState) (execution : ExecutionId) : Nat :=
  (st.progress.records.filter fun p => p.execution = execution ∧ p.committed).length

/-- The frontier and action generation reached once `a` is taken into account. -/
def reach (execution : ExecutionId) (reached : Nat × Nat) (a : ActionRecord) :
    Nat × Nat :=
  if a.execution ≠ execution then reached
  else if a.sequence > reached.1 then (a.sequence, a.generation)
  else if a.sequence = reached.1 ∧ a.generation > reached.2 then (reached.1, a.generation)
  else reached

/-- The frontier and action generation the stored actions of an execution reach. -/
def reachedFrontier (st : DurableState) (x : ExecutionRecord) : Nat × Nat :=
  st.actions.records.foldl (reach x.id) (x.actionFrontier, x.actionGeneration)

/-- The state being reconciled, the repairs so far, and whether anything changed. -/
structure Reconciliation where
  state : DurableState
  repairs : List CommitGroupRecord
  changed : Bool

/-- The execution with another action frontier. -/
def ExecutionRecord.reaching (x : ExecutionRecord) (frontier : Nat) (generation : Nat) :
    ExecutionRecord :=
  { x with actionFrontier := frontier, actionGeneration := generation }

/-- Brings the action frontier of one execution forward to its stored actions. -/
def reconcileFrontier (r : Reconciliation) (x : ExecutionRecord) :
    Reconciliation × ExecutionRecord :=
  let reached := reachedFrontier r.state x
  if reached.1 ≠ x.actionFrontier then
    let advanced := x.reaching reached.1 reached.2
    ({ r with state := r.state.install (.execution advanced), changed := true }, advanced)
  else (r, x)

/-- Promotes the newest committed progress of one execution when the aggregate lost it. -/
def reconcileCommit (r : Reconciliation) (x : ExecutionRecord) (best : Option ProgressRecord)
    (committed : Nat) : Reconciliation :=
  match best with
  | none => r
  | some best =>
    if best.generation ≤ x.progressGeneration then r
    else
      match r.state.commits.find best.commit with
      | none => r
      | some commit =>
        match r.state.actions.find commit.actionKey with
        | none => r
        | some action =>
          let next := { x with
            progressGeneration := best.generation
            progress := best.id
            lastCommit := best.commit
            committedActions := committed }
          let sealed := if action.status ≠ .committed ∨ action.commit ≠ commit.id then
              { action with status := .committed, commit := commit.id }
            else action
          { state := (r.state.install (.action sealed)).install (.execution next)
            repairs := r.repairs ++ [⟨commit, best, sealed, next⟩]
            changed := true }

def reconcileExecution (r : Reconciliation) (id : ExecutionId) : Reconciliation :=
  match r.state.executions.find id with
  | none => r
  | some x =>
    let best := newestProgress r.state id
    let committed := committedCount r.state id
    let advanced := reconcileFrontier r x
    reconcileCommit advanced.1 advanced.2 best committed

def reconcileState (st : DurableState) : Reconciliation :=
  (st.executions.canonicalOrder.map ExecutionRecord.id).foldl reconcileExecution ⟨st, [], false⟩

/-! ## The store -/

/-- Storage limits, independent of the decode limits. -/
structure StoreLimits where
  maxJournalPayload : Nat := 8 * 1024 * 1024
  maxSnapshotPayload : Nat := 512 * 1024 * 1024
  maxJournalLoadBytes : Nat := 1024 * 1024 * 1024
  deriving DecidableEq, Repr

/-- A journal record together with its sequence number. -/
structure Sequenced where
  sequence : Nat
  entry : JournalEntry
  deriving DecidableEq, Repr

/-- What is on disk: the journal header, the journal records and the snapshot. -/
structure Directory where
  storeId : StoreId
  firstSequence : Nat := 1
  records : List Sequenced := []
  snapshot : Option DurableState := none

namespace Directory

/-- The sequence number of the last readable record. -/
def lastSequence (d : Directory) : Nat :=
  match d.records.getLast? with
  | some r => r.sequence
  | none => d.firstSequence - 1

/-- The sequence number the snapshot covers, 0 without a snapshot. -/
def snapshotSequence (d : Directory) : Nat :=
  match d.snapshot with
  | some st => st.sequence
  | none => 0

/-- The journal cut after the record numbered `kept`. -/
def cut (d : Directory) (kept : Nat) : Directory :=
  { d with records := d.records.filter fun r => r.sequence ≤ kept }

end Directory

/-- `FileDurableStore`. `history` lists every record ever appended, dropped ones included; no
operation reads it. -/
structure FileDurableStore where
  directory : Option Directory := none
  isOpen : Bool := false
  storeId : StoreId := .nil
  lastSequence : Nat := 0
  history : List JournalEntry := []

structure LoadReport where
  snapshotPresent : Bool := false
  recordsLoaded : Nat := 0
  deriving DecidableEq, Repr

/-- Replays the records newer than the snapshot; returns how many were applied. A record that does
not apply stops the replay and leaves the state reached so far. -/
def replay (snapshotSequence : Nat) (st : DurableState) (loaded : Nat) :
    List Sequenced → Except Status Nat × DurableState
  | [] => (.ok loaded, st)
  | r :: rest =>
    if r.sequence > snapshotSequence then
      match applyRecord st r.entry with
      | none => (.error (err .corruptState "journal record payload does not decode"), st)
      | some st => replay snapshotSequence { st with sequence := r.sequence } (loaded + 1) rest
    else replay snapshotSequence st loaded rest

/-- The state a load starts from: the snapshot, or the cleared state it was handed. -/
def loadBase (d : Directory) (out : DurableState) : DurableState :=
  let base := match d.snapshot with
    | some st => st
    | none => out.clear
  if base.store = .nil ∧ d.storeId ≠ .nil then { base with store := d.storeId } else base

/-- Loads the snapshot, if there is one, and replays the journal records newer than it. -/
def loadDirectory (d : Directory) (out : DurableState) : Except Status LoadReport × DurableState :=
  let base := loadBase d out
  if d.snapshot.isSome ∧ d.storeId ≠ .nil ∧ d.storeId ≠ base.store then
    (.error (err .corruptState "journal store id does not match the snapshot"), base)
  else
    let replayed := replay d.snapshotSequence base 0 d.records
    (replayed.1.map fun loaded =>
      { snapshotPresent := d.snapshot.isSome, recordsLoaded := loaded }, replayed.2)

namespace FileDurableStore

/-- Opens the store, creating it under the store id `entropy` when it is missing. -/
def openStore (s : FileDurableStore) (createIfMissing : Bool) (entropy : UInt64) :
    Except Status Unit × FileDurableStore :=
  if s.isOpen then (.error (err .invalidArgument "store is already open"), s)
  else
    match s.directory, createIfMissing with
    | none, false => (.error (err .notFound "store directory does not exist: "), s)
    | found, _ =>
      let d := found.getD { storeId := ⟨entropy⟩ }
      let s := { s with directory := some d, storeId := d.storeId }
      if d.storeId = .nil then
        (.error (err .corruptState "journal header carries a nil store id"), s)
      else
        (.ok (), { s with isOpen := true, lastSequence := d.lastSequence })

/-- Appends one record under the next sequence number. -/
def append (s : FileDurableStore) (entry : JournalEntry) : FileDurableStore :=
  { s with
    directory := s.directory.map fun d =>
      { d with records := d.records ++ [⟨s.lastSequence + 1, entry⟩] }
    lastSequence := s.lastSequence + 1
    history := s.history ++ [entry] }

/-- Replaces the snapshot and optionally starts a fresh journal. -/
def writeSnapshot (s : FileDurableStore) (st : DurableState) (truncateJournal : Bool) :
    FileDurableStore :=
  let s := { s with
    directory := s.directory.map fun d => { d with snapshot := some st.canonical } }
  if truncateJournal then
    { s with
      directory := s.directory.map fun d =>
        { d with storeId := st.store, firstSequence := st.sequence + 1, records := [] }
      lastSequence := st.sequence }
  else s

def close (s : FileDurableStore) : FileDurableStore := { s with isOpen := false }

end FileDurableStore

end ExecutionFabric
