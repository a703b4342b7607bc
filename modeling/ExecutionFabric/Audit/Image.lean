import ExecutionFabric.Model.System

/-!
# The durable image

An image is what a durable state means: the same scalars, and for each table the
map from keys to records. Insertion order and the journal position are forgotten.
Every journal record is a point update of the image, so a run is a sequence of
image updates, and the invariants of the following modules are about images.
-/
namespace ExecutionFabric

open Lib

/-- A durable state up to insertion order. -/
@[ext] structure Image where
  store : StoreId
  epoch : Nat
  nextExecutionSequence : Nat
  schema : Nat
  policies : KeyedMap ExecutionPolicy.id
  executions : KeyedMap ExecutionRecord.id
  actions : KeyedMap ActionRecord.key
  progress : KeyedMap ProgressRecord.id
  checkpoints : KeyedMap CheckpointRecord.id
  continuations : KeyedMap ContinuationRecord.id
  leases : KeyedMap LeaseRecord.id
  replays : KeyedMap ReplayRecord.id
  ambiguities : KeyedMap AmbiguityRecord.id
  commits : KeyedMap CommitRecord.id
  recoveries : KeyedMap RecoveryRecord.id

def DurableState.image (st : DurableState) : Image where
  store := st.store
  epoch := st.epoch
  nextExecutionSequence := st.nextExecutionSequence
  schema := st.schema
  policies := st.policies.toMap
  executions := st.executions.toMap
  actions := st.actions.toMap
  progress := st.progress.toMap
  checkpoints := st.checkpoints.toMap
  continuations := st.continuations.toMap
  leases := st.leases.toMap
  replays := st.replays.toMap
  ambiguities := st.ambiguities.toMap
  commits := st.commits.toMap
  recoveries := st.recoveries.toMap

/-! ## What a journal record puts in each table -/

namespace JournalEntry

def policies : JournalEntry → List ExecutionPolicy
  | .policy r => [r]
  | _ => []

def executions : JournalEntry → List ExecutionRecord
  | .execution r => [r]
  | .commitGroup r => [r.execution]
  | _ => []

def actions : JournalEntry → List ActionRecord
  | .action r => [r]
  | .commitGroup r => [r.action]
  | _ => []

def progresses : JournalEntry → List ProgressRecord
  | .progress r => [r]
  | .commitGroup r => [r.progress]
  | _ => []

def checkpoints : JournalEntry → List CheckpointRecord
  | .checkpoint r => [r]
  | _ => []

def continuations : JournalEntry → List ContinuationRecord
  | .continuation r => [r]
  | _ => []

def leases : JournalEntry → List LeaseRecord
  | .lease r => [r]
  | _ => []

def replays : JournalEntry → List ReplayRecord
  | .replay r => [r]
  | _ => []

def ambiguities : JournalEntry → List AmbiguityRecord
  | .ambiguity r => [r]
  | _ => []

def commits : JournalEntry → List CommitRecord
  | .commit r => [r]
  | .commitGroup r => [r.commit]
  | _ => []

def recoveries : JournalEntry → List RecoveryRecord
  | .recovery r => [r]
  | _ => []

end JournalEntry

namespace Image

/-- What a journal record does to an image. -/
def install (m : Image) : JournalEntry → Image
  | .storeMeta r =>
    { m with
      store := r.store
      epoch := r.epoch
      nextExecutionSequence := r.nextExecutionSequence
      schema := r.schema }
  | .policy r => { m with policies := m.policies.insert r }
  | .execution r => { m with executions := m.executions.insert r }
  | .action r => { m with actions := m.actions.insert r }
  | .progress r => { m with progress := m.progress.insert r }
  | .checkpoint r => { m with checkpoints := m.checkpoints.insert r }
  | .continuation r => { m with continuations := m.continuations.insert r }
  | .lease r => { m with leases := m.leases.insert r }
  | .replay r => { m with replays := m.replays.insert r }
  | .ambiguity r => { m with ambiguities := m.ambiguities.insert r }
  | .commit r => { m with commits := m.commits.insert r }
  | .recovery r => { m with recoveries := m.recoveries.insert r }
  | .barrier _ => m
  | .commitGroup r =>
    { m with
      commits := m.commits.insert r.commit
      progress := m.progress.insert r.progress
      actions := m.actions.insert r.action
      executions := m.executions.insert r.execution }

/-- What a list of journal records does to an image. -/
def installAll (m : Image) (entries : List JournalEntry) : Image := entries.foldl install m

@[simp] theorem installAll_nil (m : Image) : m.installAll [] = m := rfl

@[simp] theorem installAll_cons (m : Image) (e : JournalEntry) (es : List JournalEntry) :
    m.installAll (e :: es) = (m.install e).installAll es := rfl

theorem installAll_append (m : Image) (es fs : List JournalEntry) :
    m.installAll (es ++ fs) = (m.installAll es).installAll fs := by
  simp [installAll, List.foldl_append]

end Image

/-- Installing a record in the tables is a point update of the image. -/
theorem DurableState.image_install (st : DurableState) (e : JournalEntry) :
    (st.install e).image = st.image.install e := by
  cases e <;> simp only [DurableState.install, DurableState.image, Image.install,
    Table.toMap_upsert]

theorem DurableState.image_canonical (st : DurableState) : st.canonical.image = st.image := by
  simp only [DurableState.canonical, DurableState.image, Table.toMap_canonical]

/-- The empty image of a store that was never written. -/
def Image.empty : Image := DurableState.image {}

namespace Journaled

@[simp] theorem image_append (j : Journaled) (e : JournalEntry) :
    (j.append e).state.image = j.state.image := rfl

@[simp] theorem state_indexEntry (j : Journaled) (e : JournalEntry) :
    (j.indexEntry e).state = j.state := by
  unfold indexEntry
  cases e <;> simp only <;> split <;> rfl

@[simp] theorem store_indexEntry (j : Journaled) (e : JournalEntry) :
    (j.indexEntry e).store = j.store := by
  unfold indexEntry
  cases e <;> simp only <;> split <;> rfl

theorem state_put (j : Journaled) (e : JournalEntry) :
    (j.put e).state = ({ j.state with sequence := j.store.lastSequence + 1 }).install e := by
  simp only [put, append, state_indexEntry, store_indexEntry]
  rfl

@[simp] theorem store_put (j : Journaled) (e : JournalEntry) :
    (j.put e).store = j.store.append e := by
  simp [put, append]

@[simp] theorem image_put (j : Journaled) (e : JournalEntry) :
    (j.put e).state.image = j.state.image.install e := by
  rw [state_put, DurableState.image_install]
  rfl

@[simp] theorem write_nil (j : Journaled) : j.write [] = j := rfl

@[simp] theorem write_cons (j : Journaled) (e : JournalEntry) (es : List JournalEntry) :
    j.write (e :: es) = (j.put e).write es := rfl

theorem write_append (j : Journaled) (es fs : List JournalEntry) :
    j.write (es ++ fs) = (j.write es).write fs := by
  simp [write, List.foldl_append]

/-- Memory after a write is the old image with the records installed in order. -/
theorem image_write (j : Journaled) (es : List JournalEntry) :
    (j.write es).state.image = j.state.image.installAll es := by
  induction es generalizing j with
  | nil => rfl
  | cons e es ih => rw [write_cons, ih, image_put, Image.installAll_cons]

/-- Every written record is remembered in the history. -/
theorem history_write (j : Journaled) (es : List JournalEntry) :
    (j.write es).store.history = j.store.history ++ es := by
  induction es generalizing j with
  | nil => simp
  | cons e es ih =>
    rw [write_cons, ih, store_put]
    simp [FileDurableStore.append]

end Journaled

end ExecutionFabric
