import ExecutionFabric.Model.Persistence
import ExecutionFabric.Model.System

/-!
# Opening a runtime on the files of a store

`Runtime::open` down to the bytes: the journal and the snapshot are read from disk, with
every refusal of a damaged or foreign file. What follows the load is the restart of
`openRuntime`.
-/
namespace ExecutionFabric

open Lib Program

variable [AppendLimit]

/-- The store handle of a runtime, placed over the files found under the configured path. -/
def FileDurableStore.over (s : FileDurableStore) (files : Option Files) : ByteStore where
  files := files
  isOpen := s.isOpen
  storeId := s.storeId
  lastSequence := s.lastSequence

/-- The handle after the bytes were opened. -/
def FileDurableStore.follow (s : FileDurableStore) (bytes : ByteStore) : FileDurableStore :=
  { s with isOpen := bytes.isOpen, storeId := bytes.storeId, lastSequence := bytes.lastSequence }

/-- The checks `Runtime::open` makes of what `FileDurableStore::load` left in memory. -/
def acceptLoaded (loaded : LoadOutcome) (storeId : StoreId) : Op FileReport := do
  Op.setState fun _ => loaded.state
  refuseOn loaded.status
  refuseIf (loaded.state.store ≠ .nil ∧ loaded.state.store ≠ storeId)
    (err .corruptState "journal store id does not match the recovered state")
  Op.setState fun st => { st with store := storeId }
  refuseIf (loaded.state.schema ≠ 0 ∧ loaded.state.schema ≠ persistenceSchemaVersion)
    (err .unsupported "durable state schema is not supported by this build")
  Op.setState fun st => { st with schema := persistenceSchemaVersion }
  return loaded.report

/-- `FileDurableStore::open` and `load`, and the checks of what they found. -/
def loadFilesState (files : Option Files) (entropy : UInt64) : Op FileReport := do
  let s ← get
  let opened := (s.store.over files).openStore s.config.createIfMissing s.config.storeLimits entropy
  Program.update fun s => s.mapJournaled fun j => { j with store := j.store.follow opened.2 }
  check opened.1
  acceptLoaded (opened.2.load s.state) opened.2.storeId

/-- `Runtime::open` once the store is loaded. The epoch found on disk may be the last one: the
64-bit counter then starts again at 0. -/
def openLoaded (report : FileReport) : Op OpenOutcome := do
  let loaded ← get
  let reconciled ← reconcile
  let (revoked, changed) ← restartAt ((loaded.state.epoch + 1) % 2 ^ 64)
  Program.update fun s => { s with isOpen := true }
  let s ← get
  let pending := (s.state.executions.records.filter fun x => x.lifecycle = .recoveryRequired).map
    ExecutionRecord.id
  let notes ← recoverPending { epoch := s.state.epoch } pending
  return {
    previousEpoch := loaded.state.epoch
    epoch := s.state.epoch
    created := !report.snapshotPresent && report.recordsLoaded = 0
    reclassified := changed.map ExecutionRecord.id
    leasesRevoked := revoked.length
    reconciledCommits := reconciled.repairs.length
    detail := (if reconciled.changed then "reconciled " ++ toString reconciled.repairs.length ++
      " commit(s) whose aggregate update was lost; " else "") ++ notes }

/-- `Runtime::open` over the files under `config.store_path`, `none` when nothing is there. -/
def openFiles (config : RuntimeConfig) (files : Option Files) (entropy : UInt64) :
    Op OpenOutcome := do
  let s ← get
  refuseIf (s.isOpen = true) (err .alreadyExists "runtime is already open")
  Program.update fun s => { s with config := config, shuttingDown := false }
  let report ← loadFilesState files entropy
  openLoaded report

/-- The status of `Runtime::open` and the durable state it leaves. -/
def openedOn (s : Runtime) (config : RuntimeConfig) (files : Option Files) (entropy : UInt64) :
    Except Status Unit × DurableState :=
  let ended := (openFiles config files entropy).exec s
  (ended.1.map fun _ => (), ended.2.state)

/-- The runtime after `Runtime::open` over some files. -/
def Runtime.openedOver (s : Runtime) (config : RuntimeConfig) (files : Option Files)
    (entropy : UInt64) : Runtime :=
  ((openFiles config files entropy).exec s).2

/-- The files under the configured path after `FileDurableStore::open`, to which the restart appends
its records. -/
def Runtime.filesAfter (s : Runtime) (config : RuntimeConfig) (files : Option Files)
    (entropy : UInt64) : Option Files :=
  if s.isOpen then files
  else ((s.store.over files).openStore config.createIfMissing config.storeLimits entropy).2.files

/-- `next_execution_sequence` is 64 bits wide: after its last value it starts again at 0. -/
def Runtime.wrapped (s : Runtime) : Runtime :=
  s.mapJournaled fun j => { j with state := { j.state with
    nextExecutionSequence := j.state.nextExecutionSequence % 2 ^ 64 } }

/-- The states of one runtime object: constructed, opened over whatever files, called. -/
inductive Lived : Runtime → Prop
  | constructed : Lived {}
  | opened {s : Runtime} (h : Lived s) (config : RuntimeConfig) (files : Option Files)
      (entropy : UInt64) : Lived (s.openedOver config files entropy)
  | called {s : Runtime} (h : Lived s) (c : Call)
      (hc : ∀ config entropy, c ≠ .openRuntime config entropy) : Lived (c.perform s).wrapped

/-- The limit the store of a runtime is opened with. -/
@[reducible] def payloadLimit : AppendLimit :=
  ⟨fun s entry => entry.encode.length > s.config.storeLimits.maxJournalPayload⟩

end ExecutionFabric
