import ExecutionFabric.Lib.Program
import ExecutionFabric.Model.Durable

/-!
# The runtime's state, its journaled writes and its authority checks

`Journaled` is the part of the runtime every durable write goes through: the store,
the in-memory state and the indexes derived from it. A write appends one record,
installs it in memory and maintains the indexes. `Runtime` adds the process-local
part: sessions, the request cache and the open flags.
-/
namespace ExecutionFabric

open Lib

structure CachedOutcome where
  a : UInt64
  b : UInt64
  deriving DecidableEq, Repr

structure SessionInfo where
  worker : WorkerId
  boot : WorkerBootId
  deriving DecidableEq, Repr

structure RuntimeConfig where
  createIfMissing : Bool := false
  maxExecutions : Nat := 100000
  requestCacheSize : Nat := 4096
  storeLimits : StoreLimits := {}
  deriving DecidableEq, Repr

/-- The store, the in-memory durable state, and the indexes derived from it. -/
structure Journaled where
  store : FileDurableStore := {}
  state : DurableState := {}
  actionIndex : ExecutionId → List ActionKey := fun _ => []
  checkpointIndex : ExecutionId → List CheckpointId := fun _ => []
  commitIndex : ExecutionId → List CommitId := fun _ => []
  replayIndex : ExecutionId → List ReplayId := fun _ => []

structure Runtime extends Journaled where
  config : RuntimeConfig := {}
  isOpen : Bool := false
  shuttingDown : Bool := false
  nextSession : Nat := 1
  sessions : SessionId → Option SessionInfo := fun _ => none
  requestCache : RequestId → Option CachedOutcome := fun _ => none
  requestOrder : List RequestId := []

/-- A public operation: it may refuse, and what it wrote before a refusal stays written. -/
abbrev Op (α : Type) := Program Runtime Status α

/-! ## Indexes -/

/-- Inserts a key before the first one that is not smaller, unless it is already there. -/
def insertKey (key : ActionKey) : List ActionKey → List ActionKey
  | [] => [key]
  | k :: ks =>
    if k < key then k :: insertKey key ks
    else if k = key then k :: ks
    else key :: k :: ks

/-- `index_action`: the common case appends, any other key goes to its sorted place. -/
def indexKey (keys : List ActionKey) (key : ActionKey) : List ActionKey :=
  match keys.getLast? with
  | none => [key]
  | some last => if last < key then keys ++ [key] else insertKey key keys

/-- Adds an id at the end of the execution's list. -/
def pushIndex {d : IdDomain} (index : ExecutionId → List (Id d)) (execution : ExecutionId)
    (id : Id d) : ExecutionId → List (Id d) :=
  Function.update index execution (index execution ++ [id])

namespace Journaled

def indexAction (j : Journaled) (a : ActionRecord) : ExecutionId → List ActionKey :=
  Function.update j.actionIndex a.execution (indexKey (j.actionIndex a.execution) a.key)

/-- The keys of an execution's actions in ascending order. -/
def sortedActionKeys (st : DurableState) (execution : ExecutionId) : List ActionKey :=
  ((st.actions.records.filter fun a => a.execution = execution).map ActionRecord.key).insertionSort
    fun a b => ¬ b < a

def rebuildIndexes (j : Journaled) : Journaled :=
  { j with
    actionIndex := sortedActionKeys j.state
    checkpointIndex := fun e =>
      (j.state.checkpoints.records.filter fun c => c.execution = e).map CheckpointRecord.id
    commitIndex := fun e =>
      (j.state.commits.records.filter fun c => c.execution = e).map CommitRecord.id
    replayIndex := fun e =>
      (j.state.replays.records.filter fun r => r.execution = e).map ReplayRecord.id }

/-- The action with the last key of the execution's index. -/
def latestAction (j : Journaled) (execution : ExecutionId) : Option ActionRecord :=
  match (j.actionIndex execution).getLast? with
  | none => none
  | some key => j.state.actions.find key

/-! ## Journaled writes -/

/-- Appends a record; the state remembers the sequence number it landed at. -/
def append (j : Journaled) (entry : JournalEntry) : Journaled :=
  { j with
    store := j.store.append entry
    state := { j.state with sequence := (j.store.append entry).lastSequence } }

/-- The indexes after `entry`, computed against the tables before it. -/
def indexEntry (j : Journaled) (entry : JournalEntry) : Journaled :=
  match entry with
  | .action r => { j with actionIndex := j.indexAction r }
  | .checkpoint r =>
    if j.state.checkpoints.contains r.id then j
    else { j with checkpointIndex := pushIndex j.checkpointIndex r.execution r.id }
  | .replay r =>
    if j.state.replays.contains r.id then j
    else { j with replayIndex := pushIndex j.replayIndex r.execution r.id }
  | .commit r =>
    if j.state.commits.contains r.id then j
    else { j with commitIndex := pushIndex j.commitIndex r.execution r.id }
  | .commitGroup r =>
    let j := { j with actionIndex := j.indexAction r.action }
    if j.state.commits.contains r.commit.id then j
    else { j with commitIndex := pushIndex j.commitIndex r.commit.execution r.commit.id }
  | _ => j

/-- The family `put_policy`, `put_execution`, ..., and the commit group of `stage_commit`: append,
then install in memory. -/
def put (j : Journaled) (entry : JournalEntry) : Journaled :=
  let indexed := (j.indexEntry entry).append entry
  { indexed with state := indexed.state.install entry }

/-- The store metadata of the current state. -/
def storeMeta (j : Journaled) : StoreMetaRecord :=
  { store := j.state.store
    epoch := j.state.epoch
    nextExecutionSequence := j.state.nextExecutionSequence
    sequence := j.state.sequence
    schema := persistenceSchemaVersion }

/-- `put_store_meta`: memory already holds what the record states. -/
def putStoreMeta (j : Journaled) : Journaled := j.append (.storeMeta j.storeMeta)

/-- Writes a list of records in order. -/
def write (j : Journaled) (entries : List JournalEntry) : Journaled := entries.foldl put j

end Journaled

namespace Runtime

/-- Applies a function to the journaled part. -/
def mapJournaled (s : Runtime) (f : Journaled → Journaled) : Runtime :=
  { s with toJournaled := f s.toJournaled }

end Runtime

/-- Which appends the journal refuses. -/
class AppendLimit where
  refuses : Runtime → JournalEntry → Bool

/-- A journal that takes every record. -/
instance unlimited : AppendLimit := ⟨fun _ _ => false⟩

section Appends

variable [AppendLimit]

def oversizedRecord : Status :=
  err .limitExceeded "journal record payload exceeds the configured limit"

namespace Op

/-- Goes on only when the journal takes the record. -/
def accept (entry : JournalEntry) : Op Unit := do
  let s ← get
  Program.refuseIf (AppendLimit.refuses s entry = true) oversizedRecord

def put (entry : JournalEntry) : Op Unit := do
  accept entry
  Program.update fun s => s.mapJournaled (·.put entry)

/-- One record after the other, up to the first one the journal refuses. -/
def putAll : List JournalEntry → Op Unit
  | [] => pure ()
  | entry :: rest => do
    put entry
    putAll rest

def putStoreMeta : Op Unit := do
  let s ← get
  accept (.storeMeta s.storeMeta)
  Program.update fun s => s.mapJournaled (·.putStoreMeta)

/-- Journals records memory holds already. -/
def appendAll : List JournalEntry → Op Unit
  | [] => pure ()
  | entry :: rest => do
    accept entry
    Program.update fun s => s.mapJournaled (·.append entry)
    appendAll rest

/-- Changes the in-memory state without a record. -/
def setState (f : DurableState → DurableState) : Op Unit :=
  Program.update fun s => s.mapJournaled fun j => { j with state := f j.state }

end Op

end Appends

/-! ## Request identity -/

def lookupRequest (s : Runtime) (id : RequestId) : Option CachedOutcome := s.requestCache id

/-- Forgets the oldest requests until there is room for one more. -/
def evict (limit : Nat) : List RequestId → (RequestId → Option CachedOutcome) →
    List RequestId × (RequestId → Option CachedOutcome)
  | [], cache => ([], cache)
  | oldest :: rest, cache =>
    if rest.length + 1 ≥ limit then evict limit rest (Function.update cache oldest none)
    else (oldest :: rest, cache)

/-- `remember_request`: a nil request and a cache of size 0 remember nothing. -/
def Runtime.remember (s : Runtime) (id : RequestId) (outcome : CachedOutcome) : Runtime :=
  if ¬ id.valid ∨ s.config.requestCacheSize = 0 then s
  else if (s.requestCache id).isSome then
    { s with requestCache := Function.update s.requestCache id (some outcome) }
  else
    let kept := evict s.config.requestCacheSize s.requestOrder s.requestCache
    { s with
      requestCache := Function.update kept.2 id (some outcome)
      requestOrder := kept.1 ++ [id] }

def rememberRequest (id : RequestId) (outcome : CachedOutcome) : Op Unit :=
  Program.update fun s => s.remember id outcome

/-! ## Authority checks -/

structure LeaseToken where
  execution : ExecutionId := .nil
  executionGeneration : Nat := 0
  incarnation : ExecutionIncarnationId := .nil
  incarnationGeneration : Nat := 0
  lease : LeaseId := .nil
  leaseGeneration : Nat := 0
  epoch : Nat := 0
  worker : WorkerId := .nil
  boot : WorkerBootId := .nil
  policyGeneration : Nat := 0
  deriving DecidableEq, Repr

structure CallerContext where
  session : SessionId := .nil
  epoch : Nat := 0
  deriving DecidableEq, Repr

def hexGeneration (g : Nat) : String := hex64 (word g)

def checkEpoch (st : DurableState) (epoch : Nat) : Except Status Unit :=
  if epoch ≠ st.epoch then
    .error (err .staleEpoch ("request carries coordinator epoch " ++ hexGeneration epoch ++
      " but the current epoch is " ++ hexGeneration st.epoch))
  else .ok ()

def checkOpen (s : Runtime) : Except Status Unit :=
  if ¬ s.isOpen then .error (err .shuttingDown "coordinator is not open")
  else if s.shuttingDown then .error (err .shuttingDown "coordinator is shutting down")
  else .ok ()

def checkCaller (s : Runtime) (caller : CallerContext) : Except Status Unit :=
  match checkOpen s with
  | .error e => .error e
  | .ok () => checkEpoch s.state caller.epoch

/-- The refusal of a stored lease that does not back the token, if there is one. -/
def leaseDefect (st : DurableState) (t : LeaseToken) (x : ExecutionRecord) (l : LeaseRecord) :
    Option Status :=
  if l.generation ≠ t.leaseGeneration then
    some (err .staleLease "token lease generation does not match the stored lease")
  else if l.state ≠ .active then
    some (err .authorityRevoked ("lease state is " ++ leaseStateName l.state))
  else if l.epoch ≠ st.epoch then
    some (err .staleEpoch "lease was issued under a previous coordinator epoch")
  else if l.worker ≠ t.worker ∨ l.boot ≠ t.boot then
    some (err .staleWorkerBoot "token worker boot does not match the current lease")
  else if x.worker ≠ t.worker ∨ x.boot ≠ t.boot then
    some (err .staleWorkerBoot "token worker boot does not match the execution binding")
  else if x.policyGeneration ≠ t.policyGeneration then
    some (err .stalePolicyGeneration ("token policy generation " ++
      hexGeneration t.policyGeneration ++ " does not match the current policy generation " ++
      hexGeneration x.policyGeneration))
  else none

/-- The refusal of an execution that moved on from the token, if there is one. -/
def executionDefect (t : LeaseToken) (x : ExecutionRecord) : Option Status :=
  if x.generation ≠ t.executionGeneration then
    some (err .staleExecutionGeneration ("token execution generation " ++
      hexGeneration t.executionGeneration ++ " does not match the current generation " ++
      hexGeneration x.generation))
  else if x.incarnationGeneration ≠ t.incarnationGeneration then
    some (err .staleIncarnation ("token incarnation generation " ++
      hexGeneration t.incarnationGeneration ++
      " does not match the current incarnation generation " ++
      hexGeneration x.incarnationGeneration))
  else if x.incarnation ≠ t.incarnation then
    some (err .staleIncarnation
      "token incarnation identity does not match the current incarnation")
  else if x.lease ≠ t.lease ∨ x.leaseGeneration ≠ t.leaseGeneration then
    some (err .staleLease "token lease is not the execution's current lease")
  else none

/-- `validate_token`: every field of the token is checked against durable state. -/
def validateToken (st : DurableState) (t : LeaseToken) :
    Except Status (ExecutionRecord × LeaseRecord) :=
  match checkEpoch st t.epoch with
  | .error e => .error e
  | .ok () =>
    match st.executions.find t.execution with
    | none => .error (err .notFound "execution is not present in the durable store")
    | some x =>
      match executionDefect t x with
      | some e => .error e
      | none =>
        match st.leases.find t.lease with
        | none => .error (err .staleLease "token lease is not present in the durable store")
        | some l =>
          match leaseDefect st t x l with
          | some e => .error e
          | none => .ok (x, l)

def policyOf (st : DurableState) (x : ExecutionRecord) : Option ExecutionPolicy :=
  st.policies.find x.policy

def transitionDefect (source target : Lifecycle) (what : String) : Status :=
  err .lifecycleRefused ("illegal lifecycle transition for " ++ what ++ ": " ++
    lifecycleName source ++ " -> " ++ lifecycleName target)

def requireTransition (source target : Lifecycle) (what : String) : Op Unit :=
  Program.refuseIf (isLegalTransition source target = false) (transitionDefect source target what)

def missingExecution : Status := err .notFound "execution is not present in the durable store"

/-- `find_checked`: the caller is current and the execution is stored. -/
def findChecked (caller : CallerContext) (id : ExecutionId) : Op ExecutionRecord := do
  let s ← get
  Program.check (checkCaller s caller)
  Program.require (s.state.executions.find id) missingExecution

/-- The start of every worker operation: open, and the token is valid. -/
def authorize (token : LeaseToken) : Op ExecutionRecord := do
  let s ← get
  Program.check (checkOpen s)
  let found ← Program.check (validateToken s.state token)
  return found.1

/-! ## Shared steps -/

section Steps

variable [AppendLimit]

/-- The execution promoted to its next progress generation. -/
def ExecutionRecord.promotedBy (x : ExecutionRecord) (epoch : Nat) (progress : ProgressId)
    (commit : CommitId) : ExecutionRecord :=
  { x with
    progressGeneration := x.progressGeneration + 1
    progress := progress
    lastCommit := commit
    committedActions := x.committedActions + 1
    epoch := epoch }

/-- The action sealed by a commit. -/
def ActionRecord.committedBy (a : ActionRecord) (commit : CommitId) (evidence : Evidence) :
    ActionRecord :=
  { a with status := .committed, commit := commit, receipt := evidence }

/-- The commit group `stage_commit` computes. -/
def commitGroupOf (st : DurableState) (x : ExecutionRecord) (action : ActionRecord)
    (request : RequestId) (evidence : Evidence) : CommitGroupRecord :=
  let generation := x.progressGeneration + 1
  let progressId := deriveProgressId x.id generation
  let commitId := deriveCommitId x.id action.id action.generation generation
  { commit :=
      { id := commitId
        execution := x.id
        executionGeneration := x.generation
        action := action.id
        actionGeneration := action.generation
        progress := progressId
        progressGeneration := generation
        epoch := st.epoch
        request := request }
    progress :=
      { id := progressId
        generation := generation
        execution := x.id
        executionGeneration := x.generation
        action := action.id
        actionGeneration := action.generation
        commit := commitId
        epoch := st.epoch
        ordinal := action.sequence
        committed := true
        durableSequence := st.sequence }
    action := action.committedBy commitId evidence
    execution := x.promotedBy st.epoch progressId commitId }

/-- Computes one logical commit and writes it as a single journal record. -/
def stageCommit (x : ExecutionRecord) (action : ActionRecord) (request : RequestId)
    (evidence : Evidence) : Op CommitGroupRecord := do
  let s ← get
  let group := commitGroupOf s.state x action request evidence
  Program.refuseIf ((s.state.commits.find group.commit.id).isSome = true)
    (err .duplicateCommit
      "a durable commit already exists for this action identity and generation")
  Op.put (.commitGroup group)
  return group

/-- The other Valid continuations of an execution, marked Stale. -/
def retiredContinuations (st : DurableState) (execution : ExecutionId) (keep : ContinuationId) :
    List ContinuationRecord :=
  (st.continuations.records.filter fun c =>
    c.execution = execution ∧ c.id ≠ keep ∧ c.state = .valid).map fun c => { c with state := .stale }

def retireOtherContinuations (execution : ExecutionId) (keep : ContinuationId) : Op Unit := do
  let s ← get
  Op.putAll ((retiredContinuations s.state execution keep).map .continuation)

/-- The execution without worker authority. -/
def ExecutionRecord.withoutLease (x : ExecutionRecord) : ExecutionRecord :=
  { x with lease := .nil, worker := .nil, boot := .nil }

/-- The stored lease of an execution that is still Active. -/
def activeLease (st : DurableState) (x : ExecutionRecord) : Option LeaseRecord :=
  (st.leases.find x.lease).filter fun l => l.state = .active

/-- The record of the lease `lease`, if there is one, in the state `state`. -/
def leaseAs (lease : Option LeaseRecord) (state : LeaseState) : List JournalEntry :=
  lease.toList.map fun l => .lease { l with state := state }

def putLeaseAs (lease : Option LeaseRecord) (state : LeaseState) : Op Unit :=
  Op.putAll (leaseAs lease state)

def dropsAuthority (target : Lifecycle) : Bool :=
  target = .fenced || target = .suspended || isTerminalState target

/-- `persist_transition`: a lifecycle transition that drops authority where the target must not
retain any. -/
def persistTransition (x : ExecutionRecord) (target : Lifecycle) (what : String) : Op Unit := do
  requireTransition x.lifecycle target what
  let s ← get
  let next := { x with lifecycle := target }
  if dropsAuthority target = true ∧ x.lease.valid = true then
    putLeaseAs (activeLease s.state x) .revoked
    Op.put (.execution { next.withoutLease with epoch := s.state.epoch })
  else
    Op.put (.execution { next with epoch := s.state.epoch })

end Steps

/-- `mint_continuation`: a continuation bound to the durable point `next` describes. -/
def mintContinuation (st : DurableState) (x next : ExecutionRecord) (state : ContinuationState)
    (resumeOrdinal : Nat) : ContinuationRecord :=
  let generation := x.continuationGeneration + 1
  { id := deriveContinuationId x.id next.incarnationGeneration next.progressGeneration generation
    generation := generation
    execution := x.id
    executionGeneration := next.generation
    incarnation := next.incarnation
    incarnationGeneration := next.incarnationGeneration
    checkpoint := next.checkpoint
    checkpointGeneration := next.checkpointGeneration
    progressGeneration := next.progressGeneration
    actionGeneration := next.actionGeneration
    policy := next.policy
    policyGeneration := next.policyGeneration
    bindings := next.bindings
    epoch := st.epoch
    recovery := next.recovery
    recoveryGeneration := next.recoveryGeneration
    state := state
    resumeOrdinal := resumeOrdinal }

end ExecutionFabric
