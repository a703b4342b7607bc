import ExecutionFabric.Audit.Index

/-!
# Derived identities and collisions

Every stored record is keyed by a digest of its derivation: the inputs its identity
was derived from, all of which the record itself carries. A run is collision-free
when the derivations of everything it ever appended have distinct identities, none of
them nil. Then equal ids mean equal derivations, and in particular equal owners.
-/
namespace ExecutionFabric

open Lib

/-- The inputs a durable identity is derived from. -/
inductive Derivation
  | execution (store : StoreId) (sequence : Nat)
  | action (execution : ExecutionId) (ordinal : Nat)
  | progress (execution : ExecutionId) (generation : Nat)
  | checkpoint (execution : ExecutionId) (generation : Nat)
  | continuation (execution : ExecutionId) (incarnation progress generation : Nat)
  | lease (execution : ExecutionId) (worker : WorkerId) (boot : WorkerBootId) (generation : Nat)
  | replay (action : ActionId) (generation : Nat)
  | ambiguity (execution : ExecutionId) (action : ActionId) (generation : Nat)
  | commit (execution : ExecutionId) (action : ActionId) (actionGeneration progress : Nat)
  | recovery (execution : ExecutionId) (generation : Nat)
  deriving DecidableEq, Repr

/-- The identity a derivation gives, in its domain. -/
def Derivation.identity : Derivation → IdDomain × UInt64
  | .execution s n => (.execution, (deriveExecutionId s n).value)
  | .action e n => (.action, (deriveActionId e n).value)
  | .progress e g => (.progress, (deriveProgressId e g).value)
  | .checkpoint e g => (.checkpoint, (deriveCheckpointId e g).value)
  | .continuation e i p g => (.continuation, (deriveContinuationId e i p g).value)
  | .lease e w b g => (.lease, (deriveLeaseId e w b g).value)
  | .replay a g => (.replay, (deriveReplayId a g).value)
  | .ambiguity e a g => (.ambiguity, (deriveAmbiguityId e a g).value)
  | .commit e a g p => (.commit, (deriveCommitId e a g p).value)
  | .recovery e g => (.recovery, (deriveRecoveryId e g).value)

/-- The derivations of the records a journal record carries, in the store `store`. -/
def JournalEntry.mints (store : StoreId) : JournalEntry → List Derivation
  | .execution x => [.execution store x.createdSequence]
  | .action a => [.action a.execution a.sequence]
  | .progress p => [.progress p.execution p.generation]
  | .checkpoint c => [.checkpoint c.execution c.generation]
  | .continuation c =>
    [.continuation c.execution c.incarnationGeneration c.progressGeneration c.generation]
  | .lease l => [.lease l.execution l.worker l.boot l.generation]
  | .replay r => [.replay r.newAction r.generation]
  | .ambiguity a => [.ambiguity a.execution a.action a.generation]
  | .commit c => [.commit c.execution c.action c.actionGeneration c.progressGeneration]
  | .recovery r => [.recovery r.execution r.generation]
  | .commitGroup g =>
    [.commit g.commit.execution g.commit.action g.commit.actionGeneration
        g.commit.progressGeneration,
      .progress g.progress.execution g.progress.generation,
      .action g.action.execution g.action.sequence,
      .execution store g.execution.createdSequence]
  | .storeMeta _ | .policy _ | .barrier _ => []

/-- Distinct derivations have distinct identities, and none is nil. -/
structure CollisionFree (ds : List Derivation) : Prop where
  valid : ∀ d ∈ ds, d.identity.2 ≠ 0
  injective : ∀ d ∈ ds, ∀ d' ∈ ds, d.identity = d'.identity → d = d'

instance (ds : List Derivation) : Decidable (CollisionFree ds) :=
  decidable_of_iff ((∀ d ∈ ds, d.identity.2 ≠ 0) ∧
      ∀ d ∈ ds, ∀ d' ∈ ds, d.identity = d'.identity → d = d')
    ⟨fun h => ⟨h.1, h.2⟩, fun h => ⟨h.valid, h.injective⟩⟩

theorem CollisionFree.subset {ds ds' : List Derivation} (h : CollisionFree ds')
    (hsub : ds ⊆ ds') : CollisionFree ds :=
  ⟨fun d hd => h.valid d (hsub hd), fun d hd d' hd' => h.injective d (hsub hd) d' (hsub hd')⟩

/-- The store the directory of a runtime belongs to. -/
def Runtime.storeIdentity (s : Runtime) : StoreId :=
  (s.store.directory.map (·.storeId)).getD .nil

/-- The derivations of everything a run has appended so far. -/
def Runtime.minted (s : Runtime) : List Derivation :=
  s.store.history.flatMap (·.mints s.storeIdentity)

/-- The identity `i` was derived from `d`, one of the derivations `ds`. -/
def Named (ds : List Derivation) (d : Derivation) {domain : IdDomain} (i : Id domain) : Prop :=
  d ∈ ds ∧ d.identity = (domain, i.value)

theorem Named.unique {ds : List Derivation} {d d' : Derivation} {domain : IdDomain}
    {i : Id domain} (h : Named ds d i) (h' : Named ds d' i) (hfree : CollisionFree ds) : d = d' :=
  hfree.injective d h.1 d' h'.1 (h.2.trans h'.2.symm)

/-- One derivation gives one identity. -/
theorem Named.same {ds : List Derivation} {d : Derivation} {domain : IdDomain} {i i' : Id domain}
    (h : Named ds d i) (h' : Named ds d i') : i = i' := by
  have hvalue : i.value = i'.value := congrArg Prod.snd (h.2.symm.trans h'.2)
  cases i
  cases i'
  exact congrArg Id.mk hvalue

theorem Named.valid {ds : List Derivation} {d : Derivation} {domain : IdDomain} {i : Id domain}
    (h : Named ds d i) (hfree : CollisionFree ds) : i ≠ .nil := by
  rintro rfl
  exact hfree.valid d h.1 (congrArg Prod.snd h.2)

/-- Every stored record is keyed by its derivation, one of `ds`. -/
structure Image.Known (ds : List Derivation) (m : Image) : Prop where
  executions : ∀ k x, m.executions k = some x →
    Named ds (.execution m.store x.createdSequence) x.id
  actions : ∀ k a, m.actions k = some a → Named ds (.action a.execution a.sequence) a.id
  progress : ∀ k p, m.progress k = some p → Named ds (.progress p.execution p.generation) p.id
  checkpoints : ∀ k c, m.checkpoints k = some c →
    Named ds (.checkpoint c.execution c.generation) c.id
  continuations : ∀ k c, m.continuations k = some c → Named ds
    (.continuation c.execution c.incarnationGeneration c.progressGeneration c.generation) c.id
  leases : ∀ k l, m.leases k = some l →
    Named ds (.lease l.execution l.worker l.boot l.generation) l.id
  replays : ∀ k r, m.replays k = some r → Named ds (.replay r.newAction r.generation) r.id
  ambiguities : ∀ k a, m.ambiguities k = some a →
    Named ds (.ambiguity a.execution a.action a.generation) a.id
  commits : ∀ k c, m.commits k = some c →
    Named ds (.commit c.execution c.action c.actionGeneration c.progressGeneration) c.id
  recoveries : ∀ k r, m.recoveries k = some r → Named ds (.recovery r.execution r.generation) r.id

/-- The records a journal record carries are keyed by their derivations, all of them in `ds`. -/
def JournalEntry.Derived (ds : List Derivation) (store : StoreId) : JournalEntry → Prop
  | .execution x => Named ds (.execution store x.createdSequence) x.id
  | .action a => Named ds (.action a.execution a.sequence) a.id
  | .progress p => Named ds (.progress p.execution p.generation) p.id
  | .checkpoint c => Named ds (.checkpoint c.execution c.generation) c.id
  | .continuation c => Named ds
      (.continuation c.execution c.incarnationGeneration c.progressGeneration c.generation) c.id
  | .lease l => Named ds (.lease l.execution l.worker l.boot l.generation) l.id
  | .replay r => Named ds (.replay r.newAction r.generation) r.id
  | .ambiguity a => Named ds (.ambiguity a.execution a.action a.generation) a.id
  | .commit c =>
    Named ds (.commit c.execution c.action c.actionGeneration c.progressGeneration) c.id
  | .recovery r => Named ds (.recovery r.execution r.generation) r.id
  | .commitGroup g =>
    Named ds (.commit g.commit.execution g.commit.action g.commit.actionGeneration
        g.commit.progressGeneration) g.commit.id ∧
      Named ds (.progress g.progress.execution g.progress.generation) g.progress.id ∧
      Named ds (.action g.action.execution g.action.sequence) g.action.id ∧
      Named ds (.execution store g.execution.createdSequence) g.execution.id
  | .storeMeta r => r.store = store
  | .policy _ | .barrier _ => True

/-- A property of all records of a map survives an insertion that has it. -/
theorem forall_insert {α κ : Type} [DecidableEq κ] {key : α → κ} {P : α → Prop}
    {m : KeyedMap key} (h : ∀ k r, m k = some r → P r) {r : α} (hr : P r) :
    ∀ k x, m.insert r k = some x → P x := by
  intro k x hx
  rcases KeyedMap.insert_eq_some hx with ⟨-, rfl⟩ | ⟨-, hold⟩
  · exact hr
  · exact h k x hold

theorem Image.Known.install {ds : List Derivation} {m : Image} (h : m.Known ds)
    {e : JournalEntry} (he : e.Derived ds m.store) : (m.install e).Known ds := by
  cases e with
  | storeMeta r =>
    refine { h with executions := ?_ }
    intro k x hx
    rw [show (m.install (.storeMeta r)).store = m.store from he]
    exact h.executions k x hx
  | policy r => exact { h with }
  | execution x => exact { h with executions := forall_insert h.executions he }
  | action a => exact { h with actions := forall_insert h.actions he }
  | progress p => exact { h with progress := forall_insert h.progress he }
  | checkpoint c => exact { h with checkpoints := forall_insert h.checkpoints he }
  | continuation c => exact { h with continuations := forall_insert h.continuations he }
  | lease l => exact { h with leases := forall_insert h.leases he }
  | replay r => exact { h with replays := forall_insert h.replays he }
  | ambiguity a => exact { h with ambiguities := forall_insert h.ambiguities he }
  | commit c => exact { h with commits := forall_insert h.commits he }
  | recovery r => exact { h with recoveries := forall_insert h.recoveries he }
  | barrier r => exact h
  | commitGroup g =>
    exact { h with
      commits := forall_insert h.commits he.1
      progress := forall_insert h.progress he.2.1
      actions := forall_insert h.actions he.2.2.1
      executions := forall_insert h.executions he.2.2.2 }

theorem Image.Known.agrees {ds : List Derivation} {m m' : Image} (h : m.Known ds)
    (ha : m.Agrees m') : m'.Known ds where
  executions := by
    intro k x hx
    obtain ⟨y, f, g, hy, rfl⟩ := ha.execution hx
    rw [ha.store]
    exact h.executions k y hy
  actions := ha.actions ▸ h.actions
  progress := ha.progress ▸ h.progress
  checkpoints := ha.checkpoints ▸ h.checkpoints
  continuations := ha.continuations ▸ h.continuations
  leases := ha.leases ▸ h.leases
  replays := ha.replays ▸ h.replays
  ambiguities := ha.ambiguities ▸ h.ambiguities
  commits := ha.commits ▸ h.commits
  recoveries := ha.recoveries ▸ h.recoveries

/-- Records whose derivations are in `ds`. -/
def Minted (ds : List Derivation) (store : StoreId) (es : List JournalEntry) : Prop :=
  ∀ e ∈ es, ∀ d ∈ e.mints store, d ∈ ds

theorem Minted.cons {ds : List Derivation} {store : StoreId} {e : JournalEntry}
    {es : List JournalEntry} (h : Minted ds store (e :: es)) :
    (∀ d ∈ e.mints store, d ∈ ds) ∧ Minted ds store es :=
  ⟨h e List.mem_cons_self, fun e' he' => h e' (List.mem_cons_of_mem _ he')⟩

end ExecutionFabric
