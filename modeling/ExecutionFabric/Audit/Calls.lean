import ExecutionFabric.Audit.RecoveryInversion

/-!
# What a call does

`call_effect` is the only theorem later modules need about the operations: a call
leaves the journaled state alone, writes transactions its arguments allow, takes a
snapshot, closes the store, or reopens it. Reopening loads the directory, writes the
restart records and then recovers pending executions.
-/
namespace ExecutionFabric

open Lib Program

/-- Zero or more transactions, one after the other. -/
inductive Writes (allowed : Intent → Prop) : Journaled → Journaled → Prop
  | done (j : Journaled) : Writes allowed j j
  | write {j j' : Journaled} {i : Intent} {es : List JournalEntry} (hi : allowed i)
      (ht : Transaction j i es) (rest : Writes allowed (j.write es) j') : Writes allowed j j'

/-! ## Sessions -/

theorem executions_installAll_leaseAs (m : Image) (l : Option LeaseRecord) (state : LeaseState) :
    (m.installAll (leaseAs l state)).executions = m.executions := by
  cases l <;> rfl

/-- Taking authority from one execution leaves every other execution alone. -/
theorem find_write_fenceRecords (j : Journaled) (x : ExecutionRecord) {id : ExecutionId}
    (hne : id ≠ x.id) :
    (j.write (fenceRecords j.state x)).state.executions.find id = j.state.executions.find id := by
  have himage : (j.state.image.installAll (fenceRecords j.state x)).executions id =
      j.state.image.executions id := by
    unfold fenceRecords
    split
    · rfl
    · dsimp only
      split
      · rw [Image.installAll_append, Image.installAll_cons, Image.installAll_nil]
        refine (KeyedMap.insert_of_ne _ ?_).trans ?_
        · split <;> exact hne
        · rw [executions_installAll_leaseAs]
      · rw [Image.installAll_cons, Image.installAll_nil]
        refine KeyedMap.insert_of_ne _ ?_
        split <;> exact hne
  rw [← Journaled.image_write] at himage
  exact himage

theorem fenceAll_writes (xs : List ExecutionRecord) (s : Runtime)
    (hstored : ∀ x ∈ xs, s.state.executions.find x.id = some x)
    (hlive : ∀ x ∈ xs, isTerminalState x.lifecycle = false)
    (hnodup : (xs.map ExecutionRecord.id).Nodup) :
    Leads (fenceAll xs) s fun _ s' =>
      Writes (fun i => ∃ e, i = .lose e) s.toJournaled s'.toJournaled ∧ SameProcess s s' := by
  induction xs generalizing s with
  | nil => exact leads_pure ⟨.done _, .refl s⟩
  | cons x rest ih =>
    unfold fenceAll
    apply leads_get
    apply leads_putAll
    rw [List.map_cons, List.nodup_cons] at hnodup
    have hrest : ∀ y ∈ rest, (s.mapJournaled (·.write (fenceRecords s.state x))).state.executions.find
        y.id = some y := by
      intro y hy
      have hne : y.id ≠ x.id := by
        intro he
        exact hnodup.1 (he ▸ List.mem_map_of_mem hy)
      rw [Runtime.toJournaled_mapJournaled, find_write_fenceRecords _ _ hne]
      exact hstored y (List.mem_cons_of_mem _ hy)
    refine leads_mono (ih _ hrest (fun y hy => hlive y (List.mem_cons_of_mem _ hy)) hnodup.2) ?_
    rintro _ s' ⟨hw, hp⟩
    have hx := hstored x List.mem_cons_self
    exact ⟨.write ⟨x.id, rfl⟩ (.lose hx (hlive x List.mem_cons_self)) hw,
      (Runtime.sameProcess_mapJournaled _ _).trans hp⟩

theorem endSession_writes (s : Runtime) (session : SessionId) :
    Leads (endSession session) s fun _ s' =>
      (s.sessions session = none → s' = s) ∧
      Writes (fun i => ∃ e, i = .lose e) s.toJournaled s'.toJournaled ∧ s'.isOpen = s.isOpen ∧
      ∀ id, s'.sessions id = s.sessions id ∨ s'.sessions id = none := by
  unfold endSession
  apply leads_get
  apply leads_require
  · intro _
    exact ⟨fun _ => rfl, .done _, rfl, fun _ => .inl rfl⟩
  intro info hinfo
  apply leads_update
  have hmem : ∀ x ∈ boundTo s.state info, x ∈ s.state.executions.records ∧
      isTerminalState x.lifecycle = false := by
    intro x hx
    simp only [boundTo, List.mem_filter, decide_eq_true_eq] at hx
    exact ⟨hx.1, hx.2.2.2⟩
  refine leads_mono (fenceAll_writes _ _ ?_ (fun x hx => (hmem x hx).2) ?_) ?_
  · intro x hx
    exact (Table.find_eq_some_iff _ _ _).mpr ⟨(hmem x hx).1, rfl⟩
  · exact s.state.executions.nodup.sublist (List.filter_sublist.map _)
  · rintro _ s' ⟨hw, hp⟩
    refine ⟨?_, hw, hp.isOpen, ?_⟩
    · intro hnone
      rw [hinfo] at hnone
      cases hnone
    · intro id
      rw [hp.sessions]
      by_cases he : id = session
      · exact .inr (by rw [he]; exact Function.update_self _ _ _)
      · exact .inl (Function.update_of_ne he _ _)

/-! ## Reopening -/

/-- The metadata record of the next epoch. -/
def nextEpochMeta (st : DurableState) : StoreMetaRecord :=
  { store := st.store
    epoch := st.epoch + 1
    nextExecutionSequence := st.nextExecutionSequence
    sequence := st.sequence
    schema := persistenceSchemaVersion }

/-- The restart records up to the revocation of every lease of an earlier epoch. -/
def revocationRecords (j : Journaled) : List JournalEntry :=
  let advanced := [.storeMeta (nextEpochMeta j.state)]
  advanced ++ (revokedLeases (j.write advanced).state (j.state.epoch + 1)).map .lease

/-- The restart records up to the executions they change. -/
def reclassificationRecords (j : Journaled) : List JournalEntry :=
  revocationRecords j ++
    (restartedExecutions (j.write (revocationRecords j)).state (j.state.epoch + 1)).map .execution

/-- Everything a restart writes before it recovers pending executions. -/
def restartRecords (j : Journaled) : List JournalEntry :=
  reclassificationRecords j ++
    (expiredContinuations (j.write (reclassificationRecords j)).state (j.state.epoch + 1)).map
      .continuation

/-- The directory loads, and what it loads belongs to this store and this build. -/
def Loadable (d : Directory) (out : DurableState) (storeId : StoreId) : Prop :=
  (∃ report, (loadDirectory d out).1 = .ok report) ∧
    ((loadDirectory d out).2.store = .nil ∨ (loadDirectory d out).2.store = storeId) ∧
    ((loadDirectory d out).2.schema = 0 ∨
      (loadDirectory d out).2.schema = persistenceSchemaVersion)

/-- The state a successful load installs in memory. -/
def loadedState (d : Directory) (out : DurableState) (storeId : StoreId) : DurableState :=
  { (loadDirectory d out).2 with store := storeId, schema := persistenceSchemaVersion }

/-- Memory and journal after reconciliation: the repaired state, its indexes, and the repaired
commits appended. -/
def reconciled (j : Journaled) : Journaled :=
  (reconcileState j.state).repairs.foldl (fun j repair => j.append (.commitGroup repair))
    (Journaled.rebuildIndexes { j with state := (reconcileState j.state).state })

/-- The journaled part once the directory `d` is loaded into it. -/
def reloaded (j : Journaled) (store : FileDurableStore) (d : Directory) : Journaled :=
  reconciled { j with store := store, state := loadedState d j.state store.storeId }

/-- The loaded state after the restart proper, before pending executions are recovered. -/
def restartedFrom (j : Journaled) (store : FileDurableStore) (d : Directory) : Journaled :=
  (reloaded j store d).write (restartRecords (reloaded j store d))

/-- The executions an open recovers, in insertion order. -/
def pendingOf (st : DurableState) : List ExecutionId :=
  (st.executions.records.filter fun x => x.lifecycle = .recoveryRequired).map ExecutionRecord.id

theorem openStore_directory {st st' : FileDurableStore} {create : Bool} {entropy : UInt64}
    (h : st.openStore create entropy = (.ok (), st')) : ∃ d, st'.directory = some d := by
  unfold FileDurableStore.openStore at h
  split at h
  · cases h
  · split at h
    · cases h
    · dsimp only at h
      split at h
      · cases h
      · cases h
        exact ⟨_, rfl⟩

theorem leads_loadState {α : Type} {s : Runtime} {Q : Except Status α → Runtime → Prop}
    {entropy : UInt64} {f : LoadReport → Op α} {result : Except Status Unit}
    {store : FileDurableStore} (hopened : s.store.openStore s.config.createIfMissing entropy =
      (result, store))
    (hrefused : ∀ e, result = .error e →
      Q (.error e) (s.mapJournaled fun j => { j with store := store }))
    (hfailed : ∀ d e s', result = .ok () → store.directory = some d →
      ¬ Loadable d s.state store.storeId → s'.store = store → s'.isOpen = s.isOpen →
      s'.sessions = s.sessions → Q (.error e) s')
    (hloaded : ∀ d report, result = .ok () → store.directory = some d →
      Loadable d s.state store.storeId →
      Leads (f report) (s.mapJournaled fun j =>
        { j with store := store, state := loadedState d s.state store.storeId }) Q) :
    Leads (loadState entropy >>= f) s Q := by
  unfold loadState
  rw [bind_assoc]
  apply leads_get
  dsimp only
  rw [hopened, bind_assoc]
  apply leads_update
  rw [bind_assoc]
  apply leads_check
  · intro e he
    exact hrefused e he
  intro _ hok
  obtain ⟨d, hd⟩ := openStore_directory (hopened.trans (by rw [show result = .ok () from hok]))
  rw [bind_assoc]
  apply leads_require
  · intro hnone
    rw [hd] at hnone
    cases hnone
  intro d' hd'
  obtain rfl : d = d' := Option.some.inj (hd.symm.trans hd')
  rw [bind_assoc]
  apply leads_update
  rw [bind_assoc]
  apply leads_check
  · intro e he
    refine hfailed d e _ hok hd ?_ rfl rfl rfl
    rintro ⟨⟨report, hreport⟩, -⟩
    rw [hreport] at he
    cases he
  intro report hreport
  rw [bind_assoc]
  apply leads_refuseIf
  · rintro ⟨hnil, hforeign⟩
    refine hfailed d _ _ hok hd ?_ rfl rfl rfl
    rintro ⟨-, hstore | hstore, -⟩
    · exact hnil hstore
    · exact hforeign hstore
  intro hstore
  rw [bind_assoc]
  apply leads_update
  rw [bind_assoc]
  apply leads_refuseIf
  · rintro ⟨hzero, hunknown⟩
    refine hfailed d _ _ hok hd ?_ rfl rfl rfl
    rintro ⟨-, -, hschema | hschema⟩
    · exact hzero hschema
    · exact hunknown hschema
  intro hschema
  rw [bind_assoc]
  apply leads_update
  rw [pure_bind]
  refine hloaded d report hok hd ⟨⟨report, hreport⟩, ?_, ?_⟩
  · by_contra hboth
    rw [not_or] at hboth
    exact hstore hboth
  · by_contra hboth
    rw [not_or] at hboth
    exact hschema hboth

/-- `Recovers ids j j'`: the executions are recovered one after the other, or refused. -/
inductive Recovers : List ExecutionId → Journaled → Journaled → Prop
  | done (j : Journaled) : Recovers [] j j
  | skip {e : ExecutionId} {ids : List ExecutionId} {j j' : Journaled} (rest : Recovers ids j j') :
      Recovers (e :: ids) j j'
  | write {e : ExecutionId} {ids : List ExecutionId} {j j' : Journaled} {es : List JournalEntry}
      (ht : Transaction j (.recover e) es) (rest : Recovers ids (j.write es) j') :
      Recovers (e :: ids) j j'

theorem Recovers.writes {ids : List ExecutionId} {j j' : Journaled} (h : Recovers ids j j') :
    Writes (fun i => ∃ e, i = .recover e) j j' := by
  induction h with
  | done j => exact .done j
  | skip _ ih => exact ih
  | write ht _ ih => exact .write ⟨_, rfl⟩ ht ih

theorem recoverPending_recovers (caller : CallerContext) (ids : List ExecutionId) (s : Runtime) :
    Leads (recoverPending caller ids) s fun _ s' =>
      Recovers ids s.toJournaled s'.toJournaled ∧ SameProcess s s' := by
  induction ids generalizing s with
  | nil => exact leads_pure ⟨.done _, .refl s⟩
  | cons id rest ih =>
    unfold recoverPending
    apply leads_get
    apply leads_update
    have hsettles : Settles s (.recover id) ((recoverLocked caller .nil id).exec s).2 :=
      recoverLocked_settles s caller .nil id
    apply leads_bind
    refine leads_mono (ih _) ?_
    rintro r s' ⟨hw, hp⟩
    have hboth : Recovers (id :: rest) s.toJournaled s'.toJournaled ∧ SameProcess s s' := by
      rcases hsettles with hquiet | ⟨es, hwrote⟩
      · rw [hquiet.journaled] at hw
        exact ⟨.skip hw, hquiet.process.trans hp⟩
      · rw [hwrote.journaled] at hw
        exact ⟨.write hwrote.transaction hw, hwrote.process.trans hp⟩
    cases r with
    | ok notes => exact leads_pure hboth
    | error e => exact hboth

theorem recoverPending_writes (caller : CallerContext) (ids : List ExecutionId) (s : Runtime) :
    Leads (recoverPending caller ids) s fun _ s' =>
      Writes (fun i => ∃ e, i = .recover e) s.toJournaled s'.toJournaled ∧
        SameProcess s s' :=
  leads_mono (recoverPending_recovers caller ids s) fun _ _ h => ⟨h.1.writes, h.2⟩

theorem leads_recoverPending {α : Type} {s : Runtime} {Q : Except Status α → Runtime → Prop}
    {caller : CallerContext} {ids : List ExecutionId} {f : String → Op α}
    (hok : ∀ notes s', Recovers ids s.toJournaled s'.toJournaled → SameProcess s s' →
      Leads (f notes) s' Q)
    (herr : ∀ e s', Recovers ids s.toJournaled s'.toJournaled → SameProcess s s' →
      Q (.error e) s') :
    Leads (recoverPending caller ids >>= f) s Q := by
  apply leads_bind
  refine leads_mono (recoverPending_recovers caller ids s) ?_
  rintro r s' ⟨hw, hp⟩
  cases r with
  | ok notes => exact hok notes s' hw hp
  | error e => exact herr e s' hw hp

/-- Reconciliation installs executions and actions, and nothing else. -/
theorem keeps_reconcileState {β : Type} (f : DurableState → β)
    (hexecution : ∀ st x, f (st.install (.execution x)) = f st)
    (haction : ∀ st a, f (st.install (.action a)) = f st) (st : DurableState) :
    f (reconcileState st).state = f st := by
  have hfrontier : ∀ r x, f (reconcileFrontier r x).1.state = f r.state := by
    intro r x
    unfold reconcileFrontier
    dsimp only
    split
    · exact hexecution _ _
    · rfl
  have hcommit : ∀ r x best committed, f (reconcileCommit r x best committed).state = f r.state := by
    intro r x best committed
    unfold reconcileCommit
    repeat' split
    all_goals first
      | rfl
      | exact (hexecution _ _).trans (haction _ _)
  have hstep : ∀ r id, f (reconcileExecution r id).state = f r.state := by
    intro r id
    unfold reconcileExecution
    split
    · rfl
    · dsimp only
      rw [hcommit, hfrontier]
  have hfold : ∀ (ids : List ExecutionId) (r : Reconciliation),
      f (ids.foldl reconcileExecution r).state = f r.state := by
    intro ids
    induction ids with
    | nil => exact fun _ => rfl
    | cons id rest ih =>
      intro r
      rw [List.foldl_cons, ih, hstep]
  exact hfold _ _

theorem schema_reconcileState (st : DurableState) :
    (reconcileState st).state.schema = st.schema :=
  keeps_reconcileState DurableState.schema (fun _ _ => rfl) (fun _ _ => rfl) st

theorem store_reconcileState (st : DurableState) : (reconcileState st).state.store = st.store :=
  keeps_reconcileState DurableState.store (fun _ _ => rfl) (fun _ _ => rfl) st

theorem sequence_reconcileState (st : DurableState) :
    (reconcileState st).state.sequence = st.sequence :=
  keeps_reconcileState DurableState.sequence (fun _ _ => rfl) (fun _ _ => rfl) st

theorem schema_reconciled (j : Journaled) : (reconciled j).state.schema = j.state.schema := by
  have hfold : ∀ (repairs : List CommitGroupRecord) (k : Journaled),
      (repairs.foldl (fun j repair => j.append (.commitGroup repair)) k).state.schema =
        k.state.schema := by
    intro repairs
    induction repairs with
    | nil => exact fun _ => rfl
    | cons r rest ih =>
      intro k
      rw [List.foldl_cons, ih]
      rfl
  exact (hfold _ _).trans (schema_reconcileState j.state)

/-- Advancing the epoch in memory and journaling the metadata is writing the metadata record. -/
theorem putStoreMeta_nextEpoch (j : Journaled) (hschema : j.state.schema = persistenceSchemaVersion) :
    Journaled.putStoreMeta { j with state := { j.state with epoch := j.state.epoch + 1 } } =
      j.put (.storeMeta (nextEpochMeta j.state)) := by
  simp only [Journaled.putStoreMeta, Journaled.append, Journaled.storeMeta, Journaled.put,
    Journaled.indexEntry, DurableState.install, nextEpochMeta, hschema]

/-- How `Runtime::open` on a closed runtime ends, when `openStore` gives `result` and `store`. -/
inductive Opens (s : Runtime) (result : Except Status Unit) (store : FileDurableStore) :
    Runtime → Prop
  | refused {s' : Runtime} (e : Status) (hresult : result = .error e)
      (hj : s'.toJournaled = { s.toJournaled with store := store }) (hclosed : s'.isOpen = false) :
      Opens s result store s'
  | unloadable {s' : Runtime} (d : Directory) (hresult : result = .ok ())
      (hd : store.directory = some d) (hload : ¬ Loadable d s.state store.storeId)
      (hstore : s'.store = store) (hclosed : s'.isOpen = false) : Opens s result store s'
  | reopened {s' : Runtime} (d : Directory) (hresult : result = .ok ())
      (hd : store.directory = some d) (hload : Loadable d s.state store.storeId)
      (hw : Recovers (pendingOf (restartedFrom s.toJournaled store d).state)
        (restartedFrom s.toJournaled store d) s'.toJournaled) (hopen : s'.isOpen = true) :
      Opens s result store s'

/-- The rule for a restart: exactly the restart records are written. -/
theorem leads_restart {α : Type} {s : Runtime} {Q : Except Status α → Runtime → Prop}
    {f : List LeaseRecord × List ExecutionRecord → Op α}
    (hschema : s.state.schema = persistenceSchemaVersion)
    (h : ∀ r, Leads (f r) (s.mapJournaled (fun j => j.write (restartRecords s.toJournaled))) Q) :
    Leads (restart >>= f) s Q := by
  unfold restart restartAt
  rw [bind_assoc]
  apply leads_get
  rw [bind_assoc]
  apply leads_update
  rw [bind_assoc]
  apply leads_putStoreMeta
  have hstart : ((s.mapJournaled fun j => { j with state := { j.state with
      epoch := s.state.epoch + 1 } }).mapJournaled (·.putStoreMeta)) =
      s.mapJournaled (·.put (.storeMeta (nextEpochMeta s.state))) :=
    congrArg (fun j => { s with toJournaled := j }) (putStoreMeta_nextEpoch s.toJournaled hschema)
  rw [hstart, bind_assoc]
  apply leads_get
  rw [bind_assoc]
  apply leads_putAll
  rw [bind_assoc]
  apply leads_get
  rw [bind_assoc]
  apply leads_putAll
  rw [bind_assoc]
  apply leads_get
  rw [bind_assoc]
  apply leads_putAll
  rw [pure_bind]
  simp only [restartRecords, reclassificationRecords, revocationRecords, Journaled.write_append,
    Journaled.write_cons, Journaled.write_nil] at h
  simp only [Runtime.mapJournaled_mapJournaled, Runtime.toJournaled_mapJournaled]
  exact h _

theorem leads_reconcile {α : Type} {s : Runtime} {Q : Except Status α → Runtime → Prop}
    {f : Reconciliation → Op α}
    (h : Leads (f (reconcileState s.state)) (s.mapJournaled reconciled) Q) :
    Leads (reconcile >>= f) s Q := by
  unfold reconcile
  rw [bind_assoc]
  apply leads_get
  rw [bind_assoc]
  apply leads_update
  rw [bind_assoc]
  apply leads_appendAll
  simp only [pure_bind, List.foldl_map]
  exact h

theorem openRuntime_opens (s : Runtime) (config : RuntimeConfig) (entropy : UInt64)
    (hclosed : s.isOpen = false) {result : Except Status Unit} {store : FileDurableStore}
    (hopened : s.store.openStore config.createIfMissing entropy = (result, store)) :
    Leads (openRuntime config entropy) s fun r s' =>
      Opens s result store s' ∧ s'.sessions = s.sessions ∧
        ((∃ outcome, r = .ok outcome) → s'.isOpen = true) := by
  unfold openRuntime
  apply leads_get
  apply leads_refuseIf
  · intro hopen
    rw [hclosed] at hopen
    cases hopen
  intro _
  apply leads_update
  apply leads_loadState hopened
  · intro e he
    exact ⟨.refused e he rfl hclosed, rfl, fun hok => (by cases hok.choose_spec)⟩
  · intro d e s' hok hd hload hstore hopen hsessions
    exact ⟨.unloadable d hok hd hload hstore (hopen.trans hclosed), hsessions,
      fun hok => (by cases hok.choose_spec)⟩
  intro d report hok hd hload
  apply leads_reconcile
  apply leads_restart (schema_reconciled _)
  intro written
  apply leads_update
  apply leads_get
  have hreopened : ∀ s' : Runtime, Recovers (pendingOf (restartedFrom s.toJournaled store d).state)
      (restartedFrom s.toJournaled store d) s'.toJournaled → s'.isOpen = true →
      s'.sessions = s.sessions →
      Opens s result store s' ∧ s'.sessions = s.sessions ∧ s'.isOpen = true :=
    fun s' hw hopen hsessions => ⟨.reopened d hok hd hload hw hopen, hsessions, hopen⟩
  unfold restartedFrom reloaded pendingOf at hreopened
  apply leads_recoverPending
  · intro notes s' hw hp
    simp only [Runtime.toJournaled_mapJournaled] at hw
    obtain ⟨hopens, hsessions, hopen⟩ := hreopened s' hw hp.isOpen (by simpa using hp.sessions)
    exact leads_pure ⟨hopens, hsessions, fun _ => hopen⟩
  · intro e s' hw hp
    simp only [Runtime.toJournaled_mapJournaled] at hw
    obtain ⟨hopens, hsessions, hopen⟩ := hreopened s' hw hp.isOpen (by simpa using hp.sessions)
    exact ⟨hopens, hsessions, fun _ => hopen⟩

/-! ## The effect of a call -/

/-- What a call that writes at most one transaction sets out to do. -/
def Call.intent : Call → Option Intent
  | .createExecution _ _ => some .create
  | .updatePolicy _ _ execution _ _ => some (.updatePolicy execution)
  | .bindWorker _ request => some (.bind request.execution)
  | .start request => some (.start request.token.execution)
  | .beginAction request => some (.begin request.token.execution)
  | .completeAction request => some (.complete request.token.execution request.request
      ⟨request.action, request.actionGeneration⟩)
  | .failAction request => some (.fail request.token.execution
      ⟨request.action, request.actionGeneration⟩)
  | .reportSideEffect request => some (.report request.token.execution
      ⟨request.action, request.actionGeneration⟩ request.applied)
  | .registerCheckpoint request => some (.checkpoint request.token.execution)
  | .resume request => some (.resume request.token.execution)
  | .recover _ _ execution => some (.recover execution)
  | .resolveAmbiguity request => some (.resolve request.execution request.ambiguity
      request.resolution)
  | .fence _ _ execution => some (.transition execution .fenced)
  | .retire _ _ execution => some (.transition execution .retired)
  | .cancel _ _ execution => some (.transition execution .cancelled)
  | .drain _ _ execution => some (.transition execution .draining)
  | .completeExecution _ _ execution => some (.transition execution .completed)
  | .advanceExecutionGeneration _ _ execution => some (.advance execution)
  | .suspendBegin _ _ execution => some (.transition execution .suspending)
  | .suspendCommit _ _ execution => some (.transition execution .suspended)
  | _ => none

/-- Everything a call can do to the journaled state. -/
inductive Effect (c : Call) (s s' : Runtime) : Prop
  | quiet (hj : s'.toJournaled = s.toJournaled) (hopen : s'.isOpen = s.isOpen)
  | wrote {i : Intent} {es : List JournalEntry} (hi : c.intent = some i) (hrun : s.isOpen = true)
      (hopen : s'.isOpen = true) (ht : Transaction s.toJournaled i es)
      (hj : s'.toJournaled = s.toJournaled.write es)
  | lost (session : SessionId) (hc : c = .endSession session) (hrun : s.isOpen = true)
      (hopen : s'.isOpen = true)
      (hw : Writes (fun i => ∃ e, i = .lose e) s.toJournaled s'.toJournaled)
  | closed (hc : c = .shutdown) (hrun : s.isOpen = true) (hclosed : s'.isOpen = false)
      (hj : s'.toJournaled = { s.toJournaled with store := s.store.close })
  | snapshot (truncate : Bool) (hc : c = .takeSnapshot truncate) (hrun : s.isOpen = true)
      (hopen : s'.isOpen = true)
      (hj : s'.toJournaled = { s.toJournaled with
        store := s.store.writeSnapshot s.state truncate })
  | opens (config : RuntimeConfig) (entropy : UInt64) {result : Except Status Unit}
      {store : FileDurableStore} (hc : c = .openRuntime config entropy) (hclosed : s.isOpen = false)
      (hopened : s.store.openStore config.createIfMissing entropy = (result, store))
      (h : Opens s result store s')

/-- What holds of the process between calls: an open runtime has a supported schema, a closed one
has no sessions. -/
structure Orderly (s : Runtime) : Prop where
  schema : s.isOpen = true → s.state.schema = persistenceSchemaVersion
  sessions : s.isOpen = false → ∀ id, s.sessions id = none

/-- Every new session belongs to a worker and a boot that are not nil. -/
def Attends (s s' : Runtime) : Prop :=
  ∀ id info, s'.sessions id = some info → s.sessions id = some info ∨
    (info.worker ≠ .nil ∧ info.boot ≠ .nil)

theorem Attends.of_eq {s s' : Runtime} (h : s'.sessions = s.sessions) : Attends s s' := by
  intro id info hinfo
  rw [h] at hinfo
  exact .inl hinfo

/-- The effect of a call; a closed runtime still has no sessions, and new sessions are someone's. -/
structure Outcome (c : Call) (s s' : Runtime) : Prop where
  effect : Effect c s s'
  sessions : s'.isOpen = false → ∀ id, s'.sessions id = none
  attends : Attends s s'
  process : c.intent.isSome = true → SameProcess s s'

theorem Orderly.quiet {s : Runtime} (hs : Orderly s) (c : Call) : Outcome c s s :=
  ⟨.quiet rfl rfl, hs.sessions, .of_eq rfl, fun _ => .refl s⟩

theorem Settles.outcome {c : Call} {s s' : Runtime} {i : Intent} (h : Settles s i s')
    (hs : Orderly s) (hi : c.intent = some i) : Outcome c s s' := by
  have hprocess : SameProcess s s' := by
    rcases h with hquiet | ⟨es, hwrote⟩
    · exact hquiet.process
    · exact hwrote.process
  refine ⟨?_, ?_, .of_eq hprocess.sessions, fun _ => hprocess⟩
  · rcases h with hquiet | ⟨es, hwrote⟩
    · exact .quiet hquiet.journaled hprocess.isOpen
    · exact .wrote hi hwrote.running (hprocess.isOpen.trans hwrote.running) hwrote.transaction
        hwrote.journaled
  · intro hclosed id
    rw [hprocess.isOpen] at hclosed
    rw [hprocess.sessions]
    exact hs.sessions hclosed id

theorem beginSession_outcome (s : Runtime) (hs : Orderly s) (worker : WorkerId)
    (boot : WorkerBootId) :
    Leads (beginSession worker boot) s fun _ s' => Outcome (.beginSession worker boot) s s' := by
  unfold beginSession
  apply leads_get
  apply leads_refuseIf
  · intro _
    exact hs.quiet _
  intro hopen
  apply leads_refuseIf
  · intro _
    exact hs.quiet _
  intro _
  apply leads_refuseIf
  · intro _
    exact hs.quiet _
  intro hvalid
  apply leads_update
  refine leads_pure ⟨.quiet rfl rfl, fun hclosed => absurd hclosed hopen, ?_,
    fun h => (by cases h)⟩
  intro id info hinfo
  have hinfo' : Function.update s.sessions ⟨word s.nextSession⟩ (some ⟨worker, boot⟩) id =
      some info := hinfo
  rw [Function.update_apply] at hinfo'
  split at hinfo'
  · cases hinfo'
    simp only [not_or, Bool.not_eq_false, Id.valid_iff] at hvalid
    exact .inr hvalid
  · exact .inl hinfo'

theorem endSession_outcome (s : Runtime) (hs : Orderly s) (session : SessionId) :
    Outcome (.endSession session) s ((endSession session).exec s).2 := by
  obtain ⟨hnone, hw, hopen, hsessions⟩ := endSession_writes s session
  have hattends : Attends s ((endSession session).exec s).2 := by
    intro id info hinfo
    rcases hsessions id with hsame | hended
    · exact .inl (hsame.symm.trans hinfo)
    · rw [hended] at hinfo
      cases hinfo
  cases hrun : s.isOpen with
  | true =>
    rw [hrun] at hopen
    refine ⟨.lost session rfl hrun hopen hw, ?_, hattends, fun h => (by cases h)⟩
    intro hclosed
    rw [hopen] at hclosed
    cases hclosed
  | false =>
    have hsame := hnone (hs.sessions hrun session)
    refine ⟨.quiet (congrArg _ hsame) hopen, ?_, hattends, fun h => (by cases h)⟩
    intro _ id
    rcases hsessions id with hkept | hended
    · exact hkept.trans (hs.sessions hrun id)
    · exact hended

theorem beginAction_outcome (s : Runtime) (hs : Orderly s) (request : BeginActionRequest) :
    Outcome (.beginAction request) s ((beginAction request).exec s).2 := by
  refine Settles.outcome ?_ hs rfl
  rcases beginAction_settles s request with ⟨hquiet, -⟩ | ⟨es, x, l, hwrote, -⟩
  · exact .inl hquiet
  · exact .inr ⟨es, hwrote⟩

/-- An open runtime is not opened again. -/
theorem openRuntime_refused (s : Runtime) (config : RuntimeConfig) (entropy : UInt64)
    (hopen : s.isOpen = true) : Leads (openRuntime config entropy) s fun _ s' => s' = s := by
  unfold openRuntime
  apply leads_get
  apply leads_refuseIf
  · intro _
    rfl
  intro hclosed
  exact absurd hopen hclosed

theorem openRuntime_outcome (s : Runtime) (hs : Orderly s) (config : RuntimeConfig)
    (entropy : UInt64) :
    Outcome (.openRuntime config entropy) s ((openRuntime config entropy).exec s).2 := by
  cases hopen : s.isOpen with
  | true =>
    have hsame : ((openRuntime config entropy).exec s).2 = s :=
      openRuntime_refused s config entropy hopen
    rw [hsame]
    exact hs.quiet _
  | false =>
    rcases hopened : s.store.openStore config.createIfMissing entropy with ⟨result, store⟩
    obtain ⟨hopens, hsessions, -⟩ := openRuntime_opens s config entropy hopen hopened
    refine ⟨.opens config entropy rfl hopen hopened hopens, ?_, .of_eq hsessions,
      fun h => (by cases h)⟩
    intro _ id
    rw [hsessions]
    exact hs.sessions hopen id

theorem shutdown_outcome (s : Runtime) (hs : Orderly s) :
    Leads shutdown s fun _ s' => Outcome .shutdown s s' := by
  unfold shutdown
  apply leads_get
  apply leads_ite
  · intro hclosed
    exact leads_pure (hs.quiet _)
  · intro hopen
    exact ⟨.closed rfl (by simpa using hopen) rfl rfl, fun _ _ => rfl, fun _ _ h => (by cases h),
      fun h => (by cases h)⟩

theorem takeSnapshot_outcome (s : Runtime) (hs : Orderly s) (truncate : Bool) :
    Leads (takeSnapshot truncate) s fun _ s' => Outcome (.takeSnapshot truncate) s s' := by
  unfold takeSnapshot
  apply leads_get
  apply leads_refuseIf
  · intro _
    exact hs.quiet _
  intro hopen
  have hrun : s.isOpen = true := by simpa using hopen
  refine ⟨.snapshot truncate rfl hrun hrun rfl, ?_, .of_eq rfl, fun h => (by cases h)⟩
  intro hclosed
  exact absurd hclosed hopen

theorem flush_outcome (s : Runtime) (hs : Orderly s) :
    Leads flush s fun _ s' => Outcome .flush s s' := by
  unfold flush
  apply leads_get
  unfold refuseIf
  split
  · exact hs.quiet _
  · exact hs.quiet _

/-- A transition whose target needs no resolved ambiguity. -/
theorem transition_outcome (c : Call) (s : Runtime) (hs : Orderly s) (caller : CallerContext)
    (request : RequestId) (execution : ExecutionId) (target : Lifecycle) (what : String)
    (hfree : target ≠ .completed ∧ target ≠ .retired)
    (hc : c.intent = some (.transition execution target)) :
    Outcome c s ((transitionOp caller request execution (fun _ _ => none) target what).exec s).2 := by
  refine Settles.outcome (transitionOp_settles s caller request execution _ target what ?_) hs hc
  rintro (h | h)
  · exact absurd h hfree.1
  · exact absurd h hfree.2

/-- A transition that is refused while an ambiguity is open. -/
theorem sealing_outcome (c : Call) (s : Runtime) (hs : Orderly s) (caller : CallerContext)
    (request : RequestId) (execution : ExecutionId) (target : Lifecycle) (what message : String)
    (hc : c.intent = some (.transition execution target)) :
    Outcome c s ((transitionOp caller request execution
      (fun st x => openAmbiguityDefect st x message) target what).exec s).2 := by
  refine Settles.outcome (transitionOp_settles s caller request execution _ target what ?_) hs hc
  intro _ x hnone amb hamb
  exact openAmbiguityDefect_none hnone amb hamb

theorem call_outcome (c : Call) (s : Runtime) (hs : Orderly s) : Outcome c s (c.perform s) := by
  cases c with
  | openRuntime config entropy => exact openRuntime_outcome s hs config entropy
  | shutdown => exact shutdown_outcome s hs
  | beginSession worker boot => exact beginSession_outcome s hs worker boot
  | endSession session => exact endSession_outcome s hs session
  | createExecution caller request =>
    exact (createExecution_settles s caller request hs.schema).outcome hs rfl
  | updatePolicy caller request execution policy apply =>
    exact (updatePolicy_settles s caller request execution policy apply).outcome hs rfl
  | bindWorker caller request => exact (bindWorker_settles s caller request).outcome hs rfl
  | start request => exact (start_settles s request).outcome hs rfl
  | beginAction request => exact beginAction_outcome s hs request
  | completeAction request => exact (completeAction_completes s request).settles.outcome hs rfl
  | failAction request => exact (failAction_settles s request).outcome hs rfl
  | reportSideEffect request => exact (reportSideEffect_settles s request).outcome hs rfl
  | registerCheckpoint request => exact (registerCheckpoint_settles s request).outcome hs rfl
  | resume request => exact (resume_settles s request).outcome hs rfl
  | recover caller request execution =>
    exact (recoverLocked_settles s caller request execution).outcome hs rfl
  | resolveAmbiguity request => exact (resolveAmbiguity_settles s request).outcome hs rfl
  | fence caller request execution =>
    exact transition_outcome _ s hs caller request execution _ _ ⟨by decide, by decide⟩ rfl
  | retire caller request execution =>
    exact sealing_outcome _ s hs caller request execution _ _ _ rfl
  | cancel caller request execution =>
    exact transition_outcome _ s hs caller request execution _ _ ⟨by decide, by decide⟩ rfl
  | drain caller request execution =>
    exact transition_outcome _ s hs caller request execution _ _ ⟨by decide, by decide⟩ rfl
  | completeExecution caller request execution =>
    exact sealing_outcome _ s hs caller request execution _ _ _ rfl
  | advanceExecutionGeneration caller request execution =>
    exact (advance_settles s caller request execution).outcome hs rfl
  | suspendBegin caller request execution =>
    exact transition_outcome _ s hs caller request execution _ _ ⟨by decide, by decide⟩ rfl
  | suspendCommit caller request execution =>
    exact transition_outcome _ s hs caller request execution _ _ ⟨by decide, by decide⟩ rfl
  | takeSnapshot truncate => exact takeSnapshot_outcome s hs truncate
  | flush => exact flush_outcome s hs

end ExecutionFabric
