import ExecutionFabric.Audit.Working

/-!
# Store identity and history along a run

What no collision can disturb: the directory keeps its store id, memory carries it
while the runtime is open, and the history only grows. So the derivations a run has
minted only grow, and a run without collisions at its end had none before.
-/
namespace ExecutionFabric

open Lib

/-- The store id in the journal header, if there is a journal. -/
def FileDurableStore.directoryId (s : FileDurableStore) : Option StoreId :=
  s.directory.map Directory.storeId

@[simp] theorem FileDurableStore.directoryId_append (s : FileDurableStore) (e : JournalEntry) :
    (s.append e).directoryId = s.directoryId := by
  unfold directoryId append
  cases s.directory <;> rfl

/-- `j'` continues the journal of `j` in the same store. -/
structure Grows (j j' : Journaled) : Prop where
  history : j.store.history <+: j'.store.history
  directoryId : j'.store.directoryId = j.store.directoryId
  isOpen : j'.store.isOpen = j.store.isOpen
  store : j'.state.store = j.state.store
  schema : j'.state.schema = j.state.schema

theorem Grows.refl (j : Journaled) : Grows j j := ⟨List.prefix_rfl, rfl, rfl, rfl, rfl⟩

theorem Grows.trans {j j' j'' : Journaled} (h : Grows j j') (h' : Grows j' j'') : Grows j j'' :=
  ⟨h.history.trans h'.history, h'.directoryId.trans h.directoryId, h'.isOpen.trans h.isOpen,
    h'.store.trans h.store, h'.schema.trans h.schema⟩

/-- Metadata records that name the store and the schema at hand. -/
def Journaled.Owns (j : Journaled) (es : List JournalEntry) : Prop :=
  ∀ r, .storeMeta r ∈ es → r.store = j.state.store ∧ r.schema = j.state.schema

theorem grows_put (j : Journaled) (e : JournalEntry) (h : j.Owns [e]) : Grows j (j.put e) := by
  refine ⟨?_, ?_, ?_, ?_, ?_⟩
  · rw [Journaled.store_put]
    exact List.prefix_append _ _
  · rw [Journaled.store_put, FileDurableStore.directoryId_append]
  · rw [Journaled.store_put]
    rfl
  · rw [Journaled.state_put]
    cases e <;> first | rfl | exact (h _ (List.mem_singleton.mpr rfl)).1
  · rw [Journaled.state_put]
    cases e <;> first | rfl | exact (h _ (List.mem_singleton.mpr rfl)).2

theorem grows_write (j : Journaled) (es : List JournalEntry) (h : j.Owns es) :
    Grows j (j.write es) := by
  induction es generalizing j with
  | nil => exact .refl j
  | cons e rest ih =>
    have hput : Grows j (j.put e) := by
      refine grows_put j e fun r hr => h r ?_
      rw [List.mem_singleton.mp hr]
      exact List.mem_cons_self
    refine hput.trans (ih _ fun r hr => ?_)
    rw [hput.store, hput.schema]
    exact h r (List.mem_cons_of_mem _ hr)

/-- Only `create_execution` writes metadata. -/
theorem Transaction.creates {j : Journaled} {i : Intent} {es : List JournalEntry}
    (ht : Transaction j i es) {r : StoreMetaRecord} (hr : .storeMeta r ∈ es) :
    i = .create ∧ r = advancedMeta j.state := by
  cases ht with
  | create policy hid => exact ⟨rfl, by simpa using hr⟩
  | lose hx hlive =>
    unfold fenceRecords at hr
    split at hr
    · cases hr
    · dsimp only at hr
      split at hr <;> simp [leaseAs] at hr
  | enterCheckpoint request htoken hlifecycle =>
    unfold enterCheckpointing at hr
    split at hr <;> simp at hr
  | checkpoint request htoken hlifecycle hdepth =>
    simp only [checkpointRecords, demotionRecords, newCheckpointRecords, enterCheckpointing,
      continuationRecords, List.mem_append] at hr
    rcases hr with ((hr | hr) | hr) | hr | hr
    · split at hr <;> simp at hr
    all_goals simp at hr
  | transition target hx hlegal hambiguity =>
    rcases List.mem_append.mp hr with hr | hr
    · split at hr <;> simp [leaseAs] at hr
    · simp at hr
  | _ =>
    simp [leaseAs, continuationRecords, resumeRecords, recoveryRecords, ambiguityRecords,
      receiptRecords] at hr

theorem Transaction.eq_advancedMeta {j : Journaled} {i : Intent} {es : List JournalEntry}
    (ht : Transaction j i es) {r : StoreMetaRecord} (hr : .storeMeta r ∈ es) :
    r = advancedMeta j.state := (ht.creates hr).2

/-- The metadata a transaction writes names the store at hand. -/
theorem Transaction.owns {j : Journaled} {i : Intent} {es : List JournalEntry}
    (ht : Transaction j i es) (hschema : j.state.schema = persistenceSchemaVersion) : j.Owns es := by
  intro r hr
  rw [ht.eq_advancedMeta hr]
  exact ⟨rfl, hschema.symm⟩

theorem restartRecords_owns (j : Journaled) (hschema : j.state.schema = persistenceSchemaVersion) :
    j.Owns (restartRecords j) := by
  intro r hr
  have hr' : r = nextEpochMeta j.state := by
    simpa [restartRecords, reclassificationRecords, revocationRecords] using hr
  subst hr'
  exact ⟨rfl, hschema.symm⟩

theorem Writes.grows {allowed : Intent → Prop} {j j' : Journaled} (h : Writes allowed j j')
    (hschema : j.state.schema = persistenceSchemaVersion) : Grows j j' := by
  induction h with
  | done j => exact .refl j
  | write hi ht rest ih =>
    have hgrows := grows_write _ _ (ht.owns hschema)
    exact hgrows.trans (ih (hgrows.schema.trans hschema))

/-! ## Reopening -/

/-- Reconciliation only appends. -/
theorem reconciled_grows (j : Journaled) : Grows j (reconciled j) := by
  have hfold : ∀ (repairs : List CommitGroupRecord) (k : Journaled),
      Grows k (repairs.foldl (fun j repair => j.append (.commitGroup repair)) k) := by
    intro repairs
    induction repairs with
    | nil => exact fun k => .refl k
    | cons r rest ih =>
      intro k
      have hstep : Grows k (k.append (.commitGroup r)) :=
        ⟨List.prefix_append _ _, FileDurableStore.directoryId_append _ _, rfl, rfl, rfl⟩
      exact hstep.trans (ih _)
  have hstart : Grows j (Journaled.rebuildIndexes { j with state := (reconcileState j.state).state }) :=
    ⟨List.prefix_rfl, rfl, rfl, store_reconcileState j.state, schema_reconcileState j.state⟩
  exact hstart.trans (hfold _ _)

/-- Opening the store keeps its history and an existing store id. -/
theorem openStore_keeps {st st' : FileDurableStore} {create : Bool} {entropy : UInt64}
    {result : Except Status Unit} (h : st.openStore create entropy = (result, st')) :
    st'.history = st.history ∧ (∀ id, st.directoryId = some id → st'.directoryId = some id) ∧
      (st'.directoryId = none → st.directoryId = none) ∧
      (result = .ok () → st'.directoryId = some st'.storeId) := by
  unfold FileDurableStore.openStore at h
  split at h
  · cases h
    exact ⟨rfl, fun _ h => h, fun h => h, fun h => by cases h⟩
  · split at h
    · cases h
      exact ⟨rfl, fun _ h => h, fun h => h, fun h => by cases h⟩
    · dsimp only at h
      split at h
      · cases h
        refine ⟨rfl, ?_, fun h => ?_, fun h => by cases h⟩
        · intro id hid
          unfold FileDurableStore.directoryId at hid ⊢
          cases hd : st.directory with
          | none => simp [hd] at hid
          | some d => simpa [hd] using hid
        · cases h
      · cases h
        refine ⟨rfl, ?_, fun h => ?_, fun _ => rfl⟩
        · intro id hid
          unfold FileDurableStore.directoryId at hid ⊢
          cases hd : st.directory with
          | none => simp [hd] at hid
          | some d => simpa [hd] using hid
        · cases h

/-! ## Runs -/

/-- The part of the state invariant that holds with or without collisions. -/
structure Housed (s : Runtime) : Prop where
  orderly : Orderly s
  store : s.isOpen = true → s.store.directoryId = some s.state.store
  unwritten : s.store.directoryId = none → s.store.history = []

/-- `s'` continues the history of `s` in the same store. -/
structure Follows (s s' : Runtime) : Prop where
  history : s.store.history <+: s'.store.history
  directory : ∀ id, s.store.directoryId = some id → s'.store.directoryId = some id

theorem Follows.refl (s : Runtime) : Follows s s := ⟨List.prefix_rfl, fun _ h => h⟩

theorem Follows.trans {s s' s'' : Runtime} (h : Follows s s') (h' : Follows s' s'') :
    Follows s s'' :=
  ⟨h.history.trans h'.history, fun id hid => h'.directory id (h.directory id hid)⟩

theorem housed_start : Housed {} := by
  refine ⟨⟨?_, fun _ _ => rfl⟩, ?_, fun _ => rfl⟩
  · intro h
    cases h
  · intro h
    cases h

theorem Housed.of_grows {s s' : Runtime} (h : Housed s) (hopen : s.isOpen = true)
    (hopen' : s'.isOpen = true) (hg : Grows s.toJournaled s'.toJournaled) :
    Housed s' ∧ Follows s s' := by
  refine ⟨⟨⟨?_, ?_⟩, ?_, ?_⟩, hg.history, ?_⟩
  · intro _
    rw [hg.schema]
    exact h.orderly.schema hopen
  · intro hclosed
    rw [hopen'] at hclosed
    cases hclosed
  · intro _
    rw [hg.directoryId, hg.store]
    exact h.store hopen
  · intro hnone
    rw [hg.directoryId, h.store hopen] at hnone
    cases hnone
  · intro id hid
    rw [hg.directoryId]
    exact hid

theorem Housed.opens {s s' : Runtime} (h : Housed s) {create : Bool} {entropy : UInt64}
    {result : Except Status Unit} {store : FileDurableStore}
    (hopened : s.store.openStore create entropy = (result, store)) (hopens : Opens s result store s')
    (hsessions : s'.isOpen = false → ∀ id, s'.sessions id = none) : Housed s' ∧ Follows s s' := by
  obtain ⟨hhistory, hkeeps, hnone, hok⟩ := openStore_keeps hopened
  have hclosed : ∀ s' : Runtime, s'.store = store → s'.isOpen = false →
      (∀ id, s'.sessions id = none) → Housed s' ∧ Follows s s' := by
    intro s' hstore hclosed hsessions
    refine ⟨⟨⟨?_, fun _ => hsessions⟩, ?_, ?_⟩, ?_, ?_⟩
    · intro hopen
      rw [hclosed] at hopen
      cases hopen
    · intro hopen
      rw [hclosed] at hopen
      cases hopen
    · rw [hstore, hhistory]
      exact fun hid => h.unwritten (hnone hid)
    · rw [hstore, hhistory]
    · rw [hstore]
      exact hkeeps
  cases hopens with
  | refused e hresult hj hclosed' =>
    exact hclosed s' (congrArg Journaled.store hj) hclosed' (hsessions hclosed')
  | unloadable d hresult hd hload hstore hclosed' =>
    exact hclosed s' hstore hclosed' (hsessions hclosed')
  | reopened d hresult hd hload hw hopen =>
    have hreloaded : Grows { s.toJournaled with
        store := store, state := loadedState d s.state store.storeId }
        (reloaded s.toJournaled store d) := reconciled_grows _
    have hschema : (reloaded s.toJournaled store d).state.schema = persistenceSchemaVersion :=
      hreloaded.schema
    have hrestart := grows_write _ _ (restartRecords_owns _ hschema)
    have hg := (hreloaded.trans hrestart).trans (hw.writes.grows (hrestart.schema.trans hschema))
    refine ⟨⟨⟨fun _ => hg.schema, ?_⟩, ?_, ?_⟩, ?_, ?_⟩
    · intro hclosed'
      rw [hopen] at hclosed'
      cases hclosed'
    · intro _
      rw [hg.directoryId, hg.store]
      exact hok hresult
    · intro hid
      have hsome : store.directoryId = some store.storeId := hok hresult
      rw [hg.directoryId] at hid
      rw [show store.directoryId = none from hid] at hsome
      cases hsome
    · have hextends : store.history <+: s'.store.history := hg.history
      rw [hhistory] at hextends
      exact hextends
    · intro id hid
      rw [hg.directoryId]
      exact hkeeps id hid

/-- Every event keeps the store id and extends the history. -/
theorem Housed.perform {s : Runtime} (h : Housed s) (e : Event) :
    Housed (e.perform s) ∧ Follows s (e.perform s) := by
  cases e with
  | crash kept =>
    have hid : (s.crashed kept).store.directoryId = s.store.directoryId := by
      unfold Runtime.crashed FileDurableStore.directoryId
      cases s.store.directory <;> rfl
    have hclosed : ((Event.crash kept).perform s).isOpen = false := rfl
    refine ⟨⟨⟨?_, fun _ _ => rfl⟩, ?_, ?_⟩, List.prefix_rfl, ?_⟩
    · intro hopen
      rw [hclosed] at hopen
      cases hopen
    · intro hopen
      rw [hclosed] at hopen
      cases hopen
    · intro hnone
      rw [show ((Event.crash kept).perform s).store.directoryId = _ from hid] at hnone
      exact h.unwritten hnone
    · intro id hs
      exact hid.trans hs
  | call c =>
    have houtcome := call_outcome c s h.orderly
    obtain ⟨heffect, hsessions⟩ := houtcome
    show Housed (c.perform s) ∧ Follows s (c.perform s)
    generalize c.perform s = s' at *
    cases heffect with
    | quiet hj hopen =>
      refine ⟨⟨⟨?_, hsessions⟩, ?_, ?_⟩, ?_, ?_⟩
      · rw [hopen, hj]
        exact h.orderly.schema
      · rw [hopen, hj]
        exact h.store
      · rw [hj]
        exact h.unwritten
      · rw [hj]
      · rw [hj]
        exact fun _ hid => hid
    | wrote hi hrun hopen ht hj =>
      refine h.of_grows hrun hopen ?_
      rw [hj]
      exact grows_write _ _ (ht.owns (h.orderly.schema hrun))
    | lost session hc hrun hopen hw =>
      exact h.of_grows hrun hopen (hw.grows (h.orderly.schema hrun))
    | closed hc hrun hclosed hj =>
      have hstore : s'.store = s.store.close := congrArg Journaled.store hj
      refine ⟨⟨⟨?_, hsessions⟩, ?_, ?_⟩, ?_, ?_⟩
      · intro hopen
        rw [hclosed] at hopen
        cases hopen
      · intro hopen
        rw [hclosed] at hopen
        cases hopen
      · rw [hstore]
        exact h.unwritten
      · rw [hstore]
        exact List.prefix_rfl
      · rw [hstore]
        exact fun _ hid => hid
    | snapshot truncate hc hrun hopen hj =>
      refine h.of_grows hrun hopen ?_
      rw [hj]
      have hid := h.store hrun
      refine ⟨?_, ?_, ?_, rfl, rfl⟩
      · cases truncate <;> exact List.prefix_rfl
      · unfold FileDurableStore.directoryId at hid ⊢
        obtain ⟨d, hd, hstore⟩ := Option.map_eq_some_iff.mp hid
        cases truncate with
        | false => simp [FileDurableStore.writeSnapshot, hd]
        | true => simp [FileDurableStore.writeSnapshot, hd, hstore]
      · cases truncate <;> rfl
    | opens config entropy hc hclosed hopened hopens => exact h.opens hopened hopens hsessions

theorem Runs.housed {allow : Runtime → Event → Prop} {s s' : Runtime} {events : List Event}
    (hrun : Runs allow s events s') (h : Housed s) : Housed s' ∧ Follows s s' := by
  induction hrun with
  | nil s => exact ⟨h, .refl s⟩
  | cons hallow rest ih =>
    obtain ⟨hstep, hfollows⟩ := h.perform _
    obtain ⟨hend, hrest⟩ := ih hstep
    exact ⟨hend, hfollows.trans hrest⟩

/-- What was minted stays minted. -/
theorem Housed.minted_subset {s s' : Runtime} (h : Housed s) (hf : Follows s s') :
    s.minted ⊆ s'.minted := by
  unfold Runtime.minted
  cases hid : s.store.directoryId with
  | none =>
    rw [h.unwritten hid]
    exact List.nil_subset _
  | some id =>
    have hsame : s'.storeIdentity = s.storeIdentity := by
      unfold Runtime.storeIdentity
      have hid' := hf.directory id hid
      unfold FileDurableStore.directoryId at hid hid'
      rw [hid, hid']
    rw [hsame]
    obtain ⟨rest, hrest⟩ := hf.history
    rw [← hrest, List.flatMap_append]
    exact List.subset_append_left _ _

/-- The derivations of the history, by the store id memory carries. -/
theorem Housed.minted {s : Runtime} (h : Housed s) (hopen : s.isOpen = true) {ds : List Derivation}
    (hds : s.minted ⊆ ds) : Minted ds s.state.store s.store.history := by
  intro e he d hd
  refine hds (List.mem_flatMap.mpr ⟨e, he, ?_⟩)
  have hid := h.store hopen
  unfold FileDurableStore.directoryId at hid
  unfold Runtime.storeIdentity
  rw [hid]
  exact hd

end ExecutionFabric
