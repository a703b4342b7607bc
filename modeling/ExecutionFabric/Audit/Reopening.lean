import ExecutionFabric.Audit.FileOpens

/-!
# What opening a runtime remembers

Opening reads the disk, but the load starts from whatever the same runtime object held
before: an earlier handle that was never closed refuses the open, and the scalars of the
earlier state survive until the snapshot or a metadata record of the journal overwrites
them. The theorem of this module says exactly when nothing of the past is left.
-/
namespace ExecutionFabric

open Lib Program

/-! ## The life of a runtime -/

/-- What every state of a runtime object satisfies: a runtime that has read a store has its name
and its schema, and an epoch of 64 bits. -/
structure Seasoned (s : Runtime) : Prop where
  orderly : Orderly s
  opened : s.isOpen = true → s.state.epoch < 2 ^ 64 ∧ s.state.store ≠ .nil
  closed : s.isOpen = false → s.store.isOpen = false →
    s.state = {} ∨ s.state.epoch < 2 ^ 64 ∧ s.state.store ≠ .nil ∧
      s.state.schema = persistenceSchemaVersion

theorem Seasoned.parked {s s' : Runtime} (h : Seasoned s) (hopen : s.isOpen = false)
    (hclosed : s'.isOpen = false) (hsessions : s'.sessions = s.sessions)
    (hstate : s'.store.isOpen = false → s'.state = {} ∨ s'.state.epoch < 2 ^ 64 ∧
      s'.state.store ≠ .nil ∧ s'.state.schema = persistenceSchemaVersion) : Seasoned s' := by
  refine ⟨⟨fun hrun => ?_, fun _ => ?_⟩, fun hrun => ?_, fun _ => hstate⟩
  · rw [hclosed] at hrun
    cases hrun
  · rw [hsessions]
    exact h.orderly.sessions hopen
  · rw [hclosed] at hrun
    cases hrun

theorem Seasoned.opens {s : Runtime} (h : Seasoned s) (config : RuntimeConfig)
    (files : Option Files) (entropy : UInt64) : Seasoned (s.openedOver config files entropy) := by
  cases hopen : s.isOpen with
  | true =>
    have hsame : Leads (openFiles config files entropy) s fun _ s' => s' = s := by
      unfold openFiles
      apply leads_get
      exact leads_refuseIf (fun _ => rfl) (fun hclosed => absurd hopen hclosed)
    rw [show s.openedOver config files entropy = s from hsame]
    exact h
  | false =>
    cases hhandle : s.store.isOpen with
    | true =>
      obtain ⟨-, hstate, hclosed, hstore, hsessions⟩ :=
        openFiles_handled hopen hhandle config files entropy
      exact h.parked hopen hclosed hsessions fun hclosedHandle => by
        rw [show (s.openedOver config files entropy).store = s.store from hstore,
          hhandle] at hclosedHandle
        cases hclosedHandle
    | false =>
      have hends : EndsAs s config.createIfMissing config.storeLimits files entropy
          ((openFiles config files entropy).exec s).1 (s.openedOver config files entropy) :=
        openFiles_ends hopen hhandle config files entropy
      generalize ((openFiles config files entropy).exec s).1 = result at hends
      generalize s.openedOver config files entropy = s' at hends ⊢
      cases hends with
      | refused _ _ hstate hclosed _ hsessions =>
        exact h.parked hopen hclosed hsessions fun _ => by
          rw [hstate]
          exact h.closed hopen hhandle
      | unloaded _ _ _ hclosed hopenHandle _ hsessions =>
        exact h.parked hopen hclosed hsessions fun hclosedHandle => by
          rw [hopenHandle] at hclosedHandle
          cases hclosedHandle
      | opened hfiles _ hrun hstate =>
        refine ⟨⟨fun _ => hstate.schema, fun hclosed => ?_⟩, fun _ => ⟨?_, ?_⟩, fun hclosed => ?_⟩
        · rw [hrun] at hclosed
          cases hclosed
        · rw [hstate.epoch]
          exact Nat.mod_lt _ (by decide)
        · rw [hstate.store]
          exact hfiles.named
        · rw [hrun] at hclosed
          cases hclosed

theorem Writes.epoch {allowed : Intent → Prop} {j j' : Journaled} (h : Writes allowed j j') :
    j'.state.epoch = j.state.epoch := by
  induction h with
  | done j => rfl
  | @write j j' i es hi ht rest ih =>
    have hstep := ht.epoch
    rw [← Journaled.image_write] at hstep
    exact ih.trans hstep

/-- A call that writes keeps the name of the store, the schema and the epoch. -/
theorem Seasoned.writes {s s' : Runtime} {allowed : Intent → Prop} (h : Seasoned s)
    (hrun : s.isOpen = true) (hopen : s'.isOpen = true)
    (hw : Writes allowed s.toJournaled s'.toJournaled) : Seasoned s' := by
  have hgrows := hw.grows (h.orderly.schema hrun)
  refine ⟨⟨fun _ => ?_, ?_⟩, fun _ => ?_, ?_⟩
  · exact hgrows.schema.trans (h.orderly.schema hrun)
  · intro hclosed
    rw [hopen] at hclosed
    cases hclosed
  · rw [show s'.state.epoch = s.state.epoch from hw.epoch,
      show s'.state.store = s.state.store from hgrows.store]
    exact h.opened hrun
  · intro hclosed
    rw [hopen] at hclosed
    cases hclosed

theorem Seasoned.calls {s : Runtime} (h : Seasoned s) (c : Call)
    (hc : ∀ config entropy, c ≠ .openRuntime config entropy) : Seasoned (c.perform s) := by
  obtain ⟨heffect, hsessions⟩ := call_outcome c s h.orderly
  cases heffect with
  | quiet hj hopen =>
    have hstate : (c.perform s).state = s.state := congrArg Journaled.state hj
    have hstore : (c.perform s).store = s.store := congrArg Journaled.store hj
    refine ⟨⟨fun hrun => ?_, hsessions⟩, fun hrun => ?_, fun hclosed hhandle => ?_⟩
    · rw [hstate]
      exact h.orderly.schema (hopen ▸ hrun)
    · rw [hstate]
      exact h.opened (hopen ▸ hrun)
    · rw [hstate]
      exact h.closed (hopen ▸ hclosed) (hstore ▸ hhandle)
  | wrote hi hrun hopen ht hj =>
    have hw : Writes (fun _ => True) s.toJournaled (c.perform s).toJournaled := by
      rw [hj]
      exact .write trivial ht (.done _)
    exact h.writes hrun hopen hw
  | lost session _ hrun hopen hw => exact h.writes hrun hopen hw
  | closed _ hrun hclosed hj =>
    have hstate : (c.perform s).state = s.state := (congrArg Journaled.state hj).trans rfl
    refine ⟨⟨fun hopen => ?_, hsessions⟩, fun hopen => ?_, fun _ _ => ?_⟩
    · rw [hclosed] at hopen
      cases hopen
    · rw [hclosed] at hopen
      cases hopen
    · rw [hstate]
      obtain ⟨hepoch, hstore⟩ := h.opened hrun
      exact .inr ⟨hepoch, hstore, h.orderly.schema hrun⟩
  | snapshot truncate _ hrun hopen hj =>
    have hstate : (c.perform s).state = s.state := (congrArg Journaled.state hj).trans rfl
    refine ⟨⟨fun _ => ?_, hsessions⟩, fun _ => ?_, fun hclosed => ?_⟩
    · rw [hstate]
      exact h.orderly.schema hrun
    · rw [hstate]
      exact h.opened hrun
    · rw [hopen] at hclosed
      cases hclosed
  | opens config entropy hopens => exact absurd hopens (hc config entropy)

theorem Seasoned.wrapped {s : Runtime} (h : Seasoned s) : Seasoned s.wrapped where
  orderly := ⟨h.orderly.schema, h.orderly.sessions⟩
  opened := h.opened
  closed := by
    intro hclosed hhandle
    refine (h.closed hclosed hhandle).imp (fun hempty => ?_) fun hread => hread
    show ({ s.state with
      nextExecutionSequence := s.state.nextExecutionSequence % 2 ^ 64 } : DurableState) = {}
    rw [hempty]
    rfl

theorem seasoned_of_lived {s : Runtime} (h : Lived s) : Seasoned s := by
  induction h with
  | constructed =>
    exact ⟨⟨fun h => (by cases h), fun _ _ => rfl⟩, fun h => (by cases h), fun _ _ => .inl rfl⟩
  | opened _ config files entropy ih => exact ih.opens config files entropy
  | called _ c hc ih => exact (ih.calls c hc).wrapped

/-! ## What overwrites the past -/

/-- The files hold a usable snapshot, or a journal of this very store with a metadata record in
it. -/
def Overwrites (store : StoreId) (limits : StoreLimits) (files : Option Files)
    (entropy : UInt64) : Prop :=
  match (files.getD {}).snapshot with
  | some snapshot =>
    snapshot.length ≤ limits.maxSnapshotPayload ∧ ∃ st, readSnapshot limits snapshot = .ok st
  | none =>
    journalStore (foundJournal files entropy) = store ∧
      reachesMeta (foundJournal files entropy) store
        (readableRecords limits (foundJournal files entropy)) = true

/-- The scalars the earlier state leaves are the ones a new object starts from, and the files, a
journal of the same store without a snapshot, load: the epoch counter has wrapped around. -/
structure Faded (st : DurableState) (limits : StoreLimits) (files : Option Files)
    (entropy : UInt64) : Prop where
  snapshot : (files.getD {}).snapshot = none
  store : journalStore (foundJournal files entropy) = st.store
  loads : ¬ (loadFiles limits (foundFiles files entropy) {}).Rejected
    (journalStore (foundJournal files entropy))
  epoch : st.epoch = 0
  nextExecutionSequence : st.nextExecutionSequence = 1

section Overwrites

variable {create : Bool} {limits : StoreLimits} {files : Option Files} {entropy : UInt64}
  {out : DurableState}

theorem journalBase_named {store : StoreId} (hnamed : out.store ≠ .nil) :
    journalBase store out = out.clear := if_neg fun h => hnamed h.1

theorem journalBase_fresh {store : StoreId} (hnamed : store ≠ .nil) :
    journalBase store {} = { ({} : DurableState) with store := store } := if_pos ⟨rfl, hnamed⟩

theorem loadFiles_found (hfiles : Openable create limits files entropy)
    (hsnapshot : (files.getD {}).snapshot = none) (out : DurableState) :
    loadFiles limits (foundFiles files entropy) out =
      judged limits (foundJournal files entropy) (scanned limits (foundJournal files entropy)
        (journalBase (journalStore (foundJournal files entropy)) out)) :=
  loadFiles_scanned (show (foundFiles files entropy).snapshot = none from hsnapshot) rfl
    hfiles.size hfiles.header out

theorem load_overwritten (hfiles : Openable create limits files entropy)
    (hnamed : out.store ≠ .nil) (h : Overwrites out.store limits files entropy) :
    loadFiles limits (foundFiles files entropy) out =
      loadFiles limits (foundFiles files entropy) {} := by
  unfold Overwrites at h
  cases hsnapshot : (files.getD {}).snapshot with
  | some snapshot =>
    rw [hsnapshot] at h
    obtain ⟨hsize, st, hread⟩ := h
    unfold loadFiles
    rw [show (foundFiles files entropy).snapshot = some snapshot from hsnapshot]
    dsimp only
    unfold readFile
    rw [if_neg (Nat.not_lt.mpr hsize)]
    dsimp only
    rw [hread]
  | none =>
    rw [hsnapshot] at h
    obtain ⟨hstore, hreaches⟩ := h
    rw [loadFiles_found hfiles hsnapshot, loadFiles_found hfiles hsnapshot,
      journalBase_named hnamed, journalBase_fresh hfiles.named]
    refine congrArg _ (foldl_take_reaches _ hreaches rfl rfl rfl rfl ?_ rfl)
    rw [hstore]
    rfl

/-- A snapshot that cannot be used refuses the load, which has cleared the state. -/
theorem load_unusable {snapshot : Bytes} (hsnapshot : (files.getD {}).snapshot = some snapshot)
    (h : ¬ Overwrites out.store limits files entropy) (base : DurableState) :
    (loadFiles limits (foundFiles files entropy) base).status ≠ none ∧
      (loadFiles limits (foundFiles files entropy) base).state = base.clear := by
  unfold Overwrites at h
  rw [hsnapshot] at h
  unfold loadFiles
  rw [show (foundFiles files entropy).snapshot = some snapshot from hsnapshot]
  dsimp only
  unfold readFile
  by_cases hsize : snapshot.length > limits.maxSnapshotPayload
  · rw [if_pos hsize]
    exact ⟨fun hno => (by cases hno), rfl⟩
  rw [if_neg hsize]
  dsimp only
  cases hread : readSnapshot limits snapshot with
  | error detail => exact ⟨fun hno => (by cases hno), rfl⟩
  | ok st => exact absurd ⟨Nat.le_of_not_lt hsize, st, hread⟩ h

/-- Without a snapshot and a metadata record, the scalars of the earlier store or its name are
still there. -/
theorem load_remembers (hfiles : Openable create limits files entropy)
    (hnamed : out.store ≠ .nil) (hsnapshot : (files.getD {}).snapshot = none)
    (h : ¬ Overwrites out.store limits files entropy) :
    (journalStore (foundJournal files entropy) = out.store ∧
      out.SameScalars (loadFiles limits (foundFiles files entropy) out).state ∧
      ({ store := out.store } : DurableState).SameScalars
        (loadFiles limits (foundFiles files entropy) {}).state) ∨
      (loadFiles limits (foundFiles files entropy) out).state.store = out.store ∧
        (loadFiles limits (foundFiles files entropy) {}).state.store =
          journalStore (foundJournal files entropy) ∧
        out.store ≠ journalStore (foundJournal files entropy) := by
  unfold Overwrites at h
  rw [hsnapshot] at h
  rw [loadFiles_found hfiles hsnapshot, loadFiles_found hfiles hsnapshot,
    journalBase_named hnamed, journalBase_fresh hfiles.named, judged_state, judged_state]
  unfold scanned
  by_cases hstore : journalStore (foundJournal files entropy) = out.store
  · have hreaches : reachesMeta (foundJournal files entropy) out.store
        (readableRecords limits (foundJournal files entropy)) = false := by
      cases hreach : reachesMeta (foundJournal files entropy) out.store
        (readableRecords limits (foundJournal files entropy)) with
      | false => rfl
      | true => exact absurd ⟨hstore, hreach⟩ h
    have hcleared := sameScalars_foldl_take hnamed _ hreaches
      { offset := journalHeaderSize
        state := out.clear
        report := { journalPresent := true } } rfl
    have hstarts : out.SameScalars out.clear := ⟨rfl, rfl, rfl, rfl⟩
    have hfresh := sameScalars_foldl_take hnamed _ hreaches
      { offset := journalHeaderSize
        state := { store := out.store }
        report := { journalPresent := true } } rfl
    rw [hstore]
    exact .inl ⟨rfl, hstarts.trans hcleared, hfresh⟩
  · exact .inr ⟨foldl_take_store _ _ _ hnamed, foldl_take_store _ _ _ hfiles.named,
      fun heq => hstore heq.symm⟩

end Overwrites

/-! ## Loads that differ only in what a restart overwrites -/

/-- The states differ at most in the sequence number and a schema that is supported. -/
def DurableState.Shaded (st st' : DurableState) : Prop :=
  ∃ n schema, st = { st' with sequence := n, schema := schema } ∧
    (schema = st'.schema ∨ schema = persistenceSchemaVersion)

/-- Scans that got equally far, over shaded states. -/
structure Scan.Shaded (s s' : Scan) : Prop where
  offset : s.offset = s'.offset
  report : s.report = s'.report
  refused : s.refused = s'.refused
  state : s.state.Shaded s'.state

section Shades

variable {limits : StoreLimits} {journal : Bytes}

/-- A record applies to both states or to neither. -/
theorem shaded_applyRecord {st st' : DurableState} (h : st.Shaded st') (entry : JournalEntry)
    (sequence : Nat) : (applyRecord st entry = none ∧ applyRecord st' entry = none) ∨
      ∃ r r', applyRecord st entry = some r ∧ applyRecord st' entry = some r' ∧
        ({ r with sequence := sequence } : DurableState).Shaded { r' with sequence := sequence } := by
  obtain ⟨n, schema, rfl, hschema⟩ := h
  cases entry with
  | storeMeta r =>
    by_cases hforeign : st'.store.valid = true ∧ r.store ≠ st'.store
    · exact .inl ⟨if_pos hforeign, if_pos hforeign⟩
    · exact .inr ⟨_, _, if_neg hforeign, if_neg hforeign, sequence, r.schema, rfl, .inl rfl⟩
  | _ => exact .inr ⟨_, _, rfl, rfl, sequence, schema, rfl, hschema⟩

theorem Scan.Shaded.take {s s' : Scan} (h : s.Shaded s') (n : Nat) (b : RecordBoundary) :
    (s.take journal n b).Shaded (s'.take journal n b) := by
  unfold Scan.take
  rw [h.refused]
  split
  · exact h
  split
  · unfold applyPayload
    cases JournalEntry.decode b.kind (slice journal b.payloadOffset b.payloadSize) with
    | none =>
      rw [Option.bind_none, Option.bind_none]
      exact ⟨h.offset, by rw [h.report, h.offset], by rw [h.offset], h.state⟩
    | some entry =>
      rw [Option.bind_some, Option.bind_some]
      rcases shaded_applyRecord h.state entry b.sequence with ⟨hno, hno'⟩ | ⟨r, r', hr, hr', hstate⟩
      · rw [hno, hno']
        exact ⟨h.offset, by rw [h.report, h.offset], rfl, h.state⟩
      · rw [hr, hr']
        exact ⟨by rw [h.offset], by rw [h.report], rfl, hstate⟩
  · exact ⟨by rw [h.offset], by rw [h.report], rfl, h.state⟩

theorem Scan.Shaded.foldl_take {s s' : Scan} (h : s.Shaded s') (n : Nat)
    (bs : List RecordBoundary) :
    (bs.foldl (Scan.take journal n) s).Shaded (bs.foldl (Scan.take journal n) s') := by
  induction bs generalizing s s' with
  | nil => exact h
  | cons b rest ih => exact ih (h.take n b)

theorem Scan.Shaded.stop {s s' : Scan} (h : s.Shaded s') :
    (s.stop journal).Shaded (s'.stop journal) := by
  unfold Scan.stop
  rw [h.refused, h.offset]
  split
  · exact h
  split
  · exact ⟨rfl, by rw [h.report], rfl, h.state⟩
  · exact h

theorem Scan.Shaded.judged {s s' : Scan} (h : s.Shaded s') (limits : StoreLimits) (journal : Bytes) :
    (judged limits journal s).status = (judged limits journal s').status ∧
      (judged limits journal s).report = (judged limits journal s').report := by
  have hstop : (s.stop journal).Shaded (s'.stop journal) := h.stop
  unfold ExecutionFabric.judged
  rw [hstop.refused]
  cases (s'.stop journal).refused with
  | some refused => exact ⟨rfl, hstop.report⟩
  | none =>
    dsimp only
    unfold classifyTail
    rw [hstop.offset, hstop.report]
    split
    · dsimp only
      split <;> exact ⟨rfl, rfl⟩
    · exact ⟨rfl, rfl⟩

end Shades

/-- Two loads a restart does not tell apart. -/
structure LoadOutcome.Faint (loaded loaded' : LoadOutcome) (store : StoreId) : Prop where
  accepted : ¬ loaded.Rejected store
  accepted' : ¬ loaded'.Rejected store
  report : loaded.report = loaded'.report
  state : loaded.state.Shaded loaded'.state

theorem Faded.faint {st : DurableState} {create : Bool} {limits : StoreLimits}
    {files : Option Files} {entropy : UInt64} (h : Faded st limits files entropy)
    (hfiles : Openable create limits files entropy) (hnamed : st.store ≠ .nil)
    (hschema : st.schema = persistenceSchemaVersion) :
    (loadFiles limits (foundFiles files entropy) st).Faint
      (loadFiles limits (foundFiles files entropy) {}) (journalStore (foundJournal files entropy)) := by
  have hloads := h.loads
  rw [loadFiles_found hfiles h.snapshot, journalBase_fresh hfiles.named] at hloads
  rw [loadFiles_found hfiles h.snapshot, loadFiles_found hfiles h.snapshot,
    journalBase_named hnamed, journalBase_fresh hfiles.named]
  have hbase : st.clear.Shaded { store := journalStore (foundJournal files entropy) } := by
    refine ⟨st.sequence, st.schema, ?_, .inr hschema⟩
    unfold DurableState.clear
    rw [h.store, h.epoch, h.nextExecutionSequence]
  have hstart : Scan.Shaded
      { offset := journalHeaderSize
        state := st.clear
        report := { journalPresent := true } }
      { offset := journalHeaderSize
        state := { store := journalStore (foundJournal files entropy) }
        report := { journalPresent := true } } := ⟨rfl, rfl, rfl, hbase⟩
  have hscan : (scanned limits (foundJournal files entropy) st.clear).Shaded
      (scanned limits (foundJournal files entropy)
        { store := journalStore (foundJournal files entropy) }) := hstart.foldl_take 0 _
  obtain ⟨hstatus, hreport⟩ := hscan.judged limits (foundJournal files entropy)
  refine ⟨?_, hloads, hreport, by rw [judged_state, judged_state]; exact hscan.state⟩
  obtain ⟨n, schema, hstate, hsupported⟩ := hscan.state
  rintro (hrefused | hforeign | hunsupported)
  · exact hloads (.inl (hstatus ▸ hrefused))
  · refine hloads (.inr (.inl ?_))
    unfold LoadOutcome.Foreign at hforeign ⊢
    rw [judged_state] at hforeign ⊢
    rwa [hstate] at hforeign
  · rw [judged_state, hstate] at hunsupported
    rcases hsupported with hkept | hversion
    · refine hloads (.inr (.inr ?_))
      rw [judged_state]
      rwa [hkept] at hunsupported
    · exact hunsupported.2 hversion

/-! ## Opening again -/

/-- Runtimes with one memory. -/
def SameState (s t : Runtime) : Prop := s.state = t.state

/-- A load that is not rejected is taken over, under the name of the journal. -/
theorem acceptLoaded_ends {loaded : LoadOutcome} {store : StoreId} (h : ¬ loaded.Rejected store)
    (s : Runtime) : (acceptLoaded loaded store).exec s =
      (.ok loaded.report, s.mapJournaled fun j => { j with state := { loaded.state with
        store := store
        schema := persistenceSchemaVersion } }) := by
  have hends : Leads (acceptLoaded loaded store) s fun r s' =>
      (r, s') = (.ok loaded.report, s.mapJournaled fun j => { j with state := { loaded.state with
        store := store
        schema := persistenceSchemaVersion } }) := by
    rw [← bind_pure (acceptLoaded loaded store)]
    apply leads_acceptLoaded
    · exact fun e hrejected => absurd hrejected h
    · exact fun _ => leads_pure rfl
  exact hends

/-- Two closed runtimes open alike when the load brings them level. -/
theorem openFiles_twin {s t : Runtime} (hclosed : s.isOpen = false) (hclosed' : t.isOpen = false)
    (hhandle : s.store.isOpen = false) (hhandle' : t.store.isOpen = false) (config : RuntimeConfig)
    (files : Option Files) (entropy : UInt64)
    (hrefused : ¬ Openable config.createIfMissing config.storeLimits files entropy →
      s.state = t.state)
    (hload : Openable config.createIfMissing config.storeLimits files entropy →
      loadFiles config.storeLimits (foundFiles files entropy) s.state =
          loadFiles config.storeLimits (foundFiles files entropy) t.state ∨
        (loadFiles config.storeLimits (foundFiles files entropy) s.state).Faint
          (loadFiles config.storeLimits (foundFiles files entropy) t.state)
          (journalStore (foundJournal files entropy))) :
    Twin SameState (openFiles config files entropy) (openFiles config files entropy) s t := by
  have hopens := openStore_opened hhandle hhandle' config.createIfMissing config.storeLimits files
    entropy
  have hiff := openStore_ok_iff hhandle config.createIfMissing config.storeLimits files entropy
  unfold openFiles
  apply twin_get
  rw [hclosed, hclosed']
  unfold refuseIf
  rw [if_neg (by simp), pure_bind]
  apply twin_update
  unfold loadFilesState
  apply twin_assoc
  apply twin_get
  apply twin_assoc
  apply twin_update
  apply twin_assoc
  dsimp only
  generalize hresult : (s.store.over files).openStore config.createIfMissing config.storeLimits
    entropy = result at hopens hiff
  generalize (t.store.over files).openStore config.createIfMissing config.storeLimits entropy =
    result' at hopens
  rcases result with ⟨status, b⟩
  rcases result' with ⟨status', b'⟩
  obtain rfl : status = status' := hopens.status
  cases status with
  | error e =>
    refine ⟨rfl, hrefused fun hfiles => ?_⟩
    cases hiff.mpr hfiles
  | ok _ =>
    obtain ⟨rfl, hfound⟩ := hopens.opened rfl
    dsimp only at hfound
    apply twin_accept
    dsimp only
    rw [show b.storeId = journalStore (foundJournal files entropy) from hfound.storeId]
    rcases hload (hiff.mp rfl) with hsame | hfaint
    · rw [← hfound.load, ← hfound.load] at hsame
      rw [show b.load t.state = b.load s.state from hsame.symm]
      generalize b.load s.state = loaded
      apply twin_assoc
      apply twin_update
      apply twin_assoc
      refine twin_refuseOn ?_ fun _ => ?_
      · exact Eq.refl loaded.state
      apply twin_assoc
      refine twin_refuseIf ?_ fun _ => ?_
      · exact Eq.refl loaded.state
      apply twin_assoc
      apply twin_update
      apply twin_assoc
      refine twin_refuseIf ?_ fun _ => ?_
      · exact Eq.refl ({ loaded.state with store := _ } : DurableState)
      apply twin_assoc
      apply twin_update
      rw [pure_bind]
      refine twin_mono (openLoaded_twin ?_ loaded.report) fun _ _ halike => halike.state
      exact ⟨⟨_, rfl⟩, rfl, hclosed.trans hclosed'.symm, rfl⟩
    · rw [← hfound.load, ← hfound.load] at hfaint
      apply twin_accepted (acceptLoaded_ends hfaint.accepted _)
        ((acceptLoaded_ends hfaint.accepted' _).trans (by rw [hfaint.report]))
      refine twin_mono (openLoaded_twin ?_ _) fun _ _ halike => halike.state
      obtain ⟨n, schema, hstate, -⟩ := hfaint.state
      refine ⟨⟨n, ?_⟩, rfl, hclosed.trans hclosed'.symm, rfl⟩
      exact congrArg (fun st : DurableState => { st with
        store := journalStore (foundJournal files entropy)
        schema := persistenceSchemaVersion }) hstate

theorem LoadOutcome.schema_abandoned (loaded : LoadOutcome) (store : StoreId) :
    (loaded.abandoned store).schema = loaded.state.schema := by
  unfold LoadOutcome.abandoned
  split <;> rfl

/-- A load that found the name of its journal leaves it. -/
theorem LoadOutcome.store_abandoned {loaded : LoadOutcome} {store : StoreId}
    (h : loaded.state.store = store) : (loaded.abandoned store).store = store := by
  unfold LoadOutcome.abandoned
  split
  · rfl
  · exact h

/-- Two rejected loads leave one state only where the disk overwrites what the earlier open left. -/
theorem overwrites_of_abandoned {out : DurableState} {create : Bool} {limits : StoreLimits}
    {files : Option Files} {entropy : UInt64} (hfiles : Openable create limits files entropy)
    (hnamed : out.store ≠ .nil) (hschema : out.schema = persistenceSchemaVersion)
    (hstate : (loadFiles limits (foundFiles files entropy) out).abandoned
        (journalStore (foundJournal files entropy)) =
      (loadFiles limits (foundFiles files entropy) {}).abandoned
        (journalStore (foundJournal files entropy))) :
    Overwrites out.store limits files entropy := by
  by_contra hpast
  cases hsnapshot : (files.getD {}).snapshot with
  | some snapshot =>
    obtain ⟨hrefuses, hcleared⟩ := load_unusable hsnapshot hpast out
    obtain ⟨hrefuses', hcleared'⟩ := load_unusable hsnapshot hpast {}
    unfold LoadOutcome.abandoned at hstate
    rw [if_neg fun h => hrefuses h.1, if_neg fun h => hrefuses' h.1, hcleared, hcleared'] at hstate
    exact hnamed (congrArg DurableState.store hstate)
  | none =>
    rcases load_remembers hfiles hnamed hsnapshot hpast with
      ⟨-, hold, hnew⟩ | ⟨hold, hnew, hother⟩
    · have hschemas := congrArg DurableState.schema hstate
      rw [LoadOutcome.schema_abandoned, LoadOutcome.schema_abandoned, hold.schema, hnew.schema,
        hschema] at hschemas
      cases hschemas
    · have hforeign : (loadFiles limits (foundFiles files entropy) out).Foreign
          (journalStore (foundJournal files entropy)) := by
        unfold LoadOutcome.Foreign
        rw [hold]
        exact ⟨hnamed, hother⟩
      have hstores := congrArg DurableState.store hstate
      rw [LoadOutcome.store_abandoned hnew] at hstores
      unfold LoadOutcome.abandoned at hstores
      rw [if_neg fun h => h.2 hforeign, hold] at hstores
      exact hother hstores

/-- Two loads that are taken over and whose epochs and sequences end the same: the disk overwrites
what the earlier open left, or it had faded. -/
theorem overwrites_of_accepted {out : DurableState} {create : Bool} {limits : StoreLimits}
    {files : Option Files} {entropy : UInt64} (hfiles : Openable create limits files entropy)
    (hepoch : out.epoch < 2 ^ 64) (hnamed : out.store ≠ .nil)
    (hloaded : ¬ (loadFiles limits (foundFiles files entropy) out).Rejected
      (journalStore (foundJournal files entropy)))
    (hloads : ¬ (loadFiles limits (foundFiles files entropy) {}).Rejected
      (journalStore (foundJournal files entropy)))
    (hepochs : ((loadFiles limits (foundFiles files entropy) out).state.epoch + 1) % 2 ^ 64 =
      ((loadFiles limits (foundFiles files entropy) {}).state.epoch + 1) % 2 ^ 64)
    (hnext : (loadFiles limits (foundFiles files entropy) out).state.nextExecutionSequence =
      (loadFiles limits (foundFiles files entropy) {}).state.nextExecutionSequence) :
    Overwrites out.store limits files entropy ∨ Faded out limits files entropy := by
  by_contra hpast
  obtain ⟨hpast, hstays⟩ := not_or.mp hpast
  cases hsnapshot : (files.getD {}).snapshot with
  | some snapshot => exact hloaded (.inl (load_unusable hsnapshot hpast out).1)
  | none =>
    rcases load_remembers hfiles hnamed hsnapshot hpast with
      ⟨hstore, hold, hnew⟩ | ⟨hold, -, hother⟩
    · rw [hold.epoch, hnew.epoch] at hepochs
      dsimp only at hepochs
      rw [hold.nextExecutionSequence, hnew.nextExecutionSequence] at hnext
      exact hstays ⟨hsnapshot, hstore, hloads, by omega, hnext⟩
    · refine hloaded (.inr (.inl ?_))
      unfold LoadOutcome.Foreign
      rw [hold]
      exact ⟨hnamed, hother⟩

/-- Two opens that end the same overwrote what the earlier one left, or it had faded. -/
theorem overwrites_of_same {s s' t' : Runtime} {create : Bool} {limits : StoreLimits}
    {files : Option Files} {entropy : UInt64} {r r' : Except Status OpenOutcome}
    (hepoch : s.state.epoch < 2 ^ 64) (hnamed : s.state.store ≠ .nil)
    (hschema : s.state.schema = persistenceSchemaVersion)
    (hagain : EndsAs s create limits files entropy r s')
    (hfresh : EndsAs {} create limits files entropy r' t')
    (hstatus : (r.map fun _ => ()) = r'.map fun _ => ()) (hstate : s'.state = t'.state) :
    Openable create limits files entropy ∧
      (Overwrites s.state.store limits files entropy ∨ Faded s.state limits files entropy) := by
  have hempty : ({} : Runtime).state = {} := rfl
  cases hagain with
  | refused hrefused _ hkept =>
    cases hfresh with
    | refused _ _ hkept' =>
      rw [hkept, hkept', hempty] at hstate
      rw [hstate] at hnamed
      exact absurd rfl hnamed
    | unloaded hfiles => exact absurd hfiles hrefused
    | opened hfiles => exact absurd hfiles hrefused
  | unloaded hfiles _ _ _ _ hends =>
    cases hfresh with
    | refused hrefused => exact absurd hfiles hrefused
    | opened => cases hstatus
    | unloaded _ _ _ _ _ hbegins =>
      rw [hends, hbegins, hempty] at hstate
      exact ⟨hfiles, .inl (overwrites_of_abandoned hfiles hnamed hschema hstate)⟩
  | opened hfiles hloaded _ hends =>
    cases hfresh with
    | refused hrefused => exact absurd hfiles hrefused
    | unloaded => cases hstatus
    | opened _ hloads _ hbegins =>
      refine ⟨hfiles, overwrites_of_accepted hfiles hepoch hnamed hloaded hloads ?_ ?_⟩
      · exact hends.epoch.symm.trans ((congrArg DurableState.epoch hstate).trans hbegins.epoch)
      · exact hends.nextExecutionSequence.symm.trans
          ((congrArg DurableState.nextExecutionSequence hstate).trans hbegins.nextExecutionSequence)

/-- **Opening again is opening afresh, exactly when the handle was closed and the disk overwrites
what the earlier open left, or what it left has wrapped around to the initial values.** -/
theorem open_afresh_iff {s : Runtime} (h : Lived s) (hclosed : s.isOpen = false)
    (config : RuntimeConfig) (files : Option Files) (entropy : UInt64) :
    openedOn s config files entropy = openedOn {} config files entropy ↔
      s.store.isOpen = false ∧ (s.state = {} ∨
        Openable config.createIfMissing config.storeLimits files entropy ∧
          (Overwrites s.state.store config.storeLimits files entropy ∨
            Faded s.state config.storeLimits files entropy)) := by
  have hseasoned := seasoned_of_lived h
  constructor
  · intro hsame
    have hstatus : (((openFiles config files entropy).exec s).1.map fun _ => ()) =
      ((openFiles config files entropy).exec {}).1.map fun _ => () := congrArg Prod.fst hsame
    have hstate : ((openFiles config files entropy).exec s).2.state =
      ((openFiles config files entropy).exec {}).2.state := congrArg Prod.snd hsame
    clear hsame
    have hfresh := openFiles_ends (s := {}) rfl rfl config files entropy
    unfold Leads at hfresh
    generalize ((openFiles config files entropy).exec {}).1 = fresh at hfresh hstatus
    generalize ((openFiles config files entropy).exec {}).2 = t' at hfresh hstate
    cases hhandle : s.store.isOpen with
    | true =>
      obtain ⟨⟨e, he, hcode⟩, -⟩ := openFiles_handled hclosed hhandle config files entropy
      rw [he] at hstatus
      cases hfresh with
      | refused _ hother =>
        obtain rfl := Except.error.inj hstatus
        exact absurd hcode hother
      | unloaded _ _ hother =>
        obtain rfl := Except.error.inj hstatus
        exact absurd hcode hother
      | opened => cases hstatus
    | false =>
      refine ⟨rfl, ?_⟩
      rcases hseasoned.closed hclosed hhandle with hempty | ⟨hepoch, hnamed, hschema⟩
      · exact .inl hempty
      right
      have hagain := openFiles_ends hclosed hhandle config files entropy
      unfold Leads at hagain
      generalize ((openFiles config files entropy).exec s).1 = again at hagain hstatus
      generalize ((openFiles config files entropy).exec s).2 = s' at hagain hstate
      exact overwrites_of_same hepoch hnamed hschema hagain hfresh hstatus hstate
  · rintro ⟨hhandle, hpast⟩
    have htwin : Twin SameState (openFiles config files entropy)
        (openFiles config files entropy) s {} := by
      refine openFiles_twin hclosed rfl hhandle rfl config files entropy ?_ ?_
      · intro hrefused
        rcases hpast with hfresh | ⟨hfiles, -⟩
        · exact hfresh
        · exact absurd hfiles hrefused
      · intro hfiles
        rcases hseasoned.closed hclosed hhandle with hfresh | ⟨-, hnamed, hschema⟩
        · rw [hfresh]
          exact .inl rfl
        rcases hpast with hfresh | ⟨-, hoverwrites | hfaded⟩
        · rw [hfresh]
          exact .inl rfl
        · exact .inl (load_overwritten hfiles hnamed hoverwrites)
        · exact .inr (hfaded.faint hfiles hnamed hschema)
    obtain ⟨hstatus, hstate⟩ := htwin
    exact Prod.ext (congrArg (Except.map fun _ => ()) hstatus) hstate

/-- A runtime that created the store 1 and was shut down. -/
def retired : Runtime := (Call.shutdown.perform
  (({} : Runtime).openedOver { createIfMissing := true } none 1)).wrapped

theorem retired_lived : Lived retired :=
  .called (.opened .constructed _ _ _) _ (fun _ _ h => by cases h)

/-- The files of the store 1, with one metadata record. -/
def firstStore : Files :=
  { journal := some (journalHeader ⟨1⟩ 1 ++ buildRecordImage .storeMeta 1
      (JournalEntry.storeMeta { store := ⟨1⟩, epoch := 5, schema := persistenceSchemaVersion }).encode) }

theorem open_afresh_iff_retired :
    openedOn retired {} (some firstStore) 2 = openedOn {} {} (some firstStore) 2 := by
  refine (open_afresh_iff retired_lived (by decide +kernel) {} (some firstStore) 2).mpr
    ⟨by decide +kernel, .inr ⟨⟨?_, ?_, ?_, ?_⟩, .inl ?_⟩⟩
  · decide +kernel
  · decide +kernel
  · decide +kernel
  · decide +kernel
  · exact ⟨by decide +kernel, by decide +kernel⟩

/-- Created as the store 1 and shut down, a runtime cannot create the store 2. -/
theorem open_remembers : ¬ ∀ s : Runtime, Lived s → s.isOpen = false →
    ∀ (config : RuntimeConfig) (files : Option Files) (entropy : UInt64),
      openedOn s config files entropy = openedOn {} config files entropy := by
  intro h
  have hsame := congrArg (fun ended => ended.2.store)
    (h retired retired_lived (by decide +kernel) { createIfMissing := true } none 2)
  revert hsame
  decide +kernel

end ExecutionFabric
