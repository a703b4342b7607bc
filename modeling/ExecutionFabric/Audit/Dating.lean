import ExecutionFabric.Audit.Anchors
import ExecutionFabric.Audit.Origins
import ExecutionFabric.Audit.Receipts
import ExecutionFabric.Audit.Reconciling

/-!
# What a restart takes away

Every stored lease and continuation is of an epoch the store has reached, in memory and
after every prefix of the journal; derived ids may collide. So a restart revokes every
lease and takes every lease id away, but a worker and a boot only along with a lease id.
-/
namespace ExecutionFabric

open Lib

/-! ## Epochs -/

/-- Every stored lease and continuation is of an epoch the image has reached. -/
structure Image.Dated (m : Image) : Prop where
  leases : ∀ k l, m.leases k = some l → l.epoch ≤ m.epoch
  continuations : ∀ k c, m.continuations k = some c → c.epoch ≤ m.epoch

/-- The record was made at epoch `n` and at most moves the epoch on to `n'`. -/
def JournalEntry.DatedBy (n n' : Nat) : JournalEntry → Prop
  | .storeMeta r => r.epoch = n'
  | .lease l => l.epoch ≤ n
  | .continuation c => c.epoch ≤ n
  | _ => True

theorem Image.Dated.of_epoch {m m' : Image} (h : m.Dated) (hleases : m'.leases = m.leases)
    (hcontinuations : m'.continuations = m.continuations) (hepoch : m.epoch ≤ m'.epoch) :
    m'.Dated := by
  refine ⟨fun k l hl => ?_, fun k c hc => ?_⟩
  · exact Nat.le_trans (h.leases k l (hleases ▸ hl)) hepoch
  · exact Nat.le_trans (h.continuations k c (hcontinuations ▸ hc)) hepoch

theorem Image.Dated.install {m : Image} {e : JournalEntry} {n n' : Nat} (h : m.Dated)
    (he : e.DatedBy n n') (hn : n ≤ n') (hm : m.epoch = n ∨ m.epoch = n') :
    (m.install e).Dated ∧ ((m.install e).epoch = n ∨ (m.install e).epoch = n') := by
  have hle : n ≤ m.epoch := by omega
  cases e with
  | storeMeta r =>
    have hr : r.epoch = n' := he
    refine ⟨h.of_epoch rfl rfl ?_, .inr hr⟩
    show m.epoch ≤ r.epoch
    omega
  | lease l => exact ⟨{ h with leases := forall_insert h.leases (Nat.le_trans he hle) }, hm⟩
  | continuation c =>
    exact ⟨{ h with continuations := forall_insert h.continuations (Nat.le_trans he hle) }, hm⟩
  | _ => exact ⟨h.of_epoch rfl rfl (Nat.le_refl _), hm⟩

/-- Every prefix of the journal, over the snapshot, leaves a dated image. -/
def Directory.Dated (d : Directory) : Prop :=
  ∀ es, es <+: d.newer → (d.base.installAll es).Dated

theorem Directory.Dated.image {d : Directory} (h : d.Dated) : d.image.Dated :=
  h d.newer List.prefix_rfl

theorem Directory.Dated.of_image {d : Directory} (h : d.image.Dated) (hnewer : d.newer = []) :
    d.Dated := by
  intro es hes
  have himage : d.image = d.base := by
    unfold Directory.image
    rw [hnewer]
    rfl
  rw [hnewer, List.prefix_nil] at hes
  rw [hes]
  exact himage ▸ h

theorem Directory.dated_of_blank {d : Directory} (h : d.Blank) : d.Dated := by
  have hvacant := Directory.vacant_of_blank h
  refine .of_image ⟨fun k l hl => ?_, fun k c hc => ?_⟩ ?_
  · rw [hvacant.leases] at hl
    cases hl
  · rw [hvacant.continuations] at hc
    cases hc
  · unfold Directory.newer
    rw [h.1]
    rfl

theorem Directory.Dated.cut {d : Directory} (h : d.Dated) (hsound : d.Sound) (kept : Nat) :
    (d.cut kept).Dated := by
  intro es hes
  exact h es (hes.trans (Directory.newer_cut hsound kept))

theorem Directory.Dated.extend {d : Directory} {e : JournalEntry} (h : d.Dated) (hsound : d.Sound)
    (he : (d.extend e).image.Dated) : (d.extend e).Dated := by
  intro es hes
  rw [Directory.newer_extend hsound] at hes
  rcases List.prefix_concat_iff.mp hes with rfl | hold
  · rw [← Directory.newer_extend hsound]
    exact he
  · exact h es hold

/-! ## Memory and its directory -/

/-- The runtime and its directory are dated and of one epoch. -/
structure Clocked (j : Journaled) (d : Directory) : Prop where
  anchored : Anchored j d
  directory : d.Dated
  memory : j.state.image.Dated
  epoch : d.image.epoch = j.state.epoch

theorem Clocked.put {j : Journaled} {d : Directory} (h : Clocked j d) {e : JournalEntry}
    {n n' : Nat} (howns : j.Owns [e]) (hfirst : d.Blank → ∃ m, e = .storeMeta m)
    (he : e.DatedBy n n') (hn : n ≤ n') (hj : j.state.epoch = n ∨ j.state.epoch = n') :
    Clocked (j.put e) (d.extend e) ∧ ((j.put e).state.epoch = n ∨ (j.put e).state.epoch = n') := by
  have hsound := h.anchored.sound
  obtain ⟨hmemory, hepoch⟩ := h.memory.install he hn hj
  obtain ⟨hdirectory, -⟩ := h.directory.image.install he hn (h.epoch ▸ hj)
  rw [← Directory.image_extend hsound] at hdirectory
  rw [← Journaled.image_put] at hmemory hepoch
  refine ⟨⟨h.anchored.put e howns hfirst, h.directory.extend hsound hdirectory, hmemory, ?_⟩, hepoch⟩
  show (d.extend e).image.epoch = (j.put e).state.image.epoch
  rw [Directory.image_extend hsound, Journaled.image_put]
  cases e with
  | storeMeta r => rfl
  | _ => exact h.epoch

theorem Clocked.write {j : Journaled} {d : Directory} (h : Clocked j d) {es : List JournalEntry}
    {n' : Nat} (howns : j.Owns es) (hheads : d.Heads es ∨ ¬ d.Blank)
    (hes : ∀ e ∈ es, e.DatedBy j.state.epoch n') (hn : j.state.epoch ≤ n') :
    Clocked (j.write es) (d.extendAll es) := by
  have hinduction := Anchored.write_induction
    (P := fun k d => Clocked k d ∧ (k.state.epoch = j.state.epoch ∨ k.state.epoch = n'))
    ⟨h, .inl rfl⟩ es howns hheads fun e he _ _ hk howns' hfirst =>
      hk.1.put howns' hfirst (hes e he) hn hk.2
  exact hinduction.1

/-- A transaction stays in the epoch. -/
theorem Transaction.datedBy {j : Journaled} {i : Intent} {es : List JournalEntry}
    (h : j.state.image.Dated) (ht : Transaction j i es) :
    ∀ e ∈ es, e.DatedBy j.state.epoch j.state.epoch := by
  intro e he
  cases ht.origins e he with
  | storeMeta r hepoch => exact hepoch
  | @lease l state hl => exact h.leases l.id l hl
  | granted request hx => exact Nat.le_refl _
  | @continuation c state hstate hc => exact h.continuations c.id c hc
  | minted hx hc hepoch hcheckpoint => exact Nat.le_of_eq hepoch
  | _ => trivial

theorem restartRecords_datedBy {j : Journaled} (h : j.state.image.Dated) :
    ∀ e ∈ restartRecords j, e.DatedBy j.state.epoch (j.state.epoch + 1) := by
  intro e he
  cases restartRecords_origins j e he with
  | storeMeta => rfl
  | @lease l hl => exact h.leases l.id l hl
  | @continuation c hc => exact h.continuations c.id c hc
  | execution => trivial

theorem Clocked.transaction {j : Journaled} {d : Directory} {i : Intent} {es : List JournalEntry}
    (h : Clocked j d) (hblank : ¬ d.Blank) (ht : Transaction j i es) :
    Clocked (j.write es) (d.extendAll es) :=
  h.write (ht.owns h.anchored.schema) (.inr hblank) (ht.datedBy h.memory) (Nat.le_refl _)

theorem Clocked.writes {allowed : Intent → Prop} {j j' : Journaled} {d : Directory}
    (h : Clocked j d) (hblank : ¬ d.Blank) (hw : Writes allowed j j') :
    ∃ d', Clocked j' d' ∧ ¬ d'.Blank := by
  induction hw generalizing d with
  | done j => exact ⟨d, h, hblank⟩
  | write hi ht rest ih =>
    exact ih (h.transaction hblank ht) (Directory.not_blank_extendAll d (.inl hblank))

theorem Clocked.append {j : Journaled} {d : Directory} (h : Clocked j d) (hblank : ¬ d.Blank)
    (r : CommitGroupRecord) :
    Clocked (j.append (.commitGroup r)) (d.extend (.commitGroup r)) := by
  have hsound := h.anchored.sound
  refine ⟨h.anchored.append hblank r, h.directory.extend hsound ?_, h.memory, ?_⟩
  · rw [Directory.image_extend hsound]
    exact h.directory.image.of_epoch rfl rfl (Nat.le_refl _)
  · rw [Directory.image_extend hsound]
    exact h.epoch

theorem Clocked.appends {j : Journaled} {d : Directory} (h : Clocked j d) (hblank : ¬ d.Blank)
    (repairs : List CommitGroupRecord) :
    ∃ d', Clocked (repairs.foldl (fun j repair => j.append (.commitGroup repair)) j) d' ∧
      ¬ d'.Blank := by
  induction repairs generalizing j d with
  | nil => exact ⟨d, h, hblank⟩
  | cons r rest ih =>
    exact ih (h.append hblank r) (Directory.not_blank_extend d _)

/-! ## Reopening -/

/-- Reconciliation leaves leases, continuations and the epoch alone. -/
theorem Image.Dated.reconciled {st : DurableState} (h : st.image.Dated) :
    (reconcileState st).state.image.Dated := by
  refine h.of_epoch ?_ ?_ (Nat.le_of_eq ?_)
  · exact keeps_reconcileState (fun st => st.image.leases) (fun _ _ => rfl) (fun _ _ => rfl) st
  · exact keeps_reconcileState (fun st => st.image.continuations) (fun _ _ => rfl)
      (fun _ _ => rfl) st
  · exact (keeps_reconcileState (fun st => st.image.epoch) (fun _ _ => rfl) (fun _ _ => rfl)
      st).symm

section

variable {s : Runtime} {store : FileDurableStore} {d : Directory}

theorem Finds.clocked (h : Finds s store d) (hdated : d.Dated) :
    ∃ d', Clocked (ExecutionFabric.reloaded s.toJournaled store d) d' := by
  have himage := h.loads.2.1
  have hmemory : (loadedState d s.state store.storeId).image.Dated := by
    have hloaded := hdated.image
    rw [← himage] at hloaded
    exact hloaded.of_epoch rfl rfl (Nat.le_refl _)
  have hepoch : d.image.epoch =
      (reconcileState (loadedState d s.state store.storeId)).state.epoch := by
    rw [keeps_reconcileState DurableState.epoch (fun _ _ => rfl) fun _ _ => rfl]
    exact (congrArg Image.epoch himage).symm
  have hstart : Clocked (Journaled.rebuildIndexes { s.toJournaled with
      store := store
      state := (reconcileState (loadedState d s.state store.storeId)).state }) d :=
    ⟨h.anchored, hdated, hmemory.reconciled, hepoch⟩
  by_cases hblank : d.Blank
  · refine ⟨d, ?_⟩
    have hrepairs := repairs_of_blank hblank s.state store.storeId
    unfold ExecutionFabric.reloaded reconciled
    dsimp only
    rw [hrepairs]
    exact hstart
  · obtain ⟨d', hd', -⟩ := hstart.appends hblank
      (reconcileState (loadedState d s.state store.storeId)).repairs
    exact ⟨d', hd'⟩

end

/-- The directory of the runtime is dated, and an open runtime keeps its epoch. -/
structure Punctual (s : Runtime) : Prop where
  directory : ∀ d, s.store.directory = some d → d.Dated
  running : s.isOpen = true → ∃ d, Clocked s.toJournaled d ∧ ¬ d.Blank

theorem punctual_start : Punctual {} := by
  refine ⟨fun d hd => ?_, fun h => ?_⟩
  · cases hd
  · cases h

theorem Punctual.of_clocked {s : Runtime} {d : Directory} (h : Clocked s.toJournaled d)
    (hblank : ¬ d.Blank) : Punctual s := by
  refine ⟨fun d' hd' => ?_, fun _ => ⟨d, h, hblank⟩⟩
  obtain rfl := Option.some.inj (hd'.symm.trans h.anchored.directory)
  exact h.directory

theorem Punctual.closed {s s' : Runtime} (h : Punctual s)
    (hdirectory : s'.store.directory = s.store.directory) (hclosed : s'.isOpen = false) :
    Punctual s' := by
  refine ⟨fun d hd => h.directory d (hdirectory ▸ hd), fun hopen => ?_⟩
  rw [hclosed] at hopen
  cases hopen

/-- The directory an open finds or makes is dated. -/
theorem Punctual.found {s : Runtime} (h : Punctual s) {create : Bool} {entropy : UInt64}
    {result : Except Status Unit} {store : FileDurableStore}
    (hopened : s.store.openStore create entropy = (result, store)) {d : Directory}
    (hd : store.directory = some d) : d.Dated := by
  rcases openStore_origin hopened hd with hsame | hblank
  · exact h.directory d hsame
  · exact Directory.dated_of_blank hblank

theorem Punctual.opens {s s' : Runtime} (h : Punctual s) (hs : Secured s)
    (hclosed : s.isOpen = false) {config : RuntimeConfig} {entropy : UInt64}
    {result : Except Status Unit} {store : FileDurableStore}
    (hopened : s.store.openStore config.createIfMissing entropy = (result, store))
    (hopens : Opens s result store s') : Punctual s' := by
  cases hopens with
  | refused e hresult hj hclosed' =>
    refine ⟨?_, fun hopen => absurd hopen (by simp [hclosed'])⟩
    rw [congrArg Journaled.store hj]
    exact fun d hd => h.found hopened hd
  | unloadable d hresult hd hload hstore hclosed' =>
    exact absurd (hs.finds hclosed hopened hresult hd).loads.1 hload
  | reopened d hresult hd hload hw hopen =>
    obtain ⟨d', hclocked⟩ :=
      (hs.finds hclosed hopened hresult hd).clocked (h.found hopened hd)
    have hrestarted := hclocked.write (restartRecords_owns _ hclocked.anchored.schema)
      (.inl (heads_restartRecords _ d')) (restartRecords_datedBy hclocked.memory) (Nat.le_succ _)
    obtain ⟨d₁, hd₁, hblank⟩ := hrestarted.writes
      (Directory.not_blank_extendAll d' (.inr (restartRecords_ne_nil _))) hw.writes
    exact .of_clocked hd₁ hblank

theorem Punctual.perform {s : Runtime} (h : Punctual s) (hs : Secured s) (e : Event) :
    Punctual (e.perform s) := by
  cases e with
  | crash kept =>
    refine ⟨fun d' hd' => ?_, fun hopen => (by cases hopen)⟩
    obtain ⟨d, hd, rfl⟩ := Option.map_eq_some_iff.mp hd'
    exact (h.directory d hd).cut (hs.sound d hd) _
  | call c =>
    obtain ⟨heffect, -⟩ := call_outcome c s hs.housed.orderly
    show Punctual (c.perform s)
    generalize c.perform s = s' at *
    cases heffect with
    | quiet hj hopen =>
      refine ⟨?_, ?_⟩
      · rw [congrArg Journaled.store hj]
        exact h.directory
      · rw [hopen, hj]
        exact h.running
    | wrote hi hrun hopen ht hj =>
      obtain ⟨d, hd, hblank⟩ := h.running hrun
      have hwritten := hd.transaction hblank ht
      rw [← hj] at hwritten
      exact .of_clocked hwritten (Directory.not_blank_extendAll d (.inl hblank))
    | lost session hc hrun hopen hw =>
      obtain ⟨d, hd, hblank⟩ := h.running hrun
      obtain ⟨d', hd', hblank'⟩ := hd.writes hblank hw
      exact .of_clocked hd' hblank'
    | closed hc hrun hclosed hj =>
      exact h.closed (congrArg (fun j => j.store.directory) hj) hclosed
    | snapshot truncate hc hrun hopen hj =>
      obtain ⟨d, hd, hblank⟩ := h.running hrun
      obtain ⟨hanchored, -, hmemory, -⟩ := hd
      have himage := Directory.image_snapshotted hanchored.sound hanchored.named hanchored.store
        hanchored.sequence truncate
      refine .of_clocked (d := d.snapshotted s.state truncate) ?_ ?_
      · rw [hj]
        refine ⟨hanchored.snapshotted truncate, .of_image (himage ▸ hmemory)
          (Directory.newer_snapshotted hanchored.sound hanchored.sequence truncate), hmemory, ?_⟩
        exact congrArg Image.epoch himage
      · rintro ⟨-, hnone⟩
        cases truncate <;> cases hnone
    | opens config entropy hc hclosed hopened hopens => exact h.opens hs hclosed hopened hopens

theorem Runs.punctual {allow : Runtime → Event → Prop} {s s' : Runtime} {events : List Event}
    (hrun : Runs allow s events s') (hs : Secured s) (h : Punctual s) : Punctual s' := by
  induction hrun with
  | nil s => exact h
  | cons hallow rest ih => exact ih (hs.perform _) (h.perform hs _)

/-! ## Holders -/

/-- What the execution is held with. -/
def ExecutionRecord.holder (x : ExecutionRecord) : LeaseId × WorkerId × WorkerBootId :=
  (x.lease, x.worker, x.boot)

theorem holder_reconciledExecution (st : DurableState) (x : ExecutionRecord) :
    (reconciledExecution st x).holder = x.holder := by
  unfold reconciledExecution advancedExecution
  split <;> split <;> rfl

/-- Reconciliation keeps the holder of every execution. -/
theorem holder_reconcileState (st : DurableState) (k : ExecutionId) :
    ((reconcileState st).state.executions.find k).map ExecutionRecord.holder =
      (st.executions.find k).map ExecutionRecord.holder := by
  rw [reconcileState_eq]
  show ((st.executions.revise (handledExecution st st.handled)
    (id_handledExecution st st.handled)).find k).map _ = _
  rw [Table.find_revise, Option.map_map]
  refine Option.map_congr fun x _ => ?_
  show (handledExecution st st.handled x).holder = _
  unfold handledExecution
  split
  · exact holder_reconciledExecution st x
  · rfl

/-- An execution without a lease keeps its worker when the runtime restarts. -/
theorem holder_restarted {x : ExecutionRecord} (hnil : x.lease = .nil) (st : DurableState)
    (epoch : Nat) : (restarted st epoch x).holder = x.holder := by
  have hkept : withoutStaleLease st epoch x = x := by
    unfold withoutStaleLease
    rw [if_neg fun hvalid => (Id.valid_iff _).mp hvalid hnil]
  unfold restarted
  rw [hkept]
  dsimp only
  split <;> rfl

theorem holder_recoveredFrom (j : Journaled) (x next : ExecutionRecord) :
    (recoveredFrom j x next).holder = next.holder := by
  unfold recoveredFrom recoveredExecution atPlannedCheckpoint
  split <;> rfl

theorem holder_blockedBy (st : DurableState) (x : ExecutionRecord) (amb : AmbiguityRecord)
    (a : ActionRecord) : (blockedBy st x amb a).holder = x.holder := by
  unfold blockedBy
  dsimp only
  split <;> rfl

theorem holder_promotedBy (x : ExecutionRecord) (epoch : Nat) (progress : ProgressId)
    (commit : CommitId) : (x.promotedBy epoch progress commit).holder = x.holder := rfl

theorem Succession.holder_recovered {j : Journaled} {e : ExecutionId} {x y : ExecutionRecord}
    {vs : List JournalEntry} (h : Succession j (.recover e) x y vs) : y.holder = x.holder := by
  cases h with
  | recoverPlain => exact holder_recoveredFrom j x x
  | recoverAmbiguous => exact (holder_recoveredFrom j x _).trans (holder_blockedBy _ _ _ _)
  | @recoverCommit _ a request =>
    obtain ⟨epoch, hgroup⟩ := (commitGroupOf_promotes j.state x a request a.receipt).execution
    refine (holder_recoveredFrom j x _).trans ?_
    rw [hgroup]
    exact holder_promotedBy _ _ _ _

/-- A recovery keeps the holder of every execution. -/
theorem Transaction.holder_recovered {j : Journaled} {e k : ExecutionId} {es : List JournalEntry}
    (ht : Transaction j (.recover e) es) {x : ExecutionRecord}
    (hx : j.state.image.executions k = some x) :
    ∃ y, (j.write es).state.image.executions k = some y ∧ y.holder = x.holder := by
  cases ht.outline with
  | created hi => cases hi
  | @succeeded z y vs hz hsuccession hexecutions =>
    rw [hexecutions]
    by_cases hk : k = y.id
    · refine ⟨y, hk ▸ KeyedMap.insert_self _ _, ?_⟩
      have hid : z.id = y.id := hsuccession.id.symm
      rw [hk, ← hid] at hx
      rw [hsuccession.holder_recovered, Option.some.inj (hz.symm.trans hx)]
    · exact ⟨x, (KeyedMap.insert_of_ne _ hk).trans hx, rfl⟩

theorem Writes.holder_recovered {j j' : Journaled}
    (hw : Writes (fun i => ∃ e, i = .recover e) j j') {k : ExecutionId} {x : ExecutionRecord}
    (hx : j.state.image.executions k = some x) :
    ∃ y, j'.state.image.executions k = some y ∧ y.holder = x.holder := by
  induction hw generalizing x with
  | done j => exact ⟨x, hx, rfl⟩
  | write hi ht rest ih =>
    obtain ⟨e, rfl⟩ := hi
    obtain ⟨y, hy, hsame⟩ := ht.holder_recovered hx
    obtain ⟨z, hz, hsame'⟩ := ih hy
    exact ⟨z, hz, hsame'.trans hsame⟩

/-! ## Opening what a crash left -/

/-- A fresh process on a directory. -/
def freshOn (d : Directory) : Runtime := { store := { directory := some d } }

/-- A state without authority. -/
structure Deauthorized (st : DurableState) : Prop where
  leases : ∀ k l, st.leases.find k = some l → l.state ≠ .active
  workers : ∀ k x, st.executions.find k = some x →
    x.lease = .nil ∧ x.worker = .nil ∧ x.boot = .nil
  lifecycles : ∀ k x, st.executions.find k = some x → x.lifecycle ≠ .running ∧
    x.lifecycle ≠ .checkpointing ∧ x.lifecycle ≠ .suspending ∧ x.lifecycle ≠ .resuming ∧
    x.lifecycle ≠ .draining ∧ x.lifecycle ≠ .fenced
  continuations : ∀ k c, st.continuations.find k = some c → c.state ≠ .valid
  tokens : ∀ t, ∃ e, validateToken st t = .error e

theorem Image.Quiescent.deauthorized {st : DurableState} (h : st.image.Quiescent) :
    Deauthorized st where
  leases := h.revoked
  workers := fun k x hx => (h.idle k x hx).unbound
  lifecycles := by
    intro k x hx
    have hidle := (h.idle k x hx).lifecycle
    refine ⟨?_, ?_, ?_, ?_, ?_, ?_⟩ <;>
    · intro hat
      rw [hat] at hidle
      simp [isActiveState] at hidle
  continuations := h.expired
  tokens := h.refuses

/-- Executions with the same holders are held alike. -/
theorem heldByLease_of_holders {m : Image} {st : DurableState}
    (h : ∀ k, (m.executions k).map ExecutionRecord.holder =
      (st.executions.find k).map ExecutionRecord.holder) :
    (∀ k x, m.executions k = some x → x.HeldByLease) ↔
      ∀ k x, st.executions.find k = some x → x.HeldByLease := by
  have hsame : ∀ {x y : ExecutionRecord}, x.holder = y.holder → x.HeldByLease → y.HeldByLease := by
    intro x y hxy hx hnil
    simp only [ExecutionRecord.holder, Prod.mk.injEq] at hxy
    rw [← hxy.2.1, ← hxy.2.2]
    exact hx (hxy.1.trans hnil)
  constructor
  · intro hm k y hy
    obtain ⟨x, hx, hxy⟩ := Option.map_eq_some_iff.mp
      ((h k).trans (congrArg (Option.map ExecutionRecord.holder) hy))
    exact hsame hxy (hm k x hx)
  · intro hst k y hy
    obtain ⟨x, hx, hxy⟩ := Option.map_eq_some_iff.mp
      ((h k).symm.trans (congrArg (Option.map ExecutionRecord.holder) hy))
    exact hsame hxy (hst k x hx)

/-- A dated state that is loaded and reconciled is of the same epoch and has the same holders. -/
theorem reconciled_loaded {loaded : DurableState} (h : loaded.image.Dated) (id : StoreId) :
    let m := (reconcileState
      { loaded with store := id, schema := persistenceSchemaVersion }).state.image
    m.Dated ∧ m.epoch = loaded.epoch ∧ ∀ k, (m.executions k).map ExecutionRecord.holder =
      (loaded.executions.find k).map ExecutionRecord.holder := by
  refine ⟨Image.Dated.reconciled (h.of_epoch rfl rfl (Nat.le_refl _)), ?_, fun k => ?_⟩
  · exact keeps_reconcileState DurableState.epoch (fun _ _ => rfl) (fun _ _ => rfl) _
  · exact holder_reconcileState _ k

/-- From a dated state, the restart and the recoveries after it end in the next epoch and without
authority when every execution is held by its lease. -/
theorem restarted_deauthorized {j j' : Journaled} (hdated : j.state.image.Dated)
    (hheld : ∀ k x, j.state.image.executions k = some x → x.HeldByLease)
    (hw : Writes (fun i => ∃ e, i = .recover e) (j.write (restartRecords j)) j') :
    j'.state.epoch = j.state.epoch + 1 ∧ Deauthorized j'.state := by
  have hrestart := image_restartRecords_of_held hdated.leases hdated.continuations hheld
  have hquiet := Image.quiescent_reopened j.state.image
  rw [← hrestart] at hquiet
  obtain ⟨hend, hepoch⟩ := hw.quiescent hquiet
  refine ⟨(show j'.state.epoch = _ from hepoch).trans ?_, hend.deauthorized⟩
  rw [hrestart]
  rfl

/-- And only then: a worker without a lease id is there again afterwards. -/
theorem restarted_keeps_holder {j j' : Journaled} (hdated : j.state.image.Dated)
    (hw : Writes (fun i => ∃ e, i = .recover e) (j.write (restartRecords j)) j')
    (hend : Deauthorized j'.state) {k : ExecutionId} {x : ExecutionRecord}
    (hx : j.state.image.executions k = some x) : x.HeldByLease := by
  intro hnil
  have hrestarted : (j.write (restartRecords j)).state.image.executions k =
      some (restarted (j.write (revocationRecords j)).state (j.state.epoch + 1) x) := by
    rw [image_restarted hdated.leases hdated.continuations]
    show (j.state.image.executions k).map _ = _
    rw [hx]
    rfl
  obtain ⟨y, hy, hsame⟩ := hw.holder_recovered hrestarted
  have hholder : (y.lease, y.worker, y.boot) = (x.lease, x.worker, x.boot) :=
    hsame.trans (holder_restarted hnil _ _)
  simp only [Prod.mk.injEq] at hholder
  obtain ⟨-, hworker, hboot⟩ := hend.workers k y hy
  exact ⟨hholder.2.1 ▸ hworker, hholder.2.2 ▸ hboot⟩

/-- Opening a directory succeeds when the result of the open is no error. -/
theorem open_outcome {config : RuntimeConfig} {entropy : UInt64} {s : Runtime}
    (h : (((openRuntime config entropy).exec s).1.toOption).isSome = true) :
    ∃ outcome, (openRuntime config entropy).exec s =
      (.ok outcome, ((openRuntime config entropy).exec s).2) := by
  rcases hresult : (openRuntime config entropy).exec s with ⟨_ | outcome, s'⟩
  · rw [hresult] at h
    cases h
  · exact ⟨outcome, rfl⟩

/-- A worker whose first lease of the first execution of the store 1 is derived to nil. -/
def nilLease : List Event :=
  [openAs 1, createOne,
    bindTo (deriveExecutionId ⟨1⟩ 1) ⟨360603551552314886⟩ ⟨937875747683376923⟩]

end ExecutionFabric
