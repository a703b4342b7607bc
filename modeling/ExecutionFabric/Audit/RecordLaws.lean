import ExecutionFabric.Audit.Anchors

/-!
# What every stored record satisfies

A law of records is a property that each record has by itself. If every transaction of a
run writes lawful records, then every record in memory and on disk is lawful in every
state of the run: whatever is loaded or repaired came from records written before. Neither
crashes nor collisions of derived ids matter here.
-/
namespace ExecutionFabric

open Lib

variable {G : JournalEntry → Prop}

/-- `G` holds of the records an entry carries. -/
def JournalEntry.Carries (G : JournalEntry → Prop) : JournalEntry → Prop
  | .commitGroup g =>
    G (.commit g.commit) ∧ G (.progress g.progress) ∧ G (.action g.action) ∧
      G (.execution g.execution)
  | e => G e

/-- `G` holds of every record of an image. -/
structure Image.Holds (G : JournalEntry → Prop) (m : Image) : Prop where
  policies : ∀ k r, m.policies k = some r → G (.policy r)
  executions : ∀ k r, m.executions k = some r → G (.execution r)
  actions : ∀ k r, m.actions k = some r → G (.action r)
  progress : ∀ k r, m.progress k = some r → G (.progress r)
  checkpoints : ∀ k r, m.checkpoints k = some r → G (.checkpoint r)
  continuations : ∀ k r, m.continuations k = some r → G (.continuation r)
  leases : ∀ k r, m.leases k = some r → G (.lease r)
  replays : ∀ k r, m.replays k = some r → G (.replay r)
  ambiguities : ∀ k r, m.ambiguities k = some r → G (.ambiguity r)
  commits : ∀ k r, m.commits k = some r → G (.commit r)
  recoveries : ∀ k r, m.recoveries k = some r → G (.recovery r)

namespace Image

variable {m : Image}

theorem Holds.install (h : m.Holds G) {e : JournalEntry} (he : e.Carries G) :
    (m.install e).Holds G := by
  cases e with
  | storeMeta r => exact { h with }
  | policy r => exact { h with policies := forall_insert h.policies he }
  | execution r => exact { h with executions := forall_insert h.executions he }
  | action r => exact { h with actions := forall_insert h.actions he }
  | progress r => exact { h with progress := forall_insert h.progress he }
  | checkpoint r => exact { h with checkpoints := forall_insert h.checkpoints he }
  | continuation r => exact { h with continuations := forall_insert h.continuations he }
  | lease r => exact { h with leases := forall_insert h.leases he }
  | replay r => exact { h with replays := forall_insert h.replays he }
  | ambiguity r => exact { h with ambiguities := forall_insert h.ambiguities he }
  | commit r => exact { h with commits := forall_insert h.commits he }
  | recovery r => exact { h with recoveries := forall_insert h.recoveries he }
  | barrier r => exact h
  | commitGroup g =>
    obtain ⟨hcommit, hprogress, haction, hexecution⟩ := he
    exact { h with
      commits := forall_insert h.commits hcommit
      progress := forall_insert h.progress hprogress
      actions := forall_insert h.actions haction
      executions := forall_insert h.executions hexecution }

theorem Holds.installAll (h : m.Holds G) {es : List JournalEntry} (hes : ∀ e ∈ es, e.Carries G) :
    (m.installAll es).Holds G := by
  induction es generalizing m with
  | nil => exact h
  | cons e rest ih =>
    exact ih (h.install (hes e List.mem_cons_self)) fun e' he' =>
      hes e' (List.mem_cons_of_mem _ he')

theorem Holds.empty : Image.empty.Holds G := by
  constructor <;> (intro k r hr; cases hr)

end Image

/-! ## Loading -/

/-- `G` holds of every record of a directory. -/
structure Directory.Holds (G : JournalEntry → Prop) (d : Directory) : Prop where
  snapshot : ∀ st, d.snapshot = some st → st.image.Holds G
  records : ∀ r ∈ d.records, r.entry.Carries G

theorem applyRecord_holds {st st' : DurableState} {e : JournalEntry} (h : st.image.Holds G)
    (he : e.Carries G) (happly : applyRecord st e = some st') : st'.image.Holds G := by
  have hinstall : st' = st.install e := by
    unfold applyRecord at happly
    split at happly
    · split at happly
      · cases happly
      · exact (Option.some.inj happly).symm
    · exact (Option.some.inj happly).symm
  rw [hinstall, DurableState.image_install]
  exact h.install he

theorem replay_holds (n : Nat) {st : DurableState} (loaded : Nat) {rs : List Sequenced}
    (h : st.image.Holds G) (hrs : ∀ r ∈ rs, r.entry.Carries G) :
    (replay n st loaded rs).2.image.Holds G := by
  induction rs generalizing st loaded with
  | nil => exact h
  | cons r rest ih =>
    have hrest : ∀ r' ∈ rest, r'.entry.Carries G := fun r' hr' =>
      hrs r' (List.mem_cons_of_mem _ hr')
    unfold replay
    split
    · cases happly : applyRecord st r.entry with
      | none => exact h
      | some st' =>
        exact ih (loaded + 1) { (applyRecord_holds h (hrs r List.mem_cons_self) happly) with } hrest
    · exact ih loaded h hrest

theorem Directory.Holds.loadBase {d : Directory} (h : d.Holds G) (out : DurableState) :
    (loadBase d out).image.Holds G := by
  have hstart : ∀ base : DurableState, base.image.Holds G →
      (if base.store = .nil ∧ d.storeId ≠ .nil then { base with store := d.storeId }
        else base).image.Holds G := by
    intro base hb
    split
    · exact { hb with }
    · exact hb
  unfold ExecutionFabric.loadBase
  cases hs : d.snapshot with
  | none => exact hstart _ { (Image.Holds.empty (G := G)) with }
  | some st => exact hstart st (h.snapshot st hs)

theorem Directory.Holds.load {d : Directory} (h : d.Holds G) (out : DurableState) :
    (loadDirectory d out).2.image.Holds G := by
  unfold loadDirectory
  dsimp only
  split
  · exact h.loadBase out
  · exact replay_holds _ 0 (h.loadBase out) h.records

theorem Directory.Holds.image {d : Directory} (h : d.Holds G) : d.image.Holds G := by
  refine (h.loadBase {}).installAll fun e he => ?_
  obtain ⟨r, hr, rfl⟩ := List.mem_map.mp he
  exact h.records r (List.mem_of_mem_filter hr)

theorem Directory.Holds.extend {d : Directory} (h : d.Holds G) {e : JournalEntry}
    (he : e.Carries G) (n : Nat) :
    ({ d with records := d.records ++ [⟨n, e⟩] } : Directory).Holds G := by
  refine ⟨h.snapshot, fun r hr => ?_⟩
  rcases List.mem_append.mp hr with hr | hr
  · exact h.records r hr
  · rw [List.mem_singleton.mp hr]
    exact he

/-! ## Memory and disk -/

/-- Every record in memory and on disk is lawful. -/
structure Journaled.Holds (G : JournalEntry → Prop) (j : Journaled) : Prop where
  memory : j.state.image.Holds G
  disk : ∀ d, j.store.directory = some d → d.Holds G

namespace Journaled

variable {j : Journaled}

theorem Holds.append (h : j.Holds G) {e : JournalEntry} (he : e.Carries G) :
    (j.append e).Holds G := by
  refine ⟨h.memory, fun d hd => ?_⟩
  obtain ⟨d₀, hd₀, rfl⟩ := Option.map_eq_some_iff.mp hd
  exact (h.disk d₀ hd₀).extend he _

theorem Holds.put (h : j.Holds G) {e : JournalEntry} (he : e.Carries G) : (j.put e).Holds G := by
  refine ⟨?_, fun d hd => ?_⟩
  · rw [image_put]
    exact h.memory.install he
  · rw [store_put] at hd
    obtain ⟨d₀, hd₀, rfl⟩ := Option.map_eq_some_iff.mp hd
    exact (h.disk d₀ hd₀).extend he _

theorem Holds.write (h : j.Holds G) {es : List JournalEntry} (hes : ∀ e ∈ es, e.Carries G) :
    (j.write es).Holds G := by
  induction es generalizing j with
  | nil => exact h
  | cons e rest ih =>
    exact ih (h.put (hes e List.mem_cons_self)) fun e' he' => hes e' (List.mem_cons_of_mem _ he')

theorem Holds.snapshotted (h : j.Holds G) (truncate : Bool) :
    Holds G { j with store := j.store.writeSnapshot j.state truncate } := by
  refine ⟨h.memory, fun d hd => ?_⟩
  have hsnapshot : ∀ st, some j.state.canonical = some st → st.image.Holds G := by
    intro st hst
    rw [← Option.some.inj hst, DurableState.image_canonical]
    exact h.memory
  cases truncate with
  | false =>
    obtain ⟨d₀, hd₀, rfl⟩ := Option.map_eq_some_iff.mp hd
    exact ⟨hsnapshot, (h.disk d₀ hd₀).records⟩
  | true =>
    obtain ⟨d₁, hd₁, rfl⟩ := Option.map_eq_some_iff.mp hd
    obtain ⟨d₀, -, rfl⟩ := Option.map_eq_some_iff.mp hd₁
    exact ⟨hsnapshot, fun r hr => (by cases hr)⟩

end Journaled

/-! ## Laws -/

/-- What reconciliation asks of a law: the records it rewrites stay lawful. -/
structure Repairable (G : JournalEntry → Prop) : Prop where
  reaching : ∀ (x : ExecutionRecord) frontier generation, G (.execution x) →
    G (.execution (x.reaching frontier generation))
  promoted : ∀ (x : ExecutionRecord) generation progress commit committed, G (.execution x) →
    G (.execution { x with
      progressGeneration := generation, progress := progress, lastCommit := commit,
      committedActions := committed })
  sealing : ∀ (a : ActionRecord) commit, G (.action a) →
    G (.action { a with status := .committed, commit := commit })

/-- The state being reconciled is lawful, and so are the repairs. -/
structure Reconciliation.Holds (G : JournalEntry → Prop) (r : Reconciliation) : Prop where
  state : r.state.image.Holds G
  repairs : ∀ g ∈ r.repairs, (JournalEntry.commitGroup g).Carries G

theorem reconcileFrontier_holds (hG : Repairable G) {r : Reconciliation} {x : ExecutionRecord}
    (h : r.Holds G) (hx : G (.execution x)) :
    (reconcileFrontier r x).1.Holds G ∧ G (.execution (reconcileFrontier r x).2) := by
  unfold reconcileFrontier
  dsimp only
  split
  · have hreaching := hG.reaching x (reachedFrontier r.state x).1 (reachedFrontier r.state x).2 hx
    refine ⟨⟨?_, h.repairs⟩, hreaching⟩
    rw [DurableState.image_install]
    exact h.state.install hreaching
  · exact ⟨h, hx⟩

theorem reconcileCommit_holds (hG : Repairable G) {r : Reconciliation} {x : ExecutionRecord}
    {best : Option ProgressRecord} {committed : Nat} (h : r.Holds G) (hx : G (.execution x))
    (hbest : ∀ p, best = some p → G (.progress p)) : (reconcileCommit r x best committed).Holds G := by
  unfold reconcileCommit
  split
  · exact h
  next best =>
    split
    · exact h
    split
    · exact h
    next commit hcommit =>
    split
    · exact h
    next action haction =>
    have hnext := hG.promoted x best.generation best.id best.commit committed hx
    have hsealed : G (.action (if action.status ≠ .committed ∨ action.commit ≠ commit.id then
        { action with status := .committed, commit := commit.id } else action)) := by
      split
      · exact hG.sealing action commit.id (h.state.actions _ _ haction)
      · exact h.state.actions _ _ haction
    refine ⟨?_, fun g hg => ?_⟩
    · rw [DurableState.image_install, DurableState.image_install]
      exact (Image.Holds.install (e := .action _) h.state hsealed).install (e := .execution _) hnext
    · rcases List.mem_append.mp hg with hg | hg
      · exact h.repairs g hg
      · rw [List.mem_singleton.mp hg]
        exact ⟨h.state.commits _ _ hcommit, hbest best rfl, hsealed, hnext⟩

theorem reconcileState_holds (hG : Repairable G) {st : DurableState} (h : st.image.Holds G) :
    (reconcileState st).Holds G := by
  have hfold : ∀ (ids : List ExecutionId) (r : Reconciliation), r.Holds G →
      (ids.foldl reconcileExecution r).Holds G := by
    intro ids
    induction ids with
    | nil => exact fun r hr => hr
    | cons id rest ih =>
      intro r hr
      refine ih _ ?_
      unfold reconcileExecution
      split
      · exact hr
      next x hx =>
        obtain ⟨hfrontier, hadvanced⟩ :=
          reconcileFrontier_holds hG hr (hr.state.executions _ x hx)
        refine reconcileCommit_holds hG hfrontier hadvanced fun p hp => ?_
        obtain ⟨hmem, -⟩ := newestProgress_mem hp
        exact hr.state.progress p.id p ((Table.find_eq_some_iff _ _ _).mpr ⟨hmem, rfl⟩)
  exact hfold _ _ ⟨h, fun g hg => (by cases hg)⟩

theorem reloaded_holds (hG : Repairable G) {j : Journaled} {store : FileDurableStore}
    {d : Directory} (hd : store.directory = some d) (h : d.Holds G) :
    (reloaded j store d).Holds G := by
  have hloaded : (loadedState d j.state store.storeId).image.Holds G := { (h.load j.state) with }
  have hreconciled := reconcileState_holds hG hloaded
  have hfold : ∀ (repairs : List CommitGroupRecord) (k : Journaled), k.Holds G →
      (∀ g ∈ repairs, (JournalEntry.commitGroup g).Carries G) →
      (repairs.foldl (fun j repair => j.append (.commitGroup repair)) k).Holds G := by
    intro repairs
    induction repairs with
    | nil => exact fun k hk _ => hk
    | cons g rest ih =>
      intro k hk hall
      exact ih _ (hk.append (hall g List.mem_cons_self)) fun g' hg' =>
        hall g' (List.mem_cons_of_mem _ hg')
  refine hfold _ _ ⟨hreconciled.state, fun d' hd' => ?_⟩ hreconciled.repairs
  obtain rfl := Option.some.inj (hd.symm.trans hd')
  exact h

/-- A journal tells which records were written. -/
theorem Journaled.write_injective {j : Journaled} {es fs : List JournalEntry}
    (h : j.write es = j.write fs) : es = fs := by
  have hhistory := congrArg (fun j : Journaled => j.store.history) h
  simp only [Journaled.history_write] at hhistory
  exact List.append_cancel_left hhistory

/-- `G` is a law of the runs whose calls are admitted. -/
structure RecordLaw (G : JournalEntry → Prop) (admits : Runtime → Call → Prop) : Prop where
  repairable : Repairable G
  transaction : ∀ {s : Runtime} {c : Call} {i : Intent} {es : List JournalEntry}, admits s c →
    c.intent = some i → (c.perform s).toJournaled = s.toJournaled.write es →
    Transaction s.toJournaled i es → s.state.image.Holds G → ∀ e ∈ es, e.Carries G
  lose : ∀ {j : Journaled} {e : ExecutionId} {es : List JournalEntry}, Transaction j (.lose e) es →
    j.state.image.Holds G → ∀ e ∈ es, e.Carries G
  recover : ∀ {j : Journaled} {e : ExecutionId} {es : List JournalEntry},
    Transaction j (.recover e) es → j.state.image.Holds G → ∀ e ∈ es, e.Carries G
  restart : ∀ {j : Journaled}, j.state.image.Holds G → ∀ e ∈ restartRecords j, e.Carries G

section Runs

variable {admits : Runtime → Call → Prop}

theorem RecordLaw.writes (hG : RecordLaw G admits) {allowed : Intent → Prop} {j j' : Journaled}
    (hallowed : ∀ i, allowed i → (∃ e, i = .lose e) ∨ ∃ e, i = .recover e)
    (h : j.Holds G) (hw : Writes allowed j j') : j'.Holds G := by
  induction hw with
  | done j => exact h
  | write hi ht rest ih =>
    refine ih (h.write ?_)
    rcases hallowed _ hi with ⟨e, rfl⟩ | ⟨e, rfl⟩
    · exact hG.lose ht h.memory
    · exact hG.recover ht h.memory

/-- The admitted calls of a run; crashes are always admitted. -/
def admitting (admits : Runtime → Call → Prop) (s : Runtime) (e : Event) : Prop :=
  ∀ c, e = .call c → admits s c

theorem Runs.append {allow : Runtime → Event → Prop} {events more : List Event}
    {s s' s'' : Runtime} (h : Runs allow s events s') (h' : Runs allow s' more s'') :
    Runs allow s (events ++ more) s'' := by
  induction h with
  | nil s => exact h'
  | cons hallow rest ih => exact .cons hallow (ih h')

theorem openStore_holds {st st' : FileDurableStore} {create : Bool} {entropy : UInt64}
    {result : Except Status Unit} (hopened : st.openStore create entropy = (result, st'))
    (h : ∀ d, st.directory = some d → d.Holds G) : ∀ d, st'.directory = some d → d.Holds G := by
  intro d hd
  rcases openStore_origin hopened hd with hsame | ⟨hrecords, hsnapshot⟩
  · exact h d hsame
  · refine ⟨fun st hst => ?_, fun r hr => ?_⟩
    · rw [hsnapshot] at hst
      cases hst
    · rw [hrecords] at hr
      cases hr

theorem runs_of_forall {allow : Runtime → Event → Prop} (events : List Event) (s : Runtime)
    (h : ∀ e ∈ events, ∀ s, allow s e) : Runs allow s events (performAll events s) := by
  induction events generalizing s with
  | nil => exact .nil s
  | cons e rest ih =>
    exact .cons (h e List.mem_cons_self s) (ih _ fun e' he' => h e' (List.mem_cons_of_mem _ he'))

theorem RecordLaw.opens (hG : RecordLaw G admits) {s s' : Runtime} (hsecured : Secured s)
    (h : s.toJournaled.Holds G) (hclosed : s.isOpen = false) {config : RuntimeConfig}
    {entropy : UInt64} {result : Except Status Unit} {store : FileDurableStore}
    (hopened : s.store.openStore config.createIfMissing entropy = (result, store))
    (hopens : Opens s result store s') : s'.toJournaled.Holds G := by
  have hdisk := openStore_holds hopened h.disk
  cases hopens with
  | refused e hresult hj hclosed' =>
    rw [hj]
    exact ⟨h.memory, hdisk⟩
  | unloadable d hresult hd hload hstore hclosed' =>
    exact absurd (hsecured.finds hclosed hopened hresult hd).loads.1 hload
  | reopened d hresult hd hload hw hopen =>
    have hreloaded := reloaded_holds (j := s.toJournaled) hG.repairable hd (hdisk d hd)
    exact hG.writes (fun i hi => .inr hi) (hreloaded.write (hG.restart hreloaded.memory)) hw.writes

theorem RecordLaw.perform (hG : RecordLaw G admits) {s : Runtime} {e : Event}
    (hallow : admitting admits s e) (hsecured : Secured s) (h : s.toJournaled.Holds G) :
    (e.perform s).toJournaled.Holds G := by
  cases e with
  | crash kept =>
    refine ⟨Image.Holds.empty, fun d hd => ?_⟩
    obtain ⟨d₀, hd₀, rfl⟩ := Option.map_eq_some_iff.mp hd
    exact ⟨(h.disk d₀ hd₀).snapshot, fun r hr =>
      (h.disk d₀ hd₀).records r (List.mem_of_mem_filter hr)⟩
  | call c =>
    obtain ⟨heffect, -⟩ := call_outcome c s hsecured.housed.orderly
    show (c.perform s).toJournaled.Holds G
    generalize hperform : c.perform s = s' at *
    cases heffect with
    | quiet hj hopen =>
      rw [hj]
      exact h
    | wrote hi hrun hopen ht hj =>
      rw [hj]
      exact h.write (hG.transaction (hallow c rfl) hi (hperform ▸ hj) ht h.memory)
    | lost session hc hrun hopen hw => exact hG.writes (fun i hi => .inl hi) h hw
    | closed hc hrun hclosed hj =>
      rw [hj]
      exact ⟨h.memory, h.disk⟩
    | snapshot truncate hc hrun hopen hj =>
      rw [hj]
      exact h.snapshotted truncate
    | opens config entropy hc hclosed hopened hopens =>
      exact hG.opens hsecured h hclosed hopened hopens

theorem holds_start : ({} : Runtime).toJournaled.Holds G :=
  ⟨Image.Holds.empty, fun d hd => (by cases hd)⟩

/-- The run lemma for laws of records. -/
theorem RecordLaw.keeps (hG : RecordLaw G admits) {s s' : Runtime} {events : List Event}
    (hrun : Runs (admitting admits) s events s') (hsecured : Secured s) (h : s.toJournaled.Holds G) :
    s'.toJournaled.Holds G := by
  induction hrun with
  | nil s => exact h
  | cons hallow rest ih => exact ih (hsecured.perform _) (hG.perform hallow hsecured h)

end Runs

end ExecutionFabric
