import ExecutionFabric.Audit.Anchors
import ExecutionFabric.Audit.CheckpointCurrency

/-!
# The indexes are those a rebuild computes

The action index of an execution is sorted, the other three list ids in the order of their
first insertion. A write keeps them exact as long as no record takes an id from another
execution, which derived ids without collisions guarantee; a load rebuilds them.
-/
namespace ExecutionFabric

open Lib

/-! ## Ids by owner -/

/-- The ids of the records of each owner, in insertion order. -/
def ownedIds {α : Type} {d : IdDomain} {key : α → Id d} (owner : α → ExecutionId)
    (t : Table key) (e : ExecutionId) : List (Id d) :=
  (t.records.filter fun r => owner r = e).map key

section OwnedIds

variable {α : Type} {d : IdDomain} {key : α → Id d} {owner : α → ExecutionId} {t : Table key}

/-- A new record adds its id to its owner's; a stored one that keeps its owner adds nothing. -/
theorem ownedIds_upsert {r : α} (hkeeps : ∀ r₀, t.find (key r) = some r₀ → owner r₀ = owner r) :
    ownedIds owner (t.upsert r) = if t.contains (key r) then ownedIds owner t
      else pushIndex (ownedIds owner t) (owner r) (key r) := by
  funext e
  unfold ownedIds Table.upsert
  by_cases hstored : t.contains (key r) = true
  · rw [dif_pos hstored, if_pos hstored]
    simp only [Table.replace, List.filter_map, List.map_map]
    have howner : ∀ x ∈ t.records, key x = key r → owner x = owner r := fun x hx hk =>
      hkeeps x ((Table.find_eq_some_iff _ _ _).mpr ⟨hx, hk⟩)
    have hfilter : t.records.filter ((fun x => decide (owner x = e)) ∘ fun x =>
        if key x = key r then r else x) = t.records.filter fun x => decide (owner x = e) := by
      refine List.filter_congr fun x hx => ?_
      simp only [Function.comp_apply]
      split
      next hk => rw [howner x hx hk]
      next => rfl
    rw [hfilter]
    refine List.map_congr_left fun x _ => ?_
    simp only [Function.comp_apply]
    split
    next hk => exact hk.symm
    next => rfl
  · rw [dif_neg hstored, if_neg hstored, pushIndex]
    simp only [List.filter_append, List.map_append, Function.update_apply]
    split
    next he => simp [he]
    next hne => simp [Ne.symm hne]

theorem nodup_ownedIds (e : ExecutionId) : (ownedIds owner t e).Nodup :=
  t.nodup.sublist (List.filter_sublist.map key)

theorem mem_ownedIds (e : ExecutionId) (id : Id d) :
    id ∈ ownedIds owner t e ↔ ∃ r, t.find id = some r ∧ owner r = e := by
  unfold ownedIds
  simp only [List.mem_map, List.mem_filter, decide_eq_true_eq, Table.find_eq_some_iff]
  constructor
  · rintro ⟨r, ⟨hr, he⟩, rfl⟩
    exact ⟨r, ⟨hr, rfl⟩, he⟩
  · rintro ⟨r, ⟨hr, hk⟩, he⟩
    exact ⟨r, ⟨hr, he⟩, hk⟩

end OwnedIds

/-! ## Exact indexes -/

/-- The indexes of checkpoints, commits and replays list the ids as they were inserted. -/
structure Listed (j : Journaled) : Prop where
  checkpoints : j.checkpointIndex = ownedIds CheckpointRecord.execution j.state.checkpoints
  commits : j.commitIndex = ownedIds CommitRecord.execution j.state.commits
  replays : j.replayIndex = ownedIds ReplayRecord.execution j.state.replays

/-- Every index is the one a rebuild would compute. -/
structure Rebuilt (j : Journaled) : Prop where
  indexed : Indexed j
  listed : Listed j

/-- Two ascending lists of the same keys are one list. -/
theorem Ascending.eq {l l' : List ActionKey} (h : Ascending l) (h' : Ascending l')
    (hmem : ∀ k, k ∈ l ↔ k ∈ l') : l = l' := by
  have hnodup : ∀ {ks : List ActionKey}, Ascending ks → ks.Nodup := by
    intro ks hks
    refine List.Pairwise.imp ?_ hks
    rintro a _ hlt rfl
    exact ActionKey.lt_irrefl a hlt
  have hperm : l.Perm l' := (List.perm_ext_iff_of_nodup (hnodup h) (hnodup h')).mpr hmem
  have hl : l.Pairwise (· < ·) := h
  refine hperm.eq_of_pairwise ?_ hl h'
  intro a b _ _ hab hba
  exact absurd (ActionKey.lt_trans hab hba) (ActionKey.lt_irrefl a)

theorem Rebuilt.eq {j : Journaled} (h : Rebuilt j) : j.rebuildIndexes = j := by
  have hactions : Journaled.sortedActionKeys j.state = j.actionIndex := by
    funext e
    have hrebuilt := indexed_rebuildIndexes j
    exact (hrebuilt.ascending e).eq (h.indexed.ascending e) fun k =>
      (hrebuilt.mem e k).trans (h.indexed.mem e k).symm
  have hcheckpoints := h.listed.checkpoints
  have hcommits := h.listed.commits
  have hreplays := h.listed.replays
  unfold ownedIds at hcheckpoints hcommits hreplays
  unfold Journaled.rebuildIndexes
  rw [hactions, ← hcheckpoints, ← hcommits, ← hreplays]

theorem rebuilt_rebuildIndexes (j : Journaled) : Rebuilt j.rebuildIndexes :=
  ⟨indexed_rebuildIndexes j, rfl, rfl, rfl⟩

theorem Rebuilt.withStore {j : Journaled} (h : Rebuilt j) (store : FileDurableStore) :
    Rebuilt { j with store := store } :=
  ⟨⟨h.indexed.ascending, h.indexed.mem⟩, h.listed.checkpoints, h.listed.commits, h.listed.replays⟩

/-! ## Writes -/

/-- No checkpoint, commit or replay of the record takes an id from another execution. -/
structure Image.KeepsLists (m : Image) (e : JournalEntry) : Prop where
  checkpoints : ∀ c ∈ e.checkpoints, ∀ c₀, m.checkpoints c.id = some c₀ →
    c₀.execution = c.execution
  commits : ∀ c ∈ e.commits, ∀ c₀, m.commits c.id = some c₀ → c₀.execution = c.execution
  replays : ∀ r ∈ e.replays, ∀ r₀, m.replays r.id = some r₀ → r₀.execution = r.execution

theorem checkpointIndex_put (j : Journaled) (e : JournalEntry) :
    (j.put e).checkpointIndex = match e with
      | .checkpoint c => if j.state.checkpoints.contains c.id then j.checkpointIndex
        else pushIndex j.checkpointIndex c.execution c.id
      | _ => j.checkpointIndex := by
  cases e <;> simp only [Journaled.put, Journaled.append, Journaled.indexEntry] <;> split <;> rfl

theorem replayIndex_put (j : Journaled) (e : JournalEntry) :
    (j.put e).replayIndex = match e with
      | .replay r => if j.state.replays.contains r.id then j.replayIndex
        else pushIndex j.replayIndex r.execution r.id
      | _ => j.replayIndex := by
  cases e <;> simp only [Journaled.put, Journaled.append, Journaled.indexEntry] <;> split <;> rfl

theorem commitIndex_put (j : Journaled) (e : JournalEntry) :
    (j.put e).commitIndex = match e with
      | .commit c => if j.state.commits.contains c.id then j.commitIndex
        else pushIndex j.commitIndex c.execution c.id
      | .commitGroup g => if j.state.commits.contains g.commit.id then j.commitIndex
        else pushIndex j.commitIndex g.commit.execution g.commit.id
      | _ => j.commitIndex := by
  cases e <;> simp only [Journaled.put, Journaled.append, Journaled.indexEntry] <;> split <;> rfl

theorem Listed.put {j : Journaled} (h : Listed j) {e : JournalEntry}
    (hkeeps : j.state.image.KeepsLists e) : Listed (j.put e) := by
  have hstate := Journaled.state_put j e
  constructor
  · rw [checkpointIndex_put, hstate, h.checkpoints]
    cases e with
    | checkpoint c =>
      exact (ownedIds_upsert (hkeeps.checkpoints c (List.mem_singleton.mpr rfl))).symm
    | _ => rfl
  · rw [commitIndex_put, hstate, h.commits]
    cases e with
    | commit c => exact (ownedIds_upsert (hkeeps.commits c (List.mem_singleton.mpr rfl))).symm
    | commitGroup g =>
      exact (ownedIds_upsert (hkeeps.commits g.commit (List.mem_singleton.mpr rfl))).symm
    | _ => rfl
  · rw [replayIndex_put, hstate, h.replays]
    cases e with
    | replay r => exact (ownedIds_upsert (hkeeps.replays r (List.mem_singleton.mpr rfl))).symm
    | _ => rfl

/-! ## Replays name actions of their execution -/

/-- The new action of every stored replay is one of the replay's execution. -/
def Image.Redrives (ds : List Derivation) (m : Image) : Prop :=
  ∀ k r, m.replays k = some r → ∃ n, Named ds (.action r.execution n) r.newAction

/-- The records name actions of their executions. -/
def RedrivesAll (ds : List Derivation) (es : List JournalEntry) : Prop :=
  ∀ e ∈ es, ∀ r ∈ e.replays, ∃ n, Named ds (.action r.execution n) r.newAction

namespace Image

variable {ds : List Derivation} {m : Image}

theorem Redrives.install (h : m.Redrives ds) {e : JournalEntry}
    (he : ∀ r ∈ e.replays, ∃ n, Named ds (.action r.execution n) r.newAction) :
    (m.install e).Redrives ds := by
  cases e with
  | replay r => exact forall_insert h (he r (List.mem_singleton.mpr rfl))
  | _ => exact h

theorem Redrives.installAll (h : m.Redrives ds) {es : List JournalEntry} (hes : RedrivesAll ds es) :
    (m.installAll es).Redrives ds := by
  induction es generalizing m with
  | nil => exact h
  | cons e rest ih =>
    exact ih (h.install (hes e List.mem_cons_self)) fun e' he' => hes e' (List.mem_cons_of_mem _ he')

/-- Without collisions an id belongs to one execution. -/
theorem Known.keepsLists (hfree : CollisionFree ds) (hk : m.Known ds) (hr : m.Redrives ds)
    {e : JournalEntry} (he : e.Derived ds m.store)
    (hnew : ∀ r ∈ e.replays, ∃ n, Named ds (.action r.execution n) r.newAction) :
    m.KeepsLists e := by
  refine ⟨fun c hc c₀ hc₀ => ?_, fun c hc c₀ hc₀ => ?_, fun r hr' r₀ hr₀ => ?_⟩
  · have hnamed : Named ds (.checkpoint c.execution c.generation) c.id := by
      cases e with
      | checkpoint c' =>
        obtain rfl := List.mem_singleton.mp hc
        exact he
      | _ => cases hc
    have hold := hk.checkpoints _ c₀ hc₀
    rw [show c₀.id = c.id from m.checkpoints.keyed _ _ hc₀] at hold
    exact (Derivation.checkpoint.inj (hold.unique hnamed hfree)).1
  · have hnamed : Named ds (.commit c.execution c.action c.actionGeneration c.progressGeneration)
        c.id := by
      cases e with
      | commit c' =>
        obtain rfl := List.mem_singleton.mp hc
        exact he
      | commitGroup g =>
        obtain rfl := List.mem_singleton.mp hc
        exact he.1
      | _ => cases hc
    have hold := hk.commits _ c₀ hc₀
    rw [show c₀.id = c.id from m.commits.keyed _ _ hc₀] at hold
    exact (Derivation.commit.inj (hold.unique hnamed hfree)).1
  · -- A replay id names the new action, and that action names the execution.
    have hnamed : Named ds (.replay r.newAction r.generation) r.id := by
      cases e with
      | replay r' =>
        obtain rfl := List.mem_singleton.mp hr'
        exact he
      | _ => cases hr'
    have hold := hk.replays _ r₀ hr₀
    rw [show r₀.id = r.id from m.replays.keyed _ _ hr₀] at hold
    have haction := (Derivation.replay.inj (hold.unique hnamed hfree)).1
    obtain ⟨n, hn⟩ := hnew r hr'
    obtain ⟨n₀, hn₀⟩ := hr _ r₀ hr₀
    rw [haction] at hn₀
    exact (Derivation.action.inj (hn₀.unique hn hfree)).1

end Image

/-- Lawful records keep every index exact. -/
theorem Rebuilt.write {ds : List Derivation} (hfree : CollisionFree ds) {j : Journaled}
    {es : List JournalEntry} (h : Rebuilt j) (hc : j.state.image.Coherent ds)
    (hr : j.state.image.Redrives ds) (hes : j.state.image.LawfulAll ds es)
    (hnew : RedrivesAll ds es) : Rebuilt (j.write es) := by
  induction es generalizing j with
  | nil => exact h
  | cons e rest ih =>
    have himage := j.image_put e
    have hhead := hnew e List.mem_cons_self
    have hput : Rebuilt (j.put e) :=
      ⟨h.indexed.put e (hc.known.keepsOwners hfree hes.1),
        h.listed.put (hc.known.keepsLists hfree hr hes.1 hhead)⟩
    refine ih hput ?_ ?_ ?_ fun e' he' => hnew e' (List.mem_cons_of_mem _ he')
    · rw [himage]
      exact hc.install hfree hes.1 hes.2.1
    · rw [himage]
      exact hr.install hhead
    · rw [himage]
      exact hes.2.2

/-! ## Transactions -/

section Transactions

/-- The records carry no replay. -/
def Unreplayed (es : List JournalEntry) : Prop := ∀ e ∈ es, e.replays = []

theorem Unreplayed.append {es fs : List JournalEntry} (h : Unreplayed es) (h' : Unreplayed fs) :
    Unreplayed (es ++ fs) :=
  List.forall_mem_append.mpr ⟨h, h'⟩

theorem Unreplayed.cons {e : JournalEntry} {es : List JournalEntry} (he : e.replays = [])
    (h : Unreplayed es) : Unreplayed (e :: es) :=
  List.forall_mem_cons.mpr ⟨he, h⟩

theorem unreplayed_nil : Unreplayed [] := by
  intro e he
  cases he

theorem unreplayed_map {α : Type} {f : α → JournalEntry} (h : ∀ r, (f r).replays = [])
    (rs : List α) : Unreplayed (rs.map f) :=
  List.forall_mem_map.mpr fun r _ => h r

theorem unreplayed_leaseAs (l : Option LeaseRecord) (state : LeaseState) :
    Unreplayed (leaseAs l state) :=
  unreplayed_map (fun _ => rfl) _

theorem unreplayed_continuationRecords (st : DurableState) (x : ExecutionRecord)
    (c : ContinuationRecord) : Unreplayed (continuationRecords st x c) :=
  (unreplayed_map (fun _ => rfl) _).append (.cons rfl (.cons rfl unreplayed_nil))

theorem unreplayed_enterCheckpointing (x : ExecutionRecord) : Unreplayed (enterCheckpointing x) := by
  unfold enterCheckpointing
  split
  · exact .cons rfl unreplayed_nil
  · exact unreplayed_nil

theorem unreplayed_fenceRecords (st : DurableState) (x : ExecutionRecord) :
    Unreplayed (fenceRecords st x) := by
  unfold fenceRecords
  split
  · exact unreplayed_nil
  · dsimp only
    split
    · exact (unreplayed_leaseAs _ _).append (.cons rfl unreplayed_nil)
    · exact .cons rfl unreplayed_nil

theorem unreplayed_restartRecords (j : Journaled) : Unreplayed (restartRecords j) := by
  intro e he
  simp only [restartRecords, reclassificationRecords, revocationRecords, List.mem_append,
    List.mem_singleton, List.mem_map] at he
  rcases he with ((rfl | ⟨l, -, rfl⟩) | ⟨x, -, rfl⟩) | ⟨c, -, rfl⟩ <;> rfl

/-- Only the beginning of an action writes replays. -/
theorem Transaction.unreplayed {j : Journaled} {i : Intent} {es : List JournalEntry}
    (ht : Transaction j i es) (hi : ∀ e, i ≠ .begin e) : Unreplayed es := by
  have hsingle : ∀ e : JournalEntry, e.replays = [] → Unreplayed [e] := fun e he =>
    .cons he unreplayed_nil
  cases ht with
  | updatePolicy policy hx hgeneration =>
    exact .cons rfl (((unreplayed_leaseAs _ _).append (unreplayed_map (fun _ => rfl) _)).append
      (hsingle _ rfl))
  | bind request hx hworker hboot hbindable hlive =>
    exact (unreplayed_leaseAs _ _).append (.cons rfl (hsingle _ rfl))
  | start token htoken hready => exact unreplayed_continuationRecords _ _ _
  | begin request htoken hrunning hblocked => exact absurd rfl (hi _)
  | enterCheckpoint request htoken hlifecycle => exact unreplayed_enterCheckpointing _
  | checkpoint request htoken hlifecycle hdepth =>
    exact (((unreplayed_enterCheckpointing _).append (hsingle _ rfl)).append
      (unreplayed_map (fun _ => rfl) _)).append (unreplayed_continuationRecords _ _ _)
  | resume request htoken hresumable hrecovery hvalid =>
    exact .cons rfl (unreplayed_continuationRecords _ _ _)
  | transition target hx hlegal hambiguity =>
    refine Unreplayed.append ?_ (hsingle _ rfl)
    split
    · exact unreplayed_leaseAs _ _
    · exact unreplayed_nil
  | advance hx hlive =>
    exact ((unreplayed_map (fun _ => rfl) _).append (unreplayed_leaseAs _ _)).append
      (hsingle _ rfl)
  | lose hx hlive => exact unreplayed_fenceRecords _ _
  | create => exact .cons rfl (.cons rfl (hsingle _ rfl))
  | complete | fail | report | enterResume => exact hsingle _ rfl
  | resolveManual => exact .cons rfl (hsingle _ rfl)
  | recoverPlain => exact .cons rfl (hsingle _ rfl)
  | recoverAmbiguous => exact .cons rfl (.cons rfl (.cons rfl (hsingle _ rfl)))
  | recoverCommit => exact .cons rfl (.cons rfl (hsingle _ rfl))
  | resolveCommit => exact .cons rfl (.cons rfl (hsingle _ rfl))
  | resolveAction => exact .cons rfl (.cons rfl (hsingle _ rfl))

theorem Unreplayed.redrivesAll {es : List JournalEntry} (h : Unreplayed es)
    (ds : List Derivation) : RedrivesAll ds es := by
  intro e he r hr
  rw [h e he] at hr
  cases hr

/-- A transaction whose derivations are known names actions of its execution in its replays. -/
theorem Transaction.redrivesAll {ds : List Derivation} {j : Journaled} {i : Intent}
    {es : List JournalEntry} (ht : Transaction j i es) (hmint : Minted ds j.state.store es) :
    RedrivesAll ds es := by
  by_cases hi : ∀ e, i ≠ .begin e
  · exact (ht.unreplayed hi).redrivesAll ds
  · simp only [ne_eq, not_forall, not_not] at hi
    obtain ⟨_, rfl⟩ := hi
    cases ht with
    | @begin x l request htoken hrunning hblocked =>
      intro e he r hr
      rcases List.mem_append.mp he with he' | he'
      · obtain ⟨a, -, rfl⟩ := List.mem_map.mp he'
        obtain rfl := List.mem_singleton.mp hr
        refine ⟨(begunAction x request (redriven x (j.latestAction x.id))).sequence, ?_, rfl⟩
        exact hmint (.action (begunAction x request (redriven x (j.latestAction x.id))))
          (List.mem_append_right _ List.mem_cons_self) _ List.mem_cons_self
      · simp only [List.mem_cons, List.not_mem_nil, or_false] at he'
        rcases he' with rfl | rfl <;> cases hr

end Transactions

/-! ## Loads -/

/-- Appending a record that memory already holds touches no index and no table. -/
theorem Rebuilt.append {j : Journaled} (h : Rebuilt j) (e : JournalEntry) : Rebuilt (j.append e) :=
  ⟨⟨h.indexed.ascending, h.indexed.mem⟩, h.listed.checkpoints, h.listed.commits, h.listed.replays⟩

theorem rebuilt_reconciled (j : Journaled) : Rebuilt (reconciled j) := by
  have hfold : ∀ (repairs : List CommitGroupRecord) (k : Journaled), Rebuilt k →
      Rebuilt (repairs.foldl (fun j repair => j.append (.commitGroup repair)) k) := by
    intro repairs
    induction repairs with
    | nil => exact fun k hk => hk
    | cons g rest ih => exact fun k hk => ih _ (hk.append _)
  exact hfold _ _ (rebuilt_rebuildIndexes _)

/-! ## Runs -/

/-- Indexes are exact while the runtime is open. -/
def indexing (ds : List Derivation) : Discipline where
  durable := Image.Redrives ds
  rest := fun _ => True
  reopening := fun _ j => Rebuilt j ∧ j.state.image.Redrives ds
  working := fun j => Rebuilt j ∧ j.state.image.Redrives ds
  parked := fun _ => True
  admits := anyEvent

theorem RedrivesAll.lasting {ds : List Derivation} {m : Image} {es : List JournalEntry}
    (h : RedrivesAll ds es) : (indexing ds).Lasting m es := by
  intro m₀ _ hdurable p hp
  exact Image.Redrives.installAll hdurable fun e he => h e (hp.subset he)

/-- A transaction keeps the indexes exact and its replays named. -/
theorem Rebuilt.transaction {ds : List Derivation} (hfree : CollisionFree ds) {j : Journaled}
    {i : Intent} {es : List JournalEntry} (hw : Working ds j)
    (h : Rebuilt j ∧ j.state.image.Redrives ds) (ht : Transaction j i es)
    (hmint : Minted ds j.state.store es) :
    (Rebuilt (j.write es) ∧ (j.write es).state.image.Redrives ds) ∧
      (indexing ds).Lasting j.state.image es := by
  have hredrives := ht.redrivesAll hmint
  have hlawful := ht.lawful hfree hw.coherent hw.indexed hmint
  refine ⟨⟨h.1.write hfree hw.coherent h.2 hlawful hredrives, ?_⟩, hredrives.lasting⟩
  rw [Journaled.image_write]
  exact h.2.installAll hredrives

theorem indexing_upheld {ds : List Derivation} (hfree : CollisionFree ds) :
    (indexing ds).Upheld ds where
  vacant := by
    intro s config entropy m hallow hnone hvacant
    refine ⟨fun k r hr => ?_, trivial⟩
    rw [hvacant.replays] at hr
    cases hr
  rest_agrees := fun _ _ => trivial
  settles := fun _ h => ⟨h.2, trivial, trivial⟩
  transaction := fun _ _ _ hw h ht hmint => Rebuilt.transaction hfree hw h ht hmint
  lose := fun hw h ht hmint => Rebuilt.transaction hfree hw h ht hmint
  restart := by
    rintro s config entropy m j - - - hw hagrees ⟨store, d, -, -, rfl⟩ hdurable -
    have hredrives := (unreplayed_restartRecords (reloaded s.toJournaled store d)).redrivesAll ds
    have hmemory : (reloaded s.toJournaled store d).state.image.Redrives ds := by
      intro k r hr
      rw [hagrees.replays] at hr
      exact hdurable k r hr
    refine ⟨⟨?_, ?_⟩, hredrives.lasting⟩
    · exact (rebuilt_reconciled _).write hfree hw.coherent hmemory
        (restartRecords_lawful hfree hw.coherent) hredrives
    · rw [Journaled.image_write]
      exact hmemory.installAll hredrives
  skip := fun h => h
  recover := fun hw h ht hmint => Rebuilt.transaction hfree hw h ht hmint
  reopened := fun _ h => h
  crash := fun _ _ _ _ _ => trivial

theorem rebuilt_empty (store : FileDurableStore) : Rebuilt { store := store } := by
  refine ⟨⟨fun _ => List.Pairwise.nil, fun e k => ?_⟩, rfl, rfl, rfl⟩
  constructor
  · intro hk
    cases hk
  · rintro ⟨a, ha, -⟩
    cases ha

/-- A process that ends an event closed keeps the indexes it had, or has none. -/
theorem Rebuilt.closed {s : Runtime} (hsecured : Secured s) (h : Rebuilt s.toJournaled) (e : Event)
    (hclosed : (e.perform s).isOpen = false) : Rebuilt (e.perform s).toJournaled := by
  cases e with
  | crash kept => exact rebuilt_empty _
  | call c =>
    have heffect := (call_outcome c s hsecured.housed.orderly).effect
    change (c.perform s).isOpen = false at hclosed
    show Rebuilt (c.perform s).toJournaled
    generalize c.perform s = s' at *
    cases heffect with
    | quiet hj hopen =>
      rw [hj]
      exact h
    | wrote hi hrun hopen ht hj => exact absurd hopen (by simp [hclosed])
    | lost session hc hrun hopen hw => exact absurd hopen (by simp [hclosed])
    | closed hc hrun hclosed' hj =>
      rw [hj]
      exact h.withStore _
    | snapshot truncate hc hrun hopen hj => exact absurd hopen (by simp [hclosed])
    | opens config entropy hc hwas hopened hopens =>
      cases hopens with
      | refused e' hresult hj hclosed' =>
        rw [hj]
        exact h.withStore _
      | unloadable d hresult hd hload hstore hclosed' =>
        exact absurd (hsecured.finds hwas hopened hresult hd).loads.1 hload
      | reopened d hresult hd hload hw hopen => exact absurd hopen (by simp [hclosed])

/-- Every index is exact in every state of a collision-free run. -/
theorem rebuilt_of_runs {allow : Runtime → Event → Prop} {ds : List Derivation}
    (hfree : CollisionFree ds) {s s' : Runtime} {events : List Event}
    (hrun : Runs allow s events s') (hkept : Kept (indexing ds) ds s) (hsecured : Secured s)
    (h : Rebuilt s.toJournaled) (hds : s'.minted ⊆ ds) : Rebuilt s'.toJournaled := by
  induction hrun with
  | nil s => exact h
  | @cons s s' e events hallow rest ih =>
    obtain ⟨hhoused, -⟩ := hkept.housed.perform e
    obtain ⟨-, hfollows⟩ := rest.housed hhoused
    have hstep := hkept.perform (indexing_upheld hfree) (fun j store hw => ⟨hw.1.withStore store, hw.2⟩)
      hfree trivial (List.Subset.trans (hhoused.minted_subset hfollows) hds)
    refine ih hstep (hsecured.perform e) ?_ hds
    cases hopen : (e.perform s).isOpen with
    | true =>
      obtain ⟨d, -, -, hw⟩ := hstep.running hopen
      exact hw.1
    | false => exact Rebuilt.closed hsecured h e hopen

/-- **While the runtime is open, the indexes of every execution are, as lists, those a rebuild
computes from the same durable state, and each key, checkpoint, commit and replay of the execution
occurs in them once.** -/
theorem indexes_rebuilt {events : List Event} {s : Runtime} (hrun : Runs anyEvent {} events s)
    (hfree : CollisionFree s.minted) (_ : s.isOpen = true) (e : ExecutionId) :
    (s.actionIndex e = s.rebuildIndexes.actionIndex e ∧
      s.checkpointIndex e = s.rebuildIndexes.checkpointIndex e ∧
      s.commitIndex e = s.rebuildIndexes.commitIndex e ∧
      s.replayIndex e = s.rebuildIndexes.replayIndex e) ∧
    ((s.actionIndex e).Nodup ∧ ∀ k, k ∈ s.actionIndex e ↔
      ∃ a, s.state.actions.find k = some a ∧ a.execution = e) ∧
    ((s.checkpointIndex e).Nodup ∧ ∀ k, k ∈ s.checkpointIndex e ↔
      ∃ c, s.state.checkpoints.find k = some c ∧ c.execution = e) ∧
    ((s.commitIndex e).Nodup ∧ ∀ k, k ∈ s.commitIndex e ↔
      ∃ c, s.state.commits.find k = some c ∧ c.execution = e) ∧
    ((s.replayIndex e).Nodup ∧ ∀ k, k ∈ s.replayIndex e ↔
      ∃ r, s.state.replays.find k = some r ∧ r.execution = e) := by
  have h := rebuilt_of_runs hfree hrun kept_start secured_start (rebuilt_empty _) (List.Subset.refl _)
  have heq := h.eq
  refine ⟨by rw [heq]; exact ⟨rfl, rfl, rfl, rfl⟩, ⟨?_, h.indexed.mem e⟩, ?_, ?_, ?_⟩
  · refine List.Pairwise.imp ?_ (h.indexed.ascending e)
    rintro a _ hlt rfl
    exact ActionKey.lt_irrefl a hlt
  · rw [h.listed.checkpoints]
    exact ⟨nodup_ownedIds e, mem_ownedIds e⟩
  · rw [h.listed.commits]
    exact ⟨nodup_ownedIds e, mem_ownedIds e⟩
  · rw [h.listed.replays]
    exact ⟨nodup_ownedIds e, mem_ownedIds e⟩

theorem indexes_rebuilt_committed :
    (performAll committedRun {}).commitIndex (deriveExecutionId ⟨1⟩ 1) =
      (performAll committedRun {}).rebuildIndexes.commitIndex (deriveExecutionId ⟨1⟩ 1) :=
  (indexes_rebuilt (runs_performAll committedRun {}) (by decide +kernel) (by decide +kernel) _).1.2.2.1

/-- The eighth action of one execution takes the id of the first action of another, whose index
keeps it. -/
theorem colliding_index_kept : ¬ ∀ (events : List Event) (s : Runtime), Runs anyEvent {} events s →
    ∀ e, s.actionIndex e = s.rebuildIndexes.actionIndex e := by
  intro h
  have hkept := h collidingActions _ (runs_performAll _ _)
    (deriveExecutionId ⟨15185649398792642038⟩ 1)
  revert hkept
  decide +kernel

end ExecutionFabric
