import ExecutionFabric.Audit.Leases

/-!
# Executions apart

A transaction works on one execution. The lifecycles, actions, progress records,
commits and ambiguities it writes are all that execution's own, so those of every other
execution stay as they are. The one exception is a side-effect report, which does not
look at whose action it revises.
-/
namespace ExecutionFabric

open Lib

/-- The executions whose lifecycle, effects or ambiguities a journal record carries. -/
def JournalEntry.owners : JournalEntry → List ExecutionId
  | .execution x => [x.id]
  | .action a => [a.execution]
  | .progress p => [p.execution]
  | .commit c => [c.execution]
  | .ambiguity amb => [amb.execution]
  | .commitGroup g =>
    [g.commit.execution, g.progress.execution, g.action.execution, g.execution.id]
  | _ => []

/-- The execution an operation names. -/
def Intent.subject : Intent → Option ExecutionId
  | .create => none
  | .updatePolicy e | .bind e | .start e | .begin e | .complete e _ _ | .fail e _ | .report e _ _
  | .checkpoint e | .resume e | .recover e | .resolve e _ _ | .transition e _ | .advance e
  | .lose e => some e

/-- Every record of the list belongs to `e`. -/
def OwnedBy (e : ExecutionId) (es : List JournalEntry) : Prop :=
  ∀ entry ∈ es, ∀ o ∈ entry.owners, o = e

section Owners

variable {e : ExecutionId} {es fs : List JournalEntry}

theorem ownedBy_nil : OwnedBy e [] := fun _ h => by cases h

theorem ownedBy_cons {entry : JournalEntry} (hentry : ∀ o ∈ entry.owners, o = e)
    (hes : OwnedBy e es) : OwnedBy e (entry :: es) := by
  intro entry' hmem
  rcases List.mem_cons.mp hmem with rfl | hmem
  · exact hentry
  · exact hes entry' hmem

theorem OwnedBy.append (hes : OwnedBy e es) (hfs : OwnedBy e fs) : OwnedBy e (es ++ fs) := by
  intro entry hmem
  rcases List.mem_append.mp hmem with hmem | hmem
  · exact hes entry hmem
  · exact hfs entry hmem

/-- Records of the other tables belong to nobody. -/
theorem ownedBy_of_ownerless (h : ∀ entry ∈ es, entry.owners = []) : OwnedBy e es := by
  intro entry hmem o ho
  rw [h entry hmem] at ho
  cases ho

theorem ownedBy_map {α : Type} (f : α → JournalEntry) (hf : ∀ r, (f r).owners = []) (rs : List α) :
    OwnedBy e (rs.map f) := by
  refine ownedBy_of_ownerless fun entry hmem => ?_
  obtain ⟨r, -, rfl⟩ := List.mem_map.mp hmem
  exact hf r

theorem ownedBy_execution {y : ExecutionRecord} (hid : y.id = e) :
    OwnedBy e [.execution y] :=
  ownedBy_cons (fun _ ho => (List.mem_singleton.mp ho).trans hid) ownedBy_nil

theorem ownedBy_unblocked {y : ExecutionRecord} (hid : y.id = e) :
    OwnedBy e [.execution y.unblocked] :=
  ownedBy_execution hid

theorem ownedBy_leaseAs (l : Option LeaseRecord) (state : LeaseState) :
    OwnedBy e (leaseAs l state) :=
  ownedBy_map _ (fun _ => rfl) _

variable {x : ExecutionRecord}

theorem ownedBy_continuationRecords (st : DurableState) {y : ExecutionRecord} (hid : y.id = e)
    (c : ContinuationRecord) : OwnedBy e (continuationRecords st y c) :=
  (ownedBy_map _ (fun _ => rfl) _).append
    (ownedBy_cons (fun o ho => by cases ho) (ownedBy_execution hid))

theorem ownedBy_enterCheckpointing (hid : x.id = e) : OwnedBy e (enterCheckpointing x) := by
  unfold enterCheckpointing
  split
  · exact ownedBy_execution hid
  · exact ownedBy_nil

theorem ownedBy_checkpointRecords (j : Journaled) (hid : x.id = e) (c : CheckpointRecord) :
    OwnedBy e (checkpointRecords j x c) := by
  have hnew : OwnedBy e (newCheckpointRecords x c) :=
    (ownedBy_enterCheckpointing hid).append (ownedBy_cons (fun o ho => by cases ho) ownedBy_nil)
  have hdemoted : OwnedBy e (demotionRecords j x c) :=
    hnew.append (ownedBy_map _ (fun _ => rfl) _)
  have hid' : (checkpointedExecution x c).id = e := hid
  exact hdemoted.append (ownedBy_continuationRecords _ hid' _)

theorem id_atPlannedCheckpoint (next : ExecutionRecord) (plan : RecoveryPlan) :
    (atPlannedCheckpoint next plan).id = next.id := by
  unfold atPlannedCheckpoint
  split <;> rfl

theorem ownedBy_recoveryRecords (st : DurableState) {next : ExecutionRecord} (hid : next.id = e)
    (plan : RecoveryPlan) (inFlight : Option ActionRecord) :
    OwnedBy e (recoveryRecords st x next plan inFlight) :=
  ownedBy_cons (fun o ho => by cases ho)
    (ownedBy_execution ((id_atPlannedCheckpoint next plan).trans hid))

theorem ownedBy_fenceRecords (st : DurableState) (hid : x.id = e) :
    OwnedBy e (fenceRecords st x) := by
  have hnext : (if isLegalTransition x.lifecycle .fenced = true then
      { x with lifecycle := .fenced } else x).id = e := by
    split <;> exact hid
  unfold fenceRecords
  split
  · exact ownedBy_nil
  · dsimp only
    split
    · exact (ownedBy_leaseAs _ _).append (ownedBy_execution hnext)
    · exact ownedBy_execution hnext

theorem Promotes.ownedBy {a : ActionRecord} {g : CommitGroupRecord} (h : Promotes x a g)
    (ha : a.execution = x.id) (hid : x.id = e) (hes : OwnedBy e es) :
    OwnedBy e (.commitGroup g :: es) := by
  refine ownedBy_cons (fun o ho => ?_) hes
  obtain ⟨epoch, hexecution⟩ := h.execution
  obtain ⟨evidence, haction⟩ := h.action
  simp only [JournalEntry.owners, List.mem_cons, List.not_mem_nil, or_false] at ho
  rcases ho with rfl | rfl | rfl | rfl
  · exact h.owner.trans hid
  · exact h.seals.execution.trans (h.owner.trans hid)
  · rw [haction]
    exact ha.trans hid
  · rw [hexecution]
    exact hid

end Owners

/-- The ambiguous action of a coherent image belongs to the ambiguity's execution. -/
theorem Image.Coherent.ambiguous_owner {ds : List Derivation} {m : Image} (hc : m.Coherent ds)
    {k : AmbiguityId} {amb : AmbiguityRecord} {a : ActionRecord} (hamb : m.ambiguities k = some amb)
    (ha : m.actions amb.actionKey = some a) : a.execution = amb.execution := by
  obtain ⟨a', ha', howner⟩ := hc.ambiguityAction k amb hamb
  obtain rfl := Option.some.inj (ha.symm.trans ha')
  exact howner

/-- A transaction writes records of the execution it works on, side-effect reports apart. -/
theorem Transaction.ownedBy {ds : List Derivation} {j : Journaled} {i : Intent}
    {es : List JournalEntry} (hc : j.state.image.Coherent ds) (hindexed : Indexed j)
    (ht : Transaction j i es) (hreport : ∀ e key applied, i ≠ .report e key applied)
    {e : ExecutionId} (hsubject : i.subject = some e) : OwnedBy e es := by
  cases ht with
  | create policy hid => cases hsubject
  | @updatePolicy x policy hx hgeneration =>
    obtain rfl : x.id = e := Option.some.inj hsubject
    have hid : (underPolicy x policy.generation).id = x.id := by
      unfold underPolicy
      dsimp only
      split
      · split <;> rfl
      · rfl
    exact ownedBy_cons (fun o ho => by cases ho)
      (((ownedBy_leaseAs _ _).append (ownedBy_map _ (fun _ => rfl) _)).append
        (ownedBy_execution hid))
  | @bind x request hx hworker hboot hbindable hlive =>
    obtain rfl : x.id = e := Option.some.inj hsubject
    have hid : (boundExecution j.state x request).id = x.id := by
      unfold boundExecution incarnated
      split <;> rfl
    exact (ownedBy_leaseAs _ _).append
      (ownedBy_cons (fun o ho => by cases ho) (ownedBy_execution hid))
  | @start x l token htoken hready =>
    have hid : (startedExecution j.state x).id = e := Option.some.inj hsubject
    exact ownedBy_continuationRecords _ hid _
  | @begin x l request htoken hrunning hblocked =>
    obtain rfl : x.id = e := Option.some.inj hsubject
    have howner : (begunAction x request (redriven x (j.latestAction x.id))).execution = x.id := by
      unfold begunAction
      rfl
    exact (ownedBy_map _ (fun _ => rfl) _).append
      (ownedBy_cons (fun o ho => (List.mem_singleton.mp ho).trans howner) (ownedBy_execution rfl))
  | @complete x l a request htoken hrunning ha hfresh hdefect hcommit =>
    exact (commitGroupOf_promotes j.state x a request.request request.evidence).ownedBy
      (completionDefect_none hdefect).1 (Option.some.inj hsubject) ownedBy_nil
  | @fail x l a request htoken ha howner hcommitted hambiguous =>
    exact ownedBy_cons (fun o ho => (List.mem_singleton.mp ho).trans
      (howner.trans (Option.some.inj hsubject))) ownedBy_nil
  | @report x l a request htoken ha hcommitted hambiguous habandoned =>
    exact absurd rfl (hreport _ _ _)
  | @enterCheckpoint x l request htoken hlifecycle =>
    exact ownedBy_enterCheckpointing (Option.some.inj hsubject)
  | @checkpoint x l depth request htoken hlifecycle hdepth =>
    exact ownedBy_checkpointRecords j (Option.some.inj hsubject) _
  | @enterResume x l request htoken hresumable hrecovery =>
    exact ownedBy_execution (Option.some.inj hsubject)
  | @resume x l request htoken hresumable hrecovery hvalid =>
    have hid : x.id = e := Option.some.inj hsubject
    have hid' : ({ resumingExecution j.state x request.observedBindings with
        lifecycle := .running }).id = e := hid
    exact ownedBy_cons (fun o ho => (List.mem_singleton.mp ho).trans hid)
      (ownedBy_continuationRecords _ hid' _)
  | @recoverPlain x hx hlive hopens hreceipt =>
    exact ownedBy_recoveryRecords _ (Option.some.inj hsubject) _ _
  | @recoverAmbiguous x a hx hlive hopens ha =>
    obtain rfl : x.id = e := Option.some.inj hsubject
    obtain ⟨hstored, howner⟩ := (planned_of_plannedAction ha).owned hc hindexed hx
    have hamb : (recordedAmbiguity j.state x (planOf j x) a).execution = x.id := by
      rcases recordedAmbiguity_cases j.state x (planOf j x) a with
        ⟨amb, hsome, -, hrecorded⟩ | ⟨g, r, -, -, -, hrecorded⟩
      · rw [hrecorded]
        obtain ⟨hvalid, hfound⟩ := currentAmbiguity_some hsome
        obtain ⟨amb', hamb', hexecution⟩ := hc.ambiguous _ x hx hvalid
        obtain rfl := Option.some.inj (hfound.symm.trans hamb')
        exact hexecution
      · rw [hrecorded]
    exact ownedBy_cons (fun o ho => (List.mem_singleton.mp ho).trans hamb)
      (ownedBy_cons (fun o ho => (List.mem_singleton.mp ho).trans howner)
        (ownedBy_recoveryRecords _ (blockedBy_authority j.state _ a).1.id _ _))
  | @recoverCommit x a request hx hlive hreceipt ha hcommit =>
    obtain rfl : x.id = e := Option.some.inj hsubject
    obtain ⟨hstored, howner⟩ := (planned_of_plannedAction ha).owned hc hindexed hx
    have hg := commitGroupOf_promotes j.state x a request a.receipt
    exact hg.ownedBy howner rfl (ownedBy_recoveryRecords _ hg.authority.1.id _ _)
  | @resolveCommit x amb a request hx hamb howner hopen ha hresolution hcommit =>
    obtain rfl : x.id = e := Option.some.inj hsubject
    have hg := commitGroupOf_promotes j.state x a request.request request.evidence
    have ha' : a.execution = x.id := (hc.ambiguous_owner hamb ha).trans howner
    exact hg.ownedBy ha' rfl (ownedBy_cons (fun o ho => (List.mem_singleton.mp ho).trans howner)
      (ownedBy_unblocked hg.authority.1.id))
  | @resolveAction x amb a request status hx hamb howner hopen ha hresolution =>
    obtain rfl : x.id = e := Option.some.inj hsubject
    have ha' : a.execution = x.id := (hc.ambiguous_owner hamb ha).trans howner
    exact ownedBy_cons (fun o ho => (List.mem_singleton.mp ho).trans ha')
      (ownedBy_cons (fun o ho => (List.mem_singleton.mp ho).trans howner)
        (ownedBy_execution rfl))
  | @resolveManual x amb a request hx hamb howner hopen ha hresolution =>
    obtain rfl : x.id = e := Option.some.inj hsubject
    exact ownedBy_cons (fun o ho => (List.mem_singleton.mp ho).trans howner)
      (ownedBy_execution rfl)
  | @transition x target hx hlegal hambiguity =>
    obtain rfl : x.id = e := Option.some.inj hsubject
    have hid : (transitioned j.state x target).id = x.id := by
      unfold transitioned
      dsimp only
      split <;> rfl
    refine OwnedBy.append ?_ (ownedBy_execution hid)
    split
    · exact ownedBy_leaseAs _ _
    · exact ownedBy_nil
  | @advance x hx hlive =>
    obtain rfl : x.id = e := Option.some.inj hsubject
    have hid : (nextGeneration x).id = x.id := by
      unfold nextGeneration
      dsimp only
      split <;> rfl
    exact ((ownedBy_map _ (fun _ => rfl) _).append (ownedBy_leaseAs _ _)).append
      (ownedBy_execution hid)
  | @lose x hx hlive => exact ownedBy_fenceRecords _ (Option.some.inj hsubject)

/-! ## The part of an image that belongs to one execution -/

namespace Image

/-- The actions of one execution. -/
def actionsOf (m : Image) (e : ExecutionId) (k : ActionKey) : Option ActionRecord :=
  (m.actions k).filter fun a => a.execution = e

def progressOf (m : Image) (e : ExecutionId) (k : ProgressId) : Option ProgressRecord :=
  (m.progress k).filter fun p => p.execution = e

def commitsOf (m : Image) (e : ExecutionId) (k : CommitId) : Option CommitRecord :=
  (m.commits k).filter fun c => c.execution = e

def ambiguitiesOf (m : Image) (e : ExecutionId) (k : AmbiguityId) : Option AmbiguityRecord :=
  (m.ambiguities k).filter fun amb => amb.execution = e

/-- The execution, its effects and its ambiguities are the same in both images. -/
structure Untouched (e : ExecutionId) (m m' : Image) : Prop where
  execution : m'.executions e = m.executions e
  actions : m'.actionsOf e = m.actionsOf e
  progress : m'.progressOf e = m.progressOf e
  commits : m'.commitsOf e = m.commitsOf e
  ambiguities : m'.ambiguitiesOf e = m.ambiguitiesOf e

theorem Untouched.refl (e : ExecutionId) (m : Image) : m.Untouched e m := ⟨rfl, rfl, rfl, rfl, rfl⟩

theorem Untouched.trans {e : ExecutionId} {m m' m'' : Image} (h : m.Untouched e m')
    (h' : m'.Untouched e m'') : m.Untouched e m'' :=
  ⟨h'.execution.trans h.execution, h'.actions.trans h.actions, h'.progress.trans h.progress,
    h'.commits.trans h.commits, h'.ambiguities.trans h.ambiguities⟩

/-- An insertion that neither adds nor replaces a record of the selection leaves it as it is. -/
theorem filter_insert {α κ : Type} [DecidableEq κ] {key : α → κ} {t : KeyedMap key} {r : α}
    {p : α → Bool} (hr : p r = false) (hold : ∀ r', t (key r) = some r' → p r' = false) (k : κ) :
    (t.insert r k).filter p = (t k).filter p := by
  by_cases hk : k = key r
  · subst hk
    rw [KeyedMap.insert_self, Option.filter_some, hr]
    cases hfound : t (key r) with
    | none => rfl
    | some r' =>
      rw [Option.filter_some, hold r' hfound]
      rfl
  · rw [KeyedMap.insert_of_ne _ hk]

variable {ds : List Derivation} {m : Image} {e : ExecutionId}

theorem actionsOf_insert (hfree : CollisionFree ds) (hk : m.Known ds) {a : ActionRecord}
    (ha : Named ds (.action a.execution a.sequence) a.id) (hother : a.execution ≠ e) :
    (fun k => (m.actions.insert a k).filter fun a => a.execution = e) = m.actionsOf e := by
  funext k
  refine filter_insert (p := fun r : ActionRecord => r.execution = e) (decide_eq_false hother)
    (fun b hb => decide_eq_false ?_) k
  rw [(hk.action_unique hfree ha hb).1]
  exact hother

theorem progressOf_insert (hfree : CollisionFree ds) (hk : m.Known ds) {p : ProgressRecord}
    (hp : Named ds (.progress p.execution p.generation) p.id) (hother : p.execution ≠ e) :
    (fun k => (m.progress.insert p k).filter fun p => p.execution = e) = m.progressOf e := by
  funext k
  refine filter_insert (p := fun r : ProgressRecord => r.execution = e) (decide_eq_false hother)
    (fun q hq => decide_eq_false ?_) k
  have hnamed := hk.progress _ q hq
  rw [m.progress.keyed _ _ hq] at hnamed
  injection hnamed.unique hp hfree with hexecution
  rw [hexecution]
  exact hother

theorem commitsOf_insert (hfree : CollisionFree ds) (hk : m.Known ds) {c : CommitRecord}
    (hc : Named ds (.commit c.execution c.action c.actionGeneration c.progressGeneration) c.id)
    (hother : c.execution ≠ e) :
    (fun k => (m.commits.insert c k).filter fun c => c.execution = e) = m.commitsOf e := by
  funext k
  refine filter_insert (p := fun r : CommitRecord => r.execution = e) (decide_eq_false hother)
    (fun d hd => decide_eq_false ?_) k
  have hnamed := hk.commits _ d hd
  rw [m.commits.keyed _ _ hd] at hnamed
  injection hnamed.unique hc hfree with hexecution
  rw [hexecution]
  exact hother

theorem ambiguitiesOf_insert (hfree : CollisionFree ds) (hk : m.Known ds) {amb : AmbiguityRecord}
    (hamb : Named ds (.ambiguity amb.execution amb.action amb.generation) amb.id)
    (hother : amb.execution ≠ e) :
    (fun k => (m.ambiguities.insert amb k).filter fun amb => amb.execution = e) =
      m.ambiguitiesOf e := by
  funext k
  refine filter_insert (p := fun r : AmbiguityRecord => r.execution = e) (decide_eq_false hother)
    (fun b hb => decide_eq_false ?_) k
  have hnamed := hk.ambiguities _ b hb
  rw [m.ambiguities.keyed _ _ hb] at hnamed
  injection hnamed.unique hamb hfree with hexecution
  rw [hexecution]
  exact hother

/-- A record of other executions leaves `e` untouched. -/
theorem untouched_install (hfree : CollisionFree ds) (hk : m.Known ds) {entry : JournalEntry}
    (hderived : entry.Derived ds m.store) (hother : ∀ o ∈ entry.owners, o ≠ e) :
    m.Untouched e (m.install entry) := by
  have hsame := Untouched.refl e m
  cases entry with
  | execution x =>
    have hid : x.id ≠ e := hother _ (List.mem_singleton.mpr rfl)
    exact { hsame with execution := KeyedMap.insert_of_ne _ hid.symm }
  | action a =>
    exact { hsame with
      actions := actionsOf_insert hfree hk hderived (hother _ (List.mem_singleton.mpr rfl)) }
  | progress p =>
    exact { hsame with
      progress := progressOf_insert hfree hk hderived (hother _ (List.mem_singleton.mpr rfl)) }
  | commit c =>
    exact { hsame with
      commits := commitsOf_insert hfree hk hderived (hother _ (List.mem_singleton.mpr rfl)) }
  | ambiguity amb =>
    exact { hsame with
      ambiguities :=
        ambiguitiesOf_insert hfree hk hderived (hother _ (List.mem_singleton.mpr rfl)) }
  | commitGroup g =>
    simp only [JournalEntry.owners, List.forall_mem_cons] at hother
    obtain ⟨hcommit, hprogress, haction, hexecution, -⟩ := hother
    exact { hsame with
      execution := KeyedMap.insert_of_ne _ hexecution.symm
      actions := actionsOf_insert hfree hk hderived.2.2.1 haction
      progress := progressOf_insert hfree hk hderived.2.1 hprogress
      commits := commitsOf_insert hfree hk hderived.1 hcommit }
  | storeMeta r => exact { hsame with }
  | policy r => exact { hsame with }
  | checkpoint c => exact { hsame with }
  | continuation c => exact { hsame with }
  | lease l => exact { hsame with }
  | replay r => exact { hsame with }
  | recovery r => exact { hsame with }
  | barrier r => exact hsame

theorem untouched_installAll (hfree : CollisionFree ds) (hc : m.Coherent ds)
    {es : List JournalEntry} (hes : LawfulAll ds m es)
    (hother : ∀ entry ∈ es, ∀ o ∈ entry.owners, o ≠ e) : m.Untouched e (m.installAll es) := by
  induction es generalizing m with
  | nil => exact .refl e m
  | cons entry rest ih =>
    have hentry := untouched_install hfree hc.known hes.1 (hother entry List.mem_cons_self)
    exact hentry.trans (ih (hc.install hfree hes.1 hes.2.1) hes.2.2
      fun entry' hmem => hother entry' (List.mem_cons_of_mem _ hmem))

end Image

/-- A transaction of another execution leaves `e` untouched. -/
theorem Transaction.untouched {ds : List Derivation} {j : Journaled} {i : Intent}
    {es : List JournalEntry} (hfree : CollisionFree ds) (hw : Working ds j)
    (ht : Transaction j i es) (hmint : Minted ds j.state.store es)
    (hreport : ∀ e key applied, i ≠ .report e key applied) {e : ExecutionId}
    (hother : i.subject ≠ some e) (hstored : ∃ x, j.state.image.executions e = some x) :
    j.state.image.Untouched e (j.write es).state.image := by
  have hlawful := ht.lawful hfree hw.coherent hw.indexed hmint
  rw [Journaled.image_write]
  refine Image.untouched_installAll hfree hw.coherent hlawful fun entry hmem o ho => ?_
  cases hsubject : i.subject with
  | some e' =>
    rw [ht.ownedBy hw.coherent hw.indexed hreport hsubject entry hmem o ho]
    exact fun h => hother (hsubject.trans (congrArg some h))
  | none =>
    have hk' := (ht.working hfree hw hmint).coherent.known
    cases ht with
    | create policy hid =>
      rw [Journaled.image_write] at hk'
      have hfresh := createdExecution_fresh hfree hw.coherent hk' rfl (KeyedMap.insert_self _ _)
      simp only [List.mem_cons, List.not_mem_nil, or_false] at hmem
      rcases hmem with rfl | rfl | rfl
      · cases ho
      · cases ho
      · obtain ⟨x, hx⟩ := hstored
        rw [List.mem_singleton.mp ho]
        rintro rfl
        rw [hfresh] at hx
        cases hx
    | _ => cases hsubject

end ExecutionFabric
