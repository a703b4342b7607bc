import ExecutionFabric.Audit.RecordLaws
import ExecutionFabric.Audit.Checkpoints
import ExecutionFabric.Audit.Refusals

/-!
# Which binding sets are stored

Leases, continuations and checkpoints copy the binding set of their execution, and an
execution takes its own from a bind or a resume. A bind checks what it installs; a resume
installs whatever it is offered.
-/
namespace ExecutionFabric

open Lib Program

/-- The binding set a record carries, if it carries one. -/
def JournalEntry.bindings : JournalEntry → Option BindingSet
  | .execution r => some r.bindings
  | .checkpoint r => some r.bindings
  | .continuation r => some r.bindings
  | .lease r => some r.bindings
  | _ => none

/-- The record carries no binding set with a defect. -/
def WellBound (e : JournalEntry) : Prop := ∀ b, e.bindings = some b → bindingSetDefect b = none

section Records

variable {x : ExecutionRecord} {c : ContinuationRecord} {st : DurableState}

theorem wellBound_unbound {e : JournalEntry} (h : e.bindings = none) : WellBound e := by
  intro b hb
  rw [h] at hb
  cases hb

theorem wellBound_of_same {e e' : JournalEntry} (h : WellBound e) (hsame : e'.bindings = e.bindings) :
    WellBound e' := by
  intro b hb
  exact h b (hsame.symm.trans hb)

theorem wellBound_execution (h : bindingSetDefect x.bindings = none) :
    WellBound (.execution x) := by
  intro b hb
  exact Option.some.inj hb ▸ h

theorem carries_execution {y : ExecutionRecord} (hx : WellBound (.execution x))
    (hsame : y.bindings = x.bindings) : (JournalEntry.execution y).Carries WellBound :=
  wellBound_of_same hx (congrArg some hsame)

theorem carries_leaseAs {l : Option LeaseRecord} (h : ∀ l', l = some l' → WellBound (.lease l'))
    (state : LeaseState) : ∀ e ∈ leaseAs l state, e.Carries WellBound := by
  intro e he
  obtain ⟨l', hl', rfl⟩ := List.mem_map.mp he
  exact wellBound_of_same (h l' (Option.mem_toList.mp hl')) rfl

variable (h : st.image.Holds WellBound)
include h

theorem wellBound_heldLease (l : LeaseRecord) (hl : heldLease st x = some l) :
    WellBound (.lease l) := by
  unfold heldLease at hl
  split at hl
  · exact h.leases _ l hl
  · cases hl

theorem wellBound_heldActiveLease (l : LeaseRecord) (hl : heldActiveLease st x = some l) :
    WellBound (.lease l) := by
  unfold heldActiveLease at hl
  split at hl
  · exact h.leases _ l (Option.filter_eq_some_iff.mp hl).1
  · cases hl

/-- Restamped continuations carry what they carried. -/
theorem carries_continuations {p : ContinuationRecord → Bool}
    {f : ContinuationRecord → ContinuationRecord}
    (hf : ∀ c, (f c).bindings = c.bindings) :
    ∀ e ∈ ((st.continuations.records.filter p).map f).map JournalEntry.continuation,
      e.Carries WellBound := by
  intro e he
  obtain ⟨c', hc', rfl⟩ := List.mem_map.mp he
  obtain ⟨c, hc, rfl⟩ := List.mem_map.mp hc'
  have hstored := h.continuations c.id c
    ((Table.find_eq_some_iff _ _ _).mpr ⟨List.mem_of_mem_filter hc, rfl⟩)
  exact wellBound_of_same hstored (congrArg some (hf c))

theorem carries_continuationRecords (hx : WellBound (.execution x)) (hc : c.bindings = x.bindings) :
    ∀ e ∈ continuationRecords st x c, e.Carries WellBound := by
  intro e he
  rcases List.mem_append.mp he with he | he
  · exact carries_continuations h (f := fun c => { c with state := .stale }) (fun _ => rfl) e he
  · simp only [List.mem_cons, List.not_mem_nil, or_false] at he
    rcases he with rfl | rfl
    · exact wellBound_of_same hx (congrArg some hc)
    · exact wellBound_of_same hx rfl

end Records

/-! ## Copies -/

theorem bindings_promotes {x : ExecutionRecord} {a : ActionRecord} {g : CommitGroupRecord}
    (hg : Promotes x a g) : g.execution.bindings = x.bindings := by
  obtain ⟨epoch, hexecution⟩ := hg.execution
  rw [hexecution]
  rfl

theorem carries_commitGroup {x : ExecutionRecord} {a : ActionRecord} {g : CommitGroupRecord}
    (hg : Promotes x a g) (hx : WellBound (.execution x)) :
    (JournalEntry.commitGroup g).Carries WellBound :=
  ⟨wellBound_unbound rfl, wellBound_unbound rfl, wellBound_unbound rfl,
    carries_execution hx (bindings_promotes hg)⟩

theorem bindings_underPolicy (x : ExecutionRecord) (generation : Nat) :
    (underPolicy x generation).bindings = x.bindings := by
  unfold underPolicy ExecutionRecord.withoutLease
  dsimp only
  split
  · split <;> rfl
  · rfl

theorem bindings_transitioned (st : DurableState) (x : ExecutionRecord) (target : Lifecycle) :
    (transitioned st x target).bindings = x.bindings := by
  unfold transitioned ExecutionRecord.withoutLease
  dsimp only
  split <;> rfl

theorem bindings_nextGeneration (x : ExecutionRecord) :
    (nextGeneration x).bindings = x.bindings := by
  unfold nextGeneration ExecutionRecord.withoutLease
  dsimp only
  split <;> rfl

theorem bindings_recoveredExecution (st : DurableState) (x next : ExecutionRecord)
    (plan : RecoveryPlan) :
    (recoveredExecution st x (atPlannedCheckpoint next plan) plan).bindings = next.bindings := by
  unfold recoveredExecution atPlannedCheckpoint
  dsimp only
  split <;> rfl

theorem bindings_blockedBy (st : DurableState) (x : ExecutionRecord) (amb : AmbiguityRecord)
    (a : ActionRecord) : (blockedBy st x amb a).bindings = x.bindings := by
  unfold blockedBy
  dsimp only
  split <;> rfl

section Transactions

variable {j : Journaled} {x : ExecutionRecord}

theorem carries_enterCheckpointing (hx : WellBound (.execution x)) :
    ∀ e ∈ enterCheckpointing x, e.Carries WellBound := by
  intro e he
  unfold enterCheckpointing at he
  split at he
  · rw [List.mem_singleton.mp he]
    exact carries_execution hx rfl
  · cases he

theorem carries_demotionRecords (h : j.state.image.Holds WellBound) (hx : WellBound (.execution x))
    {c : CheckpointRecord} (hc : c.bindings = x.bindings) :
    ∀ e ∈ demotionRecords j x c, e.Carries WellBound := by
  have hnew : ∀ e ∈ newCheckpointRecords x c, e.Carries WellBound := by
    intro e he
    rcases List.mem_append.mp he with he | he
    · exact carries_enterCheckpointing hx e he
    · rw [List.mem_singleton.mp he]
      exact wellBound_of_same hx (congrArg some hc)
  intro e he
  rcases List.mem_append.mp he with he | he
  · exact hnew e he
  · obtain ⟨d, hd, rfl⟩ := List.mem_map.mp he
    obtain ⟨previous, state, hprevious, rfl⟩ := demotedCheckpoint_some (Option.mem_toList.mp hd)
    have hwritten : (j.write (newCheckpointRecords x c)).state.image.Holds WellBound := by
      rw [Journaled.image_write]
      exact h.installAll hnew
    exact wellBound_of_same (hwritten.checkpoints _ previous hprevious) rfl

theorem carries_checkpointRecords (h : j.state.image.Holds WellBound) (hx : WellBound (.execution x))
    {c : CheckpointRecord} (hc : c.bindings = x.bindings) :
    ∀ e ∈ checkpointRecords j x c, e.Carries WellBound := by
  have hdemoted := carries_demotionRecords h hx hc
  intro e he
  rcases List.mem_append.mp he with he | he
  · exact hdemoted e he
  · have hwritten : (j.write (demotionRecords j x c)).state.image.Holds WellBound := by
      rw [Journaled.image_write]
      exact h.installAll hdemoted
    have hnext : WellBound (.execution (checkpointedExecution x c)) := wellBound_of_same hx rfl
    exact carries_continuationRecords hwritten hnext rfl e he

theorem carries_recoveryRecords (hx : WellBound (.execution x)) {next : ExecutionRecord}
    (hnext : next.bindings = x.bindings) (plan : RecoveryPlan) (inFlight : Option ActionRecord) :
    ∀ e ∈ recoveryRecords j.state x next plan inFlight, e.Carries WellBound := by
  intro e he
  simp only [recoveryRecords, List.mem_cons, List.not_mem_nil, or_false] at he
  rcases he with rfl | rfl
  · exact wellBound_unbound rfl
  · exact carries_execution hx ((bindings_recoveredExecution _ _ _ _).trans hnext)

theorem carries_fenceRecords (h : j.state.image.Holds WellBound) (hx : WellBound (.execution x)) :
    ∀ e ∈ fenceRecords j.state x, e.Carries WellBound := by
  have hnext : (if isLegalTransition x.lifecycle .fenced = true then { x with lifecycle := .fenced }
      else x).bindings = x.bindings := by split <;> rfl
  intro e he
  unfold fenceRecords at he
  split at he
  · cases he
  · dsimp only at he
    split at he
    · rcases List.mem_append.mp he with he | he
      · exact carries_leaseAs (fun l hl => h.leases _ l hl) _ e he
      · rw [List.mem_singleton.mp he]
        exact carries_execution hx hnext
    · rw [List.mem_singleton.mp he]
      exact carries_execution hx hnext

theorem carries_resolution {a : ActionRecord} {g : CommitGroupRecord} (hg : Promotes x a g)
    (hx : WellBound (.execution x)) (amb : AmbiguityRecord) :
    ∀ e ∈ [JournalEntry.commitGroup g, .ambiguity amb, .execution g.execution.unblocked],
      e.Carries WellBound := by
  rw [List.forall_mem_cons, List.forall_mem_cons, List.forall_mem_singleton]
  exact ⟨carries_commitGroup hg hx, wellBound_unbound rfl,
    carries_execution hx (bindings_promotes hg)⟩

/-- What a transaction other than a bind or a resume writes carries binding sets already stored. -/
theorem Transaction.wellBound {i : Intent} {es : List JournalEntry} (ht : Transaction j i es)
    (h : j.state.image.Holds WellBound) (hbind : ∀ e, i ≠ .bind e) (hresume : ∀ e, i ≠ .resume e) :
    ∀ e ∈ es, e.Carries WellBound := by
  have hstored : ∀ {y : ExecutionRecord}, j.state.executions.find y.id = some y →
      WellBound (.execution y) := fun hy => h.executions _ _ hy
  have htoken : ∀ {t : LeaseToken} {y : ExecutionRecord} {l : LeaseRecord},
      validateToken j.state t = .ok (y, l) → WellBound (.execution y) := fun ht =>
    h.executions _ _ (validateToken_execution ht).1
  cases ht with
  | create policy hid =>
    rw [List.forall_mem_cons, List.forall_mem_cons, List.forall_mem_singleton]
    exact ⟨wellBound_unbound rfl, wellBound_unbound rfl, wellBound_execution rfl⟩
  | updatePolicy policy hx hgeneration =>
    rw [List.forall_mem_cons, List.forall_mem_append, List.forall_mem_append,
      List.forall_mem_singleton]
    refine ⟨wellBound_unbound rfl, ⟨?_, ?_⟩, ?_⟩
    · exact carries_leaseAs (wellBound_heldLease h) _
    · exact carries_continuations h (fun _ => rfl)
    · exact carries_execution (hstored hx) (bindings_underPolicy _ _)
  | bind request hx => exact absurd rfl (hbind _)
  | @start x l token ht hready =>
    have hnext : WellBound (.execution (startedExecution j.state x)) :=
      wellBound_of_same (htoken ht) rfl
    exact carries_continuationRecords h hnext rfl
  | begin request ht hrunning hblocked =>
    rw [List.forall_mem_append, List.forall_mem_cons, List.forall_mem_singleton]
    refine ⟨?_, wellBound_unbound rfl, carries_execution (htoken ht) rfl⟩
    intro e he
    obtain ⟨a, -, rfl⟩ := List.mem_map.mp he
    exact wellBound_unbound rfl
  | complete request ht hrunning ha hfresh hdefect hcommit =>
    rw [List.forall_mem_singleton]
    exact carries_commitGroup (commitGroupOf_promotes _ _ _ _ _) (htoken ht)
  | fail request ht ha howner hcommitted hambiguous =>
    rw [List.forall_mem_singleton]
    exact wellBound_unbound rfl
  | report request ht ha hcommitted hambiguous habandoned =>
    rw [List.forall_mem_singleton]
    exact wellBound_unbound rfl
  | enterCheckpoint request ht hlifecycle => exact carries_enterCheckpointing (htoken ht)
  | checkpoint request ht hlifecycle hdepth => exact carries_checkpointRecords h (htoken ht) rfl
  | enterResume request ht => exact absurd rfl (hresume _)
  | resume request ht => exact absurd rfl (hresume _)
  | recoverPlain hx hlive hopens hreceipt => exact carries_recoveryRecords (hstored hx) rfl _ _
  | recoverAmbiguous hx hlive hopens ha =>
    unfold ambiguityRecords
    rw [List.forall_mem_cons, List.forall_mem_cons]
    exact ⟨wellBound_unbound rfl, wellBound_unbound rfl,
      carries_recoveryRecords (hstored hx) (bindings_blockedBy _ _ _ _) _ _⟩
  | @recoverCommit x a request hx hlive hreceipt ha hcommit =>
    have hg := commitGroupOf_promotes j.state x a request a.receipt
    unfold receiptRecords
    rw [List.forall_mem_cons]
    generalize commitGroupOf j.state x a request a.receipt = g at hg ⊢
    exact ⟨carries_commitGroup hg (hstored hx),
      carries_recoveryRecords (hstored hx) (bindings_promotes hg) _ _⟩
  | @resolveCommit x amb a request hx hamb howner hopen ha hresolution hcommit =>
    exact carries_resolution (commitGroupOf_promotes _ _ _ _ _) (hstored hx) _
  | resolveAction request status hx hamb howner hopen ha hresolution =>
    rw [List.forall_mem_cons, List.forall_mem_cons, List.forall_mem_singleton]
    exact ⟨wellBound_unbound rfl, wellBound_unbound rfl, carries_execution (hstored hx) rfl⟩
  | resolveManual request hx hamb howner hopen ha hresolution =>
    rw [List.forall_mem_cons, List.forall_mem_singleton]
    exact ⟨wellBound_unbound rfl, carries_execution (hstored hx) rfl⟩
  | transition target hx hlegal hambiguity =>
    rw [List.forall_mem_append, List.forall_mem_singleton]
    refine ⟨?_, carries_execution (hstored hx) (bindings_transitioned _ _ _)⟩
    split
    · exact carries_leaseAs (wellBound_heldActiveLease h) _
    · exact fun e he => (by cases he)
  | advance hx hlive =>
    rw [List.forall_mem_append, List.forall_mem_append, List.forall_mem_singleton]
    refine ⟨⟨carries_continuations h (fun _ => rfl), ?_⟩, ?_⟩
    · exact carries_leaseAs (wellBound_heldActiveLease h) _
    · exact carries_execution (hstored hx) (bindings_nextGeneration _)
  | lose hx hlive => exact carries_fenceRecords h (hstored hx)

end Transactions

/-! ## Every run -/

/-- The call is a resume that passes its checks and offers a binding set with a defect. -/
def BindsUnsound (s : Runtime) (c : Call) : Prop :=
  ∃ request x l, c = .resume request ∧ Resumable s request x l ∧
    bindingSetDefect request.observedBindings ≠ none

theorem bind_wellBound {s : Runtime} {caller : CallerContext} {request : BindWorkerRequest}
    {es : List JournalEntry} (hj : ((bindWorker caller request).exec s).2.toJournaled =
      s.toJournaled.write es) (h : s.state.image.Holds WellBound) : ∀ e ∈ es, e.Carries WellBound := by
  have hends := bindWorker_ends s caller request
  unfold Leads at hends
  generalize ((bindWorker caller request).exec s).2 = s' at hends hj
  rcases hends with hquiet | ⟨x, hx, hdefect, hwrote⟩
  · have hnone : [] = es := Journaled.write_injective (hquiet.journaled.symm.trans hj)
    rw [← hnone]
    exact fun e he => (by cases he)
  · rw [← Journaled.write_injective (hwrote.journaled.symm.trans hj)]
    unfold bindRecords
    rw [List.forall_mem_append, List.forall_mem_cons, List.forall_mem_singleton]
    refine ⟨carries_leaseAs (wellBound_heldActiveLease h) _, ?_, wellBound_execution hdefect⟩
    intro b hb
    exact Option.some.inj hb ▸ hdefect

theorem carries_resumeRecords {j : Journaled} {x : ExecutionRecord} {bindings : BindingSet}
    (h : j.state.image.Holds WellBound) (hdefect : bindingSetDefect bindings = none) :
    ∀ e ∈ resumeRecords j x bindings, e.Carries WellBound := by
  have hentered : WellBound (.execution (resumingExecution j.state x bindings)) :=
    wellBound_execution hdefect
  have hstate : (resumingState j x bindings).image.Holds WellBound := by
    unfold resumingState
    rw [Journaled.image_put]
    exact Image.Holds.install (e := .execution _) h hentered
  unfold resumeRecords
  rw [List.forall_mem_cons]
  have hrunning : WellBound
      (.execution { resumingExecution j.state x bindings with lifecycle := .running }) :=
    wellBound_execution hdefect
  exact ⟨hentered, carries_continuationRecords hstate hrunning rfl⟩

theorem resume_wellBound {s : Runtime} {request : ResumeRequest} {es : List JournalEntry}
    (hj : ((resume request).exec s).2.toJournaled = s.toJournaled.write es)
    (h : s.state.image.Holds WellBound) (hsound : ¬ BindsUnsound s (.resume request)) :
    ∀ e ∈ es, e.Carries WellBound := by
  have hends : ResumeEnds s request ((resume request).exec s).1 ((resume request).exec s).2 :=
    resume_ends s request
  have hdefect : ∀ x l, Resumable s request x l → bindingSetDefect request.observedBindings = none :=
    fun x l hchecked => by
      by_contra hne
      exact hsound ⟨request, x, l, rfl, hchecked, hne⟩
  generalize ((resume request).exec s).1 = r at hends
  generalize ((resume request).exec s).2 = s' at hends hj
  cases hends with
  | quiet hquiet =>
    have hnone : [] = es := Journaled.write_injective hj
    rw [← hnone]
    exact fun e he => (by cases he)
  | entered e hchecked hwrote =>
    rw [← Journaled.write_injective (hwrote.journaled.symm.trans hj), List.forall_mem_singleton]
    exact wellBound_execution (hdefect _ _ hchecked)
  | resumed hchecked hvalid hwrote =>
    rw [← Journaled.write_injective (hwrote.journaled.symm.trans hj)]
    exact carries_resumeRecords h (hdefect _ _ hchecked)

theorem bindings_restarted (st : DurableState) (epoch : Nat) (x : ExecutionRecord) :
    (restarted st epoch x).bindings = x.bindings := by
  have hstale : (withoutStaleLease st epoch x).bindings = x.bindings := by
    unfold withoutStaleLease
    split
    · split
      · split <;> rfl
      · rfl
    · rfl
  unfold restarted
  dsimp only
  split <;> exact hstale

theorem restart_wellBound {j : Journaled} (h : j.state.image.Holds WellBound) :
    ∀ e ∈ restartRecords j, e.Carries WellBound := by
  have hwritten : ∀ es : List JournalEntry, (∀ e ∈ es, e.Carries WellBound) →
      (j.write es).state.image.Holds WellBound := by
    intro es hes
    rw [Journaled.image_write]
    exact h.installAll hes
  have hmeta : ∀ e ∈ [JournalEntry.storeMeta (nextEpochMeta j.state)], e.Carries WellBound := by
    rw [List.forall_mem_singleton]
    exact wellBound_unbound rfl
  have hrevoked : ∀ e ∈ revocationRecords j, e.Carries WellBound := by
    refine List.forall_mem_append.mpr ⟨hmeta, fun e he => ?_⟩
    obtain ⟨l', hl', rfl⟩ := List.mem_map.mp he
    obtain ⟨l, hl, rfl⟩ := List.mem_map.mp hl'
    have hstored := (hwritten _ hmeta).leases l.id l
      ((Table.find_eq_some_iff _ _ _).mpr ⟨List.mem_of_mem_filter hl, rfl⟩)
    exact wellBound_of_same hstored rfl
  have hreclassified : ∀ e ∈ reclassificationRecords j, e.Carries WellBound := by
    refine List.forall_mem_append.mpr ⟨hrevoked, fun e he => ?_⟩
    obtain ⟨x', hx', rfl⟩ := List.mem_map.mp he
    obtain ⟨x, hx, rfl⟩ := List.mem_map.mp hx'
    have hstored := (hwritten _ hrevoked).executions x.id x
      ((Table.find_eq_some_iff _ _ _).mpr ⟨List.mem_of_mem_filter hx, rfl⟩)
    exact carries_execution hstored (bindings_restarted _ _ _)
  exact List.forall_mem_append.mpr ⟨hreclassified,
    carries_continuations (hwritten _ hreclassified) fun _ => rfl⟩

theorem wellBound_law : RecordLaw WellBound fun s c => ¬ BindsUnsound s c where
  repairable :=
    { reaching := fun x _ _ hx => wellBound_of_same hx rfl
      promoted := fun x _ _ _ _ hx => wellBound_of_same hx rfl
      sealing := fun _ _ _ => wellBound_unbound rfl }
  transaction := by
    intro s c i es hallow hi hj ht h
    by_cases hbind : ∃ e, i = .bind e
    · obtain ⟨e, rfl⟩ := hbind
      cases c <;> simp only [Call.intent, reduceCtorEq, Option.some.injEq] at hi
      exact bind_wellBound hj h
    by_cases hresume : ∃ e, i = .resume e
    · obtain ⟨e, rfl⟩ := hresume
      cases c <;> simp only [Call.intent, reduceCtorEq, Option.some.injEq] at hi
      exact resume_wellBound hj h hallow
    exact ht.wellBound h (fun e he => hbind ⟨e, he⟩) fun e he => hresume ⟨e, he⟩
  lose := fun ht h => ht.wellBound h (fun _ he => (by cases he)) fun _ he => (by cases he)
  recover := fun ht h => ht.wellBound h (fun _ he => (by cases he)) fun _ he => (by cases he)
  restart := restart_wellBound

/-- No stored binding set has a defect. -/
structure BindingsSound (st : DurableState) : Prop where
  executions : ∀ k x, st.executions.find k = some x → bindingSetDefect x.bindings = none
  leases : ∀ k l, st.leases.find k = some l → bindingSetDefect l.bindings = none
  continuations : ∀ k c, st.continuations.find k = some c → bindingSetDefect c.bindings = none
  checkpoints : ∀ k c, st.checkpoints.find k = some c → bindingSetDefect c.bindings = none

/-- **As long as no resume brings in a defect, no stored binding set has one.** -/
theorem stored_bindings_sound {events : List Event} {s : Runtime}
    (hrun : Runs (admitting fun s c => ¬ BindsUnsound s c) {} events s) : BindingsSound s.state := by
  have h := (wellBound_law.keeps hrun secured_start holds_start).memory
  exact ⟨fun k x hx => h.executions k x hx _ rfl, fun k l hl => h.leases k l hl _ rfl,
    fun k c hc => h.continuations k c hc _ rfl, fun k c hc => h.checkpoints k c hc _ rfl⟩

/-- A suspended execution is resumed with its own bindings. -/
def soundResume : List Event :=
  suspendedRun ++ [.call (.resume { token := secondToken (deriveExecutionId ⟨1⟩ 1) ⟨2⟩ ⟨7⟩ })]

theorem stored_bindings_sound_resumed : BindingsSound (performAll soundResume {}).state := by
  refine stored_bindings_sound (runs_of_forall soundResume {} ?_)
  rintro e he s c rfl ⟨request, x, l, rfl, -, hdefect⟩
  have hresume : Event.call (.resume request) =
      .call (.resume { token := secondToken (deriveExecutionId ⟨1⟩ 1) ⟨2⟩ ⟨7⟩ }) := by
    simpa [soundResume, suspendedRun, openAs, createOne, bindTo] using he
  cases hresume
  exact hdefect rfl

/-- `conflictedResume` leaves its own binding set behind. -/
theorem stored_bindings_unsound :
    ¬ ∀ (events : List Event) (s : Runtime), Runs anyEvent {} events s → BindingsSound s.state := by
  intro h
  let events := suspendedRun ++ [.call conflictedResume]
  let s := performAll events {}
  have hsound := h events s (runs_performAll events {})
  let x := (s.state.executions.find (deriveExecutionId ⟨1⟩ 1)).getD {}
  have hx : s.state.executions.find (deriveExecutionId ⟨1⟩ 1) = some x := by decide +kernel
  have hdefect : bindingSetDefect x.bindings ≠ none := by decide +kernel
  exact hdefect (hsound.executions _ x hx)

end ExecutionFabric
