import ExecutionFabric.Audit.Grounds
import ExecutionFabric.Model.Audit

/-!
# What the fields of a record say

Two laws of records that make the auditor's checks of single records succeed. `Numbered`
is about the generations and ordinals the fabric counts itself; `Vetted` is about what it
takes from a request, and checks first.
-/
namespace ExecutionFabric

open Lib Program

/-- The incarnation is the one derived for its generation, or there is none yet. -/
def ExecutionRecord.Incarnate (x : ExecutionRecord) : Prop :=
  (x.incarnation = .nil ∧ x.incarnationGeneration = 0) ∨
    (0 < x.incarnationGeneration ∧
      x.incarnation = deriveIncarnationId x.id x.incarnationGeneration)

/-- What is counted has been counted. -/
def Numbered : JournalEntry → Prop
  | .execution x => 0 < x.generation ∧ 0 < x.policyGeneration ∧ x.Incarnate
  | .action a => 0 < a.generation ∧ 0 < a.sequence
  | .progress p => 0 < p.generation ∧ p.committed = true
  | .checkpoint c => 0 < c.generation ∧ (c.state = .verified ∨ c.state = .superseded)
  | .recovery r => r.decision < recoveryDecisionCount
  | _ => True

/-- What a request brings in was checked. -/
def Vetted : JournalEntry → Prop
  | .policy p => validatePolicy p = none
  | .action a => requiresRequestKey a.effectClass = true → a.requestKey ≠ []
  | .checkpoint c => c.contentHash ≠ 0
  | _ => True

/-! ## What is counted -/

section Numbers

variable {j : Journaled} {i : Intent} {es : List JournalEntry} {x y next : ExecutionRecord}

theorem decision_ordinal_lt (d : RecoveryDecision) : d.ordinal < recoveryDecisionCount := by
  cases d <;> decide

theorem incarnate_incarnated (h : x.Incarnate) (boot : WorkerBootId) :
    (incarnated x boot).Incarnate := by
  unfold incarnated
  split
  · exact h
  · exact .inr ⟨Nat.succ_pos _, rfl⟩

theorem incarnate_underPolicy (h : x.Incarnate) (generation : Nat) :
    (underPolicy x generation).Incarnate := by
  unfold underPolicy ExecutionRecord.withoutLease
  dsimp only
  split
  · split <;> exact h
  · exact h

theorem incarnate_boundExecution (h : x.Incarnate) (st : DurableState)
    (request : BindWorkerRequest) : (boundExecution st x request).Incarnate :=
  incarnate_incarnated h request.boot

theorem incarnate_blockedBy (h : x.Incarnate) (st : DurableState) (amb : AmbiguityRecord)
    (a : ActionRecord) : (blockedBy st x amb a).Incarnate := by
  unfold blockedBy
  dsimp only
  split <;> exact h

theorem incarnate_recoveredFrom (h : next.Incarnate) : (recoveredFrom j x next).Incarnate := by
  have hplanned : (atPlannedCheckpoint next (planOf j x)).Incarnate := by
    unfold atPlannedCheckpoint
    split <;> exact h
  exact hplanned

theorem incarnate_promotes (h : x.Incarnate) {a : ActionRecord} {g : CommitGroupRecord}
    (hg : Promotes x a g) : g.execution.Incarnate := by
  obtain ⟨epoch, hexecution⟩ := hg.execution
  rw [hexecution]
  exact h

theorem incarnate_transitioned (h : x.Incarnate) (st : DurableState) (target : Lifecycle) :
    (transitioned st x target).Incarnate := by
  unfold transitioned ExecutionRecord.withoutLease
  dsimp only
  split <;> exact h

theorem incarnate_nextGeneration (h : x.Incarnate) : (nextGeneration x).Incarnate := by
  unfold nextGeneration ExecutionRecord.withoutLease
  dsimp only
  split <;> exact h

theorem incarnate_fencedExecution (h : x.Incarnate) : (fencedExecution x).Incarnate := by
  unfold fencedExecution ExecutionRecord.withoutLease
  dsimp only
  split <;> split <;> exact h

theorem incarnate_continuedBy (h : x.Incarnate) (c : ContinuationRecord) :
    (x.continuedBy c).Incarnate := h

theorem incarnate_unblocked (h : x.Incarnate) : x.unblocked.Incarnate := h

/-- An operation keeps the incarnation or opens the next one. -/
theorem Succession.incarnate {vs : List JournalEntry} (hs : Succession j i x y vs)
    (h : x.Incarnate) : y.Incarnate := by
  cases hs with
  | updatePolicy generation hgeneration => exact incarnate_underPolicy h _
  | bind request hbindable hlive => exact incarnate_boundExecution h _ _
  | start token htoken hready =>
    have hstarted : (startedExecution j.state x).Incarnate := h
    exact incarnate_continuedBy hstarted _
  | @complete _ l a request htoken hrunning ha hdefect =>
    exact incarnate_promotes h (commitGroupOf_promotes j.state x a request.request request.evidence)
  | @checkpoint _ l depth request htoken hlifecycle =>
    have hrunning : ∀ c, (checkpointedExecution x c).Incarnate := fun _ => h
    exact incarnate_continuedBy (hrunning _) _
  | resume request htoken hresumable hrecovery hvalid =>
    have hrunning : ({ resumingExecution j.state x request.observedBindings with
        lifecycle := .running } : ExecutionRecord).Incarnate := h
    exact incarnate_continuedBy hrunning _
  | recoverPlain hlive hopens hreceipt => exact incarnate_recoveredFrom h
  | recoverAmbiguous hlive hopens ha => exact incarnate_recoveredFrom (incarnate_blockedBy h _ _ _)
  | @recoverCommit _ a request hlive hreceipt ha =>
    exact incarnate_recoveredFrom
      (incarnate_promotes h (commitGroupOf_promotes j.state x a request a.receipt))
  | @resolveCommit _ amb a request hamb howner hopen ha hresolution =>
    exact incarnate_unblocked (incarnate_promotes h
      (commitGroupOf_promotes j.state x a request.request request.evidence))
  | resolveAction request status hamb howner hopen ha hresolution => exact incarnate_unblocked h
  | transition target hlegal => exact incarnate_transitioned h _ _
  | advance hlive =>
    have hadvanced := incarnate_nextGeneration h
    exact hadvanced
  | lose hlive => exact incarnate_fencedExecution h
  | _ => exact h

theorem incarnate_restarted (h : x.Incarnate) (st : DurableState) (epoch : Nat) :
    (restarted st epoch x).Incarnate := by
  have hstale : (withoutStaleLease st epoch x).Incarnate := by
    unfold withoutStaleLease ExecutionRecord.withoutLease
    split
    · split
      · split <;> exact h
      · exact h
    · exact h
  unfold restarted
  dsimp only
  split <;> exact hstale

/-- A later version of a numbered execution is numbered. -/
theorem numbered_of_marks (hx : Numbered (.execution x)) (hle : x.marks.Le y.marks)
    (hy : y.Incarnate) : Numbered (.execution y) :=
  ⟨Nat.lt_of_lt_of_le hx.1 hle.generation, Nat.lt_of_lt_of_le hx.2.1 hle.policyGeneration, hy⟩

theorem Version.numbered (hv : Version j i y) (hpublic : i.Public)
    (h : j.state.image.Holds Numbered) : Numbered (.execution y) := by
  cases hv with
  | created hi hy =>
    subst hy
    exact ⟨Nat.one_pos, Nat.one_pos, .inl ⟨rfl, rfl⟩⟩
  | @succeeded x vs hx hsuccession =>
    have hstored : Numbered (.execution x) := h.executions _ x hx
    exact numbered_of_marks hstored (hsuccession.marks hpublic) (hsuccession.incarnate hstored.2.2)
  | @promoted x a g hx hg hepoch hy =>
    subst hy
    have hstored : Numbered (.execution x) := h.executions _ x hx
    exact numbered_of_marks hstored (marks_promotes hg) (incarnate_promotes hstored.2.2 hg)

/-- The ordinal of a begun action is the next one, or the one of the action it re-drives. -/
theorem numbered_begunAction (h : j.state.image.Holds Numbered) (request : BeginActionRequest) :
    Numbered (.action (begunAction x request (redriven x (j.latestAction x.id)))) := by
  cases hredriven : redriven x (j.latestAction x.id) with
  | none => exact ⟨Nat.one_pos, Nat.succ_pos _⟩
  | some a =>
    obtain ⟨hlatest, hsequence, -⟩ := redriven_some hredriven
    have hstored : ∃ k, j.state.image.actions k = some a := by
      unfold Journaled.latestAction at hlatest
      split at hlatest
      · cases hlatest
      · exact ⟨_, hlatest⟩
    obtain ⟨k, hk⟩ := hstored
    have hnumbered : Numbered (.action a) := h.actions k a hk
    refine ⟨Nat.succ_pos _, ?_⟩
    show 0 < x.actionFrontier
    rw [← hsequence]
    exact hnumbered.2

theorem Origin.numbered (hpublic : i.Public) (h : j.state.image.Holds Numbered) {e : JournalEntry}
    (ho : Origin j i es e) : e.Carries Numbered := by
  cases ho with
  | execution hy => exact hy.numbered hpublic h
  | @group x a g hx ha hg hgeneration =>
    obtain ⟨evidence, hsealed⟩ := hg.action
    have hstored : Numbered (.execution x) := h.executions _ x hx
    refine ⟨trivial, ⟨?_, hg.committed⟩, ?_,
      numbered_of_marks hstored (marks_promotes hg) (incarnate_promotes hstored.2.2 hg)⟩
    · rw [hg.generation]
      exact Nat.succ_pos _
    · rw [hsealed]
      exact h.actions _ a ha
  | @action a status receipt ha hstatus =>
    have hstored : Numbered (.action a) := h.actions _ a ha
    exact hstored
  | begun request hi hx => exact numbered_begunAction h request
  | @checkpoint c state hstate hc =>
    have hstored : Numbered (.checkpoint c) := h.checkpoints _ c hc
    exact ⟨hstored.1, hstate⟩
  | registered request depth state hi hstate hx hlifecycle => exact ⟨Nat.succ_pos _, hstate⟩
  | recovery inFlight hx => exact decision_ordinal_lt _
  | _ => trivial

theorem restart_numbered (h : j.state.image.Holds Numbered) :
    ∀ e ∈ restartRecords j, e.Carries Numbered := by
  intro e he
  cases restartRecords_origins j e he with
  | @execution x st epoch hx =>
    have hstored : Numbered (.execution x) := h.executions _ x hx
    exact numbered_of_marks hstored (marks_restarted st epoch)
      (incarnate_restarted hstored.2.2 st epoch)
  | _ => trivial

end Numbers

theorem numbered_law : RecordLaw Numbered fun _ _ => True where
  repairable :=
    { reaching := fun _ _ _ hx => hx
      promoted := fun _ _ _ _ _ hx => hx
      sealing := fun _ _ ha => ha }
  transaction := fun _ hi _ ht h e he => (ht.origins e he).numbered (Call.intent_public hi) h
  lose := fun {_ e _} ht h e' he' => by
    have hpublic : Intent.Public (.lose e) := trivial
    exact (ht.origins e' he').numbered hpublic h
  recover := fun {_ e _} ht h e' he' => by
    have hpublic : Intent.Public (.recover e) := trivial
    exact (ht.origins e' he').numbered hpublic h
  restart := restart_numbered

/-! ## What is checked -/

section Checks

variable {j : Journaled} {i : Intent} {es : List JournalEntry} {x : ExecutionRecord} {s : Runtime}

/-- The records of a transaction that brings nothing in are vetted like the stored ones. -/
theorem Origin.vetted (h : j.state.image.Holds Vetted) (hcreate : i ≠ .create)
    (hpolicy : ∀ e, i ≠ .updatePolicy e) (hbegin : ∀ e, i ≠ .begin e)
    (hcheckpoint : ∀ e, i ≠ .checkpoint e) {e : JournalEntry} (ho : Origin j i es e) :
    e.Carries Vetted := by
  cases ho with
  | policy p hi =>
    rcases hi with hi | ⟨e, hi⟩
    · exact absurd hi hcreate
    · exact absurd hi (hpolicy e)
  | @group x a g hx ha hg hgeneration =>
    obtain ⟨evidence, hsealed⟩ := hg.action
    have hstored : Vetted (.action a) := h.actions _ a ha
    refine ⟨trivial, trivial, ?_, trivial⟩
    rw [hsealed]
    exact hstored
  | @action a status receipt ha hstatus =>
    have hstored : Vetted (.action a) := h.actions _ a ha
    exact hstored
  | begun request hi hx => exact absurd hi (hbegin _)
  | @checkpoint c state hstate hc =>
    have hstored : Vetted (.checkpoint c) := h.checkpoints _ c hc
    exact hstored
  | registered request depth state hi hstate hx hlifecycle => exact absurd hi (hcheckpoint _)
  | _ => trivial

theorem policyDefect_none {p : ExecutionPolicy} (h : policyDefect p = none) :
    validatePolicy p = none := Option.map_eq_none_iff.mp h

/-- What was appended between `s` and `s'` is vetted. -/
def Vets (s s' : Runtime) : Prop :=
  ∃ es, s'.store.history = s.store.history ++ es ∧ ∀ e ∈ es, e.Carries Vetted

theorem Vets.refl (s : Runtime) : Vets s s :=
  ⟨[], (List.append_nil _).symm, fun e he => by cases he⟩

theorem Vets.written {s' : Runtime} (h : Vets s s')
    (hj : s'.toJournaled = s.toJournaled.write es) : ∀ e ∈ es, e.Carries Vetted := by
  obtain ⟨fs, hhistory, hfs⟩ := h
  have hwritten : s'.store.history = s.store.history ++ es := by
    rw [hj]
    exact Journaled.history_write _ _
  rw [List.append_cancel_left (hwritten.symm.trans hhistory)]
  exact hfs

theorem createExecution_vets (s : Runtime) (caller : CallerContext)
    (request : CreateExecutionRequest) :
    Leads (createExecution caller request) s fun _ s' => Vets s s' := by
  unfold createExecution
  apply leads_get
  apply leads_check
  · intro e _
    exact .refl s
  intro _ _
  split
  · exact leads_pure (.refl s)
  apply leads_refuseIf
  · intro _
    exact .refl s
  intro _
  apply leads_refuseOn
  · intro e _
    exact .refl s
  intro hdefect
  apply leads_update
  apply leads_update
  apply leads_put
  apply leads_put
  apply leads_remember
  apply leads_pure
  refine ⟨[.storeMeta (advancedMeta s.state), .policy { request.policy with
      id := derivePolicyId (deriveExecutionId s.state.store s.state.nextExecutionSequence) 1
      generation := 1 }, .execution (createdExecution s.state)], ?_, ?_⟩
  · rw [Runtime.toJournaled_remember, List.append_cons, List.append_cons]
    rfl
  · rw [List.forall_mem_cons, List.forall_mem_cons, List.forall_mem_singleton]
    exact ⟨trivial, policyDefect_none hdefect, trivial⟩

theorem updatePolicy_vets (s : Runtime) (caller : CallerContext) (request : RequestId)
    (executionId : ExecutionId) (policy : ExecutionPolicy) (apply : Bool) :
    Leads (updatePolicy caller request executionId policy apply) s fun _ s' => Vets s s' := by
  unfold updatePolicy
  apply leads_get
  apply leads_check
  · intro e _
    exact .refl s
  intro _ _
  apply leads_refuseIf
  · intro _
    exact .refl s
  intro _
  apply leads_require
  · intro _
    exact .refl s
  intro x hx
  apply leads_refuseOn
  · intro e _
    exact .refl s
  intro hdefect
  apply leads_ite
  · intro _
    exact leads_pure (.refl s)
  intro _
  apply leads_put
  apply leads_providedLease
  apply leads_providedLegal fun h => isLegalTransition_of_active x.lifecycle h.2
  apply leads_putAll
  apply leads_put
  apply leads_remember_last
  refine ⟨.policy { policy with id := x.policy, generation := x.policyGeneration + 1 } ::
    ((leaseAs (heldLease s.state x) .revoked ++
      (demotedContinuations s.state executionId
        { policy with id := x.policy, generation := x.policyGeneration + 1 }).map .continuation) ++
      [.execution (underPolicy x (x.policyGeneration + 1))]), ?_, ?_⟩
  · rw [Runtime.toJournaled_remember, ← Journaled.history_write, leaseAs_heldLease,
      Journaled.write_cons, Journaled.write_append, Journaled.write_append]
    rfl
  · rw [List.forall_mem_cons, List.forall_mem_append, List.forall_mem_append,
      List.forall_mem_singleton]
    refine ⟨policyDefect_none hdefect, ⟨fun e he => ?_, fun e he => ?_⟩, trivial⟩
    · obtain ⟨l, -, rfl⟩ := List.mem_map.mp he
      trivial
    · obtain ⟨c, -, rfl⟩ := List.mem_map.mp he
      trivial

/-- An action is begun with the request key its class requires. -/
theorem beginAction_vets (s : Runtime) (request : BeginActionRequest) :
    Leads (beginAction request) s fun _ s' => s'.toJournaled = s.toJournaled ∨
      (requiresRequestKey request.effectClass = true → request.requestKey ≠ []) := by
  unfold beginAction
  apply leads_authorize
  · intro e
    exact .inl rfl
  intro x l hopen htoken
  apply leads_get
  split
  · split
    · exact leads_pure (.inl rfl)
    · exact leads_pure (.inl rfl)
  apply leads_refuseIf
  · intro _
    exact .inl rfl
  intro _
  apply leads_refuseIf
  · intro _
    exact .inl rfl
  intro hkey
  exact .inr fun hclass hempty => hkey ⟨hclass, hempty⟩

theorem vetted_beginRecords {request : BeginActionRequest}
    (hkey : requiresRequestKey request.effectClass = true → request.requestKey ≠ []) :
    ∀ e ∈ beginRecords s request x, e.Carries Vetted := by
  unfold beginRecords
  rw [List.forall_mem_append, List.forall_mem_cons, List.forall_mem_singleton]
  refine ⟨fun e he => ?_, hkey, trivial⟩
  obtain ⟨a, -, rfl⟩ := List.mem_map.mp he
  trivial

theorem vetted_enterCheckpointing : ∀ e ∈ enterCheckpointing x, e.Carries Vetted := by
  intro e he
  unfold enterCheckpointing at he
  split at he
  · rw [List.mem_singleton.mp he]
    trivial
  · cases he

theorem vetted_continuationRecords (st : DurableState) (y : ExecutionRecord)
    (c : ContinuationRecord) : ∀ e ∈ continuationRecords st y c, e.Carries Vetted := by
  unfold continuationRecords
  rw [List.forall_mem_append, List.forall_mem_cons, List.forall_mem_singleton]
  refine ⟨fun e he => ?_, trivial, trivial⟩
  obtain ⟨c, -, rfl⟩ := List.mem_map.mp he
  trivial

theorem vetted_checkpointRecords (h : j.state.image.Holds Vetted) {c : CheckpointRecord}
    (hc : c.contentHash ≠ 0) : ∀ e ∈ checkpointRecords j x c, e.Carries Vetted := by
  have hnew : ∀ e ∈ newCheckpointRecords x c, e.Carries Vetted := by
    unfold newCheckpointRecords
    rw [List.forall_mem_append, List.forall_mem_singleton]
    exact ⟨vetted_enterCheckpointing, hc⟩
  have hwritten : (j.write (newCheckpointRecords x c)).state.image.Holds Vetted := by
    rw [Journaled.image_write]
    exact h.installAll hnew
  unfold checkpointRecords demotionRecords
  rw [List.forall_mem_append, List.forall_mem_append]
  refine ⟨⟨hnew, fun e he => ?_⟩, vetted_continuationRecords _ _ _⟩
  obtain ⟨d, hd, rfl⟩ := List.mem_map.mp he
  obtain ⟨previous, state, -, hprevious, rfl⟩ :=
    demotedCheckpoint_demoted (Option.mem_toList.mp hd)
  have hstored : Vetted (.checkpoint previous) := hwritten.checkpoints _ previous hprevious
  exact hstored

theorem registerCheckpoint_vets {request : RegisterCheckpointRequest}
    (hj : ((registerCheckpoint request).exec s).2.toJournaled = s.toJournaled.write es)
    (h : s.state.image.Holds Vetted) : ∀ e ∈ es, e.Carries Vetted := by
  have hends : RegisterEnds s request ((registerCheckpoint request).exec s).1
      ((registerCheckpoint request).exec s).2 := registerCheckpoint_ends s request
  generalize ((registerCheckpoint request).exec s).1 = r at hends
  generalize ((registerCheckpoint request).exec s).2 = s' at hends hj
  cases hends with
  | quiet hquiet =>
    have hnone : [] = es := Journaled.write_injective hj
    rw [← hnone]
    exact fun e he => (by cases he)
  | entered e htoken hwrote =>
    rw [← Journaled.write_injective (hwrote.journaled.symm.trans hj)]
    exact vetted_enterCheckpointing
  | stored htoken hmiss hdepth hhash hout hwrote =>
    rw [← Journaled.write_injective (hwrote.journaled.symm.trans hj)]
    exact vetted_checkpointRecords h hhash

theorem beginAction_written {request : BeginActionRequest}
    (hj : ((beginAction request).exec s).2.toJournaled = s.toJournaled.write es) :
    ∀ e ∈ es, e.Carries Vetted := by
  have hends := beginAction_ends s request
  have hvets := beginAction_vets s request
  unfold Leads at hends hvets
  generalize ((beginAction request).exec s).1 = r at hends
  generalize ((beginAction request).exec s).2 = s' at hends hvets hj
  have hquiet : s'.toJournaled = s.toJournaled → ∀ e ∈ es, e.Carries Vetted := by
    intro hsame
    have hnone : [] = es := Journaled.write_injective (hsame.symm.trans hj)
    rw [← hnone]
    exact fun e he => (by cases he)
  rcases hvets with hsame | hkey
  · exact hquiet hsame
  rcases hends with ⟨hsame, -⟩ | ⟨x, l, -, hwrote, -⟩
  · exact hquiet hsame.journaled
  · rw [← Journaled.write_injective (hwrote.journaled.symm.trans hj)]
    exact vetted_beginRecords hkey

end Checks

theorem vetted_law : RecordLaw Vetted fun _ _ => True where
  repairable :=
    { reaching := fun _ _ _ hx => hx
      promoted := fun _ _ _ _ _ hx => hx
      sealing := fun _ _ ha => ha }
  transaction := by
    intro s c i es _ hi hj ht h
    by_cases hcreate : i = .create
    · subst hcreate
      cases c <;> simp only [Call.intent, reduceCtorEq, Option.some.injEq] at hi
      exact Vets.written (createExecution_vets s _ _) hj
    by_cases hpolicy : ∃ e, i = .updatePolicy e
    · obtain ⟨e, rfl⟩ := hpolicy
      cases c <;> simp only [Call.intent, reduceCtorEq, Option.some.injEq] at hi
      exact Vets.written (updatePolicy_vets s _ _ _ _ _) hj
    by_cases hbegin : ∃ e, i = .begin e
    · obtain ⟨e, rfl⟩ := hbegin
      cases c <;> simp only [Call.intent, reduceCtorEq, Option.some.injEq] at hi
      exact beginAction_written hj
    by_cases hcheckpoint : ∃ e, i = .checkpoint e
    · obtain ⟨e, rfl⟩ := hcheckpoint
      cases c <;> simp only [Call.intent, reduceCtorEq, Option.some.injEq] at hi
      exact registerCheckpoint_vets hj h
    exact fun e he => (ht.origins e he).vetted h hcreate (fun e he => hpolicy ⟨e, he⟩)
      (fun e he => hbegin ⟨e, he⟩) fun e he => hcheckpoint ⟨e, he⟩
  lose := fun ht h e he => (ht.origins e he).vetted h (fun hi => by cases hi)
    (fun _ hi => by cases hi) (fun _ hi => by cases hi) fun _ hi => by cases hi
  recover := fun ht h e he => (ht.origins e he).vetted h (fun hi => by cases hi)
    (fun _ hi => by cases hi) (fun _ hi => by cases hi) fun _ hi => by cases hi
  restart := by
    intro j h e he
    cases restartRecords_origins j e he <;> trivial

end ExecutionFabric
