import ExecutionFabric.Audit.Inversion

/-!
# What checkpoints, resumption, recovery and resolution write

The operations whose records depend on records they wrote earlier: each reads its
own writes back, so the state between two writes is named in the statement.
-/
namespace ExecutionFabric

open Lib Program

/-- A refused operation that had already written a transaction. -/
theorem settles_written {s s' : Runtime} {i : Intent} {es : List JournalEntry}
    (ht : Transaction s.toJournaled i es) (hopen : s.isOpen = true)
    (hj : s'.toJournaled = s.toJournaled.write es) (hp : SameProcess s s') : Settles s i s' :=
  .inr ⟨es, ht, hj, hopen, hp⟩

/-! ## Checkpoints -/

theorem leads_enterCheckpointing {α : Type} {s : Runtime} {Q : Except Status α → Runtime → Prop}
    {x : ExecutionRecord} {f : Unit → Op α}
    (h : Leads (f ()) (s.mapJournaled (·.write (enterCheckpointing x))) Q) :
    Leads (provided (x.lifecycle = .running) (do
      requireTransition x.lifecycle .checkpointing "checkpoint"
      Op.put (.execution { x with lifecycle := .checkpointing })) >>= f) s Q := by
  unfold enterCheckpointing at h
  apply leads_provided
  · intro hrunning
    rw [if_pos hrunning] at h
    rw [bind_assoc]
    apply leads_requireTransition
    · intro hillegal
      rw [hrunning] at hillegal
      cases hillegal
    · intro _
      exact h
  · intro hrunning
    rw [if_neg hrunning] at h
    exact h

/-- How `register_checkpoint` can end: refused or answered from the cache, refused after entering
CHECKPOINTING, or with a stored checkpoint. -/
inductive RegisterEnds (s : Runtime) (request : RegisterCheckpointRequest) :
    Except Status RegisterCheckpointResult → Runtime → Prop
  | quiet {r : Except Status RegisterCheckpointResult}
      (h : (s.requestCache request.request).isSome = true ∨ ∃ e, r = .error e) :
      RegisterEnds s request r s
  | entered {x : ExecutionRecord} {l : LeaseRecord} {s' : Runtime} (e : Status)
      (htoken : validateToken s.state request.token = .ok (x, l))
      (hwrote : Wrote s (.checkpoint request.token.execution) (enterCheckpointing x) s') :
      RegisterEnds s request (.error e) s'
  | stored {x : ExecutionRecord} {l : LeaseRecord} {depth : Nat} {s' : Runtime}
      {out : RegisterCheckpointResult} (htoken : validateToken s.state request.token = .ok (x, l))
      (hmiss : s.requestCache request.request = none) (hdepth : lineageDepth s.state x = .ok depth)
      (hhash : request.contentHash ≠ 0)
      (hout : out.checkpoint = (registeredCheckpoint s.state x request depth).id)
      (hwrote : Wrote s (.checkpoint request.token.execution) (checkpointRecords s.toJournaled x
        (registeredCheckpoint s.state x request depth)) s') :
      RegisterEnds s request (.ok out) s'

theorem registerCheckpoint_ends (s : Runtime) (request : RegisterCheckpointRequest) :
    Leads (registerCheckpoint request) s (RegisterEnds s request) := by
  unfold registerCheckpoint
  apply leads_authorize
  · intro e
    exact .quiet (.inr ⟨e, rfl⟩)
  intro x l hopen htoken
  obtain ⟨-, hid⟩ := validateToken_execution htoken
  apply leads_get
  split
  next cached hcached =>
    have hhit : (s.requestCache request.request).isSome = true := by
      rw [show s.requestCache request.request = some cached from hcached]
      rfl
    split
    · exact leads_pure (.quiet (.inl hhit))
    · exact leads_pure (.quiet (.inl hhit))
  next hmiss =>
  apply leads_refuseIf
  · intro _
    exact .quiet (.inr ⟨_, rfl⟩)
  intro hlifecycle
  have hlife : x.lifecycle = .running ∨ x.lifecycle = .checkpointing := by
    by_contra hneither
    rw [not_or] at hneither
    exact hlifecycle hneither
  apply leads_refuseIf
  · intro _
    exact .quiet (.inr ⟨_, rfl⟩)
  intro hhash
  apply leads_refuseIf
  · intro _
    exact .quiet (.inr ⟨_, rfl⟩)
  intro _
  apply leads_enterCheckpointing
  apply leads_check
  · intro e _
    refine .entered e htoken ⟨?_, rfl, hopen, ⟨rfl, rfl, rfl, rfl⟩⟩
    rw [← hid]
    exact .enterCheckpoint request htoken hlife
  intro depth hdepth
  apply leads_put
  apply leads_get
  apply leads_putAll
  apply leads_retire
  apply leads_put
  apply leads_put
  apply leads_remember
  apply leads_pure
  have ht := Transaction.checkpoint request htoken hlife hdepth
  rw [hid] at ht
  refine .stored htoken hmiss hdepth hhash rfl (wrote_remember ht hopen ?_ ?_ _ _)
  · rw [checkpointRecords, continuationRecords, demotionRecords, newCheckpointRecords]
    simp only [Journaled.write_append]
    rfl
  · exact ⟨rfl, rfl, rfl, rfl⟩

theorem registerCheckpoint_settles (s : Runtime) (request : RegisterCheckpointRequest) :
    Leads (registerCheckpoint request) s fun _ s' =>
      Settles s (.checkpoint request.token.execution) s' := by
  refine leads_mono (registerCheckpoint_ends s request) fun r s' h => ?_
  cases h with
  | quiet h => exact .same _ _
  | entered e htoken hwrote => exact .inr ⟨_, hwrote⟩
  | stored htoken hmiss hdepth hhash hout hwrote => exact .inr ⟨_, hwrote⟩

/-! ## Resumption -/

/-- What an uncached resume was checked for before it wrote. -/
structure Resumable (s : Runtime) (request : ResumeRequest) (x : ExecutionRecord)
    (l : LeaseRecord) : Prop where
  serving : checkOpen s = .ok ()
  token : validateToken s.state request.token = .ok (x, l)
  uncached : s.requestCache request.request = none
  lifecycle : isResumable x.lifecycle = true
  recovery : recoveryDefect s.state x = none
  bindings : x.bindings.equalsGenerations request.observedBindings = true ∨
    request.revalidateBindings = true

/-- How `resume` can end: refused or answered from the cache, refused in RESUMING, or RUNNING. -/
inductive ResumeEnds (s : Runtime) (request : ResumeRequest) :
    Except Status ResumeResult → Runtime → Prop
  | quiet {r : Except Status ResumeResult}
      (h : (s.requestCache request.request).isSome = true ∨ ∃ e, r = .error e) :
      ResumeEnds s request r s
  | entered {x : ExecutionRecord} {l : LeaseRecord} {s' : Runtime} (e : Status)
      (h : Resumable s request x l)
      (hwrote : Wrote s (.resume request.token.execution)
        [.execution (resumingExecution s.state x request.observedBindings)] s') :
      ResumeEnds s request (.error e) s'
  | resumed {x : ExecutionRecord} {l : LeaseRecord} {s' : Runtime} {out : ResumeResult}
      (h : Resumable s request x l)
      (hvalid : (validateContinuationState (resumingState s.toJournaled x request.observedBindings)
        (resumedContinuation s.toJournaled x request.observedBindings)).1 = .valid)
      (hwrote : Wrote s (.resume request.token.execution)
        (resumeRecords s.toJournaled x request.observedBindings) s') :
      ResumeEnds s request (.ok out) s'

theorem resume_ends (s : Runtime) (request : ResumeRequest) :
    Leads (resume request) s (ResumeEnds s request) := by
  unfold resume
  apply leads_authorizeServing
  · intro e
    exact .quiet (.inr ⟨e, rfl⟩)
  intro x l hserving htoken
  have hopen := isOpen_of_checkOpen hserving
  obtain ⟨-, hid⟩ := validateToken_execution htoken
  apply leads_get
  split
  next cached hcached =>
    refine leads_pure (.quiet (.inl ?_))
    rw [show s.requestCache request.request = some cached from hcached]
    rfl
  next hmiss =>
  apply leads_refuseIf
  · intro _
    exact .quiet (.inr ⟨_, rfl⟩)
  intro hresumable
  apply leads_refuseOn
  · intro e _
    exact .quiet (.inr ⟨e, rfl⟩)
  intro hrecovery
  apply leads_refuseIf
  · intro _
    exact .quiet (.inr ⟨_, rfl⟩)
  intro hstale
  have hres : isResumable x.lifecycle = true := by simpa using hresumable
  have hchecked : Resumable s request x l := by
    refine ⟨hserving, htoken, hmiss, hres, hrecovery, ?_⟩
    by_contra hneither
    rw [not_or] at hneither
    exact hstale ⟨by simpa using hneither.1, by simpa using hneither.2⟩
  apply leads_providedLegal
  · intro h
    rw [h]
    rfl
  apply leads_providedLegal
  · intro hentered
    cases hl : x.lifecycle <;> rw [hl] at hres hentered
    case suspended | recoveryRequired | recovering => rfl
    case resuming => exact absurd rfl hentered
    all_goals cases hres
  apply leads_put
  apply leads_get
  have hentered := Transaction.enterResume request htoken hres hrecovery
  rw [hid] at hentered
  apply leads_refuseIf
  · intro _
    exact .entered _ hchecked ⟨hentered, rfl, hopen, ⟨rfl, rfl, rfl, rfl⟩⟩
  intro hvalid
  apply leads_requireTransition
  · intro hillegal
    cases hillegal
  intro _
  apply leads_retire
  apply leads_put
  apply leads_put
  apply leads_remember
  apply leads_pure
  have ht := Transaction.resume request htoken hres hrecovery (not_not.mp hvalid)
  rw [hid] at ht
  refine .resumed hchecked (not_not.mp hvalid) (wrote_remember ht hopen ?_ ?_ _ _)
  · rw [resumeRecords, continuationRecords, Journaled.write_cons, Journaled.write_append]
    rfl
  · exact ⟨rfl, rfl, rfl, rfl⟩

theorem resume_settles (s : Runtime) (request : ResumeRequest) :
    Leads (resume request) s fun _ s' => Settles s (.resume request.token.execution) s' := by
  refine leads_mono (resume_ends s request) fun r s' h => ?_
  cases h with
  | quiet h => exact .same _ _
  | entered e h hwrote => exact .inr ⟨_, hwrote⟩
  | resumed h hvalid hwrote => exact .inr ⟨_, hwrote⟩

/-! ## Recovery -/

@[simp] theorem RecoveryPlan.withDecision_action (p : RecoveryPlan) (d : RecoveryDecision)
    (e : String) : (p.withDecision d e).action = p.action := rfl

@[simp] theorem RecoveryPlan.withDecision_actionGeneration (p : RecoveryPlan)
    (d : RecoveryDecision) (e : String) :
    (p.withDecision d e).actionGeneration = p.actionGeneration := rfl

@[simp] theorem RecoveryPlan.withDecision_decision (p : RecoveryPlan) (d : RecoveryDecision)
    (e : String) : (p.withDecision d e).decision = d := rfl

@[simp] theorem RecoveryPlan.withDecision_commitFromReceipt (p : RecoveryPlan)
    (d : RecoveryDecision) (e : String) :
    (p.withDecision d e).commitFromReceipt = p.commitFromReceipt := rfl

/-- The statuses that leave the physical outcome of an action open. -/
def isInterrupted : ActionStatus → Bool
  | .prepared | .inFlight | .failed | .ambiguous => true
  | _ => false

/-- What a classification may decide about an interrupted action, and whether it commits. -/
inductive Judged (ambiguity : Option AmbiguityRecord) (a : ActionRecord) :
    RecoveryDecision → Bool → Prop
  | receipt (h : a.status = .effectApplied ∨ a.status = .completedUnacknowledged) :
      Judged ambiguity a .resumeFromCurrent true
  | compensate (h : a.status = .effectApplied ∨ a.status = .completedUnacknowledged) :
      Judged ambiguity a .compensate false
  | notApplied (h : a.status = .effectNotApplied) : Judged ambiguity a .replaySafeAction false
  | settled (h : a.status = .committed ∨ a.status = .compensated ∨ a.status = .abandoned) :
      Judged ambiguity a .resumeFromCurrent false
  | refused : Judged ambiguity a .unsupported false
  | replay (h : isInterrupted a.status = true)
      (hsafe : resolvedAsNotApplied ambiguity a = true ∨ autoReplayable a.effectClass = true) :
      Judged ambiguity a .replaySafeAction false
  | uncertain {d : RecoveryDecision} (h : isInterrupted a.status = true)
      (hunsound : autoReplayable a.effectClass = false) (hopens : opensAmbiguity d = true) :
      Judged ambiguity a d false

section InFlight

variable (base : RecoveryPlan) (policy : Option ExecutionPolicy)
  (ambiguity : Option AmbiguityRecord) (a : ActionRecord)

/-- The plan for an interrupted action names that action. -/
theorem classifyInFlight_names :
    (classifyInFlight base policy ambiguity a).action = a.id ∧
      (classifyInFlight base policy ambiguity a).actionGeneration = a.generation := by
  unfold classifyInFlight
  dsimp only
  constructor
  · split <;> (repeat' split) <;> rfl
  · split <;> (repeat' split) <;> rfl

theorem interrupted_judged (hbase : base.commitFromReceipt = false)
    (h : isInterrupted a.status = true) :
    Judged ambiguity a (classifyInFlight base policy ambiguity a).decision
      (classifyInFlight base policy ambiguity a).commitFromReceipt := by
  unfold classifyInFlight
  dsimp only
  split
  case h_8 | h_9 | h_10 | h_7 =>
    split
    next hresolved =>
      split
      · rw [RecoveryPlan.withDecision_commitFromReceipt, hbase]
        exact .refused
      · rw [RecoveryPlan.withDecision_commitFromReceipt, hbase]
        exact .replay h (.inl hresolved)
    next =>
      split
      · rw [RecoveryPlan.withDecision_commitFromReceipt, hbase]
        exact .refused
      split
      next hauto =>
        rw [RecoveryPlan.withDecision_commitFromReceipt, hbase]
        exact .replay h (.inr hauto)
      next hauto =>
        have hunsound : autoReplayable a.effectClass = false := by simpa using hauto
        split
        · rw [RecoveryPlan.withDecision_commitFromReceipt, hbase]
          exact .uncertain h hunsound rfl
        · rw [RecoveryPlan.withDecision_commitFromReceipt, hbase]
          refine .uncertain h hunsound ?_
          rw [RecoveryPlan.withDecision_decision]
          split <;> rfl
  all_goals
    rename_i hs
    rw [hs] at h
    cases h

theorem classifyInFlight_judged (hbase : base.commitFromReceipt = false) :
    Judged ambiguity a (classifyInFlight base policy ambiguity a).decision
      (classifyInFlight base policy ambiguity a).commitFromReceipt := by
  by_cases h : isInterrupted a.status = true
  · exact interrupted_judged base policy ambiguity a hbase h
  unfold classifyInFlight
  dsimp only
  split
  case h_1 hs =>
    split
    · rw [RecoveryPlan.withDecision_commitFromReceipt, hbase]
      exact .compensate (.inl hs)
    · exact .receipt (.inl hs)
  case h_2 hs =>
    split
    · rw [RecoveryPlan.withDecision_commitFromReceipt, hbase]
      exact .compensate (.inr hs)
    · exact .receipt (.inr hs)
  case h_3 hs =>
    split
    · rw [RecoveryPlan.withDecision_commitFromReceipt, hbase]
      exact .refused
    · rw [RecoveryPlan.withDecision_commitFromReceipt, hbase]
      exact .notApplied hs
  case h_4 hs =>
    rw [RecoveryPlan.withDecision_commitFromReceipt, hbase]
    exact .settled (.inl hs)
  case h_5 hs =>
    rw [RecoveryPlan.withDecision_commitFromReceipt, hbase]
    exact .settled (.inr (.inl hs))
  case h_6 hs =>
    rw [RecoveryPlan.withDecision_commitFromReceipt, hbase]
    exact .settled (.inr (.inr hs))
  all_goals
    rename_i hs
    rw [hs] at h
    exact absurd rfl h

end InFlight

/-- How a classification of a stored execution can come out: it stops at an open ambiguity, it
judges the interrupted action, it finds the execution at rest, or it does not let it continue. -/
inductive Classified (input : RecoveryInput) : RecoveryPlan → Prop
  | ambiguous {p : RecoveryPlan} {amb : AmbiguityRecord} (hamb : input.openAmbiguity = some amb)
      (haction : p.action = amb.action) (hgeneration : p.actionGeneration = amb.actionGeneration)
      (hopens : opensAmbiguity p.decision = true) (hreceipt : p.commitFromReceipt = false) :
      Classified input p
  | interrupted {p : RecoveryPlan} {a : ActionRecord} (hamb : input.openAmbiguity = none)
      (ha : input.inFlight = some a) (haction : p.action = a.id)
      (hgeneration : p.actionGeneration = a.generation)
      (hjudged : Judged input.ambiguity a p.decision p.commitFromReceipt) : Classified input p
  | atRest {p : RecoveryPlan} (hamb : input.openAmbiguity = none) (hrest : input.inFlight = none)
      (haction : p.action = .nil) (hreceipt : p.commitFromReceipt = false) : Classified input p
  | halted {p : RecoveryPlan} (haction : p.action = .nil) (hreceipt : p.commitFromReceipt = false)
      (hhalted : recoveryAllowsAutomaticContinue p.decision = false) : Classified input p

theorem classifyOpenAmbiguity_classified {input : RecoveryInput} {amb : AmbiguityRecord}
    (hamb : input.openAmbiguity = some amb) (base : RecoveryPlan)
    (hbase : base.commitFromReceipt = false) (explanation : String) :
    Classified input (classifyOpenAmbiguity base amb explanation) := by
  refine .ambiguous hamb rfl rfl ?_ hbase
  unfold classifyOpenAmbiguity
  dsimp only
  split <;> rfl

theorem classifyAtRest_keeps (base : RecoveryPlan) (input : RecoveryInput) (x : ExecutionRecord) :
    (classifyAtRest base input x).action = base.action ∧
      (classifyAtRest base input x).commitFromReceipt = base.commitFromReceipt := by
  unfold classifyAtRest
  dsimp only
  constructor
  · split <;> (repeat' split) <;> rfl
  · split <;> (repeat' split) <;> rfl

theorem classifyRecovery_classified (input : RecoveryInput) :
    Classified input (classifyRecovery input) := by
  unfold classifyRecovery
  split
  · exact .halted rfl rfl rfl
  dsimp only
  split
  · exact .halted rfl rfl rfl
  split
  · exact .halted rfl rfl rfl
  split
  next amb _ hamb => exact classifyOpenAmbiguity_classified hamb _ rfl _
  split
  · split
    · exact .halted rfl rfl rfl
    · exact .halted rfl rfl rfl
  split
  next amb hamb => exact classifyOpenAmbiguity_classified hamb _ rfl _
  next hamb =>
    split
    · exact .halted rfl rfl rfl
    split
    next a ha =>
      obtain ⟨haction, hgeneration⟩ := classifyInFlight_names _ input.policy input.ambiguity a
      exact .interrupted hamb ha haction hgeneration (classifyInFlight_judged _ _ _ _ rfl)
    next hrest =>
      obtain ⟨haction, hreceipt⟩ := classifyAtRest_keeps _ input _
      exact .atRest hamb hrest (haction.trans rfl) (hreceipt.trans rfl)

theorem classifyInFlight_decision (base : RecoveryPlan) (policy : Option ExecutionPolicy)
    (ambiguity : Option AmbiguityRecord) (a : ActionRecord) :
    (classifyInFlight base policy ambiguity a).decision ≠ .resumeFromCheckpoint := by
  unfold classifyInFlight
  dsimp only
  split <;> (repeat' split) <;> exact RecoveryDecision.noConfusion

theorem chosenCandidate_mem (policy : Option ExecutionPolicy) (x : ExecutionRecord)
    {front : CheckpointRecord} {candidates : List CheckpointRecord} (h : front ∈ candidates) :
    chosenCandidate policy x front candidates ∈ candidates := by
  unfold chosenCandidate
  split
  · cases hfind : candidates.find? fun c => c.effectBoundaryOrdinal ≤ x.actionFrontier with
    | none => exact h
    | some c => exact List.mem_of_find?_eq_some hfind
  · exact h

/-- A plan that resumes from a checkpoint is made at rest. -/
theorem classifyRecovery_atRest {input : RecoveryInput}
    (h : (classifyRecovery input).decision = .resumeFromCheckpoint) :
    ∃ x base, input.execution = some x ∧ classifyRecovery input = classifyAtRest base input x := by
  have hopen : ∀ (base : RecoveryPlan) (amb : AmbiguityRecord) (e : String),
      (classifyOpenAmbiguity base amb e).decision ≠ .resumeFromCheckpoint := by
    intro base amb e
    unfold classifyOpenAmbiguity
    dsimp only
    split <;> exact RecoveryDecision.noConfusion
  unfold classifyRecovery at h ⊢
  split at h
  · cases h
  next x hx =>
  dsimp only at h ⊢
  split at h
  · cases h
  split at h
  · cases h
  rename_i hlive hfailed
  rw [if_neg hlive, if_neg hfailed]
  split at h
  · exact absurd h (hopen _ _ _)
  split at h
  · split at h <;> cases h
  rename_i hbinding
  rw [if_neg hbinding]
  split at h
  · exact absurd h (hopen _ _ _)
  split at h
  · cases h
  rename_i husable
  rw [if_neg husable]
  split at h
  · exact absurd h (classifyInFlight_decision _ _ _ _)
  exact ⟨x, _, hx, rfl⟩

/-- At rest a checkpoint is resumed from only when the current one may not seed a continuation. -/
theorem classifyAtRest_checkpoint {base : RecoveryPlan} {input : RecoveryInput}
    {x : ExecutionRecord} (h : (classifyAtRest base input x).decision = .resumeFromCheckpoint) :
    ∃ front rest, input.candidates = front :: rest ∧
      (∀ c, input.currentCheckpoint = some c → checkpointCanSeedContinuation c.state = false) ∧
      (classifyAtRest base input x).checkpoint =
        (chosenCandidate input.policy x front (front :: rest)).id ∧
      (classifyAtRest base input x).checkpointGeneration =
        (chosenCandidate input.policy x front (front :: rest)).generation := by
  unfold classifyAtRest at h ⊢
  dsimp only at h ⊢
  split at h
  · cases h
  next front rest _ hseedable hcandidates =>
    refine ⟨front, rest, hcandidates, ?_, rfl, rfl⟩
    intro c hc
    rw [hc] at hseedable
    dsimp only at hseedable
    split at hseedable
    · cases hseedable
    next hunseedable => exact Bool.eq_false_iff.mpr hunseedable
  next => split at h <;> cases h

/-- A plan that resumes from a checkpoint names one of the candidates. -/
theorem classifyRecovery_checkpoint (input : RecoveryInput)
    (h : (classifyRecovery input).decision = .resumeFromCheckpoint) :
    ∃ c ∈ input.candidates, (classifyRecovery input).checkpoint = c.id := by
  obtain ⟨x, base, -, hplan⟩ := classifyRecovery_atRest h
  rw [hplan] at h ⊢
  obtain ⟨front, rest, hcandidates, -, hid, -⟩ := classifyAtRest_checkpoint h
  refine ⟨_, ?_, hid⟩
  rw [hcandidates]
  exact chosenCandidate_mem _ _ List.mem_cons_self

/-- A plan never commits from a receipt and opens an ambiguity at once. -/
theorem Classified.not_opens {input : RecoveryInput} {p : RecoveryPlan} (h : Classified input p)
    (hreceipt : p.commitFromReceipt = true) : opensAmbiguity p.decision = false := by
  cases h with
  | ambiguous _ _ _ _ hno => rw [hno] at hreceipt; cases hreceipt
  | interrupted _ _ _ _ hjudged =>
    rw [hreceipt] at hjudged
    cases hd : p.decision <;> rw [hd] at hjudged <;> first | rfl | cases hjudged
  | atRest _ _ _ hno => rw [hno] at hreceipt; cases hreceipt
  | halted _ hno _ => rw [hno] at hreceipt; cases hreceipt

theorem lifecycle_blockedBy (st : DurableState) (x : ExecutionRecord) (amb : AmbiguityRecord)
    (a : ActionRecord) : (blockedBy st x amb a).lifecycle = x.lifecycle := by
  unfold blockedBy
  dsimp only
  split <;> rfl

theorem lifecycle_atPlannedCheckpoint (x : ExecutionRecord) (p : RecoveryPlan) :
    (atPlannedCheckpoint x p).lifecycle = x.lifecycle := by
  unfold atPlannedCheckpoint
  split <;> rfl

theorem commitGroupOf_execution (st : DurableState) (x : ExecutionRecord) (a : ActionRecord)
    (request : RequestId) (evidence : Evidence) :
    (commitGroupOf st x a request evidence).execution =
      x.promotedBy st.epoch (deriveProgressId x.id (x.progressGeneration + 1))
        (deriveCommitId x.id a.id a.generation (x.progressGeneration + 1)) := rfl

/-- After a commit group is written, memory holds the execution the group promotes. -/
theorem find_put_commitGroup (s : Runtime) (g : CommitGroupRecord) {id : ExecutionId}
    (hid : g.execution.id = id) :
    (s.mapJournaled (·.put (.commitGroup g))).state.executions.find id = some g.execution := by
  rw [Runtime.toJournaled_mapJournaled, Journaled.state_put, ← hid]
  simp only [DurableState.install, Table.find_upsert, Function.update_self]

/-- `s'` is `s` after the records `es`. -/
def Extends (s : Runtime) (es : List JournalEntry) (s' : Runtime) : Prop :=
  s'.toJournaled = s.toJournaled.write es ∧ SameProcess s s'

theorem extends_remember {s s' : Runtime} {es : List JournalEntry} (h : Extends s es s')
    (id : RequestId) (o : CachedOutcome) : Extends s es (s'.remember id o) :=
  ⟨(Runtime.toJournaled_remember _ _ _).trans h.1, h.2.trans (Runtime.sameProcess_remember _ _ _)⟩

section Rules

variable {α : Type} {s : Runtime} {Q : Except Status α → Runtime → Prop}

/-- The rule for recording an ambiguity: two records and a blocked execution, or nothing. -/
theorem leads_recordAmbiguity {x : ExecutionRecord} {plan : RecoveryPlan}
    {inFlight : Option ActionRecord} {f : ExecutionRecord → Op α}
    (hrecorded : ∀ a, opensAmbiguity plan.decision = true → inFlight = some a →
      Leads (f (blockedBy s.state x (recordedAmbiguity s.state x plan a) a))
        (s.mapJournaled (·.write [.ambiguity (recordedAmbiguity s.state x plan a),
          .action { a with status := .ambiguous }])) Q)
    (hnone : (opensAmbiguity plan.decision = true → inFlight = none) → Leads (f x) s Q) :
    Leads (recordAmbiguity x plan inFlight >>= f) s Q := by
  unfold recordAmbiguity
  rw [bind_assoc]
  apply leads_get
  cases hopens : opensAmbiguity plan.decision with
  | false =>
    refine hnone fun h => ?_
    rw [hopens] at h
    cases h
  | true =>
    cases inFlight with
    | none => exact hnone fun _ => rfl
    | some a => exact hrecorded a hopens rfl

/-- The rule for committing from a receipt: one commit group, a refused one, or nothing. -/
theorem leads_commitFromReceipt {x next : ExecutionRecord} {plan : RecoveryPlan}
    {request : RequestId} {inFlight : Option ActionRecord} {f : ExecutionRecord × CommitId → Op α}
    (herr : ∀ a, plan.commitFromReceipt = true → inFlight = some a →
      s.state.commits.find (commitGroupOf s.state x a request a.receipt).commit.id ≠ none →
      ∀ e, Q (.error e) s)
    (hcommitted : ∀ a g, plan.commitFromReceipt = true → inFlight = some a →
      g = commitGroupOf s.state x a request a.receipt → s.state.commits.find g.commit.id = none →
      Leads (f (g.execution, g.commit.id)) (s.mapJournaled (·.put (.commitGroup g))) Q)
    (hnone : (plan.commitFromReceipt = true → inFlight = none) → Leads (f (next, .nil)) s Q) :
    Leads (commitFromReceipt x next plan request inFlight >>= f) s Q := by
  unfold commitFromReceipt
  cases hreceipt : plan.commitFromReceipt with
  | false =>
    refine hnone fun h => ?_
    rw [hreceipt] at h
    cases h
  | true =>
    cases inFlight with
    | none => exact hnone fun _ => rfl
    | some a =>
      dsimp only
      rw [bind_assoc]
      apply leads_stageCommit (herr a hreceipt rfl)
      intro hcommit
      have hid : (commitGroupOf s.state x a request a.receipt).execution.id = x.id := by
        rw [commitGroupOf_execution, ExecutionRecord.promotedBy]
      have hok := hcommitted a _ hreceipt rfl rfl hcommit
      generalize commitGroupOf s.state x a request a.receipt = g at *
      rw [bind_assoc]
      apply leads_get
      rw [pure_bind, find_put_commitGroup s g hid]
      exact hok

end Rules

/-- The three ways a classification is applied: an ambiguity is recorded, a commit is staged, or
neither. -/
theorem applyRecovery_extends (s : Runtime) (request : RequestId) (x : ExecutionRecord)
    (plan : RecoveryPlan) (inFlight : Option ActionRecord)
    (hexclusive : plan.commitFromReceipt = true → opensAmbiguity plan.decision = false) :
    Leads (applyRecovery request x plan inFlight) s fun r s' =>
      (∀ out, r = .ok out → out.plan = plan) ∧ ((s' = s ∧
        ∃ a, plan.commitFromReceipt = true ∧ inFlight = some a ∧
          s.state.commits.find (commitGroupOf s.state x a request a.receipt).commit.id ≠ none) ∨
      ((opensAmbiguity plan.decision = true → inFlight = none) ∧
        (plan.commitFromReceipt = true → inFlight = none) ∧
        Extends s (recoveryRecords s.state x x plan inFlight) s') ∨
      (∃ a, opensAmbiguity plan.decision = true ∧ inFlight = some a ∧
        Extends s (ambiguityRecords s.state x plan a) s') ∨
      ∃ a, plan.commitFromReceipt = true ∧ inFlight = some a ∧
        s.state.commits.find (commitGroupOf s.state x a request a.receipt).commit.id = none ∧
        Extends s (receiptRecords s.state x plan a request) s') := by
  have hplan : ∀ {o : RecoveryOutcome}, o.plan = plan →
      ∀ out, (.ok o : Except Status RecoveryOutcome) = .ok out → out.plan = plan := by
    rintro o h out heq
    exact Except.ok.inj heq ▸ h
  unfold applyRecovery
  apply leads_get
  apply leads_recordAmbiguity
  · intro a hopens ha
    have hreceipt : plan.commitFromReceipt = false := by
      by_contra hr
      rw [hexclusive (by simpa using hr)] at hopens
      cases hopens
    subst ha
    unfold commitFromReceipt
    rw [hreceipt]
    dsimp only
    rw [pure_bind]
    apply leads_providedLegal
    · rintro ⟨hrequired, -⟩
      rw [lifecycle_atPlannedCheckpoint, lifecycle_blockedBy, hrequired]
      rfl
    apply leads_put
    apply leads_put
    apply leads_remember
    apply leads_pure
    refine ⟨hplan rfl, .inr (.inr (.inl ⟨a, hopens, rfl, extends_remember ⟨?_, ?_⟩ _ _⟩))⟩
    · rfl
    · exact ⟨rfl, rfl, rfl, rfl⟩
  · intro hopens
    apply leads_commitFromReceipt
    · intro a hreceipt ha htaken e
      exact ⟨fun out heq => (by cases heq), .inl ⟨rfl, a, hreceipt, ha, htaken⟩⟩
    · intro a g hreceipt ha hg hcommit
      apply leads_providedLegal
      · rintro ⟨hrequired, -⟩
        rw [lifecycle_atPlannedCheckpoint, hg, commitGroupOf_execution, ExecutionRecord.promotedBy,
          hrequired]
        rfl
      apply leads_put
      apply leads_put
      apply leads_remember
      apply leads_pure
      unfold receiptRecords
      refine ⟨hplan rfl, .inr (.inr (.inr ⟨a, hreceipt, ha, hg ▸ hcommit, ?_⟩))⟩
      rw [← hg, ha]
      refine extends_remember ⟨?_, ?_⟩ _ _
      · rfl
      · exact ⟨rfl, rfl, rfl, rfl⟩
    · intro hreceipt
      apply leads_providedLegal
      · rintro ⟨hrequired, -⟩
        rw [lifecycle_atPlannedCheckpoint, hrequired]
        rfl
      apply leads_put
      apply leads_put
      apply leads_remember
      apply leads_pure
      refine ⟨hplan rfl, .inr (.inl ⟨hopens, hreceipt, extends_remember ⟨?_, ?_⟩ _ _⟩)⟩
      · rfl
      · exact ⟨rfl, rfl, rfl, rfl⟩

theorem recoverLocked_settles (s : Runtime) (caller : CallerContext) (request : RequestId)
    (executionId : ExecutionId) :
    Leads (recoverLocked caller request executionId) s fun _ s' =>
      Settles s (.recover executionId) s' := by
  unfold recoverLocked
  apply leads_findChecked
  · intro e
    exact .same _ _
  intro x hopen hx hid
  subst hid
  apply leads_refuseIf
  · intro _
    exact .same _ _
  intro hlive
  have hlive' : isTerminalState x.lifecycle = false := by simpa using hlive
  apply leads_get
  have hclass := classifyRecovery_classified (recoveryInput s.toJournaled x)
  refine leads_mono (applyRecovery_extends s request x _ _ hclass.not_opens) ?_
  rintro _ s' ⟨-, ⟨rfl, -⟩ | ⟨hopens, hreceipt, hj, hp⟩ | ⟨a, hopens, ha, hj, hp⟩ |
    ⟨a, hreceipt, ha, hcommit, hj, hp⟩⟩
  · exact .same _ _
  · exact settles_written (.recoverPlain hx hlive' hopens hreceipt) hopen hj hp
  · exact settles_written (.recoverAmbiguous hx hlive' hopens ha) hopen hj hp
  · exact settles_written (.recoverCommit request hx hlive' hreceipt ha hcommit) hopen hj hp

/-- A recovery answers with the plan it follows. -/
theorem recoverLocked_plan (s : Runtime) (caller : CallerContext) (request : RequestId)
    (executionId : ExecutionId) :
    Leads (recoverLocked caller request executionId) s fun r _ => ∀ out, r = .ok out →
      ∃ x, s.state.executions.find executionId = some x ∧ out.plan = planOf s.toJournaled x := by
  unfold recoverLocked
  apply leads_findChecked
  · intro e out heq
    cases heq
  intro x hopen hx hid
  apply leads_refuseIf
  · intro _ out heq
    cases heq
  intro hlive
  apply leads_get
  have hclass := classifyRecovery_classified (recoveryInput s.toJournaled x)
  refine leads_mono (applyRecovery_extends s request x _ _ hclass.not_opens) ?_
  rintro r s' ⟨hplan, -⟩ out heq
  exact ⟨x, hx, hplan out heq⟩

/-! ## Resolution -/

/-- The rule for staging the commit of a resolution and reading the promoted execution back. -/
theorem leads_stageResolution {α : Type} {s : Runtime} {Q : Except Status α → Runtime → Prop}
    {x : ExecutionRecord} {a : ActionRecord} {request : RequestId} {evidence : Evidence}
    {f : ExecutionRecord × Option (CommitId × Nat) → Op α}
    (herr : s.state.commits.find (commitGroupOf s.state x a request evidence).commit.id ≠ none →
      ∀ e, Q (.error e) s)
    (hok : ∀ g, g = commitGroupOf s.state x a request evidence →
      s.state.commits.find g.commit.id = none →
      Leads (f (g.execution.unblocked, some (g.commit.id, g.commit.progressGeneration)))
        (s.mapJournaled (·.put (.commitGroup g))) Q) :
    Leads ((do
      let group ← stageCommit x a request evidence
      let s ← get
      return (((s.state.executions.find x.id).getD x).unblocked,
        some (group.commit.id, group.commit.progressGeneration))) >>= f) s Q := by
  rw [bind_assoc]
  apply leads_stageCommit herr
  intro hcommit
  have hid : (commitGroupOf s.state x a request evidence).execution.id = x.id := by
    rw [commitGroupOf_execution, ExecutionRecord.promotedBy]
  have hgroup := hok _ rfl hcommit
  generalize commitGroupOf s.state x a request evidence = g at *
  rw [bind_assoc]
  apply leads_get
  rw [pure_bind, find_put_commitGroup s g hid]
  exact hgroup

theorem resolveAmbiguity_settles (s : Runtime) (request : ResolveAmbiguityRequest) :
    Leads (resolveAmbiguity request) s fun _ s' =>
      Settles s (.resolve request.execution request.ambiguity request.resolution) s' := by
  unfold resolveAmbiguity
  apply leads_findChecked
  · intro e
    exact .same _ _
  intro x hopen hx hid
  rw [← hid]
  apply leads_get
  apply leads_require
  · intro _
    exact .same _ _
  intro amb hamb
  rw [show request.ambiguity = amb.id from (Table.find_key hamb).symm]
  apply leads_refuseIf
  · intro _
    exact .same _ _
  intro howner
  apply leads_refuseIf
  · intro _
    exact .same _ _
  intro _
  apply leads_refuseIf
  · intro _
    exact .same _ _
  intro hstate
  apply leads_require
  · intro _
    exact .same _ _
  intro a ha
  apply leads_refuseIf
  · intro _
    exact .same _ _
  intro hopenres
  have howner' : amb.execution = x.id := not_not.mp howner
  have hstate' : ambiguityIsOpen amb.state = true := by simpa using hstate
  have hx' : s.state.executions.find x.id = some x := hid ▸ hx
  unfold applyResolution
  split
  case h_1 hres | h_2 hres =>
    apply leads_stageResolution
    · intro _ e
      exact .same _ _
    intro g hg hcommit
    apply leads_put
    apply leads_put
    apply leads_remember
    apply leads_pure
    have ht := Transaction.resolveCommit request hx' hamb howner' hstate' ha (by simp [hres])
      (hg ▸ hcommit)
    rw [← hg] at ht
    exact settles_remember ht hopen rfl ⟨rfl, rfl, rfl, rfl⟩
  case h_3 hres =>
    rw [bind_assoc]
    apply leads_put
    rw [pure_bind]
    apply leads_put
    apply leads_put
    apply leads_remember
    apply leads_pure
    have ht := Transaction.resolveAction request .failed hx' hamb howner' hstate' ha
      (.inl ⟨hres, rfl⟩)
    exact settles_remember ht hopen rfl ⟨rfl, rfl, rfl, rfl⟩
  case h_4 hres =>
    rw [bind_assoc]
    apply leads_put
    rw [pure_bind]
    apply leads_put
    apply leads_put
    apply leads_remember
    apply leads_pure
    have ht := Transaction.resolveAction request .abandoned hx' hamb howner' hstate' ha
      (.inr ⟨hres, rfl⟩)
    exact settles_remember ht hopen rfl ⟨rfl, rfl, rfl, rfl⟩
  case h_5 hres => exact absurd hres hopenres
  case h_6 hres =>
    rw [pure_bind]
    apply leads_put
    apply leads_put
    apply leads_remember
    apply leads_pure
    have ht := Transaction.resolveManual request hx' hamb howner' hstate' ha hres
    exact settles_remember ht hopen rfl ⟨rfl, rfl, rfl, rfl⟩

end ExecutionFabric
