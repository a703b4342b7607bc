import ExecutionFabric.Audit.Anchors

/-!
# Refused calls

A refusal is harmless when memory and journal are left as they were. Operations check
first and write last, so for almost all of them a refusal comes before the first
write. The exceptions are the two operations that enter a lifecycle durably before
their last check: `resume` and `register_checkpoint`.
-/
namespace ExecutionFabric

open Lib Program

/-- A program that, when it refuses, leaves memory and the store alone. -/
def Spares {α : Type} (m : Op α) (s : Runtime) : Prop :=
  Leads m s fun r s' => ∀ e, r = .error e → s'.toJournaled = s.toJournaled

/-- A program that does not refuse. -/
def Accepts {α : Type} (m : Op α) (s : Runtime) : Prop :=
  Leads m s fun r _ => ∃ a, r = .ok a

section Rules

variable {α β : Type} {s : Runtime}

/-- A program that does not refuse meets every condition on refusals. -/
theorem Accepts.leads {m : Op α} {P : Runtime → Prop} (h : Accepts m s) :
    Leads m s fun r s' => ∀ e, r = .error e → P s' := by
  intro e he
  obtain ⟨a, ha⟩ := h
  rw [ha] at he
  cases he

theorem Accepts.spares {m : Op α} (h : Accepts m s) : Spares m s := h.leads

theorem spares_get {f : Runtime → Op α} (h : Spares (f s) s) : Spares (get >>= f) s := h

theorem spares_refuseIf {c : Prop} [Decidable c] {e : Status} {f : Unit → Op α}
    (h : ¬ c → Spares (f ()) s) : Spares (refuseIf c e >>= f) s :=
  leads_refuseIf (fun _ _ _ => rfl) h

theorem spares_require {o : Option β} {e : Status} {f : β → Op α}
    (h : ∀ b, o = some b → Spares (f b) s) : Spares (require o e >>= f) s :=
  leads_require (fun _ _ _ => rfl) h

theorem spares_check {r : Except Status β} {f : β → Op α} (h : ∀ b, r = .ok b → Spares (f b) s) :
    Spares (check r >>= f) s :=
  leads_check (fun _ _ _ _ => rfl) h

theorem spares_refuseOn {o : Option Status} {f : Unit → Op α} (h : o = none → Spares (f ()) s) :
    Spares (refuseOn o >>= f) s :=
  leads_refuseOn (fun _ _ _ _ => rfl) h

theorem spares_requireTransition {source target : Lifecycle} {what : String} {f : Unit → Op α}
    (h : isLegalTransition source target = true → Spares (f ()) s) :
    Spares (requireTransition source target what >>= f) s :=
  leads_requireTransition (fun _ _ _ => rfl) h

theorem spares_authorized {token : LeaseToken} {f : ExecutionRecord → Op α}
    (h : ∀ x l, checkOpen s = .ok () → validateToken s.state token = .ok (x, l) →
      Spares (f x) s) : Spares (authorize token >>= f) s := by
  unfold authorize
  rw [bind_assoc]
  apply spares_get
  rw [bind_assoc]
  apply spares_check
  intro _ hserving
  rw [bind_assoc]
  apply spares_check
  intro found htoken
  rw [pure_bind]
  exact h found.1 found.2 hserving htoken

theorem spares_authorize {token : LeaseToken} {f : ExecutionRecord → Op α}
    (h : ∀ x, Spares (f x) s) : Spares (authorize token >>= f) s :=
  spares_authorized fun x _ _ _ => h x

theorem spares_findChecked {caller : CallerContext} {id : ExecutionId} {f : ExecutionRecord → Op α}
    (h : ∀ x, Spares (f x) s) : Spares (findChecked caller id >>= f) s :=
  leads_findChecked (fun _ _ _ => rfl) fun x _ _ _ => h x

theorem spares_stageCommit {x : ExecutionRecord} {a : ActionRecord} {request : RequestId}
    {evidence : Evidence} {f : CommitGroupRecord → Op α} (h : ∀ g s', Accepts (f g) s') :
    Spares (stageCommit x a request evidence >>= f) s :=
  leads_stageCommit (fun _ _ _ _ => rfl) fun _ => (h _ _).leads

end Rules

/-! ## The operations that check first and write last -/

theorem start_spares (s : Runtime) (request : StartRequest) : Spares (start request) s := by
  unfold start
  apply spares_authorize
  intro x
  apply spares_get
  split
  · exact Accepts.spares ⟨_, rfl⟩
  apply spares_refuseIf
  intro _
  apply spares_requireTransition
  intro _
  apply Accepts.spares
  apply leads_retire
  exact ⟨_, rfl⟩

theorem failAction_spares (s : Runtime) (request : FailActionRequest) :
    Spares (failAction request) s := by
  unfold failAction
  apply spares_authorize
  intro x
  apply spares_get
  split
  · exact Accepts.spares ⟨_, rfl⟩
  apply spares_require
  intro a _
  apply spares_refuseIf
  intro _
  apply spares_refuseIf
  intro _
  apply spares_refuseIf
  intro _
  exact Accepts.spares ⟨_, rfl⟩

theorem reportSideEffect_spares (s : Runtime) (request : ReportSideEffectRequest) :
    Spares (reportSideEffect request) s := by
  unfold reportSideEffect
  apply spares_authorize
  intro x
  apply spares_get
  split
  · exact Accepts.spares ⟨_, rfl⟩
  apply spares_require
  intro a _
  apply spares_refuseIf
  intro _
  apply spares_refuseIf
  intro _
  exact Accepts.spares ⟨_, rfl⟩

theorem beginAction_spares (s : Runtime) (request : BeginActionRequest) :
    Spares (beginAction request) s := by
  rcases beginAction_settles s request with ⟨hquiet, -⟩ | ⟨es, x, l, -, -, out, hout, -⟩
  · exact fun _ _ => hquiet.journaled
  · exact Accepts.spares ⟨out, hout⟩

theorem completeAction_spares (s : Runtime) (request : CompleteActionRequest) :
    Spares (completeAction request) s := by
  intro e he
  have h := completeAction_completes s request
  unfold Leads at h
  rw [he] at h
  generalize ((completeAction request).exec s).2 = s' at h ⊢
  cases h
  rfl

theorem persistTransition_spares {α : Type} (s : Runtime) (x : ExecutionRecord)
    (target : Lifecycle) (what : String) {f : Unit → Op α} (hf : ∀ s', Accepts (f ()) s') :
    Spares (persistTransition x target what >>= f) s := by
  unfold persistTransition
  rw [bind_assoc]
  apply spares_requireTransition
  intro _
  rw [bind_assoc]
  apply spares_get
  apply Accepts.spares
  split
  · rw [bind_assoc]
    apply leads_putLeaseAs
    apply leads_put
    exact hf _
  · exact hf _

/-- The family of lifecycle transitions. -/
theorem transitionOp_spares (s : Runtime) (caller : CallerContext) (request : RequestId)
    (executionId : ExecutionId) (defect : DurableState → ExecutionRecord → Option Status)
    (target : Lifecycle) (what : String) :
    Spares (transitionOp caller request executionId defect target what) s := by
  unfold transitionOp
  apply spares_findChecked
  intro x
  apply spares_get
  split
  · exact Accepts.spares ⟨_, rfl⟩
  apply spares_refuseOn
  intro _
  exact persistTransition_spares s x target what fun _ => ⟨_, rfl⟩

theorem advance_spares (s : Runtime) (caller : CallerContext) (request : RequestId)
    (executionId : ExecutionId) :
    Spares (advanceExecutionGeneration caller request executionId) s := by
  unfold advanceExecutionGeneration
  apply spares_findChecked
  intro x
  apply spares_get
  split
  · exact Accepts.spares ⟨_, rfl⟩
  apply spares_refuseIf
  intro _
  apply Accepts.spares
  apply leads_putAll
  apply leads_providedLease
  apply leads_providedLegal (isLegalTransition_of_active x.lifecycle)
  exact ⟨_, rfl⟩

theorem createExecution_spares (s : Runtime) (caller : CallerContext)
    (request : CreateExecutionRequest) : Spares (createExecution caller request) s := by
  unfold createExecution
  apply spares_get
  apply spares_check
  intro _ _
  split
  · exact Accepts.spares ⟨_, rfl⟩
  apply spares_refuseIf
  intro _
  apply spares_refuseOn
  intro _
  exact Accepts.spares ⟨_, rfl⟩

theorem updatePolicy_spares (s : Runtime) (caller : CallerContext) (request : RequestId)
    (executionId : ExecutionId) (policy : ExecutionPolicy) (apply : Bool) :
    Spares (updatePolicy caller request executionId policy apply) s := by
  unfold updatePolicy
  apply spares_get
  apply spares_check
  intro _ _
  apply spares_refuseIf
  intro _
  apply spares_require
  intro x _
  apply spares_refuseOn
  intro _
  apply Accepts.spares
  split
  · exact ⟨_, rfl⟩
  apply leads_put
  apply leads_providedLease
  apply leads_providedLegal fun h => isLegalTransition_of_active x.lifecycle h.2
  apply leads_putAll
  exact ⟨_, rfl⟩

theorem bindWorker_spares (s : Runtime) (caller : CallerContext) (request : BindWorkerRequest) :
    Spares (bindWorker caller request) s := by
  unfold bindWorker
  apply spares_get
  apply spares_check
  intro _ _
  split
  · exact Accepts.spares ⟨_, rfl⟩
  apply spares_refuseIf
  intro _
  apply spares_require
  intro x _
  apply spares_refuseOn
  intro _
  apply spares_refuseIf
  intro _
  apply spares_refuseIf
  intro _
  apply Accepts.spares
  apply leads_providedLease
  apply leads_providedLegal (fun h => by rw [h]; rfl)
  exact ⟨_, rfl⟩

theorem resolveAmbiguity_spares (s : Runtime) (request : ResolveAmbiguityRequest) :
    Spares (resolveAmbiguity request) s := by
  unfold resolveAmbiguity
  apply spares_findChecked
  intro x
  apply spares_get
  apply spares_require
  intro amb _
  apply spares_refuseIf
  intro _
  apply spares_refuseIf
  intro _
  apply spares_refuseIf
  intro _
  apply spares_require
  intro a _
  apply spares_refuseIf
  intro _
  unfold applyResolution
  cases request.resolution with
  | resolvedApplied =>
    rw [bind_assoc]
    exact spares_stageCommit fun _ _ => ⟨_, rfl⟩
  | accepted =>
    rw [bind_assoc]
    exact spares_stageCommit fun _ _ => ⟨_, rfl⟩
  | resolvedNotApplied => exact Accepts.spares ⟨_, rfl⟩
  | abandoned => exact Accepts.spares ⟨_, rfl⟩
  | «open» => exact Accepts.spares ⟨_, rfl⟩
  | manualResolutionRequired => exact Accepts.spares ⟨_, rfl⟩

theorem commitFromReceipt_none {x next : ExecutionRecord} {plan : RecoveryPlan}
    {request : RequestId} {inFlight : Option ActionRecord} (h : plan.commitFromReceipt = false) :
    commitFromReceipt x next plan request inFlight = pure (next, .nil) := by
  unfold commitFromReceipt
  rw [h]

theorem recoverLocked_spares (s : Runtime) (caller : CallerContext) (request : RequestId)
    (executionId : ExecutionId) : Spares (recoverLocked caller request executionId) s := by
  unfold recoverLocked
  apply spares_findChecked
  intro x
  apply spares_refuseIf
  intro _
  apply spares_get
  have hclass := classifyRecovery_classified (recoveryInput s.toJournaled x)
  unfold applyRecovery
  apply spares_get
  -- A commit is staged only where no ambiguity was recorded, so a refused one is the first write.
  apply leads_recordAmbiguity
  · intro a hopens ha
    apply Accepts.leads
    have hreceipt : (classifyRecovery (recoveryInput s.toJournaled x)).commitFromReceipt = false := by
      by_contra hr
      rw [hclass.not_opens (by simpa using hr)] at hopens
      cases hopens
    rw [commitFromReceipt_none hreceipt, pure_bind]
    apply leads_providedLegal
    · rintro ⟨hrequired, -⟩
      rw [lifecycle_atPlannedCheckpoint, lifecycle_blockedBy, hrequired]
      rfl
    exact ⟨_, rfl⟩
  · intro hopens
    apply leads_commitFromReceipt
    · intro _ _ _ _ _ _ _
      rfl
    · intro a g hreceipt ha hg hcommit
      apply Accepts.leads
      apply leads_providedLegal
      · rintro ⟨hrequired, -⟩
        rw [lifecycle_atPlannedCheckpoint, hg, commitGroupOf_execution, ExecutionRecord.promotedBy,
          hrequired]
        rfl
      exact ⟨_, rfl⟩
    · intro hreceipt
      apply Accepts.leads
      apply leads_providedLegal
      · rintro ⟨hrequired, -⟩
        rw [lifecycle_atPlannedCheckpoint, hrequired]
        rfl
      exact ⟨_, rfl⟩

/-! ## Resumption -/

/-- Two references to one binding with different generations. -/
def BindingSet.Conflicted (b : BindingSet) : Prop :=
  ∃ r ∈ b.refs, ∃ r' ∈ b.refs, r.id = r'.id ∧ r.generation ≠ r'.generation

/-- A binding set agrees with itself exactly when it has no conflicting references. -/
theorem BindingSet.equalsGenerations_self (b : BindingSet) :
    b.equalsGenerations b = true ↔ ¬ b.Conflicted := by
  have hcovers : b.covers b = true ↔ ¬ b.Conflicted := by
    unfold covers
    rw [List.all_eq_true]
    constructor
    · rintro hall ⟨r, hr, r', hr', hid, hne⟩
      have h := hall r hr
      have h' := hall r' hr'
      rw [← hid] at h'
      cases hm : b.find r.id with
      | none =>
        rw [hm] at h
        cases h
      | some m =>
        rw [hm] at h h'
        exact hne ((of_decide_eq_true h).symm.trans (of_decide_eq_true h'))
    · intro hclean r hr
      cases hm : b.find r.id with
      | none =>
        have hnone := List.find?_eq_none.mp hm r hr
        exact absurd (decide_eq_true rfl) hnone
      | some m =>
        have hmem := List.mem_of_find?_eq_some hm
        have hfound : b.refs.find? (fun r' => r'.id = r.id) = some m := hm
        have hid : m.id = r.id := by simpa using List.find?_some hfound
        refine decide_eq_true ?_
        by_contra hne
        exact hclean ⟨m, hmem, r, hr, hid, hne⟩
  rw [equalsGenerations, Bool.and_self, hcovers]

/-- What keeps the continuation `resume` mints from being valid: the checkpoint it would resume from
is gone or may not seed it, an open ambiguity sits at or below the frontier, or the offered bindings
contradict each other. -/
def Unresumable (st : DurableState) (x : ExecutionRecord) (bindings : BindingSet) : Prop :=
  (x.checkpoint.valid = true ∧ ∀ c, st.checkpoints.find x.checkpoint = some c →
    checkpointCanSeedContinuation c.state = false) ∨
  (x.blocked = true ∧ x.ambiguity.valid = true ∧ ∃ amb, st.ambiguities.find x.ambiguity = some amb ∧
    ambiguityIsOpen amb.state = true ∧ amb.actionOrdinal ≤ x.actionFrontier) ∨
  bindings.Conflicted

theorem ambiguityDominates_iff (st : DurableState) (x : ExecutionRecord) (c : ContinuationRecord) :
    ambiguityDominates st x c = true ↔ x.blocked = true ∧ x.ambiguity.valid = true ∧
      ∃ amb, st.ambiguities.find x.ambiguity = some amb ∧ ambiguityIsOpen amb.state = true ∧
        amb.actionOrdinal ≤ c.resumeOrdinal := by
  unfold ambiguityDominates
  cases st.ambiguities.find x.ambiguity with
  | none => simp
  | some amb => simp [and_assoc]

/-- A checkpoint that may not seed a continuation makes the verdict something else than Valid. -/
theorem seedable_iff (st : DurableState) (c : ContinuationRecord) :
    (∀ v, unsupportableCheckpoint st c = some v → v.1 ≠ .valid) ∧
    (∀ v, unseedableCheckpoint st c = some v → v.1 ≠ .valid) ∧
    (unsupportableCheckpoint st c = none ∧ unseedableCheckpoint st c = none ↔
      ¬ (c.checkpoint.valid = true ∧ ∀ k, st.checkpoints.find c.checkpoint = some k →
        checkpointCanSeedContinuation k.state = false)) := by
  unfold unsupportableCheckpoint unseedableCheckpoint
  by_cases hvalid : c.checkpoint.valid = true
  · rw [if_pos hvalid, if_pos hvalid]
    cases st.checkpoints.find c.checkpoint with
    | none => simp [hvalid]
    | some k => cases hs : k.state <;> simp [hvalid, checkpointCanSeedContinuation, hs]
  · rw [if_neg hvalid, if_neg hvalid]
    simp [hvalid]

/-- The continuation is bound to the durable point the execution is at. -/
structure Describes (st : DurableState) (x : ExecutionRecord) (c : ContinuationRecord) : Prop where
  stored : st.executions.find c.execution = some x
  executionGeneration : c.executionGeneration = x.generation
  progressGeneration : c.progressGeneration = x.progressGeneration
  actionGeneration : c.actionGeneration = x.actionGeneration
  resumeOrdinal : c.resumeOrdinal = x.actionFrontier
  checkpoint : c.checkpoint = x.checkpoint
  checkpointGeneration : c.checkpointGeneration = x.checkpointGeneration
  epoch : c.epoch = st.epoch
  incarnationGeneration : c.incarnationGeneration = x.incarnationGeneration
  policyGeneration : c.policyGeneration = x.policyGeneration
  bindings : c.bindings = x.bindings

/-- Such a continuation is valid unless its checkpoint, an ambiguity or its bindings forbid it. -/
theorem Describes.valid_iff {st : DurableState} {x : ExecutionRecord} {c : ContinuationRecord}
    (h : Describes st x c) :
    (validateContinuationState st c).1 = .valid ↔ ¬ Unresumable st x x.bindings := by
  obtain ⟨hunsupportable, hunseedable, hseedable⟩ := seedable_iff st c
  have hdominates := ambiguityDominates_iff st x c
  have hself := x.bindings.equalsGenerations_self
  rw [h.checkpoint] at hseedable
  rw [h.resumeOrdinal] at hdominates
  unfold validateContinuationState
  rw [h.stored]
  dsimp only
  rw [if_neg (by rw [h.executionGeneration]; exact Nat.lt_irrefl _),
    if_neg (by rw [h.progressGeneration]; exact Nat.lt_irrefl _),
    if_neg (by rw [h.actionGeneration]; exact Nat.lt_irrefl _),
    if_neg (by rw [h.resumeOrdinal]; exact Nat.lt_irrefl _)]
  unfold Unresumable
  rw [not_or, not_or, ← hseedable, ← hdominates, ← hself]
  split
  next v hv =>
    refine iff_of_false (hunsupportable v hv) ?_
    rintro ⟨⟨hnone, -⟩, -⟩
    rw [hv] at hnone
    cases hnone
  next hsupported =>
    rw [if_neg (by rw [h.checkpointGeneration]; exact Nat.lt_irrefl _)]
    split
    next hopen => exact iff_of_false (by simp) fun h => h.2.1 hopen
    next hclear =>
      unfold currencyVerdict
      dsimp only
      rw [if_neg (not_not.mpr h.epoch), if_neg (not_not.mpr h.incarnationGeneration),
        if_neg (not_not.mpr h.executionGeneration), if_neg (not_not.mpr h.policyGeneration),
        h.bindings]
      by_cases heq : x.bindings.equalsGenerations x.bindings = true
      · rw [if_neg (by simp [heq])]
        cases hseed : unseedableCheckpoint st c with
        | none => simp [hsupported, hclear, heq]
        | some v => simpa [hsupported, hclear, heq] using hunseedable v hseed
      · rw [if_pos (.inr (by simpa using heq))]
        refine iff_of_false ?_ fun h => heq h.2.2
        split <;> exact ContinuationState.noConfusion

theorem find_resumingState (j : Journaled) (x : ExecutionRecord) (bindings : BindingSet) :
    (resumingState j x bindings).executions.find x.id =
      some (resumingExecution j.state x bindings) := by
  unfold resumingState
  rw [Journaled.state_put]
  simp only [DurableState.install, Table.find_upsert]
  exact Function.update_self _ _ _

theorem resumed_valid_iff (j : Journaled) (x : ExecutionRecord) (bindings : BindingSet) :
    (validateContinuationState (resumingState j x bindings)
      (resumedContinuation j x bindings)).1 = .valid ↔ ¬ Unresumable j.state x bindings := by
  have hdescribes : Describes (resumingState j x bindings) (resumingExecution j.state x bindings)
      (resumedContinuation j x bindings) :=
    ⟨find_resumingState j x bindings, rfl, rfl, rfl, rfl, rfl, rfl, rfl, rfl, rfl, rfl⟩
  rw [hdescribes.valid_iff]
  unfold resumingState
  rw [Journaled.state_put]
  exact Iff.rfl

/-- `register_checkpoint` passes every check it makes before its first write, for the execution
`x`. -/
structure Checkpoints (s : Runtime) (request : RegisterCheckpointRequest) (x : ExecutionRecord) :
    Prop where
  serving : checkOpen s = .ok ()
  token : ∃ l, validateToken s.state request.token = .ok (x, l)
  fresh : lookupRequest s request.request = none
  lifecycle : x.lifecycle = .running ∨ x.lifecycle = .checkpointing
  hashed : request.contentHash ≠ 0
  expected : request.expectedCheckpoint = x.checkpoint ∧
    request.expectedCheckpointGeneration = x.checkpointGeneration

/-- The lifecycle walk of `resume` is legal from every resumable lifecycle. -/
theorem isLegalTransition_resuming {l : Lifecycle} (hresumable : isResumable l = true)
    (hentered : (if l = .recoveryRequired then Lifecycle.recovering else l) ≠ .resuming) :
    isLegalTransition (if l = .recoveryRequired then .recovering else l) .resuming = true := by
  cases l
  case suspended | recoveryRequired | recovering => rfl
  case resuming => exact absurd rfl hentered
  all_goals cases hresumable

/-- The rule for a token that is known to be valid. -/
theorem leads_authorized {α : Type} {s : Runtime} {Q : Except Status α → Runtime → Prop}
    {token : LeaseToken} {x : ExecutionRecord} {l : LeaseRecord} {f : ExecutionRecord → Op α}
    (hserving : checkOpen s = .ok ()) (htoken : validateToken s.state token = .ok (x, l))
    (h : Leads (f x) s Q) : Leads (authorize token >>= f) s Q := by
  unfold authorize
  rw [bind_assoc]
  apply leads_get
  rw [hserving, htoken]
  exact h

/-- Past its checks, `resume` enters RESUMING and refuses if its continuation is not valid. -/
theorem Resumable.strands {s : Runtime} {request : ResumeRequest} {x : ExecutionRecord}
    {l : LeaseRecord} (h : Resumable s request x l)
    (hunresumable : Unresumable s.state x request.observedBindings) :
    Leads (resume request) s fun r s' => (∃ e, r = .error e) ∧
      s'.toJournaled = s.toJournaled.put
        (.execution (resumingExecution s.state x request.observedBindings)) := by
  have hinvalid := mt (resumed_valid_iff s.toJournaled x request.observedBindings).mp
    (not_not.mpr hunresumable)
  unfold resume
  apply leads_authorized h.serving h.token
  apply leads_get
  rw [show lookupRequest s request.request = none from h.uncached]
  apply leads_refuseIf
  · intro hno
    rw [h.lifecycle] at hno
    cases hno
  intro _
  apply leads_refuseOn
  · intro e hdefect
    rw [h.recovery] at hdefect
    cases hdefect
  intro _
  apply leads_refuseIf
  · rintro ⟨hchanged, hrefused⟩
    rcases h.bindings with hsame | hrevalidate
    · rw [hsame] at hchanged
      cases hchanged
    · rw [hrevalidate] at hrefused
      cases hrefused
  intro _
  apply leads_providedLegal
  · intro hrequired
    rw [hrequired]
    rfl
  apply leads_providedLegal (isLegalTransition_resuming h.lifecycle)
  apply leads_put
  apply leads_get
  apply leads_refuseIf
  · intro _
    exact ⟨⟨_, rfl⟩, rfl⟩
  intro hvalid
  exact absurd (not_not.mp hvalid) hinvalid

/-- Otherwise a refused `resume` has written nothing. -/
theorem resume_spares {s : Runtime} {request : ResumeRequest}
    (hresumable : ∀ x l, Resumable s request x l →
      ¬ Unresumable s.state x request.observedBindings) :
    Spares (resume request) s := by
  unfold resume
  apply spares_authorized
  intro x l hserving htoken
  apply spares_get
  split
  · exact Accepts.spares ⟨_, rfl⟩
  rename_i hfresh
  apply spares_refuseIf
  intro hlifecycle
  apply spares_refuseOn
  intro hrecovered
  apply spares_refuseIf
  intro hbindings
  have hchecked : Resumable s request x l := by
    refine ⟨hserving, htoken, hfresh, by simpa using hlifecycle, hrecovered, ?_⟩
    cases heq : x.bindings.equalsGenerations request.observedBindings with
    | true => exact .inl rfl
    | false => exact .inr (by simpa [heq] using hbindings)
  have hvalid := (resumed_valid_iff s.toJournaled x request.observedBindings).mpr
    (hresumable x l hchecked)
  apply Accepts.spares
  apply leads_providedLegal
  · intro hrequired
    rw [hrequired]
    rfl
  apply leads_providedLegal (isLegalTransition_resuming hchecked.lifecycle)
  apply leads_put
  apply leads_get
  apply leads_refuseIf
  · intro hinvalid
    exact absurd hvalid hinvalid
  intro _
  apply leads_retire
  exact ⟨_, rfl⟩

/-! ## Checkpoints -/

/-- Past its checks, `register_checkpoint` enters CHECKPOINTING and refuses if the lineage of the
execution is unusable. -/
theorem Checkpoints.strands {s : Runtime} {request : RegisterCheckpointRequest}
    {x : ExecutionRecord} (h : Checkpoints s request x) (hrunning : x.lifecycle = .running)
    {e : Status} (hdepth : lineageDepth s.state x = .error e) :
    Leads (registerCheckpoint request) s fun r s' => (∃ e, r = .error e) ∧
      s'.toJournaled = s.toJournaled.put (.execution { x with lifecycle := .checkpointing }) := by
  obtain ⟨l, htoken⟩ := h.token
  unfold registerCheckpoint
  apply leads_authorized h.serving htoken
  apply leads_get
  rw [h.fresh]
  apply leads_refuseIf
  · rintro ⟨hno, -⟩
    exact absurd hrunning hno
  intro _
  apply leads_refuseIf
  · intro hzero
    exact absurd hzero h.hashed
  intro _
  apply leads_refuseIf
  · rintro (hno | hno)
    · exact absurd h.expected.1 hno
    · exact absurd h.expected.2 hno
  intro _
  apply leads_enterCheckpointing
  rw [enterCheckpointing, if_pos hrunning, hdepth]
  exact ⟨⟨e, rfl⟩, rfl⟩

/-- Otherwise a refused `register_checkpoint` has written nothing. -/
theorem registerCheckpoint_spares {s : Runtime} {request : RegisterCheckpointRequest}
    (hlineage : ∀ x, Checkpoints s request x → x.lifecycle = .running →
      ∃ depth, lineageDepth s.state x = .ok depth) : Spares (registerCheckpoint request) s := by
  unfold registerCheckpoint
  apply spares_authorized
  intro x l hserving htoken
  apply spares_get
  split
  · split <;> exact Accepts.spares ⟨_, rfl⟩
  rename_i hfresh
  apply spares_refuseIf
  intro hlifecycle
  apply spares_refuseIf
  intro hhashed
  apply spares_refuseIf
  intro hexpected
  apply leads_enterCheckpointing
  apply leads_check
  · intro e hdefect
    by_cases hrunning : x.lifecycle = .running
    · have hchecked : Checkpoints s request x :=
        ⟨hserving, ⟨l, htoken⟩, hfresh, .inl hrunning, hhashed, by simpa using hexpected⟩
      obtain ⟨depth, hdepth⟩ := hlineage x hchecked hrunning
      rw [hdepth] at hdefect
      cases hdefect
    · rw [enterCheckpointing, if_neg hrunning]
      exact fun _ _ => rfl
  intro depth _
  apply Accepts.leads
  apply leads_put
  apply leads_get
  apply leads_putAll
  apply leads_retire
  exact ⟨_, rfl⟩

/-! ## Opening -/

theorem recoverPending_accepts (caller : CallerContext) (ids : List ExecutionId) (s : Runtime) :
    Accepts (recoverPending caller ids) s := by
  induction ids generalizing s with
  | nil => exact ⟨_, rfl⟩
  | cons id rest ih =>
    unfold recoverPending
    apply leads_get
    apply leads_update
    apply leads_bind
    refine leads_mono (ih _) ?_
    rintro r s' ⟨notes, rfl⟩
    exact ⟨_, rfl⟩

/-! ## Every call -/

/-- Memory is as it was, and nothing was written to the store. -/
def Unchanged (s s' : Runtime) : Prop := s'.state = s.state ∧ s'.store = s.store

theorem Op.status_error {α : Type} {m : Op α} {s : Runtime} {e : Status}
    (h : Op.status m s = .error e) : (m.exec s).1 = .error e := by
  unfold Op.status at h
  cases hr : (m.exec s).1 with
  | ok a =>
    rw [hr] at h
    cases h
  | error e' =>
    rw [hr] at h
    cases h
    rfl

theorem Op.status_of_error {α : Type} {m : Op α} {s : Runtime} (h : ∃ e, (m.exec s).1 = .error e) :
    ∃ e, Op.status m s = .error e := by
  obtain ⟨e, he⟩ := h
  refine ⟨e, ?_⟩
  unfold Op.status
  rw [he]
  rfl

theorem Spares.unchanged {α : Type} {m : Op α} {s : Runtime} (h : Spares m s)
    (hrefused : ∃ e, Op.status m s = .error e) : Unchanged s (m.exec s).2 := by
  obtain ⟨e, he⟩ := hrefused
  have hsame : (m.exec s).2.toJournaled = s.toJournaled := h e (Op.status_error he)
  exact ⟨congrArg Journaled.state hsame, congrArg Journaled.store hsame⟩

/-- A written record shows in the store. -/
theorem put_changes {s s' : Runtime} {e : JournalEntry}
    (hj : s'.toJournaled = s.toJournaled.put e) : ¬ Unchanged s s' := by
  rintro ⟨-, hstore⟩
  have hwritten : s'.store = s.store.append e := by rw [hj, Journaled.store_put]
  have hhistory : s.store.history = s.store.history ++ [e] :=
    congrArg FileDurableStore.history (hstore.symm.trans hwritten)
  have hlength := congrArg List.length hhistory
  simp at hlength

/-- The calls that are refused after they have written: a `resume` past its checks whose
continuation is not valid and a `register_checkpoint` past its checks whose lineage is unusable. -/
def Call.Strands (s : Runtime) : Call → Prop
  | .registerCheckpoint request => ∃ x e, Checkpoints s request x ∧ x.lifecycle = .running ∧
      lineageDepth s.state x = .error e
  | .resume request => ∃ x l, Resumable s request x l ∧
      Unresumable s.state x request.observedBindings
  | _ => False

theorem Call.Strands.changes {c : Call} {s : Runtime} (hc : c.Strands s) :
    (∃ e, c.status s = .error e) ∧ ¬ Unchanged s (c.perform s) := by
  cases c with
  | registerCheckpoint request =>
    obtain ⟨x, e, hchecked, hrunning, hdepth⟩ := hc
    obtain ⟨hrefused, hj⟩ := hchecked.strands hrunning hdepth
    exact ⟨Op.status_of_error hrefused, put_changes hj⟩
  | resume request =>
    obtain ⟨x, l, hchecked, hunresumable⟩ := hc
    obtain ⟨hrefused, hj⟩ := hchecked.strands hunresumable
    exact ⟨Op.status_of_error hrefused, put_changes hj⟩
  | _ => cases hc

theorem beginSession_spares (s : Runtime) (worker : WorkerId) (boot : WorkerBootId) :
    Spares (beginSession worker boot) s := by
  unfold beginSession
  apply spares_get
  apply spares_refuseIf
  intro _
  apply spares_refuseIf
  intro _
  apply spares_refuseIf
  intro _
  exact Accepts.spares ⟨_, rfl⟩

theorem fenceAll_accepts (xs : List ExecutionRecord) (s : Runtime) : Accepts (fenceAll xs) s := by
  induction xs generalizing s with
  | nil => exact ⟨_, rfl⟩
  | cons x rest ih =>
    unfold fenceAll
    apply leads_get
    apply leads_putAll
    exact ih _

theorem endSession_spares (s : Runtime) (session : SessionId) : Spares (endSession session) s := by
  unfold endSession
  apply spares_get
  apply spares_require
  intro info _
  apply Accepts.spares
  apply leads_update
  exact fenceAll_accepts _ _

theorem shutdown_spares (s : Runtime) : Spares shutdown s := by
  unfold shutdown
  apply spares_get
  split <;> exact Accepts.spares ⟨_, rfl⟩

theorem takeSnapshot_spares (s : Runtime) (truncate : Bool) : Spares (takeSnapshot truncate) s := by
  unfold takeSnapshot
  apply spares_get
  apply spares_refuseIf
  intro _
  exact Accepts.spares ⟨_, rfl⟩

theorem flush_spares (s : Runtime) : Spares flush s := by
  unfold flush
  apply spares_get
  unfold refuseIf
  split <;> exact fun _ _ => rfl

/-- Every other refusal leaves memory and the store as they were. -/
theorem Call.spares {s : Runtime} {c : Call} (hopen : ∀ config entropy, c ≠ .openRuntime config entropy)
    (hc : ¬ c.Strands s) (hrefused : ∃ e, c.status s = .error e) : Unchanged s (c.perform s) := by
  cases c with
  | openRuntime config entropy => exact absurd rfl (hopen config entropy)
  | shutdown => exact (shutdown_spares s).unchanged hrefused
  | beginSession worker boot => exact (beginSession_spares s worker boot).unchanged hrefused
  | endSession session => exact (endSession_spares s session).unchanged hrefused
  | createExecution caller request =>
    exact (createExecution_spares s caller request).unchanged hrefused
  | updatePolicy caller request execution policy apply =>
    exact (updatePolicy_spares s caller request execution policy apply).unchanged hrefused
  | bindWorker caller request => exact (bindWorker_spares s caller request).unchanged hrefused
  | start request => exact (start_spares s request).unchanged hrefused
  | beginAction request => exact (beginAction_spares s request).unchanged hrefused
  | completeAction request => exact (completeAction_spares s request).unchanged hrefused
  | failAction request => exact (failAction_spares s request).unchanged hrefused
  | reportSideEffect request => exact (reportSideEffect_spares s request).unchanged hrefused
  | registerCheckpoint request =>
    refine (registerCheckpoint_spares ?_).unchanged hrefused
    intro x hchecked hrunning
    cases hdepth : lineageDepth s.state x with
    | ok depth => exact ⟨depth, rfl⟩
    | error e => exact absurd ⟨x, e, hchecked, hrunning, hdepth⟩ hc
  | resume request =>
    refine (resume_spares ?_).unchanged hrefused
    intro x l hchecked hunresumable
    exact hc ⟨x, l, hchecked, hunresumable⟩
  | recover caller request execution =>
    exact (recoverLocked_spares s caller request execution).unchanged hrefused
  | resolveAmbiguity request => exact (resolveAmbiguity_spares s request).unchanged hrefused
  | fence caller request execution =>
    exact (transitionOp_spares s caller request execution _ _ _).unchanged hrefused
  | retire caller request execution =>
    exact (transitionOp_spares s caller request execution _ _ _).unchanged hrefused
  | cancel caller request execution =>
    exact (transitionOp_spares s caller request execution _ _ _).unchanged hrefused
  | drain caller request execution =>
    exact (transitionOp_spares s caller request execution _ _ _).unchanged hrefused
  | completeExecution caller request execution =>
    exact (transitionOp_spares s caller request execution _ _ _).unchanged hrefused
  | advanceExecutionGeneration caller request execution =>
    exact (advance_spares s caller request execution).unchanged hrefused
  | suspendBegin caller request execution =>
    exact (transitionOp_spares s caller request execution _ _ _).unchanged hrefused
  | suspendCommit caller request execution =>
    exact (transitionOp_spares s caller request execution _ _ _).unchanged hrefused
  | takeSnapshot truncate => exact (takeSnapshot_spares s truncate).unchanged hrefused
  | flush => exact (flush_spares s).unchanged hrefused

/-- An execution that was started, suspended and bound again. -/
def suspendedRun : List Event :=
  [openAs 1, createOne, bindTo (deriveExecutionId ⟨1⟩ 1) ⟨2⟩ ⟨7⟩,
    .call (.start { token := firstToken (deriveExecutionId ⟨1⟩ 1) ⟨2⟩ ⟨7⟩ }),
    .call (.suspendBegin { epoch := 1 } .nil (deriveExecutionId ⟨1⟩ 1)),
    .call (.suspendCommit { epoch := 1 } .nil (deriveExecutionId ⟨1⟩ 1)),
    bindTo (deriveExecutionId ⟨1⟩ 1) ⟨2⟩ ⟨7⟩]

/-- The token of the second lease. -/
def secondToken (e : ExecutionId) (worker : WorkerId) (boot : WorkerBootId) : LeaseToken :=
  { firstToken e worker boot with
    incarnation := deriveIncarnationId e 2
    incarnationGeneration := 2
    lease := deriveLeaseId e worker boot 2
    leaseGeneration := 2 }

/-- Resumes with two generations of one binding. -/
def conflictedResume : Call :=
  .resume {
    token := secondToken (deriveExecutionId ⟨1⟩ 1) ⟨2⟩ ⟨7⟩
    observedBindings := { refs := [{ id := ⟨5⟩, generation := 1 }, { id := ⟨5⟩, generation := 2 }] }
    revalidateBindings := true }

end ExecutionFabric
