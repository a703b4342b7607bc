import ExecutionFabric.Audit.Runs

/-!
# Repeated requests

Most operations look their request up before they write anything, so a request that is
still cached writes nothing when it comes a second time. Two operations remember a request
without ever looking it up: a repeated recovery writes one more recovery record, and a
repeated resolution is refused only because its ambiguity is closed.
-/
namespace ExecutionFabric

open Lib Program

/-- The request a call carries; the calls without one carry the nil request. -/
def Call.request : Call → RequestId
  | .createExecution _ request => request.request
  | .updatePolicy _ request _ _ _ => request
  | .bindWorker _ request => request.request
  | .start request => request.request
  | .beginAction request => request.request
  | .completeAction request => request.request
  | .failAction request => request.request
  | .reportSideEffect request => request.request
  | .registerCheckpoint request => request.request
  | .resume request => request.request
  | .recover _ request _ => request
  | .resolveAmbiguity request => request.request
  | .fence _ request _ | .retire _ request _ | .cancel _ request _ | .drain _ request _
  | .completeExecution _ request _ | .advanceExecutionGeneration _ request _
  | .suspendBegin _ request _ | .suspendCommit _ request _ => request
  | _ => .nil

/-- The next commit of `a` does not clash with a stored one. -/
def Uncommitted (st : DurableState) (x : ExecutionRecord) (a : ActionRecord) : Prop :=
  st.commits.find (deriveCommitId x.id a.id a.generation (x.progressGeneration + 1)) = none

/-- Nothing keeps a recovery of `e` from being applied: the execution is not finished, and the
commit a receipt calls for is not there. -/
def Recoverable (s : Runtime) (caller : CallerContext) (e : ExecutionId) : Prop :=
  checkCaller s caller = .ok () ∧ ∃ x, s.state.executions.find e = some x ∧
    isTerminalState x.lifecycle = false ∧
    ∀ a, (planOf s.toJournaled x).commitFromReceipt = true →
      plannedAction s.state (planOf s.toJournaled x) = some a → Uncommitted s.state x a

/-- Nothing keeps a resolution from being applied: its ambiguity is still open, and the commit it
calls for is not there. -/
def Resolvable (s : Runtime) (request : ResolveAmbiguityRequest) : Prop :=
  checkCaller s request.caller = .ok () ∧ ∃ x amb a,
    s.state.executions.find request.execution = some x ∧
    s.state.ambiguities.find request.ambiguity = some amb ∧
    amb.execution = request.execution ∧ amb.generation = request.ambiguityGeneration ∧
    ambiguityIsOpen amb.state = true ∧ s.state.actions.find amb.actionKey = some a ∧
    request.resolution ≠ .open ∧
    (request.resolution = .resolvedApplied ∨ request.resolution = .accepted →
      Uncommitted s.state x a)

/-- The call is one of those that do not look their request up, and would be applied again. -/
def Reapplies (s : Runtime) : Call → Prop
  | .recover caller _ e => Recoverable s caller e
  | .resolveAmbiguity request => Resolvable s request
  | _ => False

/-! ## Calls that look their request up -/

section Rules

variable {α : Type} {s : Runtime} {Q : Except Status α → Runtime → Prop}

/-- The rule for looking up a request that is cached. -/
theorem leads_cached {id : RequestId} {hit : CachedOutcome → Op α} {miss : Op α}
    (h : (lookupRequest s id).isSome = true) (hhit : ∀ o, Leads (hit o) s Q) :
    Leads (match lookupRequest s id with | some o => hit o | none => miss) s Q := by
  obtain ⟨o, ho⟩ := Option.isSome_iff_exists.mp h
  rw [ho]
  exact hhit o

/-- The rule for finding an execution, with the reason of a refusal. -/
theorem leads_findCaller {caller : CallerContext} {id : ExecutionId} {f : ExecutionRecord → Op α}
    (herr : checkCaller s caller ≠ .ok () ∨ s.state.executions.find id = none →
      ∀ e, Q (.error e) s)
    (hok : ∀ x, checkCaller s caller = .ok () → s.state.executions.find id = some x →
      Leads (f x) s Q) :
    Leads (findChecked caller id >>= f) s Q := by
  unfold findChecked
  rw [bind_assoc]
  apply leads_get
  rw [bind_assoc]
  apply leads_check
  · intro e he
    refine herr (.inl fun hcaller => ?_) e
    rw [hcaller] at he
    cases he
  intro _ hcaller
  apply leads_require
  · intro hnone
    exact herr (.inr hnone) _
  exact fun x => hok x hcaller

end Rules

section Cached

variable (s : Runtime)

theorem createExecution_cached (caller : CallerContext) (request : CreateExecutionRequest)
    (h : (lookupRequest s request.request).isSome = true) :
    Leads (createExecution caller request) s fun _ s' => s' = s := by
  unfold createExecution
  apply leads_get
  apply leads_check
  · exact fun _ _ => rfl
  intro _ _
  exact leads_cached h fun o => leads_pure rfl

theorem updatePolicy_cached (caller : CallerContext) (request : RequestId) (e : ExecutionId)
    (policy : ExecutionPolicy) (apply : Bool) (h : (lookupRequest s request).isSome = true) :
    Leads (updatePolicy caller request e policy apply) s fun _ s' => s' = s := by
  unfold updatePolicy
  apply leads_get
  apply leads_check
  · exact fun _ _ => rfl
  intro _ _
  apply leads_refuseIf
  · exact fun _ => rfl
  exact fun hmiss => absurd h hmiss

theorem bindWorker_cached (caller : CallerContext) (request : BindWorkerRequest)
    (h : (lookupRequest s request.request).isSome = true) :
    Leads (bindWorker caller request) s fun _ s' => s' = s := by
  unfold bindWorker
  apply leads_get
  apply leads_check
  · exact fun _ _ => rfl
  intro _ _
  exact leads_cached h fun o => leads_pure rfl

theorem start_cached (request : StartRequest)
    (h : (lookupRequest s request.request).isSome = true) :
    Leads (start request) s fun _ s' => s' = s := by
  unfold start
  apply leads_authorize
  · exact fun _ => rfl
  intro x l _ _
  apply leads_get
  exact leads_cached h fun o => leads_pure rfl

theorem beginAction_cached (request : BeginActionRequest)
    (h : (lookupRequest s request.request).isSome = true) :
    Leads (beginAction request) s fun _ s' => s' = s := by
  unfold beginAction
  apply leads_authorize
  · exact fun _ => rfl
  intro x l _ _
  apply leads_get
  refine leads_cached h fun o => ?_
  split <;> exact leads_pure rfl

theorem completeUncommitted_cached (request : CompleteActionRequest)
    (h : (lookupRequest s request.request).isSome = true) :
    Leads (completeUncommitted request) s fun _ s' => s' = s := by
  unfold completeUncommitted
  apply leads_get
  apply leads_check
  · exact fun _ _ => rfl
  intro found _
  exact leads_cached h fun o => leads_pure rfl

theorem completeAction_cached (request : CompleteActionRequest)
    (h : (lookupRequest s request.request).isSome = true) :
    Leads (completeAction request) s fun _ s' => s' = s := by
  unfold completeAction
  apply leads_get
  apply leads_check
  · exact fun _ _ => rfl
  intro _ _
  split
  · apply leads_check
    · exact fun _ _ => rfl
    intro _ _
    split
    · exact leads_pure rfl
    · exact completeUncommitted_cached s request h
  · exact completeUncommitted_cached s request h

theorem failAction_cached (request : FailActionRequest)
    (h : (lookupRequest s request.request).isSome = true) :
    Leads (failAction request) s fun _ s' => s' = s := by
  unfold failAction
  apply leads_authorize
  · exact fun _ => rfl
  intro x l _ _
  apply leads_get
  exact leads_cached h fun o => leads_pure rfl

theorem reportSideEffect_cached (request : ReportSideEffectRequest)
    (h : (lookupRequest s request.request).isSome = true) :
    Leads (reportSideEffect request) s fun _ s' => s' = s := by
  unfold reportSideEffect
  apply leads_authorize
  · exact fun _ => rfl
  intro x l _ _
  apply leads_get
  exact leads_cached h fun o => leads_pure rfl

theorem registerCheckpoint_cached (request : RegisterCheckpointRequest)
    (h : (lookupRequest s request.request).isSome = true) :
    Leads (registerCheckpoint request) s fun _ s' => s' = s := by
  unfold registerCheckpoint
  apply leads_authorize
  · exact fun _ => rfl
  intro x l _ _
  apply leads_get
  refine leads_cached h fun o => ?_
  split <;> exact leads_pure rfl

theorem resume_cached (request : ResumeRequest)
    (h : (lookupRequest s request.request).isSome = true) :
    Leads (resume request) s fun _ s' => s' = s := by
  unfold resume
  apply leads_authorize
  · exact fun _ => rfl
  intro x l _ _
  apply leads_get
  exact leads_cached h fun o => leads_pure rfl

theorem transitionOp_cached (caller : CallerContext) (request : RequestId) (e : ExecutionId)
    (defect : DurableState → ExecutionRecord → Option Status) (target : Lifecycle) (what : String)
    (h : (lookupRequest s request).isSome = true) :
    Leads (transitionOp caller request e defect target what) s fun _ s' => s' = s := by
  unfold transitionOp
  apply leads_findChecked
  · exact fun _ => rfl
  intro x _ _ _
  apply leads_get
  exact leads_cached h fun o => leads_pure rfl

theorem advance_cached (caller : CallerContext) (request : RequestId) (e : ExecutionId)
    (h : (lookupRequest s request).isSome = true) :
    Leads (advanceExecutionGeneration caller request e) s fun _ s' => s' = s := by
  unfold advanceExecutionGeneration
  apply leads_findChecked
  · exact fun _ => rfl
  intro x _ _ _
  apply leads_get
  exact leads_cached h fun o => leads_pure rfl

end Cached

/-- A call that looks its request up and finds it changes nothing at all. -/
theorem Call.cached {c : Call} {s : Runtime} (hid : c.request.valid = true)
    (h : (lookupRequest s c.request).isSome = true)
    (hrecover : ∀ caller request e, c ≠ .recover caller request e)
    (hresolve : ∀ request, c ≠ .resolveAmbiguity request) : c.perform s = s := by
  cases c with
  | createExecution caller request => exact createExecution_cached s caller request h
  | updatePolicy caller request e policy apply =>
    exact updatePolicy_cached s caller request e policy apply h
  | bindWorker caller request => exact bindWorker_cached s caller request h
  | start request => exact start_cached s request h
  | beginAction request => exact beginAction_cached s request h
  | completeAction request => exact completeAction_cached s request h
  | failAction request => exact failAction_cached s request h
  | reportSideEffect request => exact reportSideEffect_cached s request h
  | registerCheckpoint request => exact registerCheckpoint_cached s request h
  | resume request => exact resume_cached s request h
  | recover caller request e => exact absurd rfl (hrecover caller request e)
  | resolveAmbiguity request => exact absurd rfl (hresolve request)
  | fence caller request e => exact transitionOp_cached s caller request e _ _ _ h
  | retire caller request e => exact transitionOp_cached s caller request e _ _ _ h
  | cancel caller request e => exact transitionOp_cached s caller request e _ _ _ h
  | drain caller request e => exact transitionOp_cached s caller request e _ _ _ h
  | completeExecution caller request e => exact transitionOp_cached s caller request e _ _ _ h
  | advanceExecutionGeneration caller request e => exact advance_cached s caller request e h
  | suspendBegin caller request e => exact transitionOp_cached s caller request e _ _ _ h
  | suspendCommit caller request e => exact transitionOp_cached s caller request e _ _ _ h
  | openRuntime config entropy => cases hid
  | shutdown => cases hid
  | beginSession worker boot => cases hid
  | endSession session => cases hid
  | takeSnapshot truncate => cases hid
  | flush => cases hid

/-! ## Calls that do not -/

/-- Memory and the journal are as they were. -/
def Undisturbed (s s' : Runtime) : Prop := s'.state = s.state ∧ s'.store = s.store

/-- Whoever writes a record changes the journal. -/
theorem not_undisturbed_of_written {s s' : Runtime} {e : JournalEntry} {es : List JournalEntry}
    (h : s'.toJournaled = s.toJournaled.write (e :: es)) : ¬ Undisturbed s s' := by
  rintro ⟨-, hstore⟩
  have hhistory := congrArg FileDurableStore.history hstore
  rw [h, Journaled.history_write] at hhistory
  exact List.cons_ne_nil e es (List.append_right_eq_self.mp hhistory)

theorem not_undisturbed_of_remembered {s s' : Runtime} (e : JournalEntry) (es : List JournalEntry)
    (h : s'.toJournaled = s.toJournaled.write (e :: es)) (id : RequestId) (o : CachedOutcome) :
    ¬ Undisturbed s (s'.remember id o) :=
  not_undisturbed_of_written ((Runtime.toJournaled_remember s' id o).trans h)

theorem commitId_commitGroupOf (st : DurableState) (x : ExecutionRecord) (a : ActionRecord)
    (request : RequestId) (evidence : Evidence) :
    (commitGroupOf st x a request evidence).commit.id =
      deriveCommitId x.id a.id a.generation (x.progressGeneration + 1) := by
  rw [commitGroupOf]

/-- A recovery writes exactly when nothing keeps it from being applied. -/
theorem recoverLocked_undisturbed_iff (s : Runtime) (caller : CallerContext) (request : RequestId)
    (e : ExecutionId) : Leads (recoverLocked caller request e) s fun _ s' =>
      (Undisturbed s s' ↔ ¬ Recoverable s caller e) := by
  have hrefused : ¬ Recoverable s caller e → (Undisturbed s s ↔ ¬ Recoverable s caller e) :=
    fun h => iff_of_true ⟨rfl, rfl⟩ h
  unfold recoverLocked
  apply leads_findCaller
  · intro hreason _
    refine hrefused ?_
    rintro ⟨hcaller, x, hx, -⟩
    rcases hreason with hreason | hreason
    · exact hreason hcaller
    · rw [hreason] at hx
      cases hx
  intro x hcaller hx
  apply leads_refuseIf
  · intro hterminal
    refine hrefused ?_
    rintro ⟨-, y, hy, hlive, -⟩
    obtain rfl := Option.some.inj (hx.symm.trans hy)
    rw [hterminal] at hlive
    cases hlive
  intro hlive
  apply leads_get
  have hclass := classifyRecovery_classified (recoveryInput s.toJournaled x)
  have happlied : (∀ a, (planOf s.toJournaled x).commitFromReceipt = true →
      plannedAction s.state (planOf s.toJournaled x) = some a → Uncommitted s.state x a) →
      Recoverable s caller e := fun hfree => ⟨hcaller, x, hx, by simpa using hlive, hfree⟩
  refine leads_mono (applyRecovery_extends s request x _ _ hclass.not_opens) ?_
  rintro _ s' ⟨-, ⟨rfl, a, hreceipt, ha, htaken⟩ | ⟨-, hreceipt, hj, -⟩ | ⟨a, hopens, -, hj, -⟩ |
    ⟨a, hreceipt, ha, hfree, hj, -⟩⟩
  · refine hrefused ?_
    rintro ⟨-, y, hy, -, hfree⟩
    obtain rfl := Option.some.inj (hx.symm.trans hy)
    rw [commitId_commitGroupOf] at htaken
    exact htaken (hfree a hreceipt ha)
  · refine iff_of_false (not_undisturbed_of_written hj) (not_not.mpr (happlied fun a hr ha => ?_))
    have hnone : plannedAction s.state (planOf s.toJournaled x) = none := hreceipt hr
    rw [ha] at hnone
    cases hnone
  · refine iff_of_false (not_undisturbed_of_written hj) (not_not.mpr (happlied fun b hr _ => ?_))
    have hnone : opensAmbiguity (planOf s.toJournaled x).decision = false := hclass.not_opens hr
    rw [show opensAmbiguity (planOf s.toJournaled x).decision = true from hopens] at hnone
    cases hnone
  · refine iff_of_false (not_undisturbed_of_written hj) (not_not.mpr (happlied fun b _ hb => ?_))
    rw [show plannedAction s.state (planOf s.toJournaled x) = some a from ha] at hb
    cases hb
    rw [commitId_commitGroupOf] at hfree
    exact hfree

/-- A resolution writes exactly when nothing keeps it from being applied. -/
theorem resolveAmbiguity_undisturbed_iff (s : Runtime) (request : ResolveAmbiguityRequest) :
    Leads (resolveAmbiguity request) s fun _ s' =>
      (Undisturbed s s' ↔ ¬ Resolvable s request) := by
  have hrefused : ¬ Resolvable s request → (Undisturbed s s ↔ ¬ Resolvable s request) :=
    fun h => iff_of_true ⟨rfl, rfl⟩ h
  unfold resolveAmbiguity
  apply leads_findCaller
  · intro hreason _
    refine hrefused ?_
    rintro ⟨hcaller, x, -, -, hx, -⟩
    rcases hreason with hreason | hreason
    · exact hreason hcaller
    · rw [hreason] at hx
      cases hx
  intro x hcaller hx
  apply leads_get
  apply leads_require
  · intro hnone
    refine hrefused ?_
    rintro ⟨-, -, amb, -, -, hamb, -⟩
    rw [hnone] at hamb
    cases hamb
  intro amb hamb
  apply leads_refuseIf
  · intro howner
    refine hrefused ?_
    rintro ⟨-, -, amb', -, -, hamb', howner', -⟩
    obtain rfl := Option.some.inj (hamb.symm.trans hamb')
    exact howner howner'
  intro howner
  apply leads_refuseIf
  · intro hgeneration
    refine hrefused ?_
    rintro ⟨-, -, amb', -, -, hamb', -, hgeneration', -⟩
    obtain rfl := Option.some.inj (hamb.symm.trans hamb')
    exact hgeneration hgeneration'
  intro hgeneration
  apply leads_refuseIf
  · intro hclosed
    refine hrefused ?_
    rintro ⟨-, -, amb', -, -, hamb', -, -, hopen, -⟩
    obtain rfl := Option.some.inj (hamb.symm.trans hamb')
    rw [hclosed] at hopen
    cases hopen
  intro hopen
  apply leads_require
  · intro hnone
    refine hrefused ?_
    rintro ⟨-, -, amb', a, -, hamb', -, -, -, ha, -⟩
    obtain rfl := Option.some.inj (hamb.symm.trans hamb')
    rw [hnone] at ha
    cases ha
  intro a ha
  apply leads_refuseIf
  · intro hresolution
    refine hrefused ?_
    rintro ⟨-, -, -, -, -, -, -, -, -, -, hresolution', -⟩
    exact hresolution' hresolution
  intro hresolution
  have happlied : (request.resolution = .resolvedApplied ∨ request.resolution = .accepted →
      Uncommitted s.state x a) → Resolvable s request := fun hfree =>
    ⟨hcaller, x, amb, a, hx, hamb, not_not.mp howner, not_not.mp hgeneration, by simpa using hopen,
      ha, hresolution, hfree⟩
  unfold applyResolution
  split
  case h_1 hres | h_2 hres =>
    apply leads_stageResolution
    · intro htaken _
      refine hrefused ?_
      rintro ⟨-, y, amb', b, hy, hamb', -, -, -, hb, -, hfree⟩
      obtain rfl := Option.some.inj (hx.symm.trans hy)
      obtain rfl := Option.some.inj (hamb.symm.trans hamb')
      obtain rfl := Option.some.inj (ha.symm.trans hb)
      rw [commitId_commitGroupOf] at htaken
      exact htaken (hfree (by simp [hres]))
    intro g hg hfree
    rw [hg, commitId_commitGroupOf] at hfree
    apply leads_put
    apply leads_put
    apply leads_remember
    apply leads_pure
    exact iff_of_false (not_undisturbed_of_remembered (.commitGroup g)
      [.ambiguity (resolvedAmbiguity amb request), .execution g.execution.unblocked] rfl _ _)
      (not_not.mpr (happlied fun _ => hfree))
  case h_3 hres | h_4 hres =>
    rw [bind_assoc]
    apply leads_put
    rw [pure_bind]
    apply leads_put
    apply leads_put
    apply leads_remember
    apply leads_pure
    refine iff_of_false (not_undisturbed_of_remembered (.action { a with
      status := _
      receipt := request.evidence })
      [.ambiguity (resolvedAmbiguity amb request), .execution x.unblocked] rfl _ _)
      (not_not.mpr (happlied fun hr => ?_))
    rw [hres] at hr
    rcases hr with hr | hr <;> cases hr
  case h_5 hres => exact absurd hres hresolution
  case h_6 hres =>
    rw [pure_bind]
    apply leads_put
    apply leads_put
    apply leads_remember
    apply leads_pure
    refine iff_of_false (not_undisturbed_of_remembered (.ambiguity (resolvedAmbiguity amb request))
      [.execution { x with blocked := true }] rfl _ _) (not_not.mpr (happlied fun hr => ?_))
    rw [hres] at hr
    rcases hr with hr | hr <;> cases hr

/-- A call whose request is cached leaves memory and the journal alone, unless it is a recovery or
a resolution that would be applied again. -/
theorem repeat_unchanged_iff (c : Call) (s : Runtime) (hid : c.request.valid = true)
    (hcached : (lookupRequest s c.request).isSome = true) :
    Undisturbed s (c.perform s) ↔ ¬ Reapplies s c := by
  by_cases hrecover : ∃ caller request e, c = .recover caller request e
  · obtain ⟨caller, request, e, rfl⟩ := hrecover
    exact recoverLocked_undisturbed_iff s caller request e
  by_cases hresolve : ∃ request, c = .resolveAmbiguity request
  · obtain ⟨request, rfl⟩ := hresolve
    exact resolveAmbiguity_undisturbed_iff s request
  have hkept : c.perform s = s := Call.cached hid hcached
    (fun caller request e hc => hrecover ⟨caller, request, e, hc⟩)
    (fun request hc => hresolve ⟨request, hc⟩)
  rw [hkept]
  refine iff_of_true ⟨rfl, rfl⟩ fun h => ?_
  cases c with
  | recover caller request e => exact hrecover ⟨caller, request, e, rfl⟩
  | resolveAmbiguity request => exact hresolve ⟨request, rfl⟩
  | _ => exact h

/-- A creation that names its request, for the first caller. -/
def namedCreation : Call := .createExecution { epoch := 1 } { request := ⟨5⟩ }

def namedRecovery : Call := .recover { epoch := 1 } ⟨6⟩ (deriveExecutionId ⟨1⟩ 1)

def createdRuntime : Runtime := performAll [openAs 1, .call namedCreation] {}

def recoveredRuntime : Runtime :=
  performAll [openAs 1, .call namedCreation, .call namedRecovery] {}

theorem repeat_unchanged_created : Undisturbed createdRuntime (namedCreation.perform createdRuntime) :=
  (repeat_unchanged_iff namedCreation createdRuntime (by decide) (by decide +kernel)).mpr id

/-- A recovery repeated under its cached request writes a second recovery record. -/
theorem recovery_repeated : ¬ ∀ (before after : List Event) (c : Call) (s : Runtime),
    c.status (performAll before {}) = .ok () → Runs anyEvent {} (before ++ .call c :: after) s →
    c.request.valid = true → (lookupRequest s c.request).isSome = true →
    Undisturbed s (c.perform s) := by
  intro h
  have hsame := (h [openAs 1, .call namedCreation] [] namedRecovery recoveredRuntime
    (by decide +kernel) (runs_performAll _ _) (by decide) (by decide +kernel)).1
  have hbefore : recoveredRuntime.state.recoveries.size = 1 := by decide +kernel
  have hafter : (namedRecovery.perform recoveredRuntime).state.recoveries.size = 2 := by
    decide +kernel
  rw [hsame, hbefore] at hafter
  cases hafter

end ExecutionFabric
