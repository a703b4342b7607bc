import ExecutionFabric.Audit.Invariance
import ExecutionFabric.Model.Opening

/-!
# Appends the journal refuses

An operation that appends several records ends where the journal refuses one: what it wrote before
stays. Up to there it is the operation of a journal that takes every record, so a run in which no
call is torn in this way is a run of such a journal.
-/
namespace ExecutionFabric

open Lib Program

/-- The program does what it does when the journal takes every record, or a record is refused. -/
abbrev Op.Curtails {α : Type} (m n : Op α) : Prop := Program.Curtails oversizedRecord m n

/-- The runtime refuses the records that the store refuses. -/
theorem payloadLimit_refuses_iff {s : Runtime} {b : ByteStore} (hopen : b.isOpen = true)
    (hlimits : b.limits = s.config.storeLimits) (kind : RecordKind) (e : JournalEntry) :
    payloadLimit.refuses s e = true ↔ (b.append kind e.encode).1 = .error oversizedRecord := by
  unfold ByteStore.append
  rw [if_neg (not_not.mpr hopen), hlimits]
  split
  next hlarge => exact iff_of_true (decide_eq_true hlarge) rfl
  next hfits => exact iff_of_false (fun h => hfits (of_decide_eq_true h)) (by rintro ⟨⟩)

/-! ## Operations -/

section Operations

variable [limit : AppendLimit]

theorem curtails_accept (e : JournalEntry) : Op.Curtails (Op.accept e) (@Op.accept unlimited e) :=
  .after _ fun s => .refuseIf (limit.refuses s e = true) oversizedRecord

theorem curtails_put (e : JournalEntry) : Op.Curtails (Op.put e) (@Op.put unlimited e) :=
  (curtails_accept e).bind fun _ => .refl _

theorem curtails_putAll (es : List JournalEntry) :
    Op.Curtails (Op.putAll es) (@Op.putAll unlimited es) := by
  induction es with
  | nil => exact .refl _
  | cons e rest ih => exact (curtails_put e).bind fun _ => ih

theorem curtails_putStoreMeta : Op.Curtails Op.putStoreMeta (@Op.putStoreMeta unlimited) :=
  .after _ fun _ => (curtails_accept _).bind fun _ => .refl _

theorem curtails_retireOtherContinuations (execution : ExecutionId) (keep : ContinuationId) :
    Op.Curtails (retireOtherContinuations execution keep)
      (@retireOtherContinuations unlimited execution keep) :=
  .after _ fun _ => curtails_putAll _

theorem curtails_putLeaseAs (lease : Option LeaseRecord) (state : LeaseState) :
    Op.Curtails (putLeaseAs lease state) (@putLeaseAs unlimited lease state) := curtails_putAll _

theorem curtails_stageCommit (x : ExecutionRecord) (a : ActionRecord) (request : RequestId)
    (evidence : Evidence) :
    Op.Curtails (stageCommit x a request evidence) (@stageCommit unlimited x a request evidence) :=
  .after _ fun _ => .after _ fun _ => (curtails_put _).bind fun _ => .refl _

theorem curtails_persistTransition (x : ExecutionRecord) (target : Lifecycle) (what : String) :
    Op.Curtails (persistTransition x target what) (@persistTransition unlimited x target what) := by
  refine .after _ fun _ => .after _ fun s => ?_
  split
  · exact (curtails_putLeaseAs _ _).bind fun _ => curtails_put _
  · exact curtails_put _

theorem curtails_createExecution (caller : CallerContext) (request : CreateExecutionRequest) :
    Op.Curtails (createExecution caller request) (@createExecution unlimited caller request) := by
  refine .after _ fun s => .after _ fun _ => ?_
  split
  · exact .refl _
  · refine .after _ fun _ => .after _ fun _ => .after _ fun _ => ?_
    refine curtails_putStoreMeta.bind fun _ => (curtails_put _).bind fun _ => ?_
    exact (curtails_put _).bind fun _ => .refl _

theorem curtails_updatePolicy (caller : CallerContext) (request : RequestId) (id : ExecutionId)
    (policy : ExecutionPolicy) (apply : Bool) :
    Op.Curtails (updatePolicy caller request id policy apply)
      (@updatePolicy unlimited caller request id policy apply) := by
  refine .after _ fun s => .after _ fun _ => .after _ fun _ => .after _ fun x => .after _ fun _ => ?_
  split
  · exact .refl _
  · refine (curtails_put _).bind fun _ => (curtails_putLeaseAs _ _).provided.bind fun _ => ?_
    refine .after _ fun _ => (curtails_putAll _).bind fun _ => ?_
    exact (curtails_put _).bind fun _ => .refl _

theorem curtails_bindWorker (caller : CallerContext) (request : BindWorkerRequest) :
    Op.Curtails (bindWorker caller request) (@bindWorker unlimited caller request) := by
  refine .after _ fun s => .after _ fun _ => ?_
  split
  · exact .refl _
  · refine .after _ fun _ => .after _ fun x => .after _ fun _ => .after _ fun _ => ?_
    refine .after _ fun _ => (curtails_putLeaseAs _ _).provided.bind fun _ => .after _ fun _ => ?_
    exact (curtails_put _).bind fun _ => (curtails_put _).bind fun _ => .refl _

theorem curtails_start (request : StartRequest) :
    Op.Curtails (start request) (@start unlimited request) := by
  refine .after _ fun x => .after _ fun s => ?_
  split
  · exact .refl _
  · refine .after _ fun _ => .after _ fun _ => (curtails_retireOtherContinuations _ _).bind fun _ => ?_
    exact (curtails_put _).bind fun _ => (curtails_put _).bind fun _ => .refl _

theorem curtails_beginAction (request : BeginActionRequest) :
    Op.Curtails (beginAction request) (@beginAction unlimited request) := by
  refine .after _ fun x => .after _ fun s => ?_
  split
  · exact .refl _
  · refine .after _ fun _ => .after _ fun _ => .after _ fun _ => .after _ fun _ => .after _ fun _ => ?_
    refine .after _ fun _ => .after _ fun _ => (curtails_putAll _).bind fun _ => ?_
    exact (curtails_put _).bind fun _ => (curtails_put _).bind fun _ => .refl _

theorem curtails_completeUncommitted (request : CompleteActionRequest) :
    Op.Curtails (completeUncommitted request) (@completeUncommitted unlimited request) := by
  refine .after _ fun s => .after _ fun found => ?_
  dsimp only
  split
  · exact .refl _
  · refine .after _ fun _ => .after _ fun a => .after _ fun _ => ?_
    exact (curtails_stageCommit _ _ _ _).bind fun _ => .refl _

theorem curtails_completeAction (request : CompleteActionRequest) :
    Op.Curtails (completeAction request) (@completeAction unlimited request) := by
  refine .after _ fun s => .after _ fun _ => ?_
  split
  · refine .after _ fun _ => ?_
    split
    · exact .refl _
    · exact curtails_completeUncommitted request
  · exact curtails_completeUncommitted request

theorem curtails_failAction (request : FailActionRequest) :
    Op.Curtails (failAction request) (@failAction unlimited request) := by
  refine .after _ fun x => .after _ fun s => ?_
  split
  · exact .refl _
  · refine .after _ fun a => .after _ fun _ => .after _ fun _ => .after _ fun _ => ?_
    exact (curtails_put _).bind fun _ => .refl _

theorem curtails_reportSideEffect (request : ReportSideEffectRequest) :
    Op.Curtails (reportSideEffect request) (@reportSideEffect unlimited request) := by
  refine .after _ fun x => .after _ fun s => ?_
  split
  · exact .refl _
  · refine .after _ fun a => .after _ fun _ => .after _ fun _ => ?_
    exact (curtails_put _).bind fun _ => .refl _

theorem curtails_registerCheckpoint (request : RegisterCheckpointRequest) :
    Op.Curtails (registerCheckpoint request) (@registerCheckpoint unlimited request) := by
  refine .after _ fun x => .after _ fun s => ?_
  split
  · exact .refl _
  · refine .after _ fun _ => .after _ fun _ => .after _ fun _ => ?_
    refine (Curtails.provided (.after _ fun _ => curtails_put _)).bind fun _ => .after _ fun _ => ?_
    refine (curtails_put _).bind fun _ => .after _ fun _ => (curtails_putAll _).bind fun _ => ?_
    refine (curtails_retireOtherContinuations _ _).bind fun _ => (curtails_put _).bind fun _ => ?_
    exact (curtails_put _).bind fun _ => .refl _

theorem curtails_resume (request : ResumeRequest) :
    Op.Curtails (resume request) (@resume unlimited request) := by
  refine .after _ fun x => .after _ fun s => ?_
  split
  · exact .refl _
  · refine .after _ fun _ => .after _ fun _ => .after _ fun _ => .after _ fun _ => .after _ fun _ => ?_
    refine (curtails_put _).bind fun _ => .after _ fun _ => .after _ fun _ => .after _ fun _ => ?_
    refine (curtails_retireOtherContinuations _ _).bind fun _ => (curtails_put _).bind fun _ => ?_
    exact (curtails_put _).bind fun _ => .refl _

theorem curtails_recordAmbiguity (x : ExecutionRecord) (plan : RecoveryPlan)
    (a : Option ActionRecord) :
    Op.Curtails (recordAmbiguity x plan a) (@recordAmbiguity unlimited x plan a) := by
  refine .after _ fun s => ?_
  split
  · exact (curtails_put _).bind fun _ => (curtails_put _).bind fun _ => .refl _
  · exact .refl _

theorem curtails_commitFromReceipt (x next : ExecutionRecord) (plan : RecoveryPlan)
    (request : RequestId) (a : Option ActionRecord) :
    Op.Curtails (commitFromReceipt x next plan request a)
      (@commitFromReceipt unlimited x next plan request a) := by
  unfold commitFromReceipt
  split
  · exact (curtails_stageCommit _ _ _ _).bind fun _ => .refl _
  · exact .refl _

theorem curtails_recoverLocked (caller : CallerContext) (request : RequestId) (id : ExecutionId) :
    Op.Curtails (recoverLocked caller request id) (@recoverLocked unlimited caller request id) := by
  refine .after _ fun x => .after _ fun _ => .after _ fun s => .after _ fun s' => ?_
  refine (curtails_recordAmbiguity _ _ _).bind fun _ => ?_
  refine (curtails_commitFromReceipt _ _ _ _ _).bind fun _ => .after _ fun _ => ?_
  exact (curtails_put _).bind fun _ => (curtails_put _).bind fun _ => .refl _

theorem curtails_applyResolution (x : ExecutionRecord) (a : ActionRecord)
    (request : ResolveAmbiguityRequest) :
    Op.Curtails (applyResolution x a request) (@applyResolution unlimited x a request) := by
  unfold applyResolution
  split
  · exact (curtails_stageCommit _ _ _ _).bind fun _ => .refl _
  · exact (curtails_stageCommit _ _ _ _).bind fun _ => .refl _
  · exact (curtails_put _).bind fun _ => .refl _
  · exact (curtails_put _).bind fun _ => .refl _
  · exact .refl _
  · exact .refl _

theorem curtails_resolveAmbiguity (request : ResolveAmbiguityRequest) :
    Op.Curtails (resolveAmbiguity request) (@resolveAmbiguity unlimited request) := by
  refine .after _ fun x => .after _ fun s => .after _ fun amb => .after _ fun _ => ?_
  refine .after _ fun _ => .after _ fun _ => .after _ fun a => .after _ fun _ => ?_
  refine (curtails_applyResolution _ _ _).bind fun _ => (curtails_put _).bind fun _ => ?_
  exact (curtails_put _).bind fun _ => .refl _

theorem curtails_transitionOp (caller : CallerContext) (request : RequestId) (id : ExecutionId)
    (defect : DurableState → ExecutionRecord → Option Status) (target : Lifecycle) (what : String) :
    Op.Curtails (transitionOp caller request id defect target what)
      (@transitionOp unlimited caller request id defect target what) := by
  refine .after _ fun x => .after _ fun s => ?_
  split
  · exact .refl _
  · exact .after _ fun _ => (curtails_persistTransition _ _ _).bind fun _ => .refl _

theorem curtails_advanceExecutionGeneration (caller : CallerContext) (request : RequestId)
    (id : ExecutionId) : Op.Curtails (advanceExecutionGeneration caller request id)
      (@advanceExecutionGeneration unlimited caller request id) := by
  refine .after _ fun x => .after _ fun s => ?_
  split
  · exact .refl _
  · refine .after _ fun _ => (curtails_putAll _).bind fun _ => ?_
    refine (curtails_putLeaseAs _ _).provided.bind fun _ => .after _ fun _ => ?_
    exact (curtails_put _).bind fun _ => .refl _

theorem curtails_fenceAll (xs : List ExecutionRecord) :
    Op.Curtails (fenceAll xs) (@fenceAll unlimited xs) := by
  induction xs with
  | nil => exact .refl _
  | cons x rest ih => exact .after _ fun s => (curtails_putAll _).bind fun _ => ih

theorem curtails_endSession (session : SessionId) :
    Op.Curtails (endSession session) (@endSession unlimited session) :=
  .after _ fun _ => .after _ fun _ => .after _ fun _ => curtails_fenceAll _

/-! ## Calls -/

/-- The part of `openRuntime` before the recoveries. -/
def reopenedStore (config : RuntimeConfig) (entropy : UInt64) :
    Op (LoadReport × Reconciliation × List LeaseRecord × List ExecutionRecord) := do
  let s ← get
  refuseIf (s.isOpen = true) (err .alreadyExists "runtime is already open")
  Program.update fun s => { s with config := config, shuttingDown := false }
  let report ← loadState entropy
  let reconciled ← reconcile
  let restarted ← restart
  Program.update fun s => { s with isOpen := true }
  return (report, reconciled, restarted)

/-- The recoveries of `openRuntime`, and what it reports. -/
def recoverReopened
    (r : LoadReport × Reconciliation × List LeaseRecord × List ExecutionRecord) : Op OpenOutcome := do
  let s ← get
  let notes ← recoverPending { epoch := s.state.epoch } (pendingOf s.state)
  return {
    previousEpoch := s.state.epoch - 1
    epoch := s.state.epoch
    created := !r.1.snapshotPresent && r.1.recordsLoaded = 0
    reclassified := r.2.2.2.map ExecutionRecord.id
    leasesRevoked := r.2.2.1.length
    reconciledCommits := r.2.1.repairs.length
    detail := (if r.2.1.changed then "reconciled " ++ toString r.2.1.repairs.length ++
      " commit(s) whose aggregate update was lost; " else "") ++ notes }

theorem openRuntime_parts (config : RuntimeConfig) (entropy : UInt64) :
    openRuntime config entropy = reopenedStore config entropy >>= recoverReopened := by
  simp only [openRuntime, reopenedStore, recoverReopened, pendingOf, bind_assoc, pure_bind]

theorem curtails_appendAll (es : List JournalEntry) :
    Op.Curtails (Op.appendAll es) (@Op.appendAll unlimited es) := by
  induction es with
  | nil => exact .refl _
  | cons e rest ih => exact (curtails_accept e).bind fun _ => .after _ fun _ => ih

theorem curtails_reopenedStore (config : RuntimeConfig) (entropy : UInt64) :
    Op.Curtails (reopenedStore config entropy) (@reopenedStore unlimited config entropy) := by
  refine .after _ fun s => .after _ fun _ => .after _ fun _ => .after _ fun _ => ?_
  refine Curtails.bind (.after _ fun _ => .after _ fun _ => ?_) fun _ => ?_
  · exact (curtails_appendAll _).bind fun _ => .refl _
  refine Curtails.bind (.after _ fun _ => .after _ fun _ => ?_) fun _ => .refl _
  refine curtails_putStoreMeta.bind fun _ => .after _ fun _ => (curtails_putAll _).bind fun _ => ?_
  refine .after _ fun _ => (curtails_putAll _).bind fun _ => .after _ fun _ => ?_
  exact (curtails_putAll _).bind fun _ => .refl _

/-- No recovery of the list is refused an append. -/
def RecoversWhole (caller : CallerContext) : List ExecutionId → Runtime → Prop
  | [], _ => True
  | id :: rest, s => ((recoverLocked caller .nil id).exec s).1 ≠ .error oversizedRecord ∧
    RecoversWhole caller rest ((recoverLocked caller .nil id).exec s).2

theorem recoverPending_whole {caller : CallerContext} {ids : List ExecutionId} {s : Runtime}
    (h : RecoversWhole caller ids s) :
    (recoverPending caller ids).exec s = (@recoverPending unlimited caller ids).exec s := by
  induction ids generalizing s with
  | nil => rfl
  | cons id rest ih =>
    have hsame := (curtails_recoverLocked caller .nil id).exec_eq h.1
    have hrest := ih h.2
    rw [hsame] at hrest
    unfold recoverPending
    rw [exec_get_bind, exec_get_bind, hsame, exec_update_bind, exec_update_bind, exec_bind,
      exec_bind, hrest]

/-- The recoveries a call makes on the side, and the runtime they start from. -/
def Call.recoveries (c : Call) (s : Runtime) : List ExecutionId × Runtime :=
  match c with
  | .openRuntime config entropy =>
    let reopened := ((@reopenedStore unlimited config entropy).exec s).2
    (pendingOf reopened.state, reopened)
  | _ => ([], s)

/-- The journal refuses no append of the call. -/
def Call.Unrefused (c : Call) (s : Runtime) : Prop :=
  c.status s ≠ .error oversizedRecord ∧
    RecoversWhole { epoch := (c.recoveries s).2.state.epoch } (c.recoveries s).1 (c.recoveries s).2

omit limit in
theorem Op.Curtails.whole {α : Type} {m n : Op α} (h : Op.Curtails m n) {s : Runtime}
    (hs : Op.status m s ≠ .error oversizedRecord) : (m.exec s).2 = (n.exec s).2 := by
  refine congrArg Prod.snd (h.exec_eq fun hrefused => hs ?_)
  unfold Op.status
  rw [hrefused]
  rfl

/-- An open is whole if the part before the recoveries is and every recovery is. -/
theorem openRuntime_whole {config : RuntimeConfig} {entropy : UInt64} {s : Runtime}
    (h : (Call.openRuntime config entropy).Unrefused s) :
    ((openRuntime config entropy).exec s).2 = ((@openRuntime unlimited config entropy).exec s).2 := by
  obtain ⟨hstatus, hrecovers⟩ := h
  have hends : ((openRuntime config entropy).exec s).1 = .error oversizedRecord ∨
      (openRuntime config entropy).exec s = (@openRuntime unlimited config entropy).exec s := by
    rw [openRuntime_parts, @openRuntime_parts unlimited]
    refine Curtails.bind_at (curtails_reopenedStore config entropy s) fun r s' hr => .inr ?_
    have hreopened : ((@reopenedStore unlimited config entropy).exec s).2 = s' := congrArg Prod.snd hr
    unfold Call.recoveries at hrecovers
    dsimp only at hrecovers
    rw [hreopened] at hrecovers
    unfold recoverReopened
    rw [exec_get_bind, exec_get_bind, exec_bind, exec_bind, recoverPending_whole hrecovers]
  refine congrArg Prod.snd (hends.resolve_left fun hrefused => hstatus ?_)
  show Except.map _ _ = _
  rw [hrefused]
  rfl

/-- What the journal refuses no append of does what it does when the journal takes every record. -/
theorem Call.whole_of_unrefused {c : Call} {s : Runtime} (h : c.Unrefused s) :
    c.perform s = @Call.perform unlimited c s := by
  have hstatus := h.1
  cases c with
  | openRuntime config entropy => exact openRuntime_whole h
  | shutdown => rfl
  | beginSession worker boot => rfl
  | endSession session => exact (curtails_endSession session).whole hstatus
  | createExecution caller request =>
    exact (curtails_createExecution caller request).whole hstatus
  | updatePolicy caller request execution policy apply =>
    exact (curtails_updatePolicy caller request execution policy apply).whole hstatus
  | bindWorker caller request => exact (curtails_bindWorker caller request).whole hstatus
  | start request => exact (curtails_start request).whole hstatus
  | beginAction request => exact (curtails_beginAction request).whole hstatus
  | completeAction request => exact (curtails_completeAction request).whole hstatus
  | failAction request => exact (curtails_failAction request).whole hstatus
  | reportSideEffect request => exact (curtails_reportSideEffect request).whole hstatus
  | registerCheckpoint request => exact (curtails_registerCheckpoint request).whole hstatus
  | resume request => exact (curtails_resume request).whole hstatus
  | recover caller request execution =>
    exact (curtails_recoverLocked caller request execution).whole hstatus
  | resolveAmbiguity request => exact (curtails_resolveAmbiguity request).whole hstatus
  | fence caller request execution => exact (curtails_transitionOp _ _ _ _ _ _).whole hstatus
  | retire caller request execution => exact (curtails_transitionOp _ _ _ _ _ _).whole hstatus
  | cancel caller request execution => exact (curtails_transitionOp _ _ _ _ _ _).whole hstatus
  | drain caller request execution => exact (curtails_transitionOp _ _ _ _ _ _).whole hstatus
  | completeExecution caller request execution =>
    exact (curtails_transitionOp _ _ _ _ _ _).whole hstatus
  | advanceExecutionGeneration caller request execution =>
    exact (curtails_advanceExecutionGeneration caller request execution).whole hstatus
  | suspendBegin caller request execution =>
    exact (curtails_transitionOp _ _ _ _ _ _).whole hstatus
  | suspendCommit caller request execution =>
    exact (curtails_transitionOp _ _ _ _ _ _).whole hstatus
  | takeSnapshot truncate => rfl
  | flush => rfl

/-! ## Runs -/

/-- The call leaves the runtime as it was, or does what it does when the journal takes every
record. -/
def Call.Whole (c : Call) (s : Runtime) : Prop :=
  c.perform s = s ∨ c.perform s = @Call.perform unlimited c s

/-- The allowed events no refused append tears. -/
def untorn (allow : Runtime → Event → Prop) (s : Runtime) (e : Event) : Prop :=
  allow s e ∧ ∀ c, e = .call c → c.Whole s

/-- The events of an untorn run that change something are a run of a journal that takes every
record. -/
theorem Runs.whole {allow allow' : Runtime → Event → Prop} {events : List Event} {s s' : Runtime}
    (hrun : Runs (untorn allow) s events s')
    (hallow : ∀ s e, allow s e → e.perform s = @Event.perform unlimited e s → allow' s e) :
    ∃ events', @Runs unlimited allow' s events' s' := by
  induction hrun with
  | nil s => exact ⟨[], @Runs.nil unlimited allow' s⟩
  | @cons s s' e events h rest ih =>
    obtain ⟨events', hrest⟩ := ih
    have hends : e.perform s = s ∨ e.perform s = @Event.perform unlimited e s := by
      cases e with
      | call c => exact h.2 c rfl
      | crash kept => exact .inr rfl
    rcases hends with hsame | hwhole
    · rw [hsame] at hrest
      exact ⟨events', hrest⟩
    · rw [hwhole] at hrest
      exact ⟨e :: events', @Runs.cons unlimited allow' _ _ _ _ (hallow s e h.1 hwhole) hrest⟩

/-- The journal refuses no append of the event. -/
def Event.Unrefused (e : Event) (s : Runtime) : Prop :=
  match e with
  | .call c => c.Unrefused s
  | .crash _ => True

/-- The journal refuses no append of the events, one after the other. -/
def AllUnrefused : List Event → Runtime → Prop
  | [], _ => True
  | e :: rest, s => e.Unrefused s ∧ AllUnrefused rest (e.perform s)

/-- A run of a journal that takes every record is a run of one that refuses none of its appends. -/
theorem runs_untorn {allow : Runtime → Event → Prop} {events : List Event} {s s' : Runtime}
    (hrun : @Runs unlimited allow s events s') (h : AllUnrefused events s) :
    Runs (untorn allow) s events s' := by
  induction events generalizing s with
  | nil =>
    cases hrun with
    | nil => exact .nil _
  | cons e rest ih =>
    cases hrun with
    | cons hallow hrest =>
      obtain ⟨hunrefused, hall⟩ := h
      have hwhole : e.perform s = @Event.perform unlimited e s := by
        cases e with
        | call c => exact Call.whole_of_unrefused hunrefused
        | crash kept => rfl
      refine .cons ⟨hallow, ?_⟩ (ih ?_ hall)
      · rintro c rfl
        exact .inr hwhole
      · rw [hwhole]
        exact hrest

end Operations

section Decisions

variable {limit : AppendLimit}

instance decidableRecoversWhole (caller : CallerContext) : ∀ (ids : List ExecutionId) (s : Runtime),
    Decidable (@RecoversWhole limit caller ids s)
  | [], _ => .isTrue trivial
  | _ :: rest, _ => @instDecidableAnd _ _ _ (decidableRecoversWhole caller rest _)

instance (c : Call) (s : Runtime) : Decidable (@Call.Unrefused limit c s) :=
  inferInstanceAs (Decidable (_ ∧ _))

instance : (e : Event) → (s : Runtime) → Decidable (@Event.Unrefused limit e s)
  | .call c, s => inferInstanceAs (Decidable (@Call.Unrefused limit c s))
  | .crash _, _ => .isTrue trivial

instance decidableAllUnrefused : ∀ (events : List Event) (s : Runtime),
    Decidable (@AllUnrefused limit events s)
  | [], _ => .isTrue trivial
  | _ :: rest, _ => @instDecidableAnd _ _ _ (decidableAllUnrefused rest _)

end Decisions

end ExecutionFabric
