import ExecutionFabric.Audit.StoredBindings
import ExecutionFabric.Audit.AmbiguityGate
import ExecutionFabric.Audit.BlockConsistency

/-!
# Bindings an execution returns to RUNNING with

A policy may refuse stale bindings, but `resume` overwrites the bindings of the execution
before it mints the continuation it validates: the two always carry the same set. Whether
an execution returns to RUNNING with other generations is up to the request alone.
-/
namespace ExecutionFabric

open Lib Program

/-- `t` is another set than `s`, with other generations. -/
def BindingSet.Differs (s t : BindingSet) : Prop := t ≠ s ∧ s.equalsGenerations t = false

instance (s t : BindingSet) : Decidable (s.Differs t) :=
  inferInstanceAs (Decidable (_ ∧ _))

/-- The execution has left READY, and wherever it runs its bindings do not differ from `b`. -/
structure ExecutionRecord.RanWith (b : BindingSet) (x : ExecutionRecord) : Prop where
  begun : x.lifecycle ≠ .created ∧ x.lifecycle ≠ .ready
  bindings : x.lifecycle = .running ∨ x.lifecycle = .checkpointing → ¬ b.Differs x.bindings

/-- The execution `e` is stored and has run with `b`. -/
def Image.RanWith (e : ExecutionId) (b : BindingSet) (m : Image) : Prop :=
  ∃ x, m.executions e = some x ∧ x.RanWith b

/-- Outside READY and RUNNING: no state the bindings of an execution matter in. -/
def isParked : Lifecycle → Bool
  | .created | .ready | .running | .checkpointing => false
  | _ => true

namespace ExecutionRecord.RanWith

variable {b : BindingSet} {x y : ExecutionRecord}

theorem of_parked (h : isParked y.lifecycle = true) : y.RanWith b := by
  refine ⟨⟨?_, ?_⟩, ?_⟩
  · intro hl
    rw [hl] at h
    cases h
  · intro hl
    rw [hl] at h
    cases h
  · rintro (hl | hl) <;>
    · rw [hl] at h
      cases h

theorem of_active (hactive : y.lifecycle = .running ∨ y.lifecycle = .checkpointing)
    (hbindings : ¬ b.Differs y.bindings) : y.RanWith b := by
  refine ⟨⟨?_, ?_⟩, fun _ => hbindings⟩
  · rintro hl
    rw [hl] at hactive
    rcases hactive with h | h <;> cases h
  · rintro hl
    rw [hl] at hactive
    rcases hactive with h | h <;> cases h

theorem of_same (h : x.RanWith b) (hlifecycle : y.lifecycle = x.lifecycle)
    (hbindings : y.bindings = x.bindings) : y.RanWith b := by
  constructor
  · rw [hlifecycle]
    exact h.begun
  · rw [hlifecycle, hbindings]
    exact h.bindings

theorem unblocked (h : x.RanWith b) : x.unblocked.RanWith b := h.of_same rfl rfl

theorem dispatched (h : x.RanWith b) (a : ActionRecord) (replayed : Option ActionRecord) :
    (dispatched x a replayed).RanWith b :=
  h.of_same rfl rfl

theorem promoted (h : x.RanWith b) {a : ActionRecord} {g : CommitGroupRecord}
    (hg : Promotes x a g) : g.execution.RanWith b := by
  refine h.of_same ?_ (bindings_promotes hg)
  obtain ⟨epoch, hexecution⟩ := hg.execution
  rw [hexecution]
  rfl

/-- What keeps the bindings and either keeps the lifecycle or parks the execution. -/
theorem of_moved (h : x.RanWith b) (hbindings : y.bindings = x.bindings)
    (hlifecycle : y.lifecycle = x.lifecycle ∨ isParked y.lifecycle = true) : y.RanWith b := by
  rcases hlifecycle with hsame | hparked
  · exact h.of_same hsame hbindings
  · exact .of_parked hparked

end ExecutionRecord.RanWith

theorem Image.RanWith.agrees {e : ExecutionId} {b : BindingSet} {m m' : Image} (h : m.RanWith e b)
    (ha : m.Agrees m') : m'.RanWith e b := by
  obtain ⟨x, hx, hran⟩ := h
  obtain ⟨y, f, g, hy, rfl⟩ := ha.symm.execution hx
  exact ⟨y, hy, hran.begun, hran.bindings⟩

/-! ## What a transaction does to the lifecycle -/

section Lifecycles

variable (st : DurableState) (x next : ExecutionRecord)

theorem lifecycle_underPolicy (generation : Nat) :
    (underPolicy x generation).lifecycle = x.lifecycle ∨
      isParked (underPolicy x generation).lifecycle = true := by
  unfold underPolicy ExecutionRecord.withoutLease
  dsimp only
  split
  · split
    · exact .inr rfl
    · exact .inl rfl
  · exact .inl rfl

theorem lifecycle_transitioned (target : Lifecycle) :
    (transitioned st x target).lifecycle = target := by
  unfold transitioned ExecutionRecord.withoutLease
  dsimp only
  split <;> rfl

theorem lifecycle_nextGeneration :
    (nextGeneration x).lifecycle = x.lifecycle ∨ isParked (nextGeneration x).lifecycle = true := by
  unfold nextGeneration
  dsimp only
  split
  · exact .inr rfl
  · exact .inl rfl

theorem lifecycle_recoveredExecution (plan : RecoveryPlan) :
    (recoveredExecution st x (atPlannedCheckpoint next plan) plan).lifecycle = next.lifecycle ∨
      isParked (recoveredExecution st x (atPlannedCheckpoint next plan) plan).lifecycle = true := by
  unfold recoveredExecution atPlannedCheckpoint
  dsimp only
  split
  · exact .inr rfl
  · split <;> exact .inl rfl

theorem lifecycle_fencedExecution :
    (fencedExecution x).lifecycle = x.lifecycle ∨ isParked (fencedExecution x).lifecycle = true := by
  unfold fencedExecution ExecutionRecord.withoutLease
  by_cases hlegal : isLegalTransition x.lifecycle .fenced = true
  · refine .inr ?_
    rw [if_pos hlegal]
    dsimp only
    split <;> rfl
  · refine .inl ?_
    rw [if_neg hlegal]
    dsimp only
    split <;> rfl

theorem bindings_fencedExecution : (fencedExecution x).bindings = x.bindings := by
  unfold fencedExecution ExecutionRecord.withoutLease
  dsimp only
  split <;> split <;> rfl

theorem lifecycle_parkedExecution :
    (parkedExecution x).lifecycle = x.lifecycle ∨ isParked (parkedExecution x).lifecycle = true := by
  unfold parkedExecution
  split
  · exact .inr rfl
  · exact .inl rfl

theorem bindings_parkedExecution : (parkedExecution x).bindings = x.bindings := by
  unfold parkedExecution ExecutionRecord.withoutLease
  split <;> rfl

end Lifecycles

theorem Image.RanWith.reopened {e : ExecutionId} {b : BindingSet} {m : Image}
    (h : m.RanWith e b) : m.reopened.RanWith e b := by
  obtain ⟨x, hx, hran⟩ := h
  refine ⟨parkedExecution x, ?_, hran.of_moved (bindings_parkedExecution x)
    (lifecycle_parkedExecution x)⟩
  show (m.executions e).map parkedExecution = _
  rw [hx]
  rfl

section Transactions

variable {ds : List Derivation} {j : Journaled} {e : ExecutionId} {b : BindingSet}

theorem Succession.resumes {x y : ExecutionRecord} {vs : List JournalEntry}
    (hs : Succession j (.resume e) x y vs) : e = x.id := by
  cases hs <;> rfl

/-- A succession other than a resume keeps what its execution has run with. -/
theorem Succession.ranWith {i : Intent} {x y : ExecutionRecord} {vs : List JournalEntry}
    (hs : Succession j i x y vs) (hresume : ∀ e, i ≠ .resume e)
    (htarget : ∀ e target, i = .transition e target → isParked target = true)
    (h : x.RanWith b) : y.RanWith b := by
  cases hs with
  | updatePolicy generation hgeneration =>
    exact h.of_moved (bindings_underPolicy _ _) (lifecycle_underPolicy _ _)
  | bind request hbindable hlive =>
    -- a bind installs other bindings, but never in RUNNING, and does not reach READY again
    refine .of_parked ?_
    obtain ⟨hcreated, hready⟩ := h.begun
    show isParked (boundLifecycle x.lifecycle) = true
    revert hbindable hcreated hready
    cases x.lifecycle <;> decide
  | start token htoken hready => exact absurd hready h.begun.2
  | begin request htoken hrunning hblocked => exact h.dispatched _ _
  | @complete _ l a request htoken hrunning ha hdefect =>
    exact h.promoted (commitGroupOf_promotes j.state x a request.request request.evidence)
  | fail request htoken ha hambiguous => exact h
  | report request htoken ha hambiguous => exact h
  | enterCheckpoint token htoken hlifecycle =>
    exact .of_active (.inr rfl) (h.bindings hlifecycle)
  | checkpoint request htoken hlifecycle => exact .of_active (.inl rfl) (h.bindings hlifecycle)
  | enterResume request htoken hresumable hrecovery => exact absurd rfl (hresume _)
  | resume request htoken hresumable hrecovery hvalid => exact absurd rfl (hresume _)
  | recoverPlain hlive hopens hreceipt =>
    exact h.of_moved (bindings_recoveredExecution _ _ _ _) (lifecycle_recoveredExecution _ _ _ _)
  | @recoverAmbiguous _ a hlive hopens ha =>
    generalize recordedAmbiguity j.state x (planOf j x) a = amb
    have hblocked : (blockedBy j.state x amb a).RanWith b :=
      h.of_same (lifecycle_blockedBy _ _ _ _) (bindings_blockedBy _ _ _ _)
    exact hblocked.of_moved (bindings_recoveredExecution _ _ _ _)
      (lifecycle_recoveredExecution _ _ _ _)
  | @recoverCommit _ a request hlive hreceipt ha =>
    have hpromoted := h.promoted (commitGroupOf_promotes j.state x a request a.receipt)
    exact hpromoted.of_moved (bindings_recoveredExecution _ _ _ _)
      (lifecycle_recoveredExecution _ _ _ _)
  | @resolveCommit _ amb a request hamb howner hopen ha hresolution =>
    exact (h.promoted (commitGroupOf_promotes j.state x a request.request request.evidence)).unblocked
  | resolveAction request status hamb howner hopen ha hresolution => exact h.unblocked
  | resolveManual request hamb howner hopen ha hresolution => exact h.of_same rfl rfl
  | transition target hlegal =>
    refine h.of_moved (bindings_transitioned _ _ _) (.inr ?_)
    rw [lifecycle_transitioned]
    exact htarget _ _ rfl
  | advance hlive => exact h.of_moved (bindings_nextGeneration _) (lifecycle_nextGeneration _)
  | lose hlive => exact h.of_moved (bindings_fencedExecution _) (lifecycle_fencedExecution _)

/-- Every transaction but a resume of `e` keeps what `e` has run with. -/
theorem Transaction.ranWith {i : Intent} {es : List JournalEntry} (hfree : CollisionFree ds)
    (hw : Working ds j) (ht : Transaction j i es) (hmint : Minted ds j.state.store es)
    (hresume : i ≠ .resume e)
    (htarget : ∀ e target, i = .transition e target → isParked target = true)
    (h : j.state.image.RanWith e b) : (j.write es).state.image.RanWith e b := by
  obtain ⟨z, hz, hran⟩ := h
  cases ht.outline with
  | created hi policy hes =>
    subst hi
    have huntouched := ht.untouched hfree hw hmint (fun _ _ _ hreport => by cases hreport)
      (fun hsome => by cases hsome) ⟨z, hz⟩
    exact ⟨z, huntouched.execution.trans hz, hran⟩
  | @succeeded x y vs hx hsuccession hexecutions heffects =>
    have hid := hsuccession.id
    rw [Image.RanWith, hexecutions]
    by_cases hsame : x.id = e
    · subst hsame
      obtain rfl : x = z := Option.some.inj (Eq.trans (Eq.symm hx) hz)
      refine ⟨y, hid ▸ KeyedMap.insert_self _ _, hsuccession.ranWith ?_ htarget hran⟩
      rintro e rfl
      exact hresume (congrArg Intent.resume hsuccession.resumes)
    · refine ⟨z, ?_, hran⟩
      rw [KeyedMap.insert_of_ne _ fun heq => hsame (hid ▸ heq.symm)]
      exact hz

end Transactions

/-! ## Runs -/

/-- The call resumes `e` with bindings that differ from `b`, and neither a check of `resume` nor the
checkpoint, an ambiguity or the offered set itself stands in its way. -/
def Call.Rebinds (c : Call) (s : Runtime) (e : ExecutionId) (b : BindingSet) : Prop :=
  ∃ request x l, c = .resume request ∧ request.token.execution = e ∧ Resumable s request x l ∧
    ¬ Unresumable s.state x request.observedBindings ∧ b.Differs request.observedBindings

section Runs

variable {ds : List Derivation} {e : ExecutionId} {b : BindingSet} {s : Runtime}

theorem Call.intent_parks {c : Call} {e : ExecutionId} {target : Lifecycle}
    (h : c.intent = some (.transition e target)) : isParked target = true := by
  cases c <;> simp only [Call.intent, reduceCtorEq, Option.some.injEq, Intent.transition.injEq] at h
  all_goals
    obtain ⟨-, rfl⟩ := h
    rfl

theorem Call.resumes_of_intent {c : Call} (h : c.intent = some (.resume e)) :
    ∃ request, c = .resume request ∧ request.token.execution = e := by
  cases c <;> simp only [Call.intent, reduceCtorEq, Option.some.injEq, Intent.resume.injEq] at h
  exact ⟨_, rfl, h⟩

/-- A resume enters RUNNING only with the bindings it was offered. -/
theorem resume_ranWith {request : ResumeRequest} (he : request.token.execution = e)
    (hallow : ¬ (Call.resume request).Rebinds s e b) (h : s.state.image.RanWith e b) :
    ((Call.resume request).perform s).state.image.RanWith e b := by
  have hends : ResumeEnds s request ((resume request).exec s).1 ((resume request).exec s).2 :=
    resume_ends s request
  show ((resume request).exec s).2.state.image.RanWith e b
  generalize ((resume request).exec s).1 = r at hends
  generalize ((resume request).exec s).2 = s' at hends ⊢
  cases hends with
  | quiet hquiet => exact h
  | @entered x l _ error hresumable hwrote =>
    obtain ⟨-, hid⟩ := validateToken_execution hresumable.token
    refine ⟨_, ?_, .of_parked (y := resumingExecution s.state x request.observedBindings) rfl⟩
    rw [show s'.state.image = _ from congrArg (fun j => j.state.image) hwrote.journaled,
      Journaled.image_write, Image.executions_installAll, ← he, ← hid]
    exact KeyedMap.insert_self _ _
  | @resumed x l _ out hresumable hvalid hwrote =>
    obtain ⟨-, hid⟩ := validateToken_execution hresumable.token
    have hsame : ¬ b.Differs request.observedBindings := fun hdiffers =>
      hallow ⟨request, x, l, rfl, he, hresumable,
        (resumed_valid_iff s.toJournaled x request.observedBindings).mp hvalid, hdiffers⟩
    refine ⟨({ resumingExecution s.state x request.observedBindings with
        lifecycle := .running } : ExecutionRecord).continuedBy
      (resumedContinuation s.toJournaled x request.observedBindings), ?_, .of_active (.inl rfl) hsame⟩
    rw [show s'.state.image = _ from congrArg (fun j => j.state.image) hwrote.journaled,
      Journaled.image_write, Image.executions_installAll, resumeRecords, executionsOf_cons,
      executions_continuationRecords, ← he, ← hid]
    exact KeyedMap.insert_self _ _

theorem ranWith_invariance (hfree : CollisionFree ds) :
    Invariance ds (Image.RanWith e b) (fun _ j => j.state.image.RanWith e b)
      fun s c => s.store.directory ≠ none ∧ ¬ c.Rebinds s e b where
  vacant := fun hallow hnone _ => absurd hnone hallow.1
  agrees := fun ha h => h.agrees ha
  transaction := by
    rintro s c i es ⟨-, hallow⟩ hi hj hw h ht hmint
    by_cases hresume : i = .resume e
    · subst hresume
      obtain ⟨request, rfl, he⟩ := Call.resumes_of_intent hi
      rw [← hj]
      exact resume_ranWith he hallow h
    · refine ht.ranWith hfree hw hmint hresume ?_ h
      rintro e target rfl
      exact Call.intent_parks hi
  lose := fun hw h ht hmint => ht.ranWith hfree hw hmint (by rintro ⟨⟩) (by rintro _ _ ⟨⟩) h
  restart := fun _ _ h _ _ himage => himage ▸ h.reopened
  skip := fun h => h
  recover := fun hw h ht hmint => ht.ranWith hfree hw hmint (by rintro ⟨⟩) (by rintro _ _ ⟨⟩) h
  reopened := fun _ h => h

/-- A run that starts with a store meets every open with one. -/
theorem Runs.withStore {admits : Runtime → Call → Prop} {events : List Event} {s' : Runtime}
    (hrun : Runs (keepsJournalAnd admits) s events s') (hhoused : Housed s)
    (hd : s.store.directory ≠ none) :
    Runs (keepsJournalAnd fun s c => s.store.directory ≠ none ∧ admits s c) s events s' := by
  refine (hrun.mono (I := fun s => Housed s ∧ s.store.directory ≠ none) ⟨hhoused, hd⟩ ?_).1
  rintro s e ⟨hhoused, hd⟩ hallow
  obtain ⟨hhoused', hfollows⟩ := hhoused.perform e
  refine ⟨⟨hallow.1, fun c hc => ⟨hd, hallow.2 c hc⟩⟩, hhoused', ?_⟩
  intro hnone
  obtain ⟨d, hd'⟩ := Option.ne_none_iff_exists'.mp hd
  have hid := hfollows.directory d.storeId (by rw [FileDurableStore.directoryId, hd']; rfl)
  rw [FileDurableStore.directoryId, hnone] at hid
  cases hid

end Runs

/-- The policy of the execution refuses stale bindings, as long as the execution is stored. -/
def RefusesStale (e : ExecutionId) (s : Runtime) : Prop :=
  ((s.state.executions.find e).all fun x =>
    policyHas (policyOf s.state x) fun p => p.staleBindingBehavior = .refuse) = true

instance (e : ExecutionId) (s : Runtime) : Decidable (RefusesStale e s) :=
  inferInstanceAs (Decidable (_ = true))

instance decidableAllAdmitted {admits : Runtime → Call → Prop} [∀ s c, Decidable (admits s c)] :
    ∀ (calls : List Call) (s : Runtime), Decidable (AllAdmitted admits calls s)
  | [], _ => inferInstanceAs (Decidable True)
  | c :: rest, s => @instDecidableAnd _ _ inferInstance (decidableAllAdmitted rest (c.perform s))

/-- One memory binding of the generation `generation`. -/
def memoryBinding (generation : UInt64) : BindingSet :=
  { refs := [{ domain := .memory, id := ⟨5⟩, generation := generation }] }

/-- An execution under a refusing policy starts with a binding. -/
def boundToMemory : List Call :=
  let e := deriveExecutionId ⟨1⟩ 1
  [.openRuntime { createIfMissing := true } 1,
    .createExecution { epoch := 1 } { policy := { staleBindingBehavior := .refuse } },
    .bindWorker { epoch := 1 }
      { execution := e, worker := ⟨2⟩, boot := ⟨7⟩, bindings := memoryBinding 1 },
    .start { token := firstToken e ⟨2⟩ ⟨7⟩ }]

/-- It is suspended, bound and resumed with the binding in another generation. -/
def reboundToMemory (generation : UInt64) : List Call :=
  let e := deriveExecutionId ⟨1⟩ 1
  [.suspendBegin { epoch := 1 } .nil e, .suspendCommit { epoch := 1 } .nil e,
    .bindWorker { epoch := 1 }
      { execution := e, worker := ⟨2⟩, boot := ⟨7⟩, bindings := memoryBinding generation },
    .resume { token := secondToken e ⟨2⟩ ⟨7⟩, observedBindings := memoryBinding generation }]

def memoryRuntime : Runtime := performAll (boundToMemory.map .call) {}

def reboundRuntime (generation : UInt64) : Runtime :=
  performAll ((reboundToMemory generation).map .call) memoryRuntime

/-- The one execution of these runs. -/
def soleExecution (s : Runtime) : ExecutionRecord := storedExecution s (deriveExecutionId ⟨1⟩ 1)

end ExecutionFabric
