import ExecutionFabric.Audit.Ledger

/-!
# Counters of an execution

Tokens, continuations and checkpoints are judged by the generations they carry. Over a run the
counters that an execution keeps for this are never taken back, whatever operation reaches it; the
progress generation is that of the ledger.
-/
namespace ExecutionFabric

open Lib

/-- No counter of `x` is larger than the same counter of `y`. -/
structure ExecutionRecord.CountedBy (x y : ExecutionRecord) : Prop where
  createdSequence : y.createdSequence = x.createdSequence
  generation : x.generation ≤ y.generation
  incarnationGeneration : x.incarnationGeneration ≤ y.incarnationGeneration
  policyGeneration : x.policyGeneration ≤ y.policyGeneration
  leaseGeneration : x.leaseGeneration ≤ y.leaseGeneration
  progressGeneration : x.progressGeneration ≤ y.progressGeneration
  recoveryGeneration : x.recoveryGeneration ≤ y.recoveryGeneration
  committedActions : x.committedActions ≤ y.committedActions
  replayCount : x.replayCount ≤ y.replayCount

/-- The counters of an execution. -/
def ExecutionRecord.counters (x : ExecutionRecord) : List Nat :=
  [x.createdSequence, x.generation, x.incarnationGeneration, x.policyGeneration, x.leaseGeneration,
    x.progressGeneration, x.recoveryGeneration, x.committedActions, x.replayCount]

section Versions

variable {j : Journaled} {x y z : ExecutionRecord}

/-- Versions with the same counters. -/
theorem ExecutionRecord.CountedBy.of_same (h : y.counters = x.counters) : x.CountedBy y := by
  simp only [ExecutionRecord.counters, List.cons.injEq, and_true] at h
  obtain ⟨hs, hg, hi, hp, hl, hn, hr, hc, hm⟩ := h
  exact ⟨hs, hg.ge, hi.ge, hp.ge, hl.ge, hn.ge, hr.ge, hc.ge, hm.ge⟩

theorem ExecutionRecord.CountedBy.refl (x : ExecutionRecord) : x.CountedBy x := .of_same rfl

theorem ExecutionRecord.CountedBy.trans (h : x.CountedBy y) (h' : y.CountedBy z) :
    x.CountedBy z where
  createdSequence := h'.createdSequence.trans h.createdSequence
  generation := h.generation.trans h'.generation
  incarnationGeneration := h.incarnationGeneration.trans h'.incarnationGeneration
  policyGeneration := h.policyGeneration.trans h'.policyGeneration
  leaseGeneration := h.leaseGeneration.trans h'.leaseGeneration
  progressGeneration := h.progressGeneration.trans h'.progressGeneration
  recoveryGeneration := h.recoveryGeneration.trans h'.recoveryGeneration
  committedActions := h.committedActions.trans h'.committedActions
  replayCount := h.replayCount.trans h'.replayCount

theorem counted_promotes {a : ActionRecord} {g : CommitGroupRecord} (hg : Promotes x a g) :
    x.CountedBy g.execution := by
  obtain ⟨epoch, hexecution⟩ := hg.execution
  rw [hexecution]
  exact { ExecutionRecord.CountedBy.refl x with
    progressGeneration := Nat.le_succ _
    committedActions := Nat.le_succ _ }

theorem counted_underPolicy : x.CountedBy (underPolicy x (x.policyGeneration + 1)) := by
  have hnext : x.CountedBy { x with policyGeneration := x.policyGeneration + 1 } :=
    { ExecutionRecord.CountedBy.refl x with policyGeneration := Nat.le_succ _ }
  unfold underPolicy ExecutionRecord.withoutLease
  dsimp only
  split
  · split <;> exact hnext.trans (.of_same rfl)
  · exact hnext

theorem counted_boundExecution (st : DurableState) (request : BindWorkerRequest) :
    x.CountedBy (boundExecution st x request) := by
  have hincarnated : x.CountedBy (incarnated x request.boot) := by
    unfold incarnated
    split
    · exact .refl x
    · exact { ExecutionRecord.CountedBy.refl x with incarnationGeneration := Nat.le_succ _ }
  have hlease : (incarnated x request.boot).leaseGeneration = x.leaseGeneration := by
    unfold incarnated
    split <;> rfl
  have hgranted : (incarnated x request.boot).leaseGeneration ≤
      (grantedLease st x request).generation := by
    rw [hlease]
    exact Nat.le_succ _
  refine hincarnated.trans ?_
  exact { ExecutionRecord.CountedBy.refl (incarnated x request.boot) with
    leaseGeneration := hgranted }

theorem counted_dispatched (a : ActionRecord) (replayed : Option ActionRecord) :
    x.CountedBy (dispatched x a replayed) := by
  cases replayed with
  | none => exact .of_same rfl
  | some b => exact { ExecutionRecord.CountedBy.refl x with replayCount := Nat.le_succ _ }

theorem counted_blockedBy (st : DurableState) (amb : AmbiguityRecord) (a : ActionRecord) :
    x.CountedBy (blockedBy st x amb a) := by
  unfold blockedBy
  dsimp only
  split <;> exact .of_same rfl

/-- A recovery numbers its record after the last one of the execution. -/
theorem counted_recoveredFrom (h : x.CountedBy y) (hrecovery : y.recoveryGeneration =
    x.recoveryGeneration) : x.CountedBy (recoveredFrom j x y) := by
  have hplanned : y.CountedBy (atPlannedCheckpoint y (planOf j x)) := by
    unfold atPlannedCheckpoint
    split <;> exact .of_same rfl
  have hsame : (atPlannedCheckpoint y (planOf j x)).recoveryGeneration = x.recoveryGeneration := by
    rw [← hrecovery]
    unfold atPlannedCheckpoint
    split <;> rfl
  have hnext : (atPlannedCheckpoint y (planOf j x)).recoveryGeneration ≤
      x.recoveryGeneration + 1 := by omega
  refine (h.trans hplanned).trans ?_
  exact { ExecutionRecord.CountedBy.refl (atPlannedCheckpoint y (planOf j x)) with
    recoveryGeneration := hnext }

theorem counted_transitioned (st : DurableState) (target : Lifecycle) :
    x.CountedBy (transitioned st x target) := by
  unfold transitioned ExecutionRecord.withoutLease
  dsimp only
  split <;> exact .of_same rfl

theorem counted_nextGeneration (epoch : Nat) :
    x.CountedBy { nextGeneration x with epoch := epoch } := by
  have hnext : x.CountedBy { x with generation := x.generation + 1 } :=
    { ExecutionRecord.CountedBy.refl x with generation := Nat.le_succ _ }
  unfold nextGeneration ExecutionRecord.withoutLease
  dsimp only
  split <;> exact hnext.trans (.of_same rfl)

theorem counted_fencedExecution : x.CountedBy (fencedExecution x) := by
  unfold fencedExecution ExecutionRecord.withoutLease
  dsimp only
  split <;> split <;> exact .of_same rfl

theorem counted_parkedExecution : x.CountedBy (parkedExecution x) := by
  unfold parkedExecution ExecutionRecord.withoutLease
  split <;> exact .of_same rfl

theorem recoveryGeneration_promotes {a : ActionRecord} {g : CommitGroupRecord}
    (hg : Promotes x a g) : g.execution.recoveryGeneration = x.recoveryGeneration := by
  obtain ⟨epoch, hexecution⟩ := hg.execution
  rw [hexecution]
  rfl

theorem recoveryGeneration_blockedBy (st : DurableState) (amb : AmbiguityRecord)
    (a : ActionRecord) : (blockedBy st x amb a).recoveryGeneration = x.recoveryGeneration := by
  unfold blockedBy
  dsimp only
  split <;> rfl

theorem counted_continuedBy (c : ContinuationRecord) : x.CountedBy (x.continuedBy c) := .of_same rfl

theorem counted_unblocked : x.CountedBy x.unblocked := .of_same rfl

/-- No transaction takes a counter of its execution back. -/
theorem Succession.counted {i : Intent} {vs : List JournalEntry} (hs : Succession j i x y vs) :
    x.CountedBy y := by
  cases hs with
  | updatePolicy generation hgeneration =>
    rw [hgeneration]
    exact counted_underPolicy
  | bind request hbindable hlive => exact counted_boundExecution _ _
  | start token htoken hready =>
    have hstarted : x.CountedBy (startedExecution j.state x) := .of_same rfl
    exact hstarted.trans (counted_continuedBy _)
  | begin request htoken hrunning hblocked => exact counted_dispatched _ _
  | @complete _ l a request htoken hrunning ha hdefect =>
    exact counted_promotes (commitGroupOf_promotes j.state x a request.request request.evidence)
  | @checkpoint _ l depth request htoken hlifecycle =>
    have hrunning : ∀ c, x.CountedBy (checkpointedExecution x c) := fun _ => .of_same rfl
    exact (hrunning _).trans (counted_continuedBy _)
  | resume request htoken hresumable hrecovery hvalid =>
    have hrunning : x.CountedBy { resumingExecution j.state x request.observedBindings with
        lifecycle := .running } := .of_same rfl
    exact hrunning.trans (counted_continuedBy _)
  | recoverPlain hlive hopens hreceipt => exact counted_recoveredFrom (.refl x) rfl
  | @recoverAmbiguous _ a hlive hopens ha =>
    generalize recordedAmbiguity j.state x (planOf j x) a = amb
    exact counted_recoveredFrom (counted_blockedBy _ _ _) (recoveryGeneration_blockedBy _ _ _)
  | @recoverCommit _ a request hlive hreceipt ha =>
    have hpromotes := commitGroupOf_promotes j.state x a request a.receipt
    exact counted_recoveredFrom (counted_promotes hpromotes)
      (recoveryGeneration_promotes hpromotes)
  | @resolveCommit _ amb a request hamb howner hopen ha hresolution =>
    exact (counted_promotes
      (commitGroupOf_promotes j.state x a request.request request.evidence)).trans counted_unblocked
  | transition target hlegal => exact counted_transitioned _ _
  | advance hlive => exact counted_nextGeneration _
  | lose hlive => exact counted_fencedExecution
  | _ => exact .of_same rfl

end Versions

/-- Every execution of `m₀` is stored in `m` with counters at least as large. -/
def Image.CountsFrom (m₀ m : Image) : Prop :=
  ∀ e x, m₀.executions e = some x → ∃ y, m.executions e = some y ∧ x.CountedBy y

section Runs

variable {ds : List Derivation} {j : Journaled} {i : Intent} {es : List JournalEntry} {m₀ : Image}

theorem Image.CountsFrom.agrees {m m' : Image} (h : m₀.CountsFrom m) (ha : m.Agrees m') :
    m₀.CountsFrom m' := by
  intro e x hx
  obtain ⟨y, hy, hcounted⟩ := h e x hx
  obtain ⟨z, frontier, generation, hz, rfl⟩ := ha.symm.execution hy
  exact ⟨z, hz, hcounted.trans (.of_same rfl)⟩

theorem Image.CountsFrom.reopened {m : Image} (h : m₀.CountsFrom m) :
    m₀.CountsFrom m.reopened := by
  intro e x hx
  obtain ⟨y, hy, hcounted⟩ := h e x hx
  refine ⟨parkedExecution y, ?_, hcounted.trans counted_parkedExecution⟩
  show (m.executions e).map parkedExecution = _
  rw [hy]
  rfl

theorem Transaction.countsFrom (hfree : CollisionFree ds) (hw : Working ds j)
    (ht : Transaction j i es) (hmint : Minted ds j.state.store es)
    (h : m₀.CountsFrom j.state.image) : m₀.CountsFrom (j.write es).state.image := by
  intro e x hx
  obtain ⟨y, hy, hcounted⟩ := h e x hx
  obtain ⟨z, hz⟩ := ht.keepsExecution hfree hw hmint ⟨y, hy⟩
  refine ⟨z, hz, ?_⟩
  rcases ht.origin hfree hw hmint hz with ⟨y', hy', hversion⟩ | ⟨hnone, -⟩
  · obtain rfl : y = y' := Option.some.inj (hy.symm.trans hy')
    rcases hversion with rfl | ⟨vs, hsuccession⟩
    · exact hcounted
    · exact hcounted.trans hsuccession.counted
  · rw [hy] at hnone
    cases hnone

theorem counted_invariance (hfree : CollisionFree ds) :
    Invariance ds m₀.CountsFrom (fun _ j => m₀.CountsFrom j.state.image)
      fun s c => s.store.directory ≠ none ∧ anyCall s c where
  vacant := fun hallow hnone _ => absurd hnone hallow.1
  agrees := fun ha h => h.agrees ha
  transaction := fun _ _ _ hw h ht hmint => ht.countsFrom hfree hw hmint h
  lose := fun hw h ht hmint => ht.countsFrom hfree hw hmint h
  restart := fun _ _ h _ _ himage => himage ▸ h.reopened
  skip := fun h => h
  recover := fun hw h ht hmint => ht.countsFrom hfree hw hmint h
  reopened := fun _ h => h

end Runs

end ExecutionFabric
