import ExecutionFabric.Model.Explain
import ExecutionFabric.Audit.Checkpoints
import ExecutionFabric.Audit.Conservative
import ExecutionFabric.Audit.BlockConsistency
import ExecutionFabric.Audit.InsertionOrder

/-!
# Which checkpoints an execution resumes from

Three paths judge a checkpoint: the continuation validator, the classifier and the
explanation. Only the last one compares the generations the checkpoint was taken under.
-/
namespace ExecutionFabric

open Lib Program

/-! ## What a plan names -/

section Plans

variable (base : RecoveryPlan)

theorem classifyInFlight_checkpoint (policy : Option ExecutionPolicy)
    (ambiguity : Option AmbiguityRecord) (a : ActionRecord) :
    (classifyInFlight base policy ambiguity a).checkpoint = base.checkpoint := by
  unfold classifyInFlight
  dsimp only
  split <;> (repeat' split) <;> rfl

theorem classifyAtRest_names (input : RecoveryInput) (x : ExecutionRecord) :
    (classifyAtRest base input x).checkpoint = base.checkpoint ∨
      ∃ c, (input.currentCheckpoint = some c ∨ c ∈ input.candidates) ∧
        (classifyAtRest base input x).checkpoint = c.id := by
  unfold classifyAtRest
  dsimp only
  split
  next c _ hseedable =>
    refine .inr ⟨c, .inl ?_, rfl⟩
    split at hseedable
    next c' hc' =>
      split at hseedable
      · rw [hc', Option.some.inj hseedable]
      · cases hseedable
    · cases hseedable
  next front rest _ _ hcandidates =>
    refine .inr ⟨_, .inr ?_, rfl⟩
    rw [hcandidates]
    exact chosenCandidate_mem _ _ List.mem_cons_self
  · refine .inl ?_
    split <;> rfl

/-- A plan names the checkpoint of its execution, the seeding one, or a candidate. -/
theorem classifyRecovery_names {input : RecoveryInput} {x : ExecutionRecord}
    (hx : input.execution = some x) : (classifyRecovery input).checkpoint = x.checkpoint ∨
      ∃ c, (input.currentCheckpoint = some c ∨ c ∈ input.candidates) ∧
        (classifyRecovery input).checkpoint = c.id := by
  unfold classifyRecovery
  rw [hx]
  dsimp only
  split
  · exact .inl rfl
  split
  · exact .inl rfl
  split
  · exact .inl rfl
  split
  · split <;> exact .inl rfl
  split
  · exact .inl rfl
  split
  · exact .inl rfl
  split
  · exact .inl (classifyInFlight_checkpoint _ _ _ _)
  · exact classifyAtRest_names _ _ _

end Plans

theorem mem_seedableCandidates {st : DurableState} {e : ExecutionId} {c : CheckpointRecord}
    (h : c ∈ seedableCandidates st e) : st.checkpoints.find c.id = some c ∧ c.execution = e ∧
      checkpointCanSeedContinuation c.state = true := by
  unfold seedableCandidates at h
  rw [List.mem_insertionSort, List.mem_filter, Table.mem_canonicalOrder] at h
  have hfields := h.2
  simp only [decide_eq_true_eq] at hfields
  exact ⟨(Table.find_eq_some_iff _ _ _).mpr ⟨h.1, rfl⟩, hfields⟩

/-! ## Which fields a transaction moves -/

/-- The two versions of an execution have the same current checkpoint. -/
structure ExecutionRecord.SamePoint (x y : ExecutionRecord) : Prop where
  checkpoint : y.checkpoint = x.checkpoint
  checkpointGeneration : y.checkpointGeneration = x.checkpointGeneration

/-- The two versions of an execution have the same generations. -/
structure ExecutionRecord.SameStamp (x y : ExecutionRecord) : Prop where
  generation : y.generation = x.generation
  policyGeneration : y.policyGeneration = x.policyGeneration

section Fields

variable {x y : ExecutionRecord}

theorem ExecutionRecord.SamePoint.refl (x : ExecutionRecord) : x.SamePoint x := ⟨rfl, rfl⟩

theorem ExecutionRecord.SameStamp.refl (x : ExecutionRecord) : x.SameStamp x := ⟨rfl, rfl⟩

theorem samePoint_promotes {a : ActionRecord} {g : CommitGroupRecord} (hg : Promotes x a g) :
    x.SamePoint g.execution := by
  obtain ⟨epoch, hexecution⟩ := hg.execution
  rw [hexecution]
  exact ⟨rfl, rfl⟩

theorem sameStamp_promotes {a : ActionRecord} {g : CommitGroupRecord} (hg : Promotes x a g) :
    x.SameStamp g.execution := by
  obtain ⟨epoch, hexecution⟩ := hg.execution
  rw [hexecution]
  exact ⟨rfl, rfl⟩

theorem ExecutionRecord.SamePoint.unblocked (h : x.SamePoint y) : x.SamePoint y.unblocked :=
  ⟨h.checkpoint, h.checkpointGeneration⟩

theorem ExecutionRecord.SameStamp.unblocked (h : x.SameStamp y) : x.SameStamp y.unblocked :=
  ⟨h.generation, h.policyGeneration⟩

variable (st : DurableState) (x)

theorem samePoint_parkedExecution : x.SamePoint (parkedExecution x) := by
  unfold parkedExecution ExecutionRecord.withoutLease
  split <;> exact ⟨rfl, rfl⟩

theorem sameStamp_parkedExecution : x.SameStamp (parkedExecution x) := by
  unfold parkedExecution ExecutionRecord.withoutLease
  split <;> exact ⟨rfl, rfl⟩

theorem samePoint_underPolicy (generation : Nat) : x.SamePoint (underPolicy x generation) := by
  unfold underPolicy ExecutionRecord.withoutLease
  dsimp only
  split
  · split <;> exact ⟨rfl, rfl⟩
  · exact ⟨rfl, rfl⟩

theorem samePoint_incarnated (boot : WorkerBootId) : x.SamePoint (incarnated x boot) := by
  unfold incarnated
  split <;> exact ⟨rfl, rfl⟩

theorem sameStamp_incarnated (boot : WorkerBootId) : x.SameStamp (incarnated x boot) := by
  unfold incarnated
  split <;> exact ⟨rfl, rfl⟩

theorem samePoint_blockedBy (amb : AmbiguityRecord) (a : ActionRecord) :
    x.SamePoint (blockedBy st x amb a) := by
  unfold blockedBy
  dsimp only
  split <;> exact ⟨rfl, rfl⟩

theorem sameStamp_blockedBy (amb : AmbiguityRecord) (a : ActionRecord) :
    x.SameStamp (blockedBy st x amb a) := by
  unfold blockedBy
  dsimp only
  split <;> exact ⟨rfl, rfl⟩

theorem samePoint_transitioned (target : Lifecycle) : x.SamePoint (transitioned st x target) := by
  unfold transitioned ExecutionRecord.withoutLease
  dsimp only
  split <;> exact ⟨rfl, rfl⟩

theorem sameStamp_transitioned (target : Lifecycle) : x.SameStamp (transitioned st x target) := by
  unfold transitioned ExecutionRecord.withoutLease
  dsimp only
  split <;> exact ⟨rfl, rfl⟩

theorem samePoint_nextGeneration : x.SamePoint (nextGeneration x) := by
  unfold nextGeneration ExecutionRecord.withoutLease
  dsimp only
  split <;> exact ⟨rfl, rfl⟩

theorem samePoint_fencedExecution : x.SamePoint (fencedExecution x) := by
  unfold fencedExecution ExecutionRecord.withoutLease
  dsimp only
  split <;> split <;> exact ⟨rfl, rfl⟩

theorem sameStamp_fencedExecution : x.SameStamp (fencedExecution x) := by
  unfold fencedExecution ExecutionRecord.withoutLease
  dsimp only
  split <;> split <;> exact ⟨rfl, rfl⟩

theorem sameStamp_recoveredFrom (j : Journaled) {next : ExecutionRecord} (h : x.SameStamp next) :
    x.SameStamp (recoveredFrom j x next) := by
  unfold recoveredFrom atPlannedCheckpoint
  split <;> exact ⟨h.generation, h.policyGeneration⟩

end Fields

/-! ## The checkpoints of a run -/

/-- Every checkpoint is hashed and belongs to a stored execution, and the current checkpoint of an
execution may seed a continuation. -/
structure Image.Seeded (m : Image) : Prop where
  owned : ∀ k c, m.checkpoints k = some c → ∃ x, m.executions c.execution = some x
  hashed : ∀ k c, m.checkpoints k = some c → c.contentHash ≠ 0
  seeds : ∀ e x, m.executions e = some x → x.checkpoint ≠ .nil → ∃ c,
    m.checkpoints x.checkpoint = some c ∧ c.generation = x.checkpointGeneration ∧
      checkpointCanSeedContinuation c.state = true

section Images

variable {m m' : Image}

theorem Image.Vacant.seeded (h : m.Vacant) : m.Seeded := by
  refine ⟨fun k c hc => ?_, fun k c hc => ?_, fun e x hx => ?_⟩
  · rw [h.checkpoints] at hc
    cases hc
  · rw [h.checkpoints] at hc
    cases hc
  · rw [h.executions] at hx
    cases hx

theorem Image.Seeded.agrees (h : m.Seeded) (ha : m.Agrees m') : m'.Seeded where
  owned := by
    intro k c hc
    rw [ha.checkpoints] at hc
    obtain ⟨x, hx⟩ := h.owned k c hc
    obtain ⟨y, f, g, hy, rfl⟩ := ha.symm.execution hx
    exact ⟨y, hy⟩
  hashed := by
    intro k c hc
    rw [ha.checkpoints] at hc
    exact h.hashed k c hc
  seeds := by
    intro e x hx hcheckpoint
    obtain ⟨y, f, g, hy, rfl⟩ := ha.execution hx
    rw [ha.checkpoints]
    exact h.seeds e y hy hcheckpoint

theorem Image.Seeded.reopened (h : m.Seeded) : m.reopened.Seeded where
  owned := by
    intro k c hc
    obtain ⟨x, hx⟩ := h.owned k c hc
    exact ⟨parkedExecution x, congrArg (Option.map parkedExecution) hx⟩
  hashed := h.hashed
  seeds := by
    intro e x hx hcheckpoint
    obtain ⟨y, hy, rfl⟩ := Option.map_eq_some_iff.mp hx
    have hpoint := samePoint_parkedExecution y
    rw [hpoint.checkpoint] at hcheckpoint ⊢
    rw [hpoint.checkpointGeneration]
    exact h.seeds e y hy hcheckpoint

end Images

/-! ## What a transaction does to checkpoints -/

section Records

theorem checkpointsOf_map {α : Type} (f : α → JournalEntry) (h : ∀ r, (f r).checkpoints = [])
    (rs : List α) : checkpointsOf (rs.map f) = [] := by
  refine List.flatMap_eq_nil_iff.mpr fun e he => ?_
  obtain ⟨r, -, rfl⟩ := List.mem_map.mp he
  exact h r

theorem checkpoints_leaseAs (l : Option LeaseRecord) (state : LeaseState) :
    checkpointsOf (leaseAs l state) = [] :=
  checkpointsOf_map _ (fun _ => rfl) _

/-- Only a registration writes checkpoints. -/
theorem Transaction.checkpoints_none {j : Journaled} {i : Intent} {es : List JournalEntry}
    (ht : Transaction j i es) (hi : ∀ e, i ≠ .checkpoint e) : checkpointsOf es = [] := by
  cases ht with
  | updatePolicy policy hx hgeneration =>
    rw [checkpointsOf_cons, checkpointsOf_append, checkpointsOf_append, checkpoints_leaseAs,
      checkpoints_map_continuation]
    rfl
  | bind request hx hworker hboot hbindable hlive =>
    rw [checkpointsOf_append, checkpoints_leaseAs]
    rfl
  | start token htoken hready => exact checkpoints_continuationRecords _ _ _
  | begin request htoken hrunning hblocked =>
    rw [checkpointsOf_append, checkpointsOf_map _ fun _ => rfl]
    rfl
  | enterCheckpoint request htoken hlifecycle => exact absurd rfl (hi _)
  | checkpoint request htoken hlifecycle hdepth => exact absurd rfl (hi _)
  | resume request htoken hresumable hrecovery hvalid =>
    rw [resumeRecords, checkpointsOf_cons, checkpoints_continuationRecords]
    rfl
  | transition target hx hlegal hambiguity =>
    rw [checkpointsOf_append]
    split
    · rw [checkpoints_leaseAs]
      rfl
    · rfl
  | advance hx hlive =>
    rw [checkpointsOf_append, checkpointsOf_append, checkpoints_leaseAs,
      checkpoints_map_continuation]
    rfl
  | lose hx hlive =>
    unfold fenceRecords
    split
    · rfl
    · dsimp only
      split
      · rw [checkpointsOf_append, checkpoints_leaseAs]
        rfl
      · rfl
  | _ => rfl

/-- A recovery that moves the checkpoint moves it to a stored one that may seed a continuation. -/
theorem planOf_seeds {j : Journaled} {x : ExecutionRecord}
    (hdecision : (planOf j x).decision = .resumeFromCheckpoint) :
    ∃ c, j.state.image.checkpoints (planOf j x).checkpoint = some c ∧
      c.generation = (planOf j x).checkpointGeneration ∧
      checkpointCanSeedContinuation c.state = true := by
  obtain ⟨c, hc, hid, hgeneration⟩ :=
    (classification_conservative (recoveryInput j x)).checkpoint hdecision
  obtain ⟨hstored, -, hseeds⟩ := mem_seedableCandidates hc
  refine ⟨c, ?_, hgeneration.symm, hseeds⟩
  rw [show (planOf j x).checkpoint = c.id from hid]
  exact hstored

variable {j : Journaled} {x y : ExecutionRecord} {vs : List JournalEntry} {i : Intent}

/-- The checkpoint of `y` is the one of `x`, or a stored one that may seed a continuation. -/
def PointsBack (m : Image) (x y : ExecutionRecord) : Prop :=
  x.SamePoint y ∨ ∃ c, m.checkpoints y.checkpoint = some c ∧ c.generation = y.checkpointGeneration ∧
    checkpointCanSeedContinuation c.state = true

/-- The checkpoint of `y` is the one of `x`, or the one a recovery of `x` plans to move to. -/
def Repoints (j : Journaled) (x y : ExecutionRecord) : Prop :=
  x.SamePoint y ∨ ((planOf j x).decision = .resumeFromCheckpoint ∧
    y.checkpoint = (planOf j x).checkpoint ∧
    y.checkpointGeneration = (planOf j x).checkpointGeneration)

theorem repoints_recoveredFrom {next : ExecutionRecord} (h : x.SamePoint next) :
    Repoints j x (recoveredFrom j x next) := by
  unfold recoveredFrom
  by_cases hplan : (planOf j x).decision = .resumeFromCheckpoint ∧
      (planOf j x).checkpoint.valid = true
  · refine .inr ⟨hplan.1, ?_, ?_⟩
    · unfold atPlannedCheckpoint
      rw [if_pos hplan]
      rfl
    · unfold atPlannedCheckpoint
      rw [if_pos hplan]
      rfl
  · refine .inl ?_
    unfold atPlannedCheckpoint
    rw [if_neg hplan]
    exact ⟨h.checkpoint, h.checkpointGeneration⟩

/-- Apart from registrations, only a recovery moves the checkpoint of an execution. -/
theorem Succession.repoints (hs : Succession j i x y vs) (hi : ∀ e, i ≠ .checkpoint e) :
    Repoints j x y := by
  cases hs with
  | updatePolicy generation hgeneration => exact .inl (samePoint_underPolicy _ _)
  | bind request hbindable hlive =>
    have h := samePoint_incarnated x request.boot
    exact .inl ⟨h.checkpoint, h.checkpointGeneration⟩
  | @complete _ l a request htoken hrunning ha hdefect =>
    exact .inl (samePoint_promotes
      (commitGroupOf_promotes j.state x a request.request request.evidence))
  | enterCheckpoint token htoken hlifecycle => exact absurd rfl (hi _)
  | checkpoint request htoken hlifecycle => exact absurd rfl (hi _)
  | recoverPlain hlive hopens hreceipt => exact repoints_recoveredFrom (.refl x)
  | @recoverAmbiguous _ a hlive hopens ha =>
    generalize recordedAmbiguity j.state x (planOf j x) a = amb
    exact repoints_recoveredFrom (samePoint_blockedBy _ _ _ _)
  | @recoverCommit _ a request hlive hreceipt ha =>
    exact repoints_recoveredFrom
      (samePoint_promotes (commitGroupOf_promotes j.state x a request a.receipt))
  | @resolveCommit _ amb a request hamb howner hopen ha hresolution =>
    exact .inl (samePoint_promotes
      (commitGroupOf_promotes j.state x a request.request request.evidence)).unblocked
  | transition target hlegal => exact .inl (samePoint_transitioned _ _ _)
  | advance hlive =>
    have h := samePoint_nextGeneration x
    exact .inl ⟨h.checkpoint, h.checkpointGeneration⟩
  | lose hlive => exact .inl (samePoint_fencedExecution x)
  | _ => exact .inl ⟨rfl, rfl⟩

/-- Apart from registrations, the checkpoint of an execution only moves to one that may seed. -/
theorem Succession.pointsBack (hs : Succession j i x y vs) (hi : ∀ e, i ≠ .checkpoint e) :
    PointsBack j.state.image x y := by
  rcases hs.repoints hi with hsame | ⟨hdecision, hcheckpoint, hgeneration⟩
  · exact .inl hsame
  · obtain ⟨c, hc, hplanned, hseeds⟩ := planOf_seeds hdecision
    exact .inr ⟨c, hcheckpoint ▸ hc, hplanned.trans hgeneration.symm, hseeds⟩

/-- Only policy updates and generation advances change the generations of an execution. -/
theorem Succession.sameStamp (hs : Succession j i x y vs) (hpolicy : ∀ e, i ≠ .updatePolicy e)
    (hadvance : ∀ e, i ≠ .advance e) : x.SameStamp y := by
  cases hs with
  | updatePolicy generation hgeneration => exact absurd rfl (hpolicy _)
  | bind request hbindable hlive =>
    have h := sameStamp_incarnated x request.boot
    exact ⟨h.generation, h.policyGeneration⟩
  | @complete _ l a request htoken hrunning ha hdefect =>
    exact sameStamp_promotes (commitGroupOf_promotes j.state x a request.request request.evidence)
  | recoverPlain hlive hopens hreceipt => exact sameStamp_recoveredFrom x j (.refl x)
  | @recoverAmbiguous _ a hlive hopens ha =>
    generalize recordedAmbiguity j.state x (planOf j x) a = amb
    exact sameStamp_recoveredFrom x j (sameStamp_blockedBy _ _ _ _)
  | @recoverCommit _ a request hlive hreceipt ha =>
    exact sameStamp_recoveredFrom x j
      (sameStamp_promotes (commitGroupOf_promotes j.state x a request a.receipt))
  | @resolveCommit _ amb a request hamb howner hopen ha hresolution =>
    exact (sameStamp_promotes
      (commitGroupOf_promotes j.state x a request.request request.evidence)).unblocked
  | transition target hlegal => exact sameStamp_transitioned _ _ _
  | advance hlive => exact absurd rfl (hadvance _)
  | lose hlive => exact sameStamp_fencedExecution x
  | _ => exact ⟨rfl, rfl⟩

end Records

section Transactions

variable {ds : List Derivation} {j : Journaled} {i : Intent} {es : List JournalEntry}

/-- Where an execution of the new image comes from: it was stored before, perhaps under another
version, or it was just created. -/
theorem Transaction.origin (hfree : CollisionFree ds) (hw : Working ds j) (ht : Transaction j i es)
    (hmint : Minted ds j.state.store es) {e : ExecutionId} {y : ExecutionRecord}
    (hy : (j.write es).state.image.executions e = some y) :
    (∃ x, j.state.image.executions e = some x ∧ (y = x ∨ ∃ vs, Succession j i x y vs)) ∨
      (j.state.image.executions e = none ∧ y = createdExecution j.state) := by
  cases ht.outline with
  | created hi policy hes =>
    subst hi
    cases hstored : j.state.image.executions e with
    | some x =>
      have huntouched := ht.untouched hfree hw hmint (fun _ _ _ hreport => by cases hreport)
        (fun hsome => by cases hsome) ⟨x, hstored⟩
      rw [huntouched.execution, hstored] at hy
      exact .inl ⟨x, rfl, .inl (Option.some.inj hy).symm⟩
    | none =>
      refine .inr ⟨rfl, ?_⟩
      rw [hes, Journaled.image_write, Image.executions_installAll] at hy
      rcases KeyedMap.insert_eq_some hy with ⟨-, hsame⟩ | ⟨-, hold⟩
      · exact hsame
      · rw [show j.state.image.executions e = none from hstored] at hold
        cases hold
  | @succeeded x z vs hx hsuccession hexecutions heffects =>
    rw [hexecutions] at hy
    rcases KeyedMap.insert_eq_some hy with ⟨hid, rfl⟩ | ⟨-, hold⟩
    · refine .inl ⟨x, ?_, .inr ⟨vs, hsuccession⟩⟩
      rw [hid, hsuccession.id]
      exact hx
    · exact .inl ⟨y, hold, .inl rfl⟩

/-- No execution is forgotten. -/
theorem Transaction.keepsExecution (hfree : CollisionFree ds) (hw : Working ds j)
    (ht : Transaction j i es) (hmint : Minted ds j.state.store es) {e : ExecutionId}
    (h : ∃ x, j.state.image.executions e = some x) :
    ∃ y, (j.write es).state.image.executions e = some y := by
  obtain ⟨x, hx⟩ := h
  cases ht.outline with
  | created hi policy hes =>
    subst hi
    have huntouched := ht.untouched hfree hw hmint (fun _ _ _ hreport => by cases hreport)
      (fun hsome => by cases hsome) ⟨x, hx⟩
    exact ⟨x, huntouched.execution.trans hx⟩
  | @succeeded z y vs hz hsuccession hexecutions heffects =>
    rw [hexecutions]
    by_cases hid : e = y.id
    · exact ⟨y, hid ▸ KeyedMap.insert_self _ _⟩
    · exact ⟨x, (KeyedMap.insert_of_ne _ hid).trans hx⟩

/-- Transactions other than registrations keep the checkpoints seeded. -/
theorem Transaction.seeded_of_idle (hfree : CollisionFree ds) (hw : Working ds j)
    (ht : Transaction j i es) (hmint : Minted ds j.state.store es) (hi : ∀ e, i ≠ .checkpoint e)
    (h : j.state.image.Seeded) : (j.write es).state.image.Seeded := by
  have hsame : (j.write es).state.image.checkpoints = j.state.image.checkpoints := by
    rw [Journaled.image_write, Image.checkpoints_installAll, ht.checkpoints_none hi]
    rfl
  refine ⟨fun k c hc => ?_, fun k c hc => ?_, fun e y hy hcheckpoint => ?_⟩
  · rw [hsame] at hc
    exact ht.keepsExecution hfree hw hmint (h.owned k c hc)
  · rw [hsame] at hc
    exact h.hashed k c hc
  · rw [hsame]
    rcases ht.origin hfree hw hmint hy with ⟨x, hx, rfl | ⟨vs, hsuccession⟩⟩ | ⟨-, rfl⟩
    · exact h.seeds e y hx hcheckpoint
    · rcases hsuccession.pointsBack hi with hpoint | hseeds
      · rw [hpoint.checkpoint] at hcheckpoint ⊢
        rw [hpoint.checkpointGeneration]
        exact h.seeds e x hx hcheckpoint
      · exact hseeds
    · exact absurd rfl hcheckpoint

end Transactions

/-! ## Registrations -/

section Registrations

variable {ds : List Derivation} {j : Journaled} {x : ExecutionRecord} {c : CheckpointRecord}

theorem executions_checkpointRecords (j : Journaled) (x : ExecutionRecord) (c : CheckpointRecord) :
    (j.write (checkpointRecords j x c)).state.image.executions = j.state.image.executions.insert
      ((checkpointedExecution x c).continuedBy (checkpointContinuation j x c)) := by
  have hlist : executionsOf (checkpointRecords j x c) = executionsOf (enterCheckpointing x) ++
      [(checkpointedExecution x c).continuedBy (checkpointContinuation j x c)] := by
    unfold checkpointRecords
    rw [executionsOf_append, executionsOf_demotionRecords, executions_continuationRecords]
    rfl
  rw [Journaled.image_write, Image.executions_installAll, hlist]
  exact KeyedMap.insertAll_concat _ (executions_enterCheckpointing x)

/-- A registration replaces its execution by one that points at the new checkpoint. -/
theorem executions_registered (j : Journaled) (x : ExecutionRecord) (c : CheckpointRecord) :
    ∃ y : ExecutionRecord, y.id = x.id ∧
      ({ x with checkpoint := c.id, checkpointGeneration := c.generation } : ExecutionRecord).SamePoint
        y ∧ x.SameStamp y ∧
      (j.write (checkpointRecords j x c)).state.image.executions =
        j.state.image.executions.insert y := by
  have hexecutions := executions_checkpointRecords j x c
  generalize checkpointContinuation j x c = continuation at hexecutions
  exact ⟨(checkpointedExecution x c).continuedBy continuation, rfl, ⟨rfl, rfl⟩, ⟨rfl, rfl⟩,
    hexecutions⟩

/-- The checkpoints a registration under a new id leaves. -/
structure Registered (m m' : Image) (x : ExecutionRecord) (c : CheckpointRecord) : Prop where
  stored : m'.checkpoints c.id = some c
  old : ∀ k d, m'.checkpoints k = some d → d = c ∨ ∃ previous state,
    m.checkpoints k = some previous ∧ d = { previous with state := state }
  kept : ∀ k d, m.checkpoints k = some d → k ≠ c.id → k ≠ x.checkpoint →
    m'.checkpoints k = some d

/-- A registration stores the new checkpoint and touches at most the previous one. -/
theorem registered_of_new (hnew : x.checkpoint ≠ c.id) :
    Registered j.state.image (j.write (checkpointRecords j x c)).state.image x c := by
  have hcheckpoints : (j.write (checkpointRecords j x c)).state.image.checkpoints =
      (j.state.image.checkpoints.insert c).insertAll
        (demotedCheckpoint (j.write (newCheckpointRecords x c)).state x).toList := by
    rw [Journaled.image_write, Image.checkpoints_installAll, checkpoints_checkpointRecords]
    rfl
  cases hdemoted : demotedCheckpoint (j.write (newCheckpointRecords x c)).state x with
  | none =>
    rw [hdemoted] at hcheckpoints
    replace hcheckpoints : (j.write (checkpointRecords j x c)).state.image.checkpoints =
      j.state.image.checkpoints.insert c := hcheckpoints
    refine ⟨?_, fun k d hd => ?_, fun k d hd hk _ => ?_⟩
    · rw [hcheckpoints]
      exact KeyedMap.insert_self _ _
    · rw [hcheckpoints] at hd
      rcases KeyedMap.insert_eq_some hd with ⟨-, rfl⟩ | ⟨-, hold⟩
      · exact .inl rfl
      · exact .inr ⟨d, d.state, hold, rfl⟩
    · rw [hcheckpoints]
      exact (KeyedMap.insert_of_ne _ hk).trans hd
  | some demoted =>
    obtain ⟨previous, state, hprevious, hsame⟩ := demotedCheckpoint_some hdemoted
    rw [hdemoted] at hcheckpoints
    replace hcheckpoints : (j.write (checkpointRecords j x c)).state.image.checkpoints =
      (j.state.image.checkpoints.insert c).insert demoted := hcheckpoints
    have hread : (j.write (newCheckpointRecords x c)).state.image.checkpoints x.checkpoint =
        some previous := hprevious
    rw [checkpoints_newCheckpointRecords] at hread
    have hstored : j.state.image.checkpoints x.checkpoint = some previous :=
      (KeyedMap.insert_of_ne _ hnew).symm.trans hread
    have hkey : previous.id = x.checkpoint := j.state.image.checkpoints.keyed _ _ hstored
    have hid : demoted.id = x.checkpoint := by
      rw [hsame]
      exact hkey
    refine ⟨?_, fun k d hd => ?_, fun k d hd hk hk' => ?_⟩
    · rw [hcheckpoints, KeyedMap.insert_of_ne _ fun heq => hnew (hid.symm.trans heq.symm)]
      exact KeyedMap.insert_self _ _
    · rw [hcheckpoints] at hd
      rcases KeyedMap.insert_eq_some hd with ⟨hk, rfl⟩ | ⟨-, hd⟩
      · refine .inr ⟨previous, state, ?_, hsame⟩
        rw [hk, hid]
        exact hstored
      · rcases KeyedMap.insert_eq_some hd with ⟨-, rfl⟩ | ⟨-, hold⟩
        · exact .inl rfl
        · exact .inr ⟨d, d.state, hold, rfl⟩
    · rw [hcheckpoints, KeyedMap.insert_of_ne _ fun heq => hk' (heq.trans hid)]
      exact (KeyedMap.insert_of_ne _ hk).trans hd

/-- A checkpoint of the next generation, taken of the execution as it is. -/
structure Succeeding (x : ExecutionRecord) (c : CheckpointRecord) : Prop where
  execution : c.execution = x.id
  generation : c.generation = x.checkpointGeneration + 1
  verified : c.state = .verified
  executionGeneration : c.executionGeneration = x.generation
  policyGeneration : c.policyGeneration = x.policyGeneration

theorem succeeding_registered (st : DurableState) (x : ExecutionRecord)
    (request : RegisterCheckpointRequest) (depth : Nat) :
    Succeeding x (registeredCheckpoint st x request depth) := ⟨rfl, rfl, rfl, rfl, rfl⟩

variable (hfree : CollisionFree ds) (hc : j.state.image.Coherent ds)
  (hc' : (j.write (checkpointRecords j x c)).state.image.Coherent ds)
  (hx : j.state.image.executions x.id = some x) (hnext : Succeeding x c)
  (h : j.state.image.Seeded)
include hfree hc hc' hx hnext h

/-- The id of the next checkpoint is not the one of the current checkpoint. -/
theorem registered_of_next :
    Registered j.state.image (j.write (checkpointRecords j x c)).state.image x c := by
  refine registered_of_new fun hsame => ?_
  obtain ⟨state, hstored⟩ := checkpointRecords_stored j x c
  have hnamed := hc'.known.checkpoints _ _ hstored
  replace hnamed : Named ds (.checkpoint c.execution c.generation) c.id := hnamed
  have hvalid : x.checkpoint ≠ .nil := hsame ▸ hnamed.valid hfree
  obtain ⟨d, hd, hgeneration, -⟩ := h.seeds _ x hx hvalid
  have hid : d.id = x.checkpoint := j.state.image.checkpoints.keyed _ _ hd
  have hold : Named ds (.checkpoint d.execution d.generation) d.id :=
    hc.known.checkpoints _ _ hd
  rw [hid, hsame] at hold
  have hderivation := hnamed.unique hold hfree
  have hgenerations : c.generation = d.generation := by
    injection hderivation
  have hsuccessor := hnext.generation
  omega

theorem seeded_registered (hhash : c.contentHash ≠ 0) :
    (j.write (checkpointRecords j x c)).state.image.Seeded := by
  have hregistered := registered_of_next hfree hc hc' hx hnext h
  have hnamed := hc'.known.checkpoints _ _ hregistered.stored
  obtain ⟨y, hid, hpoint, -, hexecutions⟩ := executions_registered j x c
  generalize (j.write (checkpointRecords j x c)).state.image = m' at *
  have hstays : ∀ e, (∃ z, j.state.image.executions e = some z) →
      ∃ z, m'.executions e = some z := by
    rintro e ⟨z, hz⟩
    rw [hexecutions]
    by_cases he : e = y.id
    · exact ⟨y, he ▸ KeyedMap.insert_self _ _⟩
    · exact ⟨z, (KeyedMap.insert_of_ne _ he).trans hz⟩
  refine ⟨fun k d hd => ?_, fun k d hd => ?_, fun e z hz hcheckpoint => ?_⟩
  · rcases hregistered.old k d hd with rfl | ⟨previous, state, hprevious, rfl⟩
    · rw [hnext.execution]
      exact hstays _ ⟨x, hx⟩
    · exact hstays _ (h.owned k previous hprevious)
  · rcases hregistered.old k d hd with rfl | ⟨previous, state, hprevious, rfl⟩
    · exact hhash
    · exact h.hashed k previous hprevious
  · rw [hexecutions] at hz
    rcases KeyedMap.insert_eq_some hz with ⟨-, rfl⟩ | ⟨he, hz⟩
    · refine ⟨c, ?_, hpoint.checkpointGeneration.symm, ?_⟩
      · rw [hpoint.checkpoint]
        exact hregistered.stored
      · rw [hnext.verified]
        rfl
    · -- the checkpoint of another execution is neither the new one nor the demoted one
      obtain ⟨d, hd, hgeneration, hseeds⟩ := h.seeds e z hz hcheckpoint
      have howner : d.execution ≠ x.id := by
        obtain ⟨d', hd', howner⟩ := hc.checkpointed e z hz hcheckpoint
        obtain rfl := Option.some.inj (hd.symm.trans hd')
        rw [howner, j.state.image.executions.keyed _ _ hz, ← hid]
        exact he
      refine ⟨d, hregistered.kept _ d hd ?_ ?_, hgeneration, hseeds⟩
      · intro hsame
        have hold := hc.known.checkpoints _ _ hd
        rw [j.state.image.checkpoints.keyed _ _ hd, hsame] at hold
        have hderivation := hold.unique hnamed hfree
        injection hderivation with hexecution
        exact howner (hexecution.trans hnext.execution)
      · intro hsame
        obtain ⟨d', hd', howner'⟩ := hc.checkpointed _ x hx (hsame ▸ hcheckpoint)
        rw [← hsame, hd] at hd'
        obtain rfl := Option.some.inj hd'
        exact howner howner'

end Registrations

end ExecutionFabric
