import ExecutionFabric.Audit.Versions
import ExecutionFabric.Audit.Checkpoints

/-!
# Where written records come from

Every record a transaction writes is a new one, or a stored one of which only the state
has changed. `Transaction.origins` says so for each kind of record, with what the new
ones copy from their execution.
-/
namespace ExecutionFabric

open Lib

/-- A continuation minted from the execution `x`. -/
structure Mints (x : ExecutionRecord) (c : ContinuationRecord) : Prop where
  execution : c.execution = x.id
  executionGeneration : c.executionGeneration = x.generation
  policyGeneration : c.policyGeneration = x.policyGeneration
  progressGeneration : c.progressGeneration = x.progressGeneration

/-- Wherever the records stop, `e` is not written without a checkpoint `i` of `owner`. -/
def FollowsCheckpoint (es : List JournalEntry) (e : JournalEntry) (i : CheckpointId)
    (owner : ExecutionId) : Prop :=
  ∀ p, p <+: es → e ∈ p → ∃ c ∈ checkpointsOf p, c.id = i ∧ c.execution = owner

/-- A minted continuation is seeded from the checkpoint of the execution, or from a new one. -/
def SeedOf (i : Intent) (es : List JournalEntry) (x : ExecutionRecord) (c : ContinuationRecord) :
    Prop :=
  (c.checkpoint = x.checkpoint ∧ (i = .start x.id ∨ i = .resume x.id)) ∨
    (i = .checkpoint x.id ∧ FollowsCheckpoint es (.continuation c) c.checkpoint x.id)

/-- Where the record `e` of the transaction `es` comes from. -/
inductive Origin (j : Journaled) (i : Intent) (es : List JournalEntry) : JournalEntry → Prop
  | storeMeta (r : StoreMetaRecord) (hepoch : r.epoch = j.state.epoch) :
      Origin j i es (.storeMeta r)
  | policy (p : ExecutionPolicy) (hi : i = .create ∨ ∃ e, i = .updatePolicy e) :
      Origin j i es (.policy p)
  | execution {y : ExecutionRecord} (hy : Version j i y) : Origin j i es (.execution y)
  | group {x : ExecutionRecord} {a : ActionRecord} {g : CommitGroupRecord}
      (hx : j.state.executions.find x.id = some x) (ha : j.state.actions.find a.key = some a)
      (hg : Promotes x a g) (hgeneration : g.progress.executionGeneration = x.generation) :
      Origin j i es (.commitGroup g)
  | action {a : ActionRecord} (status : ActionStatus) (receipt : Evidence)
      (ha : j.state.actions.find a.key = some a) (hstatus : status ≠ .committed) :
      Origin j i es (.action { a with status := status, receipt := receipt })
  | begun {x : ExecutionRecord} (request : BeginActionRequest) (hi : i = .begin x.id)
      (hx : j.state.executions.find x.id = some x) :
      Origin j i es (.action (begunAction x request (redriven x (j.latestAction x.id))))
  | replay {x : ExecutionRecord} {a : ActionRecord} (request : BeginActionRequest)
      (hx : j.state.executions.find x.id = some x)
      (ha : redriven x (j.latestAction x.id) = some a) :
      Origin j i es (.replay (admittedReplay j.state x request a (begunAction x request (some a))))
  | lease {l : LeaseRecord} (state : LeaseState) (hl : j.state.leases.find l.id = some l) :
      Origin j i es (.lease { l with state := state })
  | granted {x : ExecutionRecord} (request : BindWorkerRequest)
      (hx : j.state.executions.find x.id = some x) :
      Origin j i es (.lease (grantedLease j.state x request))
  | continuation {c : ContinuationRecord} (state : ContinuationState) (hstate : state ≠ .valid)
      (hc : j.state.continuations.find c.id = some c) :
      Origin j i es (.continuation { c with state := state })
  | minted {x : ExecutionRecord} {c : ContinuationRecord}
      (hx : j.state.executions.find x.id = some x) (hc : Mints x c)
      (hepoch : c.epoch = j.state.epoch) (hcheckpoint : SeedOf i es x c) :
      Origin j i es (.continuation c)
  | checkpoint {c : CheckpointRecord} (state : CheckpointState)
      (hstate : state = .verified ∨ state = .superseded)
      (hc : j.state.checkpoints.find c.id = some c) :
      Origin j i es (.checkpoint { c with state := state })
  | registered {x : ExecutionRecord} (request : RegisterCheckpointRequest) (depth : Nat)
      (state : CheckpointState) (hi : i = .checkpoint x.id)
      (hstate : state = .verified ∨ state = .superseded)
      (hx : j.state.executions.find x.id = some x)
      (hlifecycle : x.lifecycle = .running ∨ x.lifecycle = .checkpointing) :
      Origin j i es
        (.checkpoint { registeredCheckpoint j.state x request depth with state := state })
  | ambiguity {amb : AmbiguityRecord} (request : ResolveAmbiguityRequest)
      (hamb : j.state.ambiguities.find amb.id = some amb) :
      Origin j i es (.ambiguity (resolvedAmbiguity amb request))
  | recorded {x : ExecutionRecord} {a : ActionRecord}
      (hx : j.state.executions.find x.id = some x) :
      Origin j i es (.ambiguity (recordedAmbiguity j.state x (planOf j x) a))
  | recovery {x next : ExecutionRecord} (inFlight : Option ActionRecord)
      (hx : j.state.executions.find x.id = some x) :
      Origin j i es (.recovery (recoveryRecordOf j.state x next (planOf j x) inFlight))

section Parts

variable {j : Journaled} {i : Intent} {es : List JournalEntry} {x : ExecutionRecord}

theorem plannedAction_stored {a : ActionRecord} (h : plannedAction j.state (planOf j x) = some a) :
    j.state.actions.find a.key = some a := by
  unfold plannedAction at h
  split at h
  · unfold DurableState.findAction at h
    rw [Table.find_key h]
    exact h
  · cases h

theorem findAction_stored {st : DurableState} {id : ActionId} {generation : Nat} {a : ActionRecord}
    (h : st.findAction id generation = some a) : st.actions.find a.key = some a := by
  unfold DurableState.findAction at h
  rw [Table.find_key h]
  exact h

theorem origins_leaseAs {l : Option LeaseRecord} (state : LeaseState)
    (h : ∀ l', l = some l' → j.state.leases.find l'.id = some l') :
    ∀ e ∈ leaseAs l state, Origin j i es e := by
  intro e he
  obtain ⟨l', hl', rfl⟩ := List.mem_map.mp he
  exact .lease state (h l' (Option.mem_toList.mp hl'))

theorem heldLease_stored {st : DurableState} (l : LeaseRecord) (h : heldLease st x = some l) :
    st.leases.find l.id = some l := by
  unfold heldLease at h
  split at h
  · rw [Table.find_key h]
    exact h
  · cases h

theorem heldActiveLease_stored {st : DurableState} (l : LeaseRecord)
    (h : heldActiveLease st x = some l) : st.leases.find l.id = some l := by
  unfold heldActiveLease at h
  split at h
  · have hfind := (Option.filter_eq_some_iff.mp h).1
    rw [Table.find_key hfind]
    exact hfind
  · cases h

/-- Restamped continuations of a state that has the stored ones. -/
theorem origins_continuations {st : DurableState} (hst : st.continuations = j.state.continuations)
    {p : ContinuationRecord → Bool} {f : ContinuationRecord → ContinuationRecord}
    (hf : ∀ c, ∃ state, state ≠ .valid ∧ f c = { c with state := state }) :
    ∀ e ∈ ((st.continuations.records.filter p).map f).map JournalEntry.continuation,
      Origin j i es e := by
  intro e he
  obtain ⟨c', hc', rfl⟩ := List.mem_map.mp he
  obtain ⟨c, hc, rfl⟩ := List.mem_map.mp hc'
  obtain ⟨state, hstate, hsame⟩ := hf c
  rw [hsame]
  refine .continuation state hstate ((Table.find_eq_some_iff _ _ _).mpr ⟨?_, rfl⟩)
  rw [← hst]
  exact List.mem_of_mem_filter hc

theorem origins_continuationRecords {st : DurableState} {y : ExecutionRecord}
    {c : ContinuationRecord} (hst : st.continuations = j.state.continuations)
    (hx : j.state.executions.find x.id = some x) (hc : Mints x c) (hepoch : c.epoch = j.state.epoch)
    (hcheckpoint : SeedOf i es x c) (hy : Version j i (y.continuedBy c)) :
    ∀ e ∈ continuationRecords st y c, Origin j i es e := by
  intro e he
  rcases List.mem_append.mp he with he | he
  · exact origins_continuations hst (f := fun c => { c with state := .stale })
      (fun c => ⟨.stale, by decide, rfl⟩) e he
  · simp only [List.mem_cons, List.not_mem_nil, or_false] at he
    rcases he with rfl | rfl
    · exact .minted hx hc hepoch hcheckpoint
    · exact .execution hy

theorem origins_recoveryRecords {next : ExecutionRecord} (inFlight : Option ActionRecord)
    (hx : j.state.executions.find x.id = some x)
    (hy : Version j i (recoveredExecution j.state x (atPlannedCheckpoint next (planOf j x))
      (planOf j x))) :
    ∀ e ∈ recoveryRecords j.state x next (planOf j x) inFlight, Origin j i es e := by
  intro e he
  simp only [recoveryRecords, List.mem_cons, List.not_mem_nil, or_false] at he
  rcases he with rfl | rfl
  · exact .recovery _ hx
  · exact .execution hy

/-- A demotion leaves a checkpoint Verified or Superseded. -/
theorem demotedCheckpoint_demoted {st : DurableState} {c : CheckpointRecord}
    (h : demotedCheckpoint st x = some c) : ∃ previous state,
      (state = .verified ∨ state = .superseded) ∧
      st.checkpoints.find x.checkpoint = some previous ∧ c = { previous with state := state } := by
  unfold demotedCheckpoint at h
  split at h
  · split at h
    next previous hfind =>
      split at h
      · refine ⟨previous, _, ?_, hfind, (Option.some.inj h).symm⟩
        split
        · exact .inl rfl
        · exact .inr rfl
      · cases h
    · cases h
  · cases h

theorem origins_enterCheckpointing {l : LeaseRecord} (token : LeaseToken)
    (htoken : validateToken j.state token = .ok (x, l))
    (hlifecycle : x.lifecycle = .running ∨ x.lifecycle = .checkpointing) :
    ∀ e ∈ enterCheckpointing x, Origin j (.checkpoint x.id) es e := by
  intro e he
  unfold enterCheckpointing at he
  split at he
  · rw [List.mem_singleton.mp he]
    exact .execution (.succeeded (token_execution htoken)
      (.enterCheckpoint token htoken hlifecycle))
  · cases he

theorem origins_demotionRecords {l : LeaseRecord} {depth : Nat}
    (request : RegisterCheckpointRequest)
    (htoken : validateToken j.state request.token = .ok (x, l))
    (hlifecycle : x.lifecycle = .running ∨ x.lifecycle = .checkpointing) :
    ∀ e ∈ demotionRecords j x (registeredCheckpoint j.state x request depth),
      Origin j (.checkpoint x.id) es e := by
  have hx : j.state.executions.find x.id = some x := token_execution htoken
  intro e he
  rcases List.mem_append.mp he with he | he
  · rcases List.mem_append.mp he with he | he
    · exact origins_enterCheckpointing request.token htoken hlifecycle e he
    · rw [List.mem_singleton.mp he]
      exact .registered request depth .verified rfl (.inl rfl) hx hlifecycle
  · obtain ⟨d, hd, rfl⟩ := List.mem_map.mp he
    obtain ⟨previous, state, hstate, hprevious, rfl⟩ :=
      demotedCheckpoint_demoted (Option.mem_toList.mp hd)
    -- the demoted checkpoint is a stored one, or the new one itself
    have hread : (j.state.image.checkpoints.insert (registeredCheckpoint j.state x request depth))
        x.checkpoint = some previous := by
      rw [← checkpoints_newCheckpointRecords]
      exact hprevious
    rcases KeyedMap.insert_eq_some hread with ⟨-, rfl⟩ | ⟨-, hstored⟩
    · exact .registered request depth state rfl hstate hx hlifecycle
    · refine .checkpoint state hstate ?_
      have hkey := j.state.image.checkpoints.keyed _ _ hstored
      rw [hkey]
      exact hstored

/-- The minted continuation comes after its checkpoint. -/
theorem followsCheckpoint_checkpointRecords (c : CheckpointRecord) (howner : c.execution = x.id)
    (k : ContinuationRecord) :
    FollowsCheckpoint (checkpointRecords j x c) (.continuation k) c.id x.id := by
  have hnone : continuationsOf (demotionRecords j x c) = [] := by
    unfold demotionRecords newCheckpointRecords
    rw [continuationsOf_append, continuationsOf_append, continuations_enterCheckpointing]
    have hdemoted := (of_map_checkpoint
      (demotedCheckpoint (j.write (enterCheckpointing x ++ [.checkpoint c])).state x).toList).2.2
    rw [hdemoted]
    rfl
  intro p hp hk
  have hfirst : c ∈ checkpointsOf (demotionRecords j x c) := by
    unfold demotionRecords newCheckpointRecords
    rw [checkpointsOf_append, checkpointsOf_append]
    exact List.mem_append_left _ (List.mem_append_right _ (List.mem_singleton.mpr rfl))
  rcases List.prefix_or_prefix_of_prefix hp (List.prefix_append _ _) with hshort | ⟨q, rfl⟩
  · have hmem : k ∈ continuationsOf (demotionRecords j x c) :=
      List.mem_flatMap.mpr ⟨_, hshort.subset hk, List.mem_singleton.mpr rfl⟩
    rw [hnone] at hmem
    cases hmem
  · refine ⟨c, ?_, rfl, howner⟩
    rw [checkpointsOf_append]
    exact List.mem_append_left _ hfirst

end Parts

theorem Transaction.origins {j : Journaled} {i : Intent} {es : List JournalEntry}
    (ht : Transaction j i es) : ∀ e ∈ es, Origin j i es e := by
  have hversions := ht.versions
  cases ht with
  | create policy hid =>
    rw [List.forall_mem_cons, List.forall_mem_cons, List.forall_mem_singleton]
    exact ⟨.storeMeta _ rfl, .policy _ (.inl rfl), .execution (.created rfl rfl)⟩
  | @updatePolicy x policy hx hgeneration =>
    rw [List.forall_mem_cons, List.forall_mem_append, List.forall_mem_append,
      List.forall_mem_singleton]
    refine ⟨.policy _ (.inr ⟨x.id, rfl⟩), ⟨origins_leaseAs _ heldLease_stored, ?_⟩, ?_⟩
    · refine origins_continuations rfl fun c => ⟨_, ?_, rfl⟩
      split <;> decide
    · exact .execution (.succeeded hx (.updatePolicy policy.generation hgeneration))
  | @bind x request hx hworker hboot hbindable hlive =>
    rw [List.forall_mem_append, List.forall_mem_cons, List.forall_mem_singleton]
    exact ⟨origins_leaseAs _ heldActiveLease_stored, .granted request hx,
      .execution (.succeeded hx (.bind request hbindable hlive))⟩
  | @start x l token htoken hready =>
    exact origins_continuationRecords rfl (token_execution htoken) ⟨rfl, rfl, rfl, rfl⟩ rfl
      (.inl ⟨rfl, .inl rfl⟩) (.succeeded (token_execution htoken) (.start token htoken hready))
  | @begin x l request htoken hrunning hblocked =>
    have hx : j.state.executions.find x.id = some x := token_execution htoken
    rw [List.forall_mem_append, List.forall_mem_cons, List.forall_mem_singleton]
    refine ⟨fun e he => ?_, .begun request rfl hx,
      .execution (.succeeded hx (.begin request htoken hrunning hblocked))⟩
    obtain ⟨a, ha, rfl⟩ := List.mem_map.mp he
    have hredriven : redriven x (j.latestAction x.id) = some a := Option.mem_toList.mp ha
    rw [hredriven]
    exact .replay request hx hredriven
  | @complete x l a request htoken hrunning ha hfresh hdefect hcommit =>
    rw [List.forall_mem_singleton]
    exact .group (token_execution htoken) (findAction_stored ha) (commitGroupOf_promotes _ _ _ _ _)
      rfl
  | fail request htoken ha howner hcommitted hambiguous =>
    rw [List.forall_mem_singleton]
    exact .action _ _ (findAction_stored ha) (by decide)
  | @report x l a request htoken ha hcommitted hambiguous habandoned =>
    rw [List.forall_mem_singleton]
    refine .action _ _ (findAction_stored ha) ?_
    split <;> decide
  | enterCheckpoint request htoken hlifecycle =>
    exact origins_enterCheckpointing request.token htoken hlifecycle
  | @checkpoint x l depth request htoken hlifecycle hdepth =>
    have hx : j.state.executions.find x.id = some x := token_execution htoken
    rw [checkpointRecords, List.forall_mem_append]
    refine ⟨origins_demotionRecords request htoken hlifecycle, ?_⟩
    refine origins_continuationRecords ?_ hx ⟨rfl, rfl, rfl, rfl⟩ (epoch_newCheckpointRecords j x _)
      (.inr ⟨rfl, followsCheckpoint_checkpointRecords _ rfl _⟩)
      (.succeeded hx (@Succession.checkpoint j x l depth request htoken hlifecycle))
    refine continuations_write _ _ ?_
    unfold demotionRecords newCheckpointRecords
    rw [continuationsOf_append, continuationsOf_append, continuations_enterCheckpointing,
      (of_map_checkpoint _).2.2]
    rfl
  | @enterResume x l request htoken hresumable hrecovery =>
    rw [List.forall_mem_singleton]
    exact .execution (.succeeded (token_execution htoken)
      (.enterResume request htoken hresumable hrecovery))
  | @resume x l request htoken hresumable hrecovery hvalid =>
    have hx : j.state.executions.find x.id = some x := token_execution htoken
    rw [resumeRecords, List.forall_mem_cons]
    exact ⟨.execution (.succeeded hx (.enterResume request htoken hresumable hrecovery)),
      origins_continuationRecords rfl hx ⟨rfl, rfl, rfl, rfl⟩ rfl (.inl ⟨rfl, .inr rfl⟩)
        (.succeeded hx (.resume request htoken hresumable hrecovery hvalid))⟩
  | @recoverPlain x hx hlive hopens hreceipt =>
    exact origins_recoveryRecords _ hx (.succeeded hx (.recoverPlain hlive hopens hreceipt))
  | @recoverAmbiguous x a hx hlive hopens ha =>
    rw [ambiguityRecords, List.forall_mem_cons, List.forall_mem_cons]
    exact ⟨.recorded hx, .action .ambiguous a.receipt (plannedAction_stored ha) (by decide),
      origins_recoveryRecords _ hx (.succeeded hx (.recoverAmbiguous hlive hopens ha))⟩
  | @recoverCommit x a request hx hlive hreceipt ha hcommit =>
    rw [receiptRecords, List.forall_mem_cons]
    exact ⟨.group hx (plannedAction_stored ha) (commitGroupOf_promotes _ _ _ _ _) rfl,
      origins_recoveryRecords _ hx (.succeeded hx (.recoverCommit request hlive hreceipt ha))⟩
  | @resolveCommit x amb a request hx hamb howner hopen ha hresolution hcommit =>
    have hkey : amb.id = request.ambiguity := Table.find_key hamb
    have haction : a.key = amb.actionKey := Table.find_key ha
    rw [List.forall_mem_cons, List.forall_mem_cons, List.forall_mem_singleton]
    refine ⟨.group hx ?_ (commitGroupOf_promotes _ _ _ _ _) rfl, .ambiguity request ?_,
      .execution (.succeeded hx (.resolveCommit request hamb howner hopen ha hresolution))⟩
    · rw [haction]
      exact ha
    · rw [hkey]
      exact hamb
  | @resolveAction x amb a request status hx hamb howner hopen ha hresolution =>
    have hkey : amb.id = request.ambiguity := Table.find_key hamb
    have haction : a.key = amb.actionKey := Table.find_key ha
    rw [List.forall_mem_cons, List.forall_mem_cons, List.forall_mem_singleton]
    refine ⟨.action status request.evidence ?_ ?_, .ambiguity request ?_,
      .execution (.succeeded hx (.resolveAction request status hamb howner hopen ha hresolution))⟩
    · rw [haction]
      exact ha
    · rcases hresolution with ⟨-, rfl⟩ | ⟨-, rfl⟩ <;> decide
    · rw [hkey]
      exact hamb
  | @resolveManual x amb a request hx hamb howner hopen ha hresolution =>
    have hkey : amb.id = request.ambiguity := Table.find_key hamb
    rw [List.forall_mem_cons, List.forall_mem_singleton]
    refine ⟨.ambiguity request ?_,
      .execution (.succeeded hx (.resolveManual request hamb howner hopen ha hresolution))⟩
    rw [hkey]
    exact hamb
  | @transition x target hx hlegal hambiguity =>
    rw [List.forall_mem_append, List.forall_mem_singleton]
    refine ⟨?_, .execution (.succeeded hx (.transition target hlegal))⟩
    split
    · exact origins_leaseAs _ heldActiveLease_stored
    · exact fun e he => (by cases he)
  | @advance x hx hlive =>
    rw [List.forall_mem_append, List.forall_mem_append, List.forall_mem_singleton]
    refine ⟨⟨?_, origins_leaseAs _ heldActiveLease_stored⟩,
      .execution (.succeeded hx (.advance hlive))⟩
    exact origins_continuations rfl fun c => ⟨.stale, by decide, rfl⟩
  | @lose x hx hlive =>
    -- the execution may be written or not; a lease is a stored one
    intro e he
    have hkind : (∃ y, e = .execution y) ∨ e ∈ leaseAs (j.state.leases.find x.lease) .revoked := by
      unfold fenceRecords at he
      split at he
      · cases he
      · dsimp only at he
        split at he
        · rcases List.mem_append.mp he with he | he
          · exact .inr he
          · exact .inl ⟨_, List.mem_singleton.mp he⟩
        · exact .inl ⟨_, List.mem_singleton.mp he⟩
    rcases hkind with ⟨y, rfl⟩ | hlease
    · exact .execution (hversions y (List.mem_flatMap.mpr ⟨_, he, List.mem_singleton.mpr rfl⟩))
    · refine origins_leaseAs _ (fun l hl => ?_) e hlease
      rw [Table.find_key hl]
      exact hl

/-! ## Restarts -/

/-- Where a record of a restart comes from. -/
inductive Restarts (j : Journaled) : JournalEntry → Prop
  | storeMeta : Restarts j (.storeMeta (nextEpochMeta j.state))
  | lease {l : LeaseRecord} (hl : j.state.leases.find l.id = some l) :
      Restarts j (.lease { l with state := .revoked })
  | execution {x : ExecutionRecord} (st : DurableState) (epoch : Nat)
      (hx : j.state.executions.find x.id = some x) : Restarts j (.execution (restarted st epoch x))
  | continuation {c : ContinuationRecord} (hc : j.state.continuations.find c.id = some c) :
      Restarts j (.continuation { c with state := .stale })

theorem of_map_lease (ls : List LeaseRecord) :
    executionsOf (ls.map .lease) = [] ∧ continuationsOf (ls.map .lease) = [] := by
  induction ls with
  | nil => exact ⟨rfl, rfl⟩
  | cons l rest ih => exact ih

theorem continuations_map_execution (xs : List ExecutionRecord) :
    continuationsOf (xs.map .execution) = [] := by
  induction xs with
  | nil => rfl
  | cons x rest ih => exact ih

theorem restartRecords_origins (j : Journaled) : ∀ e ∈ restartRecords j, Restarts j e := by
  have hrevocation : executionsOf (revocationRecords j) = [] ∧
      continuationsOf (revocationRecords j) = [] := by
    unfold revocationRecords
    rw [executionsOf_append, continuationsOf_append, (of_map_lease _).1, (of_map_lease _).2]
    exact ⟨rfl, rfl⟩
  have hreclassification : continuationsOf (reclassificationRecords j) = [] := by
    unfold reclassificationRecords
    rw [continuationsOf_append, hrevocation.2, continuations_map_execution]
    rfl
  intro e he
  rcases List.mem_append.mp he with he | he
  · rcases List.mem_append.mp he with he | he
    · rcases List.mem_append.mp he with he | he
      · rw [List.mem_singleton.mp he]
        exact .storeMeta
      · obtain ⟨l', hl', rfl⟩ := List.mem_map.mp he
        obtain ⟨l, hl, rfl⟩ := List.mem_map.mp hl'
        exact .lease ((Table.find_eq_some_iff _ _ _).mpr ⟨List.mem_of_mem_filter hl, rfl⟩)
    · obtain ⟨y, hy, rfl⟩ := List.mem_map.mp he
      obtain ⟨x, hx, rfl⟩ := List.mem_map.mp hy
      refine .execution _ _ ?_
      have hstored : (j.write (revocationRecords j)).state.image.executions x.id = some x :=
        (Table.find_eq_some_iff _ _ _).mpr ⟨List.mem_of_mem_filter hx, rfl⟩
      rw [Journaled.image_write, Image.executions_installAll, hrevocation.1] at hstored
      exact hstored
  · obtain ⟨c', hc', rfl⟩ := List.mem_map.mp he
    obtain ⟨c, hc, rfl⟩ := List.mem_map.mp hc'
    refine .continuation ((Table.find_eq_some_iff _ _ _).mpr ⟨?_, rfl⟩)
    rw [← continuations_write j _ hreclassification]
    exact List.mem_of_mem_filter hc

end ExecutionFabric
