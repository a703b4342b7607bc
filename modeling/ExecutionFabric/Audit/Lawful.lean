import ExecutionFabric.Audit.Coherence

/-!
# Transactions are lawful

Every record of every transaction is lawful in the image before it, so coherence
holds at each record boundary. The same for the records of a restart.
-/
namespace ExecutionFabric

open Lib

namespace Image

variable {ds : List Derivation} {m : Image}

/-! ## Replaced executions -/

theorem Succeeds.refl (m : Image) (x : ExecutionRecord) : m.Succeeds x x :=
  ⟨rfl, rfl, rfl, rfl, rfl, rfl, rfl, Nat.le_refl _, .inl rfl, .inl rfl, .inl rfl, .same rfl rfl rfl,
    .inl rfl⟩

theorem Rebound.of_eq {x y z : ExecutionRecord} (h : m.Rebound x y) (hid : z.id = y.id)
    (hlease : z.lease = y.lease) (hworker : z.worker = y.worker) (hboot : z.boot = y.boot) :
    m.Rebound x z := by
  cases h with
  | same hl hw hb => exact .same (hlease.trans hl) (hworker.trans hw) (hboot.trans hb)
  | dropped hl hw hb => exact .dropped (hlease.trans hl) (hworker.trans hw) (hboot.trans hb)
  | granted l hl howner hvalid hw hb =>
    exact .granted l (hlease ▸ hl) (howner.trans hid.symm) (hlease ▸ hvalid) (hworker ▸ hw)
      (hboot ▸ hb)

/-- Fields outside the links and the frontier are free to change. -/
theorem Succeeds.of_eq {x y z : ExecutionRecord} (h : m.Succeeds x y) (hlinks : z.links = y.links)
    (hfrontier : y.actionFrontier ≤ z.actionFrontier) : m.Succeeds x z := by
  have hid : z.id = y.id := congrArg Links.id hlinks
  have hlease : z.lease = y.lease := congrArg Links.lease hlinks
  have hworker : z.worker = y.worker := congrArg Links.worker hlinks
  have hboot : z.boot = y.boot := congrArg Links.boot hlinks
  have hambiguity : z.ambiguity = y.ambiguity := congrArg Links.ambiguity hlinks
  have hcontinuation : z.continuation = y.continuation := congrArg Links.continuation hlinks
  have hcheckpoint : z.checkpoint = y.checkpoint := congrArg Links.checkpoint hlinks
  have hrecovery : z.recovery = y.recovery := congrArg Links.recovery hlinks
  exact
    { id := hid.trans h.id
      created := (congrArg Links.createdSequence hlinks).trans h.created
      progressGeneration := (congrArg Links.progressGeneration hlinks).trans h.progressGeneration
      progress := (congrArg Links.progress hlinks).trans h.progress
      lastCommit := (congrArg Links.lastCommit hlinks).trans h.lastCommit
      committedActions := (congrArg Links.committedActions hlinks).trans h.committedActions
      policy := (congrArg Links.policy hlinks).trans h.policy
      frontier := Nat.le_trans h.frontier hfrontier
      continuation := by
        rw [hcontinuation, hid]
        exact h.continuation
      checkpoint := by
        rw [hcheckpoint, hid]
        exact h.checkpoint
      recovery := by
        rw [hrecovery, hid]
        exact h.recovery
      rebound := h.rebound.of_eq hid hlease hworker hboot
      ambiguity := by
        rw [hambiguity, hid]
        exact h.ambiguity }

/-- Continuing from a stored continuation of the execution is a legal change. -/
theorem Succeeds.continuedBy {x y : ExecutionRecord} (h : m.Succeeds x y)
    {c : ContinuationRecord} (hc : m.continuations c.id = some c) (howner : c.execution = x.id) :
    m.Succeeds x (y.continuedBy c) :=
  { h with
    rebound := h.rebound.of_eq rfl rfl rfl rfl
    continuation := .inr (Resolves.self hc (howner.trans h.id.symm)) }

/-- Pointing at a stored checkpoint of the execution is a legal change. -/
theorem Succeeds.checkpointedAt {x y : ExecutionRecord} (h : m.Succeeds x y) {i : CheckpointId}
    (generation : Nat) (hi : Resolves m.checkpoints CheckpointRecord.execution i x.id) :
    m.Succeeds x { y with checkpoint := i, checkpointGeneration := generation } :=
  { h with
    rebound := h.rebound.of_eq rfl rfl rfl rfl
    checkpoint := .inr (h.id.symm ▸ hi) }

/-- Pointing at a stored recovery of the execution is a legal change. -/
theorem Succeeds.recoveredBy {x y : ExecutionRecord} (h : m.Succeeds x y) {i : RecoveryId}
    (generation : Nat) (hi : Resolves m.recoveries RecoveryRecord.execution i x.id) :
    m.Succeeds x { y with recovery := i, recoveryGeneration := generation } :=
  { h with
    rebound := h.rebound.of_eq rfl rfl rfl rfl
    recovery := .inr (h.id.symm ▸ hi) }

theorem Succeeds.withLifecycle {x y : ExecutionRecord} (h : m.Succeeds x y) (l : Lifecycle) :
    m.Succeeds x { y with lifecycle := l } := h.of_eq rfl (Nat.le_refl _)

theorem Succeeds.withEpoch {x y : ExecutionRecord} (h : m.Succeeds x y) (epoch : Nat) :
    m.Succeeds x { y with epoch := epoch } := h.of_eq rfl (Nat.le_refl _)

/-- Dropping authority is a legal change. -/
theorem Succeeds.withoutLease {x y : ExecutionRecord} (h : m.Succeeds x y) :
    m.Succeeds x y.withoutLease := { h with rebound := .dropped rfl rfl rfl }

/-! ## Records whose lawfulness does not depend on the image -/

theorem installAll_continuations (m : Image) (cs : List ContinuationRecord) :
    ∃ f, m.installAll (cs.map .continuation) = { m with continuations := f } := by
  induction cs generalizing m with
  | nil => exact ⟨m.continuations, rfl⟩
  | cons c rest ih =>
    obtain ⟨f, hf⟩ := ih (m.install (.continuation c))
    exact ⟨f, hf⟩

theorem lawfulAll_continuations (m : Image) (cs : List ContinuationRecord)
    (h : ∀ c ∈ cs, Named ds (.continuation c.execution c.incarnationGeneration
      c.progressGeneration c.generation) c.id ∧ c.epoch ≤ m.epoch) :
    LawfulAll ds m (cs.map .continuation) := by
  induction cs generalizing m with
  | nil => trivial
  | cons c rest ih =>
    obtain ⟨hnamed, hepoch⟩ := h c List.mem_cons_self
    exact ⟨hnamed, hepoch, ih _ fun c' hc' => h c' (List.mem_cons_of_mem _ hc')⟩

theorem lawfulAll_leaseAs (h : m.Coherent ds) {l : Option LeaseRecord}
    (hl : ∀ r, l = some r → m.leases r.id = some r) (state : LeaseState) :
    LawfulAll ds m (leaseAs l state) := by
  cases l with
  | none => trivial
  | some r =>
    have hr := hl r rfl
    exact ⟨h.known.leases _ r hr, h.leaseEpoch _ r hr, trivial⟩

theorem installAll_leaseAs (m : Image) (l : Option LeaseRecord) (state : LeaseState) :
    ∃ f, m.installAll (leaseAs l state) = { m with leases := f } := by
  cases l with
  | none => exact ⟨m.leases, rfl⟩
  | some r => exact ⟨_, rfl⟩

end Image

/-! ## Stored records -/

theorem image_find_lease {st : DurableState} {x : ExecutionRecord} {l : LeaseRecord}
    (h : heldLease st x = some l) : x.lease ≠ .nil ∧ st.image.leases x.lease = some l := by
  unfold heldLease at h
  split at h
  next hvalid => exact ⟨(Id.valid_iff _).mp hvalid, h⟩
  next => cases h

theorem image_find_activeLease {st : DurableState} {x : ExecutionRecord} {l : LeaseRecord}
    (h : heldActiveLease st x = some l) :
    x.lease ≠ .nil ∧ st.image.leases x.lease = some l ∧ l.state = .active := by
  unfold heldActiveLease at h
  split at h
  next hvalid =>
    unfold activeLease at h
    obtain ⟨hfind, hactive⟩ := Option.filter_eq_some_iff.mp h
    exact ⟨(Id.valid_iff _).mp hvalid, hfind, by simpa using hactive⟩
  next => cases h

/-- A stored lease under its own id. -/
theorem stored_lease {m : Image} {k : LeaseId} {l : LeaseRecord} (h : m.leases k = some l) :
    m.leases l.id = some l := by
  rw [m.leases.keyed _ _ h]
  exact h

theorem stored_action {m : Image} {k : ActionKey} {a : ActionRecord} (h : m.actions k = some a) :
    m.actions a.key = some a := by
  rw [m.actions.keyed _ _ h]
  exact h

theorem stored_ambiguity {m : Image} {k : AmbiguityId} {amb : AmbiguityRecord}
    (h : m.ambiguities k = some amb) : m.ambiguities amb.id = some amb := by
  rw [m.ambiguities.keyed _ _ h]
  exact h

theorem named_of_filtered {ds : List Derivation} {st : DurableState} (h : st.image.Coherent ds)
    {m : Image} (hepoch : st.image.epoch = m.epoch) {p : ContinuationRecord → Bool}
    {f : ContinuationRecord → ContinuationState} :
    ∀ c ∈ (st.continuations.records.filter p).map fun c => { c with state := f c },
      Named ds (.continuation c.execution c.incarnationGeneration c.progressGeneration
        c.generation) c.id ∧ c.epoch ≤ m.epoch := by
  intro c hc
  obtain ⟨c₀, hc₀, rfl⟩ := List.mem_map.mp hc
  have hmem := (List.mem_filter.mp hc₀).1
  have hstored := (Table.find_eq_some_iff st.continuations c₀.id c₀).mpr ⟨hmem, rfl⟩
  exact ⟨h.known.continuations c₀.id c₀ hstored, hepoch ▸ h.continuationEpoch c₀.id c₀ hstored⟩

/-- A valid token names a stored execution. -/
theorem token_execution {st : DurableState} {t : LeaseToken} {x : ExecutionRecord}
    {l : LeaseRecord} (h : validateToken st t = .ok (x, l)) :
    st.image.executions x.id = some x := by
  obtain ⟨hx, hid⟩ := validateToken_execution h
  rw [← hid] at hx
  exact hx

/-- The records of a promotion are keyed by their derivations. -/
theorem Promotes.derived {ds : List Derivation} {x : ExecutionRecord} {a : ActionRecord}
    {g : CommitGroupRecord} {store : StoreId} (h : Promotes x a g)
    (hx : Named ds (.execution store x.createdSequence) x.id)
    (ha : Named ds (.action a.execution a.sequence) a.id)
    (hmint : ∀ d ∈ (JournalEntry.commitGroup g).mints store, d ∈ ds) :
    (JournalEntry.commitGroup g).Derived ds store := by
  obtain ⟨epoch, hexecution⟩ := h.execution
  obtain ⟨receipt, haction⟩ := h.action
  have hid : g.commit.action = a.id := congrArg ActionKey.id h.key
  have hgeneration : g.commit.actionGeneration = a.generation := congrArg ActionKey.generation h.key
  have hnext : g.commit.progressGeneration = x.progressGeneration + 1 :=
    h.seals.generation.symm.trans h.generation
  refine ⟨⟨hmint _ (by simp [JournalEntry.mints]), ?_⟩,
    ⟨hmint _ (by simp [JournalEntry.mints]), ?_⟩, ?_, ?_⟩
  · rw [h.owner, hid, hgeneration, hnext, h.commitId]
    rfl
  · rw [h.seals.execution, h.owner, h.generation, h.id]
    rfl
  · rw [haction]
    exact ha
  · rw [hexecution]
    exact hx

/-! ## The planned action -/

/-- Where the action a recovery plan names comes from. -/
inductive Planned (j : Journaled) (x : ExecutionRecord) (a : ActionRecord) : Prop
  | ambiguous (amb : AmbiguityRecord) (hamb : currentAmbiguity j.state x = some amb)
      (hopen : ambiguityIsOpen amb.state = true) (ha : j.state.image.actions amb.actionKey = some a)
      (hopens : opensAmbiguity (planOf j x).decision = true)
      (hreceipt : (planOf j x).commitFromReceipt = false)
  | interrupted (hclosed : ∀ amb, currentAmbiguity j.state x = some amb →
        ambiguityIsOpen amb.state = false)
      (ha : j.latestAction x.id = some a)
      (hstatus : a.status ≠ .committed ∧ a.status ≠ .compensated ∧ a.status ≠ .abandoned)
      (hjudged : Judged (currentAmbiguity j.state x) a (planOf j x).decision
        (planOf j x).commitFromReceipt)

theorem unsettledLatest_some {latest : Option ActionRecord} {a : ActionRecord}
    (h : unsettledLatest latest = some a) :
    latest = some a ∧ a.status ≠ .committed ∧ a.status ≠ .compensated ∧ a.status ≠ .abandoned := by
  obtain ⟨hsome, hstatus⟩ := Option.filter_eq_some_iff.mp h
  simp only [decide_eq_true_eq, not_or] at hstatus
  exact ⟨hsome, hstatus⟩

theorem planned_of_plannedAction {j : Journaled} {x : ExecutionRecord} {a : ActionRecord}
    (h : plannedAction j.state (planOf j x) = some a) : Planned j x a := by
  have hclass : Classified (recoveryInput j x) (planOf j x) := classifyRecovery_classified _
  unfold plannedAction at h
  split at h
  next hvalid =>
    have hnil : (planOf j x).action ≠ .nil := (Id.valid_iff _).mp hvalid
    cases hclass with
    | ambiguous hamb haction hgeneration hopens hreceipt =>
      obtain ⟨hsome, hopen⟩ := Option.filter_eq_some_iff.mp hamb
      rw [haction, hgeneration] at h
      exact .ambiguous _ hsome (by simpa using hopen) h hopens hreceipt
    | interrupted hamb ha haction hgeneration hjudged =>
      obtain ⟨hlatest, hstatus⟩ := unsettledLatest_some ha
      have hstored : j.state.actions.find ⟨(planOf j x).action, (planOf j x).actionGeneration⟩ =
          some a := h
      rw [haction, hgeneration] at hstored
      have hsame : j.latestAction x.id = some a := by
        rw [hlatest]
        unfold Journaled.latestAction at hlatest
        split at hlatest
        · cases hlatest
        next key _ =>
          have hkey := Table.find_key hlatest
          rw [← hkey] at hlatest
          exact hlatest.symm.trans hstored
      obtain rfl := Option.some.inj (hlatest.symm.trans hsame)
      refine .interrupted ?_ hlatest hstatus hjudged
      intro amb hsome
      by_contra hopen
      have hsome' : (recoveryInput j x).openAmbiguity = some amb :=
        Option.filter_eq_some_iff.mpr ⟨hsome, by simpa using hopen⟩
      rw [hamb] at hsome'
      cases hsome'
    | atRest hamb hrest haction hreceipt => exact absurd haction hnil
    | halted haction hreceipt hhalted => exact absurd haction hnil
  next => cases h

theorem currentAmbiguity_some {st : DurableState} {x : ExecutionRecord} {amb : AmbiguityRecord}
    (h : currentAmbiguity st x = some amb) :
    x.ambiguity ≠ .nil ∧ st.image.ambiguities x.ambiguity = some amb := by
  unfold currentAmbiguity at h
  split at h
  next hvalid => exact ⟨(Id.valid_iff _).mp hvalid, h⟩
  next => cases h

/-- The planned action is a stored action of the execution being recovered. -/
theorem Planned.owned {ds : List Derivation} {j : Journaled} {x : ExecutionRecord}
    {a : ActionRecord} (h : Planned j x a) (hc : j.state.image.Coherent ds) (hi : Indexed j)
    (hx : j.state.image.executions x.id = some x) :
    j.state.image.actions a.key = some a ∧ a.execution = x.id := by
  cases h with
  | ambiguous amb hamb hopen ha hopens hreceipt =>
    obtain ⟨hvalid, hstored⟩ := currentAmbiguity_some hamb
    obtain ⟨amb', hamb', howner⟩ := hc.ambiguous _ x hx hvalid
    obtain rfl := Option.some.inj (hstored.symm.trans hamb')
    obtain ⟨a', ha', hsame⟩ := hc.ambiguityAction _ amb hstored
    obtain rfl := Option.some.inj (ha.symm.trans ha')
    exact ⟨stored_action ha, hsame.trans howner⟩
  | interrupted hclosed ha hstatus hjudged =>
    have hlatest := hi.latest ha
    exact ⟨hlatest.stored, hlatest.owner⟩

/-! ## Operations on executions and leases -/

section Transactions

variable {ds : List Derivation} {j : Journaled} {x : ExecutionRecord}

/-- A legal change of a stored execution may follow. -/
theorem Image.lawfulAll_succeeds {m : Image} {x' : ExecutionRecord}
    (hx : m.executions x.id = some x)
    (hn : Named ds (.execution m.store x.createdSequence) x.id) (hs : m.Succeeds x x') :
    m.LawfulAll ds [.execution x'] := by
  refine ⟨?_, .inr ⟨x, hx, hs⟩, trivial⟩
  show Named ds (.execution m.store x'.createdSequence) x'.id
  rw [hs.created, hs.id]
  exact hn

theorem create_lawful (hfree : CollisionFree ds) (hc : j.state.image.Coherent ds)
    {policy : ExecutionPolicy} (hid : policy.id = (createdExecution j.state).policy)
    (hmint : Minted ds j.state.store [.storeMeta (advancedMeta j.state), .policy policy,
      .execution (createdExecution j.state)]) :
    j.state.image.LawfulAll ds [.storeMeta (advancedMeta j.state), .policy policy,
      .execution (createdExecution j.state)] := by
  have hderived : Named ds (.execution j.state.store j.state.nextExecutionSequence)
      (createdExecution j.state).id :=
    ⟨hmint (.execution (createdExecution j.state)) (by simp) _ (List.mem_singleton.mpr rfl), rfl⟩
  refine ⟨rfl, ⟨Nat.le_refl _, Nat.le_succ _⟩, trivial, trivial, hderived, .inl ?_, trivial⟩
  refine ⟨Nat.lt_succ_self _, ?_, ⟨rfl, rfl, rfl⟩, ⟨policy, ?_⟩, rfl, ⟨rfl, rfl, rfl⟩,
    ⟨rfl, rfl, rfl, rfl⟩⟩
  case refine_2 =>
    rw [← hid]
    exact KeyedMap.insert_self _ _
  show j.state.image.executions (createdExecution j.state).id = none
  cases hstored : j.state.image.executions (createdExecution j.state).id with
  | none => rfl
  | some y =>
    have hkey : y.id = (createdExecution j.state).id := j.state.image.executions.keyed _ _ hstored
    have hy := hc.known.executions _ y hstored
    rw [hkey] at hy
    injection hy.unique hderived hfree with _ hsequence
    have hlt : y.createdSequence < j.state.nextExecutionSequence := hc.created _ y hstored
    omega

theorem underPolicy_succeeds (m : Image) (x : ExecutionRecord) (generation : Nat) :
    m.Succeeds x (underPolicy x generation) := by
  have hkept : m.Succeeds x { x with policyGeneration := generation } :=
    (Image.Succeeds.refl m x).of_eq rfl (Nat.le_refl _)
  unfold underPolicy
  dsimp only
  split
  · split
    · exact hkept.withoutLease.withLifecycle _
    · exact hkept.withoutLease
  · exact hkept

theorem updatePolicy_lawful (hfree : CollisionFree ds) (hc : j.state.image.Coherent ds)
    (policy : ExecutionPolicy)
    (hx : j.state.image.executions x.id = some x) :
    j.state.image.LawfulAll ds
      (.policy policy :: (leaseAs (heldLease j.state x) .revoked ++
        (demotedContinuations j.state x.id policy).map .continuation ++
        [.execution (underPolicy x policy.generation)])) := by
  have hpolicy : (j.state.image.install (.policy policy)).Coherent ds :=
    hc.install hfree trivial trivial
  refine ⟨trivial, trivial, Image.lawfulAll_append (Image.lawfulAll_append ?_ ?_) ?_⟩
  · refine Image.lawfulAll_leaseAs hpolicy ?_ _
    intro l hl
    exact stored_lease (image_find_lease hl).2
  · refine Image.lawfulAll_continuations _ _ (named_of_filtered hc ?_)
    obtain ⟨f, hf⟩ := Image.installAll_leaseAs (j.state.image.install (.policy policy))
      (heldLease j.state x) .revoked
    rw [hf]
    rfl
  · obtain ⟨f, hf⟩ := Image.installAll_leaseAs (j.state.image.install (.policy policy))
      (heldLease j.state x) .revoked
    rw [Image.installAll_append, hf]
    obtain ⟨g, hg⟩ := Image.installAll_continuations
      { j.state.image.install (.policy policy) with leases := f }
      (demotedContinuations j.state x.id policy)
    rw [hg]
    exact Image.lawfulAll_succeeds hx (hc.known.executions _ x hx) (underPolicy_succeeds _ _ _)

/-- A new authority over a stored lease of the same execution is a legal change. -/
theorem Image.Succeeds.leased {m : Image} {x y : ExecutionRecord} (h : m.Succeeds x y)
    {l : LeaseRecord} (hl : m.leases l.id = some l) (howner : l.execution = x.id)
    (hvalid : l.id ≠ .nil) {worker : WorkerId} {boot : WorkerBootId} (hworker : worker ≠ .nil)
    (hboot : boot ≠ .nil) :
    m.Succeeds x { y with worker := worker, boot := boot, lease := l.id } :=
  { h with rebound := .granted l hl (howner.trans h.id.symm) hvalid hworker hboot }

theorem incarnated_succeeds (m : Image) (x : ExecutionRecord) (boot : WorkerBootId) :
    m.Succeeds x (incarnated x boot) := by
  have hany : ∀ (g : Nat) (i : ExecutionIncarnationId),
      m.Succeeds x { x with incarnationGeneration := g, incarnation := i } :=
    fun _ _ => (Image.Succeeds.refl m x).of_eq rfl (Nat.le_refl _)
  unfold incarnated
  split
  · exact .refl m x
  · exact hany _ _

theorem bind_lawful (hfree : CollisionFree ds) (hc : j.state.image.Coherent ds)
    (request : BindWorkerRequest)
    (hx : j.state.image.executions x.id = some x) (hworker : request.worker.valid = true)
    (hboot : request.boot.valid = true)
    (hmint : Minted ds j.state.store (leaseAs (heldActiveLease j.state x) .superseded ++
      [.lease (grantedLease j.state x request), .execution (boundExecution j.state x request)])) :
    j.state.image.LawfulAll ds (leaseAs (heldActiveLease j.state x) .superseded ++
      [.lease (grantedLease j.state x request), .execution (boundExecution j.state x request)]) := by
  have hderived : (JournalEntry.lease (grantedLease j.state x request)).Derived ds j.state.store :=
    ⟨hmint (.lease (grantedLease j.state x request)) (by simp) _ (List.mem_singleton.mpr rfl), rfl⟩
  have howner : (grantedLease j.state x request).execution = x.id := rfl
  have hepoch : (grantedLease j.state x request).epoch = j.state.epoch := rfl
  have hsucceeds : ∀ m : Image, m.leases (grantedLease j.state x request).id =
      some (grantedLease j.state x request) → m.Succeeds x (boundExecution j.state x request) := by
    unfold boundExecution
    generalize grantedLease j.state x request = l at *
    intro m hl
    have hleased := (incarnated_succeeds m x request.boot).leased hl howner
      (Named.valid hderived hfree) ((Id.valid_iff _).mp hworker) ((Id.valid_iff _).mp hboot)
    exact hleased.of_eq rfl (Nat.le_refl _)
  refine Image.lawfulAll_append (Image.lawfulAll_leaseAs hc ?_ _) ?_
  · intro l hl
    exact stored_lease (image_find_activeLease hl).2.1
  · obtain ⟨f, hf⟩ := Image.installAll_leaseAs j.state.image (heldActiveLease j.state x) .superseded
    rw [hf]
    refine ⟨hderived, Nat.le_of_eq hepoch, ?_⟩
    exact Image.lawfulAll_succeeds hx (hc.known.executions _ x hx)
      (hsucceeds _ (KeyedMap.insert_self _ _))

/-! ## Operations of a worker -/

theorem completionDefect_none {request : CompleteActionRequest} {a : ActionRecord}
    (h : completionDefect x request a = none) :
    a.execution = x.id ∧ a.generation = request.actionGeneration ∧
      (a.status = .inFlight ∨ a.status = .prepared ∨ a.status = .effectApplied ∨
        a.status = .completedUnacknowledged ∨ a.status = .committed) := by
  unfold completionDefect at h
  split at h
  · cases h
  next howner =>
    split at h
    · cases h
    next hgeneration =>
      refine ⟨not_not.mp howner, not_not.mp hgeneration, ?_⟩
      cases hstatus : a.status <;> simp [hstatus] at h ⊢

/-- The tail of every operation that mints a continuation. -/
theorem continuationRecords_lawful {m : Image} {st : DurableState} {y : ExecutionRecord}
    {c : ContinuationRecord} (hknown : st.image.Coherent ds) (hepoch : st.image.epoch = m.epoch)
    (hcurrent : c.epoch = m.epoch)
    (hc : Named ds (.continuation c.execution c.incarnationGeneration c.progressGeneration
      c.generation) c.id)
    (howner : c.execution = x.id)
    (hx : m.executions x.id = some x) (hn : Named ds (.execution m.store x.createdSequence) x.id)
    (hs : ∀ f, ({ m with continuations := f } : Image).Succeeds x y) :
    m.LawfulAll ds (continuationRecords st y c) := by
  refine Image.lawfulAll_append
    (Image.lawfulAll_continuations _ _ (named_of_filtered hknown hepoch)) ?_
  obtain ⟨f, hf⟩ := Image.installAll_continuations m (retiredContinuations st y.id c.id)
  rw [hf]
  exact ⟨hc, Nat.le_of_eq hcurrent, Image.lawfulAll_succeeds hx hn
    ((hs _).continuedBy (KeyedMap.insert_self _ _) howner)⟩

/-- A minted continuation is keyed by its derivation. -/
theorem mintContinuation_named {st : DurableState} {x next : ExecutionRecord}
    {state : ContinuationState} {ordinal : Nat} {store : StoreId}
    (hmint : ∀ d ∈ (JournalEntry.continuation (mintContinuation st x next state ordinal)).mints
      store, d ∈ ds) :
    (JournalEntry.continuation (mintContinuation st x next state ordinal)).Derived ds store :=
  ⟨hmint _ (List.mem_singleton.mpr rfl), rfl⟩

theorem mem_continuationRecords (st : DurableState) (x : ExecutionRecord) (c : ContinuationRecord) :
    JournalEntry.continuation c ∈ continuationRecords st x c := by
  simp [continuationRecords]

theorem start_lawful (hc : j.state.image.Coherent ds)
    (hx : j.state.image.executions x.id = some x)
    (hmint : Minted ds j.state.store (continuationRecords j.state (startedExecution j.state x)
      (mintContinuation j.state (startedExecution j.state x) (startedExecution j.state x) .valid
        x.actionFrontier))) :
    j.state.image.LawfulAll ds (continuationRecords j.state (startedExecution j.state x)
      (mintContinuation j.state (startedExecution j.state x) (startedExecution j.state x) .valid
        x.actionFrontier)) := by
  refine continuationRecords_lawful (x := x) hc rfl rfl
    (mintContinuation_named (hmint _ (mem_continuationRecords _ _ _))) rfl hx
    (hc.known.executions _ x hx) fun f => ?_
  exact ((Image.Succeeds.refl _ x).withLifecycle .running).withEpoch _

theorem dispatched_succeeds (m : Image) (x : ExecutionRecord) (a : ActionRecord)
    (replayed : Option ActionRecord) (h : x.actionFrontier ≤ a.sequence) :
    m.Succeeds x (dispatched x a replayed) :=
  (Image.Succeeds.refl m x).of_eq rfl h

theorem frontier_le_begunAction (x : ExecutionRecord) (request : BeginActionRequest)
    (replayed : Option ActionRecord) :
    x.actionFrontier ≤ (begunAction x request replayed).sequence := by
  cases replayed with
  | none => exact Nat.le_succ _
  | some b => exact Nat.le_refl _

/-- The records of `begin_action` for an action that replays `replayed`. -/
theorem begin_lawful (hc : j.state.image.Coherent ds)
    (hx : j.state.image.executions x.id = some x) (request : BeginActionRequest)
    (replayed : Option ActionRecord)
    (hmint : Minted ds j.state.store (replayed.toList.map (fun a => .replay (admittedReplay j.state x
      request a (begunAction x request replayed))) ++ [.action (begunAction x request replayed),
        .execution (dispatched x (begunAction x request replayed) replayed)])) :
    j.state.image.LawfulAll ds (replayed.toList.map (fun a => .replay (admittedReplay j.state x
      request a (begunAction x request replayed))) ++ [.action (begunAction x request replayed),
        .execution (dispatched x (begunAction x request replayed) replayed)]) := by
  have haction : (JournalEntry.action (begunAction x request replayed)).Derived ds j.state.store :=
    ⟨hmint (.action (begunAction x request replayed)) (by simp) _ (List.mem_singleton.mpr rfl), rfl⟩
  have hrest : ∀ m : Image, m.store = j.state.store → m.executions x.id = some x →
      m.LawfulAll ds [.action (begunAction x request replayed),
        .execution (dispatched x (begunAction x request replayed) replayed)] := by
    intro m hstore hx'
    refine ⟨haction, ⟨x, hx'⟩, Image.lawfulAll_succeeds hx' ?_
      (dispatched_succeeds _ _ _ _ (frontier_le_begunAction x request replayed))⟩
    show Named ds (.execution m.store x.createdSequence) x.id
    rw [hstore]
    exact hc.known.executions _ x hx
  cases replayed with
  | none => exact hrest _ rfl hx
  | some b =>
    refine ⟨⟨hmint (.replay (admittedReplay j.state x request b (begunAction x request (some b))))
      (by simp) _ (List.mem_singleton.mpr rfl), rfl⟩, trivial, hrest _ rfl hx⟩

/-- A commit of a stored action of the execution. -/
theorem commitGroup_lawful {m : Image} (hknown : m.Known ds) {a : ActionRecord}
    {g : CommitGroupRecord} (hg : Promotes x a g)
    (hx : m.executions x.id = some x) (ha : m.actions a.key = some a) (howner : a.execution = x.id)
    (hmint : ∀ d ∈ (JournalEntry.commitGroup g).mints m.store, d ∈ ds) :
    (JournalEntry.commitGroup g).Derived ds m.store ∧ m.Lawful (.commitGroup g) :=
  ⟨hg.derived (hknown.executions _ x hx) (hknown.actions _ a ha) hmint, x, a, hg, hx, ha, howner⟩

theorem enterCheckpointing_lawful {m : Image} (hx : m.executions x.id = some x)
    (hn : Named ds (.execution m.store x.createdSequence) x.id) :
    m.LawfulAll ds (enterCheckpointing x) := by
  unfold enterCheckpointing
  split
  · exact Image.lawfulAll_succeeds hx hn ((Image.Succeeds.refl m x).withLifecycle _)
  · trivial

/-- Entering CHECKPOINTING leaves a version of the execution in place. -/
theorem installAll_enterCheckpointing {m : Image} (hx : m.executions x.id = some x) :
    ∃ f l, m.installAll (enterCheckpointing x) = { m with executions := f } ∧
      f x.id = some { x with lifecycle := l } := by
  unfold enterCheckpointing
  split
  · exact ⟨_, .checkpointing, rfl, KeyedMap.insert_self _ _⟩
  · exact ⟨m.executions, x.lifecycle, rfl, hx⟩

theorem demotedCheckpoint_named {st : DurableState} (hknown : st.image.Known ds)
    {c : CheckpointRecord} (h : demotedCheckpoint st x = some c) :
    Named ds (.checkpoint c.execution c.generation) c.id := by
  unfold demotedCheckpoint at h
  split at h
  · split at h
    next previous hfind =>
      split at h
      · obtain rfl := Option.some.inj h
        exact hknown.checkpoints _ previous hfind
      · cases h
    next => cases h
  · cases h

theorem newCheckpointRecords_lawful (hc : j.state.image.Coherent ds)
    (hx : j.state.image.executions x.id = some x) {c : CheckpointRecord}
    (hcheckpoint : Named ds (.checkpoint c.execution c.generation) c.id) :
    j.state.image.LawfulAll ds (newCheckpointRecords x c) :=
  Image.lawfulAll_append (enterCheckpointing_lawful hx (hc.known.executions _ x hx))
    ⟨hcheckpoint, trivial, trivial⟩

theorem installAll_checkpoints (m : Image) (cs : List CheckpointRecord) :
    ∃ f, m.installAll (cs.map .checkpoint) = { m with checkpoints := f } := by
  induction cs generalizing m with
  | nil => exact ⟨m.checkpoints, rfl⟩
  | cons c rest ih =>
    obtain ⟨f, hf⟩ := ih (m.install (.checkpoint c))
    exact ⟨f, hf⟩

theorem installAll_demotionRecords (hx : j.state.image.executions x.id = some x)
    (c : CheckpointRecord) :
    ∃ f g l, j.state.image.installAll (demotionRecords j x c) =
      { j.state.image with executions := f, checkpoints := g } ∧
      f x.id = some { x with lifecycle := l } := by
  obtain ⟨f, l, hf, hfx⟩ := installAll_enterCheckpointing hx
  unfold demotionRecords newCheckpointRecords
  rw [Image.installAll_append, Image.installAll_append, hf]
  obtain ⟨g, hg⟩ := installAll_checkpoints
    (({ j.state.image with executions := f } : Image).install (.checkpoint c))
    (demotedCheckpoint (j.write (enterCheckpointing x ++ [.checkpoint c])).state x).toList
  exact ⟨f, g, l, hg, hfx⟩

/-- The new checkpoint is still there once the previous one is demoted. -/
theorem resolves_demotionRecords (hfree : CollisionFree ds) {c : CheckpointRecord}
    (hknown : (j.write (newCheckpointRecords x c)).state.image.Known ds)
    (howner : c.execution = x.id) :
    Resolves (j.state.image.installAll (demotionRecords j x c)).checkpoints
      CheckpointRecord.execution c.id x.id := by
  unfold demotionRecords
  rw [Image.installAll_append, ← Journaled.image_write]
  have hnew : Resolves (j.write (newCheckpointRecords x c)).state.image.checkpoints
      CheckpointRecord.execution c.id x.id := by
    refine Resolves.self ?_ howner
    rw [Journaled.image_write]
    unfold newCheckpointRecords
    rw [Image.installAll_append]
    exact KeyedMap.insert_self _ _
  cases hdemoted : demotedCheckpoint (j.write (newCheckpointRecords x c)).state x with
  | none => exact hnew
  | some c' =>
    refine hnew.insert (r := c') ?_
    intro c'' hc''
    have hnamed := hknown.checkpoints _ c'' hc''
    rw [KeyedMap.keyed _ _ _ hc''] at hnamed
    injection hnamed.unique (demotedCheckpoint_named hknown hdemoted) hfree

theorem checkpoint_lawful (hfree : CollisionFree ds) (hc : j.state.image.Coherent ds)
    (hx : j.state.image.executions x.id = some x) {c : CheckpointRecord}
    (hcheckpoint : Named ds (.checkpoint c.execution c.generation) c.id) (howner : c.execution = x.id)
    (hmint : Minted ds j.state.store (checkpointRecords j x c)) :
    j.state.image.LawfulAll ds (checkpointRecords j x c) := by
  have hnew := newCheckpointRecords_lawful hc hx hcheckpoint
  have hknown : (j.write (newCheckpointRecords x c)).state.image.Coherent ds := by
    rw [Journaled.image_write]
    exact hc.installAll hfree hnew List.prefix_rfl
  have hdemoted : j.state.image.LawfulAll ds (demotionRecords j x c) := by
    refine Image.lawfulAll_append hnew ?_
    cases hdemoted : demotedCheckpoint (j.write (newCheckpointRecords x c)).state x with
    | none => trivial
    | some c' => exact ⟨demotedCheckpoint_named hknown.known hdemoted, trivial, trivial⟩
  have hknown' : (j.write (demotionRecords j x c)).state.image.Coherent ds := by
    rw [Journaled.image_write]
    exact hc.installAll hfree hdemoted List.prefix_rfl
  obtain ⟨f, g, l, himage, hstored⟩ := installAll_demotionRecords hx c
  have hresolves : Resolves g CheckpointRecord.execution c.id x.id := by
    have hafter : (j.state.image.installAll (demotionRecords j x c)).checkpoints = g := by
      rw [himage]
    rw [← hafter]
    exact resolves_demotionRecords hfree hknown.known howner
  have hepoch : (j.write (demotionRecords j x c)).state.image.epoch = j.state.image.epoch := by
    rw [Journaled.image_write, himage]
  have hminted : (j.write (newCheckpointRecords x c)).state.image.epoch = j.state.image.epoch := by
    obtain ⟨f', l', hf', -⟩ := installAll_enterCheckpointing hx
    rw [Journaled.image_write, newCheckpointRecords, Image.installAll_append, hf']
    rfl
  refine Image.lawfulAll_append hdemoted ?_
  rw [himage]
  refine continuationRecords_lawful (x := { x with lifecycle := l }) hknown' hepoch hminted
    (mintContinuation_named (hmint _ ?_)) rfl hstored (hc.known.executions _ x hx) fun f' => ?_
  · exact List.mem_append_right _ (mem_continuationRecords _ _ _)
  · exact ((Image.Succeeds.refl _ _).checkpointedAt c.generation hresolves).withLifecycle .running

theorem resumingExecution_succeeds (m : Image) (st : DurableState) (x : ExecutionRecord)
    (bindings : BindingSet) : m.Succeeds x (resumingExecution st x bindings) :=
  (Image.Succeeds.refl m x).of_eq rfl (Nat.le_refl _)

theorem enterResume_lawful (hc : j.state.image.Coherent ds)
    (hx : j.state.image.executions x.id = some x) (bindings : BindingSet) :
    j.state.image.LawfulAll ds [.execution (resumingExecution j.state x bindings)] :=
  Image.lawfulAll_succeeds hx (hc.known.executions _ x hx) (resumingExecution_succeeds _ _ _ _)

theorem resume_lawful (hfree : CollisionFree ds) (hc : j.state.image.Coherent ds)
    (hx : j.state.image.executions x.id = some x) (bindings : BindingSet)
    (hmint : Minted ds j.state.store (resumeRecords j x bindings)) :
    j.state.image.LawfulAll ds (resumeRecords j x bindings) := by
  have henter := enterResume_lawful hc hx bindings
  have hknown : (resumingState j x bindings).image.Coherent ds := by
    unfold resumingState
    rw [Journaled.image_put]
    exact hc.installAll hfree henter List.prefix_rfl
  refine ⟨henter.1, henter.2.1, ?_⟩
  have hstored : (j.state.image.install (.execution (resumingExecution j.state x bindings))).executions
      (resumingExecution j.state x bindings).id = some (resumingExecution j.state x bindings) :=
    KeyedMap.insert_self _ _
  refine continuationRecords_lawful hknown rfl rfl (mintContinuation_named (hmint _ ?_)) rfl hstored
    ?_ fun f => ?_
  · exact List.mem_cons_of_mem _ (mem_continuationRecords _ _ _)
  · exact hc.known.executions _ x hx
  · exact (Image.Succeeds.refl _ _).withLifecycle .running

/-! ## Recovery and resolution -/

/-- The checkpoint a plan resumes from is a stored checkpoint of the execution. -/
theorem planOf_checkpoint (j : Journaled) (x : ExecutionRecord)
    (hdecision : (planOf j x).decision = .resumeFromCheckpoint) :
    Resolves j.state.image.checkpoints CheckpointRecord.execution (planOf j x).checkpoint x.id := by
  intro _
  obtain ⟨c, hcandidate, hid⟩ := classifyRecovery_checkpoint (recoveryInput j x) hdecision
  have hmem : c ∈ seedableCandidates j.state x.id := hcandidate
  unfold seedableCandidates at hmem
  rw [List.mem_insertionSort, List.mem_filter, Table.mem_canonicalOrder] at hmem
  have hstored : j.state.checkpoints.find c.id = some c :=
    (Table.find_eq_some_iff _ _ _).mpr ⟨hmem.1, rfl⟩
  have hfields := hmem.2
  simp only [decide_eq_true_eq] at hfields
  rw [show (planOf j x).checkpoint = c.id from hid]
  exact ⟨c, hstored, hfields.1⟩

theorem atPlannedCheckpoint_succeeds {m : Image} {y next : ExecutionRecord}
    (h : m.Succeeds y next) {plan : RecoveryPlan}
    (hplan : plan.decision = .resumeFromCheckpoint →
      Resolves m.checkpoints CheckpointRecord.execution plan.checkpoint y.id) :
    m.Succeeds y (atPlannedCheckpoint next plan) := by
  unfold atPlannedCheckpoint
  split
  next hdecision => exact h.checkpointedAt _ (hplan hdecision.1)
  next => exact h

theorem recoveredExecution_succeeds {m : Image} {y next : ExecutionRecord}
    (h : m.Succeeds y next) (st : DurableState) (x : ExecutionRecord) (plan : RecoveryPlan)
    (hrecovery : Resolves m.recoveries RecoveryRecord.execution
      (deriveRecoveryId x.id (x.recoveryGeneration + 1)) y.id) :
    m.Succeeds y (recoveredExecution st x next plan) := by
  unfold recoveredExecution
  generalize deriveRecoveryId x.id (x.recoveryGeneration + 1) = r at *
  exact (h.recoveredBy (x.recoveryGeneration + 1) hrecovery).of_eq rfl (Nat.le_refl _)

/-- The tail of every recovery. -/
theorem recoveryRecords_lawful {m : Image} {st : DurableState} {y next : ExecutionRecord}
    {plan : RecoveryPlan} {inFlight : Option ActionRecord} {store : StoreId}
    (hx : m.executions y.id = some y) (hn : Named ds (.execution m.store y.createdSequence) y.id)
    (hid : y.id = x.id) (hs : ∀ f, ({ m with recoveries := f } : Image).Succeeds y next)
    (hplan : plan.decision = .resumeFromCheckpoint →
      Resolves m.checkpoints CheckpointRecord.execution plan.checkpoint x.id)
    (hmint : Minted ds store (recoveryRecords st x next plan inFlight)) :
    m.LawfulAll ds (recoveryRecords st x next plan inFlight) := by
  have hderived : ∀ r : RecoveryRecord, r = recoveryRecordOf st x (atPlannedCheckpoint next plan)
      plan inFlight → Named ds (.recovery r.execution r.generation) r.id := by
    rintro r rfl
    exact ⟨hmint (.recovery _) List.mem_cons_self _ (List.mem_singleton.mpr rfl), rfl⟩
  have hrecord : ∀ r : RecoveryRecord, r = recoveryRecordOf st x (atPlannedCheckpoint next plan)
      plan inFlight → r.id = deriveRecoveryId x.id (x.recoveryGeneration + 1) ∧
        r.execution = x.id := by
    rintro r rfl
    exact ⟨rfl, rfl⟩
  unfold recoveryRecords
  generalize recoveryRecordOf st x (atPlannedCheckpoint next plan) plan inFlight = r at *
  obtain ⟨hrid, hrowner⟩ := hrecord r rfl
  refine ⟨hderived r rfl, trivial, Image.lawfulAll_succeeds hx hn ?_⟩
  refine recoveredExecution_succeeds (atPlannedCheckpoint_succeeds (hs _) ?_) st x plan ?_
  · intro hdecision
    rw [hid]
    exact hplan hdecision
  · rw [← hrid]
    exact Resolves.self (KeyedMap.insert_self _ _) (hrowner.trans hid.symm)

/-- The recorded ambiguity is the open one of the execution, or a new one about `a`. -/
theorem recordedAmbiguity_cases (st : DurableState) (x : ExecutionRecord) (plan : RecoveryPlan)
    (a : ActionRecord) :
    (∃ amb, currentAmbiguity st x = some amb ∧ ambiguityIsOpen amb.state = true ∧
      recordedAmbiguity st x plan a = amb) ∨
    ∃ g r, 0 < g ∧ (∀ amb, currentAmbiguity st x = some amb → ambiguityIsOpen amb.state = false ∧
        g = amb.generation + 1) ∧ (currentAmbiguity st x = none → g = 1) ∧
      recordedAmbiguity st x plan a =
        { id := deriveAmbiguityId x.id a.id g
          generation := g
          execution := x.id
          executionGeneration := x.generation
          action := a.id
          actionGeneration := a.generation
          effectClass := a.effectClass
          actionOrdinal := a.sequence
          state := if plan.decision = .ambiguousCompletion then .open
            else .manualResolutionRequired
          reason := r } := by
  unfold recordedAmbiguity
  dsimp only
  split
  next existing hsome =>
    split
    next hopen => exact .inl ⟨existing, hsome, hopen, rfl⟩
    next hclosed =>
      refine .inr ⟨existing.generation + 1, _, Nat.succ_pos _, ?_, ?_, rfl⟩
      · intro amb hamb
        obtain rfl := Option.some.inj (hsome.symm.trans hamb)
        exact ⟨by simpa using hclosed, rfl⟩
      · intro hnone
        rw [hsome] at hnone
        cases hnone
  next hnone =>
    refine .inr ⟨1, _, Nat.one_pos, ?_, fun _ => rfl, rfl⟩
    intro amb hamb
    rw [hnone] at hamb
    cases hamb

/-- The recorded ambiguity is keyed by its derivation and is about a stored action of `x`. -/
theorem recordedAmbiguity_lawful {plan : RecoveryPlan} {a : ActionRecord}
    (hc : j.state.image.Coherent ds) (hx : j.state.image.executions x.id = some x)
    (ha : j.state.image.actions a.key = some a) (howner : a.execution = x.id)
    (hmint : ∀ d ∈ (JournalEntry.ambiguity (recordedAmbiguity j.state x plan a)).mints
      j.state.store, d ∈ ds) :
    (JournalEntry.ambiguity (recordedAmbiguity j.state x plan a)).Derived ds j.state.store ∧
      j.state.image.Lawful (.ambiguity (recordedAmbiguity j.state x plan a)) ∧
      (recordedAmbiguity j.state x plan a).execution = x.id := by
  rcases recordedAmbiguity_cases j.state x plan a with
    ⟨amb, hsome, -, hrecorded⟩ | ⟨g, r, -, -, -, hrecorded⟩
  · rw [hrecorded]
    obtain ⟨hvalid, hstored⟩ := currentAmbiguity_some hsome
    obtain ⟨amb', hamb', hexecution⟩ := hc.ambiguous _ x hx hvalid
    obtain rfl := Option.some.inj (hstored.symm.trans hamb')
    exact ⟨hc.known.ambiguities _ amb hstored, hc.ambiguityAction _ amb hstored, hexecution⟩
  · rw [hrecorded] at hmint ⊢
    exact ⟨⟨hmint _ (List.mem_singleton.mpr rfl), rfl⟩, ⟨a, ha, howner⟩, rfl⟩

/-- Pointing at a stored ambiguity of the execution is a legal change. -/
theorem blockedBy_succeeds {m : Image} {st : DurableState} {amb : AmbiguityRecord}
    (hamb : m.ambiguities amb.id = some amb) (howner : amb.execution = x.id) (a : ActionRecord) :
    m.Succeeds x (blockedBy st x amb a) := by
  have hpoints : m.Succeeds x { x with
      ambiguity := amb.id, ambiguityGeneration := amb.generation } :=
    { Image.Succeeds.refl m x with
      rebound := .same rfl rfl rfl
      continuation := .inl rfl
      checkpoint := .inl rfl
      recovery := .inl rfl
      ambiguity := .inr ⟨amb, hamb, howner⟩ }
  unfold blockedBy
  dsimp only
  split
  · exact hpoints.of_eq rfl (Nat.le_refl _)
  · exact hpoints

theorem recoverAmbiguous_lawful {a : ActionRecord} (hc : j.state.image.Coherent ds)
    (hx : j.state.image.executions x.id = some x) (ha : j.state.image.actions a.key = some a)
    (howner : a.execution = x.id) {plan : RecoveryPlan}
    (hplan : plan.decision = .resumeFromCheckpoint →
      Resolves j.state.image.checkpoints CheckpointRecord.execution plan.checkpoint x.id)
    (hmint : Minted ds j.state.store (ambiguityRecords j.state x plan a)) :
    j.state.image.LawfulAll ds (ambiguityRecords j.state x plan a) := by
  obtain ⟨hderived, hlawful, hexecution⟩ := recordedAmbiguity_lawful hc hx ha howner hmint.cons.1
  refine ⟨hderived, hlawful, hc.known.actions _ a ha, hc.owned _ a ha, ?_⟩
  refine recoveryRecords_lawful (m := (j.state.image.install (.ambiguity
    (recordedAmbiguity j.state x plan a))).install (.action { a with status := .ambiguous }))
    hx (hc.known.executions _ x hx) rfl (fun f => ?_) hplan hmint.cons.2.cons.2
  exact blockedBy_succeeds (KeyedMap.insert_self _ _) hexecution a

/-- The tail of a recovery that committed. -/
theorem Promotes.recovered_lawful {a : ActionRecord} {g : CommitGroupRecord} (hg : Promotes x a g)
    {m : Image} (hknown : m.Known ds) {st : DurableState} {plan : RecoveryPlan}
    (hx : m.executions x.id = some x) (ha : m.actions a.key = some a) (howner : a.execution = x.id)
    (hplan : plan.decision = .resumeFromCheckpoint →
      Resolves m.checkpoints CheckpointRecord.execution plan.checkpoint x.id)
    (hmint : Minted ds m.store
      (.commitGroup g :: recoveryRecords st x g.execution plan (some a))) :
    m.LawfulAll ds (.commitGroup g :: recoveryRecords st x g.execution plan (some a)) := by
  obtain ⟨hderived, hlawful⟩ := commitGroup_lawful hknown hg hx ha howner hmint.cons.1
  have hid : g.execution.id = x.id := by
    obtain ⟨epoch, hexecution⟩ := hg.execution
    rw [hexecution]
    rfl
  exact ⟨hderived, hlawful, recoveryRecords_lawful (m := m.install (.commitGroup g))
    (KeyedMap.insert_self _ _) hderived.2.2.2 hid (fun f => .refl _ _) hplan hmint.cons.2⟩

/-- Closing a stored ambiguity may follow whatever was done to its action. -/
theorem Image.Coherent.resolved_lawful {m : Image} (hc : m.Coherent ds) {amb : AmbiguityRecord}
    (hamb : m.ambiguities amb.id = some amb) (request : ResolveAmbiguityRequest) :
    (JournalEntry.ambiguity (resolvedAmbiguity amb request)).Derived ds m.store ∧
      m.Lawful (.ambiguity (resolvedAmbiguity amb request)) :=
  ⟨hc.known.ambiguities _ amb hamb, hc.ambiguityAction _ amb hamb⟩

theorem unblocked_succeeds (m : Image) (x : ExecutionRecord) : m.Succeeds x x.unblocked :=
  (Image.Succeeds.refl m x).of_eq rfl (Nat.le_refl _)

theorem Promotes.resolved_lawful {a : ActionRecord} {g : CommitGroupRecord} (hg : Promotes x a g)
    {m : Image} (hfree : CollisionFree ds) (hc : m.Coherent ds) {amb : AmbiguityRecord}
    (request : ResolveAmbiguityRequest)
    (hx : m.executions x.id = some x) (ha : m.actions a.key = some a) (howner : a.execution = x.id)
    (hamb : m.ambiguities amb.id = some amb)
    (hmint : Minted ds m.store [.commitGroup g, .ambiguity (resolvedAmbiguity amb request),
      .execution g.execution.unblocked]) :
    m.LawfulAll ds [.commitGroup g, .ambiguity (resolvedAmbiguity amb request),
      .execution g.execution.unblocked] := by
  obtain ⟨hderived, hlawful⟩ := commitGroup_lawful hc.known hg hx ha howner hmint.cons.1
  have hafter := hc.install hfree hderived hlawful
  have hkept : (m.install (.commitGroup g)).ambiguities amb.id = some amb := hamb
  obtain ⟨hderived', hlawful'⟩ := hafter.resolved_lawful hkept request
  refine ⟨hderived, hlawful, hderived', hlawful', ?_⟩
  exact Image.lawfulAll_succeeds (KeyedMap.insert_self _ _) hderived.2.2.2 (unblocked_succeeds _ _)

theorem resolveAction_lawful {a : ActionRecord} (hfree : CollisionFree ds)
    (hc : j.state.image.Coherent ds) {amb : AmbiguityRecord} (request : ResolveAmbiguityRequest)
    (status : ActionStatus) (hx : j.state.image.executions x.id = some x)
    (ha : j.state.image.actions a.key = some a)
    (hamb : j.state.image.ambiguities amb.id = some amb) :
    j.state.image.LawfulAll ds [.action { a with status := status, receipt := request.evidence },
      .ambiguity (resolvedAmbiguity amb request), .execution x.unblocked] := by
  have hderived : (JournalEntry.action { a with status := status, receipt := request.evidence }).Derived
      ds j.state.image.store := hc.known.actions _ a ha
  have hafter := hc.install hfree hderived (hc.owned _ a ha)
  have hkept : (j.state.image.install (.action { a with
      status := status, receipt := request.evidence })).ambiguities amb.id = some amb := hamb
  obtain ⟨hderived', hlawful'⟩ := hafter.resolved_lawful hkept request
  exact ⟨hderived, hc.owned _ a ha, hderived', hlawful',
    Image.lawfulAll_succeeds hx (hc.known.executions _ x hx) (unblocked_succeeds _ _)⟩

theorem resolveManual_lawful (hc : j.state.image.Coherent ds) {amb : AmbiguityRecord}
    (request : ResolveAmbiguityRequest) (hx : j.state.image.executions x.id = some x)
    (hamb : j.state.image.ambiguities amb.id = some amb) :
    j.state.image.LawfulAll ds [.ambiguity (resolvedAmbiguity amb request),
      .execution { x with blocked := true }] := by
  obtain ⟨hderived, hlawful⟩ := hc.resolved_lawful hamb request
  exact ⟨hderived, hlawful, Image.lawfulAll_succeeds hx (hc.known.executions _ x hx)
    ((Image.Succeeds.refl _ x).of_eq rfl (Nat.le_refl _))⟩

/-! ## Transitions, generations and lost workers -/

theorem transitioned_succeeds (m : Image) (st : DurableState) (x : ExecutionRecord)
    (target : Lifecycle) : m.Succeeds x (transitioned st x target) := by
  have hmoved := (Image.Succeeds.refl m x).withLifecycle target
  unfold transitioned
  dsimp only
  split
  · exact hmoved.withoutLease.withEpoch _
  · exact hmoved.withEpoch _

theorem transition_lawful (hc : j.state.image.Coherent ds)
    (hx : j.state.image.executions x.id = some x) (target : Lifecycle) :
    j.state.image.LawfulAll ds ((if dropsAuthority target = true then
      leaseAs (heldActiveLease j.state x) .revoked else []) ++
        [.execution (transitioned j.state x target)]) := by
  have hn := hc.known.executions _ x hx
  split
  · refine Image.lawfulAll_append (Image.lawfulAll_leaseAs hc ?_ _) ?_
    · intro l hl
      exact stored_lease (image_find_activeLease hl).2.1
    · obtain ⟨f, hf⟩ := Image.installAll_leaseAs j.state.image (heldActiveLease j.state x) .revoked
      rw [hf]
      exact Image.lawfulAll_succeeds hx hn (transitioned_succeeds _ _ _ _)
  · exact Image.lawfulAll_succeeds hx hn (transitioned_succeeds _ _ _ _)

theorem nextGeneration_succeeds (m : Image) (x : ExecutionRecord) :
    m.Succeeds x (nextGeneration x) := by
  have hreset : ∀ y, m.Succeeds x y → ∀ g l, m.Succeeds x { y with
      generation := g, continuation := .nil, continuationGeneration := 0, lifecycle := l } :=
    fun y h g l =>
      { h with rebound := h.rebound.of_eq rfl rfl rfl rfl, continuation := .inr Resolves.nil }
  unfold nextGeneration
  dsimp only
  split
  · exact hreset _ (Image.Succeeds.refl m x).withoutLease _ _
  · exact hreset _ (Image.Succeeds.refl m x) _ _

theorem advance_lawful (hfree : CollisionFree ds) (hc : j.state.image.Coherent ds)
    (hx : j.state.image.executions x.id = some x) :
    j.state.image.LawfulAll ds ((staleContinuations j.state x.id).map .continuation ++
      leaseAs (heldActiveLease j.state x) .revoked ++
        [.execution { nextGeneration x with epoch := j.state.epoch }]) := by
  obtain ⟨f, hf⟩ := Image.installAll_continuations j.state.image (staleContinuations j.state x.id)
  have hcontinuations : j.state.image.LawfulAll ds
      ((staleContinuations j.state x.id).map .continuation) :=
    Image.lawfulAll_continuations _ _ (named_of_filtered hc rfl)
  refine Image.lawfulAll_append (Image.lawfulAll_append hcontinuations ?_) ?_
  · have hafter := hc.installAll hfree hcontinuations List.prefix_rfl
    rw [hf] at hafter ⊢
    refine Image.lawfulAll_leaseAs hafter ?_ _
    intro l hl
    exact stored_lease (m := j.state.image) (image_find_activeLease hl).2.1
  · rw [Image.installAll_append, hf]
    obtain ⟨g, hg⟩ := Image.installAll_leaseAs { j.state.image with continuations := f }
      (heldActiveLease j.state x) .revoked
    rw [hg]
    exact Image.lawfulAll_succeeds hx (hc.known.executions _ x hx)
      ((nextGeneration_succeeds _ _).withEpoch _)

theorem lose_lawful (hc : j.state.image.Coherent ds)
    (hx : j.state.image.executions x.id = some x) :
    j.state.image.LawfulAll ds (fenceRecords j.state x) := by
  have hn := hc.known.executions _ x hx
  have hfenced : ∀ m : Image, m.Succeeds x (if isLegalTransition x.lifecycle .fenced = true then
      { x with lifecycle := .fenced } else x) := by
    intro m
    split
    · exact (Image.Succeeds.refl m x).withLifecycle _
    · exact .refl m x
  unfold fenceRecords
  split
  · trivial
  · dsimp only
    split
    · refine Image.lawfulAll_append (Image.lawfulAll_leaseAs hc ?_ _) ?_
      · intro l hl
        exact stored_lease hl
      · obtain ⟨f, hf⟩ := Image.installAll_leaseAs j.state.image (j.state.leases.find x.lease) .revoked
        rw [hf]
        exact Image.lawfulAll_succeeds hx hn (hfenced _).withoutLease
    · exact Image.lawfulAll_succeeds hx hn (hfenced _)

/-- Every transaction is lawful, record by record. -/
theorem Transaction.lawful (hfree : CollisionFree ds) (hc : j.state.image.Coherent ds)
    (hi : Indexed j) {i : Intent} {es : List JournalEntry} (ht : Transaction j i es)
    (hmint : Minted ds j.state.store es) : j.state.image.LawfulAll ds es := by
  cases ht with
  | create policy hid => exact create_lawful hfree hc hid hmint
  | updatePolicy policy hx hgeneration => exact updatePolicy_lawful hfree hc policy hx
  | bind request hx hworker hboot hbindable hlive =>
    exact bind_lawful hfree hc request hx hworker hboot hmint
  | start token htoken hready => exact start_lawful hc (token_execution htoken) hmint
  | begin request htoken hrunning hblocked =>
    exact begin_lawful hc (token_execution htoken) request _ hmint
  | complete request htoken hrunning ha hfresh hdefect hcommit =>
    obtain ⟨hderived, hlawful⟩ := commitGroup_lawful hc.known
      (commitGroupOf_promotes _ _ _ _ _) (token_execution htoken) (stored_action ha)
      (completionDefect_none hdefect).1 hmint.cons.1
    exact ⟨hderived, hlawful, trivial⟩
  | @fail x l a request htoken ha howner hcommitted hambiguous =>
    exact ⟨hc.known.actions _ a ha, hc.owned _ a ha, trivial⟩
  | @report x l a request htoken ha hcommitted hambiguous habandoned =>
    exact ⟨hc.known.actions _ a ha, hc.owned _ a ha, trivial⟩
  | enterCheckpoint request htoken hlifecycle =>
    have hx := token_execution htoken
    exact enterCheckpointing_lawful hx (hc.known.executions _ _ hx)
  | @checkpoint x l depth request htoken hlifecycle hdepth =>
    refine checkpoint_lawful hfree hc (token_execution htoken)
      ⟨hmint (.checkpoint (registeredCheckpoint j.state x request depth)) ?_ _
        (List.mem_singleton.mpr rfl), rfl⟩ rfl hmint
    simp [checkpointRecords, demotionRecords, newCheckpointRecords]
  | enterResume request htoken hresumable hrecovery =>
    exact enterResume_lawful hc (token_execution htoken) _
  | resume request htoken hresumable hrecovery hvalid =>
    exact resume_lawful hfree hc (token_execution htoken) _ hmint
  | recoverPlain hx hlive hopens hreceipt =>
    exact recoveryRecords_lawful hx (hc.known.executions _ _ hx) rfl (fun f => .refl _ _)
      (planOf_checkpoint j _) hmint
  | recoverAmbiguous hx hlive hopens ha =>
    obtain ⟨hstored, howner⟩ := (planned_of_plannedAction ha).owned hc hi hx
    exact recoverAmbiguous_lawful hc hx hstored howner (planOf_checkpoint j _) hmint
  | recoverCommit request hx hlive hreceipt ha hcommit =>
    obtain ⟨hstored, howner⟩ := (planned_of_plannedAction ha).owned hc hi hx
    exact (commitGroupOf_promotes _ _ _ _ _).recovered_lawful hc.known hx hstored howner
      (planOf_checkpoint j _) hmint
  | resolveCommit request hx hamb howner hopen ha hresolution hcommit =>
    obtain ⟨a', ha', hsame⟩ := hc.ambiguityAction _ _ hamb
    obtain rfl := Option.some.inj (ha'.symm.trans ha)
    exact (commitGroupOf_promotes _ _ _ _ _).resolved_lawful hfree hc request hx (stored_action ha)
      (hsame.trans howner) (stored_ambiguity hamb) hmint
  | resolveAction request status hx hamb howner hopen ha hresolution =>
    exact resolveAction_lawful hfree hc request status hx (stored_action ha) (stored_ambiguity hamb)
  | resolveManual request hx hamb howner hopen ha hresolution =>
    exact resolveManual_lawful hc request hx (stored_ambiguity hamb)
  | transition target hx hlegal hambiguity => exact transition_lawful hc hx target
  | advance hx hlive => exact advance_lawful hfree hc hx
  | lose hx hlive => exact lose_lawful hc hx

/-! ## Restarts -/

theorem Image.lawfulAll_leases (m : Image) (ls : List LeaseRecord)
    (hn : ∀ l ∈ ls, Named ds (.lease l.execution l.worker l.boot l.generation) l.id)
    (hepoch : ∀ l ∈ ls, l.epoch ≤ m.epoch) : m.LawfulAll ds (ls.map .lease) := by
  induction ls generalizing m with
  | nil => trivial
  | cons l rest ih =>
    exact ⟨hn l List.mem_cons_self, hepoch l List.mem_cons_self,
      ih _ (fun l' hl' => hn l' (List.mem_cons_of_mem _ hl'))
        fun l' hl' => hepoch l' (List.mem_cons_of_mem _ hl')⟩

/-- Legal changes of distinct executions may follow one another. -/
theorem Image.lawfulAll_executions (m : Image) (f : ExecutionRecord → ExecutionRecord)
    (xs : List ExecutionRecord) (hnodup : (xs.map ExecutionRecord.id).Nodup)
    (hstored : ∀ x ∈ xs, m.executions x.id = some x)
    (hn : ∀ x ∈ xs, Named ds (.execution m.store x.createdSequence) x.id)
    (hs : ∀ (m' : Image), ∀ x ∈ xs, m'.Succeeds x (f x)) :
    m.LawfulAll ds ((xs.map f).map .execution) := by
  induction xs generalizing m with
  | nil => trivial
  | cons x rest ih =>
    rw [List.map_cons, List.nodup_cons] at hnodup
    have hhead := lawfulAll_succeeds (hstored x List.mem_cons_self) (hn x List.mem_cons_self)
      (hs m x List.mem_cons_self)
    refine ⟨hhead.1, hhead.2.1, ih _ hnodup.2 ?_ (fun y hy => hn y (List.mem_cons_of_mem _ hy))
      fun m' y hy => hs m' y (List.mem_cons_of_mem _ hy)⟩
    intro y hy
    have hne : y.id ≠ (f x).id := by
      rw [(hs m x List.mem_cons_self).id]
      intro hsame
      exact hnodup.1 (hsame ▸ List.mem_map_of_mem hy)
    exact (KeyedMap.insert_of_ne _ hne).trans (hstored y (List.mem_cons_of_mem _ hy))

theorem restarted_succeeds (m : Image) (st : DurableState) (epoch : Nat) (x : ExecutionRecord) :
    m.Succeeds x (restarted st epoch x) := by
  have hdropped : m.Succeeds x (withoutStaleLease st epoch x) := by
    unfold withoutStaleLease
    split
    · split
      · split
        · exact (Image.Succeeds.refl m x).withoutLease
        · exact .refl m x
      · exact (Image.Succeeds.refl m x).withoutLease
    · exact .refl m x
  unfold restarted
  dsimp only
  split
  · exact hdropped.withLifecycle _
  · exact hdropped

theorem revocationRecords_lawful (hc : j.state.image.Coherent ds) :
    j.state.image.LawfulAll ds (revocationRecords j) := by
  refine ⟨rfl, ⟨Nat.le_succ _, Nat.le_refl _⟩, Image.lawfulAll_leases _ _ ?_ ?_⟩
  all_goals
    intro l hl
    obtain ⟨l₀, hl₀, rfl⟩ := List.mem_map.mp hl
    have hmem := (List.mem_filter.mp hl₀).1
    have hstored : j.state.image.leases l₀.id = some l₀ := by
      have hfind := (Table.find_eq_some_iff _ _ _).mpr ⟨hmem, rfl⟩
      rw [Journaled.write_cons, Journaled.write_nil] at hfind
      exact hfind
  · exact hc.known.leases _ l₀ hstored
  · exact Nat.le_succ_of_le (hc.leaseEpoch _ l₀ hstored)

/-- Everything a restart writes is lawful. -/
theorem restartRecords_lawful (hfree : CollisionFree ds) (hc : j.state.image.Coherent ds) :
    j.state.image.LawfulAll ds (restartRecords j) := by
  have hrevoked := revocationRecords_lawful hc
  have hknown : (j.write (revocationRecords j)).state.image.Coherent ds := by
    rw [Journaled.image_write]
    exact hc.installAll hfree hrevoked List.prefix_rfl
  have hclassified : j.state.image.LawfulAll ds (reclassificationRecords j) := by
    refine Image.lawfulAll_append hrevoked ?_
    rw [← Journaled.image_write]
    have hmem : ∀ x, x ∈ (j.write (revocationRecords j)).state.executions.records →
        (j.write (revocationRecords j)).state.image.executions x.id = some x :=
      fun x hx => (Table.find_eq_some_iff _ _ _).mpr ⟨hx, rfl⟩
    refine Image.lawfulAll_executions _ _ _ ?_ ?_ ?_ fun m' x _ => restarted_succeeds m' _ _ x
    · exact Table.nodup _ |>.sublist (List.filter_sublist.map _)
    · intro x hx
      exact hmem x (List.mem_filter.mp hx).1
    · intro x hx
      exact hknown.known.executions _ x (hmem x (List.mem_filter.mp hx).1)
  have hknown' : (j.write (reclassificationRecords j)).state.image.Coherent ds := by
    rw [Journaled.image_write]
    exact hc.installAll hfree hclassified List.prefix_rfl
  exact Image.lawfulAll_append hclassified
    (Image.lawfulAll_continuations _ _ (named_of_filtered hknown' (by rw [Journaled.image_write])))

end Transactions

end ExecutionFabric
