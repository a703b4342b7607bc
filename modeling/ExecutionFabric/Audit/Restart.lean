import ExecutionFabric.Audit.Prefixes

/-!
# Restarts

What the restart proper does to an image, in one equation: the epoch advances, every
Active lease is revoked, every execution held by a lease loses its worker, interrupted
executions require recovery, and every Valid continuation goes stale. The recoveries that follow
write no lease and no continuation and grant nothing, so the state an open leaves is
quiescent.
-/
namespace ExecutionFabric

open Lib

/-! ## The restart proper -/

def revokedLease (l : LeaseRecord) : LeaseRecord :=
  if l.state = .active then { l with state := .revoked } else l

def parkedExecution (x : ExecutionRecord) : ExecutionRecord :=
  if isActiveState x.lifecycle = true ∨ x.lifecycle = .fenced then
    { x.withoutLease with lifecycle := .recoveryRequired }
  else x.withoutLease

def expiredContinuation (c : ContinuationRecord) : ContinuationRecord :=
  if c.state = .valid then { c with state := .stale } else c

theorem id_revokedLease (l : LeaseRecord) : (revokedLease l).id = l.id := by
  unfold revokedLease
  split <;> rfl

theorem id_parkedExecution (x : ExecutionRecord) : (parkedExecution x).id = x.id := by
  unfold parkedExecution
  split <;> rfl

theorem id_expiredContinuation (c : ContinuationRecord) : (expiredContinuation c).id = c.id := by
  unfold expiredContinuation
  split <;> rfl

/-- The image a restart leaves before it recovers pending executions. -/
def Image.reopened (m : Image) : Image :=
  { m with
    epoch := m.epoch + 1
    schema := persistenceSchemaVersion
    leases := m.leases.revise revokedLease id_revokedLease
    executions := m.executions.revise parkedExecution id_parkedExecution
    continuations := m.continuations.revise expiredContinuation id_expiredContinuation }

namespace Image

theorem installAll_map_lease (m : Image) (ls : List LeaseRecord) :
    m.installAll (ls.map .lease) = { m with leases := m.leases.insertAll ls } := by
  induction ls generalizing m with
  | nil => rfl
  | cons l rest ih => exact ih (m.install (.lease l))

theorem installAll_map_execution (m : Image) (xs : List ExecutionRecord) :
    m.installAll (xs.map .execution) = { m with executions := m.executions.insertAll xs } := by
  induction xs generalizing m with
  | nil => rfl
  | cons x rest ih => exact ih (m.install (.execution x))

theorem installAll_map_continuation (m : Image) (cs : List ContinuationRecord) :
    m.installAll (cs.map .continuation) =
      { m with continuations := m.continuations.insertAll cs } := by
  induction cs generalizing m with
  | nil => rfl
  | cons c rest ih => exact ih (m.install (.continuation c))

end Image

section

variable {ds : List Derivation} {j : Journaled}

/-- The restart records after the metadata, over the state the metadata leaves. -/
theorem revokedLeases_eq (st : DurableState) (epoch : Nat)
    (hepoch : ∀ l ∈ st.leases.records, l.epoch ≠ epoch) :
    st.leases.toMap.insertAll (revokedLeases st epoch) =
      st.leases.toMap.revise revokedLease id_revokedLease := by
  have hsame : revokedLeases st epoch = (st.leases.records.filter fun l =>
      l.state = .active ∧ l.epoch ≠ epoch).map revokedLease := by
    refine List.map_congr_left fun l hl => ?_
    have hactive : l.state = .active := by
      have := (List.mem_filter.mp hl).2
      simp only [decide_eq_true_eq] at this
      exact this.1
    rw [revokedLease, if_pos hactive]
  rw [hsame]
  refine Table.insertAll_filter _ _ _ _ ?_
  intro l hl hp
  have hinactive : l.state ≠ .active := by
    intro hactive
    simp [hactive, hepoch l hl] at hp
  rw [revokedLease, if_neg hinactive]

theorem expiredContinuations_eq (st : DurableState) (epoch : Nat)
    (hepoch : ∀ c ∈ st.continuations.records, c.epoch ≠ epoch) :
    st.continuations.toMap.insertAll (expiredContinuations st epoch) =
      st.continuations.toMap.revise expiredContinuation id_expiredContinuation := by
  have hsame : expiredContinuations st epoch = (st.continuations.records.filter fun c =>
      c.epoch ≠ epoch ∧ c.state = .valid).map expiredContinuation := by
    refine List.map_congr_left fun c hc => ?_
    have hvalid : c.state = .valid := by
      have := (List.mem_filter.mp hc).2
      simp only [decide_eq_true_eq] at this
      exact this.2
    rw [expiredContinuation, if_pos hvalid]
  rw [hsame]
  refine Table.insertAll_filter _ _ _ _ ?_
  intro c hc hp
  have hinvalid : c.state ≠ .valid := by
    intro hvalid
    simp [hvalid, hepoch c hc] at hp
  rw [expiredContinuation, if_neg hinvalid]

/-- Whoever holds the execution holds it by a lease that has an id. -/
def ExecutionRecord.HeldByLease (x : ExecutionRecord) : Prop :=
  x.lease = .nil → x.worker = .nil ∧ x.boot = .nil

theorem ExecutionRecord.Bound.heldByLease {x : ExecutionRecord} (h : x.Bound) : x.HeldByLease := by
  intro hnil
  rcases h with ⟨-, hworker, hboot⟩ | ⟨hlease, -⟩
  · exact ⟨hworker, hboot⟩
  · exact absurd hnil hlease

/-- Without authoritative leases, an execution held by its lease loses its worker. -/
theorem withoutStaleLease_eq {st : DurableState} (epoch : Nat) {x : ExecutionRecord}
    (hheld : x.HeldByLease) (hstale : ∀ l, st.leases.find x.lease = some l → l.state ≠ .active) :
    withoutStaleLease st epoch x = x.withoutLease := by
  unfold withoutStaleLease
  split
  next =>
    split
    next l hl => rw [if_pos (.inl (hstale l hl))]
    next => rfl
  next hnone =>
    have hnil : x.lease = .nil := by
      by_contra hne
      exact hnone ((Id.valid_iff _).mpr hne)
    obtain ⟨hworker, hboot⟩ := hheld hnil
    cases x
    simp only at hnil hworker hboot
    subst hnil hworker hboot
    rfl

theorem restarted_eq {st : DurableState} {epoch : Nat} {x : ExecutionRecord}
    (hheld : x.HeldByLease) (hstale : ∀ l, st.leases.find x.lease = some l → l.state ≠ .active) :
    restarted st epoch x = parkedExecution x := by
  unfold restarted parkedExecution
  rw [withoutStaleLease_eq epoch hheld hstale]

theorem id_restarted (st : DurableState) (epoch : Nat) (x : ExecutionRecord) :
    (restarted st epoch x).id = x.id := by
  have hid : (withoutStaleLease st epoch x).id = x.id := by
    unfold withoutStaleLease
    repeat' split
    all_goals rfl
  unfold restarted
  dsimp only
  split
  · exact hid
  · exact hid

/-- An execution that is not written is as a restart would write it. -/
theorem restartedExecutions_revise (st : DurableState) (epoch : Nat) :
    st.executions.toMap.insertAll (restartedExecutions st epoch) =
      st.executions.toMap.revise (restarted st epoch) (id_restarted st epoch) := by
  refine Table.insertAll_filter _ _ _ _ ?_
  intro x _ hp
  simp only [decide_eq_false_iff_not, not_or, not_and] at hp
  obtain ⟨hidle, hkept⟩ := hp
  unfold restarted
  dsimp only
  rw [if_neg (not_or.mpr hidle)]
  unfold withoutStaleLease at hkept ⊢
  split
  next hvalid =>
    rw [if_pos hvalid] at hkept
    have hheld := hkept hvalid
    split at hheld
    next l hl =>
      split at hheld
      next => exact absurd rfl hheld
      next hcurrent => exact if_neg hcurrent
    next => exact absurd rfl hheld
  next => rfl

theorem image_revocationRecords
    (hleases : ∀ k l, j.state.image.leases k = some l → l.epoch ≤ j.state.epoch) :
    (j.write (revocationRecords j)).state.image =
      { j.state.image with
        epoch := j.state.epoch + 1
        schema := persistenceSchemaVersion
        leases := j.state.image.leases.revise revokedLease id_revokedLease } := by
  have hmeta := j.image_write [.storeMeta (nextEpochMeta j.state)]
  unfold revocationRecords
  rw [Journaled.image_write, Image.installAll_append, ← Journaled.image_write,
    Image.installAll_map_lease]
  have hsame : (j.write [.storeMeta (nextEpochMeta j.state)]).state.leases.toMap =
      j.state.image.leases := congrArg Image.leases hmeta
  have hrevoked := revokedLeases_eq (j.write [.storeMeta (nextEpochMeta j.state)]).state
    (j.state.epoch + 1) ?_
  · show ({ (j.write [.storeMeta (nextEpochMeta j.state)]).state.image with leases :=
      (j.write [.storeMeta (nextEpochMeta j.state)]).state.leases.toMap.insertAll _ } : Image) = _
    rw [hrevoked, hsame, hmeta]
    rfl
  · intro l hl
    have hstored : j.state.image.leases l.id = some l := by
      rw [← hsame]
      exact (Table.find_eq_some_iff _ _ _).mpr ⟨hl, rfl⟩
    have hle := hleases _ l hstored
    omega

theorem revokedLease_not_active (l : LeaseRecord) : (revokedLease l).state ≠ .active := by
  unfold revokedLease
  split
  next => exact fun h => by cases h
  next h => exact h

theorem image_reclassificationRecords
    (hleases : ∀ k l, j.state.image.leases k = some l → l.epoch ≤ j.state.epoch) :
    (j.write (reclassificationRecords j)).state.image =
      { (j.write (revocationRecords j)).state.image with
        executions := j.state.image.executions.revise
          (restarted (j.write (revocationRecords j)).state (j.state.epoch + 1))
          (id_restarted _ _) } := by
  unfold reclassificationRecords
  rw [Journaled.image_write, Image.installAll_append, ← Journaled.image_write,
    Image.installAll_map_execution]
  have hexecutions : (j.write (revocationRecords j)).state.executions.toMap =
      j.state.image.executions := congrArg Image.executions (image_revocationRecords hleases)
  show ({ (j.write (revocationRecords j)).state.image with executions :=
    (j.write (revocationRecords j)).state.executions.toMap.insertAll _ } : Image) = _
  rw [restartedExecutions_revise, hexecutions]

/-- The restart proper in one equation, whatever the ids are. -/
theorem image_restarted
    (hleases : ∀ k l, j.state.image.leases k = some l → l.epoch ≤ j.state.epoch)
    (hcontinuations : ∀ k c, j.state.image.continuations k = some c → c.epoch ≤ j.state.epoch) :
    (j.write (restartRecords j)).state.image =
      { j.state.image with
        epoch := j.state.epoch + 1
        schema := persistenceSchemaVersion
        leases := j.state.image.leases.revise revokedLease id_revokedLease
        executions := j.state.image.executions.revise
          (restarted (j.write (revocationRecords j)).state (j.state.epoch + 1)) (id_restarted _ _)
        continuations := j.state.image.continuations.revise expiredContinuation
          id_expiredContinuation } := by
  have hrevoked := image_revocationRecords hleases
  have hparked := image_reclassificationRecords hleases
  unfold restartRecords
  rw [Journaled.image_write, Image.installAll_append, ← Journaled.image_write,
    Image.installAll_map_continuation]
  have hsame : (j.write (reclassificationRecords j)).state.continuations.toMap =
      j.state.image.continuations := by
    have hkept : (j.write (revocationRecords j)).state.image.continuations =
        j.state.image.continuations := by rw [hrevoked]
    exact (congrArg Image.continuations hparked).trans hkept
  have hexpired := expiredContinuations_eq (j.write (reclassificationRecords j)).state
    (j.state.epoch + 1) ?_
  · show ({ (j.write (reclassificationRecords j)).state.image with continuations :=
      (j.write (reclassificationRecords j)).state.continuations.toMap.insertAll _ } : Image) = _
    rw [hexpired, hsame, hparked, hrevoked]
  · intro c hc
    have hstored : j.state.image.continuations c.id = some c := by
      rw [← hsame]
      exact (Table.find_eq_some_iff _ _ _).mpr ⟨hc, rfl⟩
    have hle := hcontinuations _ c hstored
    omega

/-- After the revocation no stored lease is Active. -/
theorem revocationRecords_revokes
    (hleases : ∀ k l, j.state.image.leases k = some l → l.epoch ≤ j.state.epoch) (k : LeaseId)
    (l : LeaseRecord) (hl : (j.write (revocationRecords j)).state.leases.find k = some l) :
    l.state ≠ .active := by
  have hstored : (j.write (revocationRecords j)).state.image.leases k = some l := hl
  rw [image_revocationRecords hleases] at hstored
  obtain ⟨l₀, -, rfl⟩ := KeyedMap.revise_eq_some id_revokedLease hstored
  exact revokedLease_not_active l₀

/-- The restart proper when every execution is held by its lease. -/
theorem image_restartRecords_of_held
    (hleases : ∀ k l, j.state.image.leases k = some l → l.epoch ≤ j.state.epoch)
    (hcontinuations : ∀ k c, j.state.image.continuations k = some c → c.epoch ≤ j.state.epoch)
    (hheld : ∀ k x, j.state.image.executions k = some x → x.HeldByLease) :
    (j.write (restartRecords j)).state.image = j.state.image.reopened := by
  rw [image_restarted hleases hcontinuations,
    KeyedMap.revise_congr _ _ id_parkedExecution fun k x hx => restarted_eq (hheld k x hx)
      (revocationRecords_revokes hleases _)]
  rfl

theorem image_restartRecords (hc : j.state.image.Coherent ds) :
    (j.write (restartRecords j)).state.image = j.state.image.reopened :=
  image_restartRecords_of_held hc.leaseEpoch hc.continuationEpoch fun k x hx =>
    (hc.bound k x hx).heldByLease

end

/-! ## Quiescence -/

/-- An execution that holds no authority and is not at work. -/
structure ExecutionRecord.Idle (x : ExecutionRecord) : Prop where
  unbound : x.lease = .nil ∧ x.worker = .nil ∧ x.boot = .nil
  lifecycle : x.lifecycle = .recovering ∨
    (isActiveState x.lifecycle = false ∧ x.lifecycle ≠ .fenced)

/-- No authority is left: no Active lease, no execution with a worker or at work, no Valid
continuation. -/
structure Image.Quiescent (m : Image) : Prop where
  revoked : ∀ k l, m.leases k = some l → l.state ≠ .active
  idle : ∀ k x, m.executions k = some x → x.Idle
  expired : ∀ k c, m.continuations k = some c → c.state ≠ .valid

theorem parkedExecution_idle (x : ExecutionRecord) : (parkedExecution x).Idle := by
  unfold parkedExecution
  split
  next => exact ⟨⟨rfl, rfl, rfl⟩, .inr ⟨rfl, fun h => by cases h⟩⟩
  next h =>
    rw [not_or] at h
    exact ⟨⟨rfl, rfl, rfl⟩, .inr ⟨Bool.eq_false_iff.mpr h.1, h.2⟩⟩

/-- The restart proper leaves a quiescent image. -/
theorem Image.quiescent_reopened (m : Image) : m.reopened.Quiescent where
  revoked := by
    intro k l hl
    obtain ⟨l₀, -, rfl⟩ := KeyedMap.revise_eq_some id_revokedLease hl
    exact revokedLease_not_active l₀
  idle := by
    intro k x hx
    obtain ⟨x₀, -, rfl⟩ := KeyedMap.revise_eq_some id_parkedExecution hx
    exact parkedExecution_idle x₀
  expired := by
    intro k c hc
    obtain ⟨c₀, -, rfl⟩ := KeyedMap.revise_eq_some id_expiredContinuation hc
    unfold expiredContinuation
    split
    next => exact fun h => by cases h
    next h => exact h

/-- The record grants no authority and leaves the epoch alone. -/
def JournalEntry.Powerless : JournalEntry → Prop
  | .storeMeta _ => False
  | .execution x => x.Idle
  | .commitGroup g => g.execution.Idle
  | .lease l => l.state ≠ .active
  | .continuation c => c.state ≠ .valid
  | _ => True

theorem Image.Quiescent.install {m : Image} (h : m.Quiescent) {e : JournalEntry}
    (he : e.Powerless) : (m.install e).Quiescent ∧ (m.install e).epoch = m.epoch := by
  refine ⟨?_, ?_⟩
  swap
  · cases e with
    | storeMeta r => exact he.elim
    | _ => rfl
  cases e with
  | storeMeta r => exact he.elim
  | execution x => exact { h with idle := forall_insert h.idle he }
  | commitGroup g => exact { h with idle := forall_insert h.idle he }
  | lease l => exact { h with revoked := forall_insert h.revoked he }
  | continuation c => exact { h with expired := forall_insert h.expired he }
  | _ => exact { h with }

theorem Image.Quiescent.installAll {m : Image} (h : m.Quiescent) {es : List JournalEntry}
    (hes : ∀ e ∈ es, e.Powerless) :
    (m.installAll es).Quiescent ∧ (m.installAll es).epoch = m.epoch := by
  induction es generalizing m with
  | nil => exact ⟨h, rfl⟩
  | cons e rest ih =>
    obtain ⟨hquiet, hepoch⟩ := h.install (hes e List.mem_cons_self)
    obtain ⟨hrest, hsame⟩ := ih hquiet fun e' he' => hes e' (List.mem_cons_of_mem _ he')
    exact ⟨hrest, hsame.trans hepoch⟩

theorem ExecutionRecord.Idle.recovered {x next : ExecutionRecord} (h : next.Idle)
    (st : DurableState) (plan : RecoveryPlan) :
    (recoveredExecution st x (atPlannedCheckpoint next plan) plan).Idle := by
  have hplanned : (atPlannedCheckpoint next plan).Idle := by
    unfold atPlannedCheckpoint
    split
    next => exact ⟨h.unbound, h.lifecycle⟩
    next => exact h
  refine ⟨hplanned.unbound, ?_⟩
  unfold recoveredExecution
  dsimp only
  split
  next => exact .inl rfl
  next => exact hplanned.lifecycle

theorem ExecutionRecord.Idle.blockedBy {x : ExecutionRecord} (h : x.Idle) (st : DurableState)
    (amb : AmbiguityRecord) (a : ActionRecord) : (blockedBy st x amb a).Idle := by
  unfold ExecutionFabric.blockedBy
  dsimp only
  split <;> exact ⟨h.unbound, h.lifecycle⟩

theorem ExecutionRecord.Idle.promotedBy {x : ExecutionRecord} (h : x.Idle) (epoch : Nat)
    (progress : ProgressId) (commit : CommitId) : (x.promotedBy epoch progress commit).Idle :=
  ⟨h.unbound, h.lifecycle⟩

theorem recoveryRecords_powerless {x next : ExecutionRecord} (h : next.Idle) (st : DurableState)
    (plan : RecoveryPlan) (inFlight : Option ActionRecord) :
    ∀ e ∈ recoveryRecords st x next plan inFlight, e.Powerless := by
  intro e he
  simp only [recoveryRecords, List.mem_cons, List.not_mem_nil, or_false] at he
  rcases he with rfl | rfl
  · trivial
  · exact h.recovered st plan

/-- A recovery in a quiescent state grants nothing. -/
theorem recover_powerless {j : Journaled} {e : ExecutionId} {es : List JournalEntry}
    (h : j.state.image.Quiescent) (ht : Transaction j (.recover e) es) :
    ∀ e ∈ es, e.Powerless := by
  cases ht with
  | @recoverPlain x hx =>
    exact recoveryRecords_powerless (h.idle _ x hx) _ _ _
  | @recoverAmbiguous x a hx =>
    have hidle := h.idle _ x hx
    intro e he
    rcases List.mem_cons.mp he with rfl | he
    · trivial
    rcases List.mem_cons.mp he with rfl | he
    · trivial
    exact recoveryRecords_powerless (hidle.blockedBy _ _ _) _ _ _ e he
  | @recoverCommit x a request hx =>
    have hidle := h.idle _ x hx
    obtain ⟨epoch, hgroup⟩ := (commitGroupOf_promotes j.state x a request a.receipt).execution
    have hpromoted : (commitGroupOf j.state x a request a.receipt).execution.Idle := by
      rw [hgroup]
      exact hidle.promotedBy _ _ _
    intro e he
    rcases List.mem_cons.mp he with rfl | he
    · exact hpromoted
    exact recoveryRecords_powerless hpromoted _ _ _ e he

/-- The recoveries of an open keep the state quiescent and the epoch. -/
theorem Writes.quiescent {j j' : Journaled} (hw : Writes (fun i => ∃ e, i = .recover e) j j')
    (h : j.state.image.Quiescent) :
    j'.state.image.Quiescent ∧ j'.state.image.epoch = j.state.image.epoch := by
  induction hw with
  | done j => exact ⟨h, rfl⟩
  | @write j j' i es hi ht rest ih =>
    obtain ⟨e, rfl⟩ := hi
    obtain ⟨hquiet, hepoch⟩ := h.installAll (recover_powerless h ht)
    rw [← Journaled.image_write] at hquiet hepoch
    obtain ⟨hrest, hsame⟩ := ih hquiet
    exact ⟨hrest, hsame.trans hepoch⟩

/-- What a valid token agrees with. -/
structure Authorizes (st : DurableState) (t : LeaseToken) (x : ExecutionRecord) (l : LeaseRecord) :
    Prop where
  epoch : t.epoch = st.epoch
  execution : st.executions.find t.execution = some x
  generation : x.generation = t.executionGeneration
  incarnationGeneration : x.incarnationGeneration = t.incarnationGeneration
  incarnation : x.incarnation = t.incarnation
  lease : x.lease = t.lease
  leaseGeneration : x.leaseGeneration = t.leaseGeneration
  stored : st.leases.find t.lease = some l
  granted : l.generation = t.leaseGeneration
  active : l.state = .active
  current : l.epoch = st.epoch
  worker : l.worker = t.worker ∧ x.worker = t.worker
  boot : l.boot = t.boot ∧ x.boot = t.boot
  policyGeneration : x.policyGeneration = t.policyGeneration

theorem executionDefect_none {t : LeaseToken} {x : ExecutionRecord}
    (h : executionDefect t x = none) : x.generation = t.executionGeneration ∧
      x.incarnationGeneration = t.incarnationGeneration ∧ x.incarnation = t.incarnation ∧
      x.lease = t.lease ∧ x.leaseGeneration = t.leaseGeneration := by
  unfold executionDefect at h
  split at h
  next => cases h
  next hgeneration =>
    split at h
    next => cases h
    next hcount =>
      split at h
      next => cases h
      next hincarnation =>
        split at h
        next => cases h
        next hlease =>
          rw [not_or, not_not, not_not] at hlease
          exact ⟨not_not.mp hgeneration, not_not.mp hcount, not_not.mp hincarnation, hlease⟩

theorem leaseDefect_none {st : DurableState} {t : LeaseToken} {x : ExecutionRecord}
    {l : LeaseRecord} (h : leaseDefect st t x l = none) : l.generation = t.leaseGeneration ∧
      l.state = .active ∧ l.epoch = st.epoch ∧ (l.worker = t.worker ∧ l.boot = t.boot) ∧
      (x.worker = t.worker ∧ x.boot = t.boot) ∧ x.policyGeneration = t.policyGeneration := by
  unfold leaseDefect at h
  split at h
  next => cases h
  next hgeneration =>
    split at h
    next => cases h
    next hactive =>
      split at h
      next => cases h
      next hepoch =>
        split at h
        next => cases h
        next hlease =>
          split at h
          next => cases h
          next hexecution =>
            split at h
            next => cases h
            next hpolicy =>
              rw [not_or, not_not, not_not] at hlease hexecution
              exact ⟨not_not.mp hgeneration, not_not.mp hactive, not_not.mp hepoch, hlease,
                hexecution, not_not.mp hpolicy⟩

theorem validateToken_authorizes {st : DurableState} {t : LeaseToken} {x : ExecutionRecord}
    {l : LeaseRecord} (h : validateToken st t = .ok (x, l)) : Authorizes st t x l := by
  unfold validateToken at h
  split at h
  next => cases h
  next hepoch =>
    split at h
    next => cases h
    next y hy =>
      split at h
      next => cases h
      next hexecution =>
        split at h
        next => cases h
        next k hk =>
          split at h
          next => cases h
          next hlease =>
            cases h
            obtain ⟨hgeneration, hcount, hincarnation, hid, hlast⟩ := executionDefect_none hexecution
            obtain ⟨hgranted, hactive, hcurrent, hleased, hbound, hpolicy⟩ := leaseDefect_none hlease
            refine ⟨?_, hy, hgeneration, hcount, hincarnation, hid, hlast, hk, hgranted, hactive,
              hcurrent, ⟨hleased.1, hbound.1⟩, ⟨hleased.2, hbound.2⟩, hpolicy⟩
            unfold checkEpoch at hepoch
            split at hepoch
            next => cases hepoch
            next hsame => exact not_not.mp hsame

/-- No token is valid in a quiescent state. -/
theorem Image.Quiescent.refuses {st : DurableState} (h : st.image.Quiescent) (t : LeaseToken) :
    ∃ e, validateToken st t = .error e := by
  cases ht : validateToken st t with
  | error e => exact ⟨e, rfl⟩
  | ok found =>
    have hvalid := validateToken_authorizes ht
    exact absurd hvalid.active (h.revoked _ _ hvalid.stored)

end ExecutionFabric
