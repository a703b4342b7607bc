import ExecutionFabric.Audit.Dating
import ExecutionFabric.Audit.Leases

/-!
# Who holds a lease

An execution of an open runtime that has a lease id is neither finished nor fenced, and a
lease is stored under that id; derived ids may collide. After a restart no execution has
a lease id, and an operation either keeps the one an execution has, takes it away, or
stores the lease it grants.
-/
namespace ExecutionFabric

open Lib

/-- Whoever has a lease id may hold a lease, and there is one. -/
def Image.Leased (m : Image) : Prop :=
  ∀ k x, m.executions k = some x → x.lease ≠ .nil →
    isUnleased x.lifecycle = false ∧ ∃ l, m.leases x.lease = some l

theorem Image.Leased.of_nil {m : Image} (h : ∀ k x, m.executions k = some x → x.lease = .nil) :
    m.Leased :=
  fun k x hx hlease => absurd (h k x hx) hlease

section

variable {j : Journaled} {i : Intent} {es vs : List JournalEntry} {x y : ExecutionRecord}

/-- The lease of an execution after an operation on it that grants none: it has none, or the one it
had and a lifecycle that may have it. -/
def ExecutionRecord.KeepsLease (x y : ExecutionRecord) : Prop :=
  y.lease = .nil ∨
    (y.lease = x.lease ∧ (isUnleased x.lifecycle = false → isUnleased y.lifecycle = false))

theorem keepsLease_same (hlease : y.lease = x.lease) (hlifecycle : y.lifecycle = x.lifecycle) :
    x.KeepsLease y :=
  .inr ⟨hlease, fun h => hlifecycle ▸ h⟩

theorem ExecutionRecord.KeepsLease.unblocked (h : x.KeepsLease y) : x.KeepsLease y.unblocked := h

theorem ExecutionRecord.KeepsLease.continuedBy (h : x.KeepsLease y) (c : ContinuationRecord) :
    x.KeepsLease (y.continuedBy c) := h

theorem keepsLease_checkpointed (c : CheckpointRecord) :
    x.KeepsLease (checkpointedExecution x c) :=
  .inr ⟨rfl, fun _ => rfl⟩

theorem keepsLease_dispatched (a : ActionRecord) (replayed : Option ActionRecord) :
    x.KeepsLease (dispatched x a replayed) :=
  keepsLease_same rfl rfl

theorem keepsLease_recoveredFrom {next : ExecutionRecord} (hlease : next.lease = x.lease)
    (hlifecycle : next.lifecycle = x.lifecycle) : x.KeepsLease (recoveredFrom j x next) := by
  have hsame := holder_recoveredFrom j x next
  simp only [ExecutionRecord.holder, Prod.mk.injEq] at hsame
  refine .inr ⟨hsame.1.trans hlease, fun h => ?_⟩
  unfold recoveredFrom recoveredExecution atPlannedCheckpoint
  dsimp only
  split
  · rfl
  · split
    · exact hlifecycle ▸ h
    · exact hlifecycle ▸ h

/-- An execution without a lease that is given none. -/
theorem keepsLease_invalid (hinvalid : ¬ x.lease.valid = true) (hlease : y.lease = x.lease) :
    x.KeepsLease y := by
  refine .inl (hlease.trans ?_)
  by_contra hne
  exact hinvalid ((Id.valid_iff _).mpr hne)

/-- A commit group leaves the lease and the lifecycle alone. -/
theorem keepsLease_promoted {a : ActionRecord} {g : CommitGroupRecord} (h : Promotes x a g) :
    g.execution.lease = x.lease ∧ g.execution.lifecycle = x.lifecycle := by
  obtain ⟨epoch, hgroup⟩ := h.execution
  rw [hgroup]
  exact ⟨rfl, rfl⟩

theorem lease_blockedBy (st : DurableState) (x : ExecutionRecord) (amb : AmbiguityRecord)
    (a : ActionRecord) : (blockedBy st x amb a).lease = x.lease ∧
      (blockedBy st x amb a).lifecycle = x.lifecycle := by
  unfold blockedBy
  dsimp only
  split <;> exact ⟨rfl, rfl⟩

theorem isUnleased_of_transition {l target : Lifecycle} (hlegal : isLegalTransition l target = true)
    (hkeeps : ¬ dropsAuthority target = true) : isUnleased target = false := by
  revert hlegal hkeeps
  cases l <;> cases target <;> decide

/-- Every operation but a binding keeps the lease of an execution or takes it away. -/
theorem Succession.keepsLease (h : Succession j i x y vs) (hbind : ∀ e, i ≠ .bind e) :
    x.KeepsLease y := by
  cases h with
  | updatePolicy generation =>
    unfold underPolicy
    dsimp only
    split
    · split
      · exact .inl rfl
      · exact .inl rfl
    · exact keepsLease_same rfl rfl
  | bind => exact absurd rfl (hbind _)
  | start =>
    refine ExecutionRecord.KeepsLease.continuedBy ?_ _
    exact .inr ⟨rfl, fun _ => rfl⟩
  | begin => exact keepsLease_dispatched _ _
  | @complete x l a request =>
    obtain ⟨hlease, hlifecycle⟩ := keepsLease_promoted
      (commitGroupOf_promotes j.state x a request.request request.evidence)
    exact keepsLease_same hlease hlifecycle
  | fail => exact keepsLease_same rfl rfl
  | report => exact keepsLease_same rfl rfl
  | enterCheckpoint => exact .inr ⟨rfl, fun _ => rfl⟩
  | checkpoint => exact (keepsLease_checkpointed _).continuedBy _
  | enterResume => exact .inr ⟨rfl, fun _ => rfl⟩
  | resume =>
    refine ExecutionRecord.KeepsLease.continuedBy ?_ _
    exact .inr ⟨rfl, fun _ => rfl⟩
  | recoverPlain => exact keepsLease_recoveredFrom rfl rfl
  | recoverAmbiguous =>
    exact keepsLease_recoveredFrom (lease_blockedBy _ _ _ _).1 (lease_blockedBy _ _ _ _).2
  | @recoverCommit x a request =>
    obtain ⟨hlease, hlifecycle⟩ := keepsLease_promoted
      (commitGroupOf_promotes j.state x a request a.receipt)
    exact keepsLease_recoveredFrom hlease hlifecycle
  | @resolveCommit x amb a request =>
    obtain ⟨hlease, hlifecycle⟩ := keepsLease_promoted
      (commitGroupOf_promotes j.state x a request.request request.evidence)
    exact (keepsLease_same hlease hlifecycle).unblocked
  | resolveAction => exact keepsLease_same rfl rfl
  | resolveManual => exact keepsLease_same rfl rfl
  | transition target hlegal =>
    unfold transitioned
    dsimp only
    split
    · exact .inl rfl
    next hkept =>
      by_cases hdrops : dropsAuthority target = true
      · exact keepsLease_invalid (fun hvalid => hkept ⟨hdrops, hvalid⟩) rfl
      · exact .inr ⟨rfl, fun _ => isUnleased_of_transition hlegal hdrops⟩
  | advance =>
    unfold nextGeneration
    dsimp only
    split
    · exact .inl rfl
    next hinvalid => exact keepsLease_invalid hinvalid rfl
  | lose =>
    unfold fencedExecution
    dsimp only
    split
    · exact .inl rfl
    next hinvalid =>
      refine keepsLease_invalid hinvalid ?_
      split <;> rfl

/-- A binding stores the lease it grants. -/
theorem Transaction.leased_bind {e : ExecutionId} (h : j.state.image.Leased)
    (ht : Transaction j (.bind e) es) : (j.write es).state.image.Leased := by
  cases ht with
  | @bind x request hx hworker hboot hbindable hlive =>
    rw [Journaled.image_write]
    intro k y hy hlease
    rw [Image.executions_installAll] at hy
    rw [Image.leases_installAll]
    rcases KeyedMap.insertAll_eq_some hy with hmem | ⟨hold, -⟩
    · have hbound : y = boundExecution j.state x request := by
        simpa [JournalEntry.executions] using hmem
      have hgranted : grantedLease j.state x request ∈ leasesOf
          (leaseAs (heldActiveLease j.state x) .superseded ++
            [.lease (grantedLease j.state x request),
              .execution (boundExecution j.state x request)]) := by
        simp [JournalEntry.leases]
      obtain ⟨l, -, hl⟩ := KeyedMap.insertAll_mem j.state.image.leases hgranted
      rw [hbound]
      exact ⟨Bool.eq_false_iff.mpr (boundLifecycle_waits hbindable).1, l, hl⟩
    · obtain ⟨hlifecycle, l, hl⟩ := h k y hold hlease
      exact ⟨hlifecycle, KeyedMap.insertAll_stored hl _⟩

/-- Every operation keeps the state leased. -/
theorem Transaction.leased (h : j.state.image.Leased) (ht : Transaction j i es) :
    (j.write es).state.image.Leased := by
  by_cases hbind : ∃ e, i = .bind e
  · obtain ⟨e, rfl⟩ := hbind
    exact ht.leased_bind h
  have hgrows : ∀ {k l}, j.state.image.leases k = some l →
      ∃ l', (j.write es).state.image.leases k = some l' := by
    intro k l hl
    rw [Journaled.image_write, Image.leases_installAll]
    exact KeyedMap.insertAll_stored hl _
  have hinsert : ∀ {y : ExecutionRecord},
      (j.write es).state.image.executions = j.state.image.executions.insert y →
      (y.lease ≠ .nil → isUnleased y.lifecycle = false ∧
        ∃ l, j.state.image.leases y.lease = some l) → (j.write es).state.image.Leased := by
    intro y hexecutions hy k z hz hlease
    rw [hexecutions] at hz
    have hold : isUnleased z.lifecycle = false ∧ ∃ l, j.state.image.leases z.lease = some l := by
      rcases KeyedMap.insert_eq_some hz with ⟨-, rfl⟩ | ⟨-, hstored⟩
      · exact hy hlease
      · exact h k z hstored hlease
    obtain ⟨hlifecycle, l, hl⟩ := hold
    exact ⟨hlifecycle, hgrows hl⟩
  cases ht.outline with
  | created hi policy hes =>
    refine hinsert (y := createdExecution j.state) ?_ fun hlease => absurd rfl hlease
    rw [hes, Journaled.image_write]
    rfl
  | @succeeded x y vs hx hsuccession hexecutions =>
    refine hinsert hexecutions fun hlease => ?_
    rcases hsuccession.keepsLease (fun e hi => hbind ⟨e, hi⟩) with hnil | ⟨hsame, hlifecycle⟩
    · exact absurd hnil hlease
    · obtain ⟨hold, hl⟩ := h x.id x hx (hsame ▸ hlease)
      exact ⟨hlifecycle hold, hsame ▸ hl⟩

theorem Writes.leased {allowed : Intent → Prop} {j j' : Journaled} (hw : Writes allowed j j')
    (h : j.state.image.Leased) : j'.state.image.Leased := by
  induction hw with
  | done j => exact h
  | write hi ht rest ih => exact ih (ht.leased h)

end

/-! ## Restarts -/

/-- Once no stored lease is Active, a restart leaves no execution a lease id. -/
theorem lease_restarted {st : DurableState} {epoch : Nat} {x : ExecutionRecord}
    (hstale : ∀ l, st.leases.find x.lease = some l → l.state ≠ .active) :
    (restarted st epoch x).lease = .nil := by
  have hnone : (withoutStaleLease st epoch x).lease = .nil := by
    unfold withoutStaleLease
    split
    · split
      next l hl => rw [if_pos (.inl (hstale l hl))]; rfl
      next => rfl
    next hinvalid =>
      by_contra hne
      exact hinvalid ((Id.valid_iff _).mpr hne)
  unfold restarted
  dsimp only
  split
  · exact hnone
  · exact hnone

theorem Writes.lease_recovered {j j' : Journaled}
    (hw : Writes (fun i => ∃ e, i = .recover e) j j')
    (h : ∀ k x, j.state.image.executions k = some x → x.lease = .nil) :
    ∀ k x, j'.state.image.executions k = some x → x.lease = .nil := by
  induction hw with
  | done j => exact h
  | @write j j' i es hi ht rest ih =>
    obtain ⟨e, rfl⟩ := hi
    refine ih fun k y hy => ?_
    cases ht.outline with
    | created hi => cases hi
    | @succeeded x z vs hx hsuccession hexecutions =>
      rw [hexecutions] at hy
      rcases KeyedMap.insert_eq_some hy with ⟨-, rfl⟩ | ⟨-, hold⟩
      · have hsame := hsuccession.holder_recovered
        simp only [ExecutionRecord.holder, Prod.mk.injEq] at hsame
        exact hsame.1.trans (h x.id x hx)
      · exact h k y hold

/-- After the restart of a dated state and its recoveries, no execution has a lease id. -/
theorem restarted_lease {j j' : Journaled} (hdated : j.state.image.Dated)
    (hw : Writes (fun i => ∃ e, i = .recover e) (j.write (restartRecords j)) j') :
    ∀ k x, j'.state.image.executions k = some x → x.lease = .nil := by
  refine hw.lease_recovered fun k x hx => ?_
  rw [image_restarted hdated.leases hdated.continuations] at hx
  obtain ⟨x₀, -, rfl⟩ := KeyedMap.revise_eq_some (id_restarted _ _) hx
  exact lease_restarted fun l hl => revocationRecords_revokes hdated.leases _ l hl

/-! ## Runs -/

theorem leased_perform {s : Runtime} (hs : Secured s) (hp : Punctual s)
    (h : s.isOpen = true → s.state.image.Leased) (e : Event) (hopen : (e.perform s).isOpen = true) :
    (e.perform s).state.image.Leased := by
  cases e with
  | crash kept => cases hopen
  | call c =>
    obtain ⟨heffect, -⟩ := call_outcome c s hs.housed.orderly
    change (c.perform s).isOpen = true at hopen
    show (c.perform s).state.image.Leased
    generalize c.perform s = s' at *
    cases heffect with
    | quiet hj hsame =>
      rw [congrArg Journaled.state hj]
      exact h (hsame ▸ hopen)
    | wrote hi hrun hopen' ht hj =>
      rw [congrArg Journaled.state hj]
      exact ht.leased (h hrun)
    | lost session hc hrun hopen' hw => exact hw.leased (h hrun)
    | closed hc hrun hclosed hj =>
      rw [hclosed] at hopen
      cases hopen
    | snapshot truncate hc hrun hopen' hj =>
      rw [congrArg Journaled.state hj]
      exact h hrun
    | opens config entropy hc hclosed hopened hopens =>
      cases hopens with
      | refused e hresult hj hclosed' =>
        rw [hclosed'] at hopen
        cases hopen
      | unloadable d hresult hd hload hstore hclosed' =>
        rw [hclosed'] at hopen
        cases hopen
      | reopened d hresult hd hload hw hopen' =>
        obtain ⟨d', hclocked⟩ := (hs.finds hclosed hopened hresult hd).clocked
          (hp.found hopened hd)
        exact .of_nil (restarted_lease hclocked.memory hw.writes)

/-- In every open state, whatever the derived ids are. -/
theorem Runs.leased {allow : Runtime → Event → Prop} {s s' : Runtime} {events : List Event}
    (hrun : Runs allow s events s') (hs : Secured s) (hp : Punctual s)
    (h : s.isOpen = true → s.state.image.Leased) : s'.isOpen = true → s'.state.image.Leased := by
  induction hrun with
  | nil s => exact h
  | cons hallow rest ih => exact ih (hs.perform _) (hp.perform hs _) (leased_perform hs hp h _)

end ExecutionFabric
