import ExecutionFabric.Audit.CheckpointCurrency
import ExecutionFabric.Audit.Refusals
import ExecutionFabric.Audit.StaleBindings

/-!
# Executions that have finished

Completed, Cancelled and Retired are entered by three operations, and several others reach
the record of an execution without looking at its lifecycle: a policy update, a report on an
action, the resolution of an ambiguity, a restart. None of them brings a finished execution
back, and only the resolution of an ambiguity as applied or accepted still moves its progress.
-/
namespace ExecutionFabric

open Lib

/-- The execution without the fields that a resolution, a policy update, a retirement or a load can
still write. -/
def ExecutionRecord.fixedPart (x : ExecutionRecord) : ExecutionRecord :=
  { x.withoutLease with
    lifecycle := .retired
    progress := .nil
    progressGeneration := 0
    actionGeneration := 0
    actionFrontier := 0
    blockedAboveOrdinal := 0
    blocked := false
    policyGeneration := 0
    epoch := 0
    lastCommit := .nil
    committedActions := 0 }

/-- `y` is what may be stored once `x` has finished. -/
structure ExecutionRecord.Rests (x y : ExecutionRecord) : Prop where
  lifecycle : y.lifecycle = x.lifecycle ∨ y.lifecycle = .retired
  fixed : y.fixedPart = x.fixedPart
  lease : x.lease = .nil → y.lease = .nil

/-- The two versions have made the same progress. -/
structure ExecutionRecord.SameProgress (x y : ExecutionRecord) : Prop where
  progress : y.progress = x.progress
  progressGeneration : y.progressGeneration = x.progressGeneration
  lastCommit : y.lastCommit = x.lastCommit
  committedActions : y.committedActions = x.committedActions

section Versions

variable {x y z : ExecutionRecord}

theorem ExecutionRecord.Rests.refl (x : ExecutionRecord) : x.Rests x :=
  ⟨.inl rfl, rfl, fun h => h⟩

theorem ExecutionRecord.Rests.trans (h : x.Rests y) (h' : y.Rests z) : x.Rests z where
  lifecycle := by
    rcases h'.lifecycle with hsame | hretired
    · rw [hsame]
      exact h.lifecycle
    · exact .inr hretired
  fixed := h'.fixed.trans h.fixed
  lease := fun hlease => h'.lease (h.lease hlease)

theorem ExecutionRecord.Rests.terminal (h : x.Rests y) (hx : isTerminalState x.lifecycle = true) :
    isTerminalState y.lifecycle = true := by
  rcases h.lifecycle with hsame | hretired
  · rw [hsame]
    exact hx
  · rw [hretired]
    rfl

theorem ExecutionRecord.SameProgress.refl (x : ExecutionRecord) : x.SameProgress x :=
  ⟨rfl, rfl, rfl, rfl⟩

theorem ExecutionRecord.SameProgress.trans (h : x.SameProgress y) (h' : y.SameProgress z) :
    x.SameProgress z :=
  ⟨h'.progress.trans h.progress, h'.progressGeneration.trans h.progressGeneration,
    h'.lastCommit.trans h.lastCommit, h'.committedActions.trans h.committedActions⟩

theorem not_active_of_terminal {l : Lifecycle} (h : isTerminalState l = true) :
    isActiveState l = false ∧ l ≠ .fenced := by
  cases l <;> simp_all [isTerminalState, isActiveState]

/-- From a finished state the table leads to Retired only. -/
theorem retired_of_terminal {l target : Lifecycle} (h : isTerminalState l = true)
    (hlegal : isLegalTransition l target = true) : target = .retired := by
  cases l <;> simp_all [isTerminalState, isLegalTransition, legalTargets]

theorem rests_underPolicy (hx : isTerminalState x.lifecycle = true) (generation : Nat) :
    x.Rests (underPolicy x generation) ∧ x.SameProgress (underPolicy x generation) := by
  unfold underPolicy
  dsimp only
  rw [(not_active_of_terminal hx).1]
  split
  · exact ⟨⟨.inl rfl, rfl, fun _ => rfl⟩, ⟨rfl, rfl, rfl, rfl⟩⟩
  · exact ⟨⟨.inl rfl, rfl, fun h => h⟩, ⟨rfl, rfl, rfl, rfl⟩⟩

theorem rests_retired (st : DurableState) (x : ExecutionRecord) :
    x.Rests (transitioned st x .retired) ∧ x.SameProgress (transitioned st x .retired) := by
  unfold transitioned
  dsimp only
  split
  · exact ⟨⟨.inr rfl, rfl, fun _ => rfl⟩, ⟨rfl, rfl, rfl, rfl⟩⟩
  · exact ⟨⟨.inr rfl, rfl, fun h => h⟩, ⟨rfl, rfl, rfl, rfl⟩⟩

theorem rests_parkedExecution (hx : isTerminalState x.lifecycle = true) :
    x.Rests (parkedExecution x) ∧ x.SameProgress (parkedExecution x) := by
  obtain ⟨hactive, hfenced⟩ := not_active_of_terminal hx
  unfold parkedExecution
  rw [if_neg (by simp [hactive, hfenced])]
  exact ⟨⟨.inl rfl, rfl, fun _ => rfl⟩, ⟨rfl, rfl, rfl, rfl⟩⟩

theorem rests_promotes {a : ActionRecord} {g : CommitGroupRecord} (hg : Promotes x a g) :
    x.Rests g.execution.unblocked := by
  obtain ⟨epoch, hexecution⟩ := hg.execution
  rw [hexecution]
  exact ⟨.inl rfl, rfl, fun h => h⟩

/-- What a transaction leaves of a finished execution. Every operation under a token needs an
execution that runs or waits. -/
theorem Succession.rests {j : Journaled} {i : Intent} {vs : List JournalEntry}
    (hs : Succession j i x y vs) (hx : isTerminalState x.lifecycle = true) :
    x.Rests y ∧ ((∀ a r, i = .resolve x.id a r → ¬ (r = .resolvedApplied ∨ r = .accepted)) →
      x.SameProgress y) := by
  cases hs with
  | updatePolicy generation hgeneration =>
    obtain ⟨hrests, hprogress⟩ := rests_underPolicy hx generation
    exact ⟨hrests, fun _ => hprogress⟩
  | bind request hbindable hlive =>
    cases hl : x.lifecycle <;> simp_all [isTerminalState, isBindable]
  | start token htoken hready =>
    rw [hready] at hx
    cases hx
  | begin request htoken hrunning hblocked =>
    rw [hrunning] at hx
    cases hx
  | complete request htoken hrunning ha hdefect =>
    rw [hrunning] at hx
    cases hx
  | fail request htoken ha hambiguous => exact ⟨.refl x, fun _ => .refl x⟩
  | report request htoken ha hambiguous => exact ⟨.refl x, fun _ => .refl x⟩
  | enterCheckpoint token htoken hlifecycle =>
    rcases hlifecycle with hat | hat <;> (rw [hat] at hx; cases hx)
  | checkpoint request htoken hlifecycle =>
    rcases hlifecycle with hat | hat <;> (rw [hat] at hx; cases hx)
  | enterResume request htoken hresumable hrecovery =>
    cases hl : x.lifecycle <;> simp_all [isTerminalState, isResumable]
  | resume request htoken hresumable hrecovery hvalid =>
    cases hl : x.lifecycle <;> simp_all [isTerminalState, isResumable]
  | recoverPlain hlive hopens hreceipt =>
    rw [hx] at hlive
    cases hlive
  | recoverAmbiguous hlive hopens ha =>
    rw [hx] at hlive
    cases hlive
  | recoverCommit request hlive hreceipt ha =>
    rw [hx] at hlive
    cases hlive
  | @resolveCommit _ amb a request hamb howner hopen ha hresolution =>
    exact ⟨rests_promotes (commitGroupOf_promotes j.state x a request.request request.evidence),
      fun hnone => absurd hresolution (hnone _ _ rfl)⟩
  | resolveAction request status hamb howner hopen ha hresolution =>
    exact ⟨⟨.inl rfl, rfl, fun h => h⟩, fun _ => ⟨rfl, rfl, rfl, rfl⟩⟩
  | resolveManual request hamb howner hopen ha hresolution =>
    exact ⟨⟨.inl rfl, rfl, fun h => h⟩, fun _ => ⟨rfl, rfl, rfl, rfl⟩⟩
  | transition target hlegal =>
    obtain rfl := retired_of_terminal hx hlegal
    obtain ⟨hrests, hprogress⟩ := rests_retired j.state x
    exact ⟨hrests, fun _ => hprogress⟩
  | advance hlive =>
    rw [hx] at hlive
    cases hlive
  | lose hlive =>
    rw [hx] at hlive
    cases hlive

/-- A finished execution that no token is valid for writes no effect unless an ambiguity of it is
resolved. -/
theorem Succession.idle {j : Journaled} {i : Intent} {vs : List JournalEntry}
    (hs : Succession j i x y vs) (hx : isTerminalState x.lifecycle = true)
    (hrefused : ∀ t l, validateToken j.state t ≠ .ok (x, l))
    (hresolve : ∀ a r, i ≠ .resolve x.id a r) : vs = [] := by
  cases hs with
  | begin request htoken hrunning hblocked => exact absurd htoken (hrefused _ _)
  | complete request htoken hrunning ha hdefect => exact absurd htoken (hrefused _ _)
  | fail request htoken ha hambiguous => exact absurd htoken (hrefused _ _)
  | report request htoken ha hambiguous => exact absurd htoken (hrefused _ _)
  | recoverAmbiguous hlive hopens ha =>
    rw [hx] at hlive
    cases hlive
  | recoverCommit request hlive hreceipt ha =>
    rw [hx] at hlive
    cases hlive
  | resolveCommit request hamb howner hopen ha hresolution => exact absurd rfl (hresolve _ _)
  | resolveAction request status hamb howner hopen ha hresolution =>
    exact absurd rfl (hresolve _ _)
  | resolveManual request hamb howner hopen ha hresolution => exact absurd rfl (hresolve _ _)
  | _ => rfl

/-- The intent of a transaction is about its execution. -/
theorem Succession.subject {j : Journaled} {i : Intent} {vs : List JournalEntry}
    (hs : Succession j i x y vs) : i.subject = some x.id := by
  cases hs <;> rfl

end Versions

/-! ## Runs -/

/-- The actions, progress records, commits and ambiguities of `e` are the same in both images. -/
structure Image.EffectsKept (e : ExecutionId) (m m' : Image) : Prop where
  actions : m'.actionsOf e = m.actionsOf e
  progress : m'.progressOf e = m.progressOf e
  commits : m'.commitsOf e = m.commitsOf e
  ambiguities : m'.ambiguitiesOf e = m.ambiguitiesOf e

/-- The intent resolves an ambiguity of `e`, or reports on an action: a report names its action
freely. -/
def Intent.Disturbs (e : ExecutionId) : Intent → Prop
  | .resolve e' _ _ => e' = e
  | .report _ _ _ => True
  | _ => False

/-- The call is accepted. -/
def Call.Accepted (c : Call) (s : Runtime) : Prop := c.status s = .ok ()

/-- One of the events is a call that meets `P` and is accepted where it is made. -/
def AcceptedAmong (P : Call → Prop) : List Event → Runtime → Prop
  | [], _ => False
  | e :: rest, s => (∃ c, e = .call c ∧ P c ∧ c.Accepted s) ∨ AcceptedAmong P rest (e.perform s)

/-- The version stored of the finished execution `x` is one it may rest in, with the progress it
had unless `moves`, and with the effects it had in `m₀` unless `disturbed`. -/
structure Image.Finished (x : ExecutionRecord) (m₀ : Image) (moves disturbed : Prop) (m : Image) :
    Prop where
  stored : ∃ y, m.executions x.id = some y ∧ x.Rests y ∧ (¬ moves → x.SameProgress y)
  effects : ¬ disturbed → m₀.EffectsKept x.id m

section Onward

variable {P : Image → Prop} {admits : Runtime → Call → Prop} {before events : List Event}
  {s₀ s : Runtime}

/-- An invariant that holds in some state of a run holds from there on. -/
theorem Invariance.onward (h : Invariance s.minted P (fun _ j => P j.state.image)
      fun s c => s.store.directory ≠ none ∧ admits s c) (hfree : CollisionFree s.minted)
    (hbefore : Runs keepsJournal {} before s₀) (hnonempty : s₀.state ≠ {})
    (hP : P s₀.state.image) (hrun : Runs (keepsJournalAnd admits) s₀ events s) :
    Kept (preserving P (fun _ j => P j.state.image)
      fun s c => s.store.directory ≠ none ∧ admits s c) s.minted s := by
  have hhoused : Housed s₀ := (hbefore.housed housed_start).1
  have hds : s₀.minted ⊆ s.minted := hhoused.minted_subset (hrun.housed hhoused).2
  have hkept₀ := (ordinary_upheld s.minted).keeps (fun _ _ _ => trivial) hfree hbefore.anyEvent
    kept_start hds
  obtain ⟨d, hd, hagrees⟩ := hkept₀.agrees hnonempty
  have hstart : Kept (preserving P (fun _ j => P j.state.image)
      fun s c => s.store.directory ≠ none ∧ admits s c) s.minted s₀ := by
    refine hkept₀.mono (fun _ _ => trivial) ?_ (fun _ => hP) (fun _ => hP)
    intro d' hd' _
    obtain rfl := Option.some.inj (hd'.symm.trans hd)
    exact h.agrees hagrees.symm hP
  have hstored := hrun.withStore hhoused (hd ▸ Option.some_ne_none d)
  exact h.keeps hfree hstored hstart (List.Subset.refl _)

end Onward

section Runs

variable {ds : List Derivation} {j : Journaled} {x : ExecutionRecord} {m₀ : Image}
  {moves disturbed : Prop}

theorem Image.EffectsKept.of_tables {e : ExecutionId} {m m' : Image} (h : m₀.EffectsKept e m)
    (hs : m.SameEffects m') : m₀.EffectsKept e m' := by
  refine ⟨?_, ?_, ?_, ?_⟩
  · rw [← h.actions]
    unfold actionsOf
    rw [hs.actions]
  · rw [← h.progress]
    unfold progressOf
    rw [hs.progress]
  · rw [← h.commits]
    unfold commitsOf
    rw [hs.commits]
  · rw [← h.ambiguities]
    unfold ambiguitiesOf
    rw [hs.ambiguities]

theorem Image.Finished.agrees {m m' : Image} (h : Image.Finished x m₀ moves disturbed m)
    (ha : m.Agrees m') : Image.Finished x m₀ moves disturbed m' where
  stored := by
    obtain ⟨y, hy, hrests, hprogress⟩ := h.stored
    obtain ⟨z, frontier, generation, hz, rfl⟩ := ha.symm.execution hy
    refine ⟨z, hz, ⟨hrests.lifecycle, hrests.fixed, hrests.lease⟩, fun hmoves => ?_⟩
    obtain ⟨hp, hg, hc, hn⟩ := hprogress hmoves
    exact ⟨hp, hg, hc, hn⟩
  effects := fun hquiet =>
    (h.effects hquiet).of_tables ⟨ha.actions, ha.progress, ha.commits, ha.ambiguities⟩

theorem Image.Finished.reopened (hx : isTerminalState x.lifecycle = true) {m : Image}
    (h : Image.Finished x m₀ moves disturbed m) :
    Image.Finished x m₀ moves disturbed m.reopened where
  stored := by
    obtain ⟨y, hy, hrests, hprogress⟩ := h.stored
    obtain ⟨hparked, hsame⟩ := rests_parkedExecution (hrests.terminal hx)
    refine ⟨parkedExecution y, ?_, hrests.trans hparked,
      fun hmoves => (hprogress hmoves).trans hsame⟩
    show (m.executions x.id).map parkedExecution = _
    rw [hy]
    rfl
  effects := fun hquiet => (h.effects hquiet).of_tables ⟨rfl, rfl, rfl, rfl⟩

/-- A token that validates names a lease its execution holds. -/
theorem leased_of_valid {st : DurableState} {token : LeaseToken} {l : LeaseRecord}
    (hc : st.image.Coherent ds) (hfree : CollisionFree ds)
    (h : validateToken st token = .ok (x, l)) : x.lease ≠ .nil := by
  have ha := validateToken_authorizes h
  have hstored : st.image.leases token.lease = some l := ha.stored
  rw [ha.lease, ← st.image.leases.keyed _ _ hstored]
  exact (hc.known.leases _ _ hstored).valid hfree

/-- What a transaction leaves of the execution `x`. -/
theorem Transaction.finished_stored {i : Intent} {es : List JournalEntry} (hfree : CollisionFree ds)
    (hw : Working ds j) (ht : Transaction j i es) (hmint : Minted ds j.state.store es)
    (hx : isTerminalState x.lifecycle = true)
    (hmoves : ¬ moves → ∀ a r, i = .resolve x.id a r → ¬ (r = .resolvedApplied ∨ r = .accepted))
    (h : Image.Finished x m₀ moves disturbed j.state.image) :
    ∃ y, (j.write es).state.image.executions x.id = some y ∧ x.Rests y ∧
      (¬ moves → x.SameProgress y) := by
  obtain ⟨z, hz, hrests, hprogress⟩ := h.stored
  obtain ⟨y, hy⟩ := ht.keepsExecution hfree hw hmint ⟨z, hz⟩
  refine ⟨y, hy, ?_⟩
  rcases ht.origin hfree hw hmint hy with ⟨z', hz', hversion⟩ | ⟨hnone, -⟩
  · obtain rfl : z = z' := Option.some.inj (hz.symm.trans hz')
    rcases hversion with rfl | ⟨vs, hsuccession⟩
    · exact ⟨hrests, hprogress⟩
    · have hid : z.id = x.id := j.state.image.executions.keyed _ _ hz
      obtain ⟨hnext, hsame⟩ := hsuccession.rests (hrests.terminal hx)
      rw [hid] at hsame
      exact ⟨hrests.trans hnext, fun h => (hprogress h).trans (hsame (hmoves h))⟩
  · rw [hz] at hnone
    cases hnone

/-- What a transaction leaves of the effects of `x`: its own transactions write none, and those of
other executions leave them alone. -/
theorem Transaction.finished_effects {i : Intent} {es : List JournalEntry}
    (hfree : CollisionFree ds) (hw : Working ds j) (ht : Transaction j i es)
    (hmint : Minted ds j.state.store es) (hx : isTerminalState x.lifecycle = true)
    (hlease : x.lease = .nil) (hquiet : ¬ i.Disturbs x.id)
    (h : Image.Finished x m₀ moves disturbed j.state.image)
    (hkept : m₀.EffectsKept x.id j.state.image) :
    m₀.EffectsKept x.id (j.write es).state.image := by
  obtain ⟨z, hz, hrests, -⟩ := h.stored
  have hreport : ∀ e key applied, i ≠ .report e key applied := by
    rintro e key applied rfl
    exact hquiet trivial
  by_cases hsubject : i.subject = some x.id
  · cases ht.outline with
    | created hi policy hes =>
      subst hi
      cases hsubject
    | @succeeded x' y vs hx' hsuccession hexecutions heffects =>
      obtain hid : x'.id = x.id := Option.some.inj (hsuccession.subject.symm.trans hsubject)
      have hstored : j.state.image.executions x'.id = some x' := hx'
      rw [hid] at hstored
      obtain rfl : z = x' := Option.some.inj (hz.symm.trans hstored)
      have hidle : vs = [] := by
        refine hsuccession.idle (hrests.terminal hx) (fun t l hvalid => ?_) ?_
        · exact leased_of_valid hw.coherent hfree hvalid (hrests.lease hlease)
        · rintro a r rfl
          exact hquiet hid
      rw [hidle] at heffects
      exact hkept.of_tables heffects
  · have huntouched := ht.untouched hfree hw hmint hreport hsubject ⟨z, hz⟩
    exact ⟨huntouched.actions.trans hkept.actions, huntouched.progress.trans hkept.progress,
      huntouched.commits.trans hkept.commits, huntouched.ambiguities.trans hkept.ambiguities⟩

theorem Transaction.finished {i : Intent} {es : List JournalEntry} (hfree : CollisionFree ds)
    (hw : Working ds j) (ht : Transaction j i es) (hmint : Minted ds j.state.store es)
    (hx : isTerminalState x.lifecycle = true) (hlease : x.lease = .nil)
    (hmoves : ¬ moves → ∀ a r, i = .resolve x.id a r → ¬ (r = .resolvedApplied ∨ r = .accepted))
    (hdisturbed : ¬ disturbed → ¬ i.Disturbs x.id)
    (h : Image.Finished x m₀ moves disturbed j.state.image) :
    Image.Finished x m₀ moves disturbed (j.write es).state.image where
  stored := ht.finished_stored hfree hw hmint hx hmoves h
  effects := fun hquiet => ht.finished_effects hfree hw hmint hx hlease (hdisturbed hquiet) h
    (h.effects hquiet)

theorem Intent.Disturbs.writes {e : ExecutionId} {i : Intent} (h : i.Disturbs e) : i.Writes := by
  cases i with
  | resolve e' a r => exact .inr (.inl ⟨_, _, _, rfl⟩)
  | report e' k applied => exact .inr (.inr ⟨_, _, _, rfl⟩)
  | _ => cases h

/-- What wrote was accepted: a refused recovery, resolution or report writes nothing. -/
theorem Transaction.accepted {s : Runtime} {c : Call} {i : Intent} {es : List JournalEntry}
    (ht : Transaction s.toJournaled i es) (hi : c.intent = some i) (hwrites : i.Writes)
    (hj : (c.perform s).toJournaled = s.toJournaled.write es) : c.Accepted s := by
  cases hstatus : c.status s with
  | ok u => exact hstatus
  | error e =>
    refine absurd (Call.spares ?_ ?_ ⟨e, hstatus⟩).2 (ht.moves_on hwrites hj)
    · rintro config entropy rfl
      cases hi
    · intro hstrands
      cases c with
      | registerCheckpoint request =>
        rcases hwrites with ⟨_, rfl⟩ | ⟨_, _, _, rfl⟩ | ⟨_, _, _, rfl⟩ <;> cases hi
      | resume request =>
        rcases hwrites with ⟨_, rfl⟩ | ⟨_, _, _, rfl⟩ | ⟨_, _, _, rfl⟩ <;> cases hi
      | _ => cases hstrands

theorem finished_invariance (hfree : CollisionFree ds) (hx : isTerminalState x.lifecycle = true)
    (hlease : x.lease = .nil) :
    Invariance ds (Image.Finished x m₀ moves disturbed)
      (fun _ j => Image.Finished x m₀ moves disturbed j.state.image)
      fun s c => s.store.directory ≠ none ∧
        (¬ moves → ∀ a, c.Settles x.id a → ¬ c.Accepted s) ∧
        (¬ disturbed → ∀ i, c.intent = some i → i.Disturbs x.id → ¬ c.Accepted s) where
  vacant := fun hallow hnone _ => absurd hnone hallow.1
  agrees := fun ha h => h.agrees ha
  transaction := by
    rintro s c i es ⟨-, hallow, hquiet⟩ hi hj hw h ht hmint
    refine ht.finished hfree hw hmint hx hlease (fun hmoves a r hresolve hcommits => ?_)
      (fun hdisturbed hdisturbs => ?_) h
    · refine hallow hmoves a (Call.settles_of_intent (hresolve ▸ hi) hcommits) ?_
      exact ht.accepted hi (.inr (.inl ⟨_, _, _, hresolve⟩)) hj
    · exact hquiet hdisturbed i hi hdisturbs (ht.accepted hi hdisturbs.writes hj)
  lose := fun hw h ht hmint =>
    ht.finished hfree hw hmint hx hlease (by rintro - _ _ ⟨⟩) (fun _ hdisturbs => hdisturbs) h
  restart := fun _ _ h _ _ himage => himage ▸ h.reopened hx
  skip := fun h => h
  recover := fun hw h ht hmint =>
    ht.finished hfree hw hmint hx hlease (by rintro - _ _ ⟨⟩) (fun _ hdisturbs => hdisturbs) h
  reopened := fun _ h => h

theorem AcceptedAmong.listed {P : Call → Prop} {events : List Event} {s : Runtime}
    (h : AcceptedAmong P events s) : ∃ c, .call c ∈ events ∧ P c := by
  induction events generalizing s with
  | nil => cases h
  | cons e rest ih =>
    rcases h with ⟨c, rfl, hP, -⟩ | h
    · exact ⟨c, List.mem_cons_self, hP⟩
    · obtain ⟨c, hc, hP⟩ := ih h
      exact ⟨c, List.mem_cons_of_mem _ hc, hP⟩

/-- A call of the run that is accepted is one of its accepted calls. -/
theorem Runs.listed {s s' : Runtime} {events : List Event} (hrun : Runs keepsJournal s events s') :
    Runs (keepsJournalAnd fun t c => ∀ P : Call → Prop, P c → c.Accepted t →
      AcceptedAmong P events s) s events s' := by
  induction hrun with
  | nil s => exact .nil s
  | cons hallow _ ih =>
    refine .cons ⟨hallow, fun c hc P hP haccepted => .inl ⟨c, hc, hP, haccepted⟩⟩ ?_
    refine (ih.mono (I := fun _ => True) trivial fun s e _ h => ⟨⟨h.1, fun c hc => ?_⟩, trivial⟩).1
    exact fun P hP haccepted => .inr (h.2 c hc P hP haccepted)

end Runs

/-- The blocked execution is cancelled while its ambiguity is open. -/
def cancelledCalls : List Call :=
  blockedCalls ++ [.cancel { epoch := 1 } .nil (deriveExecutionId ⟨1⟩ 1)]

def cancelledRuntime : Runtime := performAll (cancelledCalls.map .call) {}

/-- After a restart the ambiguity is accepted and the execution retired. -/
def retiringCalls : List Call :=
  restartCalls ++ [acceptOf 2 (deriveExecutionId ⟨1⟩ 1) 1 .accepted,
    .retire { epoch := 2 } .nil (deriveExecutionId ⟨1⟩ 1)]

end ExecutionFabric
