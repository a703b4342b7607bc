import ExecutionFabric.Audit.RecoveryInversion

/-!
# Conservative recovery

What a classification that lets an execution continue on its own has established. The
cascade of `classifyRecovery` is read from the end: a plan that continues has passed
every earlier refusal, and the interrupted action, if there is one, is settled, has a
receipt, or may be driven again under the policy.
-/
namespace ExecutionFabric

/-- The interrupted action lets its execution continue without an operator. -/
inductive Continues (policy : Option ExecutionPolicy) (ambiguity : Option AmbiguityRecord)
    (a : ActionRecord) : Prop
  | receipt (hstatus : a.status = .effectApplied ∨ a.status = .completedUnacknowledged)
      (hpolicy : a.effectClass = .compensatable → ∀ p, policy = some p →
        p.ambiguityHandling ≠ .requireCompensation)
  | settled (hstatus : a.status = .committed ∨ a.status = .compensated ∨ a.status = .abandoned)
  | redrive (hpolicy : ∀ p, policy = some p → p.replayAllowance ≠ .forbidReplay)
      (hsafe : a.status = .effectNotApplied ∨
        (∃ amb, ambiguity = some amb ∧ amb.state = .resolvedNotApplied ∧ amb.action = a.id ∧
          amb.actionGeneration = a.generation) ∨
        autoReplayable a.effectClass = true)

/-- Nothing in the input speaks against continuing automatically. -/
structure Continuable (input : RecoveryInput) : Prop where
  execution : ∃ x, input.execution = some x ∧ isTerminalState x.lifecycle = false ∧
    (x.lifecycle = .failed → ∃ p, input.policy = some p ∧ p.allowRecoveryFromFailed = true)
  ambiguity : ∀ amb, input.ambiguity = some amb → ambiguityIsOpen amb.state = false
  bindings : input.bindingMismatch = false
  checkpoint : input.checkpointUnusable = false
  inFlight : ∀ a, input.inFlight = some a → Continues input.policy input.ambiguity a

/-- A plan promises no more than its input supports. -/
structure Conservative (input : RecoveryInput) (plan : RecoveryPlan) : Prop where
  continues : recoveryAllowsAutomaticContinue plan.decision = true → Continuable input
  receipt : plan.commitFromReceipt = true → ∃ a, input.inFlight = some a ∧
    (a.status = .effectApplied ∨ a.status = .completedUnacknowledged)
  checkpoint : plan.decision = .resumeFromCheckpoint → ∃ c ∈ input.candidates,
    plan.checkpoint = c.id ∧ plan.checkpointGeneration = c.generation

/-! ## Policies -/

theorem policyHas_some {policy : Option ExecutionPolicy} {p : ExecutionPolicy → Bool}
    (h : policyHas policy p = true) : ∃ q, policy = some q ∧ p q = true := by
  cases policy with
  | none => cases h
  | some q => exact ⟨q, rfl, h⟩

theorem replay_permitted {policy : Option ExecutionPolicy} (h : ¬ forbidsReplay policy = true) :
    ∀ p, policy = some p → p.replayAllowance ≠ .forbidReplay := by
  rintro p rfl hforbids
  exact h (decide_eq_true hforbids)

theorem compensation_waived {policy : Option ExecutionPolicy} {cls : SideEffectClass}
    (h : ¬ (cls = .compensatable ∧ demandsCompensation policy = true)) :
    cls = .compensatable → ∀ p, policy = some p → p.ambiguityHandling ≠ .requireCompensation := by
  rintro hcls p rfl hdemands
  exact h ⟨hcls, decide_eq_true hdemands⟩

theorem resolvedAsNotApplied_some {ambiguity : Option AmbiguityRecord} {a : ActionRecord}
    (h : resolvedAsNotApplied ambiguity a = true) : ∃ amb, ambiguity = some amb ∧
      amb.state = .resolvedNotApplied ∧ amb.action = a.id ∧ amb.actionGeneration = a.generation := by
  cases ambiguity with
  | none => cases h
  | some amb => exact ⟨amb, rfl, of_decide_eq_true h⟩

/-! ## The steps of the cascade -/

section Cascade

variable {input : RecoveryInput}

/-- A plan that neither continues nor commits promises nothing. -/
theorem conservative_of_halted {plan : RecoveryPlan}
    (hdecision : recoveryAllowsAutomaticContinue plan.decision = false)
    (hreceipt : plan.commitFromReceipt = false) : Conservative input plan where
  continues := fun h => by
    rw [hdecision] at h
    cases h
  receipt := fun h => by
    rw [hreceipt] at h
    cases h
  checkpoint := fun h => by
    rw [h] at hdecision
    cases hdecision

theorem classifyOpenAmbiguity_conservative {base : RecoveryPlan}
    (hbase : base.commitFromReceipt = false) (amb : AmbiguityRecord) (explanation : String) :
    Conservative input (classifyOpenAmbiguity base amb explanation) := by
  refine conservative_of_halted ?_ hbase
  unfold classifyOpenAmbiguity
  dsimp only
  split <;> rfl

variable {base : RecoveryPlan} {a : ActionRecord}

/-- A plan that continues past the interrupted action without committing it. -/
theorem conservative_continuing {plan : RecoveryPlan} (hopen : (∀ x, input.inFlight = some x →
      Continues input.policy input.ambiguity x) → Continuable input)
    (ha : input.inFlight = some a) (hdecision : plan.decision ≠ .resumeFromCheckpoint)
    (hreceipt : plan.commitFromReceipt = false)
    (h : Continues input.policy input.ambiguity a) : Conservative input plan where
  continues := fun _ => hopen fun a' ha' => by
    rw [← Option.some.inj (ha.symm.trans ha')]
    exact h
  receipt := fun hcommits => by
    rw [hreceipt] at hcommits
    cases hcommits
  checkpoint := fun hfrom => absurd hfrom hdecision

/-- A plan that commits the interrupted action from its receipt. -/
theorem conservative_receipt {plan : RecoveryPlan} (hopen : (∀ x, input.inFlight = some x →
      Continues input.policy input.ambiguity x) → Continuable input)
    (ha : input.inFlight = some a) (hdecision : plan.decision = .resumeFromCurrent)
    (hstatus : a.status = .effectApplied ∨ a.status = .completedUnacknowledged)
    (hpolicy : ¬ (a.effectClass = .compensatable ∧ demandsCompensation input.policy = true)) :
    Conservative input plan where
  continues := fun _ => hopen fun a' ha' => by
    rw [← Option.some.inj (ha.symm.trans ha')]
    exact .receipt hstatus (compensation_waived hpolicy)
  receipt := fun _ => ⟨a, ha, hstatus⟩
  checkpoint := fun hfrom => by
    rw [hdecision] at hfrom
    cases hfrom

/-- An action without a receipt continues only where it may be driven again. -/
theorem classifyInterrupted_conservative (hopen : (∀ x, input.inFlight = some x →
      Continues input.policy input.ambiguity x) → Continuable input)
    (ha : input.inFlight = some a) (hbase : base.commitFromReceipt = false)
    (h : isInterrupted a.status = true) :
    Conservative input (classifyInFlight base input.policy input.ambiguity a) := by
  have hhalted : ∀ {d : RecoveryDecision} (e : String), recoveryAllowsAutomaticContinue d = false →
      Conservative input
        (({ base with action := a.id, actionGeneration := a.generation } : RecoveryPlan).withDecision
          d e) := fun e hd => conservative_of_halted hd hbase
  unfold classifyInFlight
  dsimp only
  split
  case h_7 | h_8 | h_9 | h_10 =>
    split
    next hresolved =>
      split
      · exact hhalted _ rfl
      next hpermitted =>
        exact conservative_continuing hopen ha RecoveryDecision.noConfusion hbase
          (.redrive (replay_permitted hpermitted)
            (.inr (.inl (resolvedAsNotApplied_some hresolved))))
    next =>
      split
      · exact hhalted _ rfl
      next hpermitted =>
        split
        next hauto =>
          exact conservative_continuing hopen ha RecoveryDecision.noConfusion hbase
            (.redrive (replay_permitted hpermitted) (.inr (.inr hauto)))
        next =>
          split
          · exact hhalted _ rfl
          · refine hhalted _ ?_
            split <;> rfl
  all_goals
    next hstatus =>
      rw [hstatus] at h
      cases h

/-- Step 6 of the cascade. -/
theorem classifyInFlight_conservative (hopen : (∀ x, input.inFlight = some x →
      Continues input.policy input.ambiguity x) → Continuable input)
    (ha : input.inFlight = some a) (hbase : base.commitFromReceipt = false) :
    Conservative input (classifyInFlight base input.policy input.ambiguity a) := by
  cases hstatus : a.status with
  | effectApplied | completedUnacknowledged =>
    unfold classifyInFlight
    rw [hstatus]
    dsimp only
    split
    · exact conservative_of_halted rfl hbase
    next hpolicy => exact conservative_receipt hopen ha rfl (by simp [hstatus]) hpolicy
  | effectNotApplied =>
    unfold classifyInFlight
    rw [hstatus]
    dsimp only
    split
    · exact conservative_of_halted rfl hbase
    next hpermitted =>
      exact conservative_continuing hopen ha RecoveryDecision.noConfusion hbase
        (.redrive (replay_permitted hpermitted) (.inl hstatus))
  | committed | compensated | abandoned =>
    unfold classifyInFlight
    rw [hstatus]
    exact conservative_continuing hopen ha RecoveryDecision.noConfusion hbase
      (.settled (by simp [hstatus]))
  | prepared | inFlight | failed | ambiguous =>
    refine classifyInterrupted_conservative hopen ha hbase ?_
    rw [hstatus]
    rfl

/-- Step 7 of the cascade. -/
theorem classifyAtRest_conservative (hinput : Continuable input)
    (hbase : base.commitFromReceipt = false) (x : ExecutionRecord) :
    Conservative input (classifyAtRest base input x) := by
  have hreceipt : (classifyAtRest base input x).commitFromReceipt = false :=
    (classifyAtRest_keeps base input x).2.trans hbase
  refine ⟨fun _ => hinput, fun h => ?_, ?_⟩
  · rw [hreceipt] at h
    cases h
  unfold classifyAtRest
  dsimp only
  split
  · exact fun h => by cases h
  next front rest _ _ hcandidates =>
    intro _
    refine ⟨chosenCandidate input.policy x front (front :: rest), ?_, rfl, rfl⟩
    rw [hcandidates]
    exact chosenCandidate_mem _ _ List.mem_cons_self
  · split <;> exact fun h => by cases h

end Cascade

/-- Every classification is conservative: it lets an execution continue only where nothing in the
input speaks against it, and commits or seeds only what the input names. -/
theorem classification_conservative (input : RecoveryInput) :
    Conservative input (classifyRecovery input) := by
  unfold classifyRecovery
  split
  · exact conservative_of_halted rfl rfl
  next x hx =>
    dsimp only
    split
    · exact conservative_of_halted rfl rfl
    next hlive =>
      split
      · exact conservative_of_halted rfl rfl
      next hfailed =>
        have hfrom : x.lifecycle = .failed →
            ∃ p, input.policy = some p ∧ p.allowRecoveryFromFailed = true := by
          intro hlifecycle
          by_contra hnone
          refine hfailed ⟨hlifecycle, fun hhas => hnone ?_⟩
          obtain ⟨p, hp, hallows⟩ := policyHas_some hhas
          exact ⟨p, hp, hallows⟩
        split
        · exact classifyOpenAmbiguity_conservative rfl _ _
        split
        · split <;> exact conservative_of_halted rfl rfl
        next hbindings =>
          split
          · exact classifyOpenAmbiguity_conservative rfl _ _
          next hclosed =>
            split
            · exact conservative_of_halted rfl rfl
            next husable =>
              -- Only the interrupted action is left to judge.
              have hinput : (∀ a, input.inFlight = some a →
                  Continues input.policy input.ambiguity a) → Continuable input := by
                intro hinFlight
                refine ⟨⟨x, hx, Bool.eq_false_iff.mpr hlive, hfrom⟩, ?_,
                  Bool.eq_false_iff.mpr hbindings, Bool.eq_false_iff.mpr husable, hinFlight⟩
                intro amb hamb
                by_contra hopen
                have hsome : input.openAmbiguity = some amb :=
                  Option.filter_eq_some_iff.mpr ⟨hamb, by simpa using hopen⟩
                rw [hclosed] at hsome
                cases hsome
              split
              next a ha => exact classifyInFlight_conservative hinput ha rfl
              next hrest =>
                refine classifyAtRest_conservative (hinput fun a ha => ?_) rfl x
                rw [hrest] at ha
                cases ha

end ExecutionFabric
