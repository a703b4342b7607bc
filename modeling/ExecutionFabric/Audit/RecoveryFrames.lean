import ExecutionFabric.Audit.Succession

/-!
# Recoveries side by side

An open recovers its pending executions one after the other. A recovery writes no
policy and no checkpoint, and the effects it writes are its own execution's, so the plan
of every other execution is the one the restart left.
-/
namespace ExecutionFabric

open Lib

section Tables

/-- The record is a policy or a checkpoint. -/
def JournalEntry.isInput : JournalEntry → Bool
  | .policy _ | .checkpoint _ => true
  | _ => false

/-- The tables a plan reads besides the effects. -/
structure SameInputs (j j' : Journaled) : Prop where
  policies : j'.state.policies = j.state.policies
  checkpoints : j'.state.checkpoints = j.state.checkpoints
  epoch : j'.state.epoch = j.state.epoch

theorem sameInputs_write (j : Journaled) (es : List JournalEntry)
    (h : ∀ e ∈ es, e.isInput = false) (hmeta : ∀ e ∈ es, ∀ r, e ≠ .storeMeta r) :
    SameInputs j (j.write es) := by
  induction es generalizing j with
  | nil => exact ⟨rfl, rfl, rfl⟩
  | cons e rest ih =>
    have hrest := ih (j.put e) (fun e' he' => h e' (List.mem_cons_of_mem _ he'))
      fun e' he' => hmeta e' (List.mem_cons_of_mem _ he')
    have hhead : SameInputs j (j.put e) := by
      have hplain := h e List.mem_cons_self
      have hnone := hmeta e List.mem_cons_self
      constructor <;> rw [Journaled.state_put] <;> cases e with
      | policy r => cases hplain
      | checkpoint r => cases hplain
      | storeMeta r => exact absurd rfl (hnone r)
      | _ => rfl
    rw [Journaled.write_cons]
    exact ⟨hrest.policies.trans hhead.policies, hrest.checkpoints.trans hhead.checkpoints,
      hrest.epoch.trans hhead.epoch⟩

/-- A recovery writes no policy, no checkpoint and no metadata. -/
theorem Transaction.recover_inputs {j : Journaled} {e : ExecutionId} {es : List JournalEntry}
    (ht : Transaction j (.recover e) es) : SameInputs j (j.write es) := by
  have hrecords : ∀ (st : DurableState) (x next : ExecutionRecord) (plan : RecoveryPlan)
      (a : Option ActionRecord), ∀ entry ∈ recoveryRecords st x next plan a,
      entry.isInput = false ∧ ∀ r, entry ≠ .storeMeta r := by
    intro st x next plan a entry hentry
    simp only [recoveryRecords, List.mem_cons, List.not_mem_nil, or_false] at hentry
    rcases hentry with rfl | rfl <;> exact ⟨rfl, fun r h => by cases h⟩
  have hall : ∀ entry ∈ es, entry.isInput = false ∧ ∀ r, entry ≠ .storeMeta r := by
    cases ht with
    | recoverPlain hx hlive hopens hreceipt => exact hrecords _ _ _ _ _
    | recoverAmbiguous hx hlive hopens ha =>
      intro entry hentry
      simp only [ambiguityRecords, List.mem_cons] at hentry
      rcases hentry with rfl | rfl | hentry
      · exact ⟨rfl, fun r h => by cases h⟩
      · exact ⟨rfl, fun r h => by cases h⟩
      · exact hrecords _ _ _ _ _ entry hentry
    | recoverCommit request hx hlive hreceipt ha hcommit =>
      intro entry hentry
      rcases List.mem_cons.mp hentry with rfl | hentry
      · exact ⟨rfl, fun r h => by cases h⟩
      · exact hrecords _ _ _ _ _ entry hentry
  exact sameInputs_write j es (fun entry h => (hall entry h).1) fun entry h => (hall entry h).2

end Tables

section Plans

variable {ds : List Derivation} {j j' : Journaled} {e : ExecutionId}

theorem Image.Untouched.action {m m' : Image} (h : m.Untouched e m') {k : ActionKey}
    {a : ActionRecord} (ha : m.actions k = some a) (howner : a.execution = e) :
    m'.actions k = some a := by
  have hfound : m'.actionsOf e k = some a := by
    rw [h.actions]
    exact Option.filter_eq_some_iff.mpr ⟨ha, by simpa using howner⟩
  exact (Option.filter_eq_some_iff.mp hfound).1

theorem Image.Untouched.symm {m m' : Image} (h : m.Untouched e m') : m'.Untouched e m :=
  ⟨h.execution.symm, h.actions.symm, h.progress.symm, h.commits.symm, h.ambiguities.symm⟩

theorem Image.Latest.unique {m : Image} {a b : ActionRecord} (ha : m.Latest e a)
    (hb : m.Latest e b) : a = b := by
  have hkey : a.key = b.key := by
    rcases hb.greatest _ a ha.stored ha.owner with h | h
    · exact h
    · rcases ha.greatest _ b hb.stored hb.owner with h' | h'
      · exact h'.symm
      · exact absurd (ActionKey.lt_trans h h') (ActionKey.lt_irrefl _)
  have hstored := ha.stored
  rw [hkey, hb.stored] at hstored
  exact (Option.some.inj hstored).symm

theorem Image.Untouched.latest {m m' : Image} (h : m.Untouched e m') {a : ActionRecord}
    (ha : m.Latest e a) : m'.Latest e a :=
  ⟨h.action ha.stored ha.owner, ha.owner, fun k b hb howner =>
    ha.greatest k b (h.symm.action hb howner) howner⟩

/-- The newest action of an untouched execution is the same. -/
theorem latestAction_untouched (hi : Indexed j) (hi' : Indexed j')
    (hu : j.state.image.Untouched e j'.state.image) : j'.latestAction e = j.latestAction e := by
  cases hold : j.latestAction e with
  | none =>
    cases hnew : j'.latestAction e with
    | none => rfl
    | some a =>
      have hlatest := hi'.latest hnew
      exact absurd hlatest.owner
        (hi.latest_none hold _ a (hu.symm.action hlatest.stored hlatest.owner))
  | some a =>
    have hlatest := hu.latest (hi.latest hold)
    cases hnew : j'.latestAction e with
    | none => exact absurd hlatest.owner (hi'.latest_none hnew _ a hlatest.stored)
    | some b => rw [(hi'.latest hnew).unique hlatest]

/-- The ambiguity an untouched execution refers to is the same. -/
theorem currentAmbiguity_untouched (hc : j.state.image.Coherent ds)
    {x : ExecutionRecord} (hx : j.state.image.executions x.id = some x)
    (hu : j.state.image.Untouched x.id j'.state.image) :
    currentAmbiguity j'.state x = currentAmbiguity j.state x := by
  unfold currentAmbiguity
  split
  next hvalid =>
    obtain ⟨amb, hamb, howner⟩ := hc.ambiguous _ x hx ((Id.valid_iff _).mp hvalid)
    have hfound : j'.state.image.ambiguitiesOf x.id x.ambiguity = some amb := by
      rw [hu.ambiguities]
      exact Option.filter_eq_some_iff.mpr ⟨hamb, by simpa using howner⟩
    have hnew : j'.state.ambiguities.find x.ambiguity = some amb :=
      (Option.filter_eq_some_iff.mp hfound).1
    have hold : j.state.ambiguities.find x.ambiguity = some amb := hamb
    rw [hnew, hold]
  next => rfl

/-- What a recovery of `x` is decided by is the same in both memories. -/
structure SamePlan (j j' : Journaled) (x : ExecutionRecord) : Prop where
  plan : planOf j' x = planOf j x
  action : plannedAction j'.state (planOf j x) = plannedAction j.state (planOf j x)
  policy : policyOf j'.state x = policyOf j.state x
  ambiguity : currentAmbiguity j'.state x = currentAmbiguity j.state x

theorem samePlan_untouched (hw : Working ds j) (hw' : Working ds j') {x : ExecutionRecord}
    (hx : j.state.image.executions x.id = some x)
    (hu : j.state.image.Untouched x.id j'.state.image) (hinputs : SameInputs j j') :
    SamePlan j j' x := by
  have hambiguity := currentAmbiguity_untouched hw.coherent hx hu
  have hpolicy : policyOf j'.state x = policyOf j.state x := by
    unfold policyOf
    rw [hinputs.policies]
  have hplan : planOf j' x = planOf j x := by
    unfold planOf recoveryInput seedingCheckpoint seedableCandidates checkpointUnusable
    rw [hpolicy, hinputs.epoch, latestAction_untouched hw.indexed hw'.indexed hu,
      hinputs.checkpoints, hambiguity]
  have hx' : j'.state.image.executions x.id = some x := by
    rw [hu.execution]
    exact hx
  refine ⟨hplan, ?_, hpolicy, hambiguity⟩
  have hforth : ∀ a, plannedAction j.state (planOf j x) = some a →
      plannedAction j'.state (planOf j x) = some a := by
    intro a ha
    obtain ⟨-, howner⟩ := (planned_of_plannedAction ha).owned hw.coherent hw.indexed hx
    unfold plannedAction at ha ⊢
    split at ha
    next hvalid =>
      rw [if_pos hvalid]
      exact hu.action ha howner
    next => cases ha
  cases hold : plannedAction j.state (planOf j x) with
  | some a => exact hforth a hold
  | none =>
    cases hnew : plannedAction j'.state (planOf j x) with
    | none => rfl
    | some a =>
      rw [← hplan] at hnew
      obtain ⟨-, howner⟩ := (planned_of_plannedAction hnew).owned hw'.coherent hw'.indexed hx'
      rw [hplan] at hnew
      unfold plannedAction at hnew hold
      split at hnew
      next hvalid =>
        rw [if_pos hvalid] at hold
        have hback : j.state.findAction (planOf j x).action (planOf j x).actionGeneration = some a :=
          hu.symm.action hnew howner
        rw [hold] at hback
        cases hback
      next => cases hnew

/-- A recovery leaves the plan of every other execution as it is. -/
theorem Transaction.samePlan {es : List JournalEntry} (hfree : CollisionFree ds)
    (hw : Working ds j) (ht : Transaction j (.recover e) es)
    (hmint : Minted ds j.state.store es) {x : ExecutionRecord} (hne : x.id ≠ e)
    (hx : j.state.image.executions x.id = some x) :
    j.state.image.Untouched x.id (j.write es).state.image ∧ SamePlan j (j.write es) x := by
  have hu : j.state.image.Untouched x.id (j.write es).state.image :=
    ht.untouched hfree hw hmint (fun _ _ _ h => by cases h)
      (fun h => hne (Option.some.inj h).symm) ⟨x, hx⟩
  exact ⟨hu, samePlan_untouched hw (ht.working hfree hw hmint) hx hu ht.recover_inputs⟩

end Plans

/-- The executions left to recover are distinct and each of them is ready in the sense of `Q`. -/
structure Queued (Q : Journaled → ExecutionRecord → Prop) (ids : List ExecutionId)
    (j : Journaled) : Prop where
  nodup : ids.Nodup
  stored : ∀ e ∈ ids, ∃ x, j.state.image.executions e = some x
  each : ∀ e ∈ ids, ∀ x, j.state.image.executions e = some x → Q j x

theorem pendingOf_nodup (st : DurableState) : (pendingOf st).Nodup := by
  unfold pendingOf
  exact st.executions.nodup.sublist (List.filter_sublist.map _)

theorem Queued.skip {Q : Journaled → ExecutionRecord → Prop} {e : ExecutionId}
    {ids : List ExecutionId} {j : Journaled} (h : Queued Q (e :: ids) j) : Queued Q ids j :=
  ⟨h.nodup.of_cons, fun e' he' => h.stored e' (List.mem_cons_of_mem _ he'),
    fun e' he' => h.each e' (List.mem_cons_of_mem _ he')⟩

/-- A recovery keeps what the remaining ones need, if that depends on their plans only. -/
theorem Queued.recover {Q : Journaled → ExecutionRecord → Prop} {ds : List Derivation}
    {e : ExecutionId} {ids : List ExecutionId} {j : Journaled} {es : List JournalEntry}
    (h : Queued Q (e :: ids) j) (hfree : CollisionFree ds) (hw : Working ds j)
    (ht : Transaction j (.recover e) es) (hmint : Minted ds j.state.store es)
    (hframe : ∀ {j j' : Journaled} {x : ExecutionRecord},
      j.state.image.Untouched x.id j'.state.image → SamePlan j j' x → SameInputs j j' →
      Q j x → Q j' x) :
    Queued Q ids (j.write es) := by
  have hframes : ∀ e' ∈ ids, ∃ y, j.state.image.executions e' = some y ∧ y.id = e' ∧
      j.state.image.Untouched e' (j.write es).state.image ∧ SamePlan j (j.write es) y := by
    intro e' he'
    have hne : e' ≠ e := by
      rintro rfl
      exact (List.nodup_cons.mp h.nodup).1 he'
    obtain ⟨y, hy⟩ := h.stored e' (List.mem_cons_of_mem _ he')
    have hid : y.id = e' := j.state.image.executions.keyed _ _ hy
    subst hid
    exact ⟨y, hy, rfl, ht.samePlan hfree hw hmint hne hy⟩
  refine ⟨h.nodup.of_cons, fun e' he' => ?_, fun e' he' x hx => ?_⟩
  · obtain ⟨y, hy, -, hu, -⟩ := hframes e' he'
    exact ⟨y, hu.execution.trans hy⟩
  · obtain ⟨y, hy, hid, hu, hsame⟩ := hframes e' he'
    subst hid
    obtain rfl := Option.some.inj (hy.symm.trans (hu.execution.symm.trans hx))
    exact hframe hu hsame ht.recover_inputs (h.each _ (List.mem_cons_of_mem _ he') _ hy)

theorem pendingOf_stored (st : DurableState) :
    ∀ e ∈ pendingOf st, ∃ x, st.image.executions e = some x := by
  intro e he
  obtain ⟨x, hx, rfl⟩ := List.mem_map.mp he
  exact ⟨x, (Table.find_eq_some_iff _ _ _).mpr ⟨(List.mem_filter.mp hx).1, rfl⟩⟩

end ExecutionFabric
