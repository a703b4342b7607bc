import ExecutionFabric.Audit.Reconciling
import ExecutionFabric.Audit.Redriving

/-!
# Finishing a lost promotion

When reconciliation leaves a state in which every aggregate record describes its details,
and when it does not: an action at a frontier that stays where it is may be newer than the
execution knows, and two commits may name one action.
-/
namespace ExecutionFabric

open Lib

/-! ## What reconciliation is for -/

/-- No stored action of the execution is beyond its frontier. -/
def FrontierCovers (st : DurableState) (x : ExecutionRecord) : Prop :=
  ∀ a ∈ st.actions.records, a.execution = x.id → a.sequence ≤ x.actionFrontier

/-- If an action exists at the frontier, the execution's action generation is the newest one
stored for that ordinal. -/
def GenerationNewest (st : DurableState) (x : ExecutionRecord) : Prop :=
  (∃ a ∈ st.actions.records, a.execution = x.id ∧ a.sequence = x.actionFrontier) →
    (∃ a ∈ st.actions.records, a.execution = x.id ∧ a.sequence = x.actionFrontier ∧
      a.generation = x.actionGeneration) ∧
    ∀ a ∈ st.actions.records, a.execution = x.id → a.sequence = x.actionFrontier →
      a.generation ≤ x.actionGeneration

/-- `y` is `x` after reconciliation: the frontier moves only to cover stored actions, and the
aggregate of the progress changes only when its generation is raised. -/
structure BroughtForward (st : DurableState) (x y : ExecutionRecord) : Prop where
  others : y = { x with
    actionFrontier := y.actionFrontier
    actionGeneration := y.actionGeneration
    progressGeneration := y.progressGeneration
    progress := y.progress
    lastCommit := y.lastCommit
    committedActions := y.committedActions }
  frontier : ¬ FrontierCovers st x ∨
    (y.actionFrontier = x.actionFrontier ∧ y.actionGeneration = x.actionGeneration)
  progress : y.progressGeneration ≠ x.progressGeneration ∨
    (y.progress = x.progress ∧ y.lastCommit = x.lastCommit ∧
      y.committedActions = x.committedActions)

/-- `b` is `a` after reconciliation: it changes only if a raised execution's commit names it. -/
structure Sealed (st : DurableState) (r : Reconciliation) (a b : ActionRecord) : Prop where
  others : b = { a with status := b.status, commit := b.commit }
  named : b = a ∨ ∃ g ∈ r.repairs, g.commit.actionKey = a.key

/-- The newest committed progress record of an execution: no other has a higher generation, and of
those with its generation it is the first. -/
structure Newest (ps : List ProgressRecord) (e : ExecutionId) (best : ProgressRecord) : Prop where
  execution : best.execution = e
  committed : best.committed = true
  highest : ∀ p ∈ ps, p.execution = e → p.committed = true → p.generation ≤ best.generation
  first : ∃ before after, ps = before ++ best :: after ∧
    ∀ p ∈ before, p.execution = e → p.committed = true → p.generation < best.generation

/-- What is promised of reconciliation. -/
structure Finishes (st : DurableState) (r : Reconciliation) : Prop where
  covers : ∀ y ∈ r.state.executions.records, FrontierCovers r.state y
  newest : ∀ y ∈ r.state.executions.records, GenerationNewest r.state y
  promoted : ∀ x ∈ st.executions.records,
    (∃ p ∈ st.progress.records, p.execution = x.id ∧ p.committed = true) →
    ∃ best, Newest st.progress.records x.id best ∧ ∀ commit action,
      st.commits.find best.commit = some commit → st.actions.find commit.actionKey = some action →
      ∃ y, r.state.executions.find x.id = some y ∧ best.generation ≤ y.progressGeneration ∧
        (y.progressGeneration ≠ x.progressGeneration →
          y.progressGeneration = best.generation ∧ y.progress = best.id ∧
          y.lastCommit = best.commit ∧ y.committedActions = (st.progress.records.filter
            fun p => p.execution = x.id ∧ p.committed = true).length ∧
          ∃ sealed, r.state.actions.find commit.actionKey = some sealed ∧
            sealed.status = .committed ∧ sealed.commit = best.commit ∧
            ⟨commit, best, sealed, y⟩ ∈ r.repairs)
  tables : r.state = { st with
    executions := r.state.executions, actions := r.state.actions }
  executions : List.Forall₂ (BroughtForward st) st.executions.records r.state.executions.records
  actions : List.Forall₂ (Sealed st r) st.actions.records r.state.actions.records
  repairs : ∀ g ∈ r.repairs, ∃ x ∈ st.executions.records, x.id = g.execution.id ∧
    r.state.executions.find x.id = some g.execution ∧
    g.execution.progressGeneration ≠ x.progressGeneration
  again : reconcileState r.state = ⟨r.state, [], false⟩

/-! ## When it does -/

/-- An execution without an action beyond its frontier knows the newest one at it. -/
def GenerationsCurrent (st : DurableState) : Prop :=
  ∀ x ∈ st.executions.records, FrontierCovers st x → GenerationNewest st x

/-- Commits that are promoted for one action are one commit. -/
def CommitsApart (st : DurableState) : Prop :=
  ∀ x ∈ st.executions.records, ∀ y ∈ st.executions.records, ∀ p q,
    promotionOf st x = some p → promotionOf st y = some q →
    p.commit.actionKey = q.commit.actionKey → p.commit.id = q.commit.id

/-! ## The newest progress -/

section Newest

variable {ps : List ProgressRecord} {e : ExecutionId} {best : ProgressRecord}

theorem Newest.mem (h : Newest ps e best) : best ∈ ps := by
  obtain ⟨before, after, rfl, -⟩ := h.first
  exact List.mem_append_right _ List.mem_cons_self

theorem Newest.unique {best' : ProgressRecord} (h : Newest ps e best) (h' : Newest ps e best') :
    best = best' := by
  have hsame : best.generation = best'.generation :=
    Nat.le_antisymm (h'.highest _ h.mem h.execution h.committed)
      (h.highest _ h'.mem h'.execution h'.committed)
  obtain ⟨before, after, hps, hbefore⟩ := h.first
  obtain ⟨before', after', hps', hbefore'⟩ := h'.first
  -- Neither stands before the other.
  have hnot : best' ∉ before := fun hmem =>
    absurd (hbefore _ hmem h'.execution h'.committed) (by omega)
  have hnot' : best ∉ before' := fun hmem =>
    absurd (hbefore' _ hmem h.execution h.committed) (by omega)
  rcases List.append_eq_append_iff.mp (hps.symm.trans hps') with
    ⟨more, hmore, hrest⟩ | ⟨more, hmore, hrest⟩
  · cases more with
    | nil => exact (List.cons.inj hrest).1
    | cons p more =>
      obtain ⟨rfl, -⟩ := List.cons.inj hrest
      exact absurd (hmore ▸ List.mem_append_right _ List.mem_cons_self) hnot'
  · cases more with
    | nil => exact (List.cons.inj hrest).1.symm
    | cons p more =>
      obtain ⟨rfl, -⟩ := List.cons.inj hrest
      exact absurd (hmore ▸ List.mem_append_right _ List.mem_cons_self) hnot

theorem Newest.concat_other {p : ProgressRecord} (h : Newest ps e best)
    (hp : p.execution = e → p.committed = true → p.generation ≤ best.generation) :
    Newest (ps ++ [p]) e best := by
  obtain ⟨before, after, hps, hbefore⟩ := h.first
  refine ⟨h.execution, h.committed, fun q hq => ?_, before, after ++ [p], ?_, hbefore⟩
  · rcases List.mem_append.mp hq with hold | hnew
    · exact h.highest q hold
    · rw [List.mem_singleton.mp hnew]
      exact hp
  · rw [hps, List.append_assoc, List.cons_append]

/-- A record that beats all before it is the newest. -/
theorem newest_concat {p : ProgressRecord} (hexecution : p.execution = e)
    (hcommitted : p.committed = true)
    (hbeats : ∀ q ∈ ps, q.execution = e → q.committed = true → q.generation < p.generation) :
    Newest (ps ++ [p]) e p := by
  refine ⟨hexecution, hcommitted, fun q hq hexec hcomm => ?_, ps, [], rfl, hbeats⟩
  rcases List.mem_append.mp hq with hold | hnew
  · exact (hbeats q hold hexec hcomm).le
  · rw [List.mem_singleton.mp hnew]

/-- What `reconcile_state` picks is the newest, and it picks nothing only if there is none. -/
theorem foldl_betterProgress (ps : List ProgressRecord) (e : ExecutionId) :
    (∀ best, ps.foldl (betterProgress e) none = some best → Newest ps e best) ∧
      (ps.foldl (betterProgress e) none = none →
        ∀ p ∈ ps, ¬ (p.execution = e ∧ p.committed = true)) := by
  induction ps using List.reverseRecOn with
  | nil => exact ⟨fun best h => (by cases h), fun _ p hp => (by cases hp)⟩
  | append_singleton ps p ih =>
    obtain ⟨hsome, hnone⟩ := ih
    rw [List.foldl_concat]
    generalize ps.foldl (betterProgress e) none = best at hsome hnone
    unfold betterProgress
    by_cases hown : p.execution ≠ e ∨ ¬ p.committed = true
    · rw [if_pos hown]
      refine ⟨fun b hb => (hsome b hb).concat_other fun hexec hcomm => ?_, fun hb q hq => ?_⟩
      · rcases hown with hother | hopen
        · exact absurd hexec hother
        · exact absurd hcomm hopen
      · rcases List.mem_append.mp hq with hold | hnew
        · exact hnone hb q hold
        · rw [List.mem_singleton.mp hnew]
          rintro ⟨hexec, hcomm⟩
          rcases hown with hother | hopen
          · exact hother hexec
          · exact hopen hcomm
    · rw [if_neg hown]
      obtain ⟨hexec, hcomm⟩ : p.execution = e ∧ p.committed = true := by simpa using hown
      cases best with
      | none =>
        refine ⟨fun b hb => ?_, fun hb => (by cases hb)⟩
        obtain rfl := Option.some.inj hb
        exact newest_concat hexec hcomm fun q hq hqe hqc => absurd ⟨hqe, hqc⟩ (hnone rfl q hq)
      | some b =>
        have hold := hsome b rfl
        dsimp only
        split
        next hnewer =>
          refine ⟨fun b' hb => ?_, fun hb => (by cases hb)⟩
          obtain rfl := Option.some.inj hb
          exact newest_concat hexec hcomm fun q hq hqe hqc =>
            (hold.highest q hq hqe hqc).trans_lt hnewer
        next hnewer =>
          refine ⟨fun b' hb => ?_, fun hb => (by cases hb)⟩
          obtain rfl := Option.some.inj hb
          exact hold.concat_other fun _ _ => Nat.le_of_not_lt hnewer

theorem newestProgress_newest {st : DurableState} (h : newestProgress st e = some best) :
    Newest st.progress.records e best :=
  (foldl_betterProgress st.progress.records e).1 best h

/-- Where some progress is committed, the newest is found. -/
theorem newestProgress_found {st : DurableState} {p : ProgressRecord}
    (hp : p ∈ st.progress.records) (hexecution : p.execution = e) (hcommitted : p.committed = true) :
    ∃ best, newestProgress st e = some best ∧ Newest st.progress.records e best := by
  cases hbest : newestProgress st e with
  | some best => exact ⟨best, rfl, newestProgress_newest hbest⟩
  | none =>
    exact absurd ⟨hexecution, hcommitted⟩
      ((foldl_betterProgress st.progress.records e).2 hbest p hp)

end Newest

/-! ## The pieces -/

section Pieces

variable {st : DurableState} {x : ExecutionRecord}

theorem frontierCovers_iff : FrontierCovers st x ↔ (reachedFrontier st x).1 = x.actionFrontier := by
  have hreached := reachedFrontier_reachedFrom st x
  obtain ⟨hle, -, -⟩ := reachedFrontier_spec st x
  constructor
  · intro hcovers
    rcases hreached.attained with hsame | ⟨a, ha, hown, hsequence, -⟩
    · exact hsame
    · have := hcovers a ha hown
      omega
  · intro hsame a ha hown
    rw [← hsame]
    exact hreached.bound a ha hown

theorem frontier_reconciledExecution (st : DurableState) (x : ExecutionRecord) :
    (reconciledExecution st x).actionFrontier = (reachedFrontier st x).1 := by
  unfold reconciledExecution advancedExecution
  split <;> split
  next hmoved => rfl
  next hstill => exact (not_not.mp hstill).symm
  next hmoved => rfl
  next hstill => exact (not_not.mp hstill).symm

theorem generation_reconciledExecution (st : DurableState) (x : ExecutionRecord) :
    (reconciledExecution st x).actionGeneration =
      if (reachedFrontier st x).1 ≠ x.actionFrontier then (reachedFrontier st x).2
      else x.actionGeneration := by
  unfold reconciledExecution advancedExecution
  split <;> split <;> rfl

/-- Sealed actions count for frontiers and generations as before. -/
theorem exists_sealed {P : ExecutionId → Nat → Nat → Prop} :
    (∃ a ∈ (reconcileState st).state.actions.records, P a.execution a.sequence a.generation) ↔
      ∃ a ∈ st.actions.records, P a.execution a.sequence a.generation := by
  rw [(records_reconcileState st).2]
  simp only [List.mem_map, exists_exists_and_eq_and, execution_sealedAction,
    sequence_sealedAction, generation_sealedAction]

theorem forall_sealed {P : ExecutionId → Nat → Nat → Prop} :
    (∀ a ∈ (reconcileState st).state.actions.records, P a.execution a.sequence a.generation) ↔
      ∀ a ∈ st.actions.records, P a.execution a.sequence a.generation := by
  rw [(records_reconcileState st).2]
  simp only [List.forall_mem_map, execution_sealedAction, sequence_sealedAction,
    generation_sealedAction]

theorem frontierCovers_reconcileState (st : DurableState) (y : ExecutionRecord) :
    FrontierCovers (reconcileState st).state y ↔ FrontierCovers st y :=
  forall_sealed (P := fun e s _ => e = y.id → s ≤ y.actionFrontier)

theorem generationNewest_reconcileState (st : DurableState) (y : ExecutionRecord) :
    GenerationNewest (reconcileState st).state y ↔ GenerationNewest st y := by
  unfold GenerationNewest
  rw [exists_sealed (P := fun e s _ => e = y.id ∧ s = y.actionFrontier),
    exists_sealed (P := fun e s g => e = y.id ∧ s = y.actionFrontier ∧ g = y.actionGeneration),
    forall_sealed (P := fun e s g => e = y.id → s = y.actionFrontier → g ≤ y.actionGeneration)]

/-- An execution whose frontier moves takes the newest generation there with it; one whose
frontier stays keeps the generation it had. -/
theorem generationNewest_reconciled (st : DurableState) (x : ExecutionRecord) :
    GenerationNewest st (reconciledExecution st x) ↔
      (FrontierCovers st x → GenerationNewest st x) := by
  have hfrontier := frontier_reconciledExecution st x
  have hgeneration := generation_reconciledExecution st x
  have hreached := reachedFrontier_reachedFrom st x
  rw [frontierCovers_iff]
  by_cases hsame : (reachedFrontier st x).1 = x.actionFrontier
  · rw [if_neg (not_not.mpr hsame)] at hgeneration
    unfold GenerationNewest
    rw [id_reconciledExecution, hfrontier, hgeneration, hsame]
    exact ⟨fun h _ => h, fun h => h rfl⟩
  · rw [if_pos hsame] at hgeneration
    have hattained := hreached.attained.resolve_left hsame
    refine iff_of_true ?_ fun hcovers => absurd hcovers hsame
    intro _
    rw [id_reconciledExecution, hfrontier, hgeneration]
    exact ⟨hattained, hreached.newest⟩

/-- An action that promoted commits name is sealed by them; here they all are `commit`. -/
theorem sealedAction_named (commit : CommitId) (cs : List CommitRecord) (a : ActionRecord)
    (hone : ∀ c ∈ cs, c.actionKey = a.key → c.id = commit)
    (hnamed : (∃ c ∈ cs, c.actionKey = a.key) ∨ (a.status = .committed ∧ a.commit = commit)) :
    (sealedAction cs a).status = .committed ∧ (sealedAction cs a).commit = commit := by
  induction cs generalizing a with
  | nil => exact hnamed.resolve_left (by simp)
  | cons c cs ih =>
    have hkey := key_sealNamed a c
    refine ih (sealNamed a c) ?_ ?_
    · intro c' hc'
      rw [hkey]
      exact hone c' (List.mem_cons_of_mem _ hc')
    · by_cases hc : c.actionKey = a.key
      · right
        rw [sealNamed, if_pos hc]
        exact ⟨rfl, hone c List.mem_cons_self hc⟩
      · rw [hkey]
        refine hnamed.imp ?_ ?_
        · rintro ⟨c', hc', hk⟩
          rcases List.mem_cons.mp hc' with rfl | hc'
          · exact absurd hk hc
          · exact ⟨c', hc', hk⟩
        · rw [sealNamed, if_neg hc]
          exact id

theorem sealedAction_unnamed (cs : List CommitRecord) (a : ActionRecord)
    (h : ∀ c ∈ cs, c.actionKey ≠ a.key) : sealedAction cs a = a := by
  induction cs with
  | nil => rfl
  | cons c cs ih =>
    rw [sealedAction, List.foldl_cons, sealNamed, if_neg (h c List.mem_cons_self)]
    exact ih fun c' hc' => h c' (List.mem_cons_of_mem _ hc')

theorem progressGeneration_reconciled (st : DurableState) (x : ExecutionRecord) :
    (reconciledExecution st x).progressGeneration = match promotionOf st x with
      | none => x.progressGeneration
      | some p => p.progress.generation := by
  unfold reconciledExecution
  cases promotionOf st x with
  | none => exact progressGeneration_advanced st x
  | some p => rfl

/-- Whoever is promoted is raised, and nobody else. -/
theorem raised_iff (st : DurableState) (x : ExecutionRecord) :
    (reconciledExecution st x).progressGeneration ≠ x.progressGeneration ↔
      ∃ p, promotionOf st x = some p := by
  rw [progressGeneration_reconciled]
  cases hp : promotionOf st x with
  | none => simp
  | some p =>
    obtain ⟨-, hlt, -⟩ := promotionOf_eq_some.mp hp
    exact iff_of_true (ne_of_gt hlt) ⟨p, rfl⟩

theorem broughtForward_reconciled (st : DurableState) (x : ExecutionRecord) :
    BroughtForward st x (reconciledExecution st x) := by
  refine ⟨?_, ?_, ?_⟩
  · unfold reconciledExecution advancedExecution
    split <;> split <;> rfl
  · rw [frontierCovers_iff, frontier_reconciledExecution, generation_reconciledExecution]
    by_cases hsame : (reachedFrontier st x).1 = x.actionFrontier
    · exact .inr ⟨hsame, if_neg (not_not.mpr hsame)⟩
    · exact .inl hsame
  · rw [raised_iff]
    unfold reconciledExecution advancedExecution
    cases hp : promotionOf st x with
    | none =>
      refine .inr ?_
      dsimp only
      split <;> exact ⟨rfl, rfl, rfl⟩
    | some p => exact .inl ⟨p, rfl⟩

theorem tables_reconcileState (st : DurableState) :
    (reconcileState st).state = { st with
      executions := (reconcileState st).state.executions
      actions := (reconcileState st).state.actions } := by
  rw [reconcileState_eq]
  rfl

/-- A promotion is made once: afterwards none is owed. -/
theorem promotionOf_reconciled (st : DurableState) (x : ExecutionRecord) :
    promotionOf (reconcileState st).state (reconciledExecution st x) = none := by
  have htables := tables_reconcileState st
  have hcommits : (reconcileState st).state.commits = st.commits := by rw [htables]
  have hprogress : (reconcileState st).state.progress = st.progress := by rw [htables]
  by_contra howed
  obtain ⟨q, hq⟩ := Option.ne_none_iff_exists'.mp howed
  obtain ⟨hbest, hlt, hcommit, haction⟩ := promotionOf_eq_some.mp hq
  unfold newestProgress at hbest
  rw [hprogress, id_reconciledExecution, ← newestProgress] at hbest
  rw [hcommits] at hcommit
  rw [find_action_reconcileState] at haction
  obtain ⟨a, ha, -⟩ := Option.map_eq_some_iff.mp haction
  rw [progressGeneration_reconciled] at hlt
  cases hp : promotionOf st x with
  | none =>
    rw [hp] at hlt
    have hmade : promotionOf st x = some ⟨q.progress, q.commit, a⟩ :=
      promotionOf_eq_some.mpr ⟨hbest, hlt, hcommit, ha⟩
    rw [hp] at hmade
    cases hmade
  | some p =>
    rw [hp] at hlt
    obtain ⟨hbest', -⟩ := promotionOf_eq_some.mp hp
    obtain hsame := Option.some.inj (hbest'.symm.trans hbest)
    dsimp only at hlt
    rw [hsame] at hlt
    exact lt_irrefl _ hlt

theorem covers_reconciled (st : DurableState) (x : ExecutionRecord) :
    FrontierCovers (reconcileState st).state (reconciledExecution st x) := by
  rw [frontierCovers_reconcileState]
  intro a ha hown
  rw [id_reconciledExecution] at hown
  rw [frontier_reconciledExecution]
  exact (reachedFrontier_reachedFrom st x).bound a ha hown

/-- Where nothing lags, reconciliation changes nothing. -/
theorem reconcileState_of_current (st : DurableState)
    (hcovers : ∀ x ∈ st.executions.records, FrontierCovers st x)
    (hpromotions : ∀ x ∈ st.executions.records, promotionOf st x = none) :
    reconcileState st = ⟨st, [], false⟩ := by
  have hstored : ∀ id x, st.executions.find id = some x → x ∈ st.executions.records :=
    fun id x hx => ((Table.find_eq_some_iff _ _ _).mp hx).1
  have hkept : ∀ x ∈ st.executions.records, reconciledExecution st x = x := by
    intro x hx
    rw [reconciledExecution, hpromotions x hx]
    exact if_neg (not_not.mpr (frontierCovers_iff.mp (hcovers x hx)))
  have hnone : promotionsOf st st.handled = [] := by
    rw [List.eq_nil_iff_forall_not_mem]
    intro p hp
    obtain ⟨x, hx, hp⟩ := mem_promotionsOf_handled.mp hp
    rw [hpromotions x hx] at hp
    cases hp
  have hrepairs : repairsOf st st.handled = [] := by
    rw [repairsOf, List.filterMap_eq_nil_iff]
    intro id _
    cases hx : st.executions.find id with
    | none => rfl
    | some x => rw [Option.bind_some, hpromotions x (hstored id x hx), Option.map_none]
  have hchanged : (st.handled.any fun id => (st.executions.find id).any (lags st)) = false := by
    rw [List.any_eq_false]
    intro id _
    cases hx : st.executions.find id with
    | none => simp
    | some x =>
      have hmem := hstored id x hx
      simp [lags, hpromotions x hmem, frontierCovers_iff.mp (hcovers x hmem)]
  rw [reconcileState_eq]
  unfold reconciledWith
  have hunsealed : ∀ a ∈ st.actions.records,
      sealedAction ((promotionsOf st st.handled).map Promotion.commit) a = a := by
    intro a _
    rw [hnone]
    rfl
  have hunhandled : ∀ x ∈ st.executions.records, handledExecution st st.handled x = x := by
    intro x hx
    rw [handledExecution, hkept x hx, ite_self]
  rw [hrepairs, hchanged, Table.revise_eq_self _ (key_sealedAction _) hunsealed,
    Table.revise_eq_self _ (id_handledExecution st st.handled) hunhandled]

theorem reconcileState_again (st : DurableState) :
    reconcileState (reconcileState st).state = ⟨(reconcileState st).state, [], false⟩ := by
  have hrecords := (records_reconcileState st).1
  apply reconcileState_of_current
  · intro y hy
    rw [hrecords] at hy
    obtain ⟨x, -, rfl⟩ := List.mem_map.mp hy
    exact covers_reconciled st x
  · intro y hy
    rw [hrecords] at hy
    obtain ⟨x, -, rfl⟩ := List.mem_map.mp hy
    exact promotionOf_reconciled st x

end Pieces

/-! ## The result -/

theorem sealed_reconciled (st : DurableState) (a : ActionRecord) :
    Sealed st (reconcileState st) a (sealedAction st.promotedCommits a) := by
  refine ⟨?_, ?_⟩
  · obtain ⟨status, commit, h⟩ := sealedAction_eq st.promotedCommits a
    rw [h]
  · by_cases hnamed : ∃ c ∈ st.promotedCommits, c.actionKey = a.key
    · obtain ⟨c, hc, hkey⟩ := hnamed
      obtain ⟨x, hx, p, hp, rfl⟩ := mem_promotedCommits.mp hc
      exact .inr ⟨_, mem_repairs_reconcileState.mpr ⟨x, hx, p, hp, rfl⟩, hkey⟩
    · refine .inl (sealedAction_unnamed _ _ ?_)
      intro c hc hkey
      exact hnamed ⟨c, hc, hkey⟩

/-- A promotion whose action no other commit claims seals that action for good. -/
theorem promoted_sealed {st : DurableState} (hapart : CommitsApart st) {x : ExecutionRecord}
    (hx : x ∈ st.executions.records) {p : Promotion} (hp : promotionOf st x = some p) :
    (reconcileState st).state.actions.find p.commit.actionKey =
      some (p.action.sealedBy p.commit) := by
  obtain ⟨-, -, -, haction⟩ := promotionOf_eq_some.mp hp
  have hkey : p.action.key = p.commit.actionKey := Table.find_key haction
  rw [find_action_reconcileState, haction, Option.map_some]
  have hsealed := sealedAction_named p.commit.id st.promotedCommits p.action
    (by
      intro c hc hck
      obtain ⟨y, hy, q, hq, rfl⟩ := mem_promotedCommits.mp hc
      exact hapart y hy x hx q p hq hp (hck.trans hkey))
    (.inl ⟨p.commit, mem_promotedCommits.mpr ⟨x, hx, p, hp, rfl⟩, hkey.symm⟩)
  obtain ⟨status, commit, h⟩ := sealedAction_eq st.promotedCommits p.action
  rw [h] at hsealed ⊢
  obtain ⟨rfl, rfl⟩ := hsealed
  rfl

theorem Finishes.generationsCurrent {st : DurableState} (h : Finishes st (reconcileState st)) :
    GenerationsCurrent st := by
  intro x hx
  rw [← generationNewest_reconciled, ← generationNewest_reconcileState]
  refine h.newest _ ?_
  rw [(records_reconcileState st).1]
  exact List.mem_map_of_mem hx

/-- Reconciliation finishes every lost promotion exactly if the executions whose frontier stays
know the newest action there, and no two promoted commits claim one action. -/
theorem reconcileState_finishes_iff (st : DurableState) :
    Finishes st (reconcileState st) ↔ GenerationsCurrent st ∧ CommitsApart st := by
  obtain ⟨hexecutions, hactions⟩ := records_reconcileState st
  constructor
  · intro h
    refine ⟨h.generationsCurrent, fun x hx y hy p q hp hq hkey => ?_⟩
    have hcommitted : ∀ z ∈ st.executions.records, ∀ r, promotionOf st z = some r →
        ∃ sealed, (reconcileState st).state.actions.find r.commit.actionKey = some sealed ∧
          sealed.commit = r.commit.id := by
      intro z hz r hr
      obtain ⟨hbest, -, hcommit, haction⟩ := promotionOf_eq_some.mp hr
      have hnewest := newestProgress_newest hbest
      obtain ⟨best, hbest', hpromoted⟩ :=
        h.promoted z hz ⟨_, hnewest.mem, hnewest.execution, hnewest.committed⟩
      obtain rfl := hnewest.unique hbest'
      obtain ⟨w, hw, -, hraised⟩ := hpromoted _ _ hcommit haction
      rw [find_execution_reconcileState, (Table.find_eq_some_iff _ _ _).mpr ⟨hz, rfl⟩,
        Option.map_some, Option.some.injEq] at hw
      subst hw
      obtain ⟨-, -, -, -, sealed, hsealed, -, hvalue, -⟩ :=
        hraised ((raised_iff st z).mpr ⟨r, hr⟩)
      exact ⟨sealed, hsealed, hvalue.trans (Table.find_key hcommit).symm⟩
    obtain ⟨a, ha, hpa⟩ := hcommitted x hx p hp
    obtain ⟨b, hb, hqb⟩ := hcommitted y hy q hq
    rw [hkey, hb] at ha
    rw [← hpa, ← hqb, Option.some.inj ha]
  · rintro ⟨hcurrent, hapart⟩
    refine ⟨?_, ?_, ?_, tables_reconcileState st, ?_, ?_, ?_, reconcileState_again st⟩
    · intro y hy
      rw [hexecutions] at hy
      obtain ⟨x, -, rfl⟩ := List.mem_map.mp hy
      exact covers_reconciled st x
    · intro y hy
      rw [hexecutions] at hy
      obtain ⟨x, hx, rfl⟩ := List.mem_map.mp hy
      rw [generationNewest_reconcileState, generationNewest_reconciled]
      exact hcurrent x hx
    · rintro x hx ⟨p, hp, hexecution, hcommitted⟩
      obtain ⟨best, hbest, hnewest⟩ := newestProgress_found hp hexecution hcommitted
      refine ⟨best, hnewest, fun commit action hcommit haction => ?_⟩
      clear hp hexecution hcommitted p
      refine ⟨reconciledExecution st x, ?_, ?_, ?_⟩
      · rw [find_execution_reconcileState, (Table.find_eq_some_iff _ _ _).mpr ⟨hx, rfl⟩]
        rfl
      · rw [progressGeneration_reconciled]
        cases hp : promotionOf st x with
        | none =>
          by_contra hlt
          have hmade : promotionOf st x = some ⟨best, commit, action⟩ :=
            promotionOf_eq_some.mpr ⟨hbest, not_le.mp hlt, hcommit, haction⟩
          rw [hp] at hmade
          cases hmade
        | some p =>
          obtain ⟨hbest', -⟩ := promotionOf_eq_some.mp hp
          obtain rfl := Option.some.inj (hbest'.symm.trans hbest)
          exact le_rfl
      · intro hraised
        obtain ⟨p, hp⟩ := (raised_iff st x).mp hraised
        obtain ⟨hbest', -, hcommit', haction'⟩ := promotionOf_eq_some.mp hp
        obtain rfl := Option.some.inj (hbest'.symm.trans hbest)
        obtain rfl := Option.some.inj (hcommit'.symm.trans hcommit)
        have hnext : reconciledExecution st x =
            p.promote (committedCount st x.id) (advancedExecution st x) := by
          rw [reconciledExecution, hp]
        refine ⟨by rw [hnext]; rfl, by rw [hnext]; rfl, by rw [hnext]; rfl, by rw [hnext]; rfl,
          p.action.sealedBy p.commit, promoted_sealed hapart hx hp, rfl, ?_, ?_⟩
        · have hid : p.commit.id = p.progress.commit := Table.find_key hcommit
          exact hid
        · exact mem_repairs_reconcileState.mpr ⟨x, hx, p, hp, rfl⟩
    · rw [hexecutions, List.forall₂_map_right_iff, List.forall₂_same]
      exact fun x _ => broughtForward_reconciled st x
    · rw [hactions, List.forall₂_map_right_iff, List.forall₂_same]
      exact fun a _ => sealed_reconciled st a
    · intro g hg
      obtain ⟨x, hx, p, hp, rfl⟩ := mem_repairs_reconcileState.mp hg
      refine ⟨x, hx, (id_reconciledExecution st x).symm, ?_, (raised_iff st x).mpr ⟨p, hp⟩⟩
      rw [find_execution_reconcileState, (Table.find_eq_some_iff _ _ _).mpr ⟨hx, rfl⟩]
      rfl

/-! ## A re-driven action at a frontier that stays -/

/-- The first execution drives its failed action again; the process is lost before the execution
record of that step is durable. -/
def redrivenRuntime : Runtime :=
  (performAll (failedAfter 1 ++ [.call (.beginAction nextAction)]) {}).crashed 13

/-- What the next process loads. -/
def redrivenState : DurableState :=
  match redrivenRuntime.store.directory with
  | none => {}
  | some d => (loadDirectory d {}).2

/-- The second generation of the action is stored, and the execution keeps the first. -/
theorem redriven_generation_left : ¬ Finishes redrivenState (reconcileState redrivenState) := by
  intro h
  have hcurrent := h.generationsCurrent
  revert hcurrent
  unfold GenerationsCurrent FrontierCovers GenerationNewest
  decide +kernel

end ExecutionFabric
