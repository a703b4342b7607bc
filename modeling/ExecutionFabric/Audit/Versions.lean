import ExecutionFabric.Audit.Succession

/-!
# Every version a transaction writes

A transaction may write its execution more than once: a crash in between leaves an earlier
version behind. Each version is a new execution, the outcome of a step from the stored one,
or the promotion of a commit group.
-/
namespace ExecutionFabric

open Lib

/-- Where a written execution record comes from. -/
inductive Version (j : Journaled) (i : Intent) (y : ExecutionRecord) : Prop
  | created (hi : i = .create) (hy : y = createdExecution j.state)
  | succeeded {x : ExecutionRecord} {vs : List JournalEntry}
      (hx : j.state.executions.find x.id = some x) (hsuccession : Succession j i x y vs)
  | promoted {x : ExecutionRecord} {a : ActionRecord} {g : CommitGroupRecord}
      (hx : j.state.executions.find x.id = some x) (hg : Promotes x a g)
      (hepoch : g.execution.epoch = j.state.epoch) (hy : y = g.execution)

section Versions

variable {j : Journaled} {i : Intent} {x : ExecutionRecord} {es : List JournalEntry}

/-- A transaction that writes its execution once. -/
theorem versions_single {y : ExecutionRecord} {vs : List JournalEntry}
    (hx : j.state.executions.find x.id = some x) (hsuccession : Succession j i x y vs)
    (hys : executionsOf es = [y]) : ∀ y' ∈ executionsOf es, Version j i y' := by
  intro y' hy'
  rw [hys, List.mem_singleton] at hy'
  exact hy' ▸ .succeeded hx hsuccession

theorem versions_none (hys : executionsOf es = []) : ∀ y' ∈ executionsOf es, Version j i y' := by
  intro y' hy'
  rw [hys] at hy'
  cases hy'

/-- A transaction that promotes a commit group and then writes the execution again. -/
theorem versions_promoted {y : ExecutionRecord} {a : ActionRecord} {g : CommitGroupRecord}
    {vs : List JournalEntry} (hx : j.state.executions.find x.id = some x) (hg : Promotes x a g)
    (hepoch : g.execution.epoch = j.state.epoch) (hsuccession : Succession j i x y vs)
    (hys : executionsOf es = [g.execution, y]) :
    ∀ y' ∈ executionsOf es, Version j i y' := by
  intro y' hy'
  rw [hys, List.mem_cons, List.mem_singleton] at hy'
  rcases hy' with rfl | rfl
  · exact .promoted hx hg hepoch rfl
  · exact .succeeded hx hsuccession

theorem versions_enterCheckpointing {l : LeaseRecord} (token : LeaseToken)
    (htoken : validateToken j.state token = .ok (x, l))
    (hlifecycle : x.lifecycle = .running ∨ x.lifecycle = .checkpointing) :
    ∀ y' ∈ executionsOf (enterCheckpointing x), Version j (.checkpoint x.id) y' := by
  unfold enterCheckpointing
  split
  · exact versions_single (token_execution htoken) (.enterCheckpoint token htoken hlifecycle) rfl
  · exact versions_none rfl

theorem versions_fenceRecords (hx : j.state.executions.find x.id = some x)
    (hlive : isTerminalState x.lifecycle = false) :
    ∀ y' ∈ executionsOf (fenceRecords j.state x), Version j (.lose x.id) y' := by
  have hsuccession : Succession j (.lose x.id) x (fencedExecution x) [] := .lose hlive
  unfold fencedExecution at hsuccession
  dsimp only at hsuccession
  unfold fenceRecords
  split
  next => exact versions_none rfl
  next =>
    dsimp only
    split
    next hvalid =>
      rw [if_pos hvalid] at hsuccession
      refine versions_single hx hsuccession ?_
      simp [JournalEntry.executions]
    next hnone =>
      rw [if_neg hnone] at hsuccession
      exact versions_single hx hsuccession rfl

end Versions

theorem Transaction.versions {j : Journaled} {i : Intent} {es : List JournalEntry}
    (ht : Transaction j i es) : ∀ y ∈ executionsOf es, Version j i y := by
  cases ht with
  | create policy hid =>
    intro y hy
    rw [List.mem_singleton.mp hy]
    exact .created rfl rfl
  | @updatePolicy x policy hx hgeneration =>
    refine versions_single hx (.updatePolicy policy.generation hgeneration) ?_
    simp [JournalEntry.executions]
  | @bind x request hx hworker hboot hbindable hlive =>
    refine versions_single hx (.bind request hbindable hlive) ?_
    simp [JournalEntry.executions]
  | @start x l token htoken hready =>
    exact versions_single (token_execution htoken) (.start token htoken hready)
      (executions_continuationRecords _ _ _)
  | @begin x l request htoken hrunning hblocked =>
    exact versions_single (token_execution htoken) (.begin request htoken hrunning hblocked)
      (begin_effects x _ _ _).1
  | @complete x l a request htoken hrunning ha hfresh hdefect hcommit =>
    exact versions_single (token_execution htoken)
      (.complete request htoken hrunning ha hdefect) rfl
  | fail request htoken ha howner hcommitted hambiguous => exact versions_none rfl
  | report request htoken ha hcommitted hambiguous habandoned => exact versions_none rfl
  | enterCheckpoint request htoken hlifecycle =>
    exact versions_enterCheckpointing request.token htoken hlifecycle
  | @checkpoint x l depth request htoken hlifecycle hdepth =>
    intro y hy
    unfold checkpointRecords at hy
    rw [executionsOf_append, executionsOf_demotionRecords, executions_continuationRecords] at hy
    rcases List.mem_append.mp hy with hy | hy
    · exact versions_enterCheckpointing request.token htoken hlifecycle y hy
    · rw [List.mem_singleton.mp hy]
      exact .succeeded (token_execution htoken)
        (@Succession.checkpoint j x l depth request htoken hlifecycle)
  | @enterResume x l request htoken hresumable hrecovery =>
    exact versions_single (token_execution htoken)
      (.enterResume request htoken hresumable hrecovery) rfl
  | @resume x l request htoken hresumable hrecovery hvalid =>
    intro y hy
    unfold resumeRecords at hy
    rw [executionsOf_cons, executions_continuationRecords] at hy
    rcases List.mem_append.mp hy with hy | hy
    · rw [List.mem_singleton.mp hy]
      exact .succeeded (token_execution htoken) (.enterResume request htoken hresumable hrecovery)
    · rw [List.mem_singleton.mp hy]
      exact .succeeded (token_execution htoken) (.resume request htoken hresumable hrecovery hvalid)
  | @recoverPlain x hx hlive hopens hreceipt =>
    exact versions_single hx (.recoverPlain hlive hopens hreceipt) rfl
  | @recoverAmbiguous x a hx hlive hopens ha =>
    exact versions_single hx (.recoverAmbiguous hlive hopens ha) rfl
  | @recoverCommit x a request hx hlive hreceipt ha hcommit =>
    exact versions_promoted hx (commitGroupOf_promotes _ _ _ _ _) rfl
      (.recoverCommit request hlive hreceipt ha) rfl
  | @resolveCommit x amb a request hx hamb howner hopen ha hresolution hcommit =>
    exact versions_promoted hx (commitGroupOf_promotes _ _ _ _ _) rfl
      (.resolveCommit request hamb howner hopen ha hresolution) rfl
  | @resolveAction x amb a request status hx hamb howner hopen ha hresolution =>
    exact versions_single hx (.resolveAction request status hamb howner hopen ha hresolution) rfl
  | @resolveManual x amb a request hx hamb howner hopen ha hresolution =>
    exact versions_single hx (.resolveManual request hamb howner hopen ha hresolution) rfl
  | @transition x target hx hlegal hambiguity =>
    refine versions_single hx (.transition target hlegal) ?_
    rw [executionsOf_append]
    split
    · rw [executions_leaseAs]
      rfl
    · rfl
  | @advance x hx hlive =>
    refine versions_single hx (.advance hlive) ?_
    simp [JournalEntry.executions]
  | lose hx hlive => exact versions_fenceRecords hx hlive

end ExecutionFabric
