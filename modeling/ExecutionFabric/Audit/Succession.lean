import ExecutionFabric.Audit.Separation

/-!
# What a transaction leaves of its execution

`Succession j i x y vs` says that a transaction with intent `i` replaces the execution
`x` by `y` and writes the actions, progress records, commits and ambiguities `vs`. An
invariant about an execution and its effects is an analysis of these cases; the records
written on the way, and those of the other tables, are forgotten.
-/
namespace ExecutionFabric

open Lib

/-- The record is an action, a progress record, a commit or an ambiguity. -/
def JournalEntry.isEffect : JournalEntry → Bool
  | .action _ | .progress _ | .commit _ | .ambiguity _ | .commitGroup _ => true
  | _ => false

/-- The actions, progress records, commits and ambiguities among the records. -/
def effectsOf (es : List JournalEntry) : List JournalEntry := es.filter JournalEntry.isEffect

section Lists

variable (e : JournalEntry) (es fs : List JournalEntry)

@[simp] theorem effectsOf_nil : effectsOf [] = [] := rfl

@[simp] theorem effectsOf_append : effectsOf (es ++ fs) = effectsOf es ++ effectsOf fs :=
  List.filter_append es fs

theorem effectsOf_of_idle (h : ∀ e ∈ es, e.isEffect = false) : effectsOf es = [] :=
  List.filter_eq_nil_iff.mpr fun e he => by simp [h e he]

@[simp] theorem effectsOf_map {α : Type} (f : α → JournalEntry) (h : ∀ r, (f r).isEffect = false)
    (rs : List α) : effectsOf (rs.map f) = [] := by
  refine effectsOf_of_idle _ fun e he => ?_
  obtain ⟨r, -, rfl⟩ := List.mem_map.mp he
  exact h r

theorem effectsOf_leaseAs (l : Option LeaseRecord) (state : LeaseState) :
    effectsOf (leaseAs l state) = [] :=
  effectsOf_map _ (fun _ => rfl) _

end Lists

/-- The two images have the same actions, progress records, commits and ambiguities. -/
structure Image.SameEffects (m m' : Image) : Prop where
  actions : m'.actions = m.actions
  progress : m'.progress = m.progress
  commits : m'.commits = m.commits
  ambiguities : m'.ambiguities = m.ambiguities

/-- Only effects change the tables of effects. -/
theorem Image.SameEffects.installAll {m m' : Image} (h : m.SameEffects m')
    (es : List JournalEntry) : (m.installAll (effectsOf es)).SameEffects (m'.installAll es) := by
  induction es generalizing m m' with
  | nil => exact h
  | cons e rest ih =>
    cases e with
    | action a => exact ih { h with actions := congrArg (KeyedMap.insert · a) h.actions }
    | progress p => exact ih { h with progress := congrArg (KeyedMap.insert · p) h.progress }
    | commit c => exact ih { h with commits := congrArg (KeyedMap.insert · c) h.commits }
    | ambiguity amb =>
      exact ih { h with ambiguities := congrArg (KeyedMap.insert · amb) h.ambiguities }
    | commitGroup g =>
      exact ih ⟨congrArg (KeyedMap.insert · g.action) h.actions,
        congrArg (KeyedMap.insert · g.progress) h.progress,
        congrArg (KeyedMap.insert · g.commit) h.commits, h.ambiguities⟩
    | _ => exact ih { h with }

theorem Image.effects_installAll (m : Image) (es : List JournalEntry) :
    (m.installAll (effectsOf es)).SameEffects (m.installAll es) :=
  Image.SameEffects.installAll ⟨rfl, rfl, rfl, rfl⟩ es

/-- The execution a recovery that follows its plan leaves of `next`. -/
def recoveredFrom (j : Journaled) (x next : ExecutionRecord) : ExecutionRecord :=
  recoveredExecution j.state x (atPlannedCheckpoint next (planOf j x)) (planOf j x)

/-- The execution a lost worker leaves. -/
def fencedExecution (x : ExecutionRecord) : ExecutionRecord :=
  let next := if isLegalTransition x.lifecycle .fenced = true then { x with lifecycle := .fenced }
    else x
  if x.lease.valid = true then next.withoutLease else next

/-- The continuation a registered checkpoint mints. -/
def checkpointContinuation (j : Journaled) (x : ExecutionRecord) (c : CheckpointRecord) :
    ContinuationRecord :=
  mintContinuation (j.write (newCheckpointRecords x c)).state x (checkpointedExecution x c) .valid
    x.actionFrontier

inductive Succession (j : Journaled) :
    Intent → ExecutionRecord → ExecutionRecord → List JournalEntry → Prop
  | updatePolicy {x : ExecutionRecord} (generation : Nat)
      (hgeneration : generation = x.policyGeneration + 1) :
      Succession j (.updatePolicy x.id) x (underPolicy x generation) []
  | bind {x : ExecutionRecord} (request : BindWorkerRequest)
      (hbindable : isBindable x.lifecycle = true)
      (hlive : x.lease.valid = true → x.boot ≠ request.boot → activeLease j.state x = none) :
      Succession j (.bind x.id) x (boundExecution j.state x request) []
  | start {x : ExecutionRecord} {l : LeaseRecord} (token : LeaseToken)
      (htoken : validateToken j.state token = .ok (x, l)) (hready : x.lifecycle = .ready) :
      Succession j (.start x.id) x ((startedExecution j.state x).continuedBy
        (mintContinuation j.state (startedExecution j.state x) (startedExecution j.state x) .valid
          x.actionFrontier)) []
  | begin {x : ExecutionRecord} {l : LeaseRecord} (request : BeginActionRequest)
      (htoken : validateToken j.state request.token = .ok (x, l)) (hrunning : x.lifecycle = .running)
      (hblocked : x.blocked = true →
        (begunAction x request (redriven x (j.latestAction x.id))).sequence
          ≤ x.blockedAboveOrdinal) :
      Succession j (.begin x.id) x
        (dispatched x (begunAction x request (redriven x (j.latestAction x.id)))
          (redriven x (j.latestAction x.id)))
        [.action (begunAction x request (redriven x (j.latestAction x.id)))]
  | complete {x : ExecutionRecord} {l : LeaseRecord} {a : ActionRecord}
      (request : CompleteActionRequest)
      (htoken : validateToken j.state request.token = .ok (x, l)) (hrunning : x.lifecycle = .running)
      (ha : j.state.findAction request.action request.actionGeneration = some a)
      (hdefect : completionDefect x request a = none) :
      Succession j (.complete x.id request.request ⟨request.action, request.actionGeneration⟩) x
        (commitGroupOf j.state x a request.request request.evidence).execution
        [.commitGroup (commitGroupOf j.state x a request.request request.evidence)]
  | fail {x : ExecutionRecord} {l : LeaseRecord} {a : ActionRecord} (request : FailActionRequest)
      (htoken : validateToken j.state request.token = .ok (x, l))
      (ha : j.state.findAction request.action request.actionGeneration = some a)
      (hambiguous : a.status ≠ .ambiguous) :
      Succession j (.fail x.id ⟨request.action, request.actionGeneration⟩) x x
        [.action { a with status := .failed, receipt := request.evidence }]
  | report {x : ExecutionRecord} {l : LeaseRecord} {a : ActionRecord}
      (request : ReportSideEffectRequest)
      (htoken : validateToken j.state request.token = .ok (x, l))
      (ha : j.state.findAction request.action request.actionGeneration = some a)
      (hambiguous : a.status ≠ .ambiguous) :
      Succession j (.report x.id ⟨request.action, request.actionGeneration⟩ request.applied) x x
        [.action (receipted a request.applied request.evidence)]
  | enterCheckpoint {x : ExecutionRecord} {l : LeaseRecord} (token : LeaseToken)
      (htoken : validateToken j.state token = .ok (x, l))
      (hlifecycle : x.lifecycle = .running ∨ x.lifecycle = .checkpointing) :
      Succession j (.checkpoint x.id) x { x with lifecycle := .checkpointing } []
  | checkpoint {x : ExecutionRecord} {l : LeaseRecord} {depth : Nat}
      (request : RegisterCheckpointRequest)
      (htoken : validateToken j.state request.token = .ok (x, l))
      (hlifecycle : x.lifecycle = .running ∨ x.lifecycle = .checkpointing) :
      Succession j (.checkpoint x.id) x
        ((checkpointedExecution x (registeredCheckpoint j.state x request depth)).continuedBy
          (checkpointContinuation j x (registeredCheckpoint j.state x request depth))) []
  | enterResume {x : ExecutionRecord} {l : LeaseRecord} (request : ResumeRequest)
      (htoken : validateToken j.state request.token = .ok (x, l))
      (hresumable : isResumable x.lifecycle = true) (hrecovery : recoveryDefect j.state x = none) :
      Succession j (.resume x.id) x (resumingExecution j.state x request.observedBindings) []
  | resume {x : ExecutionRecord} {l : LeaseRecord} (request : ResumeRequest)
      (htoken : validateToken j.state request.token = .ok (x, l))
      (hresumable : isResumable x.lifecycle = true) (hrecovery : recoveryDefect j.state x = none)
      (hvalid : (validateContinuationState (resumingState j x request.observedBindings)
        (resumedContinuation j x request.observedBindings)).1 = .valid) :
      Succession j (.resume x.id) x
        (({ resumingExecution j.state x request.observedBindings with
          lifecycle := .running } : ExecutionRecord).continuedBy
          (resumedContinuation j x request.observedBindings)) []
  | recoverPlain {x : ExecutionRecord} (hlive : isTerminalState x.lifecycle = false)
      (hopens : opensAmbiguity (planOf j x).decision = true →
        plannedAction j.state (planOf j x) = none)
      (hreceipt : (planOf j x).commitFromReceipt = true →
        plannedAction j.state (planOf j x) = none) :
      Succession j (.recover x.id) x (recoveredFrom j x x) []
  | recoverAmbiguous {x : ExecutionRecord} {a : ActionRecord}
      (hlive : isTerminalState x.lifecycle = false)
      (hopens : opensAmbiguity (planOf j x).decision = true)
      (ha : plannedAction j.state (planOf j x) = some a) :
      Succession j (.recover x.id) x
        (recoveredFrom j x (blockedBy j.state x (recordedAmbiguity j.state x (planOf j x) a) a))
        [.ambiguity (recordedAmbiguity j.state x (planOf j x) a),
          .action { a with status := .ambiguous }]
  | recoverCommit {x : ExecutionRecord} {a : ActionRecord} (request : RequestId)
      (hlive : isTerminalState x.lifecycle = false)
      (hreceipt : (planOf j x).commitFromReceipt = true)
      (ha : plannedAction j.state (planOf j x) = some a) :
      Succession j (.recover x.id) x
        (recoveredFrom j x (commitGroupOf j.state x a request a.receipt).execution)
        [.commitGroup (commitGroupOf j.state x a request a.receipt)]
  | resolveCommit {x : ExecutionRecord} {amb : AmbiguityRecord} {a : ActionRecord}
      (request : ResolveAmbiguityRequest)
      (hamb : j.state.ambiguities.find request.ambiguity = some amb)
      (howner : amb.execution = x.id) (hopen : ambiguityIsOpen amb.state = true)
      (ha : j.state.actions.find amb.actionKey = some a)
      (hresolution : request.resolution = .resolvedApplied ∨ request.resolution = .accepted) :
      Succession j (.resolve x.id amb.id request.resolution) x
        (commitGroupOf j.state x a request.request request.evidence).execution.unblocked
        [.commitGroup (commitGroupOf j.state x a request.request request.evidence),
          .ambiguity (resolvedAmbiguity amb request)]
  | resolveAction {x : ExecutionRecord} {amb : AmbiguityRecord} {a : ActionRecord}
      (request : ResolveAmbiguityRequest) (status : ActionStatus)
      (hamb : j.state.ambiguities.find request.ambiguity = some amb)
      (howner : amb.execution = x.id) (hopen : ambiguityIsOpen amb.state = true)
      (ha : j.state.actions.find amb.actionKey = some a)
      (hresolution : (request.resolution = .resolvedNotApplied ∧ status = .failed) ∨
        (request.resolution = .abandoned ∧ status = .abandoned)) :
      Succession j (.resolve x.id amb.id request.resolution) x x.unblocked
        [.action { a with status := status, receipt := request.evidence },
          .ambiguity (resolvedAmbiguity amb request)]
  | resolveManual {x : ExecutionRecord} {amb : AmbiguityRecord} {a : ActionRecord}
      (request : ResolveAmbiguityRequest)
      (hamb : j.state.ambiguities.find request.ambiguity = some amb)
      (howner : amb.execution = x.id) (hopen : ambiguityIsOpen amb.state = true)
      (ha : j.state.actions.find amb.actionKey = some a)
      (hresolution : request.resolution = .manualResolutionRequired) :
      Succession j (.resolve x.id amb.id request.resolution) x { x with blocked := true }
        [.ambiguity (resolvedAmbiguity amb request)]
  | transition {x : ExecutionRecord} (target : Lifecycle)
      (hlegal : isLegalTransition x.lifecycle target = true) :
      Succession j (.transition x.id target) x (transitioned j.state x target) []
  | advance {x : ExecutionRecord} (hlive : isTerminalState x.lifecycle = false) :
      Succession j (.advance x.id) x { nextGeneration x with epoch := j.state.epoch } []
  | lose {x : ExecutionRecord} (hlive : isTerminalState x.lifecycle = false) :
      Succession j (.lose x.id) x (fencedExecution x) []

/-- What a transaction leaves of its execution and of the tables of effects. -/
inductive Outline (j : Journaled) (i : Intent) (es : List JournalEntry) : Prop
  | created (hi : i = .create) (policy : ExecutionPolicy)
      (hes : es = [.storeMeta (advancedMeta j.state), .policy policy,
        .execution (createdExecution j.state)])
  | succeeded {x y : ExecutionRecord} {vs : List JournalEntry}
      (hx : j.state.executions.find x.id = some x) (hsuccession : Succession j i x y vs)
      (hexecutions : (j.write es).state.image.executions = j.state.image.executions.insert y)
      (heffects : (j.state.image.installAll vs).SameEffects (j.write es).state.image)
      (hvs : effectsOf es = vs)

section Outlines

variable {j : Journaled} {x : ExecutionRecord}

theorem outline_of {i : Intent} {es vs : List JournalEntry} {y : ExecutionRecord}
    (ys : List ExecutionRecord) (hx : j.state.executions.find x.id = some x)
    (hsuccession : Succession j i x y vs) (hys : executionsOf es = ys ++ [y])
    (hids : ∀ y' ∈ ys, y'.id = y.id) (heffects : effectsOf es = vs) : Outline j i es := by
  subst heffects
  refine .succeeded hx hsuccession ?_ ?_ rfl
  · rw [Journaled.image_write, Image.executions_installAll, hys, KeyedMap.insertAll_concat _ hids]
  · rw [Journaled.image_write]
    exact Image.effects_installAll _ es

theorem outline_idle {i : Intent} {es vs : List JournalEntry}
    (hx : j.state.executions.find x.id = some x) (hsuccession : Succession j i x x vs)
    (hexecutions : executionsOf es = []) (heffects : effectsOf es = vs) : Outline j i es := by
  subst heffects
  refine .succeeded hx hsuccession ?_ ?_ rfl
  · rw [Journaled.image_write, Image.executions_installAll, hexecutions,
      KeyedMap.insert_stored (show j.state.image.executions x.id = some x from hx)]
    rfl
  · rw [Journaled.image_write]
    exact Image.effects_installAll _ es

theorem effectsOf_continuationRecords (st : DurableState) (y : ExecutionRecord)
    (c : ContinuationRecord) : effectsOf (continuationRecords st y c) = [] := by
  unfold continuationRecords
  rw [effectsOf_append, effectsOf_map _ fun _ => rfl]
  rfl

theorem effectsOf_enterCheckpointing (x : ExecutionRecord) :
    effectsOf (enterCheckpointing x) = [] := by
  unfold enterCheckpointing
  split <;> rfl

theorem effectsOf_demotionRecords (j : Journaled) (x : ExecutionRecord) (c : CheckpointRecord) :
    effectsOf (demotionRecords j x c) = [] := by
  unfold demotionRecords newCheckpointRecords
  rw [effectsOf_append, effectsOf_append, effectsOf_enterCheckpointing, effectsOf_map _ fun _ => rfl]
  rfl

theorem executionsOf_demotionRecords (j : Journaled) (x : ExecutionRecord) (c : CheckpointRecord) :
    executionsOf (demotionRecords j x c) = executionsOf (enterCheckpointing x) := by
  unfold demotionRecords newCheckpointRecords
  rw [executionsOf_append, executionsOf_append, (of_map_checkpoint _).1]
  simp [JournalEntry.executions]

theorem enterCheckpoint_outline {l : LeaseRecord} (token : LeaseToken)
    (htoken : validateToken j.state token = .ok (x, l))
    (hlifecycle : x.lifecycle = .running ∨ x.lifecycle = .checkpointing) :
    Outline j (.checkpoint x.id) (enterCheckpointing x) := by
  have hsuccession := Succession.enterCheckpoint token htoken hlifecycle
  by_cases hrunning : x.lifecycle = .running
  · have hes : enterCheckpointing x = [.execution { x with lifecycle := .checkpointing }] :=
      if_pos hrunning
    rw [hes]
    exact outline_of [] (token_execution htoken) hsuccession rfl (fun y' hy' => by cases hy') rfl
  · have hes : enterCheckpointing x = [] := if_neg hrunning
    have hsame : { x with lifecycle := .checkpointing } = x := by
      rw [← hlifecycle.resolve_left hrunning]
    rw [hsame] at hsuccession
    rw [hes]
    exact outline_idle (token_execution htoken) hsuccession rfl rfl

theorem lose_outline (hx : j.state.executions.find x.id = some x)
    (hlive : isTerminalState x.lifecycle = false) :
    Outline j (.lose x.id) (fenceRecords j.state x) := by
  have hsuccession : Succession j (.lose x.id) x (fencedExecution x) [] := .lose hlive
  unfold fencedExecution at hsuccession
  dsimp only at hsuccession
  unfold fenceRecords
  split
  next hidle =>
    rw [if_neg (by simp [hidle.2]), if_neg (by simp [hidle.1])] at hsuccession
    exact outline_idle hx hsuccession rfl rfl
  next =>
    dsimp only
    split
    next hvalid =>
      rw [if_pos hvalid] at hsuccession
      refine outline_of [] hx hsuccession ?_ (fun y' hy' => by cases hy') ?_
      · simp [JournalEntry.executions]
      · rw [effectsOf_append, effectsOf_leaseAs]
        rfl
    next hnone =>
      rw [if_neg hnone] at hsuccession
      exact outline_of [] hx hsuccession rfl (fun y' hy' => by cases hy') rfl

theorem begin_effects (x : ExecutionRecord) (a : ActionRecord) (replayed : Option ActionRecord)
    (replay : ActionRecord → ReplayRecord) :
    executionsOf (replayed.toList.map (fun r => .replay (replay r)) ++
        [.action a, .execution (dispatched x a replayed)]) = [dispatched x a replayed] ∧
      effectsOf (replayed.toList.map (fun r => .replay (replay r)) ++
        [.action a, .execution (dispatched x a replayed)]) = [.action a] := by
  cases replayed <;> exact ⟨rfl, rfl⟩

/-- The records of a resolution that commits. -/
theorem outline_of_unblocked {i : Intent} (hx : j.state.executions.find x.id = some x)
    (g : CommitGroupRecord) (amb : AmbiguityRecord)
    (hsuccession : Succession j i x g.execution.unblocked [.commitGroup g, .ambiguity amb]) :
    Outline j i [.commitGroup g, .ambiguity amb, .execution g.execution.unblocked] := by
  refine outline_of [g.execution] hx hsuccession rfl ?_ rfl
  intro y' hy'
  rw [List.mem_singleton.mp hy']
  rfl

end Outlines

theorem Transaction.outline {j : Journaled} {i : Intent} {es : List JournalEntry}
    (ht : Transaction j i es) : Outline j i es := by
  cases ht with
  | create policy hid => exact .created rfl policy rfl
  | @updatePolicy x policy hx hgeneration =>
    refine outline_of [] hx (.updatePolicy policy.generation hgeneration) ?_
      (fun y' hy' => by cases hy') ?_
    · simp [JournalEntry.executions]
    · show effectsOf (leaseAs (heldLease j.state x) .revoked ++ _ ++ _) = []
      rw [effectsOf_append, effectsOf_append, effectsOf_leaseAs, effectsOf_map _ fun _ => rfl]
      rfl
  | @bind x request hx hworker hboot hbindable hlive =>
    refine outline_of [] hx (.bind request hbindable hlive) ?_ (fun y' hy' => by cases hy') ?_
    · simp [JournalEntry.executions]
    · rw [effectsOf_append, effectsOf_leaseAs]
      rfl
  | @start x l token htoken hready =>
    exact outline_of [] (token_execution htoken) (.start token htoken hready)
      (executions_continuationRecords _ _ _) (fun y' hy' => by cases hy')
      (effectsOf_continuationRecords _ _ _)
  | @begin x l request htoken hrunning hblocked =>
    obtain ⟨hexecutions, heffects⟩ := begin_effects x
      (begunAction x request (redriven x (j.latestAction x.id))) (redriven x (j.latestAction x.id))
      fun a => admittedReplay j.state x request a
        (begunAction x request (redriven x (j.latestAction x.id)))
    exact outline_of [] (token_execution htoken) (.begin request htoken hrunning hblocked)
      hexecutions (fun y' hy' => by cases hy') heffects
  | @complete x l a request htoken hrunning ha hfresh hdefect hcommit =>
    exact outline_of [] (token_execution htoken) (.complete request htoken hrunning ha hdefect) rfl
      (fun y' hy' => by cases hy') rfl
  | @fail x l a request htoken ha howner hcommitted hambiguous =>
    exact outline_idle (token_execution htoken) (.fail request htoken ha hambiguous) rfl rfl
  | @report x l a request htoken ha hcommitted hambiguous habandoned =>
    exact outline_idle (token_execution htoken) (.report request htoken ha hambiguous) rfl rfl
  | @enterCheckpoint x l request htoken hlifecycle =>
    exact enterCheckpoint_outline request.token htoken hlifecycle
  | @checkpoint x l depth request htoken hlifecycle hdepth =>
    refine outline_of (executionsOf (enterCheckpointing x)) (token_execution htoken)
      (@Succession.checkpoint j x l depth request htoken hlifecycle) ?_
      (executions_enterCheckpointing x) ?_
    · unfold checkpointRecords
      rw [executionsOf_append, executionsOf_demotionRecords, executions_continuationRecords]
      rfl
    · unfold checkpointRecords
      rw [effectsOf_append, effectsOf_demotionRecords, effectsOf_continuationRecords]
      rfl
  | @enterResume x l request htoken hresumable hrecovery =>
    exact outline_of [] (token_execution htoken)
      (.enterResume request htoken hresumable hrecovery) rfl (fun y' hy' => by cases hy') rfl
  | @resume x l request htoken hresumable hrecovery hvalid =>
    refine outline_of [resumingExecution j.state x request.observedBindings]
      (token_execution htoken) (.resume request htoken hresumable hrecovery hvalid) ?_ ?_ ?_
    · unfold resumeRecords
      rw [executionsOf_cons, executions_continuationRecords]
      rfl
    · intro y' hy'
      rw [List.mem_singleton.mp hy']
      rfl
    · exact effectsOf_continuationRecords _ _ _
  | @recoverPlain x hx hlive hopens hreceipt =>
    exact outline_of [] hx (.recoverPlain hlive hopens hreceipt) rfl (fun y' hy' => by cases hy') rfl
  | @recoverAmbiguous x a hx hlive hopens ha =>
    exact outline_of [] hx (.recoverAmbiguous hlive hopens ha) rfl (fun y' hy' => by cases hy') rfl
  | @recoverCommit x a request hx hlive hreceipt ha hcommit =>
    refine outline_of [(commitGroupOf j.state x a request a.receipt).execution] hx
      (.recoverCommit request hlive hreceipt ha) rfl ?_ rfl
    intro y' hy'
    rw [List.mem_singleton.mp hy']
    exact (id_atPlannedCheckpoint _ _).symm
  | @resolveCommit x amb a request hx hamb howner hopen ha hresolution hcommit =>
    exact outline_of_unblocked hx _ _
      (.resolveCommit request hamb howner hopen ha hresolution)
  | @resolveAction x amb a request status hx hamb howner hopen ha hresolution =>
    exact outline_of [] hx (.resolveAction request status hamb howner hopen ha hresolution) rfl
      (fun y' hy' => by cases hy') rfl
  | @resolveManual x amb a request hx hamb howner hopen ha hresolution =>
    exact outline_of [] hx (.resolveManual request hamb howner hopen ha hresolution) rfl
      (fun y' hy' => by cases hy') rfl
  | @transition x target hx hlegal hambiguity =>
    refine outline_of [] hx (.transition target hlegal) ?_ (fun y' hy' => by cases hy') ?_
    · rw [executionsOf_append]
      split
      · rw [executions_leaseAs]
        rfl
      · rfl
    · rw [effectsOf_append]
      split
      · rw [effectsOf_leaseAs]
        rfl
      · rfl
  | @advance x hx hlive =>
    refine outline_of [] hx (.advance hlive) ?_ (fun y' hy' => by cases hy') ?_
    · simp [JournalEntry.executions]
    · rw [effectsOf_append, effectsOf_append, effectsOf_leaseAs, effectsOf_map _ fun _ => rfl]
      rfl
  | @lose x hx hlive => exact lose_outline hx hlive

section Fields

variable {j : Journaled} {x : ExecutionRecord}

theorem id_unblocked {y : ExecutionRecord} (h : y.id = x.id) : y.unblocked.id = x.id := h

/-- A transaction other than a creation keeps the identity of its execution. -/
theorem Succession.id {i : Intent} {y : ExecutionRecord} {vs : List JournalEntry}
    (h : Succession j i x y vs) : y.id = x.id := by
  have hrecovered : ∀ next : ExecutionRecord, (recoveredFrom j x next).id = next.id :=
    fun next => id_atPlannedCheckpoint next _
  cases h with
  | updatePolicy generation hgeneration =>
    unfold underPolicy
    dsimp only
    split
    · split <;> rfl
    · rfl
  | bind request hbindable hlive =>
    unfold boundExecution incarnated
    split <;> rfl
  | complete request htoken hrunning ha hdefect =>
    exact (commitGroupOf_promotes _ _ _ _ _).authority.1.id
  | resolveCommit request hamb howner hopen ha hresolution =>
    exact id_unblocked (commitGroupOf_promotes _ _ _ _ _).authority.1.id
  | recoverPlain hlive hopens hreceipt => exact hrecovered x
  | recoverAmbiguous hlive hopens ha =>
    exact (hrecovered _).trans (blockedBy_authority _ _ _).1.id
  | recoverCommit request hlive hreceipt ha =>
    exact (hrecovered _).trans (commitGroupOf_promotes _ _ _ _ _).authority.1.id
  | transition target hlegal =>
    unfold transitioned
    dsimp only
    split <;> rfl
  | advance hlive =>
    unfold nextGeneration
    dsimp only
    split <;> rfl
  | lose hlive =>
    unfold fencedExecution
    dsimp only
    split <;> split <;> rfl
  | _ => rfl

end Fields

end ExecutionFabric
