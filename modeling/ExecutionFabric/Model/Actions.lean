import ExecutionFabric.Model.Operations

/-!
# Actions

An action is begun under a durable identity, and its outcome is a commit, a
failure or a receipt. A failed frontier action is re-driven as the same logical
action under a new generation.
-/
namespace ExecutionFabric

open Lib Program

variable [AppendLimit]

structure BeginActionRequest where
  request : RequestId := .nil
  token : LeaseToken := {}
  effectClass : SideEffectClass := .unknown
  requestKey : Bytes := []
  evidence : Evidence := {}
  deriving DecidableEq, Repr

structure BeginActionResult where
  action : ActionId := .nil
  actionGeneration : Nat := 0
  ordinal : Nat := 0
  attempt : AttemptId := .nil
  attemptGeneration : Nat := 0
  effectId : SideEffectId := .nil
  effectGeneration : Nat := 0
  deriving DecidableEq, Repr

/-- The frontier action that is to be re-driven, if its durable outcome is a failure. -/
def redriven (x : ExecutionRecord) (latest : Option ActionRecord) : Option ActionRecord :=
  latest.filter fun a =>
    a.sequence = x.actionFrontier ∧ (a.status = .failed ∨ a.status = .effectNotApplied)

/-- The action `begin_action` dispatches: a new ordinal, or a new generation of `replayed`. -/
def begunAction (x : ExecutionRecord) (request : BeginActionRequest)
    (replayed : Option ActionRecord) : ActionRecord :=
  let ordinal := match replayed with
    | some _ => x.actionFrontier
    | none => x.actionFrontier + 1
  let generation := match replayed with
    | some a => a.generation + 1
    | none => 1
  { id := deriveActionId x.id ordinal
    generation := generation
    execution := x.id
    executionGeneration := x.generation
    incarnationGeneration := x.incarnationGeneration
    sequence := ordinal
    attempt := deriveAttemptId (deriveActionId x.id ordinal) 1
    attemptGeneration := 1
    effectClass := request.effectClass
    requestKey := request.requestKey
    status := .inFlight
    effectId := deriveSideEffectId x.id (deriveActionId x.id ordinal) generation
    effectGeneration := 1
    receipt := request.evidence
    replayGeneration := match replayed with
      | some a => a.replayGeneration + 1
      | none => 0
    replayedFrom := match replayed with
      | some a => a.id
      | none => .nil
    replayedFromGeneration := match replayed with
      | some a => a.generation
      | none => 0
    dispatchCount := 1 }

/-- The replay record that admits re-driving `replayed` as `action`. -/
def admittedReplay (st : DurableState) (x : ExecutionRecord) (request : BeginActionRequest)
    (replayed action : ActionRecord) : ReplayRecord :=
  { id := deriveReplayId action.id action.replayGeneration
    generation := action.replayGeneration
    execution := x.id
    executionGeneration := x.generation
    action := replayed.id
    actionGeneration := replayed.generation
    newAction := action.id
    newActionGeneration := action.generation
    effectClass := action.effectClass
    requestKey := action.requestKey
    progressGeneration := x.progressGeneration
    checkpointGeneration := x.checkpointGeneration
    policyGeneration := x.policyGeneration
    epoch := st.epoch
    status := .admitted
    evidence := request.evidence }

/-- The execution with its frontier at the begun action. -/
def dispatched (x : ExecutionRecord) (action : ActionRecord) (replayed : Option ActionRecord) :
    ExecutionRecord :=
  { x with
    actionFrontier := action.sequence
    actionGeneration := action.generation
    blocked := false
    blockedAboveOrdinal := 0
    replayCount := match replayed with
      | some _ => x.replayCount + 1
      | none => x.replayCount }

def beginAction (request : BeginActionRequest) : Op BeginActionResult := do
  let x ← authorize request.token
  let s ← get
  match lookupRequest s request.request with
  | some cached =>
    match s.state.findLatestAction ⟨cached.a⟩ with
    | some a => return {
        action := ⟨cached.a⟩
        actionGeneration := a.generation
        ordinal := cached.b.toNat
        attempt := a.attempt
        attemptGeneration := a.attemptGeneration
        effectId := a.effectId
        effectGeneration := a.effectGeneration }
    | none => return { action := ⟨cached.a⟩, ordinal := cached.b.toNat }
  | none =>
    refuseIf (x.lifecycle ≠ .running)
      (err .lifecycleRefused ("cannot begin an action while the execution is " ++
        lifecycleName x.lifecycle))
    refuseIf (requiresRequestKey request.effectClass = true ∧ request.requestKey = [])
      (err .invalidArgument "side-effect class REPEATABLE_WITH_KEY requires a stable request key")
    refuseIf (request.requestKey.length > 512)
      (err .limitExceeded "request key exceeds 512 bytes")
    let policy := policyOf s.state x
    refuseIf (policyHas policy (fun p => p.maxActionHistory.toNat ≤ x.actionFrontier) = true)
      (err .limitExceeded "action history has reached the policy bound; compact the execution")
    let replayed := redriven x (s.latestAction x.id)
    let action := begunAction x request replayed
    refuseIf (replayed.isSome = true ∧
        policyHas policy (fun p => p.maxReplayDepth.toNat < action.generation) = true)
      (err .policyRefused "the replay depth bound for this action identity has been reached")
    refuseIf (policyHas policy (fun p => p.maxReplayRecords.toNat ≤ x.replayCount) = true)
      (err .limitExceeded "the replay record bound has been reached")
    refuseIf (x.blocked = true ∧ action.sequence > x.blockedAboveOrdinal)
      (err .unresolvedAmbiguity ("progress above ordinal " ++ toString x.blockedAboveOrdinal ++
        " is blocked by an unresolved ambiguous action"))
    Op.putAll (replayed.toList.map fun a => .replay (admittedReplay s.state x request a action))
    Op.put (.action action)
    Op.put (.execution (dispatched x action replayed))
    rememberRequest request.request ⟨action.id.value, word action.sequence⟩
    return {
      action := action.id
      actionGeneration := action.generation
      ordinal := action.sequence
      attempt := action.attempt
      attemptGeneration := action.attemptGeneration
      effectId := action.effectId
      effectGeneration := action.effectGeneration }

structure CompleteActionRequest where
  request : RequestId := .nil
  token : LeaseToken := {}
  action : ActionId := .nil
  actionGeneration : Nat := 0
  effectApplied : Bool := true
  evidence : Evidence := {}
  deriving DecidableEq, Repr

structure CompleteActionResult where
  commit : CommitId := .nil
  progress : ProgressId := .nil
  progressGeneration : Nat := 0
  ordinal : Nat := 0
  duplicate : Bool := false
  checkpointDue : Bool := false
  deriving DecidableEq, Repr

/-- The stored action of a Committed completion together with its commit record. -/
def committedResult (st : DurableState) (request : CompleteActionRequest) :
    Option (ActionRecord × Option CommitRecord) :=
  match st.findAction request.action request.actionGeneration with
  | some a => if a.status = .committed then some (a, st.commits.find a.commit) else none
  | none => none

/-- Why a stored action cannot be completed by this execution, if there is a reason. -/
def completionDefect (x : ExecutionRecord) (request : CompleteActionRequest) (a : ActionRecord) :
    Option Status :=
  if a.execution ≠ x.id then
    some (err .invalidArgument "action does not belong to this execution")
  else if a.generation ≠ request.actionGeneration then
    some (err .staleContinuation "action generation does not match the stored action")
  else if a.status = .ambiguous ∨ a.status = .abandoned ∨ a.status = .compensated then
    some (err .unresolvedAmbiguity ("action is " ++ actionStatusName a.status ++
      " and cannot be completed"))
  else if a.status = .effectNotApplied then
    some (err .ambiguousCompletion
      "action holds a durable receipt stating the effect did not apply")
  else if a.status = .failed then
    some (err .ambiguousCompletion "action is recorded as failed")
  else if request.effectApplied = false then
    some (err .invalidArgument
      "complete_action requires an applied effect; use fail_action otherwise")
  else if x.blocked = true ∧ a.sequence > x.blockedAboveOrdinal then
    some (err .unresolvedAmbiguity
      "this action's ordinal is above the execution's unresolved ambiguity")
  else none

/-- The reply `complete_action` gives from the request cache. -/
def cachedCompletion (st : DurableState) (x : ExecutionRecord) (cached : CachedOutcome)
    (action : Option ActionRecord) : CompleteActionResult :=
  { commit := ⟨cached.a⟩
    progress := match action with
      | some _ => ((st.progress.find (deriveProgressId x.id cached.b.toNat)).map (·.id)).getD .nil
      | none => .nil
    progressGeneration := cached.b.toNat
    ordinal := (action.map (·.sequence)).getD 0
    duplicate := true }

/-- `complete_action` past the duplicate path. -/
def completeUncommitted (request : CompleteActionRequest) : Op CompleteActionResult := do
  let s ← get
  let found ← check (validateToken s.state request.token)
  let x := found.1
  let existing := s.state.findAction request.action request.actionGeneration
  match lookupRequest s request.request with
  | some cached => return cachedCompletion s.state x cached existing
  | none =>
    refuseIf (x.lifecycle ≠ .running)
      (err .lifecycleRefused ("cannot complete an action while the execution is " ++
        lifecycleName x.lifecycle))
    let action ← require existing (err .notFound "action is not present in the durable store")
    refuseOn (completionDefect x request action)
    let group ← stageCommit x action request.request request.evidence
    rememberRequest request.request
      ⟨group.commit.id.value, word group.commit.progressGeneration⟩
    return {
      commit := group.commit.id
      progress := group.progress.id
      progressGeneration := group.commit.progressGeneration
      ordinal := group.action.sequence
      duplicate := false
      checkpointDue := policyHas (policyOf s.state x) fun p =>
        p.checkpointIntervalActions > 0 ∧
          group.execution.committedActions % p.checkpointIntervalActions.toNat = 0 }

/-- A duplicate completion is answered before the token is validated, so that a retry observes the
committed result even after its token has gone stale. -/
def completeAction (request : CompleteActionRequest) : Op CompleteActionResult := do
  let s ← get
  check (checkOpen s)
  match committedResult s.state request with
  | some (a, found) =>
    check (checkEpoch s.state request.token.epoch)
    match found with
    | some commit => return {
        commit := commit.id
        progress := commit.progress
        progressGeneration := commit.progressGeneration
        ordinal := a.sequence
        duplicate := true }
    | none => completeUncommitted request
  | none => completeUncommitted request

structure FailActionRequest where
  request : RequestId := .nil
  token : LeaseToken := {}
  action : ActionId := .nil
  actionGeneration : Nat := 0
  evidence : Evidence := {}
  deriving DecidableEq, Repr

def failAction (request : FailActionRequest) : Op Unit := do
  let x ← authorize request.token
  let s ← get
  match lookupRequest s request.request with
  | some _ => return ()
  | none =>
    let action ← require (s.state.findAction request.action request.actionGeneration)
      (err .notFound "action is not present in the durable store")
    refuseIf (action.execution ≠ x.id)
      (err .invalidArgument "action does not belong to this execution")
    refuseIf (action.status = .committed)
      (err .duplicateCommit "action is already committed and cannot be failed")
    refuseIf (action.status = .ambiguous)
      (err .unresolvedAmbiguity "action is ambiguous and must be resolved")
    Op.put (.action { action with status := .failed, receipt := request.evidence })
    rememberRequest request.request ⟨0, 0⟩

structure ReportSideEffectRequest where
  request : RequestId := .nil
  token : LeaseToken := {}
  action : ActionId := .nil
  actionGeneration : Nat := 0
  applied : Bool := false
  evidence : Evidence := {}
  deriving DecidableEq, Repr

/-- The action carrying a receipt. -/
def receipted (action : ActionRecord) (applied : Bool) (evidence : Evidence) : ActionRecord :=
  { action with
    status := if applied then .effectApplied else .effectNotApplied
    receipt := evidence }

/-- Unlike `failAction` this has no check that the action belongs to the token's execution. -/
def reportSideEffect (request : ReportSideEffectRequest) : Op Unit := do
  let _ ← authorize request.token
  let s ← get
  match lookupRequest s request.request with
  | some _ => return ()
  | none =>
    let action ← require (s.state.findAction request.action request.actionGeneration)
      (err .notFound "action is not present in the durable store")
    refuseIf (action.status = .committed)
      (err .duplicateCommit "action is already committed")
    refuseIf (action.status = .ambiguous ∨ action.status = .abandoned)
      (err .unresolvedAmbiguity
        "action is sealed; a receipt cannot change its recorded outcome")
    Op.put (.action (receipted action request.applied request.evidence))
    rememberRequest request.request ⟨0, 0⟩

end ExecutionFabric
