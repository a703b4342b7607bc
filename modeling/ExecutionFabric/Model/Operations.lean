import ExecutionFabric.Model.Runtime

/-!
# The public operations

Each operation follows its source function statement by statement: the checks in
their order with their refusals, then the records in the order they are written.
-/
namespace ExecutionFabric

open Lib Program

variable [AppendLimit]

/-! ## Executions and policy -/

structure CreateExecutionRequest where
  request : RequestId := .nil
  policy : ExecutionPolicy := {}
  deriving DecidableEq, Repr

structure CreateExecutionResult where
  execution : ExecutionId := .nil
  generation : Nat := 0
  policy : PolicyId := .nil
  policyGeneration : Nat := 0
  existing : Bool := false
  deriving DecidableEq, Repr

def policyDefect (policy : ExecutionPolicy) : Option Status :=
  (validatePolicy policy).map fun reason => err .invalidArgument ("policy rejected: " ++ reason)

def createExecution (caller : CallerContext) (request : CreateExecutionRequest) :
    Op CreateExecutionResult := do
  let s ← get
  check (checkCaller s caller)
  match lookupRequest s request.request with
  | some cached =>
    let found := s.state.executions.find ⟨cached.a⟩
    return {
      execution := ⟨cached.a⟩
      generation := cached.b.toNat
      policy := (found.map (·.policy)).getD .nil
      policyGeneration := (found.map (·.policyGeneration)).getD 0
      existing := true }
  | none =>
    refuseIf (s.state.executions.size ≥ s.config.maxExecutions)
      (err .limitExceeded "the configured execution bound has been reached")
    let sequence := s.state.nextExecutionSequence
    let executionId := deriveExecutionId s.state.store sequence
    let policy := { request.policy with id := derivePolicyId executionId 1, generation := 1 }
    refuseOn (policyDefect policy)
    -- The derived-identity counter is durable before anything references it.
    Op.setState fun st => { st with nextExecutionSequence := sequence + 1 }
    Op.putStoreMeta
    let execution : ExecutionRecord :=
      { id := executionId
        generation := 1
        lifecycle := .created
        policy := policy.id
        policyGeneration := policy.generation
        epoch := s.state.epoch
        createdSequence := sequence }
    Op.put (.policy policy)
    Op.put (.execution execution)
    rememberRequest request.request ⟨executionId.value, word execution.generation⟩
    return {
      execution := executionId
      generation := execution.generation
      policy := policy.id
      policyGeneration := policy.generation
      existing := false }

/-- The continuations a policy change demotes. -/
def demotedContinuations (st : DurableState) (execution : ExecutionId) (policy : ExecutionPolicy) :
    List ContinuationRecord :=
  (st.continuations.records.filter fun c => c.execution = execution ∧ c.state = .valid).map fun c =>
    { c with state :=
        if policy.policyChangeInvalidatesContinuations then .stale else .revalidationRequired }

/-- The execution under a new policy generation: authority granted under the old one is gone. -/
def underPolicy (x : ExecutionRecord) (generation : Nat) : ExecutionRecord :=
  let next := { x with policyGeneration := generation }
  if x.lease.valid = true then
    if isActiveState x.lifecycle = true then
      { next.withoutLease with lifecycle := .recoveryRequired }
    else next.withoutLease
  else next

def updatePolicy (caller : CallerContext) (request : RequestId) (executionId : ExecutionId)
    (requested : ExecutionPolicy) (apply : Bool) : Op Unit := do
  let s ← get
  check (checkCaller s caller)
  refuseIf ((lookupRequest s request).isSome = true)
    (err .duplicateRequest "policy update request was already applied")
  let x ← require (s.state.executions.find executionId) missingExecution
  let policy := { requested with id := x.policy, generation := x.policyGeneration + 1 }
  refuseOn (policyDefect policy)
  if apply = false then
    return ()
  else
    Op.put (.policy policy)
    provided (x.lease.valid = true) (putLeaseAs (s.state.leases.find x.lease) .revoked)
    provided (x.lease.valid = true ∧ isActiveState x.lifecycle = true)
      (requireTransition x.lifecycle .recoveryRequired "policy update")
    Op.putAll ((demotedContinuations s.state executionId policy).map .continuation)
    Op.put (.execution (underPolicy x policy.generation))
    rememberRequest request ⟨0, 0⟩

/-! ## Worker binding -/

structure BindWorkerRequest where
  request : RequestId := .nil
  execution : ExecutionId := .nil
  worker : WorkerId := .nil
  boot : WorkerBootId := .nil
  bindings : BindingSet := {}
  deriving DecidableEq, Repr

structure BindWorkerResult where
  incarnation : ExecutionIncarnationId := .nil
  incarnationGeneration : Nat := 0
  lease : LeaseId := .nil
  leaseGeneration : Nat := 0
  lifecycle : Lifecycle := .created
  incarnationAdvanced : Bool := false
  deriving DecidableEq, Repr

/-- The lifecycles a worker may be bound in. -/
def isBindable : Lifecycle → Bool
  | .created | .ready | .fenced | .recoveryRequired | .recovering | .resuming | .suspended => true
  | _ => false

/-- The execution under the incarnation a bind by `boot` runs in. -/
def incarnated (x : ExecutionRecord) (boot : WorkerBootId) : ExecutionRecord :=
  if x.boot.valid = true ∧ x.boot = boot then x
  else { x with
    incarnationGeneration := x.incarnationGeneration + 1
    incarnation := deriveIncarnationId x.id (x.incarnationGeneration + 1) }

/-- The lease a bind grants. -/
def grantedLease (st : DurableState) (x : ExecutionRecord) (request : BindWorkerRequest) :
    LeaseRecord :=
  { id := deriveLeaseId x.id request.worker request.boot (x.leaseGeneration + 1)
    generation := x.leaseGeneration + 1
    execution := x.id
    executionGeneration := x.generation
    incarnation := (incarnated x request.boot).incarnation
    incarnationGeneration := (incarnated x request.boot).incarnationGeneration
    worker := request.worker
    boot := request.boot
    epoch := st.epoch
    policyGeneration := x.policyGeneration
    bindings := request.bindings
    state := .active }

/-- The lifecycle after a bind: Created becomes Ready, Fenced must pass through recovery. -/
def boundLifecycle : Lifecycle → Lifecycle
  | .created => .ready
  | .fenced => .recoveryRequired
  | lifecycle => lifecycle

/-- The execution bound to the granted lease. -/
def boundExecution (st : DurableState) (x : ExecutionRecord) (request : BindWorkerRequest) :
    ExecutionRecord :=
  { incarnated x request.boot with
    worker := request.worker
    boot := request.boot
    lease := (grantedLease st x request).id
    leaseGeneration := (grantedLease st x request).generation
    bindings := request.bindings
    epoch := st.epoch
    lifecycle := boundLifecycle x.lifecycle }

def bindWorker (caller : CallerContext) (request : BindWorkerRequest) : Op BindWorkerResult := do
  let s ← get
  check (checkCaller s caller)
  match lookupRequest s request.request with
  | some cached =>
    let found := s.state.executions.find request.execution
    return {
      incarnation := ⟨cached.a⟩
      incarnationGeneration := (found.map (·.incarnationGeneration)).getD 0
      lease := ⟨cached.b⟩
      leaseGeneration := (found.map (·.leaseGeneration)).getD 0
      lifecycle := (found.map (·.lifecycle)).getD .created }
  | none =>
    refuseIf (request.worker.valid = false ∨ request.boot.valid = false)
      (err .invalidArgument "worker id and worker boot id must both be non-nil")
    let x ← require (s.state.executions.find request.execution) missingExecution
    refuseOn ((bindingSetDefect request.bindings).map fun defect =>
      err .invalidArgument ("bindings rejected: " ++ defect))
    refuseIf (isBindable x.lifecycle = false)
      (err .lifecycleRefused ("cannot bind a worker while the execution is " ++
        lifecycleName x.lifecycle))
    refuseIf (x.lease.valid = true ∧ x.boot ≠ request.boot ∧
        (activeLease s.state x).isSome = true)
      (err .fenced "execution is still bound to a live worker boot; fence it first")
    let lease := grantedLease s.state x request
    let next := boundExecution s.state x request
    provided (x.lease.valid = true) (putLeaseAs (activeLease s.state x) .superseded)
    provided (x.lifecycle = .fenced)
      (requireTransition x.lifecycle .recoveryRequired "worker bind")
    Op.put (.lease lease)
    Op.put (.execution next)
    rememberRequest request.request ⟨next.incarnation.value, lease.id.value⟩
    return {
      incarnation := next.incarnation
      incarnationGeneration := next.incarnationGeneration
      lease := lease.id
      leaseGeneration := lease.generation
      lifecycle := next.lifecycle
      incarnationAdvanced := !(x.boot.valid && x.boot = request.boot) }

structure StartRequest where
  request : RequestId := .nil
  token : LeaseToken := {}
  deriving DecidableEq, Repr

/-- The execution pointing at a continuation. -/
def ExecutionRecord.continuedBy (x : ExecutionRecord) (c : ContinuationRecord) :
    ExecutionRecord :=
  { x with continuation := c.id, continuationGeneration := c.generation }

def start (request : StartRequest) : Op Unit := do
  let x ← authorize request.token
  let s ← get
  match lookupRequest s request.request with
  | some _ => return ()
  | none =>
    refuseIf (x.lifecycle ≠ .ready)
      (err .lifecycleRefused ("cannot start an execution that is " ++ lifecycleName x.lifecycle))
    requireTransition x.lifecycle .running "start"
    let running := { x with lifecycle := .running, epoch := s.state.epoch }
    let continuation := mintContinuation s.state running running .valid running.actionFrontier
    retireOtherContinuations x.id continuation.id
    Op.put (.continuation continuation)
    Op.put (.execution (running.continuedBy continuation))
    rememberRequest request.request ⟨0, 0⟩

end ExecutionFabric
