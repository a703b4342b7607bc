import ExecutionFabric.Audit.Restart

/-!
# What a transaction does to authority

Authority is spread over three tables: the execution names its worker and its lease,
the lease repeats the execution's generations, and the continuation says where a
worker may pick up. `Move` lists what a transaction can do to the three at once: leave
authority alone, continue the execution, bind a worker, or take authority away. Every
invariant about leases, tokens and continuations is an analysis of these four cases.
-/
namespace ExecutionFabric

open Lib

/-! ## The records of a journal record -/

def executionsOf (es : List JournalEntry) : List ExecutionRecord := es.flatMap (·.executions)

def leasesOf (es : List JournalEntry) : List LeaseRecord := es.flatMap (·.leases)

def continuationsOf (es : List JournalEntry) : List ContinuationRecord :=
  es.flatMap (·.continuations)

section Lists

variable (e : JournalEntry) (es fs : List JournalEntry)

@[simp] theorem executionsOf_nil : executionsOf [] = [] := rfl

@[simp] theorem executionsOf_cons : executionsOf (e :: es) = e.executions ++ executionsOf es := rfl

@[simp] theorem executionsOf_append :
    executionsOf (es ++ fs) = executionsOf es ++ executionsOf fs := List.flatMap_append

@[simp] theorem leasesOf_nil : leasesOf [] = [] := rfl

@[simp] theorem leasesOf_cons : leasesOf (e :: es) = e.leases ++ leasesOf es := rfl

@[simp] theorem leasesOf_append : leasesOf (es ++ fs) = leasesOf es ++ leasesOf fs :=
  List.flatMap_append

@[simp] theorem continuationsOf_nil : continuationsOf [] = [] := rfl

@[simp] theorem continuationsOf_cons :
    continuationsOf (e :: es) = e.continuations ++ continuationsOf es := rfl

@[simp] theorem continuationsOf_append :
    continuationsOf (es ++ fs) = continuationsOf es ++ continuationsOf fs := List.flatMap_append

end Lists

namespace Image

theorem executions_installAll (m : Image) (es : List JournalEntry) :
    (m.installAll es).executions = m.executions.insertAll (executionsOf es) := by
  induction es generalizing m with
  | nil => rfl
  | cons e rest ih =>
    rw [installAll_cons, ih]
    cases e <;> rfl

theorem leases_installAll (m : Image) (es : List JournalEntry) :
    (m.installAll es).leases = m.leases.insertAll (leasesOf es) := by
  induction es generalizing m with
  | nil => rfl
  | cons e rest ih =>
    rw [installAll_cons, ih]
    cases e <;> rfl

theorem continuations_installAll (m : Image) (es : List JournalEntry) :
    (m.installAll es).continuations =
      m.continuations.insertAll (continuationsOf es) := by
  induction es generalizing m with
  | nil => rfl
  | cons e rest ih =>
    rw [installAll_cons, ih]
    cases e <;> rfl

end Image

@[simp] theorem leases_map_continuation (cs : List ContinuationRecord) :
    leasesOf (cs.map JournalEntry.continuation) = [] := by
  induction cs with
  | nil => rfl
  | cons c rest ih => exact ih

@[simp] theorem executions_map_continuation (cs : List ContinuationRecord) :
    executionsOf (cs.map JournalEntry.continuation) = [] := by
  induction cs with
  | nil => rfl
  | cons c rest ih => exact ih

@[simp] theorem continuations_map_continuation (cs : List ContinuationRecord) :
    continuationsOf (cs.map JournalEntry.continuation) = cs := by
  induction cs with
  | nil => rfl
  | cons c rest ih => exact congrArg (List.cons c) ih

@[simp] theorem leases_leaseAs (l : Option LeaseRecord) (state : LeaseState) :
    leasesOf (leaseAs l state) = l.toList.map fun l => { l with state := state } := by
  cases l <;> rfl

@[simp] theorem executions_leaseAs (l : Option LeaseRecord) (state : LeaseState) :
    executionsOf (leaseAs l state) = [] := by
  cases l <;> rfl

@[simp] theorem continuations_leaseAs (l : Option LeaseRecord) (state : LeaseState) :
    continuationsOf (leaseAs l state) = [] := by
  cases l <;> rfl

/-! ## Moves -/

/-- The lifecycles that need a worker. -/
def isAttended : Lifecycle → Bool
  | .running | .checkpointing | .suspending | .draining => true
  | _ => false

/-- The lifecycles that need a Valid continuation. -/
def isContinued : Lifecycle → Bool
  | .running | .checkpointing | .draining => true
  | _ => false

/-- Worker authority and the generations it is bound to. -/
structure SameAuthority (x y : ExecutionRecord) : Prop where
  id : y.id = x.id
  generation : y.generation = x.generation
  incarnation : y.incarnation = x.incarnation
  incarnationGeneration : y.incarnationGeneration = x.incarnationGeneration
  lease : y.lease = x.lease
  leaseGeneration : y.leaseGeneration = x.leaseGeneration
  worker : y.worker = x.worker
  boot : y.boot = x.boot
  policyGeneration : y.policyGeneration = x.policyGeneration

theorem SameAuthority.refl (x : ExecutionRecord) : SameAuthority x x :=
  ⟨rfl, rfl, rfl, rfl, rfl, rfl, rfl, rfl, rfl⟩

/-- The lifecycle changes that leave authority alone. -/
inductive Steady : Lifecycle → Lifecycle → Prop
  | same (l : Lifecycle) : Steady l l
  | within {l l' : Lifecycle} (h : isContinued l = true) (h' : isAttended l' = true)
      (hne : l' ≠ .running) : Steady l l'
  | resuming (l : Lifecycle) : Steady l .resuming
  | recovering (l : Lifecycle) : Steady l .recovering

/-- The lease records that take the lease of `x` away. -/
structure Relinquishes (st : DurableState) (x : ExecutionRecord) (ls : List LeaseRecord) : Prop where
  revoked : ∀ l ∈ ls, ∃ l₀, x.lease ≠ .nil ∧ st.leases.find x.lease = some l₀ ∧ l.id = l₀.id ∧
    l.execution = l₀.execution ∧ l.epoch = l₀.epoch ∧ l.state ≠ .active
  all : ∀ l₀, x.lease ≠ .nil → st.leases.find x.lease = some l₀ → l₀.state = .active →
    ∃ l ∈ ls, l.id = l₀.id

/-- The continuation records that leave the execution `e` without a Valid continuation. -/
structure Demotes (st : DurableState) (e : ExecutionId) (cs : List ContinuationRecord) : Prop where
  demoted : ∀ c ∈ cs, ∃ c₀, st.continuations.find c.id = some c₀ ∧ c₀.execution = e ∧
    c.execution = e ∧ c.state ≠ .valid
  all : ∀ k c₀, st.continuations.find k = some c₀ → c₀.execution = e → c₀.state = .valid →
    ∃ c ∈ cs, c.id = c₀.id

/-- `y` is `x` without its worker. A lifecycle that needs a worker is left, unless there was no
worker in the first place. -/
structure Drops (x y : ExecutionRecord) : Prop where
  id : y.id = x.id
  unbound : y.lease = .nil ∧ y.worker = .nil ∧ y.boot = .nil
  generation : x.generation ≤ y.generation
  incarnation : y.incarnation = x.incarnation
  incarnationGeneration : y.incarnationGeneration = x.incarnationGeneration
  leaseGeneration : y.leaseGeneration = x.leaseGeneration
  lifecycle : isAttended y.lifecycle = true → y.lifecycle = x.lifecycle ∧ x.lease = .nil

/-- `Move st x y ls cs`: the execution `x` becomes `y` while the leases `ls` and the continuations
`cs` are written. -/
inductive Move (st : DurableState) (x : ExecutionRecord) :
    ExecutionRecord → List LeaseRecord → List ContinuationRecord → Prop
  | steady {y : ExecutionRecord} (hsame : SameAuthority x y)
      (hcontinuation : y.continuation = x.continuation)
      (hlifecycle : Steady x.lifecycle y.lifecycle) : Move st x y [] []
  | continued {y : ExecutionRecord} {t : LeaseToken} {l : LeaseRecord} {c : ContinuationRecord}
      (htoken : Authorizes st t x l) (hsame : SameAuthority x y)
      (hrunning : y.lifecycle = .running) (hcontinuation : y.continuation = c.id)
      (hvalid : c.state = .valid) (howner : c.execution = x.id) (hepoch : c.epoch = st.epoch) :
      Move st x y [] (retiredContinuations st x.id c.id ++ [c])
  | bound {ls : List LeaseRecord} (request : BindWorkerRequest)
      (hworker : request.worker ≠ .nil) (hboot : request.boot ≠ .nil)
      (hbindable : isBindable x.lifecycle = true) (hls : Relinquishes st x ls) :
      Move st x (boundExecution st x request) (ls ++ [grantedLease st x request]) []
  | dropped {y : ExecutionRecord} {ls : List LeaseRecord} {cs : List ContinuationRecord}
      (hdrops : Drops x y) (hls : Relinquishes st x ls)
      (hcs : (y.continuation = x.continuation ∧ cs = []) ∨ Demotes st x.id cs) :
      Move st x y ls cs

theorem relinquishes_heldLease (st : DurableState) (x : ExecutionRecord) :
    Relinquishes st x ((heldLease st x).toList.map fun l => { l with state := .revoked }) where
  revoked := by
    intro l hl
    obtain ⟨l₀, hl₀, rfl⟩ := List.mem_map.mp hl
    obtain ⟨hvalid, hfind⟩ := image_find_lease (Option.mem_toList.mp hl₀)
    exact ⟨l₀, hvalid, hfind, rfl, rfl, rfl, fun h => by cases h⟩
  all := by
    intro l₀ hvalid hfind _
    refine ⟨_, List.mem_map_of_mem (Option.mem_toList.mpr ?_), rfl⟩
    unfold heldLease
    rw [if_pos ((Id.valid_iff _).mpr hvalid)]
    exact hfind

theorem relinquishes_heldActiveLease (st : DurableState) (x : ExecutionRecord) (state : LeaseState)
    (hstate : state ≠ .active) :
    Relinquishes st x ((heldActiveLease st x).toList.map fun l => { l with state := state }) where
  revoked := by
    intro l hl
    obtain ⟨l₀, hl₀, rfl⟩ := List.mem_map.mp hl
    obtain ⟨hvalid, hfind, -⟩ := image_find_activeLease (Option.mem_toList.mp hl₀)
    exact ⟨l₀, hvalid, hfind, rfl, rfl, rfl, hstate⟩
  all := by
    intro l₀ hvalid hfind hactive
    refine ⟨_, List.mem_map_of_mem (Option.mem_toList.mpr ?_), rfl⟩
    unfold heldActiveLease activeLease
    rw [if_pos ((Id.valid_iff _).mpr hvalid), hfind]
    simp [hactive]

theorem relinquishes_nil {st : DurableState} {x : ExecutionRecord} (h : x.lease = .nil) :
    Relinquishes st x [] :=
  ⟨fun l hl => (by cases hl), fun l₀ hvalid => absurd h hvalid⟩

/-- Rewriting the state of selected continuations of an execution demotes it when every Valid one
is selected. -/
theorem demotes_filtered (st : DurableState) (e : ExecutionId) (p : ContinuationRecord → Bool)
    {state : ContinuationState} (hstate : state ≠ .valid)
    (hp : ∀ c, p c = true → c.execution = e)
    (hall : ∀ c : ContinuationRecord, c.execution = e → c.state = .valid → p c = true) :
    Demotes st e ((st.continuations.records.filter p).map fun c => { c with state := state }) where
  demoted := by
    intro c hc
    obtain ⟨c₀, hc₀, rfl⟩ := List.mem_map.mp hc
    obtain ⟨hmem, hpc⟩ := List.mem_filter.mp hc₀
    exact ⟨c₀, (Table.find_eq_some_iff _ _ _).mpr ⟨hmem, rfl⟩, hp c₀ hpc, hp c₀ hpc, hstate⟩
  all := by
    intro k c₀ hc₀ howner hvalid
    obtain ⟨hmem, -⟩ := (Table.find_eq_some_iff _ _ _).mp hc₀
    exact ⟨_, List.mem_map_of_mem (List.mem_filter.mpr ⟨hmem, hall c₀ howner hvalid⟩), rfl⟩

theorem demotes_demotedContinuations (st : DurableState) (e : ExecutionId)
    (policy : ExecutionPolicy) : Demotes st e (demotedContinuations st e policy) := by
  refine demotes_filtered st e _ ?_ ?_ ?_
  · split <;> exact fun h => by cases h
  · intro c hc
    exact (of_decide_eq_true hc).1
  · intro c howner hvalid
    exact decide_eq_true ⟨howner, hvalid⟩

theorem demotes_staleContinuations (st : DurableState) (e : ExecutionId) :
    Demotes st e (staleContinuations st e) := by
  refine demotes_filtered st e _ (fun h => by cases h) ?_ ?_
  · intro c hc
    exact (of_decide_eq_true hc).1
  · intro c howner hvalid
    exact decide_eq_true ⟨howner, by rw [hvalid]; exact fun h => by cases h⟩

/-- The intents of calls; only some lifecycles are targets of a transition. -/
def Intent.Public : Intent → Prop
  | .transition _ target => dropsAuthority target = true ∨ target = .suspending ∨ target = .draining
  | _ => True

theorem Call.intent_public {c : Call} {i : Intent} (h : c.intent = some i) : i.Public := by
  cases c <;> simp only [Call.intent, reduceCtorEq, Option.some.injEq] at h <;> subst h <;>
    simp [Intent.Public, dropsAuthority, isTerminalState]

/-- What a transaction does to the three tables of authority. -/
inductive Moves (j : Journaled) (es : List JournalEntry) : Prop
  | created (policy : ExecutionPolicy)
      (hes : es = [.storeMeta (advancedMeta j.state), .policy policy,
        .execution (createdExecution j.state)])
  | moved {x y : ExecutionRecord} {ls : List LeaseRecord} {cs : List ContinuationRecord}
      (hx : j.state.executions.find x.id = some x) (hmove : Move j.state x y ls cs)
      (hexecutions : j.state.image.executions.insertAll (executionsOf es) =
        j.state.image.executions.insert y)
      (hleases : leasesOf es = ls) (hcontinuations : continuationsOf es = cs)

/-- Records without continuations leave the table of continuations alone. -/
theorem continuations_write (j : Journaled) (es : List JournalEntry)
    (h : continuationsOf es = []) :
    (j.write es).state.continuations = j.state.continuations := by
  induction es generalizing j with
  | nil => rfl
  | cons e rest ih =>
    rw [continuationsOf_cons, List.append_eq_nil_iff] at h
    rw [Journaled.write_cons, ih _ h.2, Journaled.state_put]
    cases e with
    | continuation c => cases h.1
    | _ => rfl

theorem retiredContinuations_write (j : Journaled) (es : List JournalEntry)
    (h : continuationsOf es = []) (e : ExecutionId) (keep : ContinuationId) :
    retiredContinuations (j.write es).state e keep = retiredContinuations j.state e keep := by
  unfold retiredContinuations
  rw [continuations_write j es h]

@[simp] theorem executions_continuationRecords (st : DurableState) (x : ExecutionRecord)
    (c : ContinuationRecord) :
    executionsOf (continuationRecords st x c) = [x.continuedBy c] := by
  unfold continuationRecords
  rw [executionsOf_append, executions_map_continuation]
  rfl

@[simp] theorem leases_continuationRecords (st : DurableState) (x : ExecutionRecord)
    (c : ContinuationRecord) : leasesOf (continuationRecords st x c) = [] := by
  unfold continuationRecords
  rw [leasesOf_append, leases_map_continuation]
  rfl

@[simp] theorem continuations_continuationRecords (st : DurableState) (x : ExecutionRecord)
    (c : ContinuationRecord) : continuationsOf (continuationRecords st x c) =
      retiredContinuations st x.id c.id ++ [c] := by
  unfold continuationRecords
  rw [continuationsOf_append, continuations_map_continuation]
  rfl

section Moves

variable {j : Journaled} {x : ExecutionRecord}

/-- A transaction that writes the execution and nothing else of authority. -/
theorem moves_steady {es : List JournalEntry} {y : ExecutionRecord} (ys : List ExecutionRecord)
    (hx : j.state.executions.find x.id = some x) (hys : executionsOf es = ys ++ [y])
    (hids : ∀ y' ∈ ys, y'.id = y.id) (hleases : leasesOf es = [])
    (hcontinuations : continuationsOf es = []) (hsame : SameAuthority x y)
    (hcontinuation : y.continuation = x.continuation)
    (hlifecycle : Steady x.lifecycle y.lifecycle) : Moves j es :=
  .moved hx (.steady hsame hcontinuation hlifecycle)
    (by rw [hys, KeyedMap.insertAll_concat _ hids]) hleases hcontinuations

/-- A transaction that writes no execution at all. -/
theorem moves_idle {es : List JournalEntry} (hx : j.state.executions.find x.id = some x)
    (hexecutions : executionsOf es = []) (hleases : leasesOf es = [])
    (hcontinuations : continuationsOf es = []) : Moves j es := by
  refine .moved hx (.steady (.refl x) rfl (.same _)) ?_ hleases hcontinuations
  rw [hexecutions, KeyedMap.insert_stored (show j.state.image.executions x.id = some x from hx)]
  rfl

theorem ExecutionRecord.Bound.nil (h : x.Bound) (hnone : ¬ x.lease.valid = true) :
    x.lease = .nil ∧ x.worker = .nil ∧ x.boot = .nil := by
  rcases h with hnil | ⟨hlease, -, -⟩
  · exact hnil
  · exact absurd ((Id.valid_iff _).mpr hlease) hnone

theorem isAttended_active {l : Lifecycle} (h : isAttended l = true) : isActiveState l = true := by
  cases l <;> first | rfl | cases h

theorem underPolicy_drops (hbound : x.Bound) (generation : Nat) :
    Drops x (underPolicy x generation) := by
  unfold underPolicy
  dsimp only
  split
  next hvalid =>
    split
    next => exact ⟨rfl, ⟨rfl, rfl, rfl⟩, Nat.le_refl _, rfl, rfl, rfl, fun h => by cases h⟩
    next hidle =>
      exact ⟨rfl, ⟨rfl, rfl, rfl⟩, Nat.le_refl _, rfl, rfl, rfl,
        fun h => absurd (isAttended_active h) hidle⟩
  next hnone =>
    have hnil := hbound.nil hnone
    exact ⟨rfl, hnil, Nat.le_refl _, rfl, rfl, rfl, fun _ => ⟨rfl, hnil.1⟩⟩

theorem updatePolicy_moves (hbound : x.Bound) (hx : j.state.executions.find x.id = some x)
    (policy : ExecutionPolicy) :
    Moves j (.policy policy :: (leaseAs (heldLease j.state x) .revoked ++
      (demotedContinuations j.state x.id policy).map .continuation ++
      [.execution (underPolicy x policy.generation)])) := by
  refine .moved hx (.dropped (underPolicy_drops hbound policy.generation)
    (relinquishes_heldLease j.state x) (.inr (demotes_demotedContinuations j.state x.id policy)))
    ?_ ?_ ?_
  · simp [JournalEntry.executions, KeyedMap.insertAll]
  · simp [JournalEntry.leases]
  · simp [JournalEntry.continuations]

theorem bind_moves (hx : j.state.executions.find x.id = some x) (request : BindWorkerRequest)
    (hworker : request.worker.valid = true) (hboot : request.boot.valid = true)
    (hbindable : isBindable x.lifecycle = true) :
    Moves j (leaseAs (heldActiveLease j.state x) .superseded ++
      [.lease (grantedLease j.state x request), .execution (boundExecution j.state x request)]) := by
  refine .moved hx (.bound request ((Id.valid_iff _).mp hworker) ((Id.valid_iff _).mp hboot) hbindable
    (relinquishes_heldActiveLease j.state x .superseded (fun h => by cases h))) ?_ ?_ ?_
  · simp [JournalEntry.executions, KeyedMap.insertAll]
  · simp [JournalEntry.leases]
  · simp [JournalEntry.continuations]

/-- A transaction that makes `c` the continuation of the execution, back at work. -/
theorem moves_continued {es : List JournalEntry} {y : ExecutionRecord} (ys : List ExecutionRecord)
    {t : LeaseToken} {l : LeaseRecord} (c : ContinuationRecord)
    (htoken : validateToken j.state t = .ok (x, l)) (hys : executionsOf es = ys ++ [y])
    (hids : ∀ y' ∈ ys, y'.id = y.id) (hleases : leasesOf es = [])
    (hcontinuations : continuationsOf es = retiredContinuations j.state x.id c.id ++ [c])
    (hsame : SameAuthority x y) (hrunning : y.lifecycle = .running)
    (hcontinuation : y.continuation = c.id) (hvalid : c.state = .valid)
    (howner : c.execution = x.id) (hepoch : c.epoch = j.state.epoch) : Moves j es :=
  .moved (token_execution htoken)
    (.continued (validateToken_authorizes htoken) hsame hrunning hcontinuation hvalid howner hepoch)
    (by rw [hys, KeyedMap.insertAll_concat _ hids]) hleases hcontinuations

theorem start_moves {t : LeaseToken} {l : LeaseRecord}
    (htoken : validateToken j.state t = .ok (x, l)) (ordinal : Nat) :
    Moves j (continuationRecords j.state (startedExecution j.state x)
      (mintContinuation j.state (startedExecution j.state x) (startedExecution j.state x) .valid
        ordinal)) := by
  exact moves_continued [] _ htoken (executions_continuationRecords _ _ _)
    (fun y' hy' => by cases hy') (leases_continuationRecords _ _ _)
    (continuations_continuationRecords _ _ _) ⟨rfl, rfl, rfl, rfl, rfl, rfl, rfl, rfl, rfl⟩ rfl rfl
    rfl rfl rfl

@[simp] theorem leases_enterCheckpointing (x : ExecutionRecord) :
    leasesOf (enterCheckpointing x) = [] := by
  unfold enterCheckpointing
  split <;> rfl

@[simp] theorem continuations_enterCheckpointing (x : ExecutionRecord) :
    continuationsOf (enterCheckpointing x) = [] := by
  unfold enterCheckpointing
  split <;> rfl

theorem executions_enterCheckpointing (x : ExecutionRecord) :
    ∀ y ∈ executionsOf (enterCheckpointing x), y.id = x.id := by
  intro y hy
  unfold enterCheckpointing at hy
  split at hy
  · rw [List.mem_singleton.mp hy]
  · cases hy

theorem of_map_checkpoint (cs : List CheckpointRecord) :
    executionsOf (cs.map .checkpoint) = [] ∧ leasesOf (cs.map .checkpoint) = [] ∧
      continuationsOf (cs.map .checkpoint) = [] := by
  induction cs with
  | nil => exact ⟨rfl, rfl, rfl⟩
  | cons c rest ih => exact ih

theorem enterCheckpoint_moves (hx : j.state.executions.find x.id = some x) :
    Moves j (enterCheckpointing x) := by
  by_cases hrunning : x.lifecycle = .running
  · rw [show enterCheckpointing x = [.execution { x with lifecycle := .checkpointing }] from
      if_pos hrunning]
    refine moves_steady [] hx rfl (fun y' hy' => by cases hy') rfl rfl
      ⟨rfl, rfl, rfl, rfl, rfl, rfl, rfl, rfl, rfl⟩ rfl ?_
    rw [hrunning]
    exact .within rfl rfl (fun h => by cases h)
  · rw [show enterCheckpointing x = [] from if_neg hrunning]
    exact moves_idle hx rfl rfl rfl

theorem epoch_newCheckpointRecords (j : Journaled) (x : ExecutionRecord) (c : CheckpointRecord) :
    (j.write (newCheckpointRecords x c)).state.epoch = j.state.epoch := by
  show (j.write (newCheckpointRecords x c)).state.image.epoch = j.state.image.epoch
  rw [Journaled.image_write]
  unfold newCheckpointRecords enterCheckpointing
  split <;> rfl

theorem checkpoint_moves {t : LeaseToken} {l : LeaseRecord}
    (htoken : validateToken j.state t = .ok (x, l)) (c : CheckpointRecord) :
    Moves j (checkpointRecords j x c) := by
  have hdemoted := of_map_checkpoint
    (demotedCheckpoint (j.write (newCheckpointRecords x c)).state x).toList
  have hexecutions : executionsOf (demotionRecords j x c) =
      executionsOf (enterCheckpointing x) := by
    unfold demotionRecords newCheckpointRecords
    rw [executionsOf_append, executionsOf_append]
    unfold newCheckpointRecords at hdemoted
    rw [hdemoted.1]
    simp [JournalEntry.executions]
  have hleases : leasesOf (demotionRecords j x c) = [] := by
    unfold demotionRecords newCheckpointRecords
    rw [leasesOf_append, leasesOf_append]
    unfold newCheckpointRecords at hdemoted
    rw [hdemoted.2.1]
    simp [JournalEntry.leases]
  have hcontinuations : continuationsOf (demotionRecords j x c) = [] := by
    unfold demotionRecords newCheckpointRecords
    rw [continuationsOf_append, continuationsOf_append]
    unfold newCheckpointRecords at hdemoted
    rw [hdemoted.2.2]
    simp [JournalEntry.continuations]
  have hys : executionsOf (checkpointRecords j x c) = executionsOf (enterCheckpointing x) ++
      [(checkpointedExecution x c).continuedBy (mintContinuation
        (j.write (newCheckpointRecords x c)).state x (checkpointedExecution x c) .valid
        x.actionFrontier)] := by
    unfold checkpointRecords
    rw [executionsOf_append, hexecutions, executions_continuationRecords]
  refine moves_continued _ (mintContinuation (j.write (newCheckpointRecords x c)).state x
    (checkpointedExecution x c) .valid x.actionFrontier) htoken hys ?_ ?_ ?_
    ⟨rfl, rfl, rfl, rfl, rfl, rfl, rfl, rfl, rfl⟩ rfl rfl rfl rfl (epoch_newCheckpointRecords j x c)
  · exact executions_enterCheckpointing x
  · unfold checkpointRecords
    rw [leasesOf_append, hleases, leases_continuationRecords]
    rfl
  · unfold checkpointRecords
    rw [continuationsOf_append, hcontinuations, continuations_continuationRecords,
      retiredContinuations_write _ _ hcontinuations]
    rfl

theorem resume_moves {t : LeaseToken} {l : LeaseRecord}
    (htoken : validateToken j.state t = .ok (x, l)) (bindings : BindingSet) :
    Moves j (resumeRecords j x bindings) := by
  have hys : executionsOf (resumeRecords j x bindings) = [resumingExecution j.state x bindings] ++
      [({ resumingExecution j.state x bindings with lifecycle := .running }).continuedBy
        (resumedContinuation j x bindings)] := by
    unfold resumeRecords
    rw [executionsOf_cons, executions_continuationRecords]
    rfl
  refine moves_continued _ (resumedContinuation j x bindings) htoken hys ?_ ?_ ?_
    ⟨rfl, rfl, rfl, rfl, rfl, rfl, rfl, rfl, rfl⟩ rfl rfl rfl rfl rfl
  · intro y' hy'
    rw [List.mem_singleton.mp hy']
    rfl
  · unfold resumeRecords
    rw [leasesOf_cons, leases_continuationRecords]
    rfl
  · unfold resumeRecords
    rw [continuationsOf_cons, continuations_continuationRecords]
    exact congrArg (· ++ _) (retiredContinuations_write j
      [.execution (resumingExecution j.state x bindings)] rfl _ _)

theorem steady_recovered (l l' : Lifecycle) (h : l' = .recovering ∨ l' = l) : Steady l l' := by
  rcases h with rfl | rfl
  · exact .recovering _
  · exact .same _

/-- The execution a recovery leaves has the authority of the one it started from. -/
theorem recovered_authority {next : ExecutionRecord} (st : DurableState) (plan : RecoveryPlan)
    (hsame : SameAuthority x next) (hcontinuation : next.continuation = x.continuation)
    (hlifecycle : next.lifecycle = x.lifecycle) :
    SameAuthority x (recoveredExecution st x (atPlannedCheckpoint next plan) plan) ∧
      (recoveredExecution st x (atPlannedCheckpoint next plan) plan).continuation = x.continuation ∧
      Steady x.lifecycle (recoveredExecution st x (atPlannedCheckpoint next plan) plan).lifecycle := by
  have hplanned : SameAuthority x (atPlannedCheckpoint next plan) ∧
      (atPlannedCheckpoint next plan).continuation = x.continuation ∧
      (atPlannedCheckpoint next plan).lifecycle = x.lifecycle := by
    unfold atPlannedCheckpoint
    split
    · exact ⟨{ hsame with }, hcontinuation, hlifecycle⟩
    · exact ⟨hsame, hcontinuation, hlifecycle⟩
  refine ⟨{ hplanned.1 with }, hplanned.2.1, steady_recovered _ _ ?_⟩
  unfold recoveredExecution
  dsimp only
  split
  · exact .inl rfl
  · exact .inr hplanned.2.2

theorem recovery_moves (es : List JournalEntry) {next : ExecutionRecord} {plan : RecoveryPlan}
    {inFlight : Option ActionRecord} (hx : j.state.executions.find x.id = some x)
    (hids : ∀ y ∈ executionsOf es, y.id = x.id) (hleases : leasesOf es = [])
    (hcontinuations : continuationsOf es = []) (hsame : SameAuthority x next)
    (hcontinuation : next.continuation = x.continuation) (hlifecycle : next.lifecycle = x.lifecycle) :
    Moves j (es ++ recoveryRecords j.state x next plan inFlight) := by
  obtain ⟨hauthority, hcontinued, hsteady⟩ :=
    recovered_authority j.state plan hsame hcontinuation hlifecycle
  refine moves_steady (executionsOf es) hx ?_ ?_ ?_ ?_ hauthority hcontinued hsteady
  · rw [executionsOf_append]
    rfl
  · intro y hy
    exact (hids y hy).trans hauthority.id.symm
  · rw [leasesOf_append, hleases]
    rfl
  · rw [continuationsOf_append, hcontinuations]
    rfl

theorem blockedBy_authority (st : DurableState) (amb : AmbiguityRecord) (a : ActionRecord) :
    SameAuthority x (blockedBy st x amb a) ∧ (blockedBy st x amb a).continuation = x.continuation ∧
      (blockedBy st x amb a).lifecycle = x.lifecycle := by
  unfold blockedBy
  dsimp only
  split <;> exact ⟨⟨rfl, rfl, rfl, rfl, rfl, rfl, rfl, rfl, rfl⟩, rfl, rfl⟩

theorem Promotes.authority {a : ActionRecord} {g : CommitGroupRecord} (h : Promotes x a g) :
    SameAuthority x g.execution ∧ g.execution.continuation = x.continuation ∧
      g.execution.lifecycle = x.lifecycle := by
  obtain ⟨epoch, hg⟩ := h.execution
  rw [hg]
  exact ⟨⟨rfl, rfl, rfl, rfl, rfl, rfl, rfl, rfl, rfl⟩, rfl, rfl⟩

theorem transitioned_drops (hbound : x.Bound) (st : DurableState) {target : Lifecycle}
    (hdrops : dropsAuthority target = true) : Drops x (transitioned st x target) := by
  have hidle : ¬ isAttended target = true := by
    revert hdrops
    cases target <;> decide
  unfold transitioned
  dsimp only
  by_cases hvalid : x.lease.valid = true
  · rw [if_pos ⟨hdrops, hvalid⟩]
    exact ⟨rfl, ⟨rfl, rfl, rfl⟩, Nat.le_refl _, rfl, rfl, rfl, fun h => absurd h hidle⟩
  · rw [if_neg (fun h => hvalid h.2)]
    exact ⟨rfl, hbound.nil hvalid, Nat.le_refl _, rfl, rfl, rfl, fun h => absurd h hidle⟩

theorem transition_moves (hbound : x.Bound) (hx : j.state.executions.find x.id = some x)
    {target : Lifecycle} (hlegal : isLegalTransition x.lifecycle target = true)
    (hpublic : Intent.Public (.transition x.id target)) :
    Moves j ((if dropsAuthority target = true then leaseAs (heldActiveLease j.state x) .revoked
      else []) ++ [.execution (transitioned j.state x target)]) := by
  by_cases hdrops : dropsAuthority target = true
  · rw [if_pos hdrops]
    have hcontinuation : (transitioned j.state x target).continuation = x.continuation := by
      unfold transitioned
      dsimp only
      split <;> rfl
    refine .moved hx (.dropped (transitioned_drops hbound j.state hdrops)
      (relinquishes_heldActiveLease j.state x .revoked (fun h => by cases h))
      (.inl ⟨hcontinuation, rfl⟩)) ?_ ?_ ?_
    · simp [JournalEntry.executions, KeyedMap.insertAll]
    · simp [JournalEntry.leases]
    · simp [JournalEntry.continuations]
  · have htransitioned : transitioned j.state x target =
        { x with lifecycle := target, epoch := j.state.epoch } := if_neg (fun h => hdrops h.1)
    rw [if_neg hdrops, htransitioned]
    refine moves_steady [] hx rfl (fun y' hy' => by cases hy') rfl rfl
      ⟨rfl, rfl, rfl, rfl, rfl, rfl, rfl, rfl, rfl⟩ rfl ?_
    rcases hpublic with h | rfl | rfl
    · exact absurd h hdrops
    all_goals
      refine .within ?_ rfl (fun h => by cases h)
      revert hlegal
      cases x.lifecycle <;> decide

theorem nextGeneration_drops (hbound : x.Bound) (epoch : Nat) :
    Drops x { nextGeneration x with epoch := epoch } := by
  have hlifecycle : isAttended (nextGeneration x).lifecycle = true → False := by
    unfold nextGeneration
    dsimp only
    split
    next => exact fun h => by cases h
    next hidle => exact fun h => hidle (isAttended_active h)
  unfold nextGeneration at hlifecycle ⊢
  dsimp only at hlifecycle ⊢
  split
  next hvalid =>
    exact ⟨rfl, ⟨rfl, rfl, rfl⟩, Nat.le_succ _, rfl, rfl, rfl, fun h => (hlifecycle h).elim⟩
  next hnone =>
    exact ⟨rfl, hbound.nil hnone, Nat.le_succ _, rfl, rfl, rfl, fun h => (hlifecycle h).elim⟩

theorem advance_moves (hbound : x.Bound) (hx : j.state.executions.find x.id = some x) :
    Moves j ((staleContinuations j.state x.id).map .continuation ++
      leaseAs (heldActiveLease j.state x) .revoked ++
      [.execution { nextGeneration x with epoch := j.state.epoch }]) := by
  refine .moved hx (.dropped (nextGeneration_drops hbound j.state.epoch)
    (relinquishes_heldActiveLease j.state x .revoked (fun h => by cases h))
    (.inr (demotes_staleContinuations j.state x.id))) ?_ ?_ ?_
  · simp [JournalEntry.executions, KeyedMap.insertAll]
  · simp [JournalEntry.leases]
  · simp [JournalEntry.continuations]

theorem lose_moves (hbound : x.Bound) (hx : j.state.executions.find x.id = some x) :
    Moves j (fenceRecords j.state x) := by
  have hfenced : ∀ l : Lifecycle, isLegalTransition l .fenced = false → ¬ isAttended l = true := by
    intro l
    cases l <;> decide
  unfold fenceRecords
  split
  next => exact moves_idle hx rfl rfl rfl
  next hneeded =>
    dsimp only
    split
    next hvalid =>
      refine .moved hx (.dropped (y := (if isLegalTransition x.lifecycle .fenced = true then
        { x with lifecycle := .fenced } else x).withoutLease) ?_ (relinquishes_heldLease j.state x)
        (.inl ⟨?_, rfl⟩)) ?_ ?_ ?_
      · split
        next => exact ⟨rfl, ⟨rfl, rfl, rfl⟩, Nat.le_refl _, rfl, rfl, rfl, fun h => by cases h⟩
        next hillegal =>
          exact ⟨rfl, ⟨rfl, rfl, rfl⟩, Nat.le_refl _, rfl, rfl, rfl,
            fun h => absurd h (hfenced _ (Bool.eq_false_iff.mpr hillegal))⟩
      · split <;> rfl
      · simp [JournalEntry.executions, KeyedMap.insertAll]
      · rw [show heldLease j.state x = j.state.leases.find x.lease from if_pos hvalid]
        simp [JournalEntry.leases]
      · simp [JournalEntry.continuations]
    next hnone =>
      have hlegal : isLegalTransition x.lifecycle .fenced = true := by
        by_contra hillegal
        exact hneeded ⟨Bool.eq_false_iff.mpr hillegal, Bool.eq_false_iff.mpr hnone⟩
      rw [if_pos hlegal]
      exact .moved hx (.dropped (y := { x with lifecycle := .fenced })
        ⟨rfl, hbound.nil hnone, Nat.le_refl _, rfl, rfl, rfl, fun h => by cases h⟩ (relinquishes_nil (hbound.nil hnone).1) (.inl ⟨rfl, rfl⟩)) rfl rfl rfl

theorem begin_moves (hx : j.state.executions.find x.id = some x) (a : ActionRecord)
    (redriven : Option ActionRecord) (replay : ActionRecord → ReplayRecord) :
    Moves j (redriven.toList.map (fun r => .replay (replay r)) ++
      [.action a, .execution (dispatched x a redriven)]) := by
  have hnone : ∀ rs : List ActionRecord,
      executionsOf (rs.map fun r => .replay (replay r)) = [] ∧
      leasesOf (rs.map fun r => .replay (replay r)) = [] ∧
      continuationsOf (rs.map fun r => .replay (replay r)) = [] := by
    intro rs
    induction rs with
    | nil => exact ⟨rfl, rfl, rfl⟩
    | cons r rest ih => exact ih
  obtain ⟨hexecutions, hleases, hcontinuations⟩ := hnone redriven.toList
  refine moves_steady [] (y := dispatched x a redriven) hx ?_ (fun y' hy' => by cases hy')
    ?_ ?_ ⟨rfl, rfl, rfl, rfl, rfl, rfl, rfl, rfl, rfl⟩ rfl (.same _)
  · rw [executionsOf_append, hexecutions]
    rfl
  · rw [leasesOf_append, hleases]
    rfl
  · rw [continuationsOf_append, hcontinuations]
    rfl

section Promotion

variable {a : ActionRecord} {g : CommitGroupRecord} (hg : Promotes x a g)

include hg

theorem Promotes.complete_moves (hx : j.state.executions.find x.id = some x) :
    Moves j [.commitGroup g] := by
  obtain ⟨hauthority, hcontinuation, hlifecycle⟩ := hg.authority
  exact moves_steady [] hx rfl (fun y' hy' => by cases hy') rfl rfl hauthority hcontinuation
    (steady_recovered _ _ (.inr hlifecycle))

theorem Promotes.recover_moves (hx : j.state.executions.find x.id = some x) (plan : RecoveryPlan)
    (inFlight : Option ActionRecord) :
    Moves j (.commitGroup g :: recoveryRecords j.state x g.execution plan inFlight) := by
  obtain ⟨hauthority, hcontinuation, hlifecycle⟩ := hg.authority
  refine recovery_moves [.commitGroup g] hx ?_ rfl rfl hauthority hcontinuation hlifecycle
  intro y hy
  rw [List.mem_singleton.mp hy]
  exact hauthority.id

theorem Promotes.resolve_moves (hx : j.state.executions.find x.id = some x)
    (amb : AmbiguityRecord) :
    Moves j [.commitGroup g, .ambiguity amb, .execution g.execution.unblocked] := by
  obtain ⟨hauthority, hcontinuation, hlifecycle⟩ := hg.authority
  refine moves_steady [g.execution] (y := g.execution.unblocked) hx rfl ?_ rfl rfl
    { hauthority with } hcontinuation (steady_recovered _ _ (.inr hlifecycle))
  intro y' hy'
  rw [List.mem_singleton.mp hy']
  rfl

end Promotion

theorem recoverAmbiguous_moves (hx : j.state.executions.find x.id = some x)
    (amb : AmbiguityRecord) (a b : ActionRecord) (plan : RecoveryPlan) :
    Moves j (.ambiguity amb :: .action b ::
      recoveryRecords j.state x (blockedBy j.state x amb a) plan (some a)) := by
  obtain ⟨hauthority, hcontinuation, hlifecycle⟩ := blockedBy_authority (x := x) j.state amb a
  exact recovery_moves [.ambiguity amb, .action b] hx (fun y hy => by cases hy) rfl rfl
    hauthority hcontinuation hlifecycle

end Moves

/-- Every transaction of a call, a lost worker or a restart is a move. -/
theorem Transaction.moves {ds : List Derivation} {j : Journaled} {i : Intent}
    {es : List JournalEntry} (hc : j.state.image.Coherent ds) (hpublic : i.Public)
    (ht : Transaction j i es) : Moves j es := by
  cases ht with
  | create policy hid => exact .created policy rfl
  | @updatePolicy x policy hx hgeneration => exact updatePolicy_moves (hc.bound _ x hx) hx policy
  | @bind x request hx hworker hboot hbindable hlive =>
    exact bind_moves hx request hworker hboot hbindable
  | @start x l token htoken hready => exact start_moves htoken _
  | @begin x l request htoken hrunning hblocked => exact begin_moves (token_execution htoken) _ _ _
  | @complete x l a request htoken hrunning ha hfresh hdefect hcommit =>
    exact (commitGroupOf_promotes j.state x a request.request request.evidence).complete_moves
      (token_execution htoken)
  | @fail x l a request htoken ha howner hcommitted hambiguous =>
    exact moves_idle (token_execution htoken) rfl rfl rfl
  | @report x l a request htoken ha hcommitted hambiguous habandoned =>
    exact moves_idle (token_execution htoken) rfl rfl rfl
  | @enterCheckpoint x l request htoken hlifecycle =>
    exact enterCheckpoint_moves (token_execution htoken)
  | @checkpoint x l depth request htoken hlifecycle hdepth => exact checkpoint_moves htoken _
  | @enterResume x l request htoken hresumable hrecovery =>
    exact moves_steady [] (token_execution htoken) rfl (fun y' hy' => by cases hy') rfl rfl
      ⟨rfl, rfl, rfl, rfl, rfl, rfl, rfl, rfl, rfl⟩ rfl (.resuming _)
  | @resume x l request htoken hresumable hrecovery hvalid => exact resume_moves htoken _
  | @recoverPlain x hx hlive hopens hreceipt =>
    exact recovery_moves [] hx (fun y hy => by cases hy) rfl rfl (.refl x) rfl rfl
  | @recoverAmbiguous x a hx hlive hopens ha => exact recoverAmbiguous_moves hx _ _ _ _
  | @recoverCommit x a request hx hlive hreceipt ha hcommit =>
    exact (commitGroupOf_promotes j.state x a request a.receipt).recover_moves hx _ _
  | @resolveCommit x amb a request hx hamb howner hopen ha hresolution hcommit =>
    exact (commitGroupOf_promotes j.state x a request.request request.evidence).resolve_moves hx _
  | @resolveAction x amb a request status hx hamb howner hopen ha hresolution =>
    exact moves_steady [] (y := x.unblocked) hx rfl (fun y' hy' => by cases hy') rfl rfl
      ⟨rfl, rfl, rfl, rfl, rfl, rfl, rfl, rfl, rfl⟩ rfl (.same _)
  | @resolveManual x amb a request hx hamb howner hopen ha hresolution =>
    exact moves_steady [] (y := { x with blocked := true }) hx rfl
      (fun y' hy' => by cases hy') rfl rfl ⟨rfl, rfl, rfl, rfl, rfl, rfl, rfl, rfl, rfl⟩ rfl (.same _)
  | @transition x target hx hlegal hambiguity =>
    exact transition_moves (hc.bound _ x hx) hx hlegal hpublic
  | @advance x hx hlive => exact advance_moves (hc.bound _ x hx) hx
  | @lose x hx hlive => exact lose_moves (hc.bound _ x hx) hx

end ExecutionFabric
