import ExecutionFabric.Audit.Redriving

/-!
# What a replay carries

`begin_action` re-drives a failed frontier under its id and ordinal and within the depth bound of
the policy. Whether the policy permits replays at all, and whether the request carries the class
and key of the failed generation, it does not ask.
-/
namespace ExecutionFabric

open Lib Program

/-- The step from `s` to `s'` stores the admitted replay `r`. -/
structure StoresReplay (s s' : Runtime) (r : ReplayRecord) : Prop where
  admitted : r.status = .admitted
  stored : s'.state.replays.find r.id = some r
  isNew : s.state.replays.find r.id ≠ some r

/-- The replay `r` re-drives `old` as `new`, under the policy `p` of the execution. -/
structure FaithfulReplay (s s' : Runtime) (x : ExecutionRecord) (r : ReplayRecord)
    (p : ExecutionPolicy) (old new : ActionRecord) : Prop where
  replayed : s.state.findAction r.action r.actionGeneration = some old
  unapplied : old.status = .failed ∨ old.status = .effectNotApplied
  begun : s'.state.findAction r.newAction r.newActionGeneration = some new
  sameAction : new.id = old.id
  sameOrdinal : new.sequence = old.sequence
  nextGeneration : new.generation = old.generation + 1
  policy : policyOf s.state x = some p
  permitted : p.replayAllowance ≠ .forbidReplay
  depth : new.generation ≤ p.maxReplayDepth.toNat
  sameClass : new.effectClass = old.effectClass
  sameKey : new.requestKey = old.requestKey

/-- The policy does not forbid replay, and the request has the class and key of the newest
generation of the frontier. -/
def ReplayPermitted (st : DurableState) (request : BeginActionRequest) (x : ExecutionRecord) :
    Prop :=
  forbidsReplay (policyOf st x) = false ∧ ∀ a, frontierAction st x = some a →
    request.effectClass = a.effectClass ∧ request.requestKey = a.requestKey

/-- A replay appears only where a failed frontier is re-driven. -/
theorem replay_of_beginRecords {s : Runtime} {request : BeginActionRequest} {x : ExecutionRecord}
    {r : ReplayRecord}
    (hstored : (s.toJournaled.write (beginRecords s request x)).state.image.replays r.id = some r)
    (hnew : s.state.image.replays r.id ≠ some r) : ∃ a, redriven x (s.latestAction x.id) = some a ∧
      r = admittedReplay s.state x request a (begun s request x) := by
  rw [Journaled.image_write] at hstored
  unfold beginRecords at hstored
  cases hredriven : redriven x (s.latestAction x.id) with
  | none =>
    rw [hredriven] at hstored
    exact absurd hstored hnew
  | some a =>
    refine ⟨a, rfl, ?_⟩
    rw [hredriven] at hstored
    have hinsert : s.state.image.replays.insert
        (admittedReplay s.state x request a (begun s request x)) r.id = some r := hstored
    rcases KeyedMap.insert_eq_some hinsert with ⟨-, rfl⟩ | ⟨-, hold⟩
    · rfl
    · exact absurd hold hnew

/-- The begun action is stored under its own key. -/
theorem begun_stored (s : Runtime) (request : BeginActionRequest) (x : ExecutionRecord) :
    (s.toJournaled.write (beginRecords s request x)).state.image.actions (begun s request x).key =
      some (begun s request x) := by
  rw [Journaled.image_write]
  unfold beginRecords
  rw [Image.installAll_append]
  exact KeyedMap.insert_self _ _

/-- Begins what `failedAfter` began and failed. -/
def repeatedAction : BeginActionRequest where
  token := firstWorker
  effectClass := .pure

/-- The replay stored first. -/
def firstReplay (s : Runtime) : ReplayRecord := s.state.replays.records.headD {}

end ExecutionFabric
