import ExecutionFabric.Audit.Succession

/-!
# Checkpoints

What a registration leaves under the id it answers with, and what the effect boundary of
that checkpoint says about the actions of the execution.
-/
namespace ExecutionFabric

open Lib Program

section

variable {e : JournalEntry} {es fs : List JournalEntry}

def checkpointsOf (es : List JournalEntry) : List CheckpointRecord := es.flatMap (·.checkpoints)

@[simp] theorem checkpointsOf_nil : checkpointsOf [] = [] := rfl

@[simp] theorem checkpointsOf_cons :
    checkpointsOf (e :: es) = e.checkpoints ++ checkpointsOf es := rfl

@[simp] theorem checkpointsOf_append :
    checkpointsOf (es ++ fs) = checkpointsOf es ++ checkpointsOf fs := List.flatMap_append

end

theorem Image.checkpoints_installAll (m : Image) (es : List JournalEntry) :
    (m.installAll es).checkpoints = m.checkpoints.insertAll (checkpointsOf es) := by
  induction es generalizing m with
  | nil => rfl
  | cons e rest ih =>
    rw [installAll_cons, ih]
    cases e <;> rfl

theorem checkpoints_map_continuation (cs : List ContinuationRecord) :
    checkpointsOf (cs.map JournalEntry.continuation) = [] := by
  induction cs with
  | nil => rfl
  | cons c rest ih => exact ih

theorem checkpoints_map_checkpoint (cs : List CheckpointRecord) :
    checkpointsOf (cs.map JournalEntry.checkpoint) = cs := by
  induction cs with
  | nil => rfl
  | cons c rest ih =>
    rw [List.map_cons, checkpointsOf_cons, ih]
    rfl

theorem checkpoints_enterCheckpointing (x : ExecutionRecord) :
    checkpointsOf (enterCheckpointing x) = [] := by
  unfold enterCheckpointing
  split <;> rfl

theorem checkpoints_continuationRecords (st : DurableState) (x : ExecutionRecord)
    (c : ContinuationRecord) : checkpointsOf (continuationRecords st x c) = [] := by
  unfold continuationRecords
  rw [checkpointsOf_append, checkpoints_map_continuation]
  rfl

/-- A registration writes the new checkpoint and then the demoted one. -/
theorem checkpoints_checkpointRecords (j : Journaled) (x : ExecutionRecord) (c : CheckpointRecord) :
    checkpointsOf (checkpointRecords j x c) =
      c :: (demotedCheckpoint (j.write (newCheckpointRecords x c)).state x).toList := by
  unfold checkpointRecords demotionRecords newCheckpointRecords
  rw [checkpointsOf_append, checkpointsOf_append, checkpointsOf_append,
    checkpoints_continuationRecords, checkpoints_map_checkpoint, checkpoints_enterCheckpointing]
  simp only [checkpointsOf_cons, checkpointsOf_nil, JournalEntry.checkpoints, List.append_nil,
    List.nil_append, List.singleton_append]

/-- A demotion changes the state of a stored checkpoint only. -/
theorem demotedCheckpoint_some {st : DurableState} {x : ExecutionRecord} {c : CheckpointRecord}
    (h : demotedCheckpoint st x = some c) : ∃ previous state,
      st.checkpoints.find x.checkpoint = some previous ∧ c = { previous with state := state } := by
  unfold demotedCheckpoint at h
  split at h
  · split at h
    next previous hfind =>
      split at h
      · exact ⟨previous, _, hfind, (Option.some.inj h).symm⟩
      · cases h
    · cases h
  · cases h

theorem checkpoints_newCheckpointRecords (j : Journaled) (x : ExecutionRecord)
    (c : CheckpointRecord) : (j.write (newCheckpointRecords x c)).state.image.checkpoints =
      j.state.image.checkpoints.insert c := by
  rw [Journaled.image_write, Image.checkpoints_installAll]
  unfold newCheckpointRecords
  rw [checkpointsOf_append, checkpoints_enterCheckpointing]
  rfl

/-- After a registration the new id holds the new checkpoint, up to its state. -/
theorem checkpointRecords_stored (j : Journaled) (x : ExecutionRecord) (c : CheckpointRecord) :
    ∃ state, (j.write (checkpointRecords j x c)).state.checkpoints.find c.id =
      some { c with state := state } := by
  show ∃ state, (j.write (checkpointRecords j x c)).state.image.checkpoints c.id = _
  rw [Journaled.image_write, Image.checkpoints_installAll, checkpoints_checkpointRecords]
  cases hdemoted : demotedCheckpoint (j.write (newCheckpointRecords x c)).state x with
  | none => exact ⟨c.state, KeyedMap.insert_self _ _⟩
  | some d =>
    obtain ⟨previous, state, hprevious, rfl⟩ := demotedCheckpoint_some hdemoted
    have hread : (j.write (newCheckpointRecords x c)).state.image.checkpoints x.checkpoint =
        some previous := hprevious
    rw [checkpoints_newCheckpointRecords] at hread
    show ∃ s, ((j.state.image.checkpoints.insert c).insert { previous with state := state }) c.id =
      some { c with state := s }
    by_cases hid : c.id = previous.id
    · rcases KeyedMap.insert_eq_some hread with ⟨-, rfl⟩ | ⟨hne, hstored⟩
      · exact ⟨state, KeyedMap.insert_self (j.state.image.checkpoints.insert previous)
          { previous with state := state }⟩
      · have hkey := j.state.image.checkpoints.keyed _ _ hstored
        exact absurd (hkey.symm.trans hid.symm) hne
    · refine ⟨c.state, ?_⟩
      rw [KeyedMap.insert_of_ne _ (show c.id ≠ ({ previous with state := state } :
        CheckpointRecord).id from hid)]
      exact KeyedMap.insert_self _ _

theorem actions_checkpointRecords_installAll (j : Journaled) (x : ExecutionRecord)
    (c : CheckpointRecord) : (j.write (checkpointRecords j x c)).state.image.actions =
      j.state.image.actions := by
  have heffects := Image.effects_installAll j.state.image (checkpointRecords j x c)
  unfold checkpointRecords at heffects
  rw [effectsOf_append, effectsOf_demotionRecords, effectsOf_continuationRecords] at heffects
  rw [Journaled.image_write]
  exact heffects.actions

/-! ## The effect boundary -/

/-- An action of `e` whose newest generation has no durably settled outcome. -/
structure Unsettled (st : DurableState) (e : ExecutionId) (a : ActionRecord) : Prop where
  stored : st.actions.find a.key = some a
  owner : a.execution = e
  newest : ∀ b, st.actions.find b.key = some b → b.execution = e → b.sequence = a.sequence →
    b.generation ≤ a.generation
  unsettled : a.status = .prepared ∨ a.status = .inFlight ∨ a.status = .ambiguous

/-- The effect boundary of the stored checkpoint lies below every unsettled action of its
execution. -/
def BoundarySound (st : DurableState) (id : CheckpointId) : Prop :=
  ∃ c, st.checkpoints.find id = some c ∧
    ∀ a, Unsettled st c.execution a → c.effectBoundaryOrdinal < a.sequence

theorem unsettled_iff_of_actions {st st' : DurableState} (h : st'.image.actions = st.image.actions)
    (e : ExecutionId) (a : ActionRecord) : Unsettled st' e a ↔ Unsettled st e a := by
  have hfind : ∀ b : ActionRecord, st'.actions.find b.key = st.actions.find b.key := fun b => by
    show st'.image.actions b.key = st.image.actions b.key
    rw [h]
  constructor
  · rintro ⟨hstored, howner, hnewest, hstatus⟩
    refine ⟨(hfind a).symm.trans hstored, howner, fun b hb => ?_, hstatus⟩
    exact hnewest b ((hfind b).trans hb)
  · rintro ⟨hstored, howner, hnewest, hstatus⟩
    refine ⟨(hfind a).trans hstored, howner, fun b hb => ?_, hstatus⟩
    exact hnewest b ((hfind b).symm.trans hb)

/-- The boundary of a registration is sound exactly when the caller's own ordinal, clamped to the
frontier, lies below every unsettled action. -/
theorem effect_boundary_sound_iff {s : Runtime} {request : RegisterCheckpointRequest}
    {out : RegisterCheckpointResult} {x : ExecutionRecord}
    (huncached : lookupRequest s request.request = none)
    (hx : s.state.executions.find request.token.execution = some x)
    (hok : ((registerCheckpoint request).exec s).1 = .ok out) :
    BoundarySound ((registerCheckpoint request).exec s).2.state out.checkpoint ↔
      ∀ a, Unsettled s.state request.token.execution a →
        min request.effectBoundaryOrdinal.toNat x.actionFrontier < a.sequence := by
  have hends : RegisterEnds s request ((registerCheckpoint request).exec s).1
      ((registerCheckpoint request).exec s).2 := registerCheckpoint_ends s request
  rw [hok] at hends
  generalize ((registerCheckpoint request).exec s).2 = s' at hends ⊢
  cases hends with
  | quiet h =>
    rcases h with hhit | ⟨e, he⟩
    · rw [show s.requestCache request.request = none from huncached] at hhit
      cases hhit
    · cases he
  | @stored y l depth _ _ htoken hmiss hdepth hhash hout hwrote =>
    obtain ⟨hy, hid⟩ := validateToken_execution htoken
    obtain rfl := Option.some.inj (hx.symm.trans hy)
    have hstate : s'.state = (s.toJournaled.write (checkpointRecords s.toJournaled x
        (registeredCheckpoint s.state x request depth))).state := by
      rw [← hwrote.journaled]
    obtain ⟨state, hstored⟩ := checkpointRecords_stored s.toJournaled x
      (registeredCheckpoint s.state x request depth)
    have hactions := actions_checkpointRecords_installAll s.toJournaled x
      (registeredCheckpoint s.state x request depth)
    rw [← hstate] at hstored hactions
    have hboundary : (registeredCheckpoint s.state x request depth).effectBoundaryOrdinal =
        min request.effectBoundaryOrdinal.toNat x.actionFrontier := by
      unfold registeredCheckpoint
      dsimp only
      split <;> omega
    have howner : (registeredCheckpoint s.state x request depth).execution =
        request.token.execution := hid
    unfold BoundarySound
    rw [hout]
    constructor
    · rintro ⟨c, hc, hsound⟩ a ha
      obtain rfl := Option.some.inj (hstored.symm.trans hc)
      rw [← hboundary]
      refine hsound a ((unsettled_iff_of_actions hactions _ a).mpr ?_)
      rw [← howner] at ha
      exact ha
    · intro hbelow
      refine ⟨_, hstored, fun a ha => ?_⟩
      have ha' := (unsettled_iff_of_actions hactions _ a).mp ha
      rw [show ({ registeredCheckpoint s.state x request depth with state := state } :
        CheckpointRecord).execution = request.token.execution from howner] at ha'
      exact lt_of_eq_of_lt hboundary (hbelow a ha')

theorem unsettled_of_records {st : DurableState} {e : ExecutionId} {a : ActionRecord}
    (hmem : a ∈ st.actions.records) (howner : a.execution = e)
    (hnewest : ∀ b ∈ st.actions.records, b.execution = e → b.sequence = a.sequence →
      b.generation ≤ a.generation)
    (hstatus : a.status = .prepared ∨ a.status = .inFlight ∨ a.status = .ambiguous) :
    Unsettled st e a := by
  refine ⟨(Table.find_eq_some_iff _ _ _).mpr ⟨hmem, rfl⟩, howner, fun b hb => ?_, hstatus⟩
  exact hnewest b ((Table.find_eq_some_iff _ _ _).mp hb).1

theorem settled_of_records {st : DurableState} {e : ExecutionId}
    (h : ∀ a ∈ st.actions.records,
      a.status ≠ .prepared ∧ a.status ≠ .inFlight ∧ a.status ≠ .ambiguous) (a : ActionRecord) :
    ¬ Unsettled st e a := by
  rintro ⟨hstored, -, -, hstatus⟩
  obtain ⟨hprepared, hinFlight, hambiguous⟩ :=
    h a ((Table.find_eq_some_iff _ _ _).mp hstored).1
  rcases hstatus with hstatus | hstatus | hstatus
  · exact hprepared hstatus
  · exact hinFlight hstatus
  · exact hambiguous hstatus

/-- The first execution of store 1 asks for a checkpoint that accounts for its first action. -/
def firstCheckpoint : RegisterCheckpointRequest where
  token := firstToken (deriveExecutionId ⟨1⟩ 1) ⟨2⟩ ⟨7⟩
  contentHash := 1
  effectBoundaryOrdinal := 1

/-- What `firstCheckpoint` is answered with. -/
def firstCheckpointResult (s : Runtime) : RegisterCheckpointResult :=
  ((registerCheckpoint firstCheckpoint).exec s).1.toOption.getD {}

/-- After the commit the boundary is sound. -/
theorem effect_boundary_sound_committed :
    let s := performAll committedRun {}
    BoundarySound ((registerCheckpoint firstCheckpoint).exec s).2.state
      (firstCheckpointResult s).checkpoint := by
  intro s
  have huncached : lookupRequest s firstCheckpoint.request = none := by decide +kernel
  have hsome : (s.state.executions.find firstCheckpoint.token.execution).isSome = true := by
    decide +kernel
  have hok : ((registerCheckpoint firstCheckpoint).exec s).1 = .ok (firstCheckpointResult s) := by
    decide +kernel
  have hsettled : ∀ a ∈ s.state.actions.records,
      a.status ≠ .prepared ∧ a.status ≠ .inFlight ∧ a.status ≠ .ambiguous := by decide +kernel
  obtain ⟨x, hx⟩ := Option.isSome_iff_exists.mp hsome
  refine (effect_boundary_sound_iff huncached hx hok).mpr fun a ha => ?_
  exact absurd ha (settled_of_records hsettled a)

/-- A dispatched action lies within the boundary its own caller asks for. -/
theorem effect_boundary_unsound :
    ¬ ∀ (events : List Event) (s : Runtime) (request : RegisterCheckpointRequest)
      (out : RegisterCheckpointResult), Runs anyEvent {} events s →
      lookupRequest s request.request = none →
      ((registerCheckpoint request).exec s).1 = .ok out →
      BoundarySound ((registerCheckpoint request).exec s).2.state out.checkpoint := by
  intro h
  let e := deriveExecutionId ⟨1⟩ 1
  let events := [openAs 1, createOne] ++ workOn e 1
  let s := performAll events {}
  let st := ((registerCheckpoint firstCheckpoint).exec s).2.state
  obtain ⟨c, hc, hsound⟩ := h events s firstCheckpoint (firstCheckpointResult s)
    (runs_performAll events {}) (by decide +kernel) (by decide +kernel)
  let a := (st.findAction (deriveActionId e 1) 1).getD {}
  have hunsettled : Unsettled st e a :=
    unsettled_of_records (by decide +kernel) (by decide +kernel) (by decide +kernel)
      (.inr (.inl (by decide +kernel)))
  have hfields : (st.checkpoints.find (firstCheckpointResult s).checkpoint).map
      (fun c => (c.execution, c.effectBoundaryOrdinal)) = some (e, 1) := by decide +kernel
  have hordinal : a.sequence = 1 := by decide +kernel
  have hread : st.checkpoints.find (firstCheckpointResult s).checkpoint = some c := hc
  rw [hread, Option.map_some, Option.some.injEq, Prod.mk.injEq] at hfields
  rw [← hfields.1] at hunsettled
  have hbelow := hsound a hunsettled
  omega

end ExecutionFabric
