import ExecutionFabric.Audit.CheckpointCurrency
import ExecutionFabric.Audit.Counters

/-!
# Outdated checkpoints

A stored checkpoint keeps the generations it was taken under, and those of its execution only grow.
So it is outdated by the first policy update or generation advance that takes effect on the execution
while it is stored, and stays outdated. Neither resume nor recovery compares the generations.
-/
namespace ExecutionFabric

open Lib Program

/-- The checkpoint carries the present generations of the execution. -/
structure CheckpointRecord.StampedBy (c : CheckpointRecord) (x : ExecutionRecord) : Prop where
  executionGeneration : c.executionGeneration = x.generation
  policyGeneration : c.policyGeneration = x.policyGeneration

/-- The execution has a current checkpoint, and no number of `c` is ahead of the execution. -/
structure CheckpointRecord.Behind (c : CheckpointRecord) (x : ExecutionRecord) : Prop where
  current : x.checkpoint ≠ .nil
  generation : c.generation ≤ x.checkpointGeneration
  executionGeneration : c.executionGeneration ≤ x.generation
  policyGeneration : c.policyGeneration ≤ x.policyGeneration

/-- `y` is a later version of `x`. Its generations are new only if it was `renewed`. -/
structure ExecutionRecord.Ages (renewed : Prop) (x y : ExecutionRecord) : Prop where
  current : x.checkpoint ≠ .nil → y.checkpoint ≠ .nil
  checkpointGeneration : x.checkpointGeneration ≤ y.checkpointGeneration
  generation : x.generation ≤ y.generation
  policyGeneration : x.policyGeneration ≤ y.policyGeneration
  stamp : ¬ renewed → x.SameStamp y

/-- No execution and no checkpoint is forgotten, a stored checkpoint only changes its state, and a
new one is taken of its execution as it is. -/
structure Image.Ages (renews : ExecutionId → Prop) (m m' : Image) : Prop where
  executions : ∀ e x, m.executions e = some x →
    ∃ y, m'.executions e = some y ∧ ExecutionRecord.Ages (renews e) x y
  kept : ∀ k c, m.checkpoints k = some c →
    ∃ state, m'.checkpoints k = some { c with state := state }
  made : ∀ k c, m.checkpoints k = none → m'.checkpoints k = some c →
    ∃ x, m'.executions c.execution = some x ∧ c.StampedBy x ∧ c.Behind x

/-- Checkpoints are seeded, and none is ahead of its execution. -/
structure Image.Abreast (m : Image) : Prop where
  seeded : m.Seeded
  behind : ∀ k c x, m.checkpoints k = some c → m.executions c.execution = some x → c.Behind x

/-- The checkpoint `k` carries the present generations of its execution. -/
def Image.StampedAt (k : CheckpointId) (m : Image) : Prop :=
  ∀ c x, m.checkpoints k = some c → m.executions c.execution = some x → c.StampedBy x

/-- A generation of the execution of the checkpoint `k` has been replaced. -/
def Image.OutdatedAt (k : CheckpointId) (m : Image) : Prop :=
  ∃ c x, m.checkpoints k = some c ∧ m.executions c.execution = some x ∧
    (c.executionGeneration < x.generation ∨ c.policyGeneration < x.policyGeneration)

section Images

variable {m m' : Image} {renews : ExecutionId → Prop} {k : CheckpointId}

theorem Image.Vacant.abreast (h : m.Vacant) : m.Abreast := by
  refine ⟨h.seeded, fun k c x hc => ?_⟩
  rw [h.checkpoints] at hc
  cases hc

theorem Image.Vacant.stampedAt (h : m.Vacant) : m.StampedAt k := by
  intro c x hc
  rw [h.checkpoints] at hc
  cases hc

/-- Where a checkpoint of the later image comes from. -/
theorem Image.Ages.checkpoint (ha : m.Ages renews m') {c : CheckpointRecord}
    (hc : m'.checkpoints k = some c) :
    (∃ d state, m.checkpoints k = some d ∧ c = { d with state := state }) ∨
      ∃ x, m'.executions c.execution = some x ∧ c.StampedBy x ∧ c.Behind x := by
  cases hold : m.checkpoints k with
  | none => exact .inr (ha.made k c hold hc)
  | some d =>
    obtain ⟨state, hd⟩ := ha.kept k d hold
    exact .inl ⟨d, state, rfl, Option.some.inj (hc.symm.trans hd)⟩

theorem CheckpointRecord.Behind.ages {c : CheckpointRecord} {x y : ExecutionRecord} {renewed : Prop}
    (h : c.Behind x) (ha : ExecutionRecord.Ages renewed x y) : c.Behind y where
  current := ha.current h.current
  generation := Nat.le_trans h.generation ha.checkpointGeneration
  executionGeneration := Nat.le_trans h.executionGeneration ha.generation
  policyGeneration := Nat.le_trans h.policyGeneration ha.policyGeneration

/-- The new version of the execution of a stored checkpoint. -/
theorem Image.Abreast.owner (h : m.Abreast) (ha : m.Ages renews m') {c : CheckpointRecord}
    {y : ExecutionRecord} (hc : m.checkpoints k = some c) (hy : m'.executions c.execution = some y) :
    ∃ x, m.executions c.execution = some x ∧ ExecutionRecord.Ages (renews c.execution) x y := by
  obtain ⟨x, hx⟩ := h.seeded.owned k c hc
  obtain ⟨z, hz, hages⟩ := ha.executions _ x hx
  obtain rfl := Option.some.inj (hy.symm.trans hz)
  exact ⟨x, hx, hages⟩

theorem Image.Abreast.ages (h : m.Abreast) (ha : m.Ages renews m') (hseeded : m'.Seeded) :
    m'.Abreast := by
  refine ⟨hseeded, fun k c y hc hy => ?_⟩
  rcases ha.checkpoint hc with ⟨d, state, hd, rfl⟩ | ⟨x, hx, -, hbehind⟩
  · obtain ⟨x, hx, hages⟩ := h.owner ha hd hy
    have hbehind := (h.behind k d x hd hx).ages hages
    exact ⟨hbehind.current, hbehind.generation, hbehind.executionGeneration,
      hbehind.policyGeneration⟩
  · rw [Option.some.inj (hy.symm.trans hx)]
    exact hbehind

/-- A checkpoint keeps the present stamps until its execution is renewed. -/
theorem Image.StampedAt.ages (hstamped : m.StampedAt k) (h : m.Abreast) (ha : m.Ages renews m')
    (hspared : ∀ d, m.checkpoints k = some d → ¬ renews d.execution) : m'.StampedAt k := by
  intro c y hc hy
  rcases ha.checkpoint hc with ⟨d, state, hd, rfl⟩ | ⟨x, hx, hstamp, -⟩
  · obtain ⟨x, hx, hages⟩ := h.owner ha hd hy
    have hsame := hages.stamp (hspared d hd)
    have hold := hstamped d x hd hx
    exact ⟨hold.executionGeneration.trans hsame.generation.symm,
      hold.policyGeneration.trans hsame.policyGeneration.symm⟩
  · rw [Option.some.inj (hy.symm.trans hx)]
    exact hstamp

/-- An outdated checkpoint stays outdated. -/
theorem Image.OutdatedAt.ages (h : m.OutdatedAt k) (ha : m.Ages renews m') : m'.OutdatedAt k := by
  obtain ⟨c, x, hc, hx, hlater⟩ := h
  obtain ⟨state, hc'⟩ := ha.kept k c hc
  obtain ⟨y, hy, hages⟩ := ha.executions _ x hx
  refine ⟨{ c with state := state }, y, hc', hy, ?_⟩
  rcases hlater with hgeneration | hpolicy
  · exact .inl (Nat.lt_of_lt_of_le hgeneration hages.generation)
  · exact .inr (Nat.lt_of_lt_of_le hpolicy hages.policyGeneration)

/-- A version at the same checkpoint, with counters that were not taken back. -/
theorem ExecutionRecord.Ages.of_point {x y : ExecutionRecord} {renewed : Prop}
    (hpoint : x.SamePoint y) (hcounted : x.CountedBy y) (hstamp : ¬ renewed → x.SameStamp y) :
    ExecutionRecord.Ages renewed x y where
  current := fun h => hpoint.checkpoint ▸ h
  checkpointGeneration := hpoint.checkpointGeneration.ge
  generation := hcounted.generation
  policyGeneration := hcounted.policyGeneration
  stamp := hstamp

theorem ExecutionRecord.Ages.refl {renewed : Prop} (x : ExecutionRecord) :
    ExecutionRecord.Ages renewed x x :=
  .of_point (.refl x) (.refl x) fun _ => .refl x

/-- Images with the same checkpoints whose executions have aged. -/
theorem Image.Ages.of_checkpoints (hcheckpoints : m'.checkpoints = m.checkpoints)
    (hexecutions : ∀ e x, m.executions e = some x →
      ∃ y, m'.executions e = some y ∧ ExecutionRecord.Ages (renews e) x y) : m.Ages renews m' := by
  refine ⟨hexecutions, fun k c hc => ⟨c.state, ?_⟩, fun k c hnone hc => ?_⟩
  · rw [hcheckpoints]
    exact hc
  · rw [hcheckpoints, hnone] at hc
    cases hc

theorem Image.Agrees.ages (ha : m.Agrees m') : m.Ages renews m' := by
  refine .of_checkpoints ha.checkpoints fun e x hx => ?_
  obtain ⟨y, frontier, generation, hy, rfl⟩ := ha.symm.execution hx
  exact ⟨y, hy, .of_point ⟨rfl, rfl⟩ (.of_same rfl) fun _ => ⟨rfl, rfl⟩⟩

theorem Image.ages_reopened (m : Image) : m.Ages renews m.reopened := by
  refine .of_checkpoints rfl fun e x hx => ⟨parkedExecution x, ?_, ?_⟩
  · exact congrArg (Option.map parkedExecution) hx
  · exact .of_point (samePoint_parkedExecution x) counted_parkedExecution
      fun _ => sameStamp_parkedExecution x

end Images

/-! ## Transactions -/

/-- The intent gives the execution another generation or policy generation. -/
def Intent.Renews (i : Intent) (e : ExecutionId) : Prop := i = .updatePolicy e ∨ i = .advance e

section Transactions

variable {ds : List Derivation} {j : Journaled} {i : Intent} {es : List JournalEntry}

/-- As long as the current checkpoint may seed, no recovery moves to another one. -/
theorem Image.Abreast.plan_stays {x : ExecutionRecord} (h : j.state.image.Abreast)
    (hx : j.state.image.executions x.id = some x) :
    (planOf j x).decision ≠ .resumeFromCheckpoint := by
  intro hdecision
  obtain ⟨x', base, hx', hplan⟩ := classifyRecovery_atRest hdecision
  obtain rfl : x = x' := Option.some.inj hx'
  have hrest : (classifyAtRest base (recoveryInput j x) x).decision = .resumeFromCheckpoint :=
    hplan ▸ hdecision
  obtain ⟨front, rest, hcandidates, hunseedable, -, -⟩ := classifyAtRest_checkpoint hrest
  replace hcandidates : seedableCandidates j.state x.id = front :: rest := hcandidates
  have hmem : front ∈ seedableCandidates j.state x.id := by
    rw [hcandidates]
    exact List.mem_cons_self
  obtain ⟨hstored, howner, -⟩ := mem_seedableCandidates hmem
  have hnil := (h.behind _ front x hstored (howner ▸ hx)).current
  obtain ⟨c, hc, -, hseeds⟩ := h.seeded.seeds _ x hx hnil
  have hcurrent : seedingCheckpoint j.state x = some c := by
    unfold seedingCheckpoint
    rw [if_pos ((Id.valid_iff _).mpr hnil)]
    exact Option.filter_eq_some_iff.mpr ⟨hc, hseeds⟩
  have hnot := hunseedable c hcurrent
  rw [hseeds] at hnot
  cases hnot

theorem Succession.ages {x y : ExecutionRecord} {vs : List JournalEntry}
    (hs : Succession j i x y vs) (hi : ∀ e, i ≠ .checkpoint e)
    (hx : j.state.image.executions x.id = some x) (h : j.state.image.Abreast) :
    ExecutionRecord.Ages (i.Renews x.id) x y := by
  have hpoint : x.SamePoint y := by
    rcases hs.repoints hi with hsame | ⟨hdecision, -, -⟩
    · exact hsame
    · exact absurd hdecision (h.plan_stays hx)
  refine .of_point hpoint hs.counted fun hrenews => hs.sameStamp ?_ ?_
  · rintro e rfl
    exact hrenews (.inl (congrArg _ (Option.some.inj hs.subject)))
  · rintro e rfl
    exact hrenews (.inr (congrArg _ (Option.some.inj hs.subject)))

theorem Succession.renewed {x y : ExecutionRecord} {vs : List JournalEntry}
    (hs : Succession j i x y vs) (hi : i.Renews x.id) :
    x.generation < y.generation ∨ x.policyGeneration < y.policyGeneration := by
  cases hs with
  | updatePolicy generation hgeneration =>
    have hnext : (underPolicy x generation).policyGeneration = generation := by
      unfold underPolicy ExecutionRecord.withoutLease
      dsimp only
      split
      · split <;> rfl
      · rfl
    rw [hnext, hgeneration]
    exact .inr (Nat.lt_succ_self _)
  | advance hlive => exact .inl (Nat.lt_succ_self _)
  | _ => rcases hi with hpolicy | hadvance <;> contradiction

/-- Transactions other than registrations only let executions age. -/
theorem Transaction.ages_of_idle (hfree : CollisionFree ds) (hw : Working ds j)
    (ht : Transaction j i es) (hmint : Minted ds j.state.store es) (hi : ∀ e, i ≠ .checkpoint e)
    (h : j.state.image.Abreast) : j.state.image.Ages i.Renews (j.write es).state.image := by
  refine .of_checkpoints ?_ fun e x hx => ?_
  · rw [Journaled.image_write, Image.checkpoints_installAll, ht.checkpoints_none hi]
    rfl
  · obtain ⟨y, hy⟩ := ht.keepsExecution hfree hw hmint ⟨x, hx⟩
    refine ⟨y, hy, ?_⟩
    have hid : x.id = e := j.state.image.executions.keyed _ _ hx
    subst hid
    rcases ht.origin hfree hw hmint hy with ⟨x', hx', hversion⟩ | ⟨hnone, -⟩
    · obtain rfl := Option.some.inj (hx.symm.trans hx')
      rcases hversion with rfl | ⟨vs, hsuccession⟩
      · exact .refl _
      · exact hsuccession.ages hi hx h
    · rw [hx] at hnone
      cases hnone

theorem Transaction.abreast_of_idle (hfree : CollisionFree ds) (hw : Working ds j)
    (ht : Transaction j i es) (hmint : Minted ds j.state.store es) (hi : ∀ e, i ≠ .checkpoint e)
    (h : j.state.image.Abreast) : (j.write es).state.image.Abreast :=
  h.ages (ht.ages_of_idle hfree hw hmint hi h) (ht.seeded_of_idle hfree hw hmint hi h.seeded)

/-- A renewal outdates every checkpoint of the execution. -/
theorem Transaction.outdates (hfree : CollisionFree ds) (hw : Working ds j)
    (ht : Transaction j i es) (hmint : Minted ds j.state.store es) (h : j.state.image.Abreast)
    {k : CheckpointId} {c : CheckpointRecord} (hc : j.state.image.checkpoints k = some c)
    (hi : i.Renews c.execution) : (j.write es).state.image.OutdatedAt k := by
  have hidle : ∀ e, i ≠ .checkpoint e := by
    rintro e rfl
    rcases hi with hpolicy | hadvance
    · cases hpolicy
    · cases hadvance
  have hages := ht.ages_of_idle hfree hw hmint hidle h
  obtain ⟨state, hc'⟩ := hages.kept k c hc
  cases ht.outline with
  | created hcreate policy hes =>
    subst hcreate
    rcases hi with hpolicy | hadvance
    · cases hpolicy
    · cases hadvance
  | @succeeded x y vs hx hsuccession hexecutions heffects =>
    have hy : (j.write es).state.image.executions x.id = some y := by
      rw [hexecutions, ← hsuccession.id]
      exact KeyedMap.insert_self _ _
    have howner : x.id = c.execution := by
      rcases hi with rfl | rfl <;> exact (Option.some.inj hsuccession.subject).symm
    have hbehind := h.behind k c x hc (howner ▸ hx)
    refine ⟨_, y, hc', howner ▸ hy, ?_⟩
    rcases hsuccession.renewed (howner ▸ hi) with hgeneration | hpolicy
    · exact .inl (Nat.lt_of_le_of_lt hbehind.executionGeneration hgeneration)
    · exact .inr (Nat.lt_of_le_of_lt hbehind.policyGeneration hpolicy)

end Transactions

/-! ## Registrations -/

section Registrations

variable {ds : List Derivation} {j : Journaled} {x : ExecutionRecord} {c : CheckpointRecord}

theorem Call.registers_of_intent {c : Call} {e : ExecutionId} (h : c.intent = some (.checkpoint e)) :
    ∃ request, c = .registerCheckpoint request ∧ request.token.execution = e := by
  cases c <;> simp only [Call.intent, reduceCtorEq, Option.some.injEq, Intent.checkpoint.injEq] at h
  exact ⟨_, rfl, h⟩

/-- Entering CHECKPOINTING changes neither checkpoints nor the fields they are compared with. -/
theorem entered_idle (j : Journaled) {x : ExecutionRecord}
    (hx : j.state.image.executions x.id = some x) :
    (j.write (enterCheckpointing x)).state.image.checkpoints = j.state.image.checkpoints ∧
      ∃ y : ExecutionRecord, y.id = x.id ∧ x.SamePoint y ∧ x.CountedBy y ∧ x.SameStamp y ∧
        (j.write (enterCheckpointing x)).state.image.executions =
          j.state.image.executions.insert y := by
  rw [Journaled.image_write, Image.checkpoints_installAll, checkpoints_enterCheckpointing]
  refine ⟨rfl, ?_⟩
  unfold enterCheckpointing
  split
  · exact ⟨{ x with lifecycle := .checkpointing }, rfl, ⟨rfl, rfl⟩, .of_same rfl, ⟨rfl, rfl⟩, rfl⟩
  · exact ⟨x, rfl, .refl x, .refl x, .refl x, (KeyedMap.insert_stored hx).symm⟩

/-- One execution of the image has aged. -/
theorem Image.Ages.executions_insert {m m' : Image} {x y : ExecutionRecord}
    {renews : ExecutionId → Prop} (hx : m.executions x.id = some x) (hid : y.id = x.id)
    (hages : ExecutionRecord.Ages (renews x.id) x y)
    (hexecutions : m'.executions = m.executions.insert y) (e : ExecutionId) (z : ExecutionRecord)
    (hz : m.executions e = some z) :
    ∃ z', m'.executions e = some z' ∧ ExecutionRecord.Ages (renews e) z z' := by
  rw [hexecutions]
  by_cases he : e = x.id
  · subst he
    obtain rfl := Option.some.inj (hx.symm.trans hz)
    exact ⟨y, hid ▸ KeyedMap.insert_self _ _, hages⟩
  · exact ⟨z, (KeyedMap.insert_of_ne _ fun h => he (h.trans hid)).trans hz, .refl z⟩

theorem Image.Seeded.revised {m m' : Image} {x y : ExecutionRecord} (h : m.Seeded)
    (hcheckpoints : m'.checkpoints = m.checkpoints) (hx : m.executions x.id = some x)
    (hid : y.id = x.id) (hpoint : x.SamePoint y)
    (hexecutions : m'.executions = m.executions.insert y) : m'.Seeded := by
  refine ⟨fun k c hc => ?_, fun k c hc => ?_, fun e z hz hcheckpoint => ?_⟩
  · rw [hcheckpoints] at hc
    obtain ⟨z, hz⟩ := h.owned k c hc
    rw [hexecutions]
    by_cases he : c.execution = y.id
    · exact ⟨y, he ▸ KeyedMap.insert_self _ _⟩
    · exact ⟨z, (KeyedMap.insert_of_ne _ he).trans hz⟩
  · rw [hcheckpoints] at hc
    exact h.hashed k c hc
  · rw [hexecutions] at hz
    rw [hcheckpoints]
    rcases KeyedMap.insert_eq_some hz with ⟨-, rfl⟩ | ⟨-, hz⟩
    · rw [hpoint.checkpoint] at hcheckpoint ⊢
      rw [hpoint.checkpointGeneration]
      exact h.seeds _ x hx hcheckpoint
    · exact h.seeds e z hz hcheckpoint

/-- The id of the next checkpoint is new: every stored checkpoint of the execution has a smaller
generation. -/
theorem Image.Abreast.next_unused (hfree : CollisionFree ds) {m : Image} (h : m.Abreast)
    (hc : m.Coherent ds) (hx : m.executions x.id = some x) (hnext : Succeeding x c)
    (hnamed : Named ds (.checkpoint c.execution c.generation) c.id) : m.checkpoints c.id = none := by
  cases hold : m.checkpoints c.id with
  | none => rfl
  | some d =>
    have hderivation := hc.known.checkpoints _ _ hold
    rw [m.checkpoints.keyed _ _ hold] at hderivation
    injection hderivation.unique hnamed hfree with hexecution hgeneration
    have howner : d.execution = x.id := hexecution.trans hnext.execution
    have hbehind := (h.behind _ d x hold (howner ▸ hx)).generation
    have hsuccessor := hnext.generation
    omega

/-- A registration stores a new checkpoint, taken of its execution as it is. -/
theorem ages_registered (hfree : CollisionFree ds) (hc : j.state.image.Coherent ds)
    (hc' : (j.write (checkpointRecords j x c)).state.image.Coherent ds)
    (hx : j.state.image.executions x.id = some x) (hnext : Succeeding x c)
    (h : j.state.image.Abreast) {renews : ExecutionId → Prop} :
    j.state.image.Ages renews (j.write (checkpointRecords j x c)).state.image := by
  have hregistered := registered_of_next hfree hc hc' hx hnext h.seeded
  have hnamed := hc'.known.checkpoints _ _ hregistered.stored
  have hunused := h.next_unused hfree hc hx hnext hnamed
  have hstays : ∀ k d, j.state.image.checkpoints k = some d →
      ∃ d', (j.write (checkpointRecords j x c)).state.image.checkpoints k = some d' := by
    intro k d hd
    rw [Journaled.image_write, Image.checkpoints_installAll]
    exact KeyedMap.insertAll_stored hd _
  obtain ⟨y, hid, hpoint, hstamp, hexecutions⟩ := executions_registered j x c
  generalize (j.write (checkpointRecords j x c)).state.image = m' at *
  have hgeneration : y.checkpointGeneration = x.checkpointGeneration + 1 :=
    hpoint.checkpointGeneration.trans hnext.generation
  have hcurrent : y.checkpoint ≠ .nil := by
    rw [hpoint.checkpoint]
    exact hnamed.valid hfree
  have hages : ExecutionRecord.Ages (renews x.id) x y :=
    ⟨fun _ => hcurrent, hgeneration ▸ Nat.le_succ _, hstamp.generation.ge,
      hstamp.policyGeneration.ge, fun _ => hstamp⟩
  refine ⟨Image.Ages.executions_insert hx hid hages hexecutions, fun k d hd => ?_,
    fun k d hnone hd => ?_⟩
  · obtain ⟨d', hd'⟩ := hstays k d hd
    rcases hregistered.old k d' hd' with rfl | ⟨previous, state, hprevious, rfl⟩
    · rw [← m'.checkpoints.keyed _ _ hd', hunused] at hd
      cases hd
    · obtain rfl := Option.some.inj (hprevious.symm.trans hd)
      exact ⟨state, hd'⟩
  · rcases hregistered.old k d hd with rfl | ⟨previous, state, hprevious, -⟩
    · refine ⟨y, ?_, ⟨?_, ?_⟩, hcurrent, ?_, ?_, ?_⟩
      · rw [hexecutions, hnext.execution, ← hid]
        exact KeyedMap.insert_self _ _
      · exact hnext.executionGeneration.trans hstamp.generation.symm
      · exact hnext.policyGeneration.trans hstamp.policyGeneration.symm
      · exact (hnext.generation.trans hgeneration.symm).le
      · exact (hnext.executionGeneration.trans hstamp.generation.symm).le
      · exact (hnext.policyGeneration.trans hstamp.policyGeneration.symm).le
    · rw [hnone] at hprevious
      cases hprevious

/-- What `register_checkpoint` does to the checkpoints. -/
theorem registerCheckpoint_ages (hfree : CollisionFree ds) {s : Runtime}
    {request : RegisterCheckpointRequest} (hw : Working ds s.toJournaled)
    (hw' : ((Call.registerCheckpoint request).perform s).state.image.Coherent ds)
    (h : s.state.image.Abreast) {renews : ExecutionId → Prop} :
    s.state.image.Ages renews ((Call.registerCheckpoint request).perform s).state.image ∧
      ((Call.registerCheckpoint request).perform s).state.image.Seeded := by
  have hends : RegisterEnds s request ((registerCheckpoint request).exec s).1
      ((registerCheckpoint request).exec s).2 := registerCheckpoint_ends s request
  change ((registerCheckpoint request).exec s).2.state.image.Coherent ds at hw'
  change s.state.image.Ages renews ((registerCheckpoint request).exec s).2.state.image ∧
    ((registerCheckpoint request).exec s).2.state.image.Seeded
  generalize ((registerCheckpoint request).exec s).1 = r at hends
  generalize ((registerCheckpoint request).exec s).2 = s' at hends hw' ⊢
  cases hends with
  | quiet hquiet => exact ⟨.of_checkpoints rfl fun e x hx => ⟨x, hx, .refl x⟩, h.seeded⟩
  | @entered x l _ error htoken hwrote =>
    have hx := token_execution htoken
    obtain ⟨hcheckpoints, y, hid, hpoint, hcounted, hstamp, hexecutions⟩ :=
      entered_idle s.toJournaled hx
    rw [show s'.state.image = _ from congrArg (fun j => j.state.image) hwrote.journaled]
    exact ⟨.of_checkpoints hcheckpoints (Image.Ages.executions_insert hx hid
      (.of_point hpoint hcounted fun _ => hstamp) hexecutions),
      h.seeded.revised hcheckpoints hx hid hpoint hexecutions⟩
  | @stored x l depth _ out htoken hmiss hdepth hhash hout hwrote =>
    have hx := token_execution htoken
    have hnext := succeeding_registered s.state x request depth
    rw [show s'.state.image = _ from congrArg (fun j => j.state.image) hwrote.journaled] at hw' ⊢
    generalize hcheckpoint : registeredCheckpoint s.state x request depth = c at *
    have hhash' : c.contentHash ≠ 0 := by
      rw [← hcheckpoint]
      exact hhash
    exact ⟨ages_registered hfree hw.coherent hw' hx hnext h,
      seeded_registered hfree hw.coherent hw' hx hnext h.seeded hhash'⟩

end Registrations

/-! ## Runs -/

/-- The call gives the execution of the stored checkpoint `k` another generation or policy
generation. -/
def Call.Outdates (k : CheckpointId) (s : Runtime) (c : Call) : Prop :=
  ∃ d, s.state.checkpoints.find k = some d ∧
    (c.intent = some (.updatePolicy d.execution) ∨ c.intent = some (.advance d.execution)) ∧
    (c.perform s).state ≠ s.state

section Runs

variable {ds : List Derivation} {s : Runtime} {k : CheckpointId}

theorem Image.Ages.of_idle {m m' : Image} {renews : ExecutionId → Prop} {i : Intent}
    (h : m.Ages i.Renews m') (hi : ∀ e, i ≠ .updatePolicy e ∧ i ≠ .advance e) :
    m.Ages renews m' := by
  refine ⟨fun e x hx => ?_, h.kept, h.made⟩
  obtain ⟨y, hy, hages⟩ := h.executions e x hx
  refine ⟨y, hy, { hages with stamp := fun _ => hages.stamp ?_ }⟩
  rintro (hpolicy | hadvance)
  · exact (hi e).1 hpolicy
  · exact (hi e).2 hadvance

/-- A property of images is invariant if aging keeps it and admitted calls renew no execution it
depends on. -/
theorem aging_invariance {Q : Image → Prop} {admits : Runtime → Call → Prop}
    (hfree : CollisionFree ds)
    (hvacant : ∀ {s : Runtime} {config : RuntimeConfig} {entropy : UInt64} {m : Image},
      admits s (.openRuntime config entropy) → s.store.directory = none → m.Vacant → Q m)
    (hidle : ∀ {m m' : Image}, m.Abreast → m.Ages (fun _ => False) m' → Q m → Q m')
    (hcall : ∀ {s : Runtime} {c : Call} {i : Intent}, admits s c → c.intent = some i →
      s.state.image.Abreast → s.state.image.Ages i.Renews (c.perform s).state.image →
      Q s.state.image → Q (c.perform s).state.image) :
    Invariance ds (fun m => m.Abreast ∧ Q m)
      (fun _ j => j.state.image.Abreast ∧ Q j.state.image) admits where
  vacant := fun hallow hnone hm => ⟨hm.abreast, hvacant hallow hnone hm⟩
  agrees := fun ha h => ⟨h.1.ages (show Image.Ages (fun _ => False) _ _ from ha.ages) (h.1.seeded.agrees ha),
    hidle h.1 ha.ages h.2⟩
  transaction := by
    intro s c i es hallow hi hj hw h ht hmint
    have hstep : s.state.image.Ages i.Renews (s.toJournaled.write es).state.image ∧
        (s.toJournaled.write es).state.image.Seeded := by
      by_cases hcheckpoint : ∃ e, i = .checkpoint e
      · obtain ⟨e, rfl⟩ := hcheckpoint
        obtain ⟨request, rfl, -⟩ := Call.registers_of_intent hi
        have hw' := (ht.working hfree hw hmint).coherent
        rw [← hj] at hw' ⊢
        exact registerCheckpoint_ages hfree hw hw' h.1
      · have hother : ∀ e, i ≠ .checkpoint e := fun e he => hcheckpoint ⟨e, he⟩
        exact ⟨ht.ages_of_idle hfree hw hmint hother h.1,
          ht.seeded_of_idle hfree hw hmint hother h.1.seeded⟩
    have hsame : (s.toJournaled.write es).state.image = (c.perform s).state.image :=
      congrArg (fun j => j.state.image) hj.symm
    refine ⟨h.1.ages hstep.1 hstep.2, ?_⟩
    rw [hsame] at hstep ⊢
    exact hcall hallow hi h.1 hstep.1 h.2
  lose := fun hw h ht hmint =>
    have hother : ∀ e', Intent.lose _ ≠ .checkpoint e' := by rintro _ ⟨⟩
    ⟨ht.abreast_of_idle hfree hw hmint hother h.1, hidle h.1
      ((ht.ages_of_idle hfree hw hmint hother h.1).of_idle fun _ => ⟨nofun, nofun⟩) h.2⟩
  restart := fun _ _ h _ _ himage => himage ▸
    ⟨h.1.ages (show Image.Ages (fun _ => False) _ _ from Image.ages_reopened _) h.1.seeded.reopened,
      hidle h.1 (Image.ages_reopened _) h.2⟩
  skip := fun h => h
  recover := fun hw h ht hmint =>
    have hother : ∀ e', Intent.recover _ ≠ .checkpoint e' := by rintro _ ⟨⟩
    ⟨ht.abreast_of_idle hfree hw hmint hother h.1, hidle h.1
      ((ht.ages_of_idle hfree hw hmint hother h.1).of_idle fun _ => ⟨nofun, nofun⟩) h.2⟩
  reopened := fun _ h => h

theorem abreast_invariance (hfree : CollisionFree ds) :
    Invariance ds (fun m => m.Abreast ∧ True) (fun _ j => j.state.image.Abreast ∧ True) anyCall :=
  aging_invariance hfree (fun _ _ _ => trivial) (fun _ _ h => h) fun _ _ _ _ h => h

theorem stamped_invariance (hfree : CollisionFree ds) (k : CheckpointId) :
    Invariance ds (fun m => m.Abreast ∧ m.StampedAt k)
      (fun _ j => j.state.image.Abreast ∧ j.state.image.StampedAt k)
      fun s c => ¬ c.Outdates k s := by
  refine aging_invariance hfree (fun _ _ hm => hm.stampedAt)
    (fun h ha hstamped => hstamped.ages h ha fun _ _ => id) ?_
  intro s c i hallow hi h hages hstamped
  by_cases hsame : (c.perform s).state = s.state
  · rw [hsame]
    exact hstamped
  · refine hstamped.ages h hages fun d hd hrenews => hallow ⟨d, hd, ?_, hsame⟩
    rcases hrenews with rfl | rfl
    · exact .inl hi
    · exact .inr hi

theorem outdated_invariance (hfree : CollisionFree ds) (k : CheckpointId) :
    Invariance ds (fun m => m.Abreast ∧ m.OutdatedAt k)
      (fun _ j => j.state.image.Abreast ∧ j.state.image.OutdatedAt k)
      fun s c => s.store.directory ≠ none ∧ anyCall s c :=
  aging_invariance hfree (fun hallow hnone _ => absurd hnone hallow.1)
    (fun _ ha h => h.ages ha) fun _ _ _ ha h => h.ages ha

/-- A run is admitted throughout, or up to its first call that is not. -/
theorem Runs.admitted_or {admits : Runtime → Call → Prop} {events : List Event} {s s' : Runtime}
    (hrun : Runs keepsJournal s events s') : Runs (keepsJournalAnd admits) s events s' ∨
      ∃ before c after s₁, events = before ++ .call c :: after ∧
        Runs keepsJournal s before s₁ ∧ ¬ admits s₁ c ∧
        Runs keepsJournal (c.perform s₁) after s' := by
  induction hrun with
  | nil s => exact .inl (.nil s)
  | @cons s s' e events hallow rest ih =>
    by_cases hadmitted : ∀ c, e = .call c → admits s c
    · rcases ih with hall | ⟨before, c, after, s₁, rfl, hbefore, hnot, hafter⟩
      · exact .inl (.cons ⟨hallow, hadmitted⟩ hall)
      · exact .inr ⟨e :: before, c, after, s₁, rfl, .cons hallow hbefore, hnot, hafter⟩
    · obtain ⟨c, hc⟩ := not_forall.mp hadmitted
      obtain ⟨rfl, hnot⟩ := Classical.not_imp.mp hc
      exact .inr ⟨[], c, events, s, rfl, .nil s, hnot, rest⟩

/-- A call with an intent writes a transaction or nothing. -/
theorem Kept.transacts {D : Discipline} (h : Kept D ds s) {c : Call} {i : Intent}
    (hi : c.intent = some i) (hds : (c.perform s).minted ⊆ ds) :
    (c.perform s).state = s.state ∨ ∃ es, Transaction s.toJournaled i es ∧
      Working ds s.toJournaled ∧ Minted ds s.state.store es ∧
      (c.perform s).state = (s.toJournaled.write es).state := by
  have hhoused : Housed (c.perform s) := (h.housed.perform (.call c)).1
  have heffect := (call_outcome c s h.housed.orderly).effect
  generalize c.perform s = s' at *
  cases heffect with
  | quiet hj hopen => exact .inl (congrArg Journaled.state hj)
  | @wrote i' es hi' hrun hopen ht hj =>
    obtain rfl := Option.some.inj (hi.symm.trans hi')
    obtain ⟨d, hserved, -, -⟩ := h.running hrun
    have hgrows := grows_write s.toJournaled _ (ht.owns hserved.mounted.schema)
    refine .inr ⟨es, ht, hserved.working, fun e he => ?_, congrArg Journaled.state hj⟩
    have hall := hhoused.minted hopen hds
    rw [hj, hgrows.store] at hall
    refine hall e ?_
    rw [Journaled.history_write]
    exact List.mem_append_right _ he
  | lost session hc hrun hopen hwrites =>
    subst hc
    cases hi
  | closed hc hrun hclosed hj =>
    subst hc
    cases hi
  | snapshot truncate hc hrun hopen hj =>
    subst hc
    cases hi
  | opens config entropy hc hclosed hopened hopens =>
    subst hc
    cases hi

/-- Whatever follows a call that outdates the checkpoint `k`, the checkpoint is outdated. -/
theorem Runs.outdated {before after : List Event} {c : Call} {s₁ s : Runtime}
    (hbefore : Runs keepsJournal {} before s₁) (hc : c.Outdates k s₁)
    (hafter : Runs keepsJournal (c.perform s₁) after s) (hfree : CollisionFree s.minted) :
    s.state = {} ∨ s.state.image.OutdatedAt k := by
  obtain ⟨d, hd, hintent, hmoved⟩ := hc
  have hthere : Runs keepsJournal {} (before ++ [.call c]) (c.perform s₁) :=
    hbefore.append (.cons trivial (.nil _))
  have hhoused := (hbefore.housed housed_start).1
  have hds' : (c.perform s₁).minted ⊆ s.minted := by
    have hhoused' := (hthere.housed housed_start).1
    exact hhoused'.minted_subset (hafter.housed hhoused').2
  have hds : s₁.minted ⊆ s.minted :=
    List.Subset.trans (hhoused.minted_subset (hhoused.perform (.call c)).2) hds'
  have hkept := (abreast_invariance hfree).keeps hfree hbefore.anyCall kept_start hds
  have habreast : s₁.state.image.Abreast := by
    rcases hkept.preserved with hempty | h
    · rw [hempty] at hd
      cases hd
    · exact h.1
  obtain ⟨i, hi, hrenews⟩ : ∃ i, c.intent = some i ∧ i.Renews d.execution := by
    rcases hintent with hi | hi
    · exact ⟨_, hi, .inl rfl⟩
    · exact ⟨_, hi, .inr rfl⟩
  rcases hkept.transacts hi hds' with hsame | ⟨es, ht, hw, hmint, hstate⟩
  · exact absurd hsame hmoved
  have houtdated := ht.outdates hfree hw hmint habreast hd hrenews
  have hother : ∀ e, i ≠ .checkpoint e := by
    rintro e rfl
    rcases hrenews with hpolicy | hadvance
    · cases hpolicy
    · cases hadvance
  have hnext := ht.abreast_of_idle hfree hw hmint hother habreast
  have hstart : (c.perform s₁).state.image.Abreast ∧ (c.perform s₁).state.image.OutdatedAt k := by
    rw [hstate]
    exact ⟨hnext, houtdated⟩
  have hnonempty : (c.perform s₁).state ≠ {} := by
    intro hempty
    obtain ⟨c', x, hc', -⟩ := hstart.2
    rw [hempty] at hc'
    cases hc'
  have hend := (outdated_invariance hfree k).onward hfree hthere hnonempty hstart hafter.anyCall
  exact hend.preserved.imp_right And.right

end Runs

/-! ## What resume and recovery accept -/

/-- The checkpoint `k` of the execution `x` is the one a successful resume continues from, or the one
a classification or a recovery that continues automatically names. -/
inductive AcceptsCheckpoint (s : Runtime) (x : ExecutionRecord) : CheckpointId → Prop
  | resumed {request : ResumeRequest} {out : ResumeResult}
      (hok : ((resume request).exec s).1 = .ok out)
      (hx : s.state.executions.find request.token.execution = some x)
      (hvalid : x.checkpoint.valid = true) : AcceptsCheckpoint s x x.checkpoint
  | classified {caller : CallerContext} {e : ExecutionId} {plan : RecoveryPlan}
      (hok : ((classify caller e).exec s).1 = .ok plan)
      (hx : s.state.executions.find e = some x)
      (hauto : recoveryAllowsAutomaticContinue plan.decision = true)
      (hvalid : plan.checkpoint.valid = true) : AcceptsCheckpoint s x plan.checkpoint
  | recovered {caller : CallerContext} {request : RequestId} {e : ExecutionId} {out : RecoveryOutcome}
      (hok : ((recoverLocked caller request e).exec s).1 = .ok out)
      (hx : s.state.executions.find e = some x)
      (hauto : recoveryAllowsAutomaticContinue out.plan.decision = true)
      (hvalid : out.plan.checkpoint.valid = true) : AcceptsCheckpoint s x out.plan.checkpoint

/-- The checkpoint `id` is one the execution `x` may be resumed from under its present generations,
and the explanation says so. -/
def BindsCurrent (st : DurableState) (x : ExecutionRecord) (id : CheckpointId) : Prop :=
  ∃ c, st.checkpoints.find id = some c ∧ c.execution = x.id ∧
    checkpointCanSeedContinuation c.state = true ∧ c.executionGeneration = x.generation ∧
    c.policyGeneration = x.policyGeneration ∧ checkpointResumability c x = resumableText

/-- The checkpoint `id` belongs to the execution `x` and may seed a continuation of it. -/
def Seeds (st : DurableState) (x : ExecutionRecord) (id : CheckpointId) : Prop :=
  ∃ c, st.checkpoints.find id = some c ∧ c.execution = x.id ∧
    checkpointCanSeedContinuation c.state = true

section Acceptance

variable {st : DurableState} {x : ExecutionRecord} {ds : List Derivation} {k : CheckpointId}

theorem seeds_current (hc : st.image.Coherent ds) (hseeded : st.image.Seeded)
    (hx : st.executions.find x.id = some x) (hvalid : x.checkpoint.valid = true) :
    Seeds st x x.checkpoint := by
  have hnil : x.checkpoint ≠ .nil := (Id.valid_iff _).mp hvalid
  obtain ⟨c, hstored, -, hseeds⟩ := hseeded.seeds _ x hx hnil
  obtain ⟨c', hstored', howner⟩ := hc.checkpointed _ x hx hnil
  obtain rfl := Option.some.inj (hstored.symm.trans hstored')
  exact ⟨c, hstored, howner, hseeds⟩

theorem seeds_planned {j : Journaled} (hc : j.state.image.Coherent ds)
    (hseeded : j.state.image.Seeded) (hx : j.state.executions.find x.id = some x)
    (hvalid : (planOf j x).checkpoint.valid = true) :
    Seeds j.state x (planOf j x).checkpoint := by
  have hinput : (recoveryInput j x).execution = some x := rfl
  rcases classifyRecovery_names hinput with hsame | ⟨c, hcandidate, hid⟩
  · replace hsame : (planOf j x).checkpoint = x.checkpoint := hsame
    rw [hsame] at hvalid ⊢
    exact seeds_current hc hseeded hx hvalid
  · replace hid : (planOf j x).checkpoint = c.id := hid
    rw [hid]
    rcases hcandidate with hcurrent | hmem
    · replace hcurrent : seedingCheckpoint j.state x = some c := hcurrent
      unfold seedingCheckpoint at hcurrent
      split at hcurrent
      next hnil =>
        obtain ⟨hfound, hseeds⟩ := Option.filter_eq_some_iff.mp hcurrent
        have hkey := j.state.image.checkpoints.keyed _ _ hfound
        rw [hkey]
        exact seeds_current hc hseeded hx hnil
      · cases hcurrent
    · exact ⟨c, mem_seedableCandidates hmem⟩

/-- All that resume and recovery make sure of. -/
theorem AcceptsCheckpoint.seeds {s : Runtime} (h : AcceptsCheckpoint s x k)
    (hc : s.state.image.Coherent ds) (hseeded : s.state.image.Seeded) :
    s.state.executions.find x.id = some x ∧ Seeds s.state x k := by
  have hstored : ∀ {e : ExecutionId}, s.state.executions.find e = some x →
      s.state.executions.find x.id = some x := by
    intro e hx
    rw [s.state.image.executions.keyed _ _ hx]
    exact hx
  cases h with
  | resumed hok hx hvalid => exact ⟨hstored hx, seeds_current hc hseeded (hstored hx) hvalid⟩
  | @classified caller e plan hok hx hauto hvalid =>
    rw [classify_result, hx] at hok
    cases hcaller : checkCaller s caller with
    | error refusal =>
      rw [hcaller] at hok
      cases hok
    | ok u =>
      rw [hcaller] at hok
      obtain rfl : planOf s.toJournaled x = plan := Except.ok.inj hok
      exact ⟨hstored hx, seeds_planned hc hseeded (hstored hx) hvalid⟩
  | @recovered caller request e out hok hx hauto hvalid =>
    obtain ⟨y, hy, hplan⟩ := recoverLocked_plan s caller request e out hok
    obtain rfl : x = y := Option.some.inj (hx.symm.trans hy)
    rw [hplan] at hvalid ⊢
    exact ⟨hstored hx, seeds_planned hc hseeded (hstored hx) hvalid⟩

/-- What is left to check are the stamps. -/
theorem Seeds.bindsCurrent (h : Seeds st x k) (hseeded : st.image.Seeded)
    (hx : st.executions.find x.id = some x) (hstamped : st.image.StampedAt k) :
    BindsCurrent st x k := by
  obtain ⟨c, hc, howner, hseeds⟩ := h
  obtain ⟨hgeneration, hpolicy⟩ := hstamped c x hc (howner ▸ hx)
  have hhash := hseeded.hashed k c hc
  refine ⟨c, hc, howner, hseeds, hgeneration, hpolicy, ?_⟩
  have hstate : c.state = .verified ∨ c.state = .current := by
    simpa [checkpointCanSeedContinuation] using hseeds
  unfold checkpointResumability
  rcases hstate with hstate | hstate <;> simp [hstate, howner, hhash, hgeneration, hpolicy]

theorem BindsCurrent.not_outdated (h : BindsCurrent st x k)
    (hx : st.executions.find x.id = some x) : ¬ st.image.OutdatedAt k := by
  obtain ⟨c, hc, howner, -, hgeneration, hpolicy, -⟩ := h
  rintro ⟨c', x', hc', hx', hlater⟩
  obtain rfl := Option.some.inj (hc.symm.trans hc')
  rw [howner] at hx'
  obtain rfl := Option.some.inj (hx.symm.trans hx')
  omega

end Acceptance

/-- An execution is started and registers its first checkpoint. -/
def checkpointedCalls : List Call :=
  let e := deriveExecutionId ⟨1⟩ 1
  [.openRuntime { createIfMissing := true } 1, .createExecution { epoch := 1 } {},
    .bindWorker { epoch := 1 } { execution := e, worker := ⟨2⟩, boot := ⟨7⟩ },
    .start { token := firstToken e ⟨2⟩ ⟨7⟩ }, .registerCheckpoint firstCheckpoint]

theorem not_outdates {c : Call} {s : Runtime} {k : CheckpointId}
    (h : ∀ e, c.intent ≠ some (.updatePolicy e) ∧ c.intent ≠ some (.advance e)) :
    ¬ c.Outdates k s := by
  rintro ⟨d, -, hpolicy | hadvance, -⟩
  · exact (h _).1 hpolicy
  · exact (h _).2 hadvance

/-- What a classification of the first execution answers. -/
def firstPlan (s : Runtime) : RecoveryPlan :=
  ((classify { epoch := 1 } (deriveExecutionId ⟨1⟩ 1)).exec s).1.toOption.getD {}

/-- A policy update after the registration. -/
def updatedCalls : List Call :=
  checkpointedCalls ++ [.updatePolicy { epoch := 1 } .nil (deriveExecutionId ⟨1⟩ 1) {} true]

def updatedRuntime : Runtime := performAll (updatedCalls.map .call) {}

end ExecutionFabric
