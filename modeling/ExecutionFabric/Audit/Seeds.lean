import ExecutionFabric.Audit.Grounds
import ExecutionFabric.Audit.Refusals
import ExecutionFabric.Audit.Tokens

/-!
# What Valid continuations resume from

Between calls, every Valid continuation that names a checkpoint names one that may still
seed an execution. This holds of memory only: while a checkpoint is registered, the
previous one is demoted before its continuation is retired. A restart leaves no Valid
continuation behind.
-/
namespace ExecutionFabric

open Lib

/-! ## Disciplines together -/

namespace Discipline

/-- Both disciplines at once. -/
def and (D E : Discipline) : Discipline where
  durable := fun m => D.durable m ∧ E.durable m
  rest := fun m => D.rest m ∧ E.rest m
  reopening := fun ids j => D.reopening ids j ∧ E.reopening ids j
  working := fun j => D.working j ∧ E.working j
  parked := fun m => D.parked m ∧ E.parked m
  admits := fun s e => D.admits s e ∧ E.admits s e

/-- The discipline with one more property of memory between calls. -/
def also (D : Discipline) (P : Journaled → Prop) : Discipline :=
  { D with working := fun j => D.working j ∧ P j }

variable {D E : Discipline} {ds : List Derivation} {m : Image} {es : List JournalEntry}

theorem Lasting.and (hD : D.Lasting m es) (hE : E.Lasting m es) : (D.and E).Lasting m es :=
  fun m₀ ha h₀ p hp => ⟨hD m₀ ha h₀.1 p hp, hE m₀ ha h₀.2 p hp⟩

theorem Upheld.and (hD : D.Upheld ds) (hE : E.Upheld ds) : (D.and E).Upheld ds where
  vacant := by
    intro s config entropy m hallow hnone hvacant
    obtain ⟨hdurable, hrest⟩ := hD.vacant hallow.1 hnone hvacant
    obtain ⟨hdurable', hrest'⟩ := hE.vacant hallow.2 hnone hvacant
    exact ⟨⟨hdurable, hdurable'⟩, hrest, hrest'⟩
  rest_agrees := fun ha h => ⟨hD.rest_agrees ha h.1, hE.rest_agrees ha h.2⟩
  settles := by
    intro j hw h
    obtain ⟨hdurable, hrest, hparked⟩ := hD.settles hw h.1
    obtain ⟨hdurable', hrest', hparked'⟩ := hE.settles hw h.2
    exact ⟨⟨hdurable, hdurable'⟩, ⟨hrest, hrest'⟩, hparked, hparked'⟩
  transaction := by
    intro s c i es hallow hi hj hw h ht hmint
    obtain ⟨hworking, hlasting⟩ := hD.transaction hallow.1 hi hj hw h.1 ht hmint
    obtain ⟨hworking', hlasting'⟩ := hE.transaction hallow.2 hi hj hw h.2 ht hmint
    exact ⟨⟨hworking, hworking'⟩, hlasting.and hlasting'⟩
  lose := by
    intro j e es hw h ht hmint
    obtain ⟨hworking, hlasting⟩ := hD.lose hw h.1 ht hmint
    obtain ⟨hworking', hlasting'⟩ := hE.lose hw h.2 ht hmint
    exact ⟨⟨hworking, hworking'⟩, hlasting.and hlasting'⟩
  restart := by
    intro s config entropy m j hallow hm hrest hw ha hreloads hdurable hreaches
    obtain ⟨hreopening, hlasting⟩ := hD.restart hallow.1 hm hrest.1 hw ha hreloads hdurable.1 hreaches
    obtain ⟨hreopening', hlasting'⟩ :=
      hE.restart hallow.2 hm hrest.2 hw ha hreloads hdurable.2 hreaches
    exact ⟨⟨hreopening, hreopening'⟩, hlasting.and hlasting'⟩
  skip := fun h => ⟨hD.skip h.1, hE.skip h.2⟩
  recover := by
    intro j e ids es hw h ht hmint
    obtain ⟨hreopening, hlasting⟩ := hD.recover hw h.1 ht hmint
    obtain ⟨hreopening', hlasting'⟩ := hE.recover hw h.2 ht hmint
    exact ⟨⟨hreopening, hreopening'⟩, hlasting.and hlasting'⟩
  reopened := fun hw h => ⟨hD.reopened hw h.1, hE.reopened hw h.2⟩
  crash := fun hallow hd hsound hdurable hrest =>
    ⟨hD.crash hallow.1 hd hsound hdurable.1 hrest.1, hE.crash hallow.2 hd hsound hdurable.2 hrest.2⟩

/-- A property that reopening establishes and every transaction keeps holds between calls. -/
theorem Upheld.also (hD : D.Upheld ds) {P : Journaled → Prop}
    (hreopened : ∀ {j : Journaled}, Working ds j → D.reopening [] j → P j)
    (htransaction : ∀ {j : Journaled} {i : Intent} {es : List JournalEntry}, Working ds j →
      D.working j → P j → i.Public → Transaction j i es → Minted ds j.state.store es →
      P (j.write es)) : (D.also P).Upheld ds where
  vacant := hD.vacant
  rest_agrees := hD.rest_agrees
  settles := fun hw h => hD.settles hw h.1
  transaction := by
    intro s c i es hallow hi hj hw h ht hmint
    obtain ⟨hworking, hlasting⟩ := hD.transaction hallow hi hj hw h.1 ht hmint
    exact ⟨⟨hworking, htransaction hw h.1 h.2 (Call.intent_public hi) ht hmint⟩, hlasting⟩
  lose := by
    intro j e es hw h ht hmint
    have hpublic : Intent.Public (.lose e) := trivial
    obtain ⟨hworking, hlasting⟩ := hD.lose hw h.1 ht hmint
    exact ⟨⟨hworking, htransaction hw h.1 h.2 hpublic ht hmint⟩, hlasting⟩
  restart := hD.restart
  skip := hD.skip
  recover := hD.recover
  reopened := fun hw h => ⟨hD.reopened hw h, hreopened hw h⟩
  crash := hD.crash

end Discipline

/-! ## Seeds -/

/-- The checkpoint of a Valid continuation may seed an execution. -/
def Image.Sown (m : Image) : Prop :=
  ∀ k c, m.continuations k = some c → c.state = .valid → c.checkpoint ≠ .nil →
    ∃ d, m.checkpoints c.checkpoint = some d ∧ checkpointCanSeedContinuation d.state = true

section Transactions

variable {ds : List Derivation} {j : Journaled} {i : Intent} {es : List JournalEntry}
  {x : ExecutionRecord}

/-- An execution that is started has no checkpoint yet. -/
theorem started_uncheckpointed (hw : Working ds j) (h : j.state.image.Grounded)
    (hx : j.state.image.executions x.id = some x) (hready : x.lifecycle = .ready) :
    x.checkpoint = .nil := by
  by_contra hcheckpoint
  obtain ⟨d, hd, howner⟩ := hw.coherent.checkpointed _ x hx hcheckpoint
  obtain ⟨y, hy, hle⟩ := h.holds.checkpoints _ d hd
  rw [howner, hx] at hy
  have hdeparted := hle.departed rfl
  rw [← Option.some.inj hy, ExecutionRecord.marks, hready] at hdeparted
  cases hdeparted

/-- A start or a resume mints a continuation without a checkpoint, or one that may seed. -/
theorem Transaction.seeds (hw : Working ds j) (h : j.state.image.Grounded)
    (ht : Transaction j i es) (hx : j.state.image.executions x.id = some x)
    (hi : i = .start x.id ∨ i = .resume x.id) {c : ContinuationRecord}
    (hc : c ∈ continuationsOf es) (hcheckpoint : x.checkpoint ≠ .nil) :
    ∃ d, j.state.image.checkpoints x.checkpoint = some d ∧
      checkpointCanSeedContinuation d.state = true := by
  rcases hi with rfl | rfl
  · generalize hid : x.id = e at ht
    cases ht with
    | @start y l token htoken hready =>
      obtain rfl : y = x := by
        have hy := token_execution htoken
        rw [← hid] at hy
        exact Option.some.inj (hy.symm.trans hx)
      exact absurd (started_uncheckpointed hw h hx hready) hcheckpoint
  · generalize hid : x.id = e at ht
    cases ht with
    | enterResume request htoken hresumable hrecovery => cases hc
    | @resume y l request htoken hresumable hrecovery hvalid =>
      obtain rfl : y = x := by
        have hy := token_execution htoken
        rw [← hid] at hy
        exact Option.some.inj (hy.symm.trans hx)
      have hresumable := (resumed_valid_iff j y request.observedBindings).mp hvalid
      obtain ⟨d, hd, -⟩ := hw.coherent.checkpointed _ y hx hcheckpoint
      refine ⟨d, hd, ?_⟩
      by_contra hunseedable
      refine hresumable (.inl ⟨(Id.valid_iff _).mpr hcheckpoint, fun c hc => ?_⟩)
      rw [← Option.some.inj (hd.symm.trans hc)]
      exact Bool.eq_false_iff.mpr hunseedable

/-- A continuation of the new image is an old one or was just written. -/
theorem continuation_written {k : ContinuationId} {c : ContinuationRecord}
    (hc : (j.write es).state.image.continuations k = some c) :
    c ∈ continuationsOf es ∨ (j.state.image.continuations k = some c ∧
      ∀ r ∈ continuationsOf es, r.id ≠ k) := by
  rw [Journaled.image_write, Image.continuations_installAll] at hc
  exact KeyedMap.insertAll_eq_some hc

theorem mem_continuationsOf {c : ContinuationRecord} (h : c ∈ continuationsOf es) :
    .continuation c ∈ es := by
  obtain ⟨e, he, hc⟩ := List.mem_flatMap.mp h
  cases e with
  | continuation c' =>
    rw [List.mem_singleton.mp hc]
    exact he
  | _ => cases hc

/-- A Valid continuation that is written was minted. -/
theorem Origin.minted_of_valid {c : ContinuationRecord} (ho : Origin j i es (.continuation c))
    (hvalid : c.state = .valid) : ∃ x, j.state.image.executions x.id = some x ∧ Mints x c ∧
      SeedOf i es x c := by
  cases ho with
  | continuation state hstate hc => exact absurd hvalid hstate
  | @minted x c hx hc _ hseed => exact ⟨x, hx, hc, hseed⟩

theorem Transaction.sown_of_idle (hw : Working ds j) (hg : j.state.image.Grounded)
    (h : j.state.image.Sown) (ht : Transaction j i es) (hi : ∀ e, i ≠ .checkpoint e) :
    (j.write es).state.image.Sown := by
  have hsame : (j.write es).state.image.checkpoints = j.state.image.checkpoints := by
    rw [Journaled.image_write, Image.checkpoints_installAll, ht.checkpoints_none hi]
    rfl
  intro k c hc hvalid hcheckpoint
  rw [hsame]
  rcases continuation_written hc with hmem | ⟨hold, -⟩
  · obtain ⟨x, hx, hmints, ⟨hpoint, hi'⟩ | ⟨hi', -⟩⟩ :=
      (ht.origins _ (mem_continuationsOf hmem)).minted_of_valid hvalid
    · rw [hpoint] at hcheckpoint ⊢
      exact ht.seeds hw hg hx hi' hmem hcheckpoint
    · exact absurd hi' (hi _)
  · exact h k c hold hvalid hcheckpoint

/-- A registration retires every continuation of its execution but the one it mints. -/
theorem continuationsOf_checkpointRecords (c : CheckpointRecord) :
    continuationsOf (checkpointRecords j x c) =
      retiredContinuations j.state x.id (checkpointContinuation j x c).id ++
        [checkpointContinuation j x c] := by
  have hnone : continuationsOf (demotionRecords j x c) = [] := by
    unfold demotionRecords newCheckpointRecords
    rw [continuationsOf_append, continuationsOf_append, continuations_enterCheckpointing,
      (of_map_checkpoint _).2.2]
    rfl
  unfold checkpointRecords
  rw [continuationsOf_append, hnone, continuations_continuationRecords,
    retiredContinuations_write _ _ hnone]
  rfl

theorem checkpointContinuation_checkpoint (c : CheckpointRecord) :
    (checkpointContinuation j x c).checkpoint = c.id := rfl

/-- A Valid continuation after a registration is the minted one or of another execution. -/
theorem valid_checkpointRecords (c : CheckpointRecord) {k : ContinuationId}
    {r : ContinuationRecord}
    (hr : (j.write (checkpointRecords j x c)).state.image.continuations k = some r)
    (hvalid : r.state = .valid) : r.checkpoint = c.id ∨
      (j.state.image.continuations k = some r ∧ r.execution ≠ x.id) := by
  have hlist := continuationsOf_checkpointRecords (j := j) (x := x) c
  have hseed := checkpointContinuation_checkpoint (j := j) (x := x) c
  generalize checkpointContinuation j x c = minted at hlist hseed
  rcases continuation_written hr with hmem | ⟨hold, huntouched⟩
  · rw [hlist] at hmem
    rcases List.mem_append.mp hmem with hretired | hminted
    · exact absurd hvalid (retiredContinuations_spec hretired).2.1
    · rw [List.mem_singleton.mp hminted]
      exact .inl hseed
  · rw [hlist] at huntouched
    refine .inr ⟨hold, fun howner => ?_⟩
    have hkey : r.id = k := j.state.image.continuations.keyed _ _ hold
    have hne : r.id ≠ minted.id := fun hsame =>
      huntouched minted (List.mem_append_right _ (List.mem_singleton.mpr rfl))
        (hsame.symm.trans hkey)
    obtain ⟨c', hc', hid⟩ := mem_retiredContinuations hold howner hne hvalid
    exact huntouched c' (List.mem_append_left _ hc') (hid.trans hkey)

/-- A registration keeps the seeds of the Valid continuations. -/
theorem sown_checkpointRecords (hfree : CollisionFree ds) (hc : j.state.image.Coherent ds)
    {c : CheckpointRecord} (hc' : (j.write (checkpointRecords j x c)).state.image.Coherent ds)
    (hx : j.state.image.executions x.id = some x) (hnext : Succeeding x c)
    (hg : j.state.image.Grounded) (hl : j.state.image.Lineal) (h : j.state.image.Sown) :
    (j.write (checkpointRecords j x c)).state.image.Sown := by
  obtain ⟨state, hstored⟩ := checkpointRecords_stored j x c
  have hnamed := hc'.known.checkpoints c.id _ hstored
  replace hnamed : Named ds (.checkpoint c.execution c.generation) c.id := hnamed
  have hover : ∀ {d : CheckpointRecord}, j.state.image.checkpoints c.id = some d →
      d.execution = x.id ∧ d.generation = x.checkpointGeneration + 1 := by
    intro d hd
    have hold := hc.known.checkpoints _ d hd
    rw [j.state.image.checkpoints.keyed _ _ hd] at hold
    injection hold.unique hnamed hfree with hexecution hgeneration
    exact ⟨hexecution.trans hnext.execution, hgeneration.trans hnext.generation⟩
  have hne : x.checkpoint ≠ c.id := by
    intro hsame
    rcases (hl.aligned _ x hx).point with ⟨hnil, -⟩ | ⟨p, hp, -, hgeneration⟩
    · exact hnamed.valid hfree (hsame.symm.trans hnil)
    · have hlater := (hover (hsame ▸ hp)).2
      omega
  have hregistered := registered_of_new (j := j) hne
  intro k r hr hvalid hcheckpoint
  rcases valid_checkpointRecords c hr hvalid with hminted | ⟨hold, hother⟩
  · refine ⟨c, hminted ▸ hregistered.stored, ?_⟩
    rw [hnext.verified]
    rfl
  · -- the checkpoint of another execution is neither the new one nor the demoted one
    obtain ⟨d, hd, hseeds⟩ := h k r hold hvalid hcheckpoint
    obtain ⟨d', hd', howner⟩ := (hg.holds.continuations k r hold).2 hcheckpoint
    obtain rfl := Option.some.inj (hd.symm.trans hd')
    refine ⟨d, hregistered.kept _ d hd (fun hsame => ?_) fun hsame => ?_, hseeds⟩
    · exact hother (howner.symm.trans (hover (hsame ▸ hd)).1)
    · obtain ⟨p, hp, hpowner⟩ := hc.checkpointed _ x hx (hsame ▸ hcheckpoint)
      rw [hsame, hp] at hd
      obtain rfl := Option.some.inj hd
      exact hother (howner.symm.trans hpowner)

theorem Transaction.sown (hfree : CollisionFree ds) (hw : Working ds j)
    (hg : j.state.image.Grounded) (hl : j.state.image.Lineal) (h : j.state.image.Sown)
    (ht : Transaction j i es) (hmint : Minted ds j.state.store es) :
    (j.write es).state.image.Sown := by
  by_cases hcheckpoint : ∃ e, i = .checkpoint e
  · obtain ⟨e, rfl⟩ := hcheckpoint
    have hcoherent := (ht.working hfree hw hmint).coherent
    cases ht with
    | @enterCheckpoint x l request htoken hlifecycle =>
      have hsame : (j.write (enterCheckpointing x)).state.image.checkpoints =
          j.state.image.checkpoints := by
        rw [Journaled.image_write, Image.checkpoints_installAll, checkpoints_enterCheckpointing]
        rfl
      intro k c hc hvalid hne
      rw [hsame]
      rcases continuation_written hc with hmem | ⟨hold, -⟩
      · rw [continuations_enterCheckpointing] at hmem
        cases hmem
      · exact h k c hold hvalid hne
    | @checkpoint x l depth request htoken hlifecycle hdepth =>
      have hnext := succeeding_registered j.state x request depth
      generalize registeredCheckpoint j.state x request depth = c at *
      exact sown_checkpointRecords hfree hw.coherent hcoherent (token_execution htoken) hnext hg hl h
  · exact ht.sown_of_idle hw hg h fun e he => hcheckpoint ⟨e, he⟩

end Transactions

/-- Lineage, grounds and authority together, with the seeds of the Valid continuations. -/
def seeding : Discipline :=
  ((lineage.and grounding).and governed).also fun j => j.state.image.Sown

theorem seeding_upheld {ds : List Derivation} (hfree : CollisionFree ds) : seeding.Upheld ds := by
  have hboth := ((lineage_upheld hfree).and (grounding_upheld hfree)).and (governed_upheld hfree)
  refine hboth.also ?_ ?_
  · intro j _ h k c hc hvalid
    exact absurd hvalid (Image.Quiescent.expired h.2 k c hc)
  · intro j i es hw h hsown _ ht hmint
    exact ht.sown hfree hw h.1.2 h.1.1 hsown hmint

/-- Between calls every Valid continuation may be resumed from its checkpoint. -/
theorem sown_of_runs {events : List Event} {s : Runtime} (hrun : Runs anyEvent {} events s)
    (hfree : CollisionFree s.minted) (hopen : s.isOpen = true) : s.state.image.Sown := by
  have hallowed : Runs seeding.admits {} events s ∧ True :=
    hrun.mono (I := fun _ => True) trivial fun _ _ _ h => ⟨⟨⟨h, h⟩, h⟩, trivial⟩
  have hkept := (seeding_upheld hfree).keeps (fun _ _ h => h) hfree hallowed.1 kept_start
    (List.Subset.refl _)
  obtain ⟨d, -, -, hw⟩ := hkept.running hopen
  exact hw.2

end ExecutionFabric
