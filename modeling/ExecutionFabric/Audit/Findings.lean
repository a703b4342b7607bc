import ExecutionFabric.Audit.Redriving
import ExecutionFabric.Audit.RefusedAppends
import ExecutionFabric.Audit.Sanity
import ExecutionFabric.Audit.Seeds

/-!
# What the auditor can report

The auditor calls everything it finds a defect. Of its checks all but eleven succeed in
every state of an open runtime that a collision-free run reaches. The checks come in the
order of `auditState`; for each there is a lemma that names the invariant it rests on.
-/
namespace ExecutionFabric

open Lib

/-- The codes the auditor reports in some state that a run reaches. -/
def reportable : List String :=
  ["TERMINAL_EXECUTION_OPEN_AMBIGUITY", "CONTINUATION_ACTION_AHEAD",
    "PROGRESS_BEYOND_AMBIGUOUS_ACTION", "PROGRESS_ORDINAL_DUPLICATE",
    "BLOCK_WITH_RESOLVED_AMBIGUITY", "BLOCK_WITHOUT_AMBIGUITY", "EXECUTION_BINDING_SET_DEFECT",
    "ACTION_SEALED_WITHOUT_RECEIPT", "CHECKPOINT_BINDING_SET_DEFECT", "DUPLICATE_LOGICAL_COMMIT",
    "OPEN_AMBIGUITY_NOT_REFERENCED"]

/-- Nothing but reportable findings. -/
def Excused (fs : List AuditFinding) : Prop := ∀ f ∈ fs, f.code ∈ reportable

section Lists

variable {fs gs : List AuditFinding} {violated : Prop} [Decidable violated] {code detail : String}
  {e : ExecutionId}

theorem Excused.nil : Excused [] := fun f hf => by cases hf

theorem Excused.append (hf : Excused fs) (hg : Excused gs) : Excused (fs ++ gs) :=
  List.forall_mem_append.mpr ⟨hf, hg⟩

theorem Excused.flatMap {α : Type} {rs : List α} {audit : α → List AuditFinding}
    (h : ∀ r ∈ rs, Excused (audit r)) : Excused (rs.flatMap audit) := by
  intro f hf
  obtain ⟨r, hr, hf⟩ := List.mem_flatMap.mp hf
  exact h r hr f hf

/-- A check that succeeds reports nothing. -/
theorem Excused.met (h : ¬ violated) : Excused (addIf violated code detail e) := by
  unfold addIf
  rw [if_neg h]
  exact .nil

theorem Excused.known (h : code ∈ reportable) : Excused (addIf violated code detail e) := by
  unfold addIf
  split
  · intro f hf
    rw [List.mem_singleton.mp hf]
    exact h
  · exact .nil

end Lists

/-- What the invariants of the runtime say of the state of an open one. -/
structure Consistent (ds : List Derivation) (st : DurableState) : Prop where
  collisionFree : CollisionFree ds
  named : st.store ≠ .nil
  schema : st.schema = persistenceSchemaVersion
  coherent : st.image.Coherent ds
  frontier : st.image.Frontier
  governed : st.image.Governed
  grounded : st.image.Grounded
  lineal : st.image.Lineal
  sown : st.image.Sown
  numbered : st.image.Holds Numbered
  vetted : st.image.Holds Vetted

theorem consistent_of_runs {events : List Event} {s : Runtime} (hrun : Runs anyEvent {} events s)
    (hfree : CollisionFree s.minted) (hopen : s.isOpen = true) :
    Consistent s.minted s.state := by
  obtain ⟨d, hserved, -⟩ := (kept_of_runs hrun hfree).running hopen
  have hadmitted : Runs (admitting fun _ _ => True) {} events s ∧ True :=
    hrun.mono (I := fun _ => True) trivial fun _ _ _ _ => ⟨fun _ _ => trivial, trivial⟩
  exact
    { collisionFree := hfree
      named := fun hnil => hserved.mounted.named (hserved.mounted.store.symm.trans hnil)
      schema := hserved.mounted.schema
      coherent := hserved.working.coherent
      frontier := hserved.working.frontier
      governed := governed_of_runs hrun hfree
      grounded := grounded_of_runs hrun hfree hopen
      lineal := lineal_of_runs hrun hfree hopen
      sown := sown_of_runs hrun hfree hopen
      numbered := (numbered_law.keeps hadmitted.1 secured_start holds_start).memory
      vetted := (vetted_law.keeps hadmitted.1 secured_start holds_start).memory }

section Checks

variable {ds : List Derivation} {st : DurableState} {x : ExecutionRecord}

theorem auditStore_excused (h : Consistent ds st) : Excused (auditStore st) := by
  unfold auditStore
  refine .append (.met fun hnil => hnil ((Id.valid_iff _).mpr h.named)) (.met ?_)
  exact not_not.mpr h.schema

/-! ## Executions -/

theorem auditIncarnation_excused (hx : x.Incarnate) : Excused (auditIncarnation x) := by
  unfold auditIncarnation
  rcases hx with ⟨hnil, hzero⟩ | ⟨hpos, hderived⟩
  · rw [if_neg ?_]
    · exact .nil
    · rw [hnil, hzero]
      decide
  · split
    · rw [if_neg (Nat.pos_iff_ne_zero.mp hpos)]
      exact .met (not_not.mpr hderived.symm)
    · exact .nil

theorem auditBinding_excused (h : Consistent ds st) (hx : st.executions.find x.id = some x) :
    Excused (auditBinding st x) := by
  have hleases := h.governed.leaseInvariant h.coherent
  obtain ⟨hworker, hboot⟩ := hleases.bound _ x hx
  unfold auditBinding
  split
  next hvalid =>
    have hlease := (Id.valid_iff _).mp hvalid
    obtain ⟨l, hl, howner, hactive, hepoch, hlworker, hlboot, hincarnation, -, hpolicy⟩ :=
      hleases.held _ x hx hlease
    rw [hl]
    refine .append ?_ (.met ?_)
    · unfold auditNamedLease
      simp only [hactive, howner, hepoch, hlworker, hlboot, hincarnation, hpolicy]
      refine .append (.append (.append (.append (.append (.met ?_) (.met ?_)) (.met ?_)) (.met ?_))
        (.met ?_)) (.met ?_) <;> simp
    · rintro (hnone | hnone)
      · exact hnone ((Id.valid_iff _).mpr (hworker.mpr hlease))
      · exact hnone ((Id.valid_iff _).mpr (hboot.mpr hlease))
  next hnone =>
    refine .met fun hvalid => hnone ?_
    exact (Id.valid_iff _).mpr (hworker.mp ((Id.valid_iff _).mp hvalid))

theorem auditTerminal_excused (h : Consistent ds st) (hx : st.executions.find x.id = some x) :
    Excused (auditTerminal st x) := by
  have hunleased := (h.governed.leaseInvariant h.coherent).unleased _ x hx
  unfold auditTerminal
  refine .append (.append (.met ?_) (.met ?_)) (.known (by decide))
  · rintro ⟨hterminal, hvalid⟩
    exact (Id.valid_iff _).mp hvalid (hunleased (.inl hterminal))
  · rintro ⟨hretired, hany⟩
    rw [hunleased (.inl (by rw [hretired]; rfl))] at hany
    cases hl : st.leases.find .nil with
    | none =>
      rw [hl] at hany
      cases hany
    | some l =>
      have hnamed := h.coherent.known.leases .nil l hl
      exact hnamed.valid h.collisionFree (Table.find_key hl)

/-- A stored checkpoint is Verified or Superseded. -/
theorem checkpoint_usable (h : Consistent ds st) {k : CheckpointId} {c : CheckpointRecord}
    (hc : st.checkpoints.find k = some c) : c.state ≠ .corrupt ∧ c.state ≠ .unsupported := by
  have hnumbered : Numbered (.checkpoint c) := h.numbered.checkpoints k c hc
  rcases hnumbered.2 with hstate | hstate <;> rw [hstate] <;> decide

theorem auditNamedContinuation_excused (h : Consistent ds st)
    (hx : st.executions.find x.id = some x) (hvalid : x.continuation.valid = true) :
    Excused (auditNamedContinuation st x (st.continuations.find x.continuation)) := by
  obtain ⟨c, hc, howner⟩ := h.coherent.continued _ x hx ((Id.valid_iff _).mp hvalid)
  obtain ⟨⟨y, hy, hle⟩, hcheckpoint⟩ := h.grounded.holds.continuations _ c hc
  have hsame : y = x := by
    rw [howner] at hy
    exact Option.some.inj (hy.symm.trans hx)
  rw [hsame] at hle
  have hfound : st.continuations.find x.continuation = some c := hc
  rw [hfound]
  unfold auditNamedContinuation
  refine .append (.append (.append (.append (.append (.append (.met ?_) (.met ?_)) (.met ?_))
    (.known (by decide))) ?_) (.met ?_)) (.met ?_)
  · exact not_not.mpr howner
  · exact Nat.not_lt_of_le hle.generation
  · exact Nat.not_lt_of_le hle.progressGeneration
  · split
    next hseed =>
      obtain ⟨d, hd, -⟩ := hcheckpoint ((Id.valid_iff _).mp hseed)
      have hstored : st.checkpoints.find c.checkpoint = some d := hd
      obtain ⟨hcorrupt, hunsupported⟩ := checkpoint_usable h hstored
      rw [hstored]
      refine .met ?_
      rintro (hstate | hstate)
      · exact hcorrupt hstate
      · exact hunsupported hstate
    next => exact .nil
  · exact Nat.not_lt_of_le hle.policyGeneration
  · rintro ⟨hstate, hepoch⟩
    exact hepoch ((h.governed.ruled _ x hx).current _ c hc howner hstate).2

theorem auditNamedCheckpoint_excused (h : Consistent ds st)
    (hx : st.executions.find x.id = some x) (hvalid : x.checkpoint.valid = true) :
    Excused (auditNamedCheckpoint x (st.checkpoints.find x.checkpoint)) := by
  obtain ⟨c, hc, howner⟩ := h.coherent.checkpointed _ x hx ((Id.valid_iff _).mp hvalid)
  have hstored : st.checkpoints.find x.checkpoint = some c := hc
  have hhash : Vetted (.checkpoint c) := h.vetted.checkpoints _ c hc
  rw [hstored]
  unfold auditNamedCheckpoint
  refine .append (.append (.met ?_) (.met hhash)) (.met (checkpoint_usable h hstored).1)
  exact not_not.mpr howner

/-! ## Progress -/

/-- A stored progress record is the one its table finds. -/
theorem progress_stored {p : ProgressRecord} (hp : p ∈ progressOf st x) :
    st.progress.find p.id = some p ∧ p.execution = x.id := by
  unfold progressOf at hp
  obtain ⟨hmem, howner⟩ := List.mem_filter.mp hp
  exact ⟨(Table.find_eq_some_iff _ _ _).mpr ⟨hmem, rfl⟩, of_decide_eq_true howner⟩

theorem auditProgressRecord_excused (h : Consistent ds st)
    (hx : st.executions.find x.id = some x) {p : ProgressRecord} (hp : p ∈ progressOf st x) :
    Excused (auditProgressRecord st x p) := by
  obtain ⟨hstored, howner⟩ := progress_stored hp
  obtain ⟨-, hpos, ⟨y, hy, hreached⟩, c, hc, -⟩ := h.coherent.chained.promoted _ p hstored
  obtain ⟨z, hz, hle⟩ := h.grounded.holds.progress _ p hstored
  have hsame : y = x := by
    rw [howner] at hy
    exact Option.some.inj (hy.symm.trans hx)
  have hsame' : z = x := by
    rw [howner] at hz
    exact Option.some.inj (hz.symm.trans hx)
  rw [hsame] at hreached
  rw [hsame'] at hle
  unfold auditProgressRecord
  refine .append (.append (.append (.append (.append (.met ?_) (.met ?_)) (.met ?_)) (.met ?_))
    (.met ?_)) (.known (by decide))
  · have hnamed := h.coherent.known.progress _ p hstored
    exact fun hnil => hnil ((Id.valid_iff _).mpr (hnamed.valid h.collisionFree))
  · exact Nat.pos_iff_ne_zero.mp hpos
  · exact Nat.not_lt_of_le hreached
  · exact Nat.not_lt_of_le hle.generation
  · rintro ⟨-, hnone⟩
    have hcommit : st.commits.find p.commit = some c := hc
    rw [hcommit] at hnone
    cases hnone

theorem mem_committedProgress {p : ProgressRecord} :
    p ∈ committedProgress st x ↔ p ∈ progressOf st x ∧ p.committed = true := by
  unfold committedProgress
  rw [List.mem_insertionSort, List.mem_filter]

/-- Two progress records of one execution and one generation are one. -/
theorem progress_unique (h : Consistent ds st) {p q : ProgressRecord} (hp : p ∈ progressOf st x)
    (hq : q ∈ progressOf st x) (hgeneration : p.generation = q.generation) : p = q := by
  obtain ⟨hp, howner⟩ := progress_stored hp
  obtain ⟨hq, howner'⟩ := progress_stored hq
  have hnamed := h.coherent.known.progress _ p hp
  have hnamed' := h.coherent.known.progress _ q hq
  rw [howner, hgeneration] at hnamed
  rw [howner'] at hnamed'
  rw [hnamed.same hnamed', hq] at hp
  exact (Option.some.inj hp).symm

/-- The committed progress of an execution, in order, has the generations `1..n`. -/
theorem committedProgress_generations (h : Consistent ds st)
    (hx : st.executions.find x.id = some x) :
    (committedProgress st x).map (·.generation) = List.range' 1 x.progressGeneration := by
  have hsorted : ((committedProgress st x).map (·.generation)).Pairwise (· ≤ ·) := by
    rw [List.pairwise_map]
    have htotal : Std.Total fun a b : ProgressRecord => ¬ b.generation < a.generation :=
      ⟨fun a b => by omega⟩
    have htrans : IsTrans ProgressRecord fun a b => ¬ b.generation < a.generation :=
      ⟨fun a b c hab hbc => by omega⟩
    refine (List.pairwise_insertionSort (fun a b : ProgressRecord => ¬ b.generation < a.generation)
      _).imp fun hab => Nat.le_of_not_lt hab
  have hnodup : ((committedProgress st x).map (·.generation)).Nodup := by
    refine List.Nodup.map_on (fun p hp q hq hsame => ?_) ?_
    · exact progress_unique h (mem_committedProgress.mp hp).1 (mem_committedProgress.mp hq).1 hsame
    · refine (List.perm_insertionSort _ _).nodup_iff.mpr ?_
      exact ((List.Nodup.of_map _ st.progress.nodup).filter _).filter _
  refine List.Perm.eq_of_pairwise (fun a b _ _ => Nat.le_antisymm) hsorted
    List.pairwise_le_range' ?_
  refine (List.perm_ext_iff_of_nodup hnodup List.nodup_range').mpr fun g => ?_
  rw [List.mem_map, List.mem_range'_1]
  constructor
  · rintro ⟨p, hp, rfl⟩
    obtain ⟨hstored, howner⟩ := progress_stored (mem_committedProgress.mp hp).1
    obtain ⟨-, hpos, ⟨y, hy, hreached⟩, -⟩ := h.coherent.chained.promoted _ p hstored
    rw [howner] at hy
    rw [Option.some.inj (hy.symm.trans hx)] at hreached
    omega
  · rintro ⟨hpos, hlt⟩
    obtain ⟨p, hp, howner, hgeneration⟩ := h.coherent.chained.reached _ x g hx hpos (by omega)
    have hstored : st.progress.find _ = some p := hp
    refine ⟨p, mem_committedProgress.mpr ⟨List.mem_filter.mpr ⟨?_, decide_eq_true howner⟩, ?_⟩,
      hgeneration⟩
    · exact ((Table.find_eq_some_iff _ _ _).mp hstored).1
    · exact (h.coherent.chained.promoted _ p hp).1

/-- The last of the committed progress is what the execution points at. -/
theorem auditFrontier_excused (h : Consistent ds st) (hx : st.executions.find x.id = some x) :
    Excused (auditFrontier x (committedProgress st x).getLast?) := by
  have hlast := congrArg List.getLast? (committedProgress_generations h hx)
  rw [List.getLast?_map, List.getLast?_range'] at hlast
  cases hfound : (committedProgress st x).getLast? with
  | none =>
    rw [hfound] at hlast
    refine .met fun hne => ?_
    rw [if_neg hne] at hlast
    cases hlast
  | some last =>
    rw [hfound] at hlast
    have hne : x.progressGeneration ≠ 0 := by
      intro hzero
      rw [if_pos hzero] at hlast
      cases hlast
    rw [if_neg hne] at hlast
    have hgeneration : last.generation = x.progressGeneration := by
      have hsame : last.generation = 1 + x.progressGeneration - 1 := Option.some.inj hlast
      omega
    refine .append (.met (not_not.mpr hgeneration.symm)) (.met (not_not.mpr ?_))
    rcases h.coherent.chained.newest _ x hx with ⟨hzero, -⟩ | ⟨-, p, hp, howner, hpgeneration, hcommit⟩
    · exact absurd hzero hne
    · have hstored : st.progress.find _ = some p := hp
      have hmem : p ∈ progressOf st x :=
        List.mem_filter.mpr ⟨((Table.find_eq_some_iff _ _ _).mp hstored).1, decide_eq_true howner⟩
      have hsame := progress_unique h hmem
        (mem_committedProgress.mp (List.mem_of_getLast? hfound)).1 (hpgeneration.trans hgeneration.symm)
      rw [hcommit, hsame]

theorem auditProgress_excused (h : Consistent ds st) (hx : st.executions.find x.id = some x) :
    Excused (auditProgress st x) := by
  have hgenerations := committedProgress_generations h hx
  have hlength : (committedProgress st x).length = x.progressGeneration := by
    have hlengths := congrArg List.length hgenerations
    rwa [List.length_map, List.length_range'] at hlengths
  unfold auditProgress
  refine .append (.append (.append (.append (.flatMap fun p hp =>
    auditProgressRecord_excused h hx hp) (.met ?_)) (.known (by decide))) (.met ?_))
    (auditFrontier_excused h hx)
  · -- the record at place `i` has the generation `1 + i`
    rintro ⟨⟨p, n⟩, hmem, hne⟩
    obtain ⟨hle, hp⟩ := List.mk_mem_zipIdx_iff_le_and_getElem?_sub.mp hmem
    have hplace := congrArg (fun gs : List Nat => gs[n - 1]?) hgenerations
    obtain ⟨hlt, -⟩ := List.getElem?_eq_some_iff.mp hp
    rw [hlength] at hlt
    rw [List.getElem?_map, hp, List.getElem?_range' hlt] at hplace
    have hgeneration : p.generation = 1 + 1 * (n - 1) := Option.some.inj hplace
    refine hne ?_
    show p.generation = n
    omega
  · rw [hlength]
    exact not_not.mpr (h.coherent.chained.counted _ x hx).symm

theorem auditBlock_excused (h : Consistent ds st) (hx : st.executions.find x.id = some x) :
    Excused (auditBlock st x) := by
  unfold auditBlock
  split
  next hvalid =>
    obtain ⟨amb, hamb, howner⟩ := h.coherent.ambiguous _ x hx ((Id.valid_iff _).mp hvalid)
    have hstored : st.ambiguities.find x.ambiguity = some amb := hamb
    rw [hstored]
    exact .append (.met (not_not.mpr howner)) (.known (by decide))
  next => exact .known (by decide)

theorem Excused.defect (defect : Option String) {code : String} (hcode : code ∈ reportable)
    (e : ExecutionId) : Excused (defect.toList.map (⟨code, ·, e⟩)) := by
  intro f hf
  obtain ⟨detail, -, rfl⟩ := List.mem_map.mp hf
  exact hcode

theorem auditExecution_excused (h : Consistent ds st) (hx : x ∈ st.executions.records) :
    Excused (auditExecution st x) := by
  have hstored : st.executions.find x.id = some x := (Table.find_eq_some_iff _ _ _).mpr ⟨hx, rfl⟩
  have hnumbered : Numbered (.execution x) := h.numbered.executions _ x hstored
  have hnamed := h.coherent.known.executions _ x hstored
  obtain ⟨p, hp⟩ := h.coherent.policed _ x hstored
  have hpolicy : st.policies.find x.policy = some p := hp
  unfold auditExecution
  rw [if_neg (not_not.mpr ((Id.valid_iff _).mpr (hnamed.valid h.collisionFree)))]
  refine .append (.append (.append (.append (.append (.append (.append (.append (.append (.append
    (.append (.append (.met ?_) (.met ?_)) (.met ?_)) (.met ?_)) (auditIncarnation_excused hnumbered.2.2))
    (auditBinding_excused h hstored)) (auditTerminal_excused h hstored)) ?_) ?_)
    (auditProgress_excused h hstored)) (auditBlock_excused h hstored)) (.met ?_))
    (.defect _ (by decide) _)
  · exact Nat.pos_iff_ne_zero.mp hnumbered.1
  · exact Nat.pos_iff_ne_zero.mp hnumbered.2.1
  · exact Nat.not_lt_of_le (h.grounded.current _ x hstored)
  · rw [hpolicy]
    exact fun hnone => by cases hnone
  · split
    next hvalid => exact auditNamedContinuation_excused h hstored hvalid
    next => exact .nil
  · split
    next hvalid => exact auditNamedCheckpoint_excused h hstored hvalid
    next => exact .nil
  · rintro ⟨hvalid, hnone⟩
    obtain ⟨r, hr, -⟩ := h.coherent.recovered _ x hstored ((Id.valid_iff _).mp hvalid)
    have hfound : st.recoveries.find x.recovery = some r := hr
    rw [hfound] at hnone
    cases hnone

/-! ## The other tables -/

/-- A fold that takes the records with `p` and never forgets what it took finds one. -/
theorem foldl_ne_none {α : Type} {f : Option α → α → Option α} {p : α → Prop}
    (hkeep : ∀ best r, best ≠ none → f best r ≠ none) (htake : ∀ best r, p r → f best r ≠ none)
    (rs : List α) : ∀ best, (best ≠ none ∨ ∃ r ∈ rs, p r) → rs.foldl f best ≠ none := by
  induction rs with
  | nil =>
    rintro best (hbest | ⟨r, hr, -⟩)
    · exact hbest
    · cases hr
  | cons r rs ih =>
    rintro best (hbest | ⟨q, hq, hp⟩)
    · exact ih _ (.inl (hkeep _ _ hbest))
    · rcases List.mem_cons.mp hq with rfl | hq
      · exact ih _ (.inl (htake _ _ hp))
      · exact ih _ (.inr ⟨q, hq, hp⟩)

theorem findLatestAction_stored {i : ActionId} (h : st.image.HasAction i) :
    st.findLatestAction i ≠ none := by
  obtain ⟨k, a, ha, hid⟩ := h
  have hstored : st.actions.find k = some a := ha
  have hmem := ((Table.find_eq_some_iff _ _ _).mp hstored).1
  unfold DurableState.findLatestAction
  refine foldl_ne_none (p := fun r => r.id = i) ?_ ?_ _ none (.inr ⟨a, hmem, hid⟩)
  · intro best r hbest
    split
    · exact hbest
    · split
      · exact fun hnone => by cases hnone
      · split <;> exact fun hnone => by cases hnone
  · intro best r hr
    rw [if_neg (not_not.mpr hr)]
    split
    · exact fun hnone => by cases hnone
    · split <;> exact fun hnone => by cases hnone

theorem auditSeal_excused {a : ActionRecord} {c : CommitRecord} (hkey : c.actionKey = a.key) :
    Excused (auditSeal a (some c)) := by
  refine .met ?_
  rintro (haction | hgeneration)
  · exact haction (congrArg ActionKey.id hkey)
  · exact hgeneration (congrArg ActionKey.generation hkey)

theorem auditAction_excused (h : Consistent ds st) {a : ActionRecord}
    (ha : a ∈ st.actions.records) : Excused (auditAction st a) := by
  have hstored : st.actions.find a.key = some a := (Table.find_eq_some_iff _ _ _).mpr ⟨ha, rfl⟩
  have hnumbered : Numbered (.action a) := h.numbered.actions _ a hstored
  have hvetted : Vetted (.action a) := h.vetted.actions _ a hstored
  have hnamed := h.coherent.known.actions _ a hstored
  obtain ⟨⟨x, hx, hle⟩, hreplayed, hcommitted⟩ := h.grounded.holds.actions _ a hstored
  have howner : st.executions.find a.execution = some x := hx
  unfold auditAction
  rw [if_neg (not_not.mpr ((Id.valid_iff _).mpr (hnamed.valid h.collisionFree))), howner]
  refine .append (.met (Nat.pos_iff_ne_zero.mp hnumbered.1)) ?_
  unfold auditOwnedAction
  refine .append (.append (.append (.append (.append (.append (.met ?_) (.met ?_)) (.met ?_))
    (.met ?_)) (.known (by decide))) ?_) (.met ?_)
  · exact Nat.not_lt_of_le hle.generation
  · exact Nat.pos_iff_ne_zero.mp hnumbered.2
  · exact Nat.not_lt_of_le (h.frontier _ a x hstored hx)
  · exact fun hkey => hvetted hkey.1 hkey.2
  · split
    next hstatus =>
      obtain ⟨c, hc, hkey⟩ := hcommitted hstatus
      have hcommit : st.commits.find a.commit = some c := hc
      rw [hcommit]
      exact auditSeal_excused hkey
    next => exact .nil
  · rintro ⟨hvalid, hnone⟩
    exact findLatestAction_stored (hreplayed ((Id.valid_iff _).mp hvalid)) hnone

theorem auditParent_excused (h : Consistent ds st) {c : CheckpointRecord}
    (hc : st.checkpoints.find c.id = some c) (hparent : c.parent ≠ .nil) :
    Excused (auditParent c (st.checkpoints.find c.parent)) := by
  have hpos := h.lineal.positive _ c hc
  have hlater : 1 < c.generation := by
    rcases Nat.eq_or_lt_of_le hpos with hone | hlater
    · exact absurd (h.lineal.first _ c hc hone.symm).1 hparent
    · exact hlater
  obtain ⟨p, hp, howner, hnext, hdepth, -⟩ := h.lineal.linked _ c hc hlater
  have hstored : st.checkpoints.find c.parent = some p := hp
  rw [hstored]
  refine .append (.append (.met (not_not.mpr howner)) (.met (not_not.mpr hdepth))) (.met ?_)
  omega

theorem auditCheckpoint_excused (h : Consistent ds st) {c : CheckpointRecord}
    (hc : c ∈ st.checkpoints.records) : Excused (auditCheckpoint st c) := by
  have hstored : st.checkpoints.find c.id = some c := (Table.find_eq_some_iff _ _ _).mpr ⟨hc, rfl⟩
  have hnumbered : Numbered (.checkpoint c) := h.numbered.checkpoints _ c hstored
  have hvetted : Vetted (.checkpoint c) := h.vetted.checkpoints _ c hstored
  have hnamed := h.coherent.known.checkpoints _ c hstored
  obtain ⟨x, hx, hle⟩ := h.grounded.holds.checkpoints _ c hstored
  have howner : st.executions.find c.execution = some x := hx
  unfold auditCheckpoint
  rw [if_neg (not_not.mpr ((Id.valid_iff _).mpr (hnamed.valid h.collisionFree))), howner]
  refine .append (.append (.append (.append (.met hvetted) (.met ?_)) (.met ?_)) ?_)
    (.defect _ (by decide) _)
  · exact Nat.not_lt_of_le hle.progressGeneration
  · exact Nat.pos_iff_ne_zero.mp hnumbered.1
  · split
    next hvalid => exact auditParent_excused h hstored ((Id.valid_iff _).mp hvalid)
    next hnone =>
      -- only the first checkpoint has no parent
      refine .met (not_not.mpr ?_)
      rcases Nat.lt_or_ge 1 c.generation with hlater | hfirst
      · obtain ⟨p, hp, -⟩ := h.lineal.linked _ c hstored hlater
        have hparent := h.coherent.known.checkpoints _ p hp
        rw [st.image.checkpoints.keyed _ _ hp] at hparent
        exact absurd ((Id.valid_iff _).mpr (hparent.valid h.collisionFree)) hnone
      · exact (h.lineal.first _ c hstored (Nat.le_antisymm hfirst hnumbered.1)).2

theorem auditContinuation_excused (h : Consistent ds st) {c : ContinuationRecord}
    (hc : c ∈ st.continuations.records) : Excused (auditContinuation st c) := by
  have hstored : st.continuations.find c.id = some c := (Table.find_eq_some_iff _ _ _).mpr ⟨hc, rfl⟩
  obtain ⟨⟨x, hx, -⟩, -⟩ := h.grounded.holds.continuations _ c hstored
  have howner : st.executions.find c.execution = some x := hx
  unfold auditContinuation
  refine .append (.met ?_) ?_
  · rw [howner]
    exact fun hnone => by cases hnone
  · split
    next hseed =>
      obtain ⟨d, hd, hseeds⟩ := h.sown _ c hstored hseed.1 ((Id.valid_iff _).mp hseed.2)
      have hfound : st.checkpoints.find c.checkpoint = some d := hd
      rw [hfound]
      exact .met (not_not.mpr hseeds)
    next => exact .nil

/-- A Valid continuation the auditor counts is the current one. -/
theorem mem_validContinuations (h : Consistent ds st) (hx : st.executions.find x.id = some x)
    {c : ContinuationRecord} (hc : c ∈ validContinuations st x) :
    st.continuations.find c.id = some c ∧ c.execution = x.id ∧ c.state = .valid ∧
      x.continuation = c.id := by
  unfold validContinuations at hc
  obtain ⟨hmem, hboth⟩ := List.mem_filter.mp hc
  obtain ⟨howner, hvalid⟩ := of_decide_eq_true hboth
  have hstored : st.continuations.find c.id = some c := (Table.find_eq_some_iff _ _ _).mpr ⟨hmem, rfl⟩
  have hcurrent := (h.governed.ruled _ x hx).continuationInvariant.current _ c hstored howner hvalid
  exact ⟨hstored, howner, hvalid, hcurrent.1⟩

theorem auditValidity_excused (h : Consistent ds st) (hx : x ∈ st.executions.records) :
    Excused (auditValidity st x) := by
  have hstored : st.executions.find x.id = some x := (Table.find_eq_some_iff _ _ _).mpr ⟨hx, rfl⟩
  have hinv := (h.governed.ruled _ x hstored).continuationInvariant
  have hnodup : (validContinuations st x).Nodup :=
    (List.Nodup.of_map _ st.continuations.nodup).filter _
  unfold auditValidity
  refine .append (.append (.met ?_) (.met ?_)) (.met ?_)
  · intro hmany
    have hfirst := List.getElem_mem (Nat.lt_trans Nat.zero_lt_one hmany)
    have hsecond := List.getElem_mem hmany
    obtain ⟨hcstored, hcowner, hcvalid, -⟩ := mem_validContinuations h hstored hfirst
    obtain ⟨hdstored, hdowner, hdvalid, -⟩ := mem_validContinuations h hstored hsecond
    have hsame := hinv.unique _ _ _ _ hcstored hdstored hcowner hdowner hcvalid hdvalid
    have hplaces := (hnodup.getElem_inj_iff).mp hsame
    cases hplaces
  · rintro ⟨hone, hother⟩
    obtain ⟨c, hlist⟩ := List.length_eq_one_iff.mp hone
    have hc : c ∈ validContinuations st x := by rw [hlist]; exact List.mem_cons_self
    rw [hlist] at hother
    exact hother (mem_validContinuations h hstored hc).2.2.2.symm
  · rintro ⟨hnone, hexercises⟩
    have hlifecycle : x.lifecycle = .running ∨ x.lifecycle = .checkpointing ∨
        x.lifecycle = .draining := by
      revert hexercises
      unfold exercisesAuthority
      simp only [Bool.or_eq_true, decide_eq_true_eq, or_assoc]
      exact id
    obtain ⟨c, hc, howner, hvalid⟩ := hinv.continued hlifecycle
    have hmem : c ∈ validContinuations st x :=
      List.mem_filter.mpr ⟨((Table.find_eq_some_iff _ _ _).mp hc).1, decide_eq_true ⟨howner, hvalid⟩⟩
    rw [List.length_eq_zero_iff.mp hnone] at hmem
    cases hmem

theorem auditLease_excused (h : Consistent ds st) {l : LeaseRecord}
    (hl : l ∈ st.leases.records) : Excused (auditLease st l) := by
  have hstored : st.leases.find l.id = some l := (Table.find_eq_some_iff _ _ _).mpr ⟨hl, rfl⟩
  have hleases := h.governed.leaseInvariant h.coherent
  obtain ⟨x, hx, -⟩ := h.grounded.holds.leases _ l hstored
  have howner : st.executions.find l.execution = some x := hx
  have hnamed := h.coherent.known.executions _ x howner
  have hkey : x.id = l.execution := Table.find_key howner
  unfold auditLease
  rw [if_neg ?_, howner]
  · refine .append (.met ?_) (.met ?_)
    · rintro ⟨hold, hactive⟩
      obtain ⟨y, hy, hlease⟩ := hleases.current _ l hstored hactive
      have hnil : l.id ≠ .nil := (h.coherent.known.leases _ l hstored).valid h.collisionFree
      rw [← hlease] at hnil
      obtain ⟨l', hl', -, -, hepoch, -⟩ := hleases.held _ y hy hnil
      rw [hlease, hstored] at hl'
      rw [← Option.some.inj hl'] at hepoch
      omega
    · rintro ⟨hactive, hother⟩
      obtain ⟨y, hy, hlease⟩ := hleases.current _ l hstored hactive
      rw [Option.some.inj (hy.symm.trans howner)] at hlease
      exact hother hlease
  · rw [← hkey]
    exact hnamed.valid h.collisionFree

theorem auditCommits_excused (h : Consistent ds st) (seen : List ActionKey)
    (cs : List CommitRecord) (hcs : ∀ c ∈ cs, st.commits.find c.id = some c) :
    Excused (auditCommits st seen cs) := by
  induction cs generalizing seen with
  | nil => exact .nil
  | cons c rest ih =>
    have hstored := hcs c List.mem_cons_self
    have hnamed := h.coherent.known.commits _ c hstored
    obtain ⟨p, a, hp, -, ha, -⟩ := h.coherent.chained.committed _ c hstored
    have haction : st.findAction c.action c.actionGeneration = some a := ha
    have hprogress : st.progress.find c.progress = some p := hp
    unfold auditCommits
    rw [if_neg (not_not.mpr ((Id.valid_iff _).mpr (hnamed.valid h.collisionFree))), haction,
      hprogress]
    refine .append (.append (.known (by decide)) (.met ?_))
      (ih _ fun d hd => hcs d (List.mem_cons_of_mem _ hd))
    exact not_not.mpr (h.coherent.chained.promoted _ p hp).1

theorem auditReplay_excused (h : Consistent ds st) {r : ReplayRecord}
    (hr : r ∈ st.replays.records) : Excused (auditReplay st r) := by
  have hstored : st.replays.find r.id = some r := (Table.find_eq_some_iff _ _ _).mpr ⟨hr, rfl⟩
  obtain ⟨haction, hnew⟩ := h.grounded.holds.replays _ r hstored
  unfold auditReplay
  refine .append (.append (.met (findLatestAction_stored haction)) (.met ?_)) (.met ?_)
  · exact fun hnone => findLatestAction_stored hnew hnone.2
  · rintro ⟨-, hnil⟩
    obtain ⟨k, a, ha, hid⟩ := hnew
    have hnamed := (h.coherent.known.actions k a ha).valid h.collisionFree
    rw [hid] at hnamed
    exact hnil ((Id.valid_iff _).mpr hnamed)

theorem auditAmbiguity_excused (h : Consistent ds st) {a : AmbiguityRecord}
    (ha : a ∈ st.ambiguities.records) : Excused (auditAmbiguity st a) := by
  have hstored : st.ambiguities.find a.id = some a := (Table.find_eq_some_iff _ _ _).mpr ⟨ha, rfl⟩
  obtain ⟨b, hb, howner⟩ := h.coherent.ambiguityAction _ a hstored
  obtain ⟨x, hx⟩ := h.coherent.owned _ b hb
  rw [howner] at hx
  have hexecution : st.executions.find a.execution = some x := hx
  have haction : st.findAction a.action a.actionGeneration = some b := hb
  unfold auditAmbiguity
  rw [hexecution, haction]
  exact .append (.met fun hnone => by cases hnone) (.known (by decide))

theorem auditRecovery_excused (h : Consistent ds st) {r : RecoveryRecord}
    (hr : r ∈ st.recoveries.records) : Excused (auditRecovery st r) := by
  have hstored : st.recoveries.find r.id = some r := (Table.find_eq_some_iff _ _ _).mpr ⟨hr, rfl⟩
  obtain ⟨x, hx, -⟩ := h.grounded.holds.recoveries _ r hstored
  have howner : st.executions.find r.execution = some x := hx
  have hdecision : r.decision < recoveryDecisionCount := h.numbered.recoveries _ r hstored
  unfold auditRecovery
  rw [howner]
  exact .append (.met fun hnone => by cases hnone) (.met (UInt8.not_le.mpr hdecision))

theorem auditPolicy_excused (h : Consistent ds st) {p : ExecutionPolicy}
    (hp : p ∈ st.policies.records) : Excused (auditPolicy p) := by
  have hstored : st.policies.find p.id = some p := (Table.find_eq_some_iff _ _ _).mpr ⟨hp, rfl⟩
  have hvalid : validatePolicy p = none := h.vetted.policies _ p hstored
  unfold auditPolicy
  rw [hvalid]
  exact .nil

/-- In a consistent state the auditor reports nothing but the reportable. -/
theorem auditState_excused (h : Consistent ds st) : Excused (auditState st).findings :=
  .append (.append (.append (.append (.append (.append (.append (.append (.append (.append (.append
    (auditStore_excused h)
    (.flatMap fun _ => auditExecution_excused h)) (.flatMap fun _ => auditAction_excused h))
    (.flatMap fun _ => auditCheckpoint_excused h))
    (.flatMap fun _ => auditContinuation_excused h))
    (.flatMap fun _ => auditValidity_excused h)) (.flatMap fun _ => auditLease_excused h))
    (auditCommits_excused h [] _ fun _ hc => (Table.find_eq_some_iff _ _ _).mpr ⟨hc, rfl⟩))
    (.flatMap fun _ => auditReplay_excused h)) (.flatMap fun _ => auditAmbiguity_excused h))
    (.flatMap fun _ => auditRecovery_excused h)) (.flatMap fun _ => auditPolicy_excused h)

end Checks

/-! ## Runs the auditor reports on -/

/-- A step of a script, which may look at the state it meets. -/
abbrev Cue := Runtime → Event

def play (cues : List Cue) (s : Runtime) : Runtime :=
  cues.foldl (fun s cue => (cue s).perform s) s

/-- The events of a script. -/
def cued : List Cue → Runtime → List Event
  | [], _ => []
  | cue :: rest, s => cue s :: cued rest ((cue s).perform s)

theorem runs_play (cues : List Cue) (s : Runtime) : Runs anyEvent s (cued cues s) (play cues s) := by
  induction cues generalizing s with
  | nil => exact .nil s
  | cons cue rest ih => exact .cons trivial (ih ((cue s).perform s))

namespace Script

/-- The token of whoever holds the first execution. -/
def holderToken (s : Runtime) : LeaseToken where
  execution := firstExecution
  executionGeneration := (firstRecord s).generation
  incarnation := (firstRecord s).incarnation
  incarnationGeneration := (firstRecord s).incarnationGeneration
  lease := (firstRecord s).lease
  leaseGeneration := (firstLease s).generation
  epoch := s.state.epoch
  worker := (firstRecord s).worker
  boot := (firstRecord s).boot
  policyGeneration := (firstRecord s).policyGeneration

def ordering (call : CallerContext → RequestId → ExecutionId → Call) : Cue := fun s =>
  .call (call { epoch := s.state.epoch } .nil firstExecution)

def rebind : Cue := fun s =>
  .call (.bindWorker { epoch := s.state.epoch }
    { execution := firstExecution, worker := ⟨2⟩, boot := ⟨7⟩ })

def starting : Cue := fun s => .call (.start { token := holderToken s })

def beginning (effectClass : SideEffectClass) : Cue := fun s =>
  .call (.beginAction { token := holderToken s, effectClass := effectClass })

def completing (ordinal generation : Nat) : Cue := fun s =>
  .call (.completeAction {
    token := holderToken s
    action := deriveActionId firstExecution ordinal
    actionGeneration := generation })

def failing (ordinal generation : Nat) : Cue := fun s =>
  .call (.failAction {
    token := holderToken s
    action := deriveActionId firstExecution ordinal
    actionGeneration := generation })

/-- Reports the first action as applied. -/
def applying (kind : EvidenceKind) : Cue := fun s =>
  .call (.reportSideEffect {
    token := holderToken s
    action := deriveActionId firstExecution 1
    actionGeneration := 1
    applied := true
    evidence := { kind := kind } })

def checkpointing : Cue := fun s =>
  .call (.registerCheckpoint {
    token := holderToken s
    contentHash := 5
    expectedCheckpoint := (firstRecord s).checkpoint
    expectedCheckpointGeneration := (firstRecord s).checkpointGeneration })

def resuming (bindings : List BindingRef) : Cue := fun s =>
  .call (.resume {
    token := holderToken s
    observedBindings := ⟨bindings⟩
    revalidateBindings := true })

/-- Settles the ambiguity at a place of its table. -/
def resolving (place : Nat) (resolution : AmbiguityState) : Cue := fun s =>
  .call (.resolveAmbiguity {
    caller := { epoch := s.state.epoch }
    execution := firstExecution
    ambiguity := ((s.state.ambiguities.records[place]?).getD {}).id
    ambiguityGeneration := ((s.state.ambiguities.records[place]?).getD {}).generation
    resolution := resolution })

def suspending : List Cue := [ordering .suspendBegin, ordering .suspendCommit]

/-- The process dies before its last three appends are durable, and another opens the store. -/
def losingThree : List Cue :=
  [fun s => .crash (s.state.sequence - 3), fun _ => .call (.openRuntime {} 1)]

def running : List Cue := [fun _ => openAs 1, fun _ => createOne, rebind, starting]

/-- An action may have run, and the restart lost the order to recover it but not the ambiguity. -/
def orphaning : List Cue :=
  running ++ [beginning .nonRepeatable] ++ suspending ++ [ordering .recover] ++ losingThree

/-- The same after an earlier ambiguity of the execution was settled. -/
def orphaningAgain : List Cue :=
  running ++ [beginning .nonRepeatable] ++ suspending ++
    [ordering .recover, resolving 0 .resolvedNotApplied, rebind, resuming [],
      beginning .nonRepeatable] ++ suspending ++ [ordering .recover] ++ losingThree

/-- For each reportable code a script that ends where the auditor reports it. -/
def script (code : String) : List Cue :=
  if code = "TERMINAL_EXECUTION_OPEN_AMBIGUITY" then
    running ++ [beginning .nonRepeatable, ordering .fence, ordering .recover, ordering .cancel]
  else if code = "CONTINUATION_ACTION_AHEAD" then
    running ++ [beginning .pure, failing 1 1, beginning .pure, checkpointing, beginning .pure]
  else if code = "PROGRESS_BEYOND_AMBIGUOUS_ACTION" then
    running ++ [beginning .pure, failing 1 1, beginning .nonRepeatable, applying .real,
      completing 1 1, ordering .fence, ordering .recover]
  else if code = "PROGRESS_ORDINAL_DUPLICATE" then
    running ++ [beginning .pure, failing 1 1, beginning .pure, applying .real, completing 1 1,
      completing 1 2]
  else if code = "BLOCK_WITH_RESOLVED_AMBIGUITY" then
    orphaningAgain ++ [resolving 1 .manualResolutionRequired]
  else if code = "BLOCK_WITHOUT_AMBIGUITY" then
    orphaning ++ [resolving 0 .manualResolutionRequired]
  else if code = "EXECUTION_BINDING_SET_DEFECT" then
    running ++ suspending ++ [rebind, resuming [{ id := .nil }]]
  else if code = "ACTION_SEALED_WITHOUT_RECEIPT" then
    running ++ [beginning .pure, applying .none]
  else if code = "CHECKPOINT_BINDING_SET_DEFECT" then
    running ++ suspending ++ [rebind, resuming [{ id := .nil }], checkpointing]
  else if code = "DUPLICATE_LOGICAL_COMMIT" then
    orphaning ++ [rebind, resuming [], completing 1 1, resolving 0 .accepted]
  else orphaning

/-- No record of the script exceeds the default limit. -/
def unrefused (code : String) : Bool :=
  @decide (@AllUnrefused payloadLimit (cued (script code) {}) {}) (decidableAllUnrefused _ _)

/-- Every reportable code is reported in a state that a collision-free run reaches. -/
theorem script_reports : ∀ code ∈ reportable,
    let s := play (script code) {}
    unrefused code = true ∧ CollisionFree s.minted ∧ s.isOpen = true ∧
      ∃ f ∈ (auditState s.state).findings, f.code = code := by
  decide +kernel

end Script

end ExecutionFabric
