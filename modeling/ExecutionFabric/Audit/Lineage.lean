import ExecutionFabric.Audit.CheckpointCurrency
import ExecutionFabric.Audit.Origins

/-!
# Checkpoint lineage

Each checkpoint of an execution names the one before it. What is invariant at every
record boundary of the journal is more: no checkpoint is two generations ahead of its
execution, and an execution whose current checkpoint was demoted has the next one stored
already, so that a recovery that moves to another checkpoint always moves one
generation forward.
-/
namespace ExecutionFabric

open Lib

/-- Some stored action of the execution has reached the ordinal. -/
def Image.Reached (m : Image) (e : ExecutionId) (n : Nat) : Prop :=
  n = 0 ∨ ∃ k a, m.actions k = some a ∧ a.execution = e ∧ n ≤ a.sequence

/-- The execution points at the newest of its checkpoints, or at the one before it. -/
structure ExecutionRecord.Aligned (x : ExecutionRecord) (m : Image) : Prop where
  newest : ∀ k c, m.checkpoints k = some c → c.execution = x.id →
    c.generation ≤ x.checkpointGeneration + 1 ∧ c.progressGeneration ≤ x.progressGeneration
  point : (x.checkpoint = .nil ∧ x.checkpointGeneration = 0) ∨ ∃ c,
    m.checkpoints x.checkpoint = some c ∧ c.execution = x.id ∧ c.generation = x.checkpointGeneration
  seeds : x.checkpoint ≠ .nil → ∃ k c, m.checkpoints k = some c ∧ c.execution = x.id ∧
    checkpointCanSeedContinuation c.state = true ∧
      (k = x.checkpoint ∨ c.generation = x.checkpointGeneration + 1)

/-- A stored checkpoint of the preceding generation is the parent of `c`. -/
def Image.Continues (m : Image) (c : CheckpointRecord) : Prop :=
  ∃ p, m.checkpoints c.parent = some p ∧ p.execution = c.execution ∧
    p.generation + 1 = c.generation ∧ c.lineageDepth = p.lineageDepth + 1 ∧
    p.progressGeneration ≤ c.progressGeneration

/-- The lineage of every execution, with what keeps it unbroken. -/
structure Image.Lineal (m : Image) : Prop where
  owned : ∀ k c, m.checkpoints k = some c → ∃ x, m.executions c.execution = some x
  positive : ∀ k c, m.checkpoints k = some c → 1 ≤ c.generation
  first : ∀ k c, m.checkpoints k = some c → c.generation = 1 →
    c.parent = .nil ∧ c.lineageDepth = 0
  linked : ∀ k c, m.checkpoints k = some c → 1 < c.generation → m.Continues c
  aligned : ∀ e x, m.executions e = some x → x.Aligned m
  reached : ∀ e x, m.executions e = some x → m.Reached e x.actionFrontier
  bounded : ∀ k c, m.checkpoints k = some c → m.Reached c.execution c.effectBoundaryOrdinal

section Images

variable {m m' : Image}

theorem Image.Reached.mono {e : ExecutionId} {n n' : Nat} (h : m.Reached e n) (hle : n' ≤ n) :
    m.Reached e n' := by
  rcases h with rfl | ⟨k, a, ha, howner, hsequence⟩
  · exact .inl (Nat.le_zero.mp hle)
  · exact .inr ⟨k, a, ha, howner, Nat.le_trans hle hsequence⟩

theorem Image.Reached.keeps {e : ExecutionId} {n : Nat} (h : m.Reached e n)
    (hkeeps : m.KeepsActions m') : m'.Reached e n := by
  rcases h with hzero | ⟨k, a, ha, howner, hsequence⟩
  · exact .inl hzero
  · obtain ⟨b, hb, howner', hsequence'⟩ := hkeeps k a ha
    exact .inr ⟨k, b, hb, howner'.trans howner, hsequence' ▸ hsequence⟩

theorem Image.KeepsActions.trans {m'' : Image} (h : m.KeepsActions m')
    (h' : m'.KeepsActions m'') : m.KeepsActions m'' := by
  intro k a ha
  obtain ⟨b, hb, howner, hsequence⟩ := h k a ha
  obtain ⟨b', hb', howner', hsequence'⟩ := h' k b hb
  exact ⟨b', hb', howner'.trans howner, hsequence'.trans hsequence⟩

theorem Image.Continues.congr (hcheckpoints : m'.checkpoints = m.checkpoints)
    {c : CheckpointRecord} (h : m.Continues c) : m'.Continues c := by
  unfold Continues
  rw [hcheckpoints]
  exact h

theorem ExecutionRecord.Aligned.congr {x : ExecutionRecord} (h : x.Aligned m)
    (hcheckpoints : m'.checkpoints = m.checkpoints) : x.Aligned m' := by
  refine ⟨?_, ?_, ?_⟩ <;> rw [hcheckpoints]
  · exact h.newest
  · exact h.point
  · exact h.seeds

/-- A later version at the same checkpoint is still aligned. -/
theorem ExecutionRecord.Aligned.same {x y : ExecutionRecord} (h : x.Aligned m) (hid : y.id = x.id)
    (hpoint : x.SamePoint y) (hprogress : x.progressGeneration ≤ y.progressGeneration) :
    y.Aligned m := by
  refine ⟨fun k c hc howner => ?_, ?_, fun hcheckpoint => ?_⟩
  · obtain ⟨hgeneration, hbehind⟩ := h.newest k c hc (howner.trans hid)
    rw [hpoint.checkpointGeneration]
    exact ⟨hgeneration, Nat.le_trans hbehind hprogress⟩
  · rw [hpoint.checkpoint, hpoint.checkpointGeneration, hid]
    exact h.point
  · rw [hpoint.checkpoint] at hcheckpoint
    rw [hpoint.checkpoint, hpoint.checkpointGeneration, hid]
    exact h.seeds hcheckpoint

/-- An execution that moves to its next checkpoint is aligned again. -/
theorem ExecutionRecord.Aligned.next {x y : ExecutionRecord} (h : x.Aligned m) (hid : y.id = x.id)
    {c : CheckpointRecord} (hc : m.checkpoints y.checkpoint = some c) (howner : c.execution = x.id)
    (hseeds : checkpointCanSeedContinuation c.state = true)
    (hgeneration : c.generation = x.checkpointGeneration + 1)
    (hstored : y.checkpointGeneration = c.generation)
    (hprogress : x.progressGeneration ≤ y.progressGeneration) : y.Aligned m := by
  refine ⟨fun k d hd hdowner => ?_, .inr ⟨c, hc, howner.trans hid.symm, hstored.symm⟩, fun _ => ?_⟩
  · obtain ⟨hle, hbehind⟩ := h.newest k d hd (hdowner.trans hid)
    exact ⟨by omega, Nat.le_trans hbehind hprogress⟩
  · exact ⟨y.checkpoint, c, hc, howner.trans hid.symm, hseeds, .inl rfl⟩

theorem Image.Vacant.lineal (h : m.Vacant) : m.Lineal := by
  have hnone : ∀ k c, m.checkpoints k ≠ some c := by
    intro k c hc
    rw [h.checkpoints] at hc
    cases hc
  refine ⟨fun k c hc => absurd hc (hnone k c), fun k c hc => absurd hc (hnone k c),
    fun k c hc => absurd hc (hnone k c), fun k c hc => absurd hc (hnone k c), fun e x hx => ?_,
    fun e x hx => ?_, fun k c hc => absurd hc (hnone k c)⟩
  · rw [h.executions] at hx
    cases hx
  · rw [h.executions] at hx
    cases hx

/-- Memory inherits the lineage of the image it was loaded from. -/
theorem Image.Lineal.loaded (h : m.Lineal) (ha : m.Agrees m') (hreaches : m.Reaches m') :
    m'.Lineal where
  owned := by
    intro k c hc
    rw [ha.checkpoints] at hc
    obtain ⟨x, hx⟩ := h.owned k c hc
    obtain ⟨y, f, g, hy, -⟩ := ha.symm.execution hx
    exact ⟨y, hy⟩
  positive := by
    rw [ha.checkpoints]
    exact h.positive
  first := by
    rw [ha.checkpoints]
    exact h.first
  linked := by
    intro k c hc hgeneration
    rw [ha.checkpoints] at hc
    exact (h.linked k c hc hgeneration).congr ha.checkpoints
  aligned := by
    intro e x hx
    obtain ⟨y, f, g, hy, rfl⟩ := ha.execution hx
    have hy' := (h.aligned e y hy).congr ha.checkpoints
    exact ⟨hy'.newest, hy'.point, hy'.seeds⟩
  reached := by
    intro e x hx
    obtain ⟨y, hy, hsame | ⟨k, a, hk, howner, hsequence⟩⟩ := hreaches e x hx
    · rw [hsame]
      exact (h.reached e y hy).keeps (.of_eq ha.actions)
    · exact .inr ⟨k, a, hk, howner, Nat.le_of_eq hsequence.symm⟩
  bounded := by
    intro k c hc
    rw [ha.checkpoints] at hc
    exact (h.bounded k c hc).keeps (.of_eq ha.actions)

/-- Lawful records never take progress back. -/
theorem Image.LawfulAll.progress {ds : List Derivation} {es : List JournalEntry}
    (hes : m.LawfulAll ds es) {x y : ExecutionRecord} (hy : y ∈ executionsOf es)
    (hx : m.executions y.id = some x) : x.progressGeneration ≤ y.progressGeneration := by
  induction es generalizing m x with
  | nil => cases hy
  | cons e rest ih =>
    obtain ⟨-, hlawful, hrest⟩ := hes
    have hhead : ∀ z ∈ e.executions, ∀ x, m.executions z.id = some x →
        x.progressGeneration ≤ z.progressGeneration := by
      intro z hz x hx
      cases e with
      | execution x' =>
        obtain rfl := List.mem_singleton.mp hz
        rcases hlawful with hfresh | ⟨x₀, hx₀, hs⟩
        · rw [hfresh.free] at hx
          cases hx
        · rw [hs.id, hx₀] at hx
          rw [hs.progressGeneration, Option.some.inj hx]
      | commitGroup g =>
        obtain rfl := List.mem_singleton.mp hz
        obtain ⟨x₀, a, hg, hx₀, -, -⟩ := hlawful
        obtain ⟨epoch, hexecution⟩ := hg.execution
        have hid : g.execution.id = x₀.id := by rw [hexecution]; rfl
        have hprogress : g.execution.progressGeneration = g.progress.generation := by
          rw [hexecution, hg.generation]
          rfl
        rw [hid, hx₀] at hx
        rw [hprogress, hg.generation, ← Option.some.inj hx]
        exact Nat.le_succ _
      | _ => cases hz
    rcases List.mem_append.mp hy with hmem | hmem
    · exact hhead y hmem x hx
    · have hstored : (m.install e).executions = m.executions.insertAll e.executions := by
        cases e <;> rfl
      obtain ⟨z, hz⟩ := KeyedMap.insertAll_stored hx e.executions
      have hz' : (m.install e).executions y.id = some z := by
        rw [hstored]
        exact hz
      refine Nat.le_trans ?_ (ih hrest hmem hz')
      rcases KeyedMap.insertAll_eq_some hz with hin | ⟨hold, -⟩
      · have hid : z.id = y.id := (m.executions.insertAll e.executions).keyed _ _ hz
        exact hhead z hin x (hid ▸ hx)
      · rw [hx] at hold
        rw [Option.some.inj hold]

/-- Lawful records keep actions. -/
theorem Image.LawfulAll.keepsActions {ds : List Derivation} (hfree : CollisionFree ds)
    (hc : m.Coherent ds) {es : List JournalEntry} (hes : m.LawfulAll ds es)
    {p : List JournalEntry} (hp : p <+: es) : m.KeepsActions (m.installAll p) := by
  induction es generalizing m p with
  | nil =>
    rw [List.prefix_nil.mp hp]
    exact .of_eq rfl
  | cons e rest ih =>
    cases p with
    | nil => exact .of_eq rfl
    | cons e' p' =>
      obtain ⟨rfl, hp'⟩ := List.cons_prefix_cons.mp hp
      obtain ⟨hderived, hlawful, hrest⟩ := hes
      have hhead : m.KeepsActions (m.install e') := by
        cases e' with
        | action a => exact fun k b hb => find_insert_action hfree hc.known hderived hb
        | commitGroup g => exact fun k b hb => find_insert_action hfree hc.known hderived.2.2.1 hb
        | _ => exact .of_eq rfl
      exact hhead.trans (ih (hc.install hfree hderived hlawful) hrest hp')

/-- Records without checkpoints keep the lineage if every version of an execution they write is
aligned and within reach. -/
theorem Image.Lineal.revised (h : m.Lineal) {p : List JournalEntry}
    (hcheckpoints : checkpointsOf p = []) (hkeeps : m.KeepsActions (m.installAll p))
    (hversions : ∀ y ∈ executionsOf p,
      y.Aligned m ∧ (m.installAll p).Reached y.id y.actionFrontier) : (m.installAll p).Lineal := by
  have hsame : (m.installAll p).checkpoints = m.checkpoints := by
    rw [checkpoints_installAll, hcheckpoints]
    rfl
  have hexecutions := executions_installAll m p
  refine ⟨fun k c hc => ?_, ?_, ?_, fun k c hc hgeneration => ?_, fun e x hx => ?_, fun e x hx => ?_,
    fun k c hc => ?_⟩
  · rw [hsame] at hc
    obtain ⟨x, hx⟩ := h.owned k c hc
    rw [hexecutions]
    exact KeyedMap.insertAll_stored hx _
  · rw [hsame]
    exact h.positive
  · rw [hsame]
    exact h.first
  · rw [hsame] at hc
    exact (h.linked k c hc hgeneration).congr hsame
  · rw [hexecutions] at hx
    refine ExecutionRecord.Aligned.congr ?_ hsame
    rcases KeyedMap.insertAll_eq_some hx with hmem | ⟨hold, -⟩
    · exact (hversions x hmem).1
    · exact h.aligned e x hold
  · rw [hexecutions] at hx
    rcases KeyedMap.insertAll_eq_some hx with hmem | ⟨hold, -⟩
    · rw [← (m.executions.insertAll _).keyed _ _ hx]
      exact (hversions x hmem).2
    · exact (h.reached e x hold).keeps hkeeps
  · rw [hsame] at hc
    exact (h.bounded k c hc).keeps hkeeps

end Images

/-! ## Recovery -/

section Recovery

variable {ds : List Derivation} {j : Journaled} {x y : ExecutionRecord}

/-- The candidates are the seedable checkpoints of the execution, the newest first. -/
theorem seedableCandidates_newest {st : DurableState} {e : ExecutionId} {front c : CheckpointRecord}
    {rest : List CheckpointRecord} (h : seedableCandidates st e = front :: rest) {k : CheckpointId}
    (hc : st.checkpoints.find k = some c) (howner : c.execution = e)
    (hseeds : checkpointCanSeedContinuation c.state = true) : c.generation ≤ front.generation := by
  have hmem : c ∈ seedableCandidates st e := by
    unfold seedableCandidates
    rw [List.mem_insertionSort, List.mem_filter, Table.mem_canonicalOrder]
    exact ⟨((Table.find_eq_some_iff _ _ _).mp hc).1, decide_eq_true ⟨howner, hseeds⟩⟩
  have hsorted : (seedableCandidates st e).Pairwise fun a b => a.generation ≥ b.generation := by
    unfold seedableCandidates
    have : Std.Total fun a b : CheckpointRecord => a.generation ≥ b.generation :=
      ⟨fun a b => Nat.le_total b.generation a.generation⟩
    have : IsTrans CheckpointRecord fun a b => a.generation ≥ b.generation :=
      ⟨fun _ _ _ hab hbc => Nat.le_trans hbc hab⟩
    exact List.pairwise_insertionSort _ _
  rw [h] at hmem hsorted
  rcases List.mem_cons.mp hmem with rfl | hmem
  · exact Nat.le_refl _
  · exact List.rel_of_pairwise_cons hsorted hmem

/-- A recovery that moves to another checkpoint moves one generation forward. -/
theorem planOf_next (hfree : CollisionFree ds) (hw : Working ds j) (h : j.state.image.Lineal)
    (hx : j.state.image.executions x.id = some x)
    (hdecision : (planOf j x).decision = .resumeFromCheckpoint) :
    ∃ c, j.state.image.checkpoints (planOf j x).checkpoint = some c ∧ c.execution = x.id ∧
      checkpointCanSeedContinuation c.state = true ∧
      c.generation = x.checkpointGeneration + 1 ∧
      (planOf j x).checkpointGeneration = c.generation := by
  obtain ⟨x', base, hx', hplan⟩ := classifyRecovery_atRest hdecision
  obtain rfl : x = x' := Option.some.inj hx'
  have hrest : (classifyAtRest base (recoveryInput j x) x).decision = .resumeFromCheckpoint := by
    rw [← hplan]
    exact hdecision
  obtain ⟨front, rest, hcandidates, hunseedable, hid, hgeneration⟩ := classifyAtRest_checkpoint hrest
  replace hcandidates : seedableCandidates j.state x.id = front :: rest := hcandidates
  have hmem : front ∈ seedableCandidates j.state x.id := by
    rw [hcandidates]
    exact List.mem_cons_self
  obtain ⟨hstored, howner, hseeds⟩ := mem_seedableCandidates hmem
  -- the newest candidate was taken at or before the frontier, whatever the policy prefers
  have hbehind : front.effectBoundaryOrdinal ≤ x.actionFrontier := by
    rcases h.bounded _ front hstored with hzero | ⟨k, a, ha, haction, hsequence⟩
    · rw [hzero]
      exact Nat.zero_le _
    · refine Nat.le_trans hsequence (hw.frontier k a x ha ?_)
      rw [haction, howner]
      exact hx
  have hchosen : chosenCandidate (recoveryInput j x).policy x front (front :: rest) = front := by
    have hfind : ((front :: rest).find? fun c => c.effectBoundaryOrdinal ≤ x.actionFrontier) =
        some front := List.find?_cons_of_pos (decide_eq_true hbehind)
    unfold chosenCandidate
    rw [hfind]
    exact ite_self _
  rw [hchosen] at hid hgeneration
  have haligned := h.aligned _ x hx
  have hnewest := (haligned.newest _ front hstored howner).1
  have hnext : x.checkpointGeneration + 1 ≤ front.generation := by
    by_cases hnil : x.checkpoint = .nil
    · rcases haligned.point with ⟨-, hzero⟩ | ⟨c, hc, -⟩
      · rw [hzero]
        exact h.positive _ front hstored
      · have hnamed := hw.coherent.known.checkpoints _ _ hc
        rw [j.state.image.checkpoints.keyed _ _ hc, hnil] at hnamed
        exact absurd rfl (hnamed.valid hfree)
    · obtain ⟨k, c, hc, hcowner, hcseeds, rfl | hcnext⟩ := haligned.seeds hnil
      · have hcurrent : seedingCheckpoint j.state x = some c := by
          unfold seedingCheckpoint
          rw [if_pos ((Id.valid_iff _).mpr hnil)]
          exact Option.filter_eq_some_iff.mpr ⟨hc, hcseeds⟩
        have hnot := hunseedable c hcurrent
        rw [hcseeds] at hnot
        cases hnot
      · rw [← hcnext]
        exact seedableCandidates_newest hcandidates hc hcowner hcseeds
  refine ⟨front, ?_, howner, hseeds, Nat.le_antisymm hnewest hnext, ?_⟩
  · rw [show (planOf j x).checkpoint = front.id from (congrArg _ hplan).trans hid]
    exact hstored
  · exact (congrArg RecoveryPlan.checkpointGeneration hplan).trans hgeneration

end Recovery

/-! ## Registrations -/

/-- `c` is the checkpoint after the current one of the stored execution `x`. -/
structure Image.Follows (m : Image) (x : ExecutionRecord) (c : CheckpointRecord) : Prop where
  stored : m.executions x.id = some x
  owner : c.execution = x.id
  generation : c.generation = x.checkpointGeneration + 1
  parent : c.parent = x.checkpoint
  root : x.checkpoint = .nil → c.lineageDepth = 0
  depth : ∀ p, m.checkpoints x.checkpoint = some p → c.lineageDepth = p.lineageDepth + 1
  progress : c.progressGeneration = x.progressGeneration
  seeds : checkpointCanSeedContinuation c.state = true
  reached : m.Reached x.id c.effectBoundaryOrdinal

section Registrations

variable {ds : List Derivation} {m : Image} {x : ExecutionRecord} {c : CheckpointRecord}

/-- The next checkpoint does not take the key of the current one. -/
theorem Image.Lineal.current_ne (hfree : CollisionFree ds) (h : m.Lineal)
    (hnamed : Named ds (.checkpoint c.execution c.generation) c.id) (hf : m.Follows x c)
    (hover : ∀ d, m.checkpoints c.id = some d → d.execution = x.id ∧ d.generation = c.generation) :
    x.checkpoint ≠ c.id := by
  intro hsame
  rcases (h.aligned _ x hf.stored).point with ⟨hnil, -⟩ | ⟨p, hp, -, hgeneration⟩
  · exact hnamed.valid hfree (hsame.symm.trans hnil)
  · have hnext := (hover p (hsame ▸ hp)).2
    have := hf.generation
    omega

/-- Storing the next checkpoint of an execution extends its lineage. Only a checkpoint nothing
builds on is overwritten. -/
theorem Image.Lineal.registers (hfree : CollisionFree ds) (h : m.Lineal)
    (hknown : ∀ k d, m.checkpoints k = some d →
      Named ds (.checkpoint d.execution d.generation) d.id)
    (hnamed : Named ds (.checkpoint c.execution c.generation) c.id) (hf : m.Follows x c) :
    (m.install (.checkpoint c)).Lineal := by
  have hgeneration := hf.generation
  have hover : ∀ d, m.checkpoints c.id = some d →
      d.execution = x.id ∧ d.generation = c.generation := by
    intro d hd
    have hold := hknown _ d hd
    rw [m.checkpoints.keyed _ _ hd] at hold
    injection hold.unique hnamed hfree with hexecution hsame
    exact ⟨hexecution.trans hf.owner, hsame⟩
  have hcurrent := h.current_ne hfree hnamed hf hover
  have haligned := h.aligned _ x hf.stored
  have hnew : (m.checkpoints.insert c) c.id = some c := KeyedMap.insert_self _ _
  have hkept : ∀ {k d}, k ≠ c.id → m.checkpoints k = some d →
      (m.checkpoints.insert c) k = some d := fun hk hd => (KeyedMap.insert_of_ne _ hk).trans hd
  refine ⟨fun k d hd => ?_, fun k d hd => ?_, fun k d hd hone => ?_, fun k d hd hlater => ?_,
    fun e z hz => ?_, h.reached, fun k d hd => ?_⟩
  · rcases KeyedMap.insert_eq_some hd with ⟨-, rfl⟩ | ⟨-, hold⟩
    · exact ⟨x, hf.owner ▸ hf.stored⟩
    · exact h.owned k d hold
  · rcases KeyedMap.insert_eq_some hd with ⟨-, rfl⟩ | ⟨-, hold⟩
    · omega
    · exact h.positive k d hold
  · rcases KeyedMap.insert_eq_some hd with ⟨-, rfl⟩ | ⟨-, hold⟩
    · rcases haligned.point with ⟨hnil, -⟩ | ⟨p, hp, -, hpoint⟩
      · exact ⟨hf.parent.trans hnil, hf.root hnil⟩
      · have := h.positive _ p hp
        omega
    · exact h.first k d hold hone
  · rcases KeyedMap.insert_eq_some hd with ⟨-, rfl⟩ | ⟨-, hold⟩
    · rcases haligned.point with ⟨-, hzero⟩ | ⟨p, hp, howner, hpoint⟩
      · omega
      · refine ⟨p, ?_, howner.trans hf.owner.symm, by omega, hf.depth p hp, ?_⟩
        · rw [hf.parent]
          exact hkept hcurrent hp
        · rw [hf.progress]
          exact (haligned.newest _ p hp howner).2
    · obtain ⟨p, hp, howner, hnext, hdepth, hprogress⟩ := h.linked k d hold hlater
      refine ⟨p, hkept (fun hparent => ?_) hp, howner, hnext, hdepth, hprogress⟩
      -- a child of the overwritten checkpoint would be two generations ahead
      obtain ⟨hexecution, hsame⟩ := hover p (hparent ▸ hp)
      have := (haligned.newest k d hold (howner.symm.trans hexecution)).1
      omega
  · have hid : z.id = e := m.executions.keyed _ _ hz
    have hz' := h.aligned e z hz
    by_cases hsame : z.id = x.id
    · obtain rfl : z = x := by
        have hstored := hf.stored
        rw [← hsame, hid] at hstored
        exact Option.some.inj (hz.symm.trans hstored)
      refine ⟨fun k d hd howner => ?_, ?_, fun _ => ?_⟩
      · rcases KeyedMap.insert_eq_some hd with ⟨-, rfl⟩ | ⟨-, hold⟩
        · exact ⟨Nat.le_of_eq hgeneration, Nat.le_of_eq hf.progress⟩
        · exact hz'.newest k d hold howner
      · rcases hz'.point with hnil | ⟨p, hp, howner, hpoint⟩
        · exact .inl hnil
        · exact .inr ⟨p, hkept hcurrent hp, howner, hpoint⟩
      · exact ⟨c.id, c, hnew, hf.owner, hf.seeds, .inr hgeneration⟩
    · have hother : ∀ {k d}, m.checkpoints k = some d → d.execution = z.id → k ≠ c.id := by
        intro k d hd howner hk
        exact hsame (howner.symm.trans (hover d (hk ▸ hd)).1)
      refine ⟨fun k d hd howner => ?_, ?_, fun hcheckpoint => ?_⟩
      · rcases KeyedMap.insert_eq_some hd with ⟨-, rfl⟩ | ⟨-, hold⟩
        · exact absurd (howner.symm.trans hf.owner) hsame
        · exact hz'.newest k d hold howner
      · rcases hz'.point with hnil | ⟨p, hp, howner, hpoint⟩
        · exact .inl hnil
        · exact .inr ⟨p, hkept (hother hp howner) hp, howner, hpoint⟩
      · obtain ⟨k, d, hd, howner, hseeds, hplace⟩ := hz'.seeds hcheckpoint
        exact ⟨k, d, hkept (hother hd howner) hd, howner, hseeds, hplace⟩
  · rcases KeyedMap.insert_eq_some hd with ⟨-, rfl⟩ | ⟨-, hold⟩
    · rw [hf.owner]
      exact hf.reached
    · exact h.bounded k d hold

/-- A checkpoint may be demoted once the next one of its execution is stored. -/
theorem Image.Lineal.demotes (h : m.Lineal) {d : CheckpointRecord} (state : CheckpointState)
    (hd : m.checkpoints d.id = some d) (hx : m.executions x.id = some x)
    (howner : d.execution = x.id) (hc : m.checkpoints c.id = some c) (hne : c.id ≠ d.id)
    (hcowner : c.execution = x.id) (hseeds : checkpointCanSeedContinuation c.state = true)
    (hnext : c.generation = x.checkpointGeneration + 1) :
    (m.install (.checkpoint { d with state := state })).Lineal := by
  let d' : CheckpointRecord := { d with state := state }
  have hself : (m.checkpoints.insert d') d.id = some d' := KeyedMap.insert_self _ d'
  have hkept : ∀ {k r}, k ≠ d.id → m.checkpoints k = some r →
      (m.checkpoints.insert d') k = some r := fun hk hr => by
    rw [KeyedMap.insert_of_ne m.checkpoints (show _ ≠ d'.id from hk)]
    exact hr
  have hold : ∀ {k r}, (m.checkpoints.insert d') k = some r →
      ∃ r₀ s, m.checkpoints k = some r₀ ∧ r = { r₀ with state := s } := by
    intro k r hr
    rcases KeyedMap.insert_eq_some hr with ⟨hk, rfl⟩ | ⟨-, hr⟩
    · exact ⟨d, state, hk ▸ hd, rfl⟩
    · exact ⟨r, r.state, hr, rfl⟩
  have hnew : ∀ {k r}, m.checkpoints k = some r →
      ∃ s, (m.checkpoints.insert d') k = some { r with state := s } := by
    intro k r hr
    by_cases hk : k = d.id
    · obtain rfl := Option.some.inj (hd.symm.trans (hk ▸ hr))
      rw [hk]
      exact ⟨state, hself⟩
    · exact ⟨r.state, hkept hk hr⟩
  refine ⟨fun k r hr => ?_, fun k r hr => ?_, fun k r hr hone => ?_, fun k r hr hlater => ?_,
    fun e z hz => ?_, h.reached, fun k r hr => ?_⟩
  · obtain ⟨r₀, s, hr₀, rfl⟩ := hold hr
    exact h.owned k r₀ hr₀
  · obtain ⟨r₀, s, hr₀, rfl⟩ := hold hr
    exact h.positive k r₀ hr₀
  · obtain ⟨r₀, s, hr₀, rfl⟩ := hold hr
    exact h.first k r₀ hr₀ hone
  · obtain ⟨r₀, s, hr₀, rfl⟩ := hold hr
    obtain ⟨p, hp, hparent⟩ := h.linked k r₀ hr₀ hlater
    obtain ⟨s', hp'⟩ := hnew hp
    exact ⟨_, hp', hparent⟩
  · have hz' := h.aligned e z hz
    refine ⟨fun k r hr hrowner => ?_, ?_, fun hcheckpoint => ?_⟩
    · obtain ⟨r₀, s, hr₀, rfl⟩ := hold hr
      exact hz'.newest k r₀ hr₀ hrowner
    · rcases hz'.point with hnil | ⟨p, hp, hpoint⟩
      · exact .inl hnil
      · obtain ⟨s, hp'⟩ := hnew hp
        exact .inr ⟨_, hp', hpoint⟩
    · obtain ⟨k, r, hr, hrowner, hrseeds, hplace⟩ := hz'.seeds hcheckpoint
      by_cases hk : k = d.id
      · -- the demoted checkpoint seeded `x` itself, which has the next one to move to
        obtain rfl := Option.some.inj (hd.symm.trans (hk ▸ hr))
        obtain rfl : z = x := by
          have hid := m.executions.keyed _ _ hz
          rw [← hid, ← hrowner, howner] at hz
          exact Option.some.inj (hz.symm.trans hx)
        exact ⟨c.id, c, hkept hne hc, hcowner, hseeds, .inr hnext⟩
      · exact ⟨k, r, hkept hk hr, hrowner, hrseeds, hplace⟩
  · obtain ⟨r₀, s, hr₀, rfl⟩ := hold hr
    exact h.bounded k r₀ hr₀

end Registrations

/-! ## Prefixes -/

section Lists

variable {p es : List JournalEntry}

/-- A prefix of two lists ends in the first or in the second. -/
theorem prefix_append_cases {α : Type} {p a b : List α} (h : p <+: a ++ b) :
    p <+: a ∨ ∃ q, q <+: b ∧ p = a ++ q := by
  rcases List.prefix_or_prefix_of_prefix h (List.prefix_append a b) with hshort | ⟨q, rfl⟩
  · exact .inl hshort
  · exact .inr ⟨q, (List.prefix_append_right_inj a).mp h, rfl⟩

theorem checkpoints_of_prefixed (h : checkpointsOf es = []) (hp : p <+: es) : checkpointsOf p = [] := by
  obtain ⟨q, rfl⟩ := hp
  rw [checkpointsOf_append] at h
  exact (List.append_eq_nil_iff.mp h).1

theorem effects_of_prefixed (h : effectsOf es = []) (hp : p <+: es) : effectsOf p = [] := by
  obtain ⟨q, rfl⟩ := hp
  rw [effectsOf_append] at h
  exact (List.append_eq_nil_iff.mp h).1

theorem executions_of_prefixed (hp : p <+: es) {y : ExecutionRecord} (hy : y ∈ executionsOf p) :
    y ∈ executionsOf es := by
  obtain ⟨q, rfl⟩ := hp
  rw [executionsOf_append]
  exact List.mem_append_left _ hy

/-- Records without effects leave the actions. -/
theorem actions_installAll_idle (m : Image) (h : effectsOf es = []) :
    (m.installAll es).actions = m.actions := by
  have hsame := (Image.effects_installAll m es).actions
  rw [h] at hsame
  exact hsame

end Lists

/-! ## Transactions -/

section Transactions

variable {ds : List Derivation} {j : Journaled} {i : Intent} {x y : ExecutionRecord}
  {es p vs : List JournalEntry} {m₀ : Image}

theorem frontier_promotes {a : ActionRecord} {g : CommitGroupRecord} (hg : Promotes x a g) :
    g.execution.actionFrontier = x.actionFrontier := by
  obtain ⟨epoch, hexecution⟩ := hg.execution
  rw [hexecution]
  rfl

theorem frontier_blockedBy (st : DurableState) (amb : AmbiguityRecord) (a : ActionRecord) :
    (blockedBy st x amb a).actionFrontier = x.actionFrontier := by
  unfold blockedBy
  dsimp only
  split <;> rfl

theorem frontier_recoveredFrom (next : ExecutionRecord) :
    (recoveredFrom j x next).actionFrontier = next.actionFrontier := by
  have hplanned : (atPlannedCheckpoint next (planOf j x)).actionFrontier = next.actionFrontier := by
    unfold atPlannedCheckpoint
    split <;> rfl
  exact hplanned

theorem frontier_continuedBy (c : ContinuationRecord) :
    (x.continuedBy c).actionFrontier = x.actionFrontier := rfl

theorem frontier_unblocked : x.unblocked.actionFrontier = x.actionFrontier := rfl

/-- Only an action that is begun moves the frontier. -/
theorem Succession.frontier (hs : Succession j i x y vs) (hbegin : ∀ e, i ≠ .begin e) :
    y.actionFrontier = x.actionFrontier := by
  cases hs with
  | begin request htoken hrunning hblocked => exact absurd rfl (hbegin _)
  | updatePolicy generation hgeneration =>
    unfold underPolicy ExecutionRecord.withoutLease
    dsimp only
    split
    · split <;> rfl
    · rfl
  | bind request hbindable hlive =>
    unfold boundExecution incarnated
    split <;> rfl
  | start token htoken hready => exact frontier_continuedBy (x := startedExecution j.state x) _
  | @complete _ l a request htoken hrunning ha hdefect =>
    exact frontier_promotes (commitGroupOf_promotes j.state x a request.request request.evidence)
  | @checkpoint _ l depth request htoken hlifecycle =>
    exact frontier_continuedBy (x := checkpointedExecution x _) _
  | resume request htoken hresumable hrecovery hvalid =>
    exact frontier_continuedBy
      (x := { resumingExecution j.state x request.observedBindings with lifecycle := .running }) _
  | recoverPlain hlive hopens hreceipt => exact frontier_recoveredFrom x
  | recoverAmbiguous hlive hopens ha =>
    exact (frontier_recoveredFrom _).trans (frontier_blockedBy _ _ _)
  | @recoverCommit _ a request hlive hreceipt ha =>
    exact (frontier_recoveredFrom _).trans
      (frontier_promotes (commitGroupOf_promotes j.state x a request a.receipt))
  | @resolveCommit _ amb a request hamb howner hopen ha hresolution =>
    exact frontier_unblocked.trans (frontier_promotes
      (commitGroupOf_promotes j.state x a request.request request.evidence))
  | transition target hlegal =>
    unfold transitioned ExecutionRecord.withoutLease
    dsimp only
    split <;> rfl
  | advance hlive =>
    unfold nextGeneration ExecutionRecord.withoutLease
    dsimp only
    split <;> rfl
  | lose hlive =>
    unfold fencedExecution ExecutionRecord.withoutLease
    dsimp only
    split <;> split <;> rfl
  | _ => rfl

/-- Whatever a transaction other than a registration writes of an execution is aligned. -/
theorem Version.aligned (hfree : CollisionFree ds) (hw : Working ds j) (h : j.state.image.Lineal)
    (hi : ∀ e, i ≠ .checkpoint e)
    (hfresh : i = .create → j.state.image.executions (createdExecution j.state).id = none)
    (hv : Version j i y) (hprogress : ∀ x, j.state.image.executions y.id = some x →
      x.progressGeneration ≤ y.progressGeneration) : y.Aligned j.state.image := by
  cases hv with
  | created hi' hy =>
    subst hy
    refine ⟨fun k c hc howner => ?_, .inl ⟨rfl, rfl⟩, fun hcheckpoint => absurd rfl hcheckpoint⟩
    obtain ⟨x, hx⟩ := h.owned k c hc
    rw [howner, hfresh hi'] at hx
    cases hx
  | @succeeded x vs hx hsuccession =>
    have hx' : j.state.image.executions x.id = some x := hx
    have hle := hprogress x (hsuccession.id ▸ hx')
    rcases hsuccession.repoints hi with hsame | ⟨hdecision, hcheckpoint, hgeneration⟩
    · exact (h.aligned _ x hx').same hsuccession.id hsame hle
    · obtain ⟨c, hc, howner, hseeds, hnext, hplanned⟩ := planOf_next hfree hw h hx' hdecision
      exact (h.aligned _ x hx').next hsuccession.id (hcheckpoint ▸ hc) howner hseeds hnext
        (hgeneration.trans hplanned) hle
  | @promoted x a g hx hg hepoch hy =>
    subst hy
    have hid : g.execution.id = x.id := by
      obtain ⟨epoch, hexecution⟩ := hg.execution
      rw [hexecution]
      rfl
    exact (h.aligned _ x hx).same hid (samePoint_promotes hg) (hprogress x (hid ▸ hx))

/-- An action is stored before the execution it is dispatched to. -/
theorem begin_reaches (m : Image) (a : ActionRecord) (replayed : Option ActionRecord)
    (replay : ActionRecord → ReplayRecord) (howner : a.execution = x.id)
    (hp : p <+: replayed.toList.map (fun b => .replay (replay b)) ++
      [.action a, .execution (dispatched x a replayed)]) :
    ∀ y ∈ executionsOf p, (m.installAll p).Reached y.id y.actionFrontier := by
  intro y hy
  obtain ⟨hexecutions, heffects⟩ := begin_effects x a replayed replay
  rw [List.append_cons] at hp
  rcases List.prefix_concat_iff.mp hp with rfl | hshort
  · rw [← List.append_cons] at hy ⊢
    rw [hexecutions] at hy
    rw [List.mem_singleton.mp hy]
    have hactions := (Image.effects_installAll m (replayed.toList.map (fun b =>
      JournalEntry.replay (replay b)) ++ [.action a, .execution (dispatched x a replayed)])).actions
    rw [heffects] at hactions
    refine .inr ⟨a.key, a, ?_, howner, Nat.le_refl _⟩
    rw [hactions]
    exact KeyedMap.insert_self _ _
  · have hmem := executions_of_prefixed hshort hy
    cases replayed <;> cases hmem

/-- The frontier of an execution is never ahead of its actions, wherever the records stop. -/
theorem Transaction.reaches (h : j.state.image.Lineal) (ht : Transaction j i es)
    (hkeeps : j.state.image.KeepsActions (j.state.image.installAll p)) (hp : p <+: es) :
    ∀ y ∈ executionsOf p, (j.state.image.installAll p).Reached y.id y.actionFrontier := by
  by_cases hbegin : ∃ e, i = .begin e
  · obtain ⟨e, rfl⟩ := hbegin
    cases ht with
    | begin request htoken hrunning hblocked => exact begin_reaches _ _ _ _ rfl hp
  intro y hy
  have hstored : ∀ x, j.state.image.executions x.id = some x → y.id = x.id →
      y.actionFrontier = x.actionFrontier →
      (j.state.image.installAll p).Reached y.id y.actionFrontier := by
    intro x hx hid hfrontier
    rw [hid, hfrontier]
    exact (h.reached _ x hx).keeps hkeeps
  cases ht.versions y (executions_of_prefixed hp hy) with
  | created hi hcreated =>
    subst hcreated
    exact .inl rfl
  | @succeeded x vs hx hsuccession =>
    exact hstored x hx hsuccession.id (hsuccession.frontier fun e he => hbegin ⟨e, he⟩)
  | @promoted x a g hx hg hepoch hpromoted =>
    subst hpromoted
    refine hstored x hx ?_ (frontier_promotes hg)
    obtain ⟨epoch, hexecution⟩ := hg.execution
    rw [hexecution]
    rfl

theorem Image.Reached.agrees {m m' : Image} {e : ExecutionId} {n : Nat} (h : m.Reached e n)
    (hactions : m'.actions = m.actions) : m'.Reached e n :=
  h.keeps (.of_eq hactions)

/-- A transaction that registers no checkpoint keeps the lineage of what memory agrees with, at each
of its records. -/
theorem Transaction.lineal_of_idle (hfree : CollisionFree ds) (hw : Working ds j)
    (h : j.state.image.Lineal) (ht : Transaction j i es) (hes : j.state.image.LawfulAll ds es)
    (hi : ∀ e, i ≠ .checkpoint e)
    (hfresh : i = .create → j.state.image.executions (createdExecution j.state).id = none)
    (ha : m₀.Agrees j.state.image) (h₀ : m₀.Lineal) (hp : p <+: es) : (m₀.installAll p).Lineal := by
  have hkeeps := hes.keepsActions hfree hw.coherent hp
  have hsame := (ha.installAll p).actions
  refine h₀.revised (checkpoints_of_prefixed (ht.checkpoints_none hi) hp) ?_ fun y hy => ⟨?_, ?_⟩
  · intro k a hk
    rw [← hsame]
    exact hkeeps k a (ha.actions ▸ hk)
  · have hmem := executions_of_prefixed hp hy
    exact ((ht.versions y hmem).aligned hfree hw h hi hfresh
      fun x hx => hes.progress hmem hx).congr ha.checkpoints.symm
  · exact (ht.reaches h hkeeps hp y hy).agrees hsame.symm

theorem enterCheckpointing_lineal (h : j.state.image.Lineal)
    (hx : j.state.image.executions x.id = some x) (ha : m₀.Agrees j.state.image) (h₀ : m₀.Lineal)
    (hp : p <+: enterCheckpointing x) : (m₀.installAll p).Lineal := by
  have hactions := actions_installAll_idle m₀ (effects_of_prefixed (effectsOf_enterCheckpointing x) hp)
  refine h₀.revised (checkpoints_of_prefixed (checkpoints_enterCheckpointing x) hp) (.of_eq hactions)
    fun y hy => ?_
  have hmem := executions_of_prefixed hp hy
  have hy : y = { x with lifecycle := .checkpointing } := by
    unfold enterCheckpointing at hmem
    split at hmem
    · exact List.mem_singleton.mp hmem
    · cases hmem
  subst hy
  have haligned : ExecutionRecord.Aligned { x with lifecycle := .checkpointing } j.state.image :=
    (h.aligned _ x hx).same rfl ⟨rfl, rfl⟩ (Nat.le_refl _)
  exact ⟨haligned.congr ha.checkpoints.symm,
    (h.reached _ x hx).agrees (hactions.trans ha.actions.symm)⟩

/-- The execution entering CHECKPOINTING, in what memory agrees with. -/
theorem entered_stored (hx : j.state.image.executions x.id = some x)
    (ha : m₀.Agrees j.state.image) :
    ∃ z, (m₀.installAll (enterCheckpointing x)).executions z.id = some z ∧ z.id = x.id ∧
      x.SamePoint z ∧ z.progressGeneration = x.progressGeneration := by
  have hentered : ∃ y, (j.state.image.installAll (enterCheckpointing x)).executions x.id = some y ∧
      y.id = x.id ∧ x.SamePoint y ∧ y.progressGeneration = x.progressGeneration := by
    unfold enterCheckpointing
    split
    · exact ⟨{ x with lifecycle := .checkpointing }, KeyedMap.insert_self _ _, rfl, ⟨rfl, rfl⟩, rfl⟩
    · exact ⟨x, hx, rfl, .refl x, rfl⟩
  obtain ⟨y, hy, hid, hpoint, hprogress⟩ := hentered
  obtain ⟨z, frontier, generation, hz, rfl⟩ := (ha.installAll _).execution hy
  have hkey : z.id = x.id := hid
  exact ⟨z, hkey ▸ hz, hkey, ⟨hpoint.checkpoint, hpoint.checkpointGeneration⟩, hprogress⟩

theorem lineageDepth_ok {st : DurableState} {depth : Nat} (h : lineageDepth st x = .ok depth) :
    (x.checkpoint = .nil → depth = 0) ∧ (x.checkpoint ≠ .nil → ∀ p,
      st.checkpoints.find x.checkpoint = some p → depth = p.lineageDepth + 1) := by
  unfold lineageDepth at h
  split at h
  next hvalid =>
    refine ⟨fun hnil => absurd hnil ((Id.valid_iff _).mp hvalid), fun _ p hp => ?_⟩
    rw [hp] at h
    dsimp only at h
    split at h
    · cases h
    · cases h
      rfl
  next hnil =>
    cases h
    exact ⟨fun _ => rfl, fun hne => absurd ((Id.valid_iff _).mpr hne) hnil⟩

/-- The registered checkpoint comes after the current one, in what memory agrees with. -/
theorem registered_follows (hfree : CollisionFree ds) (hc : j.state.image.Coherent ds)
    (h : j.state.image.Lineal) {depth : Nat} (request : RegisterCheckpointRequest)
    (hx : j.state.image.executions x.id = some x) (hdepth : lineageDepth j.state x = .ok depth)
    {m : Image} (hcheckpoints : m.checkpoints = j.state.image.checkpoints)
    (hactions : m.actions = j.state.image.actions) {z : ExecutionRecord}
    (hz : m.executions z.id = some z) (hid : z.id = x.id) (hpoint : x.SamePoint z)
    (hprogress : z.progressGeneration = x.progressGeneration) :
    m.Follows z (registeredCheckpoint j.state x request depth) where
  stored := hz
  owner := hid.symm
  generation := congrArg (· + 1) hpoint.checkpointGeneration.symm
  parent := hpoint.checkpoint.symm
  root := fun hnil => (lineageDepth_ok hdepth).1 (hpoint.checkpoint.symm.trans hnil)
  depth := by
    intro p hp
    rw [hcheckpoints, hpoint.checkpoint] at hp
    refine (lineageDepth_ok hdepth).2 (fun hnil => ?_) p hp
    have hnamed := hc.known.checkpoints _ p hp
    rw [j.state.image.checkpoints.keyed _ _ hp] at hnamed
    exact hnamed.valid hfree hnil
  progress := hprogress.symm
  seeds := rfl
  reached := by
    rw [hid]
    refine ((h.reached _ x hx).mono ?_).agrees hactions
    unfold registeredCheckpoint
    dsimp only
    split
    · exact Nat.le_refl _
    · next hle => exact Nat.le_of_not_lt hle

/-- The demotion of the previous checkpoint keeps the lineage. -/
theorem demotion_lineal (hfree : CollisionFree ds) (hc : j.state.image.Coherent ds)
    {c d : CheckpointRecord} {z : ExecutionRecord} {m m' : Image}
    (hsame : m.checkpoints = j.state.image.checkpoints) (h : m.Lineal) (hf : m.Follows z c)
    (hpoint : x.SamePoint z) (hne : z.checkpoint ≠ c.id) (hm' : m' = m.install (.checkpoint c))
    (h' : m'.Lineal) (hd : demotedCheckpoint (j.write (newCheckpointRecords x c)).state x = some d) :
    (m'.install (.checkpoint d)).Lineal := by
  obtain ⟨previous, state, hprevious, rfl⟩ := demotedCheckpoint_some hd
  have hread : (j.write (newCheckpointRecords x c)).state.image.checkpoints x.checkpoint =
      some previous := hprevious
  rw [checkpoints_newCheckpointRecords, ← hpoint.checkpoint] at hread
  have hold : m.checkpoints z.checkpoint = some previous := by
    rw [hsame]
    exact (KeyedMap.insert_of_ne _ hne).symm.trans hread
  have hkey : previous.id = z.checkpoint := m.checkpoints.keyed _ _ hold
  have howner : previous.execution = z.id := by
    rcases (h.aligned _ z hf.stored).point with ⟨hnil, -⟩ | ⟨p, hp, hpowner, -⟩
    · have hnamed := hc.known.checkpoints _ previous (hsame ▸ hold)
      rw [hkey] at hnamed
      exact absurd hnil (hnamed.valid hfree)
    · rw [Option.some.inj (hold.symm.trans hp)]
      exact hpowner
  subst hm'
  have hnew : (m.checkpoints.insert c) c.id = some c := KeyedMap.insert_self _ _
  refine h'.demotes state ?_ hf.stored howner hnew (fun heq => hne (heq.trans hkey).symm) hf.owner
    hf.seeds hf.generation
  rw [hkey]
  exact (KeyedMap.insert_of_ne _ hne).trans hold

/-- After the demotion the new checkpoint is still there. -/
theorem demotions_lineal (hfree : CollisionFree ds) (hc : j.state.image.Coherent ds)
    {c : CheckpointRecord} {z : ExecutionRecord} {m m' : Image}
    (hsame : m.checkpoints = j.state.image.checkpoints) (h : m.Lineal) (hf : m.Follows z c)
    (hpoint : x.SamePoint z) (hne : z.checkpoint ≠ c.id) (hm' : m' = m.install (.checkpoint c))
    (h' : m'.Lineal) (hp : p <+:
      (demotedCheckpoint (j.write (newCheckpointRecords x c)).state x).toList.map .checkpoint) :
    (m'.installAll p).Lineal ∧ (m'.installAll p).executions = m.executions ∧
      (m'.installAll p).actions = m.actions ∧ (m'.installAll p).checkpoints c.id = some c := by
  have hnew : m'.checkpoints c.id = some c := hm' ▸ KeyedMap.insert_self _ _
  have hnone : m'.executions = m.executions ∧ m'.actions = m.actions := hm' ▸ ⟨rfl, rfl⟩
  cases hdemoted : demotedCheckpoint (j.write (newCheckpointRecords x c)).state x with
  | none =>
    rw [hdemoted] at hp
    rw [List.prefix_nil.mp hp]
    exact ⟨h', hnone.1, hnone.2, hnew⟩
  | some d =>
    rw [hdemoted] at hp
    rcases List.prefix_concat_iff.mp (show p <+: [] ++ [.checkpoint d] from hp) with rfl | hshort
    · obtain ⟨previous, state, hprevious, hsame'⟩ := demotedCheckpoint_some hdemoted
      have hkey : d.id = x.checkpoint := by
        have hold := Table.find_key hprevious
        rw [hsame']
        exact hold
      refine ⟨demotion_lineal hfree hc hsame h hf hpoint hne hm' h' hdemoted, hnone.1, hnone.2, ?_⟩
      refine (KeyedMap.insert_of_ne _ fun heq => hne ?_).trans hnew
      rw [hpoint.checkpoint, ← hkey]
      exact heq.symm
    · rw [List.prefix_nil.mp hshort]
      exact ⟨h', hnone.1, hnone.2, hnew⟩

/-- The continuation and the execution that follow a checkpoint keep the lineage. -/
theorem continuation_lineal {c : CheckpointRecord} {z : ExecutionRecord} {m : Image} (h : m.Lineal)
    (hz : m.executions z.id = some z) (hpoint : x.SamePoint z) (hid : z.id = x.id)
    (hprogress : z.progressGeneration = x.progressGeneration) (hc : m.checkpoints c.id = some c)
    (howner : c.execution = x.id) (hseeds : checkpointCanSeedContinuation c.state = true)
    (hnext : c.generation = x.checkpointGeneration + 1) (hreached : m.Reached x.id x.actionFrontier)
    (st : DurableState) (k : ContinuationRecord)
    (hp : p <+: continuationRecords st (checkpointedExecution x c) k) :
    (m.installAll p).Lineal := by
  have hidle := effects_of_prefixed (effectsOf_continuationRecords st (checkpointedExecution x c) k) hp
  have hactions := actions_installAll_idle m hidle
  refine h.revised (checkpoints_of_prefixed (checkpoints_continuationRecords st _ k) hp)
    (.of_eq hactions) fun y hy => ?_
  have hmem := executions_of_prefixed hp hy
  rw [executions_continuationRecords, List.mem_singleton] at hmem
  subst hmem
  refine ⟨(h.aligned _ z hz).next ?_ hc (howner.trans hid.symm) hseeds ?_ rfl ?_,
    hreached.agrees hactions⟩
  · exact hid.symm
  · rw [hpoint.checkpointGeneration]
    exact hnext
  · exact Nat.le_of_eq hprogress

/-- The records of a registration keep the lineage of what memory agrees with. -/
theorem checkpointRecords_lineal (hfree : CollisionFree ds) (hc : j.state.image.Coherent ds)
    (h : j.state.image.Lineal) {depth : Nat} (request : RegisterCheckpointRequest)
    (hx : j.state.image.executions x.id = some x) (hdepth : lineageDepth j.state x = .ok depth)
    (hlawful : j.state.image.LawfulAll ds
      (checkpointRecords j x (registeredCheckpoint j.state x request depth)))
    (ha : m₀.Agrees j.state.image) (h₀ : m₀.Lineal)
    (hp : p <+: checkpointRecords j x (registeredCheckpoint j.state x request depth)) :
    (m₀.installAll p).Lineal := by
  obtain ⟨z, hz, hid, hpoint, hprogress⟩ := entered_stored hx ha
  have hsame : (m₀.installAll (enterCheckpointing x)).checkpoints = j.state.image.checkpoints := by
    rw [Image.checkpoints_installAll, checkpoints_enterCheckpointing]
    exact ha.checkpoints.symm
  have hactions : (m₀.installAll (enterCheckpointing x)).actions = j.state.image.actions :=
    (actions_installAll_idle m₀ (effectsOf_enterCheckpointing x)).trans ha.actions.symm
  have hfollows := registered_follows hfree hc h request hx hdepth hsame hactions hz hid hpoint
    hprogress
  have hentered := enterCheckpointing_lineal h hx ha h₀ List.prefix_rfl
  have howner : (registeredCheckpoint j.state x request depth).execution = x.id := rfl
  have hgeneration : (registeredCheckpoint j.state x request depth).generation =
      x.checkpointGeneration + 1 := rfl
  generalize registeredCheckpoint j.state x request depth = c at *
  obtain ⟨state, hstored⟩ := checkpointRecords_stored j x c
  have hnamed : Named ds (.checkpoint c.execution c.generation) c.id := by
    have hcoherent := hc.installAll hfree hlawful List.prefix_rfl
    rw [← Journaled.image_write] at hcoherent
    have hnamed := hcoherent.known.checkpoints c.id _ hstored
    exact hnamed
  have hknown : ∀ k d, (m₀.installAll (enterCheckpointing x)).checkpoints k = some d →
      Named ds (.checkpoint d.execution d.generation) d.id := fun k d hd =>
    hc.known.checkpoints k d (hsame ▸ hd)
  have hover : ∀ d, (m₀.installAll (enterCheckpointing x)).checkpoints c.id = some d →
      d.execution = z.id ∧ d.generation = c.generation := by
    intro d hd
    have hold := hknown _ d hd
    rw [(m₀.installAll (enterCheckpointing x)).checkpoints.keyed _ _ hd] at hold
    injection hold.unique hnamed hfree with hexecution hsame
    exact ⟨hexecution.trans hfollows.owner, hsame⟩
  have hne := hentered.current_ne hfree hnamed hfollows hover
  have hregistered := hentered.registers hfree hknown hnamed hfollows
  have hreached := (h.reached _ x hx).agrees hactions
  have hnew : ((m₀.installAll (enterCheckpointing x)).install (.checkpoint c)).checkpoints c.id =
      some c := KeyedMap.insert_self _ _
  have hdemotions := fun q (hq : q <+:
      (demotedCheckpoint (j.write (newCheckpointRecords x c)).state x).toList.map
        JournalEntry.checkpoint) =>
    demotions_lineal hfree hc hsame hentered hfollows hpoint hne rfl hregistered hq
  -- the records come in four parts
  unfold checkpointRecords at hp
  generalize mintContinuation _ _ _ _ _ = k at hp
  generalize (j.write (demotionRecords j x c)).state = st at hp
  unfold demotionRecords at hp
  rcases prefix_append_cases hp with hp | ⟨q, hq, rfl⟩
  · rcases prefix_append_cases hp with hp | ⟨q, hq, rfl⟩
    · rcases List.prefix_concat_iff.mp (show p <+: enterCheckpointing x ++ [.checkpoint c] from hp)
        with rfl | hshort
      · rw [Image.installAll_append]
        exact hregistered
      · exact enterCheckpointing_lineal h hx ha h₀ hshort
    · unfold newCheckpointRecords
      rw [Image.installAll_append, Image.installAll_append]
      exact (hdemotions q hq).1
  · obtain ⟨hdemoted, hexecutions, hactions', hnew⟩ := hdemotions _ List.prefix_rfl
    unfold newCheckpointRecords at hdemoted hexecutions hactions' hnew ⊢
    rw [Image.installAll_append, Image.installAll_append, Image.installAll_append]
    refine continuation_lineal hdemoted ?_ hpoint hid hprogress hnew howner hfollows.seeds
      hgeneration (hreached.agrees hactions') st k hq
    exact (congrArg (· z.id) hexecutions).trans hz

end Transactions

/-! ## Restarts -/

section Restarts

variable {ds : List Derivation} {j : Journaled} {x : ExecutionRecord} {p : List JournalEntry}
  {m₀ : Image}

theorem restarted_keeps (st : DurableState) (epoch : Nat) :
    (restarted st epoch x).id = x.id ∧ x.SamePoint (restarted st epoch x) ∧
      (restarted st epoch x).progressGeneration = x.progressGeneration ∧
      (restarted st epoch x).actionFrontier = x.actionFrontier := by
  have hstale : (withoutStaleLease st epoch x).id = x.id ∧
      x.SamePoint (withoutStaleLease st epoch x) ∧
      (withoutStaleLease st epoch x).progressGeneration = x.progressGeneration ∧
      (withoutStaleLease st epoch x).actionFrontier = x.actionFrontier := by
    unfold withoutStaleLease ExecutionRecord.withoutLease
    split
    · split
      · split <;> exact ⟨rfl, ⟨rfl, rfl⟩, rfl, rfl⟩
      · exact ⟨rfl, ⟨rfl, rfl⟩, rfl, rfl⟩
    · exact ⟨rfl, ⟨rfl, rfl⟩, rfl, rfl⟩
  obtain ⟨hid, hpoint, hprogress, hfrontier⟩ := hstale
  unfold restarted
  dsimp only
  split
  · exact ⟨hid, ⟨hpoint.checkpoint, hpoint.checkpointGeneration⟩, hprogress, hfrontier⟩
  · exact ⟨hid, hpoint, hprogress, hfrontier⟩

theorem of_restart {e : JournalEntry} (h : Restarts j e) :
    e.checkpoints = [] ∧ e.isEffect = false ∧ ∀ y ∈ e.executions, ∃ x st epoch,
      j.state.image.executions x.id = some x ∧ y = restarted st epoch x := by
  cases h with
  | execution st epoch hx =>
    exact ⟨rfl, rfl, fun y hy => ⟨_, st, epoch, hx, List.mem_singleton.mp hy⟩⟩
  | _ => exact ⟨rfl, rfl, fun y hy => by cases hy⟩

/-- The records of a restart keep the lineage of what memory agrees with. -/
theorem restartRecords_lineal (h : j.state.image.Lineal) (ha : m₀.Agrees j.state.image)
    (h₀ : m₀.Lineal) (hp : p <+: restartRecords j) : (m₀.installAll p).Lineal := by
  have hfacts : ∀ e ∈ p, e.checkpoints = [] ∧ e.isEffect = false ∧ ∀ y ∈ e.executions,
      ∃ x st epoch, j.state.image.executions x.id = some x ∧ y = restarted st epoch x :=
    fun e he => of_restart (restartRecords_origins j e (hp.subset he))
  have hactions := actions_installAll_idle m₀ (effectsOf_of_idle p fun e he => (hfacts e he).2.1)
  refine h₀.revised (List.flatMap_eq_nil_iff.mpr fun e he => (hfacts e he).1) (.of_eq hactions)
    fun y hy => ?_
  obtain ⟨e, he, hy⟩ := List.mem_flatMap.mp hy
  obtain ⟨x, st, epoch, hx, rfl⟩ := (hfacts e he).2.2 y hy
  obtain ⟨hid, hpoint, hprogress, hfrontier⟩ := restarted_keeps (x := x) st epoch
  have haligned := (h.aligned _ x hx).same hid hpoint (Nat.le_of_eq hprogress.symm)
  refine ⟨haligned.congr ha.checkpoints.symm, ?_⟩
  rw [hid, hfrontier]
  exact (h.reached _ x hx).agrees (hactions.trans ha.actions.symm)

end Restarts

/-! ## Every run -/

/-- At every record boundary of the journal the lineage is unbroken. -/
def lineage : Discipline where
  durable := Image.Lineal
  rest := fun _ => True
  reopening := fun _ j => j.state.image.Lineal
  working := fun j => j.state.image.Lineal
  parked := fun _ => True
  admits := anyEvent

/-- A transaction keeps the lineage of what memory agrees with, at each of its records. -/
theorem Transaction.lineal {ds : List Derivation} {j : Journaled} {i : Intent}
    {es p : List JournalEntry} {m₀ : Image} (hfree : CollisionFree ds) (hw : Working ds j)
    (h : j.state.image.Lineal) (ht : Transaction j i es) (hmint : Minted ds j.state.store es)
    (ha : m₀.Agrees j.state.image) (h₀ : m₀.Lineal) (hp : p <+: es) : (m₀.installAll p).Lineal := by
  have hes := ht.lawful hfree hw.coherent hw.indexed hmint
  by_cases hcheckpoint : ∃ e, i = .checkpoint e
  · obtain ⟨e, rfl⟩ := hcheckpoint
    cases ht with
    | enterCheckpoint request htoken hlifecycle =>
      exact enterCheckpointing_lineal h (token_execution htoken) ha h₀ hp
    | checkpoint request htoken hlifecycle hdepth =>
      exact checkpointRecords_lineal hfree hw.coherent h request (token_execution htoken) hdepth hes
        ha h₀ hp
  · refine ht.lineal_of_idle hfree hw h hes (fun e he => hcheckpoint ⟨e, he⟩) ?_ ha h₀ hp
    rintro rfl
    have hknown := (hw.coherent.installAll hfree hes List.prefix_rfl).known
    cases ht with
    | create policy hid =>
      exact createdExecution_fresh hfree hw.coherent hknown rfl (KeyedMap.insert_self _ _)

theorem lineage_upheld {ds : List Derivation} (hfree : CollisionFree ds) : lineage.Upheld ds := by
  have hstep : ∀ {j : Journaled} {i : Intent} {es : List JournalEntry}, Working ds j →
      j.state.image.Lineal → Transaction j i es → Minted ds j.state.store es →
      (j.write es).state.image.Lineal ∧ lineage.Lasting j.state.image es := by
    intro j i es hw h ht hmint
    refine ⟨?_, fun m₀ ha h₀ p hp => ht.lineal hfree hw h hmint ha h₀ hp⟩
    rw [Journaled.image_write]
    exact ht.lineal hfree hw h hmint (.refl _) h List.prefix_rfl
  exact
    { vacant := fun _ _ hvacant => ⟨hvacant.lineal, trivial⟩
      rest_agrees := fun _ _ => trivial
      settles := fun _ h => ⟨h, trivial, trivial⟩
      transaction := fun _ _ _ hw h ht hmint => hstep hw h ht hmint
      lose := fun hw h ht hmint => hstep hw h ht hmint
      restart := by
        intro s config entropy m j _ _ _ hw hagrees _ hdurable hreaches
        have hloaded := Image.Lineal.loaded hdurable hagrees hreaches
        refine ⟨?_, fun m₀ ha h₀ p hp => restartRecords_lineal hloaded ha h₀ hp⟩
        show (j.write (restartRecords j)).state.image.Lineal
        rw [Journaled.image_write]
        exact restartRecords_lineal hloaded (.refl _) hloaded List.prefix_rfl
      skip := fun h => h
      recover := fun hw h ht hmint => hstep hw h ht hmint
      reopened := fun _ h => h
      crash := fun _ _ _ _ _ => trivial }

/-- Memory is lineal whenever the runtime is open in a collision-free run. -/
theorem lineal_of_runs {events : List Event} {s : Runtime} (hrun : Runs anyEvent {} events s)
    (hfree : CollisionFree s.minted) (hopen : s.isOpen = true) : s.state.image.Lineal := by
  have hkept := (lineage_upheld hfree).keeps (fun _ _ h => h) hfree hrun kept_start
    (List.Subset.refl _)
  obtain ⟨d, -, -, hw⟩ := hkept.running hopen
  exact hw

/-- The checkpoints of each execution form one chain, numbered from 1 without gaps. -/
structure CheckpointLineage (st : DurableState) : Prop where
  positive : ∀ k c, st.checkpoints.find k = some c → 1 ≤ c.generation
  first : ∀ k c, st.checkpoints.find k = some c → c.generation = 1 →
    c.parent = .nil ∧ c.lineageDepth = 0
  linked : ∀ k c, st.checkpoints.find k = some c → 1 < c.generation →
    ∃ p, st.checkpoints.find c.parent = some p ∧ p.execution = c.execution ∧
      p.generation + 1 = c.generation ∧ c.lineageDepth = p.lineageDepth + 1 ∧
      p.progressGeneration ≤ c.progressGeneration
  complete : ∀ k c, st.checkpoints.find k = some c → ∀ g, 1 ≤ g → g ≤ c.generation →
    ∃ k' c', st.checkpoints.find k' = some c' ∧ c'.execution = c.execution ∧ c'.generation = g ∧
      c'.lineageDepth + 1 = g
  unique : ∀ k k' c c', st.checkpoints.find k = some c → st.checkpoints.find k' = some c' →
    c.execution = c'.execution → c.generation = c'.generation → c = c'
  newest : ∀ e x k c, st.executions.find e = some x → st.checkpoints.find k = some c →
    c.execution = e → c.generation ≤ x.checkpointGeneration + 1

section Chains

variable {m : Image}

/-- The depth of a checkpoint counts the checkpoints before it. -/
theorem Image.Lineal.depth (h : m.Lineal) (n : Nat) {k : CheckpointId} {c : CheckpointRecord}
    (hc : m.checkpoints k = some c) (hn : c.generation = n + 1) : c.lineageDepth = n := by
  induction n generalizing k c with
  | zero => exact (h.first k c hc hn).2
  | succ n ih =>
    obtain ⟨p, hp, -, hnext, hdepth, -⟩ := h.linked k c hc (by omega)
    have := ih hp (by omega)
    omega

theorem Image.Lineal.complete (h : m.Lineal) (n : Nat) {k : CheckpointId} {c : CheckpointRecord}
    (hc : m.checkpoints k = some c) (hn : c.generation = n) {g : Nat} (hpos : 1 ≤ g) (hg : g ≤ n) :
    ∃ k' c', m.checkpoints k' = some c' ∧ c'.execution = c.execution ∧ c'.generation = g := by
  induction n generalizing k c with
  | zero => omega
  | succ n ih =>
    rcases Nat.lt_or_ge n g with hlast | hearlier
    · exact ⟨k, c, hc, rfl, by omega⟩
    · obtain ⟨p, hp, howner, hnext, -⟩ := h.linked k c hc (by omega)
      obtain ⟨k', c', hc', howner', hgeneration⟩ := ih hp (by omega) hearlier
      exact ⟨k', c', hc', howner'.trans howner, hgeneration⟩

end Chains

/-- Two checkpoints of one execution; the second registration is cut off after it demoted the
first. -/
def interruptedCheckpoint : List Event :=
  [openAs 1, createOne] ++ workOn (deriveExecutionId ⟨1⟩ 1) 0 ++
    [.call (.registerCheckpoint
        { token := firstToken (deriveExecutionId ⟨1⟩ 1) ⟨2⟩ ⟨7⟩, contentHash := 5 }),
      .call (.registerCheckpoint
        { token := firstToken (deriveExecutionId ⟨1⟩ 1) ⟨2⟩ ⟨7⟩
          expectedCheckpoint := deriveCheckpointId (deriveExecutionId ⟨1⟩ 1) 1
          expectedCheckpointGeneration := 1
          contentHash := 6 }),
      .crash 16, openAs 1]

end ExecutionFabric
