import ExecutionFabric.Audit.Origins
import ExecutionFabric.Audit.Lineage
import ExecutionFabric.Audit.RecordLaws
import ExecutionFabric.Audit.Redriving

/-!
# What records rely on

A record refers to its execution, and often to more: an action to its commit, a replay
to its actions, a continuation to its checkpoint. It also repeats generations of the
execution, which the execution may leave behind but never takes back. At every record
boundary of the journal all of it is there.
-/
namespace ExecutionFabric

open Lib

/-! ## Marks -/

/-- The execution was started or given up; it never returns to CREATED or READY. -/
def isDeparted (l : Lifecycle) : Bool := l ≠ .created && l ≠ .ready

/-- What an execution never takes back. -/
structure Marks where
  generation : Nat := 0
  policyGeneration : Nat := 0
  progressGeneration : Nat := 0
  departed : Bool := false

def ExecutionRecord.marks (x : ExecutionRecord) : Marks where
  generation := x.generation
  policyGeneration := x.policyGeneration
  progressGeneration := x.progressGeneration
  departed := isDeparted x.lifecycle

structure Marks.Le (a b : Marks) : Prop where
  generation : a.generation ≤ b.generation
  policyGeneration : a.policyGeneration ≤ b.policyGeneration
  progressGeneration : a.progressGeneration ≤ b.progressGeneration
  departed : a.departed = true → b.departed = true

theorem Marks.Le.refl (a : Marks) : a.Le a :=
  ⟨Nat.le_refl _, Nat.le_refl _, Nat.le_refl _, id⟩

theorem Marks.Le.trans {a b c : Marks} (h : a.Le b) (h' : b.Le c) : a.Le c :=
  ⟨Nat.le_trans h.generation h'.generation, Nat.le_trans h.policyGeneration h'.policyGeneration,
    Nat.le_trans h.progressGeneration h'.progressGeneration, fun hd => h'.departed (h.departed hd)⟩

section Fields

variable {j : Journaled} {x y next : ExecutionRecord}

/-- A version with the same counters in a lifecycle at least as far. -/
theorem Marks.Le.of_same (hgeneration : y.generation = x.generation)
    (hpolicy : y.policyGeneration = x.policyGeneration)
    (hprogress : y.progressGeneration = x.progressGeneration)
    (hdeparted : isDeparted x.lifecycle = true → isDeparted y.lifecycle = true) :
    x.marks.Le y.marks :=
  ⟨Nat.le_of_eq hgeneration.symm, Nat.le_of_eq hpolicy.symm, Nat.le_of_eq hprogress.symm, hdeparted⟩

theorem marks_promotes {a : ActionRecord} {g : CommitGroupRecord} (hg : Promotes x a g) :
    x.marks.Le g.execution.marks := by
  obtain ⟨epoch, hexecution⟩ := hg.execution
  rw [hexecution]
  exact ⟨Nat.le_refl _, Nat.le_refl _, Nat.le_succ _, id⟩

theorem marks_underPolicy : x.marks.Le (underPolicy x (x.policyGeneration + 1)).marks := by
  unfold underPolicy ExecutionRecord.withoutLease
  dsimp only
  split
  · split
    · exact ⟨Nat.le_refl _, Nat.le_succ _, Nat.le_refl _, fun _ => rfl⟩
    · exact ⟨Nat.le_refl _, Nat.le_succ _, Nat.le_refl _, id⟩
  · exact ⟨Nat.le_refl _, Nat.le_succ _, Nat.le_refl _, id⟩

theorem isDeparted_boundLifecycle {l : Lifecycle} (h : isDeparted l = true) :
    isDeparted (boundLifecycle l) = true := by
  revert h
  cases l <;> decide

theorem marks_boundExecution (st : DurableState) (request : BindWorkerRequest) :
    x.marks.Le (boundExecution st x request).marks := by
  have hstamp := sameStamp_incarnated (x := x) request.boot
  refine Marks.Le.of_same hstamp.generation hstamp.policyGeneration ?_ isDeparted_boundLifecycle
  unfold boundExecution incarnated
  split <;> rfl

theorem marks_blockedBy (st : DurableState) (amb : AmbiguityRecord) (a : ActionRecord) :
    x.marks.Le (blockedBy st x amb a).marks := by
  unfold blockedBy
  dsimp only
  split <;> exact .refl _

/-- A recovery moves the lifecycle forward only. -/
theorem marks_recoveredFrom (h : x.marks.Le next.marks) :
    x.marks.Le (recoveredFrom j x next).marks := by
  have hplanned : next.marks.Le (atPlannedCheckpoint next (planOf j x)).marks := by
    unfold atPlannedCheckpoint
    split <;> exact .refl _
  refine (h.trans hplanned).trans ?_
  unfold recoveredFrom recoveredExecution
  refine Marks.Le.of_same rfl rfl rfl fun hdeparted => ?_
  dsimp only
  split
  · rfl
  · exact hdeparted

theorem marks_transitioned (st : DurableState) {target : Lifecycle}
    (htarget : isDeparted target = true) : x.marks.Le (transitioned st x target).marks := by
  unfold transitioned ExecutionRecord.withoutLease
  dsimp only
  split <;> exact ⟨Nat.le_refl _, Nat.le_refl _, Nat.le_refl _, fun _ => htarget⟩

theorem marks_nextGeneration (epoch : Nat) :
    x.marks.Le ({ nextGeneration x with epoch := epoch } : ExecutionRecord).marks := by
  unfold nextGeneration ExecutionRecord.withoutLease
  dsimp only
  split <;> split <;>
    first
    | exact ⟨Nat.le_succ _, Nat.le_refl _, Nat.le_refl _, fun _ => rfl⟩
    | exact ⟨Nat.le_succ _, Nat.le_refl _, Nat.le_refl _, id⟩

theorem marks_fencedExecution : x.marks.Le (fencedExecution x).marks := by
  unfold fencedExecution ExecutionRecord.withoutLease
  dsimp only
  split <;> split <;>
    first
    | exact ⟨Nat.le_refl _, Nat.le_refl _, Nat.le_refl _, fun _ => rfl⟩
    | exact .refl _

theorem isDeparted_public {e : ExecutionId} {target : Lifecycle}
    (h : (Intent.transition e target).Public) : isDeparted target = true := by
  rcases h with hdrops | rfl | rfl
  · revert hdrops
    cases target <;> decide
  · rfl
  · rfl

theorem marks_continuedBy (c : ContinuationRecord) : x.marks.Le (x.continuedBy c).marks := .refl _

theorem marks_unblocked : x.marks.Le x.unblocked.marks := .refl _

/-- No operation takes back what an execution has reached. -/
theorem Succession.marks {i : Intent} {vs : List JournalEntry} (hs : Succession j i x y vs)
    (hpublic : i.Public) : x.marks.Le y.marks := by
  cases hs with
  | updatePolicy generation hgeneration =>
    rw [hgeneration]
    exact marks_underPolicy
  | bind request hbindable hlive => exact marks_boundExecution _ _
  | start token htoken hready =>
    have hstarted : x.marks.Le (startedExecution j.state x).marks :=
      Marks.Le.of_same rfl rfl rfl fun _ => rfl
    exact hstarted.trans (marks_continuedBy _)
  | @complete _ l a request htoken hrunning ha hdefect =>
    exact marks_promotes (commitGroupOf_promotes j.state x a request.request request.evidence)
  | enterCheckpoint token htoken hlifecycle => exact Marks.Le.of_same rfl rfl rfl fun _ => rfl
  | @checkpoint _ l depth request htoken hlifecycle =>
    have hrunning : ∀ c, x.marks.Le (checkpointedExecution x c).marks :=
      fun _ => Marks.Le.of_same rfl rfl rfl fun _ => rfl
    exact (hrunning _).trans (marks_continuedBy _)
  | enterResume request htoken hresumable hrecovery =>
    exact Marks.Le.of_same rfl rfl rfl fun _ => rfl
  | resume request htoken hresumable hrecovery hvalid =>
    have hrunning : x.marks.Le ({ resumingExecution j.state x request.observedBindings with
        lifecycle := .running } : ExecutionRecord).marks := Marks.Le.of_same rfl rfl rfl fun _ => rfl
    exact hrunning.trans (marks_continuedBy _)
  | recoverPlain hlive hopens hreceipt => exact marks_recoveredFrom (.refl _)
  | @recoverAmbiguous _ a hlive hopens ha =>
    generalize recordedAmbiguity j.state x (planOf j x) a = amb
    exact marks_recoveredFrom (marks_blockedBy _ _ _)
  | @recoverCommit _ a request hlive hreceipt ha =>
    exact marks_recoveredFrom
      (marks_promotes (commitGroupOf_promotes j.state x a request a.receipt))
  | @resolveCommit _ amb a request hamb howner hopen ha hresolution =>
    exact (marks_promotes
      (commitGroupOf_promotes j.state x a request.request request.evidence)).trans marks_unblocked
  | transition target hlegal => exact marks_transitioned _ (isDeparted_public hpublic)
  | advance hlive => exact marks_nextGeneration _
  | lose hlive => exact marks_fencedExecution
  | resolveAction request status hamb howner hopen ha hresolution => exact marks_unblocked
  | _ => exact .refl _

theorem marks_restarted (st : DurableState) (epoch : Nat) :
    x.marks.Le (restarted st epoch x).marks := by
  have hstale : x.marks.Le (withoutStaleLease st epoch x).marks := by
    unfold withoutStaleLease ExecutionRecord.withoutLease
    split
    · split
      · split <;> exact .refl _
      · exact .refl _
    · exact .refl _
  unfold restarted
  dsimp only
  split
  · exact hstale.trans (Marks.Le.of_same rfl rfl rfl fun _ => rfl)
  · exact hstale

end Fields

/-! ## Images -/

/-- The image holds an execution that has reached the marks. -/
def Image.Dates (m : Image) (e : ExecutionId) (marks : Marks) : Prop :=
  ∃ x, m.executions e = some x ∧ marks.Le x.marks

/-- Some generation of the action is stored. -/
def Image.HasAction (m : Image) (i : ActionId) : Prop := ∃ k a, m.actions k = some a ∧ a.id = i

/-- The image holds what the record relies on. -/
def Image.Bears (m : Image) : JournalEntry → Prop
  | .action a => m.Dates a.execution { generation := a.executionGeneration } ∧
      (a.replayedFrom ≠ .nil → m.HasAction a.replayedFrom) ∧
      (a.status = .committed → ∃ c, m.commits a.commit = some c ∧ c.actionKey = a.key)
  | .progress p => m.Dates p.execution { generation := p.executionGeneration }
  | .checkpoint c => m.Dates c.execution
      { progressGeneration := c.progressGeneration, departed := true }
  | .continuation c => m.Dates c.execution
        { generation := c.executionGeneration
          policyGeneration := c.policyGeneration
          progressGeneration := c.progressGeneration } ∧
      Resolves m.checkpoints CheckpointRecord.execution c.checkpoint c.execution
  | .lease l => m.Dates l.execution {}
  | .replay r => m.HasAction r.action ∧ m.HasAction r.newAction
  | .recovery r => m.Dates r.execution {}
  | _ => True

/-- What `m` holds is still there in `m'`. -/
structure Image.Outgrows (m m' : Image) : Prop where
  executions : ∀ e x, m.executions e = some x → ∃ y, m'.executions e = some y ∧ x.marks.Le y.marks
  actions : ∀ k a, m.actions k = some a → ∃ b, m'.actions k = some b
  commits : ∀ k c, m.commits k = some c → ∃ d, m'.commits k = some d ∧ d.actionKey = c.actionKey
  checkpoints : ∀ k c, m.checkpoints k = some c →
    ∃ d, m'.checkpoints k = some d ∧ d.execution = c.execution

/-- Every record of the image has what it relies on. -/
structure Image.Grounded (m : Image) : Prop where
  holds : m.Holds m.Bears
  current : ∀ k x, m.executions k = some x → x.epoch ≤ m.epoch

section Images

variable {ds : List Derivation} {m m' : Image} {G G' : JournalEntry → Prop}

theorem Image.Dates.mono (hgrows : m.Outgrows m') {e : ExecutionId} {marks : Marks}
    (h : m.Dates e marks) : m'.Dates e marks := by
  obtain ⟨x, hx, hle⟩ := h
  obtain ⟨y, hy, hle'⟩ := hgrows.executions e x hx
  exact ⟨y, hy, hle.trans hle'⟩

theorem Image.HasAction.mono (hgrows : m.Outgrows m') {i : ActionId} (h : m.HasAction i) :
    m'.HasAction i := by
  obtain ⟨k, a, ha, rfl⟩ := h
  obtain ⟨b, hb⟩ := hgrows.actions k a ha
  have hkey : b.key = a.key := (m'.actions.keyed _ _ hb).trans (m.actions.keyed _ _ ha).symm
  exact ⟨k, b, hb, congrArg ActionKey.id hkey⟩

theorem Image.Bears.mono (hgrows : m.Outgrows m') {e : JournalEntry} (h : m.Bears e) :
    m'.Bears e := by
  cases e with
  | action a =>
    refine ⟨h.1.mono hgrows, fun hreplayed => (h.2.1 hreplayed).mono hgrows, fun hcommitted => ?_⟩
    obtain ⟨c, hc, hkey⟩ := h.2.2 hcommitted
    obtain ⟨d, hd, hsame⟩ := hgrows.commits _ c hc
    exact ⟨d, hd, hsame.trans hkey⟩
  | progress p => exact Image.Dates.mono hgrows h
  | checkpoint c => exact Image.Dates.mono hgrows h
  | continuation c =>
    refine ⟨h.1.mono hgrows, fun hvalid => ?_⟩
    obtain ⟨d, hd, howner⟩ := h.2 hvalid
    obtain ⟨d', hd', hsame⟩ := hgrows.checkpoints _ d hd
    exact ⟨d', hd', hsame.trans howner⟩
  | lease l => exact Image.Dates.mono hgrows h
  | replay r => exact ⟨h.1.mono hgrows, h.2.mono hgrows⟩
  | recovery r => exact Image.Dates.mono hgrows h
  | _ => trivial

theorem Image.Holds.mono (h : m.Holds G) (himp : ∀ e, G e → G' e) : m.Holds G' where
  policies := fun k r hr => himp _ (h.policies k r hr)
  executions := fun k r hr => himp _ (h.executions k r hr)
  actions := fun k r hr => himp _ (h.actions k r hr)
  progress := fun k r hr => himp _ (h.progress k r hr)
  checkpoints := fun k r hr => himp _ (h.checkpoints k r hr)
  continuations := fun k r hr => himp _ (h.continuations k r hr)
  leases := fun k r hr => himp _ (h.leases k r hr)
  replays := fun k r hr => himp _ (h.replays k r hr)
  ambiguities := fun k r hr => himp _ (h.ambiguities k r hr)
  commits := fun k r hr => himp _ (h.commits k r hr)
  recoveries := fun k r hr => himp _ (h.recoveries k r hr)

/-- Images that agree hold the same marks. -/
theorem Image.Agrees.outgrows (h : m.Agrees m') : m.Outgrows m' where
  executions := by
    intro e x hx
    obtain ⟨y, f, g, hy, rfl⟩ := h.symm.execution hx
    exact ⟨y, hy, .refl _⟩
  actions := fun k a ha => ⟨a, h.actions ▸ ha⟩
  commits := fun k c hc => ⟨c, h.commits ▸ hc, rfl⟩
  checkpoints := fun k c hc => ⟨c, h.checkpoints ▸ hc, rfl⟩

theorem Image.Grounded.agrees (h : m.Grounded) (ha : m.Agrees m') : m'.Grounded where
  holds := by
    have hsame := h.holds.mono (fun e he => Image.Bears.mono ha.outgrows he)
    exact
      { policies := ha.policies ▸ hsame.policies
        executions := fun _ _ _ => trivial
        actions := ha.actions ▸ hsame.actions
        progress := ha.progress ▸ hsame.progress
        checkpoints := ha.checkpoints ▸ hsame.checkpoints
        continuations := ha.continuations ▸ hsame.continuations
        leases := ha.leases ▸ hsame.leases
        replays := ha.replays ▸ hsame.replays
        ambiguities := ha.ambiguities ▸ hsame.ambiguities
        commits := ha.commits ▸ hsame.commits
        recoveries := ha.recoveries ▸ hsame.recoveries }
  current := by
    intro k x hx
    obtain ⟨y, f, g, hy, rfl⟩ := ha.execution hx
    rw [ha.epoch]
    exact h.current k y hy

theorem Image.Vacant.grounded (h : m.Vacant) : m.Grounded where
  holds :=
    { policies := fun _ _ _ => trivial
      executions := fun _ _ _ => trivial
      actions := fun k r hr => by
        rw [h.actions] at hr
        cases hr
      progress := fun k r hr => by
        rw [h.progress] at hr
        cases hr
      checkpoints := fun k r hr => by
        rw [h.checkpoints] at hr
        cases hr
      continuations := fun k r hr => by
        rw [h.continuations] at hr
        cases hr
      leases := fun k r hr => by
        rw [h.leases] at hr
        cases hr
      replays := fun k r hr => by
        rw [h.replays] at hr
        cases hr
      ambiguities := fun _ _ _ => trivial
      commits := fun _ _ _ => trivial
      recoveries := fun k r hr => by
        rw [h.recoveries] at hr
        cases hr }
  current := fun k x hx => by
    rw [h.executions] at hx
    cases hx

/-- Records that are keyed by their derivations replace commits by commits of the same action. -/
theorem Image.Known.keepsCommits (hfree : CollisionFree ds) (hk : m.Known ds) {c : CommitRecord}
    (hc : Named ds (.commit c.execution c.action c.actionGeneration c.progressGeneration) c.id) :
    ∀ k d, m.commits k = some d → ∃ d', m.commits.insert c k = some d' ∧
      d'.actionKey = d.actionKey := by
  intro k d hd
  by_cases hk' : k = c.id
  · have hnamed := hk.commits _ d hd
    rw [m.commits.keyed _ _ hd, hk'] at hnamed
    injection hnamed.unique hc hfree with _ haction hgeneration _
    refine ⟨c, hk' ▸ KeyedMap.insert_self _ _, ?_⟩
    unfold CommitRecord.actionKey
    rw [haction, hgeneration]
  · exact ⟨d, (KeyedMap.insert_of_ne _ hk').trans hd, rfl⟩

theorem Image.Known.keepsCheckpoints (hfree : CollisionFree ds) (hk : m.Known ds)
    {c : CheckpointRecord} (hc : Named ds (.checkpoint c.execution c.generation) c.id) :
    ∀ k d, m.checkpoints k = some d → ∃ d', m.checkpoints.insert c k = some d' ∧
      d'.execution = d.execution := by
  intro k d hd
  by_cases hk' : k = c.id
  · have hnamed := hk.checkpoints _ d hd
    rw [m.checkpoints.keyed _ _ hd, hk'] at hnamed
    injection hnamed.unique hc hfree with hexecution _
    exact ⟨c, hk' ▸ KeyedMap.insert_self _ _, hexecution.symm⟩
  · exact ⟨d, (KeyedMap.insert_of_ne _ hk').trans hd, rfl⟩

end Images

/-! ## Prefixes of a transaction -/

section Prefixes

variable {ds : List Derivation} {m : Image} {es p : List JournalEntry}

/-- The three tables of effects that `Outgrows` speaks of, after lawful records. -/
theorem Image.LawfulAll.keepsEffects (hfree : CollisionFree ds) (hk : m.Known ds)
    (hes : m.LawfulAll ds es) (hp : p <+: es) :
    (m.installAll p).Known ds ∧
      (∀ k a, m.actions k = some a → ∃ b, (m.installAll p).actions k = some b) ∧
      (∀ k c, m.commits k = some c →
        ∃ d, (m.installAll p).commits k = some d ∧ d.actionKey = c.actionKey) ∧
      (∀ k c, m.checkpoints k = some c →
        ∃ d, (m.installAll p).checkpoints k = some d ∧ d.execution = c.execution) := by
  induction es generalizing m p with
  | nil =>
    rw [List.prefix_nil.mp hp]
    exact ⟨hk, fun k a ha => ⟨a, ha⟩, fun k c hc => ⟨c, hc, rfl⟩, fun k c hc => ⟨c, hc, rfl⟩⟩
  | cons e rest ih =>
    cases p with
    | nil => exact ⟨hk, fun k a ha => ⟨a, ha⟩, fun k c hc => ⟨c, hc, rfl⟩, fun k c hc => ⟨c, hc, rfl⟩⟩
    | cons e' p' =>
      obtain ⟨rfl, hp'⟩ := List.cons_prefix_cons.mp hp
      obtain ⟨hderived, -, hrest⟩ := hes
      obtain ⟨hknown, hactions, hcommits, hcheckpoints⟩ := ih (hk.install hderived) hrest hp'
      refine ⟨hknown, fun k a ha => ?_, fun k c hc => ?_, fun k c hc => ?_⟩
      · have hhead : ∃ b, (m.install e').actions k = some b := by
          cases e' with
          | action r => exact KeyedMap.insertAll_stored ha [r]
          | commitGroup g => exact KeyedMap.insertAll_stored ha [g.action]
          | _ => exact ⟨a, ha⟩
        obtain ⟨b, hb⟩ := hhead
        exact hactions k b hb
      · have hhead : ∃ d, (m.install e').commits k = some d ∧ d.actionKey = c.actionKey := by
          cases e' with
          | commit r => exact hk.keepsCommits hfree hderived k c hc
          | commitGroup g => exact hk.keepsCommits hfree hderived.1 k c hc
          | _ => exact ⟨c, hc, rfl⟩
        obtain ⟨d, hd, hkey⟩ := hhead
        obtain ⟨d', hd', hkey'⟩ := hcommits k d hd
        exact ⟨d', hd', hkey'.trans hkey⟩
      · have hhead : ∃ d, (m.install e').checkpoints k = some d ∧ d.execution = c.execution := by
          cases e' with
          | checkpoint r => exact hk.keepsCheckpoints hfree hderived k c hc
          | _ => exact ⟨c, hc, rfl⟩
        obtain ⟨d, hd, howner⟩ := hhead
        obtain ⟨d', hd', howner'⟩ := hcheckpoints k d hd
        exact ⟨d', hd', howner'.trans howner⟩

theorem Image.LawfulAll.commit_mem (hfree : CollisionFree ds) (hk : m.Known ds)
    (hes : m.LawfulAll ds es) (hp : p <+: es) {g : CommitGroupRecord}
    (hg : JournalEntry.commitGroup g ∈ p) :
    ∃ d, (m.installAll p).commits g.commit.id = some d ∧ d.actionKey = g.commit.actionKey := by
  induction es generalizing m p with
  | nil =>
    rw [List.prefix_nil.mp hp] at hg
    cases hg
  | cons e rest ih =>
    cases p with
    | nil => cases hg
    | cons e' p' =>
      obtain ⟨rfl, hp'⟩ := List.cons_prefix_cons.mp hp
      obtain ⟨hderived, -, hrest⟩ := hes
      rcases List.mem_cons.mp hg with rfl | hg
      · exact (hrest.keepsEffects hfree (hk.install hderived) hp').2.2.1 _ g.commit
          (KeyedMap.insert_self _ _)
      · exact ih (m := m.install e') (hk.install hderived) hrest hp' hg

theorem Image.LawfulAll.checkpoint_mem (hfree : CollisionFree ds) (hk : m.Known ds)
    (hes : m.LawfulAll ds es) (hp : p <+: es) {c : CheckpointRecord} (hc : c ∈ checkpointsOf p) :
    ∃ d, (m.installAll p).checkpoints c.id = some d ∧ d.execution = c.execution := by
  induction es generalizing m p with
  | nil =>
    rw [List.prefix_nil.mp hp] at hc
    cases hc
  | cons e rest ih =>
    cases p with
    | nil => cases hc
    | cons e' p' =>
      obtain ⟨rfl, hp'⟩ := List.cons_prefix_cons.mp hp
      obtain ⟨hderived, -, hrest⟩ := hes
      rcases List.mem_append.mp hc with hc | hc
      · cases e' with
        | checkpoint c' =>
          obtain rfl := List.mem_singleton.mp hc
          exact (hrest.keepsEffects hfree (hk.install hderived) hp').2.2.2 _ c
            (KeyedMap.insert_self _ _)
        | _ => cases hc
      · exact ih (m := m.install e') (hk.install hderived) hrest hp' hc

/-- Lawful records that take no mark back outgrow the image. -/
theorem Image.LawfulAll.outgrows (hfree : CollisionFree ds) (hk : m.Known ds)
    (hes : m.LawfulAll ds es) (hp : p <+: es)
    (hmarks : ∀ y ∈ executionsOf p, ∀ x, m.executions y.id = some x → x.marks.Le y.marks) :
    m.Outgrows (m.installAll p) := by
  obtain ⟨-, hactions, hcommits, hcheckpoints⟩ := hes.keepsEffects hfree hk hp
  refine ⟨fun e x hx => ?_, hactions, hcommits, hcheckpoints⟩
  rw [executions_installAll]
  obtain ⟨z, hz⟩ := KeyedMap.insertAll_stored hx (executionsOf p)
  refine ⟨z, hz, ?_⟩
  rcases KeyedMap.insertAll_eq_some hz with hmem | ⟨hold, -⟩
  · refine hmarks z hmem x ?_
    rw [(m.executions.insertAll (executionsOf p)).keyed _ _ hz]
    exact hx
  · rw [hx] at hold
    rw [Option.some.inj hold]
    exact .refl _

theorem Image.LawfulAll.epoch_le (hes : m.LawfulAll ds es) (hp : p <+: es) :
    m.epoch ≤ (m.installAll p).epoch := by
  induction es generalizing m p with
  | nil =>
    rw [List.prefix_nil.mp hp]
    exact Nat.le_refl _
  | cons e rest ih =>
    cases p with
    | nil => exact Nat.le_refl _
    | cons e' p' =>
      obtain ⟨rfl, hp'⟩ := List.cons_prefix_cons.mp hp
      obtain ⟨-, hlawful, hrest⟩ := hes
      have hhead : m.epoch ≤ (m.install e').epoch := by
        cases e' with
        | storeMeta r => exact hlawful.1
        | _ => exact Nat.le_refl _
      exact Nat.le_trans hhead (ih hrest hp')

/-- Records with what they rely on keep an image grounded. -/
theorem Image.Grounded.extended (h : m.Grounded) (hgrows : m.Outgrows (m.installAll p))
    (hes : ∀ e ∈ p, e.Carries (m.installAll p).Bears) (hepoch : m.epoch ≤ (m.installAll p).epoch)
    (hexecutions : ∀ y ∈ executionsOf p, y.epoch ≤ m.epoch) : (m.installAll p).Grounded where
  holds := (h.holds.mono fun e he => Image.Bears.mono hgrows he).installAll hes
  current := by
    intro k x hx
    rw [executions_installAll] at hx
    rcases KeyedMap.insertAll_eq_some hx with hmem | ⟨hold, -⟩
    · exact Nat.le_trans (hexecutions x hmem) hepoch
    · exact Nat.le_trans (h.current k x hold) hepoch

end Prefixes

/-! ## Transactions -/

section Transactions

variable {ds : List Derivation} {j : Journaled} {i : Intent} {x y : ExecutionRecord}
  {es p : List JournalEntry}

theorem epoch_recoveredFrom (next : ExecutionRecord) :
    (recoveredFrom j x next).epoch = j.state.epoch := rfl

/-- A version keeps the epoch of the one before it or takes the current one. -/
theorem Succession.epoch {vs : List JournalEntry} (hs : Succession j i x y vs) :
    y.epoch = x.epoch ∨ y.epoch = j.state.epoch := by
  cases hs with
  | updatePolicy generation hgeneration =>
    refine .inl ?_
    unfold underPolicy ExecutionRecord.withoutLease
    dsimp only
    split
    · split <;> rfl
    · rfl
  | bind request hbindable hlive => exact .inr rfl
  | start token htoken hready => exact .inr rfl
  | complete request htoken hrunning ha hdefect => exact .inr rfl
  | enterResume request htoken hresumable hrecovery => exact .inr rfl
  | resume request htoken hresumable hrecovery hvalid => exact .inr rfl
  | recoverPlain hlive hopens hreceipt => exact .inr (epoch_recoveredFrom _)
  | recoverAmbiguous hlive hopens ha => exact .inr (epoch_recoveredFrom _)
  | recoverCommit request hlive hreceipt ha => exact .inr (epoch_recoveredFrom _)
  | resolveCommit request hamb howner hopen ha hresolution => exact .inr rfl
  | transition target hlegal =>
    refine .inr ?_
    unfold transitioned
    dsimp only
    split <;> rfl
  | advance hlive => exact .inr rfl
  | lose hlive =>
    refine .inl ?_
    unfold fencedExecution ExecutionRecord.withoutLease
    dsimp only
    split <;> split <;> rfl
  | _ => exact .inl rfl

theorem Named.action_id {e : ExecutionId} {n : Nat} {a : ActionId}
    (h : Named ds (.action e n) a) : a = deriveActionId e n := by
  have hvalue : (deriveActionId e n).value = a.value := congrArg Prod.snd h.2
  cases a
  exact congrArg Id.mk hvalue.symm

/-- The action an execution re-drives is stored, under the id the new generation takes. -/
theorem redriven_stored (hw : Working ds j) {a : ActionRecord}
    (ha : redriven x (j.latestAction x.id) = some a) :
    j.state.image.actions a.key = some a ∧ a.id = deriveActionId x.id x.actionFrontier := by
  obtain ⟨hlatest, hsequence, -⟩ := redriven_some ha
  have hnewest := hw.indexed.latest hlatest
  refine ⟨hnewest.stored, ?_⟩
  have hnamed := hw.coherent.known.actions _ a hnewest.stored
  rw [hnewest.owner, hsequence] at hnamed
  exact hnamed.action_id

theorem begunAction_replayedFrom (request : BeginActionRequest) {replayed : Option ActionRecord}
    (h : (begunAction x request replayed).replayedFrom ≠ .nil) :
    ∃ a, replayed = some a ∧ (begunAction x request replayed).replayedFrom = a.id := by
  cases replayed with
  | none => exact absurd rfl h
  | some a => exact ⟨a, rfl, rfl⟩

/-- Each record of a transaction has what it relies on as soon as it is written. -/
theorem Origin.carries (hfree : CollisionFree ds) (hw : Working ds j)
    (h : j.state.image.Grounded) (hes : j.state.image.LawfulAll ds es) (hp : p <+: es)
    (hgrows : j.state.image.Outgrows (j.state.image.installAll p)) {e : JournalEntry} (he : e ∈ p)
    (ho : Origin j i es e) : e.Carries (j.state.image.installAll p).Bears := by
  have hdates : ∀ {x : ExecutionRecord} {marks : Marks}, j.state.executions.find x.id = some x →
      marks.Le x.marks → (j.state.image.installAll p).Dates x.id marks :=
    fun hx hle => Image.Dates.mono hgrows ⟨_, hx, hle⟩
  have hle : ∀ x : ExecutionRecord, Marks.Le {} x.marks :=
    fun x => ⟨Nat.zero_le _, Nat.zero_le _, Nat.zero_le _, fun hd => by cases hd⟩
  have hgeneration : ∀ x : ExecutionRecord, Marks.Le { generation := x.generation } x.marks :=
    fun x => ⟨Nat.le_refl _, Nat.zero_le _, Nat.zero_le _, fun hd => by cases hd⟩
  have haction : ∀ a : ActionRecord, j.state.actions.find a.key = some a →
      (j.state.image.installAll p).Bears (.action a) :=
    fun a ha => Image.Bears.mono hgrows (h.holds.actions _ a ha)
  cases ho with
  | storeMeta r hepoch => trivial
  | policy r hi => trivial
  | execution hy => trivial
  | @group x a g hx ha hg hstamp =>
    obtain ⟨evidence, hsealed⟩ := hg.action
    refine ⟨trivial, ?_, ?_, trivial⟩
    · show (j.state.image.installAll p).Dates g.progress.execution _
      rw [hg.seals.execution, hg.owner, hstamp]
      exact hdates hx (hgeneration x)
    · obtain ⟨howner, hreplayed, -⟩ := haction a ha
      obtain ⟨d, hd, hkey⟩ := hes.commit_mem hfree hw.coherent.known hp he
      rw [hsealed]
      refine ⟨howner, hreplayed, fun _ => ⟨d, hd, ?_⟩⟩
      rw [hkey, hg.key]
      rfl
  | @action a status receipt ha hstatus =>
    obtain ⟨howner, hreplayed, -⟩ := haction a ha
    exact ⟨howner, hreplayed, fun hcommitted => absurd hcommitted hstatus⟩
  | @begun x request hi hx =>
    refine ⟨hdates hx (hgeneration x), fun hvalid => ?_, fun hcommitted => by cases hcommitted⟩
    obtain ⟨a, ha, hid⟩ := begunAction_replayedFrom request hvalid
    rw [hid]
    exact Image.HasAction.mono hgrows ⟨_, a, (redriven_stored hw ha).1, rfl⟩
  | @replay x a request hx ha =>
    obtain ⟨hstored, hid⟩ := redriven_stored hw ha
    have hhas : (j.state.image.installAll p).HasAction a.id :=
      Image.HasAction.mono hgrows ⟨_, a, hstored, rfl⟩
    refine ⟨hhas, ?_⟩
    show (j.state.image.installAll p).HasAction (deriveActionId x.id x.actionFrontier)
    rw [← hid]
    exact hhas
  | @lease l state hl => exact Image.Bears.mono hgrows (h.holds.leases _ l hl)
  | @granted x request hx => exact hdates hx (hle x)
  | @continuation c state hstate hc =>
    exact Image.Bears.mono hgrows (h.holds.continuations _ c hc)
  | @minted x c hx hc _ hcheckpoint =>
    refine ⟨?_, fun hvalid => ?_⟩
    · rw [hc.execution, hc.executionGeneration, hc.policyGeneration, hc.progressGeneration]
      exact hdates hx ⟨Nat.le_refl _, Nat.le_refl _, Nat.le_refl _, fun hd => by cases hd⟩
    · rw [hc.execution]
      rcases hcheckpoint with ⟨hsame, -⟩ | ⟨-, hfollows⟩
      · rw [hsame] at hvalid ⊢
        obtain ⟨d, hd, howner⟩ := hw.coherent.checkpointed _ x hx hvalid
        obtain ⟨d', hd', hkept⟩ := hgrows.checkpoints _ d hd
        exact ⟨d', hd', hkept.trans howner⟩
      · obtain ⟨d, hd, hid, howner⟩ := hfollows p hp he
        obtain ⟨d', hd', hkept⟩ := hes.checkpoint_mem hfree hw.coherent.known hp hd
        exact ⟨d', hid ▸ hd', hkept.trans howner⟩
  | @checkpoint c state hstate hc => exact Image.Bears.mono hgrows (h.holds.checkpoints _ c hc)
  | @registered x request depth state hi hstate hx hlifecycle =>
    refine hdates hx ⟨Nat.zero_le _, Nat.zero_le _, Nat.le_refl _, fun _ => ?_⟩
    rcases hlifecycle with hat | hat
    · rw [ExecutionRecord.marks, hat]
      rfl
    · rw [ExecutionRecord.marks, hat]
      rfl
  | ambiguity request hamb => trivial
  | recorded hx => trivial
  | @recovery x next inFlight hx => exact hdates hx (hle x)

/-- A transaction keeps memory grounded at each of its records. -/
theorem Transaction.grounded (hfree : CollisionFree ds) (hw : Working ds j) (hpublic : i.Public)
    (ht : Transaction j i es) (hmint : Minted ds j.state.store es) (h : j.state.image.Grounded)
    (hp : p <+: es) : (j.state.image.installAll p).Grounded := by
  have hes := ht.lawful hfree hw.coherent hw.indexed hmint
  have hfresh : i = .create → j.state.image.executions (createdExecution j.state).id = none := by
    rintro rfl
    have hknown := (hes.keepsEffects hfree hw.coherent.known List.prefix_rfl).1
    cases ht with
    | create policy hid =>
      exact createdExecution_fresh hfree hw.coherent hknown rfl (KeyedMap.insert_self _ _)
  have hversions : ∀ y ∈ executionsOf p,
      (∀ x, j.state.image.executions y.id = some x → x.marks.Le y.marks) ∧
        y.epoch ≤ j.state.image.epoch := by
    intro y hy
    have hmem : y ∈ executionsOf es := by
      obtain ⟨q, rfl⟩ := hp
      rw [executionsOf_append]
      exact List.mem_append_left _ hy
    cases ht.versions y hmem with
    | created hi hcreated =>
      subst hcreated
      refine ⟨fun x hx => ?_, Nat.le_refl _⟩
      rw [hfresh hi] at hx
      cases hx
    | @succeeded x vs hx hsuccession =>
      have hx' : j.state.image.executions y.id = some x := by
        rw [hsuccession.id]
        exact hx
      refine ⟨fun z hz => ?_, ?_⟩
      · rw [hx'] at hz
        rw [← Option.some.inj hz]
        exact hsuccession.marks hpublic
      · rcases hsuccession.epoch with hsame | hcurrent
        · rw [hsame]
          exact h.current _ x hx
        · exact Nat.le_of_eq hcurrent
    | @promoted x a g hx hg hepoch hy =>
      subst hy
      have hid : g.execution.id = x.id := by
        obtain ⟨epoch, hexecution⟩ := hg.execution
        rw [hexecution]
        rfl
      refine ⟨fun z hz => ?_, Nat.le_of_eq hepoch⟩
      rw [hid] at hz
      rw [← Option.some.inj (hx.symm.trans hz)]
      exact marks_promotes hg
  have hgrows := hes.outgrows hfree hw.coherent.known hp fun y hy => (hversions y hy).1
  exact h.extended hgrows
    (fun e he => (ht.origins e (hp.subset he)).carries hfree hw h hes hp hgrows he)
    (hes.epoch_le hp) fun y hy => (hversions y hy).2

/-- The records of a restart keep memory grounded. -/
theorem restartRecords_grounded (hfree : CollisionFree ds) (hc : j.state.image.Coherent ds)
    (h : j.state.image.Grounded) (hp : p <+: restartRecords j) :
    (j.state.image.installAll p).Grounded := by
  have hes := restartRecords_lawful hfree hc
  have hversions : ∀ y ∈ executionsOf p, ∃ x st epoch,
      j.state.image.executions x.id = some x ∧ y = restarted st epoch x := by
    intro y hy
    obtain ⟨e, he, hy⟩ := List.mem_flatMap.mp hy
    cases restartRecords_origins j e (hp.subset he) with
    | storeMeta => cases hy
    | lease hl => cases hy
    | execution st epoch hx => exact ⟨_, st, epoch, hx, List.mem_singleton.mp hy⟩
    | continuation hc => cases hy
  have hid : ∀ (x : ExecutionRecord) st epoch, (restarted st epoch x).id = x.id ∧
      (restarted st epoch x).epoch = x.epoch := by
    intro x st epoch
    have hstale : (withoutStaleLease st epoch x).id = x.id ∧
        (withoutStaleLease st epoch x).epoch = x.epoch := by
      unfold withoutStaleLease
      split
      · split
        · split <;> exact ⟨rfl, rfl⟩
        · exact ⟨rfl, rfl⟩
      · exact ⟨rfl, rfl⟩
    unfold restarted
    dsimp only
    split <;> exact hstale
  have hgrows : j.state.image.Outgrows (j.state.image.installAll p) := by
    refine hes.outgrows hfree hc.known hp fun y hy z hz => ?_
    obtain ⟨x, st, epoch, hx, rfl⟩ := hversions y hy
    rw [(hid x st epoch).1, hx] at hz
    rw [← Option.some.inj hz]
    exact marks_restarted st epoch
  refine h.extended hgrows (fun e he => ?_) (hes.epoch_le hp) fun y hy => ?_
  · cases restartRecords_origins j e (hp.subset he) with
    | storeMeta => trivial
    | lease hl => exact Image.Bears.mono hgrows (h.holds.leases _ _ hl)
    | execution st epoch hx => trivial
    | continuation hc => exact Image.Bears.mono hgrows (h.holds.continuations _ _ hc)
  · obtain ⟨x, st, epoch, hx, rfl⟩ := hversions y hy
    rw [(hid x st epoch).2]
    exact h.current _ x hx

end Transactions

/-! ## Every run -/

/-- At every record boundary of the journal each record has what it relies on. -/
def grounding : Discipline where
  durable := Image.Grounded
  rest := fun _ => True
  reopening := fun _ j => j.state.image.Grounded
  working := fun j => j.state.image.Grounded
  parked := fun _ => True
  admits := anyEvent

/-- What a transaction keeps of memory it keeps of what memory agrees with. -/
theorem grounding_lasting {m : Image} {es : List JournalEntry}
    (h : m.Grounded → ∀ p, p <+: es → (m.installAll p).Grounded) : grounding.Lasting m es := by
  intro m₀ hagrees hdurable p hp
  exact (h (Image.Grounded.agrees hdurable hagrees) p hp).agrees (hagrees.symm.installAll p)

theorem grounding_upheld {ds : List Derivation} (hfree : CollisionFree ds) :
    grounding.Upheld ds where
  vacant := fun _ _ hvacant => ⟨hvacant.grounded, trivial⟩
  rest_agrees := fun _ _ => trivial
  settles := fun _ h => ⟨h, trivial, trivial⟩
  transaction := by
    intro s c i es _ hi _ hw h ht hmint
    have hstep := fun h p (hp : p <+: es) =>
      ht.grounded hfree hw (Call.intent_public hi) hmint h hp
    refine ⟨?_, grounding_lasting hstep⟩
    show (s.toJournaled.write es).state.image.Grounded
    rw [Journaled.image_write]
    exact hstep h es List.prefix_rfl
  lose := by
    intro j e es hw h ht hmint
    have hpublic : Intent.Public (.lose e) := trivial
    have hstep := fun h p (hp : p <+: es) => ht.grounded hfree hw hpublic hmint h hp
    refine ⟨?_, grounding_lasting hstep⟩
    show (j.write es).state.image.Grounded
    rw [Journaled.image_write]
    exact hstep h es List.prefix_rfl
  restart := by
    intro s config entropy m j _ _ _ hw hagrees _ hdurable _
    have hstep := fun h p (hp : p <+: restartRecords j) =>
      restartRecords_grounded hfree hw.coherent h hp
    refine ⟨?_, grounding_lasting hstep⟩
    show (j.write (restartRecords j)).state.image.Grounded
    rw [Journaled.image_write]
    exact hstep (Image.Grounded.agrees hdurable hagrees) _ List.prefix_rfl
  skip := fun h => h
  recover := by
    intro j e ids es hw h ht hmint
    have hpublic : Intent.Public (.recover e) := trivial
    have hstep := fun h p (hp : p <+: es) => ht.grounded hfree hw hpublic hmint h hp
    refine ⟨?_, grounding_lasting hstep⟩
    show (j.write es).state.image.Grounded
    rw [Journaled.image_write]
    exact hstep h es List.prefix_rfl
  reopened := fun _ h => h
  crash := fun _ _ _ _ _ => trivial

/-- Memory is grounded whenever the runtime is open in a collision-free run. -/
theorem grounded_of_runs {events : List Event} {s : Runtime} (hrun : Runs anyEvent {} events s)
    (hfree : CollisionFree s.minted) (hopen : s.isOpen = true) : s.state.image.Grounded := by
  have hkept := (grounding_upheld hfree).keeps (fun _ _ h => h) hfree hrun kept_start
    (List.Subset.refl _)
  obtain ⟨d, -, -, hw⟩ := hkept.running hopen
  exact hw

end ExecutionFabric
