import ExecutionFabric.Audit.Invariance

/-!
# What an open ambiguity blocks

A blocked execution admits no ordinal above `blockedAboveOrdinal`. `Image.Gated` relates
the block, the frontier and the open ambiguities of an image: every stored action has a
positive ordinal, a block always leaves some begun action above it, and an execution has
at most one open ambiguity, the one it refers to.
-/
namespace ExecutionFabric

open Lib

/-- The fields of an execution that gate later progress are the same. -/
structure SameGate (x y : ExecutionRecord) : Prop where
  blocked : y.blocked = x.blocked
  blockedAboveOrdinal : y.blockedAboveOrdinal = x.blockedAboveOrdinal
  ambiguity : y.ambiguity = x.ambiguity

theorem SameGate.trans {x y z : ExecutionRecord} (h : SameGate x y) (h' : SameGate y z) :
    SameGate x z :=
  ⟨h'.blocked.trans h.blocked, h'.blockedAboveOrdinal.trans h.blockedAboveOrdinal,
    h'.ambiguity.trans h.ambiguity⟩

structure Image.Gated (m : Image) : Prop where
  begun : ∀ k a, m.actions k = some a → 0 < a.sequence
  behind : ∀ k x, m.executions k = some x → x.blocked = true →
    ∃ k' a, m.actions k' = some a ∧ a.execution = x.id ∧ x.blockedAboveOrdinal < a.sequence
  clear : ∀ k x, m.executions k = some x → x.blocked = false → x.blockedAboveOrdinal = 0
  referenced : ∀ k amb, m.ambiguities k = some amb → ambiguityIsOpen amb.state = true →
    ∃ x, m.executions amb.execution = some x ∧ x.ambiguity = amb.id

/-- Every action keeps its execution and its ordinal. -/
def Image.KeepsActions (m m' : Image) : Prop :=
  ∀ k a, m.actions k = some a → ∃ a', m'.actions k = some a' ∧ a'.execution = a.execution ∧
    a'.sequence = a.sequence

section Steps

variable {ds : List Derivation} {m m' : Image} {x y : ExecutionRecord}

theorem Image.KeepsActions.of_eq (h : m'.actions = m.actions) : m.KeepsActions m' := by
  intro k a ha
  exact ⟨a, h ▸ ha, rfl, rfl⟩

theorem Image.KeepsActions.insert (hfree : CollisionFree ds) (hk : m.Known ds) {a : ActionRecord}
    (ha : Named ds (.action a.execution a.sequence) a.id)
    (hactions : m'.actions = m.actions.insert a) : m.KeepsActions m' := by
  intro k b hb
  rw [hactions]
  exact Image.find_insert_action hfree hk ha hb

/-- A step that replaces the execution `x` by `y` keeps the gates. -/
theorem Image.Gated.step (h : m.Gated) (hid : y.id = x.id)
    (hexecutions : m'.executions = m.executions.insert y) (hkeeps : m.KeepsActions m')
    (hbegun : ∀ k a, m'.actions k = some a → 0 < a.sequence)
    (hbehind : y.blocked = true → ∃ k a, m'.actions k = some a ∧ a.execution = x.id ∧
      y.blockedAboveOrdinal < a.sequence)
    (hclear : y.blocked = false → y.blockedAboveOrdinal = 0)
    (hreferenced : ∀ k amb, m'.ambiguities k = some amb → ambiguityIsOpen amb.state = true →
      (amb.execution = x.id → y.ambiguity = amb.id) ∧
        (amb.execution ≠ x.id → m.ambiguities k = some amb)) : m'.Gated where
  begun := hbegun
  behind := by
    intro k z hz hblocked
    rw [hexecutions] at hz
    rcases KeyedMap.insert_eq_some hz with ⟨-, rfl⟩ | ⟨-, hz⟩
    · obtain ⟨k', a, ha, howner, hlt⟩ := hbehind hblocked
      exact ⟨k', a, ha, howner.trans hid.symm, hlt⟩
    · obtain ⟨k', a, ha, howner, hlt⟩ := h.behind k z hz hblocked
      obtain ⟨a', ha', howner', hsequence⟩ := hkeeps k' a ha
      exact ⟨k', a', ha', howner'.trans howner, hsequence ▸ hlt⟩
  clear := by
    rw [hexecutions]
    exact forall_insert h.clear hclear
  referenced := by
    intro k amb hamb hopen
    obtain ⟨hown, hother⟩ := hreferenced k amb hamb hopen
    rw [hexecutions]
    by_cases howner : amb.execution = x.id
    · refine ⟨y, ?_, hown howner⟩
      rw [howner, ← hid]
      exact KeyedMap.insert_self _ _
    · obtain ⟨z, hz, hz'⟩ := h.referenced k amb (hother howner) hopen
      have hne : amb.execution ≠ y.id := fun he => howner (he.trans hid)
      exact ⟨z, (KeyedMap.insert_of_ne _ hne).trans hz, hz'⟩

/-- A step that leaves the gate and the ambiguities as they are. -/
theorem Image.Gated.steady (h : m.Gated) (hx : m.executions x.id = some x) (hid : y.id = x.id)
    (hgate : SameGate x y) (hexecutions : m'.executions = m.executions.insert y)
    (hkeeps : m.KeepsActions m') (hbegun : ∀ k a, m'.actions k = some a → 0 < a.sequence)
    (hambiguities : m'.ambiguities = m.ambiguities) : m'.Gated := by
  obtain ⟨hblocked, habove, hambiguity⟩ := hgate
  refine h.step hid hexecutions hkeeps hbegun ?_ ?_ ?_
  · rw [hblocked, habove]
    intro hb
    obtain ⟨k, a, ha, howner, hlt⟩ := h.behind _ x hx hb
    obtain ⟨a', ha', howner', hsequence⟩ := hkeeps k a ha
    exact ⟨k, a', ha', howner'.trans howner, hsequence ▸ hlt⟩
  · rw [hblocked, habove]
    exact h.clear _ x hx
  · rw [hambiguities, hambiguity]
    intro k amb hamb hopen
    refine ⟨fun howner => ?_, fun _ => hamb⟩
    obtain ⟨z, hz, hz'⟩ := h.referenced k amb hamb hopen
    rw [howner, hx] at hz
    rw [Option.some.inj hz]
    exact hz'

/-- The open ambiguity of a gated execution is the one it refers to. -/
theorem Image.Gated.current {st : DurableState} (h : st.image.Gated)
    (hc : st.image.Coherent ds) (hfree : CollisionFree ds)
    (hx : st.image.executions x.id = some x) {k : AmbiguityId} {amb : AmbiguityRecord}
    (hamb : st.image.ambiguities k = some amb) (hopen : ambiguityIsOpen amb.state = true)
    (howner : amb.execution = x.id) : currentAmbiguity st x = some amb := by
  obtain ⟨z, hz, hz'⟩ := h.referenced k amb hamb hopen
  rw [howner, hx] at hz
  obtain rfl := Option.some.inj hz
  have hkey : amb.id = k := st.image.ambiguities.keyed _ _ hamb
  have hvalid : x.ambiguity ≠ .nil := by
    rw [hz']
    exact (hc.known.ambiguities k amb hamb).valid hfree
  unfold currentAmbiguity
  rw [if_pos ((Id.valid_iff _).mpr hvalid), hz', hkey]
  exact hamb

end Steps

/-! ## The gate a transaction leaves -/

section Gates

variable {x : ExecutionRecord}

theorem sameGate_underPolicy (x : ExecutionRecord) (generation : Nat) :
    SameGate x (underPolicy x generation) := by
  unfold underPolicy
  dsimp only
  split
  · split <;> exact ⟨rfl, rfl, rfl⟩
  · exact ⟨rfl, rfl, rfl⟩

theorem sameGate_boundExecution (st : DurableState) (x : ExecutionRecord)
    (request : BindWorkerRequest) : SameGate x (boundExecution st x request) := by
  unfold boundExecution incarnated
  split <;> exact ⟨rfl, rfl, rfl⟩

theorem sameGate_recoveredFrom (j : Journaled) (x next : ExecutionRecord) :
    SameGate next (recoveredFrom j x next) := by
  unfold recoveredFrom recoveredExecution atPlannedCheckpoint
  split <;> exact ⟨rfl, rfl, rfl⟩

theorem sameGate_transitioned (st : DurableState) (x : ExecutionRecord) (target : Lifecycle) :
    SameGate x (transitioned st x target) := by
  unfold transitioned
  dsimp only
  split <;> exact ⟨rfl, rfl, rfl⟩

theorem sameGate_nextGeneration (x : ExecutionRecord) (epoch : Nat) :
    SameGate x { nextGeneration x with epoch := epoch } := by
  unfold nextGeneration
  dsimp only
  split <;> exact ⟨rfl, rfl, rfl⟩

theorem sameGate_fencedExecution (x : ExecutionRecord) : SameGate x (fencedExecution x) := by
  unfold fencedExecution
  dsimp only
  split <;> split <;> exact ⟨rfl, rfl, rfl⟩

theorem sameGate_parkedExecution (x : ExecutionRecord) : SameGate x (parkedExecution x) := by
  unfold parkedExecution
  split <;> exact ⟨rfl, rfl, rfl⟩

theorem Promotes.sameGate {a : ActionRecord} {g : CommitGroupRecord} (h : Promotes x a g) :
    SameGate x g.execution := by
  obtain ⟨epoch, hexecution⟩ := h.execution
  rw [hexecution]
  exact ⟨rfl, rfl, rfl⟩

/-- The execution that refers to the recorded ambiguity. -/
theorem blockedBy_gate (st : DurableState) (x : ExecutionRecord) (amb : AmbiguityRecord)
    (a : ActionRecord) : (blockedBy st x amb a).ambiguity = amb.id ∧
      (((blockedBy st x amb a).blocked = true ∧
          (blockedBy st x amb a).blockedAboveOrdinal = a.sequence - 1) ∨
        ((blockedBy st x amb a).blocked = x.blocked ∧
          (blockedBy st x amb a).blockedAboveOrdinal = x.blockedAboveOrdinal)) := by
  unfold blockedBy
  dsimp only
  split
  · exact ⟨rfl, .inl ⟨rfl, rfl⟩⟩
  · exact ⟨rfl, .inr ⟨rfl, rfl⟩⟩

/-- A transaction without effects leaves the gate as it is. -/
theorem Succession.sameGate {j : Journaled} {i : Intent} {y : ExecutionRecord}
    (h : Succession j i x y []) : SameGate x y := by
  cases h with
  | updatePolicy generation hgeneration => exact sameGate_underPolicy x generation
  | bind request hbindable hlive => exact sameGate_boundExecution j.state x request
  | recoverPlain hlive hopens hreceipt => exact sameGate_recoveredFrom j x x
  | transition target hlegal => exact sameGate_transitioned j.state x target
  | advance hlive => exact sameGate_nextGeneration x j.state.epoch
  | lose hlive => exact sameGate_fencedExecution x
  | _ => exact ⟨rfl, rfl, rfl⟩

end Gates

/-! ## Every transaction keeps the gates -/

section Gated

variable {ds : List Derivation} {j : Journaled}

theorem Image.Gated.created (h : j.state.image.Gated) (policy : ExecutionPolicy)
    (hfresh : j.state.image.executions (createdExecution j.state).id = none) :
    (j.state.image.installAll [.storeMeta (advancedMeta j.state), .policy policy,
      .execution (createdExecution j.state)]).Gated where
  begun := h.begun
  behind := forall_insert h.behind fun hblocked => by cases hblocked
  clear := forall_insert h.clear fun _ => rfl
  referenced := by
    intro k amb hamb hopen
    obtain ⟨x, hx, hx'⟩ := h.referenced k amb hamb hopen
    refine ⟨x, (KeyedMap.insert_of_ne _ ?_).trans hx, hx'⟩
    intro he
    rw [he, hfresh] at hx
    cases hx

/-- The planned action of a stored execution has a positive ordinal. -/
theorem Image.Gated.planned (h : j.state.image.Gated) (hw : Working ds j) {x : ExecutionRecord}
    {a : ActionRecord} (hx : j.state.image.executions x.id = some x)
    (ha : plannedAction j.state (planOf j x) = some a) :
    j.state.image.actions a.key = some a ∧ a.execution = x.id ∧ 0 < a.sequence := by
  obtain ⟨hstored, howner⟩ := (planned_of_plannedAction ha).owned hw.coherent hw.indexed hx
  exact ⟨hstored, howner, h.begun _ a hstored⟩

/-- While an execution is blocked, every ordinal `begin_action` could dispatch is above the
block. -/
theorem Image.Gated.unblocked_of_begun (h : j.state.image.Gated) (hw : Working ds j)
    {x : ExecutionRecord} (hx : j.state.image.executions x.id = some x)
    (request : BeginActionRequest) (replayed : Option ActionRecord)
    (hblocked : x.blocked = true →
      (begunAction x request replayed).sequence ≤ x.blockedAboveOrdinal) : x.blocked = false := by
  by_contra hnot
  have hb : x.blocked = true := by simpa using hnot
  obtain ⟨k, a, ha, howner, hlt⟩ := h.behind _ x hx hb
  have hfrontier : a.sequence ≤ x.actionFrontier := hw.frontier k a x ha (howner ▸ hx)
  have hle : x.actionFrontier ≤ (begunAction x request replayed).sequence := by
    cases replayed with
    | none => exact Nat.le_succ _
    | some b => exact Nat.le_refl _
  have := hblocked hb
  omega

/-- A step that rewrites one stored action keeps every action in its place. -/
theorem Image.KeepsActions.rewrite {m m' : Image} {a b : ActionRecord}
    (hb : m.actions b.key = some b) (hkey : a.key = b.key) (howner : a.execution = b.execution)
    (hsequence : a.sequence = b.sequence) (hactions : m'.actions = m.actions.insert a) :
    m.KeepsActions m' ∧ ((∀ k c, m.actions k = some c → 0 < c.sequence) →
      ∀ k c, m'.actions k = some c → 0 < c.sequence) := by
  constructor
  · intro k c hc
    rw [hactions]
    by_cases hk : k = a.key
    · subst hk
      rw [hkey, hb] at hc
      obtain rfl := Option.some.inj hc
      exact ⟨a, KeyedMap.insert_self _ _, howner, hsequence⟩
    · exact ⟨c, (KeyedMap.insert_of_ne _ hk).trans hc, rfl, rfl⟩
  · intro hpos
    rw [hactions]
    exact forall_insert hpos (hsequence ▸ hpos _ b hb)

variable {x : ExecutionRecord} {a : ActionRecord}

/-- A commit keeps its action in its place. -/
theorem Promotes.keepsActions {m m' : Image} {g : CommitGroupRecord} (hg : Promotes x a g)
    (ha : m.actions a.key = some a) (hactions : m'.actions = m.actions.insert g.action) :
    m.KeepsActions m' ∧ ((∀ k c, m.actions k = some c → 0 < c.sequence) →
      ∀ k c, m'.actions k = some c → 0 < c.sequence) := by
  obtain ⟨evidence, haction⟩ := hg.action
  rw [haction] at hactions
  exact Image.KeepsActions.rewrite (a := a.committedBy g.commit.id evidence) (b := a) ha rfl rfl rfl
    hactions

/-- A commit of a stored action of the execution, with or without its ambiguity. -/
theorem Image.Gated.promoted {m m' : Image} {y : ExecutionRecord} {g : CommitGroupRecord}
    (h : m.Gated) (hg : Promotes x a g) (hx : m.executions x.id = some x)
    (ha : m.actions a.key = some a) (hid : y.id = x.id) (hgate : SameGate g.execution y)
    (hexecutions : m'.executions = m.executions.insert y)
    (heffects : (m.install (.commitGroup g)).SameEffects m') : m'.Gated := by
  obtain ⟨hkeeps, hpos⟩ := hg.keepsActions ha heffects.actions
  exact h.steady hx hid (hg.sameGate.trans hgate) hexecutions hkeeps (hpos h.begun)
    heffects.ambiguities

/-- A step that rewrites one stored action and leaves the gate as it is. -/
theorem Image.Gated.rewritten {m m' : Image} {y : ExecutionRecord} {b : ActionRecord}
    (h : m.Gated) (hx : m.executions x.id = some x) (hb : m.actions b.key = some b)
    (hkey : a.key = b.key) (howner : a.execution = b.execution) (hsequence : a.sequence = b.sequence)
    (hgate : SameGate x y) (hid : y.id = x.id) (hexecutions : m'.executions = m.executions.insert y)
    (heffects : (m.install (.action a)).SameEffects m') : m'.Gated := by
  obtain ⟨hkeeps, hbegun⟩ :=
    Image.KeepsActions.rewrite hb hkey howner hsequence heffects.actions
  exact h.steady hx hid hgate hexecutions hkeeps (hbegun h.begun) heffects.ambiguities

/-- The action `begin_action` dispatches has a positive ordinal. -/
theorem Image.Gated.begunAction_pos (h : j.state.image.Gated) (hw : Working ds j)
    (request : BeginActionRequest) :
    0 < (begunAction x request (redriven x (j.latestAction x.id))).sequence := by
  cases hredriven : redriven x (j.latestAction x.id) with
  | none => exact Nat.succ_pos _
  | some b =>
    obtain ⟨hlatest, hsequence⟩ := Option.filter_eq_some_iff.mp hredriven
    have hpos := h.begun _ b (hw.indexed.latest hlatest).stored
    simp only [decide_eq_true_eq] at hsequence
    show 0 < x.actionFrontier
    rw [← hsequence.1]
    exact hpos

theorem Image.Gated.dispatched {m' : Image} (h : j.state.image.Gated) (hw : Working ds j)
    (hfree : CollisionFree ds) (hx : j.state.image.executions x.id = some x) (hknown : m'.Known ds)
    {request : BeginActionRequest} (hblocked : x.blocked = false)
    (hexecutions : m'.executions = j.state.image.executions.insert (ExecutionFabric.dispatched x
      (begunAction x request (redriven x (j.latestAction x.id)))
      (redriven x (j.latestAction x.id))))
    (heffects : (j.state.image.install (.action
      (begunAction x request (redriven x (j.latestAction x.id))))).SameEffects m') : m'.Gated := by
  have hpos := h.begunAction_pos (x := x) hw request
  have hactions := heffects.actions
  generalize begunAction x request (redriven x (j.latestAction x.id)) = a at *
  have hstored : m'.actions a.key = some a := by
    rw [hactions]
    exact KeyedMap.insert_self _ _
  refine h.steady (y := ExecutionFabric.dispatched x a (redriven x (j.latestAction x.id))) hx rfl
    ⟨hblocked.symm, (h.clear _ x hx hblocked).symm, rfl⟩ hexecutions
    (.insert hfree hw.coherent.known (hknown.actions _ a hstored) hactions) ?_ heffects.ambiguities
  rw [hactions]
  exact forall_insert h.begun hpos

/-- A resolution that closes the open ambiguity and the block. -/
theorem Image.Gated.unblocked {m m' : Image} {y : ExecutionRecord} (h : m.Gated)
    (amb : AmbiguityRecord) (hid : y.id = x.id) (hblocked : y.blocked = false)
    (habove : y.blockedAboveOrdinal = 0) (hexecutions : m'.executions = m.executions.insert y)
    (hkeeps : m.KeepsActions m') (hbegun : ∀ k a, m'.actions k = some a → 0 < a.sequence)
    (hx : m.executions x.id = some x) (hambiguity : x.ambiguity = amb.id)
    (hclosed : ambiguityIsOpen amb.state = false)
    (hambiguities : m'.ambiguities = m.ambiguities.insert amb) : m'.Gated := by
  refine h.step hid hexecutions hkeeps hbegun (fun hb => ?_) (fun _ => habove) ?_
  · rw [hblocked] at hb
    cases hb
  · intro k amb' hamb' hopen
    rw [hambiguities] at hamb'
    rcases KeyedMap.insert_eq_some hamb' with ⟨-, rfl⟩ | ⟨hk, hamb'⟩
    · rw [hclosed] at hopen
      cases hopen
    · refine ⟨fun howner => absurd ?_ hk, fun _ => hamb'⟩
      obtain ⟨z, hz, hz'⟩ := h.referenced k amb' hamb' hopen
      rw [howner, hx] at hz
      obtain rfl := Option.some.inj hz
      rw [← m.ambiguities.keyed _ _ hamb', ← hz', hambiguity]

/-- The states an open ambiguity is resolved to, manual resolution apart, are closed. -/
theorem resolvedAmbiguity_closed {request : ResolveAmbiguityRequest} (amb : AmbiguityRecord)
    (h : request.resolution = .resolvedApplied ∨ request.resolution = .accepted ∨
      request.resolution = .resolvedNotApplied ∨ request.resolution = .abandoned) :
    ambiguityIsOpen (resolvedAmbiguity amb request).state = false := by
  unfold resolvedAmbiguity
  dsimp only
  rcases h with h | h | h | h <;> rw [h] <;> rfl

theorem recordedAmbiguity_execution (hc : j.state.image.Coherent ds)
    (hx : j.state.image.executions x.id = some x) (plan : RecoveryPlan) (a : ActionRecord) :
    (recordedAmbiguity j.state x plan a).execution = x.id := by
  rcases recordedAmbiguity_cases j.state x plan a with
    ⟨amb, hsome, -, hrecorded⟩ | ⟨g, r, -, -, -, hrecorded⟩
  · obtain ⟨hvalid, hfound⟩ := currentAmbiguity_some hsome
    obtain ⟨amb', hamb', howner⟩ := hc.ambiguous _ x hx hvalid
    rw [hrecorded, Option.some.inj (hfound.symm.trans hamb')]
    exact howner
  · rw [hrecorded]

/-- A recovery records the open ambiguity the execution has, if it has one. -/
theorem Image.Gated.recorded (h : j.state.image.Gated) (hc : j.state.image.Coherent ds)
    (hfree : CollisionFree ds) (hx : j.state.image.executions x.id = some x) (plan : RecoveryPlan)
    (a : ActionRecord) {k : AmbiguityId} {amb : AmbiguityRecord}
    (hamb : j.state.image.ambiguities k = some amb) (hopen : ambiguityIsOpen amb.state = true)
    (howner : amb.execution = x.id) : recordedAmbiguity j.state x plan a = amb := by
  have hcurrent := h.current hc hfree hx hamb hopen howner
  rcases recordedAmbiguity_cases j.state x plan a with
    ⟨amb', hsome, -, hrecorded⟩ | ⟨g, r, -, hclosed, -, -⟩
  · rw [hrecorded, ← Option.some.inj (hcurrent.symm.trans hsome)]
  · rw [(hclosed amb hcurrent).1] at hopen
    cases hopen

theorem Image.Gated.ambiguous {m' : Image} {y : ExecutionRecord} (h : j.state.image.Gated)
    (hw : Working ds j) (hfree : CollisionFree ds) (hx : j.state.image.executions x.id = some x)
    (ha : plannedAction j.state (planOf j x) = some a) (hid : y.id = x.id)
    (hgate : SameGate (blockedBy j.state x (recordedAmbiguity j.state x (planOf j x) a) a) y)
    (hexecutions : m'.executions = j.state.image.executions.insert y)
    (hactions : m'.actions = j.state.image.actions.insert { a with status := .ambiguous })
    (hambiguities : m'.ambiguities = j.state.image.ambiguities.insert
      (recordedAmbiguity j.state x (planOf j x) a)) : m'.Gated := by
  obtain ⟨hstored, howner, hpos⟩ := h.planned hw hx ha
  obtain ⟨hkeeps, hbegun⟩ := Image.KeepsActions.rewrite (a := { a with status := .ambiguous })
    (b := a) hstored rfl rfl rfl hactions
  have hrecorded : ∀ k amb, j.state.image.ambiguities k = some amb →
      ambiguityIsOpen amb.state = true → amb.execution = x.id →
      recordedAmbiguity j.state x (planOf j x) a = amb := fun k amb =>
    h.recorded hw.coherent hfree hx (planOf j x) a
  have hexecution := recordedAmbiguity_execution hw.coherent hx (planOf j x) a
  obtain ⟨hambiguity, hblock⟩ :=
    blockedBy_gate j.state x (recordedAmbiguity j.state x (planOf j x) a) a
  rw [← hgate.blocked, ← hgate.blockedAboveOrdinal] at hblock
  rw [← hgate.ambiguity] at hambiguity
  generalize recordedAmbiguity j.state x (planOf j x) a = amb at *
  refine h.step hid hexecutions hkeeps (hbegun h.begun) ?_ ?_ ?_
  · intro hb
    rcases hblock with ⟨-, habove⟩ | ⟨hsame, habove⟩
    · refine ⟨a.key, { a with status := .ambiguous }, ?_, howner, ?_⟩
      · rw [hactions]
        exact KeyedMap.insert_self _ _
      · show y.blockedAboveOrdinal < a.sequence
        omega
    · rw [hsame] at hb
      rw [habove]
      obtain ⟨k, b, hb', howner', hlt⟩ := h.behind _ x hx hb
      obtain ⟨b', hb'', howner'', hsequence⟩ := hkeeps k b hb'
      exact ⟨k, b', hb'', howner''.trans howner', hsequence ▸ hlt⟩
  · intro hb
    rcases hblock with ⟨hblocked, -⟩ | ⟨hsame, habove⟩
    · rw [hblocked] at hb
      cases hb
    · rw [habove]
      exact h.clear _ x hx (hsame ▸ hb)
  · intro k amb' hamb' hopen
    rw [hambiguities] at hamb'
    rcases KeyedMap.insert_eq_some hamb' with ⟨-, rfl⟩ | ⟨-, hamb'⟩
    · exact ⟨fun _ => hambiguity, fun hother => absurd hexecution hother⟩
    · refine ⟨fun howner' => ?_, fun _ => hamb'⟩
      rw [hambiguity, hrecorded k amb' hamb' hopen howner']

/-- An open ambiguity of a stored execution is the one it refers to. -/
theorem Image.Gated.refers {m : Image} (h : m.Gated) (hx : m.executions x.id = some x)
    {k : AmbiguityId} {amb : AmbiguityRecord} (hamb : m.ambiguities k = some amb)
    (hopen : ambiguityIsOpen amb.state = true) (howner : amb.execution = x.id) :
    x.ambiguity = amb.id := by
  obtain ⟨z, hz, hz'⟩ := h.referenced k amb hamb hopen
  rw [howner, hx] at hz
  rw [Option.some.inj hz]
  exact hz'

/-- A manual resolution keeps the ambiguity open and blocks its execution. -/
theorem Image.Gated.manual {m' : Image} {k : AmbiguityId} {amb : AmbiguityRecord}
    {request : ResolveAmbiguityRequest} (h : j.state.image.Gated) (hw : Working ds j)
    (hx : j.state.image.executions x.id = some x) (hamb : j.state.image.ambiguities k = some amb)
    (howner : amb.execution = x.id) (hopen : ambiguityIsOpen amb.state = true)
    (ha : j.state.image.actions amb.actionKey = some a)
    (hexecutions : m'.executions = j.state.image.executions.insert { x with blocked := true })
    (heffects : (j.state.image.install (.ambiguity (resolvedAmbiguity amb request))).SameEffects m') :
    m'.Gated := by
  have hcurrent := h.refers hx hamb hopen howner
  refine h.step rfl hexecutions (.of_eq heffects.actions) (heffects.actions ▸ h.begun) ?_ ?_ ?_
  · intro _
    rw [heffects.actions]
    by_cases hblocked : x.blocked = true
    · exact h.behind _ x hx hblocked
    · refine ⟨_, a, ha, (hw.coherent.ambiguous_owner hamb ha).trans howner, ?_⟩
      show x.blockedAboveOrdinal < a.sequence
      rw [h.clear _ x hx (by simpa using hblocked)]
      exact h.begun _ a ha
  · intro hblocked
    cases hblocked
  · intro k' amb' hamb' hopen'
    rw [heffects.ambiguities] at hamb'
    rcases KeyedMap.insert_eq_some hamb' with ⟨-, rfl⟩ | ⟨-, hamb'⟩
    · exact ⟨fun _ => hcurrent, fun hother => absurd howner hother⟩
    · exact ⟨fun howner' => h.refers hx hamb' hopen' howner', fun _ => hamb'⟩

/-- Every transaction keeps the gates. -/
theorem Transaction.gated {i : Intent} {es : List JournalEntry} (hfree : CollisionFree ds)
    (hw : Working ds j) (ht : Transaction j i es) (hmint : Minted ds j.state.store es)
    (h : j.state.image.Gated) : (j.write es).state.image.Gated := by
  have hknown := (ht.working hfree hw hmint).coherent.known
  cases ht.outline with
  | created hi policy hes =>
    subst hes
    rw [Journaled.image_write] at hknown ⊢
    exact h.created policy
      (createdExecution_fresh hfree hw.coherent hknown rfl (KeyedMap.insert_self _ _))
  | @succeeded x y vs hx hsuccession hexecutions heffects =>
    have hstored : j.state.image.executions x.id = some x := hx
    have hid := hsuccession.id
    generalize (j.write es).state.image = m' at *
    cases vs with
    | nil =>
      exact h.steady hstored hid hsuccession.sameGate hexecutions (.of_eq heffects.actions)
        (heffects.actions ▸ h.begun) heffects.ambiguities
    | cons v vs =>
      cases hsuccession with
      | begin request htoken hrunning hblocked =>
        have hblocked' := h.unblocked_of_begun hw hstored request _ hblocked
        exact h.dispatched hw hfree hstored hknown hblocked' hexecutions heffects
      | @complete _ l a request htoken hrunning ha hdefect =>
        have hg := commitGroupOf_promotes j.state x a request.request request.evidence
        exact h.promoted hg hstored (stored_action ha) hid ⟨rfl, rfl, rfl⟩ hexecutions heffects
      | @fail _ l a request htoken ha hambiguous =>
        exact h.rewritten (a := { a with status := .failed, receipt := request.evidence }) (b := a)
          hstored (stored_action ha) rfl rfl rfl ⟨rfl, rfl, rfl⟩ hid hexecutions heffects
      | @report _ l a request htoken ha hambiguous =>
        exact h.rewritten (a := receipted a request.applied request.evidence) (b := a) hstored
          (stored_action ha) rfl rfl rfl ⟨rfl, rfl, rfl⟩ hid hexecutions heffects
      | recoverAmbiguous hlive hopens ha =>
        exact h.ambiguous hw hfree hstored ha hid (sameGate_recoveredFrom _ _ _) hexecutions
          heffects.actions heffects.ambiguities
      | @recoverCommit _ a request hlive hreceipt ha =>
        obtain ⟨hplanned, -, -⟩ := h.planned hw hstored ha
        have hg := commitGroupOf_promotes j.state x a request a.receipt
        exact h.promoted hg hstored hplanned hid (sameGate_recoveredFrom _ _ _) hexecutions heffects
      | @resolveCommit _ amb a request hamb howner hopen ha hresolution =>
        have hcurrent := h.refers hstored hamb hopen howner
        have hg := commitGroupOf_promotes j.state x a request.request request.evidence
        obtain ⟨hkeeps, hbegun⟩ := hg.keepsActions (stored_action ha) heffects.actions
        exact h.unblocked (resolvedAmbiguity amb request) hid rfl rfl hexecutions hkeeps
          (hbegun h.begun) hstored hcurrent
          (resolvedAmbiguity_closed amb (by tauto)) heffects.ambiguities
      | @resolveAction _ amb a request status hamb howner hopen ha hresolution =>
        have hcurrent := h.refers hstored hamb hopen howner
        obtain ⟨hkeeps, hbegun⟩ := Image.KeepsActions.rewrite
          (a := { a with status := status, receipt := request.evidence }) (b := a)
          (stored_action ha) rfl rfl rfl heffects.actions
        exact h.unblocked (resolvedAmbiguity amb request) hid rfl rfl hexecutions hkeeps
          (hbegun h.begun) hstored hcurrent
          (resolvedAmbiguity_closed amb (by tauto)) heffects.ambiguities
      | @resolveManual _ amb a request hamb howner hopen ha hresolution =>
        exact h.manual hw hstored hamb howner hopen ha hexecutions heffects

end Gated

/-! ## Every run -/

theorem Image.Vacant.gated {m : Image} (h : m.Vacant) : m.Gated where
  begun := fun k a ha => by
    rw [h.actions k] at ha
    cases ha
  behind := fun k x hx => by
    rw [h.executions k] at hx
    cases hx
  clear := fun k x hx => by
    rw [h.executions k] at hx
    cases hx
  referenced := fun k amb hamb => by
    rw [h.ambiguities k] at hamb
    cases hamb

theorem Image.Gated.agrees {m m' : Image} (h : m.Gated) (ha : m.Agrees m') : m'.Gated where
  begun := by
    rw [ha.actions]
    exact h.begun
  behind := by
    intro k x hx hblocked
    obtain ⟨y, f, g, hy, rfl⟩ := ha.execution hx
    rw [ha.actions]
    exact h.behind k y hy hblocked
  clear := by
    intro k x hx
    obtain ⟨y, f, g, hy, rfl⟩ := ha.execution hx
    exact h.clear k y hy
  referenced := by
    intro k amb hamb hopen
    rw [ha.ambiguities] at hamb
    obtain ⟨x, hx, hx'⟩ := h.referenced k amb hamb hopen
    obtain ⟨y, f, g, hy, rfl⟩ := ha.symm.execution hx
    exact ⟨y, hy, hx'⟩

theorem Image.Gated.reopened {m : Image} (h : m.Gated) : m.reopened.Gated where
  begun := h.begun
  behind := by
    intro k x hx hblocked
    obtain ⟨y, hy, rfl⟩ := KeyedMap.revise_eq_some id_parkedExecution hx
    have hgate := sameGate_parkedExecution y
    rw [hgate.blocked] at hblocked
    rw [hgate.blockedAboveOrdinal, id_parkedExecution]
    exact h.behind k y hy hblocked
  clear := by
    intro k x hx hblocked
    obtain ⟨y, hy, rfl⟩ := KeyedMap.revise_eq_some id_parkedExecution hx
    have hgate := sameGate_parkedExecution y
    rw [hgate.blocked] at hblocked
    rw [hgate.blockedAboveOrdinal]
    exact h.clear k y hy hblocked
  referenced := by
    intro k amb hamb hopen
    obtain ⟨x, hx, hx'⟩ := h.referenced k amb hamb hopen
    refine ⟨parkedExecution x, ?_, (sameGate_parkedExecution x).ambiguity.trans hx'⟩
    show (m.executions amb.execution).map parkedExecution = _
    rw [hx]
    rfl

/-- Every call is admitted. -/
def anyCall : Runtime → Call → Prop := fun _ _ => True

theorem gated_invariance {ds : List Derivation} (hfree : CollisionFree ds) :
    Invariance ds Image.Gated (fun _ j => j.state.image.Gated) anyCall where
  vacant := fun _ _ h => h.gated
  agrees := fun ha h => h.agrees ha
  transaction := fun _ _ _ hw h ht hmint => ht.gated hfree hw hmint h
  lose := fun hw h ht hmint => ht.gated hfree hw hmint h
  restart := fun _ _ h _ _ himage => himage ▸ h.reopened
  skip := fun h => h
  recover := fun hw h ht hmint => ht.gated hfree hw hmint h
  reopened := fun _ h => h

theorem Runs.anyCall {s s' : Runtime} {events : List Event}
    (hrun : Runs keepsJournal s events s') :
    Runs (keepsJournalAnd ExecutionFabric.anyCall) s events s' :=
  (hrun.mono (I := fun _ => True) trivial fun _ _ _ h => ⟨⟨h, fun _ _ => trivial⟩, trivial⟩).1

/-- Gates hold on disk and in memory, in every state of a collision-free run. -/
theorem gated_of_runs {events : List Event} {s : Runtime} {ds : List Derivation}
    (hrun : Runs keepsJournal {} events s) (hfree : CollisionFree ds) (hds : s.minted ⊆ ds) :
    Kept (preserving Image.Gated (fun _ j => j.state.image.Gated) anyCall) ds s :=
  (gated_invariance hfree).keeps hfree hrun.anyCall kept_start hds

end ExecutionFabric
