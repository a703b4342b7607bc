import ExecutionFabric.Audit.AmbiguityGate
import ExecutionFabric.Audit.RecoveryFrames

/-!
# The block and its ambiguity

A block is justified when its execution refers to an open ambiguity of an Ambiguous
action, the block ends right below that action, and no committed progress lies above
it. A recovery may block below progress that is already committed, and a manual
resolution blocks without setting the ordinal; `BlocksWrongly` names those calls. Every
other call keeps `Image.Blocking`.
-/
namespace ExecutionFabric

open Lib

/-- The block of the execution `e` ends right below the action of the open ambiguity it refers to,
and its progress does not reach beyond the block. -/
def Image.Justified (m : Image) (e : ExecutionId) : Prop :=
  ∀ x, m.executions e = some x → x.blocked = true →
    (∃ amb, m.ambiguitiesOf e x.ambiguity = some amb ∧ ambiguityIsOpen amb.state = true ∧
      x.blockedAboveOrdinal + 1 = amb.actionOrdinal) ∧
    ∀ k p, m.progressOf e k = some p → p.ordinal ≤ x.blockedAboveOrdinal

/-- Blocks are justified, and the action of every open ambiguity is Ambiguous. -/
structure Image.Blocking (m : Image) : Prop where
  gated : m.Gated
  pending : ∀ k amb, m.ambiguities k = some amb → ambiguityIsOpen amb.state = true →
    ∃ a, m.actions amb.actionKey = some a ∧ a.status = .ambiguous ∧ a.sequence = amb.actionOrdinal
  justified : ∀ e, m.Justified e

/-- Committed progress of the execution has reached the ordinal. -/
def Reached (st : DurableState) (e : ExecutionId) (ordinal : Nat) : Prop :=
  ∃ k p, st.progress.find k = some p ∧ p.execution = e ∧ p.committed = true ∧ ordinal ≤ p.ordinal

/-- A recovery would block `x` below an action that committed progress has already reached. -/
structure BlocksLate (j : Journaled) (x : ExecutionRecord) : Prop where
  unblocked : x.blocked = false
  opens : opensAmbiguity (planOf j x).decision = true
  policy : ((policyOf j.state x).all fun p => p.ambiguityBlocksLaterProgress) = true
  reached : ∃ a, plannedAction j.state (planOf j x) = some a ∧ Reached j.state x.id a.sequence

/-- The manual resolution would block an unblocked execution, whose block then ends at zero,
although the ambiguous action is not the first one or progress is already committed. -/
structure BlocksManually (s : Runtime) (request : ResolveAmbiguityRequest) (x : ExecutionRecord)
    (amb : AmbiguityRecord) : Prop where
  caller : checkCaller s request.caller = .ok ()
  execution : s.state.executions.find request.execution = some x
  ambiguity : s.state.ambiguities.find request.ambiguity = some amb
  owner : amb.execution = request.execution
  generation : amb.generation = request.ambiguityGeneration
  isOpen : ambiguityIsOpen amb.state = true
  manual : request.resolution = .manualResolutionRequired
  unblocked : x.blocked = false
  misplaced : amb.actionOrdinal ≠ 1 ∨ Reached s.state x.id 1

/-- The calls that leave a block its ambiguity does not justify. -/
def BlocksWrongly (s : Runtime) : Call → Prop
  | .recover caller _ e => checkCaller s caller = .ok () ∧
      ∃ x, s.state.executions.find e = some x ∧ BlocksLate s.toJournaled x
  | .resolveAmbiguity request => ∃ x amb, BlocksManually s request x amb
  | .openRuntime config entropy => ∃ j, Reloads s config entropy j ∧
      ∃ x, (j.write (restartRecords j)).state.executions.find x.id = some x ∧
        x.lifecycle = .recoveryRequired ∧ BlocksLate (j.write (restartRecords j)) x
  | _ => False

/-! ## One transaction -/

section Steps

variable {ds : List Derivation} {m m' : Image} {e : ExecutionId} {x y : ExecutionRecord}

theorem Image.Justified.untouched (h : m.Justified e) (hu : m.Untouched e m') : m'.Justified e := by
  intro z hz hblocked
  rw [hu.execution] at hz
  obtain ⟨⟨amb, hamb, hopen, habove⟩, hprogress⟩ := h z hz hblocked
  exact ⟨⟨amb, hu.ambiguities ▸ hamb, hopen, habove⟩, fun k p hp => hprogress k p (hu.progress ▸ hp)⟩

/-- A step that leaves gates, ambiguities and progress as they are. -/
theorem Image.Justified.steady (h : ∀ e, m.Justified e) (hx : m.executions x.id = some x)
    (hid : y.id = x.id) (hgate : SameGate x y)
    (hexecutions : m'.executions = m.executions.insert y)
    (hambiguities : m'.ambiguities = m.ambiguities)
    (hprogress : m'.progress = m.progress) (e : ExecutionId) : m'.Justified e := by
  intro z hz hblocked
  unfold Image.ambiguitiesOf Image.progressOf
  rw [hambiguities, hprogress]
  rw [hexecutions] at hz
  rcases KeyedMap.insert_eq_some hz with ⟨rfl, rfl⟩ | ⟨-, hz⟩
  · rw [hgate.blocked] at hblocked
    rw [hgate.ambiguity, hgate.blockedAboveOrdinal, hid]
    exact h x.id x hx hblocked
  · exact h e z hz hblocked

/-- Only the justification of the execution a transaction is about has to be shown. -/
theorem Image.Justified.own (h : ∀ e, m.Justified e) (hid : y.id = x.id)
    (hexecutions : m'.executions = m.executions.insert y)
    (huntouched : ∀ e, e ≠ x.id → (∃ z, m.executions e = some z) → m.Untouched e m')
    (hown : y.blocked = true →
      (∃ amb, m'.ambiguitiesOf x.id y.ambiguity = some amb ∧ ambiguityIsOpen amb.state = true ∧
        y.blockedAboveOrdinal + 1 = amb.actionOrdinal) ∧
      ∀ k p, m'.progressOf x.id k = some p → p.ordinal ≤ y.blockedAboveOrdinal)
    (e : ExecutionId) : m'.Justified e := by
  by_cases he : e = x.id
  · subst he
    intro z hz hblocked
    rw [hexecutions, ← hid, KeyedMap.insert_self] at hz
    obtain rfl := Option.some.inj hz
    exact hown hblocked
  · intro z hz hblocked
    have hold := hz
    rw [hexecutions, KeyedMap.insert_of_ne _ (fun h => he (h.trans hid))] at hold
    exact (h e).untouched (huntouched e he ⟨z, hold⟩) z hz hblocked

/-- A step that rewrites one action that is not Ambiguous leaves every open ambiguity pending. -/
theorem Image.Blocking.pending_rewrite (h : m.Blocking) {a : ActionRecord}
    (hunambiguous : ∀ b, m.actions a.key = some b → b.status ≠ .ambiguous)
    (hactions : m'.actions = m.actions.insert a)
    {k : AmbiguityId} {amb : AmbiguityRecord} (hamb : m.ambiguities k = some amb)
    (hopen : ambiguityIsOpen amb.state = true) :
    ∃ b, m'.actions amb.actionKey = some b ∧ b.status = .ambiguous ∧
      b.sequence = amb.actionOrdinal := by
  obtain ⟨b, hb, hstatus, hordinal⟩ := h.pending k amb hamb hopen
  have hkey : amb.actionKey ≠ a.key := by
    intro hkey
    exact hunambiguous b (hkey ▸ hb) hstatus
  refine ⟨b, ?_, hstatus, hordinal⟩
  rw [hactions]
  exact (KeyedMap.insert_of_ne _ hkey).trans hb

theorem Image.ambiguitiesOf_eq_some {k : AmbiguityId} {amb : AmbiguityRecord} :
    m.ambiguitiesOf e k = some amb ↔ m.ambiguities k = some amb ∧ amb.execution = e := by
  unfold Image.ambiguitiesOf
  rw [Option.filter_eq_some_iff]
  simp

theorem Image.progressOf_eq_some {k : ProgressId} {p : ProgressRecord} :
    m.progressOf e k = some p ↔ m.progress k = some p ∧ p.execution = e := by
  unfold Image.progressOf
  rw [Option.filter_eq_some_iff]
  simp

end Steps

/-! ## Actions and their keys -/

section Actions

variable {ds : List Derivation} {j : Journaled} {x : ExecutionRecord}

/-- The action `begin_action` dispatches is not stored yet. -/
theorem begunAction_fresh (hfree : CollisionFree ds) (hw : Working ds j)
    (hx : j.state.image.executions x.id = some x) (request : BeginActionRequest)
    (hnamed : Named ds (.action x.id
      (begunAction x request (redriven x (j.latestAction x.id))).sequence)
      (begunAction x request (redriven x (j.latestAction x.id))).id) :
    j.state.image.actions
      (begunAction x request (redriven x (j.latestAction x.id))).key = none := by
  cases hstored : j.state.image.actions
      (begunAction x request (redriven x (j.latestAction x.id))).key with
  | none => rfl
  | some b =>
    exfalso
    have hkey := j.state.image.actions.keyed _ _ hstored
    obtain ⟨howner, hsequence⟩ := hw.coherent.known.action_unique hfree hnamed hstored
    cases hredriven : redriven x (j.latestAction x.id) with
    | none =>
      rw [hredriven] at hsequence
      have hle := hw.frontier _ b x hstored (howner ▸ hx)
      have hnext : b.sequence = x.actionFrontier + 1 := hsequence
      omega
    | some c =>
      obtain ⟨hlatest, hfrontier⟩ := Option.filter_eq_some_iff.mp hredriven
      have hc := hw.indexed.latest hlatest
      simp only [decide_eq_true_eq] at hfrontier
      rw [hredriven] at hkey hnamed
      have hcnamed := hw.coherent.known.actions _ c hc.stored
      rw [hc.owner, hfrontier.1] at hcnamed
      have hid := hcnamed.same hnamed
      have hgreater : c.key < b.key := by
        rw [hkey, ActionKey.lt_iff]
        exact .inr ⟨congrArg (fun i : ActionId => i.value.toNat) hid, Nat.lt_succ_self _⟩
      rcases hc.greatest _ b hstored howner with heq | hlt
      · rw [heq] at hgreater
        exact ActionKey.lt_irrefl _ hgreater
      · exact ActionKey.lt_irrefl _ (ActionKey.lt_trans hgreater hlt)

/-- An action that can be completed is not Ambiguous. -/
theorem completionDefect_unambiguous {request : CompleteActionRequest} {a : ActionRecord}
    (h : completionDefect x request a = none) : a.status ≠ .ambiguous := by
  intro hstatus
  unfold completionDefect at h
  rw [hstatus] at h
  simp only [true_or, if_true] at h
  repeat' split at h
  all_goals cases h

/-- An action a recovery commits carries a receipt and is not Ambiguous, and no ambiguity of its
execution is open. -/
theorem Planned.receipt {a : ActionRecord} (h : Planned j x a)
    (hreceipt : (planOf j x).commitFromReceipt = true) : a.status ≠ .ambiguous ∧
      ∀ amb, currentAmbiguity j.state x = some amb → ambiguityIsOpen amb.state = false := by
  cases h with
  | ambiguous amb hamb hopen ha hopens hnone =>
    rw [hnone] at hreceipt
    cases hreceipt
  | interrupted hclosed ha hstatus hjudged =>
    refine ⟨?_, hclosed⟩
    intro hambiguous
    rw [hreceipt] at hjudged
    generalize (planOf j x).decision = d at hjudged
    cases hjudged with
    | receipt h =>
      rcases h with h | h <;> rw [h] at hambiguous <;> cases hambiguous

end Actions

/-! ## The execution a transaction is about -/

section Own

variable {ds : List Derivation} {j : Journaled} {m' : Image} {x y : ExecutionRecord}

/-- The justification of a blocked execution, with its ambiguity as the current one. -/
theorem Image.Blocking.current (h : j.state.image.Blocking) (hw : Working ds j)
    (hx : j.state.image.executions x.id = some x) (hfree : CollisionFree ds)
    (hblocked : x.blocked = true) :
    ∃ amb, currentAmbiguity j.state x = some amb ∧ ambiguityIsOpen amb.state = true ∧
      j.state.image.ambiguities amb.id = some amb ∧ amb.execution = x.id ∧
      x.blockedAboveOrdinal + 1 = amb.actionOrdinal := by
  obtain ⟨⟨amb, hamb, hopen, habove⟩, -⟩ := h.justified x.id x hx hblocked
  obtain ⟨hstored, howner⟩ := Image.ambiguitiesOf_eq_some.mp hamb
  exact ⟨amb, h.gated.current hw.coherent hfree hx hstored hopen howner, hopen,
    stored_ambiguity hstored, howner, habove⟩

/-- The ambiguity a recovery records is open, belongs to its execution, and has the ordinal of the
planned action. -/
theorem Image.Blocking.recorded (h : j.state.image.Blocking) (hw : Working ds j)
    (hx : j.state.image.executions x.id = some x) {a : ActionRecord}
    (ha : plannedAction j.state (planOf j x) = some a) :
    ambiguityIsOpen (recordedAmbiguity j.state x (planOf j x) a).state = true ∧
      (recordedAmbiguity j.state x (planOf j x) a).execution = x.id ∧
      (recordedAmbiguity j.state x (planOf j x) a).actionKey = a.key ∧
      (recordedAmbiguity j.state x (planOf j x) a).actionOrdinal = a.sequence := by
  have hexecution := recordedAmbiguity_execution hw.coherent hx (planOf j x) a
  refine ⟨?_, hexecution, ?_⟩
  · rcases recordedAmbiguity_cases j.state x (planOf j x) a with
      ⟨amb, -, hopen, hrecorded⟩ | ⟨g, r, -, -, -, hrecorded⟩
    · rw [hrecorded]
      exact hopen
    · rw [hrecorded]
      dsimp only
      split <;> rfl
  · cases planned_of_plannedAction ha with
    | ambiguous amb hamb hopen hstored hopens hreceipt =>
      have hrecorded : recordedAmbiguity j.state x (planOf j x) a = amb := by
        unfold recordedAmbiguity
        rw [hamb]
        exact if_pos hopen
      rw [hrecorded]
      obtain ⟨b, hb, -, hordinal⟩ := h.pending _ amb (currentAmbiguity_some hamb).2 hopen
      obtain rfl := Option.some.inj (hstored.symm.trans hb)
      exact ⟨(j.state.image.actions.keyed _ _ hstored).symm, hordinal.symm⟩
    | interrupted hclosed hlatest hstatus hjudged =>
      rcases recordedAmbiguity_cases j.state x (planOf j x) a with
        ⟨amb, hamb, hopen, -⟩ | ⟨g, r, -, -, -, hrecorded⟩
      · rw [hclosed amb hamb] at hopen
        cases hopen
      · rw [hrecorded]
        exact ⟨rfl, rfl⟩

/-- The block a recovery leaves is justified unless it blocks too late. -/
theorem Image.Blocking.blockedBy (h : j.state.image.Blocking) (hw : Working ds j)
    (hfree : CollisionFree ds) (hx : j.state.image.executions x.id = some x) {a : ActionRecord}
    (hopens : opensAmbiguity (planOf j x).decision = true)
    (ha : plannedAction j.state (planOf j x) = some a) (hlate : ¬ BlocksLate j x)
    (hblocked : (ExecutionFabric.blockedBy j.state x
      (recordedAmbiguity j.state x (planOf j x) a) a).blocked = true) :
    (ExecutionFabric.blockedBy j.state x (recordedAmbiguity j.state x (planOf j x) a)
        a).blockedAboveOrdinal + 1 = a.sequence ∧
      ∀ k p, j.state.image.progressOf x.id k = some p → p.ordinal + 1 ≤ a.sequence := by
  obtain ⟨-, -, -, hordinal⟩ := h.recorded hw hx ha
  obtain ⟨-, -, hpos⟩ := h.gated.planned hw hx ha
  by_cases hold : x.blocked = true
  · obtain ⟨amb, hcurrent, hopen, -, -, habove⟩ := h.current hw hx hfree hold
    have hrecorded : recordedAmbiguity j.state x (planOf j x) a = amb := by
      unfold recordedAmbiguity
      rw [hcurrent]
      exact if_pos hopen
    rw [hrecorded] at hordinal ⊢
    obtain ⟨-, hprogress⟩ := h.justified x.id x hx hold
    obtain ⟨-, hblock⟩ := blockedBy_gate j.state x amb a
    refine ⟨?_, fun k p hp => ?_⟩
    · rcases hblock with ⟨-, hnew⟩ | ⟨-, hsame⟩ <;> omega
    · have := hprogress k p hp
      omega
  · have hunblocked : x.blocked = false := by simpa using hold
    unfold ExecutionFabric.blockedBy at hblocked ⊢
    dsimp only at hblocked ⊢
    split at hblocked
    next hpolicy =>
      rw [if_pos hpolicy]
      refine ⟨Nat.sub_add_cancel hpos, fun k p hp => ?_⟩
      by_contra hreach
      obtain ⟨hstored, howner⟩ := Image.progressOf_eq_some.mp hp
      refine hlate ⟨hunblocked, hopens, hpolicy, a, ha, k, p, hstored, howner, ?_, by omega⟩
      exact (hw.coherent.chained.promoted k p hstored).1
    next =>
      rw [hunblocked] at hblocked
      cases hblocked

end Own

/-! ## Every transaction -/

section Transactions

variable {ds : List Derivation} {m m' : Image} {x y : ExecutionRecord}

/-- A step that changes no ambiguity, no progress, and no gate. -/
theorem Image.Blocking.steady (h : m.Blocking) (hgated : m'.Gated)
    (hx : m.executions x.id = some x) (hid : y.id = x.id) (hgate : SameGate x y)
    (hexecutions : m'.executions = m.executions.insert y)
    (hambiguities : m'.ambiguities = m.ambiguities) (hprogress : m'.progress = m.progress)
    (hactions : m'.actions = m.actions ∨ ∃ a, m'.actions = m.actions.insert a ∧
      ∀ b, m.actions a.key = some b → b.status ≠ .ambiguous) : m'.Blocking where
  gated := hgated
  pending := by
    intro k amb hamb hopen
    rw [hambiguities] at hamb
    rcases hactions with hactions | ⟨a, hactions, hunambiguous⟩
    · rw [hactions]
      exact h.pending k amb hamb hopen
    · exact h.pending_rewrite hunambiguous hactions hamb hopen
  justified := Image.Justified.steady h.justified hx hid hgate hexecutions hambiguities hprogress

/-- A commit of an action that is not Ambiguous and not above the block. -/
theorem Image.Blocking.promoted (h : m.Blocking) (hgated : m'.Gated)
    {a : ActionRecord} {g : CommitGroupRecord} (hg : Promotes x a g)
    (hx : m.executions x.id = some x) (ha : m.actions a.key = some a)
    (hunambiguous : a.status ≠ .ambiguous) (hid : y.id = x.id) (hgate : SameGate g.execution y)
    (hexecutions : m'.executions = m.executions.insert y)
    (heffects : (m.install (.commitGroup g)).SameEffects m')
    (huntouched : ∀ e, e ≠ x.id → (∃ z, m.executions e = some z) → m.Untouched e m')
    (hbelow : x.blocked = true → a.sequence ≤ x.blockedAboveOrdinal) : m'.Blocking where
  gated := hgated
  pending := by
    intro k amb hamb hopen
    obtain ⟨evidence, haction⟩ := hg.action
    rw [heffects.ambiguities] at hamb
    refine h.pending_rewrite (a := g.action) ?_ heffects.actions hamb hopen
    rw [haction]
    intro b hb
    rw [← Option.some.inj (ha.symm.trans hb)]
    exact hunambiguous
  justified := by
    refine Image.Justified.own h.justified hid hexecutions huntouched ?_
    have hsame := hg.sameGate.trans hgate
    rw [hsame.blocked, hsame.ambiguity, hsame.blockedAboveOrdinal]
    intro hblocked
    obtain ⟨hambiguity, hprogress⟩ := h.justified x.id x hx hblocked
    refine ⟨?_, ?_⟩
    · unfold Image.ambiguitiesOf
      rw [heffects.ambiguities]
      exact hambiguity
    · intro k p hp
      obtain ⟨hstored, howner⟩ := Image.progressOf_eq_some.mp hp
      rw [heffects.progress] at hstored
      rcases KeyedMap.insert_eq_some hstored with ⟨-, rfl⟩ | ⟨-, hold⟩
      · rw [hg.ordinal]
        exact hbelow hblocked
      · exact hprogress k p (Image.progressOf_eq_some.mpr ⟨hold, howner⟩)

/-- A resolution that closes the open ambiguity of its execution and lifts the block. -/
theorem Image.Blocking.closed (h : m.Blocking) (hgated : m'.Gated)
    (hc : m.Coherent ds) {amb amb' : AmbiguityRecord} {a b : ActionRecord}
    (hx : m.executions x.id = some x) {k : AmbiguityId} (hamb : m.ambiguities k = some amb)
    (howner : amb.execution = x.id) (hopen : ambiguityIsOpen amb.state = true)
    (hb : m.actions amb.actionKey = some b) (hkey : a.key = b.key) (hid : y.id = x.id)
    (hunblocked : y.blocked = false) (hexecutions : m'.executions = m.executions.insert y)
    (hactions : m'.actions = m.actions.insert a)
    (hambiguities : m'.ambiguities = m.ambiguities.insert amb') (hsame : amb'.id = amb.id)
    (hclosed : ambiguityIsOpen amb'.state = false)
    (huntouched : ∀ e, e ≠ x.id → (∃ z, m.executions e = some z) → m.Untouched e m') :
    m'.Blocking where
  gated := hgated
  pending := by
    intro k' other hother hopen'
    rw [hambiguities] at hother
    rcases KeyedMap.insert_eq_some hother with ⟨-, rfl⟩ | ⟨hne, hother⟩
    · rw [hclosed] at hopen'
      cases hopen'
    · obtain ⟨c, hfound, hstatus, hordinal⟩ := h.pending k' other hother hopen'
      refine ⟨c, ?_, hstatus, hordinal⟩
      rw [hactions]
      refine (KeyedMap.insert_of_ne _ fun heq => hne ?_).trans hfound
      -- two open ambiguities of one action belong to one execution, which refers to both
      rw [heq, hkey, stored_action hb] at hfound
      obtain rfl := Option.some.inj hfound
      have hboth : other.execution = x.id := by
        rw [← hc.ambiguous_owner hother (heq ▸ hkey ▸ stored_action hb),
          hc.ambiguous_owner hamb hb, howner]
      rw [← m.ambiguities.keyed _ _ hother, ← h.gated.refers hx hother hopen' hboth,
        h.gated.refers hx hamb hopen howner, hsame]
  justified := by
    refine Image.Justified.own h.justified hid hexecutions huntouched fun hblocked => ?_
    rw [hunblocked] at hblocked
    cases hblocked

end Transactions

section Blocking

variable {ds : List Derivation} {j : Journaled}

/-- The recovery `i` stands for would not block its execution too late. -/
def Timely (j : Journaled) (i : Intent) : Prop :=
  ∀ x, i = .recover x.id → j.state.image.executions x.id = some x → ¬ BlocksLate j x

/-- The manual resolution `i` stands for would not misplace a block. -/
def Placed (j : Journaled) (i : Intent) : Prop :=
  ∀ x amb, i = .resolve x.id amb.id .manualResolutionRequired →
    j.state.image.executions x.id = some x → j.state.image.ambiguities amb.id = some amb →
    amb.execution = x.id → ambiguityIsOpen amb.state = true → x.blocked = false →
    amb.actionOrdinal = 1 ∧ ¬ Reached j.state x.id 1

/-- A recovery that records an ambiguity. -/
theorem Image.Blocking.ambiguous {m' : Image} {x y : ExecutionRecord} {a : ActionRecord}
    (h : j.state.image.Blocking) (hgated : m'.Gated) (hw : Working ds j) (hfree : CollisionFree ds)
    (hx : j.state.image.executions x.id = some x)
    (hopens : opensAmbiguity (planOf j x).decision = true)
    (ha : plannedAction j.state (planOf j x) = some a) (hlate : ¬ BlocksLate j x)
    (hid : y.id = x.id)
    (hgate : SameGate (ExecutionFabric.blockedBy j.state x
      (recordedAmbiguity j.state x (planOf j x) a) a) y)
    (hexecutions : m'.executions = j.state.image.executions.insert y)
    (heffects : (j.state.image.installAll [.ambiguity (recordedAmbiguity j.state x (planOf j x) a),
      .action { a with status := .ambiguous }]).SameEffects m')
    (huntouched : ∀ e, e ≠ x.id → (∃ z, j.state.image.executions e = some z) →
      j.state.image.Untouched e m') : m'.Blocking := by
  obtain ⟨hopen, howner, hkey, hordinal⟩ := h.recorded hw hx ha
  obtain ⟨hpoints, -⟩ := blockedBy_gate j.state x (recordedAmbiguity j.state x (planOf j x) a) a
  have hblock := h.blockedBy hw hfree hx hopens ha hlate
  obtain ⟨hstored, -, -⟩ := h.gated.planned hw hx ha
  rw [← hgate.blocked, ← hgate.blockedAboveOrdinal] at hblock
  rw [← hgate.ambiguity] at hpoints
  have hactions : m'.actions = j.state.image.actions.insert { a with status := .ambiguous } :=
    heffects.actions
  have hambiguities : m'.ambiguities = j.state.image.ambiguities.insert
    (recordedAmbiguity j.state x (planOf j x) a) := heffects.ambiguities
  have hprogress : m'.progress = j.state.image.progress := heffects.progress
  clear heffects
  generalize recordedAmbiguity j.state x (planOf j x) a = amb at *
  have hself : m'.actions a.key = some { a with status := .ambiguous } := by
    rw [hactions]
    exact KeyedMap.insert_self _ _
  refine ⟨hgated, ?_, Image.Justified.own h.justified hid hexecutions huntouched ?_⟩
  · intro k other hother hopen'
    rw [hambiguities] at hother
    rcases KeyedMap.insert_eq_some hother with ⟨-, rfl⟩ | ⟨-, hother⟩
    · exact ⟨{ a with status := .ambiguous }, hkey ▸ hself, rfl, hordinal.symm⟩
    · obtain ⟨b, hb, hstatus, hb'⟩ := h.pending k other hother hopen'
      by_cases hsame : other.actionKey = a.key
      · rw [hsame, hstored] at hb
        obtain rfl := Option.some.inj hb
        exact ⟨{ a with status := .ambiguous }, hsame ▸ hself, rfl, hb'⟩
      · refine ⟨b, ?_, hstatus, hb'⟩
        rw [hactions]
        exact (KeyedMap.insert_of_ne (r := { a with status := .ambiguous }) _ hsame).trans hb
  · intro hblocked
    obtain ⟨habove, hreached⟩ := hblock hblocked
    refine ⟨⟨amb, ?_, hopen, habove.trans hordinal.symm⟩, fun k p hp => ?_⟩
    · rw [hpoints, Image.ambiguitiesOf_eq_some, hambiguities]
      exact ⟨KeyedMap.insert_self _ _, howner⟩
    · unfold Image.progressOf at hp
      rw [hprogress] at hp
      have := hreached k p hp
      omega

/-- A manual resolution that blocks where the ambiguous action stands, or keeps a block. -/
theorem Image.Blocking.manual {m' : Image} {x : ExecutionRecord} {k : AmbiguityId}
    {amb : AmbiguityRecord} {request : ResolveAmbiguityRequest} (h : j.state.image.Blocking)
    (hgated : m'.Gated) (hw : Working ds j) (hx : j.state.image.executions x.id = some x)
    (hamb : j.state.image.ambiguities k = some amb) (howner : amb.execution = x.id)
    (hopen : ambiguityIsOpen amb.state = true)
    (hresolution : request.resolution = .manualResolutionRequired)
    (hplaced : x.blocked = false → amb.actionOrdinal = 1 ∧ ¬ Reached j.state x.id 1)
    (hexecutions : m'.executions = j.state.image.executions.insert { x with blocked := true })
    (heffects : (j.state.image.install (.ambiguity (resolvedAmbiguity amb request))).SameEffects m')
    (huntouched : ∀ e, e ≠ x.id → (∃ z, j.state.image.executions e = some z) →
      j.state.image.Untouched e m') : m'.Blocking := by
  have hpoints := h.gated.refers hx hamb hopen howner
  have hstill : ambiguityIsOpen (resolvedAmbiguity amb request).state = true := by
    unfold resolvedAmbiguity
    dsimp only
    rw [hresolution]
    rfl
  have hambiguities : m'.ambiguities =
    j.state.image.ambiguities.insert (resolvedAmbiguity amb request) := heffects.ambiguities
  have hprogress : m'.progress = j.state.image.progress := heffects.progress
  have hactions : m'.actions = j.state.image.actions := heffects.actions
  refine ⟨hgated, ?_, Image.Justified.own h.justified rfl hexecutions huntouched fun _ => ⟨?_, ?_⟩⟩
  · intro k' other hother hopen'
    rw [hactions]
    rw [hambiguities] at hother
    rcases KeyedMap.insert_eq_some hother with ⟨-, rfl⟩ | ⟨-, hother⟩
    · exact h.pending k amb hamb hopen
    · exact h.pending k' other hother hopen'
  · refine ⟨resolvedAmbiguity amb request, ?_, hstill, ?_⟩
    · rw [Image.ambiguitiesOf_eq_some, hambiguities]
      refine ⟨?_, howner⟩
      show (j.state.image.ambiguities.insert (resolvedAmbiguity amb request)) x.ambiguity = _
      rw [hpoints]
      exact KeyedMap.insert_self _ _
    · show x.blockedAboveOrdinal + 1 = amb.actionOrdinal
      by_cases hblocked : x.blocked = true
      · obtain ⟨⟨amb', hamb', -, habove⟩, -⟩ := h.justified x.id x hx hblocked
        obtain ⟨hstored, -⟩ := Image.ambiguitiesOf_eq_some.mp hamb'
        rw [hpoints] at hstored
        obtain rfl := Option.some.inj ((stored_ambiguity hamb).symm.trans hstored)
        exact habove
      · have hunblocked : x.blocked = false := by simpa using hblocked
        rw [h.gated.clear _ x hx hunblocked, (hplaced hunblocked).1]
  · intro k' p hp
    unfold Image.progressOf at hp
    rw [hprogress] at hp
    show p.ordinal ≤ x.blockedAboveOrdinal
    by_cases hblocked : x.blocked = true
    · exact (h.justified x.id x hx hblocked).2 k' p hp
    · have hunblocked : x.blocked = false := by simpa using hblocked
      by_contra hlt
      obtain ⟨hstored, hp'⟩ := Image.progressOf_eq_some.mp hp
      exact (hplaced hunblocked).2 ⟨k', p, hstored, hp',
        (hw.coherent.chained.promoted k' p hstored).1, by omega⟩

/-- A transaction that neither blocks late nor misplaces a block keeps blocks justified. -/
theorem Transaction.blocking {i : Intent} {es : List JournalEntry} (hfree : CollisionFree ds)
    (hw : Working ds j) (ht : Transaction j i es) (hmint : Minted ds j.state.store es)
    (htimely : Timely j i) (hplaced : Placed j i) (h : j.state.image.Blocking) :
    (j.write es).state.image.Blocking := by
  have hgated := ht.gated hfree hw hmint h.gated
  have hknown := (ht.working hfree hw hmint).coherent.known
  have hothers : (∀ e key applied, i ≠ .report e key applied) → ∀ e, i.subject ≠ some e →
      (∃ z, j.state.image.executions e = some z) →
      j.state.image.Untouched e (j.write es).state.image :=
    fun hreport e hother hstored => ht.untouched hfree hw hmint hreport hother hstored
  cases ht.outline with
  | created hi policy hes =>
    subst hes hi
    rw [Journaled.image_write] at hgated hknown ⊢
    have hnone := createdExecution_fresh hfree hw.coherent hknown rfl (KeyedMap.insert_self _ _)
    refine ⟨hgated, h.pending, fun e z hz hblocked => ?_⟩
    rcases KeyedMap.insert_eq_some hz with ⟨-, rfl⟩ | ⟨-, hz⟩
    · cases hblocked
    · exact h.justified e z hz hblocked
  | @succeeded x y vs hx hsuccession hexecutions heffects =>
    have hstored : j.state.image.executions x.id = some x := hx
    have hid := hsuccession.id
    generalize (j.write es).state.image = m' at *
    cases vs with
    | nil =>
      exact h.steady hgated hstored hid hsuccession.sameGate hexecutions heffects.ambiguities
        heffects.progress (.inl heffects.actions)
    | cons v vs =>
      cases hsuccession with
      | begin request htoken hrunning hblocked =>
        have hunblocked := h.gated.unblocked_of_begun hw hstored request _ hblocked
        have hclear := h.gated.clear _ x hstored hunblocked
        have hself : m'.actions (begunAction x request (redriven x (j.latestAction x.id))).key =
            some (begunAction x request (redriven x (j.latestAction x.id))) := by
          rw [heffects.actions]
          exact KeyedMap.insert_self _ _
        have hfresh := begunAction_fresh hfree hw hstored request (hknown.actions _ _ hself)
        refine h.steady hgated hstored hid ⟨hunblocked.symm, hclear.symm, rfl⟩ hexecutions
          heffects.ambiguities heffects.progress (.inr ⟨_, heffects.actions, fun b hb => ?_⟩)
        rw [hfresh] at hb
        cases hb
      | @complete _ l a request htoken hrunning ha hdefect =>
        exact h.promoted hgated (commitGroupOf_promotes j.state x a request.request request.evidence)
          hstored (stored_action ha) (completionDefect_unambiguous hdefect) hid ⟨rfl, rfl, rfl⟩
          hexecutions heffects
          (fun e he => hothers (fun _ _ _ h => by cases h) e fun h => he (Option.some.inj h).symm)
          (completionDefect_below hdefect)
      | @fail _ l a request htoken ha hambiguous =>
        refine h.steady hgated hstored hid ⟨rfl, rfl, rfl⟩ hexecutions heffects.ambiguities
          heffects.progress (.inr ⟨_, heffects.actions, fun b hb => ?_⟩)
        rw [Option.some.inj (hb.symm.trans (stored_action (a := a) ha))]
        exact hambiguous
      | @report _ l a request htoken ha hambiguous =>
        refine h.steady hgated hstored hid ⟨rfl, rfl, rfl⟩ hexecutions heffects.ambiguities
          heffects.progress (.inr ⟨_, heffects.actions, fun b hb => ?_⟩)
        rw [Option.some.inj (hb.symm.trans (stored_action (a := a) ha))]
        exact hambiguous
      | recoverAmbiguous hlive hopens ha =>
        exact h.ambiguous hgated hw hfree hstored hopens ha (htimely x rfl hstored) hid
          (sameGate_recoveredFrom _ _ _) hexecutions heffects
          (fun e he => hothers (fun _ _ _ h => by cases h) e fun h => he (Option.some.inj h).symm)
      | @recoverCommit _ a request hlive hreceipt ha =>
        obtain ⟨hplanned, -, -⟩ := h.gated.planned hw hstored ha
        obtain ⟨hunambiguous, hclosed⟩ := (planned_of_plannedAction ha).receipt hreceipt
        refine h.promoted hgated (commitGroupOf_promotes j.state x a request a.receipt) hstored
          hplanned hunambiguous hid (sameGate_recoveredFrom _ _ _) hexecutions heffects
          (fun e he => hothers (fun _ _ _ h => by cases h) e fun h => he (Option.some.inj h).symm) ?_
        intro hblocked
        obtain ⟨amb, hcurrent, hopen, -⟩ := h.current hw hstored hfree hblocked
        rw [hclosed amb hcurrent] at hopen
        cases hopen
      | @resolveCommit _ amb a request hamb howner hopen ha hresolution =>
        obtain ⟨evidence, haction⟩ :=
          (commitGroupOf_promotes j.state x a request.request request.evidence).action
        exact h.closed hgated hw.coherent hstored hamb howner hopen ha (by rw [haction]; rfl) hid rfl
          hexecutions heffects.actions heffects.ambiguities rfl
          (resolvedAmbiguity_closed amb (by tauto))
          (fun e he => hothers (fun _ _ _ h => by cases h) e fun h => he (Option.some.inj h).symm)
      | @resolveAction _ amb a request status hamb howner hopen ha hresolution =>
        exact h.closed (a := { a with status := status, receipt := request.evidence }) hgated
          hw.coherent hstored hamb howner hopen ha rfl hid rfl hexecutions heffects.actions
          heffects.ambiguities rfl (resolvedAmbiguity_closed amb (by tauto))
          (fun e he => hothers (fun _ _ _ h => by cases h) e fun h => he (Option.some.inj h).symm)
      | @resolveManual _ amb a request hamb howner hopen ha hresolution =>
        refine h.manual hgated hw hstored hamb howner hopen hresolution ?_ hexecutions heffects
          (fun e he => hothers (fun _ _ _ h => by cases h) e fun h => he (Option.some.inj h).symm)
        exact hplaced x amb (by rw [hresolution]) hstored (stored_ambiguity hamb) howner hopen

end Blocking

/-! ## Every run -/

section Runs

variable {ds : List Derivation}

theorem Image.Vacant.blocking {m : Image} (h : m.Vacant) : m.Blocking where
  gated := h.gated
  pending := fun k amb hamb => by
    rw [h.ambiguities k] at hamb
    cases hamb
  justified := fun e x hx => by
    rw [h.executions e] at hx
    cases hx

theorem Image.Blocking.agrees {m m' : Image} (h : m.Blocking) (ha : m.Agrees m') : m'.Blocking where
  gated := h.gated.agrees ha
  pending := by
    rw [ha.ambiguities, ha.actions]
    exact h.pending
  justified := by
    intro e x hx hblocked
    obtain ⟨y, f, g, hy, rfl⟩ := ha.execution hx
    unfold Image.ambiguitiesOf Image.progressOf
    rw [ha.ambiguities, ha.progress]
    exact h.justified e y hy hblocked

theorem Image.Blocking.reopened {m : Image} (h : m.Blocking) : m.reopened.Blocking where
  gated := h.gated.reopened
  pending := h.pending
  justified := by
    intro e x hx hblocked
    obtain ⟨y, hy, rfl⟩ := KeyedMap.revise_eq_some id_parkedExecution hx
    have hgate := sameGate_parkedExecution y
    rw [hgate.blocked] at hblocked
    rw [hgate.ambiguity, hgate.blockedAboveOrdinal]
    exact h.justified e y hy hblocked

/-- A recovery is late or not by what it reads of its execution only. -/
theorem BlocksLate.frame {j j' : Journaled} {x : ExecutionRecord}
    (hu : j.state.image.Untouched x.id j'.state.image) (hsame : SamePlan j j' x)
    (h : ¬ BlocksLate j x) : ¬ BlocksLate j' x := by
  rintro ⟨hunblocked, hopens, hpolicy, a, ha, k, p, hp, howner, hcommitted, hle⟩
  rw [hsame.plan] at hopens ha
  rw [hsame.policy] at hpolicy
  rw [hsame.action] at ha
  have hprogress : j'.state.image.progressOf x.id k = some p :=
    Image.progressOf_eq_some.mpr ⟨hp, howner⟩
  rw [hu.progress] at hprogress
  obtain ⟨hp', -⟩ := Image.progressOf_eq_some.mp hprogress
  exact h ⟨hunblocked, hopens, hpolicy, a, ha, k, p, hp', howner, hcommitted, hle⟩

theorem exec_findChecked_refused {α : Type} {s : Runtime} {caller : CallerContext} {e : Status}
    (h : checkCaller s caller = .error e) (id : ExecutionId) (f : ExecutionRecord → Op α) :
    (findChecked caller id >>= f).exec s = (.error e, s) := by
  unfold findChecked
  rw [bind_assoc]
  show ((Program.check (checkCaller s caller) >>= fun _ =>
    Program.require (s.state.executions.find id) missingExecution) >>= f).exec s = _
  rw [h]
  rfl

/-- A recovery, a resolution or a report. -/
def Intent.Writes (i : Intent) : Prop :=
  (∃ e, i = .recover e) ∨ (∃ e a r, i = .resolve e a r) ∨ ∃ e k applied, i = .report e k applied

theorem Transaction.nonempty {j : Journaled} {i : Intent} (hi : i.Writes) : ¬ Transaction j i [] := by
  intro ht
  generalize hes : ([] : List JournalEntry) = es at ht
  rcases hi with ⟨e, rfl⟩ | ⟨e, a, r, rfl⟩ | ⟨e, k, applied, rfl⟩ <;> cases ht <;> cases hes

/-- A call that wrote did not leave the store as it was. -/
theorem Transaction.moves_on {s : Runtime} {c : Call} {i : Intent} {es : List JournalEntry}
    (ht : Transaction s.toJournaled i es) (hi : i.Writes)
    (hj : (c.perform s).toJournaled = s.toJournaled.write es) :
    (c.perform s).store ≠ s.store := by
  intro hsame
  have hhistory := congrArg (fun j : Journaled => j.store.history.length) hj
  simp only [hsame, Journaled.history_write, List.length_append] at hhistory
  have hnil : es = [] := List.length_eq_zero_iff.mp (by omega)
  subst hnil
  exact ht.nonempty hi

theorem timely_of_call {s : Runtime} {c : Call} {i : Intent} {es : List JournalEntry}
    (h : ¬ BlocksWrongly s c) (hi : c.intent = some i) (ht : Transaction s.toJournaled i es)
    (hj : (c.perform s).toJournaled = s.toJournaled.write es) : Timely s.toJournaled i := by
  rintro x rfl hx hlate
  have hmoved := ht.moves_on (.inl ⟨_, rfl⟩) hj
  cases c <;> simp only [Call.intent, reduceCtorEq, Option.some.injEq, Intent.recover.injEq] at hi
  case recover caller request e =>
    subst hi
    refine h ⟨?_, x, hx, hlate⟩
    cases hcaller : checkCaller s caller with
    | ok u => rfl
    | error e =>
      refine absurd (congrArg (fun s : Runtime => s.store) ?_) hmoved
      exact congrArg Prod.snd (exec_findChecked_refused hcaller _ _)

/-- A resolution that names the wrong generation is refused. -/
theorem resolve_stale {s : Runtime} {request : ResolveAmbiguityRequest} {amb : AmbiguityRecord}
    (hamb : s.state.ambiguities.find request.ambiguity = some amb)
    (hstale : amb.generation ≠ request.ambiguityGeneration) :
    ((resolveAmbiguity request).exec s).2 = s := by
  show Program.Leads (resolveAmbiguity request) s fun _ s' => s' = s
  unfold resolveAmbiguity
  apply leads_findChecked
  · exact fun _ => rfl
  intro x _ _ _
  apply Program.leads_get
  apply Program.leads_require
  · exact fun _ => rfl
  intro found hfound
  obtain rfl := Option.some.inj (hamb.symm.trans hfound)
  apply Program.leads_refuseIf
  · exact fun _ => rfl
  intro _
  apply Program.leads_refuseIf
  · exact fun _ => rfl
  intro hsame
  exact absurd hstale hsame

theorem placed_of_call {s : Runtime} {c : Call} {i : Intent} {es : List JournalEntry}
    (h : ¬ BlocksWrongly s c) (hi : c.intent = some i) (ht : Transaction s.toJournaled i es)
    (hj : (c.perform s).toJournaled = s.toJournaled.write es) : Placed s.toJournaled i := by
  rintro x amb rfl hx hamb howner hopen hunblocked
  have hmoved := ht.moves_on (.inr (.inl ⟨_, _, _, rfl⟩)) hj
  cases c <;> simp only [Call.intent, reduceCtorEq, Option.some.injEq, Intent.resolve.injEq] at hi
  case resolveAmbiguity request =>
    obtain ⟨hexecution, hambiguity, hresolution⟩ := hi
    have hfound : s.state.ambiguities.find request.ambiguity = some amb := hambiguity ▸ hamb
    by_contra hmisplaced
    rw [not_and_or, not_not] at hmisplaced
    refine h ⟨x, amb, ?_, hexecution ▸ hx, hfound, hexecution ▸ howner, ?_, hopen, hresolution,
      hunblocked, hmisplaced⟩
    · cases hcaller : checkCaller s request.caller with
      | ok u => rfl
      | error e =>
      refine absurd (congrArg (fun s : Runtime => s.store) ?_) hmoved
      exact congrArg Prod.snd (exec_findChecked_refused hcaller _ _)
    · by_contra hstale
      exact hmoved (congrArg (fun s : Runtime => s.store) (resolve_stale hfound hstale))

/-- No recovery left to an open blocks its execution too late. -/
def Awaiting (ids : List ExecutionId) (j : Journaled) : Prop :=
  j.state.image.Blocking ∧ Queued (fun j x => ¬ BlocksLate j x) ids j

theorem blocking_invariance (hfree : CollisionFree ds) :
    Invariance ds Image.Blocking Awaiting fun s c => ¬ BlocksWrongly s c where
  vacant := fun _ _ h => h.blocking
  agrees := fun ha h => h.agrees ha
  transaction := fun hallow hi hj hw h ht hmint =>
    ht.blocking hfree hw hmint (timely_of_call hallow hi ht hj) (placed_of_call hallow hi ht hj) h
  lose := fun hw h ht hmint =>
    ht.blocking hfree hw hmint (fun x hx => by cases hx) (fun x amb hx => by cases hx) h
  restart := by
    intro s config entropy j hallow _ h hworking hreloads himage
    refine ⟨himage ▸ h.reopened, pendingOf_nodup _, pendingOf_stored _, ?_⟩
    intro e he x hx hlate
    obtain ⟨y, hy, rfl⟩ := List.mem_map.mp he
    obtain ⟨hmem, hlifecycle⟩ := List.mem_filter.mp hy
    have hfound := (Table.find_eq_some_iff _ _ _).mpr ⟨hmem, rfl⟩
    obtain rfl := Option.some.inj (hx.symm.trans hfound)
    exact hallow ⟨j, hreloads, x, hfound, by simpa using hlifecycle, hlate⟩
  skip := fun h => ⟨h.1, h.2.skip⟩
  recover := by
    intro j e ids es hw h ht hmint
    refine ⟨ht.blocking hfree hw hmint ?_ (fun x amb hx => by cases hx) h.1,
      h.2.recover hfree hw ht hmint fun hu hsame _ hlate => BlocksLate.frame hu hsame hlate⟩
    rintro x hx hstored
    obtain rfl := Intent.recover.inj hx
    exact h.2.each _ List.mem_cons_self x hstored
  reopened := fun _ h => h.1

end Runs

/-- The block of a stored execution is consistent with the ambiguity it refers to. -/
structure BlockConsistent (st : DurableState) (x : ExecutionRecord) : Prop where
  ambiguity : ∃ amb, currentAmbiguity st x = some amb ∧ amb.execution = x.id ∧
    ambiguityIsOpen amb.state = true ∧
    (∃ a, st.actions.find amb.actionKey = some a ∧ a.status = .ambiguous) ∧
    x.blockedAboveOrdinal + 1 = amb.actionOrdinal
  progress : ∀ k p, st.progress.find k = some p → p.execution = x.id → p.committed = true →
    p.ordinal ≤ x.blockedAboveOrdinal

/-- Every call of the list is admitted where it is made. -/
def AllAdmitted (admits : Runtime → Call → Prop) : List Call → Runtime → Prop
  | [], _ => True
  | c :: rest, s => admits s c ∧ AllAdmitted admits rest (c.perform s)

theorem runs_admitted {admits : Runtime → Call → Prop} (calls : List Call) {s : Runtime}
    (h : AllAdmitted admits calls s) : Runs (keepsJournalAnd admits) s (calls.map .call)
      (performAll (calls.map .call) s) := by
  induction calls generalizing s with
  | nil => exact .nil s
  | cons c rest ih =>
    refine .cons ⟨trivial, fun c' hc => ?_⟩ (ih h.2)
    rw [← Event.call.inj hc]
    exact h.1

theorem not_reached_of_empty {st : DurableState} (h : st.progress.records = []) (e : ExecutionId)
    (ordinal : Nat) : ¬ Reached st e ordinal := by
  rintro ⟨k, p, hp, -⟩
  have hmem := ((Table.find_eq_some_iff _ _ _).mp hp).1
  rw [h] at hmem
  cases hmem

/-- A second action becomes ambiguous while the policy does not block, and is then marked for manual
resolution. -/
def misplacedBlock : List Call :=
  let e := deriveExecutionId ⟨4⟩ 1
  let token := firstToken e ⟨2⟩ ⟨7⟩
  interruptedCalls ⟨4⟩ { ambiguityBlocksLaterProgress := false } ++
    ([.completeAction { token := token, action := deriveActionId e 1, actionGeneration := 1 },
      .beginAction { token := token, effectClass := .nonRepeatable },
      .recover { epoch := 1 } .nil e, acceptOf 1 e 2 .manualResolutionRequired] : List Call)

end ExecutionFabric
