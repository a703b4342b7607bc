import ExecutionFabric.Audit.Blocks
import ExecutionFabric.Audit.RefusedAppends

/-!
# An open ambiguity gates later progress

While an execution is blocked by an open ambiguity it begins no action, and the only
call that commits progress above the block is the resolution of that ambiguity. For a
worker's calls this is the block check against the gates of memory; for the recoveries
of an open it is carried along by `Image.Held`.
-/
namespace ExecutionFabric

open Lib

/-- The execution `e` is blocked by its open ambiguity `i`, and has the progress it has in `m₀`. -/
structure Image.Held (m₀ : Image) (e : ExecutionId) (i : AmbiguityId) (m : Image) : Prop where
  blocked : ∃ x, m.executions e = some x ∧ x.blocked = true ∧ x.ambiguity = i
  ambiguous : ∃ amb, m.ambiguitiesOf e i = some amb ∧ ambiguityIsOpen amb.state = true
  progress : m.progressOf e = m₀.progressOf e

section Held

variable {ds : List Derivation} {m₀ m m' : Image} {e : ExecutionId} {i : AmbiguityId}

theorem Image.Held.agrees (h : m₀.Held e i m) (ha : m.Agrees m') : m₀.Held e i m' where
  blocked := by
    obtain ⟨x, hx, hblocked, hambiguity⟩ := h.blocked
    obtain ⟨y, f, g, hy, rfl⟩ := ha.symm.execution hx
    exact ⟨y, hy, hblocked, hambiguity⟩
  ambiguous := by
    unfold ambiguitiesOf
    rw [ha.ambiguities]
    exact h.ambiguous
  progress := by
    rw [← h.progress]
    unfold progressOf
    rw [ha.progress]

theorem Image.Held.untouched (h : m₀.Held e i m) (hu : m.Untouched e m') : m₀.Held e i m' where
  blocked := by
    rw [hu.execution]
    exact h.blocked
  ambiguous := by
    rw [hu.ambiguities]
    exact h.ambiguous
  progress := hu.progress.trans h.progress

theorem Image.Held.reopened (h : m₀.Held e i m) : m₀.Held e i m.reopened where
  blocked := by
    obtain ⟨x, hx, hblocked, hambiguity⟩ := h.blocked
    have hgate := sameGate_parkedExecution x
    refine ⟨parkedExecution x, ?_, hgate.blocked.trans hblocked, hgate.ambiguity.trans hambiguity⟩
    show (m.executions e).map parkedExecution = _
    rw [hx]
    rfl
  ambiguous := h.ambiguous
  progress := h.progress

/-- The ambiguity that holds an execution is its current one. -/
theorem Image.Held.current {st : DurableState} {x : ExecutionRecord} (h : m₀.Held e i st.image)
    (hi : i ≠ .nil) (hx : st.image.executions e = some x) :
    ∃ amb, currentAmbiguity st x = some amb ∧ ambiguityIsOpen amb.state = true ∧
      st.image.ambiguities amb.id = some amb ∧ amb.id = i := by
  obtain ⟨y, hy, -, hambiguity⟩ := h.blocked
  obtain ⟨amb, hamb, hopen⟩ := h.ambiguous
  obtain rfl := Option.some.inj (hx.symm.trans hy)
  have hstored : st.image.ambiguities i = some amb := (Option.filter_eq_some_iff.mp hamb).1
  have hid := st.image.ambiguities.keyed _ _ hstored
  refine ⟨amb, ?_, hopen, hid ▸ hstored, hid⟩
  unfold currentAmbiguity
  rw [hambiguity, if_pos ((Id.valid_iff _).mpr hi)]
  exact hstored

/-- A recovery of a held execution writes its ambiguity again and commits nothing. -/
theorem Transaction.held_recover {j : Journaled} {es : List JournalEntry}
    (ht : Transaction j (.recover e) es) (hi : i ≠ .nil) (h : m₀.Held e i j.state.image) :
    m₀.Held e i (j.write es).state.image := by
  obtain ⟨z, hz, hblocked, hambiguity⟩ := h.blocked
  cases ht.outline with
  | created hcreate => cases hcreate
  | @succeeded x y vs hx hsuccession hexecutions heffects =>
    obtain ⟨current, hcurrent, hopen, hfound, hcurrentId⟩ := h.current hi hz
    have hid := hsuccession.id
    generalize (j.write es).state.image = m' at *
    have hstored : x.id = e → m'.executions e = some y := by
      rintro rfl
      rw [hexecutions, ← hid]
      exact KeyedMap.insert_self _ _
    cases hsuccession with
    | recoverPlain hlive hopens hreceipt =>
      obtain rfl : x = z := Option.some.inj (Eq.trans (Eq.symm hx) hz)
      have hgate := sameGate_recoveredFrom j x x
      exact ⟨⟨_, hstored rfl, hgate.blocked.trans hblocked, hgate.ambiguity.trans hambiguity⟩,
        by unfold Image.ambiguitiesOf; rw [heffects.ambiguities]; exact h.ambiguous,
        by rw [← h.progress]; unfold Image.progressOf; rw [heffects.progress]; rfl⟩
    | @recoverAmbiguous _ a hlive hopens ha =>
      obtain rfl : x = z := Option.some.inj (Eq.trans (Eq.symm hx) hz)
      have hrecorded : recordedAmbiguity j.state x (planOf j x) a = current := by
        rcases recordedAmbiguity_cases j.state x (planOf j x) a with
          ⟨amb, hsome, -, hrecorded⟩ | ⟨g, r, -, hclosed, -, -⟩
        · rw [hrecorded, Option.some.inj (hcurrent.symm.trans hsome)]
        · rw [(hclosed current hcurrent).1] at hopen
          cases hopen
      rw [hrecorded] at hstored heffects
      have hgate := sameGate_recoveredFrom j x (blockedBy j.state x current a)
      obtain ⟨hpoints, hblock⟩ := blockedBy_gate j.state x current a
      have hambiguities : m'.ambiguities = j.state.image.ambiguities :=
        heffects.ambiguities.trans (KeyedMap.insert_stored hfound)
      refine ⟨⟨_, hstored rfl, hgate.blocked.trans ?_,
        hgate.ambiguity.trans (hpoints.trans hcurrentId)⟩, ?_, ?_⟩
      · rcases hblock with ⟨hblock, -⟩ | ⟨hblock, -⟩
        · exact hblock
        · exact hblock.trans hblocked
      · unfold Image.ambiguitiesOf
        rw [hambiguities]
        exact h.ambiguous
      · rw [← h.progress]
        unfold Image.progressOf
        rw [heffects.progress]
        rfl
    | @recoverCommit _ a request hlive hreceipt ha =>
      obtain rfl : x = z := Option.some.inj (Eq.trans (Eq.symm hx) hz)
      cases planned_of_plannedAction ha with
      | ambiguous amb hamb hopen' ha' hopens hreceipt' =>
        rw [hreceipt'] at hreceipt
        cases hreceipt
      | interrupted hclosed ha' hstatus hjudged =>
        rw [hclosed current hcurrent] at hopen
        cases hopen

/-- A lost worker keeps the block of its execution. -/
theorem Transaction.held_lose {j : Journaled} {es : List JournalEntry}
    (ht : Transaction j (.lose e) es) (h : m₀.Held e i j.state.image) :
    m₀.Held e i (j.write es).state.image := by
  obtain ⟨z, hz, hblocked, hambiguity⟩ := h.blocked
  cases ht.outline with
  | created hcreate => cases hcreate
  | @succeeded x y vs hx hsuccession hexecutions heffects =>
    have hid := hsuccession.id
    generalize (j.write es).state.image = m' at *
    cases hsuccession with
    | lose hlive =>
      obtain rfl : x = z := Option.some.inj (Eq.trans (Eq.symm hx) hz)
      have hgate := sameGate_fencedExecution x
      refine ⟨⟨fencedExecution x, ?_, hgate.blocked.trans hblocked,
        hgate.ambiguity.trans hambiguity⟩, ?_, ?_⟩
      · rw [hexecutions, ← hid]
        exact KeyedMap.insert_self _ _
      · unfold Image.ambiguitiesOf
        rw [heffects.ambiguities]
        exact h.ambiguous
      · rw [← h.progress]
        unfold Image.progressOf
        rw [heffects.progress]
        rfl

/-- Recoveries and lost workers keep every block. -/
theorem Transaction.held {j : Journaled} {o : ExecutionId} {intent : Intent}
    {es : List JournalEntry} (hfree : CollisionFree ds) (hw : Working ds j)
    (ht : Transaction j intent es) (hintent : intent = .recover o ∨ intent = .lose o)
    (hmint : Minted ds j.state.store es) (hi : i ≠ .nil) (h : m₀.Held e i j.state.image) :
    m₀.Held e i (j.write es).state.image := by
  by_cases hsame : o = e
  · subst hsame
    rcases hintent with rfl | rfl
    · exact ht.held_recover hi h
    · exact ht.held_lose h
  · obtain ⟨x, hx, -⟩ := h.blocked
    refine h.untouched (ht.untouched hfree hw hmint ?_ ?_ ⟨x, hx⟩)
    · rintro e' key applied rfl
      rcases hintent with h | h <;> cases h
    · rcases hintent with rfl | rfl <;> exact fun h => hsame (Option.some.inj h)

/-- An open that finds a store. -/
def reopens (s : Runtime) (c : Call) : Prop :=
  s.store.directory ≠ none ∧ ∃ config entropy, c = .openRuntime config entropy

theorem held_invariance (hfree : CollisionFree ds) (hi : i ≠ .nil) :
    Invariance ds (m₀.Held e i) (fun _ j => m₀.Held e i j.state.image) reopens where
  vacant := fun hallow hnone _ => absurd hnone hallow.1
  agrees := fun ha h => h.agrees ha
  transaction := by
    rintro s c intent es ⟨-, config, entropy, rfl⟩ hintent
    cases hintent
  lose := fun hw h ht hmint => ht.held hfree hw (.inr rfl) hmint hi h
  restart := fun _ _ h _ _ himage => himage ▸ h.reopened
  skip := fun h => h
  recover := fun hw h ht hmint => ht.held hfree hw (.inl rfl) hmint hi h
  reopened := fun _ h => h

end Held

section Steps

variable {D : Discipline} {ds : List Derivation} {m₀ : Image} {e : ExecutionId}
  {i : AmbiguityId} {s : Runtime}

/-- An open keeps every block, or memory is not loaded. -/
theorem Kept.held_open (hkept : Kept D ds s) (hfree : CollisionFree ds) (hi : i ≠ .nil)
    (h : m₀.Held e i s.state.image) (config : RuntimeConfig) (entropy : UInt64)
    (hds : ((Call.openRuntime config entropy).perform s).minted ⊆ ds) :
    ((Call.openRuntime config entropy).perform s).state = {} ∨
      m₀.Held e i ((Call.openRuntime config entropy).perform s).state.image := by
  have hnonempty : s.state ≠ {} := by
    intro hempty
    obtain ⟨x, hx, -⟩ := h.blocked
    rw [hempty] at hx
    cases hx
  obtain ⟨d, hd, hagrees⟩ := hkept.agrees hnonempty
  have hstart : Kept (preserving (m₀.Held e i) (fun _ j => m₀.Held e i j.state.image) reopens)
      ds s := by
    refine hkept.mono (fun _ _ => trivial) ?_ (fun _ => h) (fun _ => h)
    intro d' hd' _
    obtain rfl := Option.some.inj (hd'.symm.trans hd)
    exact h.agrees hagrees.symm
  have hallow : keepsJournalAnd reopens s (.call (.openRuntime config entropy)) := by
    refine ⟨trivial, fun c hc => ?_⟩
    obtain rfl := Event.call.inj hc
    refine ⟨?_, config, entropy, rfl⟩
    rw [hd]
    exact Option.some_ne_none d
  exact ((held_invariance hfree hi).keeps hfree (.cons hallow (.nil _)) hstart hds).preserved

end Steps

/-! ## What commits above a block -/

/-- A completed action of a blocked execution is not above the block. -/
theorem completionDefect_below {x : ExecutionRecord} {request : CompleteActionRequest}
    {a : ActionRecord} (h : completionDefect x request a = none) (hblocked : x.blocked = true) :
    a.sequence ≤ x.blockedAboveOrdinal := by
  by_contra hlt
  have habove : x.blocked = true ∧ a.sequence > x.blockedAboveOrdinal := ⟨hblocked, by omega⟩
  unfold completionDefect at h
  rw [if_pos habove] at h
  repeat' split at h
  all_goals cases h

/-- Of all transactions, only a resolution of the open ambiguity commits above the block. -/
theorem Transaction.commits_above {j : Journaled} {intent : Intent}
    {es : List JournalEntry} (ht : Transaction j intent es) (h : j.state.image.Gated)
    {x : ExecutionRecord} {amb : AmbiguityRecord} (hx : j.state.image.executions x.id = some x)
    (hblocked : x.blocked = true) (hamb : currentAmbiguity j.state x = some amb)
    (hopen : ambiguityIsOpen amb.state = true) {k : ProgressId} {p : ProgressRecord}
    (hp : (j.write es).state.image.progress k = some p) (hnew : j.state.image.progress k ≠ some p)
    (howner : p.execution = x.id) (habove : x.blockedAboveOrdinal < p.ordinal) :
    ∃ resolution, intent = .resolve x.id x.ambiguity resolution ∧
      (resolution = .resolvedApplied ∨ resolution = .accepted) := by
  cases ht.outline with
  | created hi policy hes =>
    subst hes
    rw [Journaled.image_write] at hp
    exact absurd hp hnew
  | @succeeded y z vs hy hsuccession hexecutions heffects =>
    rw [heffects.progress] at hp
    have hcommits : ∀ {a : ActionRecord} {g : CommitGroupRecord}, Promotes y a g →
        j.state.image.progress.insert g.progress k = some p → y = x ∧ p.ordinal = a.sequence := by
      intro a g hg hinsert
      rcases KeyedMap.insert_eq_some hinsert with ⟨-, rfl⟩ | ⟨-, hold⟩
      · refine ⟨?_, hg.ordinal⟩
        have hid : y.id = x.id := hg.owner.symm.trans (hg.seals.execution.symm.trans howner)
        exact Option.some.inj ((hid ▸ hy).symm.trans hx)
      · exact absurd hold hnew
    clear heffects hexecutions ht
    cases hsuccession with
    | complete request htoken hrunning ha hdefect =>
      obtain ⟨rfl, hordinal⟩ := hcommits (commitGroupOf_promotes _ _ _ _ _) hp
      have := completionDefect_below hdefect hblocked
      omega
    | recoverCommit request hlive hreceipt ha =>
      obtain ⟨rfl, -⟩ := hcommits (commitGroupOf_promotes _ _ _ _ _) hp
      cases planned_of_plannedAction ha with
      | ambiguous amb' hamb' hopen' ha' hopens hreceipt' =>
        rw [hreceipt'] at hreceipt
        cases hreceipt
      | interrupted hclosed ha' hstatus hjudged =>
        rw [hclosed amb hamb] at hopen
        cases hopen
    | @resolveCommit _ amb' a request hamb' howner' hopen' ha hresolution =>
      obtain ⟨rfl, -⟩ := hcommits (commitGroupOf_promotes _ _ _ _ _) hp
      refine ⟨request.resolution, ?_, hresolution⟩
      rw [h.refers hx hamb' hopen' howner']
    | _ => exact absurd hp hnew

/-- Lost workers commit nothing. -/
theorem Writes.lost_progress {j j' : Journaled} (hw : Writes (fun i => ∃ e, i = .lose e) j j') :
    j'.state.image.progress = j.state.image.progress := by
  induction hw with
  | done j => rfl
  | @write j j' i es hi ht rest ih =>
    obtain ⟨e, rfl⟩ := hi
    refine ih.trans ?_
    cases ht.outline with
    | created hcreate => cases hcreate
    | succeeded hx hsuccession hexecutions heffects =>
      cases hsuccession with
      | lose hlive => exact heffects.progress

/-- The call resolves the ambiguity `i` of the execution `e` as applied or accepted. -/
def Call.Settles (c : Call) (e : ExecutionId) (i : AmbiguityId) : Prop :=
  ∃ request, c = .resolveAmbiguity request ∧ request.execution = e ∧ request.ambiguity = i ∧
    (request.resolution = .resolvedApplied ∨ request.resolution = .accepted)

theorem Call.settles_of_intent {c : Call} {e : ExecutionId} {i : AmbiguityId}
    {resolution : AmbiguityState} (h : c.intent = some (.resolve e i resolution))
    (hresolution : resolution = .resolvedApplied ∨ resolution = .accepted) : c.Settles e i := by
  cases c <;> simp only [Call.intent, reduceCtorEq, Option.some.injEq, Intent.resolve.injEq] at h
  obtain ⟨rfl, rfl, rfl⟩ := h
  exact ⟨_, rfl, rfl, rfl, hresolution⟩

/-- The call leaves a committed progress record of the execution that was not there before, with an
ordinal above `above`. -/
def Call.CommitsAbove [AppendLimit] (c : Call) (s : Runtime) (e : ExecutionId) (above : Nat) : Prop :=
  ∃ k p, (c.perform s).state.progress.find k = some p ∧ s.state.progress.find k ≠ some p ∧
    p.committed = true ∧ p.execution = e ∧ above < p.ordinal

/-- The execution `x` is stored, blocked, and refers to the open ambiguity `amb`. -/
structure BlockedBy (st : DurableState) (x : ExecutionRecord) (amb : AmbiguityRecord) : Prop where
  stored : st.executions.find x.id = some x
  blocked : x.blocked = true
  current : currentAmbiguity st x = some amb
  isOpen : ambiguityIsOpen amb.state = true

instance (st : DurableState) (x : ExecutionRecord) (amb : AmbiguityRecord) :
    Decidable (BlockedBy st x amb) :=
  decidable_of_iff (st.executions.find x.id = some x ∧ x.blocked = true ∧
      currentAmbiguity st x = some amb ∧ ambiguityIsOpen amb.state = true)
    ⟨fun h => ⟨h.1, h.2.1, h.2.2.1, h.2.2.2⟩, fun h => ⟨h.stored, h.blocked, h.current, h.isOpen⟩⟩

/-- Every uncached request to begin an action of the execution is refused. -/
def RefusesBegin [AppendLimit] (s : Runtime) (e : ExecutionId) : Prop :=
  ∀ request : BeginActionRequest, request.token.execution = e →
    lookupRequest s request.request = none → ∃ status, ((beginAction request).exec s).1 = .error status

/-- A blocked execution is held by its ambiguity. -/
theorem BlockedBy.held {ds : List Derivation} {st : DurableState} {x : ExecutionRecord}
    {amb : AmbiguityRecord} (h : BlockedBy st x amb) (hc : st.image.Coherent ds) :
    st.image.Held x.id x.ambiguity st.image where
  blocked := ⟨x, h.stored, h.blocked, rfl⟩
  ambiguous := by
    obtain ⟨hnil, hfound⟩ := currentAmbiguity_some h.current
    obtain ⟨amb', hamb', howner⟩ := hc.ambiguous _ x h.stored hnil
    obtain rfl := Option.some.inj (hfound.symm.trans hamb')
    exact ⟨amb, Option.filter_eq_some_iff.mpr ⟨hfound, by simpa using howner⟩, h.isOpen⟩
  progress := rfl

section Gate

variable {events : List Event} {s : Runtime} {x : ExecutionRecord} {amb : AmbiguityRecord}

theorem begin_action_blocked (hrun : Runs keepsJournal {} events s) (hfree : CollisionFree s.minted)
    (hblock : BlockedBy s.state x amb) : RefusesBegin s x.id := by
  intro request htoken huncached
  have hkept := gated_of_runs hrun hfree (List.Subset.refl _)
  have hsettles := beginAction_settles s request
  unfold Program.Leads at hsettles
  rcases hsettles with ⟨-, hcached | herror⟩ | ⟨es, y, l, hwrote, -⟩
  · rw [show s.requestCache request.request = none from huncached] at hcached
    cases hcached
  · exact herror
  · exfalso
    obtain ⟨d, hserved, -, hgated⟩ := hkept.running hwrote.running
    have ht := hwrote.transaction
    rw [htoken] at ht
    have hx : s.state.image.executions x.id = some x := hblock.stored
    generalize hintent : Intent.begin x.id = i at ht
    cases ht with
    | @begin z l request' htoken' hrunning hblocked =>
      have hid : x.id = z.id := Intent.begin.inj hintent
      have hz : s.state.image.executions z.id = some z := token_execution htoken'
      rw [← hid, hx] at hz
      obtain rfl := Option.some.inj hz
      have hfalse := Image.Gated.unblocked_of_begun hgated hserved.working hx request' _ hblocked
      rw [hblock.blocked] at hfalse
      cases hfalse
    | _ => cases hintent

theorem commit_above_block (hrun : Runs keepsJournal {} events s) (hblock : BlockedBy s.state x amb)
    {c : Call} (hfree : CollisionFree (c.perform s).minted)
    (hcommits : c.CommitsAbove s x.id x.blockedAboveOrdinal) : c.Settles x.id x.ambiguity := by
  obtain ⟨k, p, hp, hnew, -, howner, habove⟩ := hcommits
  have hhoused : Housed s := (hrun.housed housed_start).1
  obtain ⟨hhoused', hfollows⟩ := hhoused.perform (.call c)
  have hds := hhoused.minted_subset hfollows
  have hkept := gated_of_runs hrun hfree hds
  have heffect := (call_outcome c s hhoused.orderly).effect
  have hreopens : ∀ config entropy, c ≠ .openRuntime config entropy := by
    rintro config entropy rfl
    obtain ⟨hnil, -⟩ := currentAmbiguity_some hblock.current
    rcases hkept.held_open hfree hnil (hblock.held hkept.coherent) config entropy
      (List.Subset.refl _) with hempty | hheld
    · rw [hempty] at hp
      cases hp
    · have hfound : s.state.image.progressOf x.id k = some p := by
        rw [← hheld.progress]
        exact Option.filter_eq_some_iff.mpr ⟨hp, by simpa using howner⟩
      exact hnew (Option.filter_eq_some_iff.mp hfound).1
  change Housed (c.perform s) at hhoused'
  cases heffect with
  | quiet hj hopen =>
    rw [show (c.perform s).state = s.state from congrArg Journaled.state hj] at hp
    exact absurd hp hnew
  | @wrote i es hi hrunning hopen ht hj =>
    obtain ⟨d, hserved, -, hgated⟩ := hkept.running hrunning
    have hstate : (c.perform s).state = (s.toJournaled.write es).state :=
      congrArg Journaled.state hj
    rw [hstate] at hp
    obtain ⟨resolution, rfl, hresolution⟩ := ht.commits_above hgated hblock.stored hblock.blocked
      hblock.current hblock.isOpen hp hnew howner habove
    exact Call.settles_of_intent hi hresolution
  | lost session hc hrunning hopen hw =>
    have hsame : (c.perform s).state.image.progress = s.state.image.progress := hw.lost_progress
    refine absurd ?_ hnew
    rw [← show (c.perform s).state.progress.find k = s.state.progress.find k from
      congrArg (fun t : KeyedMap ProgressRecord.id => t k) hsame]
    exact hp
  | closed hc hrunning hclosed hj =>
    rw [show (c.perform s).state = s.state from (congrArg Journaled.state hj).trans rfl] at hp
    exact absurd hp hnew
  | snapshot truncate hc hrunning hopen hj =>
    rw [show (c.perform s).state = s.state from (congrArg Journaled.state hj).trans rfl] at hp
    exact absurd hp hnew
  | opens config entropy hc => exact absurd hc (hreopens config entropy)

end Gate

/-! ## Small runs -/

/-- A worker's first action of the execution, left in flight and classified by a recovery. -/
def interruptedCalls (store : StoreId) (policy : ExecutionPolicy) : List Call :=
  let e := deriveExecutionId store 1
  [.openRuntime { createIfMissing := true } store.value, .createExecution { epoch := 1 }
      { policy := policy },
    .bindWorker { epoch := 1 } { execution := e, worker := ⟨2⟩, boot := ⟨7⟩ },
    .start { token := firstToken e ⟨2⟩ ⟨7⟩ },
    .beginAction { token := firstToken e ⟨2⟩ ⟨7⟩, effectClass := .nonRepeatable }]

def blockedCalls : List Call :=
  interruptedCalls ⟨1⟩ {} ++ [Call.recover { epoch := 1 } .nil (deriveExecutionId ⟨1⟩ 1)]

def blockedRuntime : Runtime := performAll (blockedCalls.map .call) {}

/-- The execution with the id `e`. -/
def storedExecution (s : Runtime) (e : ExecutionId) : ExecutionRecord :=
  (s.state.executions.find e).getD {}

def storedAmbiguity (s : Runtime) (e : ExecutionId) : AmbiguityRecord :=
  (currentAmbiguity s.state (storedExecution s e)).getD {}

/-- Accepts the ambiguity of the ordinal `ordinal` of the execution `e`. -/
def acceptOf (epoch : Nat) (e : ExecutionId) (ordinal : Nat) (resolution : AmbiguityState) : Call :=
  .resolveAmbiguity
    { caller := { epoch := epoch }, execution := e, ambiguityGeneration := 1, resolution := resolution
      ambiguity := deriveAmbiguityId e (deriveActionId e ordinal) 1 }

/-- The first action of one execution is overwritten by the eighth of another, and a recovery blocks
the first execution above the ordinal it finds there. -/
def collidingBlock : List Call :=
  let store : StoreId := ⟨15185649398792642038⟩
  let token (e : ExecutionId) := firstToken e ⟨2⟩ ⟨7⟩
  let begins (e : ExecutionId) : List Call :=
    [.bindWorker { epoch := 1 } { execution := e, worker := ⟨2⟩, boot := ⟨7⟩ },
      .start { token := token e }, .beginAction { token := token e, effectClass := .nonRepeatable }]
  [.openRuntime { createIfMissing := true } store.value] ++
    List.replicate 8 (.createExecution { epoch := 1 } {}) ++ begins (deriveExecutionId store 1) ++
    begins (deriveExecutionId store 8) ++
    List.replicate 7 (.beginAction
      { token := token (deriveExecutionId store 8), effectClass := .nonRepeatable }) ++
    [.recover { epoch := 1 } .nil (deriveExecutionId store 1)]

/-- The token of the second lease, in the second epoch. -/
def reboundToken (e : ExecutionId) : LeaseToken :=
  { firstToken e ⟨2⟩ ⟨7⟩ with
    incarnation := deriveIncarnationId e 2
    incarnationGeneration := 2
    lease := deriveLeaseId e ⟨2⟩ ⟨7⟩ 2
    leaseGeneration := 2
    epoch := 2 }

/-- A crash inside a recovery leaves an ambiguity its execution does not refer to; a second action
becomes ambiguous and is marked for manual resolution. -/
def orphanedAmbiguity : List Event :=
  let e := deriveExecutionId ⟨4⟩ 1
  (interruptedCalls ⟨4⟩ { ambiguityBlocksLaterProgress := false } ++
      [Call.suspendBegin { epoch := 1 } .nil e, Call.suspendCommit { epoch := 1 } .nil e,
        Call.recover { epoch := 1 } .nil e]).map .call ++ [.crash 14] ++
    ([.openRuntime {} 4, .bindWorker { epoch := 2 } { execution := e, worker := ⟨2⟩, boot := ⟨7⟩ },
      .resume { token := reboundToken e },
      .beginAction { token := reboundToken e, effectClass := .nonRepeatable },
      .recover { epoch := 2 } .nil e, acceptOf 2 e 2 .manualResolutionRequired] : List Call).map .call

/-- A recovery is refused its last appends and leaves an ambiguity its execution does not refer to. -/
def tornBlock : List Call :=
  let e := deriveExecutionId ⟨4⟩ 1
  let token := firstToken e ⟨2⟩ ⟨7⟩
  [.openRuntime { createIfMissing := true, storeLimits := { maxJournalPayload := 1200 } } 4,
    .createExecution { epoch := 1 } { policy := { ambiguityBlocksLaterProgress := false } },
    .bindWorker { epoch := 1 } { execution := e, worker := ⟨2⟩, boot := ⟨7⟩ },
    .start { token := token },
    .beginAction
      { token := token
        effectClass := .nonRepeatable
        evidence := { source := List.replicate 1000 0 } },
    .recover { epoch := 1 } .nil e, .beginAction { token := token, effectClass := .nonRepeatable },
    .recover { epoch := 1 } .nil e, acceptOf 1 e 2 .manualResolutionRequired]

end ExecutionFabric
