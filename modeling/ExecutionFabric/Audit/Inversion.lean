import ExecutionFabric.Audit.Transaction

/-!
# Every operation writes a transaction or nothing

For each public operation on an open runtime, one theorem runs the operation
symbolically and reads off what it wrote. Later modules never unfold an operation
again.
-/
namespace ExecutionFabric

open Lib Program

/-- The process-local part an operation leaves alone. -/
structure SameProcess (s s' : Runtime) : Prop where
  isOpen : s'.isOpen = s.isOpen
  sessions : s'.sessions = s.sessions
  shuttingDown : s'.shuttingDown = s.shuttingDown
  nextSession : s'.nextSession = s.nextSession

theorem SameProcess.refl (s : Runtime) : SameProcess s s := ⟨rfl, rfl, rfl, rfl⟩

theorem SameProcess.trans {s t u : Runtime} (h : SameProcess s t) (h' : SameProcess t u) :
    SameProcess s u :=
  ⟨h'.isOpen.trans h.isOpen, h'.sessions.trans h.sessions,
    h'.shuttingDown.trans h.shuttingDown, h'.nextSession.trans h.nextSession⟩

/-- `s'` is `s` after one transaction with intent `i`. -/
structure Wrote (s : Runtime) (i : Intent) (es : List JournalEntry) (s' : Runtime) : Prop where
  transaction : Transaction s.toJournaled i es
  journaled : s'.toJournaled = s.toJournaled.write es
  running : s.isOpen = true
  process : SameProcess s s'

/-- `s'` is `s` as far as the disk, memory and authority are concerned. -/
structure Quiet (s s' : Runtime) : Prop where
  journaled : s'.toJournaled = s.toJournaled
  process : SameProcess s s'

theorem Quiet.refl (s : Runtime) : Quiet s s := ⟨rfl, .refl s⟩

/-- What an operation with intent `i` can do: write nothing, or one transaction. -/
def Settles (s : Runtime) (i : Intent) (s' : Runtime) : Prop :=
  Quiet s s' ∨ ∃ es, Wrote s i es s'

theorem Settles.same (s : Runtime) (i : Intent) : Settles s i s := .inl (.refl s)

namespace Runtime

@[simp] theorem toJournaled_mapJournaled (s : Runtime) (f : Journaled → Journaled) :
    (s.mapJournaled f).toJournaled = f s.toJournaled := rfl

theorem mapJournaled_mapJournaled (s : Runtime) (f g : Journaled → Journaled) :
    (s.mapJournaled f).mapJournaled g = s.mapJournaled fun j => g (f j) := rfl

@[simp] theorem isOpen_mapJournaled (s : Runtime) (f : Journaled → Journaled) :
    (s.mapJournaled f).isOpen = s.isOpen := rfl

@[simp] theorem sessions_mapJournaled (s : Runtime) (f : Journaled → Journaled) :
    (s.mapJournaled f).sessions = s.sessions := rfl

@[simp] theorem toJournaled_remember (s : Runtime) (id : RequestId) (o : CachedOutcome) :
    (s.remember id o).toJournaled = s.toJournaled := by
  unfold remember
  split
  · rfl
  · split <;> rfl

theorem sameProcess_mapJournaled (s : Runtime) (f : Journaled → Journaled) :
    SameProcess s (s.mapJournaled f) := ⟨rfl, rfl, rfl, rfl⟩

theorem sameProcess_remember (s : Runtime) (id : RequestId) (o : CachedOutcome) :
    SameProcess s (s.remember id o) := by
  unfold remember
  split
  · exact .refl s
  · split <;> exact ⟨rfl, rfl, rfl, rfl⟩

end Runtime

section Rules

variable {α : Type} {s : Runtime} {Q : Except Status α → Runtime → Prop}

theorem leads_put {e : JournalEntry} {f : Unit → Op α}
    (h : Leads (f ()) (s.mapJournaled (·.put e)) Q) : Leads (Op.put e >>= f) s Q := h

theorem leads_putAll {es : List JournalEntry} {f : Unit → Op α}
    (h : Leads (f ()) (s.mapJournaled (·.write es)) Q) : Leads (Op.putAll es >>= f) s Q := by
  induction es generalizing s with
  | nil => exact h
  | cons e rest ih =>
    unfold Op.putAll
    rw [bind_assoc]
    apply leads_put
    exact ih h

theorem leads_putStoreMeta {f : Unit → Op α}
    (h : Leads (f ()) (s.mapJournaled (·.putStoreMeta)) Q) : Leads (Op.putStoreMeta >>= f) s Q := h

theorem leads_appendAll {es : List JournalEntry} {f : Unit → Op α}
    (h : Leads (f ()) (s.mapJournaled fun j => es.foldl Journaled.append j) Q) :
    Leads (Op.appendAll es >>= f) s Q := by
  induction es generalizing s with
  | nil => exact h
  | cons e rest ih =>
    unfold Op.appendAll
    rw [bind_assoc, bind_assoc]
    exact ih h

theorem leads_putLeaseAs {l : Option LeaseRecord} {state : LeaseState} {f : Unit → Op α}
    (h : Leads (f ()) (s.mapJournaled (·.write (leaseAs l state))) Q) :
    Leads (putLeaseAs l state >>= f) s Q := leads_putAll h

theorem leads_remember {id : RequestId} {o : CachedOutcome} {f : Unit → Op α}
    (h : Leads (f ()) (s.remember id o) Q) : Leads (rememberRequest id o >>= f) s Q := h

theorem leads_remember_last {id : RequestId} {o : CachedOutcome}
    {Q : Except Status Unit → Runtime → Prop} (h : Q (.ok ()) (s.remember id o)) :
    Leads (rememberRequest id o) s Q := h

theorem leads_retire {e : ExecutionId} {keep : ContinuationId} {f : Unit → Op α}
    (h : Leads (f ()) (s.mapJournaled
      (·.write ((retiredContinuations s.state e keep).map .continuation))) Q) :
    Leads (retireOtherContinuations e keep >>= f) s Q := by
  unfold retireOtherContinuations
  rw [bind_assoc]
  apply leads_get
  exact leads_putAll h

theorem leads_requireTransition {source target : Lifecycle} {what : String} {f : Unit → Op α}
    (herr : isLegalTransition source target = false →
      Q (.error (transitionDefect source target what)) s)
    (hok : isLegalTransition source target = true → Leads (f ()) s Q) :
    Leads (requireTransition source target what >>= f) s Q := by
  apply leads_refuseIf herr
  intro h
  exact hok (by simpa using h)

/-- A conditional revocation writes the lease records of the condition. -/
theorem leads_providedLease {c : Prop} [Decidable c] {l : Option LeaseRecord} {state : LeaseState}
    {f : Unit → Op α}
    (h : Leads (f ()) (s.mapJournaled (·.write (if c then leaseAs l state else []))) Q) :
    Leads (provided c (putLeaseAs l state) >>= f) s Q := by
  apply leads_provided
  · intro hc
    rw [if_pos hc] at h
    exact leads_putLeaseAs h
  · intro hc
    rw [if_neg hc] at h
    exact h

/-- A conditional transition check that is legal whenever it is made refuses nothing. -/
theorem leads_providedLegal {c : Prop} [Decidable c] {source target : Lifecycle} {what : String}
    {f : Unit → Op α} (hlegal : c → isLegalTransition source target = true)
    (h : Leads (f ()) s Q) :
    Leads (provided c (requireTransition source target what) >>= f) s Q := by
  apply leads_provided
  · intro hc
    apply leads_requireTransition
    · intro hillegal
      rw [hlegal hc] at hillegal
      cases hillegal
    · intro _
      exact h
  · intro _
    exact h

theorem leads_findChecked {caller : CallerContext} {id : ExecutionId} {f : ExecutionRecord → Op α}
    (herr : ∀ e, Q (.error e) s)
    (hok : ∀ x, s.isOpen = true → s.state.executions.find id = some x → x.id = id →
      Leads (f x) s Q) :
    Leads (findChecked caller id >>= f) s Q := by
  unfold findChecked
  rw [bind_assoc]
  apply leads_get
  rw [bind_assoc]
  apply leads_check
  · intro e _
    exact herr e
  intro _ hcaller
  apply leads_require
  · intro _
    exact herr _
  intro x hx
  refine hok x ?_ hx (Table.find_key hx)
  unfold checkCaller at hcaller
  by_contra hclosed
  simp [checkOpen, hclosed] at hcaller

theorem isOpen_of_checkOpen {s : Runtime} (h : checkOpen s = .ok ()) : s.isOpen = true := by
  unfold checkOpen at h
  split at h
  · cases h
  · rename_i hopen
    exact not_not.mp hopen

theorem leads_authorizeServing {token : LeaseToken} {f : ExecutionRecord → Op α}
    (herr : ∀ e, Q (.error e) s)
    (hok : ∀ x l, checkOpen s = .ok () → validateToken s.state token = .ok (x, l) →
      Leads (f x) s Q) :
    Leads (authorize token >>= f) s Q := by
  unfold authorize
  rw [bind_assoc]
  apply leads_get
  rw [bind_assoc]
  apply leads_check
  · intro e _
    exact herr e
  intro _ hserving
  rw [bind_assoc]
  apply leads_check
  · intro e _
    exact herr e
  intro found hfound
  exact hok found.1 found.2 hserving hfound

theorem leads_authorize {token : LeaseToken} {f : ExecutionRecord → Op α}
    (herr : ∀ e, Q (.error e) s)
    (hok : ∀ x l, s.isOpen = true → validateToken s.state token = .ok (x, l) →
      Leads (f x) s Q) :
    Leads (authorize token >>= f) s Q :=
  leads_authorizeServing herr fun x l hserving => hok x l (isOpen_of_checkOpen hserving)

theorem leads_stageCommit {x : ExecutionRecord} {a : ActionRecord} {request : RequestId}
    {evidence : Evidence} {f : CommitGroupRecord → Op α}
    (herr : s.state.commits.find (commitGroupOf s.state x a request evidence).commit.id ≠ none →
      ∀ e, Q (.error e) s)
    (hok : s.state.commits.find (commitGroupOf s.state x a request evidence).commit.id = none →
      Leads (f (commitGroupOf s.state x a request evidence)) (s.mapJournaled
        (·.put (.commitGroup (commitGroupOf s.state x a request evidence)))) Q) :
    Leads (stageCommit x a request evidence >>= f) s Q := by
  unfold stageCommit
  rw [bind_assoc]
  apply leads_get
  rw [bind_assoc]
  apply leads_refuseIf
  · intro htaken
    refine herr (fun hnone => ?_) _
    rw [hnone] at htaken
    cases htaken
  intro hnew
  rw [bind_assoc]
  apply leads_put
  exact hok (by simpa using hnew)

end Rules

/-- The execution a valid token authorises is the stored one it names. -/
theorem validateToken_execution {st : DurableState} {t : LeaseToken} {x : ExecutionRecord}
    {l : LeaseRecord} (h : validateToken st t = .ok (x, l)) :
    st.executions.find t.execution = some x ∧ x.id = t.execution := by
  unfold validateToken at h
  split at h
  · cases h
  · split at h
    · cases h
    · rename_i x' hx'
      split at h
      · cases h
      · split at h
        · cases h
        · split at h
          · cases h
          · cases h
            exact ⟨hx', Table.find_key hx'⟩


/-- A finished operation: its records are written and its request is remembered. -/
theorem wrote_remember {s s' : Runtime} {i : Intent} {es : List JournalEntry}
    (ht : Transaction s.toJournaled i es) (hopen : s.isOpen = true)
    (hj : s'.toJournaled = s.toJournaled.write es) (hp : SameProcess s s') (id : RequestId)
    (o : CachedOutcome) : Wrote s i es (s'.remember id o) :=
  ⟨ht, (Runtime.toJournaled_remember _ _ _).trans hj, hopen,
    hp.trans (Runtime.sameProcess_remember _ _ _)⟩

theorem settles_remember {s s' : Runtime} {i : Intent} {es : List JournalEntry}
    {id : RequestId} {o : CachedOutcome} (ht : Transaction s.toJournaled i es)
    (hopen : s.isOpen = true) (hj : s'.toJournaled = s.toJournaled.write es)
    (hp : SameProcess s s') : Settles s i (s'.remember id o) :=
  .inr ⟨es, wrote_remember ht hopen hj hp id o⟩

theorem leaseAs_heldActiveLease (st : DurableState) (x : ExecutionRecord) (state : LeaseState) :
    leaseAs (heldActiveLease st x) state =
      if x.lease.valid = true then leaseAs (activeLease st x) state else [] := by
  unfold heldActiveLease
  split <;> rfl

theorem leaseAs_heldLease (st : DurableState) (x : ExecutionRecord) (state : LeaseState) :
    leaseAs (heldLease st x) state =
      if x.lease.valid = true then leaseAs (st.leases.find x.lease) state else [] := by
  unfold heldLease
  split <;> rfl

/-- An active state can always be moved to RECOVERY_REQUIRED. -/
theorem isLegalTransition_of_active (l : Lifecycle) (h : isActiveState l = true) :
    isLegalTransition l .recoveryRequired = true := by
  cases l <;> first | rfl | cases h

/-! ## Worker operations -/

theorem start_settles (s : Runtime) (request : StartRequest) :
    Leads (start request) s fun _ s' => Settles s (.start request.token.execution) s' := by
  unfold start
  apply leads_authorize
  · intro e
    exact .same _ _
  intro x l hopen htoken
  obtain ⟨-, hid⟩ := validateToken_execution htoken
  apply leads_get
  split
  · exact leads_pure (.same _ _)
  apply leads_refuseIf
  · intro _
    exact .same _ _
  intro hready
  apply leads_requireTransition
  · intro _
    exact .same _ _
  intro _
  apply leads_retire
  apply leads_put
  apply leads_put
  apply leads_remember_last
  rw [← hid]
  have ht := Transaction.start request.token htoken (by simpa using hready)
  refine settles_remember ht hopen ?_ ⟨rfl, rfl, rfl, rfl⟩
  rw [continuationRecords, Journaled.write_append]
  rfl

theorem failAction_settles (s : Runtime) (request : FailActionRequest) :
    Leads (failAction request) s fun _ s' =>
      Settles s (.fail request.token.execution ⟨request.action, request.actionGeneration⟩) s' := by
  unfold failAction
  apply leads_authorize
  · intro e
    exact .same _ _
  intro x l hopen htoken
  obtain ⟨-, hid⟩ := validateToken_execution htoken
  apply leads_get
  split
  · exact leads_pure (.same _ _)
  apply leads_require
  · intro _
    exact .same _ _
  intro a ha
  apply leads_refuseIf
  · intro _
    exact .same _ _
  intro howner
  apply leads_refuseIf
  · intro _
    exact .same _ _
  intro hcommitted
  apply leads_refuseIf
  · intro _
    exact .same _ _
  intro hambiguous
  apply leads_put
  apply leads_remember_last
  rw [← hid]
  have ht := Transaction.fail request htoken ha (by simpa using howner) hcommitted hambiguous
  exact settles_remember ht hopen rfl ⟨rfl, rfl, rfl, rfl⟩

/-- A report writes the receipt it carries, or nothing. -/
theorem reportSideEffect_ends (s : Runtime) (request : ReportSideEffectRequest) :
    Leads (reportSideEffect request) s fun r s' => Quiet s s' ∨
      ∃ x l a, validateToken s.state request.token = .ok (x, l) ∧
        s.state.findAction request.action request.actionGeneration = some a ∧
        s.requestCache request.request = none ∧ r = .ok () ∧
        Wrote s (.report request.token.execution ⟨request.action, request.actionGeneration⟩
          request.applied) [.action (receipted a request.applied request.evidence)] s' := by
  unfold reportSideEffect
  apply leads_authorize
  · intro e
    exact .inl (.refl s)
  intro x l hopen htoken
  obtain ⟨-, hid⟩ := validateToken_execution htoken
  apply leads_get
  split
  · exact leads_pure (.inl (.refl s))
  next hmiss =>
  apply leads_require
  · intro _
    exact .inl (.refl s)
  intro a ha
  apply leads_refuseIf
  · intro _
    exact .inl (.refl s)
  intro hcommitted
  apply leads_refuseIf
  · intro _
    exact .inl (.refl s)
  intro hsealed
  rw [not_or] at hsealed
  apply leads_put
  apply leads_remember_last
  rw [← hid]
  have ht := Transaction.report request htoken ha hcommitted hsealed.1 hsealed.2
  refine .inr ⟨x, l, a, htoken, ha, hmiss, rfl, wrote_remember ht hopen ?_ ?_ _ _⟩
  · rfl
  · exact ⟨rfl, rfl, rfl, rfl⟩

theorem reportSideEffect_settles (s : Runtime) (request : ReportSideEffectRequest) :
    Leads (reportSideEffect request) s fun _ s' =>
      Settles s (.report request.token.execution ⟨request.action, request.actionGeneration⟩
        request.applied) s' := by
  refine leads_mono (reportSideEffect_ends s request) fun _ s' h => ?_
  rcases h with hquiet | ⟨x, l, a, -, -, -, -, hwrote⟩
  · exact .inl hquiet
  · exact .inr ⟨_, hwrote⟩

/-- What an accepted, uncached `begin_action` dispatches. -/
def begun (s : Runtime) (request : BeginActionRequest) (x : ExecutionRecord) : ActionRecord :=
  begunAction x request (redriven x (s.latestAction x.id))

/-- The records of an accepted, uncached `begin_action`. -/
def beginRecords (s : Runtime) (request : BeginActionRequest) (x : ExecutionRecord) :
    List JournalEntry :=
  (redriven x (s.latestAction x.id)).toList.map (fun a => .replay (admittedReplay s.state x
      request a (begun s request x))) ++
    [.action (begun s request x),
      .execution (dispatched x (begun s request x) (redriven x (s.latestAction x.id)))]

/-- What an accepted, uncached `begin_action` was checked for. -/
structure Begins (s : Runtime) (request : BeginActionRequest) (x : ExecutionRecord)
    (l : LeaseRecord) : Prop where
  token : validateToken s.state request.token = .ok (x, l)
  uncached : s.requestCache request.request = none
  running : x.lifecycle = .running
  depth : (redriven x (s.latestAction x.id)).isSome = true →
    policyHas (policyOf s.state x) (fun p => p.maxReplayDepth.toNat < (begun s request x).generation)
      = false

/-- `begin_action` writes the action it names, or nothing. -/
theorem beginAction_ends (s : Runtime) (request : BeginActionRequest) :
    Leads (beginAction request) s fun r s' =>
      (Quiet s s' ∧ ((s.requestCache request.request).isSome = true ∨ ∃ e, r = .error e)) ∨
      ∃ x l, Begins s request x l ∧
        Wrote s (.begin request.token.execution) (beginRecords s request x) s' ∧
        ∃ out, r = .ok out ∧ out.action = (begun s request x).id := by
  have hrefused : ∀ e, (Quiet s s ∧ ((s.requestCache request.request).isSome = true ∨
      ∃ e', (Except.error e : Except Status BeginActionResult) = .error e')) :=
    fun e => ⟨.refl s, .inr ⟨e, rfl⟩⟩
  unfold beginAction
  apply leads_authorize
  · intro e
    exact .inl (hrefused e)
  intro x l hopen htoken
  obtain ⟨-, hid⟩ := validateToken_execution htoken
  apply leads_get
  split
  next cached hcached =>
    have hhit : (s.requestCache request.request).isSome = true := by
      rw [show s.requestCache request.request = some cached from hcached]
      rfl
    split
    · exact leads_pure (.inl ⟨.refl s, .inl hhit⟩)
    · exact leads_pure (.inl ⟨.refl s, .inl hhit⟩)
  next hmiss =>
  apply leads_refuseIf
  · intro _
    exact .inl (hrefused _)
  intro hrunning
  apply leads_refuseIf
  · intro _
    exact .inl (hrefused _)
  intro _
  apply leads_refuseIf
  · intro _
    exact .inl (hrefused _)
  intro _
  apply leads_refuseIf
  · intro _
    exact .inl (hrefused _)
  intro _
  apply leads_refuseIf
  · intro _
    exact .inl (hrefused _)
  intro hdepth
  apply leads_refuseIf
  · intro _
    exact .inl (hrefused _)
  intro _
  apply leads_refuseIf
  · intro _
    exact .inl (hrefused _)
  intro hblocked
  apply leads_putAll
  apply leads_put
  apply leads_put
  apply leads_remember
  apply leads_pure
  rw [← hid]
  have hbelow : x.blocked = true →
      (begunAction x request (redriven x (s.latestAction x.id))).sequence
        ≤ x.blockedAboveOrdinal := by
    intro hb
    by_contra hlt
    exact hblocked ⟨hb, Nat.lt_of_not_le hlt⟩
  have hlifecycle : x.lifecycle = .running := by simpa using hrunning
  have ht := Transaction.begin request htoken hlifecycle hbelow
  have hchecked : Begins s request x l := by
    refine ⟨htoken, hmiss, hlifecycle, fun hsome => ?_⟩
    by_contra hdeep
    exact hdepth ⟨hsome, Bool.of_not_eq_false hdeep⟩
  refine .inr ⟨x, l, hchecked, wrote_remember ht hopen ?_ ?_ _ _, _, rfl, rfl⟩
  · rw [Journaled.write_append]
    rfl
  · exact ⟨rfl, rfl, rfl, rfl⟩

/-- The result of `begin_action` names the action it wrote, or it came from the cache. -/
theorem beginAction_settles (s : Runtime) (request : BeginActionRequest) :
    Leads (beginAction request) s fun r s' =>
      (Quiet s s' ∧ ((s.requestCache request.request).isSome = true ∨ ∃ e, r = .error e)) ∨
      ∃ es x l, Wrote s (.begin request.token.execution) es s' ∧
        validateToken s.state request.token = .ok (x, l) ∧
        ∃ out, r = .ok out ∧ out.action = (begun s request x).id := by
  refine leads_mono (beginAction_ends s request) fun r s' h => ?_
  rcases h with hquiet | ⟨x, l, hbegins, hwrote, hout⟩
  · exact .inl hquiet
  · exact .inr ⟨_, x, l, hwrote, hbegins.token, hout⟩

/-- The reply a fresh commit gives. -/
def committedReply (group : CommitGroupRecord) (due : Bool) : CompleteActionResult :=
  { commit := group.commit.id
    progress := group.progress.id
    progressGeneration := group.commit.progressGeneration
    ordinal := group.action.sequence
    duplicate := false
    checkpointDue := due }

/-- The reply a duplicate completion gives. -/
def duplicateReply (a : ActionRecord) (c : CommitRecord) : CompleteActionResult :=
  { commit := c.id
    progress := c.progress
    progressGeneration := c.progressGeneration
    ordinal := a.sequence
    duplicate := true }

/-- How `complete_action` can end: refused, answered from the stored commit, answered from the
request cache under a valid token, or by one commit group. -/
inductive Completes (s : Runtime) (request : CompleteActionRequest) :
    Except Status CompleteActionResult → Runtime → Prop
  | refused (e : Status) : Completes s request (.error e) s
  | duplicate {a : ActionRecord} {c : CommitRecord} (hopen : s.isOpen = true)
      (ha : s.state.findAction request.action request.actionGeneration = some a)
      (hstatus : a.status = .committed) (hc : s.state.commits.find a.commit = some c) :
      Completes s request (.ok (duplicateReply a c)) s
  | cached {x : ExecutionRecord} {l : LeaseRecord} {o : CachedOutcome}
      (htoken : validateToken s.state request.token = .ok (x, l))
      (hfresh : ∀ a, s.state.findAction request.action request.actionGeneration = some a →
        a.status = .committed → s.state.commits.find a.commit = none)
      (ho : s.requestCache request.request = some o) :
      Completes s request (.ok (cachedCompletion s.state x o
        (s.state.findAction request.action request.actionGeneration))) s
  | committed {x : ExecutionRecord} {l : LeaseRecord} {a : ActionRecord} {s' : Runtime}
      (due : Bool) (htoken : validateToken s.state request.token = .ok (x, l))
      (ha : s.state.findAction request.action request.actionGeneration = some a)
      (hmiss : s.requestCache request.request = none)
      (hwrote : Wrote s (.complete request.token.execution request.request
          ⟨request.action, request.actionGeneration⟩)
        [.commitGroup (commitGroupOf s.state x a request.request request.evidence)] s')
      (hcache : s' = (s.mapJournaled (·.put (.commitGroup
          (commitGroupOf s.state x a request.request request.evidence)))).remember request.request
        ⟨(commitGroupOf s.state x a request.request request.evidence).commit.id.value,
          word (x.progressGeneration + 1)⟩) :
      Completes s request
        (.ok (committedReply (commitGroupOf s.state x a request.request request.evidence) due)) s'

theorem completeUncommitted_completes (s : Runtime) (request : CompleteActionRequest)
    (hopen : s.isOpen = true)
    (hfresh : ∀ a, s.state.findAction request.action request.actionGeneration = some a →
      a.status = .committed → s.state.commits.find a.commit = none) :
    Leads (completeUncommitted request) s (Completes s request) := by
  unfold completeUncommitted
  apply leads_get
  apply leads_check
  · intro e _
    exact .refused e
  intro found htoken
  obtain ⟨-, hid⟩ := validateToken_execution htoken
  split
  next o ho => exact leads_pure (.cached htoken hfresh ho)
  next hmiss =>
    apply leads_refuseIf
    · intro _
      exact .refused _
    intro hrunning
    apply leads_require
    · intro _
      exact .refused _
    intro a ha
    apply leads_refuseOn
    · intro e _
      exact .refused _
    intro hdefect
    apply leads_stageCommit
    · intro _ e
      exact .refused e
    intro hnew
    apply leads_remember
    apply leads_pure
    have ht := Transaction.complete request htoken (by simpa using hrunning) ha (hfresh a ha)
      hdefect hnew
    refine .committed _ htoken ha hmiss ?_ rfl
    rw [← hid]
    apply wrote_remember ht hopen
    · rfl
    · exact ⟨rfl, rfl, rfl, rfl⟩

theorem completeAction_completes (s : Runtime) (request : CompleteActionRequest) :
    Leads (completeAction request) s (Completes s request) := by
  unfold completeAction
  apply leads_get
  apply leads_check
  · intro e _
    exact .refused e
  intro _ hcheck
  have hopen : s.isOpen = true := by
    by_contra hclosed
    simp [checkOpen, hclosed] at hcheck
  split
  next a found hresult =>
    unfold committedResult at hresult
    split at hresult
    next a' ha' =>
      split at hresult
      next hstatus =>
        obtain ⟨rfl, rfl⟩ := Prod.mk.inj (Option.some.inj hresult)
        apply leads_check
        · intro e _
          exact .refused e
        intro _ _
        split
        next c hc => exact leads_pure (.duplicate hopen ha' hstatus hc)
        next hc =>
          refine completeUncommitted_completes s request hopen ?_
          intro a ha _
          rw [ha'] at ha
          rw [← Option.some.inj ha]
          exact hc
      next => cases hresult
    next => cases hresult
  next hresult =>
    refine completeUncommitted_completes s request hopen ?_
    intro a ha hstatus
    unfold committedResult at hresult
    rw [ha] at hresult
    simp [hstatus] at hresult

theorem Completes.settles {s s' : Runtime} {request : CompleteActionRequest}
    {r : Except Status CompleteActionResult} (h : Completes s request r s') :
    Settles s (.complete request.token.execution request.request
      ⟨request.action, request.actionGeneration⟩) s' := by
  cases h with
  | refused e => exact .same _ _
  | duplicate hopen ha hstatus hc => exact .same _ _
  | cached htoken hfresh ho => exact .same _ _
  | committed due htoken ha hmiss hwrote hcache => exact .inr ⟨_, hwrote⟩

/-! ## Caller operations -/

theorem transitionOp_settles (s : Runtime) (caller : CallerContext) (request : RequestId)
    (executionId : ExecutionId) (defect : DurableState → ExecutionRecord → Option Status)
    (target : Lifecycle) (what : String)
    (hdefect : target = .completed ∨ target = .retired → ∀ x, defect s.state x = none →
      ∀ amb, currentAmbiguity s.state x = some amb → ambiguityIsOpen amb.state = false) :
    Leads (transitionOp caller request executionId defect target what) s fun _ s' =>
      Settles s (.transition executionId target) s' := by
  unfold transitionOp
  apply leads_findChecked
  · intro e
    exact .same _ _
  intro x hopen hx hid
  subst hid
  apply leads_get
  split
  · exact leads_pure (.same _ _)
  apply leads_refuseOn
  · intro e _
    exact .same _ _
  intro hnone
  unfold persistTransition
  rw [bind_assoc]
  apply leads_requireTransition
  · intro _
    exact .same _ _
  intro hlegal
  have ht := Transaction.transition target hx hlegal fun h => hdefect h x hnone
  rw [bind_assoc]
  apply leads_get
  dsimp only
  split
  next hdrop =>
    rw [bind_assoc]
    apply leads_putLeaseAs
    apply leads_put
    apply leads_remember_last
    refine settles_remember ht hopen ?_ ⟨rfl, rfl, rfl, rfl⟩
    rw [if_pos hdrop.1, Journaled.write_append]
    simp only [heldActiveLease, hdrop.2, ↓reduceIte, transitioned, hdrop, and_self]
    rfl
  next hdrop =>
    apply leads_put
    apply leads_remember_last
    refine settles_remember ht hopen ?_ ⟨rfl, rfl, rfl, rfl⟩
    have hnolease : (if dropsAuthority target = true then
        leaseAs (heldActiveLease s.state x) .revoked else []) = [] := by
      split
      next hd =>
        have hv : x.lease.valid = false := by
          by_contra hv
          exact hdrop ⟨hd, by simpa using hv⟩
        simp [heldActiveLease, hv, leaseAs]
      next => rfl
    rw [hnolease]
    simp only [transitioned, hdrop, ↓reduceIte]
    rfl

theorem openAmbiguityDefect_none {st : DurableState} {x : ExecutionRecord} {message : String}
    (h : openAmbiguityDefect st x message = none) (amb : AmbiguityRecord)
    (hamb : currentAmbiguity st x = some amb) : ambiguityIsOpen amb.state = false := by
  unfold openAmbiguityDefect at h
  rw [hamb] at h
  by_contra hopen
  simp [hopen] at h

theorem advance_settles (s : Runtime) (caller : CallerContext) (request : RequestId)
    (executionId : ExecutionId) :
    Leads (advanceExecutionGeneration caller request executionId) s fun _ s' =>
      Settles s (.advance executionId) s' := by
  unfold advanceExecutionGeneration
  apply leads_findChecked
  · intro e
    exact .same _ _
  intro x hopen hx hid
  subst hid
  apply leads_get
  split
  · exact leads_pure (.same _ _)
  apply leads_refuseIf
  · intro _
    exact .same _ _
  intro hlive
  have ht := Transaction.advance hx (by simpa using hlive)
  apply leads_putAll
  apply leads_providedLease
  apply leads_providedLegal (isLegalTransition_of_active x.lifecycle)
  apply leads_put
  apply leads_remember_last
  refine settles_remember ht hopen ?_ ⟨rfl, rfl, rfl, rfl⟩
  rw [leaseAs_heldActiveLease, Journaled.write_append, Journaled.write_append]
  rfl

/-- Advancing the counter in memory and journaling the metadata is writing the metadata record. -/
theorem putStoreMeta_eq_put (j : Journaled) (n : Nat)
    (hschema : j.state.schema = persistenceSchemaVersion)
    (hn : n = j.state.nextExecutionSequence + 1) :
    Journaled.putStoreMeta { j with state := { j.state with nextExecutionSequence := n } } =
      j.put (.storeMeta (advancedMeta j.state)) := by
  subst hn
  simp only [Journaled.putStoreMeta, Journaled.append, Journaled.storeMeta, Journaled.put,
    Journaled.indexEntry, DurableState.install, advancedMeta, hschema]

theorem createExecution_settles (s : Runtime) (caller : CallerContext)
    (request : CreateExecutionRequest)
    (hschema : s.isOpen = true → s.state.schema = persistenceSchemaVersion) :
    Leads (createExecution caller request) s fun _ s' => Settles s .create s' := by
  unfold createExecution
  apply leads_get
  apply leads_check
  · intro e _
    exact .same _ _
  intro _ hcaller
  have hopen : s.isOpen = true := by
    by_contra hclosed
    simp [checkCaller, checkOpen, hclosed] at hcaller
  split
  · exact leads_pure (.same _ _)
  apply leads_refuseIf
  · intro _
    exact .same _ _
  intro _
  apply leads_refuseOn
  · intro e _
    exact .same _ _
  intro _
  apply leads_update
  apply leads_update
  apply leads_put
  apply leads_put
  apply leads_remember
  apply leads_pure
  have ht := Transaction.create (j := s.toJournaled)
    { request.policy with
      id := derivePolicyId (deriveExecutionId s.state.store s.state.nextExecutionSequence) 1
      generation := 1 } rfl
  refine settles_remember ht hopen ?_ ⟨rfl, rfl, rfl, rfl⟩
  simp only [Runtime.toJournaled_mapJournaled, Journaled.write_cons, Journaled.write_nil]
  rw [putStoreMeta_eq_put _ _ (hschema hopen) rfl]
  rfl

theorem updatePolicy_settles (s : Runtime) (caller : CallerContext) (request : RequestId)
    (executionId : ExecutionId) (policy : ExecutionPolicy) (apply : Bool) :
    Leads (updatePolicy caller request executionId policy apply) s fun _ s' =>
      Settles s (.updatePolicy executionId) s' := by
  unfold updatePolicy
  apply leads_get
  apply leads_check
  · intro e _
    exact .same _ _
  intro _ hcaller
  have hopen : s.isOpen = true := by
    by_contra hclosed
    simp [checkCaller, checkOpen, hclosed] at hcaller
  apply leads_refuseIf
  · intro _
    exact .same _ _
  intro _
  apply leads_require
  · intro _
    exact .same _ _
  intro x hx
  obtain rfl : x.id = executionId := Table.find_key hx
  apply leads_refuseOn
  · intro e _
    exact .same _ _
  intro _
  apply leads_ite
  · intro _
    exact leads_pure (.same _ _)
  intro _
  apply leads_put
  apply leads_providedLease
  apply leads_providedLegal fun h => isLegalTransition_of_active x.lifecycle h.2
  apply leads_putAll
  apply leads_put
  apply leads_remember_last
  have ht := Transaction.updatePolicy
    { policy with id := x.policy, generation := x.policyGeneration + 1 } hx rfl
  refine settles_remember ht hopen ?_ ⟨rfl, rfl, rfl, rfl⟩
  rw [leaseAs_heldLease, Journaled.write_cons, Journaled.write_append, Journaled.write_append]
  rfl

/-- The records of an accepted, uncached bind. -/
def bindRecords (st : DurableState) (x : ExecutionRecord) (request : BindWorkerRequest) :
    List JournalEntry :=
  leaseAs (heldActiveLease st x) .superseded ++
    [.lease (grantedLease st x request), .execution (boundExecution st x request)]

/-- A bind installs checked bindings, or writes nothing. -/
theorem bindWorker_ends (s : Runtime) (caller : CallerContext) (request : BindWorkerRequest) :
    Leads (bindWorker caller request) s fun _ s' => Quiet s s' ∨
      ∃ x, s.state.executions.find x.id = some x ∧ bindingSetDefect request.bindings = none ∧
        Wrote s (.bind request.execution) (bindRecords s.state x request) s' := by
  unfold bindWorker
  apply leads_get
  apply leads_check
  · intro e _
    exact .inl (.refl s)
  intro _ hcaller
  have hopen : s.isOpen = true := by
    by_contra hclosed
    simp [checkCaller, checkOpen, hclosed] at hcaller
  split
  · exact leads_pure (.inl (.refl s))
  apply leads_refuseIf
  · intro _
    exact .inl (.refl s)
  intro hnil
  apply leads_require
  · intro _
    exact .inl (.refl s)
  intro x hx
  have hid : x.id = request.execution := Table.find_key hx
  apply leads_refuseOn
  · intro e _
    exact .inl (.refl s)
  intro hdefect
  apply leads_refuseIf
  · intro _
    exact .inl (.refl s)
  intro hbindable
  apply leads_refuseIf
  · intro _
    exact .inl (.refl s)
  intro hlive
  apply leads_providedLease
  apply leads_providedLegal
  · intro hfenced
    rw [hfenced]
    rfl
  apply leads_put
  apply leads_put
  apply leads_remember
  apply leads_pure
  simp only [not_or, Bool.not_eq_false] at hnil
  have hfree : x.lease.valid = true → x.boot ≠ request.boot → activeLease s.state x = none := by
    intro hv hb
    by_contra hsome
    exact hlive ⟨hv, hb, Option.isSome_iff_ne_none.mpr hsome⟩
  rw [← hid]
  have ht := Transaction.bind request (hid ▸ hx) hnil.1 hnil.2 (by simpa using hbindable) hfree
  refine .inr ⟨x, hid ▸ hx, by simpa using hdefect, wrote_remember ht hopen ?_ ?_ _ _⟩
  · rw [leaseAs_heldActiveLease, Journaled.write_append]
    rfl
  · exact ⟨rfl, rfl, rfl, rfl⟩


theorem bindWorker_settles (s : Runtime) (caller : CallerContext) (request : BindWorkerRequest) :
    Leads (bindWorker caller request) s fun _ s' => Settles s (.bind request.execution) s' := by
  refine leads_mono (bindWorker_ends s caller request) fun _ s' h => ?_
  rcases h with hquiet | ⟨x, -, -, hwrote⟩
  · exact .inl hquiet
  · exact .inr ⟨_, hwrote⟩

end ExecutionFabric
