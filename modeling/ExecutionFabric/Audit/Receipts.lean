import ExecutionFabric.Audit.RecordLaws
import ExecutionFabric.Audit.Succession

/-!
# Where a receipt commit comes from

Recovery commits an action whose status says that its effect was applied. Only
`report_side_effect` gives an action that status; whether the report is about an action of
its own execution, and whether it carries any evidence, it does not ask.
-/
namespace ExecutionFabric

open Lib Program

/-- `P` holds of the actions a record carries. -/
def OfActions (P : ActionRecord → Prop) (e : JournalEntry) : Prop := ∀ a ∈ e.actions, P a

/-- The status of the action does not say that its effect was applied. -/
structure Unapplied (a : ActionRecord) : Prop where
  effect : a.status ≠ .effectApplied
  completion : a.status ≠ .completedUnacknowledged

section Laws

variable {P : ActionRecord → Prop} {j : Journaled}

theorem ofActions_idle {e : JournalEntry} (h : e.actions = []) : OfActions P e := by
  intro a ha
  rw [h] at ha
  cases ha

theorem carries_ofActions {e : JournalEntry} (h : OfActions P e) : e.Carries (OfActions P) := by
  cases e with
  | commitGroup g => exact ⟨ofActions_idle rfl, ofActions_idle rfl, h, ofActions_idle rfl⟩
  | _ => exact h

theorem isEffect_of_action {e : JournalEntry} {a : ActionRecord} (ha : a ∈ e.actions) :
    e.isEffect = true := by
  cases e <;> first | rfl | cases ha

theorem unapplied_of_status {a : ActionRecord} (status : ActionStatus) (h : a.status = status)
    (hstatus : status ≠ .effectApplied ∧ status ≠ .completedUnacknowledged) : Unapplied a :=
  ⟨h ▸ hstatus.1, h ▸ hstatus.2⟩

theorem Promotes.unapplied {x : ExecutionRecord} {a : ActionRecord} {g : CommitGroupRecord}
    (hg : Promotes x a g) : Unapplied g.action := by
  obtain ⟨evidence, haction⟩ := hg.action
  rw [haction]
  exact unapplied_of_status .committed rfl (by decide)

/-- Apart from a report, no transaction says that an effect was applied. -/
theorem Transaction.unapplied {i : Intent} {es : List JournalEntry} (ht : Transaction j i es)
    (hreport : ∀ e k b, i ≠ .report e k b) : ∀ e ∈ es, OfActions Unapplied e := by
  intro e he a ha
  have heffect := isEffect_of_action ha
  cases ht.outline with
  | created hi policy hes =>
    rw [hes] at he
    simp only [List.mem_cons, List.not_mem_nil, or_false] at he
    rcases he with rfl | rfl | rfl <;> cases ha
  | @succeeded x y vs hx hsuccession hexecutions heffects hvs =>
    have hmem : e ∈ effectsOf es := List.mem_filter.mpr ⟨he, heffect⟩
    rw [hvs] at hmem
    cases hsuccession with
    | begin request htoken hrunning hblocked =>
      rw [List.mem_singleton.mp hmem] at ha
      rw [List.mem_singleton.mp ha]
      exact unapplied_of_status .inFlight rfl (by decide)
    | @complete _ l b request htoken hrunning hb hdefect =>
      rw [List.mem_singleton.mp hmem] at ha
      rw [List.mem_singleton.mp ha]
      exact (commitGroupOf_promotes j.state x b request.request request.evidence).unapplied
    | fail request htoken hb hambiguous =>
      rw [List.mem_singleton.mp hmem] at ha
      rw [List.mem_singleton.mp ha]
      exact unapplied_of_status .failed rfl (by decide)
    | report request htoken hb hambiguous => exact absurd rfl (hreport _ _ _)
    | recoverAmbiguous hlive hopens hb =>
      simp only [List.mem_cons, List.not_mem_nil, or_false] at hmem
      rcases hmem with rfl | rfl
      · cases ha
      · rw [List.mem_singleton.mp ha]
        exact unapplied_of_status .ambiguous rfl (by decide)
    | @recoverCommit _ b request hlive hreceipt hb =>
      rw [List.mem_singleton.mp hmem] at ha
      rw [List.mem_singleton.mp ha]
      exact (commitGroupOf_promotes j.state x b request b.receipt).unapplied
    | @resolveCommit _ amb b request hamb howner hopen hb hresolution =>
      simp only [List.mem_cons, List.not_mem_nil, or_false] at hmem
      rcases hmem with rfl | rfl
      · rw [List.mem_singleton.mp ha]
        exact (commitGroupOf_promotes j.state x b request.request request.evidence).unapplied
      · cases ha
    | resolveAction request status hamb howner hopen hb hresolution =>
      simp only [List.mem_cons, List.not_mem_nil, or_false] at hmem
      rcases hmem with rfl | rfl
      · rw [List.mem_singleton.mp ha]
        rcases hresolution with ⟨-, rfl⟩ | ⟨-, rfl⟩
        · exact unapplied_of_status .failed rfl (by decide)
        · exact unapplied_of_status .abandoned rfl (by decide)
      · cases ha
    | resolveManual request hamb howner hopen hb hresolution =>
      rw [List.mem_singleton.mp hmem] at ha
      cases ha
    | _ => cases hmem

end Laws

/-! ## Reports -/

/-- The report, presented in `s`, is about the action, in its own execution's name, and gives it
the receipt it has. -/
structure ReportedBy (s : Runtime) (request : ReportSideEffectRequest) (a : ActionRecord) :
    Prop where
  token : ∃ x l, validateToken s.state request.token = .ok (x, l) ∧ x.id = a.execution
  accepted : ((reportSideEffect request).exec s).1 = .ok ()
  named : (⟨request.action, request.actionGeneration⟩ : ActionKey) = a.key
  applied : request.applied = true
  receipt : request.evidence = a.receipt

/-- Evidence for the action is stored with it and came with a report among the events. -/
structure Evidenced (events : List Event) (a : ActionRecord) : Prop where
  present : a.receipt.kind ≠ .none
  reported : ∃ before request after,
    events = before ++ .call (.reportSideEffect request) :: after ∧
      ReportedBy (performAll before {}) request a

/-- The call is an accepted report of an applied effect, without evidence or about an action of
another execution. -/
def ReportsBadly (s : Runtime) (c : Call) : Prop :=
  ∃ request x l a, c = .reportSideEffect request ∧ lookupRequest s request.request = none ∧
    ((reportSideEffect request).exec s).1 = .ok () ∧ request.applied = true ∧
    validateToken s.state request.token = .ok (x, l) ∧
    s.state.findAction request.action request.actionGeneration = some a ∧
    (request.evidence.kind = .none ∨ a.execution ≠ x.id)

/-- An action whose effect was applied has its evidence. -/
structure Supported (events : List Event) (a : ActionRecord) : Prop where
  applied : a.status = .effectApplied → Evidenced events a
  acknowledged : a.status ≠ .completedUnacknowledged

theorem Unapplied.supported {a : ActionRecord} (h : Unapplied a) (events : List Event) :
    Supported events a := ⟨fun happlied => absurd happlied h.effect, h.completion⟩

/-- The call is made in `s` at some point of the events. -/
def OccursIn (events : List Event) (s : Runtime) (c : Call) : Prop :=
  ∃ before after, events = before ++ .call c :: after ∧ s = performAll before {}

theorem report_supported {events : List Event} {s : Runtime} {request : ReportSideEffectRequest}
    {es : List JournalEntry} (hoccurs : OccursIn events s (.reportSideEffect request))
    (hgood : ¬ ReportsBadly s (.reportSideEffect request))
    (hj : ((reportSideEffect request).exec s).2.toJournaled = s.toJournaled.write es) :
    ∀ e ∈ es, OfActions (Supported events) e := by
  have hends := reportSideEffect_ends s request
  have hreported : ∀ a, ReportedBy s request a → a.receipt.kind ≠ .none → Evidenced events a := by
    obtain ⟨before, after, hevents, rfl⟩ := hoccurs
    exact fun a ha hpresent => ⟨hpresent, before, request, after, hevents, ha⟩
  unfold Leads at hends
  generalize hr : ((reportSideEffect request).exec s).1 = r at hends
  generalize ((reportSideEffect request).exec s).2 = s' at hends hj
  rcases hends with hquiet | ⟨x, l, a, htoken, ha, hmiss, rfl, hwrote⟩
  · have hnone : [] = es := Journaled.write_injective (hquiet.journaled.symm.trans hj)
    rw [← hnone]
    exact fun e he => (by cases he)
  rw [← Journaled.write_injective (hwrote.journaled.symm.trans hj), List.forall_mem_singleton]
  intro b hb
  obtain rfl := List.mem_singleton.mp hb
  refine ⟨fun happlied => ?_, ?_⟩
  · have hreads : request.applied = true := by
      by_contra hnot
      rw [Bool.not_eq_true] at hnot
      rw [hnot] at happlied
      cases happlied
    have hsound : request.evidence.kind ≠ .none ∧ a.execution = x.id := by
      by_contra hbad
      rw [not_and_or, not_not] at hbad
      exact hgood ⟨request, x, l, a, rfl, hmiss, hr, hreads, htoken, ha, hbad⟩
    have hkey : a.key = ⟨request.action, request.actionGeneration⟩ := Table.find_key ha
    exact hreported _ ⟨⟨x, l, htoken, hsound.2.symm⟩, hr, hkey.symm, hreads, rfl⟩ hsound.1
  · show (if request.applied then ActionStatus.effectApplied else .effectNotApplied) ≠ _
    split <;> decide

theorem repairable_ofActions {P : ActionRecord → Prop} (hP : ∀ a, Unapplied a → P a) :
    Repairable (OfActions P) where
  reaching := fun _ _ _ _ => ofActions_idle rfl
  promoted := fun _ _ _ _ _ _ => ofActions_idle rfl
  sealing := by
    intro a commit _ b hb
    rw [List.mem_singleton.mp hb]
    exact hP _ (unapplied_of_status .committed rfl (by decide))

theorem Transaction.ofActions {P : ActionRecord → Prop} (hP : ∀ a, Unapplied a → P a)
    {j : Journaled} {i : Intent} {es : List JournalEntry} (ht : Transaction j i es)
    (hreport : ∀ e k b, i ≠ .report e k b) : ∀ e ∈ es, e.Carries (OfActions P) :=
  fun e he => carries_ofActions fun a ha => hP a (ht.unapplied hreport e he a ha)

theorem supported_law (events : List Event) : RecordLaw (OfActions (Supported events))
    fun s c => OccursIn events s c ∧ ¬ ReportsBadly s c where
  repairable := repairable_ofActions fun _ ha => ha.supported events
  transaction := by
    intro s c i es hallow hi hj ht h
    by_cases hreport : ∃ e k b, i = .report e k b
    · obtain ⟨e, k, b, rfl⟩ := hreport
      cases c <;> simp only [Call.intent, reduceCtorEq, Option.some.injEq] at hi
      exact fun e he => carries_ofActions (report_supported hallow.1 hallow.2 hj e he)
    · exact ht.ofActions (fun _ ha => ha.supported events) fun e k b he => hreport ⟨e, k, b, he⟩
  lose := fun ht _ => ht.ofActions (fun _ ha => ha.supported events) fun _ _ _ he => (by cases he)
  recover := fun ht _ =>
    ht.ofActions (fun _ ha => ha.supported events) fun _ _ _ he => (by cases he)
  restart := fun _ e he => carries_ofActions (ofActions_idle (actions_restartRecords _ e he))

/-- The steps of a run, with their place in it. -/
theorem Runs.placed {admits : Runtime → Call → Prop} {events : List Event} {s : Runtime}
    (hrun : Runs (admitting admits) {} events s) :
    Runs (admitting fun s c => OccursIn events s c ∧ admits s c) {} events s := by
  have hstep : ∀ (before : List Event) {after : List Event} {s' : Runtime}, events = before ++ after →
      Runs (admitting admits) (performAll before {}) after s' →
      Runs (admitting fun s c => OccursIn events s c ∧ admits s c) (performAll before {}) after s' := by
    intro before after
    induction after generalizing before with
    | nil =>
      intro s' _ h
      cases h
      exact .nil _
    | cons e rest ih =>
      intro s' hevents h
      cases h with
      | cons hallow hrest =>
        refine .cons (fun c hc => ⟨⟨before, rest, hc ▸ hevents, rfl⟩, hallow c hc⟩) ?_
        have hnext : performAll (before ++ [e]) {} = e.perform (performAll before {}) := by
          unfold performAll
          rw [List.foldl_append]
          rfl
        rw [← hnext] at hrest ⊢
        exact ih _ (by rw [hevents, List.append_assoc]; rfl) hrest
  exact hstep [] rfl hrun

/-! ## Commits of recoveries -/

/-- A commit a recovery adds seals a stored action whose status says that it took effect. -/
theorem recover_commit {j : Journaled} {e : ExecutionId} {es : List JournalEntry}
    (ht : Transaction j (.recover e) es) {k : CommitId} {g : CommitRecord}
    (hnew : (j.write es).state.image.commits k = some g)
    (hold : j.state.image.commits k ≠ some g) : ∃ a, j.state.image.actions g.actionKey = some a ∧
      (a.status = .effectApplied ∨ a.status = .completedUnacknowledged) := by
  cases ht.outline with
  | created hcreate => cases hcreate
  | @succeeded x y vs hx hsuccession hexecutions heffects hvs =>
    rw [heffects.commits] at hnew
    cases hsuccession with
    | recoverPlain => exact absurd hnew hold
    | recoverAmbiguous => exact absurd hnew hold
    | @recoverCommit _ a request hlive hreceipt ha =>
      have hg := commitGroupOf_promotes j.state x a request a.receipt
      generalize commitGroupOf j.state x a request a.receipt = group at hnew hg
      have hinsert : j.state.image.commits.insert group.commit k = some g := hnew
      rcases KeyedMap.insert_eq_some hinsert with ⟨-, rfl⟩ | ⟨-, hstored⟩
      · cases planned_of_plannedAction ha with
        | ambiguous amb hamb hopen hb hopens hnone =>
          rw [hnone] at hreceipt
          cases hreceipt
        | interrupted hclosed hlatest hstatus hjudged =>
          refine ⟨a, ?_, ?_⟩
          · rw [hg.key]
            unfold plannedAction at ha
            split at ha
            · rw [show a.key = _ from Table.find_key ha]
              exact ha
            · cases ha
          · rw [hreceipt] at hjudged
            generalize (planOf j x).decision = decision at hjudged
            cases hjudged with
            | receipt happlied => exact happlied
      · exact absurd hstored hold

theorem holds_ofActions {P : ActionRecord → Prop} {m : Image}
    (h : ∀ k a, m.actions k = some a → P a) : m.Holds (OfActions P) where
  policies := fun _ _ _ => ofActions_idle rfl
  executions := fun _ _ _ => ofActions_idle rfl
  actions := by
    intro k a ha b hb
    rw [List.mem_singleton.mp hb]
    exact h k a ha
  progress := fun _ _ _ => ofActions_idle rfl
  checkpoints := fun _ _ _ => ofActions_idle rfl
  continuations := fun _ _ _ => ofActions_idle rfl
  leases := fun _ _ _ => ofActions_idle rfl
  replays := fun _ _ _ => ofActions_idle rfl
  ambiguities := fun _ _ _ => ofActions_idle rfl
  commits := fun _ _ _ => ofActions_idle rfl
  recoveries := fun _ _ _ => ofActions_idle rfl

/-- Every commit the recoveries add seals an action that was stored before them. -/
theorem recovers_commit {P : ActionRecord → Prop} (hP : ∀ a, Unapplied a → P a)
    {ids : List ExecutionId} {j j' : Journaled} (hw : Recovers ids j j')
    (h : j.state.image.Holds (OfActions P)) {k : CommitId} {g : CommitRecord}
    (hnew : j'.state.image.commits k = some g) (hold : j.state.image.commits k ≠ some g) :
    ∃ a, a.key = g.actionKey ∧ P a ∧
      (a.status = .effectApplied ∨ a.status = .completedUnacknowledged) := by
  induction hw with
  | done j => exact absurd hnew hold
  | skip rest ih => exact ih h hnew hold
  | @write e ids j j' es ht rest ih =>
    by_cases hstep : (j.write es).state.image.commits k = some g
    · obtain ⟨a, ha, hstatus⟩ := recover_commit ht hstep hold
      exact ⟨a, j.state.image.actions.keyed _ _ ha, h.actions _ a ha a (List.mem_singleton.mpr rfl),
        hstatus⟩
    · refine ih ?_ hnew hstep
      rw [Journaled.image_write]
      exact h.installAll (ht.ofActions hP fun _ _ _ he => (by cases he))

theorem image_reloaded (j : Journaled) (store : FileDurableStore) (d : Directory) :
    (reloaded j store d).state.image =
      (reconcileState (loadedState d j.state store.storeId)).state.image := by
  have hfold : ∀ (repairs : List CommitGroupRecord) (k : Journaled),
      (repairs.foldl (fun j repair => j.append (.commitGroup repair)) k).state.image =
        k.state.image := by
    intro repairs
    induction repairs with
    | nil => exact fun _ => rfl
    | cons r rest ih => exact fun k => (ih (k.append _)).trans (k.image_append _)
  exact hfold _ _

theorem commits_reloaded (j : Journaled) (store : FileDurableStore) (d : Directory) :
    (reloaded j store d).state.image.commits = (loadDirectory d j.state).2.image.commits := by
  rw [image_reloaded]
  exact keeps_reconcileState (fun st => st.image.commits) (fun _ _ => rfl) (fun _ _ => rfl) _

theorem commits_restartRecords (j : Journaled) :
    (j.write (restartRecords j)).state.image.commits = j.state.image.commits := by
  have hidle : effectsOf (restartRecords j) = [] := by
    refine effectsOf_of_idle _ fun e he => ?_
    simp only [restartRecords, reclassificationRecords, revocationRecords, List.mem_append,
      List.mem_singleton, List.mem_map] at he
    rcases he with ((rfl | ⟨l, -, rfl⟩) | ⟨x, -, rfl⟩) | ⟨c, -, rfl⟩ <;> rfl
  have heffects := Image.effects_installAll j.state.image (restartRecords j)
  rw [hidle] at heffects
  rw [Journaled.image_write]
  exact heffects.commits

/-- A closed runtime loads the image of its directory. -/
theorem Secured.loaded {s : Runtime} (h : Secured s) (hclosed : s.isOpen = false) {d : Directory}
    (hd : s.store.directory = some d) (hnamed : d.storeId ≠ .nil) :
    (loadDirectory d s.state).2.image = d.image := by
  have hparked : s.state = {} ∨ (¬ d.Blank ∧ s.state.store = d.storeId) := by
    rcases h.parked hclosed with hempty | ⟨d', hd', hblank, hstore⟩
    · exact .inl hempty
    · obtain rfl := Option.some.inj (hd.symm.trans hd')
      exact .inr ⟨hblank, hstore⟩
  have hstore : s.state.store = .nil ∨ s.state.store = d.storeId := by
    rcases hparked with hempty | ⟨-, hsame⟩
    · rw [hempty]
      exact .inl rfl
    · exact .inr hsame
  have hblank : d.Blank → s.state = {} := fun hblank =>
    hparked.resolve_right fun hnot => hnot.1 hblank
  obtain ⟨report, st, hload, himage, -⟩ := Directory.load_ok (h.sound d hd) hnamed _ hstore hblank
  rw [hload]
  exact himage

theorem openStore_found {st st' : FileDurableStore} {create : Bool} {entropy : UInt64}
    {d : Directory} (h : st.openStore create entropy = (.ok (), st')) (hd : st.directory = some d) :
    st'.directory = some d ∧ d.storeId ≠ .nil := by
  by_cases hbusy : st.isOpen = true
  · unfold FileDurableStore.openStore at h
    rw [if_pos hbusy] at h
    cases h
  rcases openStore_cases (by simpa using hbusy) h with ⟨hnone, -⟩ | ⟨d', hgot, hd', hcase⟩
  · rw [hd] at hnone
    cases hnone
  rw [hd] at hgot
  have hsame : d' = d := hgot
  subst hsame
  rcases hcase with ⟨-, -, e, he⟩ | ⟨hnamed, -⟩
  · cases he
  · exact ⟨hd', hnamed⟩

/-- What an open that succeeds commits was applied in the directory it found. -/
theorem open_commit {s : Runtime} (h : Secured s) (hclosed : s.isOpen = false) {d : Directory}
    (hd : s.store.directory = some d) {config : RuntimeConfig} {entropy : UInt64}
    (hopen : ((openRuntime config entropy).exec s).2.isOpen = true) {k : CommitId} {g : CommitRecord}
    (hnew : ((openRuntime config entropy).exec s).2.state.image.commits k = some g)
    (hold : d.image.commits k ≠ some g) : ∃ a, d.image.actions g.actionKey = some a ∧
      (a.status = .effectApplied ∨ a.status = .completedUnacknowledged) := by
  rcases hopened : s.store.openStore config.createIfMissing entropy with ⟨result, store⟩
  obtain ⟨hopens, -⟩ := openRuntime_opens s config entropy hclosed hopened
  generalize ((openRuntime config entropy).exec s).2 = s' at *
  cases hopens with
  | refused e hresult hj hclosed' =>
    rw [hopen] at hclosed'
    cases hclosed'
  | unloadable d' hresult hd' hload hstore hclosed' =>
    rw [hopen] at hclosed'
    cases hclosed'
  | reopened d' hresult hd' hload hw hopen' =>
    obtain ⟨hfound, hnamed⟩ := openStore_found (hopened.trans (by rw [hresult])) hd
    obtain rfl := Option.some.inj (hfound.symm.trans hd')
    have himage := h.loaded hclosed hd hnamed
    let P : ActionRecord → Prop := fun a =>
      a.status = .effectApplied ∨ a.status = .completedUnacknowledged → d.image.actions a.key = some a
    have hP : ∀ a, Unapplied a → P a := fun a ha happlied =>
      absurd happlied (not_or.mpr ⟨ha.effect, ha.completion⟩)
    have hloaded : (loadedState d s.state store.storeId).image.Holds (OfActions P) := by
      refine holds_ofActions fun k a ha _ => ?_
      have hstored : (loadDirectory d s.state).2.image.actions k = some a := ha
      rw [himage] at hstored
      rw [d.image.actions.keyed _ _ hstored]
      exact hstored
    have hstart : (restartedFrom s.toJournaled store d).state.image.Holds (OfActions P) := by
      unfold restartedFrom
      rw [Journaled.image_write, image_reloaded]
      refine (reconcileState_holds (repairable_ofActions hP) hloaded).state.installAll fun e he => ?_
      exact carries_ofActions (ofActions_idle (actions_restartRecords _ e he))
    have hcommits : (restartedFrom s.toJournaled store d).state.image.commits = d.image.commits := by
      unfold restartedFrom
      rw [commits_restartRecords, commits_reloaded, himage]
    rw [← hcommits] at hold
    obtain ⟨a, hkey, ha, hstatus⟩ := recovers_commit hP hw hstart hnew hold
    exact ⟨a, hkey ▸ ha hstatus, hstatus⟩

/-! ## Every run -/

/-- The commit seals an EffectApplied action of the image, with the evidence of a report. -/
def RestsOnEvidence (events : List Event) (m : Image) (g : CommitRecord) : Prop :=
  ∃ a, m.actions g.actionKey = some a ∧ a.status = .effectApplied ∧ Evidenced events a

/-- What receipts are worth after the events: EffectApplied actions have evidence, and what a
recovery or an open commits rests on it. -/
structure ReceiptsSound (events : List Event) (s : Runtime) : Prop where
  present : ∀ k a, s.state.actions.find k = some a → a.status = .effectApplied →
    a.receipt.kind ≠ .none
  recovered : ∀ (caller : CallerContext) (request : RequestId) (e : ExecutionId) k g,
    ((recoverLocked caller request e).exec s).2.state.commits.find k = some g →
    s.state.commits.find k ≠ some g → RestsOnEvidence events s.state.image g
  reopened : ∀ (config : RuntimeConfig) (entropy : UInt64) (d : Directory) k g, s.isOpen = false →
    s.store.directory = some d → ((openRuntime config entropy).exec s).2.isOpen = true →
    ((openRuntime config entropy).exec s).2.state.commits.find k = some g →
    d.image.commits k ≠ some g → RestsOnEvidence events d.image g

/-- **Receipt commits rest on evidence as long as every accepted report of an applied effect brings
evidence for an action of its own execution.** -/
theorem receipts_sound {events : List Event} {s : Runtime}
    (hrun : Runs (admitting fun s c => ¬ ReportsBadly s c) {} events s) : ReceiptsSound events s := by
  have h := (supported_law events).keeps hrun.placed secured_start holds_start
  have hsupported : ∀ k a, s.state.image.actions k = some a → Supported events a := fun k a ha =>
    h.memory.actions k a ha a (List.mem_singleton.mpr rfl)
  refine ⟨fun k a ha happlied => ((hsupported k a ha).applied happlied).present, ?_, ?_⟩
  · intro caller request e k g hnew hold
    have hsettles : Settles s (.recover e) ((recoverLocked caller request e).exec s).2 :=
      recoverLocked_settles s caller request e
    generalize ((recoverLocked caller request e).exec s).2 = s' at hsettles hnew
    have hnew' : s'.toJournaled.state.image.commits k = some g := hnew
    rcases hsettles with hquiet | ⟨es, hwrote⟩
    · rw [hquiet.journaled] at hnew'
      exact absurd hnew' hold
    · rw [hwrote.journaled] at hnew'
      obtain ⟨a, ha, hstatus⟩ := recover_commit hwrote.transaction hnew' hold
      have happlied := hstatus.resolve_right (hsupported _ a ha).acknowledged
      exact ⟨a, ha, happlied, (hsupported _ a ha).applied happlied⟩
  · intro config entropy d k g hclosed hd hopen hnew hold
    obtain ⟨a, ha, hstatus⟩ := open_commit (hrun.secured secured_start) hclosed hd hopen hnew hold
    have hsupport := (h.disk d hd).image.actions _ a ha a (List.mem_singleton.mpr rfl)
    have happlied := hstatus.resolve_right hsupport.acknowledged
    exact ⟨a, ha, happlied, hsupport.applied happlied⟩

/-- Reports that the first action of the first execution took effect. -/
def firstReport (kind : EvidenceKind) : ReportSideEffectRequest where
  token := firstToken (deriveExecutionId ⟨1⟩ 1) ⟨2⟩ ⟨7⟩
  action := deriveActionId (deriveExecutionId ⟨1⟩ 1) 1
  actionGeneration := 1
  applied := true
  evidence := { kind := kind }

/-- One action is begun in the first execution. -/
def firstDispatch : List Event := [openAs 1, createOne] ++ workOn (deriveExecutionId ⟨1⟩ 1) 1

theorem receipts_sound_real :
    ReceiptsSound (firstDispatch ++ [.call (.reportSideEffect (firstReport .real))])
      (performAll [.call (.reportSideEffect (firstReport .real))]
        (performAll firstDispatch {})) := by
  refine receipts_sound ((runs_of_forall firstDispatch {} ?_).append (.cons ?_ (.nil _)))
  · rintro e he s c rfl ⟨request, x, l, a, rfl, -⟩
    simp [firstDispatch, workOn, openAs, createOne, bindTo] at he
  · rintro c hc ⟨request, x, l, a, rfl, -, -, -, htoken, ha, hbad⟩
    cases hc
    have howner : ((performAll firstDispatch {}).state.findAction (firstReport .real).action
        (firstReport .real).actionGeneration).map (·.execution) =
          some (firstReport .real).token.execution := by decide +kernel
    rcases hbad with hnone | hforeign
    · cases hnone
    · rw [ha, Option.map_some, Option.some.injEq] at howner
      exact hforeign (howner.trans (validateToken_execution htoken).2.symm)

/-- A report without evidence leaves an applied effect without a receipt. -/
theorem receipts_unsound :
    ¬ ∀ (events : List Event) (s : Runtime), Runs anyEvent {} events s → ReceiptsSound events s := by
  intro h
  let events := firstDispatch ++ [.call (.reportSideEffect (firstReport .none))]
  let s := performAll events {}
  have hsound := h events s (runs_performAll events {})
  let a := (s.state.findAction (deriveActionId (deriveExecutionId ⟨1⟩ 1) 1) 1).getD {}
  have ha : s.state.actions.find ⟨deriveActionId (deriveExecutionId ⟨1⟩ 1) 1, 1⟩ = some a := by
    decide +kernel
  exact hsound.present _ a ha (by decide +kernel) (by decide +kernel)

end ExecutionFabric
