import Mathlib.Data.List.MinMax
import ExecutionFabric.Audit.Refusals

/-!
# Which action is re-driven

`begin_action` looks for a failed frontier under the last key of an index that is sorted by
hashed action id. Ids do not ascend with ordinals, so the last key need not be the frontier's:
then a failed frontier is passed over and a new ordinal is begun instead.
-/
namespace ExecutionFabric

open Lib Program

/-! ## The frontier -/

/-- The newest generation stored for the ordinal `action_frontier`. -/
def frontierAction (st : DurableState) (x : ExecutionRecord) : Option ActionRecord :=
  (st.actions.records.filter fun a => a.id = deriveActionId x.id x.actionFrontier ∧
    a.execution = x.id ∧ a.sequence = x.actionFrontier).argmax ActionRecord.generation

/-- The frontier action, if its durable outcome is a failure. -/
def failedFrontier (st : DurableState) (x : ExecutionRecord) : Option ActionRecord :=
  (frontierAction st x).filter fun a => a.status = .failed ∨ a.status = .effectNotApplied

/-- A valid, uncached request to a running, unblocked execution below its policy bounds. -/
structure Ready (s : Runtime) (request : BeginActionRequest) (x : ExecutionRecord)
    (l : LeaseRecord) : Prop where
  serving : checkOpen s = .ok ()
  token : validateToken s.state request.token = .ok (x, l)
  uncached : lookupRequest s request.request = none
  running : x.lifecycle = .running
  unblocked : x.blocked = false
  history : policyHas (policyOf s.state x) (fun p => p.maxActionHistory.toNat ≤ x.actionFrontier) =
    false
  records : policyHas (policyOf s.state x) (fun p => p.maxReplayRecords.toNat ≤ x.replayCount) =
    false
  depth : ∀ a, failedFrontier s.state x = some a →
    policyHas (policyOf s.state x) (fun p => p.maxReplayDepth.toNat < a.generation + 1) = false

/-- The request carries a key when its side-effect class needs one, and the key is not too long. -/
structure BeginActionRequest.Keyed (request : BeginActionRequest) : Prop where
  present : requiresRequestKey request.effectClass = true → request.requestKey ≠ []
  short : request.requestKey.length ≤ 512

/-- A failed frontier is re-driven under the next generation, otherwise the next ordinal is
begun. -/
def DrivesFrontier (s : Runtime) (request : BeginActionRequest) (x : ExecutionRecord) : Prop :=
  ∃ out y, ((beginAction request).exec s).1 = .ok out ∧
    ((beginAction request).exec s).2.state.executions.find x.id = some y ∧
    match failedFrontier s.state x with
    | some a => out.action = a.id ∧ out.actionGeneration = a.generation + 1 ∧
        y.actionFrontier = x.actionFrontier
    | none => out.ordinal = x.actionFrontier + 1 ∧ out.actionGeneration = 1 ∧
        y.actionFrontier = x.actionFrontier + 1

/-- The record under the last key of the index decides as the frontier action does. -/
def IndexAgrees (s : Runtime) (x : ExecutionRecord) : Prop :=
  (redriven x (s.latestAction x.id)).map ActionRecord.generation =
    (failedFrontier s.state x).map ActionRecord.generation

/-- A failed frontier has an id that no other action of the execution exceeds. -/
def FrontierLast (st : DurableState) (x : ExecutionRecord) : Prop :=
  ∀ a, failedFrontier st x = some a →
    ∀ b ∈ st.actions.records, b.execution = x.id → b.id.value ≤ a.id.value

theorem failedFrontier_some {st : DurableState} {x : ExecutionRecord} {a : ActionRecord}
    (h : failedFrontier st x = some a) :
    a ∈ st.actions.records ∧ a.id = deriveActionId x.id x.actionFrontier ∧ a.execution = x.id ∧
      a.sequence = x.actionFrontier ∧ (a.status = .failed ∨ a.status = .effectNotApplied) ∧
      ∀ b ∈ st.actions.records, b.id = a.id → b.execution = x.id →
        b.sequence = x.actionFrontier → b.generation ≤ a.generation := by
  obtain ⟨hfrontier, hstatus⟩ := Option.filter_eq_some_iff.mp h
  have hargmax : a ∈ List.argmax ActionRecord.generation _ := hfrontier
  obtain ⟨hmem, hmax, -⟩ := List.mem_argmax_iff.mp hargmax
  simp only [List.mem_filter, decide_eq_true_eq] at hmem hmax
  obtain ⟨hstored, hid, howner, hordinal⟩ := hmem
  refine ⟨hstored, hid, howner, hordinal, by simpa using hstatus, ?_⟩
  intro b hb hbid hbowner hbordinal
  exact hmax b ⟨hb, hbid.trans hid, hbowner, hbordinal⟩

/-! ## The decision of `begin_action` -/

section Decision

variable {s : Runtime} {request : BeginActionRequest} {x : ExecutionRecord} {l : LeaseRecord}

/-- A request without the key it needs, or with a key that is too long, is refused. -/
theorem beginAction_unkeyed (h : Ready s request x l) (hkeyed : ¬ request.Keyed) :
    Leads (beginAction request) s fun r _ => ∃ e, r = .error e := by
  unfold beginAction
  apply leads_authorized h.serving h.token
  apply leads_get
  rw [h.uncached]
  dsimp only
  apply leads_refuseIf
  · intro hlifecycle
    exact absurd h.running hlifecycle
  intro _
  apply leads_refuseIf
  · intro _
    exact ⟨_, rfl⟩
  intro hpresent
  apply leads_refuseIf
  · intro _
    exact ⟨_, rfl⟩
  intro hshort
  exact absurd ⟨fun hneeds hempty => hpresent ⟨hneeds, hempty⟩, Nat.not_lt.mp hshort⟩ hkeyed

/-- Ready to begin, `begin_action` answers with the action its index leads to, or refuses a re-drive
beyond the depth bound. -/
theorem beginAction_dispatches (h : Ready s request x l) (hkeyed : request.Keyed) :
    Leads (beginAction request) s fun r s' =>
      ((redriven x (s.latestAction x.id)).isSome = true ∧
        policyHas (policyOf s.state x)
          (fun p => p.maxReplayDepth.toNat < (begun s request x).generation) = true ∧
        ∃ e, r = .error e) ∨
      ∃ out y, r = .ok out ∧ s'.state.executions.find x.id = some y ∧
        out.action = (begun s request x).id ∧ out.ordinal = (begun s request x).sequence ∧
        out.actionGeneration = (begun s request x).generation ∧
        y.actionFrontier = (begun s request x).sequence := by
  unfold beginAction
  apply leads_authorized h.serving h.token
  apply leads_get
  rw [h.uncached]
  dsimp only
  apply leads_refuseIf
  · intro hlifecycle
    exact absurd h.running hlifecycle
  intro _
  apply leads_refuseIf
  · rintro ⟨hneeds, hempty⟩
    exact absurd hempty (hkeyed.present hneeds)
  intro _
  apply leads_refuseIf
  · intro hlong
    exact absurd hkeyed.short (Nat.not_le.mpr hlong)
  intro _
  apply leads_refuseIf
  · intro hfull
    rw [h.history] at hfull
    cases hfull
  intro _
  apply leads_refuseIf
  · rintro ⟨hsome, hdeep⟩
    exact .inl ⟨hsome, hdeep, _, rfl⟩
  intro _
  apply leads_refuseIf
  · intro hfull
    rw [h.records] at hfull
    cases hfull
  intro _
  apply leads_refuseIf
  · rintro ⟨hblocked, -⟩
    rw [h.unblocked] at hblocked
    cases hblocked
  intro _
  apply leads_putAll
  apply leads_put
  apply leads_put
  apply leads_remember
  apply leads_pure
  refine .inr ⟨_, dispatched x (begun s request x) (redriven x (s.latestAction x.id)), rfl, ?_, rfl,
    rfl, rfl, rfl⟩
  rw [Runtime.toJournaled_remember]
  show (Journaled.put _ (.execution (dispatched x (begun s request x) _))).state.image.executions
    x.id = some _
  rw [Journaled.image_put]
  exact KeyedMap.insert_self _ _

theorem begun_of_redriven (request : BeginActionRequest) {a : ActionRecord}
    (h : redriven x (s.latestAction x.id) = some a) :
    (begun s request x).id = deriveActionId x.id x.actionFrontier ∧
      (begun s request x).generation = a.generation + 1 ∧
      (begun s request x).sequence = x.actionFrontier := by
  unfold begun
  rw [h]
  exact ⟨rfl, rfl, rfl⟩

theorem begun_of_none (request : BeginActionRequest)
    (h : redriven x (s.latestAction x.id) = none) :
    (begun s request x).generation = 1 ∧ (begun s request x).sequence = x.actionFrontier + 1 := by
  unfold begun
  rw [h]
  exact ⟨rfl, rfl⟩

/-- The frontier is driven exactly when the index agrees with it. -/
theorem keyed_drivesFrontier_iff (h : Ready s request x l) (hkeyed : request.Keyed) :
    DrivesFrontier s request x ↔ IndexAgrees s x := by
  have hdispatches := beginAction_dispatches h hkeyed
  unfold Leads at hdispatches
  unfold DrivesFrontier IndexAgrees
  generalize ((beginAction request).exec s).1 = r at hdispatches ⊢
  generalize ((beginAction request).exec s).2 = s' at hdispatches ⊢
  cases hreplay : redriven x (s.latestAction x.id) with
  | none =>
    obtain ⟨hgeneration, hordinal⟩ := begun_of_none request hreplay
    have hdone := hdispatches.resolve_left fun hrefused => by
      rw [hreplay] at hrefused
      cases hrefused.1
    obtain ⟨out, y, rfl, hstored, -, hout, houtGeneration, hfrontier⟩ := hdone
    rw [hordinal] at hout hfrontier
    rw [hgeneration] at houtGeneration
    cases hfailed : failedFrontier s.state x with
    | none => exact iff_of_true ⟨out, y, rfl, hstored, hout, houtGeneration, hfrontier⟩ rfl
    | some a =>
      refine iff_of_false ?_ (fun hagree => by cases hagree)
      rintro ⟨out', y', -, hstored', -, -, hkept⟩
      obtain rfl := Option.some.inj (hstored.symm.trans hstored')
      omega
  | some b =>
    obtain ⟨hid, hgeneration, hordinal⟩ := begun_of_redriven request hreplay
    cases hfailed : failedFrontier s.state x with
    | none =>
      refine iff_of_false ?_ (fun hagree => by cases hagree)
      rintro ⟨out', y', hout', hstored', -, -, hadvanced⟩
      rcases hdispatches with ⟨-, -, e, he⟩ | ⟨out, y, -, hstored, -, -, -, hfrontier⟩
      · rw [he] at hout'
        cases hout'
      · obtain rfl := Option.some.inj (hstored.symm.trans hstored')
        omega
    | some a =>
      obtain ⟨-, ha, -⟩ := failedFrontier_some hfailed
      simp only [Option.map_some, Option.some.injEq]
      constructor
      · rintro ⟨out', y', hout', -, -, hout, -⟩
        rcases hdispatches with ⟨-, -, e, he⟩ | ⟨out, y, hok, -, -, -, houtGeneration, -⟩
        · rw [he] at hout'
          cases hout'
        · obtain rfl := Except.ok.inj (hok.symm.trans hout')
          omega
      · intro hsame
        have hshallow := h.depth a hfailed
        have hdone := hdispatches.resolve_left fun hrefused => by
          rw [hgeneration, hsame, hshallow] at hrefused
          cases hrefused.2.1
        obtain ⟨out, y, hok, hstored, hout, -, houtGeneration, hfrontier⟩ := hdone
        exact ⟨out, y, hok, hstored, hout.trans (hid.trans ha.symm), by omega,
          hfrontier.trans hordinal⟩

theorem drivesFrontier_iff (h : Ready s request x l) :
    DrivesFrontier s request x ↔ request.Keyed ∧ IndexAgrees s x := by
  by_cases hkeyed : request.Keyed
  · rw [keyed_drivesFrontier_iff h hkeyed, and_iff_right hkeyed]
  · refine iff_of_false ?_ fun hboth => hkeyed hboth.1
    rintro ⟨out, y, hok, -⟩
    obtain ⟨e, he⟩ := beginAction_unkeyed h hkeyed
    rw [hok] at he
    cases he

end Decision

/-! ## When the index agrees -/

section Agreement

variable {ds : List Derivation} {s : Runtime} {x : ExecutionRecord}

theorem redriven_some {latest : Option ActionRecord} {b : ActionRecord}
    (h : redriven x latest = some b) :
    latest = some b ∧ b.sequence = x.actionFrontier ∧
      (b.status = .failed ∨ b.status = .effectNotApplied) := by
  obtain ⟨hlatest, hb⟩ := Option.filter_eq_some_iff.mp h
  exact ⟨hlatest, by simpa using hb⟩

/-- Two stored actions with one id and one generation are one. -/
theorem action_unique {st : DurableState} {a b : ActionRecord} (ha : a ∈ st.actions.records)
    (hb : b ∈ st.actions.records) (hid : a.id = b.id) (hgeneration : a.generation = b.generation) :
    a = b := by
  have hkey : a.key = b.key := by
    unfold ActionRecord.key
    rw [hid, hgeneration]
  have hfind := (Table.find_eq_some_iff st.actions b.key a).mpr ⟨ha, hkey⟩
  exact Option.some.inj (hfind.symm.trans ((Table.find_eq_some_iff _ _ _).mpr ⟨hb, rfl⟩))

theorem frontierAction_eq {st : DurableState} {b : ActionRecord} (hb : b ∈ st.actions.records)
    (hid : b.id = deriveActionId x.id x.actionFrontier) (howner : b.execution = x.id)
    (hordinal : b.sequence = x.actionFrontier)
    (hnewest : ∀ c ∈ st.actions.records, c.id = b.id → c.execution = x.id →
      c.generation ≤ b.generation) : frontierAction st x = some b := by
  have hcandidate : b ∈ st.actions.records.filter fun a => a.id = deriveActionId x.id
      x.actionFrontier ∧ a.execution = x.id ∧ a.sequence = x.actionFrontier :=
    List.mem_filter.mpr ⟨hb, by simpa using ⟨hid, howner, hordinal⟩⟩
  unfold frontierAction
  cases hfound : List.argmax ActionRecord.generation (st.actions.records.filter fun a =>
      a.id = deriveActionId x.id x.actionFrontier ∧ a.execution = x.id ∧
        a.sequence = x.actionFrontier) with
  | none =>
    rw [List.argmax_eq_none.mp hfound] at hcandidate
    cases hcandidate
  | some m =>
    obtain ⟨hm, hmax, -⟩ := List.argmax_eq_some_iff.mp hfound
    have hle := hmax b hcandidate
    simp only [List.mem_filter, decide_eq_true_eq] at hm
    obtain ⟨hmem, hmid, hmowner, -⟩ := hm
    have hge := hnewest m hmem (hmid.trans hid.symm) hmowner
    rw [action_unique hmem hb (hmid.trans hid.symm) (Nat.le_antisymm hge hle)]

/-- What the index re-drives is the newest generation of the frontier. -/
theorem failedFrontier_of_redriven (hknown : s.state.image.Known ds) (hindexed : Indexed s.toJournaled)
    {b : ActionRecord} (h : redriven x (s.latestAction x.id) = some b) :
    failedFrontier s.state x = some b := by
  obtain ⟨hlatest, hordinal, hstatus⟩ := redriven_some h
  obtain ⟨hstored, howner, hgreatest⟩ := hindexed.latest hlatest
  have hid : b.id = deriveActionId x.id x.actionFrontier := by
    have hnamed := (hknown.actions _ _ hstored).2
    rw [howner, hordinal] at hnamed
    have hvalue := congrArg Prod.snd hnamed
    exact congrArg Id.mk hvalue.symm
  obtain ⟨hmem, -⟩ := (Table.find_eq_some_iff _ _ _).mp hstored
  have hfrontier : frontierAction s.state x = some b := by
    refine frontierAction_eq hmem hid howner hordinal fun c hc hcid hcowner => ?_
    have hkey := hgreatest c.key c ((Table.find_eq_some_iff _ _ _).mpr ⟨hc, rfl⟩) hcowner
    rw [ActionKey.lt_iff, ActionKey.ext_iff'] at hkey
    have hvalue : c.key.id.value.toNat = b.key.id.value.toNat := by
      rw [show c.key.id = b.key.id from hcid]
    show c.key.generation ≤ b.key.generation
    omega
  unfold failedFrontier
  rw [hfrontier, Option.filter_some, if_pos (by simpa using hstatus)]

/-- In a collision-free state, the index agrees exactly when no id exceeds the failed frontier's. -/
theorem indexAgrees_iff (hknown : s.state.image.Known ds) (hfree : CollisionFree ds)
    (hindexed : Indexed s.toJournaled) : IndexAgrees s x ↔ FrontierLast s.state x := by
  unfold IndexAgrees FrontierLast
  constructor
  · intro hagree a hfailed b hb howner
    rw [hfailed] at hagree
    cases hreplay : redriven x (s.latestAction x.id) with
    | none =>
      rw [hreplay] at hagree
      cases hagree
    | some c =>
      obtain rfl := Option.some.inj
        ((failedFrontier_of_redriven hknown hindexed hreplay).symm.trans hfailed)
      obtain ⟨hlatest, -⟩ := redriven_some hreplay
      have hkey := (hindexed.latest hlatest).greatest b.key b
        ((Table.find_eq_some_iff _ _ _).mpr ⟨hb, rfl⟩) howner
      rw [ActionKey.lt_iff, ActionKey.ext_iff'] at hkey
      rw [UInt64.le_iff_toNat_le]
      show b.key.id.value.toNat ≤ c.key.id.value.toNat
      omega
  · intro hlast
    cases hreplay : redriven x (s.latestAction x.id) with
    | some b => rw [failedFrontier_of_redriven hknown hindexed hreplay]
    | none =>
      cases hfailed : failedFrontier s.state x with
      | none => rfl
      | some a =>
        obtain ⟨hmem, -, howner, hordinal, hstatus, hnewest⟩ := failedFrontier_some hfailed
        have hstored := (Table.find_eq_some_iff s.state.actions a.key a).mpr ⟨hmem, rfl⟩
        cases hlatest : s.latestAction x.id with
        | none => exact absurd howner (hindexed.latest_none hlatest a.key a hstored)
        | some b =>
          obtain ⟨hfound, hbowner, hgreatest⟩ := hindexed.latest hlatest
          obtain ⟨hbmem, -⟩ := (Table.find_eq_some_iff _ _ _).mp hfound
          have hle : b.key.id.value.toNat ≤ a.key.id.value.toNat :=
            UInt64.le_iff_toNat_le.mp (hlast a hfailed b hbmem hbowner)
          have hkey := hgreatest a.key a hstored howner
          rw [ActionKey.lt_iff, ActionKey.ext_iff'] at hkey
          have hvalue : b.key.id.value.toNat = a.key.id.value.toNat := by omega
          have hid : b.id = a.id := congrArg Id.mk (UInt64.toNat_inj.mp hvalue)
          have hnamed := hknown.actions _ _ hfound
          rw [hid] at hnamed
          have hsame := (hknown.actions _ _ hstored).unique hnamed hfree
          injection hsame with _ hsequence
          have hle' := hnewest b hbmem hid hbowner (hsequence.symm.trans hordinal)
          have hge : a.key.generation ≤ b.key.generation := by omega
          obtain rfl := action_unique hbmem hmem hid (Nat.le_antisymm hle' hge)
          rw [hlatest, redriven, Option.filter_some, if_pos (by simpa using ⟨hordinal, hstatus⟩)]
            at hreplay
          cases hreplay

end Agreement

/-- The first execution of the store 1, and the token of its worker. -/
def firstExecution : ExecutionId := deriveExecutionId ⟨1⟩ 1

def firstWorker : LeaseToken := firstToken firstExecution ⟨2⟩ ⟨7⟩

def failOf (n : Nat) : Event :=
  .call (.failAction
    { token := firstWorker, action := deriveActionId firstExecution n, actionGeneration := 1 })

/-- The first execution begins `n` actions, and the last of them fails. -/
def failedAfter (n : Nat) : List Event :=
  [openAs 1, createOne] ++ workOn firstExecution n ++ [failOf n]

def firstRecord (s : Runtime) : ExecutionRecord :=
  (s.state.executions.find firstExecution).getD {}

def firstLease (s : Runtime) : LeaseRecord := (s.state.leases.find (firstRecord s).lease).getD {}

def nextAction : BeginActionRequest where
  token := firstWorker

/-- `Ready` as a check. -/
def isReady (s : Runtime) (request : BeginActionRequest) (x : ExecutionRecord) (l : LeaseRecord) :
    Bool :=
  checkOpen s = .ok () ∧ validateToken s.state request.token = .ok (x, l) ∧
    (lookupRequest s request.request).isNone ∧ x.lifecycle = .running ∧ x.blocked = false ∧
    policyHas (policyOf s.state x) (fun p => p.maxActionHistory.toNat ≤ x.actionFrontier) = false ∧
    policyHas (policyOf s.state x) (fun p => p.maxReplayRecords.toNat ≤ x.replayCount) = false ∧
    (failedFrontier s.state x).all (fun a => policyHas (policyOf s.state x)
      (fun p => p.maxReplayDepth.toNat < a.generation + 1) = false)

theorem ready_of_isReady {s : Runtime} {request : BeginActionRequest} {x : ExecutionRecord}
    {l : LeaseRecord} (h : isReady s request x l = true) : Ready s request x l := by
  obtain ⟨hserving, htoken, huncached, hrunning, hunblocked, hhistory, hrecords, hdepth⟩ :=
    of_decide_eq_true h
  refine ⟨hserving, htoken, Option.isNone_iff_eq_none.mp huncached, hrunning, hunblocked, hhistory,
    hrecords, ?_⟩
  intro a ha
  rw [ha] at hdepth
  exact of_decide_eq_true hdepth

end ExecutionFabric
