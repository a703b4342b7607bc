import ExecutionFabric.Audit.LeaseHolders

/-!
# What ending a session changes

`end_session` fences the executions bound to one worker boot, one after the other. Those
that hold a lease with an id may be fenced, so the loop skips none of them and touches no
other execution; one whose lease id is nil keeps its worker.
-/
namespace ExecutionFabric

open Lib Program

/-- Not finished, and bound to the worker boot of the session. -/
def ExecutionRecord.BoundTo (x : ExecutionRecord) (info : SessionInfo) : Prop :=
  x.worker = info.worker ∧ x.boot = info.boot ∧ isTerminalState x.lifecycle = false

instance (x : ExecutionRecord) (info : SessionInfo) : Decidable (x.BoundTo info) :=
  inferInstanceAs (Decidable (_ ∧ _))

/-- The execution fenced, without its lease, its worker and its boot. -/
def lostExecution (x : ExecutionRecord) : ExecutionRecord :=
  { x with lifecycle := .fenced, lease := .nil, worker := .nil, boot := .nil }

def lostLease (l : LeaseRecord) : LeaseRecord := { l with state := .revoked }

/-- What an execution is once the session has ended. -/
def ExecutionRecord.after (info : SessionInfo) (x : ExecutionRecord) : ExecutionRecord :=
  if x.BoundTo info then lostExecution x else x

theorem ExecutionRecord.id_after (info : SessionInfo) (x : ExecutionRecord) :
    (x.after info).id = x.id := by
  unfold ExecutionRecord.after
  split <;> rfl

/-- What a lease is once the executions `xs` have lost theirs. -/
def LeaseRecord.after (xs : List ExecutionRecord) (l : LeaseRecord) : LeaseRecord :=
  if ∃ x ∈ xs, x.lease = l.id then lostLease l else l

theorem LeaseRecord.id_after (xs : List ExecutionRecord) (l : LeaseRecord) :
    (l.after xs).id = l.id := by
  unfold LeaseRecord.after
  split <;> rfl

/-- `s'` is `s` after the end of `session`, which was open for `info`. -/
structure EndsExactly (s : Runtime) (session : SessionId) (info : SessionInfo) (s' : Runtime) :
    Prop where
  executions : s'.state.executions =
    s.state.executions.revise (ExecutionRecord.after info) (ExecutionRecord.id_after info)
  held : ∀ k x, s.state.executions.find k = some x → x.BoundTo info →
    ∃ l, s.state.leases.find x.lease = some l
  leases : s'.state.leases = s.state.leases.revise (LeaseRecord.after (boundTo s.state info))
    (LeaseRecord.id_after (boundTo s.state info))
  others : s'.state = { s.state with
    sequence := s'.state.sequence
    executions := s'.state.executions
    leases := s'.state.leases }
  sessions : s'.sessions = Function.update s.sessions session none
  tokens : ∀ t p, t.worker = info.worker → t.boot = info.boot →
    validateToken s.state t = .ok p → ∃ e, validateToken s'.state t = .error e

/-! ## The loop -/

/-- The lists of executions the loop can fence completely: each is stored, may be fenced and
holds a stored lease. -/
structure Fenceable (st : DurableState) (xs : List ExecutionRecord) : Prop where
  nodup : (xs.map ExecutionRecord.id).Nodup
  stored : ∀ x ∈ xs, st.executions.find x.id = some x
  legal : ∀ x ∈ xs, isLegalTransition x.lifecycle .fenced = true
  leased : ∀ x ∈ xs, x.lease ≠ .nil
  held : ∀ x ∈ xs, ∃ l, st.leases.find x.lease = some l

/-- The executions of `xs` fenced, every other one as it is. -/
def fencedAmong (xs : List ExecutionRecord) (x : ExecutionRecord) : ExecutionRecord :=
  if ∃ y ∈ xs, y.id = x.id then lostExecution x else x

theorem id_fencedAmong (xs : List ExecutionRecord) (x : ExecutionRecord) :
    (fencedAmong xs x).id = x.id := by
  unfold fencedAmong
  split <;> rfl

/-- The state with the executions `xs` fenced, before the sequence number is counted on. -/
def lostState (st : DurableState) (xs : List ExecutionRecord) (sequence : Nat) : DurableState :=
  { st with
    sequence := sequence
    executions := st.executions.revise (fencedAmong xs) (id_fencedAmong xs)
    leases := st.leases.revise (LeaseRecord.after xs) (LeaseRecord.id_after xs) }

theorem lostState_nil (st : DurableState) : lostState st [] st.sequence = st := by
  unfold lostState
  rw [Table.revise_eq_self, Table.revise_eq_self]
  · intro l _
    unfold LeaseRecord.after
    rw [if_neg]
    rintro ⟨x, hx, -⟩
    cases hx
  · intro x _
    unfold fencedAmong
    rw [if_neg]
    rintro ⟨y, hy, -⟩
    cases hy

/-- One turn of the loop writes the revoked lease and the fenced execution. -/
theorem state_fenceRecords (j : Journaled) {x : ExecutionRecord} {l : LeaseRecord}
    (hlegal : isLegalTransition x.lifecycle .fenced = true) (hleased : x.lease ≠ .nil)
    (hl : j.state.leases.find x.lease = some l) :
    ∃ sequence, (j.write (fenceRecords j.state x)).state = { j.state with
      sequence := sequence
      executions := j.state.executions.upsert (lostExecution x)
      leases := j.state.leases.upsert (lostLease l) } := by
  have hvalid : x.lease.valid = true := (Id.valid_iff _).mpr hleased
  have hrecords : fenceRecords j.state x =
      [.lease (lostLease l), .execution (lostExecution x)] := by
    unfold fenceRecords
    rw [if_neg (by simp [hlegal]), if_pos hlegal, if_pos hvalid, hl]
    rfl
  rw [hrecords]
  exact ⟨_, rfl⟩

namespace Fenceable

variable {st : DurableState} {x : ExecutionRecord} {rest : List ExecutionRecord}

/-- Fencing the first execution leaves the rest fenceable. -/
theorem tail (h : Fenceable st (x :: rest)) {l : LeaseRecord} {sequence : Nat}
    (hl : st.leases.find x.lease = some l) : Fenceable { st with
      sequence := sequence
      executions := st.executions.upsert (lostExecution x)
      leases := st.leases.upsert (lostLease l) } rest := by
  have hnodup := h.nodup
  rw [List.map_cons, List.nodup_cons] at hnodup
  have hid : l.id = x.lease := Table.find_key hl
  refine ⟨hnodup.2, ?_, fun y hy => h.legal y (List.mem_cons_of_mem _ hy),
    fun y hy => h.leased y (List.mem_cons_of_mem _ hy), ?_⟩
  · intro y hy
    have hne : y.id ≠ x.id := fun he => hnodup.1 (he ▸ List.mem_map_of_mem hy)
    show (st.executions.upsert (lostExecution x)).find y.id = some y
    rw [Table.find_upsert]
    exact (Function.update_of_ne hne _ _).trans (h.stored y (List.mem_cons_of_mem _ hy))
  · intro y hy
    show ∃ k, (st.leases.upsert (lostLease l)).find y.lease = some k
    rw [Table.find_upsert]
    by_cases he : y.lease = l.id
    · rw [show y.lease = (lostLease l).id from he, Function.update_self]
      exact ⟨lostLease l, rfl⟩
    · rw [Function.update_of_ne (show y.lease ≠ (lostLease l).id from he)]
      exact h.held y (List.mem_cons_of_mem _ hy)

/-- Fencing the first execution and then the rest is fencing them all. -/
theorem lostState_cons (h : Fenceable st (x :: rest)) {l : LeaseRecord} {sequence last : Nat}
    (hl : st.leases.find x.lease = some l) : lostState { st with
      sequence := sequence
      executions := st.executions.upsert (lostExecution x)
      leases := st.leases.upsert (lostLease l) } rest last = lostState st (x :: rest) last := by
  have hid : l.id = x.lease := Table.find_key hl
  have hstored := h.stored x List.mem_cons_self
  unfold lostState
  congr 1
  · refine Table.revise_upsert _ _ _ hstored fun y hy => ?_
    by_cases he : y.id = x.id
    · rw [if_pos (show y.id = (lostExecution x).id from he)]
      have hy' := (Table.find_eq_some_iff _ _ _).mpr ⟨hy, he⟩
      rw [hstored] at hy'
      cases hy'
      unfold fencedAmong
      rw [if_pos ⟨x, List.mem_cons_self, rfl⟩]
      split <;> rfl
    · rw [if_neg (show ¬ y.id = (lostExecution x).id from he)]
      have hfirst : x.id ≠ y.id := fun hx => he hx.symm
      unfold fencedAmong
      simp only [List.exists_mem_cons_iff, hfirst, false_or]
  · refine Table.revise_upsert _ _ _ (hid ▸ hl) fun k hk => ?_
    by_cases he : k.id = l.id
    · rw [if_pos (show k.id = (lostLease l).id from he)]
      have hk' := (Table.find_eq_some_iff _ _ _).mpr ⟨hk, he.trans hid⟩
      rw [hl] at hk'
      cases hk'
      unfold LeaseRecord.after
      rw [if_pos ⟨x, List.mem_cons_self, hid.symm⟩]
      split <;> rfl
    · rw [if_neg (show ¬ k.id = (lostLease l).id from he)]
      have hfirst : x.lease ≠ k.id := fun hx => he (hx.symm.trans hid.symm)
      unfold LeaseRecord.after
      simp only [List.exists_mem_cons_iff, hfirst, false_or]

end Fenceable

/-- The loop fences every execution of the list and changes nothing else. -/
theorem fenceAll_exact (xs : List ExecutionRecord) (s : Runtime) (h : Fenceable s.state xs) :
    Leads (fenceAll xs) s fun r s' => r = .ok () ∧ s'.sessions = s.sessions ∧
      ∃ sequence, s'.state = lostState s.state xs sequence := by
  induction xs generalizing s with
  | nil => exact leads_pure ⟨rfl, rfl, _, (lostState_nil s.state).symm⟩
  | cons x rest ih =>
    unfold fenceAll
    apply leads_get
    apply leads_putAll
    obtain ⟨l, hl⟩ := h.held x List.mem_cons_self
    obtain ⟨sequence, hstate⟩ := state_fenceRecords s.toJournaled (h.legal x List.mem_cons_self)
      (h.leased x List.mem_cons_self) hl
    have hnext : (s.mapJournaled (·.write (fenceRecords s.state x))).state = _ := hstate
    refine leads_mono (ih _ (hnext ▸ h.tail hl)) ?_
    rintro r s' ⟨hr, hsessions, last, hlast⟩
    refine ⟨hr, hsessions, last, hlast.trans ?_⟩
    rw [hnext]
    exact h.lostState_cons hl

/-- An execution without a lease id keeps its worker when its turn comes. -/
theorem worker_fenceRecords (j : Journaled) {x : ExecutionRecord} (hnil : x.lease = .nil)
    (hx : j.state.executions.find x.id = some x) :
    ∃ y, (j.write (fenceRecords j.state x)).state.executions.find x.id = some y ∧
      y.worker = x.worker := by
  have hinvalid : ¬ x.lease.valid = true := fun hvalid => (Id.valid_iff _).mp hvalid hnil
  have himage : ∃ y, (j.state.image.installAll (fenceRecords j.state x)).executions x.id = some y ∧
      y.worker = x.worker := by
    unfold fenceRecords
    split
    · exact ⟨x, hx, rfl⟩
    · dsimp only
      rw [Image.installAll_cons, Image.installAll_nil]
      split
      · exact ⟨{ x with lifecycle := .fenced }, KeyedMap.insert_self _ _, rfl⟩
      · exact ⟨x, KeyedMap.insert_self _ _, rfl⟩
  rw [← Journaled.image_write] at himage
  exact himage

/-- The loop leaves the worker of an execution without a lease id. -/
theorem fenceAll_keeps_worker (xs : List ExecutionRecord) (s : Runtime)
    (hnodup : (xs.map ExecutionRecord.id).Nodup)
    (hstored : ∀ y ∈ xs, s.state.executions.find y.id = some y) {k : ExecutionId}
    {x : ExecutionRecord} (hx : s.state.executions.find k = some x)
    (hnil : ∀ y ∈ xs, y.id = k → y.lease = .nil) :
    Leads (fenceAll xs) s fun r s' => r = .ok () ∧
      ∃ y, s'.state.executions.find k = some y ∧ y.worker = x.worker := by
  induction xs generalizing s x with
  | nil => exact leads_pure ⟨rfl, x, hx, rfl⟩
  | cons z rest ih =>
    rw [List.map_cons, List.nodup_cons] at hnodup
    unfold fenceAll
    apply leads_get
    apply leads_putAll
    have hkept : ∀ {id : ExecutionId}, id ≠ z.id →
        (s.mapJournaled (·.write (fenceRecords s.state z))).state.executions.find id =
          s.state.executions.find id :=
      fun hne => find_write_fenceRecords s.toJournaled z hne
    have hrest : ∀ y ∈ rest,
        (s.mapJournaled (·.write (fenceRecords s.state z))).state.executions.find y.id = some y := by
      intro y hy
      have hne : y.id ≠ z.id := fun he => hnodup.1 (he ▸ List.mem_map_of_mem hy)
      exact (hkept hne).trans (hstored y (List.mem_cons_of_mem _ hy))
    have hnil' := fun y hy => hnil y (List.mem_cons_of_mem z hy)
    by_cases hk : k = z.id
    · subst hk
      have hzx : z = x := Option.some.inj ((hstored z List.mem_cons_self).symm.trans hx)
      subst hzx
      obtain ⟨y, hy, hworker⟩ :=
        worker_fenceRecords s.toJournaled (hnil z List.mem_cons_self rfl) hx
      refine leads_mono (ih _ hnodup.2 hrest hy hnil') ?_
      rintro r s' ⟨hr, y', hy', hworker'⟩
      exact ⟨hr, y', hy', hworker'.trans hworker⟩
    · exact ih _ hnodup.2 hrest ((hkept hk).trans hx) hnil'

/-! ## The executions of a session -/

/-- Every state that is not final lets an execution be fenced, FENCED itself apart. -/
theorem isLegalTransition_fenced {l : Lifecycle} (hlive : isTerminalState l = false)
    (hfenced : l ≠ .fenced) : isLegalTransition l .fenced = true := by
  cases l <;> first | rfl | exact absurd rfl hfenced | cases hlive

/-- Sessions are only opened for a worker and a boot that are not nil. -/
theorem Runs.attended {allow : Runtime → Event → Prop} {s s' : Runtime} {events : List Event}
    (hrun : Runs allow s events s') (h : Housed s)
    (hs : ∀ id info, s.sessions id = some info → info.worker ≠ .nil ∧ info.boot ≠ .nil) :
    ∀ id info, s'.sessions id = some info → info.worker ≠ .nil ∧ info.boot ≠ .nil := by
  induction hrun with
  | nil s => exact hs
  | @cons s s' e events hallow rest ih =>
    refine ih (h.perform e).1 ?_
    cases e with
    | crash kept =>
      intro id info hinfo
      cases hinfo
    | call c =>
      intro id info hinfo
      rcases (call_outcome c s h.orderly).attends id info hinfo with hold | hnew
      · exact hs id info hold
      · exact hnew

section Bound

variable {st : DurableState} {info : SessionInfo}

theorem mem_boundTo {x : ExecutionRecord} :
    x ∈ boundTo st info ↔ st.executions.find x.id = some x ∧ x.BoundTo info := by
  rw [boundTo, List.mem_filter, decide_eq_true_eq, Table.find_eq_some_iff, and_iff_left rfl]
  exact Iff.rfl

/-- Bound executions that have a lease id hold a lease, and so may be fenced. -/
theorem Image.Leased.fenceable (h : st.image.Leased)
    (hleased : ∀ k x, st.executions.find k = some x → x.BoundTo info → x.lease ≠ .nil) :
    Fenceable st (boundTo st info) := by
  have hbound : ∀ x ∈ boundTo st info, st.executions.find x.id = some x ∧
      isTerminalState x.lifecycle = false ∧ x.lease ≠ .nil := by
    intro x hx
    obtain ⟨hstored, hbound⟩ := mem_boundTo.mp hx
    exact ⟨hstored, hbound.2.2, hleased _ x hstored hbound⟩
  refine ⟨st.executions.nodup.sublist (List.filter_sublist.map _), fun x hx => (hbound x hx).1,
    fun x hx => ?_, fun x hx => (hbound x hx).2.2, fun x hx => ?_⟩
  · obtain ⟨hstored, hlive, hlease⟩ := hbound x hx
    refine isLegalTransition_fenced hlive fun hfenced => ?_
    have hunleased := (h _ x hstored hlease).1
    rw [hfenced] at hunleased
    cases hunleased
  · obtain ⟨hstored, -, hlease⟩ := hbound x hx
    exact (h _ x hstored hlease).2

/-- Among stored executions, those the loop fences are those bound to the worker boot. -/
theorem fencedAmong_boundTo {x : ExecutionRecord} (hx : x ∈ st.executions.records) :
    fencedAmong (boundTo st info) x = x.after info := by
  have hstored := (Table.find_eq_some_iff st.executions x.id x).mpr ⟨hx, rfl⟩
  unfold fencedAmong ExecutionRecord.after
  refine if_congr ?_ rfl rfl
  constructor
  · rintro ⟨y, hy, hid⟩
    obtain ⟨hy', hbound⟩ := mem_boundTo.mp hy
    rw [hid, hstored] at hy'
    cases hy'
    exact hbound
  · intro hbound
    exact ⟨x, mem_boundTo.mpr ⟨hstored, hbound⟩, rfl⟩

/-- A token with a lease id of the lost worker boot authorizes nothing any more. -/
theorem Image.Leased.refused (h : st.image.Leased) (hworker : info.worker ≠ .nil)
    {st' : DurableState} (hexecutions : st'.executions =
      st.executions.revise (ExecutionRecord.after info) (ExecutionRecord.id_after info))
    {t : LeaseToken} (ht : t.worker = info.worker) (hboot : t.boot = info.boot)
    {p : ExecutionRecord × LeaseRecord} (hvalid : validateToken st t = .ok p)
    (hlease : t.lease ≠ .nil) : ∃ e, validateToken st' t = .error e := by
  obtain ⟨x, l⟩ := p
  have ha := validateToken_authorizes hvalid
  have hbound : x.BoundTo info := by
    refine ⟨ha.worker.2.trans ht, ha.boot.2.trans hboot, Bool.eq_false_iff.mpr fun hterminal => ?_⟩
    have hunleased := (h _ x ha.execution (ha.lease ▸ hlease)).1
    simp [isUnleased, hterminal] at hunleased
  cases hvalid' : validateToken st' t with
  | error e => exact ⟨e, rfl⟩
  | ok p' =>
    obtain ⟨x', l'⟩ := p'
    have ha' := validateToken_authorizes hvalid'
    have hfind := ha'.execution
    rw [hexecutions, Table.find_revise, ha.execution, Option.map_some, ExecutionRecord.after,
      if_pos hbound] at hfind
    have hnone : x'.worker = .nil := by
      rw [← Option.some.inj hfind]
      rfl
    exact absurd (ht.symm.trans (ha'.worker.2.symm.trans hnone)) hworker

/-- Only the epoch and the records a token names decide whether it is valid. -/
theorem validateToken_congr {st st' : DurableState} {t : LeaseToken} (hepoch : st'.epoch = st.epoch)
    (hexecution : st'.executions.find t.execution = st.executions.find t.execution)
    (hlease : st'.leases.find t.lease = st.leases.find t.lease) :
    validateToken st' t = validateToken st t := by
  unfold validateToken checkEpoch leaseDefect
  rw [hepoch, hexecution, hlease]

/-- A token of an execution that is not fenced stays valid when no fenced one names its lease. -/
theorem EndsExactly.keeps_token {s s' : Runtime} {session : SessionId}
    (h : EndsExactly s session info s') {t : LeaseToken} {x : ExecutionRecord} {l : LeaseRecord}
    (hvalid : validateToken s.state t = .ok (x, l)) (hfree : ¬ x.BoundTo info)
    (hothers : ∀ y ∈ boundTo s.state info, y.lease ≠ t.lease) :
    validateToken s'.state t = .ok (x, l) := by
  have ha := validateToken_authorizes hvalid
  refine (validateToken_congr ?_ ?_ ?_).trans hvalid
  · rw [h.others]
  · rw [h.executions, Table.find_revise, ha.execution, Option.map_some, ExecutionRecord.after,
      if_neg hfree]
  · have hid : l.id = t.lease := Table.find_key ha.stored
    rw [h.leases, Table.find_revise, ha.stored, Option.map_some, LeaseRecord.after,
      if_neg (by rintro ⟨y, hy, hlease⟩; exact hothers y hy (hlease.trans hid))]

end Bound

section Ends

variable {events : List Event} {s : Runtime} {session : SessionId} {info : SessionInfo}

/-- While a session is live the runtime is open, and its worker is not nil. -/
theorem Runs.session_leased {allow : Runtime → Event → Prop} (hrun : Runs allow {} events s)
    (hsession : s.sessions session = some info) :
    s.state.image.Leased ∧ info.worker ≠ .nil := by
  have hsecured := hrun.secured secured_start
  have hopen : s.isOpen = true := by
    by_contra hclosed
    rw [hsecured.housed.orderly.sessions (by simpa using hclosed)] at hsession
    cases hsession
  refine ⟨hrun.leased secured_start punctual_start (fun h => by cases h) hopen, ?_⟩
  refine (hrun.attended housed_start ?_ session info hsession).1
  intro id i hi
  cases hi

/-- Ending the session is fencing the executions bound to its worker boot. -/
theorem leads_endSession (hsession : s.sessions session = some info)
    {Q : Except Status Unit → Runtime → Prop}
    (h : Leads (fenceAll (boundTo s.state info))
      { s with sessions := Function.update s.sessions session none } Q) :
    Leads (endSession session) s Q := by
  unfold endSession
  apply leads_get
  apply leads_require
  · intro hnone
    rw [hsession] at hnone
    cases hnone
  intro i hi
  rw [hsession] at hi
  cases hi
  apply leads_update
  exact h

/-- Bound executions without a lease id keep their worker. -/
theorem endSession_keeps_worker (hsession : s.sessions session = some info) {k : ExecutionId}
    {x : ExecutionRecord} (hx : s.state.executions.find k = some x) (hnil : x.lease = .nil) :
    ((endSession session).exec s).1 = .ok () ∧
      ∃ y, ((endSession session).exec s).2.state.executions.find k = some y ∧
        y.worker = x.worker := by
  refine leads_endSession hsession (fenceAll_keeps_worker (boundTo s.state info)
    { s with sessions := Function.update s.sessions session none }
    (s.state.executions.nodup.sublist (List.filter_sublist.map _))
    (fun y hy => (mem_boundTo.mp hy).1) hx fun y hy hid => ?_)
  have hstored := (mem_boundTo.mp hy).1
  rw [hid, hx] at hstored
  rw [← Option.some.inj hstored]
  exact hnil

/-- When every bound execution has a lease id, the end of the session is exact but for tokens that
name the nil lease. -/
theorem endSession_fences (hrun : Runs anyEvent {} events s)
    (hsession : s.sessions session = some info)
    (hleased : ∀ k x, s.state.executions.find k = some x → x.BoundTo info → x.lease ≠ .nil)
    (htokens : ∀ t p, t.worker = info.worker → t.boot = info.boot →
      validateToken s.state t = .ok p → t.lease ≠ .nil) :
    EndsExactly s session info ((endSession session).exec s).2 := by
  obtain ⟨hinvariant, hworker⟩ := hrun.session_leased hsession
  have hfenceable := hinvariant.fenceable hleased
  obtain ⟨-, hsessions, sequence, hstate⟩ :=
    leads_endSession hsession (fenceAll_exact (boundTo s.state info)
      { s with sessions := Function.update s.sessions session none } hfenceable)
  have hexecutions : ((endSession session).exec s).2.state.executions =
      s.state.executions.revise (ExecutionRecord.after info) (ExecutionRecord.id_after info) := by
    rw [hstate]
    exact s.state.executions.revise_congr (id_fencedAmong _) (ExecutionRecord.id_after info)
      fun x hx => fencedAmong_boundTo hx
  refine ⟨hexecutions, ?_, ?_, ?_, hsessions, ?_⟩
  · intro k x hx hbound
    have hid : x.id = k := Table.find_key hx
    exact hfenceable.held x (mem_boundTo.mpr ⟨hid ▸ hx, hbound⟩)
  · rw [hstate]
    rfl
  · rw [hstate]
    rfl
  · intro t p ht hboot hvalid
    exact hinvariant.refused hworker hexecutions ht hboot hvalid (htokens t p ht hboot hvalid)

/-- **Ending a session fences exactly the executions of its worker boot if and only if none of them
has the nil lease id and no token of the worker boot that names it is valid.** -/
theorem session_ends_exactly_iff (hrun : Runs anyEvent {} events s)
    (hsession : s.sessions session = some info) :
    (((endSession session).exec s).1 = .ok () →
      EndsExactly s session info ((endSession session).exec s).2) ↔
      (∀ k x, s.state.executions.find k = some x → x.BoundTo info → x.lease ≠ .nil) ∧
      ∀ t p, t.worker = info.worker → t.boot = info.boot → validateToken s.state t = .ok p →
        t.lease ≠ .nil := by
  obtain ⟨-, hworker⟩ := hrun.session_leased hsession
  constructor
  swap
  · rintro ⟨hleased, htokens⟩ -
    exact endSession_fences hrun hsession hleased htokens
  intro hexact
  have hleased : ∀ k x, s.state.executions.find k = some x → x.BoundTo info → x.lease ≠ .nil := by
    intro k x hx hbound hnil
    obtain ⟨hok, y, hy, hkept⟩ := endSession_keeps_worker hsession hx hnil
    have hfind := (hexact hok).executions
    rw [hfind, Table.find_revise, hx, Option.map_some, ExecutionRecord.after, if_pos hbound] at hy
    rw [← Option.some.inj hy] at hkept
    exact hworker (hbound.1.symm.trans hkept.symm)
  refine ⟨hleased, fun t p ht hboot hvalid hnil => ?_⟩
  obtain ⟨x, l⟩ := p
  have ha := validateToken_authorizes hvalid
  have hxnil : x.lease = .nil := ha.lease.trans hnil
  obtain ⟨hok, -⟩ := endSession_keeps_worker hsession ha.execution hxnil
  have hends := hexact hok
  have hfree : ¬ x.BoundTo info := fun hbound => hleased _ x ha.execution hbound hxnil
  have hkept := hends.keeps_token hvalid hfree fun y hy he =>
    hleased _ y (mem_boundTo.mp hy).1 (mem_boundTo.mp hy).2 (he.trans hnil)
  obtain ⟨e, he⟩ := hends.tokens t (x, l) ht hboot hvalid
  rw [hkept] at he
  cases he

end Ends

/-- An execution bound to a worker boot that also holds the session `1`. -/
def attendedCalls : List Event :=
  [openAs 1, createOne, bindTo (deriveExecutionId ⟨1⟩ 1) ⟨2⟩ ⟨7⟩, .call (.beginSession ⟨2⟩ ⟨7⟩)]

def attendedRuntime : Runtime := performAll attendedCalls {}

theorem session_ends_exactly_iff_attended :
    (((endSession ⟨1⟩).exec attendedRuntime).1 = .ok () →
      EndsExactly attendedRuntime ⟨1⟩ ⟨⟨2⟩, ⟨7⟩⟩ ((endSession ⟨1⟩).exec attendedRuntime).2) ↔
      (∀ k x, attendedRuntime.state.executions.find k = some x → x.BoundTo ⟨⟨2⟩, ⟨7⟩⟩ →
        x.lease ≠ .nil) ∧
      ∀ t p, t.worker = ⟨2⟩ → t.boot = ⟨7⟩ → validateToken attendedRuntime.state t = .ok p →
        t.lease ≠ .nil :=
  session_ends_exactly_iff (runs_performAll attendedCalls {}) (by decide +kernel)

/-- A worker boot that holds a session, and whose lease of the execution is derived to nil. -/
def namelessCalls : List Event :=
  nilLease ++ [.call (.beginSession ⟨360603551552314886⟩ ⟨937875747683376923⟩)]

def namelessRuntime : Runtime := performAll namelessCalls {}

/-- A nil lease id: the execution keeps its worker when the session ends. -/
theorem session_ends_not_exactly : ¬ ∀ (events : List Event) (s : Runtime) (session : SessionId)
    (info : SessionInfo), Runs anyEvent {} events s → s.sessions session = some info →
    ((endSession session).exec s).1 = .ok () →
    EndsExactly s session info ((endSession session).exec s).2 := by
  intro h
  have hends := h namelessCalls namelessRuntime ⟨1⟩ ⟨⟨360603551552314886⟩, ⟨937875747683376923⟩⟩
    (runs_performAll _ _) (by decide +kernel) (by decide +kernel)
  have hbefore : (namelessRuntime.state.executions.find (deriveExecutionId ⟨1⟩ 1)).map
      (fun x => decide (x.BoundTo ⟨⟨360603551552314886⟩, ⟨937875747683376923⟩⟩)) = some true := by
    decide +kernel
  have hafter : (((endSession ⟨1⟩).exec namelessRuntime).2.state.executions.find
      (deriveExecutionId ⟨1⟩ 1)).map (·.worker) = some ⟨360603551552314886⟩ := by decide +kernel
  obtain ⟨x, hx, hbound⟩ := Option.map_eq_some_iff.mp hbefore
  rw [hends.executions, Table.find_revise, hx, Option.map_some, Option.map_some,
    ExecutionRecord.after, if_pos (of_decide_eq_true hbound)] at hafter
  have hnil : (.nil : WorkerId) = ⟨360603551552314886⟩ := Option.some.inj hafter
  exact absurd hnil (by decide)

end ExecutionFabric
