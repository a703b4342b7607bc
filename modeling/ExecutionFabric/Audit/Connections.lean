import ExecutionFabric.Model.Server
import ExecutionFabric.Audit.SessionEnds
import ExecutionFabric.Audit.RecordLaws

/-!
# The sessions of a connection

A connection keeps one session slot, and every worker HELLO overwrites it. `Booked` follows
a run of the server: every session begun on a connection that is still there stays open, and
the slot holds the last one. When the connection goes away only that one ends.
-/
namespace ExecutionFabric

open Lib Program

/-! ## Serving a frame -/

/-- The session a frame begins, if it is a worker HELLO the runtime accepts. -/
def Server.begins (v : Server) (f : RequestFrame) : Option (SessionId × SessionInfo) :=
  if f.type.isReply = true then none
  else match f.served with
    | some (.hello hello) =>
      if hello.asWorker = true then
        match ((beginSession hello.worker hello.boot).exec v.runtime).1 with
        | .ok answer => some (answer.2, ⟨hello.worker, hello.boot⟩)
        | .error _ => none
      else none
    | _ => none

/-- The server after a frame that begins no session. -/
structure Server.Sedentary (v v' : Server) : Prop where
  connections : v'.connections = v.connections
  nextConnection : v'.nextConnection = v.nextConnection
  sessions : v'.runtime.sessions = v.runtime.sessions
  nextSession : v'.runtime.nextSession = v.runtime.nextSession

/-- The server after the connection `k` has begun the session `p`. -/
structure Server.Began (v : Server) (k : Nat) (p : SessionId × SessionInfo) (v' : Server) :
    Prop where
  connections : v'.connections = Function.update v.connections k
    (some ⟨p.1, true, true, p.2.worker, p.2.boot⟩)
  nextConnection : v'.nextConnection = v.nextConnection
  id : p.1 = ⟨word v.runtime.nextSession⟩
  sessions : v'.runtime.sessions = Function.update v.runtime.sessions p.1 (some p.2)
  nextSession : v'.runtime.nextSession = v.runtime.nextSession + 1

/-- The runtime of the server made at most one call. -/
def Server.Calls (v v' : Server) : Prop :=
  v'.runtime = v.runtime ∨ ∃ c : Call, v'.runtime = c.perform v.runtime

/-- What serving a frame does to sessions and connections. -/
def Server.Settled (v : Server) (k : Nat) (f : RequestFrame) (v' : Server) : Prop :=
  v.Calls v' ∧ match v.begins f with
    | none => v.Sedentary v'
    | some p => v.Began k p v'

theorem beginSession_result (s : Runtime) (worker : WorkerId) (boot : WorkerBootId) :
    Leads (beginSession worker boot) s fun r s' => match r with
      | .error _ => s' = s
      | .ok answer => answer.2 = ⟨word s.nextSession⟩ ∧
        s' = { s with
          nextSession := s.nextSession + 1
          sessions := Function.update s.sessions ⟨word s.nextSession⟩ (some ⟨worker, boot⟩) } := by
  unfold beginSession
  apply leads_get
  apply leads_refuseIf
  · exact fun _ => rfl
  intro _
  apply leads_refuseIf
  · exact fun _ => rfl
  intro _
  apply leads_refuseIf
  · exact fun _ => rfl
  intro _
  apply leads_update
  exact leads_pure ⟨rfl, rfl⟩

/-- The operation behind a request is a public call that keeps the sessions. -/
theorem operation_call {r : ServedRequest} {caller : CallerContext} {request : RequestId}
    {operation : Op Answer} (h : r.operation caller request = some operation) :
    ∃ c : Call, c.intent.isSome = true ∧ ∀ s, (operation.exec s).2 = c.perform s := by
  cases r <;> simp only [ServedRequest.operation, Option.some.injEq, reduceCtorEq] at h <;>
    subst h
  case createExecution typed =>
    exact ⟨.createExecution caller typed, rfl, fun s => by rw [exec_map]; rfl⟩
  case bindWorker typed => exact ⟨.bindWorker caller typed, rfl, fun s => by rw [exec_map]; rfl⟩
  case start typed => exact ⟨.start typed, rfl, fun s => by rw [exec_map]; rfl⟩
  case beginAction typed => exact ⟨.beginAction typed, rfl, fun s => by rw [exec_map]; rfl⟩
  case completeAction typed => exact ⟨.completeAction typed, rfl, fun s => by rw [exec_map]; rfl⟩
  case failAction typed => exact ⟨.failAction typed, rfl, fun s => by rw [exec_map]; rfl⟩
  case reportSideEffect typed =>
    exact ⟨.reportSideEffect typed, rfl, fun s => by rw [exec_map]; rfl⟩
  case registerCheckpoint typed =>
    exact ⟨.registerCheckpoint typed, rfl, fun s => by rw [exec_map]; rfl⟩
  case resume typed => exact ⟨.resume typed, rfl, fun s => by rw [exec_map]; rfl⟩
  case suspendBegin e => exact ⟨.suspendBegin caller request e, rfl, fun s => by rw [exec_map]; rfl⟩
  case suspendCommit e => exact ⟨.suspendCommit caller request e, rfl, fun s => by rw [exec_map]; rfl⟩
  case fence e => exact ⟨.fence caller request e, rfl, fun s => by rw [exec_map]; rfl⟩
  case cancel e => exact ⟨.cancel caller request e, rfl, fun s => by rw [exec_map]; rfl⟩
  case retire e => exact ⟨.retire caller request e, rfl, fun s => by rw [exec_map]; rfl⟩
  case drain e => exact ⟨.drain caller request e, rfl, fun s => by rw [exec_map]; rfl⟩
  case completeExecution e =>
    exact ⟨.completeExecution caller request e, rfl, fun s => by rw [exec_map]; rfl⟩
  case advanceGeneration e =>
    exact ⟨.advanceExecutionGeneration caller request e, rfl, fun s => by rw [exec_map]; rfl⟩
  case updatePolicy e policy apply =>
    exact ⟨.updatePolicy caller request e policy apply, rfl, fun s => by rw [exec_map]; rfl⟩
  case recover e => exact ⟨.recover caller request e, rfl, fun s => by rw [exec_map]; rfl⟩
  case resolveAmbiguity typed =>
    exact ⟨.resolveAmbiguity { typed with caller := caller }, rfl, fun s => by rw [exec_map]; rfl⟩

section Serve

variable {v : Server} {k : Nat} {connection : ConnectionState} {f : RequestFrame}

theorem served_hello {hello : HelloRequest} (h : f.served = some (.hello hello)) :
    f.type.base = .hello := by
  unfold RequestFrame.served at h
  split at h
  · cases h
  split at h
  · cases h
  split at h
  · cases h
  exact (f.typed _ h).symm

theorem begins_none (h : ∀ hello, f.served ≠ some (.hello hello)) : v.begins f = none := by
  unfold Server.begins
  split
  · rfl
  split
  next hello hserved => exact absurd hserved (h hello)
  · rfl

/-- A server that differs in nothing but counters and replies. -/
theorem settled_idle {v' : Server} (hbegins : v.begins f = none) (hruntime : v'.runtime = v.runtime)
    (hconnections : v'.connections = v.connections)
    (hnext : v'.nextConnection = v.nextConnection) : v.Settled k f v' := by
  refine ⟨.inl hruntime, ?_⟩
  rw [hbegins]
  exact ⟨hconnections, hnext, by rw [hruntime], by rw [hruntime]⟩

theorem rememberReply_keeps (id : RequestId) (reply : CachedReply) :
    (v.rememberReply id reply).runtime = v.runtime ∧
      (v.rememberReply id reply).connections = v.connections ∧
      (v.rememberReply id reply).nextConnection = v.nextConnection ∧
      (v.rememberReply id reply).config = v.config := by
  unfold Server.rememberReply
  split
  · exact ⟨rfl, rfl, rfl, rfl⟩
  split <;> exact ⟨rfl, rfl, rfl, rfl⟩

theorem serveOperation_settled (hs : Orderly v.runtime) (hbegins : v.begins f = none)
    {r : ServedRequest} {caller : CallerContext} {request : RequestId} :
    v.Settled k f (v.serveOperation f (r.operation caller request)).2 := by
  unfold Server.serveOperation
  split
  · exact settled_idle hbegins rfl rfl rfl
  next operation hoperation =>
    obtain ⟨c, hintent, hcall⟩ := operation_call hoperation
    have hprocess := (call_outcome c v.runtime hs).process hintent
    rw [← hcall] at hprocess
    have hserved : ∀ v' : Server, v'.runtime = (operation.exec v.runtime).2 →
        v'.connections = v.connections → v'.nextConnection = v.nextConnection →
        v.Settled k f v' := by
      intro v' hruntime hconnections hnext
      refine ⟨.inr ⟨c, hruntime.trans (hcall _)⟩, ?_⟩
      rw [hbegins]
      exact ⟨hconnections, hnext, by rw [hruntime]; exact hprocess.sessions,
        by rw [hruntime]; exact hprocess.nextSession⟩
    dsimp only
    split
    next outcome hok =>
      obtain ⟨hruntime, hconnections, hnext, -⟩ := rememberReply_keeps
        (v := { v with runtime := (operation.exec v.runtime).2 }) f.request
        ⟨f.type.base, (operation.exec v.runtime).1⟩
      exact hserved _ hruntime hconnections hnext
    · exact hserved _ rfl rfl rfl

theorem serveHello_settled {hello : HelloRequest} (hreply : f.type.isReply = false)
    (hserved : f.served = some (.hello hello)) : v.Settled k f (v.serveHello k f hello).2 := by
  have hresult := beginSession_result v.runtime hello.worker hello.boot
  unfold Leads at hresult
  unfold Server.serveHello
  dsimp only
  split
  next hworker =>
    have hcall : ((beginSession hello.worker hello.boot).exec v.runtime).2 =
      (Call.beginSession hello.worker hello.boot).perform v.runtime := rfl
    rcases hexec : (beginSession hello.worker hello.boot).exec v.runtime with ⟨result, s'⟩
    rw [hexec] at hresult hcall
    cases result with
    | error e =>
      have hbegins : v.begins f = none := by
        unfold Server.begins
        rw [if_neg (by simp [hreply]), hserved]
        dsimp only
        rw [if_pos hworker, hexec]
      dsimp only at hresult
      subst hresult
      exact settled_idle hbegins rfl rfl rfl
    | ok answer =>
      have hbegins : v.begins f = some (answer.2, ⟨hello.worker, hello.boot⟩) := by
        unfold Server.begins
        rw [if_neg (by simp [hreply]), hserved]
        dsimp only
        rw [if_pos hworker, hexec]
      obtain ⟨hid, hs'⟩ := hresult
      refine ⟨.inr ⟨_, hcall⟩, ?_⟩
      rw [hbegins]
      dsimp only
      subst hs'
      exact ⟨rfl, rfl, hid, by rw [hid], rfl⟩
  next hworker =>
    refine settled_idle ?_ rfl rfl rfl
    unfold Server.begins
    rw [if_neg (by simp [hreply]), hserved]
    exact if_neg hworker

theorem takeSnapshot_keeps (s : Runtime) (truncate : Bool) :
    Leads (takeSnapshot truncate) s fun _ s' =>
      s'.sessions = s.sessions ∧ s'.nextSession = s.nextSession := by
  unfold takeSnapshot
  apply leads_get
  apply leads_refuseIf
  · exact fun _ => ⟨rfl, rfl⟩
  intro _
  exact ⟨rfl, rfl⟩

theorem serveRequest_settled (hs : Orderly v.runtime) {r : ServedRequest}
    (hreply : f.type.isReply = false) (hserved : f.served = some r) :
    v.Settled k f (v.serveRequest k connection f r).2 := by
  have hother : (∀ hello, r ≠ .hello hello) → v.begins f = none := fun hne =>
    begins_none fun hello h => hne hello (Option.some.inj (hserved.symm.trans h))
  cases r with
  | hello hello => exact serveHello_settled hreply hserved
  | ping token => exact settled_idle (hother fun _ h => by cases h) rfl rfl rfl
  | shutdown =>
    unfold Server.serveRequest
    dsimp only
    split <;> exact settled_idle (hother fun _ h => by cases h) rfl rfl rfl
  | snapshot truncate =>
    obtain ⟨hsessions, hnext⟩ := takeSnapshot_keeps v.runtime truncate
    refine ⟨.inr ⟨.takeSnapshot truncate, rfl⟩, ?_⟩
    rw [hother fun _ h => by cases h]
    exact ⟨rfl, rfl, hsessions, hnext⟩
  | _ => exact serveOperation_settled hs (hother fun _ h => by cases h)

/-- The counters have no part in it. -/
theorem Server.Settled.of_counted {n : Nat} {v' : Server}
    (h : ({ v with requests := n } : Server).Settled k f v') : v.Settled k f v' := by
  obtain ⟨hcalls, hsessions⟩ := h
  have hbegins : ({ v with requests := n } : Server).begins f = v.begins f := rfl
  rw [hbegins] at hsessions
  refine ⟨hcalls, ?_⟩
  cases hcase : v.begins f with
  | none =>
    rw [hcase] at hsessions
    exact { hsessions with }
  | some p =>
    rw [hcase] at hsessions
    exact { hsessions with }

/-- Serving a frame begins the session of a worker HELLO and touches no other. -/
theorem serve_settled (hs : Orderly v.runtime) :
    v.Settled k f (v.serve k connection f).2 := by
  unfold Server.serve
  dsimp only
  split
  next hreply => exact settled_idle (if_pos hreply) rfl rfl rfl
  next hreply =>
    rw [Bool.not_eq_true] at hreply
    split
    next cached hcached =>
      refine settled_idle (begins_none fun hello hserved => ?_) rfl rfl rfl
      rw [if_neg (by simp [served_hello hserved])] at hcached
      cases hcached
    next hmissed =>
      split
      next hserved =>
        refine settled_idle (begins_none fun hello h => ?_) rfl rfl rfl
        rw [hserved] at h
        cases h
      next r hserved =>
        exact Server.Settled.of_counted
          (serveRequest_settled (v := { v with requests := v.requests + 1 }) hs hreply hserved)

end Serve

/-! ## The end of a session -/

theorem fenceAll_keeps (xs : List ExecutionRecord) (s : Runtime) :
    Leads (fenceAll xs) s fun _ s' =>
      s'.sessions = s.sessions ∧ s'.nextSession = s.nextSession := by
  induction xs generalizing s with
  | nil => exact leads_pure ⟨rfl, rfl⟩
  | cons x rest ih =>
    unfold fenceAll
    apply leads_get
    apply leads_putAll
    exact ih _

/-- An ended session is gone, and every other one stays. -/
theorem endSession_sessions (s : Runtime) (session : SessionId) :
    ((Call.endSession session).perform s).sessions session = none ∧
      (∀ id, id ≠ session → ((Call.endSession session).perform s).sessions id = s.sessions id) ∧
      ((Call.endSession session).perform s).nextSession = s.nextSession := by
  have hends : Leads (endSession session) s fun _ s' => s'.sessions session = none ∧
      (∀ id, id ≠ session → s'.sessions id = s.sessions id) ∧ s'.nextSession = s.nextSession := by
    unfold endSession
    apply leads_get
    apply leads_require
    · exact fun hnone => ⟨hnone, fun _ _ => rfl, rfl⟩
    intro info hinfo
    apply leads_update
    refine leads_mono (fenceAll_keeps _ _) ?_
    rintro r s' ⟨hsessions, hnext⟩
    refine ⟨?_, fun id hid => ?_, hnext⟩
    · rw [hsessions]
      exact Function.update_self _ _ _
    · rw [hsessions]
      exact Function.update_of_ne hid _ _
  exact hends

/-! ## Whole runs of the server -/

theorem runtime_exit (v : Server) (k : Nat) (c : ConnectionState) :
    (v.exit k c).runtime = if c.established = true ∧ c.isWorker = true then
      (Call.endSession c.session).perform v.runtime else v.runtime := rfl

/-- The sessions an event begins on the connection `k`. -/
def ServerEvent.begunOn (e : ServerEvent) (v : Server) (k : Nat) : List (SessionId × SessionInfo) :=
  match e with
  | .request k' f => if k' = k ∧ (v.connections k).isSome = true then (v.begins f).toList else []
  | _ => []

/-- The sessions a run begins on the connection `k`, in order. -/
def Server.sessionsBegun (k : Nat) : Server → List ServerEvent → List (SessionId × SessionInfo)
  | _, [] => []
  | v, e :: rest => e.begunOn v k ++ Server.sessionsBegun k (e.perform v) rest

/-- `begun` are the sessions begun so far on each connection: they have different ids, those of a
connection that is still there are open, and its slot holds the last one. -/
structure Server.Booked (v : Server) (begun : Nat → List (SessionId × SessionInfo)) : Prop where
  unborn : ∀ k, v.nextConnection ≤ k → v.connections k = none ∧ begun k = []
  slot : ∀ k c, v.connections k = some c → (begun k = [] ∧ c.established = false) ∨
    ∃ earlier p, begun k = earlier ++ [p] ∧ c = ⟨p.1, true, true, p.2.worker, p.2.boot⟩
  kept : ∀ k c p, v.connections k = some c → p ∈ begun k → v.runtime.sessions p.1 = some p.2
  numbered : ∀ k p, p ∈ begun k → ∃ n < v.runtime.nextSession, p.1 = ⟨word n⟩
  distinct : ∀ k, ((begun k).map Prod.fst).Nodup
  apart : ∀ k k' p p', k ≠ k' → p ∈ begun k → p' ∈ begun k' → p.1 ≠ p'.1

theorem word_ne {m n : Nat} (h : m < n) (hn : n < 2 ^ 64) : word m ≠ word n := by
  intro he
  have hvalue := congrArg UInt64.toNat he
  rw [word, word, UInt64.toNat_ofNat', UInt64.toNat_ofNat', Nat.mod_eq_of_lt (by omega),
    Nat.mod_eq_of_lt hn] at hvalue
  omega

namespace Server.Booked

variable {v v' : Server} {begun : Nat → List (SessionId × SessionInfo)} {k : Nat}

theorem accept (h : v.Booked begun) : v.accept.Booked begun := by
  by_cases hfull : v.stopRequested = true ∨ v.config.maxConnections ≤ v.activeConnections
  · rw [show v.accept = v from if_pos hfull]
    exact h
  have haccept : v.accept = { v with
      activeConnections := v.activeConnections + 1
      connections := Function.update v.connections v.nextConnection (some {})
      nextConnection := v.nextConnection + 1 } := if_neg hfull
  have hconnections : v.accept.connections =
      Function.update v.connections v.nextConnection (some {}) := by rw [haccept]
  have hruntime : v.accept.runtime = v.runtime := by rw [haccept]
  have hnext : v.accept.nextConnection = v.nextConnection + 1 := by rw [haccept]
  obtain ⟨-, hnone⟩ := h.unborn _ (Nat.le_refl _)
  refine ⟨?_, ?_, ?_, by rw [hruntime]; exact h.numbered, h.distinct, h.apart⟩
  · intro k hk
    rw [hnext] at hk
    rw [hconnections, Function.update_of_ne (show k ≠ v.nextConnection by omega)]
    exact h.unborn k (by omega)
  · intro k c hc
    rw [hconnections] at hc
    by_cases hk : k = v.nextConnection
    · subst hk
      rw [Function.update_self] at hc
      cases hc
      exact .inl ⟨hnone, rfl⟩
    · rw [Function.update_of_ne hk] at hc
      exact h.slot k c hc
  · intro k c p hc hp
    rw [hconnections] at hc
    rw [hruntime]
    by_cases hk : k = v.nextConnection
    · subst hk
      rw [hnone] at hp
      cases hp
    · rw [Function.update_of_ne hk] at hc
      exact h.kept k c p hc hp

theorem sedentary (h : v.Booked begun) (hv : v.Sedentary v') : v'.Booked begun where
  unborn := by
    rw [hv.nextConnection, hv.connections]
    exact h.unborn
  slot := by
    rw [hv.connections]
    exact h.slot
  kept := by
    rw [hv.connections, hv.sessions]
    exact h.kept
  numbered := by
    rw [hv.nextSession]
    exact h.numbered
  distinct := h.distinct
  apart := h.apart

/-- A new session is written behind those of its connection; its id has not been used. -/
theorem began (h : v.Booked begun) {p : SessionId × SessionInfo} {c : ConnectionState}
    (hc : v.connections k = some c) (hv : v.Began k p v')
    (hcount : v'.runtime.nextSession ≤ 2 ^ 64) :
    v'.Booked (Function.update begun k (begun k ++ [p])) := by
  have hfresh : ∀ k' p', p' ∈ begun k' → p'.1 ≠ p.1 := by
    intro k' p' hp'
    obtain ⟨n, hn, hid⟩ := h.numbered k' p' hp'
    rw [hid, hv.id]
    rw [hv.nextSession] at hcount
    exact fun he => word_ne hn (by omega) (congrArg Id.value he)
  have hmem : ∀ k' p', p' ∈ Function.update begun k (begun k ++ [p]) k' →
      p' ∈ begun k' ∨ (k' = k ∧ p' = p) := by
    intro k' p' hp'
    by_cases hk : k' = k
    · subst hk
      rw [Function.update_self, List.mem_append, List.mem_singleton] at hp'
      exact hp'.imp id fun he => ⟨rfl, he⟩
    · rw [Function.update_of_ne hk] at hp'
      exact .inl hp'
  refine ⟨?_, ?_, ?_, ?_, ?_, ?_⟩
  · intro k' hk'
    rw [hv.nextConnection] at hk'
    have hne : k' ≠ k := by
      rintro rfl
      rw [(h.unborn k' hk').1] at hc
      cases hc
    rw [hv.connections, Function.update_of_ne hne, Function.update_of_ne hne]
    exact h.unborn k' hk'
  · intro k' c' hc'
    rw [hv.connections] at hc'
    by_cases hk : k' = k
    · subst hk
      rw [Function.update_self] at hc' ⊢
      exact .inr ⟨begun k', p, rfl, (Option.some.inj hc').symm⟩
    · rw [Function.update_of_ne hk] at hc' ⊢
      exact h.slot k' c' hc'
  · intro k' c' p' hc' hp'
    rw [hv.sessions]
    rcases hmem k' p' hp' with hold | ⟨-, rfl⟩
    · rw [Function.update_of_ne (hfresh k' p' hold)]
      rw [hv.connections] at hc'
      by_cases hk : k' = k
      · subst hk
        exact h.kept k' c p' hc hold
      · rw [Function.update_of_ne hk] at hc'
        exact h.kept k' c' p' hc' hold
    · exact Function.update_self _ _ _
  · intro k' p' hp'
    rw [hv.nextSession]
    rcases hmem k' p' hp' with hold | ⟨-, rfl⟩
    · obtain ⟨n, hn, hid⟩ := h.numbered k' p' hold
      exact ⟨n, Nat.lt_succ_of_lt hn, hid⟩
    · exact ⟨v.runtime.nextSession, Nat.lt_succ_self _, hv.id⟩
  · intro k'
    by_cases hk : k' = k
    · subst hk
      rw [Function.update_self, List.map_append]
      refine List.nodup_append'.mpr ⟨h.distinct k', List.nodup_singleton _, ?_⟩
      rw [List.map_singleton, List.disjoint_singleton]
      intro hid
      obtain ⟨p', hp', he⟩ := List.mem_map.mp hid
      exact hfresh k' p' hp' he
    · rw [Function.update_of_ne hk]
      exact h.distinct k'
  · intro k₁ k₂ p₁ p₂ hne hp₁ hp₂
    rcases hmem k₁ p₁ hp₁ with hold₁ | ⟨rfl, rfl⟩
    · rcases hmem k₂ p₂ hp₂ with hold₂ | ⟨rfl, rfl⟩
      · exact h.apart k₁ k₂ p₁ p₂ hne hold₁ hold₂
      · exact hfresh k₁ p₁ hold₁
    · rcases hmem k₂ p₂ hp₂ with hold₂ | ⟨rfl, -⟩
      · exact (hfresh k₂ p₂ hold₂).symm
      · exact absurd rfl hne

/-- An exit ends at most the session in the slot. -/
theorem exit (h : v.Booked begun) {c : ConnectionState} (hc : v.connections k = some c) :
    (v.exit k c).Booked begun := by
  have hsessions : ∀ id, (c.established = true → id ≠ c.session) →
      (v.exit k c).runtime.sessions id = v.runtime.sessions id := by
    intro id hid
    rw [runtime_exit]
    split
    next hworker => exact (endSession_sessions v.runtime c.session).2.1 id (hid hworker.1)
    · rfl
  have hnext : (v.exit k c).runtime.nextSession = v.runtime.nextSession := by
    rw [runtime_exit]
    split
    · exact (endSession_sessions v.runtime c.session).2.2
    · rfl
  have hleft : ∀ k' c', (v.exit k c).connections k' = some c' → k' ≠ k ∧
      v.connections k' = some c' := by
    intro k' c' hc'
    have hne : k' ≠ k := by
      rintro rfl
      rw [show (v.exit k' c).connections k' = none from Function.update_self _ _ _] at hc'
      cases hc'
    exact ⟨hne, (Function.update_of_ne hne _ _).symm.trans hc'⟩
  refine ⟨?_, ?_, ?_, by rw [hnext]; exact h.numbered, h.distinct, h.apart⟩
  · intro k' hk'
    obtain ⟨hnone, hbegun⟩ := h.unborn k' hk'
    refine ⟨?_, hbegun⟩
    cases hc' : (v.exit k c).connections k' with
    | none => rfl
    | some c' =>
      rw [(hleft k' c' hc').2] at hnone
      cases hnone
  · exact fun k' c' hc' => h.slot k' c' (hleft k' c' hc').2
  · intro k' c' p hc' hp
    obtain ⟨hne, hold⟩ := hleft k' c' hc'
    rw [hsessions]
    · exact h.kept k' c' p hold hp
    · intro hestablished
      rcases h.slot k c hc with ⟨-, hidle⟩ | ⟨earlier, q, hq, rfl⟩
      · rw [hidle] at hestablished
        cases hestablished
      · exact h.apart k' k p q hne hp (by rw [hq]; simp)

end Server.Booked

/-- The sessions begun before and those the event begins. -/
def bookedAfter (begun : Nat → List (SessionId × SessionInfo)) (e : ServerEvent) (v : Server) :
    Nat → List (SessionId × SessionInfo) := fun k => begun k ++ e.begunOn v k

/-- No event takes a session number back. -/
theorem ServerEvent.nextSession_le (e : ServerEvent) {v : Server} (hs : Orderly v.runtime) :
    v.runtime.nextSession ≤ (e.perform v).runtime.nextSession := by
  cases e with
  | accept =>
    have hruntime : v.accept.runtime = v.runtime := by
      unfold Server.accept
      split <;> rfl
    exact Nat.le_of_eq (by rw [ServerEvent.perform, hruntime])
  | request k f =>
    unfold ServerEvent.perform
    dsimp only
    split
    next c hc =>
      obtain ⟨-, hsettled⟩ : v.Settled k f (v.serve k c f).2 := serve_settled hs
      cases hbegins : v.begins f with
      | none =>
        rw [hbegins] at hsettled
        exact Nat.le_of_eq hsettled.nextSession.symm
      | some p =>
        rw [hbegins] at hsettled
        rw [hsettled.nextSession]
        omega
    · exact Nat.le_refl _
  | exit k =>
    unfold ServerEvent.perform Server.exit
    dsimp only
    split
    · dsimp only
      split
      · exact Nat.le_of_eq (endSession_sessions _ _).2.2.symm
      · exact Nat.le_refl _
    · exact Nat.le_refl _

theorem Server.Booked.perform {v : Server} {begun : Nat → List (SessionId × SessionInfo)}
    (h : v.Booked begun) (hs : Orderly v.runtime) (e : ServerEvent)
    (hcount : (e.perform v).runtime.nextSession ≤ 2 ^ 64) :
    (e.perform v).Booked (bookedAfter begun e v) := by
  have hnone : (∀ k, e.begunOn v k = []) → bookedAfter begun e v = begun := by
    intro hbegun
    funext k
    rw [bookedAfter, hbegun, List.append_nil]
  cases e with
  | accept =>
    rw [hnone fun _ => rfl]
    exact h.accept
  | exit k =>
    rw [hnone fun _ => rfl]
    unfold ServerEvent.perform
    dsimp only
    split
    next c hc => exact h.exit hc
    · exact h
  | request k f =>
    cases hc : v.connections k with
    | none =>
      rw [hnone]
      · rw [show (ServerEvent.request k f).perform v = v by
          rw [ServerEvent.perform, hc]]
        exact h
      · intro k'
        refine if_neg ?_
        rintro ⟨rfl, hsome⟩
        rw [hc] at hsome
        cases hsome
    | some c =>
      have hperform : (ServerEvent.request k f).perform v = (v.serve k c f).2 := by
        rw [ServerEvent.perform, hc]
      obtain ⟨-, hsettled⟩ : v.Settled k f (v.serve k c f).2 := serve_settled hs
      rw [hperform] at hcount ⊢
      cases hbegins : v.begins f with
      | none =>
        rw [hbegins] at hsettled
        rw [hnone]
        · exact h.sedentary hsettled
        · intro k'
          unfold ServerEvent.begunOn
          dsimp only
          rw [hbegins]
          split <;> rfl
      | some p =>
        rw [hbegins] at hsettled
        have hbooked : bookedAfter begun (.request k f) v =
            Function.update begun k (begun k ++ [p]) := by
          funext k'
          unfold bookedAfter ServerEvent.begunOn
          dsimp only
          by_cases hk : k = k'
          · subst hk
            rw [Function.update_self, if_pos ⟨rfl, by rw [hc]; rfl⟩, hbegins]
            rfl
          · rw [Function.update_of_ne (Ne.symm hk), if_neg fun hboth => hk hboth.1, List.append_nil]
        rw [hbooked]
        exact h.began hc hsettled hcount

/-- The runtime of the server is one a run of calls leads to. -/
def Server.Reached (v : Server) : Prop := ∃ calls, Runs anyEvent {} calls v.runtime

theorem Server.Reached.orderly {v : Server} (h : v.Reached) : Orderly v.runtime := by
  obtain ⟨calls, hrun⟩ := h
  exact (hrun.housed housed_start).1.orderly

theorem Server.Reached.calls {v v' : Server} (h : v.Reached) (hcalls : v.Calls v') :
    v'.Reached := by
  obtain ⟨calls, hrun⟩ := h
  rcases hcalls with hsame | ⟨c, hc⟩
  · exact ⟨calls, hsame ▸ hrun⟩
  · exact ⟨calls ++ [.call c], hc ▸ hrun.append (.cons trivial (.nil _))⟩

theorem Server.Reached.perform {v : Server} (h : v.Reached) (e : ServerEvent) :
    (e.perform v).Reached := by
  cases e with
  | accept =>
    refine h.calls (.inl ?_)
    show v.accept.runtime = v.runtime
    unfold Server.accept
    split <;> rfl
  | request k f =>
    unfold ServerEvent.perform
    dsimp only
    split
    · exact h.calls (serve_settled h.orderly).1
    · exact h
  | exit k =>
    unfold ServerEvent.perform
    dsimp only
    split
    next c hc =>
      refine h.calls ?_
      rw [Server.Calls, runtime_exit]
      by_cases hworker : c.established = true ∧ c.isWorker = true
      · exact .inr ⟨_, if_pos hworker⟩
      · exact .inl (if_neg hworker)
    · exact h

theorem Server.Reached.start {calls : List Event} {s : Runtime} (hrun : Runs anyEvent {} calls s)
    {config : ServerConfig} {entropy : UInt64} {v : Server}
    (hstart : Server.start config entropy s = some v) :
    v.Reached ∧ ∀ k, v.connections k = none := by
  unfold Server.start at hstart
  split at hstart
  · cases hstart
    exact ⟨⟨calls ++ [.call (.openRuntime config.runtime entropy)],
      hrun.append (.cons trivial (.nil _))⟩, fun _ => rfl⟩
  · cases hstart

theorem Server.Reached.after {v : Server} (h : v.Reached) (events : List ServerEvent) :
    (v.after events).Reached := by
  induction events generalizing v with
  | nil => exact h
  | cons e rest ih => exact ih (h.perform e)

theorem nextSession_le_after {v : Server} (h : v.Reached) (events : List ServerEvent) :
    v.runtime.nextSession ≤ (v.after events).runtime.nextSession := by
  induction events generalizing v with
  | nil => exact Nat.le_refl _
  | cons e rest ih => exact (e.nextSession_le h.orderly).trans (ih (h.perform e))

/-- The run lemma: the books stay right while no session number has been used twice. -/
theorem Server.Booked.after {v : Server} {begun : Nat → List (SessionId × SessionInfo)}
    (h : v.Booked begun) (hv : v.Reached) (events : List ServerEvent)
    (hcount : (v.after events).runtime.nextSession ≤ 2 ^ 64) :
    (v.after events).Booked fun k => begun k ++ Server.sessionsBegun k v events := by
  induction events generalizing v begun with
  | nil =>
    have hsame : (fun k => begun k ++ Server.sessionsBegun k v []) = begun :=
      funext fun k => List.append_nil _
    rw [hsame]
    exact h
  | cons e rest ih =>
    have hstep := h.perform hv.orderly e
      ((nextSession_le_after (hv.perform e) rest).trans hcount)
    have hsame : (fun k => begun k ++ Server.sessionsBegun k v (e :: rest)) =
        fun k => bookedAfter begun e v k ++ Server.sessionsBegun k (e.perform v) rest :=
      funext fun k => (List.append_assoc _ _ _).symm
    rw [hsame]
    exact ih hstep (hv.perform e) hcount

theorem Server.booked_start {v : Server} (h : ∀ k, v.connections k = none) :
    v.Booked fun _ => [] := by
  refine ⟨fun k _ => ⟨h k, rfl⟩, ?_, ?_, fun k p hp => (by cases hp), fun k => List.nodup_nil,
    fun k k' p p' _ hp => (by cases hp)⟩
  · intro k c hc
    rw [h] at hc
    cases hc
  · intro k c p hc
    rw [h] at hc
    cases hc

section Closing

variable {calls : List Event} {s : Runtime} {config : ServerConfig} {entropy : UInt64}
  {v₀ : Server} {events : List ServerEvent} {k : Nat}

theorem booked_of_start (hrun : Runs anyEvent {} calls s)
    (hstart : Server.start config entropy s = some v₀)
    (hcount : (v₀.after events).runtime.nextSession ≤ 2 ^ 64) :
    (v₀.after events).Reached ∧
      (v₀.after events).Booked fun k => Server.sessionsBegun k v₀ events := by
  obtain ⟨hreached, hnone⟩ := Server.Reached.start hrun hstart
  exact ⟨hreached.after events, (Server.booked_start hnone).after hreached events hcount⟩

/-- **A connection that goes away ends every session begun on it exactly when it began at most
one.** -/
theorem connection_ends_iff (hrun : Runs anyEvent {} calls s)
    (hstart : Server.start config entropy s = some v₀)
    (hopen : ((v₀.after events).connections k).isSome = true)
    (hcount : (v₀.after events).runtime.nextSession ≤ 2 ^ 64) :
    (∀ p ∈ Server.sessionsBegun k v₀ events,
      ((ServerEvent.exit k).perform (v₀.after events)).runtime.sessions p.1 = none) ↔
    (Server.sessionsBegun k v₀ events).length ≤ 1 := by
  obtain ⟨-, hbooked⟩ := booked_of_start hrun hstart hcount
  obtain ⟨c, hc⟩ := Option.isSome_iff_exists.mp hopen
  generalize v₀.after events = v at hbooked hc
  have hexit : (ServerEvent.exit k).perform v = v.exit k c := by
    rw [ServerEvent.perform, hc]
  rw [hexit]
  rcases hbooked.slot k c hc with ⟨hnone, -⟩ | ⟨earlier, p, hbegun, rfl⟩
  · rw [hnone]
    exact ⟨fun _ => Nat.zero_le _, fun _ p hp => (by cases hp)⟩
  have hruntime : (v.exit k ⟨p.1, true, true, p.2.worker, p.2.boot⟩).runtime =
      (Call.endSession p.1).perform v.runtime := (runtime_exit _ _ _).trans (if_pos ⟨rfl, rfl⟩)
  obtain ⟨hended, hothers, -⟩ := endSession_sessions v.runtime p.1
  rw [hruntime]
  constructor
  · intro hall
    -- an earlier session has another id and is still open
    have hdistinct := hbooked.distinct k
    rw [hbegun, List.map_append, List.map_singleton, List.nodup_append', List.disjoint_singleton]
      at hdistinct
    cases earlier with
    | nil =>
      rw [hbegun]
      exact Nat.le_refl _
    | cons q rest =>
      have hq : q ∈ Server.sessionsBegun k v₀ events := by
        rw [hbegun]
        exact List.mem_append_left _ List.mem_cons_self
      have hne : q.1 ≠ p.1 := fun he =>
        hdistinct.2.2 (he ▸ List.mem_map_of_mem (f := Prod.fst) List.mem_cons_self)
      have hkept := hbooked.kept k _ q hc hq
      have hgone := hall q hq
      rw [hothers _ hne, hkept] at hgone
      cases hgone
  · intro hlength q hq
    rw [hbegun, List.length_append, List.length_singleton] at hlength
    have hnil : earlier = [] := List.length_eq_zero_iff.mp (by omega)
    rw [hbegun, hnil, List.nil_append, List.mem_singleton] at hq
    rw [hq]
    exact hended

/-- Ending a session leaves no execution bound to its worker boot. -/
theorem unbound_endSession {st : Runtime} (hst : Runs anyEvent {} calls st)
    (hfree : CollisionFree st.minted) {session : SessionId} {info : SessionInfo}
    (hsession : st.sessions session = some info) {e : ExecutionId} {x : ExecutionRecord}
    (hx : ((Call.endSession session).perform st).state.executions.find e = some x) :
    ¬ (x.worker = info.worker ∧ x.boot = info.boot) := by
  have hleases : LeaseInvariant st.state :=
    (governed_of_runs hst hfree).leaseInvariant (kept_of_runs hst hfree).coherent
  obtain ⟨hleased, hworker⟩ := hst.session_leased hsession
  have hfenceable : Fenceable st.state (boundTo st.state info) :=
    hleased.fenceable fun k x hx hbound => (hleases.bound k x hx).1.mp (hbound.1 ▸ hworker)
  have hfenced : Leads (endSession session) st fun _ s' =>
      ∃ sequence, s'.state = lostState st.state (boundTo st.state info) sequence :=
    leads_endSession hsession (leads_mono (fenceAll_exact _ _ hfenceable) fun _ _ hends => hends.2.2)
  obtain ⟨sequence, hstate⟩ := hfenced
  have hfind : ((Call.endSession session).perform st).state.executions.find e =
      (st.state.executions.find e).map (fencedAmong (boundTo st.state info)) := by
    rw [show ((Call.endSession session).perform st).state = _ from hstate]
    exact Table.find_revise _ _ (id_fencedAmong _) _
  rw [hfind] at hx
  obtain ⟨y, hy, rfl⟩ := Option.map_eq_some_iff.mp hx
  rw [fencedAmong_boundTo ((Table.find_eq_some_iff _ _ _).mp hy).1, ExecutionRecord.after]
  rintro ⟨hyworker, hyboot⟩
  split at hyworker
  · exact hworker hyworker.symm
  next hfar =>
    rw [if_neg hfar] at hyboot
    have hleased : y.lease ≠ .nil := (hleases.bound _ y hy).1.mp (hyworker ▸ hworker)
    refine hfar ⟨hyworker, hyboot, Bool.eq_false_iff.mpr fun hterminal => ?_⟩
    exact hleased (hleases.unleased _ y hy (.inl hterminal))

/-- **Where a connection began a single session, its end leaves no execution bound to that
worker boot.** -/
theorem connection_end_unbinds (hrun : Runs anyEvent {} calls s)
    (hstart : Server.start config entropy s = some v₀)
    (hopen : ((v₀.after events).connections k).isSome = true)
    (hcount : (v₀.after events).runtime.nextSession ≤ 2 ^ 64)
    (hfree : CollisionFree (v₀.after events).runtime.minted)
    {p : SessionId × SessionInfo} (hbegun : Server.sessionsBegun k v₀ events = [p]) :
    ∀ e x, ((ServerEvent.exit k).perform (v₀.after events)).runtime.state.executions.find e =
      some x → ¬ (x.worker = p.2.worker ∧ x.boot = p.2.boot) := by
  obtain ⟨⟨calls', hcalls⟩, hbooked⟩ := booked_of_start hrun hstart hcount
  obtain ⟨c, hc⟩ := Option.isSome_iff_exists.mp hopen
  generalize v₀.after events = v at hbooked hc hcalls hfree
  have hexit : (ServerEvent.exit k).perform v = v.exit k c := by
    rw [ServerEvent.perform, hc]
  have hkept : v.runtime.sessions p.1 = some p.2 :=
    hbooked.kept k c p hc (by rw [hbegun]; exact List.mem_singleton_self p)
  have hruntime : (v.exit k c).runtime = (Call.endSession p.1).perform v.runtime := by
    rcases hbooked.slot k c hc with ⟨hnone, -⟩ | ⟨earlier, q, hslot, rfl⟩
    · rw [hbegun] at hnone
      cases hnone
    · rw [hbegun] at hslot
      have hlength := congrArg List.length hslot
      rw [List.length_append, List.length_singleton, List.length_singleton] at hlength
      have hnil : earlier = [] := List.length_eq_zero_iff.mp (by omega)
      rw [hnil, List.nil_append, List.cons.injEq] at hslot
      rw [hslot.1, runtime_exit]
      exact if_pos ⟨rfl, rfl⟩
  intro e x hx
  rw [hexit, hruntime] at hx
  exact unbound_endSession hcalls hfree hkept hx

end Closing

/-! ## A worker that connects, binds and leaves -/

/-- The HELLO of the worker `2` with the boot `7`. -/
def workerHello : RequestFrame := (ServedRequest.hello ⟨⟨2⟩, ⟨7⟩, true⟩).frame ⟨1⟩

def servingConfig : ServerConfig := { runtime := { createIfMissing := true } }

/-- The server on a new store. -/
def servingStart : Server :=
  { config := servingConfig, runtime := (Call.openRuntime servingConfig.runtime 1).perform {} }

theorem start_serving : Server.start servingConfig 1 {} = some servingStart := by
  have hok : ((Call.openRuntime servingConfig.runtime 1).status {}).toBool = true := by
    decide +kernel
  unfold Server.start
  split
  · rfl
  next e he =>
    rw [he] at hok
    cases hok

/-- A worker connects, an execution is created and the worker is bound to it. -/
def workerVisit : List ServerEvent :=
  [.accept, .request 0 workerHello,
    .request 0 ((ServedRequest.createExecution {}).frame ⟨2⟩),
    .request 0 ((ServedRequest.bindWorker
      { execution := deriveExecutionId ⟨1⟩ 1, worker := ⟨2⟩, boot := ⟨7⟩ }).frame ⟨3⟩)]

theorem connection_ends_worker : (∀ p ∈ Server.sessionsBegun 0 servingStart workerVisit,
    ((ServerEvent.exit 0).perform (servingStart.after workerVisit)).runtime.sessions p.1 = none) ↔
    (Server.sessionsBegun 0 servingStart workerVisit).length ≤ 1 :=
  connection_ends_iff (Runs.nil {}) start_serving (by decide +kernel) (by decide +kernel)

theorem connection_end_unbinds_worker :
    ((servingStart.after workerVisit).runtime.state.executions.find (deriveExecutionId ⟨1⟩ 1)).map
      (fun x => (x.worker, x.boot)) = some (⟨2⟩, ⟨7⟩) ∧
    ∀ e x, ((ServerEvent.exit 0).perform (servingStart.after workerVisit)).runtime.state.executions.find
      e = some x → ¬ (x.worker = ⟨2⟩ ∧ x.boot = ⟨7⟩) :=
  ⟨by decide +kernel, connection_end_unbinds (p := (⟨1⟩, ⟨⟨2⟩, ⟨7⟩⟩)) (Runs.nil {}) start_serving
    (by decide +kernel) (by decide +kernel) (by decide +kernel) (by decide +kernel)⟩

/-- With a second HELLO the first session outlives the connection. -/
example : (((ServerEvent.exit 0).perform (servingStart.after
    [.accept, .request 0 workerHello, .request 0 workerHello])).runtime.sessions ⟨1⟩).isSome =
    true := by decide +kernel

end ExecutionFabric
