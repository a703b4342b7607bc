import ExecutionFabric.Audit.Connections

/-!
# Replayed replies

The server answers a repeated request identity from its reply cache. The cache is a bounded
first-in first-out cache in every run, so a remembered reply is repeated word for word, and
its request not executed again, until as many newer replies as the cache holds have been
remembered.
-/
namespace ExecutionFabric

open Lib Program

/-- What a step does to the replies: nothing, or one more is remembered. -/
inductive Server.Replies (v v' : Server) : Prop
  | same (hconfig : v'.config = v.config) (horder : v'.replyOrder = v.replyOrder)
      (hcache : v'.replyCache = v.replyCache)
  | remembered (id : RequestId) (reply : CachedReply) (hconfig : v'.config = v.config)
      (hroom : v.config.requestCacheSize ≠ 0) (hnew : v.replyCache id = none)
      (horder : v'.replyOrder =
        (Fifo.insert v.config.requestCacheSize id reply v.replyOrder v.replyCache).1)
      (hcache : v'.replyCache =
        (Fifo.insert v.config.requestCacheSize id reply v.replyOrder v.replyCache).2)

/-- The replies of the server are a sound cache. -/
def Server.Cached (v : Server) : Prop :=
  Fifo.Sound v.config.requestCacheSize v.replyOrder v.replyCache

section Steps

variable {v v' : Server} {k : Nat} {connection : ConnectionState} {f : RequestFrame}

theorem rememberReply_replies (id : RequestId) (reply : CachedReply) :
    v.Replies (v.rememberReply id reply) := by
  unfold Server.rememberReply
  split
  · exact .same rfl rfl rfl
  next hremembers =>
    rw [not_or] at hremembers
    split
    · exact .same rfl rfl rfl
    next hnew =>
      exact .remembered id reply rfl hremembers.2 (Option.not_isSome_iff_eq_none.mp hnew) rfl rfl

theorem serveOperation_replies (operation : Option (Op Answer)) :
    v.Replies (v.serveOperation f operation).2 := by
  unfold Server.serveOperation
  split
  · exact .same rfl rfl rfl
  next operation =>
    dsimp only
    split
    · have hreplies := rememberReply_replies
        (v := { v with runtime := (operation.exec v.runtime).2 }) f.request
        ⟨f.type.base, (operation.exec v.runtime).1⟩
      cases hreplies with
      | same hconfig horder hcache => exact .same hconfig horder hcache
      | remembered id reply hconfig hroom hnew horder hcache =>
        exact .remembered id reply hconfig hroom hnew horder hcache
    · exact .same rfl rfl rfl

theorem serveRequest_replies (r : ServedRequest) :
    v.Replies (v.serveRequest k connection f r).2 := by
  cases r with
  | hello hello =>
    show v.Replies (v.serveHello k f hello).2
    unfold Server.serveHello
    dsimp only
    split
    · split <;> exact .same rfl rfl rfl
    · exact .same rfl rfl rfl
  | ping token => exact .same rfl rfl rfl
  | shutdown =>
    unfold Server.serveRequest
    dsimp only
    split <;> exact .same rfl rfl rfl
  | snapshot truncate => exact .same rfl rfl rfl
  | _ => exact serveOperation_replies _

theorem Server.Replies.of_counted {n : Nat}
    (h : ({ v with requests := n } : Server).Replies v') : v.Replies v' := by
  cases h with
  | same hconfig horder hcache => exact .same hconfig horder hcache
  | remembered id reply hconfig hroom hnew horder hcache =>
    exact .remembered id reply hconfig hroom hnew horder hcache

theorem serve_replies : v.Replies (v.serve k connection f).2 := by
  unfold Server.serve
  dsimp only
  split
  · exact .same rfl rfl rfl
  split
  · exact .same rfl rfl rfl
  split
  · exact .same rfl rfl rfl
  · exact Server.Replies.of_counted (serveRequest_replies _)

theorem ServerEvent.replies (e : ServerEvent) (v : Server) : v.Replies (e.perform v) := by
  cases e with
  | accept =>
    show v.Replies v.accept
    unfold Server.accept
    split <;> exact .same rfl rfl rfl
  | request k f =>
    unfold ServerEvent.perform
    dsimp only
    split
    · exact serve_replies
    · exact .same rfl rfl rfl
  | exit k =>
    unfold ServerEvent.perform
    dsimp only
    split <;> exact .same rfl rfl rfl

theorem Server.Cached.step (h : v.Cached) (hreplies : v.Replies v') : v'.Cached := by
  cases hreplies with
  | same hconfig horder hcache =>
    unfold Server.Cached
    rw [hconfig, horder, hcache]
    exact h
  | remembered id reply hconfig hroom hnew horder hcache =>
    unfold Server.Cached
    rw [hconfig, horder, hcache]
    exact h.insert hroom hnew

/-- A remembered reply changes the order, because its identity was not in it. -/
theorem Server.Cached.order_ne (h : v.Cached) {id : RequestId} {reply : CachedReply}
    (hnew : v.replyCache id = none) :
    (Fifo.insert v.config.requestCacheSize id reply v.replyOrder v.replyCache).1 ≠
      v.replyOrder := by
  intro hsame
  have hmem : id ∈ v.replyOrder := by
    rw [← hsame]
    exact List.mem_append_right _ (List.mem_singleton_self id)
  have hcached := (h.listed id).mpr hmem
  rw [hnew] at hcached
  cases hcached

end Steps

/-- How many replies the run remembers. -/
def Server.repliesRemembered : Server → List ServerEvent → Nat
  | _, [] => 0
  | v, e :: rest =>
    (if (e.perform v).replyOrder = v.replyOrder then 0 else 1) +
      Server.repliesRemembered (e.perform v) rest

/-- The reply is still in the cache while there was room for all newer ones. -/
theorem young_after {v : Server} {id : RequestId} {reply : CachedReply} {n : Nat}
    (hcached : v.Cached) (h : Fifo.Young v.replyOrder v.replyCache id reply n)
    (events : List ServerEvent)
    (hroom : n + Server.repliesRemembered v events < v.config.requestCacheSize) :
    ∃ m, Fifo.Young (v.after events).replyOrder (v.after events).replyCache id reply m := by
  induction events generalizing v n with
  | nil => exact ⟨n, h⟩
  | cons e rest ih =>
    have hreplies := e.replies v
    have hnext := hcached.step hreplies
    unfold Server.repliesRemembered at hroom
    cases hreplies with
    | same hconfig horder hcache =>
      rw [if_pos horder] at hroom
      refine ih hnext (n := n) ?_ ?_
      · rw [horder, hcache]
        exact h
      · rw [hconfig]
        omega
    | remembered id' reply' hconfig hsize hnew horder hcache =>
      rw [if_neg (horder ▸ hcached.order_ne hnew)] at hroom
      refine ih hnext (n := n + 1) ?_ ?_
      · rw [horder, hcache]
        exact h.insert hcached (by omega) hnew
      · rw [hconfig]
        omega

section Runs

variable {config : ServerConfig} {entropy : UInt64} {s : Runtime} {v₀ : Server}

/-- **In every run the reply cache holds at most its configured number of replies, and its order
lists each once.** -/
theorem replies_cached (hstart : Server.start config entropy s = some v₀)
    (events : List ServerEvent) : (v₀.after events).Cached := by
  have hrun : ∀ (events : List ServerEvent) (v : Server), v.Cached → (v.after events).Cached := by
    intro events
    induction events with
    | nil => exact fun v h => h
    | cons e rest ih => exact fun v h => ih _ (h.step (e.replies v))
  refine hrun events v₀ ?_
  unfold Server.start at hstart
  split at hstart
  · cases hstart
    exact Fifo.Sound.empty _
  · cases hstart

/-- **A remembered reply is repeated word for word, and its request is not executed again, until
as many newer replies as the cache holds have been remembered.** -/
theorem reply_repeated (hstart : Server.start config entropy s = some v₀)
    {earlier later : List ServerEvent} {v v' : Server} (hv : v = v₀.after earlier)
    (hv' : v' = v.after later) {id : RequestId} {reply : CachedReply}
    (hreply : v.lookupReply id = some reply) {older newer : List RequestId}
    (horder : v.replyOrder = older ++ id :: newer)
    (hroom : newer.length + Server.repliesRemembered v later < v.config.requestCacheSize)
    {k : Nat} {connection : ConnectionState} {f : RequestFrame} (hid : f.request = id)
    (hrequest : f.type.isReply = false) (hhello : f.type.base ≠ .hello)
    (hping : f.type.base ≠ .ping) :
    v'.serve k connection f = (f.reply reply.type reply.outcome,
      { v' with requests := v'.requests + 1, replayed := v'.replayed + 1 }) := by
  have hcached : v.Cached := hv ▸ replies_cached hstart earlier
  have hvalid : id.valid = true := by
    unfold Server.lookupReply at hreply
    split at hreply
    · assumption
    · cases hreply
  have hfound : v.replyCache id = some reply := by
    rw [Server.lookupReply, if_pos hvalid] at hreply
    exact hreply
  obtain ⟨m, hyoung⟩ := young_after hcached ⟨hfound, older, newer, horder, Nat.le_refl _⟩ later
    hroom
  rw [← hv'] at hyoung
  have hlookup : ({ v' with requests := v'.requests + 1 } : Server).lookupReply f.request =
      some reply := by
    rw [Server.lookupReply, hid, if_pos hvalid]
    exact hyoung.cached
  unfold Server.serve
  dsimp only
  rw [if_neg (by simp [hrequest]), if_pos ⟨hhello, hping⟩, hlookup]

end Runs

/-- A creation under the request identity `n`. -/
def creationFrame (n : UInt64) : RequestFrame := (ServedRequest.createExecution {}).frame ⟨n⟩

/-- The server after one creation, and after a second one. -/
def servedCreation : Server := servingStart.after [.accept, .request 0 (creationFrame 2)]

def servedCreations : Server := servedCreation.after [.request 0 (creationFrame 3)]

theorem reply_repeated_creation : ∃ reply, servedCreation.lookupReply ⟨2⟩ = some reply ∧
    servedCreations.serve 0 {} (creationFrame 2) = ((creationFrame 2).reply reply.type reply.outcome,
      { servedCreations with
        requests := servedCreations.requests + 1
        replayed := servedCreations.replayed + 1 }) := by
  obtain ⟨reply, hreply⟩ := Option.isSome_iff_exists.mp
    (show (servedCreation.lookupReply ⟨2⟩).isSome = true by decide +kernel)
  refine ⟨reply, hreply, ?_⟩
  have hfirst : servedCreation = servingStart.after [.accept, .request 0 (creationFrame 2)] := rfl
  have hsecond : servedCreations = servedCreation.after [.request 0 (creationFrame 3)] := rfl
  have horder : servedCreation.replyOrder = [] ++ ⟨2⟩ :: [] := by decide +kernel
  exact reply_repeated start_serving hfirst hsecond hreply horder (by decide +kernel) rfl
    (by decide +kernel) (by decide +kernel) (by decide +kernel)

end ExecutionFabric
