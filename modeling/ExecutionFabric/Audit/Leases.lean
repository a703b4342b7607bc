import ExecutionFabric.Audit.Authority

/-!
# Leases and continuations between calls

`Image.Ruled` is the authority invariant of one execution: the lease it names is the
only Active one it has and repeats its generations, its lifecycle and its lease fit
together, and its current continuation is the only Valid one. A move of one execution
leaves the others ruled, and rules the execution it moves.
-/
namespace ExecutionFabric

open Lib

/-- The lifecycles that hold no lease. -/
def isUnleased (l : Lifecycle) : Bool := isTerminalState l || l = .created || l = .fenced

/-- The lease `l` is Active in the current epoch and repeats what the execution is bound to. -/
structure Image.Grants (m : Image) (l : LeaseRecord) (x : ExecutionRecord) : Prop where
  owner : l.execution = x.id
  active : l.state = .active
  epoch : l.epoch = m.epoch
  worker : l.worker = x.worker
  boot : l.boot = x.boot
  incarnationGeneration : l.incarnationGeneration = x.incarnationGeneration
  executionGeneration : l.executionGeneration = x.generation
  policyGeneration : l.policyGeneration = x.policyGeneration

structure Image.Ruled (m : Image) (x : ExecutionRecord) : Prop where
  held : x.lease ≠ .nil → ∃ l, m.leases x.lease = some l ∧ m.Grants l x
  only : ∀ k l, m.leases k = some l → l.execution = x.id → l.state = .active → x.lease = l.id
  unleased : isUnleased x.lifecycle = true → x.lease = .nil
  attended : isAttended x.lifecycle = true → x.lease ≠ .nil
  current : ∀ k c, m.continuations k = some c → c.execution = x.id → c.state = .valid →
    x.continuation = c.id ∧ c.epoch = m.epoch
  continued : isContinued x.lifecycle = true →
    ∃ c, m.continuations x.continuation = some c ∧ c.execution = x.id ∧ c.state = .valid

/-- Every execution is ruled, and authority belongs to stored executions. -/
structure Image.Governed (m : Image) : Prop where
  ruled : ∀ k x, m.executions k = some x → m.Ruled x
  leased : ∀ k l, m.leases k = some l → l.state = .active → ∃ x, m.executions l.execution = some x
  continuing : ∀ k c, m.continuations k = some c → c.state = .valid →
    ∃ x, m.executions c.execution = some x

theorem Image.Quiescent.governed {m : Image} (h : m.Quiescent) : m.Governed where
  ruled := by
    intro k x hx
    have hidle := h.idle k x hx
    have hrest : ¬ isAttended x.lifecycle = true := by
      rcases hidle.lifecycle with hat | ⟨hat, -⟩
      · rw [hat]
        decide
      · intro hattended
        rw [isAttended_active hattended] at hat
        cases hat
    refine ⟨?_, ?_, ?_, ?_, ?_, ?_⟩
    · intro hlease
      exact absurd hidle.unbound.1 hlease
    · intro k' l hl _ hactive
      exact absurd hactive (h.revoked k' l hl)
    · exact fun _ => hidle.unbound.1
    · exact fun hattended => absurd hattended hrest
    · intro k' c hc _ hvalid
      exact absurd hvalid (h.expired k' c hc)
    · intro hcontinued
      refine absurd ?_ hrest
      revert hcontinued
      cases x.lifecycle <;> decide
  leased := fun k l hl hactive => absurd hactive (h.revoked k l hl)
  continuing := fun k c hc hvalid => absurd hvalid (h.expired k c hc)

/-! ## Frames -/

/-- The image after a move. -/
structure Image.Shifts (m m' : Image) (y : ExecutionRecord) (ls : List LeaseRecord)
    (cs : List ContinuationRecord) : Prop where
  executions : m'.executions = m.executions.insert y
  leases : m'.leases = m.leases.insertAll ls
  continuations : m'.continuations = m.continuations.insertAll cs
  epoch : m'.epoch = m.epoch

/-- The records belong to the execution `e`, and so do the records they replace. -/
structure Image.Touches (m : Image) (e : ExecutionId) (ls : List LeaseRecord)
    (cs : List ContinuationRecord) : Prop where
  lease : ∀ l ∈ ls, l.execution = e
  leases : ∀ l ∈ ls, ∀ l₀, m.leases l.id = some l₀ → l₀.execution = e
  continuation : ∀ c ∈ cs, c.execution = e
  continuations : ∀ c ∈ cs, ∀ c₀, m.continuations c.id = some c₀ → c₀.execution = e

section Frames

variable {ds : List Derivation} {m m' : Image} {y : ExecutionRecord} {ls : List LeaseRecord}
  {cs : List ContinuationRecord} {e : ExecutionId}

/-- Records of one execution replace only records of that execution. -/
theorem Image.touches_of_known (hfree : CollisionFree ds) (hk : m.Known ds) (hk' : m'.Known ds)
    (hs : m.Shifts m' y ls cs) (hls : ∀ l ∈ ls, l.execution = e) (hcs : ∀ c ∈ cs, c.execution = e) :
    m.Touches e ls cs where
  lease := hls
  continuation := hcs
  leases := by
    intro l hl l₀ hl₀
    obtain ⟨l', hl', hget⟩ := m.leases.insertAll_mem hl
    rw [← hs.leases] at hget
    have hnew := hk'.leases _ l' hget
    have hold := hk.leases _ l₀ hl₀
    rw [m'.leases.keyed _ _ hget] at hnew
    rw [m.leases.keyed _ _ hl₀] at hold
    injection hold.unique hnew hfree with hexecution
    exact hexecution.trans (hls l' hl')
  continuations := by
    intro c hc c₀ hc₀
    obtain ⟨c', hc', hget⟩ := m.continuations.insertAll_mem hc
    rw [← hs.continuations] at hget
    have hnew := hk'.continuations _ c' hget
    have hold := hk.continuations _ c₀ hc₀
    rw [m'.continuations.keyed _ _ hget] at hnew
    rw [m.continuations.keyed _ _ hc₀] at hold
    injection hold.unique hnew hfree with hexecution
    exact hexecution.trans (hcs c' hc')

theorem Image.Touches.lease_kept (ht : m.Touches e ls cs) (hs : m.Shifts m' y ls cs)
    {k : LeaseId} {l : LeaseRecord} (hl : m.leases k = some l) (hne : l.execution ≠ e) :
    m'.leases k = some l := by
  rw [hs.leases, KeyedMap.insertAll_of_ne _ ?_, hl]
  rintro l' hl' rfl
  exact hne (ht.leases l' hl' l hl)

theorem Image.Touches.lease_back (ht : m.Touches e ls cs) (hs : m.Shifts m' y ls cs)
    {k : LeaseId} {l : LeaseRecord} (hl : m'.leases k = some l) (hne : l.execution ≠ e) :
    m.leases k = some l := by
  rw [hs.leases] at hl
  rcases KeyedMap.insertAll_eq_some hl with hmem | ⟨hold, -⟩
  · exact absurd (ht.lease l hmem) hne
  · exact hold

theorem Image.Touches.continuation_kept (ht : m.Touches e ls cs) (hs : m.Shifts m' y ls cs)
    {k : ContinuationId} {c : ContinuationRecord} (hc : m.continuations k = some c)
    (hne : c.execution ≠ e) : m'.continuations k = some c := by
  rw [hs.continuations, KeyedMap.insertAll_of_ne _ ?_, hc]
  rintro c' hc' rfl
  exact hne (ht.continuations c' hc' c hc)

theorem Image.Touches.continuation_back (ht : m.Touches e ls cs) (hs : m.Shifts m' y ls cs)
    {k : ContinuationId} {c : ContinuationRecord} (hc : m'.continuations k = some c)
    (hne : c.execution ≠ e) : m.continuations k = some c := by
  rw [hs.continuations] at hc
  rcases KeyedMap.insertAll_eq_some hc with hmem | ⟨hold, -⟩
  · exact absurd (ht.continuation c hmem) hne
  · exact hold

/-- An execution the records do not belong to stays ruled. -/
theorem Image.Ruled.frame {x : ExecutionRecord} (h : m.Ruled x) (ht : m.Touches e ls cs)
    (hs : m.Shifts m' y ls cs) (hne : x.id ≠ e) : m'.Ruled x where
  held := by
    intro hlease
    obtain ⟨l, hl, hg⟩ := h.held hlease
    exact ⟨l, ht.lease_kept hs hl (hg.owner ▸ hne), { hg with epoch := hg.epoch.trans hs.epoch.symm }⟩
  only := by
    intro k l hl howner hactive
    exact h.only k l (ht.lease_back hs hl (howner ▸ hne)) howner hactive
  unleased := h.unleased
  attended := h.attended
  current := by
    intro k c hc howner hvalid
    rw [hs.epoch]
    exact h.current k c (ht.continuation_back hs hc (howner ▸ hne)) howner hvalid
  continued := by
    intro hlifecycle
    obtain ⟨c, hc, howner, hvalid⟩ := h.continued hlifecycle
    exact ⟨c, ht.continuation_kept hs hc (howner ▸ hne), howner, hvalid⟩

end Frames

/-! ## The execution a move is about -/

theorem isContinued_attended {l : Lifecycle} (h : isContinued l = true) : isAttended l = true := by
  revert h
  cases l <;> decide

theorem Steady.unleased {l l' : Lifecycle} (h : Steady l l') (hl : isUnleased l' = true) :
    isUnleased l = true := by
  cases h with
  | same => exact hl
  | within hcontinued hattended hne =>
    have hnone : ∀ l : Lifecycle, isAttended l = true → ¬ isUnleased l = true := by
      intro l
      cases l <;> decide
    exact absurd hl (hnone _ hattended)
  | resuming => cases hl
  | recovering => cases hl

theorem Steady.attended {l l' : Lifecycle} (h : Steady l l') (hl : isAttended l' = true) :
    isAttended l = true := by
  cases h with
  | same => exact hl
  | within hcontinued hattended hne => exact isContinued_attended hcontinued
  | resuming => cases hl
  | recovering => cases hl

theorem Steady.continued {l l' : Lifecycle} (h : Steady l l') (hl : isContinued l' = true) :
    isContinued l = true := by
  cases h with
  | same => exact hl
  | within hcontinued hattended hne => exact hcontinued
  | resuming => cases hl
  | recovering => cases hl

theorem boundLifecycle_waits {l : Lifecycle} (h : isBindable l = true) :
    ¬ isUnleased (boundLifecycle l) = true ∧ ¬ isAttended (boundLifecycle l) = true := by
  revert h
  cases l <;> decide

section Local

variable {ds : List Derivation} {st : DurableState} {m' : Image} {x y : ExecutionRecord}
  {ls : List LeaseRecord} {cs : List ContinuationRecord}

/-- Once the lease of the execution is relinquished it has no other Active lease. -/
theorem Image.Ruled.none_active (h : st.image.Ruled x) (hk : st.image.Known ds)
    (hfree : CollisionFree ds) (hls : Relinquishes st x ls) {k : LeaseId} {l : LeaseRecord}
    (hl : st.image.leases k = some l) (hkept : ∀ l' ∈ ls, l'.id ≠ k) (howner : l.execution = x.id) :
    l.state ≠ .active := by
  intro hactive
  have hlease := h.only k l hl howner hactive
  have hid : l.id = k := st.image.leases.keyed _ _ hl
  have hvalid : x.lease ≠ .nil := by
    rw [hlease]
    exact (hk.leases _ l hl).valid hfree
  obtain ⟨l', hl', hsame⟩ := hls.all l hvalid (by rw [hlease, hid]; exact hl) hactive
  exact hkept l' hl' (hsame.trans hid)

theorem Relinquishes.owner (hls : Relinquishes st x ls) (hc : st.image.Coherent ds)
    (hx : st.image.executions x.id = some x) : ∀ l ∈ ls, l.execution = x.id := by
  intro l hl
  obtain ⟨l₀, hvalid, hfind, -, howner, -⟩ := hls.revoked l hl
  obtain ⟨l₁, hl₁, howner₁⟩ := hc.leased _ x hx hvalid
  obtain rfl := Option.some.inj (hl₁.symm.trans hfind)
  exact howner.trans howner₁

theorem retiredContinuations_spec {e : ExecutionId} {keep : ContinuationId}
    {c : ContinuationRecord} (hc : c ∈ retiredContinuations st e keep) :
    c.execution = e ∧ c.state ≠ .valid ∧ c.id ≠ keep := by
  obtain ⟨c₀, hc₀, rfl⟩ := List.mem_map.mp hc
  have hp := of_decide_eq_true (List.mem_filter.mp hc₀).2
  exact ⟨hp.1, fun h => (by cases h), hp.2.1⟩

theorem mem_retiredContinuations {e : ExecutionId} {keep k : ContinuationId}
    {c : ContinuationRecord} (hc : st.continuations.find k = some c) (howner : c.execution = e)
    (hne : c.id ≠ keep) (hvalid : c.state = .valid) :
    ∃ c' ∈ retiredContinuations st e keep, c'.id = c.id := by
  refine ⟨_, List.mem_map_of_mem (List.mem_filter.mpr
    ⟨((Table.find_eq_some_iff _ _ _).mp hc).1, ?_⟩), rfl⟩
  exact decide_eq_true ⟨howner, hne, hvalid⟩

/-- Every record a move writes belongs to the execution it moves. -/
theorem Move.owner (hmove : Move st x y ls cs) (hc : st.image.Coherent ds)
    (hx : st.image.executions x.id = some x) :
    y.id = x.id ∧ (∀ l ∈ ls, l.execution = x.id) ∧ ∀ c ∈ cs, c.execution = x.id := by
  cases hmove with
  | steady hsame => exact ⟨hsame.id, fun l hl => (by cases hl), fun c hc => (by cases hc)⟩
  | continued htoken hsame hrunning hcontinuation hvalid howner hepoch =>
    refine ⟨hsame.id, fun l hl => (by cases hl), ?_⟩
    intro c' hc'
    rcases List.mem_append.mp hc' with hretired | hlast
    · exact (retiredContinuations_spec hretired).1
    · rw [List.mem_singleton.mp hlast]
      exact howner
  | bound request hworker hboot hbindable hls =>
    refine ⟨?_, ?_, fun c hc => (by cases hc)⟩
    · show (incarnated x request.boot).id = x.id
      unfold incarnated
      split <;> rfl
    · intro l hl
      rcases List.mem_append.mp hl with hold | hlast
      · exact hls.owner hc hx l hold
      · rw [List.mem_singleton.mp hlast]
        rfl
  | dropped hdrops hls hcs =>
    refine ⟨hdrops.id, hls.owner hc hx, ?_⟩
    rcases hcs with ⟨-, rfl⟩ | hdemotes
    · exact fun c hc => (by cases hc)
    · intro c hc'
      obtain ⟨-, -, -, howner, -⟩ := hdemotes.demoted c hc'
      exact howner

theorem ruled_steady (h : st.image.Ruled x) (hs : st.image.Shifts m' y [] [])
    (hsame : SameAuthority x y) (hcontinuation : y.continuation = x.continuation)
    (hlifecycle : Steady x.lifecycle y.lifecycle) : m'.Ruled y where
  held := by
    intro hlease
    rw [hsame.lease] at hlease ⊢
    obtain ⟨l, hl, hg⟩ := h.held hlease
    refine ⟨l, hs.leases ▸ hl, hg.owner.trans hsame.id.symm, hg.active,
      hg.epoch.trans hs.epoch.symm, hg.worker.trans hsame.worker.symm, hg.boot.trans hsame.boot.symm,
      hg.incarnationGeneration.trans hsame.incarnationGeneration.symm,
      hg.executionGeneration.trans hsame.generation.symm,
      hg.policyGeneration.trans hsame.policyGeneration.symm⟩
  only := by
    intro k l hl howner hactive
    rw [hs.leases] at hl
    rw [hsame.lease]
    exact h.only k l hl (howner.trans hsame.id) hactive
  unleased := by
    intro hunleased
    rw [hsame.lease]
    exact h.unleased (hlifecycle.unleased hunleased)
  attended := by
    intro hattended
    rw [hsame.lease]
    exact h.attended (hlifecycle.attended hattended)
  current := by
    intro k c hc howner hvalid
    rw [hs.continuations] at hc
    rw [hcontinuation, hs.epoch]
    exact h.current k c hc (howner.trans hsame.id) hvalid
  continued := by
    intro hcontinued
    obtain ⟨c, hc, howner, hvalid⟩ := h.continued (hlifecycle.continued hcontinued)
    rw [hcontinuation]
    exact ⟨c, hs.continuations ▸ hc, howner.trans hsame.id.symm, hvalid⟩

theorem ruled_continued {t : LeaseToken} {l : LeaseRecord} {c : ContinuationRecord}
    (h : st.image.Ruled x) (hk : st.image.Known ds) (hfree : CollisionFree ds)
    (hs : st.image.Shifts m' y [] (retiredContinuations st x.id c.id ++ [c]))
    (htoken : Authorizes st t x l) (hsame : SameAuthority x y) (hrunning : y.lifecycle = .running)
    (hcontinuation : y.continuation = c.id) (hvalid : c.state = .valid) (howner : c.execution = x.id)
    (hepoch : c.epoch = st.epoch) : m'.Ruled y where
  held := by
    intro hlease
    rw [hsame.lease] at hlease ⊢
    obtain ⟨l, hl, hg⟩ := h.held hlease
    exact ⟨l, hs.leases ▸ hl, hg.owner.trans hsame.id.symm, hg.active,
      hg.epoch.trans hs.epoch.symm, hg.worker.trans hsame.worker.symm, hg.boot.trans hsame.boot.symm,
      hg.incarnationGeneration.trans hsame.incarnationGeneration.symm,
      hg.executionGeneration.trans hsame.generation.symm,
      hg.policyGeneration.trans hsame.policyGeneration.symm⟩
  only := by
    intro k l hl howner hactive
    rw [hs.leases] at hl
    rw [hsame.lease]
    exact h.only k l hl (howner.trans hsame.id) hactive
  unleased := by
    intro hunleased
    rw [hrunning] at hunleased
    cases hunleased
  attended := by
    intro _
    have hstored : st.image.leases x.lease = some l := htoken.lease ▸ htoken.stored
    have hid : l.id = x.lease := st.image.leases.keyed _ _ hstored
    rw [hsame.lease, ← hid]
    exact (hk.leases _ l hstored).valid hfree
  current := by
    intro k c' hc' howner' hvalid'
    rw [hs.continuations] at hc'
    rcases KeyedMap.insertAll_eq_some hc' with hmem | ⟨hold, hne⟩
    · rcases List.mem_append.mp hmem with hretired | hlast
      · exact absurd hvalid' (retiredContinuations_spec hretired).2.1
      · rw [List.mem_singleton.mp hlast]
        exact ⟨hcontinuation, hepoch.trans hs.epoch.symm⟩
    · -- Another Valid continuation of the execution would have been retired.
      have hid : c'.id = k := st.image.continuations.keyed _ _ hold
      have hother : c'.id ≠ c.id := by
        rw [hid]
        exact (hne c (List.mem_append_right _ List.mem_cons_self)).symm
      obtain ⟨c'', hc'', hsame'⟩ :=
        mem_retiredContinuations hold (howner'.trans hsame.id) hother hvalid'
      exact absurd (hsame'.trans hid) (hne c'' (List.mem_append_left _ hc''))
  continued := by
    intro _
    refine ⟨c, ?_, howner.trans hsame.id.symm, hvalid⟩
    rw [hs.continuations, hcontinuation]
    unfold KeyedMap.insertAll
    rw [List.foldl_append]
    exact KeyedMap.insert_self _ _

theorem ruled_bound {request : BindWorkerRequest} (h : st.image.Ruled x) (hk : st.image.Known ds)
    (hfree : CollisionFree ds)
    (hs : st.image.Shifts m' (boundExecution st x request) (ls ++ [grantedLease st x request]) [])
    (hbindable : isBindable x.lifecycle = true) (hls : Relinquishes st x ls)
    (hid : (boundExecution st x request).id = x.id) : m'.Ruled (boundExecution st x request) where
  held := by
    intro _
    refine ⟨grantedLease st x request, ?_, hid.symm, rfl, hs.epoch.symm, rfl, rfl, rfl, ?_, ?_⟩
    · rw [hs.leases]
      unfold KeyedMap.insertAll
      rw [List.foldl_append]
      exact KeyedMap.insert_self _ _
    · show x.generation = (incarnated x request.boot).generation
      unfold incarnated
      split <;> rfl
    · show x.policyGeneration = (incarnated x request.boot).policyGeneration
      unfold incarnated
      split <;> rfl
  only := by
    intro k l hl howner hactive
    rw [hs.leases] at hl
    rcases KeyedMap.insertAll_eq_some hl with hmem | ⟨hold, hne⟩
    · rcases List.mem_append.mp hmem with hdropped | hlast
      · obtain ⟨-, -, -, -, -, -, hinactive⟩ := hls.revoked l hdropped
        exact absurd hactive hinactive
      · rw [List.mem_singleton.mp hlast]
        rfl
    · exact absurd hactive (h.none_active hk hfree hls hold
        (fun l' hl' => hne l' (List.mem_append_left _ hl')) (howner.trans hid))
  unleased := by
    intro hunleased
    exact absurd hunleased (boundLifecycle_waits hbindable).1
  attended := by
    intro hattended
    exact absurd hattended (boundLifecycle_waits hbindable).2
  current := by
    intro k c hc howner hvalid
    have hcontinuation : (boundExecution st x request).continuation = x.continuation := by
      show (incarnated x request.boot).continuation = x.continuation
      unfold incarnated
      split <;> rfl
    rw [hs.continuations] at hc
    rw [hcontinuation, hs.epoch]
    exact h.current k c hc (howner.trans hid) hvalid
  continued := by
    intro hcontinued
    exact absurd (isContinued_attended hcontinued) (boundLifecycle_waits hbindable).2

theorem ruled_dropped (h : st.image.Ruled x) (hk : st.image.Known ds) (hfree : CollisionFree ds)
    (hs : st.image.Shifts m' y ls cs) (hdrops : Drops x y) (hls : Relinquishes st x ls)
    (hcs : (y.continuation = x.continuation ∧ cs = []) ∨ Demotes st x.id cs) : m'.Ruled y := by
  have hrest : ¬ isAttended y.lifecycle = true := by
    intro hattended
    obtain ⟨hsame, hnil⟩ := hdrops.lifecycle hattended
    rw [hsame] at hattended
    exact h.attended hattended hnil
  refine ⟨?_, ?_, fun _ => hdrops.unbound.1, fun hattended => absurd hattended hrest, ?_,
    fun hcontinued => absurd (isContinued_attended hcontinued) hrest⟩
  · intro hlease
    exact absurd hdrops.unbound.1 hlease
  · intro k l hl howner hactive
    rw [hs.leases] at hl
    rcases KeyedMap.insertAll_eq_some hl with hmem | ⟨hold, hne⟩
    · obtain ⟨-, -, -, -, -, -, hinactive⟩ := hls.revoked l hmem
      exact absurd hactive hinactive
    · exact absurd hactive (h.none_active hk hfree hls hold hne (howner.trans hdrops.id))
  · intro k c hc howner hvalid
    rw [hs.continuations] at hc
    rcases hcs with ⟨hcontinuation, rfl⟩ | hdemotes
    · rw [hcontinuation, hs.epoch]
      exact h.current k c hc (howner.trans hdrops.id) hvalid
    · rcases KeyedMap.insertAll_eq_some hc with hmem | ⟨hold, hne⟩
      · obtain ⟨-, -, -, -, hinvalid⟩ := hdemotes.demoted c hmem
        exact absurd hvalid hinvalid
      · obtain ⟨c', hc', hsame⟩ := hdemotes.all k c hold (howner.trans hdrops.id) hvalid
        have hid : c.id = k := st.image.continuations.keyed _ _ hold
        exact absurd (hsame.trans hid) (hne c' hc')

/-- The execution a move is about stays ruled. -/
theorem Move.ruled (hmove : Move st x y ls cs) (h : st.image.Ruled x) (hk : st.image.Known ds)
    (hfree : CollisionFree ds) (hid : y.id = x.id) (hs : st.image.Shifts m' y ls cs) :
    m'.Ruled y := by
  cases hmove with
  | steady hsame hcontinuation hlifecycle =>
    exact ruled_steady h hs hsame hcontinuation hlifecycle
  | continued htoken hsame hrunning hcontinuation hvalid howner hepoch =>
    exact ruled_continued h hk hfree hs htoken hsame hrunning hcontinuation hvalid howner hepoch
  | bound request hworker hboot hbindable hls => exact ruled_bound h hk hfree hs hbindable hls hid
  | dropped hdrops hls hcs => exact ruled_dropped h hk hfree hs hdrops hls hcs

end Local

/-! ## Whole images -/

section Global

variable {ds : List Derivation} {j : Journaled} {es : List JournalEntry}

theorem Transaction.epoch {i : Intent} (ht : Transaction j i es) :
    (j.state.image.installAll es).epoch = j.state.image.epoch := by
  have hmeta : ∀ r, .storeMeta r ∈ es → r.epoch = j.state.image.epoch := by
    intro r hr
    rw [ht.eq_advancedMeta hr]
    rfl
  clear ht
  generalize hm : j.state.image = m at hmeta
  clear hm
  induction es generalizing m with
  | nil => rfl
  | cons e rest ih =>
    have hstep : (m.install e).epoch = m.epoch := by
      cases e with
      | storeMeta r => exact hmeta r List.mem_cons_self
      | _ => rfl
    refine (ih (m.install e) fun r hr => ?_).trans hstep
    rw [hstep]
    exact hmeta r (List.mem_cons_of_mem _ hr)

/-- A move keeps the image governed. -/
theorem Image.Governed.moved (h : j.state.image.Governed) (hfree : CollisionFree ds)
    (hc : j.state.image.Coherent ds) (hk' : (j.state.image.installAll es).Known ds)
    {x y : ExecutionRecord} {ls : List LeaseRecord} {cs : List ContinuationRecord}
    (hx : j.state.image.executions x.id = some x) (hmove : Move j.state x y ls cs)
    (hs : j.state.image.Shifts (j.state.image.installAll es) y ls cs) :
    (j.state.image.installAll es).Governed := by
  obtain ⟨hid, hls, hcs⟩ := hmove.owner hc hx
  have ht := Image.touches_of_known hfree hc.known hk' hs hls hcs
  have hstored : ∀ k z, j.state.image.executions k = some z →
      ∃ z', (j.state.image.installAll es).executions k = some z' := by
    intro k z hz
    rw [hs.executions]
    exact KeyedMap.insertAll_stored hz [y]
  have hmoved : ∃ z', (j.state.image.installAll es).executions x.id = some z' := hstored _ x hx
  refine ⟨?_, ?_, ?_⟩
  · intro k z hz
    rw [hs.executions] at hz
    rcases KeyedMap.insert_eq_some hz with ⟨-, rfl⟩ | ⟨hne, hold⟩
    · exact hmove.ruled (h.ruled _ x hx) hc.known hfree hid hs
    · refine (h.ruled k z hold).frame ht hs ?_
      rw [j.state.image.executions.keyed _ _ hold, ← hid]
      exact hne
  · intro k l hl hactive
    by_cases howner : l.execution = x.id
    · rw [howner]
      exact hmoved
    · obtain ⟨z, hz⟩ := h.leased k l (ht.lease_back hs hl howner) hactive
      exact hstored _ z hz
  · intro k c hc' hvalid
    by_cases howner : c.execution = x.id
    · rw [howner]
      exact hmoved
    · obtain ⟨z, hz⟩ := h.continuing k c (ht.continuation_back hs hc' howner) hvalid
      exact hstored _ z hz

/-- A new execution has a new id. -/
theorem createdExecution_fresh (hfree : CollisionFree ds) (hc : j.state.image.Coherent ds)
    {m' : Image} (hk' : m'.Known ds) (hstore : m'.store = j.state.store)
    (hcreated : m'.executions (createdExecution j.state).id = some (createdExecution j.state)) :
    j.state.image.executions (createdExecution j.state).id = none := by
  cases hx : j.state.image.executions (createdExecution j.state).id with
  | none => rfl
  | some x =>
    have hnew := hk'.executions _ _ hcreated
    have hold := hc.known.executions _ x hx
    rw [j.state.image.executions.keyed _ _ hx] at hold
    rw [hstore] at hnew
    injection hold.unique hnew hfree with _ hsequence
    have hlt : x.createdSequence < j.state.nextExecutionSequence := hc.created _ x hx
    have hsame : x.createdSequence = j.state.nextExecutionSequence := hsequence
    omega

theorem Image.Governed.created (h : j.state.image.Governed) (policy : ExecutionPolicy)
    (hfresh : j.state.image.executions (createdExecution j.state).id = none) :
    (j.state.image.installAll [.storeMeta (advancedMeta j.state), .policy policy,
      .execution (createdExecution j.state)]).Governed := by
  generalize hcreated : createdExecution j.state = x at hfresh
  have hlease : x.lease = .nil := hcreated ▸ rfl
  have hlifecycle : x.lifecycle = .created := hcreated ▸ rfl
  refine ⟨?_, ?_, ?_⟩
  · intro k z hz
    rcases KeyedMap.insert_eq_some hz with ⟨-, rfl⟩ | ⟨-, hold⟩
    · refine ⟨fun hne => absurd hlease hne, ?_, fun _ => hlease, ?_, ?_, ?_⟩
      · intro k' l hl howner hactive
        obtain ⟨y, hy⟩ := h.leased k' l hl hactive
        rw [howner, hfresh] at hy
        cases hy
      · intro hattended
        rw [hlifecycle] at hattended
        cases hattended
      · intro k' c hc howner hvalid
        obtain ⟨y, hy⟩ := h.continuing k' c hc hvalid
        rw [howner, hfresh] at hy
        cases hy
      · intro hcontinued
        rw [hlifecycle] at hcontinued
        cases hcontinued
    · have hz' := h.ruled k z hold
      refine ⟨fun hne => ?_, hz'.only, hz'.unleased, hz'.attended, hz'.current, hz'.continued⟩
      obtain ⟨l, hl, hg⟩ := hz'.held hne
      exact ⟨l, hl, { hg with }⟩
  · intro k l hl hactive
    obtain ⟨z, hz⟩ := h.leased k l hl hactive
    exact KeyedMap.insertAll_stored hz [x]
  · intro k c hc hvalid
    obtain ⟨z, hz⟩ := h.continuing k c hc hvalid
    exact KeyedMap.insertAll_stored hz [x]

/-- Every transaction of a call or a lost worker keeps memory governed. -/
theorem Transaction.governed {i : Intent} (hfree : CollisionFree ds) (hw : Working ds j)
    (h : j.state.image.Governed) (hpublic : i.Public) (ht : Transaction j i es)
    (hmint : Minted ds j.state.store es) : (j.write es).state.image.Governed := by
  have hk' := (ht.working hfree hw hmint).coherent.known
  rw [Journaled.image_write] at hk' ⊢
  cases ht.moves hw.coherent hpublic with
  | created policy hes =>
    subst hes
    exact h.created policy (createdExecution_fresh hfree hw.coherent hk' rfl
      (KeyedMap.insert_self _ _))
  | @moved x y ls cs hx hmove hexecutions hleases hcontinuations =>
    refine h.moved hfree hw.coherent hk' hx hmove ⟨?_, ?_, ?_, ht.epoch⟩
    · rw [Image.executions_installAll, hexecutions]
    · rw [Image.leases_installAll, hleases]
    · rw [Image.continuations_installAll, hcontinuations]

end Global

/-- Memory is governed between calls and quiescent while an open recovers executions. -/
def governed : Discipline where
  durable := fun _ => True
  rest := fun _ => True
  reopening := fun _ j => j.state.image.Quiescent
  working := fun j => j.state.image.Governed
  parked := fun m => m.Governed
  admits := anyEvent

theorem governed_upheld {ds : List Derivation} (hfree : CollisionFree ds) :
    governed.Upheld ds where
  vacant := fun _ _ _ => ⟨trivial, trivial⟩
  rest_agrees := fun _ _ => trivial
  settles := fun _ h => ⟨trivial, trivial, h⟩
  transaction := fun _ hi _ hw h ht hmint =>
    ⟨ht.governed hfree hw h (Call.intent_public hi) hmint, fun _ _ _ _ _ => trivial⟩
  lose := fun {_ e _} hw h ht hmint =>
    ⟨ht.governed hfree hw h (show Intent.Public (.lose e) from trivial) hmint, fun _ _ _ _ _ => trivial⟩
  restart := by
    intro s config entropy m j _ _ _ hw _ _ _ _
    refine ⟨?_, fun _ _ _ _ _ => trivial⟩
    show (j.write (restartRecords j)).state.image.Quiescent
    rw [image_restartRecords hw.coherent]
    exact Image.quiescent_reopened _
  skip := fun h => h
  recover := by
    intro j e ids es _ h ht _
    refine ⟨?_, fun _ _ _ _ _ => trivial⟩
    show (j.write es).state.image.Quiescent
    rw [Journaled.image_write]
    exact (Image.Quiescent.installAll h (recover_powerless h ht)).1
  reopened := fun _ h => Image.Quiescent.governed h
  crash := fun _ _ _ _ _ => trivial

theorem Image.Vacant.governed {m : Image} (h : m.Vacant) : m.Governed where
  ruled := fun k x hx => by
    rw [h.executions k] at hx
    cases hx
  leased := fun k l hl => by
    rw [h.leases k] at hl
    cases hl
  continuing := fun k c hc => by
    rw [h.continuations k] at hc
    cases hc

/-- Memory is governed in every state of a collision-free run. -/
theorem governed_of_runs {events : List Event} {s : Runtime} (hrun : Runs anyEvent {} events s)
    (hfree : CollisionFree s.minted) : s.state.image.Governed := by
  have hkept := (governed_upheld hfree).keeps (fun _ _ h => h) hfree hrun kept_start
    (List.Subset.refl _)
  by_cases hopen : s.isOpen = true
  · obtain ⟨d, -, -, hw⟩ := hkept.running hopen
    exact hw
  · have hempty : s.state = {} → s.state.image.Governed := by
      intro hstate
      rw [hstate]
      refine Image.Vacant.governed ?_
      constructor <;> exact fun _ => rfl
    rcases hkept.parked (Bool.eq_false_iff.mpr hopen) with ⟨-, hstate⟩ | ⟨d, -, -, hstate⟩
    · exact hempty hstate
    · rcases hstate with hstate | ⟨-, -, -, hparked⟩
      · exact hempty hstate
      · exact hparked

/-! ## Leases -/

/-- Leases, workers and lifecycles fit together. -/
structure LeaseInvariant (st : DurableState) : Prop where
  held : ∀ k x, st.executions.find k = some x → x.lease ≠ .nil →
    ∃ l, st.leases.find x.lease = some l ∧ l.execution = x.id ∧ l.state = .active ∧
      l.epoch = st.epoch ∧ l.worker = x.worker ∧ l.boot = x.boot ∧
      l.incarnationGeneration = x.incarnationGeneration ∧ l.executionGeneration = x.generation ∧
      l.policyGeneration = x.policyGeneration
  current : ∀ k l, st.leases.find k = some l → l.state = .active →
    ∃ x, st.executions.find l.execution = some x ∧ x.lease = l.id
  bound : ∀ k x, st.executions.find k = some x →
    (x.worker ≠ .nil ↔ x.lease ≠ .nil) ∧ (x.boot ≠ .nil ↔ x.lease ≠ .nil)
  unleased : ∀ k x, st.executions.find k = some x → isTerminalState x.lifecycle = true ∨
    x.lifecycle = .created ∨ x.lifecycle = .fenced → x.lease = .nil
  attended : ∀ k x, st.executions.find k = some x → x.lifecycle = .running ∨
    x.lifecycle = .checkpointing ∨ x.lifecycle = .suspending ∨ x.lifecycle = .draining →
    x.lease ≠ .nil

theorem Image.Governed.leaseInvariant {ds : List Derivation} {st : DurableState}
    (h : st.image.Governed) (hc : st.image.Coherent ds) : LeaseInvariant st where
  held := by
    intro k x hx hlease
    obtain ⟨l, hl, hg⟩ := (h.ruled k x hx).held hlease
    exact ⟨l, hl, hg.owner, hg.active, hg.epoch, hg.worker, hg.boot, hg.incarnationGeneration,
      hg.executionGeneration, hg.policyGeneration⟩
  current := by
    intro k l hl hactive
    obtain ⟨x, hx⟩ := h.leased k l hl hactive
    have hid : x.id = l.execution := Table.find_key hx
    exact ⟨x, hx, (h.ruled _ x hx).only k l hl hid.symm hactive⟩
  bound := by
    intro k x hx
    rcases hc.bound k x hx with ⟨hlease, hworker, hboot⟩ | ⟨hlease, hworker, hboot⟩
    · simp [hlease, hworker, hboot]
    · simp [hlease, hworker, hboot]
  unleased := by
    intro k x hx hlifecycle
    refine (h.ruled k x hx).unleased ?_
    rcases hlifecycle with hterminal | hcreated | hfenced
    · simp [isUnleased, hterminal]
    · rw [hcreated]
      rfl
    · rw [hfenced]
      rfl
  attended := by
    intro k x hx hlifecycle
    refine (h.ruled k x hx).attended ?_
    rcases hlifecycle with hat | hat | hat | hat <;> (rw [hat]; rfl)

/-- At most one continuation of an execution is Valid, and it is the current one. -/
structure ContinuationInvariant (st : DurableState) (x : ExecutionRecord) : Prop where
  unique : ∀ k k' c c', st.continuations.find k = some c → st.continuations.find k' = some c' →
    c.execution = x.id → c'.execution = x.id → c.state = .valid → c'.state = .valid → c = c'
  current : ∀ k c, st.continuations.find k = some c → c.execution = x.id → c.state = .valid →
    x.continuation = c.id ∧ c.epoch = st.epoch
  continued : x.lifecycle = .running ∨ x.lifecycle = .checkpointing ∨ x.lifecycle = .draining →
    ∃ c, st.continuations.find x.continuation = some c ∧ c.execution = x.id ∧ c.state = .valid

theorem Image.Ruled.continuationInvariant {st : DurableState} {x : ExecutionRecord}
    (h : st.image.Ruled x) : ContinuationInvariant st x where
  unique := by
    intro k k' c c' hc hc' howner howner' hvalid hvalid'
    have hsame := (h.current k c hc howner hvalid).1.symm.trans
      (h.current k' c' hc' howner' hvalid').1
    have hk : c.id = k := Table.find_key hc
    have hk' : c'.id = k' := Table.find_key hc'
    rw [← hk, hsame, hk', hc'] at hc
    exact (Option.some.inj hc).symm
  current := h.current
  continued := by
    intro hlifecycle
    refine h.continued ?_
    rcases hlifecycle with hat | hat | hat <;> (rw [hat]; rfl)

end ExecutionFabric
