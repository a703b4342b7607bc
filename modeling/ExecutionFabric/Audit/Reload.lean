import ExecutionFabric.Audit.Disk

/-!
# Reloading

Reconciliation brings the action frontier of every execution forward in memory, and
writes nothing when no committed progress is ahead of its execution. `Agrees` is
equality of images up to the two fields reconciliation may touch.
-/
namespace ExecutionFabric

open Lib

/-- The execution without the fields reconciliation recomputes. -/
def ExecutionRecord.core (x : ExecutionRecord) : ExecutionRecord :=
  { x with actionFrontier := 0, actionGeneration := 0 }

@[simp] theorem ExecutionRecord.core_reaching (x : ExecutionRecord) (frontier : Nat)
    (generation : Nat) : (x.reaching frontier generation).core = x.core := rfl

@[simp] theorem ExecutionRecord.id_reaching (x : ExecutionRecord) (frontier : Nat)
    (generation : Nat) : (x.reaching frontier generation).id = x.id := rfl

theorem ExecutionRecord.eq_reaching_of_core {x y : ExecutionRecord} (h : y.core = x.core) :
    x = y.reaching x.actionFrontier x.actionGeneration := by
  cases x
  cases y
  simp only [core, mk.injEq] at h
  simp [reaching, h]

/-- Equality of images up to the action frontiers of the executions. -/
structure Image.Agrees (m m' : Image) : Prop where
  store : m'.store = m.store
  epoch : m'.epoch = m.epoch
  nextExecutionSequence : m'.nextExecutionSequence = m.nextExecutionSequence
  policies : m'.policies = m.policies
  executions : ∀ e, (m'.executions e).map ExecutionRecord.core =
    (m.executions e).map ExecutionRecord.core
  actions : m'.actions = m.actions
  progress : m'.progress = m.progress
  checkpoints : m'.checkpoints = m.checkpoints
  continuations : m'.continuations = m.continuations
  leases : m'.leases = m.leases
  replays : m'.replays = m.replays
  ambiguities : m'.ambiguities = m.ambiguities
  commits : m'.commits = m.commits
  recoveries : m'.recoveries = m.recoveries

namespace Image.Agrees

theorem refl (m : Image) : m.Agrees m :=
  ⟨rfl, rfl, rfl, rfl, fun _ => rfl, rfl, rfl, rfl, rfl, rfl, rfl, rfl, rfl, rfl⟩

theorem symm {m m' : Image} (h : m.Agrees m') : m'.Agrees m :=
  ⟨h.store.symm, h.epoch.symm, h.nextExecutionSequence.symm, h.policies.symm,
    fun e => (h.executions e).symm, h.actions.symm, h.progress.symm, h.checkpoints.symm,
    h.continuations.symm, h.leases.symm, h.replays.symm, h.ambiguities.symm, h.commits.symm,
    h.recoveries.symm⟩

theorem trans {m m' m'' : Image} (h : m.Agrees m') (h' : m'.Agrees m'') : m.Agrees m'' :=
  ⟨h'.store.trans h.store, h'.epoch.trans h.epoch,
    h'.nextExecutionSequence.trans h.nextExecutionSequence, h'.policies.trans h.policies,
    fun e => (h'.executions e).trans (h.executions e), h'.actions.trans h.actions,
    h'.progress.trans h.progress, h'.checkpoints.trans h.checkpoints,
    h'.continuations.trans h.continuations, h'.leases.trans h.leases,
    h'.replays.trans h.replays, h'.ambiguities.trans h.ambiguities, h'.commits.trans h.commits,
    h'.recoveries.trans h.recoveries⟩

/-- An execution of one image has a counterpart in the other that differs in its frontier only. -/
theorem execution {m m' : Image} (h : m.Agrees m') {e : ExecutionId} {x : ExecutionRecord}
    (hx : m'.executions e = some x) :
    ∃ y frontier generation, m.executions e = some y ∧ x = y.reaching frontier generation := by
  have he := h.executions e
  rw [hx, Option.map_some] at he
  obtain ⟨y, hy, hcore⟩ := Option.map_eq_some_iff.mp he.symm
  exact ⟨y, _, _, hy, ExecutionRecord.eq_reaching_of_core hcore⟩

theorem insert_execution {m m' : Image} (h : m.Agrees m') (x : ExecutionRecord) (e : ExecutionId) :
    (m'.executions.insert x e).map ExecutionRecord.core =
      (m.executions.insert x e).map ExecutionRecord.core := by
  rw [KeyedMap.insert_apply, KeyedMap.insert_apply]
  split
  · rfl
  · exact h.executions e

/-- Images that agree still agree after the same record. -/
theorem install {m m' : Image} (h : m.Agrees m') (e : JournalEntry) :
    (m.install e).Agrees (m'.install e) := by
  cases e with
  | storeMeta r => exact { h with store := rfl, epoch := rfl, nextExecutionSequence := rfl }
  | policy r => exact { h with policies := congrArg (KeyedMap.insert · r) h.policies }
  | execution r => exact { h with executions := h.insert_execution r }
  | action r => exact { h with actions := congrArg (KeyedMap.insert · r) h.actions }
  | progress r => exact { h with progress := congrArg (KeyedMap.insert · r) h.progress }
  | checkpoint r => exact { h with checkpoints := congrArg (KeyedMap.insert · r) h.checkpoints }
  | continuation r =>
    exact { h with continuations := congrArg (KeyedMap.insert · r) h.continuations }
  | lease r => exact { h with leases := congrArg (KeyedMap.insert · r) h.leases }
  | replay r => exact { h with replays := congrArg (KeyedMap.insert · r) h.replays }
  | ambiguity r => exact { h with ambiguities := congrArg (KeyedMap.insert · r) h.ambiguities }
  | commit r => exact { h with commits := congrArg (KeyedMap.insert · r) h.commits }
  | recovery r => exact { h with recoveries := congrArg (KeyedMap.insert · r) h.recoveries }
  | barrier r => exact h
  | commitGroup r =>
    exact { h with
      commits := congrArg (KeyedMap.insert · r.commit) h.commits
      progress := congrArg (KeyedMap.insert · r.progress) h.progress
      actions := congrArg (KeyedMap.insert · r.action) h.actions
      executions := h.insert_execution r.execution }

theorem installAll {m m' : Image} (h : m.Agrees m') (es : List JournalEntry) :
    (m.installAll es).Agrees (m'.installAll es) := by
  induction es generalizing m m' with
  | nil => exact h
  | cons e rest ih => exact ih (h.install e)

end Image.Agrees

/-- No committed progress is ahead of its execution. -/
def Image.Settled (m : Image) : Prop :=
  ∀ k p x, m.progress k = some p → p.committed = true → m.executions p.execution = some x →
    p.generation ≤ x.progressGeneration

/-- No action is ahead of the frontier of its execution. -/
def Image.Frontier (m : Image) : Prop :=
  ∀ k a x, m.actions k = some a → m.executions a.execution = some x →
    a.sequence ≤ x.actionFrontier

/-- The frontiers of `m'` are those of `m`, or those of stored actions. -/
def Image.Reaches (m m' : Image) : Prop :=
  ∀ e x, m'.executions e = some x → ∃ y, m.executions e = some y ∧
    (x.actionFrontier = y.actionFrontier ∨
      ∃ k a, m'.actions k = some a ∧ a.execution = e ∧ a.sequence = x.actionFrontier)

/-! ## Reconciliation -/

theorem betterProgress_cases (e : ExecutionId) (best : Option ProgressRecord) (p : ProgressRecord) :
    betterProgress e best p = best ∨
      (betterProgress e best p = some p ∧ p.execution = e ∧ p.committed = true) := by
  unfold betterProgress
  split
  · exact .inl rfl
  next hown =>
    simp only [ne_eq, not_or, not_not] at hown
    split
    · exact .inr ⟨rfl, hown⟩
    · split
      · exact .inr ⟨rfl, hown⟩
      · exact .inl rfl

theorem newestProgress_mem {st : DurableState} {e : ExecutionId} {p : ProgressRecord}
    (h : newestProgress st e = some p) :
    p ∈ st.progress.records ∧ p.execution = e ∧ p.committed = true := by
  have hfold : ∀ (ps : List ProgressRecord) (best : Option ProgressRecord),
      ps.foldl (betterProgress e) best = some p →
      best = some p ∨ (p ∈ ps ∧ p.execution = e ∧ p.committed = true) := by
    intro ps
    induction ps with
    | nil => exact fun best h => .inl h
    | cons q rest ih =>
      intro best hbest
      rcases ih _ hbest with hstep | ⟨hmem, hown⟩
      · rcases betterProgress_cases e best q with hsame | ⟨hnew, hown⟩
        · exact .inl (hsame ▸ hstep)
        · obtain rfl : q = p := Option.some.inj (hnew.symm.trans hstep)
          exact .inr ⟨List.mem_cons_self, hown⟩
      · exact .inr ⟨List.mem_cons_of_mem _ hmem, hown⟩
  exact (hfold _ none h).resolve_left (by simp)

/-- One action raises the frontier to its ordinal, if it is the execution's and above it. -/
theorem fst_reach (e : ExecutionId) (reached : Nat × Nat) (a : ActionRecord) :
    (reach e reached a).1 = if a.execution = e then max reached.1 a.sequence else reached.1 := by
  unfold reach
  by_cases hown : a.execution = e
  · rw [if_neg (not_not.mpr hown), if_pos hown]
    split
    · dsimp only
      omega
    · split
      · dsimp only
        omega
      · omega
  · rw [if_pos hown, if_neg hown]

/-- The reached frontier is at least the execution's own and every action's, and one of them. -/
theorem reachedFrontier_spec (st : DurableState) (x : ExecutionRecord) :
    x.actionFrontier ≤ (reachedFrontier st x).1 ∧
    (∀ a ∈ st.actions.records, a.execution = x.id → a.sequence ≤ (reachedFrontier st x).1) ∧
    ((reachedFrontier st x).1 = x.actionFrontier ∨ ∃ a ∈ st.actions.records,
      a.execution = x.id ∧ a.sequence = (reachedFrontier st x).1) := by
  have hfold : ∀ (as : List ActionRecord) (reached : Nat × Nat),
      reached.1 ≤ (as.foldl (reach x.id) reached).1 ∧
      (∀ a ∈ as, a.execution = x.id → a.sequence ≤ (as.foldl (reach x.id) reached).1) ∧
      ((as.foldl (reach x.id) reached).1 = reached.1 ∨ ∃ a ∈ as,
        a.execution = x.id ∧ a.sequence = (as.foldl (reach x.id) reached).1) := by
    intro as
    induction as with
    | nil => simp
    | cons a rest ih =>
      intro reached
      obtain ⟨hle, hall, heq⟩ := ih (reach x.id reached a)
      have hstep := fst_reach x.id reached a
      simp only [List.foldl_cons, List.forall_mem_cons]
      refine ⟨?_, ⟨?_, hall⟩, ?_⟩
      · split at hstep <;> omega
      · intro hown
        rw [if_pos hown] at hstep
        omega
      · rcases heq with hlast | ⟨b, hb, howner, hsequence⟩
        · rw [hlast]
          split at hstep
          next hown =>
            rcases Nat.le_total a.sequence reached.1 with hle' | hle'
            · exact .inl (hstep.trans (Nat.max_eq_left hle'))
            · exact .inr ⟨a, List.mem_cons_self, hown, (hstep.trans (Nat.max_eq_right hle')).symm⟩
          next => exact .inl hstep
        · exact .inr ⟨b, List.mem_cons_of_mem _ hb, howner, hsequence⟩
  exact hfold st.actions.records (x.actionFrontier, x.actionGeneration)

/-- What reconciliation has done so far: frontiers moved in memory, nothing to write. -/
structure Reconciles (st : DurableState) (done : ExecutionId → Prop) (r : Reconciliation) :
    Prop where
  repairs : r.repairs = []
  agrees : st.image.Agrees r.state.image
  schema : r.state.schema = st.schema
  sequence : r.state.sequence = st.sequence
  actions : r.state.actions = st.actions
  progress : r.state.progress = st.progress
  frontier : ∀ e x, done e → r.state.executions.find e = some x →
    ∀ a ∈ st.actions.records, a.execution = e → a.sequence ≤ x.actionFrontier
  reaches : st.image.Reaches r.state.image

/-- A settled execution loses no commit, so only its frontier can move. -/
theorem reconcileCommit_settled (r : Reconciliation) (x : ExecutionRecord)
    (best : Option ProgressRecord) (committed : Nat)
    (h : ∀ p, best = some p → p.generation ≤ x.progressGeneration) :
    reconcileCommit r x best committed = r := by
  unfold reconcileCommit
  split
  · rfl
  next p => rw [if_pos (h p rfl)]

theorem Image.settled_agrees {m m' : Image} (h : m.Settled) (ha : m.Agrees m') : m'.Settled := by
  intro k p x hp hc hx
  obtain ⟨y, f, g, hy, rfl⟩ := ha.execution hx
  rw [ha.progress] at hp
  exact h k p y hp hc hy

theorem Reconciles.step {st : DurableState} {done : ExecutionId → Prop} {r : Reconciliation}
    (h : Reconciles st done r) (hsettled : st.image.Settled) (id : ExecutionId) :
    Reconciles st (fun e => done e ∨ e = id) (reconcileExecution r id) := by
  unfold reconcileExecution
  split
  next hnone =>
    refine { h with frontier := ?_ }
    rintro e x (hdone | rfl) hx
    · exact h.frontier e x hdone hx
    · rw [hnone] at hx
      cases hx
  next x hx =>
    have hid : x.id = id := Table.find_key hx
    have hbest : ∀ p, newestProgress r.state id = some p →
        p.generation ≤ (x.reaching (reachedFrontier r.state x).1
          (reachedFrontier r.state x).2).progressGeneration := by
      intro p hp
      obtain ⟨hmem, hown, hcommitted⟩ := newestProgress_mem hp
      refine Image.settled_agrees hsettled h.agrees p.id p x ?_ hcommitted (hown ▸ hx)
      exact (Table.find_eq_some_iff _ _ _).mpr ⟨hmem, rfl⟩
    obtain ⟨hle, hall, hreached⟩ := reachedFrontier_spec r.state x
    dsimp only
    unfold reconcileFrontier
    dsimp only
    split
    next hmoved =>
      rw [reconcileCommit_settled _ _ _ _ hbest]
      refine ⟨h.repairs, ?_, h.schema, h.sequence, h.actions, h.progress, ?_, ?_⟩
      · refine h.agrees.trans { Image.Agrees.refl _ with executions := ?_ }
        intro e
        rw [DurableState.image_install]
        show ((r.state.image.executions.insert _ e).map ExecutionRecord.core) = _
        rw [KeyedMap.insert_apply]
        split
        next he =>
          obtain rfl : e = id := he.trans hid
          rw [show r.state.image.executions e = some x from hx]
          rfl
        next => rfl
      · intro e y hdone hy a ha hown
        by_cases he : e = id
        · have hy' : (r.state.executions.upsert (x.reaching (reachedFrontier r.state x).1
              (reachedFrontier r.state x).2)).find e = some y := hy
          rw [Table.find_upsert, ExecutionRecord.id_reaching, he, ← hid, Function.update_self] at hy'
          obtain rfl := Option.some.inj hy'
          exact hall a (h.actions.symm ▸ ha) (hown.trans (he.trans hid.symm))
        · have hy' : (r.state.executions.upsert (x.reaching (reachedFrontier r.state x).1
              (reachedFrontier r.state x).2)).find e = some y := hy
          rw [Table.find_upsert, ExecutionRecord.id_reaching, hid, Function.update_of_ne he] at hy'
          exact h.frontier e y (hdone.resolve_right he) hy' a ha hown
      · intro e y hy
        have hy' : (r.state.executions.upsert (x.reaching (reachedFrontier r.state x).1
            (reachedFrontier r.state x).2)).find e = some y := hy
        by_cases he : e = id
        · rw [Table.find_upsert, ExecutionRecord.id_reaching, he, ← hid, Function.update_self] at hy'
          obtain rfl := Option.some.inj hy'
          obtain ⟨z, hz, hfrontier⟩ := h.reaches id x hx
          refine ⟨z, he ▸ hz, ?_⟩
          rcases hreached with hsame | ⟨a, ha, hown, hsequence⟩
          · rcases hfrontier with hfrontier | ⟨k, a, ha, hown, hsequence⟩
            · exact .inl (hsame.trans hfrontier)
            · exact .inr ⟨k, a, ha, hown.trans he.symm, hsequence.trans hsame.symm⟩
          · exact .inr ⟨a.key, a, (Table.find_eq_some_iff _ _ _).mpr ⟨ha, rfl⟩,
              hown.trans (hid.trans he.symm), hsequence⟩
        · rw [Table.find_upsert, ExecutionRecord.id_reaching, hid, Function.update_of_ne he] at hy'
          exact h.reaches e y hy'
    next hsame =>
      rw [reconcileCommit_settled r x _ _ hbest]
      refine { h with frontier := ?_ }
      rintro e y (hdone | rfl) hy a ha hown
      · exact h.frontier e y hdone hy a ha hown
      · obtain rfl : x = y := Option.some.inj (hx.symm.trans hy)
        have := hall a (h.actions.symm ▸ ha) (hown.trans hid.symm)
        omega

theorem reconcileState_reconciles (st : DurableState) (hsettled : st.image.Settled) :
    Reconciles st (fun e => (st.executions.find e).isSome = true) (reconcileState st) := by
  have hfold : ∀ (ids : List ExecutionId) (done : ExecutionId → Prop) (r : Reconciliation),
      Reconciles st done r →
      Reconciles st (fun e => done e ∨ e ∈ ids) (ids.foldl reconcileExecution r) := by
    intro ids
    induction ids with
    | nil => exact fun done r h => by simpa using h
    | cons id rest ih =>
      intro done r h
      have hrest := ih _ _ (h.step hsettled id)
      simpa [or_assoc] using hrest
  have hstart : Reconciles st (fun _ => False) ⟨st, [], false⟩ :=
    ⟨rfl, .refl _, rfl, rfl, rfl, rfl, fun _ _ h => h.elim, fun _ x hx => ⟨x, hx, .inl rfl⟩⟩
  have hall := hfold (st.executions.canonicalOrder.map ExecutionRecord.id) _ _ hstart
  refine { hall with frontier := ?_ }
  intro e x hstored
  refine hall.frontier e x (.inr ?_)
  obtain ⟨y, hy⟩ := Option.isSome_iff_exists.mp hstored
  obtain ⟨hmem, hid⟩ := (Table.find_eq_some_iff _ _ _).mp hy
  exact List.mem_map.mpr ⟨y, (Table.mem_canonicalOrder _ _).mpr hmem, hid⟩

end ExecutionFabric
