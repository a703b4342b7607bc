import ExecutionFabric.Audit.Reload

/-!
# What reconciliation does to a state

Reconciliation handles one execution after the other and reads what the earlier ones
left. What it does to an execution depends only on the state it started from, so its
result is written down at once: every execution revised in place, the actions of lost
commits sealed, one repair for each promotion.
-/
namespace ExecutionFabric

open Lib

/-! ## One execution -/

/-- What an execution lost: the newest committed progress ahead of it, its commit and its
action. -/
structure Promotion where
  progress : ProgressRecord
  commit : CommitRecord
  action : ActionRecord

/-- The promotion that reconciliation owes an execution. -/
def promotionOf (st : DurableState) (x : ExecutionRecord) : Option Promotion :=
  match newestProgress st x.id with
  | none => none
  | some best =>
    if best.generation ≤ x.progressGeneration then none
    else
      match st.commits.find best.commit with
      | none => none
      | some commit => (st.actions.find commit.actionKey).map fun action => ⟨best, commit, action⟩

/-- The execution with its frontier brought forward. -/
def advancedExecution (st : DurableState) (x : ExecutionRecord) : ExecutionRecord :=
  if (reachedFrontier st x).1 ≠ x.actionFrontier then
    x.reaching (reachedFrontier st x).1 (reachedFrontier st x).2
  else x

/-- The execution with the promotion made. -/
def Promotion.promote (p : Promotion) (committed : Nat) (x : ExecutionRecord) : ExecutionRecord :=
  { x with
    progressGeneration := p.progress.generation
    progress := p.progress.id
    lastCommit := p.progress.commit
    committedActions := committed }

def reconciledExecution (st : DurableState) (x : ExecutionRecord) : ExecutionRecord :=
  match promotionOf st x with
  | none => advancedExecution st x
  | some p => p.promote (committedCount st x.id) (advancedExecution st x)

/-- The action as the commit seals it. -/
def ActionRecord.sealedBy (a : ActionRecord) (c : CommitRecord) : ActionRecord :=
  { a with status := .committed, commit := c.id }

/-- Seals the action if the commit names it. -/
def sealNamed (a : ActionRecord) (c : CommitRecord) : ActionRecord :=
  if c.actionKey = a.key then a.sealedBy c else a

/-- The action after the commits were promoted one after the other. -/
def sealedAction (cs : List CommitRecord) (a : ActionRecord) : ActionRecord := cs.foldl sealNamed a

def Promotion.repair (p : Promotion) (next : ExecutionRecord) : CommitGroupRecord :=
  ⟨p.commit, p.progress, p.action.sealedBy p.commit, next⟩

@[simp] theorem id_reconciledExecution (st : DurableState) (x : ExecutionRecord) :
    (reconciledExecution st x).id = x.id := by
  unfold reconciledExecution advancedExecution
  split <;> split <;> rfl

@[simp] theorem key_sealNamed (a : ActionRecord) (c : CommitRecord) : (sealNamed a c).key = a.key := by
  unfold sealNamed
  split <;> rfl

/-- Sealing touches the status and the commit of an action only. -/
theorem sealedAction_eq (cs : List CommitRecord) (a : ActionRecord) :
    ∃ status commit, sealedAction cs a = { a with status := status, commit := commit } := by
  unfold sealedAction
  induction cs generalizing a with
  | nil => exact ⟨a.status, a.commit, rfl⟩
  | cons c cs ih =>
    obtain ⟨status, commit, h⟩ := ih (sealNamed a c)
    rw [List.foldl_cons, h]
    refine ⟨status, commit, ?_⟩
    unfold sealNamed
    split <;> rfl

@[simp] theorem key_sealedAction (cs : List CommitRecord) (a : ActionRecord) :
    (sealedAction cs a).key = a.key := by
  obtain ⟨status, commit, h⟩ := sealedAction_eq cs a
  rw [h]
  rfl

@[simp] theorem execution_sealedAction (cs : List CommitRecord) (a : ActionRecord) :
    (sealedAction cs a).execution = a.execution := by
  obtain ⟨status, commit, h⟩ := sealedAction_eq cs a
  rw [h]

@[simp] theorem sequence_sealedAction (cs : List CommitRecord) (a : ActionRecord) :
    (sealedAction cs a).sequence = a.sequence := by
  obtain ⟨status, commit, h⟩ := sealedAction_eq cs a
  rw [h]

@[simp] theorem generation_sealedAction (cs : List CommitRecord) (a : ActionRecord) :
    (sealedAction cs a).generation = a.generation := by
  obtain ⟨status, commit, h⟩ := sealedAction_eq cs a
  rw [h]

/-! ## The executions handled so far -/

/-- The promotions of the executions handled so far, in the order of handling. -/
def promotionsOf (st : DurableState) (done : List ExecutionId) : List Promotion :=
  done.filterMap fun id => (st.executions.find id).bind (promotionOf st)

/-- The repairs of the executions handled so far. -/
def repairsOf (st : DurableState) (done : List ExecutionId) : List CommitGroupRecord :=
  done.filterMap fun id => (st.executions.find id).bind fun x =>
    (promotionOf st x).map fun p => p.repair (reconciledExecution st x)

/-- Something of the execution is brought forward. -/
def lags (st : DurableState) (x : ExecutionRecord) : Bool :=
  (reachedFrontier st x).1 != x.actionFrontier || (promotionOf st x).isSome

/-- The execution, reconciled if it was handled. -/
def handledExecution (st : DurableState) (done : List ExecutionId) (x : ExecutionRecord) :
    ExecutionRecord := if x.id ∈ done then reconciledExecution st x else x

theorem id_handledExecution (st : DurableState) (done : List ExecutionId) (x : ExecutionRecord) :
    (handledExecution st done x).id = x.id := by
  unfold handledExecution
  split <;> simp

/-- The state after the executions in `done` were handled. -/
def reconciledWith (st : DurableState) (done : List ExecutionId) : Reconciliation :=
  { state := { st with
      executions := st.executions.revise (handledExecution st done) (id_handledExecution st done)
      actions := st.actions.revise (sealedAction ((promotionsOf st done).map Promotion.commit))
        (key_sealedAction _) }
    repairs := repairsOf st done
    changed := done.any fun id => (st.executions.find id).any (lags st) }

theorem reach_sealedAction (cs : List CommitRecord) (e : ExecutionId) (reached : Nat × Nat)
    (a : ActionRecord) : reach e reached (sealedAction cs a) = reach e reached a := by
  unfold reach
  simp only [execution_sealedAction, sequence_sealedAction, generation_sealedAction]

/-- Sealed actions reach as far as before. -/
theorem reachedFrontier_reconciledWith (st : DurableState) (done : List ExecutionId)
    (x : ExecutionRecord) :
    reachedFrontier (reconciledWith st done).state x = reachedFrontier st x := by
  unfold reachedFrontier reconciledWith Table.revise
  simp only [List.foldl_map, reach_sealedAction]

/-! ## One more execution -/

theorem promotionOf_eq_some {st : DurableState} {x : ExecutionRecord} {p : Promotion} :
    promotionOf st x = some p ↔ newestProgress st x.id = some p.progress ∧
      x.progressGeneration < p.progress.generation ∧
      st.commits.find p.progress.commit = some p.commit ∧
      st.actions.find p.commit.actionKey = some p.action := by
  unfold promotionOf
  cases hbest : newestProgress st x.id with
  | none => simp
  | some best =>
    simp only [Option.some.injEq]
    split
    next hle =>
      simp only [reduceCtorEq, false_iff]
      rintro ⟨rfl, hlt, -⟩
      omega
    next hlt =>
      cases hcommit : st.commits.find best.commit with
      | none =>
        simp only [reduceCtorEq, false_iff]
        rintro ⟨rfl, -, hfound, -⟩
        rw [hcommit] at hfound
        cases hfound
      | some commit =>
        simp only [Option.map_eq_some_iff]
        constructor
        · rintro ⟨action, haction, rfl⟩
          exact ⟨rfl, not_le.mp hlt, hcommit, haction⟩
        · rintro ⟨rfl, -, hfound, haction⟩
          rw [hcommit] at hfound
          obtain rfl := Option.some.inj hfound
          exact ⟨p.action, haction, rfl⟩

/-- Over actions that were sealed already, the promotion is made from the original ones. -/
theorem reconcileCommit_promotionOf (st : DurableState) (cs : List CommitRecord)
    (r : Reconciliation) (x y : ExecutionRecord) (committed : Nat)
    (hcommits : r.state.commits = st.commits)
    (hactions : r.state.actions = st.actions.revise (sealedAction cs) (key_sealedAction cs))
    (hgeneration : y.progressGeneration = x.progressGeneration) :
    reconcileCommit r y (newestProgress st x.id) committed =
      match promotionOf st x with
      | none => r
      | some p =>
        { state := (r.state.install (.action (p.action.sealedBy p.commit))).install
            (.execution (p.promote committed y))
          repairs := r.repairs ++ [p.repair (p.promote committed y)]
          changed := true } := by
  unfold reconcileCommit promotionOf
  cases newestProgress st x.id with
  | none => rfl
  | some best =>
    dsimp only
    rw [hgeneration, hcommits, hactions]
    split
    · rfl
    · cases st.commits.find best.commit with
      | none => rfl
      | some commit =>
        dsimp only
        rw [Table.find_revise]
        cases st.actions.find commit.actionKey with
        | none => rfl
        | some action =>
          obtain ⟨status, sealing, hsealed⟩ := sealedAction_eq cs action
          have hseal : (if (sealedAction cs action).status ≠ .committed ∨
              (sealedAction cs action).commit ≠ commit.id then
                { sealedAction cs action with status := .committed, commit := commit.id }
              else sealedAction cs action) = action.sealedBy commit := by
            rw [hsealed]
            unfold ActionRecord.sealedBy
            split
            · rfl
            next hsame =>
              simp only [ne_eq, not_or, not_not] at hsame
              obtain ⟨rfl, rfl⟩ := hsame
              rfl
          simp only [Option.map_some, hseal]
          rfl

section Step

variable {st : DurableState} {done : List ExecutionId} {x : ExecutionRecord}

theorem find_handled (hx : st.executions.find x.id = some x) (hnew : x.id ∉ done) :
    (reconciledWith st done).state.executions.find x.id = some x := by
  unfold reconciledWith
  dsimp only
  rw [Table.find_revise, hx, Option.map_some, handledExecution, if_neg hnew]

/-- A stored record is found under its key, so one under the key of `x` is `x`. -/
theorem eq_of_id (hx : st.executions.find x.id = some x) {z : ExecutionRecord}
    (hz : z ∈ st.executions.records) (he : z.id = x.id) : z = x :=
  Option.some.inj (((Table.find_eq_some_iff _ _ _).mpr ⟨hz, he⟩).symm.trans hx)

/-- The executions once `x` has been reconciled. -/
theorem upsert_handled (hx : st.executions.find x.id = some x) :
    (reconciledWith st done).state.executions.upsert (reconciledExecution st x) =
      (reconciledWith st (done ++ [x.id])).state.executions := by
  have hfound : st.executions.find (reconciledExecution st x).id = some x := by
    rw [id_reconciledExecution]
    exact hx
  refine Table.upsert_revise _ (id_handledExecution st done)
    (id_handledExecution st (done ++ [x.id])) hfound ?_
  intro z hz
  rw [id_reconciledExecution]
  by_cases he : z.id = x.id
  · rw [if_pos he, handledExecution, if_pos (by simp [he]), eq_of_id hx hz he]
  · rw [if_neg he, handledExecution, handledExecution]
    simp [he]

theorem promotionsOf_concat (hx : st.executions.find x.id = some x) :
    promotionsOf st (done ++ [x.id]) = promotionsOf st done ++ (promotionOf st x).toList := by
  unfold promotionsOf
  rw [List.filterMap_append]
  cases hp : promotionOf st x <;> simp [hx, hp]

/-- The actions once the commit of a promotion has been sealed. -/
theorem seal_handled {p : Promotion} (hp : promotionOf st x = some p)
    (hx : st.executions.find x.id = some x) :
    (reconciledWith st done).state.actions.upsert (p.action.sealedBy p.commit) =
      (reconciledWith st (done ++ [x.id])).state.actions := by
  obtain ⟨-, -, -, haction⟩ := promotionOf_eq_some.mp hp
  have hkey : p.action.key = p.commit.actionKey := Table.find_key haction
  have hsealedKey : (p.action.sealedBy p.commit).key = p.action.key := rfl
  have hpromotions : promotionsOf st (done ++ [x.id]) = promotionsOf st done ++ [p] := by
    rw [promotionsOf_concat hx, hp]
    rfl
  have hfound : st.actions.find (p.action.sealedBy p.commit).key = some p.action := by
    rw [hsealedKey, hkey]
    exact haction
  refine Table.upsert_revise _ (key_sealedAction _) (key_sealedAction _) hfound ?_
  intro a ha
  rw [hpromotions, List.map_append, sealedAction, List.map_singleton, List.foldl_concat,
    ← sealedAction, hsealedKey]
  unfold sealNamed
  rw [key_sealedAction]
  by_cases he : a.key = p.action.key
  · have hap : a = p.action := by
      have hfound := (Table.find_eq_some_iff _ _ _).mpr ⟨ha, he.trans hkey⟩
      exact Option.some.inj (hfound.symm.trans haction)
    obtain ⟨status, commit, hsealed⟩ :=
      sealedAction_eq ((promotionsOf st done).map (·.commit)) p.action
    rw [hap, if_pos rfl, if_pos hkey.symm, hsealed]
    rfl
  · rw [if_neg he, if_neg fun h => he (h.symm.trans hkey.symm)]

/-- An execution that is not brought forward stays as it is. -/
theorem handled_kept (hx : st.executions.find x.id = some x)
    (hsame : reconciledExecution st x = x) :
    (reconciledWith st (done ++ [x.id])).state.executions =
      (reconciledWith st done).state.executions := by
  refine Table.revise_congr _ (id_handledExecution st (done ++ [x.id]))
    (id_handledExecution st done) ?_
  intro z hz
  unfold handledExecution
  by_cases he : z.id = x.id
  · rw [eq_of_id hx hz he, if_pos (by simp), hsame, ite_self]
  · simp [he]

theorem repairsOf_concat (hx : st.executions.find x.id = some x) :
    repairsOf st (done ++ [x.id]) = repairsOf st done ++ ((promotionOf st x).map fun p =>
      p.repair (reconciledExecution st x)).toList := by
  unfold repairsOf
  rw [List.filterMap_append]
  cases hp : promotionOf st x <;> simp [hx, hp]

theorem changed_concat (hx : st.executions.find x.id = some x) :
    (reconciledWith st (done ++ [x.id])).changed =
      ((reconciledWith st done).changed || lags st x) := by
  unfold reconciledWith
  simp [hx]

/-- A state that has the executions and the actions of the next one is the next one. -/
theorem reconciledWith_of_tables (done : List ExecutionId) {r : Reconciliation}
    {ids : List ExecutionId}
    (hstate : r.state = { (reconciledWith st done).state with
      executions := r.state.executions, actions := r.state.actions })
    (hexecutions : r.state.executions = (reconciledWith st ids).state.executions)
    (hactions : r.state.actions = (reconciledWith st ids).state.actions)
    (hrepairs : r.repairs = repairsOf st ids)
    (hchanged : r.changed = (reconciledWith st ids).changed) : r = reconciledWith st ids := by
  cases r with
  | mk state repairs changed =>
    dsimp only at hstate hexecutions hactions hrepairs hchanged
    rw [hstate, hexecutions, hactions, hrepairs, hchanged]
    rfl

theorem actions_kept (hx : st.executions.find x.id = some x) (hp : promotionOf st x = none) :
    (reconciledWith st (done ++ [x.id])).state.actions = (reconciledWith st done).state.actions := by
  unfold reconciledWith
  dsimp only
  congr 2
  rw [promotionsOf_concat hx, hp, Option.toList_none, List.append_nil]

/-- The frontier of one more execution, over what the earlier ones left. -/
theorem reconcileFrontier_reconciledWith (st : DurableState) (done : List ExecutionId)
    (x : ExecutionRecord) :
    reconcileFrontier (reconciledWith st done) x =
      (if (reachedFrontier st x).1 ≠ x.actionFrontier then
        { reconciledWith st done with
          state := (reconciledWith st done).state.install (.execution (advancedExecution st x))
          changed := true }
      else reconciledWith st done, advancedExecution st x) := by
  unfold reconcileFrontier advancedExecution
  dsimp only
  rw [reachedFrontier_reconciledWith]
  split
  next hmoved => rfl
  next hstill => rfl

theorem progressGeneration_advanced (st : DurableState) (x : ExecutionRecord) :
    (advancedExecution st x).progressGeneration = x.progressGeneration := by
  unfold advancedExecution
  split <;> rfl

theorem id_advanced (st : DurableState) (x : ExecutionRecord) :
    (advancedExecution st x).id = x.id := by
  unfold advancedExecution
  split <;> rfl

/-- An execution that lost no commit. -/
theorem reconcileExecution_unpromoted (hx : st.executions.find x.id = some x)
    (hp : promotionOf st x = none) :
    (if (reachedFrontier st x).1 ≠ x.actionFrontier then
      { reconciledWith st done with
        state := (reconciledWith st done).state.install (.execution (advancedExecution st x))
        changed := true }
    else reconciledWith st done) = reconciledWith st (done ++ [x.id]) := by
  have hsame : reconciledExecution st x = advancedExecution st x := by
    rw [reconciledExecution, hp]
  have hrepairs : repairsOf st (done ++ [x.id]) = repairsOf st done := by
    rw [repairsOf_concat hx, hp]
    exact List.append_nil _
  split
  next hmoved =>
    refine reconciledWith_of_tables done rfl ?_ (actions_kept hx hp).symm hrepairs.symm ?_
    · rw [← upsert_handled hx, hsame]
      rfl
    · rw [changed_concat hx, lags, bne_iff_ne.mpr hmoved, Bool.true_or, Bool.or_true]
  next hstill =>
    have hkept : reconciledExecution st x = x := by
      rw [hsame, advancedExecution, if_neg hstill]
    refine reconciledWith_of_tables done rfl (handled_kept hx hkept).symm
      (actions_kept hx hp).symm hrepairs.symm ?_
    rw [changed_concat hx, lags, hp, not_not.mp hstill, bne_self_eq_false]
    simp

/-- Handling one more execution. -/
theorem reconcileExecution_reconciledWith (hx : st.executions.find x.id = some x)
    (hnew : x.id ∉ done) :
    reconcileExecution (reconciledWith st done) x.id = reconciledWith st (done ++ [x.id]) := by
  have hbest : newestProgress (reconciledWith st done).state x.id = newestProgress st x.id := rfl
  have hcount : committedCount (reconciledWith st done).state x.id = committedCount st x.id := rfl
  have hpromotion := reconcileCommit_promotionOf st ((promotionsOf st done).map Promotion.commit)
    (if (reachedFrontier st x).1 ≠ x.actionFrontier then
        { reconciledWith st done with
          state := (reconciledWith st done).state.install (.execution (advancedExecution st x))
          changed := true }
      else reconciledWith st done) x (advancedExecution st x) (committedCount st x.id)
    (by split <;> rfl) (by split <;> rfl) (progressGeneration_advanced st x)
  unfold reconcileExecution
  rw [find_handled hx hnew]
  dsimp only
  rw [reconcileFrontier_reconciledWith, hbest, hcount, hpromotion]
  cases hp : promotionOf st x with
  | none => exact reconcileExecution_unpromoted hx hp
  | some p =>
    have hnext : p.promote (committedCount st x.id) (advancedExecution st x) =
        reconciledExecution st x := by
      rw [reconciledExecution, hp]
    dsimp only
    rw [hnext]
    refine reconciledWith_of_tables done ?_ ?_ ?_ ?_ ?_
    · split <;> rfl
    · rw [← upsert_handled hx]
      split
      next hmoved =>
        refine Table.upsert_upsert _ ?_ ?_
        · rw [id_advanced, id_reconciledExecution]
        · rw [id_advanced, Table.contains, find_handled hx hnew]
          rfl
      next hstill => rfl
    · rw [← seal_handled hp hx]
      split <;> rfl
    · rw [repairsOf_concat hx, hp]
      split <;> rfl
    · rw [changed_concat hx, lags, hp, Option.isSome_some, Bool.or_true, Bool.or_true]

end Step

/-! ## All executions -/

/-- The executions in the order in which they are handled. -/
def DurableState.handled (st : DurableState) : List ExecutionId :=
  st.executions.canonicalOrder.map ExecutionRecord.id

theorem DurableState.mem_handled (st : DurableState) (id : ExecutionId) :
    id ∈ st.handled ↔ ∃ x ∈ st.executions.records, x.id = id := by
  simp only [handled, List.mem_map, Table.mem_canonicalOrder]

theorem reconciledWith_nil (st : DurableState) : reconciledWith st [] = ⟨st, [], false⟩ := by
  unfold reconciledWith
  rw [Table.revise_eq_self _ (id_handledExecution st [])
      (fun x _ => if_neg List.not_mem_nil),
    Table.revise_eq_self _ (key_sealedAction _) (fun _ _ => rfl)]
  rfl

/-- What reconciliation makes of a state, written down at once. -/
theorem reconcileState_eq (st : DurableState) :
    reconcileState st = reconciledWith st st.handled := by
  have hfold : ∀ (ids done : List ExecutionId), (done ++ ids).Nodup →
      (∀ id ∈ ids, ∃ x ∈ st.executions.records, x.id = id) →
      ids.foldl reconcileExecution (reconciledWith st done) = reconciledWith st (done ++ ids) := by
    intro ids
    induction ids with
    | nil => simp
    | cons id rest ih =>
      intro done hnodup hstored
      obtain ⟨x, hx, rfl⟩ := hstored id List.mem_cons_self
      have hnew : x.id ∉ done := by
        intro hdone
        exact (List.nodup_append.mp hnodup).2.2 _ hdone _ List.mem_cons_self rfl
      have hassoc : done ++ x.id :: rest = (done ++ [x.id]) ++ rest := by simp
      rw [List.foldl_cons, reconcileExecution_reconciledWith
        ((Table.find_eq_some_iff _ _ _).mpr ⟨hx, rfl⟩) hnew, hassoc]
      rw [hassoc] at hnodup
      exact ih _ hnodup fun id hid => hstored id (List.mem_cons_of_mem _ hid)
  have hnodup : st.handled.Nodup :=
    ((st.executions.canonicalOrder_perm.map ExecutionRecord.id).nodup_iff).mpr st.executions.nodup
  have hall := hfold st.handled [] (by simpa using hnodup) fun id hid => (st.mem_handled id).mp hid
  rw [reconciledWith_nil, List.nil_append] at hall
  exact hall

/-- The commits that are promoted, in the order of their executions. -/
def DurableState.promotedCommits (st : DurableState) : List CommitRecord :=
  (promotionsOf st st.handled).map Promotion.commit

theorem mem_promotionsOf_handled {st : DurableState} {p : Promotion} :
    p ∈ promotionsOf st st.handled ↔ ∃ x ∈ st.executions.records, promotionOf st x = some p := by
  unfold promotionsOf
  rw [List.mem_filterMap]
  constructor
  · rintro ⟨id, -, hp⟩
    obtain ⟨x, hx, hp⟩ := Option.bind_eq_some_iff.mp hp
    exact ⟨x, ((Table.find_eq_some_iff _ _ _).mp hx).1, hp⟩
  · rintro ⟨x, hx, hp⟩
    refine ⟨x.id, (st.mem_handled _).mpr ⟨x, hx, rfl⟩, ?_⟩
    rw [(Table.find_eq_some_iff _ _ _).mpr ⟨hx, rfl⟩]
    exact hp

theorem mem_promotedCommits {st : DurableState} {c : CommitRecord} :
    c ∈ st.promotedCommits ↔
      ∃ x ∈ st.executions.records, ∃ p, promotionOf st x = some p ∧ p.commit = c := by
  unfold DurableState.promotedCommits
  rw [List.mem_map]
  constructor
  · rintro ⟨p, hp, rfl⟩
    obtain ⟨x, hx, hp⟩ := mem_promotionsOf_handled.mp hp
    exact ⟨x, hx, p, hp, rfl⟩
  · rintro ⟨x, hx, p, hp, rfl⟩
    exact ⟨p, mem_promotionsOf_handled.mpr ⟨x, hx, hp⟩, rfl⟩

/-- Every record of the result is a record of the start, reconciled. -/
theorem records_reconcileState (st : DurableState) :
    (reconcileState st).state.executions.records =
      st.executions.records.map (reconciledExecution st) ∧
    (reconcileState st).state.actions.records =
      st.actions.records.map (sealedAction st.promotedCommits) := by
  rw [reconcileState_eq]
  refine ⟨?_, rfl⟩
  unfold reconciledWith Table.revise
  refine List.map_congr_left fun x hx => ?_
  rw [handledExecution, if_pos ((st.mem_handled _).mpr ⟨x, hx, rfl⟩)]

theorem find_execution_reconcileState (st : DurableState) (id : ExecutionId) :
    (reconcileState st).state.executions.find id =
      (st.executions.find id).map (reconciledExecution st) := by
  rw [reconcileState_eq]
  unfold reconciledWith
  dsimp only
  rw [Table.find_revise]
  cases hx : st.executions.find id with
  | none => rfl
  | some x =>
    have hmem := ((Table.find_eq_some_iff _ _ _).mp hx).1
    rw [Option.map_some, Option.map_some, handledExecution,
      if_pos ((st.mem_handled _).mpr ⟨x, hmem, rfl⟩)]

theorem find_action_reconcileState (st : DurableState) (key : ActionKey) :
    (reconcileState st).state.actions.find key =
      (st.actions.find key).map (sealedAction st.promotedCommits) := by
  rw [reconcileState_eq]
  exact Table.find_revise _ _ (key_sealedAction _) _

theorem mem_repairs_reconcileState {st : DurableState} {g : CommitGroupRecord} :
    g ∈ (reconcileState st).repairs ↔ ∃ x ∈ st.executions.records, ∃ p,
      promotionOf st x = some p ∧ g = p.repair (reconciledExecution st x) := by
  rw [reconcileState_eq]
  show g ∈ repairsOf st st.handled ↔ _
  unfold repairsOf
  rw [List.mem_filterMap]
  constructor
  · rintro ⟨id, -, hg⟩
    obtain ⟨x, hx, hg⟩ := Option.bind_eq_some_iff.mp hg
    obtain ⟨p, hp, rfl⟩ := Option.map_eq_some_iff.mp hg
    exact ⟨x, ((Table.find_eq_some_iff _ _ _).mp hx).1, p, hp, rfl⟩
  · rintro ⟨x, hx, p, hp, rfl⟩
    refine ⟨x.id, (st.mem_handled _).mpr ⟨x, hx, rfl⟩, ?_⟩
    rw [(Table.find_eq_some_iff _ _ _).mpr ⟨hx, rfl⟩, Option.bind_some, hp]
    rfl

/-! ## Frontiers -/

/-- `reached` is what the actions of `e` reach from `start`. -/
structure ReachedFrom (e : ExecutionId) (start : Nat) (as : List ActionRecord)
    (reached : Nat × Nat) : Prop where
  bound : ∀ a ∈ as, a.execution = e → a.sequence ≤ reached.1
  newest : ∀ a ∈ as, a.execution = e → a.sequence = reached.1 → a.generation ≤ reached.2
  attained : reached.1 = start ∨
    ∃ a ∈ as, a.execution = e ∧ a.sequence = reached.1 ∧ a.generation = reached.2

theorem ReachedFrom.step {e : ExecutionId} {start : Nat} {as : List ActionRecord}
    {reached : Nat × Nat} (h : ReachedFrom e start as reached) (a : ActionRecord) :
    ReachedFrom e start (as ++ [a]) (reach e reached a) := by
  have hlast : a ∈ as ++ [a] := by simp
  have hkept : ∀ {P : ActionRecord → Prop}, (∃ b ∈ as, P b) → ∃ b ∈ as ++ [a], P b := by
    rintro P ⟨b, hb, hP⟩
    exact ⟨b, List.mem_append_left _ hb, hP⟩
  have hsplit : ∀ {b : ActionRecord}, b ∈ as ++ [a] → b ∈ as ∨ b = a := by simp
  unfold reach
  split
  next hother =>
    refine ⟨fun b hb hown => ?_, fun b hb hown => ?_, h.attained.imp_right hkept⟩
    · rcases hsplit hb with hb | rfl
      · exact h.bound b hb hown
      · exact absurd hown hother
    · rcases hsplit hb with hb | rfl
      · exact h.newest b hb hown
      · exact absurd hown hother
  next hown =>
    rw [not_not] at hown
    split
    next hbeyond =>
      refine ⟨fun b hb hb' => ?_, fun b hb hb' hs => ?_, .inr ⟨a, hlast, hown, rfl, rfl⟩⟩
      · rcases hsplit hb with hb | rfl
        · exact (h.bound b hb hb').trans hbeyond.le
        · exact le_rfl
      · rcases hsplit hb with hb | rfl
        · have := h.bound b hb hb'
          dsimp only at hs
          omega
        · exact le_rfl
    next hwithin =>
      split
      next hnewer =>
        refine ⟨fun b hb hb' => ?_, fun b hb hb' hs => ?_,
          .inr ⟨a, hlast, hown, hnewer.1, rfl⟩⟩
        · rcases hsplit hb with hb | rfl
          · exact h.bound b hb hb'
          · exact hnewer.1.le
        · rcases hsplit hb with hb | rfl
          · exact (h.newest b hb hb' hs).trans hnewer.2.le
          · exact le_rfl
      next holder =>
        refine ⟨fun b hb hb' => ?_, fun b hb hb' hs => ?_, h.attained.imp_right hkept⟩
        · rcases hsplit hb with hb | rfl
          · exact h.bound b hb hb'
          · exact not_lt.mp hwithin
        · rcases hsplit hb with hb | rfl
          · exact h.newest b hb hb' hs
          · exact not_lt.mp fun hlt => holder ⟨hs, hlt⟩

/-- The frontier reached bounds the stored actions and, if it moved, is that of the newest. -/
theorem reachedFrontier_reachedFrom (st : DurableState) (x : ExecutionRecord) :
    ReachedFrom x.id x.actionFrontier st.actions.records (reachedFrontier st x) := by
  unfold reachedFrontier
  induction st.actions.records using List.reverseRecOn with
  | nil => exact ⟨by simp, by simp, .inl rfl⟩
  | append_singleton as a ih =>
    rw [List.foldl_concat]
    exact ih.step a

end ExecutionFabric
