import ExecutionFabric.Audit.Index
import ExecutionFabric.Model.Codec

/-!
# Insertion order carries no meaning

A live run and a reload from a snapshot hold the same records in different insertion
orders. The image forgets that order; the lemmas below show that the snapshot bytes, the
rebuilt action index, the recovery plan and the verdict on a continuation are functions
of the image.
-/
namespace ExecutionFabric

open Lib

theorem Id.lt_iff {d : IdDomain} (a b : Id d) : a < b ↔ a.value.toNat < b.value.toNat :=
  UInt64.lt_iff_toNat_lt

instance {d : IdDomain} : IsStrictTotalOrder (Id d) (· < ·) where
  irrefl a := by
    rw [Id.lt_iff]
    omega
  trans a b c := by
    rw [Id.lt_iff, Id.lt_iff, Id.lt_iff]
    omega
  trichotomous a b hab hba := by
    rw [Id.lt_iff] at hab hba
    have hvalue : a.value = b.value := UInt64.toNat_inj.mp (by omega)
    cases a
    cases b
    cases hvalue
    rfl

instance : IsStrictTotalOrder ActionKey (· < ·) where
  irrefl := ActionKey.lt_irrefl
  trans _ _ _ := ActionKey.lt_trans
  trichotomous a b hab hba := by
    rcases ActionKey.lt_or_eq_of_not_lt hba with h | h
    · exact absurd h hab
    · exact h

namespace DurableState

variable {st st' : DurableState}

/-- The canonical order of each table is read off the image. -/
theorem tables_congr (h : st.image = st'.image) : st.tables = st'.tables := by
  have hpolicies := Table.canonicalOrder_congr (congrArg (·.policies.get) h)
  have hexecutions := Table.canonicalOrder_congr (congrArg (·.executions.get) h)
  have hactions := Table.canonicalOrder_congr (congrArg (·.actions.get) h)
  have hprogress := Table.canonicalOrder_congr (congrArg (·.progress.get) h)
  have hcheckpoints := Table.canonicalOrder_congr (congrArg (·.checkpoints.get) h)
  have hcontinuations := Table.canonicalOrder_congr (congrArg (·.continuations.get) h)
  have hleases := Table.canonicalOrder_congr (congrArg (·.leases.get) h)
  have hreplays := Table.canonicalOrder_congr (congrArg (·.replays.get) h)
  have hambiguities := Table.canonicalOrder_congr (congrArg (·.ambiguities.get) h)
  have hcommits := Table.canonicalOrder_congr (congrArg (·.commits.get) h)
  have hrecoveries := Table.canonicalOrder_congr (congrArg (·.recoveries.get) h)
  rw [tables, tables, hpolicies, hexecutions, hactions, hprogress, hcheckpoints, hcontinuations,
    hleases, hreplays, hambiguities, hcommits, hrecoveries]

theorem scalars_congr (h : st.image = st'.image) (hsequence : st.sequence = st'.sequence) :
    st.scalars = st'.scalars := by
  have hschema : st.schema = st'.schema := congrArg (·.schema) h
  have hstore : st.store = st'.store := congrArg (·.store) h
  have hepoch : st.epoch = st'.epoch := congrArg (·.epoch) h
  have hnext : st.nextExecutionSequence = st'.nextExecutionSequence :=
    congrArg (·.nextExecutionSequence) h
  rw [scalars, scalars, hschema, hstore, hepoch, hsequence, hnext]

theorem encode_congr (h : st.image = st'.image) (hsequence : st.sequence = st'.sequence) :
    st.encode = st'.encode := by
  rw [encode, encode, tables_congr h, scalars_congr h hsequence]

/-- Sorting forgets the order in which the rebuild met the actions. -/
theorem sortedActionKeys_congr (h : st.image = st'.image) (e : ExecutionId) :
    Journaled.sortedActionKeys st e = Journaled.sortedActionKeys st' e := by
  have hfind : st.actions.find = st'.actions.find := congrArg (·.actions.get) h
  have hperm := ((Table.perm_of_find hfind).filter fun a => a.execution = e).map ActionRecord.key
  have hnodup : (((st.actions.records.filter fun a => a.execution = e).map
      ActionRecord.key).map id).Nodup := by
    rw [List.map_id]
    exact st.actions.nodup.sublist (List.filter_sublist.map _)
  exact Table.insertionSort_congr hnodup hperm

end DurableState

/-- The runtime with another durable state and the indexes rebuilt from it. -/
def Runtime.holding (s : Runtime) (st : DurableState) : Runtime :=
  { s with toJournaled := Journaled.rebuildIndexes { s.toJournaled with state := st } }

section Decisions

variable {st st' : DurableState}

theorem latestAction_congr (s : Runtime) (h : st.image = st'.image) (e : ExecutionId) :
    (s.holding st).toJournaled.latestAction e = (s.holding st').toJournaled.latestAction e := by
  have hfind : (s.holding st).state.actions.find = (s.holding st').state.actions.find :=
    congrArg (·.actions.get) h
  have hindex : (s.holding st).actionIndex e = (s.holding st').actionIndex e :=
    DurableState.sortedActionKeys_congr h e
  rw [Journaled.latestAction, Journaled.latestAction, hindex, hfind]

/-- The classification input is a function of the image. -/
theorem recoveryInput_congr (s : Runtime) (h : st.image = st'.image) (x : ExecutionRecord) :
    recoveryInput (s.holding st).toJournaled x = recoveryInput (s.holding st').toJournaled x := by
  have hpolicies : st.policies.find = st'.policies.find := congrArg (·.policies.get) h
  have hcheckpoints : st.checkpoints.find = st'.checkpoints.find :=
    congrArg (·.checkpoints.get) h
  have hambiguities : st.ambiguities.find = st'.ambiguities.find :=
    congrArg (·.ambiguities.get) h
  have hpolicy : policyOf st x = policyOf st' x := by
    rw [policyOf, policyOf, hpolicies]
  have hcurrent : seedingCheckpoint st x = seedingCheckpoint st' x := by
    rw [seedingCheckpoint, seedingCheckpoint, hcheckpoints]
  have hcandidates : seedableCandidates st x.id = seedableCandidates st' x.id := by
    rw [seedableCandidates, seedableCandidates, Table.canonicalOrder_congr hcheckpoints]
  have hambiguity : currentAmbiguity st x = currentAmbiguity st' x := by
    rw [currentAmbiguity, currentAmbiguity, hambiguities]
  have hunusable : checkpointUnusable st x = checkpointUnusable st' x := by
    rw [checkpointUnusable, checkpointUnusable, hcheckpoints]
  have hepoch : st.epoch = st'.epoch := congrArg (·.epoch) h
  have hlatest := latestAction_congr s h x.id
  rw [recoveryInput, recoveryInput, hlatest]
  show RecoveryInput.mk _ (policyOf st x) st.epoch _ (seedingCheckpoint st x)
    (seedableCandidates st x.id) (currentAmbiguity st x) _ (checkpointUnusable st x) = _
  rw [hpolicy, hepoch, hcurrent, hcandidates, hambiguity, hunusable]
  rfl

/-- What `classify` answers. -/
theorem classify_result (s : Runtime) (caller : CallerContext) (e : ExecutionId) :
    ((classify caller e).exec s).1 = (checkCaller s caller).bind fun _ =>
      match s.state.executions.find e with
      | none => .error missingExecution
      | some x => .ok (classifyRecovery (recoveryInput s.toJournaled x)) := by
  show Program.Leads (classify caller e) s fun r _ => r = _
  unfold classify findChecked
  rw [bind_assoc]
  refine Program.leads_get ?_
  rw [bind_assoc]
  apply Program.leads_check
  · intro refusal hrefusal
    rw [hrefusal]
    rfl
  · intro _ haccepted
    rw [haccepted]
    apply Program.leads_require
    · intro hnone
      show _ = match s.state.executions.find e with
        | none => _
        | some x => _
      rw [hnone]
    · intro x hx
      refine Program.leads_get (Program.leads_pure ?_)
      show _ = match s.state.executions.find e with
        | none => _
        | some x => _
      rw [hx]

/-- The result of `classify` is a function of the image. -/
theorem classify_congr (s : Runtime) (h : st.image = st'.image) (caller : CallerContext)
    (e : ExecutionId) :
    ((classify caller e).exec (s.holding st)).1 = ((classify caller e).exec (s.holding st')).1 := by
  have hcaller : checkCaller (s.holding st) caller = checkCaller (s.holding st') caller := by
    have hopen : checkOpen (s.holding st) = checkOpen (s.holding st') := rfl
    have hepoch : (s.holding st).state.epoch = (s.holding st').state.epoch :=
      congrArg (·.epoch) h
    rw [checkCaller, checkCaller, hopen, checkEpoch, checkEpoch, hepoch]
  have hexecutions : (s.holding st).state.executions.find e =
      (s.holding st').state.executions.find e := congrArg (·.executions.get e) h
  rw [classify_result, classify_result, hcaller, hexecutions]
  simp only [recoveryInput_congr s h]

/-- Every lookup a verdict makes is a lookup in the image. -/
theorem validateContinuationState_congr (h : st.image = st'.image) (c : ContinuationRecord) :
    validateContinuationState st c = validateContinuationState st' c := by
  have hexecutions : st.executions.find = st'.executions.find := congrArg (·.executions.get) h
  have hpolicies : st.policies.find = st'.policies.find := congrArg (·.policies.get) h
  have hcheckpoints : st.checkpoints.find = st'.checkpoints.find :=
    congrArg (·.checkpoints.get) h
  have hambiguities : st.ambiguities.find = st'.ambiguities.find :=
    congrArg (·.ambiguities.get) h
  have hepoch : st.epoch = st'.epoch := congrArg (·.epoch) h
  have hunsupportable : unsupportableCheckpoint st c = unsupportableCheckpoint st' c := by
    rw [unsupportableCheckpoint, unsupportableCheckpoint, hcheckpoints]
  have hdominates : ∀ x, ambiguityDominates st x c = ambiguityDominates st' x c := by
    intro x
    rw [ambiguityDominates, ambiguityDominates, hambiguities]
  have hcurrency : ∀ x, currencyVerdict st x c = currencyVerdict st' x c := by
    intro x
    rw [currencyVerdict, currencyVerdict, policyOf, policyOf, hpolicies, hepoch,
      unseedableCheckpoint, unseedableCheckpoint, hcheckpoints]
  rw [validateContinuationState, validateContinuationState, hexecutions, hunsupportable]
  simp only [hdominates, hcurrency]

/-- States that hold the same scalars and the same records under the same keys encode to the same
bytes, classify every execution alike and judge every continuation alike, in whatever order the
records went in. -/
theorem insertion_order_irrelevant (st st' : DurableState) (himage : st.image = st'.image)
    (hsequence : st.sequence = st'.sequence) :
    st.encode = st'.encode ∧
      (∀ (s : Runtime) (caller : CallerContext) (e : ExecutionId),
        ((classify caller e).exec (s.holding st)).1 =
          ((classify caller e).exec (s.holding st')).1) ∧
      ∀ c, validateContinuationState st c = validateContinuationState st' c :=
  ⟨DurableState.encode_congr himage hsequence,
    fun s caller e => classify_congr s himage caller e,
    validateContinuationState_congr himage⟩

/-- Two checkpoints in either order. -/
def checkpointedInOrder (first second : CheckpointRecord) : DurableState :=
  { checkpoints := (Table.empty.upsert first).upsert second }

theorem insertion_order_irrelevant_checkpoints :
    let older : CheckpointRecord := { id := ⟨2⟩, generation := 1, execution := ⟨1⟩ }
    let newer : CheckpointRecord := { id := ⟨3⟩, generation := 2, execution := ⟨1⟩ }
    let st := checkpointedInOrder older newer
    let st' := checkpointedInOrder newer older
    st.checkpoints.records ≠ st'.checkpoints.records ∧ st.encode = st'.encode := by
  intro older newer st st'
  refine ⟨by decide, (insertion_order_irrelevant st st' ?_ rfl).1⟩
  have hswap : st.checkpoints.toMap = st'.checkpoints.toMap := by
    show ((Table.empty.upsert older).upsert newer).toMap =
      ((Table.empty.upsert newer).upsert older).toMap
    rw [Table.toMap_upsert, Table.toMap_upsert, Table.toMap_upsert, Table.toMap_upsert]
    exact KeyedMap.insert_comm _ (by decide)
  exact Image.ext rfl rfl rfl rfl rfl rfl rfl rfl hswap rfl rfl rfl rfl rfl rfl

end Decisions

end ExecutionFabric
