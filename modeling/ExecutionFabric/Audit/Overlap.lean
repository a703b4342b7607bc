import ExecutionFabric.Audit.Image
import ExecutionFabric.Model.Persistence

/-!
# Overlapping replay

A snapshot and the journal behind it may cover the same records, so recovery can apply
a stretch of the journal to a state that holds it already. Each record kind writes whole
records under their keys, and several kinds write the same table, so a replay is one
`upsertAll` for each table and one overwrite of the scalars.
-/
namespace ExecutionFabric

open Lib

/-- The scalars a record overwrites: store, epoch, next execution sequence and schema. -/
def JournalEntry.metadata : JournalEntry → Option (StoreId × Nat × Nat × Nat)
  | .storeMeta r => some (r.store, r.epoch, r.nextExecutionSequence, r.schema)
  | _ => none

namespace DurableState

/-- What a list of journal records writes. -/
def installAll (st : DurableState) (entries : List JournalEntry) : DurableState :=
  entries.foldl install st

/-- The scalars a store metadata record carries. -/
def metadata (st : DurableState) : StoreId × Nat × Nat × Nat :=
  (st.store, st.epoch, st.nextExecutionSequence, st.schema)

section Twice

variable {α κ : Type} [DecidableEq κ] {key : α → κ}
variable {table : DurableState → Table key} {written : JournalEntry → List α}

/-- A table into which every record puts what `written` says holds, after a list of records, all
of it in order. -/
theorem table_installAll
    (hinstall : ∀ st e, table (install st e) = (table st).upsertAll (written e))
    (st : DurableState) (es : List JournalEntry) :
    table (st.installAll es) = (table st).upsertAll (es.flatMap written) := by
  induction es generalizing st with
  | nil => rfl
  | cons e rest ih =>
    rw [List.flatMap_cons, Table.upsertAll_append, ← hinstall]
    exact ih (st.install e)

theorem table_twice
    (hinstall : ∀ st e, table (install st e) = (table st).upsertAll (written e))
    (st : DurableState) (es : List JournalEntry) :
    table ((st.installAll es).installAll es) = table (st.installAll es) := by
  rw [table_installAll hinstall, table_installAll hinstall, Table.upsertAll_upsertAll]

end Twice

theorem metadata_install (st : DurableState) (e : JournalEntry) :
    (st.install e).metadata = e.metadata.getD st.metadata := by
  cases e <;> rfl

theorem metadata_unwritten (st : DurableState) {es : List JournalEntry}
    (h : ∀ e ∈ es, e.metadata = none) : (st.installAll es).metadata = st.metadata := by
  induction es generalizing st with
  | nil => rfl
  | cons e rest ih =>
    refine (ih (st.install e) fun e' he' => h e' (List.mem_cons_of_mem _ he')).trans ?_
    rw [metadata_install, h e List.mem_cons_self]
    rfl

/-- Once one record overwrites the scalars, they no longer depend on the state before. -/
theorem metadata_congr (st st' : DurableState) {es : List JournalEntry}
    (h : (∃ e ∈ es, e.metadata ≠ none) ∨ st.metadata = st'.metadata) :
    (st.installAll es).metadata = (st'.installAll es).metadata := by
  induction es generalizing st st' with
  | nil =>
    rcases h with ⟨e, he, -⟩ | h
    · cases he
    · exact h
  | cons e rest ih =>
    apply ih (st.install e) (st'.install e)
    rw [metadata_install, metadata_install]
    cases hm : e.metadata with
    | some written => exact .inr rfl
    | none =>
      rcases h with ⟨e', he', hne⟩ | h
      · rcases List.mem_cons.mp he' with rfl | hrest
        · exact absurd hm hne
        · exact .inl ⟨e', hrest, hne⟩
      · exact .inr h

theorem metadata_twice (st : DurableState) (es : List JournalEntry) :
    ((st.installAll es).installAll es).metadata = (st.installAll es).metadata := by
  by_cases h : ∃ e ∈ es, e.metadata ≠ none
  · exact metadata_congr _ _ (.inl h)
  · apply metadata_unwritten
    intro e he
    by_contra hne
    exact h ⟨e, he, hne⟩

theorem sequence_installAll (st : DurableState) (es : List JournalEntry) :
    (st.installAll es).sequence = st.sequence := by
  induction es generalizing st with
  | nil => rfl
  | cons e rest ih =>
    refine (ih (st.install e)).trans ?_
    cases e <;> rfl

/-- A state is its tables, its sequence number and its metadata. -/
theorem ext_tables {st st' : DurableState} (hsequence : st.sequence = st'.sequence)
    (hmetadata : st.metadata = st'.metadata) (hpolicies : st.policies = st'.policies)
    (hexecutions : st.executions = st'.executions) (hactions : st.actions = st'.actions)
    (hprogress : st.progress = st'.progress) (hcheckpoints : st.checkpoints = st'.checkpoints)
    (hcontinuations : st.continuations = st'.continuations) (hleases : st.leases = st'.leases)
    (hreplays : st.replays = st'.replays) (hambiguities : st.ambiguities = st'.ambiguities)
    (hcommits : st.commits = st'.commits) (hrecoveries : st.recoveries = st'.recoveries) :
    st = st' := by
  cases st
  cases st'
  simp only [metadata, Prod.mk.injEq] at *
  obtain ⟨rfl, rfl, rfl, rfl⟩ := hmetadata
  subst_vars
  rfl

/-- Installing a list of records a second time changes nothing, insertion orders included. -/
theorem installAll_twice (st : DurableState) (es : List JournalEntry) :
    (st.installAll es).installAll es = st.installAll es := by
  apply ext_tables
  · rw [sequence_installAll]
  · exact metadata_twice st es
  · exact @table_twice _ _ _ _ policies JournalEntry.policies (by intro st e; cases e <;> rfl) st es
  · exact @table_twice _ _ _ _ executions JournalEntry.executions
      (by intro st e; cases e <;> rfl) st es
  · exact @table_twice _ _ _ _ actions JournalEntry.actions (by intro st e; cases e <;> rfl) st es
  · exact @table_twice _ _ _ _ progress JournalEntry.progresses
      (by intro st e; cases e <;> rfl) st es
  · exact @table_twice _ _ _ _ checkpoints JournalEntry.checkpoints
      (by intro st e; cases e <;> rfl) st es
  · exact @table_twice _ _ _ _ continuations JournalEntry.continuations
      (by intro st e; cases e <;> rfl) st es
  · exact @table_twice _ _ _ _ leases JournalEntry.leases (by intro st e; cases e <;> rfl) st es
  · exact @table_twice _ _ _ _ replays JournalEntry.replays (by intro st e; cases e <;> rfl) st es
  · exact @table_twice _ _ _ _ ambiguities JournalEntry.ambiguities
      (by intro st e; cases e <;> rfl) st es
  · exact @table_twice _ _ _ _ commits JournalEntry.commits (by intro st e; cases e <;> rfl) st es
  · exact @table_twice _ _ _ _ recoveries JournalEntry.recoveries
      (by intro st e; cases e <;> rfl) st es

end DurableState

/-! ## Replay of payloads -/

/-- A journal record as `apply_record` is handed it: its kind and the bytes of its payload. -/
abbrev RawRecord := RecordKind × Bytes

/-- Applies records in order; the first one that does not apply stops the replay. -/
def applyAll (st : DurableState) (records : List RawRecord) : Option DurableState :=
  records.foldlM (fun st r => applyPayload st r.1 r.2) st

theorem applyAll_append (st : DurableState) (rs rs' : List RawRecord) :
    applyAll st (rs ++ rs') = (applyAll st rs).bind fun st => applyAll st rs' :=
  List.foldlM_append

/-- The state accepts the record: it is no metadata of a different store. -/
def DurableState.Admits (st : DurableState) (e : JournalEntry) : Prop :=
  ∀ r, e = .storeMeta r → st.store.valid = true → r.store = st.store

theorem applyRecord_eq_some_iff {st st' : DurableState} {e : JournalEntry} :
    applyRecord st e = some st' ↔ st.Admits e ∧ st' = st.install e := by
  unfold applyRecord
  cases e with
  | storeMeta r =>
    simp only [DurableState.Admits, JournalEntry.storeMeta.injEq, forall_eq']
    split
    next h => exact ⟨fun h' => (by cases h'), fun h' => absurd (h'.1 h.1) h.2⟩
    next h =>
      rw [Option.some.injEq, eq_comm, iff_and_self]
      intro _ hvalid
      by_contra hne
      exact h ⟨hvalid, hne⟩
  | _ =>
    constructor
    · intro h
      exact ⟨fun r hr => (by cases hr), (Option.some.inj h).symm⟩
    · rintro ⟨-, rfl⟩
      rfl

/-- A step of the replay decodes a record, accepts it and installs it. -/
theorem applyAll_cons_eq_some {st st' : DurableState} {r : RawRecord} {rs : List RawRecord} :
    applyAll st (r :: rs) = some st' ↔ ∃ e, JournalEntry.decode r.1 r.2 = some e ∧ st.Admits e ∧
      applyAll (st.install e) rs = some st' := by
  unfold applyAll
  rw [List.foldlM_cons, Option.bind_eq_bind, Option.bind_eq_some_iff]
  unfold applyPayload
  constructor
  · rintro ⟨st₁, hst₁, hrest⟩
    obtain ⟨e, hdecode, happly⟩ := Option.bind_eq_some_iff.mp hst₁
    obtain ⟨hadmits, rfl⟩ := applyRecord_eq_some_iff.mp happly
    exact ⟨e, hdecode, hadmits, hrest⟩
  · rintro ⟨e, hdecode, hadmits, hrest⟩
    refine ⟨st.install e, ?_, hrest⟩
    rw [hdecode]
    exact applyRecord_eq_some_iff.mpr ⟨hadmits, rfl⟩

/-- Every payload decodes to the entry beside it. -/
abbrev Decodes (rs : List RawRecord) (es : List JournalEntry) : Prop :=
  List.Forall₂ (fun r e => JournalEntry.decode r.1 r.2 = some e) rs es

/-- A replay that succeeds decoded every record and installed them all. -/
theorem applyAll_eq_some {st st' : DurableState} {rs : List RawRecord}
    (h : applyAll st rs = some st') : ∃ es, Decodes rs es ∧ st' = st.installAll es := by
  induction rs generalizing st with
  | nil => exact ⟨[], .nil, (Option.some.inj h).symm⟩
  | cons r rest ih =>
    obtain ⟨e, hdecode, -, hrest⟩ := applyAll_cons_eq_some.mp h
    obtain ⟨es, hes, rfl⟩ := ih hrest
    exact ⟨e :: es, .cons hdecode hes, rfl⟩

/-- The store metadata among the entries all names one store. -/
def OneStore (store : StoreId) (es : List JournalEntry) : Prop :=
  ∀ r, .storeMeta r ∈ es → r.store = store

/-- The state belongs to no store yet, or to this one. -/
def DurableState.Of (st : DurableState) (store : StoreId) : Prop :=
  st.store.valid = false ∨ st.store = store

theorem DurableState.Of.install {st : DurableState} {store : StoreId} (h : st.Of store)
    {e : JournalEntry} (hone : ∀ r, e = .storeMeta r → r.store = store) :
    (st.install e).Of store := by
  cases e with
  | storeMeta r => exact .inr (hone r rfl)
  | _ => exact h

theorem DurableState.Of.installAll {st : DurableState} {store : StoreId} (h : st.Of store)
    {es : List JournalEntry} (hone : OneStore store es) : (st.installAll es).Of store := by
  induction es generalizing st with
  | nil => exact h
  | cons e rest ih =>
    refine ih (h.install ?_) fun r hr => hone r (List.mem_cons_of_mem _ hr)
    rintro r rfl
    exact hone r List.mem_cons_self

/-- Records that decode, with the metadata of one store, all apply to a state of that store. -/
theorem applyAll_of_store {st : DurableState} {store : StoreId} (h : st.Of store)
    {rs : List RawRecord} {es : List JournalEntry} (hdecodes : Decodes rs es)
    (hone : OneStore store es) : applyAll st rs = some (st.installAll es) := by
  induction hdecodes generalizing st with
  | nil => rfl
  | @cons r e rs es hdecode _ ih =>
    have hhead : ∀ m, e = .storeMeta m → m.store = store := by
      rintro m rfl
      exact hone m List.mem_cons_self
    refine applyAll_cons_eq_some.mpr ⟨e, hdecode, ?_, ?_⟩
    · intro m hm hvalid
      rcases h with hnil | hstore
      · rw [hnil] at hvalid
        cases hvalid
      · rw [hstore, hhead m hm]
    · exact ih (h.install hhead) fun m hm => hone m (List.mem_cons_of_mem _ hm)

/-- Without store metadata nothing is refused. -/
theorem applyAll_of_no_metadata {st : DurableState} {rs : List RawRecord}
    {es : List JournalEntry} (hdecodes : Decodes rs es) (hnone : ∀ m, .storeMeta m ∉ es) :
    applyAll st rs = some (st.installAll es) :=
  applyAll_of_store (.inr rfl) hdecodes fun m hm => absurd hm (hnone m)

/-- A replay that met store metadata started in a state of that store. -/
theorem of_store_of_applyAll {st st' : DurableState} {store : StoreId} {rs : List RawRecord}
    {es : List JournalEntry} (happly : applyAll st rs = some st') (hdecodes : Decodes rs es)
    (hone : OneStore store es) {m : StoreMetaRecord} (hm : .storeMeta m ∈ es) : st.Of store := by
  induction hdecodes generalizing st with
  | nil => cases hm
  | @cons r e rs es hdecode _ ih =>
    obtain ⟨e', hdecode', hadmits, hrest⟩ := applyAll_cons_eq_some.mp happly
    obtain rfl : e = e' := Option.some.inj (hdecode.symm.trans hdecode')
    by_cases hhead : ∃ m', e = .storeMeta m'
    · obtain ⟨m', rfl⟩ := hhead
      by_cases hvalid : st.store.valid = true
      · exact .inr ((hadmits m' rfl hvalid).symm.trans (hone m' List.mem_cons_self))
      · exact .inl (by simpa using hvalid)
    · have htail : .storeMeta m ∈ es := by
        rcases List.mem_cons.mp hm with rfl | htail
        · exact absurd ⟨m, rfl⟩ hhead
        · exact htail
      have hof := ih hrest (fun m' hm' => hone m' (List.mem_cons_of_mem _ hm')) htail
      cases e with
      | storeMeta m' => exact absurd ⟨m', rfl⟩ hhead
      | _ => exact hof

/-- The payloads that decode to store metadata all name one store. -/
def MetadataOf (store : StoreId) (rs : List RawRecord) : Prop :=
  ∀ r ∈ rs, ∀ m, JournalEntry.decode r.1 r.2 = some (.storeMeta m) → m.store = store

theorem oneStore_of_decodes {store : StoreId} {rs : List RawRecord} {es : List JournalEntry}
    (hdecodes : Decodes rs es) (h : MetadataOf store rs) : OneStore store es := by
  induction hdecodes with
  | nil => exact fun m hm => by cases hm
  | @cons r e rs es hdecode _ ih =>
    intro m hm
    rcases List.mem_cons.mp hm with rfl | htail
    · exact h r List.mem_cons_self m hdecode
    · exact ih (fun r' hr' => h r' (List.mem_cons_of_mem _ hr')) m htail

/-- Records a successful replay applied apply again to what the replay reached, and change
nothing there. -/
theorem applyAll_again {st st' : DurableState} {store : StoreId} {rs : List RawRecord}
    (hstore : MetadataOf store rs) (happly : applyAll st rs = some st') :
    applyAll st' rs = some st' := by
  obtain ⟨es, hdecodes, rfl⟩ := applyAll_eq_some happly
  have hone := oneStore_of_decodes hdecodes hstore
  have hagain : applyAll (st.installAll es) rs = some ((st.installAll es).installAll es) := by
    by_cases hmeta : ∃ m, .storeMeta m ∈ es
    · obtain ⟨m, hm⟩ := hmeta
      have hof := of_store_of_applyAll happly hdecodes hone hm
      exact applyAll_of_store (hof.installAll hone) hdecodes hone
    · exact applyAll_of_no_metadata hdecodes fun m hm => hmeta ⟨m, hm⟩
  rw [hagain, DurableState.installAll_twice]

/-- Replaying an overlap is harmless: after `a ++ b`, the records `b ++ c` apply and reach the
state that `a ++ b ++ c` reaches in one pass; and a whole list applied twice is a list applied
once. -/
theorem overlapping_replay_idempotent (st final : DurableState) (store : StoreId)
    (a b c : List RawRecord) (hstore : MetadataOf store (a ++ b ++ c))
    (happly : applyAll st (a ++ b ++ c) = some final) :
    (∃ mid, applyAll st (a ++ b) = some mid ∧ applyAll mid (b ++ c) = some final) ∧
      applyAll final (a ++ b ++ c) = some final := by
  refine ⟨?_, applyAll_again hstore happly⟩
  rw [applyAll_append] at happly
  obtain ⟨mid, hmid, hfinal⟩ := Option.bind_eq_some_iff.mp happly
  refine ⟨mid, hmid, ?_⟩
  have hb : applyAll mid b = some mid := by
    rw [applyAll_append] at hmid
    obtain ⟨first, -, hsecond⟩ := Option.bind_eq_some_iff.mp hmid
    refine applyAll_again (fun r hr => hstore r ?_) hsecond
    exact List.mem_append_left _ (List.mem_append_right _ hr)
  rw [applyAll_append, hb]
  exact hfinal

/-- A record as the runtime appends it. -/
def JournalEntry.raw (e : JournalEntry) : RawRecord := (e.kind, e.encode)

/-- An action written alone, in a commit group and alone again. -/
def overlappedRecords : List JournalEntry × List JournalEntry × List JournalEntry :=
  ([.storeMeta { store := ⟨7⟩, epoch := 1 }],
    [.action { id := ⟨3⟩, generation := 1 },
      .commitGroup ⟨{ id := ⟨9⟩ }, { id := ⟨8⟩ },
        { id := ⟨3⟩, generation := 1, status := .committed }, { id := ⟨5⟩ }⟩],
    [.action { id := ⟨3⟩, generation := 2 }, .storeMeta { store := ⟨7⟩, epoch := 2 }])

theorem overlapping_replay_idempotent_group :
    let a := overlappedRecords.1.map JournalEntry.raw
    let b := overlappedRecords.2.1.map JournalEntry.raw
    let c := overlappedRecords.2.2.map JournalEntry.raw
    ∃ mid final, applyAll {} (a ++ b) = some mid ∧ applyAll mid (b ++ c) = some final ∧
      applyAll final (a ++ b ++ c) = some final := by
  intro a b c
  have hdecode : ∀ e ∈ overlappedRecords.1 ++ overlappedRecords.2.1 ++ overlappedRecords.2.2,
      JournalEntry.decode e.raw.1 e.raw.2 = some e := by
    have hall : (overlappedRecords.1 ++ overlappedRecords.2.1 ++ overlappedRecords.2.2).all
        (fun e => e.fits && decide (e.encode.length ≤ maxTotal)) = true := by decide +kernel
    intro e he
    have hfits := Bool.and_eq_true_iff.mp (List.all_eq_true.mp hall e he)
    exact JournalEntry.decode_encode hfits.1 (of_decide_eq_true hfits.2)
  have hlist : a ++ b ++ c = (overlappedRecords.1 ++ overlappedRecords.2.1 ++
      overlappedRecords.2.2).map JournalEntry.raw := by
    rw [List.map_append, List.map_append]
  have hdecodes : Decodes (a ++ b ++ c)
      (overlappedRecords.1 ++ overlappedRecords.2.1 ++ overlappedRecords.2.2) := by
    rw [hlist]
    exact List.forall₂_map_left_iff.mpr (List.forall₂_same.mpr hdecode)
  have hone : OneStore ⟨7⟩
      (overlappedRecords.1 ++ overlappedRecords.2.1 ++ overlappedRecords.2.2) := by
    intro r hr
    simp only [overlappedRecords, List.cons_append, List.nil_append, List.mem_cons,
      List.not_mem_nil, or_false, reduceCtorEq, false_or, JournalEntry.storeMeta.injEq] at hr
    rcases hr with rfl | rfl <;> rfl
  have hstore : MetadataOf ⟨7⟩ (a ++ b ++ c) := by
    intro r hr m hm
    rw [hlist] at hr
    obtain ⟨e, he, rfl⟩ := List.mem_map.mp hr
    rw [hdecode e he] at hm
    obtain rfl := Option.some.inj hm
    exact hone m he
  have happly := applyAll_of_store (.inl rfl : ({} : DurableState).Of ⟨7⟩) hdecodes hone
  obtain ⟨⟨mid, hmid, hfinal⟩, hagain⟩ :=
    overlapping_replay_idempotent {} _ ⟨7⟩ a b c hstore happly
  exact ⟨mid, _, hmid, hfinal, hagain⟩

end ExecutionFabric
