import ExecutionFabric.Model.Persistence
import ExecutionFabric.Audit.Runs

/-!
# Every journal prefix

What a load of the directory yields when the journal is cut after any record: the
progress chain of every execution is complete, and every reference of an execution
resolves to a record of the same execution.
-/
namespace ExecutionFabric

open Lib

/-- What a fresh process loads when the journal ends after the record numbered `kept`. -/
def loadCut (d : Directory) (kept : Nat) : Except Status LoadReport × DurableState :=
  loadDirectory (d.cut kept) {}

/-- A sound directory loads at every cut. -/
theorem Directory.loadCut_ok {d : Directory} (h : d.Sound) (hnamed : d.storeId ≠ .nil) (kept : Nat) :
    ∃ report st, loadCut d kept = (.ok report, st) ∧ st.image = (d.cut kept).image := by
  by_cases hkept : d.snapshotSequence ≤ kept
  · obtain ⟨report, st, hload, himage, -⟩ := load_ok (sound_cut h hkept) hnamed {} (.inl rfl)
      (fun _ => rfl)
    exact ⟨report, st, hload, himage⟩
  · -- The snapshot covers more than the cut keeps, so nothing is replayed.
    cases hs : d.snapshot with
    | none =>
      rw [show d.snapshotSequence = 0 by simp [Directory.snapshotSequence, hs]] at hkept
      exact absurd (Nat.zero_le kept) hkept
    | some st₀ =>
      obtain ⟨hstore, -⟩ := h.snapshot st₀ hs
      have hs' : (d.cut kept).snapshot = some st₀ := hs
      have hid : st₀.store ≠ .nil := hstore ▸ hnamed
      obtain ⟨loaded, st, hreplay, himage, -⟩ := replay_ok (d.cut kept).snapshotSequence d.storeId
        (d.cut kept).records st₀ 0 hstore
        (fun r hr m hm => (h.owned r (List.mem_of_mem_filter hr) m hm).1)
      refine ⟨{ snapshotPresent := (d.cut kept).snapshot.isSome, recordsLoaded := loaded }, st, ?_, ?_⟩
      · have hsame : (d.cut kept).storeId = st₀.store := hstore.symm
        unfold loadCut loadDirectory
        dsimp only
        rw [base_of_snapshot hs' hid, if_neg (by simp [hsame]), hreplay]
        rfl
      · rw [himage, image, base, base_of_snapshot hs' hid]
        rfl

theorem Directory.store_cut {d : Directory} (h : d.Sound) (hnamed : d.storeId ≠ .nil) (kept : Nat) :
    (d.cut kept).image.store = d.storeId := by
  obtain ⟨hstore, hschema⟩ := store_base h hnamed
  refine (Image.scalars_installAll (d.cut kept).newer d.base hstore hschema ?_).1
  intro r hr
  exact newer_meta h r ((newer_cut h kept).subset hr)

/-- A stored directory loads at every cut, and the image loaded is coherent. -/
theorem Stored.load_cut {D : Discipline} {ds : List Derivation} {d : Directory}
    (h : Stored D ds d) (kept : Nat) :
    ∃ report st, loadCut d kept = (.ok report, st) ∧ st.store = d.storeId ∧
      st.image.Coherent ds ∧ D.durable st.image := by
  by_cases hnamed : d.storeId = .nil
  · obtain ⟨hrecords, hsnapshot⟩ := h.named hnamed
    have hload : loadCut d kept = (.ok { snapshotPresent := false, recordsLoaded := 0 }, {}) := by
      unfold loadCut loadDirectory loadBase Directory.cut
      simp only [hrecords, hsnapshot, hnamed]
      rfl
    have hbase : d.base = DurableState.image {} := by
      unfold Directory.base loadBase
      simp only [hsnapshot, hnamed]
      rfl
    exact ⟨_, _, hload, hnamed.symm, hbase ▸ h.prefixes [] List.nil_prefix⟩
  · obtain ⟨report, st, hload, himage⟩ := Directory.loadCut_ok h.sound hnamed kept
    have hextends := h.prefixes _ (Directory.newer_cut h.sound kept)
    have hstore : st.image.store = d.storeId := by
      rw [himage]
      exact Directory.store_cut h.sound hnamed kept
    refine ⟨report, st, hload, hstore, ?_⟩
    rw [himage]
    exact hextends

/-- Loading any prefix of the journal of a collision-free run gives a coherent state. -/
theorem load_cut_coherent {allow : Runtime → Event → Prop} {events : List Event} {s : Runtime}
    (hrun : Runs allow {} events s) (hfree : CollisionFree s.minted) {d : Directory}
    (hd : s.store.directory = some d) (kept : Nat) :
    ∃ report st, loadCut d kept = (.ok report, st) ∧ st.store = d.storeId ∧
      st.image.Coherent s.minted := by
  have hkept := kept_of_runs hrun hfree
  rcases hkept.directory (ordinary_upheld _) with hnone | ⟨d', hd', hstored⟩
  · rw [hnone] at hd
    cases hd
  · rw [hd] at hd'
    cases hd'
    obtain ⟨report, st, hload, hstore, hcoherent, -⟩ := hstored.load_cut kept
    exact ⟨report, st, hload, hstore, hcoherent⟩

/-! ## References -/

/-- Every non-nil id the execution holds names a stored record, of the same execution where the
record has an execution. -/
structure ReferencesResolve (st : DurableState) (x : ExecutionRecord) : Prop where
  policy : x.policy ≠ .nil → ∃ p, st.policies.find x.policy = some p
  lease : x.lease ≠ .nil → ∃ l, st.leases.find x.lease = some l ∧ l.execution = x.id
  continuation : x.continuation ≠ .nil →
    ∃ c, st.continuations.find x.continuation = some c ∧ c.execution = x.id
  checkpoint : x.checkpoint ≠ .nil →
    ∃ c, st.checkpoints.find x.checkpoint = some c ∧ c.execution = x.id
  recovery : x.recovery ≠ .nil → ∃ r, st.recoveries.find x.recovery = some r ∧ r.execution = x.id
  ambiguity : x.ambiguity ≠ .nil →
    ∃ amb, st.ambiguities.find x.ambiguity = some amb ∧ amb.execution = x.id
  progress : x.progress ≠ .nil → ∃ p, st.progress.find x.progress = some p ∧ p.execution = x.id
  lastCommit : x.lastCommit ≠ .nil →
    ∃ c, st.commits.find x.lastCommit = some c ∧ c.execution = x.id

theorem Image.Coherent.references {ds : List Derivation} {st : DurableState}
    (h : st.image.Coherent ds) {k : ExecutionId} {x : ExecutionRecord}
    (hx : st.executions.find k = some x) : ReferencesResolve st x where
  policy := fun _ => h.policed k x hx
  lease := h.leased k x hx
  continuation := h.continued k x hx
  checkpoint := h.checkpointed k x hx
  recovery := h.recovered k x hx
  ambiguity := h.ambiguous k x hx
  progress := by
    intro hvalid
    rcases h.chained.newest k x hx with ⟨-, hnil, -⟩ | ⟨-, p, hp, howner, -⟩
    · exact absurd hnil hvalid
    · exact ⟨p, hp, howner⟩
  lastCommit := by
    intro hvalid
    rcases h.chained.newest k x hx with ⟨-, -, hnil⟩ | ⟨-, p, hp, howner, -, hlast⟩
    · exact absurd hnil hvalid
    · obtain ⟨-, -, -, c, hc, hseals⟩ := h.chained.promoted _ p hp
      refine ⟨c, ?_, hseals.execution.symm.trans howner⟩
      rw [hlast]
      exact hc

/-- A replay over payloads that is accepted is a replay over the records. -/
theorem replayPayloads_ok {n loaded : Nat} (rs : List Sequenced) (st : DurableState) (k : Nat)
    (h : (replayPayloads n st k rs).1 = .ok loaded) :
    replayPayloads n st k rs = replay n st k rs := by
  induction rs generalizing st k with
  | nil => rfl
  | cons r rest ih =>
    unfold replayPayloads at h ⊢
    unfold replay
    by_cases hnew : r.sequence > n
    · rw [if_pos hnew] at h
      rw [if_pos hnew, if_pos hnew]
      unfold applyReadBack at h ⊢
      by_cases hreads : JournalEntry.decode r.entry.kind r.entry.encode = some r.entry
      · rw [if_pos hreads] at h ⊢
        cases happly : applyRecord st r.entry with
        | none => rfl
        | some st' =>
          rw [happly] at h
          exact ih _ _ h
      · rw [if_neg hreads] at h
        cases h
    · rw [if_neg hnew] at h
      rw [if_neg hnew, if_neg hnew]
      exact ih _ _ h

/-- What loads from its payloads loads from its records, to the same state. -/
theorem loadPayloads_ok {d : Directory} {out st : DurableState} {report : LoadReport}
    (h : loadPayloads d out = (.ok report, st)) : loadDirectory d out = (.ok report, st) := by
  rw [← h]
  have hok : (loadPayloads d out).1 = .ok report := congrArg Prod.fst h
  unfold loadPayloads at hok ⊢
  unfold loadDirectory
  split at hok
  · cases hok
  next hreads =>
    rw [if_neg hreads]
    dsimp only at hok ⊢
    split at hok
    · cases hok
    next hsame =>
      rw [if_neg hsame, if_neg hsame]
      cases hreplay : (replayPayloads d.snapshotSequence (loadBase d out) 0 d.records).1 with
      | error e =>
        rw [hreplay] at hok
        cases hok
      | ok loaded =>
        have hsteps := replayPayloads_ok _ _ _ hreplay
        rw [← hsteps, hreplay]

/-- The committed progress of an execution is complete, and its commits and progress records
match one to one. -/
structure ProgressChain (st : DurableState) (x : ExecutionRecord) : Prop where
  generations : ∀ g, (∃ k p, st.progress.find k = some p ∧ p.execution = x.id ∧
    p.committed = true ∧ p.generation = g) ↔ 1 ≤ g ∧ g ≤ x.progressGeneration
  distinct : ∀ k k' p q, st.progress.find k = some p → st.progress.find k' = some q →
    p.execution = x.id → q.execution = x.id → p.generation = q.generation → p = q
  counted : x.committedActions = committedCount st x.id
  newest : (x.progressGeneration = 0 ∧ x.progress = .nil ∧ x.lastCommit = .nil) ∨
    ∃ p c, st.progress.find x.progress = some p ∧ p.execution = x.id ∧ p.committed = true ∧
      p.generation = x.progressGeneration ∧ st.commits.find x.lastCommit = some c ∧ Seals c p
  sealed : ∀ k c, st.commits.find k = some c → c.execution = x.id →
    ∃ p, st.progress.find c.progress = some p ∧ p.committed = true ∧ Seals c p
  promoted : ∀ k p, st.progress.find k = some p → p.committed = true → p.execution = x.id →
    ∃ c, st.commits.find p.commit = some c ∧ Seals c p
  acted : ∀ k c, st.commits.find k = some c → c.execution = x.id →
    ∃ a, st.actions.find c.actionKey = some a ∧ a.execution = c.execution

/-- Progress records of one execution and generation are the same record. -/
theorem Image.Known.progress_unique {ds : List Derivation} {m : Image} (h : m.Known ds)
    {k k' : ProgressId} {p q : ProgressRecord} (hp : m.progress k = some p)
    (hq : m.progress k' = some q) (hexecution : p.execution = q.execution)
    (hgeneration : p.generation = q.generation) : p = q := by
  have hnamed := h.progress k p hp
  rw [hexecution, hgeneration] at hnamed
  have hid : q.id = p.id := (h.progress k' q hq).same hnamed
  have hkp : p.id = k := m.progress.keyed k p hp
  have hkq : q.id = k' := m.progress.keyed k' q hq
  rw [← hkp, ← hid, hkq, hq] at hp
  exact (Option.some.inj hp).symm

/-- Records with the distinct numbers 1 to `n` are `n` in number. -/
theorem length_of_numbered {α : Type} {f : α → Nat} {rs : List α} {n : Nat}
    (hnodup : (rs.map f).Nodup)
    (hrange : ∀ g, (∃ r ∈ rs, f r = g) ↔ 1 ≤ g ∧ g ≤ n) : rs.length = n := by
  have hperm : (rs.map f).Perm (List.range' 1 n) := by
    rw [List.perm_ext_iff_of_nodup hnodup List.nodup_range']
    intro g
    rw [List.mem_map, hrange g, List.mem_range'_1]
    omega
  have hlength := hperm.length_eq
  rw [List.length_map, List.length_range'] at hlength
  exact hlength

theorem Image.Coherent.generations {ds : List Derivation} {st : DurableState}
    (h : st.image.Coherent ds) {k : ExecutionId} {x : ExecutionRecord}
    (hx : st.executions.find k = some x) (g : Nat) :
    (∃ k p, st.progress.find k = some p ∧ p.execution = x.id ∧ p.committed = true ∧
      p.generation = g) ↔ 1 ≤ g ∧ g ≤ x.progressGeneration := by
  constructor
  · rintro ⟨k', p, hp, howner, -, rfl⟩
    obtain ⟨-, hone, ⟨y, hy, hle⟩, -⟩ := h.chained.promoted k' p hp
    have hkey : x.id = k := Table.find_key hx
    rw [howner, hkey] at hy
    rw [show st.image.executions k = some x from hx] at hy
    cases hy
    exact ⟨hone, hle⟩
  · rintro ⟨hone, hle⟩
    obtain ⟨p, hp, howner, hg⟩ := h.chained.reached k x g hx hone hle
    exact ⟨_, p, hp, howner, (h.chained.promoted _ p hp).1, hg⟩

theorem Image.Coherent.counted {ds : List Derivation} {st : DurableState}
    (h : st.image.Coherent ds) {k : ExecutionId} {x : ExecutionRecord}
    (hx : st.executions.find k = some x) : x.committedActions = committedCount st x.id := by
  rw [h.chained.counted k x hx]
  symm
  have hmem : ∀ p, p ∈ st.progress.records.filter (fun p => p.execution = x.id ∧ p.committed) ↔
      st.progress.find p.id = some p ∧ p.execution = x.id ∧ p.committed = true := by
    intro p
    rw [List.mem_filter, Table.find_eq_some_iff]
    simp
  refine length_of_numbered (f := ProgressRecord.generation) ?_ ?_
  · have hnodup : st.progress.records.Nodup := st.progress.nodup.of_map
    refine List.Nodup.map_on ?_ (hnodup.filter _)
    intro p hp q hq hgeneration
    obtain ⟨hfindp, hownerp, -⟩ := (hmem p).mp hp
    obtain ⟨hfindq, hownerq, -⟩ := (hmem q).mp hq
    exact h.known.progress_unique hfindp hfindq (hownerp.trans hownerq.symm) hgeneration
  · intro g
    rw [← h.generations hx g]
    constructor
    · rintro ⟨p, hp, rfl⟩
      obtain ⟨hfind, howner, hcommitted⟩ := (hmem p).mp hp
      exact ⟨p.id, p, hfind, howner, hcommitted, rfl⟩
    · rintro ⟨k', p, hp, howner, hcommitted, rfl⟩
      have hkey : p.id = k' := Table.find_key hp
      exact ⟨p, (hmem p).mpr ⟨hkey ▸ hp, howner, hcommitted⟩, rfl⟩

theorem Image.Coherent.progressChain {ds : List Derivation} {st : DurableState}
    (h : st.image.Coherent ds) {k : ExecutionId} {x : ExecutionRecord}
    (hx : st.executions.find k = some x) : ProgressChain st x where
  generations := h.generations hx
  distinct := by
    intro k k' p q hp hq hownerp hownerq hgeneration
    exact h.known.progress_unique hp hq (hownerp.trans hownerq.symm) hgeneration
  counted := h.counted hx
  newest := by
    rcases h.chained.newest k x hx with hnone | ⟨-, p, hp, howner, hgeneration, hlast⟩
    · exact .inl hnone
    · obtain ⟨hcommitted, -, -, c, hc, hseals⟩ := h.chained.promoted _ p hp
      rw [← hlast] at hc
      exact .inr ⟨p, c, hp, howner, hcommitted, hgeneration, hc, hseals⟩
  sealed := by
    intro k' c hc _
    obtain ⟨p, -, hp, hseals, -⟩ := h.chained.committed k' c hc
    exact ⟨p, hp, (h.chained.promoted _ p hp).1, hseals⟩
  promoted := by
    intro k' p hp _ _
    exact (h.chained.promoted k' p hp).2.2.2
  acted := by
    intro k' c hc _
    obtain ⟨-, a, -, -, ha, howner, -⟩ := h.chained.committed k' c hc
    exact ⟨a, ha, howner⟩

end ExecutionFabric
