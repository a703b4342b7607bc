import ExecutionFabric.Audit.Compaction
import ExecutionFabric.Audit.InsertionOrder
import ExecutionFabric.Audit.Prefixes
import ExecutionFabric.Audit.RefusedAppends

/-!
# The files of a store

The runtime keeps its store as decoded records; here are the files such a store stands for. Every
operation on the files is the operation on the records, and an open over the files ends as the open
over the records does, whether the load goes through or is refused.
-/
namespace ExecutionFabric

open Lib JournalRecord Program

/-- The record as the journal holds it. -/
def Sequenced.written (r : Sequenced) : JournalRecord := ⟨r.entry.kind, r.sequence, r.entry.encode⟩

/-- The journal of a directory. -/
def Directory.journal (d : Directory) : Bytes :=
  journalFile d.storeId d.firstSequence (d.records.map Sequenced.written)

/-- The files of a directory. -/
def Directory.files (d : Directory) : Files where
  journal := some d.journal
  snapshot := d.snapshot.map buildSnapshotImage

/-- The payload of the record reads as the record, or not at all. A counter that outgrew its 64 bits
would read as another value. -/
def JournalEntry.Legible (e : JournalEntry) : Prop :=
  JournalEntry.decode e.kind e.encode = some e ∨ JournalEntry.decode e.kind e.encode = none

/-- What the record codecs can carry reads back as it was written. -/
theorem JournalEntry.legible_of_fits {e : JournalEntry} (hfits : e.fits = true)
    (hroom : e.encode.length ≤ maxTotal) : e.Legible :=
  .inl (JournalEntry.decode_encode hfits hroom)

/-- The directory fits the limits it is opened with. -/
structure Directory.Fits (limits : StoreLimits) (d : Directory) : Prop where
  first : 1 ≤ d.firstSequence ∧ d.firstSequence < 2 ^ 64
  within : ∀ r ∈ d.records, r.written.Within limits
  legible : ∀ r ∈ d.records, r.entry.Legible
  journal : d.journal.length ≤ limits.maxJournalLoadBytes
  snapshot : ∀ st, d.snapshot = some st → st.Storable limits ∧ st.canonical = st

example : Directory.Fits {} { storeId := ⟨7⟩, records := [⟨3, .storeMeta { epoch := 2 }⟩] } where
  first := by decide
  within := List.forall_mem_singleton.mpr ⟨by decide, by decide, by decide⟩
  legible := List.forall_mem_singleton.mpr (JournalEntry.legible_of_fits (by decide) (by decide))
  journal := by decide +kernel
  snapshot := fun _ h => by cases h

/-! ## Loading -/

/-- The load of some files ends as the load of some records. -/
structure LoadOutcome.Matches (loaded : LoadOutcome)
    (r : Except Status LoadReport × DurableState) : Prop where
  state : loaded.state = r.2
  accepted : ∀ report, r.1 = .ok report → loaded.status = none ∧
    loaded.report.snapshotPresent = report.snapshotPresent ∧
    loaded.report.recordsLoaded = report.recordsLoaded
  refused : ∀ e, r.1 = .error e → loaded.status = some e

section Loads

variable {limits : StoreLimits} {n : Nat}

/-- A payload is applied as its record is. -/
theorem applyPayload_legible (st : DurableState) {e : JournalEntry} (h : e.Legible) :
    applyPayload st e.kind e.encode = applyReadBack st e := by
  unfold applyPayload applyReadBack
  rcases h with hreads | hnone
  · rw [hreads, if_pos rfl, Option.bind_some]
  · rw [hnone, if_neg (fun h => by cases h), Option.bind_none]

/-- The scan of the images is the replay of the records. -/
theorem foldl_take_replay (rs : List Sequenced) (hrs : ∀ r ∈ rs, r.entry.Legible) (a : Bytes)
    (s : Scan) (hs : s.refused = none) (hoffset : s.offset = a.length) :
    let s' := (boundaries (rs.map Sequenced.written) a.length).foldl
      (Scan.take (a ++ images (rs.map Sequenced.written)) n) s
    let replayed := replayPayloads n s.state s.report.recordsLoaded rs
    s'.state = replayed.2 ∧ s'.report.snapshotPresent = s.report.snapshotPresent ∧
      (∀ loaded, replayed.1 = .ok loaded → s'.refused = none ∧
        s'.offset = (a ++ images (rs.map Sequenced.written)).length ∧
        s'.report.recordsLoaded = loaded) ∧
      ∀ e, replayed.1 = .error e → s'.refused = some e := by
  induction rs generalizing a s with
  | nil =>
    refine ⟨rfl, rfl, fun loaded hloaded => ⟨hs, ?_, Except.ok.inj hloaded⟩,
      fun e he => by cases he⟩
    simp [boundaries, images, hoffset]
  | cons r rest ih =>
    have hcat : a ++ images ((r :: rest).map Sequenced.written) =
        (a ++ r.written.image) ++ images (rest.map Sequenced.written) := by
      simp only [images, List.map_cons, List.flatMap_cons, List.append_assoc]
    have hlength : (a ++ r.written.image).length = a.length + r.written.image.length :=
      List.length_append
    have htotal : (r.written.boundary a.length).totalSize = r.written.image.length :=
      (length_image r.written).symm
    have hnot : ¬ s.refused.isSome = true := by
      rw [hs]
      simp
    have hslice := slice_boundary a (images (rest.map Sequenced.written)) r.written
    rw [← List.append_assoc] at hslice
    have happly : applyPayload s.state (r.written.boundary a.length).kind r.written.payload =
        applyReadBack s.state r.entry :=
      applyPayload_legible s.state (hrs r List.mem_cons_self)
    have hrest := fun x hx => hrs x (List.mem_cons_of_mem _ hx)
    rw [hcat, List.map_cons, boundaries, List.foldl_cons, Scan.take, if_neg hnot, hslice, happly,
      replayPayloads, ← hlength]
    by_cases hnew : r.sequence > n
    · rw [if_pos (show (r.written.boundary a.length).sequence > n from hnew), if_pos hnew]
      cases hstep : applyReadBack s.state r.entry with
      | none =>
        dsimp only
        rw [Scan.foldl_take_of_refused _ _ rfl]
        refine ⟨rfl, rfl, (fun loaded hloaded => by cases hloaded), fun e he => ?_⟩
        rw [← Except.error.inj he]
      | some st =>
        exact ih hrest (a ++ r.written.image) _ hs (by rw [hlength, hoffset, htotal])
    · rw [if_neg (show ¬ (r.written.boundary a.length).sequence > n from hnew), if_neg hnew]
      exact ih hrest (a ++ r.written.image) _ hs (by rw [hlength, hoffset, htotal])

/-- The state a journal of the directory is replayed on. -/
def Directory.startedOn (d : Directory) (st : DurableState) : DurableState :=
  if st.store = .nil ∧ d.storeId ≠ .nil then { st with store := d.storeId } else st

/-- What the load of a directory does once it has the state of the snapshot or of memory. -/
def Directory.resumeLoad (d : Directory) (usable : Bool) (n : Nat) (st : DurableState) :
    Except Status LoadReport × DurableState :=
  if usable ∧ d.storeId ≠ .nil ∧ d.storeId ≠ (d.startedOn st).store then
    (.error (err .corruptState "journal store id does not match the snapshot"), d.startedOn st)
  else
    let replayed := replayPayloads n (d.startedOn st) 0 d.records
    (replayed.1.map fun loaded => { snapshotPresent := usable, recordsLoaded := loaded }, replayed.2)

theorem loadJournal_matches {d : Directory} (h : d.Fits limits) (usable : Bool) (st : DurableState)
    {report : FileReport} (hnone : report.recordsLoaded = 0)
    (hpresent : report.snapshotPresent = usable) :
    (loadJournal limits d.journal usable n st report).Matches (d.resumeLoad usable n st) := by
  have hheader := length_journalHeader d.storeId d.firstSequence
  have hsound : journalHeaderDefect d.journal "" = none :=
    journalHeaderDefect_journalHeader d.storeId d.firstSequence _ ""
  have hstore : journalStore d.journal = d.storeId :=
    journalStore_journalHeader d.storeId d.firstSequence _
  by_cases hforeign : usable = true ∧ d.storeId ≠ .nil ∧ d.storeId ≠ (d.startedOn st).store
  · obtain ⟨husable, hnamed, hdiffers⟩ := hforeign
    -- a nameless state would have taken the name of the journal
    have hst : st.store ≠ .nil := by
      intro hnil
      unfold Directory.startedOn at hdiffers
      rw [if_pos ⟨hnil, hnamed⟩] at hdiffers
      exact hdiffers rfl
    have hsame : d.startedOn st = st := if_neg fun h => hst h.1
    unfold loadJournal Directory.resumeLoad
    rw [hsound, hstore]
    dsimp only
    rw [hsame] at hdiffers ⊢
    rw [if_pos ⟨husable, (Id.valid_iff _).mpr hnamed, (Id.valid_iff _).mpr hst, hdiffers⟩,
      if_pos ⟨husable, hnamed, hdiffers⟩]
    refine ⟨rfl, (fun report hreport => by cases hreport), fun e he => ?_⟩
    rw [← Except.error.inj he]
  have hknown : ¬ (usable = true ∧ (journalStore d.journal).valid = true ∧ st.store.valid = true ∧
      journalStore d.journal ≠ st.store) := by
    rw [hstore]
    rintro ⟨husable, hnamed, hst, hdiffers⟩
    have hsame : d.startedOn st = st := if_neg fun h => (Id.valid_iff _).mp hst h.1
    exact hforeign ⟨husable, (Id.valid_iff _).mp hnamed, by rw [hsame]; exact hdiffers⟩
  have hwithin : ∀ r ∈ d.records.map Sequenced.written, r.Within limits := by
    intro r hr
    obtain ⟨x, hx, rfl⟩ := List.mem_map.mp hr
    exact h.within x hx
  let start : Scan := { offset := 40, state := d.startedOn st, report := report }
  let s := scanJournal limits d.journal n d.journal.length start
  have houtcome : loadJournal limits d.journal usable n st report =
      s.refused.elim (classifyTail limits d.journal s) fun refused =>
        ⟨some refused, s.state, s.report⟩ := by
    rw [loadJournal_eq hsound hknown, hstore]
    rfl
  have hscan : s = Scan.stop d.journal
      ((boundaries (d.records.map Sequenced.written) 40).foldl (Scan.take d.journal n) start) :=
    scanJournal_journalFile d.storeId d.firstSequence hwithin n rfl rfl
  obtain ⟨hstate, hsnapshot, hloaded, hrefused⟩ := foldl_take_replay (n := n) d.records h.legible
    (journalHeader d.storeId d.firstSequence) start rfl hheader.symm
  rw [hheader, show journalHeader d.storeId d.firstSequence ++
    images (d.records.map Sequenced.written) = d.journal from rfl]
    at hstate hsnapshot hloaded hrefused
  rw [show start.report.recordsLoaded = 0 from hnone,
    show start.state = d.startedOn st from rfl] at hstate hloaded hrefused
  rw [houtcome, hscan, Directory.resumeLoad, if_neg hforeign]
  dsimp only
  generalize (boundaries (d.records.map Sequenced.written) 40).foldl (Scan.take d.journal n) start =
    s' at hstate hsnapshot hloaded hrefused
  generalize replayPayloads n (d.startedOn st) 0 d.records = replayed at hstate hloaded hrefused
  obtain ⟨result, reached⟩ := replayed
  cases result with
  | error e =>
    have hs' := hrefused e rfl
    rw [Scan.stop_of_refused _ (by rw [hs']; rfl), hs']
    refine ⟨hstate, (fun report hreport => by cases hreport), fun e' he' => ?_⟩
    rw [← Except.error.inj he']
    rfl
  | ok loaded =>
    obtain ⟨hs', hend, hcount⟩ := hloaded loaded rfl
    have hstop : s'.stop d.journal = s' := by
      unfold Scan.stop
      rw [hs', if_neg (by simp), hend, if_neg (Nat.lt_irrefl _)]
    rw [hstop, hs', Option.elim_none, classifyTail, hend, if_neg (Nat.lt_irrefl _)]
    refine ⟨hstate, fun report hreport => ?_, fun e he => by cases he⟩
    obtain rfl := Except.ok.inj hreport
    exact ⟨rfl, hsnapshot.trans hpresent, hcount⟩

/-- **The load of the files is the load of the records.** -/
theorem loadFiles_matches {d : Directory} (h : d.Fits limits) (out : DurableState) :
    (loadFiles limits d.files out).Matches (loadPayloads d out) := by
  have hread : readFile limits.maxJournalLoadBytes d.journal = .ok d.journal :=
    if_neg (Nat.not_lt.mpr h.journal)
  unfold loadFiles loadPayloads Directory.files
  cases hsnapshot : d.snapshot with
  | none =>
    have hreads : d.snapshotReads = true := by
      unfold Directory.snapshotReads
      rw [hsnapshot]
      rfl
    have hbase : loadBase d out = d.startedOn out.clear := by
      unfold loadBase Directory.startedOn
      rw [hsnapshot]
    have hnumber : d.snapshotSequence = 0 := by
      unfold Directory.snapshotSequence
      rw [hsnapshot]
    dsimp only [Option.map_none]
    unfold loadAfterSnapshot
    dsimp only
    rw [hread, if_neg (by rw [hreads]; simp), hbase, hnumber]
    exact loadJournal_matches h false out.clear rfl rfl
  | some st =>
    obtain ⟨hstorable, hcanonical⟩ := h.snapshot st hsnapshot
    have hreads : d.snapshotReads = true := by
      unfold Directory.snapshotReads
      rw [hsnapshot]
      simp [hstorable.fits, hstorable.readable]
    have hbase : loadBase d out = d.startedOn st := by
      unfold loadBase Directory.startedOn
      rw [hsnapshot]
    have hnumber : d.snapshotSequence = st.sequence := by
      unfold Directory.snapshotSequence
      rw [hsnapshot]
    have himage : readFile limits.maxSnapshotPayload (buildSnapshotImage st) =
        .ok (buildSnapshotImage st) := if_neg (Nat.not_lt.mpr hstorable.image)
    dsimp only [Option.map_some]
    rw [himage]
    dsimp only
    rw [readSnapshot_image hstorable, hcanonical]
    unfold loadAfterSnapshot
    dsimp only
    rw [hread, if_neg (by rw [hreads]; simp), hbase, hnumber]
    exact loadJournal_matches h true st rfl rfl

end Loads

/-! ## The operations of the store -/

/-- The store is kept in the files of `b`. -/
structure KeptIn (b : ByteStore) (s : FileDurableStore) : Prop where
  files : b.files = s.directory.map Directory.files
  isOpen : b.isOpen = s.isOpen
  storeId : b.storeId = s.storeId
  lastSequence : b.lastSequence = s.lastSequence

/-- The directory an open reads: the one there is, or a fresh one. -/
def FileDurableStore.found (s : FileDurableStore) (entropy : UInt64) : Directory :=
  s.directory.getD { storeId := ⟨entropy⟩ }

section Operations

variable {limits : StoreLimits} {s : FileDurableStore} {b : ByteStore}

/-- The open of a journal of records appends after the last of them. -/
theorem readJournal_directory {d : Directory} (h : d.Fits limits) (hb : b.limits = limits) :
    b.readJournal d.journal = if d.storeId = .nil then
      (.error (err .corruptState "journal header carries a nil store id"),
        { b with storeId := d.storeId })
    else
      (.ok (), { b with
        isOpen := true
        storeId := d.storeId
        journalFirstSequence := d.firstSequence
        lastSequence := d.lastSequence }) := by
  have hwithin : ∀ r ∈ d.records.map Sequenced.written, r.Within limits := by
    intro r hr
    obtain ⟨x, hx, rfl⟩ := List.mem_map.mp hr
    exact h.within x hx
  have hheader : journalHeaderDefect d.journal ": " = none :=
    journalHeaderDefect_journalHeader d.storeId d.firstSequence _ ": "
  have hstore : journalStore d.journal = d.storeId :=
    journalStore_journalHeader d.storeId d.firstSequence _
  have hfirst : readLe d.journal 24 8 = d.firstSequence :=
    readLe_journalHeader_first d.storeId d.firstSequence _ h.first.2
  have hprevious : (d.firstSequence + (2 ^ 64 - 1)) % 2 ^ 64 = d.firstSequence - 1 := by
    have hpos := h.first.1
    have hbound := h.first.2
    omega
  have hlast : ByteStore.scanLast limits d.journal d.journal.length journalHeaderSize
      (d.firstSequence - 1) = d.lastSequence := by
    have hvisit := visit_journalFile d.storeId d.firstSequence hwithin
    rw [scanLast_eq, show journalHeaderSize = 40 from rfl]
    unfold Directory.journal
    rw [hvisit]
    dsimp only
    rw [foldl_sequence_boundaries, List.getLast?_map]
    unfold Directory.lastSequence
    cases d.records.getLast? <;> rfl
  unfold ByteStore.readJournal readFile
  rw [hb, if_neg (Nat.not_lt.mpr h.journal)]
  dsimp only
  rw [hheader, hstore, hfirst, hprevious, hlast]

/-- **Opening the files is opening the store.** -/
theorem KeptIn.openStore (h : KeptIn b s) (create : Bool) {entropy : UInt64}
    (hfits : (s.found entropy).Fits limits) :
    (b.openStore create limits entropy).1 = (s.openStore create entropy).1 ∧
      KeptIn (b.openStore create limits entropy).2 (s.openStore create entropy).2 := by
  unfold FileDurableStore.found at hfits
  unfold ByteStore.openStore FileDurableStore.openStore
  rw [h.isOpen]
  cases hopen : s.isOpen with
  | true =>
    rw [if_pos rfl, if_pos rfl]
    exact ⟨rfl, h⟩
  | false =>
    rw [if_neg (by simp), if_neg (by simp), h.files]
    cases hdirectory : s.directory with
    | none =>
      rw [hdirectory, Option.getD_none] at hfits
      cases create with
      | false =>
        refine ⟨rfl, ⟨?_, hopen.symm, h.storeId, h.lastSequence⟩⟩
        show none = Option.map Directory.files s.directory
        rw [hdirectory]
        rfl
      | true =>
        have hjournal : journalHeader ⟨entropy⟩ 1 =
            ({ storeId := ⟨entropy⟩ } : Directory).journal := (List.append_nil _).symm
        dsimp only [Option.map_none, Option.getD_none]
        rw [hjournal, readJournal_directory hfits rfl]
        split
        · exact ⟨rfl, ⟨rfl, rfl, rfl, h.lastSequence⟩⟩
        · exact ⟨rfl, ⟨rfl, rfl, rfl, rfl⟩⟩
    | some d =>
      rw [hdirectory, Option.getD_some] at hfits
      cases create <;> dsimp only [Option.map_some, Option.getD_some, Directory.files] <;>
        rw [readJournal_directory hfits rfl] <;> split <;>
        first
        | exact ⟨rfl, ⟨rfl, rfl, rfl, h.lastSequence⟩⟩
        | exact ⟨rfl, ⟨rfl, rfl, rfl, rfl⟩⟩

/-- A record within the limit is appended to the journal file as it is to the journal; the others
are those `payloadLimit` refuses. -/
theorem KeptIn.append (h : KeptIn b s) (hopen : s.isOpen = true) {e : JournalEntry}
    (hlimit : e.encode.length ≤ b.limits.maxJournalPayload) (hnumber : s.lastSequence + 1 < 2 ^ 64) :
    (b.append e.kind e.encode).1 = .ok (s.lastSequence + 1) ∧
      KeptIn (b.append e.kind e.encode).2 (s.append e) := by
  have hnext : nextSequence b.lastSequence = s.lastSequence + 1 := by
    unfold nextSequence
    rw [h.lastSequence, Nat.mod_eq_of_lt hnumber]
  unfold ByteStore.append FileDurableStore.append
  rw [h.isOpen, hopen, if_neg (by simp), if_neg (Nat.not_lt.mpr hlimit), hnext]
  refine ⟨rfl, ⟨?_, rfl, h.storeId, rfl⟩⟩
  dsimp only
  rw [h.files, Option.map_map, Option.map_map]
  refine congrArg (s.directory.map ·) (funext fun d => ?_)
  show ({ d.files with journal := some (d.journal ++ _) } : Files) = Directory.files _
  unfold Directory.files Directory.journal journalFile
  dsimp only
  rw [List.map_append, images_append, List.append_assoc]
  simp only [images, List.map_cons, List.map_nil, List.flatMap_cons, List.flatMap_nil,
    List.append_nil]
  rfl

theorem buildSnapshotImage_canonical (st : DurableState) :
    buildSnapshotImage st.canonical = buildSnapshotImage st := by
  have hencode : st.canonical.encode = st.encode :=
    DurableState.encode_congr (DurableState.image_canonical st) rfl
  unfold buildSnapshotImage snapshotHeader snapshotFields
  rw [hencode]
  rfl

theorem KeptIn.writeSnapshot (h : KeptIn b s) (hopen : s.isOpen = true) {st : DurableState}
    (himage : (buildSnapshotImage st).length ≤ b.limits.maxSnapshotPayload)
    (hnumber : st.sequence + 1 < 2 ^ 64) (truncateJournal : Bool) :
    (b.writeSnapshot st truncateJournal).1 = .ok () ∧
      KeptIn (b.writeSnapshot st truncateJournal).2 (s.writeSnapshot st truncateJournal) := by
  have hnext : nextSequence st.sequence = st.sequence + 1 := Nat.mod_eq_of_lt hnumber
  have hheader : journalHeader st.store (st.sequence + 1) =
      journalFile st.store (st.sequence + 1) [] := (List.append_nil _).symm
  unfold ByteStore.writeSnapshot FileDurableStore.writeSnapshot
  rw [h.isOpen, hopen, if_neg (by simp), if_neg (Nat.not_lt.mpr himage)]
  cases truncateJournal with
  | false =>
    refine ⟨rfl, ⟨?_, rfl, h.storeId, h.lastSequence⟩⟩
    dsimp only
    rw [h.files]
    cases s.directory with
    | none => rfl
    | some d =>
      show some (Files.mk _ (some ([] ++ buildSnapshotImage st)) none) = _
      rw [← buildSnapshotImage_canonical]
      rfl
  | true =>
    refine ⟨rfl, ⟨?_, rfl, h.storeId, rfl⟩⟩
    dsimp only
    rw [h.files]
    cases s.directory with
    | none => rfl
    | some d =>
      show some (Files.mk (some ([] ++ journalHeader st.store (nextSequence st.sequence)))
        (some ([] ++ buildSnapshotImage st)) none) = _
      rw [← buildSnapshotImage_canonical, hnext, hheader]
      rfl

theorem KeptIn.close (h : KeptIn b s) : KeptIn b.close s.close :=
  ⟨h.files, rfl, h.storeId, h.lastSequence⟩

end Operations

/-! ## Opens -/

/-- `openRuntime` once the store is loaded. -/
def reopenLoaded (report : LoadReport) : Op OpenOutcome := do
  let reconciled ← reconcile
  let (revoked, changed) ← restart
  Program.update fun s => { s with isOpen := true }
  let s ← get
  let pending := (s.state.executions.records.filter fun x => x.lifecycle = .recoveryRequired).map
    ExecutionRecord.id
  let notes ← recoverPending { epoch := s.state.epoch } pending
  return {
    previousEpoch := s.state.epoch - 1
    epoch := s.state.epoch
    created := !report.snapshotPresent && report.recordsLoaded = 0
    reclassified := changed.map ExecutionRecord.id
    leasesRevoked := revoked.length
    reconciledCommits := reconciled.repairs.length
    detail := (if reconciled.changed then "reconciled " ++ toString reconciled.repairs.length ++
      " commit(s) whose aggregate update was lost; " else "") ++ notes }

section Opens

variable {s t : Runtime}

/-- From one loaded state both opens go on alike. -/
theorem reopenLoaded_twin (h : Level s t) (hsame : s.state = t.state)
    (hepoch : t.state.epoch + 1 < 2 ^ 64) {report : FileReport} {report' : LoadReport}
    (hpresent : report.snapshotPresent = report'.snapshotPresent)
    (hloaded : report.recordsLoaded = report'.recordsLoaded) :
    Twin Alike (openLoaded report) (reopenLoaded report') s t := by
  have hkept : (t.mapJournaled reconciled).state.epoch = t.state.epoch :=
    (sameScalars_reconciled t.toJournaled).epoch
  have hrestart : restart.exec (t.mapJournaled reconciled) =
      (restartAt (t.state.epoch + 1)).exec (t.mapJournaled reconciled) := by
    unfold restart
    rw [exec_get_bind, hkept]
  have hadvances : Leads (restartAt (t.state.epoch + 1)) (t.mapJournaled reconciled)
      fun _ t' => t'.state.epoch = t.state.epoch + 1 := by
    rw [← bind_pure (restartAt (t.state.epoch + 1))]
    exact leads_restartAt fun _ _ hscalars _ => hscalars.epoch
  unfold openLoaded reopenLoaded Twin
  rw [exec_get_bind, exec_bind, exec_bind, exec_reconcile, exec_reconcile, hsame, hpresent, hloaded,
    Nat.mod_eq_of_lt hepoch]
  refine twin_bind_leads (P := fun _ t' => t'.state.epoch = t.state.epoch + 1) ?_ ?_ ?_
  · unfold Twin
    rw [hrestart]
    exact restartAt_twin h.reconciled _
  · unfold Leads at hadvances ⊢
    rw [hrestart]
    exact fun _ _ => hadvances
  rintro ⟨revoked, changed⟩ s' t' h' hadvanced
  apply twin_update
  have hopen : Alike { s' with isOpen := true } { t' with isOpen := true } :=
    ⟨h'.state, h'.actionIndex, h'.lastSequence, rfl, h'.shuttingDown⟩
  apply twin_get
  rw [hopen.state, show ({ t' with isOpen := true } : Runtime).state.epoch = t.state.epoch + 1 from
    hadvanced, Nat.add_sub_cancel]
  apply twin_bind (recoverPending_twin hopen _ _)
  intro notes s' t' h'
  exact twin_pure h'

/-- The checks `loadState` makes of what it read. -/
def acceptRead (read : Except Status LoadReport × DurableState) (storeId : StoreId) :
    Op LoadReport := do
  Op.setState fun _ => read.2
  let report ← check read.1
  refuseIf (read.2.store ≠ .nil ∧ read.2.store ≠ storeId)
    (err .corruptState "journal store id does not match the recovered state")
  Op.setState fun st => { st with store := storeId }
  refuseIf (read.2.schema ≠ 0 ∧ read.2.schema ≠ persistenceSchemaVersion)
    (err .unsupported "durable state schema is not supported by this build")
  Op.setState fun st => { st with schema := persistenceSchemaVersion }
  return report

/-- What was loaded from the files is accepted or refused as what was read of the records. -/
theorem acceptLoaded_twin (h : Alike s t) {loaded : LoadOutcome}
    {read : Except Status LoadReport × DurableState} (hread : loaded.Matches read)
    (hepoch : read.2.epoch + 1 < 2 ^ 64) (store : StoreId) :
    Twin Alike (acceptLoaded loaded store >>= openLoaded) (acceptRead read store >>= reopenLoaded)
      s t := by
  have hset : ∀ st : DurableState, Alike (s.mapJournaled fun j => { j with state := st })
      (t.mapJournaled fun j => { j with state := st }) :=
    fun _ => ⟨rfl, h.actionIndex, h.lastSequence, h.isOpen, h.shuttingDown⟩
  unfold acceptLoaded acceptRead
  apply twin_assoc
  rw [hread.state]
  apply twin_update
  obtain ⟨result, st⟩ := read
  cases result with
  | error e =>
    rw [hread.refused e rfl]
    exact ⟨rfl, hset st⟩
  | ok report =>
    obtain ⟨hnone, hpresent, hcount⟩ := hread.accepted report rfl
    rw [hnone, show (refuseOn none : Op Unit) = pure () from rfl,
      show (check (.ok report) : Op LoadReport) = pure report from rfl, pure_bind, pure_bind]
    apply twin_assoc
    apply twin_refuseIf (hset st)
    intro _
    apply twin_assoc
    apply twin_update
    apply twin_assoc
    apply twin_refuseIf (hset { st with store := store })
    intro _
    apply twin_assoc
    apply twin_update
    rw [pure_bind, pure_bind]
    refine reopenLoaded_twin ?_ ?_ ?_ hpresent hcount
    · exact ⟨⟨_, rfl⟩, h.lastSequence, h.isOpen, h.shuttingDown⟩
    · rfl
    · exact hepoch

/-- The handle and the files after an open that goes through. -/
theorem KeptIn.loads {h : FileDurableStore} {create : Bool} {limits : StoreLimits} {entropy : UInt64}
    (hfits : (h.found entropy).Fits limits) (hok : (h.openStore create entropy).1 = .ok ()) :
    let b := ((h.over (h.directory.map Directory.files)).openStore create limits entropy).2
    (h.openStore create entropy).2.directory = some (h.found entropy) ∧
      ∀ out, (b.load out).Matches (loadPayloads (h.found entropy) out) := by
  intro b
  have hkept : KeptIn (h.over (h.directory.map Directory.files)) h := ⟨rfl, rfl, rfl, rfl⟩
  obtain ⟨hstatus, hopened⟩ := hkept.openStore create hfits
  have hhandle : h.isOpen = false := by
    by_contra hopen
    unfold FileDurableStore.openStore at hok
    rw [if_pos (by simpa using hopen)] at hok
    cases hok
  have hdirectory : (h.openStore create entropy).2.directory = some (h.found entropy) := by
    rcases hends : h.openStore create entropy with ⟨result, h'⟩
    rw [hends] at hok
    obtain ⟨-, -, e, he⟩ | ⟨d, hd, hstored, -⟩ := openStore_cases hhandle hends
    · rw [he] at hok
      cases hok
    · rw [hstored, hd]
      rfl
  have hlimits : b.limits = limits :=
    ((openStore_opened hhandle hhandle create limits (h.directory.map Directory.files) entropy).opened
      (hstatus.trans hok)).2.bounds
  refine ⟨hdirectory, fun out => ?_⟩
  rw [ByteStore.load, hlimits, hopened.files, hdirectory]
  exact loadFiles_matches hfits out

/-- Over the files of its store a runtime opens as it does over the records, provided the records
read back as they were written. -/
theorem openFiles_twin_openRuntime {config : RuntimeConfig} {entropy : UInt64}
    (hfits : (s.store.found entropy).Fits config.storeLimits)
    (hreads : s.isOpen = false → (s.store.openStore config.createIfMissing entropy).1 = .ok () →
      loadPayloads (s.store.found entropy) s.state = loadDirectory (s.store.found entropy) s.state)
    (hepoch : (loadDirectory (s.store.found entropy) s.state).2.epoch + 1 < 2 ^ 64) :
    Twin Alike (openFiles config (s.store.directory.map Directory.files) entropy)
      (openRuntime config entropy) s s := by
  have hkept : KeptIn (s.store.over (s.store.directory.map Directory.files)) s.store :=
    ⟨rfl, rfl, rfl, rfl⟩
  obtain ⟨hstatus, hopened⟩ := hkept.openStore config.createIfMissing hfits
  unfold openFiles openRuntime
  apply twin_get
  apply twin_refuseIf ⟨rfl, rfl, rfl, rfl, rfl⟩
  intro hclosed
  apply twin_update
  unfold loadFilesState loadState
  apply twin_assoc
  apply twin_get
  apply twin_assoc
  apply twin_update
  apply twin_assoc
  dsimp only
  rw [hstatus]
  apply twin_check ⟨rfl, rfl, hopened.lastSequence, rfl, rfl⟩
  intro _ hok
  obtain ⟨hdirectory, hload⟩ := KeptIn.loads hfits hok
  have hmatches := hload s.state
  rw [hreads (by simpa using hclosed) hok] at hmatches
  rw [hdirectory, hopened.storeId]
  refine acceptLoaded_twin ?_ hmatches hepoch _
  exact ⟨rfl, rfl, hopened.lastSequence, rfl, rfl⟩

/-- A load of the files that is refused refuses the open. -/
theorem openFiles_unloadable {config : RuntimeConfig} {entropy : UInt64} {e : Status}
    (hfits : (s.store.found entropy).Fits config.storeLimits) (hclosed : s.isOpen = false)
    (hok : (s.store.openStore config.createIfMissing entropy).1 = .ok ())
    (hrefused : (loadPayloads (s.store.found entropy) s.state).1 = .error e) :
    openedOn s config (s.store.directory.map Directory.files) entropy =
      (.error e, (loadPayloads (s.store.found entropy) s.state).2) := by
  have hkept : KeptIn (s.store.over (s.store.directory.map Directory.files)) s.store :=
    ⟨rfl, rfl, rfl, rfl⟩
  obtain ⟨hstatus, -⟩ := hkept.openStore config.createIfMissing hfits
  obtain ⟨-, hload⟩ := KeptIn.loads hfits hok
  have hmatches := hload s.state
  have hends : Leads (openFiles config (s.store.directory.map Directory.files) entropy) s
      fun r s' => r = .error e ∧ s'.state = (loadPayloads (s.store.found entropy) s.state).2 := by
    apply leads_openFiles
    · intro hopen
      rw [hclosed] at hopen
      cases hopen
    intro _ result opened hresult
    rw [hresult] at hstatus hmatches
    refine ⟨fun e' he' => ?_, fun _ => ?_⟩
    · rw [show result = _ from hstatus, hok] at he'
      cases he'
    have hsome := hmatches.refused e hrefused
    apply leads_acceptLoaded
    · intro e' _ he'
      rw [hsome] at he'
      obtain rfl := Option.some.inj (he'.resolve_right fun h => by cases h.1)
      refine ⟨rfl, Eq.trans ?_ hmatches.state⟩
      exact if_neg fun h => by
        rw [hsome] at h
        cases h.1
    · intro haccepted
      refine absurd (.inl ?_) haccepted
      rw [hsome]
      exact fun hnone => by cases hnone
  unfold Leads at hends
  unfold openedOn
  dsimp only
  rw [hends.1, hends.2]
  rfl

/-- **Opening the files of a store.** The open ends as the open of the records does, unless the
load meets a payload that does not read back: then it is refused for that, and the state read up to
there stays in memory. -/
theorem openFiles_refines {config : RuntimeConfig} {entropy : UInt64}
    (hfits : (s.store.found entropy).Fits config.storeLimits)
    (hepoch : (loadDirectory (s.store.found entropy) s.state).2.epoch + 1 < 2 ^ 64) :
    Twin Alike (openFiles config (s.store.directory.map Directory.files) entropy)
        (openRuntime config entropy) s s ∨
      ∃ e, (loadPayloads (s.store.found entropy) s.state).1 = .error e ∧
        openedOn s config (s.store.directory.map Directory.files) entropy =
          (.error e, (loadPayloads (s.store.found entropy) s.state).2) := by
  cases hresult : (loadPayloads (s.store.found entropy) s.state).1 with
  | ok report =>
    refine .inl (openFiles_twin_openRuntime hfits (fun _ _ => ?_) hepoch)
    have hread : loadPayloads (s.store.found entropy) s.state = (.ok report, _) :=
      Prod.ext hresult rfl
    rw [loadPayloads_ok hread, hread]
  | error e =>
    by_cases hopens : s.isOpen = false ∧ (s.store.openStore config.createIfMissing entropy).1 = .ok ()
    · exact .inr ⟨e, rfl, openFiles_unloadable hfits hopens.1 hopens.2 hresult⟩
    · exact .inl (openFiles_twin_openRuntime hfits
        (fun hclosed hok => absurd ⟨hclosed, hok⟩ hopens) hepoch)

end Opens

end ExecutionFabric
