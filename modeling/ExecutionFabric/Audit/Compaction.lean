import ExecutionFabric.Audit.Reopening

/-!
# Compaction

A snapshot is written to a temporary file and renamed into place; then the journal it covers is
removed and a fresh one is started after it. The process may die between any two of these steps
and in the middle of a write. What it leaves is recovered exactly as long as there is a journal
with a whole header.
-/
namespace ExecutionFabric

open Lib JournalRecord

/-! ## Snapshots -/

/-- A state whose snapshot can be written, and read back. -/
structure DurableState.Storable (limits : StoreLimits) (st : DurableState) : Prop where
  named : st.store ≠ .nil
  schema : st.schema = persistenceSchemaVersion
  fits : st.fits = true
  readable : st.encode.length ≤ maxTotal
  image : (buildSnapshotImage st).length ≤ limits.maxSnapshotPayload

section Snapshots

variable {limits : StoreLimits} {st : DurableState}

theorem length_snapshotFields (st : DurableState) : (snapshotFields st).length = 48 := by
  simp [snapshotFields, snapshotMagic]

theorem length_snapshotHeader (st : DurableState) : (snapshotHeader st).length = 56 := by
  simp [snapshotHeader, length_snapshotFields]

theorem length_buildSnapshotImage (st : DurableState) :
    (buildSnapshotImage st).length = 56 + st.encode.length + 8 := by
  rw [buildSnapshotImage, List.length_append, List.length_append, length_snapshotHeader,
    length_checksum]

theorem DurableState.Storable.sequence (h : st.Storable limits) : st.sequence < 256 ^ 8 := by
  have hscalars := (Bool.and_eq_true_iff.mp h.fits).1
  simp only [DurableState.scalarsCodec, DurableState.scalars, Codec.pair, Bool.and_eq_true]
    at hscalars
  exact of_decide_eq_true hscalars.2.2.2.1

/-- The fields of the header, read from the whole image. -/
theorem snapshotImage_fields (st : DurableState) (hroom : st.encode.length ≤ maxTotal)
    (hsequence : st.sequence < 256 ^ 8) :
    slice (buildSnapshotImage st) 0 8 = snapshotMagic ∧
      readLe (buildSnapshotImage st) 8 4 = persistenceSchemaVersion ∧
      readLe (buildSnapshotImage st) 24 8 = st.sequence ∧
      readLe (buildSnapshotImage st) 32 8 = st.encode.length := by
  have hlength : st.encode.length < 256 ^ 8 := Nat.lt_of_le_of_lt hroom (by decide)
  simp only [buildSnapshotImage, snapshotHeader]
  rw [snapshotFields]
  simp only [List.append_assoc]
  refine ⟨?_, ?_, ?_, ?_⟩
  · rw [slice_append_left _ (by decide)]
    rfl
  · exact readLe_middle snapshotMagic _ rfl (by decide)
  · rw [← List.append_assoc, ← List.append_assoc, ← List.append_assoc, ← List.append_assoc]
    exact readLe_middle _ _ (by simp [snapshotMagic]) hsequence
  · rw [← List.append_assoc, ← List.append_assoc, ← List.append_assoc, ← List.append_assoc,
      ← List.append_assoc]
    exact readLe_middle _ _ (by simp [snapshotMagic]) hlength

/-- The checksums of a snapshot image, and the payload between them. -/
theorem snapshotImage_checks (st : DurableState) :
    checksumAt (buildSnapshotImage st) 48 0 48 = true ∧
      checksumAt (buildSnapshotImage st) 40 56 st.encode.length = true ∧
      checksumAt (buildSnapshotImage st) (56 + st.encode.length) 0 (56 + st.encode.length) = true ∧
      slice (buildSnapshotImage st) 56 st.encode.length = st.encode := by
  have hfields := length_snapshotFields st
  have hheader := length_snapshotHeader st
  have hpayload : slice (buildSnapshotImage st) 56 st.encode.length = st.encode := by
    rw [buildSnapshotImage, List.append_assoc]
    exact slice_middle _ _ _ hheader rfl
  refine ⟨?_, ?_, ?_, hpayload⟩
  · rw [buildSnapshotImage, List.append_assoc, snapshotHeader, List.append_assoc]
    refine checksumAt_middle _ _ ?_ hfields
    rw [slice_append_left _ (by omega), ← hfields, slice_full]
  · have himage : buildSnapshotImage st =
        (snapshotMagic ++ leBytes 4 persistenceSchemaVersion ++ leBytes 2 0 ++ leBytes 2 0 ++
          leBytes 8 st.store.value.toNat ++ leBytes 8 st.sequence ++ leBytes 8 st.encode.length) ++
        (checksum st.encode ++ (checksum (snapshotFields st) ++
          (st.encode ++ checksum (snapshotHeader st ++ st.encode)))) := by
      simp only [buildSnapshotImage, snapshotHeader, snapshotFields, List.append_assoc]
    rw [himage] at hpayload ⊢
    exact checksumAt_middle _ _ hpayload (by simp [snapshotMagic])
  · have hbody : (snapshotHeader st ++ st.encode).length = 56 + st.encode.length := by
      rw [List.length_append, hheader]
    rw [buildSnapshotImage, ← List.append_nil (checksum _)]
    refine checksumAt_middle _ _ ?_ hbody
    rw [slice_append_left _ (by omega), ← hbody, slice_full]

/-- A snapshot reads back as the state it was written from, in canonical order. -/
theorem readSnapshot_image (h : st.Storable limits) :
    readSnapshot limits (buildSnapshotImage st) = .ok st.canonical := by
  obtain ⟨hmagic, hschema, hsequence, hdeclared⟩ := snapshotImage_fields st h.readable h.sequence
  obtain ⟨hheader, hpayload, htrailer, hbody⟩ := snapshotImage_checks st
  have hlength := length_buildSnapshotImage st
  have himage := h.image
  unfold readSnapshot
  rw [if_neg (by rw [hlength, snapshotHeaderSize, recordTrailerSize]; omega)]
  simp only [hdeclared, snapshotHeaderSize, recordTrailerSize, hbody]
  rw [hmagic, hheader, hpayload, htrailer, hschema, if_pos (by simp; omega),
    DurableState.decode_encode h.schema h.fits h.readable]
  simp only [hsequence]
  rfl

end Snapshots

/-! ## Journals a snapshot covers -/

section Covered

variable {limits : StoreLimits} {st : DurableState}

theorem replayRecords_covered {n : Nat} {rs : List JournalRecord}
    (h : ∀ r ∈ rs, r.sequence ≤ n) : replayRecords n st rs = some st := by
  induction rs with
  | nil => rfl
  | cons r rs ih =>
    rw [replayRecords, if_neg (Nat.not_lt.mpr (h r List.mem_cons_self))]
    exact ih fun r' hr' => h r' (List.mem_cons_of_mem _ hr')

/-- A load skips the records the snapshot already holds. -/
theorem loadJournal_covered (st : DurableState) {n : Nat} {rs : List JournalRecord}
    (hrs : ∀ r ∈ rs, r.Within limits) (hcovered : ∀ r ∈ rs, r.sequence ≤ n)
    (hnamed : st.store ≠ .nil) (first : Nat) (report : FileReport) :
    let outcome := loadJournal limits (journalFile st.store first rs) true n st report
    outcome.status = none ∧ outcome.state = st := by
  intro outcome
  have hheader := length_journalHeader st.store first
  have himages := length_images rs
  let journal := journalFile st.store first rs
  let start : Scan := { offset := 40, state := st, report := report }
  let s := scanJournal limits journal n journal.length start
  have hlength : journal.length = 40 + (images rs).length := by
    rw [show journal = journalHeader st.store first ++ images rs from rfl, List.length_append,
      hheader]
  have houtcome : outcome = s.refused.elim (classifyTail limits journal s) fun refused =>
      ⟨some refused, s.state, s.report⟩ := by
    have hstore : journalStore (journalFile st.store first rs) = st.store :=
      journalStore_journalHeader st.store first _
    have hsound : journalHeaderDefect (journalFile st.store first rs) "" = none :=
      journalHeaderDefect_journalHeader st.store first _ ""
    simp only [outcome]
    rw [loadJournal_eq hsound (fun h => h.2.2.2 hstore), if_neg (fun h => hnamed h.1)]
  obtain ⟨hok, -⟩ := foldl_take_boundaries n rs (journalHeader st.store first) [] start rfl
    (by rw [hheader])
  have hscan : s = Scan.stop journal ((boundaries rs 40).foldl (Scan.take journal n) start) :=
    scanJournal_journalFile st.store first hrs n rfl rfl
  rw [List.append_nil, hheader, show journalHeader st.store first ++ images rs = journal from rfl]
    at hok
  rw [hok st (replayRecords_covered hcovered), Scan.stop] at hscan
  dsimp only at hscan
  rw [if_neg (by simp [start]), if_neg (by rw [hlength]; simp)] at hscan
  rw [houtcome, hscan]
  dsimp only
  rw [show start.refused = none from rfl, Option.elim, classifyTail,
    if_neg (by dsimp only; rw [hlength]; simp)]
  exact ⟨rfl, rfl⟩

/-- A load refuses a journal of another store than the snapshot's. -/
theorem loadJournal_foreign (st : DurableState) {store : StoreId} (hstore : store ≠ .nil)
    (hnamed : st.store ≠ .nil)
    (hforeign : store ≠ st.store) (limits : StoreLimits) (first : Nat) (rest : Bytes) (n : Nat)
    (report : FileReport) :
    (loadJournal limits (journalHeader store first ++ rest) true n st report).status ≠ none := by
  simp only [loadJournal]
  rw [journalHeaderDefect_journalHeader, journalStore_journalHeader]
  dsimp only
  rw [if_pos ⟨trivial, (Id.valid_iff _).mpr hstore, (Id.valid_iff _).mpr hnamed, hforeign⟩]
  exact Option.some_ne_none _

end Covered

/-! ## Crashes -/

/-- Only the first bytes of a write reached the file. -/
def FileOp.cut (kept : Nat) : FileOp → FileOp
  | .writeTemporary bytes => .writeTemporary (bytes.take kept)
  | .writeJournal bytes => .writeJournal (bytes.take kept)
  | op => op

/-- The process dies somewhere in `ops` and leaves `files'`. -/
inductive Dies : List FileOp → Files → Files → Prop
  | before (ops : List FileOp) (files : Files) : Dies ops files files
  | during (op : FileOp) (ops : List FileOp) (files : Files) (kept : Nat) :
      Dies (op :: ops) files ((op.cut kept).apply files)
  | after {op : FileOp} {ops : List FileOp} {files files' : Files}
      (h : Dies ops (op.apply files) files') : Dies (op :: ops) files files'

/-- The directory holds `st`: so it loads, and its journal ends with the number of the state. -/
structure Files.Holds (limits : StoreLimits) (files : Files) (st : DurableState) : Prop where
  journal : ∃ (first : UInt64) (entries : List (RecordKind × Bytes)),
    (∀ e ∈ entries, e.2.length ≤ limits.maxJournalPayload) ∧
    first.toNat + entries.length = st.sequence + 1 ∧
    files.journal = some (journalFile st.store first.toNat (numbered first.toNat entries)) ∧
    (journalFile st.store first.toNat (numbered first.toNat entries)).length
      ≤ limits.maxJournalLoadBytes
  loads : (loadFiles limits files {}).status = none ∧
    (loadFiles limits files {}).state.image = st.image ∧
    (loadFiles limits files {}).state.sequence = st.sequence

/-- Another process can open the directory: it loads `st` and would append after it. -/
def Files.Recovers (limits : StoreLimits) (create : Bool) (entropy : UInt64) (files : Files)
    (st : DurableState) : Prop :=
  let opened := ({ files := some files } : ByteStore).openStore create limits entropy
  opened.1 = .ok () ∧ opened.2.lastSequence = st.sequence ∧ (opened.2.load {}).status = none ∧
    (opened.2.load {}).state.image = st.image ∧ (opened.2.load {}).state.sequence = st.sequence

section Interruptions

variable {limits : StoreLimits} {st : DurableState} {files files' : Files}

/-- A process that dies in a compaction leaves the snapshot and the journal as they were, or the new
snapshot with the old journal, with none, or with a beginning of the header of the next one. -/
theorem dies_snapshotOps {truncateJournal : Bool}
    (h : Dies (snapshotOps st truncateJournal) files files') :
    (files'.snapshot = files.snapshot ∧ files'.journal = files.journal) ∨
      (files'.snapshot = some (buildSnapshotImage st) ∧
        (files'.journal = files.journal ∨ files'.journal = none ∨ ∃ kept,
          files'.journal = some ((journalHeader st.store (nextSequence st.sequence)).take kept))) := by
  cases h with
  | before => exact .inl ⟨rfl, rfl⟩
  | during => exact .inl ⟨rfl, rfl⟩
  | after h =>
    cases h with
    | before => exact .inl ⟨rfl, rfl⟩
    | during => exact .inl ⟨rfl, rfl⟩
    | after h =>
      cases h with
      | before => exact .inl ⟨rfl, rfl⟩
      | during => exact .inr ⟨rfl, .inl rfl⟩
      | after h =>
        -- the new snapshot is in place
        cases truncateJournal with
        | false =>
          cases h
          exact .inr ⟨rfl, .inl rfl⟩
        | true =>
          cases h with
          | before => exact .inr ⟨rfl, .inl rfl⟩
          | during => exact .inr ⟨rfl, .inr (.inl rfl)⟩
          | after h =>
            cases h with
            | before => exact .inr ⟨rfl, .inr (.inl rfl)⟩
            | during => exact .inr ⟨rfl, .inr (.inr ⟨0, rfl⟩)⟩
            | after h =>
              cases h with
              | before => exact .inr ⟨rfl, .inr (.inr ⟨0, rfl⟩)⟩
              | during op ops files kept => exact .inr ⟨rfl, .inr (.inr ⟨kept, rfl⟩)⟩
              | after h =>
                cases h
                refine .inr ⟨rfl, .inr (.inr ⟨journalHeaderSize, ?_⟩)⟩
                rw [List.take_of_length_le (by rw [length_journalHeader, journalHeaderSize])]
                rfl

/-- With the new snapshot in place a journal it covers adds nothing. -/
theorem loadFiles_covered (hstored : st.Storable limits) {first : Nat} {rs : List JournalRecord}
    (hrs : ∀ r ∈ rs, r.Within limits) (hcovered : ∀ r ∈ rs, r.sequence ≤ st.sequence)
    (hsize : (journalFile st.store first rs).length ≤ limits.maxJournalLoadBytes)
    (temporary : Option Bytes) :
    let outcome := loadFiles limits
      ⟨some (journalFile st.store first rs), some (buildSnapshotImage st), temporary⟩ {}
    outcome.status = none ∧ outcome.state = st.canonical := by
  have hload := loadJournal_covered st.canonical (n := st.canonical.sequence) hrs hcovered
    hstored.named first { snapshotPresent := true, snapshotSequence := st.canonical.sequence,
                          journalPresent := true }
  intro outcome
  simp only [outcome, loadFiles, loadAfterSnapshot, readFile]
  rw [if_neg (Nat.not_lt.mpr hstored.image)]
  dsimp only
  rw [readSnapshot_image hstored]
  dsimp only
  rw [if_neg (Nat.not_lt.mpr hsize)]
  exact hload

/-- A directory with a journal of the store opens after its last record. -/
theorem openStore_numbered (hlimits : limits.Sized) {store : StoreId} (hnamed : store ≠ .nil)
    (first : UInt64) {entries : List (RecordKind × Bytes)}
    (hentries : ∀ e ∈ entries, e.2.length ≤ limits.maxJournalPayload)
    (hjournal : files.journal = some (journalFile store first.toNat (numbered first.toNat entries)))
    (hsize : (journalFile store first.toNat (numbered first.toNat entries)).length
      ≤ limits.maxJournalLoadBytes) (create : Bool) (entropy : UInt64) {n : Nat}
    (hn : n < 2 ^ 64) (hlast : (n + 1) % 2 ^ 64 = (first.toNat + entries.length) % 2 ^ 64) :
    let opened := ({ files := some files } : ByteStore).openStore create limits entropy
    opened.1 = .ok () ∧ opened.2.lastSequence = n ∧ opened.2.load {} = loadFiles limits files {} := by
  have hwithin : ∀ r ∈ numbered first.toNat entries, r.Within limits :=
    within_numbered hlimits.journalPayload hentries
  have hheader := journalHeaderDefect_journalHeader store first.toNat
    (images (numbered first.toNat entries)) ": "
  have hstore : journalStore (journalFile store first.toNat (numbered first.toNat entries)) = store :=
    journalStore_journalHeader store first.toNat (images (numbered first.toNat entries))
  have hopen := openStore_of_journal (s := { files := some files }) rfl rfl hjournal hsize hheader
    (by rw [hstore]; exact hnamed) create entropy
  obtain ⟨-, -, -, hopens⟩ := journal_scan_round_trip limits hlimits.journalPayload store first
    entries hentries
  obtain ⟨hok, hnumber⟩ := hopens { files := some files } files create entropy rfl rfl hjournal
    hnamed hsize
  have hload : (({ files := some files } : ByteStore).openStore create limits entropy).2.load {} =
      loadFiles limits files {} := by
    have hsettings : (({ files := some files } : ByteStore).openStore create limits entropy).2.limits =
        limits := congrArg (fun r : Except Status Unit × ByteStore => r.2.limits) hopen
    have hfound : (({ files := some files } : ByteStore).openStore create limits entropy).2.files =
        some files := congrArg (fun r : Except Status Unit × ByteStore => r.2.files) hopen
    rw [ByteStore.load, hsettings, hfound, Option.getD_some]
  have hnext := last_sequence_numbered (before_first first.toNat) entries
  have hbounded : ∀ before < 2 ^ 64,
      (((numbered first.toNat entries).getLast?).map JournalRecord.sequence).getD before < 2 ^ 64 := by
    intro before hbefore
    cases hgot : (numbered first.toNat entries).getLast? with
    | none => exact hbefore
    | some r => exact (hwithin r (List.mem_of_getLast? hgot)).sequence
  have hbound := hbounded ((first.toNat + (2 ^ 64 - 1)) % 2 ^ 64) (Nat.mod_lt _ (by decide))
  -- from here on the last number matters only through these two facts
  generalize (((numbered first.toNat entries).getLast?).map JournalRecord.sequence).getD
    ((first.toNat + (2 ^ 64 - 1)) % 2 ^ 64) = last at hnumber hnext hbound
  have hsame : last = n := by omega
  exact ⟨hok, hnumber.trans hsame, hload⟩

theorem sequence_numbered_le {first : Nat} {entries : List (RecordKind × Bytes)} {n : Nat}
    (hn : n < 2 ^ 64) (hlast : first + entries.length = n + 1) :
    ∀ r ∈ numbered first entries, r.sequence ≤ n := by
  intro r hr
  obtain ⟨i, hi, rfl⟩ := List.mem_mapIdx.mp hr
  have hplace : first + i ≤ n := by omega
  exact (Nat.mod_eq_of_lt (by omega)).trans_le hplace

/-- A journal of the store whose records the new snapshot covers is opened and skipped. -/
theorem recovers_covered (hlimits : limits.Sized) (hstored : st.Storable limits) (first : UInt64)
    {entries : List (RecordKind × Bytes)}
    (hentries : ∀ e ∈ entries, e.2.length ≤ limits.maxJournalPayload)
    (hsnapshot : files.snapshot = some (buildSnapshotImage st))
    (hjournal : files.journal =
      some (journalFile st.store first.toNat (numbered first.toNat entries)))
    (hsize : (journalFile st.store first.toNat (numbered first.toNat entries)).length
      ≤ limits.maxJournalLoadBytes)
    (hlast : (st.sequence + 1) % 2 ^ 64 = (first.toNat + entries.length) % 2 ^ 64)
    (hcovered : ∀ r ∈ numbered first.toNat entries, r.sequence ≤ st.sequence)
    (create : Bool) (entropy : UInt64) : files.Recovers limits create entropy st := by
  have hsequence := hstored.sequence
  obtain ⟨hok, hnumber, hload⟩ := openStore_numbered hlimits hstored.named first hentries hjournal
    hsize create entropy hsequence hlast
  obtain ⟨hstatus, hstate⟩ := loadFiles_covered hstored
    (within_numbered hlimits.journalPayload hentries) hcovered hsize files.temporary
  have hfiles : files = ⟨some (journalFile st.store first.toNat (numbered first.toNat entries)),
      some (buildSnapshotImage st), files.temporary⟩ := by
    rw [← hjournal, ← hsnapshot]
  rw [← hfiles] at hstatus hstate
  refine ⟨hok, hnumber, ?_⟩
  rw [hload, hstatus, hstate]
  exact ⟨rfl, DurableState.image_canonical st, rfl⟩

/-- Where no journal has a whole header, an open fails or starts the journal of another store, which
the load refuses. -/
theorem not_recovers (hstored : st.Storable limits) {entropy : UInt64}
    (hfresh : (⟨entropy⟩ : StoreId) ≠ st.store)
    (hsnapshot : files.snapshot = some (buildSnapshotImage st)) (create : Bool)
    (hheader : ∀ journal, files.journal = some journal → journal.length < journalHeaderSize) :
    ¬ files.Recovers limits create entropy st := by
  rintro ⟨hok, -, hstatus, -⟩
  have hclosed : ({} : FileDurableStore).isOpen = false := rfl
  have hopens := (openStore_ok_iff hclosed create limits (some files) entropy).mp hok
  have hopened := ((openStore_opened hclosed hclosed create limits (some files) entropy).opened hok).2
  cases hjournal : files.journal with
  | some journal =>
    have hfound : foundJournal (some files) entropy = journal := by
      simp [foundJournal, hjournal]
    have hsound := hopens.header
    rw [hfound, journalHeaderDefect, if_pos (hheader journal hjournal)] at hsound
    cases hsound
  | none =>
    have hfound : foundJournal (some files) entropy = journalHeader ⟨entropy⟩ 1 ++ [] := by
      simp [foundJournal, hjournal]
    have hnamed := hopens.named
    rw [hfound, journalStore_journalHeader] at hnamed
    have hload : (({ files := some files } : ByteStore).openStore create limits entropy).2.load {} =
        loadFiles limits { files with journal := some (journalHeader ⟨entropy⟩ 1 ++ []) } {} := by
      have hcontents := hopened.contents
      have hbounds := hopened.bounds
      rw [hfound] at hcontents
      exact (congrArg (loadFiles · _ {}) hbounds).trans
        (congrArg (fun f : Option Files => loadFiles limits (f.getD {}) {}) hcontents)
    have hsize := hopened.size
    rw [hfound] at hsize
    rw [hload] at hstatus
    simp only [loadFiles, loadAfterSnapshot, readFile] at hstatus
    rw [hsnapshot] at hstatus
    dsimp only at hstatus
    rw [if_neg (Nat.not_lt.mpr hstored.image)] at hstatus
    dsimp only at hstatus
    rw [readSnapshot_image hstored] at hstatus
    dsimp only at hstatus
    rw [if_neg (Nat.not_lt.mpr hsize)] at hstatus
    exact loadJournal_foreign st.canonical hnamed hstored.named hfresh _ _ _ _ _ hstatus

/-- The next journal is opened as soon as its header is whole. -/
theorem recovers_begun (hlimits : limits.Sized) (hstored : st.Storable limits)
    (hcapacity : journalHeaderSize ≤ limits.maxJournalLoadBytes)
    (hsnapshot : files.snapshot = some (buildSnapshotImage st))
    (hjournal : files.journal = some (journalHeader st.store (nextSequence st.sequence)))
    (create : Bool) (entropy : UInt64) : files.Recovers limits create entropy st := by
  have hlength := length_journalHeader st.store (nextSequence st.sequence)
  have hbound : nextSequence st.sequence < 2 ^ 64 := Nat.mod_lt _ (by decide)
  obtain ⟨first, hfirst⟩ : ∃ first : UInt64, first.toNat = nextSequence st.sequence :=
    ⟨UInt64.ofNat (nextSequence st.sequence), UInt64.toNat_ofNat_of_lt hbound⟩
  have hempty : journalFile st.store first.toNat (numbered first.toNat []) =
      journalHeader st.store (nextSequence st.sequence) := by
    rw [hfirst]
    exact List.append_nil _
  have hentries : ∀ e ∈ ([] : List (RecordKind × Bytes)), e.2.length ≤ limits.maxJournalPayload :=
    fun e he => by cases he
  refine recovers_covered hlimits hstored first hentries hsnapshot (by rw [hempty]; exact hjournal)
    (by rw [hempty, hlength]; exact hcapacity) ?_ (fun r hr => by cases hr) create entropy
  rw [hfirst, List.length_nil]
  exact (Nat.mod_mod _ _).symm

theorem recovers_cut_iff (hlimits : limits.Sized) (hstored : st.Storable limits)
    (hcapacity : journalHeaderSize ≤ limits.maxJournalLoadBytes) {entropy : UInt64}
    (hfresh : (⟨entropy⟩ : StoreId) ≠ st.store)
    (hsnapshot : files.snapshot = some (buildSnapshotImage st)) {kept : Nat}
    (hcut : files.journal =
      some ((journalHeader st.store (nextSequence st.sequence)).take kept)) (create : Bool) :
    files.Recovers limits create entropy st ↔
      ∃ journal, files.journal = some journal ∧ journalHeaderSize ≤ journal.length := by
  have hlength := length_journalHeader st.store (nextSequence st.sequence)
  by_cases hkept : journalHeaderSize ≤ kept
  · rw [List.take_of_length_le (by rw [hlength]; exact hkept)] at hcut
    exact ⟨fun _ => ⟨_, hcut, Nat.le_of_eq hlength.symm⟩,
      fun _ => recovers_begun hlimits hstored hcapacity hsnapshot hcut create entropy⟩
  · have hlost : ∀ journal, files.journal = some journal → journal.length < journalHeaderSize := by
      intro journal hfound
      rw [hcut] at hfound
      rw [← Option.some.inj hfound, List.length_take]
      omega
    refine ⟨fun h => absurd h (not_recovers hstored hfresh hsnapshot create hlost), ?_⟩
    rintro ⟨journal, hfound, hlong⟩
    have hshort := hlost journal hfound
    omega

/-- What a process that dies in a compaction leaves is recovered as the compacted state, and the
next record is numbered after it, exactly if there is a journal with a whole header. -/
theorem compaction_recovers_iff (limits : StoreLimits) (hlimits : limits.Sized) (st : DurableState)
    (hstored : st.Storable limits) (files : Files) (hholds : files.Holds limits st)
    (truncateJournal create : Bool) (entropy : UInt64) (hfresh : (⟨entropy⟩ : StoreId) ≠ st.store)
    (files' : Files) (hdies : Dies (snapshotOps st truncateJournal) files files') :
    files'.Recovers limits create entropy st ↔
      ∃ journal, files'.journal = some journal ∧ journalHeaderSize ≤ journal.length := by
  obtain ⟨first, entries, hentries, hlast, hjournal, hsize⟩ := hholds.journal
  have hwhole : journalHeaderSize ≤
      (journalFile st.store first.toNat (numbered first.toNat entries)).length := by
    rw [journalFile, List.length_append, length_journalHeader, journalHeaderSize]
    omega
  have hsequence := hstored.sequence
  rcases dies_snapshotOps hdies with ⟨hsnapshot, hsame⟩ | ⟨hsnapshot, hsame | hnone | ⟨kept, hcut⟩⟩
  · -- the temporary file is never read
    refine ⟨fun _ => ⟨_, hsame.trans hjournal, hwhole⟩, fun _ => ?_⟩
    obtain ⟨hok, hnumber, hload⟩ := openStore_numbered hlimits hstored.named first hentries
      (hsame.trans hjournal) hsize create entropy (n := st.sequence) hsequence
      (congrArg (· % 2 ^ 64) hlast.symm)
    have hfiles : loadFiles limits files' {} = loadFiles limits files {} := by
      unfold loadFiles loadAfterSnapshot
      rw [hsnapshot, hsame]
    refine ⟨hok, hnumber, ?_⟩
    rw [hload, hfiles]
    exact hholds.loads
  · refine ⟨fun _ => ⟨_, hsame.trans hjournal, hwhole⟩, fun _ => ?_⟩
    exact recovers_covered hlimits hstored first hentries hsnapshot (hsame.trans hjournal) hsize
      (congrArg (· % 2 ^ 64) hlast.symm) (sequence_numbered_le hsequence hlast) create entropy
  · constructor
    · intro hrecovers
      refine absurd hrecovers (not_recovers hstored hfresh hsnapshot create fun journal hfound => ?_)
      rw [hnone] at hfound
      cases hfound
    · rintro ⟨journal, hfound, -⟩
      rw [hnone] at hfound
      cases hfound
  · have hcapacity := Nat.le_trans hwhole hsize
    exact recovers_cut_iff hlimits hstored hcapacity hfresh hsnapshot hcut create

end Interruptions

/-- A store with its metadata and a barrier in the journal. -/
def metadataRecords : List (RecordKind × Bytes) :=
  [(.storeMeta, storeMetaRecordCodec.write ⟨⟨1⟩, 1, 1, 0, persistenceSchemaVersion⟩),
    (.barrier, barrierRecordCodec.write ⟨8, 2⟩)]

def metadataFiles : Files where
  journal := some (journalFile ⟨1⟩ (7 : UInt64).toNat (numbered (7 : UInt64).toNat metadataRecords))

def metadataState : DurableState where
  store := ⟨1⟩
  epoch := 1
  sequence := 8
  schema := persistenceSchemaVersion

theorem metadataState_storable : metadataState.Storable {} :=
  ⟨by decide, rfl, by decide +kernel, by decide +kernel, by decide +kernel⟩

theorem metadataRecords_short : ∀ e ∈ metadataRecords,
    e.2.length ≤ ({} : StoreLimits).maxJournalPayload := by decide +kernel

theorem length_metadataFiles :
    (journalFile ⟨1⟩ (7 : UInt64).toNat (numbered (7 : UInt64).toNat metadataRecords) ++ []).length
      ≤ ({} : StoreLimits).maxJournalLoadBytes := by decide +kernel

theorem metadataFiles_holds : metadataFiles.Holds {} metadataState where
  journal := by
    have hsize := length_metadataFiles
    rw [List.append_nil] at hsize
    exact ⟨7, metadataRecords, metadataRecords_short, rfl, rfl, hsize⟩
  loads := by
    have hwithin : ∀ r ∈ numbered (7 : UInt64).toNat metadataRecords, r.Within {} :=
      within_numbered (show ({} : StoreLimits).maxJournalPayload < 2 ^ 64 by decide)
        metadataRecords_short
    obtain ⟨-, hloads⟩ := loadFiles_journal ⟨1⟩ _ hwithin (.inl rfl) length_metadataFiles none {}
    obtain ⟨hstatus, hstate, -⟩ := (hloads metadataState rfl).1 rfl
    rw [List.append_nil] at hstatus hstate
    unfold metadataFiles
    rw [hstatus, hstate]
    exact ⟨rfl, rfl, rfl⟩

/-- The files after the first `n` steps of a compaction of `st`. -/
def compactedBy (st : DurableState) (n : Nat) (files : Files) : Files :=
  ((snapshotOps st true).take n).foldl (fun files op => op.apply files) files

theorem dies_compactedBy (st : DurableState) (n : Nat) (files : Files) :
    Dies (snapshotOps st true) files (compactedBy st n files) := by
  unfold compactedBy
  induction snapshotOps st true generalizing n files with
  | nil =>
    rw [List.take_nil]
    exact .before [] files
  | cons op ops ih =>
    cases n with
    | zero => exact .before (op :: ops) files
    | succ n => exact .after (ih n (op.apply files))

theorem journal_removed (st : DurableState) (files : Files) :
    (compactedBy st 4 files).journal = none := rfl

theorem journal_begun (st : DurableState) (files : Files) :
    (compactedBy st 6 files).journal =
      some (journalHeader st.store (nextSequence st.sequence)) := rfl

theorem compaction_recovers_iff_metadata :
    ¬ (compactedBy metadataState 4 metadataFiles).Recovers {} true 2 metadataState ∧
      (compactedBy metadataState 6 metadataFiles).Recovers {} false 2 metadataState := by
  have hlimits : ({} : StoreLimits).Sized := ⟨by decide, by decide⟩
  have hfresh : (⟨2⟩ : StoreId) ≠ metadataState.store := by decide
  constructor
  · intro hrecovers
    obtain ⟨journal, hjournal, -⟩ := (compaction_recovers_iff {} hlimits metadataState
      metadataState_storable metadataFiles metadataFiles_holds true true 2 hfresh _
      (dies_compactedBy metadataState 4 metadataFiles)).mp hrecovers
    rw [journal_removed] at hjournal
    cases hjournal
  · refine (compaction_recovers_iff {} hlimits metadataState metadataState_storable metadataFiles
      metadataFiles_holds true false 2 hfresh _ (dies_compactedBy metadataState 6 metadataFiles)).mpr ?_
    refine ⟨_, journal_begun metadataState metadataFiles, ?_⟩
    rw [length_journalHeader, journalHeaderSize]

end ExecutionFabric
