import ExecutionFabric.Model.Checksum
import ExecutionFabric.Model.Codec

/-!
# The files of a store

A store directory holds one append-only journal and at most one snapshot, which is
written to a temporary file and renamed. Every header, payload and image carries a
CRC-64. `load` replays the journal up to the first unreadable record and tells a torn
tail from corruption by looking for a readable record at every later offset.
-/
namespace ExecutionFabric

open Lib

/-- `PEFJRN01` -/
def journalMagic : Bytes := [0x50, 0x45, 0x46, 0x4A, 0x52, 0x4E, 0x30, 0x31]

/-- `PEFSNAP1` -/
def snapshotMagic : Bytes := [0x50, 0x45, 0x46, 0x53, 0x4E, 0x41, 0x50, 0x31]

def recordMagic : Nat := 0x50454652
def journalHeaderSize : Nat := 40
def snapshotHeaderSize : Nat := 56
def recordHeaderSize : Nat := 40
def recordTrailerSize : Nat := 8

/-! ## Journal -/

/-- The header of a fresh journal. -/
def journalHeader (store : StoreId) (firstSequence : Nat) : Bytes :=
  let fields := journalMagic ++ leBytes 4 persistenceSchemaVersion ++ leBytes 2 0 ++ leBytes 2 0 ++
    leBytes 8 store.value.toNat ++ leBytes 8 firstSequence
  fields ++ checksum fields

/-- What is wrong with the header of a journal; `place` is the end of the message. -/
def journalHeaderDefect (journal : Bytes) (place : String) : Option Status :=
  if journal.length < journalHeaderSize then
    some (err .truncatedState ("journal header is truncated" ++ place))
  else if slice journal 0 8 ≠ journalMagic then
    some (err .corruptState ("journal header magic mismatch" ++ place))
  else if ¬ checksumAt journal 32 0 32 then
    some (err .corruptState ("journal header checksum mismatch" ++ place))
  else if readLe journal 8 4 ≠ persistenceSchemaVersion then
    some (err .unsupported "journal schema version is not supported by this build")
  else none

def journalStore (journal : Bytes) : StoreId := ⟨UInt64.ofNat (readLe journal 16 8)⟩

/-- The fields of a record header the header checksum covers. -/
def recordFields (kind : RecordKind) (sequence : Nat) (payload : Bytes) : Bytes :=
  leBytes 4 recordMagic ++ leBytes 2 kind.number ++ leBytes 2 0 ++ leBytes 8 sequence ++
    leBytes 8 payload.length ++ checksum payload

def recordHeader (kind : RecordKind) (sequence : Nat) (payload : Bytes) : Bytes :=
  recordFields kind sequence payload ++ checksum (recordFields kind sequence payload)

/-- A complete record image: header, payload and trailer. -/
def buildRecordImage (kind : RecordKind) (sequence : Nat) (payload : Bytes) : Bytes :=
  recordHeader kind sequence payload ++ payload ++
    checksum (recordHeader kind sequence payload ++ payload)

structure RecordBoundary where
  kind : RecordKind
  sequence : Nat
  payloadOffset : Nat
  payloadSize : Nat
  totalSize : Nat
  deriving DecidableEq, Repr

/-- Attempts to interpret the bytes at `offset` as one record. -/
def probeRecord (limits : StoreLimits) (data : Bytes) (offset : Nat) : Option RecordBoundary :=
  if offset + recordHeaderSize + recordTrailerSize > data.length then none
  else if readLe data offset 4 ≠ recordMagic then none
  else if ¬ checksumAt data (offset + 32) offset 32 then none
  else
    match RecordKind.ofNumber (readLe data (offset + 4) 2) with
    | none => none
    | some kind =>
      let payloadSize := readLe data (offset + 16) 8
      let payload := offset + recordHeaderSize
      let total := recordHeaderSize + payloadSize + recordTrailerSize
      if payloadSize > limits.maxJournalPayload then none
      else if offset + total > data.length then none
      else if ¬ checksumAt data (offset + 24) payload payloadSize then none
      else if ¬ checksumAt data (payload + payloadSize) offset (recordHeaderSize + payloadSize) then
        none
      else
        some {
          kind := kind
          sequence := readLe data (offset + 8) 8
          payloadOffset := payload
          payloadSize := payloadSize
          totalSize := total }

/-- `apply_record` on the bytes of a payload. -/
def applyPayload (st : DurableState) (kind : RecordKind) (payload : Bytes) :
    Option DurableState :=
  (JournalEntry.decode kind payload).bind (applyRecord st)

/-! ## Snapshot -/

def snapshotFields (st : DurableState) : Bytes :=
  snapshotMagic ++ leBytes 4 persistenceSchemaVersion ++ leBytes 2 0 ++ leBytes 2 0 ++
    leBytes 8 st.store.value.toNat ++ leBytes 8 st.sequence ++ leBytes 8 st.encode.length ++
    checksum st.encode

def snapshotHeader (st : DurableState) : Bytes := snapshotFields st ++ checksum (snapshotFields st)

/-- A complete snapshot image. -/
def buildSnapshotImage (st : DurableState) : Bytes :=
  snapshotHeader st ++ st.encode ++ checksum (snapshotHeader st ++ st.encode)

/-- The state of a snapshot file, or why it does not verify. -/
def readSnapshot (limits : StoreLimits) (snapshot : Bytes) : Except String DurableState :=
  if snapshot.length < snapshotHeaderSize + recordTrailerSize then
    .error "snapshot is shorter than its header"
  else
    let declared := readLe snapshot 32 8
    let magicOk : Bool := slice snapshot 0 8 = snapshotMagic
    let headerOk := checksumAt snapshot 48 0 48
    let sizeOk : Bool := declared ≤ limits.maxSnapshotPayload ∧
      snapshot.length = snapshotHeaderSize + declared + recordTrailerSize
    let payloadOk := sizeOk && checksumAt snapshot 40 snapshotHeaderSize declared
    let trailerOk := sizeOk &&
      checksumAt snapshot (snapshotHeaderSize + declared) 0 (snapshotHeaderSize + declared)
    let schemaOk : Bool := readLe snapshot 8 4 = persistenceSchemaVersion
    if magicOk && headerOk && sizeOk && payloadOk && trailerOk && schemaOk then
      match DurableState.decode ⟨slice snapshot snapshotHeaderSize declared, 0⟩ with
      | some (decoded, cursor) =>
        if cursor.rest = [] then .ok { decoded with sequence := readLe snapshot 24 8 }
        else .error "snapshot payload does not decode"
      | none => .error "snapshot payload does not decode"
    else if ¬ magicOk then .error "snapshot magic mismatch"
    else if ¬ headerOk then .error "snapshot header checksum mismatch"
    else if ¬ schemaOk then .error "snapshot schema version is not supported by this build"
    else if ¬ sizeOk then .error "snapshot size does not match its declared payload length"
    else .error "snapshot payload checksum mismatch"

/-! ## Load -/

/-- What a load observed. -/
structure FileReport where
  snapshotPresent : Bool := false
  journalPresent : Bool := false
  truncatedTail : Bool := false
  corrupted : Bool := false
  snapshotSequence : Nat := 0
  recordsLoaded : Nat := 0
  recordsSkipped : Nat := 0
  bytesIgnored : Nat := 0
  corruptOffset : Nat := 0
  detail : String := ""
  deriving DecidableEq, Repr

/-- How far a journal scan got. -/
structure Scan where
  offset : Nat
  state : DurableState
  report : FileReport
  refused : Option Status := none

/-- Applies the records from the scan's offset on, up to the first unreadable one. -/
def scanJournal (limits : StoreLimits) (journal : Bytes) (snapshotSequence : Nat) :
    Nat → Scan → Scan
  | 0, s => s
  | fuel + 1, s =>
    if s.offset < journal.length then
      match probeRecord limits journal s.offset with
      | none => { s with report := { s.report with corruptOffset := s.offset } }
      | some b =>
        if b.sequence > snapshotSequence then
          match applyPayload s.state b.kind (slice journal b.payloadOffset b.payloadSize) with
          | none =>
            { s with
              report := { s.report with
                corrupted := true
                corruptOffset := s.offset
                detail := "journal record payload does not decode" }
              refused := some (err .corruptState "journal record payload does not decode") }
          | some st =>
            scanJournal limits journal snapshotSequence fuel { s with
              offset := s.offset + b.totalSize
              state := { st with sequence := b.sequence }
              report := { s.report with recordsLoaded := s.report.recordsLoaded + 1 } }
        else
          scanJournal limits journal snapshotSequence fuel { s with
            offset := s.offset + b.totalSize
            report := { s.report with recordsSkipped := s.report.recordsSkipped + 1 } }
    else s

/-- A readable record starts somewhere after `offset`. -/
def laterValidRecord (limits : StoreLimits) (journal : Bytes) (offset : Nat) : Bool :=
  (List.range' (offset + 1) (journal.length - (offset + recordHeaderSize + recordTrailerSize))).any
    fun scan => (probeRecord limits journal scan).isSome

/-- The status of a load, and what it left in its two results. -/
structure LoadOutcome where
  status : Option Status := none
  state : DurableState
  report : FileReport

/-- Tells a torn tail from corruption where the scan stopped. -/
def classifyTail (limits : StoreLimits) (journal : Bytes) (s : Scan) : LoadOutcome :=
  if s.offset < journal.length then
    let report := { s.report with bytesIgnored := journal.length - s.offset }
    if laterValidRecord limits journal s.offset then
      let detail := "journal contains an unreadable record followed by readable records"
      ⟨some (err .corruptState detail), s.state,
        { report with corrupted := true, detail := detail }⟩
    else
      ⟨none, s.state, { report with
        truncatedTail := true
        detail := if report.detail = "" then "journal tail is torn or incomplete"
          else report.detail }⟩
  else ⟨none, s.state, s.report⟩

/-- Replays a journal over the state the snapshot left. -/
def loadJournal (limits : StoreLimits) (journal : Bytes) (snapshotUsable : Bool)
    (snapshotSequence : Nat) (st : DurableState) (report : FileReport) : LoadOutcome :=
  match journalHeaderDefect journal "" with
  | some refused => ⟨some refused, st, report⟩
  | none =>
    let store := journalStore journal
    if snapshotUsable ∧ store.valid ∧ st.store.valid ∧ store ≠ st.store then
      ⟨some (err .corruptState "journal store id does not match the snapshot"), st, report⟩
    else
      let st := if st.store = .nil ∧ store ≠ .nil then { st with store := store } else st
      let s := scanJournal limits journal snapshotSequence journal.length
        { offset := journalHeaderSize, state := st, report := report }
      match s.refused with
      | some refused => ⟨some refused, s.state, s.report⟩
      | none => classifyTail limits journal s

structure Files where
  journal : Option Bytes := none
  snapshot : Option Bytes := none
  temporary : Option Bytes := none
  deriving DecidableEq, Repr

/-- `platform_read_file` of a file that exists. -/
def readFile (limit : Nat) (file : Bytes) : Except Status Bytes :=
  if file.length > limit then .error (err .limitExceeded "file exceeds the load limit: ")
  else .ok file

/-- `FileDurableStore::load` after the snapshot has been read. -/
def loadAfterSnapshot (limits : StoreLimits) (files : Files) (snapshotUsable : Bool)
    (snapshotSequence : Nat) (st : DurableState) (report : FileReport) : LoadOutcome :=
  match files.journal with
  | none =>
    if ¬ snapshotUsable then
      ⟨some (err .notFound "store has neither snapshot nor journal"), st, report⟩
    else ⟨none, st, report⟩
  | some journal =>
    match readFile limits.maxJournalLoadBytes journal with
    | .error refused => ⟨some refused, st, report⟩
    | .ok journal =>
      loadJournal limits journal snapshotUsable snapshotSequence st
        { report with journalPresent := true }

/-- `FileDurableStore::load` of the files of a directory into `out`, whose scalars survive. -/
def loadFiles (limits : StoreLimits) (files : Files) (out : DurableState) : LoadOutcome :=
  match files.snapshot with
  | none => loadAfterSnapshot limits files false 0 out.clear {}
  | some snapshot =>
    match readFile limits.maxSnapshotPayload snapshot with
    | .error refused => ⟨some refused, out.clear, {}⟩
    | .ok snapshot =>
      match readSnapshot limits snapshot with
      | .error detail =>
        ⟨some (err .corruptState ("snapshot failed verification: " ++ detail)), out.clear,
          { snapshotPresent := true, corrupted := true, detail := detail }⟩
      | .ok st =>
        loadAfterSnapshot limits files true st.sequence st
          { snapshotPresent := true, snapshotSequence := st.sequence }

/-! ## The open store -/

/-- The next value of a 64-bit counter. -/
def nextSequence (last : Nat) : Nat := (last + 1) % 2 ^ 64

/-- `FileDurableStore` over the bytes of its directory; `none` is a directory that does not
exist. -/
structure ByteStore where
  files : Option Files := none
  limits : StoreLimits := {}
  isOpen : Bool := false
  storeId : StoreId := .nil
  journalFirstSequence : Nat := 1
  lastSequence : Nat := 0

/-- How the writes and the flush of one append go. -/
inductive AppendFate
  | completed
  /-- The write failed after so many bytes of the image. -/
  | written (bytes : Nat)
  /-- The image was written, its flush failed. -/
  | unflushed
  deriving DecidableEq, Repr

namespace ByteStore

/-- The sequence number of the last readable record, from `offset` on. -/
def scanLast (limits : StoreLimits) (journal : Bytes) : Nat → Nat → Nat → Nat
  | 0, _, last => last
  | fuel + 1, offset, last =>
    if offset < journal.length then
      match probeRecord limits journal offset with
      | none => last
      | some b => scanLast limits journal fuel (offset + b.totalSize) b.sequence
    else last

/-- The part of `FileDurableStore::open` that reads the journal. -/
def readJournal (s : ByteStore) (journal : Bytes) : Except Status Unit × ByteStore :=
  match readFile s.limits.maxJournalLoadBytes journal with
  | .error refused => (.error refused, s)
  | .ok journal =>
    match journalHeaderDefect journal ": " with
    | some refused => (.error refused, s)
    | none =>
      let s := { s with storeId := journalStore journal }
      if s.storeId = .nil then
        (.error (err .corruptState "journal header carries a nil store id"), s)
      else
        let first := readLe journal 24 8
        let last := scanLast s.limits journal journal.length journalHeaderSize
          ((first + (2 ^ 64 - 1)) % 2 ^ 64)
        (.ok (), { s with isOpen := true, journalFirstSequence := first, lastSequence := last })

/-- `FileDurableStore::open`. A tail that does not read as a record stays in the file: the append
handle is moved before it, but the file is open for appending. -/
def openStore (s : ByteStore) (createIfMissing : Bool) (limits : StoreLimits) (entropy : UInt64) :
    Except Status Unit × ByteStore :=
  if s.isOpen then (.error (err .invalidArgument "store is already open"), s)
  else
    let s := { s with limits := limits }
    match s.files, createIfMissing with
    | none, false => (.error (err .notFound "store directory does not exist: "), s)
    | found, _ =>
      let files := found.getD {}
      match files.journal, createIfMissing with
      | none, false => (.error (err .notFound "journal missing in store: "), s)
      | journal, _ =>
        let journal := journal.getD (journalHeader ⟨entropy⟩ 1)
        readJournal { s with files := some { files with journal := some journal } } journal

/-- `FileDurableStore::append`. The file is open for appending, so the image goes to its end. -/
def append (s : ByteStore) (kind : RecordKind) (payload : Bytes) :
    Except Status Nat × ByteStore :=
  if ¬ s.isOpen then (.error (err .persistenceFailure "store is not open"), s)
  else if payload.length > s.limits.maxJournalPayload then
    (.error (err .limitExceeded "journal record payload exceeds the configured limit"), s)
  else
    let sequence := nextSequence s.lastSequence
    let image := buildRecordImage kind sequence payload
    (.ok sequence, { s with
      files := s.files.map fun files => { files with
        journal := files.journal.map fun journal => journal ++ image }
      lastSequence := sequence })

/-- `FileDurableStore::append` when its I/O may fail: what was written before the failure stays in
the file, and the number of the record is not used up. -/
def appendUnder (fate : AppendFate) (s : ByteStore) (kind : RecordKind) (payload : Bytes) :
    Except Status Nat × ByteStore :=
  if ¬ s.isOpen then (.error (err .persistenceFailure "store is not open"), s)
  else if payload.length > s.limits.maxJournalPayload then
    (.error (err .limitExceeded "journal record payload exceeds the configured limit"), s)
  else
    let sequence := nextSequence s.lastSequence
    let image := buildRecordImage kind sequence payload
    let grown := fun (bytes : Bytes) => s.files.map fun files => { files with
      journal := files.journal.map fun journal => journal ++ bytes }
    match fate with
    | .completed => (.ok sequence, { s with files := grown image, lastSequence := sequence })
    | .written bytes =>
      (.error (err .persistenceFailure "write failed"), { s with files := grown (image.take bytes) })
    | .unflushed => (.error (err .persistenceFailure "fsync failed"), { s with files := grown image })

/-- `FileDurableStore::load`. -/
def load (s : ByteStore) (out : DurableState) : LoadOutcome :=
  loadFiles s.limits (s.files.getD {}) out

def close (s : ByteStore) : ByteStore := { s with isOpen := false }

end ByteStore

/-! ## Snapshots and compaction -/

/-- What `write_snapshot` does to the files of a directory. -/
inductive FileOp
  | truncateTemporary
  | writeTemporary (bytes : Bytes)
  /-- Renames the temporary file to the snapshot. -/
  | replaceSnapshot
  | removeJournal
  | truncateJournal
  | writeJournal (bytes : Bytes)
  deriving DecidableEq, Repr

def FileOp.apply (op : FileOp) (files : Files) : Files :=
  match op with
  | .truncateTemporary => { files with temporary := some [] }
  | .writeTemporary bytes => { files with temporary := files.temporary.map (· ++ bytes) }
  | .replaceSnapshot => { files with snapshot := files.temporary, temporary := none }
  | .removeJournal => { files with journal := none }
  | .truncateJournal => { files with journal := some [] }
  | .writeJournal bytes => { files with journal := files.journal.map (· ++ bytes) }

/-- The file operations of `FileDurableStore::write_snapshot`, in order. -/
def snapshotOps (st : DurableState) (truncateJournal : Bool) : List FileOp :=
  [.truncateTemporary, .writeTemporary (buildSnapshotImage st), .replaceSnapshot] ++
    if truncateJournal then
      [.removeJournal, .truncateJournal,
        .writeJournal (journalHeader st.store (nextSequence st.sequence))]
    else []

/-- `FileDurableStore::write_snapshot`. -/
def ByteStore.writeSnapshot (s : ByteStore) (st : DurableState) (truncateJournal : Bool) :
    Except Status Unit × ByteStore :=
  if ¬ s.isOpen then (.error (err .persistenceFailure "store is not open"), s)
  else if (buildSnapshotImage st).length > s.limits.maxSnapshotPayload then
    (.error (err .limitExceeded "snapshot exceeds the configured limit"), s)
  else
    let s := { s with
      files := s.files.map fun files =>
        (snapshotOps st truncateJournal).foldl (fun files op => op.apply files) files }
    if truncateJournal then
      (.ok (), { s with
        journalFirstSequence := nextSequence st.sequence
        lastSequence := st.sequence })
    else (.ok (), s)

/-! ## Directories whose records are read back -/

/-- `apply_record` on a record as it is read back from its payload. -/
def applyReadBack (st : DurableState) (entry : JournalEntry) : Option DurableState :=
  if JournalEntry.decode entry.kind entry.encode = some entry then applyRecord st entry else none

/-- `replay` over payloads: a record that cannot be read back is refused. -/
def replayPayloads (snapshotSequence : Nat) (st : DurableState) (loaded : Nat) :
    List Sequenced → Except Status Nat × DurableState
  | [] => (.ok loaded, st)
  | r :: rest =>
    if r.sequence > snapshotSequence then
      match applyReadBack st r.entry with
      | none => (.error (err .corruptState "journal record payload does not decode"), st)
      | some st =>
        replayPayloads snapshotSequence { st with sequence := r.sequence } (loaded + 1) rest
    else replayPayloads snapshotSequence st loaded rest

/-- The snapshot of a directory, if it has one, can be read back. -/
def Directory.snapshotReads (d : Directory) : Bool :=
  d.snapshot.all fun st => st.fits && decide (st.encode.length ≤ maxTotal)

/-- `loadDirectory` over payloads. -/
def loadPayloads (d : Directory) (out : DurableState) : Except Status LoadReport × DurableState :=
  if ¬ d.snapshotReads then
    (.error (err .corruptState "snapshot failed verification: snapshot payload does not decode"),
      out.clear)
  else
    let base := loadBase d out
    if d.snapshot.isSome ∧ d.storeId ≠ .nil ∧ d.storeId ≠ base.store then
      (.error (err .corruptState "journal store id does not match the snapshot"), base)
    else
      let replayed := replayPayloads d.snapshotSequence base 0 d.records
      (replayed.1.map fun loaded =>
        { snapshotPresent := d.snapshot.isSome, recordsLoaded := loaded }, replayed.2)

end ExecutionFabric
