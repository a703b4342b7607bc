import ExecutionFabric.Model.Persistence

/-!
# Record images and the journal scan

A record image reads back as the record it was built from, wherever it stands; a cut
or substituted image does not read at all. The scan loops of `open` and `load` visit
the same boundaries, so one induction over the records serves both.
-/
namespace ExecutionFabric

open Lib

/-! ## Slices of a record image -/

/-- A record as it is handed to the journal writer. -/
structure JournalRecord where
  kind : RecordKind
  sequence : Nat
  payload : Bytes
  deriving DecidableEq, Repr

namespace JournalRecord

def image (r : JournalRecord) : Bytes := buildRecordImage r.kind r.sequence r.payload

def header (r : JournalRecord) : Bytes := recordHeader r.kind r.sequence r.payload

def fields (r : JournalRecord) : Bytes := recordFields r.kind r.sequence r.payload

/-- The payload is one `append` takes, and both words fit their 64 bits. -/
structure Within (limits : StoreLimits) (r : JournalRecord) : Prop where
  payload : r.payload.length ≤ limits.maxJournalPayload
  length : r.payload.length < 256 ^ 8
  sequence : r.sequence < 256 ^ 8

/-- What the reader makes of the image at an offset. -/
def boundary (r : JournalRecord) (offset : Nat) : RecordBoundary where
  kind := r.kind
  sequence := r.sequence
  payloadOffset := offset + 40
  payloadSize := r.payload.length
  totalSize := 40 + r.payload.length + 8

end JournalRecord

theorem length_fields (r : JournalRecord) : r.fields.length = 32 := by
  simp [JournalRecord.fields, recordFields]

theorem length_header (r : JournalRecord) : r.header.length = 40 := by
  have h := length_fields r
  rw [JournalRecord.fields] at h
  rw [JournalRecord.header, recordHeader, List.length_append, h, length_checksum]

theorem length_image (r : JournalRecord) : r.image.length = 40 + r.payload.length + 8 := by
  have h := length_header r
  rw [JournalRecord.header] at h
  rw [JournalRecord.image, buildRecordImage, List.length_append, List.length_append, h,
    length_checksum]

/-- The image split into its words. -/
theorem image_eq (r : JournalRecord) :
    r.image = leBytes 4 recordMagic ++ (leBytes 2 r.kind.number ++ (leBytes 2 0 ++
      (leBytes 8 r.sequence ++ (leBytes 8 r.payload.length ++ (checksum r.payload ++
        (checksum r.fields ++ (r.payload ++ checksum (r.header ++ r.payload)))))))) := by
  simp only [JournalRecord.image, buildRecordImage, JournalRecord.header, recordHeader,
    JournalRecord.fields, recordFields, List.append_assoc]

theorem slice_image_fields (r : JournalRecord) : slice r.image 0 32 = r.fields := by
  rw [show r.image = r.fields ++ (checksum r.fields ++ (r.payload ++
    checksum (r.header ++ r.payload))) by
      rw [image_eq]; simp only [JournalRecord.fields, recordFields, List.append_assoc]]
  rw [slice_append_left _ (by rw [length_fields]), ← length_fields r, slice_full]

theorem slice_image_payload (r : JournalRecord) :
    slice r.image 40 r.payload.length = r.payload := by
  rw [JournalRecord.image, buildRecordImage, List.append_assoc]
  exact slice_middle _ _ _ (length_header r) rfl

theorem slice_image_body (r : JournalRecord) :
    slice r.image 0 (40 + r.payload.length) = r.header ++ r.payload := by
  have hlength : (r.header ++ r.payload).length = 40 + r.payload.length := by
    rw [List.length_append, length_header]
  rw [show r.image = (r.header ++ r.payload) ++ checksum (r.header ++ r.payload) from rfl,
    slice_append_left _ (by omega), ← hlength, slice_full]

theorem readLe_image_magic (r : JournalRecord) : readLe r.image 0 4 = recordMagic := by
  have hmagic : recordMagic < 256 ^ 4 := by decide
  rw [image_eq]
  exact readLe_first _ hmagic

theorem readLe_image_kind (r : JournalRecord) : readLe r.image 4 2 = r.kind.number := by
  rw [image_eq]
  exact readLe_middle _ _ (length_leBytes _ _) r.kind.number_lt

theorem readLe_image_sequence (r : JournalRecord) (h : r.sequence < 256 ^ 8) :
    readLe r.image 8 8 = r.sequence := by
  rw [image_eq, ← List.append_assoc (leBytes 4 _), ← List.append_assoc (_ ++ _)]
  exact readLe_middle _ _ (by simp) h

theorem readLe_image_length (r : JournalRecord) (h : r.payload.length < 256 ^ 8) :
    readLe r.image 16 8 = r.payload.length := by
  rw [image_eq, ← List.append_assoc (leBytes 4 _), ← List.append_assoc (_ ++ _),
    ← List.append_assoc (_ ++ _)]
  exact readLe_middle _ _ (by simp) h

theorem checksumAt_image_payload (r : JournalRecord) :
    checksumAt r.image 24 40 r.payload.length = true := by
  have hslice := slice_image_payload r
  rw [image_eq, ← List.append_assoc (leBytes 4 _), ← List.append_assoc (_ ++ _),
    ← List.append_assoc (_ ++ _), ← List.append_assoc (_ ++ _)] at hslice ⊢
  exact checksumAt_middle _ _ hslice (by simp)

theorem checksumAt_image_header (r : JournalRecord) : checksumAt r.image 32 0 32 = true := by
  have hslice := slice_image_fields r
  rw [show r.image = r.fields ++ (checksum r.fields ++ (r.payload ++
    checksum (r.header ++ r.payload))) by
      rw [image_eq]; simp only [JournalRecord.fields, recordFields, List.append_assoc]] at hslice ⊢
  exact checksumAt_middle _ _ hslice (length_fields r)

theorem checksumAt_image_trailer (r : JournalRecord) :
    checksumAt r.image (40 + r.payload.length) 0 (40 + r.payload.length) = true := by
  have hslice := slice_image_body r
  rw [show r.image = (r.header ++ r.payload) ++ (checksum (r.header ++ r.payload) ++ []) by
    rw [List.append_nil]; rfl] at hslice ⊢
  exact checksumAt_middle _ _ hslice (by rw [List.length_append, length_header])

/-! ## Probing -/

theorem readLe_append_right (a d : Bytes) (offset size : Nat) :
    readLe (a ++ d) (a.length + offset) size = readLe d offset size := by
  rw [readLe, readLe, slice_append_right]

theorem readLe_append_left {a : Bytes} (d : Bytes) {offset size : Nat}
    (h : offset + size ≤ a.length) : readLe (a ++ d) offset size = readLe a offset size := by
  rw [readLe, readLe, slice_append_left d h]

theorem checksumAt_append_right (a d : Bytes) (offset start size : Nat) :
    checksumAt (a ++ d) (a.length + offset) (a.length + start) size =
      checksumAt d offset start size := by
  rw [checksumAt, checksumAt, readLe_append_right, slice_append_right]

theorem checksumAt_append_left {a : Bytes} (d : Bytes) {offset start size : Nat}
    (h : offset + 8 ≤ a.length) (h' : start + size ≤ a.length) :
    checksumAt (a ++ d) offset start size = checksumAt a offset start size := by
  rw [checksumAt, checksumAt, readLe_append_left d h, slice_append_left d h']

/-- The same boundary, `distance` bytes further on. -/
def RecordBoundary.shift (b : RecordBoundary) (distance : Nat) : RecordBoundary :=
  { b with payloadOffset := distance + b.payloadOffset }

/-- A probe sees only the bytes from its offset on. -/
theorem probeRecord_append_right (limits : StoreLimits) (a d : Bytes) (offset : Nat) :
    probeRecord limits (a ++ d) (a.length + offset) =
      (probeRecord limits d offset).map (·.shift a.length) := by
  unfold probeRecord
  simp only [Nat.add_assoc, List.length_append, readLe_append_right, checksumAt_append_right,
    gt_iff_lt, Nat.add_lt_add_iff_left]
  split
  · rfl
  split
  · rfl
  split
  · rfl
  cases RecordKind.ofNumber (readLe d (offset + 4) 2) with
  | none => rfl
  | some kind =>
    dsimp only
    split
    · rfl
    split
    · rfl
    split
    · rfl
    split
    · rfl
    · rfl

/-- What an accepted record has passed. -/
structure Probed (limits : StoreLimits) (data : Bytes) (offset : Nat) (b : RecordBoundary) : Prop where
  room : offset + (40 + readLe data (offset + 16) 8 + 8) ≤ data.length
  magic : readLe data offset 4 = recordMagic
  header : checksumAt data (offset + 32) offset 32 = true
  kind : RecordKind.ofNumber (readLe data (offset + 4) 2) = some b.kind
  limit : readLe data (offset + 16) 8 ≤ limits.maxJournalPayload
  payload : checksumAt data (offset + 24) (offset + 40) (readLe data (offset + 16) 8) = true
  trailer : checksumAt data (offset + 40 + readLe data (offset + 16) 8) offset
    (40 + readLe data (offset + 16) 8) = true
  sequence : b.sequence = readLe data (offset + 8) 8
  payloadOffset : b.payloadOffset = offset + 40
  payloadSize : b.payloadSize = readLe data (offset + 16) 8
  totalSize : b.totalSize = 40 + readLe data (offset + 16) 8 + 8

theorem probeRecord_eq_some_iff {limits : StoreLimits} {data : Bytes} {offset : Nat}
    {b : RecordBoundary} : probeRecord limits data offset = some b ↔ Probed limits data offset b := by
  unfold probeRecord
  constructor
  · intro h
    split at h
    · cases h
    split at h
    · cases h
    rename_i hmagic
    split at h
    · cases h
    rename_i hheader
    split at h
    · cases h
    rename_i kind hkind
    dsimp only at h
    split at h
    · cases h
    rename_i hlimit
    split at h
    · cases h
    rename_i hroom
    split at h
    · cases h
    rename_i hpayload
    split at h
    · cases h
    rename_i htrailer
    cases h
    exact {
      room := Nat.le_of_not_lt hroom
      magic := Decidable.not_not.mp hmagic
      header := Decidable.not_not.mp hheader
      kind := hkind
      limit := Nat.le_of_not_lt hlimit
      payload := Decidable.not_not.mp hpayload
      trailer := Decidable.not_not.mp htrailer
      sequence := rfl
      payloadOffset := rfl
      payloadSize := rfl
      totalSize := rfl }
  · intro h
    have hroom := h.room
    have hsmall : ¬ offset + 40 + 8 > data.length := by omega
    refine (if_neg hsmall).trans ?_
    rw [if_neg (not_not.mpr h.magic), if_neg (not_not.mpr h.header), h.kind]
    refine (if_neg (Nat.not_lt.mpr h.limit)).trans ?_
    refine (if_neg (Nat.not_lt.mpr hroom)).trans ?_
    refine (if_neg (not_not.mpr h.payload)).trans ?_
    refine (if_neg (not_not.mpr h.trailer)).trans ?_
    congr 1
    cases b
    simp only [RecordBoundary.mk.injEq]
    exact ⟨trivial, h.sequence.symm, h.payloadOffset.symm, h.payloadSize.symm, h.totalSize.symm⟩

/-- An image is read as the record it was built from. -/
theorem probeRecord_image {limits : StoreLimits} {r : JournalRecord} (h : r.Within limits)
    (rest : Bytes) : probeRecord limits (r.image ++ rest) 0 = some (r.boundary 0) := by
  have hlength := length_image r
  have hsize : readLe (r.image ++ rest) (0 + 16) 8 = r.payload.length := by
    rw [readLe_append_left rest (by omega)]
    exact readLe_image_length r h.length
  apply probeRecord_eq_some_iff.mpr
  refine { room := ?_, magic := ?_, header := ?_, kind := ?_, limit := ?_, payload := ?_,
           trailer := ?_, sequence := ?_, payloadOffset := rfl, payloadSize := hsize.symm,
           totalSize := ?_ }
  · rw [hsize, List.length_append]
    omega
  · rw [readLe_append_left rest (by omega), readLe_image_magic]
  · rw [checksumAt_append_left rest (by omega) (by omega)]
    exact checksumAt_image_header r
  · rw [readLe_append_left rest (by omega)]
    exact (congrArg RecordKind.ofNumber (readLe_image_kind r)).trans r.kind.ofNumber_number
  · rw [hsize]
    exact h.payload
  · rw [hsize, checksumAt_append_left rest (by omega) (by omega)]
    exact checksumAt_image_payload r
  · rw [hsize, checksumAt_append_left rest (by omega) (by omega)]
    simp only [Nat.zero_add]
    exact checksumAt_image_trailer r
  · rw [readLe_append_left rest (by omega)]
    exact (readLe_image_sequence r h.sequence).symm
  · rw [hsize]
    rfl

/-- A cut image is not read as a record. -/
theorem probeRecord_take {limits : StoreLimits} {r : JournalRecord} (h : r.Within limits)
    {kept : Nat} (hkept : kept < r.image.length) :
    probeRecord limits (r.image.take kept) 0 = none := by
  cases hprobe : probeRecord limits (r.image.take kept) 0 with
  | none => rfl
  | some b =>
    exfalso
    have hroom := (probeRecord_eq_some_iff.mp hprobe).room
    have hlength := length_image r
    rw [List.length_take] at hroom
    have hsize : readLe (r.image.take kept) (0 + 16) 8 = r.payload.length := by
      rw [readLe, slice_take (by omega)]
      exact readLe_image_length r h.length
    rw [hsize] at hroom
    omega

/-! ## One substituted byte -/

theorem leWord_set_ne {data : Bytes} {i : Nat} {v : UInt8} (h : i < data.length)
    (hne : data[i] ≠ v) : leWord (data.set i v) ≠ leWord data := by
  intro he
  exact set_ne h hne (leWord_inj (List.length_set ..) he)

/-- A substitution in the checked bytes shows against the checksum stored elsewhere. -/
theorem checksumAt_set_data {data : Bytes} {i offset start size : Nat} {v : UInt8}
    (hchecked : checksumAt data offset start size = true) (hi : i < data.length)
    (hne : data[i] ≠ v) (hin : start ≤ i ∧ i < start + size) (hroom : start + size ≤ data.length)
    (hout : i < offset ∨ offset + 8 ≤ i) : checksumAt (data.set i v) offset start size = false := by
  rw [checksumAt, decide_eq_true_eq, readLe] at hchecked
  rw [checksumAt, decide_eq_false_iff_not, readLe, slice_set_of_not_mem v hout, hchecked,
    slice_set_of_mem v hin.1]
  intro he
  have hlength : i - start < (slice data start size).length := by
    rw [length_slice_of_le hroom]
    omega
  have hget : (slice data start size)[i - start] = data[i] := by
    simp only [slice, List.getElem_take, List.getElem_drop]
    congr 1
    omega
  exact crc64Ecma_set_ne hlength (by rw [hget]; exact hne) (UInt64.toNat_inj.mp he).symm

/-- A substitution in a stored checksum shows against the checked bytes. -/
theorem checksumAt_set_word {data : Bytes} {i offset start size : Nat} {v : UInt8}
    (hchecked : checksumAt data offset start size = true) (hi : i < data.length)
    (hne : data[i] ≠ v) (hin : offset ≤ i ∧ i < offset + 8) (hroom : offset + 8 ≤ data.length)
    (hout : i < start ∨ start + size ≤ i) : checksumAt (data.set i v) offset start size = false := by
  rw [checksumAt, decide_eq_true_eq, readLe] at hchecked
  rw [checksumAt, decide_eq_false_iff_not, readLe, slice_set_of_not_mem v hout, ← hchecked,
    slice_set_of_mem v hin.1]
  have hlength : i - offset < (slice data offset 8).length := by
    rw [length_slice_of_le hroom]
    omega
  have hget : (slice data offset 8)[i - offset] = data[i] := by
    simp only [slice, List.getElem_take, List.getElem_drop]
    congr 1
    omega
  exact leWord_set_ne hlength (by rw [hget]; exact hne)

theorem readLe_set_of_not_mem {data : Bytes} {i offset size : Nat} (v : UInt8)
    (h : i < offset ∨ offset + size ≤ i) :
    readLe (data.set i v) offset size = readLe data offset size := by
  rw [readLe, slice_set_of_not_mem v h, readLe]

/-- An image with one byte substituted is not read as a record: every byte is under the header
checksum, the payload checksum or the trailer, or is part of one of them. -/
theorem probeRecord_set {limits : StoreLimits} {r : JournalRecord} (h : r.Within limits)
    {rest : Bytes} {i : Nat} {v : UInt8} (hi : i < r.image.length)
    (hne : (r.image ++ rest)[i]? ≠ some v) :
    probeRecord limits ((r.image ++ rest).set i v) 0 = none := by
  have hlength := length_image r
  have hi' : i < (r.image ++ rest).length := by
    rw [List.length_append]
    omega
  rw [List.getElem?_eq_getElem hi'] at hne
  have hne' : (r.image ++ rest)[i] ≠ v := fun he => hne (congrArg some he)
  have hdata := probeRecord_eq_some_iff.mp (probeRecord_image h rest)
  have hsize : readLe (r.image ++ rest) (0 + 16) 8 = r.payload.length := hdata.payloadSize.symm
  have hroom := hdata.room
  cases hprobe : probeRecord limits ((r.image ++ rest).set i v) 0 with
  | none => rfl
  | some b =>
    exfalso
    have hb := probeRecord_eq_some_iff.mp hprobe
    by_cases hheader : i < 40
    · -- the header checksum covers the first 32 bytes and is the next 8
      have hfalse : checksumAt ((r.image ++ rest).set i v) (0 + 32) 0 32 = false := by
        by_cases hfields : i < 32
        · exact checksumAt_set_data hdata.header hi' hne' (by omega) (by omega) (by omega)
        · exact checksumAt_set_word hdata.header hi' hne' (by omega) (by omega) (by omega)
      exact Bool.false_ne_true (hfalse.symm.trans hb.header)
    · -- the declared size is intact, so the payload and the trailer are where they were
      have hsize' : readLe ((r.image ++ rest).set i v) (0 + 16) 8 = r.payload.length := by
        rw [readLe_set_of_not_mem v (by omega), hsize]
      have hpayload := hdata.payload
      have htrailer := hdata.trailer
      have hpayload' := hb.payload
      have htrailer' := hb.trailer
      rw [hsize] at hpayload htrailer hroom
      rw [hsize'] at hpayload' htrailer'
      by_cases hin : i < 40 + r.payload.length
      · rw [checksumAt_set_data hpayload hi' hne' (by omega) (by omega) (by omega)] at hpayload'
        exact Bool.false_ne_true hpayload'
      · rw [checksumAt_set_word htrailer hi' hne' (by omega) (by omega) (by omega)] at htrailer'
        exact Bool.false_ne_true htrailer'

/-! ## The scan -/

/-- The boundaries a scan loop visits from `offset` on, and where it stops. -/
def visit (limits : StoreLimits) (journal : Bytes) : Nat → Nat → List RecordBoundary × Nat
  | 0, offset => ([], offset)
  | fuel + 1, offset =>
    if offset < journal.length then
      match probeRecord limits journal offset with
      | none => ([], offset)
      | some b =>
        let rest := visit limits journal fuel (offset + b.totalSize)
        (b :: rest.1, rest.2)
    else ([], offset)

/-- What the load does at one visited record, unless an earlier one was refused. -/
def Scan.take (journal : Bytes) (snapshotSequence : Nat) (s : Scan) (b : RecordBoundary) : Scan :=
  if s.refused.isSome then s
  else if b.sequence > snapshotSequence then
    match applyPayload s.state b.kind (slice journal b.payloadOffset b.payloadSize) with
    | none =>
      { s with
        report := { s.report with
          corrupted := true
          corruptOffset := s.offset
          detail := "journal record payload does not decode" }
        refused := some (err .corruptState "journal record payload does not decode") }
    | some st =>
      { s with
        offset := s.offset + b.totalSize
        state := { st with sequence := b.sequence }
        report := { s.report with recordsLoaded := s.report.recordsLoaded + 1 } }
  else
    { s with
      offset := s.offset + b.totalSize
      report := { s.report with recordsSkipped := s.report.recordsSkipped + 1 } }

/-- What the load notes where the scan stopped before the end of the file. -/
def Scan.stop (journal : Bytes) (s : Scan) : Scan :=
  if s.refused.isSome then s
  else if s.offset < journal.length then
    { s with report := { s.report with corruptOffset := s.offset } }
  else s

theorem Scan.stop_of_refused (journal : Bytes) {s : Scan} (h : s.refused.isSome = true) :
    s.stop journal = s := if_pos h

theorem Scan.foldl_take_of_refused (journal : Bytes) (snapshotSequence : Nat) {s : Scan}
    (h : s.refused.isSome = true) (bs : List RecordBoundary) :
    bs.foldl (Scan.take journal snapshotSequence) s = s := by
  induction bs with
  | nil => rfl
  | cons b bs ih => rw [List.foldl_cons, Scan.take, if_pos h, ih]

theorem Probed.totalSize_pos {limits : StoreLimits} {data : Bytes} {offset : Nat}
    {b : RecordBoundary} (h : Probed limits data offset b) : 48 ≤ b.totalSize := by
  rw [h.totalSize]
  omega

/-- The load goes through the records `visit` lists, in that order. -/
theorem scanJournal_eq (limits : StoreLimits) (journal : Bytes) (snapshotSequence : Nat)
    (fuel : Nat) (s : Scan) (hs : s.refused = none) (hfuel : journal.length < s.offset + fuel) :
    scanJournal limits journal snapshotSequence fuel s =
      Scan.stop journal ((visit limits journal fuel s.offset).1.foldl
        (Scan.take journal snapshotSequence) s) := by
  induction fuel generalizing s with
  | zero =>
    rw [scanJournal, visit, List.foldl_nil, Scan.stop, hs, if_neg (by simp), if_neg (by omega)]
  | succ fuel ih =>
    rw [scanJournal, visit]
    by_cases hend : s.offset < journal.length
    · rw [if_pos hend, if_pos hend]
      cases hprobe : probeRecord limits journal s.offset with
      | none =>
        dsimp only
        rw [List.foldl_nil, Scan.stop, hs, if_neg (by simp), if_pos hend]
      | some b =>
        have hpos := (probeRecord_eq_some_iff.mp hprobe).totalSize_pos
        have hnot : ¬ s.refused.isSome := by rw [hs]; simp
        dsimp only
        rw [List.foldl_cons, Scan.take, if_neg hnot]
        by_cases hnew : b.sequence > snapshotSequence
        · rw [if_pos hnew, if_pos hnew]
          cases happly : applyPayload s.state b.kind
              (slice journal b.payloadOffset b.payloadSize) with
          | none =>
            dsimp only
            rw [Scan.foldl_take_of_refused _ _ rfl, Scan.stop_of_refused _ rfl]
          | some st =>
            dsimp only
            refine ih _ ?_ ?_
            · exact hs
            · dsimp only
              omega
        · rw [if_neg hnew, if_neg hnew]
          refine ih _ ?_ ?_
          · exact hs
          · dsimp only
            omega
    · rw [if_neg hend, if_neg hend]
      dsimp only
      rw [List.foldl_nil, Scan.stop, hs, if_neg (by simp), if_neg hend]

/-- The open goes through the same records. -/
theorem scanLast_eq (limits : StoreLimits) (journal : Bytes) (fuel offset last : Nat) :
    ByteStore.scanLast limits journal fuel offset last =
      (visit limits journal fuel offset).1.foldl (fun _ b => b.sequence) last := by
  induction fuel generalizing offset last with
  | zero => rfl
  | succ fuel ih =>
    rw [ByteStore.scanLast, visit]
    by_cases hend : offset < journal.length
    · rw [if_pos hend, if_pos hend]
      cases probeRecord limits journal offset with
      | none => rfl
      | some b =>
        dsimp only
        rw [List.foldl_cons, ih]
    · rw [if_neg hend, if_neg hend]
      rfl

/-! ## A journal of records -/

namespace JournalRecord

/-- The images of the records one after the other. -/
def images (rs : List JournalRecord) : Bytes := rs.flatMap image

/-- The boundaries of the records of a journal from `offset` on. -/
def boundaries : List JournalRecord → Nat → List RecordBoundary
  | [], _ => []
  | r :: rs, offset => r.boundary offset :: boundaries rs (offset + r.image.length)

theorem length_image_pos (r : JournalRecord) : 48 ≤ r.image.length := by
  rw [length_image]
  omega

theorem boundary_shift (r : JournalRecord) (offset : Nat) :
    (r.boundary 0).shift offset = r.boundary offset := by
  rw [RecordBoundary.shift, boundary, boundary, Nat.zero_add]

end JournalRecord

open JournalRecord

/-- At the start of an image anywhere in a journal, the probe finds its record. -/
theorem probeRecord_at {limits : StoreLimits} {r : JournalRecord} (h : r.Within limits)
    (a rest : Bytes) : probeRecord limits (a ++ (r.image ++ rest)) a.length =
      some (r.boundary a.length) := by
  have hshift := probeRecord_append_right limits a (r.image ++ rest) 0
  rw [Nat.add_zero] at hshift
  rw [hshift, probeRecord_image h, Option.map_some, boundary_shift]

/-- The scan visits exactly the records of a journal and stops where a tail starts that does not
read as a record. -/
theorem visit_images {limits : StoreLimits} {rs : List JournalRecord}
    (hrs : ∀ r ∈ rs, r.Within limits) {a tail : Bytes}
    (htail : tail = [] ∨ probeRecord limits tail 0 = none) {fuel : Nat} (hfuel : rs.length < fuel) :
    visit limits (a ++ (images rs ++ tail)) fuel a.length =
      (boundaries rs a.length, a.length + (images rs).length) := by
  induction rs generalizing a fuel with
  | nil =>
    obtain ⟨fuel, rfl⟩ : ∃ n, fuel = n + 1 := ⟨fuel - 1, by omega⟩
    rw [visit]
    split
    · rename_i hmore
      have htail' : probeRecord limits tail 0 = none := by
        rcases htail with rfl | h
        · simp [images] at hmore
        · exact h
      have hshift := probeRecord_append_right limits a tail 0
      rw [Nat.add_zero, htail', Option.map_none] at hshift
      rw [show images [] ++ tail = tail from rfl, hshift]
      rfl
    · rfl
  | cons r rs ih =>
    obtain ⟨fuel, rfl⟩ : ∃ n, fuel = n + 1 := ⟨fuel - 1, by simp at hfuel; omega⟩
    have hr := hrs r List.mem_cons_self
    have hpos := r.length_image_pos
    have hcat : a ++ (images (r :: rs) ++ tail) = a ++ (r.image ++ (images rs ++ tail)) := by
      simp only [images, List.flatMap_cons, List.append_assoc]
    rw [hcat, visit, if_pos (by simp only [List.length_append]; omega), probeRecord_at hr]
    dsimp only
    have hfuel' : rs.length < fuel := Nat.lt_of_succ_lt_succ hfuel
    have hrest := ih (fun x hx => hrs x (List.mem_cons_of_mem _ hx)) (a := a ++ r.image) hfuel'
    rw [List.append_assoc, List.length_append] at hrest
    rw [show (r.boundary a.length).totalSize = r.image.length from (length_image r).symm, hrest]
    simp only [boundaries, images, List.flatMap_cons, List.length_append, Nat.add_assoc]

theorem length_images (rs : List JournalRecord) : 48 * rs.length ≤ (images rs).length := by
  induction rs with
  | nil => exact Nat.le_refl 0
  | cons r rs ih =>
    have hpos := r.length_image_pos
    rw [images] at ih
    rw [images, List.flatMap_cons, List.length_append, List.length_cons]
    omega

/-! ## The journal header -/

/-- The fields of a journal header its checksum covers. -/
def journalFields (store : StoreId) (firstSequence : Nat) : Bytes :=
  journalMagic ++ leBytes 4 persistenceSchemaVersion ++ leBytes 2 0 ++ leBytes 2 0 ++
    leBytes 8 store.value.toNat ++ leBytes 8 firstSequence

theorem journalHeader_eq (store : StoreId) (firstSequence : Nat) :
    journalHeader store firstSequence =
      journalFields store firstSequence ++ checksum (journalFields store firstSequence) := rfl

theorem length_journalFields (store : StoreId) (firstSequence : Nat) :
    (journalFields store firstSequence).length = 32 := by
  simp [journalFields, journalMagic]

theorem length_journalHeader (store : StoreId) (firstSequence : Nat) :
    (journalHeader store firstSequence).length = 40 := by
  rw [journalHeader_eq, List.length_append, length_journalFields, length_checksum]

section Header

variable (store : StoreId) (firstSequence : Nat) (rest : Bytes)

theorem checksumAt_journalHeader :
    checksumAt (journalHeader store firstSequence ++ rest) 32 0 32 = true := by
  rw [journalHeader_eq, List.append_assoc]
  refine checksumAt_middle _ _ ?_ (length_journalFields store firstSequence)
  rw [slice_append_left _ (by rw [length_journalFields]), ← length_journalFields store firstSequence,
    slice_full]

theorem journalHeaderDefect_journalHeader (place : String) :
    journalHeaderDefect (journalHeader store firstSequence ++ rest) place = none := by
  have hlength := length_journalHeader store firstSequence
  unfold journalHeaderDefect
  rw [if_neg (by rw [List.length_append, journalHeaderSize]; omega), if_neg, if_neg, if_neg]
  · rw [not_not, journalHeader_eq, journalFields, List.append_assoc, List.append_assoc,
      List.append_assoc, List.append_assoc, List.append_assoc, List.append_assoc]
    exact readLe_middle journalMagic _ rfl (by decide)
  · rw [not_not]
    exact checksumAt_journalHeader store firstSequence rest
  · rw [not_not, journalHeader_eq, journalFields, List.append_assoc, List.append_assoc,
      List.append_assoc, List.append_assoc, List.append_assoc, List.append_assoc,
      slice_append_left _ (by decide)]
    rfl

theorem journalStore_journalHeader :
    journalStore (journalHeader store firstSequence ++ rest) = store := by
  have hword : readLe (journalHeader store firstSequence ++ rest) 16 8 = store.value.toNat := by
    rw [journalHeader_eq, journalFields, List.append_assoc, List.append_assoc, List.append_assoc]
    refine readLe_middle _ _ ?_ store.value.toNat_lt
    simp [journalMagic]
  rw [journalStore, hword, UInt64.ofNat_toNat]

theorem readLe_journalHeader_first (h : firstSequence < 256 ^ 8) :
    readLe (journalHeader store firstSequence ++ rest) 24 8 = firstSequence := by
  rw [journalHeader_eq, journalFields, List.append_assoc, List.append_assoc]
  refine readLe_middle _ _ ?_ h
  simp [journalMagic]

end Header

/-! ## The journal round trip -/

/-- The records a list of payloads becomes when the first one is numbered `first`. -/
def numbered (first : Nat) (entries : List (RecordKind × Bytes)) : List JournalRecord :=
  entries.mapIdx fun i e => ⟨e.1, (first + i) % 2 ^ 64, e.2⟩

/-- A journal that was written record by record. -/
def journalFile (store : StoreId) (first : Nat) (rs : List JournalRecord) : Bytes :=
  journalHeader store first ++ images rs

theorem within_numbered {limits : StoreLimits} (hlimits : limits.maxJournalPayload < 2 ^ 64)
    {first : Nat} {entries : List (RecordKind × Bytes)}
    (h : ∀ e ∈ entries, e.2.length ≤ limits.maxJournalPayload) :
    ∀ r ∈ numbered first entries, r.Within limits := by
  intro r hr
  obtain ⟨i, hi, rfl⟩ := List.mem_mapIdx.mp hr
  have hpayload := h _ (List.getElem_mem hi)
  exact ⟨hpayload, Nat.lt_of_le_of_lt hpayload hlimits, Nat.mod_lt _ (by decide)⟩

/-- The payload bytes at a record's boundary are the record's payload. -/
theorem slice_boundary (a rest : Bytes) (r : JournalRecord) :
    slice (a ++ (r.image ++ rest)) (r.boundary a.length).payloadOffset
      (r.boundary a.length).payloadSize = r.payload := by
  have hlength := length_image r
  change slice _ (a.length + 40) r.payload.length = _
  rw [slice_append_right, slice_append_left rest (by omega), slice_image_payload]

theorem map_boundaries (a : Bytes) (rs : List JournalRecord) (tail : Bytes) :
    (boundaries rs a.length).map (fun b => JournalRecord.mk b.kind b.sequence
      (slice (a ++ (images rs ++ tail)) b.payloadOffset b.payloadSize)) = rs := by
  induction rs generalizing a with
  | nil => rfl
  | cons r rs ih =>
    have hcat : a ++ (images (r :: rs) ++ tail) = a ++ (r.image ++ (images rs ++ tail)) := by
      simp only [images, List.flatMap_cons, List.append_assoc]
    have hrest := ih (a ++ r.image)
    rw [List.length_append, List.append_assoc] at hrest
    rw [boundaries, List.map_cons, hcat, slice_boundary, hrest]
    rfl

theorem foldl_sequence_boundaries (rs : List JournalRecord) (offset last : Nat) :
    (boundaries rs offset).foldl (fun _ b => b.sequence) last =
      ((rs.getLast?).map JournalRecord.sequence).getD last := by
  induction rs generalizing offset last with
  | nil => rfl
  | cons r rs ih =>
    rw [boundaries, List.foldl_cons, ih]
    cases rs with
    | nil => rfl
    | cons r' rs => rw [List.getLast?_cons_cons, List.getLast?_cons]; rfl

/-- Over a written journal the scan visits exactly its records and ends at its end. -/
theorem visit_journalFile {limits : StoreLimits} (store : StoreId) (first : Nat)
    {rs : List JournalRecord} (hrs : ∀ r ∈ rs, r.Within limits) :
    visit limits (journalFile store first rs) (journalFile store first rs).length 40 =
      (boundaries rs 40, (journalFile store first rs).length) := by
  have hheader := length_journalHeader store first
  have himages := length_images rs
  have hvisit := visit_images hrs (a := journalHeader store first) (.inl rfl)
    (show rs.length < (journalFile store first rs).length by
      rw [journalFile, List.length_append]
      omega)
  rw [List.append_nil, hheader] at hvisit
  rw [journalFile] at hvisit ⊢
  rw [hvisit, List.length_append, hheader]

/-- Over a written journal the load goes through exactly its records. -/
theorem scanJournal_journalFile {limits : StoreLimits} (store : StoreId) (first : Nat)
    {rs : List JournalRecord} (hrs : ∀ r ∈ rs, r.Within limits) (n : Nat) {start : Scan}
    (hrefused : start.refused = none) (hoffset : start.offset = 40) :
    let journal := journalFile store first rs
    scanJournal limits journal n journal.length start =
      Scan.stop journal ((boundaries rs 40).foldl (Scan.take journal n) start) := by
  intro journal
  rw [scanJournal_eq limits journal n journal.length start hrefused (by omega), hoffset,
    visit_journalFile store first hrs]

/-- The load of a journal with a good header, of the store of the snapshot if there is one. -/
theorem loadJournal_eq {limits : StoreLimits} {journal : Bytes} {usable : Bool} {st : DurableState}
    (hheader : journalHeaderDefect journal "" = none)
    (hsame : ¬ (usable = true ∧ (journalStore journal).valid = true ∧ st.store.valid = true ∧
      journalStore journal ≠ st.store)) (n : Nat) (report : FileReport) :
    let s := scanJournal limits journal n journal.length
      { offset := 40
        state := if st.store = .nil ∧ journalStore journal ≠ .nil
          then { st with store := journalStore journal } else st
        report := report }
    loadJournal limits journal usable n st report =
      s.refused.elim (classifyTail limits journal s) fun refused =>
        ⟨some refused, s.state, s.report⟩ := by
  intro s
  unfold loadJournal
  rw [hheader]
  dsimp only
  rw [if_neg hsame]
  split
  next hs => rw [show s.refused = _ from hs, Option.elim_some]; rfl
  next hs => rw [show s.refused = _ from hs, Option.elim_none]; rfl

/-- Opening a store whose journal is intact. -/
theorem openStore_of_journal {s : ByteStore} {files : Files} {journal : Bytes}
    (hclosed : s.isOpen = false) (hfiles : s.files = some files)
    (hjournal : files.journal = some journal) {limits : StoreLimits}
    (hsize : journal.length ≤ limits.maxJournalLoadBytes)
    (hheader : journalHeaderDefect journal ": " = none) (hstore : journalStore journal ≠ .nil)
    (create : Bool) (entropy : UInt64) :
    s.openStore create limits entropy = (.ok (), { s with
      limits := limits
      storeId := journalStore journal
      isOpen := true
      journalFirstSequence := readLe journal 24 8
      lastSequence := ByteStore.scanLast limits journal journal.length journalHeaderSize
        ((readLe journal 24 8 + (2 ^ 64 - 1)) % 2 ^ 64) }) := by
  have hsame : { files with journal := some journal } = files := by
    cases files
    cases hjournal
    rfl
  unfold ByteStore.openStore
  rw [hclosed, if_neg (by simp)]
  dsimp only
  rw [hfiles]
  cases create <;> dsimp only [Option.getD] <;> rw [hjournal] <;> dsimp only [Option.getD] <;>
    rw [hsame, ByteStore.readJournal, readFile, if_neg (Nat.not_lt.mpr hsize)] <;> dsimp only <;>
    rw [hheader] <;> dsimp only <;> rw [if_neg hstore, ← hfiles]

/-- The scan of `load` and of `open` over a written journal: it visits exactly the records that were
written, with their kinds, consecutive numbers and payloads, and ends at the end of the file. -/
theorem journal_scan_round_trip (limits : StoreLimits)
    (hlimits : limits.maxJournalPayload < 2 ^ 64) (store : StoreId) (first : UInt64)
    (entries : List (RecordKind × Bytes))
    (hentries : ∀ e ∈ entries, e.2.length ≤ limits.maxJournalPayload) :
    let rs := numbered first.toNat entries
    let journal := journalFile store first.toNat rs
    let visited := visit limits journal journal.length journalHeaderSize
    visited.1.map (fun b => JournalRecord.mk b.kind b.sequence
      (slice journal b.payloadOffset b.payloadSize)) = rs ∧
    visited.2 = journal.length ∧
    (∀ snapshotSequence (s : Scan), s.offset = journalHeaderSize → s.refused = none →
      scanJournal limits journal snapshotSequence journal.length s =
        (visited.1.foldl (Scan.take journal snapshotSequence) s).stop journal) ∧
    ∀ (s : ByteStore) (files : Files) (create : Bool) (entropy : UInt64), s.isOpen = false →
      s.files = some files → files.journal = some journal → store ≠ .nil →
      journal.length ≤ limits.maxJournalLoadBytes →
      (s.openStore create limits entropy).1 = .ok () ∧
      (s.openStore create limits entropy).2.lastSequence =
        ((rs.getLast?).map JournalRecord.sequence).getD ((first.toNat + (2 ^ 64 - 1)) % 2 ^ 64) := by
  intro rs journal visited
  have hvisited : visited = (boundaries rs 40, journal.length) :=
    visit_journalFile store first.toNat (within_numbered hlimits hentries)
  have hheader := length_journalHeader store first.toNat
  have hmap := map_boundaries (journalHeader store first.toNat) rs []
  rw [List.append_nil, hheader] at hmap
  refine ⟨?_, ?_, ?_, ?_⟩
  · rw [hvisited]
    exact hmap
  · rw [hvisited]
  · intro snapshotSequence s hoffset hrefused
    have hscan := scanJournal_eq limits journal snapshotSequence journal.length s hrefused
      (by rw [hoffset, journalHeaderSize]; omega)
    rw [hoffset] at hscan
    exact hscan
  · intro s files create entropy hclosed hfiles hjournal hstore hsize
    have hopen := openStore_of_journal hclosed hfiles hjournal hsize
      (journalHeaderDefect_journalHeader store first.toNat (images rs) ": ")
      (by rw [show journal = journalHeader store first.toNat ++ images rs from rfl,
            journalStore_journalHeader]; exact hstore) create entropy
    rw [hopen]
    refine ⟨rfl, ?_⟩
    dsimp only
    rw [scanLast_eq, show visit limits journal journal.length journalHeaderSize = visited from rfl,
      hvisited]
    dsimp only
    rw [foldl_sequence_boundaries, show journal = journalHeader store first.toNat ++ images rs from rfl,
      readLe_journalHeader_first store first.toNat _ first.toNat_lt]

/-- Two barriers numbered from 7. -/
def twoBarriers : List (RecordKind × Bytes) :=
  [(.barrier, barrierRecordCodec.write ⟨7, 1⟩), (.barrier, barrierRecordCodec.write ⟨8, 2⟩)]

theorem journal_scan_round_trip_barriers :
    (∀ e ∈ twoBarriers, e.2.length ≤ ({} : StoreLimits).maxJournalPayload) ∧
    let journal := journalFile ⟨5⟩ 7 (numbered 7 twoBarriers)
    (visit {} journal journal.length journalHeaderSize).1.map (fun b =>
      JournalRecord.mk b.kind b.sequence (slice journal b.payloadOffset b.payloadSize)) =
        [⟨.barrier, 7, barrierRecordCodec.write ⟨7, 1⟩⟩,
          ⟨.barrier, 8, barrierRecordCodec.write ⟨8, 2⟩⟩] := by
  have hentries : ∀ e ∈ twoBarriers, e.2.length ≤ ({} : StoreLimits).maxJournalPayload := by
    decide
  exact ⟨hentries, (journal_scan_round_trip {} (by decide) ⟨5⟩ 7 twoBarriers hentries).1⟩

end ExecutionFabric
