import ExecutionFabric.Audit.JournalBytes

/-!
# Torn and damaged journals

What a load makes of a journal followed by bytes that do not read as a record: it
replays the records and then calls the rest a torn tail or, when a record reads at
some later offset of it, corruption. From this follow what a crash in the middle of an
append leaves, what happens to records appended after it, and that one substituted
byte never yields anything but an error or a shorter history.
-/
namespace ExecutionFabric

open Lib JournalRecord

/-! ## Replay -/

/-- The state once the records newer than the snapshot have been applied in order. -/
def replayRecords (snapshotSequence : Nat) (st : DurableState) :
    List JournalRecord → Option DurableState
  | [] => some st
  | r :: rs =>
    if r.sequence > snapshotSequence then
      (applyPayload st r.kind r.payload).bind fun st =>
        replayRecords snapshotSequence { st with sequence := r.sequence } rs
    else replayRecords snapshotSequence st rs

theorem replayRecords_append (snapshotSequence : Nat) (st : DurableState)
    (rs rs' : List JournalRecord) :
    replayRecords snapshotSequence st (rs ++ rs') =
      (replayRecords snapshotSequence st rs).bind fun st =>
        replayRecords snapshotSequence st rs' := by
  induction rs generalizing st with
  | nil => rfl
  | cons r rs ih =>
    rw [List.cons_append, replayRecords, replayRecords]
    split
    · cases applyPayload st r.kind r.payload with
      | none => rfl
      | some st' => exact ih _
    · exact ih _

/-- The report once the records have been counted. -/
def FileReport.count (report : FileReport) (snapshotSequence : Nat) (rs : List JournalRecord) :
    FileReport :=
  { report with
    recordsLoaded := report.recordsLoaded +
      (rs.filter fun r => snapshotSequence < r.sequence).length
    recordsSkipped := report.recordsSkipped +
      (rs.filter fun r => ¬ snapshotSequence < r.sequence).length }

/-- The load of the records of a journal, from the first one's offset. -/
theorem foldl_take_boundaries (snapshotSequence : Nat) (rs : List JournalRecord) (a tail : Bytes)
    (s : Scan) (hs : s.refused = none) (hoffset : s.offset = a.length) :
    let s' := (boundaries rs a.length).foldl
      (Scan.take (a ++ (images rs ++ tail)) snapshotSequence) s
    (∀ st, replayRecords snapshotSequence s.state rs = some st →
      s' = { s with
        offset := a.length + (images rs).length
        state := st
        report := s.report.count snapshotSequence rs }) ∧
    (replayRecords snapshotSequence s.state rs = none → s'.refused.isSome = true) := by
  induction rs generalizing a s with
  | nil =>
    refine ⟨?_, fun h => (by cases h)⟩
    intro st hst
    cases hst
    cases s
    cases hoffset
    rfl
  | cons r rs ih =>
    have hcat : a ++ (images (r :: rs) ++ tail) = a ++ (r.image ++ (images rs ++ tail)) := by
      simp only [images, List.flatMap_cons, List.append_assoc]
    have hcat' : a ++ (r.image ++ (images rs ++ tail)) = (a ++ r.image) ++ (images rs ++ tail) := by
      rw [List.append_assoc]
    have hlength : (a ++ r.image).length = a.length + r.image.length := List.length_append
    have himages : (images (r :: rs)).length = r.image.length + (images rs).length := by
      rw [images, List.flatMap_cons, List.length_append]
      rfl
    have htotal : (r.boundary a.length).totalSize = r.image.length := (length_image r).symm
    have hnot : ¬ s.refused.isSome = true := by
      rw [hs]
      simp
    rw [boundaries, List.foldl_cons, replayRecords, hcat, Scan.take, if_neg hnot, slice_boundary,
      hcat', ← hlength]
    by_cases hnew : r.sequence > snapshotSequence
    · rw [if_pos (show (r.boundary a.length).sequence > snapshotSequence from hnew), if_pos hnew]
      cases happly : applyPayload s.state r.kind r.payload with
      | none =>
        refine ⟨fun st h => (by cases h), fun _ => ?_⟩
        rw [show (r.boundary a.length).kind = r.kind from rfl, happly]
        dsimp only
        rw [Scan.foldl_take_of_refused _ _ rfl]
        rfl
      | some st' =>
        rw [show (r.boundary a.length).kind = r.kind from rfl, happly, Option.bind_some]
        dsimp only
        obtain ⟨hok, hbad⟩ := ih (a ++ r.image)
          { s with
            offset := s.offset + (r.boundary a.length).totalSize
            state := { st' with sequence := r.sequence }
            report := { s.report with recordsLoaded := s.report.recordsLoaded + 1 } } hs
          (by rw [htotal, hoffset, hlength])
        refine ⟨fun st hst => ?_, hbad⟩
        refine (hok st hst).trans ?_
        rw [FileReport.count, FileReport.count, List.filter_cons_of_pos (by simpa using hnew),
          List.filter_cons_of_neg (by simpa using hnew), hlength, himages, List.length_cons]
        simp only [Nat.add_assoc, Nat.add_comm 1]
    · rw [if_neg (show ¬ (r.boundary a.length).sequence > snapshotSequence from hnew), if_neg hnew]
      obtain ⟨hok, hbad⟩ := ih (a ++ r.image)
        { s with
          offset := s.offset + (r.boundary a.length).totalSize
          report := { s.report with recordsSkipped := s.report.recordsSkipped + 1 } } hs
        (by rw [htotal, hoffset, hlength])
      refine ⟨fun st hst => ?_, hbad⟩
      refine (hok st hst).trans ?_
      rw [FileReport.count, FileReport.count, List.filter_cons_of_neg (by simpa using hnew),
        List.filter_cons_of_pos (by simpa using hnew), hlength, himages, List.length_cons]
      simp only [Nat.add_assoc, Nat.add_comm 1]

/-! ## The load of a journal and a tail -/

/-- The state a load without a snapshot starts from. -/
def journalBase (store : StoreId) (out : DurableState) : DurableState :=
  if out.clear.store = .nil ∧ store ≠ .nil then { out.clear with store := store } else out.clear

/-- The tail after the records decides between a torn tail and corruption. -/
theorem laterValidRecord_append (limits : StoreLimits) (a tail : Bytes) :
    laterValidRecord limits (a ++ tail) a.length = true ↔
      ∃ offset > 0, (probeRecord limits tail offset).isSome = true := by
  rw [laterValidRecord, List.any_eq_true]
  constructor
  · rintro ⟨scan, hscan, hprobe⟩
    obtain ⟨i, hi, rfl⟩ := List.mem_range'.mp hscan
    refine ⟨1 + i, by omega, ?_⟩
    rw [Nat.one_mul, Nat.add_assoc, probeRecord_append_right, Option.isSome_map] at hprobe
    exact hprobe
  · rintro ⟨offset, hpos, hprobe⟩
    obtain ⟨b, hb⟩ := Option.isSome_iff_exists.mp hprobe
    have hroom := (probeRecord_eq_some_iff.mp hb).room
    refine ⟨a.length + offset, ?_, ?_⟩
    · rw [List.mem_range', List.length_append, recordHeaderSize, recordTrailerSize]
      exact ⟨offset - 1, by omega, by omega⟩
    · rw [probeRecord_append_right, hb]
      rfl

/-- A journal of records followed by a tail that does not read as a record: the records are replayed,
then the tail is judged. -/
theorem loadFiles_journal {limits : StoreLimits} (store : StoreId) (first : Nat)
    {rs : List JournalRecord} (hrs : ∀ r ∈ rs, r.Within limits) {tail : Bytes}
    (htail : tail = [] ∨ probeRecord limits tail 0 = none)
    (hsize : (journalFile store first rs ++ tail).length ≤ limits.maxJournalLoadBytes)
    (temporary : Option Bytes) (out : DurableState) :
    let outcome := loadFiles limits ⟨some (journalFile store first rs ++ tail), none, temporary⟩ out
    let replayed := replayRecords 0 (journalBase store out) rs
    (replayed = none → outcome.status ≠ none) ∧
    ∀ st, replayed = some st →
      (tail = [] → outcome.status = none ∧ outcome.state = st ∧
        outcome.report.truncatedTail = false) ∧
      (tail ≠ [] → (∀ offset > 0, probeRecord limits tail offset = none) →
        outcome.status = none ∧ outcome.state = st ∧ outcome.report.truncatedTail = true) ∧
      (tail ≠ [] → (∃ offset > 0, (probeRecord limits tail offset).isSome = true) →
        outcome.status = some (err .corruptState
          "journal contains an unreadable record followed by readable records")) := by
  intro outcome replayed
  have hheader := length_journalHeader store first
  have himages := length_images rs
  have hcat : journalFile store first rs ++ tail =
      journalHeader store first ++ (images rs ++ tail) := by
    rw [journalFile, List.append_assoc]
  let journal := journalHeader store first ++ (images rs ++ tail)
  let start : Scan := { offset := 40, state := journalBase store out,
                        report := { journalPresent := true } }
  let s := scanJournal limits journal 0 journal.length start
  have houtcome : outcome = s.refused.elim (classifyTail limits journal s) fun refused =>
      ⟨some refused, s.state, s.report⟩ := by
    simp only [outcome, loadFiles, loadAfterSnapshot, readFile]
    rw [if_neg (Nat.not_lt.mpr hsize), hcat]
    dsimp only
    rw [loadJournal_eq (journalHeaderDefect_journalHeader store first _ "") (by simp),
      journalStore_journalHeader]
    rfl
  have hscan : s = Scan.stop journal ((boundaries rs 40).foldl (Scan.take journal 0) start) := by
    have hlength : journal.length = 40 + ((images rs).length + tail.length) := by
      simp only [journal, List.length_append, hheader]
    have hvisit := visit_images hrs (a := journalHeader store first) htail
      (show rs.length < journal.length by omega)
    rw [hheader] at hvisit
    simp only [s]
    rw [scanJournal_eq limits journal 0 journal.length start rfl (by simp only [start]; omega),
      hvisit]
  obtain ⟨hok, hbad⟩ := foldl_take_boundaries 0 rs (journalHeader store first) tail start rfl
    (by rw [hheader])
  rw [hheader] at hok hbad
  refine ⟨?_, ?_⟩
  · intro hnone
    have hrefused := hbad hnone
    rw [Scan.stop_of_refused _ hrefused] at hscan
    rw [← hscan] at hrefused
    obtain ⟨refused, hrefused⟩ := Option.isSome_iff_exists.mp hrefused
    rw [houtcome, hrefused]
    simp
  · intro st hst
    rw [hok st hst, Scan.stop] at hscan
    dsimp only at hscan
    rw [if_neg (by simp [start])] at hscan
    have hlength : journal.length = 40 + (images rs).length + tail.length := by
      simp only [journal, List.length_append, hheader, Nat.add_assoc]
    have hlater := laterValidRecord_append limits (journalHeader store first ++ images rs) tail
    rw [List.append_assoc, List.length_append, hheader] at hlater
    refine ⟨?_, ?_, ?_⟩
    · rintro rfl
      rw [if_neg (by rw [hlength]; simp)] at hscan
      rw [houtcome, hscan]
      dsimp only
      rw [classifyTail, if_neg (by dsimp only; rw [hlength]; simp)]
      exact ⟨rfl, rfl, rfl⟩
    · intro hne hnone
      have hpos : 0 < tail.length := List.length_pos_iff.mpr hne
      rw [if_pos (by rw [hlength]; omega)] at hscan
      rw [houtcome, hscan]
      dsimp only
      rw [classifyTail, if_pos (by dsimp only; rw [hlength]; omega)]
      dsimp only
      rw [if_neg]
      · exact ⟨rfl, rfl, rfl⟩
      · intro h
        obtain ⟨offset, hoffset, hprobe⟩ := hlater.mp h
        rw [hnone offset hoffset] at hprobe
        exact Bool.false_ne_true hprobe
    · intro hne hsome
      have hpos : 0 < tail.length := List.length_pos_iff.mpr hne
      rw [if_pos (by rw [hlength]; omega)] at hscan
      rw [houtcome, hscan]
      dsimp only
      rw [classifyTail, if_pos (by dsimp only; rw [hlength]; omega)]
      dsimp only
      rw [if_pos (hlater.mpr hsome)]
      rfl

/-! ## One substituted byte -/

/-- A file that is too long, or whose header does not verify, is refused. -/
theorem loadFiles_header_defect {limits : StoreLimits} {journal : Bytes}
    (h : journalHeaderDefect journal "" ≠ none) (temporary : Option Bytes) (out : DurableState) :
    (loadFiles limits ⟨some journal, none, temporary⟩ out).status ≠ none := by
  simp only [loadFiles, loadAfterSnapshot, readFile]
  by_cases hsize : journal.length > limits.maxJournalLoadBytes
  · rw [if_pos hsize]
    simp
  · rw [if_neg hsize]
    simp only [loadJournal]
    cases hdefect : journalHeaderDefect journal "" with
    | none => exact absurd hdefect h
    | some refused => simp

theorem loadFiles_too_long {limits : StoreLimits} {journal : Bytes}
    (h : journal.length > limits.maxJournalLoadBytes) (temporary : Option Bytes)
    (out : DurableState) :
    (loadFiles limits ⟨some journal, none, temporary⟩ out).status ≠ none := by
  simp only [loadFiles, loadAfterSnapshot, readFile]
  rw [if_pos h]
  simp

/-- Every byte of the header is under its checksum or part of it. -/
theorem journalHeaderDefect_set (store : StoreId) (first : Nat) (rest : Bytes) {i : Nat} {v : UInt8}
    (hi : i < 40) (hne : (journalHeader store first ++ rest)[i]? ≠ some v) :
    journalHeaderDefect ((journalHeader store first ++ rest).set i v) "" ≠ none := by
  have hheader := length_journalHeader store first
  have hlength : 40 ≤ (journalHeader store first ++ rest).length := by
    rw [List.length_append]
    omega
  have hi' : i < (journalHeader store first ++ rest).length := by omega
  rw [List.getElem?_eq_getElem hi'] at hne
  have hne' : (journalHeader store first ++ rest)[i] ≠ v := fun he => hne (congrArg some he)
  have hchecked := checksumAt_journalHeader store first rest
  have hfalse : checksumAt ((journalHeader store first ++ rest).set i v) 32 0 32 = false := by
    by_cases hfields : i < 32
    · exact checksumAt_set_data hchecked hi' hne' (by omega) (by omega) (by omega)
    · exact checksumAt_set_word hchecked hi' hne' (by omega) (by omega) (by omega)
  unfold journalHeaderDefect
  split
  · simp
  · split
    · simp
    · rw [if_pos (by rw [hfalse]; simp)]
      simp

/-- The record an offset falls into. -/
theorem images_split {rs : List JournalRecord} {i : Nat} (hi : i < (images rs).length) :
    ∃ before r after j, rs = before ++ r :: after ∧ i = (images before).length + j ∧
      j < r.image.length := by
  induction rs generalizing i with
  | nil => simp [images] at hi
  | cons r rs ih =>
    have hcons : images (r :: rs) = r.image ++ images rs := by
      simp only [images, List.flatMap_cons]
    by_cases hin : i < r.image.length
    · exact ⟨[], r, rs, i, rfl, by simp [images], hin⟩
    · rw [hcons, List.length_append] at hi
      obtain ⟨before, r', after, j, rfl, hj, hlt⟩ := ih (i := i - r.image.length) (by omega)
      refine ⟨r :: before, r', after, j, rfl, ?_, hlt⟩
      simp only [images, List.flatMap_cons, List.length_append] at hj ⊢
      omega

theorem images_append (rs rs' : List JournalRecord) : images (rs ++ rs') = images rs ++ images rs' := by
  simp only [images, List.flatMap_append]

/-- One substituted byte of a written journal never fabricates state: the load is refused or replays
a proper beginning of the records, and it is refused unless the byte is in the last record. -/
theorem substituted_byte_never_fabricates (limits : StoreLimits) (store : StoreId) (first : Nat)
    (rs : List JournalRecord) (hrs : ∀ r ∈ rs, r.Within limits) (temporary : Option Bytes)
    (out : DurableState) (i : Nat) (v : UInt8) (hi : i < (journalFile store first rs).length)
    (hne : (journalFile store first rs)[i]? ≠ some v) :
    let outcome := loadFiles limits ⟨some ((journalFile store first rs).set i v), none, temporary⟩ out
    (outcome.status ≠ none ∨
      ∃ n < rs.length, replayRecords 0 (journalBase store out) (rs.take n) = some outcome.state) ∧
    (i < 40 + (images rs.dropLast).length → outcome.status ≠ none) := by
  intro outcome
  have hheader := length_journalHeader store first
  by_cases hin : i < 40
  · have hstatus : outcome.status ≠ none :=
      loadFiles_header_defect (journalHeaderDefect_set store first (images rs) hin hne) temporary out
    exact ⟨.inl hstatus, fun _ => hstatus⟩
  · rw [journalFile, List.length_append] at hi
    obtain ⟨before, r, after, j, rfl, hj, hlt⟩ := @images_split rs (i - 40) (by omega)
    have hafter : images (r :: after) = r.image ++ images after := by
      simp only [images, List.flatMap_cons]
    have hfile : journalFile store first (before ++ r :: after) =
        journalFile store first before ++ (r.image ++ images after) := by
      rw [journalFile, images_append, hafter, journalFile, List.append_assoc]
    have hbefore : (journalFile store first before).length = 40 + (images before).length := by
      rw [journalFile, List.length_append, hheader]
    have hi' : i = (journalFile store first before).length + j := by omega
    have htail : probeRecord limits ((r.image ++ images after).set j v) 0 = none := by
      refine probeRecord_set (hrs r (by simp)) hlt ?_
      rw [hfile, hi', List.getElem?_append_right (by omega), Nat.add_sub_cancel_left] at hne
      exact hne
    have hset : (journalFile store first (before ++ r :: after)).set i v =
        journalFile store first before ++ (r.image ++ images after).set j v := by
      rw [hfile, hi', List.set_append_right _ _ (by omega), Nat.add_sub_cancel_left]
    by_cases hsize : (journalFile store first before ++ (r.image ++ images after).set j v).length ≤
        limits.maxJournalLoadBytes
    · obtain ⟨hbad, hok⟩ := loadFiles_journal store first
        (fun x hx => hrs x (List.mem_append_left _ hx)) (.inr htail) hsize temporary out
      rw [← hset] at hbad hok
      have hne' : (r.image ++ images after).set j v ≠ [] := by
        intro he
        have hlength := congrArg List.length he
        rw [List.length_set, List.length_append, List.length_nil] at hlength
        omega
      cases hreplay : replayRecords 0 (journalBase store out) before with
      | none => exact ⟨.inl (hbad hreplay), fun _ => hbad hreplay⟩
      | some st =>
        obtain ⟨-, htorn, hcorrupt⟩ := hok st hreplay
        refine ⟨?_, ?_⟩
        · by_cases hlater : ∃ offset > 0,
              (probeRecord limits ((r.image ++ images after).set j v) offset).isSome = true
          · exact .inl (by simp [outcome, hcorrupt hne' hlater])
          · have hnone : ∀ offset > 0,
                probeRecord limits ((r.image ++ images after).set j v) offset = none := by
              intro offset hoffset
              cases hprobe : probeRecord limits ((r.image ++ images after).set j v) offset with
              | none => rfl
              | some b => exact absurd ⟨offset, hoffset, by rw [hprobe]; rfl⟩ hlater
            obtain ⟨-, hstate, -⟩ := htorn hne' hnone
            refine .inr ⟨before.length, by simp, ?_⟩
            rw [List.take_left, hreplay]
            exact congrArg some hstate.symm
        · -- a record after the damaged one is found where it was
          intro hlast
          cases after with
          | nil =>
            rw [List.dropLast_concat] at hlast
            omega
          | cons r' after =>
            have hprobe : (probeRecord limits ((r.image ++ images (r' :: after)).set j v)
                r.image.length).isSome = true := by
              have hat := probeRecord_at (hrs r' (by simp)) (r.image.set j v) (images after)
              rw [List.length_set] at hat
              rw [List.set_append_left _ _ hlt, images, List.flatMap_cons]
              rw [images] at hat
              rw [hat]
              rfl
            have hpos := r.length_image_pos
            simp [outcome, hcorrupt hne' ⟨r.image.length, by omega, hprobe⟩]
    · have hstatus : outcome.status ≠ none := by
        rw [← hset] at hsize
        exact loadFiles_too_long (Nat.lt_of_not_le hsize) temporary out
      exact ⟨.inl hstatus, fun _ => hstatus⟩

/-- The two barriers with a byte of the first one's payload substituted. -/
theorem substituted_byte_never_fabricates_barriers :
    (journalFile ⟨5⟩ 7 (numbered 7 twoBarriers))[81]? ≠ some 9 ∧
    (loadFiles {} ⟨some ((journalFile ⟨5⟩ 7 (numbered 7 twoBarriers)).set 81 9), none, none⟩
      {}).status ≠ none := by
  have hwithin : ∀ r ∈ numbered 7 twoBarriers, r.Within {} :=
    within_numbered (by decide) (by decide)
  have hne : (journalFile ⟨5⟩ 7 (numbered 7 twoBarriers))[81]? ≠ some 9 := by decide +kernel
  exact ⟨hne, (substituted_byte_never_fabricates {} ⟨5⟩ 7 (numbered 7 twoBarriers) hwithin none {} 81 9
    (by decide +kernel) hne).2 (by decide +kernel)⟩

/-! ## Appending -/

/-- The limits are machine words. -/
structure StoreLimits.Sized (limits : StoreLimits) : Prop where
  journalPayload : limits.maxJournalPayload < 2 ^ 64
  journalLoadBytes : limits.maxJournalLoadBytes < 2 ^ 64

theorem numbered_cons (first : Nat) (e : RecordKind × Bytes) (entries : List (RecordKind × Bytes)) :
    numbered first (e :: entries) = ⟨e.1, first % 2 ^ 64, e.2⟩ :: numbered (first + 1) entries := by
  rw [numbered, numbered, List.mapIdx_cons, Nat.add_zero]
  simp only [Nat.add_assoc, Nat.add_comm 1]

theorem numbered_append (first : Nat) (entries entries' : List (RecordKind × Bytes)) :
    numbered first (entries ++ entries') =
      numbered first entries ++ numbered (first + entries.length) entries' := by
  induction entries generalizing first with
  | nil => rfl
  | cons e entries ih =>
    rw [List.cons_append, numbered_cons, numbered_cons, ih, List.cons_append, List.length_cons,
      Nat.add_assoc, Nat.add_comm 1]

theorem numbered_congr {first first' : Nat} (h : first % 2 ^ 64 = first' % 2 ^ 64)
    (entries : List (RecordKind × Bytes)) : numbered first entries = numbered first' entries := by
  induction entries generalizing first first' with
  | nil => rfl
  | cons e entries ih =>
    have hnext : (first + 1) % 2 ^ 64 = (first' + 1) % 2 ^ 64 := by omega
    rw [numbered_cons, numbered_cons, h, ih hnext]

/-- Appends the payloads one after the other. -/
def ByteStore.appendAll (s : ByteStore) (entries : List (RecordKind × Bytes)) : ByteStore :=
  entries.foldl (fun s e => (s.append e.1 e.2).2) s

/-- Successful appends add the images of their records to the end of the file. -/
theorem ByteStore.appendAll_eq {s : ByteStore} (hopen : s.isOpen = true) {files : Files}
    (hfiles : s.files = some files) {journal : Bytes} (hjournal : files.journal = some journal)
    (hlast : s.lastSequence < 2 ^ 64) {entries : List (RecordKind × Bytes)}
    (hentries : ∀ e ∈ entries, e.2.length ≤ s.limits.maxJournalPayload) :
    s.appendAll entries = { s with
      files := some { files with
        journal := some (journal ++ images (numbered (s.lastSequence + 1) entries)) }
      lastSequence := (s.lastSequence + entries.length) % 2 ^ 64 } := by
  induction entries generalizing s files journal with
  | nil =>
    have hsame : { files with journal := some (journal ++ images (numbered (s.lastSequence + 1) [])) }
        = files := by
      cases files
      cases hjournal
      simp [numbered, images]
    rw [hsame, ← hfiles, List.length_nil, Nat.add_zero, Nat.mod_eq_of_lt hlast]
    rfl
  | cons e entries ih =>
    have hpayload := hentries e List.mem_cons_self
    have happend : (s.append e.1 e.2).2 = { s with
        files := some { files with
          journal := some (journal ++ buildRecordImage e.1 (nextSequence s.lastSequence) e.2) }
        lastSequence := nextSequence s.lastSequence } := by
      rw [append, if_neg (by rw [hopen]; simp), if_neg (Nat.not_lt.mpr hpayload), hfiles]
      simp only [Option.map_some, hjournal]
    have hnext : nextSequence s.lastSequence < 2 ^ 64 := Nat.mod_lt _ (by decide)
    rw [appendAll, List.foldl_cons, happend]
    refine (ih (s := { s with
        files := some { files with
          journal := some (journal ++ buildRecordImage e.1 (nextSequence s.lastSequence) e.2) }
        lastSequence := nextSequence s.lastSequence }) hopen rfl rfl hnext
      (fun x hx => hentries x (List.mem_cons_of_mem _ hx))).trans ?_
    have hcongr : numbered (nextSequence s.lastSequence + 1) entries =
        numbered (s.lastSequence + 1 + 1) entries :=
      numbered_congr (by rw [nextSequence]; omega) entries
    dsimp only
    rw [numbered_cons, images, images, List.flatMap_cons, List.append_assoc, List.length_cons,
      hcongr]
    rw [show (nextSequence s.lastSequence + entries.length) % 2 ^ 64 =
      (s.lastSequence + (entries.length + 1)) % 2 ^ 64 by rw [nextSequence]; omega]
    rfl

/-- The state once the records have been applied in order. -/
def applyRecords (st : DurableState) : List JournalRecord → Option DurableState
  | [] => some st
  | r :: rs => (applyPayload st r.kind r.payload).bind fun st =>
    applyRecords { st with sequence := r.sequence } rs

theorem replayRecords_zero {rs : List JournalRecord} (h : ∀ r ∈ rs, 0 < r.sequence)
    (st : DurableState) : replayRecords 0 st rs = applyRecords st rs := by
  induction rs generalizing st with
  | nil => rfl
  | cons r rs ih =>
    rw [replayRecords, if_pos (h r List.mem_cons_self), applyRecords]
    congr 1
    funext st'
    exact ih (fun x hx => h x (List.mem_cons_of_mem _ hx)) _

theorem applyRecords_append (st : DurableState) (rs rs' : List JournalRecord) :
    applyRecords st (rs ++ rs') = (applyRecords st rs).bind fun st => applyRecords st rs' := by
  induction rs generalizing st with
  | nil => rfl
  | cons r rs ih =>
    rw [List.cons_append, applyRecords, applyRecords]
    cases applyPayload st r.kind r.payload with
    | none => rfl
    | some st' => exact ih _

/-! ## A crash in the middle of an append -/

/-- The records wholly contained in the first `room` bytes of the images. -/
def wholeRecords : Nat → List JournalRecord → List JournalRecord
  | _, [] => []
  | room, r :: rs =>
    if r.image.length ≤ room then r :: wholeRecords (room - r.image.length) rs else []

theorem wholeRecords_prefix (room : Nat) (rs : List JournalRecord) :
    ∃ rest, rs = wholeRecords room rs ++ rest := by
  induction rs generalizing room with
  | nil => exact ⟨[], rfl⟩
  | cons r rs ih =>
    rw [wholeRecords]
    split
    · obtain ⟨rest, hrest⟩ := ih (room - r.image.length)
      exact ⟨rest, by rw [List.cons_append, ← hrest]⟩
    · exact ⟨r :: rs, rfl⟩

/-- A cut leaves whole images and then a part of one. -/
theorem take_images {room : Nat} {rs : List JournalRecord} (hroom : room ≤ (images rs).length) :
    ∃ torn, (images rs).take room = images (wholeRecords room rs) ++ torn ∧
      (torn = [] ∨ ∃ r ∈ rs, ∃ kept, 0 < kept ∧ kept < r.image.length ∧
        torn = r.image.take kept) := by
  induction rs generalizing room with
  | nil => exact ⟨[], by simp [images, wholeRecords], .inl rfl⟩
  | cons r rs ih =>
    have hcons : images (r :: rs) = r.image ++ images rs := by
      simp only [images, List.flatMap_cons]
    rw [hcons, List.length_append] at hroom
    rw [wholeRecords, hcons]
    split
    · rename_i hwhole
      obtain ⟨torn, htake, htorn⟩ := @ih (room - r.image.length) (by omega)
      refine ⟨torn, ?_, ?_⟩
      · rw [List.take_append, List.take_of_length_le hwhole, htake]
        simp only [images, List.flatMap_cons, List.append_assoc]
      · rcases htorn with h | ⟨r', hr', h⟩
        · exact .inl h
        · exact .inr ⟨r', List.mem_cons_of_mem _ hr', h⟩
    · rename_i hpart
      refine ⟨r.image.take room, ?_, ?_⟩
      · rw [List.take_append_of_le_length (by omega)]
        rfl
      · by_cases hzero : room = 0
        · subst hzero
          exact .inl (List.take_zero ..)
        · exact .inr ⟨r, List.mem_cons_self, room, by omega, by omega, rfl⟩

/-- A cut after the first `n` records leaves exactly them. -/
theorem wholeRecords_boundary {n : Nat} {rs : List JournalRecord} :
    wholeRecords (images (rs.take n)).length rs = rs.take n := by
  induction rs generalizing n with
  | nil => simp [wholeRecords]
  | cons r rs ih =>
    have hpos := r.length_image_pos
    cases n with
    | zero =>
      rw [List.take_zero, wholeRecords, if_neg]
      rw [images, List.flatMap_nil, List.length_nil]
      omega
    | succ n =>
      have hcons : (images (r :: rs.take n)).length = r.image.length + (images (rs.take n)).length := by
        simp only [images, List.flatMap_cons, List.length_append]
      rw [List.take_succ_cons, wholeRecords, if_pos (by omega), hcons, Nat.add_sub_cancel_left, ih]

/-- The journal file of a store that was created and then appended to. -/
def writtenJournal (limits : StoreLimits) (entropy : UInt64)
    (entries : List (RecordKind × Bytes)) : Bytes :=
  (((((ByteStore.openStore {} true limits entropy).2.appendAll entries).files).getD {}).journal).getD []

theorem openStore_fresh {limits : StoreLimits} {entropy : UInt64} (hentropy : entropy ≠ 0)
    (hsize : 40 ≤ limits.maxJournalLoadBytes) :
    ByteStore.openStore {} true limits entropy = (.ok (), {
      files := some { journal := some (journalHeader ⟨entropy⟩ 1) }
      limits := limits
      isOpen := true
      storeId := ⟨entropy⟩
      journalFirstSequence := 1
      lastSequence := 0 }) := by
  have hlength := length_journalHeader ⟨entropy⟩ 1
  have hheader := journalHeaderDefect_journalHeader ⟨entropy⟩ 1 [] ": "
  have hstore := journalStore_journalHeader ⟨entropy⟩ 1 []
  have hfirst := readLe_journalHeader_first ⟨entropy⟩ 1 [] (by decide)
  rw [List.append_nil] at hheader hstore hfirst
  have hscan : ByteStore.scanLast limits (journalHeader ⟨entropy⟩ 1) 40 40 0 = 0 := by
    rw [ByteStore.scanLast, if_neg (by omega)]
  have hnil : (⟨entropy⟩ : StoreId) ≠ .nil := fun he => hentropy (congrArg Id.value he)
  have hlast : (1 + (2 ^ 64 - 1)) % 2 ^ 64 = 0 := by decide
  simp only [ByteStore.openStore, ByteStore.readJournal, readFile, Option.getD, journalHeaderSize,
    Bool.false_eq_true, if_false]
  rw [if_neg (by omega)]
  dsimp only
  rw [hheader]
  dsimp only
  rw [hstore, if_neg hnil, hfirst, hlength, hlast, hscan]

theorem writtenJournal_eq {limits : StoreLimits} {entropy : UInt64} (hentropy : entropy ≠ 0)
    (hsize : 40 ≤ limits.maxJournalLoadBytes) {entries : List (RecordKind × Bytes)}
    (hentries : ∀ e ∈ entries, e.2.length ≤ limits.maxJournalPayload) :
    writtenJournal limits entropy entries = journalFile ⟨entropy⟩ 1 (numbered 1 entries) := by
  rw [writtenJournal, openStore_fresh hentropy hsize]
  dsimp only
  rw [ByteStore.appendAll_eq rfl rfl rfl (show (0 : Nat) < 2 ^ 64 by decide) hentries]
  rfl

theorem sequence_pos_numbered {entries : List (RecordKind × Bytes)}
    (h : entries.length + 1 < 2 ^ 64) : ∀ r ∈ numbered 1 entries, 0 < r.sequence := by
  intro r hr
  obtain ⟨i, hi, rfl⟩ := List.mem_mapIdx.mp hr
  dsimp only
  rw [Nat.mod_eq_of_lt (by omega)]
  omega

/-- The load of a journal cut at `cut` recovers the records the cut left whole, and calls the tail torn
exactly when the cut is not at a record boundary. -/
structure RecoversPrefix (limits : StoreLimits) (entropy : UInt64)
    (entries : List (RecordKind × Bytes)) (cut : Nat) (out : DurableState) : Prop where
  status : (loadFiles limits ⟨some ((writtenJournal limits entropy entries).take cut), none, none⟩
    out).status = none
  torn : (loadFiles limits ⟨some ((writtenJournal limits entropy entries).take cut), none, none⟩
    out).report.truncatedTail = true ↔
      ¬ ∃ n, cut = 40 + (images ((numbered 1 entries).take n)).length
  state : applyRecords (journalBase ⟨entropy⟩ out) (wholeRecords (cut - 40) (numbered 1 entries)) =
    some (loadFiles limits ⟨some ((writtenJournal limits entropy entries).take cut), none, none⟩
      out).state

/-- What a cut leaves of the record it went through. -/
def tornBytes (limits : StoreLimits) (entropy : UInt64) (entries : List (RecordKind × Bytes))
    (cut : Nat) : Bytes :=
  ((writtenJournal limits entropy entries).take cut).drop
    (40 + (images (wholeRecords (cut - 40) (numbered 1 entries))).length)

/-- A cut recovers the durable prefix exactly when what is left of the torn record holds no complete
record image of its own. -/
theorem torn_journal_recovers_iff (limits : StoreLimits) (hlimits : limits.Sized)
    (entropy : UInt64) (hentropy : entropy ≠ 0) (entries : List (RecordKind × Bytes))
    (hentries : ∀ e ∈ entries, e.2.length ≤ limits.maxJournalPayload)
    (hfile : (writtenJournal limits entropy entries).length ≤ limits.maxJournalLoadBytes)
    (out : DurableState)
    (hdecode : (applyRecords (journalBase ⟨entropy⟩ out) (numbered 1 entries)).isSome = true)
    (cut : Nat) (hcut : 40 ≤ cut) (hcut' : cut ≤ (writtenJournal limits entropy entries).length) :
    RecoversPrefix limits entropy entries cut out ↔
      ∀ offset > 0, probeRecord limits (tornBytes limits entropy entries cut) offset = none := by
  have hwritten := writtenJournal_eq hentropy (by omega) hentries
  have hheader := length_journalHeader ⟨entropy⟩ 1
  let rs := numbered 1 entries
  let whole := wholeRecords (cut - 40) rs
  have hwithin : ∀ r ∈ rs, r.Within limits := within_numbered hlimits.journalPayload hentries
  have hlength : (writtenJournal limits entropy entries).length = 40 + (images rs).length := by
    rw [hwritten, journalFile, List.length_append, hheader]
  obtain ⟨torn, htake, htorn⟩ := @take_images (cut - 40) rs (by omega)
  have hcutFile : (writtenJournal limits entropy entries).take cut =
      journalFile ⟨entropy⟩ 1 whole ++ torn := by
    rw [hwritten, journalFile, List.take_append, List.take_of_length_le (by omega), hheader, htake,
      journalFile, List.append_assoc]
  have htornBytes : tornBytes limits entropy entries cut = torn := by
    rw [tornBytes, hcutFile, journalFile]
    exact List.drop_left' (by rw [List.length_append, hheader])
  obtain ⟨rest, hrest⟩ := wholeRecords_prefix (cut - 40) rs
  have hwhole : ∀ r ∈ whole, r ∈ rs := by
    intro r hr
    rw [hrest]
    exact List.mem_append_left _ hr
  have hprobe : torn = [] ∨ probeRecord limits torn 0 = none := by
    rcases htorn with h | ⟨r, hr, kept, -, hkept, rfl⟩
    · exact .inl h
    · exact .inr (probeRecord_take (hwithin r hr) hkept)
  have hboundary : torn = [] ↔ ∃ n, cut = 40 + (images (rs.take n)).length := by
    have hcutLength := congrArg List.length htake
    rw [List.length_take, List.length_append] at hcutLength
    constructor
    · rintro rfl
      refine ⟨whole.length, ?_⟩
      have hextends : rs.take whole.length = whole := by
        nth_rewrite 1 [hrest]
        exact List.take_left
      rw [hextends]
      simp only [whole, List.length_nil] at hcutLength ⊢
      omega
    · rintro ⟨n, hn⟩
      rw [show cut - 40 = (images (rs.take n)).length by omega, wholeRecords_boundary] at hcutLength
      apply List.eq_nil_of_length_eq_zero
      omega
  obtain ⟨st, hst⟩ : ∃ st, applyRecords (journalBase ⟨entropy⟩ out) whole = some st := by
    obtain ⟨final, hfinal⟩ := Option.isSome_iff_exists.mp hdecode
    rw [show numbered 1 entries = whole ++ rest from hrest, applyRecords_append] at hfinal
    obtain ⟨st, hst, -⟩ := Option.bind_eq_some_iff.mp hfinal
    exact ⟨st, hst⟩
  have hcount : entries.length + 1 < 2 ^ 64 := by
    have himages := length_images rs
    have hrs : rs.length = entries.length := by simp [rs, numbered]
    have hload := hlimits.journalLoadBytes
    omega
  have hreplay : replayRecords 0 (journalBase ⟨entropy⟩ out) whole = some st := by
    rw [replayRecords_zero (fun r hr => sequence_pos_numbered hcount r (hwhole r hr)), hst]
  have hsize : (journalFile ⟨entropy⟩ 1 whole ++ torn).length ≤ limits.maxJournalLoadBytes := by
    rw [← hcutFile, List.length_take]
    omega
  obtain ⟨-, hok⟩ := loadFiles_journal ⟨entropy⟩ 1 (fun r hr => hwithin r (hwhole r hr)) hprobe hsize
    none out
  obtain ⟨hwholeOk, htornOk, hcorrupt⟩ := hok st hreplay
  rw [← hcutFile] at hwholeOk htornOk hcorrupt
  rw [htornBytes]
  constructor
  · intro h offset hoffset
    cases hfound : probeRecord limits torn offset with
    | none => rfl
    | some b =>
      exfalso
      have hne : torn ≠ [] := by
        rintro rfl
        have hroom := (probeRecord_eq_some_iff.mp hfound).room
        simp at hroom
      have hstatus := h.status
      rw [hcorrupt hne ⟨offset, hoffset, by rw [hfound]; rfl⟩] at hstatus
      cases hstatus
  · intro hnone
    by_cases hempty : torn = []
    · obtain ⟨hstatus, hstate, hflag⟩ := hwholeOk hempty
      refine ⟨hstatus, ?_, ?_⟩
      · rw [hflag, ← hboundary]
        simp [hempty]
      · rw [hstate]
        exact hst
    · obtain ⟨hstatus, hstate, hflag⟩ := htornOk hempty hnone
      refine ⟨hstatus, ?_, ?_⟩
      · rw [hflag, ← hboundary]
        simp [hempty]
      · rw [hstate]
        exact hst

theorem probeRecord_short {limits : StoreLimits} {data : Bytes} (h : data.length < 48)
    (offset : Nat) : probeRecord limits data offset = none := by
  cases hprobe : probeRecord limits data offset with
  | none => rfl
  | some b =>
    have hroom := (probeRecord_eq_some_iff.mp hprobe).room
    omega

/-- Two barriers, the second of which was torn after ten bytes. -/
theorem torn_journal_recovers_iff_barriers :
    (applyRecords (journalBase ⟨5⟩ {}) (numbered 1 twoBarriers)).isSome = true ∧
    RecoversPrefix {} 5 twoBarriers 110 {} := by
  have hdecode : (applyRecords (journalBase ⟨5⟩ {}) (numbered 1 twoBarriers)).isSome = true := by
    decide +kernel
  refine ⟨hdecode, (torn_journal_recovers_iff {} ⟨by decide, by decide⟩ 5 (by decide) twoBarriers
    (by decide) (by decide +kernel) {} hdecode 110 (by decide) (by decide +kernel)).mpr ?_⟩
  intro offset _
  exact probeRecord_short (by decide +kernel) offset

/-- A torn record whose payload holds a whole image of its own reads as that one. -/
theorem probeRecord_embedded {limits : StoreLimits} {r r' : JournalRecord} (hr' : r'.Within limits)
    {before after : Bytes} (hpayload : r.payload = before ++ (r'.image ++ after)) {kept : Nat}
    (hkept : 40 + before.length + r'.image.length ≤ kept) :
    ∃ offset > 0, (probeRecord limits (r.image.take kept) offset).isSome = true := by
  have hheader := length_header r
  have himage : r.image = (r.header ++ before) ++
      (r'.image ++ (after ++ checksum (r.header ++ r.payload))) := by
    rw [show r.image = r.header ++ r.payload ++ checksum (r.header ++ r.payload) from rfl]
    nth_rewrite 1 [hpayload]
    simp only [List.append_assoc]
  have htake : r.image.take kept = (r.header ++ before) ++ (r'.image ++
      (after ++ checksum (r.header ++ r.payload)).take (kept - (40 + before.length) -
        r'.image.length)) := by
    rw [himage, List.take_append, List.take_of_length_le (by rw [List.length_append]; omega),
      List.length_append, hheader, List.take_append, List.take_of_length_le (by omega)]
  refine ⟨(r.header ++ before).length, by rw [List.length_append]; omega, ?_⟩
  rw [htake, probeRecord_at hr']
  rfl

/-- A journal of one record whose payload ends in a whole image, cut one byte before its end. -/
theorem not_recoversPrefix_embedded {limits : StoreLimits} (hlimits : limits.Sized)
    {entropy : UInt64} (hentropy : entropy ≠ 0) {kind : RecordKind} {payload before : Bytes}
    {r' : JournalRecord} (hr' : r'.Within limits) (hpayload : payload = before ++ r'.image)
    (hlimit : payload.length ≤ limits.maxJournalPayload)
    (hsize : 88 + payload.length ≤ limits.maxJournalLoadBytes) (out : DurableState) :
    (writtenJournal limits entropy [(kind, payload)]).length = 88 + payload.length ∧
    ¬ RecoversPrefix limits entropy [(kind, payload)] (87 + payload.length) out := by
  have hentries : ∀ e ∈ [(kind, payload)], e.2.length ≤ limits.maxJournalPayload := by
    intro e he
    rw [List.mem_singleton.mp he]
    exact hlimit
  have hwritten := writtenJournal_eq hentropy (by omega) hentries
  have hwithin : ∀ x ∈ numbered 1 [(kind, payload)], x.Within limits :=
    within_numbered hlimits.journalPayload hentries
  let r : JournalRecord := ⟨kind, 1 % 2 ^ 64, payload⟩
  have hone : numbered 1 [(kind, payload)] = [r] := numbered_cons 1 (kind, payload) []
  have himages : images [r] = r.image := by
    rw [images, List.flatMap_cons, List.flatMap_nil, List.append_nil]
  have hlength : r.image.length = 40 + payload.length + 8 := length_image r
  have hheader : (journalFile ⟨entropy⟩ 1 []).length = 40 := by
    rw [journalFile, List.length_append, length_journalHeader]
    rfl
  have hfile : writtenJournal limits entropy [(kind, payload)] =
      journalFile ⟨entropy⟩ 1 [] ++ r.image := by
    rw [hwritten, hone, journalFile, himages, journalFile]
    simp [images]
  refine ⟨by rw [hfile, List.length_append, hheader, hlength]; omega, ?_⟩
  intro h
  have hcut : (writtenJournal limits entropy [(kind, payload)]).take (87 + payload.length) =
      journalFile ⟨entropy⟩ 1 [] ++ r.image.take (47 + payload.length) := by
    rw [hfile, List.take_append, List.take_of_length_le (by omega), hheader]
    congr 2
    omega
  have hfound : ∃ offset > 0,
      (probeRecord limits (r.image.take (47 + payload.length)) offset).isSome = true :=
    probeRecord_embedded (r := r) hr'
      (show payload = before ++ (r'.image ++ []) by rw [List.append_nil]; exact hpayload)
      (by rw [hpayload, List.length_append]; omega)
  have hprobe : probeRecord limits (r.image.take (47 + payload.length)) 0 = none :=
    probeRecord_take (hwithin r (by rw [hone]; simp)) (by omega)
  have hnil : ∀ x ∈ ([] : List JournalRecord), x.Within limits := fun _ hx => (by cases hx)
  obtain ⟨-, hok⟩ := loadFiles_journal ⟨entropy⟩ 1 hnil (.inr hprobe)
    (by rw [List.length_append, hheader, List.length_take]; omega) none out
  obtain ⟨-, -, hcorrupt⟩ := hok _ rfl
  have hne : r.image.take (47 + payload.length) ≠ [] := by
    intro he
    have hnil := congrArg List.length he
    rw [List.length_take, List.length_nil] at hnil
    omega
  have hstatus := h.status
  rw [hcut, hcorrupt hne hfound] at hstatus
  cases hstatus

/-- An ambiguity whose note is the image of a barrier record. -/
def embeddedPayload : Bytes :=
  ambiguityRecordCodec.write {
    resolutionNote := buildRecordImage .barrier 1 (barrierRecordCodec.write {}) }

def embeddedEntries : List (RecordKind × Bytes) := [(.ambiguity, embeddedPayload)]

/-- The ambiguity torn one byte before its end is called corruption: the note inside it reads as a
record. -/
theorem torn_journal_embedded_record :
    (∀ e ∈ embeddedEntries, e.2.length ≤ ({} : StoreLimits).maxJournalPayload) ∧
    (applyRecords (journalBase ⟨5⟩ {}) (numbered 1 embeddedEntries)).isSome = true ∧
    (writtenJournal {} 5 embeddedEntries).length = 251 ∧
    ¬ RecoversPrefix {} 5 embeddedEntries 250 {} := by
  have hlength : embeddedPayload.length = 163 := by decide +kernel
  have hpayload : embeddedPayload = embeddedPayload.take 103 ++
      JournalRecord.image ⟨.barrier, 1, barrierRecordCodec.write {}⟩ := by decide +kernel
  have hwithin : JournalRecord.Within {} ⟨.barrier, 1, barrierRecordCodec.write {}⟩ :=
    ⟨by decide +kernel, by decide +kernel, by decide⟩
  have hsized : StoreLimits.Sized {} := ⟨by decide, by decide⟩
  have hnot := @not_recoversPrefix_embedded {} hsized 5 (by decide) .ambiguity embeddedPayload _ _
    hwithin hpayload (by rw [hlength]; decide) (by rw [hlength]; decide) {}
  rw [hlength] at hnot
  exact ⟨by decide +kernel, by decide +kernel, hnot⟩

/-! ## Appending after a torn tail -/

theorem numbered_length (first : Nat) (entries : List (RecordKind × Bytes)) :
    (numbered first entries).length = entries.length := List.length_mapIdx

/-- The number the next record gets after a journal of numbered records. -/
theorem last_sequence_numbered {first before : Nat} (hbefore : (before + 1) % 2 ^ 64 = first % 2 ^ 64)
    (entries : List (RecordKind × Bytes)) :
    ((((numbered first entries).getLast?).map JournalRecord.sequence).getD before + 1) % 2 ^ 64 =
      (first + entries.length) % 2 ^ 64 := by
  rcases List.eq_nil_or_concat entries with rfl | ⟨entries, e, rfl⟩
  · exact hbefore
  · rw [List.concat_eq_append, numbered_append, numbered_cons,
      show numbered (first + entries.length + 1) [] = [] from rfl, List.getLast?_concat,
      Option.map_some, Option.getD_some, List.length_append, List.length_singleton]
    dsimp only
    omega

/-- The number before `first`. -/
theorem before_first (first : Nat) :
    ((first + (2 ^ 64 - 1)) % 2 ^ 64 + 1) % 2 ^ 64 = first % 2 ^ 64 := by omega

/-- The file a store leaves that was opened on records and a torn tail and then appended to. -/
theorem reopened_files {limits : StoreLimits} (hlimits : limits.Sized) {store : StoreId}
    (hstore : store ≠ .nil) (first : UInt64) {entries : List (RecordKind × Bytes)}
    (hentries : ∀ e ∈ entries, e.2.length ≤ limits.maxJournalPayload) {torn : Bytes}
    (htorn : torn = [] ∨ probeRecord limits torn 0 = none) {s : ByteStore}
    (hclosed : s.isOpen = false) {snapshot temporary : Option Bytes}
    (hfiles : s.files = some ⟨some (journalFile store first.toNat (numbered first.toNat entries) ++
      torn), snapshot, temporary⟩)
    (hsize : (journalFile store first.toNat (numbered first.toNat entries) ++ torn).length ≤
      limits.maxJournalLoadBytes)
    (create : Bool) (entropy : UInt64) {appended : List (RecordKind × Bytes)}
    (happended : ∀ e ∈ appended, e.2.length ≤ limits.maxJournalPayload) :
    let opened := (s.openStore create limits entropy).2.appendAll appended
    (s.openStore create limits entropy).1 = .ok () ∧ opened.limits = limits ∧
    opened.files = some ⟨some (journalFile store first.toNat (numbered first.toNat entries) ++ torn ++
      images (numbered (first.toNat + entries.length) appended)), snapshot, temporary⟩ := by
  intro opened
  let rs := numbered first.toNat entries
  have hwithin : ∀ r ∈ rs, r.Within limits := within_numbered hlimits.journalPayload hentries
  have hheader := length_journalHeader store first.toNat
  have himages := length_images rs
  have hcat : journalFile store first.toNat rs ++ torn =
      journalHeader store first.toNat ++ (images rs ++ torn) := by
    rw [journalFile, List.append_assoc]
  have hopen := openStore_of_journal hclosed hfiles rfl hsize
    (by rw [hcat]; exact journalHeaderDefect_journalHeader ..)
    (by rw [hcat, journalStore_journalHeader]; exact hstore) create entropy
  have hlast : ByteStore.scanLast limits (journalFile store first.toNat rs ++ torn)
      (journalFile store first.toNat rs ++ torn).length journalHeaderSize
      ((readLe (journalFile store first.toNat rs ++ torn) 24 8 + (2 ^ 64 - 1)) % 2 ^ 64) =
      ((rs.getLast?).map JournalRecord.sequence).getD
        ((first.toNat + (2 ^ 64 - 1)) % 2 ^ 64) := by
    have hvisit := visit_images hwithin (a := journalHeader store first.toNat) htorn
      (show rs.length < (journalFile store first.toNat rs ++ torn).length by
        rw [hcat, List.length_append, List.length_append]
        omega)
    rw [hheader] at hvisit
    rw [scanLast_eq, hcat, readLe_journalHeader_first _ _ _ first.toNat_lt]
    rw [hcat] at hvisit
    rw [show journalHeaderSize = 40 from rfl, hvisit]
    exact foldl_sequence_boundaries ..
  have hbound : ∀ before < 2 ^ 64,
      ((rs.getLast?).map JournalRecord.sequence).getD before < 2 ^ 64 := by
    intro before hbefore
    cases hgot : rs.getLast? with
    | none => exact hbefore
    | some r => exact (hwithin r (List.mem_of_getLast? hgot)).sequence
  have hnext := hbound ((first.toNat + (2 ^ 64 - 1)) % 2 ^ 64) (Nat.mod_lt _ (by decide))
  have hnumbered := numbered_congr
    (last_sequence_numbered (before_first first.toNat) entries) appended
  rw [hlast] at hopen
  -- from here on the last number matters only through these two facts
  generalize ((rs.getLast?).map JournalRecord.sequence).getD
    ((first.toNat + (2 ^ 64 - 1)) % 2 ^ 64) = last at hopen hnext hnumbered
  have hisOpen : (s.openStore create limits entropy).2.isOpen = true := by rw [hopen]
  have hfiles' : (s.openStore create limits entropy).2.files =
      some ⟨some (journalFile store first.toNat rs ++ torn), snapshot, temporary⟩ := by
    rw [hopen]
    exact hfiles
  have happend := ByteStore.appendAll_eq hisOpen hfiles' rfl (by rw [hopen]; exact hnext)
    (by rw [hopen]; exact happended)
  refine ⟨by rw [hopen], ?_, ?_⟩
  · simp only [opened]
    rw [happend, hopen]
  · simp only [opened]
    rw [happend, hopen]
    dsimp only
    rw [hnumbered]

/-- The two lifetimes of a store: opened on a journal with a torn tail, appended to and closed, then
opened again. -/
structure TornReopening (limits : StoreLimits) where
  store : StoreId
  first : UInt64
  entries : List (RecordKind × Bytes)
  torn : JournalRecord
  kept : Nat
  appended : List (RecordKind × Bytes)
  temporary : Option Bytes := none
  create : Bool := false
  entropy : UInt64 := 0
  nonNil : store ≠ .nil
  entriesSized : ∀ e ∈ entries, e.2.length ≤ limits.maxJournalPayload
  tornWithin : torn.Within limits
  keptShort : kept < torn.image.length
  appendedSized : ∀ e ∈ appended, e.2.length ≤ limits.maxJournalPayload

namespace TornReopening

variable {limits : StoreLimits} (t : TornReopening limits)

/-- The journal the first lifetime finds. -/
def found : Bytes :=
  journalFile t.store t.first.toNat (numbered t.first.toNat t.entries) ++ t.torn.image.take t.kept

def start : ByteStore := { files := some ⟨some t.found, none, t.temporary⟩ }

def opened : ByteStore := (t.start.openStore t.create limits t.entropy).2

def reopened : ByteStore :=
  ((t.opened.appendAll t.appended).close.openStore t.create limits t.entropy).2

/-- The records the store should hold: those found and those appended, numbered on. -/
def history : List JournalRecord := numbered t.first.toNat (t.entries ++ t.appended)

theorem history_eq : t.history = numbered t.first.toNat t.entries ++
    numbered (t.first.toNat + t.entries.length) t.appended := numbered_append ..

/-- The journal the second lifetime finds. -/
def left : Bytes := t.found ++ images (numbered (t.first.toNat + t.entries.length) t.appended)

theorem probe_torn : t.torn.image.take t.kept = [] ∨
    probeRecord limits (t.torn.image.take t.kept) 0 = none :=
  .inr (probeRecord_take t.tornWithin t.keptShort)

/-- What the second lifetime loads is the file the first one left. -/
theorem load_reopened (hlimits : limits.Sized) (hsize : t.left.length ≤ limits.maxJournalLoadBytes)
    (out : DurableState) :
    t.reopened.load out = loadFiles limits ⟨some t.left, none, t.temporary⟩ out := by
  have hfound : t.found.length ≤ limits.maxJournalLoadBytes := by
    rw [left, List.length_append] at hsize
    omega
  obtain ⟨-, hlimit, hfiles⟩ := reopened_files hlimits t.nonNil t.first t.entriesSized t.probe_torn
    (s := t.start) rfl rfl hfound t.create t.entropy t.appendedSized
  have hclosed : ((t.opened.appendAll t.appended).close).isOpen = false := rfl
  have hfiles' : ((t.opened.appendAll t.appended).close).files =
      some ⟨some t.left, none, t.temporary⟩ := hfiles
  have hcat : t.left = journalHeader t.store t.first.toNat ++
      (images (numbered t.first.toNat t.entries) ++ (t.torn.image.take t.kept ++
        images (numbered (t.first.toNat + t.entries.length) t.appended))) := by
    rw [left, found, journalFile]
    simp only [List.append_assoc]
  have hopen := openStore_of_journal hclosed hfiles' rfl hsize
    (by rw [hcat]; exact journalHeaderDefect_journalHeader ..)
    (by rw [hcat, journalStore_journalHeader]; exact t.nonNil) t.create t.entropy
  rw [reopened, hopen, ByteStore.load]
  dsimp only
  rw [hfiles', Option.getD_some]

theorem within_entries (hlimits : limits.Sized) :
    ∀ r ∈ numbered t.first.toNat t.entries, r.Within limits :=
  within_numbered hlimits.journalPayload t.entriesSized

/-- A record appended after torn bytes is corruption to the next load. -/
theorem corrupt_of_torn (hlimits : limits.Sized)
    (hsize : t.left.length ≤ limits.maxJournalLoadBytes) (out : DurableState)
    (hreplay : (replayRecords 0 (journalBase t.store out)
      (numbered t.first.toNat t.entries)).isSome = true)
    (hkept : 0 < t.kept) (happended : t.appended ≠ [])
    (hprobe : probeRecord limits (t.torn.image.take t.kept ++
      images (numbered (t.first.toNat + t.entries.length) t.appended)) 0 = none) :
    (t.reopened.load out).status = some (err .corruptState
      "journal contains an unreadable record followed by readable records") := by
  have hkeptLength : (t.torn.image.take t.kept).length = t.kept := by
    have h := t.keptShort
    rw [List.length_take]
    omega
  have hleft : t.left = journalFile t.store t.first.toNat (numbered t.first.toNat t.entries) ++
      (t.torn.image.take t.kept ++
        images (numbered (t.first.toNat + t.entries.length) t.appended)) := by
    rw [left, found, List.append_assoc]
  obtain ⟨st, hst⟩ := Option.isSome_iff_exists.mp hreplay
  rw [t.load_reopened hlimits hsize, hleft]
  rw [hleft] at hsize
  obtain ⟨-, hok⟩ := loadFiles_journal t.store t.first.toNat (t.within_entries hlimits) (.inr hprobe)
    hsize t.temporary out
  obtain ⟨-, -, hcorrupt⟩ := hok st hst
  refine hcorrupt ?_ ⟨t.kept, hkept, ?_⟩
  · intro he
    have hlength := congrArg List.length he
    rw [List.length_append, List.length_nil] at hlength
    omega
  · obtain ⟨e, rest, hcons⟩ : ∃ e rest, t.appended = e :: rest := List.exists_cons_of_ne_nil happended
    have hwithin : ∀ r ∈ numbered (t.first.toNat + t.entries.length) t.appended, r.Within limits :=
      within_numbered hlimits.journalPayload t.appendedSized
    rw [hcons, numbered_cons] at hwithin ⊢
    rw [images, List.flatMap_cons]
    have hat := probeRecord_at (hwithin _ List.mem_cons_self) (t.torn.image.take t.kept)
      (images (numbered (t.first.toNat + t.entries.length + 1) rest))
    rw [hkeptLength] at hat
    rw [images] at hat
    rw [hat]
    rfl

end TornReopening

/-- A store that finds a torn tail stays usable when the tail is empty or nothing is appended: the next
load replays the records found and those appended, numbered on. A record appended after torn bytes is
called corruption by the next load, unless the two happen to read together as a record. -/
theorem torn_tail_then_append (limits : StoreLimits) (hlimits : limits.Sized)
    (t : TornReopening limits) (hsize : t.left.length ≤ limits.maxJournalLoadBytes)
    (out : DurableState) (hfirst : (t.opened.load out).status = none)
    (hdecode : (replayRecords 0 (journalBase t.store out) t.history).isSome = true) :
    (t.kept = 0 ∨ t.appended = [] → (t.reopened.load out).status = none ∧
      replayRecords 0 (journalBase t.store out) t.history = some (t.reopened.load out).state) ∧
    (t.kept ≠ 0 → t.appended ≠ [] → probeRecord limits (t.torn.image.take t.kept ++
        images (numbered (t.first.toNat + t.entries.length) t.appended)) 0 = none →
      (t.reopened.load out).status = some (err .corruptState
        "journal contains an unreadable record followed by readable records")) := by
  obtain ⟨final, hfinal⟩ := Option.isSome_iff_exists.mp hdecode
  have hentries : ∃ st, replayRecords 0 (journalBase t.store out)
      (numbered t.first.toNat t.entries) = some st := by
    rw [t.history_eq, replayRecords_append] at hfinal
    obtain ⟨st, hst, -⟩ := Option.bind_eq_some_iff.mp hfinal
    exact ⟨st, hst⟩
  refine ⟨?_, ?_⟩
  · intro hcond
    rcases hcond with hkept | happended
    · -- no torn bytes: the file is one list of records
      have hleft : t.left = journalFile t.store t.first.toNat t.history ++ [] := by
        rw [TornReopening.left, TornReopening.found, hkept, List.take_zero, List.append_nil,
          List.append_nil, t.history_eq, journalFile, journalFile, images_append, List.append_assoc]
      have hwithin : ∀ r ∈ t.history, r.Within limits :=
        within_numbered hlimits.journalPayload fun e he =>
          (List.mem_append.mp he).elim (t.entriesSized e) (t.appendedSized e)
      rw [t.load_reopened hlimits hsize, hleft]
      rw [hleft] at hsize
      obtain ⟨-, hok⟩ := loadFiles_journal t.store t.first.toNat hwithin (.inl rfl) hsize t.temporary out
      obtain ⟨hstatus, hstate, -⟩ := (hok final hfinal).1 rfl
      rw [hstate]
      exact ⟨hstatus, hfinal⟩
    · -- nothing appended: the file is the one the first load read
      have hleft : t.left = t.found := by
        rw [TornReopening.left, happended, show numbered _ [] = [] from rfl, images, List.flatMap_nil,
          List.append_nil]
      have hsize' : t.found.length ≤ limits.maxJournalLoadBytes := by
        rw [← hleft]
        exact hsize
      have hnil : ∀ e ∈ ([] : List (RecordKind × Bytes)), e.2.length ≤ limits.maxJournalPayload :=
        fun _ h => (by cases h)
      obtain ⟨-, hlimit, hfiles⟩ := reopened_files hlimits t.nonNil t.first t.entriesSized t.probe_torn
        (s := t.start) rfl rfl hsize' t.create t.entropy hnil
      have hload : t.opened.load out = loadFiles limits ⟨some t.found, none, t.temporary⟩ out := by
        rw [ByteStore.load]
        have hfiles' : t.opened.files = some ⟨some t.found, none, t.temporary⟩ := by
          rw [show numbered _ [] = [] from rfl, images, List.flatMap_nil, List.append_nil] at hfiles
          exact hfiles
        rw [hfiles', Option.getD_some]
        exact congrArg (fun l => loadFiles l _ out) hlimit
      rw [t.load_reopened hlimits hsize, hleft, ← hload]
      refine ⟨hfirst, ?_⟩
      have hhistory : t.history = numbered t.first.toNat t.entries := by
        rw [t.history_eq, happended]
        exact List.append_nil _
      obtain ⟨-, hok⟩ := loadFiles_journal t.store t.first.toNat (t.within_entries hlimits) t.probe_torn
        hsize' t.temporary out
      rw [hhistory] at hfinal ⊢
      obtain ⟨hwhole, htorn, hcorrupt⟩ := hok final hfinal
      rw [hload] at hfirst ⊢
      by_cases hempty : t.torn.image.take t.kept = []
      · rw [hfinal]
        exact congrArg some (hwhole hempty).2.1.symm
      · by_cases hlater : ∃ offset > 0,
            (probeRecord limits (t.torn.image.take t.kept) offset).isSome = true
        · have hstatus := hcorrupt hempty hlater
          rw [show journalFile t.store t.first.toNat (numbered t.first.toNat t.entries) ++
            t.torn.image.take t.kept = t.found from rfl, hfirst] at hstatus
          cases hstatus
        · have hnone : ∀ offset > 0, probeRecord limits (t.torn.image.take t.kept) offset = none := by
            intro offset hoffset
            cases hprobe : probeRecord limits (t.torn.image.take t.kept) offset with
            | none => rfl
            | some b => exact absurd ⟨offset, hoffset, by rw [hprobe]; rfl⟩ hlater
          rw [hfinal]
          exact congrArg some (htorn hempty hnone).2.1.symm
  · intro hkept happended hprobe
    obtain ⟨st, hst⟩ := hentries
    exact t.corrupt_of_torn hlimits hsize out (by rw [hst]; rfl) (Nat.pos_of_ne_zero hkept) happended
      hprobe

/-- A barrier record. -/
def barrierRecord : JournalRecord := ⟨.barrier, 1, barrierRecordCodec.write {}⟩

/-- An empty journal with a torn tail of `kept` bytes, and one barrier appended. -/
def barrierReopening (kept : Nat) (h : kept < barrierRecord.image.length) : TornReopening {} where
  store := ⟨5⟩
  first := 1
  entries := []
  torn := barrierRecord
  kept := kept
  appended := [(.barrier, barrierRecordCodec.write {})]
  nonNil := by decide
  entriesSized := by decide
  tornWithin := ⟨by decide, by decide, by decide⟩
  keptShort := h
  appendedSized := by decide

theorem torn_tail_then_append_barrier :
    let t := barrierReopening 0 (by decide +kernel)
    (t.opened.load {}).status = none ∧ (t.reopened.load {}).status = none := by
  intro t
  have hfirst : (t.opened.load {}).status = none := by decide +kernel
  have hsized : StoreLimits.Sized {} := ⟨by decide, by decide⟩
  exact ⟨hfirst, ((torn_tail_then_append {} hsized t (by decide +kernel) {} hfirst
    (by decide +kernel)).1 (.inl rfl)).1⟩

/-- One torn byte is enough: the barrier appended after it makes the store unreadable. -/
theorem torn_tail_then_append_fails :
    let t := barrierReopening 1 (by decide +kernel)
    (t.opened.load {}).status = none ∧
    (replayRecords 0 (journalBase t.store {}) t.history).isSome = true ∧
    (t.reopened.load {}).status = some (err .corruptState
      "journal contains an unreadable record followed by readable records") := by
  intro t
  have hsized : StoreLimits.Sized {} := ⟨by decide, by decide⟩
  exact ⟨by decide +kernel, by decide +kernel,
    t.corrupt_of_torn hsized (by decide +kernel) {} rfl (by decide) (List.cons_ne_nil _ _)
      (by decide +kernel)⟩

end ExecutionFabric
