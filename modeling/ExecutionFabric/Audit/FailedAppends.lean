import ExecutionFabric.Audit.JournalDamage

/-!
# Appends that fail

A failed append leaves what it wrote in the file and the next append goes after it, under the
same number. So a store survives failed appends as long as none of the bytes they left is
followed by a record, and none of those bytes reads as one.
-/
namespace ExecutionFabric

open Lib JournalRecord

/-! ## Attempts -/

/-- One call of `append` and how its I/O goes. -/
structure Attempt where
  kind : RecordKind
  payload : Bytes
  fate : AppendFate := .completed
  deriving DecidableEq, Repr

def Attempt.succeeds (limits : StoreLimits) (a : Attempt) : Bool :=
  a.payload.length ≤ limits.maxJournalPayload ∧ a.fate = .completed

/-- The call wrote nothing at all. -/
def Attempt.silent (limits : StoreLimits) (a : Attempt) : Bool :=
  limits.maxJournalPayload < a.payload.length ∨ a.fate = .written 0

/-- What a failed call leaves in the file. -/
def Attempt.left (limits : StoreLimits) (sequence : Nat) (a : Attempt) : Bytes :=
  if limits.maxJournalPayload < a.payload.length then []
  else match a.fate with
    | .written bytes => (buildRecordImage a.kind sequence a.payload).take bytes
    | _ => buildRecordImage a.kind sequence a.payload

namespace ByteStore

def attempt (s : ByteStore) (a : Attempt) : Except Status Nat × ByteStore :=
  s.appendUnder a.fate a.kind a.payload

def attemptAll (s : ByteStore) (attempts : List Attempt) : ByteStore :=
  attempts.foldl (fun s a => (s.attempt a).2) s

/-- The records whose append returned success. -/
def acknowledged : ByteStore → List Attempt → List JournalRecord
  | _, [] => []
  | s, a :: rest =>
    match (s.attempt a).1 with
    | .ok written => ⟨a.kind, written, a.payload⟩ :: acknowledged (s.attempt a).2 rest
    | .error _ => acknowledged (s.attempt a).2 rest

theorem attemptAll_append (s : ByteStore) (before after : List Attempt) :
    s.attemptAll (before ++ after) = (s.attemptAll before).attemptAll after :=
  List.foldl_append

theorem acknowledged_append (s : ByteStore) (before after : List Attempt) :
    s.acknowledged (before ++ after) =
      s.acknowledged before ++ (s.attemptAll before).acknowledged after := by
  induction before generalizing s with
  | nil => rfl
  | cons a rest ih =>
    rw [List.cons_append, acknowledged, acknowledged]
    cases (s.attempt a).1 with
    | ok sequence => rw [List.cons_append]; exact congrArg _ (ih _)
    | error e => exact ih _

section Attempts

variable {s : ByteStore} {a : Attempt}

theorem attempt_succeeds (h : a.succeeds s.limits = true) :
    s.attempt a = s.append a.kind a.payload := by
  have hfate : a.fate = .completed := (of_decide_eq_true h).2
  rw [attempt, hfate]
  rfl

theorem attempt_fails (hopen : s.isOpen = true) (h : a.succeeds s.limits = false) :
    (∃ e, (s.attempt a).1 = .error e) ∧ (s.attempt a).2 = { s with
      files := s.files.map fun files => { files with
        journal := files.journal.map fun journal =>
          journal ++ a.left s.limits (nextSequence s.lastSequence) } } := by
  have hsame : s.files.map (fun files => { files with
      journal := files.journal.map fun journal => journal ++ ([] : Bytes) }) = s.files := by
    cases s.files with
    | none => rfl
    | some files => cases files with | mk journal snapshot temporary => cases journal <;> simp
  unfold attempt appendUnder
  rw [if_neg (by rw [hopen]; simp)]
  by_cases hlong : a.payload.length > s.limits.maxJournalPayload
  · rw [if_pos hlong]
    refine ⟨⟨_, rfl⟩, ?_⟩
    unfold Attempt.left
    rw [if_pos hlong, hsame]
  · rw [if_neg hlong]
    unfold Attempt.left
    rw [if_neg hlong]
    cases hfate : a.fate with
    | completed =>
      have hsucceeds : a.succeeds s.limits = true := decide_eq_true ⟨Nat.le_of_not_lt hlong, hfate⟩
      rw [h] at hsucceeds
      cases hsucceeds
    | written bytes => exact ⟨⟨_, rfl⟩, rfl⟩
    | unflushed => exact ⟨⟨_, rfl⟩, rfl⟩

end Attempts

end ByteStore

/-! ## Failures after the last record -/

/-- The payloads of the calls that succeed. -/
def accepted (limits : StoreLimits) (attempts : List Attempt) : List (RecordKind × Bytes) :=
  (attempts.filter fun a => a.succeeds limits).map fun a => (a.kind, a.payload)

theorem accepted_within (limits : StoreLimits) (attempts : List Attempt) :
    ∀ e ∈ accepted limits attempts, e.2.length ≤ limits.maxJournalPayload := by
  intro e he
  obtain ⟨a, ha, rfl⟩ := List.mem_map.mp he
  exact (of_decide_eq_true (List.mem_filter.mp ha).2).1

/-- No call succeeds after one that failed and left bytes. -/
def FailuresLast (limits : StoreLimits) (attempts : List Attempt) : Prop :=
  ∃ before after, attempts = before ++ after ∧
    (∀ a ∈ before, a.succeeds limits = true ∨ a.silent limits = true) ∧
    ∀ a ∈ after, a.succeeds limits = false

/-- The bytes a list of failed calls leaves. -/
def remnants (limits : StoreLimits) (last : Nat) (after : List Attempt) : Bytes :=
  after.flatMap (Attempt.left limits (nextSequence last))

theorem left_silent {limits : StoreLimits} {a : Attempt} (h : a.silent limits = true)
    (sequence : Nat) : a.left limits sequence = [] := by
  unfold Attempt.left
  split
  · rfl
  next hshort =>
    have hfate : a.fate = .written 0 := (of_decide_eq_true h).resolve_left hshort
    rw [hfate]
    exact List.take_zero

namespace ByteStore

/-- Failed calls only add what they leave. -/
theorem attemptAll_failing {after : List Attempt} {s : ByteStore} (hopen : s.isOpen = true)
    {files : Files} (hfiles : s.files = some files) {journal : Bytes}
    (hjournal : files.journal = some journal) (hafter : ∀ a ∈ after, a.succeeds s.limits = false) :
    s.acknowledged after = [] ∧ s.attemptAll after = { s with
      files := some { files with
        journal := some (journal ++ remnants s.limits s.lastSequence after) } } := by
  induction after generalizing s files journal with
  | nil =>
    refine ⟨rfl, ?_⟩
    have hsame : { files with journal := some (journal ++ remnants s.limits s.lastSequence []) } =
        files := by
      cases files
      cases hjournal
      simp [remnants]
    rw [hsame, ← hfiles]
    rfl
  | cons a rest ih =>
    obtain ⟨⟨e, he⟩, hs⟩ := attempt_fails hopen (hafter a List.mem_cons_self)
    rw [hfiles, Option.map_some, hjournal, Option.map_some] at hs
    have hrest : ∀ b ∈ rest, b.succeeds (s.attempt a).2.limits = false := by
      intro b hb
      rw [hs]
      exact hafter b (List.mem_cons_of_mem _ hb)
    obtain ⟨hnone, hall⟩ := ih (s := (s.attempt a).2) (by rw [hs]; exact hopen) (by rw [hs]) rfl hrest
    refine ⟨?_, ?_⟩
    · rw [acknowledged, he]
      exact hnone
    · refine Eq.trans hall ?_
      rw [hs]
      unfold remnants
      rw [List.flatMap_cons, List.append_assoc]

theorem append_accepted {s : ByteStore} (hopen : s.isOpen = true) {files : Files}
    (hfiles : s.files = some files) {journal : Bytes} (hjournal : files.journal = some journal)
    (kind : RecordKind) {payload : Bytes} (hpayload : payload.length ≤ s.limits.maxJournalPayload) :
    s.append kind payload = (.ok (nextSequence s.lastSequence), { s with
      files := some { files with
        journal := some (journal ++ buildRecordImage kind (nextSequence s.lastSequence) payload) }
      lastSequence := nextSequence s.lastSequence }) := by
  rw [append, if_neg (by rw [hopen]; simp), if_neg (Nat.not_lt.mpr hpayload), hfiles]
  simp only [Option.map_some, hjournal]

/-- Calls of which the failing ones wrote nothing are the successful ones alone. -/
theorem attemptAll_clean {before : List Attempt} {s : ByteStore} (hopen : s.isOpen = true)
    {files : Files} (hfiles : s.files = some files) {journal : Bytes}
    (hjournal : files.journal = some journal) (hlast : s.lastSequence < 2 ^ 64)
    (hbefore : ∀ a ∈ before, a.succeeds s.limits = true ∨ a.silent s.limits = true) :
    s.acknowledged before = numbered (s.lastSequence + 1) (accepted s.limits before) ∧
      s.attemptAll before = s.appendAll (accepted s.limits before) := by
  induction before generalizing s files journal with
  | nil => exact ⟨rfl, rfl⟩
  | cons a rest ih =>
    cases hsucceeds : a.succeeds s.limits with
    | true =>
      have happend := append_accepted hopen hfiles hjournal a.kind
        (of_decide_eq_true hsucceeds).1
      have hattempt := attempt_succeeds hsucceeds
      have haccepted : accepted s.limits (a :: rest) =
          (a.kind, a.payload) :: accepted s.limits rest := by
        unfold accepted
        rw [List.filter_cons_of_pos hsucceeds, List.map_cons]
      rw [haccepted, numbered_cons, acknowledged, hattempt, happend]
      have hnext : nextSequence s.lastSequence < 2 ^ 64 := Nat.mod_lt _ (by decide)
      have hrest : ∀ b ∈ rest, b.succeeds s.limits = true ∨ b.silent s.limits = true :=
        fun b hb => hbefore b (List.mem_cons_of_mem _ hb)
      obtain ⟨hacked, hall⟩ := ih (s := (s.append a.kind a.payload).2) (by rw [happend]; exact hopen)
        (by rw [happend]) rfl (by rw [happend]; exact hnext) (by rw [happend]; exact hrest)
      have hcongr : numbered (nextSequence s.lastSequence + 1) (accepted s.limits rest) =
          numbered (s.lastSequence + 1 + 1) (accepted s.limits rest) :=
        numbered_congr (by rw [nextSequence]; omega) _
      rw [happend] at hacked
      dsimp only at hacked ⊢
      rw [hcongr] at hacked
      rw [hacked]
      refine ⟨rfl, ?_⟩
      have hlimits : (s.append a.kind a.payload).2.limits = s.limits := by rw [happend]
      rw [hlimits] at hall
      show ((s.attempt a).2).attemptAll rest = _
      rw [hattempt]
      exact hall
    | false =>
      have hsilent := (hbefore a List.mem_cons_self).resolve_left (by rw [hsucceeds]; simp)
      obtain ⟨⟨e, he⟩, hs⟩ := attempt_fails hopen hsucceeds
      have hsame : (s.attempt a).2 = s := by
        rw [hs, left_silent hsilent, hfiles, Option.map_some, hjournal, Option.map_some,
          List.append_nil, ← hjournal, ← hfiles]
      have haccepted : accepted s.limits (a :: rest) = accepted s.limits rest := by
        unfold accepted
        rw [List.filter_cons_of_neg (by rw [hsucceeds]; simp)]
      rw [haccepted, acknowledged, he]
      show (s.attempt a).2.acknowledged rest = _ ∧ (s.attempt a).2.attemptAll rest = _
      rw [hsame]
      exact ih hopen hfiles hjournal hlast fun b hb => hbefore b (List.mem_cons_of_mem _ hb)

end ByteStore

/-! ## What a later open and load find -/

/-- A store that was created, after the calls. -/
def attempted (limits : StoreLimits) (entropy : UInt64) (attempts : List Attempt) : ByteStore :=
  (ByteStore.openStore {} true limits entropy).2.attemptAll attempts

/-- The records a created store acknowledged. -/
def acked (limits : StoreLimits) (entropy : UInt64) (attempts : List Attempt) :
    List JournalRecord :=
  (ByteStore.openStore {} true limits entropy).2.acknowledged attempts

/-- The journal the calls leave. -/
def leftJournal (limits : StoreLimits) (entropy : UInt64) (attempts : List Attempt) : Bytes :=
  (((attempted limits entropy attempts).files.getD {}).journal).getD []

/-- What follows the images of the acknowledged records. -/
def leftTail (limits : StoreLimits) (entropy : UInt64) (attempts : List Attempt) : Bytes :=
  (leftJournal limits entropy attempts).drop (40 + (images (acked limits entropy attempts)).length)

/-- A later process opens the files. -/
def reopenedLater (limits : StoreLimits) (entropy : UInt64) (attempts : List Attempt) :
    Except Status Unit × ByteStore :=
  ByteStore.openStore { files := (attempted limits entropy attempts).files } false limits entropy

/-- The records a load goes through. -/
def loadedRecords (limits : StoreLimits) (journal : Bytes) : List JournalRecord :=
  (visit limits journal journal.length journalHeaderSize).1.map fun b =>
    ⟨b.kind, b.sequence, slice journal b.payloadOffset b.payloadSize⟩

/-- A later open and load succeed and yield the acknowledged records, in order and under increasing
numbers. -/
structure RecoversAcked (limits : StoreLimits) (entropy : UInt64) (attempts : List Attempt) :
    Prop where
  opens : (reopenedLater limits entropy attempts).1 = .ok ()
  loads : ((reopenedLater limits entropy attempts).2.load {}).status = none
  records : loadedRecords limits (leftJournal limits entropy attempts) = acked limits entropy attempts
  state : applyRecords (journalBase ⟨entropy⟩ {}) (acked limits entropy attempts) =
    some ((reopenedLater limits entropy attempts).2.load {}).state
  increasing : ((acked limits entropy attempts).map JournalRecord.sequence).Pairwise (· < ·)

section Later

variable {limits : StoreLimits} {entropy : UInt64}

/-- When the failures come last, the file is the acknowledged records and what the failures left. -/
theorem attempted_files (hentropy : entropy ≠ 0) (hsize : 40 ≤ limits.maxJournalLoadBytes)
    {attempts : List Attempt} (h : FailuresLast limits attempts) :
    ∃ entries tail, (∀ e ∈ entries, e.2.length ≤ limits.maxJournalPayload) ∧
      acked limits entropy attempts = numbered 1 entries ∧
      (attempted limits entropy attempts).files =
        some ⟨some (journalFile ⟨entropy⟩ 1 (numbered 1 entries) ++ tail), none, none⟩ := by
  obtain ⟨before, after, rfl, hbefore, hafter⟩ := h
  have hfresh : ByteStore.openStore {} true limits entropy = _ := openStore_fresh hentropy hsize
  have hcreated := congrArg Prod.snd hfresh
  unfold acked attempted
  generalize (ByteStore.openStore {} true limits entropy).2 = s at hcreated ⊢
  have hopen : s.isOpen = true := by rw [hcreated]
  have hfiles : s.files = some { journal := some (journalHeader ⟨entropy⟩ 1) } := by rw [hcreated]
  have hlast : s.lastSequence = 0 := by rw [hcreated]
  have hlimits : s.limits = limits := by rw [hcreated]
  clear hcreated
  subst hlimits
  rw [ByteStore.acknowledged_append, ByteStore.attemptAll_append]
  obtain ⟨hacked, hclean⟩ := ByteStore.attemptAll_clean hopen hfiles rfl (by omega) hbefore
  have happended := ByteStore.appendAll_eq hopen hfiles rfl (by omega)
    (accepted_within s.limits before)
  rw [hlast] at hacked
  rw [hacked, hclean, happended]
  obtain ⟨hnone, hall⟩ := ByteStore.attemptAll_failing (s := { s with
      files := some { journal := some (journalHeader ⟨entropy⟩ 1 ++
        images (numbered (s.lastSequence + 1) (accepted s.limits before))) }
      lastSequence := (s.lastSequence + (accepted s.limits before).length) % 2 ^ 64 })
    hopen rfl rfl hafter
  refine ⟨accepted s.limits before, remnants s.limits
    ((s.lastSequence + (accepted s.limits before).length) % 2 ^ 64) after,
    accepted_within s.limits before, ?_, ?_⟩
  · rw [hnone, List.append_nil]
  · rw [hall, hlast]
    rfl

/-- A record that reads where the images end is visited too. -/
theorem visit_images_more {rs : List JournalRecord} (hrs : ∀ r ∈ rs, r.Within limits)
    {a tail : Bytes} (htail : (probeRecord limits tail 0).isSome = true) {fuel : Nat}
    (hfuel : rs.length < fuel) :
    rs.length < (visit limits (a ++ (images rs ++ tail)) fuel a.length).1.length := by
  induction rs generalizing a fuel with
  | nil =>
    obtain ⟨fuel, rfl⟩ : ∃ n, fuel = n + 1 := ⟨fuel - 1, by omega⟩
    obtain ⟨b, hb⟩ := Option.isSome_iff_exists.mp htail
    have hroom := (probeRecord_eq_some_iff.mp hb).room
    have hshift := probeRecord_append_right limits a tail 0
    rw [Nat.add_zero, hb, Option.map_some] at hshift
    rw [visit, show images [] ++ tail = tail from rfl,
      if_pos (by rw [List.length_append]; omega), hshift]
    exact Nat.succ_pos _
  | cons r rs ih =>
    obtain ⟨fuel, rfl⟩ : ∃ n, fuel = n + 1 := ⟨fuel - 1, by simp at hfuel; omega⟩
    have hr := hrs r List.mem_cons_self
    have hcat : a ++ (images (r :: rs) ++ tail) = a ++ (r.image ++ (images rs ++ tail)) := by
      simp only [images, List.flatMap_cons, List.append_assoc]
    have hpos := r.length_image_pos
    rw [hcat, visit, if_pos (by simp only [List.length_append]; omega), probeRecord_at hr]
    dsimp only
    have hrest := ih (fun x hx => hrs x (List.mem_cons_of_mem _ hx)) (a := a ++ r.image)
      (Nat.lt_of_succ_lt_succ hfuel)
    rw [List.append_assoc, List.length_append] at hrest
    rw [show (r.boundary a.length).totalSize = r.image.length from (length_image r).symm,
      List.length_cons, List.length_cons]
    exact Nat.succ_lt_succ hrest

theorem increasing_numbered {first : Nat} {entries : List (RecordKind × Bytes)}
    (h : first + entries.length < 2 ^ 64) :
    ((numbered first entries).map JournalRecord.sequence).Pairwise (· < ·) := by
  induction entries generalizing first with
  | nil => exact List.Pairwise.nil
  | cons e rest ih =>
    rw [numbered_cons, List.map_cons, List.pairwise_cons]
    rw [List.length_cons] at h
    refine ⟨?_, ih (by omega)⟩
    intro n hn
    obtain ⟨r, hr, rfl⟩ := List.mem_map.mp hn
    obtain ⟨i, hi, rfl⟩ := List.mem_mapIdx.mp hr
    dsimp only
    rw [Nat.mod_eq_of_lt (by omega), Nat.mod_eq_of_lt (by omega)]
    omega

end Later

/-- **When no record follows a failure, a later open and load recover exactly the acknowledged
records, unless something the failures left reads as a record.** -/
theorem failed_appends_recover_iff (limits : StoreLimits) (hlimits : limits.Sized)
    (entropy : UInt64) (hentropy : entropy ≠ 0) (hsize : 40 ≤ limits.maxJournalLoadBytes)
    (attempts : List Attempt) (h : FailuresLast limits attempts) :
    RecoversAcked limits entropy attempts ↔
      (leftJournal limits entropy attempts).length ≤ limits.maxJournalLoadBytes ∧
        (applyRecords (journalBase ⟨entropy⟩ {}) (acked limits entropy attempts)).isSome = true ∧
        ∀ offset, probeRecord limits (leftTail limits entropy attempts) offset = none := by
  obtain ⟨entries, tail, hentries, hacked, hfiles⟩ := attempted_files hentropy hsize h
  have hheader := length_journalHeader ⟨entropy⟩ 1
  have hwithin : ∀ r ∈ numbered 1 entries, r.Within limits :=
    within_numbered hlimits.journalPayload hentries
  have hjournal : leftJournal limits entropy attempts =
      journalFile ⟨entropy⟩ 1 (numbered 1 entries) ++ tail := by
    unfold leftJournal
    rw [hfiles]
    rfl
  have hcat : journalFile ⟨entropy⟩ 1 (numbered 1 entries) ++ tail =
      journalHeader ⟨entropy⟩ 1 ++ (images (numbered 1 entries) ++ tail) := by
    rw [journalFile, List.append_assoc]
  have htail : leftTail limits entropy attempts = tail := by
    unfold leftTail
    rw [hjournal, hacked, journalFile]
    exact List.drop_left' (by rw [List.length_append, hheader])
  have hopens : (leftJournal limits entropy attempts).length ≤ limits.maxJournalLoadBytes →
      (reopenedLater limits entropy attempts).1 = .ok () ∧
      (reopenedLater limits entropy attempts).2.load {} = loadFiles limits
        ⟨some (journalFile ⟨entropy⟩ 1 (numbered 1 entries) ++ tail), none, none⟩ {} := by
    intro hlong
    rw [hjournal] at hlong
    have hopen := openStore_of_journal (s := { files := (attempted limits entropy attempts).files })
      rfl hfiles rfl hlong (by rw [hcat]; exact journalHeaderDefect_journalHeader ..)
      (by rw [hcat, journalStore_journalHeader]; exact fun he => hentropy (congrArg Id.value he))
      false entropy
    refine ⟨congrArg Prod.fst hopen, ?_⟩
    unfold reopenedLater ByteStore.load
    rw [hopen]
    dsimp only
    rw [hfiles, Option.getD_some]
  constructor
  · intro hrecovers
    have hlong : (leftJournal limits entropy attempts).length ≤ limits.maxJournalLoadBytes := by
      by_contra hlong
      have hrefused := hrecovers.opens
      unfold reopenedLater ByteStore.openStore at hrefused
      rw [if_neg (by simp), hfiles] at hrefused
      dsimp only [Option.getD] at hrefused
      rw [ByteStore.readJournal, readFile, if_pos (by rw [← hjournal]; exact Nat.lt_of_not_le hlong)]
        at hrefused
      cases hrefused
    refine ⟨hlong, by rw [hrecovers.state]; rfl, fun offset => ?_⟩
    rw [htail]
    have hstart : probeRecord limits tail 0 = none := by
      cases hprobe : probeRecord limits tail 0 with
      | none => rfl
      | some b =>
        have himages := length_images (numbered 1 entries)
        have hwhole : (probeRecord limits tail 0).isSome = true := by
          rw [hprobe]
          rfl
        have hfuel : (numbered 1 entries).length < (leftJournal limits entropy attempts).length := by
          rw [hjournal, hcat, List.length_append, List.length_append]
          omega
        have hmore := visit_images_more hwithin (a := journalHeader ⟨entropy⟩ 1) hwhole hfuel
        have hrecords := congrArg List.length hrecovers.records
        unfold loadedRecords at hrecords
        rw [List.length_map, hacked] at hrecords
        rw [← hcat, ← hjournal, hheader] at hmore
        exact absurd hrecords (Nat.ne_of_gt hmore)
    by_cases hzero : offset = 0
    · rw [hzero]
      exact hstart
    cases hprobe : probeRecord limits tail offset with
    | none => rfl
    | some b =>
      exfalso
      have hne : tail ≠ [] := by
        rintro rfl
        have hroom := (probeRecord_eq_some_iff.mp hprobe).room
        simp at hroom
      obtain ⟨hbad, hgood⟩ := loadFiles_journal ⟨entropy⟩ 1 hwithin (.inr hstart)
        (by rw [← hjournal]; exact hlong) none {}
      have hloads := hrecovers.loads
      rw [(hopens hlong).2] at hloads
      cases hreplay : replayRecords 0 (journalBase ⟨entropy⟩ {}) (numbered 1 entries) with
      | none => exact hbad hreplay hloads
      | some st =>
        rw [(hgood st hreplay).2.2 hne ⟨offset, Nat.pos_of_ne_zero hzero, by rw [hprobe]; rfl⟩]
          at hloads
        cases hloads
  · rintro ⟨hlong, hdecodes, hnone⟩
    rw [htail] at hnone
    obtain ⟨hok, hload⟩ := hopens hlong
    have himages := length_images (numbered 1 entries)
    have hlength : (leftJournal limits entropy attempts).length =
        40 + (images (numbered 1 entries)).length + tail.length := by
      rw [hjournal, hcat, List.length_append, List.length_append, hheader, Nat.add_assoc]
    have hcount : entries.length + 1 < 2 ^ 64 := by
      have hload := hlimits.journalLoadBytes
      rw [numbered_length] at himages
      omega
    obtain ⟨st, hst⟩ := Option.isSome_iff_exists.mp hdecodes
    rw [hacked] at hst
    have hreplay : replayRecords 0 (journalBase ⟨entropy⟩ {}) (numbered 1 entries) = some st := by
      rw [replayRecords_zero (sequence_pos_numbered hcount), hst]
    obtain ⟨-, hgood⟩ := loadFiles_journal ⟨entropy⟩ 1 hwithin (.inr (hnone 0))
      (by rw [← hjournal]; exact hlong) none {}
    obtain ⟨hwhole, htorn, -⟩ := hgood st hreplay
    rw [← hload] at hwhole htorn
    have hended : ((reopenedLater limits entropy attempts).2.load {}).status = none ∧
        ((reopenedLater limits entropy attempts).2.load {}).state = st := by
      by_cases hempty : tail = []
      · obtain ⟨hstatus, hstate, -⟩ := hwhole hempty
        exact ⟨hstatus, hstate⟩
      · obtain ⟨hstatus, hstate, -⟩ := htorn hempty fun offset _ => hnone offset
        exact ⟨hstatus, hstate⟩
    refine ⟨hok, hended.1, ?_, ?_, ?_⟩
    · have hfuel : (numbered 1 entries).length < (leftJournal limits entropy attempts).length := by
        omega
      have hvisit := visit_images hwithin (a := journalHeader ⟨entropy⟩ 1) (.inr (hnone 0)) hfuel
      have hmap := map_boundaries (journalHeader ⟨entropy⟩ 1) (numbered 1 entries) tail
      rw [← hcat, ← hjournal, hheader] at hvisit hmap
      unfold loadedRecords
      rw [show journalHeaderSize = 40 from rfl, hvisit, hacked]
      exact hmap
    · rw [hacked, hst, hended.2]
    · rw [hacked]
      exact increasing_numbered (by omega)

/-- One barrier record, appended under the given fate. -/
def barrierUnder (fate : AppendFate) : Attempt := ⟨.barrier, barrierRecordCodec.write {}, fate⟩

/-- A write that fails after ten bytes, with nothing after it. -/
theorem failed_appends_recover_iff_barriers :
    RecoversAcked {} 5 [barrierUnder .completed, barrierUnder (.written 10)] := by
  refine (failed_appends_recover_iff {} ⟨by decide, by decide⟩ 5 (by decide) (by decide) _
    ⟨[barrierUnder .completed], [barrierUnder (.written 10)], rfl, by decide, by decide⟩).mpr
    ⟨by decide +kernel, by decide +kernel, fun offset => ?_⟩
  exact probeRecord_short (by decide +kernel) offset

/-- A write that fails after ten bytes, and then one that succeeds: the store no longer loads. -/
theorem failed_append_buries_records : ¬ ∀ limits : StoreLimits, limits.Sized →
    40 ≤ limits.maxJournalLoadBytes → ∀ (entropy : UInt64), entropy ≠ 0 →
      ∀ attempts : List Attempt, RecoversAcked limits entropy attempts := by
  intro h
  have hloads := (h {} ⟨by decide, by decide⟩ (by decide) 5 (by decide)
    [barrierUnder (.written 10), barrierUnder .completed]).loads
  revert hloads
  decide +kernel

end ExecutionFabric
