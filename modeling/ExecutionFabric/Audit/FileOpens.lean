import ExecutionFabric.Model.Opening
import ExecutionFabric.Audit.JournalDamage
import ExecutionFabric.Audit.Leases
import ExecutionFabric.Audit.Refusals

/-!
# Opening files

What an open reads of the disk, what it does with the handle and the state it starts from,
and how it ends: refused by the store, refused after a load that has already replaced the
state in memory, or opened.
-/
namespace ExecutionFabric

open Lib Program

/-! ## Runtimes that cannot be told apart -/

/-- Two runtimes with the same memory, indexes and append position. -/
structure Alike (s t : Runtime) : Prop where
  state : s.state = t.state
  actionIndex : s.actionIndex = t.actionIndex
  lastSequence : s.store.lastSequence = t.store.lastSequence
  isOpen : s.isOpen = t.isOpen
  shuttingDown : s.shuttingDown = t.shuttingDown

section Alike

variable {s t : Runtime} {α : Type}

theorem Alike.put (h : Alike s t) (e : JournalEntry) :
    Alike (s.mapJournaled (·.put e)) (t.mapJournaled (·.put e)) where
  state := by
    show (s.toJournaled.put e).state = (t.toJournaled.put e).state
    rw [Journaled.state_put, Journaled.state_put, h.state, h.lastSequence]
  actionIndex := by
    show (s.toJournaled.indexEntry e).actionIndex = (t.toJournaled.indexEntry e).actionIndex
    have hindex := h.actionIndex
    unfold Journaled.indexEntry Journaled.indexAction
    cases e <;> simp only [] <;> (try split) <;> (try split) <;> simp only [hindex]
  lastSequence := by
    show (s.toJournaled.put e).store.lastSequence = (t.toJournaled.put e).store.lastSequence
    rw [Journaled.store_put, Journaled.store_put]
    exact congrArg (· + 1) h.lastSequence
  isOpen := h.isOpen
  shuttingDown := h.shuttingDown

theorem Alike.remember (h : Alike s t) (id : RequestId) (o : CachedOutcome) :
    Alike (s.remember id o) (t.remember id o) := by
  have hs := s.sameProcess_remember id o
  have ht := t.sameProcess_remember id o
  have hjs := s.toJournaled_remember id o
  have hjt := t.toJournaled_remember id o
  exact ⟨by rw [hjs, hjt, h.state], by rw [hjs, hjt, h.actionIndex],
    by rw [hjs, hjt, h.lastSequence], by rw [hs.isOpen, ht.isOpen, h.isOpen],
    by rw [hs.shuttingDown, ht.shuttingDown, h.shuttingDown]⟩

theorem Alike.checkCaller (h : Alike s t) (caller : CallerContext) :
    ExecutionFabric.checkCaller s caller = ExecutionFabric.checkCaller t caller := by
  unfold ExecutionFabric.checkCaller checkOpen
  rw [h.state, h.isOpen, h.shuttingDown]

theorem Alike.recoveryInput (h : Alike s t) (x : ExecutionRecord) :
    ExecutionFabric.recoveryInput s.toJournaled x = ExecutionFabric.recoveryInput t.toJournaled x := by
  unfold ExecutionFabric.recoveryInput Journaled.latestAction
  rw [h.state, h.actionIndex]

theorem twin_put (h : Alike s t) {e : JournalEntry} {f g : Unit → Op α}
    (hrest : ∀ s' t', Alike s' t' → Twin Alike (f ()) (g ()) s' t') :
    Twin Alike (Op.put e >>= f) (Op.put e >>= g) s t :=
  twin_update (hrest _ _ (h.put e))

theorem twin_putAll (h : Alike s t) {es : List JournalEntry} {f g : Unit → Op α}
    (hrest : ∀ s' t', Alike s' t' → Twin Alike (f ()) (g ()) s' t') :
    Twin Alike (Op.putAll es >>= f) (Op.putAll es >>= g) s t := by
  induction es generalizing s t with
  | nil => exact hrest s t h
  | cons e rest ih =>
    unfold Op.putAll
    apply twin_assoc
    apply twin_put h
    intro s' t' h'
    exact ih h'

theorem stageCommit_twin (h : Alike s t) (x : ExecutionRecord) (a : ActionRecord)
    (request : RequestId) (evidence : Evidence) :
    Twin Alike (stageCommit x a request evidence) (stageCommit x a request evidence) s t := by
  unfold stageCommit
  apply twin_get
  rw [h.state]
  apply twin_refuseIf h
  intro _
  apply twin_put h
  intro s' t' h'
  exact twin_pure h'

theorem recordAmbiguity_twin (h : Alike s t) (x : ExecutionRecord) (plan : RecoveryPlan)
    (a : Option ActionRecord) :
    Twin Alike (recordAmbiguity x plan a) (recordAmbiguity x plan a) s t := by
  unfold recordAmbiguity
  apply twin_get
  rw [h.state]
  split
  · apply twin_put h
    intro s' t' h'
    apply twin_put h'
    intro s'' t'' h''
    exact twin_pure h''
  · exact twin_pure h

theorem commitFromReceipt_twin (h : Alike s t) (x next : ExecutionRecord) (plan : RecoveryPlan)
    (request : RequestId) (a : Option ActionRecord) :
    Twin Alike (commitFromReceipt x next plan request a)
      (commitFromReceipt x next plan request a) s t := by
  unfold commitFromReceipt
  split
  · apply twin_bind (stageCommit_twin h _ _ _ _)
    intro group s' t' h'
    apply twin_get
    rw [h'.state]
    exact twin_pure h'
  · exact twin_pure h

theorem applyRecovery_twin (h : Alike s t) (request : RequestId) (x : ExecutionRecord)
    (plan : RecoveryPlan) (a : Option ActionRecord) :
    Twin Alike (applyRecovery request x plan a) (applyRecovery request x plan a) s t := by
  unfold applyRecovery
  apply twin_get
  rw [h.state]
  apply twin_bind (recordAmbiguity_twin h _ _ _)
  intro blocked s' t' h'
  apply twin_bind (commitFromReceipt_twin h' _ _ _ _ _)
  rintro ⟨promoted, commit⟩ s' t' h'
  refine twin_provided (fun _ => ?_) h' ?_
  · unfold requireTransition refuseIf
    split <;> exact ⟨rfl, h'⟩
  intro s' t' h'
  apply twin_put h'
  intro s' t' h'
  apply twin_put h'
  intro s' t' h'
  apply twin_update
  exact twin_pure (h'.remember _ _)

theorem recoverLocked_twin (h : Alike s t) (caller : CallerContext) (request : RequestId)
    (id : ExecutionId) :
    Twin Alike (recoverLocked caller request id) (recoverLocked caller request id) s t := by
  unfold recoverLocked
  refine twin_bind ?_ ?_
  · unfold findChecked
    apply twin_get
    rw [h.state, h.checkCaller]
    apply twin_check h
    intro _ _
    unfold require
    split <;> exact ⟨rfl, h⟩
  intro x s' t' h'
  apply twin_refuseIf h'
  intro _
  apply twin_get
  rw [h'.state, h'.recoveryInput]
  exact applyRecovery_twin h' _ _ _ _

theorem recoverPending_twin (h : Alike s t) (caller : CallerContext) (ids : List ExecutionId) :
    Twin Alike (recoverPending caller ids) (recoverPending caller ids) s t := by
  induction ids generalizing s t with
  | nil => exact twin_pure h
  | cons id rest ih =>
    unfold recoverPending
    apply twin_get
    obtain ⟨hresult, hended⟩ := recoverLocked_twin h caller .nil id
    dsimp only
    rw [hresult]
    apply twin_update
    apply twin_bind (ih hended)
    intro notes s' t' h'
    exact twin_pure h'

/-- Runtimes that agree on all but the indexes and the sequence number memory remembers. -/
structure Level (s t : Runtime) : Prop where
  state : ∃ n, s.state = { t.state with sequence := n }
  lastSequence : s.store.lastSequence = t.store.lastSequence
  isOpen : s.isOpen = t.isOpen
  shuttingDown : s.shuttingDown = t.shuttingDown

/-- Runtimes that agree on all but the sequence number memory remembers. -/
structure Near (s t : Runtime) : Prop extends Level s t where
  actionIndex : s.actionIndex = t.actionIndex

/-- A reconciliation over another sequence number. -/
def Reconciliation.numbered (r : Reconciliation) (n : Nat) : Reconciliation :=
  { r with state := { r.state with sequence := n } }

theorem reconcileCommit_numbered (r : Reconciliation) (x : ExecutionRecord)
    (best : Option ProgressRecord) (committed n : Nat) :
    reconcileCommit (r.numbered n) x best committed =
      (reconcileCommit r x best committed).numbered n := by
  unfold reconcileCommit Reconciliation.numbered
  cases best with
  | none => rfl
  | some best =>
    dsimp only
    by_cases hold : best.generation ≤ x.progressGeneration
    · rw [if_pos hold, if_pos hold]
    · rw [if_neg hold, if_neg hold]
      cases r.state.commits.find best.commit with
      | none => rfl
      | some commit =>
        dsimp only
        cases r.state.actions.find commit.actionKey <;> rfl

theorem reconcileExecution_numbered (r : Reconciliation) (id : ExecutionId) (n : Nat) :
    reconcileExecution (r.numbered n) id = (reconcileExecution r id).numbered n := by
  have hfound : (r.numbered n).state.executions.find id = r.state.executions.find id := rfl
  unfold reconcileExecution
  rw [hfound]
  cases r.state.executions.find id with
  | none => rfl
  | some x =>
    have hfrontier : reconcileFrontier (r.numbered n) x =
        ((reconcileFrontier r x).1.numbered n, (reconcileFrontier r x).2) := by
      unfold reconcileFrontier
      by_cases hreached : (reachedFrontier r.state x).1 ≠ x.actionFrontier
      · rw [if_pos hreached]
        exact if_pos hreached
      · rw [if_neg hreached]
        exact if_neg hreached
    dsimp only
    rw [hfrontier]
    exact reconcileCommit_numbered _ _ _ _ n

/-- Reconciliation neither reads nor writes the sequence number. -/
theorem reconcileState_numbered (st : DurableState) (n : Nat) :
    reconcileState { st with sequence := n } = (reconcileState st).numbered n := by
  have hfold : ∀ (ids : List ExecutionId) (r : Reconciliation),
      ids.foldl reconcileExecution (r.numbered n) =
        (ids.foldl reconcileExecution r).numbered n := by
    intro ids
    induction ids with
    | nil => exact fun _ => rfl
    | cons id rest ih =>
      intro r
      rw [List.foldl_cons, List.foldl_cons, reconcileExecution_numbered]
      exact ih _
  exact hfold _ ⟨st, [], false⟩

theorem Near.append (h : Near s t) (e : JournalEntry) :
    Near (s.mapJournaled (·.append e)) (t.mapJournaled (·.append e)) := by
  obtain ⟨n, hstate⟩ := h.state
  refine ⟨⟨⟨s.store.lastSequence + 1, ?_⟩, ?_, h.isOpen, h.shuttingDown⟩, h.actionIndex⟩
  · show ({ s.state with sequence := s.store.lastSequence + 1 } : DurableState) =
      { t.state with sequence := s.store.lastSequence + 1 }
    rw [hstate]
  · exact congrArg (· + 1) h.lastSequence

theorem Level.reconciled (h : Level s t) :
    Near (s.mapJournaled ExecutionFabric.reconciled) (t.mapJournaled ExecutionFabric.reconciled) := by
  obtain ⟨n, hstate⟩ := h.state
  have hrepaired : reconcileState s.state = (reconcileState t.state).numbered n := by
    rw [hstate]
    exact reconcileState_numbered t.state n
  have hfold : ∀ (repairs : List CommitGroupRecord) (u v : Runtime), Near u v →
      Near (u.mapJournaled fun j => repairs.foldl (fun j r => j.append (.commitGroup r)) j)
        (v.mapJournaled fun j => repairs.foldl (fun j r => j.append (.commitGroup r)) j) := by
    intro repairs
    induction repairs with
    | nil => exact fun u v h => h
    | cons r rest ih => exact fun u v huv => ih _ _ (huv.append (.commitGroup r))
  have hs : s.mapJournaled ExecutionFabric.reconciled =
      (s.mapJournaled fun j => Journaled.rebuildIndexes { j with
        state := (reconcileState s.state).state }).mapJournaled fun j =>
          (reconcileState t.state).repairs.foldl (fun j r => j.append (.commitGroup r)) j := by
    show (s.mapJournaled fun j => Journaled.rebuildIndexes { j with
      state := (reconcileState s.state).state }).mapJournaled (fun j =>
        (reconcileState s.state).repairs.foldl (fun j r => j.append (.commitGroup r)) j) = _
    rw [hrepaired]
    rfl
  rw [hs]
  refine hfold (reconcileState t.state).repairs _
    (t.mapJournaled fun j => Journaled.rebuildIndexes { j with
      state := (reconcileState t.state).state })
    ⟨⟨⟨n, ?_⟩, h.lastSequence, h.isOpen, h.shuttingDown⟩, ?_⟩
  · exact congrArg Reconciliation.state hrepaired
  · show Journaled.sortedActionKeys (reconcileState s.state).state =
      Journaled.sortedActionKeys (reconcileState t.state).state
    rw [hrepaired]
    rfl

theorem exec_reconcile (s : Runtime) :
    reconcile.exec s = (.ok (reconcileState s.state), s.mapJournaled reconciled) := by
  have h : Leads (reconcile >>= pure) s fun r s' =>
      (r, s') = (.ok (reconcileState s.state), s.mapJournaled reconciled) :=
    leads_reconcile (leads_pure rfl)
  rw [bind_pure] at h
  exact h

/-- The metadata record of the new epoch brings the sequence numbers level. -/
theorem restartAt_twin (h : Near s t) (epoch : Nat) :
    Twin Alike (restartAt epoch) (restartAt epoch) s t := by
  obtain ⟨n, hstate⟩ := h.state
  unfold restartAt
  apply twin_update
  have hmeta : Alike ((s.mapJournaled fun j => { j with state := { j.state with
        epoch := epoch } }).mapJournaled (·.putStoreMeta))
      ((t.mapJournaled fun j => { j with state := { j.state with
        epoch := epoch } }).mapJournaled (·.putStoreMeta)) := by
    refine ⟨?_, h.actionIndex, congrArg (· + 1) h.lastSequence, h.isOpen, h.shuttingDown⟩
    show ({ s.state with epoch := epoch, sequence := s.store.lastSequence + 1 } :
      DurableState) = { t.state with epoch := epoch, sequence := t.store.lastSequence + 1 }
    rw [hstate, h.lastSequence]
  refine twin_accepted rfl rfl ?_
  apply twin_get
  rw [hmeta.state]
  apply twin_putAll hmeta
  intro s' t' h'
  apply twin_get
  rw [h'.state]
  apply twin_putAll h'
  intro s' t' h'
  apply twin_get
  rw [h'.state]
  apply twin_putAll h'
  intro s' t' h'
  exact twin_pure h'

theorem openLoaded_twin (h : Level s t) (report : FileReport) :
    Twin Alike (openLoaded report) (openLoaded report) s t := by
  obtain ⟨n, hstate⟩ := h.state
  have hepoch : s.state.epoch = t.state.epoch := by rw [hstate]
  have hsame : reconcileState s.state = (reconcileState t.state).numbered n := by
    rw [hstate]
    exact reconcileState_numbered t.state n
  unfold openLoaded
  apply twin_get
  rw [hepoch]
  unfold Twin
  rw [exec_bind, exec_bind, exec_reconcile, exec_reconcile, hsame]
  refine twin_bind (restartAt_twin h.reconciled _) ?_
  rintro ⟨revoked, changed⟩ s' t' h'
  apply twin_update
  have hopen : Alike { s' with isOpen := true } { t' with isOpen := true } :=
    ⟨h'.state, h'.actionIndex, h'.lastSequence, rfl, h'.shuttingDown⟩
  apply twin_get
  rw [hopen.state]
  apply twin_bind (recoverPending_twin hopen _ _)
  intro notes s' t' h'
  exact twin_pure h'

end Alike

/-! ## The store handle -/

theorem journalHeaderDefect_place {journal : Bytes} {place : String} (place' : String)
    (h : journalHeaderDefect journal place = none) : journalHeaderDefect journal place' = none := by
  unfold journalHeaderDefect at h ⊢
  split at h
  · cases h
  next hlong =>
    split at h
    · cases h
    next hmagic =>
      split at h
      · cases h
      next hsum =>
        split at h
        · cases h
        next hschema => rw [if_neg hlong, if_neg hmagic, if_neg hsum, if_neg hschema]

/-- The journal an open reads: the one found, or a fresh one. -/
def foundJournal (files : Option Files) (entropy : UInt64) : Bytes :=
  (files.getD {}).journal.getD (journalHeader ⟨entropy⟩ 1)

/-- What a successful open of the files established. -/
structure FilesOpened (limits : StoreLimits) (files : Option Files) (entropy : UInt64)
    (b : ByteStore) : Prop where
  contents : b.files = some { files.getD {} with journal := some (foundJournal files entropy) }
  bounds : b.limits = limits
  isOpen : b.isOpen = true
  size : (foundJournal files entropy).length ≤ limits.maxJournalLoadBytes
  header : journalHeaderDefect (foundJournal files entropy) "" = none
  storeId : b.storeId = journalStore (foundJournal files entropy)
  named : b.storeId ≠ .nil

/-- How `FileDurableStore::open` ends on a closed handle, which does not depend on the handle. -/
structure HandleOpened (limits : StoreLimits) (files : Option Files) (entropy : UInt64)
    (r r' : Except Status Unit × ByteStore) : Prop where
  status : r.1 = r'.1
  refused : ∀ e, r.1 = .error e → r.2.isOpen = false ∧ e.code ≠ .invalidArgument
  opened : r.1 = .ok () → r.2 = r'.2 ∧ FilesOpened limits files entropy r.2

theorem journalHeaderDefect_code {journal : Bytes} {place : String} {e : Status}
    (h : journalHeaderDefect journal place = some e) : e.code ≠ .invalidArgument := by
  unfold journalHeaderDefect at h
  repeat' split at h
  all_goals
    cases h
    try exact fun hcode => by cases hcode

theorem handleOpened_refused {limits : StoreLimits} {files : Option Files} {entropy : UInt64}
    {e : Status} {b b' : ByteStore} (hcode : e.code ≠ .invalidArgument) (hb : b.isOpen = false) :
    HandleOpened limits files entropy (.error e, b) (.error e, b') := by
  refine ⟨rfl, fun e' he => ⟨hb, ?_⟩, fun h => by cases h⟩
  obtain rfl := Except.error.inj he
  exact hcode

theorem readJournal_opened {limits : StoreLimits} {files : Option Files} {entropy : UInt64}
    {b b' : ByteStore} (hb : b.isOpen = false) (hlimits : b.limits = limits ∧ b'.limits = limits)
    (hfiles : b.files = some { files.getD {} with journal := some (foundJournal files entropy) } ∧
      b'.files = some { files.getD {} with journal := some (foundJournal files entropy) }) :
    HandleOpened limits files entropy (b.readJournal (foundJournal files entropy))
      (b'.readJournal (foundJournal files entropy)) := by
  unfold ByteStore.readJournal
  rw [hlimits.1, hlimits.2]
  unfold readFile
  by_cases hsize : (foundJournal files entropy).length > limits.maxJournalLoadBytes
  · rw [if_pos hsize]
    exact handleOpened_refused (fun hcode => by cases hcode) hb
  rw [if_neg hsize]
  dsimp only
  cases hheader : journalHeaderDefect (foundJournal files entropy) ": " with
  | some refused =>
    exact handleOpened_refused (journalHeaderDefect_code hheader) hb
  | none =>
    dsimp only
    by_cases hnil : journalStore (foundJournal files entropy) = .nil
    · rw [if_pos hnil, if_pos hnil]
      exact handleOpened_refused (fun hcode => by cases hcode) hb
    · rw [if_neg hnil, if_neg hnil]
      refine ⟨rfl, (fun e he => by cases he), fun _ => ⟨?_, hfiles.1, rfl, rfl,
        Nat.le_of_not_lt hsize, journalHeaderDefect_place "" hheader, rfl, hnil⟩⟩
      dsimp only
      rw [hfiles.1, hfiles.2]

theorem openStore_opened {h h' : FileDurableStore} (hclosed : h.isOpen = false)
    (hclosed' : h'.isOpen = false) (create : Bool) (limits : StoreLimits) (files : Option Files)
    (entropy : UInt64) : HandleOpened limits files entropy
      ((h.over files).openStore create limits entropy)
      ((h'.over files).openStore create limits entropy) := by
  unfold ByteStore.openStore FileDurableStore.over
  rw [hclosed, hclosed', if_neg (by simp), if_neg (by simp)]
  dsimp only
  cases hfiles : files with
  | none =>
    subst hfiles
    cases create with
    | false => exact handleOpened_refused (fun hcode => by cases hcode) rfl
    | true => exact readJournal_opened rfl ⟨rfl, rfl⟩ ⟨rfl, rfl⟩
  | some found =>
    subst hfiles
    cases hjournal : found.journal with
    | none =>
      cases create with
      | false =>
        dsimp only [Option.getD]
        rw [hjournal]
        exact handleOpened_refused (fun hcode => by cases hcode) rfl
      | true =>
        have hfound : foundJournal (some found) entropy = journalHeader ⟨entropy⟩ 1 := by
          simp [foundJournal, hjournal]
        dsimp only [Option.getD]
        rw [hjournal]
        dsimp only [Option.getD]
        rw [← hfound]
        exact readJournal_opened rfl ⟨rfl, rfl⟩ ⟨rfl, rfl⟩
    | some journal =>
      have hfound : foundJournal (some found) entropy = journal := by
        simp [foundJournal, hjournal]
      cases create <;> dsimp only [Option.getD] <;> rw [hjournal] <;> dsimp only [Option.getD] <;>
        rw [← hfound] <;> exact readJournal_opened rfl ⟨rfl, rfl⟩ ⟨rfl, rfl⟩

/-- The files can be opened: a journal is found or created, and its header is sound. -/
structure Openable (create : Bool) (limits : StoreLimits) (files : Option Files)
    (entropy : UInt64) : Prop where
  found : (files.getD {}).journal.isSome = true ∨ create = true
  size : (foundJournal files entropy).length ≤ limits.maxJournalLoadBytes
  header : journalHeaderDefect (foundJournal files entropy) "" = none
  named : journalStore (foundJournal files entropy) ≠ .nil

theorem readJournal_ok_iff (b : ByteStore) (journal : Bytes) :
    (b.readJournal journal).1 = .ok () ↔ journal.length ≤ b.limits.maxJournalLoadBytes ∧
      journalHeaderDefect journal "" = none ∧ journalStore journal ≠ .nil := by
  unfold ByteStore.readJournal readFile
  by_cases hsize : journal.length > b.limits.maxJournalLoadBytes
  · rw [if_pos hsize]
    exact ⟨fun h => (by cases h), fun h => absurd h.1 (Nat.not_le.mpr hsize)⟩
  rw [if_neg hsize]
  dsimp only
  cases hheader : journalHeaderDefect journal ": " with
  | some refused =>
    refine ⟨fun h => (by cases h), fun h => ?_⟩
    rw [journalHeaderDefect_place ": " h.2.1] at hheader
    cases hheader
  | none =>
    dsimp only
    by_cases hnil : journalStore journal = .nil
    · rw [if_pos hnil]
      exact ⟨fun h => (by cases h), fun h => absurd hnil h.2.2⟩
    · rw [if_neg hnil]
      exact ⟨fun _ => ⟨Nat.le_of_not_lt hsize, journalHeaderDefect_place "" hheader, hnil⟩,
        fun _ => rfl⟩

theorem openStore_ok_iff {h : FileDurableStore} (hclosed : h.isOpen = false) (create : Bool)
    (limits : StoreLimits) (files : Option Files) (entropy : UInt64) :
    ((h.over files).openStore create limits entropy).1 = .ok () ↔
      Openable create limits files entropy := by
  have hread : ∀ b : ByteStore, b.limits = limits →
      ((files.getD {}).journal.isSome = true ∨ create = true) →
      ((b.readJournal (foundJournal files entropy)).1 = .ok () ↔
        Openable create limits files entropy) := by
    intro b hb hfound
    rw [readJournal_ok_iff, hb]
    exact ⟨fun ⟨hsize, hheader, hnamed⟩ => ⟨hfound, hsize, hheader, hnamed⟩,
      fun hopens => ⟨hopens.size, hopens.header, hopens.named⟩⟩
  have hmissing : (files.getD {}).journal = none → create = false →
      ¬ Openable create limits files entropy := by
    intro hnone hcreate hopens
    rcases hopens.found with hfound | hfound
    · rw [hnone] at hfound
      cases hfound
    · rw [hcreate] at hfound
      cases hfound
  unfold ByteStore.openStore FileDurableStore.over
  rw [hclosed, if_neg (by simp)]
  dsimp only
  cases hfiles : files with
  | none =>
    subst hfiles
    cases create with
    | false => exact ⟨fun h => (by cases h), fun h => absurd h (hmissing rfl rfl)⟩
    | true => exact hread _ rfl (.inr rfl)
  | some found =>
    subst hfiles
    cases hjournal : found.journal with
    | none =>
      cases create with
      | false =>
        dsimp only [Option.getD]
        rw [hjournal]
        exact ⟨fun h => (by cases h), fun h => absurd h (hmissing hjournal rfl)⟩
      | true =>
        have hfound : foundJournal (some found) entropy = journalHeader ⟨entropy⟩ 1 := by
          simp [foundJournal, hjournal]
        dsimp only [Option.getD]
        rw [hjournal]
        dsimp only [Option.getD]
        rw [← hfound]
        exact hread _ rfl (.inr rfl)
    | some journal =>
      have hfound : foundJournal (some found) entropy = journal := by
        simp [foundJournal, hjournal]
      have hsome : ((some found).getD {}).journal.isSome = true := by
        rw [Option.getD_some, hjournal]
        rfl
      cases create <;> dsimp only [Option.getD] <;> rw [hjournal] <;> dsimp only [Option.getD] <;>
        rw [← hfound] <;> exact hread _ rfl (.inl hsome)

/-! ## What a load keeps of the state it is handed -/

/-- Whether the load comes to a metadata record of the store, before a record it refuses. -/
def reachesMeta (journal : Bytes) (store : StoreId) : List RecordBoundary → Bool
  | [] => false
  | b :: rest =>
    if b.sequence > 0 then
      match JournalEntry.decode b.kind (slice journal b.payloadOffset b.payloadSize) with
      | none => false
      | some (.storeMeta r) => r.store = store
      | some _ => reachesMeta journal store rest
    else reachesMeta journal store rest

/-- The records a load visits. -/
def readableRecords (limits : StoreLimits) (journal : Bytes) : List RecordBoundary :=
  (visit limits journal journal.length journalHeaderSize).1

/-- The scan of a journal without a snapshot, over the state `base`. -/
def scanned (limits : StoreLimits) (journal : Bytes) (base : DurableState) : Scan :=
  (readableRecords limits journal).foldl (Scan.take journal 0)
    { offset := journalHeaderSize, state := base, report := { journalPresent := true } }

/-- What becomes of a load once the scan has ended. -/
def judged (limits : StoreLimits) (journal : Bytes) (s : Scan) : LoadOutcome :=
  match (s.stop journal).refused with
  | some refused => ⟨some refused, (s.stop journal).state, (s.stop journal).report⟩
  | none => classifyTail limits journal (s.stop journal)

/-- The same state without its scalars, the store id apart. -/
def DurableState.unscaled (st : DurableState) : DurableState :=
  { st with epoch := 0, sequence := 0, nextExecutionSequence := 0, schema := 0 }

/-- The two states name the same store, epoch and schema, and number executions alike. -/
structure DurableState.SameScalars (st st' : DurableState) : Prop where
  store : st'.store = st.store
  epoch : st'.epoch = st.epoch
  nextExecutionSequence : st'.nextExecutionSequence = st.nextExecutionSequence
  schema : st'.schema = st.schema

section Scalars

variable {st st' st'' : DurableState}

theorem DurableState.SameScalars.refl (st : DurableState) : st.SameScalars st :=
  ⟨rfl, rfl, rfl, rfl⟩

theorem DurableState.SameScalars.trans (h : st.SameScalars st') (h' : st'.SameScalars st'') :
    st.SameScalars st'' :=
  ⟨h'.store.trans h.store, h'.epoch.trans h.epoch,
    h'.nextExecutionSequence.trans h.nextExecutionSequence, h'.schema.trans h.schema⟩

end Scalars

section Load

variable {limits : StoreLimits} {journal : Bytes}

theorem loadFiles_scanned {files : Files} (hsnapshot : files.snapshot = none)
    (hjournal : files.journal = some journal) (hsize : journal.length ≤ limits.maxJournalLoadBytes)
    (hheader : journalHeaderDefect journal "" = none) (out : DurableState) :
    loadFiles limits files out =
      judged limits journal (scanned limits journal (journalBase (journalStore journal) out)) := by
  unfold loadFiles loadAfterSnapshot
  rw [hsnapshot, hjournal]
  dsimp only
  unfold readFile
  rw [if_neg (Nat.not_lt.mpr hsize)]
  dsimp only
  unfold loadJournal
  rw [hheader]
  dsimp only
  rw [if_neg (by simp), scanJournal_eq limits journal 0 journal.length _ rfl (by
    show journal.length < 40 + journal.length
    omega)]
  rfl

theorem stop_state (s : Scan) : (s.stop journal).state = s.state := by
  unfold Scan.stop
  split
  · rfl
  · split <;> rfl

theorem judged_state (s : Scan) : (judged limits journal s).state = s.state := by
  unfold judged
  split
  · exact stop_state s
  · unfold classifyTail
    split
    · dsimp only
      split <;> exact stop_state s
    · exact stop_state s

/-- No refusal of a load says that the store is already open. -/
theorem foldl_take_code (bs : List RecordBoundary) (n : Nat) (s : Scan)
    (hs : ∀ e, s.refused = some e → e.code ≠ .invalidArgument) :
    ∀ e, (bs.foldl (Scan.take journal n) s).refused = some e → e.code ≠ .invalidArgument := by
  induction bs generalizing s with
  | nil => exact hs
  | cons b rest ih =>
    refine ih _ fun e he => ?_
    unfold Scan.take at he
    split at he
    · exact hs e he
    split at he
    · split at he
      · obtain rfl := Option.some.inj he
        exact fun hcode => by cases hcode
      · exact hs e he
    · exact hs e he

theorem refused_stop (s : Scan) : (s.stop journal).refused = s.refused := by
  unfold Scan.stop
  split
  · rfl
  · split <;> rfl

theorem classifyTail_code {s : Scan} {e : Status}
    (h : (classifyTail limits journal s).status = some e) : e.code ≠ .invalidArgument := by
  unfold classifyTail at h
  split at h
  · dsimp only at h
    split at h
    · obtain rfl := Option.some.inj h
      exact fun hcode => by cases hcode
    · cases h
  · cases h

theorem loadJournal_code {usable : Bool} {n : Nat} {st : DurableState} {report : FileReport}
    {e : Status} (h : (loadJournal limits journal usable n st report).status = some e) :
    e.code ≠ .invalidArgument := by
  unfold loadJournal at h
  split at h
  next refused hheader =>
    obtain rfl := Option.some.inj h
    exact journalHeaderDefect_code hheader
  dsimp only at h
  split at h
  · obtain rfl := Option.some.inj h
    exact fun hcode => by cases hcode
  rw [scanJournal_eq limits journal n journal.length _ rfl (by
    show journal.length < 40 + journal.length
    omega)] at h
  split at h
  next refused hrefused =>
    obtain rfl := Option.some.inj h
    rw [refused_stop] at hrefused
    exact foldl_take_code _ _ _ (fun e he => by cases he) _ hrefused
  next => exact classifyTail_code h

theorem readFile_code {limit : Nat} {file : Bytes} {e : Status}
    (h : readFile limit file = .error e) : e.code ≠ .invalidArgument := by
  unfold readFile at h
  split at h
  · obtain rfl := Except.error.inj h
    exact fun hcode => by cases hcode
  · cases h

theorem loadAfterSnapshot_code {files : Files} {usable : Bool} {n : Nat} {st : DurableState}
    {report : FileReport} {e : Status}
    (h : (loadAfterSnapshot limits files usable n st report).status = some e) :
    e.code ≠ .invalidArgument := by
  unfold loadAfterSnapshot at h
  split at h
  · split at h
    · obtain rfl := Option.some.inj h
      exact fun hcode => by cases hcode
    · cases h
  · split at h
    next refused hread =>
      obtain rfl := Option.some.inj h
      exact readFile_code hread
    next => exact loadJournal_code h

theorem loadFiles_code {files : Files} {out : DurableState} {e : Status}
    (h : (loadFiles limits files out).status = some e) : e.code ≠ .invalidArgument := by
  unfold loadFiles at h
  split at h
  · exact loadAfterSnapshot_code h
  · split at h
    next refused hread =>
      obtain rfl := Option.some.inj h
      exact readFile_code hread
    next =>
      split at h
      · obtain rfl := Option.some.inj h
        exact fun hcode => by cases hcode
      · exact loadAfterSnapshot_code h

/-- A visited record keeps a named store. -/
theorem take_store (n : Nat) (s : Scan) (b : RecordBoundary) (hnamed : s.state.store ≠ .nil) :
    (s.take journal n b).state.store = s.state.store := by
  unfold Scan.take
  split
  · rfl
  split
  · split
    · rfl
    next st hst =>
      obtain ⟨entry, -, happly⟩ := Option.bind_eq_some_iff.mp hst
      show st.store = s.state.store
      cases entry with
      | storeMeta r =>
        unfold applyRecord at happly
        dsimp only at happly
        split at happly
        · cases happly
        next hsame =>
          obtain rfl := Option.some.inj happly
          by_contra hdiffers
          exact hsame ⟨(Id.valid_iff _).mpr hnamed, hdiffers⟩
      | _ =>
        obtain rfl := Option.some.inj happly
        rfl
  · rfl

theorem foldl_take_store (bs : List RecordBoundary) (n : Nat) (s : Scan)
    (hnamed : s.state.store ≠ .nil) :
    (bs.foldl (Scan.take journal n) s).state.store = s.state.store := by
  induction bs generalizing s with
  | nil => rfl
  | cons b rest ih =>
    have hstep : (s.take journal n b).state.store = s.state.store := take_store n s b hnamed
    rw [List.foldl_cons, ih _ (by rw [hstep]; exact hnamed), hstep]

theorem unscaled_install {st : DurableState} {entry : JournalEntry}
    (hentry : ∀ r, entry ≠ .storeMeta r) : (st.install entry).unscaled = st.unscaled.install entry := by
  cases entry with
  | storeMeta r => exact absurd rfl (hentry r)
  | _ => rfl

theorem install_storeMeta_unscaled {st st' : DurableState} (h : st.unscaled = st'.unscaled)
    (r : StoreMetaRecord) (n : Nat) :
    ({ st.install (.storeMeta r) with sequence := n } : DurableState) =
      { st'.install (.storeMeta r) with sequence := n } := by
  cases st
  cases st'
  simp only [DurableState.unscaled, DurableState.mk.injEq] at h
  simp only [DurableState.install, DurableState.mk.injEq]
  simp [h]

/-- Once a metadata record of the store is read, the scalars of the base are forgotten. -/
theorem foldl_take_reaches {store : StoreId} (bs : List RecordBoundary)
    (hreaches : reachesMeta journal store bs = true) {s s' : Scan} (hrefused : s.refused = none)
    (hoffset : s'.offset = s.offset) (hreport : s'.report = s.report)
    (hrefused' : s'.refused = s.refused) (hstate : s.state.unscaled = s'.state.unscaled)
    (hstore : s.state.store = store) :
    bs.foldl (Scan.take journal 0) s = bs.foldl (Scan.take journal 0) s' := by
  induction bs generalizing s s' with
  | nil => cases hreaches
  | cons b rest ih =>
    have hstore' : s'.state.store = store := by
      rw [← hstore]
      exact (congrArg DurableState.store hstate).symm
    have hnot : ¬ s.refused.isSome = true := by
      rw [hrefused]
      exact fun h => by cases h
    have hnot' : ¬ s'.refused.isSome = true := by
      rw [hrefused']
      exact hnot
    rw [List.foldl_cons, List.foldl_cons]
    unfold reachesMeta at hreaches
    unfold Scan.take
    rw [if_neg hnot, if_neg hnot']
    by_cases hnew : b.sequence > 0
    · rw [if_pos hnew] at hreaches ⊢
      rw [if_pos hnew]
      unfold applyPayload
      cases hdecode : JournalEntry.decode b.kind (slice journal b.payloadOffset b.payloadSize) with
      | none =>
        rw [hdecode] at hreaches
        cases hreaches
      | some entry =>
        rw [hdecode] at hreaches
        by_cases hmeta : ∃ r, entry = .storeMeta r
        · obtain ⟨r, rfl⟩ := hmeta
          have hsame : r.store = store := of_decide_eq_true hreaches
          have happly : ∀ st : DurableState, st.store = store →
              applyRecord st (.storeMeta r) = some (st.install (.storeMeta r)) := by
            intro st hst
            unfold applyRecord
            dsimp only
            rw [if_neg]
            rintro ⟨-, hforeign⟩
            exact hforeign (hsame.trans hst.symm)
          simp only [Option.bind_some, happly _ hstore, happly _ hstore', hoffset, hreport,
            hrefused', install_storeMeta_unscaled hstate r b.sequence]
        · have hplain : ∀ r, entry ≠ .storeMeta r := fun r hr => hmeta ⟨r, hr⟩
          have happly : ∀ st : DurableState, applyRecord st entry = some (st.install entry) := by
            intro st
            cases entry with
            | storeMeta r => exact absurd rfl (hplain r)
            | _ => rfl
          have hrest : reachesMeta journal store rest = true := by
            cases entry with
            | storeMeta r => exact absurd rfl (hplain r)
            | _ => exact hreaches
          simp only [Option.bind_some, happly]
          refine ih hrest hrefused (by rw [hoffset]) (by rw [hreport]) hrefused' ?_ ?_
          · show ({ s.state.install entry with sequence := b.sequence } : DurableState).unscaled =
              ({ s'.state.install entry with sequence := b.sequence } : DurableState).unscaled
            have h : (s.state.install entry).unscaled = _ := unscaled_install hplain
            have h' : (s'.state.install entry).unscaled = _ := unscaled_install hplain
            rw [hstate] at h
            exact h.trans h'.symm
          · have hkeeps : (s.state.install entry).store = s.state.store := by
              cases entry with
              | storeMeta r => exact absurd rfl (hplain r)
              | _ => rfl
            exact hkeeps.trans hstore
    · rw [if_neg hnew] at hreaches ⊢
      rw [if_neg hnew]
      exact ih hreaches hrefused (by rw [hoffset]) (by rw [hreport]) hrefused' hstate hstore

theorem take_refuses {s : Scan} {b : RecordBoundary} (hrefused : s.refused = none)
    (hnew : b.sequence > 0)
    (h : applyPayload s.state b.kind (slice journal b.payloadOffset b.payloadSize) = none) :
    (s.take journal 0 b).refused.isSome = true ∧ (s.take journal 0 b).state = s.state := by
  unfold Scan.take
  rw [if_neg (by rw [hrefused]; exact fun h => by cases h), if_pos hnew, h]
  exact ⟨rfl, rfl⟩

theorem take_applies {s : Scan} {b : RecordBoundary} {st : DurableState}
    (hrefused : s.refused = none) (hnew : b.sequence > 0)
    (h : applyPayload s.state b.kind (slice journal b.payloadOffset b.payloadSize) = some st) :
    (s.take journal 0 b).state = { st with sequence := b.sequence } := by
  unfold Scan.take
  rw [if_neg (by rw [hrefused]; exact fun h => by cases h), if_pos hnew, h]

theorem applyPayload_plain {st : DurableState} {kind : RecordKind} {payload : Bytes}
    {entry : JournalEntry}
    (hdecode : JournalEntry.decode kind payload = some entry) (hplain : ∀ r, entry ≠ .storeMeta r) :
    applyPayload st kind payload = some (st.install entry) := by
  rw [applyPayload, hdecode, Option.bind_some]
  cases entry with
  | storeMeta r => exact absurd rfl (hplain r)
  | _ => rfl

theorem sameScalars_install (st : DurableState) {entry : JournalEntry}
    (hplain : ∀ r, entry ≠ .storeMeta r) : st.SameScalars (st.install entry) := by
  cases entry with
  | storeMeta r => exact absurd rfl (hplain r)
  | _ => exact ⟨rfl, rfl, rfl, rfl⟩

/-- Until then the scalars of the base survive. -/
theorem sameScalars_foldl_take {store : StoreId} (hnamed : store ≠ .nil) (bs : List RecordBoundary)
    (hreaches : reachesMeta journal store bs = false) (s : Scan) (hstore : s.state.store = store) :
    s.state.SameScalars (bs.foldl (Scan.take journal 0) s).state := by
  induction bs generalizing s with
  | nil => exact .refl _
  | cons b rest ih =>
    cases hrefused : s.refused with
    | some e =>
      rw [Scan.foldl_take_of_refused _ _ (by rw [hrefused]; rfl)]
      exact .refl _
    | none =>
      rw [List.foldl_cons]
      unfold reachesMeta at hreaches
      by_cases hnew : b.sequence > 0
      · rw [if_pos hnew] at hreaches
        have hstops : applyPayload s.state b.kind (slice journal b.payloadOffset b.payloadSize) = none →
            s.state.SameScalars (rest.foldl (Scan.take journal 0) (s.take journal 0 b)).state := by
          intro hnone
          obtain ⟨hstopped, hstate⟩ := take_refuses hrefused hnew hnone
          rw [Scan.foldl_take_of_refused _ _ hstopped, hstate]
          exact .refl _
        cases hdecode : JournalEntry.decode b.kind (slice journal b.payloadOffset b.payloadSize) with
        | none => exact hstops (by rw [applyPayload, hdecode, Option.bind_none])
        | some entry =>
          rw [hdecode] at hreaches
          by_cases hmeta : ∃ r, entry = .storeMeta r
          · obtain ⟨r, rfl⟩ := hmeta
            refine hstops ?_
            rw [applyPayload, hdecode, Option.bind_some]
            unfold applyRecord
            dsimp only
            have hforeign : r.store ≠ s.state.store := by
              rw [hstore]
              exact of_decide_eq_false hreaches
            exact if_pos ⟨(Id.valid_iff _).mpr (hstore ▸ hnamed), hforeign⟩
          · have hplain : ∀ r, entry ≠ .storeMeta r := fun r hr => hmeta ⟨r, hr⟩
            have hstate := take_applies hrefused hnew (applyPayload_plain hdecode hplain)
            have hkept := sameScalars_install s.state hplain
            have hstep : s.state.SameScalars (s.take journal 0 b).state := by
              rw [hstate]
              exact ⟨hkept.store, hkept.epoch, hkept.nextExecutionSequence, hkept.schema⟩
            have hrest : reachesMeta journal store rest = false := by
              cases entry with
              | storeMeta r => exact absurd rfl (hplain r)
              | _ => exact hreaches
            exact hstep.trans (ih hrest _ (hstep.store.trans hstore))
      · rw [if_neg hnew] at hreaches
        have hstate : (s.take journal 0 b).state = s.state := by
          unfold Scan.take
          rw [if_neg (by rw [hrefused]; exact fun h => by cases h), if_neg hnew]
        have hrest := ih hreaches _ (by rw [hstate]; exact hstore)
        rw [hstate] at hrest
        exact hrest

end Load

/-! ## How an open ends -/

section Scalars

/-- Only metadata records change the scalars. -/
theorem sameScalars_write (j : Journaled) (es : List JournalEntry) (h : ∀ r, .storeMeta r ∉ es) :
    j.state.SameScalars (j.write es).state := by
  induction es generalizing j with
  | nil => exact .refl _
  | cons e rest ih =>
    have hput : j.state.SameScalars (j.put e).state := by
      rw [Journaled.state_put]
      cases e with
      | storeMeta r => exact absurd List.mem_cons_self (h r)
      | _ => exact ⟨rfl, rfl, rfl, rfl⟩
    exact hput.trans (ih _ fun r hr => h r (List.mem_cons_of_mem _ hr))

theorem sameScalars_reconciled (j : Journaled) : j.state.SameScalars (reconciled j).state := by
  have hfold : ∀ (repairs : List CommitGroupRecord) (k : Journaled), k.state.SameScalars
      (repairs.foldl (fun j repair => j.append (.commitGroup repair)) k).state := by
    intro repairs
    induction repairs with
    | nil => exact fun k => .refl _
    | cons r rest ih =>
      intro k
      have hstep : k.state.SameScalars (k.append (.commitGroup r)).state := ⟨rfl, rfl, rfl, rfl⟩
      exact hstep.trans (ih (k.append (.commitGroup r)))
  refine DurableState.SameScalars.trans ⟨?_, ?_, ?_, ?_⟩ (hfold _ _)
  · exact store_reconcileState j.state
  · exact keeps_reconcileState DurableState.epoch (fun _ _ => rfl) (fun _ _ => rfl) j.state
  · exact keeps_reconcileState DurableState.nextExecutionSequence (fun _ _ => rfl)
      (fun _ _ => rfl) j.state
  · exact schema_reconcileState j.state

/-- Transactions other than creations keep the scalars. -/
theorem Writes.sameScalars {allowed : Intent → Prop} {j j' : Journaled} (h : Writes allowed j j')
    (hcreate : ¬ allowed .create) : j.state.SameScalars j'.state := by
  induction h with
  | done j => exact .refl _
  | @write j j' i es hi ht rest ih =>
    refine (sameScalars_write j es fun r hr => ?_).trans ih
    rw [(ht.creates hr).1] at hi
    exact hcreate hi

end Scalars

section Openings

variable {α : Type} {s : Runtime} {Q : Except Status α → Runtime → Prop}

/-- The rule for records that are no metadata. -/
theorem leads_putPlain {β : Type} {g : β → JournalEntry} {rs : List β} {f : Unit → Op α}
    (hplain : ∀ b r, g b ≠ .storeMeta r)
    (h : ∀ s', s.state.SameScalars s'.state → SameProcess s s' → Leads (f ()) s' Q) :
    Leads (Op.putAll (rs.map g) >>= f) s Q := by
  apply leads_putAll
  refine h _ (sameScalars_write _ _ fun r hr => ?_) (s.sameProcess_mapJournaled _)
  obtain ⟨b, -, hb⟩ := List.mem_map.mp hr
  exact hplain b r hb

/-- The rule for a restart in a given epoch. -/
theorem leads_restartAt {epoch : Nat} {f : List LeaseRecord × List ExecutionRecord → Op α}
    (h : ∀ r s', ({ s.state with epoch := epoch } : DurableState).SameScalars s'.state →
      SameProcess s s' → Leads (f r) s' Q) : Leads (restartAt epoch >>= f) s Q := by
  unfold restartAt
  rw [bind_assoc]
  apply leads_update
  rw [bind_assoc]
  apply leads_putStoreMeta
  rw [bind_assoc]
  apply leads_get
  rw [bind_assoc]
  apply leads_putPlain fun _ _ heq => by cases heq
  intro s₁ hscalars₁ hprocess₁
  rw [bind_assoc]
  apply leads_get
  rw [bind_assoc]
  apply leads_putPlain fun _ _ heq => by cases heq
  intro s₂ hscalars₂ hprocess₂
  rw [bind_assoc]
  apply leads_get
  rw [bind_assoc]
  apply leads_putPlain fun _ _ heq => by cases heq
  intro s₃ hscalars₃ hprocess₃
  rw [pure_bind]
  have hprocess : SameProcess s s₁ := ⟨hprocess₁.isOpen, hprocess₁.sessions,
    hprocess₁.shuttingDown, hprocess₁.nextSession⟩
  exact h _ s₃ (.trans ⟨hscalars₁.store, hscalars₁.epoch, hscalars₁.nextExecutionSequence,
    hscalars₁.schema⟩ (hscalars₂.trans hscalars₃)) (hprocess.trans (hprocess₂.trans hprocess₃))

/-- The rule for the recoveries of an open: they are accepted and keep the scalars. -/
theorem leads_recovered {caller : CallerContext} {ids : List ExecutionId} {f : String → Op α}
    (h : ∀ notes s', s.state.SameScalars s'.state → SameProcess s s' → Leads (f notes) s' Q) :
    Leads (recoverPending caller ids >>= f) s Q := by
  have haccepts : ∃ notes, ((recoverPending caller ids).exec s).1 = .ok notes :=
    recoverPending_accepts caller ids s
  have hwrites := recoverPending_writes caller ids s
  obtain ⟨notes, hnotes⟩ := haccepts
  apply leads_bind
  unfold Leads at hwrites ⊢
  rw [hnotes] at hwrites ⊢
  exact h notes _ (hwrites.1.sameScalars fun hcreate => by cases hcreate.choose_spec) hwrites.2

/-- What a restart leaves of the loaded state. -/
theorem openLoaded_ends (s : Runtime) (report : FileReport) :
    Leads (openLoaded report) s fun r s' => (∃ outcome, r = .ok outcome) ∧ s'.isOpen = true ∧
      ({ s.state with epoch := (s.state.epoch + 1) % 2 ^ 64 } : DurableState).SameScalars
        s'.state := by
  unfold openLoaded
  apply leads_get
  apply leads_reconcile
  have hreconciled := sameScalars_reconciled s.toJournaled
  apply leads_restartAt
  intro written t hrestarted _
  apply leads_update
  apply leads_get
  apply leads_recovered
  intro notes s' hrecovered hprocess
  refine leads_pure ⟨⟨_, rfl⟩, hprocess.isOpen, .trans ?_ (hrestarted.trans hrecovered)⟩
  exact ⟨hreconciled.store, rfl, hreconciled.nextExecutionSequence, hreconciled.schema⟩

end Openings

/-- The files an open loads. -/
def foundFiles (files : Option Files) (entropy : UInt64) : Files :=
  { files.getD {} with journal := some (foundJournal files entropy) }

theorem FilesOpened.load {limits : StoreLimits} {files : Option Files} {entropy : UInt64}
    {b : ByteStore} (h : FilesOpened limits files entropy b) (out : DurableState) :
    b.load out = loadFiles limits (foundFiles files entropy) out := by
  rw [ByteStore.load, h.bounds, h.contents]
  rfl

/-- The loaded state belongs to another store than the journal. -/
def LoadOutcome.Foreign (loaded : LoadOutcome) (store : StoreId) : Prop :=
  loaded.state.store ≠ .nil ∧ loaded.state.store ≠ store

instance (loaded : LoadOutcome) (store : StoreId) : Decidable (loaded.Foreign store) :=
  inferInstanceAs (Decidable (_ ∧ _))

/-- `Runtime::open` does not go on with what was loaded: the load was refused, or the state belongs
to another store or has an unsupported schema. -/
def LoadOutcome.Rejected (loaded : LoadOutcome) (store : StoreId) : Prop :=
  loaded.status ≠ none ∨ loaded.Foreign store ∨
    (loaded.state.schema ≠ 0 ∧ loaded.state.schema ≠ persistenceSchemaVersion)

/-- What memory holds after a rejected load. -/
def LoadOutcome.abandoned (loaded : LoadOutcome) (store : StoreId) : DurableState :=
  if loaded.status = none ∧ ¬ loaded.Foreign store then { loaded.state with store := store }
  else loaded.state

/-- How an open of a closed runtime over a closed handle ends. -/
inductive EndsAs (s : Runtime) (create : Bool) (limits : StoreLimits) (files : Option Files)
    (entropy : UInt64) : Except Status OpenOutcome → Runtime → Prop
  | refused {e : Status} {s' : Runtime} (hfiles : ¬ Openable create limits files entropy)
      (hcode : e.code ≠ .invalidArgument) (hstate : s'.state = s.state)
      (hclosed : s'.isOpen = false) (hhandle : s'.store.isOpen = false)
      (hsessions : s'.sessions = s.sessions) : EndsAs s create limits files entropy (.error e) s'
  | unloaded {e : Status} {s' : Runtime} (hfiles : Openable create limits files entropy)
      (hrejected : (loadFiles limits (foundFiles files entropy) s.state).Rejected
        (journalStore (foundJournal files entropy)))
      (hcode : e.code ≠ .invalidArgument) (hclosed : s'.isOpen = false)
      (hhandle : s'.store.isOpen = true)
      (hstate : s'.state = (loadFiles limits (foundFiles files entropy) s.state).abandoned
        (journalStore (foundJournal files entropy)))
      (hsessions : s'.sessions = s.sessions) : EndsAs s create limits files entropy (.error e) s'
  | opened {outcome : OpenOutcome} {s' : Runtime} (hfiles : Openable create limits files entropy)
      (hloaded : ¬ (loadFiles limits (foundFiles files entropy) s.state).Rejected
        (journalStore (foundJournal files entropy)))
      (hopen : s'.isOpen = true) (hstate : DurableState.SameScalars
        { (loadFiles limits (foundFiles files entropy) s.state).state with
          epoch := ((loadFiles limits (foundFiles files entropy) s.state).state.epoch + 1) % 2 ^ 64
          store := journalStore (foundJournal files entropy)
          schema := persistenceSchemaVersion } s'.state) :
      EndsAs s create limits files entropy (.ok outcome) s'

/-- The runtime once the store is opened. -/
def Runtime.overStore (s : Runtime) (config : RuntimeConfig) (opened : ByteStore) : Runtime :=
  { s with
    config := config
    shuttingDown := false
    store := s.store.follow opened }

/-- The rule for an open: it is refused at once, or by the store, or goes on with what the store
loads. -/
theorem leads_openFiles {s : Runtime} {config : RuntimeConfig} {files : Option Files}
    {entropy : UInt64} {Q : Except Status OpenOutcome → Runtime → Prop}
    (hbusy : s.isOpen = true → Q (.error (err .alreadyExists "runtime is already open")) s)
    (hstore : s.isOpen = false → ∀ result opened,
      (s.store.over files).openStore config.createIfMissing config.storeLimits entropy =
        (result, opened) →
      (∀ e, result = .error e → Q (.error e) (s.overStore config opened)) ∧
      (result = .ok () → Leads (acceptLoaded (opened.load s.state) opened.storeId >>= openLoaded)
        (s.overStore config opened) Q)) :
    Leads (openFiles config files entropy) s Q := by
  unfold openFiles
  apply leads_get
  apply leads_refuseIf
  · exact hbusy
  intro hclosed
  apply leads_update
  unfold loadFilesState
  rw [bind_assoc]
  apply leads_get
  rw [bind_assoc]
  apply leads_update
  rw [bind_assoc]
  obtain ⟨hrefused, hopened⟩ := hstore (by simpa using hclosed) _ _ rfl
  exact leads_check hrefused fun _ => hopened

/-- The rule for the checks of what was loaded. -/
theorem leads_acceptLoaded {α : Type} {loaded : LoadOutcome} {store : StoreId}
    {f : FileReport → Op α} {s : Runtime} {Q : Except Status α → Runtime → Prop}
    (hrejected : ∀ e, loaded.Rejected store →
      (loaded.status = some e ∨ loaded.status = none ∧ e.code ≠ .invalidArgument) →
      Q (.error e) (s.mapJournaled fun j => { j with state := loaded.abandoned store }))
    (haccepted : ¬ loaded.Rejected store → Leads (f loaded.report)
      (s.mapJournaled fun j => { j with state := { loaded.state with
        store := store
        schema := persistenceSchemaVersion } }) Q) :
    Leads (acceptLoaded loaded store >>= f) s Q := by
  unfold acceptLoaded
  rw [bind_assoc]
  apply leads_update
  rw [bind_assoc]
  apply leads_refuseOn
  · intro e he
    have hsome : loaded.status ≠ none := by
      rw [he]
      exact fun hnone => by cases hnone
    have hleft := hrejected e (.inl hsome) (.inl he)
    unfold LoadOutcome.abandoned at hleft
    rw [if_neg fun h => hsome h.1] at hleft
    exact hleft
  intro hnone
  rw [bind_assoc]
  apply leads_refuseIf
  · intro hforeign
    have hleft := hrejected
      (err .corruptState "journal store id does not match the recovered state")
      (.inr (.inl hforeign)) (.inr ⟨hnone, fun hcode => by cases hcode⟩)
    unfold LoadOutcome.abandoned at hleft
    rw [if_neg fun h => h.2 hforeign] at hleft
    exact hleft
  intro hsame
  rw [bind_assoc]
  apply leads_update
  rw [bind_assoc]
  apply leads_refuseIf
  · intro hschema
    have hleft := hrejected
      (err .unsupported "durable state schema is not supported by this build")
      (.inr (.inr hschema)) (.inr ⟨hnone, fun hcode => by cases hcode⟩)
    unfold LoadOutcome.abandoned at hleft
    rw [if_pos ⟨hnone, hsame⟩] at hleft
    exact hleft
  intro hschema
  rw [bind_assoc]
  apply leads_update
  rw [pure_bind]
  refine haccepted ?_
  rintro (hrefused | hforeign | hunsupported)
  · exact hrefused hnone
  · exact hsame hforeign
  · exact hschema hunsupported

theorem openFiles_ends {s : Runtime} (hclosed : s.isOpen = false) (hhandle : s.store.isOpen = false)
    (config : RuntimeConfig) (files : Option Files) (entropy : UInt64) :
    Leads (openFiles config files entropy) s
      (EndsAs s config.createIfMissing config.storeLimits files entropy) := by
  have hopens := openStore_opened hhandle hhandle config.createIfMissing config.storeLimits files
    entropy
  have hiff := openStore_ok_iff hhandle config.createIfMissing config.storeLimits files entropy
  apply leads_openFiles
  · intro hopen
    rw [hclosed] at hopen
    cases hopen
  intro _ result opened hresult
  rw [hresult] at hopens hiff
  refine ⟨fun e he => ?_, fun hok => ?_⟩
  · obtain ⟨hstays, hcode⟩ := hopens.refused e he
    refine .refused (fun hfiles => ?_) hcode rfl hclosed hstays rfl
    rw [show result = .ok () from hiff.mpr hfiles] at he
    cases he
  obtain ⟨-, hfound⟩ := hopens.opened hok
  have hfiles := hiff.mp hok
  rw [hfound.load s.state, hfound.storeId]
  apply leads_acceptLoaded
  · intro e hrejected he
    refine .unloaded hfiles hrejected ?_ hclosed hfound.isOpen rfl rfl
    rcases he with he | ⟨-, hcode⟩
    · exact loadFiles_code he
    · exact hcode
  intro hloaded
  refine leads_mono (openLoaded_ends _ _) ?_
  rintro r s' ⟨⟨outcome, rfl⟩, hopen, hscalars⟩
  exact .opened hfiles hloaded hopen hscalars

/-- Over a handle that was never closed, the store refuses. -/
theorem openFiles_handled {s : Runtime} (hclosed : s.isOpen = false) (hhandle : s.store.isOpen = true)
    (config : RuntimeConfig) (files : Option Files) (entropy : UInt64) :
    Leads (openFiles config files entropy) s fun r s' =>
      (∃ e, r = .error e ∧ e.code = .invalidArgument) ∧ s'.state = s.state ∧
        s'.isOpen = false ∧ s'.store = s.store ∧ s'.sessions = s.sessions := by
  have hopened : (s.store.over files).openStore config.createIfMissing config.storeLimits entropy =
      (.error (err .invalidArgument "store is already open"), s.store.over files) := by
    unfold ByteStore.openStore
    exact if_pos hhandle
  unfold openFiles
  apply leads_get
  apply leads_refuseIf
  · intro hopen
    rw [hclosed] at hopen
    cases hopen
  intro _
  apply leads_update
  unfold loadFilesState
  rw [bind_assoc]
  apply leads_get
  rw [bind_assoc]
  apply leads_update
  rw [bind_assoc]
  dsimp only
  rw [hopened]
  exact ⟨⟨_, rfl, rfl⟩, rfl, hclosed, rfl, rfl⟩

end ExecutionFabric
