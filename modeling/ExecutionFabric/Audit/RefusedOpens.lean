import ExecutionFabric.Audit.FileOpens

/-!
# Refused opens

`Runtime::open` replaces the state in memory before it knows whether the load succeeds, and
creates a missing journal before it knows whether it can be read. So a refused open may
change both; every other call checks first, the two of `Call.Strands` apart.
-/
namespace ExecutionFabric

open Lib Program

/-! ## What a refused open leaves -/

section Opens

variable {s : Runtime} {config : RuntimeConfig} {files : Option Files} {entropy : UInt64}

/-- A missing journal is created. -/
def Creates (create : Bool) (files : Option Files) : Prop :=
  create = true ∧ (files.getD {}).journal = none

/-- Memory and the files are as they were before an open, and no record was appended. -/
structure OpenUnchanged (s : Runtime) (config : RuntimeConfig) (files : Option Files)
    (entropy : UInt64) : Prop where
  state : (s.openedOver config files entropy).state = s.state
  disk : s.filesAfter config files entropy = files
  history : (s.openedOver config files entropy).store.history = s.store.history

/-- `FileDurableStore::open` leaves the files alone, unless it creates the journal. -/
theorem openStore_files {h : FileDurableStore} (hclosed : h.isOpen = false) (create : Bool)
    (limits : StoreLimits) (files : Option Files) (entropy : UInt64) :
    ((h.over files).openStore create limits entropy).2.files = files ↔ ¬ Creates create files := by
  have hread : ∀ (b : ByteStore) (journal : Bytes), (b.readJournal journal).2.files = b.files := by
    intro b journal
    unfold ByteStore.readJournal
    split
    · rfl
    split
    · rfl
    dsimp only
    split <;> rfl
  unfold ByteStore.openStore FileDurableStore.over Creates
  rw [hclosed, if_neg (by simp)]
  dsimp only
  cases files with
  | none =>
    cases create with
    | false => simp
    | true => simp [hread]
  | some found =>
    cases hjournal : found.journal with
    | none =>
      cases create with
      | false => simp [hjournal]
      | true =>
        have hdiffers : ∀ journal, ({ found with journal := some journal } : Files) ≠ found := by
          intro journal heq
          rw [← heq] at hjournal
          cases hjournal
        simp [hjournal, hread, hdiffers]
    | some journal =>
      have hsame : ({ found with journal := some journal } : Files) = found := by rw [← hjournal]
      cases create <;> simp [hjournal, hread, hsame]

/-- A refused open appends nothing. -/
theorem openFiles_history (s : Runtime) (config : RuntimeConfig) (files : Option Files)
    (entropy : UInt64) : Leads (openFiles config files entropy) s fun r s' =>
      (∃ e, r = .error e) → s'.store.history = s.store.history := by
  apply leads_openFiles
  · exact fun _ _ => rfl
  intro _ result opened _
  refine ⟨fun _ _ _ => rfl, fun _ => ?_⟩
  apply leads_acceptLoaded
  · exact fun _ _ _ _ => rfl
  intro _
  refine leads_mono (openLoaded_ends _ _) ?_
  rintro r s' ⟨⟨outcome, rfl⟩, -⟩ ⟨e, he⟩
  cases he

/-- The opens that are refused after they have written: the journal is missing and created, and it
cannot be opened or loaded; or the store opens and is then not accepted, and what was read of it up
to there is not what memory held. -/
def Disturbs (s : Runtime) (config : RuntimeConfig) (files : Option Files) (entropy : UInt64) :
    Prop :=
  let opens := Openable config.createIfMissing config.storeLimits files entropy
  let loaded := loadFiles config.storeLimits (foundFiles files entropy) s.state
  let store := journalStore (foundJournal files entropy)
  s.isOpen = false ∧ s.store.isOpen = false ∧
    (Creates config.createIfMissing files ∧ (¬ opens ∨ loaded.Rejected store) ∨
      opens ∧ loaded.Rejected store ∧ loaded.abandoned store ≠ s.state)

/-- An open that is refused at once leaves everything alone. -/
theorem openUnchanged_of_busy (h : s.isOpen = true ∨ s.store.isOpen = true) :
    OpenUnchanged s config files entropy := by
  cases hopen : s.isOpen with
  | true =>
    have hsame : Leads (openFiles config files entropy) s fun _ s' => s' = s := by
      unfold openFiles
      apply leads_get
      exact leads_refuseIf (fun _ => rfl) (fun hclosed => absurd hopen hclosed)
    have hnow : s.openedOver config files entropy = s := hsame
    refine ⟨by rw [hnow], ?_, by rw [hnow]⟩
    unfold Runtime.filesAfter
    rw [if_pos hopen]
  | false =>
    have hhandle : s.store.isOpen = true := h.resolve_left (by simp [hopen])
    obtain ⟨-, hstate, -, hstore, -⟩ := openFiles_handled hopen hhandle config files entropy
    refine ⟨hstate, ?_, congrArg FileDurableStore.history hstore⟩
    unfold Runtime.filesAfter ByteStore.openStore
    rw [if_neg (by simp [hopen]), if_pos (show (s.store.over files).isOpen = true from hhandle)]
    rfl

theorem openUnchanged_iff (s : Runtime) (config : RuntimeConfig) (files : Option Files)
    (entropy : UInt64) :
    ((∃ e, (openedOn s config files entropy).1 = .error e) →
      OpenUnchanged s config files entropy) ↔ ¬ Disturbs s config files entropy := by
  by_cases hbusy : s.isOpen = true ∨ s.store.isOpen = true
  · refine ⟨fun _ hdisturbs => ?_, fun _ _ => openUnchanged_of_busy hbusy⟩
    rcases hbusy with hopen | hhandle
    · rw [hdisturbs.1] at hopen
      cases hopen
    · rw [hdisturbs.2.1] at hhandle
      cases hhandle
  have hclosed : s.isOpen = false := by simpa using fun h => hbusy (.inl h)
  have hhandle : s.store.isOpen = false := by simpa using fun h => hbusy (.inr h)
  have hends := openFiles_ends hclosed hhandle config files entropy
  have hhistory := openFiles_history s config files entropy
  have hfiles : s.filesAfter config files entropy = files ↔
      ¬ Creates config.createIfMissing files := by
    unfold Runtime.filesAfter
    rw [if_neg (by simp [hclosed])]
    exact openStore_files hhandle config.createIfMissing config.storeLimits files entropy
  have hopened : openedOn s config files entropy =
      (((openFiles config files entropy).exec s).1.map fun _ => (),
        (s.openedOver config files entropy).state) := rfl
  have hafter : (s.openedOver config files entropy) = ((openFiles config files entropy).exec s).2 :=
    rfl
  unfold Leads at hends hhistory
  rw [← hafter] at hends hhistory
  rw [hopened]
  constructor
  · rintro hharmless ⟨-, -, hdisturbs⟩
    cases hresult : ((openFiles config files entropy).exec s).1 with
    | ok outcome =>
      rw [hresult] at hends
      cases hends with
      | opened hopens hloaded =>
        rcases hdisturbs with ⟨-, hno | hno⟩ | ⟨-, hno, -⟩
        · exact hno hopens
        · exact hloaded hno
        · exact hloaded hno
    | error e =>
      rw [hresult] at hends hharmless
      have hsame := hharmless ⟨e, rfl⟩
      rcases hdisturbs with ⟨hcreates, -⟩ | ⟨hopens, -, hchanged⟩
      · exact hfiles.mp hsame.disk hcreates
      · cases hends with
        | refused hrefused => exact hrefused hopens
        | unloaded _ _ _ _ _ hstate => exact hchanged (hstate.symm.trans hsame.state)
  · rintro hclean ⟨e, he⟩
    cases hresult : ((openFiles config files entropy).exec s).1 with
    | ok outcome =>
      rw [hresult] at he
      cases he
    | error e' =>
      rw [hresult] at hends hhistory
      have hkept := hhistory ⟨e', rfl⟩
      cases hends with
      | refused hrefused _ hstate =>
        exact ⟨hstate, hfiles.mpr fun hcreates =>
          hclean ⟨hclosed, hhandle, .inl ⟨hcreates, .inl hrefused⟩⟩, hkept⟩
      | unloaded hopens hrejected _ _ _ hstate =>
        refine ⟨?_, hfiles.mpr fun hcreates =>
          hclean ⟨hclosed, hhandle, .inl ⟨hcreates, .inr hrejected⟩⟩, hkept⟩
        rw [hstate]
        by_contra hchanged
        exact hclean ⟨hclosed, hhandle, .inr ⟨hopens, hrejected, hchanged⟩⟩

end Opens

end ExecutionFabric
