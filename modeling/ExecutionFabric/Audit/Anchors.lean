import ExecutionFabric.Audit.Runs

/-!
# Directories load, with or without collisions

The disciplines of the previous module assume that derived ids do not collide. That
the store itself stays in order needs no such assumption: `Secured` holds in every
reachable state, and a directory of a secured runtime loads.
-/
namespace ExecutionFabric

open Lib

/-- The store of the runtime is in order: its directory is sound, an open runtime is anchored to it,
and a closed one holds nothing or something of the same store. -/
structure Secured (s : Runtime) : Prop where
  housed : Housed s
  sound : ∀ d, s.store.directory = some d → d.Sound
  running : s.isOpen = true → ∃ d, Anchored s.toJournaled d ∧ ¬ d.Blank
  parked : s.isOpen = false → s.state = {} ∨
    ∃ d, s.store.directory = some d ∧ ¬ d.Blank ∧ s.state.store = d.storeId

theorem secured_start : Secured {} := by
  refine ⟨housed_start, ?_, ?_, fun _ => .inl rfl⟩
  · intro d hd
    cases hd
  · intro h
    cases h

theorem Secured.of_anchored {s : Runtime} {d : Directory} (hhoused : Housed s)
    (hopen : s.isOpen = true) (h : Anchored s.toJournaled d) (hblank : ¬ d.Blank) : Secured s := by
  refine ⟨hhoused, ?_, fun _ => ⟨d, h, hblank⟩, ?_⟩
  · intro d' hd'
    obtain rfl := Option.some.inj (hd'.symm.trans h.directory)
    exact h.sound
  · intro hclosed
    rw [hopen] at hclosed
    cases hclosed

/-! ## Transactions -/

theorem Anchored.writes {allowed : Intent → Prop} {j j' : Journaled} {d : Directory}
    (h : Anchored j d) (hblank : ¬ d.Blank) (hw : Writes allowed j j') :
    ∃ d', Anchored j' d' ∧ ¬ d'.Blank := by
  induction hw generalizing d with
  | done j => exact ⟨d, h, hblank⟩
  | write hi ht rest ih =>
    exact ih (h.write _ (ht.owns h.schema) (.inr hblank))
      (Directory.not_blank_extendAll d (.inl hblank))

/-! ## Reopening -/

/-- Appending a record that was already installed. -/
theorem Anchored.append {j : Journaled} {d : Directory} (h : Anchored j d) (hblank : ¬ d.Blank)
    (r : CommitGroupRecord) :
    Anchored (j.append (.commitGroup r)) (d.extend (.commitGroup r)) := by
  refine ⟨?_, ?_, h.named, ?_, ?_, h.store, h.schema⟩
  · show (j.store.append _).directory = _
    unfold FileDurableStore.append
    rw [h.directory, h.last]
    rfl
  · refine Directory.sound_extend h.sound h.named _ ?_ (fun hb => absurd hb hblank)
    intro m hm
    cases hm
  · rw [Directory.lastSequence_extend, ← h.last]
    rfl
  · rw [Directory.lastSequence_extend, ← h.last]
    rfl

theorem Anchored.appends {j : Journaled} {d : Directory} (h : Anchored j d) (hblank : ¬ d.Blank)
    (repairs : List CommitGroupRecord) :
    ∃ d', Anchored (repairs.foldl (fun j repair => j.append (.commitGroup repair)) j) d' ∧
      ¬ d'.Blank := by
  induction repairs generalizing j d with
  | nil => exact ⟨d, h, hblank⟩
  | cons r rest ih =>
    exact ih (h.append hblank r) (Directory.not_blank_extend d _)

/-- Nothing is loaded from a blank directory, so there is nothing to repair. -/
theorem repairs_of_blank {d : Directory} (h : d.Blank) (out : DurableState) (id : StoreId) :
    (reconcileState (loadedState d out id)).repairs = [] := by
  have hexecutions : (loadedState d out id).executions = .empty := by
    unfold loadedState loadDirectory
    rw [h.1, h.2]
    dsimp only
    rw [if_neg (by simp)]
    unfold loadBase replay
    rw [h.2]
    dsimp only
    split <;> rfl
  unfold reconcileState
  rw [hexecutions]
  rfl

/-- An open of the runtime that gets past the store and finds the directory `d`. -/
structure Finds (s : Runtime) (store : FileDurableStore) (d : Directory) : Prop where
  directory : store.directory = some d
  sound : d.Sound
  named : d.storeId ≠ .nil
  id : store.storeId = d.storeId
  last : store.lastSequence = d.lastSequence
  out : s.state = {} ∨ (¬ d.Blank ∧ s.state.store = d.storeId)

section

variable {s : Runtime} {store : FileDurableStore} {d : Directory}

/-- What the open finds loads to the image of the directory. -/
theorem Finds.loads (h : Finds s store d) :
    Loadable d s.state store.storeId ∧ (loadDirectory d s.state).2.image = d.image ∧
      (loadDirectory d s.state).2.sequence = d.lastSequence := by
  have hstore : s.state.store = .nil ∨ s.state.store = d.storeId := by
    rcases h.out with hempty | ⟨-, hsame⟩
    · rw [hempty]
      exact .inl rfl
    · exact .inr hsame
  have hblank : d.Blank → s.state = {} := by
    intro hblank
    rcases h.out with hempty | ⟨hnot, -⟩
    · exact hempty
    · exact absurd hblank hnot
  obtain ⟨report, st, hload, himage, hseq⟩ :=
    Directory.load_ok h.sound h.named s.state hstore hblank
  have hscalars := Directory.store_image h.sound h.named
  rw [← himage] at hscalars
  rw [hload]
  refine ⟨⟨⟨report, by rw [hload]⟩, ?_, ?_⟩, himage, hseq⟩
  · rw [hload, h.id]
    exact .inr hscalars.1
  · rw [hload]
    exact hscalars.2

/-- Reconciled in memory, and not yet in the journal. -/
theorem Finds.anchored (h : Finds s store d) :
    Anchored (Journaled.rebuildIndexes { s.toJournaled with
      store := store
      state := (reconcileState (loadedState d s.state store.storeId)).state }) d := by
  refine ⟨h.directory, h.sound, h.named, h.last, ?_, ?_, ?_⟩
  · exact (sequence_reconcileState _).trans h.loads.2.2
  · exact (store_reconcileState _).trans h.id
  · exact schema_reconcileState _

/-- What a sound directory loads to, reconciled, is anchored to what reconciliation left of it. -/
theorem Finds.reloaded (h : Finds s store d) :
    ∃ d', Anchored (reloaded s.toJournaled store d) d' := by
  by_cases hb : d.Blank
  · refine ⟨d, ?_⟩
    have hrepairs := repairs_of_blank hb s.state store.storeId
    unfold ExecutionFabric.reloaded reconciled
    dsimp only
    rw [hrepairs]
    exact h.anchored
  · obtain ⟨d', hd', -⟩ := h.anchored.appends hb
      (reconcileState (loadedState d s.state store.storeId)).repairs
    exact ⟨d', hd'⟩

end

theorem heads_restartRecords (j : Journaled) (d : Directory) : d.Heads (restartRecords j) := by
  intro _
  exact ⟨_, _, rfl⟩

theorem restartRecords_ne_nil (j : Journaled) : restartRecords j ≠ [] := by
  intro h
  simp [restartRecords, reclassificationRecords, revocationRecords] at h

/-- An open finds the directory that was there, or makes a blank one. -/
theorem openStore_origin {st st' : FileDurableStore} {create : Bool} {entropy : UInt64}
    {result : Except Status Unit} (h : st.openStore create entropy = (result, st'))
    {d : Directory} (hd : st'.directory = some d) : st.directory = some d ∨ d.Blank := by
  unfold FileDurableStore.openStore at h
  split at h
  · cases h
    exact .inl hd
  split at h
  · cases h
    exact .inl hd
  dsimp only at h
  have hgot : st'.directory = some (st.directory.getD { storeId := ⟨entropy⟩ }) := by
    split at h
    · cases h
      rfl
    · cases h
      rfl
  rw [hd] at hgot
  cases hs : st.directory with
  | some d' =>
    rw [hs] at hgot
    exact .inl hgot.symm
  | none =>
    rw [hs] at hgot
    rw [Option.some.inj hgot]
    exact .inr ⟨rfl, rfl⟩

/-- How a closed, secured runtime opens its store: it refuses and leaves the directory alone, it
makes up a nameless directory, or it finds a directory that loads. -/
theorem Secured.openStore {s : Runtime} (h : Secured s) (hclosed : s.isOpen = false)
    {config : RuntimeConfig} {entropy : UInt64} {result : Except Status Unit}
    {store : FileDurableStore}
    (hopened : s.store.openStore config.createIfMissing entropy = (result, store)) :
    (store.directory = s.store.directory ∧ ∃ e, result = .error e) ∨
    (s.store.isOpen = false ∧ s.store.directory = none ∧ config.createIfMissing = true ∧
      entropy = 0 ∧ (∃ d, store.directory = some d ∧ d.Sound) ∧ ∃ e, result = .error e) ∨
    ∃ d, result = .ok () ∧ Finds s store d := by
  by_cases hbusy : s.store.isOpen = true
  · unfold FileDurableStore.openStore at hopened
    rw [if_pos hbusy] at hopened
    cases hopened
    exact .inl ⟨rfl, _, rfl⟩
  have hfree : s.store.isOpen = false := by simpa using hbusy
  rcases openStore_cases hfree hopened with ⟨hnone, hstore, herror⟩ |
    ⟨d, hd, hdirectory, ⟨hnil, -, herror⟩ | ⟨hnamed, -, hresult, hid, hlast⟩⟩
  · rw [hstore]
    exact .inl ⟨rfl, herror⟩
  · cases hs : s.store.directory with
    | some d₀ =>
      rw [hs] at hd
      exact .inl ⟨hdirectory.trans (congrArg some hd), herror⟩
    | none =>
      rw [hs] at hd
      have hcreate : config.createIfMissing = true := by
        cases hc : config.createIfMissing with
        | true => rfl
        | false =>
          unfold FileDurableStore.openStore at hopened
          rw [if_neg (by simp [hfree]), hs, hc] at hopened
          cases hopened
          rw [hs] at hdirectory
          cases hdirectory
      refine .inr (.inl ⟨hfree, rfl, hcreate, ?_, ⟨d, hdirectory, ?_⟩, herror⟩)
      · rw [hd] at hnil
        exact congrArg Id.value hnil
      · rw [hd]
        exact sound_created _
  · have hsound : d.Sound := by
      cases hs : s.store.directory with
      | some d₀ =>
        rw [hs] at hd
        rw [hd]
        exact h.sound d₀ hs
      | none =>
        rw [hs] at hd
        rw [hd]
        exact sound_created _
    have hout : s.state = {} ∨ (¬ d.Blank ∧ s.state.store = d.storeId) := by
      rcases h.parked hclosed with hempty | ⟨d₀, hd₀, hblank, hstore⟩
      · exact .inl hempty
      · rw [hd₀] at hd
        rw [hd]
        exact .inr ⟨hblank, hstore⟩
    exact .inr (.inr ⟨d, hresult, hdirectory, hsound, hnamed, hid, hlast, hout⟩)

theorem Secured.finds {s : Runtime} (h : Secured s) (hclosed : s.isOpen = false)
    {config : RuntimeConfig} {entropy : UInt64} {result : Except Status Unit}
    {store : FileDurableStore}
    (hopened : s.store.openStore config.createIfMissing entropy = (result, store))
    (hresult : result = .ok ()) {d : Directory} (hd : store.directory = some d) :
    Finds s store d := by
  rcases h.openStore hclosed hopened with ⟨-, e, he⟩ | ⟨-, -, -, -, -, e, he⟩ | ⟨d', -, hfinds⟩
  · rw [he] at hresult
    cases hresult
  · rw [he] at hresult
    cases hresult
  · obtain rfl := Option.some.inj (hd.symm.trans hfinds.directory)
    exact hfinds

theorem Secured.opens {s s' : Runtime} (h : Secured s) (hhoused : Housed s')
    (hclosed : s.isOpen = false) {config : RuntimeConfig} {entropy : UInt64}
    {result : Except Status Unit} {store : FileDurableStore}
    (hopened : s.store.openStore config.createIfMissing entropy = (result, store))
    (hopens : Opens s result store s') : Secured s' := by
  have hstep := h.openStore hclosed hopened
  cases hopens with
  | refused e hresult hj hclosed' =>
    have hstore : s'.store = store := congrArg Journaled.store hj
    have hstate : s'.state = s.state := (congrArg Journaled.state hj).trans rfl
    refine ⟨hhoused, ?_, fun hopen => ?_, fun _ => ?_⟩
    · intro d hd
      rw [hstore] at hd
      rcases hstep with ⟨hsame, -⟩ | ⟨-, -, -, -, ⟨d', hd', hsound⟩, -⟩ | ⟨d', hok, -⟩
      · exact h.sound d (hsame ▸ hd)
      · obtain rfl := Option.some.inj (hd.symm.trans hd')
        exact hsound
      · rw [hok] at hresult
        cases hresult
    · rw [hclosed'] at hopen
      cases hopen
    · rw [hstate, hstore]
      rcases hstep with ⟨hsame, -⟩ | ⟨-, hnone, -⟩ | ⟨d', hok, -⟩
      · rw [hsame]
        exact h.parked hclosed
      · rcases h.parked hclosed with hempty | ⟨d, hd, -⟩
        · exact .inl hempty
        · rw [hnone] at hd
          cases hd
      · rw [hok] at hresult
        cases hresult
  | unloadable d hresult hd hload hstore hclosed' =>
    exact absurd (h.finds hclosed hopened hresult hd).loads.1 hload
  | reopened d hresult hd hload hw hopen =>
    obtain ⟨d', hanchored⟩ := (h.finds hclosed hopened hresult hd).reloaded
    have hrestarted := hanchored.write _ (restartRecords_owns _ hanchored.schema)
      (.inl (heads_restartRecords _ d'))
    obtain ⟨d₁, hd₁, hblank⟩ := hrestarted.writes
      (Directory.not_blank_extendAll d' (.inr (restartRecords_ne_nil _))) hw.writes
    exact .of_anchored hhoused hopen hd₁ hblank

/-! ## Runs -/

theorem Secured.perform {s : Runtime} (h : Secured s) (e : Event) : Secured (e.perform s) := by
  obtain ⟨hhoused, -⟩ := h.housed.perform e
  cases e with
  | crash kept =>
    refine ⟨hhoused, ?_, fun hopen => (by cases hopen), fun _ => .inl rfl⟩
    intro d' hd'
    obtain ⟨d, hd, rfl⟩ := Option.map_eq_some_iff.mp hd'
    exact Directory.sound_cut (h.sound d hd) (Nat.le_max_right _ _)
  | call c =>
    obtain ⟨heffect, -⟩ := call_outcome c s h.housed.orderly
    change Housed (c.perform s) at hhoused
    show Secured (c.perform s)
    generalize c.perform s = s' at *
    cases heffect with
    | quiet hj hopen =>
      have hstore : s'.store = s.store := congrArg Journaled.store hj
      have hstate : s'.state = s.state := congrArg Journaled.state hj
      refine ⟨hhoused, ?_, ?_, ?_⟩
      · rw [hstore]
        exact h.sound
      · rw [hopen, hj]
        exact h.running
      · rw [hopen, hstate, hstore]
        exact h.parked
    | wrote hi hrun hopen ht hj =>
      obtain ⟨d, hd, hblank⟩ := h.running hrun
      have hwritten := hd.write _ (ht.owns hd.schema) (.inr hblank)
      rw [← hj] at hwritten
      exact .of_anchored hhoused hopen hwritten (Directory.not_blank_extendAll d (.inl hblank))
    | lost session hc hrun hopen hw =>
      obtain ⟨d, hd, hblank⟩ := h.running hrun
      obtain ⟨d', hd', hblank'⟩ := hd.writes hblank hw
      exact .of_anchored hhoused hopen hd' hblank'
    | closed hc hrun hclosed hj =>
      obtain ⟨d, hd, hblank⟩ := h.running hrun
      have hdirectory : s'.store.directory = s.store.directory :=
        congrArg (fun j => j.store.directory) hj
      have hstate : s'.state = s.state := (congrArg Journaled.state hj).trans rfl
      refine ⟨hhoused, ?_, fun hopen => ?_, fun _ => .inr ⟨d, ?_, hblank, ?_⟩⟩
      · rw [hdirectory]
        exact h.sound
      · rw [hclosed] at hopen
        cases hopen
      · exact hdirectory.trans hd.directory
      · rw [hstate]
        exact hd.store
    | snapshot truncate hc hrun hopen hj =>
      obtain ⟨d, hd, hblank⟩ := h.running hrun
      refine .of_anchored (d := d.snapshotted s.state truncate) hhoused hopen ?_ ?_
      · rw [hj]
        exact hd.snapshotted truncate
      · rintro ⟨-, hnone⟩
        cases truncate <;> cases hnone
    | opens config entropy hc hclosed hopened hopens =>
      exact h.opens hhoused hclosed hopened hopens

theorem Runs.secured {allow : Runtime → Event → Prop} {s s' : Runtime} {events : List Event}
    (hrun : Runs allow s events s') (h : Secured s) : Secured s' := by
  induction hrun with
  | nil s => exact h
  | cons hallow rest ih => exact ih (h.perform _)

end ExecutionFabric
