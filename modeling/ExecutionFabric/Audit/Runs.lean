import ExecutionFabric.Audit.Housing

/-!
# Invariants of whole runs

`Discipline` is the shape of every invariant about runs: what holds of the image at
each record boundary of the journal, of the whole image on disk, of memory while an
open is recovering executions, and of memory between calls. `Discipline.Upheld` lists
what has to be shown about single steps; `Discipline.Upheld.keeps` is the induction
over runs, with crashes, restarts and snapshots.
-/
namespace ExecutionFabric

open Lib

/-! ## Memory and its directory -/

/-- `d` is the directory memory is journaled to. -/
structure Anchored (j : Journaled) (d : Directory) : Prop where
  directory : j.store.directory = some d
  sound : d.Sound
  named : d.storeId ≠ .nil
  last : j.store.lastSequence = d.lastSequence
  sequence : j.state.sequence = d.lastSequence
  store : j.state.store = d.storeId
  schema : j.state.schema = persistenceSchemaVersion

/-- `d` is the directory memory is journaled to, and holds the same image. -/
structure Mounted (j : Journaled) (d : Directory) : Prop where
  directory : j.store.directory = some d
  sound : d.Sound
  named : d.storeId ≠ .nil
  last : j.store.lastSequence = d.lastSequence
  sequence : j.state.sequence = d.lastSequence
  store : j.state.store = d.storeId
  schema : j.state.schema = persistenceSchemaVersion
  agrees : d.image.Agrees j.state.image

theorem Mounted.anchored {j : Journaled} {d : Directory} (h : Mounted j d) : Anchored j d :=
  { h with }

theorem Anchored.mounted {j : Journaled} {d : Directory} (h : Anchored j d)
    (hagrees : d.image.Agrees j.state.image) : Mounted j d :=
  { h with agrees := hagrees }

/-- The directory with the records appended in order. -/
def Directory.extendAll (d : Directory) (es : List JournalEntry) : Directory :=
  es.foldl Directory.extend d

/-- A blank directory is first given metadata. -/
def Directory.Heads (d : Directory) (es : List JournalEntry) : Prop :=
  d.Blank → ∃ m rest, es = .storeMeta m :: rest

theorem sequence_put {j : Journaled} {e : JournalEntry} :
    (j.put e).state.sequence = j.store.lastSequence + 1 := by
  rw [Journaled.state_put]
  cases e <;> rfl

theorem Anchored.put {j : Journaled} {d : Directory} (h : Anchored j d) (e : JournalEntry)
    (howns : j.Owns [e]) (hfirst : d.Blank → ∃ m, e = .storeMeta m) :
    Anchored (j.put e) (d.extend e) := by
  have hgrows := grows_put j e howns
  have hstore := j.store_put e
  refine ⟨?_, ?_, h.named, ?_, ?_, ?_, ?_⟩
  · rw [hstore]
    unfold FileDurableStore.append
    rw [h.directory, h.last]
    rfl
  · refine Directory.sound_extend h.sound h.named e ?_ hfirst
    intro m hm
    have hm' := howns m (hm ▸ List.mem_singleton.mpr rfl)
    rw [h.store, h.schema] at hm'
    exact hm'
  · rw [hstore, Directory.lastSequence_extend, ← h.last]
    rfl
  · rw [sequence_put, Directory.lastSequence_extend, h.last]
  · exact hgrows.store.trans h.store
  · exact hgrows.schema.trans h.schema

theorem Mounted.put {j : Journaled} {d : Directory} (h : Mounted j d) (e : JournalEntry)
    (howns : j.Owns [e]) (hfirst : d.Blank → ∃ m, e = .storeMeta m) :
    Mounted (j.put e) (d.extend e) := by
  refine (h.anchored.put e howns hfirst).mounted ?_
  rw [Directory.image_extend h.sound, Journaled.image_put]
  exact h.agrees.install e

/-- What each of the written records keeps is kept by the list of them. -/
theorem Anchored.write_induction {P : Journaled → Directory → Prop} {j : Journaled} {d : Directory}
    (h : P j d) (es : List JournalEntry) (howns : j.Owns es) (hheads : d.Heads es ∨ ¬ d.Blank)
    (hput : ∀ e ∈ es, ∀ {j d}, P j d → j.Owns [e] → (d.Blank → ∃ m, e = .storeMeta m) →
      P (j.put e) (d.extend e)) : P (j.write es) (d.extendAll es) := by
  induction es generalizing j d with
  | nil => exact h
  | cons e rest ih =>
    have hfirst : d.Blank → ∃ m, e = .storeMeta m := by
      intro hblank
      rcases hheads with hheads | hnot
      · obtain ⟨m, rest', he⟩ := hheads hblank
        exact ⟨m, (List.cons.inj he).1⟩
      · exact absurd hblank hnot
    have howns' : j.Owns [e] := by
      intro r hr
      refine howns r ?_
      rw [List.mem_singleton.mp hr]
      exact List.mem_cons_self
    have hgrows := grows_put j e howns'
    refine ih (hput e List.mem_cons_self h howns' hfirst) ?_ (.inr (Directory.not_blank_extend d e))
      fun e' he' => hput e' (List.mem_cons_of_mem _ he')
    intro r hr
    rw [hgrows.store, hgrows.schema]
    exact howns r (List.mem_cons_of_mem _ hr)

theorem Anchored.write {j : Journaled} {d : Directory} (h : Anchored j d) (es : List JournalEntry)
    (howns : j.Owns es) (hheads : d.Heads es ∨ ¬ d.Blank) :
    Anchored (j.write es) (d.extendAll es) :=
  write_induction h es howns hheads fun e _ _ _ h => h.put e

theorem Anchored.snapshotted {j : Journaled} {d : Directory} (h : Anchored j d) (truncate : Bool) :
    Anchored { j with store := j.store.writeSnapshot j.state truncate }
      (d.snapshotted j.state truncate) := by
  have hlast := Directory.lastSequence_snapshotted h.sequence truncate
  refine ⟨?_, Directory.sound_snapshotted h.sound h.named h.store h.sequence h.schema truncate,
    ?_, ?_, ?_, ?_, h.schema⟩
  · cases truncate <;> simp [FileDurableStore.writeSnapshot, h.directory, Directory.snapshotted]
  · rw [Directory.storeId_snapshotted h.store]
    exact h.named
  · rw [hlast]
    cases truncate with
    | true => exact h.sequence
    | false => exact h.last
  · rw [hlast]
    exact h.sequence
  · rw [Directory.storeId_snapshotted h.store]
    exact h.store

theorem Mounted.write {j : Journaled} {d : Directory} (h : Mounted j d) (es : List JournalEntry)
    (howns : j.Owns es) (hheads : d.Heads es ∨ ¬ d.Blank) :
    Mounted (j.write es) (d.extendAll es) :=
  Anchored.write_induction h es howns hheads fun e _ _ _ h => h.put e

theorem Directory.newer_extendAll {j : Journaled} {d : Directory} (h : Mounted j d)
    (es : List JournalEntry) (howns : j.Owns es) (hheads : d.Heads es ∨ ¬ d.Blank) :
    (d.extendAll es).newer = d.newer ++ es ∧ (d.extendAll es).base = d.base := by
  induction es generalizing j d with
  | nil => exact ⟨(List.append_nil _).symm, rfl⟩
  | cons e rest ih =>
    have hone := h.write [e] (fun r hr => howns r (by
      rw [List.mem_singleton.mp hr]
      exact List.mem_cons_self)) (by
        rcases hheads with hheads | hnot
        · refine .inl fun hblank => ?_
          obtain ⟨m, rest', he⟩ := hheads hblank
          exact ⟨m, [], by rw [(List.cons.inj he).1]⟩
        · exact .inr hnot)
    have hgrows := grows_put j e (fun r hr => howns r (by
      rw [List.mem_singleton.mp hr]
      exact List.mem_cons_self))
    obtain ⟨hnewer, hbase⟩ := ih hone (fun r hr => by
      rw [show (j.write [e]).state.store = _ from hgrows.store,
        show (j.write [e]).state.schema = _ from hgrows.schema]
      exact howns r (List.mem_cons_of_mem _ hr)) (.inr (Directory.not_blank_extend d e))
    refine ⟨?_, hbase⟩
    rw [show d.extendAll (e :: rest) = (d.extendAll [e]).extendAll rest from rfl, hnewer,
      show d.extendAll [e] = d.extend e from rfl, Directory.newer_extend h.sound]
    simp

theorem Directory.not_blank_extendAll (d : Directory) {es : List JournalEntry}
    (h : ¬ d.Blank ∨ es ≠ []) : ¬ (d.extendAll es).Blank := by
  have hrest : ∀ (es : List JournalEntry) (d : Directory), ¬ d.Blank → ¬ (d.extendAll es).Blank := by
    intro es
    induction es with
    | nil => exact fun d hd => hd
    | cons e rest ih => exact fun d _ => ih _ (not_blank_extend d e)
  cases es with
  | nil =>
    rcases h with h | h
    · exact h
    · exact absurd rfl h
  | cons e rest => exact hrest rest _ (not_blank_extend d e)

/-! ## Disciplines -/

/-- An image without records. -/
structure Image.Vacant (m : Image) : Prop where
  executions : ∀ k, m.executions k = none
  actions : ∀ k, m.actions k = none
  progress : ∀ k, m.progress k = none
  checkpoints : ∀ k, m.checkpoints k = none
  continuations : ∀ k, m.continuations k = none
  leases : ∀ k, m.leases k = none
  replays : ∀ k, m.replays k = none
  ambiguities : ∀ k, m.ambiguities k = none
  commits : ∀ k, m.commits k = none
  recoveries : ∀ k, m.recoveries k = none

/-- An invariant of runs, with the events it admits. -/
structure Discipline where
  /-- Of the image at every record boundary of the journal. -/
  durable : Image → Prop
  /-- Of the image on disk. -/
  rest : Image → Prop
  /-- Of memory while an open has these executions left to recover. -/
  reopening : List ExecutionId → Journaled → Prop
  /-- Of memory between calls. -/
  working : Journaled → Prop
  /-- Of memory once the runtime is closed. -/
  parked : Image → Prop
  admits : Runtime → Event → Prop

/-- Every prefix of the records keeps an image durable that memory agrees with. -/
def Discipline.Lasting (D : Discipline) (m : Image) (es : List JournalEntry) : Prop :=
  ∀ m₀ : Image, m₀.Agrees m → D.durable m₀ → ∀ p, p <+: es → D.durable (m₀.installAll p)

/-- An open of `s` loads its directory into `j`. -/
def Reloads (s : Runtime) (config : RuntimeConfig) (entropy : UInt64) (j : Journaled) : Prop :=
  ∃ store d, s.store.openStore config.createIfMissing entropy = (.ok (), store) ∧
    store.directory = some d ∧ j = reloaded s.toJournaled store d

/-- What single steps have to satisfy, in a run whose derivations are `ds`. -/
structure Discipline.Upheld (D : Discipline) (ds : List Derivation) : Prop where
  vacant : ∀ {s : Runtime} {config : RuntimeConfig} {entropy : UInt64} {m : Image},
    D.admits s (.call (.openRuntime config entropy)) → s.store.directory = none → m.Vacant →
    D.durable m ∧ D.rest m
  rest_agrees : ∀ {m m' : Image}, m.Agrees m' → D.rest m → D.rest m'
  settles : ∀ {j : Journaled}, Working ds j → D.working j →
    D.durable j.state.image ∧ D.rest j.state.image ∧ D.parked j.state.image
  transaction : ∀ {s : Runtime} {c : Call} {i : Intent} {es : List JournalEntry},
    D.admits s (.call c) → c.intent = some i →
    (c.perform s).toJournaled = s.toJournaled.write es → Working ds s.toJournaled →
    D.working s.toJournaled → Transaction s.toJournaled i es → Minted ds s.state.store es →
    D.working (s.toJournaled.write es) ∧ D.Lasting s.state.image es
  lose : ∀ {j : Journaled} {e : ExecutionId} {es : List JournalEntry}, Working ds j →
    D.working j → Transaction j (.lose e) es → Minted ds j.state.store es →
    D.working (j.write es) ∧ D.Lasting j.state.image es
  restart : ∀ {s : Runtime} {config : RuntimeConfig} {entropy : UInt64} {m : Image} {j : Journaled},
    D.admits s (.call (.openRuntime config entropy)) →
    (∀ d, s.store.directory = some d → m = d.image) → D.rest m → Working ds j →
    m.Agrees j.state.image → Reloads s config entropy j → D.durable m →
    m.Reaches j.state.image →
    D.reopening (pendingOf (j.write (restartRecords j)).state) (j.write (restartRecords j)) ∧
      D.Lasting j.state.image (restartRecords j)
  skip : ∀ {j : Journaled} {e : ExecutionId} {ids : List ExecutionId}, D.reopening (e :: ids) j →
    D.reopening ids j
  recover : ∀ {j : Journaled} {e : ExecutionId} {ids : List ExecutionId} {es : List JournalEntry},
    Working ds j → D.reopening (e :: ids) j → Transaction j (.recover e) es →
    Minted ds j.state.store es → D.reopening ids (j.write es) ∧ D.Lasting j.state.image es
  reopened : ∀ {j : Journaled}, Working ds j → D.reopening [] j → D.working j
  crash : ∀ {s : Runtime} {kept : Nat} {d : Directory}, D.admits s (.crash kept) →
    s.store.directory = some d → d.Sound →
    D.durable (d.cut (max kept d.snapshotSequence)).image → D.rest d.image →
    D.rest (d.cut (max kept d.snapshotSequence)).image

/-- What holds of a directory between processes. -/
structure Stored (D : Discipline) (ds : List Derivation) (d : Directory) : Prop where
  sound : d.Sound
  named : d.storeId = .nil → d.Blank
  prefixes : ∀ p, p <+: d.newer →
    (d.base.installAll p).Coherent ds ∧ D.durable (d.base.installAll p)
  rest : D.rest d.image

/-- What holds of memory and its directory while the runtime is open. -/
structure Served (D : Discipline) (ds : List Derivation) (j : Journaled) (d : Directory) : Prop where
  mounted : Mounted j d
  working : Working ds j
  prefixes : ∀ p, p <+: d.newer →
    (d.base.installAll p).Coherent ds ∧ D.durable (d.base.installAll p)

/-- The invariant of a runtime in every state of a run. -/
structure Kept (D : Discipline) (ds : List Derivation) (s : Runtime) : Prop where
  housed : Housed s
  storeOpen : s.store.isOpen = s.isOpen
  running : s.isOpen = true → ∃ d, Served D ds s.toJournaled d ∧ ¬ d.Blank ∧
    D.working s.toJournaled
  parked : s.isOpen = false → (s.store.directory = none ∧ s.state = {}) ∨
    ∃ d, s.store.directory = some d ∧ Stored D ds d ∧ (s.state = {} ∨
      (¬ d.Blank ∧ s.state.store = d.storeId ∧ d.image.Agrees s.state.image ∧
        D.parked s.state.image))

section Steps

variable {D : Discipline} {ds : List Derivation}

theorem Served.write {j : Journaled} {d : Directory} (hfree : CollisionFree ds)
    (h : Served D ds j d) {es : List JournalEntry} (hes : j.state.image.LawfulAll ds es)
    (hworking : Working ds (j.write es)) (howns : j.Owns es) (hheads : d.Heads es ∨ ¬ d.Blank)
    (hlasting : D.Lasting j.state.image es) : Served D ds (j.write es) (d.extendAll es) := by
  refine ⟨h.mounted.write es howns hheads, hworking, ?_⟩
  obtain ⟨hnewer, hbase⟩ := Directory.newer_extendAll h.mounted es howns hheads
  rw [hnewer, hbase]
  intro p hp
  rcases List.prefix_or_prefix_of_prefix hp (List.prefix_append d.newer es) with hold | ⟨q, rfl⟩
  · exact h.prefixes p hold
  · have hq : q <+: es := (List.prefix_append_right_inj d.newer).mp hp
    rw [Image.installAll_append]
    have hagrees := (h.mounted.agrees.installAll q).symm
    exact ⟨(h.working.coherent.installAll hfree hes hq).agrees hagrees,
      hlasting _ h.mounted.agrees (h.prefixes d.newer List.prefix_rfl).2 q hq⟩

/-- Transactions keep memory and disk in order, one after the other. -/
theorem Served.writes {allowed : Intent → Prop} {P : Journaled → Prop} (hfree : CollisionFree ds)
    (hstep : ∀ {j : Journaled} {i : Intent} {es : List JournalEntry}, allowed i → Working ds j →
      P j → Transaction j i es → Minted ds j.state.store es →
      P (j.write es) ∧ D.Lasting j.state.image es)
    {j j' : Journaled} {d : Directory} (hw : Writes allowed j j') (h : Served D ds j d)
    (hwritten : ¬ d.Blank) (hP : P j) (hmint : Minted ds j.state.store j'.store.history) :
    ∃ d', Served D ds j' d' ∧ ¬ d'.Blank ∧ P j' := by
  induction hw generalizing d with
  | done j => exact ⟨d, h, hwritten, hP⟩
  | @write j j' i es hi ht rest ih =>
    have howns := ht.owns h.mounted.schema
    have hgrows := grows_write j es howns
    have hhistory : ∀ e ∈ es, e ∈ j'.store.history := by
      intro e he
      have hrest := rest.grows (hgrows.schema.trans h.mounted.schema)
      refine hrest.history.subset ?_
      rw [Journaled.history_write]
      exact List.mem_append_right _ he
    have hmint' : Minted ds j.state.store es := fun e he => hmint e (hhistory e he)
    obtain ⟨hP', hlasting⟩ := hstep hi h.working hP ht hmint'
    refine ih (h.write hfree (ht.lawful hfree h.working.coherent h.working.indexed hmint')
      (ht.working hfree h.working hmint') howns (.inr hwritten) hlasting)
      (Directory.not_blank_extendAll d (.inl hwritten)) hP' ?_
    rw [hgrows.store]
    exact hmint

/-- The recoveries of an open keep memory and disk in order. -/
theorem Served.recovers (hD : D.Upheld ds) (hfree : CollisionFree ds) {ids : List ExecutionId}
    {j j' : Journaled} {d : Directory} (hw : Recovers ids j j') (h : Served D ds j d)
    (hwritten : ¬ d.Blank) (hreopening : D.reopening ids j)
    (hmint : Minted ds j.state.store j'.store.history) :
    ∃ d', Served D ds j' d' ∧ ¬ d'.Blank ∧ D.reopening [] j' := by
  induction hw generalizing d with
  | done j => exact ⟨d, h, hwritten, hreopening⟩
  | skip _ ih => exact ih h hwritten (hD.skip hreopening) hmint
  | @write e ids j j' es ht rest ih =>
    have howns := ht.owns h.mounted.schema
    have hgrows := grows_write j es howns
    have hhistory : ∀ e ∈ es, e ∈ j'.store.history := by
      intro e he
      have hrest := rest.writes.grows (hgrows.schema.trans h.mounted.schema)
      refine hrest.history.subset ?_
      rw [Journaled.history_write]
      exact List.mem_append_right _ he
    have hmint' : Minted ds j.state.store es := fun e he => hmint e (hhistory e he)
    obtain ⟨hreopening', hlasting⟩ := hD.recover h.working hreopening ht hmint'
    refine ih (h.write hfree (ht.lawful hfree h.working.coherent h.working.indexed hmint')
      (ht.working hfree h.working hmint') howns (.inr hwritten) hlasting)
      (Directory.not_blank_extendAll d (.inl hwritten)) hreopening' ?_
    rw [hgrows.store]
    exact hmint

theorem Served.stored {j : Journaled} {d : Directory} (hD : D.Upheld ds) (h : Served D ds j d)
    (hw : D.working j) : Stored D ds d :=
  ⟨h.mounted.sound, fun hnil => absurd hnil h.mounted.named, h.prefixes,
    hD.rest_agrees h.mounted.agrees.symm (hD.settles h.working hw).2.1⟩

theorem Stored.coherent {d : Directory} (h : Stored D ds d) : d.image.Coherent ds :=
  (h.prefixes d.newer List.prefix_rfl).1

/-- The image of a blank directory has no records. -/
theorem Directory.vacant_of_blank {d : Directory} (h : d.Blank) : d.image.Vacant := by
  have himage : d.image = d.base := by
    unfold image newer
    rw [h.1]
    rfl
  rw [himage]
  unfold base loadBase
  rw [h.2]
  dsimp only
  constructor <;> (intro k; split <;> rfl)

theorem Image.Vacant.coherent {m : Image} (h : m.Vacant) : m.Coherent ds :=
  coherent_blank ds h.executions h.actions h.progress h.checkpoints h.continuations h.leases
    h.replays h.ambiguities h.commits h.recoveries

theorem stored_blank {d : Directory} (h : d.Blank) (hsound : d.Sound)
    (hD : d.image.Vacant → D.durable d.image ∧ D.rest d.image) : Stored D ds d := by
  have hvacant := Directory.vacant_of_blank h
  refine ⟨hsound, fun _ => h, ?_, (hD hvacant).2⟩
  have hnewer : d.newer = [] := by
    unfold Directory.newer
    rw [h.1]
    rfl
  intro p hp
  have himage : d.base.installAll p = d.image := by
    rw [hnewer] at hp
    rw [Directory.image, hnewer, List.prefix_nil.mp hp]
  rw [himage]
  exact ⟨hvacant.coherent, (hD hvacant).1⟩

/-- A directory that was just created. -/
theorem sound_created (id : StoreId) : Directory.Sound { storeId := id } := by
  refine ⟨?_, Nat.le_refl 1, ?_, fun _ => ⟨rfl, .inl rfl⟩, ?_, ?_⟩
  · intro i hi
    cases hi
  · intro r hr
    cases hr
  · intro st hst
    cases hst
  · intro hblank
    exact absurd ⟨rfl, rfl⟩ hblank

/-- Loading a stored directory leaves memory in order. -/
theorem reloaded_served {j : Journaled}
    {store : FileDurableStore} {d : Directory} (hd : store.directory = some d) (h : Stored D ds d)
    (hid : store.storeId = d.storeId) (hnamed : d.storeId ≠ .nil)
    (hlast : store.lastSequence = d.lastSequence)
    (hout : j.state = {} ∨ (¬ d.Blank ∧ j.state.store = d.storeId)) :
    Loadable d j.state store.storeId ∧ Served D ds (reloaded j store d) d ∧
      d.image.Reaches (reloaded j store d).state.image := by
  have hstore : j.state.store = .nil ∨ j.state.store = d.storeId := by
    rcases hout with hempty | ⟨-, hsame⟩
    · rw [hempty]
      exact .inl rfl
    · exact .inr hsame
  have hblank : d.Blank → j.state = {} := by
    intro hblank
    rcases hout with hempty | ⟨hnot, -⟩
    · exact hempty
    · exact absurd hblank hnot
  obtain ⟨report, st, hload, himage, hseq⟩ :=
    Directory.load_ok h.sound hnamed j.state hstore hblank
  have hscalars := Directory.store_image h.sound hnamed
  rw [← himage] at hscalars
  have hstate : loadedState d j.state store.storeId =
      { st with store := store.storeId, schema := persistenceSchemaVersion } := by
    unfold loadedState
    rw [hload]
  have hloaded : d.image.Agrees (loadedState d j.state store.storeId).image := by
    rw [hstate, ← himage, hid, ← hscalars.1]
    exact { Image.Agrees.refl st.image with }
  have hcoherent := h.coherent.agrees hloaded
  have hrec := reconcileState_reconciles _ hcoherent.settled
  have hreloaded : reloaded j store d = Journaled.rebuildIndexes { j with
      store := store, state := (reconcileState (loadedState d j.state store.storeId)).state } := by
    unfold reloaded reconciled
    dsimp only
    rw [hrec.repairs]
    rfl
  have hagrees : d.image.Agrees (reloaded j store d).state.image := by
    rw [hreloaded]
    exact hloaded.trans hrec.agrees
  refine ⟨⟨⟨report, by rw [hload]⟩, ?_, ?_⟩, ⟨⟨?_, h.sound, hnamed, ?_, ?_, ?_, ?_, hagrees⟩,
    ⟨h.coherent.agrees hagrees, ?_, ?_⟩, h.prefixes⟩, ?_⟩
  · rw [hload]
    right
    rw [hid]
    exact hscalars.1
  · rw [hload]
    exact hscalars.2
  · rw [hreloaded]
    exact hd
  · rw [hreloaded]
    exact hlast
  · rw [hreloaded]
    refine hrec.sequence.trans ?_
    rw [hstate]
    exact hseq
  · rw [hreloaded]
    refine (store_reconcileState _).trans ?_
    rw [hstate]
    exact hid
  · rw [hreloaded]
    exact hrec.schema
  · rw [hreloaded]
    exact indexed_rebuildIndexes _
  · rw [hreloaded]
    intro k a x ha hx
    have ha' : (loadedState d j.state store.storeId).actions.find k = some a := by
      rw [← hrec.actions]
      exact ha
    obtain ⟨hmem, -⟩ := (Table.find_eq_some_iff _ _ _).mp ha'
    refine hrec.frontier a.execution x ?_ hx a hmem rfl
    have hx' : (reconcileState (loadedState d j.state store.storeId)).state.image.executions
        a.execution = some x := hx
    obtain ⟨y, f, g, hy, -⟩ := hrec.agrees.execution hx'
    exact Option.isSome_iff_exists.mpr ⟨y, hy⟩
  · rw [hreloaded]
    have hloadedExecutions : (loadedState d j.state store.storeId).image.executions =
        d.image.executions := by
      rw [hstate, ← himage]
      rfl
    intro e x hx
    rw [← hloadedExecutions]
    exact hrec.reaches e x hx

/-! ## Steps of a run -/

/-- How a closed store opens. -/
theorem openStore_cases {st st' : FileDurableStore} {create : Bool} {entropy : UInt64}
    {result : Except Status Unit} (hclosed : st.isOpen = false)
    (h : st.openStore create entropy = (result, st')) :
    (st.directory = none ∧ st' = st ∧ ∃ e, result = .error e) ∨
    ∃ d, d = st.directory.getD { storeId := ⟨entropy⟩ } ∧ st'.directory = some d ∧
      ((d.storeId = .nil ∧ st'.isOpen = false ∧ ∃ e, result = .error e) ∨
        (d.storeId ≠ .nil ∧ st'.isOpen = true ∧ result = .ok () ∧ st'.storeId = d.storeId ∧
          st'.lastSequence = d.lastSequence)) := by
  unfold FileDurableStore.openStore at h
  rw [if_neg (by simp [hclosed])] at h
  split at h
  next hd =>
    cases h
    exact .inl ⟨hd, rfl, _, rfl⟩
  next =>
    dsimp only at h
    refine .inr ⟨_, rfl, ?_⟩
    split at h
    next hnil =>
      cases h
      exact ⟨rfl, .inl ⟨hnil, hclosed, _, rfl⟩⟩
    next hne =>
      cases h
      exact ⟨rfl, .inr ⟨hne, rfl, rfl, rfl, rfl⟩⟩

theorem Kept.opens {s s' : Runtime} (hD : D.Upheld ds) (hfree : CollisionFree ds)
    (h : Kept D ds s) {config : RuntimeConfig} {entropy : UInt64} (hclosed : s.isOpen = false)
    (hallow : D.admits s (.call (.openRuntime config entropy)))
    {result : Except Status Unit} {store : FileDurableStore}
    (hopened : s.store.openStore config.createIfMissing entropy = (result, store))
    (hopens : Opens s result store s') (hhoused : Housed s') (hds : s'.minted ⊆ ds) :
    Kept D ds s' := by
  have hstoreClosed : s.store.isOpen = false := h.storeOpen.trans hclosed
  rcases openStore_cases hstoreClosed hopened with
    ⟨hnone, rfl, e, rfl⟩ | ⟨d, hgot, hd, hcase⟩
  · -- The directory is missing and may not be created.
    cases hopens with
    | refused e' hresult hj hclosed' =>
      have hstate : s'.state = s.state := by rw [hj]
      have hstore : s'.store = s.store := congrArg Journaled.store hj
      refine ⟨hhoused, ?_, ?_, ?_⟩
      · rw [hstore, hstoreClosed, hclosed']
      · intro hopen
        rw [hclosed'] at hopen
        cases hopen
      · intro _
        rw [hstore, hstate]
        exact h.parked hclosed
    | unloadable d hresult => cases hresult
    | reopened d hresult => cases hresult
  · have hstored : Stored D ds d ∧ (s.state = {} ∨
        (¬ d.Blank ∧ s.state.store = d.storeId ∧ d.image.Agrees s.state.image ∧
          D.parked s.state.image)) := by
      rcases h.parked hclosed with ⟨hnone, hempty⟩ | ⟨d', hd', hstored, hstate⟩
      · rw [hnone] at hgot
        subst hgot
        exact ⟨stored_blank ⟨rfl, rfl⟩ (sound_created _) (hD.vacant hallow hnone), .inl hempty⟩
      · rw [hd'] at hgot
        subst hgot
        exact ⟨hstored, hstate⟩
    rcases hcase with ⟨hnil, hstillClosed, e, rfl⟩ | ⟨hnamed, hstoreOpen, rfl, hid, hlast⟩
    · -- A nil store id is refused.
      cases hopens with
      | refused e' hresult hj hclosed' =>
        have hstate : s'.state = s.state := by rw [hj]
        have hstore : s'.store = store := congrArg Journaled.store hj
        refine ⟨hhoused, ?_, ?_, ?_⟩
        · rw [hstore, hstillClosed, hclosed']
        · intro hopen
          rw [hclosed'] at hopen
          cases hopen
        · intro _
          rw [hstore, hstate]
          exact .inr ⟨d, hd, hstored.1, hstored.2⟩
      | unloadable d hresult => cases hresult
      | reopened d hresult => cases hresult
    · have hout : s.state = {} ∨ (¬ d.Blank ∧ s.state.store = d.storeId) := by
        rcases hstored.2 with hempty | ⟨hnot, hsame, -⟩
        · exact .inl hempty
        · exact .inr ⟨hnot, hsame⟩
      obtain ⟨hloadable, hserved, hreaches⟩ := reloaded_served hd hstored.1 hid hnamed hlast hout
      cases hopens with
      | refused e' hresult => cases hresult
      | unloadable d' hresult hd' hload =>
        obtain rfl : d = d' := Option.some.inj (hd.symm.trans hd')
        exact absurd hloadable hload
      | reopened d' hresult hd' hload hw hopen =>
        obtain rfl : d = d' := Option.some.inj (hd.symm.trans hd')
        unfold restartedFrom at hw
        have howns := restartRecords_owns (reloaded s.toJournaled store d) hserved.mounted.schema
        have hgrows := grows_write _ _ howns
        have hheads : d.Heads (restartRecords (reloaded s.toJournaled store d)) :=
          fun _ => ⟨_, _, rfl⟩
        obtain ⟨hreopening, hlasting⟩ := hD.restart (m := d.image) hallow (fun d' hd' => by
            rw [hd'] at hgot
            exact congrArg Directory.image hgot) hstored.1.rest hserved.working
          hserved.mounted.agrees ⟨store, d, hopened, hd, rfl⟩
          (hstored.1.prefixes d.newer List.prefix_rfl).2 hreaches
        have hserved' := hserved.write hfree
          (restartRecords_lawful hfree hserved.working.coherent) (hserved.working.restart hfree)
          howns (.inl hheads) hlasting
        have hwritten : ¬ (d.extendAll (restartRecords (reloaded s.toJournaled store d))).Blank :=
          Directory.not_blank_extendAll d (.inr (by
            intro hempty
            cases hempty))
        have hall := hw.writes.grows (hgrows.schema.trans hserved.mounted.schema)
        have hmint : Minted ds ((reloaded s.toJournaled store d).write (restartRecords
            (reloaded s.toJournaled store d))).state.store s'.store.history := by
          rw [← hall.store]
          exact hhoused.minted hopen hds
        obtain ⟨d', hserved'', hwritten', hreopened⟩ :=
          Served.recovers hD hfree hw hserved' hwritten hreopening hmint
        refine ⟨hhoused, ?_, ?_, ?_⟩
        · rw [hall.isOpen, hgrows.isOpen, hopen]
          exact (reconciled_grows _).isOpen.trans hstoreOpen
        · intro _
          exact ⟨d', hserved'', hwritten', hD.reopened hserved''.working hreopened⟩
        · intro hclosed'
          rw [hopen] at hclosed'
          cases hclosed'

/-- The directory of a kept runtime, open or closed. -/
theorem Kept.directory {s : Runtime} (hD : D.Upheld ds) (h : Kept D ds s) :
    s.store.directory = none ∨ ∃ d, s.store.directory = some d ∧ Stored D ds d := by
  cases hopen : s.isOpen with
  | true =>
    obtain ⟨d, hserved, -, hw⟩ := h.running hopen
    exact .inr ⟨d, hserved.mounted.directory, hserved.stored hD hw⟩
  | false =>
    rcases h.parked hopen with ⟨hnone, -⟩ | ⟨d, hd, hstored, -⟩
    · exact .inl hnone
    · exact .inr ⟨d, hd, hstored⟩

theorem Stored.cut (hD : D.Upheld ds) {s : Runtime} {d : Directory} (h : Stored D ds d)
    {kept : Nat} (hallow : D.admits s (.crash kept)) (hd : s.store.directory = some d) :
    Stored D ds (d.cut (max kept d.snapshotSequence)) := by
  have hnewer := Directory.newer_cut h.sound (max kept d.snapshotSequence)
  have hprefixes : ∀ p, p <+: (d.cut (max kept d.snapshotSequence)).newer →
      (d.base.installAll p).Coherent ds ∧ D.durable (d.base.installAll p) :=
    fun p hp => h.prefixes p (hp.trans hnewer)
  refine ⟨Directory.sound_cut h.sound (Nat.le_max_right _ _), fun hnil => ?_, hprefixes, ?_⟩
  · obtain ⟨hrecords, hsnapshot⟩ := h.named hnil
    exact ⟨by rw [Directory.cut, hrecords]; rfl, hsnapshot⟩
  exact hD.crash hallow hd h.sound (hprefixes _ List.prefix_rfl).2 h.rest

theorem Kept.crashed (hD : D.Upheld ds) {s : Runtime} (h : Kept D ds s) {kept : Nat}
    (hallow : D.admits s (.crash kept)) (hhoused : Housed (s.crashed kept)) :
    Kept D ds (s.crashed kept) := by
  refine ⟨hhoused, rfl, fun hopen => (by cases hopen), fun _ => ?_⟩
  rcases h.directory hD with hnone | ⟨d, hd, hstored⟩
  · refine .inl ⟨?_, rfl⟩
    unfold Runtime.crashed
    rw [hnone]
    rfl
  · refine .inr ⟨_, ?_, hstored.cut hD hallow hd, .inl rfl⟩
    unfold Runtime.crashed
    rw [hd]
    rfl

theorem Served.snapshotted (hD : D.Upheld ds) {j : Journaled} {d : Directory}
    (h : Served D ds j d) (hw : D.working j) (truncate : Bool) :
    Served D ds { j with store := j.store.writeSnapshot j.state truncate }
      (d.snapshotted j.state truncate) := by
  have hm := h.mounted
  have himage := Directory.image_snapshotted hm.sound hm.named hm.store hm.sequence truncate
  refine ⟨(hm.anchored.snapshotted truncate).mounted ?_,
    ⟨h.working.coherent, ?_, h.working.frontier⟩, ?_⟩
  · rw [himage]
    exact .refl _
  · exact ⟨h.working.indexed.ascending, h.working.indexed.mem⟩
  · rw [Directory.newer_snapshotted hm.sound hm.sequence,
      Directory.base_snapshotted hm.named hm.store]
    intro p hp
    rw [List.prefix_nil.mp hp]
    exact ⟨h.working.coherent, (hD.settles h.working hw).1⟩

end Steps

/-- What a discipline needs of memory does not depend on the store. -/
def Discipline.Detached (D : Discipline) : Prop :=
  ∀ (j : Journaled) (store : FileDurableStore), D.working j → D.working { j with store := store }

section Steps

variable {D : Discipline} {ds : List Derivation}

/-- One event keeps the invariant. -/
theorem Kept.perform (hD : D.Upheld ds) (hdetached : D.Detached) (hfree : CollisionFree ds)
    {s : Runtime} (h : Kept D ds s) {e : Event} (hallow : D.admits s e)
    (hds : (e.perform s).minted ⊆ ds) : Kept D ds (e.perform s) := by
  have hhoused := (h.housed.perform e).1
  cases e with
  | crash kept => exact h.crashed hD hallow hhoused
  | call c =>
    have heffect := (call_outcome c s h.housed.orderly).effect
    change Housed (c.perform s) at hhoused
    change (c.perform s).minted ⊆ ds at hds
    show Kept D ds (c.perform s)
    generalize hperform : c.perform s = s' at *
    cases heffect with
    | quiet hj hopen =>
      refine ⟨hhoused, ?_, ?_, ?_⟩
      · rw [hj, hopen]
        exact h.storeOpen
      · rw [hopen, hj]
        exact h.running
      · rw [hopen, hj]
        exact h.parked
    | wrote hi hrun hopen ht hj =>
      obtain ⟨d, hserved, hwritten, hw⟩ := h.running hrun
      have howns := ht.owns hserved.mounted.schema
      have hgrows := grows_write s.toJournaled _ howns
      have hmint : Minted ds s.state.store _ := fun e he => by
        have hall := hhoused.minted hopen hds
        rw [hj, hgrows.store] at hall
        refine hall e ?_
        rw [Journaled.history_write]
        exact List.mem_append_right _ he
      obtain ⟨hw', hlasting⟩ := hD.transaction hallow hi (hperform ▸ hj) hserved.working hw ht hmint
      refine ⟨hhoused, ?_, ?_, ?_⟩
      · rw [hj, hgrows.isOpen, hopen, h.storeOpen, hrun]
      · intro _
        rw [hj]
        exact ⟨_, hserved.write hfree
          (ht.lawful hfree hserved.working.coherent hserved.working.indexed hmint)
          (ht.working hfree hserved.working hmint) howns (.inr hwritten) hlasting,
          Directory.not_blank_extendAll d (.inl hwritten), hw'⟩
      · intro hclosed
        rw [hopen] at hclosed
        cases hclosed
    | lost session hc hrun hopen hwrites =>
      obtain ⟨d, hserved, hwritten, hw⟩ := h.running hrun
      have hgrows := hwrites.grows hserved.mounted.schema
      have hmint : Minted ds s.state.store s'.store.history := by
        rw [← hgrows.store]
        exact hhoused.minted hopen hds
      obtain ⟨d', hserved', hwritten', hw'⟩ := Served.writes (P := D.working) hfree
        (fun {j i es} hi hworking hP ht hm => by
          obtain ⟨e, rfl⟩ := hi
          exact hD.lose hworking hP ht hm) hwrites hserved hwritten hw hmint
      refine ⟨hhoused, ?_, fun _ => ⟨d', hserved', hwritten', hw'⟩, ?_⟩
      · rw [hgrows.isOpen, hopen, h.storeOpen, hrun]
      · intro hclosed
        rw [hopen] at hclosed
        cases hclosed
    | closed hc hrun hclosed hj =>
      obtain ⟨d, hserved, hwritten, hw⟩ := h.running hrun
      have hm := hserved.mounted
      refine ⟨hhoused, ?_, ?_, ?_⟩
      · rw [hj, hclosed]
        rfl
      · intro hopen
        rw [hclosed] at hopen
        cases hopen
      · intro _
        rw [hj]
        exact .inr ⟨d, hm.directory, hserved.stored hD hw,
          .inr ⟨hwritten, hm.store, hm.agrees, (hD.settles hserved.working hw).2.2⟩⟩
    | snapshot truncate hc hrun hopen hj =>
      obtain ⟨d, hserved, hwritten, hw⟩ := h.running hrun
      refine ⟨hhoused, ?_, ?_, ?_⟩
      · rw [hj, hopen, ← hrun, ← h.storeOpen]
        cases truncate <;> rfl
      · intro _
        rw [hj]
        refine ⟨_, hserved.snapshotted hD hw truncate, ?_, hdetached _ _ hw⟩
        rintro ⟨-, hnone⟩
        cases truncate <;> cases hnone
      · intro hclosed
        rw [hopen] at hclosed
        cases hclosed
    | opens config entropy hc hclosed hopened hopens =>
      subst hc
      exact h.opens hD hfree hclosed hallow hopened hopens hhoused hds

theorem kept_start : Kept D ds {} :=
  ⟨housed_start, rfl, fun hopen => (by cases hopen), fun _ => .inl ⟨rfl, rfl⟩⟩

/-- The run lemma: a discipline that single steps uphold holds in every state of a collision-free
run. -/
theorem Discipline.Upheld.keeps (hD : D.Upheld ds) (hdetached : D.Detached)
    (hfree : CollisionFree ds) {s s' : Runtime} {events : List Event}
    (hrun : Runs D.admits s events s') (h : Kept D ds s) (hds : s'.minted ⊆ ds) :
    Kept D ds s' := by
  induction hrun with
  | nil s => exact h
  | @cons s s' e events hallow rest ih =>
    obtain ⟨hhoused, -⟩ := h.housed.perform e
    obtain ⟨-, hfollows⟩ := rest.housed hhoused
    have hstep := h.perform hD hdetached hfree hallow
      (List.Subset.trans (hhoused.minted_subset hfollows) hds)
    exact ih hstep hds

end Steps

/-! ## Every run -/

/-- Every event in every state. -/
def anyEvent : Runtime → Event → Prop := fun _ _ => True

/-- The state a list of events leads to. -/
def performAll [AppendLimit] (events : List Event) (s : Runtime) : Runtime :=
  events.foldl (fun s e => e.perform s) s

theorem runs_performAll [AppendLimit] (events : List Event) (s : Runtime) :
    Runs anyEvent s events (performAll events s) := by
  induction events generalizing s with
  | nil => exact .nil s
  | cons e rest ih => exact .cons trivial (ih (e.perform s))

/-- The discipline that admits everything and asks for nothing. -/
def ordinary : Discipline where
  durable := fun _ => True
  rest := fun _ => True
  reopening := fun _ _ => True
  working := fun _ => True
  parked := fun _ => True
  admits := anyEvent

theorem ordinary_upheld (ds : List Derivation) : ordinary.Upheld ds where
  vacant := fun _ _ _ => ⟨trivial, trivial⟩
  rest_agrees := fun _ _ => trivial
  settles := fun _ _ => ⟨trivial, trivial, trivial⟩
  transaction := fun _ _ _ _ _ _ _ => ⟨trivial, fun _ _ _ _ _ => trivial⟩
  lose := fun _ _ _ _ => ⟨trivial, fun _ _ _ _ _ => trivial⟩
  restart := fun _ _ _ _ _ _ _ _ => ⟨trivial, fun _ _ _ _ _ => trivial⟩
  skip := fun _ => trivial
  recover := fun _ _ _ _ => ⟨trivial, fun _ _ _ _ _ => trivial⟩
  reopened := fun _ _ => trivial
  crash := fun _ _ _ _ _ => trivial

theorem Runs.anyEvent {allow : Runtime → Event → Prop} {events : List Event} {s s' : Runtime}
    (hrun : Runs allow s events s') : Runs anyEvent s events s' := by
  induction hrun with
  | nil s => exact .nil s
  | cons _ _ ih => exact .cons trivial ih

/-- Every collision-free run keeps disk and memory coherent. -/
theorem kept_of_runs {allow : Runtime → Event → Prop} {events : List Event} {s : Runtime}
    (hrun : Runs allow {} events s) (hfree : CollisionFree s.minted) :
    Kept ordinary s.minted s :=
  (ordinary_upheld _).keeps (fun _ _ _ => trivial) hfree hrun.anyEvent kept_start
    (List.Subset.refl _)

/-- Memory is coherent in every state of a collision-free run. -/
theorem Kept.coherent {D : Discipline} {ds : List Derivation} {s : Runtime} (h : Kept D ds s) :
    s.state.image.Coherent ds := by
  by_cases hopen : s.isOpen = true
  · obtain ⟨d, hserved, -⟩ := h.running hopen
    exact hserved.working.coherent
  · have hempty : s.state = {} → s.state.image.Coherent ds := by
      intro hstate
      have hvacant : s.state.image.Vacant := by
        rw [hstate]
        constructor <;> exact fun _ => rfl
      exact hvacant.coherent
    rcases h.parked (Bool.eq_false_iff.mpr hopen) with ⟨-, hstate⟩ | ⟨d, -, hstored, hstate⟩
    · exact hempty hstate
    · rcases hstate with hstate | ⟨-, -, hagrees, -⟩
      · exact hempty hstate
      · exact hstored.coherent.agrees hagrees

/-! ## Small runs -/

/-- Opens a store that does not exist yet under the id `store`. -/
def openAs (store : UInt64) : Event := .call (.openRuntime { createIfMissing := true } store)

def createOne : Event := .call (.createExecution { epoch := 1 } {})

def bindTo (e : ExecutionId) (worker : WorkerId) (boot : WorkerBootId) : Event :=
  .call (.bindWorker { epoch := 1 } { execution := e, worker := worker, boot := boot })

/-- The token of the first lease of an execution, in the first epoch. -/
def firstToken (e : ExecutionId) (worker : WorkerId) (boot : WorkerBootId) : LeaseToken where
  execution := e
  executionGeneration := 1
  incarnation := deriveIncarnationId e 1
  incarnationGeneration := 1
  lease := deriveLeaseId e worker boot 1
  leaseGeneration := 1
  epoch := 1
  worker := worker
  boot := boot
  policyGeneration := 1

/-- Binds a worker, starts the execution and begins `n` actions. -/
def workOn (e : ExecutionId) (n : Nat) : List Event :=
  [bindTo e ⟨2⟩ ⟨7⟩, .call (.start { token := firstToken e ⟨2⟩ ⟨7⟩ })] ++
    List.replicate n (.call (.beginAction { token := firstToken e ⟨2⟩ ⟨7⟩, effectClass := .pure }))

def completeOf (e : ExecutionId) (ordinal : Nat) : Event :=
  .call (.completeAction
    { token := firstToken e ⟨2⟩ ⟨7⟩, action := deriveActionId e ordinal, actionGeneration := 1 })

/-- One execution in the store 1, with one committed action. -/
def committedRun : List Event :=
  [openAs 1, createOne] ++ workOn (deriveExecutionId ⟨1⟩ 1) 1 ++
    [completeOf (deriveExecutionId ⟨1⟩ 1) 1]

/-- Two executions whose leases are derived to the same id. -/
def collidingLeases : List Event :=
  [openAs 1, createOne, createOne, bindTo (deriveExecutionId ⟨1⟩ 1) ⟨2⟩ ⟨7⟩,
    bindTo (deriveExecutionId ⟨1⟩ 2) ⟨3351707726830383534⟩ ⟨7⟩]

/-- Two executions, the first action of the one and the eighth of the other derived to the same
id. -/
def collidingActions : List Event :=
  [openAs 15185649398792642038] ++ List.replicate 8 createOne ++
    workOn (deriveExecutionId ⟨15185649398792642038⟩ 1) 1 ++
    [completeOf (deriveExecutionId ⟨15185649398792642038⟩ 1) 1] ++
    workOn (deriveExecutionId ⟨15185649398792642038⟩ 8) 8

end ExecutionFabric
