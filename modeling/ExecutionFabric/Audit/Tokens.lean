import ExecutionFabric.Audit.Leases

/-!
# Lease tokens

A token is spent once the execution it names has a newer lease, or none at all under
the same lease generation. A valid token stays valid or is spent by the next step, and
a spent token is spent for good: lease generations never go back as long as the whole
journal is kept.
-/
namespace ExecutionFabric

open Lib

/-- The lease the token names was granted to its execution. -/
def Image.Issued (t : LeaseToken) (m : Image) : Prop :=
  ∃ x, m.executions t.execution = some x ∧ t.leaseGeneration ≤ x.leaseGeneration

/-- The lease the token names is gone. -/
def Image.Spent (t : LeaseToken) (m : Image) : Prop :=
  ∃ x, m.executions t.execution = some x ∧ t.leaseGeneration ≤ x.leaseGeneration ∧
    (x.leaseGeneration = t.leaseGeneration → x.lease = .nil)

/-- The token is valid in the image. -/
def Image.Honours (t : LeaseToken) (m : Image) : Prop :=
  ∃ x l, m.executions t.execution = some x ∧ m.leases t.lease = some l ∧ m.Grants l x ∧
    t.epoch = m.epoch ∧ x.generation = t.executionGeneration ∧
    x.incarnationGeneration = t.incarnationGeneration ∧ x.incarnation = t.incarnation ∧
    x.lease = t.lease ∧ x.leaseGeneration = t.leaseGeneration ∧ x.worker = t.worker ∧
    x.boot = t.boot ∧ x.policyGeneration = t.policyGeneration ∧ l.generation = t.leaseGeneration

section

variable {ds : List Derivation} {t : LeaseToken} {st : DurableState}

theorem Image.Spent.issued {m : Image} (h : m.Spent t) : m.Issued t := by
  obtain ⟨x, hx, hle, -⟩ := h
  exact ⟨x, hx, hle⟩

theorem Image.Honours.issued {m : Image} (h : m.Honours t) : m.Issued t := by
  obtain ⟨x, l, hx, -, -, -, -, -, -, -, hgeneration, -⟩ := h
  exact ⟨x, hx, Nat.le_of_eq hgeneration.symm⟩

theorem honours_of_valid (hg : st.image.Governed) (hk : st.image.Known ds)
    (hfree : CollisionFree ds) {found : ExecutionRecord × LeaseRecord}
    (h : validateToken st t = .ok found) : st.image.Honours t := by
  have ha := validateToken_authorizes h
  have hstored : st.image.leases t.lease = some found.2 := ha.stored
  have hvalid : found.1.lease ≠ .nil := by
    rw [ha.lease, ← st.image.leases.keyed _ _ hstored]
    exact (hk.leases _ _ hstored).valid hfree
  obtain ⟨l, hl, hgrants⟩ := (hg.ruled _ _ ha.execution).held hvalid
  rw [ha.lease] at hl
  obtain rfl := Option.some.inj (hl.symm.trans hstored)
  exact ⟨found.1, found.2, ha.execution, hstored, hgrants, ha.epoch, ha.generation,
    ha.incarnationGeneration, ha.incarnation, ha.lease, ha.leaseGeneration, ha.worker.2, ha.boot.2,
    ha.policyGeneration, ha.granted⟩

theorem valid_of_honours (h : st.image.Honours t) : ∃ found, validateToken st t = .ok found := by
  obtain ⟨x, l, hx, hl, hg, hepoch, hgeneration, hcount, hincarnation, hlease, hleaseGeneration,
    hworker, hboot, hpolicy, hgranted⟩ := h
  refine ⟨(x, l), ?_⟩
  have hx' : st.executions.find t.execution = some x := hx
  have hl' : st.leases.find t.lease = some l := hl
  have hepoch' : t.epoch = st.epoch := hepoch
  have hcurrent : l.epoch = st.epoch := hg.epoch
  unfold validateToken checkEpoch
  simp [hx', hl', hepoch', executionDefect, leaseDefect, hgeneration, hcount, hincarnation, hlease,
    hleaseGeneration, hgranted, hg.active, hcurrent, hg.worker, hg.boot, hworker, hboot, hpolicy]

theorem refused_of_spent (hk : st.image.Known ds) (hfree : CollisionFree ds)
    (h : st.image.Spent t) : ∃ e, validateToken st t = .error e := by
  cases hvalid : validateToken st t with
  | error e => exact ⟨e, rfl⟩
  | ok found =>
    have ha := validateToken_authorizes hvalid
    obtain ⟨x, hx, -, hgone⟩ := h
    obtain rfl := Option.some.inj (hx.symm.trans ha.execution)
    have hstored : st.image.leases t.lease = some found.2 := ha.stored
    have hid : found.2.id = .nil := by
      rw [st.image.leases.keyed _ _ hstored, ← ha.lease]
      exact hgone ha.leaseGeneration
    exact absurd hid ((hk.leases _ _ hstored).valid hfree)

end

/-! ## Single steps -/

section Steps

variable {ds : List Derivation} {t : LeaseToken} {st : DurableState} {m' : Image}
  {x y : ExecutionRecord} {ls : List LeaseRecord} {cs : List ContinuationRecord}

/-- A move never lowers a lease generation, and under the same generation it keeps the lease or
drops it. -/
theorem Move.leaseGeneration (hmove : Move st x y ls cs) :
    (SameAuthority x y ∧ ls = []) ∨ x.leaseGeneration < y.leaseGeneration ∨
      (y.leaseGeneration = x.leaseGeneration ∧ y.lease = .nil) := by
  cases hmove with
  | steady hsame => exact .inl ⟨hsame, rfl⟩
  | continued htoken hsame => exact .inl ⟨hsame, rfl⟩
  | bound request => exact .inr (.inl (Nat.lt_succ_self _))
  | dropped hdrops => exact .inr (.inr ⟨hdrops.leaseGeneration, hdrops.unbound.1⟩)

theorem spent_move (h : st.image.Spent t) (hmove : Move st x y ls cs)
    (hx : st.image.executions x.id = some x) (hid : y.id = x.id)
    (hs : st.image.Shifts m' y ls cs) : m'.Spent t := by
  obtain ⟨z, hz, hle, hgone⟩ := h
  by_cases hsame : t.execution = x.id
  · rw [hsame] at hz
    obtain rfl := Option.some.inj (hx.symm.trans hz)
    refine ⟨y, ?_, ?_⟩
    · rw [hs.executions, hsame, ← hid]
      exact KeyedMap.insert_self _ _
    · rcases hmove.leaseGeneration with ⟨hauthority, -⟩ | hlt | ⟨heq, hnil⟩
      · rw [hauthority.leaseGeneration, hauthority.lease]
        exact ⟨hle, hgone⟩
      · exact ⟨by omega, by omega⟩
      · exact ⟨by omega, fun _ => hnil⟩
  · refine ⟨z, ?_, hle, hgone⟩
    rw [hs.executions, KeyedMap.insert_of_ne _ (hid ▸ hsame)]
    exact hz

/-- A valid token stays valid or is spent. -/
theorem honours_move (h : st.image.Honours t) (hmove : Move st x y ls cs)
    (hx : st.image.executions x.id = some x) (hid : y.id = x.id)
    (htouches : st.image.Touches x.id ls cs) (hs : st.image.Shifts m' y ls cs) :
    m'.Honours t ∨ m'.Spent t := by
  obtain ⟨z, l, hz, hl, hg, hepoch, hgeneration, hcount, hincarnation, hlease, hleaseGeneration,
    hworker, hboot, hpolicy, hgranted⟩ := h
  by_cases hsame : t.execution = x.id
  · rw [hsame] at hz
    obtain rfl := Option.some.inj (hx.symm.trans hz)
    have hy : m'.executions t.execution = some y := by
      rw [hs.executions, hsame, ← hid]
      exact KeyedMap.insert_self _ _
    rcases hmove.leaseGeneration with ⟨ha, rfl⟩ | hlt | ⟨heq, hnil⟩
    · refine .inl ⟨y, l, hy, ?_, ?_, hepoch.trans hs.epoch.symm, ha.generation.trans hgeneration,
        ha.incarnationGeneration.trans hcount, ha.incarnation.trans hincarnation,
        ha.lease.trans hlease, ha.leaseGeneration.trans hleaseGeneration, ha.worker.trans hworker,
        ha.boot.trans hboot, ha.policyGeneration.trans hpolicy, hgranted⟩
      · rw [hs.leases]
        exact hl
      · exact ⟨hg.owner.trans ha.id.symm, hg.active, hg.epoch.trans hs.epoch.symm,
          hg.worker.trans ha.worker.symm, hg.boot.trans ha.boot.symm,
          hg.incarnationGeneration.trans ha.incarnationGeneration.symm,
          hg.executionGeneration.trans ha.generation.symm,
          hg.policyGeneration.trans ha.policyGeneration.symm⟩
    · exact .inr ⟨y, hy, by omega, by omega⟩
    · exact .inr ⟨y, hy, by omega, fun _ => hnil⟩
  · have hother : z.id ≠ x.id := by
      rw [st.image.executions.keyed _ _ hz]
      exact hsame
    refine .inl ⟨z, l, ?_, htouches.lease_kept hs hl (hg.owner ▸ hother),
      { hg with epoch := hg.epoch.trans hs.epoch.symm }, hepoch.trans hs.epoch.symm, hgeneration,
      hcount, hincarnation, hlease, hleaseGeneration, hworker, hboot, hpolicy, hgranted⟩
    rw [hs.executions, KeyedMap.insert_of_ne _ (hid ▸ hsame)]
    exact hz

end Steps

/-! ## Transactions -/

section Transactions

variable {ds : List Derivation} {t : LeaseToken} {j : Journaled} {es : List JournalEntry}

/-- A transaction creates an execution under a new id or moves one execution. -/
theorem Transaction.shifts {i : Intent} (hfree : CollisionFree ds) (hw : Working ds j)
    (hpublic : i.Public) (ht : Transaction j i es) (hmint : Minted ds j.state.store es) :
    (∃ x, j.state.image.executions x.id = none ∧
      j.state.image.Shifts (j.write es).state.image x [] []) ∨
    ∃ x y ls cs, j.state.image.executions x.id = some x ∧ y.id = x.id ∧ Move j.state x y ls cs ∧
      j.state.image.Touches x.id ls cs ∧ j.state.image.Shifts (j.write es).state.image y ls cs := by
  have hk' := (ht.working hfree hw hmint).coherent.known
  rw [Journaled.image_write] at hk' ⊢
  cases ht.moves hw.coherent hpublic with
  | created policy hes =>
    subst hes
    exact .inl ⟨_, createdExecution_fresh hfree hw.coherent hk' rfl (KeyedMap.insert_self _ _),
      rfl, rfl, rfl, rfl⟩
  | @moved x y ls cs hx hmove hexecutions hleases hcontinuations =>
    have hs : j.state.image.Shifts (j.state.image.installAll es) y ls cs := by
      refine ⟨?_, ?_, ?_, ht.epoch⟩
      · rw [Image.executions_installAll, hexecutions]
      · rw [Image.leases_installAll, hleases]
      · rw [Image.continuations_installAll, hcontinuations]
    obtain ⟨hid, hls, hcs⟩ := hmove.owner hw.coherent hx
    exact .inr ⟨x, y, ls, cs, hx, hid, hmove,
      Image.touches_of_known hfree hw.coherent.known hk' hs hls hcs, hs⟩

theorem Transaction.issued {i : Intent} (hfree : CollisionFree ds) (hw : Working ds j)
    (hpublic : i.Public) (ht : Transaction j i es) (hmint : Minted ds j.state.store es)
    (h : j.state.image.Issued t) : (j.write es).state.image.Issued t := by
  obtain ⟨z, hz, hle⟩ := h
  rcases ht.shifts hfree hw hpublic hmint with ⟨x, hfresh, hs⟩ | ⟨x, y, ls, cs, hx, hid, hmove, -, hs⟩
  · refine ⟨z, ?_, hle⟩
    rw [hs.executions, KeyedMap.insert_of_ne _ ?_, hz]
    rintro hsame
    rw [hsame, hfresh] at hz
    cases hz
  · by_cases hsame : t.execution = x.id
    · rw [hsame] at hz
      obtain rfl := Option.some.inj (hx.symm.trans hz)
      refine ⟨y, ?_, ?_⟩
      · rw [hs.executions, hsame, ← hid]
        exact KeyedMap.insert_self _ _
      · rcases hmove.leaseGeneration with ⟨ha, -⟩ | hlt | ⟨heq, -⟩
        · rw [ha.leaseGeneration]
          exact hle
        · omega
        · omega
    · refine ⟨z, ?_, hle⟩
      rw [hs.executions, KeyedMap.insert_of_ne _ (hid ▸ hsame)]
      exact hz

theorem Transaction.spent {i : Intent} (hfree : CollisionFree ds) (hw : Working ds j)
    (hpublic : i.Public) (ht : Transaction j i es) (hmint : Minted ds j.state.store es)
    (h : j.state.image.Spent t) : (j.write es).state.image.Spent t := by
  rcases ht.shifts hfree hw hpublic hmint with ⟨x, hfresh, hs⟩ | ⟨x, y, ls, cs, hx, hid, hmove, -, hs⟩
  · obtain ⟨z, hz, hgone⟩ := h
    refine ⟨z, ?_, hgone⟩
    rw [hs.executions, KeyedMap.insert_of_ne _ ?_, hz]
    rintro hsame
    rw [hsame, hfresh] at hz
    cases hz
  · exact spent_move h hmove hx hid hs

theorem Transaction.tracked {i : Intent} (hfree : CollisionFree ds) (hw : Working ds j)
    (hpublic : i.Public) (ht : Transaction j i es) (hmint : Minted ds j.state.store es)
    (h : j.state.image.Honours t ∨ j.state.image.Spent t) :
    (j.write es).state.image.Honours t ∨ (j.write es).state.image.Spent t := by
  rcases h with h | h
  · rcases ht.shifts hfree hw hpublic hmint with
      ⟨x, hfresh, hs⟩ | ⟨x, y, ls, cs, hx, hid, hmove, htouches, hs⟩
    · obtain ⟨z, l, hz, hl, hg, hepoch, hrest⟩ := h
      refine .inl ⟨z, l, ?_, ?_, { hg with epoch := hg.epoch.trans hs.epoch.symm },
        hepoch.trans hs.epoch.symm, hrest⟩
      · rw [hs.executions, KeyedMap.insert_of_ne _ ?_, hz]
        rintro hsame
        rw [hsame, hfresh] at hz
        cases hz
      · rw [hs.leases]
        exact hl
    · exact honours_move h hmove hx hid htouches hs
  · exact .inr (ht.spent hfree hw hpublic hmint h)

end Transactions

/-! ## Runs that keep the whole journal -/

/-- Restarts lose nothing of the journal. -/
def keepsJournal (s : Runtime) : Event → Prop
  | .crash kept => ∀ d, s.store.directory = some d → d.lastSequence ≤ kept
  | .call _ => True

/-- `P` holds of memory, and the lease of the token stays granted on disk. -/
def following (t : LeaseToken) (P : Image → Prop) : Discipline where
  durable := fun _ => True
  rest := fun m => m.Issued t
  reopening := fun _ j => j.state.image.Quiescent ∧ j.state.image.Issued t
  working := fun j => j.state.image.Governed ∧ P j.state.image
  parked := fun m => m.Governed ∧ P m
  admits := fun s e => keepsJournal s e ∧ s.store.directory ≠ none

theorem Image.Issued.agrees {t : LeaseToken} {m m' : Image} (h : m.Issued t) (ha : m.Agrees m') :
    m'.Issued t := by
  obtain ⟨x, hx, hle⟩ := h
  obtain ⟨y, f, g, hy, rfl⟩ := ha.symm.execution hx
  exact ⟨y, hy, hle⟩

theorem Image.Issued.reopened {t : LeaseToken} {m : Image} (h : m.Issued t) :
    m.reopened.Issued t := by
  obtain ⟨x, hx, hle⟩ := h
  refine ⟨parkedExecution x, ?_, ?_⟩
  · show (m.executions t.execution).map parkedExecution = some (parkedExecution x)
    rw [hx]
    rfl
  · unfold parkedExecution
    split <;> exact hle

theorem following_upheld {ds : List Derivation} {t : LeaseToken} {P : Image → Prop}
    (hfree : CollisionFree ds) (hspent : ∀ m : Image, m.Spent t → P m)
    (hissued : ∀ m : Image, P m → m.Issued t)
    (hstep : ∀ {j : Journaled} {i : Intent} {es : List JournalEntry}, Working ds j → i.Public →
      Transaction j i es → Minted ds j.state.store es → P j.state.image →
      P (j.write es).state.image) : (following t P).Upheld ds where
  vacant := fun hallow hnone => absurd hnone hallow.2
  rest_agrees := fun ha h => Image.Issued.agrees h ha
  settles := fun _ h => ⟨trivial, hissued _ h.2, h⟩
  transaction := fun _ hi _ hw h ht hmint =>
    ⟨⟨ht.governed hfree hw h.1 (Call.intent_public hi) hmint,
      hstep hw (Call.intent_public hi) ht hmint h.2⟩, fun _ _ _ _ _ => trivial⟩
  lose := fun {_ e _} hw h ht hmint =>
    have hpublic : Intent.Public (.lose e) := trivial
    ⟨⟨ht.governed hfree hw h.1 hpublic hmint, hstep hw hpublic ht hmint h.2⟩, fun _ _ _ _ _ => trivial⟩
  restart := by
    intro s config entropy m j _ _ hrest hw ha _ _ _
    have hissued' : j.state.image.Issued t := Image.Issued.agrees hrest ha
    refine ⟨?_, fun _ _ _ _ _ => trivial⟩
    show (j.write (restartRecords j)).state.image.Quiescent ∧
      (j.write (restartRecords j)).state.image.Issued t
    rw [image_restartRecords hw.coherent]
    exact ⟨Image.quiescent_reopened _, hissued'.reopened⟩
  skip := fun h => h
  recover := by
    intro j e ids es hw h ht hmint
    have hpublic : Intent.Public (.recover e) := trivial
    refine ⟨⟨?_, ht.issued hfree hw hpublic hmint h.2⟩, fun _ _ _ _ _ => trivial⟩
    rw [Journaled.image_write]
    exact (Image.Quiescent.installAll h.1 (recover_powerless h.1 ht)).1
  reopened := by
    intro j _ h
    refine ⟨h.1.governed, hspent _ ?_⟩
    obtain ⟨x, hx, hle⟩ := h.2
    exact ⟨x, hx, hle, fun _ => (h.1.idle _ x hx).unbound.1⟩
  crash := by
    intro s kept d hallow hd hsound _ hrest
    have hle : d.lastSequence ≤ max kept d.snapshotSequence :=
      Nat.le_trans (hallow.1 d hd) (Nat.le_max_left _ _)
    rw [Directory.cut_of_last_le hsound hle]
    exact hrest

theorem Kept.mono {D D' : Discipline} {ds : List Derivation} {s : Runtime} (h : Kept D ds s)
    (hdurable : ∀ m, D.durable m → D'.durable m)
    (hrest : ∀ d, s.store.directory = some d → D.rest d.image → D'.rest d.image)
    (hworking : D.working s.toJournaled → D'.working s.toJournaled)
    (hparked : D.parked s.state.image → D'.parked s.state.image) : Kept D' ds s := by
  refine ⟨h.housed, h.storeOpen, ?_, ?_⟩
  · intro hopen
    obtain ⟨d, hserved, hwritten, hw⟩ := h.running hopen
    exact ⟨d, ⟨hserved.mounted, hserved.working, fun p hp =>
      ⟨(hserved.prefixes p hp).1, hdurable _ (hserved.prefixes p hp).2⟩⟩, hwritten, hworking hw⟩
  · intro hclosed
    rcases h.parked hclosed with hnone | ⟨d, hd, hstored, hstate⟩
    · exact .inl hnone
    · refine .inr ⟨d, hd, ⟨hstored.sound, hstored.named, fun p hp =>
        ⟨(hstored.prefixes p hp).1, hdurable _ (hstored.prefixes p hp).2⟩,
        hrest d hd hstored.rest⟩, ?_⟩
      rcases hstate with hempty | ⟨hwritten, hstore, hagrees, hp⟩
      · exact .inl hempty
      · exact .inr ⟨hwritten, hstore, hagrees, hparked hp⟩

theorem Runs.mono {allow allow' : Runtime → Event → Prop} {events : List Event} {s s' : Runtime}
    (hrun : Runs allow s events s') {I : Runtime → Prop} (hs : I s)
    (hstep : ∀ s e, I s → allow s e → allow' s e ∧ I (e.perform s)) :
    Runs allow' s events s' ∧ I s' := by
  induction hrun with
  | nil s => exact ⟨.nil s, hs⟩
  | cons hallow _ ih =>
    obtain ⟨hallow', hnext⟩ := hstep _ _ hs hallow
    obtain ⟨hrest, hend⟩ := ih hnext
    exact ⟨.cons hallow' hrest, hend⟩

/-- A run that starts with a store keeps it. -/
theorem Runs.stored {events : List Event} {s s' : Runtime} (hrun : Runs keepsJournal s events s')
    (hhoused : Housed s) (hd : s.store.directory ≠ none) (t : LeaseToken) (P : Image → Prop) :
    Runs (following t P).admits s events s' ∧ Housed s' ∧ s'.store.directory ≠ none := by
  refine hrun.mono (I := fun s => Housed s ∧ s.store.directory ≠ none) ⟨hhoused, hd⟩ ?_
  rintro s e ⟨hhoused, hd⟩ hallow
  obtain ⟨hhoused', hfollows⟩ := hhoused.perform e
  refine ⟨⟨hallow, hd⟩, hhoused', ?_⟩
  intro hnone
  obtain ⟨d, hd'⟩ := Option.ne_none_iff_exists'.mp hd
  have hid := hfollows.directory d.storeId (by rw [FileDurableStore.directoryId, hd']; rfl)
  rw [FileDurableStore.directoryId, hnone] at hid
  cases hid

theorem refused_empty (t : LeaseToken) : ∃ e, validateToken {} t = .error e := by
  cases h : validateToken {} t with
  | error e => exact ⟨e, rfl⟩
  | ok found => cases (validateToken_authorizes h).execution

/-- Memory that is not empty holds the image of the directory. -/
theorem Kept.agrees {D : Discipline} {ds : List Derivation} {s : Runtime} (h : Kept D ds s)
    (hnonempty : s.state ≠ {}) :
    ∃ d, s.store.directory = some d ∧ d.image.Agrees s.state.image := by
  by_cases hopen : s.isOpen = true
  · obtain ⟨d, hserved, -⟩ := h.running hopen
    exact ⟨d, hserved.mounted.directory, hserved.mounted.agrees⟩
  · rcases h.parked (Bool.eq_false_iff.mpr hopen) with ⟨-, hempty⟩ | ⟨d, hd, -, hempty | hparked⟩
    · exact absurd hempty hnonempty
    · exact absurd hempty hnonempty
    · exact ⟨d, hd, hparked.2.2.1⟩

/-- What memory holds under a discipline that follows a token. -/
theorem Kept.followed {t : LeaseToken} {P : Image → Prop} {ds : List Derivation} {s : Runtime}
    (h : Kept (following t P) ds s) : s.state = {} ∨ (s.state.image.Governed ∧ P s.state.image) := by
  by_cases hopen : s.isOpen = true
  · obtain ⟨d, -, -, hw⟩ := h.running hopen
    exact .inr hw
  · rcases h.parked (Bool.eq_false_iff.mpr hopen) with ⟨-, hempty⟩ | ⟨d, -, -, hempty | hparked⟩
    · exact .inl hempty
    · exact .inl hempty
    · exact .inr hparked.2.2.2

theorem runs_calls [AppendLimit] (calls : List Call) (s : Runtime) :
    Runs keepsJournal s (calls.map .call) (performAll (calls.map .call) s) := by
  induction calls generalizing s with
  | nil => exact .nil s
  | cons c rest ih => exact .cons trivial (ih (c.perform s))

/-- One execution in the store 1, bound to the worker 2. -/
def boundCalls : List Call :=
  [.openRuntime { createIfMissing := true } 1, .createExecution { epoch := 1 } {},
    .bindWorker { epoch := 1 }
      { execution := deriveExecutionId ⟨1⟩ 1, worker := ⟨2⟩, boot := ⟨7⟩ }]

def restartCalls : List Call := [.shutdown, .openRuntime {} 1]

/-- The same worker and boot again, in the second epoch. -/
def rebindCalls : List Call :=
  [.bindWorker { epoch := 2 }
    { execution := deriveExecutionId ⟨1⟩ 1, worker := ⟨2⟩, boot := ⟨7⟩ }]

def restartedRun : Runtime :=
  performAll (restartCalls.map .call) (performAll (boundCalls.map .call) {})

end ExecutionFabric
