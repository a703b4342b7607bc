import ExecutionFabric.Audit.Calls

/-!
# What is on disk

A directory is a base image and the journal records newer than it. `Sound` collects
what every directory the store ever leaves behind satisfies; a sound directory loads,
and it loads the base image with the newer records installed in order. Appending adds
one record, a snapshot makes the base image current, a crash keeps a prefix.
-/
namespace ExecutionFabric

open Lib

namespace Directory

/-- The image the journal records are replayed on. -/
def base (d : Directory) : Image := (loadBase d {}).image

/-- The records a load replays. -/
def newer (d : Directory) : List JournalEntry :=
  (d.records.filter fun r => r.sequence > d.snapshotSequence).map Sequenced.entry

/-- The image a load of the directory produces. -/
def image (d : Directory) : Image := d.base.installAll d.newer

/-- Nothing was ever written. -/
def Blank (d : Directory) : Prop := d.records = [] ∧ d.snapshot = none

/-- The facts about a directory that every operation of the store keeps. -/
structure Sound (d : Directory) : Prop where
  numbered : ∀ i (h : i < d.records.length), (d.records.get ⟨i, h⟩).sequence = d.firstSequence + i
  first : 1 ≤ d.firstSequence
  owned : ∀ r ∈ d.records, ∀ m, r.entry = .storeMeta m →
    m.store = d.storeId ∧ m.schema = persistenceSchemaVersion
  headed : d.snapshot = none → d.firstSequence = 1 ∧
    (d.records = [] ∨ ∃ m rest, d.records = ⟨1, .storeMeta m⟩ :: rest)
  snapshot : ∀ st, d.snapshot = some st → st.store = d.storeId ∧
    st.schema = persistenceSchemaVersion ∧ d.firstSequence ≤ st.sequence + 1 ∧
    st.sequence ≤ d.lastSequence
  named : ¬ d.Blank → d.storeId ≠ .nil

theorem lastSequence_eq {d : Directory} (h : d.Sound) :
    d.lastSequence = d.firstSequence + d.records.length - 1 := by
  unfold lastSequence
  split
  next r hr =>
    rw [List.getLast?_eq_getElem?] at hr
    obtain ⟨hlt, hget⟩ := List.getElem?_eq_some_iff.mp hr
    have hnum := h.numbered (d.records.length - 1) hlt
    rw [List.get_eq_getElem, hget] at hnum
    omega
  next hnone =>
    have hempty : d.records = [] := List.getLast?_eq_none_iff.mp hnone
    simp [hempty]

theorem sequence_le_last {d : Directory} (h : d.Sound) {r : Sequenced} (hr : r ∈ d.records) :
    r.sequence ≤ d.lastSequence := by
  obtain ⟨i, hi, rfl⟩ := List.getElem_of_mem hr
  have hnum := h.numbered i hi
  rw [List.get_eq_getElem] at hnum
  rw [lastSequence_eq h, hnum]
  omega

end Directory

/-! ## Loading -/

theorem applyRecord_eq_some {st : DurableState} {e : JournalEntry}
    (h : ∀ m, e = .storeMeta m → st.store = .nil ∨ m.store = st.store) :
    applyRecord st e = some (st.install e) := by
  cases e <;> try rfl
  rename_i m
  simp only [applyRecord]
  rw [if_neg]
  rintro ⟨hvalid, hne⟩
  rcases h m rfl with hnil | heq
  · rw [hnil] at hvalid
    cases hvalid
  · exact hne heq

theorem store_install (st : DurableState) (e : JournalEntry) (id : StoreId)
    (hst : st.store = id) (h : ∀ m, e = .storeMeta m → m.store = id) :
    (st.install e).store = id := by
  cases e <;> first | exact hst | exact h _ rfl

/-- The sequence number a replay ends at. -/
def replayedTo (snapshotSequence : Nat) (start : Nat) : List Sequenced → Nat
  | [] => start
  | r :: rest =>
    replayedTo snapshotSequence (if r.sequence > snapshotSequence then r.sequence else start) rest

/-- Replaying records whose metadata names the store at hand succeeds and installs the newer ones. -/
theorem replay_ok (n : Nat) (id : StoreId) (rs : List Sequenced) (st : DurableState) (k : Nat)
    (hst : st.store = id)
    (hmeta : ∀ r ∈ rs, ∀ m, r.entry = .storeMeta m → m.store = id) :
    ∃ loaded st', replay n st k rs = (.ok loaded, st') ∧
      st'.image = st.image.installAll ((rs.filter fun r => r.sequence > n).map Sequenced.entry) ∧
      st'.sequence = replayedTo n st.sequence rs := by
  induction rs generalizing st k with
  | nil => exact ⟨k, st, rfl, rfl, rfl⟩
  | cons r rest ih =>
    have hrest : ∀ r' ∈ rest, ∀ m, r'.entry = .storeMeta m → m.store = id :=
      fun r' hr' => hmeta r' (List.mem_cons_of_mem _ hr')
    unfold replay replayedTo
    by_cases hnewer : r.sequence > n
    · have happly : applyRecord st r.entry = some (st.install r.entry) :=
        applyRecord_eq_some fun m hm => .inr ((hmeta r List.mem_cons_self m hm).trans hst.symm)
      rw [if_pos hnewer, if_pos hnewer, happly]
      obtain ⟨loaded, st', hreplay, himage, hseq⟩ :=
        ih { st.install r.entry with sequence := r.sequence } (k + 1)
          (store_install st r.entry id hst (hmeta r List.mem_cons_self)) hrest
      refine ⟨loaded, st', hreplay, ?_, hseq⟩
      rw [himage, List.filter_cons_of_pos (by simpa using hnewer), List.map_cons,
        Image.installAll_cons, ← DurableState.image_install]
      rfl
    · rw [if_neg hnewer, if_neg hnewer]
      obtain ⟨loaded, st', hreplay, himage, hseq⟩ := ih st k hst hrest
      refine ⟨loaded, st', hreplay, ?_, hseq⟩
      rw [himage, List.filter_cons_of_neg (by simpa using hnewer)]

theorem replayedTo_append (n start : Nat) (rs : List Sequenced) (r : Sequenced) :
    replayedTo n start (rs ++ [r]) = if r.sequence > n then r.sequence else replayedTo n start rs := by
  induction rs generalizing start with
  | nil => rfl
  | cons r' rest ih => rw [List.cons_append, replayedTo, ih, replayedTo]

theorem replayedTo_of_le (n start : Nat) (rs : List Sequenced)
    (h : ∀ r ∈ rs, r.sequence ≤ n) : replayedTo n start rs = start := by
  induction rs generalizing start with
  | nil => rfl
  | cons r rest ih =>
    rw [replayedTo, if_neg (by have := h r List.mem_cons_self; omega)]
    exact ih _ fun r' hr' => h r' (List.mem_cons_of_mem _ hr')

/-- A replay that starts at the snapshot ends at the last record. -/
theorem Directory.replayedTo_last {d : Directory} (h : d.Sound)
    (hle : d.snapshotSequence ≤ d.lastSequence) :
    replayedTo d.snapshotSequence d.snapshotSequence d.records = d.lastSequence := by
  by_cases hnewer : d.snapshotSequence < d.lastSequence
  · have hne : d.records ≠ [] := by
      intro hempty
      have hlast := lastSequence_eq h
      rw [hempty, List.length_nil] at hlast
      cases hs : d.snapshot with
      | none =>
        have hfirst := (h.headed hs).1
        omega
      | some st =>
        have hsnap := h.snapshot st hs
        simp only [snapshotSequence, hs] at hnewer
        omega
    obtain ⟨init, r, hsplit⟩ := (List.eq_nil_or_concat' d.records).resolve_left hne
    have hlast : d.lastSequence = r.sequence := by simp [lastSequence, hsplit]
    rw [hsplit, replayedTo_append, ← hlast, if_pos hnewer]
  · rw [replayedTo_of_le]
    · omega
    · intro r hr
      have := sequence_le_last h hr
      omega

/-- Metadata of one store keeps an image in that store and in a supported schema. -/
theorem Image.scalars_installAll {id : StoreId} (es : List JournalEntry) (m : Image)
    (hstore : m.store = id) (hschema : m.schema = 0 ∨ m.schema = persistenceSchemaVersion)
    (hmeta : ∀ r, .storeMeta r ∈ es → r.store = id ∧ r.schema = persistenceSchemaVersion) :
    (m.installAll es).store = id ∧
      ((m.installAll es).schema = 0 ∨ (m.installAll es).schema = persistenceSchemaVersion) := by
  induction es generalizing m with
  | nil => exact ⟨hstore, hschema⟩
  | cons e rest ih =>
    rw [installAll_cons]
    refine ih _ ?_ ?_ fun r hr => hmeta r (List.mem_cons_of_mem _ hr)
    · cases e <;> first | exact hstore | exact (hmeta _ List.mem_cons_self).1
    · cases e <;> first | exact hschema | exact .inr (hmeta _ List.mem_cons_self).2

namespace Directory

theorem base_of_snapshot {d : Directory} {st : DurableState} (hs : d.snapshot = some st)
    (hstore : st.store ≠ .nil) (out : DurableState) : loadBase d out = st := by
  unfold loadBase
  rw [hs]
  simp [hstore]

theorem store_base {d : Directory} (h : d.Sound) (hid : d.storeId ≠ .nil) :
    d.base.store = d.storeId ∧ (d.base.schema = 0 ∨ d.base.schema = persistenceSchemaVersion) := by
  cases hs : d.snapshot with
  | some st =>
    obtain ⟨hstore, hschema, -⟩ := h.snapshot st hs
    rw [base, base_of_snapshot hs (hstore ▸ hid)]
    exact ⟨hstore, .inr hschema⟩
  | none =>
    simp only [base, loadBase, hs]
    rw [if_pos ⟨rfl, hid⟩]
    exact ⟨rfl, .inl rfl⟩

theorem newer_meta {d : Directory} (h : d.Sound) (r : StoreMetaRecord)
    (hr : .storeMeta r ∈ d.newer) : r.store = d.storeId ∧ r.schema = persistenceSchemaVersion := by
  obtain ⟨x, hx, he⟩ := List.mem_map.mp hr
  exact h.owned x (List.mem_filter.mp hx).1 r he

theorem store_image {d : Directory} (h : d.Sound) (hid : d.storeId ≠ .nil) :
    d.image.store = d.storeId ∧
      (d.image.schema = 0 ∨ d.image.schema = persistenceSchemaVersion) := by
  obtain ⟨hstore, hschema⟩ := store_base h hid
  exact Image.scalars_installAll d.newer d.base hstore hschema (newer_meta h)

/-- A sound directory loads, and memory then holds its image. -/
theorem load_ok {d : Directory} (h : d.Sound) (hid : d.storeId ≠ .nil) (out : DurableState)
    (hout : out.store = .nil ∨ out.store = d.storeId) (hblank : d.Blank → out = {}) :
    ∃ report st, loadDirectory d out = (.ok report, st) ∧ st.image = d.image ∧
      st.sequence = d.lastSequence := by
  have hmeta : ∀ r ∈ d.records, ∀ m, r.entry = .storeMeta m → m.store = d.storeId :=
    fun r hr m hm => (h.owned r hr m hm).1
  cases hs : d.snapshot with
  | some st₀ =>
    obtain ⟨hstore, hschema, -, hle⟩ := h.snapshot st₀ hs
    have hbase := base_of_snapshot hs (hstore ▸ hid) out
    have hsnap : d.snapshotSequence = st₀.sequence := by simp [snapshotSequence, hs]
    obtain ⟨loaded, st, hreplay, himage, hseq⟩ :=
      replay_ok d.snapshotSequence d.storeId d.records st₀ 0 hstore hmeta
    refine ⟨{ snapshotPresent := d.snapshot.isSome, recordsLoaded := loaded }, st, ?_, ?_, ?_⟩
    · unfold loadDirectory
      dsimp only
      rw [hbase, if_neg (by simp [hstore]), hreplay]
      rfl
    · rw [himage, image, base, base_of_snapshot hs (hstore ▸ hid)]
      rfl
    · rw [hseq, ← hsnap]
      exact replayedTo_last h (hsnap ▸ hle)
  | none =>
    obtain ⟨hfirst, hrecords⟩ := h.headed hs
    have hsnap : d.snapshotSequence = 0 := by simp [snapshotSequence, hs]
    have hstore : (loadBase d out).store = d.storeId := by
      simp only [loadBase, hs]
      split
      · rfl
      · rename_i hne
        rcases hout with hnil | heq
        · exact absurd ⟨hnil, hid⟩ hne
        · exact heq
    obtain ⟨loaded, st, hreplay, himage, hseq⟩ :=
      replay_ok d.snapshotSequence d.storeId d.records (loadBase d out) 0 hstore hmeta
    refine ⟨{ snapshotPresent := d.snapshot.isSome, recordsLoaded := loaded }, st, ?_, ?_, ?_⟩
    · unfold loadDirectory
      dsimp only
      rw [if_neg (by simp [hs]), hreplay]
      rfl
    · rw [himage, image]
      rcases hrecords with hempty | ⟨m, rest, hcons⟩
      · rw [hblank ⟨hempty, hs⟩]
        rfl
      · -- The metadata record overwrites every scalar the old memory left behind.
        have hnewer : d.newer = .storeMeta m ::
            ((rest.filter fun r => r.sequence > d.snapshotSequence).map Sequenced.entry) := by
          simp [newer, hcons, hsnap]
        have hsame : (loadBase d out).image.install (.storeMeta m) =
            d.base.install (.storeMeta m) := by
          unfold base loadBase
          rw [hs]
          dsimp only
          split <;> split <;> rfl
        change _ = d.base.installAll d.newer
        rw [show ((d.records.filter fun r => r.sequence > d.snapshotSequence).map Sequenced.entry) =
          d.newer from rfl, hnewer, Image.installAll_cons, Image.installAll_cons, hsame]
    · rw [hseq]
      rcases hrecords with hempty | ⟨m, rest, hcons⟩
      · rw [hblank ⟨hempty, hs⟩]
        simp only [hempty, replayedTo, lastSequence, List.getLast?_nil, hfirst, loadBase, hs]
        split <;> rfl
      · have hlast := replayedTo_last h (by rw [hsnap]; exact Nat.zero_le _)
        rw [← hlast, hcons, hsnap]
        simp [replayedTo]

/-! ## Updates of a directory -/

theorem snapshotSequence_le_last {d : Directory} (h : d.Sound) :
    d.snapshotSequence ≤ d.lastSequence := by
  unfold snapshotSequence
  split
  next st hs => exact (h.snapshot st hs).2.2.2
  next => exact Nat.zero_le _

/-- The directory with one more record. -/
def extend (d : Directory) (e : JournalEntry) : Directory :=
  { d with records := d.records ++ [⟨d.lastSequence + 1, e⟩] }

@[simp] theorem lastSequence_extend (d : Directory) (e : JournalEntry) :
    (d.extend e).lastSequence = d.lastSequence + 1 := by
  simp [extend, lastSequence]

@[simp] theorem base_extend (d : Directory) (e : JournalEntry) : (d.extend e).base = d.base := rfl

theorem not_blank_extend (d : Directory) (e : JournalEntry) : ¬ (d.extend e).Blank := by
  rintro ⟨hrecords, -⟩
  simp [extend] at hrecords

theorem newer_extend {d : Directory} (h : d.Sound) (e : JournalEntry) :
    (d.extend e).newer = d.newer ++ [e] := by
  have hle := snapshotSequence_le_last h
  have hnewer : d.lastSequence + 1 > d.snapshotSequence := by omega
  have hsnap : (d.extend e).snapshotSequence = d.snapshotSequence := rfl
  simp only [newer, hsnap]
  simp [extend, hnewer]

theorem image_extend {d : Directory} (h : d.Sound) (e : JournalEntry) :
    (d.extend e).image = d.image.install e := by
  rw [image, newer_extend h, base_extend, Image.installAll_append]
  rfl

theorem sound_extend {d : Directory} (h : d.Sound) (hid : d.storeId ≠ .nil) (e : JournalEntry)
    (howned : ∀ m, e = .storeMeta m → m.store = d.storeId ∧ m.schema = persistenceSchemaVersion)
    (hfirst : d.Blank → ∃ m, e = .storeMeta m) : (d.extend e).Sound where
  numbered := by
    intro i hi
    have hlen : i < d.records.length + 1 := by simpa [extend] using hi
    by_cases hlast : i < d.records.length
    · have hnum := h.numbered i hlast
      simp only [extend, List.get_eq_getElem, List.getElem_append_left hlast] at hnum ⊢
      exact hnum
    · obtain rfl : i = d.records.length := by omega
      have hseq := lastSequence_eq h
      have hone := h.first
      simp only [extend, List.get_eq_getElem, List.getElem_concat_length]
      omega
  first := h.first
  owned := by
    intro r hr m hm
    rcases List.mem_append.mp hr with hold | hnew
    · exact h.owned r hold m hm
    · rw [List.mem_singleton] at hnew
      subst hnew
      exact howned m hm
  headed := by
    intro hs
    obtain ⟨hone, hrecords⟩ := h.headed hs
    refine ⟨hone, .inr ?_⟩
    rcases hrecords with hempty | ⟨m, rest, hcons⟩
    · obtain ⟨m, rfl⟩ := hfirst ⟨hempty, hs⟩
      refine ⟨m, [], ?_⟩
      have hseq := lastSequence_eq h
      rw [hempty, List.length_nil, hone] at hseq
      simp [extend, hempty, hseq]
    · exact ⟨m, rest ++ [⟨d.lastSequence + 1, e⟩], by simp [extend, hcons]⟩
  snapshot := by
    intro st hs
    obtain ⟨hstore, hschema, hlow, hhigh⟩ := h.snapshot st hs
    refine ⟨hstore, hschema, hlow, ?_⟩
    rw [lastSequence_extend]
    omega
  named := fun _ => hid

/-- The directory once `st` is its snapshot. -/
def snapshotted (d : Directory) (st : DurableState) (truncate : Bool) : Directory :=
  if truncate then
    { d with
      storeId := st.store
      firstSequence := st.sequence + 1
      records := []
      snapshot := some st.canonical }
  else { d with snapshot := some st.canonical }

section Snapshot

variable {d : Directory} {st : DurableState} (h : d.Sound) (hid : d.storeId ≠ .nil)
  (hstore : st.store = d.storeId) (hseq : st.sequence = d.lastSequence)

include hseq in
theorem lastSequence_snapshotted (truncate : Bool) :
    (d.snapshotted st truncate).lastSequence = d.lastSequence := by
  cases truncate with
  | true => simp [snapshotted, lastSequence, hseq]
  | false => rfl

theorem storeId_snapshotted (hstore : st.store = d.storeId) (truncate : Bool) :
    (d.snapshotted st truncate).storeId = d.storeId := by
  cases truncate with
  | true => exact hstore
  | false => rfl

theorem snapshotSequence_snapshotted (truncate : Bool) :
    (d.snapshotted st truncate).snapshotSequence = st.sequence := by
  cases truncate <;> rfl

include hid hstore in
theorem base_snapshotted (truncate : Bool) : (d.snapshotted st truncate).base = st.image := by
  have hs : (d.snapshotted st truncate).snapshot = some st.canonical := by
    cases truncate <;> rfl
  rw [base, base_of_snapshot hs, DurableState.image_canonical]
  exact fun hnil => hid (hstore.symm.trans hnil)

include h hseq in
theorem newer_snapshotted (truncate : Bool) : (d.snapshotted st truncate).newer = [] := by
  unfold newer
  rw [snapshotSequence_snapshotted, hseq]
  cases truncate with
  | true => rfl
  | false =>
    rw [List.map_eq_nil_iff, List.filter_eq_nil_iff]
    intro r hr hgt
    have := sequence_le_last h hr
    simp only [decide_eq_true_eq] at hgt
    omega

include h hid hstore hseq in
theorem image_snapshotted (truncate : Bool) : (d.snapshotted st truncate).image = st.image := by
  rw [image, base_snapshotted hid hstore, newer_snapshotted h hseq, Image.installAll_nil]

include h hid hstore hseq in
theorem sound_snapshotted (hschema : st.schema = persistenceSchemaVersion) (truncate : Bool) :
    (d.snapshotted st truncate).Sound := by
  have hlast := lastSequence_snapshotted hseq truncate
  have hfirst := h.first
  have hlength := lastSequence_eq h
  cases truncate with
  | true =>
    refine ⟨?_, ?_, ?_, ?_, ?_, ?_⟩
    · intro i hi
      cases hi
    · exact Nat.le_add_left 1 st.sequence
    · intro r hr
      cases hr
    · intro hs
      cases hs
    · intro st' hs
      obtain rfl : st.canonical = st' := Option.some.inj hs
      refine ⟨rfl, hschema, Nat.le_refl _, ?_⟩
      rw [hlast, ← hseq]
      exact Nat.le_refl _
    · intro _
      exact fun hnil => hid (hstore.symm.trans hnil)
  | false =>
    refine ⟨h.numbered, h.first, h.owned, ?_, ?_, fun _ => hid⟩
    · intro hs
      cases hs
    · intro st' hs
      obtain rfl : st.canonical = st' := Option.some.inj hs
      refine ⟨hstore, hschema, ?_, ?_⟩
      · show d.firstSequence ≤ st.sequence + 1
        omega
      · rw [hlast, ← hseq]
        exact Nat.le_refl _

end Snapshot

/-! ## Cuts -/

/-- Cutting consecutively numbered records keeps a prefix. -/
theorem filter_sequence_le (rs : List Sequenced) (first kept : Nat)
    (h : ∀ i (hi : i < rs.length), (rs.get ⟨i, hi⟩).sequence = first + i) :
    rs.filter (fun r => r.sequence ≤ kept) = rs.take (kept + 1 - first) := by
  induction rs generalizing first with
  | nil => simp
  | cons r rest ih =>
    have hr : r.sequence = first := by simpa using h 0 (by simp)
    have hrest := ih (first + 1) (by
      intro i hi
      have hnum := h (i + 1) (by simpa using hi)
      simp only [List.get_eq_getElem, List.getElem_cons_succ] at hnum ⊢
      omega)
    by_cases hle : first ≤ kept
    · rw [List.filter_cons_of_pos (by simpa [hr] using hle), hrest,
        show kept + 1 - first = (kept + 1 - (first + 1)) + 1 by omega, List.take_succ_cons]
    · rw [List.filter_cons_of_neg (by simpa [hr] using hle), hrest,
        show kept + 1 - first = 0 by omega, show kept + 1 - (first + 1) = 0 by omega,
        List.take_zero, List.take_zero]

theorem records_cut {d : Directory} (h : d.Sound) (kept : Nat) :
    (d.cut kept).records = d.records.take (kept + 1 - d.firstSequence) :=
  filter_sequence_le d.records d.firstSequence kept h.numbered

theorem newer_cut {d : Directory} (h : d.Sound) (kept : Nat) :
    (d.cut kept).newer <+: d.newer := by
  have hsnap : (d.cut kept).snapshotSequence = d.snapshotSequence := rfl
  unfold newer
  rw [hsnap, records_cut h]
  exact ((List.take_prefix _ _).filter _).map _

@[simp] theorem base_cut (d : Directory) (kept : Nat) : (d.cut kept).base = d.base := rfl

/-- A cut behind the last record keeps everything. -/
theorem cut_of_last_le {d : Directory} (h : d.Sound) {kept : Nat} (hle : d.lastSequence ≤ kept) :
    d.cut kept = d := by
  unfold cut
  rw [List.filter_eq_self.mpr]
  intro r hr
  have := sequence_le_last h hr
  simp only [decide_eq_true_eq]
  omega

theorem sound_cut {d : Directory} (h : d.Sound) {kept : Nat} (hkept : d.snapshotSequence ≤ kept) :
    (d.cut kept).Sound := by
  have hrecords := records_cut h kept
  have hnumbered : ∀ i (hi : i < (d.cut kept).records.length),
      ((d.cut kept).records.get ⟨i, hi⟩).sequence = d.firstSequence + i := by
    intro i hi
    simp only [hrecords, List.get_eq_getElem, List.getElem_take]
    exact h.numbered i (by simp [hrecords] at hi; omega)
  have hlength := lastSequence_eq h
  have hfirst := h.first
  refine ⟨hnumbered, h.first, ?_, ?_, ?_, ?_⟩
  · intro r hr
    exact h.owned r (List.mem_of_mem_filter hr)
  · intro hs
    obtain ⟨hone, hhead⟩ := h.headed hs
    refine ⟨hone, ?_⟩
    rw [hrecords]
    rcases hhead with hempty | ⟨m, rest, hcons⟩
    · simp [hempty]
    · cases hn : kept + 1 - d.firstSequence with
      | zero => simp
      | succ n => exact .inr ⟨m, rest.take n, by rw [hcons, List.take_succ_cons]⟩
  · intro st hs
    obtain ⟨hstore, hschema, hlow, hhigh⟩ := h.snapshot st hs
    have hsnap : d.snapshotSequence = st.sequence := by
      simp only [snapshotSequence, show d.snapshot = some st from hs]
    refine ⟨hstore, hschema, hlow, ?_⟩
    have hcut : (d.cut kept).lastSequence =
        d.firstSequence + (d.cut kept).records.length - 1 := by
      unfold lastSequence
      split
      next r hr =>
        rw [List.getLast?_eq_getElem?] at hr
        obtain ⟨hlt, hget⟩ := List.getElem?_eq_some_iff.mp hr
        have hnum := hnumbered _ hlt
        rw [List.get_eq_getElem, hget] at hnum
        omega
      next hnone =>
        rw [List.getLast?_eq_none_iff.mp hnone]
        rfl
    rw [hcut, hrecords, List.length_take]
    omega
  · intro hnot
    refine h.named fun hblank => hnot ⟨?_, hblank.2⟩
    simp [cut, hblank.1]

end Directory

end ExecutionFabric
