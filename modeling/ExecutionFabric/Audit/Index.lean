import ExecutionFabric.Audit.Reload

/-!
# The action index

The index of an execution lists the keys of its actions in ascending order, so its
last key is the greatest one. Every write keeps that, provided no action changes hands.
-/
namespace ExecutionFabric

open Lib

namespace ActionKey

theorem lt_iff (a b : ActionKey) :
    a < b ↔ a.id.value.toNat < b.id.value.toNat ∨
      (a.id.value.toNat = b.id.value.toNat ∧ a.generation < b.generation) := by
  show (a.id.value < b.id.value ∨ (a.id = b.id ∧ a.generation < b.generation)) ↔ _
  rw [UInt64.lt_iff_toNat_lt, UInt64.toNat_inj]
  constructor
  · rintro (h | ⟨h, hg⟩)
    · exact .inl h
    · exact .inr ⟨congrArg Id.value h, hg⟩
  · rintro (h | ⟨h, hg⟩)
    · exact .inl h
    · refine .inr ⟨?_, hg⟩
      cases ha : a.id
      cases hb : b.id
      rw [ha, hb] at h
      exact congrArg _ h

theorem ext_iff' (a b : ActionKey) :
    a = b ↔ a.id.value.toNat = b.id.value.toNat ∧ a.generation = b.generation := by
  obtain ⟨⟨va⟩, ga⟩ := a
  obtain ⟨⟨vb⟩, gb⟩ := b
  simp [UInt64.toNat_inj]

theorem lt_trans {a b c : ActionKey} (h : a < b) (h' : b < c) : a < c := by
  rw [lt_iff] at *
  omega

theorem lt_irrefl (a : ActionKey) : ¬ a < a := by
  rw [lt_iff]
  omega

theorem lt_or_eq_of_not_lt {a b : ActionKey} (h : ¬ b < a) : a < b ∨ a = b := by
  rw [lt_iff] at *
  rw [ext_iff']
  omega

end ActionKey

/-- Ascending keys without repetition. -/
abbrev Ascending (keys : List ActionKey) : Prop := keys.Pairwise (· < ·)

theorem mem_insertKey (key k : ActionKey) (keys : List ActionKey) :
    k ∈ insertKey key keys ↔ k = key ∨ k ∈ keys := by
  induction keys with
  | nil => simp [insertKey]
  | cons k' rest ih =>
    unfold insertKey
    split
    · rw [List.mem_cons, ih, List.mem_cons]
      tauto
    · split
      next he =>
        subst he
        simp
      next => simp

theorem ascending_insertKey (key : ActionKey) (keys : List ActionKey) (h : Ascending keys) :
    Ascending (insertKey key keys) := by
  induction keys with
  | nil => simp [insertKey]
  | cons k rest ih =>
    rw [Ascending, List.pairwise_cons] at h
    unfold insertKey
    split
    next hlt =>
      rw [Ascending, List.pairwise_cons]
      refine ⟨?_, ih h.2⟩
      intro k' hk'
      rcases (mem_insertKey key k' rest).mp hk' with rfl | hmem
      · exact hlt
      · exact h.1 k' hmem
    next hnot =>
      split
      · exact List.pairwise_cons.mpr h
      next hne =>
        have hlt : key < k := (ActionKey.lt_or_eq_of_not_lt hnot).resolve_right (Ne.symm hne)
        rw [Ascending, List.pairwise_cons]
        refine ⟨?_, List.pairwise_cons.mpr h⟩
        intro k' hk'
        rcases List.mem_cons.mp hk' with rfl | hmem
        · exact hlt
        · exact ActionKey.lt_trans hlt (h.1 k' hmem)

theorem lt_of_last_lt {keys : List ActionKey} {last key : ActionKey} (h : Ascending keys)
    (hlast : keys.getLast? = some last) (hlt : last < key) : ∀ k ∈ keys, k < key := by
  obtain ⟨init, rfl⟩ := List.getLast?_eq_some_iff.mp hlast
  rw [Ascending, List.pairwise_append] at h
  intro k hk
  rcases List.mem_append.mp hk with hinit | hk
  · exact ActionKey.lt_trans (h.2.2 k hinit last (by simp)) hlt
  · rw [List.mem_singleton] at hk
    exact hk ▸ hlt

theorem mem_indexKey (keys : List ActionKey) (key k : ActionKey) :
    k ∈ indexKey keys key ↔ k = key ∨ k ∈ keys := by
  unfold indexKey
  split
  next hnone => simp [List.getLast?_eq_none_iff.mp hnone]
  next =>
    split
    · rw [List.mem_append, List.mem_singleton]
      tauto
    · exact mem_insertKey key k keys

theorem ascending_indexKey (keys : List ActionKey) (key : ActionKey) (h : Ascending keys) :
    Ascending (indexKey keys key) := by
  unfold indexKey
  split
  · simp
  next last hlast =>
    split
    next hlt =>
      rw [Ascending, List.pairwise_append]
      refine ⟨h, List.pairwise_singleton _ _, ?_⟩
      intro k hk k' hk'
      rw [List.mem_singleton] at hk'
      exact hk' ▸ lt_of_last_lt h hlast hlt k hk
    next => exact ascending_insertKey key keys h

/-- The index of every execution lists exactly its actions, ascending. -/
structure Indexed (j : Journaled) : Prop where
  ascending : ∀ e, Ascending (j.actionIndex e)
  mem : ∀ e k, k ∈ j.actionIndex e ↔ ∃ a, j.state.image.actions k = some a ∧ a.execution = e

/-- `a` is the action with the greatest key among those of execution `e`. -/
structure Image.Latest (m : Image) (e : ExecutionId) (a : ActionRecord) : Prop where
  stored : m.actions a.key = some a
  owner : a.execution = e
  greatest : ∀ k b, m.actions k = some b → b.execution = e → b.key = a.key ∨ b.key < a.key

theorem Indexed.latest {j : Journaled} (h : Indexed j) {e : ExecutionId} {a : ActionRecord}
    (ha : j.latestAction e = some a) : j.state.image.Latest e a := by
  unfold Journaled.latestAction at ha
  split at ha
  · cases ha
  next key hlast =>
    have hkey : a.key = key := Table.find_key ha
    have hmem : key ∈ j.actionIndex e := List.mem_of_getLast? hlast
    obtain ⟨b, hb, howner⟩ := (h.mem e key).mp hmem
    obtain rfl : b = a := Option.some.inj (hb.symm.trans ha)
    refine ⟨hkey ▸ hb, howner, ?_⟩
    intro k c hc hcowner
    have hck : c.key = k := j.state.image.actions.keyed k c hc
    have hcmem : k ∈ j.actionIndex e := (h.mem e k).mpr ⟨c, hc, hcowner⟩
    obtain ⟨init, hinit⟩ := List.getLast?_eq_some_iff.mp hlast
    have hasc := h.ascending e
    rw [hinit] at hcmem hasc
    rw [hck, hkey]
    rcases List.mem_append.mp hcmem with hearlier | hself
    · rw [Ascending, List.pairwise_append] at hasc
      exact .inr (hasc.2.2 k hearlier key (by simp))
    · exact .inl (List.mem_singleton.mp hself)

theorem Indexed.latest_none {j : Journaled} (h : Indexed j) {e : ExecutionId}
    (ha : j.latestAction e = none) (k : ActionKey) (a : ActionRecord)
    (hstored : j.state.image.actions k = some a) : a.execution ≠ e := by
  intro howner
  have hmem : k ∈ j.actionIndex e := (h.mem e k).mpr ⟨a, hstored, howner⟩
  unfold Journaled.latestAction at ha
  split at ha
  next hnone =>
    rw [List.getLast?_eq_none_iff.mp hnone] at hmem
    cases hmem
  next key hlast =>
    obtain ⟨b, hb, -⟩ := (h.mem e key).mp (List.mem_of_getLast? hlast)
    rw [show j.state.actions.find key = some b from hb] at ha
    cases ha

/-- No action the record writes takes an action from another execution. -/
def Image.KeepsOwners (m : Image) (e : JournalEntry) : Prop :=
  ∀ a ∈ e.actions, ∀ b, m.actions a.key = some b → b.execution = a.execution

theorem indexed_action {j : Journaled} (h : Indexed j) (a : ActionRecord)
    (howner : ∀ b, j.state.image.actions a.key = some b → b.execution = a.execution)
    {j' : Journaled} (hindex : j'.actionIndex = j.indexAction a)
    (hactions : j'.state.image.actions = j.state.image.actions.insert a) : Indexed j' := by
  have hupdate : ∀ e, j'.actionIndex e = if e = a.execution then
      indexKey (j.actionIndex e) a.key else j.actionIndex e := by
    intro e
    rw [hindex, Journaled.indexAction, Function.update_apply]
    split
    next he => rw [he]
    next => rfl
  refine ⟨?_, ?_⟩
  · intro e
    rw [hupdate]
    split
    · exact ascending_indexKey _ _ (h.ascending e)
    · exact h.ascending e
  · intro e k
    rw [hupdate, hactions]
    split
    next he =>
      subst he
      rw [mem_indexKey, h.mem]
      constructor
      · rintro (rfl | ⟨b, hb, hbo⟩)
        · exact ⟨a, KeyedMap.insert_self _ _, rfl⟩
        · by_cases hk : k = a.key
          · exact ⟨a, hk ▸ KeyedMap.insert_self _ _, rfl⟩
          · exact ⟨b, (KeyedMap.insert_of_ne _ hk).trans hb, hbo⟩
      · rintro ⟨b, hb, hbo⟩
        rcases KeyedMap.insert_eq_some hb with ⟨hk, -⟩ | ⟨-, hb⟩
        · exact .inl hk
        · exact .inr ⟨b, hb, hbo⟩
    next hne =>
      rw [h.mem]
      constructor
      · rintro ⟨b, hb, hbo⟩
        have hk : k ≠ a.key := by
          rintro rfl
          exact hne (hbo.symm.trans (howner b hb))
        exact ⟨b, (KeyedMap.insert_of_ne _ hk).trans hb, hbo⟩
      · rintro ⟨b, hb, hbo⟩
        rcases KeyedMap.insert_eq_some hb with ⟨-, rfl⟩ | ⟨-, hb⟩
        · exact absurd hbo.symm hne
        · exact ⟨b, hb, hbo⟩

theorem indexed_of_same {j j' : Journaled} (h : Indexed j) (hindex : j'.actionIndex = j.actionIndex)
    (hactions : j'.state.image.actions = j.state.image.actions) : Indexed j' := by
  refine ⟨fun e => hindex ▸ h.ascending e, fun e k => ?_⟩
  rw [hindex, hactions]
  exact h.mem e k

theorem actionIndex_put (j : Journaled) (e : JournalEntry) :
    (j.put e).actionIndex = match e with
      | .action a => j.indexAction a
      | .commitGroup g => j.indexAction g.action
      | _ => j.actionIndex := by
  cases e <;> simp only [Journaled.put, Journaled.append, Journaled.indexEntry] <;> split <;> rfl

theorem Indexed.put {j : Journaled} (h : Indexed j) (e : JournalEntry)
    (howners : j.state.image.KeepsOwners e) : Indexed (j.put e) := by
  have hindex := actionIndex_put j e
  have himage := j.image_put e
  cases e with
  | action a =>
    exact indexed_action h a (howners a (by simp [JournalEntry.actions])) hindex (by rw [himage]; rfl)
  | commitGroup g =>
    exact indexed_action h g.action (howners g.action (by simp [JournalEntry.actions])) hindex
      (by rw [himage]; rfl)
  | _ => exact indexed_of_same h hindex (by rw [himage]; rfl)

/-- A rebuilt index is correct whatever the indexes were before. -/
theorem indexed_rebuildIndexes (j : Journaled) : Indexed j.rebuildIndexes := by
  have hkeys : ∀ e, ((j.state.actions.records.filter fun a => a.execution = e).map
      ActionRecord.key).Nodup := fun e =>
    j.state.actions.nodup.sublist (List.filter_sublist.map _)
  have hsort : ∀ keys : List ActionKey, keys.Nodup →
      Ascending (keys.insertionSort fun a b => ¬ b < a) := by
    intro keys hnodup
    have htotal : Std.Total (fun a b : ActionKey => ¬ b < a) := by
      refine ⟨fun a b => ?_⟩
      by_cases h : b < a
      · exact .inr fun h' => ActionKey.lt_irrefl a (ActionKey.lt_trans h' h)
      · exact .inl h
    have htrans : IsTrans ActionKey (fun a b => ¬ b < a) := by
      refine ⟨fun a b c hab hbc hca => ?_⟩
      rcases ActionKey.lt_or_eq_of_not_lt hab with h | rfl
      · exact hbc (ActionKey.lt_trans hca h)
      · exact hbc hca
    have hsorted := List.pairwise_insertionSort (fun a b : ActionKey => ¬ b < a) keys
    have hnodup' : (keys.insertionSort fun a b => ¬ b < a).Nodup :=
      (List.perm_insertionSort _ _).nodup_iff.mpr hnodup
    refine (hsorted.and hnodup').imp ?_
    rintro a b ⟨hle, hne⟩
    exact (ActionKey.lt_or_eq_of_not_lt hle).resolve_right hne
  refine ⟨fun e => hsort _ (hkeys e), ?_⟩
  intro e k
  show k ∈ Journaled.sortedActionKeys j.state e ↔ _
  unfold Journaled.sortedActionKeys
  rw [List.mem_insertionSort, List.mem_map]
  constructor
  · rintro ⟨a, ha, rfl⟩
    simp only [List.mem_filter, decide_eq_true_eq] at ha
    exact ⟨a, (Table.find_eq_some_iff _ _ _).mpr ⟨ha.1, rfl⟩, ha.2⟩
  · rintro ⟨a, ha, howner⟩
    obtain ⟨hmem, hkey⟩ := (Table.find_eq_some_iff _ _ _).mp ha
    exact ⟨a, List.mem_filter.mpr ⟨hmem, by simpa using howner⟩, hkey⟩

end ExecutionFabric
