import ExecutionFabric.Audit.InsertionOrder
import ExecutionFabric.Model.RecordTable
import Mathlib.Data.Set.Card

/-!
# What a record table stores

The position index is exact after every operation, so a table denotes the keyed table of
its records. What is stored under a key, and where, is read off the operations that were
made on it.
-/
namespace ExecutionFabric

open Lib

namespace RecordTable

variable {α κ : Type} {key : α → κ}

/-! ## Histories -/

/-- What can be done to a table. -/
inductive Operation (α κ : Type) where
  | upsert (record : α)
  | erase (id : κ)
  | clear

/-- The operation takes away what is stored under the key. -/
def Operation.Removes (id : κ) : Operation α κ → Prop
  | .upsert _ => False
  | .erase id' => id' = id
  | .clear => True

/-- The operation stores a record under the key. -/
def Operation.Stores (key : α → κ) (id : κ) : Operation α κ → Prop
  | .upsert record => key record = id
  | _ => False

theorem Operation.Stores.not_removes {id : κ} {op : Operation α κ} (h : op.Stores key id) :
    ¬ op.Removes id := by
  cases op with
  | upsert => exact not_false
  | erase => exact h.elim
  | clear => exact h.elim

/-- `r` is the last record upserted under the key, and nothing has removed it since. -/
def LastUpserted (key : α → κ) (ops : List (Operation α κ)) (id : κ) (r : α) : Prop :=
  ∃ earlier later, ops = earlier ++ .upsert r :: later ∧ key r = id ∧
    ∀ op ∈ later, ¬ op.Stores key id ∧ ¬ op.Removes id

/-- Some record is stored under the key. -/
def Live (key : α → κ) (ops : List (Operation α κ)) (id : κ) : Prop :=
  ∃ r, LastUpserted key ops id r

/-- The operation at position `n` was the first upsert under the key since it was last removed,
and the key is live since. -/
def FirstInserted (key : α → κ) (ops : List (Operation α κ)) (id : κ) (n : Nat) : Prop :=
  (∃ op, ops[n]? = some op ∧ op.Stores key id) ∧ ¬ Live key (ops.take n) id ∧
    ∀ op ∈ ops.drop (n + 1), ¬ op.Removes id

theorem lastUpserted_nil (id : κ) (r : α) : ¬ LastUpserted key [] id r := by
  rintro ⟨earlier, later, he, -⟩
  simp at he

theorem LastUpserted.key_eq {ops : List (Operation α κ)} {id : κ} {r : α}
    (h : LastUpserted key ops id r) : key r = id := by
  obtain ⟨_, _, _, hk, _⟩ := h
  exact hk

/-- The newest operation decides, unless it does not touch the key. -/
theorem lastUpserted_concat (ops : List (Operation α κ)) (op : Operation α κ) (id : κ) (r : α) :
    LastUpserted key (ops ++ [op]) id r ↔ (op = .upsert r ∧ key r = id) ∨
      (LastUpserted key ops id r ∧ ¬ op.Stores key id ∧ ¬ op.Removes id) := by
  constructor
  · rintro ⟨earlier, later, he, hk, hlater⟩
    rcases List.eq_nil_or_concat' later with rfl | ⟨later, last, rfl⟩
    · obtain ⟨-, hop⟩ := List.append_inj' he rfl
      exact .inl ⟨by simpa using hop, hk⟩
    · rw [← List.cons_append, ← List.append_assoc] at he
      obtain ⟨hops, hop⟩ := List.append_inj' he rfl
      obtain rfl : op = last := by simpa using hop
      exact .inr ⟨⟨earlier, later, hops, hk, fun o ho => hlater o (List.mem_append_left _ ho)⟩,
        hlater op (by simp)⟩
  · rintro (⟨rfl, hk⟩ | ⟨⟨earlier, later, rfl, hk, hlater⟩, hop⟩)
    · exact ⟨ops, [], rfl, hk, by simp⟩
    · refine ⟨earlier, later ++ [op], by simp, hk, ?_⟩
      intro o ho
      rcases List.mem_append.mp ho with ho | ho
      · exact hlater o ho
      · rw [List.mem_singleton.mp ho]
        exact hop

theorem live_concat (ops : List (Operation α κ)) (op : Operation α κ) (id : κ) :
    Live key (ops ++ [op]) id ↔ op.Stores key id ∨ (Live key ops id ∧ ¬ op.Removes id) := by
  constructor
  · rintro ⟨r, hr⟩
    rcases (lastUpserted_concat ops op id r).mp hr with ⟨rfl, hk⟩ | ⟨hr, -, hop⟩
    · exact .inl hk
    · exact .inr ⟨⟨r, hr⟩, hop⟩
  · intro h
    by_cases hstores : op.Stores key id
    · cases op with
      | upsert record => exact ⟨record, (lastUpserted_concat _ _ _ _).mpr (.inl ⟨rfl, hstores⟩)⟩
      | erase => exact hstores.elim
      | clear => exact hstores.elim
    · obtain ⟨⟨r, hr⟩, hop⟩ := h.resolve_left hstores
      exact ⟨r, (lastUpserted_concat _ _ _ _).mpr (.inr ⟨hr, hstores, hop⟩)⟩

theorem FirstInserted.lt_length {ops : List (Operation α κ)} {id : κ} {n : Nat}
    (h : FirstInserted key ops id n) : n < ops.length := by
  obtain ⟨op, hop, -⟩ := h.1
  exact (List.getElem?_eq_some_iff.mp hop).1

theorem firstInserted_concat (ops : List (Operation α κ)) (op : Operation α κ) (id : κ) (n : Nat) :
    FirstInserted key (ops ++ [op]) id n ↔ (FirstInserted key ops id n ∧ ¬ op.Removes id) ∨
      (n = ops.length ∧ op.Stores key id ∧ ¬ Live key ops id) := by
  rcases Nat.lt_trichotomy n ops.length with hlt | rfl | hgt
  · unfold FirstInserted
    rw [List.getElem?_append_left hlt, List.take_append_of_le_length hlt.le,
      List.drop_append_of_le_length hlt]
    simp only [List.mem_append, List.mem_singleton, or_imp, forall_and, forall_eq]
    constructor
    · rintro ⟨h₁, h₂, h₃, h₄⟩
      exact .inl ⟨⟨h₁, h₂, h₃⟩, h₄⟩
    · rintro (⟨⟨h₁, h₂, h₃⟩, h₄⟩ | ⟨rfl, -⟩)
      · exact ⟨h₁, h₂, h₃, h₄⟩
      · exact absurd hlt (lt_irrefl _)
  · have hold : ¬ FirstInserted key ops id ops.length := fun h => absurd h.lt_length (lt_irrefl _)
    simp only [hold, false_and, true_and, false_or]
    unfold FirstInserted
    simp
  · constructor
    · intro h
      have hlt := h.lt_length
      rw [List.length_append, List.length_singleton] at hlt
      omega
    · rintro (⟨h, -⟩ | ⟨rfl, -⟩)
      · exact absurd h.lt_length (by omega)
      · exact absurd hgt (lt_irrefl _)

theorem FirstInserted.live {ops : List (Operation α κ)} {id : κ} {n : Nat}
    (h : FirstInserted key ops id n) : Live key ops id := by
  induction ops using List.reverseRecOn with
  | nil => exact absurd h.lt_length (by simp)
  | append_singleton ops op ih =>
    rw [live_concat]
    rcases (firstInserted_concat _ _ _ _).mp h with ⟨hold, hop⟩ | ⟨-, hstores, -⟩
    · exact .inr ⟨ih hold, hop⟩
    · exact .inl hstores

/-- A key is live from exactly one first insertion on. -/
theorem firstInserted_of_live (ops : List (Operation α κ)) (id : κ) (hlive : Live key ops id) :
    ∃! n, FirstInserted key ops id n := by
  induction ops using List.reverseRecOn with
  | nil =>
    obtain ⟨r, hr⟩ := hlive
    exact absurd hr (lastUpserted_nil id r)
  | append_singleton ops op ih =>
    rw [live_concat] at hlive
    by_cases hbefore : Live key ops id
    · obtain ⟨n, hn, hunique⟩ := ih hbefore
      have hop : ¬ op.Removes id := by
        rcases hlive with hstores | ⟨-, hop⟩
        · exact hstores.not_removes
        · exact hop
      refine ⟨n, (firstInserted_concat _ _ _ _).mpr (.inl ⟨hn, hop⟩), ?_⟩
      intro m hm
      rcases (firstInserted_concat _ _ _ _).mp hm with ⟨hm, -⟩ | ⟨-, -, hnot⟩
      · exact hunique m hm
      · exact absurd hbefore hnot
    · have hstores := hlive.resolve_right fun h => hbefore h.1
      refine ⟨ops.length, (firstInserted_concat _ _ _ _).mpr (.inr ⟨rfl, hstores, hbefore⟩), ?_⟩
      intro m hm
      rcases (firstInserted_concat _ _ _ _).mp hm with ⟨hm, -⟩ | ⟨he, -⟩
      · exact absurd hm.live hbefore
      · exact he

section

variable [DecidableEq κ] [Hashable κ]

/-! ## The position index -/

/-- The index maps the key of every record to its position, and nothing else. -/
def Indexed (t : RecordTable key) : Prop :=
  ∀ id pos, t.index[id]? = some pos ↔ ∃ r, t.records[pos]? = some r ∧ key r = id

variable {t : RecordTable key}

/-- Two records under one key would share a position. -/
theorem Indexed.nodup (h : t.Indexed) : (t.records.map key).Nodup := by
  rw [List.nodup_iff_getElem?_ne_getElem?]
  intro i j hij hj he
  rw [List.length_map] at hj
  rw [List.getElem?_map, List.getElem?_map, List.getElem?_eq_getElem hj,
    List.getElem?_eq_getElem (hij.trans hj), Option.map_some, Option.map_some,
    Option.some.injEq] at he
  have hi := (h (key t.records[j]) i).mpr ⟨_, List.getElem?_eq_getElem (hij.trans hj), he⟩
  have hj' := (h (key t.records[j]) j).mpr ⟨_, List.getElem?_eq_getElem hj, rfl⟩
  rw [hi] at hj'
  exact absurd (Option.some.inj hj') hij.ne

/-- The keyed table that an exactly indexed table implements. -/
def table (t : RecordTable key) (h : t.Indexed) : Table key := ⟨t.records, h.nodup⟩

theorem find_table (h : t.Indexed) (id : κ) : t.find id = (t.table h).find id := by
  apply Option.ext
  intro r
  rw [Table.find_eq_some_iff]
  unfold find
  cases hpos : t.index[id]? with
  | none =>
    simp only [reduceCtorEq, false_iff]
    rintro ⟨hr, hk⟩
    obtain ⟨pos, hget⟩ := List.mem_iff_getElem?.mp hr
    rw [(h id pos).mpr ⟨r, hget, hk⟩] at hpos
    cases hpos
  | some pos =>
    obtain ⟨r₀, hget, hk⟩ := (h id pos).mp hpos
    simp only
    constructor
    · intro hr
      rw [hget] at hr
      obtain rfl := Option.some.inj hr
      exact ⟨List.mem_of_getElem? hget, hk⟩
    · rintro ⟨hr, hk'⟩
      obtain rfl := List.inj_on_of_nodup_map h.nodup hr (List.mem_of_getElem? hget)
        (hk'.trans hk.symm)
      exact hget

theorem indexed_empty : ({} : RecordTable key).Indexed := by
  intro id pos
  simp

theorem Indexed.upsert (h : t.Indexed) (record : α) : (t.upsert record).Indexed := by
  intro id pos
  unfold RecordTable.upsert
  cases hold : t.index[key record]? with
  | some old =>
    obtain ⟨r₀, hget, hk⟩ := (h _ _).mp hold
    have hlt : old < t.records.length := (List.getElem?_eq_some_iff.mp hget).1
    simp only [h id pos, List.getElem?_set]
    by_cases hp : old = pos
    · subst hp
      simp only [↓reduceIte, hlt, Option.some.injEq, exists_eq_left', hget]
      rw [hk]
    · simp only [hp, ↓reduceIte]
  | none =>
    simp only [Std.HashMap.getElem?_insertIfNew, beq_iff_eq, Std.HashMap.mem_iff_isSome_getElem?,
      List.getElem?_append]
    have hfree : ∀ (i : Nat) (r : α), t.records[i]? = some r → key r ≠ key record := by
      intro i r hr hk
      rw [(h _ _).mpr ⟨r, hr, hk⟩] at hold
      cases hold
    by_cases hid : key record = id
    · subst hid
      simp only [hold, Option.isSome_none, Bool.false_eq_true, not_false_eq_true, and_self,
        ↓reduceIte, Option.some.injEq]
      constructor
      · rintro rfl
        exact ⟨record, by simp, rfl⟩
      · rintro ⟨r, hr, hk⟩
        split at hr
        · exact absurd hk (hfree _ _ hr)
        next hge =>
          obtain ⟨hlt, -⟩ := List.getElem?_eq_some_iff.mp hr
          simp only [List.length_singleton] at hlt
          omega
    · simp only [hid, false_and, ↓reduceIte, h id pos]
      refine exists_congr fun r => and_congr_left fun hk => ?_
      split
      · rfl
      next hge =>
        rw [List.getElem?_eq_none (by omega)]
        simp only [reduceCtorEq, false_iff]
        intro hr
        rcases hd : pos - t.records.length with _ | n
        · rw [hd, List.getElem?_cons_zero, Option.some.injEq] at hr
          exact hid (by rw [hr, hk])
        · rw [hd] at hr
          simp at hr

/-- An erase takes one record out and moves the positions behind it. -/
theorem Indexed.erase (h : t.Indexed) (id : κ) : (t.erase id).1.Indexed := by
  intro k pos
  unfold RecordTable.erase
  cases hold : t.index[id]? with
  | none => exact h k pos
  | some old =>
    obtain ⟨r₀, hget, hk⟩ := (h _ _).mp hold
    simp only [Std.HashMap.getElem?_map, Std.HashMap.getElem?_erase, beq_iff_eq,
      List.getElem?_eraseIdx, gt_iff_lt]
    by_cases hid : id = k
    · subst hid
      simp only [↓reduceIte, Option.map_none, reduceCtorEq, false_iff]
      rintro ⟨r, hr, hkey⟩
      split at hr
      next hlt =>
        rw [(h _ _).mpr ⟨r, hr, hkey⟩] at hold
        exact absurd (Option.some.inj hold) (by omega)
      next hge =>
        rw [(h _ _).mpr ⟨r, hr, hkey⟩] at hold
        exact absurd (Option.some.inj hold) (by omega)
    · simp only [hid, ↓reduceIte, Option.map_eq_some_iff, h k]
      constructor
      · rintro ⟨entry, ⟨r, hr, hkey⟩, rfl⟩
        have hne : entry ≠ old := by
          rintro rfl
          rw [hget] at hr
          exact hid (by rw [← hk, ← hkey, Option.some.inj hr])
        refine ⟨r, ?_, hkey⟩
        by_cases hlt : old < entry
        · rw [if_pos hlt, if_neg (by omega), show entry - 1 + 1 = entry by omega]
          exact hr
        · rw [if_neg hlt, if_pos (by omega)]
          exact hr
      · rintro ⟨r, hr, hkey⟩
        split at hr
        next hlt => exact ⟨pos, ⟨r, hr, hkey⟩, by rw [if_neg (by omega)]⟩
        next hge => exact ⟨pos + 1, ⟨r, hr, hkey⟩, by rw [if_pos (by omega)]; omega⟩

/-! ## The records -/

/-- On records, an upsert is the upsert of keyed tables. -/
theorem upsert_records (h : t.Indexed) (record : α) :
    (t.upsert record).records = ((t.table h).upsert record).records := by
  unfold RecordTable.upsert Table.upsert
  have hfound := find_table h (key record)
  unfold find at hfound
  cases hold : t.index[key record]? with
  | none =>
    rw [hold] at hfound
    rw [dif_neg (by simp [Table.contains, ← hfound])]
    rfl
  | some old =>
    obtain ⟨r₀, hget, hk⟩ := (h _ _).mp hold
    rw [hold] at hfound
    simp only [hget] at hfound
    rw [dif_pos (by simp [Table.contains, ← hfound])]
    simp only [table]
    apply List.ext_getElem?
    intro i
    rw [List.getElem?_set, Table.replace, List.getElem?_map]
    by_cases hi : old = i
    · subst hi
      have hlt := (List.getElem?_eq_some_iff.mp hget).1
      rw [if_pos rfl, if_pos hlt, hget, Option.map_some, if_pos hk]
    · rw [if_neg hi]
      cases hr : t.records[i]? with
      | none => rfl
      | some r =>
        have hne : key r ≠ key record := by
          intro he
          rw [(h _ i).mpr ⟨r, hr, he⟩] at hold
          exact hi (Option.some.inj hold).symm
        simp [hne]

/-- An erase takes out the record under the key and keeps the order of the others. -/
theorem mem_erase (h : t.Indexed) (id : κ) (r : α) :
    r ∈ (t.erase id).1.records ↔ r ∈ t.records ∧ key r ≠ id := by
  unfold RecordTable.erase
  cases hold : t.index[id]? with
  | none =>
    refine (and_iff_left_of_imp ?_).symm
    intro hr he
    obtain ⟨pos, hget⟩ := List.mem_iff_getElem?.mp hr
    rw [(h _ pos).mpr ⟨r, hget, he⟩] at hold
    cases hold
  | some old =>
    obtain ⟨r₀, hget, hk⟩ := (h _ _).mp hold
    rw [List.mem_eraseIdx_iff_getElem?, List.mem_iff_getElem?]
    constructor
    · rintro ⟨i, hi, hr⟩
      refine ⟨⟨i, hr⟩, fun he => hi ?_⟩
      rw [(h _ i).mpr ⟨r, hr, he⟩] at hold
      exact Option.some.inj hold
    · rintro ⟨⟨i, hr⟩, hne⟩
      refine ⟨i, ?_, hr⟩
      rintro rfl
      rw [hget] at hr
      exact hne (by rw [← Option.some.inj hr, hk])

theorem erase_sublist (id : κ) : (t.erase id).1.records.Sublist t.records := by
  unfold RecordTable.erase
  split
  · exact List.Sublist.refl _
  · exact List.eraseIdx_sublist _ _

/-! ## Runs of operations -/

def perform (t : RecordTable key) : Operation α κ → RecordTable key
  | .upsert record => t.upsert record
  | .erase id => (t.erase id).1
  | .clear => t.clear

/-- The table after a sequence of operations on an empty one. -/
def after (key : α → κ) (ops : List (Operation α κ)) : RecordTable key :=
  ops.foldl perform {}

theorem after_concat (ops : List (Operation α κ)) (op : Operation α κ) :
    after key (ops ++ [op]) = (after key ops).perform op := by
  simp [after]

theorem indexed_after (ops : List (Operation α κ)) : (after key ops).Indexed := by
  induction ops using List.reverseRecOn with
  | nil => exact indexed_empty
  | append_singleton ops op ih =>
    rw [after_concat]
    cases op with
    | upsert record => exact ih.upsert record
    | erase id => exact ih.erase id
    | clear => exact indexed_empty

/-- A record is in the table exactly when it was the last one upserted under its key. -/
theorem mem_after (ops : List (Operation α κ)) (r : α) :
    r ∈ (after key ops).records ↔ LastUpserted key ops (key r) r := by
  induction ops using List.reverseRecOn with
  | nil => simp [after, lastUpserted_nil]
  | append_singleton ops op ih =>
    rw [after_concat, lastUpserted_concat, ← ih]
    have hindexed : (after key ops).Indexed := indexed_after ops
    cases op with
    | upsert record =>
      rw [perform, upsert_records hindexed, Table.mem_upsert]
      simp only [Operation.upsert.injEq, Operation.Stores, Operation.Removes, not_false_eq_true,
        and_true, table, eq_comm]
    | erase id =>
      rw [perform, mem_erase hindexed]
      simp [Operation.Stores, Operation.Removes, eq_comm]
    | clear => simp [perform, RecordTable.clear, Operation.Removes]

/-- The record found under a key is the last one upserted under it. -/
theorem find_after (ops : List (Operation α κ)) (id : κ) (r : α) :
    (after key ops).find id = some r ↔ LastUpserted key ops id r := by
  rw [find_table (indexed_after ops), Table.find_eq_some_iff, table, mem_after]
  constructor
  · rintro ⟨h, rfl⟩
    exact h
  · intro h
    have hk := h.key_eq
    subst hk
    exact ⟨h, rfl⟩

theorem mem_keys_after (ops : List (Operation α κ)) (id : κ) :
    id ∈ (after key ops).records.map key ↔ Live key ops id := by
  rw [List.mem_map]
  constructor
  · rintro ⟨r, hr, rfl⟩
    exact ⟨r, (mem_after ops r).mp hr⟩
  · rintro ⟨r, hr⟩
    have hk := hr.key_eq
    subst hk
    exact ⟨r, (mem_after ops r).mpr hr, rfl⟩

theorem size_after (ops : List (Operation α κ)) :
    (after key ops).size = {id | Live key ops id}.ncard := by
  have hkeys : {id | Live key ops id} = ↑((after key ops).records.map key).toFinset := by
    ext id
    simp only [Set.mem_ofPred_eq, List.coe_toFinset, ← mem_keys_after]
  rw [hkeys, Set.ncard_coe_finset, List.toFinset_card_of_nodup (indexed_after ops).nodup,
    List.length_map, size]

/-- The first key was inserted before the second one. -/
def InsertedBefore (key : α → κ) (ops : List (Operation α κ)) (a b : κ) : Prop :=
  ∀ n m, FirstInserted key ops a n → FirstInserted key ops b m → n < m

omit [DecidableEq κ] [Hashable κ] in
/-- Keys that are live already keep their first insertions. -/
theorem InsertedBefore.concat {ops : List (Operation α κ)} {a b : κ} (op : Operation α κ)
    (ha : Live key ops a) (hb : Live key ops b) (h : InsertedBefore key ops a b) :
    InsertedBefore key (ops ++ [op]) a b := by
  intro n m hn hm
  rcases (firstInserted_concat _ _ _ _).mp hn with ⟨hn, -⟩ | ⟨-, -, hnew⟩
  · rcases (firstInserted_concat _ _ _ _).mp hm with ⟨hm, -⟩ | ⟨-, -, hnew⟩
    · exact h n m hn hm
    · exact absurd hb hnew
  · exact absurd ha hnew

/-- Records stand in the order in which their keys were first inserted. -/
theorem ordered_after (ops : List (Operation α κ)) :
    ((after key ops).records.map key).Pairwise (InsertedBefore key ops) := by
  induction ops using List.reverseRecOn with
  | nil => simp [after]
  | append_singleton ops op ih =>
    have hindexed : (after key ops).Indexed := indexed_after ops
    have hkept : ((after key ops).records.map key).Pairwise (InsertedBefore key (ops ++ [op])) :=
      ih.imp_of_mem fun ha hb hab =>
        hab.concat op ((mem_keys_after _ _).mp ha) ((mem_keys_after _ _).mp hb)
    rw [after_concat]
    cases op with
    | upsert record =>
      rw [perform, upsert_records hindexed, Table.upsert]
      split
      · rw [Table.map_key_replace]
        exact hkept
      next hfree =>
        rw [List.map_append, List.pairwise_append]
        refine ⟨hkept, List.pairwise_singleton _ _, ?_⟩
        intro a ha b hb n m hn hm
        have hlive := (mem_keys_after _ _).mp ha
        have hbnew : ¬ Live key ops b := by
          rw [List.map_singleton, List.mem_singleton] at hb
          subst hb
          rintro ⟨r, hr⟩
          rw [← find_after, find_table hindexed] at hr
          exact hfree (by rw [Table.contains, hr]; rfl)
        have hm' : m = ops.length := by
          rcases (firstInserted_concat _ _ _ _).mp hm with ⟨hm, -⟩ | ⟨he, -⟩
          · exact absurd hm.live hbnew
          · exact he
        rcases (firstInserted_concat _ _ _ _).mp hn with ⟨hn, -⟩ | ⟨-, -, hnew⟩
        · rw [hm']
          exact hn.lt_length
        · exact absurd hlive hnew
    | erase id =>
      rw [perform]
      exact hkept.sublist ((erase_sublist id).map key)
    | clear => simp [perform, RecordTable.clear]

section Canonical

variable [LT κ] [DecidableLT κ]

theorem mem_canonicalOrder (t : RecordTable key) (r : α) :
    r ∈ t.canonicalOrder ↔ r ∈ t.records := List.mem_insertionSort _

variable [IsStrictTotalOrder κ (· < ·)]

/-- The canonical order ascends. -/
theorem canonicalOrder_ascending (h : t.Indexed) :
    t.canonicalOrder.Pairwise fun a b => key a < key b := by
  have htotal : Std.Total (fun a b : α => ¬ key b < key a) := ⟨fun a b => Table.not_lt_total _ _⟩
  have htrans : IsTrans α (fun a b => ¬ key b < key a) := ⟨fun a b c => Table.not_lt_trans⟩
  have hsorted : t.canonicalOrder.Pairwise fun a b => ¬ key b < key a :=
    List.pairwise_insertionSort _ t.records
  have hdistinct : t.canonicalOrder.Pairwise fun a b => key a ≠ key b := by
    have hnodup := ((List.perm_insertionSort (fun a b => ¬ key b < key a) t.records).map
      key).nodup_iff.mpr h.nodup
    exact List.pairwise_map.mp hnodup
  refine (hsorted.and hdistinct).imp ?_
  rintro a b ⟨hle, hne⟩
  rcases trichotomous_of (· < ·) (key a) (key b) with hlt | he | hgt
  · exact hlt
  · exact absurd he hne
  · exact absurd hgt hle

/-- A record table is a finite map with a stable order: what is found under a key is what was
last upserted under it and not removed since, the size counts the live keys, the insertion
order is that of the first insertions, the index is exact and the canonical order ascends. -/
theorem record_table_exact (key : α → κ) (ops : List (Operation α κ)) :
    (∀ id r, (after key ops).find id = some r ↔ LastUpserted key ops id r) ∧
    (after key ops).size = {id | Live key ops id}.ncard ∧
    ((after key ops).insertionOrder.Nodup ∧
      (∀ r, r ∈ (after key ops).insertionOrder ↔ LastUpserted key ops (key r) r) ∧
      (∀ r ∈ (after key ops).insertionOrder, ∃! n, FirstInserted key ops (key r) n) ∧
      (after key ops).insertionOrder.Pairwise fun a b =>
        ∀ n m, FirstInserted key ops (key a) n → FirstInserted key ops (key b) m → n < m) ∧
    (∀ id pos, (after key ops).index[id]? = some pos ↔
      ∃ r, (after key ops).insertionOrder[pos]? = some r ∧ key r = id) ∧
    ((after key ops).canonicalOrder.Pairwise (fun a b => key a < key b) ∧
      ∀ r, r ∈ (after key ops).canonicalOrder ↔ LastUpserted key ops (key r) r) := by
  have hindexed : (after key ops).Indexed := indexed_after ops
  refine ⟨find_after ops, size_after ops, ⟨List.Nodup.of_map key hindexed.nodup, mem_after ops,
    fun r hr => ?_, ?_⟩, hindexed, canonicalOrder_ascending hindexed, fun r => ?_⟩
  · exact firstInserted_of_live ops (key r) ⟨r, (mem_after ops r).mp hr⟩
  · exact List.pairwise_map.mp (ordered_after ops)
  · rw [mem_canonicalOrder, mem_after]

end Canonical

end

/-- An action with an id and nothing else. -/
def actionNamed (value : UInt64) : ActionRecord := { id := ⟨value⟩ }

/-- The second of three actions is still found after the first was erased. -/
theorem record_table_exact_actions :
    (after ActionRecord.key [.upsert (actionNamed 3), .upsert (actionNamed 2),
      .upsert (actionNamed 1), .erase ⟨⟨3⟩, 0⟩, .upsert (actionNamed 1)]).find ⟨⟨2⟩, 0⟩ =
      some (actionNamed 2) :=
  ((record_table_exact ActionRecord.key _).1 _ _).mpr
    ⟨[.upsert (actionNamed 3)], _, rfl, rfl, by
      simp [Operation.Stores, Operation.Removes, actionNamed, ActionRecord.key]⟩

end RecordTable

end ExecutionFabric
