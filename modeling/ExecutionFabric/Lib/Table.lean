import Mathlib.Data.List.Nodup
import Mathlib.Data.List.Sort
import Mathlib.Logic.Function.Basic

/-!
# Keyed tables

A table stores records under a key computed from the record. Insertion order is
kept, an upsert replaces a record in place, and no two records share a key. The
field `nodup` carries that fact, so lookups and membership agree by construction.
-/
namespace ExecutionFabric.Lib

/-- Records in insertion order, at most one for each key. -/
structure Table {α κ : Type} (key : α → κ) where
  records : List α
  nodup : (records.map key).Nodup

namespace Table

variable {α κ : Type} [DecidableEq κ] {key : α → κ}

/-- The table without records. -/
def empty : Table key := ⟨[], List.nodup_nil⟩

def find (t : Table key) (k : κ) : Option α :=
  t.records.find? fun r => key r = k

def contains (t : Table key) (k : κ) : Bool := (t.find k).isSome

def size (t : Table key) : Nat := t.records.length

/-- Puts `r` in the place of the record with its key. -/
def replace (key : α → κ) (r : α) (rs : List α) : List α :=
  rs.map fun x => if key x = key r then r else x

theorem map_key_replace (key : α → κ) (r : α) (rs : List α) :
    (replace key r rs).map key = rs.map key := by
  unfold replace
  rw [List.map_map]
  apply List.map_congr_left
  intro x _
  by_cases h : key x = key r
  · simp [h]
  · simp [h]

theorem find_eq_some_iff (t : Table key) (k : κ) (r : α) :
    t.find k = some r ↔ r ∈ t.records ∧ key r = k := by
  constructor
  · intro h
    exact ⟨List.mem_of_find?_eq_some h, by simpa using List.find?_some h⟩
  · rintro ⟨hr, rfl⟩
    have hfound : (t.find (key r)).isSome := by
      simp only [find, List.find?_isSome, decide_eq_true_eq]
      exact ⟨r, hr, rfl⟩
    obtain ⟨r', hr'⟩ := Option.isSome_iff_exists.mp hfound
    have hm := List.mem_of_find?_eq_some hr'
    have hk : key r' = key r := by simpa using List.find?_some hr'
    rw [hr', List.inj_on_of_nodup_map t.nodup hm hr hk]

theorem find_eq_none_iff (t : Table key) (k : κ) :
    t.find k = none ↔ ∀ r ∈ t.records, key r ≠ k := by
  simp [find, List.find?_eq_none]

/-- Inserts or replaces. -/
def upsert (t : Table key) (r : α) : Table key :=
  if h : t.contains (key r) then
    ⟨replace key r t.records, by rw [map_key_replace]; exact t.nodup⟩
  else
    ⟨t.records ++ [r], by
      have hfree : ∀ x ∈ t.records, key x ≠ key r := by
        rw [← find_eq_none_iff]
        simpa [contains] using h
      rw [List.map_append, List.nodup_append]
      refine ⟨t.nodup, by simp, ?_⟩
      intro k hk k' hk' he
      obtain ⟨x, hx, rfl⟩ := List.mem_map.mp hk
      exact hfree x hx (by simpa using he.trans (by simpa using hk'))⟩

@[simp] theorem find_empty (k : κ) : (empty : Table key).find k = none := rfl

theorem find_key {t : Table key} {k : κ} {r : α} (h : t.find k = some r) : key r = k :=
  ((find_eq_some_iff t k r).mp h).2

theorem mem_upsert (t : Table key) (r x : α) :
    x ∈ (t.upsert r).records ↔ x = r ∨ (x ∈ t.records ∧ key x ≠ key r) := by
  unfold upsert
  by_cases h : t.contains (key r)
  · obtain ⟨r₀, hr₀⟩ := Option.isSome_iff_exists.mp h
    obtain ⟨hm, hk⟩ := (find_eq_some_iff t _ _).mp hr₀
    simp only [h, ↓reduceDIte, replace, List.mem_map]
    constructor
    · rintro ⟨y, hy, rfl⟩
      by_cases hyr : key y = key r
      · simp [hyr]
      · simp [hyr, hy]
    · rintro (rfl | ⟨hx, hxr⟩)
      · exact ⟨r₀, hm, by simp [hk]⟩
      · exact ⟨x, hx, by simp [hxr]⟩
  · have hfree : ∀ y ∈ t.records, key y ≠ key r := by
      rw [← find_eq_none_iff]
      simpa [contains] using h
    simp only [h, Bool.false_eq_true, ↓reduceDIte, List.mem_append, List.mem_singleton]
    constructor
    · rintro (hx | rfl)
      · exact .inr ⟨hx, hfree x hx⟩
      · exact .inl rfl
    · rintro (rfl | ⟨hx, -⟩)
      · exact .inr rfl
      · exact .inl hx

/-- An upsert is a point update of the lookup function. -/
theorem find_upsert (t : Table key) (r : α) :
    (t.upsert r).find = Function.update t.find (key r) (some r) := by
  funext k
  by_cases hk : k = key r
  · subst hk
    rw [Function.update_self, find_eq_some_iff, mem_upsert]
    exact ⟨.inl rfl, rfl⟩
  · rw [Function.update_of_ne hk]
    apply Option.ext
    intro x
    rw [find_eq_some_iff, find_eq_some_iff, mem_upsert]
    constructor
    · rintro ⟨rfl | ⟨hx, -⟩, hxk⟩
      · exact absurd hxk.symm hk
      · exact ⟨hx, hxk⟩
    · rintro ⟨hx, hxk⟩
      exact ⟨.inr ⟨hx, fun he => hk (hxk.symm.trans he)⟩, hxk⟩

/-- The second of two upserts under a stored key is the one that counts. -/
theorem upsert_upsert (t : Table key) {r r' : α} (hkey : key r = key r')
    (hstored : t.contains (key r) = true) : (t.upsert r).upsert r' = t.upsert r' := by
  have hcontains : (t.upsert r).contains (key r') = true := by
    rw [contains, find_upsert, ← hkey, Function.update_self]
    rfl
  have hstored' : t.contains (key r') = true := hkey ▸ hstored
  unfold upsert at hcontains ⊢
  rw [dif_pos hstored] at hcontains
  rw [dif_pos hstored, dif_pos hcontains, dif_pos hstored']
  congr 1
  unfold replace
  rw [List.map_map]
  refine List.map_congr_left fun x _ => ?_
  simp only [Function.comp_apply, hkey]
  by_cases hx : key x = key r'
  · rw [if_pos hx, if_pos hkey, if_pos hx]
  · rw [if_neg hx, if_neg hx]

/-- The table into which the records are put one after the other. -/
def ofRecords (rs : List α) : Table key := rs.foldl upsert empty

/-- Records with different keys are stored as they come. -/
theorem records_ofRecords {rs : List α} (h : (rs.map key).Nodup) :
    (ofRecords rs : Table key).records = rs := by
  suffices hfold : ∀ (t : Table key), ((t.records ++ rs).map key).Nodup →
      (rs.foldl upsert t).records = t.records ++ rs from hfold empty h
  clear h
  induction rs with
  | nil => intro t _; simp
  | cons r rs ih =>
    intro t ht
    have hfree : ∀ x ∈ t.records, key x ≠ key r := by
      intro x hx he
      rw [List.map_append, List.map_cons, List.nodup_append] at ht
      exact ht.2.2 _ (List.mem_map_of_mem hx) _ (List.mem_cons_self) he
    have hnew : ¬ t.contains (key r) := by simpa [contains] using (find_eq_none_iff t _).mpr hfree
    have hrecords : (t.upsert r).records = t.records ++ [r] := by
      rw [upsert, dif_neg hnew]
    rw [List.foldl_cons, ih (t.upsert r), hrecords, List.append_assoc, List.singleton_append]
    rw [hrecords, List.append_assoc, List.singleton_append]
    exact ht

/-- The records in another order, under the same keys. -/
def reorder (t : Table key) (rs : List α) (h : rs.Perm t.records) : Table key :=
  ⟨rs, ((h.map key).nodup_iff).mpr t.nodup⟩

theorem find_reorder (t : Table key) (rs : List α) (h : rs.Perm t.records) :
    (t.reorder rs h).find = t.find := by
  funext k
  apply Option.ext
  intro r
  rw [find_eq_some_iff, find_eq_some_iff]
  exact and_congr_left fun _ => h.mem_iff

/-- Tables that denote the same map hold the same records. -/
theorem perm_of_find {t t' : Table key} (h : t.find = t'.find) : t.records.Perm t'.records := by
  rw [List.perm_ext_iff_of_nodup (List.Nodup.of_map key t.nodup) (List.Nodup.of_map key t'.nodup)]
  intro r
  have hiff := (t.find_eq_some_iff (key r) r).symm.trans (by rw [h, find_eq_some_iff])
  simpa using hiff

/-! ### Revised records -/

/-- Every record changed by `f`, which keeps keys. -/
def revise (t : Table key) (f : α → α) (hf : ∀ r, key (f r) = key r) : Table key :=
  ⟨t.records.map f, by
    rw [List.map_map]
    simpa only [Function.comp_def, hf] using t.nodup⟩

omit [DecidableEq κ] in
theorem revise_congr (t : Table key) {f g : α → α} (hf : ∀ r, key (f r) = key r)
    (hg : ∀ r, key (g r) = key r) (h : ∀ r ∈ t.records, f r = g r) :
    t.revise f hf = t.revise g hg := by
  unfold revise
  congr 1
  exact List.map_congr_left h

omit [DecidableEq κ] in
theorem revise_eq_self (t : Table key) {f : α → α} (hf : ∀ r, key (f r) = key r)
    (h : ∀ r ∈ t.records, f r = r) : t.revise f hf = t := by
  cases t with
  | mk rs hrs =>
    unfold revise
    congr 1
    exact (List.map_congr_left h).trans (List.map_id rs)

theorem find_revise (t : Table key) (f : α → α) (hf : ∀ r, key (f r) = key r) (k : κ) :
    (t.revise f hf).find k = (t.find k).map f := by
  unfold find revise
  rw [List.find?_map]
  simp only [Function.comp_def, hf]

/-- An upsert over a stored record is one more revision. -/
theorem upsert_revise (t : Table key) {f g : α → α} (hf : ∀ r, key (f r) = key r)
    (hg : ∀ r, key (g r) = key r) {r r₀ : α} (h : t.find (key r) = some r₀)
    (hstep : ∀ x ∈ t.records, g x = if key x = key r then r else f x) :
    (t.revise f hf).upsert r = t.revise g hg := by
  have hstored : (t.revise f hf).contains (key r) = true := by
    rw [contains, find_revise, h]
    rfl
  unfold upsert
  rw [dif_pos hstored]
  unfold revise replace
  congr 1
  rw [List.map_map]
  refine List.map_congr_left fun x hx => ?_
  simp only [Function.comp_apply, hf, hstep x hx]

/-- A revision after an upsert over a stored record is one revision. -/
theorem revise_upsert (t : Table key) {f g : α → α} (hf : ∀ r, key (f r) = key r)
    (hg : ∀ r, key (g r) = key r) {r r₀ : α} (h : t.find (key r) = some r₀)
    (hstep : ∀ x ∈ t.records, g x = f (if key x = key r then r else x)) :
    (t.upsert r).revise f hf = t.revise g hg := by
  have hstored : t.contains (key r) = true := by
    rw [contains, h]
    rfl
  unfold upsert
  rw [dif_pos hstored]
  unfold revise replace
  congr 1
  rw [List.map_map]
  exact List.map_congr_left fun x hx => (hstep x hx).symm

section Canonical

variable [LT κ] [DecidableLT κ]

/-- Ascending by key, whatever the insertion order was. -/
def canonicalOrder (t : Table key) : List α :=
  t.records.insertionSort fun a b => ¬ key b < key a

omit [DecidableEq κ] in
theorem canonicalOrder_perm (t : Table key) : t.canonicalOrder.Perm t.records :=
  List.perm_insertionSort _ _

omit [DecidableEq κ] in
theorem mem_canonicalOrder (t : Table key) (r : α) :
    r ∈ t.canonicalOrder ↔ r ∈ t.records := t.canonicalOrder_perm.mem_iff

/-- The table whose insertion order is the canonical one. -/
def canonical (t : Table key) : Table key := t.reorder t.canonicalOrder t.canonicalOrder_perm

theorem ofRecords_canonicalOrder (t : Table key) : ofRecords t.canonicalOrder = t.canonical := by
  have h := records_ofRecords t.canonical.nodup
  rw [show t.canonical.records = t.canonicalOrder from rfl] at h
  cases hof : (ofRecords t.canonicalOrder : Table key) with
  | mk rs hrs =>
    rw [hof] at h
    subst h
    rfl

theorem find_canonical (t : Table key) : t.canonical.find = t.find := t.find_reorder _ _

variable [IsStrictTotalOrder κ (· < ·)]

omit [DecidableEq κ] [DecidableLT κ] in
theorem not_lt_total (a b : κ) : ¬ b < a ∨ ¬ a < b := by
  by_cases h : b < a
  · exact .inr fun h' => irrefl_of (· < ·) a (trans_of (· < ·) h' h)
  · exact .inl h

omit [DecidableEq κ] [DecidableLT κ] in
theorem not_lt_trans {a b c : κ} (hab : ¬ b < a) (hbc : ¬ c < b) : ¬ c < a := by
  intro hca
  rcases trichotomous_of (· < ·) a b with h | rfl | h
  · exact hbc (trans_of (· < ·) hca h)
  · exact hbc hca
  · exact hab h

omit [DecidableEq κ] in
/-- Sorting by a key that no two members share does not depend on the order before. -/
theorem insertionSort_congr {l l' : List α} (hnodup : (l.map key).Nodup) (h : l.Perm l') :
    (l.insertionSort fun a b => ¬ key b < key a) =
      l'.insertionSort fun a b => ¬ key b < key a := by
  have htotal : Std.Total (fun a b : α => ¬ key b < key a) := ⟨fun a b => not_lt_total _ _⟩
  have htrans : IsTrans α (fun a b => ¬ key b < key a) := ⟨fun a b c => not_lt_trans⟩
  refine List.Perm.eq_of_pairwise ?_ (List.pairwise_insertionSort _ l)
    (List.pairwise_insertionSort _ l') ?_
  · intro a b ha hb hab hba
    have hkey : key a = key b := by
      rcases trichotomous_of (· < ·) (key a) (key b) with hlt | he | hlt
      · exact absurd hlt hba
      · exact he
      · exact absurd hlt hab
    rw [List.mem_insertionSort] at ha hb
    exact List.inj_on_of_nodup_map hnodup ha (h.mem_iff.mpr hb) hkey
  · exact (List.perm_insertionSort _ l).trans (h.trans (List.perm_insertionSort _ l').symm)

/-- The canonical order depends only on the map. -/
theorem canonicalOrder_congr {t t' : Table key} (h : t.find = t'.find) :
    t.canonicalOrder = t'.canonicalOrder :=
  insertionSort_congr t.nodup (perm_of_find h)

end Canonical

end Table

/-! ## Keyed maps

What a table denotes once its insertion order is forgotten. -/

/-- A partial map that stores every record under its own key. -/
@[ext] structure KeyedMap {α κ : Type} (key : α → κ) where
  get : κ → Option α
  keyed : ∀ k r, get k = some r → key r = k

namespace KeyedMap

variable {α κ : Type} {key : α → κ}

instance : CoeFun (KeyedMap key) fun _ => κ → Option α := ⟨get⟩

def empty : KeyedMap key := ⟨fun _ => none, by simp⟩

/-- Every record changed by `f`, which keeps keys. -/
def revise (m : KeyedMap key) (f : α → α) (hf : ∀ r, key (f r) = key r) : KeyedMap key :=
  ⟨fun k => (m k).map f, by
    intro k r hr
    obtain ⟨r₀, hr₀, rfl⟩ := Option.map_eq_some_iff.mp hr
    exact (hf r₀).trans (m.keyed k r₀ hr₀)⟩

theorem revise_eq_some {m : KeyedMap key} {f : α → α} (hf : ∀ r, key (f r) = key r) {k : κ} {r : α}
    (h : m.revise f hf k = some r) : ∃ r₀, m k = some r₀ ∧ r = f r₀ := by
  obtain ⟨r₀, hr₀, he⟩ := Option.map_eq_some_iff.mp h
  exact ⟨r₀, hr₀, he.symm⟩

theorem revise_congr (m : KeyedMap key) {f g : α → α} (hf : ∀ r, key (f r) = key r)
    (hg : ∀ r, key (g r) = key r) (h : ∀ k r, m k = some r → f r = g r) :
    m.revise f hf = m.revise g hg := by
  ext1
  funext k
  show (m k).map f = (m k).map g
  exact Option.map_congr fun r hr => h k r hr

variable [DecidableEq κ]

def insert (m : KeyedMap key) (r : α) : KeyedMap key :=
  ⟨Function.update m.get (key r) (some r), by
    intro k x h
    by_cases hk : k = key r
    · subst hk
      rw [Function.update_self] at h
      rw [Option.some.inj h]
    · rw [Function.update_of_ne hk] at h
      exact m.keyed k x h⟩

theorem insert_apply (m : KeyedMap key) (r : α) (k : κ) :
    m.insert r k = if k = key r then some r else m k := by
  simp [insert, Function.update_apply]

@[simp] theorem insert_self (m : KeyedMap key) (r : α) : m.insert r (key r) = some r := by
  simp [insert_apply]

theorem insert_of_ne (m : KeyedMap key) {r : α} {k : κ} (h : k ≠ key r) :
    m.insert r k = m k := by
  simp [insert_apply, h]

/-- A record of the updated map is the inserted one, or an old one under another key. -/
theorem insert_eq_some {m : KeyedMap key} {r x : α} {k : κ} (h : m.insert r k = some x) :
    (k = key r ∧ x = r) ∨ (k ≠ key r ∧ m k = some x) := by
  rw [insert_apply] at h
  split at h
  next hk => exact .inl ⟨hk, (Option.some.inj h).symm⟩
  next hk => exact .inr ⟨hk, h⟩

/-- Inserts records in order. -/
def insertAll (m : KeyedMap key) (rs : List α) : KeyedMap key := rs.foldl insert m

theorem insertAll_of_ne (m : KeyedMap key) {rs : List α} {k : κ} (h : ∀ r ∈ rs, key r ≠ k) :
    m.insertAll rs k = m k := by
  induction rs generalizing m with
  | nil => rfl
  | cons r rest ih =>
    have hne : k ≠ key r := (h r List.mem_cons_self).symm
    exact (ih (m.insert r) fun r' hr' => h r' (List.mem_cons_of_mem _ hr')).trans
      (m.insert_of_ne hne)

theorem insertAll_of_mem (m : KeyedMap key) {rs : List α} (hnodup : (rs.map key).Nodup) {r : α}
    (hr : r ∈ rs) : m.insertAll rs (key r) = some r := by
  induction rs generalizing m with
  | nil => cases hr
  | cons r' rest ih =>
    rw [List.map_cons, List.nodup_cons] at hnodup
    rcases List.mem_cons.mp hr with rfl | hrest
    · refine ((m.insert r).insertAll_of_ne ?_).trans (m.insert_self r)
      intro x hx he
      exact hnodup.1 (he ▸ List.mem_map_of_mem hx)
    · exact ih (m.insert r') hnodup.2 hrest

theorem insert_insert (m : KeyedMap key) {r r' : α} (h : key r = key r') :
    (m.insert r).insert r' = m.insert r' := by
  ext1
  funext k
  show (m.insert r).insert r' k = m.insert r' k
  by_cases hk : k = key r'
  · subst hk
    rw [insert_self, insert_self]
  · rw [insert_of_ne _ hk, insert_of_ne _ hk, insert_of_ne _ (h ▸ hk)]

theorem insert_comm (m : KeyedMap key) {r r' : α} (h : key r ≠ key r') :
    (m.insert r).insert r' = (m.insert r').insert r := by
  ext1
  exact Function.update_comm h _ _ _

/-- Of records with one key only the last is kept. -/
theorem insertAll_concat (m : KeyedMap key) {rs : List α} {r : α} (h : ∀ r' ∈ rs, key r' = key r) :
    m.insertAll (rs ++ [r]) = m.insert r := by
  induction rs generalizing m with
  | nil => rfl
  | cons r' rest ih =>
    refine (ih (m.insert r') fun x hx => h x (List.mem_cons_of_mem _ hx)).trans ?_
    exact m.insert_insert (h r' List.mem_cons_self)

theorem insert_stored {m : KeyedMap key} {r : α} (h : m (key r) = some r) : m.insert r = m := by
  ext1
  funext k
  show m.insert r k = m k
  by_cases hk : k = key r
  · subst hk
    rw [insert_self, h]
  · exact m.insert_of_ne hk

/-- A record of the extended map was inserted, or is an old one no inserted one replaced. -/
theorem insertAll_eq_some {m : KeyedMap key} {rs : List α} {k : κ} {x : α}
    (h : m.insertAll rs k = some x) : x ∈ rs ∨ (m k = some x ∧ ∀ r ∈ rs, key r ≠ k) := by
  induction rs generalizing m with
  | nil => exact .inr ⟨h, fun r hr => by cases hr⟩
  | cons r rest ih =>
    rcases ih h with hmem | ⟨hold, hne⟩
    · exact .inl (List.mem_cons_of_mem _ hmem)
    · rcases insert_eq_some hold with ⟨-, rfl⟩ | ⟨hk, hold'⟩
      · exact .inl List.mem_cons_self
      · refine .inr ⟨hold', ?_⟩
        intro r' hr'
        rcases List.mem_cons.mp hr' with rfl | hr'
        · exact hk.symm
        · exact hne r' hr'

theorem insertAll_stored {m : KeyedMap key} {k : κ} {x : α} (h : m k = some x) (rs : List α) :
    ∃ y, m.insertAll rs k = some y := by
  induction rs generalizing m x with
  | nil => exact ⟨x, h⟩
  | cons r rest ih =>
    by_cases hk : k = key r
    · subst hk
      exact ih (m.insert_self r)
    · exact ih ((m.insert_of_ne hk).trans h)

/-- The key of an inserted record holds one of the inserted records. -/
theorem insertAll_mem (m : KeyedMap key) {rs : List α} {r : α} (hr : r ∈ rs) :
    ∃ r' ∈ rs, m.insertAll rs (key r) = some r' := by
  have hstored : ∃ y, m.insertAll rs (key r) = some y := by
    obtain ⟨front, back, rfl⟩ := List.append_of_mem hr
    unfold insertAll
    rw [List.foldl_append, List.foldl_cons]
    exact insertAll_stored (insert_self _ _) back
  obtain ⟨y, hy⟩ := hstored
  rcases insertAll_eq_some hy with hmem | ⟨-, hne⟩
  · exact ⟨y, hmem, hy⟩
  · exact absurd rfl (hne r hr)

/-- What an inserted key holds does not depend on the map the records went into. -/
theorem insertAll_congr (m m' : KeyedMap key) {rs : List α} {r : α} (hr : r ∈ rs) :
    m.insertAll rs (key r) = m'.insertAll rs (key r) := by
  obtain ⟨front, back, rfl⟩ := List.append_of_mem hr
  suffices h : ∀ (back : List α) (n n' : KeyedMap key), n (key r) = n' (key r) →
      n.insertAll back (key r) = n'.insertAll back (key r) by
    unfold insertAll
    rw [List.foldl_append, List.foldl_cons, List.foldl_append, List.foldl_cons]
    exact h back _ _ ((insert_self _ r).trans (insert_self _ r).symm)
  intro back
  induction back with
  | nil => exact fun n n' h => h
  | cons x rest ih =>
    intro n n' h
    apply ih (n.insert x) (n'.insert x)
    rw [insert_apply, insert_apply, h]

theorem insertAll_insertAll (m : KeyedMap key) (rs : List α) :
    (m.insertAll rs).insertAll rs = m.insertAll rs := by
  ext1
  funext k
  by_cases hk : ∃ r ∈ rs, key r = k
  · obtain ⟨r, hr, rfl⟩ := hk
    exact insertAll_congr _ _ hr
  · exact insertAll_of_ne _ fun r hr he => hk ⟨r, hr, he⟩

end KeyedMap

namespace Table

variable {α κ : Type} [DecidableEq κ] {key : α → κ}

/-- The keyed map a table denotes. -/
def toMap (t : Table key) : KeyedMap key := ⟨t.find, fun _ _ h => find_key h⟩

@[simp] theorem toMap_apply (t : Table key) (k : κ) : t.toMap k = t.find k := rfl

theorem toMap_upsert (t : Table key) (r : α) : (t.upsert r).toMap = t.toMap.insert r := by
  ext1
  exact t.find_upsert r

/-- Rewriting the records that satisfy `p`, when `f` leaves the others alone, is a revision. -/
theorem insertAll_filter (t : Table key) (p : α → Bool) (f : α → α)
    (hf : ∀ r, key (f r) = key r) (hkeep : ∀ r ∈ t.records, p r = false → f r = r) :
    t.toMap.insertAll ((t.records.filter p).map f) = t.toMap.revise f hf := by
  have hkeys : ((t.records.filter p).map f).map key = (t.records.filter p).map key := by
    rw [List.map_map]
    exact List.map_congr_left fun r _ => hf r
  have hnodup : (((t.records.filter p).map f).map key).Nodup := by
    rw [hkeys]
    exact t.nodup.sublist (List.filter_sublist.map _)
  ext1
  funext k
  show t.toMap.insertAll ((t.records.filter p).map f) k = (t.find k).map f
  cases hk : t.find k with
  | none =>
    refine (KeyedMap.insertAll_of_ne _ ?_).trans hk
    intro r hr
    obtain ⟨r₀, hr₀, rfl⟩ := List.mem_map.mp hr
    rw [hf]
    exact (find_eq_none_iff t k).mp hk r₀ (List.mem_of_mem_filter hr₀)
  | some r₀ =>
    obtain ⟨hmem, hkey⟩ := (find_eq_some_iff t k r₀).mp hk
    cases hp : p r₀ with
    | true =>
      have hmem' : f r₀ ∈ (t.records.filter p).map f :=
        List.mem_map_of_mem (List.mem_filter.mpr ⟨hmem, hp⟩)
      have hget := KeyedMap.insertAll_of_mem t.toMap hnodup hmem'
      rw [hf, hkey] at hget
      exact hget
    | false =>
      rw [Option.map_some, hkeep r₀ hmem hp]
      refine (KeyedMap.insertAll_of_ne _ ?_).trans hk
      intro r hr he
      obtain ⟨r₁, hr₁, rfl⟩ := List.mem_map.mp hr
      obtain ⟨hmem₁, hp₁⟩ := List.mem_filter.mp hr₁
      rw [hf] at he
      have hsame := (find_eq_some_iff t k r₁).mpr ⟨hmem₁, he⟩
      rw [hk] at hsame
      cases hsame
      rw [hp] at hp₁
      cases hp₁

theorem toMap_canonical [LT κ] [DecidableLT κ] (t : Table key) : t.canonical.toMap = t.toMap := by
  ext1
  exact t.find_canonical

/-- Puts records in one after the other. -/
def upsertAll (t : Table key) (rs : List α) : Table key := rs.foldl upsert t

theorem upsertAll_append (t : Table key) (rs rs' : List α) :
    t.upsertAll (rs ++ rs') = (t.upsertAll rs).upsertAll rs' := List.foldl_append

theorem toMap_upsertAll (t : Table key) (rs : List α) :
    (t.upsertAll rs).toMap = t.toMap.insertAll rs := by
  induction rs generalizing t with
  | nil => rfl
  | cons r rest ih =>
    refine (ih (t.upsert r)).trans ?_
    rw [toMap_upsert]
    rfl

/-- Records whose keys are stored already are replaced in place. -/
theorem keys_upsertAll (t : Table key) {rs : List α} (h : ∀ r ∈ rs, ∃ x, t.find (key r) = some x) :
    (t.upsertAll rs).records.map key = t.records.map key := by
  induction rs generalizing t with
  | nil => rfl
  | cons r rest ih =>
    obtain ⟨x, hx⟩ := h r List.mem_cons_self
    have hhead : (t.upsert r).records.map key = t.records.map key := by
      have hstored : t.contains (key r) := by rw [contains, hx]; rfl
      rw [upsert, dif_pos hstored, map_key_replace]
    have hrest : ∀ r' ∈ rest, ∃ x, (t.upsert r).find (key r') = some x := by
      intro r' hr'
      obtain ⟨x', hx'⟩ := h r' (List.mem_cons_of_mem _ hr')
      rw [find_upsert]
      by_cases hk : key r' = key r
      · exact ⟨r, by rw [hk, Function.update_self]⟩
      · exact ⟨x', by rw [Function.update_of_ne hk, hx']⟩
    exact (ih (t.upsert r) hrest).trans hhead

/-- A table is its key order together with the map it denotes. -/
theorem ext_keys {t t' : Table key} (hkeys : t.records.map key = t'.records.map key)
    (hfind : t.find = t'.find) : t = t' := by
  have hrecords : ∀ (t : Table key), t.records.map some = (t.records.map key).map t.find := by
    intro t
    rw [List.map_map]
    apply List.map_congr_left
    intro r hr
    exact ((find_eq_some_iff t (key r) r).mpr ⟨hr, rfl⟩).symm
  have h : t.records.map some = t'.records.map some := by
    rw [hrecords t, hrecords t', hkeys, hfind]
  have h' : t.records = t'.records := List.map_injective_iff.mpr (Option.some_injective α) h
  cases t
  cases t'
  cases h'
  rfl

/-- Putting the same records in a second time changes nothing, insertion order included. -/
theorem upsertAll_upsertAll (t : Table key) (rs : List α) :
    (t.upsertAll rs).upsertAll rs = t.upsertAll rs := by
  apply ext_keys
  · apply keys_upsertAll
    intro r hr
    obtain ⟨x, -, hx⟩ := t.toMap.insertAll_mem hr
    rw [← toMap_upsertAll] at hx
    exact ⟨x, hx⟩
  · have hmap : ((t.upsertAll rs).upsertAll rs).toMap = (t.upsertAll rs).toMap := by
      rw [toMap_upsertAll, toMap_upsertAll, KeyedMap.insertAll_insertAll]
    exact congrArg KeyedMap.get hmap

end Table

end ExecutionFabric.Lib
