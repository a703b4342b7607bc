import Mathlib.Data.List.Nodup
import Mathlib.Logic.Function.Basic

/-!
# Bounded first-in first-out caches

A cache is a partial map together with the order its keys entered in. Inserting a new key
first drops the oldest keys until there is room. `Sound` says that the order lists exactly
the cached keys, each once, within the bound; a key that fewer insertions than the bound
have followed is still cached under the value it was inserted with.
-/
namespace ExecutionFabric.Lib.Fifo

variable {κ ν : Type}

/-- The order lists the cached keys, each once, and there are at most `limit`. -/
structure Sound (limit : Nat) (order : List κ) (cache : κ → Option ν) : Prop where
  nodup : order.Nodup
  listed : ∀ k, (cache k).isSome = true ↔ k ∈ order
  bounded : order.length ≤ limit

theorem Sound.empty (limit : Nat) : Sound limit ([] : List κ) (fun _ => (none : Option ν)) :=
  ⟨List.nodup_nil, fun k => by simp, Nat.zero_le _⟩

variable [DecidableEq κ]

/-- Drops the oldest keys until there is room for one more. -/
def evict (limit : Nat) : List κ → (κ → Option ν) → List κ × (κ → Option ν)
  | [], cache => ([], cache)
  | oldest :: rest, cache =>
    if rest.length + 1 ≥ limit then evict limit rest (Function.update cache oldest none)
    else (oldest :: rest, cache)

/-- Inserts a key that is not cached. -/
def insert (limit : Nat) (k : κ) (v : ν) (order : List κ) (cache : κ → Option ν) :
    List κ × (κ → Option ν) :=
  ((evict limit order cache).1 ++ [k], Function.update (evict limit order cache).2 k (some v))

section Evict

variable {limit : Nat} {order : List κ} {cache : κ → Option ν}

/-- Evicting drops the oldest keys and clears exactly them. -/
theorem evict_eq (limit : Nat) (order : List κ) (cache : κ → Option ν) :
    (evict limit order cache).1 = order.drop (order.length + 1 - limit) ∧
      ∀ k, (evict limit order cache).2 k =
        if k ∈ order.take (order.length + 1 - limit) then none else cache k := by
  induction order generalizing cache with
  | nil => exact ⟨by simp [evict], fun k => by simp [evict]⟩
  | cons oldest rest ih =>
    unfold evict
    split
    next hfull =>
      obtain ⟨horder, hcache⟩ := ih (Function.update cache oldest none)
      have hcount : (oldest :: rest).length + 1 - limit = (rest.length + 1 - limit) + 1 := by
        rw [List.length_cons]
        omega
      rw [hcount, List.drop_succ_cons, List.take_succ_cons]
      refine ⟨horder, fun k => ?_⟩
      rw [hcache k]
      by_cases hk : k = oldest
      · subst hk
        simp
      · rw [Function.update_of_ne hk]
        simp [hk]
    next hroom =>
      have hzero : (oldest :: rest).length + 1 - limit = 0 := by
        rw [List.length_cons]
        omega
      rw [hzero]
      exact ⟨rfl, fun k => by simp⟩

theorem length_evict (hlimit : limit ≠ 0) : (evict limit order cache).1.length + 1 ≤ limit := by
  rw [(evict_eq limit order cache).1, List.length_drop]
  omega

/-- What is evicted was cached before. -/
theorem mem_evict {k : κ} (hk : k ∈ (evict limit order cache).1) : k ∈ order := by
  rw [(evict_eq limit order cache).1] at hk
  exact List.mem_of_mem_drop hk

theorem Sound.evict_isSome (h : Sound limit order cache) (k : κ) :
    ((evict limit order cache).2 k).isSome = true ↔ k ∈ (evict limit order cache).1 := by
  obtain ⟨horder, hcache⟩ := evict_eq limit order cache
  have hsplit : k ∈ order ↔ k ∈ order.take (order.length + 1 - limit) ∨
      k ∈ order.drop (order.length + 1 - limit) := by
    rw [← List.mem_append, List.take_append_drop]
  have hdisjoint := List.disjoint_take_drop h.nodup (Nat.le_refl (order.length + 1 - limit))
  rw [hcache k, horder]
  split
  next htaken =>
    refine ⟨fun hnone => (by cases hnone), fun hdropped => ?_⟩
    exact absurd hdropped (hdisjoint htaken)
  next hkept => rw [h.listed k, hsplit, or_iff_right hkept]

end Evict

section Insert

variable {limit : Nat} {order : List κ} {cache : κ → Option ν} {k : κ} {v : ν}

theorem Sound.insert (h : Sound limit order cache) (hlimit : limit ≠ 0) (hk : cache k = none) :
    Sound limit (insert limit k v order cache).1 (insert limit k v order cache).2 := by
  have hfresh : k ∉ (evict limit order cache).1 := by
    intro hmem
    have hcached := (h.listed k).mpr (mem_evict hmem)
    rw [hk] at hcached
    cases hcached
  have hnodup : (evict limit order cache).1.Nodup := by
    rw [(evict_eq limit order cache).1]
    exact h.nodup.sublist (List.drop_sublist _ _)
  refine ⟨?_, fun k' => ?_, ?_⟩
  · refine List.nodup_append'.mpr ⟨hnodup, List.nodup_singleton k, ?_⟩
    rw [List.disjoint_singleton]
    exact hfresh
  · show (Function.update (evict limit order cache).2 k (some v) k').isSome = true ↔
      k' ∈ (evict limit order cache).1 ++ [k]
    rw [List.mem_append, List.mem_singleton]
    by_cases hne : k' = k
    · subst hne
      simp
    · rw [Function.update_of_ne hne, h.evict_isSome, or_iff_left hne]
  · unfold Fifo.insert
    rw [List.length_append]
    exact length_evict hlimit

end Insert

/-- `k` is cached under `v`, and at most `n` keys entered after it. -/
structure Young (order : List κ) (cache : κ → Option ν) (k : κ) (v : ν) (n : Nat) : Prop where
  cached : cache k = some v
  recent : ∃ older newer, order = older ++ k :: newer ∧ newer.length ≤ n

section Young

variable {limit n : Nat} {order : List κ} {cache : κ → Option ν} {k k' : κ} {v v' : ν}

/-- An insertion ages a key by one, and drops it only when it is too old. -/
theorem Young.insert (h : Young order cache k v n) (hs : Sound limit order cache)
    (hroom : n + 1 < limit) (hk' : cache k' = none) :
    Young (insert limit k' v' order cache).1 (insert limit k' v' order cache).2 k v (n + 1) := by
  obtain ⟨older, newer, horder, hrecent⟩ := h.recent
  have hne : k ≠ k' := by
    rintro rfl
    rw [h.cached] at hk'
    cases hk'
  obtain ⟨hkept, hcache⟩ := evict_eq limit order cache
  have hdrop : order.length + 1 - limit ≤ older.length := by
    have hlength := congrArg List.length horder
    rw [List.length_append, List.length_cons] at hlength
    have hbounded := hs.bounded
    omega
  have hevicted : (evict limit order cache).1 =
      older.drop (order.length + 1 - limit) ++ k :: newer := by
    rw [hkept]
    conv_lhs => rw [horder]
    rw [List.drop_append_of_le_length (by rw [← horder]; exact hdrop), ← horder]
  have hsurvives : k ∈ (evict limit order cache).1 := by
    rw [hevicted]
    simp
  refine ⟨?_, older.drop (order.length + 1 - limit), newer ++ [k'], ?_, ?_⟩
  · show Function.update (evict limit order cache).2 k' (some v') k = some v
    have hsome := (hs.evict_isSome k).mpr hsurvives
    rw [Function.update_of_ne hne, hcache k]
    rw [hcache k] at hsome
    split at hsome
    · cases hsome
    next hnot =>
      rw [if_neg hnot]
      exact h.cached
  · show (evict limit order cache).1 ++ [k'] = _
    rw [hevicted, List.append_assoc]
    rfl
  · rw [List.length_append]
    exact Nat.add_le_add_right hrecent 1

end Young

end ExecutionFabric.Lib.Fifo
