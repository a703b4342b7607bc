import ExecutionFabric.Model.Records
import ExecutionFabric.Lib.Canonical

/-!
# Binding sets

References are ordered by domain first and by binding id second. `canonicalize` and
`binding_set_defect` look for equal ids between neighbours in that order only, so an id
used in two domains goes unnoticed as soon as another reference lies between.
-/
namespace ExecutionFabric

open Lib

/-! ## The order of references -/

namespace BindingRef

theorem ordinal_injective {a b : BindingDomain} (h : a.ordinal = b.ordinal) : a = b := by
  cases a <;> cases b <;> first | rfl | (exact absurd h (by decide))

theorem lt_iff (a b : BindingRef) : a.lt b = true ↔
    a.domain.ordinal < b.domain.ordinal ∨ (a.domain = b.domain ∧
      (a.id.value.toNat < b.id.value.toNat ∨ (a.id = b.id ∧
        (a.generation.toNat < b.generation.toNat ∨ (a.generation = b.generation ∧
          a.label < b.label))))) := by
  have hid : a.id < b.id ↔ a.id.value.toNat < b.id.value.toNat := UInt64.lt_iff_toNat_lt
  have hgeneration : a.generation < b.generation ↔ a.generation.toNat < b.generation.toNat :=
    UInt64.lt_iff_toNat_lt
  unfold lt
  split
  next hdomain =>
    simp [hdomain]
  next hdomain =>
    rw [not_not] at hdomain
    rw [hdomain]
    split
    next hne =>
      simp [hne, hid]
    next heq =>
      rw [not_not] at heq
      rw [heq]
      split
      next hne => simp [hne, hgeneration]
      next heq' =>
        rw [not_not] at heq'
        simp [heq']

theorem toNat_id_injective {a b : BindingId} (h : a.value.toNat = b.value.toNat) : a = b := by
  cases a
  cases b
  exact congrArg Id.mk (UInt64.toNat_inj.mp h)

instance : IsStrictTotalOrder BindingRef (fun a b => a.lt b = true) where
  irrefl a := by
    rw [lt_iff]
    have := List.lt_irrefl a.label
    simp [this]
  trans a b c hab hbc := by
    rw [lt_iff] at *
    rcases hab with hab | ⟨hd, hab⟩
    · rcases hbc with hbc | ⟨hd', -⟩
      · exact .inl (Nat.lt_trans hab hbc)
      · exact .inl (hd' ▸ hab)
    rcases hbc with hbc | ⟨hd', hbc⟩
    · exact .inl (hd ▸ hbc)
    refine .inr ⟨hd.trans hd', ?_⟩
    rcases hab with hab | ⟨hi, hab⟩
    · rcases hbc with hbc | ⟨hi', -⟩
      · exact .inl (Nat.lt_trans hab hbc)
      · exact .inl (hi' ▸ hab)
    rcases hbc with hbc | ⟨hi', hbc⟩
    · exact .inl (hi ▸ hbc)
    refine .inr ⟨hi.trans hi', ?_⟩
    rcases hab with hab | ⟨hg, hab⟩
    · rcases hbc with hbc | ⟨hg', -⟩
      · exact .inl (Nat.lt_trans hab hbc)
      · exact .inl (hg' ▸ hab)
    rcases hbc with hbc | ⟨hg', hbc⟩
    · exact .inl (hg ▸ hbc)
    exact .inr ⟨hg.trans hg', List.lt_trans hab hbc⟩
  trichotomous a b hab hba := by
    rw [lt_iff] at hab hba
    push Not at hab hba
    obtain ⟨hd₁, hab⟩ := hab
    obtain ⟨hd₂, hba⟩ := hba
    have hdomain : a.domain = b.domain := ordinal_injective (by omega)
    obtain ⟨hi₁, hab⟩ := hab hdomain
    obtain ⟨hi₂, hba⟩ := hba hdomain.symm
    have hid : a.id = b.id := toNat_id_injective (by omega)
    obtain ⟨hg₁, hab⟩ := hab hid
    obtain ⟨hg₂, hba⟩ := hba hid.symm
    have hgeneration : a.generation = b.generation := UInt64.toNat_inj.mp (by omega)
    have hlabel : a.label = b.label :=
      List.le_antisymm (List.not_lt.mp (hba hgeneration.symm)) (List.not_lt.mp (hab hgeneration))
    cases a
    cases b
    cases hdomain
    cases hid
    cases hgeneration
    cases hlabel
    rfl

end BindingRef

/-! ## The canonical form -/

/-- Every id is used in one domain only. -/
def BindingSet.SingleDomain (s : BindingSet) : Prop :=
  ∀ a ∈ s.refs, ∀ b ∈ s.refs, a.id = b.id → a.domain = b.domain

theorem BindingSet.canonicalize_refs (s : BindingSet) :
    s.canonicalize.refs = canonicalBy (fun a b => a.lt b = true) BindingRef.id s.refs := rfl

/-- References of one id in one domain are contiguous. -/
theorem BindingSet.SingleDomain.contiguous {s : BindingSet} (h : s.SingleDomain) :
    ∀ a ∈ s.refs, ∀ b ∈ s.refs, ∀ c ∈ s.refs, a.lt b = true → b.lt c = true → a.id = c.id →
      b.id = a.id := by
  intro a ha b hb c hc hab hbc hid
  have hdomain := h a ha c hc hid
  rw [BindingRef.lt_iff] at hab hbc
  rw [← hdomain, ← hid] at hbc
  rcases hab with hab | ⟨hd, hab⟩
  · rcases hbc with hbc | ⟨hd, -⟩
    · omega
    · rw [hd] at hab
      omega
  rcases hbc with hbc | ⟨-, hbc⟩
  · rw [hd] at hbc
    omega
  rcases hab with hab | ⟨hi, -⟩
  · rcases hbc with hbc | ⟨hi, -⟩
    · omega
    · exact hi
  · exact hi.symm

/-- What makes `t` the canonical form of `s`. -/
structure BindingSet.CanonicalForm (s t : BindingSet) : Prop where
  idempotent : t.canonicalize = t
  permutation : ∀ s' : BindingSet, s'.refs.Perm s.refs → s'.canonicalize = t
  ascending : t.refs.Pairwise fun a b => a.lt b = true
  subset : ∀ r ∈ t.refs, r ∈ s.refs
  neighbours : t.refs.IsChain fun a b => a.id ≠ b.id
  complete : ∀ r ∈ s.refs, ∃ r' ∈ t.refs, r'.id = r.id
  distinct : s.SingleDomain → t.refs.Pairwise fun a b => a.id ≠ b.id
  least : s.SingleDomain → ∀ r ∈ t.refs, ∀ r' ∈ s.refs, r'.id = r.id → r'.lt r = false

/-- `canonicalize` puts every binding set into canonical form. -/
theorem canonicalize_canonicalForm (s : BindingSet) : s.CanonicalForm s.canonicalize where
  idempotent := by
    unfold BindingSet.canonicalize
    exact congrArg BindingSet.mk
      (canonicalBy_idem (fun a b : BindingRef => a.lt b = true) BindingRef.id s.refs)
  permutation := by
    intro s' hperm
    exact congrArg BindingSet.mk
      (canonicalBy_congr (fun a b : BindingRef => a.lt b = true) BindingRef.id hperm)
  ascending := pairwise_canonicalBy (fun a b : BindingRef => a.lt b = true) BindingRef.id s.refs
  subset := fun r hr => mem_of_mem_canonicalBy (fun a b : BindingRef => a.lt b = true)
    BindingRef.id hr
  neighbours := isChain_canonicalBy (fun a b : BindingRef => a.lt b = true) BindingRef.id s.refs
  complete := by
    intro r hr
    obtain ⟨r', hr', hid, -⟩ :=
      exists_mem_canonicalBy (fun a b : BindingRef => a.lt b = true) BindingRef.id hr
    exact ⟨r', hr', hid⟩
  distinct := fun h =>
    pairwise_key_canonicalBy (fun a b : BindingRef => a.lt b = true) h.contiguous
  least := by
    intro h r hr r' hr' hid
    have hnot := least_of_mem_canonicalBy (fun a b : BindingRef => a.lt b = true) h.contiguous hr
      hr' hid
    simpa using hnot

/-! ## The defect check -/

/-- What a binding set has to satisfy: ids are used once and established, labels are short. -/
structure BindingSet.WellFormed (s : BindingSet) : Prop where
  distinct : s.refs.Pairwise fun a b => a.id ≠ b.id
  sound : ∀ r ∈ s.refs, r.id ≠ .nil ∧ r.generation ≠ 0 ∧ r.label.length ≤ 256

/-- Some reference of the list lies strictly between `a` and `b`. -/
def Separated (refs : List BindingRef) (a b : BindingRef) : Prop :=
  ∃ c ∈ refs, (a.lt c = true ∧ c.lt b = true) ∨ (b.lt c = true ∧ c.lt a = true)

/-- Some id is used twice, any two references of one id have another one between them, and nothing
is wrong with the references themselves. -/
structure BindingSet.Hidden (s : BindingSet) : Prop where
  repeated : ¬ s.refs.Pairwise fun a b => a.id ≠ b.id
  separated : s.refs.Pairwise fun a b => a.id = b.id → Separated s.refs a b
  sound : ∀ r ∈ s.refs, r.id ≠ .nil ∧ r.generation ≠ 0 ∧ r.label.length ≤ 256

section Defects

theorem bindingRefDefect_none_iff (r : BindingRef) :
    bindingRefDefect r = none ↔ r.id ≠ .nil ∧ r.generation ≠ 0 ∧ r.label.length ≤ 256 := by
  unfold bindingRefDefect
  rw [← Id.valid_iff]
  split
  next h => simp [h]
  next h =>
    rw [not_not] at h
    split
    next h' => simp [h']
    next h' =>
      split
      next h'' =>
        simp only [reduceCtorEq, false_iff]
        omega
      next h'' =>
        simp only [true_iff]
        exact ⟨h, h', by omega⟩

theorem duplicateBindingDefect_none_iff (l : List BindingRef) :
    duplicateBindingDefect l = none ↔ l.IsChain fun a b => a.id ≠ b.id := by
  induction l with
  | nil => simp [duplicateBindingDefect]
  | cons a rest ih =>
    cases rest with
    | nil => simp [duplicateBindingDefect]
    | cons b rest =>
      rw [List.isChain_cons_cons, ← ih, duplicateBindingDefect]
      split
      next heq =>
        split <;> simp [heq]
      next hne => simp [hne]

/-- The references in ascending order. -/
def ascendingRefs (s : BindingSet) : List BindingRef :=
  sortBy (fun a b => a.lt b = true) s.refs

theorem bindingSetDefect_none_iff (s : BindingSet) : bindingSetDefect s = none ↔
    (ascendingRefs s).IsChain (fun a b => a.id ≠ b.id) ∧
      ∀ r ∈ s.refs, r.id ≠ .nil ∧ r.generation ≠ 0 ∧ r.label.length ≤ 256 := by
  have hsound : s.refs.findSome? bindingRefDefect = none ↔
      ∀ r ∈ s.refs, r.id ≠ .nil ∧ r.generation ≠ 0 ∧ r.label.length ≤ 256 := by
    rw [List.findSome?_eq_none_iff]
    exact forall₂_congr fun r _ => bindingRefDefect_none_iff r
  rw [← duplicateBindingDefect_none_iff, ← hsound]
  have hsorted : (s.refs.insertionSort fun a b => ¬ b.lt a) = ascendingRefs s := rfl
  rw [bindingSetDefect, hsorted]
  cases duplicateBindingDefect (ascendingRefs s) <;> simp

theorem pairwise_ascendingRefs (s : BindingSet) :
    (ascendingRefs s).Pairwise fun a b => ¬ b.lt a = true :=
  pairwise_sortBy (fun a b : BindingRef => a.lt b = true) s.refs

theorem perm_ascendingRefs (s : BindingSet) : (ascendingRefs s).Perm s.refs :=
  List.perm_insertionSort _ _

theorem pairwise_distinct_perm {l l' : List BindingRef} (h : l.Perm l') :
    (l.Pairwise fun a b => a.id ≠ b.id) ↔ l'.Pairwise fun a b => a.id ≠ b.id :=
  h.pairwise_iff fun hne heq => hne heq.symm

/-- Between neighbours in ascending order lies no reference. -/
theorem not_separated_neighbours {l l₁ l₂ : List BindingRef} {a b : BindingRef}
    (hl : l.Pairwise fun a b => ¬ b.lt a = true) (heq : l = l₁ ++ a :: b :: l₂) :
    ¬ Separated l a b := by
  have hirrefl : ∀ r : BindingRef, ¬ r.lt r = true := fun r =>
    irrefl_of (fun a b : BindingRef => a.lt b = true) r
  subst heq
  rw [List.pairwise_append, List.pairwise_cons, List.pairwise_cons] at hl
  obtain ⟨-, ⟨ha, hb, -⟩, hbefore⟩ := hl
  rintro ⟨c, hc, hbetween⟩
  rw [List.mem_append, List.mem_cons, List.mem_cons] at hc
  rcases hc with hc | rfl | rfl | hc
  · rcases hbetween with ⟨h, -⟩ | ⟨h, -⟩
    · exact hbefore c hc a (by simp) h
    · exact hbefore c hc b (by simp) h
  · rcases hbetween with ⟨h, -⟩ | ⟨-, h⟩ <;> exact hirrefl c h
  · rcases hbetween with ⟨-, h⟩ | ⟨h, -⟩ <;> exact hirrefl c h
  · rcases hbetween with ⟨-, h⟩ | ⟨-, h⟩
    · exact hb c hc h
    · exact ha c (by simp [hc]) h

/-- Where neighbours have different ids, references of one id are separated. -/
theorem separated_of_isChain {l : List BindingRef}
    (hl : l.Pairwise fun a b => ¬ b.lt a = true) (hchain : l.IsChain fun a b => a.id ≠ b.id) :
    l.Pairwise fun a b => a.id = b.id → Separated l a b := by
  have hstrict : ∀ {a b : BindingRef}, ¬ b.lt a = true → a.id ≠ b.id → a.lt b = true := by
    intro a b hnot hne
    rcases trichotomous_of (fun a b : BindingRef => a.lt b = true) a b with h | h | h
    · exact h
    · exact absurd (congrArg BindingRef.id h) hne
    · exact absurd h hnot
  induction l with
  | nil => exact .nil
  | cons a rest ih =>
    rw [List.pairwise_cons] at hl
    obtain ⟨ha, hrest⟩ := hl
    refine List.pairwise_cons.mpr ⟨fun b hb hid => ?_, (ih hrest hchain.tail).imp ?_⟩
    · cases rest with
      | nil => cases hb
      | cons c rest =>
        have hnext : a.id ≠ c.id := hchain.rel
        rcases List.mem_cons.mp hb with rfl | hb
        · exact absurd hid hnext
        · have hcb : ¬ b.lt c = true := List.rel_of_pairwise_cons hrest hb
          exact ⟨c, by simp, .inl ⟨hstrict (ha c (by simp)) hnext,
            hstrict hcb fun heq => hnext (hid.trans heq.symm)⟩⟩
    · intro x y hxy hid
      obtain ⟨c, hc, hbetween⟩ := hxy hid
      exact ⟨c, List.mem_cons_of_mem _ hc, hbetween⟩

/-- Separation does not depend on the order of the references. -/
theorem pairwise_separated_perm {l l' : List BindingRef} (h : l.Perm l') :
    (l.Pairwise fun a b => a.id = b.id → Separated l a b) ↔
      l'.Pairwise fun a b => a.id = b.id → Separated l' a b := by
  have hsame : ∀ a b, Separated l a b ↔ Separated l' a b := fun a b => by
    unfold Separated
    simp only [h.mem_iff]
  have hsymm : ∀ {a b : BindingRef}, (a.id = b.id → Separated l' a b) →
      b.id = a.id → Separated l' b a := by
    intro a b hab hid
    obtain ⟨c, hc, hbetween⟩ := hab hid.symm
    exact ⟨c, hc, hbetween.symm⟩
  simp only [hsame]
  exact h.pairwise_iff hsymm

/-- Neighbours have different ids exactly when references of one id are separated. -/
theorem isChain_iff_separated (s : BindingSet) :
    (ascendingRefs s).IsChain (fun a b => a.id ≠ b.id) ↔
      s.refs.Pairwise fun a b => a.id = b.id → Separated s.refs a b := by
  rw [← pairwise_separated_perm (perm_ascendingRefs s)]
  have hascending := pairwise_ascendingRefs s
  constructor
  · exact separated_of_isChain hascending
  · intro hseparated
    rw [List.isChain_iff_forall_rel_of_append_cons_cons]
    intro a b l₁ l₂ heq hid
    refine not_separated_neighbours hascending heq ?_
    have hpair := hseparated
    rw [heq, List.pairwise_append, List.pairwise_cons, ← heq] at hpair
    exact hpair.2.1.1 b (by simp) hid

theorem bindingSetDefect_iff (s : BindingSet) :
    bindingSetDefect s = none ↔ s.WellFormed ∨ s.Hidden := by
  rw [bindingSetDefect_none_iff, isChain_iff_separated]
  constructor
  · rintro ⟨hseparated, hsound⟩
    by_cases hdistinct : s.refs.Pairwise fun a b => a.id ≠ b.id
    · exact .inl ⟨hdistinct, hsound⟩
    · exact .inr ⟨hdistinct, hseparated, hsound⟩
  · rintro (hwell | hhidden)
    · exact ⟨hwell.distinct.imp fun hne heq => absurd heq hne, hwell.sound⟩
    · exact ⟨hhidden.separated, hhidden.sound⟩

end Defects

/-! ## Comparing generations -/

namespace BindingSet

variable {s t u : BindingSet}

theorem covers_iff : s.covers t = true ↔
    ∀ r ∈ s.refs, ∃ m, t.find r.id = some m ∧ m.generation = r.generation := by
  unfold covers
  rw [List.all_eq_true]
  refine forall₂_congr fun r _ => ?_
  cases t.find r.id with
  | none => simp
  | some m => simp

theorem find_some {i : BindingId} {m : BindingRef} (h : t.find i = some m) :
    m ∈ t.refs ∧ m.id = i :=
  ⟨List.mem_of_find?_eq_some h, by simpa using List.find?_some h⟩

theorem covers_trans (h : s.covers t = true) (h' : t.covers u = true) : s.covers u = true := by
  rw [covers_iff] at *
  intro r hr
  obtain ⟨m, hm, hgeneration⟩ := h r hr
  obtain ⟨hmem, hid⟩ := find_some hm
  obtain ⟨m', hm', hgeneration'⟩ := h' m hmem
  exact ⟨m', hid ▸ hm', hgeneration'.trans hgeneration⟩

/-- Where ids are distinct, a reference is found under its id. -/
theorem find_of_distinct (h : s.refs.Pairwise fun a b => a.id ≠ b.id) {r : BindingRef}
    (hr : r ∈ s.refs) : s.find r.id = some r := by
  cases hfound : s.find r.id with
  | none =>
    have := List.find?_eq_none.mp hfound r hr
    simp at this
  | some m =>
    obtain ⟨hm, hid⟩ := find_some hfound
    by_contra hne
    have hsymm : Std.Symm fun a b : BindingRef => a.id ≠ b.id := ⟨fun _ _ h heq => h heq.symm⟩
    exact h.forall hm hr (fun heq => hne (congrArg some heq)) hid

theorem find_perm (h : s.refs.Pairwise fun a b => a.id ≠ b.id) (hperm : t.refs.Perm s.refs)
    (i : BindingId) : t.find i = s.find i := by
  have ht := (pairwise_distinct_perm hperm).mpr h
  cases hfound : s.find i with
  | some m =>
    obtain ⟨hm, rfl⟩ := find_some hfound
    exact find_of_distinct ht (hperm.mem_iff.mpr hm)
  | none =>
    refine List.find?_eq_none.mpr fun r hr => ?_
    exact List.find?_eq_none.mp hfound r (hperm.mem_iff.mp hr)

/-- The order of references with distinct ids does not matter to the comparison. -/
theorem equalsGenerations_perm (h : s.refs.Pairwise fun a b => a.id ≠ b.id)
    (hperm : t.refs.Perm s.refs) (u : BindingSet) :
    t.equalsGenerations u = s.equalsGenerations u := by
  unfold equalsGenerations covers
  rw [hperm.all_eq]
  simp only [find_perm h hperm]

end BindingSet

/-- The defect check is exact for `s`, and what it accepts is compared and canonicalized as a set. -/
structure DefectExact (s : BindingSet) : Prop where
  exact : bindingSetDefect s = none ↔ s.WellFormed
  reflexive : bindingSetDefect s = none → s.equalsGenerations s = true
  symmetric : ∀ t : BindingSet, s.equalsGenerations t = t.equalsGenerations s
  transitive : ∀ t u : BindingSet, s.equalsGenerations t = true → t.equalsGenerations u = true →
    s.equalsGenerations u = true
  unordered : bindingSetDefect s = none → ∀ s' : BindingSet, s'.refs.Perm s.refs →
    ∀ t, s'.equalsGenerations t = s.equalsGenerations t
  kept : bindingSetDefect s = none → s.canonicalize.refs.Perm s.refs

/-- The defect check is exact for every set but those whose repeated ids are all separated. -/
theorem binding_set_defect_exact_iff (s : BindingSet) : DefectExact s ↔ ¬ s.Hidden := by
  constructor
  · intro h hhidden
    exact hhidden.repeated (h.exact.mp ((bindingSetDefect_iff s).mpr (.inr hhidden))).distinct
  · intro hvisible
    have hexact : bindingSetDefect s = none ↔ s.WellFormed :=
      (bindingSetDefect_iff s).trans (or_iff_left hvisible)
    refine ⟨hexact, ?_, ?_, ?_, ?_, ?_⟩
    · intro hnone
      rw [BindingSet.equalsGenerations, Bool.and_self, BindingSet.covers_iff]
      exact fun r hr => ⟨r, BindingSet.find_of_distinct (hexact.mp hnone).distinct hr, rfl⟩
    · intro t
      exact Bool.and_comm _ _
    · intro t u hst htu
      simp only [BindingSet.equalsGenerations, Bool.and_eq_true] at *
      exact ⟨BindingSet.covers_trans hst.1 htu.1, BindingSet.covers_trans htu.2 hst.2⟩
    · intro hnone s' hperm t
      exact BindingSet.equalsGenerations_perm (hexact.mp hnone).distinct hperm t
    · intro hnone
      have hdistinct := (pairwise_distinct_perm (perm_ascendingRefs s)).mpr
        (hexact.mp hnone).distinct
      have hrefs : s.canonicalize.refs = ascendingRefs s := by
        rw [BindingSet.canonicalize_refs]
        show ((ascendingRefs s).destutter (· ≠ ·)).destutter (fun a b => a.id ≠ b.id) = _
        have hids : (ascendingRefs s).IsChain fun a b => a.id ≠ b.id := hdistinct.isChain
        have hne : (ascendingRefs s).IsChain (· ≠ ·) :=
          hids.imp fun a b hne heq => hne (congrArg BindingRef.id heq)
        rw [List.destutter_of_isChain _ _ hne, List.destutter_of_isChain _ _ hids]
      rw [hrefs]
      exact perm_ascendingRefs s

/-- One id in two domains, with another reference between the two. -/
def overlookedBindings : BindingSet :=
  { refs := [{ domain := .memory, id := ⟨5⟩, generation := 1 },
      { domain := .memory, id := ⟨7⟩, generation := 1 },
      { domain := .model, id := ⟨5⟩, generation := 2 }] }

/-- The check accepts a repeated id, and the accepted set does not even equal itself. -/
theorem binding_set_defect_overlooks : bindingSetDefect overlookedBindings = none ∧
    ¬ overlookedBindings.WellFormed ∧
    overlookedBindings.equalsGenerations overlookedBindings = false := by
  refine ⟨by decide, fun h => ?_, by decide⟩
  have hdistinct : ¬ overlookedBindings.refs.Pairwise fun a b => a.id ≠ b.id := by decide
  exact hdistinct h.distinct

end ExecutionFabric
