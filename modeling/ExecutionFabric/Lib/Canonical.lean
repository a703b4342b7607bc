import Mathlib.Data.List.Sort
import Mathlib.Data.List.Destutter

/-!
# Canonical lists

A list is put into canonical form by sorting it, dropping repeated elements, and then
dropping neighbours with the same key. The order's leading part need not be the key, so
equal keys are only known to be gone between neighbours; where equal keys are
contiguous in the order, the form keeps exactly the least element of every key.
-/
namespace ExecutionFabric.Lib

variable {α κ : Type} (r : α → α → Prop) [DecidableRel r] [DecidableEq α] [DecidableEq κ]
  (f : α → κ)

/-- The list in ascending order. -/
def sortBy (l : List α) : List α := l.insertionSort fun a b => ¬ r b a

/-- The ascending list without neighbours of one key. -/
def canonicalBy (l : List α) : List α :=
  ((sortBy r l).destutter (· ≠ ·)).destutter fun a b => f a ≠ f b

section Kept

variable {r}

omit [DecidableRel r] [DecidableEq α] in
/-- Of the elements with one key, the first of a run is kept. -/
theorem exists_kept [Std.Irrefl r] {f : α → κ} {l : List α} {a : α}
    (hl : (a :: l).Pairwise fun x y => ¬ r y x) :
    ∀ x ∈ a :: l, ∃ c ∈ l.destutter' (fun x y => f x ≠ f y) a, f c = f x ∧ ¬ r x c := by
  induction l generalizing a with
  | nil =>
    intro x hx
    obtain rfl := List.mem_singleton.mp hx
    exact ⟨x, List.mem_destutter' _ _ x, rfl, irrefl x⟩
  | cons b rest ih =>
    rw [List.pairwise_cons] at hl
    obtain ⟨hhead, htail⟩ := hl
    have hskip : (a :: rest).Pairwise fun x y => ¬ r y x :=
      List.pairwise_cons.mpr ⟨fun y hy => hhead y (List.mem_cons_of_mem _ hy), htail.of_cons⟩
    intro x hx
    by_cases hkey : f a ≠ f b
    · rw [List.destutter'_cons_pos (R := fun x y => f x ≠ f y) _ hkey]
      rcases List.mem_cons.mp hx with rfl | hx
      · exact ⟨x, List.mem_cons_self, rfl, irrefl x⟩
      · obtain ⟨c, hc, hsame, hle⟩ := ih htail x hx
        exact ⟨c, List.mem_cons_of_mem _ hc, hsame, hle⟩
    · rw [List.destutter'_cons_neg (R := fun x y => f x ≠ f y) _ hkey]
      rw [not_not] at hkey
      rcases List.mem_cons.mp hx with rfl | hx
      · exact ih hskip x List.mem_cons_self
      · rcases List.mem_cons.mp hx with rfl | hx
        · obtain ⟨c, hc, hsame, hle⟩ := ih hskip a List.mem_cons_self
          exact ⟨a, List.mem_destutter' _ _ a, hkey, hhead x List.mem_cons_self⟩
        · exact ih hskip x (List.mem_cons_of_mem _ hx)

omit [DecidableRel r] [DecidableEq α] in
theorem exists_kept_destutter [Std.Irrefl r] {f : α → κ} {l : List α}
    (hl : l.Pairwise fun x y => ¬ r y x) :
    ∀ x ∈ l, ∃ c ∈ l.destutter (fun x y => f x ≠ f y), f c = f x ∧ ¬ r x c := by
  cases l with
  | nil =>
    intro x hx
    cases hx
  | cons a rest => exact exists_kept hl

end Kept

section Order

variable [IsStrictTotalOrder α r]

omit [DecidableEq α] in
theorem pairwise_sortBy (l : List α) : (sortBy r l).Pairwise fun a b => ¬ r b a := by
  have htotal : Std.Total (fun a b : α => ¬ r b a) := by
    refine ⟨fun a b => ?_⟩
    by_cases h : r b a
    · exact .inr (asymm h)
    · exact .inl h
  have htrans : IsTrans α (fun a b => ¬ r b a) := by
    refine ⟨fun a b c hab hbc hca => ?_⟩
    rcases trichotomous_of r a b with h | rfl | h
    · exact hbc (IsTrans.trans _ _ _ hca h)
    · exact hbc hca
    · exact hab h
  exact List.pairwise_insertionSort _ l

omit [DecidableEq α] in
/-- The ascending list does not depend on the order of the input. -/
theorem sortBy_congr {l l' : List α} (h : l.Perm l') : sortBy r l = sortBy r l' := by
  have hperm : (sortBy r l).Perm (sortBy r l') :=
    (List.perm_insertionSort _ l).trans (h.trans (List.perm_insertionSort _ l').symm)
  have hsorted : (sortBy r l).Pairwise fun a b => ¬ r b a := pairwise_sortBy r l
  refine hperm.eq_of_pairwise ?_ hsorted (pairwise_sortBy r l')
  intro a b _ _ hab hba
  rcases trichotomous_of r a b with h | h | h
  · exact absurd h hba
  · exact h
  · exact absurd h hab

omit [DecidableRel r] in
/-- An ascending list without repetitions is strictly ascending. -/
theorem pairwise_destutter {l : List α} (hl : l.Pairwise fun a b => ¬ r b a) :
    (l.destutter (· ≠ ·)).Pairwise r := by
  have hle : (l.destutter (· ≠ ·)).IsChain fun a b => ¬ r b a :=
    (hl.sublist (List.destutter_sublist _ l)).isChain
  have hne : (l.destutter (· ≠ ·)).IsChain (· ≠ ·) := List.isChain_destutter _ l
  rw [← List.isChain_iff_pairwise, List.isChain_iff_forall_rel_of_append_cons_cons]
  intro a b l₁ l₂ heq
  have hnot : ¬ r b a := List.isChain_iff_forall_rel_of_append_cons_cons.mp hle heq
  have hdiffer : a ≠ b := List.isChain_iff_forall_rel_of_append_cons_cons.mp hne heq
  rcases trichotomous_of r a b with h | h | h
  · exact h
  · exact absurd h hdiffer
  · exact absurd h hnot

theorem pairwise_canonicalBy (l : List α) : (canonicalBy r f l).Pairwise r :=
  (pairwise_destutter r (pairwise_sortBy r l)).sublist (List.destutter_sublist _ _)

theorem canonicalBy_congr {l l' : List α} (h : l.Perm l') :
    canonicalBy r f l = canonicalBy r f l' := by
  rw [canonicalBy, canonicalBy, sortBy_congr r h]

omit [IsStrictTotalOrder α r] in
theorem mem_of_mem_canonicalBy {l : List α} {a : α} (h : a ∈ canonicalBy r f l) : a ∈ l := by
  have hfirst := (List.destutter_sublist _ _).subset h
  have hsorted := (List.destutter_sublist _ _).subset hfirst
  exact (List.mem_insertionSort _).mp hsorted

omit [IsStrictTotalOrder α r] in
theorem isChain_canonicalBy (l : List α) : (canonicalBy r f l).IsChain fun a b => f a ≠ f b :=
  List.isChain_destutter (R := fun a b => f a ≠ f b) _

/-- A strictly ascending list whose neighbours have different keys is its own canonical form. -/
theorem canonicalBy_eq_self {l : List α} (hr : l.Pairwise r)
    (hf : l.IsChain fun a b => f a ≠ f b) : canonicalBy r f l = l := by
  have hsorted : sortBy r l = l := by
    have hascending : (sortBy r l).Pairwise fun a b => ¬ r b a := pairwise_sortBy r l
    refine (List.perm_insertionSort _ l).eq_of_pairwise ?_ hascending (hr.imp fun h => asymm h)
    intro a b _ _ hab hba
    rcases trichotomous_of r a b with h | h | h
    · exact absurd h hba
    · exact h
    · exact absurd h hab
  have hne : l.IsChain (· ≠ ·) := hf.imp fun a b h heq => h (congrArg f heq)
  rw [canonicalBy, hsorted, List.destutter_of_isChain _ l hne, List.destutter_of_isChain _ l hf]

theorem canonicalBy_idem (l : List α) :
    canonicalBy r f (canonicalBy r f l) = canonicalBy r f l :=
  canonicalBy_eq_self r f (pairwise_canonicalBy r f l) (isChain_canonicalBy r f l)

/-- Every key survives, with an element that is not greater. -/
theorem exists_mem_canonicalBy {l : List α} {a : α} (ha : a ∈ l) :
    ∃ c ∈ canonicalBy r f l, f c = f a ∧ ¬ r a c := by
  have hsorted : a ∈ sortBy r l := (List.mem_insertionSort _).mpr ha
  have hle := pairwise_sortBy r l
  obtain ⟨b, hb, rfl, -⟩ := exists_kept_destutter (f := id) hle a hsorted
  have hstrict := pairwise_destutter r hle
  exact exists_kept_destutter (hstrict.imp fun h => asymm h) _ hb

variable {f}

/-- Where elements of one key are contiguous in the order, keys are distinct in the form. -/
theorem pairwise_key_canonicalBy {l : List α}
    (hcontiguous : ∀ a ∈ l, ∀ b ∈ l, ∀ c ∈ l, r a b → r b c → f a = f c → f b = f a) :
    (canonicalBy r f l).Pairwise fun a b => f a ≠ f b := by
  have hmem : ∀ a ∈ canonicalBy r f l, a ∈ l := fun a => mem_of_mem_canonicalBy r f
  have hstrict := pairwise_canonicalBy r f l
  have hchain := isChain_canonicalBy r f l
  generalize canonicalBy r f l = m at *
  induction m with
  | nil => exact .nil
  | cons a rest ih =>
    rw [List.pairwise_cons] at hstrict
    refine List.pairwise_cons.mpr ⟨fun c hc => ?_, ih (fun b hb => hmem b
      (List.mem_cons_of_mem _ hb)) hstrict.2 hchain.tail⟩
    cases rest with
    | nil => cases hc
    | cons b rest =>
      have hnext : f a ≠ f b := hchain.rel
      rcases List.mem_cons.mp hc with rfl | hc
      · exact hnext
      · intro hsame
        have hbc : r b c := List.rel_of_pairwise_cons hstrict.2 hc
        refine hnext (hcontiguous a (hmem a (by simp)) b (hmem b (by simp)) c
          (hmem c (by simp [hc])) (hstrict.1 b (by simp)) hbc hsame).symm

/-- Where elements of one key are contiguous in the order, the least one is kept. -/
theorem least_of_mem_canonicalBy {l : List α}
    (hcontiguous : ∀ a ∈ l, ∀ b ∈ l, ∀ c ∈ l, r a b → r b c → f a = f c → f b = f a)
    {a b : α} (hb : b ∈ canonicalBy r f l) (ha : a ∈ l) (hkey : f a = f b) : ¬ r a b := by
  intro hlt
  obtain ⟨c, hc, hsame, hle⟩ := exists_mem_canonicalBy r f ha
  have hcb : c = b := by
    by_contra hne
    have hsymm : Std.Symm fun a b => f a ≠ f b := ⟨fun _ _ h heq => h heq.symm⟩
    exact (pairwise_key_canonicalBy r hcontiguous).forall hc hb hne (hsame.trans hkey)
  exact hle (hcb ▸ hlt)

end Order

end ExecutionFabric.Lib
