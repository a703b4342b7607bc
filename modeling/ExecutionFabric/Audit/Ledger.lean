import ExecutionFabric.Audit.Finality

/-!
# The ledger of commits

A commit and its progress record are written together, under identities derived from the next
progress generation of their execution. No stored record can have these identities, so the ledger
only grows: over every call, restart and recovery what was committed stays as it was written.
-/
namespace ExecutionFabric

open Lib

/-- Every commit and every progress record of `m` is stored unchanged in `m'`. -/
structure Image.LedgerWithin (m m' : Image) : Prop where
  commits : ∀ k c, m.commits k = some c → m'.commits k = some c
  progress : ∀ k p, m.progress k = some p → m'.progress k = some p

section Ledgers

variable {m m' m'' : Image}

theorem Image.LedgerWithin.refl (m : Image) : m.LedgerWithin m :=
  ⟨fun _ _ h => h, fun _ _ h => h⟩

theorem Image.LedgerWithin.trans (h : m.LedgerWithin m') (h' : m'.LedgerWithin m'') :
    m.LedgerWithin m'' :=
  ⟨fun k c hc => h'.commits k c (h.commits k c hc),
    fun k p hp => h'.progress k p (h.progress k p hp)⟩

/-- The ledger is in these two tables. -/
theorem Image.LedgerWithin.of_tables (hcommits : m'.commits = m.commits)
    (hprogress : m'.progress = m.progress) : m.LedgerWithin m' := by
  refine ⟨fun k c hc => ?_, fun k p hp => ?_⟩
  · rw [hcommits]
    exact hc
  · rw [hprogress]
    exact hp

/-- Records inserted where none was stored replace nothing. -/
theorem Image.LedgerWithin.of_insert {c : CommitRecord} {p : ProgressRecord}
    (hcommits : m'.commits = m.commits.insert c) (hprogress : m'.progress = m.progress.insert p)
    (hc : m.commits c.id = none) (hp : m.progress p.id = none) : m.LedgerWithin m' := by
  refine ⟨fun k c' hc' => ?_, fun k p' hp' => ?_⟩
  · have hne : k ≠ c.id := by
      rintro rfl
      rw [hc] at hc'
      cases hc'
    rw [hcommits, KeyedMap.insert_of_ne _ hne]
    exact hc'
  · have hne : k ≠ p.id := by
      rintro rfl
      rw [hp] at hp'
      cases hp'
    rw [hprogress, KeyedMap.insert_of_ne _ hne]
    exact hp'

/-- An execution that reached a progress generation never falls behind it. -/
theorem Image.LedgerWithin.progressed (h : m.LedgerWithin m') (hm : m.Chained) (hm' : m'.Chained)
    {x y : ExecutionRecord} (hx : m.executions x.id = some x) (hy : m'.executions x.id = some y) :
    x.progressGeneration ≤ y.progressGeneration ∧ x.committedActions ≤ y.committedActions := by
  have hle : x.progressGeneration ≤ y.progressGeneration := by
    by_cases hzero : x.progressGeneration = 0
    · omega
    · obtain ⟨p, hp, howner, hgeneration⟩ :=
        hm.reached _ x x.progressGeneration hx (by omega) (Nat.le_refl _)
      obtain ⟨-, -, ⟨z, hz, hreached⟩, -⟩ := hm'.promoted _ p (h.progress _ p hp)
      rw [howner, hy] at hz
      obtain rfl := Option.some.inj hz
      omega
  refine ⟨hle, ?_⟩
  rw [hm.counted _ x hx, hm'.counted _ y hy]
  exact hle

end Ledgers

section Transactions

variable {ds : List Derivation} {j : Journaled} {i : Intent} {es : List JournalEntry}

/-- A transaction adds at most one commit, and it promotes its execution. -/
theorem Succession.ledger {x y : ExecutionRecord} {vs : List JournalEntry}
    (hs : Succession j i x y vs) (m : Image) :
    (∃ a g, Promotes x a g ∧ (m.installAll vs).commits = m.commits.insert g.commit ∧
      (m.installAll vs).progress = m.progress.insert g.progress) ∨
    ((m.installAll vs).commits = m.commits ∧ (m.installAll vs).progress = m.progress) := by
  cases hs with
  | @complete _ l a request htoken hrunning ha hdefect =>
    exact .inl ⟨a, _, commitGroupOf_promotes j.state x a request.request request.evidence, rfl, rfl⟩
  | @recoverCommit _ a request hlive hreceipt ha =>
    exact .inl ⟨a, _, commitGroupOf_promotes j.state x a request a.receipt, rfl, rfl⟩
  | @resolveCommit _ amb a request hamb howner hopen ha hresolution =>
    exact .inl ⟨a, _, commitGroupOf_promotes j.state x a request.request request.evidence, rfl, rfl⟩
  | _ => exact .inr ⟨rfl, rfl⟩

/-- A transaction leaves the ledger as it was, but for a commit with new identities. -/
theorem Transaction.ledgerWithin (hfree : CollisionFree ds) (hw : Working ds j)
    (ht : Transaction j i es) (hmint : Minted ds j.state.store es) :
    j.state.image.LedgerWithin (j.write es).state.image := by
  have hknown := hw.coherent.known
  have hknown' := (ht.working hfree hw hmint).coherent.known
  have hchained := hw.coherent.chained
  cases ht.outline with
  | created hi policy hes =>
    rw [hes, Journaled.image_write]
    exact .of_tables rfl rfl
  | @succeeded x y vs hx hsuccession hexecutions heffects =>
    rcases hsuccession.ledger j.state.image with
      ⟨a, g, hpromotes, hcommits, hprogress⟩ | ⟨hcommits, hprogress⟩
    · have hcommits' := heffects.commits.trans hcommits
      have hprogress' := heffects.progress.trans hprogress
      -- what is stored afterwards tells which identities were derived
      have hc : (j.write es).state.image.commits g.commit.id = some g.commit := by
        rw [hcommits', KeyedMap.insert_self]
      have hp : (j.write es).state.image.progress g.progress.id = some g.progress := by
        rw [hprogress', KeyedMap.insert_self]
      refine .of_insert hcommits' hprogress' ?_ ?_
      · exact hchained.commit_free hfree hknown hx hpromotes.owner
          (hpromotes.seals.generation.symm.trans hpromotes.generation)
          (hknown'.commits _ g.commit hc)
      · exact hchained.progress_free hfree hknown hx
          (hpromotes.seals.execution.trans hpromotes.owner) hpromotes.generation
          (hknown'.progress _ g.progress hp)
    · exact .of_tables (heffects.commits.trans hcommits) (heffects.progress.trans hprogress)

theorem ledger_invariance {m₀ : Image} (hfree : CollisionFree ds) :
    Invariance ds m₀.LedgerWithin (fun _ j => m₀.LedgerWithin j.state.image)
      fun s c => s.store.directory ≠ none ∧ anyCall s c where
  vacant := fun hallow hnone _ => absurd hnone hallow.1
  agrees := fun ha h => h.trans (.of_tables ha.commits ha.progress)
  transaction := fun _ _ _ hw h ht hmint => h.trans (ht.ledgerWithin hfree hw hmint)
  lose := fun hw h ht hmint => h.trans (ht.ledgerWithin hfree hw hmint)
  restart := fun _ _ h _ _ himage => himage ▸ h.trans (.of_tables rfl rfl)
  skip := fun h => h
  recover := fun hw h ht hmint => h.trans (ht.ledgerWithin hfree hw hmint)
  reopened := fun _ h => h

end Transactions

/-- The ambiguity of the cancelled execution is accepted, which commits its action. -/
def acceptedRuntime : Runtime :=
  performAll ((cancelledCalls ++ [acceptOf 1 (deriveExecutionId ⟨1⟩ 1) 1 .accepted]).map .call) {}

end ExecutionFabric
