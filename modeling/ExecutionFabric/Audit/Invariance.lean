import ExecutionFabric.Audit.Tokens
import ExecutionFabric.Audit.Succession

/-!
# Invariants of images over restarts

`Invariance` is what an invariant of images has to satisfy to hold in every state of a
run that keeps the whole journal: one obligation for each way a call changes memory.
Calls may be admitted under a condition on the state they meet; what the condition gives
for the recoveries of an open is carried along the list of executions left to recover.
-/
namespace ExecutionFabric

open Lib

/-- `P` is kept by every admitted call. `R` holds while an open recovers executions. -/
structure Invariance (ds : List Derivation) (P : Image → Prop)
    (R : List ExecutionId → Journaled → Prop) (admits : Runtime → Call → Prop) : Prop where
  vacant : ∀ {s : Runtime} {config : RuntimeConfig} {entropy : UInt64} {m : Image},
    admits s (.openRuntime config entropy) → s.store.directory = none → m.Vacant → P m
  agrees : ∀ {m m' : Image}, m.Agrees m' → P m → P m'
  transaction : ∀ {s : Runtime} {c : Call} {i : Intent} {es : List JournalEntry}, admits s c →
    c.intent = some i → (c.perform s).toJournaled = s.toJournaled.write es →
    Working ds s.toJournaled → P s.state.image → Transaction s.toJournaled i es →
    Minted ds s.state.store es → P (s.toJournaled.write es).state.image
  lose : ∀ {j : Journaled} {e : ExecutionId} {es : List JournalEntry}, Working ds j →
    P j.state.image → Transaction j (.lose e) es → Minted ds j.state.store es →
    P (j.write es).state.image
  restart : ∀ {s : Runtime} {config : RuntimeConfig} {entropy : UInt64} {j : Journaled},
    admits s (.openRuntime config entropy) →
    (∀ d, s.store.directory = some d → d.image.Agrees j.state.image) → P j.state.image →
    Working ds j → Reloads s config entropy j →
    (j.write (restartRecords j)).state.image = j.state.image.reopened →
    R (pendingOf (j.write (restartRecords j)).state) (j.write (restartRecords j))
  skip : ∀ {j : Journaled} {e : ExecutionId} {ids : List ExecutionId}, R (e :: ids) j → R ids j
  recover : ∀ {j : Journaled} {e : ExecutionId} {ids : List ExecutionId} {es : List JournalEntry},
    Working ds j → R (e :: ids) j → Transaction j (.recover e) es → Minted ds j.state.store es →
    R ids (j.write es)
  reopened : ∀ {j : Journaled}, Working ds j → R [] j → P j.state.image

/-- The restarts of a run lose nothing of the journal, and its calls are admitted. -/
def keepsJournalAnd (admits : Runtime → Call → Prop) (s : Runtime) (e : Event) : Prop :=
  keepsJournal s e ∧ ∀ c, e = .call c → admits s c

/-- `P` holds of memory and of the image on disk. -/
def preserving (P : Image → Prop) (R : List ExecutionId → Journaled → Prop)
    (admits : Runtime → Call → Prop) : Discipline where
  durable := fun _ => True
  rest := P
  reopening := R
  working := fun j => P j.state.image
  parked := P
  admits := keepsJournalAnd admits

section Invariances

variable {ds : List Derivation} {P : Image → Prop} {R : List ExecutionId → Journaled → Prop}
  {admits : Runtime → Call → Prop}

theorem Invariance.upheld (h : Invariance ds P R admits) : (preserving P R admits).Upheld ds where
  vacant := fun hallow hnone hvacant => ⟨trivial, h.vacant (hallow.2 _ rfl) hnone hvacant⟩
  rest_agrees := h.agrees
  settles := fun _ hw => ⟨trivial, hw, hw⟩
  transaction := fun hallow hi hj hworking hw ht hmint =>
    ⟨h.transaction (hallow.2 _ rfl) hi hj hworking hw ht hmint, fun _ _ _ _ _ => trivial⟩
  lose := fun hworking hw ht hmint => ⟨h.lose hworking hw ht hmint, fun _ _ _ _ _ => trivial⟩
  restart := by
    intro s config entropy m j hallow hd hrest hworking hagrees hreloads _ _
    refine ⟨h.restart (hallow.2 _ rfl) ?_ (h.agrees hagrees hrest) hworking
      hreloads (image_restartRecords hworking.coherent), fun _ _ _ _ _ => trivial⟩
    intro d hdirectory
    rw [← hd d hdirectory]
    exact hagrees
  skip := h.skip
  recover := fun hworking hR ht hmint => ⟨h.recover hworking hR ht hmint, fun _ _ _ _ _ => trivial⟩
  reopened := h.reopened
  crash := by
    intro s kept d hallow hd hsound _ hrest
    have hle : d.lastSequence ≤ max kept d.snapshotSequence :=
      Nat.le_trans (hallow.1 d hd) (Nat.le_max_left _ _)
    rw [Directory.cut_of_last_le hsound hle]
    exact hrest

/-- The run lemma for invariants of images. -/
theorem Invariance.keeps (h : Invariance ds P R admits) (hfree : CollisionFree ds)
    {s s' : Runtime} {events : List Event} (hrun : Runs (keepsJournalAnd admits) s events s')
    (hkept : Kept (preserving P R admits) ds s) (hds : s'.minted ⊆ ds) :
    Kept (preserving P R admits) ds s' :=
  h.upheld.keeps (fun _ _ hw => hw) hfree hrun hkept hds

/-- Memory satisfies the invariant, or was never loaded. -/
theorem Kept.preserved {s : Runtime} (h : Kept (preserving P R admits) ds s) :
    s.state = {} ∨ P s.state.image := by
  by_cases hopen : s.isOpen = true
  · obtain ⟨d, -, -, hw⟩ := h.running hopen
    exact .inr hw
  · rcases h.parked (Bool.eq_false_iff.mpr hopen) with ⟨-, hempty⟩ | ⟨d, -, -, hempty | hparked⟩
    · exact .inl hempty
    · exact .inl hempty
    · exact .inr hparked.2.2.2

theorem vacant_start : (({} : DurableState).image).Vacant := by
  constructor <;> exact fun _ => rfl

end Invariances

end ExecutionFabric
