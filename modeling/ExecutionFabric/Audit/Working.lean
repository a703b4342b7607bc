import ExecutionFabric.Audit.Lawful

/-!
# Memory between calls

While a runtime is open its memory is coherent, its action index is exact, and no
stored action is ahead of its execution's frontier. Every transaction and every
restart keeps this.
-/
namespace ExecutionFabric

open Lib

namespace Image

variable {ds : List Derivation} {m : Image}

theorem Known.keepsOwners (hfree : CollisionFree ds) (h : m.Known ds) {e : JournalEntry}
    (he : e.Derived ds m.store) : m.KeepsOwners e := by
  intro a ha b hb
  have hnamed : Named ds (.action a.execution a.sequence) a.id := by
    cases e with
    | action a' =>
      obtain rfl := List.mem_singleton.mp ha
      exact he
    | commitGroup g =>
      obtain rfl := List.mem_singleton.mp ha
      exact he.2.2.1
    | _ => cases ha
  exact (h.action_unique hfree hnamed hb).1

/-- Every action the records write is already stored. -/
def Revises (m : Image) (es : List JournalEntry) : Prop :=
  ∀ e ∈ es, ∀ a ∈ e.actions, ∃ b, m.actions a.key = some b

theorem Revises.of_idle {es : List JournalEntry} (h : ∀ e ∈ es, e.actions = []) :
    m.Revises es := by
  intro e he a ha
  rw [h e he] at ha
  cases ha

/-- Records never remove an action. -/
theorem stored_install {e : JournalEntry} {k : ActionKey} {b : ActionRecord}
    (h : m.actions k = some b) : ∃ b', (m.install e).actions k = some b' := by
  have hinsert : ∀ a : ActionRecord, ∃ b', m.actions.insert a k = some b' := by
    intro a
    by_cases hk : k = a.key
    · exact ⟨a, hk ▸ KeyedMap.insert_self _ _⟩
    · exact ⟨b, (KeyedMap.insert_of_ne _ hk).trans h⟩
  cases e with
  | action a => exact hinsert a
  | commitGroup g => exact hinsert g.action
  | _ => exact ⟨b, h⟩

theorem Revises.cons {e : JournalEntry} {es : List JournalEntry} (h : m.Revises (e :: es)) :
    (∀ a ∈ e.actions, ∃ b, m.actions a.key = some b) ∧ (m.install e).Revises es := by
  refine ⟨h e List.mem_cons_self, ?_⟩
  intro e' he' a ha
  obtain ⟨b, hb⟩ := h e' (List.mem_cons_of_mem _ he') a ha
  exact stored_install hb

theorem frontier_action (hfree : CollisionFree ds) (hk : m.Known ds) (h : m.Frontier)
    {a b : ActionRecord} (ha : Named ds (.action a.execution a.sequence) a.id)
    (hb : m.actions a.key = some b) {k : ActionKey} {a' : ActionRecord} {x : ExecutionRecord}
    (ha' : m.actions.insert a k = some a') (hx : m.executions a'.execution = some x) :
    a'.sequence ≤ x.actionFrontier := by
  rcases KeyedMap.insert_eq_some ha' with ⟨-, rfl⟩ | ⟨-, ha'⟩
  · obtain ⟨hexecution, hsequence⟩ := hk.action_unique hfree ha hb
    rw [← hsequence]
    exact h _ b x hb (hexecution ▸ hx)
  · exact h k a' x ha' hx

/-- A lawful record that begins no action keeps every action behind its frontier. -/
theorem Frontier.install (hfree : CollisionFree ds) (hc : m.Coherent ds) (h : m.Frontier)
    {e : JournalEntry} (he : e.Derived ds m.store) (hlawful : m.Lawful e)
    (hrevises : ∀ a ∈ e.actions, ∃ b, m.actions a.key = some b) : (m.install e).Frontier := by
  cases e with
  | execution x' =>
    intro k a x ha hx
    rcases KeyedMap.insert_eq_some hx with ⟨howner, rfl⟩ | ⟨-, hx⟩
    · rcases hlawful with hfresh | ⟨x₀, hx₀, hs⟩
      · obtain ⟨y, hy⟩ := hc.owned k a ha
        rw [howner, hfresh.free] at hy
        cases hy
      · refine Nat.le_trans (h k a x₀ ha ?_) hs.frontier
        rw [howner, hs.id]
        exact hx₀
    · exact h k a x ha hx
  | action a =>
    obtain ⟨b, hb⟩ := hrevises a (List.mem_singleton.mpr rfl)
    intro k a' x ha' hx
    exact frontier_action hfree hc.known h he hb ha' hx
  | commitGroup g =>
    obtain ⟨y, a, hg, hy, -, -⟩ := hlawful
    obtain ⟨b, hb⟩ := hrevises g.action (List.mem_singleton.mpr rfl)
    obtain ⟨epoch, hexecution⟩ := hg.execution
    have hid : g.execution.id = y.id := by rw [hexecution]; rfl
    have hfrontier : g.execution.actionFrontier = y.actionFrontier := by rw [hexecution]; rfl
    intro k a' x ha' hx
    rcases KeyedMap.insert_eq_some hx with ⟨howner, rfl⟩ | ⟨-, hx⟩
    · rw [hfrontier]
      exact frontier_action hfree hc.known h he.2.2.1 hb ha' (by rw [howner, hid]; exact hy)
    · exact frontier_action hfree hc.known h he.2.2.1 hb ha' hx
  | _ => exact h

theorem Frontier.installAll (hfree : CollisionFree ds) {es : List JournalEntry}
    (hc : m.Coherent ds) (h : m.Frontier) (hes : m.LawfulAll ds es) (hrevises : m.Revises es) :
    (m.installAll es).Frontier := by
  induction es generalizing m with
  | nil => exact h
  | cons e rest ih =>
    obtain ⟨hhead, hrest⟩ := hrevises.cons
    exact ih (hc.install hfree hes.1 hes.2.1) (h.install hfree hc hes.1 hes.2.1 hhead) hes.2.2 hrest

end Image

/-- What holds of memory while the runtime is open and no call is being served. -/
structure Working (ds : List Derivation) (j : Journaled) : Prop where
  coherent : j.state.image.Coherent ds
  indexed : Indexed j
  frontier : j.state.image.Frontier

theorem Indexed.write {ds : List Derivation} (hfree : CollisionFree ds) {j : Journaled}
    {es : List JournalEntry} (h : Indexed j) (hc : j.state.image.Coherent ds)
    (hes : j.state.image.LawfulAll ds es) : Indexed (j.write es) := by
  induction es generalizing j with
  | nil => exact h
  | cons e rest ih =>
    have himage := j.image_put e
    refine ih (h.put e (hc.known.keepsOwners hfree hes.1)) ?_ ?_
    · rw [himage]
      exact hc.install hfree hes.1 hes.2.1
    · rw [himage]
      exact hes.2.2

/-- Lawful records that begin no action keep memory in order. -/
theorem Working.write {ds : List Derivation} (hfree : CollisionFree ds) {j : Journaled}
    {es : List JournalEntry} (h : Working ds j) (hes : j.state.image.LawfulAll ds es)
    (hrevises : j.state.image.Revises es) : Working ds (j.write es) where
  coherent := by
    rw [Journaled.image_write]
    exact h.coherent.installAll hfree hes List.prefix_rfl
  indexed := h.indexed.write hfree h.coherent hes
  frontier := by
    rw [Journaled.image_write]
    exact h.frontier.installAll hfree h.coherent hes hrevises

section Actions

variable {j : Journaled} {x : ExecutionRecord}

theorem actions_continuations (cs : List ContinuationRecord) :
    ∀ e ∈ cs.map JournalEntry.continuation, e.actions = [] := by
  intro e he
  obtain ⟨c, -, rfl⟩ := List.mem_map.mp he
  rfl

theorem actions_leaseAs (l : Option LeaseRecord) (state : LeaseState) :
    ∀ e ∈ leaseAs l state, e.actions = [] := by
  intro e he
  obtain ⟨l', -, rfl⟩ := List.mem_map.mp he
  rfl

theorem actions_continuationRecords (st : DurableState) (x : ExecutionRecord)
    (c : ContinuationRecord) : ∀ e ∈ continuationRecords st x c, e.actions = [] := by
  intro e he
  rcases List.mem_append.mp he with he | he
  · exact actions_continuations _ e he
  · simp only [List.mem_cons, List.not_mem_nil, or_false] at he
    rcases he with rfl | rfl <;> rfl

theorem actions_enterCheckpointing (x : ExecutionRecord) :
    ∀ e ∈ enterCheckpointing x, e.actions = [] := by
  intro e he
  unfold enterCheckpointing at he
  split at he
  · obtain rfl := List.mem_singleton.mp he
    rfl
  · cases he

theorem actions_checkpointRecords (j : Journaled) (x : ExecutionRecord) (c : CheckpointRecord) :
    ∀ e ∈ checkpointRecords j x c, e.actions = [] := by
  intro e he
  simp only [checkpointRecords, demotionRecords, newCheckpointRecords, List.mem_append,
    List.mem_singleton, List.mem_map] at he
  rcases he with ((he | rfl) | ⟨c', -, rfl⟩) | he
  · exact actions_enterCheckpointing x e he
  · rfl
  · rfl
  · exact actions_continuationRecords _ _ _ e he

theorem actions_recoveryRecords (st : DurableState) (x next : ExecutionRecord)
    (plan : RecoveryPlan) (inFlight : Option ActionRecord) :
    ∀ e ∈ recoveryRecords st x next plan inFlight, e.actions = [] := by
  intro e he
  simp only [recoveryRecords, List.mem_cons, List.not_mem_nil, or_false] at he
  rcases he with rfl | rfl <;> rfl

theorem actions_fenceRecords (st : DurableState) (x : ExecutionRecord) :
    ∀ e ∈ fenceRecords st x, e.actions = [] := by
  intro e he
  unfold fenceRecords at he
  split at he
  · cases he
  · dsimp only at he
    split at he
    · rcases List.mem_append.mp he with he | he
      · exact actions_leaseAs _ _ e he
      · obtain rfl := List.mem_singleton.mp he
        rfl
    · obtain rfl := List.mem_singleton.mp he
      rfl

/-- Only `begin_action` writes an action that is not stored yet. -/
theorem Transaction.revises {ds : List Derivation} (hc : j.state.image.Coherent ds) (hi : Indexed j)
    {i : Intent} {es : List JournalEntry} (ht : Transaction j i es) (hbegin : ∀ e, i ≠ .begin e) :
    j.state.image.Revises es := by
  have hone : ∀ {a b : ActionRecord} {k : ActionKey} {rest : List JournalEntry},
      j.state.image.actions k = some b → a.key = b.key → (∀ e ∈ rest, e.actions = []) →
      j.state.image.Revises (.action a :: rest) := by
    intro a b k rest hb hkey hrest e he a' ha'
    rcases List.mem_cons.mp he with rfl | he
    · obtain rfl := List.mem_singleton.mp ha'
      exact ⟨b, by rw [hkey]; exact stored_action hb⟩
    · rw [hrest e he] at ha'
      cases ha'
  have hcommit : ∀ {x : ExecutionRecord} {a : ActionRecord} {g : CommitGroupRecord}
      {rest : List JournalEntry} {k : ActionKey}, Promotes x a g →
      j.state.image.actions k = some a → (∀ e ∈ rest, e.actions = []) →
      j.state.image.Revises (.commitGroup g :: rest) := by
    intro x a g rest k hg ha hrest e he a' ha'
    rcases List.mem_cons.mp he with rfl | he
    · obtain rfl := List.mem_singleton.mp ha'
      obtain ⟨evidence, haction⟩ := hg.action
      refine ⟨a, ?_⟩
      rw [haction]
      exact stored_action ha
    · rw [hrest e he] at ha'
      cases ha'
  cases ht with
  | begin request htoken hrunning hblocked => exact absurd rfl (hbegin _)
  | create policy hid =>
    refine .of_idle fun e he => ?_
    simp only [List.mem_cons, List.not_mem_nil, or_false] at he
    rcases he with rfl | rfl | rfl <;> rfl
  | updatePolicy policy hx hgeneration =>
    refine .of_idle fun e he => ?_
    simp only [List.mem_cons, List.mem_append, List.not_mem_nil, or_false] at he
    rcases he with rfl | (he | he) | rfl
    · rfl
    · exact actions_leaseAs _ _ e he
    · exact actions_continuations _ e he
    · rfl
  | bind request hx hworker hboot hbindable hlive =>
    refine .of_idle fun e he => ?_
    simp only [List.mem_cons, List.mem_append, List.not_mem_nil, or_false] at he
    rcases he with he | rfl | rfl
    · exact actions_leaseAs _ _ e he
    · rfl
    · rfl
  | start token htoken hready => exact .of_idle (actions_continuationRecords _ _ _)
  | complete request htoken hrunning ha hfresh hdefect hcommit' =>
    exact hcommit (commitGroupOf_promotes _ _ _ _ _) ha (fun e he => by cases he)
  | @fail x l a request htoken ha howner hcommitted hambiguous =>
    exact hone (b := a) ha rfl (fun e he => by cases he)
  | @report x l a request htoken ha hcommitted hambiguous habandoned =>
    exact hone (b := a) ha rfl (fun e he => by cases he)
  | enterCheckpoint request htoken hlifecycle => exact .of_idle (actions_enterCheckpointing _)
  | checkpoint request htoken hlifecycle hdepth => exact .of_idle (actions_checkpointRecords _ _ _)
  | enterResume request htoken hresumable hrecovery =>
    refine .of_idle fun e he => ?_
    obtain rfl := List.mem_singleton.mp he
    rfl
  | resume request htoken hresumable hrecovery hvalid =>
    refine .of_idle fun e he => ?_
    rcases List.mem_cons.mp he with rfl | he
    · rfl
    · exact actions_continuationRecords _ _ _ e he
  | recoverPlain hx hlive hopens hreceipt => exact .of_idle (actions_recoveryRecords _ _ _ _ _)
  | @recoverAmbiguous x a hx hlive hopens ha =>
    obtain ⟨hstored, -⟩ := (planned_of_plannedAction ha).owned hc hi hx
    intro e he a' ha'
    rcases List.mem_cons.mp he with rfl | he
    · cases ha'
    · exact hone (a := { a with status := .ambiguous }) (b := a) hstored rfl
        (actions_recoveryRecords _ _ _ _ _) e he a' ha'
  | recoverCommit request hx hlive hreceipt ha hcommit' =>
    obtain ⟨hstored, -⟩ := (planned_of_plannedAction ha).owned hc hi hx
    exact hcommit (commitGroupOf_promotes _ _ _ _ _) hstored (actions_recoveryRecords _ _ _ _ _)
  | resolveCommit request hx hamb howner hopen ha hresolution hcommit' =>
    refine hcommit (commitGroupOf_promotes _ _ _ _ _) ha fun e he => ?_
    simp only [List.mem_cons, List.not_mem_nil, or_false] at he
    rcases he with rfl | rfl <;> rfl
  | @resolveAction x amb a request status hx hamb howner hopen ha hresolution =>
    refine hone (b := a) ha rfl fun e he => ?_
    simp only [List.mem_cons, List.not_mem_nil, or_false] at he
    rcases he with rfl | rfl <;> rfl
  | resolveManual request hx hamb howner hopen ha hresolution =>
    refine .of_idle fun e he => ?_
    simp only [List.mem_cons, List.not_mem_nil, or_false] at he
    rcases he with rfl | rfl <;> rfl
  | transition target hx hlegal hambiguity =>
    refine .of_idle fun e he => ?_
    rcases List.mem_append.mp he with he | he
    · split at he
      · exact actions_leaseAs _ _ e he
      · cases he
    · obtain rfl := List.mem_singleton.mp he
      rfl
  | advance hx hlive =>
    refine .of_idle fun e he => ?_
    simp only [List.mem_append, List.mem_singleton] at he
    rcases he with (he | he) | rfl
    · exact actions_continuations _ e he
    · exact actions_leaseAs _ _ e he
    · rfl
  | lose hx hlive => exact .of_idle (actions_fenceRecords _ _)

/-- The begun action is at the new frontier of its execution. -/
theorem frontier_begin {m : Image} (h : m.Frontier) (hx : m.executions x.id = some x)
    {a : ActionRecord} (howner : a.execution = x.id) (hle : x.actionFrontier ≤ a.sequence)
    (replayed : Option ActionRecord) :
    (m.installAll [.action a, .execution (dispatched x a replayed)]).Frontier := by
  intro k b y hb hy
  rcases KeyedMap.insert_eq_some hy with ⟨-, rfl⟩ | ⟨hne, hy⟩
  · rcases KeyedMap.insert_eq_some hb with ⟨-, rfl⟩ | ⟨-, hb⟩
    · exact Nat.le_refl _
    · refine Nat.le_trans (h k b x hb ?_) hle
      have hsame : b.execution = x.id := (m.executions.insert _).keyed _ _ hy |>.symm
      rw [hsame]
      exact hx
  · rcases KeyedMap.insert_eq_some hb with ⟨-, rfl⟩ | ⟨-, hb⟩
    · exact absurd howner hne
    · exact h k b y hb hy

/-- Every transaction keeps memory in order. -/
theorem Transaction.working {ds : List Derivation} (hfree : CollisionFree ds) (h : Working ds j)
    {i : Intent} {es : List JournalEntry} (ht : Transaction j i es)
    (hmint : Minted ds j.state.store es) : Working ds (j.write es) := by
  have hlawful := ht.lawful hfree h.coherent h.indexed hmint
  by_cases hbegin : ∀ e, i ≠ .begin e
  · exact h.write hfree hlawful (ht.revises h.coherent h.indexed hbegin)
  · refine ⟨?_, h.indexed.write hfree h.coherent hlawful, ?_⟩
    · rw [Journaled.image_write]
      exact h.coherent.installAll hfree hlawful List.prefix_rfl
    · rw [not_forall] at hbegin
      obtain ⟨e, hi⟩ := hbegin
      rw [not_not] at hi
      rw [Journaled.image_write]
      cases ht with
      | @begin x l request htoken hrunning hblocked =>
        have hx := token_execution htoken
        rw [Image.installAll_append]
        have hle := frontier_le_begunAction x request (redriven x (j.latestAction x.id))
        have howner : (begunAction x request (redriven x (j.latestAction x.id))).execution = x.id :=
          rfl
        generalize begunAction x request (redriven x (j.latestAction x.id)) = a at *
        cases redriven x (j.latestAction x.id) with
        | none => exact frontier_begin h.frontier hx howner hle none
        | some b =>
          exact frontier_begin (m := j.state.image.install (.replay (admittedReplay j.state x request b
            a))) h.frontier hx howner hle (some b)
      | _ => cases hi

theorem actions_restartRecords (j : Journaled) : ∀ e ∈ restartRecords j, e.actions = [] := by
  intro e he
  simp only [restartRecords, reclassificationRecords, revocationRecords, List.mem_append,
    List.mem_singleton, List.mem_map] at he
  rcases he with ((rfl | ⟨l, -, rfl⟩) | ⟨x, -, rfl⟩) | ⟨c, -, rfl⟩ <;> rfl

/-- A restart keeps memory in order. -/
theorem Working.restart {ds : List Derivation} (hfree : CollisionFree ds) (h : Working ds j) :
    Working ds (j.write (restartRecords j)) :=
  h.write hfree (restartRecords_lawful hfree h.coherent) (.of_idle (actions_restartRecords j))

end Actions

end ExecutionFabric
