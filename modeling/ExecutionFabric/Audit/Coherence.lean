import ExecutionFabric.Audit.Derivation

/-!
# Coherence

The facts every record-boundary prefix of the journal satisfies: records are keyed
by their derivations, references resolve to records of the same execution, and the
progress chain of every execution is complete. `Lawful` says which record may follow
in an image; a lawful record keeps an image coherent.
-/
namespace ExecutionFabric

open Lib

/-- A commit and the progress record it promotes name each other and the same action. -/
structure Seals (c : CommitRecord) (p : ProgressRecord) : Prop where
  commit : p.commit = c.id
  progress : c.progress = p.id
  execution : p.execution = c.execution
  action : p.action = c.action
  actionGeneration : p.actionGeneration = c.actionGeneration
  generation : p.generation = c.progressGeneration

/-- The group promotes the execution `x` by a commit of the action `a`. -/
structure Promotes (x : ExecutionRecord) (a : ActionRecord) (g : CommitGroupRecord) : Prop where
  execution : ∃ epoch, g.execution = x.promotedBy epoch g.progress.id g.commit.id
  action : ∃ evidence, g.action = a.committedBy g.commit.id evidence
  seals : Seals g.commit g.progress
  owner : g.commit.execution = x.id
  key : g.commit.actionKey = a.key
  generation : g.progress.generation = x.progressGeneration + 1
  ordinal : g.progress.ordinal = a.sequence
  committed : g.progress.committed = true
  id : g.progress.id = deriveProgressId x.id (x.progressGeneration + 1)
  commitId : g.commit.id = deriveCommitId x.id a.id a.generation (x.progressGeneration + 1)

theorem commitGroupOf_promotes (st : DurableState) (x : ExecutionRecord) (a : ActionRecord)
    (request : RequestId) (evidence : Evidence) :
    Promotes x a (commitGroupOf st x a request evidence) :=
  ⟨⟨st.epoch, rfl⟩, ⟨evidence, rfl⟩, ⟨rfl, rfl, rfl, rfl, rfl, rfl⟩, rfl, rfl, rfl, rfl, rfl, rfl,
    rfl⟩

/-- Worker authority is either absent or complete. -/
def ExecutionRecord.Bound (x : ExecutionRecord) : Prop :=
  (x.lease = .nil ∧ x.worker = .nil ∧ x.boot = .nil) ∨
    (x.lease ≠ .nil ∧ x.worker ≠ .nil ∧ x.boot ≠ .nil)

/-- The fields of an execution that the invariants relate to other records. -/
structure Links where
  id : ExecutionId
  createdSequence : Nat
  policy : PolicyId
  progressGeneration : Nat
  progress : ProgressId
  lastCommit : CommitId
  committedActions : Nat
  lease : LeaseId
  worker : WorkerId
  boot : WorkerBootId
  ambiguity : AmbiguityId
  continuation : ContinuationId
  checkpoint : CheckpointId
  recovery : RecoveryId

def ExecutionRecord.links (x : ExecutionRecord) : Links where
  id := x.id
  createdSequence := x.createdSequence
  policy := x.policy
  progressGeneration := x.progressGeneration
  progress := x.progress
  lastCommit := x.lastCommit
  committedActions := x.committedActions
  lease := x.lease
  worker := x.worker
  boot := x.boot
  ambiguity := x.ambiguity
  continuation := x.continuation
  checkpoint := x.checkpoint
  recovery := x.recovery

/-- A reference that is nil or names a stored record of the execution `e`. -/
def Resolves {α : Type} {domain : IdDomain} {key : α → Id domain} (t : KeyedMap key)
    (owner : α → ExecutionId) (i : Id domain) (e : ExecutionId) : Prop :=
  i ≠ .nil → ∃ r, t i = some r ∧ owner r = e

theorem Resolves.nil {α : Type} {domain : IdDomain} {key : α → Id domain} {t : KeyedMap key}
    {owner : α → ExecutionId} {e : ExecutionId} : Resolves t owner .nil e :=
  fun h => absurd rfl h

theorem Resolves.self {α : Type} {domain : IdDomain} {key : α → Id domain} {t : KeyedMap key}
    {owner : α → ExecutionId} {r : α} {e : ExecutionId} (h : t (key r) = some r)
    (howner : owner r = e) : Resolves t owner (key r) e :=
  fun _ => ⟨r, h, howner⟩

/-- A reference survives an insertion that changes no owner. -/
theorem Resolves.insert {α : Type} {domain : IdDomain} {key : α → Id domain} {t : KeyedMap key}
    {owner : α → ExecutionId} {i : Id domain} {e : ExecutionId} (h : Resolves t owner i e) {r : α}
    (hsame : ∀ r', t (key r) = some r' → owner r' = owner r) : Resolves (t.insert r) owner i e := by
  intro hvalid
  obtain ⟨r', hr', howner⟩ := h hvalid
  by_cases hi : i = key r
  · subst hi
    exact ⟨r, KeyedMap.insert_self _ _, (hsame r' hr').symm.trans howner⟩
  · exact ⟨r', (KeyedMap.insert_of_ne _ hi).trans hr', howner⟩

namespace Image

/-- The progress records of each execution are the generations 1 to its progress generation, each
sealed by one commit of a stored action. -/
structure Chained (m : Image) : Prop where
  counted : ∀ k x, m.executions k = some x → x.committedActions = x.progressGeneration
  promoted : ∀ k p, m.progress k = some p → p.committed = true ∧ 1 ≤ p.generation ∧
    (∃ x, m.executions p.execution = some x ∧ p.generation ≤ x.progressGeneration) ∧
    ∃ c, m.commits p.commit = some c ∧ Seals c p
  committed : ∀ k c, m.commits k = some c → ∃ p a, m.progress c.progress = some p ∧ Seals c p ∧
    m.actions c.actionKey = some a ∧ a.execution = c.execution ∧ p.ordinal = a.sequence
  reached : ∀ k x g, m.executions k = some x → 1 ≤ g → g ≤ x.progressGeneration →
    ∃ p, m.progress (deriveProgressId x.id g) = some p ∧ p.execution = x.id ∧ p.generation = g
  newest : ∀ k x, m.executions k = some x →
    (x.progressGeneration = 0 ∧ x.progress = .nil ∧ x.lastCommit = .nil) ∨
    (1 ≤ x.progressGeneration ∧ ∃ p, m.progress x.progress = some p ∧ p.execution = x.id ∧
      p.generation = x.progressGeneration ∧ x.lastCommit = p.commit)

/-- What holds of the image of every journal prefix. -/
structure Coherent (ds : List Derivation) (m : Image) : Prop where
  known : m.Known ds
  created : ∀ k x, m.executions k = some x → x.createdSequence < m.nextExecutionSequence
  policed : ∀ k x, m.executions k = some x → ∃ p, m.policies x.policy = some p
  continued : ∀ k x, m.executions k = some x →
    Resolves m.continuations ContinuationRecord.execution x.continuation x.id
  checkpointed : ∀ k x, m.executions k = some x →
    Resolves m.checkpoints CheckpointRecord.execution x.checkpoint x.id
  recovered : ∀ k x, m.executions k = some x →
    Resolves m.recoveries RecoveryRecord.execution x.recovery x.id
  owned : ∀ k a, m.actions k = some a → ∃ x, m.executions a.execution = some x
  bound : ∀ k x, m.executions k = some x → x.Bound
  leased : ∀ k x, m.executions k = some x → x.lease ≠ .nil →
    ∃ l, m.leases x.lease = some l ∧ l.execution = x.id
  leaseEpoch : ∀ k l, m.leases k = some l → l.epoch ≤ m.epoch
  continuationEpoch : ∀ k c, m.continuations k = some c → c.epoch ≤ m.epoch
  ambiguous : ∀ k x, m.executions k = some x → x.ambiguity ≠ .nil →
    ∃ amb, m.ambiguities x.ambiguity = some amb ∧ amb.execution = x.id
  ambiguityAction : ∀ k amb, m.ambiguities k = some amb →
    ∃ a, m.actions amb.actionKey = some a ∧ a.execution = amb.execution
  chained : m.Chained

/-- An execution that was just created. -/
structure Fresh (m : Image) (x : ExecutionRecord) : Prop where
  created : x.createdSequence < m.nextExecutionSequence
  free : m.executions x.id = none
  unbound : x.lease = .nil ∧ x.worker = .nil ∧ x.boot = .nil
  policed : ∃ p, m.policies x.policy = some p
  unambiguous : x.ambiguity = .nil
  unlinked : x.continuation = .nil ∧ x.checkpoint = .nil ∧ x.recovery = .nil
  unpromoted : x.progressGeneration = 0 ∧ x.progress = .nil ∧ x.lastCommit = .nil ∧
    x.committedActions = 0

/-- The ways worker authority may change between two versions of an execution. -/
inductive Rebound (m : Image) (x x' : ExecutionRecord) : Prop
  | same (hlease : x'.lease = x.lease) (hworker : x'.worker = x.worker) (hboot : x'.boot = x.boot)
  | dropped (hlease : x'.lease = .nil) (hworker : x'.worker = .nil) (hboot : x'.boot = .nil)
  | granted (l : LeaseRecord) (hl : m.leases x'.lease = some l) (howner : l.execution = x'.id)
      (hlease : x'.lease ≠ .nil) (hworker : x'.worker ≠ .nil) (hboot : x'.boot ≠ .nil)

/-- `x'` may replace the stored execution `x`. -/
structure Succeeds (m : Image) (x x' : ExecutionRecord) : Prop where
  id : x'.id = x.id
  created : x'.createdSequence = x.createdSequence
  progressGeneration : x'.progressGeneration = x.progressGeneration
  progress : x'.progress = x.progress
  lastCommit : x'.lastCommit = x.lastCommit
  committedActions : x'.committedActions = x.committedActions
  policy : x'.policy = x.policy
  frontier : x.actionFrontier ≤ x'.actionFrontier
  continuation : x'.continuation = x.continuation ∨
    Resolves m.continuations ContinuationRecord.execution x'.continuation x'.id
  checkpoint : x'.checkpoint = x.checkpoint ∨
    Resolves m.checkpoints CheckpointRecord.execution x'.checkpoint x'.id
  recovery : x'.recovery = x.recovery ∨
    Resolves m.recoveries RecoveryRecord.execution x'.recovery x'.id
  rebound : m.Rebound x x'
  ambiguity : x'.ambiguity = x.ambiguity ∨
    ∃ amb, m.ambiguities x'.ambiguity = some amb ∧ amb.execution = x'.id

/-- The record may follow in an image. Detail records of a commit never come alone. -/
def Lawful (m : Image) : JournalEntry → Prop
  | .storeMeta r => m.epoch ≤ r.epoch ∧ m.nextExecutionSequence ≤ r.nextExecutionSequence
  | .execution x => m.Fresh x ∨ ∃ x₀, m.executions x₀.id = some x₀ ∧ m.Succeeds x₀ x
  | .action a => ∃ x, m.executions a.execution = some x
  | .lease l => l.epoch ≤ m.epoch
  | .continuation c => c.epoch ≤ m.epoch
  | .ambiguity amb => ∃ a, m.actions amb.actionKey = some a ∧ a.execution = amb.execution
  | .commitGroup g => ∃ x a, Promotes x a g ∧ m.executions x.id = some x ∧
      m.actions a.key = some a ∧ a.execution = x.id
  | .progress _ | .commit _ => False
  | _ => True

/-- Equal action keys mean equal owners and ordinals. -/
theorem Known.action_unique {ds : List Derivation} (hfree : CollisionFree ds) {m : Image}
    (h : m.Known ds) {a b : ActionRecord} (ha : Named ds (.action a.execution a.sequence) a.id)
    (hb : m.actions a.key = some b) : b.execution = a.execution ∧ b.sequence = a.sequence := by
  have hkey : b.key = a.key := m.actions.keyed _ _ hb
  have hid : b.id = a.id := congrArg ActionKey.id hkey
  have hderived := h.actions _ b hb
  rw [hid] at hderived
  have heq := hderived.unique ha hfree
  injection heq with hexecution hsequence
  exact ⟨hexecution, hsequence⟩

section Install

variable {ds : List Derivation} {m : Image}

/-- A stored execution stays stored when another record is inserted. -/
theorem stored_insert {x y : ExecutionRecord} {e : ExecutionId} (h : m.executions e = some y) :
    ∃ y', m.executions.insert x e = some y' := by
  by_cases he : e = x.id
  · exact ⟨x, he ▸ KeyedMap.insert_self _ _⟩
  · exact ⟨y, (KeyedMap.insert_of_ne _ he).trans h⟩

/-- Replacing an action keeps the facts about its owner and ordinal. -/
theorem find_insert_action (hfree : CollisionFree ds) (h : m.Known ds) {a b : ActionRecord}
    (ha : Named ds (.action a.execution a.sequence) a.id) {k : ActionKey}
    (hb : m.actions k = some b) :
    ∃ b', m.actions.insert a k = some b' ∧ b'.execution = b.execution ∧
      b'.sequence = b.sequence := by
  by_cases hk : k = a.key
  · subst hk
    obtain ⟨hexecution, hsequence⟩ := h.action_unique hfree ha hb
    exact ⟨a, KeyedMap.insert_self _ _, hexecution.symm, hsequence.symm⟩
  · exact ⟨b, (KeyedMap.insert_of_ne _ hk).trans hb, rfl, rfl⟩

theorem coherent_action (hfree : CollisionFree ds) (h : m.Coherent ds) (a : ActionRecord)
    (ha : Named ds (.action a.execution a.sequence) a.id)
    (howner : ∃ x, m.executions a.execution = some x) : (m.install (.action a)).Coherent ds := by
  refine { h with
    known := h.known.install ha
    owned := forall_insert h.owned howner
    ambiguityAction := ?_
    chained := ?_ }
  · intro k amb hamb
    obtain ⟨b, hb, howner⟩ := h.ambiguityAction k amb hamb
    obtain ⟨b', hb', hsame, -⟩ := find_insert_action hfree h.known ha hb
    exact ⟨b', hb', hsame.trans howner⟩
  · refine { h.chained with committed := ?_ }
    intro k c hc
    obtain ⟨p, b, hp, hseals, hb, howner, hordinal⟩ := h.chained.committed k c hc
    obtain ⟨b', hb', hsame, hseq⟩ := find_insert_action hfree h.known ha hb
    exact ⟨p, b', hp, hseals, hb', hsame.trans howner, hordinal.trans hseq.symm⟩

theorem coherent_lease (hfree : CollisionFree ds) (h : m.Coherent ds) (l : LeaseRecord)
    (hl : Named ds (.lease l.execution l.worker l.boot l.generation) l.id)
    (hepoch : l.epoch ≤ m.epoch) : (m.install (.lease l)).Coherent ds := by
  refine { h with
    known := h.known.install hl
    leased := ?_
    leaseEpoch := ?_
    chained := { h.chained with } }
  · intro k x hx hlease
    obtain ⟨l', hl', howner⟩ := h.leased k x hx hlease
    by_cases hk : x.lease = l.id
    · have hid : l'.id = l.id := (m.leases.keyed _ _ hl').trans hk
      have hderived := h.known.leases _ l' hl'
      rw [hid] at hderived
      injection hderived.unique hl hfree with hexecution
      exact ⟨l, hk ▸ KeyedMap.insert_self _ _, hexecution.symm.trans howner⟩
    · exact ⟨l', (KeyedMap.insert_of_ne _ hk).trans hl', howner⟩
  · exact forall_insert h.leaseEpoch hepoch

theorem coherent_ambiguity (hfree : CollisionFree ds) (h : m.Coherent ds) (amb : AmbiguityRecord)
    (hamb : Named ds (.ambiguity amb.execution amb.action amb.generation) amb.id)
    (haction : ∃ a, m.actions amb.actionKey = some a ∧ a.execution = amb.execution) :
    (m.install (.ambiguity amb)).Coherent ds := by
  refine { h with
    known := h.known.install hamb
    ambiguous := ?_
    ambiguityAction := ?_
    chained := { h.chained with } }
  · intro k x hx hvalid
    obtain ⟨amb', hamb', howner⟩ := h.ambiguous k x hx hvalid
    by_cases hk : x.ambiguity = amb.id
    · have hid : amb'.id = amb.id := (m.ambiguities.keyed _ _ hamb').trans hk
      have hderived := h.known.ambiguities _ amb' hamb'
      rw [hid] at hderived
      injection hderived.unique hamb hfree with hexecution
      exact ⟨amb, hk ▸ KeyedMap.insert_self _ _, hexecution.symm.trans howner⟩
    · exact ⟨amb', (KeyedMap.insert_of_ne _ hk).trans hamb', howner⟩
  · exact forall_insert h.ambiguityAction haction

theorem coherent_storeMeta (h : m.Coherent ds) (r : StoreMetaRecord) (hstore : r.store = m.store)
    (hepoch : m.epoch ≤ r.epoch)
    (hnext : m.nextExecutionSequence ≤ r.nextExecutionSequence) :
    (m.install (.storeMeta r)).Coherent ds := by
  refine { h with
    known := h.known.install hstore
    created := fun k x hx => Nat.lt_of_lt_of_le (h.created k x hx) hnext
    leaseEpoch := fun k l hl => Nat.le_trans (h.leaseEpoch k l hl) hepoch
    continuationEpoch := fun k c hc => Nat.le_trans (h.continuationEpoch k c hc) hepoch
    chained := { h.chained with } }

/-- A replaced execution keeps its place in the progress chain. -/
theorem chained_succeeds (h : m.Chained) {x x' : ExecutionRecord}
    (hx : m.executions x.id = some x) (hs : m.Succeeds x x') :
    (m.install (.execution x')).Chained where
  counted := by
    refine forall_insert h.counted ?_
    rw [hs.committedActions, hs.progressGeneration]
    exact h.counted _ x hx
  promoted := by
    intro k p hp
    obtain ⟨hcommitted, hone, ⟨y, hy, hle⟩, hcommit⟩ := h.promoted k p hp
    refine ⟨hcommitted, hone, ?_, hcommit⟩
    by_cases hk : p.execution = x'.id
    · refine ⟨x', hk ▸ KeyedMap.insert_self _ _, ?_⟩
      rw [hk, hs.id, hx] at hy
      rw [hs.progressGeneration, Option.some.inj hy]
      exact hle
    · exact ⟨y, (KeyedMap.insert_of_ne _ hk).trans hy, hle⟩
  committed := h.committed
  reached := by
    intro k y g hy hone hle
    rcases KeyedMap.insert_eq_some hy with ⟨-, rfl⟩ | ⟨-, hy⟩
    · rw [hs.id]
      exact h.reached _ x g hx hone (hs.progressGeneration ▸ hle)
    · exact h.reached k y g hy hone hle
  newest := by
    refine forall_insert h.newest ?_
    rw [hs.progressGeneration, hs.progress, hs.lastCommit, hs.id]
    exact h.newest _ x hx

theorem coherent_succeeds (h : m.Coherent ds) {x x' : ExecutionRecord}
    (hderived : Named ds (.execution m.store x'.createdSequence) x'.id)
    (hx : m.executions x.id = some x) (hs : m.Succeeds x x') :
    (m.install (.execution x')).Coherent ds where
  known := h.known.install hderived
  created := by
    refine forall_insert h.created ?_
    rw [hs.created]
    exact h.created _ x hx
  policed := by
    refine forall_insert h.policed ?_
    rw [hs.policy]
    exact h.policed _ x hx
  continued := by
    refine forall_insert h.continued ?_
    rcases hs.continuation with hsame | hresolves
    · rw [hsame, hs.id]
      exact h.continued _ x hx
    · exact hresolves
  checkpointed := by
    refine forall_insert h.checkpointed ?_
    rcases hs.checkpoint with hsame | hresolves
    · rw [hsame, hs.id]
      exact h.checkpointed _ x hx
    · exact hresolves
  recovered := by
    refine forall_insert h.recovered ?_
    rcases hs.recovery with hsame | hresolves
    · rw [hsame, hs.id]
      exact h.recovered _ x hx
    · exact hresolves
  owned := by
    intro k a ha
    obtain ⟨y, hy⟩ := h.owned k a ha
    exact stored_insert hy
  bound := by
    refine forall_insert h.bound ?_
    unfold ExecutionRecord.Bound
    cases hs.rebound with
    | same hlease hworker hboot =>
      rw [hlease, hworker, hboot]
      exact h.bound _ x hx
    | dropped hlease hworker hboot => exact .inl ⟨hlease, hworker, hboot⟩
    | granted l hl howner hlease hworker hboot => exact .inr ⟨hlease, hworker, hboot⟩
  leased := by
    refine forall_insert h.leased ?_
    intro hvalid
    cases hs.rebound with
    | same hlease hworker hboot =>
      rw [hlease] at hvalid
      rw [hlease, hs.id]
      exact h.leased _ x hx hvalid
    | dropped hlease hworker hboot => exact absurd hlease hvalid
    | granted l hl howner hlease hworker hboot => exact ⟨l, hl, howner⟩
  leaseEpoch := h.leaseEpoch
  continuationEpoch := h.continuationEpoch
  ambiguous := by
    refine forall_insert h.ambiguous ?_
    intro hvalid
    rcases hs.ambiguity with hsame | hstored
    · rw [hsame] at hvalid
      rw [hsame, hs.id]
      exact h.ambiguous _ x hx hvalid
    · exact hstored
  ambiguityAction := h.ambiguityAction
  chained := chained_succeeds h.chained hx hs

theorem coherent_fresh (h : m.Coherent ds) {x : ExecutionRecord}
    (hderived : Named ds (.execution m.store x.createdSequence) x.id) (hf : m.Fresh x) :
    (m.install (.execution x)).Coherent ds := by
  obtain ⟨hgeneration, hprogress, hcommit, hcount⟩ := hf.unpromoted
  refine { h with
    known := h.known.install hderived
    created := forall_insert h.created hf.created
    policed := forall_insert h.policed hf.policed
    continued := forall_insert h.continued (hf.unlinked.1 ▸ Resolves.nil)
    checkpointed := forall_insert h.checkpointed (hf.unlinked.2.1 ▸ Resolves.nil)
    recovered := forall_insert h.recovered (hf.unlinked.2.2 ▸ Resolves.nil)
    owned := ?_
    bound := forall_insert h.bound (.inl hf.unbound)
    leased := forall_insert h.leased fun hvalid => absurd hf.unbound.1 hvalid
    ambiguous := forall_insert h.ambiguous fun hvalid => absurd hf.unambiguous hvalid
    chained := { h.chained with
      counted := forall_insert h.chained.counted (hcount.trans hgeneration.symm)
      promoted := ?_
      reached := ?_
      newest := forall_insert h.chained.newest (.inl ⟨hgeneration, hprogress, hcommit⟩) } }
  · intro k a ha
    obtain ⟨y, hy⟩ := h.owned k a ha
    exact stored_insert hy
  · intro k p hp
    obtain ⟨hcommitted, hone, ⟨y, hy, hle⟩, hsealed⟩ := h.chained.promoted k p hp
    refine ⟨hcommitted, hone, ⟨y, ?_, hle⟩, hsealed⟩
    refine (KeyedMap.insert_of_ne _ ?_).trans hy
    intro hk
    rw [hk, hf.free] at hy
    cases hy
  · intro k y g hy hone hle
    rcases KeyedMap.insert_eq_some hy with ⟨-, rfl⟩ | ⟨-, hy⟩
    · omega
    · exact h.chained.reached k y g hy hone hle

/-- No progress record is stored where the next commit goes. -/
theorem Chained.progress_free (hfree : CollisionFree ds) (hk : m.Known ds) (h : m.Chained)
    {x : ExecutionRecord} (hx : m.executions x.id = some x) {d : ProgressRecord}
    (hexecution : d.execution = x.id) (hgeneration : d.generation = x.progressGeneration + 1)
    (hd : Named ds (.progress d.execution d.generation) d.id) : m.progress d.id = none := by
  cases hp : m.progress d.id with
  | none => rfl
  | some p =>
    have hid : p.id = d.id := m.progress.keyed _ _ hp
    have hderived := hk.progress _ p hp
    rw [hid] at hderived
    injection hderived.unique hd hfree with hsame hgen
    obtain ⟨-, -, ⟨y, hy, hle⟩, -⟩ := h.promoted _ p hp
    rw [hsame, hexecution, hx] at hy
    obtain rfl := Option.some.inj hy
    omega

/-- No commit is stored where the next commit goes. -/
theorem Chained.commit_free (hfree : CollisionFree ds) (hk : m.Known ds) (h : m.Chained)
    {x : ExecutionRecord} (hx : m.executions x.id = some x) {d : CommitRecord}
    (hexecution : d.execution = x.id)
    (hgeneration : d.progressGeneration = x.progressGeneration + 1)
    (hd : Named ds (.commit d.execution d.action d.actionGeneration d.progressGeneration) d.id) :
    m.commits d.id = none := by
  cases hc : m.commits d.id with
  | none => rfl
  | some c =>
    have hid : c.id = d.id := m.commits.keyed _ _ hc
    have hderived := hk.commits _ c hc
    rw [hid] at hderived
    injection hderived.unique hd hfree with hsame _ _ hgen
    obtain ⟨p, -, hp, hseals, -⟩ := h.committed _ c hc
    obtain ⟨-, -, ⟨y, hy, hle⟩, -⟩ := h.promoted _ p hp
    rw [hseals.execution, hsame, hexecution, hx] at hy
    obtain rfl := Option.some.inj hy
    have := hseals.generation
    omega

theorem chained_commitGroup (hfree : CollisionFree ds) (h : m.Coherent ds) {g : CommitGroupRecord}
    {x : ExecutionRecord} {a : ActionRecord} (hg : Promotes x a g)
    (hx : m.executions x.id = some x) (howner : a.execution = x.id)
    (hc : Named ds (.commit g.commit.execution g.commit.action g.commit.actionGeneration
      g.commit.progressGeneration) g.commit.id)
    (hp : Named ds (.progress g.progress.execution g.progress.generation) g.progress.id)
    (hda : Named ds (.action g.action.execution g.action.sequence) g.action.id) :
    (m.install (.commitGroup g)).Chained := by
  obtain ⟨epoch, hexecution⟩ := hg.execution
  obtain ⟨evidence, haction⟩ := hg.action
  have hpx : g.progress.execution = x.id := hg.seals.execution.trans hg.owner
  have hpfree := h.chained.progress_free hfree h.known hx hpx hg.generation hp
  have hcfree := h.chained.commit_free hfree h.known hx hg.owner
    (hg.seals.generation.symm.trans hg.generation) hc
  have hid : g.execution.id = x.id := by rw [hexecution]; rfl
  have hpg : g.execution.progressGeneration = x.progressGeneration + 1 := by rw [hexecution]; rfl
  have hprogress : g.execution.progress = g.progress.id := by rw [hexecution]; rfl
  have hcommit : g.execution.lastCommit = g.commit.id := by rw [hexecution]; rfl
  have hcount : g.execution.committedActions = x.committedActions + 1 := by rw [hexecution]; rfl
  have hkey : g.action.key = a.key := by rw [haction]; rfl
  -- Old progress records and commits keep their places.
  have hkeepp : ∀ k p, m.progress k = some p → m.progress.insert g.progress k = some p := by
    intro k p hk
    refine (KeyedMap.insert_of_ne _ ?_).trans hk
    rintro rfl
    rw [hpfree] at hk
    cases hk
  have hkeepc : ∀ k c, m.commits k = some c → m.commits.insert g.commit k = some c := by
    intro k c hk
    refine (KeyedMap.insert_of_ne _ ?_).trans hk
    rintro rfl
    rw [hcfree] at hk
    cases hk
  have hkeepx : ∀ e y, m.executions e = some y → ∃ y', m.executions.insert g.execution e = some y' ∧
      y.progressGeneration ≤ y'.progressGeneration := by
    intro e y hy
    by_cases he : e = g.execution.id
    · refine ⟨g.execution, he ▸ KeyedMap.insert_self _ _, ?_⟩
      rw [he, hid, hx] at hy
      obtain rfl := Option.some.inj hy
      omega
    · exact ⟨y, (KeyedMap.insert_of_ne _ he).trans hy, Nat.le_refl _⟩
  refine ⟨?_, ?_, ?_, ?_, ?_⟩
  · refine forall_insert h.chained.counted ?_
    rw [hcount, hpg, h.chained.counted _ x hx]
  · intro k p hk
    rcases KeyedMap.insert_eq_some hk with ⟨-, rfl⟩ | ⟨-, hk⟩
    · refine ⟨hg.committed, by rw [hg.generation]; omega, ⟨g.execution, ?_, ?_⟩, g.commit, ?_,
        hg.seals⟩
      · rw [hpx, ← hid]
        exact KeyedMap.insert_self _ _
      · rw [hpg, hg.generation]
      · rw [hg.seals.commit]
        exact KeyedMap.insert_self _ _
    · obtain ⟨hcommitted, hone, ⟨y, hy, hle⟩, c, hpc, hseals⟩ := h.chained.promoted k p hk
      obtain ⟨y', hy', hle'⟩ := hkeepx _ y hy
      exact ⟨hcommitted, hone, ⟨y', hy', Nat.le_trans hle hle'⟩, c, hkeepc _ c hpc, hseals⟩
  · intro k c hk
    rcases KeyedMap.insert_eq_some hk with ⟨-, rfl⟩ | ⟨-, hk⟩
    · refine ⟨g.progress, g.action, ?_, hg.seals, ?_, ?_, ?_⟩
      · rw [hg.seals.progress]
        exact KeyedMap.insert_self _ _
      · rw [hg.key, ← hkey]
        exact KeyedMap.insert_self _ _
      · rw [hg.owner, ← howner, haction]
        rfl
      · rw [hg.ordinal, haction]
        rfl
    · obtain ⟨p, b, hpp, hseals, hb, hbo, hordinal⟩ := h.chained.committed k c hk
      obtain ⟨b', hb', hsame, hseq⟩ := find_insert_action hfree h.known hda hb
      exact ⟨p, b', hkeepp _ p hpp, hseals, hb', hsame.trans hbo, hordinal.trans hseq.symm⟩
  · intro k y n hy hone hle
    rcases KeyedMap.insert_eq_some hy with ⟨-, rfl⟩ | ⟨-, hy⟩
    · rw [hid]
      by_cases hn : n ≤ x.progressGeneration
      · obtain ⟨p, hpp, hpo, hpn⟩ := h.chained.reached _ x n hx hone hn
        exact ⟨p, hkeepp _ p hpp, hpo, hpn⟩
      · obtain rfl : n = x.progressGeneration + 1 := by omega
        refine ⟨g.progress, ?_, hpx, hg.generation⟩
        rw [← hg.id]
        exact KeyedMap.insert_self _ _
    · obtain ⟨p, hpp, hpo, hpn⟩ := h.chained.reached k y n hy hone hle
      exact ⟨p, hkeepp _ p hpp, hpo, hpn⟩
  · refine forall_insert ?_ (.inr ⟨?_, g.progress, ?_, ?_, ?_, ?_⟩)
    · intro k y hy
      rcases h.chained.newest k y hy with hnone | ⟨hone, p, hpp, hpo, hpn, hlast⟩
      · exact .inl hnone
      · exact .inr ⟨hone, p, hkeepp _ p hpp, hpo, hpn, hlast⟩
    · omega
    · rw [hprogress]
      exact KeyedMap.insert_self _ _
    · rw [hpx, hid]
    · rw [hg.generation, hpg]
    · rw [hcommit, hg.seals.commit]

theorem coherent_commitGroup (hfree : CollisionFree ds) (h : m.Coherent ds) {g : CommitGroupRecord}
    {x : ExecutionRecord} {a : ActionRecord} (hg : Promotes x a g)
    (hx : m.executions x.id = some x) (howner : a.execution = x.id)
    (hderived : (JournalEntry.commitGroup g).Derived ds m.store) :
    (m.install (.commitGroup g)).Coherent ds := by
  obtain ⟨epoch, hexecution⟩ := hg.execution
  have hcreated : g.execution.createdSequence = x.createdSequence := by rw [hexecution]; rfl
  have hlease : g.execution.lease = x.lease := by rw [hexecution]; rfl
  have hworker : g.execution.worker = x.worker := by rw [hexecution]; rfl
  have hboot : g.execution.boot = x.boot := by rw [hexecution]; rfl
  have hid : g.execution.id = x.id := by rw [hexecution]; rfl
  have hambiguity : g.execution.ambiguity = x.ambiguity := by rw [hexecution]; rfl
  have hpolicy : g.execution.policy = x.policy := by rw [hexecution]; rfl
  have hcontinuation : g.execution.continuation = x.continuation := by rw [hexecution]; rfl
  have hcheckpoint : g.execution.checkpoint = x.checkpoint := by rw [hexecution]; rfl
  have hrecovery : g.execution.recovery = x.recovery := by rw [hexecution]; rfl
  refine
    { known := h.known.install hderived
      created := forall_insert h.created ?_
      policed := forall_insert h.policed ?_
      continued := forall_insert h.continued ?_
      checkpointed := forall_insert h.checkpointed ?_
      recovered := forall_insert h.recovered ?_
      owned := ?_
      bound := forall_insert h.bound ?_
      leased := forall_insert h.leased ?_
      leaseEpoch := h.leaseEpoch
      continuationEpoch := h.continuationEpoch
      ambiguous := forall_insert h.ambiguous ?_
      ambiguityAction := ?_
      chained := chained_commitGroup hfree h hg hx howner hderived.1 hderived.2.1
        hderived.2.2.1 }
  · rw [hcreated]
    exact h.created _ x hx
  · rw [hpolicy]
    exact h.policed _ x hx
  · rw [hcontinuation, hid]
    exact h.continued _ x hx
  · rw [hcheckpoint, hid]
    exact h.checkpointed _ x hx
  · rw [hrecovery, hid]
    exact h.recovered _ x hx
  · intro k b hb
    rcases KeyedMap.insert_eq_some hb with ⟨-, rfl⟩ | ⟨-, hb⟩
    · obtain ⟨evidence, haction⟩ := hg.action
      have howned : g.action.execution = x.id := by
        rw [haction]
        exact howner
      rw [howned]
      exact stored_insert hx
    · obtain ⟨y, hy⟩ := h.owned k b hb
      exact stored_insert hy
  · unfold ExecutionRecord.Bound
    rw [hlease, hworker, hboot]
    exact h.bound _ x hx
  · rw [hlease, hid]
    exact h.leased _ x hx
  · rw [hambiguity, hid]
    exact h.ambiguous _ x hx
  · intro k amb hamb
    obtain ⟨b, hb, hbo⟩ := h.ambiguityAction k amb hamb
    obtain ⟨b', hb', hsame, -⟩ := find_insert_action hfree h.known hderived.2.2.1 hb
    exact ⟨b', hb', hsame.trans hbo⟩

/-- A lawful record keeps an image coherent. -/
theorem Coherent.install (hfree : CollisionFree ds) (h : m.Coherent ds) {e : JournalEntry}
    (hderived : e.Derived ds m.store) (hlawful : m.Lawful e) : (m.install e).Coherent ds := by
  cases e with
  | storeMeta r => exact coherent_storeMeta h r hderived hlawful.1 hlawful.2
  | policy r =>
    refine { h with known := h.known.install trivial, policed := ?_, chained := { h.chained with } }
    intro k x hx
    obtain ⟨p, hp⟩ := h.policed k x hx
    by_cases hk : x.policy = r.id
    · exact ⟨r, hk ▸ KeyedMap.insert_self _ _⟩
    · exact ⟨p, (KeyedMap.insert_of_ne _ hk).trans hp⟩
  | execution x =>
    rcases hlawful with hfresh | ⟨x₀, hx₀, hs⟩
    · exact coherent_fresh h hderived hfresh
    · exact coherent_succeeds h hderived hx₀ hs
  | action a => exact coherent_action hfree h a hderived hlawful
  | progress p => exact hlawful.elim
  | checkpoint c =>
    refine { h with
      known := h.known.install hderived
      checkpointed := fun k x hx => (h.checkpointed k x hx).insert ?_
      chained := { h.chained with } }
    intro c' hc'
    have hnamed := h.known.checkpoints _ c' hc'
    rw [m.checkpoints.keyed _ _ hc'] at hnamed
    injection hnamed.unique hderived hfree
  | continuation c =>
    refine { h with
      known := h.known.install hderived
      continued := fun k x hx => (h.continued k x hx).insert ?_
      continuationEpoch := forall_insert h.continuationEpoch hlawful
      chained := { h.chained with } }
    intro c' hc'
    have hnamed := h.known.continuations _ c' hc'
    rw [m.continuations.keyed _ _ hc'] at hnamed
    injection hnamed.unique hderived hfree
  | lease l => exact coherent_lease hfree h l hderived hlawful
  | replay r =>
    exact { h with known := h.known.install hderived, chained := { h.chained with } }
  | ambiguity amb => exact coherent_ambiguity hfree h amb hderived hlawful
  | commit c => exact hlawful.elim
  | recovery r =>
    refine { h with
      known := h.known.install hderived
      recovered := fun k x hx => (h.recovered k x hx).insert ?_
      chained := { h.chained with } }
    intro r' hr'
    have hnamed := h.known.recoveries _ r' hr'
    rw [m.recoveries.keyed _ _ hr'] at hnamed
    injection hnamed.unique hderived hfree
  | barrier r => exact h
  | commitGroup g =>
    obtain ⟨x, a, hg, hx, -, howner⟩ := hlawful
    exact coherent_commitGroup hfree h hg hx howner hderived

/-- Every record is derived from `ds` and lawful in the image before it. -/
def LawfulAll (ds : List Derivation) (m : Image) : List JournalEntry → Prop
  | [] => True
  | e :: es => e.Derived ds m.store ∧ m.Lawful e ∧ LawfulAll ds (m.install e) es

theorem lawfulAll_append {es fs : List JournalEntry} (hes : LawfulAll ds m es)
    (hfs : LawfulAll ds (m.installAll es) fs) : LawfulAll ds m (es ++ fs) := by
  induction es generalizing m with
  | nil => exact hfs
  | cons e rest ih => exact ⟨hes.1, hes.2.1, ih hes.2.2 hfs⟩

/-- Lawful records keep the image coherent at every record boundary. -/
theorem Coherent.installAll (hfree : CollisionFree ds) {es : List JournalEntry} (h : m.Coherent ds)
    (hes : LawfulAll ds m es) {p : List JournalEntry} (hp : p <+: es) :
    (m.installAll p).Coherent ds := by
  induction es generalizing m p with
  | nil =>
    rw [List.prefix_nil.mp hp]
    exact h
  | cons e rest ih =>
    cases p with
    | nil => exact h
    | cons e' p' =>
      obtain ⟨rfl, hp'⟩ := List.cons_prefix_cons.mp hp
      exact ih (h.install hfree hes.1 hes.2.1) hes.2.2 hp'

end Install

theorem Chained.agrees {m m' : Image} (h : m.Chained) (ha : m.Agrees m') : m'.Chained where
  counted := by
    intro k x hx
    obtain ⟨y, f, g, hy, rfl⟩ := ha.execution hx
    exact h.counted k y hy
  promoted := by
    intro k p hp
    rw [ha.progress] at hp
    obtain ⟨hcommitted, hone, ⟨x, hx, hle⟩, hcommit⟩ := h.promoted k p hp
    obtain ⟨y, f, g, hy, rfl⟩ := ha.symm.execution hx
    exact ⟨hcommitted, hone, ⟨y, hy, hle⟩, ha.commits ▸ hcommit⟩
  committed := by
    rw [ha.commits, ha.progress, ha.actions]
    exact h.committed
  reached := by
    intro k x n hx
    obtain ⟨y, f, g, hy, rfl⟩ := ha.execution hx
    rw [ha.progress]
    exact h.reached k y n hy
  newest := by
    intro k x hx
    obtain ⟨y, f, g, hy, rfl⟩ := ha.execution hx
    rw [ha.progress]
    exact h.newest k y hy

/-- Coherence does not depend on action frontiers. -/
theorem Coherent.agrees {ds : List Derivation} {m m' : Image} (h : m.Coherent ds)
    (ha : m.Agrees m') : m'.Coherent ds where
  known := h.known.agrees ha
  created := by
    intro k x hx
    obtain ⟨y, f, g, hy, rfl⟩ := ha.execution hx
    rw [ha.nextExecutionSequence]
    exact h.created k y hy
  policed := by
    intro k x hx
    obtain ⟨y, f, g, hy, rfl⟩ := ha.execution hx
    rw [ha.policies]
    exact h.policed k y hy
  continued := by
    intro k x hx
    obtain ⟨y, f, g, hy, rfl⟩ := ha.execution hx
    rw [ha.continuations]
    exact h.continued k y hy
  checkpointed := by
    intro k x hx
    obtain ⟨y, f, g, hy, rfl⟩ := ha.execution hx
    rw [ha.checkpoints]
    exact h.checkpointed k y hy
  recovered := by
    intro k x hx
    obtain ⟨y, f, g, hy, rfl⟩ := ha.execution hx
    rw [ha.recoveries]
    exact h.recovered k y hy
  owned := by
    intro k a hstored
    rw [ha.actions] at hstored
    obtain ⟨y, hy⟩ := h.owned k a hstored
    obtain ⟨x, f, g, hx, rfl⟩ := ha.symm.execution hy
    exact ⟨x, hx⟩
  bound := by
    intro k x hx
    obtain ⟨y, f, g, hy, rfl⟩ := ha.execution hx
    exact h.bound k y hy
  leased := by
    intro k x hx
    obtain ⟨y, f, g, hy, rfl⟩ := ha.execution hx
    rw [ha.leases]
    exact h.leased k y hy
  leaseEpoch := by
    rw [ha.leases, ha.epoch]
    exact h.leaseEpoch
  continuationEpoch := by
    rw [ha.continuations, ha.epoch]
    exact h.continuationEpoch
  ambiguous := by
    intro k x hx
    obtain ⟨y, f, g, hy, rfl⟩ := ha.execution hx
    rw [ha.ambiguities]
    exact h.ambiguous k y hy
  ambiguityAction := by
    rw [ha.ambiguities, ha.actions]
    exact h.ambiguityAction
  chained := h.chained.agrees ha

theorem Coherent.settled {ds : List Derivation} {m : Image} (h : m.Coherent ds) : m.Settled := by
  intro k p x hp _ hx
  obtain ⟨-, -, ⟨y, hy, hle⟩, -⟩ := h.chained.promoted k p hp
  obtain rfl := Option.some.inj (hx.symm.trans hy)
  exact hle

/-- An image without records is coherent. -/
theorem coherent_blank (ds : List Derivation) {m : Image} (hexecutions : ∀ k, m.executions k = none)
    (hactions : ∀ k, m.actions k = none) (hprogress : ∀ k, m.progress k = none)
    (hcheckpoints : ∀ k, m.checkpoints k = none) (hcontinuations : ∀ k, m.continuations k = none)
    (hleases : ∀ k, m.leases k = none) (hreplays : ∀ k, m.replays k = none)
    (hambiguities : ∀ k, m.ambiguities k = none) (hcommits : ∀ k, m.commits k = none)
    (hrecoveries : ∀ k, m.recoveries k = none) : m.Coherent ds := by
  constructor
  case known => constructor <;> simp_all
  case chained => constructor <;> simp_all
  all_goals simp_all

end Image

end ExecutionFabric
