import Mathlib.Tactic.Common

/-!
# Programs that may refuse

A program reads and updates a state and ends in a value or in a refusal. The
state survives a refusal, so what a refused program wrote stays written. `Leads`
states what holds of the result and of the state a program ends in; the rules
below follow the shape of a program from its first statement to its last.
-/
namespace ExecutionFabric.Lib

abbrev Program (σ ε α : Type) := ExceptT ε (StateM σ) α

namespace Program

variable {σ ε α β : Type}

/-- Runs a program from a state. -/
def exec (m : Program σ ε α) (s : σ) : Except ε α × σ := m.run.run s

def refuse (e : ε) : Program σ ε α := throw e

/-- Goes on only when `c` is false. -/
def refuseIf (c : Prop) [Decidable c] (e : ε) : Program σ ε Unit :=
  if c then throw e else pure ()

/-- The value of `o`, or a refusal. -/
def require (o : Option α) (e : ε) : Program σ ε α :=
  match o with
  | some a => pure a
  | none => throw e

/-- Goes on with the value of `r`, or refuses with its error. -/
def check (r : Except ε α) : Program σ ε α :=
  match r with
  | .ok a => pure a
  | .error e => throw e

/-- Refuses with the defect, if there is one. -/
def refuseOn (defect : Option ε) : Program σ ε Unit :=
  match defect with
  | some e => throw e
  | none => pure ()

def update (f : σ → σ) : Program σ ε Unit := modify f

/-- Runs `m` only when `c` is true. -/
def provided (c : Prop) [Decidable c] (m : Program σ ε Unit) : Program σ ε Unit :=
  if c then m else pure ()

/-- `m` leads from `s` to a result and a state in `Q`. -/
def Leads (m : Program σ ε α) (s : σ) (Q : Except ε α → σ → Prop) : Prop :=
  Q (m.exec s).1 (m.exec s).2

theorem leads_mono {m : Program σ ε α} {s : σ} {P Q : Except ε α → σ → Prop}
    (h : Leads m s P) (hpq : ∀ r s', P r s' → Q r s') : Leads m s Q := hpq _ _ h

@[simp] theorem exec_pure (a : α) (s : σ) : (pure a : Program σ ε α).exec s = (.ok a, s) := rfl

@[simp] theorem exec_refuse (e : ε) (s : σ) : (refuse e : Program σ ε α).exec s = (.error e, s) :=
  rfl

theorem exec_bind (m : Program σ ε α) (f : α → Program σ ε β) (s : σ) :
    (m >>= f).exec s = match m.exec s with
      | (.ok a, s') => (f a).exec s'
      | (.error e, s') => (.error e, s') := by
  simp only [exec, ExceptT.run_bind, StateT.run_bind]
  rcases h : (StateT.run (ExceptT.run m) s) with ⟨r, s'⟩
  cases r <;> rfl

theorem exec_get_bind (f : σ → Program σ ε α) (s : σ) : (get >>= f).exec s = (f s).exec s := rfl

theorem exec_update_bind (u : σ → σ) (f : Unit → Program σ ε α) (s : σ) :
    (update u >>= f).exec s = (f ()).exec (u s) := rfl

theorem exec_map (f : α → β) (m : Program σ ε α) (s : σ) :
    (f <$> m).exec s = ((m.exec s).1.map f, (m.exec s).2) := by
  rw [map_eq_pure_bind, exec_bind]
  rcases m.exec s with ⟨r, s'⟩
  cases r <;> rfl

section Rules

variable {Q : Except ε α → σ → Prop} {s : σ}

theorem leads_pure {a : α} (h : Q (.ok a) s) : Leads (pure a) s Q := h

/-- The rule for sequencing: what the first part leads to decides where the second starts. -/
theorem leads_bind {m : Program σ ε β} {f : β → Program σ ε α}
    (h : Leads m s fun r s' => match r with
      | .ok b => Leads (f b) s' Q
      | .error e => Q (.error e) s') : Leads (m >>= f) s Q := by
  unfold Leads at h ⊢
  rw [exec_bind]
  rcases hm : m.exec s with ⟨r, s'⟩
  rw [hm] at h
  cases r with
  | ok b => exact h
  | error e => exact h

theorem leads_get {f : σ → Program σ ε α} (h : Leads (f s) s Q) :
    Leads (get >>= f) s Q := h

theorem leads_update {g : σ → σ} {f : Unit → Program σ ε α} (h : Leads (f ()) (g s) Q) :
    Leads (update g >>= f) s Q := h

theorem leads_refuseIf {c : Prop} [Decidable c] {e : ε} {f : Unit → Program σ ε α}
    (herr : c → Q (.error e) s) (hok : ¬ c → Leads (f ()) s Q) :
    Leads (refuseIf c e >>= f) s Q := by
  unfold refuseIf
  split
  next hc => exact herr hc
  next hc => exact hok hc

theorem leads_require {o : Option β} {e : ε} {f : β → Program σ ε α}
    (herr : o = none → Q (.error e) s) (hok : ∀ b, o = some b → Leads (f b) s Q) :
    Leads (require o e >>= f) s Q := by
  cases o with
  | none => exact herr rfl
  | some b => exact hok b rfl

theorem leads_check {r : Except ε β} {f : β → Program σ ε α}
    (herr : ∀ e, r = .error e → Q (.error e) s) (hok : ∀ b, r = .ok b → Leads (f b) s Q) :
    Leads (check r >>= f) s Q := by
  cases r with
  | error e => exact herr e rfl
  | ok b => exact hok b rfl

theorem leads_refuseOn {o : Option ε} {f : Unit → Program σ ε α}
    (herr : ∀ e, o = some e → Q (.error e) s) (hok : o = none → Leads (f ()) s Q) :
    Leads (refuseOn o >>= f) s Q := by
  cases o with
  | some e => exact herr e rfl
  | none => exact hok rfl

theorem leads_ite {c : Prop} [Decidable c] {m n : Program σ ε α}
    (ht : c → Leads m s Q) (hf : ¬ c → Leads n s Q) : Leads (if c then m else n) s Q := by
  split
  next hc => exact ht hc
  next hc => exact hf hc

theorem leads_provided {c : Prop} [Decidable c] {m : Program σ ε Unit} {f : Unit → Program σ ε α}
    (ht : c → Leads (m >>= f) s Q) (hf : ¬ c → Leads (f ()) s Q) :
    Leads (provided c m >>= f) s Q := by
  unfold provided
  split
  next hc => exact ht hc
  next hc => exact hf hc

end Rules

/-! ## Two runs -/

/-- Two runs give one result and end in related states. -/
def Twin (R : σ → σ → Prop) (m n : Program σ ε α) (s t : σ) : Prop :=
  (m.exec s).1 = (n.exec t).1 ∧ R (m.exec s).2 (n.exec t).2

section Twins

variable {R : σ → σ → Prop} {s t : σ}

theorem twin_mono {R' : σ → σ → Prop} {m n : Program σ ε α} (h : Twin R m n s t)
    (hR : ∀ s' t', R s' t' → R' s' t') : Twin R' m n s t := ⟨h.1, hR _ _ h.2⟩

theorem twin_pure {a : α} (h : R s t) : Twin (ε := ε) R (pure a) (pure a) s t := ⟨rfl, h⟩

theorem twin_bind {m n : Program σ ε β} {f g : β → Program σ ε α} (h : Twin R m n s t)
    (hrest : ∀ b s' t', R s' t' → Twin R (f b) (g b) s' t') : Twin R (m >>= f) (n >>= g) s t := by
  unfold Twin at h ⊢
  rw [exec_bind, exec_bind]
  rcases hm : m.exec s with ⟨r, s'⟩
  rcases hn : n.exec t with ⟨r', t'⟩
  rw [hm, hn] at h
  obtain ⟨rfl, hR⟩ := h
  cases r with
  | ok b => exact hrest b s' t' hR
  | error e => exact ⟨rfl, hR⟩

/-- The rule for a first part of which more is known on one side. -/
theorem twin_bind_leads {m n : Program σ ε β} {f g : β → Program σ ε α} {P : β → σ → Prop}
    (h : Twin R m n s t) (hP : Leads n t fun r t' => ∀ b, r = .ok b → P b t')
    (hrest : ∀ b s' t', R s' t' → P b t' → Twin R (f b) (g b) s' t') :
    Twin R (m >>= f) (n >>= g) s t := by
  unfold Twin at h ⊢
  unfold Leads at hP
  rw [exec_bind, exec_bind]
  rcases hm : m.exec s with ⟨r, s'⟩
  rcases hn : n.exec t with ⟨r', t'⟩
  rw [hm, hn] at h
  rw [hn] at hP
  obtain ⟨rfl, hR⟩ := h
  cases r with
  | ok b => exact hrest b s' t' hR (hP b rfl)
  | error e => exact ⟨rfl, hR⟩

/-- The rule for a first part that is accepted on both sides: its two ends need not be related. -/
theorem twin_accepted {m n : Program σ ε β} {f g : β → Program σ ε α} {b : β} {s' t' : σ}
    (hm : m.exec s = (.ok b, s')) (hn : n.exec t = (.ok b, t')) (h : Twin R (f b) (g b) s' t') :
    Twin R (m >>= f) (n >>= g) s t := by
  unfold Twin at h ⊢
  rw [exec_bind, exec_bind, hm, hn]
  exact h

/-- The rule for a program made of two parts: its first step comes first. -/
theorem twin_assoc {γ δ : Type} {m n : Program σ ε γ} {f : γ → Program σ ε β} {f' : γ → Program σ ε δ}
    {g : β → Program σ ε α} {g' : δ → Program σ ε α}
    (h : Twin R (m >>= fun c => f c >>= g) (n >>= fun c => f' c >>= g') s t) :
    Twin R (m >>= f >>= g) (n >>= f' >>= g') s t := by
  rw [bind_assoc, bind_assoc]
  exact h

theorem twin_get {f g : σ → Program σ ε α} (h : Twin R (f s) (g t) s t) :
    Twin R (get >>= f) (get >>= g) s t := h

theorem twin_update {u v : σ → σ} {f g : Unit → Program σ ε α}
    (h : Twin R (f ()) (g ()) (u s) (v t)) : Twin R (update u >>= f) (update v >>= g) s t := h

theorem twin_check {r : Except ε β} {f g : β → Program σ ε α} (hR : R s t)
    (h : ∀ b, r = .ok b → Twin R (f b) (g b) s t) :
    Twin R (check r >>= f) (check r >>= g) s t := by
  cases r with
  | ok b => exact h b rfl
  | error e => exact ⟨rfl, hR⟩

theorem twin_accept {b : β} {f g : β → Program σ ε α} (h : Twin R (f b) (g b) s t) :
    Twin R (check (.ok b) >>= f) (check (.ok b) >>= g) s t := h

theorem twin_refuseIf {c : Prop} [Decidable c] {e : ε} {f g : Unit → Program σ ε α} (hR : R s t)
    (h : ¬ c → Twin R (f ()) (g ()) s t) : Twin R (refuseIf c e >>= f) (refuseIf c e >>= g) s t := by
  unfold refuseIf
  split
  next => exact ⟨rfl, hR⟩
  next hc => exact h hc

theorem twin_refuseOn {o : Option ε} {f g : Unit → Program σ ε α} (hR : R s t)
    (h : o = none → Twin R (f ()) (g ()) s t) :
    Twin R (refuseOn o >>= f) (refuseOn o >>= g) s t := by
  cases o with
  | some e => exact ⟨rfl, hR⟩
  | none => exact h rfl

theorem twin_provided {c : Prop} [Decidable c] {m : Program σ ε Unit} {f g : Unit → Program σ ε α}
    (hm : c → Twin R m m s t) (hR : R s t)
    (h : ∀ s' t', R s' t' → Twin R (f ()) (g ()) s' t') :
    Twin R (provided c m >>= f) (provided c m >>= g) s t := by
  unfold provided
  split
  next hc => exact twin_bind (hm hc) fun _ => h
  next => exact h s t hR

end Twins

/-! ## Curtailed runs -/

/-- `m` does what `n` does, or ends in the refusal `e`. -/
def Curtails (e : ε) (m n : Program σ ε α) : Prop :=
  ∀ s, (m.exec s).1 = .error e ∨ m.exec s = n.exec s

namespace Curtails

variable {e : ε} {s : σ}

theorem refl (m : Program σ ε α) : Curtails e m m := fun _ => .inr rfl

theorem refuseIf (c : Prop) [Decidable c] (e : ε) :
    Curtails e (Program.refuseIf c e : Program σ ε Unit) (pure ()) := by
  intro s
  unfold Program.refuseIf
  split
  · exact .inl rfl
  · exact .inr rfl

/-- The rule for sequencing at one state: the rest starts where `n` ends. -/
theorem bind_at {m n : Program σ ε β} {f g : β → Program σ ε α}
    (h : (m.exec s).1 = .error e ∨ m.exec s = n.exec s)
    (hrest : ∀ b s', n.exec s = (.ok b, s') →
      ((f b).exec s').1 = .error e ∨ (f b).exec s' = (g b).exec s') :
    ((m >>= f).exec s).1 = .error e ∨ (m >>= f).exec s = (n >>= g).exec s := by
  rw [exec_bind, exec_bind]
  rcases h with hrefused | hsame
  · rcases hm : m.exec s with ⟨r, s'⟩
    rw [hm] at hrefused
    replace hrefused : r = .error e := hrefused
    subst hrefused
    exact .inl rfl
  · rw [hsame]
    rcases hn : n.exec s with ⟨r, s'⟩
    cases r with
    | ok b => exact hrest b s' hn
    | error refusal => exact .inr rfl

theorem bind {m n : Program σ ε β} {f g : β → Program σ ε α} (h : Curtails e m n)
    (hrest : ∀ b, Curtails e (f b) (g b)) : Curtails e (m >>= f) (n >>= g) :=
  fun s => bind_at (h s) fun b s' _ => hrest b s'

/-- The rule for a common first part. -/
theorem after (m : Program σ ε β) {f g : β → Program σ ε α}
    (hrest : ∀ b, Curtails e (f b) (g b)) : Curtails e (m >>= f) (m >>= g) := (refl m).bind hrest

theorem provided {c : Prop} [Decidable c] {m n : Program σ ε Unit} (h : Curtails e m n) :
    Curtails e (Program.provided c m) (Program.provided c n) := by
  unfold Program.provided
  split
  · exact h
  · exact refl _

/-- What does not end in the refusal is what the other program does. -/
theorem exec_eq {m n : Program σ ε α} (h : Curtails e m n) (hs : (m.exec s).1 ≠ .error e) :
    m.exec s = n.exec s := (h s).resolve_left hs

end Curtails

end Program

end ExecutionFabric.Lib
