import Mathlib.Tactic.Common

/-!
# Computations with a state and faults

`Exec σ ε α` is a computation that reads and changes a state `σ` and either returns
an `α` or stops with a fault `ε`. A fault ends the run: the state is lost with it.

Two ways to talk about a computation are used by everything built on it.

* `Exec.wp x E Q s`: started in `s`, `x` returns a value and a state in `Q`,
  or stops with a fault in `E`. With `E` empty it says that `x` returns.
* `Exec.Steps R F x`: from every state, `x` returns in a state related to it by `R` or stops
  with a fault related to it by `F`. For a `StepRel` this is closed under everything `do`
  can write, so it is proved of a program by going over its steps.
-/

namespace Pintos.Logic

/-- A computation over the state `σ` that returns an `α` or stops with a fault in `ε`. -/
def Exec (σ ε α : Type) : Type := σ → Except ε (α × σ)

namespace Exec

variable {σ ε α β : Type}

instance : Monad (Exec σ ε) where
  pure a := fun s => .ok (a, s)
  bind x f := fun s =>
    match x s with
    | .ok (a, s') => f a s'
    | .error e => .error e

/-- Reads a part of the state. -/
def gets (f : σ → α) : Exec σ ε α := fun s => .ok (f s, s)

/-- Changes the state. -/
def modify (f : σ → σ) : Exec σ ε Unit := fun s => .ok ((), f s)

/-- Stops with a fault. -/
def throw (e : ε) : Exec σ ε α := fun _ => .error e

theorem run_bind {x : Exec σ ε α} {f : α → Exec σ ε β} {s s' : σ} {a : α}
    (h : x s = .ok (a, s')) : (x >>= f) s = f a s' := by
  show (match x s with | .ok (a, s') => f a s' | .error e => .error e) = _
  rw [h]

theorem run_bind_error {x : Exec σ ε α} {f : α → Exec σ ε β} {s : σ} {e : ε}
    (h : x s = .error e) : (x >>= f) s = .error e := by
  show (match x s with | .ok (a, s') => f a s' | .error e => .error e) = _
  rw [h]

theorem run_bind_ok {x : Exec σ ε α} {f : α → Exec σ ε β} {s s'' : σ} {b : β}
    (h : (x >>= f) s = .ok (b, s'')) : ∃ a s', x s = .ok (a, s') ∧ f a s' = .ok (b, s'') := by
  cases hx : x s with
  | error e =>
    rw [run_bind_error hx] at h
    cases h
  | ok r => exact ⟨r.1, r.2, rfl, (run_bind hx).symm.trans h⟩

theorem run_gets (f : σ → α) (g : α → Exec σ ε β) (s : σ) : (gets f >>= g) s = g (f s) s := rfl

theorem run_modify (f : σ → σ) (g : Unit → Exec σ ε β) (s : σ) :
    (modify f >>= g) s = g () (f s) := rfl

/-- A loop over a list whose body leaves the state as it is. -/
theorem run_foldlM {f : β → α → Exec σ ε β} {g : β → α → β} {s : σ} {l : List α}
    (hf : ∀ b, ∀ a ∈ l, f b a s = .ok (g b a, s)) (b : β) :
    l.foldlM f b s = .ok (l.foldl g b, s) := by
  induction l generalizing b with
  | nil => rfl
  | cons a l ih =>
    rw [List.foldlM_cons, run_bind (hf b a List.mem_cons_self)]
    exact ih (fun b x hx => hf b x (List.mem_cons_of_mem _ hx)) _

/-! ## Weakest preconditions -/

/-- Started in `s`, `x` returns into `Q` or stops with a fault in `E`. -/
def wp (x : Exec σ ε α) (E : ε → Prop) (Q : α → σ → Prop) (s : σ) : Prop :=
  match x s with
  | .ok (a, s') => Q a s'
  | .error e => E e

variable {E E' : ε → Prop} {Q Q' : α → σ → Prop} {s : σ}

@[simp] theorem wp_pure (a : α) : (pure a : Exec σ ε α).wp E Q s ↔ Q a s := Iff.rfl

@[simp] theorem wp_bind (x : Exec σ ε α) (f : α → Exec σ ε β) {Q : β → σ → Prop} :
    (x >>= f).wp E Q s ↔ x.wp E (fun a s' => (f a).wp E Q s') s := by
  show (match (match x s with | .ok (a, s') => f a s' | .error e => .error e) with
    | .ok (a, s') => Q a s' | .error e => E e) ↔ _
  unfold wp
  cases x s <;> rfl

@[simp] theorem wp_map (f : α → β) (x : Exec σ ε α) {Q : β → σ → Prop} :
    (f <$> x).wp E Q s ↔ x.wp E (fun a s' => Q (f a) s') s :=
  wp_bind x (fun a => pure (f a))

@[simp] theorem wp_gets (f : σ → α) : (gets f : Exec σ ε α).wp E Q s ↔ Q (f s) s := Iff.rfl

@[simp] theorem wp_modify (f : σ → σ) {Q : Unit → σ → Prop} :
    (modify f : Exec σ ε Unit).wp E Q s ↔ Q () (f s) := Iff.rfl

@[simp] theorem wp_throw (e : ε) : (throw e : Exec σ ε α).wp E Q s ↔ E e := Iff.rfl

@[simp] theorem wp_ite {c : Prop} [Decidable c] (x y : Exec σ ε α) :
    (if c then x else y).wp E Q s ↔ (c → x.wp E Q s) ∧ (¬ c → y.wp E Q s) := by
  by_cases h : c <;> simp [h]

/-- The rule of consequence. -/
theorem wp_mono {x : Exec σ ε α} (h : x.wp E Q s) (hE : ∀ e, E e → E' e)
    (hQ : ∀ a s', Q a s' → Q' a s') : x.wp E' Q' s := by
  unfold wp at *
  cases hx : x s with
  | ok r => rw [hx] at h; exact hQ _ _ h
  | error e => rw [hx] at h; exact hE _ h

/-- Two facts about one run hold together. -/
theorem wp_and {x : Exec σ ε α} (h : x.wp E Q s) (h' : x.wp E' Q' s) :
    x.wp (fun e => E e ∧ E' e) (fun a s' => Q a s' ∧ Q' a s') s := by
  unfold wp at *
  cases hx : x s with
  | ok r => rw [hx] at h h'; exact ⟨h, h'⟩
  | error e => rw [hx] at h h'; exact ⟨h, h'⟩

theorem wp_ok {x : Exec σ ε α} {a : α} {s' : σ} (h : x.wp E Q s) (hx : x s = .ok (a, s')) :
    Q a s' := by
  unfold wp at h
  rwa [hx] at h

theorem wp_of_run {x : Exec σ ε α} {a : α} {s' : σ} (hx : x s = .ok (a, s')) (hQ : Q a s') :
    x.wp E Q s := by
  unfold wp
  rwa [hx]

theorem wp_error {x : Exec σ ε α} {e : ε} (h : x.wp E Q s) (hx : x s = .error e) : E e := by
  unfold wp at h
  rwa [hx] at h

theorem toOption_some {x : Except ε α} {a : α} (h : x.toOption = some a) : x = .ok a := by
  cases x with
  | ok b => exact congrArg Except.ok (Option.some.inj h)
  | error e => cases h

/-- A computation whose faults are ruled out returns. -/
theorem wp_returns {x : Exec σ ε α} (h : x.wp (fun _ => False) Q s) :
    ∃ a s', x s = .ok (a, s') ∧ Q a s' := by
  unfold wp at h
  cases hx : x s with
  | ok r => rw [hx] at h; exact ⟨r.1, r.2, rfl, h⟩
  | error e => rw [hx] at h; exact h.elim

/-! ## Relations kept by every step -/

/--
A relation between the states of a run that its steps can be checked one by one against:
`R` between a state and a later one, `F` between a state and the fault the run stops with.
-/
structure StepRel (R : σ → σ → Prop) (F : σ → ε → Prop) : Prop where
  refl : ∀ s, R s s
  trans : ∀ {s s₁ s₂}, R s s₁ → R s₁ s₂ → R s s₂
  fault : ∀ {s s₁ e}, R s s₁ → F s₁ e → F s e

/-- From every state, `x` returns in a state related to it, or stops in a related fault. -/
def Steps (R : σ → σ → Prop) (F : σ → ε → Prop) (x : Exec σ ε α) : Prop :=
  ∀ s, x.wp (F s) (fun _ s' => R s s') s

section Steps

variable {R : σ → σ → Prop} {F : σ → ε → Prop}

theorem Steps.pure (hR : StepRel R F) (a : α) : Steps R F (Pure.pure a : Exec σ ε α) :=
  fun s => hR.refl s

theorem Steps.gets (hR : StepRel R F) (f : σ → α) : Steps R F (gets f : Exec σ ε α) :=
  fun s => hR.refl s

theorem Steps.modify {f : σ → σ} (h : ∀ s, R s (f s)) : Steps R F (modify f : Exec σ ε Unit) := h

theorem Steps.bind (hR : StepRel R F) {x : Exec σ ε α} {f : α → Exec σ ε β}
    (hx : Steps R F x) (hf : ∀ a, Steps R F (f a)) : Steps R F (x >>= f) := by
  intro s
  rw [wp_bind]
  refine wp_mono (hx s) (fun _ h => h) fun a s₁ h₁ => ?_
  exact wp_mono (hf a s₁) (fun _ h => hR.fault h₁ h) fun _ _ h₂ => hR.trans h₁ h₂

theorem Steps.map (hR : StepRel R F) {x : Exec σ ε α} (f : α → β) (hx : Steps R F x) :
    Steps R F (f <$> x) :=
  Steps.bind hR hx fun a => Steps.pure hR (f a)

theorem Steps.ite {c : Prop} [Decidable c] {x y : Exec σ ε α} (hx : Steps R F x)
    (hy : Steps R F y) : Steps R F (if c then x else y) := by
  split
  · exact hx
  · exact hy

end Steps

/-! ## Values returned -/

/-- Whenever `x` returns, it returns a value in `P`. -/
def Returns (x : Exec σ ε α) (P : α → Prop) : Prop :=
  ∀ s, x.wp (fun _ => True) (fun a _ => P a) s

theorem Returns.pure {a : α} {P : α → Prop} (h : P a) :
    Returns (Pure.pure a : Exec σ ε α) P := fun _ => h

theorem Returns.bind {x : Exec σ ε α} {f : α → Exec σ ε β} {P : β → Prop}
    (hf : ∀ a, Returns (f a) P) : Returns (x >>= f) P := by
  intro s
  rw [wp_bind]
  unfold wp
  cases x s with
  | ok r => exact hf r.1 r.2
  | error e => trivial

theorem Returns.ite {c : Prop} [Decidable c] {x y : Exec σ ε α} {P : α → Prop}
    (hx : Returns x P) (hy : Returns y P) : Returns (if c then x else y) P := by
  split
  · exact hx
  · exact hy

end Exec

end Pintos.Logic
