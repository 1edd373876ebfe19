import Pintos.Logic.Exec

/-!
# Computations that keep a log

`Traced σ ε κ α` is a computation of `Exec` that also writes a log with entries in `κ`, the
newest first. `Erases y x` says that `y` is `x` with a log: it returns the same and stops in the
same faults.
-/

namespace Pintos.Logic

namespace Exec

variable {σ ε κ α β : Type}

/-- A computation over the state `σ` with a log. -/
abbrev Traced (σ ε κ α : Type) : Type := Exec (σ × List κ) ε α

/-- A computation whose result is logged. -/
def logged (x : Exec σ ε α) (entries : α → List κ) : Traced σ ε κ α := fun s =>
  match x s.1 with
  | .ok (a, s') => .ok (a, s', entries a ++ s.2)
  | .error e => .error e

/-- `y` is `x` with a log. -/
def Erases (y : Traced σ ε κ α) (x : Exec σ ε α) : Prop :=
  ∀ s l, (y (s, l)).map (fun r => (r.1, r.2.1)) = x s

theorem wp_logged {x : Exec σ ε α} {entries : α → List κ} {E : ε → Prop}
    {Q : α → σ × List κ → Prop} {s : σ} {l : List κ} :
    (logged x entries).wp E Q (s, l) ↔ x.wp E (fun a s' => Q a (s', entries a ++ l)) s := by
  unfold wp logged
  cases x s <;> rfl

theorem erases_logged (x : Exec σ ε α) (entries : α → List κ) : Erases (logged x entries) x := by
  intro s l
  unfold logged
  cases x s <;> rfl

theorem Erases.pure (a : α) : Erases (Pure.pure a : Traced σ ε κ α) (Pure.pure a) := fun _ _ => rfl

theorem Erases.bind {x : Exec σ ε α} {y : Traced σ ε κ α} {f : α → Exec σ ε β}
    {g : α → Traced σ ε κ β} (hx : Erases y x) (hf : ∀ a, Erases (g a) (f a)) :
    Erases (y >>= g) (x >>= f) := by
  intro s l
  have h := hx s l
  cases hy : y (s, l) with
  | ok r =>
    rw [hy] at h
    rw [run_bind hy, run_bind h.symm]
    exact hf r.1 r.2.1 r.2.2
  | error e =>
    rw [hy] at h
    rw [run_bind_error hy, run_bind_error h.symm]
    rfl

theorem Erases.ite {c : Prop} [Decidable c] {x x' : Exec σ ε α} {y y' : Traced σ ε κ α}
    (h : Erases y x) (h' : Erases y' x') :
    Erases (if c then y else y') (if c then x else x') := by
  split
  · exact h
  · exact h'

/-- What `x` does is what `y` does, whatever the log. -/
theorem Erases.wp_iff {x : Exec σ ε α} {y : Traced σ ε κ α} (h : Erases y x) {E : ε → Prop}
    {Q : α → σ → Prop} {s : σ} (l : List κ) :
    x.wp E Q s ↔ y.wp E (fun a t => Q a t.1) (s, l) := by
  unfold wp
  rw [← h s l]
  cases y (s, l) <;> rfl

/-- A run of `x` has a log. -/
theorem Erases.ok {x : Exec σ ε α} {y : Traced σ ε κ α} (h : Erases y x) {s s' : σ} {a : α}
    (l : List κ) (hx : x s = .ok (a, s')) : ∃ l', y (s, l) = .ok (a, s', l') := by
  have hs := h s l
  rw [hx] at hs
  cases hy : y (s, l) with
  | ok r =>
    rw [hy] at hs
    obtain ⟨a', s'', l'⟩ := r
    cases Except.ok.inj hs
    exact ⟨l', rfl⟩
  | error e =>
    rw [hy] at hs
    cases hs

/-! ## The log grows -/

section Growing

variable {R : σ → σ → Prop} {F : σ → ε → Prop}

/-- `R` is kept, and entries are only added to the log. -/
def Growing (R : σ → σ → Prop) (s s' : σ × List κ) : Prop := R s.1 s'.1 ∧ s.2 <:+ s'.2

theorem growing (hR : StepRel R F) : StepRel (@Growing σ κ R) (fun s e => F s.1 e) where
  refl s := ⟨hR.refl s.1, List.suffix_refl s.2⟩
  trans h h' := ⟨hR.trans h.1 h'.1, h.2.trans h'.2⟩
  fault h h' := hR.fault h.1 h'

theorem growing_logged {x : Exec σ ε α} (hx : Steps R F x) (entries : α → List κ) :
    Steps (Growing R) (fun s e => F s.1 e) (logged x entries) := by
  rintro ⟨s, l⟩
  rw [wp_logged]
  exact wp_mono (hx s) (fun _ h => h) fun a s' h => ⟨h, List.suffix_append _ _⟩

end Growing

end Exec

end Pintos.Logic
