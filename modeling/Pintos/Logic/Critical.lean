import Mathlib.Logic.Function.Basic
import Mathlib.Tactic.Common

/-!
# Threads that share locks and a region of code

Threads run straight programs, one instruction at a time and in any order. A program takes
and gives back locks, and goes in and out of one region of code, where it works on what the
threads share. An action may end its thread, which then runs its last program, or halt
everything.

* `Along` — what holds at every point of a program, given the locks held before it.
* `Reachable.along` — it holds at every point of every run, for the locks really held.
* `Through` — the parts of a program, one after the other.
* `Reachable.serial` — where no two threads are in the region at a time, a visit to it is one
  step for the others, and keeps what each of its steps keeps.
-/

namespace Pintos.Logic

variable {T L R A B E W V : Type}

/-- An instruction of a program. -/
inductive Instr (L R A B : Type) where
  | acquire (lock : L)
  | release (lock : L)
  /-- Into the region, by one of the ways in. -/
  | enter (way : R)
  /-- Out of the region. -/
  | leave
  | act (a : A)
  /-- Works on what the threads share. -/
  | work (b : B)

/-- What an action does to its thread. -/
inductive Outcome where
  | next
  /-- The thread ends. -/
  | die
  /-- Everything stops. -/
  | halt
  deriving DecidableEq

/-- What the threads share in the region, and the variables of a thread there. -/
structure Region (B W V : Type) where
  start : W
  /-- The variables of a thread that comes in. -/
  fresh : V
  /-- What an instruction does, and whether it is a turn of a loop that has another one; `none`
  where the program does not go on with it. -/
  run : B → V → W → Option (V × W × Bool)

/-- Some work, one instruction after the other. -/
def Region.replay (g : Region B W V) (bs : List B) (x : V × W) : Option (V × W) :=
  bs.foldlM (fun x b => (g.run b x.1 x.2).map fun y => (y.1, y.2.1)) x

/-- The state of the threads and the locks. -/
structure Conf (T L R A B E W V : Type) where
  prog : T → List (Instr L R A B)
  /-- What the actions of a thread depend on. -/
  env : T → E
  /-- The way by which a thread has come into the region. -/
  inside : T → Option R
  /-- Whether the thread has ended; it still has its last program to run. -/
  dead : T → Bool
  holder : L → Option T
  halted : Bool
  shared : W
  vars : T → V
  /-- What a thread has found in the region. It is of no effect. -/
  found : T → W
  /-- The work of a thread since then. It is of no effect. -/
  done : T → List B

variable [DecidableEq T] [DecidableEq L]

/-- Whether a thread holds a lock. -/
def Conf.holds (s : Conf T L R A B E W V) (t : T) (l : L) : Bool := s.holder l = some t

/-- No thread runs and no lock is held. -/
def Conf.idle (g : Region B W V) (env : E) : Conf T L R A B E W V where
  prog _ := []
  env _ := env
  inside _ := none
  dead _ := false
  holder _ := none
  halted := false
  shared := g.start
  vars _ := g.fresh
  found _ := g.start
  done _ := []

section Steps

-- what actions do, the last program of a thread, what a thread may start, and when it may end
variable (effect : E → A → Outcome) (last : E → List (Instr L R A B))
  (Start : E → List (Instr L R A B) → Prop) (End : E → Prop)
-- what the region does, and when a thread may come in by a way
variable (g : Region B W V) (Go : Conf T L R A B E W V → T → R → Prop)

/-- One instruction of one thread. -/
inductive Step (s : Conf T L R A B E W V) : Conf T L R A B E W V → Prop where
  | start (t : T) (e : E) (p : List (Instr L R A B)) (idle : s.prog t = [])
      (alive : s.dead t = false) (hp : Start e p) :
      Step s { s with prog := Function.update s.prog t p, env := Function.update s.env t e }
  | exit (t : T) (e : E) (idle : s.prog t = []) (alive : s.dead t = false) (he : End e) :
      Step s { s with
        prog := Function.update s.prog t (last e)
        env := Function.update s.env t e
        dead := Function.update s.dead t true }
  | acquire (t : T) (l : L) (p : List (Instr L R A B)) (hp : s.prog t = .acquire l :: p)
      (free : s.holder l = none) :
      Step s { s with
        prog := Function.update s.prog t p
        holder := Function.update s.holder l (some t) }
  | release (t : T) (l : L) (p : List (Instr L R A B)) (hp : s.prog t = .release l :: p) :
      Step s { s with prog := Function.update s.prog t p, holder := Function.update s.holder l none }
  | enter (t : T) (r : R) (p : List (Instr L R A B)) (hp : s.prog t = .enter r :: p)
      (hgo : Go s t r) :
      Step s { s with
        prog := Function.update s.prog t p
        inside := Function.update s.inside t (some r)
        vars := Function.update s.vars t g.fresh
        found := Function.update s.found t s.shared
        done := Function.update s.done t [] }
  | leave (t : T) (p : List (Instr L R A B)) (hp : s.prog t = .leave :: p) :
      Step s { s with
        prog := Function.update s.prog t p
        inside := Function.update s.inside t none }
  | act (t : T) (a : A) (p : List (Instr L R A B)) (hp : s.prog t = .act a :: p)
      (ha : effect (s.env t) a = .next) : Step s { s with prog := Function.update s.prog t p }
  | die (t : T) (a : A) (p : List (Instr L R A B)) (hp : s.prog t = .act a :: p)
      (ha : effect (s.env t) a = .die) :
      Step s { s with
        prog := Function.update s.prog t (last (s.env t))
        inside := Function.update s.inside t none
        dead := Function.update s.dead t true }
  | halt (t : T) (a : A) (p : List (Instr L R A B)) (hp : s.prog t = .act a :: p)
      (ha : effect (s.env t) a = .halt) : Step s { s with halted := true }
  | work (t : T) (b : B) (p : List (Instr L R A B)) (hp : s.prog t = .work b :: p)
      (v : V) (w : W) (again : Bool) (hb : g.run b (s.vars t) s.shared = some (v, w, again)) :
      Step s { s with
        prog := Function.update s.prog t (if again then s.prog t else p)
        shared := w
        vars := Function.update s.vars t v
        done := Function.update s.done t (s.done t ++ [b]) }

/-- The states of the runs. -/
inductive Reachable : Conf T L R A B E W V → Prop where
  | init (env : E) : Reachable (.idle g env)
  | step {s s' : Conf T L R A B E W V} (h : Reachable s) (running : s.halted = false)
      (hs : Step effect last Start End g Go s s') : Reachable s'

variable {g Go}

/-- The next instruction of a thread, `none` where it cannot go on. -/
def Conf.next (g : Region B W V) (s : Conf T L R A B E W V) (t : T) :
    Option (Conf T L R A B E W V) :=
  if s.halted then none else
  match s.prog t with
  | [] => none
  | .acquire l :: p =>
    if (s.holder l).isSome then none else
    some { s with
      prog := Function.update s.prog t p
      holder := Function.update s.holder l (some t) }
  | .release l :: p =>
    some { s with
      prog := Function.update s.prog t p
      holder := Function.update s.holder l none }
  | .enter r :: p =>
    some { s with
      prog := Function.update s.prog t p
      inside := Function.update s.inside t (some r)
      vars := Function.update s.vars t g.fresh
      found := Function.update s.found t s.shared
      done := Function.update s.done t [] }
  | .leave :: p =>
    some { s with
      prog := Function.update s.prog t p
      inside := Function.update s.inside t none }
  | .act a :: p =>
    match effect (s.env t) a with
    | .next => some { s with prog := Function.update s.prog t p }
    | .die =>
      some { s with
        prog := Function.update s.prog t (last (s.env t))
        inside := Function.update s.inside t none
        dead := Function.update s.dead t true }
    | .halt => some { s with halted := true }
  | .work b :: p =>
    match g.run b (s.vars t) s.shared with
    | none => none
    | some (v, w, again) =>
      some { s with
        prog := Function.update s.prog t (if again then s.prog t else p)
        shared := w
        vars := Function.update s.vars t v
        done := Function.update s.done t (s.done t ++ [b]) }

/-- The instructions of the threads of a list, one after the other. -/
def Conf.schedule (g : Region B W V) (ts : List T) (s : Conf T L R A B E W V) :
    Option (Conf T L R A B E W V) :=
  ts.foldlM (Conf.next effect last g) s

variable {effect last Start End}

theorem Step.of_next {s s' : Conf T L R A B E W V} {t : T}
    (h : s.next effect last g t = some s')
    (hgo : ∀ r p, s.prog t = .enter r :: p → Go s t r) :
    s.halted = false ∧ Step effect last Start End g Go s s' := by
  unfold Conf.next at h
  split_ifs at h with hhalt
  refine ⟨by simpa using hhalt, ?_⟩
  split at h
  · cases h
  · next l p hp =>
    split_ifs at h with hfree
    cases h
    exact .acquire t l p hp (by simpa using hfree)
  · next l p hp =>
    cases h
    exact .release t l p hp
  · next r p hp =>
    cases h
    exact .enter t r p hp (hgo r p hp)
  · next p hp =>
    cases h
    exact .leave t p hp
  · next a p hp =>
    split at h <;> cases h
    · next ha => exact .act t a p hp ha
    · next ha => exact .die t a p hp ha
    · next ha => exact .halt t a p hp ha
  · next b p hp =>
    split at h
    · cases h
    · next v w again hb =>
      cases h
      exact .work t b p hp v w again hb

/-- A step of a thread does not bring another one in or out. -/
theorem Conf.next_inside {s s' : Conf T L R A B E W V} {t u : T}
    (h : s.next effect last g t = some s') (hu : u ≠ t) : s'.inside u = s.inside u := by
  unfold Conf.next at h
  split_ifs at h
  split at h
  · cases h
  · split_ifs at h
    cases h
    rfl
  · cases h
    rfl
  · cases h
    exact Function.update_of_ne hu _ _
  · cases h
    exact Function.update_of_ne hu _ _
  · split at h <;> cases h
    · rfl
    · exact Function.update_of_ne hu _ _
    · rfl
  · split at h <;> cases h
    rfl

/-- A schedule leads from run to run, if every way in is free. -/
theorem Reachable.schedule {s s' : Conf T L R A B E W V} (hgo : ∀ s t r, Go s t r) (ts : List T)
    (h : Reachable effect last Start End g Go s) (hs : s.schedule effect last g ts = some s') :
    Reachable effect last Start End g Go s' := by
  induction ts generalizing s with
  | nil =>
    cases hs
    exact h
  | cons t ts ih =>
    obtain ⟨s₁, hnext, hrest⟩ := Option.bind_eq_some_iff.mp hs
    obtain ⟨hrun, hstep⟩ := Step.of_next hnext fun r _ _ => hgo s t r
    exact ih (h.step hrun hstep) hrest

/-- A thread that goes on while no other is in the region, and the others stay out. -/
theorem Reachable.solo {s s' : Conf T L R A B E W V} {t : T} {n : Nat}
    (hgo : ∀ s t r, (∀ u, u ≠ t → s.inside u = none) → Go s t r)
    (h : Reachable effect last Start End g Go s) (hout : ∀ u, u ≠ t → s.inside u = none)
    (hs : s.schedule effect last g (List.replicate n t) = some s') :
    Reachable effect last Start End g Go s' ∧ ∀ u, u ≠ t → s'.inside u = none := by
  induction n generalizing s with
  | zero =>
    cases hs
    exact ⟨h, hout⟩
  | succ n ih =>
    obtain ⟨s₁, hnext, hrest⟩ := Option.bind_eq_some_iff.mp hs
    obtain ⟨hrun, hstep⟩ := Step.of_next hnext fun r _ _ => hgo s t r hout
    exact ih (h.step hrun hstep) (fun u hu => (Conf.next_inside hnext hu).trans (hout u hu)) hrest

/-- A thread that goes in and out while no other is in the region. -/
theorem Reachable.visit {s s' : Conf T L R A B E W V} {t : T} {n : Nat}
    (hgo : ∀ s t r, (∀ u, u ≠ t → s.inside u = none) → Go s t r)
    (h : Reachable effect last Start End g Go s ∧ ∀ u, s.inside u = none)
    (hs : s.schedule effect last g (List.replicate n t) = some s') (ht : s'.inside t = none) :
    Reachable effect last Start End g Go s' ∧ ∀ u, s'.inside u = none := by
  obtain ⟨hreach, hout⟩ := h.1.solo hgo (fun u _ => h.2 u) hs
  refine ⟨hreach, fun u => ?_⟩
  rcases eq_or_ne u t with rfl | hu
  · exact ht
  · exact hout u hu

end Steps

/-! ## What holds along a program -/

/-- A condition on the locks held, on being in the region, and on the next instruction. -/
abbrev Cond (L R A B : Type) := (L → Bool) → Option R → Option (Instr L R A B) → Prop

/-- The condition holds at every point of a program. -/
def Along (P : Cond L R A B) : (L → Bool) → Option R → List (Instr L R A B) → Prop
  | held, inside, [] => P held inside none
  | held, inside, .acquire l :: p =>
    P held inside (some (.acquire l)) ∧ Along P (Function.update held l true) inside p
  | held, inside, .release l :: p =>
    P held inside (some (.release l)) ∧ Along P (Function.update held l false) inside p
  | held, inside, .enter r :: p => P held inside (some (.enter r)) ∧ Along P held (some r) p
  | held, inside, .leave :: p => P held inside (some .leave) ∧ Along P held none p
  | held, inside, .act a :: p => P held inside (some (.act a)) ∧ Along P held inside p
  | held, inside, .work b :: p => P held inside (some (.work b)) ∧ Along P held inside p

theorem Along.here {P : Cond L R A B} {held : L → Bool} {inside : Option R}
    {p : List (Instr L R A B)}
    (h : Along P held inside p) : P held inside p.head? := by
  cases p with
  | nil => exact h
  | cons i p => cases i <;> exact h.1

theorem Along.mono {P Q : Cond L R A B}
    (hPQ : ∀ held inside next, P held inside next → Q held inside next)
    {held : L → Bool} {inside : Option R} {p : List (Instr L R A B)} (h : Along P held inside p) :
    Along Q held inside p := by
  induction p generalizing held inside with
  | nil => exact hPQ _ _ _ h
  | cons i p ih => cases i <;> exact ⟨hPQ _ _ _ h.1, ih h.2⟩

theorem Along.and {P Q : Cond L R A B} {held : L → Bool} {inside : Option R}
    {p : List (Instr L R A B)}
    (hP : Along P held inside p) (hQ : Along Q held inside p) :
    Along (fun held inside next => P held inside next ∧ Q held inside next) held inside p := by
  induction p generalizing held inside with
  | nil => exact ⟨hP, hQ⟩
  | cons i p ih => cases i <;> exact ⟨⟨hP.1, hQ.1⟩, ih hP.2 hQ.2⟩

/-- A part of a program leads from one point to another. -/
def Through (P : Cond L R A B) (held : L → Bool) (inside : Option R) (p : List (Instr L R A B))
    (held' : L → Bool) (inside' : Option R) : Prop :=
  ∀ q, Along P held' inside' q → Along P held inside (p ++ q)

namespace Through

variable {P : Cond L R A B} {held held' held'' : L → Bool} {i i' i'' : Option R}
  {p q : List (Instr L R A B)}

theorem nil : Through P held i [] held i := fun _ h => h

theorem append (hp : Through P held i p held' i') (hq : Through P held' i' q held'' i'') :
    Through P held i (p ++ q) held'' i'' := fun r hr => by
  rw [List.append_assoc]
  exact hp _ (hq r hr)

theorem act {a : A} (h : P held i (some (.act a))) : Through P held i [.act a] held i :=
  fun _ hq => ⟨h, hq⟩

theorem work {b : B} (h : P held i (some (.work b))) : Through P held i [.work b] held i :=
  fun _ hq => ⟨h, hq⟩

/-- Actions one after the other. -/
theorem acts {as : List A} (h : ∀ a ∈ as, P held i (some (.act a))) :
    Through P held i (as.map .act) held i := by
  induction as with
  | nil => exact nil
  | cons a as ih =>
    exact append (act (h a List.mem_cons_self)) (ih fun b hb => h b (List.mem_cons_of_mem _ hb))

/-- A part that holds a lock. -/
theorem locked {l : L} (ha : P held i (some (.acquire l)))
    (hp : Through P (Function.update held l true) i p (Function.update held l true) i)
    (hr : P (Function.update held l true) i (some (.release l))) (hl : held l = false) :
    Through P held i (.acquire l :: p ++ [.release l]) held i := by
  intro q hq
  refine ⟨ha, ?_⟩
  show Along P _ i ((p ++ [.release l]) ++ q)
  rw [List.append_assoc]
  refine hp _ ⟨hr, ?_⟩
  rwa [Function.update_idem, ← hl, Function.update_eq_self]

/-- A part in the region. -/
theorem region {r : R} (he : P held none (some (.enter r)))
    (hp : Through P held (some r) p held (some r)) (hl : P held (some r) (some .leave)) :
    Through P held none (.enter r :: p ++ [.leave]) held none := by
  intro q hq
  refine ⟨he, ?_⟩
  show Along P held (some r) ((p ++ [.leave]) ++ q)
  rw [List.append_assoc]
  exact hp _ ⟨hl, hq⟩

theorem along (hp : Through P held i p held' i') (h : P held' i' none) : Along P held i p := by
  have := hp [] h
  rwa [List.append_nil] at this

end Through

/-! ## What holds along a run -/

section

variable {effect : E → A → Outcome} {last : E → List (Instr L R A B)}
  {Start : E → List (Instr L R A B) → Prop} {End : E → Prop} {g : Region B W V}
  {Go : Conf T L R A B E W V → T → R → Prop} {P : E → Bool → Cond L R A B}
  {s s' : Conf T L R A B E W V}

/-- What a condition on programs has to say to hold along the runs. -/
structure Inductive (effect : E → A → Outcome) (last : E → List (Instr L R A B))
    (Start : E → List (Instr L R A B) → Prop) (End : E → Prop) (P : E → Bool → Cond L R A B) :
    Prop where
  start : ∀ e p, Start e p → Along (P e false) (fun _ => false) none p
  exit : ∀ e, End e → Along (P e true) (fun _ => false) none (last e)
  /-- A thread with nothing to do holds nothing. -/
  done : ∀ e held inside, P e false held inside none → inside = none ∧ ∀ l, held l = false
  /-- Only a lock that is held is released. -/
  release : ∀ e dead held inside l, P e dead held inside (some (.release l)) → held l = true
  die : ∀ e dead held inside a, P e dead held inside (some (.act a)) → effect e a = .die →
    Along (P e true) held none (last e)

/-- The condition holds from where every thread is. -/
def Conf.Along (P : E → Bool → Cond L R A B) (s : Conf T L R A B E W V) : Prop :=
  ∀ t, Logic.Along (P (s.env t) (s.dead t)) (s.holds t) (s.inside t) (s.prog t)

theorem Step.along (hP : Inductive effect last Start End P) (h : s.Along P)
    (hs : Step effect last Start End g Go s s') : s'.Along P := by
  have hidle : ∀ t, s.prog t = [] → s.dead t = false →
      s.inside t = none ∧ s.holds t = fun _ => false := by
    intro t hprog hdead
    have ht := h t
    rw [hprog, hdead] at ht
    obtain ⟨hin, hheld⟩ := hP.done _ _ _ ht
    exact ⟨hin, funext hheld⟩
  -- a thread that does not move is where it was, with the locks it had
  have hrest : ∀ u, s'.prog u = s.prog u → s'.env u = s.env u → s'.dead u = s.dead u →
      s'.inside u = s.inside u → (∀ l, s'.holds u l = s.holds u l) →
      Logic.Along (P (s'.env u) (s'.dead u)) (s'.holds u) (s'.inside u) (s'.prog u) := by
    intro u h1 h2 h3 h4 h5
    rw [h1, h2, h3, h4, funext h5]
    exact h u
  -- the thread that moves is past its first instruction
  have hmoved : ∀ u e d held i p, s'.prog u = p → s'.env u = e → s'.dead u = d → s'.inside u = i →
      (∀ l, s'.holds u l = held l) → Logic.Along (P e d) held i p →
      Logic.Along (P (s'.env u) (s'.dead u)) (s'.holds u) (s'.inside u) (s'.prog u) := by
    intro u e d held i p h1 h2 h3 h4 h5 hp
    rw [h1, h2, h3, h4, funext h5]
    exact hp
  intro u
  cases hs with
  | start t e p idle alive hp =>
    rcases eq_or_ne u t with rfl | hu
    · obtain ⟨hin, hheld⟩ := hidle u idle alive
      exact hmoved u e false _ none p (Function.update_self _ _ _) (Function.update_self _ _ _) alive
        hin (congrFun hheld) (hP.start e p hp)
    · exact hrest u (Function.update_of_ne hu _ _) (Function.update_of_ne hu _ _) rfl rfl fun _ => rfl
  | exit t e idle alive he =>
    rcases eq_or_ne u t with rfl | hu
    · obtain ⟨hin, hheld⟩ := hidle u idle alive
      exact hmoved u e true _ none _ (Function.update_self _ _ _) (Function.update_self _ _ _)
        (Function.update_self _ _ _) hin (congrFun hheld) (hP.exit e he)
    · exact hrest u (Function.update_of_ne hu _ _) (Function.update_of_ne hu _ _)
        (Function.update_of_ne hu _ _) rfl fun _ => rfl
  | acquire t l p hp free =>
    rcases eq_or_ne u t with rfl | hu
    · have hu := h u
      rw [hp] at hu
      refine hmoved u _ _ _ _ p (Function.update_self _ _ _) rfl rfl rfl (fun m => ?_) hu.2
      rcases eq_or_ne m l with rfl | hm <;> simp [Conf.holds, *]
    · refine hrest u (Function.update_of_ne hu _ _) rfl rfl rfl fun m => ?_
      rcases eq_or_ne m l with rfl | hm <;> simp [Conf.holds, *, Ne.symm hu]
  | release t l p hp =>
    have ht := h t
    rw [hp] at ht
    have hheld : s.holder l = some t := by simpa [Conf.holds] using hP.release _ _ _ _ _ ht.1
    rcases eq_or_ne u t with rfl | hu
    · refine hmoved u _ _ _ _ p (Function.update_self _ _ _) rfl rfl rfl (fun m => ?_) ht.2
      rcases eq_or_ne m l with rfl | hm <;> simp [Conf.holds, *]
    · refine hrest u (Function.update_of_ne hu _ _) rfl rfl rfl fun m => ?_
      rcases eq_or_ne m l with rfl | hm <;> simp [Conf.holds, *, Ne.symm hu]
  | enter t r p hp hgo =>
    rcases eq_or_ne u t with rfl | hu
    · have hu := h u
      rw [hp] at hu
      exact hmoved u _ _ _ (some r) p (Function.update_self _ _ _) rfl rfl (Function.update_self _ _ _)
        (fun _ => rfl) hu.2
    · exact hrest u (Function.update_of_ne hu _ _) rfl rfl (Function.update_of_ne hu _ _) fun _ => rfl
  | leave t p hp =>
    rcases eq_or_ne u t with rfl | hu
    · have hu := h u
      rw [hp] at hu
      exact hmoved u _ _ _ none p (Function.update_self _ _ _) rfl rfl (Function.update_self _ _ _)
        (fun _ => rfl) hu.2
    · exact hrest u (Function.update_of_ne hu _ _) rfl rfl (Function.update_of_ne hu _ _) fun _ => rfl
  | act t a p hp ha =>
    rcases eq_or_ne u t with rfl | hu
    · have hu := h u
      rw [hp] at hu
      exact hmoved u _ _ _ _ p (Function.update_self _ _ _) rfl rfl rfl (fun _ => rfl) hu.2
    · exact hrest u (Function.update_of_ne hu _ _) rfl rfl rfl fun _ => rfl
  | die t a p hp ha =>
    rcases eq_or_ne u t with rfl | hu
    · have hu := h u
      rw [hp] at hu
      exact hmoved u _ true _ none _ (Function.update_self _ _ _) rfl (Function.update_self _ _ _)
        (Function.update_self _ _ _) (fun _ => rfl) (hP.die _ _ _ _ _ hu.1 ha)
    · exact hrest u (Function.update_of_ne hu _ _) rfl (Function.update_of_ne hu _ _)
        (Function.update_of_ne hu _ _) fun _ => rfl
  | halt t a p hp ha => exact h u
  | work t b p hp v w again hb =>
    rcases eq_or_ne u t with rfl | hu
    · have hu := h u
      cases again with
      -- another turn of the loop: the thread stays where it is
      | true => exact hrest u (Function.update_self _ _ _) rfl rfl rfl fun _ => rfl
      | false =>
        rw [hp] at hu
        exact hmoved u _ _ _ _ p (Function.update_self _ _ _) rfl rfl rfl (fun _ => rfl) hu.2
    · exact hrest u (Function.update_of_ne hu _ _) rfl rfl rfl fun _ => rfl

/-- A condition that holds along every program holds at every point of every run. -/
theorem Reachable.along (hP : Inductive effect last Start End P)
    (hidle : ∀ e, P e false (fun _ => false) none none)
    (h : Reachable effect last Start End g Go s) : s.Along P := by
  induction h with
  | init env =>
    intro t
    have hheld : (Conf.idle g env : Conf T L R A B E W V).holds t = fun _ => false := by
      funext l
      rfl
    rw [hheld]
    exact hidle env
  | step _ _ hs ih => exact hs.along hP ih

/-! ## One thread at a time -/

/-- No two threads are in the region. -/
def Conf.Alone (s : Conf T L R A B E W V) : Prop :=
  ∀ t u, s.inside t ≠ none → s.inside u ≠ none → t = u

/-- A thread comes in by a way without a lock only while no other is in the region, and none comes
in beside one that has come so. -/
def Apart (bare : R → Prop) (s : Conf T L R A B E W V) (t : T) (r : R) : Prop :=
  (bare r ∨ ∃ u r', s.inside u = some r' ∧ bare r') → ∀ u, u ≠ t → s.inside u = none

/-- What each step of the work keeps, `J` of the variables and of what is shared. -/
structure Region.Keeps (g : Region B W V) (J : V → W → Prop) : Prop where
  start : J g.fresh g.start
  /-- Also when a thread forgets its variables. -/
  fresh : ∀ v w, J v w → J g.fresh w
  run : ∀ b v w v' w' again, g.run b v w = some (v', w', again) → J v w → J v' w'

/-- The threads have been in the region one after the other. -/
structure Conf.Serial (g : Region B W V) (J : V → W → Prop) (s : Conf T L R A B E W V) : Prop where
  alone : s.Alone
  /-- A thread there has to do with its own work only. -/
  visit : ∀ t, s.inside t ≠ none →
    g.replay (s.done t) (g.fresh, s.found t) = some (s.vars t, s.shared)
  kept : J g.fresh s.shared
  keptInside : ∀ t, s.inside t ≠ none → J (s.vars t) s.shared

theorem Region.replay_append {b : B} {bs : List B} {x : V × W} {v v' : V} {w w' : W} {again : Bool}
    (h : g.replay bs x = some (v, w)) (hb : g.run b v w = some (v', w', again)) :
    g.replay (bs ++ [b]) x = some (v', w') := by
  unfold Region.replay at h ⊢
  rw [List.foldlM_append, h]
  simp [hb]

/-- Only one who comes in can be in the region without having been there. -/
theorem Step.inside_cases (hs : Step effect last Start End g Go s s') :
    (∀ u, s'.inside u ≠ none → s.inside u = s'.inside u) ∨
      ∃ t r, Go s t r ∧ s'.inside = Function.update s.inside t (some r) := by
  cases hs with
  | enter t r p hp hgo => exact .inr ⟨t, r, hgo, rfl⟩
  | leave t p hp | die t a p hp ha =>
    refine .inl fun u hu => ?_
    rcases eq_or_ne u t with rfl | hne
    · exact absurd (Function.update_self _ _ _) hu
    · exact (Function.update_of_ne hne _ _).symm
  | _ => exact .inl fun _ _ => rfl

/-- One who has come in by a way with the lock `l` has it, so that no other can come in so. -/
theorem Step.alone {bare : R → Prop} {l : L} (hGo : ∀ s t r, Go s t r → Apart bare s t r)
    (hlock : ∀ t r, s'.inside t = some r → ¬ bare r → s'.holder l = some t) (h : s.Alone)
    (hs : Step effect last Start End g Go s s') : s'.Alone := by
  rcases hs.inside_cases with hin | ⟨t, r, hgo, hin⟩
  · intro u v hu hv
    exact h u v (by rwa [hin u hu]) (by rwa [hin v hv])
  have hgo := hGo s t r hgo
  -- the one who comes in is the only one, also if it has the lock
  suffices honly : ∀ u, s'.inside u ≠ none → u = t by
    intro u v hu hv
    rw [honly u hu, honly v hv]
  intro u hu
  by_contra hne
  have hold : s'.inside u = s.inside u := by rw [hin, Function.update_of_ne hne]
  obtain ⟨r', hr'⟩ := Option.ne_none_iff_exists'.mp (hold ▸ hu)
  have hbare : ¬ (bare r ∨ ∃ u r', s.inside u = some r' ∧ bare r') := fun hb => by
    rw [hgo hb u hne] at hr'
    cases hr'
  rw [not_or] at hbare
  have ht := hlock t r (by rw [hin, Function.update_self]) hbare.1
  have hu := hlock u r' (hold.trans hr') fun hb => hbare.2 ⟨u, r', hr', hb⟩
  exact hne (Option.some.inj (hu.symm.trans ht))

theorem Step.serial {J : V → W → Prop} (hJ : g.Keeps J)
    (hwork : ∀ t b p, s.prog t = .work b :: p → s.inside t ≠ none) (halone : s'.Alone)
    (h : s.Serial g J) (hs : Step effect last Start End g Go s s') : s'.Serial g J := by
  -- what is there stays, for the threads that stay
  have hrest : (∀ u, s'.inside u ≠ none → s.inside u = s'.inside u ∧ s'.vars u = s.vars u ∧
      s'.found u = s.found u ∧ s'.done u = s.done u) → s'.shared = s.shared → s'.Serial g J := by
    intro hu hw
    refine ⟨halone, fun u hin => ?_, hw ▸ h.kept, fun u hin => ?_⟩
    · obtain ⟨hi, hv, hf, hd⟩ := hu u hin
      rw [hv, hf, hd, hw]
      exact h.visit u (hi ▸ hin)
    · obtain ⟨hi, hv, -, -⟩ := hu u hin
      rw [hv, hw]
      exact h.keptInside u (hi ▸ hin)
  cases hs with
  | enter t r p hp hgo =>
    have hself : Function.update s.inside t (some r) t ≠ none := by
      rw [Function.update_self]
      exact Option.some_ne_none r
    refine ⟨halone, fun u hu => ?_, h.kept, fun u hu => ?_⟩
    · obtain rfl := halone u t hu hself
      simp [Region.replay]
    · obtain rfl := halone u t hu hself
      simpa using h.kept
  | work t b p hp v w again hb =>
    have ht := hwork t b p hp
    have hkept := hJ.run b _ _ _ _ _ hb (h.keptInside t ht)
    refine ⟨halone, fun u hu => ?_, hJ.fresh v w hkept, fun u hu => ?_⟩
    · obtain rfl := h.alone u t hu ht
      simp only [Function.update_self]
      exact Region.replay_append (h.visit u hu) hb
    · obtain rfl := h.alone u t hu ht
      simpa using hkept
  | leave t p hp | die t a p hp ha =>
    refine hrest (fun u hu => ⟨?_, rfl, rfl, rfl⟩) rfl
    rcases eq_or_ne u t with rfl | hne
    · exact absurd (Function.update_self _ _ _) hu
    · exact (Function.update_of_ne hne _ _).symm
  | _ => exact hrest (fun _ _ => ⟨rfl, rfl, rfl, rfl⟩) rfl

/-- Where a thread in the region has the lock or has come in apart from the others, and works
there only, the threads are there one after the other. -/
theorem Reachable.serial {bare : R → Prop} {l : L} {J : V → W → Prop}
    (hP : Inductive effect last Start End P) (hidle : ∀ e, P e false (fun _ => false) none none)
    (hGo : ∀ s t r, Go s t r → Apart bare s t r)
    (hlock : ∀ e dead held r next, P e dead held (some r) next → ¬ bare r → held l = true)
    (hwork : ∀ e dead held inside b, P e dead held inside (some (.work b)) → inside ≠ none)
    (hJ : g.Keeps J) (h : Reachable effect last Start End g Go s) : s.Serial g J := by
  induction h with
  | init env =>
    exact ⟨fun _ _ ht => absurd rfl ht, fun _ ht => absurd rfl ht, hJ.start,
      fun _ ht => absurd rfl ht⟩
  | step h running hs ih =>
    have halong := h.along hP hidle
    have halong' := (h.step running hs).along hP hidle
    refine hs.serial hJ (fun t b p hp => ?_) (hs.alone (l := l) hGo (fun t r hin hbare => ?_) ih.alone) ih
    · have ht := (halong t).here
      rw [hp] at ht
      exact hwork _ _ _ _ b ht
    · have ht := (halong' t).here
      rw [hin] at ht
      simpa [Conf.holds] using hlock _ _ _ _ _ ht hbare

end

end Pintos.Logic
