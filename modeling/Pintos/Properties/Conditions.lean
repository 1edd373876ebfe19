import Pintos.Properties.Wakeups

/-!
# Condition variables

A thread in `cond_wait` is on the list of the condition before it sleeps on its own semaphore. What
`cond_signal` does to it then is not lost, as the semaphore keeps the unit. But the list is sorted by
the first sleepers of the semaphores, and with two threads on the list one that does not sleep yet
fails an assertion.

What a timer interrupt does to a list that is being sorted is left out, if it changes the priorities
or lets another thread run (`Sys.tears`).
-/

namespace Pintos.Schedule

open Pintos.Lib

variable {P : Sys → Action → Prop} {s s' : Sys} {t u : Tid} {k : SemaId} {l : LockId} {c d : CondId}
  {i : Instr} {is rest : List Instr} {a : Action}

/-! ## What a thread has left to do on conditions -/

/-- The condition that an instruction uses under its lock. -/
def Instr.onCond : Instr → Option CondId
  | .pushWaiter c => some c
  | .signal c => some c
  | .broadcast c => some c
  | _ => none

/-- The thread that an instruction wakes from its `cond_wait`. -/
def Instr.wakes : Instr → Option Tid
  | .up (.waiter t) => some t
  | _ => none

/-- An instruction tests the semaphore of a `cond_wait`. -/
def Instr.awaits (i : Instr) : Bool :=
  match i.tests with
  | some (.waiter _) => true
  | _ => false

/-- An instruction of `cond_signal` or `cond_broadcast`. -/
def Instr.signals : Instr → Bool
  | .signal _ => true
  | .broadcast _ => true
  | .up (.waiter _) => true
  | _ => false

/-- What is left to do is as the functions on conditions leave it. -/
structure Tidy (is : List Instr) : Prop where
  tail : ∀ i ∈ is.tail, i.wakes = none ∧ ∀ c, i ≠ .pushWaiter c
  once : is.countP Instr.awaits ≤ 1
  push : ∀ c, is.head? = some (.pushWaiter c) → ∃ i ∈ is, i.awaits = true
  pure : ∀ c, .signal c ∈ is ∨ .broadcast c ∈ is → ∀ i ∈ is, i.signals = true

theorem Tidy.next (h : Tidy (i :: rest)) : Tidy rest where
  tail j hj := h.tail j (List.mem_of_mem_tail hj)
  once := by
    have := h.once
    rw [List.countP_cons] at this
    omega
  push c hc := absurd rfl ((h.tail _ (List.mem_of_mem_head? hc)).2 c)
  pure c hc j hj := h.pure c (hc.imp (List.mem_cons_of_mem _) (List.mem_cons_of_mem _)) j
    (List.mem_cons_of_mem _ hj)

theorem tidy_expands (h : Tidy (i :: rest)) (hexp : i.Expands s is) : Tidy (is ++ rest) := by
  have htail : ∀ j ∈ rest, j.wakes = none ∧ ∀ c, j ≠ .pushWaiter c := h.tail
  have hrest := h.next
  have honce := h.once
  have hpure : i.signals = false → ∀ c, ¬ (.signal c ∈ rest ∨ .broadcast c ∈ rest) := by
    intro hi c hc
    have := h.pure c (hc.imp (List.mem_cons_of_mem _) (List.mem_cons_of_mem _)) i List.mem_cons_self
    rw [hi] at this
    cases this
  cases hexp with
  | done _ _ => exact hrest
  | donate l hm =>
    exact {
      tail := by simpa [Instr.wakes] using htail
      once := by simpa [List.countP_cons, Instr.awaits, Instr.tests] using honce
      push := by simp
      pure := fun c hc => absurd (by simpa using hc) (hpure rfl c) }
  | next l m =>
    exact {
      tail := by simpa using htail
      once := by simpa [List.countP_cons, Instr.awaits, Instr.tests] using honce
      push := by simp
      pure := fun c hc => absurd (by simpa using hc) (hpure rfl c) }
  | @wait _ k hi hv =>
    exact {
      tail := by simpa using htail
      once := by
        have hsame : (Instr.retest k).awaits = i.awaits := by
          cases i <;> cases hi <;> rfl
        simpa [List.countP_cons, hsame] using honce
      push := by simp
      pure := fun c hc => absurd (by simpa using hc) (hpure (by cases i <;> cases hi <;> rfl) c) }
  | yieldIfBelow t p =>
    exact {
      tail := by simpa using htail
      once := by simpa [List.countP_cons, Instr.awaits, Instr.tests] using honce
      push := by simp
      pure := fun c hc => absurd (by simpa using hc) (hpure rfl c) }
  | wake c t =>
    exact {
      tail := by simpa using htail
      once := by simpa [List.countP_cons, Instr.awaits, Instr.tests] using honce
      push := by simp
      pure := fun d _ j hj => by
        rcases List.mem_cons.mp hj with rfl | hj
        · rfl
        · exact h.pure c (.inl List.mem_cons_self) j (List.mem_cons_of_mem _ hj) }
  | loop c =>
    exact {
      tail := by simpa [Instr.wakes] using htail
      once := by simpa [List.countP_cons, Instr.awaits, Instr.tests] using honce
      push := by simp
      pure := fun d _ j hj => by
        rcases List.mem_cons.mp hj with rfl | hj
        · rfl
        · exact h.pure c (.inr List.mem_cons_self) j hj }

theorem tidy_call {c : Call} (h : c.Expands s is) : Tidy is := by
  cases h with
  | wait c =>
    exact {
      tail := by simp [Sys.lockRelease, Sys.lockAcquire, Instr.wakes]
      once := by
        simp [Sys.lockRelease, Sys.lockAcquire, List.countP_cons, Instr.awaits, Instr.tests]
      push := by simp [Sys.lockRelease, Sys.lockAcquire, Instr.awaits, Instr.tests]
      pure := by simp [Sys.lockRelease, Sys.lockAcquire] }
  | done _ _ => exact ⟨by simp, by simp, by simp, by simp⟩
  | create p =>
    exact ⟨by simp [Sys.lockRelease, Sys.lockAcquire, Instr.wakes], by
      simp [Sys.lockRelease, Sys.lockAcquire, Instr.awaits, Instr.tests],
      by simp [Sys.lockRelease, Sys.lockAcquire], by simp [Sys.lockRelease, Sys.lockAcquire]⟩
  | signal c => exact ⟨by simp, by simp [Instr.awaits, Instr.tests], by simp, by simp [Instr.signals]⟩
  | broadcast c =>
    exact ⟨by simp, by simp [Instr.awaits, Instr.tests], by simp, by simp [Instr.signals]⟩
  | _ =>
    exact ⟨by simp [Sys.lockRelease, Sys.lockAcquire, Instr.wakes], by
      simp [Sys.lockRelease, Sys.lockAcquire, Instr.awaits, Instr.tests],
      by simp [Sys.lockRelease, Sys.lockAcquire], by simp [Sys.lockRelease, Sys.lockAcquire]⟩

/-! ## The threads in `cond_wait` -/

/-- A thread has put itself on the list of a condition and has not had its unit. -/
def InWait (s : Sys) (t : Tid) : Prop :=
  (∃ i ∈ (s.thread t).todo, i.awaits = true) ∧
    ∀ c, (s.thread t).todo.head? ≠ some (.pushWaiter c)

/-- A thread has taken another one from the list of a condition, and wakes it next. -/
def Waking (s : Sys) (u t : Tid) : Prop := (s.thread u).todo.head? = some (.up (.waiter t))

/-- The value of the semaphore of a thread in `cond_wait`. -/
def Sys.units (s : Sys) (t : Tid) : Nat := (s.sema (.waiter t)).value

/-- Each thread in `cond_wait` is on the list of one condition, or about to be woken by one thread,
or has its unit. -/
structure Conds (s : Sys) : Prop where
  tidy : ∀ t, Tidy (s.thread t).todo
  held : ∀ t c, ∀ i ∈ (s.thread t).todo, i.onCond = some c →
    (s.lock (s.condLock c)).holder = some t
  listed : ∀ c t, t ∈ s.cond c → InWait s t ∧ s.units t = 0 ∧ (∀ u, ¬ Waking s u t) ∧
    ∀ d, t ∈ s.cond d → d = c
  once : ∀ c, (s.cond c).Nodup
  waking : ∀ u t, Waking s u t → InWait s t ∧ s.units t = 0 ∧ ∀ v, Waking s v t → v = u
  counted : ∀ t, InWait s t → (∃ c, t ∈ s.cond c) ∨ (∃ u, Waking s u t) ∨ s.units t = 1

/-- Calls on conditions are made with the lock held. -/
def Lawful (s : Sys) (a : Action) : Prop :=
  ∀ c, a = .call (.wait c) ∨ a = .call (.signal c) ∨ a = .call (.broadcast c) →
    (s.lock (s.condLock c)).holder = some s.running

/-- The condition that an action is a call on. -/
def Action.onCond : Action → Option CondId
  | .call (.wait c) => some c
  | .call (.signal c) => some c
  | .call (.broadcast c) => some c
  | _ => none

theorem lawful_iff :
    (∀ c ∈ a.onCond, (s.lock (s.condLock c)).holder = some s.running) ↔ Lawful s a := by
  refine forall_congr' fun c => imp_congr_left ?_
  rw [Option.mem_def]
  cases a with
  | call d => cases d <;> simp [Action.onCond]
  | _ => simp [Action.onCond]

instance (s : Sys) (a : Action) : Decidable (Lawful s a) := decidable_of_iff _ lawful_iff

/-- What the accounts of the threads in `cond_wait` depend on. -/
structure SameWaits (s s' : Sys) : Prop where
  inWait : ∀ t, InWait s' t ↔ InWait s t
  waking : ∀ u t, Waking s' u t ↔ Waking s u t
  units : ∀ t, s'.units t = s.units t
  cond : s'.cond = s.cond

section

variable (hx : Exclusive s) (hc : Conds s) (hq : Queued s (some s.running) none)
  (henabled : a.Enabled s) (h : a.step s = .ok s')

include hq henabled h

theorem Tidy.step (hc : Conds s) (t : Tid) : Tidy (s'.thread t).todo := by
  obtain ⟨is, hunf, htodo⟩ := step_todo hq henabled h
  rw [htodo]
  split
  · cases hunf with
    | call c is hexp => exact tidy_call hexp
    | go hi hexp =>
      refine tidy_expands ?_ hexp
      rw [← hi]
      exact hc.tidy s.running
    | tick => exact hc.tidy s.running
    | split => exact hc.tidy s.running
  · exact hc.tidy t

theorem held_step (hx : Exclusive s) (hc : Conds s) (hlawful : Lawful s a) (t : Tid) (c : CondId)
    (i : Instr) (hi : i ∈ (s'.thread t).todo) (hon : i.onCond = some c) :
    (s'.lock (s'.condLock c)).holder = some t := by
  obtain ⟨is, hunf, htodo⟩ := step_todo hq henabled h
  rw [(step_fixed henabled h).2.1]
  by_cases ht : t = s.running
  · rw [htodo, if_pos ht] at hi
    rw [ht]
    cases hunf with
    | call c' is hexp =>
      rw [step_holder henabled h]
      refine hlawful c ?_
      cases hexp with
      | wait d =>
        simp only [Sys.lockRelease, Sys.lockAcquire, List.cons_append, List.nil_append,
          List.mem_cons, List.not_mem_nil, or_false] at hi
        rcases hi with rfl | rfl | rfl | rfl | rfl | rfl | rfl | rfl <;> cases hon
        exact .inl rfl
      | signal d =>
        rw [List.mem_singleton] at hi
        subst hi
        cases hon
        exact .inr (.inl rfl)
      | broadcast d =>
        rw [List.mem_singleton] at hi
        subst hi
        cases hon
        exact .inr (.inr rfl)
      | create p =>
        simp only [Sys.lockRelease, Sys.lockAcquire, List.cons_append, List.nil_append,
          List.mem_cons, List.not_mem_nil, or_false] at hi
        rcases hi with rfl | rfl | rfl | rfl | rfl | rfl | rfl <;> cases hon
      | acquire l =>
        simp only [Sys.lockAcquire, List.mem_cons, List.not_mem_nil, or_false] at hi
        rcases hi with rfl | rfl | rfl <;> cases hon
      | release l =>
        simp only [Sys.lockRelease, List.mem_cons, List.not_mem_nil, or_false] at hi
        rcases hi with rfl | rfl | rfl <;> cases hon
      | done _ _ => cases hi
      | _ =>
        rw [List.mem_singleton] at hi
        subst hi
        cases hon
    | @go j is rest hj hexp =>
      have hcur : (s.thread s.running).todo = j :: rest := hj
      have htidy := hc.tidy s.running
      rw [hcur] at htidy
      have hold : ∀ i' ∈ j :: rest, i'.onCond = some c →
          (s.lock (s.condLock c)).holder = some s.running := fun i' hi' =>
        hc.held s.running c i' (by rw [hcur]; exact hi')
      -- an instruction that signals moves no lock, so the lock of the condition stays held
      have hsame : j.signals = true → (s'.lock (s.condLock c)).holder =
          (s.lock (s.condLock c)).holder := by
        intro hsig
        rw [step_holder henabled h, hj]
        cases j with
        | up k => rfl
        | signal d => rfl
        | broadcast d => rfl
        | _ => cases hsig
      have hrest : ∀ i' ∈ rest, i'.onCond = some c →
          (s'.lock (s.condLock c)).holder = some s.running := by
        intro i' hi' hon'
        rw [hsame, hold i' (List.mem_cons_of_mem _ hi') hon']
        refine htidy.pure c ?_ j List.mem_cons_self
        cases i' with
        | pushWaiter d => exact absurd rfl ((htidy.tail _ hi').2 d)
        | signal d =>
          cases hon'
          exact .inl (List.mem_cons_of_mem _ hi')
        | broadcast d =>
          cases hon'
          exact .inr (List.mem_cons_of_mem _ hi')
        | _ => cases hon'
      rcases List.mem_append.mp hi with hi | hi
      · cases hexp with
        | loop d =>
          have hd : d = c := by
            rcases List.mem_cons.mp hi with rfl | hi
            · cases hon; rfl
            · rw [List.mem_singleton] at hi
              subst hi
              cases hon
              rfl
          subst hd
          rw [hsame rfl]
          exact hold _ List.mem_cons_self rfl
        | done _ _ => cases hi
        | donate l hm =>
          simp only [List.mem_cons, List.not_mem_nil, or_false] at hi
          rcases hi with rfl | rfl <;> cases hon
        | _ =>
          rw [List.mem_singleton] at hi
          subst hi
          cases hon
      · exact hrest i hi hon
    -- interrupts move no lock either
    | tick =>
      rw [step_holder henabled h]
      exact hc.held s.running c i hi hon
    | split =>
      rw [step_holder henabled h]
      exact hc.held s.running c i hi hon
  · rw [htodo, if_neg ht] at hi
    exact (holder_other hx henabled h ht).mpr (hc.held t c i hi hon)

end

/-- Nothing happens to the threads in `cond_wait`. -/
theorem Conds.keep (hc : Conds s) (hw : SameWaits s s') (htidy : ∀ t, Tidy (s'.thread t).todo)
    (hheld : ∀ t c, ∀ i ∈ (s'.thread t).todo, i.onCond = some c →
      (s'.lock (s'.condLock c)).holder = some t) : Conds s' where
  tidy := htidy
  held := hheld
  listed c t ht := by
    rw [hw.cond] at ht
    obtain ⟨h1, h2, h3, h4⟩ := hc.listed c t ht
    refine ⟨(hw.inWait t).mpr h1, (hw.units t).trans h2, fun u hu => h3 u ((hw.waking u t).mp hu), ?_⟩
    rw [hw.cond]
    exact h4
  once c := by rw [hw.cond]; exact hc.once c
  waking u t hu := by
    obtain ⟨h1, h2, h3⟩ := hc.waking u t ((hw.waking u t).mp hu)
    exact ⟨(hw.inWait t).mpr h1, (hw.units t).trans h2, fun v hv => h3 v ((hw.waking v t).mp hv)⟩
  counted t ht := by
    rw [hw.cond, hw.units]
    simp only [hw.waking]
    exact hc.counted t ((hw.inWait t).mp ht)

theorem inWait_congr (h : (s'.thread t).todo = (s.thread t).todo) : InWait s' t ↔ InWait s t := by
  rw [InWait, InWait, h]

theorem units_step (henabled : a.Enabled s) (h : a.step s = .ok s')
    (hup : a.semaOp s ≠ some (.up (.waiter t))) (hdown : a.semaOp s ≠ some (.down (.waiter t)))
    (hinit : a.semaOp s ≠ some (.init (.waiter t))) : s'.units t = s.units t := by
  rw [Sys.units, step_value henabled h]
  cases hop : a.semaOp s with
  | none => rfl
  | some op =>
    cases op with
    | init j =>
      rw [Option.elim_some, SemaOp.value, Function.update_of_ne]
      · rfl
      · rintro rfl
        exact hinit hop
    | up j =>
      rw [Option.elim_some, SemaOp.value, Function.update_of_ne]
      · rfl
      · rintro rfl
        exact hup hop
    | down j =>
      rw [Option.elim_some, SemaOp.value, Function.update_of_ne]
      · rfl
      · rintro rfl
        exact hdown hop

theorem sameWaits_call {c : Call} (hq : Queued s (some s.running) none)
    (henabled : (Action.call c).Enabled s) (h : (Action.call c).step s = .ok s') :
    SameWaits s s' := by
  have hnil : (s.thread s.running).todo = [] := current_nil_of_enabled henabled
  obtain ⟨is, hunf, htodo⟩ := step_todo hq henabled h
  have hexp : c.Expands s is := by
    cases hunf with
    | call c is hexp => exact hexp
  have htakes : ∀ t, c.takes ≠ some (.waiter t) := by
    intro t
    cases c <;> simp [Call.takes]
  refine ⟨fun t => ?_, fun u t => ?_, fun t => ?_, call_cond h⟩
  · by_cases ht : t = s.running
    · subst ht
      refine iff_of_false ?_ ?_
      · rintro ⟨⟨i, hi, haw⟩, hpush⟩
        rw [htodo, if_pos rfl] at hi hpush
        cases hexp with
        | wait c => exact hpush c rfl
        | create p =>
          simp only [Sys.lockRelease, Sys.lockAcquire, List.cons_append, List.nil_append,
            List.mem_cons, List.not_mem_nil, or_false] at hi
          rcases hi with rfl | rfl | rfl | rfl | rfl | rfl | rfl <;> cases haw
        | acquire l =>
          simp only [Sys.lockAcquire, List.mem_cons, List.not_mem_nil, or_false] at hi
          rcases hi with rfl | rfl | rfl <;> cases haw
        | release l =>
          simp only [Sys.lockRelease, List.mem_cons, List.not_mem_nil, or_false] at hi
          rcases hi with rfl | rfl | rfl <;> cases haw
        | done _ _ => cases hi
        | _ =>
          rw [List.mem_singleton] at hi
          subst hi
          cases haw
      · rintro ⟨⟨i, hi, -⟩, -⟩
        rw [hnil] at hi
        cases hi
    · exact inWait_congr (by rw [htodo, if_neg ht])
  · rw [Waking, Waking, htodo]
    split
    · next hu =>
      rw [hu, hnil]
      cases hexp <;> simp [Sys.lockAcquire, Sys.lockRelease]
    · rfl
  · have hop : ∀ op, (Action.call c).semaOp s = some op → ∃ k, c.takes = some k ∧ op = .down k := by
      intro op hop
      rw [Action.semaOp] at hop
      cases htk : c.takes with
      | none => rw [htk] at hop; cases hop
      | some k =>
        rw [htk, Option.bind_some] at hop
        split at hop <;> cases hop
        exact ⟨k, rfl, rfl⟩
    refine units_step henabled h (fun hop' => ?_) (fun hop' => ?_) fun hop' => ?_
    · obtain ⟨k, -, hk⟩ := hop _ hop'
      cases hk
    · obtain ⟨k, hk, hkd⟩ := hop _ hop'
      cases hkd
      exact htakes t hk
    · obtain ⟨k, -, hk⟩ := hop _ hop'
      cases hk

theorem sameWaits_tick : SameWaits s s.tick where
  inWait t := inWait_congr (sameTodo_tick s t)
  waking u t := by rw [Waking, Waking, sameTodo_tick]
  units t := by rw [Sys.units, tick_sema, Sys.units]
  cond := tick_cond s

/-- The instructions that the threads in `cond_wait` depend on. -/
def Instr.accounts (i : Instr) : Bool :=
  i.awaits || i.wakes.isSome || match i with
    | .pushWaiter _ => true
    | .signal _ => true
    | _ => false

theorem sameWaits_go (hc : Conds s) (hq : Queued s (some s.running) none)
    (henabled : Action.go.Enabled s) (h : Action.go.step s = .ok s') (hi : s.current = i :: rest)
    (hacc : i.accounts = false) : SameWaits s s' := by
  have hcur : (s.thread s.running).todo = i :: rest := hi
  have htidy := hc.tidy s.running
  rw [hcur] at htidy
  have hpush : ∀ c, i ≠ .pushWaiter c := by
    rintro c rfl
    cases hacc
  have hsignal : ∀ c, i ≠ .signal c := by
    rintro c rfl
    cases hacc
  obtain ⟨hawaits, hwakes⟩ : i.awaits = false ∧ i.wakes = none := by
    simp only [Instr.accounts, Bool.or_eq_false_iff] at hacc
    exact ⟨hacc.1.1, Option.isSome_eq_false_iff.mp hacc.1.2 |> Option.isNone_iff_eq_none.mp⟩
  obtain ⟨js, hexp, htodo⟩ := go_todo hq henabled h hi
  obtain ⟨i', rest', hi', hexec⟩ := go_cases henabled h
  rw [hi] at hi'
  cases hi'
  -- what the instruction unfolds into is no test of `cond_wait` and no signal
  have hjs : ∀ j ∈ js, j.awaits = false := by
    intro j hj
    cases hexp with
    | wait ht hv =>
      rw [List.mem_singleton] at hj
      subst hj
      rw [← hawaits]
      cases i <;> cases ht <;> rfl
    | done _ _ => cases hj
    | donate l hm =>
      simp only [List.mem_cons, List.not_mem_nil, or_false] at hj
      rcases hj with rfl | rfl <;> rfl
    | loop c =>
      simp only [List.mem_cons, List.not_mem_nil, or_false] at hj
      rcases hj with rfl | rfl <;> rfl
    | _ =>
      rw [List.mem_singleton] at hj
      subst hj
      rfl
  have hhead : ∀ j, (js ++ rest).head? = some j →
      (∀ c, j ≠ .pushWaiter c) ∧ ∀ t, j ≠ .up (.waiter t) := by
    intro j hj
    have hrest : ∀ j ∈ rest, (∀ c, j ≠ .pushWaiter c) ∧ ∀ t, j ≠ .up (.waiter t) := by
      intro j hj
      obtain ⟨h1, h2⟩ := htidy.tail j hj
      refine ⟨h2, ?_⟩
      rintro t rfl
      cases h1
    cases hexp with
    | done _ _ => exact hrest j (List.mem_of_mem_head? hj)
    | wake c t => exact absurd rfl (hsignal c)
    | _ =>
      cases hj
      exact ⟨by simp, by simp⟩
  refine ⟨fun t => ?_, fun u t => ?_, fun t => ?_, ?_⟩
  · by_cases ht : t = s.running
    · subst ht
      rw [InWait, InWait, htodo, if_pos rfl, hcur]
      refine and_congr ?_ ?_
      · constructor
        · rintro ⟨j, hj, haw⟩
          rcases List.mem_append.mp hj with hj | hj
          · rw [hjs j hj] at haw
            cases haw
          · exact ⟨j, List.mem_cons_of_mem _ hj, haw⟩
        · rintro ⟨j, hj, haw⟩
          rcases List.mem_cons.mp hj with rfl | hj
          · rw [hawaits] at haw
            cases haw
          · exact ⟨j, List.mem_append_right _ hj, haw⟩
      · refine iff_of_true (fun c hc' => (hhead _ hc').1 c rfl) fun c hc' => ?_
        cases hc'
        exact hpush c rfl
    · exact inWait_congr (by rw [htodo, if_neg ht])
  · rw [Waking, Waking, htodo]
    split
    · next hu =>
      rw [hu, hcur]
      refine iff_of_false (fun hw => (hhead _ hw).2 t rfl) fun hw => ?_
      cases hw
      cases hwakes
    · rfl
  · have hop : Action.go.semaOp s = s.semaOp i := go_semaOp hi
    refine units_step henabled h (fun hup => ?_) (fun hdown => ?_) fun hinit => ?_
    · obtain ⟨-, hhead'⟩ := semaOp_up hup
      rw [hi] at hhead'
      cases hhead'
      cases hwakes
    · rw [hop] at hdown
      have htest := (value_of_semaOp hdown).1
      rw [Instr.awaits, htest] at hawaits
      cases hawaits
    · rw [hop] at hinit
      cases i with
      | pushWaiter c => exact hpush c rfl
      | down k =>
        simp only [Sys.semaOp] at hinit
        split at hinit <;> cases hinit
      | retest k =>
        simp only [Sys.semaOp] at hinit
        split at hinit <;> cases hinit
      | _ => cases hinit
  · rw [exec_cond hpush hsignal hexec]
    rfl

/-- A thread that signals is not in `cond_wait`. -/
theorem not_inWait (h : ∀ j ∈ (s.thread t).todo, j.signals = true) : ¬ InWait s t := by
  rintro ⟨⟨j, hj, haw⟩, -⟩
  have hsig := h j hj
  cases j with
  | up k => cases haw
  | signal c => cases haw
  | broadcast c => cases haw
  | _ => cases hsig

/-- The running thread has taken `t` from the list of a condition, and wakes it next. -/
structure Takes (s s' : Sys) (c : CondId) (t : Tid) (ts : List Tid) (rest : List Instr) : Prop where
  todo : ∀ u, (s'.thread u).todo =
    if u = s.running then .up (.waiter t) :: rest else (s.thread u).todo
  units : ∀ u, s'.units u = s.units u
  perm : (t :: ts).Perm (s.cond c)
  cond : s'.cond = Function.update s.cond c ts

theorem Takes.mem_cond {ts : List Tid} (h : Takes s s' c t ts rest) (hc : Conds s) :
    u ∈ s'.cond d ↔ u ∈ s.cond d ∧ (d = c → u ≠ t) := by
  rw [h.cond, Function.update_apply]
  have hnd : (t :: ts).Nodup := h.perm.nodup_iff.mpr (hc.once c)
  split
  · next hd =>
    subst hd
    rw [← h.perm.mem_iff, List.mem_cons]
    constructor
    · exact fun hu => ⟨.inr hu, fun _ h0 => (List.nodup_cons.mp hnd).1 (h0 ▸ hu)⟩
    · rintro ⟨hu | hu, hne⟩
      · exact absurd hu (hne rfl)
      · exact hu
  · next hd => simp [hd]

theorem Takes.waking {ts : List Tid} (h : Takes s s' c t ts rest)
    (hi : s.current = .signal c :: rest) {v : Tid} :
    Waking s' v u ↔ Waking s v u ∨ v = s.running ∧ u = t := by
  have hcur : (s.thread s.running).todo = .signal c :: rest := hi
  rw [Waking, Waking, h.todo]
  by_cases hv : v = s.running
  · rw [if_pos hv, hv, hcur]
    simp [eq_comm]
  · rw [if_neg hv]
    simp [hv]

theorem Takes.inWait {ts : List Tid} (h : Takes s s' c t ts rest)
    (hi : s.current = .signal c :: rest) (hpure : ∀ j ∈ .signal c :: rest, j.signals = true) :
    InWait s' u ↔ InWait s u := by
  have hcur : (s.thread s.running).todo = .signal c :: rest := hi
  by_cases hu : u = s.running
  · subst hu
    refine iff_of_false (not_inWait ?_) (not_inWait (by rw [hcur]; exact hpure))
    rw [h.todo, if_pos rfl]
    intro j hj
    rcases List.mem_cons.mp hj with rfl | hj
    · rfl
    · exact hpure j (List.mem_cons_of_mem _ hj)
  · exact inWait_congr (by rw [h.todo, if_neg hu])

theorem Conds.takes (hc : Conds s) {ts : List Tid} (hi : s.current = .signal c :: rest)
    (hpure : ∀ j ∈ .signal c :: rest, j.signals = true) (h : Takes s s' c t ts rest)
    (htidy : ∀ t, Tidy (s'.thread t).todo)
    (hheld : ∀ t c, ∀ i ∈ (s'.thread t).todo, i.onCond = some c →
      (s'.lock (s'.condLock c)).holder = some t) : Conds s' := by
  obtain ⟨h01, h02, h03, h04⟩ := hc.listed c t (h.perm.mem_iff.mp List.mem_cons_self)
  have hne : ∀ d u, u ∈ s'.cond d → u ≠ t := by
    rintro d u hu rfl
    obtain ⟨hu, hd⟩ := (h.mem_cond hc).mp hu
    exact hd (h04 d hu) rfl
  exact {
    tidy := htidy
    held := hheld
    listed := fun d u hu => by
      obtain ⟨h1, h2, h3, h4⟩ := hc.listed d u ((h.mem_cond hc).mp hu).1
      refine ⟨(h.inWait hi hpure).mpr h1, (h.units u).trans h2, fun v hv => ?_, fun e he =>
        h4 e ((h.mem_cond hc).mp he).1⟩
      rcases (h.waking hi).mp hv with hv | ⟨-, ht⟩
      · exact h3 v hv
      · exact hne d u hu ht
    once := fun d => by
      rw [h.cond, Function.update_apply]
      split
      · exact (List.nodup_cons.mp (h.perm.nodup_iff.mpr (hc.once c))).2
      · exact hc.once d
    waking := fun v u hv => by
      rw [h.inWait hi hpure, h.units]
      rcases (h.waking hi).mp hv with hold | ⟨rfl, rfl⟩
      · obtain ⟨h1, h2, h3⟩ := hc.waking v u hold
        refine ⟨h1, h2, fun w hw => ?_⟩
        rcases (h.waking hi).mp hw with hw | ⟨-, rfl⟩
        · exact h3 w hw
        · exact absurd hold (h03 v)
      · refine ⟨h01, h02, fun w hw => ?_⟩
        rcases (h.waking hi).mp hw with hw | ⟨hw, -⟩
        · exact absurd hw (h03 w)
        · exact hw
    counted := fun u hu => by
      rw [h.units]
      rcases hc.counted u ((h.inWait hi hpure).mp hu) with ⟨d, hd⟩ | ⟨v, hv⟩ | hone
      · by_cases h0 : u = t
        · exact .inr (.inl ⟨_, (h.waking hi).mpr (.inr ⟨rfl, h0⟩)⟩)
        · exact .inl ⟨d, (h.mem_cond hc).mpr ⟨hd, fun _ => h0⟩⟩
      · exact .inr (.inl ⟨v, (h.waking hi).mpr (.inl hv)⟩)
      · exact .inr (.inr hone) }

section

variable (hc : Conds s) (hq : Queued s (some s.running) none) (henabled : Action.go.Enabled s)
  (h : Action.go.step s = .ok s') (htidy : ∀ t, Tidy (s'.thread t).todo)
  (hheld : ∀ t c, ∀ i ∈ (s'.thread t).todo, i.onCond = some c →
    (s'.lock (s'.condLock c)).holder = some t)

include hc hq henabled h htidy hheld

/-- A thread puts itself on the list of a condition. -/
theorem conds_push (hi : s.current = .pushWaiter c :: rest) : Conds s' := by
  have hcur : (s.thread s.running).todo = .pushWaiter c :: rest := hi
  have htd := hc.tidy s.running
  rw [hcur] at htd
  obtain ⟨js, hexp, htodo⟩ := go_todo hq henabled h hi
  obtain ⟨i', rest', hi', hexec⟩ := go_cases henabled h
  rw [hi] at hi'
  cases hi'
  have hjs : js = [] := by
    cases hexp with
    | done _ _ => rfl
    | wait ht hv => cases ht
  subst hjs
  have hcond : s'.cond = Function.update s.cond c (s.cond c ++ [s.running]) := by
    simp only [Sys.exec] at hexec
    split at hexec <;> cases hexec
    rfl
  have hop : Action.go.semaOp s = some (.init (.waiter s.running)) := go_semaOp hi
  have hunits : ∀ t, t ≠ s.running → s'.units t = s.units t := fun t ht =>
    units_step henabled h (by rw [hop]; simp) (by rw [hop]; simp) (by simp [hop, Ne.symm ht])
  have hzero : s'.units s.running = 0 := by
    rw [Sys.units, step_value henabled h, hop, Option.elim_some, SemaOp.value, Function.update_self]
  have hnot : ¬ InWait s s.running := fun hw => hw.2 c (by rw [hcur]; rfl)
  have hin : InWait s' s.running := by
    rw [InWait, htodo, if_pos rfl]
    obtain ⟨j, hj, haw⟩ := htd.push c rfl
    refine ⟨⟨j, (List.mem_cons.mp hj).resolve_left ?_, haw⟩, fun d hd => ?_⟩
    · rintro rfl
      cases haw
    · exact (htd.tail _ (List.mem_of_mem_head? hd)).2 d rfl
  have hother : ∀ t, t ≠ s.running → (InWait s' t ↔ InWait s t) := fun t ht =>
    inWait_congr (by rw [htodo, if_neg ht])
  have hwaking : ∀ u t, Waking s' u t ↔ Waking s u t := by
    intro u t
    rw [Waking, Waking, htodo]
    split
    · next hu =>
      rw [hu, hcur]
      refine iff_of_false (fun hw => ?_) (by simp)
      have := (htd.tail _ (List.mem_of_mem_head? hw)).1
      cases this
    · rfl
  have hmem : ∀ d t, t ∈ s'.cond d ↔ t ∈ s.cond d ∨ t = s.running ∧ d = c := by
    intro d t
    rw [hcond, Function.update_apply]
    split
    · next hd => simp [hd]
    · next hd => simp [hd]
  -- the thread was on no list, since threads on a list are in `cond_wait` already
  have hold : ∀ d t, t ∈ s.cond d → t ≠ s.running := by
    rintro d t ht rfl
    exact hnot (hc.listed d _ ht).1
  exact {
    tidy := htidy
    held := hheld
    listed := fun d t ht => by
      rcases (hmem d t).mp ht with ht | ⟨rfl, rfl⟩
      · obtain ⟨h1, h2, h3, h4⟩ := hc.listed d t ht
        have hne := hold d t ht
        refine ⟨(hother t hne).mpr h1, (hunits t hne).trans h2, fun u hu => h3 u ((hwaking u t).mp hu),
          fun e he => ?_⟩
        rcases (hmem e t).mp he with he | ⟨he, -⟩
        · exact h4 e he
        · exact absurd he hne
      · refine ⟨hin, hzero, fun u hu => hnot (hc.waking u _ ((hwaking u _).mp hu)).1, fun e he => ?_⟩
        rcases (hmem e _).mp he with he | ⟨-, he⟩
        · exact absurd rfl (hold e _ he)
        · exact he
    once := fun d => by
      rw [hcond, Function.update_apply]
      split
      · refine List.nodup_append.mpr ⟨hc.once c, List.nodup_singleton _, ?_⟩
        intro x hx y hy hxy
        rw [List.mem_singleton] at hy
        exact hold c x hx (hxy.trans hy)
      · exact hc.once d
    waking := fun u t hu => by
      obtain ⟨h1, h2, h3⟩ := hc.waking u t ((hwaking u t).mp hu)
      have hne : t ≠ s.running := fun ht => hnot (ht ▸ h1)
      exact ⟨(hother t hne).mpr h1, (hunits t hne).trans h2, fun v hv => h3 v ((hwaking v t).mp hv)⟩
    counted := fun t ht => by
      by_cases hne : t = s.running
      · exact .inl ⟨c, (hmem c t).mpr (.inr ⟨hne, rfl⟩)⟩
      · rw [hunits t hne]
        simp only [hwaking]
        refine (hc.counted t ((hother t hne).mp ht)).imp_left ?_
        rintro ⟨d, hd⟩
        exact ⟨d, (hmem d t).mpr (.inl hd)⟩ }

omit hq in
/-- `cond_signal` takes a thread from the list of a condition. -/
theorem conds_signal (hi : s.current = .signal c :: rest) : Conds s' := by
  have hcur : (s.thread s.running).todo = .signal c :: rest := hi
  have htd := hc.tidy s.running
  rw [hcur] at htd
  obtain ⟨i', rest', hi', hexec⟩ := go_cases henabled h
  rw [hi] at hi'
  cases hi'
  have hop : Action.go.semaOp s = none := go_semaOp hi
  have hunits : ∀ t, s'.units t = s.units t := fun t =>
    units_step henabled h (by rw [hop]; simp) (by rw [hop]; simp) (by rw [hop]; simp)
  have hpure : ∀ j ∈ .signal c :: rest, j.signals = true := htd.pure c (.inl List.mem_cons_self)
  have hpop : ∀ t, (s.pop.thread t).todo = if t = s.running then rest else (s.thread t).todo := by
    intro t
    rw [Sys.pop, Sys.setThread_thread]
    split
    · rw [hcur]; rfl
    · rfl
  have hnotin : ¬ InWait s s.running := not_inWait (by rw [hcur]; exact hpure)
  obtain ⟨-, ⟨-, rfl⟩ | ⟨t₀, ts, hsort, rfl⟩⟩ := exec_signal hexec
  · refine hc.keep ⟨fun t => ?_, fun u t => ?_, hunits, rfl⟩ htidy hheld
    · by_cases ht : t = s.running
      · subst ht
        refine iff_of_false (not_inWait ?_) hnotin
        rw [hpop, if_pos rfl]
        exact fun j hj => hpure j (List.mem_cons_of_mem _ hj)
      · exact inWait_congr (by rw [hpop, if_neg ht])
    · rw [Waking, Waking, hpop]
      split
      · next hu =>
        rw [hu, hcur]
        refine iff_of_false (fun hw => ?_) (by simp)
        cases (htd.tail _ (List.mem_of_mem_head? hw)).1
      · rfl
  · have hperm : (t₀ :: ts).Perm (s.cond c) := perm_sortWaiters hsort
    refine hc.takes hi hpure (?_ : Takes s _ c t₀ ts rest) htidy hheld
    refine ⟨fun t => ?_, hunits, hperm, rfl⟩
    rw [more_push]
    show (if t = s.running then [.up (.waiter t₀)] ++ (s.pop.thread t).todo else _) = _
    split
    · next ht => rw [hpop, if_pos ht]; rfl
    · next ht => exact (hpop t).trans (if_neg ht)

/-- A thread wakes the one it has taken from the list. -/
theorem conds_wake (hi : s.current = .up (.waiter t) :: rest) : Conds s' := by
  have hcur : (s.thread s.running).todo = .up (.waiter t) :: rest := hi
  have htd := hc.tidy s.running
  rw [hcur] at htd
  obtain ⟨js, hexp, htodo⟩ := go_todo hq henabled h hi
  obtain ⟨i', rest', hi', hexec⟩ := go_cases henabled h
  rw [hi] at hi'
  cases hi'
  have hjs : js = [] := by
    cases hexp with
    | done _ _ => rfl
    | wait ht hv => cases ht
  subst hjs
  have hop : Action.go.semaOp s = some (.up (.waiter t)) := go_semaOp hi
  obtain ⟨hin, hzero, honly⟩ := hc.waking s.running t (by rw [Waking, hcur]; rfl)
  have hunits : ∀ u, u ≠ t → s'.units u = s.units u := fun u hu =>
    units_step henabled h (by simp [hop, Ne.symm hu]) (by rw [hop]; simp) (by rw [hop]; simp)
  -- the unit that the thread finds when it tests; `hzero` says that it is the only one
  have hone : s'.units t = 1 := by
    rw [Sys.units, step_value henabled h, hop, Option.elim_some, SemaOp.value, Function.update_self]
    show (s.units t + 1) % uintSize = 1
    rw [hzero]
    rfl
  have hcond : s'.cond = s.pop.cond := exec_cond (by simp) (by simp) hexec
  have hinw : ∀ u, InWait s' u ↔ InWait s u := by
    intro u
    by_cases hu : u = s.running
    · subst hu
      rw [InWait, InWait, htodo, if_pos rfl, hcur]
      refine and_congr ?_ ?_
      · constructor
        · rintro ⟨j, hj, haw⟩
          exact ⟨j, List.mem_cons_of_mem _ hj, haw⟩
        · rintro ⟨j, hj, haw⟩
          rcases List.mem_cons.mp hj with rfl | hj
          · cases haw
          · exact ⟨j, hj, haw⟩
      · refine iff_of_true (fun d hd => ?_) (by simp)
        exact (htd.tail _ (List.mem_of_mem_head? hd)).2 d rfl
    · exact inWait_congr (by rw [htodo, if_neg hu])
  have hwaking : ∀ u v, Waking s' u v ↔ Waking s u v ∧ u ≠ s.running := by
    intro u v
    rw [Waking, Waking, htodo]
    split
    · next hu =>
      refine iff_of_false (fun hw => ?_) (fun hw => hw.2 hu)
      cases (htd.tail _ (List.mem_of_mem_head? hw)).1
    · next hu => simp [hu]
  exact {
    tidy := htidy
    held := hheld
    listed := fun d v hv => by
      rw [hcond] at hv ⊢
      obtain ⟨h1, h2, h3, h4⟩ := hc.listed d v hv
      have hne : v ≠ t := by
        rintro rfl
        exact h3 s.running (by rw [Waking, hcur]; rfl)
      exact ⟨(hinw v).mpr h1, (hunits v hne).trans h2, fun u hu => h3 u ((hwaking u v).mp hu).1, h4⟩
    once := fun d => by
      rw [hcond]
      exact hc.once d
    waking := fun u v hu => by
      obtain ⟨hu, hur⟩ := (hwaking u v).mp hu
      obtain ⟨h1, h2, h3⟩ := hc.waking u v hu
      have hne : v ≠ t := by
        rintro rfl
        exact hur (honly u hu)
      exact ⟨(hinw v).mpr h1, (hunits v hne).trans h2, fun w hw => h3 w ((hwaking w v).mp hw).1⟩
    counted := fun v hv => by
      by_cases hne : v = t
      · exact .inr (.inr (by rw [hne]; exact hone))
      · rw [hcond, hunits v hne]
        refine (hc.counted v ((hinw v).mp hv)).imp_right (Or.imp_left ?_)
        rintro ⟨u, hu⟩
        refine ⟨u, (hwaking u v).mpr ⟨hu, ?_⟩⟩
        rintro rfl
        rw [Waking, hcur] at hu
        cases hu
        exact hne rfl }

/-- A thread in `cond_wait` tests its semaphore. -/
theorem conds_await (hi : s.current = i :: rest) (haw : i.awaits = true) : Conds s' := by
  have hcur : (s.thread s.running).todo = i :: rest := hi
  have htd := hc.tidy s.running
  rw [hcur] at htd
  obtain ⟨js, hexp, htodo⟩ := go_todo hq henabled h hi
  obtain ⟨i', rest', hi', hexec⟩ := go_cases henabled h
  rw [hi] at hi'
  cases hi'
  have htest : i.tests = some (.waiter s.running) := by
    have hown := hq.own s.running
    rw [hcur] at hown
    cases i with
    | down k =>
      cases k with
      | waiter x => rw [← hown x (.inl List.mem_cons_self)]; rfl
      | _ => cases haw
    | retest k =>
      cases k with
      | waiter x => rw [← hown x (.inr List.mem_cons_self)]; rfl
      | _ => cases haw
    | _ => cases haw
  have hpush : ∀ c, i ≠ .pushWaiter c := by
    rintro c rfl
    cases haw
  have hsignal : ∀ c, i ≠ .signal c := by
    rintro c rfl
    cases haw
  have hcond : s'.cond = s.pop.cond := exec_cond hpush hsignal hexec
  have hin : InWait s s.running := by
    rw [InWait, hcur]
    refine ⟨⟨i, List.mem_cons_self, haw⟩, fun c hc' => ?_⟩
    cases hc'
    exact hpush c rfl
  have hop : Action.go.semaOp s = if s.units s.running = 0 then none
      else some (.down (.waiter s.running)) := by
    rw [go_semaOp hi]
    cases i <;> cases htest <;> rfl
  have hhead : ∀ j, (js ++ rest).head? = some j → j.wakes = none ∧ ∀ c, j ≠ .pushWaiter c := by
    intro j hj
    cases hexp with
    | done _ _ => exact htd.tail j (List.mem_of_mem_head? hj)
    | wait _ _ =>
      cases hj
      exact ⟨rfl, by simp⟩
    | wake c t => cases haw
    | _ => cases haw
  have hwaking : ∀ u t, Waking s' u t ↔ Waking s u t := by
    intro u t
    rw [Waking, Waking, htodo]
    split
    · next hu =>
      rw [hu, hcur]
      refine iff_of_false (fun hw => ?_) fun hw => ?_
      · cases (hhead _ hw).1
      · cases hw
        cases haw
    · rfl
  have hother : ∀ t, t ≠ s.running → (InWait s' t ↔ InWait s t) := fun t ht =>
    inWait_congr (by rw [htodo, if_neg ht])
  -- without a unit the thread sleeps and tests again later; with one it leaves `cond_wait`
  by_cases hv : s.units s.running = 0
  · rw [if_pos hv] at hop
    have hjs : js = [.retest (.waiter s.running)] := by
      cases hexp with
      | done _ hnz => exact absurd hv (hnz _ htest)
      | wait ht _ =>
        rw [htest] at ht
        cases ht
        rfl
      | _ => cases haw
    refine hc.keep ⟨fun t => ?_, hwaking, fun t => ?_, hcond⟩ htidy hheld
    · by_cases ht : t = s.running
      · subst ht
        refine iff_of_true ?_ hin
        rw [InWait, htodo, if_pos rfl, hjs]
        exact ⟨⟨_, List.mem_cons_self, rfl⟩, by simp⟩
      · exact hother t ht
    · exact units_step henabled h (by rw [hop]; simp) (by rw [hop]; simp) (by rw [hop]; simp)
  · rw [if_neg hv] at hop
    have hjs : js = [] := by
      cases hexp with
      | done _ _ => rfl
      | wait ht hz =>
        rw [htest] at ht
        cases ht
        exact absurd hz hv
      | _ => cases haw
    subst hjs
    have hunits : ∀ t, t ≠ s.running → s'.units t = s.units t := fun t ht =>
      units_step henabled h (by rw [hop]; simp) (by simp [hop, Ne.symm ht]) (by rw [hop]; simp)
    have hout : ¬ InWait s' s.running := by
      rintro ⟨⟨j, hj, hjaw⟩, -⟩
      rw [htodo, if_pos rfl] at hj
      have honce := htd.once
      rw [List.countP_cons, if_pos haw] at honce
      have hpos : 0 < rest.countP Instr.awaits := List.countP_pos_iff.mpr ⟨j, hj, hjaw⟩
      omega
    -- a unit is there only for a thread that is on no list and that nobody is about to wake
    have hlisted : ∀ d t, t ∈ s.cond d → t ≠ s.running := by
      rintro d t ht rfl
      exact hv (hc.listed d _ ht).2.1
    have hwoken : ∀ u t, Waking s u t → t ≠ s.running := by
      rintro u t hu rfl
      exact hv (hc.waking u _ hu).2.1
    exact {
      tidy := htidy
      held := hheld
      listed := fun d t ht => by
        rw [hcond] at ht ⊢
        obtain ⟨h1, h2, h3, h4⟩ := hc.listed d t ht
        have hne := hlisted d t ht
        exact ⟨(hother t hne).mpr h1, (hunits t hne).trans h2,
          fun u hu => h3 u ((hwaking u t).mp hu), h4⟩
      once := fun d => by
        rw [hcond]
        exact hc.once d
      waking := fun u t hu => by
        have hu := (hwaking u t).mp hu
        obtain ⟨h1, h2, h3⟩ := hc.waking u t hu
        have hne := hwoken u t hu
        exact ⟨(hother t hne).mpr h1, (hunits t hne).trans h2,
          fun v hv => h3 v ((hwaking v t).mp hv)⟩
      counted := fun t ht => by
        have hne : t ≠ s.running := fun hr => hout (hr ▸ ht)
        rw [hcond, hunits t hne]
        simp only [hwaking]
        exact hc.counted t ((hother t hne).mp ht) }

end

theorem Conds.step (hc : Conds s) (hx : Exclusive s) (hq : Queued s (some s.running) none)
    (hlawful : Lawful s a) (henabled : a.Enabled s) (h : a.step s = .ok s') : Conds s' := by
  have htidy := Tidy.step hq henabled h hc
  have hheld := held_step hq henabled h hx hc hlawful
  cases a with
  | call c => exact hc.keep (sameWaits_call hq henabled h) htidy hheld
  | tick =>
    cases h
    exact hc.keep sameWaits_tick htidy hheld
  | split =>
    cases split_tick h
    exact hc.keep sameWaits_tick htidy hheld
  | go =>
    obtain ⟨i, rest, hi, -⟩ := go_cases henabled h
    by_cases hacc : i.accounts = false
    · exact hc.keep (sameWaits_go hc hq henabled h hi hacc) htidy hheld
    by_cases haw : i.awaits = true
    · exact conds_await hc hq henabled h htidy hheld hi haw
    cases i with
    | pushWaiter c => exact conds_push hc hq henabled h htidy hheld hi
    | signal c => exact conds_signal hc henabled h htidy hheld hi
    | up k =>
      cases k with
      | waiter t => exact conds_wake hc hq henabled h htidy hheld hi
      | _ => exact absurd rfl hacc
    | down k =>
      cases k with
      | waiter t => exact absurd rfl haw
      | _ => exact absurd rfl hacc
    | retest k =>
      cases k with
      | waiter t => exact absurd rfl haw
      | _ => exact absurd rfl hacc
    | _ => exact absurd rfl hacc

/-- What happens while the thread `b` is in a `cond_broadcast`, with `rest` to do after it: the
threads it has woken, and the number of its own steps. -/
inductive During (b : Tid) (rest : List Instr) (s₀ : Sys) : Sys → List Tid → Nat → Prop where
  | start : During b rest s₀ s₀ [] 0
  | own {s s' : Sys} {ts : List Tid} {n : Nat} (h : During b rest s₀ s ts n) (hrun : s.running = b)
      (hin : s.current ≠ rest) (henabled : Action.go.Enabled s) (hs : Action.go.step s = .ok s') :
      During b rest s₀ s' (ts ++ (s.current.head?.bind Instr.wakes).toList) (n + 1)
  | other {s s' : Sys} {ts : List Tid} {n : Nat} (a : Action) (h : During b rest s₀ s ts n)
      (hother : s.running ≠ b ∨ a.interrupts = true) (henabled : a.Enabled s)
      (hlawful : Lawful s a) (hs : a.step s = .ok s') : During b rest s₀ s' ts n

theorem During.reachable {b : Tid} {s₀ : Sys} {ts : List Tid} {n : Nat}
    (h₀ : Reachable Lawful s₀) (h : During b rest s₀ s ts n) : Reachable Lawful s := by
  induction h with
  | start => exact h₀
  | own _ _ _ henabled hs ih =>
    exact ih.step .go henabled (fun c hc => by rcases hc with hc | hc | hc <;> cases hc) hs
  | other a _ _ henabled hlawful hs ih => exact ih.step a henabled hlawful hs

/-- How far a `cond_broadcast` has come, `left` threads being on the list: what is left to do of it,
the thread about to be woken, and the steps since the last one was woken. -/
inductive Stage (c : CondId) : List Instr → List Tid → Nat → Prop where
  | loop : Stage c [.broadcast c] [] 0
  | signal : Stage c [.signal c, .broadcast c] [] 1
  | wake (t : Tid) : Stage c [.up (.waiter t), .broadcast c] [t] 2

/-- A `cond_broadcast` that began with the threads `ts₀` on the list has woken `ts` in `n` steps. -/
def Progress (b : Tid) (rest : List Instr) (c : CondId) (ts₀ : List Tid) (s : Sys)
    (ts : List Tid) (n : Nat) : Prop :=
  (s.lock (s.condLock c)).holder = some b ∧
    ((∃ is vs m, Stage c is vs m ∧ (s.thread b).todo = is ++ rest ∧
        (ts ++ vs ++ s.cond c).Perm ts₀ ∧ n = 3 * ts.length + m ∧ (m = 1 → s.cond c ≠ [])) ∨
      (s.thread b).todo = rest ∧ s.cond c = [] ∧ ts.Perm ts₀ ∧ n = 3 * ts.length + 1)

/-- A `cond_broadcast` wakes threads that were on the list, and all of them by its end. -/
theorem Progress.bounds {b : Tid} {ts₀ ts : List Tid} {n : Nat} (h : Progress b rest c ts₀ s ts n) :
    n ≤ 3 * ts₀.length + 1 ∧ ∃ us, (ts ++ us).Perm ts₀ ∧ ((s.thread b).todo = rest → us = []) := by
  obtain ⟨-, ⟨is, vs, m, hstage, htodo, hperm, rfl, hne⟩ | ⟨-, -, hperm, rfl⟩⟩ := h
  · refine ⟨?_, vs ++ s.cond c, by rwa [← List.append_assoc], fun hrest => ?_⟩
    · have hlen := hperm.length_eq
      simp only [List.length_append] at hlen
      cases hstage with
      | loop => omega
      | signal =>
        have := List.length_pos_of_ne_nil (hne rfl)
        omega
      | wake t =>
        rw [List.length_singleton] at hlen
        omega
    · rw [hrest] at htodo
      have := congrArg List.length htodo
      rw [List.length_append] at this
      cases hstage <;> simp at this
  · rw [hperm.length_eq]
    exact ⟨Nat.le_refl _, [], by rwa [List.append_nil], fun _ => rfl⟩

end Pintos.Schedule
