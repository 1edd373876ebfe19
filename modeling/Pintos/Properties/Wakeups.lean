import Pintos.Properties.Effects
import Mathlib.Data.Finset.Card
import Mathlib.Data.Finset.Range

/-!
# Semaphores and locks lose no wake-up

The value of a semaphore counts the units that are there. A thread that `sema_up` has unblocked does
not have its unit yet: it tests the value again when it runs, and another thread may have been
faster. What is kept is that as long as threads wait, there are at least as many threads on their way
to that test as there are units.

The value is an `unsigned`: it goes from `UINT_MAX` to 0.

A unit of the semaphore of a lock goes from the `sema_down` of a thread in `lock_acquire` to the
`sema_up` of the same thread in `lock_release`, and there is one.
-/

namespace Pintos.Schedule

open Pintos.Lib

variable {P : Sys → Action → Prop} {s s' : Sys} {t u : Tid} {k j : SemaId} {l : LockId} {i : Instr}
  {is rest : List Instr} {a : Action}

/-! ## Counting operations -/

/-- What happens to a semaphore: `sema_init`, `sema_up`, or a `sema_down` or `sema_try_down` that
takes a unit. -/
inductive SemaOp where
  | init (sema : SemaId)
  | up (sema : SemaId)
  | down (sema : SemaId)

/-- The operation that an instruction completes. -/
def Sys.semaOp (s : Sys) : Instr → Option SemaOp
  | .down k => if (s.sema k).value = 0 then none else some (.down k)
  | .retest k => if (s.sema k).value = 0 then none else some (.down k)
  | .up k => some (.up k)
  | .pushWaiter _ => some (.init (.waiter s.running))
  | _ => none

/-- The operation that an action completes. -/
def Action.semaOp (s : Sys) : Action → Option SemaOp
  | .call c => c.takes.bind fun k => if (s.sema k).value = 0 then none else some (.down k)
  | .go => s.current.head?.bind s.semaOp
  | .tick => none
  | .split => none

/-- The values of the semaphores after an operation. -/
def SemaOp.value (v : SemaId → Nat) : SemaOp → SemaId → Nat
  | .init k => Function.update v k 0
  | .up k => Function.update v k ((v k + 1) % uintSize)
  | .down k => Function.update v k (v k - 1)

/-- The operations completed on each semaphore since it was initialised. -/
structure Tally where
  initial : SemaId → Nat
  ups : SemaId → Nat
  downs : SemaId → Nat

/-- One more operation is completed. -/
def Tally.count (n : Tally) : SemaOp → Tally
  | .init k => {
      initial := Function.update n.initial k 0
      ups := Function.update n.ups k 0
      downs := Function.update n.downs k 0 }
  | .up k => { n with ups := Function.update n.ups k (n.ups k + 1) }
  | .down k => { n with downs := Function.update n.downs k (n.downs k + 1) }

/-- The states of the runs, with the operations counted. -/
inductive Counted : Sys → Tally → Prop where
  | init {s : Sys} (h : Booted s) : Counted s ⟨fun k => (s.sema k).value, fun _ => 0, fun _ => 0⟩
  | step {s s' : Sys} {n : Tally} (a : Action) (h : Counted s n) (enabled : a.Enabled s)
      (hs : a.step s = .ok s') : Counted s' ((a.semaOp s).elim n n.count)

theorem Counted.reachable {n : Tally} (h : Counted s n) : Reachable (fun _ _ => True) s := by
  induction h with
  | init h => exact .init h
  | step a _ henabled hs ih => exact .step a ih henabled trivial hs

@[simp] theorem threadUnblock_sema (s : Sys) (t : Tid) : (s.threadUnblock t).sema = s.sema := rfl

theorem semaWake_value (s : Sys) (k j : SemaId) : ((s.semaWake k).sema j).value =
    SemaOp.value (fun k => (s.sema k).value) (.up k) j := by
  rw [SemaOp.value, Function.update_apply]
  unfold Sys.semaWake
  split
  · rw [Sys.setSema_sema]
    split <;> rfl
  · rw [threadUnblock_sema, Sys.setSema_sema]
    split <;> rfl

theorem semaAfter_value (s : Sys) (i : Instr) (j : SemaId) : (s.semaAfter i j).value =
    (s.semaOp i).elim (s.sema j).value fun op => op.value (fun k => (s.sema k).value) j := by
  have hdown : ∀ k, ((if (s.sema k).value = 0 then (s.waitOn k).sema
      else (s.setSema k fun m => { m with value := m.value - 1 }).sema) j).value =
        (if (s.sema k).value = 0 then none else some (SemaOp.down k)).elim (s.sema j).value
          fun op => op.value (fun k => (s.sema k).value) j := by
    intro k
    split
    · rw [Sys.waitOn_sema]
      split
      · next h => rw [h]; rfl
      · rfl
    · rw [Sys.setSema_sema, Option.elim_some, SemaOp.value, Function.update_apply]
      split <;> rfl
  cases i with
  | down k => exact hdown k
  | retest k => exact hdown k
  | up k => exact semaWake_value s k j
  | pushWaiter c =>
    rw [Sys.semaAfter, Sys.semaOp, Sys.setSema_sema, Option.elim_some, SemaOp.value,
      Function.update_apply]
    split <;> rfl
  | _ => rfl

/-- A step changes the values as the operation does that it completes. -/
theorem step_value (henabled : a.Enabled s) (h : a.step s = .ok s') (j : SemaId) :
    (s'.sema j).value =
      (a.semaOp s).elim (s.sema j).value fun op => op.value (fun k => (s.sema k).value) j := by
  cases a with
  | call c =>
    rw [call_sema h, Sys.semaTaken, Action.semaOp]
    cases c.takes with
    | none => rfl
    | some k =>
      by_cases hv : (s.sema k).value = 0
      · simp [hv]
      · simp only [Nat.pos_of_ne_zero hv, hv, if_true, if_false, Option.bind_some,
          Option.elim_some, SemaOp.value, Sys.setSema_sema, Function.update_apply]
        split <;> rfl
  | go =>
    obtain ⟨i, rest, hi, hexec⟩ := go_cases henabled h
    rw [exec_sema hexec, semaAfter_value, Action.semaOp, hi]
    cases i <;> rfl
  | tick =>
    cases h
    rw [tick_sema]
    rfl
  | split =>
    cases split_tick h
    rw [tick_sema]
    rfl

theorem value_of_semaOp {i : Instr} (h : s.semaOp i = some (.down k)) :
    i.tests = some k ∧ (s.sema k).value ≠ 0 := by
  cases i with
  | down j =>
    rw [Sys.semaOp] at h
    split at h
    · cases h
    · next hv => cases h; exact ⟨rfl, hv⟩
  | retest j =>
    rw [Sys.semaOp] at h
    split at h
    · cases h
    · next hv => cases h; exact ⟨rfl, hv⟩
  | _ => cases h

/-- What takes a unit: `sema_try_down`, or a test of the value that finds one. -/
theorem semaOp_down (h : a.semaOp s = some (.down k)) : (s.sema k).value ≠ 0 ∧
    ((∃ c : Call, a = .call c ∧ c.takes = some k) ∨
      a = .go ∧ ∃ i, s.current.head? = some i ∧ i.tests = some k) := by
  cases a with
  | call c =>
    rw [Action.semaOp] at h
    cases hc : c.takes with
    | none => rw [hc] at h; cases h
    | some j =>
      rw [hc, Option.bind_some] at h
      split at h
      · cases h
      · next hv => cases h; exact ⟨hv, .inl ⟨c, rfl, hc⟩⟩
  | go =>
    rw [Action.semaOp] at h
    cases hc : s.current.head? with
    | none => rw [hc] at h; cases h
    | some i =>
      rw [hc] at h
      obtain ⟨hi, hv⟩ := value_of_semaOp h
      exact ⟨hv, .inr ⟨rfl, i, rfl, hi⟩⟩
  | tick => cases h
  | split => cases h

theorem semaOp_up (h : a.semaOp s = some (.up k)) :
    a = .go ∧ s.current.head? = some (.up k) := by
  cases a with
  | call c =>
    rw [Action.semaOp] at h
    cases hc : c.takes with
    | none => rw [hc] at h; cases h
    | some j =>
      rw [hc, Option.bind_some] at h
      split at h <;> cases h
  | go =>
    rw [Action.semaOp] at h
    cases hc : s.current.head? with
    | none => rw [hc] at h; cases h
    | some i =>
      rw [hc, Option.bind_some] at h
      cases i <;> simp [Sys.semaOp] at h
      exact ⟨rfl, by rw [h]⟩
  | tick => cases h
  | split => cases h

theorem semaOp_init (h : a.semaOp s = some (.init k)) : k = .waiter s.running := by
  cases a with
  | call c =>
    rw [Action.semaOp] at h
    cases hc : c.takes with
    | none => rw [hc] at h; cases h
    | some j =>
      rw [hc, Option.bind_some] at h
      split at h <;> cases h
  | go =>
    rw [Action.semaOp] at h
    cases hc : s.current.head? with
    | none => rw [hc] at h; cases h
    | some i =>
      rw [hc, Option.bind_some] at h
      cases i <;> simp [Sys.semaOp] at h
      exact h.symm
  | tick => cases h
  | split => cases h

/-- It is just that as long as what was put in does not reach the size of an `unsigned`. -/
theorem Counted.exact {n : Tally} (h : Counted s n) (k : SemaId) :
    n.initial k + n.ups k < uintSize → (s.sema k).value + n.downs k = n.initial k + n.ups k := by
  induction h with
  | init _ => exact fun _ => rfl
  | @step s s' n a _ henabled hs ih =>
    rw [step_value henabled hs]
    cases hop : a.semaOp s with
    | none => exact ih
    | some op =>
      cases op with
      | init j =>
        simp only [Option.elim_some, SemaOp.value, Tally.count, Function.update_apply]
        split
        · exact fun _ => rfl
        · exact ih
      | up j =>
        simp only [Option.elim_some, SemaOp.value, Tally.count, Function.update_apply]
        split
        · next hk =>
          subst hk
          intro hlt
          have hsum := ih (by omega)
          rw [Nat.mod_eq_of_lt (by omega)]
          omega
        · exact ih
      | down j =>
        have := (semaOp_down hop).1
        simp only [Option.elim_some, SemaOp.value, Tally.count, Function.update_apply]
        split
        · next hk =>
          subst hk
          intro hlt
          have hsum := ih hlt
          omega
        · exact ih

/-! ## Waking a thread -/

/-- A yield blocks and unblocks nobody. -/
theorem threadYield_blocked (hq : Queued s (some s.running) none) (u : Tid) :
    (s.threadYield.thread u).status = .blocked ↔ (s.thread u).status = .blocked := by
  have hrun : (s.thread s.running).status = .running := hq.status_running
  rw [Sys.threadYield_eq, Sys.schedule_thread]
  split
  · next hu =>
    have hnot : (s.thread u).status ≠ .blocked := by
      by_cases hr : u = s.running
      · simp [hr, hrun]
      rw [Sys.schedule_running, Sys.offered_readyList] at hu
      split at hu
      · next hidle =>
        cases hl : s.readyList with
        | nil =>
          rw [hl] at hu
          exact absurd (hu.trans hidle.symm) hr
        | cons v rest =>
          rw [hl] at hu
          have hmem : u ∈ s.readyList := by
            rw [hl, hu]
            exact List.mem_cons_self
          simp [((hq.ready u).mp hmem).1]
      · cases hl : listInsertOrdered s.threadCmpPriority s.running s.readyList with
        | nil => exact absurd hl (listInsertOrdered_ne_nil _ _ _)
        | cons v rest =>
          rw [hl] at hu
          have hmem : u ∈ listInsertOrdered s.threadCmpPriority s.running s.readyList := by
            rw [hl, hu]
            exact List.mem_cons_self
          have hready : u ∈ s.readyList := (mem_listInsertOrdered.mp hmem).resolve_left hr
          simp [((hq.ready u).mp hready).1]
    simp [hnot]
  · rw [Sys.offered_thread]
    split
    · next hr => simp [hr, hrun]
    · rfl

/-- One of the threads that wait on a semaphore is woken, one of the highest priority. -/
structure Wakes (s s' : Sys) (k : SemaId) (t : Tid) : Prop where
  mem : t ∈ (s.sema k).waiters
  highest : ∀ u ∈ (s.sema k).waiters, (s.thread u).priority ≤ (s.thread t).priority
  waiters : (s'.sema k).waiters.Perm ((s.sema k).waiters.erase t)
  status : ∀ u, (s'.thread u).status = .blocked ↔ (s.thread u).status = .blocked ∧ u ≠ t

theorem semaWake_running (s : Sys) (k : SemaId) : (s.semaWake k).running = s.running := by
  unfold Sys.semaWake
  split <;> rfl

theorem semaWake_wakes (hne : (s.sema k).waiters ≠ []) :
    ∃ t, Wakes s (s.semaWake k) k t := by
  cases hl : listSort s.threadCmpPriority (s.sema k).waiters with
  | nil => exact absurd (listSort_eq_nil.mp hl) hne
  | cons t rest =>
    have heq : s.semaWake k = (s.setSema k fun m =>
        { value := (m.value + 1) % uintSize, waiters := rest }).threadUnblock t := by
      rw [Sys.semaWake, hl]
    have hperm : (t :: rest).Perm (s.sema k).waiters := by
      rw [← hl]
      exact listSort_perm _ _
    have hmem : t ∈ (s.sema k).waiters := hperm.mem_iff.mp List.mem_cons_self
    rw [heq]
    refine ⟨t, hmem, fun u hu => ?_, ?_, fun u => ?_⟩
    · exact head_listSort (m := t) (by rw [Sys.threadCmpPriority] at hl; rw [hl]; rfl) hu
    · rw [threadUnblock_sema, Sys.setSema_sema, if_pos rfl]
      have := hperm.erase t
      rwa [List.erase_cons_head] at this
    · unfold Sys.threadUnblock
      rw [Sys.setThread_thread]
      split
      · next hu => simp [hu]
      · next hu => simp [hu, Sys.insertReady]

/-- `sema_up` with waiters unblocks exactly one of them, one of the highest priority. -/
theorem up_wakes (hq : Queued s (some s.running) none) (hi : s.current = .up k :: rest)
    (hne : (s.sema k).waiters ≠ []) :
    ∃ s' t, Action.go.step s = .ok s' ∧ Wakes s s' k t := by
  have hpop : Queued s.pop (some s.running) none := hq.pop hi rfl
  have hidle : s.running ≠ idleThread := hq.not_idle hi
  obtain ⟨t, ht⟩ := semaWake_wakes (s := s.pop) hne
  have hgo : Action.go.step s = .ok (s.pop.semaUp k) := by
    have htodo : (s.thread s.running).todo = .up k :: rest := hi
    have heq : (s.setThread s.running fun t => { t with todo := rest }) = s.pop := by
      rw [Sys.pop, Sys.setThread, Sys.setThread, htodo]
      rfl
    simp only [Action.step, hi, heq]
    rfl
  have hprio : ∀ u, (s.pop.thread u).priority = (s.thread u).priority := fun u =>
    Sys.setThread_field (·.priority) u fun _ => rfl
  have hstatus : ∀ u, (s.pop.thread u).status = (s.thread u).status := fun u =>
    Sys.setThread_field (·.status) u fun _ => rfl
  refine ⟨_, t, hgo, ht.mem, fun u hu => ?_, ?_, fun u => ?_⟩
  · rw [← hprio, ← hprio]
    exact ht.highest u hu
  · rw [Sys.semaUp, threadYield_sema]
    exact ht.waiters
  · have hrun : (s.pop.semaWake k).running = s.running := semaWake_running s.pop k
    have hwake := hpop.semaWake (k := k)
    rw [← hrun] at hwake
    rw [Sys.semaUp, threadYield_blocked hwake, ht.status, hstatus]

/-! ## Threads on their way to the test -/

/-- A thread has been unblocked by `sema_up` and has not tested the value again. -/
def Woken (s : Sys) (k : SemaId) (t : Tid) : Prop :=
  (s.thread t).status ≠ .blocked ∧ (s.thread t).todo.head? = some (.retest k)

instance (s : Sys) (k : SemaId) : DecidablePred (Woken s k) := fun _ =>
  inferInstanceAs (Decidable (_ ∧ _))

/-- The threads that `sema_up` has unblocked and that have not tested the value again. -/
def Sys.woken (s : Sys) (k : SemaId) : Finset Tid := (Finset.range s.created).filter (Woken s k)

theorem Queued.mem_woken (hq : Queued s (some s.running) none) :
    t ∈ s.woken k ↔ (s.thread t).todo.head? = some (.retest k) ∧ t ∉ (s.sema k).waiters := by
  have hwait : t ∉ (s.sema k).waiters ↔ ¬ Waits s t k := by simp [hq.waiting]
  rw [Sys.woken, Finset.mem_filter, Finset.mem_range, hwait, Woken, Waits]
  constructor
  · rintro ⟨-, hb, hh⟩
    exact ⟨hh, fun h => hb h.1⟩
  · rintro ⟨hh, hw⟩
    refine ⟨?_, fun hb => hw ⟨hb, hh⟩, hh⟩
    by_contra hlt
    rw [(hq.fresh t (Nat.le_of_not_lt hlt)).2] at hh
    cases hh

/-- While threads wait on a semaphore, enough threads are on their way to its units. -/
def Accounted (s : Sys) : Prop :=
  ∀ k, (s.sema k).waiters ≠ [] → (s.sema k).value ≤ (s.woken k).card

theorem mem_semaWake (h : t ∈ ((s.semaWake k).sema j).waiters) : t ∈ (s.sema j).waiters := by
  unfold Sys.semaWake at h
  split at h
  · rw [Sys.setSema_sema] at h
    split at h
    · next hj => rwa [hj]
    · exact h
  · next u rest heq =>
    rw [threadUnblock_sema, Sys.setSema_sema] at h
    split at h
    · next hj =>
      have hmem : t ∈ listSort s.threadCmpPriority (s.sema k).waiters := by
        rw [heq]
        exact List.mem_cons_of_mem _ h
      rw [hj]
      exact mem_listSort.mp hmem
    · exact h

/-- Only the running thread starts to wait, and only on a semaphore it has found without a unit. -/
theorem mem_semaAfter (h : t ∈ (s.semaAfter i j).waiters) :
    t ∈ (s.sema j).waiters ∨ t = s.running ∧ i.tests = some j ∧ (s.sema j).value = 0 := by
  have hdown : ∀ k, i.tests = some k → t ∈ ((if (s.sema k).value = 0 then (s.waitOn k).sema
      else (s.setSema k fun m => { m with value := m.value - 1 }).sema) j).waiters →
        t ∈ (s.sema j).waiters ∨ t = s.running ∧ i.tests = some j ∧ (s.sema j).value = 0 := by
    intro k hi h
    split at h
    · next hv =>
      rw [Sys.waitOn_sema] at h
      split at h
      · next hj =>
        subst hj
        rcases mem_listInsertOrdered.mp h with ht | ht
        · exact .inr ⟨ht, hi, hv⟩
        · exact .inl ht
      · exact .inl h
    · rw [Sys.setSema_sema] at h
      split at h
      · next hj =>
        subst hj
        exact .inl h
      · exact .inl h
  cases i with
  | down k => exact hdown k rfl h
  | retest k => exact hdown k rfl h
  | up k => exact .inl (mem_semaWake h)
  | pushWaiter c =>
    rw [Sys.semaAfter, Sys.setSema_sema] at h
    split at h
    · cases h
    · exact .inl h
  | _ => exact .inl h

theorem mem_step_waiters (henabled : a.Enabled s) (h : a.step s = .ok s')
    (ht : t ∈ (s'.sema j).waiters) : t ∈ (s.sema j).waiters ∨
      t = s.running ∧ (s.sema j).value = 0 ∧
        a = .go ∧ s.current.head?.bind Instr.tests = some j := by
  cases a with
  | call c =>
    rw [call_sema h, Sys.semaTaken] at ht
    cases hc : c.takes with
    | none =>
      rw [hc] at ht
      exact .inl ht
    | some k =>
      simp only [hc] at ht
      split at ht
      · rw [Sys.setSema_sema] at ht
        split at ht
        · next hj => subst hj; exact .inl ht
        · exact .inl ht
      · exact .inl ht
  | go =>
    obtain ⟨i, rest, hi, hexec⟩ := go_cases henabled h
    rw [exec_sema hexec] at ht
    rcases mem_semaAfter ht with hm | ⟨hr, htest, hv⟩
    · exact .inl hm
    · exact .inr ⟨hr, hv, rfl, by rw [hi]; exact htest⟩
  | tick =>
    cases h
    rw [tick_sema] at ht
    exact .inl ht
  | split =>
    cases split_tick h
    rw [tick_sema] at ht
    exact .inl ht

/-- A thread stays on its way until it runs and tests the value. -/
theorem woken_stays (hq : Queued s (some s.running) none) (henabled : a.Enabled s)
    (h : a.step s = .ok s') (hq' : Queued s' (some s'.running) none) (ht : t ∈ s.woken j)
    (hrun : t = s.running → a ≠ .go) : t ∈ s'.woken j := by
  rw [hq.mem_woken] at ht
  rw [hq'.mem_woken]
  have htr : t ≠ s.running := by
    intro htr
    have hhead : s.current.head? = some (.retest j) := by rw [← ht.1, htr]; rfl
    cases a with
    | call c =>
      rw [current_nil_of_enabled henabled] at hhead
      cases hhead
    | go => exact hrun htr rfl
    | split =>
      replace henabled : s.divisible = true := henabled
      cases hc : s.current with
      | nil => rw [hc] at hhead; cases hhead
      | cons i rest =>
        rw [hc] at hhead
        cases hhead
        rw [Sys.divisible, hc] at henabled
        cases henabled
    | tick =>
      have hoff : s.intrOn = false := by
        cases hc : s.current with
        | nil => rw [hc] at hhead; cases hhead
        | cons i rest =>
          rw [hc] at hhead
          cases hhead
          rw [Sys.intrOn, hc]
      rw [Action.Enabled, hoff] at henabled
      cases henabled
  obtain ⟨is, -, htodo⟩ := step_todo hq henabled h
  refine ⟨by rw [htodo t, if_neg htr]; exact ht.1, fun hw => ?_⟩
  rcases mem_step_waiters henabled h hw with hw | ⟨hw, -⟩
  · exact ht.2 hw
  · exact htr hw

theorem step_value_le (henabled : a.Enabled s) (h : a.step s = .ok s')
    (hup : a.semaOp s ≠ some (.up j)) : (s'.sema j).value ≤ (s.sema j).value := by
  rw [step_value henabled h]
  cases hop : a.semaOp s with
  | none => exact Nat.le_refl _
  | some op =>
    cases op with
    | init k =>
      simp only [Option.elim_some, SemaOp.value, Function.update_apply]
      split
      · exact Nat.zero_le _
      · exact Nat.le_refl _
    | up k =>
      rw [Option.elim_some, SemaOp.value, Function.update_apply]
      split
      · next hk =>
        subst hk
        exact absurd hop hup
      · exact Nat.le_refl _
    | down k =>
      rw [Option.elim_some, SemaOp.value, Function.update_apply]
      split
      · next hk =>
        subst hk
        exact Nat.sub_le _ _
      · exact Nat.le_refl _

theorem head_of_mem_woken (hq : Queued s (some s.running) none) (h : s.running ∈ s.woken k) :
    s.current.head? = some (.retest k) := (hq.mem_woken.mp h).1

theorem go_semaOp {i : Instr} (hi : s.current = i :: rest) : Action.go.semaOp s = s.semaOp i := by
  rw [Action.semaOp, hi]
  rfl

/-- A thread tests the value. -/
theorem accounted_test (hacc : Accounted s) (hq : Queued s (some s.running) none)
    (henabled : Action.go.Enabled s) (h : Action.go.step s = .ok s') (hi : s.current = i :: rest)
    (htest : i.tests = some k) (hne : (s'.sema k).waiters ≠ []) :
    (s'.sema k).value ≤ (s'.woken k).card := by
  have hop : Action.go.semaOp s = if (s.sema k).value = 0 then none else some (.down k) := by
    rw [go_semaOp hi]
    cases i <;> cases htest <;> rfl
  have hvalue := step_value henabled h k
  rw [hop] at hvalue
  by_cases hv : (s.sema k).value = 0
  · rw [if_pos hv] at hvalue
    rw [hvalue]
    show (s.sema k).value ≤ _
    omega
  · rw [if_neg hv, Option.elim_some, SemaOp.value, Function.update_self] at hvalue
    obtain ⟨t, ht⟩ := List.exists_mem_of_ne_nil _ hne
    have hold : t ∈ (s.sema k).waiters := by
      rcases mem_step_waiters henabled h ht with hm | ⟨-, hz, -⟩
      · exact hm
      · exact absurd hz hv
    have hle : (s.sema k).value ≤ (s.woken k).card := hacc k (List.ne_nil_of_mem hold)
    have hsub : (s.woken k).erase s.running ⊆ s'.woken k := by
      intro u hu
      rw [Finset.mem_erase] at hu
      exact woken_stays hq henabled h (hq.step henabled h) hu.2 fun hr => absurd hr hu.1
    have hcard := Finset.card_le_card hsub
    have herase := Finset.pred_card_le_card_erase (s := s.woken k) (a := s.running)
    omega

/-- A thread is woken. -/
theorem accounted_up (hacc : Accounted s) (hq : Queued s (some s.running) none)
    (henabled : Action.go.Enabled s) (h : Action.go.step s = .ok s')
    (hi : s.current = .up k :: rest) (hne : (s'.sema k).waiters ≠ []) :
    (s'.sema k).value ≤ (s'.woken k).card := by
  have hvalue := step_value henabled h k
  rw [go_semaOp hi] at hvalue
  have hq' := hq.step henabled h
  have hold : (s.sema k).waiters ≠ [] := by
    obtain ⟨t, ht⟩ := List.exists_mem_of_ne_nil _ hne
    rcases mem_step_waiters henabled h ht with hm | ⟨-, -, -, htest⟩
    · exact List.ne_nil_of_mem hm
    · rw [hi] at htest
      cases htest
  have hsub : s.woken k ⊆ s'.woken k := fun u hu =>
    woken_stays hq henabled h hq' hu fun hr => by
      have hh := head_of_mem_woken hq (hr ▸ hu)
      rw [hi] at hh
      cases hh
  obtain ⟨s₁, t, hs₁, hw⟩ := up_wakes hq hi hold
  rw [h] at hs₁
  cases hs₁
  have hwaits : Waits s t k := ((hq.waiting k t).mp hw.mem).1
  have htr : t ≠ s.running := by
    rintro rfl
    rw [Waits, hq.status_running] at hwaits
    cases hwaits.1
  have hnew : t ∉ s.woken k := fun ht => (hq.mem_woken.mp ht).2 hw.mem
  have hin : t ∈ s'.woken k := by
    obtain ⟨is, -, htodo⟩ := step_todo hq henabled h
    rw [hq'.mem_woken, htodo t, if_neg htr, hw.waiters.mem_iff]
    exact ⟨hwaits.2, (hq.waitingOnce k).not_mem_erase⟩
  have hvalue' : (s'.sema k).value ≤ (s.sema k).value + 1 := by
    rw [hvalue, Sys.semaOp, Option.elim_some, SemaOp.value, Function.update_self]
    exact Nat.mod_le _ _
  have hcard := Finset.card_le_card (Finset.insert_subset hin hsub)
  rw [Finset.card_insert_of_notMem hnew] at hcard
  have hle := hacc k hold
  omega

theorem Accounted.step (hacc : Accounted s) (hq : Queued s (some s.running) none)
    (henabled : a.Enabled s) (h : a.step s = .ok s') : Accounted s' := by
  intro k hne
  by_cases hgo : a = .go ∧ ∃ i, s.current.head? = some i ∧ (i.tests = some k ∨ i = .up k)
  · obtain ⟨rfl, i, hhead, hi⟩ := hgo
    obtain ⟨rest, hcur⟩ := List.head?_eq_some_iff.mp hhead
    rcases hi with htest | rfl
    · exact accounted_test hacc hq henabled h hcur htest hne
    · exact accounted_up hacc hq henabled h hcur hne
  · obtain ⟨t, ht⟩ := List.exists_mem_of_ne_nil _ hne
    have hold : t ∈ (s.sema k).waiters := by
      rcases mem_step_waiters henabled h ht with hm | ⟨-, -, rfl, htest⟩
      · exact hm
      · cases hhead : s.current.head? with
        | none => rw [hhead] at htest; cases htest
        | some i =>
          rw [hhead] at htest
          exact absurd ⟨rfl, i, hhead, .inl htest⟩ hgo
    have hle : (s'.sema k).value ≤ (s.sema k).value := by
      refine step_value_le henabled h fun hop => hgo ?_
      obtain ⟨ha, hhead⟩ := semaOp_up hop
      exact ⟨ha, _, hhead, .inr rfl⟩
    have hsub : s.woken k ⊆ s'.woken k := fun u hu =>
      woken_stays hq henabled h (hq.step henabled h) hu fun hr ha =>
        hgo ⟨ha, _, head_of_mem_woken hq (hr ▸ hu), .inl rfl⟩
    calc (s'.sema k).value ≤ (s.sema k).value := hle
      _ ≤ (s.woken k).card := hacc k (List.ne_nil_of_mem hold)
      _ ≤ (s'.woken k).card := Finset.card_le_card hsub

/-! ## One thread between `sema_down` and `sema_up` -/

/-- The instructions inside a function on a lock. They come right after the one before them there. -/
def Instr.inner : Instr → Option LockId
  | .hold l => some l
  | .setHolder l => some l
  | .clearHolder l => some l
  | .up (.ofLock l) => some l
  | _ => none

/-- The inner instruction that comes next. -/
def Instr.next : Instr → Option Instr
  | .down (.ofLock l) => some (.hold l)
  | .retest (.ofLock l) => some (.hold l)
  | .removeLock l => some (.clearHolder l)
  | .clearHolder l => some (.up (.ofLock l))
  | _ => none

/-- The instruction in front, if it is an inner one. -/
def front (is : List Instr) : Option Instr := is.head?.filter (·.inner.isSome)

/-- The inner instructions stand where they belong. The one in front may be any. -/
def Linked : List Instr → Prop
  | [] => True
  | i :: is => front is = i.next ∧ Linked is

/-- The lock whose unit a thread has when it comes to an instruction. -/
def Instr.inside : Instr → Option LockId
  | .hold l => some l
  | .setHolder l => some l
  | .up (.ofLock l) => some l
  | _ => none

/-- A thread is between a `sema_down` of `lock_acquire` and the `sema_up` of `lock_release`. -/
def Inside (s : Sys) (l : LockId) (t : Tid) : Prop :=
  (s.lock l).holder = some t ∨ (s.thread t).todo.head?.bind Instr.inside = some l

/-- The unit of the semaphore of each lock is there, or with the one thread that is inside. -/
structure Exclusive (s : Sys) : Prop where
  linked : ∀ t, Linked (s.thread t).todo
  clearing : ∀ t l, (s.thread t).todo.head? = some (.clearHolder l) → (s.lock l).holder = some t
  releasing : ∀ t l, (s.thread t).todo.head? = some (.up (.ofLock l)) → (s.lock l).holder = none
  unit : ∀ l, (s.sema (.ofLock l)).value = 1 ∧ (∀ t, ¬ Inside s l t) ∨
    (s.sema (.ofLock l)).value = 0 ∧ ∃ t, ∀ u, Inside s l u ↔ u = t

theorem front_inside (is : List Instr) :
    (front is).bind Instr.inside = is.head?.bind Instr.inside := by
  cases is with
  | nil => rfl
  | cons i is =>
    cases i with
    | up k => cases k <;> rfl
    | _ => rfl

theorem Linked.front (h : Linked (i :: rest)) : front rest = i.next := h.1

theorem next_retest (h : i.tests = some k) : (Instr.retest k).next = i.next := by
  cases i <;> cases h <;> cases k <;> rfl

theorem linked_expands (h : Linked (i :: rest)) (hexp : i.Expands s is) : Linked (is ++ rest) := by
  obtain ⟨hf, hrest⟩ := h
  cases hexp with
  | done _ _ => exact hrest
  | donate l _ => exact ⟨rfl, hf, hrest⟩
  | next l m => exact ⟨hf, hrest⟩
  | wait hi _ => exact ⟨hf.trans (next_retest hi).symm, hrest⟩
  | yieldIfBelow t p => exact ⟨hf, hrest⟩
  | wake c t => exact ⟨hf, hrest⟩
  | loop c => exact ⟨rfl, hf, hrest⟩

theorem linked_call {c : Call} (h : c.Expands s is) : Linked is := by
  cases h with
  | done _ _ => trivial
  | create p => exact ⟨rfl, rfl, rfl, rfl, rfl, rfl, rfl, trivial⟩
  | wait c => exact ⟨rfl, rfl, rfl, rfl, rfl, rfl, rfl, rfl, trivial⟩
  | acquire l => exact ⟨rfl, rfl, rfl, trivial⟩
  | release l => exact ⟨rfl, rfl, rfl, trivial⟩
  | _ => exact ⟨rfl, trivial⟩

/-- The inner instruction in front after an instruction has been taken up. -/
theorem front_expands (h : Linked (i :: rest)) (hexp : i.Expands s is) :
    front (is ++ rest) = if is = [] then i.next else none := by
  cases hexp with
  | done _ _ => exact h.front
  | _ => rfl

theorem head_expands (h : Linked (i :: rest)) (hexp : i.Expands s is) :
    (is ++ rest).head?.bind Instr.inside = if is = [] then i.next.bind Instr.inside else none := by
  rw [← front_inside, front_expands h hexp]
  split <;> rfl

theorem step_holder (henabled : a.Enabled s) (h : a.step s = .ok s') (l : LockId) :
    (s'.lock l).holder = match a, s.current with
      | .go, i :: _ => s.holderAfter i l
      | _, _ => (s.lock l).holder := by
  cases a with
  | call c => rw [call_lock h]
  | go =>
    obtain ⟨i, rest, hi, hexec⟩ := go_cases henabled h
    rw [exec_holder hexec, hi]
    cases i <;> rfl
  | tick =>
    cases h
    rw [tick_lock]
  | split =>
    cases split_tick h
    rw [tick_lock]

theorem Exclusive.eq (h : Exclusive s) (ht : Inside s l t) (hu : Inside s l u) : t = u := by
  rcases h.unit l with ⟨-, hnone⟩ | ⟨-, v, hv⟩
  · exact absurd ht (hnone t)
  · rw [(hv t).mp ht, (hv u).mp hu]

/-- Nobody gets to hold a lock from outside. -/
theorem inside_of_holder (henabled : a.Enabled s) (h : a.step s = .ok s')
    (hheld : (s'.lock l).holder = some s.running) : Inside s l s.running := by
  rw [step_holder henabled h] at hheld
  cases a with
  | call c => exact .inl hheld
  | tick => exact .inl hheld
  | split => exact .inl hheld
  | go =>
    cases hc : s.current with
    | nil =>
      rw [hc] at hheld
      exact .inl hheld
    | cons i rest =>
      have hin : i.inside = some l → Inside s l s.running := fun hi => .inr (by
        show s.current.head?.bind _ = _
        rw [hc]
        exact hi)
      rw [hc] at hheld
      cases i with
      | hold m =>
        simp only [Sys.holderAfter] at hheld
        split at hheld
        · next hm => exact hin (by rw [hm]; rfl)
        · exact .inl hheld
      | setHolder m =>
        simp only [Sys.holderAfter] at hheld
        split at hheld
        · next hm => exact hin (by rw [hm]; rfl)
        · exact .inl hheld
      | clearHolder m =>
        simp only [Sys.holderAfter] at hheld
        split at hheld
        · cases hheld
        · exact .inl hheld
      | _ => exact .inl hheld

section

variable (hx : Exclusive s) (hq : Queued s (some s.running) none) (henabled : a.Enabled s)
  (h : a.step s = .ok s')

include hx hq henabled h

theorem linked_step (t : Tid) : Linked (s'.thread t).todo := by
  obtain ⟨is, hunf, htodo⟩ := step_todo hq henabled h
  rw [htodo]
  split
  · cases hunf with
    | call c is hexp => exact linked_call hexp
    | go hi hexp =>
      refine linked_expands ?_ hexp
      rw [← hi]
      exact hx.linked s.running
    | tick => exact hx.linked s.running
    | split => exact hx.linked s.running
  · exact hx.linked t

omit hq in
/-- A step of the running thread leaves alone who else is inside. -/
theorem holder_other (ht : t ≠ s.running) :
    (s'.lock l).holder = some t ↔ (s.lock l).holder = some t := by
  rw [step_holder henabled h]
  cases a with
  | call c => rfl
  | tick => rfl
  | split => rfl
  | go =>
    cases hc : s.current with
    | nil => rfl
    | cons i rest =>
      have hhead : (s.thread s.running).todo.head? = some i := by
        show s.current.head? = _
        rw [hc]
        rfl
      have hin : i.inside = some l → ¬ (s.lock l).holder = some t := fun hi hold =>
        ht (hx.eq (.inl hold) (.inr (by rw [hhead]; exact hi)))
      cases i with
      | hold m =>
        simp only [Sys.holderAfter]
        split
        · next hm =>
          have := hin (by rw [hm]; rfl)
          simp [this, Ne.symm ht]
        · rfl
      | setHolder m =>
        simp only [Sys.holderAfter]
        split
        · next hm =>
          have := hin (by rw [hm]; rfl)
          simp [this, Ne.symm ht]
        · rfl
      | clearHolder m =>
        simp only [Sys.holderAfter]
        split
        · next hm =>
          rw [hm, hx.clearing s.running m hhead]
          simp [Ne.symm ht]
        · rfl
      | _ => rfl

omit hq in
/-- Nobody takes a lock that another thread is inside of. -/
theorem none_stays (ht : t ≠ s.running) (hin : Inside s l t) (hnone : (s.lock l).holder = none) :
    (s'.lock l).holder = none := by
  cases hh : (s'.lock l).holder with
  | none => rfl
  | some u =>
    by_cases hu : u = s.running
    · rw [hu] at hh
      exact absurd (hx.eq hin (inside_of_holder henabled h hh)) ht
    · have := (holder_other hx henabled h hu).mp hh
      rw [hnone] at this
      cases this

theorem inside_other (ht : t ≠ s.running) : Inside s' l t ↔ Inside s l t := by
  obtain ⟨is, -, htodo⟩ := step_todo hq henabled h
  rw [Inside, Inside, holder_other hx henabled h ht, htodo, if_neg ht]

theorem clearing_step (ht : (s'.thread t).todo.head? = some (.clearHolder l)) :
    (s'.lock l).holder = some t := by
  obtain ⟨is, hunf, htodo⟩ := step_todo hq henabled h
  by_cases htr : t = s.running
  · rw [htodo, if_pos htr] at ht
    cases hunf with
    | call c is hexp => cases hexp <;> cases ht
    | tick =>
      rw [step_holder henabled h, htr]
      exact hx.clearing _ l ht
    | split =>
      rw [step_holder henabled h, htr]
      exact hx.clearing _ l ht
    | @go i is rest hi hexp =>
      have hfront : front (is ++ rest) = some (.clearHolder l) := by
        rw [front, ht]
        rfl
      have hlinked : Linked (i :: rest) := by
        rw [← hi]
        exact hx.linked s.running
      rw [front_expands hlinked hexp] at hfront
      split at hfront
      · have hi' : i = .removeLock l := by
          cases i with
          | removeLock m => cases hfront; rfl
          | down k => cases k <;> cases hfront
          | retest k => cases k <;> cases hfront
          | _ => cases hfront
        subst hi'
        obtain ⟨i', rest', hi', hexec⟩ := go_cases henabled h
        rw [hi] at hi'
        cases hi'
        rw [exec_holder hexec]
        rw [htr]
        cases exec_ran hexec with
        | removeNone hheld => exact hheld
        | remove hheld => exact hheld
      · cases hfront
  · rw [htodo, if_neg htr] at ht
    exact (holder_other hx henabled h htr).mpr (hx.clearing t l ht)

theorem releasing_step (ht : (s'.thread t).todo.head? = some (.up (.ofLock l))) :
    (s'.lock l).holder = none := by
  obtain ⟨is, hunf, htodo⟩ := step_todo hq henabled h
  by_cases htr : t = s.running
  · rw [htodo, if_pos htr] at ht
    cases hunf with
    | call c is hexp => cases hexp <;> cases ht
    | tick =>
      rw [step_holder henabled h]
      exact hx.releasing s.running l ht
    | split =>
      rw [step_holder henabled h]
      exact hx.releasing s.running l ht
    | @go i is rest hi hexp =>
      have hfront : front (is ++ rest) = some (.up (.ofLock l)) := by
        rw [front, ht]
        rfl
      have hlinked : Linked (i :: rest) := by
        rw [← hi]
        exact hx.linked s.running
      rw [front_expands hlinked hexp] at hfront
      split at hfront
      · have hi' : i = .clearHolder l := by
          cases i with
          | clearHolder m => cases hfront; rfl
          | down k => cases k <;> cases hfront
          | retest k => cases k <;> cases hfront
          | _ => cases hfront
        rw [step_holder henabled h, hi, hi']
        simp [Sys.holderAfter]
      · cases hfront
  · rw [htodo, if_neg htr] at ht
    have hin : Inside s l t := .inr (by rw [ht]; rfl)
    exact none_stays hx henabled h htr hin (hx.releasing t l ht)

/-- A thread gets inside. -/
theorem enters (hdown : a.semaOp s = some (.down (.ofLock l))) : Inside s' l s.running := by
  obtain ⟨hv, hdown⟩ := semaOp_down hdown
  obtain ⟨is, hunf, htodo⟩ := step_todo hq henabled h
  right
  rw [htodo, if_pos rfl]
  rcases hdown with ⟨c, rfl, hc⟩ | ⟨rfl, i, hi, htest⟩
  · cases hunf with
    | call c is hexp =>
      cases c with
      | tryAcquire m =>
        cases hc
        cases hexp with
        | done _ hz => exact absurd (hz m rfl) hv
        | tryAcquire m hv => rfl
      | _ => cases hc
  · cases hunf with
    | @go j is rest hj hexp =>
      rw [hj] at hi
      cases hi
      have hlinked : Linked (i :: rest) := by
        rw [← hj]
        exact hx.linked s.running
      rw [head_expands hlinked hexp]
      cases hexp with
      | done _ _ =>
        rw [if_pos rfl]
        cases i <;> cases htest <;> rfl
      | wait hk hz =>
        rw [htest] at hk
        cases hk
        exact absurd hz hv
      | _ => cases htest

omit hx in
/-- A thread leaves. -/
theorem leaves (hx : Exclusive s) (hup : a.semaOp s = some (.up (.ofLock l))) :
    Inside s l s.running ∧ ¬ Inside s' l s.running := by
  obtain ⟨rfl, hhead⟩ := semaOp_up hup
  have hin : Inside s l s.running := .inr (by
    show s.current.head?.bind _ = _
    rw [hhead]
    rfl)
  refine ⟨hin, ?_⟩
  obtain ⟨is, hunf, htodo⟩ := step_todo hq henabled h
  cases hunf with
  | @go i is rest hi hexp =>
    have hlinked : Linked (i :: rest) := by
      rw [← hi]
      exact hx.linked s.running
    rw [hi] at hhead
    cases hhead
    have hnone : (s.lock l).holder = none := hx.releasing s.running l (by
      show s.current.head? = _
      rw [hi]
      rfl)
    rintro (hheld | hfront)
    · rw [step_holder henabled h, hi] at hheld
      simp only [Sys.holderAfter] at hheld
      rw [hnone] at hheld
      cases hheld
    · rw [htodo, if_pos rfl, head_expands hlinked hexp] at hfront
      split at hfront <;> cases hfront

/-- A thread stays inside, or outside. -/
theorem stays (hdown : a.semaOp s ≠ some (.down (.ofLock l)))
    (hup : a.semaOp s ≠ some (.up (.ofLock l))) :
    Inside s' l s.running ↔ Inside s l s.running := by
  obtain ⟨is, hunf, htodo⟩ := step_todo hq henabled h
  rw [Inside, Inside, step_holder henabled h, htodo, if_pos rfl]
  cases hunf with
  | call c is hexp =>
    have hnil : (s.thread s.running).todo = [] := current_nil_of_enabled henabled
    rw [hnil]
    cases hexp with
    | tryAcquire m hv =>
      have hm : l ≠ .user m := by
        rintro rfl
        exact hdown (by simp [Action.semaOp, Call.takes, hv])
      simp [Instr.inside, Ne.symm hm]
    | _ => simp [Instr.inside, Sys.lockAcquire, Sys.lockRelease]
  | tick => rfl
  | split => rfl
  | @go i is rest hi hexp =>
    have hlinked : Linked (i :: rest) := by
      rw [← hi]
      exact hx.linked s.running
    have hcur : (s.thread s.running).todo = i :: rest := hi
    have hop : Action.go.semaOp s = s.semaOp i := go_semaOp hi
    rw [hop] at hdown hup
    rw [hi, hcur, head_expands hlinked hexp]
    have hclear : ∀ m, i = .clearHolder m → (s.lock m).holder = some s.running := fun m hm =>
      hx.clearing s.running m (by rw [hcur, hm]; rfl)
    -- only the instructions on the lock itself could change who is inside
    show (s.holderAfter i l = some s.running ∨ _) ↔
      ((s.lock l).holder = some s.running ∨ i.inside = some l)
    cases hexp with
    | done _ hv =>
      rw [if_pos rfl]
      have htest : ∀ m, i.tests = some (.ofLock m) → m ≠ l := by
        rintro m hm rfl
        have hne := hv _ hm
        refine hdown ?_
        cases i <;> cases hm <;> exact if_neg hne
      cases i with
      | down k =>
        cases k with
        | ofLock m => simp [Sys.holderAfter, Instr.next, Instr.inside, htest m rfl]
        | _ => rfl
      | retest k =>
        cases k with
        | ofLock m => simp [Sys.holderAfter, Instr.next, Instr.inside, htest m rfl]
        | _ => rfl
      | up k =>
        cases k with
        | ofLock m =>
          have hm : m ≠ l := by
            rintro rfl
            exact hup rfl
          simp [Sys.holderAfter, Instr.next, Instr.inside, hm]
        | _ => rfl
      | hold m =>
        by_cases hm : l = m
        · simp [Sys.holderAfter, Instr.inside, hm]
        · simp [Sys.holderAfter, Instr.next, Instr.inside, hm, Ne.symm hm]
      | setHolder m =>
        by_cases hm : l = m
        · simp [Sys.holderAfter, Instr.inside, hm]
        · simp [Sys.holderAfter, Instr.next, Instr.inside, hm, Ne.symm hm]
      | clearHolder m =>
        by_cases hm : l = m
        · simp [Sys.holderAfter, Instr.next, Instr.inside, hm, hclear]
        · simp [Sys.holderAfter, Instr.next, Instr.inside, hm, Ne.symm hm]
      | _ => rfl
    | wait hk _ =>
      cases i <;> cases hk <;> rfl
    | _ => rfl

/-- What becomes of the unit of a lock. -/
theorem unit_step (l : LockId) : (s'.sema (.ofLock l)).value = 1 ∧ (∀ t, ¬ Inside s' l t) ∨
    (s'.sema (.ofLock l)).value = 0 ∧ ∃ t, ∀ u, Inside s' l u ↔ u = t := by
  have hvalue := step_value henabled h (.ofLock l)
  have hother := fun t ht => inside_other (l := l) (t := t) hx hq henabled h ht
  by_cases hdown : a.semaOp s = some (.down (.ofLock l))
  · have hv := (semaOp_down hdown).1
    rw [hdown, Option.elim_some, SemaOp.value, Function.update_self] at hvalue
    rcases hx.unit l with ⟨hone, hnone⟩ | ⟨hzero, -⟩
    · refine .inr ⟨by omega, s.running, fun u => ?_⟩
      by_cases hu : u = s.running
      · simp [hu, enters hx hq henabled h hdown]
      · simp [hu, hother u hu, hnone u]
    · exact absurd hzero hv
  by_cases hup : a.semaOp s = some (.up (.ofLock l))
  · obtain ⟨hin, hout⟩ := leaves hq henabled h hx hup
    rw [hup, Option.elim_some, SemaOp.value, Function.update_self] at hvalue
    rcases hx.unit l with ⟨-, hnone⟩ | ⟨hzero, v, hv⟩
    · exact absurd hin (hnone _)
    · refine .inl ⟨by rw [hvalue, hzero]; rfl, fun u hu => ?_⟩
      by_cases hur : u = s.running
      · exact hout (hur ▸ hu)
      · rw [hother u hur, hv] at hu
        exact hur (hu.trans ((hv _).mp hin).symm)
  have hsame : (s'.sema (.ofLock l)).value = (s.sema (.ofLock l)).value := by
    rw [hvalue]
    cases hop : a.semaOp s with
    | none => rfl
    | some op =>
      cases op with
      | init j =>
        rw [semaOp_init hop]
        rfl
      | up j =>
        rw [Option.elim_some, SemaOp.value, Function.update_of_ne]
        rintro rfl
        exact hup hop
      | down j =>
        rw [Option.elim_some, SemaOp.value, Function.update_of_ne]
        rintro rfl
        exact hdown hop
  have hin : ∀ t, Inside s' l t ↔ Inside s l t := by
    intro t
    by_cases ht : t = s.running
    · rw [ht, stays hx hq henabled h hdown hup]
    · exact hother t ht
  simp only [hsame, hin]
  exact hx.unit l

end

theorem Exclusive.step (hx : Exclusive s) (hq : Queued s (some s.running) none)
    (henabled : a.Enabled s) (h : a.step s = .ok s') : Exclusive s' where
  linked := linked_step hx hq henabled h
  clearing _ _ := clearing_step hx hq henabled h
  releasing _ _ := releasing_step hx hq henabled h
  unit := unit_step hx hq henabled h

theorem Booted.exclusive (h : Booted s) : Exclusive s := by
  cases h with
  | intro mlfqs condLock unset values ticks threadTicks priority recentCpu loadAvg =>
    exact {
      linked := fun t => trivial
      clearing := fun t l ht => by cases ht
      releasing := fun t l ht => by cases ht
      unit := fun l => .inl ⟨rfl, fun t ht => by rcases ht with ht | ht <;> cases ht⟩ }

theorem Reachable.exclusive (h : Reachable P s) : Exclusive s := by
  induction h with
  | init h => exact h.exclusive
  | step a hr henabled _ hs ih => exact ih.step hr.queued henabled hs

theorem Reachable.counted (h : Reachable P s) : ∃ n, Counted s n := by
  induction h with
  | init h => exact ⟨_, .init h⟩
  | step a _ henabled _ hs ih =>
    obtain ⟨n, hn⟩ := ih
    exact ⟨_, hn.step a henabled hs⟩

end Pintos.Schedule
