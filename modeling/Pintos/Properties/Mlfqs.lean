import Pintos.Properties.Preemption

/-!
# Where a step calls `schedule`

A thread is put into the ready queue by its priority of that moment. In the MLFQS mode no step changes
the priority of a thread in the queue, but for the timer interrupt.
-/

namespace Pintos.Schedule

open Pintos.Lib

variable {P : Sys → Action → Prop} {s s' x : Sys} {t u : Tid} {k : SemaId} {l : LockId} {i : Instr}
  {is rest : List Instr} {a : Action}

/-! ## Where a step calls `schedule` -/

/-- The state in which an instruction calls `schedule`. -/
def Sys.execPicks (s : Sys) : Instr → Option Sys
  | .down k => if (s.sema k).value = 0 then some (s.waitOn k) else none
  | .retest k => if (s.sema k).value = 0 then some (s.waitOn k) else none
  | .up k => some (s.semaWake k).offered
  | .yield => some s.offered
  | .yieldIfBelow p => if (s.thread s.running).priority < p then some s.offered else none
  | _ => none

/-- The state in which a call calls `schedule`. -/
def Sys.callPicks (s : Sys) : Call → Option Sys
  | .exit => some ({ s with allList := s.allList.erase s.running }.setThread s.running fun t =>
      { t with status := .dying })
  | .yield => some s.offered
  | .sleep n => if n ≤ 0 then none else some (s.drowse n)
  | .block => some s.park
  | .idle => some (s.setThread s.running fun t => { t with status := .blocked })
  | _ => none

/-- The state in which a step calls `schedule`, which is the last thing that it does. -/
def Action.picks (s : Sys) : Action → Option Sys
  | .call c => s.callPicks c
  | .go => s.current.head?.bind s.pop.execPicks
  | .tick => if s.sliceEnds then some s.timerInterrupt.offered else none
  | .split => if s.sliceEnds && !s.tears then some s.timerInterrupt.offered else none

theorem execPicks_exec (h : s.execPicks i = some x) : s.exec i = .ok x.schedule := by
  cases i with
  | down k =>
    simp only [Sys.execPicks] at h
    split at h <;> cases h
    next hv => exact congrArg Except.ok (Sys.semaDown_zero hv)
  | retest k =>
    simp only [Sys.execPicks] at h
    split at h <;> cases h
    next hv => exact congrArg Except.ok (Sys.semaDown_zero hv)
  | up k =>
    cases h
    rfl
  | yield =>
    cases h
    rfl
  | yieldIfBelow p =>
    simp only [Sys.execPicks] at h
    split at h <;> cases h
    next hlt => simp only [Sys.exec, if_pos hlt, Sys.threadYield_eq]
  | _ => cases h

/-- A step that calls `schedule` in some state ends where `schedule` does. -/
theorem picks_step (henabled : a.Enabled s) (h : a.picks s = some x) :
    a.step s = .ok x.schedule := by
  cases a with
  | call c =>
    cases c with
    | exit =>
      cases h
      rfl
    | yield =>
      cases h
      rfl
    | sleep n =>
      simp only [Action.picks, Sys.callPicks] at h
      split at h <;> cases h
      next hn => simp only [Action.step, Sys.call, if_neg hn, Sys.timerSleep_eq]
    | block =>
      cases h
      rfl
    | idle =>
      cases h
      rfl
    | _ => cases h
  | go =>
    cases hc : s.current with
    | nil =>
      have hf : s.free = true := by simp [Sys.free, hc]
      rw [Action.Enabled, hf] at henabled
      cases henabled
    | cons i rest =>
      rw [Action.picks, hc] at h
      have htodo : (s.thread s.running).todo = i :: rest := hc
      have hpop : (s.setThread s.running fun t => { t with todo := rest }) = s.pop := by
        rw [Sys.pop, Sys.setThread, Sys.setThread, htodo]
        rfl
      simp only [Action.step, hc, hpop]
      exact execPicks_exec h
  | tick =>
    simp only [Action.picks] at h
    split at h <;> cases h
    next hslice =>
    simp only [Action.step, Sys.tick, if_pos hslice, Sys.threadYield_eq]
  | split =>
    simp only [Action.picks] at h
    split at h <;> cases h
    next hslice =>
    simp only [Bool.and_eq_true, Bool.not_eq_true'] at hslice
    simp [Action.step, Sys.tick, hslice, Sys.threadYield_eq]

/-! ## Priorities in the MLFQS mode -/

/-- No thread donates its priority. -/
def NoDonation (s : Sys) : Prop := ∀ t l, .donate l ∉ (s.thread t).todo

theorem NoDonation.step (hn : NoDonation s) (hm : s.mlfqs = true)
    (hq : Queued s (some s.running) none) (henabled : a.Enabled s) (h : a.step s = .ok s') :
    NoDonation s' := by
  obtain ⟨is, hunf, htodo⟩ := step_todo hq henabled h
  intro t l ht
  rw [htodo] at ht
  split at ht
  · cases hunf with
    | call c is hexp => cases hexp <;> simp [Sys.lockAcquire, Sys.lockRelease] at ht
    | go hi hexp =>
      have hcur : (s.thread s.running).todo = _ := hi
      have hold := hn s.running
      rw [hcur] at hold
      rcases List.mem_append.mp ht with ht | ht
      · cases hexp with
        | donate m hm' =>
          rw [hm] at hm'
          cases hm'
        | next m m' => exact hold m List.mem_cons_self
        | _ => simp at ht
      · exact hold l (List.mem_cons_of_mem _ ht)
    | tick => exact hn s.running l ht
    | split => exact hn s.running l ht
  · exact hn t l ht

/-- No instruction changes a priority. -/
theorem exec_priority (hm : s.mlfqs = true) (hi : ∀ l, i ≠ .donate l) (h : s.exec i = .ok s')
    (t : Tid) : (s'.thread t).priority = (s.thread t).priority := by
  cases i with
  | donate l => exact absurd rfl (hi l)
  | hold l =>
    cases h
    rw [if_pos hm]
    rfl
  | setHolder l =>
    cases h
    rfl
  | removeLock l =>
    simp only [Sys.exec] at h
    split at h
    · cases h
    · cases h
      rfl
  | clearHolder l =>
    cases h
    rfl
  | _ => exact (sameRank_exec rfl h).priority t

/-- An instruction leaves the ready queue in order. -/
theorem sorted_exec (hs : s.Sorted) (hm : s.mlfqs = true) (hi : ∀ l, i ≠ .donate l)
    (h : s.exec i = .ok s') : s'.Sorted ∧ ∀ x, s.execPicks i = some x → x.Sorted := by
  have hpicks : ∀ x, s.execPicks i = some x → x.Sorted := by
    intro x hx
    cases i with
    | down k =>
      simp only [Sys.execPicks] at hx
      split at hx <;> cases hx
      exact hs.waitOn k
    | retest k =>
      simp only [Sys.execPicks] at hx
      split at hx <;> cases hx
      exact hs.waitOn k
    | up k =>
      cases hx
      exact (hs.semaWake k).offered
    | yield =>
      cases hx
      exact hs.offered
    | yieldIfBelow p =>
      simp only [Sys.execPicks] at hx
      split at hx <;> cases hx
      exact hs.offered
    | _ => cases hx
  refine ⟨?_, hpicks⟩
  -- with a call of `schedule` the queue is what that leaves, without one it stays
  cases hx : s.execPicks i with
  | some x =>
    have hs' : s' = x.schedule := by
      rw [execPicks_exec hx] at h
      exact (Except.ok.inj h).symm
    rw [hs']
    exact (hpicks x hx).schedule.1
  | none =>
    cases i with
    | unblock t p =>
      simp only [Sys.exec] at h
      split at h <;> cases h
      exact (hs.threadUnblock t).same (sameRank_push _ _) rfl
    | donate l => exact absurd rfl (hi l)
    | up k => cases hx
    | yield => cases hx
    | yieldIfBelow p =>
      simp only [Sys.execPicks] at hx
      split at hx
      · cases hx
      · next hlt =>
        simp only [Sys.exec] at h
        rw [if_neg hlt] at h
        cases h
        exact hs
    | down k =>
      simp only [Sys.execPicks] at hx
      split at hx
      · cases hx
      · next hv =>
        obtain ⟨-, hready⟩ := exec_stays (i := .down k) (by simpa [Instr.moves] using hv) h
        exact hs.congr hready fun t _ => exec_priority hm hi h t
    | retest k =>
      simp only [Sys.execPicks] at hx
      split at hx
      · cases hx
      · next hv =>
        obtain ⟨-, hready⟩ := exec_stays (i := .retest k) (by simpa [Instr.moves] using hv) h
        exact hs.congr hready fun t _ => exec_priority hm hi h t
    | _ => exact hs.congr (exec_stays rfl h).2 fun t _ => exec_priority hm hi h t

theorem not_listed (hq : Queued s (some s.running) none) : s.running ∉ s.readyList := by
  rw [hq.ready, hq.status_running]
  rintro ⟨⟨⟩, -⟩

/-- A call leaves the ready queue in order. -/
theorem sorted_call (hs : s.Sorted) (hm : s.mlfqs = true) (hq : Queued s (some s.running) none)
    {c : Call} (h : s.call c = .ok s') : s'.Sorted ∧ ∀ x, s.callPicks c = some x → x.Sorted := by
  have hpicks : ∀ x, s.callPicks c = some x → x.Sorted := by
    intro x hx
    cases c with
    | exit =>
      cases hx
      exact hs.off _ _
    | yield =>
      cases hx
      exact hs.offered
    | sleep n =>
      simp only [Sys.callPicks] at hx
      split at hx <;> cases hx
      exact hs.drowse n
    | block =>
      cases hx
      exact hs.park
    | idle =>
      cases hx
      exact hs.off s.allList _
    | _ => cases hx
  refine ⟨?_, hpicks⟩
  cases c with
  | create p =>
    simp only [Sys.call] at h
    split at h <;> cases h
    refine hs.congr rfl fun t ht => ?_
    have hne : t ≠ s.created := by
      rintro rfl
      have := (hq.fresh s.created (Nat.le_refl _)).1
      rw [((hq.ready _).mp ht).1] at this
      cases this
    rw [(sameRank_push _ _).priority]
    exact congrArg Thread.priority (Function.update_of_ne hne _ _)
  | setPriority p =>
    cases h
    rw [Sys.threadSetPriority, if_pos hm]
    exact hs
  | setNice n =>
    cases h
    -- the new priority is that of the running thread, which is not in the queue
    have hset : (s.reniced n).Sorted := hs.congr rfl fun t ht => by
      have hne : t ≠ s.running := fun hr => not_listed hq (hr ▸ ht)
      rw [Sys.reniced, Sys.setThread_thread, if_neg hne]
    rw [Sys.threadSetNice_eq]
    split
    · exact hset.same (sameRank_push _ _) rfl
    · exact hset
  | exit =>
    cases h
    exact (hpicks _ rfl).schedule.1
  | yield =>
    cases h
    exact hs.offered.schedule.1
  | sleep n =>
    cases h
    by_cases hn : n ≤ 0
    · rw [if_pos hn]
      exact hs
    · rw [if_neg hn, Sys.timerSleep_eq]
      exact (hpicks _ (by simp only [Sys.callPicks, if_neg hn])).schedule.1
  | block =>
    cases h
    exact (hpicks _ rfl).schedule.1
  | unblock t =>
    obtain ⟨-, rfl⟩ := call_unblock h
    exact hs.threadUnblock t
  | idle =>
    cases h
    exact (hpicks _ rfl).schedule.1
  | _ =>
    have hrank := sameRank_call rfl (by simp) (by simp) h
    exact hs.same hrank (call_stays rfl h).2

end Pintos.Schedule
