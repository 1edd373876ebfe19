import Pintos.Properties.ReadyOrder
import Pintos.Properties.Sleepers

/-!
# The list of all threads

`thread_foreach` goes through `all_list`. A thread is put there when it is made, and taken out when it
exits; no thread comes back after that (`StayDead`), so each thread that can run is in the list.
-/

namespace Pintos.Schedule

open Pintos.Lib

variable {P : Sys → Action → Prop} {s s' s'' : Sys} {t u : Tid} {k : SemaId} {i : Instr} {a : Action}
  {act loose : Option Tid}

/-- Threads that have exited are left alone. -/
def StayDead (s s' : Sys) : Prop :=
  ∀ t, (s.thread t).status = .dying → (s'.thread t).status = .dying

theorem StayDead.trans (h : StayDead s s') (h' : StayDead s' s'') : StayDead s s'' :=
  fun t ht => h' t (h t ht)

theorem StayDead.of_status (h : ∀ t, (s'.thread t).status = (s.thread t).status) : StayDead s s' :=
  fun t ht => (h t).trans ht

theorem StayDead.push (h : StayDead s s') (is : List Instr) : StayDead s (s'.push is) :=
  h.trans (.of_status fun t => Sys.setThread_field (·.status) t fun _ => rfl)

/-- A thread that has not exited takes on another status. -/
theorem StayDead.of_update (st : Tid → Status) (hu : (s.thread u).status ≠ .dying)
    (h : ∀ t, (s'.thread t).status = if t = u then st t else (s.thread t).status) :
    StayDead s s' := by
  intro t ht
  rw [h, if_neg]
  · exact ht
  · rintro rfl
    exact hu ht

/-- The threads that `schedule` can pick have not exited. -/
structure Lively (s : Sys) : Prop where
  running : (s.thread s.running).status ≠ .dying
  ready : ∀ t ∈ s.readyList, (s.thread t).status ≠ .dying
  idle : (s.thread idleThread).status ≠ .dying

theorem Queued.lively (hq : Queued s (some s.running) loose) : Lively s where
  running := by simp [hq.status_running]
  ready t ht := by simp [((hq.ready t).mp ht).1]
  idle := hq.idle.2.1

theorem schedule_stayDead (hready : ∀ t ∈ s.readyList, (s.thread t).status ≠ .dying)
    (hidle : (s.thread idleThread).status ≠ .dying) : StayDead s s.schedule := by
  have hpick : (s.thread s.schedule.running).status ≠ .dying := by
    rw [Sys.schedule_running]
    cases hl : s.readyList with
    | nil => exact hidle
    | cons t rest =>
      have ht : t ∈ s.readyList := by
        rw [hl]
        exact List.mem_cons_self
      exact hready t ht
  refine .of_update (fun _ => .running) hpick fun t => ?_
  rw [Sys.schedule_thread]
  split <;> rfl

/-- The running thread takes on another status, and `schedule` is called. -/
theorem Lively.leave (h : Lively s) (st : Status) (hst : st ≠ .dying)
    (hstatus : ∀ t, (s'.thread t).status = if t = s.running then st else (s.thread t).status)
    (hready : ∀ t ∈ s'.readyList, t = s.running ∨ t ∈ s.readyList) : StayDead s s'.schedule := by
  have hdead : StayDead s s' := .of_update (fun _ => st) h.running hstatus
  have halive : ∀ t, (s.thread t).status ≠ .dying → (s'.thread t).status ≠ .dying := by
    intro t ht
    rw [hstatus]
    split
    · exact hst
    · exact ht
  refine hdead.trans (schedule_stayDead (fun t ht => ?_) (halive _ h.idle))
  rcases hready t ht with rfl | ht
  · exact halive _ h.running
  · exact halive t (h.ready t ht)

theorem Lively.threadYield (h : Lively s) : StayDead s s.threadYield := by
  rw [Sys.threadYield_eq]
  refine h.leave .ready (by simp) (fun t => ?_) fun t ht => ?_
  · rw [Sys.offered_thread]
    split <;> rfl
  · rw [Sys.offered_readyList] at ht
    split at ht
    · exact .inr ht
    · exact mem_listInsertOrdered.mp ht

theorem Lively.semaDown (h : Lively s) (k : SemaId) : StayDead s (s.semaDown k) := by
  by_cases hv : (s.sema k).value = 0
  · rw [Sys.semaDown_zero hv]
    refine h.leave .blocked (by simp) (fun t => ?_) fun t ht => .inr ht
    rw [Sys.waitOn_thread]
    split <;> rfl
  · rw [Sys.semaDown_pos hv]
    exact fun _ => id

theorem Lively.threadUnblock (h : Lively s) (ht : (s.thread t).status = .blocked) :
    StayDead s (s.threadUnblock t) ∧ Lively (s.threadUnblock t) := by
  have hstatus : ∀ u, ((s.threadUnblock t).thread u).status =
      if u = t then .ready else (s.thread u).status := by
    intro u
    simp only [Sys.threadUnblock, Sys.insertReady, Sys.setThread_thread]
    split <;> rfl
  have halive : ∀ u, (s.thread u).status ≠ .dying →
      ((s.threadUnblock t).thread u).status ≠ .dying := by
    intro u hu
    rw [hstatus]
    split
    · simp
    · exact hu
  refine ⟨.of_update (fun _ => .ready) (by simp [ht]) hstatus, halive _ h.running,
    fun u hu => ?_, halive _ h.idle⟩
  rcases mem_listInsertOrdered.mp hu with rfl | hu
  · exact halive u (by simp [ht])
  · exact halive u (h.ready u hu)

theorem Lively.semaWake (h : Lively s)
    (hb : ∀ t ∈ (s.sema k).waiters, (s.thread t).status = .blocked) :
    StayDead s (s.semaWake k) ∧ Lively (s.semaWake k) := by
  unfold Sys.semaWake
  split
  · exact ⟨fun _ => id, h.running, h.ready, h.idle⟩
  · next t rest hl =>
    have ht : t ∈ (s.sema k).waiters := by
      rw [← @mem_listSort _ s.threadCmpPriority, hl]
      exact List.mem_cons_self
    exact Lively.threadUnblock
      (s := s.setSema k fun m => { value := (m.value + 1) % uintSize, waiters := rest })
      ⟨h.running, h.ready, h.idle⟩ (hb t ht)

theorem exec_stayDead (hq : Queued s (some s.running) loose) (h : s.exec i = .ok s') :
    StayDead s s' := by
  have hl := hq.lively
  by_cases hi : i.moves s = false
  · exact .of_status (exec_status hi h)
  · cases exec_ran h with
    | donateLast => exact .of_status (Unmoved.donated s _ _).status
    | donateNext => exact (StayDead.of_status (Unmoved.donated s _ _).status).push _
    | down => exact hl.semaDown _
    | retest => exact hl.semaDown _
    | @up k =>
      obtain ⟨hdead, hl'⟩ := hl.semaWake fun t ht => ((hq.waiting k t).mp ht).1.1
      exact hdead.trans hl'.threadYield
    | yield => exact hl.threadYield
    | unblock hb => exact (hl.threadUnblock hb).1.push _
    | yieldBelow => exact hl.threadYield
    | stayAbove => exact fun _ => id
    | _ => exact absurd rfl hi

/-- The running thread exits. -/
theorem exit_stayDead (hq : Queued s (some s.running) none) (hidle : s.running ≠ idleThread) :
    StayDead s s.threadExit ∧ (s.threadExit.thread s.running).status = .dying := by
  obtain ⟨x, hx⟩ : ∃ x : Sys, x = { s with allList := s.allList.erase s.running }.setThread s.running
    fun t => { t with status := .dying } := ⟨_, rfl⟩
  have hstatus : ∀ t, (x.thread t).status =
      if t = s.running then .dying else (s.thread t).status := by
    intro t
    rw [hx, Sys.setThread_thread]
    split <;> rfl
  have hother : ∀ t, t ≠ s.running → (s.thread t).status ≠ .dying → (x.thread t).status ≠ .dying := by
    intro t ht halive
    rwa [hstatus, if_neg ht]
  have hl := hq.lively
  have hschedule : StayDead x s.threadExit := by
    have heq : s.threadExit = x.schedule := by
      rw [hx]
      rfl
    rw [heq]
    refine schedule_stayDead (fun t ht => ?_) (hother _ (Ne.symm hidle) hl.idle)
    have ht : t ∈ s.readyList := by
      rw [hx] at ht
      exact ht
    refine hother t ?_ (hl.ready t ht)
    rintro rfl
    exact not_listed hq ht
  have hdead : StayDead s x := by
    intro t ht
    rw [hstatus]
    split
    · rfl
    · exact ht
  exact ⟨hdead.trans hschedule, hschedule _ (by rw [hstatus, if_pos rfl])⟩

theorem call_stayDead (hq : Queued s (some s.running) none) {c : Call}
    (henabled : (Action.call c).Enabled s) (hc : ∀ p, c ≠ .create p) (h : s.call c = .ok s') :
    StayDead s s' := by
  have hl := hq.lively
  by_cases hm : c.moves = false
  · exact .of_status (call_status hm h)
  · cases c with
    | create p => exact absurd rfl (hc p)
    | exit =>
      cases h
      refine (exit_stayDead hq fun hi => ?_).1
      have hidle := henabled.2.mpr hi
      cases hidle
    | yield =>
      cases h
      exact hl.threadYield
    | setPriority p =>
      cases h
      unfold Sys.threadSetPriority
      split
      · exact fun _ => id
      · dsimp only
        split
        · refine StayDead.push ?_ _
          exact .of_status fun t => Sys.setThread_field (·.status) t fun _ => rfl
        · exact .of_status fun t => Sys.setThread_field (·.status) t fun _ => rfl
    | setNice n =>
      cases h
      have hset : StayDead s (s.reniced n) := .of_status fun t =>
        Sys.setThread_field (·.status) t fun r => by split <;> rfl
      rw [Sys.threadSetNice_eq]
      split
      · exact hset.push _
      · exact hset
    | sleep n =>
      cases h
      split
      · exact fun _ => id
      · rw [Sys.timerSleep_eq]
        refine hl.leave .blocked (by simp) (fun t => ?_) fun t ht => .inr ht
        rw [Sys.drowse_thread]
        split <;> rfl
    | block =>
      cases h
      rw [Sys.threadBlock_eq]
      refine hl.leave .blocked (by simp) (fun t => ?_) fun t ht => .inr ht
      rw [Sys.park_thread]
      split <;> rfl
    | unblock t =>
      obtain ⟨hparked, rfl⟩ := call_unblock h
      exact (hl.threadUnblock hparked.1).1
    | idle =>
      cases h
      refine hl.leave .blocked (by simp) (fun t => ?_) fun t ht => .inr ht
      rw [Sys.setThread_thread]
      split <;> rfl
    | _ => exact absurd rfl hm

theorem tick_stayDead (hq : Queued s (some s.running) none) : StayDead s s.tick := by
  have hinterrupt : StayDead s s.timerInterrupt := by
    intro t ht
    rw [timerInterrupt_status hq, if_neg]
    · exact ht
    · intro hw
      have hb := ((hq.sleeping t).mp ((List.takeWhile_prefix _).subset hw)).1.1
      rw [hb] at ht
      cases ht
  unfold Sys.tick
  split
  · exact hinterrupt.trans hq.timerInterrupt.lively.threadYield
  · exact hinterrupt

theorem tick_allList (hq : Queued s (some s.running) none) : s.tick.allList = s.allList := by
  obtain ⟨s₁, hs₁, h⟩ := timerInterrupt_eq s
  have hwake : s₁.allList = s.allList :=
    congrArg (·.allList) ((congrArg Sys.timing hs₁).trans (wakeThreads_timing hq))
  exact (congrArg (·.allList) (tick_timing s)).trans (h.allList.trans hwake)

/-! ## Runs -/

/-- Each thread that has not exited is in `all_list`. -/
def AllListed (s : Sys) : Prop := ∀ t, (s.thread t).status ≠ .dying → t ∈ s.allList

theorem AllListed.keep (h : AllListed s) (hdead : StayDead s s') (hl : s'.allList = s.allList) :
    AllListed s' := by
  intro t ht
  rw [hl]
  exact h t fun hd => ht (hdead t hd)

theorem AllListed.step (h : AllListed s) (hq : Queued s (some s.running) none)
    (henabled : a.Enabled s) (hs : a.step s = .ok s') : AllListed s' := by
  cases a with
  | call c =>
    have hcall : s.call c = .ok s' := hs
    have hlist := congrArg (·.allList) (call_timing hcall)
    cases c with
    | create p =>
      intro t ht
      have hlist : s'.allList = s.created :: s.allList := hlist
      rw [hlist]
      by_cases hnew : t = s.created
      · rw [hnew]
        exact List.mem_cons_self
      · refine List.mem_cons_of_mem _ (h t ?_)
        simp only [Sys.call] at hcall
        split at hcall <;> cases hcall
        have hpush : ∀ (s : Sys) (is : List Instr),
            ((s.push is).thread t).status = (s.thread t).status := fun s is =>
          Sys.setThread_field (·.status) t fun _ => rfl
        rw [hpush] at ht
        have hsame : (s.initThread p).thread t = s.thread t := Function.update_of_ne hnew _ _
        rwa [hsame] at ht
    | exit =>
      cases hcall
      have hlist : s.threadExit.allList = s.allList.erase s.running := hlist
      have hidle : s.running ≠ idleThread := fun hi => by
        have := henabled.2.mpr hi
        cases this
      obtain ⟨hdead, hself⟩ := exit_stayDead hq hidle
      intro t ht
      rw [hlist]
      have hne : t ≠ s.running := by
        rintro rfl
        exact ht hself
      exact (List.mem_erase_of_ne hne).mpr (h t fun hd => ht (hdead t hd))
    | sleep n =>
      refine h.keep (call_stayDead hq henabled (by simp) hcall) (hlist.trans ?_)
      rw [Sys.timingAfter]
      split <;> rfl
    | _ => exact h.keep (call_stayDead hq henabled (by simp) hcall) hlist
  | go =>
    obtain ⟨i, rest, hi, hexec⟩ := go_cases henabled hs
    have hpop : s.pop.timing = s.timing := setThread_timing _ _ fun _ => rfl
    have hlist : s'.allList = s.allList :=
      congrArg (·.allList) ((exec_timing hexec).trans hpop)
    have hstart : StayDead s s.pop := .of_status fun t =>
      Sys.setThread_field (·.status) t fun _ => rfl
    refine h.keep (hstart.trans ?_) hlist
    cases hb : i.born with
    | none => exact exec_stayDead (s := s.pop) (hq.pop hi hb) hexec
    | some t =>
      cases i with
      | unblock u p => exact exec_stayDead (s := s.pop) (hq.pop_unblock hi) hexec
      | _ => cases hb
  | tick =>
    cases hs
    exact h.keep (tick_stayDead hq) (tick_allList hq)
  | split =>
    cases split_tick hs
    exact h.keep (tick_stayDead hq) (tick_allList hq)

theorem Reachable.allListed (h : Reachable P s) : AllListed s := by
  induction h with
  | init h =>
    cases h
    intro t ht
    show t ∈ [initialThread, idleThread]
    by_contra hne
    rw [List.mem_cons, List.mem_singleton, not_or] at hne
    refine ht ?_
    show (if t = initialThread then Status.running
      else if t = idleThread then .ready else .dying) = .dying
    rw [if_neg hne.1, if_neg hne.2]
  | step a hr henabled _ hs ih => exact ih.step hr.queued henabled hs

end Pintos.Schedule
