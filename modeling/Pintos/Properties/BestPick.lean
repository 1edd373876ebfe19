import Pintos.Properties.FixedPoint

/-!
# The thread that `schedule` picks

In the MLFQS mode every fourth timer interrupt gives the threads in the ready queue new priorities,
and does not sort the queue. Whether the queue is in order afterwards can be told from the `recent_cpu`,
the `nice` and the priorities of the threads before (`timerInterrupt_sorted`).

* `schedule_picks_best` — while the queue stays in order, `schedule` picks a thread of the highest
  priority.
-/

namespace Pintos.Schedule

open Pintos.Lib

variable {s s' x : Sys} {t u : Tid} {a : Action} {N : Nat}

/-! ## The next update of the priorities -/

namespace Sys

/-- `load_avg` when the next second turns. -/
def nextLoadAvg (s : Sys) : Int :=
  let ready : Int := s.readyList.length + s.wakens.length + if s.running ≠ idleThread then 1 else 0
  (s.loadAvg * 59).tdiv 60 + (ready * fpOne).tdiv 60

/-- `recent_cpu` after the next timer interrupt, of a thread that does not run. -/
def nextRecentCpu (s : Sys) (t : Tid) : Int :=
  if (s.ticks + 1) % timerFreq = 0 then mlfqsRecentCpu s.nextLoadAvg (s.thread t)
  else (s.thread t).recentCpu

end Sys

/-- How far a quarter of `recent_cpu` and twice `nice` put a thread below the highest priority. -/
def penalty (recentCpu nice : Int) : Int :=
  max 0 (min priMax ((recentCpu.tdiv 4 + 2 * nice * Sys.fpOne + 8191) / Sys.fpOne))

/-- The next timer interrupt leaves the ready queue in order. Where it updates the priorities, a
thread that is before another one in the queue then is to have no higher penalty. -/
def Sys.Settled (s : Sys) : Prop :=
  (s.ticks + 1) % 4 = 0 → (s.readyList ++ s.wakens).Pairwise
    (Arranged (fun t => (s.thread t).priority) fun t u =>
      penalty (s.nextRecentCpu t) (s.thread t).nice ≤ penalty (s.nextRecentCpu u) (s.thread u).nice)

instance (s : Sys) : Decidable s.Settled := by
  unfold Sys.Settled
  infer_instance

/-- The nearest integer to 63 less something. -/
theorem fpNearest_sub (y : Int) : Sys.fpNearest (63 * 16384 - y) =
    if y ≤ 63 * 16384 then 63 - (y + 8191) / 16384 else 63 - (y + 8192) / 16384 := by
  have hhalf : Sys.fpOne / 2 = 8192 := rfl
  rw [Sys.fpNearest, hhalf]
  simp only [Sys.fpOne]
  split
  · next hy =>
    rw [if_pos (by omega), Int.tdiv_eq_ediv_of_nonneg (by omega)]
    omega
  · next hy =>
    have hneg : 63 * 16384 - y - 8192 = -(y + 8192 - 63 * 16384) := by omega
    rw [if_neg (by omega), hneg, Int.neg_tdiv, Int.tdiv_eq_ediv_of_nonneg (by omega)]
    omega

theorem mlfqsPriority_eq (t : Thread) :
    Sys.mlfqsPriority t = priMax - penalty t.recentCpu t.nice := by
  have hvalue : priMax * Sys.fpOne - t.recentCpu.tdiv 4 - 2 * t.nice * Sys.fpOne =
      63 * 16384 - (t.recentCpu.tdiv 4 + 2 * t.nice * 16384) := by
    simp only [Sys.fpOne, priMax]
    omega
  simp only [Sys.mlfqsPriority, penalty, hvalue, fpNearest_sub, Sys.fpOne, priMax, priMin]
  generalize t.recentCpu.tdiv 4 + 2 * t.nice * 16384 = y
  by_cases hy : y ≤ 63 * 16384
  · simp only [if_pos hy]
    split
    · omega
    · split <;> omega
  · simp only [if_neg hy]
    split
    · omega
    · split <;> omega

/-! ## The ready queue in the interrupt -/

theorem foldl_threadUnblock_readyList (ts : List Tid) (s : Sys) :
    (ts.foldl Sys.threadUnblock s).readyList =
      ts.foldl (fun list t => listInsertOrdered s.threadCmpPriority t list) s.readyList := by
  induction ts generalizing s with
  | nil => rfl
  | cons t ts ih =>
    have hrank := sameRank_threadUnblock s t
    have hcmp : (s.threadUnblock t).threadCmpPriority = s.threadCmpPriority := by
      simp only [Sys.threadCmpPriority, hrank.priority]
    rw [List.foldl_cons, List.foldl_cons, ih, hcmp]
    rfl

theorem awoken_readyList (hq : Queued s (some s.running) none) : s.awoken.readyList =
    s.wakens.foldl (fun list t => listInsertOrdered s.threadCmpPriority t list) s.readyList :=
  (congrArg (·.readyList) (wakeThreads_eq hq)).trans (foldl_threadUnblock_readyList _ _)

/-- The interrupt moves no thread once it has woken those that are due. -/
theorem timerInterrupt_readyList (hm : s.mlfqs = true) :
    s.timerInterrupt.readyList = s.awoken.readyList := by
  have hcharged : s.charged.readyList = s.awoken.readyList := by
    unfold Sys.charged Sys.mlfqsIncreaseRunningRecentCpu
    split <;> rfl
  have haveraged : s.averaged.readyList = s.charged.readyList := by
    unfold Sys.averaged
    split <;> rfl
  rw [timerInterrupt_mlfqs hm, ← hcharged, ← haveraged]
  split <;> rfl

/-- Threads that are ready after the interrupt are counted, and do not run. -/
theorem awoken_ready (hlist : AllListed s) (hq : Queued s (some s.running) none)
    (ht : t ∈ s.awoken.readyList) : t ∈ s.allList ∧ t ≠ idleThread ∧ t ≠ s.running := by
  have hstatus : ((s.thread t).status = .ready ∨ (s.thread t).status = .blocked) ∧
      t ≠ idleThread := by
    rw [awoken_readyList hq, (foldl_insert_perm _ _ _).mem_iff, List.mem_append] at ht
    rcases ht with ht | ht
    · obtain ⟨hready, hidle⟩ := (hq.ready t).mp ht
      exact ⟨.inl hready, hidle⟩
    · have hsleeps := ((hq.sleeping t).mp ((List.takeWhile_prefix _).subset ht)).1
      refine ⟨.inr hsleeps.1, ?_⟩
      rintro rfl
      simp [Sleeps, hq.idle.1] at hsleeps
  refine ⟨hlist t ?_, hstatus.2, ?_⟩
  · rcases hstatus.1 with h | h <;> simp [h]
  · rintro rfl
    simp [hq.status_running] at hstatus

theorem charged_loadAvg (hq : Queued s (some s.running) none) :
    s.charged.mlfqsUpdateLoadAvg.loadAvg = s.nextLoadAvg := by
  have hready : Machine.ready s.charged =
      s.readyList.length + s.wakens.length + if s.running ≠ idleThread then 1 else 0 := by
    have hlength := (foldl_insert_perm s.threadCmpPriority s.readyList s.wakens).length_eq
    have hrunning : s.awoken.running = s.running := wakeThreads_running _ _
    rw [ready_charged, Machine.ready, awoken_readyList hq, hlength, List.length_append, hrunning]
    omega
  have hload : s.charged.mlfqsUpdateLoadAvg.loadAvg = (s.charged.loadAvg * 59).tdiv 60 +
      (Machine.ready s.charged * Sys.fpOne).tdiv 60 := rfl
  rw [hload, hready, (charged_eq hq).1]
  rfl

theorem averaged_thread (hlist : AllListed s) (hq : Queued s (some s.running) none)
    (ht : t ∈ s.awoken.readyList) : (s.averaged.thread t).nice = (s.thread t).nice ∧
      (s.averaged.thread t).recentCpu = s.nextRecentCpu t := by
  obtain ⟨hin, hidle, hne⟩ := awoken_ready hlist hq ht
  obtain ⟨hnice, hrecent⟩ := charged_thread hq t
  rw [if_neg fun h => hne h.1, Int.add_zero] at hrecent
  obtain ⟨-, hall, hticks⟩ := charged_eq hq
  unfold Sys.averaged Sys.nextRecentCpu
  rw [hticks]
  split
  · rw [charged_loadAvg hq, Sys.threadForeach_thread, if_pos ⟨hall ▸ hin, hidle⟩]
    refine ⟨hnice, ?_⟩
    show Sys.mlfqsRecentCpu s.nextLoadAvg (s.charged.thread t) = _
    rw [Sys.mlfqsRecentCpu, Sys.mlfqsRecentCpu, hnice, hrecent]
  · exact ⟨hnice, hrecent⟩

theorem averaged_priority (t : Tid) : (s.averaged.thread t).priority = (s.thread t).priority := by
  have hawoken : (s.awoken.thread t).priority = (s.thread t).priority :=
    (sameRank_wakeThreads s.waitingThreads s.ticked).priority t
  have hcharged : (s.charged.thread t).priority = (s.awoken.thread t).priority := by
    unfold Sys.charged Sys.mlfqsIncreaseRunningRecentCpu
    split
    · exact Sys.setThread_field (·.priority) t fun _ => rfl
    · rfl
  rw [← hawoken, ← hcharged]
  unfold Sys.averaged
  split
  · rw [Sys.threadForeach_thread]
    split <;> rfl
  · rfl

/-- The order of the ready queue after a timer interrupt. -/
theorem timerInterrupt_sorted (hs : s.Sorted) (hm : s.mlfqs = true) (hlist : AllListed s)
    (hq : Queued s (some s.running) none) : s.timerInterrupt.Sorted ↔ s.Settled := by
  have hticks : s.averaged.ticks = s.ticks + 1 := by
    rw [← (charged_eq hq).2.2]
    unfold Sys.averaged
    split <;> rfl
  have hall : s.averaged.allList = s.allList := by
    rw [← (charged_eq hq).2.1]
    unfold Sys.averaged
    split <;> rfl
  rw [Sys.Sorted, timerInterrupt_readyList hm, Sys.Settled]
  by_cases hturn : (s.ticks + 1) % 4 = 0
  · rw [iff_true_intro hturn, true_imp_iff, ← pairwise_foldl_insert hs]
    have hpriority : ∀ t ∈ s.awoken.readyList, (s.timerInterrupt.thread t).priority =
        priMax - penalty (s.nextRecentCpu t) (s.thread t).nice := by
      intro t ht
      obtain ⟨hin, hidle, -⟩ := awoken_ready hlist hq ht
      obtain ⟨hnice, hrecent⟩ := averaged_thread hlist hq ht
      rw [timerInterrupt_mlfqs hm, hticks, if_pos hturn, Sys.threadForeach_thread,
        if_pos ⟨hall.symm ▸ hin, hidle⟩, ← hnice, ← hrecent]
      exact mlfqsPriority_eq _
    refine (List.Pairwise.iff_of_mem fun {t u} ht hu => ?_).trans
      (iff_of_eq (congrArg (List.Pairwise _) (awoken_readyList hq)))
    show (s.timerInterrupt.thread u).priority ≤ (s.timerInterrupt.thread t).priority ↔ _
    rw [hpriority t ht, hpriority u hu]
    omega
  · refine iff_of_true ?_ fun h => absurd h hturn
    have hawoken : s.awoken.Sorted := Sys.Sorted.wakeThreads (s := s.ticked) hs _
    refine Decreasing.congr hawoken fun t _ => ?_
    rw [timerInterrupt_mlfqs hm, hticks, if_neg hturn, averaged_priority]
    exact ((sameRank_wakeThreads s.waitingThreads s.ticked).priority t).symm

/-! ## Runs -/

/-- The ready queue stays in order, and no operator overflows: the machine gives the same as exact
arithmetic. -/
def KeepsOrder (s : Sys) (a : Action) : Prop :=
  match a with
  | .call (.setNice nice) => Machine.threadSetNice s nice = some (s.threadSetNice nice)
  | .tick => s.Settled ∧ Machine.timerInterrupt s = some s.timerInterrupt
  | .split => s.Settled ∧ Machine.timerInterrupt s = some s.timerInterrupt
  | _ => True

theorem sorted_tick (hs : s.timerInterrupt.Sorted) : s.tick.Sorted := by
  unfold Sys.tick
  split
  · exact hs.offered.schedule.1
  · exact hs

theorem sorted_step (hs : s.Sorted) (hn : NoDonation s) (hm : s.mlfqs = true)
    (hlist : AllListed s) (hq : Queued s (some s.running) none) (hcond : KeepsOrder s a)
    (henabled : a.Enabled s) (h : a.step s = .ok s') :
    s'.Sorted ∧ ∀ x, a.picks s = some x → x.Sorted := by
  cases a with
  | call c => exact sorted_call hs hm hq h
  | go =>
    obtain ⟨i, rest, hi, hexec⟩ := go_cases henabled h
    have hdon : ∀ l, i ≠ .donate l := by
      rintro l rfl
      refine hn s.running l ?_
      show _ ∈ s.current
      rw [hi]
      exact List.mem_cons_self
    obtain ⟨hs', hpicks⟩ := sorted_exec (hs.same (sameRank_pop s) rfl) hm hdon hexec
    refine ⟨hs', fun x hx => hpicks x ?_⟩
    rw [Action.picks, hi] at hx
    exact hx
  | tick =>
    cases h
    have hinterrupt := (timerInterrupt_sorted hs hm hlist hq).mpr hcond.1
    refine ⟨sorted_tick hinterrupt, fun x hx => ?_⟩
    simp only [Action.picks] at hx
    split at hx <;> cases hx
    exact hinterrupt.offered
  | split =>
    cases split_tick h
    have hinterrupt := (timerInterrupt_sorted hs hm hlist hq).mpr hcond.1
    refine ⟨sorted_tick hinterrupt, fun x hx => ?_⟩
    simp only [Action.picks] at hx
    split at hx <;> cases hx
    exact hinterrupt.offered

theorem Reachable.sorted (h : Reachable KeepsOrder s) (hm : s.mlfqs = true) :
    s.Sorted ∧ NoDonation s := by
  induction h with
  | init h =>
    cases h
    exact ⟨.nil, fun t l ht => by cases ht⟩
  | step a hr henabled hcond hs ih =>
    have hm' := (step_fixed henabled hs).1.symm.trans hm
    obtain ⟨hsorted, hn⟩ := ih hm'
    exact ⟨(sorted_step hsorted hn hm' hr.allListed hr.queued hcond henabled hs).1,
      hn.step hm' hr.queued henabled hs⟩

/-- The thread that `next_thread_to_run` takes from a ready queue that is not empty has a priority
as high as each thread in it. -/
def PicksBest (x : Sys) : Prop :=
  x.readyList ≠ [] →
    ∀ t ∈ x.readyList, (x.thread t).priority ≤ (x.thread x.nextThreadToRun.1).priority

theorem Sys.Sorted.picksBest (hs : x.Sorted) : PicksBest x := by
  intro _ t ht
  rw [Sys.Sorted] at hs
  rw [Sys.nextThreadToRun]
  cases hl : x.readyList with
  | nil =>
    rw [hl] at ht
    cases ht
  | cons v rest =>
    rw [hl] at ht hs
    rcases List.mem_cons.mp ht with rfl | ht
    · exact Int.le_refl _
    · exact (List.pairwise_cons.mp hs).1 t ht

/-- In the MLFQS mode, in a run in which no update of the priorities disturbs the order of the ready
queue, `schedule` picks a thread of the highest priority wherever it is called. -/
theorem schedule_picks_best (h : Reachable KeepsOrder s) (hm : s.mlfqs = true)
    (henabled : a.Enabled s) (hcond : KeepsOrder s a) (hx : a.picks s = some x) : PicksBest x := by
  obtain ⟨hs, hn⟩ := h.sorted hm
  have hstep := sorted_step hs hn hm h.allListed h.queued hcond henabled (picks_step henabled hx)
  exact (hstep.2 x hx).picksBest

/-- The main thread of priority 63 makes a thread that lowers its priority to 53, and then one of
priority 40. The next update of the priorities gives the second 63, but it stays behind the first:
the yield at the end of the time slice picks a thread of priority 62. -/
theorem schedule_picks_less : ¬ ∀ (s : Sys) (a : Action) (x : Sys),
    Reachable (fun s _ => s.mlfqs = true) s → a.Enabled s → a.picks s = some x → PicksBest x := by
  intro hall
  have hboot := Reachable.init (P := fun s _ => s.mlfqs = true)
    (.intro true (fun _ => 0) (fun _ => 0) (fun _ => 0) 0 0 63 0 0)
  obtain ⟨s, hs, htest⟩ := hboot.runs_any
    [Call.run (.create 63) 8, Call.run .yield 0, Call.run (.setNice 5) 1, Call.run (.create 40) 8,
      [.tick, .tick, .tick]].flatten
    (fun s => decide (Action.tick.Enabled s) && (Action.tick.picks s).any fun (x : Sys) =>
      decide (x.readyList = [0, 2, 3]) && decide ((x.thread 0).priority < (x.thread 3).priority))
    (by decide +kernel)
  rw [Bool.and_eq_true] at htest
  obtain ⟨henabled, htest⟩ := htest
  cases hx : Action.tick.picks s with
  | none =>
    rw [hx] at htest
    cases htest
  | some x =>
    rw [hx, Option.any_some, Bool.and_eq_true] at htest
    have hready : x.readyList = [0, 2, 3] := of_decide_eq_true htest.1
    have hlt := of_decide_eq_true htest.2
    have hbest := hall s .tick x hs (of_decide_eq_true henabled) hx (by rw [hready]; simp) 3
      (by rw [hready]; simp)
    rw [Sys.nextThreadToRun, hready] at hbest
    exact Int.not_le.mpr hlt hbest

/-! ## Runs without overflow -/

instance (s : Sys) (a : Action) : Decidable (Loaded N s a) := by
  unfold Loaded
  split <;> infer_instance

/-- With up to 1300 threads nothing overflows, so that only the order of the queue matters. -/
theorem Counting.keepsOrder (h : Counting N s) (hN : N ≤ 1300) (hload : Loaded N s a)
    (hsettled : a.interrupts = true → s.Settled) : KeepsOrder s a := by
  have hrange := mlfqs_in_range hN h
  cases a with
  | call c =>
    cases c with
    | setNice n => exact hrange.setNice n hload.1 hload.2
    | _ => trivial
  | go => trivial
  | tick => exact ⟨hsettled rfl, hrange.interrupt hload⟩
  | split => exact ⟨hsettled rfl, hrange.interrupt hload⟩

/-- A given run through which nothing overflows. -/
theorem Counting.runs {as : List Action} (h : Counting N s) (hs : Reachable KeepsOrder s)
    (hN : N ≤ 1300) (hr : s.runs (fun s a =>
      Loaded N s a ∧ (a.interrupts = true → s.Settled)) as = some s') :
    Counting N s' ∧ Reachable KeepsOrder s' := by
  induction as generalizing s with
  | nil =>
    cases hr
    exact ⟨h, hs⟩
  | cons a as ih =>
    rw [Sys.runs] at hr
    split at hr
    · next hcond =>
      obtain ⟨henabled, hload, hsettled⟩ := hcond
      split at hr
      · next s₁ hstep =>
        exact ih (h.step a henabled hload hstep)
          (hs.step a henabled (h.keepsOrder hN hload hsettled) hstep) hr
      · cases hr
    · cases hr

/-- The main thread of priority 63 makes a thread that lowers its priority to 53, and then two of
priority 62 and 61. The update gives these 63 and the main thread 62, and the first of them runs next. -/
theorem schedule_picks_best_update : ∃ s x : Sys, s.readyList = [3, 4, 2] ∧
    Action.tick.picks s = some x ∧ x.readyList = [3, 4, 0, 2] ∧ PicksBest x := by
  have hboot := Counting.init (N := 1300) (fun _ => 0) (fun _ => 0) (fun _ => 0) 0 0 63
  have hrun : ((Sys.init true (fun _ => 0) (fun _ => 0) (fun _ => 0) 0 0 63 0 0).runs
      (fun s a => Loaded 1300 s a ∧ (a.interrupts = true → s.Settled))
      [Call.run (.create 63) 8, Call.run .yield 0, Call.run (.setNice 5) 1, Call.run (.create 62) 8,
        Call.run (.create 61) 8, [.tick, .tick, .tick]].flatten).any (fun s =>
      decide (Action.tick.Enabled s ∧ Loaded 1300 s .tick ∧ s.Settled) &&
        decide (s.mlfqs = true ∧ s.readyList = [3, 4, 2]) &&
        (Action.tick.picks s).any fun x => decide (x.readyList = [3, 4, 0, 2])) = true := by
    decide +kernel
  obtain ⟨s, hs, htest⟩ := (Option.any_eq_true _ _).mp hrun
  simp only [Bool.and_eq_true, decide_eq_true_eq] at htest
  obtain ⟨⟨⟨henabled, hload, hsettled⟩, hm, hready⟩, hpick⟩ := htest
  obtain ⟨x, hx, hqueue⟩ := (Option.any_eq_true _ _).mp hpick
  obtain ⟨hcounting, hreach⟩ := hboot.runs (.init (.intro ..)) (Nat.le_refl _) hs
  have hcond : KeepsOrder s .tick := hcounting.keepsOrder (Nat.le_refl _) hload fun _ => hsettled
  exact ⟨s, x, hready, hx, of_decide_eq_true hqueue,
    schedule_picks_best hreach hm henabled hcond hx⟩

end Pintos.Schedule
