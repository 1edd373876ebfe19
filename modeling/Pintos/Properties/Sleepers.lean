import Pintos.Properties.Effects
import Pintos.Lib.MergeSort

/-!
# Sleeping threads

`timer_sleep` puts a thread into `waiting_threads` by the tick at which it is due, and the timer
interrupt wakes threads from the front of this list until it comes to one that is not due. A run is
followed together with what has happened in it (`Event`): the calls of `timer_sleep` that block, and
the threads that the interrupt wakes.

The invariant is `Asleep`: the list is in order, nobody in it is overdue, and those that are due at
one tick stand in the order in which they called `timer_sleep`.

* `sleepers_wake_on_time` — the interrupt wakes a thread at the tick at which it is due.

`ticks` does not overflow here.
-/

namespace Pintos.Schedule

open Pintos.Lib

variable {P : Sys → Action → Prop} {s s' : Sys} {t u : Tid} {i : Instr} {a : Action} {n due : Int}

/-! ## What happens -/

/-- What happens to a thread that calls `timer_sleep`. -/
inductive Event where
  /-- It blocks until the tick `due`. -/
  | sleeps (t : Tid) (due : Int)
  /-- The interrupt that sets `ticks` to `tick` wakes it. -/
  | wakes (t : Tid) (tick : Int)

/-- The threads that the next timer interrupt wakes, in this order (`wakeThreads_eq`). -/
def Sys.wakens (s : Sys) : List Tid :=
  s.waitingThreads.takeWhile fun t =>
    (s.thread t).ticksWake ≤ s.ticks + 1 ∧ (s.thread t).status = .blocked

/-- What happens in a step. -/
def Action.events (s : Sys) : Action → List Event
  | .call (.sleep n) => if n ≤ 0 then [] else [.sleeps s.running (s.ticks + n)]
  | .tick => s.wakens.map (.wakes · (s.ticks + 1))
  | .split => s.wakens.map (.wakes · (s.ticks + 1))
  | _ => []

/-- The states of all runs, with what has happened so far. -/
inductive Logged : Sys → List Event → Prop where
  | init {s : Sys} (h : Booted s) : Logged s []
  | step {s s' : Sys} {log : List Event} (a : Action) (h : Logged s log) (enabled : a.Enabled s)
      (hs : a.step s = .ok s') : Logged s' (log ++ a.events s)

/-- The threads that have called `timer_sleep` to sleep until a tick, in this order. -/
def sleepersUntil (due : Int) (log : List Event) : List Tid :=
  log.filterMap fun
    | .sleeps t d => if d = due then some t else none
    | .wakes _ _ => none

/-- The threads that the interrupt has woken that has set `ticks` to a tick, in this order. -/
def wokenAt (tick : Int) (log : List Event) : List Tid :=
  log.filterMap fun
    | .sleeps _ _ => none
    | .wakes t d => if d = tick then some t else none

/-- Threads wake on time. -/
structure OnTime (s : Sys) (log : List Event) : Prop where
  /-- A call with nothing to wait for returns. -/
  returns : ∀ n ≤ 0, s.call (.sleep n) = .ok s
  /-- A thread that sleeps until a later tick is blocked. -/
  blocked : ∀ t due, .sleeps t due ∈ log → s.ticks < due → (s.thread t).status = .blocked
  /-- An interrupt has woken those that were due at its tick, in the order of their calls. -/
  wakes : ∀ tick, wokenAt tick log = if tick ≤ s.ticks then sleepersUntil tick log else []
  /-- No thread has called twice to sleep until one tick. -/
  once : ∀ due, (sleepersUntil due log).Nodup
  /-- The next interrupt calls `thread_unblock` for the threads that it wakes, one by one. -/
  interrupt : Sys.wakeThreads s.waitingThreads
      { s with ticks := s.ticks + 1, threadTicks := s.threadTicks + 1 } =
    s.wakens.foldl Sys.threadUnblock
      { s with
        ticks := s.ticks + 1
        threadTicks := s.threadTicks + 1
        waitingThreads := s.waitingThreads.drop s.wakens.length }
  /-- The interrupt makes these ready, and no other thread. At the end of a time slice `schedule` may
  run one of them at once. -/
  readied : ∀ t, (s.timerInterrupt.thread t).status =
    if t ∈ s.wakens then .ready else (s.thread t).status

/-! ## What leaves the sleeping threads alone -/

/-- The sleeping threads are left alone. -/
structure Undisturbed (s s' : Sys) : Prop where
  ticks : s'.ticks = s.ticks
  waitingThreads : s'.waitingThreads = s.waitingThreads
  ticksWake : ∀ t ∈ s.waitingThreads, (s'.thread t).ticksWake = (s.thread t).ticksWake

theorem Undisturbed.of_timing (hw : s'.timing.waitingThreads = s.waitingThreads)
    (ht : s'.timing.ticks = s.ticks) (hthread : ∀ t ∈ s.waitingThreads,
      (s'.timing.thread t).ticksWake = (s.thread t).ticksWake) : Undisturbed s s' :=
  ⟨ht, hw, hthread⟩

theorem call_undisturbed (hq : Queued s (some s.running) none) {c : Call} (hc : ∀ n, c ≠ .sleep n)
    (h : s.call c = .ok s') : Undisturbed s s' := by
  have htiming := call_timing h
  cases c with
  | sleep n => exact absurd rfl (hc n)
  | create p =>
    refine .of_timing (by rw [htiming]; rfl) (by rw [htiming]; rfl) fun t ht => ?_
    have hne : t ≠ s.created := by
      rintro rfl
      have hdead := (hq.fresh s.created (Nat.le_refl _)).1
      rw [((hq.sleeping _).mp ht).1.1] at hdead
      cases hdead
    rw [htiming]
    show (Function.update s.timing.thread s.created _ t).ticksWake = _
    rw [Function.update_of_ne hne]
    rfl
  | setNice n =>
    refine .of_timing (by rw [htiming]; rfl) (by rw [htiming]; rfl) fun t _ => ?_
    rw [htiming]
    show (Function.update s.timing.thread s.running _ t).ticksWake = _
    rw [Function.update_apply]
    split
    · next ht =>
      rw [ht]
      rfl
    · rfl
  | _ => exact .of_timing (by rw [htiming]; rfl) (by rw [htiming]; rfl) fun t _ => by rw [htiming]; rfl

/-! ## What the interrupt does -/

/-- `wake_threads` unblocks the threads of a first part of the list. -/
theorem wakeThreads_foldl {ts : List Tid} {p : Tid → Bool} (hw : s.waitingThreads = ts)
    (hn : ts.Nodup) (hp : ∀ t ∈ ts, p t = true ↔
      (s.thread t).ticksWake ≤ s.ticks ∧ (s.thread t).status = .blocked) :
    Sys.wakeThreads ts s = (ts.takeWhile p).foldl Sys.threadUnblock
      { s with waitingThreads := ts.dropWhile p } := by
  induction ts generalizing s with
  | nil =>
    show s = { s with waitingThreads := [] }
    rw [← hw]
  | cons t rest ih =>
    obtain ⟨ht, hrest⟩ := List.nodup_cons.mp hn
    have hpt := hp t List.mem_cons_self
    rw [Sys.wakeThreads, List.takeWhile_cons, List.dropWhile_cons]
    split
    · next hdue =>
      rw [if_pos (hpt.mpr hdue), if_pos (hpt.mpr hdue), List.foldl_cons]
      refine ih rfl hrest fun u hu => ?_
      have hne : u ≠ t := fun h => ht (h ▸ hu)
      rw [hp u (List.mem_cons_of_mem _ hu), Sys.threadUnblock, Sys.setThread_thread, if_neg hne]
      rfl
    · next hdue =>
      rw [if_neg fun h => hdue (hpt.mp h), if_neg fun h => hdue (hpt.mp h), ← hw]
      rfl

theorem foldl_threadUnblock_timing (ts : List Tid) (s : Sys) :
    (ts.foldl Sys.threadUnblock s).timing = s.timing := by
  induction ts generalizing s with
  | nil => rfl
  | cons t ts ih => rw [List.foldl_cons, ih, threadUnblock_timing]

theorem foldl_threadUnblock_status (ts : List Tid) (s : Sys) (u : Tid) :
    ((ts.foldl Sys.threadUnblock s).thread u).status =
      if u ∈ ts then .ready else (s.thread u).status := by
  induction ts generalizing s with
  | nil => rfl
  | cons t ts ih =>
    rw [List.foldl_cons, ih, Sys.threadUnblock, Sys.setThread_thread]
    by_cases hts : u ∈ ts
    · rw [if_pos hts, if_pos (List.mem_cons_of_mem _ hts)]
    · by_cases hu : u = t <;> simp [hts, hu, Sys.insertReady]

/-- The state when the interrupt has counted the tick. -/
def Sys.ticked (s : Sys) : Sys :=
  { s with ticks := s.ticks + 1, threadTicks := s.threadTicks + 1 }

/-- What `wake_threads` does in the interrupt. -/
theorem wakeThreads_eq (hq : Queued s (some s.running) none) :
    Sys.wakeThreads s.waitingThreads s.ticked = s.wakens.foldl Sys.threadUnblock
      { s.ticked with waitingThreads := s.waitingThreads.drop s.wakens.length } := by
  have hdrop : s.waitingThreads.drop s.wakens.length = s.waitingThreads.dropWhile fun t =>
      (s.thread t).ticksWake ≤ s.ticks + 1 ∧ (s.thread t).status = .blocked := by
    have hsplit := (List.takeWhile_append_dropWhile (l := s.waitingThreads) (p := fun t =>
      (s.thread t).ticksWake ≤ s.ticks + 1 ∧ (s.thread t).status = .blocked)).symm
    nth_rewrite 1 [hsplit]
    exact List.drop_left
  rw [hdrop]
  exact wakeThreads_foldl (s := s.ticked) rfl hq.sleepingOnce fun t _ => by simp [Sys.ticked]

theorem wakeThreads_timing (hq : Queued s (some s.running) none) :
    (Sys.wakeThreads s.waitingThreads s.ticked).timing =
      { s.timing with
        waitingThreads := s.waitingThreads.drop s.wakens.length
        ticks := s.ticks + 1 } := by
  rw [wakeThreads_eq hq, foldl_threadUnblock_timing]
  rfl

theorem timerInterrupt_status (hq : Queued s (some s.running) none) (t : Tid) :
    (s.timerInterrupt.thread t).status = if t ∈ s.wakens then .ready else (s.thread t).status := by
  obtain ⟨s₁, hs₁, h⟩ := timerInterrupt_eq s
  rw [h.status, hs₁]
  refine (congrArg (fun s : Sys => (s.thread t).status) (wakeThreads_eq hq)).trans ?_
  exact foldl_threadUnblock_status _ _ _

theorem tick_timing (s : Sys) : s.tick.timing = s.timerInterrupt.timing := by
  unfold Sys.tick
  split
  · exact threadYield_timing _
  · rfl

/-- What `wake_threads` leaves is there when the interrupt is over. -/
theorem tick_naps (hq : Queued s (some s.running) none) :
    s.tick.waitingThreads = s.waitingThreads.drop s.wakens.length ∧ s.tick.ticks = s.ticks + 1 ∧
      ∀ t, (s.tick.thread t).ticksWake = (s.thread t).ticksWake := by
  obtain ⟨s₁, hs₁, h⟩ := timerInterrupt_eq s
  have hwake : s₁.timing = _ := (congrArg Sys.timing hs₁).trans (wakeThreads_timing hq)
  have htick := tick_timing s
  refine ⟨?_, ?_, fun t => ?_⟩
  · exact (congrArg (·.waitingThreads) htick).trans
      (h.waitingThreads.trans (congrArg (·.waitingThreads) hwake))
  · exact (congrArg (·.ticks) htick).trans (h.ticks.trans (congrArg (·.ticks) hwake))
  · obtain ⟨p, r, ht⟩ := h.thread t
    have h₁ : (s₁.thread t).ticksWake = (s.thread t).ticksWake :=
      congrArg (fun x : Timing => (x.thread t).ticksWake) hwake
    have h₂ : (s.tick.thread t).ticksWake = (s.timerInterrupt.thread t).ticksWake :=
      congrArg (fun x : Timing => (x.thread t).ticksWake) htick
    rw [h₂, ht, ← h₁]

/-- In a list in order, the elements up to a least key are those of this key. -/
theorem takeWhile_least {α : Type} (key : α → Int) {m : Int} {p : α → Bool} {list : List α}
    (hs : list.Pairwise fun a b => key a ≤ key b) (hm : ∀ a ∈ list, m ≤ key a)
    (hp : ∀ a ∈ list, p a = true ↔ key a ≤ m) :
    list.takeWhile p = list.filter (key · = m) := by
  induction hs with
  | nil => rfl
  | @cons a list ha _ ih =>
    have hma := hm a List.mem_cons_self
    have hpa := hp a List.mem_cons_self
    rw [List.takeWhile_cons, List.filter_cons]
    by_cases hle : key a ≤ m
    · rw [if_pos (hpa.mpr hle), if_pos (decide_eq_true (Int.le_antisymm hle hma))]
      refine congrArg (a :: ·) (ih (fun b hb => hm b (List.mem_cons_of_mem _ hb)) fun b hb => ?_)
      exact hp b (List.mem_cons_of_mem _ hb)
    · have hnil : list.filter (key · = m) = [] := by
        rw [List.filter_eq_nil_iff]
        intro b hb
        have hab := ha b hb
        simp only [decide_eq_true_eq]
        omega
      have hne : key a ≠ m := fun h => hle (Int.le_of_eq h)
      rw [if_neg fun h => hle (hpa.mp h), if_neg (by simpa using hne), hnil]

/-! ## The invariant -/

/-- The sleeping threads, and those that have slept. -/
structure Asleep (s : Sys) (log : List Event) : Prop where
  ordered : s.waitingThreads.Pairwise fun t u => (s.thread t).ticksWake ≤ (s.thread u).ticksWake
  later : ∀ t ∈ s.waitingThreads, s.ticks < (s.thread t).ticksWake
  due : ∀ due, s.ticks < due →
    s.waitingThreads.filter (fun t => (s.thread t).ticksWake = due) = sleepersUntil due log
  past : ∀ tick, wokenAt tick log = if tick ≤ s.ticks then sleepersUntil tick log else []
  once : ∀ due ≤ s.ticks, (sleepersUntil due log).Nodup

variable {log : List Event}

theorem Asleep.undisturbed (h : Asleep s log) (hs : Undisturbed s s') : Asleep s' log := by
  have hmem : ∀ t, t ∈ s'.waitingThreads ↔ t ∈ s.waitingThreads := fun t => by
    rw [hs.waitingThreads]
  refine ⟨?_, fun t ht => ?_, fun due hdue => ?_, fun tick => ?_, fun due hdue => ?_⟩
  · rw [hs.waitingThreads]
    exact h.ordered.imp_of_mem fun ht hu hle => by rwa [hs.ticksWake _ ht, hs.ticksWake _ hu]
  · rw [hs.ticks, hs.ticksWake t ((hmem t).mp ht)]
    exact h.later t ((hmem t).mp ht)
  · rw [hs.ticks] at hdue
    rw [hs.waitingThreads, ← h.due due hdue]
    exact List.filter_congr fun t ht => by rw [hs.ticksWake t ht]
  · rw [hs.ticks]
    exact h.past tick
  · rw [hs.ticks] at hdue
    exact h.once due hdue

theorem sleepersUntil_append (due : Int) (log log' : List Event) :
    sleepersUntil due (log ++ log') = sleepersUntil due log ++ sleepersUntil due log' :=
  List.filterMap_append

theorem wokenAt_append (tick : Int) (log log' : List Event) :
    wokenAt tick (log ++ log') = wokenAt tick log ++ wokenAt tick log' :=
  List.filterMap_append

theorem sleepersUntil_sleeps (due d : Int) (t : Tid) :
    sleepersUntil due [.sleeps t d] = if d = due then [t] else [] := by
  rw [sleepersUntil, List.filterMap_cons, List.filterMap_nil]
  by_cases h : d = due <;> simp [h]

theorem sleepersUntil_wakes (due tick : Int) (ts : List Tid) :
    sleepersUntil due (ts.map (.wakes · tick)) = [] := by
  rw [sleepersUntil, List.filterMap_map, List.filterMap_eq_nil_iff]
  exact fun _ _ => rfl

theorem wokenAt_sleeps (tick due : Int) (t : Tid) : wokenAt tick [.sleeps t due] = [] := rfl

theorem wokenAt_wakes (tick tick' : Int) (ts : List Tid) :
    wokenAt tick (ts.map (.wakes · tick')) = if tick' = tick then ts else [] := by
  rw [wokenAt, List.filterMap_map]
  split
  · next h =>
    exact (List.filterMap_congr (g := some) fun t _ => if_pos h).trans List.filterMap_some
  · next h => exact List.filterMap_eq_nil_iff.mpr fun t _ => if_neg h

theorem Queued.not_sleeping (hq : Queued s (some s.running) none) :
    s.running ∉ s.waitingThreads := fun h => by
  have hb := ((hq.sleeping _).mp h).1.1
  rw [hq.status_running] at hb
  cases hb

/-- A thread goes to sleep. -/
theorem Asleep.sleep (h : Asleep s log) (hq : Queued s (some s.running) none) (hn : 0 < n) :
    Asleep (s.timerSleep n) (log ++ [.sleeps s.running (s.ticks + n)]) := by
  have hcall : s.call (.sleep n) = .ok (s.timerSleep n) := by rw [Sys.call, if_neg (by omega)]
  have htiming := call_timing hcall
  rw [Sys.timingAfter, if_neg (by omega)] at htiming
  have hwaiting : (s.timerSleep n).waitingThreads = listInsertOrdered
      (s.alarmed n).timerCmpWakingTime s.running s.waitingThreads :=
    congrArg (·.waitingThreads) htiming
  have hticks : (s.timerSleep n).ticks = s.ticks := congrArg (·.ticks) htiming
  have hwake : ∀ t, ((s.timerSleep n).thread t).ticksWake = ((s.alarmed n).thread t).ticksWake :=
    fun t => congrArg (fun x : Timing => (x.thread t).ticksWake) htiming
  have hself : ((s.alarmed n).thread s.running).ticksWake = s.ticks + n := by
    rw [Sys.alarmed, Sys.setThread_thread, if_pos rfl]
  have hother : ∀ t ∈ s.waitingThreads,
      ((s.alarmed n).thread t).ticksWake = (s.thread t).ticksWake := by
    intro t ht
    have hne : t ≠ s.running := fun hr => hq.not_sleeping (hr ▸ ht)
    rw [Sys.alarmed, Sys.setThread_thread, if_neg hne]
  -- The last to come due come first in a list that is `Decreasing`.
  obtain ⟨key, hkey⟩ : ∃ key : Tid → Int, ∀ t, key t = -((s.alarmed n).thread t).ticksWake :=
    ⟨_, fun _ => rfl⟩
  have hless : (s.alarmed n).timerCmpWakingTime = decreasing key := by
    funext t u
    rw [Sys.timerCmpWakingTime, decreasing, hkey, hkey]
    exact decide_eq_decide.mpr (by omega)
  have hdecreasing : Decreasing key s.waitingThreads := h.ordered.imp_of_mem fun ht hu hle => by
    rw [hkey, hkey, hother _ ht, hother _ hu]
    omega
  rw [hless] at hwaiting
  refine ⟨?_, fun t ht => ?_, fun due hdue => ?_, fun tick => ?_, fun due hdue => ?_⟩
  · rw [hwaiting]
    refine hdecreasing.insert.imp fun {t u} hle => ?_
    rw [hkey, hkey] at hle
    rw [hwake, hwake]
    omega
  · rw [hwaiting, mem_listInsertOrdered] at ht
    rw [hticks, hwake]
    rcases ht with rfl | ht
    · rw [hself]
      omega
    · rw [hother t ht]
      exact h.later t ht
  · rw [hticks] at hdue
    have halike := hdecreasing.alike_insert s.running (-due)
    have hfilter : ∀ ts : List Tid, ts.filter (fun t => ((s.timerSleep n).thread t).ticksWake = due) =
        ts.filter (key · = -due) := fun ts => List.filter_congr fun t _ => by
      rw [hwake, hkey]
      exact decide_eq_decide.mpr (by omega)
    rw [hwaiting, hfilter, halike, List.filter_append, sleepersUntil_append, ← h.due due hdue,
      ← hfilter, ← hfilter]
    congr 1
    · exact List.filter_congr fun t ht => by rw [hwake, hother t ht]
    · rw [List.filter_cons, List.filter_nil, hwake, hself, sleepersUntil_sleeps]
      by_cases hd : s.ticks + n = due <;> simp [hd]
  · rw [hticks, wokenAt_append, wokenAt_sleeps, List.append_nil, h.past, sleepersUntil_append,
      sleepersUntil_sleeps]
    split
    · next htick => rw [if_neg (by omega), List.append_nil]
    · rfl
  · rw [hticks] at hdue
    rw [sleepersUntil_append, sleepersUntil_sleeps, if_neg (by omega), List.append_nil]
    exact h.once due hdue

/-- The interrupt wakes the threads that are due. -/
theorem Asleep.wakens_eq (h : Asleep s log) (hq : Queued s (some s.running) none) :
    s.wakens = s.waitingThreads.filter fun t => (s.thread t).ticksWake = s.ticks + 1 :=
  takeWhile_least (fun t => (s.thread t).ticksWake) h.ordered
    (fun t ht => h.later t ht) fun t ht => by
      have hb := ((hq.sleeping t).mp ht).1.1
      simp [hb]

theorem waitingThreads_split (s : Sys) :
    s.waitingThreads = s.wakens ++ s.waitingThreads.drop s.wakens.length := by
  have hprefix : s.wakens <+: s.waitingThreads := List.takeWhile_prefix _
  exact (List.prefix_iff_eq_append.mp hprefix).symm

theorem Asleep.tick (h : Asleep s log) (hq : Queued s (some s.running) none) :
    Asleep s.tick (log ++ s.wakens.map (.wakes · (s.ticks + 1))) := by
  obtain ⟨hwaiting, hticks, hwake⟩ := tick_naps hq
  have hsplit := waitingThreads_split s
  have hdue := h.wakens_eq hq
  rw [← hwaiting] at hsplit
  have hsub : s.tick.waitingThreads.Sublist s.waitingThreads := by
    rw [hwaiting]
    exact List.drop_sublist _ _
  have hlater : ∀ t ∈ s.tick.waitingThreads, s.ticks + 1 < (s.thread t).ticksWake := by
    intro t ht
    have hle := h.later t (hsub.subset ht)
    have hne : (s.thread t).ticksWake ≠ s.ticks + 1 := by
      intro heq
      have hw : t ∈ s.wakens := by
        rw [hdue]
        exact List.mem_filter.mpr ⟨hsub.subset ht, decide_eq_true heq⟩
      have hn := hq.sleepingOnce
      rw [hsplit] at hn
      exact List.disjoint_of_nodup_append hn hw ht
    omega
  refine ⟨?_, fun t ht => ?_, fun due hd => ?_, fun tick => ?_, fun due hd => ?_⟩
  · simp only [hwake]
    exact h.ordered.sublist hsub
  · rw [hticks, hwake]
    exact hlater t ht
  · rw [hticks] at hd
    simp only [hwake]
    have hnone : s.wakens.filter (fun t => (s.thread t).ticksWake = due) = [] := by
      rw [hdue, List.filter_eq_nil_iff]
      intro t ht
      have hwt := of_decide_eq_true (List.mem_filter.mp ht).2
      simp only [decide_eq_true_eq]
      omega
    rw [sleepersUntil_append, sleepersUntil_wakes, List.append_nil, ← h.due due (by omega)]
    nth_rewrite 1 [hsplit]
    rw [List.filter_append, hnone, List.nil_append]
  · rw [hticks, wokenAt_append, wokenAt_wakes, sleepersUntil_append, sleepersUntil_wakes,
      List.append_nil, h.past]
    rcases Int.lt_trichotomy tick (s.ticks + 1) with hlt | rfl | hgt
    · rw [if_pos (by omega), if_neg (by omega), if_pos (by omega), List.append_nil]
    · rw [if_neg (by omega), if_pos rfl, if_pos (Int.le_refl _), List.nil_append, hdue]
      exact h.due _ (by omega)
    · rw [if_neg (by omega), if_neg (by omega), if_neg (by omega), List.append_nil]
  · rw [hticks] at hd
    rw [sleepersUntil_append, sleepersUntil_wakes, List.append_nil]
    rcases Int.lt_or_le s.ticks due with hlt | hle
    · rw [← h.due due hlt]
      exact hq.sleepingOnce.filter _
    · exact h.once due hle

theorem Asleep.step (h : Asleep s log) (hq : Queued s (some s.running) none)
    (henabled : a.Enabled s) (hs : a.step s = .ok s') : Asleep s' (log ++ a.events s) := by
  cases a with
  | call c =>
    by_cases hc : ∃ n, c = .sleep n
    · obtain ⟨n, rfl⟩ := hc
      cases hs
      rw [Action.events]
      split
      · rw [List.append_nil]
        exact h
      · exact h.sleep hq (by omega)
    · have hevents : (Action.call c).events s = [] := by
        cases c with
        | sleep n => exact absurd ⟨n, rfl⟩ hc
        | _ => rfl
      rw [hevents, List.append_nil]
      exact h.undisturbed (call_undisturbed hq (fun n hn => hc ⟨n, hn⟩) hs)
  | go =>
    obtain ⟨i, rest, -, hexec⟩ := go_cases henabled hs
    have hevents : Action.go.events s = [] := rfl
    rw [hevents, List.append_nil]
    have hpop : s.pop.timing = s.timing := setThread_timing _ _ fun _ => rfl
    have htiming := (exec_timing hexec).trans hpop
    exact h.undisturbed
      (.of_timing (by rw [htiming]; rfl) (by rw [htiming]; rfl) fun t _ => by rw [htiming]; rfl)
  | tick =>
    cases hs
    exact h.tick hq
  | split =>
    cases split_tick hs
    exact h.tick hq

/-! ## Runs -/

theorem Logged.reachable (h : Logged s log) : Reachable (fun _ _ => True) s := by
  induction h with
  | init h => exact .init h
  | step a _ henabled hs ih => exact .step a ih henabled trivial hs

theorem Logged.asleep (h : Logged s log) : Asleep s log := by
  induction h with
  | init h =>
    cases h
    exact {
      ordered := .nil
      later := fun t ht => by cases ht
      due := fun _ _ => rfl
      past := fun _ => (ite_self _).symm
      once := fun _ _ => .nil }
  | step a hr henabled hs ih => exact ih.step hr.reachable.queued henabled hs

/-- In every run, the timer interrupt wakes each thread at the tick at which it is due. -/
theorem sleepers_wake_on_time (h : Logged s log) : OnTime s log := by
  have hq := h.reachable.queued
  have hasleep := h.asleep
  refine ⟨fun n hn => ?_, fun t due ht hdue => ?_, hasleep.past, fun due => ?_, wakeThreads_eq hq,
    timerInterrupt_status hq⟩
  · rw [Sys.call, if_pos hn]
  · have hmem : t ∈ sleepersUntil due log := List.mem_filterMap.mpr ⟨_, ht, if_pos rfl⟩
    rw [← hasleep.due due hdue] at hmem
    exact ((hq.sleeping t).mp (List.mem_filter.mp hmem).1).1.1
  · rcases Int.lt_or_le s.ticks due with hlt | hle
    · rw [← hasleep.due due hlt]
      exact hq.sleepingOnce.filter _
    · exact hasleep.once due hle

/-- The main thread sleeps for two ticks. -/
theorem sleepers_wake_on_time_main : OnTime
    ((Sys.init false (fun _ => 0) (fun _ => 0) (fun _ => 0) 0 0 0 0 0).timerSleep 2).tick.tick
    [.sleeps 0 2, .wakes 0 2] :=
  sleepers_wake_on_time (.step .tick (.step .tick (.step (.call (.sleep 2)) (.init (.intro ..))
    (by decide) rfl) (by decide) rfl) (by decide) rfl)

end Pintos.Schedule
