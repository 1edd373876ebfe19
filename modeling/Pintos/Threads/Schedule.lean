import Pintos.Lib.List
import Mathlib.Logic.Function.Basic

/-!
# The scheduler

`threads/thread.c`, `threads/synch.c` and `devices/timer.c` of project 1, with the ready queue, the
sleep queue and the timer interrupt, in both modes of the scheduler. There is one processor, and one
thread runs.

What a thread still has to do before it is back in its own code is a list of instructions
(`Thread.todo`). An instruction is a section that runs with interrupts off, or a piece of code that
touches the data of other threads; the timer interrupt may come before any of them unless interrupts
are off. It may also come in the middle of a piece that runs with interrupts on (`Action.split`). That
is as if it had come before, unless the interrupt or the threads that it lets run change what the
piece works on. What becomes of a list that is changed while it is being sorted is not modelled
(`Crash.torn`).
-/

namespace Pintos.Schedule

open Pintos.Lib

/-- A `struct thread *`. Threads are numbered in the order they are created. -/
abbrev Tid : Type := Nat

/-- A `struct condition *`. -/
abbrev CondId : Type := Nat

/-- A `struct lock *`: `tid_lock`, or another. -/
inductive LockId where
  | tid
  | user (lock : Nat)
  deriving DecidableEq

/-- A `struct semaphore *`: that of a lock, the one on the stack of a thread in `cond_wait`, or one
by itself. -/
inductive SemaId where
  | ofLock (lock : LockId)
  | waiter (t : Tid)
  | plain (sema : Nat)
  deriving DecidableEq

/-- `enum thread_status`. -/
inductive Status where
  | running
  | ready
  | blocked
  | dying
  deriving DecidableEq

/-- What is left to do of a function that a thread has called. -/
inductive Instr where
  /-- `lock_acquire`, up to its test of `holder`. -/
  | testHolder (lock : LockId)
  /-- Its assignment to `lock_waiting`. -/
  | setWaiting (lock : LockId)
  /-- `thread_donate_priority`, up to its recursive call. -/
  | donate (lock : LockId)
  /-- `sema_down`. -/
  | down (sema : SemaId)
  /-- The loop of `sema_down` after `thread_block` has returned. Interrupts are off. -/
  | retest (sema : SemaId)
  /-- The end of `lock_acquire`. -/
  | hold (lock : LockId)
  /-- The assignment to `holder` in `lock_try_acquire`. -/
  | setHolder (lock : LockId)
  /-- `thread_remove_lock`. -/
  | removeLock (lock : LockId)
  /-- The assignment to `holder` in `lock_release`. -/
  | clearHolder (lock : LockId)
  /-- `sema_up`. -/
  | up (sema : SemaId)
  /-- `thread_yield`. -/
  | yield
  /-- The end of `timer_sleep` after `thread_block` has returned. Interrupts are off. -/
  | awake
  /-- The end of a caller of `thread_block` after it has returned. Interrupts are off. -/
  | unblocked
  /-- `thread_unblock` on a new thread, in `thread_create`. -/
  | unblock (t : Tid) (priority : Int)
  /-- The end of `thread_create`. -/
  | yieldIfBelow (priority : Int)
  /-- `list_push_back` on the waiters of a condition, in `cond_wait`. -/
  | pushWaiter (cond : CondId)
  /-- `cond_signal`. -/
  | signal (cond : CondId)
  /-- The loop of `cond_broadcast`. -/
  | broadcast (cond : CondId)
  deriving DecidableEq

/-- `struct thread`. -/
structure Thread where
  status : Status
  priority : Int
  basePriority : Int
  /-- The locks held. -/
  locks : List LockId
  lockWaiting : Option LockId
  ticksWake : Int
  nice : Int
  recentCpu : Int
  todo : List Instr

/-- `struct semaphore`. -/
structure Semaphore where
  /-- An `unsigned`. -/
  value : Nat
  waiters : List Tid

/-- `struct lock`, without its semaphore. -/
structure Lock where
  holder : Option Tid
  maxPriority : Int

/-- The state of the kernel. -/
structure Sys where
  /-- `thread_mlfqs`. -/
  mlfqs : Bool
  /-- The lock that goes with a condition. -/
  condLock : CondId → LockId
  created : Nat
  thread : Tid → Thread
  lock : LockId → Lock
  sema : SemaId → Semaphore
  /-- The waiters of a condition, as the threads on whose stacks they are. -/
  cond : CondId → List Tid
  readyList : List Tid
  waitingThreads : List Tid
  /-- `all_list`. Nothing depends on its order. -/
  allList : List Tid
  running : Tid
  ticks : Int
  threadTicks : Nat
  loadAvg : Int

/-- How a step can go wrong. -/
inductive Crash where
  | assertion
  | nullDeref
  /-- `list_remove` on an element that is in no list. -/
  | notLinked
  /-- `thread_unblock` on a thread that is queued elsewhere, is being created or is idle. -/
  | notParked
  /-- An interrupt changes what the interrupted code works on. -/
  | torn
  deriving DecidableEq

/-- The thread that was running when the kernel was entered. -/
abbrev initialThread : Tid := 0

/-- `idle_thread`. -/
abbrev idleThread : Tid := 1

/-- `TIME_SLICE`. -/
abbrev timeSlice : Nat := 4

/-- `TIMER_FREQ`. -/
abbrev timerFreq : Int := 100

/-- `PRI_MIN`. -/
abbrev priMin : Int := 0

/-- `PRI_DEFAULT`. -/
abbrev priDefault : Int := 31

/-- `PRI_MAX`. -/
abbrev priMax : Int := 63

/-- One more than `UINT_MAX`. -/
abbrev uintSize : Nat := 4294967296

namespace Sys

def setThread (s : Sys) (t : Tid) (f : Thread → Thread) : Sys :=
  { s with thread := Function.update s.thread t (f (s.thread t)) }

def setLock (s : Sys) (l : LockId) (f : Lock → Lock) : Sys :=
  { s with lock := Function.update s.lock l (f (s.lock l)) }

def setSema (s : Sys) (k : SemaId) (f : Semaphore → Semaphore) : Sys :=
  { s with sema := Function.update s.sema k (f (s.sema k)) }

def setCond (s : Sys) (c : CondId) (ts : List Tid) : Sys :=
  { s with cond := Function.update s.cond c ts }

/-- The running thread has more to do, before what it had. -/
def push (s : Sys) (is : List Instr) : Sys :=
  s.setThread s.running fun t => { t with todo := is ++ t.todo }

/-- `thread_cmp_priority`. -/
def threadCmpPriority (s : Sys) : Tid → Tid → Bool := decreasing fun t => (s.thread t).priority

/-- `lock_cmp_priority`. -/
def lockCmpPriority (s : Sys) : LockId → LockId → Bool :=
  decreasing fun l => (s.lock l).maxPriority

/-- `timer_cmp_waking_time`. -/
def timerCmpWakingTime (s : Sys) (a b : Tid) : Bool :=
  (s.thread a).ticksWake < (s.thread b).ticksWake

/-! ## `thread.c` -/

/-- `next_thread_to_run`. -/
def nextThreadToRun (s : Sys) : Tid × Sys :=
  match s.readyList with
  | [] => (idleThread, s)
  | t :: rest => (t, { s with readyList := rest })

/-- `schedule`, with `thread_schedule_tail`. -/
def schedule (s : Sys) : Sys :=
  let (next, s) := s.nextThreadToRun
  { s.setThread next fun t => { t with status := .running } with running := next, threadTicks := 0 }

/-- `thread_block`. -/
def threadBlock (s : Sys) : Sys :=
  (s.setThread s.running fun t => { t with status := .blocked }).schedule

/-- Insertion into `ready_list`. -/
def insertReady (s : Sys) (t : Tid) : Sys :=
  { s with readyList := listInsertOrdered s.threadCmpPriority t s.readyList }

/-- `thread_unblock`. -/
def threadUnblock (s : Sys) (t : Tid) : Sys :=
  (s.insertReady t).setThread t fun t => { t with status := .ready }

/-- `thread_yield`. -/
def threadYield (s : Sys) : Sys :=
  let s' := if s.running ≠ idleThread then s.insertReady s.running else s
  (s'.setThread s.running fun t => { t with status := .ready }).schedule

/-- The end of `thread_exit`. -/
def threadExit (s : Sys) : Sys :=
  ({ s with allList := s.allList.erase s.running }.setThread s.running fun t =>
    { t with status := .dying }).schedule

/-- `thread_hold_the_lock`. -/
def threadHoldTheLock (s : Sys) (lock : LockId) : Sys :=
  let s := s.setLock lock fun l => { l with maxPriority := (s.thread s.running).priority }
  s.setThread s.running fun t =>
    { t with locks := listInsertOrdered s.lockCmpPriority lock t.locks }

/-- `thread_update_priority`. -/
def threadUpdatePriority (s : Sys) (t : Tid) : Sys :=
  let locks := listSort s.lockCmpPriority (s.thread t).locks
  s.setThread t fun r => { r with
    locks
    priority := match locks.head? with
      | none => r.basePriority
      | some l => max r.basePriority (s.lock l).maxPriority }

/-- The first statement of `thread_donate_priority`. -/
def raise (s : Sys) (lock : LockId) (holder : Tid) : Sys :=
  if (s.lock lock).maxPriority < (s.thread s.running).priority then
    (s.setLock lock fun l =>
      { l with maxPriority := (s.thread s.running).priority }).threadUpdatePriority holder
  else s

/-- `thread_donate_priority`. A recursive call is left to do. -/
def threadDonatePriority (s : Sys) (lock : LockId) : Except Crash Sys :=
  match (s.lock lock).holder with
  | none => .error .nullDeref
  | some holder =>
    let s := s.raise lock holder
    let s := if (s.thread holder).status = .ready then
        { s with readyList := listSort s.threadCmpPriority s.readyList }
      else s
    match (s.thread holder).lockWaiting with
    | none => .ok s
    | some next => .ok (s.push [.donate next])

/-- `thread_remove_lock`. -/
def threadRemoveLock (s : Sys) (lock : LockId) : Except Crash Sys :=
  if lock ∈ (s.thread s.running).locks then
    .ok ((s.setThread s.running fun t =>
      { t with locks := t.locks.erase lock }).threadUpdatePriority s.running)
  else .error .notLinked

/-! ## MLFQS -/

/-- `f` of `fixed-point.h`. -/
abbrev fpOne : Int := 16384

/-- `FP_CONVERT_TO_INT_NEAREST`. -/
def fpNearest (x : Int) : Int :=
  if 0 ≤ x then (x + fpOne / 2).tdiv fpOne else (x - fpOne / 2).tdiv fpOne

/-- `mlfqs_update_priority` on a thread that is not the idle thread. -/
def mlfqsPriority (t : Thread) : Int :=
  let priority := fpNearest (priMax * fpOne - t.recentCpu.tdiv 4 - 2 * t.nice * fpOne)
  if priority < priMin then priMin else if priMax < priority then priMax else priority

/-- `mlfqs_update_each_recent_cpu` on a thread that is not the idle thread. -/
def mlfqsRecentCpu (loadAvg : Int) (t : Thread) : Int :=
  (((loadAvg * 2) * fpOne).tdiv (loadAvg * 2 + fpOne) * t.recentCpu).tdiv fpOne + t.nice * fpOne

/-- `thread_foreach`, for a function that leaves the idle thread alone. -/
def threadForeach (s : Sys) (f : Thread → Thread) : Sys :=
  { s with thread := fun t =>
      if t ∈ s.allList ∧ t ≠ idleThread then f (s.thread t) else s.thread t }

/-- `mlfqs_update_load_avg`. -/
def mlfqsUpdateLoadAvg (s : Sys) : Sys :=
  let ready : Int := s.readyList.length + if s.running ≠ idleThread then 1 else 0
  { s with loadAvg := (s.loadAvg * 59).tdiv 60 + (ready * fpOne).tdiv 60 }

/-- `mlfqs_increase_running_recent_cpu`. -/
def mlfqsIncreaseRunningRecentCpu (s : Sys) : Sys :=
  if s.running ≠ idleThread then
    s.setThread s.running fun t => { t with recentCpu := t.recentCpu + fpOne }
  else s

/-- What `timer_interrupt` does in the MLFQS mode. -/
def mlfqsTick (s : Sys) : Sys :=
  let s := s.mlfqsIncreaseRunningRecentCpu
  let s := if s.ticks % timerFreq = 0 then
      let s := s.mlfqsUpdateLoadAvg
      s.threadForeach fun t => { t with recentCpu := mlfqsRecentCpu s.loadAvg t }
    else s
  if s.ticks % 4 = 0 then s.threadForeach fun t => { t with priority := mlfqsPriority t } else s

/-! ## `timer.c` -/

/-- The loop of `wake_threads` over the rest of `waiting_threads`. -/
def wakeThreads : List Tid → Sys → Sys
  | [], s => s
  | t :: rest, s =>
    if (s.thread t).ticksWake ≤ s.ticks ∧ (s.thread t).status = .blocked then
      wakeThreads rest ({ s with waitingThreads := rest }.threadUnblock t)
    else s

/-- `timer_interrupt`. -/
def timerInterrupt (s : Sys) : Sys :=
  let s := { s with ticks := s.ticks + 1, threadTicks := s.threadTicks + 1 }
  let s := wakeThreads s.waitingThreads s
  if s.mlfqs then s.mlfqsTick else s

/-- A timer interrupt ends the time slice. -/
def sliceEnds (s : Sys) : Bool := timeSlice ≤ s.threadTicks + 1

/-- A timer interrupt wakes a thread. -/
def wakes (s : Sys) : Bool :=
  match s.waitingThreads with
  | [] => false
  | t :: _ => (s.thread t).ticksWake ≤ s.ticks + 1 && (s.thread t).status = .blocked

/-- A timer interrupt computes the priorities of MLFQS. -/
def reckons (s : Sys) : Bool := s.mlfqs && (s.ticks + 1) % 4 = 0

/-- A timer interrupt. `thread_tick` asks for a yield at the end of a time slice. -/
def tick (s : Sys) : Sys :=
  if s.sliceEnds then s.timerInterrupt.threadYield else s.timerInterrupt

/-- The rest of `timer_sleep`, for `ticks` greater than zero. -/
def timerSleep (s : Sys) (ticks : Int) : Sys :=
  let s := s.setThread s.running fun t => { t with ticksWake := s.ticks + ticks }
  let s := { s with
    waitingThreads := listInsertOrdered s.timerCmpWakingTime s.running s.waitingThreads }
  (s.push [.awake]).threadBlock

/-! ## `synch.c` -/

/-- The loop of `sema_down`, from a test on. -/
def semaDown (s : Sys) (k : SemaId) : Sys :=
  if (s.sema k).value = 0 then
    ((s.setSema k fun m =>
      { m with waiters := listInsertOrdered s.threadCmpPriority s.running m.waiters }).push
        [.retest k]).threadBlock
  else s.setSema k fun m => { m with value := m.value - 1 }

/-- `sema_try_down`. -/
def semaTryDown (s : Sys) (k : SemaId) : Bool × Sys :=
  if 0 < (s.sema k).value then
    (true, s.setSema k fun m => { m with value := m.value - 1 })
  else (false, s)

/-- `sema_up`, up to its yield. -/
def semaWake (s : Sys) (k : SemaId) : Sys :=
  match listSort s.threadCmpPriority (s.sema k).waiters with
  | [] => s.setSema k fun m => { m with value := (m.value + 1) % uintSize }
  | t :: rest =>
    (s.setSema k fun m =>
      { value := (m.value + 1) % uintSize, waiters := rest }).threadUnblock t

/-- `sema_up`. -/
def semaUp (s : Sys) (k : SemaId) : Sys := (s.semaWake k).threadYield

/-- The priority that `cond_sema_cmp_priority` reads for a waiter. -/
def waiterPriority (s : Sys) (t : Tid) : Int :=
  match (s.sema (.waiter t)).waiters with
  | [] => 0
  | u :: _ => (s.thread u).priority

/-- `list_sort` with `cond_sema_cmp_priority`. It compares each element of a list of two or more,
and `list_front` asserts that the semaphore has a sleeper. Its own assertion at the end, that the
list is sorted, holds unless the priorities have changed meanwhile. -/
def sortWaiters (s : Sys) (ts : List Tid) : Except Crash (List Tid) :=
  if 2 ≤ ts.length ∧ ∃ t ∈ ts, (s.sema (.waiter t)).waiters = [] then .error .assertion
  else .ok (listSort (decreasing s.waiterPriority) ts)

/-- `cond_signal`, up to its `sema_up`. -/
def condSignal (s : Sys) (c : CondId) : Except Crash Sys :=
  if (s.lock (s.condLock c)).holder ≠ some s.running then .error .assertion
  else match s.cond c with
    | [] => .ok s
    | _ => do
      match ← s.sortWaiters (s.cond c) with
      | [] => return s
      | t :: rest => return (s.setCond c rest).push [.up (.waiter t)]

/-! ## Instructions -/

/-- `lock_acquire`. -/
def lockAcquire (l : LockId) : List Instr := [.testHolder l, .down (.ofLock l), .hold l]

/-- `lock_release`. -/
def lockRelease (l : LockId) : List Instr := [.removeLock l, .clearHolder l, .up (.ofLock l)]

/-- One instruction of the running thread. -/
def exec (s : Sys) : Instr → Except Crash Sys
  | .testHolder l =>
    if (s.lock l).holder = some s.running then .error .assertion
    else if (s.lock l).holder ≠ none ∧ s.mlfqs = false then
      .ok (s.push [.setWaiting l, .donate l])
    else .ok s
  | .setWaiting l => .ok (s.setThread s.running fun t => { t with lockWaiting := some l })
  | .donate l => s.threadDonatePriority l
  | .down k => .ok (s.semaDown k)
  | .retest k => .ok (s.semaDown k)
  | .hold l =>
    let s := if s.mlfqs then s else s.threadHoldTheLock l
    .ok (s.setLock l fun r => { r with holder := some s.running })
  | .setHolder l => .ok (s.setLock l fun r => { r with holder := some s.running })
  | .removeLock l =>
    if (s.lock l).holder ≠ some s.running then .error .assertion
    else if s.mlfqs then .ok s
    else s.threadRemoveLock l
  | .clearHolder l => .ok (s.setLock l fun r => { r with holder := none })
  | .up k => .ok (s.semaUp k)
  | .yield => .ok s.threadYield
  | .awake => .ok s
  | .unblocked => .ok s
  | .unblock t priority =>
    if (s.thread t).status ≠ .blocked then .error .assertion
    else .ok ((s.threadUnblock t).push [.yieldIfBelow priority])
  | .yieldIfBelow priority =>
    if (s.thread s.running).priority < priority then .ok s.threadYield else .ok s
  | .pushWaiter c =>
    if (s.lock (s.condLock c)).holder ≠ some s.running then .error .assertion
    else .ok ((s.setSema (.waiter s.running) fun _ => ⟨0, []⟩).setCond c (s.cond c ++ [s.running]))
  | .signal c => s.condSignal c
  | .broadcast c =>
    match s.cond c with
    | [] => .ok s
    | _ => .ok (s.push [.signal c, .broadcast c])

/-! ## Calls -/

/-- `init_thread`, for the thread that is made next. -/
def initThread (s : Sys) (priority : Int) : Sys :=
  { s with
    created := s.created + 1
    thread := Function.update s.thread s.created
      { status := .blocked
        priority
        basePriority := priority
        locks := []
        lockWaiting := none
        ticksWake := 0
        nice := 0
        recentCpu := 0
        todo := [] }
    allList := s.created :: s.allList }

/-- `thread_set_priority`, up to its yield. -/
def threadSetPriority (s : Sys) (newPriority : Int) : Sys :=
  if s.mlfqs then s
  else
    let t := s.thread s.running
    if t.locks = [] ∨ t.priority < newPriority then
      (s.setThread s.running fun t =>
        { t with basePriority := newPriority, priority := newPriority }).push [.yield]
    else s.setThread s.running fun t => { t with basePriority := newPriority }

/-- `thread_set_nice`, up to its yield. -/
def threadSetNice (s : Sys) (nice : Int) : Sys :=
  let old := (s.thread s.running).priority
  let s := s.setThread s.running fun t =>
    let t := { t with nice }
    if s.running ≠ idleThread then { t with priority := mlfqsPriority t } else t
  if (s.thread s.running).priority < old then s.push [.yield] else s

end Sys

/-- The calls that a thread can make from its own code. -/
inductive Call where
  /-- `thread_create`. -/
  | create (priority : Int)
  /-- `thread_exit`. -/
  | exit
  /-- `thread_yield`. -/
  | yield
  /-- `thread_set_priority`. -/
  | setPriority (newPriority : Int)
  /-- `thread_set_nice`. -/
  | setNice (nice : Int)
  /-- `timer_sleep`. -/
  | sleep (ticks : Int)
  /-- `sema_down`. -/
  | down (sema : Nat)
  /-- `sema_try_down`. -/
  | tryDown (sema : Nat)
  /-- `sema_up`. -/
  | up (sema : Nat)
  /-- `lock_acquire`. -/
  | acquire (lock : Nat)
  /-- `lock_try_acquire`. -/
  | tryAcquire (lock : Nat)
  /-- `lock_release`. -/
  | release (lock : Nat)
  /-- `cond_wait`. -/
  | wait (cond : CondId)
  /-- `cond_signal`. -/
  | signal (cond : CondId)
  /-- `cond_broadcast`. -/
  | broadcast (cond : CondId)
  /-- `thread_block`, with interrupts turned off for it. -/
  | block
  /-- `thread_unblock`. -/
  | unblock (t : Tid)
  /-- `thread_block` in the loop of `idle`. -/
  | idle
  deriving DecidableEq

namespace Sys

/-- What a call does at once. The rest is left to do. -/
def call (s : Sys) : Call → Except Crash Sys
  | .create priority =>
    if priMin ≤ priority ∧ priority ≤ priMax then
      .ok ((s.initThread priority).push
        (lockAcquire .tid ++ lockRelease .tid ++ [.unblock s.created priority]))
    else .error .assertion
  | .exit => .ok s.threadExit
  | .yield => .ok s.threadYield
  | .setPriority newPriority => .ok (s.threadSetPriority newPriority)
  | .setNice nice => .ok (s.threadSetNice nice)
  | .sleep ticks => .ok (if ticks ≤ 0 then s else s.timerSleep ticks)
  | .down k => .ok (s.push [.down (.plain k)])
  | .tryDown k => .ok (s.semaTryDown (.plain k)).2
  | .up k => .ok (s.push [.up (.plain k)])
  | .acquire l => .ok (s.push (lockAcquire (.user l)))
  | .tryAcquire l =>
    if (s.lock (.user l)).holder = some s.running then .error .assertion
    else match s.semaTryDown (.ofLock (.user l)) with
      | (true, s) => .ok (s.push [.setHolder (.user l)])
      | (false, s) => .ok s
  | .release l => .ok (s.push (lockRelease (.user l)))
  | .wait c =>
    .ok (s.push (.pushWaiter c :: lockRelease (s.condLock c) ++ .down (.waiter s.running) ::
      lockAcquire (s.condLock c)))
  | .signal c => .ok (s.push [.signal c])
  | .broadcast c => .ok (s.push [.broadcast c])
  | .block => .ok (s.push [.unblocked]).threadBlock
  | .unblock t =>
    if (s.thread t).status ≠ .blocked then .error .assertion
    else if (s.thread t).todo.head? ≠ some .unblocked then .error .notParked
    else .ok (s.threadUnblock t)
  | .idle => .ok s.threadBlock

end Sys

/-! ## Runs -/

/-- What can happen next. -/
inductive Action where
  /-- The running thread makes a call. -/
  | call (c : Call)
  /-- The running thread goes on with what it has left to do. -/
  | go
  /-- A timer interrupt. -/
  | tick
  /-- A timer interrupt in the middle of what the running thread does next. -/
  | split
  deriving DecidableEq

/-- An action is a timer interrupt. -/
def Action.interrupts : Action → Bool
  | .tick => true
  | .split => true
  | _ => false

namespace Sys

/-- What the running thread has left to do. -/
def current (s : Sys) : List Instr := (s.thread s.running).todo

/-- Interrupts are on. They are off where `schedule` has just returned in `thread_block`. -/
def intrOn (s : Sys) : Bool :=
  match s.current with
  | .retest _ :: _ => false
  | .awake :: _ => false
  | .unblocked :: _ => false
  | _ => true

/-- The running thread is in code of its own. -/
def free (s : Sys) : Bool := s.current = []

/-- What the running thread does next is one step here, and runs with interrupts on. In its own code
that is `thread_set_priority` or `thread_set_nice`. -/
def divisible (s : Sys) : Bool :=
  match s.current with
  | [] => true
  | .donate _ :: _ => true
  | .removeLock _ :: _ => true
  | .signal _ :: _ => true
  | _ => false

/-- A timer interrupt in the middle of what the running thread does next may change what that works
on: the ready queue and the locks of a holder, the thread's own locks, the priorities of the waiters
of a condition, or the thread's own priority. -/
def tears (s : Sys) : Bool :=
  match s.current with
  | [] => s.sliceEnds || s.reckons
  | .donate _ :: _ => s.sliceEnds || s.wakes
  | .removeLock _ :: _ => s.sliceEnds && !s.mlfqs
  | .signal _ :: _ => s.sliceEnds || s.reckons
  | _ => false

end Sys

/-- An action is possible. The idle thread makes no calls. -/
def Action.Enabled (s : Sys) : Action → Prop
  | .call c => s.free = true ∧ (c = .idle ↔ s.running = idleThread)
  | .go => s.free = false
  | .tick => s.intrOn = true
  | .split => s.divisible = true

instance (s : Sys) (a : Action) : Decidable (a.Enabled s) := by
  cases a <;> unfold Action.Enabled <;> infer_instance

/-- One step. -/
def Action.step (s : Sys) : Action → Except Crash Sys
  | .call c => s.call c
  | .go =>
    match s.current with
    | [] => .ok s
    | i :: is => (s.setThread s.running fun t => { t with todo := is }).exec i
  | .tick => .ok s.tick
  | .split => if s.tears then .error .torn else .ok s.tick

/-- The state when `thread_start` has returned. The idle thread has been switched from in the yield
of its `sema_up`. All locks and semaphores have just been initialised, but `lock_init` does not set
`max_priority`. In the MLFQS mode the first ticks may have been counted. -/
def Sys.init (mlfqs : Bool) (condLock : CondId → Nat) (unset : LockId → Int) (values : Nat → Nat)
    (ticks : Int) (threadTicks : Nat) (priority recentCpu loadAvg : Int) : Sys where
  mlfqs
  condLock c := .user (condLock c)
  created := 2
  thread t :=
    { status := if t = initialThread then .running else if t = idleThread then .ready else .dying
      priority :=
        if t = initialThread then if mlfqs then priority else priDefault else priMin
      basePriority := if t = initialThread then priDefault else priMin
      locks := []
      lockWaiting := none
      ticksWake := 0
      nice := 0
      recentCpu := if t = initialThread then recentCpu else 0
      todo := [] }
  lock l := { holder := none, maxPriority := unset l }
  sema
    | .ofLock _ => { value := 1, waiters := [] }
    | .waiter _ => { value := 0, waiters := [] }
    | .plain k => { value := values k % uintSize, waiters := [] }
  cond _ := []
  readyList := []
  waitingThreads := []
  allList := [initialThread, idleThread]
  running := initialThread
  ticks
  threadTicks
  loadAvg

/-- A state when `thread_start` has returned. -/
inductive Booted : Sys → Prop where
  | intro (mlfqs : Bool) (condLock : CondId → Nat) (unset : LockId → Int) (values : Nat → Nat)
      (ticks : Int) (threadTicks : Nat) (priority recentCpu loadAvg : Int) :
      Booted (Sys.init mlfqs condLock unset values ticks threadTicks priority recentCpu loadAvg)

/-- The states of the runs whose steps all meet the condition `P`. -/
inductive Reachable (P : Sys → Action → Prop) : Sys → Prop where
  | init {s : Sys} (h : Booted s) : Reachable P s
  | step {s s' : Sys} (a : Action) (h : Reachable P s) (enabled : a.Enabled s) (cond : P s a)
      (hs : a.step s = .ok s') : Reachable P s'

end Pintos.Schedule
