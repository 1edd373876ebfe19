import Pintos.Threads.Schedule
import Pintos.Logic.CInt

/-!
# MLFQS in machine arithmetic

The macros of `threads/fixed-point.h`, and what `threads/thread.c` and `devices/timer.c` compute with
them, over the integers of C. A `fixed_point_t` is an `int`, as are `load_avg` and `nice`;
`recent_cpu` is an `int64_t`. A function gives `none` where the result of an operator does not fit
its type.
-/

namespace Pintos.Schedule.Machine

open Pintos.Logic Sys

/-! ## `fixed-point.h` -/

/-- `q`. -/
def q : CExpr := 14

/-- `f`. -/
def f : CExpr := (1 : CExpr) <<< q

/-- `FP_CONVERT_TO_FP`. -/
def fpConvertToFp (n : CExpr) : CExpr := (n * f).cast .int

/-- `FP_CONVERT_TO_INT_NEAREST`. -/
def fpConvertToIntNearest (x : CExpr) : CExpr :=
  x.ifNonneg (((x + f / 2) / f).cast .int) (((x - f / 2) / f).cast .int)

/-- `FP_ADD`. -/
def fpAdd (x y : CExpr) : CExpr := x + y

/-- `FP_SUB`. -/
def fpSub (x y : CExpr) : CExpr := x - y

/-- `FP_FP_ADD_INT`. -/
def fpFpAddInt (x n : CExpr) : CExpr := x + n * f

/-- `FP_MULT`. -/
def fpMult (x y : CExpr) : CExpr := x.cast .int64 * y / f

/-- `FP_FP_MULT_INT`. -/
def fpFpMultInt (x n : CExpr) : CExpr := x * n

/-- `FP_DIV`. -/
def fpDiv (x y : CExpr) : CExpr := x.cast .int64 * f / y

/-- `FP_FP_DIV_INT`. -/
def fpFpDivInt (x n : CExpr) : CExpr := x / n

/-! ## `thread.c` -/

/-- `mlfqs_increase_running_recent_cpu`. -/
def mlfqsIncreaseRunningRecentCpu (s : Sys) : Option Sys :=
  if s.running ≠ idleThread then do
    let recentCpu ← (fpFpAddInt (.of .int64 (s.thread s.running).recentCpu) 1).store .int64
    return s.setThread s.running fun t => { t with recentCpu }
  else some s

/-- `mlfqs_update_priority` on a thread that is not the idle thread. -/
def mlfqsUpdatePriority (t : Thread) : Option Thread := do
  let priority ← (fpConvertToIntNearest (fpSub
    (fpSub (fpConvertToFp 63) (fpFpDivInt (.of .int64 t.recentCpu) 4))
    (fpConvertToFp (2 * .of .int t.nice)))).store .int
  return { t with
    priority :=
      if priority < priMin then priMin else if priMax < priority then priMax else priority }

/-- The coefficient of `recent_cpu` in `mlfqs_update_each_recent_cpu`. -/
def decay (loadAvg : Int) : CExpr :=
  fpDiv (fpFpMultInt (.of .int loadAvg) 2) (fpFpAddInt (fpFpMultInt (.of .int loadAvg) 2) 1)

/-- `mlfqs_update_each_recent_cpu` on a thread that is not the idle thread. -/
def mlfqsUpdateEachRecentCpu (loadAvg : Int) (t : Thread) : Option Thread := do
  let recentCpu ← (fpFpAddInt (fpMult (decay loadAvg) (.of .int64 t.recentCpu))
    (.of .int t.nice)).store .int64
  return { t with recentCpu }

/-- `ready_threads_num` of `mlfqs_update_load_avg`. `list_size` gives a `size_t`. -/
def readyThreadsNum (s : Sys) : CExpr :=
  let size := CExpr.of .int (CType.int.wrap s.readyList.length)
  if s.running ≠ idleThread then size + 1 else size

/-- `mlfqs_update_load_avg`. -/
def mlfqsUpdateLoadAvg (s : Sys) : Option Sys := do
  let loadAvg ← (fpAdd (fpFpDivInt (fpFpMultInt (.of .int s.loadAvg) 59) 60)
    (fpFpDivInt (fpConvertToFp (readyThreadsNum s)) 60)).store .int
  return { s with loadAvg }

/-- `thread_get_load_avg`. -/
def threadGetLoadAvg (s : Sys) : CExpr :=
  fpConvertToIntNearest (fpFpMultInt (.of .int s.loadAvg) 100)

/-- `thread_get_recent_cpu`, called by the thread `t`. -/
def threadGetRecentCpu (t : Thread) : CExpr :=
  fpConvertToIntNearest (fpFpMultInt (.of .int64 t.recentCpu) 100)

/-- `thread_set_nice`, up to its yield. -/
def threadSetNice (s : Sys) (nice : Int) : Option Sys := do
  let old := (s.thread s.running).priority
  let t := { s.thread s.running with nice }
  let t ← if s.running ≠ idleThread then mlfqsUpdatePriority t else some t
  let s := s.setThread s.running fun _ => t
  return if (s.thread s.running).priority < old then s.push [.yield] else s

/-! ## `timer.c` -/

/-- `thread_foreach`, for a function that leaves the idle thread alone. -/
def threadForeach (s : Sys) (f : Thread → Option Thread) : Option Sys :=
  if ∀ t ∈ s.allList, t ≠ idleThread → (f (s.thread t)).isSome then
    some (s.threadForeach fun t => (f t).getD t)
  else none

/-- What `timer_interrupt` does for each second. -/
def mlfqsSecond (s : Sys) : Option Sys :=
  if s.ticks % timerFreq = 0 then do
    let s ← mlfqsUpdateLoadAvg s
    threadForeach s (mlfqsUpdateEachRecentCpu s.loadAvg)
  else some s

/-- What `timer_interrupt` does in the MLFQS mode. -/
def mlfqsTick (s : Sys) : Option Sys := do
  let s ← mlfqsIncreaseRunningRecentCpu s
  let s ← mlfqsSecond s
  if s.ticks % 4 = 0 then threadForeach s mlfqsUpdatePriority else some s

/-- `timer_interrupt`. -/
def timerInterrupt (s : Sys) : Option Sys :=
  let s := { s with ticks := s.ticks + 1, threadTicks := s.threadTicks + 1 }
  let s := wakeThreads s.waitingThreads s
  if s.mlfqs then mlfqsTick s else some s

end Pintos.Schedule.Machine
