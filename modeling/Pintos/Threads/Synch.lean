import Pintos.Lib.List
import Mathlib.Logic.Function.Basic

/-!
# Threads, semaphores and locks

`threads/thread.c` and `threads/synch.c` of project 1, without MLFQS. Each operation is one
step up to the point where its thread blocks; a thread that has been woken in `sema_down`
goes on with `resume`. Any thread that is not blocked may take the next step: the order of
`ready_list` is one of the orders covered.
-/

namespace Pintos.Threads

open Pintos.Lib

/-- A `struct thread *`. -/
abbrev Tid : Type := Nat

/-- A `struct lock *`. -/
abbrev LockId : Type := Nat

/-- A `struct semaphore *`: that of a lock, or one by itself. -/
inductive SemaId where
  | ofLock (lock : LockId)
  | plain (sema : Nat)
  deriving DecidableEq

/-- `struct thread`. -/
structure Thread where
  priority : Int
  basePriority : Int
  /-- The locks held. -/
  locks : List LockId
  lockWaiting : Option LockId
  /-- Whether `status` is `THREAD_BLOCKED`. -/
  blocked : Bool
  /-- The semaphore whose `sema_down` the thread is in. -/
  downing : Option SemaId

/-- `struct semaphore`. -/
structure Semaphore where
  value : Nat
  waiters : List Tid

/-- `struct lock`, without its semaphore. -/
structure Lock where
  holder : Option Tid
  maxPriority : Int

/-- The state of the kernel. Threads are numbered in the order they are created. -/
structure Sys where
  created : Nat
  thread : Tid → Thread
  lock : LockId → Lock
  sema : SemaId → Semaphore

/-- How a step can go wrong. -/
inductive Crash where
  /-- A null pointer is dereferenced. -/
  | nullDeref
  /-- Calls are nested deeper than the kernel stack allows. -/
  | stackOverflow
  deriving DecidableEq

namespace Sys

/-- Changes a thread. -/
def setThread (s : Sys) (t : Tid) (f : Thread → Thread) : Sys :=
  { s with thread := Function.update s.thread t (f (s.thread t)) }

/-- Changes a lock. -/
def setLock (s : Sys) (l : LockId) (f : Lock → Lock) : Sys :=
  { s with lock := Function.update s.lock l (f (s.lock l)) }

/-- Changes a semaphore. -/
def setSema (s : Sys) (k : SemaId) (f : Semaphore → Semaphore) : Sys :=
  { s with sema := Function.update s.sema k (f (s.sema k)) }

/-- `thread_cmp_priority`. -/
def threadCmpPriority (s : Sys) : Tid → Tid → Bool := decreasing fun t => (s.thread t).priority

/-- `lock_cmp_priority`. -/
def lockCmpPriority (s : Sys) : LockId → LockId → Bool :=
  decreasing fun l => (s.lock l).maxPriority

end Sys

/-! ## Priorities -/

/-- `thread_hold_the_lock`. -/
def threadHoldTheLock (cur : Tid) (lock : LockId) (s : Sys) : Sys :=
  let s := s.setLock lock fun l => { l with maxPriority := (s.thread cur).priority }
  s.setThread cur fun t => { t with locks := listInsertOrdered s.lockCmpPriority lock t.locks }

/-- `thread_update_priority`. -/
def threadUpdatePriority (t : Tid) (s : Sys) : Sys :=
  let locks := listSort s.lockCmpPriority (s.thread t).locks
  s.setThread t fun r => { r with
    locks
    priority := match locks.head? with
      | none => r.basePriority
      | some l => max r.basePriority (s.lock l).maxPriority }

/-- `thread_donate_priority`, with room on the stack for `depth` calls. -/
def threadDonatePriority (cur : Tid) : (depth : Nat) → LockId → Sys → Except Crash Sys
  | 0, _, _ => .error .stackOverflow
  | depth + 1, lock, s =>
    match (s.lock lock).holder with
    | none => .error .nullDeref
    | some holder =>
      let s := if (s.lock lock).maxPriority < (s.thread cur).priority then
          threadUpdatePriority holder
            (s.setLock lock fun l => { l with maxPriority := (s.thread cur).priority })
        else s
      match (s.thread holder).lockWaiting with
      | none => .ok s
      | some next => threadDonatePriority cur depth next s

/-- `thread_remove_lock`. -/
def threadRemoveLock (cur : Tid) (lock : LockId) (s : Sys) : Sys :=
  threadUpdatePriority cur (s.setThread cur fun t => { t with locks := t.locks.erase lock })

/-- `thread_set_priority`. -/
def threadSetPriority (cur : Tid) (newPriority : Int) (s : Sys) : Sys :=
  s.setThread cur fun t => { t with
    basePriority := newPriority
    priority := if t.locks = [] ∨ t.priority < newPriority then newPriority else t.priority }

/-! ## Semaphores and locks -/

/-- The end of `lock_acquire`, after its `sema_down`. -/
def lockAcquired (cur : Tid) (lock : LockId) (s : Sys) : Sys :=
  (threadHoldTheLock cur lock s).setLock lock fun l => { l with holder := some cur }

/-- `sema_down`, from a test of its loop on: the thread blocks, or goes on to what comes
after `sema_down`. -/
def semaDown (cur : Tid) (k : SemaId) (s : Sys) : Sys :=
  if (s.sema k).value = 0 then
    (s.setSema k fun m =>
      { m with waiters := listInsertOrdered s.threadCmpPriority cur m.waiters }).setThread cur
        fun t => { t with blocked := true, downing := some k }
  else
    let s := (s.setSema k fun m => { m with value := m.value - 1 }).setThread cur
      fun t => { t with downing := none }
    match k with
    | .ofLock lock => lockAcquired cur lock s
    | .plain _ => s

/-- `sema_up`. The thread it wakes is made ready. -/
def semaUp (k : SemaId) (s : Sys) : Sys :=
  match listSort s.threadCmpPriority (s.sema k).waiters with
  | [] => s.setSema k fun m => { m with value := m.value + 1 }
  | t :: rest =>
    (s.setSema k fun m => { value := m.value + 1, waiters := rest }).setThread t
      fun t => { t with blocked := false }

/-- `lock_acquire`. -/
def lockAcquire (depth : Nat) (cur : Tid) (lock : LockId) (s : Sys) : Except Crash Sys :=
  match (s.lock lock).holder with
  | none => .ok (semaDown cur (.ofLock lock) s)
  | some _ => do
    let s ← threadDonatePriority cur depth lock
      (s.setThread cur fun t => { t with lockWaiting := some lock })
    return semaDown cur (.ofLock lock) s

/-- `lock_release`. -/
def lockRelease (cur : Tid) (lock : LockId) (s : Sys) : Sys :=
  semaUp (.ofLock lock) ((threadRemoveLock cur lock s).setLock lock fun l => { l with holder := none })

/-- What `init_thread` makes of a thread, once `thread_create` has unblocked it. -/
def newThread (priority : Int) : Thread where
  priority
  basePriority := priority
  locks := []
  lockWaiting := none
  blocked := false
  downing := none

/-! ## Runs -/

/-- The steps a thread can take. -/
inductive Op where
  /-- `thread_create`. -/
  | create (priority : Int)
  /-- `lock_acquire`. -/
  | acquire (cur : Tid) (lock : LockId)
  /-- `lock_release`. -/
  | release (cur : Tid) (lock : LockId)
  /-- `sema_down`. -/
  | down (cur : Tid) (sema : Nat)
  /-- `sema_up`. -/
  | up (cur : Tid) (sema : Nat)
  /-- `thread_set_priority`. -/
  | setPriority (cur : Tid) (newPriority : Int)
  /-- A thread woken in `sema_down` goes on. -/
  | resume (cur : Tid)

/-- A thread can run code of its own. -/
def Sys.Free (s : Sys) (t : Tid) : Prop :=
  t < s.created ∧ (s.thread t).blocked = false ∧ (s.thread t).downing = none

/-- A step is possible, and no assertion of it fails. -/
def Op.Enabled (s : Sys) : Op → Prop
  | .create _ => True
  | .acquire cur lock => s.Free cur ∧ (s.lock lock).holder ≠ some cur
  | .release cur lock => s.Free cur ∧ (s.lock lock).holder = some cur
  | .down cur _ => s.Free cur
  | .up cur _ => s.Free cur
  | .setPriority cur _ => s.Free cur
  | .resume cur => (s.thread cur).blocked = false ∧ (s.thread cur).downing ≠ none

instance (s : Sys) (t : Tid) : Decidable (s.Free t) :=
  inferInstanceAs (Decidable (_ ∧ _ ∧ _))

instance (s : Sys) (op : Op) : Decidable (op.Enabled s) := by
  cases op <;> unfold Op.Enabled <;> infer_instance

/-- One step, with room on the stack for `depth` nested donations. -/
def Op.step (depth : Nat) (s : Sys) : Op → Except Crash Sys
  | .create priority =>
    .ok { s with created := s.created + 1, thread := Function.update s.thread s.created (newThread priority) }
  | .acquire cur lock => lockAcquire depth cur lock s
  | .release cur lock => .ok (lockRelease cur lock s)
  | .down cur sema => .ok (semaDown cur (.plain sema) s)
  | .up _ sema => .ok (semaUp (.plain sema) s)
  | .setPriority cur newPriority => .ok (threadSetPriority cur newPriority s)
  | .resume cur =>
    match (s.thread cur).downing with
    | none => .ok s
    | some k => .ok (semaDown cur k s)

/-- No threads yet, and all locks and semaphores just initialised. `lock_init` does not set
`max_priority`. -/
def Sys.init (unset : LockId → Int) (values : Nat → Nat) : Sys where
  created := 0
  thread _ := newThread 0
  lock l := { holder := none, maxPriority := unset l }
  sema
    | .ofLock _ => { value := 1, waiters := [] }
    | .plain k => { value := values k, waiters := [] }

/-- The states of the runs whose steps all meet the condition `P`. -/
inductive Reachable (depth : Nat) (P : Sys → Op → Prop) : Sys → Prop where
  | init (unset : LockId → Int) (values : Nat → Nat) : Reachable depth P (Sys.init unset values)
  | step {s s' : Sys} (op : Op) (h : Reachable depth P s) (enabled : op.Enabled s) (cond : P s op)
      (hs : op.step depth s = .ok s') : Reachable depth P s'

end Pintos.Threads
