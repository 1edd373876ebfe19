import Pintos.Lib.List
import Mathlib.Logic.Function.Basic

/-!
# Starting, waiting for and ending processes

`process_execute`, `start_process`, `process_wait`, `process_exit` and `thread_get_by_tid`, with
the system calls `exec`, `wait` and `exit` over them. A thread is a program counter that moves
from one access of shared memory to the next, so other threads run in between.

What `load` does to memory and files is left out: it succeeds, fails, or ends the thread with a page
fault (`setup_stack` writes below its page, for a command line that needs more than a page of stack).
-/

namespace Pintos.Process

open Pintos.Lib

/-- `tid_t`. -/
abbrev Tid : Type := Int

/-- A `struct thread *`. Threads are numbered in the order they are created. -/
abbrev Ptr : Type := Nat

/-- `TID_ERROR`. -/
def tidError : Tid := -1

/-- `struct child_status`. -/
structure ChildStatus where
  childTid : Tid
  childExitCode : Int
  childWaited : Bool
  childWaitSema : Nat
  deriving DecidableEq

/-- The values of `load_state`. -/
inductive LoadState where
  | init
  | success
  | fail
  deriving DecidableEq

/-- `struct thread`. -/
structure Thread where
  tid : Tid
  parentTid : Tid
  exitCode : Int
  childThreadList : List ChildStatus
  loadSema : Nat
  loadState : LoadState
  deriving DecidableEq

/-- What calls `process_execute` or `process_wait`: a system call, or `run_task`. -/
inductive Caller where
  | syscall
  | runTask
  deriving DecidableEq

/-- What a thread does with the result of `thread_get_by_tid`. -/
inductive After where
  /-- In `process_execute`, for its new thread. -/
  | link (caller : Caller) (tid : Tid) (new : Ptr)
  /-- In `start_process`, after `load`. -/
  | started (success : Bool)
  /-- In `exit`. -/
  | exit (status : Int)
  /-- In `process_exit`. -/
  | leave
  deriving DecidableEq

/-- Where a thread is. The last argument of some is the thread that `process_execute` made,
which the code does not keep. -/
inductive Pc where
  /-- Not made yet. -/
  | unborn
  /-- The idle thread. -/
  | idle
  /-- The main thread, in `run_actions`. -/
  | actions
  /-- In user mode. -/
  | running
  /-- `process_execute`: the page for the copy of the file name. -/
  | fnCopy (caller : Caller)
  /-- The page for the name of the program. -/
  | programName (caller : Caller)
  /-- `thread_create`, up to the end of `init_thread`. -/
  | create (caller : Caller)
  /-- The rest of `thread_create`: `allocate_tid` and `thread_unblock`. -/
  | unblock (caller : Caller) (new : Ptr)
  /-- The `struct child_status` and its place in the list. -/
  | record (caller : Caller) (tid : Tid) (new : Ptr)
  /-- `exec`: `sema_down` on `load_sema`. -/
  | loadDown (pid : Tid) (new : Option Ptr)
  /-- The test of `load_state`. -/
  | loadTest (pid : Tid) (new : Option Ptr)
  /-- `exec` returns. -/
  | execReturn (result : Tid) (new : Option Ptr)
  /-- `thread_get_by_tid`, at an element of `all_list`. -/
  | search (tid : Tid) (e : Ptr) (after : After)
  /-- `thread_get_by_tid` has returned. -/
  | found (t : Ptr) (after : After)
  /-- `start_process`: `load`. -/
  | load
  /-- `load` has returned. -/
  | loaded (success : Bool)
  /-- `page_fault` has called `exit (-1)` in the middle of `load`. -/
  | faulted
  /-- `sema_up` on the `load_sema` of a thread. -/
  | loadUp (t : Ptr) (success : Bool)
  /-- `process_wait`: the search for the record. -/
  | wait (caller : Caller) (tid : Tid)
  /-- `sema_down` on `child_wait_sema`. -/
  | waitDown (caller : Caller) (tid : Tid) (child : Nat)
  /-- The record is marked, and its exit code is read. -/
  | waitMark (caller : Caller) (tid : Tid) (child : Nat)
  /-- `process_wait` returns. -/
  | waitReturn (caller : Caller) (tid : Tid) (result : Int)
  /-- `thread_exit`, up to the call of `thread_get_by_tid` in `process_exit`. -/
  | leaving
  /-- `process_exit`, after it has woken the parent. -/
  | release
  /-- `thread_exit`, after `process_exit`. -/
  | remove
  /-- Off `all_list`, with its page given back. -/
  | dead
  deriving DecidableEq

/-- How a thread came to call `thread_exit`. -/
inductive Ending where
  /-- It called `exit`. -/
  | exited (status : Int)
  /-- The kernel killed it for an exception. -/
  | killed
  /-- Its `load` failed. -/
  | loadFailed
  /-- The main thread has run its actions. -/
  | finished
  deriving DecidableEq

/-- What has happened to a thread. The code does not keep it. -/
structure Past where
  /-- The thread whose `process_execute` made it. -/
  maker : Option Ptr
  /-- What its `load` returned. -/
  loaded : Option Bool
  ending : Option Ending
  /-- The tids that its calls of `exec`, or of `process_execute` in `run_task`, have returned. -/
  executed : List Tid
  /-- Those of them for which a later call of `process_wait` has returned. -/
  waited : List Tid
  deriving DecidableEq

/-- The state of all threads. -/
structure Sys where
  /-- The number of threads made so far. -/
  created : Nat
  /-- `next_tid` of `allocate_tid`. -/
  nextTid : Tid
  allList : List Ptr
  thread : Ptr → Thread
  pc : Ptr → Pc
  past : Ptr → Past

namespace Sys

/-- Moves a thread to another point. -/
def goto (s : Sys) (p : Ptr) (pc : Pc) : Sys := { s with pc := Function.update s.pc p pc }

/-- Changes a thread. -/
def setThread (s : Sys) (t : Ptr) (f : Thread → Thread) : Sys :=
  { s with thread := Function.update s.thread t (f (s.thread t)) }

/-- Adds to the past of a thread. -/
def setPast (s : Sys) (t : Ptr) (f : Past → Past) : Sys :=
  { s with past := Function.update s.past t (f (s.past t)) }

end Sys

/-! ## The lists -/

/-- The loop of `thread_get_by_tid` from an element on, where `t` is the one before. A thread on
`all_list` is not `THREAD_DYING`. -/
def getByTidFrom (tid : Ptr → Tid) (goal : Tid) : (t : Option Ptr) → List Ptr → Option Ptr
  | t, [] => t
  | _, e :: es => if tid e = goal then some e else getByTidFrom tid goal (some e) es

/-- `thread_get_by_tid`, when nothing comes in between. If no thread has the tid, it returns the
last one. -/
def threadGetByTid (s : Sys) (tid : Tid) : Option Ptr :=
  getByTidFrom (fun t => (s.thread t).tid) tid none s.allList

/-- Changes the first record of a child. -/
def updateChild (tid : Tid) (f : ChildStatus → ChildStatus) : List ChildStatus → List ChildStatus
  | [] => []
  | c :: cs => if c.childTid = tid then f c :: cs else c :: updateChild tid f cs

/-- The place of the record of a child that `process_wait` finds. -/
def childIndex (tid : Tid) (l : List ChildStatus) : Option Nat := l.findIdx? (·.childTid = tid)

/-- `exit` stores the status of a child. -/
def storeExitCode (tid : Tid) (status : Int) : List ChildStatus → List ChildStatus :=
  updateChild tid fun c => { c with childExitCode := status }

/-- `process_exit` ups the semaphore of a child. -/
def upChild (tid : Tid) : List ChildStatus → List ChildStatus :=
  updateChild tid fun c => { c with childWaitSema := c.childWaitSema + 1 }

/-- What `init_thread` makes of a thread. -/
def initThread : Thread where
  tid := 0
  parentTid := 0
  exitCode := 0
  childThreadList := []
  loadSema := 0
  loadState := .init

/-- A new record of `process_execute`. -/
def newChild (tid : Tid) : ChildStatus where
  childTid := tid
  childExitCode := 0
  childWaited := false
  childWaitSema := 0

/-- The past of a thread before it has done anything. -/
def Past.new (maker : Option Ptr) : Past where
  maker
  loaded := none
  ending := none
  executed := []
  waited := []

/-! ## Steps -/

/-- Where a thread goes after a call of `process_execute`. -/
def afterExecute (tid : Tid) (new : Option Ptr) : Caller → Pc
  | .syscall => .loadDown tid new
  | .runTask => .wait .runTask tid

/-- Where a thread goes after a call of `process_wait`. -/
def afterWait : Caller → Pc
  | .syscall => .running
  | .runTask => .actions

/-- One step of the thread `p`. -/
inductive Step (s : Sys) (p : Ptr) : Sys → Prop where
  -- `run_actions`
  | runTask (h : s.pc p = .actions) : Step s p (s.goto p (.fnCopy .runTask))
  | finish (h : s.pc p = .actions) :
    Step s p ((s.setPast p fun r => { r with ending := some .finished }).goto p .leaving)
  -- a process in user mode
  | exec (h : s.pc p = .running) : Step s p (s.goto p (.fnCopy .syscall))
  | callWait (tid : Tid) (h : s.pc p = .running) : Step s p (s.goto p (.wait .syscall tid))
  | callExit (status : Int) (e : Ptr) (h : s.pc p = .running) (he : s.allList.head? = some e) :
    Step s p ((s.setPast p fun r => { r with ending := some (.exited status) }).goto p
      (.search (s.thread p).parentTid e (.exit status)))
  /-- `page_fault` calls `exit (-1)`. -/
  | pageFault (e : Ptr) (h : s.pc p = .running) (he : s.allList.head? = some e) :
    Step s p ((s.setPast p fun r => { r with ending := some .killed }).goto p
      (.search (s.thread p).parentTid e (.exit (-1))))
  /-- `kill` calls `thread_exit`. -/
  | kill (h : s.pc p = .running) :
    Step s p ((s.setPast p fun r => { r with ending := some .killed }).goto p .leaving)
  -- `process_execute`
  | fnCopy {caller : Caller} (h : s.pc p = .fnCopy caller) :
    Step s p (s.goto p (.programName caller))
  | noFnCopy {caller : Caller} (h : s.pc p = .fnCopy caller) :
    Step s p (s.goto p (afterExecute tidError none caller))
  | programName {caller : Caller} (h : s.pc p = .programName caller) :
    Step s p (s.goto p (.create caller))
  | noProgramName {caller : Caller} (h : s.pc p = .programName caller) :
    Step s p (s.goto p (afterExecute tidError none caller))
  | create {caller : Caller} (h : s.pc p = .create caller) :
    Step s p (({ s with created := s.created + 1, allList := s.allList ++ [s.created] }.setThread
      s.created fun _ => initThread).setPast s.created (fun _ => Past.new (some p))
      |>.goto p (.unblock caller s.created))
  | noCreate {caller : Caller} (h : s.pc p = .create caller) :
    Step s p (s.goto p (afterExecute tidError none caller))
  | unblock {caller : Caller} {new e : Ptr} (h : s.pc p = .unblock caller new)
      (he : s.allList.head? = some e) :
    Step s p (({ s with nextTid := s.nextTid + 1 }.setThread new fun t =>
      { t with tid := s.nextTid }).goto new .load
      |>.goto p (.search s.nextTid e (.link caller s.nextTid new)))
  | link {t new : Ptr} {caller : Caller} {tid : Tid} (h : s.pc p = .found t (.link caller tid new)) :
    Step s p ((s.setThread t fun r => { r with parentTid := (s.thread p).tid }).goto p
      (.record caller tid new))
  | record {caller : Caller} {tid : Tid} {new : Ptr} (h : s.pc p = .record caller tid new) :
    Step s p (((s.setThread p fun t =>
      { t with childThreadList := t.childThreadList ++ [newChild tid] }).setPast p fun r =>
      { r with executed := if caller = .runTask then tid :: r.executed else r.executed }).goto p
        (afterExecute tid (some new) caller))
  | noRecord {caller : Caller} {tid : Tid} {new : Ptr} (h : s.pc p = .record caller tid new) :
    Step s p (s.goto p (afterExecute tidError (some new) caller))
  -- `exec`, after `process_execute`
  | loadDown {pid : Tid} {new : Option Ptr} (h : s.pc p = .loadDown pid new)
      (hv : (s.thread p).loadSema ≠ 0) :
    Step s p ((s.setThread p fun t => { t with loadSema := t.loadSema - 1 }).goto p
      (.loadTest pid new))
  | loadTest {pid : Tid} {new : Option Ptr} (h : s.pc p = .loadTest pid new) :
    Step s p (s.goto p
      (.execReturn (if (s.thread p).loadState = .success then pid else -1) new))
  | execReturn {result : Tid} {new : Option Ptr} (h : s.pc p = .execReturn result new) :
    Step s p ((s.setPast p fun r => { r with
      executed := if result = tidError then r.executed else result :: r.executed }).goto p .running)
  -- `thread_get_by_tid`
  | searchFound {tid : Tid} {e : Ptr} {after : After} (h : s.pc p = .search tid e after)
      (ht : (s.thread e).tid = tid ∨ listNext e s.allList = none) :
    Step s p (s.goto p (.found e after))
  | searchNext {tid : Tid} {e e' : Ptr} {after : After} (h : s.pc p = .search tid e after)
      (ht : (s.thread e).tid ≠ tid) (he : listNext e s.allList = some e') :
    Step s p (s.goto p (.search tid e' after))
  -- `start_process`
  | load (success : Bool) (h : s.pc p = .load) :
    Step s p ((s.setPast p fun r => { r with loaded := some success }).goto p (.loaded success))
  | loadFault (h : s.pc p = .load) :
    Step s p ((s.setPast p fun r => { r with ending := some .killed }).goto p .faulted)
  | faulted {e : Ptr} (h : s.pc p = .faulted) (he : s.allList.head? = some e) :
    Step s p (s.goto p (.search (s.thread p).parentTid e (.exit (-1))))
  | loaded {success : Bool} {e : Ptr} (h : s.pc p = .loaded success)
      (he : s.allList.head? = some e) :
    Step s p (s.goto p (.search (s.thread p).parentTid e (.started success)))
  | loadState {t : Ptr} {success : Bool} (h : s.pc p = .found t (.started success)) :
    Step s p ((s.setThread t fun r =>
      { r with loadState := if success then .success else .fail }).goto p (.loadUp t success))
  | loadUp {t : Ptr} (h : s.pc p = .loadUp t true) :
    Step s p ((s.setThread t fun r => { r with loadSema := r.loadSema + 1 }).goto p .running)
  | loadUpFail {t : Ptr} (h : s.pc p = .loadUp t false) :
    Step s p ((((s.setThread t fun r => { r with loadSema := r.loadSema + 1 }).setThread p fun r =>
      { r with exitCode := -1 }).setPast p fun r =>
      { r with ending := some .loadFailed }).goto p .leaving)
  -- `process_wait`
  | waitNone {caller : Caller} {tid : Tid} (h : s.pc p = .wait caller tid)
      (hn : tid = tidError ∨ childIndex tid (s.thread p).childThreadList = none) :
    Step s p (s.goto p (.waitReturn caller tid (-1)))
  | waitAgain {caller : Caller} {tid : Tid} {child : Nat} {c : ChildStatus}
      (h : s.pc p = .wait caller tid) (ht : tid ≠ tidError)
      (hi : childIndex tid (s.thread p).childThreadList = some child)
      (hc : (s.thread p).childThreadList[child]? = some c) (hw : c.childWaited = true) :
    Step s p (s.goto p (.waitReturn caller tid (-1)))
  | waitFound {caller : Caller} {tid : Tid} {child : Nat} {c : ChildStatus}
      (h : s.pc p = .wait caller tid) (ht : tid ≠ tidError)
      (hi : childIndex tid (s.thread p).childThreadList = some child)
      (hc : (s.thread p).childThreadList[child]? = some c) (hw : c.childWaited = false) :
    Step s p (s.goto p (.waitDown caller tid child))
  | waitDown {caller : Caller} {tid : Tid} {child : Nat} {c : ChildStatus}
      (h : s.pc p = .waitDown caller tid child)
      (hc : (s.thread p).childThreadList[child]? = some c) (hv : c.childWaitSema ≠ 0) :
    Step s p ((s.setThread p fun t => { t with
      childThreadList := t.childThreadList.set child
        { c with childWaitSema := c.childWaitSema - 1 } }).goto p (.waitMark caller tid child))
  | waitMark {caller : Caller} {tid : Tid} {child : Nat} {c : ChildStatus}
      (h : s.pc p = .waitMark caller tid child)
      (hc : (s.thread p).childThreadList[child]? = some c) :
    Step s p ((s.setThread p fun t => { t with
      childThreadList := t.childThreadList.set child { c with childWaited := true } }).goto p
        (.waitReturn caller tid c.childExitCode))
  | waitReturn {caller : Caller} {tid : Tid} {result : Int}
      (h : s.pc p = .waitReturn caller tid result) :
    Step s p ((s.setPast p fun r => { r with
      waited := if tid ∈ r.executed then tid :: r.waited else r.waited }).goto p (afterWait caller))
  -- `exit`
  | exit {t : Ptr} {status : Int} (h : s.pc p = .found t (.exit status)) :
    Step s p (((s.setThread p fun r => { r with exitCode := status }).setThread t fun r =>
      { r with childThreadList := storeExitCode (s.thread p).tid status r.childThreadList }).goto p
        .leaving)
  -- `thread_exit`
  | leave {e : Ptr} (h : s.pc p = .leaving) (he : s.allList.head? = some e) :
    Step s p (s.goto p (.search (s.thread p).parentTid e .leave))
  | childless {t : Ptr} (h : s.pc p = .found t .leave)
      (hn : (s.thread t).childThreadList = []) :
    Step s p (s.goto p .remove)
  | wake {t : Ptr} (h : s.pc p = .found t .leave) (hn : (s.thread t).childThreadList ≠ []) :
    Step s p ((s.setThread t fun r =>
      { r with childThreadList := upChild (s.thread p).tid r.childThreadList }).goto p .release)
  | release (h : s.pc p = .release) :
    Step s p ((s.setThread p fun r => { r with childThreadList := [] }).goto p .remove)
  | remove (h : s.pc p = .remove) :
    Step s p ({ s with allList := s.allList.erase p }.goto p .dead)

/-- The next step of the thread follows a pointer to a thread whose page has been given back. -/
def Sys.Stray (s : Sys) (p : Ptr) : Prop :=
  match s.pc p with
  | .search _ e _ => e ∉ s.allList
  | .found t _ => t ∉ s.allList
  | .loadUp t _ => t ∉ s.allList
  | _ => False

instance (s : Sys) (p : Ptr) : Decidable (s.Stray p) := by
  unfold Sys.Stray
  split <;> infer_instance

/-! ## Runs -/

/-- The state when `run_actions` starts: with the main thread, and the idle thread. -/
def boot : Sys where
  created := 2
  nextTid := 3
  allList := [0, 1]
  thread t := { initThread with tid := if t = 0 then 1 else if t = 1 then 2 else 0 }
  pc t := if t = 0 then .actions else if t = 1 then .idle else .unborn
  past _ := Past.new none

/-- The states of the runs whose steps all meet the condition `P`, which sees the state before
the step, the thread and the state after. Nothing is known after a stray step. -/
inductive Reachable (P : Sys → Ptr → Sys → Prop) : Sys → Prop where
  | boot : Reachable P boot
  | step {s s' : Sys} (p : Ptr) (h : Reachable P s) (hp : ¬ s.Stray p) (hs : Step s p s')
      (cond : P s p s') : Reachable P s'
  | stray {s s' : Sys} (p : Ptr) (h : Reachable P s) (hp : s.Stray p) (cond : P s p s') :
    Reachable P s'

end Pintos.Process
