import Pintos.Properties.Instructions
import Mathlib.Data.List.Perm.Basic
import Mathlib.Data.List.Nodup

/-!
# Where threads are queued

Every thread is in the one queue that its status asks for (`Queued`), and every step keeps it so.
-/

namespace Pintos.Schedule

open Pintos.Lib

variable {s s' : Sys} {t u cur : Tid} {k : SemaId} {l : LockId} {act loose : Option Tid}

/-! ## Updates of a state -/

namespace Sys

theorem setThread_thread (s : Sys) (t : Tid) (f : Thread → Thread) (u : Tid) :
    (s.setThread t f).thread u = if u = t then f (s.thread t) else s.thread u := by
  simp [setThread, Function.update_apply]

theorem setSema_sema (s : Sys) (k : SemaId) (f : Semaphore → Semaphore) (j : SemaId) :
    (s.setSema k f).sema j = if j = k then f (s.sema k) else s.sema j := by
  simp [setSema, Function.update_apply]

theorem setLock_lock (s : Sys) (l : LockId) (f : Lock → Lock) (m : LockId) :
    (s.setLock l f).lock m = if m = l then f (s.lock l) else s.lock m := by
  simp [setLock, Function.update_apply]

section

variable (s) (t) (f : Thread → Thread)

@[simp] theorem setThread_mlfqs : (s.setThread t f).mlfqs = s.mlfqs := rfl
@[simp] theorem setThread_condLock : (s.setThread t f).condLock = s.condLock := rfl
@[simp] theorem setThread_created : (s.setThread t f).created = s.created := rfl
@[simp] theorem setThread_lock : (s.setThread t f).lock = s.lock := rfl
@[simp] theorem setThread_sema : (s.setThread t f).sema = s.sema := rfl
@[simp] theorem setThread_cond : (s.setThread t f).cond = s.cond := rfl
@[simp] theorem setThread_readyList : (s.setThread t f).readyList = s.readyList := rfl
@[simp] theorem setThread_waitingThreads :
    (s.setThread t f).waitingThreads = s.waitingThreads := rfl
@[simp] theorem setThread_running : (s.setThread t f).running = s.running := rfl
@[simp] theorem setThread_allList : (s.setThread t f).allList = s.allList := rfl

end

section

variable (s) (k) (f : Semaphore → Semaphore)

@[simp] theorem setSema_created : (s.setSema k f).created = s.created := rfl
@[simp] theorem setSema_thread : (s.setSema k f).thread = s.thread := rfl
@[simp] theorem setSema_lock : (s.setSema k f).lock = s.lock := rfl
@[simp] theorem setSema_cond : (s.setSema k f).cond = s.cond := rfl
@[simp] theorem setSema_readyList : (s.setSema k f).readyList = s.readyList := rfl
@[simp] theorem setSema_waitingThreads : (s.setSema k f).waitingThreads = s.waitingThreads := rfl
@[simp] theorem setSema_running : (s.setSema k f).running = s.running := rfl

end

section

variable (s) (l) (f : Lock → Lock)

@[simp] theorem setLock_created : (s.setLock l f).created = s.created := rfl
@[simp] theorem setLock_thread : (s.setLock l f).thread = s.thread := rfl
@[simp] theorem setLock_sema : (s.setLock l f).sema = s.sema := rfl
@[simp] theorem setLock_cond : (s.setLock l f).cond = s.cond := rfl
@[simp] theorem setLock_readyList : (s.setLock l f).readyList = s.readyList := rfl
@[simp] theorem setLock_waitingThreads : (s.setLock l f).waitingThreads = s.waitingThreads := rfl
@[simp] theorem setLock_running : (s.setLock l f).running = s.running := rfl

end

section

theorem schedule_running : s.schedule.running = s.readyList.head?.getD idleThread := by
  rw [schedule, nextThreadToRun]
  cases s.readyList <;> rfl

theorem schedule_readyList : s.schedule.readyList = s.readyList.tail := by
  rw [schedule, nextThreadToRun]
  cases hl : s.readyList with
  | nil => exact hl
  | cons t rest => rfl

theorem schedule_thread (u : Tid) : s.schedule.thread u =
    if u = s.schedule.running then { s.thread u with status := .running } else s.thread u := by
  rw [schedule_running, schedule, nextThreadToRun]
  cases s.readyList <;> simp [setThread, Function.update_apply] <;> split <;> simp_all

@[simp] theorem schedule_sema : s.schedule.sema = s.sema := by
  rw [schedule, nextThreadToRun]
  cases s.readyList <;> rfl

@[simp] theorem schedule_lock : s.schedule.lock = s.lock := by
  rw [schedule, nextThreadToRun]
  cases s.readyList <;> rfl

@[simp] theorem schedule_cond : s.schedule.cond = s.cond := by
  rw [schedule, nextThreadToRun]
  cases s.readyList <;> rfl

@[simp] theorem schedule_condLock : s.schedule.condLock = s.condLock := by
  rw [schedule, nextThreadToRun]
  cases s.readyList <;> rfl

@[simp] theorem schedule_mlfqs : s.schedule.mlfqs = s.mlfqs := by
  rw [schedule, nextThreadToRun]
  cases s.readyList <;> rfl

@[simp] theorem schedule_created : s.schedule.created = s.created := by
  rw [schedule, nextThreadToRun]
  cases s.readyList <;> rfl

@[simp] theorem schedule_waitingThreads : s.schedule.waitingThreads = s.waitingThreads := by
  rw [schedule, nextThreadToRun]
  cases s.readyList <;> rfl

@[simp] theorem schedule_allList : s.schedule.allList = s.allList := by
  rw [schedule, nextThreadToRun]
  cases s.readyList <;> rfl

@[simp] theorem schedule_ticks : s.schedule.ticks = s.ticks := by
  rw [schedule, nextThreadToRun]
  cases s.readyList <;> rfl

end

/-- The state in `thread_yield` when `schedule` is called. -/
def offered (s : Sys) : Sys :=
  (if s.running ≠ idleThread then s.insertReady s.running else s).setThread s.running fun t =>
    { t with status := .ready }

theorem threadYield_eq : s.threadYield = s.offered.schedule := rfl

theorem offered_thread (s : Sys) (u : Tid) : s.offered.thread u =
    if u = s.running then { s.thread u with status := .ready } else s.thread u := by
  unfold offered
  split <;> rw [setThread_thread] <;> split <;> simp_all [insertReady]

theorem offered_readyList (s : Sys) : s.offered.readyList =
    if s.running = idleThread then s.readyList
    else listInsertOrdered s.threadCmpPriority s.running s.readyList := by
  unfold offered
  by_cases hi : s.running = idleThread <;> simp [hi, insertReady]

@[simp] theorem offered_sema (s : Sys) : s.offered.sema = s.sema := by
  unfold offered
  split <;> rfl

@[simp] theorem offered_lock (s : Sys) : s.offered.lock = s.lock := by
  unfold offered
  split <;> rfl

@[simp] theorem offered_cond (s : Sys) : s.offered.cond = s.cond := by
  unfold offered
  split <;> rfl

@[simp] theorem offered_condLock (s : Sys) : s.offered.condLock = s.condLock := by
  unfold offered
  split <;> rfl

@[simp] theorem offered_mlfqs (s : Sys) : s.offered.mlfqs = s.mlfqs := by
  unfold offered
  split <;> rfl

@[simp] theorem offered_created (s : Sys) : s.offered.created = s.created := by
  unfold offered
  split <;> rfl

@[simp] theorem offered_waitingThreads (s : Sys) :
    s.offered.waitingThreads = s.waitingThreads := by
  unfold offered
  split <;> rfl

@[simp] theorem offered_ticks (s : Sys) : s.offered.ticks = s.ticks := by
  unfold offered
  split <;> rfl

/-- The state in `sema_down` when `schedule` is called. -/
def waitOn (s : Sys) (k : SemaId) : Sys :=
  ((s.setSema k fun m => { m with
    waiters := listInsertOrdered s.threadCmpPriority s.running m.waiters }).push
      [.retest k]).setThread s.running fun t => { t with status := .blocked }

theorem semaDown_zero (h : (s.sema k).value = 0) : s.semaDown k = (s.waitOn k).schedule := by
  rw [semaDown, if_pos h]
  rfl

theorem semaDown_pos (h : (s.sema k).value ≠ 0) :
    s.semaDown k = s.setSema k fun m => { m with value := m.value - 1 } := by
  rw [semaDown, if_neg h]

theorem waitOn_thread (u : Tid) : (s.waitOn k).thread u = if u = s.running then
    { s.thread u with status := .blocked, todo := .retest k :: (s.thread u).todo }
    else s.thread u := by
  rw [waitOn, setThread_thread, push, setThread_thread]
  by_cases hu : u = s.running <;> simp [hu, setThread_thread]

theorem waitOn_sema (j : SemaId) : (s.waitOn k).sema j = if j = k then
    { s.sema k with waiters :=
      (listInsertOrdered s.threadCmpPriority s.running (s.sema k).waiters) }
    else s.sema j := by
  simp [waitOn, push, setSema_sema]

@[simp] theorem waitOn_lock : (s.waitOn k).lock = s.lock := rfl
@[simp] theorem waitOn_cond : (s.waitOn k).cond = s.cond := rfl
@[simp] theorem waitOn_condLock : (s.waitOn k).condLock = s.condLock := rfl
@[simp] theorem waitOn_mlfqs : (s.waitOn k).mlfqs = s.mlfqs := rfl
@[simp] theorem waitOn_created : (s.waitOn k).created = s.created := rfl
@[simp] theorem waitOn_readyList : (s.waitOn k).readyList = s.readyList := rfl
@[simp] theorem waitOn_waitingThreads : (s.waitOn k).waitingThreads = s.waitingThreads := rfl
@[simp] theorem waitOn_ticks : (s.waitOn k).ticks = s.ticks := rfl

/-- The state in `timer_sleep` when `schedule` is called. -/
def drowse (s : Sys) (n : Int) : Sys :=
  let s := s.setThread s.running fun t => { t with ticksWake := s.ticks + n }
  let s := { s with
    waitingThreads := listInsertOrdered s.timerCmpWakingTime s.running s.waitingThreads }
  (s.push [.awake]).setThread s.running fun t => { t with status := .blocked }

theorem timerSleep_eq (n : Int) : s.timerSleep n = (s.drowse n).schedule := rfl

theorem drowse_thread (n : Int) (u : Tid) : (s.drowse n).thread u = if u = s.running then
    { s.thread u with
      status := .blocked, ticksWake := s.ticks + n, todo := .awake :: (s.thread u).todo }
    else s.thread u := by
  by_cases hu : u = s.running <;> simp [drowse, push, hu, setThread_thread]

theorem drowse_waitingThreads (n : Int) :
    (s.drowse n).waitingThreads.Perm (s.running :: s.waitingThreads) :=
  listInsertOrdered_perm _ _ _

@[simp] theorem drowse_sema (n : Int) : (s.drowse n).sema = s.sema := rfl
@[simp] theorem drowse_lock (n : Int) : (s.drowse n).lock = s.lock := rfl
@[simp] theorem drowse_cond (n : Int) : (s.drowse n).cond = s.cond := rfl
@[simp] theorem drowse_condLock (n : Int) : (s.drowse n).condLock = s.condLock := rfl
@[simp] theorem drowse_mlfqs (n : Int) : (s.drowse n).mlfqs = s.mlfqs := rfl
@[simp] theorem drowse_created (n : Int) : (s.drowse n).created = s.created := rfl
@[simp] theorem drowse_readyList (n : Int) : (s.drowse n).readyList = s.readyList := rfl

/-- The state in `thread_block` when `schedule` is called, for a caller that has interrupts to turn
on again. -/
def park (s : Sys) : Sys :=
  (s.push [.unblocked]).setThread s.running fun t => { t with status := .blocked }

theorem threadBlock_eq : (s.push [.unblocked]).threadBlock = s.park.schedule := rfl

theorem park_thread (u : Tid) : s.park.thread u = if u = s.running then
    { s.thread u with status := .blocked, todo := .unblocked :: (s.thread u).todo }
    else s.thread u := by
  rw [park, setThread_thread, push, setThread_thread]
  by_cases hu : u = s.running <;> simp [hu, setThread_thread]

/-- The state in `thread_set_nice` before its test. -/
def reniced (s : Sys) (n : Int) : Sys :=
  s.setThread s.running fun t =>
    if s.running ≠ idleThread then
      { t with nice := n, priority := mlfqsPriority { t with nice := n } }
    else { t with nice := n }

theorem threadSetNice_eq (n : Int) : s.threadSetNice n =
    if ((s.reniced n).thread s.running).priority < (s.thread s.running).priority then
      (s.reniced n).push [.yield]
    else s.reniced n := rfl

/-- What a change of a thread leaves alone in it, it leaves alone in every thread. -/
theorem setThread_field {β : Type} {f : Thread → Thread} (g : Thread → β) (u : Tid)
    (hf : ∀ r, g (f r) = g r) : g ((s.setThread t f).thread u) = g (s.thread u) := by
  rw [setThread_thread]
  split
  · next hu => rw [hu, hf]
  · rfl

end Sys

/-! ## What is to be shown -/

/-- A thread is blocked before an instruction. -/
def BlockedAt (s : Sys) (t : Tid) (i : Instr) : Prop :=
  (s.thread t).status = .blocked ∧ (s.thread t).todo.head? = some i

/-- A thread is blocked in `sema_down`. -/
def Waits (s : Sys) (t : Tid) (k : SemaId) : Prop :=
  (s.thread t).status = .blocked ∧ (s.thread t).todo.head? = some (.retest k)

/-- A thread is blocked in `timer_sleep`. -/
def Sleeps (s : Sys) (t : Tid) : Prop :=
  (s.thread t).status = .blocked ∧ (s.thread t).todo.head? = some .awake

/-- A thread is blocked in a `thread_block` that it has called itself. It is in no list. -/
def Parked (s : Sys) (t : Tid) : Prop :=
  (s.thread t).status = .blocked ∧ (s.thread t).todo.head? = some .unblocked

/-- The thread that an instruction is about to unblock for the first time. -/
def Instr.born : Instr → Option Tid
  | .unblock t _ => some t
  | _ => none

/-- The threads that a thread has made and not yet unblocked. -/
def births (s : Sys) (u : Tid) : List Tid := (s.thread u).todo.filterMap Instr.born

/-- Every thread is where it belongs. The thread `act` is running; between a thread's leaving the
processor and `schedule` there is none. The blocked thread `loose` has been taken from its queue to
be unblocked. -/
structure Queued (s : Sys) (act loose : Option Tid) : Prop where
  running : ∀ t, (s.thread t).status = .running ↔ act = some t
  ready : ∀ t, t ∈ s.readyList ↔ (s.thread t).status = .ready ∧ t ≠ idleThread
  readyOnce : s.readyList.Nodup
  waiting : ∀ k t, t ∈ (s.sema k).waiters ↔ Waits s t k ∧ loose ≠ some t
  waitingOnce : ∀ k, (s.sema k).waiters.Nodup
  sleeping : ∀ t, t ∈ s.waitingThreads ↔ Sleeps s t ∧ loose ≠ some t
  sleepingOnce : s.waitingThreads.Nodup
  free : ∀ t, loose = some t → (s.thread t).status = .blocked ∧ t ≠ idleThread ∧
    t < s.created ∧ ∀ u, t ∉ births s u
  born : ∀ u t, t ∈ births s u → (s.thread t).status = .blocked ∧ (s.thread t).todo = [] ∧
    t ≠ idleThread ∧ t < s.created
  bornOnce : ∀ u, (births s u).Nodup
  bornHere : ∀ u v t, t ∈ births s u → t ∈ births s v → u = v
  placed : ∀ t, (s.thread t).status = .blocked → t ≠ idleThread →
    loose = some t ∨ (∃ k, Waits s t k) ∨ Sleeps s t ∨ Parked s t ∨ ∃ u, t ∈ births s u
  own : ∀ u x, .down (.waiter x) ∈ (s.thread u).todo ∨ .retest (.waiter x) ∈ (s.thread u).todo →
    x = u
  fresh : ∀ t, s.created ≤ t → (s.thread t).status = .dying ∧ (s.thread t).todo = []
  idle : (s.thread idleThread).todo = [] ∧ (s.thread idleThread).status ≠ .dying ∧ 1 < s.created

/-! ## Steps that move no thread -/

/-- No thread is moved. The running thread may have other things left to do. -/
structure Unmoved (s s' : Sys) : Prop where
  created : s'.created = s.created
  running : s'.running = s.running
  ready : s'.readyList.Perm s.readyList
  waiters : ∀ k, (s'.sema k).waiters = (s.sema k).waiters
  sleeping : s'.waitingThreads = s.waitingThreads
  status : ∀ t, (s'.thread t).status = (s.thread t).status
  todo : ∀ t, t ≠ s.running → (s'.thread t).todo = (s.thread t).todo
  births : births s' s.running = births s s.running
  own : ∀ x, .down (.waiter x) ∈ (s'.thread s.running).todo ∨
    .retest (.waiter x) ∈ (s'.thread s.running).todo → .down (.waiter x) ∈ (s.thread s.running).todo ∨
      .retest (.waiter x) ∈ (s.thread s.running).todo ∨ x = s.running
  idle : s.running = idleThread → (s'.thread idleThread).todo = (s.thread idleThread).todo

theorem Unmoved.births_eq (h : Unmoved s s') (u : Tid) : Schedule.births s' u = Schedule.births s u := by
  by_cases hu : u = s.running
  · rw [hu, h.births]
  · rw [Schedule.births, h.todo u hu, Schedule.births]

theorem Queued.unmoved (hq : Queued s (some s.running) loose) (h : Unmoved s s') :
    Queued s' (some s'.running) loose := by
  have hrun : (s.thread s.running).status = .running := (hq.running s.running).mpr rfl
  have hat : ∀ t i, BlockedAt s' t i ↔ BlockedAt s t i := by
    intro t i
    rw [BlockedAt, BlockedAt, h.status]
    by_cases ht : t = s.running
    · simp [ht, hrun]
    · rw [h.todo t ht]
  have hw : ∀ t k, Waits s' t k ↔ Waits s t k := fun t k => hat t (.retest k)
  have hs : ∀ t, Sleeps s' t ↔ Sleeps s t := fun t => hat t .awake
  have hp : ∀ t, Parked s' t ↔ Parked s t := fun t => hat t .unblocked
  have hnot : ∀ t, (s.thread t).status ≠ .running → t ≠ s.running := fun t ht htr => ht (htr ▸ hrun)
  exact {
    running := fun t => by rw [h.status, h.running, hq.running]
    ready := fun t => by rw [h.ready.mem_iff, h.status, hq.ready]
    readyOnce := h.ready.nodup_iff.mpr hq.readyOnce
    waiting := fun k t => by rw [h.waiters, hw, hq.waiting]
    waitingOnce := fun k => by rw [h.waiters]; exact hq.waitingOnce k
    sleeping := fun t => by rw [h.sleeping, hs, hq.sleeping]
    sleepingOnce := by rw [h.sleeping]; exact hq.sleepingOnce
    free := fun t ht => by
      rw [h.status, h.created]
      simp only [h.births_eq]
      exact hq.free t ht
    born := fun u t ht => by
      rw [h.births_eq] at ht
      obtain ⟨h1, h2, h3, h4⟩ := hq.born u t ht
      have ht' : t ≠ s.running := hnot t (by rw [h1]; simp)
      rw [h.status, h.todo t ht', h.created]
      exact ⟨h1, h2, h3, h4⟩
    bornOnce := fun u => by rw [h.births_eq]; exact hq.bornOnce u
    bornHere := fun u v t hu hv => by
      rw [h.births_eq] at hu hv
      exact hq.bornHere u v t hu hv
    placed := fun t ht hi => by
      rw [h.status] at ht
      simp only [hw, hs, hp, h.births_eq]
      exact hq.placed t ht hi
    own := fun u x hx => by
      by_cases hu : u = s.running
      · rw [hu] at hx ⊢
        rcases h.own x hx with hd | hr | hx
        · exact hq.own _ x (.inl hd)
        · exact hq.own _ x (.inr hr)
        · exact hx
      · rw [h.todo u hu] at hx
        exact hq.own u x hx
    fresh := fun t ht => by
      rw [h.created] at ht
      obtain ⟨h1, h2⟩ := hq.fresh t ht
      rw [h.status, h.todo t (hnot t (by rw [h1]; simp))]
      exact ⟨h1, h2⟩
    idle := by
      rw [h.status, h.created]
      refine ⟨?_, hq.idle.2⟩
      by_cases hi : s.running = idleThread
      · rw [h.idle hi]
        exact hq.idle.1
      · rw [h.todo _ (Ne.symm hi)]
        exact hq.idle.1 }

/-! ## Taking up an instruction -/

/-- The running thread takes up the next instruction. -/
def Sys.pop (s : Sys) : Sys := s.setThread s.running fun t => { t with todo := t.todo.tail }

/-- An instruction that does not unblock a new thread is taken up. -/
theorem Queued.pop (hq : Queued s (some s.running) none) {i : Instr} {is : List Instr}
    (hi : s.current = i :: is) (hborn : i.born = none) : Queued s.pop (some s.running) none := by
  refine hq.unmoved (?_ : Unmoved s s.pop)
  have hcur : (s.thread s.running).todo = i :: is := hi
  exact {
    created := rfl
    running := rfl
    ready := List.Perm.refl _
    waiters := fun _ => rfl
    sleeping := rfl
    status := fun t => Sys.setThread_field (·.status) t fun _ => rfl
    todo := fun t ht => by rw [Sys.pop, Sys.setThread_thread, if_neg ht]
    births := by simp [births, Sys.pop, Sys.setThread_thread, hcur, hborn]
    own := fun x hx => by
      simp only [Sys.pop, Sys.setThread_thread, if_true, hcur, List.tail_cons] at hx ⊢
      rcases hx with hx | hx
      · exact .inl (List.mem_cons_of_mem _ hx)
      · exact .inr (.inl (List.mem_cons_of_mem _ hx))
    idle := fun hidle => by
      rw [hidle, hq.idle.1] at hcur
      cases hcur }

/-- The instruction that unblocks a new thread is taken up. -/
theorem Queued.pop_unblock (hq : Queued s (some s.running) none) {p : Int} {is : List Instr}
    (hi : s.current = .unblock t p :: is) : Queued s.pop (some s.running) (some t) := by
  have hcur : (s.thread s.running).todo = .unblock t p :: is := hi
  have hrun : (s.thread s.running).status = .running := (hq.running s.running).mpr rfl
  have hstatus : ∀ u, (s.pop.thread u).status = (s.thread u).status :=
    fun u => Sys.setThread_field (·.status) u fun _ => rfl
  have htodo : ∀ u, u ≠ s.running → (s.pop.thread u).todo = (s.thread u).todo :=
    fun u hu => by rw [Sys.pop, Sys.setThread_thread, if_neg hu]
  have hbirth : births s s.running = t :: births s.pop s.running := by
    simp [births, Sys.pop, Sys.setThread_thread, hcur, Instr.born]
  have hbirths : ∀ u, u ≠ s.running → births s.pop u = births s u :=
    fun u hu => by rw [births, htodo u hu, births]
  have hmem : t ∈ births s s.running := by rw [hbirth]; exact List.mem_cons_self
  have hsub : ∀ u v, v ∈ births s.pop u → v ∈ births s u := by
    intro u v hv
    by_cases hu : u = s.running
    · rw [hu] at hv ⊢
      rw [hbirth]
      exact List.mem_cons_of_mem _ hv
    · rwa [hbirths u hu] at hv
  -- the new thread was to be unblocked once only
  have hnone : ∀ u, t ∉ births s.pop u := by
    intro u hu
    have hur : u = s.running := hq.bornHere u s.running t (hsub u t hu) hmem
    have hnd := hq.bornOnce s.running
    rw [hbirth, List.nodup_cons] at hnd
    exact hnd.1 (hur ▸ hu)
  obtain ⟨htb, htt, hti, htc⟩ := hq.born _ t hmem
  have hnot : ∀ u, (s.thread u).status ≠ .running → u ≠ s.running := fun u hu h => hu (h ▸ hrun)
  have hat : ∀ u i, BlockedAt s.pop u i ↔ BlockedAt s u i := by
    intro u i
    rw [BlockedAt, BlockedAt, hstatus]
    by_cases hu : u = s.running
    · simp [hu, hrun]
    · rw [htodo u hu]
  have hw : ∀ u k, Waits s.pop u k ↔ Waits s u k := fun u k => hat u (.retest k)
  have hs : ∀ u, Sleeps s.pop u ↔ Sleeps s u := fun u => hat u .awake
  have hp : ∀ u, Parked s.pop u ↔ Parked s u := fun u => hat u .unblocked
  exact {
    running := fun u => by rw [hstatus, hq.running]
    ready := fun u => by rw [hstatus]; exact hq.ready u
    readyOnce := hq.readyOnce
    waiting := fun k u => by
      rw [hw]
      refine ((hq.waiting k u).trans (and_iff_left (by simp))).trans (and_iff_left_of_imp ?_).symm
      rintro ⟨-, hhead⟩ ⟨⟩
      rw [htt] at hhead
      cases hhead
    waitingOnce := hq.waitingOnce
    sleeping := fun u => by
      rw [hs]
      refine ((hq.sleeping u).trans (and_iff_left (by simp))).trans (and_iff_left_of_imp ?_).symm
      rintro ⟨-, hhead⟩ ⟨⟩
      rw [htt] at hhead
      cases hhead
    sleepingOnce := hq.sleepingOnce
    free := by
      rintro _ ⟨⟩
      rw [hstatus]
      exact ⟨htb, hti, htc, hnone⟩
    born := fun u v hv => by
      obtain ⟨h1, h2, h3, h4⟩ := hq.born u v (hsub u v hv)
      rw [hstatus, htodo v (hnot v (by rw [h1]; simp))]
      exact ⟨h1, h2, h3, h4⟩
    bornOnce := fun u => by
      by_cases hu : u = s.running
      · have hnd := hq.bornOnce s.running
        rw [hbirth, List.nodup_cons] at hnd
        rw [hu]
        exact hnd.2
      · rw [hbirths u hu]
        exact hq.bornOnce u
    bornHere := fun u v w hu hv => hq.bornHere u v w (hsub u w hu) (hsub v w hv)
    placed := fun u hu hidle => by
      rw [hstatus] at hu
      by_cases hut : u = t
      · exact .inl (by rw [hut])
      · simp only [hw, hs, hp]
        rcases hq.placed u hu hidle with hf | hf | hf | hf | ⟨v, hf⟩
        · -- before the step no thread is out of its place
          cases hf
        · exact .inr (.inl hf)
        · exact .inr (.inr (.inl hf))
        · exact .inr (.inr (.inr (.inl hf)))
        · refine .inr (.inr (.inr (.inr ⟨v, ?_⟩)))
          by_cases hv : v = s.running
          · rw [hv, hbirth, List.mem_cons] at hf
            rw [hv]
            exact hf.resolve_left hut
          · rwa [hbirths v hv]
    own := fun u x hx => by
      by_cases hu : u = s.running
      · rw [hu] at hx ⊢
        simp only [Sys.pop, Sys.setThread_thread, if_true, hcur, List.tail_cons] at hx
        refine hq.own s.running x ?_
        rw [hcur]
        exact hx.imp (List.mem_cons_of_mem _) (List.mem_cons_of_mem _)
      · rw [htodo u hu] at hx
        exact hq.own u x hx
    fresh := fun u hu => by
      obtain ⟨h1, h2⟩ := hq.fresh u hu
      rw [hstatus, htodo u (hnot u (by rw [h1]; simp))]
      exact ⟨h1, h2⟩
    idle := by
      have hir : idleThread ≠ s.running := by
        intro hir
        rw [← hir, hq.idle.1] at hcur
        cases hcur
      rw [hstatus, htodo _ hir]
      exact hq.idle }

/-! ## Moving a thread -/

/-- The thread taken from its queue is unblocked. -/
theorem Queued.threadUnblock (hq : Queued s act (some t)) : Queued (s.threadUnblock t) act none := by
  obtain ⟨htb, hti, htc, htn⟩ := hq.free t rfl
  have hstatus : ∀ u, ((s.threadUnblock t).thread u).status =
      if u = t then .ready else (s.thread u).status := by
    intro u
    simp only [Sys.threadUnblock, Sys.insertReady, Sys.setThread_thread]
    split <;> rfl
  have htodo : ∀ u, ((s.threadUnblock t).thread u).todo = (s.thread u).todo :=
    fun u => Sys.setThread_field (·.todo) u fun _ => rfl
  have hbirths : ∀ u, births (s.threadUnblock t) u = births s u :=
    fun u => by rw [births, htodo, births]
  have hready : (s.threadUnblock t).readyList.Perm (t :: s.readyList) :=
    listInsertOrdered_perm _ _ _
  -- it leaves its queue as its status changes: blocked threads are the others
  have hat : ∀ u i, BlockedAt (s.threadUnblock t) u i ↔ BlockedAt s u i ∧ u ≠ t := by
    intro u i
    rw [BlockedAt, BlockedAt, hstatus, htodo]
    by_cases hu : u = t <;> simp [hu]
  have hw : ∀ u k, Waits (s.threadUnblock t) u k ↔ Waits s u k ∧ u ≠ t :=
    fun u k => hat u (.retest k)
  have hs : ∀ u, Sleeps (s.threadUnblock t) u ↔ Sleeps s u ∧ u ≠ t := fun u => hat u .awake
  have hp : ∀ u, Parked (s.threadUnblock t) u ↔ Parked s u ∧ u ≠ t := fun u => hat u .unblocked
  have hne : ∀ u, some t ≠ some u ↔ u ≠ t := fun u => by simp [eq_comm]
  exact {
    running := fun u => by
      rw [hstatus]
      by_cases hu : u = t
      · rw [if_pos hu, hu, ← hq.running, htb]
        simp
      · rw [if_neg hu, hq.running]
    ready := fun u => by
      rw [hready.mem_iff, List.mem_cons, hq.ready, hstatus]
      by_cases hu : u = t
      · simp [hu, hti]
      · simp [hu]
    readyOnce := by
      rw [hready.nodup_iff, List.nodup_cons, hq.ready, htb]
      exact ⟨by simp, hq.readyOnce⟩
    waiting := fun k u => by
      rw [hw]
      refine (hq.waiting k u).trans ?_
      rw [hne]
      simp
    waitingOnce := hq.waitingOnce
    sleeping := fun u => by
      rw [hs]
      refine (hq.sleeping u).trans ?_
      rw [hne]
      simp
    sleepingOnce := hq.sleepingOnce
    free := fun _ h => nomatch h
    born := fun u v hv => by
      rw [hbirths] at hv
      rw [hstatus, htodo, if_neg (fun h : v = t => htn u (h ▸ hv))]
      exact hq.born u v hv
    bornOnce := fun u => by rw [hbirths]; exact hq.bornOnce u
    bornHere := fun u v w hu hv => by
      rw [hbirths] at hu hv
      exact hq.bornHere u v w hu hv
    placed := fun u hu hidle => by
      rw [hstatus] at hu
      have hut : u ≠ t := fun h => by
        rw [if_pos h] at hu
        cases hu
      rw [if_neg hut] at hu
      simp only [hw, hs, hp, hbirths, and_iff_left hut]
      rcases hq.placed u hu hidle with hf | hf
      · exact absurd hf ((hne u).mpr hut)
      · exact .inr hf
    own := fun u x hx => by
      rw [htodo] at hx
      exact hq.own u x hx
    fresh := fun u hu => by
      rw [hstatus, htodo, if_neg (fun h : u = t => Nat.not_le.mpr htc (h ▸ hu))]
      exact hq.fresh u hu
    idle := by
      rw [hstatus, htodo, if_neg hti.symm]
      exact hq.idle }

/-- The next thread is taken from the ready queue and runs. -/
theorem Queued.schedule (hq : Queued s none none) :
    Queued s.schedule (some s.schedule.running) none := by
  have hmem : s.schedule.running ∈ s.readyList ∨ s.schedule.running = idleThread := by
    rw [Sys.schedule_running]
    cases s.readyList with
    | nil => exact .inr rfl
    | cons t rest => exact .inl List.mem_cons_self
  have hrest : ∀ u, u ∈ s.schedule.readyList ↔ u ∈ s.readyList ∧ u ≠ s.schedule.running := by
    intro u
    have hi : idleThread ∉ s.readyList := fun h => ((hq.ready _).mp h).2 rfl
    have hnd := hq.readyOnce
    rw [Sys.schedule_readyList, Sys.schedule_running]
    cases hl : s.readyList with
    | nil => simp
    | cons t rest =>
      rw [hl, List.nodup_cons] at hnd
      simp only [List.tail_cons, List.mem_cons, List.head?_cons, Option.getD_some]
      exact ⟨fun hu => ⟨.inr hu, fun h => hnd.1 (h ▸ hu)⟩, fun hu => hu.1.resolve_left hu.2⟩
  have hstatus : ∀ u, (s.schedule.thread u).status =
      if u = s.schedule.running then .running else (s.thread u).status := by
    intro u
    rw [Sys.schedule_thread]
    split <;> rfl
  have htodo : ∀ u, (s.schedule.thread u).todo = (s.thread u).todo := by
    intro u
    rw [Sys.schedule_thread]
    split <;> rfl
  have hbirths : ∀ u, births s.schedule u = births s u := fun u => by rw [births, htodo, births]
  -- the idle thread is the only one that may be blocked and yet run next
  have hnb : ∀ u, u = s.schedule.running → (s.thread u).todo ≠ [] →
      (s.thread u).status ≠ .blocked := by
    rintro u rfl ht hb
    rcases hmem with hmem | hmem
    · rw [((hq.ready _).mp hmem).1] at hb
      cases hb
    · rw [hmem, hq.idle.1] at ht
      exact ht rfl
  have hat : ∀ u i, BlockedAt s.schedule u i ↔ BlockedAt s u i := by
    intro u i
    rw [BlockedAt, BlockedAt, hstatus, htodo]
    split
    · next hu =>
      refine iff_of_false (fun h => nomatch h.1) fun h => hnb u hu (fun hn => ?_) h.1
      rw [hn] at h
      cases h.2
    · rfl
  have hw : ∀ u k, Waits s.schedule u k ↔ Waits s u k := fun u k => hat u (.retest k)
  have hs : ∀ u, Sleeps s.schedule u ↔ Sleeps s u := fun u => hat u .awake
  have hp : ∀ u, Parked s.schedule u ↔ Parked s u := fun u => hat u .unblocked
  have hnone : ∀ u, (s.thread u).status ≠ .running := fun u h => nomatch (hq.running u).mp h
  exact {
    running := fun u => by
      rw [hstatus]
      by_cases hu : u = s.schedule.running
      · simp [hu]
      · simp [hu, hnone, Ne.symm hu]
    ready := fun u => by
      rw [hstatus, hrest, hq.ready]
      by_cases hu : u = s.schedule.running <;> simp [hu]
    readyOnce := by
      rw [Sys.schedule_readyList]
      exact hq.readyOnce.tail
    waiting := fun k u => by
      rw [hw, Sys.schedule_sema]
      exact hq.waiting k u
    waitingOnce := fun k => by rw [Sys.schedule_sema]; exact hq.waitingOnce k
    sleeping := fun u => by
      rw [hs, Sys.schedule_waitingThreads]
      exact hq.sleeping u
    sleepingOnce := by rw [Sys.schedule_waitingThreads]; exact hq.sleepingOnce
    free := fun _ h => nomatch h
    born := fun u v hv => by
      rw [hbirths] at hv
      obtain ⟨h1, h2, h3, h4⟩ := hq.born u v hv
      rw [hstatus, htodo, Sys.schedule_created, if_neg]
      · exact ⟨h1, h2, h3, h4⟩
      · intro h
        rcases hmem with hmem | hmem
        · rw [← h, hq.ready, h1] at hmem
          cases hmem.1
        · exact h3 (h.trans hmem)
    bornOnce := fun u => by rw [hbirths]; exact hq.bornOnce u
    bornHere := fun u v w hu hv => by
      rw [hbirths] at hu hv
      exact hq.bornHere u v w hu hv
    placed := fun u hu hi => by
      rw [hstatus] at hu
      split at hu
      · cases hu
      · simp only [hw, hs, hp, hbirths]
        exact hq.placed u hu hi
    own := fun u x hx => by
      rw [htodo] at hx
      exact hq.own u x hx
    fresh := fun u hu => by
      rw [Sys.schedule_created] at hu
      obtain ⟨h1, h2⟩ := hq.fresh u hu
      rw [hstatus, htodo, if_neg]
      · exact ⟨h1, h2⟩
      · intro h
        rcases hmem with hmem | hmem
        · rw [← h, hq.ready, h1] at hmem
          cases hmem.1
        · rw [h.trans hmem] at h1
          exact hq.idle.2.1 h1
    idle := by
      rw [hstatus, htodo, Sys.schedule_created]
      refine ⟨hq.idle.1, ?_, hq.idle.2.2⟩
      split
      · simp
      · exact hq.idle.2.1 }

/-- The running thread takes on another status, and is put where that belongs. -/
structure Leaves (s s' : Sys) (st : Status) : Prop where
  notRunning : st ≠ .running
  created : s'.created = s.created
  status : ∀ t, (s'.thread t).status = if t = s.running then st else (s.thread t).status
  todo : ∀ t, t ≠ s.running → (s'.thread t).todo = (s.thread t).todo
  births : births s' s.running = births s s.running
  own : ∀ x, .down (.waiter x) ∈ (s'.thread s.running).todo ∨
    .retest (.waiter x) ∈ (s'.thread s.running).todo → x = s.running
  ready : s'.readyList.Perm
    (if st = .ready ∧ s.running ≠ idleThread then s.running :: s.readyList else s.readyList)
  waiters : ∀ k t, t ∈ (s'.sema k).waiters ↔
    t ∈ (s.sema k).waiters ∨ t = s.running ∧ Waits s' t k
  waitersOnce : ∀ k, (s'.sema k).waiters.Nodup
  sleeping : ∀ t, t ∈ s'.waitingThreads ↔ t ∈ s.waitingThreads ∨ t = s.running ∧ Sleeps s' t
  sleepingOnce : s'.waitingThreads.Nodup
  placed : st = .blocked → s.running ≠ idleThread →
    (∃ k, Waits s' s.running k) ∨ Sleeps s' s.running ∨ Parked s' s.running
  idle : s.running = idleThread → (s'.thread idleThread).todo = [] ∧ st ≠ .dying

theorem Queued.leaves {st : Status} (hq : Queued s (some s.running) none) (h : Leaves s s' st) :
    Queued s' none none := by
  have hrun : (s.thread s.running).status = .running := (hq.running s.running).mpr rfl
  have hnot : ∀ t, (s.thread t).status ≠ .running → t ≠ s.running := fun t ht htr => ht (htr ▸ hrun)
  have hbirths : ∀ u, Schedule.births s' u = Schedule.births s u := by
    intro u
    by_cases hu : u = s.running
    · rw [hu, h.births]
    · rw [Schedule.births, h.todo u hu, Schedule.births]
  have hat : ∀ t i, t ≠ s.running → (BlockedAt s' t i ↔ BlockedAt s t i) := by
    intro t i ht
    rw [BlockedAt, BlockedAt, h.status, h.todo t ht, if_neg ht]
  have hw : ∀ t k, t ≠ s.running → (Waits s' t k ↔ Waits s t k) := fun t k => hat t (.retest k)
  have hs : ∀ t, t ≠ s.running → (Sleeps s' t ↔ Sleeps s t) := fun t => hat t .awake
  have hp : ∀ t, t ≠ s.running → (Parked s' t ↔ Parked s t) := fun t => hat t .unblocked
  -- a running thread is in no queue, so that nothing is lost with its status
  have hwr : ∀ k, s.running ∉ (s.sema k).waiters := fun k hk => by
    have hb := ((hq.waiting k _).mp hk).1.1
    rw [hrun] at hb
    cases hb
  have hsr : s.running ∉ s.waitingThreads := fun hk => by
    have hb := ((hq.sleeping _).mp hk).1.1
    rw [hrun] at hb
    cases hb
  have hrr : s.running ∉ s.readyList := fun hk => by
    have hb := ((hq.ready _).mp hk).1
    rw [hrun] at hb
    cases hb
  exact {
    running := fun t => by
      rw [h.status]
      by_cases ht : t = s.running
      · simp [ht, h.notRunning]
      · simp [ht, hq.running, Ne.symm ht]
    ready := fun t => by
      rw [h.ready.mem_iff, h.status]
      by_cases ht : t = s.running
      · rw [ht, if_pos rfl]
        split
        · next hr => simp [hr]
        · next hr => simp [hrr, hr]
      · rw [if_neg ht, ← hq.ready]
        split <;> simp [ht]
    readyOnce := by
      rw [h.ready.nodup_iff]
      split
      · exact List.nodup_cons.mpr ⟨hrr, hq.readyOnce⟩
      · exact hq.readyOnce
    waiting := fun k t => by
      rw [h.waiters]
      by_cases ht : t = s.running
      · simp [ht, hwr]
      · simp [ht, hw, hq.waiting]
    waitingOnce := h.waitersOnce
    sleeping := fun t => by
      rw [h.sleeping]
      by_cases ht : t = s.running
      · simp [ht, hsr]
      · simp [ht, hs, hq.sleeping]
    sleepingOnce := h.sleepingOnce
    free := fun _ hf => nomatch hf
    born := fun u t ht => by
      rw [hbirths] at ht
      obtain ⟨h1, h2, h3, h4⟩ := hq.born u t ht
      have ht' : t ≠ s.running := hnot t (by rw [h1]; simp)
      rw [h.status, if_neg ht', h.todo t ht', h.created]
      exact ⟨h1, h2, h3, h4⟩
    bornOnce := fun u => by rw [hbirths]; exact hq.bornOnce u
    bornHere := fun u v t hu hv => by
      rw [hbirths] at hu hv
      exact hq.bornHere u v t hu hv
    placed := fun t ht hi => by
      rw [h.status] at ht
      by_cases htr : t = s.running
      · rw [if_pos htr] at ht
        rw [htr] at hi ⊢
        exact .inr ((h.placed ht hi).imp_right (Or.imp_right .inl))
      · rw [if_neg htr] at ht
        simp only [hw t _ htr, hs t htr, hp t htr, hbirths]
        exact hq.placed t ht hi
    own := fun u x hx => by
      by_cases hu : u = s.running
      · rw [hu] at hx ⊢
        exact h.own x hx
      · rw [h.todo u hu] at hx
        exact hq.own u x hx
    fresh := fun t ht => by
      rw [h.created] at ht
      obtain ⟨h1, h2⟩ := hq.fresh t ht
      have ht' : t ≠ s.running := hnot t (by rw [h1]; simp)
      rw [h.status, if_neg ht', h.todo t ht']
      exact ⟨h1, h2⟩
    idle := by
      rw [h.status, h.created]
      by_cases hi : s.running = idleThread
      · rw [if_pos hi.symm]
        exact ⟨(h.idle hi).1, (h.idle hi).2, hq.idle.2.2⟩
      · rw [if_neg (Ne.symm hi), h.todo _ (Ne.symm hi)]
        exact hq.idle }

/-! ## The functions of the scheduler -/

theorem Queued.status_running (hq : Queued s (some s.running) loose) :
    (s.thread s.running).status = .running := (hq.running s.running).mpr rfl

theorem Queued.not_waiting (hq : Queued s (some s.running) loose) :
    s.running ∉ (s.sema k).waiters := fun hk => by
  have hb := ((hq.waiting k _).mp hk).1.1
  rw [hq.status_running] at hb
  cases hb

theorem Queued.threadYield (hq : Queued s (some s.running) none) :
    Queued s.threadYield (some s.threadYield.running) none := by
  rw [Sys.threadYield_eq]
  have hstatus : ∀ t, (s.offered.thread t).status =
      if t = s.running then .ready else (s.thread t).status := by
    intro t
    rw [Sys.offered_thread]
    split <;> rfl
  have htodo : ∀ t, (s.offered.thread t).todo = (s.thread t).todo := by
    intro t
    rw [Sys.offered_thread]
    split <;> rfl
  refine (hq.leaves (?_ : Leaves s _ .ready)).schedule
  exact {
    notRunning := by simp
    created := s.offered_created
    status := hstatus
    todo := fun t _ => htodo t
    births := by rw [births, htodo, births]
    own := fun x hx => by
      rw [htodo] at hx
      exact hq.own s.running x hx
    ready := by
      rw [Sys.offered_readyList]
      by_cases hi : s.running = idleThread
      · simp [hi]
      · simpa [hi] using listInsertOrdered_perm _ _ _
    waiters := fun k t => by
      rw [Sys.offered_sema, or_iff_left]
      rintro ⟨rfl, hw⟩
      rw [Waits, hstatus, if_pos rfl] at hw
      cases hw.1
    waitersOnce := fun k => by rw [Sys.offered_sema]; exact hq.waitingOnce k
    sleeping := fun t => by
      rw [Sys.offered_waitingThreads, or_iff_left]
      rintro ⟨rfl, hw⟩
      rw [Sleeps, hstatus, if_pos rfl] at hw
      cases hw.1
    sleepingOnce := by rw [Sys.offered_waitingThreads]; exact hq.sleepingOnce
    placed := fun h => nomatch h
    idle := fun _ => ⟨by rw [htodo]; exact hq.idle.1, by simp⟩ }

/-- The loop of `sema_down`. -/
theorem Queued.semaDown (hq : Queued s (some s.running) none) (hidle : s.running ≠ idleThread)
    (hown : ∀ x, k = .waiter x → x = s.running) :
    Queued (s.semaDown k) (some (s.semaDown k).running) none := by
  by_cases hv : (s.sema k).value = 0
  · rw [Sys.semaDown_zero hv]
    have hrun : (s.waitOn k).thread s.running = { s.thread s.running with
        status := .blocked, todo := .retest k :: (s.thread s.running).todo } := by
      rw [Sys.waitOn_thread, if_pos rfl]
    have hwaits : ∀ j, Waits (s.waitOn k) s.running j ↔ j = k := by
      intro j
      rw [Waits, hrun]
      simp [eq_comm]
    -- the thread goes to the waiters of the semaphore and gives up the processor
    refine (hq.leaves (?_ : Leaves s _ .blocked)).schedule
    refine {
      notRunning := by simp
      created := rfl
      status := fun t => ?_
      todo := fun t ht => by rw [Sys.waitOn_thread, if_neg ht]
      births := ?_
      own := fun x hx => ?_
      ready := List.Perm.refl _
      waiters := fun j t => ?_
      waitersOnce := fun j => ?_
      sleeping := fun t => ?_
      sleepingOnce := hq.sleepingOnce
      placed := fun _ _ => .inl ⟨k, (hwaits k).mpr rfl⟩
      idle := fun hi => absurd hi hidle }
    · rw [Sys.waitOn_thread]
      split <;> rfl
    · rw [births, births, hrun]
      rfl
    · simp only [hrun, List.mem_cons, reduceCtorEq, false_or, Instr.retest.injEq] at hx
      rcases hx with hx | hx | hx
      · exact hq.own _ x (.inl hx)
      · exact hown x hx.symm
      · exact hq.own _ x (.inr hx)
    · rw [Sys.waitOn_sema]
      by_cases hj : j = k
      · rw [if_pos hj, hj, mem_listInsertOrdered, or_comm]
        refine or_congr_right (and_iff_left_of_imp ?_).symm
        rintro rfl
        exact (hwaits k).mpr rfl
      · rw [if_neg hj, or_iff_left]
        rintro ⟨rfl, hw⟩
        exact hj ((hwaits j).mp hw)
    · rw [Sys.waitOn_sema]
      split
      · exact (listInsertOrdered_perm _ _ _).nodup_iff.mpr
          (List.nodup_cons.mpr ⟨hq.not_waiting, hq.waitingOnce k⟩)
      · exact hq.waitingOnce j
    · rw [Sys.waitOn_waitingThreads, or_iff_left]
      rintro ⟨rfl, hs⟩
      rw [Sleeps, hrun] at hs
      cases hs.2
  · rw [Sys.semaDown_pos hv]
    refine hq.unmoved ?_
    exact {
      created := rfl
      running := rfl
      ready := List.Perm.refl _
      waiters := fun j => by
        rw [Sys.setSema_sema]
        split
        · next hj => rw [hj]
        · rfl
      sleeping := rfl
      status := fun _ => rfl
      todo := fun _ _ => rfl
      births := rfl
      own := fun x hx => hx.imp_right .inl
      idle := fun _ => rfl }

/-- The end of `timer_sleep`. -/
theorem Queued.timerSleep (hq : Queued s (some s.running) none) (hidle : s.running ≠ idleThread)
    (n : Int) : Queued (s.timerSleep n) (some (s.timerSleep n).running) none := by
  rw [Sys.timerSleep_eq]
  have hrun : (s.drowse n).thread s.running = { s.thread s.running with
      status := .blocked, ticksWake := s.ticks + n
      todo := .awake :: (s.thread s.running).todo } := by
    rw [Sys.drowse_thread, if_pos rfl]
  have hsleeps : Sleeps (s.drowse n) s.running := by
    rw [Sleeps, hrun]
    simp
  have hsr : s.running ∉ s.waitingThreads := fun hk => by
    have hb := ((hq.sleeping _).mp hk).1.1
    rw [hq.status_running] at hb
    cases hb
  refine (hq.leaves (?_ : Leaves s _ .blocked)).schedule
  refine {
    notRunning := by simp
    created := rfl
    status := fun t => ?_
    todo := fun t ht => by rw [Sys.drowse_thread, if_neg ht]
    births := ?_
    own := fun x hx => ?_
    ready := List.Perm.refl _
    waiters := fun j t => ?_
    waitersOnce := hq.waitingOnce
    sleeping := fun t => ?_
    sleepingOnce := ?_
    placed := fun _ _ => .inr (.inl hsleeps)
    idle := fun hi => absurd hi hidle }
  · rw [Sys.drowse_thread]
    split <;> rfl
  · rw [births, births, hrun]
    rfl
  · simp only [hrun, List.mem_cons, reduceCtorEq, false_or] at hx
    exact hq.own _ x hx
  · rw [Sys.drowse_sema, or_iff_left]
    rintro ⟨rfl, hw⟩
    rw [Waits, hrun] at hw
    cases hw.2
  · rw [(Sys.drowse_waitingThreads n).mem_iff, List.mem_cons, or_comm]
    refine or_congr_right (and_iff_left_of_imp ?_).symm
    rintro rfl
    exact hsleeps
  · exact (Sys.drowse_waitingThreads n).nodup_iff.mpr (List.nodup_cons.mpr ⟨hsr, hq.sleepingOnce⟩)

/-- `thread_block`. -/
theorem Queued.threadBlock (hq : Queued s (some s.running) none) (hidle : s.running ≠ idleThread) :
    Queued (s.push [.unblocked]).threadBlock (some (s.push [.unblocked]).threadBlock.running)
      none := by
  rw [Sys.threadBlock_eq]
  have hrun : s.park.thread s.running = { s.thread s.running with
      status := .blocked, todo := .unblocked :: (s.thread s.running).todo } := by
    rw [Sys.park_thread, if_pos rfl]
  have hparked : Parked s.park s.running := by
    rw [Parked, hrun]
    simp
  refine (hq.leaves (?_ : Leaves s _ .blocked)).schedule
  refine {
    notRunning := by simp
    created := rfl
    status := fun t => ?_
    todo := fun t ht => by rw [Sys.park_thread, if_neg ht]
    births := ?_
    own := fun x hx => ?_
    ready := List.Perm.refl _
    waiters := fun j t => ?_
    waitersOnce := hq.waitingOnce
    sleeping := fun t => ?_
    sleepingOnce := hq.sleepingOnce
    placed := fun _ _ => .inr (.inr hparked)
    idle := fun hi => absurd hi hidle }
  · rw [Sys.park_thread]
    split <;> rfl
  · rw [births, births, hrun]
    rfl
  · simp only [hrun, List.mem_cons, reduceCtorEq, false_or] at hx
    exact hq.own _ x hx
  · refine (or_iff_left ?_).symm
    rintro ⟨rfl, hw⟩
    rw [Waits, hrun] at hw
    cases hw.2
  · refine (or_iff_left ?_).symm
    rintro ⟨rfl, hs⟩
    rw [Sleeps, hrun] at hs
    cases hs.2

/-- A thread that has called `thread_block` itself is in no queue, and can be unblocked. -/
theorem Queued.unpark (hq : Queued s act none) (ht : Parked s t) : Queued s act (some t) := by
  obtain ⟨htb, hth⟩ := ht
  have hne : (s.thread t).todo ≠ [] := fun h => by
    rw [h] at hth
    cases hth
  have hnot : ∀ u i, BlockedAt s u i → i ≠ .unblocked → some t ≠ some u := by
    rintro u i ⟨-, hi⟩ hiu ⟨⟩
    rw [hth] at hi
    exact hiu (Option.some.inj hi).symm
  exact { hq with
    waiting := fun k u => by
      refine (hq.waiting k u).trans (and_congr_right fun hw => ?_)
      simpa using hnot u _ hw (by simp)
    sleeping := fun u => by
      refine (hq.sleeping u).trans (and_congr_right fun hs => ?_)
      simpa using hnot u _ hs (by simp)
    free := by
      rintro _ ⟨⟩
      refine ⟨htb, fun hi => hne (hi ▸ hq.idle.1), ?_, fun u hu => hne (hq.born u t hu).2.1⟩
      by_contra hc
      exact hne (hq.fresh t (Nat.not_lt.mp hc)).2
    placed := fun u hu hi => .inr ((hq.placed u hu hi).resolve_left fun h => nomatch h) }

/-- The end of `thread_exit`, and `thread_block` in `idle`. -/
theorem Queued.off {st : Status} (hq : Queued s (some s.running) none) (l : List Tid)
    (hst : st = .dying ∧ s.running ≠ idleThread ∨ st = .blocked ∧ s.running = idleThread) :
    Queued ({ s with allList := l }.setThread s.running fun t => { t with status := st }) none
      none := by
  refine hq.leaves (?_ : Leaves s _ st)
  have hstatus : ∀ t, (({ s with allList := l }.setThread s.running fun t =>
      { t with status := st }).thread t).status =
        if t = s.running then st else (s.thread t).status := by
    intro t
    rw [Sys.setThread_thread]
    split <;> rfl
  have htodo : ∀ t, (({ s with allList := l }.setThread s.running fun t =>
      { t with status := st }).thread t).todo = (s.thread t).todo :=
    fun t => Sys.setThread_field (·.todo) t fun _ => rfl
  have hhead : st = .blocked → (s.thread s.running).todo = [] := by
    rcases hst with ⟨h, -⟩ | ⟨-, h⟩
    · rw [h]
      exact fun hf => nomatch hf
    · rw [h]
      exact fun _ => hq.idle.1
  exact {
    notRunning := by rcases hst with ⟨h, -⟩ | ⟨h, -⟩ <;> simp [h]
    created := rfl
    status := hstatus
    todo := fun t _ => htodo t
    births := by rw [births, htodo, births]
    own := fun x hx => by
      rw [htodo] at hx
      exact hq.own _ x hx
    ready := by rcases hst with ⟨h, -⟩ | ⟨h, -⟩ <;> simp [h]
    waiters := fun k t => by
      refine (or_iff_left ?_).symm
      rintro ⟨rfl, hw⟩
      rw [Waits, hstatus, htodo, if_pos rfl] at hw
      rw [hhead hw.1] at hw
      cases hw.2
    waitersOnce := hq.waitingOnce
    sleeping := fun t => by
      refine (or_iff_left ?_).symm
      rintro ⟨rfl, hw⟩
      rw [Sleeps, hstatus, htodo, if_pos rfl] at hw
      rw [hhead hw.1] at hw
      cases hw.2
    sleepingOnce := hq.sleepingOnce
    placed := fun hb hi => by
      rcases hst with ⟨h, -⟩ | ⟨-, h⟩
      · rw [h] at hb
        cases hb
      · exact absurd h hi
    idle := fun hi => by
      rcases hst with ⟨-, h⟩ | ⟨h, -⟩
      · exact absurd hi h
      · exact ⟨by rw [htodo]; exact hq.idle.1, by simp [h]⟩ }

/-- The thread in front of a queue is taken from it. -/
theorem Queued.take (hq : Queued s act none) {rest : List Tid} {v : Nat}
    (hw : (s.sema k).waiters.Perm (t :: rest)) :
    Queued (s.setSema k fun _ => ⟨v, rest⟩) act (some t) := by
  have hsema : ∀ j, (s.setSema k fun _ => ⟨v, rest⟩).sema j =
      if j = k then ⟨v, rest⟩ else s.sema j := fun j => Sys.setSema_sema _ _ _ _
  have hmem : t ∈ (s.sema k).waiters := hw.mem_iff.mpr List.mem_cons_self
  obtain ⟨htb, hth⟩ := ((hq.waiting k t).mp hmem).1
  have hnd := hw.nodup_iff.mp (hq.waitingOnce k)
  rw [List.nodup_cons] at hnd
  -- a thread that waits has something left to do, unlike the idle thread and a new one
  have hti : t ≠ idleThread := fun h => by
    rw [h, hq.idle.1] at hth
    cases hth
  have hnb : ∀ u, t ∉ births s u := fun u hu => by
    rw [(hq.born u t hu).2.1] at hth
    cases hth
  exact {
    running := hq.running
    ready := hq.ready
    readyOnce := hq.readyOnce
    waiting := fun j u => by
      rw [hsema]
      by_cases hj : j = k
      · rw [if_pos hj, hj]
        have hiff : u ∈ (s.sema k).waiters ↔ Waits s u k ∧ none ≠ some u := hq.waiting k u
        rw [hw.mem_iff, List.mem_cons] at hiff
        by_cases hu : u = t
        · rw [hu]
          exact iff_of_false hnd.1 fun h => h.2 rfl
        · rw [or_iff_right hu] at hiff
          rw [hiff]
          simp [Waits, Ne.symm hu]
      · rw [if_neg hj]
        refine (hq.waiting j u).trans (and_congr_right fun hwu => ?_)
        simp only [ne_eq, reduceCtorEq, not_false_eq_true, Option.some.injEq, true_iff]
        rintro rfl
        have hjk := hwu.2
        rw [hth] at hjk
        exact hj (by simpa using hjk.symm)
    waitingOnce := fun j => by
      rw [hsema]
      split
      · exact hnd.2
      · exact hq.waitingOnce j
    sleeping := fun u => by
      refine (hq.sleeping u).trans (and_congr_right fun hsu => ?_)
      simp only [ne_eq, reduceCtorEq, not_false_eq_true, Option.some.injEq, true_iff]
      rintro rfl
      have hjk := hsu.2
      rw [hth] at hjk
      cases hjk
    sleepingOnce := hq.sleepingOnce
    free := by
      rintro _ ⟨⟩
      refine ⟨htb, hti, ?_, hnb⟩
      by_contra hc
      rw [(hq.fresh t (Nat.not_lt.mp hc)).2] at hth
      cases hth
    born := hq.born
    bornOnce := hq.bornOnce
    bornHere := hq.bornHere
    placed := fun u hu hi => .inr ((hq.placed u hu hi).resolve_left fun h => nomatch h)
    own := hq.own
    fresh := hq.fresh
    idle := hq.idle }

theorem Queued.semaWake (hq : Queued s act none) : Queued (s.semaWake k) act none := by
  unfold Sys.semaWake
  split
  · next hl =>
    rw [listSort_eq_nil] at hl
    have hw : ∀ j, ((s.setSema k fun m =>
        { m with value := (m.value + 1) % uintSize }).sema j).waiters =
        (s.sema j).waiters := by
      intro j
      rw [Sys.setSema_sema]
      split
      · next hj => rw [hj]
      · rfl
    exact { hq with
      waiting := fun j t => by rw [hw]; exact hq.waiting j t
      waitingOnce := fun j => by rw [hw]; exact hq.waitingOnce j }
  · next t rest hl =>
    have hp := listSort_perm s.threadCmpPriority (s.sema k).waiters
    rw [hl] at hp
    exact (hq.take hp.symm).threadUnblock

/-- `sema_up`. -/
theorem Queued.semaUp (hq : Queued s (some s.running) none) :
    Queued (s.semaUp k) (some (s.semaUp k).running) none := by
  have hrun : (s.semaWake k).running = s.running := by
    unfold Sys.semaWake
    split <;> rfl
  have h := hq.semaWake (k := k)
  rw [← hrun] at h
  exact h.threadYield

/-! ## The timer interrupt -/

/-- The thread in front of the sleep queue is taken from it. -/
theorem Queued.rouse (hq : Queued s act none) {rest : List Tid} (hl : s.waitingThreads = t :: rest) :
    Queued { s with waitingThreads := rest } act (some t) := by
  have hmem : t ∈ s.waitingThreads := by rw [hl]; exact List.mem_cons_self
  obtain ⟨htb, hth⟩ := ((hq.sleeping t).mp hmem).1
  have hnd := hq.sleepingOnce
  rw [hl, List.nodup_cons] at hnd
  have hti : t ≠ idleThread := fun h => by
    rw [h, hq.idle.1] at hth
    cases hth
  exact {
    running := hq.running
    ready := hq.ready
    readyOnce := hq.readyOnce
    waiting := fun k u => by
      refine (hq.waiting k u).trans (and_congr_right fun hwu => ?_)
      simp only [ne_eq, reduceCtorEq, not_false_eq_true, Option.some.injEq, true_iff]
      rintro rfl
      have hjk := hwu.2
      rw [hth] at hjk
      cases hjk
    waitingOnce := hq.waitingOnce
    sleeping := fun u => by
      have hiff := hq.sleeping u
      rw [hl, List.mem_cons] at hiff
      by_cases hu : u = t
      · rw [hu]
        exact iff_of_false hnd.1 fun h => h.2 rfl
      · rw [or_iff_right hu] at hiff
        refine hiff.trans ?_
        simp [Sleeps, Ne.symm hu]
    sleepingOnce := hnd.2
    free := by
      rintro _ ⟨⟩
      refine ⟨htb, hti, ?_, fun u hu => ?_⟩
      · show t < s.created
        by_contra hc
        rw [(hq.fresh t (Nat.not_lt.mp hc)).2] at hth
        cases hth
      · have hnil := (hq.born u t hu).2.1
        rw [hnil] at hth
        cases hth
    born := hq.born
    bornOnce := hq.bornOnce
    bornHere := hq.bornHere
    placed := fun u hu hi => .inr ((hq.placed u hu hi).resolve_left fun h => nomatch h)
    own := hq.own
    fresh := hq.fresh
    idle := hq.idle }

theorem Queued.wakeThreads {ts : List Tid} (hq : Queued s act none) (hts : ts = s.waitingThreads) :
    Queued (Sys.wakeThreads ts s) act none := by
  induction ts generalizing s with
  | nil => exact hq
  | cons t rest ih =>
    rw [Sys.wakeThreads]
    split
    · exact ih (hq.rouse hts.symm).threadUnblock rfl
    · exact hq

/-- A thread's status and what it has left to do do not depend on anything else in it. -/
theorem Unmoved.of_thread {s' : Sys} (hcreated : s'.created = s.created)
    (hrunning : s'.running = s.running) (hready : s'.readyList.Perm s.readyList)
    (hwaiters : ∀ k, (s'.sema k).waiters = (s.sema k).waiters)
    (hsleeping : s'.waitingThreads = s.waitingThreads)
    (hstatus : ∀ t, (s'.thread t).status = (s.thread t).status)
    (htodo : ∀ t, (s'.thread t).todo = (s.thread t).todo) : Unmoved s s' where
  created := hcreated
  running := hrunning
  ready := hready
  waiters := hwaiters
  sleeping := hsleeping
  status := hstatus
  todo t _ := htodo t
  births := by
    show (s'.thread s.running).todo.filterMap _ = _
    rw [htodo]
    rfl
  own x hx := by
    rw [htodo] at hx
    exact hx.imp_right .inl
  idle _ := htodo _

theorem Unmoved.trans {s'' : Sys} (h : Unmoved s s') (h' : Unmoved s' s'') : Unmoved s s'' where
  created := h'.created.trans h.created
  running := h'.running.trans h.running
  ready := h'.ready.trans h.ready
  waiters k := (h'.waiters k).trans (h.waiters k)
  sleeping := h'.sleeping.trans h.sleeping
  status t := (h'.status t).trans (h.status t)
  todo t ht := (h'.todo t (h.running ▸ ht)).trans (h.todo t ht)
  births := by
    have hb := h'.births
    rw [h.running] at hb
    exact hb.trans h.births
  own x hx := by
    have ho := h'.own x
    rw [h.running] at ho
    rcases ho hx with hd | hr | hx
    · exact h.own x (.inl hd)
    · exact h.own x (.inr hr)
    · exact .inr (.inr hx)
  idle hi := (h'.idle (h.running.trans hi)).trans (h.idle hi)

theorem Unmoved.setThread (f : Thread → Thread) (hstatus : ∀ r, (f r).status = r.status)
    (htodo : ∀ r, (f r).todo = r.todo) : Unmoved s (s.setThread t f) :=
  .of_thread rfl rfl (.refl _) (fun _ => rfl) rfl
    (fun u => Sys.setThread_field (·.status) u hstatus) fun u => Sys.setThread_field (·.todo) u htodo

theorem Unmoved.setLock (f : Lock → Lock) : Unmoved s (s.setLock l f) :=
  .of_thread rfl rfl (.refl _) (fun _ => rfl) rfl (fun _ => rfl) fun _ => rfl

theorem Unmoved.refl (s : Sys) : Unmoved s s :=
  .of_thread rfl rfl (.refl _) (fun _ => rfl) rfl (fun _ => rfl) fun _ => rfl

theorem Sys.threadForeach_thread (s : Sys) (f : Thread → Thread) (t : Tid) :
    (s.threadForeach f).thread t =
      if t ∈ s.allList ∧ t ≠ idleThread then f (s.thread t) else s.thread t := rfl

/-- Only what MLFQS computes has changed. -/
structure Reckoned (s s' : Sys) : Prop where
  mlfqs : s'.mlfqs = s.mlfqs
  condLock : s'.condLock = s.condLock
  created : s'.created = s.created
  lock : s'.lock = s.lock
  sema : s'.sema = s.sema
  cond : s'.cond = s.cond
  readyList : s'.readyList = s.readyList
  waitingThreads : s'.waitingThreads = s.waitingThreads
  allList : s'.allList = s.allList
  running : s'.running = s.running
  ticks : s'.ticks = s.ticks
  threadTicks : s'.threadTicks = s.threadTicks
  thread : ∀ t, ∃ p r, s'.thread t = { s.thread t with priority := p, recentCpu := r }

theorem Reckoned.refl (s : Sys) : Reckoned s s :=
  ⟨rfl, rfl, rfl, rfl, rfl, rfl, rfl, rfl, rfl, rfl, rfl, rfl, fun _ => ⟨_, _, rfl⟩⟩

theorem Reckoned.trans {s'' : Sys} (h : Reckoned s s') (h' : Reckoned s' s'') : Reckoned s s'' where
  mlfqs := h'.mlfqs.trans h.mlfqs
  condLock := h'.condLock.trans h.condLock
  created := h'.created.trans h.created
  lock := h'.lock.trans h.lock
  sema := h'.sema.trans h.sema
  cond := h'.cond.trans h.cond
  readyList := h'.readyList.trans h.readyList
  waitingThreads := h'.waitingThreads.trans h.waitingThreads
  allList := h'.allList.trans h.allList
  running := h'.running.trans h.running
  ticks := h'.ticks.trans h.ticks
  threadTicks := h'.threadTicks.trans h.threadTicks
  thread t := by
    obtain ⟨p, r, ht⟩ := h.thread t
    obtain ⟨p', r', ht'⟩ := h'.thread t
    exact ⟨p', r', by rw [ht', ht]⟩

theorem Reckoned.threadForeach (f : Thread → Thread)
    (hf : ∀ t, ∃ p r, f t = { t with priority := p, recentCpu := r }) :
    Reckoned s (s.threadForeach f) := by
  refine ⟨rfl, rfl, rfl, rfl, rfl, rfl, rfl, rfl, rfl, rfl, rfl, rfl, fun t => ?_⟩
  by_cases ht : t ∈ s.allList ∧ t ≠ idleThread
  · rw [Sys.threadForeach_thread, if_pos ht]
    exact hf _
  · rw [Sys.threadForeach_thread, if_neg ht]
    exact ⟨_, _, rfl⟩

theorem Reckoned.mlfqsTick (s : Sys) : Reckoned s s.mlfqsTick := by
  have h1 : Reckoned s s.mlfqsIncreaseRunningRecentCpu := by
    unfold Sys.mlfqsIncreaseRunningRecentCpu
    split
    · refine ⟨rfl, rfl, rfl, rfl, rfl, rfl, rfl, rfl, rfl, rfl, rfl, rfl, fun t => ?_⟩
      rw [Sys.setThread_thread]
      split
      · next ht => exact ⟨_, _, by rw [ht]⟩
      · exact ⟨_, _, rfl⟩
    · exact .refl s
  have h2 : ∀ s : Sys, Reckoned s (if s.ticks % timerFreq = 0 then
      s.mlfqsUpdateLoadAvg.threadForeach fun t =>
        { t with recentCpu := Sys.mlfqsRecentCpu s.mlfqsUpdateLoadAvg.loadAvg t } else s) := by
    intro s
    have h : Reckoned s s.mlfqsUpdateLoadAvg :=
      ⟨rfl, rfl, rfl, rfl, rfl, rfl, rfl, rfl, rfl, rfl, rfl, rfl, fun _ => ⟨_, _, rfl⟩⟩
    split
    · exact h.trans (.threadForeach _ fun t => ⟨_, _, rfl⟩)
    · exact .refl s
  have h3 : ∀ s : Sys, Reckoned s (if s.ticks % 4 = 0 then
      s.threadForeach fun t => { t with priority := Sys.mlfqsPriority t } else s) := by
    intro s
    split
    · exact .threadForeach _ fun t => ⟨_, _, rfl⟩
    · exact .refl s
  exact (h1.trans (h2 _)).trans (h3 _)

theorem Reckoned.status (h : Reckoned s s') (t : Tid) :
    (s'.thread t).status = (s.thread t).status := by
  obtain ⟨p, r, ht⟩ := h.thread t
  rw [ht]

theorem Reckoned.todo (h : Reckoned s s') (t : Tid) :
    (s'.thread t).todo = (s.thread t).todo := by
  obtain ⟨p, r, ht⟩ := h.thread t
  rw [ht]

theorem Reckoned.unmoved (h : Reckoned s s') : Unmoved s s' :=
  .of_thread h.created h.running (by rw [h.readyList]) (fun k => by rw [h.sema]) h.waitingThreads
    h.status h.todo

theorem wakeThreads_running (ts : List Tid) (s : Sys) :
    (Sys.wakeThreads ts s).running = s.running := by
  induction ts generalizing s with
  | nil => rfl
  | cons t rest ih =>
    rw [Sys.wakeThreads]
    split
    · exact ih _
    · rfl

theorem Queued.timerInterrupt (hq : Queued s (some s.running) none) :
    Queued s.timerInterrupt (some s.timerInterrupt.running) none := by
  obtain ⟨s₁, hs₁⟩ : ∃ s₁, s₁ = Sys.wakeThreads s.waitingThreads
      { s with ticks := s.ticks + 1, threadTicks := s.threadTicks + 1 } := ⟨_, rfl⟩
  have h : Queued s₁ (some s.running) none := by
    rw [hs₁]
    exact Queued.wakeThreads (s := { s with ticks := s.ticks + 1, threadTicks := s.threadTicks + 1 })
      { hq with } rfl
  have hr : s₁.running = s.running := by
    rw [hs₁]
    exact wakeThreads_running _ _
  have hti : s.timerInterrupt = if s₁.mlfqs then s₁.mlfqsTick else s₁ := by rw [hs₁]; rfl
  rw [← hr] at h
  rw [hti]
  split
  · exact h.unmoved (Reckoned.mlfqsTick _).unmoved
  · exact h

theorem Queued.tick (hq : Queued s (some s.running) none) :
    Queued s.tick (some s.tick.running) none := by
  unfold Sys.tick
  split
  · exact hq.timerInterrupt.threadYield
  · exact hq.timerInterrupt

/-! ## Instructions and calls -/

theorem Sys.push_thread (s : Sys) (is : List Instr) (u : Tid) : (s.push is).thread u =
    if u = s.running then { s.thread u with todo := is ++ (s.thread u).todo } else s.thread u := by
  rw [push, setThread_thread]
  split
  · next hu => rw [hu]
  · rfl

/-- The running thread gets more to do. -/
theorem Unmoved.push {is : List Instr} (hidle : s.running ≠ idleThread)
    (hborn : ∀ i ∈ is, i.born = none)
    (hown : ∀ x, .down (.waiter x) ∈ is ∨ .retest (.waiter x) ∈ is → x = s.running) :
    Unmoved s (s.push is) where
  created := rfl
  running := rfl
  ready := .refl _
  waiters _ := rfl
  sleeping := rfl
  status t := Sys.setThread_field (·.status) t fun _ => rfl
  todo t ht := by rw [Sys.push_thread, if_neg ht]
  births := by
    have hnil : is.filterMap Instr.born = [] := by
      rw [List.filterMap_eq_nil_iff]
      exact hborn
    simp [Schedule.births, Sys.push_thread, hnil]
  own x hx := by
    simp only [Sys.push_thread, if_true, List.mem_append] at hx
    rcases hx with (hx | hx) | hx | hx
    · exact .inr (.inr (hown x (.inl hx)))
    · exact .inl hx
    · exact .inr (.inr (hown x (.inr hx)))
    · exact .inr (.inl hx)
  idle hi := absurd hi hidle

/-- The value of a semaphore is changed. -/
theorem Unmoved.setValue (f : Nat → Nat) :
    Unmoved s (s.setSema k fun m => { m with value := f m.value }) :=
  .of_thread rfl rfl (.refl _) (fun j => by
    rw [Sys.setSema_sema]
    split
    · next hj => rw [hj]
    · rfl) rfl (fun _ => rfl) fun _ => rfl

theorem Unmoved.threadUpdatePriority : Unmoved s (s.threadUpdatePriority t) := by
  unfold Sys.threadUpdatePriority
  exact .setThread _ (fun _ => rfl) fun _ => rfl

theorem Unmoved.threadHoldTheLock : Unmoved s (s.threadHoldTheLock l) := by
  unfold Sys.threadHoldTheLock
  exact (Unmoved.setLock _).trans (.setThread _ (fun _ => rfl) fun _ => rfl)

theorem Unmoved.donated (s : Sys) (l : LockId) (t : Tid) : Unmoved s (s.donated l t) := by
  have hraise : Unmoved s (s.raise l t) := by
    unfold Sys.raise
    split
    · exact (Unmoved.setLock _).trans .threadUpdatePriority
    · exact .refl s
  refine hraise.trans ?_
  unfold Sys.donated
  split
  · exact .of_thread rfl rfl (listSort_perm _ _) (fun _ => rfl) rfl (fun _ => rfl) fun _ => rfl
  · exact .refl _

/-- A thread with something left to do is not the idle thread. -/
theorem Queued.not_idle (hq : Queued s (some s.running) loose) {i : Instr} {is : List Instr}
    (hi : s.current = i :: is) : s.running ≠ idleThread := fun h => by
  rw [Sys.current, h, hq.idle.1] at hi
  cases hi

/-- An instruction other than `thread_unblock`. -/
theorem Queued.exec (hq : Queued s (some s.running) none) (hidle : s.running ≠ idleThread)
    {i : Instr} (hborn : i.born = none)
    (hown : ∀ x, i = .down (.waiter x) ∨ i = .retest (.waiter x) → x = s.running)
    (h : s.exec i = .ok s') : Queued s' (some s'.running) none := by
  cases exec_ran h with
  | testHeld => exact hq.unmoved (.push hidle (by simp [Instr.born]) (by simp))
  | setWaiting => exact hq.unmoved (.setThread _ (fun _ => rfl) fun _ => rfl)
  | donateLast => exact hq.unmoved (.donated s _ _)
  | @donateNext l m t =>
    have hmoved := Unmoved.donated s l t
    refine hq.unmoved (hmoved.trans (.push ?_ (by simp [Instr.born]) (by simp)))
    rw [hmoved.running]
    exact hidle
  | down => exact hq.semaDown hidle fun x hx => hown x (.inl (by rw [hx]))
  | retest => exact hq.semaDown hidle fun x hx => hown x (.inr (by rw [hx]))
  | hold => exact hq.unmoved (.setLock _)
  | holdListed => exact hq.unmoved (Unmoved.threadHoldTheLock.trans (.setLock _))
  | setHolder => exact hq.unmoved (.setLock _)
  | @remove l =>
    have hset : Unmoved s (s.setThread s.running fun t => { t with locks := t.locks.erase l }) :=
      .setThread _ (fun _ => rfl) fun _ => rfl
    exact hq.unmoved (hset.trans .threadUpdatePriority)
  | clearHolder => exact hq.unmoved (.setLock _)
  | up => exact hq.semaUp
  | yield => exact hq.threadYield
  | unblock => cases hborn
  | yieldBelow => exact hq.threadYield
  | pushWaiter =>
    have hnone : (s.sema (.waiter s.running)).waiters = [] := by
      rw [List.eq_nil_iff_forall_not_mem]
      intro t ht
      obtain ⟨⟨hb, hh⟩, -⟩ := (hq.waiting _ t).mp ht
      have ho := hq.own t s.running (.inr (List.mem_of_mem_head? hh))
      rw [← ho, hq.status_running] at hb
      cases hb
    refine hq.unmoved (.of_thread rfl rfl (.refl _) (fun k => ?_) rfl (fun _ => rfl) fun _ => rfl)
    show ((s.setSema (.waiter s.running) fun _ => ⟨0, []⟩).sema k).waiters = _
    rw [Sys.setSema_sema]
    split
    · next hk => rw [hk, hnone]
    · rfl
  | @signal c t ts =>
    have hset : Unmoved s (s.setCond c ts) :=
      .of_thread rfl rfl (.refl _) (fun _ => rfl) rfl (fun _ => rfl) fun _ => rfl
    exact hq.unmoved (hset.trans (.push hidle (by simp [Instr.born]) (by simp)))
  | broadcast => exact hq.unmoved (.push hidle (by simp [Instr.born]) (by simp))
  | _ => exact hq

/-- `thread_create` has made a thread and has not yet unblocked it. -/
structure Made (s s' : Sys) : Prop where
  created : s'.created = s.created + 1
  readyList : s'.readyList = s.readyList
  sema : s'.sema = s.sema
  waitingThreads : s'.waitingThreads = s.waitingThreads
  status : ∀ t, (s'.thread t).status = if t = s.created then .blocked else (s.thread t).status
  todo : ∀ t, t ≠ s.running → (s'.thread t).todo = if t = s.created then [] else (s.thread t).todo
  births : births s' s.running = [s.created]
  own : ∀ x, .down (.waiter x) ∉ (s'.thread s.running).todo ∧
    .retest (.waiter x) ∉ (s'.thread s.running).todo

theorem Queued.running_lt (hq : Queued s (some s.running) loose) : s.running < s.created := by
  by_contra h
  have hf := (hq.fresh s.running (Nat.not_lt.mp h)).1
  rw [hq.status_running] at hf
  cases hf

theorem Made.create (hq : Queued s (some s.running) none) (hfree : s.current = []) (p : Int)
    {is : List Instr} (hborn : ∀ i ∈ is, i.born = none)
    (hown : ∀ x, .down (.waiter x) ∉ is ∧ .retest (.waiter x) ∉ is) :
    Made s ((s.initThread p).push (is ++ [.unblock s.created p])) := by
  have hrun : s.running ≠ s.created := Nat.ne_of_lt hq.running_lt
  have hcur : (s.thread s.running).todo = [] := hfree
  have htodo : (((s.initThread p).push (is ++ [.unblock s.created p])).thread s.running).todo =
      is ++ [.unblock s.created p] := by
    rw [Sys.push_thread]
    simp [Sys.initThread, hrun, hcur]
  refine ⟨rfl, rfl, rfl, rfl, fun t => ?_, fun t ht => ?_, ?_, fun x => ?_⟩
  · rw [Sys.push_thread]
    by_cases ht : t = s.created
    · simp [Sys.initThread, ht, Ne.symm hrun]
    · simp only [Sys.initThread, Function.update_apply, ht, if_false]
      split <;> rfl
  · rw [Sys.push_thread]
    simp only [Sys.initThread, ht, if_false, Function.update_apply]
    split <;> rfl
  · have hnil : is.filterMap Instr.born = [] := by
      rw [List.filterMap_eq_nil_iff]
      exact hborn
    rw [Schedule.births, htodo, List.filterMap_append, hnil]
    rfl
  · rw [htodo]
    simpa using hown x

/-- No other thread has made the new one. -/
theorem Made.births_eq (h : Made s s') (hq : Queued s (some s.running) none) {u : Tid}
    (hu : u ≠ s.running) : Schedule.births s' u = Schedule.births s u := by
  rw [Schedule.births, h.todo u hu, Schedule.births]
  split
  · next hc => rw [hc, (hq.fresh s.created (Nat.le_refl _)).2]
  · rfl

/-- The new thread is before no instruction, and the others are where they were. -/
theorem Made.blockedAt (h : Made s s') (hq : Queued s (some s.running) none) (t : Tid) (i : Instr) :
    BlockedAt s' t i ↔ BlockedAt s t i := by
  have hrun : s.running ≠ s.created := Nat.ne_of_lt hq.running_lt
  rw [BlockedAt, BlockedAt, h.status]
  by_cases htr : t = s.running
  · rw [htr, if_neg hrun, hq.status_running]
    simp
  · rw [h.todo t htr]
    by_cases htc : t = s.created
    · simp [htc, (hq.fresh s.created (Nat.le_refl _)).1]
    · simp [htc]

/-- `thread_create`, up to where its thread is to be unblocked. -/
theorem Queued.made (hq : Queued s (some s.running) none) (hidle : s.running ≠ idleThread)
    (hfree : s.current = []) (h : Made s s') : Queued s' (some s.running) none := by
  have hrun : s.running ≠ s.created := Nat.ne_of_lt hq.running_lt
  have hnew : (s.thread s.created).status = .dying := (hq.fresh s.created (Nat.le_refl _)).1
  have hbs : births s s.running = [] := by rw [births, show (s.thread s.running).todo = [] from hfree]; rfl
  have hw : ∀ t k, Waits s' t k ↔ Waits s t k := fun t k => h.blockedAt hq t (.retest k)
  have hs : ∀ t, Sleeps s' t ↔ Sleeps s t := fun t => h.blockedAt hq t .awake
  have hp : ∀ t, Parked s' t ↔ Parked s t := fun t => h.blockedAt hq t .unblocked
  -- the place of the new thread was free: no thread that is to be unblocked has it
  have hold : ∀ u t, t ∈ births s u → t ≠ s.created := fun u t ht hc =>
    Nat.lt_irrefl _ (hc ▸ (hq.born u t ht).2.2.2)
  have hic : idleThread ≠ s.created := Nat.ne_of_lt hq.idle.2.2
  exact {
    running := fun t => by
      rw [h.status]
      split
      · next ht => simp [ht, hrun]
      · exact hq.running t
    ready := fun t => by
      rw [h.readyList, hq.ready, h.status]
      split
      · next ht => simp [ht, hnew]
      · rfl
    readyOnce := by rw [h.readyList]; exact hq.readyOnce
    waiting := fun k t => by rw [hw, h.sema]; exact hq.waiting k t
    waitingOnce := fun k => by rw [h.sema]; exact hq.waitingOnce k
    sleeping := fun t => by rw [hs, h.waitingThreads]; exact hq.sleeping t
    sleepingOnce := by rw [h.waitingThreads]; exact hq.sleepingOnce
    free := fun _ h => nomatch h
    born := fun u t ht => by
      by_cases hu : u = s.running
      · rw [hu, h.births, List.mem_singleton] at ht
        rw [h.status, ht, if_pos rfl, h.todo _ (Ne.symm hrun), if_pos rfl, h.created]
        exact ⟨rfl, rfl, Ne.symm hic, Nat.lt_succ_self _⟩
      · rw [h.births_eq hq hu] at ht
        obtain ⟨h1, h2, h3, h4⟩ := hq.born u t ht
        have htr : t ≠ s.running := fun h => by
          rw [h, hq.status_running] at h1
          cases h1
        rw [h.status, h.todo t htr, if_neg (hold u t ht), if_neg (hold u t ht), h.created]
        exact ⟨h1, h2, h3, Nat.lt_succ_of_lt h4⟩
    bornOnce := fun u => by
      by_cases hu : u = s.running
      · rw [hu, h.births]
        exact List.nodup_singleton _
      · rw [h.births_eq hq hu]
        exact hq.bornOnce u
    bornHere := fun u v t hu hv => by
      by_cases hur : u = s.running <;> by_cases hvr : v = s.running
      · rw [hur, hvr]
      · rw [hur, h.births, List.mem_singleton] at hu
        rw [h.births_eq hq hvr] at hv
        exact absurd hu (hold v t hv)
      · rw [hvr, h.births, List.mem_singleton] at hv
        rw [h.births_eq hq hur] at hu
        exact absurd hv (hold u t hu)
      · rw [h.births_eq hq hur] at hu
        rw [h.births_eq hq hvr] at hv
        exact hq.bornHere u v t hu hv
    placed := fun t ht hi => by
      rw [h.status] at ht
      simp only [hw, hs, hp]
      by_cases htc : t = s.created
      · exact .inr (.inr (.inr (.inr ⟨s.running, by rw [h.births, htc]; exact List.mem_singleton_self _⟩)))
      · rw [if_neg htc] at ht
        refine (hq.placed t ht hi).imp_right (Or.imp_right (Or.imp_right (Or.imp_right ?_)))
        rintro ⟨u, hu⟩
        refine ⟨u, ?_⟩
        rw [h.births_eq hq]
        · exact hu
        · rintro rfl
          rw [hbs] at hu
          cases hu
    own := fun u x hx => by
      by_cases hu : u = s.running
      · rw [hu] at hx
        exact absurd hx (not_or.mpr (h.own x))
      · rw [h.todo u hu] at hx
        split at hx
        · simp at hx
        · exact hq.own u x hx
    fresh := fun t ht => by
      rw [h.created] at ht
      obtain ⟨h1, h2⟩ := hq.fresh t (Nat.le_of_succ_le ht)
      have htr : t ≠ s.running := fun h => by
        rw [h, hq.status_running] at h1
        cases h1
      have htc : t ≠ s.created := Nat.ne_of_gt ht
      rw [h.status, h.todo t htr, if_neg htc, if_neg htc]
      exact ⟨h1, h2⟩
    idle := by
      rw [h.status, h.todo _ (Ne.symm hidle), if_neg hic, if_neg hic, h.created]
      exact ⟨hq.idle.1, hq.idle.2.1, Nat.lt_succ_of_lt hq.idle.2.2⟩ }

/-- More to do in code that a thread calls. -/
theorem Queued.push (hq : Queued s (some s.running) none) (hidle : s.running ≠ idleThread)
    {is : List Instr} (hborn : ∀ i ∈ is, i.born = none)
    (hown : ∀ x, .down (.waiter x) ∈ is ∨ .retest (.waiter x) ∈ is → x = s.running) :
    Queued (s.push is) (some s.running) none :=
  hq.unmoved (.push hidle hborn hown)

/-- `thread_unblock` is for threads that have called `thread_block` themselves. -/
theorem call_unblock (h : s.call (.unblock t) = .ok s') : Parked s t ∧ s' = s.threadUnblock t := by
  simp only [Sys.call] at h
  split at h
  · cases h
  next hb =>
  split at h
  · cases h
  next hhead =>
  exact ⟨⟨not_not.mp hb, not_not.mp hhead⟩, (Except.ok.inj h).symm⟩

theorem Queued.call (hq : Queued s (some s.running) none) {c : Call}
    (henabled : (Action.call c).Enabled s) (h : s.call c = .ok s') :
    Queued s' (some s'.running) none := by
  obtain ⟨hfree, hidle⟩ := henabled
  have hcur : s.current = [] := by simpa [Sys.free] using hfree
  by_cases hc : c = .idle
  · have hrun := hidle.mp hc
    rw [hc] at h
    cases h
    exact (hq.off s.allList (.inr ⟨rfl, hrun⟩)).schedule
  -- the idle thread makes no other call
  have hrun : s.running ≠ idleThread := fun h => hc (hidle.mpr h)
  cases c with
  | create p =>
    simp only [Sys.call] at h
    split at h
    · cases h
      refine hq.made hrun hcur (.create hq hcur p
        (?_ : ∀ i ∈ Sys.lockAcquire .tid ++ Sys.lockRelease .tid, i.born = none) ?_)
      · simp [Sys.lockAcquire, Sys.lockRelease, Instr.born]
      · simp [Sys.lockAcquire, Sys.lockRelease]
    · cases h
  | exit =>
    cases h
    exact (hq.off _ (.inl ⟨rfl, hrun⟩)).schedule
  | yield =>
    cases h
    exact hq.threadYield
  | setPriority p =>
    cases h
    unfold Sys.threadSetPriority
    split
    · exact hq
    · show Queued (if _ then _ else _) (some (if _ then _ else _ : Sys).running) none
      split
      · refine Queued.push (hq.unmoved (.setThread _ ?_ ?_)) hrun ?_ ?_
        · exact fun _ => rfl
        · exact fun _ => rfl
        · simp [Instr.born]
        · simp
      · exact hq.unmoved (.setThread _ (fun _ => rfl) fun _ => rfl)
  | setNice n =>
    cases h
    have hset : Queued (s.reniced n) (some s.running) none :=
      hq.unmoved (.setThread _ (fun r => by split <;> rfl) fun r => by split <;> rfl)
    rw [Sys.threadSetNice_eq]
    split
    · exact hset.push (s := s.reniced n) hrun (by simp [Instr.born]) (by simp)
    · exact hset
  | sleep n =>
    cases h
    show Queued (if _ then _ else _) (some (if _ then _ else _ : Sys).running) none
    split
    · exact hq
    · exact hq.timerSleep hrun n
  | down k =>
    cases h
    exact hq.push hrun (by simp [Instr.born]) (by simp)
  | tryDown k =>
    cases h
    unfold Sys.semaTryDown
    split
    · exact hq.unmoved (.setValue fun v => v - 1)
    · exact hq
  | up k =>
    cases h
    exact hq.push hrun (by simp [Instr.born]) (by simp)
  | acquire l =>
    cases h
    exact hq.push hrun (by simp [Sys.lockAcquire, Instr.born]) (by simp [Sys.lockAcquire])
  | tryAcquire l =>
    simp only [Sys.call] at h
    split at h
    · cases h
    · unfold Sys.semaTryDown at h
      split at h
      · next heq =>
        split at heq
        · cases heq
          cases h
          exact Queued.push (hq.unmoved (.setValue fun v => v - 1)) hrun (by simp [Instr.born]) (by simp)
        · cases heq
      · next heq =>
        split at heq
        · cases heq
        · cases heq
          cases h
          exact hq
  | release l =>
    cases h
    exact hq.push hrun (by simp [Sys.lockRelease, Instr.born]) (by simp [Sys.lockRelease])
  | wait c =>
    cases h
    exact hq.push hrun (by simp [Sys.lockRelease, Sys.lockAcquire, Instr.born])
      (by simp [Sys.lockRelease, Sys.lockAcquire])
  | signal c =>
    cases h
    exact hq.push hrun (by simp [Instr.born]) (by simp)
  | broadcast c =>
    cases h
    exact hq.push hrun (by simp [Instr.born]) (by simp)
  | block =>
    cases h
    exact hq.threadBlock hrun
  | unblock t =>
    obtain ⟨hparked, rfl⟩ := call_unblock h
    exact (hq.unpark hparked).threadUnblock
  | idle => exact absurd rfl hc

/-! ## Runs -/

theorem Queued.step (hq : Queued s (some s.running) none) {a : Action} (henabled : a.Enabled s)
    (h : a.step s = .ok s') : Queued s' (some s'.running) none := by
  cases a with
  | call c => exact hq.call henabled h
  | tick =>
    cases h
    exact hq.tick
  | split =>
    cases split_tick h
    exact hq.tick
  | go =>
    cases hc : s.current with
    | nil =>
      have hf : s.free = true := by simp [Sys.free, hc]
      rw [Action.Enabled, hf] at henabled
      cases henabled
    | cons i is =>
      have hidle := hq.not_idle hc
      have htodo : (s.thread s.running).todo = i :: is := hc
      have hpop : (s.setThread s.running fun t => { t with todo := is }) = s.pop := by
        rw [Sys.pop, Sys.setThread, Sys.setThread, htodo]
        rfl
      simp only [Action.step, hc] at h
      rw [hpop] at h
      cases hb : i.born with
      | none =>
        refine (hq.pop hc hb).exec hidle hb (fun x hx => hq.own s.running x ?_) h
        rw [htodo]
        rcases hx with hx | hx <;> simp [hx]
      | some t =>
        cases i with
        | unblock t p =>
          have hq' := (hq.pop_unblock hc).threadUnblock
          simp only [Sys.exec] at h
          split at h
          · cases h
          · cases h
            exact hq'.push (s := s.pop.threadUnblock t) hidle (by simp [Instr.born]) (by simp)
        | _ => cases hb

theorem Booted.queued (h : Booted s) : Queued s (some s.running) none := by
  obtain ⟨mlfqs, condLock, unset, values, ticks, threadTicks, priority, recentCpu, loadAvg⟩ := h
  have hsema : ∀ k, ((Sys.init mlfqs condLock unset values ticks threadTicks priority recentCpu
      loadAvg).sema k).waiters = [] := by rintro (_ | _ | _) <;> rfl
  have hblocked : ∀ t, ((Sys.init mlfqs condLock unset values ticks threadTicks priority recentCpu
      loadAvg).thread t).status ≠ .blocked := by
    intro t
    show (if _ then _ else if _ then _ else _ : Status) ≠ _
    split
    · simp
    · split <;> simp
  exact {
    running := fun t => by
      show (if _ then _ else if _ then _ else _ : Status) = _ ↔ some initialThread = some t
      by_cases h0 : t = initialThread <;> by_cases h1 : t = idleThread <;> simp [h0, h1, eq_comm]
    ready := fun t => by
      show t ∈ [] ↔ (if _ then _ else if _ then _ else _ : Status) = _ ∧ _
      by_cases h0 : t = initialThread <;> by_cases h1 : t = idleThread <;> simp [h0, h1]
    readyOnce := List.nodup_nil
    waiting := fun k t => by
      rw [hsema]
      exact iff_of_false List.not_mem_nil fun h => hblocked t h.1.1
    waitingOnce := fun k => by rw [hsema]; exact List.nodup_nil
    sleeping := fun t => iff_of_false List.not_mem_nil fun h => hblocked t h.1.1
    sleepingOnce := List.nodup_nil
    free := fun _ h => nomatch h
    born := fun u t h => by cases h
    bornOnce := fun _ => List.nodup_nil
    bornHere := fun u v t h => by cases h
    placed := fun t h => absurd h (hblocked t)
    own := fun u x h => by rcases h with h | h <;> cases h
    fresh := fun t ht => by
      refine ⟨?_, rfl⟩
      show (if _ then _ else if _ then _ else _ : Status) = _
      replace ht : 2 ≤ t := ht
      have h0 : t ≠ 0 := by omega
      have h1 : t ≠ 1 := by omega
      rw [if_neg h0, if_neg h1]
    idle := by
      refine ⟨rfl, ?_, Nat.lt_succ_self 1⟩
      show Status.ready ≠ .dying
      simp }

theorem Reachable.queued {P : Sys → Action → Prop} (h : Reachable P s) :
    Queued s (some s.running) none := by
  induction h with
  | init h => exact h.queued
  | step a _ henabled _ hs ih => exact ih.step henabled hs

end Pintos.Schedule
