import Pintos.Properties.Wakeups

/-!
# No thread that is ready outranks the running one

In the mode without MLFQS the ready queue is ordered by priority, so a thread that has just been
taken from it has the highest priority. From then on another thread can overtake it only in a
function that yields before it returns, or in the timer interrupt, which wakes sleeping threads and
does not yield before the time slice is over.
-/

namespace Pintos.Schedule

open Pintos.Lib

variable {s s' : Sys} {t u : Tid} {k : SemaId} {l : LockId} {i : Instr} {is rest : List Instr}
  {a : Action}

/-! ## Steps that change no priority -/

/-- What the order of the threads depends on. -/
def Thread.rank (r : Thread) : Int × Int × List LockId := (r.priority, r.basePriority, r.locks)

/-- No priority, no list of locks and no lock changes. -/
structure SameRank (s s' : Sys) : Prop where
  rank : ∀ t, (s'.thread t).rank = (s.thread t).rank
  lock : s'.lock = s.lock

theorem SameRank.priority (h : SameRank s s') (t : Tid) :
    (s'.thread t).priority = (s.thread t).priority := congrArg (·.1) (h.rank t)

theorem SameRank.basePriority (h : SameRank s s') (t : Tid) :
    (s'.thread t).basePriority = (s.thread t).basePriority := congrArg (·.2.1) (h.rank t)

theorem SameRank.locks (h : SameRank s s') (t : Tid) :
    (s'.thread t).locks = (s.thread t).locks := congrArg (·.2.2) (h.rank t)

theorem SameRank.of_eq (ht : s'.thread = s.thread) (hl : s'.lock = s.lock) : SameRank s s' :=
  ⟨fun t => by rw [ht], hl⟩

theorem SameRank.refl (s : Sys) : SameRank s s := .of_eq rfl rfl

theorem SameRank.trans {s'' : Sys} (h : SameRank s s') (h' : SameRank s' s'') : SameRank s s'' :=
  ⟨fun t => (h'.rank t).trans (h.rank t), h'.lock.trans h.lock⟩

theorem sameRank_setThread {f : Thread → Thread} (hf : ∀ r, (f r).rank = r.rank) :
    SameRank s (s.setThread t f) := ⟨fun u => Sys.setThread_field Thread.rank u hf, rfl⟩

theorem sameRank_schedule (s : Sys) : SameRank s s.schedule :=
  ⟨fun t => by rw [Sys.schedule_thread]; split <;> rfl, Sys.schedule_lock⟩

theorem sameRank_offered (s : Sys) : SameRank s s.offered :=
  ⟨fun t => by rw [Sys.offered_thread]; split <;> rfl, Sys.offered_lock s⟩

theorem sameRank_threadYield (s : Sys) : SameRank s s.threadYield :=
  (sameRank_offered s).trans (sameRank_schedule _)

theorem sameRank_push (s : Sys) (is : List Instr) : SameRank s (s.push is) :=
  sameRank_setThread fun _ => rfl

theorem sameRank_pop (s : Sys) : SameRank s s.pop := sameRank_setThread fun _ => rfl

theorem sameRank_threadUnblock (s : Sys) (t : Tid) : SameRank s (s.threadUnblock t) := by
  have h : SameRank s (s.insertReady t) := .of_eq rfl rfl
  exact h.trans (sameRank_setThread fun _ => rfl)

theorem sameRank_semaWake (s : Sys) (k : SemaId) : SameRank s (s.semaWake k) := by
  unfold Sys.semaWake
  split
  · exact .of_eq rfl rfl
  · next t rest _ =>
    have h : SameRank s (s.setSema k fun m =>
      { value := (m.value + 1) % uintSize, waiters := rest }) := .of_eq rfl rfl
    exact h.trans (sameRank_threadUnblock _ t)

theorem sameRank_semaDown (s : Sys) (k : SemaId) : SameRank s (s.semaDown k) := by
  by_cases hv : (s.sema k).value = 0
  · rw [Sys.semaDown_zero hv]
    have h : SameRank s (s.waitOn k) :=
      ⟨fun t => by rw [Sys.waitOn_thread]; split <;> rfl, rfl⟩
    exact h.trans (sameRank_schedule _)
  · rw [Sys.semaDown_pos hv]
    exact .of_eq rfl rfl

theorem sameRank_timerSleep (s : Sys) (n : Int) : SameRank s (s.timerSleep n) := by
  have h : SameRank s (s.drowse n) :=
    ⟨fun t => by rw [Sys.drowse_thread]; split <;> rfl, rfl⟩
  exact h.trans (sameRank_schedule _)

theorem sameRank_park (s : Sys) : SameRank s s.park :=
  ⟨fun t => by rw [Sys.park_thread]; split <;> rfl, rfl⟩

theorem sameRank_threadBlock (s : Sys) : SameRank s (s.push [.unblocked]).threadBlock :=
  (sameRank_park s).trans (sameRank_schedule _)

theorem sameRank_wakeThreads (ts : List Tid) (s : Sys) : SameRank s (Sys.wakeThreads ts s) := by
  induction ts generalizing s with
  | nil => exact .refl s
  | cons t rest ih =>
    rw [Sys.wakeThreads]
    split
    · have h : SameRank s { s with waitingThreads := rest } := .of_eq rfl rfl
      exact (h.trans (sameRank_threadUnblock _ t)).trans (ih _)
    · exact .refl s

theorem timerInterrupt_plain (hm : s.mlfqs = false) : s.timerInterrupt =
    Sys.wakeThreads s.waitingThreads
      { s with ticks := s.ticks + 1, threadTicks := s.threadTicks + 1 } := by
  have hw : ∀ ts (s : Sys), (Sys.wakeThreads ts s).mlfqs = s.mlfqs := by
    intro ts
    induction ts with
    | nil => exact fun _ => rfl
    | cons t rest ih =>
      intro s
      rw [Sys.wakeThreads]
      split
      · rw [ih]
        rfl
      · rfl
  unfold Sys.timerInterrupt
  exact if_neg (by rw [hw]; simp [hm])

theorem sameRank_timerInterrupt (hm : s.mlfqs = false) : SameRank s s.timerInterrupt := by
  rw [timerInterrupt_plain hm]
  have h : SameRank s { s with ticks := s.ticks + 1, threadTicks := s.threadTicks + 1 } :=
    .of_eq rfl rfl
  exact h.trans (sameRank_wakeThreads _ _)

theorem sameRank_tick (hm : s.mlfqs = false) : SameRank s s.tick := by
  unfold Sys.tick
  split
  · exact (sameRank_timerInterrupt hm).trans (sameRank_threadYield _)
  · exact sameRank_timerInterrupt hm

/-- An instruction changes what the order of the threads depends on. -/
def Instr.ranks : Instr → Bool
  | .donate _ => true
  | .hold _ => true
  | .setHolder _ => true
  | .removeLock _ => true
  | .clearHolder _ => true
  | _ => false

theorem sameRank_exec (hi : i.ranks = false) (h : s.exec i = .ok s') : SameRank s s' := by
  cases exec_ran h with
  | testHeld => exact sameRank_push s _
  | setWaiting => exact sameRank_setThread fun _ => rfl
  | down => exact sameRank_semaDown s _
  | retest => exact sameRank_semaDown s _
  | up => exact (sameRank_semaWake s _).trans (sameRank_threadYield _)
  | yield => exact sameRank_threadYield s
  | unblock => exact (sameRank_threadUnblock s _).trans (sameRank_push _ _)
  | yieldBelow => exact sameRank_threadYield s
  | pushWaiter => exact .of_eq rfl rfl
  | @signal c t ts =>
    have hset : SameRank s (s.setCond c ts) := .of_eq rfl rfl
    exact hset.trans (sameRank_push _ _)
  | broadcast => exact sameRank_push s _
  | testFree => exact .refl s
  | awake => exact .refl s
  | unblocked => exact .refl s
  | stayAbove => exact .refl s
  | signalNone => exact .refl s
  | broadcastNone => exact .refl s
  | _ => cases hi

theorem sameRank_call {c : Call} (hcreate : c.makes = 0) (hset : ∀ p, c ≠ .setPriority p)
    (hnice : ∀ n, c ≠ .setNice n) (h : s.call c = .ok s') : SameRank s s' := by
  cases c with
  | create p => cases hcreate
  | setPriority p => exact absurd rfl (hset p)
  | setNice n => exact absurd rfl (hnice n)
  | exit =>
    cases h
    have h : SameRank s ({ s with allList := s.allList.erase s.running }.setThread s.running
        fun t => { t with status := .dying }) :=
      (SameRank.of_eq rfl rfl : SameRank s { s with allList := s.allList.erase s.running }).trans
        (sameRank_setThread fun _ => rfl)
    exact h.trans (sameRank_schedule _)
  | yield =>
    cases h
    exact sameRank_threadYield s
  | sleep n =>
    cases h
    split
    · exact .refl s
    · exact sameRank_timerSleep s n
  | tryDown k =>
    cases h
    unfold Sys.semaTryDown
    split <;> exact .of_eq rfl rfl
  | tryAcquire l =>
    simp only [Sys.call] at h
    split at h
    · cases h
    · unfold Sys.semaTryDown at h
      split at h
      · next heq =>
        split at heq <;> cases heq
        cases h
        have h : SameRank s (s.setSema (.ofLock (.user l)) fun m =>
          { m with value := m.value - 1 }) := .of_eq rfl rfl
        exact h.trans (sameRank_push _ _)
      · next heq =>
        split at heq <;> cases heq
        cases h
        exact .refl s
  | block =>
    cases h
    exact sameRank_threadBlock s
  | unblock t =>
    obtain ⟨-, rfl⟩ := call_unblock h
    exact sameRank_threadUnblock s t
  | idle =>
    cases h
    have h : SameRank s (s.setThread s.running fun t => { t with status := .blocked }) :=
      sameRank_setThread fun _ => rfl
    exact h.trans (sameRank_schedule _)
  | down k =>
    cases h
    exact sameRank_push s _
  | up k =>
    cases h
    exact sameRank_push s _
  | acquire l =>
    cases h
    exact sameRank_push s _
  | release l =>
    cases h
    exact sameRank_push s _
  | wait c =>
    cases h
    exact sameRank_push s _
  | signal c =>
    cases h
    exact sameRank_push s _
  | broadcast c =>
    cases h
    exact sameRank_push s _

/-! ## Priorities and the locks held -/

/-- The priorities of the threads and of the locks fit together. -/
structure Fits (s : Sys) : Prop where
  least : ∀ t, priMin ≤ (s.thread t).basePriority
  base : ∀ t, (s.thread t).basePriority ≤ (s.thread t).priority
  donated : ∀ t, ∀ l ∈ (s.thread t).locks, (s.lock l).maxPriority ≤ (s.thread t).priority
  held : ∀ t, ∀ l ∈ (s.thread t).locks, (s.lock l).holder = some t
  once : ∀ t, (s.thread t).locks.Nodup

theorem Fits.same (hf : Fits s) (h : SameRank s s') : Fits s' where
  least t := by rw [h.basePriority]; exact hf.least t
  base t := by rw [h.basePriority, h.priority]; exact hf.base t
  donated t := by rw [h.locks, h.priority, h.lock]; exact hf.donated t
  held t := by rw [h.locks, h.lock]; exact hf.held t
  once t := by rw [h.locks]; exact hf.once t

theorem threadUpdatePriority_thread (s : Sys) (t u : Tid) :
    (s.threadUpdatePriority t).thread u = if u = t then { s.thread t with
      locks := listSort s.lockCmpPriority (s.thread t).locks
      priority := match (listSort s.lockCmpPriority (s.thread t).locks).head? with
        | none => (s.thread t).basePriority
        | some l => max (s.thread t).basePriority (s.lock l).maxPriority } else s.thread u := by
  unfold Sys.threadUpdatePriority
  refine (Sys.setThread_thread _ _ _ _).trans ?_
  split <;> rfl

/-- The priority after `thread_update_priority` is at least each one it comes from. -/
theorem threadUpdatePriority_ge (s : Sys) (t : Tid) :
    (s.thread t).basePriority ≤ ((s.threadUpdatePriority t).thread t).priority ∧
      ∀ l ∈ (s.thread t).locks,
        (s.lock l).maxPriority ≤ ((s.threadUpdatePriority t).thread t).priority := by
  rw [threadUpdatePriority_thread, if_pos rfl]
  cases hl : (listSort s.lockCmpPriority (s.thread t).locks).head? with
  | none =>
    have hnil : (s.thread t).locks = [] := by
      rw [List.head?_eq_none_iff, listSort_eq_nil] at hl
      exact hl
    simp [hnil]
  | some m =>
    refine ⟨Int.le_max_left _ _, fun l hmem => ?_⟩
    have hl : (listSort (decreasing fun l => (s.lock l).maxPriority) (s.thread t).locks).head? =
        some m := hl
    have hle : (s.lock l).maxPriority ≤ (s.lock m).maxPriority := head_listSort hl hmem
    exact Int.le_trans hle (Int.le_max_right _ _)

/-- It is no more than a bound on all that it comes from. -/
theorem threadUpdatePriority_le {p : Int} (hbase : (s.thread t).basePriority ≤ p)
    (hlocks : ∀ l ∈ (s.thread t).locks, (s.lock l).maxPriority ≤ p) :
    ((s.threadUpdatePriority t).thread t).priority ≤ p := by
  rw [threadUpdatePriority_thread, if_pos rfl]
  cases hl : (listSort s.lockCmpPriority (s.thread t).locks).head? with
  | none => exact hbase
  | some m =>
    refine Int.max_le.mpr ⟨hbase, hlocks m ?_⟩
    exact mem_listSort.mp (List.mem_of_mem_head? hl)

/-- `thread_update_priority` makes the priority of its thread fit. -/
theorem fits_threadUpdatePriority (hleast : ∀ u, priMin ≤ (s.thread u).basePriority)
    (hbase : ∀ u, u ≠ t → (s.thread u).basePriority ≤ (s.thread u).priority)
    (hdonated : ∀ u, u ≠ t → ∀ l ∈ (s.thread u).locks,
      (s.lock l).maxPriority ≤ (s.thread u).priority)
    (hheld : ∀ u, ∀ l ∈ (s.thread u).locks, (s.lock l).holder = some u)
    (honce : ∀ u, (s.thread u).locks.Nodup) : Fits (s.threadUpdatePriority t) := by
  have hother : ∀ u, u ≠ t → (s.threadUpdatePriority t).thread u = s.thread u := fun u hu => by
    rw [threadUpdatePriority_thread, if_neg hu]
  have hb : ∀ u, ((s.threadUpdatePriority t).thread u).basePriority = (s.thread u).basePriority := by
    intro u
    rw [threadUpdatePriority_thread]
    split
    · next hu => rw [hu]
    · rfl
  have hl : ∀ u, ((s.threadUpdatePriority t).thread u).locks.Perm (s.thread u).locks := by
    intro u
    rw [threadUpdatePriority_thread]
    split
    · next hu =>
      rw [hu]
      exact listSort_perm _ _
    · exact List.Perm.refl _
  have hge := threadUpdatePriority_ge s t
  constructor
  · intro u
    rw [hb]
    exact hleast u
  · intro u
    rw [hb]
    by_cases hu : u = t
    · rw [hu]
      exact hge.1
    · rw [hother u hu]
      exact hbase u hu
  · intro u l hmem
    rw [(hl u).mem_iff] at hmem
    by_cases hu : u = t
    · rw [hu] at hmem ⊢
      exact hge.2 l hmem
    · rw [hother u hu]
      exact hdonated u hu l hmem
  · intro u l hmem
    exact hheld u l ((hl u).mem_iff.mp hmem)
  · intro u
    exact (hl u).nodup_iff.mpr (honce u)

theorem Fits.raise (hf : Fits s) (hh : (s.lock l).holder = some t) : Fits (s.raise l t) := by
  unfold Sys.raise
  split
  · have hother : ∀ u, u ≠ t → ∀ m ∈ (s.thread u).locks, m ≠ l := by
      rintro u hu m hm rfl
      rw [hf.held u m hm] at hh
      exact hu (Option.some.inj hh)
    refine fits_threadUpdatePriority hf.least (fun u _ => hf.base u) (fun u hu m hm => ?_)
      (fun u m hm => ?_) hf.once
    · rw [Sys.setLock_lock, if_neg (hother u hu m hm)]
      exact hf.donated u m hm
    · refine Eq.trans (setLock_holder s l m _ ?_) (hf.held u m hm)
      exact fun _ => rfl
  · exact hf

/-- A lock that nobody holds is in no list of locks. -/
theorem Fits.free (hf : Fits s) (hnone : (s.lock l).holder = none) (t : Tid) :
    l ∉ (s.thread t).locks := fun hl => by
  rw [hf.held t l hl] at hnone
  cases hnone

theorem threadHoldTheLock_locks (s : Sys) (l : LockId) (u : Tid) :
    ((s.threadHoldTheLock l).thread u).locks.Perm
      (if u = s.running then l :: (s.thread u).locks else (s.thread u).locks) := by
  unfold Sys.threadHoldTheLock
  simp only [Sys.setThread_thread, Sys.setLock_running, Sys.setLock_thread]
  split
  · next hu =>
    rw [hu]
    exact listInsertOrdered_perm _ _ _
  · exact List.Perm.refl _

theorem threadHoldTheLock_priority (s : Sys) (l : LockId) (t : Tid) :
    ((s.threadHoldTheLock l).thread t).priority = (s.thread t).priority := by
  unfold Sys.threadHoldTheLock
  exact Sys.setThread_field (·.priority) t fun _ => rfl

theorem threadHoldTheLock_basePriority (s : Sys) (l : LockId) (t : Tid) :
    ((s.threadHoldTheLock l).thread t).basePriority = (s.thread t).basePriority := by
  unfold Sys.threadHoldTheLock
  exact Sys.setThread_field (·.basePriority) t fun _ => rfl

/-- `lock_acquire` ends. -/
theorem Fits.hold (hf : Fits s) (hm : s.mlfqs = false) (hnone : (s.lock l).holder = none)
    (h : s.exec (.hold l) = .ok s') : Fits s' := by
  cases h
  have hrun : (s.threadHoldTheLock l).running = s.running := rfl
  rw [if_neg (by simp [hm]), hrun]
  have hne : ∀ t, ∀ m ∈ (s.thread t).locks, m ≠ l := fun t m hmem hml =>
    hf.free hnone t (hml ▸ hmem)
  have hpri := threadHoldTheLock_priority s l
  have hbase := threadHoldTheLock_basePriority s l
  have hmem : ∀ t m, m ∈ ((s.threadHoldTheLock l).thread t).locks →
      t = s.running ∧ m = l ∨ m ∈ (s.thread t).locks := by
    intro t m hm
    rw [(threadHoldTheLock_locks s l t).mem_iff] at hm
    split at hm
    · next ht => exact (List.mem_cons.mp hm).imp (⟨ht, ·⟩) id
    · exact .inr hm
  have hsame : ∀ m, m ≠ l → ((s.threadHoldTheLock l).setLock l fun r =>
      { r with holder := some s.running }).lock m = s.lock m := fun m hml => by
    rw [Sys.setLock_lock, if_neg hml, threadHoldTheLock_lock, Sys.setLock_lock, if_neg hml]
  have hl : ((s.threadHoldTheLock l).setLock l fun r => { r with holder := some s.running }).lock l =
      ⟨some s.running, (s.thread s.running).priority⟩ := by
    rw [Sys.setLock_lock, if_pos rfl, threadHoldTheLock_lock, Sys.setLock_lock, if_pos rfl]
  constructor
  · exact fun t => (hf.least t).trans_eq (hbase t).symm
  · intro t
    show ((s.threadHoldTheLock l).thread t).basePriority ≤ ((s.threadHoldTheLock l).thread t).priority
    rw [hbase, hpri]
    exact hf.base t
  · intro t m hm
    show _ ≤ ((s.threadHoldTheLock l).thread t).priority
    rw [hpri]
    rcases hmem t m hm with ⟨rfl, rfl⟩ | hm
    · rw [hl]
    · rw [hsame m (hne t m hm)]
      exact hf.donated t m hm
  · intro t m hm
    rcases hmem t m hm with ⟨rfl, rfl⟩ | hm
    · rw [hl]
    · rw [hsame m (hne t m hm)]
      exact hf.held t m hm
  · intro t
    refine (threadHoldTheLock_locks s l t).nodup_iff.mpr ?_
    split
    · exact List.nodup_cons.mpr ⟨hf.free hnone t, hf.once t⟩
    · exact hf.once t

theorem Fits.setHolder (hf : Fits s) (hnone : (s.lock l).holder = none)
    (h : s.exec (.setHolder l) = .ok s') : Fits s' := by
  cases h
  have hsame : ∀ t, ∀ m ∈ (s.thread t).locks,
      (s.setLock l fun r => { r with holder := some s.running }).lock m = s.lock m := by
    intro t m hm
    have hne : m ≠ l := fun hml => hf.free hnone t (hml ▸ hm)
    rw [Sys.setLock_lock, if_neg hne]
  exact { hf with
    donated := fun t m hm => by rw [hsame t m hm]; exact hf.donated t m hm
    held := fun t m hm => by rw [hsame t m hm]; exact hf.held t m hm }

theorem Fits.clearHolder (hf : Fits s) (hfree : ∀ t, l ∉ (s.thread t).locks)
    (h : s.exec (.clearHolder l) = .ok s') : Fits s' := by
  cases h
  have hsame : ∀ t, ∀ m ∈ (s.thread t).locks,
      (s.setLock l fun r => { r with holder := none }).lock m = s.lock m := by
    intro t m hm
    have hne : m ≠ l := fun hml => hfree t (hml ▸ hm)
    rw [Sys.setLock_lock, if_neg hne]
  exact { hf with
    donated := fun t m hm => by rw [hsame t m hm]; exact hf.donated t m hm
    held := fun t m hm => by rw [hsame t m hm]; exact hf.held t m hm }

/-- `thread_remove_lock` changes the running thread only. -/
theorem removeLock_thread (h : s.exec (.removeLock l) = .ok s') (ht : t ≠ s.running) :
    s'.thread t = s.thread t := by
  cases exec_ran h with
  | removeNone => rfl
  | remove =>
    rw [threadUpdatePriority_thread, if_neg (show t ≠ s.running from ht), Sys.setThread_thread,
      if_neg ht]

/-- `thread_remove_lock`. -/
theorem Fits.removeLock (hf : Fits s) (hm : s.mlfqs = false)
    (h : s.exec (.removeLock l) = .ok s') :
    Fits s' ∧ (s.lock l).holder = some s.running ∧ l ∉ (s'.thread s.running).locks := by
  cases exec_ran h with
  | removeNone _ hm' =>
    rw [hm] at hm'
    cases hm'
  | remove hheld =>
    have hlocks : ∀ t, ((s.setThread s.running fun r =>
        { r with locks := r.locks.erase l }).thread t).locks.Sublist (s.thread t).locks := by
      intro t
      rw [Sys.setThread_thread]
      split
      · next ht =>
        rw [ht]
        exact List.erase_sublist
      · exact List.Sublist.refl _
    have hpri : ∀ t, ((s.setThread s.running fun r =>
        { r with locks := r.locks.erase l }).thread t).priority = (s.thread t).priority := fun t =>
      Sys.setThread_field (·.priority) t fun _ => rfl
    have hbase : ∀ t, ((s.setThread s.running fun r =>
        { r with locks := r.locks.erase l }).thread t).basePriority = (s.thread t).basePriority :=
      fun t => Sys.setThread_field (·.basePriority) t fun _ => rfl
    refine ⟨fits_threadUpdatePriority (fun t => ?_) (fun t _ => ?_) (fun t _ m hm => ?_)
      (fun t m hm => hf.held t m ((hlocks t).mem hm)) (fun t => (hf.once t).sublist (hlocks t)),
      hheld, ?_⟩
    · rw [hbase]
      exact hf.least t
    · rw [hbase, hpri]
      exact hf.base t
    · rw [hpri]
      exact hf.donated t m ((hlocks t).mem hm)
    · rw [threadUpdatePriority_thread, if_pos rfl, mem_listSort, Sys.setThread_thread, if_pos rfl]
      exact (hf.once s.running).not_mem_erase

theorem Fits.create (hf : Fits s) {p : Int} (h : s.call (.create p) = .ok s') :
    Fits s' ∧ (s'.thread s.created).rank = (p, p, []) ∧
      ∀ t, t ≠ s.created → (s'.thread t).rank = (s.thread t).rank := by
  simp only [Sys.call] at h
  split at h <;> cases h
  next hp =>
  have hsame := sameRank_push (s.initThread p)
    (Sys.lockAcquire .tid ++ Sys.lockRelease .tid ++ [.unblock s.created p])
  have hother : ∀ t, t ≠ s.created → (s.initThread p).thread t = s.thread t := fun t ht =>
    Function.update_of_ne ht _ _
  have hself : (s.initThread p).thread s.created = ⟨.blocked, p, p, [], none, 0, 0, 0, []⟩ :=
    Function.update_self _ _ _
  refine ⟨Fits.same ?_ hsame, ?_, fun t ht => ?_⟩
  · constructor
    · intro t
      by_cases ht : t = s.created
      · rw [ht, hself]
        exact hp.1
      · rw [hother t ht]
        exact hf.least t
    · intro t
      by_cases ht : t = s.created
      · rw [ht, hself]
      · rw [hother t ht]
        exact hf.base t
    · intro t
      by_cases ht : t = s.created
      · rw [ht, hself]
        simp
      · rw [hother t ht]
        exact hf.donated t
    · intro t
      by_cases ht : t = s.created
      · rw [ht, hself]
        simp
      · rw [hother t ht]
        exact hf.held t
    · intro t
      by_cases ht : t = s.created
      · rw [ht, hself]
        exact .nil
      · rw [hother t ht]
        exact hf.once t
  · rw [hsame.rank, hself]
    rfl
  · rw [hsame.rank, hother t ht]

theorem Fits.setPriority (hf : Fits s) (hm : s.mlfqs = false) {p : Int} (hp : priMin ≤ p) :
    Fits (s.threadSetPriority p) ∧
      ∀ t, t ≠ s.running → ((s.threadSetPriority p).thread t).rank = (s.thread t).rank := by
  unfold Sys.threadSetPriority
  rw [if_neg (by simp [hm])]
  dsimp only
  split
  · next hcase =>
    have hsame := sameRank_push (s.setThread s.running fun r =>
      { r with basePriority := p, priority := p }) [.yield]
    have hother : ∀ t, t ≠ s.running → (s.setThread s.running fun r =>
        { r with basePriority := p, priority := p }).thread t = s.thread t := fun t ht => by
      rw [Sys.setThread_thread, if_neg ht]
    have hself : (s.setThread s.running fun r =>
        { r with basePriority := p, priority := p }).thread s.running =
          { s.thread s.running with basePriority := p, priority := p } := by
      rw [Sys.setThread_thread, if_pos rfl]
    have hlocks : ∀ t, ((s.setThread s.running fun r =>
        { r with basePriority := p, priority := p }).thread t).locks = (s.thread t).locks := fun t =>
      Sys.setThread_field (·.locks) t fun _ => rfl
    refine ⟨Fits.same ⟨fun t => ?_, fun t => ?_, fun t => ?_, fun t => ?_, fun t => ?_⟩ hsame,
      fun t ht => ?_⟩
    · by_cases ht : t = s.running
      · rw [ht, hself]
        exact hp
      · rw [hother t ht]
        exact hf.least t
    · by_cases ht : t = s.running
      · rw [ht, hself]
      · rw [hother t ht]
        exact hf.base t
    · rw [hlocks]
      by_cases ht : t = s.running
      · rw [ht, hself]
        intro m hm
        rcases hcase with hnil | hlt
        · rw [hnil] at hm
          cases hm
        · exact Int.le_trans (hf.donated _ m hm) (Int.le_of_lt hlt)
      · rw [hother t ht]
        exact hf.donated t
    · rw [hlocks]
      exact hf.held t
    · rw [hlocks]
      exact hf.once t
    · rw [hsame.rank, hother t ht]
  · next hcase =>
    -- the priority stays, as locks are held and it is no lower than `p`
    have hle : p ≤ (s.thread s.running).priority := by
      rw [not_or] at hcase
      omega
    have hpri : ∀ t, ((s.setThread s.running fun r => { r with basePriority := p }).thread t).priority =
        (s.thread t).priority := fun t => Sys.setThread_field (·.priority) t fun _ => rfl
    have hlocks : ∀ t, ((s.setThread s.running fun r => { r with basePriority := p }).thread t).locks =
        (s.thread t).locks := fun t => Sys.setThread_field (·.locks) t fun _ => rfl
    refine ⟨⟨fun t => ?_, fun t => ?_, fun t => ?_, fun t => ?_, fun t => ?_⟩, fun t ht => ?_⟩
    · rw [Sys.setThread_thread]
      split
      · exact hp
      · exact hf.least t
    · rw [hpri, Sys.setThread_thread]
      split
      · next ht =>
        rw [ht]
        exact hle
      · exact hf.base t
    · rw [hpri, hlocks]
      exact hf.donated t
    · rw [hlocks]
      exact hf.held t
    · rw [hlocks]
      exact hf.once t
    · rw [Sys.setThread_thread, if_neg ht]

/-- The locks held, and the other things about a thread and a lock that a step relies on. -/
structure Priced (s : Sys) : Prop extends Fits s where
  cleared : ∀ t l, (s.thread t).todo.head? = some (.clearHolder l) → l ∉ (s.thread t).locks
  taking : ∀ t l, (s.thread t).todo.head? = some (.hold l) ∨
    (s.thread t).todo.head? = some (.setHolder l) → (s.lock l).holder = none
  newborn : ∀ u t p, .unblock t p ∈ (s.thread u).todo → (s.thread t).priority = p
  lived : ∀ l t, (s.lock l).holder = some t →
    t < s.created ∧ t ≠ idleThread ∧ ∀ u, t ∉ births s u
  idle : (s.thread idleThread).priority = priMin

section

variable (hx : Exclusive s) (hp : Priced s) (hq : Queued s (some s.running) none)
  (henabled : a.Enabled s) (h : a.step s = .ok s')

include hq henabled h

/-- A thread that another one makes. -/
theorem births_step (ht : t ∈ births s' u) : t ∈ births s u ∨ t = s.created := by
  obtain ⟨is, hunf, htodo⟩ := step_todo hq henabled h
  rw [births, htodo] at ht
  split at ht
  · next hu =>
    rw [hu, births]
    cases hunf with
    | call c is hexp =>
      cases hexp with
      | create p =>
        right
        simpa [Sys.lockAcquire, Sys.lockRelease, Instr.born, eq_comm] using ht
      | _ => simp [Sys.lockAcquire, Sys.lockRelease, Instr.born] at ht
    | go hi hexp =>
      left
      have hcur : (s.thread s.running).todo = _ := hi
      rw [List.filterMap_append, List.mem_append] at ht
      rw [hcur]
      rcases ht with ht | ht
      · cases hexp <;> simp [Instr.born] at ht
      · rw [List.filterMap_cons]
        split
        · exact ht
        · exact List.mem_cons_of_mem _ ht
    | tick => exact .inl ht
    | split => exact .inl ht
  · exact .inl ht

include hx

theorem lived_step (hp : Priced s) (l : LockId) (t : Tid) (ht : (s'.lock l).holder = some t) :
    t < s'.created ∧ t ≠ idleThread ∧ ∀ u, t ∉ births s' u := by
  have hcreated := (step_fixed henabled h).2.2
  have hnew : t < s.created ∧ t ≠ idleThread ∧ ∀ u, t ∉ births s u := by
    by_cases hr : t = s.running
    · subst hr
      have hrun := hq.status_running
      refine ⟨?_, ?_, fun u hu => ?_⟩
      · by_contra hlt
        rw [(hq.fresh _ (Nat.le_of_not_lt hlt)).1] at hrun
        cases hrun
      · intro hidle
        rcases inside_of_holder henabled h ht with hold | hhead
        · exact (hp.lived l _ hold).2.1 hidle
        · rw [hidle, hq.idle.1] at hhead
          cases hhead
      · rw [(hq.born u _ hu).1] at hrun
        cases hrun
    · exact hp.lived l t ((holder_other hx henabled h hr).mp ht)
  refine ⟨Nat.lt_of_lt_of_le hnew.1 hcreated, hnew.2.1, fun u hu => ?_⟩
  rcases births_step hq henabled h hu with hu | hu
  · exact hnew.2.2 u hu
  · exact Nat.ne_of_lt hnew.1 hu

theorem taking_step (hp : Priced s) (t : Tid) (l : LockId)
    (ht : (s'.thread t).todo.head? = some (.hold l) ∨
      (s'.thread t).todo.head? = some (.setHolder l)) : (s'.lock l).holder = none := by
  obtain ⟨is, hunf, htodo⟩ := step_todo hq henabled h
  by_cases htr : t = s.running
  · rw [htodo, if_pos htr] at ht
    -- a lock whose semaphore has its unit has no holder
    have hfree : (s.sema (.ofLock l)).value ≠ 0 → (s.lock l).holder = none := by
      intro hv
      rcases hx.unit l with ⟨-, hnone⟩ | ⟨hz, -⟩
      · cases hh : (s.lock l).holder with
        | none => rfl
        | some u => exact absurd (.inl hh) (hnone u)
      · exact absurd hz hv
    cases hunf with
    | call c is hexp =>
      rw [step_holder henabled h]
      cases hexp with
      | tryAcquire m hv =>
        rcases ht with ht | ht <;> cases ht
        exact hfree hv
      | _ => rcases ht with ht | ht <;> cases ht
    | tick =>
      rw [step_holder henabled h]
      exact hp.taking s.running l ht
    | split =>
      rw [step_holder henabled h]
      exact hp.taking s.running l ht
    | @go i is rest hi hexp =>
      have hlinked : Linked (i :: rest) := by
        rw [← hi]
        exact hx.linked s.running
      have hfront : front (is ++ rest) = some (.hold l) ∨
          front (is ++ rest) = some (.setHolder l) := by
        rcases ht with ht | ht
        · exact .inl (by rw [front, ht]; rfl)
        · exact .inr (by rw [front, ht]; rfl)
      rw [front_expands hlinked hexp] at hfront
      have htest : i.tests = some (.ofLock l) ∧ is = [] := by
        split at hfront
        · next his =>
          refine ⟨?_, his⟩
          cases i with
          | down k =>
            cases k <;> rcases hfront with hfront | hfront <;> cases hfront
            rfl
          | retest k =>
            cases k <;> rcases hfront with hfront | hfront <;> cases hfront
            rfl
          | _ => rcases hfront with hfront | hfront <;> cases hfront
        · rcases hfront with hfront | hfront <;> cases hfront
      obtain ⟨htest, rfl⟩ := htest
      have hv : (s.sema (.ofLock l)).value ≠ 0 := by
        cases hexp with
        | done _ hv => exact hv _ htest
      rw [step_holder henabled h, hi]
      cases i with
      | down k => exact hfree hv
      | retest k => exact hfree hv
      | _ => cases htest
  · rw [htodo, if_neg htr] at ht
    have hin : Inside s l t := .inr (by rcases ht with ht | ht <;> rw [ht] <;> rfl)
    exact none_stays hx henabled h htr hin (hp.taking t l ht)

omit hx in
/-- A priority that a new thread has been given stays until it runs. -/
theorem newborn_step (hp : Priced s)
    (hprio : ∀ t, (∃ u, t ∈ births s u) → (s'.thread t).priority = (s.thread t).priority)
    (hcreate : ∀ p, a = .call (.create p) → (s'.thread s.created).priority = p) (u t : Tid) (p : Int)
    (ht : .unblock t p ∈ (s'.thread u).todo) : (s'.thread t).priority = p := by
  have hold : ∀ u, .unblock t p ∈ (s.thread u).todo → (s'.thread t).priority = p := by
    intro u hu
    rw [hprio t ⟨u, List.mem_filterMap.mpr ⟨_, hu, rfl⟩⟩]
    exact hp.newborn u t p hu
  obtain ⟨is, hunf, htodo⟩ := step_todo hq henabled h
  rw [htodo] at ht
  split at ht
  · cases hunf with
    | call c is hexp =>
      cases hexp with
      | create q =>
        simp [Sys.lockAcquire, Sys.lockRelease] at ht
        rw [ht.1, ht.2]
        exact hcreate q rfl
      | _ => simp [Sys.lockAcquire, Sys.lockRelease] at ht
    | go hi hexp =>
      have hcur : (s.thread s.running).todo = _ := hi
      rcases List.mem_append.mp ht with ht | ht
      · cases hexp <;> simp at ht
      · exact hold s.running (by rw [hcur]; exact List.mem_cons_of_mem _ ht)
    | tick => exact hold s.running ht
    | split => exact hold s.running ht
  · exact hold u ht

end

/-- A thread that makes no calls: the idle thread, or one that has not run yet. -/
def Passive (s : Sys) (t : Tid) : Prop := t = idleThread ∨ ∃ u, t ∈ births s u

theorem Passive.lt (h : Passive s t) (hq : Queued s (some s.running) none) : t < s.created := by
  rcases h with rfl | ⟨u, hu⟩
  · exact hq.idle.2.2
  · exact (hq.born u t hu).2.2.2

theorem Passive.ne_running (h : Passive s t) (hq : Queued s (some s.running) none)
    (hidle : s.running ≠ idleThread) : t ≠ s.running := by
  rcases h with rfl | ⟨u, hu⟩
  · exact Ne.symm hidle
  · rintro rfl
    have := (hq.born u _ hu).1
    rw [hq.status_running] at this
    cases this

/-- What a step leaves of the priorities. -/
structure Repriced (s s' : Sys) : Prop where
  fits : Fits s'
  passive : ∀ t, Passive s t → (s'.thread t).priority = (s.thread t).priority
  locks : ∀ t, t ≠ s.running → ∀ l ∈ (s'.thread t).locks, l ∈ (s.thread t).locks

theorem SameRank.repriced (hf : Fits s) (h : SameRank s s') : Repriced s s' where
  fits := hf.same h
  passive t _ := h.priority t
  locks t _ l hl := by rwa [h.locks] at hl

/-- `thread_donate_priority` raises the holder. What comes after changes no priority. -/
theorem donate_rank (h : s.exec (.donate l) = .ok s') : ∃ holder,
    (s.lock l).holder = some holder ∧ SameRank (s.raise l holder) s' := by
  have hsort : ∀ t, SameRank (s.raise l t) (s.donated l t) := by
    intro t
    unfold Sys.donated
    split
    · exact .of_eq rfl rfl
    · exact .refl _
  cases exec_ran h with
  | donateLast hh => exact ⟨_, hh, hsort _⟩
  | donateNext hh => exact ⟨_, hh, (hsort _).trans (sameRank_push _ _)⟩

theorem raise_thread (ht : t ≠ u) : (s.raise l u).thread t = s.thread t := by
  unfold Sys.raise
  split
  · rw [threadUpdatePriority_thread, if_neg ht]
    rfl
  · rfl

theorem mem_raise_locks {m : LockId} :
    m ∈ ((s.raise l u).thread t).locks ↔ m ∈ (s.thread t).locks := by
  by_cases ht : t = u
  · subst ht
    unfold Sys.raise
    split
    · rw [threadUpdatePriority_thread, if_pos rfl]
      exact mem_listSort
    · exact Iff.rfl
  · rw [raise_thread ht]

theorem repriced_exec (hx : Exclusive s) (hp : Priced s) (hq : Queued s (some s.running) none)
    (hm : s.mlfqs = false) (hi : s.current = i :: rest) (h : s.pop.exec i = .ok s') :
    Repriced s s' := by
  have hpop := sameRank_pop s
  have hf : Fits s.pop := hp.toFits.same hpop
  have hhead : (s.thread s.running).todo.head? = some i := by
    show s.current.head? = _
    rw [hi]
    rfl
  have hidle : s.running ≠ idleThread := hq.not_idle hi
  cases i with
  | donate l =>
    obtain ⟨holder, hh, hrank⟩ := donate_rank h
    refine ⟨(hf.raise hh).same hrank, fun t ht => ?_, fun t _ m hl => ?_⟩
    · have hne : t ≠ holder := by
        rintro rfl
        rcases ht with ht | ⟨u, hu⟩
        · exact (hp.lived l _ hh).2.1 ht
        · exact (hp.lived l _ hh).2.2 u hu
      rw [hrank.priority, raise_thread hne, hpop.priority]
    · rw [hrank.locks, mem_raise_locks, hpop.locks] at hl
      exact hl
  | hold l =>
    have hnone := hp.taking s.running l (.inl hhead)
    refine ⟨hf.hold hm hnone h, fun t _ => ?_, fun t ht m hl => ?_⟩
    · cases h
      rw [if_neg (by simp [show s.pop.mlfqs = false from hm])]
      exact (threadHoldTheLock_priority s.pop l t).trans (hpop.priority t)
    · cases h
      rw [if_neg (by simp [show s.pop.mlfqs = false from hm])] at hl
      have hl := (threadHoldTheLock_locks s.pop l t).mem_iff.mp hl
      rw [if_neg (show t ≠ s.pop.running from ht), hpop.locks] at hl
      exact hl
  | setHolder l =>
    have hnone := hp.taking s.running l (.inr hhead)
    have hsame : s'.thread = s.pop.thread := by
      cases h
      rfl
    refine ⟨hf.setHolder hnone h, fun t _ => ?_, fun t _ m hl => ?_⟩
    · rw [hsame, hpop.priority]
    · rwa [hsame, hpop.locks] at hl
  | removeLock l =>
    have hother : ∀ t, t ≠ s.running → s'.thread t = s.pop.thread t := fun t ht =>
      removeLock_thread h ht
    refine ⟨(hf.removeLock hm h).1, fun t ht => ?_, fun t ht m hl => ?_⟩
    · rw [hother t (ht.ne_running hq hidle), hpop.priority]
    · rwa [hother t ht, hpop.locks] at hl
  | clearHolder l =>
    have hsame : s'.thread = s.pop.thread := by
      cases h
      rfl
    refine ⟨hf.clearHolder (fun t hl => ?_) h, fun t _ => ?_, fun t _ m hl => ?_⟩
    · have hheld : (s.lock l).holder = some t := hf.held t l hl
      rw [hx.clearing s.running l hhead] at hheld
      rw [hpop.locks, ← Option.some.inj hheld] at hl
      exact hp.cleared s.running l hhead hl
    · rw [hsame, hpop.priority]
    · rwa [hsame, hpop.locks] at hl
  | _ => exact (hpop.trans (sameRank_exec rfl h)).repriced hp.toFits

/-- The steps the priorities are followed through. -/
def Plain (s : Sys) (a : Action) : Prop :=
  s.mlfqs = false ∧ (∀ n, a ≠ .call (.setNice n)) ∧ ∀ p, a = .call (.setPriority p) → priMin ≤ p

theorem repriced_step (hx : Exclusive s) (hp : Priced s) (hq : Queued s (some s.running) none)
    (hplain : Plain s a) (henabled : a.Enabled s) (h : a.step s = .ok s') : Repriced s s' := by
  obtain ⟨hm, hnice, hset⟩ := hplain
  cases a with
  | call c =>
    have h : s.call c = .ok s' := h
    cases c with
    | create p =>
      obtain ⟨hf, hnew, hother⟩ := hp.toFits.create h
      refine ⟨hf, fun t ht => ?_, fun t _ m hl => ?_⟩
      · exact congrArg (·.1) (hother t (Nat.ne_of_lt (ht.lt hq)))
      · by_cases ht : t = s.created
        · have hnil : (s'.thread s.created).locks = [] := congrArg (·.2.2) hnew
          rw [ht, hnil] at hl
          cases hl
        · have hsame : (s'.thread t).locks = (s.thread t).locks := congrArg (·.2.2) (hother t ht)
          rwa [hsame] at hl
    | setPriority p =>
      cases h
      obtain ⟨hf, hother⟩ := hp.toFits.setPriority hm (hset p rfl)
      refine ⟨hf, fun t ht => congrArg (·.1) (hother t (ht.ne_running hq fun hidle => ?_)),
        fun t ht m hl => ?_⟩
      · cases henabled.2.mpr hidle
      · have hsame : ((s.threadSetPriority p).thread t).locks = (s.thread t).locks :=
          congrArg (·.2.2) (hother t ht)
        rwa [hsame] at hl
    | setNice n => exact absurd rfl (hnice n)
    | _ => exact (sameRank_call rfl (by simp) (by simp) h).repriced hp.toFits
  | go =>
    obtain ⟨i, rest, hi, hexec⟩ := go_cases henabled h
    exact repriced_exec hx hp hq hm hi hexec
  | tick =>
    cases h
    exact (sameRank_tick hm).repriced hp.toFits
  | split =>
    cases split_tick h
    exact (sameRank_tick hm).repriced hp.toFits

theorem cleared_step (hx : Exclusive s) (hp : Priced s) (hq : Queued s (some s.running) none)
    (hplain : Plain s a) (henabled : a.Enabled s) (h : a.step s = .ok s') (t : Tid) (l : LockId)
    (ht : (s'.thread t).todo.head? = some (.clearHolder l)) : l ∉ (s'.thread t).locks := by
  obtain ⟨is, hunf, htodo⟩ := step_todo hq henabled h
  by_cases htr : t = s.running
  · rw [htodo, if_pos htr] at ht
    rw [htr]
    cases hunf with
    | call c is hexp => cases hexp <;> cases ht
    | tick =>
      cases h
      rw [(sameRank_tick hplain.1).locks]
      exact hp.cleared s.running l ht
    | split =>
      cases split_tick h
      rw [(sameRank_tick hplain.1).locks]
      exact hp.cleared s.running l ht
    | @go i is rest hi hexp =>
      have hlinked : Linked (i :: rest) := by
        rw [← hi]
        exact hx.linked s.running
      have hfront : front (is ++ rest) = some (.clearHolder l) := by
        rw [front, ht]
        rfl
      rw [front_expands hlinked hexp] at hfront
      have hi' : i = .removeLock l := by
        split at hfront
        · cases i with
          | removeLock m => cases hfront; rfl
          | down k => cases k <;> cases hfront
          | retest k => cases k <;> cases hfront
          | _ => cases hfront
        · cases hfront
      subst hi'
      obtain ⟨i', rest', hi', hexec⟩ := go_cases henabled h
      rw [hi] at hi'
      cases hi'
      exact ((hp.toFits.same (sameRank_pop s)).removeLock hplain.1 hexec).2.2
  · rw [htodo, if_neg htr] at ht
    exact fun hl => hp.cleared t l ht ((repriced_step hx hp hq hplain henabled h).locks t htr l hl)

theorem Priced.step (hx : Exclusive s) (hp : Priced s) (hq : Queued s (some s.running) none)
    (hplain : Plain s a) (henabled : a.Enabled s) (h : a.step s = .ok s') : Priced s' := by
  have hr := repriced_step hx hp hq hplain henabled h
  exact {
    toFits := hr.fits
    cleared := cleared_step hx hp hq hplain henabled h
    taking := taking_step hx hq henabled h hp
    newborn := newborn_step hq henabled h hp (fun t ht => hr.passive t (.inr ht)) fun p ha => by
      subst ha
      exact congrArg (·.1) (hp.toFits.create h).2.1
    lived := lived_step hx hq henabled h hp
    idle := (hr.passive idleThread (.inl rfl)).trans hp.idle }

/-! ## The ready queue is ordered, and the running thread in front of it -/

/-- An instruction yields, whatever comes before it. -/
def Instr.yields (priority : Int) : Instr → Prop
  | .yield => True
  | .up _ => True
  | .yieldIfBelow p => priority < p
  | _ => False

/-- The running thread yields before it is back in its own code. -/
def Sys.YieldsSoon (s : Sys) : Prop :=
  ∃ i ∈ s.current, i.yields (s.thread s.running).priority

/-- The running thread leaves the processor before it is back in its own code. If `idle` holds the
idle thread does so, which blocks after each interrupt. -/
def Sys.Passing (idle : Prop) (s : Sys) : Prop :=
  s.YieldsSoon ∨ idle ∧ s.running = idleThread

/-- No thread in the ready queue has a higher priority than the running thread. -/
def Sys.Foremost (s : Sys) : Prop :=
  ∀ t ∈ s.readyList, (s.thread t).priority ≤ (s.thread s.running).priority

/-- The ready queue is ordered by priority. -/
def Sys.Sorted (s : Sys) : Prop := Decreasing (fun t => (s.thread t).priority) s.readyList

/-- The ready queue is ordered, and the running thread in front of it or about to leave. -/
structure Ranked (idle : Prop) (s : Sys) : Prop where
  sorted : s.Sorted
  foremost : s.Passing idle ∨ s.Foremost

theorem Sys.Sorted.congr (hs : s.Sorted) (hr : s'.readyList = s.readyList)
    (h : ∀ t ∈ s.readyList, (s'.thread t).priority = (s.thread t).priority) : s'.Sorted := by
  rw [Sys.Sorted, hr]
  exact Decreasing.congr hs h

theorem Sys.Sorted.same (hs : s.Sorted) (h : SameRank s s') (hr : s'.readyList = s.readyList) :
    s'.Sorted := hs.congr hr fun t _ => h.priority t

/-- The thread that is taken from the queue is the first one. -/
theorem Sys.Sorted.schedule (hs : s.Sorted) : s.schedule.Sorted ∧ s.schedule.Foremost := by
  have hrank := sameRank_schedule s
  rw [Sys.Sorted] at hs
  constructor
  · rw [Sys.Sorted, Sys.schedule_readyList]
    exact Decreasing.congr (hs.sublist (List.tail_sublist _)) fun t _ => hrank.priority t
  · intro t ht
    rw [Sys.schedule_readyList] at ht
    rw [hrank.priority, hrank.priority, Sys.schedule_running]
    cases hl : s.readyList with
    | nil =>
      rw [hl] at ht
      cases ht
    | cons v rest =>
      rw [hl] at ht hs
      exact (List.pairwise_cons.mp hs).1 t ht

theorem Sys.Sorted.ranked {idle : Prop} (hs : s.Sorted) : Ranked idle s.schedule :=
  ⟨hs.schedule.1, .inr hs.schedule.2⟩

theorem Sys.Sorted.insertReady (hs : s.Sorted) (t : Tid) : (s.insertReady t).Sorted :=
  Decreasing.insert hs

theorem Sys.Sorted.threadUnblock (hs : s.Sorted) (t : Tid) : (s.threadUnblock t).Sorted := by
  have h : SameRank (s.insertReady t) (s.threadUnblock t) := sameRank_setThread fun _ => rfl
  exact (hs.insertReady t).same h rfl

theorem Sys.Sorted.offered (hs : s.Sorted) : s.offered.Sorted := by
  unfold Sys.offered
  split
  · exact (hs.insertReady _).same (sameRank_setThread fun _ => rfl) rfl
  · exact hs.same (sameRank_setThread fun _ => rfl) rfl

theorem Sys.Sorted.threadYield {idle : Prop} (hs : s.Sorted) : Ranked idle s.threadYield :=
  hs.offered.ranked

theorem Sys.Sorted.semaWake (hs : s.Sorted) (k : SemaId) : (s.semaWake k).Sorted := by
  unfold Sys.semaWake
  split
  · exact hs
  · next t rest _ =>
    have h : (s.setSema k fun m =>
      { value := (m.value + 1) % uintSize, waiters := rest }).Sorted := hs
    exact h.threadUnblock t

theorem Sys.Sorted.waitOn (hs : s.Sorted) (k : SemaId) : (s.waitOn k).Sorted :=
  hs.congr rfl fun t _ => by
    rw [Sys.waitOn_thread]
    split <;> rfl

theorem Sys.Sorted.drowse (hs : s.Sorted) (n : Int) : (s.drowse n).Sorted :=
  hs.congr rfl fun t _ => by
    rw [Sys.drowse_thread]
    split <;> rfl

theorem Sys.Sorted.park (hs : s.Sorted) : s.park.Sorted := hs.same (sameRank_park s) rfl

/-- The running thread takes on another status. -/
theorem Sys.Sorted.off (hs : s.Sorted) (l : List Tid) (st : Status) :
    ({ s with allList := l }.setThread s.running fun t => { t with status := st }).Sorted :=
  hs.congr rfl fun t _ => Sys.setThread_field (·.priority) t fun _ => rfl

theorem semaDown_ranked {idle : Prop} (hs : s.Sorted) (hv : (s.sema k).value = 0) :
    Ranked idle (s.semaDown k) := by
  rw [Sys.semaDown_zero hv]
  exact (hs.waitOn k).ranked

/-- The running thread goes on, and no priority that matters changes. -/
theorem Ranked.keep {idle : Prop} (hr : Ranked idle s) (hrun : s'.running = s.running)
    (hready : s'.readyList = s.readyList) (hmore : ∃ is, More s is s')
    (hprio : ∀ t, (s'.thread t).priority = (s.thread t).priority) : Ranked idle s' where
  sorted := hr.sorted.congr hready fun t _ => hprio t
  foremost := by
    obtain ⟨is, hmore⟩ := hmore
    rcases hr.foremost with (⟨i, hi, hy⟩ | hidle) | hf
    · refine .inl (.inl ⟨i, ?_, by rwa [hrun, hprio]⟩)
      rw [Sys.current, hrun, hmore, if_pos rfl]
      exact List.mem_append_right _ hi
    · exact .inl (.inr (by rwa [hrun]))
    · right
      intro t ht
      rw [hready] at ht
      rw [hrun, hprio, hprio]
      exact hf t ht

/-- An instruction after which another thread may run, or be ready. -/
def Instr.moves (s : Sys) : Instr → Bool
  | .down k => (s.sema k).value = 0
  | .retest k => (s.sema k).value = 0
  | .donate _ => true
  | .up _ => true
  | .yield => true
  | .unblock _ _ => true
  | .yieldIfBelow _ => true
  | _ => false

theorem exec_stays (hi : i.moves s = false) (h : s.exec i = .ok s') :
    s'.running = s.running ∧ s'.readyList = s.readyList := by
  cases exec_ran h with
  | down =>
    rw [Sys.semaDown_pos (by simpa [Instr.moves] using hi)]
    exact ⟨rfl, rfl⟩
  | retest =>
    rw [Sys.semaDown_pos (by simpa [Instr.moves] using hi)]
    exact ⟨rfl, rfl⟩
  | donateLast => cases hi
  | donateNext => cases hi
  | up => cases hi
  | yield => cases hi
  | unblock => cases hi
  | yieldBelow => cases hi
  | _ => exact ⟨rfl, rfl⟩

/-- An instruction that yields leaves the first thread of the queue running. -/
theorem ranked_yields {idle : Prop} (hs : s.Sorted)
    (hi : i.yields (s.thread s.running).priority) (h : s.exec i = .ok s') : Ranked idle s' := by
  cases i with
  | yield =>
    cases h
    exact hs.threadYield
  | up k =>
    cases h
    exact (hs.semaWake k).threadYield
  | yieldIfBelow p =>
    simp only [Sys.exec] at h
    rw [if_pos (show (s.thread s.running).priority < p from hi)] at h
    cases h
    exact hs.threadYield
  | _ => cases hi

/-- A new thread becomes ready. -/
theorem ranked_unblock {idle : Prop} {p : Int} (hr : Ranked idle s)
    (hp : (s.thread t).priority = p) (h : s.exec (.unblock t p) = .ok s') : Ranked idle s' := by
  obtain ⟨is, hexp, hmore⟩ := exec_more h
  have hrank : SameRank s s' := sameRank_exec rfl h
  simp only [Sys.exec] at h
  split at h <;> cases h
  have hcur : ((s.threadUnblock t).push [.yieldIfBelow p]).current =
      .yieldIfBelow p :: s.current := by
    rw [push_current]
    exact congrArg (Instr.yieldIfBelow p :: ·)
      (Sys.setThread_field (s := s.insertReady t) (·.todo) _ fun _ => rfl)
  have hrun : ((s.threadUnblock t).push [.yieldIfBelow p]).running = s.running := rfl
  refine ⟨(hr.sorted.threadUnblock t).same (sameRank_push _ _) rfl, ?_⟩
  rcases hr.foremost with (⟨i, hi, hy⟩ | hidle) | hf
  · refine .inl (.inl ⟨i, ?_, by rwa [hrun, hrank.priority]⟩)
    rw [hcur]
    exact List.mem_cons_of_mem _ hi
  · exact .inl (.inr hidle)
  · by_cases hle : p ≤ (s.thread s.running).priority
    · right
      intro u hu
      rw [hrun, hrank.priority, hrank.priority]
      have hu : u ∈ listInsertOrdered s.threadCmpPriority t s.readyList := hu
      rcases mem_listInsertOrdered.mp hu with rfl | hu
      · rw [hp]
        exact hle
      · exact hf u hu
    · refine .inl (.inl ⟨.yieldIfBelow p, ?_, ?_⟩)
      · rw [hcur]
        exact List.mem_cons_self
      · rw [hrun, hrank.priority]
        exact Int.not_le.mp hle

/-- The running thread does not donate to itself, unless it has the lock in its list. -/
def Sys.Donates (s : Sys) (l : LockId) : Prop :=
  (s.lock l).holder = some s.running → l ∈ (s.thread s.running).locks

/-- What `thread_donate_priority` does to the priorities. -/
theorem raise_priority (hf : Fits s) (hh : (s.lock l).holder = some u) (hdon : s.Donates l)
    {p : Int} (hp : (s.thread s.running).priority = p) :
    ((s.raise l u).thread s.running).priority = p ∧
      ((s.thread u).priority ≤ p → ((s.raise l u).thread u).priority ≤ p) := by
  unfold Sys.raise
  split
  · next hlt =>
    rw [hp] at hlt
    have hmax : ∀ m, ((s.setLock l fun r =>
        { r with maxPriority := (s.thread s.running).priority }).lock m).maxPriority =
          if m = l then p else (s.lock m).maxPriority := by
      intro m
      rw [Sys.setLock_lock]
      split
      · exact hp
      · rfl
    have hle : (s.thread u).priority ≤ p → (((s.setLock l fun r =>
        { r with maxPriority := (s.thread s.running).priority }).threadUpdatePriority u).thread
          u).priority ≤ p := by
      intro hle
      refine threadUpdatePriority_le (Int.le_trans (hf.base u) hle) fun m hm => ?_
      rw [hmax]
      split
      · exact Int.le_refl _
      · exact Int.le_trans (hf.donated u m hm) hle
    refine ⟨?_, hle⟩
    by_cases hu : u = s.running
    · subst hu
      refine Int.le_antisymm (hle (Int.le_of_eq hp)) ?_
      have hge := (threadUpdatePriority_ge (s.setLock l fun r =>
        { r with maxPriority := (s.thread s.running).priority }) s.running).2 l (hdon hh)
      rw [hmax, if_pos rfl] at hge
      exact hge
    · rw [threadUpdatePriority_thread, if_neg (Ne.symm hu)]
      exact hp
  · exact ⟨hp, id⟩

theorem raise_readyList (s : Sys) (l : LockId) (t : Tid) :
    (s.raise l t).readyList = s.readyList ∧ (s.raise l t).running = s.running ∧
      ∀ u, ((s.raise l t).thread u).status = (s.thread u).status := by
  unfold Sys.raise
  split
  · refine ⟨rfl, rfl, fun u => ?_⟩
    rw [threadUpdatePriority_thread]
    split
    · next hu =>
      rw [hu]
      rfl
    · rfl
  · exact ⟨rfl, rfl, fun _ => rfl⟩

/-- A donation sorts the queue, or it changes no priority in it. -/
theorem donated_cases (l : LockId) (u : Tid)
    (hready : ∀ t ∈ s.readyList, (s.thread t).status = .ready) :
    s.donated l u = { s.raise l u with
      readyList := listSort (s.raise l u).threadCmpPriority s.readyList } ∨
    s.donated l u = s.raise l u ∧
      ∀ t ∈ s.readyList, ((s.raise l u).thread t).priority = (s.thread t).priority := by
  obtain ⟨hlist, -, hstatus⟩ := raise_readyList s l u
  unfold Sys.donated
  split
  · exact .inl (by rw [hlist])
  · next hnot =>
    refine .inr ⟨rfl, fun t ht => ?_⟩
    have hne : t ≠ u := by
      rintro rfl
      rw [hstatus] at hnot
      exact hnot (hready t ht)
    rw [raise_thread hne]

/-- A donation. -/
theorem ranked_donate {idle : Prop} (hr : Ranked idle s) (hq : Queued s (some s.running) none)
    (hf : Fits s) (hdon : s.Donates l) (h : s.exec (.donate l) = .ok s') : Ranked idle s' := by
  obtain ⟨is, -, hmore⟩ := exec_more h
  obtain ⟨holder, hh, hrank⟩ := donate_rank h
  obtain ⟨hready, hrun, hstatus⟩ := raise_readyList s l holder
  obtain ⟨hself, hholder⟩ := raise_priority hf hh hdon rfl
  have hdonated : ∀ u, (s.donated l u).Sorted ∧ (s.donated l u).readyList.Perm s.readyList ∧
      (s.donated l u).running = s.running := by
    intro u
    obtain ⟨hready, hrun, -⟩ := raise_readyList s l u
    rcases donated_cases l u fun t ht => ((hq.ready t).mp ht).1 with heq | ⟨heq, hsame⟩
    · rw [heq]
      exact ⟨decreasing_listSort _ _, listSort_perm _ _, hrun⟩
    · rw [heq]
      exact ⟨hr.sorted.congr hready hsame, by rw [hready], hrun⟩
  have hsorted : s'.Sorted ∧ s'.readyList.Perm s.readyList ∧ s'.running = s.running := by
    cases exec_ran h with
    | donateLast => exact hdonated _
    | donateNext => exact ⟨(hdonated _).1.same (sameRank_push _ _) rfl, (hdonated _).2⟩
  obtain ⟨hsorted, hperm, hrun'⟩ := hsorted
  have hrunp : (s'.thread s'.running).priority = (s.thread s.running).priority := by
    rw [hrun', hrank.priority, hself]
  refine ⟨hsorted, ?_⟩
  rcases hr.foremost with (⟨i, hi, hy⟩ | hidle) | hfore
  · refine .inl (.inl ⟨i, ?_, by rwa [hrunp]⟩)
    rw [Sys.current, hrun', hmore, if_pos rfl]
    exact List.mem_append_right _ hi
  · exact .inl (.inr (by rwa [hrun']))
  · right
    intro t ht
    rw [hperm.mem_iff] at ht
    rw [hrunp, hrank.priority]
    by_cases hu : t = holder
    · rw [hu] at ht ⊢
      exact hholder (hfore holder ht)
    · rw [raise_thread hu]
      exact hfore t ht

/-- An instruction is taken up that does not yield. -/
theorem ranked_pop {idle : Prop} (hr : Ranked idle s) (hi : s.current = i :: rest)
    (hy : ¬ i.yields (s.thread s.running).priority) : Ranked idle s.pop := by
  have hpop := sameRank_pop s
  have hrun : s.pop.running = s.running := rfl
  refine ⟨hr.sorted.same hpop rfl, ?_⟩
  rcases hr.foremost with (⟨j, hj, hjy⟩ | hidle) | hf
  · refine .inl (.inl ⟨j, ?_, by rwa [hrun, hpop.priority]⟩)
    rw [hi] at hj
    rw [pop_current hi]
    rcases List.mem_cons.mp hj with rfl | hj
    · exact absurd hjy hy
    · exact hj
  · exact .inl (.inr hidle)
  · right
    intro t ht
    rw [hrun, hpop.priority, hpop.priority]
    exact hf t ht

/-- `lock_release` has lowered the priority. It still yields. -/
theorem ranked_removeLock {idle : Prop} (hs : s.Sorted) (hq : Queued s (some s.running) none)
    (hup : .up k ∈ s.current) (h : s.exec (.removeLock l) = .ok s') : Ranked idle s' := by
  obtain ⟨hrun, hready⟩ := exec_stays rfl h
  obtain ⟨is, -, hmore⟩ := exec_more h
  have hother : ∀ t, t ≠ s.running → (s'.thread t).priority = (s.thread t).priority := fun t ht =>
    congrArg (·.priority) (removeLock_thread h ht)
  refine ⟨hs.congr hready fun t ht => hother t ?_, .inl (.inl ⟨.up k, ?_, trivial⟩)⟩
  · rintro rfl
    rw [hq.ready, hq.status_running] at ht
    cases ht.1
  · rw [Sys.current, hrun, hmore, if_pos rfl]
    exact List.mem_append_right _ hup

theorem up_of_removeLock (hl : Linked (.removeLock l :: rest)) : .up (.ofLock l) ∈ rest := by
  obtain ⟨hf, hrest⟩ := hl
  have hhead : ∀ {is : List Instr} {j : Instr}, front is = some j → ∃ tail, is = j :: tail := by
    intro is j hj
    cases is with
    | nil => cases hj
    | cons x tail =>
      have hx : x = j := by
        rw [front, List.head?_cons, Option.filter_some] at hj
        split at hj
        · exact Option.some.inj hj
        · cases hj
      exact ⟨tail, by rw [hx]⟩
  obtain ⟨tail, rfl⟩ := hhead hf
  obtain ⟨tail', rfl⟩ := hhead hrest.1
  exact List.mem_cons_of_mem _ List.mem_cons_self

theorem ranked_go {idle : Prop} (hr : Ranked idle s) (hx : Exclusive s) (hp : Priced s)
    (hq : Queued s (some s.running) none) (hm : s.mlfqs = false) (hi : s.current = i :: rest)
    (hdon : ∀ l, i = .donate l → s.Donates l) (h : s.pop.exec i = .ok s') : Ranked idle s' := by
  have hpop := sameRank_pop s
  have hrun : s.pop.running = s.running := rfl
  by_cases hy : i.yields (s.thread s.running).priority
  · refine ranked_yields (hr.sorted.same hpop rfl) ?_ h
    rwa [hrun, hpop.priority]
  -- an instruction that yields has been dealt with; the others keep the thread running
  have hr₁ : Ranked idle s.pop := ranked_pop hr hi hy
  have hf₁ : Fits s.pop := hp.toFits.same hpop
  have hkeep : i.moves s.pop = false →
      (∀ t, (s'.thread t).priority = (s.pop.thread t).priority) → Ranked idle s' := by
    intro hmoves hprio
    obtain ⟨hrun', hready⟩ := exec_stays hmoves h
    obtain ⟨is, -, hmore⟩ := exec_more h
    exact hr₁.keep hrun' hready ⟨is, hmore⟩ hprio
  have hq₁ : i.born = none → Queued s.pop (some s.pop.running) none := fun hb => hq.pop hi hb
  cases i with
  | down k =>
    by_cases hv : (s.pop.sema k).value = 0
    · cases h
      exact semaDown_ranked hr₁.sorted hv
    · exact hkeep (by simpa [Instr.moves] using hv) (sameRank_exec rfl h).priority
  | retest k =>
    by_cases hv : (s.pop.sema k).value = 0
    · cases h
      exact semaDown_ranked hr₁.sorted hv
    · exact hkeep (by simpa [Instr.moves] using hv) (sameRank_exec rfl h).priority
  | donate l =>
    refine ranked_donate hr₁ (hq₁ rfl) hf₁ (fun hh => ?_) h
    rw [hpop.locks]
    exact hdon l rfl hh
  | hold l =>
    refine hkeep rfl fun t => ?_
    cases h
    rw [if_neg (by simp [show s.pop.mlfqs = false from hm])]
    exact threadHoldTheLock_priority s.pop l t
  | setHolder l =>
    refine hkeep rfl fun t => ?_
    cases h
    rfl
  | clearHolder l =>
    refine hkeep rfl fun t => ?_
    cases h
    rfl
  | removeLock l =>
    have hlinked : Linked (.removeLock l :: rest) := by
      rw [← hi]
      exact hx.linked s.running
    refine ranked_removeLock hr₁.sorted (hq₁ rfl) (k := .ofLock l) ?_ h
    rw [pop_current hi]
    exact up_of_removeLock hlinked
  | up k => exact absurd trivial hy
  | yield => exact absurd trivial hy
  | yieldIfBelow p =>
    simp only [Sys.exec] at h
    rw [if_neg (by rw [hrun, hpop.priority]; exact hy)] at h
    cases h
    exact hr₁
  | unblock t p =>
    refine ranked_unblock hr₁ ?_ h
    rw [hpop.priority]
    refine hp.newborn s.running t p ?_
    show _ ∈ s.current
    rw [hi]
    exact List.mem_cons_self
  | _ => exact hkeep rfl (sameRank_exec rfl h).priority

/-- A call after which another thread may run, or which changes a priority. -/
def Call.moves : Call → Bool
  | .create _ => true
  | .exit => true
  | .yield => true
  | .setPriority _ => true
  | .setNice _ => true
  | .sleep _ => true
  | .block => true
  | .unblock _ => true
  | .idle => true
  | _ => false

theorem call_stays {c : Call} (hc : c.moves = false) (h : s.call c = .ok s') :
    s'.running = s.running ∧ s'.readyList = s.readyList := by
  cases c with
  | tryDown k =>
    cases h
    unfold Sys.semaTryDown
    split <;> exact ⟨rfl, rfl⟩
  | tryAcquire l =>
    simp only [Sys.call] at h
    split at h
    · cases h
    · unfold Sys.semaTryDown at h
      split at h
      · next heq =>
        split at heq <;> cases heq
        cases h
        exact ⟨rfl, rfl⟩
      · next heq =>
        split at heq <;> cases heq
        cases h
        exact ⟨rfl, rfl⟩
  | down k =>
    cases h
    exact ⟨rfl, rfl⟩
  | up k =>
    cases h
    exact ⟨rfl, rfl⟩
  | acquire l =>
    cases h
    exact ⟨rfl, rfl⟩
  | release l =>
    cases h
    exact ⟨rfl, rfl⟩
  | wait c =>
    cases h
    exact ⟨rfl, rfl⟩
  | signal c =>
    cases h
    exact ⟨rfl, rfl⟩
  | broadcast c =>
    cases h
    exact ⟨rfl, rfl⟩
  | _ => cases hc

theorem ranked_setPriority {idle : Prop} (hr : Ranked idle s) (hq : Queued s (some s.running) none)
    (hm : s.mlfqs = false) (p : Int) : Ranked idle (s.threadSetPriority p) := by
  have hnot : ∀ t ∈ s.readyList, t ≠ s.running := by
    rintro t ht rfl
    rw [hq.ready, hq.status_running] at ht
    cases ht.1
  unfold Sys.threadSetPriority
  rw [if_neg (by simp [hm])]
  dsimp only
  split
  · refine ⟨hr.sorted.congr rfl fun t ht => ?_, .inl (.inl ⟨.yield, ?_, trivial⟩)⟩
    · rw [(sameRank_push _ _).priority, Sys.setThread_thread, if_neg (hnot t ht)]
    · rw [push_current]
      exact List.mem_append_left _ List.mem_cons_self
  · refine hr.keep rfl rfl ⟨[], .nil fun t => ?_⟩ fun t => ?_
    · exact Sys.setThread_field (·.todo) t fun _ => rfl
    · exact Sys.setThread_field (·.priority) t fun _ => rfl

theorem ranked_create {idle : Prop} (hr : Ranked idle s) (hq : Queued s (some s.running) none)
    (hf : Fits s) {p : Int} (h : s.call (.create p) = .ok s') : Ranked idle s' := by
  have hother := (hf.create h).2.2
  obtain ⟨is, -, hmore⟩ := call_more hq h
  have hrun : s'.running = s.running ∧ s'.readyList = s.readyList := by
    simp only [Sys.call] at h
    split at h <;> cases h
    exact ⟨rfl, rfl⟩
  have hold : ∀ t, (s.thread t).status ≠ .dying →
      (s'.thread t).priority = (s.thread t).priority := fun t ht =>
    congrArg (·.1) (hother t fun hc => ht (hq.fresh t (Nat.le_of_eq hc.symm)).1)
  have hready : ∀ t ∈ s.readyList, (s'.thread t).priority = (s.thread t).priority := fun t ht =>
    hold t (by rw [((hq.ready t).mp ht).1]; simp)
  have hself : (s'.thread s.running).priority = (s.thread s.running).priority :=
    hold _ (by rw [hq.status_running]; simp)
  refine ⟨hr.sorted.congr hrun.2 hready, ?_⟩
  rcases hr.foremost with (⟨i, hi, hy⟩ | hidle) | hfore
  · refine .inl (.inl ⟨i, ?_, by rwa [hrun.1, hself]⟩)
    rw [Sys.current, hrun.1, hmore, if_pos rfl]
    exact List.mem_append_right _ hi
  · exact .inl (.inr (by rwa [hrun.1]))
  · right
    intro t ht
    rw [hrun.2] at ht
    rw [hrun.1, hself, hready t ht]
    exact hfore t ht

theorem ranked_call {idle : Prop} (hr : Ranked idle s) (hq : Queued s (some s.running) none)
    (hf : Fits s) (hm : s.mlfqs = false) {c : Call} (hnice : ∀ n, c ≠ .setNice n)
    (hunblock : ∀ t, c ≠ .unblock t) (h : s.call c = .ok s') : Ranked idle s' := by
  have hkeep : c.moves = false → SameRank s s' → Ranked idle s' := by
    intro hmoves hrank
    obtain ⟨hrun, hready⟩ := call_stays hmoves h
    obtain ⟨is, -, hmore⟩ := call_more hq h
    exact hr.keep hrun hready ⟨is, hmore⟩ hrank.priority
  cases c with
  | create p => exact ranked_create hr hq hf h
  | exit =>
    cases h
    exact (hr.sorted.off _ _).ranked
  | yield =>
    cases h
    exact hr.sorted.threadYield
  | setPriority p =>
    cases h
    exact ranked_setPriority hr hq hm p
  | setNice n => exact absurd rfl (hnice n)
  | sleep n =>
    cases h
    split
    · exact hr
    · exact (hr.sorted.drowse n).ranked
  | block =>
    cases h
    exact hr.sorted.park.ranked
  | unblock t => exact absurd rfl (hunblock t)
  | idle =>
    cases h
    exact (hr.sorted.off s.allList _).ranked
  | _ => exact hkeep rfl (sameRank_call rfl (by simp) (by simp) h)

/-- Only threads that are due become ready. -/
theorem wakeThreads_ready (ts : List Tid) (s : Sys) (ht : t ∈ (Sys.wakeThreads ts s).readyList) :
    t ∈ s.readyList ∨ t ∈ ts ∧ (s.thread t).ticksWake ≤ s.ticks := by
  induction ts generalizing s with
  | nil => exact .inl ht
  | cons v rest ih =>
    rw [Sys.wakeThreads] at ht
    split at ht
    · next hdue =>
      rcases ih _ ht with ht | ⟨hmem, hwake⟩
      · have ht : t ∈ listInsertOrdered
            { s with waitingThreads := rest }.threadCmpPriority v s.readyList := ht
        rcases mem_listInsertOrdered.mp ht with rfl | ht
        · exact .inr ⟨List.mem_cons_self, hdue.1⟩
        · exact .inl ht
      · refine .inr ⟨List.mem_cons_of_mem _ hmem, ?_⟩
        have hsame : (({ s with waitingThreads := rest }.threadUnblock v).thread t).ticksWake =
            (s.thread t).ticksWake := by
          unfold Sys.threadUnblock
          exact Sys.setThread_field (·.ticksWake) t fun _ => rfl
        rw [hsame] at hwake
        exact hwake
    · exact .inl ht

theorem Sys.Sorted.wakeThreads (hs : s.Sorted) (ts : List Tid) : (Sys.wakeThreads ts s).Sorted := by
  induction ts generalizing s with
  | nil => exact hs
  | cons v rest ih =>
    rw [Sys.wakeThreads]
    split
    · have h : ({ s with waitingThreads := rest } : Sys).Sorted := hs
      exact ih (h.threadUnblock v)
    · exact hs

/-- No thread that the next timer interrupt wakes has a higher priority than the running thread. -/
def Sys.WakesBelow (s : Sys) : Prop :=
  ∀ t ∈ s.waitingThreads, (s.thread t).ticksWake ≤ s.ticks + 1 →
    (s.thread t).priority ≤ (s.thread s.running).priority

theorem not_yieldsSoon (hfree : s.free = true) : ¬ s.YieldsSoon := by
  rintro ⟨i, hi, -⟩
  have hnil : s.current = [] := by simpa [Sys.free] using hfree
  rw [hnil] at hi
  cases hi

/-- An interrupt ends the time slice, or no thread that is ready, or that it wakes, has a higher
priority than the running thread. In a thread's own code none that is ready has. -/
def Sys.InTime (idle : Prop) (s : Sys) : Prop :=
  s.sliceEnds = true ∨ (idle ∧ s.running = idleThread) ∨
    (s.WakesBelow ∧ (s.free = false → s.Foremost))

/-- After an interrupt the running thread is in front of the queue. -/
theorem foremost_tick {idle : Prop} (hr : Ranked idle s) (hm : s.mlfqs = false)
    (hcond : s.InTime idle) :
    s.tick.Sorted ∧ (s.tick.Foremost ∨ idle ∧ s.tick.running = idleThread) := by
  have hs : ({ s with ticks := s.ticks + 1, threadTicks := s.threadTicks + 1 } : Sys).Sorted :=
    hr.sorted
  have hsorted : s.timerInterrupt.Sorted := by
    rw [timerInterrupt_plain hm]
    exact hs.wakeThreads _
  unfold Sys.tick
  split
  · exact ⟨hsorted.offered.schedule.1, .inl hsorted.offered.schedule.2⟩
  next hslice =>
  have hrun : s.timerInterrupt.running = s.running := by
    rw [timerInterrupt_plain hm, wakeThreads_running]
  refine ⟨hsorted, ?_⟩
  rw [hrun]
  rcases hcond.resolve_left hslice with hidle | ⟨hbelow, hforemost⟩
  · exact .inr hidle
  have hfore : s.Foremost ∨ idle ∧ s.running = idleThread := by
    cases hfree : s.free with
    | false => exact .inl (hforemost hfree)
    | true =>
      rcases hr.foremost with (hy | hidle) | hf
      · exact absurd hy (not_yieldsSoon hfree)
      · exact .inr hidle
      · exact .inl hf
  refine hfore.imp_left fun hfore t ht => ?_
  have hrank := sameRank_timerInterrupt hm
  rw [hrun, hrank.priority, hrank.priority]
  rw [timerInterrupt_plain hm] at ht
  rcases wakeThreads_ready _ _ ht with ht | ⟨ht, hwake⟩
  · exact hfore t ht
  · exact hbelow t ht hwake

/-! ## A step to another thread -/

/-- An instruction after which another thread runs ends in `schedule`. -/
theorem exec_switches (hs : s.Sorted) (h : s.exec i = .ok s') (hne : s'.running ≠ s.running) :
    s'.Foremost := by
  have hstays : i.moves s = false → s'.Foremost := fun hi => absurd (exec_stays hi h).1 hne
  cases i with
  | down k =>
    by_cases hv : (s.sema k).value = 0
    · cases h
      rw [Sys.semaDown_zero hv]
      exact (hs.waitOn k).schedule.2
    · exact hstays (by simpa [Instr.moves] using hv)
  | retest k =>
    by_cases hv : (s.sema k).value = 0
    · cases h
      rw [Sys.semaDown_zero hv]
      exact (hs.waitOn k).schedule.2
    · exact hstays (by simpa [Instr.moves] using hv)
  | donate l =>
    refine absurd ?_ hne
    cases exec_ran h with
    | donateLast => exact donated_running s _ _
    | donateNext => exact donated_running s _ _
  | up k =>
    cases h
    exact (hs.semaWake k).offered.schedule.2
  | yield =>
    cases h
    exact hs.offered.schedule.2
  | unblock t p =>
    refine absurd ?_ hne
    cases exec_ran h
    rfl
  | yieldIfBelow p =>
    cases exec_ran h with
    | yieldBelow => exact hs.offered.schedule.2
    | stayAbove => exact absurd rfl hne
  | _ => exact hstays rfl

/-- A call after which another thread runs ends in `schedule`. -/
theorem call_switches (hs : s.Sorted) {c : Call} (h : s.call c = .ok s')
    (hne : s'.running ≠ s.running) : s'.Foremost := by
  have hstays : c.moves = false → s'.Foremost := fun hc => absurd (call_stays hc h).1 hne
  cases c with
  | create p =>
    simp only [Sys.call] at h
    split at h <;> cases h
    exact absurd rfl hne
  | exit =>
    cases h
    exact (hs.off _ _).schedule.2
  | yield =>
    cases h
    exact hs.offered.schedule.2
  | setPriority p =>
    cases h
    refine absurd ?_ hne
    unfold Sys.threadSetPriority
    split
    · rfl
    · dsimp only
      split <;> rfl
  | setNice n =>
    cases h
    refine absurd ?_ hne
    rw [Sys.threadSetNice_eq]
    split <;> rfl
  | sleep n =>
    simp only [Sys.call] at h
    split at h
    · cases h
      exact absurd rfl hne
    · cases h
      exact (hs.drowse n).schedule.2
  | block =>
    cases h
    exact hs.park.schedule.2
  | unblock t =>
    obtain ⟨-, rfl⟩ := call_unblock h
    exact absurd rfl hne
  | idle =>
    cases h
    exact (hs.off s.allList _).schedule.2
  | _ => exact hstays rfl

/-! ## Runs -/

/-- The step is not one of those after which a thread that is ready outranks the running one: an
interrupt before the end of the time slice that wakes a thread of a higher priority, or that comes
while the running thread has still to give way to one, or a donation that comes back to its donor.
`thread_unblock` leaves it to its caller to yield. -/
def Timely (idle : Prop) (s : Sys) (a : Action) : Prop :=
  Plain s a ∧ match a with
    | .call c => ∀ t, c ≠ .unblock t
    | .go => ∀ l, s.current.head? = some (.donate l) → s.Donates l
    | .tick => s.InTime idle
    | .split => s.InTime idle

theorem Timely.inTime {idle : Prop} (h : Timely idle s a) (ha : a.interrupts = true) :
    s.InTime idle := by
  cases a with
  | tick => exact h.2
  | split => exact h.2
  | _ => cases ha

theorem ranked_tick {idle : Prop} (hr : Ranked idle s) (hm : s.mlfqs = false)
    (hcond : s.InTime idle) : Ranked idle s.tick := by
  obtain ⟨hsorted, hf | hidle⟩ := foremost_tick hr hm hcond
  · exact ⟨hsorted, .inr hf⟩
  · exact ⟨hsorted, .inl (.inr hidle)⟩

theorem Ranked.step {idle : Prop} (hr : Ranked idle s) (hx : Exclusive s) (hp : Priced s)
    (hq : Queued s (some s.running) none) (hcond : Timely idle s a) (henabled : a.Enabled s)
    (h : a.step s = .ok s') : Ranked idle s' := by
  obtain ⟨⟨hm, hnice, -⟩, hcond⟩ := hcond
  cases a with
  | call c => exact ranked_call hr hq hp.toFits hm (fun n hn => hnice n (by rw [hn])) hcond h
  | go =>
    obtain ⟨i, rest, hi, hexec⟩ := go_cases henabled h
    refine ranked_go hr hx hp hq hm hi (fun l hl => hcond l ?_) hexec
    rw [hi, hl]
    rfl
  | tick =>
    cases h
    exact ranked_tick hr hm hcond
  | split =>
    cases split_tick h
    exact ranked_tick hr hm hcond

theorem Booted.priced (h : Booted s) (hm : s.mlfqs = false) : Priced s := by
  cases h with
  | intro mlfqs condLock unset values ticks threadTicks priority recentCpu loadAvg =>
    have hm : mlfqs = false := hm
    subst hm
    exact {
      least := fun t => by
        show (0 : Int) ≤ if t = initialThread then 31 else 0
        split <;> decide
      base := fun t => by
        show (if t = initialThread then (31 : Int) else 0) ≤
          if t = initialThread then if false then priority else 31 else 0
        split <;> simp
      donated := fun t l hl => by cases hl
      held := fun t l hl => by cases hl
      once := fun t => .nil
      cleared := fun t l ht => by cases ht
      taking := fun t l ht => by rcases ht with ht | ht <;> cases ht
      newborn := fun u t p ht => by cases ht
      lived := fun l t ht => by cases ht
      idle := rfl }

theorem Reachable.priced {P : Sys → Action → Prop} (hP : ∀ s a, P s a → Plain s a)
    (h : Reachable P s) (hm : s.mlfqs = false) : Priced s := by
  induction h with
  | init h => exact h.priced hm
  | step a hr henabled hcond hs ih =>
    have hplain := hP _ a hcond
    exact (ih hplain.1).step hr.exclusive hr.queued hplain henabled hs

theorem Reachable.ranked {idle : Prop} (h : Reachable (Timely idle) s) (hm : s.mlfqs = false) :
    Priced s ∧ Ranked idle s := by
  refine ⟨h.priced (fun _ _ hcond => hcond.1) hm, ?_⟩
  induction h with
  | init h =>
    cases h
    exact ⟨.nil, .inr fun t ht => by cases ht⟩
  | step a hr henabled hcond hs ih =>
    have hp := hr.priced (fun _ _ hcond => hcond.1) hcond.1.1
    exact (ih hcond.1.1).step hr.exclusive hp hr.queued hcond henabled hs

/-- No thread that is ready has a higher priority than the running thread. -/
def NoneOutranks (s : Sys) : Prop :=
  ∀ t, (s.thread t).status = .ready → (s.thread t).priority ≤ (s.thread s.running).priority

theorem noneOutranks (hq : Queued s (some s.running) none) (hp : Priced s) (hf : s.Foremost) :
    NoneOutranks s := by
  intro t ht
  by_cases hidle : t = idleThread
  · rw [hidle, hp.idle]
    exact Int.le_trans (hp.least _) (hp.base _)
  · exact hf t ((hq.ready t).mpr ⟨ht, hidle⟩)

/-- In a run whose steps are all timely, no thread that is ready outranks the running thread while
that is in its own code, nor when the timer interrupt returns into any code, nor when a thread goes on
that another one has given way to. If interrupts may also wake threads of a higher priority while the
idle thread runs, this holds while another thread runs. -/
theorem no_ready_outranks {idle : Prop} (hm : s.mlfqs = false) (h : Reachable (Timely idle) s) :
    (s.free = true → (idle → s.running ≠ idleThread) → NoneOutranks s) ∧
      ∀ a s', a.Enabled s → Timely idle s a → a.step s = .ok s' →
        a.interrupts = true ∨ s'.running ≠ s.running → (idle → s'.running ≠ idleThread) →
          NoneOutranks s' := by
  obtain ⟨hp, hr⟩ := h.ranked hm
  refine ⟨fun hown hidle => ?_, fun a s' henabled hcond hs hreturn hidle => ?_⟩
  · refine noneOutranks h.queued hp (hr.foremost.resolve_left ?_)
    rintro (hy | ⟨hi, hrun⟩)
    · exact not_yieldsSoon hown hy
    · exact hidle hi hrun
  · have hp' := hp.step h.exclusive h.queued hcond.1 henabled hs
    refine noneOutranks (h.queued.step henabled hs) hp' ?_
    by_cases hint : a.interrupts = true
    · rw [interrupt_tick hint hs] at hidle ⊢
      refine (foremost_tick hr hm (hcond.inTime hint)).2.resolve_right ?_
      rintro ⟨hi, hrun⟩
      exact hidle hi hrun
    · have hne := hreturn.resolve_left hint
      cases a with
      | call c => exact call_switches hr.sorted hs hne
      | go =>
        obtain ⟨i, rest, -, hexec⟩ := go_cases henabled hs
        exact exec_switches (hr.sorted.same (sameRank_pop s) rfl) hexec hne
      | tick => exact absurd rfl hint
      | split => exact absurd rfl hint

/-- `Plain`, of the action alone. -/
def Action.plain : Action → Bool
  | .call (.setNice _) => false
  | .call (.setPriority p) => priMin ≤ p
  | _ => true

theorem plain_iff (s : Sys) (a : Action) : s.mlfqs = false ∧ a.plain = true ↔ Plain s a := by
  unfold Plain
  refine and_congr_right fun _ => ?_
  cases a with
  | call c => cases c <;> simp [Action.plain]
  | _ => simp [Action.plain]

instance (s : Sys) (a : Action) : Decidable (Plain s a) := decidable_of_iff _ (plain_iff s a)

/-- The main thread, of priority 31, makes a thread of priority 40, which runs at once and goes to
sleep. The timer interrupt that wakes it returns to the main thread. -/
theorem ready_outranks : ¬ ∀ s, Reachable Plain s → s.free = true → s.running ≠ idleThread →
    NoneOutranks s := by
  intro hall
  have hboot := Reachable.init (P := Plain)
    (.intro false (fun _ => 0) (fun _ => 0) (fun _ => 0) 0 0 0 0 0)
  obtain ⟨s, hs, htest⟩ := hboot.runs_any
    [Call.run (.create 40) 8, Call.run (.sleep 1) 0, [.tick]].flatten
    (fun s => s.free ∧ s.running ≠ idleThread ∧ (s.thread 2).status = .ready ∧
      (s.thread s.running).priority < (s.thread 2).priority) (by decide +kernel)
  obtain ⟨hown, hidle, hready, hlt⟩ := of_decide_eq_true htest
  exact Int.not_le.mpr hlt (hall s hs hown hidle 2 hready)

/-- `Timely`, as a test. -/
def Action.timely (s : Sys) : Action → Bool
  | .call (.unblock _) => false
  | .call _ => true
  | .go =>
    match s.current with
    | .donate l :: _ => (s.lock l).holder ≠ some s.running || l ∈ (s.thread s.running).locks
    | _ => true
  | _ => s.sliceEnds ||
    (s.waitingThreads.all (fun t => s.ticks + 1 < (s.thread t).ticksWake ||
      (s.thread t).priority ≤ (s.thread s.running).priority) &&
    (s.free || s.readyList.all fun t => (s.thread t).priority ≤ (s.thread s.running).priority))

theorem timely_iff (s : Sys) (a : Action) :
    Plain s a ∧ a.timely s = true ↔ Timely False s a := by
  refine and_congr_right fun _ => ?_
  have hinterrupt : (s.sliceEnds || (s.waitingThreads.all (fun t =>
      s.ticks + 1 < (s.thread t).ticksWake || (s.thread t).priority ≤ (s.thread s.running).priority) &&
      (s.free || s.readyList.all fun t =>
        (s.thread t).priority ≤ (s.thread s.running).priority))) = true ↔ s.InTime False := by
    simp only [Bool.or_eq_true, Bool.and_eq_true, List.all_eq_true, decide_eq_true_eq, Sys.InTime,
      Sys.WakesBelow, Sys.Foremost, false_and, false_or]
    refine or_congr_right (and_congr (forall₂_congr fun t _ => ?_) ?_)
    · rw [← Int.not_le, ← imp_iff_not_or]
    · rw [← imp_iff_not_or.symm]
      simp
  cases a with
  | call c => cases c <;> simp [Action.timely]
  | tick => exact hinterrupt
  | split => exact hinterrupt
  | go =>
    cases hc : s.current with
    | nil => simp [Action.timely, hc]
    | cons i rest =>
      cases i with
      | donate l =>
        simp only [Action.timely, hc, Bool.or_eq_true, decide_eq_true_eq, List.head?_cons,
          Option.some.injEq, Instr.donate.injEq, forall_eq']
        exact imp_iff_not_or.symm
      | _ => simp [Action.timely, hc]

instance (s : Sys) (a : Action) : Decidable (Timely False s a) := decidable_of_iff _ (timely_iff s a)

/-- Three threads are ready, of priorities 20, 25 and 25, and one of priority 40 sleeps when the time
slice of the main thread ends. -/
theorem no_ready_outranks_slice : ∃ s, (s.thread 0).status = .ready ∧
    s.readyList = [0, 3, 4, 2] ∧ s.running = 5 ∧ NoneOutranks s := by
  have hboot := Reachable.init (P := Timely False)
    (.intro false (fun _ => 0) (fun _ => 0) (fun _ => 0) 0 0 0 0 0)
  obtain ⟨s, hs, htest⟩ := hboot.runs_any
    [Call.run (.create 20) 8, Call.run (.create 25) 8, Call.run (.create 25) 8,
      Call.run (.create 40) 8, Call.run (.sleep 4) 0, [.tick, .tick, .tick]].flatten
    (fun s => decide (s.mlfqs = false ∧ Action.tick.Enabled s ∧ Timely False s .tick) &&
      decide ((s.tick.thread 0).status = .ready) &&
      decide (s.tick.readyList = [0, 3, 4, 2] ∧ s.tick.running = 5)) (by decide +kernel)
  simp only [Bool.and_eq_true, decide_eq_true_eq] at htest
  obtain ⟨⟨⟨hm, henabled, hcond⟩, h0⟩, hready, hrun⟩ := htest
  exact ⟨s.tick, h0, hready, hrun, (no_ready_outranks hm hs).2 .tick _ henabled hcond rfl (.inl rfl)
    False.elim⟩

end Pintos.Schedule
