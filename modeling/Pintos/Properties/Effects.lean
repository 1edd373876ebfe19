import Pintos.Properties.Queues

/-!
# What a step of the scheduler changes

What the running thread has left to do, the semaphores and the holders of locks, after an
instruction, a call and a timer interrupt.
-/

namespace Pintos.Schedule

open Pintos.Lib

variable {s s' : Sys} {t u : Tid} {k : SemaId} {l : LockId} {i : Instr} {is : List Instr}

/-! ## What is left to do -/

/-- An instruction tests the value of a semaphore. -/
def Instr.tests : Instr → Option SemaId
  | .down k => some k
  | .retest k => some k
  | _ => none

/-- What an instruction may leave to do before the rest. -/
inductive Instr.Expands (s : Sys) : Instr → List Instr → Prop where
  | done (i : Instr) (h : ∀ k, i.tests = some k → (s.sema k).value ≠ 0) : Expands s i []
  | donate (l : LockId) (h : s.mlfqs = false) :
    Expands s (.testHolder l) [.setWaiting l, .donate l]
  | next (l m : LockId) : Expands s (.donate l) [.donate m]
  | wait {i : Instr} {k : SemaId} (hi : i.tests = some k) (h : (s.sema k).value = 0) :
    Expands s i [.retest k]
  | yieldIfBelow (t : Tid) (p : Int) : Expands s (.unblock t p) [.yieldIfBelow p]
  | wake (c : CondId) (t : Tid) : Expands s (.signal c) [.up (.waiter t)]
  | loop (c : CondId) : Expands s (.broadcast c) [.signal c, .broadcast c]

/-- The unit that a call takes at once, if it is there. -/
def Call.takes : Call → Option SemaId
  | .tryDown k => some (.plain k)
  | .tryAcquire l => some (.ofLock (.user l))
  | _ => none

/-- What a call may leave to do. -/
inductive Call.Expands (s : Sys) : Call → List Instr → Prop where
  | done (c : Call) (h : ∀ l, c = .tryAcquire l → (s.sema (.ofLock (.user l))).value = 0) :
    Expands s c []
  | create (p : Int) : Expands s (.create p)
      (Sys.lockAcquire .tid ++ Sys.lockRelease .tid ++ [.unblock s.created p])
  | setPriority (p : Int) : Expands s (.setPriority p) [.yield]
  | setNice (n : Int) : Expands s (.setNice n) [.yield]
  | sleep (n : Int) : Expands s (.sleep n) [.awake]
  | down (k : Nat) : Expands s (.down k) [.down (.plain k)]
  | up (k : Nat) : Expands s (.up k) [.up (.plain k)]
  | acquire (l : Nat) : Expands s (.acquire l) (Sys.lockAcquire (.user l))
  | tryAcquire (l : Nat) (h : (s.sema (.ofLock (.user l))).value ≠ 0) :
    Expands s (.tryAcquire l) [.setHolder (.user l)]
  | release (l : Nat) : Expands s (.release l) (Sys.lockRelease (.user l))
  | wait (c : CondId) : Expands s (.wait c) (.pushWaiter c :: Sys.lockRelease (s.condLock c) ++
      .down (.waiter s.running) :: Sys.lockAcquire (s.condLock c))
  | signal (c : CondId) : Expands s (.signal c) [.signal c]
  | broadcast (c : CondId) : Expands s (.broadcast c) [.broadcast c]
  | block : Expands s .block [.unblocked]

/-- The running thread has more to do, and no other thread. -/
def More (s : Sys) (is : List Instr) (s' : Sys) : Prop :=
  ∀ t, (s'.thread t).todo =
    if t = s.running then is ++ (s.thread t).todo else (s.thread t).todo

/-- Nothing is added where nothing changes. -/
theorem More.nil (h : ∀ t, (s'.thread t).todo = (s.thread t).todo) : More s [] s' := fun t => by
  rw [h]
  split <;> rfl

/-- `push` is how a call leaves something to do. -/
theorem more_push (s : Sys) (is : List Instr) : More s is (s.push is) := fun t => by
  rw [Sys.push_thread]
  split <;> rfl

theorem push_current (s : Sys) (is : List Instr) : (s.push is).current = is ++ s.current := by
  rw [Sys.current]
  show ((s.push is).thread s.running).todo = _
  rw [more_push s is s.running, if_pos rfl]
  rfl

/-- Nothing changes that a thread has left to do. -/
def SameTodo (s s' : Sys) : Prop := ∀ t, (s'.thread t).todo = (s.thread t).todo

theorem SameTodo.trans_more {s'' : Sys} (h : SameTodo s s') (hr : s'.running = s.running)
    (h' : More s' is s'') : More s is s'' := fun t => by
  rw [h' t, h t, hr]

/-- A switch of threads changes only states and what runs. -/
theorem sameTodo_schedule (s : Sys) : SameTodo s s.schedule := fun t => by
  rw [Sys.schedule_thread]
  split <;> rfl

theorem sameTodo_threadYield (s : Sys) : SameTodo s s.threadYield := fun t => by
  rw [Sys.threadYield_eq, sameTodo_schedule, Sys.offered_thread]
  split <;> rfl

theorem sameTodo_threadUpdatePriority (s : Sys) (t : Tid) :
    SameTodo s (s.threadUpdatePriority t) := fun u => by
  unfold Sys.threadUpdatePriority
  exact Sys.setThread_field (·.todo) u fun _ => rfl

theorem sameTodo_threadHoldTheLock (s : Sys) (l : LockId) :
    SameTodo s (s.threadHoldTheLock l) := fun u => by
  unfold Sys.threadHoldTheLock
  exact Sys.setThread_field (·.todo) u fun _ => rfl

theorem sameTodo_semaWake (s : Sys) (k : SemaId) : SameTodo s (s.semaWake k) := by
  unfold Sys.semaWake
  split
  · exact fun _ => rfl
  · exact fun u => Sys.setThread_field (·.todo) u fun _ => rfl

/-- By induction on the threads that wait for the timer. -/
theorem sameTodo_wakeThreads (ts : List Tid) (s : Sys) : SameTodo s (Sys.wakeThreads ts s) := by
  induction ts generalizing s with
  | nil => exact fun _ => rfl
  | cons t rest ih =>
    rw [Sys.wakeThreads]
    split
    · intro u
      rw [ih]
      exact Sys.setThread_field (·.todo) u fun _ => rfl
    · exact fun _ => rfl

/-- A timer interrupt wakes threads and then recomputes, if it recomputes. -/
theorem timerInterrupt_eq (s : Sys) : ∃ s₁, s₁ = Sys.wakeThreads s.waitingThreads
    { s with ticks := s.ticks + 1, threadTicks := s.threadTicks + 1 } ∧
      Reckoned s₁ s.timerInterrupt := by
  refine ⟨_, rfl, ?_⟩
  unfold Sys.timerInterrupt
  show Reckoned _ (if _ then _ else _)
  split
  · exact .mlfqsTick _
  · exact .refl _

theorem sameTodo_timerInterrupt (s : Sys) : SameTodo s s.timerInterrupt := fun t => by
  obtain ⟨s₁, hs₁, h⟩ := timerInterrupt_eq s
  rw [h.todo, hs₁, sameTodo_wakeThreads]

theorem sameTodo_tick (s : Sys) : SameTodo s s.tick := fun t => by
  unfold Sys.tick
  split
  · rw [sameTodo_threadYield, sameTodo_timerInterrupt]
  · exact sameTodo_timerInterrupt s t

/-- A test of a semaphore passes, or is left to be made again. -/
theorem more_semaDown (s : Sys) {i : Instr} {k : SemaId} (hi : i.tests = some k) :
    ∃ is, i.Expands s is ∧ More s is (s.semaDown k) := by
  by_cases hv : (s.sema k).value = 0
  · refine ⟨[.retest k], .wait hi hv, fun t => ?_⟩
    rw [Sys.semaDown_zero hv, sameTodo_schedule, Sys.waitOn_thread]
    split <;> rfl
  · rw [Sys.semaDown_pos hv]
    refine ⟨[], .done i fun j hj => ?_, .nil fun _ => rfl⟩
    rw [hi] at hj
    cases hj
    exact hv

/-- An instruction that tests no semaphore may leave nothing to do. -/
theorem Instr.Expands.skip (h : i.tests = none) : i.Expands s [] :=
  .done i fun k hk => by rw [h] at hk; cases hk

/-- A donation sets priorities and the order of the ready list. -/
theorem sameTodo_donated (s : Sys) (l : LockId) (t : Tid) :
    SameTodo s (s.donated l t) := fun u => by
  rw [donated_field (fun s => (s.thread u).todo) s l t fun _ _ => rfl]
  unfold Sys.raise
  split
  · exact sameTodo_threadUpdatePriority _ _ u
  · rfl

@[simp] theorem donated_running (s : Sys) (l : LockId) (t : Tid) :
    (s.donated l t).running = s.running := by
  rw [donated_field (·.running) s l t fun _ _ => rfl]
  unfold Sys.raise
  split <;> rfl

/-- What each instruction leaves to do. -/
theorem exec_more (h : s.exec i = .ok s') : ∃ is, i.Expands s is ∧ More s is s' := by
  cases exec_ran h with
  | testHeld _ _ hm => exact ⟨_, .donate _ hm, more_push s _⟩
  | setWaiting => exact ⟨_, .skip rfl, .nil fun u => Sys.setThread_field (·.todo) u fun _ => rfl⟩
  | donateLast => exact ⟨_, .skip rfl, .nil (sameTodo_donated s _ _)⟩
  | @donateNext l m t =>
    refine ⟨_, .next l m, ?_⟩
    exact (sameTodo_donated s l t).trans_more (donated_running s l t) (more_push _ _)
  | down => exact more_semaDown s rfl
  | retest => exact more_semaDown s rfl
  | holdListed => exact ⟨_, .skip rfl, .nil (sameTodo_threadHoldTheLock s _)⟩
  | remove =>
    refine ⟨_, .skip rfl, .nil fun t => ?_⟩
    rw [sameTodo_threadUpdatePriority]
    exact Sys.setThread_field (·.todo) t fun _ => rfl
  | up =>
    refine ⟨_, .skip rfl, .nil fun t => ?_⟩
    rw [Sys.semaUp, sameTodo_threadYield, sameTodo_semaWake]
  | yield => exact ⟨_, .skip rfl, .nil (sameTodo_threadYield s)⟩
  | @unblock t p =>
    have hs : SameTodo s (s.threadUnblock t) :=
      fun u => Sys.setThread_field (·.todo) u fun _ => rfl
    exact ⟨_, .yieldIfBelow t p, hs.trans_more rfl (more_push _ _)⟩
  | yieldBelow => exact ⟨_, .skip rfl, .nil (sameTodo_threadYield s)⟩
  | @signal c t ts => exact ⟨_, .wake c t, more_push (s.setCond c ts) _⟩
  | broadcast => exact ⟨_, .loop _, more_push s _⟩
  | _ => exact ⟨_, .skip rfl, .nil fun _ => rfl⟩

theorem Call.Expands.skip {c : Call} (h : ∀ l, c ≠ .tryAcquire l) : c.Expands s [] :=
  .done c fun l hl => absurd hl (h l)

/-- What each call leaves to do. -/
theorem call_more (hq : Queued s (some s.running) none) {c : Call} (h : s.call c = .ok s') :
    ∃ is, c.Expands s is ∧ More s is s' := by
  cases c with
  | create p =>
    simp only [Sys.call] at h
    split at h
    · cases h
      -- a new thread has nothing to do, as its place had before
      have hsame : SameTodo s (s.initThread p) := fun t => by
        show (Function.update s.thread s.created _ t).todo = _
        rw [Function.update_apply]
        split
        · next ht => rw [ht, (hq.fresh s.created (Nat.le_refl _)).2]
        · rfl
      exact ⟨_, .create p, hsame.trans_more rfl (more_push _ _)⟩
    · cases h
  | exit =>
    cases h
    refine ⟨_, .skip (by simp), .nil fun t => ?_⟩
    rw [Sys.threadExit, sameTodo_schedule]
    exact Sys.setThread_field (·.todo) t fun _ => rfl
  | yield =>
    cases h
    exact ⟨_, .skip (by simp), .nil (sameTodo_threadYield s)⟩
  | setPriority p =>
    cases h
    unfold Sys.threadSetPriority
    split
    · exact ⟨_, .skip (by simp), .nil fun _ => rfl⟩
    · dsimp only
      split
      · have hset : SameTodo s (s.setThread s.running fun t =>
            { t with basePriority := p, priority := p }) := fun t =>
          Sys.setThread_field (·.todo) t fun _ => rfl
        exact ⟨_, .setPriority p, hset.trans_more rfl (more_push _ _)⟩
      · exact ⟨_, .skip (by simp), .nil fun t => Sys.setThread_field (·.todo) t fun _ => rfl⟩
  | setNice n =>
    cases h
    have hset : SameTodo s (s.reniced n) := fun t =>
      Sys.setThread_field (·.todo) t fun r => by split <;> rfl
    rw [Sys.threadSetNice_eq]
    split
    · exact ⟨_, .setNice n, hset.trans_more rfl (more_push _ _)⟩
    · exact ⟨_, .skip (by simp), .nil hset⟩
  | sleep n =>
    cases h
    split
    · exact ⟨_, .skip (by simp), .nil fun _ => rfl⟩
    · refine ⟨_, .sleep n, fun t => ?_⟩
      rw [Sys.timerSleep_eq, sameTodo_schedule, Sys.drowse_thread]
      split <;> rfl
  | down k =>
    cases h
    exact ⟨_, .down k, more_push _ _⟩
  | tryDown k =>
    cases h
    refine ⟨_, .skip (by simp), .nil fun t => ?_⟩
    unfold Sys.semaTryDown
    split <;> rfl
  | up k =>
    cases h
    exact ⟨_, .up k, more_push _ _⟩
  | acquire l =>
    cases h
    exact ⟨_, .acquire l, more_push _ _⟩
  | tryAcquire l =>
    simp only [Sys.call] at h
    split at h
    · cases h
    · unfold Sys.semaTryDown at h
      split at h
      · next heq =>
        split at heq
        · next hv =>
          cases heq
          cases h
          exact ⟨_, .tryAcquire l (Nat.ne_of_gt hv), more_push _ _⟩
        · cases heq
      · next heq =>
        split at heq
        · cases heq
        · next hv =>
          cases heq
          cases h
          refine ⟨_, .done _ ?_, .nil fun _ => rfl⟩
          rintro _ ⟨⟩
          exact Nat.eq_zero_of_not_pos hv
  | release l =>
    cases h
    exact ⟨_, .release l, more_push _ _⟩
  | wait c =>
    cases h
    exact ⟨_, .wait c, more_push _ _⟩
  | signal c =>
    cases h
    exact ⟨_, .signal c, more_push _ _⟩
  | broadcast c =>
    cases h
    exact ⟨_, .broadcast c, more_push _ _⟩
  | block =>
    cases h
    refine ⟨_, .block, fun t => ?_⟩
    rw [Sys.threadBlock_eq, sameTodo_schedule, Sys.park_thread]
    split <;> rfl
  | unblock t =>
    obtain ⟨-, rfl⟩ := call_unblock h
    exact ⟨_, .skip (by simp), .nil fun u => Sys.setThread_field (·.todo) u fun _ => rfl⟩
  | idle =>
    cases h
    refine ⟨_, .skip (by simp), .nil fun t => ?_⟩
    rw [Sys.threadBlock, sameTodo_schedule]
    exact Sys.setThread_field (·.todo) t fun _ => rfl

/-- What the running thread has left to do after a step. -/
inductive Unfolds (s : Sys) : Action → List Instr → Prop where
  | call (c : Call) (is : List Instr) (h : c.Expands s is) : Unfolds s (.call c) is
  | go {i : Instr} {is rest : List Instr} (hi : s.current = i :: rest) (h : i.Expands s is) :
    Unfolds s .go (is ++ rest)
  | tick : Unfolds s .tick s.current
  | split : Unfolds s .split s.current

/-- A call is made where no other call is under way. -/
theorem current_nil_of_enabled {c : Call} (h : (Action.call c).Enabled s) : s.current = [] := by
  simpa [Sys.free] using h.1

/-- To go on is to take up the next instruction. -/
theorem go_cases (henabled : Action.go.Enabled s) (h : Action.go.step s = .ok s') :
    ∃ i rest, s.current = i :: rest ∧ s.pop.exec i = .ok s' := by
  cases hc : s.current with
  | nil =>
    have hf : s.free = true := by simp [Sys.free, hc]
    rw [Action.Enabled, hf] at henabled
    cases henabled
  | cons i rest =>
    refine ⟨i, rest, rfl, ?_⟩
    have htodo : (s.thread s.running).todo = i :: rest := hc
    have hpop : (s.setThread s.running fun t => { t with todo := rest }) = s.pop := by
      rw [Sys.pop, Sys.setThread, Sys.setThread, htodo]
      rfl
    simp only [Action.step, hc] at h
    rwa [hpop] at h

/-- What an instruction leaves to do is decided by the semaphores. -/
theorem Instr.Expands.of_sema (h : i.Expands s is) (hsema : s'.sema = s.sema)
    (hm : s'.mlfqs = s.mlfqs) : i.Expands s' is := by
  cases h with
  | done _ h => exact .done i (by rwa [hsema])
  | donate l h => exact .donate l (hm.trans h)
  | next l m => exact .next l m
  | wait hi h => exact .wait hi (by rwa [hsema])
  | yieldIfBelow t p => exact .yieldIfBelow t p
  | wake c t => exact .wake c t
  | loop c => exact .loop c

/-- A timer interrupt leaves to every thread what it had to do. -/
theorem tick_todo (s : Sys) (t : Tid) :
    (s.tick.thread t).todo = if t = s.running then s.current else (s.thread t).todo := by
  rw [sameTodo_tick]
  split
  · next ht => rw [ht]; rfl
  · rfl

/-- A step changes what the running thread has left to do, and that of no other. -/
theorem step_todo (hq : Queued s (some s.running) none) {a : Action} (henabled : a.Enabled s)
    (h : a.step s = .ok s') : ∃ is, Unfolds s a is ∧
      ∀ t, (s'.thread t).todo = if t = s.running then is else (s.thread t).todo := by
  cases a with
  | call c =>
    obtain ⟨is, hexp, hmore⟩ := call_more hq h
    refine ⟨is, .call c is hexp, fun t => ?_⟩
    rw [hmore t]
    split
    · next ht =>
      have hnil : (s.thread s.running).todo = [] := current_nil_of_enabled henabled
      rw [ht, hnil, List.append_nil]
    · rfl
  | go =>
    obtain ⟨i, rest, hi, hexec⟩ := go_cases henabled h
    obtain ⟨is, hexp, hmore⟩ := exec_more hexec
    refine ⟨is ++ rest, .go hi (hexp.of_sema rfl rfl), fun t => ?_⟩
    rw [hmore t]
    have hrest : (s.thread s.running).todo = i :: rest := hi
    show (if t = s.running then _ else _) = _
    split
    · next ht => simp [ht, Sys.pop, Sys.setThread_thread, hrest]
    · next ht => rw [Sys.pop, Sys.setThread_thread, if_neg ht]
  | tick =>
    cases h
    exact ⟨_, .tick, tick_todo s⟩
  | split =>
    cases split_tick h
    exact ⟨_, .split, tick_todo s⟩

theorem pop_current {rest : List Instr} (hi : s.current = i :: rest) : s.pop.current = rest := by
  have hcur : (s.thread s.running).todo = i :: rest := hi
  show (s.pop.thread s.running).todo = rest
  rw [Sys.pop, Sys.setThread_thread, if_pos rfl, hcur]
  rfl

/-- What the running thread has left to do after its next instruction. -/
theorem go_todo (hq : Queued s (some s.running) none) (henabled : Action.go.Enabled s)
    (h : Action.go.step s = .ok s') {rest : List Instr} (hi : s.current = i :: rest) :
    ∃ is, i.Expands s is ∧
      ∀ t, (s'.thread t).todo = if t = s.running then is ++ rest else (s.thread t).todo := by
  obtain ⟨is, hunf, htodo⟩ := step_todo hq henabled h
  cases hunf with
  | @go j js rest' hj hexp =>
    rw [hi] at hj
    cases hj
    exact ⟨js, hexp, htodo⟩

/-! ## Semaphores -/

/-- The semaphores after an instruction. -/
def Sys.semaAfter (s : Sys) : Instr → SemaId → Semaphore
  | .down k => if (s.sema k).value = 0 then (s.waitOn k).sema
      else (s.setSema k fun m => { m with value := m.value - 1 }).sema
  | .retest k => if (s.sema k).value = 0 then (s.waitOn k).sema
      else (s.setSema k fun m => { m with value := m.value - 1 }).sema
  | .up k => (s.semaWake k).sema
  | .pushWaiter _ => (s.setSema (.waiter s.running) fun _ => ⟨0, []⟩).sema
  | _ => s.sema

@[simp] theorem threadYield_sema (s : Sys) : s.threadYield.sema = s.sema := by
  rw [Sys.threadYield_eq, Sys.schedule_sema, Sys.offered_sema]

/-- The value goes down, or the thread is put among the waiters. -/
theorem semaDown_sema (s : Sys) (k : SemaId) : (s.semaDown k).sema = s.semaAfter (.down k) := by
  rw [Sys.semaAfter]
  split
  · next hv => rw [Sys.semaDown_zero hv, Sys.schedule_sema]
  · next hv => rw [Sys.semaDown_pos hv]

@[simp] theorem raise_sema (s : Sys) (l : LockId) (t : Tid) : (s.raise l t).sema = s.sema := by
  unfold Sys.raise
  split <;> rfl

@[simp] theorem donated_sema (s : Sys) (l : LockId) (t : Tid) :
    (s.donated l t).sema = s.sema :=
  (donated_field (·.sema) s l t fun _ _ => rfl).trans (raise_sema s l t)

/-- Only tests and `sema_up` change a semaphore. -/
theorem exec_sema (h : s.exec i = .ok s') : s'.sema = s.semaAfter i := by
  cases exec_ran h with
  | donateLast => exact donated_sema ..
  | donateNext => exact donated_sema ..
  | down => exact semaDown_sema s _
  | retest => exact semaDown_sema s _
  | up =>
    rw [Sys.semaUp, threadYield_sema]
    rfl
  | yield => exact threadYield_sema s
  | yieldBelow => exact threadYield_sema s
  | _ => rfl

/-- The semaphores after a call. -/
def Sys.semaTaken (s : Sys) (c : Call) : SemaId → Semaphore :=
  match c.takes with
  | some k => if 0 < (s.sema k).value then
      (s.setSema k fun m => { m with value := m.value - 1 }).sema else s.sema
  | none => s.sema

/-- `sema_try_down` takes a unit if there is one. -/
theorem semaTryDown_sema (s : Sys) (k : SemaId) : (s.semaTryDown k).2.sema =
    if 0 < (s.sema k).value then (s.setSema k fun m => { m with value := m.value - 1 }).sema
    else s.sema := by
  unfold Sys.semaTryDown
  split <;> rfl

/-- Of the calls, only those that try take a unit at once. -/
theorem call_sema {c : Call} (h : s.call c = .ok s') : s'.sema = s.semaTaken c := by
  cases c with
  | create p =>
    simp only [Sys.call] at h
    split at h <;> cases h
    rfl
  | exit =>
    cases h
    exact Sys.schedule_sema
  | yield =>
    cases h
    exact threadYield_sema s
  | setPriority p =>
    cases h
    unfold Sys.threadSetPriority
    split
    · rfl
    · dsimp only
      split <;> rfl
  | setNice n =>
    cases h
    rw [Sys.threadSetNice_eq]
    split <;> rfl
  | sleep n =>
    cases h
    split
    · rfl
    · rw [Sys.timerSleep_eq, Sys.schedule_sema]
      rfl
  | tryDown k =>
    cases h
    exact semaTryDown_sema s _
  | tryAcquire l =>
    have hs := semaTryDown_sema s (.ofLock (.user l))
    simp only [Sys.call] at h
    split at h
    · cases h
    · split at h
      · next heq =>
        rw [heq] at hs
        cases h
        exact hs
      · next heq =>
        rw [heq] at hs
        cases h
        exact hs
  | block =>
    cases h
    exact Sys.schedule_sema
  | unblock t =>
    obtain ⟨-, rfl⟩ := call_unblock h
    rfl
  | idle =>
    cases h
    exact Sys.schedule_sema
  | _ =>
    cases h
    rfl

/-- The timer wakes threads without a semaphore. -/
theorem wakeThreads_sema (ts : List Tid) (s : Sys) : (Sys.wakeThreads ts s).sema = s.sema := by
  induction ts generalizing s with
  | nil => rfl
  | cons t rest ih =>
    rw [Sys.wakeThreads]
    split
    · rw [ih]
      rfl
    · rfl

@[simp] theorem tick_sema (s : Sys) : s.tick.sema = s.sema := by
  have h : s.timerInterrupt.sema = s.sema := by
    obtain ⟨s₁, hs₁, h⟩ := timerInterrupt_eq s
    rw [h.sema, hs₁, wakeThreads_sema]
  unfold Sys.tick
  split
  · rw [threadYield_sema, h]
  · exact h

/-! ## What hardly ever changes -/

/-- What no instruction changes. -/
def Sys.fixed (s : Sys) : Bool × (CondId → LockId) × Nat := (s.mlfqs, s.condLock, s.created)

@[simp] theorem schedule_fixed (s : Sys) : s.schedule.fixed = s.fixed := by
  simp [Sys.fixed]

@[simp] theorem threadYield_fixed (s : Sys) : s.threadYield.fixed = s.fixed := by
  simp [Sys.fixed, Sys.threadYield_eq]

@[simp] theorem semaWake_fixed (s : Sys) (k : SemaId) : (s.semaWake k).fixed = s.fixed := by
  unfold Sys.semaWake
  split <;> rfl

@[simp] theorem semaDown_fixed (s : Sys) (k : SemaId) : (s.semaDown k).fixed = s.fixed := by
  by_cases hv : (s.sema k).value = 0
  · rw [Sys.semaDown_zero hv, schedule_fixed]
    rfl
  · rw [Sys.semaDown_pos hv]
    rfl

@[simp] theorem raise_fixed (s : Sys) (l : LockId) (t : Tid) : (s.raise l t).fixed = s.fixed := by
  unfold Sys.raise
  split <;> rfl

/-- No instruction makes a thread or chooses a lock for a condition variable. -/
theorem exec_fixed (h : s.exec i = .ok s') : s'.fixed = s.fixed := by
  cases exec_ran h with
  | donateLast => exact (donated_field (·.fixed) s _ _ fun _ _ => rfl).trans (raise_fixed ..)
  | donateNext => exact (donated_field (·.fixed) s _ _ fun _ _ => rfl).trans (raise_fixed ..)
  | down => exact semaDown_fixed s _
  | retest => exact semaDown_fixed s _
  | up => rw [Sys.semaUp, threadYield_fixed, semaWake_fixed]
  | yield => exact threadYield_fixed s
  | yieldBelow => exact threadYield_fixed s
  | _ => rfl

/-- The threads that a call makes. -/
def Call.makes : Call → Nat
  | .create _ => 1
  | _ => 0

/-- Only `thread_create` makes a thread. -/
theorem call_fixed {c : Call} (h : s.call c = .ok s') :
    s'.fixed = (s.mlfqs, s.condLock, s.created + c.makes) := by
  cases c with
  | create p =>
    simp only [Sys.call] at h
    split at h <;> cases h
    rfl
  | exit =>
    cases h
    exact schedule_fixed _
  | yield =>
    cases h
    exact threadYield_fixed s
  | setPriority p =>
    cases h
    unfold Sys.threadSetPriority
    split
    · rfl
    · dsimp only
      split <;> rfl
  | setNice n =>
    cases h
    rw [Sys.threadSetNice_eq]
    split <;> rfl
  | sleep n =>
    cases h
    split
    · rfl
    · rw [Sys.timerSleep_eq, schedule_fixed]
      rfl
  | tryDown k =>
    cases h
    unfold Sys.semaTryDown
    split <;> rfl
  | tryAcquire l =>
    simp only [Sys.call] at h
    split at h
    · cases h
    · unfold Sys.semaTryDown at h
      split at h
      · next heq =>
        split at heq <;> cases heq
        cases h
        rfl
      · next heq =>
        split at heq <;> cases heq
        cases h
        rfl
  | block =>
    cases h
    exact schedule_fixed _
  | unblock t =>
    obtain ⟨-, rfl⟩ := call_unblock h
    rfl
  | idle =>
    cases h
    exact schedule_fixed _
  | _ =>
    cases h
    rfl

theorem wakeThreads_fixed (ts : List Tid) (s : Sys) : (Sys.wakeThreads ts s).fixed = s.fixed := by
  induction ts generalizing s with
  | nil => rfl
  | cons t rest ih =>
    rw [Sys.wakeThreads]
    split
    · rw [ih]
      rfl
    · rfl

@[simp] theorem tick_fixed (s : Sys) : s.tick.fixed = s.fixed := by
  have h : s.timerInterrupt.fixed = s.fixed := by
    obtain ⟨s₁, hs₁, h⟩ := timerInterrupt_eq s
    have hfixed : s₁.fixed = s.fixed := by
      rw [hs₁, wakeThreads_fixed]
      rfl
    rw [← hfixed, Sys.fixed, Sys.fixed, h.mlfqs, h.condLock, h.created]
  unfold Sys.tick
  split
  · rw [threadYield_fixed, h]
  · exact h

/-- What a run never changes, and the number of threads, which only grows. -/
theorem step_fixed {a : Action} (henabled : a.Enabled s) (h : a.step s = .ok s') :
    s'.mlfqs = s.mlfqs ∧ s'.condLock = s.condLock ∧ s.created ≤ s'.created := by
  have hsame : s'.fixed = s.fixed →
      s'.mlfqs = s.mlfqs ∧ s'.condLock = s.condLock ∧ s.created ≤ s'.created := by
    intro hf
    rw [Sys.fixed, Sys.fixed, Prod.mk.injEq, Prod.mk.injEq] at hf
    exact ⟨hf.1, hf.2.1, Nat.le_of_eq hf.2.2.symm⟩
  cases a with
  | call c =>
    have hf := call_fixed h
    rw [Sys.fixed, Prod.mk.injEq, Prod.mk.injEq] at hf
    exact ⟨hf.1, hf.2.1, by omega⟩
  | go =>
    obtain ⟨i, rest, -, hexec⟩ := go_cases henabled h
    exact hsame (by rw [exec_fixed hexec]; rfl)
  | tick =>
    cases h
    exact hsame (tick_fixed s)
  | split =>
    cases split_tick h
    exact hsame (tick_fixed s)

/-! ## Conditions -/

@[simp] theorem threadYield_cond (s : Sys) : s.threadYield.cond = s.cond := by
  rw [Sys.threadYield_eq, Sys.schedule_cond, Sys.offered_cond]

@[simp] theorem semaWake_cond (s : Sys) (k : SemaId) : (s.semaWake k).cond = s.cond := by
  unfold Sys.semaWake
  split <;> rfl

@[simp] theorem semaDown_cond (s : Sys) (k : SemaId) : (s.semaDown k).cond = s.cond := by
  by_cases hv : (s.sema k).value = 0
  · rw [Sys.semaDown_zero hv, Sys.schedule_cond]
    rfl
  · rw [Sys.semaDown_pos hv]
    rfl

@[simp] theorem raise_cond (s : Sys) (l : LockId) (t : Tid) : (s.raise l t).cond = s.cond := by
  unfold Sys.raise
  split <;> rfl

/-- Only `cond_wait` and `cond_signal` change the waiters of a condition variable. -/
theorem exec_cond (hpush : ∀ c, i ≠ .pushWaiter c) (hsignal : ∀ c, i ≠ .signal c)
    (h : s.exec i = .ok s') : s'.cond = s.cond := by
  cases exec_ran h with
  | donateLast => exact (donated_field (·.cond) s _ _ fun _ _ => rfl).trans (raise_cond ..)
  | donateNext => exact (donated_field (·.cond) s _ _ fun _ _ => rfl).trans (raise_cond ..)
  | down => exact semaDown_cond s _
  | retest => exact semaDown_cond s _
  | up => rw [Sys.semaUp, threadYield_cond, semaWake_cond]
  | yield => exact threadYield_cond s
  | yieldBelow => exact threadYield_cond s
  | pushWaiter => exact absurd rfl (hpush _)
  | signal => exact absurd rfl (hsignal _)
  | _ => rfl

/-- The calls leave that to their instructions. -/
theorem call_cond {c : Call} (h : s.call c = .ok s') : s'.cond = s.cond := by
  cases c with
  | create p =>
    simp only [Sys.call] at h
    split at h <;> cases h
    rfl
  | exit =>
    cases h
    exact Sys.schedule_cond
  | yield =>
    cases h
    exact threadYield_cond s
  | setPriority p =>
    cases h
    unfold Sys.threadSetPriority
    split
    · rfl
    · dsimp only
      split <;> rfl
  | setNice n =>
    cases h
    rw [Sys.threadSetNice_eq]
    split <;> rfl
  | sleep n =>
    cases h
    split
    · rfl
    · rw [Sys.timerSleep_eq, Sys.schedule_cond]
      rfl
  | tryDown k =>
    cases h
    unfold Sys.semaTryDown
    split <;> rfl
  | tryAcquire l =>
    simp only [Sys.call] at h
    split at h
    · cases h
    · unfold Sys.semaTryDown at h
      split at h
      · next heq =>
        split at heq <;> cases heq
        cases h
        rfl
      · next heq =>
        split at heq <;> cases heq
        cases h
        rfl
  | block =>
    cases h
    exact Sys.schedule_cond
  | unblock t =>
    obtain ⟨-, rfl⟩ := call_unblock h
    rfl
  | idle =>
    cases h
    exact Sys.schedule_cond
  | _ =>
    cases h
    rfl

theorem wakeThreads_cond (ts : List Tid) (s : Sys) : (Sys.wakeThreads ts s).cond = s.cond := by
  induction ts generalizing s with
  | nil => rfl
  | cons t rest ih =>
    rw [Sys.wakeThreads]
    split
    · rw [ih]
      rfl
    · rfl

@[simp] theorem tick_cond (s : Sys) : s.tick.cond = s.cond := by
  have h : s.timerInterrupt.cond = s.cond := by
    obtain ⟨s₁, hs₁, h⟩ := timerInterrupt_eq s
    rw [h.cond, hs₁, wakeThreads_cond]
  unfold Sys.tick
  split
  · rw [threadYield_cond, h]
  · exact h

/-- The sort of `cond_signal` loses no waiter. -/
theorem perm_sortWaiters {ts ts' : List Tid} (h : s.sortWaiters ts = .ok ts') : ts'.Perm ts := by
  unfold Sys.sortWaiters at h
  split at h
  · cases h
  · cases h
    exact listSort_perm _ _

/-- `cond_signal` takes one waiter from the list, and is to wake it. -/
theorem exec_signal {c : CondId} (h : s.exec (.signal c) = .ok s') :
    (s.lock (s.condLock c)).holder = some s.running ∧
      (s.cond c = [] ∧ s' = s ∨ ∃ t rest, s.sortWaiters (s.cond c) = .ok (t :: rest) ∧
        s' = (s.setCond c rest).push [.up (.waiter t)]) := by
  cases exec_ran h with
  | signalNone hheld hnil => exact ⟨hheld, .inl ⟨hnil, rfl⟩⟩
  | signal hheld hsort => exact ⟨hheld, .inr ⟨_, _, hsort, rfl⟩⟩

/-! ## Holders -/

/-- The holder of a lock after an instruction. -/
def Sys.holderAfter (s : Sys) : Instr → LockId → Option Tid
  | .hold l, m => if m = l then some s.running else (s.lock m).holder
  | .setHolder l, m => if m = l then some s.running else (s.lock m).holder
  | .clearHolder l, m => if m = l then none else (s.lock m).holder
  | _, m => (s.lock m).holder

/-- A change of a lock that leaves its holder alone. -/
theorem setLock_holder (s : Sys) (l m : LockId) (f : Lock → Lock)
    (hf : ∀ r, (f r).holder = r.holder) :
    ((s.setLock l f).lock m).holder = (s.lock m).holder := by
  rw [Sys.setLock_lock]
  split
  · next h => rw [h, hf]
  · rfl

@[simp] theorem threadYield_lock (s : Sys) : s.threadYield.lock = s.lock := by
  rw [Sys.threadYield_eq, Sys.schedule_lock, Sys.offered_lock]

@[simp] theorem semaWake_lock (s : Sys) (k : SemaId) : (s.semaWake k).lock = s.lock := by
  unfold Sys.semaWake
  split <;> rfl

@[simp] theorem semaDown_lock (s : Sys) (k : SemaId) : (s.semaDown k).lock = s.lock := by
  by_cases hv : (s.sema k).value = 0
  · rw [Sys.semaDown_zero hv, Sys.schedule_lock]
    rfl
  · rw [Sys.semaDown_pos hv]
    rfl

@[simp] theorem threadUpdatePriority_lock (s : Sys) (t : Tid) :
    (s.threadUpdatePriority t).lock = s.lock := rfl

theorem threadHoldTheLock_lock (s : Sys) (l : LockId) : (s.threadHoldTheLock l).lock =
    (s.setLock l fun r => { r with maxPriority := (s.thread s.running).priority }).lock := rfl

theorem raise_holder (s : Sys) (l m : LockId) (t : Tid) :
    ((s.raise l t).lock m).holder = (s.lock m).holder := by
  unfold Sys.raise
  split
  · rw [threadUpdatePriority_lock]
    exact setLock_holder s l m _ fun _ => rfl
  · rfl

/-- Only `lock_acquire` and `lock_release` set the holder of a lock. -/
theorem exec_holder (h : s.exec i = .ok s') (m : LockId) :
    (s'.lock m).holder = s.holderAfter i m := by
  cases exec_ran h with
  | donateLast =>
    exact (donated_field (fun s => (s.lock m).holder) s _ _ fun _ _ => rfl).trans (raise_holder ..)
  | donateNext =>
    exact (donated_field (fun s => (s.lock m).holder) s _ _ fun _ _ => rfl).trans (raise_holder ..)
  | down =>
    rw [semaDown_lock]
    rfl
  | retest =>
    rw [semaDown_lock]
    rfl
  | hold =>
    rw [Sys.setLock_lock, Sys.holderAfter]
    split <;> rfl
  | @holdListed l =>
    rw [Sys.setLock_lock, Sys.holderAfter]
    split
    · rfl
    · rw [threadHoldTheLock_lock]
      exact setLock_holder s l m _ fun _ => rfl
  | setHolder =>
    rw [Sys.setLock_lock, Sys.holderAfter]
    split <;> rfl
  | clearHolder =>
    rw [Sys.setLock_lock, Sys.holderAfter]
    split <;> rfl
  | up =>
    rw [Sys.semaUp, threadYield_lock, semaWake_lock]
    rfl
  | yield =>
    rw [threadYield_lock]
    rfl
  | yieldBelow =>
    rw [threadYield_lock]
    rfl
  | _ => rfl

/-- The calls leave that to their instructions, too. -/
theorem call_lock {c : Call} (h : s.call c = .ok s') : s'.lock = s.lock := by
  cases c with
  | create p =>
    simp only [Sys.call] at h
    split at h <;> cases h
    rfl
  | exit =>
    cases h
    exact Sys.schedule_lock
  | yield =>
    cases h
    exact threadYield_lock s
  | setPriority p =>
    cases h
    unfold Sys.threadSetPriority
    split
    · rfl
    · dsimp only
      split <;> rfl
  | setNice n =>
    cases h
    rw [Sys.threadSetNice_eq]
    split <;> rfl
  | sleep n =>
    cases h
    split
    · rfl
    · rw [Sys.timerSleep_eq, Sys.schedule_lock]
      rfl
  | tryDown k =>
    cases h
    unfold Sys.semaTryDown
    split <;> rfl
  | tryAcquire l =>
    simp only [Sys.call] at h
    split at h
    · cases h
    · unfold Sys.semaTryDown at h
      split at h
      · next heq =>
        split at heq <;> cases heq
        cases h
        rfl
      · next heq =>
        split at heq <;> cases heq
        cases h
        rfl
  | block =>
    cases h
    exact Sys.schedule_lock
  | unblock t =>
    obtain ⟨-, rfl⟩ := call_unblock h
    rfl
  | idle =>
    cases h
    exact Sys.schedule_lock
  | _ =>
    cases h
    rfl

theorem wakeThreads_lock (ts : List Tid) (s : Sys) : (Sys.wakeThreads ts s).lock = s.lock := by
  induction ts generalizing s with
  | nil => rfl
  | cons t rest ih =>
    rw [Sys.wakeThreads]
    split
    · rw [ih]
      rfl
    · rfl

@[simp] theorem tick_lock (s : Sys) : s.tick.lock = s.lock := by
  have h : s.timerInterrupt.lock = s.lock := by
    obtain ⟨s₁, hs₁, h⟩ := timerInterrupt_eq s
    rw [h.lock, hs₁, wakeThreads_lock]
  unfold Sys.tick
  split
  · rw [threadYield_lock, h]
  · exact h

/-! ## What the timer works on -/

/-- What `timer.c` works on in a thread. -/
structure ThreadTiming where
  ticksWake : Int
  nice : Int
  recentCpu : Int

/-- What only the timer interrupt and a few calls change. -/
structure Timing where
  waitingThreads : List Tid
  allList : List Tid
  ticks : Int
  loadAvg : Int
  thread : Tid → ThreadTiming

/-- What the timer and the MLFQS scheduler use of a thread. -/
def Thread.timing (t : Thread) : ThreadTiming := ⟨t.ticksWake, t.nice, t.recentCpu⟩

/-- What the timer and the MLFQS scheduler use. -/
def Sys.timing (s : Sys) : Timing :=
  ⟨s.waitingThreads, s.allList, s.ticks, s.loadAvg, fun t => (s.thread t).timing⟩

/-- A change of a thread is seen only in what is used of it. -/
theorem timing_setThread (s : Sys) (t : Tid) (f : Thread → Thread) : (s.setThread t f).timing =
    { s.timing with thread := Function.update s.timing.thread t (f (s.thread t)).timing } := by
  refine congrArg (Timing.mk _ _ _ _) (funext fun u => ?_)
  rw [Sys.setThread_thread, Function.update_apply]
  split
  · rfl
  · rfl

/-- A change of anything else is not seen. -/
theorem setThread_timing (t : Tid) (f : Thread → Thread) (hf : ∀ r, (f r).timing = r.timing) :
    (s.setThread t f).timing = s.timing := by
  rw [timing_setThread, hf]
  exact congrArg (Timing.mk _ _ _ _) (Function.update_eq_self t s.timing.thread)

theorem status_timing (s : Sys) (t : Tid) (st : Status) :
    (s.setThread t fun r => { r with status := st }).timing = s.timing :=
  setThread_timing _ _ fun _ => rfl

@[simp] theorem schedule_timing (s : Sys) : s.schedule.timing = s.timing := by
  rw [Sys.schedule, Sys.nextThreadToRun]
  cases s.readyList with
  | nil => exact status_timing s idleThread .running
  | cons t rest => exact status_timing { s with readyList := rest } t .running

@[simp] theorem push_timing (s : Sys) (is : List Instr) : (s.push is).timing = s.timing :=
  setThread_timing _ _ fun _ => rfl

@[simp] theorem offered_timing (s : Sys) : s.offered.timing = s.timing := by
  unfold Sys.offered
  split
  · exact status_timing (s.insertReady s.running) _ _
  · exact status_timing _ _ _

@[simp] theorem threadYield_timing (s : Sys) : s.threadYield.timing = s.timing := by
  rw [Sys.threadYield_eq, schedule_timing, offered_timing]

@[simp] theorem threadUnblock_timing (s : Sys) (t : Tid) : (s.threadUnblock t).timing = s.timing :=
  status_timing (s.insertReady t) t _

@[simp] theorem semaWake_timing (s : Sys) (k : SemaId) : (s.semaWake k).timing = s.timing := by
  unfold Sys.semaWake
  split
  · rfl
  · exact threadUnblock_timing _ _

@[simp] theorem semaDown_timing (s : Sys) (k : SemaId) : (s.semaDown k).timing = s.timing := by
  by_cases hv : (s.sema k).value = 0
  · rw [Sys.semaDown_zero hv, schedule_timing, Sys.waitOn, status_timing, push_timing]
    rfl
  · rw [Sys.semaDown_pos hv]
    rfl

theorem threadUpdatePriority_timing (s : Sys) (t : Tid) :
    (s.threadUpdatePriority t).timing = s.timing :=
  setThread_timing _ _ fun _ => rfl

theorem raise_timing (s : Sys) (l : LockId) (t : Tid) : (s.raise l t).timing = s.timing := by
  unfold Sys.raise
  split
  · exact threadUpdatePriority_timing _ _
  · rfl

theorem donated_timing (s : Sys) (l : LockId) (t : Tid) : (s.donated l t).timing = s.timing :=
  (donated_field (·.timing) s l t fun _ _ => rfl).trans (raise_timing s l t)

theorem threadHoldTheLock_timing (s : Sys) (l : LockId) :
    (s.threadHoldTheLock l).timing = s.timing :=
  setThread_timing (s := s.setLock l _) _ _ fun _ => rfl

/-- No instruction changes what the timer works on. -/
theorem exec_timing (h : s.exec i = .ok s') : s'.timing = s.timing := by
  cases exec_ran h with
  | testHeld => exact push_timing _ _
  | setWaiting => exact setThread_timing _ _ fun _ => rfl
  | donateLast => exact donated_timing ..
  | donateNext => exact (push_timing _ _).trans (donated_timing ..)
  | down => exact semaDown_timing ..
  | retest => exact semaDown_timing ..
  | @holdListed l =>
    show (s.threadHoldTheLock l).timing = s.timing
    exact threadHoldTheLock_timing s l
  | remove =>
    exact (threadUpdatePriority_timing _ _).trans (setThread_timing _ _ fun _ => rfl)
  | up => exact (threadYield_timing _).trans (semaWake_timing ..)
  | yield => exact threadYield_timing _
  | unblock => exact (push_timing _ _).trans (threadUnblock_timing ..)
  | yieldBelow => exact threadYield_timing _
  | signal => exact push_timing _ _
  | broadcast => exact push_timing _ _
  | _ => rfl

/-- The state in `timer_sleep` before the insertion. -/
def Sys.alarmed (s : Sys) (n : Int) : Sys :=
  s.setThread s.running fun t => { t with ticksWake := s.ticks + n }

/-- What a call leaves. -/
def Sys.timingAfter (s : Sys) : Call → Timing
  | .create _ =>
    { s.timing with
      allList := s.created :: s.allList
      thread := Function.update s.timing.thread s.created ⟨0, 0, 0⟩ }
  | .exit => { s.timing with allList := s.allList.erase s.running }
  | .setNice n =>
    { s.timing with
      thread := Function.update s.timing.thread s.running
        { s.timing.thread s.running with nice := n } }
  | .sleep n =>
    if n ≤ 0 then s.timing
    else { (s.alarmed n).timing with
      waitingThreads :=
        listInsertOrdered (s.alarmed n).timerCmpWakingTime s.running s.waitingThreads }
  | _ => s.timing

/-- `timer_sleep` and `thread_set_nice` set what the timer uses, and `thread_create` makes it. -/
theorem call_timing {c : Call} (h : s.call c = .ok s') : s'.timing = s.timingAfter c := by
  cases c with
  | create p =>
    simp only [Sys.call] at h
    split at h <;> cases h
    rw [push_timing]
    refine congrArg (Timing.mk _ _ _ _) (funext fun t => ?_)
    show (Function.update s.thread s.created _ t).timing = _
    rw [Function.update_apply, Function.update_apply]
    split
    · rfl
    · rfl
  | exit =>
    cases h
    exact (schedule_timing _).trans
      (status_timing { s with allList := s.allList.erase s.running } _ _)
  | yield =>
    cases h
    exact threadYield_timing s
  | setPriority p =>
    cases h
    unfold Sys.threadSetPriority
    split
    · rfl
    · dsimp only
      split
      · exact (push_timing _ _).trans (setThread_timing _ _ fun _ => rfl)
      · exact setThread_timing _ _ fun _ => rfl
  | setNice n =>
    cases h
    have hset : (s.reniced n).timing = s.timingAfter (.setNice n) := by
      rw [Sys.reniced, timing_setThread, Sys.timingAfter]
      split
      · rfl
      · rfl
    rw [Sys.threadSetNice_eq]
    split
    · exact (push_timing _ _).trans hset
    · exact hset
  | sleep n =>
    cases h
    rw [Sys.timingAfter]
    split
    · rfl
    · rw [Sys.timerSleep, Sys.threadBlock, schedule_timing, status_timing, push_timing]
      rfl
  | tryDown k =>
    cases h
    unfold Sys.semaTryDown
    split <;> rfl
  | tryAcquire l =>
    simp only [Sys.call] at h
    split at h
    · cases h
    · unfold Sys.semaTryDown at h
      split at h
      · next heq =>
        split at heq <;> cases heq
        cases h
        exact push_timing _ _
      · next heq =>
        split at heq <;> cases heq
        cases h
        rfl
  | block =>
    cases h
    exact (schedule_timing _).trans ((status_timing _ _ _).trans (push_timing _ _))
  | unblock t =>
    obtain ⟨-, rfl⟩ := call_unblock h
    exact threadUnblock_timing _ _
  | idle =>
    cases h
    exact (schedule_timing _).trans (status_timing _ _ _)
  | _ =>
    cases h
    exact push_timing _ _

end Pintos.Schedule
