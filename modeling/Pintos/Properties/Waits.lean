import Pintos.Threads.Synch
import Mathlib.Logic.Basic

/-!
# Who waits for whom

What ties threads, locks and semaphores together (`Wired`, `Valued`), and that every step
keeps it.

Donated priorities play no part here: a donation leaves everything as it was but priorities
and the order of the locks held (`Kept`).
-/

namespace Pintos.Threads

open Pintos.Lib

variable {s s' : Sys} {t u h w cur : Tid} {l m lock : LockId} {k : SemaId} {depth : Nat}

/-! ## Updates of a state -/

namespace Sys

/-- Only the thread `t` is changed. -/
theorem setThread_thread (f : Thread → Thread) :
    (s.setThread t f).thread u = if u = t then f (s.thread t) else s.thread u := by
  simp [setThread, Function.update_apply]

@[simp] theorem setThread_lock (f : Thread → Thread) : (s.setThread t f).lock = s.lock := rfl
@[simp] theorem setThread_sema (f : Thread → Thread) : (s.setThread t f).sema = s.sema := rfl
@[simp] theorem setThread_created (f : Thread → Thread) :
    (s.setThread t f).created = s.created := rfl

/-- Only the lock `l` is changed. -/
theorem setLock_lock (f : Lock → Lock) :
    (s.setLock l f).lock m = if m = l then f (s.lock l) else s.lock m := by
  simp [setLock, Function.update_apply]

@[simp] theorem setLock_thread (f : Lock → Lock) : (s.setLock l f).thread = s.thread := rfl
@[simp] theorem setLock_sema (f : Lock → Lock) : (s.setLock l f).sema = s.sema := rfl
@[simp] theorem setLock_created (f : Lock → Lock) : (s.setLock l f).created = s.created := rfl

/-- Only the semaphore `k` is changed. -/
theorem setSema_sema {j : SemaId} (f : Semaphore → Semaphore) :
    (s.setSema k f).sema j = if j = k then f (s.sema k) else s.sema j := by
  simp [setSema, Function.update_apply]

@[simp] theorem setSema_thread (f : Semaphore → Semaphore) :
    (s.setSema k f).thread = s.thread := rfl
@[simp] theorem setSema_lock (f : Semaphore → Semaphore) : (s.setSema k f).lock = s.lock := rfl
@[simp] theorem setSema_created (f : Semaphore → Semaphore) :
    (s.setSema k f).created = s.created := rfl

/-- What a change of a thread leaves alone in it, it leaves alone in every thread. -/
theorem setThread_field {β : Type} {f : Thread → Thread} (g : Thread → β) (u : Tid)
    (hf : ∀ r, g (f r) = g r) :
    g ((s.setThread t f).thread u) = g (s.thread u) := by
  rw [setThread_thread]
  split
  · next hu => rw [hu, hf]
  · rfl

/-- What a change of a lock leaves alone in it, it leaves alone in every lock. -/
theorem setLock_field {β : Type} {f : Lock → Lock} (g : Lock → β) (m : LockId)
    (hf : ∀ r, g (f r) = g r) :
    g ((s.setLock l f).lock m) = g (s.lock m) := by
  rw [setLock_lock]
  split
  · next hm => rw [hm, hf]
  · rfl

end Sys

/-! ## Waiting -/

/-- A thread is blocked in `lock_acquire` on a lock. -/
def Waiting (s : Sys) (u : Tid) (l : LockId) : Prop :=
  (s.thread u).blocked = true ∧ (s.thread u).downing = some (.ofLock l)

instance (s : Sys) (u : Tid) (l : LockId) : Decidable (Waiting s u l) :=
  inferInstanceAs (Decidable (_ ∧ _))

/-- A thread waits for one lock at most. -/
theorem Waiting.unique (hl : Waiting s u l) (hm : Waiting s u m) : l = m :=
  SemaId.ofLock.inj (Option.some.inj (hl.2.symm.trans hm.2))

/-- The chain of waits that starts at a lock: its holder, the holder of the lock this one
waits for, and so on. -/
inductive OnChain (s : Sys) : LockId → Tid → Prop where
  | holder {l : LockId} {h : Tid} (hh : (s.lock l).holder = some h) : OnChain s l h
  | next {l m : LockId} {h u : Tid} (hh : (s.lock l).holder = some h) (hm : Waiting s h m)
      (hu : OnChain s m u) : OnChain s l u

/-- With fewer waits and fewer holders the chains only get shorter. -/
theorem OnChain.mono (hwait : ∀ u l, Waiting s' u l → Waiting s u l)
    (hhold : ∀ l t, (s'.lock l).holder = some t → (s.lock l).holder = some t)
    (h : OnChain s' l u) : OnChain s l u := by
  induction h with
  | holder hh => exact .holder (hhold _ _ hh)
  | next hh hm _ ih => exact .next (hhold _ _ hh) (hwait _ _ hm) ih

/-- No thread waits for a lock with itself on the chain. -/
def Acyclic (s : Sys) : Op → Prop
  | .acquire cur lock => ¬ OnChain s lock cur
  | .resume cur => ∀ lock, (s.thread cur).downing = some (.ofLock lock) → ¬ OnChain s lock cur
  | _ => True

/-- What ties threads, locks and semaphores together. -/
structure Wired (s : Sys) : Prop where
  held : ∀ t l, l ∈ (s.thread t).locks ↔ (s.lock l).holder = some t
  once : ∀ t, (s.thread t).locks.Nodup
  queued : ∀ k u, u ∈ (s.sema k).waiters ↔ (s.thread u).blocked = true ∧ (s.thread u).downing = some k
  queuedOnce : ∀ k, (s.sema k).waiters.Nodup
  linked : ∀ u l, (s.thread u).downing = some (.ofLock l) → (s.thread u).lockWaiting = some l
  noSelf : ∀ u l, (s.thread u).downing = some (.ofLock l) → (s.lock l).holder ≠ some u
  fresh : ∀ t, s.created ≤ t →
    (s.thread t).locks = [] ∧ (s.thread t).blocked = false ∧ (s.thread t).downing = none

/-- No thread waits for a lock without waiters. -/
theorem Wired.not_waiting (hw : Wired s) (hnil : (s.sema (.ofLock l)).waiters = []) :
    ¬ Waiting s u l := fun hul => by
  have hmem := (hw.queued (.ofLock l) u).mpr hul
  rw [hnil] at hmem
  cases hmem

/-- The semaphore of a lock counts whether the lock is free. -/
def Valued (s : Sys) : Prop :=
  ∀ l, (s.sema (.ofLock l)).value = if (s.lock l).holder = none then 1 else 0

/-- A lock is free as long as its semaphore is up. -/
theorem Valued.zero (hv : Valued s) : (s.sema (.ofLock l)).value = 0 ↔ (s.lock l).holder ≠ none := by
  rw [hv l]
  split <;> simp_all

/-- Only priorities have changed, and the order of the locks held. -/
structure Kept (s s' : Sys) : Prop where
  created : s'.created = s.created
  sema : s'.sema = s.sema
  holder : ∀ l, (s'.lock l).holder = (s.lock l).holder
  base : ∀ t, (s'.thread t).basePriority = (s.thread t).basePriority
  locks : ∀ t, (s'.thread t).locks.Perm (s.thread t).locks
  lockWaiting : ∀ t, (s'.thread t).lockWaiting = (s.thread t).lockWaiting
  blocked : ∀ t, (s'.thread t).blocked = (s.thread t).blocked
  downing : ∀ t, (s'.thread t).downing = (s.thread t).downing

theorem Kept.refl (s : Sys) : Kept s s :=
  ⟨rfl, rfl, fun _ => rfl, fun _ => rfl, fun _ => List.Perm.refl _, fun _ => rfl, fun _ => rfl,
    fun _ => rfl⟩

theorem Kept.trans {s'' : Sys} (h : Kept s s') (h' : Kept s' s'') : Kept s s'' where
  created := h'.created.trans h.created
  sema := h'.sema.trans h.sema
  holder l := (h'.holder l).trans (h.holder l)
  base t := (h'.base t).trans (h.base t)
  locks t := (h'.locks t).trans (h.locks t)
  lockWaiting t := (h'.lockWaiting t).trans (h.lockWaiting t)
  blocked t := (h'.blocked t).trans (h.blocked t)
  downing t := (h'.downing t).trans (h.downing t)

/-- Who waits for what stays. -/
theorem Kept.waiting (hk : Kept s s') : Waiting s' u l ↔ Waiting s u l := by
  rw [Waiting, Waiting, hk.blocked, hk.downing]

/-- So do the chains. -/
theorem Kept.onChain (hk : Kept s s') (h : OnChain s' l u) : OnChain s l u :=
  h.mono (fun _ _ => hk.waiting.mp) fun l _ hh => (hk.holder l).symm.trans hh

/-- The values of the semaphores stay, and the holders. -/
theorem Kept.valued (hk : Kept s s') (hv : Valued s) : Valued s' := fun l => by
  rw [hk.sema, hk.holder, hv l]

/-- Being wired does not depend on priorities, nor on the `lock_waiting` of a thread that is
not in `lock_acquire`. -/
theorem Wired.congr (hw : Wired s) (hcreated : s.created ≤ s'.created)
    (hwaiters : ∀ k, (s'.sema k).waiters = (s.sema k).waiters)
    (hholder : ∀ l, (s'.lock l).holder = (s.lock l).holder)
    (hlocks : ∀ t, (s'.thread t).locks.Perm (s.thread t).locks)
    (hblocked : ∀ t, (s'.thread t).blocked = (s.thread t).blocked)
    (hdowning : ∀ t, (s'.thread t).downing = (s.thread t).downing)
    (hwaiting : ∀ t, (s.thread t).downing ≠ none →
      (s'.thread t).lockWaiting = (s.thread t).lockWaiting) : Wired s' where
  held t l := by rw [(hlocks t).mem_iff, hholder, hw.held]
  once t := (hlocks t).nodup_iff.mpr (hw.once t)
  queued k u := by rw [hwaiters, hblocked, hdowning, hw.queued]
  queuedOnce k := by rw [hwaiters]; exact hw.queuedOnce k
  linked u l hd := by
    rw [hdowning] at hd
    rw [hwaiting u (by rw [hd]; simp)]
    exact hw.linked u l hd
  noSelf u l hd := by
    rw [hdowning] at hd
    rw [hholder]
    exact hw.noSelf u l hd
  fresh t ht := by
    obtain ⟨h1, h2, h3⟩ := hw.fresh t (Nat.le_trans hcreated ht)
    refine ⟨?_, (hblocked t).trans h2, (hdowning t).trans h3⟩
    have hp := hlocks t
    rw [h1] at hp
    exact hp.eq_nil

/-- The lists and the pointers stay in agreement. -/
theorem Kept.wired (hk : Kept s s') (hw : Wired s) : Wired s' :=
  hw.congr (Nat.le_of_eq hk.created.symm) (fun k => by rw [hk.sema]) hk.holder hk.locks hk.blocked hk.downing
    fun t _ => hk.lockWaiting t

/-- A priority decides on no wait. -/
theorem threadUpdatePriority_kept (t : Tid) (s : Sys) : Kept s (threadUpdatePriority t s) := by
  unfold threadUpdatePriority
  exact {
    created := rfl
    sema := rfl
    holder := fun _ => rfl
    base := fun u => Sys.setThread_field (·.basePriority) u (by intro r; rfl)
    locks := fun u => by
      rw [Sys.setThread_thread]
      split
      · next hu =>
        rw [hu]
        exact listSort_perm _ _
      · exact List.Perm.refl _
    lockWaiting := fun u => Sys.setThread_field (·.lockWaiting) u (by intro r; rfl)
    blocked := fun u => Sys.setThread_field (·.blocked) u (by intro r; rfl)
    downing := fun u => Sys.setThread_field (·.downing) u (by intro r; rfl) }

theorem setMaxPriority_kept (p : Int) :
    Kept s (s.setLock l fun r => { r with maxPriority := p }) where
  created := rfl
  sema := rfl
  holder m := Sys.setLock_field (·.holder) m (by intro r; rfl)
  base _ := rfl
  locks _ := List.Perm.refl _
  lockWaiting _ := rfl
  blocked _ := rfl
  downing _ := rfl

/-! ## One step -/

/-- `lock_waiting` is set before the thread waits. -/
theorem wired_setLockWaiting (hw : Wired s) (hd : (s.thread cur).downing = none) :
    Wired (s.setThread cur fun r => { r with lockWaiting := some lock }) := by
  refine hw.congr (Nat.le_refl _) (fun _ => rfl) (fun _ => rfl) (fun t => ?_)
    (fun t => Sys.setThread_field (·.blocked) t (by intro r; rfl)) (fun t => Sys.setThread_field (·.downing) t (by intro r; rfl))
    fun t ht => ?_
  · rw [Sys.setThread_field (·.locks) t (by intro r; rfl)]
  · have hne : t ≠ cur := fun he => ht (by rw [he, hd])
    rw [Sys.setThread_thread, if_neg hne]

/-- A new thread waits for nothing and holds nothing. -/
theorem wired_create (hw : Wired s) (p : Int) :
    Wired { s with created := s.created + 1, thread := Function.update s.thread s.created (newThread p) } := by
  obtain ⟨hl, hb, hd⟩ := hw.fresh s.created (Nat.le_refl _)
  have hfield : ∀ {β : Type} (g : Thread → β), g (newThread p) = g (s.thread s.created) →
      ∀ u, g (Function.update s.thread s.created (newThread p) u) = g (s.thread u) := by
    intro β g hg u
    rw [Function.update_apply]
    split
    · next hu => rw [hu, hg]
    · rfl
  refine hw.congr (Nat.le_succ _) (fun _ => rfl) (fun _ => rfl) (fun t => ?_) (hfield (·.blocked) hb.symm)
    (hfield (·.downing) hd.symm) fun t ht => ?_
  · exact (hfield (·.locks) hl.symm t).symm ▸ List.Perm.refl _
  · have hne : t ≠ s.created := fun he => ht (by rw [he, hd])
    dsimp only
    rw [Function.update_of_ne hne]

theorem wired_setPriority (hw : Wired s) (p : Int) : Wired (threadSetPriority cur p s) := by
  refine hw.congr (Nat.le_refl _) (fun _ => rfl) (fun _ => rfl) (fun t => ?_)
    (fun t => Sys.setThread_field (·.blocked) t (by intro r; rfl)) (fun t => Sys.setThread_field (·.downing) t (by intro r; rfl))
    fun t _ => Sys.setThread_field (·.lockWaiting) t (by intro r; rfl)
  rw [threadSetPriority, Sys.setThread_field (·.locks) t (by intro r; rfl)]

/-- `sema_up` wakes the first thread of the sorted list, if there is one. -/
theorem semaUp_cases (k : SemaId) (s : Sys) :
    ((s.sema k).waiters = [] ∧
      semaUp k s = s.setSema k fun r => { r with value := r.value + 1 }) ∨
    ∃ t rest, (t :: rest).Perm (s.sema k).waiters ∧
      semaUp k s = (s.setSema k fun r => { value := r.value + 1, waiters := rest }).setThread t
        fun r => { r with blocked := false } := by
  unfold semaUp
  split
  · next hnil => exact Or.inl ⟨listSort_eq_nil.mp hnil, rfl⟩
  · next t rest hcons => exact Or.inr ⟨t, rest, hcons ▸ listSort_perm _ _, rfl⟩

/-- The first waiter goes off the list and is ready. -/
theorem wired_wake {rest : List Tid} {n : Nat} (hw : Wired s)
    (hp : (t :: rest).Perm (s.sema k).waiters) :
    Wired ((s.setSema k fun _ => { value := n, waiters := rest }).setThread t
      fun r => { r with blocked := false }) := by
  obtain ⟨-, hd⟩ := (hw.queued k t).mp (hp.mem_iff.mp List.mem_cons_self)
  have hnodup : (t :: rest).Nodup := hp.nodup_iff.mpr (hw.queuedOnce k)
  refine ⟨fun u l => ?_, fun u => ?_, fun j u => ?_, fun j => ?_, fun u l hu => ?_, fun u l hu => ?_,
    fun u hu => ?_⟩
  · rw [Sys.setThread_field (·.locks) u (by intro r; rfl)]
    exact hw.held u l
  · rw [Sys.setThread_field (·.locks) u (by intro r; rfl)]
    exact hw.once u
  · rw [Sys.setThread_field (·.downing) u (by intro r; rfl), Sys.setThread_sema, Sys.setSema_sema, Sys.setThread_thread]
    by_cases hu : u = t
    · -- the thread that is woken leaves the list
      rw [if_pos hu, hu]
      refine ⟨fun hmem => ?_, fun h => by simp at h⟩
      split at hmem
      · exact absurd hmem (List.nodup_cons.mp hnodup).1
      · next hj =>
        have := ((hw.queued j t).mp hmem).2
        exact absurd (Option.some.inj (this.symm.trans hd)) hj
    · rw [if_neg hu]
      split
      · next hj =>
        rw [hj, Sys.setSema_thread, ← hw.queued k u, ← hp.mem_iff, List.mem_cons]
        simp [hu]
      · exact hw.queued j u
  · rw [Sys.setThread_sema, Sys.setSema_sema]
    split
    · exact (List.nodup_cons.mp hnodup).2
    · exact hw.queuedOnce j
  · rw [Sys.setThread_field (·.downing) u (by intro r; rfl)] at hu
    rw [Sys.setThread_field (·.lockWaiting) u (by intro r; rfl)]
    exact hw.linked u l hu
  · rw [Sys.setThread_field (·.downing) u (by intro r; rfl)] at hu
    exact hw.noSelf u l hu
  · obtain ⟨h1, h2, h3⟩ := hw.fresh u hu
    rw [Sys.setThread_field (·.locks) u (by intro r; rfl), Sys.setThread_field (·.downing) u (by intro r; rfl), Sys.setThread_thread]
    refine ⟨h1, ?_, h3⟩
    split
    · rfl
    · exact h2

theorem wired_semaUp (hw : Wired s) : Wired (semaUp k s) := by
  rcases semaUp_cases k s with ⟨-, he⟩ | ⟨t, rest, hp, he⟩
  · rw [he]
    refine hw.congr (Nat.le_refl _) (fun j => ?_) (fun _ => rfl) (fun _ => List.Perm.refl _)
      (fun _ => rfl) (fun _ => rfl) fun _ _ => rfl
    rw [Sys.setSema_sema]
    split
    · next hj => rw [hj]
    · rfl
  · rw [he]
    exact wired_wake hw hp

/-- A thread joins the waiters of a semaphore. -/
theorem wired_block {list : List Tid} (hw : Wired s) (hb : (s.thread cur).blocked = false)
    (hc : cur < s.created) (hp : list.Perm (cur :: (s.sema k).waiters))
    (hk : ∀ l, k = .ofLock l →
      (s.lock l).holder ≠ some cur ∧ (s.thread cur).lockWaiting = some l) :
    Wired ((s.setSema k fun r => { r with waiters := list }).setThread cur
      fun r => { r with blocked := true, downing := some k }) := by
  have hout : ∀ j, cur ∉ (s.sema j).waiters := fun j hmem => by
    rw [((hw.queued j cur).mp hmem).1] at hb
    cases hb
  refine ⟨fun u l => ?_, fun u => ?_, fun j u => ?_, fun j => ?_, fun u l hu => ?_, fun u l hu => ?_,
    fun u hu => ?_⟩
  · rw [Sys.setThread_field (·.locks) u (by intro r; rfl)]
    exact hw.held u l
  · rw [Sys.setThread_field (·.locks) u (by intro r; rfl)]
    exact hw.once u
  · rw [Sys.setThread_sema, Sys.setSema_sema, Sys.setThread_thread]
    by_cases hu : u = cur
    · rw [if_pos hu, hu]
      split
      · next hj => simp [hj, hp.mem_iff]
      · next hj => simp [hout j, Ne.symm hj]
    · rw [if_neg hu, Sys.setSema_thread, ← hw.queued j u]
      split
      · next hj => simp [hj, hp.mem_iff, hu]
      · rfl
  · rw [Sys.setThread_sema, Sys.setSema_sema]
    split
    · exact hp.nodup_iff.mpr (List.nodup_cons.mpr ⟨hout k, hw.queuedOnce k⟩)
    · exact hw.queuedOnce j
  · rw [Sys.setThread_field (·.lockWaiting) u (by intro r; rfl)]
    rw [Sys.setThread_thread] at hu
    split at hu
    · next he =>
      rw [he]
      exact (hk l (Option.some.inj hu)).2
    · exact hw.linked u l hu
  · rw [Sys.setThread_thread] at hu
    split at hu
    · next he =>
      rw [he]
      exact (hk l (Option.some.inj hu)).1
    · exact hw.noSelf u l hu
  · have hne : u ≠ cur := fun he => Nat.not_le_of_lt hc (he ▸ hu)
    rw [Sys.setThread_thread, if_neg hne]
    exact hw.fresh u hu

/-- A thread gets past `sema_down`. -/
theorem wired_pass {n : Nat} (hw : Wired s) (hb : (s.thread cur).blocked = false) :
    Wired ((s.setSema k fun r => { r with value := n }).setThread cur
      fun r => { r with downing := none }) := by
  have hwaiters : ∀ j, ((s.setSema k fun r => { r with value := n }).sema j).waiters
      = (s.sema j).waiters := by
    intro j
    rw [Sys.setSema_sema]
    split
    · next hj => rw [hj]
    · rfl
  refine ⟨fun u l => ?_, fun u => ?_, fun j u => ?_, fun j => ?_, fun u l hu => ?_, fun u l hu => ?_,
    fun u hu => ?_⟩
  · rw [Sys.setThread_field (·.locks) u (by intro r; rfl)]
    exact hw.held u l
  · rw [Sys.setThread_field (·.locks) u (by intro r; rfl)]
    exact hw.once u
  · rw [Sys.setThread_sema, hwaiters, Sys.setThread_thread, hw.queued]
    split
    · next he => simp [he, hb]
    · rfl
  · rw [Sys.setThread_sema, hwaiters]
    exact hw.queuedOnce j
  · rw [Sys.setThread_field (·.lockWaiting) u (by intro r; rfl)]
    rw [Sys.setThread_thread] at hu
    split at hu
    · cases hu
    · exact hw.linked u l hu
  · rw [Sys.setThread_thread] at hu
    split at hu
    · cases hu
    · exact hw.noSelf u l hu
  · rw [Sys.setThread_field (·.locks) u (by intro r; rfl), Sys.setThread_field (·.blocked) u (by intro r; rfl), Sys.setThread_thread]
    obtain ⟨h1, h2, h3⟩ := hw.fresh u hu
    refine ⟨h1, h2, ?_⟩
    split
    · rfl
    · exact h3

/-- The lock is entered among those of the thread that runs. -/
theorem threadHoldTheLock_locks (t : Tid) :
    ((threadHoldTheLock cur lock s).thread t).locks.Perm
      (if t = cur then lock :: (s.thread t).locks else (s.thread t).locks) := by
  rw [threadHoldTheLock, Sys.setThread_thread]
  split
  · next ht =>
    rw [ht]
    exact listInsertOrdered_perm _ _ _
  · exact List.Perm.refl _

/-- Apart from the locks held, a thread that has got a lock is as before. -/
theorem lockAcquired_thread {β : Type} (g : Thread → β) (u : Tid)
    (hg : ∀ r locks, g { r with locks := locks } = g r) :
    g ((lockAcquired cur lock s).thread u) = g (s.thread u) := by
  rw [lockAcquired, Sys.setLock_thread, threadHoldTheLock]
  exact Sys.setThread_field g u fun r => hg r _

@[simp] theorem lockAcquired_priority : ((lockAcquired cur lock s).thread t).priority =
    (s.thread t).priority := lockAcquired_thread (·.priority) t fun _ _ => rfl

@[simp] theorem lockAcquired_basePriority : ((lockAcquired cur lock s).thread t).basePriority =
    (s.thread t).basePriority := lockAcquired_thread (·.basePriority) t fun _ _ => rfl

@[simp] theorem lockAcquired_lockWaiting : ((lockAcquired cur lock s).thread t).lockWaiting =
    (s.thread t).lockWaiting := lockAcquired_thread (·.lockWaiting) t fun _ _ => rfl

@[simp] theorem lockAcquired_blocked : ((lockAcquired cur lock s).thread t).blocked =
    (s.thread t).blocked := lockAcquired_thread (·.blocked) t fun _ _ => rfl

@[simp] theorem lockAcquired_downing : ((lockAcquired cur lock s).thread t).downing =
    (s.thread t).downing := lockAcquired_thread (·.downing) t fun _ _ => rfl

/-- The same for the whole of what follows `sema_down`. -/
theorem lockAcquired_locks (t : Tid) : ((lockAcquired cur lock s).thread t).locks.Perm
    (if t = cur then lock :: (s.thread t).locks else (s.thread t).locks) :=
  threadHoldTheLock_locks t

theorem lockAcquired_holder : ((lockAcquired cur lock s).lock l).holder
    = if l = lock then some cur else (s.lock l).holder := by
  rw [lockAcquired, Sys.setLock_lock]
  split
  · rfl
  · rw [threadHoldTheLock, Sys.setThread_lock]
    exact Sys.setLock_field (·.holder) l (by intro r; rfl)

/-- A lock without a holder gets one. -/
theorem wired_acquired (hw : Wired s) (hh : (s.lock lock).holder = none)
    (hd : (s.thread cur).downing = none) (hc : cur < s.created) :
    Wired (lockAcquired cur lock s) := by
  have hlocks : ∀ t, ((lockAcquired cur lock s).thread t).locks.Perm _ := lockAcquired_locks
  have hnot : ∀ t, lock ∉ (s.thread t).locks := fun t hmem => by
    rw [hw.held t lock, hh] at hmem
    cases hmem
  refine ⟨fun t l => ?_, fun t => ?_, fun k u => ?_, fun k => hw.queuedOnce k, fun u l hu => ?_,
    fun u l hu => ?_, fun t ht => ?_⟩
  · rw [lockAcquired_holder, (hlocks t).mem_iff]
    by_cases ht : t = cur
    · rw [if_pos ht, List.mem_cons, hw.held t l]
      split
      · next hl => simp [hl, ht]
      · next hl => simp [hl]
    · rw [if_neg ht, hw.held t l]
      split
      · next hl => simp [hl, hh, Ne.symm ht]
      · rfl
  · rw [(hlocks t).nodup_iff]
    split
    · exact List.nodup_cons.mpr ⟨hnot t, hw.once t⟩
    · exact hw.once t
  · rw [lockAcquired_blocked, lockAcquired_downing]
    exact hw.queued k u
  · rw [lockAcquired_downing] at hu
    rw [lockAcquired_lockWaiting]
    exact hw.linked u l hu
  · rw [lockAcquired_downing] at hu
    rw [lockAcquired_holder]
    split
    · intro he
      rw [← Option.some.inj he, hd] at hu
      cases hu
    · exact hw.noSelf u l hu
  · have hne : t ≠ cur := fun he => Nat.not_le_of_lt hc (he ▸ ht)
    obtain ⟨h1, h2, h3⟩ := hw.fresh t ht
    refine ⟨?_, lockAcquired_blocked.trans h2, lockAcquired_downing.trans h3⟩
    have hp := hlocks t
    rw [if_neg hne, h1] at hp
    exact hp.eq_nil

/-- What `lock_release` does before its `sema_up`. -/
def lockLetGo (cur : Tid) (lock : LockId) (s : Sys) : Sys :=
  (threadRemoveLock cur lock s).setLock lock fun r => { r with holder := none }

@[simp] theorem lockLetGo_thread :
    (lockLetGo cur lock s).thread = (threadRemoveLock cur lock s).thread := rfl

@[simp] theorem lockLetGo_sema : (lockLetGo cur lock s).sema = s.sema := rfl

theorem lockRelease_eq : lockRelease cur lock s = semaUp (.ofLock lock) (lockLetGo cur lock s) := rfl

/-- `thread_remove_lock` takes the lock off the list, and then changes priorities only. -/
theorem threadRemoveLock_kept : Kept (s.setThread cur fun r => { r with locks := r.locks.erase lock })
    (threadRemoveLock cur lock s) :=
  threadUpdatePriority_kept cur _

theorem lockLetGo_holder : ((lockLetGo cur lock s).lock l).holder
    = if l = lock then none else (s.lock l).holder := by
  rw [lockLetGo, Sys.setLock_lock]
  split
  · rfl
  · exact threadRemoveLock_kept.holder l

theorem lockLetGo_downing : ((lockLetGo cur lock s).thread u).downing = (s.thread u).downing := by
  rw [lockLetGo_thread, threadRemoveLock_kept.downing, Sys.setThread_field (·.downing) u (by intro r; rfl)]

theorem lockLetGo_blocked : ((lockLetGo cur lock s).thread u).blocked = (s.thread u).blocked := by
  rw [lockLetGo_thread, threadRemoveLock_kept.blocked, Sys.setThread_field (·.blocked) u (by intro r; rfl)]

theorem lockLetGo_lockWaiting :
    ((lockLetGo cur lock s).thread u).lockWaiting = (s.thread u).lockWaiting := by
  rw [lockLetGo_thread, threadRemoveLock_kept.lockWaiting,
    Sys.setThread_field (·.lockWaiting) u (by intro r; rfl)]

/-- The holder takes the lock off its list. -/
theorem wired_letGo (hw : Wired s) (hh : (s.lock lock).holder = some cur) :
    Wired (lockLetGo cur lock s) := by
  have hlocks : ∀ t, ((lockLetGo cur lock s).thread t).locks.Perm
      (if t = cur then (s.thread t).locks.erase lock else (s.thread t).locks) := by
    intro t
    refine (threadRemoveLock_kept.locks t).trans ?_
    rw [Sys.setThread_thread]
    split
    · next ht => rw [ht]
    · exact List.Perm.refl _
  refine ⟨fun t l => ?_, fun t => ?_, fun k u => ?_, fun k => hw.queuedOnce k, fun u l hu => ?_,
    fun u l hu => ?_, fun t ht => ?_⟩
  · rw [lockLetGo_holder, (hlocks t).mem_iff]
    by_cases ht : t = cur
    · rw [if_pos ht, (hw.once t).mem_erase_iff, hw.held t l]
      split
      · next hl => simp [hl]
      · next hl => simp [hl]
    · rw [if_neg ht, hw.held t l]
      split
      · next hl => simp [hl, hh, Ne.symm ht]
      · rfl
  · rw [(hlocks t).nodup_iff]
    split
    · exact (hw.once t).erase lock
    · exact hw.once t
  · rw [lockLetGo_downing, lockLetGo_blocked]
    exact hw.queued k u
  · rw [lockLetGo_downing] at hu
    rw [lockLetGo_lockWaiting]
    exact hw.linked u l hu
  · rw [lockLetGo_downing] at hu
    rw [lockLetGo_holder]
    split
    · simp
    · exact hw.noSelf u l hu
  · obtain ⟨h1, h2, h3⟩ := hw.fresh t ht
    refine ⟨?_, lockLetGo_blocked.trans h2, lockLetGo_downing.trans h3⟩
    have hp := hlocks t
    rw [h1] at hp
    split at hp
    · exact hp.eq_nil
    · exact hp.eq_nil

/-- Without a unit the thread is put among the waiters. -/
theorem semaDown_block (cur : Tid) (h : (s.sema k).value = 0) : ∃ list, list.Perm (cur :: (s.sema k).waiters) ∧
    semaDown cur k s = (s.setSema k fun r => { r with waiters := list }).setThread cur
      fun r => { r with blocked := true, downing := some k } := by
  refine ⟨_, listInsertOrdered_perm s.threadCmpPriority cur _, ?_⟩
  have hsema : s.setSema k (fun r => { r with
      waiters := listInsertOrdered s.threadCmpPriority cur r.waiters }) = s.setSema k fun r => { r with
      waiters := listInsertOrdered s.threadCmpPriority cur (s.sema k).waiters } := rfl
  rw [semaDown, if_pos h, hsema]

/-- The state of a thread past `sema_down`. -/
def semaPassed (cur : Tid) (k : SemaId) (s : Sys) : Sys :=
  (s.setSema k fun r => { r with value := (s.sema k).value - 1 }).setThread cur
    fun r => { r with downing := none }

/-- With a unit `lock_acquire` comes to its end. -/
theorem semaDown_lock (h : (s.sema (.ofLock l)).value ≠ 0) :
    semaDown cur (.ofLock l) s = lockAcquired cur l (semaPassed cur (.ofLock l) s) := by
  rw [semaDown, if_neg h]
  rfl

/-- With a unit a semaphore of its own is only lowered. -/
theorem semaDown_plain {n : Nat} (h : (s.sema (.plain n)).value ≠ 0) :
    semaDown cur (.plain n) s = semaPassed cur (.plain n) s := by
  rw [semaDown, if_neg h]
  rfl

/-- A thread waits for a lock only with `lock_waiting` set to it. -/
theorem wired_semaDown (hw : Wired s) (hv : Valued s) (hb : (s.thread cur).blocked = false)
    (hc : cur < s.created) (hk : ∀ l, k = .ofLock l → (s.lock l).holder ≠ some cur ∧
      ((s.lock l).holder ≠ none → (s.thread cur).lockWaiting = some l)) :
    Wired (semaDown cur k s) := by
  by_cases h0 : (s.sema k).value = 0
  · obtain ⟨list, hp, he⟩ := semaDown_block cur h0
    rw [he]
    refine wired_block hw hb hc hp fun l hl => ⟨(hk l hl).1, (hk l hl).2 ?_⟩
    rw [hl] at h0
    exact hv.zero.mp h0
  · have hpass : Wired (semaPassed cur k s) := wired_pass hw hb
    cases k with
    | plain n =>
      rw [semaDown_plain h0]
      exact hpass
    | ofLock l =>
      rw [semaDown_lock h0]
      refine wired_acquired hpass ?_ ?_ hc
      · by_contra hne
        exact h0 (hv.zero.mpr hne)
      · rw [semaPassed, Sys.setThread_thread, if_pos rfl]

/-- The unit of a lock goes to its holder. -/
theorem valued_semaDown (hv : Valued s) : Valued (semaDown cur k s) := by
  by_cases h0 : (s.sema k).value = 0
  · obtain ⟨list, -, he⟩ := semaDown_block cur h0
    intro l
    rw [he, Sys.setThread_sema, Sys.setSema_sema]
    split
    · next hl => rw [← hl]; exact hv l
    · exact hv l
  · cases k with
    | plain n =>
      rw [semaDown_plain h0]
      intro l
      rw [semaPassed, Sys.setThread_sema, Sys.setSema_sema, if_neg (by simp)]
      exact hv l
    | ofLock m =>
      rw [semaDown_lock h0]
      intro l
      have h1 : (s.sema (.ofLock m)).value - 1 = 0 := by
        rw [hv m]
        split <;> rfl
      rw [lockAcquired_holder]
      have hsema : (lockAcquired cur m (semaPassed cur (.ofLock m) s)).sema
          = (semaPassed cur (.ofLock m) s).sema := rfl
      rw [hsema, semaPassed, Sys.setThread_sema, Sys.setSema_sema]
      by_cases hl : l = m
      · rw [if_pos (by rw [hl]), if_pos hl, h1]
        rfl
      · rw [if_neg (by simpa using hl), if_neg hl]
        exact hv l

/-- Only the value of the semaphore `k` changes, by one. -/
theorem semaUp_value (k : SemaId) (s : Sys) (j : SemaId) : ((semaUp k s).sema j).value
    = if j = k then (s.sema k).value + 1 else (s.sema j).value := by
  rcases semaUp_cases k s with ⟨-, he⟩ | ⟨t, rest, -, he⟩
  · rw [he, Sys.setSema_sema]
    split <;> rfl
  · rw [he, Sys.setThread_sema, Sys.setSema_sema]
    split <;> rfl

theorem semaUp_lock (k : SemaId) (s : Sys) : (semaUp k s).lock = s.lock := by
  rcases semaUp_cases k s with ⟨-, he⟩ | ⟨t, rest, -, he⟩
  · rw [he]
    rfl
  · rw [he]
    rfl

/-- The holder gives the unit of a lock back. -/
theorem valued_release (hv : Valued s) (hh : (s.lock lock).holder = some cur) :
    Valued (lockRelease cur lock s) := by
  intro l
  rw [lockRelease_eq, semaUp_value, semaUp_lock, lockLetGo_holder]
  rw [lockLetGo_sema]
  by_cases hl : l = lock
  · rw [if_pos (by rw [hl]), if_pos hl, hv lock, if_neg (by rw [hh]; simp)]
    rfl
  · rw [if_neg (by simpa using hl), if_neg hl]
    exact hv l

theorem valued_up {n : Nat} (hv : Valued s) : Valued (semaUp (.plain n) s) := by
  intro l
  rw [semaUp_value, semaUp_lock, if_neg (by simp)]
  exact hv l

/-- By induction on the depth: a donation sets priorities only. -/
theorem threadDonatePriority_kept {l : LockId} {s s' : Sys}
    (h : threadDonatePriority cur depth l s = .ok s') : Kept s s' := by
  induction depth generalizing l s with
  | zero => cases h
  | succ depth ih =>
    rw [threadDonatePriority] at h
    split at h
    · cases h
    · next holder hh =>
      have hone : Kept s (if (s.lock l).maxPriority < (s.thread cur).priority then
          threadUpdatePriority holder
            (s.setLock l fun r => { r with maxPriority := (s.thread cur).priority })
          else s) := by
        split
        · exact (setMaxPriority_kept _).trans (threadUpdatePriority_kept _ _)
        · exact Kept.refl s
      dsimp only at h
      split at h
      · cases h
        exact hone
      · exact hone.trans (ih h)

/-- `lock_acquire` takes a free lock, or it donates before it waits. -/
theorem lockAcquire_cases {s s' : Sys} {lock : LockId}
    (h : lockAcquire depth cur lock s = .ok s') :
    (s.lock lock).holder = none ∧ s' = semaDown cur (.ofLock lock) s ∨
    ∃ s₁, (s.lock lock).holder ≠ none ∧ threadDonatePriority cur depth lock
      (s.setThread cur fun r => { r with lockWaiting := some lock }) = .ok s₁ ∧
      s' = semaDown cur (.ofLock lock) s₁ := by
  rw [lockAcquire] at h
  split at h
  · next hh =>
    cases h
    exact .inl ⟨hh, rfl⟩
  · next holder hh =>
    cases hdon : threadDonatePriority cur depth lock
        (s.setThread cur fun r => { r with lockWaiting := some lock }) with
    | error e =>
      rw [hdon] at h
      cases h
    | ok s₁ =>
      rw [hdon] at h
      cases h
      exact .inr ⟨s₁, by rw [hh]; exact Option.some_ne_none _, rfl, rfl⟩

/-- Every step keeps threads, locks and semaphores tied together. -/
theorem wired_step {op : Op} (hw : Wired s) (hv : Valued s) (enabled : op.Enabled s)
    (hs : op.step depth s = .ok s') : Wired s' ∧ Valued s' := by
  cases op with
  | create p =>
    cases hs
    exact ⟨wired_create hw p, hv⟩
  | acquire cur lock =>
    obtain ⟨⟨hc, hb, hd⟩, hne⟩ := enabled
    obtain ⟨hh, rfl⟩ | ⟨s₁, -, hdon, rfl⟩ := lockAcquire_cases hs
    · refine ⟨wired_semaDown hw hv hb hc fun l hl => ?_, valued_semaDown hv⟩
      rw [← SemaId.ofLock.inj hl]
      exact ⟨hne, fun h => absurd hh h⟩
    · have hk := threadDonatePriority_kept hdon
      have hv₁ : Valued s₁ := hk.valued hv
      refine ⟨wired_semaDown (hk.wired (wired_setLockWaiting hw hd)) hv₁ ?_ ?_ fun l hl => ?_,
        valued_semaDown hv₁⟩
      · rw [hk.blocked, Sys.setThread_field (·.blocked) cur (by intro r; rfl), hb]
      · rw [hk.created]
        exact hc
      · rw [← SemaId.ofLock.inj hl, hk.holder, hk.lockWaiting, Sys.setThread_thread, if_pos rfl]
        exact ⟨hne, fun _ => rfl⟩
  | release cur lock =>
    cases hs
    exact ⟨lockRelease_eq ▸ wired_semaUp (wired_letGo hw enabled.2), valued_release hv enabled.2⟩
  | down cur n =>
    cases hs
    exact ⟨wired_semaDown hw hv enabled.2.1 enabled.1 fun l hl => (by cases hl), valued_semaDown hv⟩
  | up cur n =>
    cases hs
    exact ⟨wired_semaUp hw, valued_up hv⟩
  | setPriority cur p =>
    cases hs
    exact ⟨wired_setPriority hw p, hv⟩
  | resume cur =>
    obtain ⟨hb, hd⟩ := enabled
    rw [Op.step] at hs
    split at hs
    · next hnone => exact absurd hnone hd
    · next k hk =>
      cases hs
      have hc : cur < s.created := Nat.lt_of_not_le fun hle => hd (hw.fresh cur hle).2.2
      refine ⟨wired_semaDown hw hv hb hc fun l hl => ?_, valued_semaDown hv⟩
      rw [hl] at hk
      exact ⟨hw.noSelf cur l hk, fun _ => hw.linked cur l hk⟩

/-- At the start nothing waits and nothing is held. -/
theorem wired_init (unset : LockId → Int) (values : Nat → Nat) : Wired (Sys.init unset values) where
  held t l := by simp [Sys.init, newThread]
  once t := List.nodup_nil
  queued k u := by cases k <;> simp [Sys.init, newThread]
  queuedOnce k := by cases k <;> exact List.nodup_nil
  linked u l h := by cases h
  noSelf u l h := by cases h
  fresh t _ := ⟨rfl, rfl, rfl⟩

/-- In every run the lists, the pointers and the values agree. -/
theorem Reachable.wired {P : Sys → Op → Prop} (h : Reachable depth P s) : Wired s ∧ Valued s := by
  induction h with
  | init unset values => exact ⟨wired_init unset values, fun _ => rfl⟩
  | step op _ enabled _ hs ih => exact wired_step ih.1 ih.2 enabled hs

end Pintos.Threads
