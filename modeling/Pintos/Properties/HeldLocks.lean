import Pintos.Properties.Preemption

/-!
# The lists of locks held

In the mode without MLFQS a thread keeps a list of the locks that it holds. `lock_acquire` puts the
lock in and `lock_release` takes it out again, but `lock_try_acquire` puts nothing in.
-/

namespace Pintos.Schedule

open Pintos.Lib

variable {s s' : Sys} {t : Tid} {l : LockId} {i : Instr} {is rest : List Instr} {a : Action}

/-! ## What stays in a list -/

/-- Only `lock_release` takes a lock from a list. -/
theorem mem_locks_exec (hm : s.mlfqs = false) (h : s.exec i = .ok s')
    (hl : l ∈ (s.thread t).locks) (hi : t = s.running → i ≠ .removeLock l) :
    l ∈ (s'.thread t).locks := by
  cases i with
  | donate m =>
    obtain ⟨holder, -, hrank⟩ := donate_rank h
    rw [hrank.locks, mem_raise_locks]
    exact hl
  | hold m =>
    cases h
    rw [if_neg (by simp [hm])]
    refine (threadHoldTheLock_locks s m t).mem_iff.mpr ?_
    split
    · exact List.mem_cons_of_mem _ hl
    · exact hl
  | setHolder m =>
    cases h
    exact hl
  | clearHolder m =>
    cases h
    exact hl
  | removeLock m =>
    cases exec_ran h with
    | removeNone => exact hl
    | remove =>
      rw [threadUpdatePriority_thread]
      split
      · next ht =>
        have ht : t = s.running := ht
        have hne : l ≠ m := fun hlm => hi ht (by rw [hlm])
        refine mem_listSort.mpr ?_
        rw [Sys.setThread_thread, if_pos rfl]
        exact (List.mem_erase_of_ne hne).mpr (ht ▸ hl)
      · next ht =>
        rw [Sys.setThread_thread, if_neg ht]
        exact hl
  | _ => rwa [(sameRank_exec rfl h).locks]

/-- The end of `lock_acquire` puts the lock into the list. -/
theorem mem_locks_hold (hm : s.mlfqs = false) (h : s.exec (.hold l) = .ok s') :
    l ∈ (s'.thread s.running).locks := by
  cases h
  rw [if_neg (by simp [hm])]
  refine (threadHoldTheLock_locks s l s.running).mem_iff.mpr ?_
  rw [if_pos rfl]
  exact List.mem_cons_self

theorem threadSetPriority_locks (s : Sys) (p : Int) (t : Tid) :
    ((s.threadSetPriority p).thread t).locks = (s.thread t).locks := by
  unfold Sys.threadSetPriority
  split
  · rfl
  dsimp only
  split
  · rw [(sameRank_push _ _).locks]
    exact Sys.setThread_field (·.locks) t fun _ => rfl
  · exact Sys.setThread_field (·.locks) t fun _ => rfl

/-- A step takes no lock from a list, but for `thread_remove_lock`. -/
theorem mem_locks_step (hp : Priced s) (hplain : Plain s a) (henabled : a.Enabled s)
    (h : a.step s = .ok s') (hl : l ∈ (s.thread t).locks)
    (hgo : t = s.running → s.current.head? ≠ some (.removeLock l)) :
    l ∈ (s'.thread t).locks := by
  obtain ⟨hm, hnice, -⟩ := hplain
  cases a with
  | call c =>
    have h : s.call c = .ok s' := h
    cases c with
    | create p =>
      have hne : t ≠ s.created := Nat.ne_of_lt (hp.lived l t (hp.held t l hl)).1
      have hsame : (s'.thread t).locks = (s.thread t).locks :=
        congrArg (·.2.2) ((hp.toFits.create h).2.2 t hne)
      rwa [hsame]
    | setPriority p =>
      cases h
      rwa [threadSetPriority_locks]
    | setNice n => exact absurd rfl (hnice n)
    | _ => rwa [(sameRank_call rfl (by simp) (by simp) h).locks]
  | go =>
    obtain ⟨i, rest, hi, hexec⟩ := go_cases henabled h
    refine mem_locks_exec (s := s.pop) hm hexec (by rwa [(sameRank_pop s).locks]) fun ht hr =>
      hgo ht ?_
    rw [hi, hr]
    rfl
  | tick =>
    cases h
    rwa [(sameRank_tick hm).locks]
  | split =>
    cases split_tick h
    rwa [(sameRank_tick hm).locks]

/-! ## Every lock held is in the list -/

/-- A thread is in `lock_release`, behind `thread_remove_lock`. -/
def Sys.Releasing (s : Sys) (t : Tid) (l : LockId) : Prop :=
  (s.thread t).todo.head? = some (.clearHolder l)

/-- `lock_try_acquire` does not get the lock. -/
def TriesFail (s : Sys) (a : Action) : Prop :=
  Plain s a ∧ ∀ l, a = .call (.tryAcquire l) → (s.sema (.ofLock (.user l))).value = 0

/-- Every lock held is in the list of its holder, and is not from `lock_try_acquire`. -/
structure Listed (s : Sys) : Prop where
  listed : ∀ t l, (s.lock l).holder = some t → ¬ s.Releasing t l → l ∈ (s.thread t).locks
  untried : ∀ t l, .setHolder l ∉ (s.thread t).todo

section

variable (hx : Exclusive s) (hp : Priced s) (hq : Queued s (some s.running) none)
  (hcond : TriesFail s a) (henabled : a.Enabled s) (h : a.step s = .ok s')

include hq hcond henabled h

theorem untried_step (hu : ∀ t l, .setHolder l ∉ (s.thread t).todo) (t : Tid) (l : LockId) :
    .setHolder l ∉ (s'.thread t).todo := by
  obtain ⟨is, hunf, htodo⟩ := step_todo hq henabled h
  rw [htodo]
  split
  · cases hunf with
    | call c is hexp =>
      cases hexp with
      | tryAcquire m hv => exact absurd (hcond.2 m rfl) hv
      | _ => simp [Sys.lockAcquire, Sys.lockRelease]
    | @go i is rest hi hexp =>
      have hrest : .setHolder l ∉ rest := fun hmem => hu s.running l (by
        show _ ∈ s.current
        rw [hi]
        exact List.mem_cons_of_mem _ hmem)
      rw [List.mem_append, not_or]
      refine ⟨?_, hrest⟩
      cases hexp <;> simp
    | tick => exact hu s.running l
    | split => exact hu s.running l
  · exact hu t l

include hx hp

theorem listed_step (hl : Listed s) (t : Tid) (l : LockId) (hh : (s'.lock l).holder = some t)
    (hr : ¬ s'.Releasing t l) : l ∈ (s'.thread t).locks := by
  have hstay := mem_locks_step hp hcond.1 henabled h (l := l) (t := t)
  obtain ⟨is, hunf, htodo⟩ := step_todo hq henabled h
  by_cases ht : t = s.running
  · subst ht
    rw [step_holder henabled h] at hh
    rw [Sys.Releasing, htodo, if_pos rfl] at hr
    cases hunf with
    | call c is hexp =>
      have hnil := current_nil_of_enabled henabled
      refine hstay (hl.listed _ l hh fun hrel => ?_) fun _ hhead => ?_
      · have hnil : (s.thread s.running).todo = [] := hnil
        rw [Sys.Releasing, hnil] at hrel
        cases hrel
      · rw [hnil] at hhead
        cases hhead
    | tick =>
      cases h
      rw [(sameRank_tick hcond.1.1).locks]
      exact hl.listed _ l hh hr
    | split =>
      cases split_tick h
      rw [(sameRank_tick hcond.1.1).locks]
      exact hl.listed _ l hh hr
    | @go i is rest hi hexp =>
      have hhead : (s.thread s.running).todo.head? = some i := by
        show s.current.head? = _
        rw [hi]
        rfl
      obtain ⟨j, rest', hj, hexec⟩ := go_cases henabled h
      obtain ⟨rfl, rfl⟩ := List.cons.inj (hi.symm.trans hj)
      rw [hi] at hh
      -- a lock that was held before, and is not being released
      have hold : i ≠ .clearHolder l → i ≠ .removeLock l → (s.lock l).holder = some s.running →
          l ∈ (s'.thread s.running).locks := fun hc hrm hheld => by
        refine hstay (hl.listed _ l hheld fun hrel => hc ?_) fun _ hhead' => hrm ?_
        · rw [Sys.Releasing, hhead] at hrel
          exact Option.some.inj hrel
        · rw [hi] at hhead'
          exact Option.some.inj hhead'
      cases i with
      | hold m =>
        simp only [Sys.holderAfter] at hh
        split at hh
        · next hml =>
          rw [hml]
          exact mem_locks_hold (s := s.pop) hcond.1.1 hexec
        · exact hold (by simp) (by simp) hh
      | setHolder m => exact absurd (List.mem_of_mem_head? hhead) (hl.untried _ m)
      | clearHolder m =>
        simp only [Sys.holderAfter] at hh
        split at hh
        · cases hh
        · next hml => exact hold (by simpa using Ne.symm hml) (by simp) hh
      | removeLock m =>
        refine hold (by simp) (fun hrm => hr ?_) hh
        cases hrm
        have hlinked : Linked (.removeLock l :: rest) := by
          rw [← hi]
          exact hx.linked s.running
        have hfront := front_expands hlinked hexp
        cases hexp with
        | done _ _ =>
          rw [if_pos rfl, front] at hfront
          exact (Option.filter_eq_some_iff.mp hfront).1
        | wait ht _ => cases ht
      | _ => exact hold (by simp) (by simp) hh
  · rw [holder_other hx henabled h ht] at hh
    rw [Sys.Releasing, htodo, if_neg ht] at hr
    exact hstay (hl.listed t l hh hr) fun htr => absurd htr ht

end

theorem Reachable.listed (h : Reachable TriesFail s) (hm : s.mlfqs = false) : Listed s := by
  induction h with
  | init h =>
    cases h
    exact ⟨fun t l hh => (by cases hh), fun t l ht => (by cases ht)⟩
  | step a hr henabled hcond hs ih =>
    have hp := hr.priced (fun _ _ hcond => hcond.1) hcond.1.1
    have hl := ih hcond.1.1
    exact ⟨listed_step hr.exclusive hp hr.queued hcond henabled hs hl,
      untried_step hr.queued hcond henabled hs hl.untried⟩

/-! ## The lists are exact -/

/-- A lock is in the list of its holder, from the end of `lock_acquire` to `thread_remove_lock`, and
in no other list. It is there once. -/
structure HeldExact (s : Sys) : Prop where
  linked : ∀ t l, l ∈ (s.thread t).locks ↔ (s.lock l).holder = some t ∧ ¬ s.Releasing t l
  once : ∀ t, (s.thread t).locks.Nodup

/-- In a run in which `lock_try_acquire` never gets a lock the lists are exact, and `lock_release`
finds the lock of its caller linked. -/
theorem held_locks_exact (hm : s.mlfqs = false) (h : Reachable TriesFail s) :
    HeldExact s ∧ ∀ l, s.current.head? = some (.removeLock l) →
      (s.lock l).holder = some s.running → l ∈ (s.thread s.running).locks := by
  have hp := h.priced (fun _ _ hcond => hcond.1) hm
  have hexact : HeldExact s := by
    refine ⟨fun t l => ⟨fun hmem => ⟨hp.held t l hmem, fun hr => ?_⟩, fun hh => ?_⟩, hp.once⟩
    · exact hp.cleared t l hr hmem
    · exact (h.listed hm).listed t l hh.1 hh.2
  refine ⟨hexact, fun l hhead hh => (hexact.linked s.running l).mpr ⟨hh, fun hr => ?_⟩⟩
  have hhead : (s.thread s.running).todo.head? = some (.removeLock l) := hhead
  rw [Sys.Releasing, hhead] at hr
  cases hr

/-- The lock that an action tries to acquire. -/
def Action.tried : Action → Option Nat
  | .call (.tryAcquire l) => some l
  | _ => none

theorem triesFail_iff (s : Sys) (a : Action) :
    (Plain s a ∧ ∀ l ∈ a.tried, (s.sema (.ofLock (.user l))).value = 0) ↔ TriesFail s a := by
  unfold TriesFail
  refine and_congr_right fun _ => ?_
  cases a with
  | call c => cases c <;> simp [Action.tried]
  | _ => simp [Action.tried]

instance (s : Sys) (a : Action) : Decidable (TriesFail s a) :=
  decidable_of_iff _ (triesFail_iff s a)

/-- The main thread acquires a lock. -/
theorem held_locks_exact_main : ∃ s, HeldExact s ∧ (s.lock (.user 0)).holder = some 0 := by
  have hboot := Reachable.init (P := TriesFail)
    (.intro false (fun _ => 0) (fun _ => 0) (fun _ => 0) 0 0 0 0 0)
  obtain ⟨s, hs, htest⟩ := hboot.runs_any (Call.run (.acquire 0) 3)
    (fun s => s.mlfqs = false ∧ (s.lock (.user 0)).holder = some 0) (by decide +kernel)
  obtain ⟨hm, hh⟩ := of_decide_eq_true htest
  exact ⟨s, (held_locks_exact hm hs).1, hh⟩

/-- A lock that `lock_try_acquire` has got is in no list. -/
theorem tried_lock_not_listed : ¬ ∀ s, s.mlfqs = false → Reachable Plain s → s.free = true →
    (∀ t, t ≠ s.running → (s.thread t).todo = []) → HeldExact s := by
  intro hall
  have hboot := Reachable.init (P := Plain)
    (.intro false (fun _ => 0) (fun _ => 0) (fun _ => 0) 0 0 0 0 0)
  have htry := hboot.step (.call (.tryAcquire 0)) (by decide) (by decide) rfl
  have hgo := htry.step .go (by decide) (by decide) rfl
  have hexact := hall _ rfl hgo (by decide) fun t ht => ?_
  · have hfree : ∀ i : Instr, (none : Option Instr) ≠ some i := by simp
    cases (hexact.linked 0 (.user 0)).mpr ⟨rfl, hfree _⟩
  · obtain ⟨_, -, htodo⟩ := step_todo htry.queued (by decide)
      (show Action.go.step _ = .ok _ from rfl)
    obtain ⟨_, -, htodo'⟩ := step_todo hboot.queued (by decide)
      (show (Action.call (.tryAcquire 0)).step _ = .ok _ from rfl)
    exact (htodo t).trans ((if_neg ht).trans ((htodo' t).trans (if_neg ht)))

end Pintos.Schedule
