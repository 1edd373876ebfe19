import Pintos.Properties.Waits
import Mathlib.Order.Bounds.Basic
import Mathlib.Order.Lattice

/-!
# Priority donation

* `donated_priority_exact` — as long as no step relies on a stale `lock_waiting` or a stale
  `max_priority`, every thread has exactly the priority of its base and its waiters.
* `donation_follows_waits` — as long as no lock that threads wait for is released, a donation
  goes along the waits, and ends.

A donation walks up a chain of locks. What holds half-way is `Pending`: everything is exact
but for one waiter on the next lock of the chain.
-/

namespace Pintos.Threads

open Pintos.Lib

variable {s s' : Sys} {t u h w cur : Tid} {l m lock : LockId} {k : SemaId} {depth : Nat}

/-! ## Recomputing a priority -/

/-- The new priority of a thread is the greatest of its base and its locks. -/
structure Recomputed (t : Tid) (s s' : Sys) : Prop where
  lock : s'.lock = s.lock
  other : ∀ u, u ≠ t → (s'.thread u).priority = (s.thread u).priority
  base : (s.thread t).basePriority ≤ (s'.thread t).priority
  locks : ∀ l ∈ (s.thread t).locks, (s.lock l).maxPriority ≤ (s'.thread t).priority
  attained : (s'.thread t).priority = (s.thread t).basePriority ∨
    ∃ l ∈ (s.thread t).locks, (s'.thread t).priority = (s.lock l).maxPriority

theorem threadUpdatePriority_recomputed (t : Tid) (s : Sys) :
    Recomputed t s (threadUpdatePriority t s) := by
  refine ⟨rfl, fun u hu => ?_, ?_, fun l hl => ?_, ?_⟩
  · rw [threadUpdatePriority, Sys.setThread_thread, if_neg hu]
  · rw [threadUpdatePriority, Sys.setThread_thread, if_pos rfl]
    dsimp only
    split
    · exact Int.le_refl _
    · exact Int.le_max_left _ _
  · rw [threadUpdatePriority, Sys.setThread_thread, if_pos rfl]
    dsimp only
    split
    · next hnil =>
      rw [List.head?_eq_none_iff, listSort_eq_nil] at hnil
      rw [hnil] at hl
      cases hl
    · next m hm =>
      have hfront : (s.lock l).maxPriority ≤ (s.lock m).maxPriority := head_listSort hm hl
      exact Int.le_trans hfront (Int.le_max_right _ _)
  · rw [threadUpdatePriority, Sys.setThread_thread, if_pos rfl]
    dsimp only
    split
    · exact Or.inl rfl
    · next m hm =>
      have hmem := mem_listSort.mp (List.mem_of_mem_head? hm)
      rcases Int.le_total (s.lock m).maxPriority (s.thread t).basePriority with hle | hle
      · exact Or.inl (Int.max_eq_left hle)
      · exact Or.inr ⟨m, hmem, Int.max_eq_right hle⟩

/-- Every priority is what `thread_update_priority` would make of it. -/
structure Cached (s : Sys) : Prop where
  base : ∀ t, (s.thread t).basePriority ≤ (s.thread t).priority
  max : ∀ l t, (s.lock l).holder = some t → (s.lock l).maxPriority ≤ (s.thread t).priority
  attained : ∀ t, (s.thread t).priority = (s.thread t).basePriority ∨
    ∃ l, (s.lock l).holder = some t ∧ (s.thread t).priority = (s.lock l).maxPriority

/-! ## One call of `thread_donate_priority` -/

/-- The priority `p` reaches the lock `m` and its holder `h`. -/
structure Reached (p : Int) (m : LockId) (h : Tid) (s s' : Sys) : Prop extends Kept s s' where
  priority : ∀ t, (s'.thread t).priority =
    if t = h then Max.max (s.thread h).priority p else (s.thread t).priority
  maxPriority : ∀ l, (s'.lock l).maxPriority =
    if l = m then Max.max (s.lock m).maxPriority p else (s.lock l).maxPriority

theorem Reached.priority_le {p : Int} (hr : Reached p m h s s') (t : Tid) :
    (s.thread t).priority ≤ (s'.thread t).priority := by
  rw [hr.priority]
  split
  · next ht => rw [ht]; exact Int.le_max_left _ _
  · exact Int.le_refl _

theorem Reached.maxPriority_le {p : Int} (hr : Reached p m h s s') (l : LockId) :
    (s.lock l).maxPriority ≤ (s'.lock l).maxPriority := by
  rw [hr.maxPriority]
  split
  · next hl => rw [hl]; exact Int.le_max_left _ _
  · exact Int.le_refl _

/-- The part of `thread_donate_priority` before it goes on to the next lock. -/
def donateOne (p : Int) (m : LockId) (h : Tid) (s : Sys) : Sys :=
  if (s.lock m).maxPriority < p then
    threadUpdatePriority h (s.setLock m fun l => { l with maxPriority := p })
  else s

/-- A donation gives the holder the greater of its own priority and the donated one. -/
theorem donateOne_reached {p : Int} (hw : Wired s) (hc : Cached s)
    (hm : (s.lock m).holder = some h) : Reached p m h s (donateOne p m h s) := by
  have hmax := hc.max m h hm
  unfold donateOne
  split
  · next hraise =>
    let s₁ := s.setLock m fun l => { l with maxPriority := p }
    have hr : Recomputed h s₁ (threadUpdatePriority h s₁) := threadUpdatePriority_recomputed h s₁
    have hlock : ∀ l, (s₁.lock l).maxPriority = if l = m then p else (s.lock l).maxPriority := by
      intro l
      rw [Sys.setLock_lock]
      split <;> rfl
    have hpnew : p ≤ ((threadUpdatePriority h s₁).thread h).priority := by
      have := hr.locks m ((hw.held h m).mpr hm)
      rwa [hlock, if_pos rfl] at this
    -- what made the old priority is still there, or was the lock itself
    have hold : (s.thread h).priority ≤ ((threadUpdatePriority h s₁).thread h).priority := by
      rcases hc.attained h with ha | ⟨l, hl, ha⟩
      · exact ha.trans_le hr.base
      · have hgl := hr.locks l ((hw.held h l).mpr hl)
        rw [hlock] at hgl
        split at hgl
        · next hlm =>
          rw [hlm] at ha
          omega
        · omega
    have hup : ((threadUpdatePriority h s₁).thread h).priority ≤ Max.max (s.thread h).priority p := by
      rcases hr.attained with ha | ⟨l, hl, ha⟩
      · rw [ha]
        exact Int.le_trans (hc.base h) (Int.le_max_left _ _)
      · rw [ha, hlock]
        split
        · exact Int.le_max_right _ _
        · exact Int.le_trans (hc.max l h ((hw.held h l).mp hl)) (Int.le_max_left _ _)
    refine ⟨(setMaxPriority_kept p).trans (threadUpdatePriority_kept h _), fun t => ?_, fun l => ?_⟩
    · split
      · next ht =>
        rw [ht]
        exact Int.le_antisymm hup (Int.max_le.mpr ⟨hold, hpnew⟩)
      · next ht => exact hr.other t ht
    · rw [hr.lock, hlock]
      split
      · omega
      · rfl
  · next hkeep =>
    refine ⟨Kept.refl s, fun t => ?_, fun l => ?_⟩
    · split
      · next ht =>
        rw [ht]
        omega
      · rfl
    · split
      · next hl =>
        rw [hl]
        omega
      · rfl

theorem Reached.cached {p : Int} (hr : Reached p m h s s') (hc : Cached s)
    (hm : (s.lock m).holder = some h) : Cached s' where
  base t := by
    rw [hr.base]
    exact Int.le_trans (hc.base t) (hr.priority_le t)
  max l t hl := by
    rw [hr.holder] at hl
    rw [hr.maxPriority]
    split
    · next hlm =>
      rw [hlm, hm] at hl
      rw [← Option.some.inj hl, hr.priority, if_pos rfl]
      have := hc.max m h hm
      omega
    · exact Int.le_trans (hc.max l t hl) (hr.priority_le t)
  attained t := by
    rw [hr.base]
    simp only [hr.holder]
    by_cases ht : t = h
    · subst ht
      rw [hr.priority, if_pos rfl]
      have hmax := hc.max m t hm
      rcases Int.lt_or_le (s.thread t).priority p with hp | hp
      · refine Or.inr ⟨m, hm, ?_⟩
        rw [hr.maxPriority, if_pos rfl]
        omega
      · rw [Int.max_eq_left hp]
        rcases hc.attained t with ha | ⟨l, hl, ha⟩
        · exact Or.inl ha
        · refine Or.inr ⟨l, hl, ?_⟩
          rw [hr.maxPriority]
          split
          · next hlm =>
            rw [hlm] at ha
            omega
          · exact ha
    · rw [hr.priority, if_neg ht]
      rcases hc.attained t with ha | ⟨l, hl, ha⟩
      · exact Or.inl ha
      · refine Or.inr ⟨l, hl, ?_⟩
        have hlm : l ≠ m := fun he => ht (Option.some.inj (hl.symm.trans (he ▸ hm)))
        rw [hr.maxPriority, if_neg hlm, ha]

theorem donateOne_kept (p : Int) : Kept s (donateOne p m h s) := by
  unfold donateOne
  split
  · exact (setMaxPriority_kept _).trans (threadUpdatePriority_kept _ _)
  · exact Kept.refl s

/-- `thread_donate_priority`, one call at a time. -/
theorem threadDonatePriority_succ (hm : (s.lock m).holder = some h) :
    threadDonatePriority cur (depth + 1) m s =
      match (s.thread h).lockWaiting with
      | none => .ok (donateOne (s.thread cur).priority m h s)
      | some next => threadDonatePriority cur depth next (donateOne (s.thread cur).priority m h s) := by
  have hk : Kept s (donateOne (s.thread cur).priority m h s) := donateOne_kept _
  rw [← hk.lockWaiting h, threadDonatePriority, hm]
  rfl

/-! ## Exact priorities -/

/-- With `W` for who waits for which lock: every priority is the greatest of its base and its
waiters, and every lock held has a `max_priority` in between. -/
structure Exact (W : Tid → LockId → Prop) (s : Sys) : Prop where
  base : ∀ t, (s.thread t).basePriority ≤ (s.thread t).priority
  above : ∀ u l, W u l → (s.lock l).holder ≠ none → (s.thread u).priority ≤ (s.lock l).maxPriority
  max : ∀ l t, (s.lock l).holder = some t → (s.lock l).maxPriority ≤ (s.thread t).priority
  attained : ∀ t, (s.thread t).priority = (s.thread t).basePriority ∨
    ∃ u l, W u l ∧ (s.lock l).holder = some t ∧ (s.thread u).priority = (s.thread t).priority

/-- The same but for one waiter `w`, whose priority has yet to reach the lock it waits for. -/
structure Pending (W : Tid → LockId → Prop) (s : Sys) (w : Tid) (m : Option LockId) : Prop where
  above : ∀ u l, u ≠ w → W u l → (s.lock l).holder ≠ none →
    (s.thread u).priority ≤ (s.lock l).maxPriority
  attained : ∀ t, (s.thread t).priority = (s.thread t).basePriority ∨
    (∃ u l, u ≠ w ∧ W u l ∧ (s.lock l).holder = some t ∧
      (s.thread u).priority = (s.thread t).priority) ∨
    ∃ l, m = some l ∧ (s.lock l).holder = some t ∧ (s.thread t).priority ≤ (s.thread w).priority

/-- What is exact depends on those who wait for locks that are held. -/
theorem Exact.congr {W W' : Tid → LockId → Prop} (he : Exact W s)
    (hp : ∀ t, (s'.thread t).priority = (s.thread t).priority)
    (hb : ∀ t, (s'.thread t).basePriority = (s.thread t).basePriority)
    (hl : ∀ l, s'.lock l = s.lock l)
    (hW : ∀ u l, (s.lock l).holder ≠ none → (W' u l ↔ W u l)) : Exact W' s' where
  base t := by
    rw [hp, hb]
    exact he.base t
  above u l hu hh := by
    rw [hl] at hh
    rw [hp, hl]
    exact he.above u l ((hW u l hh).mp hu) hh
  max l t hh := by
    rw [hl] at hh
    rw [hp, hl]
    exact he.max l t hh
  attained t := by
    rw [hp, hb]
    rcases he.attained t with ha | ⟨u, l, hu, hh, ha⟩
    · exact Or.inl ha
    · refine Or.inr ⟨u, l, (hW u l (by rw [hh]; simp)).mpr hu, ?_, (hp u).trans ha⟩
      rw [hl]
      exact hh

theorem Exact.cached {W : Tid → LockId → Prop} (he : Exact W s) : Cached s where
  base := he.base
  max := he.max
  attained t := by
    rcases he.attained t with ha | ⟨u, l, hu, hl, ha⟩
    · exact Or.inl ha
    · have hab := he.above u l hu (by rw [hl]; simp)
      have hma := he.max l t hl
      exact Or.inr ⟨l, hl, by omega⟩

section Chain

variable {W : Tid → LockId → Prop} {p : Int}

/-- After one call, the holder is the waiter whose priority has yet to reach the next lock. -/
theorem Reached.pending (hr : Reached p m h s s') (hc : Cached s) (hp : Pending W s w (some m))
    (hm : (s.lock m).holder = some h) (hwm : W w m) (huniq : ∀ l, W w l → l = m)
    (hself : ∀ u l, W u l → (s.lock l).holder ≠ some u) (hle : p ≤ (s.thread w).priority)
    (hlt : p < (s.thread w).priority → (s.thread w).priority ≤ (s.lock m).maxPriority)
    {n : Option LockId} (hn : ∀ l, W h l → n = some l) : Pending W s' h n := by
  have hmax := hc.max m h hm
  have hwh : w ≠ h := fun he => hself w m hwm (he ▸ hm)
  have hsame : ∀ u, u ≠ h → (s'.thread u).priority = (s.thread u).priority := fun u hu => by
    rw [hr.priority, if_neg hu]
  have hwaiter : ∀ u l, W u l → (s.lock l).holder = some h →
      (s'.thread u).priority = (s.thread u).priority := fun u l hul hl =>
    hsame u fun he => hself u l hul (he ▸ hl)
  constructor
  · intro u l hu hul hl
    rw [hsame u hu]
    by_cases huw : u = w
    · -- the waiter has reached this lock
      rw [huw] at hul ⊢
      rw [huniq l hul, hr.maxPriority, if_pos rfl]
      omega
    · rw [hr.holder] at hl
      exact Int.le_trans (hp.above u l huw hul hl) (hr.maxPriority_le l)
  · intro t
    rw [hr.base]
    simp only [hr.holder]
    by_cases ht : t = h
    · subst ht
      have hthew : (s.thread w).priority = (s'.thread t).priority →
          ∃ u l, u ≠ t ∧ W u l ∧ (s.lock l).holder = some t ∧
            (s'.thread u).priority = (s'.thread t).priority := fun he =>
        ⟨w, m, hwh, hwm, hm, (hsame w hwh).trans he⟩
      have hpri := hr.priority t
      rw [if_pos rfl] at hpri
      by_cases hpt : (s.thread t).priority ≤ p
      · -- the donated priority is the new one, and it is the waiter's
        exact Or.inr (Or.inl (hthew (by omega)))
      · rw [Int.max_eq_left (by omega)] at hpri
        rcases hp.attained t with ha | ⟨u, l, -, hul, hl, ha⟩ | ⟨l, hml, hl, ha⟩
        · exact Or.inl (hpri.trans ha)
        · refine Or.inr (Or.inl ⟨u, l, fun he => hself u l hul (he ▸ hl), hul, hl, ?_⟩)
          rw [hwaiter u l hul hl, ha, hpri]
        · exact Or.inr (Or.inl (hthew (by omega)))
    · rw [hsame t ht]
      rcases hp.attained t with ha | ⟨u, l, -, hul, hl, ha⟩ | ⟨l, hml, hl, -⟩
      · exact Or.inl ha
      · by_cases huh : u = h
        · rw [huh] at hul ha
          exact Or.inr (Or.inr ⟨l, hn l hul, hl, ha ▸ hr.priority_le h⟩)
        · exact Or.inr (Or.inl ⟨u, l, huh, hul, hl, (hsame u huh).trans ha⟩)
      · rw [← Option.some.inj hml, hm] at hl
        exact absurd (Option.some.inj hl).symm ht

/-- At the end of the chain nothing is pending any more. -/
theorem Pending.exact (hp : Pending W s w none) (hc : Cached s) (hw : ∀ l, ¬ W w l) : Exact W s where
  base := hc.base
  above u l hul := hp.above u l (fun he => hw l (he ▸ hul)) hul
  max := hc.max
  attained t := by
    rcases hp.attained t with ha | ⟨u, l, -, hul, hl, ha⟩ | ⟨l, hnone, -⟩
    · exact Or.inl ha
    · exact Or.inr ⟨u, l, hul, hl, ha⟩
    · cases hnone

/-- A donation makes the priorities exact, with the donor as a waiter. The induction is on
the calls; the waiter of each call is the holder of the one before. -/
theorem threadDonatePriority_exact {s s' : Sys} {w : Tid} {m : LockId} (hw : Wired s) (hc : Cached s)
    (hp : Pending W s w (some m)) (hwm : W w m)
    (hlink : ∀ u l, W u l → (s.thread u).lockWaiting = some l)
    (hself : ∀ u l, W u l → (s.lock l).holder ≠ some u)
    (hreal : ∀ u l, OnChain s m u → (s.thread u).lockWaiting = some l → Waiting s u l)
    (hwaits : ∀ u l, Waiting s u l → W u l) (hcur : ¬ OnChain s m cur)
    (hle : (s.thread cur).priority ≤ (s.thread w).priority)
    (hlt : (s.thread cur).priority < (s.thread w).priority →
      (s.thread w).priority ≤ (s.lock m).maxPriority)
    (hs : threadDonatePriority cur depth m s = .ok s') :
    Exact W s' ∧ (s'.thread cur).priority = (s.thread cur).priority := by
  induction depth generalizing s w m with
  | zero => cases hs
  | succ depth ih =>
    cases hm : (s.lock m).holder with
    | none =>
      rw [threadDonatePriority, hm] at hs
      cases hs
    | some h =>
      have hr : Reached (s.thread cur).priority m h s (donateOne (s.thread cur).priority m h s) :=
        donateOne_reached hw hc hm
      have hne : cur ≠ h := fun he => hcur (he ▸ .holder hm)
      have hcurp : ((donateOne (s.thread cur).priority m h s).thread cur).priority
          = (s.thread cur).priority := by rw [hr.priority, if_neg hne]
      have huniq : ∀ l, W w l → l = m := fun l hl =>
        Option.some.inj ((hlink w l hl).symm.trans (hlink w m hwm))
      have hp' : Pending W (donateOne (s.thread cur).priority m h s) h (s.thread h).lockWaiting :=
        hr.pending hc hp hm hwm huniq hself hle hlt fun l hl => hlink h l hl
      have hc' := hr.cached hc hm
      rw [threadDonatePriority_succ hm] at hs
      split at hs
      · next hnone =>
        cases hs
        rw [hnone] at hp'
        refine ⟨hp'.exact hc' fun l hl => ?_, hcurp⟩
        rw [hlink h l hl] at hnone
        cases hnone
      · next n hn =>
        have hwait : Waiting s h n := hreal h n (.holder hm) hn
        have hnp := hr.priority h
        rw [if_pos rfl] at hnp
        rw [hn] at hp'
        obtain ⟨he, hcur'⟩ := ih (hr.wired hw) hc' hp' (hwaits h n hwait)
          (fun u l hl => by rw [hr.lockWaiting]; exact hlink u l hl)
          (fun u l hl => by rw [hr.holder]; exact hself u l hl)
          (fun u l hu hl => hr.waiting.mpr
            (hreal u l (.next hm hwait (hr.onChain hu)) (hr.lockWaiting u ▸ hl)))
          (fun u l hl => hwaits u l (hr.waiting.mp hl))
          (fun hon => hcur (.next hm hwait (hr.onChain hon)))
          (by omega)
          (fun hgt => by
            -- the holder's priority was there before, and its lock knew it
            have hwh : h ≠ w := fun he => hself w m hwm (he ▸ hm)
            cases hnh : (s.lock n).holder with
            | none =>
              cases depth with
              | zero => cases hs
              | succ depth =>
                rw [threadDonatePriority, hr.holder, hnh] at hs
                cases hs
            | some g =>
              have hab := hp.above h n hwh (hwaits h n hwait) (by rw [hnh]; simp)
              have := hr.maxPriority_le n
              omega) hs
        exact ⟨he, hcur'.trans hcurp⟩

end Chain

/-! ## Exact priorities over a run -/

/-- The cases in which a step keeps the priorities exact: it relies on no `lock_waiting` and no
`max_priority` that is out of date. -/
def Sound (s : Sys) : Op → Prop
  | .acquire cur lock =>
    ¬ OnChain s lock cur ∧
    -- `thread_hold_the_lock` takes the waiters left to have no more than the new holder
    ((s.lock lock).holder = none →
      ∀ u, Waiting s u lock → (s.thread u).priority ≤ (s.thread cur).priority) ∧
    -- `thread_donate_priority` takes `lock_waiting` to be a wait
    ∀ u l, OnChain s lock u → (s.thread u).lockWaiting = some l → Waiting s u l
  | .release cur lock =>
    -- `thread_update_priority` takes `max_priority` to come from a waiter
    ∀ l, l ≠ lock → (s.lock l).holder = some cur →
      (s.lock l).maxPriority ≤ (s.thread cur).basePriority ∨
      ∃ u m, m ≠ lock ∧ (s.lock m).holder = some cur ∧ Waiting s u m ∧
        (s.lock l).maxPriority ≤ (s.thread u).priority
  | .setPriority cur newPriority =>
    -- a thread that holds a lock takes its priority to be donated
    (s.thread cur).locks = [] ∨ (s.thread cur).priority ≤ newPriority ∨
      ∃ u l, (s.lock l).holder = some cur ∧ Waiting s u l ∧
        (s.thread u).priority = (s.thread cur).priority
  | .resume cur =>
    ∀ lock, (s.thread cur).downing = some (.ofLock lock) →
      ((s.lock lock).holder = none →
        ∀ u, Waiting s u lock → (s.thread u).priority ≤ (s.thread cur).priority) ∧
      -- `sema_down` does not donate when it blocks again
      ((s.lock lock).holder ≠ none → (s.thread cur).priority ≤ (s.lock lock).maxPriority)
  | _ => True

theorem lockAcquired_maxPriority : ((lockAcquired cur lock s).lock l).maxPriority
    = if l = lock then (s.thread cur).priority else (s.lock l).maxPriority := by
  rw [lockAcquired, Sys.setLock_field (·.maxPriority) _ (by intro r; rfl), threadHoldTheLock, Sys.setThread_lock,
    Sys.setLock_lock]
  split <;> rfl

theorem cached_acquired (hc : Cached s) (hh : (s.lock lock).holder = none) :
    Cached (lockAcquired cur lock s) where
  base t := by
    rw [lockAcquired_basePriority, lockAcquired_priority]
    exact hc.base t
  max l t hl := by
    rw [lockAcquired_holder] at hl
    rw [lockAcquired_priority, lockAcquired_maxPriority]
    split
    · next hll =>
      rw [if_pos hll] at hl
      rw [Option.some.inj hl]
    · next hll =>
      rw [if_neg hll] at hl
      exact hc.max l t hl
  attained t := by
    simp only [lockAcquired_basePriority, lockAcquired_priority,
      lockAcquired_holder, lockAcquired_maxPriority]
    rcases hc.attained t with ha | ⟨l, hl, ha⟩
    · exact Or.inl ha
    · have hll : l ≠ lock := fun hll => by
        rw [hll, hh] at hl
        cases hl
      exact Or.inr ⟨l, by rw [if_neg hll]; exact hl, by rw [if_neg hll]; exact ha⟩

/-- A free lock is taken. -/
theorem exact_acquired {W : Tid → LockId → Prop} (he : Exact W s) (hh : (s.lock lock).holder = none)
    (hbound : ∀ u, W u lock → (s.thread u).priority ≤ (s.thread cur).priority) :
    Exact W (lockAcquired cur lock s) where
  base := (cached_acquired he.cached hh).base
  above u l hul hl := by
    rw [lockAcquired_priority, lockAcquired_maxPriority]
    rw [lockAcquired_holder] at hl
    split
    · next hll =>
      rw [hll] at hul
      exact hbound u hul
    · next hll =>
      rw [if_neg hll] at hl
      exact he.above u l hul hl
  max := (cached_acquired he.cached hh).max
  attained t := by
    simp only [lockAcquired_basePriority, lockAcquired_priority,
      lockAcquired_holder]
    rcases he.attained t with ha | ⟨u, l, hul, hl, ha⟩
    · exact Or.inl ha
    · have hll : l ≠ lock := fun hll => by
        rw [hll, hh] at hl
        cases hl
      exact Or.inr ⟨u, l, hul, by rw [if_neg hll]; exact hl, ha⟩

theorem lockLetGo_maxPriority :
    ((lockLetGo cur lock s).lock l).maxPriority = (s.lock l).maxPriority := by
  rw [lockLetGo, Sys.setLock_field (·.maxPriority) _ (by intro r; rfl)]
  rfl

theorem lockLetGo_basePriority :
    ((lockLetGo cur lock s).thread t).basePriority = (s.thread t).basePriority := by
  rw [lockLetGo_thread, threadRemoveLock_kept.base, Sys.setThread_field (·.basePriority) t (by intro r; rfl)]

/-- A lock is let go of, and the holder's priority is that of its other locks. -/
theorem exact_letGo (hw : Wired s) (he : Exact (Waiting s) s) (hb : (s.thread cur).blocked = false)
    (hh : (s.lock lock).holder = some cur) (hsound : Sound s (.release cur lock)) :
    Exact (Waiting s) (lockLetGo cur lock s) := by
  have hr : Recomputed cur (s.setThread cur fun r => { r with locks := r.locks.erase lock })
      (threadRemoveLock cur lock s) := threadUpdatePriority_recomputed cur _
  have hlocks : ∀ l, l ∈ ((s.setThread cur fun r => { r with locks := r.locks.erase lock }).thread
      cur).locks ↔ l ≠ lock ∧ (s.lock l).holder = some cur := by
    intro l
    rw [Sys.setThread_thread, if_pos rfl, (hw.once cur).mem_erase_iff, hw.held]
  have hother : ∀ u, u ≠ cur →
      ((lockLetGo cur lock s).thread u).priority = (s.thread u).priority := by
    intro u hu
    rw [lockLetGo_thread, hr.other u hu, Sys.setThread_field (·.priority) u (by intro r; rfl)]
  have hrun : ∀ u l, Waiting s u l → u ≠ cur := fun u l hul hu => by
    rw [← hu, hul.1] at hb
    cases hb
  have hbase : (s.thread cur).basePriority ≤ ((lockLetGo cur lock s).thread cur).priority := by
    have := hr.base
    rwa [Sys.setThread_field (·.basePriority) cur (by intro r; rfl)] at this
  have hmax : ∀ l, l ≠ lock → (s.lock l).holder = some cur →
      (s.lock l).maxPriority ≤ ((lockLetGo cur lock s).thread cur).priority := fun l hl hlc =>
    hr.locks l ((hlocks l).mpr ⟨hl, hlc⟩)
  constructor
  · intro t
    rw [lockLetGo_basePriority]
    by_cases ht : t = cur
    · rw [ht]
      exact hbase
    · rw [hother t ht]
      exact he.base t
  · intro u l hul hl
    rw [lockLetGo_holder] at hl
    rw [hother u (hrun u l hul), lockLetGo_maxPriority]
    split at hl
    · exact absurd rfl hl
    · exact he.above u l hul hl
  · intro l t hl
    rw [lockLetGo_holder] at hl
    rw [lockLetGo_maxPriority]
    split at hl
    · cases hl
    · next hll =>
      by_cases ht : t = cur
      · rw [ht] at hl ⊢
        exact hmax l hll hl
      · rw [hother t ht]
        exact he.max l t hl
  · intro t
    simp only [lockLetGo_basePriority, lockLetGo_holder]
    by_cases ht : t = cur
    · rw [ht]
      rcases hr.attained with ha | ⟨l, hl, ha⟩
      · rw [Sys.setThread_field (·.basePriority) cur (by intro r; rfl)] at ha
        exact Or.inl ha
      · obtain ⟨hll, hlc⟩ := (hlocks l).mp hl
        have ha : ((lockLetGo cur lock s).thread cur).priority = (s.lock l).maxPriority := ha
        -- the most of what the other locks give comes from a waiter, or is no more than the base
        rcases hsound l hll hlc with hle | ⟨u, m, hml, hmc, hum, hle⟩
        · exact Or.inl (by omega)
        · have hab := he.above u m hum (by rw [hmc]; simp)
          have hma := hmax m hml hmc
          refine Or.inr ⟨u, m, hum, by rw [if_neg hml]; exact hmc, ?_⟩
          rw [hother u (hrun u m hum)]
          omega
    · rw [hother t ht]
      rcases he.attained t with ha | ⟨u, l, hul, hl, ha⟩
      · exact Or.inl ha
      · have hll : l ≠ lock := fun hll => ht (Option.some.inj (hl.symm.trans (hll ▸ hh)))
        exact Or.inr ⟨u, l, hul, by rw [if_neg hll]; exact hl, (hother u (hrun u l hul)).trans ha⟩

theorem exact_wake (hw : Wired s) (he : Exact (Waiting s) s)
    (hk : ∀ l, k = .ofLock l → (s.lock l).holder = none) :
    Exact (Waiting (semaUp k s)) (semaUp k s) := by
  rcases semaUp_cases k s with ⟨-, hs⟩ | ⟨t, rest, hp, hs⟩
  · rw [hs]
    exact he.congr (fun _ => rfl) (fun _ => rfl) (fun _ => rfl) fun _ _ _ => Iff.rfl
  · rw [hs]
    obtain ⟨-, hd⟩ := (hw.queued k t).mp (hp.mem_iff.mp List.mem_cons_self)
    refine he.congr (fun u => Sys.setThread_field (·.priority) u (by intro r; rfl))
      (fun u => Sys.setThread_field (·.basePriority) u (by intro r; rfl)) (fun _ => rfl) fun u l hl => ?_
    rw [Waiting, Waiting, Sys.setThread_field (·.downing) u (by intro r; rfl), Sys.setThread_thread]
    split
    · next hu =>
      rw [hu, Sys.setSema_thread, hd]
      refine ⟨fun h => (by cases h.1), fun h => ?_⟩
      exact absurd (hk l (Option.some.inj h.2)) hl
    · rfl

/-- A thread blocks: those who wait are those who waited, and it. -/
theorem exact_block {W : Tid → LockId → Prop} (he : Exact W s) (h0 : (s.sema k).value = 0)
    (hb : (s.thread cur).blocked = false)
    (hW : ∀ u l, W u l ↔ Waiting s u l ∨ (u = cur ∧ k = .ofLock l)) :
    Exact (Waiting (semaDown cur k s)) (semaDown cur k s) := by
  obtain ⟨list, -, hs⟩ := semaDown_block cur h0
  rw [hs]
  refine he.congr (fun u => Sys.setThread_field (·.priority) u (by intro r; rfl))
    (fun u => Sys.setThread_field (·.basePriority) u (by intro r; rfl)) (fun _ => rfl) fun u l _ => ?_
  rw [hW, Waiting, Sys.setThread_thread]
  split
  · next hu =>
    have hnot : ¬ Waiting s cur l := fun hul => by
      rw [Waiting, hb] at hul
      cases hul.1
    simp [hnot, hu]
  · next hu => simp [hu, Waiting]

theorem exact_pass (he : Exact (Waiting s) s) (hb : (s.thread cur).blocked = false) :
    Exact (Waiting s) (semaPassed cur k s) ∧
      ∀ u l, Waiting (semaPassed cur k s) u l ↔ Waiting s u l := by
  refine ⟨he.congr (fun u => Sys.setThread_field (·.priority) u (by intro r; rfl))
    (fun u => Sys.setThread_field (·.basePriority) u (by intro r; rfl)) (fun _ => rfl) fun _ _ _ => Iff.rfl,
    fun u l => ?_⟩
  rw [Waiting, Waiting, semaPassed, Sys.setThread_thread]
  split
  · next hu => simp [hu, hb]
  · rfl

/-- The rest of `lock_acquire`, with nothing pending. -/
theorem exact_semaDown (hv : Valued s) (he : Exact (Waiting s) s) (hb : (s.thread cur).blocked = false)
    (hk : ∀ l, k = .ofLock l →
      ((s.lock l).holder = none →
        ∀ u, Waiting s u l → (s.thread u).priority ≤ (s.thread cur).priority) ∧
      ((s.lock l).holder ≠ none → (s.thread cur).priority ≤ (s.lock l).maxPriority)) :
    Exact (Waiting (semaDown cur k s)) (semaDown cur k s) := by
  by_cases h0 : (s.sema k).value = 0
  · refine exact_block (W := fun u l => Waiting s u l ∨ (u = cur ∧ k = .ofLock l)) ?_ h0 hb
      fun _ _ => Iff.rfl
    refine ⟨he.base, fun u l hul hl => ?_, he.max, fun t => ?_⟩
    · rcases hul with hul | ⟨hu, hkl⟩
      · exact he.above u l hul hl
      · rw [hu]
        exact (hk l hkl).2 hl
    · rcases he.attained t with ha | ⟨u, l, hul, h⟩
      · exact Or.inl ha
      · exact Or.inr ⟨u, l, Or.inl hul, h⟩
  · obtain ⟨hpass, hwait⟩ := exact_pass (k := k) he hb
    cases k with
    | plain n =>
      rw [semaDown_plain h0]
      exact hpass.congr (fun _ => rfl) (fun _ => rfl) (fun _ => rfl) fun u l _ => hwait u l
    | ofLock l =>
      rw [semaDown_lock h0]
      have hh : (s.lock l).holder = none := by
        by_contra hne
        exact h0 (hv.zero.mpr hne)
      have hp : ∀ u, ((semaPassed cur (.ofLock l) s).thread u).priority = (s.thread u).priority :=
        fun u => Sys.setThread_field (·.priority) u (by intro r; rfl)
      refine (exact_acquired hpass hh fun u hu => ?_).congr (fun _ => rfl) (fun _ => rfl)
        (fun _ => rfl) fun u m _ => ?_
      · rw [hp, hp]
        exact (hk l rfl).1 hh u hu
      · rw [Waiting, lockAcquired_blocked, lockAcquired_downing]
        exact hwait u m

/-- Only the priorities of a thread that runs have changed. -/
theorem Exact.changed (he : Exact (Waiting s) s) (hrun : ∀ l, ¬ Waiting s cur l)
    (hold : ∀ t, t ≠ cur → s'.thread t = s.thread t) (hlock : ∀ l, s'.lock l = s.lock l)
    (hrun' : ∀ l, ¬ Waiting s' cur l)
    (hbase : (s'.thread cur).basePriority ≤ (s'.thread cur).priority)
    (hmax : ∀ l, (s.lock l).holder = some cur → (s.lock l).maxPriority ≤ (s'.thread cur).priority)
    (hatt : (s'.thread cur).priority = (s'.thread cur).basePriority ∨
      ∃ u l, Waiting s u l ∧ (s.lock l).holder = some cur ∧
        (s.thread u).priority = (s'.thread cur).priority) : Exact (Waiting s') s' := by
  have hwait : ∀ u l, Waiting s' u l ↔ Waiting s u l := by
    intro u l
    by_cases hu : u = cur
    · rw [hu]
      exact iff_of_false (hrun' l) (hrun l)
    · rw [Waiting, Waiting, hold u hu]
  have hsame : ∀ u l, Waiting s u l → s'.thread u = s.thread u := fun u l hul =>
    hold u fun hu => hrun l (hu ▸ hul)
  constructor
  · intro t
    by_cases ht : t = cur
    · rw [ht]
      exact hbase
    · rw [hold t ht]
      exact he.base t
  · intro u l hul hl
    rw [hwait] at hul
    rw [hlock] at hl
    rw [hsame u l hul, hlock]
    exact he.above u l hul hl
  · intro l t hl
    rw [hlock] at hl
    rw [hlock]
    by_cases ht : t = cur
    · rw [ht] at hl ⊢
      exact hmax l hl
    · rw [hold t ht]
      exact he.max l t hl
  · intro t
    simp only [hlock, hwait]
    by_cases ht : t = cur
    · rw [ht]
      rcases hatt with ha | ⟨u, l, hul, hl, ha⟩
      · exact Or.inl ha
      · exact Or.inr ⟨u, l, hul, hl, (hsame u l hul) ▸ ha⟩
    · rw [hold t ht]
      rcases he.attained t with ha | ⟨u, l, hul, hl, ha⟩
      · exact Or.inl ha
      · exact Or.inr ⟨u, l, hul, hl, (hsame u l hul) ▸ ha⟩

theorem exact_create (hw : Wired s) (he : Exact (Waiting s) s) {p : Int}
    (hs : Op.step depth s (.create p) = .ok s') : Exact (Waiting s') s' := by
  cases hs
  obtain ⟨hlocks, hb, -⟩ := hw.fresh s.created (Nat.le_refl _)
  have hnew : Function.update s.thread s.created (newThread p) s.created = newThread p :=
    Function.update_self _ _ _
  refine he.changed (fun l hul => ?_) (fun t ht => Function.update_of_ne ht _ _)
    (fun _ => rfl) (fun l hul => ?_) ?_ (fun l hl => ?_) (Or.inl ?_)
  · rw [Waiting, hb] at hul
    cases hul.1
  · rw [Waiting] at hul
    dsimp only at hul
    rw [hnew] at hul
    cases hul.1
  · dsimp only
    rw [hnew]
    exact Int.le_refl _
  · rw [← hw.held, hlocks] at hl
    cases hl
  · dsimp only
    rw [hnew]
    rfl

theorem exact_setPriority (hw : Wired s) (he : Exact (Waiting s) s) {p : Int}
    (hb : (s.thread cur).blocked = false) (hsound : Sound s (.setPriority cur p)) :
    Exact (Waiting (threadSetPriority cur p s)) (threadSetPriority cur p s) := by
  have hbase : ((threadSetPriority cur p s).thread cur).basePriority = p := by
    rw [threadSetPriority, Sys.setThread_thread, if_pos rfl]
  have hprio : ((threadSetPriority cur p s).thread cur).priority
      = if (s.thread cur).locks = [] ∨ (s.thread cur).priority < p then p
        else (s.thread cur).priority := by
    rw [threadSetPriority, Sys.setThread_thread, if_pos rfl]
  have hrun : ∀ l, ¬ Waiting s cur l := fun l hul => by
    rw [Waiting, hb] at hul
    cases hul.1
  have hle : ∀ l, (s.lock l).holder = some cur →
      (s.lock l).maxPriority ≤ ((threadSetPriority cur p s).thread cur).priority := by
    intro l hl
    have hmem := (hw.held cur l).mpr hl
    have hold := he.max l cur hl
    rw [hprio]
    split
    · next hor =>
      rcases hor with hnil | hlt
      · rw [hnil] at hmem
        cases hmem
      · omega
    · exact hold
  refine he.changed hrun (fun t ht => ?_) (fun _ => rfl) (fun l hul => ?_) ?_ hle ?_
  · rw [threadSetPriority, Sys.setThread_thread, if_neg ht]
  · rw [threadSetPriority, Waiting, Sys.setThread_field (·.blocked) cur (by intro r; rfl),
      Sys.setThread_field (·.downing) cur (by intro r; rfl)] at hul
    exact hrun l hul
  · rw [hbase, hprio]
    split <;> omega
  · rw [hbase, hprio]
    split
    · exact Or.inl rfl
    · next hnot =>
      rcases hsound with hnil | hpr | ⟨u, l, hl, hul, hu⟩
      · exact absurd (Or.inl hnil) hnot
      · exact Or.inl (by omega)
      · exact Or.inr ⟨u, l, hul, hl, hu⟩

/-- A thread donates its priority along the waits, and blocks. -/
theorem exact_donate {s₁ : Sys} (hw : Wired s) (hv : Valued s) (he : Exact (Waiting s) s)
    (hb : (s.thread cur).blocked = false) (hd : (s.thread cur).downing = none)
    (hh : (s.lock lock).holder ≠ none) (hne : (s.lock lock).holder ≠ some cur)
    (hcur : ¬ OnChain s lock cur)
    (hreal : ∀ u l, OnChain s lock u → (s.thread u).lockWaiting = some l → Waiting s u l)
    (hdon : threadDonatePriority cur depth lock
      (s.setThread cur fun r => { r with lockWaiting := some lock }) = .ok s₁) :
    Exact (Waiting (semaDown cur (.ofLock lock) s₁)) (semaDown cur (.ofLock lock) s₁) := by
  have hk := threadDonatePriority_kept hdon
  have hrun : ∀ u l, Waiting s u l → u ≠ cur := fun u l hul hu => by
    rw [hu, Waiting, hb] at hul
    cases hul.1
  let s₀ := s.setThread cur fun r => { r with lockWaiting := some lock }
  have hw₀ : Wired s₀ := wired_setLockWaiting hw hd
  have hwait : ∀ u l, Waiting s₀ u l ↔ Waiting s u l := fun u l => by
    rw [Waiting, Waiting, Sys.setThread_field (·.blocked) u (by intro r; rfl), Sys.setThread_field (·.downing) u (by intro r; rfl)]
  have he₀ : Exact (Waiting s) s₀ := he.congr (fun u => Sys.setThread_field (·.priority) u (by intro r; rfl))
    (fun u => Sys.setThread_field (·.basePriority) u (by intro r; rfl)) (fun _ => rfl) fun _ _ _ => Iff.rfl
  have hchain : ∀ {l u}, OnChain s₀ l u → OnChain s l u := fun h =>
    h.mono (fun u l => (hwait u l).mp) fun _ _ hl => hl
  -- the donor is a waiter whose priority has yet to reach the lock
  let W : Tid → LockId → Prop := fun u l => Waiting s₀ u l ∨ (u = cur ∧ SemaId.ofLock lock = .ofLock l)
  have hpend : Pending W s₀ cur (some lock) := by
    refine ⟨fun u l hu hul hl => ?_, fun t => ?_⟩
    · rcases hul with hul | ⟨hu', -⟩
      · exact he₀.above u l ((hwait u l).mp hul) hl
      · exact absurd hu' hu
    · rcases he₀.attained t with ha | ⟨u, l, hul, hl, ha⟩
      · exact Or.inl ha
      · exact Or.inr (Or.inl ⟨u, l, hrun u l hul, Or.inl ((hwait u l).mpr hul), hl, ha⟩)
  have hlink : ∀ u l, W u l → (s₀.thread u).lockWaiting = some l := by
    rintro u l (hul | ⟨hu, hl⟩)
    · exact hw₀.linked u l hul.2
    · rw [Sys.setThread_thread, if_pos hu, SemaId.ofLock.inj hl]
  have hself : ∀ u l, W u l → (s₀.lock l).holder ≠ some u := by
    rintro u l (hul | ⟨hu, hl⟩)
    · exact hw₀.noSelf u l hul.2
    · rw [hu, ← SemaId.ofLock.inj hl]
      exact hne
  have hreal₀ : ∀ u l, OnChain s₀ lock u → (s₀.thread u).lockWaiting = some l →
      Waiting s₀ u l := by
    intro u l hon hl
    have hu : u ≠ cur := fun hu => hcur (hu ▸ hchain hon)
    rw [Sys.setThread_thread, if_neg hu] at hl
    exact (hwait u l).mpr (hreal u l (hchain hon) hl)
  obtain ⟨he₁, -⟩ := threadDonatePriority_exact hw₀ he₀.cached hpend (Or.inr ⟨rfl, rfl⟩) hlink
    hself hreal₀ (fun _ _ => Or.inl) (fun hon => hcur (hchain hon)) (Int.le_refl _)
    (fun hlt => absurd hlt (Int.lt_irrefl _)) hdon
  refine exact_block he₁ ?_ ?_ fun u l => ?_
  · rw [(hk.valued hv).zero, hk.holder]
    exact hh
  · rw [hk.blocked, Sys.setThread_field (·.blocked) cur (by intro r; rfl), hb]
  · rw [hk.waiting]

/-- A step that relies on nothing out of date keeps the priorities exact. -/
theorem exact_step {op : Op} (hw : Wired s) (hv : Valued s) (he : Exact (Waiting s) s)
    (enabled : op.Enabled s) (hsound : Sound s op) (hs : op.step depth s = .ok s') :
    Exact (Waiting s') s' := by
  cases op with
  | create p =>
    exact exact_create hw he hs
  | acquire cur lock =>
    obtain ⟨⟨hc, hb, hd⟩, hne⟩ := enabled
    obtain ⟨hcur, hfree, hreal⟩ := hsound
    obtain ⟨hh, rfl⟩ | ⟨s₁, hh, hdon, rfl⟩ := lockAcquire_cases hs
    · refine exact_semaDown hv he hb fun l hl => ?_
      rw [← SemaId.ofLock.inj hl]
      exact ⟨hfree, fun h => absurd hh h⟩
    · exact exact_donate hw hv he hb hd hh hne hcur hreal hdon
  | release cur lock =>
    cases hs
    obtain ⟨⟨-, hb, -⟩, hh⟩ := enabled
    rw [lockRelease_eq]
    refine exact_wake (wired_letGo hw hh) ?_ fun l hl => ?_
    · refine (exact_letGo hw he hb hh hsound).congr (fun _ => rfl) (fun _ => rfl) (fun _ => rfl)
        fun u l _ => ?_
      rw [Waiting, Waiting, lockLetGo_blocked, lockLetGo_downing]
    · rw [lockLetGo_holder, if_pos (SemaId.ofLock.inj hl).symm]
  | down cur n =>
    cases hs
    exact exact_semaDown hv he enabled.2.1 fun l hl => (by cases hl)
  | up cur n =>
    cases hs
    exact exact_wake hw he fun l hl => (by cases hl)
  | setPriority cur p =>
    cases hs
    exact exact_setPriority hw he enabled.2.1 hsound
  | resume cur =>
    obtain ⟨hb, hd⟩ := enabled
    rw [Op.step] at hs
    split at hs
    · next hnone => exact absurd hnone hd
    · next k hk =>
      cases hs
      refine exact_semaDown hv he hb fun l hl => hsound l ?_
      rw [hk, hl]

theorem exact_init (unset : LockId → Int) (values : Nat → Nat) :
    Exact (Waiting (Sys.init unset values)) (Sys.init unset values) where
  base _ := Int.le_refl _
  above u l hul := by cases hul.1
  max l t hl := by cases hl
  attained _ := Or.inl rfl

theorem Reachable.exact (h : Reachable depth Sound s) : Exact (Waiting s) s := by
  induction h with
  | init unset values => exact exact_init unset values
  | step op hr enabled hsound hs ih =>
    exact exact_step hr.wired.1 hr.wired.2 ih enabled hsound hs

/-- Where the priority of a thread may come from: its base, and those who wait for its
locks. -/
def prioritySources (s : Sys) (t : Tid) : Set Int :=
  fun p => p = (s.thread t).basePriority ∨
    ∃ u l, Waiting s u l ∧ (s.lock l).holder = some t ∧ p = (s.thread u).priority

/-- In every run whose steps rely on nothing out of date, every thread has the greatest of
its base priority and the priorities of those blocked on the locks it holds. -/
theorem donated_priority_exact (h : Reachable depth Sound s) (t : Tid) :
    IsGreatest (prioritySources s t) (s.thread t).priority := by
  have he := h.exact
  refine ⟨?_, ?_⟩
  · rcases he.attained t with ha | ⟨u, l, hul, hl, ha⟩
    · exact Or.inl ha
    · exact Or.inr ⟨u, l, hul, hl, ha.symm⟩
  · rintro p (hp | ⟨u, l, hul, hl, hp⟩)
    · rw [hp]
      exact he.base t
    · rw [hp]
      exact Int.le_trans (he.above u l hul (by rw [hl]; simp)) (he.max l t hl)

theorem not_onChain (hh : (s.lock l).holder = none) : ¬ OnChain s l u := by
  rintro (⟨hl⟩ | ⟨hl, -, -⟩)
  · rw [hh] at hl
    cases hl
  · rw [hh] at hl
    cases hl

theorem onChain_holder (hh : (s.lock l).holder = some h) (hb : (s.thread h).blocked = false)
    (hon : OnChain s l u) : u = h := by
  rcases hon with ⟨hl⟩ | ⟨hl, hm, -⟩
  · exact Option.some.inj (hl.symm.trans hh)
  · rw [← Option.some.inj (hh.symm.trans hl), Waiting, hb] at hm
    cases hm.1

/-- A thread of priority 31 takes a lock, and one of priority 33 waits for it. -/
theorem donated_priority_exact_donation : ∃ s, Reachable 2 Sound s ∧ (s.thread 0).priority = 33 ∧
    IsGreatest (prioritySources s 0) (s.thread 0).priority := by
  have h₁ := ((Reachable.init (fun _ => 0) fun _ => 0 : Reachable 2 Sound _).step (.create 31)
    trivial trivial rfl).step (.create 33) trivial trivial rfl
  have h₂ := h₁.step (.acquire 0 0) (by decide)
    ⟨not_onChain rfl, fun _ u hu => (h₁.wired.1.not_waiting rfl hu).elim, fun _ _ h => (not_onChain rfl h).elim⟩ rfl
  have h₃ := h₂.step (.acquire 1 0) (by decide)
    ⟨fun h => absurd (onChain_holder rfl rfl h) (by decide), fun h => (by cases h), fun u l hon hl => by
      rw [onChain_holder rfl rfl hon] at hl
      cases hl⟩ rfl
  exact ⟨_, h₃, rfl, donated_priority_exact h₃ 0⟩

/-- Lowering its priority changes nothing for a thread that holds a lock, even if nobody waits
for it. -/
theorem lowered_priority_stays : ¬ ∀ depth s, Reachable depth Acyclic s → ∀ t, t < s.created →
    IsGreatest (prioritySources s t) (s.thread t).priority := by
  intro hall
  have h := (((Reachable.init (fun _ => 0) fun _ => 0 : Reachable 1 Acyclic _).step (.create 31)
    trivial trivial rfl).step (.acquire 0 0) (by decide) (not_onChain rfl) rfl).step
    (.setPriority 0 21) (by decide) trivial rfl
  rcases (hall _ _ h 0 (by decide)).1 with hp | ⟨u, l, hul, hl, -⟩
  · exact absurd hp (by decide)
  · have hl0 : l = 0 := List.mem_singleton.mp ((h.wired.1.held 0 l).mpr hl)
    rw [hl0] at hul
    exact h.wired.1.not_waiting rfl hul

/-! ## Where a donation goes -/

/-- The operations on locks, on the condition that a lock is released only when no thread waits
for it: `lock_waiting` is never reset. -/
def Unawaited (s : Sys) : Op → Prop
  | .create _ => True
  | .acquire cur lock => ¬ OnChain s lock cur
  | .release _ lock => (s.sema (.ofLock lock)).waiters = []
  | .resume _ => True
  | _ => False

/-- Following `holder` and `lock_waiting` from a lock comes to an end. -/
inductive Ends (s : Sys) : LockId → Prop where
  | free {l : LockId} (hh : (s.lock l).holder = none) : Ends s l
  | last {l : LockId} {h : Tid} (hh : (s.lock l).holder = some h)
      (hn : (s.thread h).lockWaiting = none) : Ends s l
  | next {l m : LockId} {h : Tid} (hh : (s.lock l).holder = some h)
      (hm : (s.thread h).lockWaiting = some m) (he : Ends s m) : Ends s l

theorem Ends.congr (he : Ends s l) (hholder : ∀ l, (s'.lock l).holder = (s.lock l).holder)
    (hwaiting : ∀ l t, (s.lock l).holder = some t →
      (s'.thread t).lockWaiting = (s.thread t).lockWaiting) : Ends s' l := by
  induction he with
  | free hh => exact .free ((hholder _).trans hh)
  | last hh hn => exact .last ((hholder _).trans hh) ((hwaiting _ _ hh).trans hn)
  | next hh hm _ ih => exact .next ((hholder _).trans hh) ((hwaiting _ _ hh).trans hm) ih

/-- What lets a donation follow the waits. -/
structure Orderly (s : Sys) : Prop where
  cached : Cached s
  asleep : ∀ u, (s.thread u).downing ≠ none → (s.thread u).blocked = true
  waits : ∀ u l, (s.thread u).lockWaiting = some l → Waiting s u l
  held : ∀ u l, Waiting s u l → (s.lock l).holder ≠ none
  ends : ∀ l, Ends s l

/-- A donation comes to an end, and raises only the threads on the chain. The induction is on
the chain. -/
theorem threadDonatePriority_ends (cur : Tid) {s : Sys} (he : Ends s l) (hw : Wired s) (hc : Cached s)
    (hh : (s.lock l).holder ≠ none)
    (hreal : ∀ u m, OnChain s l u → (s.thread u).lockWaiting = some m → Waiting s u m)
    (hheld : ∀ u m, Waiting s u m → (s.lock m).holder ≠ none) :
    ∃ bound s', (∀ depth, bound ≤ depth → threadDonatePriority cur depth l s = .ok s') ∧
      Cached s' ∧ ∀ u, (s.thread u).priority ≤ (s'.thread u).priority ∧
        ((s'.thread u).priority ≠ (s.thread u).priority → OnChain s l u) := by
  suffices hchain : ∀ s₁, Kept s s₁ → Wired s₁ → Cached s₁ →
      ∃ bound s', (∀ depth, bound ≤ depth → threadDonatePriority cur depth l s₁ = .ok s') ∧
        Cached s' ∧ ∀ u, (s₁.thread u).priority ≤ (s'.thread u).priority ∧
          ((s'.thread u).priority ≠ (s₁.thread u).priority → OnChain s l u) from
    hchain s (Kept.refl s) hw hc
  clear hw hc
  induction he with
  | free hnone => exact absurd hnone hh
  | @last l h hl hn =>
    intro s₁ hk hw hc
    have hl₁ := (hk.holder l).trans hl
    have hr := donateOne_reached (p := (s₁.thread cur).priority) hw hc hl₁
    refine ⟨1, donateOne (s₁.thread cur).priority l h s₁, fun depth hd => ?_, hr.cached hc hl₁,
      fun u => ⟨hr.priority_le u, fun hne => ?_⟩⟩
    · obtain ⟨d, rfl⟩ := Nat.exists_eq_add_of_le' hd
      rw [threadDonatePriority_succ hl₁, hk.lockWaiting, hn]
    · by_cases hu : u = h
      · rw [hu]
        exact .holder hl
      · rw [hr.priority, if_neg hu] at hne
        exact absurd rfl hne
  | @next l m h hl hm _ ih =>
    intro s₁ hk hw hc
    have hl₁ := (hk.holder l).trans hl
    have hr := donateOne_reached (p := (s₁.thread cur).priority) hw hc hl₁
    have hwait : Waiting s h m := hreal h m (.holder hl) hm
    obtain ⟨bound, s', hok, hc', hraised⟩ := ih (hheld h m hwait)
      (fun u n hu hn => hreal u n (.next hl hwait hu) hn)
      (donateOne (s₁.thread cur).priority l h s₁) (hk.trans hr.toKept) (hr.wired hw)
      (hr.cached hc hl₁)
    refine ⟨bound + 1, s', fun depth hd => ?_, hc', fun u => ⟨?_, fun hne => ?_⟩⟩
    · obtain ⟨d, rfl⟩ := Nat.exists_eq_add_of_le' (Nat.le_of_add_left_le hd)
      rw [threadDonatePriority_succ hl₁, hk.lockWaiting, hm]
      exact hok d (by omega)
    · exact Int.le_trans (hr.priority_le u) (hraised u).1
    · by_cases hsame : (s'.thread u).priority
          = ((donateOne (s₁.thread cur).priority l h s₁).thread u).priority
      · by_cases hu : u = h
        · rw [hu]
          exact .holder hl
        · rw [hsame, hr.priority, if_neg hu] at hne
          exact absurd rfl hne
      · exact .next hl hwait ((hraised u).2 hsame)

theorem cached_letGo (hw : Wired s) (hc : Cached s) (hh : (s.lock lock).holder = some cur) :
    Cached (lockLetGo cur lock s) := by
  have hr : Recomputed cur (s.setThread cur fun r => { r with locks := r.locks.erase lock })
      (threadRemoveLock cur lock s) := threadUpdatePriority_recomputed cur _
  have hother : ∀ u, u ≠ cur →
      ((lockLetGo cur lock s).thread u).priority = (s.thread u).priority := by
    intro u hu
    rw [lockLetGo_thread, hr.other u hu, Sys.setThread_field (·.priority) u (by intro r; rfl)]
  have hlocks : ∀ l, l ∈ ((s.setThread cur fun r => { r with locks := r.locks.erase lock }).thread
      cur).locks ↔ l ≠ lock ∧ (s.lock l).holder = some cur := by
    intro l
    rw [Sys.setThread_thread, if_pos rfl, (hw.once cur).mem_erase_iff, hw.held]
  constructor
  · intro t
    rw [lockLetGo_basePriority]
    by_cases ht : t = cur
    · rw [ht]
      have := hr.base
      rwa [Sys.setThread_field (·.basePriority) cur (by intro r; rfl)] at this
    · rw [hother t ht]
      exact hc.base t
  · intro l t hl
    rw [lockLetGo_holder] at hl
    rw [lockLetGo_maxPriority]
    split at hl
    · cases hl
    · next hll =>
      by_cases ht : t = cur
      · rw [ht] at hl ⊢
        exact hr.locks l ((hlocks l).mpr ⟨hll, hl⟩)
      · rw [hother t ht]
        exact hc.max l t hl
  · intro t
    simp only [lockLetGo_basePriority, lockLetGo_holder, lockLetGo_maxPriority]
    by_cases ht : t = cur
    · rw [ht]
      rcases hr.attained with ha | ⟨l, hl, ha⟩
      · rw [Sys.setThread_field (·.basePriority) cur (by intro r; rfl)] at ha
        exact Or.inl ha
      · obtain ⟨hll, hlc⟩ := (hlocks l).mp hl
        exact Or.inr ⟨l, by rw [if_neg hll]; exact hlc, ha⟩
    · rw [hother t ht]
      rcases hc.attained t with ha | ⟨l, hl, ha⟩
      · exact Or.inl ha
      · have hll : l ≠ lock := fun hll => ht (Option.some.inj (hl.symm.trans (hll ▸ hh)))
        exact Or.inr ⟨l, by rw [if_neg hll]; exact hl, ha⟩

theorem Cached.congr (hc : Cached s) (hp : ∀ t, (s'.thread t).priority = (s.thread t).priority)
    (hb : ∀ t, (s'.thread t).basePriority = (s.thread t).basePriority)
    (hl : ∀ l, s'.lock l = s.lock l) : Cached s' where
  base t := by
    rw [hp, hb]
    exact hc.base t
  max l t hh := by
    rw [hl] at hh
    rw [hp, hl]
    exact hc.max l t hh
  attained t := by
    simp only [hp, hb, hl]
    exact hc.attained t

theorem orderly_create (hw : Wired s) (ho : Orderly s) {p : Int}
    (hs : Op.step depth s (.create p) = .ok s') : Orderly s' := by
  cases hs
  obtain ⟨hlocks, hb, -⟩ := hw.fresh s.created (Nat.le_refl _)
  have hnew : Function.update s.thread s.created (newThread p) s.created = newThread p :=
    Function.update_self _ _ _
  have hold : ∀ t, t ≠ s.created →
      Function.update s.thread s.created (newThread p) t = s.thread t := fun t ht =>
    Function.update_of_ne ht _ _
  have hheld : ∀ l t, (s.lock l).holder = some t → t ≠ s.created := fun l t hl ht => by
    rw [← hw.held, ht, hlocks] at hl
    cases hl
  have hwait : ∀ u l, Waiting { s with
      created := s.created + 1
      thread := Function.update s.thread s.created (newThread p) } u l ↔ Waiting s u l := by
    intro u l
    rw [Waiting, Waiting]
    dsimp only
    by_cases hu : u = s.created
    · rw [hu, hnew, hb]
      simp [newThread]
    · rw [hold u hu]
  refine ⟨⟨fun t => ?_, fun l t hl => ?_, fun t => ?_⟩, fun u hu => ?_, fun u l hu => ?_,
    fun u l hul => ho.held u l ((hwait u l).mp hul), fun l => ?_⟩
  · dsimp only
    by_cases ht : t = s.created
    · rw [ht, hnew]
      exact Int.le_refl _
    · rw [hold t ht]
      exact ho.cached.base t
  · dsimp only
    rw [hold t (hheld l t hl)]
    exact ho.cached.max l t hl
  · dsimp only
    by_cases ht : t = s.created
    · rw [ht, hnew]
      exact Or.inl rfl
    · rw [hold t ht]
      exact ho.cached.attained t
  · dsimp only at hu ⊢
    by_cases ht : u = s.created
    · rw [ht, hnew] at hu
      exact absurd rfl hu
    · rw [hold u ht] at hu ⊢
      exact ho.asleep u hu
  · rw [hwait]
    dsimp only at hu
    by_cases ht : u = s.created
    · rw [ht, hnew] at hu
      cases hu
    · rw [hold u ht] at hu
      exact ho.waits u l hu
  · refine (ho.ends l).congr (fun _ => rfl) fun l t hl => ?_
    dsimp only
    rw [hold t (hheld l t hl)]

theorem orderly_take (ho : Orderly s) (hh : (s.lock lock).holder = none)
    (hb : (s.thread cur).blocked = false) :
    Orderly (lockAcquired cur lock (semaPassed cur (.ofLock lock) s)) := by
  have hblocked : ∀ u, ((lockAcquired cur lock (semaPassed cur (.ofLock lock) s)).thread u).blocked
      = (s.thread u).blocked := fun u => by
    rw [lockAcquired_blocked, semaPassed, Sys.setThread_field (·.blocked) u (by intro r; rfl)]
    rfl
  have hwaiting : ∀ u,
      ((lockAcquired cur lock (semaPassed cur (.ofLock lock) s)).thread u).lockWaiting
        = (s.thread u).lockWaiting := fun u => by
    rw [lockAcquired_lockWaiting, semaPassed, Sys.setThread_field (·.lockWaiting) u (by intro r; rfl)]
    rfl
  have hdowning : ∀ u, ((lockAcquired cur lock (semaPassed cur (.ofLock lock) s)).thread u).downing
      = if u = cur then none else (s.thread u).downing := fun u => by
    rw [lockAcquired_downing, semaPassed, Sys.setThread_thread]
    split <;> rfl
  have hholder : ∀ l, ((lockAcquired cur lock (semaPassed cur (.ofLock lock) s)).lock l).holder
      = if l = lock then some cur else (s.lock l).holder := fun l => lockAcquired_holder
  have hwait : ∀ u l, Waiting (lockAcquired cur lock (semaPassed cur (.ofLock lock) s)) u l ↔
      Waiting s u l := by
    intro u l
    rw [Waiting, Waiting, hblocked, hdowning]
    split
    · next hu => simp [hu, hb]
    · rfl
  have hrun : (s.thread cur).lockWaiting = none := by
    cases hl : (s.thread cur).lockWaiting with
    | none => rfl
    | some l =>
      have hwl := ho.waits cur l hl
      rw [Waiting, hb] at hwl
      cases hwl.1
  refine ⟨cached_acquired (ho.cached.congr (fun u => Sys.setThread_field (·.priority) u (by intro r; rfl))
    (fun u => Sys.setThread_field (·.basePriority) u (by intro r; rfl)) fun _ => rfl) hh, fun u hu => ?_,
    fun u l hu => ?_, fun u l hul => ?_, fun l => ?_⟩
  · rw [hdowning] at hu
    rw [hblocked]
    split at hu
    · exact absurd rfl hu
    · exact ho.asleep u hu
  · rw [hwaiting] at hu
    exact (hwait u l).mpr (ho.waits u l hu)
  · rw [hholder]
    split
    · simp
    · exact ho.held u l ((hwait u l).mp hul)
  · induction ho.ends l with
    | @free l hl =>
      by_cases hll : l = lock
      · exact .last (by rw [hholder, if_pos hll]) ((hwaiting cur).trans hrun)
      · exact .free (by rw [hholder, if_neg hll]; exact hl)
    | @last l h hl hn =>
      have hll : l ≠ lock := fun hll => by rw [hll, hh] at hl; cases hl
      exact .last (by rw [hholder, if_neg hll]; exact hl) ((hwaiting h).trans hn)
    | @next l m h hl hm _ ih =>
      have hll : l ≠ lock := fun hll => by rw [hll, hh] at hl; cases hl
      exact .next (by rw [hholder, if_neg hll]; exact hl) ((hwaiting h).trans hm) ih

theorem threadDonatePriority_cached {s s' : Sys} {m : LockId} (hw : Wired s) (hc : Cached s)
    (hs : threadDonatePriority cur depth m s = .ok s') : Cached s' := by
  induction depth generalizing s m with
  | zero => cases hs
  | succ depth ih =>
    cases hm : (s.lock m).holder with
    | none =>
      rw [threadDonatePriority, hm] at hs
      cases hs
    | some h =>
      have hr := donateOne_reached (p := (s.thread cur).priority) hw hc hm
      rw [threadDonatePriority_succ hm] at hs
      split at hs
      · cases hs
        exact hr.cached hc hm
      · exact ih (hr.wired hw) (hr.cached hc hm) hs

/-- A thread that is about to wait for a lock makes no cycle if it is not on the chain. -/
theorem ends_link (ho : Orderly s) (hnot : ¬ OnChain s lock cur) (l : LockId) :
    Ends (s.setThread cur fun r => { r with lockWaiting := some lock }) l := by
  have hsame : ∀ h, h ≠ cur → ((s.setThread cur fun r => { r with
      lockWaiting := some lock }).thread h).lockWaiting = (s.thread h).lockWaiting := fun h hne => by
    rw [Sys.setThread_thread, if_neg hne]
  -- first the chain of the lock itself, which the thread is not on
  have hchain : ∀ l, ¬ OnChain s l cur →
      Ends (s.setThread cur fun r => { r with lockWaiting := some lock }) l := by
    intro l hnot
    induction ho.ends l with
    | free hh => exact .free hh
    | @last l h hh hn =>
      have hne : h ≠ cur := fun he => hnot (he ▸ .holder hh)
      exact .last hh ((hsame h hne).trans hn)
    | @next l m h hh hm _ ih =>
      have hne : h ≠ cur := fun he => hnot (he ▸ .holder hh)
      exact .next hh ((hsame h hne).trans hm) (ih fun hon => hnot (.next hh (ho.waits h m hm) hon))
  -- then the others, which go on along it if they come to the thread
  induction ho.ends l with
  | free hh => exact .free hh
  | @last l h hh hn =>
    by_cases hne : h = cur
    · refine .next hh ?_ (hchain lock hnot)
      rw [Sys.setThread_thread, if_pos hne]
    · exact .last hh ((hsame h hne).trans hn)
  | @next l m h hh hm _ ih =>
    by_cases hne : h = cur
    · refine .next hh ?_ (hchain lock hnot)
      rw [Sys.setThread_thread, if_pos hne]
    · exact .next hh ((hsame h hne).trans hm) ih

theorem orderly_block {s₁ : Sys} (hw : Wired s) (hv : Valued s) (ho : Orderly s)
    (hd : (s.thread cur).downing = none) (hh : (s.lock lock).holder ≠ none)
    (hnot : ¬ OnChain s lock cur)
    (hdon : threadDonatePriority cur depth lock
      (s.setThread cur fun r => { r with lockWaiting := some lock }) = .ok s₁) :
    Orderly (semaDown cur (.ofLock lock) s₁) := by
  have hk := threadDonatePriority_kept hdon
  have hc₀ : Cached (s.setThread cur fun r => { r with lockWaiting := some lock }) :=
    ho.cached.congr (fun u => Sys.setThread_field (·.priority) u (by intro r; rfl))
      (fun u => Sys.setThread_field (·.basePriority) u (by intro r; rfl)) fun _ => rfl
  have hc₁ : Cached s₁ := threadDonatePriority_cached (wired_setLockWaiting hw hd) hc₀ hdon
  have h0 : (s₁.sema (.ofLock lock)).value = 0 := by
    rw [(hk.valued hv).zero, hk.holder]
    exact hh
  obtain ⟨list, -, hs⟩ := semaDown_block cur h0
  have hholder : ∀ l, ((semaDown cur (.ofLock lock) s₁).lock l).holder = (s.lock l).holder :=
    fun l => by
      rw [hs, Sys.setThread_lock, Sys.setSema_lock, hk.holder]
      rfl
  have hother : ∀ {β : Type} (g : Thread → β) u, u ≠ cur →
      g ((semaDown cur (.ofLock lock) s₁).thread u) = g (s₁.thread u) := fun g u hu => by
    rw [hs, Sys.setThread_thread, if_neg hu, Sys.setSema_thread]
  have hcur : Waiting (semaDown cur (.ofLock lock) s₁) cur lock := by
    rw [hs, Waiting, Sys.setThread_thread, if_pos rfl]
    exact ⟨rfl, rfl⟩
  have hwaiting : ∀ u, ((semaDown cur (.ofLock lock) s₁).thread u).lockWaiting
      = ((s.setThread cur fun r => { r with lockWaiting := some lock }).thread u).lockWaiting :=
    fun u => by
      rw [hs, Sys.setThread_field (·.lockWaiting) u (by intro r; rfl), ← hk.lockWaiting]
      rfl
  have hold : ∀ u, u ≠ cur → ∀ l, Waiting (semaDown cur (.ofLock lock) s₁) u l ↔ Waiting s u l :=
    fun u hu l => by
      rw [Waiting, Waiting, hother (·.blocked) u hu, hother (·.downing) u hu, hk.blocked, hk.downing,
        Sys.setThread_field (·.blocked) u (by intro r; rfl), Sys.setThread_field (·.downing) u (by intro r; rfl)]
  refine ⟨?_, fun u hu => ?_, fun u l hu => ?_, fun u l hul => ?_, fun l => ?_⟩
  · rw [hs]
    exact hc₁.congr (fun u => Sys.setThread_field (·.priority) u (by intro r; rfl))
      (fun u => Sys.setThread_field (·.basePriority) u (by intro r; rfl)) fun _ => rfl
  · by_cases huc : u = cur
    · rw [huc]
      exact hcur.1
    · rw [hother (·.downing) u huc, hk.downing, Sys.setThread_field (·.downing) u (by intro r; rfl)] at hu
      rw [hother (·.blocked) u huc, hk.blocked, Sys.setThread_field (·.blocked) u (by intro r; rfl)]
      exact ho.asleep u hu
  · rw [hwaiting, Sys.setThread_thread] at hu
    split at hu
    · next huc =>
      rw [huc, ← Option.some.inj hu]
      exact hcur
    · next huc => exact (hold u huc l).mpr (ho.waits u l hu)
  · rw [hholder]
    by_cases huc : u = cur
    · rw [huc] at hul
      rw [hul.unique hcur]
      exact hh
    · exact ho.held u l ((hold u huc l).mp hul)
  · exact (ends_link ho hnot l).congr hholder fun _ t _ => hwaiting t

theorem orderly_release (hw : Wired s) (ho : Orderly s) (hh : (s.lock lock).holder = some cur)
    (hnil : (s.sema (.ofLock lock)).waiters = []) : Orderly (lockRelease cur lock s) := by
  have hs : lockRelease cur lock s
      = (lockLetGo cur lock s).setSema (.ofLock lock) fun r => { r with value := r.value + 1 } := by
    rw [lockRelease_eq]
    rcases semaUp_cases (.ofLock lock) (lockLetGo cur lock s) with ⟨-, he⟩ | ⟨t, rest, hp, -⟩
    · exact he
    · rw [lockLetGo_sema, hnil] at hp
      exact absurd hp.length_eq (by simp)
  have hwait : ∀ u l, Waiting (lockRelease cur lock s) u l ↔ Waiting s u l := fun u l => by
    rw [hs, Waiting, Waiting, Sys.setSema_thread, lockLetGo_blocked, lockLetGo_downing]
  have hwaiting : ∀ u, ((lockRelease cur lock s).thread u).lockWaiting = (s.thread u).lockWaiting :=
    fun u => by rw [hs, Sys.setSema_thread, lockLetGo_lockWaiting]
  have hholder : ∀ l, ((lockRelease cur lock s).lock l).holder
      = if l = lock then none else (s.lock l).holder := fun l => by
    rw [hs, Sys.setSema_lock, lockLetGo_holder]
  refine ⟨?_, fun u hu => ?_, fun u l hu => ?_, fun u l hul => ?_, fun l => ?_⟩
  · rw [hs]
    exact (cached_letGo hw ho.cached hh).congr (fun _ => rfl) (fun _ => rfl) fun _ => rfl
  · rw [hs, Sys.setSema_thread, lockLetGo_downing] at hu
    rw [hs, Sys.setSema_thread, lockLetGo_blocked]
    exact ho.asleep u hu
  · rw [hwaiting] at hu
    exact (hwait u l).mpr (ho.waits u l hu)
  · rw [hwait] at hul
    have hll : l ≠ lock := fun hll => hw.not_waiting hnil (hll ▸ hul)
    rw [hholder, if_neg hll]
    exact ho.held u l hul
  · induction ho.ends l with
    | @free l hl =>
      refine .free ?_
      rw [hholder, hl]
      split <;> rfl
    | @last l h hl hn =>
      by_cases hll : l = lock
      · exact .free (by rw [hholder, if_pos hll])
      · exact .last (by rw [hholder, if_neg hll]; exact hl) ((hwaiting h).trans hn)
    | @next l m h hl hm _ ih =>
      by_cases hll : l = lock
      · exact .free (by rw [hholder, if_pos hll])
      · exact .next (by rw [hholder, if_neg hll]; exact hl) ((hwaiting h).trans hm) ih

theorem orderly_step {op : Op} (hw : Wired s) (hv : Valued s) (ho : Orderly s)
    (enabled : op.Enabled s) (hquiet : Unawaited s op) (hs : op.step depth s = .ok s') :
    Orderly s' := by
  cases op with
  | create p => exact orderly_create hw ho hs
  | acquire cur lock =>
    obtain ⟨⟨-, hb, hd⟩, hne⟩ := enabled
    obtain ⟨hh, rfl⟩ | ⟨s₁, hh, hdon, rfl⟩ := lockAcquire_cases hs
    · have h0 : (s.sema (.ofLock lock)).value ≠ 0 := fun h0 => hv.zero.mp h0 hh
      rw [semaDown_lock h0]
      exact orderly_take ho hh hb
    · exact orderly_block hw hv ho hd hh hquiet hdon
  | release cur lock =>
    cases hs
    exact orderly_release hw ho enabled.2 hquiet
  | down cur n => exact hquiet.elim
  | up cur n => exact hquiet.elim
  | setPriority cur p => exact hquiet.elim
  | resume cur =>
    -- nobody has been woken
    obtain ⟨hb, hd⟩ := enabled
    rw [ho.asleep cur hd] at hb
    cases hb

theorem Reachable.orderly (h : Reachable depth Unawaited s) : Orderly s := by
  induction h with
  | init unset values =>
    exact ⟨⟨fun _ => Int.le_refl _, fun _ _ hl => (by cases hl), fun _ => Or.inl rfl⟩,
      fun _ hd => absurd rfl hd, fun _ _ hl => (by cases hl), fun _ _ hul => (by cases hul.1),
      fun _ => .free rfl⟩
  | step op hr enabled hquiet hs ih =>
    exact orderly_step hr.wired.1 hr.wired.2 ih enabled hquiet hs

/-- In every run in which no lock is released that threads wait for, `lock_waiting` says who
waits for what, and a donation ends, without a null pointer on its way, and raises only
threads on the chain of waits. -/
theorem donation_follows_waits (h : Reachable depth Unawaited s) :
    (∀ t l, (s.thread t).lockWaiting = some l ↔ Waiting s t l) ∧
    ∀ cur lock, s.Free cur → (s.lock lock).holder ≠ none → ¬ OnChain s lock cur →
      ∃ bound s', (∀ d, bound ≤ d → threadDonatePriority cur d lock
          (s.setThread cur fun r => { r with lockWaiting := some lock }) = .ok s') ∧
        ∀ u, (s.thread u).priority ≤ (s'.thread u).priority ∧
          ((s'.thread u).priority ≠ (s.thread u).priority → OnChain s lock u) := by
  have hw := h.wired.1
  have ho := h.orderly
  refine ⟨fun t l => ⟨ho.waits t l, fun htl => hw.linked t l htl.2⟩, ?_⟩
  rintro cur lock ⟨-, -, hd⟩ hh hnot
  have hwait : ∀ u l, Waiting (s.setThread cur fun r => { r with lockWaiting := some lock }) u l ↔
      Waiting s u l := fun u l => by
    rw [Waiting, Waiting, Sys.setThread_field (·.blocked) u (by intro r; rfl), Sys.setThread_field (·.downing) u (by intro r; rfl)]
  have hchain : ∀ {l u},
      OnChain (s.setThread cur fun r => { r with lockWaiting := some lock }) l u → OnChain s l u :=
    fun hon => hon.mono (fun u l => (hwait u l).mp) fun _ _ hl => hl
  have hp : ∀ u, ((s.setThread cur fun r => { r with lockWaiting := some lock }).thread u).priority
      = (s.thread u).priority := fun u => Sys.setThread_field (·.priority) u (by intro r; rfl)
  obtain ⟨bound, s', hok, -, hraised⟩ := threadDonatePriority_ends cur (ends_link ho hnot lock)
    (wired_setLockWaiting hw hd) (ho.cached.congr hp
      (fun u => Sys.setThread_field (·.basePriority) u (by intro r; rfl)) fun _ => rfl) hh
    (fun u m hon hm => by
      have hu : u ≠ cur := fun hu => hnot (hu ▸ hchain hon)
      rw [Sys.setThread_thread, if_neg hu] at hm
      exact (hwait u m).mpr (ho.waits u m hm))
    (fun u m hum => ho.held u m ((hwait u m).mp hum))
  refine ⟨bound, s', hok, fun u => ?_⟩
  have hu := hraised u
  rw [hp] at hu
  exact ⟨hu.1, fun hne => hchain (hu.2 hne)⟩

/-- A thread waits for a lock, and is the only one to be raised by a donation to it. -/
theorem donation_follows_waits_one : ∃ s, Reachable 2 Unawaited s ∧ Waiting s 1 0 ∧
    (∀ t l, (s.thread t).lockWaiting = some l ↔ Waiting s t l) := by
  have h := ((((Reachable.init (fun _ => 0) fun _ => 0 : Reachable 2 Unawaited _).step
    (.create 31) trivial trivial rfl).step (.create 33) trivial trivial rfl).step (.acquire 0 0)
    (by decide) (not_onChain rfl) rfl).step (.acquire 1 0) (by decide)
    (fun h => absurd (onChain_holder rfl rfl h) (by decide)) rfl
  exact ⟨_, h, by decide, (donation_follows_waits h).1⟩

/-- The operations the donation is about. -/
def LockOps (s : Sys) (op : Op) : Prop :=
  Acyclic s op ∧ match op with
    | .create _ | .acquire _ _ | .release _ _ | .resume _ => True
    | _ => False

/-- A donation to a thread whose `lock_waiting` is a lock it holds goes round in circles. -/
theorem threadDonatePriority_loops {s : Sys} (hh : (s.lock l).holder = some h)
    (hm : (s.thread h).lockWaiting = some l) (depth : Nat) :
    threadDonatePriority cur depth l s = .error .stackOverflow := by
  induction depth generalizing s with
  | zero => rfl
  | succ depth ih =>
    have hk : Kept s (donateOne (s.thread cur).priority l h s) := donateOne_kept _
    rw [threadDonatePriority_succ hh, hm]
    exact ih ((hk.holder l).trans hh) ((hk.lockWaiting h).trans hm)

/-- A thread that has waited for a lock and got it still has it in `lock_waiting`. The next
donation to that lock never ends. -/
theorem stale_lock_waiting : ∃ s, Reachable 2 LockOps s ∧
    (s.thread 1).lockWaiting = some 0 ∧ ¬ Waiting s 1 0 ∧ s.Free 2 ∧ (s.lock 0).holder = some 1 ∧
    ¬ OnChain s 0 2 ∧ ∀ depth, threadDonatePriority 2 depth 0
      (s.setThread 2 fun r => { r with lockWaiting := some 0 }) = .error .stackOverflow := by
  have h₁ := ((((Reachable.init (fun _ => 0) fun _ => 0 : Reachable 2 LockOps _).step
    (.create 31) trivial ⟨trivial, trivial⟩ rfl).step (.create 31) trivial ⟨trivial, trivial⟩ rfl).step
    (.create 31) trivial ⟨trivial, trivial⟩ rfl).step (.acquire 0 0) (by decide)
    ⟨not_onChain rfl, trivial⟩ rfl
  have h₂ := (h₁.step (.acquire 1 0) (by decide)
    ⟨fun h => absurd (onChain_holder rfl rfl h) (by decide), trivial⟩ rfl).step (.release 0 0)
    (by decide) ⟨trivial, trivial⟩ rfl
  have h₃ := h₂.step (.resume 1) (by decide) ⟨fun lock hd => by
    have h0 : lock = 0 := (SemaId.ofLock.inj (Option.some.inj hd)).symm
    rw [h0]
    exact not_onChain rfl, trivial⟩ rfl
  exact ⟨_, h₃, rfl, by decide, by decide, rfl,
    fun h => absurd (onChain_holder rfl rfl h) (by decide), threadDonatePriority_loops rfl rfl⟩

end Pintos.Threads
