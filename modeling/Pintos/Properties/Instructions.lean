import Pintos.Threads.Schedule

/-!
# What an instruction does

`exec` fails an assertion, or it does one of a few things (`Ran`).
-/

namespace Pintos.Schedule

open Pintos.Lib

variable {s s' : Sys} {i : Instr} {c : CondId} {l : LockId}

/-- `thread_donate_priority`, up to its recursive call. -/
def Sys.donated (s : Sys) (l : LockId) (t : Tid) : Sys :=
  if ((s.raise l t).thread t).status = .ready then
    { s.raise l t with
      readyList := listSort (s.raise l t).threadCmpPriority (s.raise l t).readyList }
  else s.raise l t

/-- What does not depend on the ready queue is as `raise` leaves it. -/
theorem donated_field {β : Type} (g : Sys → β) (s : Sys) (l : LockId) (t : Tid)
    (hg : ∀ (s : Sys) (ts : List Tid), g { s with readyList := ts } = g s) :
    g (s.donated l t) = g (s.raise l t) := by
  unfold Sys.donated
  split
  · exact hg _ _
  · rfl

/-- What an instruction does that does not fail. -/
inductive Ran (s : Sys) : Instr → Sys → Prop
  | testFree {l : LockId} (hfree : (s.lock l).holder ≠ some s.running)
    (hskip : (s.lock l).holder ≠ none → s.mlfqs = true) : Ran s (.testHolder l) s
  | testHeld {l : LockId} (hfree : (s.lock l).holder ≠ some s.running)
    (hheld : (s.lock l).holder ≠ none) (hm : s.mlfqs = false) :
    Ran s (.testHolder l) (s.push [.setWaiting l, .donate l])
  | setWaiting {l : LockId} :
    Ran s (.setWaiting l) (s.setThread s.running fun t => { t with lockWaiting := some l })
  | donateLast {l : LockId} {t : Tid} (hh : (s.lock l).holder = some t)
    (hw : ((s.donated l t).thread t).lockWaiting = none) : Ran s (.donate l) (s.donated l t)
  | donateNext {l m : LockId} {t : Tid} (hh : (s.lock l).holder = some t)
    (hw : ((s.donated l t).thread t).lockWaiting = some m) :
    Ran s (.donate l) ((s.donated l t).push [.donate m])
  | down {k : SemaId} : Ran s (.down k) (s.semaDown k)
  | retest {k : SemaId} : Ran s (.retest k) (s.semaDown k)
  | hold {l : LockId} (hm : s.mlfqs = true) :
    Ran s (.hold l) (s.setLock l fun r => { r with holder := some s.running })
  | holdListed {l : LockId} (hm : s.mlfqs = false) : Ran s (.hold l)
    ((s.threadHoldTheLock l).setLock l fun r => { r with holder := some s.running })
  | setHolder {l : LockId} :
    Ran s (.setHolder l) (s.setLock l fun r => { r with holder := some s.running })
  | removeNone {l : LockId} (hh : (s.lock l).holder = some s.running) (hm : s.mlfqs = true) :
    Ran s (.removeLock l) s
  | remove {l : LockId} (hh : (s.lock l).holder = some s.running) (hm : s.mlfqs = false)
    (hl : l ∈ (s.thread s.running).locks) : Ran s (.removeLock l)
      ((s.setThread s.running fun t => { t with locks := t.locks.erase l }).threadUpdatePriority
        s.running)
  | clearHolder {l : LockId} :
    Ran s (.clearHolder l) (s.setLock l fun r => { r with holder := none })
  | up {k : SemaId} : Ran s (.up k) (s.semaUp k)
  | yield : Ran s .yield s.threadYield
  | awake : Ran s .awake s
  | unblocked : Ran s .unblocked s
  | unblock {t : Tid} {p : Int} (hb : (s.thread t).status = .blocked) :
    Ran s (.unblock t p) ((s.threadUnblock t).push [.yieldIfBelow p])
  | yieldBelow {p : Int} (hlt : (s.thread s.running).priority < p) :
    Ran s (.yieldIfBelow p) s.threadYield
  | stayAbove {p : Int} (hle : ¬ (s.thread s.running).priority < p) : Ran s (.yieldIfBelow p) s
  | pushWaiter {c : CondId} (hh : (s.lock (s.condLock c)).holder = some s.running) :
    Ran s (.pushWaiter c)
      ((s.setSema (.waiter s.running) fun _ => ⟨0, []⟩).setCond c (s.cond c ++ [s.running]))
  | signalNone {c : CondId} (hh : (s.lock (s.condLock c)).holder = some s.running)
    (hc : s.cond c = []) : Ran s (.signal c) s
  | signal {c : CondId} {t : Tid} {ts : List Tid}
    (hh : (s.lock (s.condLock c)).holder = some s.running)
    (hsort : s.sortWaiters (s.cond c) = .ok (t :: ts)) :
    Ran s (.signal c) ((s.setCond c ts).push [.up (.waiter t)])
  | broadcastNone {c : CondId} (hc : s.cond c = []) : Ran s (.broadcast c) s
  | broadcast {c : CondId} (hc : s.cond c ≠ []) :
    Ran s (.broadcast c) (s.push [.signal c, .broadcast c])

theorem ran_donate (h : s.threadDonatePriority l = .ok s') : Ran s (.donate l) s' := by
  unfold Sys.threadDonatePriority at h
  split at h
  · cases h
  · next t hh =>
    dsimp only at h
    split at h
    · next hw =>
      cases h
      exact .donateLast hh hw
    · next hw =>
      cases h
      exact .donateNext hh hw

theorem ran_signal (h : s.condSignal c = .ok s') : Ran s (.signal c) s' := by
  unfold Sys.condSignal at h
  split at h
  · cases h
  next hh =>
  have hh := not_not.mp hh
  split at h
  · next hc =>
    cases h
    exact .signalNone hh hc
  next hne =>
  cases hsort : s.sortWaiters (s.cond c) with
  | error e =>
    rw [hsort] at h
    cases h
  | ok ts =>
    rw [hsort] at h
    cases ts with
    | nil =>
      have hempty : listSort (decreasing s.waiterPriority) (s.cond c) = [] := by
        unfold Sys.sortWaiters at hsort
        split at hsort
        · cases hsort
        · exact Except.ok.inj hsort
      exact absurd (listSort_eq_nil.mp hempty) hne
    | cons t rest =>
      cases h
      exact .signal hh hsort

/-- An instruction fails or does one of these things. -/
theorem exec_ran (h : s.exec i = .ok s') : Ran s i s' := by
  cases i with
  | testHolder l =>
    simp only [Sys.exec] at h
    split at h
    · cases h
    next hfree =>
    split at h
    · next hheld =>
      cases h
      exact .testHeld hfree hheld.1 hheld.2
    · next hskip =>
      cases h
      exact .testFree hfree fun hh => by simpa [hh] using hskip
  | donate l => exact ran_donate h
  | hold l =>
    cases h
    cases hm : s.mlfqs with
    | true => exact .hold hm
    | false => exact .holdListed hm
  | removeLock l =>
    simp only [Sys.exec, Sys.threadRemoveLock] at h
    split at h
    · cases h
    next hh =>
    split at h
    · next hm =>
      cases h
      exact .removeNone (not_not.mp hh) hm
    · next hm =>
      split at h
      · next hl =>
        cases h
        exact .remove (not_not.mp hh) (Bool.eq_false_iff.mpr hm) hl
      · cases h
  | unblock t p =>
    simp only [Sys.exec] at h
    split at h
    · cases h
    · next hb =>
      cases h
      exact .unblock (not_not.mp hb)
  | yieldIfBelow p =>
    simp only [Sys.exec] at h
    split at h
    · next hlt =>
      cases h
      exact .yieldBelow hlt
    · next hle =>
      cases h
      exact .stayAbove hle
  | pushWaiter c =>
    simp only [Sys.exec] at h
    split at h
    · cases h
    · next hh =>
      cases h
      exact .pushWaiter (not_not.mp hh)
  | signal c => exact ran_signal h
  | broadcast c =>
    simp only [Sys.exec] at h
    split at h
    · next hc =>
      cases h
      exact .broadcastNone hc
    · next hc =>
      cases h
      exact .broadcast hc
  | _ =>
    cases h
    constructor

/-! ## Interrupts in the middle of a piece of code -/

/-- An interrupt in the middle of what comes next does what one before it does. -/
theorem split_tick (h : Action.split.step s = .ok s') : Action.tick.step s = .ok s' := by
  simp only [Action.step] at h
  split at h
  · cases h
  · exact h

theorem interrupt_tick {a : Action} (ha : a.interrupts = true) (h : a.step s = .ok s') :
    s' = s.tick := by
  cases a with
  | tick => exact (Except.ok.inj h).symm
  | split => exact (Except.ok.inj (split_tick h)).symm
  | _ => cases ha

/-! ## Given runs -/

/-- A call and the first `n` instructions that follow it. -/
def Call.run (c : Call) (n : Nat) : List Action := .call c :: List.replicate n .go

/-- Where a run through given actions ends, if each is possible and meets the condition. -/
def Sys.runs (P : Sys → Action → Prop) [∀ s a, Decidable (P s a)] (s : Sys) :
    List Action → Option Sys
  | [] => some s
  | a :: as =>
    if a.Enabled s ∧ P s a then
      match a.step s with
      | .ok s' => s'.runs P as
      | .error _ => none
    else none

theorem Reachable.runs {P : Sys → Action → Prop} [∀ s a, Decidable (P s a)] {as : List Action}
    (h : Reachable P s) (hr : s.runs P as = some s') : Reachable P s' := by
  induction as generalizing s with
  | nil =>
    cases hr
    exact h
  | cons a as ih =>
    rw [Sys.runs] at hr
    split at hr
    · next hcond =>
      split at hr
      · next s₁ hs => exact ih (h.step a hcond.1 hcond.2 hs) hr
      · cases hr
    · cases hr

/-- A run that ends where a test holds. -/
theorem Reachable.runs_any {P : Sys → Action → Prop} [∀ s a, Decidable (P s a)]
    (h : Reachable P s) (as : List Action) (test : Sys → Bool)
    (hr : (s.runs P as).any test = true) : ∃ s', Reachable P s' ∧ test s' = true := by
  cases hs : s.runs P as with
  | none =>
    rw [hs] at hr
    cases hr
  | some s' =>
    rw [hs] at hr
    exact ⟨s', h.runs hs, hr⟩

end Pintos.Schedule
