import Pintos.Lib.MergeSort
import Pintos.Properties.Mlfqs

/-!
# The order of the ready queue

In the mode without MLFQS, while no timer interrupt comes, the ready queue is in order of priority
whenever `next_thread_to_run` is called, and threads of one priority are in the order in which they
became ready. Insertion puts a thread behind those of its priority, and the sort after a donation is
stable, so only a thread whose own priority has changed can lose its place.
-/

namespace Pintos.Schedule

open Pintos.Lib

variable {s s' x : Sys} {t u : Tid} {k : SemaId} {l : LockId} {i : Instr} {q : List Tid}

/-! ## Moves -/

/-- What can happen next, while no timer interrupt comes. A thread may also call `thread_block` and
`thread_unblock` itself. -/
inductive Move where
  | call (c : Call)
  | go
  | block
  | unblock (t : Tid)

namespace Sys

/-- The thread that `sema_up` wakes. -/
def roused (s : Sys) (k : SemaId) : List Tid :=
  (listSort s.threadCmpPriority (s.sema k).waiters).head?.toList

/-- The thread that `thread_yield` puts into the ready queue. -/
def yielded (s : Sys) : List Tid := if s.running ≠ idleThread then [s.running] else []

/-- `thread_unblock` asserts that the thread which `sema_up` wakes is blocked. -/
def rousesBlocked (s : Sys) : Instr → Prop
  | .up k => ∀ t ∈ s.roused k, (s.thread t).status = .blocked
  | _ => True

instance (s : Sys) (i : Instr) : Decidable (s.rousesBlocked i) := by
  cases i <;> unfold rousesBlocked <;> infer_instance

end Sys

namespace Move

/-- A move is possible. A thread has one list element for the queues, so `thread_unblock` is not
called on a thread that waits in a queue. -/
def Enabled (s : Sys) : Move → Prop
  | .call c => (Action.call c).Enabled s
  | .go => Action.go.Enabled s
  | .block => s.free = true ∧ s.running ≠ idleThread
  | .unblock t => s.free = true ∧ s.running ≠ idleThread ∧ t ∉ s.waitingThreads ∧
    ∀ k, t ∉ (s.sema k).waiters

/-- One step. -/
def step (s : Sys) : Move → Except Crash Sys
  | .call c => (Action.call c).step s
  | .go =>
    if ∀ i ∈ s.current.head?, s.pop.rousesBlocked i then Action.go.step s else .error .assertion
  | .block => .ok s.threadBlock
  | .unblock t =>
    if (s.thread t).status ≠ .blocked then .error .assertion else .ok (s.threadUnblock t)

/-- The state in which a move calls `schedule`, which is the last thing that it does. -/
def picks (s : Sys) : Move → Option Sys
  | .call c => (Action.call c).picks s
  | .go => Action.go.picks s
  | .block => some (s.setThread s.running fun t => { t with status := .blocked })
  | .unblock _ => none

end Move

/-- The threads that an instruction makes ready, in this order. -/
def Sys.execReadied (s : Sys) : Instr → List Tid
  | .up k => s.roused k ++ s.yielded
  | .yield => s.yielded
  | .unblock t _ => [t]
  | .yieldIfBelow p => if (s.thread s.running).priority < p then s.yielded else []
  | _ => []

/-- The threads that a move makes ready, in this order. -/
def Move.readied (s : Sys) : Move → List Tid
  | .call .yield => s.yielded
  | .call (.unblock t) => [t]
  | .call _ => []
  | .go => s.current.head?.elim [] s.pop.execReadied
  | .block => []
  | .unblock t => [t]

/-! ## What a move does to the ready queue -/

/-- The ready queue is in order, and the threads in it are ready. -/
structure Placed (s : Sys) : Prop where
  plain : s.mlfqs = false
  once : s.readyList.Nodup
  ready : ∀ t ∈ s.readyList, (s.thread t).status = .ready
  fresh : ∀ t, s.created ≤ t → (s.thread t).status = .dying
  idle : idleThread < s.created
  sorted : s.Sorted

/-- The same while a thread is running. -/
structure Orderly (s : Sys) : Prop extends Placed s where
  running : (s.thread s.running).status = .running

/-- The ready queue of `x` is that of `s` with the threads `ts` put into it behind those of their
priorities. -/
def Queues (s : Sys) (ts : List Tid) (x : Sys) : Prop :=
  Alike (fun t => (x.thread t).priority) (s.readyList ++ ts) x.readyList

/-- What a move that makes the threads `ts` ready does: it leaves the running thread running, or
calls `schedule` at its end. -/
inductive Turns (s : Sys) (ts : List Tid) : Option Sys → Sys → Prop where
  | stays {s' : Sys} (placed : Orderly s') (queues : Queues s ts s') : Turns s ts none s'
  | switches {x : Sys} (placed : Placed x) (queues : Queues s ts x) :
      Turns s ts (some x) x.schedule

theorem Orderly.not_ready (h : Orderly s) : s.running ∉ s.readyList := fun hr => by
  have hready := h.ready _ hr
  rw [h.running] at hready
  cases hready

theorem Queues.refl (s : Sys) : Queues s [] s := by
  rw [Queues, List.append_nil]
  exact Alike.refl _ _

theorem Queues.congr {ts : List Tid} (h : Queues s ts x) (hr : s'.readyList = x.readyList)
    (hp : ∀ t ∈ x.readyList, (s'.thread t).priority = (x.thread t).priority) : Queues s ts s' := by
  rw [Queues, hr]
  exact Alike.congr h fun t ht => hp t (h.mem ht)

theorem Queues.same {ts : List Tid} (h : Queues s ts x) (hrank : SameRank x s')
    (hr : s'.readyList = x.readyList) : Queues s ts s' := h.congr hr fun t _ => hrank.priority t

/-- A thread that is put into the ready queue comes behind those of its priority. -/
theorem Placed.queues_insert (h : Placed s) (t : Tid) : Queues s [t] (s.insertReady t) :=
  h.sorted.alike_insert t

theorem Queues.trans {ts ts' : List Tid} (h : Queues s ts x) (h' : Queues x ts' s')
    (hp : ∀ t, (s'.thread t).priority = (x.thread t).priority) : Queues s (ts ++ ts') s' := by
  have hfirst : Alike (fun t => (s'.thread t).priority) (s.readyList ++ ts) x.readyList :=
    Alike.congr h fun t _ => hp t
  rw [Queues, ← List.append_assoc]
  exact (hfirst.append (Alike.refl _ ts')).trans h'

/-! ## Parts of a move -/

/-- The first thread of the queue is switched to. -/
theorem Placed.schedule (h : Placed s) : Orderly s.schedule := by
  have hrun : s.schedule.running = s.readyList.head?.getD idleThread := Sys.schedule_running
  have hready : ∀ t ∈ s.schedule.readyList, t ∈ s.readyList ∧ t ≠ s.schedule.running := by
    intro t ht
    rw [Sys.schedule_readyList] at ht
    refine ⟨List.mem_of_mem_tail ht, ?_⟩
    rintro rfl
    rw [hrun] at ht
    cases hl : s.readyList with
    | nil =>
      rw [hl] at ht
      cases ht
    | cons v rest =>
      have honce := h.once
      rw [hl] at ht honce
      exact (List.nodup_cons.mp honce).1 ht
  have hnew : s.schedule.running < s.created := by
    rw [hrun]
    cases hl : s.readyList with
    | nil => exact h.idle
    | cons v rest =>
      by_contra hge
      have hv := h.ready v (by rw [hl]; exact List.mem_cons_self)
      rw [h.fresh v (Nat.le_of_not_lt hge)] at hv
      cases hv
  constructor
  · constructor
    · rw [Sys.schedule_mlfqs]
      exact h.plain
    · rw [Sys.schedule_readyList]
      exact h.once.sublist (List.tail_sublist _)
    · intro t ht
      obtain ⟨ht, hne⟩ := hready t ht
      rw [Sys.schedule_thread, if_neg hne]
      exact h.ready t ht
    · intro t ht
      rw [Sys.schedule_created] at ht
      rw [Sys.schedule_thread, if_neg (Nat.ne_of_gt (Nat.lt_of_lt_of_le hnew ht))]
      exact h.fresh t ht
    · rw [Sys.schedule_created]
      exact h.idle
    · exact h.sorted.schedule.1
  · rw [Sys.schedule_thread, if_pos rfl]

/-- A thread becomes ready. -/
theorem Placed.threadUnblock (h : Placed s) (hnot : t ∉ s.readyList)
    (hlive : (s.thread t).status ≠ .dying) : Placed (s.threadUnblock t) := by
  have hmem : ∀ u, u ∈ (s.threadUnblock t).readyList ↔ u = t ∨ u ∈ s.readyList := fun u =>
    mem_listInsertOrdered
  have hstatus : ∀ u, ((s.threadUnblock t).thread u).status =
      if u = t then .ready else (s.thread u).status := by
    intro u
    rw [Sys.threadUnblock, Sys.setThread_thread]
    split <;> rfl
  constructor
  · exact h.plain
  · exact (listInsertOrdered_perm _ t s.readyList).nodup_iff.mpr
      (List.nodup_cons.mpr ⟨hnot, h.once⟩)
  · intro u hu
    rw [hstatus]
    split
    · rfl
    · next hne => exact h.ready u (((hmem u).mp hu).resolve_left hne)
  · intro u hu
    have hdying := h.fresh u hu
    rw [hstatus, if_neg]
    · exact hdying
    · rintro rfl
      exact hlive hdying
  · exact h.idle
  · exact h.sorted.threadUnblock t

theorem Placed.queues_threadUnblock (h : Placed s) (t : Tid) :
    Queues s [t] (s.threadUnblock t) := by
  have hrank : SameRank (s.insertReady t) (s.threadUnblock t) := sameRank_setThread fun _ => rfl
  exact (h.queues_insert t).same hrank rfl

/-- A thread that is blocked becomes ready, and another one goes on running. -/
theorem Orderly.threadUnblock (h : Orderly s) (hb : (s.thread t).status = .blocked) :
    Orderly (s.threadUnblock t) := by
  have hne : s.running ≠ t := by
    rintro rfl
    rw [h.running] at hb
    cases hb
  have hnot : t ∉ s.readyList := fun ht => by
    rw [h.ready t ht] at hb
    cases hb
  refine ⟨h.toPlaced.threadUnblock hnot (by rw [hb]; simp), ?_⟩
  show ((s.threadUnblock t).thread s.running).status = _
  rw [Sys.threadUnblock, Sys.setThread_thread, if_neg hne]
  exact h.running

/-- The running thread has been put into the queue, and `schedule` is called. -/
theorem Orderly.offered (h : Orderly s) : Placed s.offered ∧ Queues s s.yielded s.offered := by
  by_cases hidle : s.running = idleThread
  · have heq : s.offered = s.setThread s.running fun r => { r with status := .ready } := by
      rw [Sys.offered, if_neg (not_not.mpr hidle)]
    have hrank : SameRank s s.offered := by
      rw [heq]
      exact sameRank_setThread fun _ => rfl
    have hready : s.offered.readyList = s.readyList := by rw [heq]; rfl
    have hyielded : s.yielded = [] := if_neg (not_not.mpr hidle)
    have hother : ∀ t, t ≠ s.running → s.offered.thread t = s.thread t := fun t ht => by
      rw [Sys.offered_thread, if_neg ht]
    refine ⟨⟨?_, ?_, fun t ht => ?_, fun t ht => ?_, ?_, h.sorted.offered⟩, ?_⟩
    · rw [Sys.offered_mlfqs]
      exact h.plain
    · rw [hready]
      exact h.once
    · rw [hready] at ht
      rw [hother t fun hr => h.not_ready (hr ▸ ht)]
      exact h.ready t ht
    · rw [Sys.offered_created] at ht
      have hne : t ≠ s.running := by
        rw [hidle]
        exact Nat.ne_of_gt (Nat.lt_of_lt_of_le h.idle ht)
      rw [hother t hne]
      exact h.fresh t ht
    · rw [Sys.offered_created]
      exact h.idle
    · rw [hyielded]
      exact (Queues.refl s).same hrank hready
  · have heq : s.offered = s.threadUnblock s.running := by
      rw [Sys.offered, if_pos hidle]
      rfl
    have hyielded : s.yielded = [s.running] := if_pos hidle
    rw [heq, hyielded]
    refine ⟨h.toPlaced.threadUnblock h.not_ready ?_, h.toPlaced.queues_threadUnblock _⟩
    rw [h.running]
    simp

/-- What does not depend on the thread of a queue is left alone. -/
structure Still (s s' : Sys) : Prop where
  mlfqs : s'.mlfqs = s.mlfqs
  created : s'.created = s.created
  running : s'.running = s.running
  status : ∀ t, (s'.thread t).status = (s.thread t).status

theorem Orderly.still (h : Orderly s) (hs : Still s s') (hr : s'.readyList.Perm s.readyList)
    (hsorted : s'.Sorted) : Orderly s' where
  plain := hs.mlfqs.trans h.plain
  once := hr.nodup_iff.mpr h.once
  ready t ht := by
    rw [hs.status]
    exact h.ready t (hr.mem_iff.mp ht)
  fresh t ht := by
    rw [hs.created] at ht
    rw [hs.status]
    exact h.fresh t ht
  idle := by
    rw [hs.created]
    exact h.idle
  sorted := hsorted
  running := by
    rw [hs.running, hs.status]
    exact h.running

/-- Nothing is done to the queue, nor to the priority of a thread in it. -/
theorem Orderly.keeps (h : Orderly s) (hs : Still s s') (hr : s'.readyList = s.readyList)
    (hp : ∀ t ∈ s.readyList, (s'.thread t).priority = (s.thread t).priority) :
    Turns s [] none s' :=
  .stays (h.still hs (by rw [hr]) (h.sorted.congr hr hp)) ((Queues.refl s).congr hr hp)

/-- The running thread is switched from, and does not become ready. -/
theorem Orderly.leaves (h : Orderly s) (hmlfqs : x.mlfqs = s.mlfqs)
    (hcreated : x.created = s.created) (hready : x.readyList = s.readyList)
    (hrank : ∀ t, (x.thread t).priority = (s.thread t).priority)
    (hother : ∀ t, t ≠ s.running → (x.thread t).status = (s.thread t).status) :
    Turns s [] (some x) x.schedule := by
  have hne : ∀ t ∈ s.readyList, t ≠ s.running := fun t ht hr => h.not_ready (hr ▸ ht)
  have hsorted : x.Sorted := h.sorted.congr hready fun t _ => hrank t
  refine .switches ⟨hmlfqs.trans h.plain, hready ▸ h.once, fun t ht => ?_, fun t ht => ?_,
    hcreated ▸ h.idle, hsorted⟩ ((Queues.refl s).congr hready fun t _ => hrank t)
  · rw [hready] at ht
    rw [hother t (hne t ht)]
    exact h.ready t ht
  · rw [hcreated] at ht
    rw [hother t]
    · exact h.fresh t ht
    · rintro rfl
      have hdying := h.fresh _ ht
      rw [h.running] at hdying
      cases hdying

/-! ## Instructions -/

theorem threadHoldTheLock_status (s : Sys) (l : LockId) (t : Tid) :
    ((s.threadHoldTheLock l).thread t).status = (s.thread t).status := by
  unfold Sys.threadHoldTheLock
  exact Sys.setThread_field (·.status) t fun _ => rfl

theorem exec_status (hi : i.moves s = false) (h : s.exec i = .ok s') (t : Tid) :
    (s'.thread t).status = (s.thread t).status := by
  have hpush : ∀ (s : Sys) is, ((s.push is).thread t).status = (s.thread t).status := fun s is =>
    Sys.setThread_field (·.status) t fun _ => rfl
  cases exec_ran h with
  | testHeld => exact hpush s _
  | setWaiting => exact Sys.setThread_field (·.status) t fun _ => rfl
  | down =>
    rw [Sys.semaDown_pos (by simpa [Instr.moves] using hi)]
    rfl
  | retest =>
    rw [Sys.semaDown_pos (by simpa [Instr.moves] using hi)]
    rfl
  | holdListed => exact threadHoldTheLock_status s _ t
  | remove =>
    rw [threadUpdatePriority_thread]
    split
    · next ht =>
      rw [ht]
      exact Sys.setThread_field (·.status) _ fun _ => rfl
    · exact Sys.setThread_field (·.status) t fun _ => rfl
  | @signal c _ ts => exact hpush (s.setCond c ts) _
  | broadcast => exact hpush s _
  | donateLast => cases hi
  | donateNext => cases hi
  | up => cases hi
  | yield => cases hi
  | unblock => cases hi
  | yieldBelow => cases hi
  | _ => rfl

theorem exec_still (hi : i.moves s = false) (h : s.exec i = .ok s') : Still s s' := by
  have hfixed : s'.fixed = s.fixed := exec_fixed h
  exact ⟨congrArg (·.1) hfixed, congrArg (·.2.2) hfixed, (exec_stays hi h).1, exec_status hi h⟩

/-- `sema_up` has woken the first of its waiters. -/
theorem Orderly.semaWake (h : Orderly s) (hb : s.rousesBlocked (.up k)) :
    Orderly (s.semaWake k) ∧ Queues s (s.roused k) (s.semaWake k) := by
  rw [Sys.rousesBlocked, Sys.roused] at hb
  rw [Sys.semaWake, Sys.roused]
  cases hl : listSort s.threadCmpPriority (s.sema k).waiters with
  | nil => exact ⟨h.still ⟨rfl, rfl, rfl, fun _ => rfl⟩ (List.Perm.refl _) h.sorted, .refl s⟩
  | cons t rest =>
    rw [hl] at hb
    have hblocked : (s.thread t).status = .blocked := hb t List.mem_cons_self
    have htaken : Orderly (s.setSema k fun m =>
        { value := (m.value + 1) % uintSize, waiters := rest }) :=
      h.still ⟨rfl, rfl, rfl, fun _ => rfl⟩ (List.Perm.refl _) h.sorted
    exact ⟨htaken.threadUnblock hblocked, htaken.toPlaced.queues_threadUnblock t⟩

/-- A donation sorts the queue where it has changed a priority in it. -/
theorem Orderly.donate (h : Orderly s) (hexec : s.exec (.donate l) = .ok s') :
    Turns s [] none s' := by
  have hfixed : s'.fixed = s.fixed := exec_fixed hexec
  have hdonated : ∀ u, (s.donated l u).Sorted ∧ Queues s [] (s.donated l u) ∧
      (s.donated l u).running = s.running ∧
      ∀ t, ((s.donated l u).thread t).status = (s.thread t).status := by
    intro u
    obtain ⟨hready, hrun, hstatus⟩ := raise_readyList s l u
    rcases donated_cases l u h.ready with heq | ⟨heq, hsame⟩
    · rw [heq]
      refine ⟨decreasing_listSort _ _, ?_, hrun, hstatus⟩
      rw [Queues, List.append_nil]
      exact alike_listSort _ _
    · rw [heq]
      exact ⟨h.sorted.congr hready hsame, (Queues.refl s).congr hready hsame, hrun, hstatus⟩
  have hall : s'.Sorted ∧ Queues s [] s' ∧ s'.running = s.running ∧
      ∀ t, (s'.thread t).status = (s.thread t).status := by
    cases exec_ran hexec with
    | donateLast => exact hdonated _
    | donateNext =>
      obtain ⟨hsorted, hqueues, hrun, hstatus⟩ := hdonated _
      refine ⟨hsorted.same (sameRank_push _ _) rfl, hqueues.same (sameRank_push _ _) rfl, hrun,
        fun t => ?_⟩
      rw [← hstatus t]
      exact Sys.setThread_field (·.status) t fun _ => rfl
  obtain ⟨hsorted, hqueues, hrun', hstatus'⟩ := hall
  have hperm : s'.readyList.Perm (s.readyList ++ []) := Alike.perm hqueues
  rw [List.append_nil] at hperm
  exact .stays (h.still ⟨congrArg (·.1) hfixed, congrArg (·.2.2) hfixed, hrun', hstatus'⟩ hperm
    hsorted) hqueues

theorem Orderly.exec (h : Orderly s) (hb : s.rousesBlocked i) (hexec : s.exec i = .ok s') :
    Turns s (s.execReadied i) (s.execPicks i) s' := by
  have hswitch : ∀ {ts x}, s.execPicks i = some x → s.execReadied i = ts →
      Turns s ts (some x) x.schedule → Turns s (s.execReadied i) (s.execPicks i) s' := by
    intro ts x hx hts hturns
    have hs' : s' = x.schedule := by
      rw [execPicks_exec hx] at hexec
      exact (Except.ok.inj hexec).symm
    rw [hx, hts, hs']
    exact hturns
  -- who sleeps on a semaphore leaves the queue as it is
  have hblock : ∀ k, Turns s [] (some (s.waitOn k)) (s.waitOn k).schedule := fun k => by
    refine h.leaves rfl rfl rfl (fun t => ?_) fun t ht => ?_
    · rw [Sys.waitOn_thread]
      split <;> rfl
    · rw [Sys.waitOn_thread, if_neg ht]
  have hkeep : i.moves s = false →
      (∀ t ∈ s.readyList, (s'.thread t).priority = (s.thread t).priority) →
      Turns s [] none s' := fun hi hp =>
    h.keeps (exec_still hi hexec) (exec_stays hi hexec).2 hp
  cases i with
  | down k =>
    by_cases hv : (s.sema k).value = 0
    · exact hswitch (if_pos hv) rfl (hblock k)
    · have hpicks : s.execPicks (.down k) = none := if_neg hv
      rw [hpicks]
      exact hkeep (by simpa [Instr.moves] using hv) fun t _ => (sameRank_exec rfl hexec).priority t
  | retest k =>
    by_cases hv : (s.sema k).value = 0
    · exact hswitch (if_pos hv) rfl (hblock k)
    · have hpicks : s.execPicks (.retest k) = none := if_neg hv
      rw [hpicks]
      exact hkeep (by simpa [Instr.moves] using hv) fun t _ => (sameRank_exec rfl hexec).priority t
  | up k =>
    -- two insertions: the thread that is woken, and then the one that yields
    obtain ⟨hwake, hroused⟩ := h.semaWake hb
    obtain ⟨hplaced, hqueues⟩ := hwake.offered
    refine hswitch rfl rfl (.switches hplaced ?_)
    have hyielded : (s.semaWake k).yielded = s.yielded := by
      rw [Sys.yielded, semaWake_running, Sys.yielded]
    rw [hyielded] at hqueues
    exact hroused.trans hqueues (sameRank_offered _).priority
  | yield => exact hswitch rfl rfl (.switches h.offered.1 h.offered.2)
  | yieldIfBelow p =>
    by_cases hlt : (s.thread s.running).priority < p
    · exact hswitch (if_pos hlt) (if_pos hlt) (.switches h.offered.1 h.offered.2)
    · have hpicks : s.execPicks (.yieldIfBelow p) = none := if_neg hlt
      have hreadied : s.execReadied (.yieldIfBelow p) = [] := if_neg hlt
      rw [hpicks, hreadied]
      simp only [Sys.exec, if_neg hlt] at hexec
      cases hexec
      exact .stays h (.refl s)
  | unblock t p =>
    simp only [Sys.exec] at hexec
    split at hexec <;> cases hexec
    next hblocked =>
    have hready : Orderly (s.threadUnblock t) := h.threadUnblock (not_not.mp hblocked)
    have hpush := sameRank_push (s.threadUnblock t) [.yieldIfBelow p]
    refine .stays (hready.still ⟨rfl, rfl, rfl, fun u => ?_⟩ (List.Perm.refl _)
      (hready.sorted.same hpush rfl)) ((h.toPlaced.queues_threadUnblock t).same hpush rfl)
    exact Sys.setThread_field (·.status) u fun _ => rfl
  | donate l => exact h.donate hexec
  | hold l =>
    refine hkeep rfl fun t _ => ?_
    cases hexec
    rw [if_neg (by simp [h.plain])]
    exact threadHoldTheLock_priority s l t
  | setHolder l =>
    refine hkeep rfl fun t _ => ?_
    cases hexec
    rfl
  | clearHolder l =>
    refine hkeep rfl fun t _ => ?_
    cases hexec
    rfl
  | removeLock l =>
    refine hkeep rfl fun t ht => ?_
    have hne : t ≠ s.running := fun hr => h.not_ready (hr ▸ ht)
    rw [removeLock_thread hexec hne]
  | _ => exact hkeep rfl fun t _ => (sameRank_exec rfl hexec).priority t

/-! ## Calls -/

theorem call_status {c : Call} (hc : c.moves = false) (h : s.call c = .ok s') (t : Tid) :
    (s'.thread t).status = (s.thread t).status := by
  have hpush : ∀ (s : Sys) is, ((s.push is).thread t).status = (s.thread t).status := fun s is =>
    Sys.setThread_field (·.status) t fun _ => rfl
  cases c with
  | tryDown k =>
    cases h
    unfold Sys.semaTryDown
    split <;> rfl
  | tryAcquire l =>
    simp only [Sys.call] at h
    split at h
    · cases h
    · unfold Sys.semaTryDown at h
      split at h
      · next heq =>
        split at heq <;> cases heq
        cases h
        exact hpush (s.setSema (.ofLock (.user l)) _) _
      · next heq =>
        split at heq <;> cases heq
        cases h
        rfl
  | down k =>
    cases h
    exact hpush s _
  | up k =>
    cases h
    exact hpush s _
  | acquire l =>
    cases h
    exact hpush s _
  | release l =>
    cases h
    exact hpush s _
  | wait c =>
    cases h
    exact hpush s _
  | signal c =>
    cases h
    exact hpush s _
  | broadcast c =>
    cases h
    exact hpush s _
  | _ => cases hc

/-- A change of the running thread's own record, but for its status. -/
theorem Orderly.setThread (h : Orderly s) (f : Thread → Thread)
    (hf : ∀ r, (f r).status = r.status) : Turns s [] none (s.setThread s.running f) := by
  refine h.keeps ⟨rfl, rfl, rfl, fun t => Sys.setThread_field (·.status) t hf⟩ rfl fun t ht => ?_
  have hne : t ≠ s.running := fun hr => h.not_ready (hr ▸ ht)
  rw [Sys.setThread_thread, if_neg hne]

theorem Turns.push {ts : List Tid} (h : Turns s ts none s') (is : List Instr) :
    Turns s ts none (s'.push is) := by
  cases h with
  | stays placed queues =>
    have hpush := sameRank_push s' is
    refine .stays (placed.still ⟨rfl, rfl, rfl, fun t => ?_⟩ (List.Perm.refl _)
      (placed.sorted.same hpush rfl)) (queues.same hpush rfl)
    exact Sys.setThread_field (·.status) t fun _ => rfl

theorem Turns.of_pop {ts : List Tid} {x : Option Sys} (h : Turns s.pop ts x s') :
    Turns s ts x s' := by
  cases h with
  | stays placed queues => exact .stays placed queues
  | switches placed queues => exact .switches placed queues

theorem Orderly.create {p : Int} (h : Orderly s) (hcall : s.call (.create p) = .ok s') :
    Turns s [] none s' := by
  simp only [Sys.call] at hcall
  split at hcall <;> cases hcall
  have hother : ∀ t, t ≠ s.created → (s.initThread p).thread t = s.thread t := fun t ht =>
    Function.update_of_ne ht _ _
  have hlive : ∀ t, (s.thread t).status ≠ .dying → t ≠ s.created := by
    rintro t ht rfl
    exact ht (h.fresh _ (Nat.le_refl _))
  have hready : ∀ t ∈ s.readyList, t ≠ s.created := fun t ht =>
    hlive t (by rw [h.ready t ht]; simp)
  have hpriority : ∀ t ∈ s.readyList,
      ((s.initThread p).thread t).priority = (s.thread t).priority := fun t ht => by
    rw [hother t (hready t ht)]
  have hmade : Orderly (s.initThread p) := by
    refine ⟨⟨h.plain, h.once, fun t ht => ?_, fun t ht => ?_, Nat.lt_succ_of_lt h.idle,
      h.sorted.congr rfl hpriority⟩, ?_⟩
    · rw [hother t (hready t ht)]
      exact h.ready t ht
    · have hlt : s.created < t := ht
      rw [hother t (Nat.ne_of_gt hlt)]
      exact h.fresh t (Nat.le_of_lt hlt)
    · show ((s.initThread p).thread s.running).status = _
      rw [hother _ (hlive _ (by rw [h.running]; simp))]
      exact h.running
  have hturns : Turns s [] none (s.initThread p) :=
    .stays hmade ((Queues.refl s).congr rfl hpriority)
  exact hturns.push _

theorem Orderly.call {c : Call} (h : Orderly s) (hcall : s.call c = .ok s') :
    Turns s ((Move.call c).readied s) (s.callPicks c) s' := by
  cases c with
  | create p => exact h.create hcall
  | exit =>
    cases hcall
    refine h.leaves rfl rfl rfl (fun t => ?_) fun t ht => ?_
    · exact Sys.setThread_field (·.priority) t fun _ => rfl
    · rw [Sys.setThread_thread, if_neg ht]
  | yield =>
    cases hcall
    exact .switches h.offered.1 h.offered.2
  | setPriority p =>
    cases hcall
    show Turns s [] none (s.threadSetPriority p)
    rw [Sys.threadSetPriority, if_neg (by simp [h.plain])]
    dsimp only
    split
    · have hset : Turns s [] none (s.setThread s.running fun t =>
          { t with basePriority := p, priority := p }) := h.setThread _ fun _ => rfl
      exact hset.push _
    · exact h.setThread _ fun _ => rfl
  | setNice n =>
    cases hcall
    show Turns s [] none (s.threadSetNice n)
    have hset : Turns s [] none (s.reniced n) := h.setThread _ fun r => by split <;> rfl
    rw [Sys.threadSetNice_eq]
    split
    · exact hset.push _
    · exact hset
  | sleep n =>
    cases hcall
    show Turns s [] (if n ≤ 0 then none else some (s.drowse n)) _
    split
    · exact .stays h (.refl s)
    · refine h.leaves rfl rfl rfl (fun t => ?_) fun t ht => ?_
      · rw [Sys.drowse_thread]
        split <;> rfl
      · rw [Sys.drowse_thread, if_neg ht]
  | block =>
    cases hcall
    refine h.leaves rfl rfl rfl (sameRank_park s).priority fun t ht => ?_
    rw [Sys.park_thread, if_neg ht]
  | unblock t =>
    obtain ⟨hparked, rfl⟩ := call_unblock hcall
    exact .stays (h.threadUnblock hparked.1) (h.toPlaced.queues_threadUnblock t)
  | idle =>
    cases hcall
    refine h.leaves rfl rfl rfl (fun t => ?_) fun t ht => ?_
    · exact Sys.setThread_field (·.priority) t fun _ => rfl
    · rw [Sys.setThread_thread, if_neg ht]
  | _ =>
    have hrank := sameRank_call rfl (by simp) (by simp) hcall
    obtain ⟨hrun, hready⟩ := call_stays rfl hcall
    have hfixed := call_fixed hcall
    have hstill : Still s s' :=
      ⟨congrArg (·.1) hfixed, congrArg (·.2.2) hfixed, hrun, call_status rfl hcall⟩
    exact h.keeps hstill hready fun t _ => hrank.priority t

theorem Orderly.step {m : Move} (h : Orderly s) (henabled : m.Enabled s)
    (hs : m.step s = .ok s') : Turns s (m.readied s) (m.picks s) s' := by
  cases m with
  | call c => exact h.call hs
  | go =>
    have henabled : Action.go.Enabled s := henabled
    rw [Move.step] at hs
    split at hs
    · next hb =>
      obtain ⟨i, rest, hi, hexec⟩ := go_cases henabled hs
      have hpop : Orderly s.pop := h.still
        ⟨rfl, rfl, rfl, fun t => Sys.setThread_field (·.status) t fun _ => rfl⟩
        (List.Perm.refl _) (h.sorted.same (sameRank_pop s) rfl)
      rw [hi] at hb
      rw [Move.readied, Move.picks, Action.picks, hi]
      exact (hpop.exec (hb i rfl) hexec).of_pop
    · cases hs
  | block =>
    cases hs
    refine h.leaves rfl rfl rfl (fun t => ?_) fun t ht => ?_
    · exact Sys.setThread_field (·.priority) t fun _ => rfl
    · rw [Sys.setThread_thread, if_neg ht]
  | unblock t =>
    rw [Move.step] at hs
    split at hs <;> cases hs
    next hblocked =>
    exact .stays (h.threadUnblock (not_not.mp hblocked)) (h.toPlaced.queues_threadUnblock t)

/-! ## Runs -/

/-- The threads of `q` that are in the ready queue of `x` still, and with the priority that they had
in `s`. -/
def Sys.unchanged (s x : Sys) (q : List Tid) : List Tid :=
  q.filter fun t => t ∈ x.readyList ∧ (x.thread t).priority = (s.thread t).priority

/-- The states of the runs in the mode without MLFQS, with the threads that are in the ready queue
and whose priority has not changed since they became ready, in the order in which they became
ready. -/
inductive Lined : Sys → List Tid → Prop where
  | init {s : Sys} (booted : Booted s) (plain : s.mlfqs = false) : Lined s []
  | step {s s' : Sys} {q : List Tid} (m : Move) (lined : Lined s q) (enabled : m.Enabled s)
      (step : m.step s = .ok s') : Lined s' (s.unchanged s' (q ++ m.readied s))

/-- Threads of one priority that stand in `q` stand in this order in the ready queue. -/
def InLine (s : Sys) (q : List Tid) : Prop :=
  ∀ p, (q.filter fun t => (s.thread t).priority = p).Sublist s.readyList

/-- What is put into the queue comes behind those that are there, and these keep their order. -/
theorem InLine.queues {ts : List Tid} (h : InLine s q) (hx : Queues s ts x) :
    InLine x (s.unchanged x (q ++ ts)) := by
  intro p
  have hold : ((s.unchanged x q).filter fun t => (x.thread t).priority = p).Sublist
      (s.readyList.filter fun t => (x.thread t).priority = p) := by
    have hkept : ((s.unchanged x q).filter fun t => (x.thread t).priority = p).Sublist
        ((q.filter fun t => (s.thread t).priority = p).filter fun t =>
          (x.thread t).priority = p) := by
      rw [Sys.unchanged, List.filter_filter, List.filter_filter]
      refine List.monotone_filter_right q fun t ht => ?_
      simp only [Bool.and_eq_true, decide_eq_true_eq] at ht ⊢
      exact ⟨ht.1, ht.2.2.symm.trans ht.1⟩
    exact hkept.trans ((h p).filter _)
  have hnew : ((s.unchanged x ts).filter fun t => (x.thread t).priority = p).Sublist
      (ts.filter fun t => (x.thread t).priority = p) := List.filter_sublist.filter _
  have hboth := hold.append hnew
  rw [← List.filter_append, ← List.filter_append, ← hx p] at hboth
  rw [Sys.unchanged, List.filter_append]
  exact hboth.trans List.filter_sublist

/-- A thread that is switched to is not in line any more. -/
theorem InLine.schedule (h : InLine x q) (hx : Placed x) :
    InLine x.schedule (q.filter (· ∈ x.schedule.readyList)) := by
  intro p
  have hline := h p
  have honce := hx.once
  have hrank := (sameRank_schedule x).priority
  simp only [hrank, Sys.schedule_readyList]
  rw [List.filter_filter]
  cases hl : x.readyList with
  | nil =>
    rw [List.tail_nil, List.filter_eq_nil_iff.mpr (by simp)]
  | cons v rest =>
    rw [hl] at hline honce
    have hv : v ∉ rest := (List.nodup_cons.mp honce).1
    have hdrop := hline.filter (· ∈ rest)
    rw [List.filter_filter, List.filter_cons, if_neg (by simpa using hv)] at hdrop
    rw [List.tail_cons]
    simp only [Bool.and_comm] at hdrop ⊢
    exact hdrop.trans List.filter_sublist

theorem Booted.orderly (h : Booted s) (hm : s.mlfqs = false) : Orderly s := by
  cases h
  refine ⟨⟨hm, .nil, fun t ht => (List.not_mem_nil ht).elim, fun t ht => ?_, Nat.lt_add_one 1,
    .nil⟩, rfl⟩
  have ht : 2 ≤ t := ht
  have hinitial : t ≠ initialThread := Nat.ne_of_gt (Nat.lt_of_lt_of_le (by decide) ht)
  have hidle : t ≠ idleThread := Nat.ne_of_gt (Nat.lt_of_lt_of_le (by decide) ht)
  show (if t = initialThread then Status.running else _) = _
  rw [if_neg hinitial, if_neg hidle]

theorem Lined.orderly (h : Lined s q) : Orderly s ∧ InLine s q := by
  induction h with
  | init booted plain =>
    refine ⟨booted.orderly plain, fun p => ?_⟩
    rw [List.filter_nil]
    exact List.nil_sublist _
  | @step s s' q m lined enabled step ih =>
    obtain ⟨hs, hline⟩ := ih
    have hturns := hs.step enabled step
    generalize m.readied s = ts, m.picks s = y at hturns ⊢
    cases hturns with
    | stays placed queues => exact ⟨placed, hline.queues queues⟩
    | @switches x placed queues =>
      refine ⟨placed.schedule, ?_⟩
      have hsame : s.unchanged x.schedule (q ++ ts) =
          (s.unchanged x (q ++ ts)).filter (· ∈ x.schedule.readyList) := by
        rw [Sys.unchanged, Sys.unchanged, List.filter_filter]
        refine List.filter_congr fun t _ => ?_
        rw [(sameRank_schedule x).priority, Sys.schedule_readyList, ← Bool.decide_and]
        have hmem : t ∈ x.readyList.tail → t ∈ x.readyList := List.mem_of_mem_tail
        exact decide_eq_decide.mpr (by tauto)
      rw [hsame]
      exact (hline.queues queues).schedule placed

/-- What holds where `next_thread_to_run` is called in `x`, with the threads of `q` in line. -/
structure InOrder (x : Sys) (q : List Tid) : Prop where
  sorted : x.Sorted
  fifo : ∀ t u, [t, u].Sublist q → (x.thread t).priority = (x.thread u).priority →
    [t, u].Sublist x.readyList
  first : ∀ t rest, x.readyList = t :: rest → x.schedule.running = t ∧
    ∀ u ∈ rest, (x.thread u).priority ≤ (x.thread t).priority

theorem Placed.inOrder (h : Placed x) (hline : InLine x q) : InOrder x q where
  sorted := h.sorted
  fifo t u htu heq := by
    have hpair := htu.filter fun v => (x.thread v).priority = (x.thread u).priority
    rw [List.filter_cons, if_pos (by simpa using heq), List.filter_cons, if_pos (by simp)] at hpair
    exact hpair.trans (hline _)
  first t rest hl := by
    have hsorted := h.sorted
    rw [Sys.Sorted, hl] at hsorted
    refine ⟨?_, (List.pairwise_cons.mp hsorted).1⟩
    rw [Sys.schedule_running, hl]
    rfl

/-- Wherever `next_thread_to_run` is called the ready queue is in order of priority, the threads
whose priority has not changed since they became ready are among equals in the order in which they
became ready, and the first thread is switched to, which has the highest priority. -/
theorem ready_queue_in_order {m : Move} (h : Lined s q) (henabled : m.Enabled s)
    (hs : m.step s = .ok s') (hx : m.picks s = some x) :
    s' = x.schedule ∧ x.readyList.Perm (s.readyList ++ m.readied s) ∧
      InOrder x (s.unchanged x (q ++ m.readied s)) := by
  obtain ⟨horderly, hline⟩ := h.orderly
  have hturns := horderly.step henabled hs
  rw [hx] at hturns
  cases hturns with
  | switches placed queues =>
    exact ⟨rfl, Alike.perm queues, placed.inOrder (hline.queues queues)⟩

/-- A call or an instruction is possible. -/
def Move.possible (s : Sys) : Move → Bool
  | .call c => (Action.call c).Enabled s
  | .go => Action.go.Enabled s
  | _ => false

/-- Where a run of calls and instructions ends, with the threads in line. -/
def Sys.line (s : Sys) (q : List Tid) : List Move → Option (Sys × List Tid)
  | [] => some (s, q)
  | m :: ms =>
    if m.possible s then
      match m.step s with
      | .ok s' => s'.line (s.unchanged s' (q ++ m.readied s)) ms
      | .error _ => none
    else none

theorem Lined.line (h : Lined s q) {ms : List Move} {q' : List Tid}
    (hl : s.line q ms = some (s', q')) : Lined s' q' := by
  induction ms generalizing s q with
  | nil =>
    cases hl
    exact h
  | cons m ms ih =>
    rw [Sys.line] at hl
    split at hl
    · next hpossible =>
      split at hl
      · next s₁ hs =>
        refine ih (h.step m ?_ hs) hl
        cases m with
        | call c => exact of_decide_eq_true (p := (Action.call c).Enabled s) hpossible
        | go => exact of_decide_eq_true (p := Action.go.Enabled s) hpossible
        | _ => cases hpossible
      · cases hl
    · cases hl

/-- A call and the first `n` instructions that follow it. -/
def Call.line (c : Call) (n : Nat) : List Move := .call c :: List.replicate n .go

/-- Thread 2 of priority 20 holds a lock, and has become ready after threads 3 and 4 of priority 25.
The main thread of priority 31 acquires the lock: it has given thread 2 its own priority and is about
to wait. -/
def donation : List Move :=
  [Call.line (.setPriority 10) 1, Call.line (.create 20) 8, Call.line (.acquire 0) 3,
    Call.line (.down 0) 1, Call.line (.setPriority 31) 1, Call.line (.create 25) 8,
    Call.line (.create 25) 8, Call.line (.up 0) 1, Call.line (.acquire 0) 3].flatten

theorem ready_queue_in_order_donation : ∃ s x, Move.go.picks s = some x ∧
    x.readyList = [2, 3, 4] ∧ (x.thread 2).basePriority = 20 ∧ (x.thread 2).priority = 31 ∧
    (x.thread 3).priority = (x.thread 4).priority ∧ InOrder x [3, 4] := by
  have hboot := Lined.init
    (.intro false (fun _ => 0) (fun _ => 0) (fun _ => 0) 0 0 0 0 0) rfl
  have hrun : (Sys.line (Sys.init false (fun _ => 0) (fun _ => 0) (fun _ => 0) 0 0 0 0 0) []
      donation).any (fun r => decide (Action.go.Enabled r.1) && (Move.go.step r.1).toOption.isSome &&
        (Move.go.picks r.1).any fun x =>
          decide (x.readyList = [2, 3, 4] ∧ (x.thread 2).basePriority = 20) &&
          decide ((x.thread 2).priority = 31 ∧ (x.thread 3).priority = (x.thread 4).priority) &&
          decide (r.1.unchanged x (r.2 ++ Move.go.readied r.1) = [3, 4])) = true := by
    decide +kernel
  obtain ⟨⟨s, q⟩, hs, htest⟩ := (Option.any_eq_true _ _).mp hrun
  simp only [Bool.and_eq_true, decide_eq_true_eq] at htest
  obtain ⟨⟨henabled, hstep⟩, hpick⟩ := htest
  obtain ⟨x, hx, htest⟩ := (Option.any_eq_true _ _).mp hpick
  simp only [Bool.and_eq_true, decide_eq_true_eq] at htest
  obtain ⟨⟨⟨hready, hbase⟩, hprio, heq⟩, hline⟩ := htest
  cases hs' : Move.go.step s with
  | error e =>
    rw [hs'] at hstep
    cases hstep
  | ok s' =>
    have horder := (ready_queue_in_order (m := .go) (hboot.line hs) henabled hs' hx).2.2
    rw [hline] at horder
    exact ⟨s, x, hx, hready, hbase, hprio, heq, horder⟩

end Pintos.Schedule
