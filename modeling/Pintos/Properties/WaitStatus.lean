import Pintos.Properties.ExecResult

/-!
# The result of `wait`

A child leaves its exit status in the record that its parent keeps of it, and ups the semaphore of
the record once. When the record is there before the child looks for it, and the child is not
killed by `kill`, which stores no status, `wait` returns what it should.
-/

namespace Pintos.Process

open Pintos.Lib

/-! ## What is to be shown -/

/-- The status of a thread that ended so, as `wait` should return it. A thread whose `load` failed
has none, for `exec` has not returned its tid. -/
def Ending.status : Ending → Option Int
  | .exited status => some status
  | .killed => some (-1)
  | .loadFailed => none
  | .finished => none

/-- The points after a thread has woken its parent. -/
def Pc.Ended : Pc → Prop
  | .release => True
  | .remove => True
  | .dead => True
  | _ => False

instance (pc : Pc) : Decidable pc.Ended := by
  unfold Pc.Ended
  split <;> infer_instance

/-- How often a thread has upped the semaphore of its record. -/
def Pc.ups (pc : Pc) : Nat := if pc.Ended then 1 else 0

/-- The child whose semaphore a thread has just downed. -/
def Pc.marks : Pc → Option Tid
  | .waitMark _ tid _ => some tid
  | _ => none

/-- How often a thread has downed the semaphore of a record. -/
def Sys.downs (s : Sys) (p : Ptr) (r : ChildStatus) : Nat :=
  if r.childWaited = true ∨ (s.pc p).marks = some r.childTid then 1 else 0

def Sys.status (s : Sys) (c : Ptr) : Option Int := (s.past c).ending.bind Ending.status

/-- The points after a thread has stored its status with its parent. -/
def Pc.Gone : Pc → Prop
  | .leaving => True
  | .search _ _ .leave => True
  | .found _ .leave => True
  | .release => True
  | .remove => True
  | .dead => True
  | _ => False

/-- The status that a thread is about to store. -/
def Pc.exiting : Pc → Option Int
  | .search _ _ (.exit status) => some status
  | .found _ (.exit status) => some status
  | .faulted => some (-1)
  | _ => none

/-- The new thread of a call of `process_execute` that has no record yet. -/
def Pc.making : Pc → Option Ptr
  | .unblock _ new => some new
  | .search _ _ (.link _ _ new) => some new
  | .found _ (.link _ _ new) => some new
  | .record _ _ new => some new
  | _ => none

/-- The child that `exec` may still return. -/
def Pc.pid : Pc → Option Tid
  | .loadDown pid _ => some pid
  | .loadTest pid _ => some pid
  | .execReturn result _ => some result
  | _ => none

/-- The child that `wait` returns for. -/
def Pc.returning : Pc → Option Tid
  | .waitReturn _ tid _ => some tid
  | _ => none

/-- The record of a child says how far the child is. -/
structure Sys.Settled (s : Sys) (q c : Ptr) (r : ChildStatus) : Prop where
  sema : r.childWaitSema + s.downs q r = (s.pc c).ups
  code : (s.pc c).Gone → ∀ status, s.status c = some status → r.childExitCode = status

/-- What a thread knows of its own records at a point. -/
structure Sys.Own (s : Sys) (q : Ptr) (pc : Pc) : Prop where
  executed : ∀ tid ∈ (s.past q).executed, tid ∈ s.childTids q ∨ pc = .remove ∨ pc = .dead
  waited : ∀ tid ∈ (s.past q).waited, tid ∈ (s.past q).executed
  marked : ∀ r ∈ (s.thread q).childThreadList, r.childTid ∈ (s.past q).executed →
    (r.childWaited = true ↔ r.childTid ∈ (s.past q).waited ∨ pc.returning = some r.childTid)
  down : ∀ caller tid child, pc = .waitDown caller tid child ∨ pc = .waitMark caller tid child →
    ∃ r, (s.thread q).childThreadList[child]? = some r ∧ r.childTid = tid ∧ r.childWaited = false
  again : ∀ caller tid result, pc = .waitReturn caller tid result →
    tid ∈ (s.past q).waited ∨ tid ∉ s.childTids q → result = -1
  first : ∀ caller tid result, pc = .waitReturn caller tid result → tid ∈ (s.past q).executed →
    tid ∉ (s.past q).waited → ∀ r ∈ (s.thread q).childThreadList, r.childTid = tid →
    result = r.childExitCode ∧ ∀ c, s.tid c = tid → (s.pc c).Ended
  young : ∀ pid, pc.pid = some pid → pid ≠ tidError → pid ∉ (s.past q).executed ∧
    pid ∈ s.childTids q ∧ ∀ r ∈ (s.thread q).childThreadList, r.childTid = pid →
    r.childWaited = false

/-- What is known of the status of a thread at a point. -/
structure Sys.Ends (s : Sys) (c : Ptr) (pc : Pc) : Prop where
  exiting : ∀ status, pc.exiting = some status → s.status c = some status
  gone : pc.Gone → ∃ ending, (s.past c).ending = some ending

/-- The records of all threads are what they should be. -/
structure Waiting (s : Sys) : Prop where
  records : ∀ q c, ∀ r ∈ (s.thread q).childThreadList, s.pc q ≠ .dead → s.tid c = r.childTid →
    s.Settled q c r
  own : ∀ q, s.Own q (s.pc q)
  ends : ∀ c, s.Ends c (s.pc c)
  early : ∀ q c, (s.pc q).making = some c →
    ¬ (s.pc c).Ended ∧ ((s.pc c).Gone → s.status c = none)

/-! ## What a step leaves to the other threads -/

section

variable {s s' : Sys} {p q : Ptr}

/-- The points where a thread knows no more than which records it has marked. -/
def Pc.Dull : Pc → Prop
  | .loadDown _ _ => False
  | .loadTest _ _ => False
  | .execReturn _ _ => False
  | .waitDown _ _ _ => False
  | .waitMark _ _ _ => False
  | .waitReturn _ _ _ => False
  | _ => True

theorem Pc.Dull.none {pc : Pc} (h : pc.Dull) :
    pc.marks = Option.none ∧ pc.pid = Option.none ∧ pc.returning = Option.none := by
  cases pc <;> first | exact ⟨rfl, rfl, rfl⟩ | exact h.elim

theorem Pc.making_idle {pc : Pc} {c : Ptr} (h : pc.making = some c) : ¬ pc.Ended ∧ ¬ pc.Gone := by
  cases pc with
  | search _ _ after | found _ after => cases after <;> first | exact ⟨id, id⟩ | cases h
  | _ => first | exact ⟨id, id⟩ | cases h

theorem Pc.Ended.gone {pc : Pc} (h : pc.Ended) : pc.Gone := by
  cases pc <;> trivial

theorem afterExecute_idle (tid : Tid) (new : Option Ptr) (caller : Caller) :
    (afterExecute tid new caller).ups = 0 ∧ (afterExecute tid new caller).marks = none ∧
      (afterExecute tid new caller).making = none ∧
      (afterExecute tid new caller).exiting = none ∧ ¬ (afterExecute tid new caller).Gone := by
  cases caller <;> exact ⟨rfl, rfl, rfl, rfl, id⟩

theorem Sys.Own.dull {pc : Pc} (h : pc.Dull)
    (hex : ∀ tid ∈ (s.past q).executed, tid ∈ s.childTids q ∨ pc = .remove ∨ pc = .dead)
    (hw : ∀ tid ∈ (s.past q).waited, tid ∈ (s.past q).executed)
    (hm : ∀ r ∈ (s.thread q).childThreadList, r.childTid ∈ (s.past q).executed →
      (r.childWaited = true ↔ r.childTid ∈ (s.past q).waited)) : s.Own q pc := by
  refine ⟨hex, hw, ?marked, ?down, ?again, ?first, ?young⟩
  case marked =>
    intro r hr hin
    rw [hm r hr hin, h.none.2.2]
    simp
  case down =>
    rintro _ _ _ (rfl | rfl)
    · exact h.elim
    · exact h.elim
  case again | first =>
    rintro _ _ _ rfl
    exact h.elim
  case young => simp [h.none.2.1]

theorem getElem?_updateChild {tid : Tid} {f : ChildStatus → ChildStatus} {l : List ChildStatus}
    (hn : (l.map (·.childTid)).Nodup) (i : Nat) :
    (updateChild tid f l)[i]? = l[i]?.map fun r => if r.childTid = tid then f r else r := by
  induction l generalizing i with
  | nil => rfl
  | cons c l ih =>
    rw [List.map_cons, List.nodup_cons] at hn
    obtain ⟨hc, hl⟩ := hn
    rw [updateChild]
    by_cases ht : c.childTid = tid
    · -- no other record is one of this child
      have hrest : ∀ r ∈ l, r.childTid ≠ tid := by
        rintro r hr rfl
        exact hc (ht ▸ List.mem_map_of_mem hr)
      rw [if_pos ht]
      cases i with
      | zero => simp [ht]
      | succ i =>
        simp only [List.getElem?_cons_succ]
        cases hi : l[i]? with
        | none => rfl
        | some r => simp [hrest r (List.mem_of_getElem? hi)]
    · rw [if_neg ht]
      cases i with
      | zero => simp [ht]
      | succ i => simpa using ih hl i

/-- A step of `p` changes no record of another thread but the one of `p`, where it changes
neither the tid nor the mark. -/
structure Spares (s : Sys) (p : Ptr) (s' : Sys) : Prop extends Kin s p s' where
  records : ∀ q, q ≠ p → ∃ f : ChildStatus → ChildStatus,
    (∀ r, (f r).childTid = r.childTid ∧ (f r).childWaited = r.childWaited) ∧
    (∀ r, (s.pc p).Ended → f r = r) ∧
    (s'.thread q).childThreadList = updateChild (s.tid p) f (s.thread q).childThreadList
  past : ∀ q, q ≠ p → s'.past q = s.past q ∨ s.pc q = .unborn ∧ s'.past q = Past.new (some p)
  ended : (s.pc p).Ended → (s'.pc p).Ended

namespace Spares

/-- A record of another thread, and what it was before. -/
theorem record (h : Spares s p s') (ht : Tree s) (hq : q ≠ p) {i : Nat} {r' : ChildStatus}
    (hr : (s'.thread q).childThreadList[i]? = some r') :
    ∃ r, (s.thread q).childThreadList[i]? = some r ∧ r'.childTid = r.childTid ∧
      r'.childWaited = r.childWaited ∧ (r.childTid ≠ s.tid p ∨ (s.pc p).Ended → r' = r) := by
  obtain ⟨f, hf, he, hl⟩ := h.records q hq
  rw [hl, getElem?_updateChild (ht.recordsNodup q)] at hr
  obtain ⟨r, hr₀, rfl⟩ := Option.map_eq_some_iff.mp hr
  refine ⟨r, hr₀, ?_, ?_, ?_⟩
  · split
    · exact (hf r).1
    · rfl
  · split
    · exact (hf r).2
    · rfl
  · rintro (hn | hn)
    · rw [if_neg hn]
    · rw [he r hn, ite_self]

theorem mem (h : Spares s p s') (ht : Tree s) (hq : q ≠ p) {r' : ChildStatus}
    (hr : r' ∈ (s'.thread q).childThreadList) :
    ∃ r ∈ (s.thread q).childThreadList, r'.childTid = r.childTid ∧
      r'.childWaited = r.childWaited ∧ (r.childTid ≠ s.tid p ∨ (s.pc p).Ended → r' = r) := by
  obtain ⟨i, hi⟩ := List.mem_iff_getElem?.mp hr
  obtain ⟨r, hr₀, hs⟩ := h.record ht hq hi
  exact ⟨r, List.mem_of_getElem? hr₀, hs⟩

/-- Another thread is where it was, or has just been made ready. -/
theorem pc_cases (h : Spares s p s') (hq : q ≠ p) :
    s'.pc q = s.pc q ∨ s.pc q = .unborn ∧ s'.pc q = .load :=
  (h.pc q hq).imp id fun hn => ⟨hn.1, hn.2.1⟩

theorem ended_iff (h : Spares s p s') (hq : q ≠ p) : (s'.pc q).Ended ↔ (s.pc q).Ended := by
  rcases h.pc_cases hq with hpc | ⟨hu, hl⟩
  · rw [hpc]
  · simp [hu, hl, Pc.Ended]

theorem gone_iff (h : Spares s p s') (hq : q ≠ p) : (s'.pc q).Gone ↔ (s.pc q).Gone := by
  rcases h.pc_cases hq with hpc | ⟨hu, hl⟩
  · rw [hpc]
  · simp [hu, hl, Pc.Gone]

theorem ups_eq (h : Spares s p s') (hq : q ≠ p) : (s'.pc q).ups = (s.pc q).ups := by
  simp only [Pc.ups, h.ended_iff hq]

theorem marks_eq (h : Spares s p s') (hq : q ≠ p) : (s'.pc q).marks = (s.pc q).marks := by
  rcases h.pc_cases hq with hpc | ⟨hu, hl⟩
  · rw [hpc]
  · rw [hu, hl]
    rfl

theorem making_eq (h : Spares s p s') (hq : q ≠ p) : (s'.pc q).making = (s.pc q).making := by
  rcases h.pc_cases hq with hpc | ⟨hu, hl⟩
  · rw [hpc]
  · rw [hu, hl]
    rfl

theorem ended_mono (h : Spares s p s') {c : Ptr} (hc : (s.pc c).Ended) : (s'.pc c).Ended := by
  by_cases hcp : c = p
  · rw [hcp] at hc ⊢
    exact h.ended hc
  · exact (h.ended_iff hcp).mpr hc

theorem past_born (h : Spares s p s') (hq : q ≠ p) (hb : s.pc q ≠ .unborn) :
    s'.past q = s.past q := (h.past q hq).resolve_right fun hn => hb hn.1

/-- What the record of another child says stays true. -/
theorem settled (h : Spares s p s') (ht : Tree s) (hw : Waiting s) {c : Ptr} {r' : ChildStatus}
    (hq : q ≠ p) (hc : c ≠ p) (hr : r' ∈ (s'.thread q).childThreadList) (hd : s'.pc q ≠ .dead)
    (htid : s'.tid c = r'.childTid) : s'.Settled q c r' := by
  obtain ⟨r, hin, htid', -, hsame⟩ := h.mem ht hq hr
  obtain ⟨hb, hct⟩ := h.recorded hin (htid.trans htid')
  have hne : r.childTid ≠ s.tid p := fun hn =>
    hc (ht.distinct c p (hct.trans hn) (Int.ne_of_gt (ht.born c hb).1))
  have hd' : s.pc q ≠ .dead := by
    rcases h.pc_cases hq with hpc | ⟨hu, -⟩
    · exact hpc ▸ hd
    · simp [hu]
  obtain ⟨hsema, hcode⟩ := hw.records q c r hin hd' hct
  rw [hsame (Or.inl hne)]
  refine ⟨?_, fun hg => ?_⟩
  · rw [h.ups_eq hc, ← hsema, Sys.downs, Sys.downs, h.marks_eq hq]
  · rw [Sys.status, h.past_born hc hb]
    exact hcode ((h.gone_iff hc).mp hg)

/-- What another thread knows of its records stays true. -/
theorem own (h : Spares s p s') (ht : Tree s) (hq : q ≠ p) (ho : s.Own q (s.pc q)) :
    s'.Own q (s'.pc q) := by
  have hch := h.childTids q hq
  by_cases hb : s.pc q = .unborn
  · -- a thread that has done nothing
    rw [hb] at ho
    have hd : (s'.pc q).Dull := by
      rcases h.pc_cases hq with hpc | ⟨-, hl⟩
      · rw [hpc, hb]
        trivial
      · rw [hl]
        trivial
    rcases h.past q hq with hpast | ⟨-, hpast⟩
    · refine .dull hd ?_ ?_ ?_
      · rw [hpast, hch]
        exact fun tid hin => Or.inl ((ho.executed tid hin).resolve_right (by simp))
      · rw [hpast]
        exact ho.waited
      · intro r' hr'
        obtain ⟨r, hin, htid, hwt, -⟩ := h.mem ht hq hr'
        rw [hpast, htid, hwt]
        exact fun hex => (ho.marked r hin hex).trans (by simp [Pc.returning])
    · refine .dull hd ?_ ?_ ?_ <;> simp [hpast, Past.new]
  -- any other thread is where it was, and its past is the same
  have hpc := (h.pc_cases hq).resolve_right fun hn => hb hn.1
  rw [hpc]
  constructor
  case executed =>
    rw [h.past_born hq hb, hch]
    exact ho.executed
  case waited =>
    rw [h.past_born hq hb]
    exact ho.waited
  case marked =>
    intro r' hr'
    obtain ⟨r, hin, htid, hwt, -⟩ := h.mem ht hq hr'
    rw [h.past_born hq hb, htid, hwt]
    exact ho.marked r hin
  case down =>
    intro caller tid child hp
    obtain ⟨r, hr, htid, hwt⟩ := ho.down caller tid child hp
    have hlen := congrArg (·[child]?) hch
    simp only [Sys.childTids, List.getElem?_map, hr, Option.map_some] at hlen
    obtain ⟨r', hr', -⟩ := Option.map_eq_some_iff.mp hlen
    obtain ⟨r₀, hr₀, htid', hwt', -⟩ := h.record ht hq hr'
    rw [hr, Option.some.injEq] at hr₀
    exact ⟨r', hr', by rw [htid', ← hr₀, htid], by rw [hwt', ← hr₀, hwt]⟩
  case again =>
    intro caller tid result hp
    rw [h.past_born hq hb, hch]
    exact ho.again caller tid result hp
  case first =>
    intro caller tid result hp
    rw [h.past_born hq hb]
    intro hex hwt r' hr' htid
    obtain ⟨r, hin, htid', -, hsame⟩ := h.mem ht hq hr'
    obtain ⟨hres, hend⟩ := ho.first caller tid result hp hex hwt r hin (htid' ▸ htid)
    have hsame' : r' = r := by
      -- only the thread with this tid changes the record, and not once it has ended
      refine hsame ?_
      by_cases hp : r.childTid = s.tid p
      · exact Or.inr (hend p (by rw [← hp, ← htid', htid]))
      · exact Or.inl hp
    refine ⟨hsame' ▸ hres, fun c hc => h.ended_mono (hend c ?_)⟩
    rw [← htid, htid'] at hc ⊢
    exact (h.recorded hin hc).2
  case young =>
    intro pid hp hz
    rw [h.past_born hq hb, hch]
    obtain ⟨hex, hin, hwt⟩ := ho.young pid hp hz
    refine ⟨hex, hin, fun r' hr' htid => ?_⟩
    obtain ⟨r, hin, htid', hwt', -⟩ := h.mem ht hq hr'
    rw [hwt']
    exact hwt r hin (htid' ▸ htid)

end Spares

theorem updateChild_id (tid : Tid) (l : List ChildStatus) : updateChild tid id l = l := by
  induction l with
  | nil => rfl
  | cons c l ih =>
    rw [updateChild, ih, id, ite_self]

theorem Step.list_other (h : Step s p s') (ht : Tree s) (hq : q ≠ p) (hp : ¬ (s.pc p).Tells) :
    (s'.thread q).childThreadList = (s.thread q).childThreadList := by
  cases h with
  | create =>
    by_cases hn : q = s.created
    · have hc := (ht.fresh q (Nat.le_of_eq hn.symm)).2.2.1
      rw [Sys.childTids, List.map_eq_nil_iff] at hc
      rw [hc]
      simp [hn, initThread]
    · simp [Sys.setThread_other _ _ hn]
  | exit h | wake h =>
    rw [h] at hp
    exact absurd trivial hp
  | unblock | link | record | loadDown | loadState | loadUp | loadUpFail | waitDown | waitMark
  | release =>
    simp only [Sys.goto_thread, Sys.setPast_thread, Sys.setThread_thread]
    grind
  | _ => rfl

theorem Step.spares (h : Step s p s') (ht : Tree s) : Spares s p s' := by
  refine { h.kin ht with records := ?records, past := ?past, ended := ?ended }
  case records =>
    intro q hq
    by_cases hp : (s.pc p).Tells
    · cases h with
      | @exit t status h =>
        by_cases hqt : q = t
        · refine ⟨_, ?_, ?_, by simp [hqt, storeExitCode, Sys.setThread_other _ _ (hqt ▸ hq)]; rfl⟩
          · exact fun r => ⟨rfl, rfl⟩
          · simp [h, Pc.Ended]
        · exact ⟨id, fun r => ⟨rfl, rfl⟩, fun _ _ => rfl, by
            simp [Sys.setThread_other, hqt, hq, updateChild_id]⟩
      | @wake t h =>
        by_cases hqt : q = t
        · refine ⟨_, ?_, ?_, by simp [hqt, upChild]; rfl⟩
          · exact fun r => ⟨rfl, rfl⟩
          · simp [h, Pc.Ended]
        · exact ⟨id, fun r => ⟨rfl, rfl⟩, fun _ _ => rfl, by
            simp [Sys.setThread_other, hqt, updateChild_id]⟩
      | childless =>
        exact ⟨id, fun r => ⟨rfl, rfl⟩, fun _ _ => rfl, (updateChild_id _ _).symm⟩
      | _ => simp [*, Pc.Tells] at hp
    · exact ⟨id, fun r => ⟨rfl, rfl⟩, fun _ _ => rfl, by rw [updateChild_id, h.list_other ht hq hp]⟩
  case past =>
    intro q hq
    cases h with
    | create =>
      by_cases hn : q = s.created
      · exact Or.inr ⟨(ht.fresh q (Nat.le_of_eq hn.symm)).1, by simp [hn]⟩
      · exact Or.inl (by simp [Sys.setPast_other _ _ hn])
    | finish | callExit | pageFault | kill | record | execReturn | load | loadFault | loadUpFail
    | waitReturn => exact Or.inl (by simp [Sys.setPast_other _ _ hq])
    | _ => exact Or.inl rfl
  case ended =>
    intro he
    cases h with
    | release | remove => simp [Pc.Ended]
    | _ => simp [*, Pc.Ended] at he

/-! ## Every step -/

/-- A child that looks through the records of its parent has a record there, if its parent is
still there to make one. -/
def Recorded (s : Sys) (p : Ptr) : Prop :=
  (s.pc p).Tells → ∀ q, s.maker p = some q → (s.pc q).making ≠ some p

instance (s : Sys) (p : Ptr) : Decidable (Recorded s p) :=
  decidable_of_iff (¬ (s.pc p).Tells ∨ ¬ ∃ q ∈ s.maker p, (s.pc q).making = some p) (by
    simp only [Recorded, Option.mem_def, not_exists, not_and]
    exact imp_iff_not_or.symm)

/-- A step keeps the invariant, if it keeps what concerns its own thread. -/
theorem Waiting.step (hw : Waiting s) (ht : Tree s) (h : Spares s p s')
    (hrec : ∀ q c, ∀ r ∈ (s'.thread q).childThreadList, q = p ∨ c = p → s'.pc q ≠ .dead →
      s'.tid c = r.childTid → s'.Settled q c r)
    (hown : s'.Own p (s'.pc p)) (hends : s'.Ends p (s'.pc p))
    (hmake : ∀ c, (s'.pc p).making = some c → (s.pc p).making = some c ∨ s.pc c = .unborn)
    (hmade : ∀ q, q ≠ p → (s.pc q).making = some p →
      ¬ (s'.pc p).Ended ∧ ((s'.pc p).Gone → s'.status p = none)) : Waiting s' where
  records q c r hr hd htid := by
    by_cases hq : q = p
    · exact hrec q c r hr (Or.inl hq) hd htid
    · by_cases hc : c = p
      · exact hrec q c r hr (Or.inr hc) hd htid
      · exact h.settled ht hw hq hc hr hd htid
  own q := by
    by_cases hq : q = p
    · rw [hq]
      exact hown
    · exact h.own ht hq (hw.own q)
  ends c := by
    by_cases hc : c = p
    · rw [hc]
      exact hends
    · rcases h.pc_cases hc with hpc | ⟨-, hl⟩
      · rw [hpc]
        by_cases hb : s.pc c = .unborn
        · rw [hb]
          exact ⟨by simp [Pc.exiting], False.elim⟩
        · have hp := h.past_born hc hb
          refine ⟨fun status hn => ?_, fun hg => ?_⟩
          · rw [Sys.status, hp]
            exact (hw.ends c).exiting status hn
          · rw [hp]
            exact (hw.ends c).gone hg
      · rw [hl]
        exact ⟨by simp [Pc.exiting], False.elim⟩
  early q c hm := by
    by_cases hc : c = p
    · rw [hc] at hm ⊢
      by_cases hq : q = p
      · obtain ⟨he, hg⟩ := Pc.making_idle (hq ▸ hm)
        exact ⟨he, fun hn => absurd hn hg⟩
      · exact hmade q hq (h.making_eq hq ▸ hm)
    · rw [h.ended_iff hc, h.gone_iff hc]
      have hold : s.pc c = .unborn ∨ ∃ q, (s.pc q).making = some c := by
        by_cases hq : q = p
        · exact (hmake c (hq ▸ hm)).symm.imp id fun hn => ⟨p, hn⟩
        · exact Or.inr ⟨q, h.making_eq hq ▸ hm⟩
      rcases hold with hu | ⟨q, hm⟩
      · rw [hu]
        exact ⟨id, False.elim⟩
      · refine ⟨(hw.early q c hm).1, fun hg => ?_⟩
        have hb : s.pc c ≠ .unborn := fun hu => by
          rw [hu] at hg
          exact hg
        rw [Sys.status, h.past_born hc hb]
        exact (hw.early q c hm).2 hg

/-- A record with the same sum says what it did, if its child has not gone further. -/
theorem Waiting.settled_of (hw : Waiting s) (h : Spares s p s') {c : Ptr} {r r' : ChildStatus}
    (hsema : r'.childWaitSema + s'.downs q r' = r.childWaitSema + s.downs q r)
    (hcode : r'.childExitCode = r.childExitCode) (ht : r'.childTid = r.childTid)
    (hups : c = p → (s'.pc p).ups = (s.pc p).ups)
    (hgone : c = p → (s'.pc p).Gone →
      s'.status p = none ∨ (s.pc p).Gone ∧ s'.status p = s.status p)
    (hr : r ∈ (s.thread q).childThreadList) (hd : s.pc q ≠ .dead) (htid : s'.tid c = r'.childTid) :
    s'.Settled q c r' := by
  obtain ⟨hb, hct⟩ := h.recorded hr (htid.trans ht)
  obtain ⟨hold, hcode'⟩ := hw.records q c r hr hd hct
  by_cases hc : c = p
  · have hg := hgone hc
    have hu := hups hc
    rw [hc] at hold hcode' ⊢
    refine ⟨by rw [hu, ← hold, hsema], fun hn => ?_⟩
    rcases hg hn with hz | ⟨hn, hz⟩
    · simp [hz]
    · rw [hz, hcode]
      exact hcode' hn
  · refine ⟨by rw [h.ups_eq hc, ← hold, hsema], fun hg => ?_⟩
    rw [Sys.status, h.past_born hc hb, hcode]
    exact hcode' ((h.gone_iff hc).mp hg)

/-- A record that has not changed says what it did, if its child has not gone further. -/
theorem Waiting.settled_same (hw : Waiting s) (h : Spares s p s') {c : Ptr} {r : ChildStatus}
    (hmarks : (s'.pc q).marks = (s.pc q).marks) (hups : c = p → (s'.pc p).ups = (s.pc p).ups)
    (hgone : c = p → (s'.pc p).Gone →
      s'.status p = none ∨ (s.pc p).Gone ∧ s'.status p = s.status p)
    (hr : r ∈ (s.thread q).childThreadList) (hd : s.pc q ≠ .dead) (htid : s'.tid c = r.childTid) :
    s'.Settled q c r :=
  hw.settled_of h (by rw [Sys.downs, Sys.downs, hmarks]) rfl rfl hups hgone hr hd htid

theorem Spares.not_dead (h : Spares s p s') (hp : s.pc p ≠ .dead) (hd : s'.pc q ≠ .dead) :
    s.pc q ≠ .dead := by
  by_cases hq : q = p
  · exact hq ▸ hp
  · rcases h.pc_cases hq with hpc | ⟨hu, -⟩
    · exact hpc ▸ hd
    · simp [hu]

theorem Step.alive (h : Step s p s') : s.pc p ≠ .dead := by
  cases h <;> simp [*]

/-- A step that changes no record and after which no thread has gone further. -/
theorem Waiting.calm (hw : Waiting s) (ht : Tree s) (h : Step s p s') {pc pc' : Pc}
    (hp : s.pc p = pc) (hp' : s'.pc p = pc')
    (hlist : ∀ q, (s'.thread q).childThreadList = (s.thread q).childThreadList)
    (hups : pc'.ups = pc.ups) (hmarks : pc'.marks = pc.marks)
    (hgone : pc'.Gone → s'.status p = none ∨ pc.Gone ∧ s'.status p = s.status p)
    (hown : s'.Own p pc') (hends : s'.Ends p pc')
    (hmake : ∀ c, pc'.making = some c → pc.making = some c ∨ s.pc c = .unborn) : Waiting s' := by
  subst hp hp'
  have hs := h.spares ht
  refine hw.step ht hs ?rec hown hends hmake ?made
  case rec =>
    intro q c r hr _ hd htid
    rw [hlist] at hr
    refine hw.settled_same hs ?_ (fun _ => hups) (fun _ => hgone) hr (hs.not_dead h.alive hd) htid
    by_cases hq : q = p
    · rw [hq, hmarks]
    · exact hs.marks_eq hq
  case made =>
    intro q _ hm
    obtain ⟨he, hg⟩ := hw.early q p hm
    refine ⟨fun hn => he ?_, fun hn => ?_⟩
    · rw [Pc.ups, Pc.ups, if_pos hn] at hups
      by_contra hno
      rw [if_neg hno] at hups
      cases hups
    · rcases hgone hn with hz | ⟨hg', hz⟩
      · exact hz
      · exact hz.trans (hg hg')

/-- What a thread knows of its records, when they have not changed. -/
theorem Sys.Own.move {pc pc' : Pc} (ho : s.Own p pc) (hd : pc'.Dull)
    (hpc : pc.returning = none ∧ pc ≠ .remove ∧ pc ≠ .dead)
    (hlist : (s'.thread p).childThreadList = (s.thread p).childThreadList)
    (hex : (s'.past p).executed = (s.past p).executed)
    (hwt : (s'.past p).waited = (s.past p).waited) : s'.Own p pc' := by
  have hch : s'.childTids p = s.childTids p := by rw [Sys.childTids, hlist, Sys.childTids]
  refine .dull hd ?_ ?_ ?_
  · rw [hex, hch]
    intro tid hin
    exact Or.inl ((ho.executed tid hin).resolve_right (by simp [hpc]))
  · rw [hex, hwt]
    exact ho.waited
  · rw [hlist, hex, hwt]
    intro r hr hin
    rw [ho.marked r hr hin, hpc.1]
    simp

/-! ## The steps that change a record -/

theorem Tree.record_index (h : Tree s) {i j : Nat} {r r' : ChildStatus}
    (hi : (s.thread q).childThreadList[i]? = some r)
    (hj : (s.thread q).childThreadList[j]? = some r') (htid : r.childTid = r'.childTid) : i = j := by
  have hn := h.recordsNodup q
  have hi' : (s.childTids q)[i]? = some r.childTid := by simp [Sys.childTids, hi]
  have hj' : (s.childTids q)[j]? = some r.childTid := by simp [Sys.childTids, hj, htid]
  obtain ⟨hlt, -⟩ := List.getElem?_eq_some_iff.mp hi'
  exact (List.getElem?_inj hlt hn).mp (hi'.trans hj'.symm)

theorem Tree.making_maker (h : Tree s) {c : Ptr} (hm : (s.pc q).making = some c) :
    s.maker c = some q := by
  have hat := h.points q
  cases hp : s.pc q with
  | unblock | record =>
    rw [hp] at hm hat
    cases hm
    exact hat.1
  | search _ _ after =>
    rw [hp] at hm hat
    cases after with
    | link =>
      cases hm
      exact hat.2.1.1
    | started | exit | leave => cases hm
  | found _ after =>
    rw [hp] at hm hat
    cases after with
    | link =>
      cases hm
      exact hat.1.1
    | started | exit | leave => cases hm
  | _ =>
    rw [hp] at hm
    cases hm

/-- A child that looks through the records of its parent does so at the right thread. -/
theorem Tree.tells (ht : Tree s) {t : Ptr} {after : After} (hp : s.pc p = .found t after)
    (ha : (s.pc p).Tells) {r : ChildStatus} (hr : r ∈ (s.thread q).childThreadList)
    (hd : s.pc q ≠ .dead) (htid : s.tid p = r.childTid) : q = t := by
  have hm := ht.recorded_maker hr htid
  have hat := ht.points p
  rw [hp] at hat ha
  have hlive : q ∈ s.allList := (ht.listed q).mpr ⟨ht.lt_created (ht.makers p q hm), hd⟩
  refine (ht.only_parent hm ?_ hlive ?_).symm
  · simp [hp, Pc.Young]
  · cases after with
    | exit | leave => exact hat.2
    | link | started => exact ha.elim

/-- A thread with a new record. -/
theorem Sys.Own.record {caller : Caller} {tid : Tid} {new : Ptr}
    (ho : s.Own p (.record caller tid new)) (hin : tid ∉ s.childTids p) :
    (afterRecord s p caller tid new).Own p (afterExecute tid (some new) caller) := by
  have hex : ∀ tid' ∈ (s.past p).executed, tid' ∈ s.childTids p :=
    fun tid' h => (ho.executed tid' h).resolve_right (by simp)
  have hnew : tid ∉ (s.past p).executed := fun h => hin (hex tid h)
  have hlist : ((afterRecord s p caller tid new).thread p).childThreadList =
      (s.thread p).childThreadList ++ [newChild tid] := by
    simp [afterRecord]
  have hold : ∀ r ∈ (s.thread p).childThreadList, r.childTid ≠ tid := by
    rintro r hr rfl
    exact hin (List.mem_map_of_mem hr)
  cases caller with
  | runTask =>
    have hpast : ((afterRecord s p .runTask tid new).past p).executed =
          tid :: (s.past p).executed ∧
        ((afterRecord s p .runTask tid new).past p).waited = (s.past p).waited := by
      simp [afterRecord]
    refine .dull trivial ?_ ?_ ?_
    · rw [afterRecord_childTids, hpast.1]
      simp only [List.mem_cons, List.mem_append]
      rintro tid' (rfl | h)
      · simp
      · exact Or.inl (Or.inl (hex tid' h))
    · rw [hpast.1, hpast.2]
      exact fun tid' h => List.mem_cons_of_mem _ (ho.waited tid' h)
    · rw [hlist, hpast.1, hpast.2]
      intro r hr hr'
      rcases List.mem_append.mp hr with hr | hr
      · exact (ho.marked r hr ((List.mem_cons.mp hr').resolve_left (hold r hr))).trans
          (by simp [Pc.returning])
      · rw [List.mem_singleton.mp hr]
        simpa [newChild] using fun h => hnew (ho.waited tid h)
  | syscall =>
    have hpast : (afterRecord s p .syscall tid new).past p = s.past p := by
      simp [afterRecord]
    constructor
    case executed =>
      rw [afterRecord_childTids, hpast]
      exact fun tid' h => Or.inl (List.mem_append_left _ (hex tid' h))
    case waited =>
      rw [hpast]
      exact ho.waited
    case marked =>
      rw [hlist, hpast]
      intro r hr hr'
      rcases List.mem_append.mp hr with hr | hr
      · exact (ho.marked r hr hr').trans (by simp [Pc.returning, afterExecute])
      · rw [List.mem_singleton.mp hr] at hr'
        exact absurd hr' hnew
    case young =>
      rintro pid ⟨⟩ -
      rw [afterRecord_childTids, hlist, hpast]
      refine ⟨hnew, by simp, fun r hr htid => ?_⟩
      rcases List.mem_append.mp hr with hr | hr
      · exact absurd htid (hold r hr)
      · rw [List.mem_singleton.mp hr]
        rfl
    all_goals simp [afterExecute]

namespace Waiting

/-- A step in which a thread changes its own record with its parent. -/
theorem tell (hw : Waiting s) (ht : Tree s) (h : Step s p s') (hc : Recorded s p) {t : Ptr}
    {after : After} {pc' : Pc} (hp : s.pc p = .found t after) (ha : (s.pc p).Tells)
    (hp' : s'.pc p = pc') (hd : pc'.Dull) {f : ChildStatus → ChildStatus}
    (hf : ∀ r, (f r).childTid = r.childTid ∧ (f r).childWaited = r.childWaited)
    (hlist : ∀ q, (s'.thread q).childThreadList = if q = t then
      updateChild (s.tid p) f (s.thread q).childThreadList else (s.thread q).childThreadList)
    (hpast : s'.past p = s.past p) (hends : s'.Ends p pc') (hmake : pc'.making = none)
    (hset : ∀ r, s.Settled t p r → r.childTid = s.tid p →
      (f r).childWaitSema + s.downs t r = pc'.ups ∧
        (pc'.Gone → ∀ status, s.status p = some status → (f r).childExitCode = status)) :
    Waiting s' := by
  have hs := h.spares ht
  have hmarks : ∀ q, (s'.pc q).marks = (s.pc q).marks := by
    intro q
    by_cases hq : q = p
    · rw [hq, hp, hp', hd.none.1]
      rfl
    · exact hs.marks_eq hq
  have hrec : ∀ q, ∀ r' ∈ (s'.thread q).childThreadList, ∃ r ∈ (s.thread q).childThreadList,
      r' = if q = t ∧ r.childTid = s.tid p then f r else r := by
    intro q r' hr'
    rw [hlist q] at hr'
    split at hr'
    · next hq =>
      obtain ⟨i, hi⟩ := List.mem_iff_getElem?.mp hr'
      rw [getElem?_updateChild (ht.recordsNodup q)] at hi
      obtain ⟨r, hr, rfl⟩ := Option.map_eq_some_iff.mp hi
      exact ⟨r, List.mem_of_getElem? hr, by simp [hq]⟩
    · next hq => exact ⟨r', hr', by simp [hq]⟩
  refine hw.step ht hs ?rec ?own (hp' ▸ hends) (by simp [hp', hmake]) ?made
  case rec =>
    intro q c r' hr' _ hdead htid
    obtain ⟨r, hr, hrr⟩ := hrec q r' hr'
    have hdead' := hs.not_dead h.alive hdead
    have htr : r'.childTid = r.childTid := by
      rw [hrr]
      split
      · exact (hf r).1
      · rfl
    -- the record of the thread itself changes, and no other one has its tid
    by_cases hcp : c = p
    · rw [hcp] at htid ⊢
      obtain ⟨-, hpt⟩ := hs.recorded hr (htid.trans htr)
      have hqt := ht.tells hp ha hr hdead' hpt
      have hr'' : r' = f r := by rw [hrr, if_pos ⟨hqt, hpt.symm⟩]
      obtain ⟨hsema, hcode⟩ := hset r (hqt ▸ hw.records q p r hr hdead' hpt) hpt.symm
      rw [hr'']
      refine ⟨?_, ?_⟩
      · rw [hp', ← hsema, Sys.downs, Sys.downs, hmarks, (hf r).1, (hf r).2, hqt]
      · rw [hp', Sys.status, hpast]
        exact hcode
    · have hne : r.childTid ≠ s.tid p := by
        intro hn
        obtain ⟨hb, hct⟩ := hs.recorded hr (htid.trans htr)
        exact hcp (ht.distinct c p (hct.trans hn) (Int.ne_of_gt (ht.born c hb).1))
      rw [if_neg fun hn => hne hn.2] at hrr
      rw [hrr] at htid ⊢
      exact hw.settled_same hs (hmarks q) (fun hn => absurd hn hcp) (fun hn => absurd hn hcp) hr
        hdead' htid
  case own =>
    have ho := hw.own p
    have hch : s'.childTids p = s.childTids p := by
      rw [Sys.childTids, hlist p]
      split
      · exact map_updateChild _ (fun r => (hf r).1) _
      · rfl
    rw [hp']
    refine .dull hd ?_ ?_ ?_
    · rw [hpast, hch]
      exact fun tid hin => Or.inl ((ho.executed tid hin).resolve_right (by simp [hp]))
    · rw [hpast]
      exact ho.waited
    · intro r' hr'
      obtain ⟨r, hr, hrr⟩ := hrec p r' hr'
      have htw : r'.childTid = r.childTid ∧ r'.childWaited = r.childWaited := by
        rw [hrr]
        split
        · exact hf r
        · exact ⟨rfl, rfl⟩
      rw [hpast, htw.1, htw.2]
      exact fun hin => (ho.marked r hr hin).trans (by simp [hp, Pc.returning])
  case made =>
    intro q _ hm
    exact absurd hm (hc ha q (ht.making_maker hm))

theorem exit (hw : Waiting s) (ht : Tree s) (hc : Recorded s p) {t : Ptr} {status : Int}
    (hp : s.pc p = .found t (.exit status)) :
    Waiting (((s.setThread p fun r => { r with exitCode := status }).setThread t fun r =>
      { r with childThreadList := storeExitCode (s.thread p).tid status r.childThreadList }).goto p
        .leaving) := by
  have hs := (hw.ends p).exiting status (by rw [hp]; rfl)
  refine hw.tell ht (.exit hp) hc hp (by rw [hp]; trivial) (Sys.goto_pc_self ..) trivial
    (f := fun c => { c with childExitCode := status }) (fun r => ⟨rfl, rfl⟩) ?list rfl ?ends rfl ?set
  case list =>
    intro q
    simp only [Sys.goto_thread, Sys.setThread_thread, storeExitCode, Sys.tid]
    grind
  case ends =>
    refine ⟨by simp [Pc.exiting], fun _ => ?_⟩
    obtain ⟨ending, he, -⟩ := Option.bind_eq_some_iff.mp hs
    exact ⟨ending, he⟩
  case set =>
    intro r hr _
    refine ⟨?_, fun _ status' hs' => ?_⟩
    · simpa [hp, Pc.ups, Pc.Ended] using hr.sema
    · rw [hs, Option.some.injEq] at hs'
      exact hs'

theorem wake (hw : Waiting s) (ht : Tree s) (hc : Recorded s p) {t : Ptr}
    (hp : s.pc p = .found t .leave) (hn : (s.thread t).childThreadList ≠ []) :
    Waiting ((s.setThread t fun r =>
      { r with childThreadList := upChild (s.thread p).tid r.childThreadList }).goto p
        .release) := by
  refine hw.tell ht (.wake hp hn) hc hp (by rw [hp]; trivial) (Sys.goto_pc_self ..) trivial
    (f := fun c => { c with childWaitSema := c.childWaitSema + 1 }) (fun r => ⟨rfl, rfl⟩) ?list rfl ?ends rfl ?set
  case list =>
    intro q
    simp only [Sys.goto_thread, Sys.setThread_thread, upChild, Sys.tid]
    grind
  case ends =>
    refine ⟨by simp [Pc.exiting], fun _ => (hw.ends p).gone ?_⟩
    rw [hp]
    trivial
  case set =>
    intro r hr _
    refine ⟨?_, fun _ => hr.code (by rw [hp]; trivial)⟩
    have hsema : r.childWaitSema + s.downs t r = 0 := by
      rw [hr.sema, hp]
      rfl
    show r.childWaitSema + 1 + s.downs t r = 1
    omega

theorem childless (hw : Waiting s) (ht : Tree s) (hc : Recorded s p) {t : Ptr}
    (hp : s.pc p = .found t .leave) (hn : (s.thread t).childThreadList = []) :
    Waiting (s.goto p .remove) := by
  have hstep : Step s p (s.goto p .remove) := .childless hp hn
  have hs := hstep.spares ht
  have htells : (s.pc p).Tells := by
    rw [hp]
    trivial
  refine hw.step ht hs ?rec ?own ?ends (by simp [Pc.making]) ?made
  case rec =>
    intro q c r hr _ hd htid
    have hd' := hs.not_dead hstep.alive hd
    have hcp : c ≠ p := by
      rintro rfl
      rw [← ht.tells hp htells hr hd' htid] at hn
      rw [Sys.goto_thread, hn] at hr
      cases hr
    refine hw.settled_same hs ?_ (fun h => absurd h hcp) (fun h => absurd h hcp) hr hd' htid
    by_cases hq : q = p
    · rw [hq, Sys.goto_pc_self, hp]
      rfl
    · exact hs.marks_eq hq
  case own =>
    rw [Sys.goto_pc_self]
    exact (hw.own p).move trivial (by simp [hp, Pc.returning]) rfl rfl rfl
  case ends =>
    rw [Sys.goto_pc_self]
    refine ⟨by simp [Pc.exiting], fun _ => (hw.ends p).gone ?_⟩
    rw [hp]
    trivial
  case made => exact fun q _ hm => absurd hm (hc htells q (ht.making_maker hm))

theorem release (hw : Waiting s) (ht : Tree s) (hp : s.pc p = .release) :
    Waiting ((s.setThread p fun r => { r with childThreadList := [] }).goto p .remove) := by
  have hstep := Step.release hp
  have hs := hstep.spares ht
  refine hw.step ht hs ?rec ?own ?ends (by simp [Pc.making]) ?made
  case rec =>
    intro q c r hr _ hd htid
    by_cases hq : q = p
    · simp [hq] at hr
    · rw [Sys.goto_thread, Sys.setThread_other _ _ hq] at hr
      refine hw.settled_same hs (hs.marks_eq hq) (fun _ => ?_) (fun _ _ => Or.inr ⟨?_, rfl⟩) hr
        (hs.not_dead hstep.alive hd) htid
      · rw [Sys.goto_pc_self, hp]
        rfl
      · rw [hp]
        trivial
  case own =>
    have ho := hw.own p
    rw [Sys.goto_pc_self]
    exact .dull trivial (fun _ _ => Or.inr (Or.inl rfl)) ho.waited (by simp)
  case ends =>
    rw [Sys.goto_pc_self]
    refine ⟨by simp [Pc.exiting], fun _ => (hw.ends p).gone ?_⟩
    rw [hp]
    trivial
  case made =>
    intro q _ hm
    refine absurd ?_ (hw.early q p hm).1
    rw [hp]
    trivial

theorem record (hw : Waiting s) (ht : Tree s) {caller : Caller} {tid : Tid} {new : Ptr}
    (hp : s.pc p = .record caller tid new) : Waiting (afterRecord s p caller tid new) := by
  have hstep : Step s p (afterRecord s p caller tid new) := .record hp
  have hs := hstep.spares ht
  have hat := ht.points p
  rw [hp] at hat
  obtain ⟨-, htid, hz, -, hin⟩ := hat
  have hself : (afterRecord s p caller tid new).pc p = afterExecute tid (some new) caller :=
    Sys.goto_pc_self ..
  obtain ⟨hups, hmark, hmaking, hexiting, hgone⟩ := afterExecute_idle tid (some new) caller
  have hmarks : ∀ q, ((afterRecord s p caller tid new).pc q).marks = (s.pc q).marks := by
    intro q
    by_cases hq : q = p
    · rw [hq, hself, hp, hmark]
      rfl
    · exact hs.marks_eq hq
  have hlist : ((afterRecord s p caller tid new).thread p).childThreadList =
      (s.thread p).childThreadList ++ [newChild tid] := by
    simp [afterRecord]
  have hmem : ∀ q, ∀ r ∈ ((afterRecord s p caller tid new).thread q).childThreadList,
      r ∈ (s.thread q).childThreadList ∨ q = p ∧ r = newChild tid := by
    intro q r hr
    by_cases hq : q = p
    · rw [hq, hlist, List.mem_append, List.mem_singleton] at hr
      rw [hq]
      exact hr.imp id fun hn => ⟨rfl, hn⟩
    · left
      simpa [afterRecord, Sys.setThread_other _ _ hq] using hr
  refine hw.step ht hs ?rec ?own ?ends (by simp [hself, hmaking]) ?made
  case rec =>
    intro q c r hr _ hd htr
    rcases hmem q r hr with hr | ⟨hq, hr⟩
    · refine hw.settled_same hs (hmarks q) (fun _ => ?_) (fun _ hg => ?_) hr
        (hs.not_dead hstep.alive hd) htr
      · rw [hself, hp, hups]
        rfl
      · rw [hself] at hg
        exact absurd hg hgone
    · -- the child has not looked for the record yet
      have hct : s.tid c = tid := by
        rw [← (afterRecord_still caller tid new).tid c, htr, hr]
        rfl
      obtain ⟨he, hg⟩ := hw.early p c (by
        rw [hp, ht.distinct c new (hct.trans htid.symm) (hct ▸ hz)]
        rfl)
      have hcups : ((afterRecord s p caller tid new).pc c).ups = 0 := by
        by_cases hcp : c = p
        · rw [hcp, hself, hups]
        · rw [hs.ups_eq hcp, Pc.ups, if_neg he]
      have hstatus : (afterRecord s p caller tid new).status c = s.status c := by
        by_cases hcp : c = p <;> simp [afterRecord, Sys.status, Sys.setPast_other, hcp]
      rw [hq, hr]
      refine ⟨?_, fun hg' => ?_⟩
      · rw [hcups, Sys.downs, hmarks, hp]
        rfl
      · by_cases hcp : c = p
        · rw [hcp, hself] at hg'
          exact absurd hg' hgone
        · rw [hstatus, hg ((hs.gone_iff hcp).mp hg')]
          simp
  case own =>
    rw [hself]
    exact (hp ▸ hw.own p).record hin
  case ends =>
    rw [hself]
    exact ⟨by simp [hexiting], fun hg => absurd hg hgone⟩
  case made =>
    intro q _ hm
    rw [hself]
    exact ⟨fun he => hgone he.gone, fun hg => absurd hg hgone⟩

/-- A step in which a thread changes one of its records. -/
theorem change (hw : Waiting s) (ht : Tree s) (h : Step s p s') {child : Nat} {c d : ChildStatus}
    {pc pc' : Pc} (hp : s.pc p = pc) (hp' : s'.pc p = pc')
    (hc : (s.thread p).childThreadList[child]? = some c)
    (hlist : ∀ q, (s'.thread q).childThreadList = if q = p then
      (s.thread p).childThreadList.set child d else (s.thread q).childThreadList)
    (hups : pc.ups = 0 ∧ pc'.ups = 0) (hgone : ¬ pc'.Gone)
    (hmake : pc'.making = none) (hexit : pc'.exiting = none)
    (htid : d.childTid = c.childTid) (hcode : d.childExitCode = c.childExitCode)
    (hdowns : ∀ r, r.childTid ≠ c.childTid → s'.downs p r = s.downs p r)
    (hsema : d.childWaitSema + s'.downs p d = c.childWaitSema + s.downs p c)
    (hown : s'.Own p pc') : Waiting s' := by
  subst hp hp'
  have hs := h.spares ht
  refine hw.step ht hs ?rec hown ⟨by simp [hexit], fun hg => absurd hg hgone⟩ (by simp [hmake]) ?made
  case rec =>
    intro q u r hr _ hd htu
    have hd' := hs.not_dead h.alive hd
    have hsame : u = p → (s'.pc p).ups = (s.pc p).ups := fun _ => hups.2.trans hups.1.symm
    have hstay : u = p → (s'.pc p).Gone →
        s'.status p = none ∨ (s.pc p).Gone ∧ s'.status p = s.status p :=
      fun _ hg => absurd hg hgone
    by_cases hq : q = p
    · rw [hq] at hr hd' ⊢
      rw [hlist, if_pos rfl] at hr
      obtain ⟨i, hi⟩ := List.mem_iff_getElem?.mp hr
      by_cases hic : child = i
      · rw [← hic, List.getElem?_set_self (List.getElem?_eq_some_iff.mp hc).1] at hi
        rw [← Option.some.inj hi] at htu ⊢
        exact hw.settled_of hs hsema hcode htid hsame hstay (List.mem_of_getElem? hc) hd' htu
      · rw [List.getElem?_set_ne hic] at hi
        have hne : r.childTid ≠ c.childTid := fun hn => hic (ht.record_index hc hi hn.symm)
        exact hw.settled_of hs (by rw [hdowns r hne]) rfl rfl hsame hstay
          (List.mem_of_getElem? hi) hd' htu
    · rw [hlist, if_neg hq] at hr
      exact hw.settled_same hs (hs.marks_eq hq) hsame hstay hr hd' htu
  case made =>
    intro q _ _
    exact ⟨fun he => hgone he.gone, fun hg => absurd hg hgone⟩

/-- The record that `wait` has found is the one of its child. -/
theorem found (hw : Waiting s) {caller : Caller} {tid : Tid} {child : Nat} {c : ChildStatus}
    (hp : s.pc p = .waitDown caller tid child ∨ s.pc p = .waitMark caller tid child)
    (hc : (s.thread p).childThreadList[child]? = some c) :
    c.childTid = tid ∧ c.childWaited = false := by
  obtain ⟨r, hr, ht, hwt⟩ := (hw.own p).down caller tid child hp
  rw [hc, Option.some.injEq] at hr
  exact ⟨hr ▸ ht, hr ▸ hwt⟩

theorem waitDown (hw : Waiting s) (ht : Tree s) {caller : Caller} {tid : Tid} {child : Nat}
    {c : ChildStatus} (hp : s.pc p = .waitDown caller tid child)
    (hc : (s.thread p).childThreadList[child]? = some c) (hv : c.childWaitSema ≠ 0) :
    Waiting ((s.setThread p fun t => { t with
      childThreadList := t.childThreadList.set child
        { c with childWaitSema := c.childWaitSema - 1 } }).goto p (.waitMark caller tid child)) := by
  obtain ⟨htid, hwt⟩ := hw.found (Or.inl hp) hc
  have ho := hw.own p
  refine hw.change ht (.waitDown hp hc hv) hp (Sys.goto_pc_self ..) hc
    (d := { c with childWaitSema := c.childWaitSema - 1 }) ?list ⟨rfl, rfl⟩ id rfl rfl rfl
    rfl ?downs ?sema ?own
  case list =>
    intro q
    simp only [Sys.goto_thread, Sys.setThread_thread]
    grind
  case downs =>
    intro r hr
    have hne : ¬ tid = r.childTid := fun hn => hr (hn.symm.trans htid.symm)
    simp [Sys.downs, hp, Pc.marks, hne]
  case sema =>
    simp only [Sys.downs, Sys.goto_pc_self, hp, Pc.marks, hwt, htid]
    simp
    omega
  case own =>
    have hlist : Sys.childTids ((s.setThread p fun t => { t with
        childThreadList := t.childThreadList.set child
          { c with childWaitSema := c.childWaitSema - 1 } }).goto p (.waitMark caller tid child)) p =
        s.childTids p := by
      simp only [Sys.childTids, Sys.goto_thread, Sys.setThread_self]
      exact map_childTid_set hc rfl
    constructor
    case executed =>
      rw [hlist]
      exact fun tid' h => Or.inl ((ho.executed tid' h).resolve_right (by simp [hp]))
    case waited => exact ho.waited
    case marked =>
      intro r hr
      simp only [Sys.goto_thread, Sys.setThread_self] at hr
      rcases List.mem_or_eq_of_mem_set hr with hr | rfl
      · exact fun hex => (ho.marked r hr hex).trans (by simp [hp, Pc.returning])
      · exact fun hex => (ho.marked c (List.mem_of_getElem? hc) hex).trans
          (by simp [hp, Pc.returning])
    case down =>
      rintro caller' tid' child' (hn | hn)
      · cases hn
      · cases hn
        refine ⟨{ c with childWaitSema := c.childWaitSema - 1 }, ?_, htid, hwt⟩
        simp [List.getElem?_set_self (List.getElem?_eq_some_iff.mp hc).1]
    all_goals simp [Pc.pid]

theorem waitMark (hw : Waiting s) (ht : Tree s) {caller : Caller} {tid : Tid} {child : Nat}
    {c : ChildStatus} (hp : s.pc p = .waitMark caller tid child)
    (hc : (s.thread p).childThreadList[child]? = some c) :
    Waiting ((s.setThread p fun t => { t with
      childThreadList := t.childThreadList.set child { c with childWaited := true } }).goto p
        (.waitReturn caller tid c.childExitCode)) := by
  obtain ⟨htid, hwt⟩ := hw.found (Or.inr hp) hc
  have ho := hw.own p
  have hstep := Step.waitMark hp hc
  refine hw.change ht hstep hp (Sys.goto_pc_self ..) hc
    (d := { c with childWaited := true }) ?list ⟨rfl, rfl⟩ id rfl rfl rfl rfl ?downs
    ?sema ?own
  case list =>
    intro q
    simp only [Sys.goto_thread, Sys.setThread_thread]
    grind
  case downs =>
    intro r hr
    have hne : ¬ tid = r.childTid := fun hn => hr (hn.symm.trans htid.symm)
    simp [Sys.downs, hp, Pc.marks, hne]
  case sema => simp [Sys.downs, hp, Pc.marks, htid]
  case own =>
    have hin := List.mem_of_getElem? hc
    have hlist : Sys.childTids ((s.setThread p fun t => { t with
        childThreadList := t.childThreadList.set child { c with childWaited := true } }).goto p
          (.waitReturn caller tid c.childExitCode)) p = s.childTids p := by
      simp only [Sys.childTids, Sys.goto_thread, Sys.setThread_self]
      exact map_childTid_set hc rfl
    have hmem : ∀ r ∈ (s.thread p).childThreadList.set child { c with childWaited := true },
        r ∈ (s.thread p).childThreadList ∧ r.childTid ≠ tid ∨ r = { c with childWaited := true } := by
      intro r hr
      obtain ⟨i, hi⟩ := List.mem_iff_getElem?.mp hr
      by_cases hic : child = i
      · rw [← hic, List.getElem?_set_self (List.getElem?_eq_some_iff.mp hc).1] at hi
        exact Or.inr (Option.some.inj hi).symm
      · rw [List.getElem?_set_ne hic] at hi
        exact Or.inl ⟨List.mem_of_getElem? hi, fun hn =>
          hic (ht.record_index hc hi (htid.trans hn.symm))⟩
    -- it is the first call that gets this far
    have hfirst : tid ∉ (s.past p).waited := by
      intro hn
      have hm := (ho.marked c hin (htid ▸ ho.waited tid hn)).mpr (Or.inl (htid ▸ hn))
      rw [hwt] at hm
      cases hm
    constructor
    case executed =>
      rw [hlist]
      exact fun tid' h => Or.inl ((ho.executed tid' h).resolve_right (by simp [hp]))
    case waited => exact ho.waited
    case marked =>
      intro r hr
      simp only [Sys.goto_thread, Sys.setThread_self] at hr
      rcases hmem r hr with ⟨hr, hne⟩ | rfl
      · exact fun hex => (ho.marked r hr hex).trans (by simp [hp, Pc.returning, hne.symm])
      · simp [Pc.returning, htid]
    case again =>
      rintro _ _ _ ⟨⟩ hn
      refine absurd (hn.resolve_left hfirst) fun hn => hn ?_
      rw [hlist, ← htid]
      exact List.mem_map_of_mem hin
    case first =>
      rintro _ _ _ ⟨⟩ - - r hr htr
      simp only [Sys.goto_thread, Sys.setThread_self] at hr
      rcases hmem r hr with ⟨-, hne⟩ | rfl
      · exact absurd htr hne
      · have hs := hstep.spares ht
        refine ⟨rfl, fun u hu => hs.ended_mono ?_⟩
        have hut := (hs.recorded hin (hu.trans htid.symm)).2
        have hsema := (hw.records p u c hin (by simp [hp]) hut).sema
        by_contra hn
        rw [Pc.ups, if_neg hn, Sys.downs, if_pos (Or.inr (by rw [hp, htid]; rfl))] at hsema
        cases hsema
    all_goals simp [Pc.pid]

end Waiting

/-- A thread that kills itself in any other way than by a page fault. -/
def Kills (s : Sys) (p : Ptr) (s' : Sys) : Prop := s.pc p = .running ∧ s'.pc p = .leaving

instance : Decidable (Kills s p s') := inferInstanceAs (Decidable (_ ∧ _))

/-- The step of a run in which `wait` returns what it should: no thread follows a pointer to a page
given back, no child looks for its parent before it has been told who that is, or through the
records of its parent before it has one, and `kill` ends no process. -/
structure WaitOrderly (s : Sys) (p : Ptr) (s' : Sys) : Prop where
  sound : ¬ s.Stray p
  told : Told s p
  recorded : Recorded s p
  faulted : ¬ Kills s p s'

instance : Decidable (WaitOrderly s p s') :=
  decidable_of_iff (¬ s.Stray p ∧ Told s p ∧ Recorded s p ∧ ¬ Kills s p s')
    ⟨fun h => ⟨h.1, h.2.1, h.2.2.1, h.2.2.2⟩, fun h => ⟨h.sound, h.told, h.recorded, h.faulted⟩⟩

/-- A step between points where a thread knows nothing new. -/
theorem Waiting.idle (hw : Waiting s) (ht : Tree s) (h : Step s p s') {pc pc' : Pc}
    (hp : s.pc p = pc) (hp' : s'.pc p = pc') (hd : pc'.Dull)
    (hpc : pc.returning = none ∧ pc ≠ .remove ∧ pc ≠ .dead)
    (hlist : ∀ q, (s'.thread q).childThreadList = (s.thread q).childThreadList)
    (hpast : (s'.past p).executed = (s.past p).executed ∧
      (s'.past p).waited = (s.past p).waited ∧ (s'.past p).ending = (s.past p).ending)
    (hups : pc'.ups = pc.ups) (hmarks : pc.marks = none) (hgone : pc'.Gone → pc.Gone)
    (hexit : ∀ status, pc'.exiting = some status → pc.exiting = some status)
    (hmake : ∀ c, pc'.making = some c → pc.making = some c ∨ s.pc c = .unborn) : Waiting s' := by
  have ho := hw.own p
  have he := hw.ends p
  have hstatus : s'.status p = s.status p := by rw [Sys.status, hpast.2.2, Sys.status]
  rw [hp] at ho he
  refine hw.calm ht h hp hp' hlist hups (hd.none.1.trans hmarks.symm)
    (fun hg => Or.inr ⟨hgone hg, hstatus⟩) (ho.move hd hpc (hlist p) hpast.1 hpast.2.1) ?_ hmake
  refine ⟨fun status hs => ?_, fun hg => ?_⟩
  · rw [hstatus]
    exact he.exiting status (hexit status hs)
  · rw [hpast.2.2]
    exact he.gone (hgone hg)

/-- A thread that does not return from `wait` knows what it did. -/
theorem Sys.Own.same {pc : Pc} (ho : s.Own p pc) (hr : pc.returning = none)
    (hlist : (s'.thread p).childThreadList = (s.thread p).childThreadList)
    (hpast : (s'.past p).executed = (s.past p).executed ∧
      (s'.past p).waited = (s.past p).waited) : s'.Own p pc := by
  have hch : s'.childTids p = s.childTids p := by rw [Sys.childTids, hlist, Sys.childTids]
  constructor
  case executed => rw [hpast.1, hch]; exact ho.executed
  case waited => rw [hpast.1, hpast.2]; exact ho.waited
  case marked => rw [hlist, hpast.1, hpast.2]; exact ho.marked
  case down => rw [hlist]; exact ho.down
  case again => rw [hpast.2, hch]; exact ho.again
  case first =>
    rintro caller tid result rfl
    cases hr
  case young => rw [hlist, hpast.1, hch]; exact ho.young

/-- A thread to which something has been refused in `process_execute`. -/
theorem Sys.Own.refused {pc : Pc} (ho : s.Own p pc)
    (hpc : pc.returning = none ∧ pc ≠ .remove ∧ pc ≠ .dead) (new : Option Ptr) (caller : Caller) :
    s.Own p (afterExecute tidError new caller) := by
  cases caller with
  | runTask => exact ho.move trivial hpc rfl rfl rfl
  | syscall =>
    have hmove : s.Own p .running := ho.move trivial hpc rfl rfl rfl
    refine ⟨fun tid h => ?_, ho.waited, hmove.marked, ?_, ?_, ?_, ?_⟩
    · exact Or.inl ((hmove.executed tid h).resolve_right (by simp))
    · simp [afterExecute]
    · simp [afterExecute]
    · simp [afterExecute]
    · rintro pid ⟨⟩ hn
      exact absurd rfl hn

theorem Waiting.refused (hw : Waiting s) (ht : Tree s) {pc : Pc} {caller : Caller}
    {new : Option Ptr} (h : Step s p (s.goto p (afterExecute tidError new caller)))
    (hp : s.pc p = pc) (hpc : pc.returning = none ∧ pc ≠ .remove ∧ pc ≠ .dead)
    (hups : pc.ups = 0) (hmarks : pc.marks = none) :
    Waiting (s.goto p (afterExecute tidError new caller)) := by
  obtain ⟨hups', hmark, hmaking, hexiting, hgone⟩ := afterExecute_idle tidError new caller
  have ho := hw.own p
  rw [hp] at ho
  exact hw.calm ht h hp (Sys.goto_pc_self ..) (fun _ => rfl) (hups'.trans hups.symm)
    (hmark.trans hmarks.symm) (fun hg => absurd hg hgone)
    ((ho.refused hpc new caller).same (by cases caller <;> rfl) rfl ⟨rfl, rfl⟩)
    ⟨by simp [hexiting], fun hg => absurd hg hgone⟩ (by simp [hmaking])

/-- A thread that goes on in `exec`. -/
theorem Sys.Own.onward {pc pc' : Pc} {pid pid' : Tid} (ho : s.Own p pc) (hp : pc.pid = some pid)
    (hp' : pc'.pid = some pid') (hpid : pid' = pid ∨ pid' = tidError)
    (hlist : (s'.thread p).childThreadList = (s.thread p).childThreadList)
    (hpast : (s'.past p).executed = (s.past p).executed ∧
      (s'.past p).waited = (s.past p).waited) : s'.Own p pc' := by
  have hpc : pc.returning = none ∧ pc ≠ .remove ∧ pc ≠ .dead := by
    cases pc <;> first | cases hp; done | simp [Pc.returning]
  have hmove : s'.Own p .running := ho.move trivial hpc hlist hpast.1 hpast.2
  have hpc' : pc'.returning = none := by
    cases pc' <;> first | cases hp'; done | rfl
  refine ⟨fun tid h => Or.inl ((hmove.executed tid h).resolve_right (by simp)), hmove.waited, ?_, ?_,
    ?_, ?_, fun pid₀ hp₀ hn => ?_⟩
  · rw [hpc']
    exact hmove.marked
  · rintro _ _ _ (rfl | rfl) <;> cases hp'
  · rintro _ _ _ rfl
    cases hp'
  · rintro _ _ _ rfl
    cases hp'
  · rw [hp', Option.some.injEq] at hp₀
    have hold := ho.young pid hp (by rwa [← hpid.resolve_right (hp₀ ▸ hn), hp₀])
    rw [← hp₀, hpid.resolve_right (hp₀ ▸ hn), hpast.1, Sys.childTids, hlist]
    exact hold

theorem Sys.Own.execReturn {result : Tid} {new : Option Ptr}
    (ho : s.Own p (.execReturn result new)) :
    Sys.Own ((s.setPast p fun r => { r with
      executed := if result = tidError then r.executed else result :: r.executed }).goto p .running)
      p .running := by
  have hmove : s.Own p .running := ho.move trivial (by simp [Pc.returning]) rfl rfl rfl
  have hex : ∀ tid ∈ (s.past p).executed, tid ∈ s.childTids p :=
    fun tid h => (ho.executed tid h).resolve_right (by simp)
  by_cases hr : result = tidError
  · exact hmove.same rfl rfl (by simp [hr])
  · obtain ⟨hno, hin, hwt⟩ := ho.young result rfl hr
    refine .dull trivial ?_ ?_ ?_
    all_goals
      simp only [Sys.goto_past, Sys.setPast_self, Sys.goto_thread, Sys.setPast_thread, if_neg hr]
    · intro tid h
      rcases List.mem_cons.mp h with rfl | h
      · exact Or.inl hin
      · exact Or.inl (hex tid h)
    · exact fun tid h => List.mem_cons_of_mem _ (ho.waited tid h)
    · intro r hr h
      rcases List.mem_cons.mp h with htid | h
      · rw [hwt r hr htid, htid]
        simpa using fun h => hno (ho.waited result h)
      · exact (hmove.marked r hr h).trans (by simp [Pc.returning])

/-- `wait` gives up at once. -/
theorem Sys.Own.giveUp {caller : Caller} {tid : Tid} (ho : s.Own p (.wait caller tid))
    (hn : ∀ r ∈ (s.thread p).childThreadList, r.childTid = tid → r.childWaited = true) :
    Sys.Own (s.goto p (.waitReturn caller tid (-1))) p (.waitReturn caller tid (-1)) where
  executed tid' h := Or.inl ((ho.executed tid' h).resolve_right (by simp))
  waited := ho.waited
  marked r hr hex := by
    by_cases ht : r.childTid = tid
    · simp [hn r hr ht, Pc.returning, ht]
    · exact (ho.marked r hr hex).trans (by simp [Pc.returning, Ne.symm ht])
  down := by simp
  again := by
    rintro _ _ _ ⟨⟩ -
    rfl
  first := by
    rintro _ _ _ ⟨⟩ hex hwt r hr ht
    have hm := (ho.marked r hr (ht ▸ hex)).mp (hn r hr ht)
    exact absurd (hm.resolve_right (by simp [Pc.returning])) (ht ▸ hwt)
  young := by simp [Pc.pid]

theorem Sys.Own.waitFound {caller : Caller} {tid : Tid} (ho : s.Own p (.wait caller tid))
    {child : Nat} {c : ChildStatus} (hc : (s.thread p).childThreadList[child]? = some c)
    (htid : c.childTid = tid) (hw : c.childWaited = false) :
    Sys.Own (s.goto p (.waitDown caller tid child)) p (.waitDown caller tid child) where
  executed tid' h := Or.inl ((ho.executed tid' h).resolve_right (by simp))
  waited := ho.waited
  marked r hr hex := (ho.marked r hr hex).trans (by simp [Pc.returning])
  down := by
    rintro _ _ _ (h | h)
    · cases h
      exact ⟨c, hc, htid, hw⟩
    · cases h
  again := by simp
  first := by simp
  young := by simp [Pc.pid]

theorem Sys.Own.waitReturn {caller : Caller} {tid : Tid} {result : Int}
    (ho : s.Own p (.waitReturn caller tid result)) :
    Sys.Own ((s.setPast p fun r => { r with
      waited := if tid ∈ r.executed then tid :: r.waited else r.waited }).goto p (afterWait caller))
      p (afterWait caller) := by
  have hd : (afterWait caller).Dull := by cases caller <;> trivial
  have hex : ∀ tid' ∈ (s.past p).executed, tid' ∈ s.childTids p :=
    fun tid' h => (ho.executed tid' h).resolve_right (by simp)
  by_cases hin : tid ∈ (s.past p).executed
  · refine .dull hd (fun tid' h => Or.inl (hex tid' (by simpa using h))) ?_ ?_
    all_goals
      simp only [Sys.goto_past, Sys.setPast_self, Sys.goto_thread, Sys.setPast_thread, if_pos hin,
        List.mem_cons]
    · rintro tid' (rfl | h)
      · exact hin
      · exact ho.waited tid' h
    · intro r hr hr'
      rw [ho.marked r hr hr', Pc.returning, Option.some.injEq, or_comm, eq_comm]
  · refine .dull hd (fun tid' h => Or.inl (hex tid' (by simpa using h))) ?_ ?_
    all_goals
      simp only [Sys.goto_past, Sys.setPast_self, Sys.goto_thread, Sys.setPast_thread, if_neg hin]
    · exact ho.waited
    · intro r hr hr'
      have hne : ¬ tid = r.childTid := fun hn => hin (hn ▸ hr')
      rw [ho.marked r hr hr', Pc.returning, Option.some.injEq]
      simp [hne]

/-- A thread begins to end. -/
theorem Waiting.dies (hw : Waiting s) (ht : Tree s) {pc pc' : Pc} {ending : Ending}
    (h : Step s p ((s.setPast p fun r => { r with ending := some ending }).goto p pc'))
    (hp : s.pc p = pc) (hpc : pc.returning = none ∧ pc ≠ .remove ∧ pc ≠ .dead) (hd : pc'.Dull)
    (hups : pc'.ups = pc.ups) (hmarks : pc.marks = none) (hmake : pc'.making = none)
    (hexit : ∀ status, pc'.exiting = some status → ending.status = some status)
    (hgone : pc'.Gone → ending.status = none) :
    Waiting ((s.setPast p fun r => { r with ending := some ending }).goto p pc') := by
  have hstatus : Sys.status ((s.setPast p fun r => { r with ending := some ending }).goto p pc') p =
      ending.status := by
    simp [Sys.status]
  have ho := hw.own p
  rw [hp] at ho
  refine hw.calm ht h hp (Sys.goto_pc_self ..) (fun _ => rfl) hups (hd.none.1.trans hmarks.symm)
    (fun hg => Or.inl (hstatus.trans (hgone hg))) (ho.move hd hpc rfl (by simp) (by simp)) ?_
    (by simp [hmake])
  refine ⟨fun status hs => ?_, fun _ => ⟨ending, by simp⟩⟩
  rw [hstatus]
  exact hexit status hs

/-- `process_wait` returns at once. -/
theorem Waiting.waitEnds (hw : Waiting s) (ht : Tree s) {caller : Caller} {tid : Tid}
    (h : Step s p (s.goto p (.waitReturn caller tid (-1)))) (hp : s.pc p = .wait caller tid)
    (hn : ∀ r ∈ (s.thread p).childThreadList, r.childTid = tid → r.childWaited = true) :
    Waiting (s.goto p (.waitReturn caller tid (-1))) := by
  have ho := hw.own p
  rw [hp] at ho
  exact hw.calm ht h hp (Sys.goto_pc_self ..) (fun _ => rfl) rfl rfl (by simp [Pc.Gone])
    (ho.giveUp hn) ⟨by simp [Pc.exiting], by simp [Pc.Gone]⟩ (by simp [Pc.making])

/-- A tid that `process_wait` finds no record of. -/
theorem Tree.not_recorded (ht : Tree s) {tid : Tid}
    (hn : tid = tidError ∨ childIndex tid (s.thread p).childThreadList = none) :
    tid ∉ s.childTids p := by
  rcases hn with rfl | hn
  · intro hin
    obtain ⟨c, -, htid, hb, -⟩ := ht.records p _ hin
    have hpos := (ht.born c hb).1
    rw [htid] at hpos
    cases hpos
  · exact childIndex_none hn

theorem Waiting.create (hw : Waiting s) (ht : Tree s) {caller : Caller}
    (hp : s.pc p = .create caller) : Waiting (afterCreate s p caller) := by
  have hpn : p ≠ s.created := fun hn => by
    have hu := (ht.fresh p (Nat.le_of_eq hn.symm)).1
    rw [hp] at hu
    cases hu
  refine hw.idle ht (.create hp) hp (Sys.goto_pc_self ..) trivial (by simp [Pc.returning])
    (fun q => ?_) ?_ rfl rfl (by simp [Pc.Gone]) (by simp [Pc.exiting]) ?_
  · by_cases hq : q = s.created
    · have hc := (ht.fresh q (Nat.le_of_eq hq.symm)).2.2.1
      rw [Sys.childTids, List.map_eq_nil_iff] at hc
      rw [hc]
      simp [afterCreate, hq, initThread]
    · simp [afterCreate, Sys.setThread_other _ _ hq]
  · simp [afterCreate, Sys.setPast_other _ _ hpn]
  · rintro c ⟨⟩
    exact Or.inr (ht.fresh s.created (Nat.le_refl _)).1

/-- The `load` of a thread has failed. -/
theorem Waiting.loadUpFail (hw : Waiting s) (ht : Tree s) {t : Ptr}
    (hp : s.pc p = .loadUp t false) :
    Waiting ((((s.setThread t fun r => { r with loadSema := r.loadSema + 1 }).setThread p fun r =>
      { r with exitCode := -1 }).setPast p fun r =>
      { r with ending := some .loadFailed }).goto p .leaving) := by
  have ho := hw.own p
  rw [hp] at ho
  refine hw.calm ht (.loadUpFail hp) hp (Sys.goto_pc_self ..) (fun q => ?_) rfl rfl
    (fun _ => Or.inl (by simp [Sys.status, Ending.status]))
    (ho.move trivial (by simp [Pc.returning]) ?_ (by simp) (by simp))
    ⟨by simp [Pc.exiting], by simp⟩ (by simp [Pc.making])
  all_goals
    simp only [Sys.goto_thread, Sys.setPast_thread, Sys.setThread_thread]
    grind

theorem Waiting.waitReturn (hw : Waiting s) (ht : Tree s) {caller : Caller} {tid : Tid}
    {result : Int} (hp : s.pc p = .waitReturn caller tid result) :
    Waiting ((s.setPast p fun r => { r with
      waited := if tid ∈ r.executed then tid :: r.waited else r.waited }).goto p
        (afterWait caller)) := by
  have ho := hw.own p
  rw [hp] at ho
  have hpc : (afterWait caller).ups = 0 ∧ (afterWait caller).marks = none ∧
      (afterWait caller).making = none ∧ (afterWait caller).exiting = none ∧
      ¬ (afterWait caller).Gone := by
    cases caller <;> exact ⟨rfl, rfl, rfl, rfl, id⟩
  exact hw.calm ht (.waitReturn hp) hp (Sys.goto_pc_self ..) (fun _ => rfl) hpc.1 hpc.2.1
    (fun hg => absurd hg hpc.2.2.2.2) ho.waitReturn
    ⟨by simp [hpc], fun hg => absurd hg hpc.2.2.2.2⟩ (by simp [hpc])

theorem step_waiting (ht : Tree s) (hw : Waiting s) (hstep : Step s p s')
    (hc : WaitOrderly s p s') : Waiting s' := by
  have hgo : ∀ {s'' : Sys} {pc' : Pc}, (s''.goto p pc').pc p = pc' := Sys.goto_pc_self ..
  have hcalm := @Waiting.calm _ _ _ hw ht hstep
  have hidle := @Waiting.idle _ _ _ hw ht hstep
  have ho := hw.own p
  have he := hw.ends p
  cases hstep with
  | record hp => exact hw.record ht hp
  | waitDown hp hr hv => exact hw.waitDown ht hp hr hv
  | waitMark hp hr => exact hw.waitMark ht hp hr
  | exit hp => exact hw.exit ht hc.recorded hp
  | wake hp hn => exact hw.wake ht hc.recorded hp hn
  | childless hp hn => exact hw.childless ht hc.recorded hp hn
  | release hp => exact hw.release ht hp
  | kill hp => exact absurd ⟨hp, hgo⟩ hc.faulted
  | runTask hp | exec hp | callWait _ hp | fnCopy hp | programName hp | leave hp =>
    exact hidle hp hgo trivial (by simp [Pc.returning]) (fun _ => rfl) ⟨rfl, rfl, rfl⟩ rfl rfl
      (by simp [Pc.Gone]) (by simp [Pc.exiting]) (by simp [Pc.making])
  | loaded hp he =>
    exact hidle hp hgo trivial (by simp [Pc.returning]) (fun _ => rfl) ⟨rfl, rfl, rfl⟩ rfl rfl
      (by simp [Pc.Gone]) (by simp [Pc.exiting]) (by simp [Pc.making])
  | faulted hp he =>
    exact hidle hp hgo trivial (by simp [Pc.returning]) (fun _ => rfl) ⟨rfl, rfl, rfl⟩ rfl rfl
      (by simp [Pc.Gone]) (by simp [Pc.exiting]) (by simp [Pc.making])
  | load success hp =>
    exact hidle hp hgo trivial (by simp [Pc.returning]) (fun _ => rfl) (by simp) rfl rfl
      (by simp [Pc.Gone]) (by simp [Pc.exiting]) (by simp [Pc.making])
  | noFnCopy hp => exact hw.refused ht (.noFnCopy hp) hp (by simp [Pc.returning]) rfl rfl
  | noProgramName hp => exact hw.refused ht (.noProgramName hp) hp (by simp [Pc.returning]) rfl rfl
  | noCreate hp => exact hw.refused ht (.noCreate hp) hp (by simp [Pc.returning]) rfl rfl
  | noRecord hp => exact hw.refused ht (.noRecord hp) hp (by simp [Pc.returning]) rfl rfl
  -- the making of a thread
  | create hp => exact hw.create ht hp
  | unblock hp he =>
    refine hidle hp hgo trivial (by simp [Pc.returning]) (fun q => ?_) ⟨rfl, rfl, rfl⟩ rfl rfl
      (by simp [Pc.Gone]) (by simp [Pc.exiting]) fun c => Or.inl
    simp only [Sys.goto_thread, Sys.setThread_thread]
    grind
  | link hp =>
    refine hidle hp hgo trivial (by simp [Pc.returning]) (fun q => ?_) ⟨rfl, rfl, rfl⟩ rfl rfl
      (by simp [Pc.Gone]) (by simp [Pc.exiting]) fun c => Or.inl
    simp only [Sys.goto_thread, Sys.setThread_thread]
    grind
  | @searchFound tid e after hp hf =>
    cases after <;> exact hidle hp hgo trivial (by simp [Pc.returning]) (fun _ => rfl)
      ⟨rfl, rfl, rfl⟩ rfl rfl id (fun _ => id) fun _ => Or.inl
  | @searchNext tid e e' after hp hf he =>
    cases after <;> exact hidle hp hgo trivial (by simp [Pc.returning]) (fun _ => rfl)
      ⟨rfl, rfl, rfl⟩ rfl rfl id (fun _ => id) fun _ => Or.inl
  | loadState hp | loadUp hp =>
    refine hidle hp hgo trivial (by simp [Pc.returning]) (fun q => ?_) ⟨rfl, rfl, rfl⟩ rfl rfl
      (by simp [Pc.Gone]) (by simp [Pc.exiting]) (by simp [Pc.making])
    simp only [Sys.goto_thread, Sys.setThread_thread]
    grind
  -- the ways to end
  | finish hp =>
    exact hw.dies ht (.finish hp) hp (by simp [Pc.returning]) trivial rfl rfl rfl
      (by simp [Pc.exiting]) fun _ => rfl
  | callExit status e hp hf =>
    exact hw.dies ht (.callExit status e hp hf) hp (by simp [Pc.returning]) trivial rfl rfl rfl
      (fun _ => id) (by simp [Pc.Gone])
  | pageFault e hp hf =>
    exact hw.dies ht (.pageFault e hp hf) hp (by simp [Pc.returning]) trivial rfl rfl rfl
      (fun _ => id) (by simp [Pc.Gone])
  | loadFault hp =>
    exact hw.dies ht (.loadFault hp) hp (by simp [Pc.returning]) trivial rfl rfl rfl
      (fun _ => id) (by simp [Pc.Gone])
  | loadUpFail hp => exact hw.loadUpFail ht hp
  -- `exec`
  | @loadDown pid new hp hv =>
    rw [hp] at ho
    refine hcalm hp hgo (fun q => ?_) rfl rfl (by simp [Pc.Gone]) (ho.onward rfl rfl (Or.inl rfl) ?_
      ⟨rfl, rfl⟩) ⟨by simp [Pc.exiting], by simp [Pc.Gone]⟩ (by simp [Pc.making])
    all_goals
      simp only [Sys.goto_thread, Sys.setThread_thread]
      grind
  | @loadTest pid new hp =>
    rw [hp] at ho
    refine hcalm hp hgo (fun q => rfl) rfl rfl (by simp [Pc.Gone]) (ho.onward rfl rfl ?_ rfl
      ⟨rfl, rfl⟩) ⟨by simp [Pc.exiting], by simp [Pc.Gone]⟩ (by simp [Pc.making])
    split
    · exact Or.inl rfl
    · exact Or.inr rfl
  | execReturn hp =>
    rw [hp] at ho
    exact hcalm hp hgo (fun q => rfl) rfl rfl (by simp [Pc.Gone]) ho.execReturn
      ⟨by simp [Pc.exiting], by simp [Pc.Gone]⟩ (by simp [Pc.making])
  -- `wait`
  | waitNone hp hn =>
    exact hw.waitEnds ht (.waitNone hp hn) hp fun r hr htid =>
      absurd (htid ▸ List.mem_map_of_mem hr) (ht.not_recorded hn)
  | waitAgain hp hz hi hr hwt =>
    refine hw.waitEnds ht (.waitAgain hp hz hi hr hwt) hp fun r hr' htid => ?_
    obtain ⟨i, hi'⟩ := List.mem_iff_getElem?.mp hr'
    rw [← ht.record_index hr hi' ((childIndex_some hi hr).trans htid.symm), hr,
      Option.some.injEq] at hi'
    rw [← hi', hwt]
  | waitFound hp hz hi hr hwt =>
    rw [hp] at ho
    exact hcalm hp hgo (fun q => rfl) rfl rfl (by simp [Pc.Gone])
      (ho.waitFound hr (childIndex_some hi hr) hwt)
      ⟨by simp [Pc.exiting], by simp [Pc.Gone]⟩ (by simp [Pc.making])
  | waitReturn hp => exact hw.waitReturn ht hp
  | remove hp =>
    exact hcalm hp hgo (fun q => rfl) rfl rfl (fun _ => Or.inr ⟨trivial, rfl⟩)
      (.dull trivial (fun _ _ => Or.inr (Or.inr rfl)) ho.waited fun r hr hin =>
        (ho.marked r hr hin).trans (by simp [hp, Pc.returning]))
      ⟨by simp [Pc.exiting], fun _ => he.gone (by rw [hp]; trivial)⟩ (by simp [Pc.making])

end

/-! ## Runs -/

theorem boot_waiting : Waiting boot := by
  refine ⟨fun q c r hr => ?_, fun q => ?_, fun c => ?_, fun q c hm => ?_⟩
  · cases hr
  · refine .dull ?_ (by simp [boot, Past.new]) (by simp [boot, Past.new]) (by simp [boot, initThread])
    rcases boot_pc q with h | h | h <;> rw [h] <;> trivial
  · rcases boot_pc c with h | h | h <;> rw [h] <;> exact ⟨by simp [Pc.exiting], False.elim⟩
  · rcases boot_pc q with h | h | h <;> rw [h] at hm <;> cases hm

theorem Reachable.waiting {s : Sys} (h : Reachable WaitOrderly s) : Tree s ∧ Waiting s := by
  induction h with
  | boot => exact ⟨boot_tree, boot_waiting⟩
  | step p _ hp hs cond ih =>
    exact ⟨step_tree ih.1 hp cond.told hs, step_waiting ih.1 ih.2 hs cond⟩
  | stray p _ hp cond => exact absurd hp cond.sound

end Pintos.Process
