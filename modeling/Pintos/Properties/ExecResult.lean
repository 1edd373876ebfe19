import Pintos.Properties.Children

/-!
# The result of `exec`

`exec` waits on `load_sema` for its child to say how its `load` went. When nothing fails in
`process_execute`, the child has been told who its parent is before it looks for it, and no page
fault ends its `load`, `exec` returns what it should, and what the child says reaches the thread that
made it.
-/

namespace Pintos.Process

open Pintos.Lib Pintos.Logic

/-! ## What is to be shown -/

/-- The points of `start_process` up to the `sema_up`. -/
def Pc.InStart : Pc → Prop
  | .load => True
  | .loaded _ => True
  | .search _ _ (.started _) => True
  | .found _ (.started _) => True
  | .loadUp _ _ => True
  | _ => False

/-- A thread is about to change `load_state` or `load_sema` of the thread `t`. -/
def Sys.Reports (s : Sys) (c t : Ptr) : Prop :=
  ∃ success, s.pc c = .found t (.started success) ∨ s.pc c = .loadUp t success

/-- `exec` reports the outcome of the `load` of its own child. -/
structure ExecExact (s : Sys) : Prop where
  /-- It returns the tid of its child if that has been loaded. -/
  loaded : ∀ p result c, s.pc p = .execReturn result (some c) →
    (s.past c).loaded = some true → result = s.tid c
  /-- Otherwise it returns -1. -/
  otherwise : ∀ p result new, s.pc p = .execReturn result new →
    (∀ c, new = some c → (s.past c).loaded ≠ some true) → result = -1
  /-- A child reports to the thread that made it. -/
  reports : ∀ c t, s.Reports c t → s.maker c = some t
  /-- While `exec` is blocked, its child has yet to report. -/
  blocked : ∀ p pid new, s.pc p = .loadDown pid new → (s.thread p).loadSema = 0 →
    ∃ c, new = some c ∧ (s.pc c).InStart

/-! ## The invariant -/

/-- The points before a thread has reported. -/
def Pc.Starting (pc : Pc) : Prop := pc = .unborn ∨ pc.InStart

/-- The new thread of a call of `process_execute`, until its report has been taken. -/
def Pc.new : Pc → Option Ptr
  | .unblock _ new => some new
  | .search _ _ (.link _ _ new) => some new
  | .found _ (.link _ _ new) => some new
  | .record _ _ new => some new
  | .loadDown _ new => new
  | _ => none

/-- The system call a thread is in, if it is one of those that use `load_sema` or run beside it. -/
def Pc.InCall : Pc → Prop
  | .running => True
  | .fnCopy caller => caller = .syscall
  | .programName caller => caller = .syscall
  | .create caller => caller = .syscall
  | .unblock caller _ => caller = .syscall
  | .search _ _ (.link caller _ _) => caller = .syscall
  | .found _ (.link caller _ _) => caller = .syscall
  | .record caller _ _ => caller = .syscall
  | .loadDown _ _ => True
  | .loadTest _ _ => True
  | .execReturn _ _ => True
  | .wait caller _ => caller = .syscall
  | .waitDown caller _ _ => caller = .syscall
  | .waitMark caller _ _ => caller = .syscall
  | .waitReturn caller _ _ => caller = .syscall
  | _ => False

theorem Pc.Starting.new_none {pc : Pc} (h : pc.Starting) : pc.new = none := by
  rcases h with rfl | h
  · rfl
  · cases pc with
    | search _ _ after | found _ after => cases after <;> first | rfl | exact h.elim
    | _ => first | rfl | exact h.elim

/-- What `load` has returned, until it has been reported. -/
def Pc.loadResult : Pc → Option Bool
  | .loaded success => some success
  | .search _ _ (.started success) => some success
  | .found _ (.started success) => some success
  | .loadUp _ success => some success
  | _ => none

/-- `load_state` of `p` says how the `load` of `c` went. -/
def Sys.Outcome (s : Sys) (p c : Ptr) : Prop :=
  ∃ success, (s.past c).loaded = some success ∧
    (s.thread p).loadState = if success then .success else .fail

/-- The thread that made `c` waits for its report. -/
inductive Sys.Awaits (s : Sys) (q c : Ptr) : Prop where
  | exec (h : (s.pc q).new = some c)
  | wait (h : s.pc q = .wait .runTask (s.tid c)) (hr : s.tid c ∈ s.childTids q)
  | down (child : Nat) (r : ChildStatus) (h : s.pc q = .waitDown .runTask (s.tid c) child)
    (hc : (s.thread q).childThreadList[child]? = some r) (ht : r.childTid = s.tid c)

/-- What a thread knows of `load_sema` and `load_state` at a point. -/
structure Sys.Loads (s : Sys) (p : Ptr) (pc : Pc) : Prop where
  made : ∀ c, pc.new = some c → s.maker c = some p
  before : (pc.InCall ∨ pc.Starting) → (∀ c, pc.new = some c → (s.pc c).Starting) →
    (s.thread p).loadSema = 0
  after : pc.InCall → ∀ c, pc.new = some c → ¬ (s.pc c).Starting →
    (s.thread p).loadSema = 1 ∧ s.Outcome p c
  down : ∀ pid new, pc = .loadDown pid new →
    ∃ c, new = some c ∧ pid = s.tid c ∧ s.pc c ≠ .unborn
  test : ∀ pid new, pc = .loadTest pid new →
    ∃ c, new = some c ∧ pid = s.tid c ∧ s.pc c ≠ .unborn ∧ ¬ (s.pc c).Starting ∧ s.Outcome p c
  result : ∀ result new, pc = .execReturn result new →
    ∃ c success, new = some c ∧ s.pc c ≠ .unborn ∧ ¬ (s.pc c).Starting ∧
      (s.past c).loaded = some success ∧ result = if success then s.tid c else -1
  loaded : ∀ success, pc.loadResult = some success → (s.past p).loaded = some success
  state : ∀ t success, pc = .loadUp t success →
    s.pc t ≠ .unborn ∧ (s.thread t).loadState = if success then .success else .fail
  marked : ∀ caller tid child r c, pc = .waitMark caller tid child →
    (s.thread p).childThreadList[child]? = some r → s.tid c = r.childTid → s.pc c ≠ .unborn →
    ¬ (s.pc c).Starting

/-- The reports of all threads are where they should be. -/
structure Loading (s : Sys) : Prop where
  points : ∀ p, s.Loads p (s.pc p)
  started : ∀ c, (s.pc c).InStart → ∃ q, s.maker c = some q
  awaits : ∀ c q, s.maker c = some q → (s.pc c).Starting → s.Awaits q c
  unwoken : ∀ q c, ∀ r ∈ (s.thread q).childThreadList, s.tid c = r.childTid →
    (s.pc c).Starting → r.childWaitSema = 0 ∧ r.childWaited = false

/-! ## Steps that report nothing -/

section

variable {s s' : Sys} {p q : Ptr}

/-- The same threads have yet to report, and no `load_sema` but that of `p` changes. -/
structure Steady (s : Sys) (p : Ptr) (s' : Sys) : Prop extends Kin s p s' where
  sema : ∀ q, q ≠ p → (s'.thread q).loadSema = (s.thread q).loadSema
  loaded : ∀ q, s.pc q ≠ .unborn → q ≠ p ∨ ¬ (s.pc q).Starting →
    (s'.past q).loaded = (s.past q).loaded
  starting : ∀ c, (s'.pc c).Starting ↔ (s.pc c).Starting

/-- No `load_state` changes either. -/
structure Calm (s : Sys) (p : Ptr) (s' : Sys) : Prop extends Steady s p s' where
  state : ∀ t, s.pc t ≠ .unborn → (s'.thread t).loadState = (s.thread t).loadState

namespace Calm

theorem outcome (h : Calm s p s') {c : Ptr} (hq : s.pc q ≠ .unborn) (hc : ¬ (s.pc c).Starting)
    (ho : s.Outcome q c) : s'.Outcome q c := by
  obtain ⟨success, hl, hs⟩ := ho
  have hb : s.pc c ≠ .unborn := fun hn => hc (Or.inl hn)
  exact ⟨success, by rw [h.loaded c hb (Or.inr hc), hl], by rw [h.state q hq, hs]⟩

end Calm

namespace Steady

theorem record (hch : s'.childTids q = s.childTids q) {child : Nat} {r : ChildStatus}
    (hr : (s'.thread q).childThreadList[child]? = some r) :
    ∃ r₀, (s.thread q).childThreadList[child]? = some r₀ ∧ r₀.childTid = r.childTid := by
  have hmap := congrArg (·[child]?) hch
  simp only [Sys.childTids, List.getElem?_map, hr, Option.map_some] at hmap
  cases hr₀ : (s.thread q).childThreadList[child]? with
  | none => simp [hr₀] at hmap
  | some r₀ => exact ⟨r₀, rfl, by simpa [hr₀] using hmap.symm⟩

/-- What a thread knows stays true, if the step leaves its own fields alone. -/
theorem transport (h : Steady s p s') {pc : Pc}
    (hsema : (s'.thread q).loadSema = (s.thread q).loadSema)
    (hout : ∀ c, ¬ (s.pc c).Starting →
      pc.InCall ∧ pc.new = some c ∨ (∃ pid, pc = .loadTest pid (some c)) →
      s.Outcome q c → s'.Outcome q c)
    (hup : ∀ t success, pc = .loadUp t success → s.pc t ≠ .unborn →
      (s'.thread t).loadState = (s.thread t).loadState)
    (hch : (∃ caller tid child, pc = .waitMark caller tid child) →
      s'.childTids q = s.childTids q) (hld : (s'.past q).loaded = (s.past q).loaded)
    (hl : s.Loads q pc) : s'.Loads q pc where
  made c hc := h.keeps c q (hl.made c hc)
  before hp hc := by
    rw [hsema]
    exact hl.before hp fun c hn => (h.starting c).mp (hc c hn)
  after hp c hc hn := by
    have hn' : ¬ (s.pc c).Starting := fun hs => hn ((h.starting c).mpr hs)
    rw [hsema]
    exact ⟨(hl.after hp c hc hn').1, hout c hn' (Or.inl ⟨hp, hc⟩) (hl.after hp c hc hn').2⟩
  down pid new hp := by
    obtain ⟨c, hc, hpid, hu⟩ := hl.down pid new hp
    exact ⟨c, hc, by rw [(h.born c hu).2, hpid], (h.born c hu).1⟩
  test pid new hp := by
    obtain ⟨c, hc, hpid, hu, hn, ho⟩ := hl.test pid new hp
    exact ⟨c, hc, by rw [(h.born c hu).2, hpid], (h.born c hu).1,
      fun hs => hn ((h.starting c).mp hs), hout c hn (Or.inr ⟨pid, hc ▸ hp⟩) ho⟩
  result r new hp := by
    obtain ⟨c, success, hc, hu, hn, ho, hr⟩ := hl.result r new hp
    exact ⟨c, success, hc, (h.born c hu).1, fun hs => hn ((h.starting c).mp hs),
      by rw [h.loaded c hu (Or.inr hn), ho], by rw [(h.born c hu).2, hr]⟩
  loaded success hp := by
    rw [hld]
    exact hl.loaded success hp
  state t success hp := by
    obtain ⟨ht, hs⟩ := hl.state t success hp
    exact ⟨(h.born t ht).1, by rw [hup t success hp ht, hs]⟩
  marked caller tid child r c hp hr ht hu := by
    obtain ⟨r₀, hr₀, htid⟩ := record (hch ⟨caller, tid, child, hp⟩) hr
    rw [h.starting]
    by_cases huc : s.pc c = .unborn
    · refine absurd ?_ (h.stranger c huc q)
      rw [ht, ← htid]
      exact List.mem_map_of_mem (List.mem_of_getElem? hr₀)
    · rw [(h.born c huc).2] at ht
      exact hl.marked caller tid child r₀ c hp hr₀ (ht.trans htid.symm) huc

end Steady

theorem Kin.awaits (h : Kin s p s') (hq : q ≠ p) {c : Ptr}
    (ht : Tree s) (hm : s.maker c = some q) (ha : s.Awaits q c) : s'.Awaits q c := by
  have hb := ht.makers c q hm
  have hpc : s'.pc q = s.pc q := (h.pc q hq).resolve_right fun hn => hb hn.1
  cases ha with
  | exec hn => exact .exec (by rw [hpc, hn])
  | wait hn hr =>
    have hu := ht.recorded_born hr
    rw [← (h.born c hu).2] at hn hr
    exact .wait (by rw [hpc, hn]) (by rw [h.childTids q hq]; exact hr)
  | down child r hn hc htid =>
    have hr : s.tid c ∈ s.childTids q := by
      rw [← htid]
      exact List.mem_map_of_mem (List.mem_of_getElem? hc)
    have hu := ht.recorded_born hr
    have hmap := congrArg (·[child]?) (h.childTids q hq)
    simp only [Sys.childTids, List.getElem?_map, hc, Option.map_some] at hmap
    cases hr' : (s'.thread q).childThreadList[child]? with
    | none => simp [hr'] at hmap
    | some r' =>
      rw [hr', Option.map_some, Option.some.injEq] at hmap
      rw [← (h.born c hu).2] at hn htid
      exact .down child r' (by rw [hpc, hn]) hr' (hmap.trans htid)

/-- What a thread knows stays true, if the step leaves its own fields alone. -/
theorem Calm.transport (h : Calm s p s') {pc : Pc} (hb : s.pc q ≠ .unborn)
    (hsema : (s'.thread q).loadSema = (s.thread q).loadSema)
    (hch : (∃ caller tid child, pc = .waitMark caller tid child) → s'.childTids q = s.childTids q)
    (hld : (s'.past q).loaded = (s.past q).loaded) (hl : s.Loads q pc) : s'.Loads q pc :=
  h.toSteady.transport hsema (fun _ hn _ => h.outcome hb hn) (fun t _ _ => h.state t) hch hld hl

/-- A step after which the same threads have yet to report. -/
theorem Loading.steady (hl : Loading s) (ht : Tree s) (h : Steady s p s') (hp : s.pc p ≠ .unborn)
    (hpts : ∀ q, q ≠ p → s.pc q ≠ .unborn → s'.Loads q (s.pc q)) (hme : s'.Loads p (s'.pc p))
    (haw : ∀ c, s'.maker c = some p → (s'.pc c).Starting → s'.Awaits p c)
    (hun : ∀ q c, ∀ r ∈ (s'.thread q).childThreadList, s'.tid c = r.childTid →
      (s.pc c).Starting → r.childWaitSema = 0 ∧ r.childWaited = false) : Loading s' where
  points q := by
    by_cases hq : q = p
    · rw [hq]
      exact hme
    · by_cases hb : s.pc q = .unborn
      · -- a thread that has done nothing, or has just been made ready
        have hz : (s'.thread q).loadSema = 0 := by
          rw [h.sema q hq]
          exact (hl.points q).before (Or.inr (Or.inl hb)) (by simp [hb, Pc.new])
        have hpc : s'.pc q = .unborn ∨ s'.pc q = .load := by
          rcases h.pc q hq with hpc | ⟨-, hpc⟩
          · exact Or.inl (hpc.trans hb)
          · exact Or.inr hpc.1
        constructor <;> rcases hpc with hpc | hpc <;>
          simp [hpc, Pc.new, hz, Pc.InCall, Pc.loadResult]
      · rw [(h.pc q hq).resolve_right fun hn => hb hn.1]
        exact hpts q hq hb
  started c hs := by
    have hmk : ∃ q, s.maker c = some q := by
      rcases (h.starting c).mp (Or.inr hs) with hu | hs'
      · by_cases hc : c = p
        · exact absurd (hc ▸ hu) hp
        · rcases h.pc c hc with hpc | ⟨-, -, hm⟩
          · rw [hpc, hu] at hs
            exact hs.elim
          · exact ⟨p, hm⟩
      · exact hl.started c hs'
    obtain ⟨q, hm⟩ := hmk
    exact ⟨q, h.keeps c q hm⟩
  awaits c q hm hs := by
    by_cases hq : q = p
    · rw [hq] at hm ⊢
      exact haw c hm hs
    · have hm' := h.maker c q hq hm
      exact h.toKin.awaits hq ht hm' (hl.awaits c q hm' ((h.starting c).mp hs))
  unwoken q c r hr htid hs := hun q c r hr htid ((h.starting c).mp hs)

/-- A step that reports nothing keeps what it leaves alone. -/
theorem Loading.calm (hl : Loading s) (ht : Tree s) (h : Calm s p s') (hp : s.pc p ≠ .unborn)
    (hme : s'.Loads p (s'.pc p))
    (haw : ∀ c, s'.maker c = some p → (s'.pc c).Starting → s'.Awaits p c)
    (hun : ∀ q c, ∀ r ∈ (s'.thread q).childThreadList, s'.tid c = r.childTid →
      (s.pc c).Starting → r.childWaitSema = 0 ∧ r.childWaited = false) : Loading s' :=
  hl.steady ht h.toSteady hp (fun q hq hb => h.transport hb (h.sema q hq)
    (fun _ => h.childTids q hq) (h.loaded q hb (Or.inl hq)) (hl.points q)) hme haw hun

/-- The semaphores and marks of all records are as before. -/
theorem Loading.unwoken_same (hl : Loading s) (h : Kin s p s')
    (hr : ∀ q, ∀ r' ∈ (s'.thread q).childThreadList, ∃ r ∈ (s.thread q).childThreadList,
      r'.childTid = r.childTid ∧ r'.childWaitSema = r.childWaitSema ∧
        r'.childWaited = r.childWaited) :
    ∀ q c, ∀ r ∈ (s'.thread q).childThreadList, s'.tid c = r.childTid →
      (s.pc c).Starting → r.childWaitSema = 0 ∧ r.childWaited = false := by
  intro q c r' hr' htid hs
  obtain ⟨r, hin, ht', hsem, hw⟩ := hr q r' hr'
  rw [hsem, hw]
  exact hl.unwoken q c r hin (h.recorded hin (htid.trans ht')).2 hs

theorem Step.sema_other (h : Step s p s') (ht : Tree s) (hl : Loading s)
    (hr : ∀ t, ¬ s.Reports p t) (hq : q ≠ p) :
    (s'.thread q).loadSema = (s.thread q).loadSema := by
  cases h with
  | create hp =>
    by_cases hn : q = s.created
    · have hu := (ht.fresh q (Nat.le_of_eq hn.symm)).1
      rw [(hl.points q).before (Or.inr (Or.inl hu)) (by simp [hu, Pc.new])]
      simp [hn, initThread]
    · simp [Sys.setThread_other _ _ hn]
  | loadUp hp | loadUpFail hp => exact absurd ⟨_, Or.inr hp⟩ (hr _)
  | unblock | link | record | loadDown | loadState | waitDown | waitMark | exit | wake | release =>
    simp only [Sys.goto_thread, Sys.setPast_thread, Sys.setThread_thread]
    grind
  | _ => rfl

theorem Step.state_other (h : Step s p s') (ht : Tree s) (hr : ∀ t, ¬ s.Reports p t)
    (hq : s.pc q ≠ .unborn) : (s'.thread q).loadState = (s.thread q).loadState := by
  cases h with
  | create hp =>
    have hn : q ≠ s.created := fun hn => hq (ht.fresh q (Nat.le_of_eq hn.symm)).1
    simp [Sys.setThread_other _ _ hn]
  | loadState hp => exact absurd ⟨_, Or.inl hp⟩ (hr _)
  | unblock | link | record | loadDown | loadUp | loadUpFail | waitDown | waitMark | exit | wake
  | release =>
    simp only [Sys.goto_thread, Sys.setPast_thread, Sys.setThread_thread]
    grind
  | _ => rfl

theorem Step.loaded_other (h : Step s p s') (ht : Tree s) (hb : s.pc q ≠ .unborn)
    (hq : q ≠ p ∨ ¬ (s.pc q).Starting) : (s'.past q).loaded = (s.past q).loaded := by
  cases h with
  | create hp =>
    have hn : q ≠ s.created := fun hn => hb (ht.fresh q (Nat.le_of_eq hn.symm)).1
    simp [Sys.setPast_other _ _ hn]
  | load success hp =>
    have hqp : q ≠ p := by
      rintro rfl
      rw [hp] at hq
      exact hq.elim (fun hn => hn rfl) fun hn => hn (Or.inr trivial)
    simp [Sys.setPast_other _ _ hqp]
  | finish | callExit | pageFault | kill | record | execReturn | loadFault | loadUpFail
  | waitReturn =>
    simp only [Sys.goto_past, Sys.setPast_past, Sys.setThread_past]
    grind
  | _ => rfl

theorem Step.starting_iff (h : Step s p s') (ht : Tree s) (hr : ∀ t, ¬ s.Reports p t)
    (hf : s'.pc p ≠ .faulted) (c : Ptr) : (s'.pc c).Starting ↔ (s.pc c).Starting := by
  by_cases hc : c = p
  · rw [hc]
    cases h with
    | @noFnCopy caller hp | @noProgramName caller hp | @noCreate caller hp
    | @noRecord caller _ _ hp | @record caller _ _ hp =>
      rw [Sys.goto_pc_self, hp]
      cases caller <;> simp [afterExecute, Pc.Starting, Pc.InStart]
    | @waitReturn caller _ _ hp =>
      rw [Sys.goto_pc_self, hp]
      cases caller <;> simp [afterWait, Pc.Starting, Pc.InStart]
    | @searchFound _ _ after hp | @searchNext _ _ _ after hp =>
      rw [Sys.goto_pc_self, hp]
      cases after <;> simp [Pc.Starting, Pc.InStart]
    | loadState hp => exact absurd ⟨_, Or.inl hp⟩ (hr _)
    | loadUp hp | loadUpFail hp => exact absurd ⟨_, Or.inr hp⟩ (hr _)
    | loadFault => exact absurd (Sys.goto_pc_self ..) hf
    | runTask hp | finish hp | exec hp | callWait _ hp | callExit _ _ hp | pageFault _ hp | kill hp
    | fnCopy hp | programName hp | create hp | unblock hp | link hp | loadDown hp | loadTest hp
    | execReturn hp | load _ hp | loaded hp | faulted hp | waitNone hp | waitAgain hp | waitFound hp
    | waitDown hp | waitMark hp | exit hp | leave hp | childless hp | wake hp | release hp
    | remove hp =>
      rw [Sys.goto_pc_self, hp]
      simp [Pc.Starting, Pc.InStart]
  · rcases (h.kin ht).pc c hc with hpc | ⟨hu, hl, -⟩
    · rw [hpc]
    · rw [hu, hl]
      simp [Pc.Starting, Pc.InStart]

theorem Step.calm (h : Step s p s') (ht : Tree s) (hl : Loading s) (hr : ∀ t, ¬ s.Reports p t)
    (hf : s'.pc p ≠ .faulted) : Calm s p s' :=
  { h.kin ht with
    sema := fun _ hq => h.sema_other ht hl hr hq
    loaded := fun _ hb hq => h.loaded_other ht hb hq
    starting := h.starting_iff ht hr hf
    state := fun _ hq => h.state_other ht hr hq }

/-! ## Every step -/

/-- The points where a thread knows nothing but whether its `load_sema` is 0. -/
def Pc.Plain : Pc → Prop
  | .unblock _ _ => False
  | .record _ _ _ => False
  | .search _ _ (.link _ _ _) => False
  | .search _ _ (.started _) => False
  | .found _ (.link _ _ _) => False
  | .found _ (.started _) => False
  | .loadDown _ _ => False
  | .loadTest _ _ => False
  | .execReturn _ _ => False
  | .loaded _ => False
  | .faulted => False
  | .loadUp _ _ => False
  | .waitMark _ _ _ => False
  | _ => True

theorem Sys.Loads.plain {pc : Pc} (h : pc.Plain)
    (hz : pc.InCall ∨ pc.Starting → (s.thread p).loadSema = 0) : s.Loads p pc := by
  have hn : pc.new = none ∧ pc.loadResult = none := by
    cases pc with
    | search _ _ after | found _ after => cases after <;> first | exact ⟨rfl, rfl⟩ | exact h.elim
    | _ => first | exact ⟨rfl, rfl⟩ | exact h.elim
  constructor
  case made | after => simp [hn.1]
  case before => exact fun hp _ => hz hp
  case loaded => simp [hn.2]
  case down | test | result | state =>
    rintro _ _ rfl
    exact h.elim
  case marked =>
    rintro _ _ _ _ _ rfl
    exact h.elim

/-- The points of `process_execute` after a thread has been made. -/
def Pc.Making : Pc → Prop
  | .unblock _ _ => True
  | .record _ _ _ => True
  | .search _ _ (.link _ _ _) => True
  | .found _ (.link _ _ _) => True
  | _ => False

theorem Sys.Loads.making {pc pc' : Pc} (h : s.Loads p pc) (hm : pc'.Making)
    (hn : pc'.new = pc.new) (hc : pc'.InCall → pc.InCall) : s.Loads p pc' := by
  have hs : ¬ pc'.Starting ∧ pc'.loadResult = none := by
    cases pc' with
    | search _ _ after | found _ after =>
      cases after <;> first | exact hm.elim | simp [Pc.Starting, Pc.InStart, Pc.loadResult]
    | _ => first | exact hm.elim | simp [Pc.Starting, Pc.InStart, Pc.loadResult]
  constructor
  case made => exact fun c hc => h.made c (hn ▸ hc)
  case before =>
    exact fun hp hq => h.before (Or.inl (hc (hp.resolve_right hs.1))) fun c hc => hq c (hn.trans hc)
  case after => exact fun hp c hq => h.after (hc hp) c (hn ▸ hq)
  case loaded => simp [hs.2]
  case down | test | result | state =>
    rintro _ _ rfl
    exact hm.elim
  case marked =>
    rintro _ _ _ _ _ rfl
    exact hm.elim

/-- The points where a thread makes no thread, waits for no report and makes none. -/
def Pc.Idle : Pc → Prop
  | .create _ => False
  | .unblock _ _ => False
  | .record _ _ _ => False
  | .search _ _ (.link _ _ _) => False
  | .found _ (.link _ _ _) => False
  | .found _ (.started _) => False
  | .loadUp _ _ => False
  | .loadDown _ _ => False
  | .wait caller _ => caller = .syscall
  | .waitDown caller _ _ => caller = .syscall
  | _ => True

namespace Loading

/-- A thread that does not wait for a report has no child that has yet to make one. -/
theorem no_child (hl : Loading s) {pc : Pc} (hp : s.pc p = pc) (hn : pc.new = none)
    (hw : ∀ tid, pc ≠ .wait .runTask tid) (hd : ∀ tid child, pc ≠ .waitDown .runTask tid child)
    (c : Ptr) (hm : s.maker c = some p) : ¬ (s.pc c).Starting := by
  intro hs
  cases hl.awaits c p hm hs with
  | exec h =>
    rw [hp, hn] at h
    cases h
  | wait h => exact hw _ (hp.symm.trans h)
  | down child _ h => exact hd _ child (hp.symm.trans h)

theorem sema_zero (hl : Loading s) {c : Pc} (hp : s.pc p = c) (hc : c.InCall)
    (hn : c.new = none) : (s.thread p).loadSema = 0 := by
  subst hp
  exact (hl.points p).before (Or.inl hc) (by simp [hn])

end Loading

theorem Pc.Idle.no_report {pc : Pc} (h : pc.Idle) (hp : s.pc p = pc) (t : Ptr) :
    ¬ s.Reports p t := by
  rintro ⟨b, hb | hb⟩ <;> rw [hp] at hb <;> subst hb <;> exact h

theorem Pc.Idle.no_child {pc : Pc} (h : pc.Idle) (hl : Loading s) (hp : s.pc p = pc) (c : Ptr)
    (hm : s.maker c = some p) : ¬ (s.pc c).Starting := by
  refine hl.no_child hp ?_ ?_ ?_ c hm
  · cases pc with
    | search _ _ after | found _ after => cases after <;> first | rfl | exact h.elim
    | _ => first | rfl | exact h.elim
  · rintro tid rfl
    cases h
  · rintro tid child rfl
    cases h

theorem Pc.Idle.not_create {pc : Pc} (h : pc.Idle) (hp : s.pc p = pc) (caller : Caller) :
    s.pc p ≠ .create caller := by
  rintro hn
  rw [hp] at hn
  subst hn
  exact h

theorem Pc.Plain.unfaulted {pc : Pc} (h : pc.Plain) (hp : s.pc p = pc) : s.pc p ≠ .faulted := by
  rintro hn
  rw [hp] at hn
  subst hn
  exact h

/-- A step between points where next to nothing is known. -/
theorem Loading.plain (hl : Loading s) (ht : Tree s) (h : Step s p s') {pc pc' : Pc}
    (hp : s.pc p = pc) (hi : pc.Idle) (hp' : s'.pc p = pc') (hpl : pc'.Plain)
    (hz : pc'.InCall ∨ pc'.Starting → (s'.thread p).loadSema = 0)
    (hr : ∀ q, ∀ r' ∈ (s'.thread q).childThreadList, ∃ r ∈ (s.thread q).childThreadList,
      r'.childTid = r.childTid ∧ r'.childWaitSema = r.childWaitSema ∧
        r'.childWaited = r.childWaited) : Loading s' := by
  have hc := h.calm ht hl (hi.no_report hp) (hpl.unfaulted hp')
  refine hl.calm ht hc h.born (by rw [hp']; exact Sys.Loads.plain hpl hz) ?_ (hl.unwoken_same hc.toKin hr)
  intro c hm hs
  rw [h.maker_eq (hi.not_create hp) c] at hm
  exact absurd ((hc.starting c).mp hs) (hi.no_child hl hp c hm)

theorem Pc.Making.no_report {pc : Pc} (h : pc.Making) (hp : s.pc p = pc) (t : Ptr) :
    ¬ s.Reports p t := by
  rintro ⟨b, hb | hb⟩ <;> rw [hp] at hb <;> subst hb <;> exact h

theorem Pc.Making.not_create {pc : Pc} (h : pc.Making) (hp : s.pc p = pc) (caller : Caller) :
    s.pc p ≠ .create caller := by
  rintro hn
  rw [hp] at hn
  subst hn
  exact h

theorem Pc.Making.unfaulted {pc : Pc} (h : pc.Making) (hp : s.pc p = pc) : s.pc p ≠ .faulted := by
  rintro hn
  rw [hp] at hn
  subst hn
  exact h

/-- Only the new thread of a call of `process_execute` can have a report to make. -/
theorem Pc.Making.child {pc : Pc} (h : pc.Making) (hl : Loading s) (hp : s.pc p = pc) {c : Ptr}
    (hm : s.maker c = some p) (hs : (s.pc c).Starting) : pc.new = some c := by
  cases hl.awaits c p hm hs with
  | exec hn => exact hp ▸ hn
  | wait hn =>
    rw [hp] at hn
    subst hn
    exact h.elim
  | down child _ hn =>
    rw [hp] at hn
    subst hn
    exact h.elim

/-- A step inside `process_execute`. -/
theorem Loading.making (hl : Loading s) (ht : Tree s) (h : Step s p s') {pc pc' : Pc}
    (hp : s.pc p = pc) (hi : pc.Making) (hp' : s'.pc p = pc') (hi' : pc'.Making)
    (hn : pc'.new = pc.new) (hcall : pc'.InCall → pc.InCall)
    (hsema : (s'.thread p).loadSema = (s.thread p).loadSema)
    (hld : (s'.past p).loaded = (s.past p).loaded)
    (hr : ∀ q, ∀ r' ∈ (s'.thread q).childThreadList, ∃ r ∈ (s.thread q).childThreadList,
      r'.childTid = r.childTid ∧ r'.childWaitSema = r.childWaitSema ∧
        r'.childWaited = r.childWaited) : Loading s' := by
  have hc := h.calm ht hl (hi.no_report hp) (hi'.unfaulted hp')
  have hmk := h.maker_eq (hi.not_create hp)
  have hold : s'.Loads p pc := by
    refine hc.transport h.born hsema ?_ hld (hp ▸ hl.points p)
    rintro ⟨caller, tid, child, rfl⟩
    exact hi.elim
  refine hl.calm ht hc h.born (by rw [hp']; exact hold.making hi' hn hcall) ?_ (hl.unwoken_same hc.toKin hr)
  intro c hm hs
  refine .exec ?_
  rw [hp', hn]
  exact hi.child hl hp (hmk c ▸ hm) ((hc.starting c).mp hs)

/-! ## The steps that have to do with reports -/

namespace Loading

theorem create (hl : Loading s) (ht : Tree s) {caller : Caller} (hp : s.pc p = .create caller) :
    Loading (afterCreate s p caller) := by
  have hstep : Step s p (afterCreate s p caller) := .create hp
  have hc := hstep.calm ht hl (by rintro t ⟨b, hb | hb⟩ <;> simp [hp] at hb)
    (by simp [afterCreate])
  have hpn : p ≠ s.created := Nat.ne_of_lt (ht.lt_created (by simp [hp]))
  have hself : (afterCreate s p caller).pc p = .unblock caller s.created := Sys.goto_pc_self ..
  have hnew : (afterCreate s p caller).pc s.created = .unborn :=
    (Sys.goto_pc_other _ _ (Ne.symm hpn)).trans (ht.fresh _ (Nat.le_refl _)).1
  have hmk : (afterCreate s p caller).maker s.created = some p := by
    simp [afterCreate, Sys.maker, Past.new]
  refine hl.calm ht hc (by simp [hp]) ?_ ?_ (hl.unwoken_same hc.toKin ?_)
  · rw [hself]
    constructor
    case made =>
      rintro c hn
      cases hn
      exact hmk
    case before =>
      intro hin _
      have hz := hl.sema_zero (c := .create caller) hp
        (hin.resolve_right (by simp [Pc.Starting, Pc.InStart])) rfl
      simpa [afterCreate, Sys.setThread_other _ _ hpn] using hz
    case after =>
      rintro - c hn hs
      cases hn
      exact absurd (Or.inl hnew) hs
    all_goals simp [Pc.loadResult]
  · intro c hm hs
    by_cases hcn : c = s.created
    · exact .exec (by rw [hself, hcn]; rfl)
    · rw [(ht.afterCreate_fields caller c).2.2.2 hcn] at hm
      exact absurd ((hc.starting c).mp hs) (hl.no_child hp rfl (by simp) (by simp) c hm)
  · intro q r hr
    refine ⟨r, ?_, rfl, rfl, rfl⟩
    by_cases hqn : q = s.created
    · simp [afterCreate, hqn, initThread] at hr
    · simpa [afterCreate, Sys.setThread_other _ _ hqn] using hr

theorem record (hl : Loading s) (ht : Tree s) {caller : Caller} {tid : Tid} {new : Ptr}
    (hp : s.pc p = .record caller tid new) : Loading (afterRecord s p caller tid new) := by
  have hstep : Step s p (afterRecord s p caller tid new) := .record hp
  have hc := hstep.calm ht hl (Pc.Making.no_report (show (Pc.record caller tid new).Making from trivial) hp)
    (by cases caller <;> simp [afterRecord, afterExecute])
  have hmk := hstep.maker_eq (by simp [hp])
  have hat := ht.points p
  rw [hp] at hat
  obtain ⟨hm, htid, hz, -, -⟩ := hat
  have hu : s.pc new ≠ .unborn := fun hn => hz (htid ▸ ht.unborn new hn)
  have hself : (afterRecord s p caller tid new).pc p = afterExecute tid (some new) caller :=
    Sys.goto_pc_self ..
  have hold : (afterRecord s p caller tid new).Loads p (.record caller tid new) := by
    refine hc.transport (by simp [hp]) ?_ (by simp) ?_ (hp ▸ hl.points p)
    · simp [afterRecord]
    · simp [afterRecord]
  have htid' : (afterRecord s p caller tid new).tid new = tid := (hc.born new hu).2.trans htid
  refine hl.calm ht hc (by simp [hp]) ?_ ?_ ?_
  · rw [hself]
    cases caller with
    | runTask => exact Sys.Loads.plain trivial (by simp [afterExecute, Pc.InCall, Pc.Starting, Pc.InStart])
    | syscall =>
      constructor
      case made => exact hold.made
      case before => exact fun _ hs => hold.before (Or.inl rfl) hs
      case after => exact fun _ => hold.after rfl
      case down =>
        rintro pid new' hd
        cases hd
        exact ⟨new, rfl, htid'.symm, (hc.born new hu).1⟩
      all_goals simp [afterExecute, Pc.loadResult]
  · intro c hmc hs
    have hch := Pc.Making.child (show (Pc.record caller tid new).Making from trivial) hl hp (hmk c ▸ hmc)
      ((hc.starting c).mp hs)
    cases hch
    cases caller with
    | syscall => exact .exec (by rw [hself]; rfl)
    | runTask =>
      refine .wait (by rw [hself, htid']; rfl) ?_
      rw [htid', afterRecord_childTids]
      simp
  · intro q c r hr htid hs
    by_cases hq : q = p
    · simp only [hq, afterRecord, Sys.goto_thread, Sys.setPast_thread, Sys.setThread_self,
        List.mem_append, List.mem_singleton] at hr
      rcases hr with hr | rfl
      · exact hl.unwoken p c r hr (hc.toKin.recorded hr htid).2 hs
      · exact ⟨rfl, rfl⟩
    · have hr' : r ∈ (s.thread q).childThreadList := by
        simpa [afterRecord, Sys.setThread_other _ _ hq] using hr
      exact hl.unwoken q c r hr' (hc.toKin.recorded hr' htid).2 hs

theorem loadDown (hl : Loading s) (ht : Tree s) {pid : Tid} {new : Option Ptr}
    (hp : s.pc p = .loadDown pid new) (hv : (s.thread p).loadSema ≠ 0) :
    Loading ((s.setThread p fun t => { t with loadSema := t.loadSema - 1 }).goto p
      (.loadTest pid new)) := by
  have hstep := Step.loadDown hp hv
  have hc := hstep.calm ht hl (by rintro t ⟨b, hb | hb⟩ <;> simp [hp] at hb) (by simp)
  have hmk := hstep.maker_eq (by simp [hp])
  have hat := hl.points p
  rw [hp] at hat
  obtain ⟨c, rfl, hpid, hu⟩ := hat.down pid new rfl
  -- the child has reported, or `load_sema` would be 0
  have hns : ¬ (s.pc c).Starting := by
    intro hs
    refine hv (hat.before (Or.inl trivial) fun c' hc' => ?_)
    cases hc'
    exact hs
  obtain ⟨hone, hout⟩ := hat.after trivial c rfl hns
  refine hl.calm ht hc (by simp [hp]) ?_ ?_ (hl.unwoken_same hc.toKin ?_)
  · rw [Sys.goto_pc_self]
    constructor
    case before => simp [hone]
    case test =>
      rintro pid' new' hn
      cases hn
      exact ⟨c, rfl, hpid.trans (hc.born c hu).2.symm, (hc.born c hu).1,
        fun hs => hns ((hc.starting c).mp hs), hc.outcome (by simp [hp]) hns hout⟩
    all_goals simp [Pc.loadResult, Pc.new]
  · intro c' hm hs
    have hs' := (hc.starting c').mp hs
    cases hl.awaits c' p (hmk c' ▸ hm) hs' with
    | exec hn =>
      rw [hp] at hn
      cases hn
      exact absurd hs' hns
    | wait hn => simp [hp] at hn
    | down _ _ hn => simp [hp] at hn
  · intro q r hr
    refine ⟨r, ?_, rfl, rfl, rfl⟩
    simp only [Sys.goto_thread, Sys.setThread_thread] at hr
    grind

theorem loadTest (hl : Loading s) (ht : Tree s) {pid : Tid} {new : Option Ptr}
    (hp : s.pc p = .loadTest pid new) :
    Loading (s.goto p (.execReturn (if (s.thread p).loadState = .success then pid else -1) new)) := by
  have hstep := Step.loadTest hp
  have hi : Pc.Idle (.loadTest pid new) := trivial
  have hc := hstep.calm ht hl (hi.no_report hp) (by simp)
  have hat := hl.points p
  rw [hp] at hat
  obtain ⟨c, rfl, hpid, hu, hns, success, hld, hst⟩ := hat.test pid new rfl
  refine hl.calm ht hc (by simp [hp]) ?_ ?_ (hl.unwoken_same hc.toKin fun q r hr => ⟨r, hr, rfl, rfl, rfl⟩)
  · rw [Sys.goto_pc_self]
    constructor
    case before => exact fun _ _ => hl.sema_zero hp trivial rfl
    case result =>
      rintro result new' hn
      cases hn
      refine ⟨c, success, rfl, (hc.born c hu).1, fun hs => hns ((hc.starting c).mp hs), hld, ?_⟩
      cases success with
      | true => exact (if_pos hst).trans hpid
      | false => exact if_neg (by simp [hst])
    all_goals simp [Pc.loadResult, Pc.new]
  · intro c' hm hs
    exact absurd ((hc.starting c').mp hs) (hi.no_child hl hp c' hm)

/-- A step of a new thread on its way to its report. -/
theorem onTheWay (hl : Loading s) (ht : Tree s) (h : Step s p s') {pc pc' : Pc} {success : Bool}
    (hp : s.pc p = pc) (hi : pc.Idle) (hst : pc.Starting) (hp' : s'.pc p = pc')
    (hst' : pc'.Starting) (hres : pc'.loadResult = some success)
    (hnup : ∀ t b, pc' ≠ .loadUp t b) (hth : s'.thread = s.thread)
    (hld : (s'.past p).loaded = some success) : Loading s' := by
  have hc := h.calm ht hl (hi.no_report hp) (by rintro hf; simp [← hp', hf, Pc.Starting, Pc.InStart] at hst')
  refine hl.calm ht hc h.born ?_ ?_ (hl.unwoken_same hc.toKin fun q r hr => ⟨r, hth ▸ hr, rfl, rfl, rfl⟩)
  · rw [hp']
    have hz : (s'.thread p).loadSema = 0 := by
      rw [hth]
      have hat := hl.points p
      rw [hp] at hat
      exact hat.before (Or.inr hst) (by simp [hst.new_none])
    constructor
    case made | after => simp [hst'.new_none]
    case before => exact fun _ _ => hz
    case loaded =>
      intro b hb
      rw [hres] at hb
      cases hb
      exact hld
    case state =>
      rintro t b rfl
      exact absurd rfl (hnup t b)
    case down | test | result =>
      rintro _ _ rfl
      simp [Pc.Starting, Pc.InStart] at hst'
    case marked =>
      rintro _ _ _ _ _ rfl
      simp [Pc.Starting, Pc.InStart] at hst'
  · intro c hm hs
    rw [h.maker_eq (hi.not_create hp) c] at hm
    exact absurd ((hc.starting c).mp hs) (hi.no_child hl hp c hm)

/-- A child that reports does so to the thread that made it, which waits for that. -/
theorem reports (hl : Loading s) (ht : Tree s) {c t : Ptr} (hr : s.Reports c t) :
    s.maker c = some t ∧ s.Awaits t c := by
  have hs : (s.pc c).InStart ∧ ¬ (s.pc c).Young := by
    obtain ⟨b, hb | hb⟩ := hr <;> rw [hb] <;> exact ⟨trivial, id⟩
  obtain ⟨q, hm⟩ := hl.started c hs.1
  have haw := hl.awaits c q hm (Or.inr hs.1)
  have hd : s.pc q ≠ .dead := by
    intro hd
    cases haw with
    | exec h | wait h | down _ _ h => simp [hd, Pc.new] at h
  have hq := (ht.listed q).mpr ⟨ht.lt_created (ht.makers c q hm), hd⟩
  have hat := ht.points c
  have hqt : t = q := by
    obtain ⟨b, hb | hb⟩ := hr <;> rw [hb] at hat
    · exact ht.only_parent hm hs.2 hq hat.2
    · exact ht.only_parent hm hs.2 hq hat
  rw [hqt]
  exact ⟨hm, haw⟩

/-- A thread waits for one report at a time. -/
theorem awaits_unique (ht : Tree s) {c c' : Ptr} (h : s.Awaits q c) (h' : s.Awaits q c')
    (hc : s.pc c ≠ .unborn) : c = c' := by
  have hz : s.tid c ≠ 0 := Int.ne_of_gt (ht.born c hc).1
  cases h with
  | exec h =>
    cases h' with
    | exec h' => exact Option.some.inj (h.symm.trans h')
    | wait h' | down _ _ h' => simp [h', Pc.new] at h
  | wait h =>
    cases h' with
    | exec h' => simp [h, Pc.new] at h'
    | wait h' =>
      have he := h.symm.trans h'
      rw [Pc.wait.injEq] at he
      exact ht.distinct c c' he.2 hz
    | down _ _ h' => simp [h'] at h
  | down _ _ h =>
    cases h' with
    | exec h' => simp [h, Pc.new] at h'
    | wait h' => simp [h'] at h
    | down _ _ h' =>
      have he := h.symm.trans h'
      rw [Pc.waitDown.injEq] at he
      exact ht.distinct c c' he.2.1 hz

/-- The parent is told how the `load` went. -/
theorem loadState (hl : Loading s) (ht : Tree s) {t : Ptr} {success : Bool}
    (hp : s.pc p = .found t (.started success)) :
    Loading ((s.setThread t fun r =>
      { r with loadState := if success then .success else .fail }).goto p (.loadUp t success)) := by
  have hstep := Step.loadState hp
  obtain ⟨hmk, haw⟩ := hl.reports ht ⟨success, Or.inl hp⟩
  have hps : (s.pc p).Starting := by rw [hp]; exact Or.inr trivial
  have hat := hl.points p
  rw [hp] at hat
  generalize hs' : (s.setThread t fun r =>
    { r with loadState := if success then .success else .fail }).goto p (.loadUp t success) = s'
    at hstep ⊢
  have hsema : ∀ q, (s'.thread q).loadSema = (s.thread q).loadSema := by
    intro q
    simp only [← hs', Sys.goto_thread, Sys.setThread_thread]
    grind
  have hpast : s'.past = s.past := hs' ▸ rfl
  have hself : s'.pc p = .loadUp t success := hs' ▸ Sys.goto_pc_self ..
  have hpc : ∀ q, q ≠ p → s'.pc q = s.pc q := fun q hq => hs' ▸ Sys.goto_pc_other _ _ hq
  have hst : ∀ c, (s'.pc c).Starting ↔ (s.pc c).Starting := by
    intro c
    by_cases hc : c = p
    · rw [hc, hself]
      exact iff_of_true (Or.inr trivial) hps
    · rw [hpc c hc]
  -- only the `load_state` of the parent is new, for which it waits
  have hsteady : Steady s p s' :=
    { hstep.kin ht with
      sema := fun q _ => hsema q
      loaded := fun q _ _ => by rw [hpast]
      starting := hst }
  refine hl.steady ht hsteady hstep.born ?_ ?_ ?_ (hl.unwoken_same hsteady.toKin ?_)
  · -- no other thread has a report for `t`, or has used the last one
    intro q hq _
    refine hsteady.transport (hsema q) ?_ ?_ (fun _ => hsteady.childTids q hq) (by rw [hpast])
      (hl.points q)
    · intro c hns hin hout
      by_cases hqt : q = t
      · refine absurd hps ?_
        rw [hqt] at hin
        cases haw with
        | exec h =>
          rcases hin with ⟨-, hn⟩ | ⟨pid, hn⟩
          · rw [h, Option.some.injEq] at hn
            exact hn ▸ hns
          · simp [hn, Pc.new] at h
        | wait h | down _ _ h => simp [h, Pc.InCall] at hin
      · obtain ⟨b, hb, hs⟩ := hout
        refine ⟨b, by rw [hpast, hb], ?_⟩
        simpa [← hs', Sys.setThread_other _ _ hqt] using hs
    · intro u b hb _
      by_cases hut : u = t
      · obtain ⟨-, haw'⟩ := hl.reports ht ⟨b, Or.inr hb⟩
        exact absurd (awaits_unique ht (hut ▸ haw') haw (by simp [hb])) hq
      · simp [← hs', Sys.setThread_other _ _ hut]
  · rw [hself]
    constructor
    case made | after => simp [Pc.new, Pc.InCall]
    case before =>
      rw [hsema]
      exact fun _ _ => hat.before (Or.inr (Or.inr trivial)) (by simp [Pc.new])
    case loaded =>
      rw [hpast]
      exact hat.loaded
    case state =>
      rintro u b hb
      cases hb
      refine ⟨(hsteady.born _ (ht.makers p t hmk)).1, ?_⟩
      simp [← hs']
    all_goals simp
  · intro c hm hs
    rw [hstep.maker_eq (by simp [hp]) c] at hm
    exact absurd ((hst c).mp hs) (hl.no_child hp rfl (by simp) (by simp) c hm)
  · intro q r hr
    refine ⟨r, ?_, rfl, rfl, rfl⟩
    simp only [← hs', Sys.goto_thread, Sys.setThread_thread] at hr
    grind

/-- The parent is woken. -/
theorem loadUp (hl : Loading s) (ht : Tree s) (h : Step s p s') {t : Ptr} {success : Bool}
    (hp : s.pc p = .loadUp t success) {pc' : Pc} (hp' : s'.pc p = pc') (hpl : pc'.Plain)
    (hst' : ¬ pc'.Starting)
    (hsema : ∀ q, (s'.thread q).loadSema = (s.thread q).loadSema + if q = t then 1 else 0)
    (hstate : ∀ q, (s'.thread q).loadState = (s.thread q).loadState)
    (hch : ∀ q, (s'.thread q).childThreadList = (s.thread q).childThreadList)
    (hld : ∀ q, (s'.past q).loaded = (s.past q).loaded) : Loading s' := by
  obtain ⟨hmk, haw⟩ := hl.reports ht ⟨success, Or.inr hp⟩
  have hps : (s.pc p).Starting := by rw [hp]; exact Or.inr trivial
  have hpt : p ≠ t := by
    rintro rfl
    cases haw with
    | exec hn | wait hn | down _ _ hn => simp [hp, Pc.new] at hn
  have hat := hl.points p
  rw [hp] at hat
  have hkin := h.kin ht
  -- the others that have yet to report are the same
  have hst : ∀ c, (s'.pc c).Starting ↔ c ≠ p ∧ (s.pc c).Starting := by
    intro c
    by_cases hc : c = p
    · rw [hc, hp']
      simp [hst']
    · rcases hkin.pc c hc with hpc | ⟨hu, hlo, -⟩
      · simp [hpc, hc]
      · simp [hu, hlo, hc, Pc.Starting, Pc.InStart]
  have hmaker := h.maker_eq (by simp [hp])
  refine ⟨fun q => ?_, fun c hs => ?_, fun c q hm hs => ?_, fun q c r hr htid hs => ?_⟩
  · by_cases hq : q = p
    · rw [hq, hp']
      refine Sys.Loads.plain hpl fun _ => ?_
      rw [hsema, if_neg hpt]
      exact hat.before (Or.inr (Or.inr trivial)) (by simp [Pc.new])
    · have hold := hl.points q
      rcases hkin.pc q hq with hpc | ⟨hu, hlo, -⟩
      · rw [hpc]
        -- what `t` waits for, if it is in a system call
        have hnew : q = t → (s.pc q).InCall ∨ (s.pc q).Starting → (s.pc q).new = some p := by
          rintro rfl hin
          cases haw with
          | exec hn => exact hn
          | wait hn | down _ _ hn => simp [hn, Pc.InCall, Pc.Starting, Pc.InStart] at hin
        have hout : ∀ c, s.Outcome q c → s'.Outcome q c := by
          rintro c ⟨b, hb, hs⟩
          exact ⟨b, by rw [hld, hb], by rw [hstate, hs]⟩
        constructor
        case made => exact fun c hc => hkin.keeps c q (hold.made c hc)
        case before =>
          intro hin hall
          by_cases hqt : q = t
          · exact absurd rfl ((hst p).mp (hall p (hnew hqt hin))).1
          · rw [hsema, if_neg hqt]
            exact hold.before hin fun c hc => ((hst c).mp (hall c hc)).2
        case after =>
          intro hin c hc hns
          by_cases hcp : c = p
          · have hqt : q = t := by
              have hm := hold.made c hc
              rw [hcp, hmk, Option.some.injEq] at hm
              exact hm.symm
            have hz : (s.thread q).loadSema = 0 := by
              refine hold.before (Or.inl hin) fun c' hc' => ?_
              rw [hc, Option.some.injEq] at hc'
              rw [← hc', hcp]
              exact hps
            refine ⟨by rw [hsema, if_pos hqt, hz], success, ?_, ?_⟩
            · rw [hld, hcp]
              exact hat.loaded success rfl
            · rw [hstate, hqt]
              exact (hat.state t success rfl).2
          · have hns' : ¬ (s.pc c).Starting := fun hs => hns ((hst c).mpr ⟨hcp, hs⟩)
            have hqt : q ≠ t := by
              intro hqt
              have hn := hnew hqt (Or.inl hin)
              rw [hc, Option.some.injEq] at hn
              exact hcp hn
            obtain ⟨hone, ho⟩ := hold.after hin c hc hns'
            exact ⟨by rw [hsema, if_neg hqt, hone], hout c ho⟩
        case down =>
          intro pid new hd
          obtain ⟨c, hc, hpid, hb⟩ := hold.down pid new hd
          exact ⟨c, hc, hpid.trans (hkin.born c hb).2.symm, (hkin.born c hb).1⟩
        case test =>
          intro pid new hd
          obtain ⟨c, hc, hpid, hb, hns, ho⟩ := hold.test pid new hd
          exact ⟨c, hc, hpid.trans (hkin.born c hb).2.symm, (hkin.born c hb).1,
            fun hs => hns ((hst c).mp hs).2, hout c ho⟩
        case result =>
          intro r new hd
          obtain ⟨c, b, hc, hb, hns, ho, hr⟩ := hold.result r new hd
          exact ⟨c, b, hc, (hkin.born c hb).1, fun hs => hns ((hst c).mp hs).2, by rw [hld, ho],
            by rw [(hkin.born c hb).2, hr]⟩
        case loaded =>
          rw [hld]
          exact hold.loaded
        case state =>
          intro u b hu
          obtain ⟨hb, hs⟩ := hold.state u b hu
          exact ⟨(hkin.born u hb).1, by rw [hstate, hs]⟩
        case marked =>
          intro caller tid child r c hw hr htid hb hs
          rw [hch] at hr
          obtain ⟨hb', htid'⟩ := hkin.recorded (List.mem_of_getElem? hr) htid
          exact hold.marked caller tid child r c hw hr htid' hb' ((hst c).mp hs).2
      · rw [hlo]
        refine Sys.Loads.plain trivial fun _ => ?_
        have hqt : q ≠ t := fun hqt => ht.makers p t hmk (hqt ▸ hu)
        rw [hsema, if_neg hqt]
        exact hold.before (Or.inr (Or.inl hu)) (by simp [hu, Pc.new])
  · obtain ⟨hc, hs'⟩ := (hst c).mp (Or.inr hs)
    rcases hkin.pc c hc with hpc | ⟨-, -, hm⟩
    · obtain ⟨q, hm⟩ := hl.started c (hpc ▸ hs)
      exact ⟨q, hkin.keeps c q hm⟩
    · exact ⟨p, hkin.keeps c p hm⟩
  · rw [hmaker] at hm
    obtain ⟨hc, hs'⟩ := (hst c).mp hs
    have ha := hl.awaits c q hm hs'
    have hq : q ≠ p := by
      rintro rfl
      cases ha with
      | exec hn | wait hn | down _ _ hn => simp [hp, Pc.new] at hn
    exact hkin.awaits hq ht hm ha
  · rw [hch] at hr
    exact hl.unwoken q c r hr (hkin.recorded hr htid).2 ((hst c).mp hs).2

/-- Whoever waits in `process_wait` for a report has a record that has not been touched. -/
theorem wait_child (hl : Loading s) {caller : Caller} {tid : Tid}
    (hp : s.pc p = .wait caller tid) {c : Ptr} (hm : s.maker c = some p)
    (hs : (s.pc c).Starting) : caller = .runTask ∧ tid = s.tid c ∧ tid ∈ s.childTids p ∧
      ∀ r ∈ (s.thread p).childThreadList, r.childTid = tid → r.childWaited = false := by
  cases hl.awaits c p hm hs with
  | exec hn => simp [hp, Pc.new] at hn
  | down _ _ hn => simp [hp] at hn
  | wait hn hr =>
    rw [hp, Pc.wait.injEq] at hn
    exact ⟨hn.1, hn.2, hn.2 ▸ hr,
      fun r hin ht => (hl.unwoken p c r hin (hn.2 ▸ ht).symm hs).2⟩

/-- `process_wait` returns at once. -/
theorem waitEnds (hl : Loading s) (ht : Tree s) {caller : Caller} {tid : Tid}
    (hp : s.pc p = .wait caller tid) (hstep : Step s p (s.goto p (.waitReturn caller tid (-1))))
    (hkid : ∀ c, s.maker c = some p → ¬ (s.pc c).Starting) :
    Loading (s.goto p (.waitReturn caller tid (-1))) := by
  have hc := hstep.calm ht hl (by rintro t ⟨b, hb | hb⟩ <;> simp [hp] at hb) (by simp)
  refine hl.calm ht hc hstep.born ?_ ?_ (hl.unwoken_same hc.toKin fun q r hr => ⟨r, hr, rfl, rfl, rfl⟩)
  · rw [Sys.goto_pc_self]
    refine Sys.Loads.plain trivial fun hin => ?_
    exact hl.sema_zero (c := .wait caller tid) hp
      (hin.resolve_right (by simp [Pc.Starting, Pc.InStart])) rfl
  · exact fun c hm hs => absurd ((hc.starting c).mp hs) (hkid c hm)

theorem waitFound (hl : Loading s) (ht : Tree s) {caller : Caller} {tid : Tid} {child : Nat}
    {r : ChildStatus} (hp : s.pc p = .wait caller tid)
    (hr : (s.thread p).childThreadList[child]? = some r) (htid : r.childTid = tid)
    (hstep : Step s p (s.goto p (.waitDown caller tid child))) :
    Loading (s.goto p (.waitDown caller tid child)) := by
  have hc := hstep.calm ht hl (by rintro t ⟨b, hb | hb⟩ <;> simp [hp] at hb) (by simp)
  refine hl.calm ht hc hstep.born ?_ ?_ (hl.unwoken_same hc.toKin fun q r hr => ⟨r, hr, rfl, rfl, rfl⟩)
  · rw [Sys.goto_pc_self]
    refine Sys.Loads.plain trivial fun hin => ?_
    exact hl.sema_zero (c := .wait caller tid) hp
      (hin.resolve_right (by simp [Pc.Starting, Pc.InStart])) rfl
  · intro c hm hs
    obtain ⟨rfl, hid, -, -⟩ := hl.wait_child hp hm ((hc.starting c).mp hs)
    exact .down child r (by rw [Sys.goto_pc_self, hid]; rfl) hr (htid.trans hid)

theorem waitDown (hl : Loading s) (ht : Tree s) {caller : Caller} {tid : Tid} {child : Nat}
    {r : ChildStatus} (hp : s.pc p = .waitDown caller tid child)
    (hr : (s.thread p).childThreadList[child]? = some r) (hv : r.childWaitSema ≠ 0) :
    Loading ((s.setThread p fun t => { t with
      childThreadList := t.childThreadList.set child
        { r with childWaitSema := r.childWaitSema - 1 } }).goto p (.waitMark caller tid child)) := by
  have hstep := Step.waitDown hp hr hv
  have hc := hstep.calm ht hl (by rintro t ⟨b, hb | hb⟩ <;> simp [hp] at hb) (by simp)
  have hmk := hstep.maker_eq (by simp [hp])
  -- the child has been through `process_exit`
  have hns : ∀ c, s.tid c = r.childTid → ¬ (s.pc c).Starting := fun c hid hs =>
    hv (hl.unwoken p c r (List.mem_of_getElem? hr) hid hs).1
  have hin := List.mem_of_getElem? hr
  refine hl.calm ht hc hstep.born ?_ ?_ ?_
  · rw [Sys.goto_pc_self]
    constructor
    case before =>
      intro hin _
      have hz := hl.sema_zero (c := .waitDown caller tid child) hp
        (hin.resolve_right (by simp [Pc.Starting, Pc.InStart])) rfl
      simpa using hz
    case marked =>
      intro caller' tid' child' r' c hw hr' hid _ hs
      cases hw
      have hlt := (List.getElem?_eq_some_iff.mp hr).1
      simp only [Sys.goto_thread, Sys.setThread_self, List.getElem?_set_self hlt,
        Option.some.injEq] at hr'
      rw [← hr'] at hid
      exact hns c (hc.toKin.recorded (r := r) hin hid).2 ((hc.starting c).mp hs)
    all_goals simp [Pc.new, Pc.loadResult]
  · intro c hm hs
    have hs' := (hc.starting c).mp hs
    cases hl.awaits c p (hmk c ▸ hm) hs' with
    | exec hn => simp [hp, Pc.new] at hn
    | wait hn => simp [hp] at hn
    | down child' r' hn hr' hid =>
      rw [hp, Pc.waitDown.injEq] at hn
      rw [← hn.2.2, hr, Option.some.injEq] at hr'
      exact absurd hs' (hns c (hr' ▸ hid.symm))
  · intro q c r' hr' hid hs
    by_cases hq : q = p
    · simp only [hq, Sys.goto_thread, Sys.setThread_self] at hr'
      rcases List.mem_or_eq_of_mem_set hr' with hr' | rfl
      · exact hl.unwoken p c r' hr' (hc.toKin.recorded hr' hid).2 hs
      · exact absurd hs (hns c (hc.toKin.recorded (r := r) hin hid).2)
    · have hin' : r' ∈ (s.thread q).childThreadList := by
        simpa [Sys.setThread_other _ _ hq] using hr'
      exact hl.unwoken q c r' hin' (hc.toKin.recorded hin' hid).2 hs

theorem waitMark (hl : Loading s) (ht : Tree s) {caller : Caller} {tid : Tid} {child : Nat}
    {r : ChildStatus} (hp : s.pc p = .waitMark caller tid child)
    (hr : (s.thread p).childThreadList[child]? = some r) :
    Loading ((s.setThread p fun t => { t with
      childThreadList := t.childThreadList.set child { r with childWaited := true } }).goto p
        (.waitReturn caller tid r.childExitCode)) := by
  have hstep := Step.waitMark hp hr
  have hi : Pc.Idle (.waitMark caller tid child) := trivial
  have hc := hstep.calm ht hl (hi.no_report hp) (by simp)
  have hin := List.mem_of_getElem? hr
  refine hl.calm ht hc hstep.born ?_ ?_ ?_
  · rw [Sys.goto_pc_self]
    refine Sys.Loads.plain trivial fun hin => ?_
    have hz := hl.sema_zero (c := .waitMark caller tid child) hp
      (hin.resolve_right (by simp [Pc.Starting, Pc.InStart])) rfl
    simpa using hz
  · intro c hm hs
    rw [hstep.maker_eq (hi.not_create hp) c] at hm
    exact absurd ((hc.starting c).mp hs) (hi.no_child hl hp c hm)
  · intro q c r' hr' hid hs
    by_cases hq : q = p
    · simp only [hq, Sys.goto_thread, Sys.setThread_self] at hr'
      rcases List.mem_or_eq_of_mem_set hr' with hr' | rfl
      · exact hl.unwoken p c r' hr' (hc.toKin.recorded hr' hid).2 hs
      · obtain ⟨hb, hid'⟩ := hc.toKin.recorded (r := r) hin hid
        have hat := hl.points p
        rw [hp] at hat
        exact absurd hs (hat.marked caller tid child r c rfl hr hid' hb)
    · have hin' : r' ∈ (s.thread q).childThreadList := by
        simpa [Sys.setThread_other _ _ hq] using hr'
      exact hl.unwoken q c r' hin' (hc.toKin.recorded hin' hid).2 hs

/-- A thread that ends wakes whoever waits for it. -/
theorem wake (hl : Loading s) (ht : Tree s) {t : Ptr} (hp : s.pc p = .found t .leave)
    (hn : (s.thread t).childThreadList ≠ []) :
    Loading ((s.setThread t fun r =>
      { r with childThreadList := upChild (s.thread p).tid r.childThreadList }).goto p .release) := by
  have hstep := Step.wake hp hn
  have hi : Pc.Idle (.found t .leave) := trivial
  have hc := hstep.calm ht hl (hi.no_report hp) (by simp)
  refine hl.calm ht hc hstep.born ?_ ?_ ?_
  · rw [Sys.goto_pc_self]
    exact Sys.Loads.plain trivial (by simp [Pc.InCall, Pc.Starting, Pc.InStart])
  · intro c hm hs
    rw [hstep.maker_eq (hi.not_create hp) c] at hm
    exact absurd ((hc.starting c).mp hs) (hi.no_child hl hp c hm)
  · intro q c r hr hid hs
    have hcases : r ∈ (s.thread q).childThreadList ∨
        ∃ r₀ ∈ (s.thread q).childThreadList, r₀.childTid = s.tid p ∧ r.childTid = s.tid p := by
      simp only [Sys.goto_thread, Sys.setThread_thread] at hr
      split at hr
      · next hq =>
        rcases mem_updateChild (hq ▸ hr) with hr | ⟨r₀, hr₀, hid₀, rfl⟩
        · exact Or.inl (hq ▸ hr)
        · exact Or.inr ⟨r₀, hq ▸ hr₀, hid₀, hid₀⟩
      · exact Or.inl hr
    rcases hcases with hr | ⟨r₀, hr₀, hid₀, hid'⟩
    · exact hl.unwoken q c r hr (hc.toKin.recorded hr hid).2 hs
    · -- the record of the thread that ends
      obtain ⟨hb, hid₁⟩ := hc.toKin.recorded hr₀ ((hid.trans hid').trans hid₀.symm)
      have hcp : c = p := ht.distinct c p (hid₁.trans hid₀) (Int.ne_of_gt (ht.born c hb).1)
      rw [hcp, hp] at hs
      simp [Pc.Starting, Pc.InStart] at hs

end Loading

/-- `process_execute` has returned `TID_ERROR`. -/
def Pc.Refused : Pc → Prop
  | .loadDown pid _ => pid = tidError
  | .wait caller tid => caller = .runTask ∧ tid = tidError
  | _ => False

instance (pc : Pc) : Decidable pc.Refused := by
  unfold Pc.Refused
  split <;> infer_instance

/-- The step of a run in which `exec` reports what it should: no thread follows a pointer to a
page given back, no child looks for its parent before it has been told who that is, nothing is
refused to `process_execute`, and no `load` is ended by a page fault. -/
structure LoadOrderly (s : Sys) (p : Ptr) (s' : Sys) : Prop where
  sound : ¬ s.Stray p
  told : Told s p
  granted : ¬ (s'.pc p).Refused
  returns : s'.pc p ≠ .faulted

instance : Decidable (LoadOrderly s p s') :=
  decidable_of_iff (¬ s.Stray p ∧ Told s p ∧ ¬ (s'.pc p).Refused ∧ s'.pc p ≠ .faulted)
    ⟨fun h => ⟨h.1, h.2.1, h.2.2.1, h.2.2.2⟩, fun h => ⟨h.sound, h.told, h.granted, h.returns⟩⟩

/-- A step of `thread_get_by_tid`. -/
theorem Loading.search (hl : Loading s) (ht : Tree s) {tid : Tid} {e : Ptr} {after : After}
    {pc' : Pc} (h : Step s p (s.goto p pc')) (hp : s.pc p = .search tid e after)
    (hp' : pc' = .found e after ∨ ∃ e', pc' = .search tid e' after) : Loading (s.goto p pc') := by
  have hgo : (s.goto p pc').pc p = pc' := Sys.goto_pc_self ..
  have hsame : ∀ q, ∀ r ∈ (s.thread q).childThreadList, ∃ r' ∈ (s.thread q).childThreadList,
      r.childTid = r'.childTid ∧ r.childWaitSema = r'.childWaitSema ∧ r.childWaited = r'.childWaited :=
    fun _ r hr => ⟨r, hr, rfl, rfl, rfl⟩
  have hat := hl.points p
  rw [hp] at hat
  cases after with
  | link =>
    rcases hp' with rfl | ⟨e', rfl⟩
    · exact hl.making ht h hp trivial hgo trivial rfl id rfl rfl hsame
    · exact hl.making ht h hp trivial hgo trivial rfl id rfl rfl hsame
  | started success =>
    have hloaded := hat.loaded success rfl
    rcases hp' with rfl | ⟨e', rfl⟩
    · exact hl.onTheWay ht h hp trivial (Or.inr trivial) hgo (Or.inr trivial) rfl (by simp) rfl hloaded
    · exact hl.onTheWay ht h hp trivial (Or.inr trivial) hgo (Or.inr trivial) rfl (by simp) rfl hloaded
  | exit | leave =>
    have hmove := @Loading.plain _ _ _ hl ht h
    rcases hp' with rfl | ⟨e', rfl⟩
    · exact hmove hp trivial hgo trivial (by simp [Pc.InCall, Pc.Starting, Pc.InStart]) hsame
    · exact hmove hp trivial hgo trivial (by simp [Pc.InCall, Pc.Starting, Pc.InStart]) hsame

theorem step_loading (ht : Tree s) (hl : Loading s) (hstep : Step s p s')
    (hc : LoadOrderly s p s') : Loading s' := by
  have hgo : ∀ {s'' : Sys} {pc' : Pc}, (s''.goto p pc').pc p = pc' := Sys.goto_pc_self ..
  have hpl := @Loading.plain _ _ _ hl ht hstep
  have hmk := @Loading.making _ _ _ hl ht hstep
  have hsame : ∀ q, ∀ r ∈ (s.thread q).childThreadList, ∃ r' ∈ (s.thread q).childThreadList,
      r.childTid = r'.childTid ∧ r.childWaitSema = r'.childWaitSema ∧ r.childWaited = r'.childWaited :=
    fun _ r hr => ⟨r, hr, rfl, rfl, rfl⟩
  have hat := hl.points p
  cases hstep with
  -- out of the way of `load_sema`
  | runTask hp | finish hp | callExit _ _ hp | pageFault _ hp | kill hp | leave hp | childless hp
  | remove hp =>
    exact hpl hp trivial hgo trivial (by simp [Pc.InCall, Pc.Starting, Pc.InStart]) hsame
  | @exit t status hp =>
    refine hpl hp trivial hgo trivial (by simp [Pc.InCall, Pc.Starting, Pc.InStart]) ?_
    intro q r hr
    simp only [Sys.goto_thread, Sys.setThread_thread] at hr
    have hr' : r ∈ (s.thread q).childThreadList ∨
        r ∈ storeExitCode (s.thread p).tid status (s.thread q).childThreadList := by
      grind
    rcases hr' with hr' | hr'
    · exact hsame q r hr'
    · rcases mem_updateChild hr' with hr' | ⟨r₀, hr₀, -, rfl⟩
      · exact hsame q r hr'
      · exact ⟨r₀, hr₀, rfl, rfl, rfl⟩
  | release hp =>
    refine hpl hp trivial hgo trivial (by simp [Pc.InCall, Pc.Starting, Pc.InStart]) ?_
    intro q r hr
    simp only [Sys.goto_thread, Sys.setThread_thread] at hr
    refine hsame q r ?_
    grind
  | wake hp hn => exact hl.wake ht hp hn
  | exec hp | callWait _ hp =>
    exact hpl hp trivial hgo trivial (fun _ => hl.sema_zero hp trivial rfl) hsame
  | fnCopy hp | programName hp =>
    exact hpl hp trivial hgo trivial (fun h => hl.sema_zero hp (h.resolve_right (by simp [Pc.Starting, Pc.InStart])) rfl) hsame
  | @noFnCopy caller | @noProgramName caller | @noCreate caller | @noRecord caller =>
    refine absurd ?_ hc.granted
    rw [hgo]
    cases caller
    · rfl
    · exact ⟨rfl, rfl⟩
  | create hp => exact hl.create ht hp
  | @unblock caller new e hp he =>
    have hat' := ht.points p
    rw [hp] at hat'
    obtain ⟨-, -, hun, -⟩ := hat'
    have hne : p ≠ new := by
      rintro rfl
      rw [hp] at hun
      cases hun
    refine hmk hp trivial hgo trivial rfl id ?_ rfl ?_
    · simp [Sys.setThread_other _ _ hne]
    · intro q r hr
      refine hsame q r ?_
      simp only [Sys.goto_thread, Sys.setThread_thread] at hr
      grind
  | @link t new caller tid hp =>
    refine hmk hp trivial hgo trivial rfl id ?_ rfl ?_
    · simp only [Sys.goto_thread, Sys.setThread_thread]
      grind
    · intro q r hr
      refine hsame q r ?_
      simp only [Sys.goto_thread, Sys.setThread_thread] at hr
      grind
  | record hp => exact hl.record ht hp
  | loadDown hp hv => exact hl.loadDown ht hp hv
  | loadTest hp => exact hl.loadTest ht hp
  | execReturn hp =>
    exact hpl hp trivial hgo trivial (fun _ => hl.sema_zero hp trivial rfl) hsame
  | searchFound hp hf => exact hl.search ht (.searchFound hp hf) hp (.inl rfl)
  | searchNext hp hf he => exact hl.search ht (.searchNext hp hf he) hp (.inr ⟨_, rfl⟩)
  | loadFault hp => exact absurd hgo hc.returns
  | faulted hp => exact hpl hp trivial hgo trivial (by simp [Pc.InCall, Pc.Starting, Pc.InStart]) hsame
  | load success hp =>
    exact hl.onTheWay ht (.load success hp) hp trivial (Or.inr trivial) hgo (Or.inr trivial) rfl
      (by simp) rfl (by simp)
  | @loaded success e hp he =>
    refine hl.onTheWay ht (.loaded hp he) hp trivial (Or.inr trivial) hgo (Or.inr trivial) rfl
      (by simp) rfl ?_
    rw [hp] at hat
    exact hat.loaded success rfl
  | loadState hp => exact hl.loadState ht hp
  | @loadUp t hp =>
    refine hl.loadUp ht (.loadUp hp) hp hgo trivial (by simp [Pc.Starting, Pc.InStart]) ?_ ?_ ?_
      fun _ => rfl
    all_goals
      intro q
      simp only [Sys.goto_thread, Sys.setThread_thread]
      grind
  | @loadUpFail t hp =>
    refine hl.loadUp ht (.loadUpFail hp) hp hgo trivial (by simp [Pc.Starting, Pc.InStart]) ?_ ?_ ?_
      fun q => ?_
    case refine_4 =>
      simp only [Sys.goto_past, Sys.setPast_past, Sys.setThread_past]
      grind
    all_goals
      intro q
      simp only [Sys.goto_thread, Sys.setPast_thread, Sys.setThread_thread]
      grind
  | waitNone hp hn =>
    refine hl.waitEnds ht hp (.waitNone hp hn) fun c hm hs => ?_
    obtain ⟨-, hid, hin, -⟩ := hl.wait_child hp hm hs
    rcases hn with hn | hn
    · have hpos := (ht.born c (ht.recorded_born (hid ▸ hin))).1
      rw [← hid, hn] at hpos
      cases hpos
    · exact childIndex_none hn hin
  | waitAgain hp hz hi hr hw =>
    refine hl.waitEnds ht hp (.waitAgain hp hz hi hr hw) fun c hm hs => ?_
    obtain ⟨-, -, -, hall⟩ := hl.wait_child hp hm hs
    have hnot := hall _ (List.mem_of_getElem? hr) (childIndex_some hi hr)
    rw [hw] at hnot
    cases hnot
  | waitFound hp hz hi hr hw =>
    exact hl.waitFound ht hp hr (childIndex_some hi hr) (.waitFound hp hz hi hr hw)
  | waitDown hp hr hv => exact hl.waitDown ht hp hr hv
  | waitMark hp hr => exact hl.waitMark ht hp hr
  | @waitReturn caller tid result hp =>
    cases caller with
    | syscall => exact hpl hp trivial hgo trivial (fun _ => hl.sema_zero hp rfl rfl) hsame
    | runTask =>
      exact hpl hp trivial hgo trivial (by simp [afterWait, Pc.InCall, Pc.Starting, Pc.InStart]) hsame

end

/-! ## Runs -/

theorem boot_loading : Loading boot := by
  refine ⟨fun p => ?_, fun c hs => ?_, fun c q hm => ?_, fun q c r hr => ?_⟩
  · rcases boot_pc p with h | h | h <;> rw [h] <;> exact Sys.Loads.plain trivial fun _ => rfl
  · rcases boot_pc c with h | h | h <;> rw [h] at hs <;> exact hs.elim
  · cases hm
  · cases hr

theorem Reachable.loading {s : Sys} (h : Reachable LoadOrderly s) : Tree s ∧ Loading s := by
  induction h with
  | boot => exact ⟨boot_tree, boot_loading⟩
  | step p _ hp hs cond ih =>
    exact ⟨step_tree ih.1 hp cond.told hs, step_loading ih.1 ih.2 hs cond⟩
  | stray p _ hp cond => exact absurd hp cond.sound

/-- `exec` reports the outcome of the `load` of its own child, if nothing is refused to
`process_execute`, no child looks for its parent too early, and no `load` faults. -/
theorem exec_reports_load {s : Sys} (h : Reachable LoadOrderly s) : ExecExact s := by
  obtain ⟨ht, hl⟩ := h.loading
  refine ⟨fun p result c hp hld => ?_, fun p result new hp hno => ?_,
    fun c t hr => (hl.reports ht hr).1, fun p pid new hp hz => ?_⟩
  · have hat := hl.points p
    rw [hp] at hat
    obtain ⟨c', success, hc, -, -, hs, hr⟩ := hat.result result (some c) rfl
    rw [← Option.some.inj hc, hld, Option.some.injEq] at hs
    rw [hr, ← hs, if_pos rfl, ← Option.some.inj hc]
  · have hat := hl.points p
    rw [hp] at hat
    obtain ⟨c, success, hc, -, -, hs, hr⟩ := hat.result result new rfl
    cases success with
    | true => exact absurd hs (hno c hc)
    | false => exact hr
  · have hat := hl.points p
    rw [hp] at hat
    obtain ⟨c, rfl, -, hu⟩ := hat.down pid new rfl
    refine ⟨c, rfl, ?_⟩
    by_cases hs : (s.pc c).Starting
    · exact hs.resolve_left hu
    · have hone := (hat.after trivial c rfl hs).1
      rw [hz] at hone
      cases hone

/-- The main thread has started a program and is about to wait for it. -/
def firstProgram : Sys where
  created := 3
  nextTid := 4
  allList := [0, 1, 2]
  thread t :=
    if t = 0 then
      { initThread with
        tid := 1, childThreadList := [newChild 3], loadSema := 1, loadState := .success }
    else if t = 1 then { initThread with tid := 2 }
    else if t = 2 then { initThread with tid := 3, parentTid := 1 }
    else boot.thread t
  pc t :=
    if t = 0 then .wait .runTask 3
    else if t = 1 then .idle
    else if t = 2 then .running
    else .unborn
  past t :=
    if t = 0 then { Past.new none with executed := [3] }
    else if t = 2 then { Past.new (some 0) with loaded := some true }
    else Past.new none

/-- No process ends on the way there. -/
theorem firstProgram_reachable : Reachable (fun s p s' => LoadOrderly s p s' ∧
    ¬ (s.pc p).Tells ∧ s.pc p ≠ .running) firstProgram := by
  have h₁ := Reachable.boot (P := fun s p s' => LoadOrderly s p s' ∧
    ¬ (s.pc p).Tells ∧ s.pc p ≠ .running)
  have h₂ := h₁.step 0 (by decide) (.runTask rfl) (by decide)
  have h₃ := h₂.step 0 (by decide) (.fnCopy rfl) (by decide)
  have h₄ := h₃.step 0 (by decide) (.programName rfl) (by decide)
  have h₅ := h₄.step 0 (by decide) (.create rfl) (by decide)
  have h₆ := h₅.step 0 (by decide) (.unblock rfl rfl) (by decide)
  have h₇ := h₆.step 0 (by decide) (.searchNext rfl (by decide) rfl) (by decide)
  have h₈ := h₇.step 0 (by decide) (.searchNext rfl (by decide) rfl) (by decide)
  have h₉ := h₈.step 0 (by decide) (.searchFound rfl (.inl rfl)) (by decide)
  have h₁₀ := h₉.step 0 (by decide) (.link rfl) (by decide)
  have h₁₁ := h₁₀.step 0 (by decide) (.record rfl) (by decide)
  have h₁₂ := h₁₁.step 2 (by decide) (.load true rfl) (by decide)
  have h₁₃ := h₁₂.step 2 (by decide) (.loaded rfl rfl) (by decide)
  have h₁₄ := h₁₃.step 2 (by decide) (.searchFound rfl (.inl rfl)) (by decide)
  have h₁₅ := h₁₄.step 2 (by decide) (.loadState rfl) (by decide)
  have h₁₆ := h₁₅.step 2 (by decide) (.loadUp rfl) (by decide)
  have hs : ∀ {P} {s : Sys}, Reachable P s → s.created = 3 → s.nextTid = 4 →
      s.allList = [0, 1, 2] → s.thread = firstProgram.thread → s.pc = firstProgram.pc →
      s.past = firstProgram.past → Reachable P firstProgram := by
    rintro P ⟨⟩ h rfl rfl rfl rfl rfl rfl
    exact h
  refine hs h₁₆ rfl rfl rfl ?_ ?_ ?_ <;> funext t <;> rcases t with _ | _ | _ | t <;> rfl

/-- The main thread runs a program, which runs another one. -/
theorem exec_reports_load_child : ∃ s, ExecExact s ∧ s.pc 2 = .execReturn 4 (some 3) ∧
    (s.past 3).loaded = some true := by
  have h := firstProgram_reachable.mono fun h => h.1
  have h₁ := h.step 2 (by decide) (.exec rfl) (by decide)
  have h₂ := h₁.step 2 (by decide) (.fnCopy rfl) (by decide)
  have h₃ := h₂.step 2 (by decide) (.programName rfl) (by decide)
  have h₄ := h₃.step 2 (by decide) (.create rfl) (by decide)
  have h₅ := h₄.step 2 (by decide) (.unblock rfl rfl) (by decide)
  have h₆ := h₅.step 2 (by decide) (.searchNext rfl (by decide) rfl) (by decide)
  have h₇ := h₆.step 2 (by decide) (.searchNext rfl (by decide) rfl) (by decide)
  have h₈ := h₇.step 2 (by decide) (.searchNext rfl (by decide) rfl) (by decide)
  have h₉ := h₈.step 2 (by decide) (.searchFound rfl (.inl rfl)) (by decide)
  have h₁₀ := h₉.step 2 (by decide) (.link rfl) (by decide)
  have h₁₁ := h₁₀.step 2 (by decide) (.record rfl) (by decide)
  have h₁₂ := h₁₁.step 3 (by decide) (.load true rfl) (by decide)
  have h₁₃ := h₁₂.step 3 (by decide) (.loaded rfl rfl) (by decide)
  have h₁₄ := h₁₃.step 3 (by decide) (.searchNext rfl (by decide) rfl) (by decide)
  have h₁₅ := h₁₄.step 3 (by decide) (.searchNext rfl (by decide) rfl) (by decide)
  have h₁₆ := h₁₅.step 3 (by decide) (.searchFound rfl (.inl rfl)) (by decide)
  have h₁₇ := h₁₆.step 3 (by decide) (.loadState rfl) (by decide)
  have h₁₈ := h₁₇.step 3 (by decide) (.loadUp rfl) (by decide)
  have h₁₉ := h₁₈.step 2 (by decide) (.loadDown rfl (by decide)) (by decide)
  have h₂₀ := h₁₉.step 2 (by decide) (.loadTest rfl) (by decide)
  exact ⟨_, exec_reports_load h₂₀, rfl, rfl⟩

theorem new_child_reports_to_itself :
    ¬ ∀ s, Reachable (fun s p _ => ¬ s.Stray p) s → ExecExact s := by
  intro hall
  have h₁ := Reachable.boot (P := fun s p _ => ¬ s.Stray p)
  have h₂ := h₁.step 0 (by decide) (.runTask rfl) (by decide)
  have h₃ := h₂.step 0 (by decide) (.fnCopy rfl) (by decide)
  have h₄ := h₃.step 0 (by decide) (.programName rfl) (by decide)
  have h₅ := h₄.step 0 (by decide) (.create rfl) (by decide)
  have h₆ := h₅.step 0 (by decide) (.unblock rfl rfl) (by decide)
  have h₇ := h₆.step 2 (by decide) (.load true rfl) (by decide)
  have h₈ := h₇.step 2 (by decide) (.loaded rfl rfl) (by decide)
  have h₉ := h₈.step 2 (by decide) (.searchNext rfl (by decide) rfl) (by decide)
  have h₁₀ := h₉.step 2 (by decide) (.searchNext rfl (by decide) rfl) (by decide)
  have h₁₁ := h₁₀.step 2 (by decide) (.searchFound rfl (.inr rfl)) (by decide)
  have hm := (hall _ h₁₁).reports 2 2 ⟨true, .inl rfl⟩
  exact absurd hm (by decide)

end Pintos.Process
