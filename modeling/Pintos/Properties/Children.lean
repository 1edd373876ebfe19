import Pintos.Logic.Lists
import Pintos.Userprog.Process

/-!
# The tree of processes

What holds of tids, parents and child records in every run in which no thread follows a pointer
to a page given back, and no child looks for its parent before it has been told who that is.

The assertion `Sys.At` belongs to a point of the program. A step of one thread establishes the
assertion at its next point, and does not break the one at the point of any other thread.
-/

namespace Pintos.Process

open Pintos.Lib Pintos.Logic

namespace Sys

variable (s : Sys) (p q : Ptr)

@[simp] theorem goto_created (pc : Pc) : (s.goto p pc).created = s.created := rfl
@[simp] theorem goto_nextTid (pc : Pc) : (s.goto p pc).nextTid = s.nextTid := rfl
@[simp] theorem goto_allList (pc : Pc) : (s.goto p pc).allList = s.allList := rfl
@[simp] theorem goto_thread (pc : Pc) : (s.goto p pc).thread = s.thread := rfl
@[simp] theorem goto_past (pc : Pc) : (s.goto p pc).past = s.past := rfl
@[simp] theorem goto_pc_self (pc : Pc) : (s.goto p pc).pc p = pc := Function.update_self ..

theorem goto_pc_other {p q : Ptr} (pc : Pc) (h : q ≠ p) : (s.goto p pc).pc q = s.pc q :=
  Function.update_of_ne h ..

@[simp] theorem setThread_created (f : Thread → Thread) : (s.setThread p f).created = s.created := rfl
@[simp] theorem setThread_nextTid (f : Thread → Thread) : (s.setThread p f).nextTid = s.nextTid := rfl
@[simp] theorem setThread_allList (f : Thread → Thread) : (s.setThread p f).allList = s.allList := rfl
@[simp] theorem setThread_pc (f : Thread → Thread) : (s.setThread p f).pc = s.pc := rfl
@[simp] theorem setThread_past (f : Thread → Thread) : (s.setThread p f).past = s.past := rfl

@[simp] theorem setThread_self (f : Thread → Thread) :
    (s.setThread p f).thread p = f (s.thread p) := Function.update_self ..

theorem setThread_other {p q : Ptr} (f : Thread → Thread) (h : q ≠ p) :
    (s.setThread p f).thread q = s.thread q := Function.update_of_ne h ..

@[simp] theorem setPast_created (f : Past → Past) : (s.setPast p f).created = s.created := rfl
@[simp] theorem setPast_nextTid (f : Past → Past) : (s.setPast p f).nextTid = s.nextTid := rfl
@[simp] theorem setPast_allList (f : Past → Past) : (s.setPast p f).allList = s.allList := rfl
@[simp] theorem setPast_pc (f : Past → Past) : (s.setPast p f).pc = s.pc := rfl
@[simp] theorem setPast_thread (f : Past → Past) : (s.setPast p f).thread = s.thread := rfl

@[simp] theorem setPast_self (f : Past → Past) : (s.setPast p f).past p = f (s.past p) :=
  Function.update_self ..

theorem setPast_other {p q : Ptr} (f : Past → Past) (h : q ≠ p) :
    (s.setPast p f).past q = s.past q := Function.update_of_ne h ..

theorem setThread_thread (f : Thread → Thread) :
    (s.setThread p f).thread q = if q = p then f (s.thread p) else s.thread q :=
  Function.update_apply ..

theorem setPast_past (f : Past → Past) :
    (s.setPast p f).past q = if q = p then f (s.past p) else s.past q :=
  Function.update_apply ..

/-! ## The tree -/

def tid : Tid := (s.thread p).tid

def parentTid : Tid := (s.thread p).parentTid

/-- The children that a thread has records of. -/
def childTids : List Tid := (s.thread p).childThreadList.map (·.childTid)

def maker : Option Ptr := (s.past p).maker

end Sys

theorem map_updateChild {β : Type} (tid : Tid) {f : ChildStatus → ChildStatus}
    {g : ChildStatus → β} (h : ∀ c, g (f c) = g c) (l : List ChildStatus) :
    (updateChild tid f l).map g = l.map g := by
  induction l with
  | nil => rfl
  | cons c l ih =>
    rw [updateChild]
    split
    · rw [List.map_cons, List.map_cons, h]
    · rw [List.map_cons, List.map_cons, ih]

theorem mem_updateChild {tid : Tid} {f : ChildStatus → ChildStatus} {l : List ChildStatus}
    {r : ChildStatus} (h : r ∈ updateChild tid f l) :
    r ∈ l ∨ ∃ r₀ ∈ l, r₀.childTid = tid ∧ r = f r₀ := by
  induction l with
  | nil => exact Or.inl h
  | cons c l ih =>
    rw [updateChild] at h
    split at h
    · next hc =>
      rcases List.mem_cons.mp h with rfl | h
      · exact Or.inr ⟨c, List.mem_cons_self, hc, rfl⟩
      · exact Or.inl (List.mem_cons_of_mem _ h)
    · rcases List.mem_cons.mp h with rfl | h
      · exact Or.inl List.mem_cons_self
      · rcases ih h with h | ⟨r₀, hr, hc, he⟩
        · exact Or.inl (List.mem_cons_of_mem _ h)
        · exact Or.inr ⟨r₀, List.mem_cons_of_mem _ hr, hc, he⟩

theorem map_childTid_storeExitCode (tid : Tid) (status : Int) (l : List ChildStatus) :
    (storeExitCode tid status l).map (·.childTid) = l.map (·.childTid) := by
  apply map_updateChild
  exact fun _ => rfl

theorem map_childTid_upChild (tid : Tid) (l : List ChildStatus) :
    (upChild tid l).map (·.childTid) = l.map (·.childTid) := by
  apply map_updateChild
  exact fun _ => rfl

theorem map_childTid_set {l : List ChildStatus} {i : Nat} {c c' : ChildStatus}
    (h : l[i]? = some c) (hc : c'.childTid = c.childTid) :
    (l.set i c').map (·.childTid) = l.map (·.childTid) := by
  rw [List.map_set, hc]
  exact set_getElem?_self (by rw [List.getElem?_map, h, Option.map_some])

theorem childIndex_none {tid : Tid} {l : List ChildStatus} (h : childIndex tid l = none) :
    tid ∉ l.map (·.childTid) := by
  simp only [childIndex, List.findIdx?_eq_none_iff, decide_eq_false_iff_not] at h
  rw [List.mem_map]
  rintro ⟨r, hr, ht⟩
  exact h r hr ht

theorem childIndex_some {tid : Tid} {l : List ChildStatus} {i : Nat} {r : ChildStatus}
    (h : childIndex tid l = some i) (hr : l[i]? = some r) : r.childTid = tid := by
  obtain ⟨hlt, ht, -⟩ := List.findIdx?_eq_some_iff_getElem.mp h
  rw [List.getElem?_eq_getElem hlt, Option.some.injEq] at hr
  rw [← hr]
  simpa using ht

/-- The points before a thread looks for its parent. -/
def Pc.Young : Pc → Prop
  | .unborn => True
  | .load => True
  | .loaded _ => True
  | .faulted => True
  | _ => False

namespace Sys

variable (s : Sys) (p q : Ptr)

/-- The tid that `thread_get_by_tid` is called with. -/
def goal : After → Tid
  | .link _ tid _ => tid
  | _ => s.parentTid p

/-- `process_execute` looks for the thread it has made. -/
def Links : After → Prop
  | .link _ tid new =>
    s.maker new = some p ∧ s.tid new = tid ∧ s.parentTid new = 0 ∧ s.pc new ≠ .unborn
  | _ => True

/-- The thread with a tid, if there is one, is `t`. -/
def Only (tid : Tid) (t : Ptr) : Prop := tid ≠ 0 → ∀ u ∈ s.allList, s.tid u = tid → t = u

/-- What a thread knows at a point. -/
def At : Pc → Prop
  | .unblock _ new =>
    s.maker new = some p ∧ s.parentTid new = 0 ∧ s.pc new = .unborn ∧ new < s.created
  | .record _ tid new =>
    s.maker new = some p ∧ s.tid new = tid ∧ tid ≠ 0 ∧ s.parentTid new ≠ 0 ∧ tid ∉ s.childTids p
  | .search tid e after =>
    tid = s.goal p after ∧ s.Links p after ∧ e < s.created ∧
      (tid ≠ 0 → e ∈ s.allList → ∀ t ∈ s.allList, s.tid t = tid → t ∈ listFrom e s.allList)
  | .found t after => s.Links p after ∧ s.Only (s.goal p after) t
  | .loadUp t _ => s.Only (s.parentTid p) t
  | _ => True

end Sys

/-- The tids, parents and records fit together. -/
structure Tree (s : Sys) : Prop where
  nodup : s.allList.Nodup
  listed : ∀ t, t ∈ s.allList ↔ t < s.created ∧ s.pc t ≠ .dead
  fresh : ∀ t, s.created ≤ t →
    s.pc t = .unborn ∧ s.parentTid t = 0 ∧ s.childTids t = [] ∧ s.maker t = none
  unborn : ∀ t, s.pc t = .unborn → s.tid t = 0
  born : ∀ t, s.pc t ≠ .unborn → 0 < s.tid t ∧ s.tid t < s.nextTid
  distinct : ∀ t u, s.tid t = s.tid u → s.tid t ≠ 0 → t = u
  parents : ∀ c, s.parentTid c ≠ 0 → ∃ q, s.maker c = some q ∧ s.parentTid c = s.tid q
  makers : ∀ c q, s.maker c = some q → s.pc q ≠ .unborn
  young : ∀ c q, s.maker c = some q → s.parentTid c ≠ 0 ∨ (s.pc c).Young
  records : ∀ q, ∀ tid ∈ s.childTids q, ∃ c, s.maker c = some q ∧ s.tid c = tid ∧
    s.pc c ≠ .unborn ∧ s.parentTid c ≠ 0
  recordsNodup : ∀ q, (s.childTids q).Nodup
  points : ∀ q, s.At q (s.pc q)

theorem Tree.goal_lt {s : Sys} {q : Ptr} (h : Tree s) {after : After} (hl : s.Links q after)
    (hz : s.goal q after ≠ 0) : s.goal q after < s.nextTid := by
  cases after with
  | link caller tid new =>
    obtain ⟨-, ht, -, hu⟩ := hl
    exact ht ▸ (h.born new hu).2
  | started | exit | leave =>
    obtain ⟨c, hm, hc⟩ := h.parents q hz
    show s.parentTid q < s.nextTid
    rw [hc]
    exact (h.born c (h.makers q c hm)).2

/-! ## What a step leaves to the other threads -/

/-- What the assertions of the thread `q` rely on is the same in both states. -/
structure Agrees (q : Ptr) (s s' : Sys) : Prop where
  created : s.created ≤ s'.created
  parentTid : s'.parentTid q = s.parentTid q
  childTids : s'.childTids q = s.childTids q
  mine : ∀ c < s.created, s.maker c = some q → s'.maker c = some q ∧ s'.tid c = s.tid c ∧
    s'.parentTid c = s.parentTid c ∧ (s'.pc c = .unborn ↔ s.pc c = .unborn)
  live : ∀ t ∈ s'.allList, s'.tid t ≠ 0 → s'.tid t < s.nextTid →
    t ∈ s.allList ∧ s.tid t = s'.tid t
  walk : ∀ e < s.created, e ∈ s'.allList → e ∈ s.allList ∧
    ∀ t ∈ s'.allList, t ∈ listFrom e s.allList → t ∈ listFrom e s'.allList

namespace Agrees

variable {s s' : Sys} {q : Ptr}

theorem goal (h : Agrees q s s') (after : After) : s'.goal q after = s.goal q after := by
  cases after with
  | link => rfl
  | started | exit | leave => exact h.parentTid

theorem links (h : Agrees q s s') (ht : Tree s) {after : After} (hl : s.Links q after) :
    s'.Links q after := by
  cases after with
  | link caller tid new =>
    obtain ⟨hm, htid, hz, hu⟩ := hl
    obtain ⟨hm', ht', hz', hu'⟩ := h.mine new
      (Nat.not_le.mp fun hn => hu (ht.fresh new hn).1) hm
    exact ⟨hm', by rw [ht', htid], by rw [hz', hz], fun hn => hu (hu'.mp hn)⟩
  | started | exit | leave => trivial

theorem only (h : Agrees q s s') {tid : Tid} {t : Ptr} (hlt : tid ≠ 0 → tid < s.nextTid)
    (ho : s.Only tid t) : s'.Only tid t := by
  intro hz u hu htid
  obtain ⟨hu', htid'⟩ := h.live u hu (htid ▸ hz) (htid ▸ hlt hz)
  exact ho hz u hu' (htid' ▸ htid)

theorem point (h : Agrees q s s') (ht : Tree s) {pc : Pc} (ha : s.At q pc) : s'.At q pc := by
  cases pc with
  | unblock caller new =>
    obtain ⟨hm, hz, hu, hlt⟩ := ha
    obtain ⟨hm', -, hz', hu'⟩ := h.mine new hlt hm
    exact ⟨hm', by rw [hz', hz], hu'.mpr hu, Nat.lt_of_lt_of_le hlt h.created⟩
  | record caller tid new =>
    obtain ⟨hm, htid, hz, hl, hc⟩ := ha
    have hu : s.pc new ≠ .unborn := fun hn => hz (htid ▸ ht.unborn new hn)
    obtain ⟨hm', ht', hl', -⟩ := h.mine new (Nat.not_le.mp fun hn => hu (ht.fresh new hn).1) hm
    exact ⟨hm', by rw [ht', htid], hz, by rw [hl']; exact hl, by rw [h.childTids]; exact hc⟩
  | search tid e after =>
    obtain ⟨hg, hl, he, hf⟩ := ha
    refine ⟨by rw [h.goal, hg], h.links ht hl, Nat.lt_of_lt_of_le he h.created, ?_⟩
    intro hz he' t hin htid
    obtain ⟨heold, hwalk⟩ := h.walk e he he'
    obtain ⟨hold, htid'⟩ := h.live t hin (htid ▸ hz) (by rw [htid, hg]; exact ht.goal_lt hl (hg ▸ hz))
    exact hwalk t hin (hf hz heold t hold (htid' ▸ htid))
  | found t after =>
    obtain ⟨hl, ho⟩ := ha
    refine ⟨h.links ht hl, ?_⟩
    rw [h.goal]
    exact h.only (fun hz => ht.goal_lt hl hz) ho
  | loadUp t success =>
    show s'.Only (s'.parentTid q) t
    rw [h.parentTid]
    exact h.only (fun hz => ht.goal_lt (show s.Links q .leave from trivial) hz) ha
  | _ => trivial

end Agrees

/-- The step leaves all that `Tree` is about alone, but for the point its thread is at and the
records that the thread has. -/
structure Still (s : Sys) (p : Ptr) (s' : Sys) : Prop where
  created : s'.created = s.created
  nextTid : s'.nextTid = s.nextTid
  allList : s'.allList = s.allList
  tid : ∀ t, s'.tid t = s.tid t
  parentTid : ∀ t, s'.parentTid t = s.parentTid t
  childTids : ∀ t, t ≠ p → s'.childTids t = s.childTids t
  maker : ∀ t, s'.maker t = s.maker t
  pc : ∀ t, t ≠ p → s'.pc t = s.pc t

namespace Still

variable {s s' : Sys} {p : Ptr}

theorem unborn (h : Still s p s') (hp : s.pc p ≠ .unborn) (hp' : s'.pc p ≠ .unborn) (t : Ptr) :
    s'.pc t = .unborn ↔ s.pc t = .unborn := by
  by_cases ht : t = p
  · rw [ht]
    exact ⟨fun h => absurd h hp', fun h => absurd h hp⟩
  · rw [h.pc t ht]

theorem agrees (h : Still s p s') (hp : s.pc p ≠ .unborn) (hp' : s'.pc p ≠ .unborn) {q : Ptr}
    (hc : s'.childTids q = s.childTids q) : Agrees q s s' where
  created := Nat.le_of_eq h.created.symm
  parentTid := h.parentTid q
  childTids := hc
  mine c _ hm := ⟨by rw [h.maker, hm], h.tid c, h.parentTid c, h.unborn hp hp' c⟩
  live t ht _ _ := ⟨h.allList ▸ ht, (h.tid t).symm⟩
  walk e _ he := by
    rw [h.allList] at he ⊢
    exact ⟨he, fun t _ => id⟩

theorem goto {s₀ : Sys} (h : Still s p s₀) (pc : Pc) : Still s p (s₀.goto p pc) :=
  { h with pc := fun t ht => (Sys.goto_pc_other s₀ pc ht).trans (h.pc t ht) }

theorem setPast {s₀ : Sys} (h : Still s p s₀) (t : Ptr) {f : Past → Past}
    (hf : ∀ r, (f r).maker = r.maker) : Still s p (s₀.setPast t f) :=
  have hm : ∀ u, (s₀.setPast t f).maker u = s.maker u := by
    intro u
    rw [← h.maker u, Sys.maker, Sys.maker]
    by_cases hu : u = t
    · rw [hu, Sys.setPast_self, hf]
    · rw [Sys.setPast_other s₀ f hu]
  { h with maker := hm }

/-- A thread may change the records it has. -/
theorem setThread {s₀ : Sys} (h : Still s p s₀) {f : Thread → Thread}
    (hf : (f (s₀.thread p)).tid = s₀.tid p ∧ (f (s₀.thread p)).parentTid = s₀.parentTid p) :
    Still s p (s₀.setThread p f) := by
  have htid : ∀ u, (s₀.setThread p f).tid u = s.tid u := by
    intro u
    rw [← h.tid u]
    by_cases hu : u = p
    · rw [hu, Sys.tid, Sys.setThread_self, hf.1]
    · rw [Sys.tid, Sys.setThread_other s₀ f hu, Sys.tid]
  have hpar : ∀ u, (s₀.setThread p f).parentTid u = s.parentTid u := by
    intro u
    rw [← h.parentTid u]
    by_cases hu : u = p
    · rw [hu, Sys.parentTid, Sys.setThread_self, hf.2]
    · rw [Sys.parentTid, Sys.setThread_other s₀ f hu, Sys.parentTid]
  have hch : ∀ u, u ≠ p → (s₀.setThread p f).childTids u = s.childTids u := by
    intro u hu
    rw [← h.childTids u hu, Sys.childTids, Sys.setThread_other s₀ f hu, Sys.childTids]
  exact { h with
    tid := htid
    parentTid := hpar
    childTids := hch }

end Still

/-- A step that leaves the tree alone keeps it. -/
theorem Tree.still {s s' : Sys} {p : Ptr} (h : Tree s) (hs : Still s p s')
    (hp : s.pc p ≠ .unborn) (hd : s.pc p ≠ .dead) (hp' : s'.pc p ≠ .unborn)
    (hd' : s'.pc p ≠ .dead) (hy : (s.pc p).Young → s.parentTid p ≠ 0 ∨ (s'.pc p).Young)
    (hr : ∀ tid ∈ s'.childTids p, ∃ c, s.maker c = some p ∧ s.tid c = tid ∧ s.pc c ≠ .unborn ∧
      s.parentTid c ≠ 0) (hn : (s'.childTids p).Nodup) (ha : s'.At p (s'.pc p)) : Tree s' where
  nodup := by
    rw [hs.allList]
    exact h.nodup
  listed t := by
    rw [hs.allList, hs.created, h.listed t]
    by_cases ht : t = p
    · rw [ht]
      exact and_congr_right fun _ => ⟨fun _ => hd', fun _ => hd⟩
    · rw [hs.pc t ht]
  fresh t ht := by
    rw [hs.created] at ht
    have htp : t ≠ p := fun htp => hp (htp ▸ (h.fresh t ht).1)
    rw [hs.parentTid, hs.childTids t htp, hs.maker]
    exact ⟨(hs.unborn hp hp' t).mpr (h.fresh t ht).1, (h.fresh t ht).2⟩
  unborn t ht := by
    rw [hs.tid]
    exact h.unborn t ((hs.unborn hp hp' t).mp ht)
  born t ht := by
    rw [hs.tid, hs.nextTid]
    exact h.born t fun hn => ht ((hs.unborn hp hp' t).mpr hn)
  distinct t u := by
    rw [hs.tid, hs.tid]
    exact h.distinct t u
  parents c := by
    rw [hs.parentTid]
    intro hc
    obtain ⟨q, hm, hq⟩ := h.parents c hc
    exact ⟨q, by rw [hs.maker, hm], by rw [hq, hs.tid]⟩
  makers c q := by
    rw [hs.maker]
    exact fun hm hn => h.makers c q hm ((hs.unborn hp hp' q).mp hn)
  young c q := by
    rw [hs.maker, hs.parentTid]
    intro hm
    by_cases hc : c = p
    · rw [hc]
      rcases h.young c q hm with hz | hz
      · exact Or.inl (hc ▸ hz)
      · exact hy (hc ▸ hz)
    · rw [hs.pc c hc]
      exact h.young c q hm
  records q tid ht := by
    -- a new record of the thread itself is what `hr` is about
    obtain ⟨c, hm, hc, hu, hz⟩ : ∃ c, s.maker c = some q ∧ s.tid c = tid ∧ s.pc c ≠ .unborn ∧
        s.parentTid c ≠ 0 := by
      by_cases hq : q = p
      · rw [hq] at ht ⊢
        exact hr tid ht
      · rw [hs.childTids q hq] at ht
        exact h.records q tid ht
    exact ⟨c, by rw [hs.maker, hm], by rw [hs.tid, hc], fun hn => hu ((hs.unborn hp hp' c).mp hn),
      by rw [hs.parentTid]; exact hz⟩
  recordsNodup q := by
    by_cases hq : q = p
    · rw [hq]
      exact hn
    · rw [hs.childTids q hq]
      exact h.recordsNodup q
  points q := by
    by_cases hq : q = p
    · rw [hq]
      exact ha
    · rw [hs.pc q hq]
      exact (hs.agrees hp hp' (hs.childTids q hq)).point h (h.points q)

/-- A step that leaves the records alone too keeps the tree. -/
theorem Tree.quiet {s s' : Sys} {p : Ptr} (h : Tree s) (hs : Still s p s')
    (hc : s'.childTids p = s.childTids p) (hp : s.pc p ≠ .unborn) (hd : s.pc p ≠ .dead)
    (hp' : s'.pc p ≠ .unborn) (hd' : s'.pc p ≠ .dead)
    (hy : (s.pc p).Young → s.parentTid p ≠ 0 ∨ (s'.pc p).Young) (ha : s.At p (s'.pc p)) :
    Tree s' := by
  refine h.still hs hp hd hp' hd' hy ?_ ?_ ((hs.agrees hp hp' hc).point h ha)
  · rw [hc]
    exact h.records p
  · rw [hc]
    exact h.recordsNodup p

/-! ## The steps that change the tree -/

section

variable {s : Sys} {p : Ptr}

theorem Tree.lt_created (h : Tree s) {t : Ptr} (ht : s.pc t ≠ .unborn) : t < s.created :=
  Nat.not_le.mp fun hn => ht (h.fresh t hn).1

/-- The state after a thread has been made. -/
def afterCreate (s : Sys) (p : Ptr) (caller : Caller) : Sys :=
  (({ s with created := s.created + 1, allList := s.allList ++ [s.created] }.setThread
    s.created fun _ => initThread).setPast s.created (fun _ => Past.new (some p))).goto p
      (.unblock caller s.created)

namespace Tree

theorem afterCreate_fields (h : Tree s) (caller : Caller) (t : Ptr) :
    (afterCreate s p caller).tid t = s.tid t ∧
    (afterCreate s p caller).parentTid t = s.parentTid t ∧
    (afterCreate s p caller).childTids t = s.childTids t ∧
    (t ≠ s.created → (afterCreate s p caller).maker t = s.maker t) := by
  by_cases ht : t = s.created
  · obtain ⟨hu, hz, hc, -⟩ := h.fresh t (Nat.le_of_eq ht.symm)
    refine ⟨?_, ?_, ?_, fun hn => absurd ht hn⟩
    · rw [h.unborn t hu]
      simp [afterCreate, Sys.tid, ht, initThread]
    · rw [hz]
      simp [afterCreate, Sys.parentTid, ht, initThread]
    · rw [hc]
      simp [afterCreate, Sys.childTids, ht, initThread]
  · simp [afterCreate, Sys.tid, Sys.parentTid, Sys.childTids, Sys.maker, Sys.setThread_other _ _ ht,
      Sys.setPast_other _ _ ht]

theorem create (h : Tree s) {caller : Caller} (hp : s.pc p = .create caller) :
    Tree (afterCreate s p caller) := by
  have hpn : s.pc p ≠ .unborn := by rw [hp]; exact Pc.noConfusion
  have hlt : p < s.created := h.lt_created hpn
  have hf := h.afterCreate_fields (p := p) caller
  have hpc : ∀ t, t ≠ p → (afterCreate s p caller).pc t = s.pc t :=
    fun t ht => Sys.goto_pc_other _ _ ht
  have hself : (afterCreate s p caller).pc p = .unblock caller s.created := Sys.goto_pc_self ..
  have hl : (afterCreate s p caller).allList = s.allList ++ [s.created] := rfl
  have hmk : (afterCreate s p caller).maker s.created = some p := by
    simp [afterCreate, Sys.maker, Past.new]
  have hu : ∀ t, (afterCreate s p caller).pc t = .unborn ↔ s.pc t = .unborn := by
    intro t
    by_cases ht : t = p
    · simp [ht, hself, hp]
    · rw [hpc t ht]
  have hnew : s.created ∉ s.allList := fun hn => Nat.lt_irrefl _ ((h.listed _).mp hn).1
  -- the new thread has no tid, parent or record yet: only `all_list` and its maker are new
  refine ⟨?nodup, ?listed, ?fresh, ?unborn, ?born, ?distinct, ?parents, ?makers, ?young, ?records,
    ?recordsNodup, ?points⟩
  case nodup =>
    rw [hl]
    rw [List.nodup_append]
    refine ⟨h.nodup, by simp, ?_⟩
    rintro a ha b hb rfl
    exact hnew (List.mem_singleton.mp hb ▸ ha)
  case listed =>
    intro t
    have hc : (afterCreate s p caller).created = s.created + 1 := rfl
    rw [hl, hc, List.mem_append, List.mem_singleton, h.listed t]
    by_cases ht : t = p
    · simp [ht, hself, hp, hlt, Nat.lt_succ_of_lt hlt]
    · rw [hpc t ht]
      by_cases hn : t = s.created
      · simp [hn, (h.fresh s.created (Nat.le_refl _)).1]
      · constructor
        · rintro (⟨hlt, hd⟩ | hn')
          · exact ⟨Nat.lt_succ_of_lt hlt, hd⟩
          · exact absurd hn' hn
        · rintro ⟨hlt, hd⟩
          exact Or.inl ⟨Nat.lt_of_le_of_ne (Nat.le_of_lt_succ hlt) hn, hd⟩
  case fresh =>
    intro t ht
    have hle : s.created ≤ t := Nat.le_of_succ_le ht
    obtain ⟨hu', hz, hc, hm⟩ := h.fresh t hle
    have hn : t ≠ s.created := fun hn => Nat.lt_irrefl _ (hn ▸ ht)
    exact ⟨(hu t).mpr hu', by rw [(hf t).2.1, hz], by rw [(hf t).2.2.1, hc], by rw [(hf t).2.2.2 hn, hm]⟩
  case unborn =>
    intro t ht
    rw [(hf t).1]
    exact h.unborn t ((hu t).mp ht)
  case born =>
    intro t ht
    rw [(hf t).1]
    exact h.born t fun hn => ht ((hu t).mpr hn)
  case distinct =>
    intro t u
    rw [(hf t).1, (hf u).1]
    exact h.distinct t u
  case parents =>
    intro c hc
    rw [(hf c).2.1] at hc ⊢
    have hn : c ≠ s.created := fun hn => hc (h.fresh c (Nat.le_of_eq hn.symm)).2.1
    obtain ⟨q, hm, hq⟩ := h.parents c hc
    exact ⟨q, by rw [(hf c).2.2.2 hn, hm], by rw [hq, (hf q).1]⟩
  case makers =>
    intro c q hm hn
    by_cases hc : c = s.created
    · rw [hc, hmk, Option.some.injEq] at hm
      exact hpn ((hu p).mp (hm ▸ hn))
    · rw [(hf c).2.2.2 hc] at hm
      exact h.makers c q hm ((hu q).mp hn)
  case young =>
    intro c q hm
    by_cases hc : c = s.created
    · have hcp : c ≠ p := fun hcp => Nat.lt_irrefl _ (hcp ▸ hc ▸ hlt)
      rw [hpc c hcp, hc, (h.fresh s.created (Nat.le_refl _)).1]
      exact Or.inr trivial
    · rw [(hf c).2.2.2 hc] at hm
      rw [(hf c).2.1]
      by_cases hcp : c = p
      · have hy := h.young c q hm
        rw [hcp, hp] at hy
        rw [hcp]
        exact Or.inl (hy.resolve_right id)
      · rw [hpc c hcp]
        exact h.young c q hm
  case records =>
    intro q tid ht
    rw [(hf q).2.2.1] at ht
    obtain ⟨c, hm, htid, hb, hz⟩ := h.records q tid ht
    have hn : c ≠ s.created := fun hn => hb (h.fresh c (Nat.le_of_eq hn.symm)).1
    exact ⟨c, by rw [(hf c).2.2.2 hn, hm], by rw [(hf c).1, htid], fun hu' => hb ((hu c).mp hu'),
      by rw [(hf c).2.1]; exact hz⟩
  case recordsNodup =>
    intro q
    rw [(hf q).2.2.1]
    exact h.recordsNodup q
  case points =>
    intro q
    by_cases hq : q = p
    · rw [hq, hself]
      exact ⟨hmk, by rw [(hf _).2.1]; exact (h.fresh _ (Nat.le_refl _)).2.1,
        (hu _).mpr (h.fresh _ (Nat.le_refl _)).1, Nat.lt_succ_self _⟩
    · rw [hpc q hq]
      -- the other threads point to threads that were made before
      refine Agrees.point ⟨Nat.le_succ _, (hf q).2.1, (hf q).2.2.1, ?_, ?_, ?_⟩ h (h.points q)
      · intro c hc hm
        have hn : c ≠ s.created := Nat.ne_of_lt hc
        exact ⟨by rw [(hf c).2.2.2 hn, hm], (hf c).1, (hf c).2.1, hu c⟩
      · intro t ht hz _
        rw [(hf t).1] at hz ⊢
        rw [hl, List.mem_append, List.mem_singleton] at ht
        exact ⟨ht.resolve_right fun hn => hz (hn ▸ h.unborn _ (h.fresh _ (Nat.le_refl _)).1), rfl⟩
      · intro e he hin
        rw [hl, List.mem_append, List.mem_singleton] at hin
        have hold : e ∈ s.allList := hin.resolve_right (Nat.ne_of_lt he)
        refine ⟨hold, fun t _ ht => ?_⟩
        rw [hl, listFrom_append hold]
        exact List.mem_append_left _ ht

end Tree

/-- The state after a new thread has been made ready. -/
def afterUnblock (s : Sys) (p : Ptr) (caller : Caller) (new e : Ptr) : Sys :=
  (({ s with nextTid := s.nextTid + 1 }.setThread new fun t => { t with tid := s.nextTid }).goto
    new .load).goto p (.search s.nextTid e (.link caller s.nextTid new))

section

variable {caller : Caller} {new e t : Ptr}

theorem afterUnblock_tid (ht : t ≠ new) : (afterUnblock s p caller new e).tid t = s.tid t := by
  simp [afterUnblock, Sys.tid, Sys.setThread_other _ _ ht]

theorem afterUnblock_tid_new : (afterUnblock s p caller new e).tid new = s.nextTid := by
  simp [afterUnblock, Sys.tid]

theorem afterUnblock_parentTid (t : Ptr) :
    (afterUnblock s p caller new e).parentTid t = s.parentTid t := by
  by_cases ht : t = new <;> simp [afterUnblock, Sys.parentTid, Sys.setThread_other, ht]

theorem afterUnblock_childTids (t : Ptr) :
    (afterUnblock s p caller new e).childTids t = s.childTids t := by
  by_cases ht : t = new <;> simp [afterUnblock, Sys.childTids, Sys.setThread_other, ht]

theorem afterUnblock_pc (ht : t ≠ p) (ht' : t ≠ new) :
    (afterUnblock s p caller new e).pc t = s.pc t :=
  (Sys.goto_pc_other _ _ ht).trans (Sys.goto_pc_other _ _ ht')

theorem afterUnblock_pc_self : (afterUnblock s p caller new e).pc p =
    .search s.nextTid e (.link caller s.nextTid new) :=
  Sys.goto_pc_self ..

theorem afterUnblock_pc_new (hne : new ≠ p) : (afterUnblock s p caller new e).pc new = .load :=
  (Sys.goto_pc_other _ _ hne).trans (Sys.goto_pc_self ..)

/-- Only the new thread has been made ready. -/
theorem afterUnblock_unborn (hp : s.pc p = .unblock caller new) (ht : t ≠ new) :
    (afterUnblock s p caller new e).pc t = .unborn ↔ s.pc t = .unborn := by
  by_cases htp : t = p
  · simp [htp, afterUnblock_pc_self, hp]
  · rw [afterUnblock_pc htp ht]

end

namespace Tree

/-- What another thread relies on is still there when the new thread has been made ready. -/
theorem unblock_agrees (h : Tree s) {caller : Caller} {new e q : Ptr}
    (hp : s.pc p = .unblock caller new) (hq : q ≠ p) :
    Agrees q s (afterUnblock s p caller new e) := by
  have hat := h.points p
  rw [hp] at hat
  obtain ⟨hmk, -, -, -⟩ := hat
  refine ⟨Nat.le_refl _, afterUnblock_parentTid q, afterUnblock_childTids q, ?_, ?_,
    fun _ _ hin => ⟨hin, fun _ _ => id⟩⟩
  · intro c hc hmc
    have hcn : c ≠ new := by
      rintro rfl
      rw [hmk, Option.some.injEq] at hmc
      exact hq hmc.symm
    exact ⟨hmc, afterUnblock_tid hcn, afterUnblock_parentTid c, afterUnblock_unborn hp hcn⟩
  · intro t ht _ hlt
    have htn : t ≠ new := by
      rintro rfl
      rw [afterUnblock_tid_new] at hlt
      exact Int.lt_irrefl _ hlt
    exact ⟨ht, (afterUnblock_tid htn).symm⟩

/-- What the threads know when the new thread has been made ready. -/
theorem unblock_points (h : Tree s) {caller : Caller} {new e : Ptr}
    (hp : s.pc p = .unblock caller new) (he : s.allList.head? = some e) (q : Ptr) :
    (afterUnblock s p caller new e).At q ((afterUnblock s p caller new e).pc q) := by
  have hat := h.points p
  rw [hp] at hat
  obtain ⟨hmk, hz, hun, -⟩ := hat
  have hne : new ≠ p := by
    rintro rfl
    rw [hp] at hun
    cases hun
  by_cases hq : q = p
  · rw [hq, afterUnblock_pc_self]
    have hel : e ∈ s.allList := List.mem_of_mem_head? he
    refine ⟨rfl, ⟨hmk, afterUnblock_tid_new, by rw [afterUnblock_parentTid, hz], ?_⟩,
      ((h.listed e).mp hel).1, fun _ _ t ht _ => ?_⟩
    · rw [afterUnblock_pc_new hne]
      exact Pc.noConfusion
    · show t ∈ listFrom e s.allList
      rw [listFrom_head he]
      exact ht
  · by_cases hqn : q = new
    · rw [hqn, afterUnblock_pc_new hne]
      trivial
    · rw [afterUnblock_pc hq hqn]
      exact (h.unblock_agrees hp hq).point h (h.points q)

theorem unblock (h : Tree s) {caller : Caller} {new e : Ptr} (hp : s.pc p = .unblock caller new)
    (he : s.allList.head? = some e) : Tree (afterUnblock s p caller new e) := by
  have hat := h.points p
  rw [hp] at hat
  obtain ⟨hmk, hz, hun, hlt⟩ := hat
  have hpn : s.pc p ≠ .unborn := by rw [hp]; exact Pc.noConfusion
  have hne : new ≠ p := fun hn => hpn (hn ▸ hun)
  have hbp := h.born p hpn
  have hm : ∀ t, (afterUnblock s p caller new e).maker t = s.maker t := fun _ => rfl
  have hu : ∀ t, t ≠ new → ((afterUnblock s p caller new e).pc t = .unborn ↔ s.pc t = .unborn) :=
    fun _ => afterUnblock_unborn hp
  refine ⟨h.nodup, ?listed, ?fresh, ?unborn, ?born, ?distinct, ?parents, ?makers, ?young, ?records,
    ?recordsNodup, h.unblock_points hp he⟩
  case listed =>
    intro t
    show t ∈ s.allList ↔ t < s.created ∧ _
    rw [h.listed t]
    by_cases ht : t = p
    · simp [ht, afterUnblock_pc_self, hp]
    · by_cases htn : t = new
      · simp [htn, afterUnblock_pc_new hne, hun]
      · rw [afterUnblock_pc ht htn]
  case fresh =>
    intro t ht
    have htn : t ≠ new := fun htn => Nat.lt_irrefl _ (Nat.lt_of_lt_of_le (htn ▸ hlt) ht)
    obtain ⟨hu', hz', hc, hm'⟩ := h.fresh t ht
    exact ⟨(hu t htn).mpr hu', by rw [afterUnblock_parentTid, hz'],
      by rw [afterUnblock_childTids, hc], by rw [hm, hm']⟩
  case unborn =>
    intro t ht
    have htn : t ≠ new := by
      rintro rfl
      rw [afterUnblock_pc_new hne] at ht
      cases ht
    rw [afterUnblock_tid htn]
    exact h.unborn t ((hu t htn).mp ht)
  case born =>
    intro t ht
    show 0 < _ ∧ _ < s.nextTid + 1
    by_cases htn : t = new
    · rw [htn, afterUnblock_tid_new]
      exact ⟨Int.lt_trans hbp.1 hbp.2, Int.lt_succ _⟩
    · rw [afterUnblock_tid htn]
      have hb := h.born t fun hn => ht ((hu t htn).mpr hn)
      exact ⟨hb.1, Int.lt_trans hb.2 (Int.lt_succ _)⟩
  case distinct =>
    -- no thread had the new tid
    have hno : ∀ t, s.tid t ≠ s.nextTid := by
      intro t
      by_cases hb : s.pc t = .unborn
      · rw [h.unborn t hb]
        exact Int.ne_of_lt (Int.lt_trans hbp.1 hbp.2)
      · exact Int.ne_of_lt (h.born t hb).2
    intro t u
    by_cases ht : t = new <;> by_cases hu' : u = new
    · exact fun _ _ => ht.trans hu'.symm
    · rw [ht, afterUnblock_tid_new, afterUnblock_tid hu']
      exact fun hn _ => absurd hn.symm (hno u)
    · rw [hu', afterUnblock_tid_new, afterUnblock_tid ht]
      exact fun hn _ => absurd hn (hno t)
    · rw [afterUnblock_tid ht, afterUnblock_tid hu']
      exact h.distinct t u
  case parents =>
    intro c hc
    rw [afterUnblock_parentTid] at hc ⊢
    obtain ⟨q, hmq, hq⟩ := h.parents c hc
    have hqn : q ≠ new := fun hn => h.makers c q hmq (hn ▸ hun)
    exact ⟨q, by rw [hm, hmq], by rw [hq, afterUnblock_tid hqn]⟩
  case makers =>
    intro c q hmq hn
    rw [hm] at hmq
    have hqn : q ≠ new := fun hn => h.makers c q hmq (hn ▸ hun)
    exact h.makers c q hmq ((hu q hqn).mp hn)
  case young =>
    intro c q hmq
    rw [hm] at hmq
    rw [afterUnblock_parentTid]
    by_cases hcn : c = new
    · rw [hcn, afterUnblock_pc_new hne]
      exact Or.inr trivial
    · by_cases hcp : c = p
      · have hy := h.young c q hmq
        rw [hcp, hp] at hy
        rw [hcp]
        exact Or.inl (hy.resolve_right id)
      · rw [afterUnblock_pc hcp hcn]
        exact h.young c q hmq
  case records =>
    intro q tid ht
    rw [afterUnblock_childTids] at ht
    obtain ⟨c, hmc, htc, hb, hzc⟩ := h.records q tid ht
    have hcn : c ≠ new := fun hn => hb (hn ▸ hun)
    exact ⟨c, by rw [hm, hmc], by rw [afterUnblock_tid hcn, htc], fun hn => hb ((hu c hcn).mp hn),
      by rw [afterUnblock_parentTid]; exact hzc⟩
  case recordsNodup =>
    intro q
    rw [afterUnblock_childTids]
    exact h.recordsNodup q

end Tree

/-- The state after a new thread has been told who its parent is. -/
def afterLink (s : Sys) (p : Ptr) (caller : Caller) (tid : Tid) (new : Ptr) : Sys :=
  (s.setThread new fun r => { r with parentTid := (s.thread p).tid }).goto p
    (.record caller tid new)

section

variable {caller : Caller} {tid : Tid} {new t : Ptr}

theorem afterLink_tid (t : Ptr) : (afterLink s p caller tid new).tid t = s.tid t := by
  by_cases ht : t = new <;> simp [afterLink, Sys.tid, Sys.setThread_other, ht]

theorem afterLink_parentTid (ht : t ≠ new) :
    (afterLink s p caller tid new).parentTid t = s.parentTid t := by
  simp [afterLink, Sys.parentTid, Sys.setThread_other _ _ ht]

theorem afterLink_parentTid_new : (afterLink s p caller tid new).parentTid new = s.tid p := by
  simp [afterLink, Sys.parentTid, Sys.tid]

theorem afterLink_childTids (t : Ptr) :
    (afterLink s p caller tid new).childTids t = s.childTids t := by
  by_cases ht : t = new <;> simp [afterLink, Sys.childTids, Sys.setThread_other, ht]

theorem afterLink_pc (ht : t ≠ p) : (afterLink s p caller tid new).pc t = s.pc t :=
  Sys.goto_pc_other _ _ ht

theorem afterLink_pc_self : (afterLink s p caller tid new).pc p = .record caller tid new :=
  Sys.goto_pc_self ..

theorem afterLink_unborn (hp : s.pc p = .found new (.link caller tid new)) (t : Ptr) :
    (afterLink s p caller tid new).pc t = .unborn ↔ s.pc t = .unborn := by
  by_cases ht : t = p
  · simp [ht, afterLink_pc_self, hp]
  · rw [afterLink_pc ht]

end

namespace Tree

/-- The search of `process_execute` has found the new thread. -/
theorem found_new (h : Tree s) {caller : Caller} {tid : Tid} {t new : Ptr}
    (hp : s.pc p = .found t (.link caller tid new)) :
    t = new ∧ s.maker new = some p ∧ s.tid new = tid ∧ s.parentTid new = 0 ∧
      s.pc new ≠ .unborn ∧ (s.pc new).Young := by
  have hat := h.points p
  rw [hp] at hat
  obtain ⟨⟨hm, ht, hz, hu⟩, ho⟩ := hat
  have hy := (h.young new p hm).resolve_left fun hn => hn hz
  have hd : s.pc new ≠ .dead := fun hd => by rw [hd] at hy; exact hy
  have hlive := (h.listed new).mpr ⟨h.lt_created hu, hd⟩
  have htid : s.goal p (.link caller tid new) = s.tid new := ht.symm
  have hpos : s.goal p (.link caller tid new) ≠ 0 := htid ▸ Int.ne_of_gt (h.born new hu).1
  exact ⟨ho hpos new hlive htid.symm, hm, ht, hz, hu, hy⟩

/-- What another thread relies on is still there when the new thread has been told its parent. -/
theorem link_agrees (h : Tree s) {caller : Caller} {tid : Tid} {t q : Ptr}
    (hp : s.pc p = .found t (.link caller tid t)) (hq : q ≠ p) (hqt : q ≠ t) :
    Agrees q s (afterLink s p caller tid t) := by
  obtain ⟨-, hmk, -⟩ := h.found_new hp
  refine ⟨Nat.le_refl _, afterLink_parentTid hqt, afterLink_childTids q, ?_,
    fun u hin _ _ => ⟨hin, (afterLink_tid u).symm⟩, fun _ _ hin => ⟨hin, fun _ _ => id⟩⟩
  intro c hc hmc
  have hct : c ≠ t := by
    rintro rfl
    rw [hmk, Option.some.injEq] at hmc
    exact hq hmc.symm
  exact ⟨hmc, afterLink_tid c, afterLink_parentTid hct, afterLink_unborn hp c⟩

/-- What the threads know when the new thread has been told its parent. -/
theorem link_points (h : Tree s) {caller : Caller} {tid : Tid} {t : Ptr}
    (hp : s.pc p = .found t (.link caller tid t)) (q : Ptr) :
    (afterLink s p caller tid t).At q ((afterLink s p caller tid t).pc q) := by
  obtain ⟨-, hmk, htid, hz, hun, hy⟩ := h.found_new hp
  have hpn : s.pc p ≠ .unborn := by rw [hp]; exact Pc.noConfusion
  have hpos : tid ≠ 0 := htid ▸ Int.ne_of_gt (h.born t hun).1
  by_cases hq : q = p
  · rw [hq, afterLink_pc_self]
    refine ⟨hmk, by rw [afterLink_tid, htid], hpos,
      by rw [afterLink_parentTid_new]; exact Int.ne_of_gt (h.born p hpn).1, ?_⟩
    -- a thread that has a record has been linked
    rw [afterLink_childTids]
    intro hin
    obtain ⟨c, -, htc, -, hzc⟩ := h.records p tid hin
    have hct : c = t := h.distinct c t (htc.trans htid.symm) (by rw [htc]; exact hpos)
    exact hzc (hct ▸ hz)
  · rw [afterLink_pc hq]
    by_cases hqt : q = t
    · -- the new thread is still at a point where it knows nothing
      rw [hqt]
      generalize s.pc t = pc at hy
      cases pc <;> trivial
    · exact (h.link_agrees hp hq hqt).point h (h.points q)

theorem link (h : Tree s) {caller : Caller} {tid : Tid} {t : Ptr}
    (hp : s.pc p = .found t (.link caller tid t)) : Tree (afterLink s p caller tid t) := by
  obtain ⟨-, hmk, htid, hz, hun, hy⟩ := h.found_new hp
  have hm : ∀ u, (afterLink s p caller tid t).maker u = s.maker u := fun _ => rfl
  have hu := afterLink_unborn hp
  have hbp := h.born p (by rw [hp]; exact Pc.noConfusion)
  have hnz : ∀ u, s.parentTid u ≠ 0 → (afterLink s p caller tid t).parentTid u ≠ 0 := by
    intro u hn
    have hut : u ≠ t := fun hut => hn (hut ▸ hz)
    rw [afterLink_parentTid hut]
    exact hn
  refine ⟨h.nodup, ?listed, ?fresh, ?unborn, ?born, ?distinct, ?parents, ?makers, ?young,
    ?records, ?recordsNodup, h.link_points hp⟩
  case listed =>
    intro u
    show u ∈ s.allList ↔ u < s.created ∧ _
    rw [h.listed u]
    by_cases hup : u = p
    · simp [hup, afterLink_pc_self, hp]
    · rw [afterLink_pc hup]
  case fresh =>
    intro u hle
    obtain ⟨hu', hz', hc, hm'⟩ := h.fresh u hle
    have hut : u ≠ t := fun hut => hun (hut ▸ hu')
    exact ⟨(hu u).mpr hu', by rw [afterLink_parentTid hut, hz'], by rw [afterLink_childTids, hc],
      by rw [hm, hm']⟩
  case unborn =>
    intro u hun
    rw [afterLink_tid]
    exact h.unborn u ((hu u).mp hun)
  case born =>
    intro u hb
    rw [afterLink_tid]
    exact h.born u fun hn => hb ((hu u).mpr hn)
  case distinct =>
    intro u v
    rw [afterLink_tid, afterLink_tid]
    exact h.distinct u v
  -- the one new `parent_tid` is the tid of the maker
  case parents =>
    intro c hc
    by_cases hct : c = t
    · rw [hct]
      exact ⟨p, by rw [hm, hmk], by rw [afterLink_parentTid_new, afterLink_tid]⟩
    · rw [afterLink_parentTid hct] at hc ⊢
      obtain ⟨q, hmq, hq⟩ := h.parents c hc
      exact ⟨q, by rw [hm, hmq], by rw [hq, afterLink_tid]⟩
  case makers =>
    intro c q hmq
    rw [hm] at hmq
    exact fun hn => h.makers c q hmq ((hu q).mp hn)
  case young =>
    intro c q hmq
    rw [hm] at hmq
    rcases h.young c q hmq with hn | hy'
    · exact Or.inl (hnz c hn)
    · have hcp : c ≠ p := by
        rintro rfl
        rw [hp] at hy'
        exact hy'
      rw [afterLink_pc hcp]
      exact Or.inr hy'
  case records =>
    intro q tid' ht'
    rw [afterLink_childTids] at ht'
    obtain ⟨c, hmc, htc, hb, hzc⟩ := h.records q tid' ht'
    exact ⟨c, by rw [hm, hmc], by rw [afterLink_tid, htc], fun hn => hb ((hu c).mp hn), hnz c hzc⟩
  case recordsNodup =>
    intro q
    rw [afterLink_childTids]
    exact h.recordsNodup q

theorem remove (h : Tree s) (hp : s.pc p = .remove) :
    Tree ({ s with allList := s.allList.erase p }.goto p .dead) := by
  have hpn : s.pc p ≠ .unborn := by rw [hp]; exact Pc.noConfusion
  generalize hs' : ({ s with allList := s.allList.erase p }.goto p .dead : Sys) = s'
  have hcr : s'.created = s.created := hs' ▸ rfl
  have hal : s'.allList = s.allList.erase p := hs' ▸ rfl
  have hth : s'.thread = s.thread := hs' ▸ rfl
  have hpa : s'.past = s.past := hs' ▸ rfl
  have hpc : ∀ u, u ≠ p → s'.pc u = s.pc u := fun u hu => hs' ▸ Sys.goto_pc_other _ _ hu
  have hself : s'.pc p = .dead := hs' ▸ Sys.goto_pc_self ..
  have htid : ∀ u, s'.tid u = s.tid u := fun u => by rw [Sys.tid, Sys.tid, hth]
  have hpar : ∀ u, s'.parentTid u = s.parentTid u := fun u => by
    rw [Sys.parentTid, Sys.parentTid, hth]
  have hch : ∀ u, s'.childTids u = s.childTids u := fun u => by
    rw [Sys.childTids, Sys.childTids, hth]
  have hm : ∀ u, s'.maker u = s.maker u := fun u => by rw [Sys.maker, Sys.maker, hpa]
  have hu : ∀ u, s'.pc u = .unborn ↔ s.pc u = .unborn := by
    intro u
    by_cases hup : u = p
    · simp [hup, hself, hp]
    · rw [hpc u hup]
  refine ⟨hal ▸ h.nodup.erase p, ?listed, ?fresh, ?unborn, ?born, ?distinct, ?parents, ?makers,
    ?young, ?records, ?recordsNodup, ?points⟩
  case listed =>
    intro u
    rw [hal, hcr, h.nodup.mem_erase_iff]
    by_cases hup : u = p
    · simp [hup, hself]
    · rw [hpc u hup, h.listed u]
      simp [hup]
  case fresh =>
    intro u hle
    rw [hcr] at hle
    obtain ⟨hu', hz', hc, hm'⟩ := h.fresh u hle
    exact ⟨(hu u).mpr hu', by rw [hpar, hz'], by rw [hch, hc], by rw [hm, hm']⟩
  case unborn =>
    intro u hun
    rw [htid]
    exact h.unborn u ((hu u).mp hun)
  case born =>
    intro u hb
    rw [htid, show s'.nextTid = s.nextTid from hs' ▸ rfl]
    exact h.born u fun hn => hb ((hu u).mpr hn)
  case distinct =>
    intro u v
    rw [htid, htid]
    exact h.distinct u v
  case parents =>
    intro c
    rw [hpar]
    intro hc
    obtain ⟨q, hmq, hq⟩ := h.parents c hc
    exact ⟨q, by rw [hm, hmq], by rw [hq, htid]⟩
  case makers =>
    intro c q hmq
    rw [hm] at hmq
    exact fun hn => h.makers c q hmq ((hu q).mp hn)
  case young =>
    intro c q hmq
    rw [hm] at hmq
    rw [hpar]
    rcases h.young c q hmq with hn | hy
    · exact Or.inl hn
    · have hcp : c ≠ p := by
        rintro rfl
        rw [hp] at hy
        exact hy
      rw [hpc c hcp]
      exact Or.inr hy
  case records =>
    intro q tid ht
    rw [hch] at ht
    obtain ⟨c, hmc, htc, hb, hzc⟩ := h.records q tid ht
    exact ⟨c, by rw [hm, hmc], by rw [htid, htc], fun hn => hb ((hu c).mp hn),
      by rw [hpar]; exact hzc⟩
  case recordsNodup =>
    intro q
    rw [hch]
    exact h.recordsNodup q
  case points =>
    intro q
    by_cases hq : q = p
    · rw [hq, hself]
      trivial
    · rw [hpc q hq]
      -- a walk of the list that has come past the thread is not disturbed
      have hag : Agrees q s s' := by
        refine ⟨Nat.le_of_eq hcr.symm, hpar q, hch q, ?_, ?_, ?_⟩
        · exact fun c _ hmc => ⟨by rw [hm, hmc], htid c, hpar c, hu c⟩
        · exact fun u hin _ _ => ⟨List.mem_of_mem_erase (hal ▸ hin), (htid u).symm⟩
        · intro e _ hin
          rw [hal, h.nodup.mem_erase_iff] at hin
          refine ⟨hin.2, fun u hu hf => ?_⟩
          rw [hal, h.nodup.mem_erase_iff] at hu
          rw [hal]
          exact mem_listFrom_erase hin.1.symm hu.1 hf
      exact hag.point h (h.points q)

end Tree

/-! ## Every step -/

/-- A step that leaves all that `Tree` is about alone, but for the point its thread is at. -/
structure Quiet (s : Sys) (p : Ptr) (s' : Sys) : Prop extends Still s p s' where
  own : s'.childTids p = s.childTids p

namespace Quiet

variable {s' : Sys}

theorem refl (s : Sys) (p : Ptr) : Quiet s p s :=
  { created := rfl, nextTid := rfl, allList := rfl, tid := fun _ => rfl, parentTid := fun _ => rfl,
    childTids := fun _ _ => rfl, maker := fun _ => rfl, pc := fun _ _ => rfl, own := rfl }

theorem setThread (h : Quiet s p s') (t : Ptr) {f : Thread → Thread}
    (hf : (f (s'.thread t)).tid = s'.tid t ∧ (f (s'.thread t)).parentTid = s'.parentTid t ∧
      (f (s'.thread t)).childThreadList.map (·.childTid) = s'.childTids t) :
    Quiet s p (s'.setThread t f) := by
  have htid : ∀ u, (s'.setThread t f).tid u = s.tid u := by
    intro u
    rw [← h.tid u]
    by_cases hu : u = t
    · rw [hu, Sys.tid, Sys.setThread_self, hf.1]
    · rw [Sys.tid, Sys.setThread_other s' f hu, Sys.tid]
  have hpar : ∀ u, (s'.setThread t f).parentTid u = s.parentTid u := by
    intro u
    rw [← h.parentTid u]
    by_cases hu : u = t
    · rw [hu, Sys.parentTid, Sys.setThread_self, hf.2.1]
    · rw [Sys.parentTid, Sys.setThread_other s' f hu, Sys.parentTid]
  have hc : ∀ u, (s'.setThread t f).childTids u = s'.childTids u := by
    intro u
    by_cases hu : u = t
    · rw [hu, Sys.childTids, Sys.setThread_self, hf.2.2]
    · rw [Sys.childTids, Sys.setThread_other s' f hu, Sys.childTids]
  exact { h with
    tid := htid
    parentTid := hpar
    childTids := fun u hu => (hc u).trans (h.childTids u hu)
    own := (hc p).trans h.own }

theorem goto (h : Quiet s p s') (pc : Pc) : Quiet s p (s'.goto p pc) :=
  { h.toStill.goto pc with own := h.own }

theorem setPast (h : Quiet s p s') (t : Ptr) {f : Past → Past} (hf : ∀ r, (f r).maker = r.maker) :
    Quiet s p (s'.setPast t f) :=
  { h.toStill.setPast t hf with own := h.own }

end Quiet

namespace Tree

variable {s' : Sys} {pc pc' : Pc}

/-- A quiet step between two points of a thread that has been told who its parent is. -/
theorem move (h : Tree s) (hq : Quiet s p s') (hp : s.pc p = pc) (hp' : s'.pc p = pc')
    (hk : pc ≠ .unborn ∧ pc ≠ .dead ∧ ¬ pc.Young) (hk' : pc' ≠ .unborn ∧ pc' ≠ .dead)
    (ha : s.At p pc') : Tree s' := by
  subst hp hp'
  exact h.quiet hq.toStill hq.own hk.1 hk.2.1 hk'.1 hk'.2 (fun hy => absurd hy hk.2.2) ha

theorem at_start (h : Tree s) {after : After} {e : Ptr} (hl : s.Links p after)
    (he : s.allList.head? = some e) : s.At p (.search (s.goal p after) e after) := by
  refine ⟨rfl, hl, ((h.listed e).mp (List.mem_of_mem_head? he)).1, fun _ _ t ht _ => ?_⟩
  rw [listFrom_head he]
  exact ht

theorem at_found (h : Tree s) {tid : Tid} {e : Ptr} {after : After}
    (hp : s.pc p = .search tid e after) (hs : ¬ s.Stray p)
    (hf : (s.thread e).tid = tid ∨ listNext e s.allList = none) : s.At p (.found e after) := by
  have hat := h.points p
  rw [hp] at hat
  obtain ⟨hg, hl, -, hw⟩ := hat
  have he : e ∈ s.allList := by simpa [Sys.Stray, hp] using hs
  refine ⟨hl, fun hz u hu htid => ?_⟩
  rw [← hg] at hz htid
  rcases hf with hf | hf
  · exact h.distinct e u (hf.trans htid.symm) (fun hn => hz (hf.symm.trans hn))
  · exact (mem_listFrom_last he hf (hw hz he u hu htid)).symm

theorem at_next (h : Tree s) {tid : Tid} {e e' : Ptr} {after : After}
    (hp : s.pc p = .search tid e after) (hs : ¬ s.Stray p) (hf : (s.thread e).tid ≠ tid)
    (hn : listNext e s.allList = some e') : s.At p (.search tid e' after) := by
  have hat := h.points p
  rw [hp] at hat
  obtain ⟨hg, hl, -, hw⟩ := hat
  have he : e ∈ s.allList := by simpa [Sys.Stray, hp] using hs
  have hfrom := listFrom_next h.nodup hn
  have hin' : e' ∈ s.allList := (listFrom_sublist e s.allList).subset
    (List.mem_of_mem_tail (List.mem_of_mem_head? hn))
  refine ⟨hg, hl, ((h.listed e').mp hin').1, fun hz _ t ht htid => ?_⟩
  have hin := hw hz he t ht htid
  rw [listFrom_eq he] at hin
  rw [hfrom]
  rcases List.mem_cons.mp hin with rfl | hin
  · exact absurd htid hf
  · exact hin

end Tree

theorem Step.born {s' : Sys} (h : Step s p s') : s.pc p ≠ .unborn := by
  cases h <;> simp [*]

/-- The points of `exit` and of `process_exit` where a thread changes its record. -/
def Pc.Tells : Pc → Prop
  | .found _ (.exit _) => True
  | .found _ .leave => True
  | _ => False

instance (pc : Pc) : Decidable pc.Tells := by
  unfold Pc.Tells
  split <;> infer_instance

/-- The points whose step changes more of the tree than where its thread is. -/
def Pc.Alters : Pc → Prop
  | .create _ => True
  | .unblock _ _ => True
  | .found _ (.link _ _ _) => True
  | .record _ _ _ => True
  | .release => True
  | .remove => True
  | _ => False

theorem Step.quiet {s' : Sys} (h : Step s p s') (hn : ¬ (s.pc p).Alters) : Quiet s p s' := by
  have hq := Quiet.refl s p
  cases h with
  | create hp | noCreate hp | unblock hp | link hp | record hp | noRecord hp | release hp | remove hp =>
    rw [hp] at hn
    exact absurd trivial hn
  | finish | callExit | pageFault | kill | execReturn | load | loadFault | waitReturn =>
    refine .goto (.setPast hq p ?_) _
    exact fun _ => rfl
  | loadDown =>
    refine .goto (.setThread hq p ?_) _
    exact ⟨rfl, rfl, rfl⟩
  | @loadState t | @loadUp t =>
    refine .goto (.setThread hq t ?_) _
    exact ⟨rfl, rfl, rfl⟩
  | @loadUpFail t =>
    refine .goto (.setPast (.setThread (.setThread hq t ?_) p ?_) p ?_) _
    · exact ⟨rfl, rfl, rfl⟩
    · exact ⟨rfl, rfl, rfl⟩
    · exact fun _ => rfl
  | waitDown _ hc | waitMark _ hc =>
    refine .goto (.setThread hq p ?_) _
    exact ⟨rfl, rfl, map_childTid_set hc rfl⟩
  | @exit t =>
    refine .goto (.setThread (.setThread hq p ?_) t ?_) _
    · exact ⟨rfl, rfl, rfl⟩
    · exact ⟨rfl, rfl, map_childTid_storeExitCode _ _ _⟩
  | @wake t =>
    refine .goto (.setThread hq t ?_) _
    exact ⟨rfl, rfl, map_childTid_upChild _ _⟩
  | _ => exact hq.goto _

theorem Step.maker_eq {s' : Sys} (h : Step s p s') (hn : ∀ caller, s.pc p ≠ .create caller)
    (c : Ptr) : s'.maker c = s.maker c := by
  cases h with
  | create hp => exact absurd hp (hn _)
  | finish | callExit | pageFault | kill | record | execReturn | load | loadFault | loadUpFail
  | waitReturn =>
    simp only [Sys.maker, Sys.goto_past, Sys.setPast_past, Sys.setThread_past]
    grind
  | _ => rfl

/-- The state after the thread has got the record of a child. -/
def afterRecord (s : Sys) (p : Ptr) (caller : Caller) (tid : Tid) (new : Ptr) : Sys :=
  ((s.setThread p fun t =>
    { t with childThreadList := t.childThreadList ++ [newChild tid] }).setPast p fun r =>
    { r with executed := if caller = .runTask then tid :: r.executed else r.executed }).goto p
      (afterExecute tid (some new) caller)

theorem afterRecord_still (caller : Caller) (tid : Tid) (new : Ptr) :
    Still s p (afterRecord s p caller tid new) := by
  refine .goto (.setPast (.setThread (Quiet.refl s p).toStill ?_) p ?_) _
  · exact ⟨rfl, rfl⟩
  · exact fun _ => rfl

theorem afterRecord_childTids (caller : Caller) (tid : Tid) (new : Ptr) :
    (afterRecord s p caller tid new).childTids p = s.childTids p ++ [tid] := by
  simp [afterRecord, Sys.childTids, newChild]

theorem release_still : Still s p ((s.setThread p fun r => { r with childThreadList := [] }).goto p
    .remove) := by
  refine .goto (.setThread (Quiet.refl s p).toStill ?_) _
  exact ⟨rfl, rfl⟩

theorem Tree.record (h : Tree s) {caller : Caller} {tid : Tid} {new : Ptr}
    (hp : s.pc p = .record caller tid new) : Tree (afterRecord s p caller tid new) := by
  have hat := h.points p
  rw [hp] at hat
  obtain ⟨hm, htid, hz, hpz, hin⟩ := hat
  have hu : s.pc new ≠ .unborn := fun hn => hz (htid ▸ h.unborn new hn)
  have hself : (afterRecord s p caller tid new).pc p = afterExecute tid (some new) caller :=
    Sys.goto_pc_self ..
  refine h.still (afterRecord_still caller tid new) (by simp [hp]) (by simp [hp]) ?_ ?_ ?_ ?_ ?_ ?_
  · rw [hself]
    cases caller <;> simp [afterExecute]
  · rw [hself]
    cases caller <;> simp [afterExecute]
  · simp [hp, Pc.Young]
  · intro tid' ht'
    rw [afterRecord_childTids, List.mem_append, List.mem_singleton] at ht'
    rcases ht' with ht' | rfl
    · exact h.records p tid' ht'
    · exact ⟨new, hm, htid, hu, hpz⟩
  · rw [afterRecord_childTids, List.nodup_append]
    refine ⟨h.recordsNodup p, by simp, ?_⟩
    rintro a ha b hb rfl
    rw [List.mem_singleton.mp hb] at ha
    exact hin ha
  · rw [hself]
    cases caller <;> trivial

/-- The points where `load` is over and a thread looks for its parent. -/
def Pc.Looks : Pc → Prop
  | .loaded _ => True
  | .faulted => True
  | _ => False

instance (pc : Pc) : Decidable pc.Looks := by
  unfold Pc.Looks
  split <;> infer_instance

/-- A child that looks for its parent at the end of its `load` has been told who that is. -/
def Told (s : Sys) (p : Ptr) : Prop := (s.pc p).Looks → s.parentTid p ≠ 0

instance (s : Sys) (p : Ptr) : Decidable (Told s p) := inferInstanceAs (Decidable (_ → _))

theorem step_tree {s' : Sys} (h : Tree s) (hs : ¬ s.Stray p) (ht : Told s p) (hstep : Step s p s') :
    Tree s' := by
  have hat := h.points p
  have hq := hstep.quiet
  have hgo : ∀ {s'' : Sys} {pc' : Pc}, (s''.goto p pc').pc p = pc' := Sys.goto_pc_self ..
  cases hstep with
  | create hp => exact h.create hp
  | unblock hp he => exact h.unblock hp he
  | link hp =>
    obtain ⟨rfl, -⟩ := h.found_new hp
    exact h.link hp
  | record hp => exact h.record hp
  | release hp =>
    refine h.still release_still ?_ ?_ ?_ ?_ ?_ ?_ ?_ ?_
    all_goals simp [hp, Pc.Young, Sys.childTids, Sys.At]
  | remove hp => exact h.remove hp
  | @noFnCopy caller hp | @noProgramName caller hp | @noCreate caller hp
  | @noRecord caller _ _ hp =>
    refine h.move ((Quiet.refl s p).goto _) hp hgo (by simp [Pc.Young]) ?_ ?_
    · cases caller <;> simp [afterExecute]
    · cases caller <;> trivial
  | @waitReturn caller tid result hp =>
    refine h.move (hq (by simp [hp, Pc.Alters])) hp hgo (by simp [Pc.Young]) ?_ ?_
    · cases caller <;> simp [afterWait]
    · cases caller <;> trivial
  -- the walks along `all_list`
  | callExit status e hp he =>
    exact h.move (hq (by simp [hp, Pc.Alters])) hp hgo (by simp [Pc.Young]) (by simp)
      (h.at_start (show s.Links p (.exit status) from trivial) he)
  | pageFault e hp he =>
    exact h.move (hq (by simp [hp, Pc.Alters])) hp hgo (by simp [Pc.Young]) (by simp)
      (h.at_start (show s.Links p (.exit (-1)) from trivial) he)
  | leave hp he =>
    exact h.move (hq (by simp [hp, Pc.Alters])) hp hgo (by simp [Pc.Young]) (by simp)
      (h.at_start (show s.Links p .leave from trivial) he)
  | searchFound hp hf =>
    exact h.move (hq (by simp [hp, Pc.Alters])) hp hgo (by simp [Pc.Young]) (by simp)
      (h.at_found hp hs hf)
  | searchNext hp hf he =>
    exact h.move (hq (by simp [hp, Pc.Alters])) hp hgo (by simp [Pc.Young]) (by simp)
      (h.at_next hp hs hf he)
  | loadState hp =>
    rw [hp] at hat
    exact h.move (hq (by simp [hp, Pc.Alters])) hp hgo (by simp [Pc.Young]) (by simp) hat.2
  -- a new thread
  | load success hp =>
    have hq' := hq (by simp [hp, Pc.Alters])
    exact h.quiet hq'.toStill hq'.own (by simp [hp]) (by simp [hp]) (by simp) (by simp)
      (fun _ => Or.inr (by rw [hgo]; trivial)) (by rw [hgo]; trivial)
  | loadFault hp =>
    have hq' := hq (by simp [hp, Pc.Alters])
    exact h.quiet hq'.toStill hq'.own (by simp [hp]) (by simp [hp]) (by simp) (by simp)
      (fun _ => Or.inr (by rw [hgo]; trivial)) (by rw [hgo]; trivial)
  | faulted hp he =>
    have hq' := hq (by simp [hp, Pc.Alters])
    exact h.quiet hq'.toStill hq'.own (by simp [hp]) (by simp [hp]) (by simp) (by simp)
      (fun _ => Or.inl (ht (by rw [hp]; trivial)))
      (by rw [hgo]; exact h.at_start (show s.Links p (.exit (-1)) from trivial) he)
  | @loaded success e hp he =>
    have hq' := hq (by simp [hp, Pc.Alters])
    exact h.quiet hq'.toStill hq'.own (by simp [hp]) (by simp [hp]) (by simp) (by simp)
      (fun _ => Or.inl (ht (by rw [hp]; trivial)))
      (by rw [hgo]; exact h.at_start (show s.Links p (.started success) from trivial) he)
  -- nothing is known at the next point
  | runTask hp | finish hp | exec hp | callWait _ hp | kill hp | fnCopy hp | programName hp
  | loadDown hp | loadTest hp | execReturn hp | loadUp hp | loadUpFail hp | waitNone hp
  | waitAgain hp | waitFound hp | waitDown hp | waitMark hp | exit hp | childless hp | wake hp =>
    exact h.move (hq (by simp [hp, Pc.Alters])) hp hgo (by simp [Pc.Young]) (by simp) trivial

end

theorem boot_pc (t : Ptr) : boot.pc t = .actions ∨ boot.pc t = .idle ∨ boot.pc t = .unborn := by
  simp only [boot]
  split
  · exact Or.inl rfl
  · split
    · exact Or.inr (Or.inl rfl)
    · exact Or.inr (Or.inr rfl)

theorem boot_tree : Tree boot := by
  have htid : ∀ t, boot.tid t = if t = 0 then 1 else if t = 1 then 2 else 0 := fun _ => rfl
  refine ⟨by decide, ?listed, ?fresh, ?unborn, ?born, ?distinct, ?parents, ?makers, ?young, ?records,
    ?recordsNodup, ?points⟩
  case listed =>
    intro t
    have hd : boot.pc t ≠ .dead := by rcases boot_pc t with h | h | h <;> simp [h]
    have hl : t ∈ boot.allList ↔ t = 0 ∨ t = 1 := by simp [boot]
    have hc : boot.created = 2 := rfl
    rw [hl, hc]
    exact ⟨fun ht => ⟨by rcases ht with rfl | rfl <;> decide, hd⟩,
      fun ht => Nat.le_one_iff_eq_zero_or_eq_one.mp (Nat.le_of_lt_succ ht.1)⟩
  case fresh =>
    intro t (ht : 2 ≤ t)
    have h0 : t ≠ 0 := fun h => absurd (h ▸ ht) (by decide)
    have h1 : t ≠ 1 := fun h => absurd (h ▸ ht) (by decide)
    exact ⟨by simp [boot, h0, h1], rfl, rfl, rfl⟩
  case unborn =>
    intro t ht
    simp only [boot] at ht
    rw [htid]
    split at ht
    · cases ht
    · split at ht
      · cases ht
      · next h0 h1 => rw [if_neg h0, if_neg h1]
  case born =>
    intro t ht
    have hn : boot.nextTid = 3 := rfl
    simp only [boot] at ht
    rw [htid, hn]
    split
    · decide
    · split
      · decide
      · next h0 h1 =>
        rw [if_neg h0, if_neg h1] at ht
        exact absurd rfl ht
  case distinct =>
    intro t u
    rw [htid, htid]
    grind
  case parents => exact fun c hc => absurd rfl hc
  case makers =>
    intro c q hm
    cases hm
  case young =>
    intro c q hm
    cases hm
  case records =>
    intro q tid ht
    cases ht
  case recordsNodup => exact fun q => List.nodup_nil
  case points =>
    intro q
    rcases boot_pc q with h | h | h <;> rw [h] <;> trivial

namespace Tree

variable {s : Sys} {c q : Ptr}

theorem parentTid_eq (h : Tree s) (hm : s.maker c = some q) (hz : s.parentTid c ≠ 0) :
    s.parentTid c = s.tid q := by
  obtain ⟨q', hm', hq'⟩ := h.parents c hz
  rw [hm, Option.some.injEq] at hm'
  rw [hq', hm']

theorem told (h : Tree s) (hm : s.maker c = some q) (hy : ¬ (s.pc c).Young) : s.parentTid c ≠ 0 :=
  (h.young c q hm).resolve_right hy

/-- A child that looks for its parent finds the thread that made it, if that is still there. -/
theorem only_parent (h : Tree s) {t : Ptr} (hm : s.maker c = some q) (hy : ¬ (s.pc c).Young)
    (hl : q ∈ s.allList) (ho : s.Only (s.parentTid c) t) : t = q :=
  ho (h.told hm hy) q hl (h.parentTid_eq hm (h.told hm hy)).symm

theorem recorded_born (h : Tree s) (hc : s.tid c ∈ s.childTids q) : s.pc c ≠ .unborn := by
  intro hu
  obtain ⟨c', -, ht, hb, -⟩ := h.records q _ hc
  have hpos := (h.born c' hb).1
  rw [ht, h.unborn c hu] at hpos
  exact Int.lt_irrefl _ hpos

/-- A child that has a record has it with the thread that made it. -/
theorem recorded_maker (h : Tree s) {r : ChildStatus}
    (hr : r ∈ (s.thread q).childThreadList) (htid : s.tid c = r.childTid) : s.maker c = some q := by
  obtain ⟨c', hm, ht, hb, -⟩ := h.records q r.childTid (List.mem_map_of_mem hr)
  rwa [h.distinct c c' (htid.trans ht.symm) (by rw [htid, ← ht]; exact Int.ne_of_gt (h.born c' hb).1)]

theorem recorded_lt (h : Tree s) {tid : Tid} (hc : tid ∈ s.childTids q) : tid < s.nextTid := by
  obtain ⟨c', -, ht, hb, -⟩ := h.records q _ hc
  exact ht ▸ (h.born c' hb).2

end Tree

/-- What a step of the thread `p` does to the tree, as the other threads see it. -/
structure Kin (s : Sys) (p : Ptr) (s' : Sys) : Prop where
  born : ∀ c, s.pc c ≠ .unborn → s'.pc c ≠ .unborn ∧ s'.tid c = s.tid c
  stranger : ∀ c, s.pc c = .unborn → ∀ q, s'.tid c ∉ s.childTids q
  keeps : ∀ c q, s.maker c = some q → s'.maker c = some q
  maker : ∀ c q, q ≠ p → s'.maker c = some q → s.maker c = some q
  childTids : ∀ q, q ≠ p → s'.childTids q = s.childTids q
  pc : ∀ q, q ≠ p →
    s'.pc q = s.pc q ∨ s.pc q = .unborn ∧ s'.pc q = .load ∧ s.maker q = some p

/-- A thread with the tid of a record had that tid before. -/
theorem Kin.recorded {s s' : Sys} {p q c : Ptr} {r : ChildStatus} (h : Kin s p s')
    (hr : r ∈ (s.thread q).childThreadList) (ht : s'.tid c = r.childTid) :
    s.pc c ≠ .unborn ∧ s.tid c = r.childTid := by
  have hb : s.pc c ≠ .unborn := fun hb => h.stranger c hb q (ht ▸ List.mem_map_of_mem hr)
  exact ⟨hb, (h.born c hb).2 ▸ ht⟩

theorem Still.kin {s s' : Sys} {p : Ptr} (h : Still s p s') (ht : Tree s)
    (hp : s.pc p ≠ .unborn) (hp' : s'.pc p ≠ .unborn) : Kin s p s' where
  born c hc := ⟨fun hn => hc ((h.unborn hp hp' c).mp hn), h.tid c⟩
  stranger c hc q := by
    rw [h.tid]
    exact fun hin => ht.recorded_born hin hc
  keeps c q hm := by rw [h.maker, hm]
  maker c q _ hm := by rw [← h.maker, hm]
  childTids := h.childTids
  pc q hq := Or.inl (h.pc q hq)

theorem Step.kin {s s' : Sys} {p : Ptr} (h : Step s p s') (ht : Tree s) : Kin s p s' := by
  have hat := ht.points p
  have hq := h.quiet
  have hgo : ∀ {s'' : Sys} {pc' : Pc}, (s''.goto p pc').pc p = pc' := Sys.goto_pc_self ..
  cases h with
  | @create caller hp =>
    have hf := ht.afterCreate_fields (p := p) caller
    have hpc : ∀ t, t ≠ p → (afterCreate s p caller).pc t = s.pc t :=
      fun t ht => Sys.goto_pc_other _ _ ht
    refine ⟨fun c hc => ⟨?_, (hf c).1⟩, fun c hc q hin => ?_, fun c q hm => ?_, fun c q hq => ?_,
      fun q _ => (hf q).2.2.1, fun q hq => Or.inl (hpc q hq)⟩
    · by_cases hcp : c = p
      · rw [hcp]
        simp
      · show (afterCreate s p caller).pc c ≠ _
        rw [hpc c hcp]
        exact hc
    · exact ht.recorded_born ((hf c).1 ▸ hin) hc
    · have hcn : c ≠ s.created := by
        intro hcn
        rw [(ht.fresh c (Nat.le_of_eq hcn.symm)).2.2.2] at hm
        cases hm
      exact ((hf c).2.2.2 hcn).trans hm
    · show (afterCreate s p caller).maker c = some q → _
      by_cases hcn : c = s.created
      · have hm : (afterCreate s p caller).maker c = some p := by
          simp [hcn, afterCreate, Sys.maker, Past.new]
        rw [hm, Option.some.injEq]
        exact fun hpq => absurd hpq.symm hq
      · rw [(hf c).2.2.2 hcn]
        exact id
  | @unblock caller new e hp he =>
    rw [hp] at hat
    obtain ⟨hmk, -, hun, -⟩ := hat
    have hne : new ≠ p := by
      rintro rfl
      rw [hp] at hun
      cases hun
    refine ⟨fun c hc => ?_, fun c hc q hin => ?_, fun _ _ => id, fun _ _ _ => id,
      fun q _ => afterUnblock_childTids q, fun q hq => ?_⟩
    · have hcn : c ≠ new := fun hcn => hc (hcn ▸ hun)
      exact ⟨fun hn => hc ((afterUnblock_unborn hp hcn).mp hn), afterUnblock_tid hcn⟩
    · by_cases hcn : c = new
      · have hlt := ht.recorded_lt hin
        rw [hcn] at hlt
        exact Int.lt_irrefl _ (afterUnblock_tid_new ▸ hlt)
      · exact ht.recorded_born (afterUnblock_tid hcn ▸ hin) hc
    · by_cases hqn : q = new
      · rw [hqn]
        exact Or.inr ⟨hun, afterUnblock_pc_new hne, hmk⟩
      · exact Or.inl (afterUnblock_pc hq hqn)
  | @link t new caller tid hp =>
    obtain ⟨rfl, -⟩ := ht.found_new hp
    exact ⟨fun c hc => ⟨fun hn => hc ((afterLink_unborn hp c).mp hn), afterLink_tid c⟩,
      fun c hc q hin => ht.recorded_born (afterLink_tid c ▸ hin) hc, fun _ _ => id,
      fun _ _ _ => id, fun q _ => afterLink_childTids q, fun q hq => Or.inl (afterLink_pc hq)⟩
  | @record caller tid new hp =>
    refine (afterRecord_still caller tid new).kin ht (by simp [hp]) ?_
    rw [afterRecord, hgo]
    cases caller <;> simp [afterExecute]
  | release hp => exact release_still.kin ht (by simp [hp]) (by simp)
  | remove hp =>
    refine ⟨fun c hc => ⟨?_, rfl⟩, fun c hc q hin => ht.recorded_born hin hc, fun _ _ => id,
      fun _ _ _ => id, fun q _ => rfl, fun q hq => Or.inl (Sys.goto_pc_other _ _ hq)⟩
    by_cases hcp : c = p
    · rw [hcp]
      simp
    · rw [Sys.goto_pc_other _ _ hcp]
      exact hc
  | @noFnCopy caller hp | @noProgramName caller hp | @noCreate caller hp
  | @noRecord caller _ _ hp =>
    refine ((Quiet.refl s p).goto _).toStill.kin ht (by simp [hp]) ?_
    rw [hgo]
    cases caller <;> simp [afterExecute]
  | @waitReturn caller tid result hp =>
    refine (hq (by simp [hp, Pc.Alters])).toStill.kin ht (by simp [hp]) ?_
    rw [hgo]
    cases caller <;> simp [afterWait]
  | runTask hp | finish hp | exec hp | callWait _ hp | callExit _ _ hp | pageFault _ hp | kill hp
  | fnCopy hp | programName hp | loadDown hp | loadTest hp | execReturn hp | searchFound hp
  | searchNext hp | load _ hp | loadFault hp | faulted hp | loaded hp | loadState hp | loadUp hp
  | loadUpFail hp | waitNone hp | waitAgain hp | waitFound hp | waitDown hp | waitMark hp | exit hp
  | leave hp | childless hp | wake hp =>
    exact (hq (by simp [hp, Pc.Alters])).toStill.kin ht (by simp [hp]) (by simp)

theorem Reachable.tree {P : Sys → Ptr → Sys → Prop}
    (hP : ∀ {s p s'}, P s p s' → ¬ s.Stray p ∧ Told s p) {s : Sys} (h : Reachable P s) : Tree s := by
  induction h with
  | boot => exact boot_tree
  | step p _ hp hs cond ih => exact step_tree ih hp (hP cond).2 hs
  | stray p _ hp cond => exact absurd hp (hP cond).1

theorem Reachable.mono {P Q : Sys → Ptr → Sys → Prop} (hPQ : ∀ {s p s'}, P s p s' → Q s p s')
    {s : Sys} (h : Reachable P s) : Reachable Q s := by
  induction h with
  | boot => exact .boot
  | step p _ hp hs cond ih => exact ih.step p hp hs (hPQ cond)
  | stray p _ hp cond ih => exact ih.stray p hp (hPQ cond)

end Pintos.Process
