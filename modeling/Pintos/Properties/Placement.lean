import Pintos.Vm.Run
import Mathlib.Data.Option.Basic

/-!
# Where the pages are

The contents of pages, files and the swap block do not matter here, nor do the bits `accessed` and
`dirty`. What is left of a state is its `Placement`, and each function does one of a few things to
it.

The supplemental page tables and page directories are functions here. `Sigma.fst` of what is
looked up is the process, so `setPage` changes one page of one process.
-/

namespace Pintos.Vm

open Pintos.Logic

/-- What matters of a `struct suppl_page_table_entry`. -/
structure Entry where
  addr : Upage
  type : PageType
  swapIdx : Nat
  free : Bool

def SupplPageTableEntry.entry (e : SupplPageTableEntry) : Entry :=
  ⟨e.addr, e.type, e.swapIdx, e.free⟩

/-- What the page directory of a thread says of a page. -/
def Thread.getPage (t : Thread) (u : Upage) : Option Frame :=
  if ((t.pagedir.lookup u).getD {}).present then some ((t.pagedir.lookup u).getD {}).frame
  else none

@[ext] structure Placement where
  /-- The processes that have not exited. -/
  live : Pid → Bool
  lookup : Pid → Upage → Option SptePtr
  /-- The frame that is mapped present. -/
  frame : Pid → Upage → Option Frame
  entry : SptePtr → Entry
  nextSpte : SptePtr
  frameTable : List FrameTabEntry
  usedMap : Frame → Bool
  swapSize : Nat
  swapBitmap : Nat → Bool

namespace State

def placement (s : State) : Placement where
  live p := (s.thread p).isSome
  lookup := s.lookup
  frame := s.pagedirGetPage
  entry q := (s.spte q).entry
  nextSpte := s.nextSpte
  frameTable := s.frameTable
  usedMap := s.usedMap
  swapSize := s.swapSize
  swapBitmap := s.swapBitmap

end State

namespace Placement

/-- A table of pages with one page of one process changed. -/
def setPage {α : Type} (f : Pid → Upage → α) (p : Pid) (u : Upage) (a : α) : Pid → Upage → α :=
  fun p' u' => if p' = p ∧ u' = u then a else f p' u'

section

variable {α : Type} {f : Pid → Upage → α} {p p' : Pid} {u u' : Upage} {a : α}

@[simp] theorem setPage_self : setPage f p u a p u = a := if_pos ⟨rfl, rfl⟩

theorem setPage_of_ne (h : ¬(p' = p ∧ u' = u)) : setPage f p u a p' u' = f p' u' := if_neg h

theorem setPage_eq_self (h : f p u = a) : setPage f p u a = f := by
  funext p' u'
  unfold setPage
  split
  · next he => rw [he.1, he.2, h]
  · rfl

end

/-- The frame `k` leaves the user pool for the entry `q` of the process `p`. -/
def take (v : Placement) (k : Frame) (q : SptePtr) (p : Pid) : Placement :=
  { v with
    usedMap := Function.update v.usedMap k true
    frameTable := ⟨k, q, p⟩ :: v.frameTable }

/-- The page of `f` is copied to the slot `i` of the swap block. -/
def swapOut (v : Placement) (f : FrameTabEntry) (i : Nat) : Placement :=
  { v with
    entry := Function.update v.entry f.spte { v.entry f.spte with type := .swap, swapIdx := i }
    swapBitmap := Function.update v.swapBitmap i true }

/-- The page of `f` loses its frame to the entry `q` of the process `p`. -/
def evict (v : Placement) (f : FrameTabEntry) (q : SptePtr) (p : Pid) : Placement :=
  { v with
    frame := setPage v.frame f.owner (v.entry f.spte).addr none
    frameTable := v.frameTable.erase f ++ [⟨f.frame, q, p⟩] }

/-- A page that is in no frame stays out when another is evicted. -/
theorem frame_evict {v : Placement} {f : FrameTabEntry} {q : SptePtr} {cur : Pid} (p : Pid)
    (u : Upage) (hk : v.frame p u = none) : (v.evict f q cur).frame p u = none := by
  by_cases hpage : p = f.owner ∧ u = (v.entry f.spte).addr
  · obtain ⟨rfl, rfl⟩ := hpage
    exact setPage_self
  · exact (setPage_of_ne hpage).trans hk

/-- A page gets an entry. -/
def insert (v : Placement) (p : Pid) (u : Upage) (q : SptePtr) (e : Entry) : Placement :=
  { v with
    lookup := setPage v.lookup p u (some q)
    entry := Function.update v.entry q e }

/-- A page that has an entry is put in a frame. -/
def install (v : Placement) (p : Pid) (u : Upage) (q : SptePtr) (k : Frame) : Placement :=
  { v with
    frame := setPage v.frame p u (some k)
    entry := Function.update v.entry q { v.entry q with free := false } }

/-- The frame of `f` goes back to the user pool. -/
def giveBack (v : Placement) (f : FrameTabEntry) : Placement :=
  { v with
    usedMap := Function.update v.usedMap f.frame false
    frameTable := v.frameTable.erase f }

/-- A page is forgotten. -/
def forget (v : Placement) (p : Pid) (u : Upage) : Placement :=
  { v with
    lookup := setPage v.lookup p u none
    frame := setPage v.frame p u none }

/-- A process is gone with its tables. What is left in use of the user pool is `usedMap`. -/
def exit (v : Placement) (p : Pid) (usedMap : Frame → Bool) : Placement :=
  { v with
    live := Function.update v.live p false
    lookup := Function.update v.lookup p fun _ => none
    frame := Function.update v.frame p fun _ => none
    frameTable := v.frameTable.filter (·.owner ≠ p)
    usedMap }

end Placement

namespace State

open Placement

variable {s s' : State} {p cur : Pid} {t : Thread} {u : Upage} {q : SptePtr} {k : Frame}

theorem live_of_runs (h : s.runs p = true) : s.placement.live p = true := by
  cases ht : s.thread p with
  | none =>
    rw [runs, ht] at h
    cases h
  | some t => exact congrArg Option.isSome ht

theorem live_of_lookup (h : s.lookup p u = some q) : s.placement.live p = true := by
  obtain ⟨t, ht, -⟩ := Option.bind_eq_some_iff.mp h
  exact congrArg Option.isSome ht

/-! ## What does not move a page -/

@[simp] theorem placement_setFile (i : FileId) (f : FileData → FileData) :
    (s.setFile i f).placement = s.placement := rfl

/-! ## Supplemental page table entries -/

theorem placement_setSpte (f : SupplPageTableEntry → SupplPageTableEntry) :
    (s.setSpte q f).placement = { s.placement with
      entry := Function.update s.placement.entry q (f (s.spte q)).entry } := by
  refine Placement.ext rfl rfl rfl ?_ rfl rfl rfl rfl rfl
  funext q'
  by_cases h : q' = q
  · subst h
    simp only [placement, setSpte, Function.update_self]
  · simp only [placement, setSpte, Function.update_of_ne h]

theorem placement_setSpte_of_entry {f : SupplPageTableEntry → SupplPageTableEntry}
    (h : (f (s.spte q)).entry = (s.spte q).entry) : (s.setSpte q f).placement = s.placement := by
  rw [placement_setSpte, h]
  exact congrArg (fun e => { s.placement with entry := e }) (Function.update_eq_self q _)

/-! ## The tables of a process -/

theorem pagedirGetPage_eq (h : s.thread p = some t) : s.pagedirGetPage p u = t.getPage u := by
  simp only [pagedirGetPage, pte, h, Option.bind_some, Thread.getPage]

theorem lookup_eq (h : s.thread p = some t) : s.lookup p u = t.supplPageTable.lookup u := by
  simp only [lookup, h, Option.bind_some]

theorem setThread_of_none {f : Thread → Thread} (h : s.thread p = none) : s.setThread p f = s := by
  simp only [setThread, h, Option.map_none]
  rw [← h, Function.update_eq_self]

theorem placement_setThread_some {f : Thread → Thread} (h : s.thread p = some t) :
    (s.setThread p f).placement = { s.placement with
      lookup := Function.update s.lookup p fun u => (f t).supplPageTable.lookup u
      frame := Function.update s.pagedirGetPage p (f t).getPage } := by
  have hself : (s.setThread p f).thread p = some (f t) := by
    simp only [setThread, h, Option.map_some, Function.update_self]
  have hne : ∀ p', p' ≠ p → (s.setThread p f).thread p' = s.thread p' :=
    fun p' hp => Function.update_of_ne hp ..
  refine Placement.ext ?_ ?_ ?_ rfl rfl rfl rfl rfl rfl
  all_goals
    funext p'
    by_cases hp : p' = p
  · subst hp
    simp only [placement, hself, h, Option.isSome_some]
  · simp only [placement, hne p' hp]
  · subst hp
    funext u
    simp only [placement, lookup_eq hself, Function.update_self]
  · funext u
    simp only [placement, lookup, hne p' hp, Function.update_of_ne hp]
  · subst hp
    funext u
    simp only [placement, pagedirGetPage_eq hself, Function.update_self]
  · funext u
    have hpte : (s.setThread p f).pte p' u = s.pte p' u := by simp only [pte, hne p' hp]
    simp only [placement, Function.update_of_ne hp, pagedirGetPage, hpte]

/-- A change of a thread that leaves its tables alone. -/
theorem placement_setThread {f : Thread → Thread}
    (ht : ∀ t, (f t).supplPageTable = t.supplPageTable)
    (hd : ∀ t, (f t).getPage = t.getPage) : (s.setThread p f).placement = s.placement := by
  cases h : s.thread p with
  | none => rw [setThread_of_none h]
  | some t =>
    rw [placement_setThread_some h, ht, hd]
    refine Placement.ext rfl ?_ ?_ rfl rfl rfl rfl rfl rfl
    · refine (congrArg (Function.update s.lookup p) ?_).trans (Function.update_eq_self p _)
      funext u
      exact (lookup_eq h).symm
    · refine (congrArg (Function.update s.pagedirGetPage p) ?_).trans (Function.update_eq_self p _)
      funext u
      exact (pagedirGetPage_eq h).symm

theorem update_eq_setPage {α : Type} {f : Pid → Upage → α} {g : Upage → α} {a : α} (hu : g u = a)
    (h : ∀ u', u' ≠ u → g u' = f p u') : Function.update f p g = setPage f p u a := by
  funext p' u'
  unfold setPage
  by_cases hp : p' = p
  · subst hp
    rw [Function.update_self]
    split
    · next he => rw [he.2, hu]
    · next he => exact h u' fun hc => he ⟨rfl, hc⟩
  · rw [Function.update_of_ne hp, if_neg fun hc => hp hc.1]

theorem placement_hashInsert (hl : s.placement.live p = true) :
    (s.hashInsert p u q).placement = { s.placement with
      lookup := setPage s.placement.lookup p u (some q) } := by
  obtain ⟨t, ht⟩ := Option.isSome_iff_exists.mp hl
  refine (placement_setThread_some ht).trans (Placement.ext rfl ?_ ?_ rfl rfl rfl rfl rfl rfl)
  · exact update_eq_setPage (AList.lookup_insert _) fun u' hu =>
      (AList.lookup_insert_ne hu).trans (lookup_eq ht).symm
  · refine (congrArg (Function.update s.pagedirGetPage p) ?_).trans (Function.update_eq_self p _)
    funext u'
    exact (pagedirGetPage_eq ht).symm

theorem placement_hashDelete :
    (s.hashDelete p u).placement = { s.placement with
      lookup := setPage s.placement.lookup p u none } := by
  cases ht : s.thread p with
  | none =>
    have hnone : s.lookup p u = none := by simp only [lookup, ht, Option.bind_none]
    rw [hashDelete, setThread_of_none ht]
    exact Placement.ext rfl (setPage_eq_self hnone).symm rfl rfl rfl rfl rfl rfl rfl
  | some t =>
    refine (placement_setThread_some ht).trans (Placement.ext rfl ?_ ?_ rfl rfl rfl rfl rfl rfl)
    · exact update_eq_setPage (AList.lookup_erase _ _) fun u' hu =>
        (AList.lookup_erase_ne hu).trans (lookup_eq ht).symm
    · refine (congrArg (Function.update s.pagedirGetPage p) ?_).trans (Function.update_eq_self p _)
      funext u'
      exact (pagedirGetPage_eq ht).symm

theorem placement_setPte (hl : s.placement.live p = true) (v : Pte) :
    (s.setPte p u v).placement = { s.placement with
      frame := setPage s.placement.frame p u (if v.present then some v.frame else none) } := by
  obtain ⟨t, ht⟩ := Option.isSome_iff_exists.mp hl
  refine (placement_setThread_some ht).trans (Placement.ext rfl ?_ ?_ rfl rfl rfl rfl rfl rfl)
  · refine (congrArg (Function.update s.lookup p) ?_).trans (Function.update_eq_self p _)
    funext u'
    exact (lookup_eq ht).symm
  · refine update_eq_setPage ?_ fun u' hu => ?_
    · simp only [Thread.getPage, AList.lookup_insert, Option.getD_some]
    · refine Eq.trans ?_ (pagedirGetPage_eq ht).symm
      simp only [Thread.getPage, AList.lookup_insert_ne hu]

theorem placement_newThread (hn : s.thread p = none) :
    ({ s with thread := Function.update s.thread p (some {}) } : State).placement =
      { s.placement with live := Function.update s.placement.live p true } := by
  have hother : ∀ p', p' ≠ p → Function.update s.thread p (some {}) p' = s.thread p' :=
    fun p' hp => Function.update_of_ne hp ..
  refine Placement.ext ?_ ?_ ?_ rfl rfl rfl rfl rfl rfl
  all_goals
    funext p'
    by_cases hp : p' = p
  · subst hp
    simp only [placement, Function.update_self, Option.isSome_some]
  · simp only [placement, Function.update_of_ne hp]
  · subst hp
    funext u
    simp only [placement, lookup, Function.update_self, hn, Option.bind_some, Option.bind_none,
      AList.lookup_empty]
  · funext u
    simp only [placement, lookup, hother p' hp]
  · subst hp
    funext u
    simp only [placement, pagedirGetPage, pte, Function.update_self, hn, Option.bind_some,
      Option.bind_none, AList.lookup_empty]
  · funext u
    simp only [placement, pagedirGetPage, pte, hother p' hp]
    rfl

theorem placement_freeSupplPageTable :
    (s.setThread p fun t => { t with supplPageTable := ∅ }).placement = { s.placement with
      lookup := Function.update s.placement.lookup p fun _ => none } := by
  cases ht : s.thread p with
  | none =>
    have hnone : s.placement.lookup p = fun _ => none := by
      funext u
      simp only [placement, lookup, ht, Option.bind_none]
    rw [setThread_of_none ht, ← hnone, Function.update_eq_self]
  | some t =>
    refine (placement_setThread_some ht).trans
      (Placement.ext rfl rfl ?_ rfl rfl rfl rfl rfl rfl)
    refine (congrArg (Function.update s.pagedirGetPage p) ?_).trans (Function.update_eq_self p _)
    funext u
    exact (pagedirGetPage_eq ht).symm

theorem placement_clearPagedir :
    (s.setThread p fun t => { t with pagedir := ∅ }).placement = { s.placement with
      frame := Function.update s.placement.frame p fun _ => none } := by
  cases ht : s.thread p with
  | none =>
    have hnone : s.placement.frame p = fun _ => none := by
      funext u
      simp only [placement, pagedirGetPage, pte, ht, Option.bind_none,
        Option.getD_none, Bool.false_eq_true, if_false]
    rw [setThread_of_none ht, ← hnone, Function.update_eq_self]
  | some t =>
    refine (placement_setThread_some ht).trans
      (Placement.ext rfl ?_ rfl rfl rfl rfl rfl rfl rfl)
    refine (congrArg (Function.update s.lookup p) ?_).trans (Function.update_eq_self p _)
    funext u
    exact (lookup_eq ht).symm

theorem placement_removeThread :
    ({ s with thread := Function.update s.thread p none } : State).placement = { s.placement with
      live := Function.update s.placement.live p false
      lookup := Function.update s.placement.lookup p fun _ => none
      frame := Function.update s.placement.frame p fun _ => none } := by
  refine Placement.ext ?_ ?_ ?_ rfl rfl rfl rfl rfl rfl
  all_goals
    funext p'
    by_cases hp : p' = p
  · subst hp
    simp only [placement, Function.update_self, Option.isSome_none]
  · simp only [placement, Function.update_of_ne hp]
  · subst hp
    funext u
    simp only [placement, lookup, Function.update_self, Option.bind_none]
  · funext u
    simp only [placement, lookup, Function.update_of_ne hp]
  · subst hp
    funext u
    simp only [placement, pagedirGetPage, pte, Function.update_self,
      Option.bind_none, Option.getD_none, Bool.false_eq_true, if_false]
  · funext u
    simp only [placement, pagedirGetPage, pte, Function.update_of_ne hp]
    rfl

/-- The bits `accessed` and `dirty` of a page do not move it. -/
theorem placement_setPte_bits {v : Pte} (hp : v.present = (s.pte p u).present)
    (hf : v.frame = (s.pte p u).frame) : (s.setPte p u v).placement = s.placement := by
  by_cases hl : s.placement.live p = true
  · rw [placement_setPte hl, setPage_eq_self]
    rw [hp, hf]
    rfl
  · rw [setPte, setThread_of_none (Option.not_isSome_iff_eq_none.mp hl)]

theorem userLoad_some (h : s.userLoad p u = some s') : s'.placement = s.placement := by
  unfold userLoad at h
  split at h
  · rw [← Option.some.inj h]
    exact placement_setPte_bits rfl rfl
  · cases h

theorem userStore_some {ofs : Nat} {byte : UInt8} (h : s.userStore p u ofs byte = some s') :
    s'.placement = s.placement := by
  unfold userStore at h
  split at h
  · rw [← Option.some.inj h]
    exact placement_setPte_bits rfl rfl
  · cases h

theorem frame_eq_none : s.placement.frame p u = none ↔ (s.pte p u).present = false := by
  simp only [placement, pagedirGetPage, ite_eq_right_iff, reduceCtorEq, imp_false,
    Bool.not_eq_true]

theorem placement_pagedirClearPage :
    (s.pagedirClearPage p u).placement = { s.placement with
      frame := setPage s.placement.frame p u none } := by
  unfold pagedirClearPage
  split
  · by_cases hl : s.placement.live p = true
    · exact placement_setPte hl _
    · rw [setPte, setThread_of_none (Option.not_isSome_iff_eq_none.mp hl), setPage_eq_self]
      have hnone := Option.not_isSome_iff_eq_none.mp hl
      simp only [placement, pagedirGetPage, pte, hnone, Option.bind_none, Option.getD_none,
        Bool.false_eq_true, if_false]
  · next h => rw [setPage_eq_self (frame_eq_none.mpr (Bool.not_eq_true _ ▸ h))]

theorem installPage_false {w : Bool} (h : s.installPage p u k w = (false, s')) : s' = s := by
  unfold installPage at h
  split at h
  · exact (Prod.mk.inj h).2.symm
  · cases h

theorem installPage_true {w : Bool} (hl : s.placement.live p = true)
    (h : s.installPage p u k w = (true, s')) :
    s.placement.frame p u = none ∧
      s'.placement = { s.placement with frame := setPage s.placement.frame p u (some k) } := by
  unfold installPage at h
  split at h
  · cases h
  · next hf =>
    obtain ⟨-, rfl⟩ := Prod.mk.inj h
    exact ⟨hf, placement_setPte hl _⟩

/-! ## The user pool -/

theorem pallocGetPage_some (h : s.pallocGetPage = some (k, s')) :
    s.usedMap k = false ∧
      s'.placement = { s.placement with usedMap := Function.update s.placement.usedMap k true } := by
  unfold pallocGetPage at h
  obtain ⟨k', hk, hs⟩ := Option.map_eq_some_iff.mp h
  obtain ⟨rfl, rfl⟩ := Prod.mk.inj hs
  have hfree := List.find?_some hk
  exact ⟨by simpa only [Bool.not_eq_true'] using hfree, rfl⟩

theorem pallocFreePage_some (h : s.pallocFreePage k = some s') :
    s'.placement = { s.placement with
      usedMap := Function.update s.placement.usedMap k false } := by
  unfold pallocFreePage at h
  split at h
  · rw [← Option.some.inj h]
    rfl
  · cases h

/-! ## The swap block and files -/

theorem swapOut_some {i : Nat} (h : s.swapOut k = some (i, s')) :
    i < s.swapSize ∧ s.swapBitmap i = false ∧ s'.placement = { s.placement with
      swapBitmap := Function.update s.placement.swapBitmap i true } := by
  unfold swapOut at h
  obtain ⟨i', hi, hs⟩ := Option.map_eq_some_iff.mp h
  obtain ⟨rfl, rfl⟩ := Prod.mk.inj hs
  have hfree := List.find?_some hi
  exact ⟨List.mem_range.mp (List.mem_of_find?_eq_some hi),
    by simpa only [Bool.not_eq_true'] using hfree, rfl⟩

theorem fileWriteAt_some {i : FileId} {size ofs : Nat}
    (h : s.fileWriteAt p i u size ofs = some s') : s'.placement = s.placement := by
  unfold fileWriteAt at h
  dsimp only at h
  split at h
  · rw [← Option.some.inj h]
  split at h
  · rw [← Option.some.inj h, placement_setFile]
    exact placement_setPte_bits rfl rfl
  · cases h

/-! ## Eviction -/

theorem findUnaccessedPage_eq {f : Option FrameTabEntry} (l : List FrameTabEntry) :
    ∀ s s' : State, findUnaccessedPage cur l s = (f, s') →
      s'.placement = s.placement ∧ ∀ x, f = some x → x ∈ l := by
  induction l with
  | nil =>
    intro s s' h
    obtain ⟨rfl, rfl⟩ := Prod.mk.inj h
    exact ⟨rfl, fun _ hc => by cases hc⟩
  | cons x l ih =>
    intro s s' h
    unfold findUnaccessedPage at h
    split at h
    · obtain ⟨hp, hm⟩ := ih _ _ h
      exact ⟨hp.trans (placement_setSpte_of_entry rfl),
        fun y hy => List.mem_cons_of_mem x (hm y hy)⟩
    · obtain ⟨rfl, rfl⟩ := Prod.mk.inj h
      exact ⟨rfl, fun y hy => Option.some.inj hy ▸ List.mem_cons_self⟩

theorem findLongestTimePage_mem {x : FrameTabEntry} (l : List FrameTabEntry) :
    ∀ (first : Option FrameTabEntry) (time : Nat),
      s.findLongestTimePage l first time = some x → x ∈ l ∨ first = some x := by
  induction l with
  | nil => exact fun _ _ h => .inr h
  | cons y l ih =>
    intro first time h
    unfold findLongestTimePage at h
    split at h
    · rcases ih _ _ h with hm | he
      · exact .inl (List.mem_cons_of_mem y hm)
      · exact .inl (Option.some.inj he ▸ List.mem_cons_self)
    · exact (ih _ _ h).imp_left (List.mem_cons_of_mem y)

theorem victim_eq {f : Option FrameTabEntry} (h : s.victim cur = (f, s')) :
    s'.placement = s.placement ∧ ∀ x, f = some x → x ∈ s.frameTable := by
  unfold victim at h
  split at h
  · next hf =>
    obtain ⟨rfl, rfl⟩ := Prod.mk.inj h
    exact findUnaccessedPage_eq _ _ _ hf
  · next s₁ hf =>
    obtain ⟨rfl, rfl⟩ := Prod.mk.inj h
    obtain ⟨hp, -⟩ := findUnaccessedPage_eq _ _ _ hf
    refine ⟨hp, fun x hx => ?_⟩
    have htable : s₁.frameTable = s.frameTable := congrArg Placement.frameTable hp
    rcases findLongestTimePage_mem _ _ _ hx with hm | hc
    · exact htable ▸ hm
    · cases hc

/-- The search for a victim sets time stamps only. -/
theorem findUnaccessedPage_stamps (cur : Pid) (search : List FrameTabEntry) : ∀ s : State,
    (findUnaccessedPage cur search s).2 =
        { s with spte := (findUnaccessedPage cur search s).2.spte } ∧
      ∀ q, (findUnaccessedPage cur search s).2.spte q =
        { s.spte q with timestamp := ((findUnaccessedPage cur search s).2.spte q).timestamp } := by
  induction search with
  | nil => exact fun s => ⟨rfl, fun _ => rfl⟩
  | cons f search ih =>
    intro s
    rw [findUnaccessedPage]
    split
    · obtain ⟨hs, hspte⟩ := ih (s.setSpte f.spte fun e => { e with timestamp := s.ticks })
      refine ⟨hs, fun q => (hspte q).trans ?_⟩
      by_cases hq : q = f.spte
      · subst hq
        simp only [setSpte, Function.update_self]
      · simp only [setSpte, Function.update_of_ne hq]
    · exact ⟨rfl, fun _ => rfl⟩

theorem victim_stamps {f : Option FrameTabEntry} (h : s.victim cur = (f, s')) :
    s' = { s with spte := s'.spte } ∧
      ∀ q, s'.spte q = { s.spte q with timestamp := (s'.spte q).timestamp } := by
  have hstamps := findUnaccessedPage_stamps cur s.frameTable s
  have hs : (s.victim cur).2 = (findUnaccessedPage cur s.frameTable s).2 := by
    rw [victim]
    split
    · next hfind => rw [hfind]
    · next hfind => rw [hfind]
  rw [← hs, h] at hstamps
  exact hstamps

theorem findUnaccessedPage_nextSpte (n : SptePtr) (search : List FrameTabEntry) : ∀ s : State,
    findUnaccessedPage cur search { s with nextSpte := n } =
      ((findUnaccessedPage cur search s).1,
        { (findUnaccessedPage cur search s).2 with nextSpte := n }) := by
  induction search with
  | nil => exact fun s => rfl
  | cons f search ih =>
    intro s
    rw [findUnaccessedPage, findUnaccessedPage]
    by_cases haccessed : s.pagedirIsAccessed cur (s.spte f.spte).addr = true
    · rw [if_pos haccessed]
      exact (if_pos haccessed).trans
        (ih (s.setSpte f.spte fun e => { e with timestamp := s.ticks }))
    · rw [if_neg haccessed]
      exact if_neg haccessed

theorem findLongestTimePage_nextSpte (n : SptePtr) (search : List FrameTabEntry) :
    ∀ (first : Option FrameTabEntry) (time : Nat),
      { s with nextSpte := n }.findLongestTimePage search first time =
        s.findLongestTimePage search first time := by
  induction search with
  | nil => exact fun _ _ => rfl
  | cons f search ih =>
    intro first time
    rw [findLongestTimePage, findLongestTimePage, ih, ih]

/-- The victim does not depend on what `malloc` gives. -/
theorem victim_nextSpte (n : SptePtr) (s : State) :
    ({ s with nextSpte := n }.victim cur).1 = (s.victim cur).1 := by
  rw [victim, victim, findUnaccessedPage_nextSpte]
  rcases findUnaccessedPage cur s.frameTable s with ⟨_ | f, s₁⟩
  · exact findLongestTimePage_nextSpte n _ _ _
  · rfl

theorem evicted_nextSpte (n : SptePtr) (s : State) :
    ({ s with nextSpte := n } : State).evicted cur = s.evicted cur := by
  rw [evicted, evicted, victim_nextSpte]
  unfold pallocGetPage
  cases (List.range s.poolSize).find? fun k => !s.usedMap k with
  | none => rfl
  | some k => rfl

/-- `pageOut` writes a page to its file, or it moves it to a free slot of the swap block. -/
theorem pageOut_some {f : FrameTabEntry} (h : s.pageOut cur f = some s') :
    ((s.placement.entry f.spte).type = .mmap ∧ s'.placement = s.placement) ∨
      ∃ i, i < s.swapSize ∧ s.swapBitmap i = false ∧
        s'.placement = s.placement.swapOut f i := by
  unfold pageOut at h
  dsimp only at h
  split at h
  · next hd => exact .inl ⟨hd.2, fileWriteAt_some h⟩
  · obtain ⟨⟨i, s₁⟩, hout, hs⟩ := Option.bind_eq_some_iff.mp h
    obtain ⟨hlt, hfree, hp⟩ := swapOut_some hout
    refine .inr ⟨i, hlt, hfree, ?_⟩
    have hlast : (s₁.setSpte f.spte fun e => { e with swapIdx := i }).placement =
        { s₁.placement with
          entry := Function.update s₁.placement.entry f.spte
            { s₁.placement.entry f.spte with swapIdx := i } } := placement_setSpte _
    rw [← Option.some.inj hs, hlast, hp, placement_setSpte]
    simp only [Placement.swapOut, Function.update_self, Function.update_idem]
    rfl

theorem doEvictFrame_some {f : FrameTabEntry} (h : s.doEvictFrame cur q f = some (k, s')) :
    k = f.frame ∧
      (((s.placement.entry f.spte).type = .mmap ∧ s'.placement = s.placement.evict f q cur) ∨
        ∃ i, i < s.swapSize ∧ s.swapBitmap i = false ∧
          s'.placement = (s.placement.swapOut f i).evict f q cur) := by
  unfold doEvictFrame at h
  dsimp only at h
  obtain ⟨s₁, hout, h⟩ := Option.bind_eq_some_iff.mp h
  obtain ⟨-, -, h⟩ := Option.bind_eq_some_iff.mp h
  obtain ⟨rfl, rfl⟩ := Prod.mk.inj (Option.some.inj h)
  refine ⟨rfl, ?_⟩
  have hp := congrArg (fun v : Placement =>
    { v with frameTable := v.frameTable.erase f ++ [(⟨f.frame, q, cur⟩ : FrameTabEntry)] })
    (@placement_pagedirClearPage s₁ f.owner (s.spte f.spte).addr)
  rcases pageOut_some hout with ⟨ht, he⟩ | ⟨i, hlt, hfree, he⟩
  · refine .inl ⟨ht, Eq.trans hp ?_⟩
    rw [he]
    rfl
  · refine .inr ⟨i, hlt, hfree, Eq.trans hp ?_⟩
    have haddr : ((s.placement.swapOut f i).entry f.spte).addr = (s.spte f.spte).addr := by
      simp only [Placement.swapOut, Function.update_self]
      rfl
    rw [he, Placement.evict, haddr]

/-- What `vm_get_frame` gives is a free frame, or the frame of a page that goes to its file or to
the swap block. -/
theorem vmGetFrame_some (h : s.vmGetFrame cur q = some (some k, s')) :
    (s.usedMap k = false ∧ s'.placement = s.placement.take k q cur) ∨
      ∃ f ∈ s.frameTable, k = f.frame ∧
        (((s.placement.entry f.spte).type = .mmap ∧ s'.placement = s.placement.evict f q cur) ∨
          ∃ i, i < s.swapSize ∧ s.swapBitmap i = false ∧
            s'.placement = (s.placement.swapOut f i).evict f q cur) := by
  unfold vmGetFrame at h
  split at h
  · unfold tryEvictFrame at h
    split at h
    · next f s₁ hv =>
      obtain ⟨hp, hm⟩ := victim_eq hv
      obtain ⟨⟨k', s₂⟩, hevict, hs⟩ := Option.map_eq_some_iff.mp h
      obtain ⟨hk, rfl⟩ := Prod.mk.inj hs
      cases hk
      obtain ⟨hk, hout⟩ := doEvictFrame_some hevict
      have hsize : s₁.swapSize = s.swapSize := congrArg Placement.swapSize hp
      have hmap : s₁.swapBitmap = s.swapBitmap := congrArg Placement.swapBitmap hp
      rw [hp, hsize, hmap] at hout
      exact .inr ⟨f, hm f rfl, hk, hout⟩
    · cases h
  · next k' s₁ hget =>
    obtain ⟨hk, rfl⟩ := Prod.mk.inj (Option.some.inj h)
    cases hk
    obtain ⟨hfree, hp⟩ := pallocGetPage_some hget
    exact .inl ⟨hfree, congrArg (fun v : Placement =>
      { v with frameTable := (⟨k, q, cur⟩ : FrameTabEntry) :: v.frameTable }) hp⟩

/-- A frame that is taken moves no page into memory, and no page gets an entry. -/
theorem vmGetFrame_tables {k : Frame} (h : s.vmGetFrame cur q = some (some k, s')) :
    s'.placement.lookup = s.placement.lookup ∧ s'.placement.live = s.placement.live ∧
      ∀ p u, s.placement.frame p u = none → s'.placement.frame p u = none := by
  rcases vmGetFrame_some h with ⟨-, hp⟩ | ⟨f, -, -, ⟨-, hp⟩ | ⟨i, -, -, hp⟩⟩
  · rw [hp]
    exact ⟨rfl, rfl, fun _ _ hk => hk⟩
  · rw [hp]
    exact ⟨rfl, rfl, frame_evict⟩
  · rw [hp]
    exact ⟨rfl, rfl, fun p u hk => frame_evict (v := s.placement.swapOut f i) p u hk⟩

theorem vmGetFrame_none (h : s.vmGetFrame cur q = some (none, s')) :
    s'.placement = s.placement := by
  unfold vmGetFrame at h
  split at h
  · unfold tryEvictFrame at h
    split at h
    · obtain ⟨⟨k', s₂⟩, -, hs⟩ := Option.map_eq_some_iff.mp h
      cases (Prod.mk.inj hs).1
    · next s₁ hv =>
      obtain ⟨-, rfl⟩ := Prod.mk.inj (Option.some.inj h)
      exact (victim_eq hv).1
  · cases (Prod.mk.inj (Option.some.inj h)).1

theorem vmFreeFrame_some (h : s.vmFreeFrame (some k) = some s') :
    s'.placement = s.placement ∧ (∀ f ∈ s.frameTable, f.frame ≠ k) ∨
      ∃ f ∈ s.frameTable, f.frame = k ∧ s'.placement = s.placement.giveBack f := by
  unfold vmFreeFrame at h
  split at h
  · next hf =>
    rw [← Option.some.inj h]
    exact .inl ⟨rfl, fun f hm he => List.find?_eq_none.mp hf f hm (decide_eq_true he)⟩
  · next f hf =>
    rw [Option.bind_some] at hf
    have hk := List.find?_some hf
    exact .inr ⟨f, List.mem_of_find?_eq_some hf, of_decide_eq_true hk, pallocFreePage_some h⟩

/-! ## Loading pages -/

theorem placement_setSpte_free :
    (s.setSpte q fun e => { e with free := false }).placement = { s.placement with
      entry := Function.update s.placement.entry q { s.placement.entry q with free := false } } :=
  placement_setSpte _

/-- The end of both functions that load a page. -/
theorem install_placement {w : Bool} (hl : s.placement.live p = true)
    (h : s.installPage p u k w = (true, s')) :
    (s'.setSpte q fun e => { e with free := false }).placement = s.placement.install p u q k := by
  obtain ⟨-, hp⟩ := installPage_true hl h
  rw [placement_setSpte_free, hp]
  rfl

/-- `page_load_file` has its frame, and gives it back or installs it. -/
theorem pageLoadFile_some {b : Bool} (h : s.pageLoadFile cur q = some (b, s')) :
    ∃ k s₁, s.vmGetFrame cur q = some (some k, s₁) ∧ ∃ s₂ : State, s₂.placement = s₁.placement ∧
      (b = false ∧ s₂.vmFreeFrame (some k) = some s' ∨
        b = true ∧ (s₁.placement.live cur = true →
          s'.placement = s₁.placement.install cur (s₁.placement.entry q).addr q k)) := by
  unfold pageLoadFile at h
  obtain ⟨⟨frame, s₁⟩, hget, h⟩ := Option.bind_eq_some_iff.mp h
  obtain ⟨k, rfl, hload⟩ := Option.bind_eq_some_iff.mp h
  refine ⟨k, s₁, hget, ?_⟩
  dsimp only at hload
  by_cases hread : (s₁.fileReadAt (s₁.spte q).file k (s₁.spte q).readBytes (s₁.spte q).offset).1 ≠
      (s₁.spte q).readBytes
  · rw [if_pos hread] at hload
    obtain ⟨s₃, hback, hload⟩ := Option.bind_eq_some_iff.mp hload
    obtain ⟨rfl, rfl⟩ := Prod.mk.inj (Option.some.inj hload)
    exact ⟨(s₁.fileReadAt _ k _ _).2, rfl, .inl ⟨rfl, hback⟩⟩
  rw [if_neg hread] at hload
  -- The page after the file has been read, with zeros at its end.
  generalize hfill : (if 0 < (s₁.spte q).zeroBytes then _ else _ : State) = s₂ at hload
  have hp : s₂.placement = s₁.placement := by
    rw [← hfill]
    split <;> rfl
  split at hload
  · next s₃ hi =>
    obtain rfl := installPage_false hi
    obtain ⟨s₄, hback, hload⟩ := Option.bind_eq_some_iff.mp hload
    obtain ⟨rfl, rfl⟩ := Prod.mk.inj (Option.some.inj hload)
    exact ⟨_, hp, .inl ⟨rfl, hback⟩⟩
  · next s₃ hi =>
    obtain ⟨rfl, rfl⟩ := Prod.mk.inj (Option.some.inj hload)
    refine ⟨s₂, hp, .inr ⟨rfl, fun hlive => ?_⟩⟩
    rw [install_placement (hp ▸ hlive) hi, hp]
    rfl

/-- `page_load_swap` has its frame, and gives it back or installs it. -/
theorem pageLoadSwap_some {b : Bool} (h : s.pageLoadSwap cur q = some (b, s')) :
    ∃ k s₁, s.vmGetFrame cur q = some (some k, s₁) ∧
      (b = false ∧ s₁.pagedirGetPage cur (s₁.spte q).addr ≠ none ∧
          (s₁.swapIn k (s₁.spte q).swapIdx).vmFreeFrame (some k) = some s' ∨
        b = true ∧ (s₁.placement.live cur = true →
          s'.placement = { s₁.placement.install cur (s₁.placement.entry q).addr q k with
            swapBitmap := Function.update s₁.placement.swapBitmap (s₁.placement.entry q).swapIdx
              (!s₁.placement.swapBitmap (s₁.placement.entry q).swapIdx) })) := by
  unfold pageLoadSwap at h
  obtain ⟨⟨frame, s₁⟩, hget, h⟩ := Option.bind_eq_some_iff.mp h
  obtain ⟨k, rfl, hload⟩ := Option.bind_eq_some_iff.mp h
  refine ⟨k, s₁, hget, ?_⟩
  dsimp only at hload
  split at hload
  · next s₃ hi =>
    obtain rfl := installPage_false hi
    obtain ⟨s₄, hback, hload⟩ := Option.bind_eq_some_iff.mp hload
    obtain ⟨rfl, rfl⟩ := Prod.mk.inj (Option.some.inj hload)
    refine .inl ⟨rfl, fun hnone => ?_, hback⟩
    have hnone' : (s₁.swapIn k (s₁.spte q).swapIdx).pagedirGetPage cur (s₁.spte q).addr = none :=
      hnone
    simp only [installPage, hnone', Prod.mk.injEq, Bool.true_eq_false, false_and] at hi
  · next s₃ hi =>
    obtain ⟨rfl, rfl⟩ := Prod.mk.inj (Option.some.inj hload)
    exact .inr ⟨rfl, fun hlive => install_placement (s := s₁.swapIn k _) hlive hi⟩

/-- Loading a page makes no entry. -/
theorem lookup_pageLoadFile {b : Bool} (hl : s.lookup cur u = some q)
    (h : s.pageLoadFile cur q = some (b, s')) : s'.lookup = s.lookup := by
  obtain ⟨k, s₁, hget, s₂, hp, ⟨-, hback⟩ | ⟨-, hinstall⟩⟩ := pageLoadFile_some h
  all_goals obtain ⟨hlookup, hlive, -⟩ := vmGetFrame_tables hget
  · have hlookup₂ : s₂.lookup = s.lookup := (congrArg (·.lookup) hp).trans hlookup
    rcases vmFreeFrame_some hback with ⟨hp', -⟩ | ⟨f, -, -, hp'⟩
    · exact (congrArg (·.lookup) hp').trans hlookup₂
    · exact (congrArg (·.lookup) hp').trans hlookup₂
  · exact (congrArg (·.lookup) (hinstall ((congrFun hlive cur).trans (live_of_lookup hl)))).trans
      hlookup

theorem lookup_pageLoadSwap {b : Bool} (hl : s.lookup cur u = some q)
    (h : s.pageLoadSwap cur q = some (b, s')) : s'.lookup = s.lookup := by
  obtain ⟨k, s₁, hget, ⟨-, -, hback⟩ | ⟨-, hinstall⟩⟩ := pageLoadSwap_some h
  all_goals obtain ⟨hlookup, hlive, -⟩ := vmGetFrame_tables hget
  · rcases vmFreeFrame_some hback with ⟨hp', -⟩ | ⟨f, -, -, hp'⟩
    · exact (congrArg (·.lookup) hp').trans hlookup
    · exact (congrArg (·.lookup) hp').trans hlookup
  · exact (congrArg (·.lookup) (hinstall ((congrFun hlive cur).trans (live_of_lookup hl)))).trans
      hlookup

/-- The entry that `stack_grow` makes. -/
def stackEntry (e : Entry) (u : Upage) : Entry := ⟨u, .swap, e.swapIdx, false⟩

/-- `stack_grow` has no frame, gives it back, or installs it for the new page. -/
theorem stackGrow_some {b : Bool} (h : s.stackGrow cur u = some (b, s')) :
    s.evicted cur = none ∧ ∃ frame s₁,
      { s with nextSpte := s.nextSpte + 1 }.vmGetFrame cur s.nextSpte = some (frame, s₁) ∧
      ((frame = none ∧ b = false ∧ s' = s₁) ∨
        ∃ k, frame = some k ∧ (b = true → s₁.placement.live cur = true →
            s₁.placement.lookup cur u = none) ∧
          (s₁.placement.frame cur u = none →
          s₁.placement.lookup cur u = none → s₁.placement.live cur = true → b = true ∧
            s'.placement = (s₁.placement.insert cur u s.nextSpte
              (stackEntry (s₁.placement.entry s.nextSpte) u)).install cur u s.nextSpte k)) := by
  unfold stackGrow at h
  obtain ⟨_, hguard, h⟩ := Option.bind_eq_some_iff.mp h
  obtain ⟨⟨frame, s₁⟩, hget, hgrow⟩ := Option.bind_eq_some_iff.mp h
  refine ⟨Option.isNone_iff_eq_none.mp ((Option.guard_eq_some' _).mp hguard), frame, s₁, hget, ?_⟩
  cases frame with
  | none =>
    obtain ⟨rfl, rfl⟩ := Prod.mk.inj (Option.some.inj hgrow)
    exact .inl ⟨rfl, rfl, rfl⟩
  | some k =>
    dsimp only at hgrow
    generalize hs₂ : s₁.setSpte s.nextSpte _ = s₂ at hgrow
    have hp : s₂.placement = { s₁.placement with
        entry := Function.update s₁.placement.entry s.nextSpte
          (stackEntry (s₁.placement.entry s.nextSpte) u) } := hs₂ ▸ placement_setSpte _
    refine .inr ⟨k, rfl, fun hb hlive => ?_, fun hframe hlookup hlive => ?_⟩
    all_goals have hlive₂ : s₂.placement.live cur = true := (congrArg (·.live cur) hp).trans hlive
    all_goals split at hgrow
    · obtain ⟨s₄, -, hgrow⟩ := Option.bind_eq_some_iff.mp hgrow
      exact absurd ((Prod.mk.inj (Option.some.inj hgrow)).1.trans hb) nofun
    · next s₃ hi =>
      obtain ⟨-, hp₃⟩ := installPage_true hlive₂ hi
      split at hgrow
      · next hnone =>
        exact ((congrArg (·.lookup cur u) hp₃).trans (congrArg (·.lookup cur u) hp)).symm.trans hnone
      · obtain ⟨s₄, -, hgrow⟩ := Option.bind_eq_some_iff.mp hgrow
        exact absurd ((Prod.mk.inj (Option.some.inj hgrow)).1.trans hb) nofun
    · next s₃ hi =>
      have hnone : s₂.pagedirGetPage cur u = none := (congrArg (·.frame cur u) hp).trans hframe
      simp only [installPage, hnone, Prod.mk.injEq, Bool.true_eq_false, false_and] at hi
    · next s₃ hi =>
      obtain ⟨-, hp₃⟩ := installPage_true hlive₂ hi
      have hnone : s₃.lookup cur u = none := (congrArg (·.lookup cur u) hp₃).trans
        ((congrArg (·.lookup cur u) hp).trans hlookup)
      have hlive₃ : s₃.placement.live cur = true := (congrArg (·.live cur) hp₃).trans hlive₂
      simp only [hnone] at hgrow
      obtain ⟨rfl, rfl⟩ := Prod.mk.inj (Option.some.inj hgrow)
      refine ⟨rfl, ?_⟩
      rw [placement_hashInsert hlive₃, hp₃, hp]
      simp only [Placement.insert, Placement.install, Function.update_self, Function.update_idem]
      rfl

/-! ## Mappings and exits -/

theorem placement_orExit (r : Bool × State) : (orExit p r).placement = r.2.placement := by
  obtain ⟨b, s⟩ := r
  cases b with
  | false => exact placement_setThread (fun _ => rfl) fun _ => rfl
  | true => rfl

/-- A page of a mapping that has no entry is passed over. Of one that has an entry, the frame is
freed if the page is not `free`. -/
theorem freeMmapPage_some (h : s.freeMmapPage cur u = some s') :
    (s.lookup cur u = none ∧ s' = s) ∨
      ∃ q, s.lookup cur u = some q ∧ ((s.placement.entry q).addr = u →
        ((s.placement.entry q).free = false ∨ s.placement.frame cur u = none) →
        s'.placement = s.placement.forget cur u ∧
            (∀ f ∈ s.frameTable, s.placement.frame cur u ≠ some f.frame) ∨
          ∃ f ∈ s.frameTable, s.placement.frame cur u = some f.frame ∧
            s'.placement = (s.placement.giveBack f).forget cur u) := by
  unfold freeMmapPage at h
  split at h
  · next hl => exact .inl ⟨hl, (Option.some.inj h).symm⟩
  next q hl =>
  refine .inr ⟨q, hl, fun haddr hfree => ?_⟩
  have haddr : (s.spte q).addr = u := haddr
  obtain ⟨s₁, hwrite, h⟩ := Option.bind_eq_some_iff.mp h
  have hp : s₁.placement = s.placement := by
    unfold writeBack at hwrite
    split at hwrite
    · exact fileWriteAt_some hwrite
    · rw [← Option.some.inj hwrite]
  obtain ⟨s₂, hback, h⟩ := Option.bind_eq_some_iff.mp h
  unfold freeMmapFrame at hback
  rw [haddr] at hback h
  rw [← Option.some.inj h, placement_hashDelete]
  split at hback
  · obtain ⟨s₃, hgive, rfl⟩ := Option.map_eq_some_iff.mp hback
    rw [placement_pagedirClearPage]
    have hframe : s₁.pagedirGetPage cur u = s.placement.frame cur u :=
      congrArg (·.frame cur u) hp
    rw [hframe] at hgive
    have htable : s₁.frameTable = s.frameTable := congrArg (·.frameTable) hp
    cases hk : s.placement.frame cur u with
    | none =>
      rw [hk] at hgive
      rw [← Option.some.inj hgive, hp]
      exact .inl ⟨rfl, fun _ _ => nofun⟩
    | some k =>
      rw [hk] at hgive
      rcases vmFreeFrame_some hgive with ⟨hs₃, hnone⟩ | ⟨f, hf, rfl, hs₃⟩
      · rw [hs₃, hp]
        exact .inl ⟨rfl, fun f hf he => hnone f (htable ▸ hf) (Option.some.inj he).symm⟩
      · rw [hs₃, hp]
        exact .inr ⟨f, htable ▸ hf, rfl, rfl⟩
  · next hf =>
    have hk := hfree.resolve_left hf
    rw [← Option.some.inj hback, hp]
    refine .inl ⟨?_, fun f _ => hk ▸ nofun⟩
    rw [Placement.forget, setPage_eq_self hk]

theorem pagedirDestroy_some (l : List (Sigma fun _ : Upage => Pte)) :
    ∀ s : State, pagedirDestroy l s = some s' → s'.thread = s.thread ∧
      s'.placement = { s.placement with usedMap := s'.usedMap } ∧
      ∀ k, (∀ v ∈ l, v.2.present = true → v.2.frame ≠ k) → s'.usedMap k = s.usedMap k := by
  induction l with
  | nil =>
    intro s h
    rw [← Option.some.inj h]
    exact ⟨rfl, rfl, fun _ _ => rfl⟩
  | cons v l ih =>
    intro s h
    unfold pagedirDestroy at h
    split at h
    · next hv =>
      obtain ⟨s₁, hfree, h⟩ := Option.bind_eq_some_iff.mp h
      obtain ⟨hthread, hp, hused⟩ := ih s₁ h
      unfold pallocFreePage at hfree
      split at hfree
      swap
      · cases hfree
      obtain rfl := Option.some.inj hfree
      refine ⟨hthread, hp, fun k hk => ?_⟩
      rw [hused k fun w hw => hk w (List.mem_cons_of_mem v hw)]
      exact Function.update_of_ne (hk v List.mem_cons_self hv).symm ..
    · obtain ⟨hthread, hp, hused⟩ := ih s h
      exact ⟨hthread, hp, fun k hk => hused k fun w hw => hk w (List.mem_cons_of_mem v hw)⟩

/-- `process_exit` unmaps everything, and then the process is gone. -/
theorem processExit_some (h : s.processExit cur = some s') :
    ∃ t s₁, s.thread cur = some t ∧ freeMmapList cur t.mmapList (s.allowWrite cur) = some s₁ ∧
      ∃ usedMap, s'.placement = s₁.placement.exit cur usedMap ∧
        ∀ k, (∀ u, s₁.placement.frame cur u ≠ some k) → usedMap k = s₁.usedMap k := by
  unfold processExit at h
  obtain ⟨t, ht, h⟩ := Option.bind_eq_some_iff.mp h
  obtain ⟨s₁, hfree, h⟩ := Option.bind_eq_some_iff.mp h
  refine ⟨t, s₁, ht, hfree, ?_⟩
  dsimp only at h
  obtain ⟨t₁, ht₁, h⟩ := Option.bind_eq_some_iff.mp h
  obtain ⟨s₂, hdestroy, h⟩ := Option.bind_eq_some_iff.mp h
  obtain ⟨-, hp, hused⟩ := pagedirDestroy_some _ _ hdestroy
  obtain rfl := Option.some.inj h
  refine ⟨s₂.usedMap, ?_, fun k hk => ?_⟩
  · rw [placement_removeThread, hp]
    have hclear : (vmClearProcessFrameTable (s₁.setThread cur fun t =>
        { t with supplPageTable := ∅ }) cur).placement =
        { (s₁.setThread cur fun t => { t with supplPageTable := ∅ }).placement with
          frameTable := s₁.frameTable.filter (·.owner ≠ cur) } := rfl
    rw [hclear, placement_freeSupplPageTable]
    simp only [Placement.exit, Function.update_idem]
    rfl
  · refine hused k fun v hv hpresent he => hk v.1 ?_
    obtain ⟨t₂, ht₂, rfl⟩ : ∃ t₂, s₁.thread cur = some t₂ ∧ { t₂ with supplPageTable := ∅ } = t₁ := by
      simpa only [vmClearProcessFrameTable, setThread, Function.update_self, Option.map_eq_some_iff]
        using ht₁
    have hpte : s₁.pte cur v.1 = v.2 := by
      have hl : t₂.pagedir.lookup v.1 = some v.2 := AList.mem_lookup_iff.mpr hv
      simp only [pte, ht₂, Option.bind_some, hl, Option.getD_some]
    simp only [placement, pagedirGetPage, hpte, hpresent, if_true, he]

end State

end Pintos.Vm
