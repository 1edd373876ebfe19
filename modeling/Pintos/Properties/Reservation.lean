import Pintos.Properties.Mappings
import Pintos.Vm.Reservation

/-!
# `mmap` is all or nothing

Up to `file_reopen` a call of `mmap` that fails has changed nothing. After that nothing is taken
back.

* `mmap_all_or_nothing_iff` — the calls of `mmap` that do everything or nothing.
* `Reachable.allOrNothing_iff` — the same in every state that a run reaches.
-/

namespace Pintos.Vm

open Pintos.Logic

variable {o : Outcomes} {s s' : Files} {t : State} {cur : Pid} {fd : Int} {addr n : Nat}
  {file : FileId} {upage : Upage} {writable : Bool} {type : PageType}

namespace State

/-! ## The parts of `mmap` -/

/-- A page that a mapping may take. -/
structure Vacant (t : State) (cur : Pid) (u : Upage) : Prop where
  user : u * pgsize < physBase
  unreserved : t.lookup cur u = none
  unmapped : t.pagedirGetPage cur u = none

theorem overlaps_false_iff (n : Nat) (upage : Upage) :
    t.overlaps cur n upage = some false ↔ ∀ i < n, t.Vacant cur (upage + i) := by
  induction n generalizing upage with
  | zero => exact iff_of_true rfl nofun
  | succ n ih =>
    have hcons : (∀ i < n + 1, t.Vacant cur (upage + i)) ↔
        t.Vacant cur upage ∧ ∀ i < n, t.Vacant cur (upage + 1 + i) := by
      constructor
      · intro h
        refine ⟨h 0 (Nat.succ_pos n), fun i hi => ?_⟩
        rw [Nat.add_right_comm]
        exact h (i + 1) (Nat.succ_lt_succ hi)
      · rintro ⟨h, hrest⟩ i hi
        cases i with
        | zero => exact h
        | succ i =>
          rw [← Nat.add_assoc, Nat.add_right_comm]
          exact hrest i (Nat.lt_of_succ_lt_succ hi)
    rw [hcons, overlaps]
    split
    · next h => exact iff_of_false (by simp) fun hc => by simp [hc.1.unreserved] at h
    · next hl =>
      split
      · next h => exact iff_of_false (by simp) fun hc => Nat.not_le.mpr hc.1.user h
      · next hu =>
        split
        · next h => exact iff_of_false (by simp) fun hc => by simp [hc.1.unmapped] at h
        · next hp =>
          rw [ih, and_iff_right]
          exact ⟨Nat.not_le.mp hu, by simpa using hl, by simpa using hp⟩

/-- With memory for its entries `page_lazy_load` does what it does where `malloc` never fails. -/
theorem pageLazyLoadAt_granted (n : Nat) : ∀ (k ofs : Nat) (upage : Upage) (readBytes : Nat)
    (t : State), (∀ i < n, o.spte (k + i) = true) →
    pageLazyLoadAt o cur file writable type k n ofs upage readBytes t =
      pageLazyLoad cur file writable type n ofs upage readBytes t := by
  intro k ofs upage readBytes t
  rw [pageLazyLoad_eq_rounds]
  induction n generalizing k ofs upage readBytes t with
  | zero => exact fun _ => rfl
  | succ n ih =>
    intro h
    have hfirst : o.spte k = true := h 0 (Nat.succ_pos n)
    rw [pageLazyLoadAt, pageRounds, hfirst, Bool.not_true, if_neg Bool.false_ne_true]
    rcases pageLazyLoad cur file writable type 1 ofs upage (min readBytes pgsize) t with ⟨_ | _, t₁⟩
    · rfl
    · refine ih _ _ _ _ _ fun i hi => ?_
      rw [Nat.add_right_comm]
      exact h (i + 1) (Nat.succ_lt_succ hi)

/-- Without memory for one of its entries it fails. -/
theorem pageLazyLoadAt_refused (n : Nat) : ∀ (k ofs : Nat) (upage : Upage) (readBytes : Nat)
    (t : State), (∃ i < n, o.spte (k + i) = false) →
    (pageLazyLoadAt o cur file writable type k n ofs upage readBytes t).1 = false := by
  induction n with
  | zero => exact fun _ _ _ _ _ ⟨i, hi, _⟩ => absurd hi (Nat.not_lt_zero i)
  | succ n ih =>
    rintro k ofs upage readBytes t ⟨i, hi, hrefused⟩
    rw [pageLazyLoadAt]
    split
    · rfl
    · next hfirst =>
      split
      · rfl
      · refine ih _ _ _ _ _ ?_
        cases i with
        | zero =>
          have hrefused : o.spte k = false := hrefused
          simp [hrefused] at hfirst
        | succ i =>
          refine ⟨i, Nat.lt_of_succ_lt_succ hi, ?_⟩
          rw [Nat.add_right_comm]
          exact hrefused

/-! ## What is kept in a thread -/

theorem pte_setThread {f : Thread → Thread} (h : ∀ th, (f th).pagedir = th.pagedir) (t : State)
    (p : Pid) : (t.setThread p f).pte = t.pte := by
  funext p' u
  have hmap := map_setThread h t p p'
  have hpte : ∀ t' : State, t'.pte p' u =
      (((t'.thread p').map (·.pagedir)).bind fun d => d.lookup u).getD {} := by
    intro t'
    rw [pte, Option.bind_map]
    rfl
  rw [hpte, hpte, hmap]

end State

namespace Files

/-! ## What is asked of `mmap` -/

/-- `mmap_list` of a process. -/
def mmapList (s : Files) (cur : Pid) : List MmapEntry :=
  ((s.vm.thread cur).map (·.mmapList)).getD []

/-- The number of pages for a file. -/
def pageNum (s : Files) (file : FileId) : Nat := ((s.vm.file file).length + (pgsize - 1)) / pgsize

/-- What `mmap` reserves is as before. -/
structure Unchanged (s s' : Files) : Prop where
  lookup : s'.vm.lookup = s.vm.lookup
  spte : s'.vm.spte = s.vm.spte
  pte : s'.vm.pte = s.vm.pte
  mmapList : s'.mmapList = s.mmapList
  openCnt : s'.openCnt = s.openCnt

/-- The pages of a file are reserved from `upage` on, and nothing else. -/
structure Reserved (s s' : Files) (cur : Pid) (file : FileId) (upage : Upage) (id : Nat) :
    Prop where
  fresh : ∀ e ∈ s.mmapList cur, e.mmapId ≠ id
  vacant : ∀ i < s.pageNum file, s.vm.Vacant cur (upage + i)
  lookup : ∀ p u, s'.vm.lookup p u =
    if p = cur ∧ upage ≤ u ∧ u < upage + s.pageNum file then
      some (s.vm.nextSpte + (u - upage)) else s.vm.lookup p u
  /-- The entry of the page `i`. -/
  page : ∀ i < s.pageNum file, State.IsPage (s'.vm.spte (s.vm.nextSpte + i)) file .mmap true 0 upage
    (s.vm.file file).length i
  offset : ∀ i < s.pageNum file, (s'.vm.spte (s.vm.nextSpte + i)).offset = i * pgsize
  readBytes : ((List.range (s.pageNum file)).map fun i =>
    (s'.vm.spte (s.vm.nextSpte + i)).readBytes).sum = (s.vm.file file).length
  /-- The other entries. -/
  spte : ∀ q < s.vm.nextSpte, s'.vm.spte q = s.vm.spte q
  pte : s'.vm.pte = s.vm.pte
  mmapList : s'.mmapList cur = s.mmapList cur ++ [⟨id, upage, file, s.pageNum file⟩]
  openCnt : s'.openCnt = Function.update s.openCnt file (s.openCnt file + 1)

/-- `mmap` does everything or nothing, and no assertion fails. -/
def AllOrNothing (o : Outcomes) (cur : Pid) (fd : Int) (addr : Nat) (s : Files) : Prop :=
  ∃ id s', mmap o cur fd addr s = some (id, s') ∧
    match id with
    | none => Unchanged s s'
    | some id => ∃ d ∈ s.getfile fd, ∃ file ∈ d.file, Reserved s s' cur file (addr / pgsize) id

/-- The call gets as far as to open the file once more. -/
structure Opens (o : Outcomes) (fd : Int) (addr : Nat) (s : Files) (file : FileId) : Prop where
  console : ¬ (fd = 0 ∨ fd = 1)
  addr : ¬ (addr = 0 ∨ addr % pgsize ≠ 0)
  getfile : (s.getfile fd).bind (·.file) = some file
  length : (s.vm.file file).length ≠ 0
  reopen : o.file = true

/-- The pages may be taken, and there is memory for the mapping and its entries. -/
structure Granted (o : Outcomes) (cur : Pid) (upage : Upage) (s : Files) (file : FileId) :
    Prop where
  vacant : ∀ i < s.pageNum file, s.vm.Vacant cur (upage + i)
  mmapEntry : o.mmapEntry = true
  spte : ∀ i < s.pageNum file, o.spte i = true

/-! ## Before the file is opened -/

theorem Unchanged.refl (s : Files) : Unchanged s s := ⟨rfl, rfl, rfl, rfl, rfl⟩

theorem fileReopen_refused (h : o.file = false) (s : Files) (i : FileId) :
    ∃ s', fileReopen o s i = (false, s') ∧ Unchanged s s' := by
  refine ⟨(s.inodeReopen i).inodeClose i, by rw [fileReopen, h]; rfl, rfl, rfl, rfl, rfl, ?_⟩
  show Function.update (Function.update s.openCnt i (s.openCnt i + 1)) i
    (Function.update s.openCnt i (s.openCnt i + 1) i - 1) = s.openCnt
  rw [Function.update_self, Nat.add_sub_cancel, Function.update_idem, Function.update_eq_self]

theorem fileReopen_granted (h : o.file = true) (s : Files) (i : FileId) :
    fileReopen o s i = (true, s.inodeReopen i) := by
  rw [fileReopen, h]
  rfl

theorem mmap_early (cur : Pid) (h : ∀ file, ¬ Opens o fd addr s file) :
    ∃ s', mmap o cur fd addr s = some (none, s') ∧ Unchanged s s' := by
  rw [mmap]
  split
  · exact ⟨s, rfl, .refl s⟩
  next hconsole =>
  split
  · exact ⟨s, rfl, .refl s⟩
  next haddr =>
  split
  · exact ⟨s, rfl, .refl s⟩
  next file hfile =>
  dsimp only
  split
  · exact ⟨s, rfl, .refl s⟩
  next hlength =>
  have hrefused : o.file = false := by
    by_contra hgranted
    exact h file ⟨hconsole, haddr, hfile, hlength, Bool.not_eq_false _ ▸ hgranted⟩
  obtain ⟨s', hreopen, hsame⟩ := fileReopen_refused hrefused s file
  rw [hreopen]
  exact ⟨s', rfl, hsame⟩

/-! ## After the file is opened -/

/-- `mmap` after `file_reopen`. -/
theorem mmap_opened (h : Opens o fd addr s file) :
    mmap o cur fd addr s =
      match s.vm.overlaps cur (s.pageNum file) (addr / pgsize) with
      | none => none
      | some true => some (none, s.inodeReopen file)
      | some false =>
        if !o.mmapEntry then some (none, s.inodeReopen file)
        else
          let id := ((s.vm.thread cur).map (·.mmapNum)).getD 0
          let vm := s.vm.setThread cur fun t => { t with mmapNum := t.mmapNum + 1 }
          match vm.pageLazyLoadAt o cur file true .mmap 0 (s.pageNum file) 0 (addr / pgsize)
            (s.vm.file file).length with
          | (false, vm) => some (none, { s.inodeReopen file with vm })
          | (true, vm) => some (some id, { s.inodeReopen file with
              vm := vm.setThread cur fun t => { t with
                mmapList := t.mmapList ++ [⟨id, addr / pgsize, file, s.pageNum file⟩] } }) := by
  rw [mmap, if_neg h.console, if_neg h.addr, h.getfile]
  dsimp only
  rw [if_neg h.length, fileReopen_granted h.reopen]
  rfl

/-- Where memory does not run out, this is `mmap` of the virtual memory. -/
theorem mmap_plenty (h : Opens o fd addr s file) (hentry : o.mmapEntry = true)
    (hspte : ∀ i, o.spte i = true) :
    (mmap o cur fd addr s).map (fun r => (r.1, r.2.vm)) = s.vm.mmap cur file addr := by
  rw [mmap_opened h, State.mmap, if_neg h.addr, hentry]
  dsimp only
  rw [if_neg h.length, Bool.not_true, if_neg Bool.false_ne_true,
    State.pageLazyLoadAt_granted _ _ _ _ _ _ fun i _ => hspte _]
  rw [pageNum]
  rcases s.vm.overlaps cur _ (addr / pgsize) with _ | _ | _
  · rfl
  · dsimp only
    rcases State.pageLazyLoad cur file true .mmap _ 0 _ _ _ with ⟨_ | _, t⟩
    · rfl
    · rfl
  · rfl

theorem openCnt_inodeReopen_ne (s : Files) (i : FileId) :
    (s.inodeReopen i).openCnt ≠ s.openCnt := by
  intro h
  have hi : Function.update s.openCnt i (s.openCnt i + 1) i = s.openCnt i := congrFun h i
  rw [Function.update_self] at hi
  exact Nat.succ_ne_self _ hi

/-- Without all of its memory or its pages `mmap` leaves the file open. -/
theorem mmap_refused (hopens : Opens o fd addr s file) (h : ¬ Granted o cur (addr / pgsize) s file)
    {id : Option Nat} (hrun : mmap o cur fd addr s = some (id, s')) :
    id = none ∧ s'.openCnt = (s.inodeReopen file).openCnt := by
  rw [mmap_opened hopens] at hrun
  split at hrun
  · cases hrun
  · cases hrun
    exact ⟨rfl, rfl⟩
  next hvacant =>
  split at hrun
  · cases hrun
    exact ⟨rfl, rfl⟩
  next hentry =>
  dsimp only at hrun
  have hmissing : ∃ i < s.pageNum file, o.spte (0 + i) = false := by
    by_contra hall
    refine h ⟨(State.overlaps_false_iff _ _).mp hvacant, by simpa using hentry, fun i hi => ?_⟩
    by_contra hrefused
    exact hall ⟨i, hi, by rwa [Nat.zero_add, ← Bool.not_eq_true]⟩
  split at hrun
  · cases hrun
    exact ⟨rfl, rfl⟩
  · next hloaded =>
    have hload := congrArg Prod.fst hloaded
    rw [State.pageLazyLoadAt_refused _ _ _ _ _ _ hmissing] at hload
    cases hload

theorem le_pageNum (s : Files) (file : FileId) {i : Nat} (hi : i < s.pageNum file) :
    i * pgsize < (s.vm.file file).length := by
  simp only [pageNum, pgsize] at hi ⊢
  omega

/-- The pages of a file take all its bytes. -/
theorem sum_pages (length n : Nat) :
    ((List.range n).map fun i => min (length - i * pgsize) pgsize).sum =
      min length (n * pgsize) := by
  induction n with
  | zero => simp
  | succ n ih =>
    rw [List.range_succ, List.map_append, List.sum_append, ih, Nat.succ_mul]
    simp only [List.map_cons, List.map_nil, List.sum_cons, List.sum_nil, pgsize]
    omega

/-- The pages of a mapping are laid out once the mapping has its id. -/
theorem pageLazyLoad_counted (hlive : t.placement.live cur = true)
    (hfree : ∀ i < n, t.lookup cur (upage + i) = none) (file : FileId) (length : Nat) :
    ∃ t', State.pageLazyLoad cur file true .mmap n 0 upage length
        (t.setThread cur fun th => { th with mmapNum := th.mmapNum + 1 }) = (true, t') ∧
      State.Laid t t' cur upage n ∧
      (∀ i < n, State.IsPage (t'.spte (t.nextSpte + i)) file .mmap true 0 upage length i) ∧
      (t'.thread cur).map (·.mmapList) = (t.thread cur).map (·.mmapList) := by
  generalize hcount : (t.setThread cur fun th => { th with mmapNum := th.mmapNum + 1 }) = t₁
  have hplace : t₁.placement = t.placement := by
    rw [← hcount]
    exact State.placement_setThread (fun _ => rfl) fun _ => rfl
  have hlookup : t₁.lookup = t.lookup := congrArg Placement.lookup hplace
  have hlazy : ∃ t', State.pageLazyLoad cur file true .mmap n 0 upage length t₁ = (true, t') ∧
      _ ∧ _ := State.pageLazyLoad_laid _ _ _ _ t₁ (hplace ▸ hlive) (hlookup ▸ hfree)
  obtain ⟨t', hload, hlaid, hpages⟩ := hlazy
  have hnext : t₁.nextSpte = t.nextSpte := by rw [← hcount]; rfl
  refine ⟨t', hload, ?_, hnext ▸ hpages, ?_⟩
  · constructor
    case nextSpte => rw [hlaid.nextSpte, hnext]
    case lookup => exact fun p u => (hlaid.lookup p u).trans (by rw [hnext, hlookup])
    case spte => exact fun q hq => (hlaid.spte q (hnext ▸ hq)).trans (by rw [← hcount]; rfl)
    case pte =>
      rw [hlaid.pte, ← hcount]
      exact State.pte_setThread (by exact fun _ => rfl) _ _
    case live => rw [hlaid.live, hplace]
    case rest =>
      rw [hlaid.rest, ← hcount]
      rfl
  · have hkept : ((State.pageLazyLoad cur file true .mmap n 0 upage length t₁).2.thread cur).map
        (·.mmapList) = (t₁.thread cur).map (·.mmapList) :=
      State.map_pageLazyLoad (fun _ _ => rfl) _ _ _ _ _ _
    rw [hload] at hkept
    rw [hkept, ← hcount]
    exact State.map_setThread (by exact fun _ => rfl) _ _ _

/-- The pages are laid out, and the mapping is put in the list. -/
theorem reserved_laid {vm : State} {th : Thread} {id : Nat} (hth : s.vm.thread cur = some th)
    (hfresh : ∀ e ∈ th.mmapList, e.mmapId ≠ id)
    (hvacant : ∀ i < s.pageNum file, s.vm.Vacant cur (upage + i))
    (hlaid : State.Laid s.vm vm cur upage (s.pageNum file))
    (hpages : ∀ i < s.pageNum file, State.IsPage (vm.spte (s.vm.nextSpte + i)) file .mmap true 0
      upage (s.vm.file file).length i)
    (hlist : (vm.thread cur).map (·.mmapList) = (s.vm.thread cur).map (·.mmapList)) :
    Reserved s { s.inodeReopen file with
      vm := vm.setThread cur fun t => { t with
        mmapList := t.mmapList ++ [⟨id, upage, file, s.pageNum file⟩] } } cur file upage id := by
  have hplace := State.placement_setThread (s := vm) (p := cur) (f := fun t => { t with
    mmapList := t.mmapList ++ [⟨id, upage, file, s.pageNum file⟩] }) (fun _ => rfl) fun _ => rfl
  constructor
  case fresh =>
    intro e he
    rw [mmapList, hth] at he
    exact hfresh e he
  case vacant => exact hvacant
  case lookup =>
    intro p u
    have hkept := congrFun₂ (congrArg Placement.lookup hplace) p u
    exact hkept.trans (hlaid.lookup p u)
  case page => exact hpages
  case offset =>
    intro i hi
    refine (hpages i hi).offset.trans ?_
    rw [Nat.zero_add, Nat.min_eq_right (Nat.le_of_lt (le_pageNum s file hi))]
  case readBytes =>
    have hread := List.map_congr_left fun i hi => (hpages i (List.mem_range.mp hi)).readBytes
    refine (congrArg List.sum hread).trans ((sum_pages _ _).trans (Nat.min_eq_left ?_))
    simp only [pageNum, pgsize]
    omega
  case spte => exact hlaid.spte
  case pte => exact (State.pte_setThread (by exact fun _ => rfl) _ _).trans hlaid.pte
  case mmapList =>
    rw [hth] at hlist
    obtain ⟨th', hth', hlist⟩ := Option.map_eq_some_iff.mp hlist
    simp only [mmapList, State.setThread, Function.update_self, hth', hth, Option.map_some,
      Option.getD_some, hlist]
  case openCnt => rfl

/-- With all of its memory and its pages `mmap` reserves them. -/
theorem mmap_granted (hlive : (s.vm.thread cur).isSome = true) (hopens : Opens o fd addr s file)
    (hids : ∀ t ∈ s.vm.thread cur, ∀ e ∈ t.mmapList, e.mmapId < t.mmapNum)
    (h : Granted o cur (addr / pgsize) s file) :
    ∃ id s', mmap o cur fd addr s = some (some id, s') ∧
      Reserved s s' cur file (addr / pgsize) id := by
  obtain ⟨th, hth⟩ := Option.isSome_iff_exists.mp hlive
  obtain ⟨vm, hload, hlaid, hpages, hlist⟩ := pageLazyLoad_counted (t := s.vm) hlive
    (fun i hi => (h.vacant i hi).unreserved) file (s.vm.file file).length
  rw [mmap_opened hopens, (State.overlaps_false_iff _ _).mpr h.vacant, h.mmapEntry]
  dsimp only
  rw [Bool.not_true, if_neg Bool.false_ne_true,
    State.pageLazyLoadAt_granted _ _ _ _ _ _ fun i hi => by rw [Nat.zero_add]; exact h.spte i hi,
    hload]
  refine ⟨_, _, rfl, reserved_laid hth (fun e he => ?_) h.vacant hlaid hpages hlist⟩
  rw [hth]
  exact Nat.ne_of_lt (hids th hth e he)

theorem allOrNothing_iff (hlive : (s.vm.thread cur).isSome = true)
    (hids : ∀ t ∈ s.vm.thread cur, ∀ e ∈ t.mmapList, e.mmapId < t.mmapNum) :
    AllOrNothing o cur fd addr s ↔
      ∀ file, Opens o fd addr s file → Granted o cur (addr / pgsize) s file := by
  constructor
  · rintro ⟨id, s', hrun, hresult⟩ file hopens
    by_contra hnot
    obtain ⟨rfl, hcnt⟩ := mmap_refused hopens hnot hrun
    exact openCnt_inodeReopen_ne s file (hcnt.symm.trans hresult.openCnt)
  · intro h
    by_cases hearly : ∃ file, Opens o fd addr s file
    · obtain ⟨file, hopens⟩ := hearly
      obtain ⟨id, s', hrun, hreserved⟩ := mmap_granted hlive hopens hids (h file hopens)
      obtain ⟨d, hd, hfile⟩ := Option.bind_eq_some_iff.mp hopens.getfile
      exact ⟨some id, s', hrun, d, hd, file, hfile, hreserved⟩
    · obtain ⟨s', hrun, hsame⟩ := mmap_early cur fun file hopens => hearly ⟨file, hopens⟩
      exact ⟨none, s', hrun, hsame⟩

/-- In every state that a run reaches, the ids of the mappings are below the next one. -/
theorem Reachable.allOrNothing_iff {P : State → Action → Prop} (h : Reachable P s.vm)
    (hlive : (s.vm.thread cur).isSome = true) :
    AllOrNothing o cur fd addr s ↔
      ∀ file, Opens o fd addr s file → Granted o cur (addr / pgsize) s file :=
  Files.allOrNothing_iff hlive fun th hth => (h.numbered cur th hth).below

/-- **`mmap` is all or nothing** if and only if it stops before it opens the file once more, or the
pages may be taken and there is memory for the mapping and its entries. -/
theorem mmap_all_or_nothing_iff (hlive : (s.vm.thread cur).isSome = true)
    (hids : ∀ t ∈ s.vm.thread cur, ∀ e ∈ t.mmapList, e.mmapId < t.mmapNum) :
    AllOrNothing o cur fd addr s ↔
      ∀ file, Opens o fd addr s file → Granted o cur (addr / pgsize) s file :=
  allOrNothing_iff hlive hids

/-- A process without pages that has a file of 5000 bytes open. -/
def oneDescriptor : Files where
  vm := { State.init (fun _ => ⟨0, .file, 0, 0, 0, 0, false, false, 0, 0⟩) 4
    (fun _ => Bytes.zeros) 4 (fun _ => Bytes.zeros) (fun _ => ⟨fun _ => 0, 5000, 0⟩) 0 with
    thread := fun p => if p = 0 then some {} else none }
  openCnt _ := 1
  fdList := [⟨2, some 0⟩]

/-- Memory does not run out. -/
def plenty : Outcomes := ⟨true, true, fun _ => true⟩

theorem opens_oneDescriptor {addr : Nat} (ho : o.file = true)
    (h : ¬ (addr = 0 ∨ addr % pgsize ≠ 0)) : Opens o 2 addr oneDescriptor 0 :=
  ⟨by decide, h, rfl, by decide, ho⟩

theorem mmap_all_or_nothing_oneDescriptor : AllOrNothing plenty 0 2 0x10000 oneDescriptor := by
  refine (mmap_all_or_nothing_iff rfl ?_).mpr fun file hopens => ?_
  · intro t ht e he
    obtain rfl : ({} : Thread) = t := Option.some.inj ht
    exact absurd he List.not_mem_nil
  · obtain rfl : 0 = file := Option.some.inj hopens.getfile
    refine ⟨fun i hi => ⟨?_, rfl, rfl⟩, rfl, fun _ _ => rfl⟩
    have hi : i < 2 := hi
    show (16 + i) * 4096 < 0xc0000000
    omega

/-- At the kernel's addresses an assertion fails, and without memory the file stays open. -/
theorem mmap_not_all_or_nothing : ¬ AllOrNothing plenty 0 2 physBase oneDescriptor ∧
    ¬ AllOrNothing { plenty with mmapEntry := false } 0 2 0x10000 oneDescriptor := by
  refine ⟨?_, ?_⟩
  · rintro ⟨id, s', hrun, -⟩
    have hpanic : mmap plenty 0 2 physBase oneDescriptor = none := rfl
    rw [hpanic] at hrun
    cases hrun
  · rintro ⟨id, s', hrun, hresult⟩
    obtain ⟨rfl, hcnt⟩ := mmap_refused (opens_oneDescriptor rfl (by decide))
      (fun h => Bool.false_ne_true h.mmapEntry) hrun
    exact openCnt_inodeReopen_ne oneDescriptor 0 (hcnt.symm.trans hresult.openCnt)

end Files

end Pintos.Vm
