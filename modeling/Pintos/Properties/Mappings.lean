import Pintos.Properties.LazyLoading

/-!
# The ids of mappings

`mmap_num` only grows, so an id is never given out while it is in use.

* `Reachable.numbered` — in every run the ids of the mappings of a process are below `mmap_num`,
  each of them once.
-/

namespace Pintos.Vm

open Pintos.Logic

variable {s s' : State} {cur p : Pid} {u : Upage} {q : SptePtr} {k : Frame} {n size ofs : Nat}
  {file : FileId} {writable b : Bool} {type : PageType} {f : FrameTabEntry}
  {P : State → Action → Prop}

/-- The ids of the mappings are below the next one, each of them once. -/
structure Thread.Numbered (th : Thread) : Prop where
  below : ∀ e ∈ th.mmapList, e.mmapId < th.mmapNum
  once : (th.mmapList.map (·.mmapId)).Nodup

/-- A mapping is added under an id that is not in use. -/
theorem Thread.Numbered.add {th : Thread} (h : th.Numbered) {id : Nat} (hid : id < th.mmapNum)
    (hnew : ∀ e ∈ th.mmapList, e.mmapId ≠ id) (upage : Upage) (file : FileId) (n : Nat) :
    Thread.Numbered { th with mmapList := th.mmapList ++ [⟨id, upage, file, n⟩] } := by
  constructor
  case below =>
    intro e he
    obtain he | he := List.mem_append.mp he
    · exact h.below e he
    · obtain rfl := List.mem_singleton.mp he
      exact hid
  case once =>
    rw [List.map_append, List.map_singleton]
    refine List.nodup_append_comm.mp (List.nodup_cons.mpr ⟨fun hmem => ?_, h.once⟩)
    obtain ⟨e, he, heq⟩ := List.mem_map.mp hmem
    exact hnew e he heq

namespace State

/-- All processes have their mappings under ids of their own. -/
def Numbered (s : State) : Prop := ∀ p, ∀ th ∈ s.thread p, th.Numbered

/-- `mmap_list` and `mmap_num` of each process. -/
def mappings (s : State) (p : Pid) : Option (List MmapEntry × Nat) :=
  (s.thread p).map fun th => (th.mmapList, th.mmapNum)

/-! ## What is kept in a thread -/

/-- A field that is not assigned stays, in all processes. -/
theorem map_setThread {β : Type} {g : Thread → β} {f : Thread → Thread}
    (h : ∀ th, g (f th) = g th) (t : State) (p p' : Pid) :
    ((t.setThread p f).thread p').map g = (t.thread p').map g := by
  by_cases hp : p' = p
  · subst hp
    simp only [setThread, Function.update_self, Option.map_map]
    exact congrArg (Option.map · (t.thread p')) (funext h)
  · simp only [setThread, Function.update_of_ne hp]

/-- Only the supplemental page table is assigned. -/
theorem map_pageLazyLoad {β : Type} {g : Thread → β}
    (h : ∀ th table, g { th with supplPageTable := table } = g th) (n : Nat) (p : Pid) :
    ∀ (ofs : Nat) (upage : Upage) (readBytes : Nat) (t : State),
      ((pageLazyLoad cur file writable type n ofs upage readBytes t).2.thread p).map g =
        (t.thread p).map g := by
  induction n with
  | zero => exact fun _ _ _ _ => rfl
  | succ n ih =>
    intro ofs upage readBytes t
    unfold pageLazyLoad
    dsimp only
    split
    · rfl
    · exact (ih _ _ _ _).trans (map_setThread (fun th => h th _) _ _ _)

/-- What leaves `mmap_list` and `mmap_num` alone leaves the mappings alone. -/
theorem mappings_setThread {f : Thread → Thread} (hlist : ∀ th, (f th).mmapList = th.mmapList)
    (hnum : ∀ th, (f th).mmapNum = th.mmapNum) (s : State) (p : Pid) :
    (s.setThread p f).mappings = s.mappings :=
  funext fun p' => map_setThread (fun th => Prod.ext (hlist th) (hnum th)) s p p'

theorem mappings_setPte (s : State) (p : Pid) (u : Upage) (v : Pte) :
    (s.setPte p u v).mappings = s.mappings :=
  mappings_setThread (by exact fun _ => rfl) (by exact fun _ => rfl) s p

theorem mappings_hashInsert (s : State) (p : Pid) (u : Upage) (q : SptePtr) :
    (s.hashInsert p u q).mappings = s.mappings :=
  mappings_setThread (by exact fun _ => rfl) (by exact fun _ => rfl) s p

theorem mappings_hashDelete (s : State) (p : Pid) (u : Upage) :
    (s.hashDelete p u).mappings = s.mappings :=
  mappings_setThread (by exact fun _ => rfl) (by exact fun _ => rfl) s p

theorem mappings_pagedirClearPage (s : State) (p : Pid) (u : Upage) :
    (s.pagedirClearPage p u).mappings = s.mappings := by
  rw [pagedirClearPage]
  split
  · exact mappings_setPte s p u _
  · rfl

theorem mappings_installPage (h : s.installPage p u k writable = (b, s')) :
    s'.mappings = s.mappings := by
  rw [installPage] at h
  split at h
  · cases h
    rfl
  · cases h
    exact mappings_setPte s p u _

/-- A write to a file changes a process in its page directory at most. -/
theorem mappings_fileWriteAt (h : s.fileWriteAt cur file u size ofs = some s') :
    s'.mappings = s.mappings := by
  unfold fileWriteAt at h
  dsimp only at h
  split at h
  · rw [Option.some.inj h]
  split at h
  · rw [← Option.some.inj h]
    exact mappings_setPte s cur u _
  · cases h

theorem mappings_pallocFreePage (h : s.pallocFreePage k = some s') : s'.mappings = s.mappings := by
  rw [pallocFreePage] at h
  split at h
  · rw [← Option.some.inj h]
    rfl
  · cases h

/-! ## Frames -/

theorem mappings_pageOut (h : s.pageOut cur f = some s') : s'.mappings = s.mappings := by
  unfold pageOut at h
  dsimp only at h
  split at h
  · exact mappings_fileWriteAt h
  · obtain ⟨⟨i, s₁⟩, hout, h⟩ := Option.bind_eq_some_iff.mp h
    obtain ⟨j, -, hout⟩ := Option.map_eq_some_iff.mp hout
    rw [← Option.some.inj h, ← (Prod.mk.inj hout).2]
    rfl

theorem mappings_doEvictFrame (h : s.doEvictFrame cur q f = some (k, s')) :
    s'.mappings = s.mappings := by
  unfold doEvictFrame at h
  dsimp only at h
  obtain ⟨s₁, hout, h⟩ := Option.bind_eq_some_iff.mp h
  obtain ⟨-, -, h⟩ := Option.bind_eq_some_iff.mp h
  rw [← (Prod.mk.inj (Option.some.inj h)).2]
  exact (mappings_pagedirClearPage s₁ _ _).trans (mappings_pageOut hout)

/-- The search for a victim sets no field of a process. -/
theorem thread_findUnaccessedPage (cur : Pid) (l : List FrameTabEntry) :
    ∀ s : State, (findUnaccessedPage cur l s).2.thread = s.thread := by
  induction l with
  | nil => exact fun _ => rfl
  | cons x l ih =>
    intro s
    unfold findUnaccessedPage
    split
    · exact ih _
    · rfl

theorem mappings_victim (s : State) (cur : Pid) : (s.victim cur).2.mappings = s.mappings := by
  have hthread := thread_findUnaccessedPage cur s.frameTable s
  unfold victim
  split <;> next hf =>
    rw [hf] at hthread
    unfold mappings
    rw [hthread]

/-- A new frame may evict a page of any process, whose mappings stay. -/
theorem mappings_vmGetFrame {frame : Option Frame} (h : s.vmGetFrame cur q = some (frame, s')) :
    s'.mappings = s.mappings := by
  unfold vmGetFrame at h
  split at h
  · have hvictim := mappings_victim s cur
    unfold tryEvictFrame at h
    split at h
    · next hv =>
      rw [hv] at hvictim
      obtain ⟨⟨k', s₂⟩, hevict, hs⟩ := Option.map_eq_some_iff.mp h
      rw [← (Prod.mk.inj hs).2]
      exact (mappings_doEvictFrame hevict).trans hvictim
    · next hv =>
      rw [hv] at hvictim
      rw [← (Prod.mk.inj (Option.some.inj h)).2]
      exact hvictim
  · next hget =>
    obtain ⟨j, -, hget⟩ := Option.map_eq_some_iff.mp hget
    rw [← (Prod.mk.inj (Option.some.inj h)).2, ← (Prod.mk.inj hget).2]
    rfl

theorem mappings_vmFreeFrame {frame : Option Frame} (h : s.vmFreeFrame frame = some s') :
    s'.mappings = s.mappings := by
  unfold vmFreeFrame at h
  split at h
  · rw [Option.some.inj h]
  · refine (mappings_pallocFreePage h).trans ?_
    rfl

/-! ## Pages -/

theorem mappings_pageLoadFile (h : s.pageLoadFile cur q = some (b, s')) :
    s'.mappings = s.mappings := by
  unfold pageLoadFile at h
  obtain ⟨⟨frame, s₁⟩, hget, h⟩ := Option.bind_eq_some_iff.mp h
  obtain ⟨k, rfl, hload⟩ := Option.bind_eq_some_iff.mp h
  refine Eq.trans ?_ (mappings_vmGetFrame hget)
  dsimp only at hload
  split at hload
  · obtain ⟨s₂, hback, hload⟩ := Option.bind_eq_some_iff.mp hload
    rw [← (Prod.mk.inj (Option.some.inj hload)).2]
    exact (mappings_vmFreeFrame hback :)
  generalize hfill : (if 0 < (s₁.spte q).zeroBytes then _ else _ : State) = s₂ at hload
  have hsame : s₂.mappings = s₁.mappings := by
    rw [← hfill]
    split <;> rfl
  split at hload
  · next hinstall =>
    obtain ⟨s₄, hback, hload⟩ := Option.bind_eq_some_iff.mp hload
    rw [← (Prod.mk.inj (Option.some.inj hload)).2]
    exact (mappings_vmFreeFrame hback).trans ((mappings_installPage hinstall).trans hsame)
  · next hinstall =>
    rw [← (Prod.mk.inj (Option.some.inj hload)).2]
    exact (mappings_installPage hinstall).trans hsame

theorem mappings_pageLoadSwap (h : s.pageLoadSwap cur q = some (b, s')) :
    s'.mappings = s.mappings := by
  unfold pageLoadSwap at h
  obtain ⟨⟨frame, s₁⟩, hget, h⟩ := Option.bind_eq_some_iff.mp h
  obtain ⟨k, rfl, hload⟩ := Option.bind_eq_some_iff.mp h
  refine Eq.trans ?_ (mappings_vmGetFrame hget)
  dsimp only at hload
  split at hload
  · next hinstall =>
    obtain ⟨s₄, hback, hload⟩ := Option.bind_eq_some_iff.mp hload
    rw [← (Prod.mk.inj (Option.some.inj hload)).2]
    exact ((mappings_vmFreeFrame hback).trans (mappings_installPage hinstall) :)
  · next hinstall =>
    rw [← (Prod.mk.inj (Option.some.inj hload)).2]
    exact (mappings_installPage hinstall :)

theorem mappings_pageLazyLoad {upage : Upage} {readBytes : Nat}
    (h : pageLazyLoad cur file writable type n ofs upage readBytes s = (b, s')) :
    s'.mappings = s.mappings := by
  obtain rfl := congrArg Prod.snd h
  exact funext fun p => map_pageLazyLoad (fun _ _ => rfl) n p ofs upage readBytes s

theorem mappings_stackGrow (h : s.stackGrow cur u = some (b, s')) : s'.mappings = s.mappings := by
  unfold stackGrow at h
  obtain ⟨_, -, h⟩ := Option.bind_eq_some_iff.mp h
  obtain ⟨⟨frame, s₁⟩, hget, h⟩ := Option.bind_eq_some_iff.mp h
  have hget := mappings_vmGetFrame hget
  refine Eq.trans ?_ hget
  cases frame with
  | none =>
    rw [← (Prod.mk.inj (Option.some.inj h)).2]
  | some k =>
    dsimp only at h
    split at h
    · next hinstall =>
      obtain ⟨s₃, hback, h⟩ := Option.bind_eq_some_iff.mp h
      rw [← (Prod.mk.inj (Option.some.inj h)).2]
      exact ((mappings_vmFreeFrame hback).trans (mappings_installPage hinstall) :)
    · next hinstall =>
      split at h
      · rw [← (Prod.mk.inj (Option.some.inj h)).2]
        exact ((mappings_hashInsert ..).trans (mappings_installPage hinstall) :)
      · obtain ⟨s₃, hback, h⟩ := Option.bind_eq_some_iff.mp h
        rw [← (Prod.mk.inj (Option.some.inj h)).2]
        exact ((mappings_vmFreeFrame hback).trans (mappings_installPage hinstall) :)

theorem mappings_orExit (r : Bool × State) : (orExit cur r).mappings = r.2.mappings := by
  obtain ⟨_ | _, s⟩ := r
  · exact mappings_setThread (by exact fun _ => rfl) (by exact fun _ => rfl) s cur
  · rfl

theorem mappings_bringIn {grow : Bool} (h : s.bringIn cur u grow = some s') :
    s'.mappings = s.mappings := by
  unfold bringIn at h
  split at h
  · obtain ⟨⟨b, s₁⟩, hload, rfl⟩ := Option.map_eq_some_iff.mp h
    rw [mappings_orExit]
    split at hload
    · exact mappings_pageLoadSwap hload
    · exact mappings_pageLoadFile hload
  · split at h
    · obtain ⟨⟨b, s₁⟩, hgrow, rfl⟩ := Option.map_eq_some_iff.mp h
      rw [mappings_orExit]
      exact mappings_stackGrow hgrow
    · rw [← Option.some.inj h, mappings_orExit]

theorem mappings_pageFault {faultAddr esp : Nat} (h : s.pageFault cur faultAddr esp = some s') :
    s'.mappings = s.mappings := by
  unfold pageFault at h
  dsimp only at h
  split at h
  · rw [← Option.some.inj h, mappings_orExit]
  · exact mappings_bringIn h

theorem mappings_readBufPageFaultHandler {faultAddr esp : Nat}
    (h : s.readBufPageFaultHandler cur faultAddr esp = some s') : s'.mappings = s.mappings := by
  unfold readBufPageFaultHandler at h
  dsimp only at h
  split at h
  · rw [← Option.some.inj h, mappings_orExit]
  · split at h
    · rw [Option.some.inj h]
    · exact mappings_bringIn h

/-! ## Mappings -/

/-- To unmap a page does not take the mapping off the list. -/
theorem mappings_freeMmapPage (h : s.freeMmapPage cur u = some s') :
    s'.mappings = s.mappings := by
  unfold freeMmapPage at h
  split at h
  · rw [Option.some.inj h]
  obtain ⟨s₁, hwrite, h⟩ := Option.bind_eq_some_iff.mp h
  obtain ⟨s₂, hfree, h⟩ := Option.bind_eq_some_iff.mp h
  rw [← Option.some.inj h, mappings_hashDelete]
  have hwritten : s₁.mappings = s.mappings := by
    unfold writeBack at hwrite
    split at hwrite
    · exact mappings_fileWriteAt hwrite
    · rw [Option.some.inj hwrite]
  refine Eq.trans ?_ hwritten
  unfold freeMmapFrame at hfree
  split at hfree
  · obtain ⟨s₃, hback, rfl⟩ := Option.map_eq_some_iff.mp hfree
    rw [mappings_pagedirClearPage]
    exact mappings_vmFreeFrame hback
  · rw [Option.some.inj hfree]

/-- By induction on the pages that are left. -/
theorem mappings_freeMmapEntry (n : Nat) : ∀ (u : Upage) (s : State),
    freeMmapEntry cur n u s = some s' → s'.mappings = s.mappings := by
  induction n with
  | zero =>
    intro u s h
    rw [Option.some.inj h]
  | succ n ih =>
    intro u s h
    obtain ⟨s₁, hpage, h⟩ := Option.bind_eq_some_iff.mp h
    exact (ih _ s₁ h).trans (mappings_freeMmapPage hpage)

/-- With the same mappings, a process was there before with its list and its number. -/
theorem exists_of_mappings (hsame : s'.mappings = s.mappings) {th' : Thread}
    (hth' : th' ∈ s'.thread p) :
    ∃ th ∈ s.thread p, th.mmapList = th'.mmapList ∧ th.mmapNum = th'.mmapNum := by
  have hmap : (s.thread p).map (fun th => (th.mmapList, th.mmapNum)) =
      (s'.thread p).map fun th => (th.mmapList, th.mmapNum) := (congrFun hsame p).symm
  rw [Option.mem_def.mp hth', Option.map_some] at hmap
  obtain ⟨th, hth, heq⟩ := Option.map_eq_some_iff.mp hmap
  exact ⟨th, hth, Prod.mk.inj heq⟩

/-- What leaves the mappings alone leaves the ids alone. -/
theorem Numbered.of_mappings (h : s.Numbered) (hsame : s'.mappings = s.mappings) :
    s'.Numbered := by
  intro p th' hth'
  obtain ⟨th, hth, hlist, hnum⟩ := exists_of_mappings hsame hth'
  obtain ⟨hbelow, honce⟩ := h p th hth
  rw [hlist, hnum] at hbelow
  rw [hlist] at honce
  exact ⟨hbelow, honce⟩

theorem mem_setThread {f : Thread → Thread} {th' : Thread} :
    th' ∈ (s.setThread cur f).thread cur ↔ ∃ th ∈ s.thread cur, f th = th' := by
  simp only [State.setThread, Function.update_self, Option.mem_def, Option.map_eq_some_iff]

/-- One process is changed, and keeps its mappings under ids of their own. -/
theorem Numbered.setThread {f : Thread → Thread} (h : s.Numbered)
    (hf : ∀ th ∈ s.thread cur, (f th).Numbered) : (s.setThread cur f).Numbered := by
  intro p th hth
  by_cases hp : p = cur
  · subst hp
    obtain ⟨th₁, hth₁, rfl⟩ := mem_setThread.mp hth
    exact hf th₁ hth₁
  · have hth : Function.update s.thread cur ((s.thread cur).map f) p = some th := hth
    rw [Function.update_of_ne hp] at hth
    exact h p th hth

/-- `mmap` gives the new mapping the number that comes next. -/
theorem Numbered.mmap (h : s.Numbered) {addr : Nat} {id : Option Nat}
    (hrun : s.mmap cur file addr = some (id, s')) : s'.Numbered := by
  unfold State.mmap at hrun
  dsimp only at hrun
  split at hrun
  · obtain ⟨-, rfl⟩ := Prod.mk.inj (Option.some.inj hrun)
    exact h
  split at hrun
  · obtain ⟨-, rfl⟩ := Prod.mk.inj (Option.some.inj hrun)
    exact h
  split at hrun
  · cases hrun
  · obtain ⟨-, rfl⟩ := Prod.mk.inj (Option.some.inj hrun)
    exact h
  generalize hcount : (s.setThread cur fun t => { t with mmapNum := t.mmapNum + 1 }) = s₁ at hrun
  have hnext : s₁.Numbered := by
    rw [← hcount]
    refine h.setThread fun th hth => ⟨fun e he => ?_, (h cur th hth).once⟩
    exact Nat.lt_succ_of_lt ((h cur th hth).below e he)
  split at hrun
  · next hload =>
    obtain ⟨-, rfl⟩ := Prod.mk.inj (Option.some.inj hrun)
    exact hnext.of_mappings (mappings_pageLazyLoad hload)
  · next s₂ hload =>
    obtain ⟨-, rfl⟩ := Prod.mk.inj (Option.some.inj hrun)
    have hsame := mappings_pageLazyLoad hload
    have h₂ := hnext.of_mappings hsame
    refine h₂.setThread fun th₂ hth₂ => ?_
    obtain ⟨th₁, hth₁, hlist, hnum⟩ := exists_of_mappings hsame hth₂
    rw [← hcount] at hth₁
    obtain ⟨th, hth, rfl⟩ := mem_setThread.mp hth₁
    rw [hth, Option.map_some, Option.getD_some]
    refine (h₂ cur th₂ hth₂).add (hnum ▸ Nat.lt_succ_self _) (fun e he => ?_) _ _ _
    rw [← hlist] at he
    exact Nat.ne_of_lt ((h cur th hth).below e he)

/-- `munmap` takes a mapping out. -/
theorem Numbered.munmap (h : s.Numbered) {mapping : Nat} (hrun : s.munmap cur mapping = some s') :
    s'.Numbered := by
  unfold State.munmap at hrun
  split at hrun
  · rwa [← Option.some.inj hrun]
  obtain ⟨s₁, hfree, rfl⟩ := Option.map_eq_some_iff.mp hrun
  have h₁ := h.of_mappings (mappings_freeMmapEntry _ _ _ hfree)
  refine h₁.setThread fun th hth => ?_
  obtain ⟨hbelow, honce⟩ := h₁ cur th hth
  exact ⟨fun e he => hbelow e (List.mem_of_mem_eraseP he),
    honce.sublist (List.eraseP_sublist.map _)⟩

/-- By induction on the list, one `munmap` at a time. -/
theorem Numbered.freeMmapList (l : List MmapEntry) :
    ∀ {s : State}, s.Numbered → State.freeMmapList cur l s = some s' → s'.Numbered := by
  induction l with
  | nil =>
    intro s h hrun
    rwa [← Option.some.inj hrun]
  | cons e l ih =>
    intro s h hrun
    obtain ⟨s₁, hunmap, hrun⟩ := Option.bind_eq_some_iff.mp hrun
    exact ih (h.munmap hunmap) hrun

/-! ## Processes -/

theorem Numbered.processExit (h : s.Numbered) (hrun : s.processExit cur = some s') :
    s'.Numbered := by
  unfold State.processExit at hrun
  obtain ⟨t, ht, hrun⟩ := Option.bind_eq_some_iff.mp hrun
  obtain ⟨s₁, hfree, hrun⟩ := Option.bind_eq_some_iff.mp hrun
  dsimp only at hrun
  obtain ⟨t₁, ht₁, hrun⟩ := Option.bind_eq_some_iff.mp hrun
  obtain ⟨s₂, hdestroy, hrun⟩ := Option.bind_eq_some_iff.mp hrun
  have hallowed : (s.allowWrite cur).Numbered := by
    refine h.of_mappings ?_
    unfold allowWrite
    split <;> rfl
  have hcleared := (hallowed.freeMmapList _ hfree).of_mappings
    (mappings_setThread (f := fun t => { t with supplPageTable := ∅ }) (fun _ => rfl)
      (fun _ => rfl) s₁ cur)
  have hthread := (pagedirDestroy_some _ _ hdestroy).1
  rw [← Option.some.inj hrun]
  intro p th hth
  by_cases hp : p = cur
  · subst hp
    have hth : Function.update s₂.thread p none p = some th := hth
    rw [Function.update_self] at hth
    cases hth
  · have hth : Function.update s₂.thread cur none p = some th := hth
    rw [Function.update_of_ne hp, hthread] at hth
    exact hcleared p th hth

theorem mappings_loadSegments (cur : Pid) (file : FileId) (l : List Phdr) : ∀ s : State,
    (loadSegments cur file l s).2.mappings = s.mappings := by
  induction l with
  | nil => exact fun _ => rfl
  | cons x l ih =>
    intro s
    unfold loadSegments
    split
    · split
      · next hload => exact mappings_pageLazyLoad hload
      · next hload => exact (ih _).trans (mappings_pageLazyLoad hload)
    · rfl

theorem mappings_load {phdrs : List Phdr} (h : s.load cur file phdrs = some (b, s')) :
    s'.mappings = s.mappings := by
  have hsame := mappings_loadSegments cur file phdrs s
  unfold load at h
  split at h
  · next hload =>
    rw [hload] at hsame
    rwa [← (Prod.mk.inj (Option.some.inj h)).2]
  · next hload =>
    rw [hload] at hsame
    obtain ⟨⟨success, s₂⟩, hgrow, h⟩ := Option.bind_eq_some_iff.mp h
    obtain ⟨-, -, h⟩ := Option.bind_eq_some_iff.mp h
    rw [← (Prod.mk.inj (Option.some.inj h)).2]
    refine (mappings_setThread (f := fun t => { t with runningFile := some file }) (fun _ => rfl)
      (fun _ => rfl) s₂ cur).trans ?_
    exact (mappings_stackGrow hgrow).trans hsame

/-- A new process has no mappings. -/
theorem Numbered.startProcess {phdrs : List Phdr} (h : s.Numbered)
    (hrun : s.startProcess cur file phdrs = some s') : s'.Numbered := by
  unfold State.startProcess at hrun
  obtain ⟨-, -, hrun⟩ := Option.bind_eq_some_iff.mp hrun
  obtain ⟨⟨success, s₂⟩, hload, rfl⟩ := Option.map_eq_some_iff.mp hrun
  have hnew : State.Numbered { s with thread := Function.update s.thread cur (some {}) } := by
    intro p th hth
    by_cases hp : p = cur
    · subst hp
      have hth : Function.update s.thread p (some {}) p = some th := hth
      rw [Function.update_self] at hth
      obtain rfl := Option.some.inj hth
      exact ⟨nofun, List.nodup_nil⟩
    · have hth : Function.update s.thread cur (some {}) p = some th := hth
      rw [Function.update_of_ne hp] at hth
      exact h p th hth
  exact hnew.of_mappings ((mappings_orExit _).trans (mappings_load hload))

end State

/-! ## Runs -/

/-- Only `mmap` and `munmap` assign `mmap_list`. -/
theorem State.Numbered.step {a : Action} (h : s.Numbered) (hs : a.step s = some s') :
    s'.Numbered := by
  cases a with
  | start p file phdrs => exact h.startProcess hs
  | exit p => exact h.processExit hs
  | tick =>
    rw [← Option.some.inj hs]
    exact h
  | write file content length =>
    obtain ⟨-, -, hs⟩ := Option.bind_eq_some_iff.mp hs
    rw [← Option.some.inj hs]
    exact h
  | load p u =>
    obtain ⟨-, -, hs⟩ := Option.bind_eq_some_iff.mp hs
    unfold State.userLoad at hs
    split at hs
    · rw [← Option.some.inj hs]
      exact h.of_mappings (State.mappings_setPte s p u _)
    · cases hs
  | store p u ofs byte =>
    obtain ⟨-, -, hs⟩ := Option.bind_eq_some_iff.mp hs
    unfold State.userStore at hs
    split at hs
    · rw [← Option.some.inj hs]
      exact h.of_mappings (State.mappings_setPte s p u _)
    · cases hs
  | fault p faultAddr esp =>
    obtain ⟨-, -, hs⟩ := Option.bind_eq_some_iff.mp hs
    exact h.of_mappings (State.mappings_pageFault hs)
  | readFault p faultAddr esp =>
    obtain ⟨-, -, hs⟩ := Option.bind_eq_some_iff.mp hs
    exact h.of_mappings (State.mappings_readBufPageFaultHandler hs)
  | mmap p file addr =>
    obtain ⟨-, -, hs⟩ := Option.bind_eq_some_iff.mp hs
    obtain ⟨⟨id, s₁⟩, hrun, hs⟩ := Option.bind_eq_some_iff.mp hs
    rw [← Option.some.inj hs]
    exact h.mmap hrun
  | munmap p mapping =>
    obtain ⟨-, -, hs⟩ := Option.bind_eq_some_iff.mp hs
    exact h.munmap hs

/-- In every run a process has each mapping under an id of its own, and none under the next one. -/
theorem Reachable.numbered (h : Reachable P s) : s.Numbered := by
  induction h with
  | init hboot =>
    obtain ⟨⟩ := hboot
    exact fun _ _ => nofun
  | step a _ _ hs ih => exact ih.step hs

end Pintos.Vm
