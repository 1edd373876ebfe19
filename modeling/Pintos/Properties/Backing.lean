import Pintos.Properties.FaultPaths
import Pintos.Properties.LazyLoading

/-!
# Pages can be read again

A page of a file that is in a frame could be read whole when it was loaded. Files do not get shorter,
so it can be read whole again after it was evicted.
-/

namespace Pintos.Vm

open Pintos.Logic Placement

variable {s s' s'' : State} {cur p : Pid} {u : Upage} {q : SptePtr} {k : Frame} {file : FileId}

namespace State

/-- Each page that is in a frame can be read whole. -/
def Backed (s : State) : Prop := ∀ f ∈ s.frameTable, f.spte < s.nextSpte ∧ s.Whole f.spte

/-! ## What puts no page into a frame -/

/-- There is no new frame, and what was whole still is. -/
structure Fewer (s s' : State) : Prop where
  nextSpte : s.nextSpte ≤ s'.nextSpte
  table : ∀ f ∈ s'.frameTable, f ∈ s.frameTable
  whole : ∀ q < s.nextSpte, s.Whole q → s'.Whole q

theorem Fewer.refl : Fewer s s := ⟨Nat.le_refl _, fun _ h => h, fun _ _ h => h⟩

theorem Fewer.trans (h : Fewer s s') (h' : Fewer s' s'') : Fewer s s'' :=
  ⟨Nat.le_trans h.nextSpte h'.nextSpte, fun f hf => h.table f (h'.table f hf),
    fun q hq hw => h'.whole q (Nat.lt_of_lt_of_le hq h.nextSpte) (h.whole q hq hw)⟩

theorem Backed.fewer (hb : s.Backed) (h : Fewer s s') : s'.Backed := fun f hf => by
  obtain ⟨hlt, hw⟩ := hb f (h.table f hf)
  exact ⟨Nat.lt_of_lt_of_le hlt h.nextSpte, h.whole _ hlt hw⟩

/-- The state of a thread, the memory and the bitmaps do not matter. -/
theorem fewer_of_eq (hspte : s'.spte = s.spte) (hnext : s'.nextSpte = s.nextSpte)
    (htable : ∀ f ∈ s'.frameTable, f ∈ s.frameTable) (hfile : s'.file = s.file) : Fewer s s' := by
  refine ⟨Nat.le_of_eq hnext.symm, htable, fun q _ hw => ?_⟩
  rw [Whole, hspte, hfile]
  exact hw

theorem fewer_setThread {f : Thread → Thread} : Fewer s (s.setThread p f) :=
  fewer_of_eq rfl rfl (fun _ h => h) rfl

theorem fewer_setMemory {b : Page} : Fewer s (s.setMemory k b) :=
  fewer_of_eq rfl rfl (fun _ h => h) rfl

theorem fewer_setFile {i : FileId} {f : FileData → FileData}
    (hf : (s.file i).length ≤ (f (s.file i)).length) : Fewer s (s.setFile i f) :=
  ⟨Nat.le_refl _, fun _ h => h, fun _ _ => whole_setFile hf⟩

theorem fewer_orExit (r : Bool × State) : Fewer r.2 (orExit p r) := by
  obtain ⟨_ | _, s⟩ := r
  · exact fewer_setThread
  · exact Fewer.refl

theorem fewer_pagedirClearPage : Fewer s (s.pagedirClearPage p u) := by
  unfold pagedirClearPage
  split
  · exact fewer_setThread
  · exact Fewer.refl

theorem fewer_pallocFreePage (h : s.pallocFreePage k = some s') : Fewer s s' := by
  unfold pallocFreePage at h
  split at h
  · rw [← Option.some.inj h]
    exact fewer_of_eq rfl rfl (fun _ h => h) rfl
  · cases h

theorem fewer_vmFreeFrame {frame : Option Frame} (h : s.vmFreeFrame frame = some s') :
    Fewer s s' := by
  unfold vmFreeFrame at h
  split at h
  · rw [← Option.some.inj h]
    exact Fewer.refl
  · next f hf =>
    have herase : Fewer s { s with frameTable := s.frameTable.erase f } :=
      fewer_of_eq rfl rfl (fun _ => List.mem_of_mem_erase) rfl
    exact herase.trans (fewer_pallocFreePage h)

theorem fewer_fileWriteAt {size ofs : Nat} (h : s.fileWriteAt p file u size ofs = some s') :
    Fewer s s' := by
  have hp := fileWriteAt_some h
  have htable : s'.frameTable = s.frameTable := congrArg (·.frameTable) hp
  have hleaves : Leaves s.frameTable 0 s s' := leaves_fileWriteAt h
  exact ⟨Nat.le_of_eq (congrArg (·.nextSpte) hp).symm, fun _ hf => htable ▸ hf,
    fun q _ => hleaves.whole q⟩

/-- A new entry has no frame yet. -/
theorem fewer_malloc (f : SupplPageTableEntry → SupplPageTableEntry) :
    Fewer s ({ s.setSpte s.nextSpte f with nextSpte := s.nextSpte + 1 } : State) := by
  refine ⟨Nat.le_succ _, fun _ h => h, fun q hq hw => ?_⟩
  simp only [Whole, setSpte, Function.update_of_ne (Nat.ne_of_lt hq)]
  exact hw

theorem fewer_pageLazyLoad {w : Bool} {type : PageType} (n : Nat) :
    ∀ (ofs : Nat) (upage : Upage) (readBytes : Nat) (s : State),
      Fewer s (pageLazyLoad cur file w type n ofs upage readBytes s).2 := by
  induction n with
  | zero => exact fun _ _ _ _ => Fewer.refl
  | succ n ih =>
    intro ofs upage readBytes s
    unfold pageLazyLoad
    dsimp only
    split
    · exact fewer_malloc _
    · exact (fewer_malloc _).trans (fewer_setThread.trans (ih _ _ _ _))

theorem fewer_lazyLoad {w b : Bool} {type : PageType} {n ofs readBytes : Nat}
    (h : pageLazyLoad cur file w type n ofs u readBytes s = (b, s')) : Fewer s s' := by
  have hfew : Fewer s (pageLazyLoad cur file w type n ofs u readBytes s).2 :=
    fewer_pageLazyLoad n ofs u readBytes s
  rwa [h] at hfew

theorem fewer_freeMmapPage (h : s.freeMmapPage cur u = some s') : Fewer s s' := by
  unfold freeMmapPage at h
  split at h
  · rw [← Option.some.inj h]
    exact Fewer.refl
  next q hl =>
  obtain ⟨s₁, hwrite, h⟩ := Option.bind_eq_some_iff.mp h
  obtain ⟨s₂, hback, h⟩ := Option.bind_eq_some_iff.mp h
  have hwrite' : Fewer s s₁ := by
    unfold writeBack at hwrite
    split at hwrite
    · exact fewer_fileWriteAt hwrite
    · rw [← Option.some.inj hwrite]
      exact Fewer.refl
  have hback' : Fewer s₁ s₂ := by
    unfold freeMmapFrame at hback
    split at hback
    · obtain ⟨s₃, hgive, rfl⟩ := Option.map_eq_some_iff.mp hback
      exact (fewer_vmFreeFrame hgive).trans fewer_pagedirClearPage
    · rw [← Option.some.inj hback]
      exact Fewer.refl
  rw [← Option.some.inj h]
  exact (hwrite'.trans hback').trans fewer_setThread

theorem fewer_freeMmapEntry (n : Nat) :
    ∀ (u : Upage) (s : State), freeMmapEntry cur n u s = some s' → Fewer s s' := by
  induction n with
  | zero =>
    intro u s h
    rw [← Option.some.inj h]
    exact Fewer.refl
  | succ n ih =>
    intro u s h
    obtain ⟨s₁, hpage, h⟩ := Option.bind_eq_some_iff.mp h
    exact (fewer_freeMmapPage hpage).trans (ih _ _ h)

theorem fewer_munmap {id : Nat} (h : s.munmap cur id = some s') : Fewer s s' := by
  unfold munmap at h
  split at h
  · rw [← Option.some.inj h]
    exact Fewer.refl
  · obtain ⟨s₁, hfree, rfl⟩ := Option.map_eq_some_iff.mp h
    exact (fewer_freeMmapEntry _ _ _ hfree).trans fewer_setThread

theorem fewer_freeMmapList (l : List MmapEntry) :
    ∀ s : State, freeMmapList cur l s = some s' → Fewer s s' := by
  induction l with
  | nil =>
    intro s h
    rw [← Option.some.inj h]
    exact Fewer.refl
  | cons e l ih =>
    intro s h
    obtain ⟨s₁, hunmap, h⟩ := Option.bind_eq_some_iff.mp h
    exact (fewer_munmap hunmap).trans (ih _ h)

theorem fewer_pagedirDestroy (l : List (Sigma fun _ : Upage => Pte)) :
    ∀ s : State, pagedirDestroy l s = some s' → Fewer s s' := by
  induction l with
  | nil =>
    intro s h
    rw [← Option.some.inj h]
    exact Fewer.refl
  | cons v l ih =>
    intro s h
    unfold pagedirDestroy at h
    split at h
    · obtain ⟨s₁, hfree, h⟩ := Option.bind_eq_some_iff.mp h
      exact (fewer_pallocFreePage hfree).trans (ih _ h)
    · exact ih _ h

theorem fewer_processExit (h : s.processExit cur = some s') : Fewer s s' := by
  unfold processExit at h
  obtain ⟨t, -, h⟩ := Option.bind_eq_some_iff.mp h
  obtain ⟨s₁, hfree, h⟩ := Option.bind_eq_some_iff.mp h
  dsimp only at h
  obtain ⟨t₁, -, h⟩ := Option.bind_eq_some_iff.mp h
  obtain ⟨s₂, hdestroy, h⟩ := Option.bind_eq_some_iff.mp h
  have hallow : Fewer s (s.allowWrite cur) := by
    unfold allowWrite
    split
    · exact Fewer.refl
    · exact fewer_setFile (Nat.le_refl _)
  have htables : Fewer s₁ ((s₁.setThread cur fun t => { t with supplPageTable := ∅ }
      ).vmClearProcessFrameTable cur) :=
    fewer_of_eq rfl rfl (fun _ => List.mem_of_mem_filter) rfl
  have hgone : Fewer s₂ s' := by
    rw [← Option.some.inj h]
    exact fewer_of_eq rfl rfl (fun _ h => h) rfl
  exact (hallow.trans (fewer_freeMmapList _ _ hfree)).trans
    ((htables.trans (fewer_pagedirDestroy _ _ hdestroy)).trans hgone)

/-! ## What puts a page into a frame -/

/-- The page `u` of `cur` with the entry `q` has got the frame `k`, which had been taken for it. -/
structure Installs (s s' : State) (cur : Pid) (u : Upage) (q : SptePtr) (k : Frame) : Prop where
  frameTable : s'.frameTable = s.frameTable
  nextSpte : s'.nextSpte = s.nextSpte
  ticks : s'.ticks = s.ticks
  runs : s'.runs = s.runs
  pool : s'.poolSize = s.poolSize ∧ s'.usedMap = s.usedMap
  whole : ∀ r, r ≠ q → (s'.Whole r ↔ s.Whole r)
  self : s'.Whole q
  lookup : s'.lookup = setPage s.lookup cur u (some q)
  frame : s'.pagedirGetPage = setPage s.pagedirGetPage cur u (some k)

theorem runs_pagedirSetPage {w : Bool} : (s.pagedirSetPage p u k w).runs = s.runs :=
  runs_setThread fun _ => rfl

theorem runs_hashInsert : (s.hashInsert p u q).runs = s.runs := runs_setThread fun _ => rfl

theorem tables_pagedirSetPage {w : Bool} (hlive : s.placement.live p = true) :
    (s.pagedirSetPage p u k w).lookup = s.lookup ∧
      (s.pagedirSetPage p u k w).pagedirGetPage = setPage s.pagedirGetPage p u (some k) := by
  have hp := placement_setPte (u := u) hlive { frame := k, present := true, writable := w }
  exact ⟨congrArg (·.lookup) hp, congrArg (·.frame) hp⟩

theorem whole_setSpte_of_ne {r : SptePtr} (f : SupplPageTableEntry → SupplPageTableEntry)
    (h : r ≠ q) : (s.setSpte q f).Whole r ↔ s.Whole r := by
  simp only [Whole, setSpte, Function.update_of_ne h]

/-- The end of both functions that load a page. -/
theorem installs_load {w : Bool} (hlive : s.placement.live cur = true)
    (hl : s.lookup cur u = some q) (hw : s.Whole q) (b : Page) (map : Nat → Bool) :
    Installs s ((({ s.setMemory k b with swapBitmap := map } : State).pagedirSetPage cur u k w
      ).setSpte q fun e => { e with free := false }) cur u q k := by
  generalize hs₁ : ({ s.setMemory k b with swapBitmap := map } : State) = s₁
  have hlive₁ : s₁.placement.live = s.placement.live := by rw [← hs₁]; rfl
  have hlookup₁ : s₁.lookup = s.lookup := by rw [← hs₁]; rfl
  have hframe₁ : s₁.pagedirGetPage = s.pagedirGetPage := by rw [← hs₁]; rfl
  have hruns₁ : s₁.runs = s.runs := by rw [← hs₁]; rfl
  have hwhole₁ : ∀ r, s₁.Whole r ↔ s.Whole r := by rw [← hs₁]; exact fun _ => Iff.rfl
  obtain ⟨hlookup, hframe⟩ := tables_pagedirSetPage (s := s₁) (u := u) (k := k) (w := w)
    (hlive₁ ▸ hlive)
  refine ⟨by rw [← hs₁]; rfl, by rw [← hs₁]; rfl, by rw [← hs₁]; rfl, ?_, by rw [← hs₁]; exact ⟨rfl, rfl⟩,
    fun r hr => ?_, ?_, ?_, ?_⟩
  · exact (runs_pagedirSetPage (s := s₁)).trans hruns₁
  · exact (whole_setSpte_of_ne _ hr).trans (hwhole₁ r)
  · exact whole_setSpte (s := s₁.pagedirSetPage cur u k w) (fun _ => ⟨rfl, rfl, rfl, .inl rfl⟩)
      ((hwhole₁ q).mpr hw)
  · exact (hlookup.trans hlookup₁).trans (setPage_eq_self hl).symm
  · exact hframe.trans (by rw [hframe₁])

/-- The end of `stack_grow`. -/
theorem installs_stackGrow {f : SupplPageTableEntry → SupplPageTableEntry}
    (hf : ∀ e, (f e).type = .swap) (hlive : s.placement.live cur = true) :
    Installs s (((s.setSpte q f).pagedirSetPage cur u k true).hashInsert cur u q) cur u q k := by
  obtain ⟨hlookup, hframe⟩ := tables_pagedirSetPage (s := s.setSpte q f) (u := u) (k := k)
    (w := true) hlive
  have hlive' : ((s.setSpte q f).pagedirSetPage cur u k true).placement.live cur = true :=
    (congrFun (congrArg (·.live) (placement_setPte (s := s.setSpte q f) hlive _)) cur).trans hlive
  have hp := placement_hashInsert (u := u) (q := q) hlive'
  refine ⟨rfl, rfl, rfl, ?_, ⟨rfl, rfl⟩, fun r hr => ?_, .inl ?_, ?_, ?_⟩
  · exact runs_hashInsert.trans (runs_pagedirSetPage (s := s.setSpte q f))
  · exact whole_setSpte_of_ne f hr
  · exact (congrArg SupplPageTableEntry.type (Function.update_self ..)).trans (hf _)
  · exact (congrArg (·.lookup) hp).trans (congrArg (fun l => setPage l cur u (some q)) hlookup)
  · exact (congrArg (·.frame) hp).trans hframe

/-! ## Loads -/

/-- `page_load_file` for a page that cannot be read whole. -/
theorem pageLoadFile_short
    (hshort : (s'.file (s'.spte q).file).left (s'.spte q).readBytes (s'.spte q).offset ≠
      (s'.spte q).readBytes) (hget : s.vmGetFrame cur q = some (some k, s')) :
    s.pageLoadFile cur q = ((s'.fileReadAt (s'.spte q).file k (s'.spte q).readBytes
      (s'.spte q).offset).2.vmFreeFrame (some k)).map fun s => (false, s) := by
  simp only [pageLoadFile, hget, Option.bind_eq_bind, Option.bind_some, fileReadAt, ne_eq, hshort,
    not_false_eq_true, if_true, Option.pure_def]
  exact Option.map_eq_bind.symm

theorem pageLoadSwap_eq (hk : s'.pagedirGetPage cur (s'.spte q).addr = none)
    (hget : s.vmGetFrame cur q = some (some k, s')) :
    s.pageLoadSwap cur q = some (true, ((s'.swapIn k (s'.spte q).swapIdx).pagedirSetPage cur
      (s'.spte q).addr k (s'.spte q).writable).setSpte q fun e => { e with free := false }) := by
  have hk' : (s'.swapIn k (s'.spte q).swapIdx).pagedirGetPage cur (s'.spte q).addr = none := hk
  simp only [pageLoadSwap, hget, Option.bind_eq_bind, Option.bind_some, installPage, hk',
    Option.pure_def]

theorem stackGrow_eq (hk : s'.pagedirGetPage cur u = none) (hl : s'.lookup cur u = none)
    (hlive : s'.placement.live cur = true) (hfree : s.evicted cur = none)
    (hget : { s with nextSpte := s.nextSpte + 1 }.vmGetFrame cur s.nextSpte =
      some (some k, s')) :
    s.stackGrow cur u = some (true, ((s'.setSpte s.nextSpte fun e => { e with
      free := false
      writable := true
      addr := u
      type := .swap
      timestamp := s'.ticks }).pagedirSetPage cur u k true).hashInsert cur u s.nextSpte) := by
  generalize hs₁ : s'.setSpte s.nextSpte _ = s₁
  have hk₁ : s₁.pagedirGetPage cur u = none := by rw [← hs₁]; exact hk
  have hlive₁ : s₁.placement.live cur = true := by rw [← hs₁]; exact hlive
  have hl₁ : (s₁.pagedirSetPage cur u k true).lookup cur u = none := by
    rw [(tables_pagedirSetPage hlive₁).1, ← hs₁]
    exact hl
  simp only [stackGrow, hfree, Option.isNone_none, guard, if_true, hget, Option.pure_def, Option.bind_eq_bind,
    Option.bind_some, hs₁, installPage, hk₁, hl₁]

/-! ## Faults -/

/-- The entry of a page that is in no frame is as whole after `vm_get_frame` as before. -/
theorem Leaves.whole_iff {table : List FrameTabEntry} (h : Leaves table k s s')
    (hq : ∀ f ∈ table, f.spte ≠ q) : s'.Whole q ↔ s.Whole q := by
  rw [Whole, Whole, h.spte q hq, FileData.left, FileData.left, h.length]

theorem mem_vmGetFrame {f : FrameTabEntry} (h : s.vmGetFrame cur q = some (some k, s'))
    (hf : f ∈ s'.frameTable) : f ∈ s.frameTable ∨ f = ⟨k, q, cur⟩ := by
  have hevict : ∀ g : FrameTabEntry, f ∈ s.frameTable.erase g ++ [⟨k, q, cur⟩] →
      f ∈ s.frameTable ∨ f = ⟨k, q, cur⟩ := fun g hf =>
    (List.mem_append.mp hf).imp List.mem_of_mem_erase List.mem_singleton.mp
  have htable : ∀ v, s'.placement = v → f ∈ v.frameTable := fun v hv => hv ▸ hf
  rcases vmGetFrame_some h with ⟨-, hp⟩ | ⟨g, -, rfl, ⟨-, hp⟩ | ⟨i, -, -, hp⟩⟩
  · exact (List.mem_cons.mp (htable _ hp)).symm
  · exact hevict g (htable _ hp)
  · exact hevict g (htable _ hp)

theorem nextSpte_vmGetFrame (h : s.vmGetFrame cur q = some (some k, s')) :
    s'.nextSpte = s.nextSpte := by
  rcases vmGetFrame_some h with ⟨-, hp⟩ | ⟨g, -, rfl, ⟨-, hp⟩ | ⟨i, -, -, hp⟩⟩
  all_goals exact congrArg (·.nextSpte) hp

/-- The free frame `k` has been taken, and nothing was evicted. -/
structure TakesFree (s s' : State) (k : Frame) : Prop where
  spte : s'.spte = s.spte
  thread : s'.thread = s.thread
  memory : s'.memory = s.memory
  file : s'.file = s.file
  swap : s'.swap = s.swap
  poolSize : s'.poolSize = s.poolSize
  free : k < s.poolSize ∧ s.usedMap k = false
  usedMap : s'.usedMap = Function.update s.usedMap k true

theorem TakesFree.frame (h : TakesFree s s' k) : s'.pagedirGetPage = s.pagedirGetPage := by
  funext p u
  have hpte : s'.pte p u = s.pte p u := by simp only [pte, h.thread]
  rw [pagedirGetPage, hpte, pagedirGetPage]

theorem TakesFree.live (h : TakesFree s s' k) : s'.placement.live = s.placement.live := by
  funext p
  simp only [placement, h.thread]

/-- The handlers can bring in a page that has an entry and can be read whole, and one that has none
if the stack may grow and there is a frame. -/
def Brings (s : State) (cur : Pid) (u : Upage) (grow : Bool) : Prop :=
  match s.lookup cur u with
  | some q => s.Whole q
  | none => grow = true ∧ ¬s.NoFrame cur

theorem brings_some {grow : Bool} {q : SptePtr} (hl : s.lookup cur u = some q) :
    s.Brings cur u grow ↔ s.Whole q := by
  unfold Brings
  rw [hl]

theorem brings_none {grow : Bool} (hl : s.lookup cur u = none) :
    s.Brings cur u grow ↔ grow = true ∧ ¬s.NoFrame cur := by
  unfold Brings
  rw [hl]

/-- A page has been brought in, with its entry `q` and the frame `k`. -/
structure Brought (s s' : State) (cur : Pid) (u : Upage) (q : SptePtr) (k : Frame) : Prop where
  -- `s₁` is the state in which the frame was taken.
  installs : ∃ n s₁, s.nextSpte ≤ n ∧ q < n ∧
    { s with nextSpte := n }.vmGetFrame cur q = some (some k, s₁) ∧ Installs s₁ s' cur u q k
  lookup : s.lookup cur u = some q ∨ s.lookup cur u = none
  fresh : ∀ f ∈ s.frameTable, f.spte ≠ q

/-- Nothing has been brought in. -/
structure Refused (s t : State) : Prop where
  backed : s.Backed → t.Backed
  lookup : t.lookup = s.lookup
  frame : ∀ p u, s.pagedirGetPage p u = none → t.pagedirGetPage p u = none

theorem Refused.refl : Refused s s := ⟨id, rfl, fun _ _ => id⟩

/-- A file page is brought in, or nothing is. -/
theorem pageLoadFile_cases {b : Bool} (hsound : s.placement.Sound none)
    (hl : s.lookup cur u = some q) (hk : s.pagedirGetPage cur u = none)
    (ht : (s.spte q).type ≠ .swap) (h : s.pageLoadFile cur q = some (b, s')) :
    (s.Whole q ∧ b = true ∧ ∃ k, Brought s s' cur u q k) ∨
      (¬s.Whole q ∧ b = false ∧ Refused s s') := by
  obtain ⟨k, s₁, hget, -⟩ := pageLoadFile_some h
  have hgets := Placement.Kept.gets stable_true ⟨hsound, trivial⟩ hget
  have hleaves := leaves_vmGetFrame hget
  have hfresh := not_mem_table hsound hl hk
  have hwhole := hleaves.whole_iff hfresh
  have hspte := hleaves.spte q hfresh
  have haddr : (s₁.spte q).addr = u := by
    rw [hspte]
    exact (hsound.addr cur u q hl).1
  have hlive : s₁.placement.live cur = true := (congrFun hgets.live cur).trans (live_of_lookup hl)
  by_cases hleft : (s₁.file (s₁.spte q).file).left (s₁.spte q).readBytes (s₁.spte q).offset =
      (s₁.spte q).readBytes
  · have hw : s₁.Whole q := .inr hleft
    have heq := pageLoadFile_eq (haddr ▸ hgets.frame cur u hk) hleft hget
    rw [h, haddr] at heq
    obtain ⟨rfl, rfl⟩ := Prod.mk.inj (Option.some.inj heq)
    exact .inl ⟨hwhole.mp hw, rfl, k, ⟨s.nextSpte, s₁, Nat.le_refl _, (hsound.addr cur u q hl).2, hget,
      installs_load hlive ((congrFun₂ hgets.lookup cur u).trans hl) hw _ s₁.swapBitmap⟩, .inl hl,
      hfresh⟩
  · have hw : ¬s₁.Whole q := fun hc => hc.elim (fun hc => ht (hspte ▸ hc)) hleft
    have heq := pageLoadFile_short hleft hget
    rw [h] at heq
    obtain ⟨s₂, hback, hs⟩ := Option.map_eq_some_iff.mp heq.symm
    obtain ⟨rfl, rfl⟩ := Prod.mk.inj hs
    have hnew := hgets.sound.mem _ rfl
    rcases vmFreeFrame_some hback with ⟨-, hnone⟩ | ⟨g, hg, rfl, hp⟩
    · exact absurd rfl (hnone _ hnew)
    have hlookup : s₂.lookup = s.lookup := (congrArg (·.lookup) hp).trans hgets.lookup
    have hframe : s₂.pagedirGetPage = s₁.pagedirGetPage := congrArg (·.frame) hp
    refine .inr ⟨fun hc => hw (hwhole.mpr hc), rfl, fun hb f hf => ?_, hlookup, fun p v hv => ?_⟩
    swap
    · rw [hframe]
      exact hgets.frame p v hv
    -- The entry that is not whole has left the frame table.
    have hmem : f ∈ s₁.frameTable ∧ f ≠ ⟨g.frame, q, cur⟩ := by
      have hg : g = ⟨g.frame, q, cur⟩ := hgets.sound.eq_of_frame hg hnew rfl
      have htable : s₂.frameTable = s₁.frameTable.erase g := congrArg (·.frameTable) hp
      obtain ⟨hf, hframe⟩ := hgets.sound.mem_erase (g := f) (htable ▸ hf) (hg ▸ hnew)
      exact ⟨hf, fun hc => hframe (congrArg FrameTabEntry.frame (hc.trans hg.symm))⟩
    obtain ⟨hlt, hfw⟩ := hb f ((mem_vmGetFrame hget hmem.1).resolve_right hmem.2)
    have hlt₁ : f.spte < s₁.nextSpte := nextSpte_vmGetFrame hget ▸ hlt
    have hfew := (fewer_setMemory (s := s₁)).trans (fewer_vmFreeFrame hback)
    exact ⟨Nat.lt_of_lt_of_le hlt₁ hfew.nextSpte, hfew.whole _ hlt₁ (hleaves.whole _ hfw)⟩

/-- A page of the swap block is brought in. -/
theorem pageLoadSwap_cases {b : Bool} (hsound : s.placement.Sound none)
    (hl : s.lookup cur u = some q) (hk : s.pagedirGetPage cur u = none)
    (ht : (s.spte q).type = .swap) (h : s.pageLoadSwap cur q = some (b, s')) :
    b = true ∧ ∃ k, Brought s s' cur u q k := by
  obtain ⟨k, s₁, hget, -⟩ := pageLoadSwap_some h
  have hgets := Placement.Kept.gets stable_true ⟨hsound, trivial⟩ hget
  have hfresh := not_mem_table hsound hl hk
  have hspte := (leaves_vmGetFrame hget).spte q hfresh
  have haddr : (s₁.spte q).addr = u := by
    rw [hspte]
    exact (hsound.addr cur u q hl).1
  have hlive : s₁.placement.live cur = true := (congrFun hgets.live cur).trans (live_of_lookup hl)
  have heq := pageLoadSwap_eq (haddr ▸ hgets.frame cur u hk) hget
  rw [h, haddr] at heq
  obtain ⟨rfl, rfl⟩ := Prod.mk.inj (Option.some.inj heq)
  exact ⟨rfl, k, ⟨s.nextSpte, s₁, Nat.le_refl _, (hsound.addr cur u q hl).2, hget,
    installs_load hlive ((congrFun₂ hgets.lookup cur u).trans hl) (.inl (hspte ▸ ht)) _ _⟩, .inl hl,
    hfresh⟩

/-- A page is made, or there is no frame for it. -/
theorem stackGrow_brought {b : Bool} (hsound : s.placement.Sound none)
    (hlive : s.placement.live cur = true) (hl : s.lookup cur u = none)
    (h : s.stackGrow cur u = some (b, s')) :
    (¬s.NoFrame cur ∧ b = true ∧ ∃ k, Brought s s' cur u s.nextSpte k) ∨
      (s.NoFrame cur ∧ b = false ∧ Refused s s') := by
  have hk : s.pagedirGetPage cur u = none := hsound.frame_eq_none hl
  have hfresh : ∀ f ∈ s.frameTable, f.spte ≠ s.nextSpte := by
    intro f hf hc
    exact hsound.fresh (hc ▸ (hsound.installed f hf nofun).1)
  obtain ⟨hfree, frame, s₁, hget, hgrow⟩ := stackGrow_some h
  rcases hgrow with ⟨rfl, rfl, rfl⟩ | ⟨k, rfl, -, -⟩
  · have hno : ({ s with nextSpte := s.nextSpte + 1 } : State).NoFrame cur :=
      noFrame_of_vmGetFrame hget
    have hleaves := leaves_vmGetFrame_none (s := { s with nextSpte := s.nextSpte + 1 }) (k := 0)
      hget
    have hp := vmGetFrame_none hget
    have hnext : s'.nextSpte = s.nextSpte + 1 := congrArg (·.nextSpte) hp
    have htable : s'.frameTable = s.frameTable := congrArg (·.frameTable) hp
    refine .inr ⟨hno, rfl, fun hb f hf => ?_, congrArg (·.lookup) hp, fun p v hv => ?_⟩
    swap
    · exact (congrFun₂ (congrArg (·.frame) hp) p v).trans hv
    obtain ⟨hlt, hw⟩ := hb f (htable ▸ hf)
    exact ⟨hnext ▸ Nat.lt_succ_of_lt hlt, hleaves.whole _ hw⟩
  · have hmalloc : ({ s with nextSpte := s.nextSpte + 1 } : State).placement.Sound none :=
      placement_nextSpte ▸ hsound.malloc _
    have hgets := Placement.Kept.gets stable_true ⟨hmalloc, trivial⟩ hget
    have hlive₁ : s₁.placement.live cur = true := (congrFun hgets.live cur).trans hlive
    have hl₁ : s₁.lookup cur u = none := (congrFun₂ hgets.lookup cur u).trans hl
    have heq := stackGrow_eq (hgets.frame cur u hk) hl₁ hlive₁ hfree hget
    rw [h] at heq
    obtain ⟨rfl, rfl⟩ := Prod.mk.inj (Option.some.inj heq)
    refine .inl ⟨fun hno => ?_, rfl, k, ⟨s.nextSpte + 1, s₁, Nat.le_succ _, Nat.lt_succ_self _, hget,
      installs_stackGrow (fun _ => rfl) hlive₁⟩, .inr hl, hfresh⟩
    have hno' : ({ s with nextSpte := s.nextSpte + 1 } : State).NoFrame cur := hno
    obtain ⟨s₂, hget', -⟩ := vmGetFrame_noFrame (q := s.nextSpte) hno'
    cases hget.symm.trans hget'

/-- A handler brings a page in, or the process is about to exit. -/
theorem bringIn_cases {grow : Bool} (hsound : s.placement.Sound none)
    (hlive : s.placement.live cur = true) (hk : s.pagedirGetPage cur u = none)
    (h : s.bringIn cur u grow = some s') :
    (s.Brings cur u grow ∧ ∃ q k, Brought s s' cur u q k) ∨
      (¬s.Brings cur u grow ∧ ∃ t, s' = orExit cur (false, t) ∧ Refused s t) := by
  unfold bringIn at h
  split at h
  · next q hl =>
    obtain ⟨⟨b, t⟩, hload, rfl⟩ := Option.map_eq_some_iff.mp h
    rw [brings_some hl]
    split at hload
    · next ht =>
      obtain ⟨rfl, hbrought⟩ := pageLoadSwap_cases hsound hl hk ht hload
      exact .inl ⟨.inl ht, q, hbrought⟩
    · next ht =>
      rcases pageLoadFile_cases hsound hl hk ht hload with ⟨hw, rfl, hbrought⟩ | ⟨hw, rfl, hb⟩
      · exact .inl ⟨hw, q, hbrought⟩
      · exact .inr ⟨hw, t, rfl, hb⟩
  · next hl =>
    rw [brings_none hl]
    split at h
    · next hgrow =>
      obtain ⟨⟨b, t⟩, hload, rfl⟩ := Option.map_eq_some_iff.mp h
      rcases stackGrow_brought hsound hlive hl hload with ⟨hno, rfl, hbrought⟩ | ⟨hno, rfl, hb⟩
      · exact .inl ⟨⟨hgrow, hno⟩, _, hbrought⟩
      · exact .inr ⟨fun hc => hc.2 hno, t, rfl, hb⟩
    · next hgrow =>
      rw [← Option.some.inj h]
      exact .inr ⟨fun hc => hgrow hc.1, s, rfl, Refused.refl⟩

/-- The page that was brought in can be read whole, and so can the others. -/
theorem Brought.backed (h : Brought s s' cur u q k) (hb : s.Backed) : s'.Backed := by
  obtain ⟨n, s₁, hle, hlt, hget, hi⟩ := h.installs
  have hnext : s'.nextSpte = n := hi.nextSpte.trans (nextSpte_vmGetFrame hget)
  have hleaves := leaves_vmGetFrame hget
  intro f hf
  rw [hnext]
  by_cases hq : f.spte = q
  · rw [hq]
    exact ⟨hlt, hi.self⟩
  · have hold : f ∈ s.frameTable := (mem_vmGetFrame hget (hi.frameTable ▸ hf)).resolve_right
      fun hc => hq (congrArg FrameTabEntry.spte hc)
    obtain ⟨hlt', hw⟩ := hb f hold
    exact ⟨Nat.lt_of_lt_of_le hlt' hle, (hi.whole _ hq).mpr (hleaves.whole _ hw)⟩

theorem Backed.bringIn {grow : Bool} (hb : s.Backed) (hsound : s.placement.Sound none)
    (hlive : s.placement.live cur = true) (hk : s.pagedirGetPage cur u = none)
    (h : s.bringIn cur u grow = some s') : s'.Backed := by
  rcases bringIn_cases hsound hlive hk h with ⟨-, q, k, hbrought⟩ | ⟨-, t, rfl, ht⟩
  · exact hbrought.backed hb
  · exact (ht.backed hb).fewer fewer_setThread

/-! ## Runs -/

theorem fewer_loadSegments (l : List Phdr) :
    ∀ s : State, Fewer s (loadSegments cur file l s).2 := by
  induction l with
  | nil => exact fun _ => Fewer.refl
  | cons h l ih =>
    intro s
    unfold loadSegments
    split
    · split
      · next s₁ hload => exact fewer_lazyLoad hload
      · next s₁ hload => exact (fewer_lazyLoad hload).trans (ih s₁)
    · exact Fewer.refl

theorem fewer_mmap {addr : Nat} {id : Option Nat} (h : s.mmap cur file addr = some (id, s')) :
    Fewer s s' := by
  unfold State.mmap at h
  split at h
  · exact (Prod.mk.inj (Option.some.inj h)).2 ▸ Fewer.refl
  dsimp only at h
  split at h
  · exact (Prod.mk.inj (Option.some.inj h)).2 ▸ Fewer.refl
  split at h
  · cases h
  · exact (Prod.mk.inj (Option.some.inj h)).2 ▸ Fewer.refl
  generalize hs₁ : s.setThread cur _ = s₁ at h
  have hthread : Fewer s s₁ := hs₁ ▸ fewer_setThread
  split at h
  · next s₂ hs₂ =>
    rw [← (Prod.mk.inj (Option.some.inj h)).2]
    exact hthread.trans (fewer_lazyLoad hs₂)
  · next s₂ hs₂ =>
    rw [← (Prod.mk.inj (Option.some.inj h)).2]
    exact (hthread.trans (fewer_lazyLoad hs₂)).trans fewer_setThread

theorem lookup_of_stackGrow (hlive : s.placement.live cur = true)
    (h : s.stackGrow cur u = some (true, s')) : s.lookup cur u = none := by
  obtain ⟨-, frame, s₁, hget, ⟨-, hc, -⟩ | ⟨k, rfl, hnew, -⟩⟩ := stackGrow_some h
  · cases hc
  · obtain ⟨hlookup, hlives, -⟩ := vmGetFrame_tables hget
    exact (congrFun₂ hlookup cur u).symm.trans (hnew rfl ((congrFun hlives cur).trans hlive))

theorem Backed.startProcess {phdrs : List Phdr} (hb : s.Backed) (hsound : s.placement.Sound none)
    (h : s.startProcess cur file phdrs = some s') : s'.Backed := by
  unfold State.startProcess at h
  obtain ⟨_, hguard, h⟩ := Option.bind_eq_some_iff.mp h
  have hn : s.thread cur = none :=
    Option.isNone_iff_eq_none.mp ((Option.guard_eq_some' _).mp hguard)
  obtain ⟨hkept, hlive⟩ := Placement.Kept.newThread stable_true ⟨hsound, trivial⟩ hn
  generalize hs₁ : ({ s with thread := Function.update s.thread cur (some {}) } : State) = s₁
    at h hkept hlive
  have hb₁ : s₁.Backed := hs₁ ▸ hb
  obtain ⟨⟨b, s₂⟩, hload, rfl⟩ := Option.map_eq_some_iff.mp h
  refine Backed.fewer ?_ (fewer_orExit _)
  have hsegments : Fewer s₁ (loadSegments cur file phdrs s₁).2 := fewer_loadSegments phdrs s₁
  unfold State.load at hload
  split at hload
  · next s₃ hseg =>
    rw [hseg] at hsegments
    obtain ⟨-, rfl⟩ := Prod.mk.inj (Option.some.inj hload)
    exact hb₁.fewer hsegments
  · next s₃ hseg =>
    rw [hseg] at hsegments
    obtain ⟨hkept₃, hlive₃⟩ := Placement.Kept.loadSegments stable_true phdrs s₁ hkept hlive hseg
    obtain ⟨⟨success, s₄⟩, hgrow, hload⟩ := Option.bind_eq_some_iff.mp hload
    dsimp only at hload
    obtain ⟨_, hguard', hload⟩ := Option.bind_eq_some_iff.mp hload
    obtain rfl : success = true := (Option.guard_eq_some' _).mp hguard'
    have hlive' := hlive₃ ▸ hlive
    have hb₄ : s₄.Backed := by
      rcases stackGrow_brought hkept₃.sound hlive' (lookup_of_stackGrow hlive' hgrow) hgrow with
        ⟨-, -, k, hbrought⟩ | ⟨-, hc, -⟩
      · exact hbrought.backed (hb₁.fewer hsegments)
      · cases hc
    obtain ⟨-, rfl⟩ := Prod.mk.inj (Option.some.inj hload)
    refine (hb₄.fewer (fewer_setThread (p := cur) (f := fun t => { t with
      runningFile := some file }))).fewer ?_
    exact fewer_setFile (f := fun d => { d with denyWriteCnt := d.denyWriteCnt + 1 }) (Nat.le_refl _)

end State

open State

/-- Every step keeps the pages that can be read whole. -/
theorem Action.step_backed (a : Action) (hb : s.Backed) (hsound : s.placement.Sound none)
    (h : a.step s = some s') : s'.Backed := by
  cases a with
  | start p file phdrs => exact hb.startProcess hsound h
  | load p u =>
    obtain ⟨-, -, h⟩ := Option.bind_eq_some_iff.mp h
    unfold userLoad at h
    split at h
    · exact Option.some.inj h ▸ hb.fewer fewer_setThread
    · cases h
  | store p u ofs byte =>
    obtain ⟨-, -, h⟩ := Option.bind_eq_some_iff.mp h
    unfold userStore at h
    split at h
    · exact Option.some.inj h ▸ hb.fewer (fewer_setThread.trans fewer_setMemory)
    · cases h
  | fault p faultAddr esp =>
    obtain ⟨_, hruns, h⟩ := Option.bind_eq_some_iff.mp h
    unfold pageFault at h
    dsimp only at h
    split at h
    · exact Option.some.inj h ▸ hb.fewer fewer_setThread
    · next hc =>
      have hk : s.pagedirGetPage p (faultAddr / pgsize) = none :=
        frame_eq_none.mpr (Bool.not_eq_true _ ▸ fun hp => hc (.inr (.inr hp)))
      exact hb.bringIn hsound (runs_live hruns) hk h
  | readFault p faultAddr esp =>
    obtain ⟨_, hruns, h⟩ := Option.bind_eq_some_iff.mp h
    unfold readBufPageFaultHandler at h
    dsimp only at h
    split at h
    · exact Option.some.inj h ▸ hb.fewer fewer_setThread
    · split at h
      · exact Option.some.inj h ▸ hb
      · next hk => exact hb.bringIn hsound (runs_live hruns) hk h
  | mmap p file addr =>
    obtain ⟨_, -, h⟩ := Option.bind_eq_some_iff.mp h
    obtain ⟨⟨id, s₁⟩, hmap, h⟩ := Option.bind_eq_some_iff.mp h
    exact Option.some.inj h ▸ hb.fewer (fewer_mmap hmap)
  | munmap p mapping =>
    obtain ⟨-, -, h⟩ := Option.bind_eq_some_iff.mp h
    exact hb.fewer (fewer_munmap h)
  | exit p => exact hb.fewer (fewer_processExit h)
  | write file content length =>
    obtain ⟨_, hguard, h⟩ := Option.bind_eq_some_iff.mp h
    have hlen := ((Option.guard_eq_some' _).mp hguard).1
    exact Option.some.inj h ▸ hb.fewer (fewer_setFile hlen)
  | tick => exact Option.some.inj h ▸ hb

/-- A page in a frame can be read whole in every state that can be reached. -/
theorem Reachable.backed {P : State → Action → Prop} (h : Reachable P s) : s.Backed := by
  induction h with
  | init h =>
    obtain ⟨⟩ := h
    exact nofun
  | step a hr cond hs ih => exact a.step_backed ih hr.sound hs

end Pintos.Vm
