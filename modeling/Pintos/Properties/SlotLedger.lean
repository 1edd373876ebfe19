import Pintos.Properties.Paging
import Pintos.Properties.Serial
import Pintos.Properties.SwapSlots

/-!
# The slots of the swap block, whatever runs at the same time

An eviction and what happens to the page at the same time get in each other's way, since
`do_evict_frame` takes the `spte_lock` of the page that needs the frame, and not that of the page
that it evicts. As long as each eviction is of a page that is in its frame and stays there, and
nothing goes away with a page in the swap block, every slot that is taken is that of one page in the
swap block when all processes are back in their programs.
-/

namespace Pintos.Vm

open Pintos.Logic

/-- The entry of the frame table whose page is to be evicted. -/
def Task.evicts : Task → Option FrameTabEntry
  | .doEvictFrame (.file _) f | .doEvictFrame (.swap _) f => some f
  | _ => none

/-- The page that is to be unmapped. -/
def Task.unmaps : Task → Option Upage
  | .unmap ⟨_, u, _ + 1, _⟩ => some u
  | _ => none

def Task.frees : Task → Bool
  | .freeSupplPageTable => true
  | _ => false

def Event.process : Event → Option Pid
  | .begin a => Kernel.process a
  | .run p => some p

namespace Kernel

def paging (s : Kernel) : Paging :=
  { s.vm.placement.tables with stage := fun p => (s.task p).stage }

/-- The page of `f` is in its frame, and is not being unmapped. -/
def Evictable (s : Kernel) (f : FrameTabEntry) : Prop :=
  s.paging.page f.owner (s.vm.spte f.spte).addr = some f.spte ∧
    s.vm.pagedirGetPage f.owner (s.vm.spte f.spte).addr = some f.frame ∧
    (s.task f.owner).stage.unmaps ≠ some f.spte

/-- The process that has `frame_lock` evicts no such page. -/
def Spares (s : Kernel) (P : FrameTabEntry → Prop) : Prop :=
  ∀ p ∈ s.frameLock, ∀ f ∈ (s.task p).stage.victim, ¬P f

/-- A page is evicted only if it is in its frame and not being unmapped. No page is unmapped that is
in the swap block or being evicted, and no process frees its supplemental page table that has such
a page. -/
def Steady (s : Kernel) : Event → Prop
  | .begin _ => True
  | .run p =>
    (∀ f ∈ (s.task p).evicts, s.Evictable f) ∧
    (∀ u ∈ (s.task p).unmaps, ∀ q ∈ s.vm.lookup p u,
      ¬s.vm.placement.InSwap p u q ∧ s.Spares fun f => f.spte = q) ∧
    ((s.task p).frees = true →
      (∀ u q, ¬s.vm.placement.InSwap p u q) ∧ s.Spares fun f => f.owner = p)

/-- What is kept: who has `frame_lock` is known. -/
structure Sound (s : Kernel) : Prop where
  paging : s.paging.Sound
  locked : ∀ p, (s.task p).locks = true → s.frameLock = some p

variable {s s' : Kernel} {vm : State} {p : Pid} {t : Task} {r : Request} {q : SptePtr} {k : Frame}
  {f : FrameTabEntry} {u : Upage}

theorem paging_goes :
    (s.goes p vm t).paging = s.paging.goes p vm.placement.tables t.stage := by
  have hstage : (fun p' => (Function.update s.task p t p').stage) =
      Function.update (fun p' => (s.task p').stage) p t.stage := by
    funext p'
    by_cases hp : p' = p
    · subst hp
      simp only [Function.update_self]
    · simp only [Function.update_of_ne hp]
  simp only [paging, goes, Paging.goes, hstage]

theorem Sound.goes (h : s.Sound) (hp : (s.paging.goes p vm.placement.tables t.stage).Sound)
    (hl : t.locks = false ∨ s.frameLock = some p) : (s.goes p vm t).Sound where
  paging := paging_goes ▸ hp
  locked p' hp' := by
    by_cases hc : p' = p
    · subst hc
      simp only [Kernel.goes, Function.update_self] at hp'
      exact hl.resolve_left (ne_false_of_eq_true hp')
    · simp only [Kernel.goes, Function.update_of_ne hc] at hp'
      exact h.locked p' hp'

/-- Nothing has changed that matters. -/
theorem Sound.same (h : s.Sound) (hvm : vm.placement.tables = s.vm.placement.tables)
    (hst : t.stage = (s.task p).stage) (hl : t.locks = false ∨ s.frameLock = some p) :
    (s.goes p vm t).Sound := by
  refine h.goes ?_ hl
  rw [hvm]
  exact (Paging.goes_self (x := s.paging) hst).symm ▸ h.paging

theorem Sound.fails (h : s.Sound) (hvm : vm.placement.tables = s.vm.placement.tables)
    (hst : (s.task p).stage = .idle ∨ ∃ r, (s.task p).stage = .bringing r) :
    (s.fails p vm).Sound := by
  have hexit : (State.orExit p (false, vm)).placement.tables = s.vm.placement.tables := by
    rw [State.placement_orExit, hvm]
  rcases hst with hst | ⟨r, hst⟩
  · exact h.same hexit hst.symm (.inl rfl)
  · refine h.goes ?_ (.inl rfl)
    rw [hexit]
    exact h.paging.giveUp hst

theorem tables_of_placement {v v' : Placement} (h : v' = v) : v'.tables = v.tables :=
  congrArg Placement.tables h

/-! ## Getting a frame -/

theorem Sound.getFrame (h : s.Sound) (ht : s.task p = .getFrame r) (hs : s.run p = some s') :
    s'.Sound := by
  simp only [run, ht] at hs
  split at hs
  · next k vm hk =>
    obtain rfl := Option.some.inj hs
    have hvm : vm.placement.tables = s.vm.placement.tables :=
      (tables_of_placement (State.pallocGetPage_some hk).2).trans rfl
    exact h.same hvm (by rw [ht]; rfl) (.inl rfl)
  · obtain rfl := Option.some.inj hs
    exact h.same rfl (by rw [ht]; rfl) (.inl rfl)

theorem Sound.findUnaccessedPage {search : Option FrameTabEntry} (h : s.Sound)
    (ht : s.task p = .findUnaccessedPage r search) (hs : s.run p = some s') : s'.Sound := by
  cases search with
  | none =>
    simp only [run, ht] at hs
    obtain rfl := Option.some.inj hs
    exact h.same rfl (by rw [ht]; rfl) (.inl rfl)
  | some f =>
    simp only [run, ht] at hs
    obtain ⟨_, -, hs⟩ := Option.bind_eq_some_iff.mp hs
    split at hs
    · obtain rfl := Option.some.inj hs
      exact h.same (tables_of_placement (State.placement_setSpte_of_entry rfl)) (by rw [ht]; rfl)
        (.inl rfl)
    · obtain rfl := Option.some.inj hs
      exact h.same rfl (by rw [ht]; rfl) (.inl rfl)

theorem Sound.findLongestTimePage {search first : Option FrameTabEntry} {time : Nat} (h : s.Sound)
    (ht : s.task p = .findLongestTimePage r search first time) (hs : s.run p = some s') :
    s'.Sound := by
  cases search with
  | some f =>
    simp only [run, ht] at hs
    obtain ⟨_, -, hs⟩ := Option.bind_eq_some_iff.mp hs
    split at hs
    all_goals
      obtain rfl := Option.some.inj hs
      exact h.same rfl (by rw [ht]; rfl) (.inl rfl)
  | none =>
    cases first with
    | some f =>
      simp only [run, ht] at hs
      obtain rfl := Option.some.inj hs
      exact h.same rfl (by rw [ht]; rfl) (.inl rfl)
    | none =>
      rcases r with q | q | ⟨q, u, _ | file⟩
      · simp only [run, ht, reduceCtorEq] at hs
      · simp only [run, ht, reduceCtorEq] at hs
      · simp only [run, ht] at hs
        obtain rfl := Option.some.inj hs
        exact h.fails rfl (.inr ⟨_, by rw [ht]; rfl⟩)
      · simp only [run, ht, reduceCtorEq] at hs

/-! ## Eviction -/

/-- A process that takes `frame_lock` has it alone. -/
theorem Sound.lock (h : s.Sound) (hlock : s.frameLock = none) :
    ({ s with frameLock := some p } : Kernel).Sound :=
  ⟨h.paging, fun p' hp' => nomatch hlock.symm.trans (h.locked p' hp')⟩

theorem Sound.spares (h : s.Sound) (hlock : s.frameLock = none) (p' : Pid) :
    (s.task p').locks = false := by
  cases hl : (s.task p').locks with
  | false => rfl
  | true => cases hlock.symm.trans (h.locked p' hl)

theorem locks_of_victim (h : t.stage.victim = some f) : t.locks = true := by
  cases t with
  | writeOut | swapOut | writeFromBlock => rfl
  | clearPage r f u i => rfl
  | freeFrame k x | freeFrameFrom k e x =>
    cases x with
    | failed | unmapped => cases h
  | _ => cases h

/-- The frame of a page is taken from it under `frame_lock`. -/
theorem Sound.doEvictFrame (h : s.Sound) (ht : s.task p = .doEvictFrame r f)
    (hc : s.Steady (.run p)) (hs : s.run p = some s') : s'.Sound := by
  simp only [run, ht] at hs
  obtain ⟨_, hlock, hs⟩ := Option.bind_eq_some_iff.mp hs
  have hlock : s.frameLock = none := by
    rw [Option.guard_eq_some'] at hlock
    exact Option.isNone_iff_eq_none.mp hlock
  have hst : s.paging.stage p = .bringing r := congrArg Task.stage ht
  have hfits : ∃ v, s.paging.Pending p r v := by
    have hfits := h.paging.fits p
    rwa [hst] at hfits
  have hevict : r.grows = none → s.Evictable f := by
    intro hr
    cases r with
    | file | swap => exact hc.1 f (congrArg Task.evicts ht)
    | grow => cases hr
  -- No other process evicts a page, so none works on this one.
  have hfree : r.grows = none → ∀ p', p' ≠ p →
      ¬s.paging.Holds p' f.owner (s.vm.spte f.spte).addr := by
    intro hr p' hp' hh
    obtain ⟨hq, hk, hu⟩ := hevict hr
    rcases h.paging.holds_cases hh with ⟨rfl, hnone⟩ | ⟨q, rfl, hq', hu'⟩ | ⟨f', hf', -⟩
    · cases hnone.symm.trans hk
    · exact hu (hu'.trans (hq'.symm.trans hq))
    · exact absurd (locks_of_victim hf') (Bool.eq_false_iff.mp (h.spares hlock p'))
  have hgoes : r.grows = none → s' = { s with frameLock := some p }.goes p s.vm
      (.writeOut r f (s.vm.spte f.spte).addr) → s'.Sound := by
    rintro hr rfl
    obtain ⟨hq, hk, -⟩ := hevict hr
    refine (h.lock hlock).goes ?_ (.inr rfl)
    refine h.paging.restage (by rw [hst]; rfl) (by rw [hst]; rfl) (by rw [hst]; rfl)
      (by rw [hst]; rfl) ⟨hfits, hq, hk, trivial⟩ fun a v hw p' hp' => ?_
    rcases hw with hw | ⟨rfl, rfl⟩
    · refine h.paging.not_held ?_ hp'
      rw [hst]
      exact hw
    · exact hfree hr p' hp'
  cases r with
  | file q =>
    obtain ⟨_, -, hs⟩ := Option.bind_eq_some_iff.mp hs
    exact hgoes rfl (Option.some.inj hs).symm
  | swap q =>
    obtain ⟨_, -, hs⟩ := Option.bind_eq_some_iff.mp hs
    exact hgoes rfl (Option.some.inj hs).symm
  | grow q u program =>
    obtain rfl := Option.some.inj hs
    exact (h.lock hlock).goes (h.paging.giveUp hst) (.inr rfl)

theorem Sound.writeOut (h : s.Sound) (ht : s.task p = .writeOut r f u) (hs : s.run p = some s') :
    s'.Sound := by
  have hst : s.paging.stage p = .evicting r f u .chosen := congrArg Task.stage ht
  have hlock : s.frameLock = some p := h.locked p (by rw [ht]; rfl)
  simp only [run, ht] at hs
  split at hs
  · next hmmap =>
    obtain ⟨vm, hwrite, rfl⟩ := Option.map_eq_some_iff.mp hs
    refine h.goes ?_ (.inr hlock)
    rw [tables_of_placement (State.fileWriteAt_some hwrite)]
    obtain ⟨hr, hq, hk, -⟩ := h.paging.victim hst
    have htype : (s.paging.entry f.spte).type ≠ .swap := by
      have ht : (s.paging.entry f.spte).type = .mmap := hmmap.2
      rw [ht]
      decide
    refine h.paging.restage (by rw [hst]; rfl) (by rw [hst]; rfl) (by rw [hst]; rfl)
      (by rw [hst]; rfl) ⟨hr, hq, hk, htype⟩ fun a v hw p' hp' => h.paging.not_held ?_ hp'
    rw [hst]
    exact hw
  · obtain rfl := Option.some.inj hs
    refine h.goes ?_ (.inr hlock)
    rw [State.placement_setSpte]
    exact h.paging.mark hst rfl rfl rfl

theorem Sound.swapOut (h : s.Sound) (ht : s.task p = .swapOut r f u) (hs : s.run p = some s') :
    s'.Sound := by
  have hst : s.paging.stage p = .evicting r f u .typed := congrArg Task.stage ht
  simp only [run, ht] at hs
  obtain ⟨⟨i, vm⟩, hscan, rfl⟩ := Option.map_eq_some_iff.mp hs
  obtain ⟨j, hj, hji⟩ := Option.map_eq_some_iff.mp hscan
  obtain ⟨rfl, rfl⟩ := Prod.mk.inj hji
  have hfree : s.vm.swapBitmap j = false := by
    simpa only [Bool.not_eq_true'] using List.find?_some hj
  exact h.goes (h.paging.takeSlot hst (List.mem_range.mp (List.mem_of_find?_eq_some hj)) hfree)
    (.inr (h.locked p (by rw [ht]; rfl)))

theorem Sound.writeFromBlock {i : Nat} (h : s.Sound) (ht : s.task p = .writeFromBlock r f u i)
    (hs : s.run p = some s') : s'.Sound := by
  have hst : s.paging.stage p = .evicting r f u (.taken i) := congrArg Task.stage ht
  have htype : (s.paging.entry f.spte).type = .swap := (h.paging.victim hst).2.2.2
  simp only [run, ht] at hs
  obtain rfl := Option.some.inj hs
  refine h.goes ?_ (.inr (h.locked p (by rw [ht]; rfl)))
  rw [State.writeFromBlock, State.placement_setSpte]
  exact h.paging.mark hst rfl ⟨htype, rfl⟩ rfl

theorem Sound.clearPage {i : Option Nat} (h : s.Sound) (ht : s.task p = .clearPage r f u i)
    (hs : s.run p = some s') : s'.Sound := by
  simp only [run, ht] at hs
  obtain ⟨_, -, hs⟩ := Option.bind_eq_some_iff.mp hs
  obtain rfl := Option.some.inj hs
  refine h.goes ?_ (.inr (h.locked p (by rw [ht]; rfl)))
  rw [State.placement_pagedirClearPage]
  cases i with
  | none => exact h.paging.pageOut (congrArg Task.stage ht) (.inl rfl)
  | some i => exact h.paging.pageOut (congrArg Task.stage ht) (.inr ⟨i, rfl⟩)

theorem Sound.pushBack (h : s.Sound) (ht : s.task p = .pushBack r f) (hs : s.run p = some s') :
    s'.Sound := by
  simp only [run, ht] at hs
  obtain rfl := Option.some.inj hs
  have hlock : s.frameLock = some p := h.locked p (by rw [ht]; rfl)
  refine ⟨(h.same (t := .read r f.frame) rfl (congrArg Task.stage ht).symm (.inl rfl)).paging,
    fun p' hp' => ?_⟩
  by_cases hc : p' = p
  · subst hc
    simp only [Kernel.goes, Function.update_self, Task.locks, Bool.false_eq_true] at hp'
  · simp only [Kernel.goes, Function.update_of_ne hc] at hp'
    exact absurd (Option.some.inj ((h.locked p' hp').symm.trans hlock)) hc

/-! ## Bringing in a page -/

theorem Sound.read (h : s.Sound) (ht : s.task p = .read r k) : (s.read p r k).Sound := by
  have hst : s.paging.stage p = .bringing r := congrArg Task.stage ht
  have hfits := h.paging.fits p
  rw [hst] at hfits
  have hown : ∀ a v, a = p ∧ s.paging.page p v = some r.spte → ∀ p', p' ≠ p →
      ¬s.paging.Holds p' a v := by
    intro a v hw p' hp'
    refine h.paging.not_held ?_ hp'
    rw [hst]
    exact hw
  cases r with
  | file q =>
    dsimp only [Kernel.read]
    split
    · exact h.goes (h.paging.giveUp hst) (.inl rfl)
    · refine h.goes ?_ (.inl rfl)
      have hvm : ∀ vm : State, (if 0 < (s.vm.spte q).zeroBytes then vm.setMemory k
          ((vm.memory k).splice (s.vm.spte q).readBytes (s.vm.spte q).zeroBytes fun _ => 0)
          else vm).placement = vm.placement := by
        intro vm
        split
        all_goals rfl
      rw [hvm]
      exact h.paging.restage (by rw [hst]; rfl) (by rw [hst]; rfl) (by rw [hst]; rfl)
        (by rw [hst]; rfl) hfits hown
  | swap q =>
    exact h.goes (h.paging.restage (by rw [hst]; rfl) (by rw [hst]; rfl) (by rw [hst]; rfl)
      (by rw [hst]; rfl) ⟨hfits, rfl⟩ hown) (.inl rfl)
  | grow q u program =>
    refine h.goes ?_ (.inl rfl)
    rw [State.placement_setSpte]
    exact h.paging.initStack hst rfl

theorem Sound.bitmapFlip {i : Nat} (h : s.Sound) (ht : s.task p = .bitmapFlip q k i)
    (hs : s.run p = some s') : s'.Sound := by
  simp only [run, ht] at hs
  obtain rfl := Option.some.inj hs
  exact h.goes (h.paging.flip (congrArg Task.stage ht)) (.inl rfl)

/-- `install_page` of a page that is in no frame. -/
theorem installPage_of_pending {w : Bool} (hk : s.vm.pagedirGetPage p u = none)
    (hlive : s.vm.placement.live p = true) :
    ∃ vm, s.vm.installPage p u k w = (true, vm) ∧
      vm.placement = { s.vm.placement with
        frame := Placement.setPage s.vm.placement.frame p u (some k) } := by
  have htrue : s.vm.installPage p u k w = (true, s.vm.pagedirSetPage p u k w) := by
    rw [State.installPage, hk]
  exact ⟨_, htrue, (State.installPage_true hlive htrue).2⟩

theorem Sound.install (h : s.Sound) (ht : s.task p = .installPage r k) (hr : r.grows = none) :
    (s.install p r r.spte k).Sound := by
  have hst : s.paging.stage p = .installing r := congrArg Task.stage ht
  obtain ⟨v, hpending⟩ : ∃ v, s.paging.Pending p r v := by
    have hfits := h.paging.fits p
    rwa [hst] at hfits
  have haddr : (s.vm.spte r.spte).addr = v :=
    h.paging.paged.addr p v r.spte hpending.page (by rw [hst]; exact nofun)
  obtain ⟨vm, hvm, hp⟩ := installPage_of_pending (k := k) (w := (s.vm.spte r.spte).writable)
    hpending.frame hpending.live
  simp only [Kernel.install, haddr, hvm]
  refine h.goes ?_ (.inl rfl)
  rw [State.placement_setSpte_free, hp]
  exact h.paging.install .idle hst hpending.page rfl hr.symm rfl rfl trivial fun _ _ _ => id

theorem Sound.installStack {program : Option FileId} (h : s.Sound)
    (ht : s.task p = .installPage (.grow q u program) k) (hs : s.run p = some s') : s'.Sound := by
  have hst : s.paging.stage p = .installing (.grow q u program) := congrArg Task.stage ht
  obtain ⟨v, hpending⟩ : ∃ v, s.paging.Pending p (.grow q u program) v := by
    have hfits := h.paging.fits p
    rwa [hst] at hfits
  have hself : s.paging.page p u = some q := by
    simp only [Paging.page, hst, Stage.grows, Request.grows, if_true]
  obtain ⟨-, rfl⟩ := h.paging.paged.unique _ _ _ _ _ hpending.page hself
  obtain ⟨vm, hvm, hp⟩ := installPage_of_pending (k := k) (w := true) hpending.frame hpending.live
  simp only [run, ht, hvm] at hs
  obtain rfl := Option.some.inj hs
  refine h.goes ?_ (.inl rfl)
  rw [hp]
  have hinstall := h.paging.install (.inserting q v) (k := k) (e := s.paging.entry q) hst
    hpending.page rfl rfl rfl rfl ⟨hpending.live, hpending.new q v rfl⟩ fun _ _ _ => id
  simp only [Request.spte, Function.update_eq_self] at hinstall
  exact hinstall

theorem Sound.hashInsert {program : Option FileId} (h : s.Sound)
    (ht : s.task p = .hashInsert q u program k) (hs : s.run p = some s') : s'.Sound := by
  have hst : s.paging.stage p = .inserting q u := congrArg Task.stage ht
  obtain ⟨hlive, hnone⟩ : s.paging.live p = true ∧ s.paging.lookup p u = none := by
    have hfits := h.paging.fits p
    rwa [hst] at hfits
  have hnone : s.vm.lookup p u = none := hnone
  simp only [run, ht, hnone] at hs
  obtain rfl := Option.some.inj hs
  have henter := h.paging.enter hst
  cases program with
  | none =>
    refine h.goes ?_ (.inl rfl)
    rw [State.placement_hashInsert hlive]
    exact henter
  | some file =>
    refine h.goes ?_ (.inl rfl)
    rw [State.placement_setFile, State.placement_setThread, State.placement_hashInsert hlive]
    · exact henter
    · exact fun _ => rfl
    · exact fun _ => rfl

/-! ## Freeing frames -/

theorem tables_freeFrameFrom {e : Option FrameTabEntry} (h : s.vm.freeFrameFrom k e = some vm) :
    vm.placement.tables = s.vm.placement.tables := by
  unfold State.freeFrameFrom at h
  split at h
  · rw [← Option.some.inj h]
  · exact (tables_of_placement (State.pallocFreePage_some h)).trans rfl

theorem Sound.freeFrame {x : Freeing} (h : s.Sound) (ht : s.task p = .freeFrame k x)
    (hs : s.run p = some s') : s'.Sound := by
  simp only [run, ht] at hs
  obtain rfl := Option.some.inj hs
  refine h.same rfl ?_ (.inl rfl)
  rw [ht]
  cases x <;> rfl

theorem Sound.freeFrameFrom {x : Freeing} {e : Option FrameTabEntry} (h : s.Sound)
    (ht : s.task p = .freeFrameFrom k e x) (hs : s.run p = some s') : s'.Sound := by
  simp only [run, ht] at hs
  obtain ⟨_, -, hs⟩ := Option.bind_eq_some_iff.mp hs
  obtain ⟨vm, hfree, hs⟩ := Option.bind_eq_some_iff.mp hs
  have hvm := tables_freeFrameFrom hfree
  rcases x with (q | q | ⟨q, u, _ | file⟩) | ⟨m, q⟩
  · obtain rfl := Option.some.inj hs
    exact h.fails hvm (.inl (congrArg Task.stage ht))
  · obtain rfl := Option.some.inj hs
    exact h.fails hvm (.inl (congrArg Task.stage ht))
  · obtain rfl := Option.some.inj hs
    exact h.fails hvm (.inl (congrArg Task.stage ht))
  · cases hs
  · obtain rfl := Option.some.inj hs
    exact h.same hvm (congrArg Task.stage ht).symm (.inl rfl)

/-! ## Unmapping -/

theorem freeMmapList_idle :
    (freeMmapList vm p).stage = .idle ∧ (freeMmapList vm p).locks = false := by
  unfold freeMmapList
  split
  all_goals exact ⟨rfl, rfl⟩

theorem tables_writeBack {e : SupplPageTableEntry} (h : s.vm.writeBack p u e = some vm) :
    vm.placement.tables = s.vm.placement.tables := by
  unfold State.writeBack at h
  split at h
  · exact tables_of_placement (State.fileWriteAt_some h)
  · rw [← Option.some.inj h]

theorem Sound.unmap {m : Unmapping} (h : s.Sound) (ht : s.task p = .unmap m)
    (hc : s.Steady (.run p)) (hs : s.run p = some s') : s'.Sound := by
  have hst : s.paging.stage p = .idle := congrArg Task.stage ht
  obtain ⟨mapping, u, n, exiting⟩ := m
  cases n with
  | zero =>
    simp only [run, ht] at hs
    have hvm := tables_of_placement (State.placement_setThread (s := s.vm) (p := p)
      (f := fun t => { t with mmapList := t.mmapList.eraseP (·.mmapId = mapping) })
      (fun _ => rfl) fun _ => rfl)
    obtain rfl := Option.some.inj hs
    generalize s.vm.setThread p _ = vm at hvm ⊢
    have hnext : (if exiting = true then freeMmapList vm p else .user).stage = .idle ∧
        (if exiting = true then freeMmapList vm p else .user).locks = false := by
      split
      · exact freeMmapList_idle
      · exact ⟨rfl, rfl⟩
    exact h.same hvm (hnext.1.trans hst.symm) (.inl hnext.2)
  | succ n =>
    simp only [run, ht] at hs
    split at hs
    · obtain rfl := Option.some.inj hs
      exact h.same rfl hst.symm (.inl rfl)
    next q hq =>
    obtain ⟨vm, hwrite, rfl⟩ := Option.map_eq_some_iff.mp hs
    obtain ⟨hin, hspares⟩ := hc.2.1 u (congrArg Task.unmaps ht) q hq
    have hpage : s.paging.page p u = some q := (Paging.page_of_idle hst).trans hq
    refine h.goes ?_ (.inl rfl)
    rw [tables_writeBack hwrite]
    refine h.paging.restage (by rw [hst]; rfl) (by rw [hst]; rfl) (by rw [hst]; rfl)
      (by rw [hst]; rfl) ⟨hpage, fun hi => hin ⟨hq, hi⟩⟩ fun a v hw p' hp' hh => ?_
    obtain ⟨rfl, rfl⟩ := hw
    rcases h.paging.holds_cases hh with ⟨rfl, -⟩ | ⟨-, rfl, -⟩ | ⟨f, hf, -, hq', -⟩
    · exact hp' rfl
    · exact hp' rfl
    · exact hspares p' (h.locked p' (locks_of_victim hf)) f hf
        (Option.some.inj (hq'.symm.trans hpage))

theorem Sound.pagedirGetPage {m : Unmapping} (h : s.Sound) (ht : s.task p = .pagedirGetPage m q)
    (hs : s.run p = some s') : s'.Sound := by
  simp only [run, ht] at hs
  obtain rfl := Option.some.inj hs
  split
  · split
    all_goals exact h.same rfl (congrArg Task.stage ht).symm (.inl rfl)
  · exact h.same rfl (congrArg Task.stage ht).symm (.inl rfl)

theorem Sound.hashDelete {m : Unmapping} {clear : Bool} (h : s.Sound)
    (ht : s.task p = .hashDelete m q clear) (hs : s.run p = some s') : s'.Sound := by
  have hst : s.paging.stage p = .unmapping q m.upage := congrArg Task.stage ht
  have hq : s.paging.page p m.upage = some q := by
    have hfits := h.paging.fits p
    rw [hst] at hfits
    exact hfits.1
  have haddr : (s.vm.spte q).addr = m.upage :=
    h.paging.paged.addr p m.upage q hq (by rw [hst]; exact nofun)
  simp only [run, ht, haddr] at hs
  obtain rfl := Option.some.inj hs
  refine h.goes ?_ (.inl rfl)
  rw [State.placement_hashDelete]
  cases clear with
  | true =>
    rw [if_pos rfl, State.placement_pagedirClearPage]
    exact h.paging.delete hst fun a v hc => Placement.setPage_of_ne hc
  | false => exact h.paging.delete hst fun _ _ _ => rfl

/-! ## Exits -/

theorem lookup_removed (vm : State) (p : Pid) (u : Upage) :
    Function.update vm.placement.lookup p (fun _ => none) p u = none := by
  rw [Function.update_self]

theorem Sound.freeSupplPageTable (h : s.Sound) (ht : s.task p = .freeSupplPageTable)
    (hc : s.Steady (.run p)) (hs : s.run p = some s') : s'.Sound := by
  have hst : s.paging.stage p = .idle := congrArg Task.stage ht
  obtain ⟨hin, hspares⟩ := hc.2.2 (congrArg Task.frees ht)
  simp only [run, ht] at hs
  obtain rfl := Option.some.inj hs
  refine h.goes ?_ (.inl rfl)
  rw [State.placement_freeSupplPageTable]
  refine h.paging.clear (.inl hst) (.inr rfl) (fun _ _ => rfl)
    (fun p' hp' => Function.update_of_ne hp' ..) (fun _ _ => rfl)
    (lookup_removed s.vm p) rfl rfl rfl rfl (fun u => ?_)
    fun p' hp' u hh => ?_
  · cases hq : s.paging.page p u with
    | none => exact Paging.slot_of_page hq
    | some q =>
      rw [Paging.slot, hq, Option.bind_some, if_neg]
      exact fun hi => hin u q ⟨(Paging.page_of_idle hst).symm.trans hq, hi.1, hi.2.1⟩
  · rcases h.paging.holds_cases hh with ⟨rfl, -⟩ | ⟨-, rfl, -⟩ | ⟨f, hf, rfl, -⟩
    · exact hp' rfl
    · exact hp' rfl
    · exact hspares p' (h.locked p' (locks_of_victim hf)) f hf rfl

/-- A process that has freed its supplemental page table has no pages. -/
theorem Sound.gone (h : s.Sound) (hst : s.paging.stage p = .gone) :
    (∀ u, s.paging.slot p u = none) ∧ ∀ p', p' ≠ p → ∀ u, ¬s.paging.Holds p' p u := by
  have hnone : ∀ u, s.paging.page p u = none := by
    have hfits := h.paging.fits p
    rwa [hst] at hfits
  refine ⟨fun u => Paging.slot_of_page (hnone u), fun p' _ u hh => ?_⟩
  obtain ⟨q, hq⟩ := h.paging.page_of_holds hh
  cases (hnone u).symm.trans hq

theorem Sound.clearFrameTableFrom {e : Option FrameTabEntry} (h : s.Sound)
    (ht : s.task p = .clearFrameTableFrom e) (hs : s.run p = some s') : s'.Sound := by
  have hst : s.paging.stage p = .gone := congrArg Task.stage ht
  simp only [run, ht] at hs
  obtain ⟨_, -, hs⟩ := Option.bind_eq_some_iff.mp hs
  obtain ⟨t, -, hs⟩ := Option.bind_eq_some_iff.mp hs
  obtain rfl := Option.some.inj hs
  have htables : (s.vm.clearFrameTableFrom p e).placement.tables = s.vm.placement.tables := by
    cases e with
    | none | some f => rfl
  have hlookup : ∀ u, s.vm.placement.lookup p u = none := by
    have hfits := h.paging.fits p
    rw [hst] at hfits
    intro u
    rw [← hfits u, Paging.page, hst]
    rfl
  obtain ⟨hslots, hfree⟩ := h.gone hst
  refine h.goes ?_ (.inl rfl)
  rw [State.placement_clearPagedir]
  have hclear := h.paging.clear (t := { s.vm.placement.tables with
    frame := Function.update s.vm.placement.frame p fun _ => none }) (.inr hst) (.inr rfl)
    (fun _ _ => rfl) (fun _ _ => rfl) (fun p' hp' => Function.update_of_ne hp' ..) hlookup
    rfl rfl rfl rfl hslots hfree
  cases e with
  | none | some f => exact hclear

theorem Sound.pagedirDestroy {l : List (Sigma fun _ : Upage => Pte)} (h : s.Sound)
    (ht : s.task p = .pagedirDestroy l) (hs : s.run p = some s') : s'.Sound := by
  have hst : s.paging.stage p = .gone := congrArg Task.stage ht
  cases l with
  | nil =>
    simp only [run, ht] at hs
    obtain rfl := Option.some.inj hs
    obtain ⟨hslots, hfree⟩ := h.gone hst
    refine h.goes ?_ (.inl rfl)
    rw [State.placement_removeThread]
    exact h.paging.clear (.inr hst) (.inl rfl) (fun p' hp' => Function.update_of_ne hp' ..)
      (fun p' hp' => Function.update_of_ne hp' ..) (fun p' hp' => Function.update_of_ne hp' ..)
      (lookup_removed s.vm p) rfl rfl rfl rfl hslots hfree
  | cons v l =>
    simp only [run, ht] at hs
    split at hs
    · obtain ⟨vm, hfree, rfl⟩ := Option.map_eq_some_iff.mp hs
      exact h.same ((tables_of_placement (State.pallocFreePage_some hfree)).trans rfl)
        (congrArg Task.stage ht).symm (.inl rfl)
    · obtain rfl := Option.some.inj hs
      exact h.same rfl (congrArg Task.stage ht).symm (.inl rfl)

/-- Whatever a process goes on with. -/
theorem Sound.run (h : s.Sound) (hc : s.Steady (.run p)) (hs : s.run p = some s') : s'.Sound := by
  cases ht : s.task p with
  | user | hung => simp only [Kernel.run, ht, reduceCtorEq] at hs
  | getFrame r => exact h.getFrame ht hs
  | pushFront r k =>
    simp only [Kernel.run, ht] at hs
    obtain ⟨_, -, hs⟩ := Option.bind_eq_some_iff.mp hs
    obtain rfl := Option.some.inj hs
    exact h.same rfl (congrArg Task.stage ht).symm (.inl rfl)
  | tryEvictFrame r =>
    simp only [Kernel.run, ht] at hs
    obtain rfl := Option.some.inj hs
    exact h.same rfl (congrArg Task.stage ht).symm (.inl rfl)
  | findUnaccessedPage r search => exact h.findUnaccessedPage ht hs
  | findLongestTimePage r search first time => exact h.findLongestTimePage ht hs
  | doEvictFrame r f => exact h.doEvictFrame ht hc hs
  | writeOut r f u => exact h.writeOut ht hs
  | swapOut r f u => exact h.swapOut ht hs
  | writeFromBlock r f u i => exact h.writeFromBlock ht hs
  | clearPage r f u i => exact h.clearPage ht hs
  | pushBack r f => exact h.pushBack ht hs
  | read r k =>
    simp only [Kernel.run, ht] at hs
    obtain rfl := Option.some.inj hs
    exact h.read ht
  | bitmapFlip q k i => exact h.bitmapFlip ht hs
  | installPage r k =>
    cases r with
    | file q =>
      simp only [Kernel.run, ht] at hs
      obtain rfl := Option.some.inj hs
      exact h.install ht rfl
    | swap q =>
      simp only [Kernel.run, ht] at hs
      obtain rfl := Option.some.inj hs
      exact h.install ht rfl
    | grow q u program => exact h.installStack ht hs
  | hashInsert q u program k => exact h.hashInsert ht hs
  | freeFrame k x => exact h.freeFrame ht hs
  | freeFrameFrom k e x => exact h.freeFrameFrom ht hs
  | unmap m => exact h.unmap ht hc hs
  | pagedirGetPage m q => exact h.pagedirGetPage ht hs
  | hashDelete m q clear => exact h.hashDelete ht hs
  | freeSupplPageTable => exact h.freeSupplPageTable ht hc hs
  | clearFrameTable =>
    simp only [Kernel.run, ht] at hs
    obtain rfl := Option.some.inj hs
    exact h.same rfl (congrArg Task.stage ht).symm (.inl rfl)
  | clearFrameTableFrom e => exact h.clearFrameTableFrom ht hs
  | pagedirDestroy l => exact h.pagedirDestroy ht hs

/-! ## What begins -/

/-- A change by a process that is in its program. -/
theorem Sound.setVm (h : s.Sound) (hst : (s.task p).stage = .idle)
    (hp : (s.paging.goes p vm.placement.tables .idle).Sound) : ({ s with vm } : Kernel).Sound := by
  refine ⟨?_, h.locked⟩
  have hpaging : ({ s with vm } : Kernel).paging = s.paging.goes p vm.placement.tables .idle := by
    have hsame : s.paging.goes p s.paging.toTables .idle = s.paging :=
      Paging.goes_self (x := s.paging) hst.symm
    have hstage : Function.update s.paging.stage p .idle = s.paging.stage :=
      congrArg (·.stage) hsame
    simp only [Paging.goes, hstage]
    rfl
  rw [hpaging]
  exact hp

/-- `page_lazy_load` makes pages that are in no frame and not in the swap block. -/
theorem Sound.pageLazyLoad (file : FileId) (w : Bool) {type : PageType} (htype : type ≠ .swap)
    (n : Nat) : ∀ (ofs : Nat) (upage : Upage) (readBytes : Nat) (s : Kernel), s.Sound →
      (s.task p).stage = .idle → s.vm.placement.live p = true →
      ({ s with vm := (State.pageLazyLoad p file w type n ofs upage readBytes s.vm).2 }
        : Kernel).Sound ∧
      (State.pageLazyLoad p file w type n ofs upage readBytes s.vm).2.placement.live =
        s.vm.placement.live ∧
      (State.pageLazyLoad p file w type n ofs upage readBytes s.vm).2.placement.frame =
        s.vm.placement.frame := by
  induction n with
  | zero => exact fun _ _ _ s h _ _ => ⟨h, rfl, rfl⟩
  | succ n ih =>
    intro ofs upage readBytes s h hst hlive
    unfold State.pageLazyLoad
    dsimp only
    generalize hvm : ({ s.vm.setSpte s.vm.nextSpte _ with nextSpte := s.vm.nextSpte + 1 } : State) =
      vm
    have hp : vm.placement = s.vm.placement.malloc
        ⟨upage, type, (s.vm.spte s.vm.nextSpte).swapIdx, true⟩ := by
      rw [← hvm]
      exact State.placement_malloc _
    have hmalloc : ({ s with vm } : Kernel).Sound := by
      refine h.setVm hst ?_
      rw [hp]
      refine h.paging.stay hst (fun _ _ => rfl) rfl rfl (fun a u q hq => ?_) (Nat.le_succ _) rfl rfl
      refine Function.update_of_ne ?_ ..
      rintro rfl
      exact h.paging.page_ne_next hq
    have hlive₁ : vm.placement.live = s.vm.placement.live := congrArg (·.live) hp
    have hframe₁ : vm.placement.frame = s.vm.placement.frame := congrArg (·.frame) hp
    split
    · exact ⟨hmalloc, hlive₁, hframe₁⟩
    · next hl =>
      have hnew : vm.placement.entry s.vm.nextSpte =
          ⟨upage, type, (s.vm.spte s.vm.nextSpte).swapIdx, true⟩ := by
        rw [hp]
        exact Function.update_self ..
      have hinsert : (vm.hashInsert p upage s.vm.nextSpte).placement = { vm.placement with
          lookup := Placement.setPage vm.placement.lookup p upage (some s.vm.nextSpte) } :=
        State.placement_hashInsert (hlive₁ ▸ hlive)
      have hsound : ({ s with vm := vm.hashInsert p upage s.vm.nextSpte } : Kernel).Sound := by
        refine hmalloc.setVm hst ?_
        rw [hinsert]
        refine hmalloc.paging.insert hst hl (fun a v hq => ?_) ?_ ?_ ?_
        · have hpage : ({ s with vm } : Kernel).paging.page = s.paging.page :=
            Paging.page_congr (congrArg (·.lookup) hp) rfl
          rw [hpage] at hq
          exact h.paging.page_ne_next hq
        · have hnext : vm.nextSpte = s.vm.nextSpte + 1 := congrArg (·.nextSpte) hp
          exact Nat.lt_of_lt_of_eq (Nat.lt_succ_self _) hnext.symm
        · exact congrArg Entry.addr hnew
        · exact (congrArg Entry.type hnew).symm ▸ htype
      obtain ⟨hs, hl, hf⟩ := ih (ofs + min readBytes pgsize) (upage + 1)
        (readBytes - min readBytes pgsize) { s with vm := vm.hashInsert p upage s.vm.nextSpte }
        hsound hst ((congrArg (·.live p) hinsert).trans (hlive₁ ▸ hlive))
      exact ⟨hs, hl.trans ((congrArg (·.live) hinsert).trans hlive₁),
        hf.trans ((congrArg (·.frame) hinsert).trans hframe₁)⟩

theorem Sound.loadSegments (file : FileId) (l : List State.Phdr) :
    ∀ s : Kernel, s.Sound → (s.task p).stage = .idle → s.vm.placement.live p = true →
      ({ s with vm := (State.loadSegments p file l s.vm).2 } : Kernel).Sound ∧
      (State.loadSegments p file l s.vm).2.placement.live = s.vm.placement.live ∧
      (State.loadSegments p file l s.vm).2.placement.frame = s.vm.placement.frame := by
  induction l with
  | nil => exact fun s h _ _ => ⟨h, rfl, rfl⟩
  | cons x l ih =>
    intro s h hst hlive
    unfold State.loadSegments
    split
    swap
    · exact ⟨h, rfl, rfl⟩
    have htype : PageType.file ≠ .swap := by decide
    have hload := Sound.pageLazyLoad (p := p) file x.writable htype x.extent.1
      (x.offset / pgsize * pgsize) (x.vaddr / pgsize) x.extent.2 s h hst hlive
    split
    · next vm hvm =>
      rw [hvm] at hload
      exact hload
    · next vm hvm =>
      rw [hvm] at hload
      obtain ⟨hs, hl, hf⟩ := hload
      obtain ⟨hs', hl', hf'⟩ := ih { s with vm } hs hst (hl ▸ hlive)
      exact ⟨hs', hl'.trans hl, hf'.trans hf⟩

/-- A process that is in its program fails, or starts to grow its stack. -/
theorem Sound.grow {program : Option FileId} (h : s.Sound) (hst : (s.task p).stage = .idle)
    (hlive : s.vm.placement.live p = true) (hl : s.vm.lookup p u = none)
    (hk : s.vm.pagedirGetPage p u = none) :
    (s.goes p { s.vm with nextSpte := s.vm.nextSpte + 1 }
      (.getFrame (.grow s.vm.nextSpte u program))).Sound :=
  h.goes (h.paging.startGrow hst hlive hl hk) (.inl rfl)

theorem Sound.start {file : FileId} {phdrs : List State.Phdr} (h : s.Sound)
    (hst : (s.task p).stage = .idle) (hs : s.begin (.start p file phdrs) = some s') : s'.Sound := by
  obtain ⟨_, hguard, hs⟩ := Option.bind_eq_some_iff.mp hs
  have hn : s.vm.thread p = none :=
    Option.isNone_iff_eq_none.mp ((Option.guard_eq_some' _).mp hguard)
  dsimp only at hs
  generalize hvm : ({ s.vm with thread := Function.update s.vm.thread p (some {}) } : State) = vm
    at hs
  have hp : vm.placement = { s.vm.placement with
      live := Function.update s.vm.placement.live p true } := hvm ▸ State.placement_newThread hn
  have hborn : ({ s with vm } : Kernel).Sound := by
    refine h.setVm hst ?_
    rw [hp]
    exact h.paging.stay hst (fun p' hp' => Function.update_of_ne hp' ..) rfl rfl
      (fun _ _ _ _ => rfl) le_rfl rfl rfl
  have hlive : vm.placement.live p = true := by
    rw [hp]
    exact Function.update_self ..
  have hframe : ∀ u, vm.placement.frame p u = none := by
    intro u
    rw [hp]
    simp only [State.placement, State.pagedirGetPage, State.pte, hn, Option.bind_none,
      Option.getD_none, Bool.false_eq_true, if_false]
  have hload := Sound.loadSegments file phdrs { s with vm } hborn hst hlive
  split at hs
  · next vm' hvm' =>
    rw [hvm'] at hload
    obtain rfl := Option.some.inj hs
    exact hload.1.fails rfl (.inl hst)
  · next vm' hvm' =>
    rw [hvm'] at hload
    obtain ⟨hsound, hl, hf⟩ := hload
    obtain ⟨_, hguard, hs⟩ := Option.bind_eq_some_iff.mp hs
    have hnone : vm'.lookup p ((physBase - pgsize) / pgsize) = none :=
      Option.isNone_iff_eq_none.mp ((Option.guard_eq_some' _).mp hguard)
    obtain rfl := Option.some.inj hs
    exact hsound.grow hst (hl ▸ hlive) hnone ((congrFun (congrFun hf p) _).trans (hframe _))

/-- A handler brings in a page that is in no frame. -/
theorem Sound.bringIn {grow : Bool} (h : s.Sound) (hst : (s.task p).stage = .idle)
    (hlive : s.vm.placement.live p = true) (hk : s.vm.pagedirGetPage p u = none) :
    (s.bringIn p u grow).Sound := by
  unfold Kernel.bringIn
  split
  · next q hl =>
    have hpage : s.paging.page p u = some q := (Paging.page_of_idle hst).trans hl
    have hrest : ∀ r : Request, r.spte = q → r.grows = none → r.Typed (s.vm.spte q).type →
        (s.goes p s.vm (.getFrame r)).Sound := by
      rintro r rfl hr ht
      refine h.goes (h.paging.restage ?_ ?_ ?_ ?_ ⟨u, hlive, hpage, hk, ht, ?_⟩ ?_) (.inl rfl)
      · exact hr.trans (congrArg Stage.grows hst).symm
      · exact (congrArg (Option.map Prod.fst) hr).trans (congrArg Stage.fresh hst).symm
      · exact (congrArg (Option.map Prod.fst) hr).trans (congrArg Stage.moves hst).symm
      · exact (congrArg Stage.slot hst).symm
      · intro q' u' hg
        cases hr.symm.trans hg
      · rintro a v ⟨rfl, hv⟩ p' hp' hh
        obtain ⟨-, rfl⟩ := h.paging.paged.unique _ _ _ _ _ hv hpage
        rcases h.paging.holds_cases hh with ⟨rfl, -⟩ | ⟨-, rfl, -⟩ | ⟨f, -, -, -, hframe⟩
        · exact hp' rfl
        · exact hp' rfl
        · cases hk.symm.trans hframe
    split
    · next ht => exact hrest (.swap q) rfl rfl ht
    · next ht => exact hrest (.file q) rfl rfl ht
  · next hl =>
    split
    · exact h.grow hst hlive hl hk
    · exact h.fails rfl (.inl hst)

/-- A change of what is left out of the tables. -/
theorem Sound.congr (h : s.Sound) (hvm : vm.placement.tables = s.vm.placement.tables) :
    ({ s with vm } : Kernel).Sound := by
  refine ⟨?_, h.locked⟩
  have hpaging : ({ s with vm } : Kernel).paging = s.paging := by
    simp only [Kernel.paging, hvm]
  exact hpaging ▸ h.paging

theorem Sound.mmap {file : FileId} {addr : Nat} {id : Option Nat} (h : s.Sound)
    (hst : (s.task p).stage = .idle) (hlive : s.vm.placement.live p = true)
    (hs : s.vm.mmap p file addr = some (id, vm)) : ({ s with vm } : Kernel).Sound := by
  unfold State.mmap at hs
  split at hs
  · obtain ⟨-, rfl⟩ := Prod.mk.inj (Option.some.inj hs)
    exact h
  dsimp only at hs
  split at hs
  · obtain ⟨-, rfl⟩ := Prod.mk.inj (Option.some.inj hs)
    exact h
  split at hs
  · cases hs
  · obtain ⟨-, rfl⟩ := Prod.mk.inj (Option.some.inj hs)
    exact h
  generalize hvm : s.vm.setThread p _ = vm₁ at hs
  have hp : vm₁.placement = s.vm.placement :=
    hvm ▸ State.placement_setThread (fun _ => rfl) fun _ => rfl
  have htype : PageType.mmap ≠ .swap := by decide
  have hload := Sound.pageLazyLoad (p := p) file true htype
    (((s.vm.file file).length + (pgsize - 1)) / pgsize) 0 (addr / pgsize) (s.vm.file file).length
    { s with vm := vm₁ } (h.congr (tables_of_placement hp)) hst
    ((congrArg (·.live p) hp).trans hlive)
  split at hs
  · next vm₂ hvm₂ =>
    rw [hvm₂] at hload
    obtain ⟨-, rfl⟩ := Prod.mk.inj (Option.some.inj hs)
    exact hload.1
  · next vm₂ hvm₂ =>
    rw [hvm₂] at hload
    obtain ⟨-, rfl⟩ := Prod.mk.inj (Option.some.inj hs)
    exact hload.1.congr
      (tables_of_placement (State.placement_setThread (fun _ => rfl) fun _ => rfl))

/-- Whatever a process begins with. -/
theorem Sound.begin {a : Action} (h : s.Sound) (hidle : ∀ p ∈ process a, (s.task p).isUser)
    (hs : s.begin a = some s') : s'.Sound := by
  have hst : ∀ p ∈ process a, (s.task p).stage = .idle := by
    intro p hp
    have huser := hidle p hp
    cases ht : s.task p with
    | user => rfl
    | _ =>
      rw [ht] at huser
      cases huser
  have hstep : ∀ vm, vm.placement = s.vm.placement → ({ s with vm } : Kernel).Sound :=
    fun vm hp => h.congr (tables_of_placement hp)
  cases a with
  | start p file phdrs => exact h.start (hst p rfl) hs
  | load p u =>
    obtain ⟨vm, hload, rfl⟩ := Option.map_eq_some_iff.mp hs
    obtain ⟨-, -, hload⟩ := Option.bind_eq_some_iff.mp hload
    exact hstep vm (State.userLoad_some hload)
  | store p u ofs byte =>
    obtain ⟨vm, hstore, rfl⟩ := Option.map_eq_some_iff.mp hs
    obtain ⟨-, -, hstore⟩ := Option.bind_eq_some_iff.mp hstore
    exact hstep vm (State.userStore_some hstore)
  -- a fault begins with a request, or ends the process at once
  | fault p faultAddr esp =>
    obtain ⟨_, hruns, hs⟩ := Option.bind_eq_some_iff.mp hs
    dsimp only at hs
    split at hs
    · obtain rfl := Option.some.inj hs
      exact h.fails rfl (.inl (hst p rfl))
    · next hc =>
      obtain rfl := Option.some.inj hs
      have hk : s.vm.pagedirGetPage p (faultAddr / pgsize) = none :=
        State.frame_eq_none.mpr (Bool.not_eq_true _ ▸ fun hp => hc (.inr (.inr hp)))
      exact h.bringIn (hst p rfl) (State.runs_live hruns) hk
  | readFault p faultAddr esp =>
    obtain ⟨_, hruns, hs⟩ := Option.bind_eq_some_iff.mp hs
    dsimp only at hs
    split at hs
    · obtain rfl := Option.some.inj hs
      exact h.fails rfl (.inl (hst p rfl))
    · split at hs
      · obtain rfl := Option.some.inj hs
        exact h
      · next hk =>
        obtain rfl := Option.some.inj hs
        exact h.bringIn (hst p rfl) (State.runs_live hruns) hk
  | mmap p file addr =>
    obtain ⟨vm, hstep, rfl⟩ := Option.map_eq_some_iff.mp hs
    obtain ⟨_, hruns, hmap⟩ := Option.bind_eq_some_iff.mp hstep
    obtain ⟨⟨id, vm'⟩, hmmap, hvm⟩ := Option.bind_eq_some_iff.mp hmap
    obtain rfl := Option.some.inj hvm
    exact h.mmap (hst p rfl) (State.runs_live hruns) hmmap
  | munmap p mapping =>
    obtain ⟨_, -, hs⟩ := Option.bind_eq_some_iff.mp hs
    split at hs
    · obtain rfl := Option.some.inj hs
      exact h
    · obtain rfl := Option.some.inj hs
      exact h.same rfl (hst p rfl).symm (.inl rfl)
  | exit p =>
    obtain ⟨_, -, hs⟩ := Option.bind_eq_some_iff.mp hs
    obtain rfl := Option.some.inj hs
    have hallow : (s.vm.allowWrite p).placement = s.vm.placement := by
      unfold State.allowWrite
      split
      all_goals rfl
    exact h.same (tables_of_placement hallow) (freeMmapList_idle.1.trans (hst p rfl).symm)
      (.inl freeMmapList_idle.2)
  | write file content length =>
    obtain ⟨vm, hwrite, rfl⟩ := Option.map_eq_some_iff.mp hs
    obtain ⟨-, -, hwrite⟩ := Option.bind_eq_some_iff.mp hwrite
    obtain rfl := Option.some.inj hwrite
    exact hstep _ rfl
  | tick =>
    obtain rfl := Option.some.inj hs
    exact hstep _ rfl

/-! ## Runs -/

theorem sound_booted (h : Booted vm) :
    ({ vm, frameLock := none, task := fun _ => .user } : Kernel).Sound := by
  obtain ⟨spte, poolSize, memory, swapSize, swap, file, ticks⟩ := h
  refine ⟨⟨⟨nofun, nofun, nofun⟩, ?_, nofun, fun _ => trivial, nofun⟩, nofun⟩
  have howns : Paging.owns (paging ⟨State.init spte poolSize memory swapSize swap file ticks, none,
      fun _ => .user⟩) = fun _ => none := by
    funext y
    rcases y with ⟨p, u⟩ | p
    all_goals rfl
  rw [howns]
  exact Ledger.empty

theorem Reachable.sound (h : Reachable Steady s) : s.Sound := by
  induction h with
  | init h => exact sound_booted h
  | step e h hc hs ih =>
    cases e with
    | begin a =>
      obtain ⟨_, hguard, hs⟩ := Option.bind_eq_some_iff.mp hs
      exact ih.begin ((Option.guard_eq_some' _).mp hguard) hs
    | run p => exact ih.run hc hs

/-- While no process works on a page, the slots that are taken are those of the pages. -/
theorem Sound.slots (h : s.Sound) (hidle : ∀ p, s.paging.stage p = .idle) :
    s.vm.placement.Slots := by
  have howns : ∀ p u q, s.vm.placement.InSwap p u q →
      s.paging.owns (.inl (p, u)) = some (s.vm.placement.entry q).swapIdx := fun p u q hi =>
    Paging.slot_eq_some ((Paging.page_of_idle (hidle p)).trans hi.1) hi.2.1 hi.2.2
      (by rw [hidle]; exact nofun)
  refine ⟨fun p u q hi => ?_, fun p u q p' u' q' hi hi' he => ?_, fun i hi => ?_⟩
  · have htaken := h.paging.ledger.taken_of_owns (howns p u q hi)
    exact ⟨h.paging.within _ htaken, htaken⟩
  · have hpage := h.paging.ledger.once _ _ _ (howns p u q hi) (he ▸ howns p' u' q' hi')
    exact Prod.mk.inj (Sum.inl.inj hpage)
  · obtain ⟨(⟨p, u⟩ | p), hi⟩ := (h.paging.ledger.taken_iff i).mp hi
    · obtain ⟨q, hq, hslot⟩ := Option.bind_eq_some_iff.mp hi
      split at hslot
      · next hin =>
        exact ⟨p, u, q, ⟨(Paging.page_of_idle (hidle p)).symm.trans hq, hin.1, hin.2.1⟩,
          Option.some.inj hslot⟩
      · cases hslot
    · have hnone : s.paging.owns (.inr p) = none := congrArg Stage.slot (hidle p)
      cases hnone.symm.trans hi

/-- Only the process `p` has got on. -/
def Spared (s : Kernel) (p : Pid) (s' : Kernel) : Prop := ∀ p', p' ≠ p → s'.task p' = s.task p'

instance : Decidable (s.Evictable f) := inferInstanceAs (Decidable (_ ∧ _ ∧ _))

instance {v : Placement} : Decidable (v.InSwap p u q) := inferInstanceAs (Decidable (_ ∧ _ ∧ _))

instance {P : FrameTabEntry → Prop} [DecidablePred P] : Decidable (s.Spares P) :=
  inferInstanceAs (Decidable (∀ p ∈ s.frameLock, ∀ f ∈ (s.task p).stage.victim, ¬P f))

/-- Only what is in the supplemental page table can be in the swap block. -/
instance : Decidable (∀ u q, ¬s.vm.placement.InSwap p u q) :=
  decidable_of_iff (∀ th ∈ s.vm.thread p, ∀ u ∈ th.supplPageTable.keys,
      ∀ q ∈ s.vm.lookup p u, ¬s.vm.placement.InSwap p u q) <| by
    constructor
    · intro h u q hin
      obtain ⟨th, hth, hq⟩ := Option.bind_eq_some_iff.mp hin.1
      have hmem : u ∈ th.supplPageTable.keys :=
        AList.mem_keys.mp (AList.lookup_isSome.mp (Option.isSome_of_eq_some hq))
      exact h th hth u hmem q hin.1 hin
    · exact fun h _ _ u _ q _ => h u q

instance : (e : Event) → Decidable (s.Steady e)
  | .begin _ => .isTrue trivial
  | .run _ => inferInstanceAs (Decidable (_ ∧ _ ∧ _))

end Kernel

/-! ## Slots that are kept, and slots that are lost -/

end Pintos.Vm
