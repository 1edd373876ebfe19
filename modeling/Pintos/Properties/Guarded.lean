import Pintos.Properties.LazyLoading
import Pintos.Vm.Guarded

/-!
# A page that is not brought in

`page_load_file`, `page_load_swap` and `stack_grow` take a frame, a lock and a mapping one after the
other. Where one of them cannot be had, what was taken before is given back only in part.

* `noTrace_iff` — when a call that fails leaves no trace.
-/

namespace Pintos.Vm

open Pintos.Logic

variable {s s' : State} {cur : Pid} {q : SptePtr} {k : Frame} {upage : Upage}

namespace Guarded

variable {o : Outcomes} {m m' : Guarded} {l : Lock}

/-! ## Rules -/

/-- What holds if `x` returns. -/
abbrev Gives {α : Type} (x : Code α) (m : Guarded) (Q : α → Guarded → Prop) : Prop :=
  x.wp (fun _ => True) Q m

section

variable {α β : Type} {Q : α → Guarded → Prop} {g : Unit → Code α}

theorem Gives.mono {R : α → Guarded → Prop} {x : Code α} (h : Gives x m R)
    (hf : ∀ a m', R a m' → Q a m') : Gives x m Q := Exec.wp_mono h (fun _ => id) hf

theorem gives_bind {x : Code β} {f : β → Code α} {R : β → Guarded → Prop} (h : Gives x m R)
    (hf : ∀ b m', R b m' → Gives (f b) m' Q) : Gives (x >>= f) m Q :=
  (Exec.wp_bind x f).mpr (h.mono hf)

theorem gives_gets {f : Guarded → β} {g : β → Code α} (h : Gives (g (f m)) m Q) :
    Gives (Exec.gets f >>= g) m Q := h

theorem gives_modify {f : Guarded → Guarded} (h : Gives (g ()) (f m) Q) :
    Gives (Exec.modify f >>= g) m Q := h

theorem gives_update {f : State → State} (h : Gives (g ()) { m with vm := f m.vm } Q) :
    Gives (update f >>= g) m Q := h

theorem gives_orPanic {x : Option β} {f : β → Code α} (h : ∀ b, x = some b → Gives (f b) m Q) :
    Gives (orPanic x >>= f) m Q := by
  cases x with
  | none => trivial
  | some b => exact h b rfl

theorem gives_acquire_init
    (h : l ∉ m.held → m.garbage l = false → Gives (g ()) { m with held := l :: m.held } Q) :
    Gives (lockAcquire l >>= g) m Q := by
  refine (Exec.wp_bind _ _).mpr ?_
  rw [lockAcquire, Exec.wp_bind, Exec.wp_gets, Exec.wp_ite]
  refine ⟨fun _ => trivial, fun hfree => ?_⟩
  rw [Exec.wp_ite]
  exact ⟨fun _ => trivial, fun hinit => h hfree (Bool.eq_false_iff.mpr hinit)⟩

theorem gives_acquire (h : l ∉ m.held → Gives (g ()) { m with held := l :: m.held } Q) :
    Gives (lockAcquire l >>= g) m Q := gives_acquire_init fun hfree _ => h hfree

theorem gives_release (h : Gives (g ()) { m with held := m.held.erase l } Q) :
    Gives (lockRelease l >>= g) m Q := by
  refine (Exec.wp_bind _ _).mpr ?_
  rw [lockRelease, Exec.wp_bind, Exec.wp_gets, Exec.wp_ite]
  exact ⟨fun _ => h, fun _ => trivial⟩

/-- Locks are released in the order in which they were taken. -/
theorem gives_release_cons {held : List Lock} {garbage : Lock → Bool}
    (h : Gives (g ()) ⟨s, held, garbage⟩ Q) :
    Gives (lockRelease l >>= g) ⟨s, l :: held, garbage⟩ Q := by
  refine gives_release ?_
  rw [List.erase_cons_head]
  exact h

theorem gives_release_last {held : List Lock} {garbage : Lock → Bool}
    {Q : Unit → Guarded → Prop} (h : Q () ⟨s, held, garbage⟩) :
    Gives (lockRelease l) ⟨s, l :: held, garbage⟩ Q :=
  (Exec.wp_bind (lockRelease l) pure).mp (gives_release_cons h)

theorem gives_ite {c : Prop} [Decidable c] {x y : Code α} (hx : c → Gives x m Q)
    (hy : ¬ c → Gives y m Q) : Gives (if c then x else y) m Q := by
  split
  · next hc => exact hx hc
  · next hc => exact hy hc

end

/-! ## Frames -/

theorem gives_findUnaccessedPage (search : List FrameTabEntry) : ∀ m : Guarded,
    Gives (findUnaccessedPage cur search) m fun f m' =>
      State.findUnaccessedPage cur search m.vm = (f, m'.vm) ∧ m' = { m with vm := m'.vm } := by
  induction search with
  | nil => exact fun m => ⟨rfl, rfl⟩
  | cons f search ih =>
    intro m
    rw [findUnaccessedPage, State.findUnaccessedPage]
    refine gives_acquire fun _ => gives_gets (gives_ite (fun haccessed => ?_) fun haccessed => ?_)
    · refine gives_release_cons ⟨?_, rfl⟩
      exact if_neg (by simpa using haccessed)
    · refine gives_update (gives_release_cons ((ih _).mono fun f' m' h => ?_))
      rw [if_pos (by simpa using haccessed)]
      exact h

theorem gives_findLongestTimePage (search : List FrameTabEntry) :
    ∀ (first : Option FrameTabEntry) (time : Nat) (m : Guarded),
      Gives (findLongestTimePage search first time) m fun f m' =>
        f = m.vm.findLongestTimePage search first time ∧ m' = m := by
  induction search with
  | nil => exact fun _ _ m => ⟨rfl, rfl⟩
  | cons f search ih =>
    intro first time m
    rw [findLongestTimePage, State.findLongestTimePage]
    refine gives_acquire fun _ => gives_gets (gives_release_cons
      (gives_ite (fun h => ?_) fun h => ?_))
    · rw [if_pos h]
      exact ih _ _ m
    · rw [if_neg h]
      exact ih _ _ m

theorem gives_pageOut (f : FrameTabEntry) (m : Guarded) :
    Gives (pageOut cur f) m fun _ m' =>
      m.vm.pageOut cur f = some m'.vm ∧ m' = { m with vm := m'.vm } := by
  rw [pageOut, State.pageOut]
  refine gives_gets (gives_ite (fun h => ?_) fun h => ?_)
  · rw [if_pos h]
    exact gives_acquire fun _ => gives_orPanic fun s hs =>
      gives_update (gives_release_last ⟨hs, rfl⟩)
  · rw [if_neg h]
    exact gives_orPanic fun r hr => ⟨Option.bind_eq_some_iff.mpr ⟨r, hr, rfl⟩, rfl⟩

/-- `do_evict_frame` does what it does without locks, if it returns. -/
theorem gives_doEvictFrame (q : SptePtr) (f : FrameTabEntry) (m : Guarded) :
    Gives (doEvictFrame o cur q f) m fun k m' => o.frameTabEntry = true ∧
      m.garbage (.spteLock q) = false ∧
      m.vm.doEvictFrame cur q f = some (k, m'.vm) ∧ m' = { m with vm := m'.vm } := by
  rw [doEvictFrame]
  refine gives_acquire fun _ => gives_acquire_init fun _ hinit => gives_gets
    (gives_bind (gives_pageOut f _) ?_)
  rintro _ m₁ ⟨hout, hm₁⟩
  refine gives_gets (gives_ite (fun _ => trivial) fun hlive => gives_update (gives_update
    (gives_ite (fun _ => trivial) fun hentry => gives_update ?_)))
  rw [hm₁]
  have hguard : guard (m₁.vm.thread f.owner).isSome = some () := by
    rw [Option.guard_eq_some']
    simpa [Option.isSome_iff_ne_none] using hlive
  refine gives_release_cons (gives_release_cons ⟨by simpa using hentry, hinit, ?_, rfl⟩)
  exact Option.bind_eq_some_iff.mpr ⟨_, hout, Option.bind_eq_some_iff.mpr ⟨(), hguard, rfl⟩⟩

/-- The eviction of the victim of `try_evict_frame`. -/
theorem gives_evictVictim {f : FrameTabEntry} {m₁ : Guarded} (q : Option SptePtr)
    (hm₁ : m₁ = { m with vm := m₁.vm }) (hvictim : m.vm.victim cur = (some f, m₁.vm)) :
    Gives (do return some (← doEvictFrame o cur (← orPanic q) f)) m₁ fun r m' =>
      m' = { m with vm := m'.vm } ∧ ((r = none ∧ m.vm.victim cur = (none, m'.vm)) ∨
        ∃ q' k, q = some q' ∧ r = some k ∧ o.frameTabEntry = true ∧
          m.garbage (.spteLock q') = false ∧
          m.vm.tryEvictFrame cur q' = some (some k, m'.vm)) := by
  refine gives_orPanic fun q' hq => gives_bind (gives_doEvictFrame q' f m₁) ?_
  rintro k m₂ ⟨hentry, hinit, hevict, hm₂⟩
  refine ⟨?_, .inr ⟨q', k, hq, rfl, hentry, ?_, ?_⟩⟩
  · rw [hm₂, hm₁]
  · rw [hm₁] at hinit
    exact hinit
  · rw [State.tryEvictFrame, hvictim]
    exact Option.map_eq_some_iff.mpr ⟨_, hevict, rfl⟩

/-- `try_evict_frame` does what it does without locks, if it returns. -/
theorem gives_tryEvictFrame (q : Option SptePtr) (m : Guarded) :
    Gives (tryEvictFrame o cur q) m fun r m' =>
      m' = { m with vm := m'.vm } ∧ ((r = none ∧ m.vm.victim cur = (none, m'.vm)) ∨
        ∃ q' k, q = some q' ∧ r = some k ∧ o.frameTabEntry = true ∧
          m.garbage (.spteLock q') = false ∧
          m.vm.tryEvictFrame cur q' = some (some k, m'.vm)) := by
  rw [tryEvictFrame]
  refine gives_gets (gives_bind (gives_findUnaccessedPage _ m) ?_)
  rintro (_ | f) m₁ ⟨hfind, hm₁⟩
  · have htable : m₁.vm.frameTable = m.vm.frameTable :=
      congrArg Placement.frameTable (State.findUnaccessedPage_eq _ _ _ hfind).1
    have hvictim : m.vm.victim cur =
        (m₁.vm.findLongestTimePage m.vm.frameTable none State.int64Max, m₁.vm) := by
      rw [State.victim, hfind, ← htable]
    refine gives_bind (gives_findLongestTimePage _ _ _ m₁) ?_
    rintro (_ | f) _ ⟨hlongest, rfl⟩
    · exact ⟨hm₁, .inl ⟨rfl, hlongest ▸ hvictim⟩⟩
    · exact gives_evictVictim q hm₁ (hlongest ▸ hvictim)
  · refine gives_evictVictim q hm₁ ?_
    rw [State.victim, hfind]

/-- `vm_get_frame` has no frame, or it does what it does without locks and failures. -/
theorem gives_vmGetFrame (q : Option SptePtr) (m : Guarded) :
    Gives (vmGetFrame o cur q) m fun r m' => m' = { m with vm := m'.vm } ∧
      ((r = none ∧ m.vm.pallocGetPage = none ∧ m.vm.victim cur = (none, m'.vm)) ∨
      (r = none ∧ o.frameTabEntry = false ∧ ∃ k, m.vm.pallocGetPage = some (k, m'.vm)) ∨
      ∃ q' k, q = some q' ∧ r = some k ∧ o.frameTabEntry = true ∧
        (m.garbage (.spteLock q') = true → m.vm.evicted cur = none) ∧
        m.vm.vmGetFrame cur q' = some (some k, m'.vm)) := by
  rw [vmGetFrame]
  refine gives_gets ?_
  cases hpage : m.vm.pallocGetPage with
  | none =>
    refine (gives_tryEvictFrame q m).mono ?_
    rintro r m' ⟨hm', ⟨hr, hvictim⟩ | ⟨q', k, hq, hr, hentry, hinit, hevict⟩⟩
    · exact ⟨hm', .inl ⟨hr, rfl, hvictim⟩⟩
    · refine ⟨hm', .inr (.inr ⟨q', k, hq, hr, hentry, fun hc => ?_, ?_⟩)⟩
      · exact absurd (hinit.symm.trans hc) Bool.false_ne_true
      · rw [State.vmGetFrame, hpage]
        exact hevict
  | some r =>
    refine gives_update (gives_ite (fun hentry => ?_) fun hentry => ?_)
    · exact ⟨rfl, .inr (.inl ⟨rfl, by simpa using hentry, r.1, rfl⟩)⟩
    · refine gives_orPanic fun q' hq => gives_acquire fun _ => gives_update (gives_release_cons ?_)
      refine ⟨rfl, .inr (.inr ⟨q', r.1, hq, rfl, by simpa using hentry, fun _ => ?_, ?_⟩)⟩
      · rw [State.evicted, hpage]
      · rw [State.vmGetFrame, hpage]

/-- Code that goes on with the frame, if there is one. -/
theorem gives_frame {α : Type} {x : Option Frame → Code α} {Q : α → Guarded → Prop}
    (hnone : ∀ m', Gives (x none) m' Q)
    (hsome : ∀ k m', m.vm.vmGetFrame cur q = some (some k, m'.vm) → Gives (x (some k)) m' Q) :
    Gives (vmGetFrame o cur (some q) >>= x) m Q := by
  refine gives_bind (gives_vmGetFrame _ m) ?_
  rintro (_ | k) m₁ ⟨-, hcases⟩
  · exact hnone m₁
  obtain ⟨hr, -⟩ | ⟨hr, -⟩ | ⟨_, _, hq, hr, -, -, hget⟩ := hcases
  · cases hr
  · cases hr
  cases hq
  cases hr
  exact hsome k m₁ hget

theorem gives_vmFreeFrame (k : Frame) (m : Guarded) :
    Gives (vmFreeFrame k) m fun _ m' =>
      m.vm.vmFreeFrame (some k) = some m'.vm ∧ m' = { m with vm := m'.vm } := by
  rw [vmFreeFrame]
  exact gives_acquire fun _ => gives_gets (gives_orPanic fun s hs =>
    gives_update (gives_release_last ⟨hs, rfl⟩))

/-- `install_page` fails where the page is there or no page table can be had. -/
theorem gives_installPage (u : Upage) (k : Frame) (w : Bool) (m : Guarded) :
    Gives (installPage o cur u k w) m fun b m' => m' = { m with vm := m'.vm } ∧
      ((b = false ∧ m'.vm = m.vm ∧ (o.pageTable = false ∨ m.vm.pagedirGetPage cur u ≠ none)) ∨
        (b = true ∧ o.pageTable = true ∧ m.vm.pagedirGetPage cur u = none ∧
          m'.vm = m.vm.pagedirSetPage cur u k w)) := by
  rw [installPage]
  refine gives_gets ?_
  cases hpage : m.vm.pagedirGetPage cur u with
  | some _ => exact ⟨rfl, .inl ⟨rfl, rfl, .inr nofun⟩⟩
  | none =>
    refine gives_ite (fun htable => ?_) fun htable => gives_update ?_
    · exact ⟨rfl, .inl ⟨rfl, rfl, .inl (by simpa using htable)⟩⟩
    · exact ⟨rfl, .inr ⟨rfl, by simpa using htable, rfl, rfl⟩⟩

/-! ## The functions without locks -/

theorem installPage_plain {u : Upage} {w b : Bool} (ht : o.pageTable = true)
    (h : (b = false ∧ s' = s ∧ (o.pageTable = false ∨ s.pagedirGetPage cur u ≠ none)) ∨
        (b = true ∧ o.pageTable = true ∧ s.pagedirGetPage cur u = none ∧
          s' = s.pagedirSetPage cur u k w)) : s.installPage cur u k w = (b, s') := by
  rw [State.installPage]
  obtain ⟨rfl, rfl, hwhy⟩ | ⟨rfl, -, hnone, rfl⟩ := h
  · obtain ⟨k', hk'⟩ := Option.ne_none_iff_exists'.mp
      (hwhy.resolve_left fun h => Bool.false_ne_true (h.symm.trans ht))
    rw [hk']
  · rw [hnone]

/-- What is done with the result of `install_page`. -/
theorem installPage_match {α : Type} {f g : State → α} {u : Upage} {w b : Bool}
    (h : s.installPage cur u k w = (b, s')) :
    (match s.installPage cur u k w with | (false, s) => f s | (true, s) => g s) =
      cond b (g s') (f s') := by
  rw [h]
  cases b <;> rfl

theorem gives_pageLoadFile_plain (ht : o.pageTable = true) (q : SptePtr) (m : Guarded) :
    Gives (pageLoadFile o cur q) m fun b m' => m.vm.pageLoadFile cur q = some (b, m'.vm) := by
  rw [pageLoadFile]
  refine gives_frame (fun _ => trivial) fun k m₁ hget => ?_
  rw [State.pageLoadFile, hget]
  refine gives_acquire fun _ => gives_acquire fun _ => gives_gets (gives_update
    (gives_release_cons (gives_ite (fun hread => ?_) fun hread => gives_update ?_)))
  · refine gives_bind (gives_vmFreeFrame k _) ?_
    rintro _ m₂ ⟨hfree, -⟩
    refine Option.bind_eq_some_iff.mpr ⟨_, rfl, ?_⟩
    refine Option.bind_eq_some_iff.mpr ⟨_, rfl, ?_⟩
    refine (if_pos hread).trans ?_
    exact Option.bind_eq_some_iff.mpr ⟨_, hfree, rfl⟩
  · refine gives_bind (gives_installPage _ k _ _) ?_
    rintro b m₂ ⟨-, hinstall⟩
    have hinstall := installPage_plain ht hinstall
    refine gives_ite (fun hb => gives_bind (gives_vmFreeFrame k m₂) ?_) fun hb =>
      gives_update (gives_release ?_)
    · rintro _ m₃ ⟨hfree, -⟩
      obtain rfl : b = false := by simpa using hb
      refine Option.bind_eq_some_iff.mpr ⟨_, rfl, Option.bind_eq_some_iff.mpr ⟨_, rfl, ?_⟩⟩
      refine (if_neg hread).trans ((installPage_match hinstall).trans ?_)
      exact Option.bind_eq_some_iff.mpr ⟨_, hfree, rfl⟩
    · obtain rfl : b = true := by simpa using hb
      refine Option.bind_eq_some_iff.mpr ⟨_, rfl, Option.bind_eq_some_iff.mpr ⟨_, rfl, ?_⟩⟩
      exact (if_neg hread).trans (installPage_match hinstall)

theorem gives_pageLoadSwap_plain (ht : o.pageTable = true) (q : SptePtr) (m : Guarded) :
    Gives (pageLoadSwap o cur q) m fun b m' => m.vm.pageLoadSwap cur q = some (b, m'.vm) := by
  rw [pageLoadSwap]
  refine gives_frame (fun _ => trivial) fun k m₁ hget => ?_
  rw [State.pageLoadSwap, hget]
  refine gives_acquire fun _ => gives_gets (gives_update
    (gives_bind (gives_installPage _ k _ _) ?_))
  rintro b m₂ ⟨-, hinstall⟩
  have hinstall := installPage_plain ht hinstall
  refine gives_ite (fun hb => gives_bind (gives_vmFreeFrame k m₂) ?_) fun hb =>
    gives_update (gives_release ?_)
  · rintro _ m₃ ⟨hfree, -⟩
    obtain rfl : b = false := by simpa using hb
    refine Option.bind_eq_some_iff.mpr ⟨_, rfl, Option.bind_eq_some_iff.mpr ⟨_, rfl, ?_⟩⟩
    exact (installPage_match hinstall).trans (Option.bind_eq_some_iff.mpr ⟨_, hfree, rfl⟩)
  · obtain rfl : b = true := by simpa using hb
    refine Option.bind_eq_some_iff.mpr ⟨_, rfl, Option.bind_eq_some_iff.mpr ⟨_, rfl, ?_⟩⟩
    exact installPage_match hinstall

theorem gives_stackGrow_plain (hspte : o.spte = true) (hentry : o.frameTabEntry = true)
    (ht : o.pageTable = true) (upage : Upage) (m : Guarded) :
    Gives (stackGrow o cur upage) m fun b m' => m.vm.stackGrow cur upage = some (b, m'.vm) := by
  rw [stackGrow, hspte, State.stackGrow]
  refine gives_gets (gives_update (gives_modify (gives_bind (gives_vmGetFrame _ _) ?_)))
  rintro r m₁ ⟨-, ⟨rfl, hpage, hvictim⟩ | ⟨-, hrefused, -⟩ | ⟨_, k, hq, rfl, -, hfree, hget⟩⟩
  · have hfree : m.vm.evicted cur = none := by
      rw [← State.evicted_nextSpte (m.vm.nextSpte + 1), State.evicted, hpage]
      exact congrArg Prod.fst hvictim
    have hget : ({ m.vm with nextSpte := m.vm.nextSpte + 1 } : State).vmGetFrame cur
        m.vm.nextSpte = some (none, m₁.vm) := by
      rw [State.vmGetFrame, hpage]
      dsimp only
      rw [State.tryEvictFrame, hvictim]
    have hguard : (guard (m.vm.evicted cur).isNone : Option Unit) = some () :=
      (Option.guard_eq_some' _).mpr (Option.isNone_iff_eq_none.mpr hfree)
    refine Option.bind_eq_some_iff.mpr ⟨(), hguard, ?_⟩
    exact Option.bind_eq_some_iff.mpr ⟨_, hget, rfl⟩
  · exact absurd (hrefused.symm.trans hentry) Bool.false_ne_true
  · obtain rfl : m.vm.nextSpte = _ := Option.some.inj hq
    have hfree : m.vm.evicted cur = none := by
      rw [← State.evicted_nextSpte (m.vm.nextSpte + 1)]
      exact hfree (Function.update_self ..)
    have hguard : (guard (m.vm.evicted cur).isNone : Option Unit) = some () :=
      (Option.guard_eq_some' _).mpr (Option.isNone_iff_eq_none.mpr hfree)
    refine gives_orPanic fun q hq' => ?_
    obtain rfl : m.vm.nextSpte = q := Option.some.inj hq'
    refine gives_update (gives_modify (gives_bind (gives_installPage upage k true _) ?_))
    rintro b m₂ ⟨-, hinstall⟩
    have hinstall := installPage_plain ht hinstall
    refine gives_ite (fun hb => gives_bind (gives_vmFreeFrame k m₂) ?_) fun hb => gives_gets ?_
    · rintro _ m₃ ⟨hfree, -⟩
      obtain rfl : b = false := by simpa using hb
      refine Option.bind_eq_some_iff.mpr ⟨(), hguard, ?_⟩
      refine Option.bind_eq_some_iff.mpr ⟨_, hget, (installPage_match hinstall).trans ?_⟩
      exact Option.bind_eq_some_iff.mpr ⟨_, hfree, rfl⟩
    · obtain rfl : b = true := by simpa using hb
      cases hlookup : m₂.vm.lookup cur upage with
      | none =>
        refine gives_update (Option.bind_eq_some_iff.mpr ⟨(), hguard, ?_⟩)
        refine Option.bind_eq_some_iff.mpr ⟨_, hget, ?_⟩
        refine (installPage_match hinstall).trans ?_
        dsimp only [cond]
        rw [hlookup]
        rfl
      | some _ =>
        refine gives_bind (gives_vmFreeFrame k m₂) ?_
        rintro _ m₃ ⟨hfree, -⟩
        refine Option.bind_eq_some_iff.mpr ⟨(), hguard, ?_⟩
        refine Option.bind_eq_some_iff.mpr ⟨_, hget, (installPage_match hinstall).trans ?_⟩
        dsimp only [cond]
        rw [hlookup]
        exact Option.bind_eq_some_iff.mpr ⟨_, hfree, rfl⟩

/-- Where no allocation fails, a call that returns does what it does without locks. -/
theorem gives_run (hspte : o.spte = true) (hentry : o.frameTabEntry = true)
    (ht : o.pageTable = true) (f : Loader) (m : Guarded) :
    Gives (f.run o cur) m fun b m' => f.plain cur m.vm = some (b, m'.vm) := by
  cases f with
  | pageLoadFile q => exact gives_pageLoadFile_plain ht q m
  | pageLoadSwap q => exact gives_pageLoadSwap_plain ht q m
  | stackGrow upage => exact gives_stackGrow_plain hspte hentry ht upage m

/-! ## What is asked of a call that fails -/

/-- A call in the state `s` leaves no trace. -/
structure NoTrace (s : State) (m' : Guarded) : Prop where
  held : m'.held = []
  lookup : m'.vm.lookup = s.lookup
  /-- The entries are as before, but for the time stamps that the search for a victim sets. -/
  spte : ∀ q < s.nextSpte,
    m'.vm.spte q = { s.spte q with timestamp := (m'.vm.spte q).timestamp }
  pte : m'.vm.pte = s.pte
  frameTable : m'.vm.frameTable = s.frameTable
  /-- No present page table entry refers to a frame that was given back. -/
  frames : ∀ p u k, m'.vm.pagedirGetPage p u = some k → m'.vm.usedMap k = false →
    s.usedMap k = false ∧ s.pagedirGetPage p u = some k
  swapSlots : ∀ i, s.swapBitmap i = true → m'.vm.swapBitmap i = true

/-- The calls that leave no trace when they fail. -/
def Traceless (o : Outcomes) (cur : Pid) (s : State) : Loader → Prop
  | .pageLoadFile _ => False
  | .pageLoadSwap _ => False
  | .stackGrow upage =>
    if ∃ k < s.poolSize, s.usedMap k = false then
      o.frameTabEntry = false ∨ o.pageTable = false ∨ s.pagedirGetPage cur upage ≠ none
    else (s.victim cur).1 = none

/-! ## Loading a page -/

/-- `page_load_file` keeps `spte_lock` if it fails. -/
theorem gives_pageLoadFile (q : SptePtr) (m : Guarded) :
    Gives (pageLoadFile o cur q) m fun b m' => b = false → .spteLock q ∈ m'.held := by
  rw [pageLoadFile]
  refine gives_frame (fun _ => trivial) fun k m₁ _ => ?_
  refine gives_acquire fun _ => gives_acquire fun _ => gives_gets (gives_update
    (gives_release_cons (gives_ite (fun _ => ?_) fun _ => gives_update ?_)))
  · refine gives_bind (gives_vmFreeFrame k _) ?_
    rintro _ m₂ ⟨-, hm₂⟩ -
    rw [hm₂]
    exact List.mem_cons_self
  · refine gives_bind (gives_installPage _ k _ _) ?_
    rintro b m₂ ⟨hm₂, -⟩
    refine gives_ite (fun _ => gives_bind (gives_vmFreeFrame k m₂) ?_) fun _ =>
      gives_update (gives_release nofun)
    rintro _ m₃ ⟨-, hm₃⟩ -
    rw [hm₃, hm₂]
    exact List.mem_cons_self

/-- So does `page_load_swap`. -/
theorem gives_pageLoadSwap (q : SptePtr) (m : Guarded) :
    Gives (pageLoadSwap o cur q) m fun b m' => b = false → .spteLock q ∈ m'.held := by
  rw [pageLoadSwap]
  refine gives_frame (fun _ => trivial) fun k m₁ _ => ?_
  refine gives_acquire fun _ => gives_gets (gives_update
    (gives_bind (gives_installPage _ k _ _) ?_))
  rintro b m₂ ⟨hm₂, -⟩
  refine gives_ite (fun _ => gives_bind (gives_vmFreeFrame k m₂) ?_) fun _ =>
    gives_update (gives_release nofun)
  rintro _ m₃ ⟨-, hm₃⟩ -
  rw [hm₃, hm₂]
  exact List.mem_cons_self

end Guarded

/-! ## The frame table -/

namespace State

theorem pallocGetPage_eq (h : s.pallocGetPage = some (k, s')) :
    (k < s.poolSize ∧ s.usedMap k = false) ∧
      s' = { s with usedMap := Function.update s.usedMap k true } := by
  obtain ⟨k', hfind, hs⟩ := Option.map_eq_some_iff.mp h
  obtain ⟨rfl, rfl⟩ := Prod.mk.inj hs
  refine ⟨⟨List.mem_range.mp (List.mem_of_find?_eq_some hfind), ?_⟩, rfl⟩
  simpa using List.find?_some hfind

theorem pallocGetPage_none_iff :
    s.pallocGetPage = none ↔ ¬ ∃ k < s.poolSize, s.usedMap k = false := by
  rw [pallocGetPage, Option.map_eq_none_iff, List.find?_eq_none]
  simp

theorem live_pagedirSetPage {p : Pid} {w : Bool}
    (h : (s.pagedirSetPage p upage k w).placement.live p = true) : s.placement.live p = true := by
  cases hlive : s.thread p with
  | none =>
    rw [pagedirSetPage, setPte, setThread_of_none hlive] at h
    exact h
  | some t => exact congrArg Option.isSome hlive

/-- A frame that was just taken from the pool goes back there. -/
theorem vmFreeFrame_pushed {p : Pid} {table : List FrameTabEntry}
    (htable : s.frameTable = ⟨k, q, p⟩ :: table) (hused : s.usedMap k = true) :
    s.vmFreeFrame (some k) = some { s.setMemory k (Bytes.tabulate fun _ => 0xcc) with
      frameTable := table
      usedMap := Function.update s.usedMap k false } := by
  rw [vmFreeFrame, Option.bind_some, htable, List.find?_cons_of_pos (by simp)]
  dsimp only
  rw [pallocFreePage, if_pos hused, List.erase_cons_head]
  rfl

end State

namespace Guarded

variable {o : Outcomes} {m m' : Guarded} {garbage : Lock → Bool}

/-! ## Growing the stack -/

theorem noTrace_of_thread (hheld : m'.held = []) (hthread : m'.vm.thread = s.thread)
    (htable : m'.vm.frameTable = s.frameTable) (hswap : m'.vm.swapBitmap = s.swapBitmap)
    (hused : ∀ k, m'.vm.usedMap k = false → s.usedMap k = false)
    (hspte : ∀ q < s.nextSpte,
      m'.vm.spte q = { s.spte q with timestamp := (m'.vm.spte q).timestamp }) : NoTrace s m' := by
  have hlookup : m'.vm.lookup = s.lookup := by
    funext p u
    rw [State.lookup, State.lookup, hthread]
  have hpte : m'.vm.pte = s.pte := by
    funext p u
    rw [State.pte, State.pte, hthread]
  refine ⟨hheld, hlookup, hspte, hpte, htable, fun p u k hk hfree => ⟨hused k hfree, ?_⟩, ?_⟩
  · rw [State.pagedirGetPage, hpte] at hk
    exact hk
  · rw [hswap]
    exact fun _ => id

/-- Without a frame only time stamps change, and a page of the user pool is lost. -/
theorem noTrace_of_none (cur : Pid) (hm : m'.held = []) (h :
    ({ s with nextSpte := s.nextSpte + 1 }.victim cur = (none, m'.vm)) ∨
      ∃ k, { s with nextSpte := s.nextSpte + 1 }.pallocGetPage = some (k, m'.vm)) :
    NoTrace s m' := by
  obtain hvictim | ⟨k, hpage⟩ := h
  · obtain ⟨hvm, hspte⟩ := State.victim_stamps hvictim
    generalize m'.vm.spte = spte at hvm hspte
    refine noTrace_of_thread hm ?_ ?_ ?_ ?_ ?_
    all_goals rw [hvm]
    · exact fun _ => id
    · exact fun q _ => hspte q
  · obtain ⟨-, hvm⟩ := State.pallocGetPage_eq hpage
    refine noTrace_of_thread hm ?_ ?_ ?_ ?_ ?_
    all_goals rw [hvm]
    · intro k' hfree
      by_cases hk : k' = k
      · subst hk
        simp at hfree
      · simpa only [Function.update_of_ne hk] using hfree
    · exact fun _ _ => rfl

/-- A frame that was taken from the pool for a page that cannot be installed leaves no trace. -/
theorem noTrace_of_pushed {g : SupplPageTableEntry → SupplPageTableEntry} (hm : m'.held = [])
    (hget : ({ s with nextSpte := s.nextSpte + 1 } : State).pallocGetPage = some (k, s'))
    (hfree : (State.setSpte { s' with frameTable := ⟨k, s.nextSpte, cur⟩ :: s'.frameTable }
      s.nextSpte g).vmFreeFrame (some k) = some m'.vm) : NoTrace s m' := by
  obtain ⟨⟨-, hunused⟩, rfl⟩ := State.pallocGetPage_eq hget
  rw [State.vmFreeFrame_pushed rfl (Function.update_self ..)] at hfree
  have hvm := (Option.some.inj hfree).symm
  refine noTrace_of_thread hm ?_ ?_ ?_ ?_ ?_
  all_goals rw [hvm]
  · rfl
  · rfl
  · intro k' hk'
    by_cases hk : k' = k
    · exact hk ▸ hunused
    · simpa only [Function.update_of_ne hk, State.setSpte] using hk'
  · intro q hq
    simp only [State.setMemory, State.setSpte, Function.update_of_ne (Nat.ne_of_lt hq)]

/-- Without an eviction `vm_get_frame` takes a frame from the pool. -/
theorem vmGetFrame_pool (hfree : s.evicted cur = none)
    (h : s.vmGetFrame cur q = some (some k, s')) :
    ∃ s₁, s.pallocGetPage = some (k, s₁) ∧
      s' = { s₁ with frameTable := ⟨k, q, cur⟩ :: s₁.frameTable } := by
  rw [State.vmGetFrame] at h
  cases hpage : s.pallocGetPage with
  | none =>
    rw [State.evicted, hpage] at hfree
    rw [hpage] at h
    dsimp only at h
    rw [State.tryEvictFrame] at h
    split at h
    · next hvictim =>
      rw [hvictim] at hfree
      cases hfree
    · cases (Prod.mk.inj (Option.some.inj h)).1
  | some r =>
    rw [hpage] at h
    cases h
    exact ⟨r.2, rfl, rfl⟩

theorem frame_vmFreeFrame (h : s.vmFreeFrame (some k) = some s') :
    s'.pagedirGetPage = s.pagedirGetPage := by
  obtain ⟨hp, -⟩ | ⟨f, -, -, hp⟩ := State.vmFreeFrame_some h
  · exact congrArg Placement.frame hp
  · exact congrArg Placement.frame hp

section

variable {s₁ : State} {g : SupplPageTableEntry → SupplPageTableEntry}

/-- `stack_grow` cannot install its page. -/
theorem noTrace_iff_refused {s₂ : State}
    (hpage : ({ s with nextSpte := s.nextSpte + 1 } : State).pallocGetPage = some (k, s₂))
    (hs₁ : s₁ = { s₂ with frameTable := ⟨k, s.nextSpte, cur⟩ :: s₂.frameTable })
    (hheld : m'.held = []) (hwhy : o.pageTable = false ∨ s₁.pagedirGetPage cur upage ≠ none)
    (hfree : (s₁.setSpte s.nextSpte g).vmFreeFrame (some k) = some m'.vm) :
    NoTrace s m' ↔ Traceless o cur s (.stackGrow upage) := by
  obtain ⟨hpool, hs₂⟩ := State.pallocGetPage_eq hpage
  rw [hs₁] at hfree
  refine iff_of_true (noTrace_of_pushed hheld hpage hfree) ?_
  rw [Traceless, if_pos ⟨k, hpool⟩]
  rw [hs₁, hs₂] at hwhy
  exact .inr hwhy

/-- `stack_grow` has installed its page and finds that it has an entry already. -/
theorem noTrace_iff_duplicate {s₂ : State}
    (hpage : ({ s with nextSpte := s.nextSpte + 1 } : State).pallocGetPage = some (k, s₂))
    (hs₁ : s₁ = { s₂ with frameTable := ⟨k, s.nextSpte, cur⟩ :: s₂.frameTable })
    (hentry : o.frameTabEntry = true) (htable : o.pageTable = true)
    (hunmapped : s₁.pagedirGetPage cur upage = none)
    (hlookup : ((s₁.setSpte s.nextSpte g).pagedirSetPage cur upage k true).lookup cur upage =
      some q)
    (hfree : ((s₁.setSpte s.nextSpte g).pagedirSetPage cur upage k true).vmFreeFrame (some k) =
      some m'.vm) :
    NoTrace s m' ↔ Traceless o cur s (.stackGrow upage) := by
  obtain ⟨hpool, hs₂⟩ := State.pallocGetPage_eq hpage
  have hunmapped : s.pagedirGetPage cur upage = none := by
    rw [hs₁, hs₂] at hunmapped
    exact hunmapped
  have hlive := State.live_of_lookup hlookup
  have hpte : ((s₁.setSpte s.nextSpte g).pagedirSetPage cur upage k true).pte cur upage =
      { frame := k, present := true, writable := true } :=
    State.pte_pagedirSetPage (State.live_pagedirSetPage hlive)
  refine iff_of_false (fun h => ?_) ?_
  · have hpresent := (congrFun₂ (frame_vmFreeFrame hfree) cur upage).trans
      (State.frame_eq_some.mpr ⟨congrArg Pte.present hpte, congrArg Pte.frame hpte⟩)
    rw [State.pagedirGetPage, h.pte] at hpresent
    exact Option.some_ne_none k (hpresent.symm.trans hunmapped)
  · rw [Traceless, if_pos ⟨k, hpool⟩, hentry, htable, hunmapped]
    simp

end

theorem gives_stackGrow (upage : Upage) (s : State) (garbage : Lock → Bool) :
    Gives (stackGrow o cur upage) ⟨s, [], garbage⟩ fun b m' =>
      b = false → (NoTrace s m' ↔ Traceless o cur s (.stackGrow upage)) := by
  rw [stackGrow]
  refine gives_gets (gives_update (gives_modify (gives_bind (gives_vmGetFrame _ _) ?_)))
  rintro r m₁ ⟨hm₁, hcases⟩
  have hheld₁ : m₁.held = [] := by rw [hm₁]
  obtain ⟨rfl, hpage, hvictim⟩ | ⟨rfl, hentry, k, hpage⟩ |
    ⟨q, k, hq, rfl, hentry, hfree, hget⟩ := hcases
  · refine fun _ => iff_of_true (noTrace_of_none cur hheld₁ (.inl hvictim)) ?_
    rw [Traceless, if_neg (State.pallocGetPage_none_iff.mp hpage),
      ← State.victim_nextSpte (s.nextSpte + 1), hvictim]
  · refine fun _ => iff_of_true (noTrace_of_none cur hheld₁ (.inr ⟨k, hpage⟩)) ?_
    rw [Traceless, if_pos ⟨k, (State.pallocGetPage_eq hpage).1⟩]
    exact .inl hentry
  · obtain rfl : q = s.nextSpte := by
      split at hq
      · exact (Option.some.inj hq).symm
      · cases hq
    obtain ⟨s₂, hpage, hm₁'⟩ := vmGetFrame_pool (hfree (Function.update_self ..)) hget
    refine gives_orPanic fun q hq' => ?_
    obtain rfl : s.nextSpte = q := Option.some.inj (hq.symm.trans hq')
    refine gives_update (gives_modify (gives_bind (gives_installPage upage k true _) ?_))
    rintro b m₃ ⟨hm₃, ⟨rfl, hvm₃, hwhy⟩ | ⟨rfl, htable, hunmapped, hvm₃⟩⟩
    · refine gives_ite (fun _ => gives_bind (gives_vmFreeFrame k m₃) ?_) fun h => absurd rfl h
      rintro _ m₄ ⟨hfree, hm₄⟩ -
      rw [hvm₃] at hfree
      refine noTrace_iff_refused hpage hm₁' ?_ hwhy hfree
      rw [hm₄, hm₃]
      exact hheld₁
    · refine gives_ite (fun h => absurd h Bool.false_ne_true) fun _ => gives_gets ?_
      cases hlookup : m₃.vm.lookup cur upage with
      | none => exact gives_update nofun
      | some q =>
        refine gives_bind (gives_vmFreeFrame k m₃) ?_
        rintro _ m₄ ⟨hfree, -⟩ -
        rw [hvm₃] at hfree hlookup
        exact noTrace_iff_duplicate hpage hm₁' hentry htable hunmapped hlookup hfree

/-- **A call that fails leaves no trace** if and only if it is a call of `stack_grow` that has no
frame, or one from the user pool for a page that cannot be installed. -/
theorem noTrace_iff {f : Loader} (h : f.run o cur ⟨s, [], garbage⟩ = .ok (false, m')) :
    NoTrace s m' ↔ Traceless o cur s f := by
  cases f with
  | pageLoadFile q =>
    have hheld := Exec.wp_ok (gives_pageLoadFile q _) h rfl
    exact iff_of_false (fun hclean => by rw [hclean.held] at hheld; cases hheld) id
  | pageLoadSwap q =>
    have hheld := Exec.wp_ok (gives_pageLoadSwap q _) h rfl
    exact iff_of_false (fun hclean => by rw [hclean.held] at hheld; cases hheld) id
  | stackGrow upage => exact Exec.wp_ok (gives_stackGrow upage s garbage) h rfl

/-- A user pool of two pages, and files of 84 bytes. -/
def shortVm : State :=
  State.init (fun _ => ⟨0, .file, 0, 0, 0, 0, false, false, 0, 0⟩) 2 (fun _ => Bytes.zeros) 1
    (fun _ => Bytes.zeros) (fun _ => ⟨fun _ => 0, 84, 0⟩) 0

/-- A process with a page in memory. -/
def onePage : State :=
  { shortVm with
    thread := fun p => if p = 0 then
      some { pagedir := AList.insert 7 { frame := 3, present := true } ∅ } else none }

/-- No allocation fails. -/
def plenty : Outcomes := ⟨true, true, true⟩

theorem noTrace_mapped : ∃ m', (Loader.stackGrow 7).run plenty 0 ⟨onePage, [], fun _ => false⟩ =
    .ok (false, m') ∧ NoTrace onePage m' := by
  have hrun : ∃ m', (Loader.stackGrow 7).run plenty 0 ⟨onePage, [], fun _ => false⟩ =
    .ok (false, m') := ⟨_, rfl⟩
  obtain ⟨m', hrun⟩ := hrun
  refine ⟨m', hrun, (noTrace_iff hrun).mpr ?_⟩
  rw [Traceless, if_pos ⟨0, Nat.two_pos, rfl⟩]
  exact .inr (.inr nofun)

/-- A process whose program has a segment of 100 bytes from the start of its file on. -/
def pastEnd : State := (shortVm.startProcess 0 0 [⟨0, 0x5000, 100, 100, true⟩]).getD shortVm

/-- A short read keeps the lock of the page. -/
theorem trace_shortRead : ∃ q m', pastEnd.lookup 0 5 = some q ∧
    (Loader.pageLoadFile q).run plenty 0 ⟨pastEnd, [], fun _ => false⟩ = .ok (false, m') ∧
      ¬ NoTrace pastEnd m' := by
  have hrun : ∃ m', (Loader.pageLoadFile 0).run plenty 0 ⟨pastEnd, [], fun _ => false⟩ =
    .ok (false, m') ∧ m'.held = [.spteLock 0] := ⟨_, rfl, rfl⟩
  obtain ⟨m', hrun, hheld⟩ := hrun
  refine ⟨0, m', by decide +kernel, hrun, fun h => ?_⟩
  rw [h.held] at hheld
  cases hheld

end Guarded

end Pintos.Vm
