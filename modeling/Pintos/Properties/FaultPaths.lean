import Pintos.Properties.Placement

/-!
# The two handlers of page faults

`read_buf_page_fault_handler` repeats what `page_fault` does for an access by the user. It leaves
out the test of `STACK_LIMIT`, and takes `esp` from the last system call of any thread. Where the
tests of the two for the growth of the stack give the same answer they do the same, and the stack
stays where it should.
-/

namespace Pintos.Vm

open Pintos.Logic Placement

variable {s s' : State} {cur p : Pid} {u : Upage} {q : SptePtr} {faultAddr esp globalEsp : Nat}

namespace State

/-! ## When there is no frame -/

/-- The user pool is used up, and nothing can be evicted. -/
def NoFrame (s : State) (cur : Pid) : Prop :=
  (∀ k < s.poolSize, s.usedMap k = true) ∧
    ∀ f ∈ s.frameTable, s.pagedirIsAccessed cur (s.spte f.spte).addr = true ∧ int64Max ≤ s.ticks

instance (s : State) (cur : Pid) : Decidable (s.NoFrame cur) :=
  inferInstanceAs (Decidable ((∀ k < s.poolSize, _) ∧ ∀ f ∈ s.frameTable, _))

/-- A search that does not find a page that was not accessed gives every entry the time of now. -/
theorem findUnaccessedPage_none (l : List FrameTabEntry) :
    ∀ s s' : State, findUnaccessedPage cur l s = (none, s') → s'.ticks = s.ticks ∧
      s'.thread = s.thread ∧
      (∀ q, (s.spte q).timestamp = s.ticks → (s'.spte q).timestamp = s.ticks) ∧
      ∀ f ∈ l, s.pagedirIsAccessed cur (s.spte f.spte).addr = true ∧
        (s'.spte f.spte).timestamp = s.ticks := by
  induction l with
  | nil =>
    intro s s' h
    obtain ⟨-, rfl⟩ := Prod.mk.inj h
    exact ⟨rfl, rfl, fun _ h => h, nofun⟩
  | cons f l ih =>
    intro s s' h
    unfold findUnaccessedPage at h
    split at h
    · next hacc =>
      obtain ⟨hticks, hthread, hkeep, hall⟩ := ih _ _ h
      have hstamp : ∀ q, (s.spte q).timestamp = s.ticks ∨ q = f.spte →
          ((s.setSpte f.spte fun e => { e with timestamp := s.ticks }).spte q).timestamp =
            s.ticks := by
        rintro q hq
        by_cases hf : q = f.spte
        · subst hf
          simp only [setSpte, Function.update_self]
        · simp only [setSpte, Function.update_of_ne hf]
          exact hq.resolve_right hf
      have haddr : ∀ q, ((s.setSpte f.spte fun e => { e with timestamp := s.ticks }).spte q).addr =
          (s.spte q).addr := by
        intro q
        by_cases hf : q = f.spte
        · subst hf
          simp only [setSpte, Function.update_self]
        · simp only [setSpte, Function.update_of_ne hf]
      refine ⟨hticks, hthread, fun q hq => hkeep q (hstamp q (.inl hq)), fun g hg => ?_⟩
      rcases List.mem_cons.mp hg with rfl | hg
      · exact ⟨hacc, hkeep _ (hstamp _ (.inr rfl))⟩
      · obtain ⟨hacc', htime⟩ := hall g hg
        rw [haddr] at hacc'
        exact ⟨hacc', htime⟩
    · cases (Prod.mk.inj h).1

theorem findUnaccessedPage_some {f : FrameTabEntry} (l : List FrameTabEntry) :
    ∀ s s' : State, findUnaccessedPage cur l s = (some f, s') →
      ∃ g ∈ l, s.pagedirIsAccessed cur (s.spte g.spte).addr ≠ true := by
  induction l with
  | nil => exact fun s s' h => nomatch (Prod.mk.inj h).1
  | cons g l ih =>
    intro s s' h
    unfold findUnaccessedPage at h
    split at h
    · obtain ⟨x, hx, hacc⟩ := ih _ _ h
      refine ⟨x, List.mem_cons_of_mem g hx, fun hc => hacc ?_⟩
      have haddr : ((s.setSpte g.spte fun e => { e with timestamp := s.ticks }).spte x.spte).addr =
          (s.spte x.spte).addr := by
        by_cases hf : x.spte = g.spte
        · rw [hf]
          simp only [setSpte, Function.update_self]
        · simp only [setSpte, Function.update_of_ne hf]
      rw [haddr]
      exact hc
    · next hacc => exact ⟨g, List.mem_cons_self, hacc⟩

theorem findLongestTimePage_none (l : List FrameTabEntry) (time : Nat) :
    s.findLongestTimePage l none time = none ↔
      ∀ f ∈ l, time ≤ (s.spte f.spte).timestamp := by
  have hsome : ∀ (l : List FrameTabEntry) (first : FrameTabEntry) (time : Nat),
      s.findLongestTimePage l (some first) time ≠ none := by
    intro l
    induction l with
    | nil => exact fun first _ => Option.some_ne_none first
    | cons f l ih =>
      intro first time
      unfold findLongestTimePage
      split
      · exact ih _ _
      · exact ih _ _
  induction l with
  | nil => exact ⟨fun _ => List.forall_mem_nil _, fun _ => rfl⟩
  | cons f l ih =>
    unfold findLongestTimePage
    rw [List.forall_mem_cons]
    split
    · next hlt => exact ⟨fun h => absurd h (hsome l _ _), fun h => absurd h.1 (Nat.not_le.mpr hlt)⟩
    · next hlt =>
      exact ih.trans ⟨fun h => ⟨Nat.not_lt.mp hlt, h⟩, And.right⟩

theorem victim_none : (s.victim cur).1 = none ↔
    ∀ f ∈ s.frameTable, s.pagedirIsAccessed cur (s.spte f.spte).addr = true ∧
      int64Max ≤ s.ticks := by
  unfold victim
  split
  · next f s₁ hf =>
    obtain ⟨g, hg, hacc⟩ := findUnaccessedPage_some _ _ _ hf
    exact ⟨nofun, fun h => absurd (h g hg).1 hacc⟩
  · next s₁ hf =>
    obtain ⟨hticks, -, -, hall⟩ := findUnaccessedPage_none _ _ _ hf
    obtain ⟨hp, -⟩ := findUnaccessedPage_eq _ _ _ hf
    have htable : s₁.frameTable = s.frameTable := congrArg (·.frameTable) hp
    dsimp only
    rw [findLongestTimePage_none, htable]
    refine forall₂_congr fun f hf => ?_
    obtain ⟨hacc, htime⟩ := hall f hf
    rw [htime]
    exact (and_iff_right hacc).symm

theorem pallocGetPage_none : s.pallocGetPage = none ↔ ∀ k < s.poolSize, s.usedMap k = true := by
  unfold pallocGetPage
  rw [Option.map_eq_none_iff, List.find?_eq_none]
  refine forall_congr' fun k => ?_
  rw [List.mem_range]
  simp only [Bool.not_eq_true', Bool.not_eq_false]

theorem NoFrame.evicted (h : s.NoFrame cur) : s.evicted cur = none := by
  unfold State.evicted
  split
  · exact victim_none.mpr h.2
  · rfl

/-- `vm_get_frame` gives no frame if there is none. -/
theorem vmGetFrame_noFrame (h : s.NoFrame cur) :
    ∃ s', s.vmGetFrame cur q = some (none, s') ∧ s'.thread = s.thread := by
  have hv := victim_none.mpr h.2
  unfold vmGetFrame
  rw [pallocGetPage_none.mpr h.1]
  unfold tryEvictFrame
  dsimp only
  split
  · next f s₁ hf =>
    rw [hf] at hv
    cases hv
  · next s₁ hf =>
    refine ⟨s₁, rfl, ?_⟩
    unfold victim at hf
    split at hf
    · cases (Prod.mk.inj hf).1
    · next s₂ hs₂ =>
      obtain ⟨-, rfl⟩ := Prod.mk.inj hf
      exact (findUnaccessedPage_none _ _ _ hs₂).2.1

theorem noFrame_of_vmGetFrame (h : s.vmGetFrame cur q = some (none, s')) : s.NoFrame cur := by
  unfold vmGetFrame at h
  split at h
  · next hfull =>
    refine ⟨pallocGetPage_none.mp hfull, victim_none.mp ?_⟩
    unfold tryEvictFrame at h
    split at h
    · obtain ⟨⟨k, s₂⟩, -, hs⟩ := Option.map_eq_some_iff.mp h
      cases (Prod.mk.inj hs).1
    · next s₁ hv => rw [hv]
  · cases (Prod.mk.inj (Option.some.inj h)).1

/-! ## What the handlers do to the tables -/

/-- `stack_grow` fails only without a frame. Else the page is there. -/
theorem stackGrow_cases {b : Bool} (hlive : s.placement.live cur = true)
    (hl : s.lookup cur u = none) (hk : s.pagedirGetPage cur u = none)
    (h : s.stackGrow cur u = some (b, s')) :
    (s.NoFrame cur ∧ b = false ∧ s'.placement.lookup = s.placement.lookup ∧
        s'.placement.entry = s.placement.entry ∧ s'.thread = s.thread) ∨
      (¬s.NoFrame cur ∧ b = true ∧
        s'.placement.lookup = setPage s.placement.lookup cur u (some s.nextSpte)) := by
  obtain ⟨-, frame, s₁, hget, hgrow⟩ := stackGrow_some h
  have hno : ({ s with nextSpte := s.nextSpte + 1 } : State).NoFrame cur ↔ s.NoFrame cur := Iff.rfl
  rcases hgrow with ⟨rfl, rfl, rfl⟩ | ⟨k, rfl, -, hgrow⟩
  · have hnone := hno.mp (noFrame_of_vmGetFrame hget)
    obtain ⟨s₂, hget', hthread⟩ := vmGetFrame_noFrame (q := s.nextSpte) (hno.mpr hnone)
    rw [hget] at hget'
    cases hget'
    have hp := vmGetFrame_none hget
    exact .inl ⟨hnone, rfl, congrArg (·.lookup) hp, congrArg (·.entry) hp, hthread⟩
  · obtain ⟨hlookup, hlives, hframe⟩ := vmGetFrame_tables hget
    obtain ⟨hb, hp⟩ := hgrow (hframe cur u hk) ((congrFun₂ hlookup cur u).trans hl)
      ((congrFun hlives cur).trans hlive)
    refine .inr ⟨fun hnone => ?_, hb, ?_⟩
    · obtain ⟨s₂, hget', -⟩ := vmGetFrame_noFrame (q := s.nextSpte) (hno.mpr hnone)
      rw [hget] at hget'
      cases hget'
    · rw [hp]
      exact congrArg (fun f => setPage f cur u (some s.nextSpte)) hlookup

theorem lookup_orExit (r : Bool × State) : (orExit p r).lookup = r.2.lookup :=
  congrArg (·.lookup) (placement_orExit r)

/-- A handler makes no entry but the one of the page that the stack grows by. -/
theorem lookup_bringIn {grow : Bool} (hlive : s.placement.live cur = true)
    (hk : s.pagedirGetPage cur u = none) (h : s.bringIn cur u grow = some s') :
    s'.lookup = s.lookup ∨
      (grow = true ∧ s'.lookup = setPage s.lookup cur u (some s.nextSpte)) := by
  unfold bringIn at h
  split at h
  · next q hl =>
    obtain ⟨⟨b, s₁⟩, hload, rfl⟩ := Option.map_eq_some_iff.mp h
    rw [lookup_orExit]
    split at hload
    · exact .inl (lookup_pageLoadSwap hl hload)
    · exact .inl (lookup_pageLoadFile hl hload)
  · next hl =>
    split at h
    · next hgrow =>
      obtain ⟨⟨b, s₁⟩, hload, rfl⟩ := Option.map_eq_some_iff.mp h
      rw [lookup_orExit]
      rcases stackGrow_cases hlive hl hk hload with ⟨-, -, hlookup, -⟩ | ⟨-, -, hlookup⟩
      · exact .inl hlookup
      · exact .inr ⟨hgrow, hlookup⟩
    · rw [← Option.some.inj h, lookup_orExit]
      exact .inl rfl

/-! ## Agreement -/

/-- What an access leaves behind for the processes: who is about to exit, the page directories, and
the entries of the pages. -/
def observe (s : State) : (Pid → Option Thread) × (Pid → Upage → Option Entry) :=
  (s.thread, fun p u => (s.lookup p u).map fun q => (s.spte q).entry)

/-- Two accesses end alike. -/
def Alike (r r' : Option State) : Prop := r.map observe = r'.map observe

/-- The pages that an access adds to those of `s` are in the stack. -/
def GrowsInStack (s : State) (r : Option State) : Prop :=
  ∀ s', r = some s' → ∀ p u, s.lookup p u = none → s'.lookup p u ≠ none →
    physBase - stackLimit ≤ u * pgsize ∧ u * pgsize < physBase

/-- The two handlers have no reason to differ. -/
def TestsAgree (s : State) (cur : Pid) (faultAddr esp globalEsp : Nat) : Prop :=
  faultAddr = 0 ∨ physBase ≤ faultAddr ∨ (s.lookup cur (faultAddr / pgsize)).isSome ∨
    ((physBase - stackLimit ≤ faultAddr ∧ nearStack faultAddr esp) ↔
      nearStack faultAddr globalEsp) ∨ s.NoFrame cur

instance (s : State) (cur : Pid) (faultAddr esp globalEsp : Nat) :
    Decidable (s.TestsAgree cur faultAddr esp globalEsp) :=
  inferInstanceAs (Decidable (_ ∨ _ ∨ _ ∨ (_ ↔ _) ∨ _))

/-- The page of an address in the stack is in the stack. -/
theorem page_in_stack (hle : physBase - stackLimit ≤ faultAddr) (hlt : faultAddr < physBase) :
    physBase - stackLimit ≤ faultAddr / pgsize * pgsize ∧ faultAddr / pgsize * pgsize < physBase := by
  simp only [physBase, stackLimit, pgsize] at *
  omega

theorem bringIn_growsInStack {grow : Bool} (hlive : s.placement.live cur = true)
    (hk : s.pagedirGetPage cur (faultAddr / pgsize) = none) (hlt : faultAddr < physBase)
    (hgrow : grow = true → physBase - stackLimit ≤ faultAddr) :
    GrowsInStack s (s.bringIn cur (faultAddr / pgsize) grow) := by
  intro s' hs p u hnone hnew
  rcases lookup_bringIn hlive hk hs with hsame | ⟨hg, hset⟩
  · rw [hsame] at hnew
    exact absurd hnone hnew
  · by_cases hpage : p = cur ∧ u = faultAddr / pgsize
    · rw [hpage.2]
      exact page_in_stack (hgrow hg) hlt
    · rw [hset, setPage_of_ne hpage] at hnew
      exact absurd hnone hnew

theorem observe_orExit {s₁ : State} (hthread : s₁.thread = s.thread)
    (hentry : s₁.placement.entry = s.placement.entry) :
    observe (orExit cur (false, s₁)) = observe (orExit cur (false, s)) := by
  have hexit : (orExit cur (false, s₁)).thread = (orExit cur (false, s)).thread := by
    simp only [orExit, setThread, hthread]
  refine Prod.ext hexit ?_
  funext p u
  have hlookup : (orExit cur (false, s₁)).lookup p u = (orExit cur (false, s)).lookup p u := by
    simp only [lookup, hexit]
  simp only [observe, hlookup]
  exact congrArg (Option.map · _) hentry

theorem GrowsInStack.of_alike {r r' : Option State} (h : GrowsInStack s r) (ha : Alike r r') :
    GrowsInStack s r' := by
  intro s' hs p u hnone hnew
  unfold Alike at ha
  rw [hs, Option.map_some, Option.map_eq_some_iff] at ha
  obtain ⟨s₁, hs₁, hobs⟩ := ha
  refine h s₁ hs₁ p u hnone ?_
  have hthread : s₁.thread = s'.thread := congrArg Prod.fst hobs
  rwa [lookup, hthread]

/-- Without a frame a growth of the stack ends like a refusal. -/
theorem bringIn_noFrame (hl : s.lookup cur u = none) (hno : s.NoFrame cur) (grow : Bool) :
    Alike (s.bringIn cur u grow) (some (orExit cur (false, s))) := by
  unfold bringIn
  simp only [hl]
  cases grow with
  | false => exact rfl
  | true =>
    have hno' : ({ s with nextSpte := s.nextSpte + 1 } : State).NoFrame cur := hno
    obtain ⟨s₁, hget, hthread⟩ := vmGetFrame_noFrame (q := s.nextSpte) hno'
    have hfail : s.stackGrow cur u = some (false, s₁) := by
      simp only [stackGrow, hno.evicted, Option.isNone_none, guard, if_true, hget, Option.pure_def, Option.bind_eq_bind,
        Option.bind_some]
    simp only [if_true, hfail, Option.map_some]
    have hp := vmGetFrame_none hget
    exact congrArg some (observe_orExit hthread (congrArg (·.entry) hp))

/-- Where the stack can grow by a page, a growth does not end like a refusal. -/
theorem bringIn_grows (hlive : s.placement.live cur = true) (hl : s.lookup cur u = none)
    (hk : s.pagedirGetPage cur u = none) (hno : ¬s.NoFrame cur) :
    ¬Alike (s.bringIn cur u true) (some (orExit cur (false, s))) := by
  unfold bringIn
  simp only [hl, if_true]
  intro halike
  unfold Alike at halike
  rw [Option.map_some, Option.map_eq_some_iff] at halike
  obtain ⟨s₁, hs₁, hobs⟩ := halike
  obtain ⟨⟨b, s₂⟩, hgrow, rfl⟩ := Option.map_eq_some_iff.mp hs₁
  rcases stackGrow_cases hlive hl hk hgrow with ⟨hc, -⟩ | ⟨-, -, hlookup⟩
  · exact hno hc
  -- Only one of the two has an entry for the page.
  have hnew : s₂.lookup cur u = some s.nextSpte := (congrFun₂ hlookup cur u).trans setPage_self
  have hpage := congrFun₂ (congrArg Prod.snd hobs) cur u
  simp only [observe, lookup_orExit, hnew, hl, Option.map_some, Option.map_none,
    reduceCtorEq] at hpage

/-- The handlers agree where their tests do, and nowhere else. -/
theorem bringIn_alike {grow grow' : Bool} (hlive : s.placement.live cur = true)
    (hk : s.pagedirGetPage cur u = none) :
    Alike (s.bringIn cur u grow) (s.bringIn cur u grow') ↔
      (s.lookup cur u).isSome ∨ grow = grow' ∨ s.NoFrame cur := by
  cases hl : s.lookup cur u with
  | some q =>
    refine iff_of_true ?_ (.inl rfl)
    unfold bringIn
    simp only [hl]
    exact rfl
  | none =>
    have hfalse : s.bringIn cur u false = some (orExit cur (false, s)) := by
      unfold bringIn
      simp only [hl, Bool.false_eq_true, if_false]
    rw [Option.isSome_none, eq_false Bool.false_ne_true, false_or]
    by_cases hno : s.NoFrame cur
    · exact iff_of_true ((bringIn_noFrame hl hno grow).trans (bringIn_noFrame hl hno grow').symm)
        (.inr hno)
    rw [or_iff_left hno]
    have hgrows := bringIn_grows hlive hl hk hno
    cases grow with
    | false =>
      cases grow' with
      | false => exact iff_of_true rfl rfl
      | true =>
        rw [hfalse]
        exact iff_of_false (fun h => hgrows h.symm) nofun
    | true =>
      cases grow' with
      | false =>
        rw [hfalse]
        exact iff_of_false hgrows nofun
      | true => exact iff_of_true rfl rfl

/-- For an access to a page that is not present the two handlers end alike, with the stack where it
should be, if and only if their tests agree. -/
theorem fault_paths_agree (hruns : s.runs cur = true)
    (hnp : (s.pte cur (faultAddr / pgsize)).present = false) :
    (Alike (s.pageFault cur faultAddr esp) (s.readBufPageFaultHandler cur faultAddr globalEsp) ∧
      GrowsInStack s (s.pageFault cur faultAddr esp) ∧
      GrowsInStack s (s.readBufPageFaultHandler cur faultAddr globalEsp)) ↔
      TestsAgree s cur faultAddr esp globalEsp := by
  have hlive := live_of_runs hruns
  have hk : s.pagedirGetPage cur (faultAddr / pgsize) = none := frame_eq_none.mpr hnp
  unfold TestsAgree
  by_cases hbad : faultAddr = 0 ∨ physBase ≤ faultAddr
  · have hfault : s.pageFault cur faultAddr esp = some (orExit cur (false, s)) :=
      if_pos (hbad.imp_right Or.inl)
    have hread : s.readBufPageFaultHandler cur faultAddr globalEsp =
        some (orExit cur (false, s)) := if_pos hbad
    have hstack : GrowsInStack s (some (orExit cur (false, s))) := by
      intro s' hs p u hnone hnew
      rw [← Option.some.inj hs, lookup_orExit] at hnew
      exact absurd hnone hnew
    rw [hfault, hread]
    exact iff_of_true ⟨rfl, hstack, hstack⟩ (or_assoc.mp (.inl hbad))
  · have hfault : s.pageFault cur faultAddr esp = s.bringIn cur (faultAddr / pgsize)
        (physBase - stackLimit ≤ faultAddr ∧ nearStack faultAddr esp) := by
      refine if_neg fun hc => hbad (hc.imp_right fun hc => hc.resolve_right ?_)
      rw [hnp]
      exact Bool.false_ne_true
    have hread : s.readBufPageFaultHandler cur faultAddr globalEsp =
        s.bringIn cur (faultAddr / pgsize) (nearStack faultAddr globalEsp) := by
      unfold readBufPageFaultHandler
      simp only [if_neg hbad, hk]
    have hlt : faultAddr < physBase := Nat.lt_of_not_le fun hc => hbad (.inr hc)
    have hgrows : GrowsInStack s (s.bringIn cur (faultAddr / pgsize)
        (physBase - stackLimit ≤ faultAddr ∧ nearStack faultAddr esp)) :=
      bringIn_growsInStack hlive hk hlt fun hc => (of_decide_eq_true hc).1
    have htests : ((physBase - stackLimit ≤ faultAddr ∧ nearStack faultAddr esp) ↔
        nearStack faultAddr globalEsp) ↔
        decide (physBase - stackLimit ≤ faultAddr ∧ nearStack faultAddr esp) =
          nearStack faultAddr globalEsp :=
      (iff_congr decide_eq_true_iff.symm Iff.rfl).trans Bool.eq_iff_iff.symm
    rw [← or_assoc, or_iff_right hbad, hfault, hread, htests, ← bringIn_alike hlive hk]
    exact ⟨And.left, fun halike => ⟨halike, hgrows, hgrows.of_alike halike⟩⟩

/-- A user pool of four pages, and files of one byte. -/
def freshVm : State :=
  State.init (fun _ => ⟨0, .file, 0, 0, 0, 0, false, false, 0, 0⟩) 4 (fun _ => Bytes.zeros) 4
    (fun _ => Bytes.zeros) (fun _ => ⟨fun _ => 0, 1, 0⟩) 0

/-- A state with one process that has nothing but its stack page. -/
def oneProcess : State := (freshVm.startProcess 0 0 []).getD freshVm

theorem fault_paths_agree_below_stack :
    Alike (oneProcess.pageFault 0 0xbfffe000 0xbfffe010)
        (oneProcess.readBufPageFaultHandler 0 0xbfffe000 0xbfffe010) ∧
      GrowsInStack oneProcess (oneProcess.pageFault 0 0xbfffe000 0xbfffe010) ∧
      GrowsInStack oneProcess (oneProcess.readBufPageFaultHandler 0 0xbfffe000 0xbfffe010) :=
  (fault_paths_agree (by decide +kernel) (by decide +kernel)).mpr (by decide +kernel)

/-- A process with a page of data at `0x8ffff000`, which it has used. -/
def lowData : State :=
  ((freshVm.startProcess 0 0 [⟨0, 0x8ffff000, 0, 0x1000, true⟩]).bind fun s =>
    s.pageFault 0 0x8ffff000 0xbffff000).getD freshVm

/-- The `read` system call makes stack pages anywhere above `esp - 32`. Here the process has its
arguments at the end of its page of data, and the buffer is the page after it. -/
theorem fault_paths_differ : (lowData.pte 0 0x8ffff).present = true ∧
    ¬(Alike (lowData.pageFault 0 0x90000000 0x8ffffff0)
        (lowData.readBufPageFaultHandler 0 0x90000000 0x8ffffff0) ∧
      GrowsInStack lowData (lowData.pageFault 0 0x90000000 0x8ffffff0) ∧
      GrowsInStack lowData (lowData.readBufPageFaultHandler 0 0x90000000 0x8ffffff0)) := by
  refine ⟨by decide +kernel, ?_⟩
  rintro ⟨-, -, hgrows⟩
  have hnew : ((lowData.readBufPageFaultHandler 0 0x90000000 0x8ffffff0).bind fun s =>
      s.lookup 0 0x90000).isSome = true := by decide +kernel
  obtain ⟨q, hq⟩ := Option.isSome_iff_exists.mp hnew
  obtain ⟨s, hs, hl⟩ := Option.bind_eq_some_iff.mp hq
  have hstack := hgrows s hs 0 0x90000 (by decide +kernel) (hl ▸ nofun)
  exact absurd hstack (by decide)

end State

end Pintos.Vm
