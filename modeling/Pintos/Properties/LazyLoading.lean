import Pintos.Properties.FrameTable
import Pintos.Vm.Segment

/-!
# Lazy loading

`page_lazy_load` makes an entry for each page of a segment, and `page_load_file` loads a page when it
is needed. What a page gets then is what `load_segment` would have put in it at the start.
-/

namespace Pintos.Vm

open Pintos.Logic Placement

variable {s s' t t' : State} {cur p : Pid} {u upage : Upage} {q : SptePtr} {k : Frame}
  {file : FileId} {writable : Bool} {type : PageType} {ofs readBytes zeroBytes n : Nat}

namespace State

/-! ## The loop -/

/-- The loop with the number of pages that are left in place of the second counter. -/
def pageRounds (page : Nat → Upage → Nat → State → Bool × State) :
    Nat → Nat → Upage → Nat → State → Bool × State
  | 0, _, _, _, s => (true, s)
  | n + 1, ofs, upage, readBytes, s =>
    match page ofs upage (min readBytes pgsize) s with
    | (false, s) => (false, s)
    | (true, s) =>
      pageRounds page n (ofs + min readBytes pgsize) (upage + 1)
        (readBytes - min readBytes pgsize) s

/-- The loop ends if the counters make up whole pages, since neither is then subtracted from below
zero. -/
theorem pageLoop_eq (page : Nat → Upage → Nat → State → Bool × State) (n : Nat) :
    ∀ (fuel ofs : Nat) (upage : Upage) (readBytes zeroBytes : Nat) (s : State),
      readBytes + zeroBytes = n * pgsize → readBytes + zeroBytes < 2 ^ 32 → n < fuel →
      pageLoop page fuel ofs upage readBytes zeroBytes s =
        some (pageRounds page n ofs upage readBytes s) := by
  induction n with
  | zero =>
    intro fuel ofs upage readBytes zeroBytes s hsum _ hfuel
    obtain ⟨fuel, rfl⟩ := Nat.exists_eq_succ_of_ne_zero (Nat.ne_of_gt hfuel)
    have hzero : ¬(0 < readBytes ∨ 0 < zeroBytes) := by omega
    rw [pageLoop, if_neg hzero, pageRounds]
  | succ n ih =>
    intro fuel ofs upage readBytes zeroBytes s hsum hlt hfuel
    obtain ⟨fuel, rfl⟩ := Nat.exists_eq_succ_of_ne_zero (Nat.ne_of_gt (Nat.zero_lt_of_lt hfuel))
    have hmin : (if readBytes < pgsize then readBytes else pgsize) = min readBytes pgsize := by
      split <;> omega
    have hsum' : readBytes + zeroBytes = n * pgsize + pgsize := by rw [hsum, Nat.succ_mul]
    simp only [pgsize] at hsum hsum' hmin
    have hpos : 0 < readBytes ∨ 0 < zeroBytes := by omega
    have hread : (readBytes + 2 ^ 32 - min readBytes 4096) % 2 ^ 32 =
        readBytes - min readBytes 4096 := by omega
    have hzero : (zeroBytes + 2 ^ 32 - (4096 - min readBytes 4096)) % 2 ^ 32 =
        zeroBytes - (4096 - min readBytes 4096) := by omega
    rw [pageLoop, if_pos hpos, pageRounds]
    simp only [pgsize, hmin, hread, hzero]
    rcases page ofs upage (min readBytes 4096) s with ⟨_ | _, s₁⟩
    · rfl
    · refine ih fuel _ _ _ _ _ ?_ ?_ (Nat.lt_of_succ_lt_succ hfuel)
      · simp only [pgsize]
        omega
      · omega

theorem pageLazyLoad_eq_rounds (n : Nat) :
    ∀ (ofs : Nat) (upage : Upage) (readBytes : Nat) (s : State),
      pageLazyLoad cur file writable type n ofs upage readBytes s =
        pageRounds (fun ofs upage pageReadBytes s =>
          pageLazyLoad cur file writable type 1 ofs upage pageReadBytes s) n ofs upage readBytes
            s := by
  induction n with
  | zero => exact fun _ _ _ _ => rfl
  | succ n ih =>
    intro ofs upage readBytes s
    have hmin : min (min readBytes pgsize) pgsize = min readBytes pgsize := by omega
    rw [pageRounds, pageLazyLoad]
    simp only [pageLazyLoad, hmin]
    split
    · rfl
    · exact ih _ _ _ _

/-! ## The entries -/

/-- What `page_lazy_load` sets in the entry of the page `i` of a segment. -/
structure IsPage (e : SupplPageTableEntry) (file : FileId) (type : PageType) (writable : Bool)
    (ofs : Nat) (upage : Upage) (size i : Nat) : Prop where
  file : e.file = file
  type : e.type = type
  addr : e.addr = upage + i
  offset : e.offset = ofs + min size (i * pgsize)
  readBytes : e.readBytes = min (size - i * pgsize) pgsize
  zeroBytes : e.zeroBytes = pgsize - min (size - i * pgsize) pgsize
  writable : e.writable = writable
  free : e.free = true

theorem IsPage.succ {e : SupplPageTableEntry} {i : Nat}
    (h : IsPage e file type writable (ofs + min readBytes pgsize) (upage + 1)
      (readBytes - min readBytes pgsize) i) :
    IsPage e file type writable ofs upage readBytes (i + 1) := by
  have hread : readBytes - min readBytes pgsize - i * pgsize = readBytes - (i + 1) * pgsize := by
    simp only [pgsize]
    omega
  refine ⟨h.file, h.type, ?_, ?_, ?_, ?_, h.writable, h.free⟩
  · rw [h.addr, Nat.add_assoc, Nat.add_comm 1]
  · rw [h.offset]
    simp only [pgsize]
    omega
  · rw [h.readBytes, hread]
  · rw [h.zeroBytes, hread]

/-- A state in which the `n` pages of a segment have got entries. -/
structure Laid (s s' : State) (cur : Pid) (upage : Upage) (n : Nat) : Prop where
  nextSpte : s'.nextSpte = s.nextSpte + n
  lookup : ∀ p u, s'.lookup p u = if p = cur ∧ upage ≤ u ∧ u < upage + n then
    some (s.nextSpte + (u - upage)) else s.lookup p u
  spte : ∀ q, q < s.nextSpte → s'.spte q = s.spte q
  pte : s'.pte = s.pte
  live : s'.placement.live = s.placement.live
  rest : s' = { s with spte := s'.spte, nextSpte := s'.nextSpte, thread := s'.thread }

/-- A round of `page_lazy_load` for a page that has no entry. -/
theorem laid_one (hlive : s.placement.live cur = true)
    (f : SupplPageTableEntry → SupplPageTableEntry) :
    Laid s (({ s.setSpte s.nextSpte f with nextSpte := s.nextSpte + 1 } : State).hashInsert cur
      upage s.nextSpte) cur upage 1 := by
  generalize hs₁ : ({ s.setSpte s.nextSpte f with nextSpte := s.nextSpte + 1 } : State) = s₁
  have hlive₁ : s₁.placement.live = s.placement.live := by rw [← hs₁]; rfl
  have hp := placement_hashInsert (s := s₁) (u := upage) (q := s.nextSpte) (hlive₁ ▸ hlive)
  refine ⟨by rw [← hs₁]; rfl, fun p u => ?_, fun q hq => ?_, ?_, ?_, by rw [← hs₁]; rfl⟩
  · refine (congrFun₂ (congrArg Placement.lookup hp) p u).trans ?_
    by_cases hpage : p = cur ∧ u = upage
    · obtain ⟨rfl, rfl⟩ := hpage
      rw [if_pos ⟨rfl, Nat.le_refl _, Nat.lt_succ_self _⟩, Nat.sub_self]
      exact setPage_self
    · have hrange : ¬(p = cur ∧ upage ≤ u ∧ u < upage + 1) := fun hc =>
        hpage ⟨hc.1, Nat.le_antisymm (Nat.le_of_lt_succ hc.2.2) hc.2.1⟩
      rw [if_neg hrange]
      refine (setPage_of_ne hpage).trans ?_
      rw [← hs₁]
      rfl
  · rw [← hs₁]
    exact Function.update_of_ne (Nat.ne_of_lt hq) ..
  · funext p u
    have hthread : s₁.thread = s.thread := by rw [← hs₁]; rfl
    by_cases hc : p = cur
    · subst hc
      obtain ⟨th, hth⟩ := Option.isSome_iff_exists.mp (hlive₁ ▸ hlive)
      simp only [pte, hashInsert, setThread, Function.update_self, hth, Option.map_some,
        Option.bind_some, ← hthread]
    · simp only [pte, hashInsert, setThread, Function.update_of_ne hc, hthread]
  · exact (congrArg Placement.live hp).trans hlive₁

theorem Laid.trans {s'' : State} (h : Laid s s' cur upage 1)
    (h' : Laid s' s'' cur (upage + 1) n) : Laid s s'' cur upage (n + 1) := by
  refine ⟨?_, fun p u => ?_, fun q hq => ?_, h'.pte.trans h.pte, h'.live.trans h.live, ?_⟩
  · rw [h'.nextSpte, h.nextSpte, Nat.add_assoc, Nat.add_comm 1]
  · rw [h'.lookup, h.lookup, h.nextSpte]
    by_cases hc : p = cur
    · simp only [hc, true_and]
      by_cases hu : u = upage
      · subst hu
        have h₁ : ¬(u + 1 ≤ u ∧ u < u + 1 + n) := fun hc => Nat.not_succ_le_self u hc.1
        have h₂ : u ≤ u ∧ u < u + 1 := ⟨Nat.le_refl u, Nat.lt_succ_self u⟩
        have h₃ : u ≤ u ∧ u < u + (n + 1) := ⟨Nat.le_refl u, Nat.lt_add_of_pos_right (Nat.succ_pos n)⟩
        rw [if_neg h₁, if_pos h₂, if_pos h₃]
      · have hrange : ∀ a b : Nat, b ≠ a → ((a + 1 ≤ b ∧ b < a + 1 + n) ↔ a ≤ b ∧ b < a + (n + 1)) ∧
            ¬(a ≤ b ∧ b < a + 1) ∧ (a + 1 ≤ b → b - a = 1 + (b - (a + 1))) := by omega
        obtain ⟨hiff, hnot, hsub⟩ := hrange upage u hu
        rw [if_neg hnot, if_congr hiff rfl rfl]
        split
        · next hin => rw [hsub (hiff.mpr hin).1, Nat.add_assoc]
        · rfl
    · simp only [hc, false_and, if_false]
  · rw [h'.spte q (h.nextSpte ▸ Nat.lt_succ_of_lt hq), h.spte q hq]
  · rw [h'.rest, h.rest]

/-- `page_lazy_load` gives every page of a segment an entry, if none has one. -/
theorem pageLazyLoad_laid (n : Nat) :
    ∀ (ofs : Nat) (upage : Upage) (readBytes : Nat) (s : State), s.placement.live cur = true →
      (∀ i < n, s.lookup cur (upage + i) = none) →
      ∃ s', pageLazyLoad cur file writable type n ofs upage readBytes s = (true, s') ∧
        Laid s s' cur upage n ∧
        ∀ i < n, IsPage (s'.spte (s.nextSpte + i)) file type writable ofs upage readBytes i := by
  induction n with
  | zero =>
    intro ofs upage readBytes s _ _
    refine ⟨s, rfl, ⟨rfl, fun p u => ?_, fun _ _ => rfl, rfl, rfl, rfl⟩, nofun⟩
    have hempty : ¬(p = cur ∧ upage ≤ u ∧ u < upage + 0) := fun hc =>
      absurd hc.2.2 (Nat.not_lt.mpr hc.2.1)
    rw [if_neg hempty]
  | succ n ih =>
    intro ofs upage readBytes s hlive hfree
    -- The state with the entry of the first page, before and after it is put in the table.
    obtain ⟨s₀, hs₀⟩ : ∃ s₀ : State, s₀ = { s.setSpte s.nextSpte fun e => { e with
        type, file
        offset := ofs
        addr := upage
        readBytes := min readBytes pgsize
        zeroBytes := pgsize - min readBytes pgsize
        writable
        timestamp := s.ticks
        free := true } with nextSpte := s.nextSpte + 1 } := ⟨_, rfl⟩
    obtain ⟨s₁, hs₁⟩ : ∃ s₁ : State, s₁ = s₀.hashInsert cur upage s.nextSpte := ⟨_, rfl⟩
    have hone : Laid s s₁ cur upage 1 := by
      rw [hs₁, hs₀]
      exact laid_one hlive _
    have hnone : s₀.lookup cur upage = none := by
      rw [hs₀]
      exact hfree 0 (Nat.succ_pos n)
    have hfree₁ : ∀ i < n, s₁.lookup cur (upage + 1 + i) = none := by
      intro i hi
      have hrange : ¬(upage ≤ upage + 1 + i ∧ upage + 1 + i < upage + 1) := fun hc =>
        absurd hc.2 (Nat.not_lt.mpr (Nat.le_add_right _ i))
      rw [hone.lookup, if_neg fun hc => hrange hc.2, Nat.add_right_comm]
      exact hfree (i + 1) (Nat.succ_lt_succ hi)
    have hlive₁ : s₁.placement.live cur = true := (congrFun hone.live cur).trans hlive
    obtain ⟨s', hload, hlaid, hpages⟩ := ih (ofs + min readBytes pgsize) (upage + 1)
      (readBytes - min readBytes pgsize) s₁ hlive₁ hfree₁
    refine ⟨s', ?_, hone.trans hlaid, fun i hi => ?_⟩
    · unfold pageLazyLoad
      simp only [← hs₀, hnone, ← hs₁]
      exact hload
    · cases i with
      | zero =>
        have hlt : s.nextSpte + 0 < s₁.nextSpte := hone.nextSpte ▸ Nat.lt_succ_self _
        have hself : s₁.spte (s.nextSpte + 0) = s₀.spte s.nextSpte := by rw [hs₁]; rfl
        rw [hlaid.spte _ hlt, hself, hs₀]
        simp only [setSpte, Function.update_self]
        exact ⟨rfl, rfl, rfl, by rw [Nat.zero_mul, Nat.min_zero]; rfl,
          by rw [Nat.zero_mul, Nat.sub_zero], by rw [Nat.zero_mul, Nat.sub_zero], rfl, rfl⟩
      | succ i =>
        have hidx : s.nextSpte + (i + 1) = s₁.nextSpte + i := by
          rw [hone.nextSpte, Nat.add_assoc, Nat.add_comm 1]
        rw [hidx]
        exact (hpages i (Nat.lt_of_succ_lt_succ hi)).succ

/-! ## Taking a frame -/

/-- What is to be read for the entry `q` is there. -/
def Whole (s : State) (q : SptePtr) : Prop :=
  (s.spte q).type = .swap ∨
    (s.file (s.spte q).file).left (s.spte q).readBytes (s.spte q).offset = (s.spte q).readBytes

/-- What is done for a frame `k` leaves alone the entries that are not in the frame table, the
lengths of files, the time, the other frames, which processes run, and which frame a page had and
whether it is writable. -/
structure Leaves (table : List FrameTabEntry) (k : Frame) (s s' : State) : Prop where
  spte : ∀ q, (∀ f ∈ table, f.spte ≠ q) → s'.spte q = s.spte q
  whole : ∀ q, s.Whole q → s'.Whole q
  runs : s'.runs = s.runs
  ticks : s'.ticks = s.ticks
  length : ∀ i, (s'.file i).length = (s.file i).length
  memory : ∀ k', k' ≠ k → s'.memory k' = s.memory k'
  pte : ∀ p u, (s'.pte p u).frame = (s.pte p u).frame ∧ (s'.pte p u).writable = (s.pte p u).writable

section

variable {table : List FrameTabEntry} {f : FrameTabEntry}

theorem Leaves.refl : Leaves table k s s :=
  ⟨fun _ _ => rfl, fun _ h => h, rfl, rfl, fun _ => rfl, fun _ _ => rfl, fun _ _ => ⟨rfl, rfl⟩⟩

theorem Leaves.trans {s'' : State} (h : Leaves table k s s') (h' : Leaves table k s' s'') :
    Leaves table k s s'' :=
  ⟨fun q hq => (h'.spte q hq).trans (h.spte q hq), fun q hq => h'.whole q (h.whole q hq),
    h'.runs.trans h.runs, h'.ticks.trans h.ticks, fun i => (h'.length i).trans (h.length i),
    fun k' hk => (h'.memory k' hk).trans (h.memory k' hk),
    fun p u => ⟨(h'.pte p u).1.trans (h.pte p u).1, (h'.pte p u).2.trans (h.pte p u).2⟩⟩

theorem whole_setSpte {r : SptePtr} {g : SupplPageTableEntry → SupplPageTableEntry}
    (hg : ∀ e, (g e).file = e.file ∧ (g e).offset = e.offset ∧ (g e).readBytes = e.readBytes ∧
      ((g e).type = e.type ∨ (g e).type = .swap)) (h : s.Whole q) : (s.setSpte r g).Whole q := by
  by_cases hq : q = r
  · subst hq
    obtain ⟨hfile, hofs, hread, ht⟩ := hg (s.spte q)
    simp only [Whole, setSpte, Function.update_self, hfile, hofs, hread]
    exact h.imp_left fun hswap => ht.elim (fun hc => hc.trans hswap) id
  · simp only [Whole, setSpte, Function.update_of_ne hq]
    exact h

theorem leaves_setSpte (hf : f ∈ table) {g : SupplPageTableEntry → SupplPageTableEntry}
    (hg : ∀ e, (g e).file = e.file ∧ (g e).offset = e.offset ∧ (g e).readBytes = e.readBytes ∧
      ((g e).type = e.type ∨ (g e).type = .swap)) : Leaves table k s (s.setSpte f.spte g) :=
  ⟨fun _ hq => Function.update_of_ne (hq f hf).symm .., fun _ => whole_setSpte hg, rfl,
    rfl, fun _ => rfl, fun _ _ => rfl, fun _ _ => ⟨rfl, rfl⟩⟩

theorem pte_setPte {v : Pte} (p' : Pid) (u' : Upage) :
    (s.setPte p u v).pte p' u' = s.pte p' u' ∨
      (p' = p ∧ u' = u ∧ (s.setPte p u v).pte p' u' = v) := by
  by_cases hp : p' = p
  · subst hp
    cases ht : s.thread p' with
    | none => exact .inl (by rw [setPte, setThread_of_none ht])
    | some th =>
      by_cases hu : u' = u
      · subst hu
        refine .inr ⟨rfl, rfl, ?_⟩
        simp only [pte, setPte, setThread, Function.update_self, ht, Option.map_some,
          Option.bind_some, AList.lookup_insert, Option.getD_some]
      · refine .inl ?_
        simp only [pte, setPte, setThread, Function.update_self, ht, Option.map_some,
          Option.bind_some, AList.lookup_insert_ne hu]
  · refine .inl ?_
    simp only [pte, setPte, setThread, Function.update_of_ne hp]

theorem runs_setThread {f : Thread → Thread} (hf : ∀ th, (f th).exiting = th.exiting) :
    (s.setThread p f).runs = s.runs := by
  funext p'
  by_cases hp : p' = p
  · subst hp
    cases ht : s.thread p' with
    | none => rw [setThread_of_none ht]
    | some th =>
      simp only [runs, setThread, Function.update_self, ht, Option.map_some, Option.any_some, hf]
  · simp only [runs, setThread, Function.update_of_ne hp]

theorem leaves_setPte {v : Pte} (hf : v.frame = (s.pte p u).frame)
    (hw : v.writable = (s.pte p u).writable) : Leaves table k s (s.setPte p u v) := by
  refine ⟨fun _ _ => rfl, fun _ h => h, runs_setThread fun _ => rfl, rfl, fun _ => rfl,
    fun _ _ => rfl, fun p' u' => ?_⟩
  rcases pte_setPte (s := s) (p := p) (u := u) (v := v) p' u' with he | ⟨rfl, rfl, he⟩
  · rw [he]
    exact ⟨rfl, rfl⟩
  · rw [he]
    exact ⟨hf, hw⟩

theorem leaves_findUnaccessedPage {r : Option FrameTabEntry} (l : List FrameTabEntry) :
    ∀ s s' : State, (∀ f ∈ l, f ∈ table) → findUnaccessedPage cur l s = (r, s') →
      Leaves table k s s' := by
  induction l with
  | nil =>
    intro s s' _ h
    obtain ⟨-, rfl⟩ := Prod.mk.inj h
    exact Leaves.refl
  | cons f l ih =>
    intro s s' hl h
    unfold findUnaccessedPage at h
    split at h
    · have hstamp := leaves_setSpte (s := s) (k := k) (hl f List.mem_cons_self)
        (g := fun e => { e with timestamp := s.ticks }) fun _ => ⟨rfl, rfl, rfl, .inl rfl⟩
      exact hstamp.trans (ih _ _ (fun g hg => hl g (List.mem_cons_of_mem f hg)) h)
    · obtain ⟨-, rfl⟩ := Prod.mk.inj h
      exact Leaves.refl

/-- Files that do not get shorter can still be read. -/
theorem whole_setFile {i : FileId} {f : FileData → FileData}
    (hf : (s.file i).length ≤ (f (s.file i)).length) (h : s.Whole q) : (s.setFile i f).Whole q := by
  refine h.imp_right fun hleft => ?_
  by_cases hi : (s.spte q).file = i
  · simp only [setFile, hi, Function.update_self, FileData.left] at hleft ⊢
    omega
  · simp only [setFile, Function.update_of_ne hi]
    exact hleft

theorem leaves_fileWriteAt {i : FileId} {size : Nat}
    (h : s.fileWriteAt p i u size ofs = some s') : Leaves table k s s' := by
  unfold fileWriteAt at h
  dsimp only at h
  split at h
  · rw [← Option.some.inj h]
    exact Leaves.refl
  split at h
  · rw [← Option.some.inj h]
    have haccess : Leaves table k s (s.setPte p u { s.pte p u with accessed := true }) :=
      leaves_setPte rfl rfl
    refine haccess.trans ⟨fun _ _ => rfl, fun _ => whole_setFile (Nat.le_refl _), rfl, rfl,
      fun j => ?_, fun _ _ => rfl, fun _ _ => ⟨rfl, rfl⟩⟩
    by_cases hj : j = i
    · subst hj
      simp only [setFile, Function.update_self]
    · simp only [setFile, Function.update_of_ne hj]
  · cases h

theorem leaves_swapOut {k' : Frame} {i : Nat} (h : s.swapOut k' = some (i, s')) :
    Leaves table k s s' := by
  unfold swapOut at h
  obtain ⟨i', -, hs⟩ := Option.map_eq_some_iff.mp h
  obtain ⟨-, rfl⟩ := Prod.mk.inj hs
  exact ⟨fun _ _ => rfl, fun _ h => h, rfl, rfl, fun _ => rfl, fun _ _ => rfl, fun _ _ => ⟨rfl, rfl⟩⟩

theorem leaves_pageOut (hf : f ∈ table) (h : s.pageOut cur f = some s') : Leaves table k s s' := by
  unfold pageOut at h
  dsimp only at h
  split at h
  · exact leaves_fileWriteAt h
  · obtain ⟨⟨i, s₁⟩, hout, hs⟩ := Option.bind_eq_some_iff.mp h
    rw [← Option.some.inj hs]
    have hswap := leaves_setSpte (s := s) (k := k) hf
      (g := fun e => { e with type := .swap }) fun _ => ⟨rfl, rfl, rfl, .inr rfl⟩
    have hidx := leaves_setSpte (s := s₁) (k := k) hf
      (g := fun e => { e with swapIdx := i }) fun _ => ⟨rfl, rfl, rfl, .inl rfl⟩
    exact (hswap.trans (leaves_swapOut hout)).trans hidx

theorem leaves_victim {r : Option FrameTabEntry} (h : s.victim cur = (r, s')) :
    Leaves s.frameTable k s s' := by
  unfold victim at h
  split at h
  · next hf =>
    obtain ⟨-, rfl⟩ := Prod.mk.inj h
    exact leaves_findUnaccessedPage _ _ _ (fun _ hf => hf) hf
  · next hf =>
    obtain ⟨-, rfl⟩ := Prod.mk.inj h
    exact leaves_findUnaccessedPage _ _ _ (fun _ hf => hf) hf

theorem leaves_vmGetFrame_none (h : s.vmGetFrame cur q = some (none, s')) :
    Leaves s.frameTable k s s' := by
  unfold vmGetFrame at h
  split at h
  · unfold tryEvictFrame at h
    split at h
    · obtain ⟨⟨k', s₂⟩, -, hs⟩ := Option.map_eq_some_iff.mp h
      cases (Prod.mk.inj hs).1
    · next s₁ hv =>
      obtain ⟨-, rfl⟩ := Prod.mk.inj (Option.some.inj h)
      exact leaves_victim hv
  · cases (Prod.mk.inj (Option.some.inj h)).1

/-- `vm_get_frame` touches nothing of a page that is in no frame. -/
theorem leaves_vmGetFrame (h : s.vmGetFrame cur q = some (some k, s')) :
    Leaves s.frameTable k s s' := by
  unfold vmGetFrame at h
  split at h
  · unfold tryEvictFrame at h
    split at h
    · next f s₁ hv =>
      have hmem := (victim_eq hv).2 f rfl
      obtain ⟨⟨k', s₂⟩, hevict, hs⟩ := Option.map_eq_some_iff.mp h
      obtain ⟨hk, rfl⟩ := Prod.mk.inj hs
      cases hk
      have hsearch : Leaves s.frameTable k s s₁ := leaves_victim hv
      unfold doEvictFrame at hevict
      dsimp only at hevict
      obtain ⟨s₃, hout, hevict⟩ := Option.bind_eq_some_iff.mp hevict
      obtain ⟨-, -, hevict⟩ := Option.bind_eq_some_iff.mp hevict
      obtain ⟨rfl, rfl⟩ := Prod.mk.inj (Option.some.inj hevict)
      have hclear : Leaves s.frameTable f.frame s₃
          (s₃.pagedirClearPage f.owner (s₁.spte f.spte).addr) := by
        unfold pagedirClearPage
        split
        · exact leaves_setPte rfl rfl
        · exact Leaves.refl
      refine (hsearch.trans (leaves_pageOut hmem hout)).trans (hclear.trans ?_)
      exact ⟨fun _ _ => rfl, fun _ h => h, rfl, rfl, fun _ => rfl,
        fun _ hk => Function.update_of_ne hk .., fun _ _ => ⟨rfl, rfl⟩⟩
    · cases h
  · next k' s₁ hget =>
    obtain ⟨-, rfl⟩ := Prod.mk.inj (Option.some.inj h)
    unfold pallocGetPage at hget
    obtain ⟨k'', -, hs⟩ := Option.map_eq_some_iff.mp hget
    obtain ⟨-, rfl⟩ := Prod.mk.inj hs
    exact ⟨fun _ _ => rfl, fun _ h => h, rfl, rfl, fun _ => rfl, fun _ _ => rfl, fun _ _ => ⟨rfl, rfl⟩⟩

end

/-! ## Loading one page -/

/-- What `page_load_file` makes of the frame `k` for the entry `q`. -/
def filePage (s : State) (q : SptePtr) (k : Frame) : Page :=
  let e := s.spte q
  ((s.memory k).splice 0 e.readBytes fun j => (s.file e.file).content (e.offset + j)).splice
    e.readBytes e.zeroBytes fun _ => 0

theorem setMemory_setMemory (b b' : Page) : (s.setMemory k b).setMemory k b' = s.setMemory k b' := by
  simp only [setMemory, Function.update_idem]

/-- `page_load_file` for a page that can be read whole. -/
theorem pageLoadFile_eq (hk : s'.pagedirGetPage cur (s'.spte q).addr = none)
    (hleft : (s'.file (s'.spte q).file).left (s'.spte q).readBytes (s'.spte q).offset =
      (s'.spte q).readBytes)
    (hget : s.vmGetFrame cur q = some (some k, s')) :
    s.pageLoadFile cur q = some (true, ((s'.setMemory k (s'.filePage q k)).pagedirSetPage cur
      (s'.spte q).addr k (s'.spte q).writable).setSpte q fun e => { e with free := false }) := by
  have hfile : s'.fileReadAt (s'.spte q).file k (s'.spte q).readBytes (s'.spte q).offset =
      ((s'.spte q).readBytes, s'.setMemory k ((s'.memory k).splice 0 (s'.spte q).readBytes fun j =>
        (s'.file (s'.spte q).file).content ((s'.spte q).offset + j))) := by
    simp only [fileReadAt, hleft]
  have hfill : (if 0 < (s'.spte q).zeroBytes then
      (s'.setMemory k ((s'.memory k).splice 0 (s'.spte q).readBytes fun j =>
        (s'.file (s'.spte q).file).content ((s'.spte q).offset + j))).setMemory k
        (((s'.setMemory k ((s'.memory k).splice 0 (s'.spte q).readBytes fun j =>
          (s'.file (s'.spte q).file).content ((s'.spte q).offset + j))).memory k).splice
            (s'.spte q).readBytes (s'.spte q).zeroBytes fun _ => 0)
      else s'.setMemory k ((s'.memory k).splice 0 (s'.spte q).readBytes fun j =>
        (s'.file (s'.spte q).file).content ((s'.spte q).offset + j))) =
      s'.setMemory k (s'.filePage q k) := by
    split
    · rw [setMemory_setMemory]
      simp only [setMemory, Function.update_self, filePage]
    · next hzero =>
      have hzero : (s'.spte q).zeroBytes = 0 := Nat.eq_zero_of_not_pos hzero
      simp only [filePage, hzero, Bytes.splice_zero]
  have hinstall : (s'.setMemory k (s'.filePage q k)).installPage cur (s'.spte q).addr k
      (s'.spte q).writable = (true, (s'.setMemory k (s'.filePage q k)).pagedirSetPage cur
        (s'.spte q).addr k (s'.spte q).writable) := by
    have hk' : (s'.setMemory k (s'.filePage q k)).pagedirGetPage cur (s'.spte q).addr = none := hk
    simp only [installPage, hk']
  simp only [pageLoadFile, hget, Option.bind_eq_bind, Option.bind_some]
  simp only [hfile, ne_eq, not_true_eq_false, if_false, hfill, hinstall, Option.pure_def]

/-- The byte `j` of the page `i` of a segment of `size` bytes of a file, with zeros after them. -/
def segmentByte (d : FileData) (ofs size i j : Nat) : UInt8 :=
  if i * pgsize + j < size then d.content (ofs + i * pgsize + j) else 0

theorem byte_filePage {i j : Nat}
    (h : IsPage (s.spte q) file type writable ofs upage readBytes i) (hj : j < pgsize) :
    (s.filePage q k).byte j = segmentByte (s.file file) ofs readBytes i j := by
  unfold filePage segmentByte
  simp only [h.file, h.offset, h.readBytes, h.zeroBytes]
  rw [Bytes.byte_splice _ _ _ _ hj, Bytes.byte_splice _ _ _ _ hj]
  simp only [pgsize] at *
  by_cases hlt : i * 4096 + j < readBytes
  · have hread : 0 ≤ j ∧ j < 0 + min (readBytes - i * 4096) 4096 := by omega
    have hzero : ¬(min (readBytes - i * 4096) 4096 ≤ j ∧ j < min (readBytes - i * 4096) 4096 +
        (4096 - min (readBytes - i * 4096) 4096)) := by omega
    have hmin : min readBytes (i * 4096) = i * 4096 := by omega
    rw [if_neg hzero, if_pos hread, if_pos hlt, hmin, Nat.sub_zero]
  · have hzero : min (readBytes - i * 4096) 4096 ≤ j ∧ j < min (readBytes - i * 4096) 4096 +
        (4096 - min (readBytes - i * 4096) 4096) := by omega
    rw [if_pos hzero, if_neg hlt]

/-- The page `u` of `p` is present, with a flag and bytes. -/
structure HasPage (s : State) (p : Pid) (u : Upage) (writable : Bool) (bytes : Nat → UInt8) :
    Prop where
  present : (s.pte p u).present = true
  writable : (s.pte p u).writable = writable
  byte : ∀ j < pgsize, (s.memory (s.pte p u).frame).byte j = bytes j

/-! ## Loading the pages of a segment in any order -/

/-- Some pages, the last one first, have been loaded by `page_load_file`, and a file has not changed
all the while. -/
inductive Faulted (cur : Pid) (file : FileId) (s : State) : List Upage → State → Prop
  | nil : Faulted cur file s [] s
  | cons {us : List Upage} {u : Upage} {q : SptePtr} {success : Bool} {s' s'' : State}
      (h : Faulted cur file s us s') (hnew : u ∉ us) (hl : s'.lookup cur u = some q)
      (hload : s'.pageLoadFile cur q = some (success, s'')) (hfile : s''.file file = s'.file file) :
      Faulted cur file s (u :: us) s''

/-- The pages of a segment that are not among `us` wait for their first access, and those among `us`
hold what they should as long as they are present. -/
structure Segment (s : State) (cur : Pid) (file : FileId) (d : FileData) (type : PageType)
    (writable : Bool) (ofs : Nat) (upage : Upage) (readBytes n base : Nat) (us : List Upage) :
    Prop where
  sound : s.placement.Sound none
  content : s.file file = d
  lookup : ∀ i < n, s.lookup cur (upage + i) = some (base + i)
  waiting : ∀ i < n, upage + i ∉ us → s.pagedirGetPage cur (upage + i) = none ∧
    IsPage (s.spte (base + i)) file type writable ofs upage readBytes i
  loaded : ∀ i < n, upage + i ∈ us → (s.pte cur (upage + i)).present = true →
    HasPage s cur (upage + i) writable (segmentByte d ofs readBytes i)

/-- An entry whose page is in no frame is not in the frame table. -/
theorem not_mem_table (h : s.placement.Sound none) (hl : s.lookup cur u = some q)
    (hk : s.pagedirGetPage cur u = none) : ∀ f ∈ s.frameTable, f.spte ≠ q := by
  rintro f hf rfl
  obtain ⟨hlf, hkf⟩ := h.installed f hf nofun
  obtain ⟨rfl, rfl⟩ := h.lookup_inj hlf hl
  cases hk.symm.trans hkf

/-- What a page table entry is after `pagedir_set_page`. -/
theorem pte_pagedirSetPage (hlive : s.placement.live p = true) :
    (s.pagedirSetPage p u k writable).pte p u = { frame := k, present := true, writable } := by
  obtain ⟨th, hth⟩ := Option.isSome_iff_exists.mp hlive
  simp only [pte, pagedirSetPage, setPte, setThread, Function.update_self, hth, Option.map_some,
    Option.bind_some, AList.lookup_insert, Option.getD_some]

theorem pte_pagedirSetPage_of_ne {p' : Pid} {u' : Upage} (h : ¬(p' = p ∧ u' = u)) :
    (s.pagedirSetPage p u k writable).pte p' u' = s.pte p' u' := by
  rcases pte_setPte (s := s) (p := p) (u := u) (v := { frame := k, present := true, writable })
    p' u' with he | ⟨hp, hu, -⟩
  · exact he
  · exact absurd ⟨hp, hu⟩ h

/-- Two pages are in different frames. -/
theorem frame_ne (h : s.placement.Sound none) {p' : Pid} {u' : Upage}
    (hpage : ¬(p' = p ∧ u' = u)) (hk : s.pagedirGetPage p u = some k)
    (hk' : s.pagedirGetPage p' u' = some k) : False := by
  obtain ⟨f, hf, -, rfl, rfl, hfk⟩ := h.listed p u k hk
  obtain ⟨g, hg, -, rfl, rfl, hgk⟩ := h.listed p' u' k hk'
  rw [h.eq_of_frame hf hg (hfk.trans hgk.symm)] at hpage
  exact hpage ⟨rfl, rfl⟩

theorem frame_eq_some : s.pagedirGetPage p u = some k ↔
    (s.pte p u).present = true ∧ (s.pte p u).frame = k := by
  unfold pagedirGetPage
  split
  · next hp => simp only [hp, Option.some.injEq, true_and]
  · next hp => simp only [hp, reduceCtorEq, false_and]

/-- One page of a segment that waits is loaded. -/
theorem Segment.load {d : FileData} {base i : Nat} {us : List Upage}
    (h : Segment s cur file d type writable ofs upage readBytes n base us)
    (ht : type ≠ .swap) (hlen : ofs + readBytes ≤ d.length) (hi : i < n) (hnew : upage + i ∉ us)
    (hget : s.vmGetFrame cur (base + i) = some (some k, s')) :
    ∃ s'', s.pageLoadFile cur (base + i) = some (true, s'') ∧ (s''.file file = d →
      HasPage s'' cur (upage + i) writable (segmentByte d ofs readBytes i) ∧
      Segment s'' cur file d type writable ofs upage readBytes n base ((upage + i) :: us)) := by
  obtain ⟨hwait, hpage⟩ := h.waiting i hi hnew
  have hleaves := leaves_vmGetFrame hget
  have hgets := Placement.Kept.gets stable_true ⟨h.sound, trivial⟩ hget
  -- an eviction changes entries of pages in frames, but not of one that waits
  have hspte := hleaves.spte _ (not_mem_table h.sound (h.lookup i hi) hwait)
  have hpage' : IsPage (s'.spte (base + i)) file type writable ofs upage readBytes i :=
    hspte ▸ hpage
  have hk : s'.pagedirGetPage cur (s'.spte (base + i)).addr = none := by
    rw [hpage'.addr]
    exact hgets.frame _ _ hwait
  have hread : (s'.file (s'.spte (base + i)).file).left (s'.spte (base + i)).readBytes
      (s'.spte (base + i)).offset = (s'.spte (base + i)).readBytes := by
    rw [FileData.left, hpage'.offset, hpage'.readBytes, hpage'.file, hleaves.length, h.content]
    simp only [pgsize]
    omega
  have hload := pageLoadFile_eq hk hread hget
  rw [hpage'.addr, hpage'.writable] at hload
  refine ⟨_, hload, fun hfile => ?_⟩
  generalize hs'' : ((s'.setMemory k (s'.filePage (base + i) k)).pagedirSetPage cur (upage + i) k
    writable).setSpte (base + i) (fun e => { e with free := false }) = s'' at hload hfile
  have hfile' : s'.file file = d := by rwa [← hs''] at hfile
  have hlive : s'.placement.live cur = true :=
    (congrFun hgets.live cur).trans (live_of_lookup (h.lookup i hi))
  have hmem : s''.memory = Function.update s'.memory k (s'.filePage (base + i) k) := by
    rw [← hs'']
    rfl
  have hself : s''.pte cur (upage + i) = { frame := k, present := true, writable } := by
    rw [← hs'']
    exact pte_pagedirSetPage (s := s'.setMemory k _) hlive
  have hother : ∀ j, j ≠ i → s''.pte cur (upage + j) = s'.pte cur (upage + j) := by
    intro j hj
    rw [← hs'']
    exact pte_pagedirSetPage_of_ne (s := s'.setMemory k _)
      fun hc => hj (Nat.add_left_cancel hc.2)
  have hspte' : ∀ r, r ≠ base + i → s''.spte r = s'.spte r := by
    intro r hr
    rw [← hs'']
    exact Function.update_of_ne hr ..
  have hsound : s''.placement.Sound none :=
    (Placement.Kept.pageLoadFile stable_true ⟨h.sound, trivial⟩ (h.lookup i hi) hwait
      (fun hc => ht (hpage.type.symm.trans hc)) hload).sound
  have hhas : HasPage s'' cur (upage + i) writable (segmentByte d ofs readBytes i) := by
    refine ⟨by rw [hself], by rw [hself], fun j hj => ?_⟩
    rw [hself, hmem, Function.update_self, byte_filePage hpage' hj, hfile']
  refine ⟨hhas, hsound, hfile, fun j hj => ?_, fun j hj hin => ?_, fun j hj hin hp => ?_⟩
  · rw [lookup_pageLoadFile (h.lookup i hi) hload]
    exact h.lookup j hj
  · obtain ⟨hne, hin⟩ := not_or.mp (List.mem_cons.not.mp hin)
    have hji : j ≠ i := fun hc => hne (hc ▸ rfl)
    obtain ⟨hwait', hpage''⟩ := h.waiting j hj hin
    refine ⟨?_, ?_⟩
    · have hk' := hgets.frame cur (upage + j) hwait'
      unfold pagedirGetPage
      rw [hother j hji]
      exact hk'
    · rw [hspte' _ fun hc => hji (Nat.add_left_cancel hc),
        hleaves.spte _ (not_mem_table h.sound (h.lookup j hj) hwait')]
      exact hpage''
  · by_cases hji : j = i
    · subst hji
      exact hhas
    · have hin : upage + j ∈ us := (List.mem_cons.mp hin).resolve_left fun hc =>
        hji (Nat.add_left_cancel hc)
      have hp' : (s'.pte cur (upage + j)).present = true := hother j hji ▸ hp
      have hpold : (s.pte cur (upage + j)).present = true := by
        by_contra hc
        have hnone := hgets.frame cur (upage + j) (frame_eq_none.mpr (Bool.not_eq_true _ ▸ hc))
        rw [frame_eq_none.mp hnone] at hp'
        cases hp'
      obtain ⟨-, hw, hbytes⟩ := h.loaded j hj hin hpold
      have hframe : (s''.pte cur (upage + j)).frame = (s.pte cur (upage + j)).frame := by
        rw [hother j hji]
        exact (hleaves.pte cur (upage + j)).1
      -- the new page has a frame of its own
      have hne : (s.pte cur (upage + j)).frame ≠ k := by
        intro hc
        refine frame_ne hsound (fun hc => hji (Nat.add_left_cancel hc.2)) (k := k)
          (frame_eq_some.mpr ⟨congrArg Pte.present hself, congrArg Pte.frame hself⟩)
          (frame_eq_some.mpr ⟨hp, hframe.trans hc⟩)
      refine ⟨hp, ?_, fun b hb => ?_⟩
      · rw [hother j hji]
        exact (hleaves.pte cur (upage + j)).2.trans hw
      · rw [hframe, hmem, Function.update_of_ne hne, hleaves.memory _ hne]
        exact hbytes b hb

/-- While pages are loaded in any order, those that are left wait as they did. -/
theorem Faulted.segment {d : FileData} {base : Nat} {us : List Upage} (h : Faulted cur file s us s')
    (hs : Segment s cur file d type writable ofs upage readBytes n base []) (ht : type ≠ .swap)
    (hlen : ofs + readBytes ≤ d.length) (hus : ∀ u ∈ us, upage ≤ u ∧ u < upage + n) :
    Segment s' cur file d type writable ofs upage readBytes n base us := by
  induction h with
  | nil => exact hs
  | @cons us u q b s₁ s₂ _ hnew hl hload hfile ih =>
    have hseg := ih fun x hx => hus x (List.mem_cons_of_mem u hx)
    obtain ⟨hle, hlt⟩ := hus u List.mem_cons_self
    obtain ⟨i, rfl⟩ := Nat.exists_eq_add_of_le hle
    have hi : i < n := Nat.lt_of_add_lt_add_left hlt
    cases hl.symm.trans (hseg.lookup i hi)
    obtain ⟨k, s₃, hget, -⟩ := pageLoadFile_some hload
    obtain ⟨s₄, hload', hdone⟩ := hseg.load ht hlen hi hnew hget
    cases hload.symm.trans hload'
    exact (hdone (hfile.trans hseg.content)).2

/-- After `page_lazy_load` all pages of the segment wait. -/
theorem segment_of_laid (hsound : s.placement.Sound none) (hlaid : Laid s s' cur upage n)
    (hsound' : s'.placement.Sound none) (hfree : ∀ i < n, s.lookup cur (upage + i) = none)
    (hpages : ∀ i < n,
      IsPage (s'.spte (s.nextSpte + i)) file type writable ofs upage readBytes i) :
    Segment s' cur file (s.file file) type writable ofs upage readBytes n s.nextSpte [] := by
  refine ⟨hsound', ?_, fun i hi => ?_, fun i hi _ => ⟨?_, hpages i hi⟩, nofun⟩
  · rw [hlaid.rest]
  · rw [hlaid.lookup, if_pos ⟨rfl, Nat.le_add_right _ _, Nat.add_lt_add_left hi _⟩,
      Nat.add_sub_cancel_left]
  · have hk := hsound.frame_eq_none (hfree i hi)
    unfold pagedirGetPage
    rw [hlaid.pte]
    exact hk

/-! ## Loading a segment at once -/

/-- What was in use stays as it is. -/
structure Keeps (t t' : State) : Prop where
  file : t'.file = t.file
  live : t'.placement.live = t.placement.live
  pte : ∀ p u, (t.pte p u).present = true → t'.pte p u = t.pte p u
  memory : ∀ k, t.usedMap k = true → t'.usedMap k = true ∧ t'.memory k = t.memory k

theorem Keeps.trans {t'' : State} (h : Keeps t t') (h' : Keeps t' t'') : Keeps t t'' :=
  ⟨h'.file.trans h.file, h'.live.trans h.live,
    fun p u hp => (h'.pte p u (h.pte p u hp ▸ hp)).trans (h.pte p u hp),
    fun k hk => ⟨(h'.memory k (h.memory k hk).1).1,
      (h'.memory k (h.memory k hk).1).2.trans (h.memory k hk).2⟩⟩

/-- One page is loaded. -/
theorem loadSegmentPage_true (hlive : t.placement.live cur = true)
    (hread : readBytes ≤ pgsize)
    (h : loadSegmentPage cur file writable ofs upage readBytes t = (true, t')) :
    Keeps t t' ∧ t'.usedMap (t'.pte cur upage).frame = true ∧
      HasPage t' cur upage writable fun j =>
        if j < readBytes then (t.file file).content (ofs + j) else 0 := by
  unfold loadSegmentPage at h
  split at h
  · cases h
  next k t₁ hget =>
  unfold pallocGetPage at hget
  obtain ⟨k', hk, hget⟩ := Option.map_eq_some_iff.mp hget
  obtain ⟨rfl, rfl⟩ := Prod.mk.inj hget
  have hfree : t.usedMap k' = false := by
    have hunused := List.find?_some hk
    simpa only [Bool.not_eq_true'] using hunused
  dsimp only at h
  split at h
  · cases h
  next hcount =>
  have hleft : (t.file file).left readBytes ofs = readBytes := not_not.mp hcount
  generalize ht₂ : setMemory _ k' (Bytes.splice _ readBytes (pgsize - readBytes) _) = t₂ at h
  split at h
  · cases h
  next t₃ hinstall =>
  obtain ⟨-, rfl⟩ := Prod.mk.inj h
  have hlive₂ : t₂.placement.live = t.placement.live := by rw [← ht₂]; rfl
  have hused₂ : t₂.usedMap = Function.update t.usedMap k' true := by rw [← ht₂]; rfl
  have hpte₂ : t₂.pte = t.pte := by rw [← ht₂]; rfl
  unfold installPage at hinstall
  split at hinstall
  · cases hinstall
  next hnone =>
  obtain ⟨-, rfl⟩ := Prod.mk.inj hinstall
  have hself : (t₂.pagedirSetPage cur upage k' writable).pte cur upage =
      { frame := k', present := true, writable } := pte_pagedirSetPage (hlive₂ ▸ hlive)
  have hmem : (t₂.pagedirSetPage cur upage k' writable).memory = t₂.memory := rfl
  refine ⟨⟨?_, ?_, fun p u hp => ?_, fun k hused => ?_⟩, ?_, by rw [hself], by rw [hself],
    fun j hj => ?_⟩
  · rw [← ht₂]
    rfl
  · exact (congrArg Placement.live (placement_setPte (hlive₂ ▸ hlive) _)).trans hlive₂
  · rw [← hpte₂]
    refine pte_pagedirSetPage_of_ne ?_
    rintro ⟨rfl, rfl⟩
    rw [← hpte₂, frame_eq_none.mp hnone] at hp
    cases hp
  · -- a frame in use is not the one just taken
    have hne : k ≠ k' := by
      rintro rfl
      cases hfree.symm.trans hused
    refine ⟨(congrFun hused₂ k).trans ((Function.update_of_ne hne ..).trans hused), ?_⟩
    rw [hmem, ← ht₂]
    simp only [setMemory, fileReadAt, Function.update_of_ne hne]
  · rw [hself]
    exact (congrFun hused₂ k').trans (Function.update_self ..)
  · rw [hself, hmem, ← ht₂]
    simp only [setMemory, Function.update_self, fileReadAt, hleft]
    rw [Bytes.byte_splice _ _ _ _ hj, Bytes.byte_splice _ _ _ _ hj]
    simp only [pgsize] at *
    by_cases hlt : j < readBytes
    · rw [if_neg fun hc => Nat.not_lt.mpr hc.1 hlt, if_pos ⟨Nat.zero_le j, by omega⟩, if_pos hlt,
        Nat.sub_zero]
    · rw [if_pos ⟨Nat.not_lt.mp hlt, by omega⟩, if_neg hlt]

/-- When `load_segment` has succeeded every page of the segment is there. -/
theorem pageRounds_loadSegmentPage (n : Nat) :
    ∀ (ofs : Nat) (upage : Upage) (readBytes : Nat) (t : State), t.placement.live cur = true →
      pageRounds (loadSegmentPage cur file writable) n ofs upage readBytes t = (true, t') →
      Keeps t t' ∧ ∀ i < n, t'.usedMap (t'.pte cur (upage + i)).frame = true ∧
        HasPage t' cur (upage + i) writable (segmentByte (t.file file) ofs readBytes i) := by
  induction n with
  | zero =>
    intro ofs upage readBytes t _ h
    obtain ⟨-, rfl⟩ := Prod.mk.inj h
    exact ⟨⟨rfl, rfl, fun _ _ _ => rfl, fun _ hk => ⟨hk, rfl⟩⟩, nofun⟩
  | succ n ih =>
    intro ofs upage readBytes t hlive h
    unfold pageRounds at h
    split at h
    · cases h
    next t₁ hpage =>
    obtain ⟨hkeeps, hused, hhas⟩ := loadSegmentPage_true hlive (Nat.min_le_right _ _) hpage
    obtain ⟨hkeeps', hrest⟩ := ih _ _ _ t₁ (hkeeps.live ▸ hlive) h
    refine ⟨hkeeps.trans hkeeps', fun i hi => ?_⟩
    cases i with
    | zero =>
      rw [Nat.add_zero]
      have hpte := hkeeps'.pte cur upage hhas.present
      rw [hpte]
      refine ⟨(hkeeps'.memory _ hused).1, hpte ▸ hhas.present, hpte ▸ hhas.writable,
        fun j hj => ?_⟩
      rw [hpte, (hkeeps'.memory _ hused).2, hhas.byte j hj]
      unfold segmentByte
      simp only [Nat.zero_mul, Nat.zero_add, Nat.add_zero, pgsize] at *
      by_cases hlt : j < readBytes
      · rw [if_pos (by omega), if_pos hlt]
      · rw [if_neg (by omega), if_neg hlt]
    | succ i =>
      obtain ⟨hused', hhas'⟩ := hrest i (Nat.lt_of_succ_lt_succ hi)
      have haddr : upage + 1 + i = upage + (i + 1) := by rw [Nat.add_assoc, Nat.add_comm 1]
      rw [haddr] at hused' hhas'
      refine ⟨hused', hhas'.present, hhas'.writable, fun j hj => ?_⟩
      rw [hhas'.byte j hj, hkeeps.file]
      unfold segmentByte
      simp only [pgsize]
      have hiff : i * 4096 + j < readBytes - min readBytes 4096 ↔ (i + 1) * 4096 + j < readBytes := by
        omega
      have hofs : i * 4096 + j < readBytes - min readBytes 4096 →
          ofs + min readBytes 4096 + i * 4096 + j = ofs + (i + 1) * 4096 + j := by
        omega
      by_cases hlt : i * 4096 + j < readBytes - min readBytes 4096
      · rw [if_pos hlt, if_pos (hiff.mp hlt), hofs hlt]
      · rw [if_neg hlt, if_neg fun hc => hlt (hiff.mpr hc)]

/-! ## Lazy and eager loading -/

/-- Two states have a page with the same flag and the same bytes. -/
structure SamePage (s t : State) (p : Pid) (u : Upage) : Prop where
  present : (s.pte p u).present = true ∧ (t.pte p u).present = true
  writable : (s.pte p u).writable = (t.pte p u).writable
  memory : s.memory (s.pte p u).frame = t.memory (t.pte p u).frame

theorem HasPage.same {bytes : Nat → UInt8} (h : HasPage s p u writable bytes)
    (h' : HasPage t p u writable bytes) : SamePage s t p u :=
  ⟨⟨h.present, h'.present⟩, h.writable.trans h'.writable.symm,
    Bytes.ext_byte fun j hj => (h.byte j hj).trans (h'.byte j hj).symm⟩

/-- `s'` is what `page_lazy_load` makes of `s` for the `n` pages of a segment: each has its own new
entry, nothing else has changed in the tables, and a page that is loaded from its entry is like the
one that `load_segment` makes. -/
structure LoadsLikeEager (s s' : State) (cur : Pid) (file : FileId) (writable : Bool)
    (type : PageType) (ofs : Nat) (upage : Upage) (readBytes zeroBytes n : Nat) : Prop where
  ends : ∀ fuel, n < fuel →
    pageLazyLoadLoop cur file writable type fuel ofs upage readBytes zeroBytes s = some (true, s')
  nextSpte : s'.nextSpte = s.nextSpte + n
  lookup : ∀ p u, s'.lookup p u = if p = cur ∧ upage ≤ u ∧ u < upage + n then
    some (s.nextSpte + (u - upage)) else s.lookup p u
  /-- The pages `us` have been loaded, in this order from the last to the first. -/
  loaded : ∀ {t t' : State} {fuel : Nat}, n < fuel → t.file file = s.file file →
    t.placement.live cur = true →
    loadSegment cur file fuel ofs upage readBytes zeroBytes writable t = some (true, t') →
    ∀ (us : List Upage) (s₁ : State), (∀ u ∈ us, upage ≤ u ∧ u < upage + n) →
      Faulted cur file s' us s₁ → ∀ u ∈ us, (s₁.pte cur u).present = true → SamePage s₁ t' cur u
  /-- The next page can be any of those that are left. -/
  loads : ∀ {t t' : State} {fuel : Nat}, n < fuel → t.file file = s.file file →
    t.placement.live cur = true →
    loadSegment cur file fuel ofs upage readBytes zeroBytes writable t = some (true, t') →
    ∀ (us : List Upage) (s₁ : State), (∀ u ∈ us, upage ≤ u ∧ u < upage + n) →
      Faulted cur file s' us s₁ → ∀ u, upage ≤ u → u < upage + n → u ∉ us →
        ∃ q, s₁.lookup cur u = some q ∧ ∀ k s₂, s₁.vmGetFrame cur q = some (some k, s₂) →
          ∃ s₃, s₁.pageLoadFile cur q = some (true, s₃) ∧
            (s₃.file file = s₁.file file → SamePage s₃ t' cur u)

/-- What a segment that was loaded at once has. -/
theorem hasPage_loadSegment {fuel : Nat} (hpages : readBytes + zeroBytes = n * pgsize)
    (hword : readBytes + zeroBytes < 2 ^ 32) (hlive : t.placement.live cur = true) (hfuel : n < fuel)
    (h : loadSegment cur file fuel ofs upage readBytes zeroBytes writable t = some (true, t')) :
    ∀ i < n, HasPage t' cur (upage + i) writable (segmentByte (t.file file) ofs readBytes i) := by
  rw [loadSegment, pageLoop_eq _ n fuel ofs upage readBytes zeroBytes t hpages hword hfuel] at h
  exact fun i hi => ((pageRounds_loadSegmentPage n ofs upage readBytes t hlive
    (Option.some.inj h)).2 i hi).2

/-- The pages of a segment get from `page_load_file` what `load_segment` gives them. `Sound` holds
whenever a program or a mapping is loaded, by `Reachable.sound` and `Placement.Kept.lazyLoad`. -/
theorem pageLazyLoad_eq_loadSegment (hsound : s.placement.Sound none)
    (hlive : s.placement.live cur = true) (hpages : (readBytes + zeroBytes) % pgsize = 0)
    (hword : readBytes + zeroBytes < 2 ^ 32)
    (hfree : ∀ i < (readBytes + zeroBytes) / pgsize, s.lookup cur (upage + i) = none)
    (hlen : ofs + readBytes ≤ (s.file file).length) (ht : type ≠ .swap) :
    ∃ s', LoadsLikeEager s s' cur file writable type ofs upage readBytes zeroBytes
      ((readBytes + zeroBytes) / pgsize) := by
  have hmul : readBytes + zeroBytes = (readBytes + zeroBytes) / pgsize * pgsize :=
    (Nat.div_mul_cancel (Nat.dvd_of_mod_eq_zero hpages)).symm
  generalize (readBytes + zeroBytes) / pgsize = n at hmul hfree
  obtain ⟨s', hload, hlaid, hpage⟩ : ∃ s',
      pageLazyLoad cur file writable type n ofs upage readBytes s = (true, s') ∧ _ :=
    pageLazyLoad_laid n ofs upage readBytes s hlive hfree
  have hsound' := (Placement.Kept.lazyLoad stable_true ⟨hsound, trivial⟩ hlive hload ht).1.sound
  have hstart : Segment s' cur file (s.file file) type writable ofs upage readBytes n s.nextSpte [] :=
    segment_of_laid hsound hlaid hsound' hfree hpage
  refine ⟨s', ⟨fun fuel hfuel => ?_, hlaid.nextSpte, hlaid.lookup,
    fun {t t' fuel} hfuel hfile hlive' heager us s₁ hus h u hu hp => ?_,
    fun {t t' fuel} hfuel hfile hlive' heager us s₁ hus h u hle hlt hnew => ?_⟩⟩
  · rw [pageLazyLoadLoop, pageLoop_eq _ n fuel ofs upage readBytes zeroBytes s hmul hword hfuel,
      ← pageLazyLoad_eq_rounds, hload]
  · obtain ⟨hle, hlt⟩ := hus u hu
    obtain ⟨i, rfl⟩ := Nat.exists_eq_add_of_le hle
    have hi : i < n := Nat.lt_of_add_lt_add_left hlt
    have heager' := hasPage_loadSegment hmul hword hlive' hfuel heager i hi
    rw [hfile] at heager'
    exact ((h.segment hstart ht hlen hus).loaded i hi hu hp).same heager'
  · obtain ⟨i, rfl⟩ := Nat.exists_eq_add_of_le hle
    have hi : i < n := Nat.lt_of_add_lt_add_left hlt
    have heager' := hasPage_loadSegment hmul hword hlive' hfuel heager i hi
    rw [hfile] at heager'
    have hseg := h.segment hstart ht hlen hus
    refine ⟨s.nextSpte + i, hseg.lookup i hi, fun k s₂ hget => ?_⟩
    obtain ⟨s₃, hload', hdone⟩ := hseg.load ht hlen hi hnew hget
    exact ⟨s₃, hload', fun hsame => (hdone (hsame.trans hseg.content)).1.same heager'⟩

/-- A state with one process and a file of two pages and a half. -/
def oneFile : State :=
  { State.init (fun _ => ⟨0, .file, 0, 0, 0, 0, false, false, 0, 0⟩) 8 (fun _ => Bytes.zeros) 4
      (fun _ => Bytes.zeros) (fun _ => ⟨fun j => UInt8.ofNat j, 10240, 0⟩) 0 with
    thread := Function.update (fun _ => none) 0 (some {}) }

theorem sound_oneFile : oneFile.placement.Sound none := by
  have hkept : Placement.Kept (fun _ => True) oneFile.placement :=
    (Placement.Kept.newThread stable_true ⟨Booted.sound (.intro _ _ _ _ _ _ _), trivial⟩ rfl).1
  exact hkept.sound

theorem pageLazyLoad_eq_loadSegment_oneFile :
    (∃ t, loadSegment 0 0 4 4096 0x8048 6000 6288 true oneFile = some (true, t)) ∧
      ∃ s', LoadsLikeEager oneFile s' 0 0 true .file 4096 0x8048 6000 6288 3 := by
  refine ⟨?_, pageLazyLoad_eq_loadSegment sound_oneFile (by decide) (by decide) (by decide)
    (by decide) (by decide) (by decide)⟩
  have heager : ((loadSegment 0 0 4 4096 0x8048 6000 6288 true oneFile).map Prod.fst) =
      some true := by decide +kernel
  obtain ⟨⟨b, t⟩, ht, rfl⟩ := Option.map_eq_some_iff.mp heager
  exact ⟨t, ht⟩

end State

end Pintos.Vm
