import Pintos.Logic.Ledger
import Pintos.Properties.Placement
import Pintos.Vm.Interleaving

/-!
# Pages on their way

What matters of the kernel to the slots of the swap block: the tables, and how far each process is.
A slot that is taken belongs to a page that is in the swap block, or to a process that is writing a
page to it. A process works on at most two pages at a time, the one that it brings in and the one
that it evicts for it, or on one that it unmaps. It holds those pages, and no page is held by two.
-/

namespace Pintos.Vm

open Pintos.Logic

/-- What of a `Placement` decides who has which slot. -/
structure Tables where
  live : Pid → Bool
  lookup : Pid → Upage → Option SptePtr
  frame : Pid → Upage → Option Frame
  entry : SptePtr → Entry
  nextSpte : SptePtr
  swapSize : Nat
  swapBitmap : Nat → Bool

def Placement.tables (v : Placement) : Tables where
  live := v.live
  lookup := v.lookup
  frame := v.frame
  entry := v.entry
  nextSpte := v.nextSpte
  swapSize := v.swapSize
  swapBitmap := v.swapBitmap

/-- How far an eviction is. -/
inductive Phase where
  | chosen
  /-- `type` is `type_swap`. -/
  | typed
  | taken (i : Nat)
  /-- `swap_idx` is set. -/
  | written (i : Nat)
  /-- The page has been written to its file. -/
  | filed

/-- How far a process is. -/
inductive Stage where
  /-- It works on no page. -/
  | idle
  | bringing (r : Request)
  | evicting (r : Request) (f : FrameTabEntry) (u : Upage) (e : Phase)
  | flipping (q : SptePtr) (i : Nat)
  | installing (r : Request)
  /-- A page of the stack has its frame, and is not in the supplemental page table yet. -/
  | inserting (q : SptePtr) (u : Upage)
  | unmapping (q : SptePtr) (u : Upage)
  /-- The supplemental page table is gone. -/
  | gone

def Task.stage : Task → Stage
  | .getFrame r | .pushFront r _ | .tryEvictFrame r | .findUnaccessedPage r _
  | .findLongestTimePage r _ _ _ | .doEvictFrame r _ | .pushBack r _ | .read r _ => .bringing r
  | .writeOut r f u => .evicting r f u .chosen
  | .swapOut r f u => .evicting r f u .typed
  | .writeFromBlock r f u i => .evicting r f u (.taken i)
  | .clearPage r f u none => .evicting r f u .filed
  | .clearPage r f u (some i) => .evicting r f u (.written i)
  | .bitmapFlip q _ i => .flipping q i
  | .installPage r _ => .installing r
  | .hashInsert q u _ _ => .inserting q u
  | .freeFrame _ (.unmapped m q) | .freeFrameFrom _ _ (.unmapped m q) | .pagedirGetPage m q
  | .hashDelete m q _ => .unmapping q m.upage
  | .clearFrameTable | .clearFrameTableFrom _ | .pagedirDestroy _ => .gone
  | .user | .hung | .freeFrame _ (.failed _) | .freeFrameFrom _ _ (.failed _) | .unmap _
  | .freeSupplPageTable => .idle

/-- What the page is to be that is brought in. -/
def Request.Typed : Request → PageType → Prop
  | .file _, t => t ≠ .swap
  | .swap _, t => t = .swap
  | .grow _ _ _, _ => True

/-- What an eviction has done to the entry so far. -/
def Phase.Done : Phase → Entry → Prop
  | .chosen, _ => True
  | .typed, e | .taken _, e => e.type = .swap
  | .written i, e => e.type = .swap ∧ e.swapIdx = i
  | .filed, e => e.type ≠ .swap

namespace Stage

def grows : Stage → Option (SptePtr × Upage)
  | .bringing r | .evicting r _ _ _ | .installing r => r.grows
  | .inserting q u => some (q, u)
  | _ => none

/-- The entry whose fields are not set yet. -/
def fresh : Stage → Option SptePtr
  | .bringing r | .evicting r _ _ _ => r.grows.map Prod.fst
  | _ => none

/-- The entry whose page is in no frame and yet has no slot: it has given it back, or it is new. -/
def moves : Stage → Option SptePtr
  | .installing (.swap q) => some q
  | .bringing r | .evicting r _ _ _ | .installing r => r.grows.map Prod.fst
  | _ => none

/-- The slot that the process is writing to. -/
def slot : Stage → Option Nat
  | .evicting _ _ _ (.taken i) | .evicting _ _ _ (.written i) => some i
  | _ => none

/-- The entry of the page that is unmapped. -/
def unmaps : Stage → Option SptePtr
  | .unmapping q _ => some q
  | _ => none

/-- The page that is evicted. -/
def victim : Stage → Option FrameTabEntry
  | .evicting _ f _ _ => some f
  | _ => none

end Stage

/-- The tables, and how far the processes are. -/
structure Paging extends Tables where
  stage : Pid → Stage

namespace Paging

/-- The entry of a page, also if it is not in the supplemental page table yet. -/
def page (x : Paging) (p : Pid) (u : Upage) : Option SptePtr :=
  match (x.stage p).grows with
  | some (q, u') => if u = u' then some q else x.lookup p u
  | none => x.lookup p u

/-- The slot of a page. -/
def slot (x : Paging) (p : Pid) (u : Upage) : Option Nat :=
  (x.page p u).bind fun q =>
    if (x.entry q).type = .swap ∧ x.frame p u = none ∧ (x.stage p).moves ≠ some q then
      some (x.entry q).swapIdx
    else none

/-- The slots of the pages, and of the processes that are writing to one. -/
def owns (x : Paging) : (Pid × Upage) ⊕ Pid → Option Nat
  | .inl (p, u) => x.slot p u
  | .inr p => (x.stage p).slot

/-- The page that a process brings in has an entry and no frame. -/
structure Pending (x : Paging) (p : Pid) (r : Request) (u : Upage) : Prop where
  live : x.live p = true
  page : x.page p u = some r.spte
  frame : x.frame p u = none
  typed : r.Typed (x.entry r.spte).type
  new : ∀ q u', r.grows = some (q, u') → x.lookup p u' = none

/-- What holds of a process that is so far. -/
def Fits (x : Paging) (p : Pid) : Stage → Prop
  | .idle => True
  | .bringing r | .installing r => ∃ u, x.Pending p r u
  | .evicting r f u e => (∃ u', x.Pending p r u') ∧ x.page f.owner u = some f.spte ∧
      x.frame f.owner u = some f.frame ∧ e.Done (x.entry f.spte)
  | .flipping q i => (∃ u, x.Pending p (.swap q) u) ∧ (x.entry q).swapIdx = i
  | .inserting _ u => x.live p = true ∧ x.lookup p u = none
  | .unmapping q u => x.page p u = some q ∧ ¬((x.entry q).type = .swap ∧ x.frame p u = none)
  | .gone => ∀ u, x.page p u = none

/-- A process that is so far works on the page `u` of `a`. -/
def WorksOn (x : Paging) (p a : Pid) (u : Upage) : Stage → Prop
  | .bringing r | .installing r => a = p ∧ x.page p u = some r.spte
  | .evicting r f v _ => (a = p ∧ x.page p u = some r.spte) ∨ (a = f.owner ∧ u = v)
  | .flipping q _ => a = p ∧ x.page p u = some q
  | .unmapping _ v => a = p ∧ u = v
  | .idle | .inserting _ _ | .gone => False

def Holds (x : Paging) (p a : Pid) (u : Upage) : Prop := x.WorksOn p a u (x.stage p)

/-- A page has one entry, an entry has one page, and knows it. -/
structure Paged (x : Paging) : Prop where
  addr : ∀ p u q, x.page p u = some q → (x.stage p).fresh ≠ some q → (x.entry q).addr = u
  lt : ∀ p u q, x.page p u = some q → q < x.nextSpte
  unique : ∀ p u p' u' q, x.page p u = some q → x.page p' u' = some q → p = p' ∧ u = u'

structure Sound (x : Paging) : Prop where
  paged : x.Paged
  ledger : Ledger x.swapBitmap x.owns
  within : ∀ i, x.swapBitmap i = true → i < x.swapSize
  fits : ∀ p, x.Fits p (x.stage p)
  apart : ∀ p p' a u, x.Holds p a u → x.Holds p' a u → p = p'

/-- A process has got on. -/
def goes (x : Paging) (p : Pid) (t : Tables) (st : Stage) : Paging where
  toTables := t
  stage := Function.update x.stage p st

variable {x : Paging} {p p' a : Pid} {u u' : Upage} {q : SptePtr} {t : Tables} {st : Stage}
  {r : Request} {f : FrameTabEntry} {i : Nat}

/-! ## What a step leaves alone -/

@[simp] theorem goes_stage_self : (x.goes p t st).stage p = st := Function.update_self ..

theorem goes_stage_of_ne (h : p' ≠ p) : (x.goes p t st).stage p' = x.stage p' :=
  Function.update_of_ne h ..

theorem page_goes_of_ne (h : p' ≠ p) (hl : t.lookup p' = x.lookup p') :
    (x.goes p t st).page p' = x.page p' := by
  funext u
  simp only [page, goes_stage_of_ne h]
  simp only [goes, hl]

theorem page_congr {y : Paging} (hl : y.lookup = x.lookup) (hs : y.stage = x.stage) :
    y.page = x.page := by
  funext p u
  simp only [page, hl, hs]

/-- A step that neither grows the stack nor is the end of it. -/
theorem page_goes (hl : t.lookup = x.lookup) (hg : st.grows = (x.stage p).grows) :
    (x.goes p t st).page = x.page := by
  funext p' u
  by_cases h : p' = p
  · subst h
    simp only [page, goes_stage_self, hg]
    simp only [goes, hl]
  · rw [page_goes_of_ne h (congrFun hl p')]

theorem worksOn_goes_of_ne (h : p' ≠ p) (hl : t.lookup p' = x.lookup p') {st' : Stage} :
    (x.goes p t st).WorksOn p' a u st' ↔ x.WorksOn p' a u st' := by
  cases st' <;> simp only [WorksOn, page_goes_of_ne h hl]

theorem holds_goes_of_ne (h : p' ≠ p) (hl : t.lookup p' = x.lookup p') :
    (x.goes p t st).Holds p' a u ↔ x.Holds p' a u := by
  rw [Holds, Holds, goes_stage_of_ne h, worksOn_goes_of_ne h hl]

theorem holds_goes_self :
    (x.goes p t st).Holds p a u ↔ (x.goes p t st).WorksOn p a u st := by
  rw [Holds, goes_stage_self]

/-- What the other processes need is there as before: the pages that they hold. -/
structure Leaves (x : Paging) (p : Pid) (t : Tables) (st : Stage) : Prop where
  live : ∀ p', p' ≠ p → t.live p' = x.live p'
  lookup : ∀ p', p' ≠ p → t.lookup p' = x.lookup p'
  held : ∀ p', p' ≠ p → ∀ a u q, x.Holds p' a u → x.page a u = some q →
    (x.goes p t st).page a u = some q ∧ t.frame a u = x.frame a u ∧ t.entry q = x.entry q

theorem Leaves.pending (h : x.Leaves p t st) (hp : p' ≠ p) (hr : x.Pending p' r u)
    (hh : x.Holds p' p' u) : (x.goes p t st).Pending p' r u := by
  obtain ⟨hpage, hframe, hentry⟩ := h.held p' hp p' u r.spte hh hr.page
  exact ⟨(h.live p' hp).trans hr.live, hpage, hframe.trans hr.frame, hentry.symm ▸ hr.typed,
    fun q u' hq => (congrFun (h.lookup p' hp) u').trans (hr.new q u' hq)⟩

theorem Leaves.fits (h : x.Leaves p t st) (hp : p' ≠ p) (hf : x.Fits p' (x.stage p')) :
    (x.goes p t st).Fits p' (x.stage p') := by
  have hheld : ∀ a u, x.WorksOn p' a u (x.stage p') → x.Holds p' a u := fun _ _ hh => hh
  cases hst : x.stage p' with
  | idle => trivial
  | bringing r =>
    rw [hst] at hf hheld
    obtain ⟨u, hr⟩ := hf
    exact ⟨u, h.pending hp hr (hheld p' u ⟨rfl, hr.page⟩)⟩
  | evicting r f v e =>
    rw [hst] at hf hheld
    obtain ⟨⟨u, hr⟩, hpage, hframe, hdone⟩ := hf
    obtain ⟨hpage', hframe', hentry⟩ :=
      h.held p' hp f.owner v f.spte (hheld f.owner v (.inr ⟨rfl, rfl⟩)) hpage
    exact ⟨⟨u, h.pending hp hr (hheld p' u (.inl ⟨rfl, hr.page⟩))⟩, hpage',
      hframe'.trans hframe, hentry.symm ▸ hdone⟩
  | flipping q i =>
    rw [hst] at hf hheld
    obtain ⟨⟨u, hr⟩, hi⟩ := hf
    have hh := hheld p' u ⟨rfl, hr.page⟩
    exact ⟨⟨u, h.pending hp hr hh⟩, (h.held p' hp p' u q hh hr.page).2.2.symm ▸ hi⟩
  | installing r =>
    rw [hst] at hf hheld
    obtain ⟨u, hr⟩ := hf
    exact ⟨u, h.pending hp hr (hheld p' u ⟨rfl, hr.page⟩)⟩
  | inserting q u =>
    rw [hst] at hf
    exact ⟨(h.live p' hp).trans hf.1, (congrFun (h.lookup p' hp) u).trans hf.2⟩
  | unmapping q v =>
    rw [hst] at hf hheld
    obtain ⟨hpage, hin⟩ := hf
    obtain ⟨hpage', hframe, hentry⟩ := h.held p' hp p' v q (hheld p' v ⟨rfl, rfl⟩) hpage
    refine ⟨hpage', fun ⟨ht, hk⟩ => hin ⟨?_, hframe.symm.trans hk⟩⟩
    rw [← hentry]
    exact ht
  | gone =>
    rw [hst] at hf
    exact fun u => (congrFun (page_goes_of_ne hp (h.lookup p' hp)) u).trans (hf u)

/-- What is to be shown of a step. -/
theorem Sound.goes (h : x.Sound) (hleaves : x.Leaves p t st) (hpaged : (x.goes p t st).Paged)
    (hledger : Ledger t.swapBitmap (x.goes p t st).owns)
    (hwithin : ∀ i, t.swapBitmap i = true → i < t.swapSize) (hfits : (x.goes p t st).Fits p st)
    (hapart : ∀ a u, (x.goes p t st).Holds p a u → ∀ p', p' ≠ p → ¬x.Holds p' a u) :
    (x.goes p t st).Sound where
  paged := hpaged
  ledger := hledger
  within := hwithin
  fits p' := by
    by_cases hp : p' = p
    · subst hp
      rwa [goes_stage_self]
    · rw [goes_stage_of_ne hp]
      exact hleaves.fits hp (h.fits p')
  apart p₁ p₂ a u h₁ h₂ := by
    by_cases hp₁ : p₁ = p
    · by_cases hp₂ : p₂ = p
      · rw [hp₁, hp₂]
      · rw [holds_goes_of_ne hp₂ (hleaves.lookup p₂ hp₂)] at h₂
        exact absurd h₂ (hapart a u (hp₁ ▸ h₁) p₂ hp₂)
    · rw [holds_goes_of_ne hp₁ (hleaves.lookup p₁ hp₁)] at h₁
      by_cases hp₂ : p₂ = p
      · exact absurd h₁ (hapart a u (hp₂ ▸ h₂) p₁ hp₁)
      · rw [holds_goes_of_ne hp₂ (hleaves.lookup p₂ hp₂)] at h₂
        exact h.apart p₁ p₂ a u h₁ h₂

/-- A step that changes no page but those that the process holds. -/
theorem Sound.leaves (h : x.Sound) (hlive : ∀ p', p' ≠ p → t.live p' = x.live p')
    (hlookup : ∀ p', p' ≠ p → t.lookup p' = x.lookup p')
    (hkeep : ∀ a u q, x.page a u = some q → ¬x.Holds p a u →
      (x.goes p t st).page a u = some q ∧ t.frame a u = x.frame a u ∧ t.entry q = x.entry q) :
    x.Leaves p t st where
  live := hlive
  lookup := hlookup
  held p' hp a u q hh hpage := hkeep a u q hpage fun hh' => hp (h.apart p' p a u hh hh')

/-- The pages that a process holds are held by no other. -/
theorem Sound.not_held (h : x.Sound) (hp : x.WorksOn p a u (x.stage p)) (hne : p' ≠ p) :
    ¬x.Holds p' a u := fun hh => hne (h.apart p' p a u hh hp)

/-! ### Slots -/

theorem slot_of_frame {k : Frame} (h : x.frame a u = some k) : x.slot a u = none := by
  simp only [slot, h, reduceCtorEq, false_and, and_false, if_false, Option.bind_fun_none]

theorem slot_of_type (hpage : x.page a u = some q) (ht : (x.entry q).type ≠ .swap) :
    x.slot a u = none := by
  simp only [slot, hpage, Option.bind_some, ht, false_and, if_false]

theorem slot_of_moves (hpage : x.page a u = some q) (hm : (x.stage a).moves = some q) :
    x.slot a u = none := by
  simp only [slot, hpage, Option.bind_some, hm, ne_eq, not_true_eq_false, and_false, if_false]

theorem slot_of_page (hpage : x.page a u = none) : x.slot a u = none := by
  rw [slot, hpage, Option.bind_none]

theorem slot_eq_some (hpage : x.page a u = some q) (ht : (x.entry q).type = .swap)
    (hframe : x.frame a u = none) (hm : (x.stage a).moves ≠ some q) :
    x.slot a u = some (x.entry q).swapIdx := by
  rw [slot, hpage, Option.bind_some, if_pos ⟨ht, hframe, hm⟩]

/-- A page keeps its slot in a step that does not change it. -/
theorem slot_goes (hpage : (x.goes p t st).page a u = x.page a u)
    (hframe : t.frame a u = x.frame a u)
    (hentry : ∀ q, x.page a u = some q → t.entry q = x.entry q)
    (hmoves : a = p → ∀ q, x.page a u = some q →
      (st.moves = some q ↔ (x.stage p).moves = some q)) :
    (x.goes p t st).slot a u = x.slot a u := by
  cases hq : x.page a u with
  | none => rw [slot_of_page hq, slot_of_page (hpage.trans hq)]
  | some q =>
    have hm : ((x.goes p t st).stage a).moves = some q ↔ (x.stage a).moves = some q := by
      by_cases ha : a = p
      · subst ha
        rw [goes_stage_self]
        exact hmoves rfl q hq
      · rw [goes_stage_of_ne ha]
    have hentry : (x.goes p t st).entry q = x.entry q := hentry q hq
    have hframe : (x.goes p t st).frame a u = x.frame a u := hframe
    simp only [slot, hpage, hq, Option.bind_some, hentry, hframe, ne_eq, hm]

theorem owns_goes (hslots : ∀ a u, (x.goes p t st).slot a u = x.slot a u)
    (hslot : st.slot = (x.stage p).slot) : (x.goes p t st).owns = x.owns := by
  funext y
  rcases y with ⟨a, u⟩ | p'
  · exact hslots a u
  · by_cases hp : p' = p
    · subst hp
      simp only [owns, goes_stage_self, hslot]
    · simp only [owns, goes_stage_of_ne hp]

/-! ## Steps that leave the tables alone -/

theorem fits_goes (hgrows : st.grows = (x.stage p).grows) {st' : Stage} :
    (x.goes p x.toTables st).Fits p' st' ↔ x.Fits p' st' := by
  have hpage := page_goes (t := x.toTables) rfl hgrows
  have hpending : ∀ r u, (x.goes p x.toTables st).Pending p' r u ↔ x.Pending p' r u :=
    fun r u => ⟨fun ⟨h₁, h₂, h₃, h₄, h₅⟩ => ⟨h₁, hpage ▸ h₂, h₃, h₄, h₅⟩,
      fun ⟨h₁, h₂, h₃, h₄, h₅⟩ => ⟨h₁, hpage.symm ▸ h₂, h₃, h₄, h₅⟩⟩
  cases st' <;> simp only [Fits, hpending, hpage] <;> rfl

theorem worksOn_goes (hgrows : st.grows = (x.stage p).grows) {st' : Stage} :
    (x.goes p x.toTables st).WorksOn p' a u st' ↔ x.WorksOn p' a u st' := by
  have hpage := page_goes (t := x.toTables) rfl hgrows
  cases st' <;> simp only [WorksOn, hpage]

/-- Pages may go. -/
theorem Paged.goes (h : x.Paged)
    (hpage : ∀ a u q, (x.goes p t st).page a u = some q → x.page a u = some q)
    (haddr : ∀ q, (t.entry q).addr = (x.entry q).addr) (hnext : x.nextSpte ≤ t.nextSpte)
    (hfresh : ∀ u q, (x.goes p t st).page p u = some q → (x.stage p).fresh = some q →
      st.fresh = some q) : (x.goes p t st).Paged := by
  refine ⟨fun a u q hq hf => ?_,
    fun a u q hq => Nat.lt_of_lt_of_le (h.lt a u q (hpage a u q hq)) hnext,
    fun a u a' u' q hq hq' => h.unique a u a' u' q (hpage a u q hq) (hpage a' u' q hq')⟩
  refine (haddr q).trans (h.addr a u q (hpage a u q hq) fun hc => hf ?_)
  by_cases ha : a = p
  · subst ha
    rw [goes_stage_self, hfresh u q hq hc]
  · rw [goes_stage_of_ne ha, hc]

/-- A process gets on to a stage that fits, with pages that no other process holds. -/
theorem Sound.restage (h : x.Sound) (hgrows : st.grows = (x.stage p).grows)
    (hfresh : st.fresh = (x.stage p).fresh) (hmoves : st.moves = (x.stage p).moves)
    (hslot : st.slot = (x.stage p).slot) (hfits : x.Fits p st)
    (hapart : ∀ a u, x.WorksOn p a u st → ∀ p', p' ≠ p → ¬x.Holds p' a u) :
    (x.goes p x.toTables st).Sound := by
  have hpage := page_goes (t := x.toTables) rfl hgrows
  refine h.goes (h.leaves (fun _ _ => rfl) (fun _ _ => rfl) fun a u q hq _ => ?_)
    (h.paged.goes (fun a u q hq => hpage ▸ hq) (fun _ => rfl) le_rfl fun _ _ _ hq =>
      hfresh.trans hq) ?_ h.within ((fits_goes hgrows).mpr hfits) fun a u hh => ?_
  · exact ⟨hpage ▸ hq, rfl, rfl⟩
  · rw [owns_goes (fun a u => slot_goes (congrFun (congrFun hpage a) u) rfl (fun _ _ => rfl)
      fun _ q _ => by rw [hmoves]) hslot]
    exact h.ledger
  · exact hapart a u ((worksOn_goes hgrows).mp (holds_goes_self.mp hh))

/-- A process that is as far as before. -/
theorem goes_self (hst : st = x.stage p) : x.goes p x.toTables st = x := by
  rw [goes, hst, Function.update_eq_self]

/-! ## Bringing in a page -/

/-- The entry of a page that a process holds is the entry of no page that it does not hold. -/
theorem Sound.spte_ne (h : x.Sound) {q' : SptePtr} (hq : x.page a u = some q)
    (hq' : x.page p' u' = some q') (hne : ¬(a = p' ∧ u = u')) : q ≠ q' := by
  rintro rfl
  exact hne (h.paged.unique a u p' u' q hq hq')

/-- The entry of a new page of the stack gets its fields. -/
theorem Sound.initStack {e : Entry} {program : Option FileId} (h : x.Sound)
    (hst : x.stage p = .bringing (.grow q u program)) (he : e.addr = u) :
    (x.goes p { x.toTables with entry := Function.update x.entry q e }
      (.installing (.grow q u program))).Sound := by
  have hpage : (x.goes p { x.toTables with entry := Function.update x.entry q e }
      (.installing (.grow q u program))).page = x.page := page_goes rfl (hst ▸ rfl)
  have hfits : x.Fits p (x.stage p) := h.fits p
  rw [hst] at hfits
  obtain ⟨v, hlive, hq, hframe, -, hnew⟩ := hfits
  have hself : x.page p u = some q := by simp only [page, hst, Stage.grows, Request.grows, if_true]
  have hother : ∀ a v q', x.page a v = some q' → ¬(a = p ∧ v = u) →
      Function.update x.entry q e q' = x.entry q' := fun a v q' hq' hne =>
    Function.update_of_ne (h.spte_ne hq' hself hne) ..
  refine h.goes (h.leaves (fun _ _ => rfl) (fun _ _ => rfl) fun a v q' hq' hh => ?_) ?_ ?_ h.within
    ⟨v, hlive, hpage ▸ hq, hframe, trivial, hnew⟩ fun a v hh p' hp' => ?_
  · refine ⟨hpage ▸ hq', rfl, hother a v q' hq' ?_⟩
    rintro ⟨rfl, rfl⟩
    refine hh ?_
    rw [Holds, hst]
    exact ⟨rfl, hself⟩
  · refine ⟨fun a v q' hq' hfresh => ?_, fun a v q' hq' => h.paged.lt a v q' (hpage ▸ hq'),
      fun a v a' v' q' hq' hq'' => h.paged.unique a v a' v' q' (hpage ▸ hq') (hpage ▸ hq'')⟩
    rw [hpage] at hq'
    by_cases hc : a = p ∧ v = u
    · obtain ⟨rfl, rfl⟩ := hc
      obtain rfl := Option.some.inj (hself.symm.trans hq')
      exact (congrArg Entry.addr (Function.update_self ..)).trans he
    · refine (congrArg Entry.addr (hother a v q' hq' hc)).trans (h.paged.addr a v q' hq' ?_)
      by_cases ha : a = p
      · subst ha
        rw [hst]
        exact fun hq => h.spte_ne hq' hself hc (Option.some.inj hq).symm
      · rwa [goes_stage_of_ne ha] at hfresh
  · rw [owns_goes (fun a v => ?_) (by rw [hst]; rfl)]
    · exact h.ledger
    by_cases hc : a = p ∧ v = u
    · obtain ⟨rfl, rfl⟩ := hc
      rw [slot_of_moves hself (by rw [hst]; rfl),
        slot_of_moves (congrFun (congrFun hpage a) v ▸ hself) (by rw [goes_stage_self]; rfl)]
    · exact slot_goes (congrFun (congrFun hpage a) v) rfl (fun q' hq' => hother a v q' hq' hc)
        fun _ _ _ => by rw [hst]; rfl
  · obtain ⟨rfl, hh⟩ := holds_goes_self.mp hh
    rw [hpage] at hh
    refine h.not_held ?_ hp'
    rw [hst]
    exact ⟨rfl, hh⟩

/-- A page gets its frame. -/
theorem Sound.install (st : Stage) {e : Entry} {k : Frame} (h : x.Sound)
    (hst : x.stage p = .installing r)
    (hq : x.page p u = some r.spte) (he : e.addr = (x.entry r.spte).addr)
    (hgrows : st.grows = r.grows) (hmoves : st.moves = none) (hslot : st.slot = none)
    (hfits : (x.goes p { x.toTables with
      frame := Placement.setPage x.frame p u (some k)
      entry := Function.update x.entry r.spte e } st).Fits p st)
    (hnot : ∀ x' : Paging, ∀ a v, ¬x'.WorksOn p a v st) :
    (x.goes p { x.toTables with
      frame := Placement.setPage x.frame p u (some k)
      entry := Function.update x.entry r.spte e } st).Sound := by
  have hpage : (x.goes p { x.toTables with
      frame := Placement.setPage x.frame p u (some k)
      entry := Function.update x.entry r.spte e } st).page = x.page :=
    page_goes rfl (by rw [hst, hgrows]; rfl)
  have hpending : x.Fits p (x.stage p) := h.fits p
  rw [hst] at hpending
  obtain ⟨v, hr⟩ := hpending
  obtain ⟨-, rfl⟩ := h.paged.unique _ _ _ _ _ hr.page hq
  have hother : ∀ a v' q', x.page a v' = some q' → ¬(a = p ∧ v' = v) →
      Function.update x.entry r.spte e q' = x.entry q' := fun a v' q' hq' hne =>
    Function.update_of_ne (h.spte_ne hq' hq hne) ..
  refine h.goes (h.leaves (fun _ _ => rfl) (fun _ _ => rfl) fun a v' q' hq' hh => ?_)
    (h.paged.goes (fun a v' q' hq' => hpage ▸ hq') (fun q' => ?_) le_rfl fun _ q' _ hq' => ?_) ?_
    h.within hfits
    fun a v' hh => absurd (holds_goes_self.mp hh) (hnot _ a v')
  · have hne : ¬(a = p ∧ v' = v) := by
      rintro ⟨rfl, rfl⟩
      refine hh ?_
      rw [Holds, hst]
      exact ⟨rfl, hq⟩
    exact ⟨hpage ▸ hq', Placement.setPage_of_ne hne, hother a v' q' hq' hne⟩
  · by_cases hc : q' = r.spte
    · subst hc
      exact (congrArg Entry.addr (Function.update_self ..)).trans he
    · exact congrArg Entry.addr (Function.update_of_ne hc ..)
  · rw [hst] at hq'
    cases hq'
  · rw [owns_goes (fun a v' => ?_) (by rw [hst, hslot]; rfl)]
    · exact h.ledger
    by_cases hc : a = p ∧ v' = v
    · obtain ⟨rfl, rfl⟩ := hc
      rw [slot_of_frame (k := k) Placement.setPage_self]
      cases r with
      | file q => exact (slot_of_type hq hr.typed).symm
      | swap q => exact (slot_of_moves hq (by rw [hst]; rfl)).symm
      | grow q u program => exact (slot_of_moves hq (by rw [hst]; rfl)).symm
    · refine slot_goes (congrFun (congrFun hpage a) v') (Placement.setPage_of_ne hc)
        (fun q' hq' => hother a v' q' hq' hc) ?_
      rintro rfl q' hq'
      rw [hmoves, hst]
      refine iff_of_false nofun fun hm => hc ⟨rfl, ?_⟩
      have hspte : q' = r.spte := by
        cases r with
        | file q => cases hm
        | swap q => exact (Option.some.inj hm).symm
        | grow q u program => exact (Option.some.inj hm).symm
      exact (h.paged.unique _ _ _ _ _ hq' (hspte ▸ hq)).2

/-- A new page of the stack is entered in the supplemental page table. -/
theorem Sound.enter (h : x.Sound) (hst : x.stage p = .inserting q u) :
    (x.goes p { x.toTables with
      lookup := Placement.setPage x.lookup p u (some q) } .idle).Sound := by
  have hpage : (x.goes p { x.toTables with lookup := Placement.setPage x.lookup p u (some q) }
      .idle).page = x.page := by
    funext a v
    by_cases ha : a = p
    · subst ha
      simp only [page, goes_stage_self, hst, Stage.grows]
      split
      · next hv =>
        subst hv
        exact Placement.setPage_self
      · next hv => exact Placement.setPage_of_ne fun hc => hv hc.2
    · exact congrFun (page_goes_of_ne ha (funext fun v =>
        Placement.setPage_of_ne fun hc => ha hc.1)) v
  refine h.goes (h.leaves (fun _ _ => rfl) (fun p' hp' => funext fun v =>
    Placement.setPage_of_ne fun hc => hp' hc.1) fun a v q' hq' _ => ⟨hpage ▸ hq', rfl, rfl⟩)
    (h.paged.goes (fun a v q' hq' => hpage ▸ hq') (fun _ => rfl) le_rfl fun _ q' _ hq' => ?_) ?_
    h.within trivial
    fun a v hh => absurd (holds_goes_self.mp hh) id
  · rw [hst] at hq'
    cases hq'
  · rw [owns_goes (fun a v => slot_goes (congrFun (congrFun hpage a) v) rfl (fun _ _ => rfl)
      fun _ _ _ => by rw [hst]; rfl) (by rw [hst]; rfl)]
    exact h.ledger

/-! ## Evicting a page -/

/-- What a process that evicts a page knows of it. -/
theorem Sound.victim {e : Phase} (h : x.Sound) (hst : x.stage p = .evicting r f u e) :
    (∃ u', x.Pending p r u') ∧ x.page f.owner u = some f.spte ∧
      x.frame f.owner u = some f.frame ∧ e.Done (x.entry f.spte) := by
  have hfits := h.fits p
  rw [hst] at hfits
  exact hfits

theorem Sound.request_ne {e : Phase} (h : x.Sound) (hst : x.stage p = .evicting r f u e) :
    r.spte ≠ f.spte := by
  obtain ⟨⟨u', hr⟩, hpage, hframe, -⟩ := h.victim hst
  refine h.spte_ne hr.page hpage ?_
  rintro ⟨rfl, rfl⟩
  cases hr.frame.symm.trans hframe

/-- A page without a slot is in no frame. -/
theorem Sound.frame_of_moves (h : x.Sound) (hm : (x.stage a).moves = some q)
    (hq : x.page a u = some q) : x.frame a u = none := by
  have hpending : ∃ r v, x.Pending a r v ∧ r.spte = q := by
    have hfits := h.fits a
    cases hst : x.stage a with
    | bringing r =>
      rw [hst] at hfits hm
      obtain ⟨v, hr⟩ := hfits
      cases r with
      | grow q' u' program => exact ⟨_, v, hr, Option.some.inj hm⟩
      | file | swap => cases hm
    | evicting r f w e =>
      rw [hst] at hfits hm
      obtain ⟨⟨v, hr⟩, -⟩ := hfits
      cases r with
      | grow q' u' program => exact ⟨_, v, hr, Option.some.inj hm⟩
      | file | swap => cases hm
    | installing r =>
      rw [hst] at hfits hm
      obtain ⟨v, hr⟩ := hfits
      cases r with
      | swap q' => exact ⟨_, v, hr, Option.some.inj hm⟩
      | grow q' u' program => exact ⟨_, v, hr, Option.some.inj hm⟩
      | file => cases hm
    | idle | flipping | inserting | unmapping | gone =>
      rw [hst] at hm
      cases hm
  obtain ⟨r, v, hr, rfl⟩ := hpending
  obtain ⟨-, rfl⟩ := h.paged.unique _ _ _ _ _ hr.page hq
  exact hr.frame

/-- A page that a process works on is its own and in no frame, or unmapped, or evicted. -/
theorem Sound.holds_cases (h : x.Sound) (hh : x.Holds p a u) :
    (a = p ∧ x.frame p u = none) ∨
      (∃ q, a = p ∧ x.page p u = some q ∧ (x.stage p).unmaps = some q) ∨
      ∃ f, (x.stage p).victim = some f ∧ a = f.owner ∧ x.page a u = some f.spte ∧
        x.frame a u = some f.frame := by
  have hfits := h.fits p
  rw [Holds] at hh
  cases hst : x.stage p with
  | bringing r | installing r =>
    rw [hst] at hh hfits
    obtain ⟨rfl, hq⟩ := hh
    obtain ⟨v, hr⟩ := hfits
    obtain ⟨-, rfl⟩ := h.paged.unique _ _ _ _ _ hq hr.page
    exact .inl ⟨rfl, hr.frame⟩
  | flipping q i =>
    rw [hst] at hh hfits
    obtain ⟨rfl, hq⟩ := hh
    obtain ⟨⟨v, hr⟩, -⟩ := hfits
    obtain ⟨-, rfl⟩ := h.paged.unique _ _ _ _ _ hq hr.page
    exact .inl ⟨rfl, hr.frame⟩
  | evicting r f v e =>
    obtain ⟨⟨v', hr⟩, hq, hk, -⟩ := h.victim hst
    rw [hst] at hh
    rcases hh with ⟨rfl, hq'⟩ | ⟨rfl, rfl⟩
    · obtain ⟨-, rfl⟩ := h.paged.unique _ _ _ _ _ hq' hr.page
      exact .inl ⟨rfl, hr.frame⟩
    · exact .inr (.inr ⟨f, rfl, rfl, hq, hk⟩)
  | unmapping q v =>
    rw [hst] at hh hfits
    obtain ⟨rfl, rfl⟩ := hh
    exact .inr (.inl ⟨q, rfl, hfits.1, rfl⟩)
  | idle | inserting | gone =>
    rw [hst] at hh
    exact hh.elim

/-- The entry of the page that is evicted changes. -/
theorem Sound.mark {e e' : Phase} {n : Entry} (h : x.Sound) (hst : x.stage p = .evicting r f u e)
    (hn : n.addr = (x.entry f.spte).addr) (hdone : e'.Done n)
    (hslot : (Stage.evicting r f u e').slot = (Stage.evicting r f u e).slot) :
    (x.goes p { x.toTables with entry := Function.update x.entry f.spte n }
      (.evicting r f u e')).Sound := by
  obtain ⟨⟨u', hr⟩, hq, hframe, -⟩ := h.victim hst
  have hpage : (x.goes p { x.toTables with entry := Function.update x.entry f.spte n }
      (.evicting r f u e')).page = x.page := page_goes rfl (hst ▸ rfl)
  have hother : ∀ q', q' ≠ f.spte → Function.update x.entry f.spte n q' = x.entry q' :=
    fun q' hq' => Function.update_of_ne hq' ..
  have hspte : r.spte ≠ f.spte := h.request_ne hst
  refine h.goes (h.leaves (fun _ _ => rfl) (fun _ _ => rfl) fun a v q' hq' hh => ?_)
    (h.paged.goes (fun a v q' hq' => hpage ▸ hq') (fun q' => ?_) le_rfl fun _ q' _ hq' => ?_) ?_
    h.within ⟨⟨u', hr.live, hpage ▸ hr.page, hr.frame, ?_, hr.new⟩, hpage ▸ hq, hframe, ?_⟩
    fun a v hh p' hp' => h.not_held ?_ hp'
  · refine ⟨hpage ▸ hq', rfl, hother q' (h.spte_ne hq' hq ?_)⟩
    rintro ⟨rfl, rfl⟩
    refine hh ?_
    rw [Holds, hst]
    exact .inr ⟨rfl, rfl⟩
  · by_cases hc : q' = f.spte
    · subst hc
      exact (congrArg Entry.addr (Function.update_self ..)).trans hn
    · exact congrArg Entry.addr (hother q' hc)
  · rwa [hst] at hq'
  · rw [owns_goes (fun a v => ?_) (by rw [hst]; exact hslot)]
    · exact h.ledger
    by_cases hc : a = f.owner ∧ v = u
    · obtain ⟨rfl, rfl⟩ := hc
      rw [slot_of_frame hframe]
      exact slot_of_frame (k := f.frame) hframe
    · exact slot_goes (congrFun (congrFun hpage a) v) rfl
        (fun q' hq' => hother q' (h.spte_ne hq' hq hc)) fun _ _ _ => by rw [hst]; rfl
  · exact (congrArg (fun n => r.Typed n.type) (hother r.spte hspte)).mpr hr.typed
  · exact (congrArg e'.Done (Function.update_self ..)).mpr hdone
  · rw [hst]
    obtain ⟨rfl, hh⟩ | hh := holds_goes_self.mp hh
    · exact .inl ⟨rfl, hpage ▸ hh⟩
    · exact .inr hh

/-- A slot that is free is taken. -/
theorem Sound.takeSlot (h : x.Sound) (hst : x.stage p = .evicting r f u .typed)
    (hi : i < x.swapSize) (hfree : x.swapBitmap i = false) :
    (x.goes p { x.toTables with swapBitmap := Function.update x.swapBitmap i true }
      (.evicting r f u (.taken i))).Sound := by
  obtain ⟨⟨u', hr⟩, hq, hframe, hdone⟩ := h.victim hst
  have hpage : (x.goes p { x.toTables with swapBitmap := Function.update x.swapBitmap i true }
      (.evicting r f u (.taken i))).page = x.page := page_goes rfl (hst ▸ rfl)
  refine h.goes (h.leaves (fun _ _ => rfl) (fun _ _ => rfl) fun a v q' hq' _ =>
      ⟨hpage ▸ hq', rfl, rfl⟩)
    (h.paged.goes (fun a v q' hq' => hpage ▸ hq') (fun _ => rfl) le_rfl fun _ q' _ hq' => ?_) ?_ ?_
    ⟨⟨u', hr.live, hpage ▸ hr.page, hr.frame, hr.typed, hr.new⟩, hpage ▸ hq, hframe, hdone⟩
    fun a v hh p' hp' => h.not_held ?_ hp'
  · rwa [hst] at hq'
  · refine h.ledger.grab (x := .inr p) hfree ?_ ?_ fun y hy => ?_
    · simp only [owns, hst, Stage.slot]
    · simp only [owns, goes_stage_self, Stage.slot]
    · rcases y with ⟨a, v⟩ | p'
      · exact slot_goes (congrFun (congrFun hpage a) v) rfl (fun _ _ => rfl) fun _ _ _ => by
          rw [hst]
          rfl
      · have hp' : p' ≠ p := by
          rintro rfl
          exact hy rfl
        simp only [owns, goes_stage_of_ne hp']
  · intro j hj
    by_cases hji : j = i
    · exact hji ▸ hi
    · exact h.within j ((Function.update_of_ne hji ..).symm.trans hj)
  · rw [hst]
    obtain ⟨rfl, hh⟩ | hh := holds_goes_self.mp hh
    · exact .inl ⟨rfl, hpage ▸ hh⟩
    · exact .inr hh

/-- The page has left its frame. -/
theorem Sound.pageOut {e : Phase} (h : x.Sound) (hst : x.stage p = .evicting r f u e)
    (he : e = .filed ∨ ∃ i, e = .written i) :
    (x.goes p { x.toTables with frame := Placement.setPage x.frame f.owner u none }
      (.bringing r)).Sound := by
  obtain ⟨⟨u', hr⟩, hq, hframe, hdone⟩ := h.victim hst
  have hpage : (x.goes p { x.toTables with frame := Placement.setPage x.frame f.owner u none }
      (.bringing r)).page = x.page := page_goes rfl (hst ▸ rfl)
  have hout : Placement.setPage x.frame f.owner u none f.owner u = none := Placement.setPage_self
  have hother : ∀ a v, ¬(a = f.owner ∧ v = u) →
      (x.goes p { x.toTables with frame := Placement.setPage x.frame f.owner u none }
        (.bringing r)).slot a v = x.slot a v := fun a v hc =>
    slot_goes (congrFun (congrFun hpage a) v) (Placement.setPage_of_ne hc) (fun _ _ => rfl)
      fun _ _ _ => by rw [hst]; rfl
  refine h.goes (h.leaves (fun _ _ => rfl) (fun _ _ => rfl) fun a v q' hq' hh => ?_)
    (h.paged.goes (fun a v q' hq' => hpage ▸ hq') (fun _ => rfl) le_rfl fun _ q' _ hq' => ?_) ?_
    h.within ⟨u', hr.live, hpage ▸ hr.page, ?_, hr.typed, hr.new⟩
    fun a v hh p' hp' => h.not_held ?_ hp'
  · refine ⟨hpage ▸ hq', Placement.setPage_of_ne ?_, rfl⟩
    rintro ⟨rfl, rfl⟩
    refine hh ?_
    rw [Holds, hst]
    exact .inr ⟨rfl, rfl⟩
  · rwa [hst] at hq'
  · rcases he with rfl | ⟨i, rfl⟩
    · rw [owns_goes (fun a v => ?_) (by rw [hst]; rfl)]
      · exact h.ledger
      by_cases hc : a = f.owner ∧ v = u
      · obtain ⟨rfl, rfl⟩ := hc
        rw [slot_of_type hq hdone]
        exact slot_of_type (congrFun (congrFun hpage f.owner) v ▸ hq) hdone
      · exact hother a v hc
    -- The page has its slot from now on.
    · refine h.ledger.hand (x := .inr p) (y := .inl (f.owner, u)) (i := i) nofun ?_
        (slot_of_frame hframe) ?_ ?_ fun y hy hy' => ?_
      · simp only [owns, hst, Stage.slot]
      · simp only [owns, goes_stage_self, Stage.slot]
      · rw [← hdone.2]
        refine slot_eq_some (congrFun (congrFun hpage f.owner) u ▸ hq) hdone.1 hout ?_
        by_cases hp : f.owner = p
        · rw [hp, goes_stage_self]
          intro hm
          cases r with
          | grow q' v program => exact h.request_ne hst (Option.some.inj hm)
          | file | swap => cases hm
        · rw [goes_stage_of_ne hp]
          exact fun hm => nomatch (h.frame_of_moves hm hq).symm.trans hframe
      · rcases y with ⟨a, v⟩ | p'
        · refine hother a v ?_
          rintro ⟨rfl, rfl⟩
          exact hy' rfl
        · have hp' : p' ≠ p := by
            rintro rfl
            exact hy rfl
          simp only [owns, goes_stage_of_ne hp']
  · by_cases hc : p = f.owner ∧ u' = u
    · exact (if_pos hc : Placement.setPage x.frame f.owner u none p u' = none)
    · exact (Placement.setPage_of_ne hc).trans hr.frame
  · rw [hst]
    obtain ⟨rfl, hh⟩ := holds_goes_self.mp hh
    exact .inl ⟨rfl, hpage ▸ hh⟩

/-- A page that has been read gives its slot back. -/
theorem Sound.flip (h : x.Sound) (hst : x.stage p = .flipping q i) :
    (x.goes p { x.toTables with swapBitmap := Function.update x.swapBitmap i (!x.swapBitmap i) }
      (.installing (.swap q))).Sound := by
  have hfits := h.fits p
  rw [hst] at hfits
  obtain ⟨⟨u, hr⟩, hi⟩ := hfits
  have hq : x.page p u = some q := hr.page
  have hpage : (x.goes p { x.toTables with
      swapBitmap := Function.update x.swapBitmap i (!x.swapBitmap i) }
      (.installing (.swap q))).page = x.page := page_goes rfl (hst ▸ rfl)
  have hslot : x.owns (.inl (p, u)) = some i := by
    rw [← hi]
    exact slot_eq_some hq hr.typed hr.frame (by rw [hst]; exact nofun)
  refine h.goes (h.leaves (fun _ _ => rfl) (fun _ _ => rfl) fun a v q' hq' _ =>
      ⟨hpage ▸ hq', rfl, rfl⟩)
    (h.paged.goes (fun a v q' hq' => hpage ▸ hq') (fun _ => rfl) le_rfl fun _ q' _ hq' => ?_) ?_ ?_
    ⟨u, hr.live, hpage ▸ hq, hr.frame, hr.typed, nofun⟩ fun a v hh p' hp' => h.not_held ?_ hp'
  · rw [hst] at hq'
    cases hq'
  · have htaken : x.swapBitmap i = true := h.ledger.taken_of_owns hslot
    have hfree : (!x.swapBitmap i) = false := by rw [htaken, Bool.not_true]
    rw [hfree]
    refine h.ledger.drop hslot ?_ fun y hy => ?_
    · exact slot_of_moves (congrFun (congrFun hpage p) u ▸ hq) (by rw [goes_stage_self]; rfl)
    · rcases y with ⟨a, v⟩ | p'
      · refine slot_goes (congrFun (congrFun hpage a) v) rfl (fun _ _ => rfl) ?_
        rintro rfl q' hq'
        rw [hst]
        refine iff_of_false (fun hm => hy ?_) nofun
        obtain rfl := Option.some.inj hm
        rw [(h.paged.unique _ _ _ _ _ hq' hq).2]
      · by_cases hp' : p' = p
        · subst hp'
          simp only [owns, goes_stage_self, hst, Stage.slot]
        · simp only [owns, goes_stage_of_ne hp']
  · intro j hj
    by_cases hji : j = i
    · exact hji ▸ h.within i (h.ledger.taken_of_owns hslot)
    · exact h.within j ((Function.update_of_ne hji ..).symm.trans hj)
  · rw [hst]
    obtain ⟨rfl, hh⟩ := holds_goes_self.mp hh
    exact ⟨rfl, hpage ▸ hh⟩

/-! ## Pages that go -/

/-- A step after which pages are gone that no other process holds, and that have no slot. -/
theorem Sound.release (h : x.Sound) (hlive : ∀ p', p' ≠ p → t.live p' = x.live p')
    (hlookup : ∀ p', p' ≠ p → t.lookup p' = x.lookup p')
    (hpage : ∀ a u q, (x.goes p t st).page a u = some q → x.page a u = some q)
    (hkeep : ∀ a u, (x.goes p t st).page a u = x.page a u ∧ t.frame a u = x.frame a u ∨
      a = p ∧ (x.goes p t st).page a u = none ∧ x.slot a u = none ∧ ∀ p', p' ≠ p → ¬x.Holds p' a u)
    (hentry : t.entry = x.entry) (hnext : t.nextSpte = x.nextSpte)
    (hsize : t.swapSize = x.swapSize) (hmap : t.swapBitmap = x.swapBitmap)
    (hfresh : ∀ u q, (x.goes p t st).page p u = some q → (x.stage p).fresh = some q →
      st.fresh = some q)
    (hmoves : ∀ u q, (x.goes p t st).page p u = some q →
      (st.moves = some q ↔ (x.stage p).moves = some q))
    (hslot : st.slot = (x.stage p).slot) (hfits : (x.goes p t st).Fits p st)
    (hnot : ∀ a u, ¬(x.goes p t st).WorksOn p a u st) : (x.goes p t st).Sound := by
  refine h.goes ⟨hlive, hlookup, fun p' hp' a u q hh hq => ?_⟩
    (h.paged.goes hpage (fun q => by rw [hentry]) (Nat.le_of_eq hnext.symm) hfresh) ?_
    (by rw [hmap, hsize]; exact h.within) hfits
    fun a u hh => absurd (holds_goes_self.mp hh) (hnot a u)
  · rcases hkeep a u with ⟨hp, hf⟩ | ⟨-, -, -, hfree⟩
    · exact ⟨hp.trans hq, hf, by rw [hentry]⟩
    · exact absurd hh (hfree p' hp')
  · rw [hmap, owns_goes (fun a u => ?_) hslot]
    · exact h.ledger
    rcases hkeep a u with ⟨hp, hf⟩ | ⟨-, hp, hs, -⟩
    · refine slot_goes hp hf (fun q _ => by rw [hentry]) ?_
      rintro rfl q hq
      exact hmoves u q (hp.trans hq)
    · rw [hs, slot_of_page hp]

/-- There is no frame for a new page of the stack. -/
theorem Sound.giveUp (h : x.Sound) (hst : x.stage p = .bringing r) :
    (x.goes p x.toTables .idle).Sound := by
  have hfits := h.fits p
  rw [hst] at hfits
  obtain ⟨v, hr⟩ := hfits
  have hcases : ∀ a u, (x.goes p x.toTables .idle).page a u = x.page a u ∨
      a = p ∧ (x.goes p x.toTables .idle).page a u = none ∧
        ∃ q program, r = .grow q u program := by
    intro a u
    by_cases ha : a = p
    · subst ha
      cases r with
      | file | swap => exact .inl (congrFun (congrFun (page_goes rfl (by rw [hst]; rfl)) a) u)
      | grow q u' program =>
        have hlookup : (x.goes a x.toTables .idle).page a u = x.lookup a u := by
          rw [page, goes_stage_self]
          rfl
        by_cases hu : u = u'
        · subst hu
          exact .inr ⟨rfl, hlookup.trans (hr.new q u rfl), q, program, rfl⟩
        · refine .inl (hlookup.trans ?_)
          simp only [page, hst, Stage.grows, Request.grows, if_neg hu]
    · exact .inl (congrFun (page_goes_of_ne ha rfl) u)
  have hpage : ∀ a u q, (x.goes p x.toTables .idle).page a u = some q → x.page a u = some q := by
    intro a u q hq
    rcases hcases a u with hp | ⟨-, hp, -⟩
    · exact hp.symm.trans hq
    · cases hp.symm.trans hq
  -- A page that is still there is not the one the stack was to grow by.
  have hne : ∀ u q, (x.goes p x.toTables .idle).page p u = some q →
      r.grows.map Prod.fst ≠ some q := by
    intro u q hq hg
    cases r with
    | file | swap => cases hg
    | grow q' u' program =>
      obtain rfl := Option.some.inj hg
      have hself : x.page p u' = some q' := by
        simp only [page, hst, Stage.grows, Request.grows, if_true]
      obtain ⟨-, rfl⟩ := h.paged.unique _ _ _ _ _ (hpage p u q' hq) hself
      rw [page, goes_stage_self] at hq
      cases (hr.new q' u rfl).symm.trans hq
  refine h.release (fun _ _ => rfl) (fun _ _ => rfl) hpage (fun a u => ?_) rfl rfl rfl rfl
    (fun u q hq hf => absurd ?_ (hne u q hq)) (fun u q hq => ?_) (by rw [hst]; rfl) trivial
    fun _ _ => id
  · rcases hcases a u with hp | ⟨rfl, hp, q, program, rfl⟩
    · exact .inl ⟨hp, rfl⟩
    · have hself : x.page a u = some q := by
        simp only [page, hst, Stage.grows, Request.grows, if_true]
      refine .inr ⟨rfl, hp, slot_of_moves hself (by rw [hst]; rfl), fun p' hp' =>
        h.not_held ?_ hp'⟩
      rw [hst]
      exact ⟨rfl, hself⟩
  · rw [hst] at hf
    exact hf
  · rw [hst]
    exact iff_of_false nofun (hne u q hq)

/-- A page is deleted that is not in the swap block. -/
theorem Sound.delete {frame : Pid → Upage → Option Frame} (h : x.Sound)
    (hst : x.stage p = .unmapping q u)
    (hframe : ∀ a v, ¬(a = p ∧ v = u) → frame a v = x.frame a v) :
    (x.goes p { x.toTables with
      lookup := Placement.setPage x.lookup p u none
      frame } .idle).Sound := by
  have hfits := h.fits p
  rw [hst] at hfits
  obtain ⟨hq, hout⟩ := hfits
  have hself : (x.goes p { x.toTables with
      lookup := Placement.setPage x.lookup p u none
      frame } .idle).page p u = none := by
    rw [page, goes_stage_self]
    exact Placement.setPage_self
  have hother : ∀ a v, ¬(a = p ∧ v = u) → (x.goes p { x.toTables with
      lookup := Placement.setPage x.lookup p u none
      frame } .idle).page a v = x.page a v := by
    intro a v hc
    by_cases ha : a = p
    · subst ha
      rw [page, page, goes_stage_self, hst]
      exact Placement.setPage_of_ne hc
    · exact congrFun (page_goes_of_ne ha (funext fun v =>
        Placement.setPage_of_ne fun hc => ha hc.1)) v
  refine h.release (fun _ _ => rfl) (fun p' hp' => funext fun v =>
      Placement.setPage_of_ne fun hc => hp' hc.1) (fun a v q' hq' => ?_) (fun a v => ?_)
    rfl rfl rfl rfl (fun v q' _ hf => ?_) (fun _ _ _ => by rw [hst]; rfl) (by rw [hst]; rfl) trivial
    fun _ _ => id
  · by_cases hc : a = p ∧ v = u
    · obtain ⟨rfl, rfl⟩ := hc
      cases hself.symm.trans hq'
    · exact (hother a v hc).symm.trans hq'
  · by_cases hc : a = p ∧ v = u
    · obtain ⟨rfl, rfl⟩ := hc
      refine .inr ⟨rfl, hself, ?_, fun p' hp' => h.not_held ?_ hp'⟩
      · rw [slot, hq, Option.bind_some, if_neg]
        exact fun hin => hout ⟨hin.1, hin.2.1⟩
      · rw [hst]
        exact ⟨rfl, rfl⟩
    · exact .inl ⟨hother a v hc, hframe a v hc⟩
  · rw [hst] at hf
    cases hf

/-- All pages of a process are gone. -/
theorem Sound.clear (h : x.Sound) (hst : x.stage p = .idle ∨ x.stage p = .gone)
    (hst' : st = .idle ∨ st = .gone) (hlive : ∀ p', p' ≠ p → t.live p' = x.live p')
    (hlookup : ∀ p', p' ≠ p → t.lookup p' = x.lookup p')
    (hframe : ∀ p', p' ≠ p → t.frame p' = x.frame p') (hnone : ∀ u, t.lookup p u = none)
    (hentry : t.entry = x.entry) (hnext : t.nextSpte = x.nextSpte)
    (hsize : t.swapSize = x.swapSize) (hmap : t.swapBitmap = x.swapBitmap)
    (hslots : ∀ u, x.slot p u = none) (hfree : ∀ p', p' ≠ p → ∀ u, ¬x.Holds p' p u) :
    (x.goes p t st).Sound := by
  have hself : ∀ u, (x.goes p t st).page p u = none := by
    intro u
    rw [page, goes_stage_self]
    rcases hst' with rfl | rfl
    · exact hnone u
    · exact hnone u
  have hother : ∀ a u, a ≠ p → (x.goes p t st).page a u = x.page a u := fun a u ha =>
    congrFun (page_goes_of_ne ha (hlookup a ha)) u
  refine h.release hlive hlookup (fun a u q hq => ?_) (fun a u => ?_) hentry hnext hsize hmap
    (fun u q hq => nomatch (hself u).symm.trans hq) (fun u q hq => nomatch (hself u).symm.trans hq)
    ?_ ?_ ?_
  · by_cases ha : a = p
    · subst ha
      cases (hself u).symm.trans hq
    · exact (hother a u ha).symm.trans hq
  · by_cases ha : a = p
    · subst ha
      exact .inr ⟨rfl, hself u, hslots u, fun p' hp' => hfree p' hp' u⟩
    · exact .inl ⟨hother a u ha, congrFun (hframe a ha) u⟩
  · rcases hst with hst | hst
    · rw [hst]
      rcases hst' with rfl | rfl
      all_goals rfl
    · rw [hst]
      rcases hst' with rfl | rfl
      all_goals rfl
  · rcases hst' with rfl | rfl
    · trivial
    · exact hself
  · rcases hst' with rfl | rfl
    · exact fun _ _ => id
    · exact fun _ _ => id

/-! ## New pages -/

/-- No process works on a page that there is not. -/
theorem Sound.page_of_holds (h : x.Sound) (hh : x.Holds p a u) : ∃ q, x.page a u = some q := by
  have hfits := h.fits p
  rw [Holds] at hh
  cases hst : x.stage p with
  | bringing r | installing r | flipping q i =>
    rw [hst] at hh
    obtain ⟨rfl, hq⟩ := hh
    exact ⟨_, hq⟩
  | evicting r f v e =>
    rw [hst] at hh
    rcases hh with ⟨rfl, hq⟩ | ⟨rfl, rfl⟩
    · exact ⟨_, hq⟩
    · exact ⟨_, (h.victim hst).2.1⟩
  | unmapping q v =>
    rw [hst] at hh hfits
    obtain ⟨rfl, rfl⟩ := hh
    exact ⟨q, hfits.1⟩
  | idle | inserting | gone =>
    rw [hst] at hh
    exact hh.elim

theorem Sound.page_ne_next (h : x.Sound) : x.page a u ≠ some x.nextSpte :=
  fun hq => Nat.lt_irrefl _ (h.paged.lt a u _ hq)

theorem page_of_idle (hst : x.stage p = .idle) : x.page p u = x.lookup p u := by
  rw [page, hst]
  rfl

section

variable {f g : Pid → Upage → Option SptePtr} {q r : SptePtr} {a a' : Pid} {v v' : Upage}

/-- An entry that no page has is given to a page. -/
theorem page_cases (hself : g p u = some q) (hother : ∀ a v, ¬(a = p ∧ v = u) → g a v = f a v)
    (hnew : ∀ a v, f a v ≠ some q) (h : g a v = some r) :
    (a = p ∧ v = u ∧ r = q) ∨ (f a v = some r ∧ r ≠ q) := by
  by_cases hc : a = p ∧ v = u
  · obtain ⟨rfl, rfl⟩ := hc
    exact .inl ⟨rfl, rfl, Option.some.inj (h.symm.trans hself)⟩
  · rw [hother a v hc] at h
    refine .inr ⟨h, ?_⟩
    rintro rfl
    exact hnew a v h

/-- Then two pages still have two entries. -/
theorem page_unique (hcases : ∀ a v r, g a v = some r →
      (a = p ∧ v = u ∧ r = q) ∨ (f a v = some r ∧ r ≠ q))
    (hunique : ∀ a v a' v' r, f a v = some r → f a' v' = some r → a = a' ∧ v = v')
    (h : g a v = some r) (h' : g a' v' = some r) : a = a' ∧ v = v' := by
  rcases hcases a v r h with ⟨rfl, rfl, rfl⟩ | ⟨h, hne⟩
  · rcases hcases a' v' _ h' with ⟨rfl, rfl, -⟩ | ⟨-, hne⟩
    · exact ⟨rfl, rfl⟩
    · exact absurd rfl hne
  · rcases hcases a' v' r h' with ⟨-, -, rfl⟩ | ⟨h', -⟩
    · exact absurd rfl hne
    · exact hunique a v a' v' r h h'

end

/-- The stack is to grow by a page that is not there. -/
theorem Sound.startGrow {program : Option FileId} (h : x.Sound) (hst : x.stage p = .idle)
    (hlive : x.live p = true) (hnone : x.lookup p u = none) (hframe : x.frame p u = none) :
    (x.goes p { x.toTables with nextSpte := x.nextSpte + 1 }
      (.bringing (.grow x.nextSpte u program))).Sound := by
  have hself : (x.goes p { x.toTables with nextSpte := x.nextSpte + 1 }
      (.bringing (.grow x.nextSpte u program))).page p u = some x.nextSpte := by
    simp only [page, goes_stage_self, Stage.grows, Request.grows, if_true]
  have hother : ∀ a v, ¬(a = p ∧ v = u) →
      (x.goes p { x.toTables with nextSpte := x.nextSpte + 1 }
        (.bringing (.grow x.nextSpte u program))).page a v = x.page a v := by
    intro a v hc
    by_cases ha : a = p
    · subst ha
      have hv : v ≠ u := fun hv => hc ⟨rfl, hv⟩
      simp only [page, goes_stage_self, hst, Stage.grows, Request.grows, if_neg hv]
      rfl
    · exact congrFun (page_goes_of_ne ha rfl) v
  have hpage : x.page p u = none := (page_of_idle hst).trans hnone
  -- the new entry is that of the new page, and all others are as before
  have hcases := fun a v q => page_cases (a := a) (v := v) (r := q) hself hother
    fun _ _ => h.page_ne_next
  refine h.goes ⟨fun _ _ => rfl, fun _ _ => rfl, fun p' hp' a v q _ hq => ?_⟩
    ⟨fun a v q hq hf => ?_, fun a v q hq => ?_, fun a v a' v' q hq hq' => ?_⟩ ?_ h.within
    ⟨u, hlive, hself, hframe, trivial, ?_⟩ fun a v hh p' hp' hheld => ?_
  · refine ⟨(hother a v ?_).trans hq, rfl, rfl⟩
    rintro ⟨rfl, rfl⟩
    cases hpage.symm.trans hq
  · rcases hcases a v q hq with ⟨rfl, -, rfl⟩ | ⟨hq, hne⟩
    · rw [goes_stage_self] at hf
      exact absurd rfl hf
    · refine h.paged.addr a v q hq ?_
      by_cases ha : a = p
      · rw [ha, hst]
        exact nofun
      · rwa [goes_stage_of_ne ha] at hf
  · rcases hcases a v q hq with ⟨-, -, rfl⟩ | ⟨hq, -⟩
    · exact Nat.lt_succ_self _
    · exact Nat.lt_succ_of_lt (h.paged.lt a v q hq)
  · exact page_unique hcases h.paged.unique hq hq'
  · rw [owns_goes (fun a v => ?_) (by rw [hst]; rfl)]
    · exact h.ledger
    by_cases hc : a = p ∧ v = u
    · obtain ⟨rfl, rfl⟩ := hc
      rw [slot_of_page hpage]
      exact slot_of_moves hself (by rw [goes_stage_self]; rfl)
    · refine slot_goes (hother a v hc) rfl (fun _ _ => rfl) ?_
      rintro rfl q hq
      rw [hst]
      refine iff_of_false (fun hm => ?_) nofun
      exact h.page_ne_next (hq.trans hm.symm)
  · rintro q v hg
    obtain ⟨rfl, rfl⟩ := Prod.mk.inj (Option.some.inj hg)
    exact hnone
  · obtain ⟨rfl, hq⟩ := holds_goes_self.mp hh
    rcases hcases a v _ hq with ⟨-, rfl, -⟩ | ⟨-, hne⟩
    · obtain ⟨q, hq'⟩ := h.page_of_holds hheld
      cases hpage.symm.trans hq'
    · exact absurd rfl hne

/-- What changes is no page. -/
theorem Sound.stay (h : x.Sound) (hst : x.stage p = .idle)
    (hlive : ∀ p', p' ≠ p → t.live p' = x.live p') (hlookup : t.lookup = x.lookup)
    (hframe : t.frame = x.frame) (hentry : ∀ a u q, x.page a u = some q → t.entry q = x.entry q)
    (hnext : x.nextSpte ≤ t.nextSpte) (hsize : t.swapSize = x.swapSize)
    (hmap : t.swapBitmap = x.swapBitmap) : (x.goes p t .idle).Sound := by
  have hpage : (x.goes p t .idle).page = x.page := page_goes hlookup (by rw [hst])
  refine h.goes (h.leaves hlive (fun p' _ => congrFun hlookup p') fun a u q hq _ =>
      ⟨hpage ▸ hq, by rw [hframe], hentry a u q hq⟩)
    ⟨fun a u q hq hf => ?_,
      fun a u q hq => Nat.lt_of_lt_of_le (h.paged.lt a u q (hpage ▸ hq)) hnext,
      fun a u a' u' q hq hq' => h.paged.unique a u a' u' q (hpage ▸ hq) (hpage ▸ hq')⟩ ?_
    (by rw [hmap, hsize]; exact h.within) trivial
    fun a u hh => absurd (holds_goes_self.mp hh) id
  · rw [hpage] at hq
    refine (congrArg Entry.addr (hentry a u q hq)).trans (h.paged.addr a u q hq ?_)
    by_cases ha : a = p
    · rw [ha, hst]
      exact nofun
    · rwa [goes_stage_of_ne ha] at hf
  · rw [hmap, owns_goes (fun a u => slot_goes (congrFun (congrFun hpage a) u) (by rw [hframe])
      (hentry a u) fun _ _ _ => by rw [hst]) (by rw [hst])]
    exact h.ledger

/-- A page gets an entry that no page has. -/
theorem Sound.insert (h : x.Sound) (hst : x.stage p = .idle) (hnone : x.lookup p u = none)
    (hq : ∀ a v, x.page a v ≠ some q) (hlt : q < x.nextSpte) (haddr : (x.entry q).addr = u)
    (htype : (x.entry q).type ≠ .swap) :
    (x.goes p { x.toTables with
      lookup := Placement.setPage x.lookup p u (some q) } .idle).Sound := by
  have hself : (x.goes p { x.toTables with lookup := Placement.setPage x.lookup p u (some q) }
      .idle).page p u = some q := by
    rw [page, goes_stage_self]
    exact Placement.setPage_self
  -- the entry is in the table at once, as the process is at no other work
  have hother : ∀ a v, ¬(a = p ∧ v = u) →
      (x.goes p { x.toTables with lookup := Placement.setPage x.lookup p u (some q) }
        .idle).page a v = x.page a v := by
    intro a v hc
    by_cases ha : a = p
    · subst ha
      rw [page_of_idle hst, page, goes_stage_self]
      exact Placement.setPage_of_ne hc
    · exact congrFun (page_goes_of_ne ha (funext fun v =>
        Placement.setPage_of_ne fun hc => ha hc.1)) v
  have hpage : x.page p u = none := (page_of_idle hst).trans hnone
  have hcases := fun a v q' => page_cases (a := a) (v := v) (r := q') hself hother hq
  refine h.goes ⟨fun _ _ => rfl, fun p' hp' => funext fun v => Placement.setPage_of_ne fun hc =>
      hp' hc.1, fun p' hp' a v q' _ hq' => ?_⟩
    ⟨fun a v q' hq' hf => ?_, fun a v q' hq' => ?_, fun a v a' v' q' hq' hq'' => ?_⟩ ?_ h.within
    trivial fun a v hh => absurd (holds_goes_self.mp hh) id
  · refine ⟨(hother a v ?_).trans hq', rfl, rfl⟩
    rintro ⟨rfl, rfl⟩
    cases hpage.symm.trans hq'
  · rcases hcases a v q' hq' with ⟨-, rfl, rfl⟩ | ⟨hq', -⟩
    · exact haddr
    · refine h.paged.addr a v q' hq' ?_
      by_cases ha : a = p
      · rw [ha, hst]
        exact nofun
      · rwa [goes_stage_of_ne ha] at hf
  · rcases hcases a v q' hq' with ⟨-, -, rfl⟩ | ⟨hq', -⟩
    · exact hlt
    · exact h.paged.lt a v q' hq'
  · exact page_unique hcases h.paged.unique hq' hq''
  · rw [owns_goes (fun a v => ?_) (by rw [hst])]
    · exact h.ledger
    by_cases hc : a = p ∧ v = u
    · obtain ⟨rfl, rfl⟩ := hc
      rw [slot_of_page hpage]
      exact slot_of_type hself htype
    · exact slot_goes (hother a v hc) rfl (fun _ _ => rfl) fun _ _ _ => by rw [hst]

end Paging

end Pintos.Vm
