import Pintos.Properties.FrameTable

/-!
# The slots of the swap block

A page that is in the swap block owns the slot of its `swap_idx`. Nothing gives the slot back but
`swap_in`: neither `free_mmap_entry` nor `free_suppl_page_table` looks at the swap block. As long as
no mapping and no process goes away with a page in the swap block, the slots that are taken are
those of the pages in it.
-/

namespace Pintos.Vm

open Pintos.Logic

namespace Placement

variable {v v' : Placement} {p cur : Pid} {u : Upage} {q : SptePtr} {k : Frame}
  {f : FrameTabEntry} {pending : Option FrameTabEntry}

/-- The slots that are taken are those of the pages in the swap block, one for each. -/
structure Slots (v : Placement) : Prop where
  taken : ∀ p u q, v.InSwap p u q →
    (v.entry q).swapIdx < v.swapSize ∧ v.swapBitmap (v.entry q).swapIdx = true
  distinct : ∀ p u q p' u' q', v.InSwap p u q → v.InSwap p' u' q' →
    (v.entry q).swapIdx = (v.entry q').swapIdx → p = p' ∧ u = u'
  owned : ∀ i, v.swapBitmap i = true → ∃ p u q, v.InSwap p u q ∧ (v.entry q).swapIdx = i

/-- The slots stay what they are if the same pages are in the swap block, in the same places. -/
theorem Slots.congr (h : v.Slots) (hin : ∀ p u q, v'.InSwap p u q ↔ v.InSwap p u q)
    (hidx : ∀ p u q, v.InSwap p u q → (v'.entry q).swapIdx = (v.entry q).swapIdx)
    (hsize : v'.swapSize = v.swapSize) (hmap : v'.swapBitmap = v.swapBitmap) : v'.Slots where
  taken p u q hi := by
    have hv := (hin p u q).mp hi
    rw [hidx p u q hv, hsize, hmap]
    exact h.taken p u q hv
  distinct p u q p' u' q' hi hi' he := by
    have hv := (hin p u q).mp hi
    have hv' := (hin p' u' q').mp hi'
    rw [hidx p u q hv, hidx p' u' q' hv'] at he
    exact h.distinct _ _ _ _ _ _ hv hv' he
  owned i hi := by
    obtain ⟨p, u, q, hv, he⟩ := h.owned i (hmap ▸ hi)
    exact ⟨p, u, q, (hin p u q).mpr hv, (hidx p u q hv).trans he⟩

/-! ## Moving pages -/

theorem Slots.take (h : v.Slots) : (v.take k q cur).Slots :=
  h.congr (fun _ _ _ => Iff.rfl) (fun _ _ _ _ => rfl) rfl rfl

/-- A page that goes to its file was in no slot, and is in none. -/
theorem Slots.evict (hs : v.Slots) (h : v.Sound none) (hf : f ∈ v.frameTable)
    (ht : (v.entry f.spte).type ≠ .swap) : (v.evict f q cur).Slots := by
  refine hs.congr (fun p u r => ⟨fun hi => ?_, fun hi => ?_⟩) (fun _ _ _ _ => rfl) rfl rfl
  · obtain ⟨hl, hr, hk⟩ := hi
    refine ⟨hl, hr, ?_⟩
    by_cases hpage : p = f.owner ∧ u = (v.entry f.spte).addr
    · obtain ⟨rfl, rfl⟩ := hpage
      rw [Option.some.inj (hl.symm.trans (h.installed f hf nofun).1)] at hr
      exact absurd hr ht
    · exact (setPage_of_ne hpage).symm.trans hk
  · obtain ⟨hl, hr, hk⟩ := hi
    refine ⟨hl, hr, ?_⟩
    by_cases hpage : p = f.owner ∧ u = (v.entry f.spte).addr
    · obtain ⟨rfl, rfl⟩ := hpage
      exact setPage_self
    · exact (setPage_of_ne hpage).trans hk

theorem Slots.swapOut {i : Nat} (hs : v.Slots) (h : v.Sound none) (hf : f ∈ v.frameTable)
    (hi : i < v.swapSize) (hfree : v.swapBitmap i = false) :
    ((v.swapOut f i).evict f q cur).Slots := by
  have hidx : (((v.swapOut f i).evict f q cur).entry f.spte).swapIdx = i := by
    simp only [Placement.evict, Placement.swapOut, Function.update_self]
  have hother : ∀ r, r ≠ f.spte → ((v.swapOut f i).evict f q cur).entry r = v.entry r :=
    fun r hr => Function.update_of_ne hr ..
  -- The slot is not that of any other page.
  have hnew : ∀ p u r, v.InSwap p u r → (v.entry r).swapIdx ≠ i := by
    rintro p u r hin rfl
    rw [(hs.taken p u r hin).2] at hfree
    cases hfree
  refine ⟨fun p u r hin => ?_, fun p u r p' u' r' hin hin' he => ?_, fun j hj => ?_⟩
  · obtain ⟨hin, hr⟩ | ⟨rfl, rfl, rfl⟩ := (h.inSwap_swapOut hf i).mp hin
    · rw [hother r hr]
      exact ⟨(hs.taken p u r hin).1,
        (Function.update_of_ne (hnew p u r hin) ..).trans (hs.taken p u r hin).2⟩
    · rw [hidx]
      exact ⟨hi, Function.update_self ..⟩
  · obtain ⟨hin, hr⟩ | ⟨rfl, rfl, rfl⟩ := (h.inSwap_swapOut hf i).mp hin
    · obtain ⟨hin', hr'⟩ | ⟨rfl, rfl, rfl⟩ := (h.inSwap_swapOut hf i).mp hin'
      · rw [hother r hr, hother r' hr'] at he
        exact hs.distinct _ _ _ _ _ _ hin hin' he
      · rw [hother r hr, hidx] at he
        exact absurd he (hnew p u r hin)
    · obtain ⟨hin', hr'⟩ | ⟨rfl, rfl, rfl⟩ := (h.inSwap_swapOut hf i).mp hin'
      · rw [hidx, hother r' hr'] at he
        exact absurd he.symm (hnew p' u' r' hin')
      · exact ⟨rfl, rfl⟩
  · by_cases hji : j = i
    · subst hji
      exact ⟨_, _, _, (h.inSwap_swapOut hf j).mpr (.inr ⟨rfl, rfl, rfl⟩), hidx⟩
    · obtain ⟨p, u, r, hin, he⟩ := hs.owned j ((Function.update_of_ne hji ..).symm.trans hj)
      have hr : r ≠ f.spte := by
        rintro rfl
        obtain ⟨hlookup, hframe⟩ := h.installed f hf (Option.some_ne_none f).symm
        obtain ⟨rfl, rfl⟩ := h.lookup_inj hin.1 hlookup
        cases hin.2.2.symm.trans hframe
      exact ⟨p, u, r, (h.inSwap_swapOut hf i).mpr (.inl ⟨hin, hr⟩), (hother r hr).symm ▸ he⟩

/-- A page that was not in the swap block leaves the slots as they are. -/
theorem Slots.install (hs : v.Slots) (h : v.Sound pending) (hl : v.lookup p u = some q)
    (ht : (v.entry q).type ≠ .swap) : (v.install p u q k).Slots := by
  have hne : ∀ p' u' r, v.InSwap p' u' r → r ≠ q := by
    rintro p' u' r hin rfl
    exact ht hin.2.1
  refine hs.congr (fun p' u' r => ⟨fun hi => ((h.inSwap_install hl).mp hi).1,
    fun hi => (h.inSwap_install hl).mpr ⟨hi, hne p' u' r hi⟩⟩) (fun p' u' r hi => ?_) rfl rfl
  simp only [Placement.install, Function.update_of_ne (hne p' u' r hi)]

/-- A page that comes back from the swap block gives its slot back. -/
theorem Slots.swapIn (hs : v.Slots) (h : v.Sound pending) (hin : v.InSwap p u q) :
    ({ v.install p u q k with
      swapBitmap := Function.update v.swapBitmap (v.entry q).swapIdx
        (!v.swapBitmap (v.entry q).swapIdx) } : Placement).Slots := by
  have hinstall : ∀ p' u' r, (v.install p u q k).InSwap p' u' r ↔ v.InSwap p' u' r ∧ r ≠ q :=
    fun _ _ _ => h.inSwap_install hin.1
  have hidx : ∀ r, r ≠ q → ((v.install p u q k).entry r).swapIdx = (v.entry r).swapIdx := by
    intro r hr
    simp only [Placement.install, Function.update_of_ne hr]
  have hne : ∀ p' u' r, v.InSwap p' u' r → r ≠ q →
      (v.entry r).swapIdx ≠ (v.entry q).swapIdx := by
    intro p' u' r hi hr he
    obtain ⟨rfl, rfl⟩ := hs.distinct _ _ _ _ _ _ hi hin he
    exact hr (Option.some.inj (hi.1.symm.trans hin.1))
  rw [(hs.taken p u q hin).2, Bool.not_true]
  refine ⟨fun p' u' r hi => ?_, fun p' u' r p'' u'' r' hi hi' he => ?_, fun i hi => ?_⟩
  · obtain ⟨hi, hr⟩ := (hinstall p' u' r).mp hi
    dsimp only
    rw [hidx r hr, Function.update_of_ne (hne p' u' r hi hr)]
    exact hs.taken p' u' r hi
  · obtain ⟨hi, hr⟩ := (hinstall p' u' r).mp hi
    obtain ⟨hi', hr'⟩ := (hinstall p'' u'' r').mp hi'
    dsimp only at he
    rw [hidx r hr, hidx r' hr'] at he
    exact hs.distinct _ _ _ _ _ _ hi hi' he
  · dsimp only at hi
    have hq : i ≠ (v.entry q).swapIdx := by
      rintro rfl
      rw [Function.update_self] at hi
      cases hi
    rw [Function.update_of_ne hq] at hi
    obtain ⟨p', u', r, hr, rfl⟩ := hs.owned i hi
    have hrq : r ≠ q := by
      rintro rfl
      exact hq rfl
    exact ⟨p', u', r, (hinstall p' u' r).mpr ⟨hr, hrq⟩, hidx r hrq⟩

/-! ## New pages -/

theorem Slots.malloc (hs : v.Slots) (h : v.Sound none) (e : Entry) : (v.malloc e).Slots := by
  have hentry : ∀ p u r, v.lookup p u = some r → (v.malloc e).entry r = v.entry r :=
    fun p u r hl => h.entry_malloc hl
  refine hs.congr (fun p u r => ⟨fun hi => ?_, fun hi => ?_⟩)
    (fun p u r hi => by rw [hentry p u r hi.1]) rfl rfl
  · exact ⟨hi.1, hentry p u r hi.1 ▸ hi.2.1, hi.2.2⟩
  · exact ⟨hi.1, (hentry p u r hi.1).symm ▸ hi.2.1, hi.2.2⟩

/-- A new page that is not a page of the swap block. -/
theorem Slots.insert {e : Entry} (hs : v.Slots) (hl : v.lookup p u = none)
    (hq : ∀ p' u', v.lookup p' u' ≠ some q) (ht : e.type ≠ .swap) :
    (v.insert p u q e).Slots := by
  have hentry : ∀ p' u' r, v.lookup p' u' = some r → (v.insert p u q e).entry r = v.entry r :=
    fun p' u' r hr => entry_insert hq hr
  refine hs.congr (fun p' u' r => ⟨fun hi => ?_, fun hi => ?_⟩)
    (fun p' u' r hi => by rw [hentry _ _ _ hi.1]) rfl rfl
  · obtain ⟨hlr, htr, hkr⟩ := hi
    by_cases hpage : p' = p ∧ u' = u
    · obtain ⟨rfl, rfl⟩ := hpage
      cases setPage_self.symm.trans hlr
      have hnew : (v.insert p' u' q e).entry q = e := Function.update_self ..
      exact absurd (hnew ▸ htr) ht
    · have hold : v.lookup p' u' = some r := (setPage_of_ne hpage).symm.trans hlr
      exact ⟨hold, hentry _ _ _ hold ▸ htr, hkr⟩
  · obtain ⟨hlr, htr, hkr⟩ := hi
    have hpage : ¬(p' = p ∧ u' = u) := by
      rintro ⟨rfl, rfl⟩
      cases hl.symm.trans hlr
    exact ⟨(setPage_of_ne hpage).trans hlr, (hentry _ _ _ hlr).symm ▸ htr, hkr⟩

/-- A new page that is in its frame takes no slot, whatever its `swap_idx` is. -/
theorem Slots.grow {e : Entry} (hs : v.Slots) (hsound : (v.insert cur u q e).Sound pending)
    (hl : v.lookup cur u = none) (hfresh : ∀ p u, v.lookup p u ≠ some q) :
    ((v.insert cur u q e).install cur u q k).Slots := by
  have hinsert : (v.insert cur u q e).lookup cur u = some q := setPage_self
  have hentry : ∀ p' u' r, v.lookup p' u' = some r →
      ((v.insert cur u q e).install cur u q k).entry r = v.entry r := by
    intro p' u' r hr
    have hne : r ≠ q := by
      rintro rfl
      exact hfresh p' u' hr
    exact (Function.update_of_ne hne ..).trans (Function.update_of_ne hne ..)
  refine hs.congr (fun p' u' r => ⟨fun hi => ?_, fun hi => ?_⟩)
    (fun p' u' r hi => by rw [hentry p' u' r hi.1]) rfl rfl
  · obtain ⟨⟨hlr, htr, hkr⟩, hr⟩ := (hsound.inSwap_install hinsert).mp hi
    have hpage : ¬(p' = cur ∧ u' = u) := by
      rintro ⟨rfl, rfl⟩
      exact hr (Option.some.inj (hlr.symm.trans hinsert))
    have hold : v.lookup p' u' = some r := (setPage_of_ne hpage).symm.trans hlr
    exact ⟨hold, entry_insert hfresh hold ▸ htr, hkr⟩
  · have hpage : ¬(p' = cur ∧ u' = u) := by
      rintro ⟨rfl, rfl⟩
      cases hl.symm.trans hi.1
    refine (hsound.inSwap_install hinsert).mpr ⟨⟨(setPage_of_ne hpage).trans hi.1,
      (entry_insert hfresh hi.1).symm ▸ hi.2.1, hi.2.2⟩, ?_⟩
    rintro rfl
    exact hfresh p' u' hi.1

/-! ## Pages that go -/

theorem Slots.giveBack (h : v.Slots) : (v.giveBack f).Slots :=
  h.congr (fun _ _ _ => Iff.rfl) (fun _ _ _ _ => rfl) rfl rfl

/-- The slots of the pages that go stay taken. So all is well only if there are none. -/
theorem Drops.slots_iff {gone : Pid → Upage → Prop} (h : v.Drops v' gone) (hs : v.Slots) :
    v'.Slots ↔ ∀ p u q, v.InSwap p u q → ¬gone p u := by
  constructor
  · intro hs' p u q hin hg
    obtain ⟨p', u', q', hin', he⟩ := hs'.owned (v.entry q).swapIdx
      (h.swapBitmap ▸ (hs.taken p u q hin).2)
    obtain ⟨hold, hng⟩ := (h.inSwap p' u' q').mp hin'
    obtain ⟨rfl, rfl⟩ := hs.distinct _ _ _ _ _ _ hold hin (h.entry ▸ he)
    exact hng hg
  · intro hg
    refine hs.congr (fun p u q => ?_) (fun p u q _ => by rw [h.entry]) h.swapSize h.swapBitmap
    rw [h.inSwap]
    exact ⟨fun hi => hi.1, fun hi => ⟨hi, hg p u q hi⟩⟩

theorem slots_stable : Stable Slots where
  take h := h.take
  evict h hf ht hs := hs.evict h hf ht
  swapOut h hf hi hfree hs := hs.swapOut h hf hi hfree
  install h hl ht hs := hs.install h hl ht
  swapIn h hin hs := hs.swapIn h hin
  giveBack h := h.giveBack
  malloc e h hs := hs.malloc h e
  insert hl hfresh ht hs := hs.insert hl hfresh ht
  grow _ hsound hl hfresh hs := hs.grow hsound hl hfresh
  live hs := hs.congr (fun _ _ _ => Iff.rfl) (fun _ _ _ _ => rfl) rfl rfl

end Placement

open Placement

variable {s s' : State}

/-! ## Runs -/

/-- No mapping is unmapped and no process exits that has a page in the swap block. -/
def Returned (s : State) : Action → Prop
  | .munmap p id => ∀ u q, s.placement.InSwap p u q → ¬s.Maps p id u
  | .exit p => ∀ u q, ¬s.placement.InSwap p u q
  | _ => True

theorem Booted.slots (h : Booted s) : s.placement.Slots := by
  obtain ⟨spte, poolSize, memory, swapSize, swap, file, ticks⟩ := h
  exact {
    taken := fun _ _ _ hi => nomatch hi.1
    distinct := fun _ _ _ _ _ _ hi => nomatch hi.1
    owned := nofun }

theorem Reachable.kept (h : Reachable Returned s) : Kept Slots s.placement := by
  induction h with
  | init h => exact ⟨h.sound, h.slots⟩
  | step a h hc hs ih =>
    refine a.step_kept slots_stable ih hs (fun p id ha hd => ?_) fun p ha hd => ?_
    · subst ha
      exact (hd.slots_iff ih.rest).mpr fun _ u q hi hg => hc u q (hg.1 ▸ hi) hg.2
    · subst ha
      exact (hd.slots_iff ih.rest).mpr fun _ u q hi hg => hc u q (hg ▸ hi)

/-- One action at a time: in every run in which nothing goes that has a page in the swap block, the
slots that are taken are those of the pages of the processes that are there, one for each. -/
theorem Reachable.slots (h : Reachable Returned s) : s.placement.Slots := h.kept.rest

/-! ## A slot that is lost -/

end Pintos.Vm
