import Pintos.Properties.Placement

/-!
# The frame table

The frame table, the page directories and the supplemental page tables fit together in every state
that can be reached. Some other properties of the placement of the pages are kept along with it:
those that are `Stable`.
-/

namespace Pintos.Vm

open Pintos.Logic

namespace Placement

variable {v v' : Placement} {p p' cur : Pid} {u u' : Upage} {q r : SptePtr} {k : Frame}
  {f g : FrameTabEntry} {pending : Option FrameTabEntry}

/-- The page `u` of `p` is in the swap block, and its entry is `q`. -/
def InSwap (v : Placement) (p : Pid) (u : Upage) (q : SptePtr) : Prop :=
  v.lookup p u = some q ∧ (v.entry q).type = .swap ∧ v.frame p u = none

/-- The frame table lists the frames in use and the pages in them. The frame of the `pending` entry
has not been given to its page yet. -/
structure Sound (v : Placement) (pending : Option FrameTabEntry) : Prop where
  nodup : (v.frameTable.map (·.frame)).Nodup
  used : ∀ f ∈ v.frameTable, v.usedMap f.frame = true
  mem : ∀ f, pending = some f → f ∈ v.frameTable
  installed : ∀ f ∈ v.frameTable, pending ≠ some f →
    v.lookup f.owner (v.entry f.spte).addr = some f.spte ∧
      v.frame f.owner (v.entry f.spte).addr = some f.frame
  listed : ∀ p u k, v.frame p u = some k → ∃ f ∈ v.frameTable, pending ≠ some f ∧
    f.owner = p ∧ (v.entry f.spte).addr = u ∧ f.frame = k
  addr : ∀ p u q, v.lookup p u = some q → (v.entry q).addr = u ∧ q < v.nextSpte
  owner : ∀ p u p' u' q, v.lookup p u = some q → v.lookup p' u' = some q → p = p'
  loaded : ∀ p u q k, v.lookup p u = some q → v.frame p u = some k → (v.entry q).free = false
  live : ∀ p u q, v.lookup p u = some q → v.live p = true

/-! ## What follows of the tables -/

theorem Sound.eq_of_frame (h : v.Sound pending) (hf : f ∈ v.frameTable) (hg : g ∈ v.frameTable)
    (he : f.frame = g.frame) : f = g := List.inj_on_of_nodup_map h.nodup hf hg he

theorem Sound.frame_eq_none (h : v.Sound pending) (hl : v.lookup p u = none) :
    v.frame p u = none := by
  cases hf : v.frame p u with
  | none => rfl
  | some k =>
    obtain ⟨f, hm, hp, rfl, rfl, -⟩ := h.listed p u k hf
    rw [(h.installed f hm hp).1] at hl
    cases hl

/-- A page has one entry, and an entry one page. -/
theorem Sound.lookup_inj (h : v.Sound pending) (hl : v.lookup p u = some q)
    (hl' : v.lookup p' u' = some q) : p = p' ∧ u = u' :=
  ⟨h.owner _ _ _ _ _ hl hl', (h.addr _ _ _ hl).1.symm.trans (h.addr _ _ _ hl').1⟩

/-! ## Taking a frame -/

/-- A frame of the user pool that is not in use becomes the frame of a `pending` entry. -/
theorem Sound.take (h : v.Sound none) (hk : v.usedMap k = false) :
    (v.take k q cur).Sound (some ⟨k, q, cur⟩) := by
  have hne : ∀ f ∈ v.frameTable, f.frame ≠ k := by
    intro f hf he
    have hused := h.used f hf
    rw [he, hk] at hused
    cases hused
  have hnp : ∀ f ∈ v.frameTable, some (⟨k, q, cur⟩ : FrameTabEntry) ≠ some f :=
    fun f hf he => hne f hf (Option.some.inj he ▸ rfl)
  refine ⟨?_, ?_, ?_, ?_, ?_, h.addr, h.owner, h.loaded, h.live⟩
  · refine List.nodup_cons.mpr ⟨fun hm => ?_, h.nodup⟩
    obtain ⟨f, hf, he⟩ := List.mem_map.mp hm
    exact hne f hf he
  · intro f hf
    rcases List.mem_cons.mp hf with rfl | hf
    · exact Function.update_self ..
    · exact (Function.update_of_ne (hne f hf) ..).trans (h.used f hf)
  · exact fun f hf => Option.some.inj hf ▸ List.mem_cons_self
  · intro f hf hp
    rcases List.mem_cons.mp hf with rfl | hf
    · exact absurd rfl hp
    · exact h.installed f hf nofun
  · intro p u k' hf
    obtain ⟨f, hm, -, hrest⟩ := h.listed p u k' hf
    exact ⟨f, List.mem_cons_of_mem _ hm, hnp f hm, hrest⟩

/-! ## Eviction -/

theorem Sound.nodup_evict (h : v.Sound pending) (hf : f ∈ v.frameTable) :
    ((v.evict f q cur).frameTable.map (·.frame)).Nodup := by
  have hperm : (v.evict f q cur).frameTable.map (·.frame) |>.Perm (v.frameTable.map (·.frame)) := by
    have herase : (f :: v.frameTable.erase f).Perm v.frameTable := (List.perm_cons_erase hf).symm
    have hlast := List.perm_append_singleton f.frame ((v.frameTable.erase f).map (·.frame))
    simp only [evict, List.map_append, List.map_cons, List.map_nil]
    exact hlast.trans (herase.map FrameTabEntry.frame)
  exact hperm.nodup_iff.mpr h.nodup

/-- The entries other than the one evicted. -/
theorem Sound.mem_erase (h : v.Sound pending) (hm : g ∈ v.frameTable.erase f)
    (hf : f ∈ v.frameTable) : g ∈ v.frameTable ∧ g.frame ≠ f.frame := by
  have hnodup : v.frameTable.Nodup := h.nodup.of_map _
  obtain ⟨hne, hg⟩ := hnodup.mem_erase_iff.mp hm
  exact ⟨hg, fun he => hne (h.eq_of_frame hg hf he)⟩

/-- A page whose frame is not that of `f` is not the page of `f`. -/
theorem Sound.page_ne (h : v.Sound none) (hf : f ∈ v.frameTable) (hk : v.frame p u = some k)
    (hne : k ≠ f.frame) : ¬(p = f.owner ∧ u = (v.entry f.spte).addr) := by
  rintro ⟨rfl, rfl⟩
  rw [(h.installed f hf nofun).2] at hk
  exact hne (Option.some.inj hk).symm

theorem Sound.evict (h : v.Sound none) (hf : f ∈ v.frameTable) :
    (v.evict f q cur).Sound (some ⟨f.frame, q, cur⟩) := by
  refine ⟨h.nodup_evict hf, ?_, ?_, ?_, ?_, h.addr, h.owner, ?_, h.live⟩
  · intro g hg
    rcases List.mem_append.mp hg with hg | hg
    · exact h.used g (h.mem_erase hg hf).1
    · rw [List.mem_singleton.mp hg]
      exact h.used f hf
  · intro g hg
    rw [← Option.some.inj hg]
    exact List.mem_append_right _ (List.mem_singleton.mpr rfl)
  · intro g hg hp
    rcases List.mem_append.mp hg with hg | hg
    · obtain ⟨hg, hne⟩ := h.mem_erase hg hf
      obtain ⟨hl, hk⟩ := h.installed g hg nofun
      exact ⟨hl, (setPage_of_ne (h.page_ne hf hk hne)).trans hk⟩
    · exact absurd (congrArg some (List.mem_singleton.mp hg).symm) hp
  · intro p u k hk
    have hpage : ¬(p = f.owner ∧ u = (v.entry f.spte).addr) := by
      rintro ⟨rfl, rfl⟩
      cases setPage_self.symm.trans hk
    have hold : v.frame p u = some k := (setPage_of_ne hpage).symm.trans hk
    obtain ⟨g, hg, -, rfl, rfl, rfl⟩ := h.listed p u k hold
    have hne : g.frame ≠ f.frame := fun he => hpage (h.eq_of_frame hg hf he ▸ ⟨rfl, rfl⟩)
    refine ⟨g, List.mem_append_left _ ?_, fun he => hne ?_, rfl, rfl, rfl⟩
    swap
    · rw [← Option.some.inj he]
    exact (List.mem_erase_of_ne fun he => hne (congrArg FrameTabEntry.frame he)).mpr hg
  · intro p u r k hl hk
    refine h.loaded p u r k hl ?_
    by_cases hpage : p = f.owner ∧ u = (v.entry f.spte).addr
    · obtain ⟨rfl, rfl⟩ := hpage
      cases setPage_self.symm.trans hk
    · exact (setPage_of_ne hpage).symm.trans hk

/-- What happens to the slots matters to no table. -/
theorem Sound.swapOut (h : v.Sound pending) (i : Nat) : (v.swapOut f i).Sound pending := by
  have haddr : ∀ r, ((v.swapOut f i).entry r).addr = (v.entry r).addr ∧
      ((v.swapOut f i).entry r).free = (v.entry r).free := by
    intro r
    by_cases hr : r = f.spte
    · subst hr
      simp only [Placement.swapOut, Function.update_self, and_self]
    · simp only [Placement.swapOut, Function.update_of_ne hr, and_self]
  refine ⟨h.nodup, h.used, h.mem, fun g hg hp => ?_, fun p u k hk => ?_, fun p u r hl => ?_,
    h.owner, fun p u r k hl hk => ?_, h.live⟩
  · rw [(haddr g.spte).1]
    exact h.installed g hg hp
  · obtain ⟨g, hg, hp, ho, hu, hk⟩ := h.listed p u k hk
    exact ⟨g, hg, hp, ho, (haddr g.spte).1.trans hu, hk⟩
  · rw [(haddr r).1]
    exact h.addr p u r hl
  · rw [(haddr r).2]
    exact h.loaded p u r k hl hk

/-- After a page has gone to the slot `i`, that page and those that were in the swap block
before are in it. -/
theorem Sound.inSwap_swapOut (h : v.Sound none) (hf : f ∈ v.frameTable) (i : Nat) :
    ((v.swapOut f i).evict f q cur).InSwap p u r ↔
      (v.InSwap p u r ∧ r ≠ f.spte) ∨
        (p = f.owner ∧ u = (v.entry f.spte).addr ∧ r = f.spte) := by
  obtain ⟨hl, hk⟩ := h.installed f hf nofun
  have haddr : ((v.swapOut f i).entry f.spte).addr = (v.entry f.spte).addr := by
    simp only [Placement.swapOut, Function.update_self]
  have hframe : ∀ p u, ((v.swapOut f i).evict f q cur).frame p u =
      setPage v.frame f.owner (v.entry f.spte).addr none p u := fun p u => by
    rw [Placement.evict, haddr]
    rfl
  have hother : r ≠ f.spte → ((v.swapOut f i).evict f q cur).entry r = v.entry r :=
    fun hr => Function.update_of_ne hr ..
  constructor
  · rintro ⟨hlr, htr, hkr⟩
    by_cases hr : r = f.spte
    · subst hr
      obtain ⟨rfl, rfl⟩ := h.lookup_inj hlr hl
      exact .inr ⟨rfl, rfl, rfl⟩
    · have hpage : ¬(p = f.owner ∧ u = (v.entry f.spte).addr) := by
        rintro ⟨rfl, rfl⟩
        exact hr (Option.some.inj (hlr.symm.trans hl))
      rw [hframe, setPage_of_ne hpage] at hkr
      exact .inl ⟨⟨hlr, hother hr ▸ htr, hkr⟩, hr⟩
  · rintro (⟨⟨hlr, htr, hkr⟩, hr⟩ | ⟨rfl, rfl, rfl⟩)
    · have hpage : ¬(p = f.owner ∧ u = (v.entry f.spte).addr) := by
        rintro ⟨rfl, rfl⟩
        exact hr (Option.some.inj (hlr.symm.trans hl))
      exact ⟨hlr, (hother hr).symm ▸ htr, (hframe p u).trans ((setPage_of_ne hpage).trans hkr)⟩
    · refine ⟨hl, ?_, (hframe _ _).trans setPage_self⟩
      simp only [Placement.evict, Placement.swapOut, Function.update_self]

/-! ## Putting a page in its frame -/

/-- The page that waits for the frame of the `pending` entry gets it. -/
theorem Sound.install (h : v.Sound (some ⟨k, q, p⟩)) (hl : v.lookup p u = some q)
    (hk : v.frame p u = none) : (v.install p u q k).Sound none := by
  have haddr : ∀ r, ((v.install p u q k).entry r).addr = (v.entry r).addr := by
    intro r
    by_cases hr : r = q
    · subst hr
      simp only [Placement.install, Function.update_self]
    · simp only [Placement.install, Function.update_of_ne hr]
  have hq : (v.entry q).addr = u := (h.addr p u q hl).1
  have hother : ∀ p' u' k', v.frame p' u' = some k' → ¬(p' = p ∧ u' = u) := by
    rintro p' u' k' hk' ⟨rfl, rfl⟩
    cases hk.symm.trans hk'
  refine ⟨h.nodup, h.used, fun f hf => absurd hf.symm (Option.some_ne_none f), fun g hg _ => ?_,
    fun p' u' k' hk' => ?_, fun p' u' r hr => ?_, h.owner, fun p' u' r k' hr hk' => ?_, h.live⟩
  · rw [haddr]
    by_cases hp : some ⟨k, q, p⟩ = some g
    · rw [← Option.some.inj hp, hq]
      exact ⟨hl, setPage_self⟩
    · obtain ⟨hlg, hkg⟩ := h.installed g hg hp
      exact ⟨hlg, (setPage_of_ne (hother _ _ _ hkg)).trans hkg⟩
  · by_cases hpage : p' = p ∧ u' = u
    · obtain ⟨rfl, rfl⟩ := hpage
      cases setPage_self.symm.trans hk'
      exact ⟨⟨k, q, p'⟩, h.mem _ rfl, (Option.some_ne_none _).symm, rfl, (haddr q).trans hq, rfl⟩
    · obtain ⟨g, hg, -, ho, hu, hkg⟩ := h.listed p' u' k' ((setPage_of_ne hpage).symm.trans hk')
      exact ⟨g, hg, (Option.some_ne_none g).symm, ho, (haddr _).trans hu, hkg⟩
  · rw [haddr]
    exact h.addr p' u' r hr
  · by_cases hr' : r = q
    · subst hr'
      simp only [Placement.install, Function.update_self]
    · have hpage : ¬(p' = p ∧ u' = u) := by
        rintro ⟨rfl, rfl⟩
        exact hr' (Option.some.inj (hr.symm.trans hl))
      simp only [Placement.install, Function.update_of_ne hr']
      exact h.loaded p' u' r k' hr ((setPage_of_ne hpage).symm.trans hk')

theorem Sound.setSwapBitmap (h : v.Sound pending) (b : Nat → Bool) :
    ({ v with swapBitmap := b } : Placement).Sound pending :=
  ⟨h.nodup, h.used, h.mem, h.installed, h.listed, h.addr, h.owner, h.loaded, h.live⟩

/-- The pages in the swap block when `u` has its frame. -/
theorem Sound.inSwap_install (h : v.Sound pending) (hl : v.lookup p u = some q) :
    (v.install p u q k).InSwap p' u' r ↔ v.InSwap p' u' r ∧ r ≠ q := by
  have hpage : v.lookup p' u' = some r → r ≠ q → ¬(p' = p ∧ u' = u) := by
    rintro hr hne ⟨rfl, rfl⟩
    exact hne (Option.some.inj (hr.symm.trans hl))
  constructor
  · rintro ⟨hlr, htr, hkr⟩
    have hr : r ≠ q := by
      rintro rfl
      obtain ⟨rfl, rfl⟩ := h.lookup_inj hlr hl
      cases setPage_self.symm.trans hkr
    simp only [Placement.install, Function.update_of_ne hr] at htr
    exact ⟨⟨hlr, htr, (setPage_of_ne (hpage hlr hr)).symm.trans hkr⟩, hr⟩
  · rintro ⟨⟨hlr, htr, hkr⟩, hr⟩
    refine ⟨hlr, ?_, (setPage_of_ne (hpage hlr hr)).trans hkr⟩
    simp only [Placement.install, Function.update_of_ne hr]
    exact htr

/-! ## New entries -/

/-- The next entry that `malloc` gives, with the fields set. -/
def malloc (v : Placement) (e : Entry) : Placement :=
  { v with
    entry := Function.update v.entry v.nextSpte e
    nextSpte := v.nextSpte + 1 }

theorem Sound.fresh (h : v.Sound none) : v.lookup p u ≠ some v.nextSpte :=
  fun hl => Nat.lt_irrefl _ (h.addr p u _ hl).2

theorem Sound.entry_malloc {e : Entry} (h : v.Sound none) (hl : v.lookup p u = some q) :
    (v.malloc e).entry q = v.entry q := by
  refine Function.update_of_ne ?_ ..
  rintro rfl
  exact h.fresh hl

theorem Sound.malloc (h : v.Sound none) (e : Entry) : (v.malloc e).Sound none := by
  have hentry : ∀ p u r, v.lookup p u = some r → (v.malloc e).entry r = v.entry r :=
    fun p u r hl => h.entry_malloc hl
  refine ⟨h.nodup, h.used, nofun, fun f hf hp => ?_, fun p u k hk => ?_, fun p u r hl => ?_,
    h.owner, fun p u r k hl hk => ?_, h.live⟩
  · obtain ⟨hl, hk⟩ := h.installed f hf hp
    rw [hentry _ _ _ hl]
    exact ⟨hl, hk⟩
  · obtain ⟨f, hf, hp, ho, hu, hkf⟩ := h.listed p u k hk
    exact ⟨f, hf, hp, ho, by rw [hentry _ _ _ (h.installed f hf hp).1, hu], hkf⟩
  · rw [hentry p u r hl]
    exact ⟨(h.addr p u r hl).1, Nat.lt_succ_of_lt (h.addr p u r hl).2⟩
  · rw [hentry p u r hl]
    exact h.loaded p u r k hl hk

theorem entry_insert {e : Entry} (hq : ∀ p' u', v.lookup p' u' ≠ some q)
    (hr : v.lookup p' u' = some r) : (v.insert p u q e).entry r = v.entry r := by
  refine Function.update_of_ne ?_ ..
  rintro rfl
  exact hq p' u' hr

/-- An entry that no page has is given to a page that has none. -/
theorem Sound.insert {e : Entry} (h : v.Sound pending) (hlive : v.live p = true)
    (hl : v.lookup p u = none) (hq : ∀ p' u', v.lookup p' u' ≠ some q) (hlt : q < v.nextSpte)
    (he : e.addr = u) : (v.insert p u q e).Sound pending := by
  have hk := h.frame_eq_none hl
  have hentry : ∀ p' u' r, v.lookup p' u' = some r → (v.insert p u q e).entry r = v.entry r :=
    fun p' u' r hr => entry_insert hq hr
  have hother : ∀ p' u' r, v.lookup p' u' = some r → ¬(p' = p ∧ u' = u) := by
    rintro p' u' r hr ⟨rfl, rfl⟩
    cases hl.symm.trans hr
  -- A page of the new table is the new page or an old one.
  have hcases : ∀ p' u' r, (v.insert p u q e).lookup p' u' = some r →
      (p' = p ∧ u' = u ∧ r = q) ∨ v.lookup p' u' = some r := by
    intro p' u' r hr
    by_cases hpage : p' = p ∧ u' = u
    · obtain ⟨rfl, rfl⟩ := hpage
      exact .inl ⟨rfl, rfl, Option.some.inj (hr.symm.trans setPage_self)⟩
    · exact .inr ((setPage_of_ne hpage).symm.trans hr)
  have hnew : (v.insert p u q e).entry q = e := Function.update_self ..
  refine ⟨h.nodup, h.used, h.mem, fun g hg hp => ?_, fun p' u' k' hk' => ?_, fun p' u' r hr => ?_,
    fun p' u' p'' u'' r hr hr' => ?_, fun p' u' r k' hr hk' => ?_, fun p' u' r hr => ?_⟩
  · obtain ⟨hlg, hkg⟩ := h.installed g hg hp
    rw [hentry _ _ _ hlg]
    exact ⟨(setPage_of_ne (hother _ _ _ hlg)).trans hlg, hkg⟩
  · obtain ⟨g, hg, hp, ho, hu, hkg⟩ := h.listed p' u' k' hk'
    exact ⟨g, hg, hp, ho, by rw [hentry _ _ _ (h.installed g hg hp).1, hu], hkg⟩
  · obtain ⟨rfl, rfl, rfl⟩ | hr := hcases p' u' r hr
    · exact ⟨hnew.symm ▸ he, hlt⟩
    · rw [hentry _ _ _ hr]
      exact h.addr p' u' r hr
  · obtain ⟨rfl, -, hrq⟩ | hold := hcases p' u' r hr
    · obtain ⟨rfl, -, -⟩ | hold' := hcases p'' u'' r hr'
      · rfl
      · exact absurd (hrq ▸ hold') (hq p'' u'')
    · obtain ⟨-, -, hrq⟩ | hold' := hcases p'' u'' r hr'
      · exact absurd (hrq ▸ hold) (hq p' u')
      · exact h.owner _ _ _ _ _ hold hold'
  · obtain ⟨rfl, rfl, rfl⟩ | hr := hcases p' u' r hr
    · cases hk.symm.trans hk'
    · rw [hentry _ _ _ hr]
      exact h.loaded p' u' r k' hr hk'
  · obtain ⟨rfl, rfl, rfl⟩ | hr := hcases p' u' r hr
    · exact hlive
    · exact h.live p' u' r hr

/-! ## Giving frames back -/

/-- The frame of the `pending` entry goes back. -/
theorem Sound.giveBack (h : v.Sound (some f)) : (v.giveBack f).Sound none := by
  have hf := h.mem f rfl
  have hnodup : v.frameTable.Nodup := h.nodup.of_map _
  have hne : ∀ g ∈ v.frameTable, g ≠ f → g ∈ v.frameTable.erase f :=
    fun g hg hc => (List.mem_erase_of_ne hc).mpr hg
  refine ⟨h.nodup.sublist ((List.erase_sublist).map _), fun g hg => ?_, nofun, fun g hg _ => ?_,
    fun p u k hk => ?_, h.addr, h.owner, h.loaded, h.live⟩
  · obtain ⟨hg, hgf⟩ := h.mem_erase hg hf
    exact (Function.update_of_ne hgf ..).trans (h.used g hg)
  · obtain ⟨hc, hg⟩ := hnodup.mem_erase_iff.mp hg
    exact h.installed g hg fun he => hc (Option.some.inj he).symm
  · obtain ⟨g, hg, hp, hrest⟩ := h.listed p u k hk
    exact ⟨g, hne g hg fun hc => hp (congrArg some hc.symm), nofun, hrest⟩

/-- A page that is in no frame is forgotten. -/
theorem Sound.forget (h : v.Sound none) (hk : v.frame p u = none) : (v.forget p u).Sound none := by
  have hlookup : ∀ p' u' r, (v.forget p u).lookup p' u' = some r → v.lookup p' u' = some r := by
    intro p' u' r hr
    by_cases hpage : p' = p ∧ u' = u
    · obtain ⟨rfl, rfl⟩ := hpage
      cases setPage_self.symm.trans hr
    · exact (setPage_of_ne hpage).symm.trans hr
  have hframe : (v.forget p u).frame = v.frame := setPage_eq_self hk
  refine ⟨h.nodup, h.used, nofun, fun g hg _ => ?_, fun p' u' k' hk' => ?_,
    fun p' u' r hr => h.addr p' u' r (hlookup _ _ _ hr),
    fun p' u' p'' u'' r hr hr' => h.owner _ _ _ _ _ (hlookup _ _ _ hr) (hlookup _ _ _ hr'),
    fun p' u' r k' hr hk' => h.loaded p' u' r k' (hlookup _ _ _ hr) (hframe ▸ hk'),
    fun p' u' r hr => h.live p' u' r (hlookup _ _ _ hr)⟩
  · obtain ⟨hlg, hkg⟩ := h.installed g hg nofun
    have hpage : ¬(g.owner = p ∧ (v.entry g.spte).addr = u) := by
      rintro ⟨rfl, rfl⟩
      cases hk.symm.trans hkg
    exact ⟨(setPage_of_ne hpage).trans hlg, (setPage_of_ne hpage).trans hkg⟩
  · exact h.listed p' u' k' (hframe ▸ hk')

/-- A page that is in a frame is forgotten, and the frame goes back. -/
theorem Sound.forget_giveBack (h : v.Sound none) (hf : f ∈ v.frameTable)
    (hk : v.frame p u = some f.frame) : ((v.giveBack f).forget p u).Sound none := by
  have hnodup : v.frameTable.Nodup := h.nodup.of_map _
  obtain ⟨g, hg, -, rfl, rfl, hgf⟩ := h.listed p u f.frame hk
  have hgf : g = f := h.eq_of_frame hg hf hgf
  subst hgf
  have hlookup : ∀ p' u' r, ((v.giveBack g).forget g.owner (v.entry g.spte).addr).lookup p' u' =
      some r → v.lookup p' u' = some r ∧ ¬(p' = g.owner ∧ u' = (v.entry g.spte).addr) := by
    intro p' u' r hr
    by_cases hpage : p' = g.owner ∧ u' = (v.entry g.spte).addr
    · obtain ⟨rfl, rfl⟩ := hpage
      cases setPage_self.symm.trans hr
    · exact ⟨(setPage_of_ne hpage).symm.trans hr, hpage⟩
  have hframe : ∀ p' u' k', ((v.giveBack g).forget g.owner (v.entry g.spte).addr).frame p' u' =
      some k' → v.frame p' u' = some k' ∧ ¬(p' = g.owner ∧ u' = (v.entry g.spte).addr) := by
    intro p' u' k' hk'
    by_cases hpage : p' = g.owner ∧ u' = (v.entry g.spte).addr
    · obtain ⟨rfl, rfl⟩ := hpage
      cases setPage_self.symm.trans hk'
    · exact ⟨(setPage_of_ne hpage).symm.trans hk', hpage⟩
  refine ⟨h.nodup.sublist ((List.erase_sublist).map _), fun f' hf' => ?_, nofun,
    fun f' hf' _ => ?_, fun p' u' k' hk' => ?_,
    fun p' u' r hr => h.addr p' u' r (hlookup _ _ _ hr).1,
    fun p' u' p'' u'' r hr hr' => h.owner _ _ _ _ _ (hlookup _ _ _ hr).1 (hlookup _ _ _ hr').1,
    fun p' u' r k' hr hk' => h.loaded p' u' r k' (hlookup _ _ _ hr).1 (hframe _ _ _ hk').1,
    fun p' u' r hr => h.live p' u' r (hlookup _ _ _ hr).1⟩
  · obtain ⟨hm, hne⟩ := h.mem_erase hf' hg
    exact (Function.update_of_ne hne ..).trans (h.used f' hm)
  · obtain ⟨hm, hne⟩ := h.mem_erase hf' hg
    obtain ⟨hlf, hkf⟩ := h.installed f' hm nofun
    have hpage := h.page_ne hg hkf hne
    exact ⟨(setPage_of_ne hpage).trans hlf, (setPage_of_ne hpage).trans hkf⟩
  · obtain ⟨hk', hpage⟩ := hframe _ _ _ hk'
    obtain ⟨f', hm, -, rfl, rfl, rfl⟩ := h.listed p' u' k' hk'
    refine ⟨f', (List.mem_erase_of_ne fun he => hpage ?_).mpr hm, nofun, rfl, rfl, rfl⟩
    rw [he]
    exact ⟨rfl, rfl⟩

/-! ## Pages that go -/

/-- Some pages are `gone`. The others are where they were, and so are the slots. -/
structure Drops (v v' : Placement) (gone : Pid → Upage → Prop) : Prop where
  entry : v'.entry = v.entry
  swapSize : v'.swapSize = v.swapSize
  swapBitmap : v'.swapBitmap = v.swapBitmap
  inSwap : ∀ p u q, v'.InSwap p u q ↔ v.InSwap p u q ∧ ¬gone p u

theorem Drops.trans {v'' : Placement} {gone gone' : Pid → Upage → Prop} (h : v.Drops v' gone)
    (h' : v'.Drops v'' gone') : v.Drops v'' fun p u => gone p u ∨ gone' p u where
  entry := h'.entry.trans h.entry
  swapSize := h'.swapSize.trans h.swapSize
  swapBitmap := h'.swapBitmap.trans h.swapBitmap
  inSwap p u q := by rw [h'.inSwap, h.inSwap, and_assoc, not_or]

theorem Drops.mono {gone gone' : Pid → Upage → Prop} (h : v.Drops v' gone)
    (hg : ∀ p u, gone p u ↔ gone' p u) : v.Drops v' gone' :=
  ⟨h.entry, h.swapSize, h.swapBitmap, fun p u q => by rw [h.inSwap, hg]⟩

theorem drops_forget : v.Drops (v.forget p u) fun p' u' => p' = p ∧ u' = u := by
  refine ⟨rfl, rfl, rfl, fun p' u' q => ⟨fun ⟨hl, ht, hk⟩ => ?_, fun ⟨⟨hl, ht, hk⟩, hpage⟩ =>
    ⟨(setPage_of_ne hpage).trans hl, ht, (setPage_of_ne hpage).trans hk⟩⟩⟩
  have hpage : ¬(p' = p ∧ u' = u) := by
    rintro ⟨rfl, rfl⟩
    cases setPage_self.symm.trans hl
  exact ⟨⟨(setPage_of_ne hpage).symm.trans hl, ht, (setPage_of_ne hpage).symm.trans hk⟩, hpage⟩

/-! ## Exits -/

theorem lookup_exit {usedMap : Frame → Bool} (h : (v.exit p usedMap).lookup p' u = some q) :
    p' ≠ p ∧ v.lookup p' u = some q := by
  have hne : p' ≠ p := by
    rintro rfl
    simp only [Placement.exit, Function.update_self, reduceCtorEq] at h
  exact ⟨hne, by simpa only [Placement.exit, Function.update_of_ne hne] using h⟩

theorem frame_exit {usedMap : Frame → Bool} (hne : p' ≠ p) :
    (v.exit p usedMap).frame p' u = v.frame p' u := by
  simp only [Placement.exit, Function.update_of_ne hne]

theorem Sound.exit {usedMap : Frame → Bool} (h : v.Sound none)
    (hused : ∀ k, (∀ u, v.frame p u ≠ some k) → usedMap k = v.usedMap k) :
    (v.exit p usedMap).Sound none := by
  have hmem : ∀ f ∈ (v.exit p usedMap).frameTable, f ∈ v.frameTable ∧ f.owner ≠ p := by
    intro f hf
    obtain ⟨hf, hp⟩ := List.mem_filter.mp hf
    exact ⟨hf, of_decide_eq_true hp⟩
  refine ⟨h.nodup.sublist ((List.filter_sublist).map _), fun f hf => ?_, nofun, fun f hf _ => ?_,
    fun p' u k hk => ?_, fun p' u r hr => h.addr p' u r (lookup_exit hr).2,
    fun p' u p'' u' r hr hr' => h.owner _ _ _ _ _ (lookup_exit hr).2 (lookup_exit hr').2,
    fun p' u r k hr hk => ?_, fun p' u r hr => ?_⟩
  · obtain ⟨hf, hp⟩ := hmem f hf
    refine (hused f.frame fun u hk => hp ?_).trans (h.used f hf)
    -- Only the owner of a frame has it in its page directory.
    obtain ⟨g, hg, -, ho, -, hgf⟩ := h.listed p u f.frame hk
    rw [← ho, h.eq_of_frame hg hf hgf]
  · obtain ⟨hf, hp⟩ := hmem f hf
    obtain ⟨hl, hk⟩ := h.installed f hf nofun
    refine ⟨?_, (frame_exit hp).trans hk⟩
    simp only [Placement.exit, Function.update_of_ne hp]
    exact hl
  · have hne : p' ≠ p := by
      rintro rfl
      simp only [Placement.exit, Function.update_self, reduceCtorEq] at hk
    rw [frame_exit hne] at hk
    obtain ⟨f, hf, -, rfl, hrest⟩ := h.listed p' u k hk
    exact ⟨f, List.mem_filter.mpr ⟨hf, decide_eq_true hne⟩, nofun, rfl, hrest⟩
  · obtain ⟨hne, hl⟩ := lookup_exit hr
    exact h.loaded p' u r k hl (frame_exit hne ▸ hk)
  · obtain ⟨hne, hl⟩ := lookup_exit hr
    simp only [Placement.exit, Function.update_of_ne hne]
    exact h.live p' u r hl

theorem drops_exit {usedMap : Frame → Bool} :
    v.Drops (v.exit p usedMap) fun p' _ => p' = p := by
  refine ⟨rfl, rfl, rfl, fun p' u' q => ⟨fun ⟨hl, ht, hk⟩ => ?_, fun ⟨⟨hl, ht, hk⟩, hne⟩ =>
    ⟨?_, ht, (frame_exit hne).trans hk⟩⟩⟩
  · obtain ⟨hne, hl⟩ := lookup_exit hl
    exact ⟨⟨hl, ht, frame_exit hne ▸ hk⟩, hne⟩
  · simp only [Placement.exit, Function.update_of_ne hne]
    exact hl

/-- A property that the operations on consistent tables keep, those aside that make pages go. -/
structure Stable (J : Placement → Prop) : Prop where
  take : ∀ {v k q cur}, J v → J (v.take k q cur)
  evict : ∀ {v f q cur}, v.Sound none → f ∈ v.frameTable → (v.entry f.spte).type ≠ .swap → J v →
    J (v.evict f q cur)
  swapOut : ∀ {v f q cur i}, v.Sound none → f ∈ v.frameTable → i < v.swapSize →
    v.swapBitmap i = false → J v → J ((v.swapOut f i).evict f q cur)
  install : ∀ {v p u q k pending}, v.Sound pending → v.lookup p u = some q →
    (v.entry q).type ≠ .swap → J v → J (v.install p u q k)
  swapIn : ∀ {v p u q k pending}, v.Sound pending → v.InSwap p u q → J v →
    J { v.install p u q k with
      swapBitmap := Function.update v.swapBitmap (v.entry q).swapIdx
        (!v.swapBitmap (v.entry q).swapIdx) }
  giveBack : ∀ {v f}, J v → J (v.giveBack f)
  malloc : ∀ {v} (e), v.Sound none → J v → J (v.malloc e)
  insert : ∀ {v p u q e}, v.lookup p u = none → (∀ p u, v.lookup p u ≠ some q) →
    e.type ≠ .swap → J v → J (v.insert p u q e)
  grow : ∀ {v p u q k e}, v.Sound (some ⟨k, q, p⟩) → (v.insert p u q e).Sound (some ⟨k, q, p⟩) →
    v.lookup p u = none → (∀ p u, v.lookup p u ≠ some q) → J v →
    J ((v.insert p u q e).install p u q k)
  live : ∀ {v live}, J v → J { v with live }

theorem stable_true : Stable fun _ => True := by
  constructor
  all_goals exact fun {_} => by intros; trivial

/-- The tables are consistent, and `J` holds. -/
structure Kept (J : Placement → Prop) (v : Placement) : Prop where
  sound : v.Sound none
  rest : J v

end Placement

open Placement

variable {s s' : State} {p cur : Pid} {u : Upage} {q : SptePtr} {k : Frame}
  {J : Placement → Prop}

/-! ## Loading pages -/

/-- What `vm_get_frame` does when it gives the frame `k` to the entry `q` of `cur`. -/
structure Gets (J : Placement → Prop) (v v' : Placement) (k : Frame) (q : SptePtr) (cur : Pid) :
    Prop where
  sound : v'.Sound (some ⟨k, q, cur⟩)
  rest : J v'
  lookup : v'.lookup = v.lookup
  live : v'.live = v.live
  nextSpte : v'.nextSpte = v.nextSpte
  frame : ∀ p u, v.frame p u = none → v'.frame p u = none
  entry : ∀ p u r, v.lookup p u = some r → v.frame p u = none → v'.entry r = v.entry r

section

variable (hJ : Stable J)

include hJ

theorem Placement.Kept.gets (h : Kept J s.placement) (hs : s.vmGetFrame cur q = some (some k, s')) :
    Gets J s.placement s'.placement k q cur := by
  rcases State.vmGetFrame_some hs with ⟨hfree, hp⟩ | ⟨f, hf, rfl, ⟨ht, hp⟩ | ⟨i, hi, hfree, hp⟩⟩
  · rw [hp]
    exact ⟨h.sound.take hfree, hJ.take h.rest, rfl, rfl, rfl, fun _ _ hk => hk,
      fun _ _ _ _ _ => rfl⟩
  · rw [hp]
    exact ⟨h.sound.evict hf, hJ.evict h.sound hf (ht ▸ nofun) h.rest, rfl, rfl, rfl, frame_evict,
      fun _ _ _ _ _ => rfl⟩
  · rw [hp]
    refine ⟨(h.sound.swapOut i).evict hf, hJ.swapOut h.sound hf hi hfree h.rest, rfl, rfl, rfl,
      fun p u hk => frame_evict (v := s.placement.swapOut f i) p u hk,
      fun p u r hl hk => Function.update_of_ne ?_ ..⟩
    rintro rfl
    obtain ⟨rfl, rfl⟩ := h.sound.lookup_inj hl (h.sound.installed f hf nofun).1
    cases hk.symm.trans (h.sound.installed f hf nofun).2

/-- A frame that nothing was put in goes back. -/
theorem Gets.giveBack {v : Placement} (h : Gets J v s.placement k q cur)
    (hs : s.vmFreeFrame (some k) = some s') : Kept J s'.placement := by
  have hmem := h.sound.mem _ rfl
  rcases State.vmFreeFrame_some hs with ⟨-, hnone⟩ | ⟨f, hf, hk, hp⟩
  · exact absurd rfl (hnone _ hmem)
  · obtain rfl := h.sound.eq_of_frame hf hmem hk
    rw [hp]
    exact ⟨h.sound.giveBack, hJ.giveBack h.rest⟩

/-- `page_load_file` brings in a page that is not in the swap block, or it gives the frame back. -/
theorem Placement.Kept.pageLoadFile {b : Bool} (h : Kept J s.placement)
    (hl : s.placement.lookup cur u = some q) (hk : s.placement.frame cur u = none)
    (ht : (s.placement.entry q).type ≠ .swap) (hs : s.pageLoadFile cur q = some (b, s')) :
    Kept J s'.placement := by
  obtain ⟨k, s₁, hget, s₂, hp, ⟨-, hback⟩ | ⟨-, hinstall⟩⟩ := State.pageLoadFile_some hs
  · exact Gets.giveBack hJ (hp.symm ▸ h.gets hJ hget) hback
  · have hg := h.gets hJ hget
    have hentry := hg.entry cur u q hl hk
    have hl₁ : s₁.placement.lookup cur u = some q := (congrFun₂ hg.lookup cur u).trans hl
    rw [hinstall (hg.sound.live cur u q hl₁), hentry, (h.sound.addr cur u q hl).1]
    exact ⟨hg.sound.install hl₁ (hg.frame cur u hk),
      hJ.install hg.sound hl₁ (hentry.symm ▸ ht) hg.rest⟩

/-- `page_load_swap` brings in a page that is in the swap block. -/
theorem Placement.Kept.pageLoadSwap {b : Bool} (h : Kept J s.placement)
    (hin : s.placement.InSwap cur u q) (hs : s.pageLoadSwap cur q = some (b, s')) :
    Kept J s'.placement := by
  obtain ⟨hl, ht, hk⟩ := hin
  obtain ⟨k, s₁, hget, hload⟩ := State.pageLoadSwap_some hs
  have hg := h.gets hJ hget
  have hentry := hg.entry cur u q hl hk
  have haddr : (s₁.placement.entry q).addr = u := hentry.symm ▸ (h.sound.addr cur u q hl).1
  have hl₁ : s₁.placement.lookup cur u = some q := (congrFun₂ hg.lookup cur u).trans hl
  have hk₁ := hg.frame cur u hk
  rcases hload with ⟨-, hpresent, -⟩ | ⟨-, hinstall⟩
  · have haddr' : (s₁.spte q).addr = u := haddr
    exact absurd hk₁ (haddr' ▸ hpresent)
  · rw [hinstall (hg.sound.live cur u q hl₁), haddr]
    exact ⟨(hg.sound.install hl₁ hk₁).setSwapBitmap _,
      hJ.swapIn hg.sound ⟨hl₁, hentry.symm ▸ ht, hk₁⟩ hg.rest⟩

/-! ## New pages -/

omit hJ in
theorem State.placement_malloc (f : SupplPageTableEntry → SupplPageTableEntry) :
    ({ s.setSpte s.nextSpte f with nextSpte := s.nextSpte + 1 } : State).placement =
      s.placement.malloc (f (s.spte s.nextSpte)).entry :=
  congrArg (fun v : Placement => { v with nextSpte := s.nextSpte + 1 })
    (State.placement_setSpte (s := s) (q := s.nextSpte) f)

omit hJ in
theorem State.placement_nextSpte : ({ s with nextSpte := s.nextSpte + 1 } : State).placement =
    s.placement.malloc (s.placement.entry s.nextSpte) :=
  Placement.ext rfl rfl rfl (Function.update_eq_self s.nextSpte _).symm rfl rfl rfl rfl rfl

theorem Placement.Kept.malloc {v : Placement} (h : Kept J v) (e : Entry) : Kept J (v.malloc e) :=
  ⟨h.sound.malloc e, hJ.malloc e h.sound h.rest⟩

/-- `page_lazy_load` makes pages that are not loaded, up to the first that is there already. -/
theorem Placement.Kept.pageLazyLoad (file : FileId) (w : Bool) {type : PageType}
    (ht : type ≠ .swap) (n : Nat) :
    ∀ (ofs : Nat) (upage : Upage) (readBytes : Nat) (s : State), Kept J s.placement →
      s.placement.live cur = true →
      Kept J (State.pageLazyLoad cur file w type n ofs upage readBytes s).2.placement ∧
        (State.pageLazyLoad cur file w type n ofs upage readBytes s).2.placement.live =
          s.placement.live := by
  induction n with
  | zero => exact fun _ _ _ s h _ => ⟨h, rfl⟩
  | succ n ih =>
    intro ofs upage readBytes s h hlive
    unfold State.pageLazyLoad
    dsimp only
    generalize hs₁ : ({ s.setSpte s.nextSpte _ with nextSpte := s.nextSpte + 1 } : State) = s₁
    have hp : s₁.placement = s.placement.malloc
        ⟨upage, type, (s.spte s.nextSpte).swapIdx, true⟩ := by
      rw [← hs₁]
      exact State.placement_malloc _
    have hkept : Kept J s₁.placement := hp ▸ h.malloc hJ _
    have hlive₁ : s₁.placement.live = s.placement.live := congrArg (·.live) hp
    split
    · exact ⟨hkept, hlive₁⟩
    · next hl =>
      have hfresh : ∀ p u, s₁.placement.lookup p u ≠ some s.nextSpte := fun p u => by
        rw [hp]
        exact h.sound.fresh
      have hnew : s₁.placement.entry s.nextSpte =
          ⟨upage, type, (s.spte s.nextSpte).swapIdx, true⟩ := by
        rw [hp]
        exact Function.update_self ..
      have hinsert : (s₁.hashInsert cur upage s.nextSpte).placement =
          s₁.placement.insert cur upage s.nextSpte (s₁.placement.entry s.nextSpte) := by
        rw [State.placement_hashInsert (hlive₁ ▸ hlive), Placement.insert,
          Function.update_eq_self]
      have hkept₁ : Kept J (s₁.hashInsert cur upage s.nextSpte).placement := by
        rw [hinsert, hnew]
        refine ⟨hkept.sound.insert (hlive₁ ▸ hlive) hl hfresh ?_ rfl,
          hJ.insert hl hfresh ht hkept.rest⟩
        rw [hp]
        exact Nat.lt_succ_self _
      have hlive₂ : (s₁.hashInsert cur upage s.nextSpte).placement.live = s.placement.live :=
        (congrArg (·.live) hinsert).trans hlive₁
      obtain ⟨hk, hl⟩ := ih (ofs + min readBytes pgsize) (upage + 1)
        (readBytes - min readBytes pgsize) _ hkept₁ (hlive₂ ▸ hlive)
      exact ⟨hk, hl.trans hlive₂⟩

theorem Placement.Kept.lazyLoad {file : FileId} {w b : Bool} {type : PageType}
    {n ofs readBytes : Nat} (h : Kept J s.placement) (hlive : s.placement.live cur = true)
    (hs : State.pageLazyLoad cur file w type n ofs u readBytes s = (b, s'))
    (ht : type ≠ .swap) :
    Kept J s'.placement ∧ s'.placement.live = s.placement.live := by
  have hkept := Placement.Kept.pageLazyLoad hJ file w ht n ofs u readBytes s h hlive
  rw [hs] at hkept
  exact hkept

/-- A new page whose frame is there already. -/
theorem Placement.Kept.grow {v : Placement} {e : Entry} (h : v.Sound (some ⟨k, q, cur⟩))
    (hr : J v) (hlive : v.live cur = true) (hl : v.lookup cur u = none)
    (hfresh : ∀ p u, v.lookup p u ≠ some q) (hlt : q < v.nextSpte) (he : e.addr = u) :
    Kept J ((v.insert cur u q e).install cur u q k) := by
  have hsound := h.insert hlive hl hfresh hlt he
  exact ⟨hsound.install setPage_self (h.frame_eq_none hl), hJ.grow h hsound hl hfresh hr⟩

/-- `stack_grow` makes a page that is in its frame. -/
theorem Placement.Kept.stackGrow {b : Bool} (h : Kept J s.placement)
    (hlive : s.placement.live cur = true) (hl : b = true ∨ s.placement.lookup cur u = none)
    (hs : s.stackGrow cur u = some (b, s')) : Kept J s'.placement := by
  obtain ⟨-, frame, s₁, hget, hgrow⟩ := State.stackGrow_some hs
  have hkept : Kept J ({ s with nextSpte := s.nextSpte + 1 } : State).placement :=
    State.placement_nextSpte ▸ h.malloc hJ _
  rcases hgrow with ⟨rfl, -, rfl⟩ | ⟨k, rfl, hnew, hgrow⟩
  · rw [State.vmGetFrame_none hget]
    exact hkept
  have hg := hkept.gets hJ hget
  have hlive₁ : s₁.placement.live cur = true := (congrFun hg.live cur).trans hlive
  have hl₁ : s₁.placement.lookup cur u = none :=
    hl.elim (fun hb => hnew hb hlive₁) fun hl => (congrFun₂ hg.lookup cur u).trans hl
  have hfresh : ∀ p u, s₁.placement.lookup p u ≠ some s.nextSpte := by
    intro p u
    rw [hg.lookup]
    exact h.sound.fresh
  have hlt : s.nextSpte < s₁.placement.nextSpte := by
    rw [hg.nextSpte]
    exact Nat.lt_succ_self _
  obtain ⟨-, hp⟩ := hgrow (hg.sound.frame_eq_none hl₁) hl₁ hlive₁
  rw [hp]
  exact Kept.grow hJ hg.sound hg.rest hlive₁ hl₁ hfresh hlt rfl

/-! ## Faults -/

theorem Placement.Kept.bringIn {grow : Bool} (h : Kept J s.placement)
    (hlive : s.placement.live cur = true) (hk : s.placement.frame cur u = none)
    (hs : s.bringIn cur u grow = some s') : Kept J s'.placement := by
  unfold State.bringIn at hs
  split at hs
  · next q hl =>
    obtain ⟨⟨b, s₁⟩, hload, rfl⟩ := Option.map_eq_some_iff.mp hs
    rw [State.placement_orExit]
    split at hload
    · next ht => exact h.pageLoadSwap hJ ⟨hl, ht, hk⟩ hload
    · next ht => exact h.pageLoadFile hJ hl hk ht hload
  · next hl =>
    split at hs
    · obtain ⟨⟨b, s₁⟩, hgrow, rfl⟩ := Option.map_eq_some_iff.mp hs
      rw [State.placement_orExit]
      exact h.stackGrow hJ hlive (.inr hl) hgrow
    · rw [← Option.some.inj hs, State.placement_orExit]
      exact h

theorem Placement.Kept.pageFault {faultAddr esp : Nat} (h : Kept J s.placement)
    (hlive : s.placement.live cur = true) (hs : s.pageFault cur faultAddr esp = some s') :
    Kept J s'.placement := by
  unfold State.pageFault at hs
  dsimp only at hs
  split at hs
  · rw [← Option.some.inj hs, State.placement_orExit]
    exact h
  · next hc =>
    have hk : s.placement.frame cur (faultAddr / pgsize) = none :=
      State.frame_eq_none.mpr (Bool.not_eq_true _ ▸ fun hp => hc (.inr (.inr hp)))
    exact h.bringIn hJ hlive hk hs

theorem Placement.Kept.readBufPageFaultHandler {faultAddr esp : Nat} (h : Kept J s.placement)
    (hlive : s.placement.live cur = true)
    (hs : s.readBufPageFaultHandler cur faultAddr esp = some s') : Kept J s'.placement := by
  unfold State.readBufPageFaultHandler at hs
  dsimp only at hs
  split at hs
  · rw [← Option.some.inj hs, State.placement_orExit]
    exact h
  · split at hs
    · rw [← Option.some.inj hs]
      exact h
    · next hk => exact h.bringIn hJ hlive hk hs

/-! ## Mappings -/

theorem Placement.Kept.mmap {file : FileId} {addr : Nat} {id : Option Nat} (h : Kept J s.placement)
    (hlive : s.placement.live cur = true) (hs : s.mmap cur file addr = some (id, s')) :
    Kept J s'.placement := by
  unfold State.mmap at hs
  split at hs
  · exact (Prod.mk.inj (Option.some.inj hs)).2 ▸ h
  dsimp only at hs
  split at hs
  · exact (Prod.mk.inj (Option.some.inj hs)).2 ▸ h
  split at hs
  · cases hs
  · exact (Prod.mk.inj (Option.some.inj hs)).2 ▸ h
  generalize hs₁ : s.setThread cur _ = s₁ at hs
  have hp : s₁.placement = s.placement :=
    hs₁ ▸ State.placement_setThread (fun _ => rfl) fun _ => rfl
  have hkept : Kept J s₁.placement := hp ▸ h
  split at hs
  · next s₂ hload =>
    rw [← (Prod.mk.inj (Option.some.inj hs)).2]
    exact (hkept.lazyLoad hJ (hp ▸ hlive) hload nofun).1
  · next s₂ hload =>
    rw [← (Prod.mk.inj (Option.some.inj hs)).2, State.placement_setThread]
    · exact (hkept.lazyLoad hJ (hp ▸ hlive) hload nofun).1
    · exact fun _ => rfl
    · exact fun _ => rfl

/-! ## Programs -/

theorem Placement.Kept.loadSegments {file : FileId} {b : Bool} (l : List State.Phdr) :
    ∀ s : State, Kept J s.placement → s.placement.live cur = true →
      State.loadSegments cur file l s = (b, s') →
      Kept J s'.placement ∧ s'.placement.live = s.placement.live := by
  induction l with
  | nil =>
    intro s h _ hs
    rw [← (Prod.mk.inj hs).2]
    exact ⟨h, rfl⟩
  | cons x l ih =>
    intro s h hlive hs
    unfold State.loadSegments at hs
    split at hs
    swap
    · rw [← (Prod.mk.inj hs).2]
      exact ⟨h, rfl⟩
    split at hs
    · next s₁ hload =>
      obtain ⟨-, rfl⟩ := Prod.mk.inj hs
      exact h.lazyLoad hJ hlive hload nofun
    · next s₁ hload =>
      obtain ⟨h₁, hlive₁⟩ := h.lazyLoad hJ hlive hload nofun
      obtain ⟨h', hlive'⟩ := ih s₁ h₁ (hlive₁ ▸ hlive) hs
      exact ⟨h', hlive'.trans hlive₁⟩

/-- A process that is new has no pages. -/
theorem Placement.Kept.newThread (h : Kept J s.placement) (hn : s.thread cur = none) :
    let s' := { s with thread := Function.update s.thread cur (some {}) }
    Kept J s'.placement ∧ s'.placement.live cur = true := by
  intro s'
  have hp : s'.placement = { s.placement with
    live := Function.update s.placement.live cur true } := State.placement_newThread hn
  have hlive : s'.placement.live cur = true := by
    rw [hp]
    exact Function.update_self ..
  refine ⟨?_, hlive⟩
  rw [hp]
  refine ⟨⟨h.sound.nodup, h.sound.used, h.sound.mem, h.sound.installed, h.sound.listed,
    h.sound.addr, h.sound.owner, h.sound.loaded, fun p u q hl => ?_⟩, hJ.live h.rest⟩
  by_cases hc : p = cur
  · subst hc
    exact Function.update_self ..
  · exact (Function.update_of_ne hc ..).trans (h.sound.live p u q hl)

theorem Placement.Kept.load {file : FileId} {phdrs : List State.Phdr} {b : Bool}
    (h : Kept J s.placement) (hlive : s.placement.live cur = true)
    (hs : s.load cur file phdrs = some (b, s')) : Kept J s'.placement := by
  unfold State.load at hs
  split at hs
  · next s₁ hload =>
    obtain ⟨-, rfl⟩ := Prod.mk.inj (Option.some.inj hs)
    exact (Placement.Kept.loadSegments hJ phdrs s h hlive hload).1
  · next s₁ hload =>
    obtain ⟨h₁, hlive₁⟩ := Placement.Kept.loadSegments hJ phdrs s h hlive hload
    obtain ⟨⟨success, s₂⟩, hgrow, hs⟩ := Option.bind_eq_some_iff.mp hs
    dsimp only at hs
    obtain ⟨_, hguard, hs⟩ := Option.bind_eq_some_iff.mp hs
    have hsuccess : success = true := (Option.guard_eq_some' _).mp hguard
    rw [← (Prod.mk.inj (Option.some.inj hs)).2, State.placement_setFile, State.placement_setThread]
    · exact h₁.stackGrow hJ (hlive₁ ▸ hlive) (.inl hsuccess) hgrow
    · exact fun _ => rfl
    · exact fun _ => rfl

theorem Placement.Kept.startProcess {file : FileId} {phdrs : List State.Phdr}
    (h : Kept J s.placement) (hs : s.startProcess cur file phdrs = some s') :
    Kept J s'.placement := by
  unfold State.startProcess at hs
  obtain ⟨_, hguard, hs⟩ := Option.bind_eq_some_iff.mp hs
  have hn : s.thread cur = none :=
    Option.isNone_iff_eq_none.mp ((Option.guard_eq_some' _).mp hguard)
  obtain ⟨⟨b, s₁⟩, hload, rfl⟩ := Option.map_eq_some_iff.mp hs
  obtain ⟨h₁, hlive⟩ := h.newThread hJ hn
  rw [State.placement_orExit]
  exact h₁.load hJ hlive hload

end

/-! ## Unmapping and exits -/

theorem sound_freeMmapPage (h : s.placement.Sound none) (hs : s.freeMmapPage cur u = some s') :
    s'.placement.Sound none ∧
      s.placement.Drops s'.placement fun p u' => p = cur ∧ u' = u := by
  rcases State.freeMmapPage_some hs with ⟨hl, rfl⟩ | ⟨q, hl, hfree⟩
  · refine ⟨h, rfl, rfl, rfl, fun p u' q => ⟨fun hi => ⟨hi, ?_⟩, And.left⟩⟩
    rintro ⟨rfl, rfl⟩
    cases hl.symm.trans hi.1
  have hloaded : (s.placement.entry q).free = false ∨ s.placement.frame cur u = none := by
    cases hk : s.placement.frame cur u with
    | none => exact .inr rfl
    | some k => exact .inl (h.loaded cur u q k hl hk)
  rcases hfree (h.addr cur u q hl).1 hloaded with ⟨hp, hnone⟩ | ⟨f, hf, hk, hp⟩
  · have hk : s.placement.frame cur u = none := by
      by_contra hc
      obtain ⟨k, hk⟩ := Option.ne_none_iff_exists'.mp hc
      obtain ⟨f, hf, -, -, -, rfl⟩ := h.listed cur u k hk
      exact hnone f hf hk
    rw [hp]
    exact ⟨h.forget hk, drops_forget⟩
  · rw [hp]
    have hdrops := drops_forget (v := s.placement.giveBack f) (p := cur) (u := u)
    exact ⟨h.forget_giveBack hf hk, hdrops.entry, hdrops.swapSize, hdrops.swapBitmap,
      hdrops.inSwap⟩

theorem sound_freeMmapEntry (n : Nat) :
    ∀ (u : Upage) (s : State), s.placement.Sound none →
      State.freeMmapEntry cur n u s = some s' → s'.placement.Sound none ∧
        s.placement.Drops s'.placement fun p u' => p = cur ∧ u ≤ u' ∧ u' < u + n := by
  induction n with
  | zero =>
    intro u s h hs
    obtain rfl := Option.some.inj hs
    refine ⟨h, rfl, rfl, rfl, fun p u' q => ⟨fun hi => ⟨hi, ?_⟩, And.left⟩⟩
    rintro ⟨-, hle, hlt⟩
    exact absurd (Nat.lt_of_le_of_lt hle hlt) (Nat.lt_irrefl u)
  | succ n ih =>
    intro u s h hs
    obtain ⟨s₁, hpage, hs⟩ := Option.bind_eq_some_iff.mp hs
    obtain ⟨h₁, hd₁⟩ := sound_freeMmapPage h hpage
    obtain ⟨h', hd'⟩ := ih (u + 1) s₁ h₁ hs
    refine ⟨h', (hd₁.trans hd').mono fun p u' => ?_⟩
    rw [← and_or_left]
    have hrange : ∀ a b : Nat, (b = a ∨ a + 1 ≤ b ∧ b < a + 1 + n) ↔ a ≤ b ∧ b < a + (n + 1) := by
      omega
    exact and_congr_right fun _ => hrange u u'

/-- The mapping of a process with an identifier. -/
def State.mapping (s : State) (p : Pid) (id : Nat) : Option MmapEntry :=
  (s.thread p).bind fun t => t.mmapList.find? (·.mmapId = id)

/-- A page of the mapping. -/
def State.Maps (s : State) (p : Pid) (id : Nat) (u : Upage) : Prop :=
  ∃ e, s.mapping p id = some e ∧ e.uvaddr ≤ u ∧ u < e.uvaddr + e.pageNum

theorem sound_munmap {id : Nat} (h : s.placement.Sound none) (hs : s.munmap cur id = some s') :
    s'.placement.Sound none ∧
      s.placement.Drops s'.placement fun p u => p = cur ∧ s.Maps cur id u := by
  unfold State.munmap at hs
  split at hs
  · next he =>
    obtain rfl := Option.some.inj hs
    refine ⟨h, rfl, rfl, rfl, fun p u q => ⟨fun hi => ⟨hi, ?_⟩, And.left⟩⟩
    rintro ⟨-, e, hmap, -⟩
    cases he.symm.trans hmap
  · next e he =>
    obtain ⟨s₁, hfree, rfl⟩ := Option.map_eq_some_iff.mp hs
    obtain ⟨h₁, hd⟩ := sound_freeMmapEntry e.pageNum e.uvaddr s h hfree
    rw [State.placement_setThread]
    · refine ⟨h₁, hd.mono fun p u => and_congr_right fun _ => ⟨fun hu => ⟨e, he, hu⟩, ?_⟩⟩
      rintro ⟨e', he', hu⟩
      rwa [Option.some.inj (he.symm.trans he')]
    · exact fun _ => rfl
    · exact fun _ => rfl

theorem sound_freeMmapList (l : List MmapEntry) :
    ∀ s : State, s.placement.Sound none → State.freeMmapList cur l s = some s' →
      s'.placement.Sound none ∧ ∃ gone : Pid → Upage → Prop, (∀ p u, gone p u → p = cur) ∧
        s.placement.Drops s'.placement gone := by
  induction l with
  | nil =>
    intro s h hs
    obtain rfl := Option.some.inj hs
    exact ⟨h, fun _ _ => False, nofun, rfl, rfl, rfl, fun _ _ _ => (and_iff_left not_false).symm⟩
  | cons e l ih =>
    intro s h hs
    obtain ⟨s₁, hunmap, hs⟩ := Option.bind_eq_some_iff.mp hs
    obtain ⟨h₁, hd₁⟩ := sound_munmap h hunmap
    obtain ⟨h', gone, hgone, hd'⟩ := ih s₁ h₁ hs
    exact ⟨h', _, fun p u hg => hg.elim And.left (hgone p u), hd₁.trans hd'⟩

theorem sound_processExit (h : s.placement.Sound none) (hs : s.processExit cur = some s') :
    s'.placement.Sound none ∧ s.placement.Drops s'.placement fun p _ => p = cur := by
  obtain ⟨t, s₁, -, hfree, usedMap, hp, hused⟩ := State.processExit_some hs
  have hallow : (s.allowWrite cur).placement = s.placement := by
    unfold State.allowWrite
    split
    · rfl
    · rfl
  obtain ⟨h₁, gone, hgone, hd⟩ := sound_freeMmapList t.mmapList (s.allowWrite cur) (hallow ▸ h)
    hfree
  rw [hp]
  rw [hallow] at hd
  exact ⟨h₁.exit hused, (hd.trans drops_exit).mono fun p u => ⟨fun hg => hg.elim (hgone p u) id,
    .inr⟩⟩

/-! ## Runs -/

theorem Booted.sound (h : Booted s) : s.placement.Sound none := by
  obtain ⟨spte, poolSize, memory, swapSize, swap, file, ticks⟩ := h
  have hframe : ∀ p u, (State.init spte poolSize memory swapSize swap file ticks).placement.frame
      p u = none := fun _ _ => rfl
  exact {
    nodup := List.nodup_nil
    used := nofun
    mem := nofun
    installed := nofun
    listed := fun p u k hk => absurd ((hframe p u).symm.trans hk) nofun
    addr := nofun
    owner := nofun
    loaded := nofun
    live := nofun }

theorem State.runs_live (h : guard (s.runs p = true) = some ()) : s.placement.live p = true :=
  State.live_of_runs ((Option.guard_eq_some' _).mp h)

/-- A step keeps what is stable, if what it makes go does. -/
theorem Action.step_kept (hJ : Stable J) (a : Action) (h : Kept J s.placement)
    (hs : a.step s = some s')
    (hmunmap : ∀ p id, a = .munmap p id →
      s.placement.Drops s'.placement (fun p' u => p' = p ∧ s.Maps p id u) → J s'.placement)
    (hexit : ∀ p, a = .exit p → s.placement.Drops s'.placement (fun p' _ => p' = p) →
      J s'.placement) : Kept J s'.placement := by
  cases a with
  | start p file phdrs => exact h.startProcess hJ hs
  | load p u =>
    obtain ⟨-, -, hs⟩ := Option.bind_eq_some_iff.mp hs
    exact State.userLoad_some hs ▸ h
  | store p u ofs byte =>
    obtain ⟨-, -, hs⟩ := Option.bind_eq_some_iff.mp hs
    exact State.userStore_some hs ▸ h
  | fault p faultAddr esp =>
    obtain ⟨_, hruns, hs⟩ := Option.bind_eq_some_iff.mp hs
    exact h.pageFault hJ (State.runs_live hruns) hs
  | readFault p faultAddr esp =>
    obtain ⟨_, hruns, hs⟩ := Option.bind_eq_some_iff.mp hs
    exact h.readBufPageFaultHandler hJ (State.runs_live hruns) hs
  | mmap p file addr =>
    obtain ⟨_, hruns, hs⟩ := Option.bind_eq_some_iff.mp hs
    obtain ⟨⟨id, s₁⟩, hmap, hs⟩ := Option.bind_eq_some_iff.mp hs
    exact Option.some.inj hs ▸ h.mmap hJ (State.runs_live hruns) hmap
  | munmap p mapping =>
    obtain ⟨-, -, hs⟩ := Option.bind_eq_some_iff.mp hs
    obtain ⟨hsound, hdrops⟩ := sound_munmap h.sound hs
    exact ⟨hsound, hmunmap p mapping rfl hdrops⟩
  | exit p =>
    obtain ⟨hsound, hdrops⟩ := sound_processExit h.sound hs
    exact ⟨hsound, hexit p rfl hdrops⟩
  | write file content length =>
    obtain ⟨-, -, hs⟩ := Option.bind_eq_some_iff.mp hs
    rw [← Option.some.inj hs, State.placement_setFile]
    exact h
  | tick =>
    rw [← Option.some.inj hs]
    exact h

/-- The tables fit together in every state that can be reached. -/
theorem Reachable.sound {P : State → Action → Prop} (h : Reachable P s) :
    s.placement.Sound none := by
  induction h with
  | init h => exact h.sound
  | step a h hc hs ih =>
    exact (a.step_kept stable_true ⟨ih, trivial⟩ hs (fun _ _ _ _ => trivial)
      fun _ _ _ => trivial).sound

theorem Reachable.mono {P Q : State → Action → Prop} (h : Reachable P s)
    (hpq : ∀ s a, P s a → Q s a) : Reachable Q s := by
  induction h with
  | init h => exact .init h
  | step a h hc hs ih => exact ih.step a (hpq _ a hc) hs

/-- The steps of a list, one after the other. -/
def steps (s : State) (l : List Action) : Option State := l.foldlM (fun s a => a.step s) s

theorem Reachable.steps {P : State → Action → Prop} (l : List Action) :
    ∀ s, Reachable P s → (∀ s, ∀ a ∈ l, P s a) → Vm.steps s l = some s' → Reachable P s' := by
  induction l with
  | nil =>
    intro s h _ hs
    exact Option.some.inj hs ▸ h
  | cons a l ih =>
    intro s h hc hs
    obtain ⟨s₁, hstep, hs⟩ := Option.bind_eq_some_iff.mp hs
    exact ih s₁ (h.step a (hc s a List.mem_cons_self) hstep)
      (fun s b hb => hc s b (List.mem_cons_of_mem a hb)) hs

end Pintos.Vm
