import Pintos.Properties.Clients

/-!
# New inodes

A sector that `free_map_allocate` returns is of no inode, and neither are those that `inode_reserve`
puts into a new header. `inode_create` makes them an inode; where `filesys_create` fails after that,
the header is released while no handle is to it.
-/

namespace Pintos.Filesys

open Pintos.Logic Pintos.Logic.Exec Pintos.Lib

attribute [local irreducible] Exec.wp

variable {s s' : Fs} {k : Nat} {f : File} {cs ts : List Addr} {ls : List Nat} {disk : Block}

/-! ## New sectors -/

/-- An allocation that writes to nothing but new sectors and the free map. -/
theorem Grows.changes (hg : Grows (fun _ => False) s s') (hs : FreeMapOk s) :
    Changes freeMapSector s s' :=
  changes_none (hs.mapFileKept hg.toMapFileKept (hg.used _ hs.header) fun _ hk =>
      hg.used _ (hs.ofFreeMap_used hk)) hg.live (fun _ hj => hg.taken hj)
    (fun j hj => hg.view j hj.1 hj.2.2 not_false hj.not_data)
    (fun k => by rw [Fs.memory, Fs.memory, hg.openInodes]) hg.freeMapInode?

theorem Orderly.grows (h : Orderly f cs ls ts s) (hg : Grows (fun _ => False) s s') :
    Orderly f cs ls ts s' :=
  h.sameShape hg.sameShape (h.separate.changes (hg.changes h.separate.freeMap))

theorem Orphan.changes (ho : Orphan k s) (h : Separate s) (hc : Changes freeMapSector s s') :
    Orphan k s' := by
  refine ⟨hc.taken k ho.taken, fun p hp => ?_⟩
  have hp' := (isSite_congr fun _ => hc.live_iff).mp hp
  rw [h.site_other hc hp' hp'.live.2]
  exact ho.apart p hp'

/-- A sector that has been free is of no inode. -/
theorem orphan_new (h : Separate s) (hc : Changes freeMapSector s s') (hk : s'.Taken k)
    (hnew : ¬ s.used k) : Orphan k s' := by
  refine ⟨hk, fun p hp he => ?_⟩
  have hp' := (isSite_congr fun _ => hc.live_iff).mp hp
  rw [h.site_other hc hp' hp'.live.2] at he
  exact hnew (he ▸ (h.owned.ok p hp' (he ▸ hk.2.2)).1)

theorem Orderly.freeMapAllocate (h : Orderly f cs ls ts s) :
    freeMapAllocate.wp Safe
      (fun r s' => Orderly f cs ls ts s' ∧ ∀ k, r = some k → Orphan k s') s := by
  have hs := h.separate.freeMap
  refine wp_mono (freeMapAllocate_spec hs) (fun e he _ => ?_) fun r s' ha => ?_
  · rw [he.1]
    decide
  have hg : Grows (fun _ => False) s s' := FreeMapOk.allocated_grows ha
  refine ⟨h.grows hg, fun k hr => orphan_new h.separate (hg.changes hs) ?_ (ha.fresh k hr)⟩
  refine ⟨(ha.used k).mpr (.inr hr), fun hm => ?_, fun h0 => ?_⟩
  · exact hs.not_ofFreeMap (ha.fresh k hr) (hg.ofFreeMap.mp hm)
  · exact ha.fresh k hr (h0 ▸ hs.header)

/-! ## New headers -/

/-- A header in memory that may become the one of an inode: its sectors are of no inode. -/
structure NewHeader (s : Fs) (k : Nat) (disk : Block) : Prop where
  header : Orphan k s
  slots : Owned IsSlot s.Taken (ptr s.view disk)
  orphans : ∀ x, IsSlot x → ptr s.view disk x ≠ 0 → Orphan (ptr s.view disk x) s
  apart : ∀ x, IsSlot x → ptr s.view disk x ≠ k
  whole : Whole s.view disk

/-- The header of a new inode has been written to its sector. -/
structure Adopted (s : Fs) (k : Nat) (disk : Block) (s' : Fs) : Prop where
  openInodes : s'.openInodes = s.openInodes
  bits : s'.freeMap = s.freeMap
  freeMap : FreeMapOk s'
  file : s'.freeMapFile = s.freeMapFile
  nextAddr : s'.nextAddr = s.nextAddr
  live : s'.history.live = k :: s.history.live
  taken : ∀ j, s.Taken j → s'.Taken j
  view : s'.view = Function.update s.view k disk

theorem Adopted.view_ne (ha : Adopted s k disk s') {j : Nat} (hj : j ≠ k) :
    s'.view j = s.view j := by
  rw [ha.view, Function.update_of_ne hj]

theorem Adopted.memory (ha : Adopted s k disk s') (j : Nat) : s'.memory j = s.memory j := by
  rw [Fs.memory, Fs.memory, ha.openInodes]

theorem Adopted.live_iff (ha : Adopted s k disk s') (hk : k ≠ freeMapSector) {j : Nat} :
    s'.Live j ↔ j = k ∨ s.Live j := by
  rw [Fs.Live, ha.live, List.mem_cons, or_and_right]
  exact or_congr_left ⟨fun hj => hj.1, fun hj => ⟨hj, hj ▸ hk⟩⟩

theorem Orphan.memory (ho : Orphan k s) (h : Separate s) : s.memory k = none := by
  refine Option.map_eq_none_iff.mpr (List.find?_eq_none.mpr fun i hi he => ?_)
  exact ho.closed h i hi (by simpa using he)

section

variable (h : Separate s) (hk : NewHeader s k disk) (ha : Adopted s k disk s')

include hk ha

theorem Adopted.ptr_eq {x : Slot} (hx : IsSlot x) : ptr s'.view disk x = ptr s.view disk x :=
  ptr_congr (fun _ _ => rfl) (fun y hy _ _ j _ =>
    congrArg (·.word j) (ha.view_ne (hk.apart y hy))) hx

/-- The pointers of the other inodes are as before. -/
theorem Adopted.ptr_old {j : Nat} {data : Block} (hj : s.Live j) (hd : Ahead data (s.header j))
    {x : Slot} (hx : IsSlot x) : ptr s'.view data x = ptr s.view data x := by
  refine ptr_congr (fun _ _ => rfl) (fun y hy _ h0 n _ => congrArg (·.word n) (ha.view_ne ?_)) hx
  have hy' := (hd.ptr s.view hy).resolve_right h0
  exact fun he => hk.header.apart (j, some y) ⟨hj, hy⟩ (hy'.symm.trans he)

include h

/-- The slots of the new inode are the pointers in its header. -/
theorem Adopted.site_new {x : Slot} (hx : IsSlot x) :
    site s' (k, some x) = ptr s.view disk x := by
  have hheader : s'.header k = disk := by
    rw [header_closed ((ha.memory k).trans (hk.header.memory h)), ha.view, Function.update_self]
  show ptr s'.view (s'.header k) x = _
  rw [hheader, ha.ptr_eq hk hx]

/-- A site is one from before, or the new inode has it with a sector that was of no inode. -/
theorem Adopted.site_cases {p : Site} (hp : IsSite s' p) :
    (IsSite s p ∧ site s' p = site s p) ∨
      p.1 = k ∧ (site s' p ≠ 0 → Orphan (site s' p) s) := by
  obtain ⟨j, x⟩ := p
  rcases (ha.live_iff hk.header.taken.2.2).mp hp.live with rfl | hj
  · refine .inr ⟨rfl, fun h0 => ?_⟩
    cases x with
    | none => exact hk.header
    | some x =>
      rw [ha.site_new h hk hp.2] at h0 ⊢
      exact hk.orphans x hp.2 h0
  · have hjk : j ≠ k := fun he => hk.header.apart (j, none) hj he
    cases x with
    | none => exact .inl ⟨hj, rfl⟩
    | some x =>
      refine .inl ⟨⟨hj, hp.2⟩, ?_⟩
      have hheader : s'.header j = s.header j := by
        rw [Fs.header, Fs.header, ha.memory, ha.view_ne hjk]
      show ptr s'.view (s'.header j) x = _
      rw [hheader]
      exact ha.ptr_old hk hj (Ahead.refl _) hp.2

theorem Adopted.separate : Separate s' where
  freeMap := ha.freeMap
  once := ha.live ▸ List.nodup_cons.mpr ⟨hk.header.not_live, h.once⟩
  owned := {
    ok := fun p hp h0 => by
      rcases ha.site_cases h hk hp with ⟨hold, he⟩ | ⟨-, hnew⟩
      · rw [he] at h0 ⊢
        exact ha.taken _ (h.owned.ok p hold h0)
      · exact ha.taken _ (hnew h0).taken
    inj := fun p q hp hq h0 he => by
      rcases ha.site_cases h hk hp with ⟨hpold, hpe⟩ | ⟨hpk, hpnew⟩
      · rcases ha.site_cases h hk hq with ⟨hqold, hqe⟩ | ⟨-, hqnew⟩
        · rw [hpe] at h0 he
          exact h.owned.inj p q hpold hqold h0 (he.trans hqe)
        · exact absurd (hpe.symm.trans he) ((hqnew (he ▸ h0)).apart p hpold)
      · rcases ha.site_cases h hk hq with ⟨hqold, hqe⟩ | ⟨hqk, -⟩
        · exact absurd (hqe.symm.trans he.symm) ((hpnew h0).apart q hqold)
        · obtain ⟨j, x⟩ := p
          obtain ⟨j', y⟩ := q
          obtain rfl : j = k := hpk
          obtain rfl : j' = j := hqk
          cases x with
          | none =>
            cases y with
            | none => rfl
            | some y => exact absurd (he.trans (ha.site_new h hk hq.2)).symm (hk.apart y hq.2)
          | some x =>
            rw [ha.site_new h hk hp.2] at h0 he
            cases y with
            | none => exact absurd he (hk.apart x hp.2)
            | some y =>
              rw [ha.site_new h hk hq.2] at he
              rw [hk.slots.inj x y hp.2 hq.2 h0 he] }
  whole j hj := by
    by_cases hjk : j = k
    · subst hjk
      rw [ha.view, Function.update_self]
      exact hk.whole.congr rfl fun x hx h0 => by rw [← ha.view, ha.ptr_eq hk hx]; exact h0
    · have hj' := ((ha.live_iff hk.header.taken.2.2).mp hj).resolve_left hjk
      rw [ha.view_ne hjk]
      exact (h.whole j hj').congr rfl fun x hx h0 => by
        rw [ha.ptr_old hk hj' (h.ahead hj') hx]; exact h0
  opened j data hm h0 := by
    rw [ha.memory] at hm
    obtain ⟨hj, hd⟩ := h.opened j data hm h0
    have hjk : j ≠ k := fun he => hk.header.apart (j, none) hj he
    rw [ha.view_ne hjk]
    exact ⟨(ha.live_iff hk.header.taken.2.2).mpr (.inr hj), hd⟩
  mapSector i hi := h.mapSector i (by
    rwa [Fs.freeMapInode?, ha.file, show s'.inode? = s.inode? from
      funext fun a => by rw [Fs.inode?, Fs.inode?, ha.openInodes]] at hi)

end

theorem Orderly.adopted (h : Orderly f cs ls ts s) (hk : NewHeader s k disk)
    (ha : Adopted s k disk s') : Orderly f cs (k :: ls) ts s' where
  separate := ha.separate h.separate hk
  counted := h.counted.congr (by rw [ha.openInodes]) ha.nextAddr
  file := ha.file.trans h.file
  live := by rw [ha.live, h.live]
  sector a hm i hi := h.sector a hm i (by rwa [Fs.inode?, ha.openInodes] at hi)
  removed i hi hr := h.removed i (ha.openInodes ▸ hi) hr

/-- The sector is of no inode, or is the header of one to which no handle is. -/
structure Releasable (k : Nat) (s : Fs) : Prop where
  taken : s.Taken k
  apart : ∀ p, IsSite s p → p ≠ (k, none) → site s p ≠ k
  closed : ∀ i ∈ s.openInodes, i.sector ≠ k

theorem Orphan.releasable (ho : Orphan k s) (h : Separate s) : Releasable k s :=
  ⟨ho.taken, fun p hp _ => ho.apart p hp, ho.closed h⟩

theorem Separate.releasable (h : Separate s) (hk : s.Live k)
    (hclosed : ∀ i ∈ s.openInodes, i.sector ≠ k) : Releasable k s :=
  ⟨h.taken hk, fun p hp hne he => hne (h.owned.inj p (k, none) hp hk (he ▸ hk.2) he), hclosed⟩

/-- `inode_reserve` has put sectors that were free into an empty header. -/
structure Filled (s s' : Fs) (disk : Block) : Prop extends Grows (fun _ => False) s s' where
  slots : Owned IsSlot s'.Taken (Filesys.ptr s'.view disk)
  fresh : ∀ x, IsSlot x → Filesys.ptr s'.view disk x ≠ 0 → ¬ s.used (Filesys.ptr s'.view disk x)
  whole : Whole s'.view disk

theorem Filled.newHeader (hf : Filled s s' disk) (h : Separate s) (hk : Orphan k s) :
    NewHeader s' k disk := by
  have hc := hf.toGrows.changes h.freeMap
  refine ⟨hk.changes h hc, hf.slots, fun x hx h0 => ?_, fun x hx he => ?_, hf.whole⟩
  · exact orphan_new h hc (hf.slots.ok x hx h0) (hf.fresh x hx h0)
  · exact hf.fresh x hx (he ▸ hk.taken.2.2) (he ▸ hk.taken.1)

/-- The header is written when its sectors have been allocated. -/
theorem adopted_of_write {s₁ : Fs} (hs : FreeMapOk s) (hmap : ¬ s.OfFreeMap k)
    (hst : Stored s s₁) (hv : s₁.view = Function.update s.view k disk)
    (hs' : s' = { s₁ with history.live := k :: s₁.history.live }) : Adopted s k disk s' := by
  have hkept : MapFileKept s s' := by
    refine (mapFileKept_write hst hmap hv).trans ?_
    subst hs'
    exact ⟨rfl, rfl, rfl, fun _ _ _ _ => rfl⟩
  have hused : ∀ j, s.used j → s'.used j := fun j hj => by
    subst hs'
    unfold Fs.used at hj ⊢
    rwa [hst.freeMap]
  exact {
    openInodes := hkept.openInodes
    bits := by rw [hs', hst.freeMap]
    freeMap := hs.mapFileKept hkept (hused _ hs.header) fun j hj => hused _ (hs.ofFreeMap_used hj)
    file := hkept.freeMapFile
    nextAddr := by rw [hkept.rest]
    live := by rw [hs', hst.history]
    taken := fun j hj => ⟨hused j hj.1, fun hm => hj.2.1 (hkept.ofFreeMap.mp hm), hj.2.2⟩
    view := by subst hs'; exact hv }

/-- `inode_create` fills a header and writes it to its sector, or it fails. -/
theorem inodeCreate_spec (hs : FreeMapOk s) (hk : s.used k) (hmap : ¬ s.OfFreeMap k)
    {length : Int} (hlt : length < 2147483648) (dir : Bool) :
    (inodeCreate k length dir).wp Safe (fun ok s' => s'.history.Free sharingEvents →
      (ok = true ∧ ∃ s₁ data, Filled s s₁ data ∧ diskLength data = length ∧
        Adopted s₁ k data s') ∨ (ok = false ∧ Grows (fun _ => False) s s')) s := by
  unfold inodeCreate
  have hassert : Fault.assertion ≠ .releaseFree := by decide
  refine (wp_ite _ _).mpr ⟨fun _ => wp_fail.mpr fun _ => hassert, fun h0 => ?_⟩
  have h0 : 0 ≤ length := Int.not_lt.mp h0
  rw [wp_bind]
  refine wp_malloc fun memory s₁ h₁ _ => ?_
  have hg₁ : Grows (fun _ => False) s s₁ := h₁.grows _
  have hs₁ := hs.mapFileKept hg₁.toMapFileKept (hg₁.used _ hs.header) fun _ hk =>
    hg₁.used _ (hs.ofFreeMap_used hk)
  refine (wp_ite _ _).mpr ⟨fun _ => ?_, fun _ => (wp_pure _).mpr fun _ => .inr ⟨rfl, hg₁⟩⟩
  have hblank := unreserved_newInodeDisk length dir
  have hzero : ∀ v x, IsSlot x → ptr v (newInodeDisk length dir) x = 0 := fun v x hx =>
    hblank.ptr_eq v hx.1
  rw [wp_bind]
  refine wp_mono (wp_and (inodeReserve_ends hs₁ (hblank.owned _ _) length)
    (inodeReserve_rest freeMapAllocate (newInodeDisk length dir) length s₁))
    (fun _ he => he.1.safe) fun r s₂ h₂ => ?_
  obtain ⟨ok, data⟩ := r
  obtain ⟨hends, hrest⟩ := h₂
  rcases hends with ⟨hext, hdone, -⟩ | ⟨-, hev⟩
  swap
  · refine wp_unfree (fun _ _ l => Steps.ite ?_ (l.pure _)) (not_free_of_mem (by decide) hev)
    exact l.bind (writeSector_steps l.toWriting _ _) fun _ =>
      l.bind (modifyLive_steps l.toQuiet _) fun _ => l.pure _
  have hg₂ : Grows (fun _ => False) s₁ s₂ := hext.toGrows.mono fun _ hj => by
    obtain ⟨hne, x, hx, -, rfl⟩ := hj
    exact hne (hzero _ x hx)
  have hg := hg₁.trans hg₂ fun _ _ h => h
  cases ok with
  | false => exact (wp_pure _).mpr fun _ => .inr ⟨rfl, hg⟩
  | true =>
    obtain ⟨-, hfits, hcov⟩ := hdone rfl
    have hlength : diskLength data = length := by
      rw [diskLength, hrest 126 (by decide)]
      exact diskLength_newInodeDisk h0 hlt dir
    have hfilled : Filled s s₂ data := {
      toGrows := hg
      slots := hext.owned (hblank.owned _ _)
      fresh := fun x hx hne hu =>
        hext.pointers.fresh x hx (hzero _ x hx) hne (hg₁.used _ hu)
      whole := (whole_setDiskLength h0 hlt hfits.2 hcov).congr
        (hlength.trans (diskLength_setDiskLength data h0 hlt).symm) fun x hx hne => by
          rwa [ptr, ← word_setDiskLength data length (show x.1 ≠ 126 by have := hx.1; omega)] }
    have hs₂ := hs₁.mapFileKept hg₂.toMapFileKept (hg₂.used _ hs₁.header) fun _ hk =>
      hg₂.used _ (hs₁.ofFreeMap_used hk)
    dsimp only
    rw [if_pos rfl, wp_bind]
    refine wp_writeSector (hs₂.used_lt (hg.used _ hk)) fun s₃ hst hv => ?_
    rw [wp_bind, modifyLive]
    refine wp_modifyHistory fun s₄ _ he₄ => (wp_pure _).mpr fun _ => .inl ⟨rfl, s₂, data, hfilled,
      hlength, ?_⟩
    exact adopted_of_write hs₂ (fun hm => hmap (hg.ofFreeMap.mp hm)) hst hv he₄

/-- `inode_create` on a sector of no inode makes one of it, or leaves it as it is. -/
theorem Orderly.inodeCreate (h : Orderly f cs ls ts s) (hk : Orphan k s) {length : Int}
    (hlt : length < 2147483648) (dir : Bool) :
    (inodeCreate k length dir).wp Safe (fun ok s' => s'.history.Free sharingEvents →
      Orderly f cs (if ok then k :: ls else ls) ts s' ∧ Releasable k s') s := by
  refine wp_mono (inodeCreate_spec h.separate.freeMap hk.taken.1 hk.taken.2.1 hlt dir)
    (fun _ he => he) fun ok s' h' hf => ?_
  rcases h' hf with ⟨rfl, s₁, data, hfilled, -, hadopted⟩ | ⟨rfl, hg⟩
  · have hnew := hfilled.newHeader h.separate hk
    have ho := (h.grows hfilled.toGrows).adopted hnew hadopted
    refine ⟨ho, ho.separate.releasable ?_ ?_⟩
    · exact (hadopted.live_iff hk.taken.2.2).mpr (.inl rfl)
    · exact hadopted.openInodes ▸ hnew.header.closed (h.grows hfilled.toGrows).separate
  · have ho := h.grows hg
    exact ⟨ho, (hk.changes h.separate (hg.changes h.separate.freeMap)).releasable ho.separate⟩

/-! ## Creating a file -/

/-- An open inode keeps its sector. -/
theorem opens_loud : Loud (fun s s' => s.Opens s'.openInodes s'.nextAddr) fun _ _ => True where
  refl s := ⟨Nat.le_refl _, fun i hi => .inr ⟨i, hi, rfl, rfl⟩⟩
  trans h h' := by
    refine ⟨Nat.le_trans h.next h'.next, fun i hi => ?_⟩
    rcases h'.old i hi with hnew | ⟨j, hj, haddr, hsector⟩
    · exact .inl (Nat.le_trans h.next hnew)
    · rw [← haddr, ← hsector]
      exact h.old j hj
  fault _ _ := trivial
  stop _ _ _ := trivial
  step _ _ _ _ := ⟨Nat.le_refl _, fun i hi => .inr ⟨i, hi, rfl, rfl⟩⟩
  freeMap _ _ _ := ⟨Nat.le_refl _, fun i hi => .inr ⟨i, hi, rfl, rfl⟩⟩
  history _ _ _ := ⟨Nat.le_refl _, fun i hi => .inr ⟨i, hi, rfl, rfl⟩⟩
  data s a _ := Fs.Opens.mapInode s a fun _ => ⟨rfl, rfl⟩
  releaseFree _ := trivial
  doubleClose _ := trivial
  useAfterFree _ := trivial
  inodes _ _ _ h := h

/-- With the same handles as before the same sectors are open. -/
theorem Orderly.closed_of_opens {ls' : List Nat} (h : Orderly f cs ls ts s)
    (h' : Orderly f cs ls' ts s') (ho : s.Opens s'.openInodes s'.nextAddr)
    (hk : ∀ i ∈ s.openInodes, i.sector ≠ k) : ∀ i ∈ s'.openInodes, i.sector ≠ k := by
  intro i hi
  rcases ho.old i hi with hnew | ⟨j, hj, -, hsector⟩
  · obtain ⟨j, hj, haddr⟩ := h.counted.opened _ (h'.counted.held i hi)
    exact absurd (haddr ▸ h.counted.fresh j hj) (Nat.not_lt.mpr hnew)
  · exact hsector ▸ hk j hj

/-- Where a file is not created, its sector may be released. -/
theorem Orderly.createIn (h : Orderly f cs ls [] s) {d : Dir} (hd : d.inode ∈ cs)
    (filename : CString) {length : Int} (hlt : length < 2147483648) (dirFlag : Bool) :
    (createIn d filename length dirFlag).wp Safe (fun r s' => s'.history.Free sharingEvents →
      AtRest f cs s' ∧ (r.1 = false → r.2 ≠ 0 → Releasable r.2 s')) s := by
  unfold Filesys.createIn
  rw [wp_bind]
  refine wp_mono h.freeMapAllocate (fun _ he => he) fun r s₁ h₁ => ?_
  obtain ⟨ho₁, horphan⟩ := h₁
  cases r with
  | none => exact (wp_pure _).mpr fun _ => ⟨⟨ls, ho₁⟩, fun _ h0 => absurd rfl h0⟩
  | some k =>
    have hk := horphan k rfl
    dsimp only
    rw [wp_bind]
    refine wp_mono (ho₁.inodeCreate hk hlt dirFlag) (fun _ he => he) fun ok s₂ h₂ => ?_
    cases ok with
    | false =>
      exact (wp_pure _).mpr fun hf => ⟨⟨ls, (h₂ hf).1⟩, fun _ _ => (h₂ hf).2⟩
    | true =>
      rw [if_pos rfl, wp_bind]
      by_cases hf₂ : s₂.history.Free sharingEvents
      swap
      · refine wp_mono (dirAdd_steps events_loud _ _ _ _ s₂) (fun _ hle hf => ?_)
          fun ok s₃ hle => (wp_pure _).mpr fun hf => ?_
        · exact absurd (hf.of_le hle) hf₂
        · exact absurd (hf.of_le hle) hf₂
      obtain ⟨ho₂, hk₂⟩ := h₂ hf₂
      have hd' : d.inode ∈ [] ++ cs := hd
      refine wp_mono (wp_and (dirAdd_owns hd' filename k dirFlag s₂ fun _ => ho₂)
        (dirAdd_steps opens_loud _ _ _ _ s₂)) (fun _ he => he.1) fun ok s₃ h₃ =>
          (wp_pure _).mpr fun hf => ?_
      have ho₃ := h₃.1 hf
      refine ⟨⟨_, ho₃⟩, fun _ _ => ho₃.separate.releasable ⟨?_, hk.taken.2.2⟩ ?_⟩
      · rw [ho₃.live]
        exact List.mem_cons_self
      · exact ho₂.closed_of_opens ho₃ h₃.2 hk₂.closed

/-! ## The file system calls -/

theorem record_serves (event : Event) : Serves f cs (record event) fun _ => cs :=
  Owns.serves (fun _ _ l => record_steps l.toQuiet _) fun _ => recordIf_owns (fun _ => true) event

theorem fileOpen_serves (r : Option Addr) :
    Serves f (handle r ++ cs) (fileOpen r) fun file => handle (file.map (·.inode)) ++ cs := by
  refine Serves.bind (Serves.of_reading fun _ _ q _ => malloc_steps q) fun memory => ?_
  split
  · exact Serves.pure _ rfl
  · cases r with
    | none => exact Serves.bind (Serves.pure () rfl) fun _ => Serves.pure _ rfl
    | some a => exact Serves.bind (inodeClose_serves a) fun _ => Serves.pure _ rfl

theorem dirOpenPath_atRest (hs : s.history.Free sharingEvents → AtRest f cs s)
    (hcwd : HasCwd cs s) (path : CString) :
    (dirOpenPath path).wp Safe (fun d s' => s'.history.Free sharingEvents →
      AtRest f (handle (d.map (·.inode)) ++ cs) s') s := by
  by_cases hf : s.history.Free sharingEvents
  · obtain ⟨ls, ho⟩ := hs hf
    refine wp_mono (dirOpenPath_wp (fun _ => ho) hcwd path) (fun _ he => he) fun d s' h' hf' => ?_
    exact ⟨ls, (h' hf').regroup (by rw [List.append_nil, List.nil_append])
      (List.subset_append_right _ _)⟩
  · exact wp_unfree (fun _ _ l => dirOpenPath_steps l _) hf

/-- A call that starts with a path. -/
theorem resolve_wp {α : Type} {path : CString} (part : CString × CString → CString)
    {g : CString × CString → Option Dir → Kernel α} {Q : α → Fs → Prop}
    (hs : s.history.Free sharingEvents → AtRest f cs s) (hcwd : HasCwd cs s)
    (hg : ∀ r d t, (t.history.Free sharingEvents →
      AtRest f (handle (d.map (·.inode)) ++ cs) t) →
        (g r d).wp Safe (fun a s' => s'.history.Free sharingEvents → Q a s') t) :
    (resolve path >>= fun r => dirOpenPath (part r) >>= g r).wp Safe
      (fun a s' => s'.history.Free sharingEvents → Q a s') s := by
  rw [wp_bind]
  refine wp_mono (resolve_steps looks_safe path s) (fun _ he _ => he) fun r s₁ h₁ => ?_
  rw [wp_bind]
  have hs₁ : s₁.history.Free sharingEvents → AtRest f cs s₁ := fun hf =>
    (hs (h₁.history ▸ hf)).looks h₁
  exact wp_mono (dirOpenPath_atRest hs₁ (hcwd.stored h₁.toStored) (part r)) (fun _ he => he)
    fun d s₂ h₂ => hg r d s₂ h₂

theorem filesysCreate_wp (hs : s.history.Free sharingEvents → AtRest f cs s)
    (hcwd : HasCwd cs s) (path : CString) {length : Int} (hlt : length < 2147483648)
    (dirFlag : Bool) : (filesysCreate path length dirFlag).wp Safe
      (fun _ s' => s'.history.Free sharingEvents → AtRest f cs s') s := by
  refine resolve_wp Prod.fst hs hcwd fun r d t ht => ?_
  cases d with
  | none => exact (wp_pure _).mpr ht
  | some d =>
    by_cases hf : t.history.Free sharingEvents
    swap
    · refine wp_unfree (fun _ _ l => l.bind (createIn_steps l _ _ _ _) fun r =>
        l.bind (Steps.ite (freeMapRelease_steps l.toQuiet _) (l.pure _)) fun _ =>
          l.bind (dirClose_steps l _) fun _ => l.pure _) hf
    obtain ⟨ls, ho⟩ := ht hf
    dsimp only
    rw [wp_bind]
    refine wp_mono (ho.createIn (d := d) List.mem_cons_self r.2 hlt dirFlag) (fun _ he => he)
      fun r s₁ h₁ => ?_
    obtain ⟨success, k⟩ := r
    dsimp only
    rw [wp_bind]
    refine wp_mono (Q := fun _ s' => s'.history.Free sharingEvents →
      AtRest f (d.inode :: cs) s') ?_ (fun _ he => he) fun _ s₂ h₂ => ?_
    · refine (wp_ite _ _).mpr ⟨fun hc => ?_, fun _ => (wp_pure _).mpr fun hf => (h₁ hf).1⟩
      by_cases hf₁ : s₁.history.Free sharingEvents
      · obtain ⟨⟨ls', ho'⟩, hrel⟩ := h₁ hf₁
        obtain ⟨hfail, hk0⟩ := (Bool.and_eq_true _ _).mp hc
        have hrel := hrel (by simpa using hfail) (by simpa using hk0)
        refine wp_mono (freeMapRelease_spec ho'.separate.freeMap ho'.file hrel.taken)
          (fun e he _ => ?_) fun _ s₂ hr _ => ⟨_, ho'.released hrel.taken hr hrel.apart hrel.closed⟩
        rw [he.1]
        decide
      · exact wp_unfree (fun _ _ l => freeMapRelease_steps l.toQuiet _) hf₁
    · exact Serves.bind (inodeClose_serves d.inode) (fun _ => Serves.pure _ rfl) s₂ h₂

theorem filesysRemove_wp (hs : s.history.Free sharingEvents → AtRest f cs s)
    (hcwd : HasCwd cs s) (name : CString) : (filesysRemove name).wp Safe
      (fun _ s' => s'.history.Free sharingEvents → AtRest f cs s') s := by
  refine resolve_wp Prod.fst hs hcwd fun r d t ht => ?_
  cases d with
  | none => exact (wp_pure _).mpr ht
  | some d =>
    have hd : d.inode ∈ d.inode :: cs := List.mem_cons_self
    exact Serves.bind (dirRemove_serves hd r.2)
      (fun _ => Serves.bind (inodeClose_serves d.inode) fun _ => Serves.pure _ rfl) t ht

/-- Of a removed inode that is opened the handle stays behind. -/
theorem filesysOpen_wp (hs : s.history.Free sharingEvents → AtRest f cs s)
    (hcwd : HasCwd cs s) (name : CString) : (filesysOpen name).wp Safe
      (fun file s' => s'.history.Free sharingEvents →
        ∃ leaked, AtRest f (handle (file.map (·.inode)) ++ (leaked ++ cs)) s') s := by
  refine (wp_ite _ _).mpr ⟨fun _ => (wp_pure _).mpr fun hf => ⟨[], hs hf⟩, fun _ => ?_⟩
  refine resolve_wp Prod.fst hs hcwd fun r d t ht => ?_
  cases d with
  | none => exact (wp_pure _).mpr fun hf => ⟨[], ht hf⟩
  | some d =>
    dsimp only
    rw [wp_bind]
    have hinode : Serves f (d.inode :: cs) (if 0 < r.2.length then do
        let inode ← dirLookup d r.2
        dirClose (some d)
        return inode
      else pure (some d.inode)) fun inode => handle inode ++ cs := by
      refine Serves.ite ?_ (Serves.pure _ rfl)
      refine Serves.bind (Owns.serves (fun _ _ l => dirLookup_steps l _ _)
        fun _ => dirLookup_owns (d := d) List.mem_cons_self r.2) fun inode => ?_
      refine Serves.bind ((inodeClose_serves d.inode).perm ?_) fun _ => Serves.pure _ rfl
      rw [List.append_nil]
      exact List.perm_middle
    refine wp_mono (hinode t ht) (fun _ he => he) fun inode s₁ h₁ => ?_
    cases inode with
    | none => exact (wp_pure _).mpr fun hf => ⟨[], h₁ hf⟩
    | some inode =>
      dsimp only
      rw [wp_bind]
      refine wp_mono (Serves.of_reading (fun _ _ q d => deref_steps q (d _)) s₁ h₁) (fun _ he => he)
        fun i s₂ h₂ => (wp_ite _ _).mpr ⟨fun _ => ?_, fun _ => ?_⟩
      · rw [wp_bind]
        exact wp_mono (record_serves .removedOpened s₂ h₂) (fun _ he => he) fun _ s₃ h₃ =>
          (wp_pure _).mpr fun hf => ⟨[inode], h₃ hf⟩
      · exact wp_mono (fileOpen_serves (some inode) s₂ h₂) (fun _ he => he)
          fun file s₃ h₃ hf => ⟨[], h₃ hf⟩

end Pintos.Filesys
