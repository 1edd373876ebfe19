import Pintos.Properties.Writing
import Pintos.Properties.References

/-!
# Whose sectors

`Separate s` says that no two of the sectors that the live inodes point to are the same, headers
included, and that all of them are in use. Each operation on inodes keeps it, as long as no index
block is refused.

The header of an open inode is the copy in memory. It may be ahead of the one on the device: sectors
that a failed extension took are in the copy alone.
-/

namespace Pintos.Filesys

open Pintos.Logic Pintos.Logic.Exec Pintos.Lib

attribute [local irreducible] Exec.wp

variable {s s' s'' : Fs} {a : Addr} {i : Inode} {k j : Nat} {disk data : Block} {hs : List Addr}

/-! ## Headers -/

/-- The copy in memory of the header in the sector `k`, if the inode is open. -/
def Fs.memory (s : Fs) (k : Nat) : Option Block :=
  (s.openInodes.find? (·.sector == k)).map (·.data)

/-- The header of the inode in the sector `k`. -/
def Fs.header (s : Fs) (k : Nat) : Block := (s.memory k).getD (s.view k)

/-- An inode that has been created and not been released, other than that of the free map. -/
def Fs.Live (s : Fs) (k : Nat) : Prop := k ∈ s.history.live ∧ k ≠ freeMapSector

theorem memory_open (hn : (s.openInodes.map (·.sector)).Nodup) (hi : i ∈ s.openInodes) :
    s.memory i.sector = some i.data := by
  unfold Fs.memory
  cases hfind : s.openInodes.find? (·.sector == i.sector) with
  | none => exact absurd (List.find?_eq_none.mp hfind i hi) (by simp)
  | some j =>
    have hj : j.sector = i.sector := by simpa using List.find?_some hfind
    rw [List.inj_on_of_nodup_map hn (List.mem_of_find?_eq_some hfind) hi hj]
    rfl

theorem header_open (hn : (s.openInodes.map (·.sector)).Nodup) (hi : i ∈ s.openInodes) :
    s.header i.sector = i.data := by
  rw [Fs.header, memory_open hn hi, Option.getD_some]

theorem memory_closed (h : ∀ i ∈ s.openInodes, i.sector ≠ k) : s.memory k = none := by
  have hnone : s.openInodes.find? (·.sector == k) = none := by
    rw [List.find?_eq_none]
    simpa using h
  rw [Fs.memory, hnone, Option.map_none]

theorem header_closed (h : s.memory k = none) : s.header k = s.view k := by
  rw [Fs.header, h, Option.getD_none]

/-- The copy `data` of the header `disk` in memory has all its sectors. -/
structure Ahead (disk data : Block) : Prop where
  words : ∀ r < 125, disk.word r = 0 ∨ data.word r = disk.word r
  rest : ∀ r, 125 ≤ r → data.word r = disk.word r

theorem Ahead.refl (disk : Block) : Ahead disk disk := ⟨fun _ _ => .inr rfl, fun _ _ => rfl⟩

theorem Ahead.ptr (h : Ahead disk data) (v : Nat → Block) {x : Slot} (hx : IsSlot x) :
    ptr v disk x = ptr v data x ∨ ptr v disk x = 0 := by
  unfold Filesys.ptr
  rcases h.words x.1 hx.1 with h0 | he
  · exact .inr (by rw [h0, node_zero])
  · exact .inl (by rw [he])

theorem Ahead.length (h : Ahead disk data) : diskLength data = diskLength disk := by
  rw [diskLength, diskLength, h.rest 126 (by decide)]

theorem Whole.ahead {v : Nat → Block} (h : Whole v disk) (ha : Ahead disk data) : Whole v data :=
  h.congr ha.length fun x hx hne => by
    rcases ha.ptr v hx with he | h0
    · exact he ▸ hne
    · exact absurd h0 hne

/-! ## Sites -/

/-- A place for a sector of an inode: its header, or a slot of it. -/
abbrev Site : Type := Nat × Option Slot

/-- The sites of the live inodes. -/
def IsSite (s : Fs) : Site → Prop
  | (k, none) => s.Live k
  | (k, some x) => s.Live k ∧ IsSlot x

/-- The sector at a site. -/
def site (s : Fs) : Site → Nat
  | (k, none) => k
  | (k, some x) => ptr s.view (s.header k) x

/-- No two live inodes share a sector, and no inode has one twice. -/
structure Separate (s : Fs) : Prop where
  freeMap : FreeMapOk s
  once : s.history.live.Nodup
  owned : Owned (IsSite s) s.Taken (site s)
  whole : ∀ k, s.Live k → Whole s.view (s.view k)
  opened : ∀ k data, s.memory k = some data → k ≠ freeMapSector → s.Live k ∧ Ahead (s.view k) data
  mapSector : ∀ i, s.freeMapInode? = some i → i.sector = freeMapSector

theorem IsSite.live {p : Site} (h : IsSite s p) : s.Live p.1 := by
  obtain ⟨k, x⟩ := p
  cases x with
  | none => exact h
  | some x => exact h.1

/-- The sites do not depend on the state but for the live inodes. -/
theorem isSite_congr (hl : ∀ k, s'.Live k ↔ s.Live k) {p : Site} : IsSite s' p ↔ IsSite s p := by
  obtain ⟨k, x⟩ := p
  cases x with
  | none => exact hl k
  | some x => exact and_congr_left fun _ => hl k

theorem Separate.taken (h : Separate s) (hk : s.Live k) : s.Taken k :=
  h.owned.ok (k, none) hk hk.2

/-- The slots of one inode. -/
theorem Separate.slots (h : Separate s) (hk : s.Live k) :
    Owned IsSlot s.Taken (ptr s.view (s.header k)) :=
  h.owned.comp (fun x => (k, some x)) (fun _ hx => ⟨hk, hx⟩) fun _ _ _ _ he => by
    cases he
    rfl

/-- The header on the device has no sector that the one in memory does not have. -/
theorem Separate.ahead (h : Separate s) (hk : s.Live k) : Ahead (s.view k) (s.header k) := by
  unfold Fs.header
  cases hm : s.memory k with
  | none => exact Ahead.refl _
  | some data => exact (h.opened k data hm hk.2).2

/-- The sector at a site of another inode is none of the inode in `k`. -/
theorem Separate.apart (h : Separate s) {p q : Site} (hp : IsSite s p) (hq : IsSite s q)
    (hne : p.1 ≠ q.1) (h0 : site s p ≠ 0) : site s q ≠ site s p := fun he =>
  hne (congrArg Prod.fst (h.owned.inj p q hp hq h0 he.symm))

/-! ## Changes of one inode -/

/-- Of the sectors in use only those of the inode in `k` have been written. -/
def Spares (k : Nat) (s s' : Fs) : Prop :=
  ∀ j, s.Taken j → (∀ o, IsSite s (k, o) → site s (k, o) ≠ j) → s'.view j = s.view j

theorem Separate.spared (h : Separate s) (hv : Spares k s s') {p : Site} (hp : IsSite s p)
    (hne : p.1 ≠ k) (h0 : site s p ≠ 0) : s'.view (site s p) = s.view (site s p) :=
  hv _ (h.owned.ok p hp h0) fun _ ho => h.apart hp ho hne h0

/-- What a step changes of one inode at most. The sectors that the inode gets were free. -/
structure Changes (k : Nat) (s s' : Fs) : Prop where
  freeMap : FreeMapOk s'
  live : s'.history.live = s.history.live
  taken : ∀ j, s.Taken j → s'.Taken j
  spares : Spares k s s'
  memory : ∀ k', k' ≠ k → s'.memory k' = s.memory k'
  pointers : s.Live k → Grown IsSlot s.used (ptr s.view (s.header k)) (ptr s'.view (s'.header k))
  new : s.Live k → ∀ x, IsSlot x → ptr s.view (s.header k) x = 0 →
    ptr s'.view (s'.header k) x ≠ 0 → s'.Taken (ptr s'.view (s'.header k) x)
  whole : s.Live k → Whole s'.view (s'.view k)
  opened : ∀ data, s'.memory k = some data → k ≠ freeMapSector →
    s.Live k ∧ Ahead (s'.view k) data
  mapInode : s'.freeMapInode? = s.freeMapInode?

theorem Changes.live_iff (h : Changes k s s') {k' : Nat} : s'.Live k' ↔ s.Live k' := by
  unfold Fs.Live
  rw [h.live]

/-- The sites of the other inodes stay as they are. -/
theorem Separate.site_other (h : Separate s) (hc : Changes k s s') {p : Site} (hp : IsSite s p)
    (hne : p.1 ≠ k) : site s' p = site s p := by
  obtain ⟨k', x⟩ := p
  cases x with
  | none => rfl
  | some x =>
    obtain ⟨hlive, hx⟩ := hp
    have hview : s'.view k' = s.view k' :=
      h.spared hc.spares (p := (k', none)) hlive hne hlive.2
    have hheader : s'.header k' = s.header k' := by
      rw [Fs.header, Fs.header, hc.memory k' hne, hview]
    show ptr s'.view (s'.header k') x = ptr s.view (s.header k') x
    rw [hheader]
    refine ptr_congr (fun _ _ => rfl) (fun y hy _ h0 j _ => ?_) hx
    exact congrArg (·.word j) (h.spared hc.spares (p := (k', some y)) ⟨hlive, hy⟩ hne h0)

/-- The pointers that an inode has stay where they are, and new ones are to free sectors. -/
theorem Separate.grown (h : Separate s) (hc : Changes k s s') :
    Grown (IsSite s) s.used (site s) (site s') := by
  have hnew : ∀ p, IsSite s p → site s p = 0 → site s' p ≠ 0 →
      ∃ x, p = (k, some x) ∧ s.Live k ∧ IsSlot x := by
    intro p hp h0 hne
    by_cases hk : p.1 = k
    · obtain ⟨k', x⟩ := p
      obtain rfl : k' = k := hk
      cases x with
      | none => exact absurd h0 hp.2
      | some x => exact ⟨x, rfl, hp⟩
    · exact absurd ((h.site_other hc hp hk).trans h0) hne
  refine ⟨fun p hp hne => ?_, fun p hp h0 hne => ?_, fun p q hp hq h0 h0' hne he => ?_⟩
  · by_cases hk : p.1 = k
    · obtain ⟨k', x⟩ := p
      obtain rfl : k' = k := hk
      cases x with
      | none => rfl
      | some x => exact (hc.pointers hp.1).keep x hp.2 hne
    · exact h.site_other hc hp hk
  · obtain ⟨x, rfl, hlive, hx⟩ := hnew p hp h0 hne
    exact (hc.pointers hlive).fresh x hx h0 hne
  · obtain ⟨x, rfl, hlive, hx⟩ := hnew p hp h0 hne
    obtain ⟨y, rfl, -, hy⟩ := hnew q hq h0' (he ▸ hne)
    rw [(hc.pointers hlive).inj x y hx hy h0 h0' hne he]

theorem Separate.changes (h : Separate s) (hc : Changes k s s') : Separate s' where
  freeMap := hc.freeMap
  once := hc.live ▸ h.once
  owned := by
    have howned := h.owned.grown (h.grown hc) (fun _ hk => hk.1) hc.taken fun p hp h0 hne => ?_
    · exact howned.comp id (fun p hp => (isSite_congr fun _ => hc.live_iff).mp hp)
        fun _ _ _ _ he => he
    · by_cases hk : p.1 = k
      · obtain ⟨k', x⟩ := p
        obtain rfl : k' = k := hk
        cases x with
        | none => exact absurd h0 hp.2
        | some x => exact hc.new hp.1 x hp.2 h0 hne
      · exact absurd ((h.site_other hc hp hk).trans h0) hne
  whole k' hk' := by
    have hlive := hc.live_iff.mp hk'
    by_cases hk : k' = k
    · exact hk ▸ hc.whole (hk ▸ hlive)
    have hview : s'.view k' = s.view k' :=
      h.spared hc.spares (p := (k', none)) hlive hk hlive.2
    have hheader : s'.header k' = s.header k' := by
      rw [Fs.header, Fs.header, hc.memory k' hk, hview]
    rw [hview]
    refine (h.whole k' hlive).congr rfl fun x hx hne => ?_
    rcases (h.ahead hlive).words x.1 hx.1 with h0 | he
    · exact absurd (by rw [ptr, h0, node_zero]) hne
    · have hptr : ∀ v, ptr v (s.view k') x = ptr v (s.header k') x := fun v => by
        rw [ptr, ptr, he]
      have hsite : ptr s'.view (s'.header k') x = ptr s.view (s.header k') x :=
        h.site_other hc (p := (k', some x)) ⟨hlive, hx⟩ hk
      rw [hheader] at hsite
      rw [hptr, hsite, ← hptr]
      exact hne
  opened k' data hm h0 := by
    by_cases hk : k' = k
    · subst hk
      obtain ⟨hlive, hahead⟩ := hc.opened data hm h0
      exact ⟨hc.live_iff.mpr hlive, hahead⟩
    · rw [hc.memory k' hk] at hm
      obtain ⟨hlive, hahead⟩ := h.opened k' data hm h0
      have hview : s'.view k' = s.view k' :=
        h.spared hc.spares (p := (k', none)) hlive hk hlive.2
      exact ⟨hc.live_iff.mpr hlive, hview ▸ hahead⟩
  mapSector i hi := h.mapSector i (hc.mapInode ▸ hi)

/-- Sectors that are not of inodes may change in any way. -/
theorem changes_none (hf : FreeMapOk s') (hl : s'.history.live = s.history.live)
    (ht : ∀ j, s.Taken j → s'.Taken j) (hv : ∀ j, s.Taken j → s'.view j = s.view j)
    (hm : ∀ k, s'.memory k = s.memory k) (hi : s'.freeMapInode? = s.freeMapInode?) :
    Changes freeMapSector s s' where
  freeMap := hf
  live := hl
  taken := ht
  spares j hj _ := hv j hj
  memory k _ := hm k
  pointers h := absurd rfl h.2
  new h := absurd rfl h.2
  whole h := absurd rfl h.2
  opened _ _ h := absurd rfl h
  mapInode := hi

theorem Looks.changes (h : Looks s s') (hs : FreeMapOk s) : Changes freeMapSector s s' :=
  changes_none (hs.takes h.takes) (by rw [h.history])
    (fun j hj => ⟨h.takes.used j hj.1, fun hm => hj.2.1 (h.mapFileKept.ofFreeMap.mp hm), hj.2.2⟩)
    (fun j _ => by rw [h.view]) (fun k => by rw [Fs.memory, Fs.memory, h.openInodes])
    h.freeMapInode?

/-! ## Open inodes -/

/-- The copy of a header in memory, after the inode has been changed. -/
theorem memory_mapInode (hc : Counted hs s) (hi : s.inode? a = some i) {f : Inode → Inode}
    (hf : ∀ i, (f i).sector = i.sector) (k : Nat) :
    (s.mapInode a f).memory k = if k = i.sector then some (f i).data else s.memory k := by
  obtain ⟨hmem, haddr⟩ := inode?_some hi
  have hpred : ((·.sector == k) ∘ fun i : Inode => if i.addr = a then f i else i) =
      (·.sector == k) := by
    funext j
    show (Inode.sector (if j.addr = a then f j else j) == k) = (j.sector == k)
    split
    · rw [hf]
    · rfl
  have hfind : (s.mapInode a f).memory k = ((s.openInodes.find? (·.sector == k)).map
      fun i => if i.addr = a then f i else i).map (·.data) := by
    show ((s.openInodes.map _).find? _).map _ = _
    rw [List.find?_map, hpred]
  rw [hfind]
  unfold Fs.memory
  cases hfound : s.openInodes.find? (·.sector == k) with
  | none =>
    rw [if_neg]
    · rfl
    · rintro rfl
      exact absurd (List.find?_eq_none.mp hfound i hmem) (by simp)
  | some j =>
    have hj : j.sector = k := by simpa using List.find?_some hfound
    have hjmem := List.mem_of_find?_eq_some hfound
    rw [Option.map_some, Option.map_some, Option.map_some]
    by_cases hk : k = i.sector
    · obtain rfl : j = i := List.inj_on_of_nodup_map hc.sectors hjmem hmem (hj.trans hk)
      rw [if_pos hk, if_pos haddr]
    · rw [if_neg hk, if_neg]
      intro hja
      have hji := List.inj_on_of_nodup_map hc.addrs hjmem hmem (hja.trans haddr.symm)
      exact hk (hji ▸ hj).symm

/-! ## An open inode -/

/-- An open inode of a file or directory. -/
structure OpenInode (hs : List Addr) (s : Fs) (a : Addr) (i : Inode) : Prop where
  separate : Separate s
  counted : Counted hs s
  inode : s.inode? a = some i
  sector : i.sector ≠ freeMapSector

section

variable (h : OpenInode hs s a i)

include h

theorem OpenInode.memory : s.memory i.sector = some i.data :=
  memory_open h.counted.sectors (inode?_some h.inode).1

theorem OpenInode.header : s.header i.sector = i.data :=
  header_open h.counted.sectors (inode?_some h.inode).1

theorem OpenInode.live : s.Live i.sector := (h.separate.opened _ _ h.memory h.sector).1

theorem OpenInode.ahead : Ahead (s.view i.sector) i.data :=
  (h.separate.opened _ _ h.memory h.sector).2

theorem OpenInode.slots : Owned IsSlot s.Taken (ptr s.view i.data) :=
  h.header ▸ h.separate.slots h.live

theorem OpenInode.whole : Whole s.view i.data := (h.separate.whole _ h.live).ahead h.ahead

theorem OpenInode.mapped : Mapped s.size s.view i.data :=
  h.whole.mapped (h.slots.mono fun _ hk => h.separate.freeMap.used_lt hk.1)

/-- It is not the inode of the free map file. -/
theorem OpenInode.not_map (g : File) (hg : s.freeMapFile = some g) : g.inode ≠ a := by
  rintro rfl
  refine h.sector (h.separate.mapSector i ?_)
  rw [Fs.freeMapInode?, hg]
  exact h.inode

/-- Its header is none of its sectors. -/
theorem OpenInode.ptr_ne {x : Slot} (hx : IsSlot x) (h0 : ptr s.view i.data x ≠ 0) :
    ptr s.view i.data x ≠ i.sector := by
  intro he
  have hsite : site s (i.sector, some x) = ptr s.view i.data x := by
    show ptr s.view (s.header i.sector) x = _
    rw [h.header]
  have hp := h.separate.owned.inj (i.sector, some x) (i.sector, none) ⟨h.live, hx⟩ h.live
    (hsite ▸ h0) (hsite.trans he)
  cases hp

/-- Sectors that are not at its sites. -/
theorem OpenInode.not_site (ho : ∀ o, IsSite s (i.sector, o) → site s (i.sector, o) ≠ j) :
    i.sector ≠ j ∧ ∀ x, IsSlot x → ptr s.view i.data x ≠ j :=
  ⟨ho none h.live, fun x hx he => ho (some x) ⟨h.live, hx⟩ (by
    show ptr s.view (s.header i.sector) x = j
    rw [h.header, he])⟩

theorem OpenInode.congr (hst : MapFileKept s s') : Counted hs s' :=
  h.counted.congr (by rw [hst.openInodes]) (by rw [hst.rest])

end

/-- The pointers of a header on the device, when the one in memory is extended. -/
theorem Ahead.extended {v v' : Nat → Block} {used : Nat → Prop} {d : Block}
    (h : Ahead disk data) (hg : Grown IsSlot used (Filesys.ptr v data) (Filesys.ptr v' d))
    (hrest : ∀ r, 125 ≤ r → d.word r = data.word r) :
    Ahead disk d ∧ ∀ x, IsSlot x → Filesys.ptr v disk x ≠ 0 →
      Filesys.ptr v' disk x = Filesys.ptr v disk x := by
  have hword : ∀ r < 125, disk.word r ≠ 0 → d.word r = disk.word r := by
    intro r hr hne
    have he := (h.words r hr).resolve_left hne
    have hdata : data.word r ≠ 0 := he ▸ hne
    have hkeep : d.word r = data.word r := hg.keep (r, []) ⟨hr, isPath_nil⟩ hdata
    exact hkeep.trans he
  refine ⟨⟨fun r hr => ?_, fun r hr => (hrest r hr).trans (h.rest r hr)⟩, fun x hx hne => ?_⟩
  · by_cases hne : disk.word r = 0
    · exact .inl hne
    · exact .inr (hword r hr hne)
  · have h0 : disk.word x.1 ≠ 0 := ne_zero_of_node hne
    have hold : ∀ v, Filesys.ptr v disk x = Filesys.ptr v data x := fun v => by
      rw [Filesys.ptr, Filesys.ptr, (h.words x.1 hx.1).resolve_left h0]
    have hnew : ∀ v, Filesys.ptr v disk x = Filesys.ptr v d x := fun v => by
      rw [Filesys.ptr, Filesys.ptr, hword x.1 hx.1 h0]
    have hdata : Filesys.ptr v data x ≠ 0 := hold v ▸ hne
    exact (hnew v').trans ((hg.keep x hx hdata).trans (hold v).symm)

/-- The slots of an open inode have been extended, and the header in memory with them. -/
theorem OpenInode.extended (h : OpenInode hs s a i) {d : Block}
    (he : Extends IsSlot IsLeaf (ptr s.view i.data) (ptr s'.view d) s s')
    (hrest : ∀ r, 125 ≤ r → d.word r = i.data.word r) :
    Changes i.sector s (s'.mapInode a fun i => { i with data := d }) := by
  have haddr : ∀ j : Inode, ({ j with data := d } : Inode).addr = j.addr := fun _ => rfl
  have hmap : ∀ g, s'.freeMapFile = some g → g.inode ≠ a := fun g hg =>
    h.not_map g (he.freeMapFile ▸ hg)
  have hinode : s'.inode? a = some i := (he.inode? a).trans h.inode
  have hmemory := memory_mapInode (h.congr he.toMapFileKept) hinode (f := fun i =>
    { i with data := d }) fun _ => rfl
  have hviews : ∀ j, s.Taken j → (∀ o, IsSite s (i.sector, o) → site s (i.sector, o) ≠ j) →
      s'.view j = s.view j := fun j hj ho => he.view j hj.1 hj.2.2
    (fun ⟨_, x, hx, _, hxj⟩ => (h.not_site ho).2 x hx hxj) hj.not_data
  have hheader : s'.view i.sector = s.view i.sector := by
    have ht := h.separate.taken h.live
    refine he.view _ ht.1 ht.2.2 ?_ ht.not_data
    rintro ⟨h0, x, hx, -, hxk⟩
    exact h.ptr_ne hx (hxk ▸ h0) hxk
  have hnew : (s'.mapInode a fun i => { i with data := d }).header i.sector = d := by
    rw [Fs.header, hmemory, if_pos rfl, Option.getD_some]
  obtain ⟨hahead, hkept⟩ := h.ahead.extended he.pointers hrest
  exact {
    freeMap := (h.separate.freeMap.takes ⟨he.toMapFileKept, he.used⟩).mapInode haddr hmap
    live := he.live
    taken := fun j hj => (taken_mapInode haddr hmap).mpr (he.toGrows.taken hj)
    spares := hviews
    memory := fun k hk => by
      rw [hmemory, if_neg hk, Fs.memory, Fs.memory, he.openInodes]
    pointers := fun _ => by
      rw [h.header, hnew]
      exact he.pointers
    new := fun _ x hx => by
      rw [h.header, hnew, taken_mapInode haddr hmap]
      exact he.taken x hx
    whole := fun hlive => by
      show Whole s'.view (s'.view i.sector)
      rw [hheader]
      exact (h.separate.whole _ hlive).congr rfl fun x hx hne => by rwa [hkept x hx hne]
    opened := fun data hm _ => by
      rw [hmemory, if_pos rfl, Option.some_inj] at hm
      refine ⟨h.live, ?_⟩
      show Ahead (s'.view i.sector) data
      rw [hheader, ← hm]
      exact hahead
    mapInode := (freeMapInode?_mapInode haddr hmap).trans he.freeMapInode? }

/-- Sectors of data of an open inode have been written. -/
theorem OpenInode.overwritten (h : OpenInode hs s a i) (hst : Stored s s') {o n : Nat}
    {src : Nat → UInt8} (hw : Overwritten s.view s'.view i.data o n src) :
    Changes i.sector s s' := by
  have hleaf : ∀ j, s'.view j ≠ s.view j → ∃ x, IsSlot x ∧ ptr s.view i.data x = j ∧ j ≠ 0 := by
    intro j hj
    obtain ⟨h0, q, -, -, hq⟩ := hw.frame j hj
    unfold slotOf at hq
    split at hq
    · next hlt => exact ⟨_, isSlot_leafSlot hlt, hq, h0⟩
    · exact absurd hq.symm h0
  have htakes : Takes s s' := hst.takes fun j hj => by
    by_contra hne
    obtain ⟨x, hx, rfl, h0⟩ := hleaf j hne
    exact (h.slots.ok x hx h0).2.1 hj
  have hheader : s'.view i.sector = s.view i.sector := by
    by_contra hne
    obtain ⟨x, hx, he, h0⟩ := hleaf _ hne
    exact h.ptr_ne hx (he ▸ h0) he
  have hmemory : ∀ k, s'.memory k = s.memory k := fun k => by
    rw [Fs.memory, Fs.memory, hst.openInodes]
  have hptr : ∀ x, IsSlot x → ptr s'.view (s'.header i.sector) x =
      ptr s.view (s.header i.sector) x := fun x hx => by
    have hdata : s'.header i.sector = i.data := by
      rw [Fs.header, hmemory, h.memory, Option.getD_some]
    rw [hdata, h.header]
    exact hw.ptr_eq h.slots hx
  exact {
    freeMap := h.separate.freeMap.takes htakes
    live := by rw [hst.history]
    taken := fun j hj => htakes.taken hj
    spares := fun j _ ho => by
      by_contra hne
      obtain ⟨x, hx, he, -⟩ := hleaf j hne
      exact (h.not_site ho).2 x hx he
    memory := fun k _ => hmemory k
    pointers := fun _ => .of_eq hptr
    new := fun _ x hx h0 hne => absurd ((hptr x hx).trans h0) hne
    whole := fun hlive => by
      rw [hheader]
      refine (h.separate.whole _ hlive).congr rfl fun x hx hne => ?_
      have hword : i.data.word x.1 = (s.view i.sector).word x.1 :=
        (h.ahead.words x.1 hx.1).resolve_left (ne_zero_of_node hne)
      have heq := hw.ptr_eq h.slots hx
      rw [ptr, ptr, hword] at heq
      rw [ptr, heq]
      exact hne
    opened := fun data hm hk => by
      rw [hmemory] at hm
      rw [hheader]
      exact h.separate.opened _ _ hm hk
    mapInode := hst.freeMapInode? }

/-- The header of an open inode has been written, in memory and on the device. -/
theorem OpenInode.headerWritten (h : OpenInode hs s a i) {d : Block}
    (hst : Stored (s.mapInode a fun i => { i with data := d }) s')
    (hv : s'.view = Function.update s.view i.sector d)
    (hwords : ∀ r < 125, d.word r = i.data.word r) (hwhole : Whole s.view d) :
    Changes i.sector s s' := by
  have haddr : ∀ j : Inode, ({ j with data := d } : Inode).addr = j.addr := fun _ => rfl
  have hsector : ∀ j : Inode, ({ j with data := d } : Inode).sector = j.sector := fun _ => rfl
  have htaken := h.separate.taken h.live
  have hmap : (s.mapInode a fun i => { i with data := d }).freeMapInode? = s.freeMapInode? :=
    freeMapInode?_mapInode haddr h.not_map
  have hother : ∀ j, j ≠ i.sector → s'.view j = s.view j := fun j hj => by
    rw [hv, Function.update_of_ne hj]
  have htakes := hst.takes fun j hj => hother j fun he => by
    have hm : s.OfFreeMap j := by
      unfold Fs.OfFreeMap at hj
      rwa [hmap] at hj
    exact htaken.2.1 (he ▸ hm)
  have hmemory : ∀ k, s'.memory k = if k = i.sector then some d else s.memory k := fun k => by
    rw [Fs.memory, hst.openInodes]
    exact memory_mapInode h.counted h.inode hsector k
  have hself : s'.view i.sector = d := by rw [hv, Function.update_self]
  have hptr : ∀ x, IsSlot x → ptr s'.view d x = ptr s.view i.data x := fun x hx =>
    ptr_congr hwords (fun y hy _ hne j _ => by rw [hother _ (h.ptr_ne hy hne)]) hx
  have hdata : s'.header i.sector = d := by
    rw [Fs.header, hmemory, if_pos rfl, Option.getD_some]
  exact {
    freeMap := (h.separate.freeMap.mapInode haddr h.not_map).takes htakes
    live := by rw [hst.history]; rfl
    taken := fun j hj => htakes.taken ((taken_mapInode haddr h.not_map).mpr hj)
    spares := fun j _ ho => hother j fun he => (h.not_site ho).1 he.symm
    memory := fun k hk => by rw [hmemory, if_neg hk]
    pointers := fun _ => by
      rw [h.header, hdata]
      exact .of_eq hptr
    new := fun _ x hx h0 hne => by
      rw [hdata, hptr x hx] at hne
      rw [h.header] at h0
      exact absurd h0 hne
    whole := fun _ => by
      rw [hself]
      refine hwhole.congr rfl fun x hx hne => ?_
      have heq : ptr s.view d x = ptr s.view i.data x := ptr_congr hwords (fun _ _ _ _ _ _ => rfl) hx
      rw [hptr x hx, ← heq]
      exact hne
    opened := fun data hm _ => by
      rw [hmemory, if_pos rfl, Option.some_inj] at hm
      rw [hself, ← hm]
      exact ⟨h.live, Ahead.refl d⟩
    mapInode := hst.freeMapInode?.trans hmap }

/-! ## Writing to an open inode -/

theorem OpenInode.file (h : OpenInode hs s a i) : OpenFile s a i where
  freeMap := h.separate.freeMap
  inode := h.inode
  owned := h.slots
  whole := h.whole
  header := h.separate.taken h.live
  apart x hx he := by
    by_cases h0 : ptr s.view i.data x = 0
    · exact h.live.2 (he.symm.trans h0)
    · exact h.ptr_ne hx h0 he
  notMap := h.not_map

/-- The header in memory has been changed. -/
theorem OpenInode.mapped_data (h : OpenInode hs s a i) {t : Fs} (hk : MapFileKept s t) {d : Block}
    (hc : Changes i.sector s (t.mapInode a fun i => { i with data := d })) :
    OpenInode hs (t.mapInode a fun i => { i with data := d }) a { i with data := d } where
  separate := h.separate.changes hc
  counted := (h.congr hk).mapInode a fun _ => ⟨rfl, rfl, rfl⟩
  inode := inode?_mapInode (fun _ => rfl) ((hk.inode? a).trans h.inode)
  sector := h.sector

theorem Extended.openInode {length : Int} {ok : Bool} (h : OpenInode hs s a i)
    (he : Extended s a i length ok data s') (hlt : length < 2147483648) :
    OpenInode hs s' a { i with data } := by
  have hfile := (he.file h.file hlt).1
  cases he with
  | failed hext hrest _ => exact h.mapped_data hext.toMapFileKept (h.extended hext hrest)
  | @done s₁ _ d hext hrest h0 hfits hcov hst hv =>
    have hmid := h.mapped_data hext.toMapFileKept (h.extended hext hrest)
    have hst' : Stored ((s₁.mapInode a fun i => { i with data := d }).mapInode a fun i =>
        { i with data := setDiskLength d length }) s' := (setData_setData ..).symm ▸ hst
    have hwords : ∀ r < 125, (setDiskLength d length).word r = d.word r := fun r hr =>
      word_setDiskLength _ _ (by omega)
    have hwhole := whole_setDiskLength h0 hlt hfits.2 hcov
    exact {
      separate := hmid.separate.changes (hmid.headerWritten hst' hv hwords hwhole)
      counted := (hmid.counted.mapInode a (f := fun i =>
        { i with data := setDiskLength d length }) fun _ => ⟨rfl, rfl, rfl⟩).congr
          (by rw [hst'.openInodes]) hst'.nextAddr
      inode := hfile.inode
      sector := h.sector }

/-- A write keeps the inodes apart. -/
theorem Written.openInode {buffer : Nat → UInt8} {size r : Int} {o : Nat} (h : OpenInode hs s a i)
    (hw : Written s a i buffer size o r data s') : OpenInode hs s' a { i with data } := by
  have hloop : ∀ {t t' : Fs} {d : Block} {n : Nat}, OpenInode hs t a { i with data := d } →
      Stored t t' → WritePart t.env t.view t'.view d size o buffer n →
      OpenInode hs t' a { i with data := d } := fun ht hst hpart => {
    separate := ht.separate.changes (ht.overwritten hst hpart.1)
    counted := ht.counted.congr (by rw [hst.openInodes]) hst.nextAddr
    inode := (hst.inode? a).trans ht.inode
    sector := h.sector }
  cases hw with
  | denied _ => exact h
  | inside _ _ hst hpart => exact hloop h hst hpart
  | failed _ _ he => exact he.openInode h (wrap32_range _).2
  | extended _ _ he hst hpart =>
    exact hloop (he.openInode h (wrap32_range _).2) hst (he.env ▸ hpart)

end Pintos.Filesys
