import Pintos.Properties.FullDisk

/-!
# A file that grows

Calls of `inode_reserve` on one header, and what `index_to_sector` then finds. The sectors up to the
length asked for are all there, and those that were there before have stayed, as long as no index
block is refused.
-/

namespace Pintos.Filesys

open Pintos.Logic Pintos.Logic.Exec Pintos.Lib

attribute [local irreducible] Exec.wp

variable {s s' : Fs} {disk disk' : Block} {length : Int} {m n idx : Nat}

/-! ## Looking up -/

/-- What `index_to_sector` finds, the sectors being as in `v`. -/
def sectorAt (v : Nat → Block) (disk : Block) (idx : Nat) : Nat :=
  if idx < 123 then disk.word idx
  else if idx < 251 then (v (disk.word indirectBlock)).word (idx - 123)
  else if idx < 16635 then
    (v ((v (disk.word doublyIndirectBlock)).word ((idx - 251) / 128))).word ((idx - 251) % 128)
  else noSector

/-- `index_to_sector` looks up what is there, and changes nothing. -/
def LooksUp (s : Fs) (disk : Block) (idx : Nat) : Prop :=
  (indexToSector disk idx).wp (OutOfMemory s.env)
    (fun k t => k = sectorAt s.view disk idx ∧ Looks s t) s

theorem sectorAt_eq {v : Nat → Block} (h : slotOf v disk idx ≠ 0) :
    sectorAt v disk idx = slotOf v disk idx := by
  have hidx : idx < 16635 := by
    by_contra hge
    exact h (if_neg hge)
  rw [slotOf, if_pos hidx] at h ⊢
  unfold sectorAt leafSlot at *
  split
  · rfl
  next h₁ =>
  rw [if_neg h₁] at h
  split
  · next h₂ =>
    rw [if_pos h₂] at h
    have hroot : disk.word 123 ≠ 0 := ne_zero_of_node h
    simp [ptr, digits, node_cons hroot, kids]
  next h₂ =>
  rw [if_neg h₂] at h
  have hroot : disk.word 124 ≠ 0 := ne_zero_of_node h
  have hinner : (v (disk.word 124)).word ((idx - 251) / 128) ≠ 0 := by
    simp only [ptr, digits, node_cons hroot] at h
    have hinner := ne_zero_of_node h
    simpa [kids] using hinner
  simp [ptr, digits, node_cons hroot, kids, node_cons hinner]

theorem looksUp (ho : Owned IsSlot (· < s.size) (ptr s.view disk))
    (h : slotOf s.view disk idx ≠ 0) :
    LooksUp s disk idx := by
  refine wp_mono (indexToSector_spec ho h) (fun _ h => h) fun k t hk => ?_
  rw [sectorAt_eq h]
  exact hk

/-! ## Calls -/

/-- A call of `inode_reserve` succeeds. -/
def ReserveSucceeds (s : Fs) (disk : Block) (length : Int) (disk' : Block) (s' : Fs) : Prop :=
  inodeReserve freeMapAllocate disk length s = .ok ((true, disk'), s')

/-- No entry of value 0 is taken for an index block: no index block is refused. -/
def IndexBlocksGranted (s : Fs) (disk : Block) (length : Int) : Prop :=
  ∀ l, Runs s disk length l → .entered 0 ∉ l

/-- What goes on between two calls leaves the file its sectors, and its index blocks as they are. -/
structure Meanwhile (s : Fs) (disk : Block) (s' : Fs) (disk' : Block) : Prop where
  freeMap : FreeMapOk s'
  words : ∀ r < 125, disk'.word r = disk.word r
  taken : ∀ x, IsSlot x → ptr s.view disk x ≠ 0 → s'.Taken (ptr s.view disk x)
  index : ∀ k, Inner IsSlot IsLeaf (ptr s.view disk) k → s'.view k = s.view k

/-- The first `m` sectors of a file have been reserved. -/
structure Reserved (s : Fs) (disk : Block) (m : Nat) : Prop where
  freeMap : FreeMapOk s
  owned : Owned IsSlot s.Taken (ptr s.view disk)
  mapped : ∀ idx < 16635, slotOf s.view disk idx ≠ 0 ↔ idx < m
  le : m ≤ 16635

/-- The headers that successful calls of `inode_reserve` lead to, each with the number of its
sectors of data. The calls start from a new header, or from one read from the device. -/
inductive Reached (good : Fs → Block → Int → Prop) : Fs → Block → Nat → Prop where
  | start {s : Fs} {disk : Block} {m : Nat} (h : Reserved s disk m) : Reached good s disk m
  | reserve {s s' : Fs} {disk disk' : Block} {m : Nat} {length : Int} (h : Reached good s disk m)
    (hg : good s disk length) (hr : ReserveSucceeds s disk length disk' s') :
    Reached good s' disk' (max m (bytesToSectors length))
  | meanwhile {s s' : Fs} {disk disk' : Block} {m : Nat} (h : Reached good s disk m)
    (hm : Meanwhile s disk s' disk') : Reached good s' disk' m

/-- A new header has no sectors. -/
theorem reserved_new (hs : FreeMapOk s) (hd : Unreserved disk) : Reserved s disk 0 where
  freeMap := hs
  owned := hd.owned _ _
  mapped idx hidx := by
    rw [slotOf, if_pos hidx, hd.ptr_eq _ (isSlot_leafSlot hidx).1]
    simp
  le := by decide

theorem Reserved.meanwhile (h : Reserved s disk m) (hm : Meanwhile s disk s' disk') :
    Reserved s' disk' m := by
  have hptr : ∀ x, IsSlot x → ptr s'.view disk' x = ptr s.view disk x := fun x hx =>
    ptr_congr hm.words (fun y hy hl hne i _ => by rw [hm.index _ ⟨hne, y, hy, hl, rfl⟩]) hx
  refine ⟨hm.freeMap, ?_, fun idx hidx => ?_, h.le⟩
  · exact Owned.congr ⟨fun x hx hne => hm.taken x hx hne, h.owned.inj⟩ hptr
  · rw [slotOf_congr hptr]
    exact h.mapped idx hidx

/-- A successful call fills the slots that it goes over. -/
theorem ReserveSucceeds.granted (h : ReserveSucceeds s disk length disk' s') (hs : FreeMapOk s)
    (ho : Owned IsSlot s.Taken (ptr s.view disk)) (hg : IndexBlocksGranted s disk length) :
    0 ≤ length ∧ bytesToSectors length ≤ 16635 ∧
      ∃ l, Granted IsSlot IsLeaf (reservedSlots (bytesToSectors length)) (ptr s.view disk)
        (ptr s'.view disk') true s s' l := by
  have h0 : 0 ≤ length := by
    by_contra hneg
    unfold ReserveSucceeds inodeReserve at h
    rw [if_pos (Int.not_le.mp hneg)] at h
    cases h
  obtain ⟨l, hrun⟩ := (Logged.inodeReserve_erases disk length).ok [] h
  obtain ⟨ok, hok, new, hnew, hout⟩ := wp_ok (inodeReserve_outcome h0 hs ho) hrun
  obtain ⟨rfl, hle⟩ := Bool.and_eq_true_iff.mp hok.symm
  refine ⟨h0, of_decide_eq_true hle, new, ?_⟩
  rcases hout with ⟨hgr, -⟩ | hr
  · exact hgr
  · have hl : l = new := hnew.trans (List.append_nil new)
    exact absurd (hl ▸ hr.entered) (hg l ⟨_, _, hrun⟩)

/-- With enough memory a call that succeeds is refused no index block. -/
theorem ReserveSucceeds.indexBlocks (h : ReserveSucceeds s disk length disk' s') (hs : FreeMapOk s)
    (ho : Owned IsSlot s.Taken (ptr s.view disk)) (hm : s.env.MemOk) :
    IndexBlocksGranted s disk length := by
  rintro l ⟨r, t, hrun⟩ hmem
  have hkernel := Logged.inodeReserve_erases disk length s []
  rw [hrun, h] at hkernel
  obtain ⟨rfl, -⟩ := Prod.mk.inj (Except.ok.inj hkernel)
  rcases Int.lt_or_le length 0 with h0 | h0
  · rw [runs_negative h0 ⟨_, _, hrun⟩] at hmem
    cases hmem
  · obtain ⟨ok, hok, new, hnew, hout⟩ := wp_ok (inodeReserve_outcome h0 hs ho) hrun
    have hl : l = new := hnew.trans (List.append_nil new)
    rcases hout with ⟨hg, -⟩ | hr
    · exact (hg.writesOwn hs).nonzero (hl ▸ hmem)
    · rw [(hr.exhausted hm).1] at hok
      cases hok

section

variable {l : List Access}

theorem Granted.reserved (h : Granted IsSlot IsLeaf (reservedSlots n) (ptr s.view disk)
    (ptr s'.view disk') true s s' l) (hr : Reserved s disk m) (hn : n ≤ 16635) :
    Reserved s' disk' (max m n) where
  freeMap := hr.freeMap.takes h.adds.takes
  owned := h.toExtends.owned hr.owned
  mapped idx hidx := by
    have hold := hr.mapped idx hidx
    rw [slotOf, if_pos hidx] at hold ⊢
    have hslot := isSlot_leafSlot hidx
    rw [lt_max_iff]
    by_cases hlt : idx < n
    · exact iff_of_true (h.filled rfl _ ((leafSlot_mem hidx).mpr hlt)) (.inr hlt)
    · rw [h.same _ hslot fun hmem => hlt ((leafSlot_mem hidx).mp hmem), hold, or_iff_left hlt]
  le := max_le hr.le hn

end

theorem Reached.reserved (h : Reached IndexBlocksGranted s disk m) : Reserved s disk m := by
  induction h with
  | start h => exact h
  | reserve h hg hr ih =>
    obtain ⟨-, hle, l, hgr⟩ := hr.granted ih.freeMap ih.owned hg
    exact hgr.reserved ih hle
  | meanwhile h hm ih => exact ih.meanwhile hm

/-! ## Allocator and lookup -/

/-- After `n` sectors have been reserved for a file that had `m`, `index_to_sector` finds them. -/
structure Agrees (m n : Nat) (s : Fs) (disk : Block) (s' : Fs) (disk' : Block) : Prop where
  looksUp : ∀ idx < n, LooksUp s' disk' idx
  nonzero : ∀ idx < n, sectorAt s'.view disk' idx ≠ 0
  distinct : ∀ idx < n, ∀ idx' < n,
    sectorAt s'.view disk' idx = sectorAt s'.view disk' idx' → idx = idx'
  notIndex : ∀ idx < n, ¬ Inner IsSlot IsLeaf (ptr s'.view disk') (sectorAt s'.view disk' idx)
  kept : ∀ idx < m, sectorAt s'.view disk' idx = sectorAt s.view disk idx ∧
    s'.view (sectorAt s'.view disk' idx) = s.view (sectorAt s.view disk idx)
  zero : ∀ idx < n, m ≤ idx → s'.view (sectorAt s'.view disk' idx) = Bytes.zeros

theorem Granted.agrees {l : List Access} (h : Granted IsSlot IsLeaf (reservedSlots n)
    (ptr s.view disk) (ptr s'.view disk') true s s' l) (hr : Reserved s disk m) (hn : n ≤ 16635) :
    Agrees m n s disk s' disk' := by
  have hr' := h.reserved hr hn
  have hne : ∀ idx < max m n, slotOf s'.view disk' idx ≠ 0 := fun idx hidx =>
    (hr'.mapped idx (lt_of_lt_of_le hidx hr'.le)).mpr hidx
  have hfind : ∀ idx < max m n, sectorAt s'.view disk' idx = slotOf s'.view disk' idx :=
    fun idx hidx => sectorAt_eq (hne idx hidx)
  have hlt : ∀ {idx}, idx < n → idx < max m n := fun h => lt_max_of_lt_right h
  have hsize : Owned IsSlot (· < s'.size) (ptr s'.view disk') :=
    hr'.owned.mono fun k hk => hr'.freeMap.used_lt hk.1
  exact {
    looksUp := fun idx hidx => Filesys.looksUp hsize (hne idx (hlt hidx))
    nonzero := fun idx hidx => by
      rw [hfind idx (hlt hidx)]
      exact hne idx (hlt hidx)
    distinct := fun idx hidx idx' hidx' he => by
      rw [hfind idx (hlt hidx), hfind idx' (hlt hidx')] at he
      exact slotOf_inj hr'.owned (hne idx (hlt hidx)) he
    notIndex := fun idx hidx => by
      rintro ⟨h0, x, hx, hleaf, he⟩
      rw [hfind idx (hlt hidx)] at h0 he
      exact slotOf_ne_inner hr'.owned hx hleaf (he ▸ h0) he.symm
    kept := fun idx hidx => by
      have hm : idx < 16635 := lt_of_lt_of_le hidx hr.le
      have hold := (hr.mapped idx hm).mpr hidx
      rw [hfind idx (lt_max_of_lt_left hidx), sectorAt_eq hold]
      rw [slotOf, if_pos hm] at hold
      rw [slotOf, slotOf, if_pos hm, if_pos hm]
      have hslot := isSlot_leafSlot hm
      exact ⟨h.pointers.keep _ hslot hold,
        h.toExtends.leaf_view hr.owned hslot (isLeaf_leafSlot idx) hold⟩
    zero := fun idx hidx hle => by
      have hidx' : idx < 16635 := lt_of_lt_of_le hidx hn
      have hnew := hne idx (hlt hidx)
      have hold : slotOf s.view disk idx = 0 := by
        by_contra h0
        exact absurd ((hr.mapped idx hidx').mp h0) (Nat.not_lt.mpr hle)
      rw [hfind idx (hlt hidx)]
      rw [slotOf, if_pos hidx'] at hold hnew ⊢
      exact h.zero _ (isSlot_leafSlot hidx') (isLeaf_leafSlot idx) hold hnew }

/-- **After a successful call `index_to_sector` finds a sector of its own for every index up to the
length, the old ones unchanged and the new ones empty, as long as no index block has been
refused.** -/
theorem reserve_agrees (h : Reached IndexBlocksGranted s disk m)
    (hg : IndexBlocksGranted s disk length) (hle : length ≤ 16635 * 512)
    (hr : ReserveSucceeds s disk length disk' s') :
    Agrees m ((length + 511) / 512).toNat s disk s' disk' := by
  obtain ⟨h0, hn, l, hgr⟩ := hr.granted h.reserved.freeMap h.reserved.owned hg
  rw [bytesToSectors_eq h0 hle] at hgr hn
  exact hgr.agrees h.reserved hn

/-- A new file of 1000 bytes. -/
theorem reserve_agrees_two : ∃ disk' s', ReserveSucceeds (smallFs 16) Bytes.zeros 1000 disk' s' ∧
    Agrees 0 ((1000 + 511) / 512 : Int).toNat (smallFs 16) Bytes.zeros s' disk' := by
  have horder : InOrder (smallFs 16) := smallFs_inOrder (by decide) (by decide)
  have hsectors : bytesToSectors 1000 = 2 := bytesToSectors_eq (by decide) (by decide)
  have hfree : bytesToSectors 1000 ≤ (smallFs 16).free.card := by
    rw [hsectors, smallFs_free (by decide)]
    decide
  obtain ⟨⟨ok, disk'⟩, s', hrun, hok, -⟩ := wp_returns (inodeReserve_adds horder.freeMap
    (fun _ => rfl) unreserved_zeros (by decide) (by rw [hsectors]; decide) hfree)
  have hok : ok = true := hok
  subst hok
  have howned := unreserved_zeros.owned (smallFs 16).Taken (smallFs 16).view
  refine ⟨disk', s', hrun, reserve_agrees (.start (reserved_new horder.freeMap unreserved_zeros))
    (ReserveSucceeds.indexBlocks hrun horder.freeMap howned fun _ => rfl) (by decide) hrun⟩

/-! ## An index block that is refused once -/

/-- Entries that are there are passed over. -/
theorem reserveEntries_present {child : Nat → Nat → Kernel (Bool × Nat)} {unit : Nat}
    (hchild : ∀ entry num s, entry ≠ 0 → child entry num s = .ok ((true, entry), s)) :
    ∀ {todo i num : Nat} {blk : Block} {s : Fs}, (∀ j, i ≤ j → j < i + todo → blk.word j ≠ 0) →
      reserveEntries child unit todo i num blk s = .ok ((true, blk), s)
  | 0, _, _, _, _, _ => rfl
  | todo + 1, i, num, blk, s, h => by
    have hrest : reserveEntries child unit todo (i + 1) (num - min num unit) blk s =
        .ok ((true, blk), s) :=
      reserveEntries_present hchild fun j h₁ h₂ => h j (by omega) (by omega)
    rw [reserveEntries, run_bind (hchild _ _ _ (h i (Nat.le_refl _) (by omega)))]
    dsimp only
    rw [Bytes.setWord_word, if_pos rfl, hrest]

/-- The call for the one sector behind the direct blocks. -/
theorem inodeReserve_behind {alloc : Kernel (Option Nat)} {ok : Bool} {entry : Nat}
    (hd : ∀ j < 123, disk.word j ≠ 0)
    (h : inodeReserveIndirect alloc 1 (disk.word 123) 1 s = .ok ((ok, entry), s')) :
    inodeReserve alloc disk (124 * 512) s = .ok ((ok, disk.setWord 123 entry), s') := by
  have hsectors : bytesToSectors (124 * 512) = 124 := bytesToSectors_eq (by decide) (by decide)
  have hdirect : reserveEntries (fun entry _ => inodeReserveDirect alloc entry) 1 123 0 123 disk s =
      .ok ((true, disk), s) := by
    refine reserveEntries_present (fun entry num s hne => ?_) fun j _ hj => hd j (by omega)
    rw [inodeReserveDirect, if_neg hne]
    rfl
  unfold inodeReserve
  rw [if_neg (by decide), hsectors]
  simp only [directBlocksCount, show min 124 123 = 123 from rfl]
  have hbehind : inodeReserveIndirect alloc 1 (disk.word indirectBlock)
      (min (124 - 123) indirectBlocksPerSector) s = .ok ((ok, entry), s') := h
  rw [run_bind hdirect]
  dsimp only
  rw [if_neg (by decide), if_neg (by decide), run_bind hbehind]
  cases ok <;> rfl

/-- A header whose direct blocks are the sectors 3 to 125. -/
def directHeader : Block :=
  Bytes.tabulate fun k => Bytes.leByte (if k / 4 < 123 then 3 + k / 4 else 0) (k % 4)

/-- A device with these sectors in use, and no memory for the first allocation. -/
def directFs : Fs := { smallFs 256 with
  env := { Env.calm 0 with mallocs := fun n => n != 0 }
  freeMap := {
    bitCnt := 256
    bits := (List.range 256).map fun i => decide (i < 126)
    length_bits := by rw [List.length_map, List.length_range]; rfl } }

theorem directHeader_word {j : Nat} (hj : j < 128) :
    directHeader.word j = if j < 123 then 3 + j else 0 := by
  have hv : (if j < 123 then 3 + j else 0) < 4294967296 := by
    split <;> omega
  have hbyte : ∀ k < 4, directHeader.byte (4 * j + k) =
      Bytes.leByte (if j < 123 then 3 + j else 0) k := by
    intro k hk
    rw [directHeader, Bytes.byte_tabulate (by simp only [blockSectorSize]; omega),
      show (4 * j + k) / 4 = j by omega, show (4 * j + k) % 4 = k by omega]
  conv => rhs; rw [← Bytes.leNat_leByte hv]
  simp only [Bytes.word, Bytes.leNat, hbyte 0 (by omega), hbyte 1 (by omega), hbyte 2 (by omega),
    hbyte 3 (by omega)]

theorem directFs_used {k : Nat} : directFs.used k ↔ k < 126 := by
  have hbits : directFs.freeMap.test k =
      ((List.range 256).map fun i => decide (i < 126)).getD k false := rfl
  have hcnt : directFs.freeMap.bitCnt = 256 := rfl
  rw [Fs.used, hbits, hcnt, List.getD_eq_getElem?_getD, List.getElem?_map]
  by_cases hk : k < 256
  · rw [List.getElem?_range hk]
    simp [hk]
  · simp [hk]
    omega

theorem directFs_freeMap : FreeMapOk directFs := by
  have hs := smallFs_freeMap 256 (by decide) (by decide)
  refine ⟨rfl, by decide, directFs_used.mpr (by decide), fun f hf => ?_⟩
  obtain ⟨i, hi, hfile⟩ := hs.file f hf
  have hf : f = { inode := 0, pos := 0, denyWrite := false } := (Option.some.inj hf).symm
  subst hf
  have hi : some (smallInode 256) = some i := hi
  cases hi
  refine ⟨smallInode 256, rfl, hfile.congr rfl (fun _ _ => rfl) fun x hx hne => ?_⟩
  have htwo : ptr (smallFs 256).view (smallInode 256).data x = 2 := (smallMap_ptr 256 _ hx hne).2
  rw [htwo]
  exact directFs_used.mpr (by decide)

theorem directFs_ptr {x : Slot} (hx : IsSlot x) (hne : ptr directFs.view directHeader x ≠ 0) :
    x.1 < 123 ∧ x.2 = [] ∧ ptr directFs.view directHeader x = 3 + x.1 := by
  obtain ⟨r, p⟩ := x
  obtain ⟨hr, hp⟩ := hx
  have hword := directHeader_word (j := r) (by omega)
  by_cases h : r < 123
  · rw [if_pos h] at hword
    have hp0 : p = [] := List.length_eq_zero_iff.mp (Nat.le_zero.mp (by
      have := hp.1
      rwa [depth_direct h] at this))
    subst hp0
    exact ⟨h, rfl, hword⟩
  · rw [if_neg h] at hword
    exact absurd (by rw [ptr, hword, node_zero]) hne

theorem directFs_reserved : Reserved directFs directHeader 123 where
  freeMap := directFs_freeMap
  owned := by
    refine ⟨fun x hx hne => ?_, fun x y hx hy hne he => ?_⟩
    · obtain ⟨hr, -, hptr⟩ := directFs_ptr hx hne
      rw [hptr]
      refine ⟨directFs_used.mpr (by omega), ?_, by simp⟩
      rintro ⟨h0, i, hi, y, hy, he⟩
      have hi : some (smallInode 256) = some i := hi
      cases hi
      have htwo : ptr directFs.view (smallInode 256).data y = 2 :=
        (smallMap_ptr 256 _ hy (he ▸ h0)).2
      omega
    · obtain ⟨-, hp, hptr⟩ := directFs_ptr hx hne
      obtain ⟨-, hp', hptr'⟩ := directFs_ptr hy fun h0 => hne (he.trans h0)
      exact Prod.ext (by omega) (hp.trans hp'.symm)
  mapped idx hidx := by
    rw [slotOf, if_pos hidx]
    constructor
    · intro hne
      have hr := (directFs_ptr (isSlot_leafSlot hidx) hne).1
      unfold leafSlot at hr
      split at hr
      · assumption
      · split at hr <;> omega
    · intro h
      rw [leafSlot, if_pos h, ptr, directHeader_word (by omega), if_pos h, node_nil]
      omega
  le := by decide

/-- Two calls for the sector behind the direct blocks, with the entries 0 and 127 for an index
block, come to different sectors. -/
def movesSector (s : Fs) : Bool :=
  match inodeReserveIndirect freeMapAllocate 1 0 1 s with
  | .ok ((true, 0), s₁) =>
    match inodeReserveIndirect freeMapAllocate 1 0 1 s₁ with
    | .ok ((true, 127), s₂) => decide ((s₁.view 0).word 0 ≠ (s₂.view 127).word 0)
    | _ => false
  | _ => false

theorem movesSector_iff : movesSector s ↔ ∃ s₁ s₂,
    inodeReserveIndirect freeMapAllocate 1 0 1 s = .ok ((true, 0), s₁) ∧
    inodeReserveIndirect freeMapAllocate 1 0 1 s₁ = .ok ((true, 127), s₂) ∧
    (s₁.view 0).word 0 ≠ (s₂.view 127).word 0 := by
  constructor
  · intro h
    unfold movesSector at h
    split at h
    · next s₁ h₁ =>
      split at h
      · next s₂ h₂ => exact ⟨s₁, s₂, h₁, h₂, of_decide_eq_true h⟩
      · cases h
    · cases h
  · rintro ⟨s₁, s₂, h₁, h₂, hne⟩
    simp only [movesSector, h₁, h₂]
    exact decide_eq_true hne

/-- The index block of sector 123 is refused, and the next call allocates another one. -/
theorem reserve_moves_sector : ¬ ∀ s disk m length s' disk', Reached (fun _ _ _ => True) s disk m →
    length ≤ 16635 * 512 → ReserveSucceeds s disk length disk' s' →
    Agrees m ((length + 511) / 512).toNat s disk s' disk' := by
  intro hall
  obtain ⟨s₁, s₂, h₁, h₂, hne⟩ := movesSector_iff.mp (show movesSector directFs by decide +kernel)
  have hwords : ∀ j < 123, directHeader.word j ≠ 0 := fun j hj => by
    rw [directHeader_word (by omega), if_pos hj]
    omega
  have hroot : directHeader.word 123 = 0 := directHeader_word (by decide)
  have hfirst : ReserveSucceeds directFs directHeader (124 * 512) directHeader s₁ := by
    have h := inodeReserve_behind hwords (hroot ▸ h₁)
    rwa [Bytes.setWord_word] at h
  have hsecond : ReserveSucceeds s₁ directHeader (124 * 512) (directHeader.setWord 123 127) s₂ :=
    inodeReserve_behind hwords (hroot ▸ h₂)
  have hreached : Reached (fun _ _ _ => True) s₁ directHeader
      (max 123 (bytesToSectors (124 * 512))) :=
    (Reached.start directFs_reserved).reserve trivial hfirst
  have hsectors : bytesToSectors (124 * 512) = 124 := bytesToSectors_eq (by decide) (by decide)
  have hkept := ((hall _ _ _ _ _ _ hreached (by decide) hsecond).kept 123
    (by rw [hsectors]; decide)).1
  have hold : sectorAt s₁.view directHeader 123 = (s₁.view 0).word 0 := by
    rw [sectorAt, if_neg (by decide), if_pos (by decide), hroot]
  have hnew : sectorAt s₂.view (directHeader.setWord 123 127) 123 = (s₂.view 127).word 0 := by
    rw [sectorAt, if_neg (by decide), if_pos (by decide),
      Bytes.word_setWord_self _ (by decide) (by decide)]
  exact hne (hold.symm.trans (hkept.symm.trans hnew))

end Pintos.Filesys
