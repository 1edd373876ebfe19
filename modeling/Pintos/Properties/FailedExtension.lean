import Pintos.Properties.FullDisk

/-!
# Files that cannot be extended

A write past the end of a file that `inode_reserve` cannot extend returns 0. The sectors that were
handed out before `inode_reserve` gave up stay allocated. If it gave up at an index block it has
filled sector 0 with zeros, which is the header of the free map's file.
-/

namespace Pintos.Filesys

open Pintos.Logic Pintos.Logic.Exec Pintos.Lib

attribute [local irreducible] Exec.wp

variable {s s' : Fs} {disk disk' : Block} {length : Int} {a : Addr} {i : Inode}

/-- The free map is the same, and so is every sector, that of the free map's header included. -/
structure Untouched (s s' : Fs) : Prop where
  freeMap : s'.freeMap.bitCnt = s.freeMap.bitCnt ∧
    ∀ k < s.freeMap.bitCnt, s'.freeMap.test k = s.freeMap.test k
  view : s'.view = s.view

/-- A call of `inode_reserve` fails. -/
def ReserveFails (s : Fs) (disk : Block) (length : Int) (disk' : Block) (s' : Fs) : Prop :=
  inodeReserve freeMapAllocate disk length s = .ok ((false, disk'), s')

/-- With no sector left `inode_reserve` writes nothing: the first that is missing is not for an
index block, whose zeros would go to sector 0, or that has nothing else. -/
def SparesHeader (s : Fs) (disk : Block) (length : Int) : Prop :=
  ¬ EndsAtIndex s disk length ∨ s.view 0 = Bytes.zeros

/-- Either no sector is handed out to a call of `inode_reserve`, or all that are missing. -/
def NoneOrAll (s : Fs) (disk : Block) (length : Int) : Prop :=
  length < 0 ∨ (s.free.card = 0 ∧ SparesHeader s disk length) ∨ empties s disk length = [] ∨
    (empties s disk length).length ≤ s.free.card ∧ bytesToSectors length ≤ 16635

theorem Adds.untouched (h : Adds s [] s') (hs : s'.view = s.view) : Untouched s s' where
  freeMap := by
    refine ⟨h.bitCnt, fun k hk => ?_⟩
    have hused := h.used k
    simp only [Fs.used, h.bitCnt, hk, true_and, List.not_mem_nil, or_false] at hused
    exact Bool.eq_iff_iff.mpr hused
  view := hs

theorem Adds.eq_nil {ks : List Nat} (h : Adds s ks s') (hu : Untouched s s') : ks = [] := by
  cases ks with
  | nil => rfl
  | cons k ks =>
    have hk := List.mem_cons_self (a := k) (l := ks)
    obtain ⟨hlt, htest⟩ := (h.used k).mpr (.inr hk)
    rw [hu.freeMap.1] at hlt
    rw [hu.freeMap.2 k hlt] at htest
    exact absurd ⟨hlt, htest⟩ (h.fresh k hk)

/-- A call of `inode_reserve` that fails: the sectors that it was handed, and what follows if there
are none. -/
theorem ReserveFails.sectors (h : ReserveFails s disk length disk' s') (h0 : 0 ≤ length)
    (hs : FreeMapOk s) (ho : Owned IsSlot s.Taken (ptr s.view disk)) (hm : s.env.MemOk) :
    ∃ ks, Adds s ks s' ∧ (ks = [] → disk' = disk ∧
        (EndsAtIndex s disk length ∧ s'.view = Function.update s.view 0 Bytes.zeros ∨
          ¬ EndsAtIndex s disk length ∧ s'.view = s.view)) ∧
      ((ks.length = (empties s disk length).length ∧ ¬ bytesToSectors length ≤ 16635) ∨
        (ks.length = s.free.card ∧ s.free.card < (empties s disk length).length)) := by
  obtain ⟨l, hrun⟩ := (Logged.inodeReserve_erases disk length).ok [] h
  obtain ⟨ok, hok, new, hnew, hout⟩ := wp_ok (inodeReserve_outcome h0 hs ho) hrun
  have hempties : empties s disk length =
      missing (ptr s.view disk) (reservedSlots (bytesToSectors length)) :=
    if_neg (Int.not_lt.mpr h0)
  rw [EndsAtIndex, hempties]
  refine ⟨handed new, ?_⟩
  rcases hout with ⟨hg, hsame⟩ | hr
  · refine ⟨hg.adds, fun hn => ⟨hsame hn, .inr ⟨?_, hg.still hn hm⟩⟩, ?_⟩
    · rintro ⟨x, hx, hindex⟩
      cases ok with
      | true =>
        have hcount := hg.count rfl
        obtain ⟨hlt, -⟩ := List.getElem?_eq_some_iff.mp hx
        rw [hn, List.length_nil] at hcount
        omega
      | false =>
        obtain ⟨-, y, hy, hleaf⟩ := hg.stopped rfl hm
        exact hindex (Option.some.inj (hx.symm.trans hy) ▸ hleaf)
    cases ok with
    | true =>
      refine .inl ⟨hg.count rfl, fun hle => ?_⟩
      rw [decide_eq_true hle] at hok
      cases hok
    | false =>
      obtain ⟨hlen, x, hx, -⟩ := hg.stopped rfl hm
      exact .inr ⟨hlen, (List.getElem?_eq_some_iff.mp hx).1⟩
  · obtain ⟨-, hex, hsame⟩ := hr.exhausted hm
    refine ⟨hex.adds, fun hn => ⟨hsame hn, .inl ⟨hex.stopped, hex.still hn⟩⟩,
      .inr ⟨hex.full, ?_⟩⟩
    obtain ⟨x, hx, -⟩ := hex.stopped
    exact (List.getElem?_eq_some_iff.mp hx).1

theorem reserveFails_negative (h0 : length < 0) (h : ReserveFails s disk length disk' s') :
    disk' = disk ∧ s' = s := by
  unfold ReserveFails inodeReserve at h
  rw [if_pos h0] at h
  cases h
  exact ⟨rfl, rfl⟩

/-- Where the sectors end at an index block there were none, and sector 0 is full of zeros. -/
theorem NoneOrAll.header_zeros (h : NoneOrAll s disk length) (h0 : 0 ≤ length)
    (hends : EndsAtIndex s disk length) : s.view 0 = Bytes.zeros := by
  obtain ⟨x, hx, hindex⟩ := hends
  obtain ⟨hlt, -⟩ := List.getElem?_eq_some_iff.mp hx
  rcases h with h | ⟨-, h⟩ | h | h
  · omega
  · exact h.resolve_left (not_not_intro ⟨x, hx, hindex⟩)
  · rw [h] at hlt
    cases hlt
  · omega

/-- What a failed call leaves untouched. -/
theorem reserve_untouched (hs : FreeMapOk s) (ho : Owned IsSlot s.Taken (ptr s.view disk))
    (hm : s.env.MemOk) (hcond : NoneOrAll s disk length)
    (h : ReserveFails s disk length disk' s') :
    disk' = disk ∧ Untouched s s' ∧ MapFileKept s s' := by
  rcases Int.lt_or_le length 0 with h0 | h0
  · obtain ⟨rfl, rfl⟩ := reserveFails_negative h0 h
    exact ⟨rfl, ⟨⟨rfl, fun _ _ => rfl⟩, rfl⟩, (Takes.refl _).toMapFileKept⟩
  · obtain ⟨ks, hadds, hnone, hlen⟩ := h.sectors h0 hs ho hm
    have hcard := hadds.card_free
    have hks : ks = [] := by
      rw [← List.length_eq_zero_iff]
      rcases hcond with hc | hc | hc | hc
      · omega
      · omega
      · rw [hc, List.length_nil] at hlen
        omega
      · omega
    obtain ⟨hdisk, hview⟩ := hnone hks
    have hview : s'.view = s.view := by
      rcases hview with ⟨hends, hzeroed⟩ | ⟨-, hview⟩
      · rw [hzeroed, ← hcond.header_zeros h0 hends, Function.update_eq_self]
      · exact hview
    rw [hks] at hadds
    exact ⟨hdisk, hadds.untouched hview, hadds.toMapFileKept⟩

/-- A failed call that was handed sectors, or has filled sector 0 with zeros. -/
theorem exists_reserveFails (hs : FreeMapOk s) (ho : Owned IsSlot s.Taken (ptr s.view disk))
    (hm : s.env.MemOk) (hcond : ¬ NoneOrAll s disk length) :
    ∃ disk' s', ReserveFails s disk length disk' s' ∧ ¬ Untouched s s' := by
  simp only [NoneOrAll, not_or, not_and_or] at hcond
  obtain ⟨h0, hfree, hempty, hall⟩ := hcond
  have h0 : 0 ≤ length := Int.not_lt.mp h0
  have hreturns : (inodeReserve freeMapAllocate disk length).wp (fun _ => False)
      (fun r _ => r.1 = false) s := by
    rw [(Logged.inodeReserve_erases disk length).wp_iff []]
    refine wp_mono (inodeReserve_outcome h0 hs ho) (fun _ h => h.1 hm) fun r t h => ?_
    obtain ⟨ok, hok, new, -, ⟨hg, -⟩ | hr⟩ := h
    · cases ok with
      | true =>
        have hcount := hg.count rfl
        have hcard := hg.adds.card_free
        have hempties : empties s disk length =
            missing (ptr s.view disk) (reservedSlots (bytesToSectors length)) :=
          if_neg (Int.not_lt.mpr h0)
        rw [hempties] at hall
        rw [hok, Bool.true_and, decide_eq_false_iff_not]
        omega
      | false => exact hok
    · rw [hok, (hr.exhausted hm).1]
      rfl
  obtain ⟨⟨ok, disk'⟩, s', hrun, hok⟩ := wp_returns hreturns
  have hok : ok = false := hok
  subst hok
  refine ⟨disk', s', hrun, fun hu => ?_⟩
  obtain ⟨ks, hadds, hnone, hlen⟩ := ReserveFails.sectors hrun h0 hs ho hm
  have hks := hadds.eq_nil hu
  rw [hks, List.length_nil] at hlen
  have hpos := List.length_pos_iff.mpr hempty
  have hspares : ¬ SparesHeader s disk length := hfree.resolve_left (by omega)
  rw [SparesHeader, not_or, not_not] at hspares
  obtain ⟨-, ⟨-, hzeroed⟩ | ⟨hends, -⟩⟩ := hnone hks
  · refine hspares.2 ?_
    rw [← hu.view, hzeroed, Function.update_self]
  · exact hends hspares.1

/-! ## Writes -/

/-- A write needs more sectors: the inode may be written, and the last byte of the write is not in
the file. -/
structure Extending (s : Fs) (a : Addr) (i : Inode) (size offset : Int) : Prop where
  inode : s.inode? a = some i
  writable : i.denyWriteCnt = 0
  last : wrap32 (offset + size - 1) < 0 ∨ inodeLength i ≤ wrap32 (offset + size - 1)

/-- `inode_reserve` cannot extend the file for a write. -/
def WriteFails (s : Fs) (a : Addr) (i : Inode) (size offset : Int) (s' : Fs) : Prop :=
  extend freeMapAllocate a i (wrap32 (offset + size)) s = .ok (false, s')

/-- The free map, the inode in memory and all sectors are as before. -/
structure Unchanged (s : Fs) (a : Addr) (s' : Fs) : Prop extends Untouched s s' where
  inode : s'.inode? a = s.inode? a

/-- The write returns 0. -/
theorem WriteFails.returns {size offset : Int} (h : WriteFails s a i size offset s')
    (he : Extending s a i size offset) (buffer : Nat → UInt8) :
    inodeWriteAt a buffer size offset s = .ok (0, s') := by
  have hderef : deref a s = .ok (i, s) := by
    unfold deref
    rw [he.inode]
  have hlast : byteToSector i (wrap32 (offset + size - 1)) s = .ok (noSector, s) := by
    rw [byteToSector, if_pos he.last]
    rfl
  unfold inodeWriteAt inodeWriteAtWith
  rw [run_bind hderef, if_neg (not_not_intro he.writable), run_bind hlast, if_pos rfl, run_bind h]
  rfl

theorem extend_eq {data : Block} {s₁ : Fs} (h : ReserveFails s i.data length data s₁) :
    extend freeMapAllocate a i length s = .ok (false, s₁.mapInode a fun i => { i with data }) := by
  unfold extend
  rw [run_bind h]
  rfl

theorem inode?_mapInode {f : Inode → Inode} (hf : ∀ i, (f i).addr = i.addr)
    (h : s.inode? a = some i) : (s.mapInode a f).inode? a = some (f i) := by
  have haddr : i.addr = a := by simpa using List.find?_some h
  have hpred :
      ((·.addr == a) ∘ fun i : Inode => if i.addr = a then f i else i) = (·.addr == a) := by
    funext j
    show (Inode.addr (if j.addr = a then f j else j) == a) = (j.addr == a)
    split
    · rw [hf]
    · rfl
  show (s.openInodes.map _).find? _ = _
  rw [List.find?_map, hpred]
  have hfind : s.openInodes.find? (·.addr == a) = some i := h
  rw [hfind, Option.map_some, if_pos haddr]

/-- The inode is as before if its header is. -/
theorem inode?_setData (h : s.inode? a = some i) :
    (s.mapInode a fun j => { j with data := i.data }).inode? a = some i :=
  inode?_mapInode (fun _ => rfl) h

theorem writeFails_iff {size offset : Int} : WriteFails s a i size offset s' ↔
    ∃ data s₁, ReserveFails s i.data (wrap32 (offset + size)) data s₁ ∧
      s' = s₁.mapInode a fun i => { i with data } := by
  constructor
  · intro h
    unfold WriteFails extend at h
    cases hrun : inodeReserve freeMapAllocate i.data (wrap32 (offset + size)) s with
    | error e =>
      rw [run_bind_error hrun] at h
      cases h
    | ok r =>
      obtain ⟨⟨ok, data⟩, s₁⟩ := r
      rw [run_bind hrun] at h
      dsimp only at h
      cases ok with
      | false =>
        cases h
        exact ⟨data, s₁, hrun, rfl⟩
      | true =>
        rw [if_pos rfl] at h
        have htrue : Returns (do
            modifyInode a fun i => { i with data := setDiskLength data (wrap32 (offset + size)) }
            writeSector i.sector (setDiskLength data (wrap32 (offset + size)))
            return true : Kernel Bool) (· = true) := .bind fun _ => .bind fun _ => .pure rfl
        cases wp_ok (htrue s₁) h
  · rintro ⟨data, s₁, h, rfl⟩
    exact extend_eq h

/-- Whenever the file cannot be extended for a write, nothing has changed. -/
def FailsCleanly (s : Fs) (a : Addr) (i : Inode) (size offset : Int) : Prop :=
  ∀ s', WriteFails s a i size offset s' → Unchanged s a s'

theorem failsCleanly_iff {size offset : Int} (he : Extending s a i size offset) (hs : FreeMapOk s)
    (ho : Owned IsSlot s.Taken (ptr s.view i.data)) (hm : s.env.MemOk) :
    FailsCleanly s a i size offset ↔ NoneOrAll s i.data (wrap32 (offset + size)) := by
  constructor
  · intro hall
    by_contra hcond
    obtain ⟨data, s₁, hfail, hu⟩ := exists_reserveFails hs ho hm hcond
    have h := (hall _ (writeFails_iff.mpr ⟨data, s₁, hfail, rfl⟩)).toUntouched
    exact hu ⟨h.freeMap, h.view⟩
  · intro hcond s' h
    obtain ⟨data, s₁, hfail, rfl⟩ := writeFails_iff.mp h
    obtain ⟨rfl, hu, hkept⟩ := reserve_untouched hs ho hm hcond hfail
    refine ⟨⟨hu.freeMap, hu.view⟩, ?_⟩
    rw [he.inode]
    exact inode?_setData ((hkept.inode? a).trans he.inode)

/-- **A write that cannot extend its file changes nothing, exactly if either no sector or all that
are missing are handed out.** It returns 0 in any case. -/
theorem failed_extension {size offset : Int} (he : Extending s a i size offset) (hs : FreeMapOk s)
    (ho : Owned IsSlot s.Taken (ptr s.view i.data)) (hm : s.env.MemOk) (buffer : Nat → UInt8) :
    (FailsCleanly s a i size offset ↔ NoneOrAll s i.data (wrap32 (offset + size))) ∧
      ∀ s', WriteFails s a i size offset s' → inodeWriteAt a buffer size offset s = .ok (0, s') :=
  ⟨failsCleanly_iff he hs ho hm, fun _ h => h.returns he buffer⟩

/-- The root directory of the small device, open and empty. -/
def emptyRoot : Inode where
  addr := 1
  sector := rootDirSector
  openCnt := 1
  removed := false
  denyWriteCnt := 0
  data := Bytes.zeros

/-- The small device with its root directory open. -/
def rootedFs : Fs := { smallFs 16 with openInodes := [smallInode 16, emptyRoot], nextAddr := 2 }

theorem rootedFs_freeMap : FreeMapOk rootedFs := by
  have hs := smallFs_freeMap 16 (by decide) (by decide)
  refine ⟨hs.bitCnt, hs.size_le, hs.header, fun f hf => ?_⟩
  obtain ⟨i, hi, hfile⟩ := hs.file f hf
  have hf : f = { inode := 0, pos := 0, denyWrite := false } := (Option.some.inj hf).symm
  subst hf
  have hi : some (smallInode 16) = some i := hi
  cases hi
  exact ⟨smallInode 16, rfl,
    hfile.congr rfl (fun _ _ => rfl) fun x hx hne => hfile.owned.ok x hx hne⟩

theorem rootedFs_free : rootedFs.free.card = 13 :=
  show (smallFs 16).free.card = 16 - 3 from smallFs_free (by decide)

theorem diskLength_zeros : diskLength Bytes.zeros = 0 := by
  rw [diskLength, Bytes.word_zeros]
  exact wrap32_eq (by decide) (by decide)

theorem extending_rootedFs {size offset : Int} (h : 0 < offset + size)
    (hle : offset + size < 2147483648) : Extending rootedFs 1 emptyRoot size offset where
  inode := rfl
  writable := rfl
  last := by
    refine .inr ?_
    have hlength : inodeLength emptyRoot = 0 := diskLength_zeros
    rw [hlength, wrap32_eq (by omega) (by omega)]
    omega

/-- The first byte of an empty file. -/
theorem failed_extension_one : FailsCleanly rootedFs 1 emptyRoot 1 0 := by
  refine ((failed_extension (extending_rootedFs (by decide) (by decide)) rootedFs_freeMap
    (unreserved_zeros.owned _ _) (fun _ => rfl) fun _ => 0).1).mpr (.inr (.inr (.inr ?_)))
  have hlength : wrap32 (0 + 1) = 1 := wrap32_eq (by decide) (by decide)
  have hsectors : bytesToSectors 1 = 1 := bytesToSectors_eq (by decide) (by decide)
  have hdata : emptyRoot.data = Bytes.zeros := rfl
  rw [hlength, hdata, empties_zeros _ (by decide), hsectors, rootedFs_free]
  decide

/-- A write of one byte behind 20 sectors, on a device with 13 free ones. -/
theorem failed_extension_leaks : ¬ ∀ s a i size offset, Extending s a i size offset → FreeMapOk s →
    Owned IsSlot s.Taken (ptr s.view i.data) → s.env.MemOk → FailsCleanly s a i size offset := by
  intro hall
  have hextending : Extending rootedFs 1 emptyRoot 1 (20 * 512) :=
    extending_rootedFs (by decide) (by decide)
  have howned := unreserved_zeros.owned rootedFs.Taken rootedFs.view
  have h := (failsCleanly_iff hextending rootedFs_freeMap howned fun _ => rfl).mp
    (hall _ _ _ _ _ hextending rootedFs_freeMap howned fun _ => rfl)
  have hlength : wrap32 (20 * 512 + 1) = 10241 := wrap32_eq (by decide) (by decide)
  have hsectors : bytesToSectors 10241 = 21 := bytesToSectors_eq (by decide) (by decide)
  have hdata : emptyRoot.data = Bytes.zeros := rfl
  have hcount : (reservedSlots 21).length = 21 := by decide
  rw [NoneOrAll, hlength, hdata, empties_zeros _ (by decide), hsectors, rootedFs_free,
    ← List.length_eq_zero_iff, hcount] at h
  omega

end Pintos.Filesys
