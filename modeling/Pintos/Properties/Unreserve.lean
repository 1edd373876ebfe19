import Pintos.Properties.Reserve
import Mathlib.Data.Finset.Card
import Mathlib.Order.Interval.Finset.Nat
import Mathlib.Data.List.Nodup

/-!
# Releasing what was reserved

`inode_unreserve` gives back the sectors that `inode_reserve` took for the same length, each once,
as long as the file has no index block. With one, its first loop runs on past the direct blocks: it
releases the index block, which is then released again.
-/

namespace Pintos.Filesys

open Pintos.Logic Pintos.Logic.Exec Pintos.Lib

attribute [local irreducible] Exec.wp

variable {s s' s'' : Fs} {k n : Nat} {data : Block}

/-! ## With an index block -/

/-- Sectors have been released, and none taken. -/
structure Frees (s s' : Fs) : Prop extends MapFileKept s s' where
  used : ∀ k, s'.used k → s.used k

theorem Frees.refl (s : Fs) : Frees s s := ⟨⟨rfl, rfl, rfl, fun _ _ _ _ => rfl⟩, fun _ h => h⟩

theorem Frees.trans (h : Frees s s') (h' : Frees s' s'') : Frees s s'' :=
  ⟨h.toMapFileKept.trans h'.toMapFileKept, fun k hk => h.used k (h'.used k hk)⟩

theorem freeMapRelease_frees (h : InPlace s) (k : Nat) :
    (freeMapRelease k).wp (fun _ => True)
      (fun _ s' => Frees s s' ∧ s.used k ∧ ¬ s'.used k) s := by
  refine wp_mono (freeMapRelease_inPlace h k) (fun _ h => h) fun _ s' h' => ?_
  obtain ⟨hkept, hk, hused⟩ := h'
  exact ⟨⟨hkept, fun j hj => ((hused j).mp hj).1⟩, hk, fun hk' => ((hused k).mp hk').2 rfl⟩

/-- The loop of `inode_unreserve` releases each entry that it comes to. -/
theorem unreserveEntries_frees (h : InPlace s) (data : Block) (todo i num : Nat) :
    (unreserveEntries (fun entry _ => freeMapRelease entry) 1 data todo i num).wp (fun _ => True)
      (fun _ s' => Frees s s' ∧ ∀ j, i ≤ j → j < i + todo → ¬ s'.used (data.word j)) s := by
  induction todo generalizing s i num with
  | zero => exact (wp_pure ()).mpr ⟨Frees.refl s, fun j h₁ h₂ => by omega⟩
  | succ todo ih =>
    unfold unreserveEntries
    split
    · rw [wp_bind]
      refine wp_mono (freeMapRelease_frees h _) (fun _ h => h) fun _ s₁ h₁ => ?_
      obtain ⟨hfrees, -, hnot⟩ := h₁
      refine wp_mono (ih (h.mapFileKept hfrees.toMapFileKept) (i + 1) _) (fun _ h => h)
        fun _ s₂ h₂ => ?_
      refine ⟨hfrees.trans h₂.1, fun j hij hj => ?_⟩
      by_cases he : j = i
      · rw [he]
        exact fun hu => hnot (h₂.1.used _ hu)
      · exact h₂.2 j (by omega) (by omega)
    · exact wp_fail.mpr trivial

theorem Looks.mapFileKept (h : Looks s s') : MapFileKept s s' where
  rest := by rw [h.rest]
  size := h.size
  bitCnt := by rw [h.freeMap]
  ptr _ _ _ _ := by rw [h.view]

/-- An index block that is not in use cannot be released. -/
theorem inodeUnreserveIndirect_fails (h : InPlace s) (hk : ¬ s.used k) (num : Nat) :
    (inodeUnreserveIndirect 1 k num).wp (fun _ => True) (fun _ _ => False) s := by
  unfold inodeUnreserveIndirect
  rw [wp_bind]
  refine wp_mono (readSector_steps looks_reading k s) (fun _ _ => trivial) fun blk s₁ h₁ => ?_
  rw [wp_bind]
  refine wp_mono (unreserveEntries_frees (h.mapFileKept h₁.mapFileKept) blk _ 0 num) (fun _ h => h)
    fun _ s₂ h₂ => ?_
  have hin := (h.mapFileKept h₁.mapFileKept).mapFileKept h₂.1.toMapFileKept
  refine wp_mono (freeMapRelease_frees hin k) (fun _ h => h) fun _ _ h₃ => hk ?_
  have hu := h₂.1.used k h₃.2.1
  rwa [Fs.used, h₁.freeMap] at hu

theorem wp_recordIf {E : Stop → Prop} {Q : Unit → Fs → Prop} (c : Fs → Bool) (event : Event)
    (hQ : ∀ history, Q () { s with history }) : (recordIf c event).wp E Q s := by
  rw [recordIf, wp_modify]
  exact hQ _

theorem mapFileKept_history (s : Fs) (history : History) : MapFileKept s { s with history } :=
  ⟨rfl, rfl, rfl, fun _ _ _ _ => rfl⟩

/-- **With more than 123 sectors `inode_unreserve` does not return.** -/
theorem inodeUnreserve_fails (h : InPlace s) (hlength : 0 ≤ diskLength data)
    (hn : directBlocksCount < bytesToSectors (diskLength data)) :
    (inodeUnreserve data).wp (fun _ => True) (fun _ _ => False) s := by
  unfold inodeUnreserve
  generalize bytesToSectors (diskLength data) = n at hn
  rw [if_neg (Int.not_lt.mpr hlength), wp_bind]
  refine wp_recordIf _ _ fun history => ?_
  have hin := h.mapFileKept (mapFileKept_history s history)
  rw [wp_bind]
  refine wp_mono (unreserveEntries_frees hin data n 0 n) (fun _ h => h) fun _ s₂ h₂ => ?_
  have hlevel : 0 < min (n - min n directBlocksCount) indirectBlocksPerSector := by
    simp only [directBlocksCount, indirectBlocksPerSector] at hn ⊢
    omega
  rw [wp_bind, unreserveLevel, if_pos hlevel]
  have hk : ¬ s₂.used (data.word indirectBlock) := h₂.2 _ (Nat.zero_le _) (by
    rw [Nat.zero_add]
    exact hn)
  exact wp_mono (inodeUnreserveIndirect_fails (hin.mapFileKept h₂.1.toMapFileKept) hk _)
    (fun _ h => h) fun _ _ hf => hf.elim

/-! ## Creating an inode -/

/-- Sectors have been taken, and none released. -/
structure Takes (s s' : Fs) : Prop extends MapFileKept s s' where
  used : ∀ k, s.used k → s'.used k

theorem Takes.refl (s : Fs) : Takes s s := ⟨⟨rfl, rfl, rfl, fun _ _ _ _ => rfl⟩, fun _ h => h⟩

theorem Takes.trans (h : Takes s s') (h' : Takes s' s'') : Takes s s'' :=
  ⟨h.toMapFileKept.trans h'.toMapFileKept, fun k hk => h'.used k (h.used k hk)⟩

theorem FreeMapOk.takes (hs : FreeMapOk s) (h : Takes s s') : FreeMapOk s' :=
  hs.mapFileKept h.toMapFileKept (h.used _ hs.header) fun k hk => h.used k (hs.ofFreeMap_used hk)

theorem MapChanged.takes (h : MapChanged s s') (hf : s'.freeMap = s.freeMap) : Takes s s' :=
  ⟨h.toMapFileKept, fun k hk => by rwa [Fs.used, hf]⟩

theorem Looks.takes (h : Looks s s') : Takes s s' :=
  ⟨h.mapFileKept, fun k hk => by rwa [Fs.used, h.freeMap]⟩

/-- A write to a sector that is not of the free map's file. -/
theorem wp_write_takes {E : Stop → Prop} {Q : Unit → Fs → Prop} {b : Block} (h : k < s.size)
    (hk : ¬ s.OfFreeMap k)
    (hQ : ∀ s', Takes s s' → s'.freeMap = s.freeMap → s'.history = s.history → s'.view k = b →
      Q () s') :
    (writeSector k b).wp E Q s := by
  refine wp_writeSector h fun s' hst hv => ?_
  have hkept : MapFileKept s s' := mapFileKept_write hst hk hv
  exact hQ s' ⟨hkept, fun j hj => by rwa [Fs.used, hst.freeMap]⟩ hst.freeMap hst.history
    (by rw [hv, Function.update_self])

/-- A sector just allocated is not of the free map's file. -/
theorem FreeMapOk.fresh (hs : FreeMapOk s) (h : Allocated s (some k) s') :
    k < s'.size ∧ ¬ s'.OfFreeMap k ∧ k ≠ 0 := by
  have hnot := h.fresh k rfl
  refine ⟨(hs.allocated h).used_lt ((h.used k).mpr (.inr rfl)), fun hk => ?_, fun h0 => ?_⟩
  · exact hs.not_ofFreeMap hnot (h.toMapFileKept.ofFreeMap.mp hk)
  · exact hnot (h0 ▸ hs.header)

theorem Allocated.takes {r : Option Nat} (h : Allocated s r s') : Takes s s' :=
  ⟨h.toMapFileKept, fun k hk => (h.used k).mpr (.inl hk)⟩

theorem inodeReserveDirect_takes (h : FreeMapOk s) :
    (inodeReserveDirect freeMapAllocate 0).wp (fun _ => True) (fun _ s' => Takes s s') s := by
  rw [inodeReserveDirect, if_pos rfl, wp_bind]
  refine wp_mono (freeMapAllocate_spec h) (fun _ _ => trivial) fun r s₁ h₁ => ?_
  cases r with
  | none => exact (wp_pure _).mpr h₁.takes
  | some k =>
    obtain ⟨hlt, hnot, -⟩ := h.fresh h₁
    dsimp only
    rw [wp_bind]
    exact wp_write_takes hlt hnot fun s₂ h₂ _ _ _ => (wp_pure _).mpr (h₁.takes.trans h₂)

/-- The index block of an empty entry is empty. It is sector 0 if the allocation is refused. -/
theorem reserveIndexBlock_takes (h : FreeMapOk s) :
    (reserveIndexBlock freeMapAllocate 0).wp (fun _ => True) (fun e s' => Takes s s' ∧
      e < s'.size ∧ ¬ s'.OfFreeMap e ∧ s'.view e = Bytes.zeros) s := by
  rw [reserveIndexBlock, if_pos rfl, wp_bind]
  refine wp_mono (freeMapAllocate_spec h) (fun _ _ => trivial) fun r s₁ h₁ => ?_
  cases r with
  | some k =>
    obtain ⟨hlt, hnot, -⟩ := h.fresh h₁
    dsimp only
    rw [wp_bind]
    refine wp_write_takes hlt hnot fun s₂ h₂ _ _ hv => ?_
    exact (wp_pure _).mpr ⟨h₁.takes.trans h₂, by rw [h₂.size]; exact hlt,
      fun hk => hnot (h₂.ofFreeMap.mp hk), hv⟩
  | none =>
    have hzero : ∀ s : Fs, ¬ s.OfFreeMap 0 := fun s hk => hk.1 rfl
    dsimp only
    rw [wp_bind, record]
    refine wp_modifyHistory fun s₂ h₂ he => ?_
    have ht₂ : Takes s s₂ := h₁.takes.trans (h₂.takes (by rw [he]))
    have hlt : 0 < s₂.size := (h.takes ht₂).used_lt (h.takes ht₂).header
    rw [wp_bind]
    refine wp_write_takes hlt (hzero _) fun s₃ h₃ _ _ hv => ?_
    exact (wp_pure _).mpr ⟨ht₂.trans h₃, by rw [h₃.size]; exact hlt, hzero _, hv⟩

/-- Entries that are empty are reserved one after the other. -/
theorem reserveEntries_takes {child : Nat → Nat → Kernel (Bool × Nat)} {unit : Nat}
    (hchild : ∀ s num, FreeMapOk s → (child 0 num).wp (fun _ => True) (fun _ s' => Takes s s') s)
    (h : FreeMapOk s) (todo i num : Nat) (blk : Block)
    (hblk : ∀ j, i ≤ j → j < i + todo → blk.word j = 0) :
    (reserveEntries child unit todo i num blk).wp (fun _ => True) (fun r s' => Takes s s' ∧
      ∀ j, j < i ∨ i + todo ≤ j → r.2.word j = blk.word j) s := by
  induction todo generalizing s i num blk with
  | zero => exact (wp_pure _).mpr ⟨Takes.refl s, fun _ _ => rfl⟩
  | succ todo ih =>
    unfold reserveEntries
    rw [wp_bind, hblk i (Nat.le_refl i) (by omega)]
    refine wp_mono (hchild s _ h) (fun _ h => h) fun r s₁ h₁ => ?_
    obtain ⟨ok, entry⟩ := r
    have hother : ∀ j, j ≠ i → (blk.setWord i entry).word j = blk.word j := fun j hj =>
      Bytes.word_setWord_ne blk hj
    dsimp only
    cases ok with
    | false => exact (wp_pure _).mpr ⟨h₁, fun j hj => hother j (by omega)⟩
    | true =>
      rw [if_pos rfl]
      refine wp_mono (ih (h.takes h₁) (i + 1) _ (blk.setWord i entry) fun j h₁ h₂ => ?_)
        (fun _ h => h) fun r s₂ h₂ => ⟨h₁.trans h₂.1, fun j hj => ?_⟩
      · rw [hother j (by omega)]
        exact hblk j (by omega) (by omega)
      · rw [h₂.2 j (by omega), hother j (by omega)]

theorem inodeReserveIndirect_takes (level : Nat) : ∀ s num, FreeMapOk s →
    (inodeReserveIndirect freeMapAllocate level 0 num).wp (fun _ => True)
      (fun _ s' => Takes s s') s := by
  induction level with
  | zero => exact fun s _ h => inodeReserveDirect_takes h
  | succ level ih =>
    intro s num h
    unfold inodeReserveIndirect
    rw [wp_bind]
    refine wp_mono (reserveIndexBlock_takes h) (fun _ h => h) fun e s₁ h₁ => ?_
    obtain ⟨ht₁, hlt, hnot, hv⟩ := h₁
    rw [wp_bind]
    refine wp_readSector hlt fun s₂ h₂ => ?_
    rw [wp_bind]
    refine wp_mono (reserveEntries_takes ih (h.takes (ht₁.trans h₂.takes)) _ 0 num _ fun j _ _ => by
      rw [hv, Bytes.word_zeros]) (fun _ h => h) fun r s₃ h₃ => ?_
    obtain ⟨ok, blk⟩ := r
    have ht₃ : Takes s₁ s₃ := h₂.takes.trans h₃.1
    dsimp only
    cases ok with
    | false => exact (wp_pure _).mpr (ht₁.trans ht₃)
    | true =>
      rw [if_pos rfl, wp_bind]
      refine wp_write_takes (by rw [ht₃.size]; exact hlt) (fun hk => hnot (ht₃.ofFreeMap.mp hk))
        fun s₄ h₄ _ _ _ => ?_
      exact (wp_pure _).mpr ((ht₁.trans ht₃).trans h₄)

/-- A header without sectors. -/
def Unreserved (disk : Block) : Prop := ∀ j < 125, disk.word j = 0

theorem inodeReserve_takes (h : FreeMapOk s) {disk : Block} (hdisk : Unreserved disk)
    (length : Int) :
    (inodeReserve freeMapAllocate disk length).wp (fun _ => True)
      (fun r s' => Takes s s' ∧ r.2.word 126 = disk.word 126) s := by
  unfold inodeReserve
  split
  · exact (wp_pure _).mpr ⟨Takes.refl s, rfl⟩
  generalize bytesToSectors length = n
  have hle : min n directBlocksCount ≤ 123 := Nat.min_le_right _ _
  dsimp only
  rw [wp_bind]
  refine wp_mono (reserveEntries_takes (fun s _ hs => inodeReserveDirect_takes hs) h _ 0 _ disk
    fun j _ hj => hdisk j (by omega)) (fun _ h => h) fun r s₁ h₁ => ?_
  obtain ⟨ok, disk₁⟩ := r
  obtain ⟨ht₁, hword⟩ := h₁
  have h126 : disk₁.word 126 = disk.word 126 := hword 126 (by omega)
  have h123 : disk₁.word indirectBlock = 0 := (hword 123 (by omega)).trans (hdisk 123 (by omega))
  have h124 : disk₁.word doublyIndirectBlock = 0 :=
    (hword 124 (by omega)).trans (hdisk 124 (by omega))
  dsimp only
  split
  · exact (wp_pure _).mpr ⟨ht₁, h126⟩
  split
  · exact (wp_pure _).mpr ⟨ht₁, h126⟩
  rw [wp_bind, h123]
  refine wp_mono (inodeReserveIndirect_takes 1 s₁ _ (h.takes ht₁)) (fun _ h => h) fun r s₂ h₂ => ?_
  have ht₂ := ht₁.trans h₂
  have h126' : (disk₁.setWord indirectBlock r.2).word 126 = disk.word 126 := by
    rw [Bytes.word_setWord_ne _ (by decide), h126]
  split
  · exact (wp_pure _).mpr ⟨ht₂, h126'⟩
  split
  · exact (wp_pure _).mpr ⟨ht₂, h126'⟩
  rw [wp_bind, Bytes.word_setWord_ne _ (by decide), h124]
  refine wp_mono (inodeReserveIndirect_takes 2 s₂ _ (h.takes ht₂)) (fun _ h => h) fun r' s₃ h₃ => ?_
  refine (wp_pure _).mpr ⟨ht₂.trans h₃, ?_⟩
  rw [Bytes.word_setWord_ne _ (by decide), h126']

theorem unreserved_newInodeDisk (length : Int) (dir : Bool) :
    Unreserved (newInodeDisk length dir) := by
  intro j hj
  rw [newInodeDisk, Bytes.word_setWord_ne _ (by omega), setDiskLength,
    Bytes.word_setWord_ne _ (by omega), Bytes.word_setWord_ne _ (by omega), Bytes.word_zeros]

theorem diskLength_newInodeDisk {length : Int} (h0 : 0 ≤ length) (h : length < 2147483648)
    (dir : Bool) : diskLength (newInodeDisk length dir) = length := by
  have hlt : (length % 4294967296).toNat < 4294967296 := by omega
  rw [diskLength, newInodeDisk, Bytes.word_setWord_ne _ (by decide), setDiskLength,
    Bytes.word_setWord_self _ (by decide) hlt, wrap32_eq (by omega) (by omega)]
  omega

/-- The header that `inode_create` writes has the length asked for. -/
theorem inodeCreate_takes (h : FreeMapOk s) (hk : s.Taken k) {length : Int} (h0 : 0 ≤ length)
    (hl : length < 2147483648) (dir : Bool) :
    (inodeCreate k length dir).wp (fun _ => True)
      (fun ok s' => ok = true → Takes s s' ∧ diskLength (s'.view k) = length) s := by
  unfold inodeCreate
  rw [if_neg (Int.not_lt.mpr h0), wp_bind]
  refine wp_malloc fun r s₁ h₁ _ => ?_
  split
  swap
  · exact (wp_pure _).mpr (by simp)
  have ht₁ := h₁.takes
  rw [wp_bind]
  refine wp_mono (inodeReserve_takes (h.takes ht₁) (unreserved_newInodeDisk length dir) length)
    (fun _ h => h) fun r s₂ h₂ => ?_
  obtain ⟨ok, disk⟩ := r
  obtain ⟨ht₂, hword⟩ := h₂
  have ht := ht₁.trans ht₂
  dsimp only
  split
  swap
  · next hok => exact (wp_pure _).mpr fun hok' => absurd hok' hok
  rw [wp_bind]
  refine wp_write_takes (by rw [ht.size]; exact h.used_lt hk.1)
    (fun hm => hk.2.1 (ht.ofFreeMap.mp hm)) fun s₃ h₃ _ _ hv => ?_
  rw [wp_bind, modifyLive]
  refine wp_modifyHistory fun s₄ h₄ he => ?_
  refine (wp_pure _).mpr fun _ => ⟨(ht.trans h₃).trans (h₄.takes (by rw [he])), ?_⟩
  have hview : s₄.view k = disk := by
    rw [he]
    exact hv
  rw [hview, diskLength, hword]
  exact diskLength_newInodeDisk h0 hl dir

/-! ## Opening and closing it -/

/-- The state `s` but for its open inodes `inodes`. -/
structure Apart (s : Fs) (inodes : List Inode) (s' : Fs) : Prop where
  freeMap : s'.freeMap = s.freeMap
  freeMapFile : s'.freeMapFile = s.freeMapFile
  size : s'.size = s.size
  view : s'.view = s.view
  env : s'.env = s.env
  openInodes : s'.openInodes = inodes

/-- The free map file does not tell apart two states with the same open inodes. -/
theorem Apart.freeMapInode? (h : Apart s s.openInodes s') : s'.freeMapInode? = s.freeMapInode? := by
  unfold Fs.freeMapInode? Fs.inode?
  rw [h.freeMapFile, h.openInodes]

theorem Apart.ofFreeMap (h : Apart s s.openInodes s') : s'.OfFreeMap k ↔ s.OfFreeMap k := by
  unfold Fs.OfFreeMap
  rw [h.freeMapInode?, h.view]

theorem Apart.used (h : Apart s s.openInodes s') : s'.used k ↔ s.used k := by
  unfold Fs.used
  rw [h.freeMap]

theorem FreeMapOk.apart (hs : FreeMapOk s) (h : Apart s s.openInodes s') : FreeMapOk s' where
  bitCnt := by rw [h.freeMap, h.size, hs.bitCnt]
  size_le := by rw [h.size]; exact hs.size_le
  header := h.used.mpr hs.header
  file f hf := by
    rw [h.freeMapFile] at hf
    obtain ⟨i, hi, hfile⟩ := hs.file f hf
    refine ⟨i, ?_, hfile.congr (by rw [h.freeMap]) (fun _ _ => by rw [h.view]) fun x hx hne => ?_⟩
    · rw [Fs.inode?, h.openInodes]
      exact hi
    · exact h.used.mpr (hfile.owned.ok x hx hne)

/-- The inode that `inode_open` makes of a header. -/
def newInode (s : Fs) (k : Nat) : Inode where
  addr := s.nextAddr
  sector := k
  openCnt := 1
  removed := false
  denyWriteCnt := 0
  data := s.view k

/-- The first opener of an inode. -/
theorem inodeOpen_new (hk : k < s.size) (hnew : ∀ i ∈ s.openInodes, i.sector ≠ k) :
    (inodeOpen k).wp (fun _ => False) (fun r s' => (s.env.MemOk → r ≠ none) ∧
      ∀ a, r = some a → a = s.nextAddr ∧ Apart s (newInode s k :: s.openInodes) s') s := by
  unfold inodeOpen
  rw [wp_bind]
  refine wp_recordIf _ _ fun history => ?_
  have hfind : s.openInodes.find? (·.sector == k) = none := by
    rw [List.find?_eq_none]
    simpa using hnew
  rw [wp_bind, wp_gets]
  dsimp only
  rw [hfind]
  dsimp only
  rw [wp_bind]
  refine wp_malloc fun r s₁ h₁ hmem => ?_
  have hnext : s₁.nextAddr = s.nextAddr := h₁.nextAddr
  have hview : s₁.view = s.view := h₁.view
  split
  · rw [wp_bind]
    refine wp_readSector (by rw [h₁.size]; exact hk) fun s₂ h₂ => ?_
    have h₁₂ := h₁.trans h₂
    have hnext₂ : s₂.nextAddr = s.nextAddr := h₂.nextAddr.trans hnext
    rw [wp_bind, wp_gets, wp_bind, wp_modify, wp_pure]
    refine ⟨fun _ => Option.some_ne_none _, fun a ha => ?_⟩
    cases ha
    refine ⟨hnext₂, h₁₂.freeMap, h₁₂.freeMapFile, h₁₂.size, h₁₂.view, h₁₂.env, ?_⟩
    show _ :: s₂.openInodes = _
    rw [h₁₂.openInodes, hnext₂, hview]
    rfl
  · next hr =>
    rw [wp_pure]
    exact ⟨fun hm => absurd (hmem hm) hr, fun a ha => by cases ha⟩

/-- The one opener of an inode removes it and closes it. -/
theorem remove_close {i : Inode} {is : List Inode} (h : Apart s (i :: is) s')
    (hcnt : i.openCnt = 1) (hother : ∀ j ∈ is, j.addr ≠ i.addr) :
    ∃ s₁ s₂, inodeRemove i.addr s' = .ok ((), s₁) ∧ Apart s is s₂ ∧
      inodeClose (some i.addr) s₁ = (do
        freeMapRelease i.sector
        let _ ← inodeUnreserve i.data
        return ()) s₂ := by
  have hmap : ∀ (f : Inode → Inode) (s : Fs) (j : Inode), j.addr = i.addr →
      s.openInodes = j :: is → (s.mapInode i.addr f).openInodes = f j :: is := by
    intro f s j hj hs
    have hsame : is.map (fun j => if j.addr = i.addr then f j else j) = is := by
      conv => rhs; rw [← List.map_id is]
      exact List.map_congr_left fun j hj => if_neg (hother j hj)
    show s.openInodes.map _ = _
    rw [hs, List.map_cons, if_pos hj, hsame]
  have hfind : ∀ (s : Fs) (j : Inode), j.addr = i.addr → s.openInodes = j :: is →
      s.inode? i.addr = some j := by
    intro s j hj hs
    rw [Fs.inode?, hs, List.find?_cons_of_pos (by simpa using hj)]
  have hremove : inodeRemove i.addr s' =
      .ok ((), s'.mapInode i.addr fun i => { i with removed := true }) := by
    have hd : deref i.addr s' = .ok (i, s') := by
      unfold deref
      rw [hfind s' i rfl h.openInodes]
    unfold inodeRemove
    rw [run_bind hd]
    rfl
  obtain ⟨s₁, hs₁⟩ : ∃ s₁, s₁ = s'.mapInode i.addr fun i => { i with removed := true } := ⟨_, rfl⟩
  obtain ⟨s₂, hs₂⟩ : ∃ s₂, s₂ = s₁.mapInode i.addr fun i => { i with openCnt := i.openCnt - 1 } :=
    ⟨_, rfl⟩
  have h₁ : s₁.openInodes = { i with removed := true } :: is := by
    rw [hs₁]
    exact hmap _ s' i rfl h.openInodes
  have h₂ : s₂.openInodes = { i with removed := true, openCnt := i.openCnt - 1 } :: is := by
    rw [hs₂]
    exact hmap _ s₁ { i with removed := true } rfl h₁
  refine ⟨s₁, { s₂ with openInodes := s₂.openInodes.filter (·.addr != i.addr) },
    by rw [hremove, hs₁], ?_, ?_⟩
  · have hfilter : s₂.openInodes.filter (·.addr != i.addr) = is := by
      rw [h₂, List.filter_cons_of_neg (by simp), List.filter_eq_self]
      simpa using hother
    subst hs₂ hs₁
    exact ⟨h.freeMap, h.freeMapFile, h.size, h.view, h.env, hfilter⟩
  · have hd : derefClose i.addr s₁ = .ok ({ i with removed := true }, s₁) := by
      unfold derefClose
      rw [hfind s₁ { i with removed := true } rfl h₁]
    have hzero : i.openCnt - 1 = 0 := by rw [hcnt]; rfl
    have hm : modifyInode i.addr (fun i => { i with openCnt := i.openCnt - 1 }) s₁ =
        .ok ((), s₂) := by
      rw [hs₂]
      rfl
    refine (run_bind hd).trans ((run_bind hm).trans ?_)
    rw [if_pos hzero]
    rfl

/-! ## Without an index block -/

/-- The sectors `ks` have been taken, each once. -/
structure Adds (s : Fs) (ks : List Nat) (s' : Fs) : Prop extends MapFileKept s s' where
  once : ks.Nodup
  fresh : ∀ k ∈ ks, ¬ s.used k
  used : ∀ k, s'.used k ↔ s.used k ∨ k ∈ ks

theorem Adds.takes {ks : List Nat} (h : Adds s ks s') : Takes s s' :=
  ⟨h.toMapFileKept, fun k hk => (h.used k).mpr (.inl hk)⟩

theorem Adds.trans {ks ks' : List Nat} (h : Adds s ks s') (h' : Adds s' ks' s'') :
    Adds s (ks ++ ks') s'' where
  toMapFileKept := h.toMapFileKept.trans h'.toMapFileKept
  once := h.once.append h'.once fun k hk hk' => h'.fresh k hk' ((h.used k).mpr (.inr hk))
  fresh k hk := by
    rcases List.mem_append.mp hk with hk | hk
    · exact h.fresh k hk
    · exact fun hu => h'.fresh k hk ((h.used k).mpr (.inl hu))
  used k := by rw [h'.used, h.used, List.mem_append, or_assoc]

theorem Takes.adds (h : Takes s s') (hf : s'.freeMap = s.freeMap) : Adds s [] s' :=
  ⟨h.toMapFileKept, .nil, by simp, fun k => by rw [Fs.used, Fs.used, hf]; simp⟩

theorem Allocated.adds (h : Allocated s (some k) s') : Adds s [k] s' where
  toMapFileKept := h.toMapFileKept
  once := List.nodup_singleton k
  fresh j hj := h.fresh j (by rw [List.mem_singleton.mp hj])
  used j := by rw [h.used, List.mem_singleton, Option.some_inj, eq_comm]

/-- The free sectors. -/
def Fs.free (s : Fs) : Finset Nat :=
  (Finset.range s.freeMap.bitCnt).filter fun k => s.freeMap.test k = false

theorem mem_free : k ∈ s.free ↔ k < s.freeMap.bitCnt ∧ ¬ s.used k := by
  rw [Fs.free, Finset.mem_filter, Finset.mem_range, Fs.used]
  refine and_congr_right fun hk => ?_
  simp [hk]

/-- Each sector taken was free. -/
theorem Adds.card_free {ks : List Nat} (h : Adds s ks s') :
    s'.free.card + ks.length = s.free.card := by
  have hunion : s.free = s'.free ∪ ks.toFinset := by
    ext k
    rw [Finset.mem_union, mem_free, mem_free, List.mem_toFinset, h.used, h.bitCnt]
    constructor
    · rintro ⟨hlt, hk⟩
      by_cases hmem : k ∈ ks
      · exact .inr hmem
      · exact .inl ⟨hlt, fun hu => hu.elim hk hmem⟩
    · rintro (⟨hlt, hk⟩ | hmem)
      · exact ⟨hlt, fun hu => hk (.inl hu)⟩
      · exact ⟨h.bitCnt ▸ ((h.used k).mpr (.inr hmem)).1, h.fresh k hmem⟩
  have hdisjoint : Disjoint s'.free ks.toFinset := by
    rw [Finset.disjoint_left]
    intro k hk hmem
    exact (mem_free.mp hk).2 ((h.used k).mpr (.inr (List.mem_toFinset.mp hmem)))
  rw [hunion, Finset.card_union_of_disjoint hdisjoint, List.toFinset_card_of_nodup h.once]

/-- An allocation takes one of the free sectors. -/
theorem freeMapAllocate_adds (h : FreeMapOk s) (hm : s.env.MemOk) (hfree : 0 < s.free.card) :
    freeMapAllocate.wp (fun _ => False)
      (fun r s' => ∃ k, r = some k ∧ Allocated s (some k) s') s := by
  obtain ⟨k, hk⟩ := Finset.card_pos.mp hfree
  obtain ⟨hlt, hnot⟩ := mem_free.mp hk
  refine wp_mono (wp_and (freeMapAllocate_spec h) (freeMapAllocate_some h hm hlt hnot))
    (fun e he => he.1.2 hm) fun r s' h' => ?_
  cases r with
  | none => exact absurd rfl h'.2
  | some k => exact ⟨k, rfl, h'.1⟩

theorem inodeReserveDirect_adds (h : FreeMapOk s) (hm : s.env.MemOk) (hfree : 0 < s.free.card) :
    (inodeReserveDirect freeMapAllocate 0).wp (fun _ => False)
      (fun r s' => ∃ k, r = (true, k) ∧ k < 4294967296 ∧ Adds s [k] s') s := by
  rw [inodeReserveDirect, if_pos rfl, wp_bind]
  refine wp_mono (freeMapAllocate_adds h hm hfree) (fun _ h => h) fun r s₁ h₁ => ?_
  obtain ⟨k, rfl, hk⟩ := h₁
  obtain ⟨hlt, hnot, -⟩ := h.fresh hk
  have hsize := (h.allocated hk).size_le
  dsimp only
  rw [wp_bind]
  refine wp_write_takes hlt hnot fun s₂ h₂ hf _ _ => (wp_pure _).mpr ⟨k, rfl, by omega, ?_⟩
  exact hk.adds.trans (h₂.adds hf)

theorem reserveEntries_adds (h : FreeMapOk s) (hm : s.env.MemOk) (todo i num : Nat) (blk : Block)
    (hblk : ∀ j, i ≤ j → j < i + todo → blk.word j = 0) (hle : i + todo ≤ 128)
    (hfree : todo ≤ s.free.card) :
    (reserveEntries (fun entry _ => inodeReserveDirect freeMapAllocate entry) 1 todo i num blk).wp
      (fun _ => False) (fun r s' => r.1 = true ∧
        (∀ j, j < i ∨ i + todo ≤ j → r.2.word j = blk.word j) ∧
        Adds s ((List.range' i todo).map r.2.word) s') s := by
  induction todo generalizing s i num blk with
  | zero => exact (wp_pure _).mpr ⟨rfl, fun _ _ => rfl, (Takes.refl s).adds rfl⟩
  | succ todo ih =>
    unfold reserveEntries
    rw [wp_bind, hblk i (Nat.le_refl i) (by omega)]
    refine wp_mono (inodeReserveDirect_adds h hm (by omega)) (fun _ h => h) fun r s₁ h₁ => ?_
    obtain ⟨k, rfl, hk, hadds⟩ := h₁
    have hother : ∀ j, j ≠ i → (blk.setWord i k).word j = blk.word j := fun j hj =>
      Bytes.word_setWord_ne blk hj
    have hcard := hadds.card_free
    rw [List.length_singleton] at hcard
    dsimp only
    rw [if_pos rfl]
    refine wp_mono (ih (h.takes hadds.takes) (by rwa [hadds.env]) (i + 1) _ (blk.setWord i k)
      (fun j h₁ h₂ => ?_) (by omega) (by omega)) (fun _ h => h) fun r s₂ h₂ => ?_
    · rw [hother j (by omega)]
      exact hblk j (by omega) (by omega)
    · obtain ⟨hok, hsame, hadds₂⟩ := h₂
      refine ⟨hok, fun j hj => by rw [hsame j (by omega), hother j (by omega)], ?_⟩
      have hword : r.2.word i = k := by
        rw [hsame i (by omega), Bytes.word_setWord_self blk (show 4 * i + 4 ≤ 512 by omega) hk]
      rw [List.range'_succ, List.map_cons, hword]
      exact hadds.trans hadds₂

/-- The sectors of a file without index blocks. -/
def directs (data : Block) (n : Nat) : List Nat := (List.range' 0 n).map data.word

theorem inodeReserve_adds (h : FreeMapOk s) (hm : s.env.MemOk) {disk : Block}
    (hdisk : Unreserved disk) {length : Int} (h0 : 0 ≤ length)
    (hn : bytesToSectors length ≤ directBlocksCount)
    (hfree : bytesToSectors length ≤ s.free.card) :
    (inodeReserve freeMapAllocate disk length).wp (fun _ => False) (fun r s' => r.1 = true ∧
      r.2.word 126 = disk.word 126 ∧ Adds s (directs r.2 (bytesToSectors length)) s') s := by
  unfold inodeReserve
  rw [if_neg (Int.not_lt.mpr h0)]
  generalize bytesToSectors length = n at *
  simp only [directBlocksCount] at hn
  dsimp only
  rw [Nat.min_eq_left hn, wp_bind]
  refine wp_mono (reserveEntries_adds h hm n 0 _ disk (fun j _ hj => hdisk j (by omega)) (by omega)
    hfree) (fun _ h => h) fun r s₁ h₁ => ?_
  obtain ⟨ok, disk₁⟩ := r
  obtain ⟨hok, hsame, hadds⟩ := h₁
  have hok : ok = true := hok
  subst hok
  dsimp only
  rw [if_neg (by decide), if_pos (Nat.sub_self n)]
  exact (wp_pure _).mpr ⟨rfl, hsame 126 (by omega), hadds⟩

/-- `inode_create` takes the sectors of the new file. -/
theorem inodeCreate_adds (h : FreeMapOk s) (hm : s.env.MemOk) (hk : s.Taken k) {length : Int}
    (h0 : 0 ≤ length) (hl : length < 2147483648)
    (hn : bytesToSectors length ≤ directBlocksCount)
    (hfree : bytesToSectors length ≤ s.free.card) (dir : Bool) :
    (inodeCreate k length dir).wp (fun _ => False) (fun ok s' => ok = true ∧
      diskLength (s'.view k) = length ∧
      Adds s (directs (s'.view k) (bytesToSectors length)) s') s := by
  unfold inodeCreate
  rw [if_neg (Int.not_lt.mpr h0), wp_bind]
  refine wp_malloc fun r s₁ h₁ hmem => ?_
  rw [hmem hm, if_pos rfl, wp_bind]
  have hfree₁ : s₁.free = s.free := by rw [Fs.free, Fs.free, h₁.freeMap]
  refine wp_mono (inodeReserve_adds (h.takes h₁.takes) (by rwa [h₁.env])
    (unreserved_newInodeDisk length dir) h0 hn (by rwa [hfree₁])) (fun _ h => h) fun r s₂ h₂ => ?_
  obtain ⟨ok, disk⟩ := r
  obtain ⟨hok, hword, hadds⟩ := h₂
  have hok : ok = true := hok
  subst hok
  have ht := h₁.takes.trans hadds.takes
  dsimp only
  rw [if_pos rfl, wp_bind]
  refine wp_write_takes (by rw [ht.size]; exact h.used_lt hk.1)
    (fun hm => hk.2.1 (ht.ofFreeMap.mp hm)) fun s₃ h₃ hf₃ _ hv => ?_
  rw [wp_bind, modifyLive]
  refine wp_modifyHistory fun s₄ h₄ he => ?_
  have hview : s₄.view k = disk := by
    rw [he]
    exact hv
  refine (wp_pure _).mpr ⟨rfl, ?_, ?_⟩
  · rw [hview, diskLength, hword]
    exact diskLength_newInodeDisk h0 hl dir
  · have h₃₄ := h₃.trans (h₄.takes (by rw [he]))
    have hall := ((h₁.takes.adds h₁.freeMap).trans hadds).trans
      (h₃₄.adds (by rw [he]; exact hf₃))
    rw [List.nil_append, List.append_nil] at hall
    rw [hview]
    exact hall

/-- Sectors in use are released one after the other. -/
theorem releaseAll (h : FreeMapOk s) (hm : s.env.MemOk) (hf : s.freeMapFile ≠ none) (ks : List Nat)
    (hnd : ks.Nodup) (htaken : ∀ k ∈ ks, s.Taken k) :
    (forM ks freeMapRelease).wp (fun _ => False)
      (fun _ s' => MapFileKept s s' ∧ ∀ j, s'.used j ↔ s.used j ∧ j ∉ ks) s := by
  induction ks generalizing s with
  | nil => exact (wp_pure _).mpr ⟨(Takes.refl s).toMapFileKept, by simp⟩
  | cons k ks ih =>
    obtain ⟨f, hfile⟩ := Option.ne_none_iff_exists'.mp hf
    have hk := htaken k List.mem_cons_self
    obtain ⟨hnot, hnd⟩ := List.nodup_cons.mp hnd
    rw [List.forM_cons, wp_bind]
    refine wp_mono (freeMapRelease_spec h hfile hk) (fun e he => he.2 hm) fun _ s₁ h₁ => ?_
    have hkept := h₁.toMapFileKept
    refine wp_mono (ih (h.released hk h₁) (by rwa [hkept.env]) (by rwa [hkept.freeMapFile]) hnd
      fun j hj => ?_) (fun _ h => h) fun _ s₂ h₂ => ⟨hkept.trans h₂.1, fun j => ?_⟩
    · obtain ⟨hu, hm, h0⟩ := htaken j (List.mem_cons_of_mem _ hj)
      refine ⟨(h₁.used j).mpr ⟨hu, ?_⟩, fun hm' => hm (hkept.ofFreeMap.mp hm'), h0⟩
      rintro rfl
      exact hnot hj
    · rw [h₂.2, h₁.used, List.mem_cons, not_or, and_assoc]

theorem unreserveEntries_eq (data : Block) (todo i num : Nat) (h : i + todo ≤ 128) :
    unreserveEntries (fun entry _ => freeMapRelease entry) 1 data todo i num =
      forM ((List.range' i todo).map data.word) freeMapRelease := by
  induction todo generalizing i num with
  | zero => rfl
  | succ todo ih =>
    rw [unreserveEntries, if_pos (show i < 128 by omega), List.range'_succ, List.map_cons,
      List.forM_cons]
    exact congrArg _ (funext fun _ => ih (i + 1) _ (by omega))

theorem recordIf_false {c : Fs → Bool} {event : Event} (h : c s = false) :
    recordIf c event s = .ok ((), s) := by
  unfold recordIf Exec.modify
  simp only [h, Bool.false_eq_true, if_false]

theorem run_bind_congr {α β : Type} {x : Kernel α} {f g : α → Kernel β} {s : Fs}
    (h : ∀ a s, f a s = g a s) : (x >>= f) s = (x >>= g) s := by
  have hfg : f = g := funext fun a => funext (h a)
  rw [hfg]

theorem unreserveLevel_zero (level entry : Nat) : unreserveLevel level entry 0 = pure () :=
  if_neg (Nat.lt_irrefl 0)

/-- Without index blocks `inode_unreserve` releases the direct blocks. -/
theorem inodeUnreserve_eq (h0 : 0 ≤ diskLength data)
    (hn : bytesToSectors (diskLength data) ≤ directBlocksCount) :
    inodeUnreserve data = (do
      forM (directs data (bytesToSectors (diskLength data))) freeMapRelease
      return true) := by
  unfold inodeUnreserve
  rw [if_neg (Int.not_lt.mpr h0)]
  generalize bytesToSectors (diskLength data) = n at *
  simp only [directBlocksCount] at hn
  have hfalse : decide (directBlocksCount < n) = false := decide_eq_false (Nat.not_lt.mpr hn)
  funext s
  refine (run_bind (recordIf_false hfalse)).trans ?_
  rw [unreserveEntries_eq data n 0 n (by omega)]
  have hdirects : directs data n = (List.range' 0 n).map data.word := rfl
  rw [hdirects]
  generalize (forM ((List.range' 0 n).map data.word) freeMapRelease : Kernel Unit) = x
  refine run_bind_congr fun _ s' => ?_
  simp only [Nat.min_eq_left hn, Nat.sub_self, Nat.zero_min, unreserveLevel_zero]
  rfl

/-! ## Creation and removal -/

theorem bytesToSectors_eq {length : Int} (h0 : 0 ≤ length) (h : length ≤ 8517120) :
    bytesToSectors length = ((length + 511) / 512).toNat := by
  unfold bytesToSectors
  simp only [blockSectorSize]
  rw [wrap32_eq (by omega) (by omega), Int.tdiv_eq_ediv_of_nonneg (by omega)]
  omega

theorem bytesToSectors_le {length : Int} (h0 : 0 ≤ length) (h : length ≤ 8517120) :
    bytesToSectors length ≤ directBlocksCount ↔ length ≤ 123 * 512 := by
  rw [bytesToSectors_eq h0 h]
  simp only [directBlocksCount]
  omega

/-- The free map and the open inodes are in order. -/
structure InOrder (s : Fs) : Prop where
  freeMap : FreeMapOk s
  file : s.freeMapFile ≠ none
  opened : ∀ i ∈ s.openInodes, s.used i.sector ∧ i.addr < s.nextAddr

/-- The last opener of a new inode removes it and closes it. -/
theorem close_new (h : InOrder s) (ht : Takes s s') (hk : k < s'.size) (hnew : ¬ s.used k)
    {a : Addr} (hopen : inodeOpen k s' = .ok (some a, s'')) :
    ∃ s₁ s₂, inodeRemove a s'' = .ok ((), s₁) ∧ Apart s' s'.openInodes s₂ ∧
      inodeClose (some a) s₁ = (do
        freeMapRelease k
        let _ ← inodeUnreserve (s'.view k)
        return ()) s₂ := by
  have hsector : ∀ i ∈ s'.openInodes, i.sector ≠ k := by
    intro i hi hik
    rw [ht.openInodes] at hi
    exact hnew (hik ▸ (h.opened i hi).1)
  have hother : ∀ i ∈ s'.openInodes, i.addr ≠ (newInode s' k).addr := by
    intro i hi
    have hnext : s'.nextAddr = s.nextAddr := by rw [ht.rest]
    rw [ht.openInodes] at hi
    show i.addr ≠ s'.nextAddr
    rw [hnext]
    exact Nat.ne_of_lt (h.opened i hi).2
  obtain ⟨-, hsome⟩ := wp_ok (inodeOpen_new hk hsector) hopen
  obtain ⟨rfl, happ⟩ := hsome a rfl
  have hclose := remove_close happ rfl hother
  have haddr : (newInode s' k).addr = s'.nextAddr := rfl
  have hk : (newInode s' k).sector = k := rfl
  have hdata : (newInode s' k).data = s'.view k := rfl
  rwa [haddr, hk, hdata] at hclose

/-- A file of length `length` is created, and then removed and closed by its only opener. The free
map is as before: `ks` are the sectors taken, and they are released once each. -/
def Undone (s : Fs) (length : Int) (dir : Bool) : Prop :=
  ∃ (k : Nat) (a : Addr) (ks : List Nat) (s₁ s₂ s₃ s₄ s₅ s₆ : Fs),
    freeMapAllocate s = .ok (some k, s₁) ∧
    inodeCreate k length dir s₁ = .ok (true, s₂) ∧ inodeOpen k s₂ = .ok (some a, s₃) ∧
    inodeRemove a s₃ = .ok ((), s₄) ∧ inodeClose (some a) s₄ = .ok ((), s₆) ∧
    (s₆.freeMap.bitCnt = s.freeMap.bitCnt ∧
      ∀ j < s.freeMap.bitCnt, s₆.freeMap.test j = s.freeMap.test j) ∧
    ks.Nodup ∧ (∀ j, s₂.used j ↔ s.used j ∨ j ∈ ks) ∧ s₅.freeMap = s₂.freeMap ∧
    inodeClose (some a) s₄ = forM ks freeMapRelease s₅

/-- With more than 123 sectors the last opener does not come back from `inode_close`. -/
theorem not_undone (h : InOrder s) {length : Int} (h0 : 0 ≤ length) (hle : length ≤ 8517120)
    (hlong : 123 * 512 < length) (dir : Bool) : ¬ Undone s length dir := by
  rintro ⟨k, a, ks, s₁, s₂, s₃, s₄, s₅, s₆, halloc, hcreate, hopen, hremove, hclose, -⟩
  have hk := wp_ok (freeMapAllocate_spec h.freeMap) halloc
  obtain ⟨-, hnot, hk0⟩ := h.freeMap.fresh hk
  have hused := (hk.used k).mpr (.inr rfl)
  obtain ⟨htake, hlength⟩ := wp_ok (inodeCreate_takes (h.freeMap.takes hk.takes)
    ⟨hused, hnot, hk0⟩ h0 (by omega) dir) hcreate rfl
  have ht := hk.takes.trans htake
  have hok := h.freeMap.takes ht
  have hlt := hok.used_lt (htake.used k hused)
  obtain ⟨s₄', s₅', hremove', happ, hclose'⟩ := close_new h ht hlt (hk.fresh k rfl) hopen
  rw [hremove] at hremove'
  cases hremove'
  rw [hclose'] at hclose
  have hfails : ¬ bytesToSectors (diskLength (s₂.view k)) ≤ directBlocksCount := by
    rw [hlength, bytesToSectors_le h0 hle]
    omega
  refine wp_ok (E := fun _ => True) (Q := fun _ _ => False) ?_ hclose
  rw [wp_bind]
  refine wp_mono (freeMapRelease_frees (hok.apart happ).inPlace k) (fun _ h => h) fun _ s₇ h₇ => ?_
  have hin := (hok.apart happ).inPlace.mapFileKept h₇.1.toMapFileKept
  rw [wp_bind]
  exact wp_mono (inodeUnreserve_fails hin (by rw [hlength]; exact h0) (Nat.not_le.mp hfails))
    (fun _ h => h) fun _ _ hf => hf.elim

/-- A result that nobody looks at. -/
theorem bind_discard {α : Type} (x : Kernel Unit) (a : α) : (do
    let _ ← (do
      x
      return a)
    return ()) = x := by
  funext s
  cases hx : x s with
  | ok r => exact run_bind (run_bind hx)
  | error e => exact run_bind_error (run_bind_error hx)

/-- With at most 123 sectors everything is undone. -/
theorem undone (h : InOrder s) (hm : s.env.MemOk) {length : Int} (h0 : 0 ≤ length)
    (hshort : length ≤ 123 * 512) (hfree : bytesToSectors length < s.free.card) (dir : Bool) :
    Undone s length dir := by
  have hn : bytesToSectors length ≤ directBlocksCount :=
    (bytesToSectors_le h0 (by omega)).mpr hshort
  obtain ⟨r, s₁, halloc, k, rfl, hk⟩ := wp_returns (freeMapAllocate_adds h.freeMap hm (by omega))
  have hok₁ := h.freeMap.takes hk.takes
  obtain ⟨-, hnot, hk0⟩ := h.freeMap.fresh hk
  have hused := (hk.used k).mpr (.inr rfl)
  have hcard := hk.adds.card_free
  rw [List.length_singleton] at hcard
  obtain ⟨ok, s₂, hcreate, hok, hlength, hadds⟩ := wp_returns (inodeCreate_adds hok₁
    (by rwa [hk.env]) ⟨hused, hnot, hk0⟩ h0 (by omega) hn (by omega) dir)
  subst hok
  have ht := hk.takes.trans hadds.takes
  have hok₂ := h.freeMap.takes ht
  have hm₂ : s₂.env.MemOk := by rwa [ht.env]
  have hlt := hok₂.used_lt (hadds.takes.used k hused)
  have hsector : ∀ i ∈ s₂.openInodes, i.sector ≠ k := by
    intro i hi hik
    rw [ht.openInodes] at hi
    exact hk.fresh k rfl (hik ▸ (h.opened i hi).1)
  obtain ⟨r, s₃, hopen, hsome, -⟩ := wp_returns (inodeOpen_new hlt hsector)
  obtain ⟨a, rfl⟩ := Option.ne_none_iff_exists'.mp (hsome hm₂)
  obtain ⟨s₄, s₅, hremove, happ, hclose⟩ := close_new h ht hlt (hk.fresh k rfl) hopen
  have hall := hk.adds.trans hadds
  rw [← hlength] at hn
  rw [inodeUnreserve_eq (by rw [hlength]; exact h0) hn, hlength, bind_discard] at hclose
  have htaken : ∀ j ∈ [k] ++ directs (s₂.view k) (bytesToSectors length), s₅.Taken j := by
    intro j hj
    have hfresh := hall.fresh j hj
    refine ⟨happ.used.mpr ((hall.used j).mpr (.inr hj)), fun hj' => ?_, fun hj0 => ?_⟩
    · exact h.freeMap.not_ofFreeMap hfresh (ht.ofFreeMap.mp (happ.ofFreeMap.mp hj'))
    · exact hfresh (hj0 ▸ h.freeMap.header)
  obtain ⟨_, s₆, hrelease, hkept, hused₆⟩ := wp_returns (releaseAll (hok₂.apart happ)
    (by rwa [happ.env]) (by rw [happ.freeMapFile, ht.freeMapFile]; exact h.file) _ hall.once htaken)
  have hbitCnt : s₆.freeMap.bitCnt = s.freeMap.bitCnt := by
    rw [hkept.bitCnt, happ.freeMap, ht.bitCnt]
  have hsame : ∀ j, s₆.used j ↔ s.used j := by
    intro j
    rw [hused₆, happ.used, hall.used]
    constructor
    · rintro ⟨hu | hj, hnot⟩
      · exact hu
      · exact absurd hj hnot
    · exact fun hu => ⟨.inl hu, fun hj => hall.fresh j hj hu⟩
  refine ⟨k, a, _, s₁, s₂, s₃, s₄, s₅, s₆, halloc, hcreate, hopen, hremove, ?_, ⟨hbitCnt, ?_⟩,
    hall.once, hall.used, happ.freeMap, hclose⟩
  · rw [hclose]
    exact hrelease
  · intro j hj
    have hj₆ := hsame j
    rw [Fs.used, Fs.used, and_iff_right hj, hbitCnt, and_iff_right hj] at hj₆
    exact Bool.eq_iff_iff.mpr hj₆

/-- **Creating an inode and then removing it is undone exactly if it has no index block.** -/
theorem unreserve_undoes (h : InOrder s) (hm : s.env.MemOk) {length : Int} (h0 : 0 ≤ length)
    (hle : length ≤ 16635 * 512) (hfree : bytesToSectors length < s.free.card) (dir : Bool) :
    Undone s length dir ↔ length ≤ 123 * 512 := by
  refine ⟨fun hu => ?_, fun hshort => undone h hm h0 hshort hfree dir⟩
  by_contra hlong
  exact not_undone h h0 hle (Int.not_le.mp hlong) dir hu

/-- The header of the file of a free map of `size` bits, with one sector of data. -/
def smallMap (size : Nat) : Block := setDiskLength (Bytes.zeros.setWord 0 2) (byteCnt size)

/-- Its inode, open. -/
def smallInode (size : Nat) : Inode where
  addr := 0
  sector := freeMapSector
  openCnt := 1
  removed := false
  denyWriteCnt := 0
  data := smallMap size

/-- A small device in use by the free map alone. The free map's file is open. -/
def smallFs (size : Nat) : Fs where
  env := Env.calm 0
  clock := ⟨0, 0⟩
  store := Store.init (Disk.blank size)
  freeMap := (((Bitmap.create size).set freeMapSector true).set rootDirSector true).set 2 true
  freeMapFile := some { inode := 0, pos := 0, denyWrite := false }
  openInodes := [smallInode size]
  nextAddr := 1
  cwds := []
  current := 0
  history := { live := [freeMapSector, rootDirSector], events := [] }

theorem smallFs_used {size : Nat} (hsize : 2 < size) : (smallFs size).used k ↔ k < 3 := by
  have htest : (smallFs size).freeMap.test k = if k = 2 then true else if k = 1 then true else
      if k = 0 then true else false := by
    unfold smallFs
    rw [Bitmap.test_set (by exact hsize), Bitmap.test_set (show 1 < size by omega),
      Bitmap.test_set (show 0 < size by omega), Bitmap.test_create]
  have hbitCnt : (smallFs size).freeMap.bitCnt = size := rfl
  rw [Fs.used, htest, hbitCnt]
  constructor
  · rintro ⟨-, hk⟩
    split at hk <;> simp_all
    omega
  · intro hk
    have : k = 0 ∨ k = 1 ∨ k = 2 := by omega
    rcases this with rfl | rfl | rfl <;> simp <;> omega

theorem smallMap_word (size : Nat) {r : Nat} (hr : r < 125) :
    (smallMap size).word r = if r = 0 then 2 else 0 := by
  rw [smallMap, setDiskLength, Bytes.word_setWord_ne _ (by omega),
    Bytes.word_setWord _ (by decide) (by decide), Bytes.word_zeros]

/-- A header with the one direct sector `k` has no sector but that. -/
theorem ptr_of_single {disk : Block} {k : Nat}
    (hword : ∀ r < 125, disk.word r = if r = 0 then k else 0) (v : Nat → Block) {x : Slot}
    (hx : IsSlot x) (hne : ptr v disk x ≠ 0) : x = (0, []) ∧ ptr v disk x = k := by
  obtain ⟨r, p⟩ := x
  obtain ⟨hr, hp⟩ := hx
  have hr0 : r = 0 := by
    by_contra h0
    exact hne (by rw [ptr, hword r hr, if_neg h0, node_zero])
  subst hr0
  have hp0 : p = [] := List.length_eq_zero_iff.mp (Nat.le_zero.mp hp.1)
  subst hp0
  exact ⟨rfl, hword 0 hr⟩

/-- The free map's file has the sector 2 alone. -/
theorem smallMap_ptr (size : Nat) (v : Nat → Block) {x : Slot} (hx : IsSlot x)
    (hne : ptr v (smallMap size) x ≠ 0) : x = (0, []) ∧ ptr v (smallMap size) x = 2 :=
  ptr_of_single (fun _ => smallMap_word size) v hx hne

theorem smallFs_inOrder {size : Nat} (hsize : 2 < size) (hle : size ≤ 4096) :
    InOrder (smallFs size) := by
  have hcnt : byteCnt size ≤ 512 := by
    simp only [byteCnt, elemCnt, elemBits]
    omega
  have hused := fun k => smallFs_used (k := k) hsize
  have hptr := fun x => @smallMap_ptr size (smallFs size).view x
  have hfile : FreeMapFile (smallFs size) (smallInode size) := {
    writable := rfl
    length := by
      have hlt : ((byteCnt size : Int) % 4294967296).toNat < 4294967296 := by omega
      show diskLength (smallMap size) = byteCnt size
      rw [diskLength, smallMap, setDiskLength, Bytes.word_setWord_self _ (by decide) hlt,
        wrap32_eq (by omega) (by omega)]
      omega
    length_le := Nat.le_trans hcnt (by decide)
    owned := by
      refine ⟨fun x hx hne => ?_, fun x y hx hy hne he => ?_⟩
      · exact (hused _).mpr ((hptr x hx hne).2 ▸ by decide)
      · rw [(hptr x hx hne).1, (hptr y hy fun h0 => hne (he.trans h0)).1]
    covered := fun idx hidx => by
      have hidx : idx * 512 < byteCnt size := hidx
      have h0 : idx = 0 := by omega
      subst h0
      show (smallMap size).word 0 ≠ 0
      rw [smallMap_word size (by decide)]
      decide }
  exact {
    freeMap := {
      bitCnt := rfl
      size_le := Nat.le_trans hle (by decide)
      header := (hused _).mpr (by decide)
      file := fun f hf => by
        cases hf
        exact ⟨_, rfl, hfile⟩ }
    file := Option.some_ne_none _
    opened := fun i hi => by
      rw [List.mem_singleton.mp hi]
      exact ⟨(hused _).mpr (show 0 < 3 by decide), show 0 < 1 by decide⟩ }

theorem smallFs_freeMap (size : Nat) (hsize : 2 < size) (hle : size ≤ 4096) :
    FreeMapOk (smallFs size) := (smallFs_inOrder hsize hle).freeMap

theorem smallFs_free {size : Nat} (hsize : 2 < size) : (smallFs size).free.card = size - 3 := by
  have hfree : (smallFs size).free = Finset.Ico 3 size := by
    ext k
    have hbitCnt : (smallFs size).freeMap.bitCnt = size := rfl
    rw [mem_free, smallFs_used hsize, Finset.mem_Ico, hbitCnt]
    omega
  rw [hfree, Nat.card_Ico]

/-- A file of 1000 bytes on a device of 16 sectors. -/
theorem unreserve_undoes_two : Undone (smallFs 16) 1000 false := by
  refine (unreserve_undoes (smallFs_inOrder (by decide) (by decide)) (fun _ => rfl) (by decide)
    (by decide) ?_ false).mpr (by decide)
  rw [bytesToSectors_eq (by decide) (by decide), smallFs_free (by decide)]
  decide

/-- A file of 124 sectors on a device of 256 sectors, which are more than enough. -/
theorem unreserve_overruns : ¬ ∀ s length dir, InOrder s → s.env.MemOk → 0 ≤ length →
    length ≤ 16635 * 512 → 2 * bytesToSectors length < s.free.card → Undone s length dir := by
  intro hall
  have horder : InOrder (smallFs 256) := smallFs_inOrder (by decide) (by decide)
  refine not_undone horder (by decide) (by decide) (by decide) false
    (hall (smallFs 256) (124 * 512) false horder (fun _ => rfl) (by decide) (by decide) ?_)
  rw [bytesToSectors_eq (by decide) (by decide), smallFs_free (by decide)]
  decide

end Pintos.Filesys
