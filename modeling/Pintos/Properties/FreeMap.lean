import Pintos.Properties.Layout

/-!
# The free map

* `FreeMapOk` — the free map covers the device, and its file is open, as long as the map and
  all marked as used.
* `Allocated`, `Released` — what an allocation and a release of one sector do.

The free map is written to its file in place: the file has its full length from the start,
so an allocation does not call itself.
-/

namespace Pintos.Filesys

open Pintos.Logic Pintos.Logic.Exec Pintos.Lib

attribute [local irreducible] Exec.wp

/-! ## Sectors in use -/

/-- A sector is marked as used in the free map. -/
def Fs.used (s : Fs) (k : Nat) : Prop := k < s.freeMap.bitCnt ∧ s.freeMap.test k = true

/-- The open inode of the free map file. -/
def Fs.freeMapInode? (s : Fs) : Option Inode := s.freeMapFile.bind fun f => s.inode? f.inode

/-- A sector of the free map file: an index block or data. -/
def Fs.OfFreeMap (s : Fs) (k : Nat) : Prop :=
  k ≠ 0 ∧ ∃ i, s.freeMapInode? = some i ∧ ∃ x, IsSlot x ∧ ptr s.view i.data x = k

/-- A sector of data of the free map file. -/
def Fs.DataOfFreeMap (s : Fs) (k : Nat) : Prop :=
  k ≠ 0 ∧ ∃ i, s.freeMapInode? = some i ∧ ∃ idx, slotOf s.view i.data idx = k

/-- The file of the free map holds its bits. -/
def Fs.FreeMapWritten (s : Fs) : Prop :=
  ∀ i, s.freeMapInode? = some i → ∀ q < byteCnt s.freeMap.bitCnt,
    byteAt s.view i.data q = s.freeMap.toBytes q

/-- The inode of the free map file. -/
structure FreeMapFile (s : Fs) (i : Inode) : Prop where
  writable : i.denyWriteCnt = 0
  length : diskLength i.data = byteCnt s.freeMap.bitCnt
  length_le : byteCnt s.freeMap.bitCnt ≤ 8517120
  owned : Owned IsSlot s.used (ptr s.view i.data)
  covered : ∀ idx : Nat, idx * 512 < byteCnt s.freeMap.bitCnt → slotOf s.view i.data idx ≠ 0

/-- The free map covers the device, and its file is in order if there is one. -/
structure FreeMapOk (s : Fs) : Prop where
  bitCnt : s.freeMap.bitCnt = s.size
  size_le : s.size ≤ 4294967295
  header : s.used freeMapSector
  file : ∀ f, s.freeMapFile = some f → ∃ i, s.inode? f.inode = some i ∧ FreeMapFile s i

section

variable {s s' : Fs} {k : Nat}

theorem Fs.DataOfFreeMap.ofFreeMap (h : s.DataOfFreeMap k) : s.OfFreeMap k := by
  obtain ⟨h0, i, hi, idx, hk⟩ := h
  refine ⟨h0, i, hi, ?_⟩
  unfold slotOf at hk
  split at hk
  · next hidx => exact ⟨_, isSlot_leafSlot hidx, hk⟩
  · exact absurd hk.symm h0

theorem FreeMapOk.used_lt (h : FreeMapOk s) (hk : s.used k) : k < s.size := h.bitCnt ▸ hk.1

theorem FreeMapOk.inode (h : FreeMapOk s) {i : Inode} (hi : s.freeMapInode? = some i) :
    FreeMapFile s i := by
  obtain ⟨f, hf, hi⟩ := Option.bind_eq_some_iff.mp hi
  obtain ⟨i', hi', h'⟩ := h.file f hf
  rw [hi] at hi'
  cases hi'
  exact h'

theorem FreeMapOk.ofFreeMap_used (h : FreeMapOk s) (hk : s.OfFreeMap k) : s.used k := by
  obtain ⟨h0, i, hi, x, hx, rfl⟩ := hk
  exact (h.inode hi).owned.ok x hx h0

theorem FreeMapFile.mapped {i : Inode} (hs : FreeMapOk s) (h : FreeMapFile s i) :
    Mapped s.size s.view i.data where
  owned := h.owned.mono fun _ hk => hs.used_lt hk
  length_nonneg := by rw [h.length]; exact Int.natCast_nonneg _
  length_le := by rw [h.length]; exact Int.ofNat_le.mpr h.length_le
  covered idx hidx := by
    rw [h.length] at hidx
    exact h.covered idx (Int.ofNat_lt.mp hidx)

theorem wrap32_eq {n : Int} (h : -2147483648 ≤ n) (h' : n < 2147483648) : wrap32 n = n := by
  unfold wrap32
  omega

theorem byteCnt_le {n : Nat} (h : n ≤ 4294967295) : byteCnt n ≤ 536870912 := by
  simp only [byteCnt, elemCnt, elemBits]
  omega

theorem byteCnt_pos {n : Nat} (h : 0 < n) : 0 < byteCnt n := by
  simp only [byteCnt, elemCnt, elemBits]
  omega

/-! ## Writing the free map -/

/-- The free map has been written to a part of its file. -/
structure MapWritten (s s' : Fs) : Prop extends Stored s s' where
  view : ∀ k, ¬ s.DataOfFreeMap k → s'.view k = s.view k
  ptr : ∀ i, s.freeMapInode? = some i → ∀ x, IsSlot x →
    ptr s'.view i.data x = ptr s.view i.data x

theorem Stored.freeMapInode? (h : Stored s s') : s'.freeMapInode? = s.freeMapInode? := by
  rw [Fs.freeMapInode?, Fs.freeMapInode?, h.freeMapFile]
  congr 1
  funext f
  exact h.inode? f.inode

/-- The free map file is in order as long as its pointers are. -/
theorem FreeMapFile.congr {i : Inode} (h : FreeMapFile s i)
    (hb : s'.freeMap.bitCnt = s.freeMap.bitCnt)
    (hp : ∀ x, IsSlot x → Filesys.ptr s'.view i.data x = Filesys.ptr s.view i.data x)
    (hu : ∀ x, IsSlot x → Filesys.ptr s.view i.data x ≠ 0 →
      s'.used (Filesys.ptr s.view i.data x)) : FreeMapFile s' i where
  writable := h.writable
  length := by rw [hb, h.length]
  length_le := by rw [hb]; exact h.length_le
  owned := by
    refine Owned.congr ⟨hu, h.owned.inj⟩ hp
  covered idx hidx := by
    rw [slotOf_congr hp]
    exact h.covered idx (hb ▸ hidx)

/-- The free map is written to its file in place: the file has its whole length. Its sectors need not
be marked as used. -/
structure InPlace (s : Fs) : Prop where
  bitCnt : s.freeMap.bitCnt = s.size
  size_pos : 0 < s.size
  size_le : s.size ≤ 4294967295
  file : ∀ f, s.freeMapFile = some f → ∃ i, s.inode? f.inode = some i ∧ i.denyWriteCnt = 0 ∧
    diskLength i.data = byteCnt s.freeMap.bitCnt ∧ Mapped s.size s.view i.data

theorem FreeMapOk.inPlace (h : FreeMapOk s) : InPlace s where
  bitCnt := h.bitCnt
  size_pos := Nat.lt_of_le_of_lt (Nat.zero_le _) (h.used_lt h.header)
  size_le := h.size_le
  file f hf := by
    obtain ⟨i, hi, hfile⟩ := h.file f hf
    exact ⟨i, hi, hfile.writable, hfile.length, hfile.mapped h⟩

theorem InPlace.bitmapWriteWith (alloc : Kernel (Option Nat)) (h : InPlace s) {f : File}
    (hf : s.freeMapFile = some f) :
    (Filesys.bitmapWriteWith alloc f).wp (OutOfMemory s.env) (fun ok s' => MapWritten s s' ∧
      (ok = true → s'.FreeMapWritten) ∧ (s.env.MemOk → ok = true)) s := by
  obtain ⟨i, hi, hwritable, hlength, hm⟩ := h.file f hf
  have hfm : s.freeMapInode? = some i := by rw [Fs.freeMapInode?, hf]; exact hi
  have hpos : 0 < byteCnt s.freeMap.bitCnt := byteCnt_pos (h.bitCnt ▸ h.size_pos)
  have hle := byteCnt_le (h.bitCnt ▸ h.size_le)
  unfold Filesys.bitmapWriteWith inodeWriteAtWith
  rw [wp_bind, wp_gets, wp_bind, wp_bind]
  refine wp_deref hi ?_
  rw [if_neg (not_not_intro hwritable), wp_bind]
  -- the last byte is in the file, so there is nothing to extend
  have hlast : wrap32 (0 + (byteCnt s.freeMap.bitCnt : Int) - 1)
      = ((byteCnt s.freeMap.bitCnt - 1 : Nat) : Int) := by
    rw [wrap32_eq (by omega) (by omega)]
    omega
  rw [hlast]
  refine wp_mono (byteToSector_spec hm) (fun _ h => h) fun last s₁ h₁ => ?_
  obtain ⟨hl, hk⟩ := h₁
  have hin : ((byteCnt s.freeMap.bitCnt - 1 : Nat) : Int) < diskLength i.data := by
    rw [hlength]
    omega
  rw [if_pos hin] at hk
  have hne := hm.covered ((byteCnt s.freeMap.bitCnt - 1) / 512) (by omega)
  have hsome : last ≠ noSector := by
    have := slotOf_lt_size hm.owned hne
    rw [hk]
    have := h.size_le
    simp only [noSector]
    omega
  rw [if_neg hsome, wp_bind, wp_pure, if_pos rfl]
  have hwrite := writeLoop_spec (a := f.inode) s.freeMap.toBytes
    ((byteCnt s.freeMap.bitCnt : Int)).toNat (byteCnt s.freeMap.bitCnt : Int) 0 0 false
    (by rw [hl.inode?, hi]) (by rw [hl.size, hl.view]; exact hm) (Nat.le_refl _)
  rw [hl.env, hl.view] at hwrite
  refine wp_mono hwrite (fun _ h => h) fun n s₂ h₂ => ?_
  obtain ⟨hs₂, n, rfl, hover, hn, hmem⟩ := h₂
  have hst := hl.toStored.trans hs₂
  have hreach : reach (byteCnt s.freeMap.bitCnt : Int) (diskLength i.data) 0
      = byteCnt s.freeMap.bitCnt := by
    rw [hlength, reach]
    simp
  rw [hreach] at hn hmem
  rw [wp_pure]
  refine ⟨⟨hst, fun k hk => ?_, fun j hj x hx => ?_⟩, fun hok => ?_, fun hok => ?_⟩
  · by_contra hne
    obtain ⟨h0, q, -, -, hq⟩ := hover.frame k hne
    exact hk ⟨h0, i, hfm, _, hq⟩
  · rw [hfm] at hj
    cases hj
    exact hover.ptr_eq hm.owned hx
  · intro j hj q hq
    rw [hst.freeMapInode?, hfm] at hj
    cases hj
    rw [hst.freeMap] at hq ⊢
    have hn : n = byteCnt s.freeMap.bitCnt := by
      have := of_decide_eq_true hok
      omega
    rw [hover.bytes, if_pos (by omega)]
    simp
  · simp [hmem hok]

theorem bitmapWriteWith_spec (alloc : Kernel (Option Nat)) (h : FreeMapOk s) {f : File}
    (hf : s.freeMapFile = some f) :
    (bitmapWriteWith alloc f).wp (OutOfMemory s.env) (fun ok s' => MapWritten s s' ∧
      (ok = true → s'.FreeMapWritten) ∧ (s.env.MemOk → ok = true)) s :=
  h.inPlace.bitmapWriteWith alloc hf

/-! ## Allocating and releasing -/

/-- Sectors, the free map and the history have changed, but no pointer of the free map file. -/
structure MapFileKept (s s' : Fs) : Prop where
  rest : s' = { s with
    store := s'.store, clock := s'.clock, freeMap := s'.freeMap, history := s'.history }
  size : s'.size = s.size
  bitCnt : s'.freeMap.bitCnt = s.freeMap.bitCnt
  ptr : ∀ i, s.freeMapInode? = some i → ∀ x, IsSlot x →
    ptr s'.view i.data x = ptr s.view i.data x

/-- The free map, its file and the history have changed, and nothing else. -/
structure MapChanged (s s' : Fs) : Prop extends MapFileKept s s' where
  view : ∀ k, ¬ s.DataOfFreeMap k → s'.view k = s.view k

/-- What the allocation of one sector does. -/
structure Allocated (s : Fs) (r : Option Nat) (s' : Fs) : Prop extends MapChanged s s' where
  used : ∀ k, s'.used k ↔ s.used k ∨ r = some k
  fresh : ∀ k, r = some k → ¬ s.used k
  live : s'.history.live = s.history.live
  events : s'.history.events = if r = none then .refused :: s.history.events else s.history.events
  written : s.env.MemOk → (r = none → s.FreeMapWritten) → s'.FreeMapWritten

/-- What the release of the sector `k` does. -/
structure Released (s : Fs) (k : Nat) (s' : Fs) : Prop extends MapChanged s s' where
  used : ∀ j, s'.used j ↔ s.used j ∧ j ≠ k
  live : s'.history.live = s.history.live.erase k
  events : s'.history.events = s.history.events
  written : s.env.MemOk → s'.FreeMapWritten

theorem MapFileKept.env (h : MapFileKept s s') : s'.env = s.env := by rw [h.rest]
theorem MapFileKept.freeMapFile (h : MapFileKept s s') : s'.freeMapFile = s.freeMapFile := by
  rw [h.rest]
theorem MapFileKept.openInodes (h : MapFileKept s s') : s'.openInodes = s.openInodes := by
  rw [h.rest]
theorem MapFileKept.inode? (h : MapFileKept s s') (a : Addr) : s'.inode? a = s.inode? a := by
  rw [Fs.inode?, h.openInodes, Fs.inode?]
theorem MapFileKept.freeMapInode? (h : MapFileKept s s') :
    s'.freeMapInode? = s.freeMapInode? := by
  rw [Fs.freeMapInode?, Fs.freeMapInode?, h.freeMapFile]
  congr 1
  funext f
  exact h.inode? f.inode

theorem MapFileKept.ofFreeMap (h : MapFileKept s s') : s'.OfFreeMap k ↔ s.OfFreeMap k := by
  unfold Fs.OfFreeMap
  rw [h.freeMapInode?]
  refine and_congr_right fun _ => exists_congr fun i => and_congr_right fun hi =>
    exists_congr fun x => and_congr_right fun hx => ?_
  rw [h.ptr i hi x hx]

theorem MapFileKept.dataOfFreeMap (h : MapFileKept s s') :
    s'.DataOfFreeMap k ↔ s.DataOfFreeMap k := by
  unfold Fs.DataOfFreeMap
  rw [h.freeMapInode?]
  refine and_congr_right fun _ => exists_congr fun i => and_congr_right fun hi =>
    exists_congr fun idx => ?_
  rw [slotOf_congr (h.ptr i hi)]

/-- The free map stays in order as long as its header and its file stay marked. -/
theorem FreeMapOk.mapFileKept (hs : FreeMapOk s) (h : MapFileKept s s')
    (h0 : s'.used freeMapSector) (hu : ∀ k, s.OfFreeMap k → s'.used k) : FreeMapOk s' where
  bitCnt := by rw [h.bitCnt, h.size, hs.bitCnt]
  size_le := by rw [h.size]; exact hs.size_le
  header := h0
  file f hf := by
    rw [h.freeMapFile] at hf
    obtain ⟨i, hi, hfile⟩ := hs.file f hf
    have hfm : s.freeMapInode? = some i := by rw [Fs.freeMapInode?, hf]; exact hi
    refine ⟨i, by rw [h.inode?, hi], hfile.congr h.bitCnt (h.ptr i hfm) fun x hx hne => ?_⟩
    exact hu _ ⟨hne, i, hfm, x, hx, rfl⟩

theorem InPlace.mapFileKept (hs : InPlace s) (h : MapFileKept s s') : InPlace s' where
  bitCnt := by rw [h.bitCnt, h.size, hs.bitCnt]
  size_pos := by rw [h.size]; exact hs.size_pos
  size_le := by rw [h.size]; exact hs.size_le
  file f hf := by
    rw [h.freeMapFile] at hf
    obtain ⟨i, hi, hwritable, hlength, hm⟩ := hs.file f hf
    have hfm : s.freeMapInode? = some i := by rw [Fs.freeMapInode?, hf]; exact hi
    refine ⟨i, by rw [h.inode?, hi], hwritable, by rw [h.bitCnt, hlength], ?_, hm.length_nonneg,
      hm.length_le, fun idx hidx => ?_⟩
    · rw [h.size]
      exact hm.owned.congr (h.ptr i hfm)
    · rw [slotOf_congr (h.ptr i hfm)]
      exact hm.covered idx hidx

theorem FreeMapOk.allocated (hs : FreeMapOk s) {r : Option Nat} (h : Allocated s r s') :
    FreeMapOk s' :=
  hs.mapFileKept h.toMapFileKept ((h.used _).mpr (Or.inl hs.header)) fun _ hk =>
    (h.used _).mpr (Or.inl (hs.ofFreeMap_used hk))

/-- A sector in use for anything but the free map. -/
def Fs.Taken (s : Fs) (k : Nat) : Prop := s.used k ∧ ¬ s.OfFreeMap k ∧ k ≠ freeMapSector

theorem FreeMapOk.released (hs : FreeMapOk s) (hk : s.Taken k) (h : Released s k s') :
    FreeMapOk s' := by
  refine hs.mapFileKept h.toMapFileKept ((h.used _).mpr ⟨hs.header, hk.2.2.symm⟩) fun j hj => ?_
  refine (h.used _).mpr ⟨hs.ofFreeMap_used hj, ?_⟩
  rintro rfl
  exact hk.2.1 hj

theorem MapWritten.mapChanged (h : MapWritten s s') : MapChanged s s' where
  rest := by
    refine h.rest.trans ?_
    rw [h.freeMap, h.history]
  size := h.size
  bitCnt := by rw [h.freeMap]
  view := h.view
  ptr := h.ptr

theorem MapFileKept.trans {s'' : Fs} (h : MapFileKept s s') (h' : MapFileKept s' s'') :
    MapFileKept s s'' where
  rest := by
    refine h'.rest.trans ?_
    rw [h.rest]
  size := h'.size.trans h.size
  bitCnt := h'.bitCnt.trans h.bitCnt
  ptr i hi x hx := (h'.ptr i (h.freeMapInode? ▸ hi) x hx).trans (h.ptr i hi x hx)

theorem MapChanged.trans {s'' : Fs} (h : MapChanged s s') (h' : MapChanged s' s'') :
    MapChanged s s'' where
  toMapFileKept := h.toMapFileKept.trans h'.toMapFileKept
  view k hk := (h'.view k fun hk' => hk (h.dataOfFreeMap.mp hk')).trans (h.view k hk)

/-- One bit of the free map is set. -/
theorem wp_setBit {E : Stop → Prop} {Q : Unit → Fs → Prop} {value : Bool}
    (hk : k < s.freeMap.bitCnt)
    (hQ : ∀ s', MapChanged s s' → s'.history = s.history →
      (∀ j, s'.used j ↔ if j = k then value = true else s.used j) → Q () s') :
    (setFreeMap fun b => b.setMultiple k 1 value).wp E Q s := by
  rw [setFreeMap, wp_modify]
  refine hQ _ ⟨⟨rfl, rfl, rfl, fun _ _ _ _ => rfl⟩, fun _ _ => rfl⟩ rfl fun j => ?_
  unfold Fs.used
  rw [Bitmap.setMultiple_one, Bitmap.bitCnt_set, Bitmap.test_set hk]
  split
  · next h => rw [h]; exact and_iff_right hk
  · rfl

theorem wp_modifyHistory {E : Stop → Prop} {Q : Unit → Fs → Prop} {f : History → History}
    (hQ : ∀ s', MapChanged s s' → s' = { s with history := f s.history } → Q () s') :
    (modifyHistory f).wp E Q s := by
  rw [modifyHistory, wp_modify]
  exact hQ _ ⟨⟨rfl, rfl, rfl, fun _ _ _ _ => rfl⟩, fun _ _ => rfl⟩ rfl

/-- **An allocation marks a free sector, or records that it is refused.** -/
theorem freeMapAllocateAt_spec (h : FreeMapOk s) (depth : Nat) :
    (freeMapAllocateAt 1 (depth + 1)).wp (OutOfMemory s.env) (fun r s' => Allocated s r s') s := by
  unfold freeMapAllocateAt
  rw [wp_bind, wp_gets]
  cases hscan : s.freeMap.scan 0 1 false with
  | none =>
    dsimp only
    rw [wp_bind, record]
    refine wp_modifyHistory fun s₁ h₁ he => ?_
    rw [wp_pure]
    subst he
    exact {
      toMapChanged := h₁
      used := fun k => by simp [Fs.used]
      fresh := fun k hk => by cases hk
      live := rfl
      events := rfl
      written := fun _ hw => hw rfl }
  | some k =>
    obtain ⟨hk, hfree⟩ := Bitmap.scan_one_some hscan
    have hnot : ¬ s.used k := fun hu => by rw [hu.2] at hfree; cases hfree
    dsimp only
    rw [wp_bind]
    refine wp_setBit hk fun s₁ h₁ hh₁ hu₁ => ?_
    have hused : ∀ j, s₁.used j ↔ s.used j ∨ some k = some j := by
      intro j
      rw [hu₁]
      by_cases hj : j = k
      · simp [hj]
      · simp [hj, Ne.symm hj]
    rw [wp_bind, wp_gets, h₁.freeMapFile]
    cases hf : s.freeMapFile with
    | none =>
      dsimp only
      rw [wp_pure]
      exact {
        toMapChanged := h₁
        used := hused
        fresh := fun j hj => by cases hj; exact hnot
        live := by rw [hh₁]
        events := by rw [hh₁]; rfl
        written := fun _ _ i hi => by
          rw [h₁.freeMapInode?, Fs.freeMapInode?, hf] at hi
          cases hi }
    | some f =>
      dsimp only
      rw [wp_bind]
      have hok₁ := h.mapFileKept h₁.toMapFileKept ((hused _).mpr (Or.inl h.header)) fun j hj =>
        (hused j).mpr (Or.inl (h.ofFreeMap_used hj))
      have hwrite := bitmapWriteWith_spec (freeMapAllocateAt 1 depth) hok₁
        (h₁.freeMapFile.trans hf)
      rw [h₁.env] at hwrite
      refine wp_mono hwrite (fun _ h => h) fun ok s₂ h₂ => ?_
      obtain ⟨hw, hwritten, hmem⟩ := h₂
      have h₁₂ := h₁.trans hw.mapChanged
      have hused₂ : ∀ j, s₂.used j ↔ s.used j ∨ some k = some j := by
        intro j
        rw [← hused j, Fs.used, Fs.used, hw.freeMap]
      cases ok with
      | true =>
        rw [if_pos rfl, wp_pure]
        exact {
          toMapChanged := h₁₂
          used := hused₂
          fresh := fun j hj => by cases hj; exact hnot
          live := by rw [hw.history, hh₁]
          events := by rw [hw.history, hh₁]; rfl
          written := fun _ _ => hwritten rfl }
      -- the bitmap could not be written, and the bit is cleared again
      | false =>
        rw [if_neg Bool.false_ne_true, wp_bind]
        refine wp_setBit (h₁₂.bitCnt ▸ hk) fun s₃ h₃ hh₃ hu₃ => ?_
        rw [wp_bind, record]
        refine wp_modifyHistory fun s₄ h₄ he => ?_
        rw [wp_pure]
        subst he
        exact {
          toMapChanged := h₁₂.trans (h₃.trans h₄)
          used := fun j => by
            refine (hu₃ j).trans ?_
            split
            · next hj => simp [hj, hnot]
            · next hj => simp [hused₂, Ne.symm hj]
          fresh := fun j hj => by cases hj
          live := by
            show s₃.history.live = _
            rw [hh₃, hw.history, hh₁]
          events := by
            show .refused :: s₃.history.events = _
            rw [hh₃, hw.history, hh₁]
            rfl
          written := fun hok => absurd (hmem hok) Bool.false_ne_true }

theorem freeMapAllocate_spec (h : FreeMapOk s) :
    freeMapAllocate.wp (OutOfMemory s.env) (fun r s' => Allocated s r s') s := by
  unfold freeMapAllocate
  rw [wp_bind, wp_gets]
  exact freeMapAllocateAt_spec h _

/-- An allocation is refused only if memory runs out or no sector is free. -/
theorem freeMapAllocate_some (h : FreeMapOk s) (hm : s.env.MemOk) (hk : k < s.freeMap.bitCnt)
    (hfree : ¬ s.used k) : freeMapAllocate.wp (fun _ => True) (fun r _ => r ≠ none) s := by
  unfold freeMapAllocate freeMapAllocateAt
  rw [wp_bind, wp_gets, wp_bind, wp_gets]
  cases hscan : s.freeMap.scan 0 1 false with
  | none => exact absurd ⟨hk, Bitmap.scan_one_none hscan hk⟩ hfree
  | some j =>
    have hj := (Bitmap.scan_one_some hscan).1
    dsimp only
    rw [wp_bind]
    refine wp_setBit hj fun s₁ h₁ _ hu₁ => ?_
    have hused : ∀ l, s.used l → s₁.used l := by
      intro l hl
      rw [hu₁]
      split
      · rfl
      · exact hl
    rw [wp_bind, wp_gets, h₁.freeMapFile]
    cases hf : s.freeMapFile with
    | none =>
      dsimp only
      rw [wp_pure]
      exact Option.some_ne_none j
    | some f =>
      dsimp only
      rw [wp_bind]
      have hok₁ := h.mapFileKept h₁.toMapFileKept (hused _ h.header) fun l hl =>
        hused l (h.ofFreeMap_used hl)
      have hwrite := bitmapWriteWith_spec (freeMapAllocateAt 1 s.freeMap.bitCnt) hok₁
        (h₁.freeMapFile.trans hf)
      refine wp_mono hwrite (fun _ _ => trivial) fun ok s₂ h₂ => ?_
      rw [h₁.env] at h₂
      rw [h₂.2.2 hm, if_pos rfl, wp_pure]
      exact Option.some_ne_none j

/-- **A release of a sector in use clears its bit.** -/
theorem freeMapRelease_spec (h : FreeMapOk s) {f : File} (hf : s.freeMapFile = some f)
    (hk : s.Taken k) :
    (freeMapRelease k).wp (OutOfMemory s.env) (fun _ s' => Released s k s') s := by
  unfold freeMapRelease
  rw [wp_bind, wp_gets, if_neg (Nat.not_le.mpr hk.1.1), Bitmap.all_one, hk.1.2,
    if_neg (by decide), wp_bind]
  refine wp_setBit hk.1.1 fun s₁ h₁ hh₁ hu₁ => ?_
  rw [wp_bind, modifyLive]
  refine wp_modifyHistory fun s₂ h₂ he₂ => ?_
  rw [wp_bind, wp_gets, h₂.freeMapFile, h₁.freeMapFile, hf]
  dsimp only
  rw [wp_bind, bitmapWrite]
  have h₁₂ := h₁.trans h₂
  have hused : ∀ j, s₂.used j ↔ s.used j ∧ j ≠ k := by
    intro j
    subst he₂
    refine (hu₁ j).trans ?_
    by_cases hj : j = k
    · simp [hj]
    · simp [hj]
  have hok₂ := h.mapFileKept h₁₂.toMapFileKept ((hused _).mpr ⟨h.header, hk.2.2.symm⟩) fun j hj =>
    (hused j).mpr ⟨h.ofFreeMap_used hj, fun he => hk.2.1 (he ▸ hj)⟩
  have hwrite := bitmapWriteWith_spec freeMapAllocate hok₂ (h₁₂.freeMapFile.trans hf)
  rw [h₁₂.env] at hwrite
  refine wp_mono hwrite (fun _ h => h) fun ok s₃ h₃ => ?_
  obtain ⟨hw, hwritten, hmem⟩ := h₃
  rw [wp_pure]
  subst he₂
  exact {
    toMapChanged := h₁₂.trans hw.mapChanged
    used := fun j => by rw [← hused j, Fs.used, Fs.used, hw.freeMap]
    live := by
      rw [hw.history]
      show s₁.history.live.erase k = _
      rw [hh₁]
    events := by
      rw [hw.history]
      show s₁.history.events = _
      rw [hh₁]
    written := fun hok => hwritten (hmem hok) }

/-- A release of any sector clears its bit, or fails. -/
theorem freeMapRelease_inPlace (h : InPlace s) (k : Nat) :
    (freeMapRelease k).wp (fun _ => True) (fun _ s' => MapFileKept s s' ∧ s.used k ∧
      ∀ j, s'.used j ↔ s.used j ∧ j ≠ k) s := by
  unfold freeMapRelease
  rw [wp_bind, wp_gets]
  split
  · exact wp_fail.mpr trivial
  next hlt =>
  rw [Bitmap.all_one]
  split
  · exact wp_fail.mpr trivial
  next htest =>
  have hk : s.used k := ⟨Nat.not_le.mp hlt, by simpa using htest⟩
  rw [wp_bind]
  refine wp_setBit hk.1 fun s₁ h₁ hh₁ hu₁ => ?_
  rw [wp_bind, modifyLive]
  refine wp_modifyHistory fun s₂ h₂ he₂ => ?_
  have h₁₂ := h₁.trans h₂
  have hused : ∀ j, s₂.used j ↔ s.used j ∧ j ≠ k := by
    intro j
    subst he₂
    refine (hu₁ j).trans ?_
    by_cases hj : j = k
    · simp [hj]
    · simp [hj]
  rw [wp_bind, wp_gets]
  cases hf : s₂.freeMapFile with
  | none => exact wp_fail.mpr trivial
  | some f =>
    dsimp only
    rw [wp_bind, bitmapWrite]
    have hwrite := (h.mapFileKept h₁₂.toMapFileKept).bitmapWriteWith freeMapAllocate hf
    refine wp_mono hwrite (fun _ _ => trivial) fun ok s₃ h₃ => ?_
    rw [wp_pure]
    refine ⟨(h₁₂.trans h₃.1.mapChanged).toMapFileKept, hk, fun j => ?_⟩
    rw [← hused j, Fs.used, Fs.used, h₃.1.freeMap]

end

end Pintos.Filesys
