import Pintos.Properties.FailedExtension

/-!
# Writing to a file

A write looks up its last byte. If that is not in the file, `inode_reserve` extends the file first
and the new length is assigned; then the bytes are written, chunk by chunk. `Extended` says what the
first part does and `Written` what the whole does, for an inode with sectors of its own.

The last byte of a write of no bytes lies in front of it. So does that of a write of a negative
size: where it is not in the file, the file gets a new length though nothing is written.
-/

namespace Pintos.Filesys

open Pintos.Logic Pintos.Logic.Exec Pintos.Lib

attribute [local irreducible] Exec.wp

variable {s s' : Fs} {a : Addr} {i : Inode} {disk data : Block} {length size : Int} {o : Nat}

/-! ## Files -/

/-- A header whose sectors reach up to its length. -/
structure Whole (v : Nat → Block) (disk : Block) : Prop where
  length_nonneg : 0 ≤ diskLength disk
  length_le : diskLength disk ≤ 8517120
  covered : ∀ idx : Nat, ((idx * 512 : Nat) : Int) < diskLength disk → slotOf v disk idx ≠ 0

/-- What is in reach stays there as long as no pointer is lost. -/
theorem Whole.congr {v v' : Nat → Block} (h : Whole v disk)
    (hl : diskLength data = diskLength disk)
    (hp : ∀ x, IsSlot x → ptr v disk x ≠ 0 → ptr v' data x ≠ 0) : Whole v' data where
  length_nonneg := hl ▸ h.length_nonneg
  length_le := hl ▸ h.length_le
  covered idx hidx := by
    have hne := h.covered idx (hl ▸ hidx)
    unfold slotOf at hne ⊢
    split at hne
    · next hlt =>
      rw [if_pos hlt]
      exact hp _ (isSlot_leafSlot hlt) hne
    · exact absurd rfl hne

theorem Whole.mapped {v : Nat → Block} (h : Whole v disk) {size : Nat}
    (ho : Owned IsSlot (· < size) (ptr v disk)) : Mapped size v disk :=
  ⟨ho, h.length_nonneg, h.length_le, h.covered⟩

/-- The open inode at `a` is not that of the free map, and its sectors are its own. -/
structure OpenFile (s : Fs) (a : Addr) (i : Inode) : Prop where
  freeMap : FreeMapOk s
  inode : s.inode? a = some i
  owned : Owned IsSlot s.Taken (ptr s.view i.data)
  whole : Whole s.view i.data
  header : s.Taken i.sector
  apart : ∀ x, IsSlot x → ptr s.view i.data x ≠ i.sector
  notMap : ∀ f, s.freeMapFile = some f → f.inode ≠ a

theorem OpenFile.mapped (h : OpenFile s a i) : Mapped s.size s.view i.data :=
  h.whole.mapped (h.owned.mono fun _ hk => h.freeMap.used_lt hk.1)

/-! ## Headers in memory -/

theorem inode?_mapInode_ne {b : Addr} {f : Inode → Inode} (hf : ∀ i, (f i).addr = i.addr)
    (hne : b ≠ a) : (s.mapInode a f).inode? b = s.inode? b := by
  have hpred : ((·.addr == b) ∘ fun i : Inode => if i.addr = a then f i else i) =
      (·.addr == b) := by
    funext j
    show (Inode.addr (if j.addr = a then f j else j) == b) = (j.addr == b)
    split
    · rw [hf]
    · rfl
  show (s.openInodes.map _).find? _ = s.openInodes.find? _
  rw [List.find?_map, hpred]
  cases hfind : s.openInodes.find? (·.addr == b) with
  | none => rfl
  | some j =>
    have hj : j.addr = b := by simpa using List.find?_some hfind
    rw [Option.map_some, if_neg (hj ▸ hne)]

/-- The free map file does not see what happens to another inode. -/
theorem freeMapInode?_mapInode {f : Inode → Inode} (hf : ∀ i, (f i).addr = i.addr)
    (hne : ∀ g, s.freeMapFile = some g → g.inode ≠ a) :
    (s.mapInode a f).freeMapInode? = s.freeMapInode? := by
  have hfile : (s.mapInode a f).freeMapFile = s.freeMapFile := rfl
  rw [Fs.freeMapInode?, Fs.freeMapInode?, hfile]
  cases hg : s.freeMapFile with
  | none => rfl
  | some g => exact inode?_mapInode_ne hf (hne g hg)

theorem FreeMapOk.mapInode (hs : FreeMapOk s) {f : Inode → Inode} (hf : ∀ i, (f i).addr = i.addr)
    (hne : ∀ g, s.freeMapFile = some g → g.inode ≠ a) : FreeMapOk (s.mapInode a f) where
  bitCnt := hs.bitCnt
  size_le := hs.size_le
  header := hs.header
  file g hg := by
    obtain ⟨i, hi, hfile⟩ := hs.file g hg
    refine ⟨i, (inode?_mapInode_ne hf (hne g hg)).trans hi, ?_⟩
    exact hfile.congr rfl (fun _ _ => rfl) fun x hx h0 => hfile.owned.ok x hx h0

theorem taken_mapInode {f : Inode → Inode} (hf : ∀ i, (f i).addr = i.addr)
    (hne : ∀ g, s.freeMapFile = some g → g.inode ≠ a) {j : Nat} :
    (s.mapInode a f).Taken j ↔ s.Taken j := by
  unfold Fs.Taken Fs.OfFreeMap
  rw [freeMapInode?_mapInode hf hne]
  rfl

theorem setData_setData (s : Fs) (a : Addr) (data data' : Block) :
    ((s.mapInode a fun i => { i with data }).mapInode a fun i => { i with data := data' }) =
      s.mapInode a fun i => { i with data := data' } := by
  unfold Fs.mapInode
  rw [List.map_map]
  congr 2
  funext i
  rw [Function.comp_apply]
  by_cases hi : i.addr = a
  · rw [if_pos hi, if_pos hi, if_pos hi]
  · rw [if_neg hi, if_neg hi]

/-- The slots of a file have been extended, and its header in memory with them. -/
theorem OpenFile.extended (h : OpenFile s a i)
    (he : Extends IsSlot IsLeaf (ptr s.view i.data) (ptr s'.view data) s s')
    (hrest : ∀ j, 125 ≤ j → data.word j = i.data.word j) :
    OpenFile (s'.mapInode a fun i => { i with data }) a { i with data } := by
  have haddr : ∀ j : Inode, ({ j with data } : Inode).addr = j.addr := fun _ => rfl
  have hmap : ∀ f, s'.freeMapFile = some f → f.inode ≠ a := fun f hf =>
    h.notMap f (he.freeMapFile ▸ hf)
  exact {
    freeMap := (h.freeMap.takes ⟨he.toMapFileKept, he.used⟩).mapInode haddr hmap
    inode := inode?_mapInode haddr ((he.inode? a).trans h.inode)
    owned := (he.owned h.owned).mono fun _ hk => (taken_mapInode haddr hmap).mpr hk
    whole := h.whole.congr (by rw [diskLength, diskLength, hrest 126 (by decide)])
      fun x hx hne => (he.pointers.keep x hx hne).trans_ne hne
    header := (taken_mapInode haddr hmap).mpr (he.toGrows.taken h.header)
    apart := fun x hx heq => by
      by_cases h0 : ptr s.view i.data x = 0
      · refine he.pointers.fresh x hx h0 ?_ (heq ▸ h.header.1)
        exact heq ▸ h.header.2.2
      · exact h.apart x hx ((he.pointers.keep x hx h0).symm.trans heq)
    notMap := hmap }

/-- Sectors that are not of the free map's file have been written. -/
theorem Stored.takes (hst : Stored s s') (hv : ∀ j, s.OfFreeMap j → s'.view j = s.view j) :
    Takes s s' where
  rest := by
    refine hst.rest.trans ?_
    rw [hst.freeMap, hst.history]
  size := hst.size
  bitCnt := by rw [hst.freeMap]
  ptr i hi x hx := ptr_congr (fun _ _ => rfl) (fun y hy _ hne j _ => by
    rw [hv _ ⟨hne, i, hi, y, hy, rfl⟩]) hx
  used j hj := by rwa [Fs.used, hst.freeMap]

theorem Takes.taken (h : Takes s s') {j : Nat} (hj : s.Taken j) : s'.Taken j :=
  ⟨h.used j hj.1, fun hm => hj.2.1 (h.ofFreeMap.mp hm), hj.2.2⟩

/-- The header of a file has been written, in memory and on the device. -/
theorem OpenFile.headerWritten (h : OpenFile s a i)
    (hst : Stored (s.mapInode a fun i => { i with data }) s')
    (hv : s'.view = Function.update s.view i.sector data)
    (hwords : ∀ j < 125, data.word j = i.data.word j) (hwhole : Whole s.view data) :
    OpenFile s' a { i with data } ∧
      ∀ x, IsSlot x → ptr s'.view data x = ptr s.view i.data x := by
  have haddr : ∀ j : Inode, ({ j with data } : Inode).addr = j.addr := fun _ => rfl
  have hother : ∀ j, j ≠ i.sector → s'.view j = s.view j := fun j hj => by
    rw [hv, Function.update_of_ne hj]
  have htakes := hst.takes fun j hj => hother j fun he => by
    have hm : s.OfFreeMap j := by
      unfold Fs.OfFreeMap at hj
      rwa [freeMapInode?_mapInode haddr h.notMap] at hj
    exact h.header.2.1 (he ▸ hm)
  have hptr : ∀ x, IsSlot x → ptr s'.view data x = ptr s.view i.data x := fun x hx =>
    ptr_congr hwords (fun y hy _ hne j _ => by rw [hother _ (h.apart y hy)]) hx
  have hdata : ∀ x, IsSlot x → ptr s.view data x = ptr s.view i.data x := fun x hx =>
    ptr_congr hwords (fun _ _ _ _ _ _ => rfl) hx
  have htaken : ∀ {j}, s.Taken j → s'.Taken j := fun hj =>
    htakes.taken ((taken_mapInode haddr h.notMap).mpr hj)
  refine ⟨?_, hptr⟩
  exact {
    freeMap := (h.freeMap.mapInode haddr h.notMap).takes htakes
    inode := (hst.inode? a).trans (inode?_mapInode haddr h.inode)
    owned := (h.owned.mono fun _ => htaken).congr hptr
    whole := hwhole.congr rfl fun x hx hne => by rwa [hptr x hx, ← hdata x hx]
    header := htaken h.header
    apart := fun x hx => hptr x hx ▸ h.apart x hx
    notMap := fun f hf => h.notMap f (hst.freeMapFile ▸ hf) }

/-! ## Lengths -/

theorem wrap32_range (n : Int) : -2147483648 ≤ wrap32 n ∧ wrap32 n < 2147483648 := by
  unfold wrap32
  omega

theorem diskLength_setDiskLength (disk : Block) (h0 : 0 ≤ length) (h : length < 2147483648) :
    diskLength (setDiskLength disk length) = length := by
  rw [diskLength, setDiskLength, Bytes.word_setWord_self _ (by decide) (by omega),
    wrap32_eq (by omega) (by omega)]
  omega

theorem word_setDiskLength (disk : Block) (length : Int) {j : Nat} (hj : j ≠ 126) :
    (setDiskLength disk length).word j = disk.word j := Bytes.word_setWord_ne _ hj

/-- More sectors than an inode has slots for are never reserved. -/
theorem length_le_of_bytesToSectors (h0 : 0 ≤ length) (h : length < 2147483648)
    (hle : bytesToSectors length ≤ 16635) : length ≤ 8517120 := by
  unfold bytesToSectors at hle
  simp only [blockSectorSize] at hle
  by_cases hbig : length + 511 < 2147483648
  · rw [show length + (((512 : Nat) : Int) - 1) = length + 511 by omega,
      wrap32_eq (by omega) (by omega), Int.tdiv_eq_ediv_of_nonneg (by omega)] at hle
    omega
  · have hwrap : wrap32 (length + (((512 : Nat) : Int) - 1)) = length + 511 - 4294967296 := by
      unfold wrap32
      omega
    rw [hwrap, show length + 511 - 4294967296 = -(4294967296 - 511 - length) by omega,
      Int.neg_tdiv, Int.tdiv_eq_ediv_of_nonneg (by omega)] at hle
    omega

/-- A header is given the length that its sectors have been reserved for. -/
theorem whole_setDiskLength {v : Nat → Block} (h0 : 0 ≤ length) (hlt : length < 2147483648)
    (hle : bytesToSectors length ≤ 16635)
    (hcov : ∀ idx < bytesToSectors length, slotOf v data idx ≠ 0) :
    Whole v (setDiskLength data length) := by
  have hlength := diskLength_setDiskLength data h0 hlt
  have hlong := length_le_of_bytesToSectors h0 hlt hle
  have hslots : ∀ idx, slotOf v (setDiskLength data length) idx = slotOf v data idx :=
    slotOf_congr fun x hx => ptr_congr (fun j hj => word_setDiskLength _ _ (by omega))
      (fun _ _ _ _ _ _ => rfl) hx
  refine ⟨hlength.symm ▸ h0, hlength.symm ▸ hlong, fun idx hidx => ?_⟩
  rw [hlength] at hidx
  rw [hslots]
  refine hcov idx ?_
  rw [bytesToSectors_eq h0 hlong]
  omega

/-! ## The rest of a header -/

theorem reserveEntries_rest (child : Nat → Nat → Kernel (Bool × Nat)) (unit todo : Nat) :
    ∀ (i num : Nat) (blk : Block), Returns (reserveEntries child unit todo i num blk) fun r =>
      ∀ j, i + todo ≤ j → r.2.word j = blk.word j := by
  induction todo with
  | zero => exact fun i num blk => .pure fun _ _ => rfl
  | succ todo ih =>
    intro i num blk
    refine .bind fun r => .ite (fun s => ?_) (.pure fun j hj => ?_)
    · refine wp_mono (ih (i + 1) (num - min num unit) (blk.setWord i r.2) s) (fun _ h => h)
        fun r' _ h j hj => ?_
      rw [h j (by omega), Bytes.word_setWord_ne _ (by omega)]
    · exact Bytes.word_setWord_ne _ (by omega)

/-- `inode_reserve` assigns to no word behind the pointers. -/
theorem inodeReserve_rest (alloc : Kernel (Option Nat)) (disk : Block) (length : Int) :
    Returns (inodeReserve alloc disk length) fun r => ∀ j, 125 ≤ j → r.2.word j = disk.word j := by
  intro s
  unfold inodeReserve
  rw [wp_ite, wp_pure, wp_bind]
  refine ⟨fun _ _ _ => rfl, fun _ => ?_⟩
  have hentries := reserveEntries_rest (fun entry _ => inodeReserveDirect alloc entry) 1
    (min (bytesToSectors length) directBlocksCount) 0
    (min (bytesToSectors length) directBlocksCount) disk s
  refine wp_mono hentries (fun _ h => h) fun r s₁ h₁ => ?_
  have hrest : ∀ j, 125 ≤ j → r.2.word j = disk.word j := fun j hj =>
    h₁ j (by
      have hle := Nat.min_le_right (bytesToSectors length) directBlocksCount
      simp only [directBlocksCount] at hle ⊢
      omega)
  have hset : ∀ (blk : Block), (∀ j, 125 ≤ j → blk.word j = disk.word j) → ∀ root entry,
      root < 125 → ∀ j, 125 ≤ j → (blk.setWord root entry).word j = disk.word j :=
    fun blk hblk root entry hr j hj => by rw [Bytes.word_setWord_ne _ (by omega), hblk j hj]
  have hall : ∀ b : Bool, Returns (Pure.pure (b, r.2) : Kernel (Bool × Block)) fun r =>
      ∀ j, 125 ≤ j → r.2.word j = disk.word j := fun b => .pure hrest
  have hindirect := fun entry => hset _ hrest indirectBlock entry (by decide)
  refine Returns.ite (hall false) (.ite (hall true) (.bind fun r₁ => ?_)) s₁
  refine .ite (.pure (hindirect _)) (.ite (.pure (hindirect _)) (.bind fun r₂ => .pure ?_))
  exact hset _ (hindirect _) _ _ (by decide)

/-! ## Extending a file -/

/-- There are sectors for a file of `length` bytes. -/
def Fits (s : Fs) (disk : Block) (length : Int) : Prop :=
  (empties s disk length).length ≤ s.free.card ∧ bytesToSectors length ≤ 16635

/-- A call of `inode_reserve` that fails for a length in range has been refused a sector. -/
def GivesUp (s : Fs) (disk : Block) (length : Int) (s' : Fs) : Prop :=
  0 ≤ length → bytesToSectors length ≤ 16635 →
    (.refused ∈ s'.history.events ∨ .indexRefused ∈ s'.history.events) ∧
    (s.env.MemOk → s.free.card < (empties s disk length).length)

/-- How a call of `inode_reserve` for `length` bytes ends: the file is extended, as far as there are
sectors. Where an index block is refused for want of memory, nothing is known. -/
def ReserveEnds (s : Fs) (disk : Block) (length : Int) (ok : Bool) (data : Block) (s' : Fs) :
    Prop :=
  (Extends IsSlot IsLeaf (ptr s.view disk) (ptr s'.view data) s s' ∧
    (ok = true → 0 ≤ length ∧ Fits s disk length ∧
      ∀ idx < bytesToSectors length, slotOf s'.view data idx ≠ 0) ∧
    (ok = false → GivesUp s disk length s')) ∨
  ¬ s.env.MemOk ∧ .indexRefused ∈ s'.history.events

theorem inodeReserve_ends (hs : FreeMapOk s) (ho : Owned IsSlot s.Taken (ptr s.view disk))
    (length : Int) :
    (inodeReserve freeMapAllocate disk length).wp (Starved s.env)
      (fun r s' => ReserveEnds s disk length r.1 r.2 s') s := by
  by_cases h0 : length < 0
  · unfold inodeReserve
    rw [if_pos h0, wp_pure]
    exact .inl ⟨.refl _ _ _ s, fun h => (by cases h), fun _ h => absurd h0 (Int.not_lt.mpr h)⟩
  have hempties : empties s disk length =
      missing (ptr s.view disk) (reservedSlots (bytesToSectors length)) := if_neg h0
  rw [(Logged.inodeReserve_erases disk length).wp_iff []]
  refine wp_mono (inodeReserve_outcome (Int.not_lt.mp h0) hs ho) (fun _ h => h) fun r t h => ?_
  obtain ⟨ok, hok, new, -, ⟨hg, -⟩ | hr⟩ := h
  · refine .inl ⟨hg.toExtends, fun hsuccess => ?_, fun hfail _ hle => ?_⟩
    · rw [hok, Bool.and_eq_true, decide_eq_true_eq] at hsuccess
      obtain ⟨rfl, hle⟩ := hsuccess
      refine ⟨Int.not_lt.mp h0, ⟨?_, hle⟩, fun idx hidx => ?_⟩
      · have hcard := hg.adds.card_free
        rw [hg.count rfl] at hcard
        rw [hempties]
        omega
      rw [slotOf, if_pos (by omega)]
      exact hg.filled rfl _ ((leafSlot_mem (by omega)).mpr hidx)
    · rw [hok, decide_eq_true hle, Bool.and_true] at hfail
      refine ⟨.inl (hg.refused hfail), fun hm => ?_⟩
      obtain ⟨-, x, hx, -⟩ := hg.stopped hfail hm
      exact hempties ▸ (List.getElem?_eq_some_iff.mp hx).1
  · by_cases hm : s.env.MemOk
    · obtain ⟨rfl, hex, -⟩ := hr.exhausted hm
      refine .inl ⟨hex.toExtends, fun h => (by rw [hok] at h; cases h), fun _ _ _ => ?_⟩
      obtain ⟨x, hx, -⟩ := hex.stopped
      exact ⟨.inr hr.recorded, fun _ => hempties ▸ (List.getElem?_eq_some_iff.mp hx).1⟩
    · exact .inr ⟨hm, hr.recorded⟩

/-- The file at `a` has been extended to `length` bytes, or as far as there were sectors. Its new
header is `data`. -/
inductive Extended (s : Fs) (a : Addr) (i : Inode) (length : Int) : Bool → Block → Fs → Prop where
  | done {s₁ s' : Fs} {data : Block}
    (extends_ : Extends IsSlot IsLeaf (ptr s.view i.data) (ptr s₁.view data) s s₁)
    (rest : ∀ j, 125 ≤ j → data.word j = i.data.word j) (nonneg : 0 ≤ length)
    (fits : Fits s i.data length)
    (covered : ∀ idx < bytesToSectors length, slotOf s₁.view data idx ≠ 0)
    (stored : Stored (s₁.mapInode a fun i => { i with data := setDiskLength data length }) s')
    (view : s'.view = Function.update s₁.view i.sector (setDiskLength data length)) :
    Extended s a i length true (setDiskLength data length) s'
  | failed {s₁ : Fs} {data : Block}
    (extends_ : Extends IsSlot IsLeaf (ptr s.view i.data) (ptr s₁.view data) s s₁)
    (rest : ∀ j, 125 ≤ j → data.word j = i.data.word j) (cause : GivesUp s i.data length s₁) :
    Extended s a i length false data (s₁.mapInode a fun i => { i with data })

theorem extend_spec (h : OpenFile s a i) (length : Int) :
    (extend freeMapAllocate a i length).wp (Starved s.env) (fun ok s' =>
      (∃ data, Extended s a i length ok data s') ∨
        ¬ s.env.MemOk ∧ .indexRefused ∈ s'.history.events) s := by
  have hspec := wp_and (inodeReserve_ends h.freeMap h.owned length)
    (inodeReserve_rest freeMapAllocate i.data length s)
  unfold extend
  rw [wp_bind]
  refine wp_mono hspec (fun _ h => h.1) fun r s₁ h₁ => ?_
  obtain ⟨ok, data⟩ := r
  obtain ⟨hends, hrest⟩ := h₁
  cases ok with
  | false =>
    dsimp only
    rw [if_neg Bool.false_ne_true, wp_bind, modifyInode, wp_modify, wp_pure]
    rcases hends with ⟨hext, -, hcause⟩ | hrefused
    · exact .inl ⟨data, .failed hext hrest (hcause rfl)⟩
    · exact .inr hrefused
  | true =>
    dsimp only
    rw [if_pos rfl, wp_bind, modifyInode, wp_modify, wp_bind]
    rcases hends with ⟨hext, hok, -⟩ | ⟨hm, hev⟩
    · obtain ⟨h0, hfits, hcov⟩ := hok rfl
      have hlt : i.sector < s₁.size := hext.size ▸ h.freeMap.used_lt h.header.1
      refine wp_writeSector hlt fun s₂ h₂ hv => (wp_pure _).mpr ?_
      exact .inl ⟨_, .done hext hrest h0 hfits hcov h₂ hv⟩
    · refine wp_mono (writeSector_steps events_loud.toWriting i.sector _ _)
        (fun e hle => ⟨hm, .inr (hle hev)⟩) fun _ s₂ hle => (wp_pure _).mpr ?_
      exact .inr ⟨hm, hle hev⟩

/-- The bytes of new sectors are zeros, as they were before in place of them. -/
theorem Extends.byteAt_eq {v : Nat → Block}
    (he : Extends IsSlot IsLeaf (ptr s.view disk) (ptr v data) s s') (hv : s'.view = v)
    (ho : Owned IsSlot s.Taken (ptr s.view disk)) (q : Nat) :
    byteAt v data q = byteAt s.view disk q := by
  subst hv
  unfold byteAt slotOf
  by_cases hq : q / 512 < 16635
  · rw [if_pos hq, if_pos hq]
    have hx := isSlot_leafSlot hq
    have hleaf := isLeaf_leafSlot (q / 512)
    by_cases h0 : ptr s.view disk (leafSlot (q / 512)) = 0
    · rw [if_pos h0]
      by_cases h1 : ptr s'.view data (leafSlot (q / 512)) = 0
      · rw [if_pos h1]
      · rw [if_neg h1, he.zero _ hx hleaf h0 h1, Bytes.byte_zeros]
    · have hkeep := he.pointers.keep _ hx h0
      rw [if_neg h0, if_neg (hkeep.trans_ne h0), he.leaf_view ho hx hleaf h0]
  · rw [if_neg hq, if_neg hq, if_pos rfl, if_pos rfl]

/-- An extension adds no byte but zeros to a file. -/
theorem Extended.file {ok : Bool} (h : OpenFile s a i) (he : Extended s a i length ok data s')
    (hlt : length < 2147483648) : OpenFile s' a { i with data } ∧
      diskLength data = (if ok then length else diskLength i.data) ∧
      ∀ q, byteAt s'.view data q = byteAt s.view i.data q := by
  cases he with
  | failed hext hrest hcause =>
    refine ⟨h.extended hext hrest, ?_, hext.byteAt_eq rfl h.owned⟩
    rw [if_neg Bool.false_ne_true, diskLength, diskLength, hrest 126 (by decide)]
  | @done s₁ _ data hext hrest h0 hfits hcov hst hv =>
    have hlength := diskLength_setDiskLength data h0 hlt
    have hfile := h.extended hext hrest
    have hwords : ∀ j < 125, (setDiskLength data length).word j = data.word j := fun j hj =>
      word_setDiskLength _ _ (by omega)
    obtain ⟨hfile', hptr⟩ := hfile.headerWritten ((setData_setData ..).symm ▸ hst) hv hwords
      (whole_setDiskLength h0 hlt hfits.2 hcov)
    refine ⟨hfile', by rw [if_pos rfl, hlength], fun q => ?_⟩
    rw [← hext.byteAt_eq rfl h.owned q]
    have hslot : slotOf s'.view (setDiskLength data length) (q / 512) =
        slotOf s₁.view data (q / 512) := slotOf_congr hptr _
    unfold byteAt
    rw [hslot]
    by_cases hz : slotOf s₁.view data (q / 512) = 0
    · rw [if_pos hz, if_pos hz]
    · rw [if_neg hz, if_neg hz, hv, Function.update_of_ne]
      unfold slotOf at hz ⊢
      split at hz
      · next hq =>
        rw [if_pos hq]
        exact hfile.apart _ (isSlot_leafSlot hq)
      · exact absurd rfl hz

/-! ## Writing -/

/-- The byte at `pos` is not in the file. -/
abbrev PastEnd (i : Inode) (pos : Int) : Prop := pos < 0 ∨ inodeLength i ≤ pos

/-- Sectors of data of a file have been written. -/
theorem OpenFile.overwritten (h : OpenFile s a i) (hst : Stored s s') {n : Nat}
    {src : Nat → UInt8} (hw : Overwritten s.view s'.view i.data o n src) : OpenFile s' a i := by
  have htakes : Takes s s' := hst.takes fun j hj => by
    by_contra hne
    obtain ⟨h0, q, -, -, hq⟩ := hw.frame j hne
    unfold slotOf at hq
    split at hq
    · next hlt => exact (h.owned.ok _ (isSlot_leafSlot hlt) (hq ▸ h0)).2.1 (hq ▸ hj)
    · exact h0 hq.symm
  have hptr := fun x (hx : IsSlot x) => hw.ptr_eq h.owned hx
  exact {
    freeMap := h.freeMap.takes htakes
    inode := (hst.inode? a).trans h.inode
    owned := (h.owned.mono fun _ hk => htakes.taken hk).congr hptr
    whole := h.whole.congr rfl fun x hx hne => (hptr x hx).trans_ne hne
    header := htakes.taken h.header
    apart := fun x hx => hptr x hx ▸ h.apart x hx
    notMap := fun f hf => h.notMap f (hst.freeMapFile ▸ hf) }

theorem OpenFile.looks (h : OpenFile s a i) (hl : Looks s s') : OpenFile s' a i := by
  have hw : Overwritten s.view s'.view i.data 0 0 fun _ => 0 := hl.view ▸ .none ..
  exact h.overwritten hl.toStored hw

/-- The steps of a write up to its loop. Nothing is known where an index block is refused for want
of memory. -/
theorem wp_inodeWriteAt {E : Stop → Prop} {Q : Int → Fs → Prop} {buffer : Nat → UInt8}
    {offset : Int} (h : OpenFile s a i) (hE : ∀ e, Starved s.env e → E e)
    (hdenied : i.denyWriteCnt ≠ 0 → Q 0 s)
    (hinside : i.denyWriteCnt = 0 → ¬ PastEnd i (wrap32 (offset + size - 1)) → ∀ s₁, Looks s s₁ →
      (writeLoop a buffer size.toNat size offset 0 false).wp E Q s₁)
    (hextended : i.denyWriteCnt = 0 → PastEnd i (wrap32 (offset + size - 1)) → ∀ ok data s₁,
      Extended s a i (wrap32 (offset + size)) ok data s₁ →
      (if ok then writeLoop a buffer size.toNat size offset 0 false else pure 0).wp E Q s₁)
    (hrefused : PastEnd i (wrap32 (offset + size - 1)) → ∀ r s', ¬ s.env.MemOk →
      .indexRefused ∈ s'.history.events → Q r s') :
    (inodeWriteAt a buffer size offset).wp E Q s := by
  unfold inodeWriteAt inodeWriteAtWith
  rw [wp_bind]
  refine wp_deref h.inode ?_
  by_cases hd : i.denyWriteCnt = 0
  · rw [if_neg (not_not_intro hd), wp_bind]
    by_cases hpast : PastEnd i (wrap32 (offset + size - 1))
    · rw [byteToSector, if_pos hpast, wp_pure, if_pos rfl, wp_bind]
      refine wp_mono (extend_spec h _) hE fun ok s₁ h₁ => ?_
      rcases h₁ with ⟨data, he⟩ | ⟨hm, hev⟩
      · exact hextended hd hpast ok data s₁ he
      · cases ok with
        | false => exact (wp_pure _).mpr (hrefused hpast 0 s₁ hm hev)
        | true =>
          exact wp_mono (writeLoop_steps events_loud.toWriting (events_loud.derefs _) _ _ _ _ _ _ s₁)
            (fun e hle => hE e ⟨hm, .inr (hle hev)⟩) fun r s' hle =>
              hrefused hpast r s' hm (hle hev)
    · obtain ⟨h0, hlt⟩ := not_or.mp hpast
      obtain ⟨pos, hpos⟩ := Int.eq_ofNat_of_zero_le (Int.not_lt.mp h0)
      rw [hpos] at hlt ⊢
      refine wp_mono (byteToSector_spec h.mapped) (fun e he => hE e ⟨he.2, .inl he.1⟩)
        fun k s₁ h₁ => ?_
      obtain ⟨hl, hk⟩ := h₁
      have hlt' : (pos : Int) < diskLength i.data := Int.not_le.mp hlt
      rw [if_pos hlt'] at hk
      have hsome : k ≠ noSector := by
        have hne := h.whole.covered (pos / 512) (by omega)
        have hsize := slotOf_lt_size h.mapped.owned hne
        have hle := h.freeMap.size_le
        simp only [noSector]
        omega
      rw [if_neg hsome, wp_bind, wp_pure, if_pos rfl]
      exact hinside hd hpast s₁ hl
  · rw [if_pos hd, wp_pure]
    exact hdenied hd

theorem writeLoop_file (h : OpenFile s a i) (buffer : Nat → UInt8) (size : Int) (o : Nat) :
    (writeLoop a buffer size.toNat size o 0 false).wp (Starved s.env) (fun r s' => Stored s s' ∧
      ∃ n : Nat, r = n ∧ WritePart s.env s.view s'.view i.data size o buffer n) s := by
  have hspec : (writeLoop a buffer size.toNat size o 0 false).wp _ _ s :=
    writeLoop_spec buffer size.toNat size o 0 false h.inode h.mapped (Nat.le_refl _)
  simp only [Nat.zero_add] at hspec
  exact wp_mono hspec (fun e he => ⟨he.2, .inl he.1⟩) fun _ _ h => h

/-- What a write of `size` bytes at `o` does to the file at `a`: the value returned, the new header
and the new state. -/
inductive Written (s : Fs) (a : Addr) (i : Inode) (buffer : Nat → UInt8) (size : Int) (o : Nat) :
    Int → Block → Fs → Prop where
  | denied (hd : i.denyWriteCnt ≠ 0) : Written s a i buffer size o 0 i.data s
  | inside {s' : Fs} {n : Nat} (hd : i.denyWriteCnt = 0) (hin : ¬ PastEnd i (wrap32 (o + size - 1)))
    (stored : Stored s s') (part : WritePart s.env s.view s'.view i.data size o buffer n) :
    Written s a i buffer size o n i.data s'
  | failed {s' : Fs} {data : Block} (hd : i.denyWriteCnt = 0)
    (hpast : PastEnd i (wrap32 (o + size - 1)))
    (extended : Extended s a i (wrap32 (o + size)) false data s') :
    Written s a i buffer size o 0 data s'
  | extended {s₁ s' : Fs} {data : Block} {n : Nat} (hd : i.denyWriteCnt = 0)
    (hpast : PastEnd i (wrap32 (o + size - 1)))
    (extended : Extended s a i (wrap32 (o + size)) true data s₁) (stored : Stored s₁ s')
    (part : WritePart s.env s₁.view s'.view data size o buffer n) :
    Written s a i buffer size o n data s'

theorem Extended.env {ok : Bool} (h : Extended s a i length ok data s') : s'.env = s.env := by
  cases h with
  | failed hext _ _ => exact hext.env
  | done hext _ _ _ _ hst _ => exact hst.env.trans hext.env

/-- **A write extends the file if it has to, and then writes.** -/
theorem inodeWriteAt_written (h : OpenFile s a i) (buffer : Nat → UInt8) (size : Int) (o : Nat) :
    (inodeWriteAt a buffer size o).wp (Starved s.env) (fun r s' =>
      (∃ data, Written s a i buffer size o r data s') ∨ PastEnd i (wrap32 (o + size - 1)) ∧
        ¬ s.env.MemOk ∧ .indexRefused ∈ s'.history.events) s := by
  refine wp_inodeWriteAt h (fun _ h => h) (fun hd => .inl ⟨_, .denied hd⟩)
    (fun hd hin s₁ hl => ?_) (fun hd hpast ok data s₁ he => ?_) fun hpast r s' hm hev =>
      .inr ⟨hpast, hm, hev⟩
  · have hloop := writeLoop_file (h.looks hl) buffer size o
    rw [hl.env, hl.view] at hloop
    refine wp_mono hloop (fun _ h => h) fun r s' h' => ?_
    obtain ⟨hst, n, rfl, hpart⟩ := h'
    exact .inl ⟨_, .inside hd hin (hl.toStored.trans hst) hpart⟩
  · cases ok with
    | false =>
      rw [if_neg Bool.false_ne_true, wp_pure]
      exact .inl ⟨data, .failed hd hpast he⟩
    | true =>
      rw [if_pos rfl]
      have hloop := writeLoop_file (he.file h (wrap32_range _).2).1 buffer size o
      rw [he.env] at hloop
      refine wp_mono hloop (fun _ h => h) fun r s' h' => ?_
      obtain ⟨hst, n, rfl, hpart⟩ := h'
      exact .inl ⟨data, .extended hd hpast he hst hpart⟩

/-- The file after a write: its new length and the bytes. -/
theorem Written.file {buffer : Nat → UInt8} {r : Int} (h : OpenFile s a i)
    (hw : Written s a i buffer size o r data s') : OpenFile s' a { i with data } ∧
      ∃ n : Nat, r = n ∧ ∀ q, byteAt s'.view data q =
        if o ≤ q ∧ q < o + n then buffer (q - o) else byteAt s.view i.data q := by
  have hnone : ∀ q, ¬ (o ≤ q ∧ q < o + 0) := fun q hq => by omega
  cases hw with
  | denied hd => exact ⟨h, 0, rfl, fun q => by rw [if_neg (hnone q)]⟩
  | inside hd hin hst hpart => exact ⟨h.overwritten hst hpart.1, _, rfl, hpart.1.bytes⟩
  | failed hd hpast he =>
    obtain ⟨hfile, -, hbytes⟩ := he.file h (wrap32_range _).2
    exact ⟨hfile, 0, rfl, fun q => by rw [if_neg (hnone q), hbytes]⟩
  | extended hd hpast he hst hpart =>
    obtain ⟨hfile, -, hbytes⟩ := he.file h (wrap32_range _).2
    exact ⟨hfile.overwritten hst hpart.1, _, rfl, fun q => by rw [hpart.1.bytes, hbytes]⟩

end Pintos.Filesys
