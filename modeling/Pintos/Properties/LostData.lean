import Pintos.Properties.Memory

/-!
# Writes that lose data

A write of no bytes at the start of a file truncates it: the byte in front of the file is looked up,
it is not in the file, and the file gets the length 0. A write of no bytes behind the end of a file
makes the file longer. So does a write that has memory to extend the file and then none for the
bounce buffer of its first sector. Other writes lose nothing.
-/

namespace Pintos.Filesys

open Pintos.Logic Pintos.Logic.Exec Pintos.Lib

attribute [local irreducible] Exec.wp

variable {s s' : Fs} {a : Addr} {i : Inode} {buffer : Nat → UInt8} {size : Int} {o : Nat}

/-- After a write at `o` that returns `r`, the file has what it had but for `r` bytes at `o`. -/
structure LosesNothing (s : Fs) (i : Inode) (o : Nat) (r : Int) (s' : Fs) (i' : Inode) : Prop where
  length_le : inodeLength i ≤ inodeLength i'
  bytes : ∀ q : Nat, (q : Int) < inodeLength i → ¬ (o ≤ q ∧ (q : Int) < o + r) →
    byteAt s'.view i'.data q = byteAt s.view i.data q
  nothing : r = 0 → inodeLength i' = inodeLength i

/-- The write loses nothing, whenever it returns. -/
def WritesSafely (s : Fs) (a : Addr) (i : Inode) (buffer : Nat → UInt8) (size : Int) (o : Nat) :
    Prop :=
  ∀ r s', inodeWriteAt a buffer size o s = .ok (r, s') →
    ∃ i', s'.inode? a = some i' ∧ LosesNothing s i o r s' i'

/-- `inode_reserve` has the sectors for a file of `length` bytes, and memory for each of its calls of
`malloc`. -/
structure Extensible (s : Fs) (disk : Block) (length : Int) : Prop where
  nonneg : 0 ≤ length
  fits : Fits s disk length
  supplied : Supplied (inodeReserve freeMapAllocate disk length) s

/-- An index block is refused to `inode_reserve` for want of memory. -/
def IndexRefused (s : Fs) (disk : Block) (length : Int) : Prop :=
  ∃ r s₁ new, inodeReserve freeMapAllocate disk length s = .ok (r, s₁) ∧ ¬ HadMemory s s₁ ∧
    s₁.history.events = new ++ s.history.events ∧ .indexRefused ∈ new

/-- A write without bytes to write that gives the file another length. -/
structure Resizes (s : Fs) (i : Inode) (size : Int) (o : Nat) : Prop where
  writable : i.denyWriteCnt = 0
  nonpos : size ≤ 0
  length : o + size = 0 ∧ 0 < inodeLength i ∨
    inodeLength i < o + size ∧ Extensible s i.data (o + size)

/-- A write that makes the file longer and then has no memory to write the first of its bytes. -/
structure Stretches (s : Fs) (i : Inode) (size : Int) (o : Nat) : Prop where
  writable : i.denyWriteCnt = 0
  pos : 0 < size
  past : PastEnd i (wrap32 (o + size - 1))
  extensible : Extensible s i.data (wrap32 (o + size))
  bounceless : ∀ r s₁, inodeReserve freeMapAllocate i.data (wrap32 (o + size)) s = .ok (r, s₁) →
    Bounceless s.env s₁.clock.mallocs size o

theorem Written.losesNothing {data : Block} {r : Int} (h : OpenFile s a i)
    (hw : Written s a i buffer size o r data s')
    (hlength : diskLength i.data ≤ diskLength data ∧
      (r = 0 → diskLength data = diskLength i.data)) :
    ∃ i', s'.inode? a = some i' ∧ LosesNothing s i o r s' i' := by
  obtain ⟨hfile, n, rfl, hbytes⟩ := hw.file h
  refine ⟨_, hfile.inode, hlength.1, fun q _ hq => ?_, hlength.2⟩
  rw [hbytes, if_neg]
  omega

/-! ## The extension -/

theorem FreeMapOk.given (h : FreeMapOk s) (mallocs : Nat → Bool) (events : List Event) :
    FreeMapOk (s.given mallocs events) :=
  ⟨h.bitCnt, h.size_le, h.header, fun f hf => (h.file f hf).imp fun _ hi =>
    ⟨hi.1, hi.2.congr rfl (fun _ _ => rfl) hi.2.owned.ok⟩⟩

/-- What a run does with other answers of `malloc` is what it does. -/
theorem Extends.of_given {ι α : Type} {dom leaf : ι → Prop} {f f' : ι → Nat} {x : Kernel α} {r : α}
    {mallocs : Nat → Bool} {events events' : List Event} (hrun : SameRun x s r s')
    (hm : s.env.MemOk → ∀ n, mallocs n = true)
    (h : Extends dom leaf f f' (s.given mallocs events) (s'.given mallocs events')) :
    Extends dom leaf f f' s s' := by
  obtain ⟨new, hnew, -⟩ := hrun.run
  exact {
    rest := by
      have hfile : s'.freeMapFile = s.freeMapFile := (congrArg Fs.freeMapFile h.rest :)
      have hopen : s'.openInodes = s.openInodes := (congrArg Fs.openInodes h.rest :)
      have hnext : s'.nextAddr = s.nextAddr := (congrArg Fs.nextAddr h.rest :)
      have hcwds : s'.cwds = s.cwds := (congrArg Fs.cwds h.rest :)
      have hcurrent : s'.current = s.current := (congrArg Fs.current h.rest :)
      rw [← hrun.env, ← hfile, ← hopen, ← hnext, ← hcwds, ← hcurrent]
    size := h.size
    bitCnt := h.bitCnt
    ptr := h.ptr
    used := h.used
    view := h.view
    live := h.live
    events := by
      show s.history.events ⊆ s'.history.events
      rw [hnew]
      exact List.subset_append_right new _
    written := fun hmem hw => h.written (hm hmem) hw
    pointers := h.pointers
    taken := h.taken
    zero := h.zero }

/-- How a call of `inode_reserve` ends that has returned. -/
theorem inodeReserve_run {disk data : Block} {length : Int} {ok : Bool} (hs : FreeMapOk s)
    (ho : Owned IsSlot s.Taken (ptr s.view disk))
    (hrun : inodeReserve freeMapAllocate disk length s = .ok ((ok, data), s'))
    (hidx : ¬ IndexRefused s disk length) :
    Extends IsSlot IsLeaf (ptr s.view disk) (ptr s'.view data) s s' ∧
      (ok = true → Extensible s disk length ∧
        ∀ idx < bytesToSectors length, slotOf s'.view data idx ≠ 0) ∧
      (ok = false → GivesUp s disk length s' ∧ ¬ Extensible s disk length) := by
  have hpays := inodeReserve_pays freeMapAllocate_pays disk length
  have hsame := hpays.own.same hrun
  obtain ⟨new, hnew, hgiven⟩ := hsame.run
  have hends : ∀ mallocs, AgreeOn s s' mallocs →
      ReserveEnds (s.given mallocs []) disk length ok data (s'.given mallocs (new ++ [])) := by
    intro mallocs hagree
    have hspec := inodeReserve_ends (hs.given mallocs []) ho length
    have hends := wp_ok hspec (hgiven mallocs [] hagree)
    exact hends
  have hmem : ∀ {e : Event}, e ∈ new ++ [] → e ∈ s'.history.events := fun he =>
    hnew ▸ List.mem_append_left _ (List.append_nil new ▸ he)
  by_cases hm : HadMemory s s'
  · -- the run is one in which memory never runs out
    have hworld : (s.given (fun _ => true) []).env.MemOk := fun _ => rfl
    obtain ⟨hext, hdone, hfailed⟩ := (hends _ fun n hlo hhi => (hm n hlo hhi).symm).resolve_right
      fun hr => hr.1 hworld
    refine ⟨hext.of_given hsame fun _ _ => rfl, fun hok => ?_, fun hok => ⟨fun h0 hle => ?_, fun hx => ?_⟩⟩
    · obtain ⟨h0, hfits, hcovered⟩ := hdone hok
      exact ⟨⟨h0, hfits, (supplied_iff hrun).mpr hm⟩, hcovered⟩
    · exact ⟨(hfailed hok h0 hle).1.imp hmem hmem, fun _ => (hfailed hok h0 hle).2 hworld⟩
    · exact absurd ((hfailed hok hx.nonneg hx.fits.2).2 hworld) (Nat.not_lt.mpr hx.fits.1)
  · -- memory was refused, but not to an index block
    have hnot : .indexRefused ∉ new ++ [] := fun he =>
      hidx ⟨_, _, new, hrun, hm, hnew, List.append_nil new ▸ he⟩
    obtain ⟨hext, -, hfailed⟩ := (hends _ fun _ _ _ => rfl).resolve_right fun hr => hnot hr.2
    refine ⟨hext.of_given hsame id, fun hok => ?_, fun hok => ⟨fun h0 hle => ?_, fun hx => ?_⟩⟩
    · exact absurd (hpays.memory _ _ _ (hgiven s.env.mallocs [] fun _ _ _ => rfl) hok)
        (not_or.mpr ⟨hm, hnot⟩)
    · exact (hfailed hok h0 hle).imp_left fun hev => hev.imp hmem hmem
    · exact hm ((supplied_iff hrun).mp hx.supplied)

theorem extend_run {length : Int} {ok : Bool} {data : Block} (h : OpenFile s a i)
    (hrun : inodeReserve freeMapAllocate i.data length s = .ok ((ok, data), s'))
    (hidx : ¬ IndexRefused s i.data length) :
    (extend freeMapAllocate a i length).wp (fun _ => False) (fun ready s'' =>
      ready = ok ∧ s''.clock.mallocs = s'.clock.mallocs ∧
        ∃ data, Extended s a i length ok data s'') s := by
  obtain ⟨hext, hdone, hfailed⟩ := inodeReserve_run h.freeMap h.owned hrun hidx
  have hrest := wp_ok (inodeReserve_rest freeMapAllocate i.data length s) hrun
  unfold extend
  rw [wp_bind]
  refine wp_of_run hrun ?_
  cases ok with
  | false =>
    dsimp only
    rw [if_neg Bool.false_ne_true, wp_bind, modifyInode, wp_modify, wp_pure]
    exact ⟨rfl, rfl, data, .failed hext hrest (hfailed rfl).1⟩
  | true =>
    obtain ⟨hx, hcovered⟩ := hdone rfl
    dsimp only
    rw [if_pos rfl, wp_bind, modifyInode, wp_modify, wp_bind]
    have hlt : i.sector < s'.size := hext.size ▸ h.freeMap.used_lt h.header.1
    have hwrite : (writeSector i.sector (setDiskLength data length)).wp (fun _ => False)
        (fun _ s'' => Stored _ s'' ∧ s''.view = _) (s'.mapInode a fun i =>
          { i with data := setDiskLength data length }) :=
      wp_writeSector hlt fun _ h₂ hv => ⟨h₂, hv⟩
    refine wp_mono (wp_and hwrite (writeSector_clock i.sector _ _)) (fun _ he => he.1)
      fun _ s₂ h₂ => (wp_pure _).mpr ?_
    exact ⟨rfl, h₂.2, _, .done hext hrest hx.nonneg hx.fits hcovered h₂.1.1 h₂.1.2⟩

/-- An empty file can always be extended to no bytes. -/
theorem inodeReserve_zero (alloc : Kernel (Option Nat)) (disk : Block) (s : Fs) :
    inodeReserve alloc disk 0 s = .ok ((true, disk), s) := by
  have h : bytesToSectors 0 = 0 := by
    rw [bytesToSectors_eq (by decide) (by decide)]
    rfl
  unfold inodeReserve
  rw [if_neg (Int.lt_irrefl 0), h]
  rfl

theorem extensible_zero (s : Fs) (disk : Block) : Extensible s disk 0 where
  nonneg := Int.le_refl 0
  fits := by
    have h : bytesToSectors 0 = 0 := by
      rw [bytesToSectors_eq (by decide) (by decide)]
      rfl
    have hempties : empties s disk 0 = [] := by
      rw [empties, if_neg (by decide), h]
      rfl
    exact ⟨hempties ▸ Nat.zero_le _, h ▸ Nat.zero_le _⟩
  supplied := ⟨_, s, inodeReserve_zero freeMapAllocate disk s, fun _ hlo hhi =>
    absurd hlo (Nat.not_le.mpr hhi)⟩

/-! ## Writes past the end of the file -/

/-- There is one run to look at. -/
theorem writesSafely_of_run {r : Int} (hrun : inodeWriteAt a buffer size o s = .ok (r, s')) :
    WritesSafely s a i buffer size o ↔
      ∃ i', s'.inode? a = some i' ∧ LosesNothing s i o r s' i' := by
  refine ⟨fun h => h r s' hrun, fun h r' s'' hrun' => ?_⟩
  obtain ⟨rfl, rfl⟩ := Prod.mk.inj (Except.ok.inj (hrun.symm.trans hrun'))
  exact h

/-- The file is extended first. -/
theorem inodeWriteAt_past (h : OpenFile s a i) (hd : i.denyWriteCnt = 0)
    (hpast : PastEnd i (wrap32 (o + size - 1))) :
    inodeWriteAt a buffer size o s = (extend freeMapAllocate a i (wrap32 (o + size)) >>= fun ready =>
      if ready then writeLoop a buffer size.toNat size o 0 false else pure 0) s := by
  have hderef : deref a s = .ok (i, s) := by
    unfold deref
    rw [h.inode]
  unfold inodeWriteAt inodeWriteAtWith
  rw [run_bind hderef, if_neg (not_not_intro hd), byteToSector, if_pos hpast]
  rfl

theorem Resizes.extensible (hn : Resizes s i size o) (hsize : -2147483648 ≤ size)
    (ho : o < 2147483648) : Extensible s i.data (wrap32 (o + size)) := by
  have hnonpos := hn.nonpos
  rw [wrap32_eq (by omega) (by omega)]
  rcases hn.length with ⟨h0, -⟩ | ⟨-, hx⟩
  · exact h0 ▸ extensible_zero s i.data
  · exact hx

theorem resizes_iff (h : OpenFile s a i) (hd : i.denyWriteCnt = 0)
    (hpast : PastEnd i (wrap32 (o + size - 1))) (hsize : -2147483648 ≤ size) (hnonpos : size ≤ 0)
    (ho : o < 2147483648) (hx : Extensible s i.data (wrap32 (o + size))) :
    Resizes s i size o ↔ wrap32 (o + size) ≠ inodeLength i := by
  have hlength := h.whole.length_nonneg
  have h0 := hx.nonneg
  rw [wrap32_eq (by omega) (by omega)] at hx h0 ⊢
  have hpast : wrap32 (o + size - 1) < 0 ∨ inodeLength i ≤ wrap32 (o + size - 1) := hpast
  rw [wrap32_eq (by omega) (by omega)] at hpast
  have hlength : 0 ≤ inodeLength i := hlength
  refine ⟨fun hn => ?_, fun hne => ⟨hd, hnonpos, ?_⟩⟩
  · rcases hn.length with ⟨hz, hlt⟩ | ⟨hlt, -⟩
    · omega
    · exact hlt.ne'
  · rcases h0.eq_or_lt with hz | hpos
    · exact .inl ⟨hz.symm, by omega⟩
    · exact .inr ⟨by omega, hx⟩

section Past

variable {data : Block} (h : OpenFile s a i) (hd : i.denyWriteCnt = 0)
  (hpast : PastEnd i (wrap32 (o + size - 1)))

include h hd hpast

/-- A write whose extension fails changes nothing of the file. -/
theorem writesSafely_failed
    (hextend : extend freeMapAllocate a i (wrap32 (o + size)) s = .ok (false, s'))
    (he : Extended s a i (wrap32 (o + size)) false data s') :
    WritesSafely s a i buffer size o := by
  have hrun : inodeWriteAt a buffer size o s = .ok (0, s') := by
    rw [inodeWriteAt_past h hd hpast, run_bind hextend]
    rfl
  have hlength := (he.file h (wrap32_range _).2).2.1
  rw [if_neg Bool.false_ne_true] at hlength
  have hw : Written s a i buffer size o 0 data s' := .failed hd hpast he
  exact (writesSafely_of_run hrun).mpr (hw.losesNothing h ⟨hlength.ge, fun _ => hlength⟩)

/-- A write without bytes to write that extends the file is safe if it leaves the length. -/
theorem writesSafely_nothing (hnonpos : size ≤ 0)
    (hextend : extend freeMapAllocate a i (wrap32 (o + size)) s = .ok (true, s'))
    (he : Extended s a i (wrap32 (o + size)) true data s') :
    WritesSafely s a i buffer size o ↔ wrap32 (o + size) = inodeLength i := by
  have hrun : inodeWriteAt a buffer size o s = .ok (0, s') := by
    rw [inodeWriteAt_past h hd hpast, run_bind hextend, if_pos rfl, Int.toNat_of_nonpos hnonpos]
    rfl
  obtain ⟨hfile, hlength, -⟩ := he.file h (wrap32_range _).2
  rw [if_pos rfl] at hlength
  rw [writesSafely_of_run hrun]
  constructor
  · rintro ⟨i', hi', hloses⟩
    obtain rfl := Option.some_inj.mp (hi'.symm.trans hfile.inode)
    exact hlength.symm.trans (hloses.nothing rfl)
  · intro heq
    have hpart : WritePart s.env s'.view s'.view data size o buffer 0 :=
      writePart_none fun _ => reach_of_size hnonpos
    have hw : Written s a i buffer size o 0 data s' := .extended hd hpast he (.refl s') hpart
    have hsame := hlength.trans heq
    exact hw.losesNothing h ⟨hsame.ge, fun _ => hsame⟩

/-- A write with bytes to write that extends the file is safe if it writes one. -/
theorem writesSafely_bytes (hpos : 0 < size) (hsize : size < 2147483648) (ho : o < 2147483648)
    (hextend : extend freeMapAllocate a i (wrap32 (o + size)) s = .ok (true, s'))
    (he : Extended s a i (wrap32 (o + size)) true data s') :
    WritesSafely s a i buffer size o ↔ ¬ Bounceless s.env s'.clock.mallocs size o := by
  have hstart : inodeWriteAt a buffer size o s = writeLoop a buffer size.toNat size o 0 false s' := by
    rw [inodeWriteAt_past h hd hpast, run_bind hextend]
    rfl
  obtain ⟨hfile, hlength, -⟩ := he.file h (wrap32_range _).2
  rw [if_pos rfl] at hlength
  -- the sum does not wrap, for then there would be no extension
  have hsum : wrap32 (o + size) = o + size := by
    have h0 : 0 ≤ wrap32 (o + size) := by
      cases he with
      | done _ _ h0 _ _ _ _ => exact h0
    refine wrap32_eq (by omega) ?_
    unfold wrap32 at h0
    omega
  have hlonger : inodeLength i < diskLength data := by
    have hpast : wrap32 (o + size - 1) < 0 ∨ inodeLength i ≤ wrap32 (o + size - 1) := hpast
    have hlt := (wrap32_range (o + size)).2
    rw [hsum] at hlt
    rw [wrap32_eq (by omega) (by omega)] at hpast
    omega
  have hfirst := writeLoop_first hfile buffer hpos (hsum.symm.trans hlength.symm).le
  have hloop := wp_and hfirst (writeLoop_file hfile buffer size o)
  rw [he.env] at hloop
  by_cases hb : Bounceless s.env s'.clock.mallocs size o
  · refine iff_of_false (fun hsafe => ?_) (not_not_intro hb)
    obtain ⟨r, s'', hrun, hr, hst, -⟩ :=
      wp_returns (wp_mono hloop (fun _ hn => hn.1 hb) fun _ _ h => h)
    obtain ⟨i', hi', hloses⟩ := hsafe r s'' (hstart.trans hrun)
    have hinode := (hst.inode? a).trans hfile.inode
    obtain rfl := Option.some_inj.mp (hi'.symm.trans hinode)
    exact hlonger.ne' (hloses.nothing (hr.mpr hb))
  · refine iff_of_true (fun r s'' hrun => ?_) hb
    obtain ⟨hr, hst, n, rfl, hpart⟩ := wp_ok hloop (hstart.symm.trans hrun)
    have hw : Written s a i buffer size o n data s'' := .extended hd hpast he hst hpart
    exact hw.losesNothing h ⟨hlonger.le, fun h0 => absurd (hr.mp h0) hb⟩

end Past

/-- A write past the end of the file. -/
theorem writesSafely_past (h : OpenFile s a i) (buffer : Nat → UInt8) (hsize : -2147483648 ≤ size)
    (hsize' : size < 2147483648) (ho : o < 2147483648) (hd : i.denyWriteCnt = 0)
    (hpast : PastEnd i (wrap32 (o + size - 1)))
    (hidx : ¬ IndexRefused s i.data (wrap32 (o + size))) :
    WritesSafely s a i buffer size o ↔ ¬ Resizes s i size o ∧ ¬ Stretches s i size o := by
  cases hreserve : inodeReserve freeMapAllocate i.data (wrap32 (o + size)) s with
  | error e =>
    have hnot : ¬ Extensible s i.data (wrap32 (o + size)) := fun hx => by
      obtain ⟨r, s₁, hrun, -⟩ := hx.supplied
      rw [hreserve] at hrun
      cases hrun
    have hrun : inodeWriteAt a buffer size o s = .error e := by
      rw [inodeWriteAt_past h hd hpast]
      exact run_bind_error (run_bind_error hreserve)
    refine iff_of_true (fun r s' hrun' => ?_)
      ⟨fun hn => hnot (hn.extensible hsize ho), fun hn => hnot hn.extensible⟩
    rw [hrun] at hrun'
    cases hrun'
  | ok r =>
    obtain ⟨⟨ok, data₁⟩, s₁⟩ := r
    obtain ⟨-, hdone, hfailed⟩ := inodeReserve_run h.freeMap h.owned hreserve hidx
    obtain ⟨ready, s₂, hextend, rfl, hclock, data, he⟩ := wp_returns (extend_run h hreserve hidx)
    cases ready with
    | false =>
      have hnot := (hfailed rfl).2
      exact iff_of_true (writesSafely_failed h hd hpast hextend he)
        ⟨fun hn => hnot (hn.extensible hsize ho), fun hn => hnot hn.extensible⟩
    | true =>
      have hx := (hdone rfl).1
      rcases Int.lt_or_le 0 size with hpos | hnonpos
      · rw [writesSafely_bytes h hd hpast hpos hsize' ho hextend he, hclock]
        refine ⟨fun hb => ⟨fun hn => ?_, fun hn => hb (hn.bounceless _ _ hreserve)⟩, fun hn hb => ?_⟩
        · exact absurd hn.nonpos (Int.not_le.mpr hpos)
        · refine hn.2 ⟨hd, hpos, hpast, hx, fun r s₁' hrun => ?_⟩
          rw [hreserve] at hrun
          cases hrun
          exact hb
      · rw [writesSafely_nothing h hd hpast hnonpos hextend he,
          resizes_iff h hd hpast hsize hnonpos ho hx, not_not]
        exact ⟨fun heq => ⟨heq, fun hn => absurd hn.pos (Int.not_lt.mpr hnonpos)⟩, And.left⟩

/-! ## All writes -/

/-- A write that is denied changes nothing. -/
theorem writesSafely_denied (h : s.inode? a = some i) (hd : i.denyWriteCnt ≠ 0) :
    WritesSafely s a i buffer size o := by
  have hderef : deref a s = .ok (i, s) := by
    unfold deref
    rw [h]
  have hrun : inodeWriteAt a buffer size o s = .ok (0, s) := by
    unfold inodeWriteAt inodeWriteAtWith
    rw [run_bind hderef, if_pos hd]
    rfl
  exact (writesSafely_of_run hrun).mpr
    ⟨i, h, Int.le_refl _, fun _ _ _ => rfl, fun _ => rfl⟩

/-- A write in the file keeps its length. -/
theorem writesSafely_inside (h : OpenFile s a i) (hin : ¬ PastEnd i (wrap32 (o + size - 1))) :
    WritesSafely s a i buffer size o := by
  intro r s' hrun
  have hwritten := wp_ok (inodeWriteAt_written h buffer size o) hrun
  obtain ⟨data, hw⟩ := hwritten.resolve_right fun hr => hin hr.1
  have hlength : diskLength data = diskLength i.data := by
    cases hw with
    | denied _ => rfl
    | inside _ _ _ _ => rfl
    | failed _ hpast _ => exact absurd hpast hin
    | extended _ hpast _ _ _ => exact absurd hpast hin
  exact hw.losesNothing h ⟨hlength.ge, fun _ => hlength⟩

theorem Resizes.past (hn : Resizes s i size o)
    (ho : o < 2147483648) : PastEnd i (wrap32 (o + size - 1)) := by
  have hnonpos := hn.nonpos
  have h0 : 0 ≤ o + size := by
    rcases hn.length with ⟨hz, -⟩ | ⟨-, hx⟩
    · exact hz.ge
    · exact hx.nonneg
  rw [PastEnd, wrap32_eq (by omega) (by omega)]
  rcases hn.length with ⟨hz, -⟩ | ⟨hlt, -⟩
  · exact .inl (by omega)
  · exact .inr (by omega)

/-- **A write loses no data but where it has none to write and gives the file another length, or
makes the file longer and has no memory to write.** It is left out what a write past the end does
once an index block has been refused to it for want of memory. -/
theorem writesSafely_iff (h : OpenFile s a i) (buffer : Nat → UInt8) (hsize : -2147483648 ≤ size)
    (hsize' : size < 2147483648) (ho : o < 2147483648) :
    (i.denyWriteCnt ≠ 0 ∨ ¬ PastEnd i (wrap32 (o + size - 1)) →
      WritesSafely s a i buffer size o) ∧
      (¬ IndexRefused s i.data (wrap32 (o + size)) →
        (WritesSafely s a i buffer size o ↔ ¬ Resizes s i size o ∧ ¬ Stretches s i size o)) := by
  have hstill : i.denyWriteCnt ≠ 0 ∨ ¬ PastEnd i (wrap32 (o + size - 1)) →
      WritesSafely s a i buffer size o := by
    rintro (hd | hin)
    · exact writesSafely_denied h.inode hd
    · exact writesSafely_inside h hin
  refine ⟨hstill, fun hidx => ?_⟩
  by_cases hd : i.denyWriteCnt = 0
  · by_cases hpast : PastEnd i (wrap32 (o + size - 1))
    · exact writesSafely_past h buffer hsize hsize' ho hd hpast hidx
    · exact iff_of_true (hstill (.inr hpast))
        ⟨fun hn => hpast (hn.past ho), fun hn => hpast hn.past⟩
  · exact iff_of_true (hstill (.inl hd)) ⟨fun hn => hd hn.writable, fun hn => hd hn.writable⟩

theorem Env.MemOk.hadMemory (hm : s.env.MemOk) : HadMemory s s' := fun n _ _ => hm n

/-- A file of one byte. Its header is in sector 3, its data in sector 4. -/
def byteFile : Inode where
  addr := 1
  sector := 3
  openCnt := 1
  removed := false
  denyWriteCnt := 0
  data := setDiskLength (Bytes.zeros.setWord 0 4) 1

/-- The small device with the file of one byte, open. -/
def byteFs : Fs := { smallFs 16 with
  freeMap := ((smallFs 16).freeMap.set 3 true).set 4 true
  openInodes := [smallInode 16, byteFile]
  nextAddr := 2 }

theorem byteFs_used {k : Nat} : byteFs.used k ↔ k < 5 := by
  have hsmall := smallFs_used (k := k) (show 2 < 16 by decide)
  have htest : byteFs.freeMap.test k = if k = 4 then true else if k = 3 then true else
      (smallFs 16).freeMap.test k := by
    unfold byteFs
    rw [Bitmap.test_set (by decide), Bitmap.test_set (by decide)]
  show k < 16 ∧ byteFs.freeMap.test k = true ↔ k < 5
  have hsmall : k < 16 ∧ (smallFs 16).freeMap.test k = true ↔ k < 3 := hsmall
  rw [htest]
  by_cases h4 : k = 4
  · rw [if_pos h4, eq_self, and_true]
    omega
  · by_cases h3 : k = 3
    · rw [if_neg h4, if_pos h3, eq_self, and_true]
      omega
    · rw [if_neg h4, if_neg h3, hsmall]
      omega

theorem byteFile_word {r : Nat} (hr : r < 125) : byteFile.data.word r = if r = 0 then 4 else 0 := by
  rw [byteFile, word_setDiskLength _ _ (by omega), Bytes.word_setWord _ (by decide) (by decide),
    Bytes.word_zeros]

theorem byteFile_length : diskLength byteFile.data = 1 :=
  diskLength_setDiskLength _ (by decide) (by decide)

theorem byteFs_freeMap : FreeMapOk byteFs := by
  have hs := smallFs_freeMap 16 (by decide) (by decide)
  have hused : ∀ k, (smallFs 16).used k → byteFs.used k := fun k hk =>
    byteFs_used.mpr (Nat.lt_of_lt_of_le ((smallFs_used (by decide)).mp hk) (by decide))
  refine ⟨rfl, hs.size_le, hused _ hs.header, fun f hf => ?_⟩
  obtain ⟨i, hi, hfile⟩ := hs.file f hf
  have hf : f = { inode := 0, pos := 0, denyWrite := false } := (Option.some.inj hf).symm
  subst hf
  have hi : some (smallInode 16) = some i := hi
  cases hi
  exact ⟨smallInode 16, rfl,
    hfile.congr rfl (fun _ _ => rfl) fun x hx hne => hused _ (hfile.owned.ok x hx hne)⟩

theorem byteFs_taken {k : Nat} (h3 : 3 ≤ k) (h5 : k < 5) : byteFs.Taken k := by
  refine ⟨byteFs_used.mpr h5, fun hm => ?_, fun h0 => ?_⟩
  · obtain ⟨h0, i, hi, x, hx, he⟩ := hm
    have hi : some (smallInode 16) = some i := hi
    cases hi
    have htwo := (smallMap_ptr 16 byteFs.view hx (he.trans_ne h0)).2
    have he : ptr byteFs.view (smallMap 16) x = k := he
    omega
  · rw [freeMapSector] at h0
    omega

theorem byteFs_openFile : OpenFile byteFs 1 byteFile where
  freeMap := byteFs_freeMap
  inode := rfl
  owned := by
    have hptr := fun x hx => ptr_of_single (fun _ => byteFile_word) byteFs.view (x := x) hx
    refine ⟨fun x hx hne => ?_, fun x y hx hy hne he => ?_⟩
    · exact (hptr x hx hne).2 ▸ byteFs_taken (by decide) (by decide)
    · rw [(hptr x hx hne).1, (hptr y hy fun h0 => hne (he.trans h0)).1]
  whole := {
    length_nonneg := byteFile_length.symm ▸ Int.zero_le_ofNat 1
    length_le := byteFile_length.symm ▸ (by decide)
    covered := fun idx hidx => by
      have hidx : ((idx * 512 : Nat) : Int) < 1 := byteFile_length ▸ hidx
      obtain rfl : idx = 0 := by omega
      show byteFile.data.word 0 ≠ 0
      rw [byteFile_word (by decide)]
      decide }
  header := byteFs_taken (Nat.le_refl 3) (show 3 < 5 by decide)
  apart x hx h3 := by
    have hptr := ptr_of_single (fun _ => byteFile_word) byteFs.view hx
    have h4 := (hptr (h3.trans_ne (by decide))).2
    exact absurd (h4.symm.trans h3) (by decide)
  notMap f hf := by
    have hf : f = { inode := 0, pos := 0, denyWrite := false } := (Option.some.inj hf).symm
    rw [hf]
    decide

/-- A byte is written behind the one that is there. -/
theorem writesSafely_one : WritesSafely byteFs 1 byteFile (fun _ => 65) 1 1 := by
  have hsafely := (writesSafely_iff byteFs_openFile (fun _ => 65)
    (show (-2147483648 : Int) ≤ 1 by decide) (by decide) (show 1 < 2147483648 by decide)).2
  have hmem : byteFs.env.MemOk := fun _ => rfl
  refine (hsafely ?_).mpr ⟨fun hn => absurd hn.nonpos (by decide), fun hn => ?_⟩
  · rintro ⟨r, s₁, new, -, hnot, -⟩
    exact hnot hmem.hadMemory
  · obtain ⟨r, s₁, hrun, -⟩ := hn.extensible.supplied
    have hrefused := (hn.bounceless r s₁ hrun).2
    rw [BounceRefused, if_pos (by decide)] at hrefused
    exact absurd (hmem _) (by rw [hrefused]; decide)

/-- A write of nothing at the start of the file leaves nothing of it. -/
theorem write_truncates : ¬ ∀ s a i buffer size o, OpenFile s a i → -2147483648 ≤ size →
    size < 2147483648 → o < 2147483648 → s.env.MemOk → WritesSafely s a i buffer size o := by
  intro hall
  have hsafe : WritesSafely byteFs 1 byteFile (fun _ => 0) 0 0 :=
    hall _ _ _ _ _ _ byteFs_openFile (by decide) (by decide) (by decide) fun _ => rfl
  have hlength : inodeLength byteFile = 1 := byteFile_length
  have hpast : PastEnd byteFile (wrap32 ((0 : Nat) + 0 - 1)) :=
    .inl (by rw [wrap32_eq (by decide) (by decide)]; decide)
  have hidx : ¬ IndexRefused byteFs byteFile.data (wrap32 ((0 : Nat) + 0)) := by
    rintro ⟨r, s₁, new, -, hnot, -⟩
    exact hnot fun _ _ _ => rfl
  have hresizes : Resizes byteFs byteFile 0 0 :=
    ⟨rfl, Int.le_refl 0, .inl ⟨rfl, hlength.symm ▸ Int.zero_lt_one⟩⟩
  exact ((writesSafely_past byteFs_openFile (fun _ => 0) (by decide) (by decide) (by decide) rfl hpast
    hidx).mp hsafe).1 hresizes

end Pintos.Filesys
