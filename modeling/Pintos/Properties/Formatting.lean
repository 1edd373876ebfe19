import Pintos.Properties.Serving

/-!
# Formatting

`do_format` makes the file of the free map and the root directory, closes the free map and opens it
again. The bits that are read back then are those that had been written, so that the file system is
in order when the first process runs.
-/

namespace Pintos.Filesys

open Pintos.Logic Pintos.Logic.Exec Pintos.Lib

attribute [local irreducible] Exec.wp

variable {s s' : Fs} {k : Nat} {f : File} {ls : List Nat} {data : Block} {i : Inode}

/-! ## The free map's file, open on its own -/

/-- The only open inode is the one of the free map's file `f`, with the header `data`. -/
structure OnlyMap (s : Fs) (f : File) (data : Block) : Prop where
  openInodes : s.openInodes = [⟨f.inode, freeMapSector, 1, false, 0, data⟩]
  fresh : f.inode < s.nextAddr
  file : s.freeMapFile = some f
  writable : f.denyWrite = false

theorem OnlyMap.inode? (h : OnlyMap s f data) :
    s.inode? f.inode = some ⟨f.inode, freeMapSector, 1, false, 0, data⟩ := by
  rw [Fs.inode?, h.openInodes]
  simp

theorem OnlyMap.freeMapInode? (h : OnlyMap s f data) :
    s.freeMapInode? = some ⟨f.inode, freeMapSector, 1, false, 0, data⟩ := by
  rw [Fs.freeMapInode?, h.file, Option.bind_some, h.inode?]

theorem OnlyMap.counted (h : OnlyMap s f data) : Counted [f.inode] s :=
  Counted.of_single (i := ⟨f.inode, freeMapSector, 1, false, 0, data⟩) h.openInodes rfl h.fresh

theorem OnlyMap.memory (h : OnlyMap s f data) (hk : k ≠ freeMapSector) : s.memory k = none := by
  rw [Fs.memory, h.openInodes, List.find?_cons_of_neg (by simpa using Ne.symm hk)]
  rfl

/-- The header is one of a file that has room for the bits. -/
structure HoldsMap (s : Fs) (data : Block) : Prop where
  length : diskLength data = byteCnt s.freeMap.bitCnt
  length_le : byteCnt s.freeMap.bitCnt ≤ 8517120
  owned : Owned IsSlot s.used (ptr s.view data)
  covered : ∀ idx : Nat, idx * 512 < byteCnt s.freeMap.bitCnt → slotOf s.view data idx ≠ 0

theorem FreeMapFile.holds (h : FreeMapFile s i) : HoldsMap s i.data :=
  ⟨h.length, h.length_le, h.owned, h.covered⟩

theorem OnlyMap.freeMapOk (h : OnlyMap s f data) (hd : HoldsMap s data)
    (hb : s.freeMap.bitCnt = s.size) (hle : s.size ≤ 4294967295) (hu : s.used freeMapSector) :
    FreeMapOk s where
  bitCnt := hb
  size_le := hle
  header := hu
  file g hg := by
    obtain rfl := Option.some.inj (h.file.symm.trans hg)
    exact ⟨_, h.inode?, rfl, hd.length, hd.length_le, hd.owned, hd.covered⟩

theorem OnlyMap.orderly (h : OnlyMap s f data) (hs : Separate s) :
    Orderly f [] s.history.live [] s where
  separate := hs
  counted := h.counted
  file := h.file
  live := rfl
  sector _ ha := by cases ha
  removed i hi hr := by
    rw [h.openInodes, List.mem_singleton] at hi
    rw [hi] at hr
    cases hr

/-- Without clients only the free map's file is open. -/
theorem Orderly.only (h : Orderly f [] ls [] s) (hw : f.denyWrite = false) :
    ∃ data, OnlyMap s f data := by
  obtain ⟨i, hi, hmap, hsector⟩ := h.mapOpen
  obtain ⟨hmem, haddr⟩ := inode?_some hi
  obtain ⟨j, hlist, -, hcnt⟩ := h.counted.single
  obtain rfl : i = j := List.mem_singleton.mp (hlist ▸ hmem)
  have hremoved : i.removed = false := by
    rw [← Bool.not_eq_true]
    intro hr
    cases h.removed i hmem hr
  have hdeny := (h.separate.freeMap.inode hmap).writable
  refine ⟨i.data, ?_, haddr ▸ h.counted.fresh i hmem, h.file, hw⟩
  rw [hlist, ← haddr, ← hsector, ← hcnt, ← hremoved, ← hdeny]

theorem OnlyMap.ofFreeMap (h : OnlyMap s f data) :
    s.OfFreeMap k ↔ k ≠ 0 ∧ ∃ x, IsSlot x ∧ ptr s.view data x = k := by
  rw [Fs.OfFreeMap, h.freeMapInode?]
  simp

/-- The free map's file has been closed and opened again. -/
theorem Orderly.reopened {f' : File} (h : Orderly f [] ls [] s) (ho : OnlyMap s f data)
    (ho' : OnlyMap s' f' data) (hs' : FreeMapOk s') (hview : s'.view = s.view)
    (hused : ∀ k, s'.used k ↔ s.used k) (hlive : s'.history.live = s.history.live) :
    Orderly f' [] ls [] s' := by
  have hl : ∀ k, s'.Live k ↔ s.Live k := fun k => by rw [Fs.Live, Fs.Live, hlive]
  have htaken : ∀ j, s.Taken j → s'.Taken j := fun j hj =>
    ⟨(hused j).mpr hj.1, fun hm => hj.2.1 (by rwa [ho.ofFreeMap, ← hview, ← ho'.ofFreeMap]),
      hj.2.2⟩
  have hheader : ∀ k, s.Live k → s'.header k = s.header k := fun k hk => by
    rw [header_closed (ho'.memory hk.2), header_closed (ho.memory hk.2), hview]
  have hsite : ∀ p, IsSite s p → site s' p = site s p := by
    rintro ⟨k, x⟩ hp
    cases x with
    | none => rfl
    | some x =>
      show ptr s'.view (s'.header k) x = _
      rw [hheader k hp.1, hview]
      rfl
  have hsep : Separate s' := {
    freeMap := hs'
    once := hlive ▸ h.separate.once
    owned := {
      ok := fun p hp h0 => by
        have hp' := (isSite_congr hl).mp hp
        rw [hsite p hp'] at h0 ⊢
        exact htaken _ (h.separate.owned.ok p hp' h0)
      inj := fun p q hp hq h0 he => by
        have hp' := (isSite_congr hl).mp hp
        have hq' := (isSite_congr hl).mp hq
        rw [hsite p hp'] at h0 he
        rw [hsite q hq'] at he
        exact h.separate.owned.inj p q hp' hq' h0 he }
    whole := fun k hk => hview ▸ h.separate.whole k ((hl k).mp hk)
    opened := fun k _ hm h0 => absurd (ho'.memory h0) (by rw [hm]; simp)
    mapSector := fun i hi => by
      rw [ho'.freeMapInode?] at hi
      cases hi
      rfl }
  have hfinal := ho'.orderly hsep
  rwa [hlive, h.live] at hfinal

/-- Without live inodes there is nothing to share. -/
theorem separate_of_dead (hs : FreeMapOk s) (ho : OnlyMap s f data)
    (hlive : s.history.live = [freeMapSector]) : Separate s := by
  have hdead : ∀ k, ¬ s.Live k := fun k hk => hk.2 (by simpa [hlive] using hk.1)
  exact {
    freeMap := hs
    once := hlive ▸ List.nodup_singleton _
    owned := ⟨fun p hp => absurd hp.live (hdead _), fun p _ hp => absurd hp.live (hdead _)⟩
    whole := fun k hk => absurd hk (hdead k)
    opened := fun k _ hm h0 => absurd (ho.memory h0) (by rw [hm]; simp)
    mapSector := fun i hi => by
      rw [ho.freeMapInode?] at hi
      cases hi
      rfl }

/-! ## Opening and closing the free map -/

/-- Only which inodes are open may have changed. -/
structure SameDevice (s s' : Fs) : Prop where
  view : s'.view = s.view
  size : s'.size = s.size
  freeMap : s'.freeMap = s.freeMap
  history : s'.history = s.history

theorem SameDevice.used (h : SameDevice s s') : s'.used k ↔ s.used k := by
  rw [Fs.used, Fs.used, h.freeMap]

theorem HoldsMap.congr (h : HoldsMap s data) (hv : s'.view = s.view)
    (hb : s'.freeMap.bitCnt = s.freeMap.bitCnt) (hu : ∀ k, s.used k → s'.used k) :
    HoldsMap s' data where
  length := by rw [hb]; exact h.length
  length_le := by rw [hb]; exact h.length_le
  owned := by rw [hv]; exact h.owned.mono hu
  covered := by rw [hv, hb]; exact h.covered

/-- The last inode is closed. -/
theorem inodeClose_only {a : Addr} {E : Stop → Prop}
    (h : s.openInodes = [⟨a, k, 1, false, 0, data⟩]) :
    (inodeClose (some a)).wp E (fun _ s' => SameDevice s s' ∧ s'.openInodes = []) s := by
  refine wp_mono (inodeClose_single h rfl rfl) (fun _ he => he) fun _ s' h' => ?_
  rw [h']
  exact ⟨⟨rfl, rfl, rfl, rfl⟩, rfl⟩

/-- The inode of a live sector is opened that is not open yet. -/
theorem wp_inodeOpen_new {E : Stop → Prop} {Q : Option Addr → Fs → Prop}
    (hlive : k ∈ s.history.live) (hlt : k < s.size) (hnew : ∀ i ∈ s.openInodes, i.sector ≠ k)
    (hnone : ∀ t, Looks s t → Q none t)
    (hsome : ∀ t, Looks s t → Q (some t.nextAddr) (t.withNew k)) :
    (inodeOpen k).wp E Q s := by
  have hfind : s.openInodes.find? (·.sector == k) = none := by
    rw [List.find?_eq_none]
    exact fun i hi => by simpa using hnew i hi
  unfold inodeOpen
  rw [wp_bind]
  refine wp_of_run (recordIf_false (by simpa using hlive)) ?_
  rw [wp_bind, wp_gets, hfind]
  dsimp only
  rw [wp_bind]
  refine wp_malloc fun memory s₁ h₁ _ => (wp_ite _ _).mpr ⟨fun _ => ?_, fun _ =>
    (wp_pure _).mpr (hnone s₁ h₁)⟩
  rw [wp_bind]
  refine wp_readSector (h₁.size.trans_ge hlt) fun s₂ h₂ => ?_
  rw [wp_bind, wp_gets, wp_bind, wp_modify, wp_pure]
  have h := hsome s₂ (h₁.trans h₂)
  rwa [Fs.withNew, newInode, h₂.view] at h

theorem mapOpen_wp {x : File → Kernel Unit} {Q : Unit → Fs → Prop} (hopen : s.openInodes = [])
    (hlive : freeMapSector ∈ s.history.live) (hlt : freeMapSector < s.size)
    (hx : ∀ f t, OnlyMap t f (s.view freeMapSector) → SameDevice s t → (x f).wp Safe Q t) :
    (do
      match ← fileOpen (← inodeOpen freeMapSector) with
      | none => fail .assertion
      | some file =>
        modify fun s => { s with freeMapFile := some file }
        x file).wp Safe Q s := by
  have hfail : ∀ t, (fail .assertion : Kernel Unit).wp Safe Q t := fun t =>
    wp_fail.mpr fun _ => by show Fault.assertion ≠ _; decide
  show (inodeOpen freeMapSector >>= fun r => fileOpen r >>= _).wp _ _ _
  rw [wp_bind]
  refine wp_inodeOpen_new hlive hlt (by simp [hopen]) (fun t _ => ?_) fun s₂ hl => ?_
  · rw [wp_bind, fileOpen, wp_bind]
    refine wp_malloc fun memory s₂ _ _ => ?_
    show (pure () >>= fun _ => pure none : Kernel (Option File)).wp _ _ _
    rw [wp_bind, wp_pure, wp_pure]
    exact hfail s₂
  rw [wp_bind, fileOpen, wp_bind]
  refine wp_malloc fun memory s₃ h₃ _ => ?_
  have hnew : s₃.openInodes =
      [⟨s₂.nextAddr, freeMapSector, 1, false, 0, s.view freeMapSector⟩] := by
    rw [h₃.openInodes, ← hl.view]
    show _ :: s₂.openInodes = _
    rw [hl.openInodes, hopen]
    rfl
  cases memory with
  | false =>
    show (inodeClose (some s₂.nextAddr) >>= fun _ => pure none : Kernel (Option File)).wp _ _ _
    rw [wp_bind]
    exact wp_mono (inodeClose_only hnew) (fun _ he => he) fun _ s₄ _ =>
      (wp_pure _).mpr (hfail s₄)
  | true =>
    show (pure (some ⟨s₂.nextAddr, 0, false⟩) : Kernel (Option File)).wp _ _ _
    rw [wp_pure]
    show (modify _ >>= fun _ => x _ : Kernel Unit).wp _ _ _
    rw [wp_bind, wp_modify]
    refine hx _ _ ⟨hnew, ?_, rfl, rfl⟩ ⟨?_, ?_, ?_, ?_⟩
    · exact h₃.nextAddr.symm ▸ Nat.lt_succ_self _
    · exact h₃.view.trans hl.view
    · exact h₃.size.trans hl.size
    · exact h₃.freeMap.trans hl.freeMap
    · exact h₃.history.trans hl.history

/-- The free map's file is the only open one, and holds the free map. -/
structure MapInPlace (f : File) (ls : List Nat) (s : Fs) : Prop where
  orderly : Orderly f [] ls [] s
  only : OnlyMap s f (s.view freeMapSector)
  written : s.FreeMapWritten

theorem MapInPlace.byteAt (h : MapInPlace f ls s) {q : Nat} (hq : q < byteCnt s.freeMap.bitCnt) :
    byteAt s.view (s.view freeMapSector) q = s.freeMap.toBytes q :=
  h.written _ h.only.freeMapInode? q hq

theorem MapInPlace.holds (h : MapInPlace f ls s) : HoldsMap s (s.view freeMapSector) :=
  (h.orderly.separate.freeMap.inode h.only.freeMapInode?).holds

/-- The bits that are read are those of the bitmap in memory. -/
theorem MapInPlace.reads (h : MapInPlace f ls s) {f' : File} {t : Fs}
    (ho : OnlyMap t f' (s.view freeMapSector)) (hd : SameDevice s t) :
    (do
      let bitCnt ← gets (·.freeMap.bitCnt)
      if 0 < bitCnt then
        let size : Int := byteCnt bitCnt
        let bytes ← inodeReadAt f'.inode size 0
        if bytes.length = size then
          setFreeMap fun _ => Bitmap.ofBytes bitCnt fun k => bytes.getD k 0
        else fail .assertion : Kernel Unit).wp Safe (fun _ s' => Orderly f' [] ls [] s') t := by
  have hs := h.orderly.separate.freeMap
  have hbit : t.freeMap.bitCnt = s.freeMap.bitCnt := by rw [hd.freeMap]
  have hholds : HoldsMap t (s.view freeMapSector) :=
    h.holds.congr hd.view hbit fun _ hk => hd.used.mpr hk
  have ht : FreeMapOk t := ho.freeMapOk hholds (by rw [hbit, hd.size, hs.bitCnt])
    (hd.size.trans_le hs.size_le) (hd.used.mpr hs.header)
  have hmapped : Mapped t.size t.view (s.view freeMapSector) :=
    (ht.inode ho.freeMapInode?).mapped ht
  rw [wp_bind, wp_gets]
  refine (wp_ite _ _).mpr ⟨fun _ => ?_, fun h0 => absurd (Nat.zero_le _ |>.trans_lt ht.header.1) h0⟩
  rw [wp_bind]
  refine wp_mono (inodeReadAt_spec ho.inode? hmapped _ 0) (fun e he _ => ?_) fun bytes t₁ h₁ => ?_
  · rw [he.1]
    decide
  obtain ⟨hl, hread⟩ := h₁
  refine (wp_ite _ _).mpr ⟨fun hlen => ?_, fun _ => wp_fail.mpr fun _ => ?_⟩
  swap
  · show Fault.assertion ≠ _
    decide
  obtain ⟨n, rfl, -, -⟩ := hread
  rw [length_bytesAt, hbit] at hlen
  have hn : n = byteCnt s.freeMap.bitCnt := by exact_mod_cast hlen
  rw [setFreeMap, wp_modify]
  have hbytes : ∀ k < byteCnt s.freeMap.bitCnt,
      (bytesAt t.view (s.view freeMapSector) 0 n).getD k 0 = s.freeMap.toBytes k := by
    intro k hk
    rw [← h.byteAt hk, hd.view, bytesAt, List.getD_eq_getElem?_getD, List.getElem?_map,
      List.getElem?_range (hn ▸ hk), Option.map_some, Option.getD_some, Nat.zero_add]
  have htest := fun k => Bitmap.test_ofBytes_toBytes (i := k) _ hbytes
  rw [hbit]
  have honly : OnlyMap { t₁ with freeMap := Bitmap.ofBytes s.freeMap.bitCnt fun k =>
      (bytesAt t.view (s.view freeMapSector) 0 n).getD k 0 } f' (s.view freeMapSector) :=
    ⟨hl.openInodes.trans ho.openInodes, hl.nextAddr.symm ▸ ho.fresh,
      hl.freeMapFile.trans ho.file, ho.writable⟩
  have hview : t₁.view = s.view := hl.view.trans hd.view
  have hsize : t₁.size = s.size := hl.size.trans hd.size
  refine h.orderly.reopened h.only honly (honly.freeMapOk (h.holds.congr hview rfl
    fun k hk => ⟨hk.1, (htest k hk.1).trans hk.2⟩) ?_ ?_ ?_) hview (fun k => ?_) ?_
  · exact hs.bitCnt.trans hsize.symm
  · exact hsize.trans_le hs.size_le
  · exact ⟨hs.header.1, (htest _ hs.header.1).trans hs.header.2⟩
  · exact and_congr_right fun hk => by rw [← htest k hk]
  · show t₁.history.live = _
    rw [hl.history, hd.history]

/-- The free map is closed and opened again. -/
theorem MapInPlace.reopen (h : MapInPlace f ls s) (hlive : freeMapSector ∈ ls) :
    (freeMapClose >>= fun _ => freeMapOpen).wp Safe
      (fun _ s' => ∃ f', Orderly f' [] ls [] s') s := by
  rw [wp_bind, freeMapClose, wp_bind, wp_gets, h.only.file]
  dsimp only
  rw [fileClose, wp_bind, h.only.writable, if_neg Bool.false_ne_true, wp_pure]
  refine wp_mono (inodeClose_only h.only.openInodes) (fun _ he => he) fun _ s₁ h₁ => ?_
  obtain ⟨hd, hopen⟩ := h₁
  have hs := h.orderly.separate.freeMap
  refine mapOpen_wp hopen ?_ ?_ fun f' t ho ht => ?_
  · rwa [hd.history, h.orderly.live]
  · rw [hd.size]
    exact hs.used_lt hs.header
  rw [hd.view] at ho
  exact wp_mono (h.reads ho ⟨ht.view.trans hd.view, ht.size.trans hd.size,
    ht.freeMap.trans hd.freeMap, ht.history.trans hd.history⟩) (fun _ he => he)
      fun _ s' h' => ⟨f', h'⟩

/-! ## Making the free map's file -/

theorem events_starting : Starting (fun s s' => s.history.Le s'.history)
    (fun s e => s.history.Le e.history) where
  toLoud := events_loud
  anyFreeMap _ _ := List.Subset.refl _
  freeMapFile _ _ := List.Subset.refl _

/-- After one of the events nothing is said of how the file system starts. -/
theorem wp_unfree_starting {α : Type} {x : Kernel α} {P : α → Fs → Prop}
    (hx : ∀ (R : Fs → Fs → Prop) (F : Fs → Stop → Prop), Starting R F → Steps R F x)
    (hs : ¬ s.history.Free sharingEvents) :
    x.wp Safe (fun a s' => s'.history.Free sharingEvents → P a s') s :=
  wp_mono (hx _ _ events_starting s) (fun _ hle hf => absurd (hf.of_le hle) hs)
    fun _ _ hle hf => absurd (hf.of_le hle) hs

/-- The header of the free map's file has been written to sector 0. -/
theorem Filled.holdsMap {s₁ : Fs} (hf : Filled s s₁ data)
    (hlength : diskLength data = byteCnt s.freeMap.bitCnt)
    (ha : Adopted s₁ freeMapSector data s') :
    HoldsMap s' data ∧ ∀ x, IsSlot x → Filesys.ptr s'.view data x = Filesys.ptr s₁.view data x := by
  have hptr : ∀ x, IsSlot x → Filesys.ptr s'.view data x = Filesys.ptr s₁.view data x :=
    fun x hx => ptr_congr (fun _ _ => rfl) (fun y _ _ h0 j _ =>
      congrArg (·.word j) (ha.view_ne h0)) hx
  have hbit : s'.freeMap.bitCnt = s.freeMap.bitCnt := by rw [ha.bits, hf.bitCnt]
  refine ⟨⟨by rw [hbit, hlength], ?_, ?_, fun idx hidx => ?_⟩, hptr⟩
  · have hle := hf.whole.length_le
    rw [hlength] at hle
    rw [hbit]
    omega
  · refine ⟨fun x hx h0 => ?_, fun x y hx hy h0 he => ?_⟩
    · rw [hptr x hx] at h0 ⊢
      exact (ha.taken _ (hf.slots.ok x hx h0)).1
    · rw [hptr x hx] at h0 he
      rw [hptr y hy] at he
      exact hf.slots.inj x y hx hy h0 he
  · rw [slotOf_congr hptr]
    refine hf.whole.covered idx ?_
    rw [hlength]
    rw [hbit] at hidx
    exact Int.ofNat_lt.mpr hidx

theorem OnlyMap.stored (h : OnlyMap s f data) (hst : Stored s s') : OnlyMap s' f data :=
  ⟨hst.openInodes.trans h.openInodes, hst.nextAddr.symm ▸ h.fresh, hst.freeMapFile.trans h.file,
    h.writable⟩

/-- The sector of the root directory has been kept for it, and is of no inode yet. -/
theorem freeMapCreate_wp (hs : FreeMapOk s) (hfile : s.freeMapFile = none)
    (hopen : s.openInodes = []) (hlive : s.history.live = []) (hroot : s.used rootDirSector) :
    freeMapCreate.wp Safe (fun _ s' => s'.history.Free sharingEvents →
      ∃ f, MapInPlace f [freeMapSector] s' ∧ Orphan rootDirSector s') s := by
  have hpanic : ∀ t (Q : Unit → Fs → Prop), (fail .assertion : Kernel Unit).wp Safe Q t :=
    fun t Q => wp_fail.mpr fun _ => by show Fault.assertion ≠ _; decide
  have hlt : (byteCnt s.freeMap.bitCnt : Int) < 2147483648 := by
    have hle := byteCnt_le (hs.bitCnt ▸ hs.size_le)
    omega
  unfold freeMapCreate
  rw [wp_bind, wp_gets, wp_bind]
  refine wp_mono (inodeCreate_spec hs hs.header (fun hm => hm.1 rfl) hlt false)
    (fun _ he => he) fun ok s₂ h₂ => ?_
  -- after an event nothing is left to show
  by_cases hf : s₂.history.Free sharingEvents
  swap
  · refine wp_unfree_starting (fun _ _ b => Steps.ite ?_ (b.fail (by decide))) hf
    refine b.bind (inodeOpen_steps b.toLoud _) fun _ =>
      b.bind (fileOpen_steps b.toLoud _) fun f => ?_
    cases f with
    | none => exact b.fail (by decide)
    | some f =>
      exact b.bind (Steps.modify fun s => b.freeMapFile s _) fun _ => b.bind
        (bitmapWriteWith_steps b.toQuiet (freeMapAllocate_steps b.toQuiet) (b.derefs _)) fun _ =>
          Steps.ite (b.pure _) (b.fail (by decide))
  rcases h₂ hf with ⟨rfl, s₁, data, hfilled, hlength, ha⟩ | ⟨rfl, -⟩
  swap
  · exact hpanic _ _
  obtain ⟨hholds, hptr⟩ := hfilled.holdsMap hlength ha
  have hview₂ : s₂.view freeMapSector = data := by rw [ha.view, Function.update_self]
  have hlive₂ : s₂.history.live = [freeMapSector] := by
    rw [ha.live, hfilled.live, hlive]
  rw [if_pos rfl]
  refine mapOpen_wp ?_ ?_ ?_ fun f t ho hd => ?_
  · rw [ha.openInodes, hfilled.openInodes, hopen]
  · rw [hlive₂]
    exact List.mem_singleton_self _
  · exact ha.freeMap.used_lt ha.freeMap.header
  rw [hview₂] at ho
  have hholds' : HoldsMap t data := hholds.congr hd.view (by rw [hd.freeMap]) fun _ hk =>
    hd.used.mpr hk
  have ht : FreeMapOk t := ho.freeMapOk hholds' (by rw [hd.freeMap, hd.size, ha.freeMap.bitCnt])
    (hd.size.trans_le ha.freeMap.size_le) (hd.used.mpr ha.freeMap.header)
  rw [wp_bind]
  refine wp_mono (bitmapWriteWith_spec freeMapAllocate ht ho.file) (fun e he _ => ?_)
    fun ok t' h' => (wp_ite _ _).mpr ⟨fun hok => (wp_pure _).mpr fun _ => ⟨f, ?_⟩,
      fun _ => hpanic _ _⟩
  · rw [he.1]
    decide
  obtain ⟨hw, hwritten, -⟩ := h'
  have ho' := ho.stored hw.toStored
  have hkept := hw.mapChanged.toMapFileKept
  have hused : ∀ k, t.used k → t'.used k := fun k hk => by rwa [Fs.used, hw.freeMap]
  -- to write the bitmap keeps the map's own sectors in use
  have ht' : FreeMapOk t' := ht.mapFileKept hkept (hused _ ht.header) fun _ hk =>
    hused _ (ht.ofFreeMap_used hk)
  have hlive' : t'.history.live = [freeMapSector] := by
    rw [hw.history, hd.history, hlive₂]
  have horder := ho'.orderly (separate_of_dead ht' ho' hlive')
  rw [hlive'] at horder
  have hview' : t'.view freeMapSector = data := by
    rw [hw.view _ fun hm => hm.1 rfl, hd.view, hview₂]
  refine ⟨⟨horder, by rwa [hview'], hwritten hok⟩, ⟨?_, ?_, by decide⟩, fun p hp => ?_⟩
  · -- the root directory's sector is in use from the start
    have hroot₁ : s₁.Taken rootDirSector := by
      refine ⟨hfilled.used _ hroot, fun hm => ?_, by decide⟩
      have hm := hfilled.ofFreeMap.mp hm
      rw [Fs.OfFreeMap, Fs.freeMapInode?, hfile] at hm
      simp at hm
    exact hused _ (hd.used.mpr (ha.taken _ hroot₁).1)
  · rw [ho'.ofFreeMap]
    rintro ⟨-, x, hx, he⟩
    have hchain : ptr t'.view data x = ptr s₁.view data x := by
      rw [hw.ptr _ ho.freeMapInode? x hx, hd.view, hptr x hx]
    rw [hchain] at he
    exact hfilled.fresh x hx (by rw [he]; decide) (he ▸ hroot)
  · exact absurd hp.live.1 (by rw [hlive']; simpa using hp.live.2)

/-! ## Making the root directory -/

/-- The free map's file is as it was, and it still holds the free map if it did. -/
structure MapIntact (s s' : Fs) : Prop where
  inode : s'.freeMapInode? = s.freeMapInode?
  header : s'.view freeMapSector = s.view freeMapSector
  written : s.FreeMapWritten → s'.FreeMapWritten

theorem MapIntact.trans {s'' : Fs} (h : MapIntact s s') (h' : MapIntact s' s'') :
    MapIntact s s'' :=
  ⟨h'.inode.trans h.inode, h'.header.trans h.header, fun hw => h'.written (h.written hw)⟩

/-- What is written to other sectors does not matter. -/
theorem mapIntact_of_view (hi : s'.freeMapInode? = s.freeMapInode?)
    (hb : s'.freeMap = s.freeMap) (h0 : s'.view freeMapSector = s.view freeMapSector)
    (hv : ∀ k, s.OfFreeMap k → s'.view k = s.view k) : MapIntact s s' := by
  refine ⟨hi, h0, fun hw i hi' q hq => ?_⟩
  rw [hi] at hi'
  rw [hb] at hq ⊢
  rw [← hw i hi' q hq]
  have hof : ∀ x, IsSlot x → ptr s.view i.data x ≠ 0 → s.OfFreeMap (ptr s.view i.data x) :=
    fun x hx hne => ⟨hne, i, hi', x, hx, rfl⟩
  have hptr : ∀ x, IsSlot x → ptr s'.view i.data x = ptr s.view i.data x := fun x hx =>
    ptr_congr (fun _ _ => rfl) (fun y hy _ hne j _ =>
      congrArg (·.word j) (hv _ (hof y hy hne))) hx
  unfold byteAt
  rw [slotOf_congr hptr]
  split
  · rfl
  · next hne =>
    unfold slotOf at hne ⊢
    split at hne
    · next hlt =>
      rw [if_pos hlt, hv _ (hof _ (isSlot_leafSlot hlt) hne)]
    · exact absurd rfl hne

theorem Looks.mapIntact (h : Looks s s') : MapIntact s s' :=
  mapIntact_of_view h.freeMapInode? h.freeMap (by rw [h.view]) fun _ _ => by rw [h.view]

theorem mapIntact_write (hst : Stored s s') (hv : s'.view = Function.update s.view k data)
    (h0 : k ≠ freeMapSector) (hk : ¬ s.OfFreeMap k) : MapIntact s s' := by
  refine mapIntact_of_view hst.freeMapInode? hst.freeMap ?_ fun j hj => ?_
  · rw [hv, Function.update_of_ne h0.symm]
  · rw [hv, Function.update_of_ne]
    rintro rfl
    exact hk hj

/-- A sector is handed out only after the free map has been written. -/
theorem freeMapAllocateAt_written (h : FreeMapOk s) (hf : s.freeMapFile = some f) (depth : Nat) :
    (freeMapAllocateAt 1 (depth + 1)).wp (fun _ => True)
      (fun r s' => r ≠ none → s'.FreeMapWritten) s := by
  unfold freeMapAllocateAt
  rw [wp_bind, wp_gets]
  cases hscan : s.freeMap.scan 0 1 false with
  | none =>
    dsimp only
    rw [wp_bind, record]
    exact wp_modifyHistory fun s₁ _ _ => (wp_pure _).mpr fun hne => absurd rfl hne
  | some k =>
    obtain ⟨hk, -⟩ := Bitmap.scan_one_some hscan
    dsimp only
    rw [wp_bind]
    refine wp_setBit hk fun s₁ h₁ _ hu₁ => ?_
    have hused : ∀ j, s.used j → s₁.used j := fun j hj => by
      rw [hu₁]
      split
      · rfl
      · exact hj
    have hok₁ := h.mapFileKept h₁.toMapFileKept (hused _ h.header) fun j hj =>
      hused _ (h.ofFreeMap_used hj)
    rw [wp_bind, wp_gets, h₁.freeMapFile, hf]
    dsimp only
    rw [wp_bind]
    refine wp_mono (bitmapWriteWith_spec (freeMapAllocateAt 1 depth) hok₁
      (h₁.freeMapFile.trans hf)) (fun _ _ => trivial) fun ok s₂ h₂ => ?_
    refine (wp_ite _ _).mpr ⟨fun hok => (wp_pure _).mpr fun _ => h₂.2.1 hok, fun _ => ?_⟩
    rw [wp_bind, setFreeMap, wp_modify, wp_bind, record]
    exact wp_modifyHistory fun s₁ _ _ => (wp_pure _).mpr fun hne => absurd rfl hne

theorem freeMapAllocate_intact (h : FreeMapOk s) (hf : s.freeMapFile = some f) :
    freeMapAllocate.wp (fun _ => True) (fun r s' => Allocated s r s' ∧
      (r ≠ none → MapIntact s s')) s := by
  unfold freeMapAllocate
  rw [wp_bind, wp_gets]
  refine wp_mono (wp_and (freeMapAllocateAt_spec h s.freeMap.bitCnt)
    (freeMapAllocateAt_written h hf s.freeMap.bitCnt)) (fun _ _ => trivial) fun r s' h' => ?_
  obtain ⟨ha, hw⟩ := h'
  exact ⟨ha, fun hne => ⟨ha.freeMapInode?, ha.view _ fun hm => hm.1 rfl, fun _ => hw hne⟩⟩

/-- A file of one sector is created beside the free map's. -/
theorem inodeCreate_intact (h : FreeMapOk s) (hf : s.freeMapFile = some f) (hk : s.Taken k)
    {length : Int} (h0 : 0 < length) (hle : length ≤ 512) (dir : Bool) :
    (inodeCreate k length dir).wp (fun _ => True) (fun ok s' => ok = true → MapIntact s s') s := by
  have hone : bytesToSectors length = 1 := by
    rw [bytesToSectors_eq (by omega) (by omega)]
    omega
  have hmin : min 1 directBlocksCount = 1 := by decide
  have hword : (newInodeDisk length dir).word 0 = 0 := unreserved_newInodeDisk length dir 0 (by decide)
  have hfailed : ∀ t, ((pure false : Kernel Bool).wp (fun _ => True)
      (fun ok s' => ok = true → MapIntact s s') t) := fun t =>
    (wp_pure _).mpr fun hne => absurd hne (by decide)
  unfold inodeCreate
  rw [if_neg (by omega), wp_bind]
  refine wp_malloc fun memory s₁ h₁ _ => (wp_ite _ _).mpr ⟨fun _ => ?_, fun _ => hfailed _⟩
  have hs₁ := h.takes h₁.takes
  rw [wp_bind, inodeReserve, if_neg (by omega), hone]
  dsimp only
  rw [hmin, wp_bind, reserveEntries, wp_bind, hword, inodeReserveDirect, if_pos rfl, wp_bind]
  refine wp_mono (freeMapAllocate_intact hs₁ (h₁.freeMapFile.trans hf)) (fun _ _ => trivial)
    fun r s₂ h₂ => ?_
  obtain ⟨ha, hmap⟩ := h₂
  cases r with
  | none =>
    dsimp only
    rw [wp_pure]
    dsimp only
    rw [if_neg Bool.false_ne_true, wp_pure]
    dsimp only
    rw [if_pos (by decide), wp_pure]
    exact hfailed s₂
  | some sector =>
    have hs₂ := hs₁.takes ha.takes
    obtain ⟨hlt, hfresh, hne⟩ := hs₁.fresh ha
    dsimp only
    rw [wp_bind]
    refine wp_writeSector hlt fun s₃ h₃ hv₃ => ?_
    have ht₃ : Takes s₂ s₃ :=
      ⟨mapFileKept_write h₃ hfresh hv₃, fun j hj => by rwa [Fs.used, h₃.freeMap]⟩
    have hk₃ := ht₃.taken (ha.takes.taken (h₁.takes.taken hk))
    rw [wp_pure]
    dsimp only
    rw [if_pos rfl, Nat.min_self, Nat.sub_self, reserveEntries, wp_pure]
    dsimp only
    rw [if_neg (by decide), if_pos rfl, wp_pure]
    dsimp only
    rw [if_pos rfl, wp_bind]
    refine wp_writeSector ((hs₂.takes ht₃).used_lt hk₃.1) fun s₄ h₄ hv₄ => ?_
    rw [wp_bind, modifyLive]
    refine wp_modifyHistory fun s₅ _ hs₅ => (wp_pure _).mpr fun _ => ?_
    have hlast : MapIntact s₄ s₅ := by
      rw [hs₅]
      exact mapIntact_of_view rfl rfl rfl fun _ _ => rfl
    exact h₁.mapIntact.trans <| (hmap (by simp)).trans <|
      (mapIntact_write h₃ hv₃ hne hfresh).trans <|
        (mapIntact_write h₄ hv₄ hk₃.2.2 hk₃.2.1).trans hlast

/-- An entry that lies inside the directory is written. -/
theorem writeEntry_intact {hs : List Addr} {a : Addr} (h : OpenInode hs s a i)
    (hle : 20 ≤ diskLength i.data) (e : DirEntry) :
    (writeEntry a 0 e).wp Safe (fun _ s' => s'.history.Free sharingEvents → MapIntact s s') s := by
  have hlen : inodeLength i = diskLength i.data := rfl
  have hpos : wrap32 ((0 : Nat) + dirEntrySize - 1) = 19 := wrap32_eq (by decide) (by decide)
  have hin : ¬ PastEnd i (wrap32 ((0 : Nat) + dirEntrySize - 1)) := by
    rw [hpos, PastEnd, hlen]
    omega
  unfold writeEntry
  rw [wp_bind]
  refine wp_mono (inodeWriteAt_written h.file e.byte dirEntrySize 0) (fun _ he => he.safe)
    fun r s' h' => (wp_pure _).mpr fun _ => ?_
  obtain ⟨data, hw⟩ := h'.resolve_right fun hr => hin hr.1
  cases hw with
  | denied => exact (Looks.refl s).mapIntact
  | inside _ _ hst hpart =>
    -- only sectors of the directory are written, which are none of the free map's file
    have hframe : ∀ k, ¬ s.Taken k → s'.view k = s.view k := fun k hk => by
      by_contra hne
      obtain ⟨h0, q, -, -, hslot⟩ := hpart.1.frame k hne
      unfold slotOf at hslot
      split at hslot
      · next hlt =>
        exact hk (hslot ▸ h.slots.ok _ (isSlot_leafSlot hlt) (hslot ▸ h0))
      · exact h0 hslot.symm
    exact mapIntact_of_view hst.freeMapInode? hst.freeMap (hframe _ fun hk => hk.2.2 rfl)
      fun k hm => hframe _ fun hk => hk.2.1 hm
  | failed _ hpast => exact absurd hpast hin
  | extended _ hpast => exact absurd hpast hin

theorem MapIntact.inPlace {ls' : List Nat} (hi : MapIntact s s') (h : MapInPlace f ls s)
    (ho : Orderly f [] ls' [] s') : MapInPlace f ls' s' := by
  obtain ⟨data, honly⟩ := ho.only h.only.writable
  have hdata : data = s.view freeMapSector := by
    have hmap := honly.freeMapInode?.symm.trans (hi.inode.trans h.only.freeMapInode?)
    simpa using hmap
  refine ⟨ho, ?_, hi.written h.written⟩
  rwa [hi.header, ← hdata]

/-- The one handle of a call is closed. -/
theorem Orderly.close_one {a : Addr} (h : Orderly f [] ls [a] s) :
    (inodeClose (some a)).wp Safe (fun _ s' => Orderly f [] ls [] s' ∧ MapIntact s s') s := by
  obtain ⟨i, hi⟩ := h.openInode (a := a) List.mem_cons_self
  obtain ⟨hmem, haddr⟩ := inode?_some hi.inode
  have hmap : f.inode ≠ a := h.not_map List.mem_cons_self
  have hcnt : i.openCnt = 1 := by
    rw [h.counted.count i hmem, haddr, List.count_cons_of_ne hmap]
    simp
  have hremoved : i.removed = false := by
    rw [← Bool.not_eq_true]
    intro hr
    cases h.removed i hmem hr
  have hd : derefClose a s = .ok (i, s) := by
    unfold derefClose
    rw [hi.inode]
  obtain ⟨horder, hdrops⟩ := h.closed [] [] List.mem_cons_self
    List.not_mem_nil (fun b hb _ => hb) (.refl _)
  unfold inodeClose
  rw [wp_bind]
  refine wp_of_run hd ?_
  rw [wp_bind, modifyInode, wp_modify, hcnt, if_pos (Int.sub_self 1), wp_bind, wp_modify, hremoved,
    if_neg Bool.false_ne_true, wp_pure]
  exact ⟨horder, mapIntact_of_view hdrops.mapInode rfl rfl fun _ _ => rfl⟩

/-- The root directory is created, and then its file is closed. -/
theorem MapInPlace.dirCreate (h : MapInPlace f ls s) (hr : Orphan rootDirSector s) :
    (dirCreate rootDirSector 16).wp Safe (fun ok s' => s'.history.Free sharingEvents →
      ok = true → MapInPlace f (rootDirSector :: ls) s') s := by
  have hs := h.orderly.separate
  have hfalse : ∀ t, (pure false : Kernel Bool).wp Safe (fun ok s' =>
      s'.history.Free sharingEvents → ok = true → MapInPlace f (rootDirSector :: ls) s') t :=
    fun t => (wp_pure _).mpr fun _ hne => absurd hne (by decide)
  have hsize : ((16 * dirEntrySize : Nat) : Int) = 320 := by decide
  have hlt : (320 : Int) < 2147483648 := by decide
  unfold Filesys.dirCreate
  rw [wp_bind, hsize]
  refine wp_mono (wp_and (wp_and (h.orderly.inodeCreate hr hlt true)
    (inodeCreate_intact hs.freeMap h.orderly.file hr.taken (by decide) (by decide) true))
    (inodeCreate_spec hs.freeMap hr.taken.1 hr.taken.2.1 hlt true))
    (fun _ he => he.1.1) fun ok s₁ h₁ => ?_
  obtain ⟨⟨hcreated, hintact₁⟩, hspec⟩ := h₁
  by_cases hf : s₁.history.Free sharingEvents
  swap
  · refine wp_unfree (fun _ _ l => Steps.ite ?_ (l.pure _)) hf
    refine l.bind (inodeOpen_steps l _) fun _ => l.bind (dirOpen_steps l _) fun dir => ?_
    cases dir with
    | none => exact l.pure _
    | some dir =>
      exact l.bind (uninitialised_steps l.toReading) fun _ =>
        l.bind (writeEntry_steps l.toQuiet (l.derefs _) _ _) fun _ =>
          l.bind (dirClose_steps l _) fun _ => l.pure _
  rcases hspec hf with ⟨rfl, s₀, data, -, hlength, ha⟩ | ⟨rfl, -⟩
  swap
  · exact hfalse s₁
  obtain ⟨horder₁, hrel⟩ := hcreated hf
  have hview : s₁.view rootDirSector = data := by rw [ha.view, Function.update_self]
  have hlive : rootDirSector ∈ s₁.history.live := horder₁.live ▸ List.mem_cons_self
  have hlt := horder₁.separate.freeMap.used_lt hrel.taken.1
  rw [if_pos rfl, wp_bind]
  refine wp_inodeOpen_new hlive hlt hrel.closed (fun t ht => ?_) fun t ht => ?_
  · rw [wp_bind, dirOpen, wp_bind]
    refine wp_malloc fun memory t' _ _ => ?_
    show (pure () >>= fun _ => pure none : Kernel (Option Dir)).wp _ _ _
    rw [wp_bind, wp_pure, wp_pure]
    exact hfalse t'
  have ht₁ := horder₁.looks ht
  have horder₂ := ht₁.opened (k := rootDirSector) ⟨ht.history ▸ hlive, by decide⟩ fun j hj =>
    hrel.closed j (ht.openInodes ▸ hj)
  have hintact₂ : MapIntact t (t.withNew rootDirSector) :=
    mapIntact_of_view (ht₁.freeMapInode?_withNew _) rfl rfl fun _ _ => rfl
  rw [wp_bind, dirOpen, wp_bind]
  refine wp_malloc fun memory s₃ h₃ _ => ?_
  have horder₃ := horder₂.looks h₃
  cases memory with
  | false =>
    show (inodeClose (some t.nextAddr) >>= fun _ => pure none : Kernel (Option Dir)).wp _ _ _
    rw [wp_bind]
    exact wp_mono horder₃.close_one (fun _ he => he) fun _ s₄ _ => (wp_pure _).mpr (hfalse s₄)
  | true =>
    show (pure (some ⟨t.nextAddr, dirEntrySize⟩) : Kernel (Option Dir)).wp _ _ _
    rw [wp_pure]
    dsimp only
    rw [wp_bind]
    refine wp_of_run rfl ?_
    have h₄ : Looks s₃ (s₃.step s₃.store) := ⟨stored_step rfl, rfl⟩
    have horder₄ := horder₃.looks h₄
    obtain ⟨i, hi⟩ := horder₄.openInode (a := t.nextAddr) List.mem_cons_self
    -- the inode that is written to is the one just made, which has room for an entry
    have hnew : i = newInode t rootDirSector := by
      have hi' := hi.inode
      rw [h₄.inode?, h₃.inode?] at hi'
      have hfind : (t.withNew rootDirSector).inode? t.nextAddr = some (newInode t rootDirSector) :=
        List.find?_cons_of_pos (by simp [newInode])
      exact Option.some.inj (hi'.symm.trans hfind)
    have hlen : 20 ≤ diskLength i.data := by
      have hdata : i.data = data := by rw [hnew, newInode, ht.view, hview]
      rw [hdata, hlength]
      decide
    rw [wp_bind]
    have hmem : t.nextAddr ∈ [t.nextAddr] ++ [] := List.mem_cons_self
    refine wp_mono (wp_and (writeEntry_owns hmem 0 _ _ fun _ => horder₄)
      (writeEntry_intact hi hlen _)) (fun _ he => he.1) fun success s₅ h₅ => ?_
    rw [wp_bind]
    by_cases hf₅ : s₅.history.Free sharingEvents
    swap
    · refine wp_mono (dirClose_steps events_loud _ s₅) (fun _ hle hf' => ?_) fun _ s₆ hle =>
        (wp_pure _).mpr fun hf' => ?_
      · exact absurd (hf'.of_le hle) hf₅
      · exact absurd (hf'.of_le hle) hf₅
    refine wp_mono (h₅.1 hf₅).close_one (fun _ he => he) fun _ s₆ h₆ => (wp_pure _).mpr fun _ _ => ?_
    exact (hintact₁ rfl).trans (ht.mapIntact.trans (hintact₂.trans (h₃.mapIntact.trans
      (h₄.mapIntact.trans ((h₅.2 hf₅).trans h₆.2))))) |>.inPlace h h₆.1

/-! ## A formatted device -/

/-- The bits of the free map's header and of the root directory are set. -/
theorem test_marked {b : Bitmap} (h : 2 ≤ b.bitCnt) (hk : k = freeMapSector ∨ k = rootDirSector) :
    ((b.set freeMapSector true).set rootDirSector true).test k = true := by
  have h0 : freeMapSector < b.bitCnt := Nat.lt_of_lt_of_le (by decide) h
  have h1 : rootDirSector < b.bitCnt := h
  rw [Bitmap.test_set (b := b.set freeMapSector true) h1, Bitmap.test_set h0]
  rcases hk with rfl | rfl
  · rfl
  · rfl

theorem freeMapInit_wp {env : Env} {disk : Disk} (h2 : 2 ≤ disk.size)
    (hle : disk.size ≤ 4294967295) (unused : Nat → Bool) :
    (freeMapInit unused).wp Safe (fun _ s' => FreeMapOk s' ∧ s'.freeMapFile = none ∧
      s'.openInodes = [] ∧ s'.history.live = [] ∧ s'.used rootDirSector) (boot env disk) := by
  have hmalloc : ∀ s, mallocOrPanic.wp Safe (fun _ s' => Looks s s') s := fun s =>
    wp_mono (mallocOrPanic_steps looks_safe s) (fun _ he _ => he) fun _ _ h => h
  unfold freeMapInit
  rw [wp_bind, wp_gets, wp_bind]
  refine wp_mono (hmalloc _) (fun _ he => he) fun _ s₁ h₁ => ?_
  rw [wp_bind]
  refine wp_mono (hmalloc _) (fun _ he => he) fun _ s₂ h₂ => ?_
  have h := h₁.trans h₂
  rw [wp_bind, wp_modify, wp_bind, setFreeMap, wp_modify, setFreeMap, wp_modify]
  refine ⟨⟨h.size.symm, h.size.trans_le hle, ⟨?_, test_marked h2 (.inl rfl)⟩, fun g hg => ?_⟩,
    h.freeMapFile, h.openInodes, ?_, ⟨h2, test_marked h2 (.inr rfl)⟩⟩
  · exact Nat.lt_of_lt_of_le (by decide) h2
  · exact absurd (h.freeMapFile.symm.trans hg) (by simp [boot])
  · show s₂.history.live = []
    rw [h.history]
    rfl

/-- After formatting the file system is in order. -/
theorem filesysInit_wp {env : Env} {disk : Disk} (h2 : 2 ≤ disk.size)
    (hle : disk.size ≤ 4294967295) (unused : Nat → Bool) :
    (filesysInit true unused).wp Safe (fun _ s' => s'.history.Free sharingEvents →
      ∃ f, Orderly f [] [rootDirSector, freeMapSector] [] s') (boot env disk) := by
  have hpanic : ∀ t Q, (fail .assertion : Kernel Unit).wp Safe Q t := fun t Q =>
    wp_fail.mpr fun _ => by show Fault.assertion ≠ _; decide
  show (freeMapInit unused >>= fun _ => doFormat >>= fun _ => freeMapOpen).wp _ _ _
  rw [wp_bind]
  refine wp_mono (freeMapInit_wp h2 hle unused) (fun _ he => he) fun _ s₁ h₁ => ?_
  obtain ⟨hs, hfile, hopen, hlive, hroot⟩ := h₁
  rw [wp_bind]
  show (freeMapCreate >>= fun _ => dirCreate rootDirSector 16 >>= fun ok =>
    if ok then freeMapClose else fail .assertion).wp _ _ _
  rw [wp_bind]
  refine wp_mono (freeMapCreate_wp hs hfile hopen hlive hroot) (fun _ he => he) fun _ s₂ h₂ => ?_
  have hopenMap : ∀ t : Fs, ¬ t.history.Free sharingEvents → freeMapOpen.wp Safe (fun _ s' =>
      s'.history.Free sharingEvents → ∃ f, Orderly f [] [rootDirSector, freeMapSector] [] s') t :=
    fun _ => wp_unfree_starting fun _ _ b => freeMapOpen_steps b
  by_cases hf : s₂.history.Free sharingEvents
  swap
  · refine wp_mono ((events_starting.bind (dirCreate_steps events_loud _ _) fun _ =>
      Steps.ite (freeMapClose_steps events_loud) (events_loud.fail (by decide))) s₂)
      (fun _ hle hf' => absurd (hf'.of_le hle) hf) fun _ t hle => ?_
    exact hopenMap t fun hf' => hf (hf'.of_le hle)
  obtain ⟨f, hmap, horphan⟩ := h₂ hf
  rw [wp_bind]
  refine wp_mono (hmap.dirCreate horphan) (fun _ he => he) fun ok s₃ h₃ =>
    (wp_ite _ _).mpr ⟨fun hok => ?_, fun _ => hpanic _ _⟩
  by_cases hf₃ : s₃.history.Free sharingEvents
  swap
  · refine wp_mono (freeMapClose_steps events_loud s₃)
      (fun _ hle hf' => absurd (hf'.of_le hle) hf₃) fun _ t hle => ?_
    exact hopenMap t fun hf' => hf₃ (hf'.of_le hle)
  have hreopen := (h₃ hf₃ hok).reopen (List.mem_cons_of_mem _ List.mem_cons_self)
  rw [wp_bind] at hreopen
  exact wp_mono hreopen (fun _ he => he) fun _ s₄ h₄ =>
    wp_mono h₄ (fun _ he => he) fun _ _ h _ => h

/-- The file system is in order before the first operation. -/
theorem filesysInit_serving {env : Env} {disk : Disk} (h2 : 2 ≤ disk.size)
    (hle : disk.size ≤ 4294967295) (unused : Nat → Bool) :
    Keeps (filesysInit true unused) (fun _ s' => Serving [] s') (boot env disk) := by
  refine wp_mono (wp_and (filesysInit_wp h2 hle unused)
    (filesysInit_steps cwds_starting true unused _)) (fun _ he => he.1) fun _ s' h hf => ?_
  obtain ⟨f, ho⟩ := h.1 hf
  have hcwds : s'.cwds = [] := h.2
  refine ⟨⟨f, [], [rootDirSector, freeMapSector], ?_⟩, fun file hfile => absurd hfile List.not_mem_nil⟩
  rw [hcwds]
  exact ho

end Pintos.Filesys
