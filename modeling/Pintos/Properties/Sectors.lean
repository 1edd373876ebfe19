import Pintos.Properties.Ownership

/-!
# Sectors over whole runs

`Orderly` is what holds of the file system between two steps of a call: no sector has two owners,
and each open inode has its handles. `Owns ts x ts'` is a triple about it, as long as none of five
events happens: an allocation for an index block is refused, an inode with more than 123 sectors is
released, `inode_open` is called for a header that is not live or for the free map, `dir_remove`
closes a directory twice.

Handles are of two kinds. Clients keep theirs from call to call; a call closes the ones that it
opens. A removed inode has a handle of a client, so that no call releases one in passing.
-/

namespace Pintos.Filesys

open Pintos.Logic Pintos.Logic.Exec Pintos.Lib

attribute [local irreducible] Exec.wp

variable {s s' : Fs} {a : Addr} {i : Inode} {k : Nat} {f : File} {cs ts : List Addr}
  {ls : List Nat}

/-! ## Open inodes but for their data -/

/-- The open inodes without their data. -/
def Fs.shape (s : Fs) : List Inode := s.openInodes.map fun i => { i with data := Bytes.zeros }

theorem mem_of_shape (h : s'.shape = s.shape) {i' : Inode} (hi : i' ∈ s'.openInodes) :
    ∃ i ∈ s.openInodes, i' = { i with data := i'.data } := by
  have hmem : { i' with data := Bytes.zeros } ∈ s.shape := h ▸ List.mem_map_of_mem hi
  obtain ⟨i, hi, he⟩ := List.mem_map.mp hmem
  refine ⟨i, hi, ?_⟩
  cases i
  cases i'
  simp_all

theorem shape_mapInode (s : Fs) (a : Addr) (data : Block) :
    (s.mapInode a fun i => { i with data }).shape = s.shape :=
  Counted.map_mapInode s a _ _ fun _ => rfl

theorem shape_congr (h : s'.openInodes = s.openInodes) : s'.shape = s.shape := by
  rw [Fs.shape, Fs.shape, h]

/-- What a write may change of the state besides sectors and the free map. -/
structure SameShape (s s' : Fs) : Prop where
  shape : s'.shape = s.shape
  file : s'.freeMapFile = s.freeMapFile
  live : s'.history.live = s.history.live
  nextAddr : s'.nextAddr = s.nextAddr

theorem SameShape.trans {s'' : Fs} (h : SameShape s s') (h' : SameShape s' s'') :
    SameShape s s'' :=
  ⟨h'.shape.trans h.shape, h'.file.trans h.file, h'.live.trans h.live,
    h'.nextAddr.trans h.nextAddr⟩

theorem Stored.sameShape (h : Stored s s') : SameShape s s' :=
  ⟨shape_congr h.openInodes, h.freeMapFile, by rw [h.history], h.nextAddr⟩

theorem sameShape_data (s : Fs) (a : Addr) (data : Block) :
    SameShape s (s.mapInode a fun i => { i with data }) :=
  ⟨shape_mapInode s a data, rfl, rfl, rfl⟩

theorem Grows.sameShape {D : Nat → Prop} (h : Grows D s s') : SameShape s s' :=
  ⟨shape_congr h.openInodes, h.freeMapFile, h.live, by rw [h.rest]⟩

theorem Extended.sameShape {length : Int} {ok : Bool} {data : Block}
    (h : Extended s a i length ok data s') : SameShape s s' := by
  cases h with
  | failed hext _ _ => exact hext.toGrows.sameShape.trans (sameShape_data ..)
  | done hext _ _ _ _ hst _ =>
    exact (hext.toGrows.sameShape.trans (sameShape_data ..)).trans hst.sameShape

theorem Written.sameShape {buffer : Nat → UInt8} {size r : Int} {o : Nat} {data : Block}
    (h : Written s a i buffer size o r data s') : SameShape s s' := by
  cases h with
  | denied _ => exact (Stored.refl s).sameShape
  | inside _ _ hst _ => exact hst.sameShape
  | failed _ _ he => exact he.sameShape
  | extended _ _ he hst _ => exact he.sameShape.trans hst.sameShape

/-! ## States between two steps -/

/-- The file system is in order. The free map's file is `f`, the live headers are `ls`. The clients
have the handles `cs`, the running call has `ts`. -/
structure Orderly (f : File) (cs : List Addr) (ls : List Nat) (ts : List Addr) (s : Fs) :
    Prop where
  separate : Separate s
  counted : Counted (f.inode :: (ts ++ cs)) s
  file : s.freeMapFile = some f
  live : s.history.live = ls
  sector : ∀ a ∈ ts ++ cs, ∀ i, s.inode? a = some i → i.sector ≠ freeMapSector
  removed : ∀ i ∈ s.openInodes, i.removed = true → i.addr ∈ cs

theorem Orderly.openInode (h : Orderly f cs ls ts s) (ha : a ∈ ts ++ cs) :
    ∃ i, OpenInode (f.inode :: (ts ++ cs)) s a i := by
  obtain ⟨i, hi⟩ := inode?_of_counted h.counted (List.mem_cons_of_mem _ ha)
  exact ⟨i, h.separate, h.counted, hi, h.sector a ha i hi⟩

/-- The inodes are the same but for their data. -/
theorem Orderly.sameShape (h : Orderly f cs ls ts s) (hs : SameShape s s')
    (hsep : Separate s') : Orderly f cs ls ts s' where
  separate := hsep
  counted := by
    refine h.counted.congr ?_ hs.nextAddr
    have hmap := congrArg (List.map fun i : Inode => (i.addr, i.sector, i.openCnt)) hs.shape
    rwa [Fs.shape, Fs.shape, List.map_map, List.map_map] at hmap
  file := hs.file.trans h.file
  live := hs.live.trans h.live
  sector a ha i hi := by
    obtain ⟨hmem, haddr⟩ := inode?_some hi
    obtain ⟨j, hj, he⟩ := mem_of_shape hs.shape hmem
    obtain ⟨j', hj'⟩ := inode?_of_counted h.counted (List.mem_cons_of_mem _ ha)
    obtain ⟨hmem', haddr'⟩ := inode?_some hj'
    have haj : j.addr = a := by rw [← haddr, he]
    have hjj := List.inj_on_of_nodup_map h.counted.addrs hj hmem' (haj.trans haddr'.symm)
    rw [he]
    exact h.sector a ha j (hjj ▸ hj')
  removed i hi hr := by
    obtain ⟨j, hj, he⟩ := mem_of_shape hs.shape hi
    rw [he] at hr ⊢
    exact h.removed j hj hr

theorem Orderly.looks (h : Orderly f cs ls ts s) (hl : Looks s s') : Orderly f cs ls ts s' :=
  h.sameShape hl.toStored.sameShape (h.separate.changes (hl.changes h.separate.freeMap))

/-! ## Triples -/

/-- The events after which sectors may have two owners. -/
def sharingEvents : List Event :=
  [.indexRefused, .overrun, .deadOpen, .freeMapShared, .dirRemoved]

/-- `free_map_release` is not called for a free sector, unless one of the events has happened. -/
abbrev Safe (e : Stop) : Prop := e.history.Free sharingEvents → e.fault ≠ .releaseFree

/-- Code that starts with the handles `ts` in order and returns `a` ends with the handles `ts' a` in
order, unless one of the events happens. -/
def Owns {α : Type} (f : File) (cs : List Addr) (ls : List Nat) (ts : List Addr) (x : Kernel α)
    (ts' : α → List Addr) : Prop :=
  ∀ s, (s.history.Free sharingEvents → Orderly f cs ls ts s) →
    x.wp Safe (fun a s' => s'.history.Free sharingEvents → Orderly f cs ls (ts' a) s') s

section

variable {α β : Type}

theorem Owns.bind {x : Kernel α} {g : α → Kernel β} {ts₁ : α → List Addr} {ts' : β → List Addr}
    (hx : Owns f cs ls ts x ts₁) (hg : ∀ a, Owns f cs ls (ts₁ a) (g a) ts') :
    Owns f cs ls ts (x >>= g) ts' := by
  intro s h
  rw [wp_bind]
  exact wp_mono (hx s h) (fun _ h => h) fun a s' h' => hg a s' h'

theorem Owns.pure (a : α) {ts' : α → List Addr} (h : ts' a = ts) :
    Owns f cs ls ts (Pure.pure a) ts' := by
  intro s hs
  rw [wp_pure, h]
  exact hs

theorem Owns.ite {c : Prop} [Decidable c] {x y : Kernel α} {ts' : α → List Addr}
    (hx : Owns f cs ls ts x ts') (hy : Owns f cs ls ts y ts') :
    Owns f cs ls ts (if c then x else y) ts' := by
  split
  · exact hx
  · exact hy

theorem Owns.fail {fault : Fault} (h : fault ≠ .releaseFree) {ts' : α → List Addr} :
    Owns f cs ls ts (Filesys.fail fault : Kernel α) ts' := by
  intro s _
  unfold Exec.wp Filesys.fail
  exact fun _ => h

/-- It is enough to look at states in order before any of the events. -/
theorem Owns.of_free {x : Kernel α} {ts' : α → List Addr}
    (hx : ∀ (R : Fs → Fs → Prop) (F : Fs → Stop → Prop), Loud R F → Steps R F x)
    (h : ∀ s, s.history.Free sharingEvents → Orderly f cs ls ts s →
      x.wp Safe (fun a s' => s'.history.Free sharingEvents → Orderly f cs ls (ts' a) s') s) :
    Owns f cs ls ts x ts' := by
  intro s hs
  by_cases hf : s.history.Free sharingEvents
  · exact h s hf (hs hf)
  · exact wp_mono (hx _ _ events_loud s) (fun _ hle hf' => absurd (hf'.of_le hle) hf)
      fun _ _ hle hf' => absurd (hf'.of_le hle) hf

/-- Code that only reads releases nothing. -/
theorem looks_safe : Reading Looks fun _ e => e.fault ≠ .releaseFree where
  refl := Looks.refl
  trans := Looks.trans
  fault _ h := h
  stop _ _ h := h.2.1
  look _ _ _ h hv := ⟨stored_step h, hv⟩

theorem derefs_safe (a : Addr) : Derefs (fun _ e => e.fault ≠ .releaseFree) a :=
  fun _ _ => Fault.noConfusion

/-- Code that only reads. -/
theorem Owns.of_reading {x : Kernel α}
    (hx : ∀ (R : Fs → Fs → Prop) (F : Fs → Stop → Prop), Reading R F → (∀ a, Derefs F a) →
      Steps R F x) :
    Owns f cs ls ts x fun _ => ts := fun s hs =>
  wp_mono (hx _ _ looks_safe derefs_safe s) (fun _ h _ => h) fun _ _ hl hf =>
    (hs (hl.history ▸ hf)).looks hl

end

/-! ## Writing -/

theorem wp_writeSector_ge {E : Stop → Prop} {Q : Unit → Fs → Prop} {b : Block}
    (h : s.size ≤ k) (hE : E ⟨.pastEnd, s.history⟩) : (writeSector k b).wp E Q s := by
  have hw : s.store.write k b (s.env.ticks s.clock.steps) = .error .pastEnd := Store.write_of_ge _ h b _
  unfold Exec.wp writeSector
  rw [hw]
  exact hE

theorem wp_readSector_ge {E : Stop → Prop} {Q : Block → Fs → Prop} (h : s.size ≤ k)
    (hE : E ⟨.pastEnd, s.history⟩) : (readSector k).wp E Q s := by
  have hr : s.store.read k (s.env.ticks s.clock.steps) = .error .pastEnd := Store.read_of_ge _ h _
  unfold Exec.wp readSector
  rw [hr]
  exact hE

/-- A write at a negative offset finds no sector to write to. -/
theorem writeLoop_negative {offset : Int} (hi : s.inode? a = some i) (hsize : s.size ≤ noSector)
    (ho : offset < 0) (buffer : Nat → UInt8) (fuel : Nat) (size written : Int) (bounce : Bool) :
    (writeLoop a buffer fuel size offset written bounce).wp (fun e => e.fault ≠ .releaseFree)
      (fun _ s' => Looks s s') s := by
  have hpanic : Fault.pastEnd ≠ .releaseFree := by decide
  cases fuel with
  | zero =>
    rw [writeLoop, wp_pure]
    exact .refl s
  | succ fuel =>
    rw [writeLoop]
    refine (wp_ite _ _).mpr ⟨fun _ => (wp_pure _).mpr (.refl s), fun _ => ?_⟩
    rw [wp_bind]
    refine wp_deref hi ?_
    rw [wp_bind, byteToSector, if_pos (.inl ho), wp_pure]
    refine (wp_ite _ _).mpr ⟨fun _ => (wp_pure _).mpr (.refl s), fun _ => ?_⟩
    refine (wp_ite _ _).mpr ⟨fun _ => ?_, fun _ => ?_⟩
    · rw [wp_bind]
      exact wp_writeSector_ge hsize hpanic
    rw [wp_bind]
    refine wp_mono (wp_bounce (.refl s) bounce) (fun _ h => h) fun ready s₁ h₁ => ?_
    have hsize' : s₁.size ≤ noSector := h₁.1.size.trans_le hsize
    refine (wp_ite _ _).mpr ⟨fun _ => ?_, fun _ => (wp_pure _).mpr h₁.1⟩
    rw [wp_bind, wp_ite, wp_pure, wp_bind]
    exact ⟨fun _ => wp_readSector_ge hsize' hpanic, fun _ => wp_writeSector_ge hsize' hpanic⟩

theorem not_free_of_mem {h : History} {event : Event} (he : event ∈ sharingEvents)
    (hm : event ∈ h.events) : ¬ h.Free sharingEvents := fun hf => hf event he hm

theorem Starved.safe {env : Env} {e : Stop} (h : Starved env e) : Safe e := by
  intro hf
  rcases h.2 with hfault | hevent
  · rw [hfault]
    decide
  · exact absurd hf (not_free_of_mem (by decide) hevent)

/-- A write through any handle keeps the inodes apart. -/
theorem OpenInode.inodeWriteAt {hs : List Addr} (h : OpenInode hs s a i) (buffer : Nat → UInt8)
    (size offset : Int) : (inodeWriteAt a buffer size offset).wp Safe
      (fun _ s' => s'.history.Free sharingEvents → Separate s' ∧ SameShape s s') s := by
  have hlooks : ∀ {t t' : Fs}, Separate t → SameShape s t → Looks t t' →
      t'.history.Free sharingEvents → Separate t' ∧ SameShape s t' := fun hsep hsame hl _ =>
    ⟨hsep.changes (hl.changes hsep.freeMap), hsame.trans hl.toStored.sameShape⟩
  have hsame : SameShape s s := (Stored.refl s).sameShape
  by_cases ho : 0 ≤ offset
  · obtain ⟨o, rfl⟩ := Int.eq_ofNat_of_zero_le ho
    refine wp_mono (inodeWriteAt_written h.file buffer size o) (fun _ he => he.safe)
      fun r s' h' hf => ?_
    obtain ⟨data, hw⟩ := h'.resolve_right fun hr => not_free_of_mem (by decide) hr.2.2 hf
    exact ⟨(hw.openInode h).separate, hw.sameShape⟩
  · have hneg : offset < 0 := Int.not_le.mp ho
    refine wp_inodeWriteAt h.file (fun _ he => he.safe)
      (fun _ => hlooks h.separate hsame (.refl s)) (fun _ _ s₁ hl => ?_)
      (fun _ _ ok data s₁ he => ?_) fun _ _ s' _ hev hf =>
        absurd hf (not_free_of_mem (by decide) hev)
    · have hloop := writeLoop_negative ((hl.inode? a).trans h.inode)
        (hl.size.trans_le h.separate.freeMap.size_le) hneg buffer size.toNat size 0 false
      exact wp_mono hloop (fun _ he _ => he) fun _ s' hl' =>
        hlooks h.separate hsame (hl.trans hl')
    · have hopen := he.openInode h (wrap32_range _).2
      cases ok with
      | false =>
        rw [if_neg Bool.false_ne_true, wp_pure]
        exact hlooks hopen.separate he.sameShape (.refl s₁)
      | true =>
        rw [if_pos rfl]
        have hloop := writeLoop_negative hopen.inode hopen.separate.freeMap.size_le hneg buffer
          size.toNat size 0 false
        exact wp_mono hloop (fun _ he _ => he) fun _ s' hl' =>
          hlooks hopen.separate he.sameShape hl'

theorem inodeWriteAt_owns (ha : a ∈ ts ++ cs) (buffer : Nat → UInt8) (size offset : Int) :
    Owns f cs ls ts (inodeWriteAt a buffer size offset) fun _ => ts := by
  refine Owns.of_free (fun _ _ l => inodeWriteAt_steps l.toQuiet (l.derefs _) _ _ _) fun s _ h => ?_
  obtain ⟨i, hi⟩ := h.openInode ha
  exact wp_mono (hi.inodeWriteAt buffer size offset) (fun _ h => h) fun _ s' h' hf =>
    h.sameShape (h' hf).2 (h' hf).1

theorem writeEntry_owns (ha : a ∈ ts ++ cs) (ofs : Int) (e : DirEntry) :
    Owns f cs ls ts (writeEntry a ofs e) fun _ => ts :=
  Owns.bind (inodeWriteAt_owns ha _ _ _) fun _ => Owns.pure _ rfl

/-! ## Opening -/

/-- After one of the events nothing is said of a call. -/
theorem wp_unfree {α : Type} {x : Kernel α} {P : α → Fs → Prop}
    (hx : ∀ (R : Fs → Fs → Prop) (F : Fs → Stop → Prop), Loud R F → Steps R F x)
    (hs : ¬ s.history.Free sharingEvents) :
    x.wp Safe (fun a s' => s'.history.Free sharingEvents → P a s') s :=
  wp_mono (hx _ _ events_loud s) (fun _ hle hf => absurd (hf.of_le hle) hs)
    fun _ _ hle hf => absurd (hf.of_le hle) hs

/-- An event that is looked for has not happened, or nothing is said of what follows. -/
theorem wp_recordIf_bind {α : Type} {c : Fs → Bool} {event : Event} {g : Unit → Kernel α}
    {P : α → Fs → Prop} (he : event ∈ sharingEvents)
    (hg : ∀ (R : Fs → Fs → Prop) (F : Fs → Stop → Prop), Loud R F → Steps R F (g ()))
    (h : c s = false → (g ()).wp Safe (fun a s' => s'.history.Free sharingEvents → P a s') s) :
    (recordIf c event >>= g).wp Safe (fun a s' => s'.history.Free sharingEvents → P a s') s := by
  cases hc : c s with
  | false =>
    rw [wp_bind]
    exact wp_of_run (recordIf_false hc) (h hc)
  | true =>
    rw [wp_bind, recordIf, wp_modify, hc, if_pos rfl]
    exact wp_unfree hg (not_free_of_mem he List.mem_cons_self)

/-- A change of an open inode in what is neither its place nor its data. -/
theorem OpenInode.changes_mapInode {hs : List Addr} (h : OpenInode hs s a i) {g : Inode → Inode}
    (hg : ∀ i, (g i).addr = i.addr ∧ (g i).sector = i.sector ∧ (g i).data = i.data) :
    Changes freeMapSector s (s.mapInode a g) := by
  have haddr := fun j => (hg j).1
  refine changes_none (h.separate.freeMap.mapInode haddr h.not_map) rfl
    (fun j hj => (taken_mapInode haddr h.not_map).mpr hj) (fun _ _ => rfl) (fun k => ?_)
    (freeMapInode?_mapInode haddr h.not_map)
  rw [memory_mapInode h.counted h.inode fun j => (hg j).2.1]
  split
  · next hk => rw [hk, (hg i).2.2, h.memory]
  · rfl

/-- The handles of a call are those of `ts` and `ts'` after a change of one inode in what is neither
its place nor its data. -/
theorem Orderly.mapInode {ts' cs' : List Addr} (h : Orderly f cs ls ts s) (ha : a ∈ ts ++ cs)
    {g : Inode → Inode}
    (hg : ∀ i, (g i).addr = i.addr ∧ (g i).sector = i.sector ∧ (g i).data = i.data)
    (hcounted : Counted (f.inode :: (ts' ++ cs')) (s.mapInode a g))
    (hmem : ∀ b ∈ ts' ++ cs', b ∈ ts ++ cs)
    (hremoved : ∀ i ∈ s.openInodes, (if i.addr = a then g i else i).removed = true →
      i.addr ∈ cs') :
    Orderly f cs' ls ts' (s.mapInode a g) where
  separate := by
    obtain ⟨i, hi⟩ := h.openInode ha
    exact h.separate.changes (hi.changes_mapInode hg)
  counted := hcounted
  file := h.file
  live := h.live
  sector b hb j hj := by
    obtain ⟨hmem', haddr⟩ := inode?_some hj
    obtain ⟨i', hi', rfl⟩ := Counted.mem_mapInode hmem'
    obtain ⟨j', hj'⟩ := inode?_of_counted h.counted (List.mem_cons_of_mem _ (hmem b hb))
    obtain ⟨hmemj, haddrj⟩ := inode?_some hj'
    have hfields : (if i'.addr = a then g i' else i').addr = i'.addr ∧
        (if i'.addr = a then g i' else i').sector = i'.sector := by
      split
      · exact ⟨(hg i').1, (hg i').2.1⟩
      · exact ⟨rfl, rfl⟩
    have heq := List.inj_on_of_nodup_map h.counted.addrs hi' hmemj
      (hfields.1.symm.trans (haddr.trans haddrj.symm))
    rw [hfields.2, heq]
    exact h.sector b (hmem b hb) j' hj'
  removed i hi hr := by
    obtain ⟨i', hi', rfl⟩ := Counted.mem_mapInode hi
    have hmem' := hremoved i' hi' hr
    split
    · rwa [(hg i').1]
    · exact hmem'

theorem inodeReopen_owns (ha : a ∈ ts ++ cs) :
    Owns f cs ls ts (inodeReopen a) fun b => b :: ts := by
  refine Owns.of_free (fun _ _ l => inodeReopen_steps l _) fun s _ h => ?_
  obtain ⟨i, hi⟩ := h.openInode ha
  unfold inodeReopen
  rw [wp_bind]
  refine wp_deref hi.inode ?_
  rw [wp_bind, modifyInode, wp_modify, wp_pure]
  intro _
  have hcounted := (h.counted.reopen (List.mem_cons_of_mem _ ha)).perm (List.Perm.swap _ _ _)
  refine h.mapInode ha (fun _ => ⟨rfl, rfl, rfl⟩) hcounted (fun b hb => ?_) fun j hj hr => ?_
  · rcases List.mem_cons.mp hb with rfl | hb
    · exact ha
    · exact hb
  · refine h.removed j hj ?_
    split at hr
    · exact hr
    · exact hr

/-- The free map's inode is open. -/
theorem Orderly.mapOpen (h : Orderly f cs ls ts s) :
    ∃ i, s.inode? f.inode = some i ∧ s.freeMapInode? = some i ∧ i.sector = freeMapSector := by
  obtain ⟨i, hi, -⟩ := h.separate.freeMap.file f h.file
  have hmap : s.freeMapInode? = some i := by rw [Fs.freeMapInode?, h.file, Option.bind_some, hi]
  exact ⟨i, hi, hmap, h.separate.mapSector i hmap⟩

/-- An inode that is open is open for the free map, a client or the running call. -/
theorem Orderly.mem_of_sector (h : Orderly f cs ls ts s) (hi : i ∈ s.openInodes)
    (hk : i.sector ≠ freeMapSector) : i.addr ∈ ts ++ cs := by
  refine (List.mem_cons.mp (h.counted.held i hi)).resolve_left fun he => ?_
  obtain ⟨j, hj, -, h0⟩ := h.mapOpen
  obtain ⟨hmem, haddr⟩ := inode?_some hj
  have hij := List.inj_on_of_nodup_map h.counted.addrs hi hmem (he.trans haddr.symm)
  exact hk (hij ▸ h0)

/-- The inode in the sector `k` is opened. -/
def Fs.withNew (s : Fs) (k : Nat) : Fs := { s with
  nextAddr := s.nextAddr + 1
  openInodes := newInode s k :: s.openInodes }

theorem inode?_withNew {b : Addr} (hb : b ≠ s.nextAddr) : (s.withNew k).inode? b = s.inode? b := by
  show (newInode s k :: s.openInodes).find? _ = s.openInodes.find? _
  rw [List.find?_cons_of_neg]
  simpa [newInode] using Ne.symm hb

theorem Counted.ne_nextAddr {hs : List Addr} (h : Counted hs s) {b : Addr}
    (hi : s.inode? b = some i) : b ≠ s.nextAddr := by
  obtain ⟨hmem, haddr⟩ := inode?_some hi
  exact haddr ▸ Nat.ne_of_lt (h.fresh _ hmem)

theorem Orderly.freeMapInode?_withNew (h : Orderly f cs ls ts s) (k : Nat) :
    (s.withNew k).freeMapInode? = s.freeMapInode? := by
  obtain ⟨m, hm, hmap, -⟩ := h.mapOpen
  have hfile : (s.withNew k).freeMapFile = some f := h.file
  rw [hmap, Fs.freeMapInode?, hfile, Option.bind_some,
    inode?_withNew (h.counted.ne_nextAddr hm), hm]

/-- The inode of a live header is read from the device. -/
theorem Orderly.opened (h : Orderly f cs ls ts s) (hk : s.Live k)
    (hnew : ∀ i ∈ s.openInodes, i.sector ≠ k) :
    Orderly f cs ls (s.nextAddr :: ts) (s.withNew k) := by
  have hfresh : ∀ {b : Addr} {j : Inode}, s.inode? b = some j → b ≠ s.nextAddr :=
    fun hj => h.counted.ne_nextAddr hj
  have hother := fun b hb => inode?_withNew (s := s) (k := k) (b := b) hb
  have hmap' := h.freeMapInode?_withNew k
  have hclosed := memory_closed hnew
  have hmemory : ∀ j, (s.withNew k).memory j =
        if j = k then some (s.view k) else s.memory j := fun j => by
    show ((newInode s k :: s.openInodes).find? _).map _ = _
    by_cases hj : j = k
    · rw [if_pos hj, List.find?_cons_of_pos (by simp [newInode, hj])]
      rfl
    · rw [if_neg hj, List.find?_cons_of_neg (by simpa [newInode] using Ne.symm hj)]
      rfl
  have htaken : ∀ j, s.Taken j → (s.withNew k).Taken j := fun j hj => by
    unfold Fs.Taken Fs.OfFreeMap
    rw [hmap']
    exact hj
  -- the header in memory is the one on the device
  have hheader : (s.withNew k).header k = s.header k := by
    rw [Fs.header, hmemory, if_pos rfl, header_closed hclosed, Option.getD_some]
  have hchanges : Changes k s (s.withNew k) := {
    freeMap := {
      bitCnt := h.separate.freeMap.bitCnt
      size_le := h.separate.freeMap.size_le
      header := h.separate.freeMap.header
      file := fun g hg => by
        obtain ⟨j, hj, hfile⟩ := h.separate.freeMap.file g hg
        exact ⟨j, (hother _ (hfresh hj)).trans hj,
          hfile.congr rfl (fun _ _ => rfl) fun x hx h0 => hfile.owned.ok x hx h0⟩ }
    live := rfl
    taken := htaken
    spares := fun _ _ _ => rfl
    memory := fun j hj => by rw [hmemory, if_neg hj]
    pointers := fun _ => by
      rw [hheader]
      exact .of_eq fun _ _ => rfl
    new := fun _ x _ h0 hne => absurd h0 (by rw [hheader] at hne; exact hne)
    whole := fun hlive => h.separate.whole k hlive
    opened := fun data hdata _ => by
      rw [hmemory, if_pos rfl, Option.some_inj] at hdata
      exact ⟨hk, hdata ▸ Ahead.refl _⟩
    mapInode := hmap' }
  exact {
    separate := h.separate.changes hchanges
    counted := (h.counted.cons hnew (s.view k)).perm (List.Perm.swap _ _ _)
    file := h.file
    live := h.live
    sector := fun b hb j hj => by
      rcases List.mem_cons.mp hb with rfl | hb
      · have hj : some (newInode s k) = some j := by
          rw [← hj]
          show _ = (newInode s k :: s.openInodes).find? _
          rw [List.find?_cons_of_pos (by simp [newInode])]
        cases hj
        exact hk.2
      · obtain ⟨j', hj'⟩ := inode?_of_counted h.counted (List.mem_cons_of_mem _ hb)
        rw [hother b (hfresh hj')] at hj
        exact h.sector b hb j hj
    removed := fun j hj hr => by
      rcases List.mem_cons.mp hj with rfl | hj
      · cases hr
      · exact h.removed j hj hr }

theorem inodeOpen_owns (k : Nat) :
    Owns f cs ls ts (inodeOpen k) fun r => r.toList ++ ts := by
  refine Owns.of_free (fun _ _ l => inodeOpen_steps l _) fun s _ h => ?_
  unfold inodeOpen
  refine wp_recordIf_bind (by decide) (fun _ _ l => l.bind (l.gets _) fun is => ?_)
    fun hlive => ?_
  · cases is.find? (·.sector == k) with
    | some i =>
      exact l.bind (recordIf_steps l.toQuiet _ _) fun _ =>
        Steps.map l.toStepRel _ (inodeReopen_steps l _)
    | none =>
      refine l.bind (malloc_steps l.toReading) fun _ => Steps.ite ?_ (l.pure _)
      exact l.bind (readSector_steps l.toReading _) fun _ => newInode_steps l _ _
  have hlive : k ∈ s.history.live := by simpa using hlive
  rw [wp_bind, wp_gets]
  cases hfind : s.openInodes.find? (·.sector == k) with
  | some i =>
    have hsector : i.sector = k := by simpa using List.find?_some hfind
    have hmem := List.mem_of_find?_eq_some hfind
    refine wp_recordIf_bind (by decide) (fun _ _ l => ?_) fun h0 => ?_
    · exact Steps.map l.toStepRel _ (inodeReopen_steps l _)
    rw [wp_map]
    have h0 : k ≠ freeMapSector := by simpa using h0
    exact inodeReopen_owns (h.mem_of_sector hmem (hsector ▸ h0)) s fun _ => h
  | none =>
    have hne : ∀ i ∈ s.openInodes, i.sector ≠ k := by simpa using List.find?_eq_none.mp hfind
    dsimp only
    rw [wp_bind]
    refine wp_malloc fun r s₁ h₁ _ => ?_
    have h₁' := h.looks h₁
    cases r with
    | false => exact (wp_pure _).mpr fun _ => h₁'
    | true =>
      have hk : s₁.Live k := by
        refine ⟨by rwa [h₁.history], fun h0 => ?_⟩
        obtain ⟨m, hm, -, hm0⟩ := h.mapOpen
        exact hne m (inode?_some hm).1 (hm0.trans h0.symm)
      have hlt := h₁'.separate.freeMap.used_lt (h₁'.separate.taken hk).1
      rw [if_pos rfl, wp_bind]
      refine wp_readSector hlt fun s₂ h₂ => ?_
      have hk₂ : s₂.Live k := ⟨by rw [h₂.history]; exact hk.1, hk.2⟩
      rw [wp_bind, wp_gets, wp_bind, wp_modify, wp_pure]
      intro _
      have hopened := (h₁'.looks h₂).opened hk₂ fun j hj => hne j (by
        rwa [h₂.openInodes, h₁.openInodes] at hj)
      have hview : s₁.view k = s₂.view k := by rw [h₂.view]
      rw [hview]
      exact hopened

/-! ## Closing -/

/-- The last handle of the inode at `a` is closed. -/
def Fs.withClosed (s : Fs) (a : Addr) : Fs :=
  { s.mapInode a (fun i => { i with openCnt := i.openCnt - 1 }) with
    openInodes := (s.mapInode a fun i => { i with openCnt := i.openCnt - 1 }).openInodes.filter
      (·.addr != a) }

theorem withClosed_openInodes (s : Fs) (a : Addr) :
    (s.withClosed a).openInodes = s.openInodes.filter (·.addr != a) := by
  show (s.openInodes.map _).filter _ = _
  rw [List.filter_map]
  have hpred : ((·.addr != a) ∘ fun i : Inode =>
      if i.addr = a then { i with openCnt := i.openCnt - 1 } else i) = (·.addr != a) := by
    funext j
    show (Inode.addr (if j.addr = a then { j with openCnt := j.openCnt - 1 } else j) != a) =
      (j.addr != a)
    split
    · rfl
    · rfl
  rw [hpred]
  refine (List.map_congr_left fun j hj => ?_).trans (List.map_id _)
  have hne : j.addr ≠ a := by simpa using (List.mem_filter.mp hj).2
  rw [if_neg hne, id]

theorem mem_withClosed {i : Inode} :
    i ∈ (s.withClosed a).openInodes ↔ i ∈ s.openInodes ∧ i.addr ≠ a := by
  rw [withClosed_openInodes, List.mem_filter, bne_iff_ne]

theorem inode?_withClosed {b : Addr} (hb : b ≠ a) : (s.withClosed a).inode? b = s.inode? b := by
  rw [Fs.inode?, withClosed_openInodes, List.find?_filter]
  congr 1
  funext j
  by_cases hj : j.addr = b
  · simp [hj, hb]
  · simp [hj]

theorem memory_eq_some (hn : (s.openInodes.map (·.sector)).Nodup) {data : Block} :
    s.memory k = some data ↔ ∃ i ∈ s.openInodes, i.sector = k ∧ i.data = data := by
  constructor
  · intro h
    obtain ⟨i, hi, hdata⟩ := Option.map_eq_some_iff.mp h
    exact ⟨i, List.mem_of_find?_eq_some hi, by simpa using List.find?_some hi, hdata⟩
  · rintro ⟨i, hi, rfl, rfl⟩
    exact memory_open hn hi

/-- Headers in memory have been dropped, and nothing else has changed of the inodes. -/
structure Drops (s s' : Fs) : Prop where
  freeMap : FreeMapOk s'
  live : s'.history.live = s.history.live
  taken : ∀ j, s.Taken j → s'.Taken j
  view : s'.view = s.view
  memory : ∀ k data, s'.memory k = some data → s.memory k = some data
  mapInode : s'.freeMapInode? = s.freeMapInode?

theorem Drops.live_iff (hd : Drops s s') {k : Nat} : s'.Live k ↔ s.Live k := by
  rw [Fs.Live, Fs.Live, hd.live]

theorem Drops.isSite (hd : Drops s s') {p : Site} : IsSite s' p ↔ IsSite s p :=
  isSite_congr fun _ => hd.live_iff

/-- Only the header in memory may have a sector that the one on the device does not have. -/
theorem Drops.site (hd : Drops s s') (h : Separate s) {p : Site} (hp : IsSite s p) :
    site s' p = site s p ∨ site s' p = 0 := by
  obtain ⟨k, x⟩ := p
  cases x with
  | none => exact .inl rfl
  | some x =>
    have hahead : Ahead (s'.header k) (s.header k) := by
      cases hmem : s'.memory k with
      | none =>
        rw [header_closed hmem, hd.view]
        exact h.ahead hp.1
      | some data =>
        rw [Fs.header, Fs.header, hmem, hd.memory k data hmem]
        exact Ahead.refl _
    show ptr s'.view _ _ = _ ∨ ptr s'.view _ _ = _
    rw [hd.view]
    exact hahead.ptr s.view hp.2

/-- The header on the device takes the place of the one in memory. -/
theorem Separate.drops (h : Separate s) (hd : Drops s s') : Separate s' where
  freeMap := hd.freeMap
  once := hd.live ▸ h.once
  owned := {
    ok := fun p hp hne => by
      have hp' := hd.isSite.mp hp
      have he := (hd.site h hp').resolve_right hne
      rw [he] at hne ⊢
      exact hd.taken _ (h.owned.ok p hp' hne)
    inj := fun p q hp hq hne he => by
      have hp' := (hd.site h (hd.isSite.mp hp)).resolve_right hne
      have hq' := (hd.site h (hd.isSite.mp hq)).resolve_right (he ▸ hne)
      exact h.owned.inj p q (hd.isSite.mp hp) (hd.isSite.mp hq) (hp' ▸ hne)
        (hp'.symm.trans (he.trans hq')) }
  whole k hk := by
    rw [hd.view]
    exact h.whole k (hd.live_iff.mp hk)
  opened k data hmem h0 := by
    obtain ⟨hk, ha⟩ := h.opened k data (hd.memory k data hmem) h0
    exact ⟨hd.live_iff.mpr hk, hd.view ▸ ha⟩
  mapSector i hmap := h.mapSector i (hd.mapInode ▸ hmap)

theorem Orderly.not_map (h : Orderly f cs ls ts s) (ha : a ∈ ts ++ cs) : f.inode ≠ a := by
  obtain ⟨i, hi⟩ := h.openInode ha
  exact hi.not_map f h.file

/-- The last handle to an inode goes, and the inode with it. -/
theorem Orderly.closed (h : Orderly f cs ls ts s) (ts' cs' : List Addr) (ha : a ∈ ts ++ cs)
    (hnot : a ∉ ts' ++ cs') (hcs : ∀ b ∈ cs, b ≠ a → b ∈ cs')
    (hperm : (ts ++ cs).Perm (a :: (ts' ++ cs'))) :
    Orderly f cs' ls ts' (s.withClosed a) ∧ Drops s (s.withClosed a) := by
  have hmapNe := h.not_map ha
  have hmap : (s.withClosed a).freeMapInode? = s.freeMapInode? := by
    have hfile : (s.withClosed a).freeMapFile = some f := h.file
    rw [Fs.freeMapInode?, Fs.freeMapInode?, hfile, h.file, Option.bind_some, Option.bind_some,
      inode?_withClosed hmapNe]
  have hperm' : (f.inode :: (ts ++ cs)).Perm (a :: f.inode :: (ts' ++ cs')) :=
    (hperm.cons _).trans (List.Perm.swap _ _ _)
  have hnot' : a ∉ f.inode :: (ts' ++ cs') := fun hm =>
    (List.mem_cons.mp hm).elim (fun he => hmapNe he.symm) hnot
  have hcounted : Counted (f.inode :: (ts' ++ cs')) (s.withClosed a) :=
    (h.counted.perm hperm').free hnot' fun _ => rfl
  have hdrops : Drops s (s.withClosed a) := {
    freeMap := {
      bitCnt := h.separate.freeMap.bitCnt
      size_le := h.separate.freeMap.size_le
      header := h.separate.freeMap.header
      file := fun g hg => by
        obtain ⟨j, hj, hfile⟩ := h.separate.freeMap.file g hg
        have hg' : some f = some g := h.file.symm.trans hg
        cases hg'
        exact ⟨j, (inode?_withClosed hmapNe).trans hj,
          hfile.congr rfl (fun _ _ => rfl) fun x hx h0 => hfile.owned.ok x hx h0⟩ }
    live := rfl
    taken := fun j hj => by
      unfold Fs.Taken Fs.OfFreeMap
      rw [hmap]
      exact hj
    view := rfl
    memory := fun k data hm => by
      obtain ⟨j, hj, hk, hd⟩ := (memory_eq_some hcounted.sectors).mp hm
      exact (memory_eq_some h.counted.sectors).mpr ⟨j, (mem_withClosed.mp hj).1, hk, hd⟩
    mapInode := hmap }
  refine ⟨?_, hdrops⟩
  exact {
    separate := h.separate.drops hdrops
    counted := hcounted
    file := h.file
    live := h.live
    sector := fun b hb j hj => by
      have hne : b ≠ a := fun he => hnot (he ▸ hb)
      rw [inode?_withClosed hne] at hj
      exact h.sector b (hperm.mem_iff.mpr (List.mem_cons_of_mem _ hb)) j hj
    removed := fun j hj hr => by
      obtain ⟨hj, hne⟩ := mem_withClosed.mp hj
      exact hcs _ (h.removed j hj hr) hne }

/-- A call closes one of its handles. That is never the last of a removed inode. -/
theorem inodeClose_owns (a : Addr) :
    Owns f cs ls (a :: ts) (inodeClose (some a)) fun _ => ts := by
  refine Owns.of_free (fun _ _ l => inodeClose_steps l _) fun s _ h => ?_
  obtain ⟨i, hi⟩ := h.openInode (a := a) List.mem_cons_self
  obtain ⟨hmem, haddr⟩ := inode?_some hi.inode
  have hmap : a ≠ f.inode := (h.not_map List.mem_cons_self).symm
  have hcnt : i.openCnt = (ts ++ cs).count a + 1 := by
    rw [h.counted.count i hmem, haddr, List.count_cons_of_ne hmap.symm, List.cons_append,
      List.count_cons_self]
    rfl
  have hd : derefClose a s = .ok (i, s) := by
    unfold derefClose
    rw [hi.inode]
  unfold inodeClose
  rw [wp_bind]
  refine wp_of_run hd ?_
  rw [wp_bind, modifyInode, wp_modify]
  by_cases hlast : i.openCnt - 1 = 0
  · have hnot : a ∉ ts ++ cs := by
      rw [← List.count_eq_zero]
      omega
    have hremoved : i.removed = false := by
      rw [← Bool.not_eq_true]
      intro hr
      exact hnot (List.mem_append_right _ (haddr ▸ h.removed i hmem hr))
    rw [if_pos hlast, wp_bind, wp_modify, hremoved, if_neg Bool.false_ne_true, wp_pure]
    exact fun _ => (h.closed ts cs List.mem_cons_self hnot (fun b hb _ => hb) (.refl _)).1
  · rw [if_neg hlast, wp_pure]
    have hin : a ∈ ts ++ cs := by
      rw [← List.count_pos_iff]
      omega
    have hcounted := (h.counted.perm (List.Perm.swap _ _ _)).close (List.mem_cons_of_mem _ hin)
    intro _
    refine h.mapInode List.mem_cons_self (fun _ => ⟨rfl, rfl, rfl⟩) hcounted
      (fun b hb => List.mem_cons_of_mem _ hb) fun j hj hr => h.removed j hj ?_
    split at hr
    · exact hr
    · exact hr

/-- The sector is of no live inode. -/
structure Orphan (k : Nat) (s : Fs) : Prop where
  taken : s.Taken k
  apart : ∀ p, IsSite s p → site s p ≠ k

/-- After a release of a sector that is of no other inode the sites are as before. -/
theorem Separate.site_released (h : Separate s) (hr : Released s k s')
    (hsite : ∀ p, IsSite s p → p ≠ (k, none) → site s p ≠ k) {p : Site} (hp : IsSite s' p) :
    IsSite s p ∧ p.1 ≠ k ∧ site s p ≠ k ∧ site s' p = site s p := by
  have hlive : ∀ j, s'.Live j → s.Live j ∧ j ≠ k := fun j hj => by
    rw [Fs.Live, hr.live, h.once.mem_erase_iff] at hj
    exact ⟨⟨hj.1.2, hj.2⟩, hj.1.1⟩
  have hview : ∀ j, s.Taken j → s'.view j = s.view j := fun j hj => hr.view j hj.not_data
  obtain ⟨j, x⟩ := p
  cases x with
  | none =>
    obtain ⟨hj, hne⟩ := hlive j hp
    exact ⟨hj, hne, hne, rfl⟩
  | some x =>
    obtain ⟨hj, hne⟩ := hlive j hp.1
    have hne' : ((j, some x) : Site) ≠ (k, none) := by simp
    refine ⟨⟨hj, hp.2⟩, hne, hsite (j, some x) ⟨hj, hp.2⟩ hne', ?_⟩
    have hheader : s'.header j = s.header j := by
      rw [Fs.header, Fs.header, Fs.memory, hr.openInodes, ← Fs.memory, hview j (h.taken hj)]
    show ptr s'.view (s'.header j) x = _
    rw [hheader]
    exact ptr_congr (fun _ _ => rfl) (fun y hy _ h0 n _ =>
      congrArg (·.word n) (hview _ (h.owned.ok (j, some y) ⟨hj, hy⟩ h0))) hp.2

/-- A sector that is of no live inode is released, or the header of one that is not open. -/
theorem Separate.released (h : Separate s) (hk : s.Taken k) (hr : Released s k s')
    (hsite : ∀ p, IsSite s p → p ≠ (k, none) → site s p ≠ k)
    (hclosed : ∀ i ∈ s.openInodes, i.sector ≠ k) : Separate s' := by
  have hview : ∀ j, s.Taken j → s'.view j = s.view j := fun j hj => hr.view j hj.not_data
  have htaken : ∀ j, s.Taken j → j ≠ k → s'.Taken j := fun j hj hne =>
    ⟨(hr.used j).mpr ⟨hj.1, hne⟩, fun hm => hj.2.1 (hr.ofFreeMap.mp hm), hj.2.2⟩
  have hsites : ∀ p, IsSite s' p → IsSite s p ∧ p.1 ≠ k ∧ site s p ≠ k ∧ site s' p = site s p :=
    fun p hp => h.site_released hr hsite hp
  exact {
    freeMap := h.freeMap.released hk hr
    once := hr.live ▸ h.once.erase _
    owned := {
      ok := fun p hp hp0 => by
        obtain ⟨hps, -, hne, he⟩ := hsites p hp
        rw [he] at hp0 ⊢
        exact htaken _ (h.owned.ok p hps hp0) hne
      inj := fun p q hp hq hp0 he => by
        obtain ⟨hps, -, -, hep⟩ := hsites p hp
        obtain ⟨hqs, -, -, heq⟩ := hsites q hq
        rw [hep] at hp0 he
        rw [heq] at he
        exact h.owned.inj p q hps hqs hp0 he }
    whole := fun j hj => by
      have hj' : s.Live j := (hsites (j, none) hj).1
      rw [hview j (h.taken hj')]
      refine (h.whole j hj').congr rfl fun x hx hx0 => ?_
      have hword := (((h.ahead hj').words x.1 hx.1).resolve_left (ne_zero_of_node hx0)).symm
      have heq : ptr s'.view (s.header j) x = ptr s.view (s.header j) x :=
        ptr_congr (fun _ _ => rfl) (fun y hy _ h0 n _ =>
          congrArg (·.word n) (hview _ (h.owned.ok (j, some y) ⟨hj', hy⟩ h0))) hx
      rw [ptr, ptr, ← hword] at heq
      rw [ptr, heq]
      exact hx0
    opened := fun j data hm h0 => by
      rw [Fs.memory, hr.openInodes, ← Fs.memory] at hm
      obtain ⟨hj, ha⟩ := h.opened j data hm h0
      have hjk : j ≠ k := fun he => by
        obtain ⟨i, hi, -⟩ := Option.map_eq_some_iff.mp hm
        have hsector : i.sector = j := by simpa using List.find?_some hi
        exact hclosed i (List.mem_of_find?_eq_some hi) (hsector.trans he)
      refine ⟨⟨?_, h0⟩, hview j (h.taken hj) ▸ ha⟩
      rw [hr.live, h.once.mem_erase_iff]
      exact ⟨hjk, hj.1⟩
    mapSector := fun i hi => h.mapSector i (hr.freeMapInode? ▸ hi) }

theorem Orderly.released (h : Orderly f cs ls ts s) (hk : s.Taken k) (hr : Released s k s')
    (hsite : ∀ p, IsSite s p → p ≠ (k, none) → site s p ≠ k)
    (hclosed : ∀ i ∈ s.openInodes, i.sector ≠ k) : Orderly f cs (ls.erase k) ts s' where
  separate := h.separate.released hk hr hsite hclosed
  counted := h.counted.congr (by rw [hr.openInodes]) (by rw [hr.rest])
  file := hr.freeMapFile.trans h.file
  live := hr.live.trans (by rw [h.live])
  sector a ha i hi := h.sector a ha i ((hr.inode? a).symm.trans hi)
  removed i hi hr' := h.removed i (hr.openInodes ▸ hi) hr'

theorem Orphan.not_live (ho : Orphan k s) : k ∉ s.history.live := fun hk =>
  ho.apart (k, none) ⟨hk, ho.taken.2.2⟩ rfl

theorem Orphan.closed (ho : Orphan k s) (h : Separate s) : ∀ i ∈ s.openInodes, i.sector ≠ k := by
  rintro i hi rfl
  cases hm : s.memory i.sector with
  | none =>
    have hnone := List.find?_eq_none.mp (Option.map_eq_none_iff.mp hm) i hi
    exact absurd hnone (by simp)
  | some data => exact ho.not_live (h.opened _ data hm ho.taken.2.2).1.1

/-- Sectors that are of no inode are released one after the other. -/
theorem Orderly.releaseAll (ks : List Nat) (hnd : ks.Nodup) (h : Orderly f cs ls ts s)
    (ho : ∀ k ∈ ks, Orphan k s) : (forM ks freeMapRelease).wp (fun e => e.fault ≠ .releaseFree)
      (fun _ s' => Orderly f cs ls ts s') s := by
  induction ks generalizing s with
  | nil => exact (wp_pure _).mpr h
  | cons k ks ih =>
    obtain ⟨hnew, hnd⟩ := List.nodup_cons.mp hnd
    have hk := ho k List.mem_cons_self
    have hnot : k ∉ ls := h.live ▸ hk.not_live
    rw [List.forM_cons, wp_bind]
    refine wp_mono (freeMapRelease_spec h.separate.freeMap h.file hk.taken) (fun e he => ?_)
      fun _ s₁ hr => ?_
    · rw [he.1]
      decide
    have hsite : ∀ p, IsSite s p → p ≠ (k, none) → site s p ≠ k := fun p hp _ => hk.apart p hp
    have h₁ := h.released hk.taken hr hsite (hk.closed h.separate)
    rw [List.erase_of_not_mem hnot] at h₁
    refine ih hnd h₁ fun j hj => ?_
    have hj' := ho j (List.mem_cons_of_mem _ hj)
    have hjk : j ≠ k := fun he => hnew (he ▸ hj)
    refine ⟨⟨(hr.used j).mpr ⟨hj'.taken.1, hjk⟩, fun hm => hj'.taken.2.1 (hr.ofFreeMap.mp hm),
      hj'.taken.2.2⟩, fun p hp => ?_⟩
    obtain ⟨hps, -, -, he⟩ := h.separate.site_released hr hsite hp
    exact he ▸ hj'.apart p hps

end Pintos.Filesys
