import Pintos.Filesys.Filesys

/-!
# What the code leaves alone

Most functions read and write sectors, allocate and release them and change inode headers
in memory, but open and close nothing. `Quiet R F` says that a relation holds of each of
these elementary steps; then it holds of the runs of all functions made of them. One lemma
a function gives every frame property of it, by choosing the relation.

* `Reading R F` is about code that only reads, and `Writing R F` about code that reads and
  writes sectors but allocates none.
* `Loud R F` is about all functions, with opening and closing among the steps.
  Only `filesys_cd` also changes a `cwd`.
-/

namespace Pintos.Filesys

open Pintos.Logic Pintos.Logic.Exec Pintos.Lib

/-- What has happened stays happened. -/
def History.Le (h h' : History) : Prop := h.events ⊆ h'.events

/-- A fault of code that closes no inode, releases no sector and reads no inode that is freed. -/
abbrev Fault.Mild (fault : Fault) : Prop :=
  fault ≠ .doubleClose ∧ fault ≠ .releaseFree ∧ fault ≠ .useAfterFree

/-- The stop at a pointer to an inode, if that inode is freed. -/
abbrev Derefs (F : Fs → Stop → Prop) (inode : Addr) : Prop :=
  ∀ s, s.inode? inode = none → F s ⟨.useAfterFree, s.history⟩

/-- A relation kept by every step of code that only reads. -/
structure Reading (R : Fs → Fs → Prop) (F : Fs → Stop → Prop) : Prop extends StepRel R F where
  stop : ∀ s fault, Fault.Mild fault → F s ⟨fault, s.history⟩
  look : ∀ s st clock, st.size = s.store.size → st.view = s.store.view →
    R s { s with store := st, clock }

/-- A relation kept by every step of code that reads and writes sectors. -/
structure Writing (R : Fs → Fs → Prop) (F : Fs → Stop → Prop) : Prop extends Reading R F where
  step : ∀ s st clock, st.size = s.store.size → R s { s with store := st, clock }
  look := fun s st clock h _ => step s st clock h

/-- A relation kept by every step of code that opens and closes nothing. -/
structure Quiet (R : Fs → Fs → Prop) (F : Fs → Stop → Prop) : Prop extends Writing R F where
  freeMap : ∀ s b, b.bitCnt = s.freeMap.bitCnt → R s { s with freeMap := b }
  history : ∀ s h, s.history.Le h → R s { s with history := h }
  data : ∀ s a d, R s (s.mapInode a fun i => { i with data := d })
  releaseFree : ∀ s, F s ⟨.releaseFree, s.history⟩
  mapFile : ∀ s f, s.freeMapFile = some f → s.inode? f.inode = none →
    F s ⟨.useAfterFree, s.history⟩

/-- The inodes of a list were open before with these sectors, or have new addresses below `n`. -/
structure Fs.Opens (s : Fs) (is : List Inode) (n : Nat) : Prop where
  next : s.nextAddr ≤ n
  old : ∀ i ∈ is, s.nextAddr ≤ i.addr ∨ ∃ j ∈ s.openInodes, j.addr = i.addr ∧ j.sector = i.sector

/-- A relation kept by every step of code. -/
structure Loud (R : Fs → Fs → Prop) (F : Fs → Stop → Prop) : Prop extends Quiet R F where
  doubleClose : ∀ s, F s ⟨.doubleClose, s.history⟩
  useAfterFree : ∀ s, F s ⟨.useAfterFree, s.history⟩
  mapFile := fun s _ _ _ => useAfterFree s
  inodes : ∀ s is n, s.Opens is n → R s { s with openInodes := is, nextAddr := n }

section

variable {R : Fs → Fs → Prop} {F : Fs → Stop → Prop} {α β : Type}

theorem Reading.pure (q : Reading R F) (a : α) : Steps R F (Pure.pure a) := Steps.pure q.toStepRel a

theorem Reading.gets (q : Reading R F) (f : Fs → α) : Steps R F (Exec.gets f) :=
  Steps.gets q.toStepRel f

theorem Reading.bind (q : Reading R F) {x : Kernel α} {f : α → Kernel β} (hx : Steps R F x)
    (hf : ∀ a, Steps R F (f a)) : Steps R F (x >>= f) := Steps.bind q.toStepRel hx hf

/-- Code that only reads stops in none but a mild way. -/
theorem Reading.fail (q : Reading R F) {fault : Fault} (h : Fault.Mild fault) :
    Steps R F (fail fault : Kernel α) := fun s => q.stop s fault h

theorem Loud.derefs (l : Loud R F) (inode : Addr) : Derefs F inode := fun s _ => l.useAfterFree s

/-! ## Elementary steps -/

theorem record_steps (q : Quiet R F) (event : Event) : Steps R F (record event) :=
  fun s => q.history s _ (List.subset_cons_self _ _)

/-- An event that is recorded only where a test says so. -/
theorem recordIf_steps (q : Quiet R F) (c : Fs → Bool) (event : Event) :
    Steps R F (recordIf c event) := by
  refine fun s => q.history s { s.history with events := _ } ?_
  unfold History.Le
  dsimp only
  split
  · exact List.subset_cons_self _ _
  · exact List.Subset.refl _

theorem modifyLive_steps (q : Quiet R F) (f : List Nat → List Nat) :
    Steps R F (modifyLive f) := fun s => q.history s _ (List.Subset.refl _)

/-- The free map keeps its length. -/
theorem setFreeMap_steps (q : Quiet R F) {f : Bitmap → Bitmap}
    (hf : ∀ b, (f b).bitCnt = b.bitCnt) : Steps R F (setFreeMap f) :=
  fun s => q.freeMap s _ (hf s.freeMap)

theorem modifyData_steps (q : Quiet R F) (inode : Addr) (data : Block) :
    Steps R F (modifyInode inode fun i => { i with data }) := fun s => q.data s inode data

theorem malloc_steps (q : Reading R F) : Steps R F malloc := fun s =>
  q.look s s.store _ rfl rfl

theorem uninitialised_steps (q : Reading R F) : Steps R F uninitialised :=
  fun s => q.look s s.store _ rfl rfl

theorem mallocUnchecked_steps (q : Reading R F) : Steps R F mallocUnchecked :=
  q.bind (malloc_steps q) fun _ => Steps.ite (q.pure _) (q.fail (by decide))

/-- A freed inode that is read is a stop of its own. -/
theorem deref_steps (q : Reading R F) {inode : Addr} (hd : Derefs F inode) :
    Steps R F (deref inode) := by
  intro s
  unfold wp deref
  cases hi : s.inode? inode with
  | none => exact hd s hi
  | some i => exact q.refl s

/-- A read fails only past the end of the device. -/
theorem Store.error_of_read {st : Store} {sector : Nat} {now : Int} {e : Fault}
    (h : st.read sector now = .error e) : e = .pastEnd := by
  by_cases hlt : sector < st.size
  · obtain ⟨st', hr, -⟩ := st.read_of_lt hlt now
    rw [hr] at h
    cases h
  · rw [st.read_of_ge (Nat.not_lt.mp hlt)] at h
    exact (Except.error.inj h).symm

/-- A write fails only past the end of the device. -/
theorem Store.error_of_write {st : Store} {sector : Nat} {b : Block} {now : Int} {e : Fault}
    (h : st.write sector b now = .error e) : e = .pastEnd := by
  by_cases hlt : sector < st.size
  · obtain ⟨st', hw, -⟩ := st.write_of_lt hlt b now
    rw [hw] at h
    cases h
  · rw [st.write_of_ge (Nat.not_lt.mp hlt)] at h
    exact (Except.error.inj h).symm

/-- A read leaves the length of the device alone. -/
theorem Store.size_of_read {st st' : Store} {sector : Nat} {now : Int} {b : Block}
    (h : st.read sector now = .ok (b, st')) : st'.size = st.size := by
  unfold Store.read at h
  split at h
  · cases h
  · next hr =>
    cases h
    exact (bufferCacheRead_ok hr).2.1

/-- A read may change what is cached, but not what the sectors hold. -/
theorem Store.view_of_read {st st' : Store} {sector : Nat} {now : Int} {b : Block}
    (h : st.read sector now = .ok (b, st')) : st'.view = st.view := by
  unfold Store.read at h
  split at h
  · cases h
  · next hr =>
    cases h
    exact (bufferCacheRead_ok hr).2.2.contents_eq

/-- A write leaves the length of the device alone. -/
theorem Store.size_of_write {st st' : Store} {sector : Nat} {now : Int} {b : Block}
    (h : st.write sector b now = .ok st') : st'.size = st.size := by
  unfold Store.write at h
  split at h
  · cases h
  · next hw =>
    cases h
    exact (bufferCacheWrite_ok hw).1

theorem readSector_steps (q : Reading R F) (sector : Nat) : Steps R F (readSector sector) := by
  intro s
  unfold wp readSector
  cases h : s.store.read sector (s.env.ticks s.clock.steps) with
  | error e => exact q.stop s _ (by rw [Store.error_of_read h]; decide)
  | ok r => exact q.look s _ _ (Store.size_of_read h) (Store.view_of_read h)

theorem writeSector_steps (q : Writing R F) (sector : Nat) (b : Block) :
    Steps R F (writeSector sector b) := by
  intro s
  unfold wp writeSector
  cases h : s.store.write sector b (s.env.ticks s.clock.steps) with
  | error e => exact q.stop s _ (by rw [Store.error_of_write h]; decide)
  | ok st => exact q.step s _ _ (Store.size_of_write h)

/-! ## Reading -/

theorem indexToSector_steps (q : Reading R F) (idisk : Block) (index : Nat) :
    Steps R F (indexToSector idisk index) := by
  unfold indexToSector
  dsimp only
  split
  · exact q.pure _
  split
  · exact q.bind (mallocUnchecked_steps q) fun _ =>
      q.bind (readSector_steps q _) fun _ => q.pure _
  split
  · exact q.bind (mallocUnchecked_steps q) fun _ => q.bind (readSector_steps q _) fun _ =>
      q.bind (readSector_steps q _) fun _ => q.pure _
  · exact q.pure _

theorem byteToSector_steps (q : Reading R F) (inode : Inode) (pos : Int) :
    Steps R F (byteToSector inode pos) :=
  Steps.ite (q.pure _) (indexToSector_steps q _ _)

/-- By induction on the fuel: one turn of the loop, and the rest. -/
theorem readLoop_steps (q : Reading R F) {inode : Addr} (hd : Derefs F inode) (fuel : Nat) :
    ∀ (size offset : Int) (read : List UInt8) (bounce : Bool),
      Steps R F (readLoop inode fuel size offset read bounce) := by
  induction fuel with
  | zero => exact fun _ _ _ _ => q.pure _
  | succ fuel ih =>
    intro size offset read bounce
    unfold readLoop
    refine Steps.ite (q.pure _) (q.bind (deref_steps q hd) fun i =>
      q.bind (byteToSector_steps q _ _) fun _ => Steps.ite (q.pure _) (Steps.ite ?_ ?_))
    · exact q.bind (readSector_steps q _) fun _ => ih _ _ _ _
    · exact q.bind (Steps.ite (q.pure _) (malloc_steps q)) fun _ =>
        Steps.ite (q.bind (readSector_steps q _) fun _ => ih _ _ _ _) (q.pure _)

theorem inodeReadAt_steps (q : Reading R F) {inode : Addr} (hd : Derefs F inode)
    (size offset : Int) : Steps R F (inodeReadAt inode size offset) :=
  readLoop_steps q hd _ _ _ _ _

/-! ## Reserving and writing -/

section Reserve

variable {alloc : Kernel (Option Nat)}

theorem inodeReserveDirect_steps (q : Quiet R F) (ha : Steps R F alloc) (entry : Nat) :
    Steps R F (inodeReserveDirect alloc entry) := by
  refine Steps.ite (q.bind ha fun r => ?_) (q.pure _)
  cases r with
  | none => exact q.pure _
  | some sector => exact q.bind (writeSector_steps q.toWriting _ _) fun _ => q.pure _

/-- The loop over the entries of an index block, for any way to reserve a child. -/
theorem reserveEntries_steps (q : Quiet R F) {child : Nat → Nat → Kernel (Bool × Nat)}
    (hc : ∀ entry num, Steps R F (child entry num)) (unit todo : Nat) :
    ∀ (i num : Nat) (blk : Block), Steps R F (reserveEntries child unit todo i num blk) := by
  induction todo with
  | zero => exact fun _ _ _ => q.pure _
  | succ todo ih =>
    intro i num blk
    exact q.bind (hc _ _) fun r => Steps.ite (ih _ _ _) (q.pure _)

theorem reserveIndexBlock_steps (q : Quiet R F) (ha : Steps R F alloc) (entry : Nat) :
    Steps R F (reserveIndexBlock alloc entry) := by
  refine Steps.ite (q.bind ha fun r => ?_) (q.pure _)
  cases r with
  | none =>
    exact q.bind (record_steps q _) fun _ =>
      q.bind (writeSector_steps q.toWriting _ _) fun _ => q.pure _
  | some sector => exact q.bind (writeSector_steps q.toWriting _ _) fun _ => q.pure _

/-- By induction on the level of the index block. -/
theorem inodeReserveIndirect_steps (q : Quiet R F) (ha : Steps R F alloc) (level : Nat) :
    ∀ entry num, Steps R F (inodeReserveIndirect alloc level entry num) := by
  induction level with
  | zero => exact fun entry _ => inodeReserveDirect_steps q ha entry
  | succ level ih =>
    intro entry num
    exact q.bind (reserveIndexBlock_steps q ha _) fun _ => q.bind (readSector_steps q.toReading _) fun _ =>
      q.bind (reserveEntries_steps q ih _ _ _ _ _) fun _ =>
        Steps.ite (q.bind (writeSector_steps q.toWriting _ _) fun _ => q.pure _) (q.pure _)

/-- Whatever allocates the sectors, if that is quiet. -/
theorem inodeReserve_steps (q : Quiet R F) (ha : Steps R F alloc) (disk : Block)
    (length : Int) : Steps R F (inodeReserve alloc disk length) := by
  refine Steps.ite (q.pure _) (q.bind (reserveEntries_steps q
    (fun entry _ => inodeReserveDirect_steps q ha entry) _ _ _ _ _) fun r => ?_)
  refine Steps.ite (q.pure _) (Steps.ite (q.pure _) ?_)
  refine q.bind (inodeReserveIndirect_steps q ha _ _ _) fun r => ?_
  refine Steps.ite (q.pure _) (Steps.ite (q.pure _) ?_)
  exact q.bind (inodeReserveIndirect_steps q ha _ _ _) fun r => q.pure _

/-- A write past the end of a file reserves sectors and changes the header. -/
theorem extend_steps (q : Quiet R F) (ha : Steps R F alloc) (inode : Addr) (i : Inode)
    (length : Int) : Steps R F (extend alloc inode i length) := by
  refine q.bind (inodeReserve_steps q ha _ _) fun r => Steps.ite ?_ ?_
  · exact q.bind (modifyData_steps q _ _) fun _ =>
      q.bind (writeSector_steps q.toWriting _ _) fun _ => q.pure _
  · exact q.bind (modifyData_steps q _ _) fun _ => q.pure _

/-- By induction on the fuel, as for reading. -/
theorem writeLoop_steps (q : Writing R F) {inode : Addr} (hd : Derefs F inode)
    (buffer : Nat → UInt8) (fuel : Nat) :
    ∀ (size offset written : Int) (bounce : Bool),
      Steps R F (writeLoop inode buffer fuel size offset written bounce) := by
  induction fuel with
  | zero => exact fun _ _ _ _ => q.pure _
  | succ fuel ih =>
    intro size offset written bounce
    unfold writeLoop
    refine Steps.ite (q.pure _) (q.bind (deref_steps q.toReading hd) fun i =>
      q.bind (byteToSector_steps q.toReading _ _) fun _ => Steps.ite (q.pure _) (Steps.ite ?_ ?_))
    · exact q.bind (writeSector_steps q _ _) fun _ => ih _ _ _ _
    · refine q.bind (Steps.ite (q.pure _) (malloc_steps q.toReading)) fun _ => Steps.ite ?_ (q.pure _)
      exact q.bind (Steps.ite (readSector_steps q.toReading _) (q.pure _)) fun _ =>
        q.bind (writeSector_steps q _ _) fun _ => ih _ _ _ _

/-- A write may extend the file, so it is quiet if the allocation is. -/
theorem inodeWriteAtWith_steps (q : Quiet R F) (ha : Steps R F alloc) {inode : Addr}
    (hd : Derefs F inode) (buffer : Nat → UInt8) (size offset : Int) :
    Steps R F (inodeWriteAtWith alloc inode buffer size offset) := by
  refine q.bind (deref_steps q.toReading hd) fun i => Steps.ite (q.pure _) ?_
  refine q.bind (byteToSector_steps q.toReading _ _) fun last => ?_
  refine q.bind (Steps.ite (extend_steps q ha _ _ _) (q.pure _)) fun ready => ?_
  exact Steps.ite (writeLoop_steps q.toWriting hd _ _ _ _ _ _) (q.pure _)

theorem bitmapWriteWith_steps (q : Quiet R F) (ha : Steps R F alloc) {file : File}
    (hd : Derefs F file.inode) : Steps R F (bitmapWriteWith alloc file) :=
  q.bind (q.gets _) fun _ => q.bind (inodeWriteAtWith_steps q ha hd _ _ _) fun _ => q.pure _

end Reserve

/-! ## Allocating and releasing -/

/-- The relation for as long as the free map file is `f`. -/
theorem Quiet.whileMapFile (q : Quiet R F) (f : File) :
    Quiet (fun s s' => s.freeMapFile = some f → R s s' ∧ s'.freeMapFile = some f)
      (fun s e => s.freeMapFile = some f → F s e) where
  refl s h := ⟨q.refl s, h⟩
  trans h h' hf := ⟨q.trans (h hf).1 (h' (h hf).2).1, (h' (h hf).2).2⟩
  fault h h' hf := q.fault (h hf).1 (h' (h hf).2)
  stop s fault h _ := q.stop s fault h
  step s st clock h hf := ⟨q.step s st clock h, hf⟩
  freeMap s b h hf := ⟨q.freeMap s b h, hf⟩
  history s h hle hf := ⟨q.history s h hle, hf⟩
  data s a d hf := ⟨q.data s a d, hf⟩
  releaseFree s _ := q.releaseFree s
  mapFile s f h hi _ := q.mapFile s f h hi

/-- Code that writes the free map file. -/
theorem Quiet.withMapFile (q : Quiet R F) {k : Option File → Kernel α}
    (hnone : Steps R F (k none)) (hsome : ∀ (f : File) (R : Fs → Fs → Prop) (F : Fs → Stop → Prop),
      Quiet R F → Derefs F f.inode → Steps R F (k (some f))) :
    Steps R F (gets (·.freeMapFile) >>= k) := by
  intro s
  rw [wp_bind, wp_gets]
  cases hf : s.freeMapFile with
  | none => exact hnone s
  | some f =>
    have hk := hsome f _ _ (q.whileMapFile f) fun s hi h => q.mapFile s f h hi
    exact wp_mono (hk s) (fun _ he => he hf) fun _ _ hr => (hr hf).1

/-- An allocation writes the free map, and the write may allocate. By induction on how often. -/
theorem freeMapAllocateAt_steps (q : Quiet R F) (depth : Nat) :
    ∀ cnt, Steps R F (freeMapAllocateAt cnt depth) := by
  induction depth generalizing R F with
  | zero => exact fun _ => q.fail (by decide)
  | succ depth ih =>
    intro cnt
    refine q.bind (q.gets _) fun b => ?_
    cases b.scan 0 cnt false with
    | none => exact q.bind (record_steps q _) fun _ => q.pure _
    | some sector =>
      refine q.bind (setFreeMap_steps q fun _ => Bitmap.bitCnt_setMultiple _ _ _) fun _ =>
        q.withMapFile (q.pure _) fun file R F q hd => ?_
      refine q.bind (bitmapWriteWith_steps q (ih q 1) hd) fun _ => Steps.ite (q.pure _) ?_
      exact q.bind (setFreeMap_steps q fun _ => Bitmap.bitCnt_setMultiple _ _ _) fun _ =>
        q.bind (record_steps q _) fun _ => q.pure _

theorem freeMapAllocate_steps (q : Quiet R F) : Steps R F freeMapAllocate :=
  q.bind (q.gets _) fun _ => freeMapAllocateAt_steps q _ _

theorem inodeWriteAt_steps (q : Quiet R F) {inode : Addr} (hd : Derefs F inode)
    (buffer : Nat → UInt8) (size offset : Int) :
    Steps R F (inodeWriteAt inode buffer size offset) :=
  inodeWriteAtWith_steps q (freeMapAllocate_steps q) hd _ _ _

/-- A release that finds a sector free stops in a way of its own. -/
theorem freeMapRelease_steps (q : Quiet R F) (sector : Nat) :
    Steps R F (freeMapRelease sector) := by
  refine q.bind (q.gets _) fun b =>
    Steps.ite (q.fail (by decide)) (Steps.ite (fun s => q.releaseFree s) ?_)
  refine q.bind (setFreeMap_steps q fun _ => Bitmap.bitCnt_setMultiple _ _ _) fun _ =>
    q.bind (modifyLive_steps q _) fun _ =>
      q.withMapFile (q.fail (by decide)) fun file R F q hd => ?_
  exact q.bind (bitmapWriteWith_steps q (freeMapAllocate_steps q) hd) fun _ => q.pure _

/-- The loop over the entries of an index block, for any way to release a child. -/
theorem unreserveEntries_steps (q : Quiet R F) {child : Nat → Nat → Kernel Unit}
    (hc : ∀ entry num, Steps R F (child entry num)) (unit : Nat) (blk : Block) (todo : Nat) :
    ∀ i num, Steps R F (unreserveEntries child unit blk todo i num) := by
  induction todo with
  | zero => exact fun _ _ => q.pure _
  | succ todo ih =>
    exact fun i num => Steps.ite (q.bind (hc _ _) fun _ => ih _ _) (q.fail (by decide))

/-- By induction on the level of the index block. -/
theorem inodeUnreserveIndirect_steps (q : Quiet R F) (level : Nat) :
    ∀ entry num, Steps R F (inodeUnreserveIndirect level entry num) := by
  induction level with
  | zero => exact fun entry _ => freeMapRelease_steps q entry
  | succ level ih =>
    exact fun entry num => q.bind (readSector_steps q.toReading _) fun _ =>
      q.bind (unreserveEntries_steps q ih _ _ _ _ _) fun _ => freeMapRelease_steps q _

theorem unreserveLevel_steps (q : Quiet R F) (level entry num : Nat) :
    Steps R F (unreserveLevel level entry num) :=
  Steps.ite (inodeUnreserveIndirect_steps q _ _ _) (q.pure _)

theorem inodeUnreserve_steps (q : Quiet R F) (data : Block) :
    Steps R F (inodeUnreserve data) := by
  refine Steps.ite (q.pure _) (q.bind (recordIf_steps q _ _) fun _ =>
    q.bind (unreserveEntries_steps q (fun _ _ => freeMapRelease_steps q _) _ _ _ _ _) fun _ => ?_)
  exact q.bind (unreserveLevel_steps q _ _ _) fun _ =>
    q.bind (unreserveLevel_steps q _ _ _) fun _ => q.pure _

theorem inodeCreate_steps (q : Quiet R F) (sector : Nat) (length : Int) (dir : Bool) :
    Steps R F (inodeCreate sector length dir) := by
  refine Steps.ite (q.fail (by decide)) (q.bind (malloc_steps q.toReading) fun _ => Steps.ite ?_ (q.pure _))
  refine q.bind (inodeReserve_steps q (freeMapAllocate_steps q) _ _) fun r =>
    Steps.ite ?_ (q.pure _)
  exact q.bind (writeSector_steps q.toWriting _ _) fun _ =>
    q.bind (modifyLive_steps q _) fun _ => q.pure _

/-! ## Directory entries -/

theorem readEntry_steps (q : Reading R F) {dir : Dir} (hd : Derefs F dir.inode) (ofs : Int)
    (e : DirEntry) : Steps R F (readEntry dir ofs e) :=
  q.bind (inodeReadAt_steps q hd _ _) fun _ => q.pure _

theorem writeEntry_steps (q : Quiet R F) {inode : Addr} (hd : Derefs F inode) (ofs : Int)
    (e : DirEntry) : Steps R F (writeEntry inode ofs e) :=
  q.bind (inodeWriteAt_steps q hd _ _ _) fun _ => q.pure _

/-- By induction on the fuel: one entry, and the rest. -/
theorem scanEntries_steps (q : Reading R F) {dir : Dir} (hd : Derefs F dir.inode)
    (stop : DirEntry → Bool) (fuel : Nat) :
    ∀ ofs e, Steps R F (scanEntries dir stop fuel ofs e) := by
  induction fuel with
  | zero => exact fun _ _ => q.pure _
  | succ fuel ih =>
    exact fun ofs e => q.bind (readEntry_steps q hd _ _) fun _ =>
      Steps.ite (q.pure _) (Steps.ite (q.pure _) (ih _ _))

theorem scanDir_steps (q : Reading R F) {dir : Dir} (hd : Derefs F dir.inode)
    (stop : DirEntry → Bool) (ofs : Int) (e : DirEntry) : Steps R F (scanDir dir stop ofs e) :=
  q.bind (deref_steps q hd) fun _ => scanEntries_steps q hd _ _ _ _

/-- To look for a name only reads. -/
theorem lookup_steps (q : Reading R F) {dir : Dir} (hd : Derefs F dir.inode) (name : CString) :
    Steps R F (lookup dir name) :=
  q.bind (uninitialised_steps q) fun _ => q.bind (scanDir_steps q hd _ _ _) fun _ => q.pure _

theorem dirIsEmpty_steps (q : Reading R F) {dir : Dir} (hd : Derefs F dir.inode) :
    Steps R F (dirIsEmpty dir) :=
  q.bind (uninitialised_steps q) fun _ => q.bind (scanDir_steps q hd _ _ _) fun _ => q.pure _

theorem dirReaddir_steps (q : Reading R F) {dir : Dir} (hd : Derefs F dir.inode) :
    Steps R F (dirReaddir dir) := by
  refine q.bind (uninitialised_steps q) fun _ => q.bind (scanDir_steps q hd _ _ _) fun r => ?_
  dsimp only
  split <;> exact q.pure _

/-- To split a path only reads. -/
theorem nameResolution_steps (q : Reading R F) (path : CString) :
    Steps R F (nameResolution path) := q.bind (mallocUnchecked_steps q) fun _ => q.pure _

theorem resolve_steps (q : Reading R F) (path : CString) : Steps R F (resolve path) :=
  q.bind (mallocUnchecked_steps q) fun _ => q.bind (mallocUnchecked_steps q) fun _ =>
    nameResolution_steps q _

/-! ## Opening and closing -/

/-- A change that keeps the address and the sector of an inode opens nothing. -/
theorem Fs.Opens.mapInode (s : Fs) (inode : Addr) {f : Inode → Inode}
    (hf : ∀ i, (f i).addr = i.addr ∧ (f i).sector = i.sector) :
    s.Opens (s.mapInode inode f).openInodes s.nextAddr where
  next := Nat.le_refl _
  old i' hi' := by
    obtain ⟨i, hi, rfl⟩ := List.mem_map.mp hi'
    refine .inr ⟨i, hi, ?_⟩
    split
    · exact ⟨(hf i).1.symm, (hf i).2.symm⟩
    · exact ⟨rfl, rfl⟩

/-- To close inodes opens nothing. -/
theorem Fs.Opens.filter (s : Fs) (p : Inode → Bool) :
    s.Opens (s.openInodes.filter p) s.nextAddr where
  next := Nat.le_refl _
  old i hi := .inr ⟨i, List.mem_of_mem_filter hi, rfl, rfl⟩

theorem modifyInode_steps (l : Loud R F) (inode : Addr) {f : Inode → Inode}
    (hf : ∀ i, (f i).addr = i.addr ∧ (f i).sector = i.sector) :
    Steps R F (modifyInode inode f) := fun s =>
  l.inodes s _ s.nextAddr (Fs.Opens.mapInode s inode hf)

/-- A new inode gets the next address. -/
theorem newInode_steps (l : Loud R F) (sector : Nat) (data : Block) :
    Steps R F (do
      let addr ← gets (·.nextAddr)
      modify fun s => { s with
        nextAddr := s.nextAddr + 1
        openInodes := { addr, sector, openCnt := 1, removed := false, denyWriteCnt := 0, data }
          :: s.openInodes }
      return some addr) := by
  refine fun s => l.inodes s _ _ ⟨Nat.le_succ _, fun i hi => ?_⟩
  rcases List.mem_cons.mp hi with rfl | hi
  · exact .inl (Nat.le_refl _)
  · exact .inr ⟨i, hi, rfl, rfl⟩

theorem inodeReopen_steps (l : Loud R F) (inode : Addr) : Steps R F (inodeReopen inode) :=
  l.bind (deref_steps l.toReading (l.derefs _)) fun _ =>
    l.bind (modifyInode_steps l _ fun _ => ⟨rfl, rfl⟩) fun _ => l.pure _

/-- An inode that is open is opened once more, another is read. -/
theorem inodeOpen_steps (l : Loud R F) (sector : Nat) : Steps R F (inodeOpen sector) := by
  refine l.bind (recordIf_steps l.toQuiet _ _) fun _ => l.bind (l.gets _) fun is => ?_
  · cases is.find? (·.sector == sector) with
    | some i =>
      exact l.bind (recordIf_steps l.toQuiet _ _) fun _ =>
        Steps.map l.toStepRel _ (inodeReopen_steps l _)
    | none =>
      refine l.bind (malloc_steps l.toReading) fun _ => Steps.ite ?_ (l.pure _)
      exact l.bind (readSector_steps l.toReading _) fun _ => newInode_steps l _ _

/-- A freed inode that is closed is a stop of its own. -/
theorem derefClose_steps (l : Loud R F) (inode : Addr) : Steps R F (derefClose inode) := by
  intro s
  unfold wp derefClose
  cases s.inode? inode with
  | none => exact l.doubleClose s
  | some i => exact l.refl s

/-- The last close may release sectors. -/
theorem inodeClose_steps (l : Loud R F) (inode : Option Addr) : Steps R F (inodeClose inode) := by
  cases inode with
  | none => exact l.pure _
  | some inode =>
    refine l.bind (derefClose_steps l _) fun i =>
      l.bind (modifyInode_steps l _ fun _ => ⟨rfl, rfl⟩) fun _ =>
        Steps.ite (l.bind (fun s => l.inodes s _ s.nextAddr (Fs.Opens.filter s _)) fun _ =>
          Steps.ite ?_ (l.pure _)) (l.pure _)
    exact l.bind (freeMapRelease_steps l.toQuiet _) fun _ =>
      l.bind (inodeUnreserve_steps l.toQuiet _) fun _ => l.pure _

theorem inodeRemove_steps (l : Loud R F) (inode : Addr) : Steps R F (inodeRemove inode) :=
  l.bind (deref_steps l.toReading (l.derefs _)) fun _ => modifyInode_steps l _ fun _ => ⟨rfl, rfl⟩

theorem fileOpen_steps (l : Loud R F) (inode : Option Addr) : Steps R F (fileOpen inode) := by
  refine l.bind (malloc_steps l.toReading) fun memory => ?_
  split
  · exact l.pure _
  · exact l.bind (inodeClose_steps l _) fun _ => l.pure _

theorem inodeAllowWrite_steps (l : Loud R F) (inode : Addr) :
    Steps R F (inodeAllowWrite inode) := by
  refine l.bind (deref_steps l.toReading (l.derefs _)) fun i => ?_
  split
  · exact modifyInode_steps l _ fun _ => ⟨rfl, rfl⟩
  · exact l.fail (by decide)

theorem fileClose_steps (l : Loud R F) (file : File) : Steps R F (fileClose file) :=
  l.bind (Steps.ite (inodeAllowWrite_steps l _) (l.pure _)) fun _ => inodeClose_steps l _

theorem dirOpen_steps (l : Loud R F) (inode : Option Addr) : Steps R F (dirOpen inode) := by
  refine l.bind (malloc_steps l.toReading) fun memory => ?_
  split
  · exact l.pure _
  · exact l.bind (inodeClose_steps l _) fun _ => l.pure _

theorem dirOpenRoot_steps (l : Loud R F) : Steps R F dirOpenRoot :=
  l.bind (inodeOpen_steps l _) fun _ => dirOpen_steps l _

theorem dirClose_steps (l : Loud R F) (dir : Option Dir) : Steps R F (dirClose dir) := by
  cases dir with
  | none => exact l.pure _
  | some dir => exact inodeClose_steps l (some dir.inode)

theorem dirLookup_steps (l : Loud R F) (dir : Dir) (name : CString) :
    Steps R F (dirLookup dir name) := by
  refine Steps.ite (Steps.map l.toStepRel _ (inodeReopen_steps l _)) (Steps.ite ?_ ?_)
  · exact l.bind (uninitialised_steps l.toReading) fun _ =>
      l.bind (readEntry_steps l.toReading (l.derefs _) _ _) fun _ => inodeOpen_steps l _
  · refine l.bind (lookup_steps l.toReading (l.derefs _) _) fun r => ?_
    cases r with
    | none => exact l.pure _
    | some e => exact inodeOpen_steps l _

/-- By induction on the components of the path. -/
theorem walk_steps (l : Loud R F) (ts : List CString) : ∀ curr, Steps R F (walk ts curr) := by
  induction ts with
  | nil => exact fun _ => l.bind (recordIf_steps l.toQuiet _ _) fun _ => l.pure _
  | cons token rest ih =>
    intro curr
    refine l.bind (recordIf_steps l.toQuiet _ _) fun _ => l.bind (dirLookup_steps l _ _) fun r => ?_
    cases r with
    | none => exact l.bind (dirClose_steps l _) fun _ => l.pure _
    | some inode =>
      refine l.bind (dirOpen_steps l _) fun next => ?_
      cases next with
      | none => exact l.bind (dirClose_steps l _) fun _ => l.pure _
      | some next => exact l.bind (dirClose_steps l _) fun _ => ih next

/-- The walk starts in the root directory or in the current one. -/
theorem startDir_steps (l : Loud R F) (path : CString) : Steps R F (startDir path) := by
  refine Steps.ite (dirOpenRoot_steps l) (l.bind (l.gets _) fun cwd => ?_)
  cases cwd with
  | none => exact dirOpenRoot_steps l
  | some cwd => exact l.bind (inodeReopen_steps l _) fun _ => dirOpen_steps l _

theorem dirOpenPath_steps (l : Loud R F) (path : CString) : Steps R F (dirOpenPath path) := by
  refine l.bind (mallocUnchecked_steps l.toReading) fun _ => l.bind (startDir_steps l _) fun r => ?_
  cases r with
  | none => exact l.fail (by split <;> decide)
  | some curr =>
    refine l.bind (walk_steps l _ _) fun r => ?_
    cases r with
    | none => exact l.pure _
    | some curr =>
      exact l.bind (deref_steps l.toReading (l.derefs _)) fun i =>
        Steps.ite (l.bind (dirClose_steps l _) fun _ => l.pure _) (l.pure _)

theorem dirAddParent_steps (l : Loud R F) (dir : Dir) (sector : Nat) (e : DirEntry) :
    Steps R F (dirAddParent dir sector e) := by
  refine l.bind (inodeOpen_steps l _) fun _ => l.bind (dirOpen_steps l _) fun child => ?_
  cases child with
  | none => exact l.pure _
  | some child =>
    exact l.bind (deref_steps l.toReading (l.derefs _)) fun i => l.bind (writeEntry_steps l.toQuiet (l.derefs _) _ _)
      fun _ => l.bind (dirClose_steps l _) fun _ => l.pure _

theorem dirAdd_steps (l : Loud R F) (dir : Dir) (name : CString) (sector : Nat)
    (dirFlag : Bool) : Steps R F (dirAdd dir name sector dirFlag) := by
  refine Steps.ite (l.pure _) (l.bind (lookup_steps l.toReading (l.derefs _) _) fun r => ?_)
  cases r with
  | some r => exact l.pure _
  | none =>
    refine l.bind (uninitialised_steps l.toReading) fun e =>
      l.bind (Steps.ite (dirAddParent_steps l _ _ _) (l.pure _)) fun r => ?_
    cases r with
    | none => exact l.pure _
    | some e =>
      exact l.bind (scanDir_steps l.toReading (l.derefs _) _ _ _) fun _ => writeEntry_steps l.toQuiet (l.derefs _) _ _

/-- The entry is cleared, and the inode is marked and closed. -/
theorem dirRemove_steps (l : Loud R F) (dir : Dir) (name : CString) :
    Steps R F (dirRemove dir name) := by
  refine l.bind (lookup_steps l.toReading (l.derefs _) _) fun r => ?_
  cases r with
  | none => exact l.pure _
  | some r =>
    refine l.bind (inodeOpen_steps l _) fun inode => ?_
    cases inode with
    | none => exact l.pure _
    | some inode =>
      refine l.bind (deref_steps l.toReading (l.derefs _)) fun i => l.bind (Steps.ite ?_ (l.pure _))
        fun removable => ?_
      · refine l.bind (record_steps l.toQuiet _) fun _ =>
          l.bind (dirOpen_steps l _) fun target => ?_
        cases target with
        | none => exact l.fail (by decide)
        | some target =>
          exact l.bind (dirIsEmpty_steps l.toReading (l.derefs _)) fun _ =>
            l.bind (dirClose_steps l _) fun _ => l.pure _
      · exact l.bind (Steps.ite (writeEntry_steps l.toQuiet (l.derefs _) _ _) (l.pure _)) fun success =>
          l.bind (Steps.ite (inodeRemove_steps l _) (l.pure _)) fun _ =>
            l.bind (inodeClose_steps l _) fun _ => l.pure _

/-- A sector is allocated, an inode is made in it, and an entry for that. -/
theorem createIn_steps (l : Loud R F) (dir : Dir) (filename : CString) (initialSize : Int)
    (dirFlag : Bool) : Steps R F (createIn dir filename initialSize dirFlag) := by
  refine l.bind (freeMapAllocate_steps l.toQuiet) fun r => ?_
  cases r with
  | none => exact l.pure _
  | some sector =>
    exact l.bind (inodeCreate_steps l.toQuiet _ _ _) fun _ =>
      Steps.ite (l.bind (dirAdd_steps l _ _ _ _) fun _ => l.pure _) (l.pure _)

theorem filesysCreate_steps (l : Loud R F) (path : CString) (initialSize : Int)
    (dirFlag : Bool) : Steps R F (filesysCreate path initialSize dirFlag) := by
  refine l.bind (resolve_steps l.toReading _) fun r => l.bind (dirOpenPath_steps l _) fun dir => ?_
  cases dir with
  | none => exact l.pure _
  | some dir =>
    exact l.bind (createIn_steps l _ _ _ _) fun r =>
      l.bind (Steps.ite (freeMapRelease_steps l.toQuiet _) (l.pure _)) fun _ =>
        l.bind (dirClose_steps l _) fun _ => l.pure _

theorem filesysOpen_steps (l : Loud R F) (name : CString) : Steps R F (filesysOpen name) := by
  refine Steps.ite (l.pure _) (l.bind (resolve_steps l.toReading _) fun r =>
    l.bind (dirOpenPath_steps l _) fun dir => ?_)
  cases dir with
  | none => exact l.pure _
  | some dir =>
    refine l.bind (Steps.ite ?_ (l.pure _)) fun inode => ?_
    · exact l.bind (dirLookup_steps l _ _) fun _ =>
        l.bind (dirClose_steps l _) fun _ => l.pure _
    · cases inode with
      | none => exact l.pure _
      | some inode =>
        exact l.bind (deref_steps l.toReading (l.derefs _)) fun i => Steps.ite
          (l.bind (record_steps l.toQuiet _) fun _ => l.pure _) (fileOpen_steps l _)

theorem filesysRemove_steps (l : Loud R F) (name : CString) :
    Steps R F (filesysRemove name) := by
  refine l.bind (resolve_steps l.toReading _) fun r => l.bind (dirOpenPath_steps l _) fun dir => ?_
  cases dir with
  | none => exact l.pure _
  | some dir =>
    exact l.bind (dirRemove_steps l _ _) fun _ => l.bind (dirClose_steps l _) fun _ => l.pure _

/-- To change the current directory is the one step that is not loud. -/
theorem filesysCd_steps (l : Loud R F) (hc : ∀ s ds, R s { s with cwds := ds })
    (name : CString) : Steps R F (filesysCd name) := by
  refine l.bind (dirOpenPath_steps l _) fun dir => ?_
  cases dir with
  | none => exact l.pure _
  | some dir =>
    exact l.bind (l.gets _) fun _ => l.bind (dirClose_steps l _) fun _ =>
      l.bind (fun s => hc s _) fun _ => l.pure _

end

/-! ## Starting the file system -/

/-- A relation kept by every step of the code that starts the file system, which also makes
a free map and opens its file. -/
structure Starting (R : Fs → Fs → Prop) (F : Fs → Stop → Prop) : Prop extends Loud R F where
  anyFreeMap : ∀ s b, R s { s with freeMap := b }
  freeMapFile : ∀ s f, R s { s with freeMapFile := f }

section

variable {R : Fs → Fs → Prop} {F : Fs → Stop → Prop}

/-- An allocation whose failure is a panic. -/
theorem mallocOrPanic_steps (q : Reading R F) : Steps R F mallocOrPanic :=
  q.bind (malloc_steps q) fun _ => Steps.ite (q.pure _) (q.fail (by decide))

/-- The free map is made anew, of any length. -/
theorem freeMapInit_steps (b : Starting R F) (unused : Nat → Bool) :
    Steps R F (freeMapInit unused) :=
  b.bind (b.gets _) fun _ => b.bind (mallocOrPanic_steps b.toReading) fun _ =>
    b.bind (mallocOrPanic_steps b.toReading) fun _ => b.bind (fun s => b.anyFreeMap s _) fun _ =>
      b.bind (fun s => b.anyFreeMap s _) fun _ => fun s => b.anyFreeMap s _

theorem freeMapClose_steps (l : Loud R F) : Steps R F freeMapClose := by
  refine l.bind (l.gets _) fun f => ?_
  cases f with
  | none => exact l.pure _
  | some f => exact fileClose_steps l f

theorem freeMapOpen_steps (b : Starting R F) : Steps R F freeMapOpen := by
  refine b.bind (inodeOpen_steps b.toLoud _) fun _ => b.bind (fileOpen_steps b.toLoud _) fun f => ?_
  cases f with
  | none => exact b.fail (by decide)
  | some f =>
    refine b.bind (fun s => b.freeMapFile s _) fun _ => b.bind (b.gets _) fun bitCnt =>
      Steps.ite ?_ (b.pure _)
    exact b.bind (inodeReadAt_steps b.toReading (b.derefs _) _ _) fun _ =>
      Steps.ite (fun s => b.anyFreeMap s _) (b.fail (by decide))

theorem freeMapCreate_steps (b : Starting R F) : Steps R F freeMapCreate := by
  refine b.bind (b.gets _) fun _ => b.bind (inodeCreate_steps b.toQuiet _ _ _) fun _ =>
    Steps.ite ?_ (b.fail (by decide))
  refine b.bind (inodeOpen_steps b.toLoud _) fun _ => b.bind (fileOpen_steps b.toLoud _) fun f => ?_
  cases f with
  | none => exact b.fail (by decide)
  | some f =>
    exact b.bind (fun s => b.freeMapFile s _) fun _ => b.bind
      (bitmapWriteWith_steps b.toQuiet (freeMapAllocate_steps b.toQuiet)
        (b.derefs _)) fun _ =>
        Steps.ite (b.pure _) (b.fail (by decide))

/-- The inode of a directory is made, opened, and given its first entry. -/
theorem dirCreate_steps (l : Loud R F) (sector entryCnt : Nat) :
    Steps R F (dirCreate sector entryCnt) := by
  refine l.bind (inodeCreate_steps l.toQuiet _ _ _) fun _ => Steps.ite ?_ (l.pure _)
  refine l.bind (inodeOpen_steps l _) fun _ => l.bind (dirOpen_steps l _) fun dir => ?_
  cases dir with
  | none => exact l.pure _
  | some dir =>
    exact l.bind (uninitialised_steps l.toReading) fun _ =>
      l.bind (writeEntry_steps l.toQuiet (l.derefs _) _ _) fun _ =>
        l.bind (dirClose_steps l _) fun _ => l.pure _

/-- The start of the file system, with or without formatting. -/
theorem filesysInit_steps (b : Starting R F) (format : Bool) (unused : Nat → Bool) :
    Steps R F (filesysInit format unused) := by
  refine b.bind (freeMapInit_steps b _) fun _ => b.bind (Steps.ite ?_ (b.pure _)) fun _ =>
    freeMapOpen_steps b
  exact b.bind (freeMapCreate_steps b) fun _ => b.bind (dirCreate_steps b.toLoud _ _) fun _ =>
    Steps.ite (freeMapClose_steps b.toLoud) (b.fail (by decide))

end

/-! ## What every function keeps -/

/-- No function forgets an event. -/
theorem events_loud : Loud (fun s s' => s.history.Le s'.history) (fun s e => s.history.Le e.history)
    where
  refl _ := List.Subset.refl _
  trans h h' := List.Subset.trans h h'
  fault h h' := List.Subset.trans h h'
  stop _ _ _ := List.Subset.refl _
  step _ _ _ _ := List.Subset.refl _
  freeMap _ _ _ := List.Subset.refl _
  history _ _ h := h
  data _ _ _ := List.Subset.refl _
  releaseFree _ := List.Subset.refl _
  doubleClose _ := List.Subset.refl _
  useAfterFree _ := List.Subset.refl _
  inodes _ _ _ _ := List.Subset.refl _

/-- What no function but `filesys_cd` and the start and end of the file system changes. -/
structure SameSetting (s s' : Fs) : Prop where
  env : s'.env = s.env
  size : s'.size = s.size
  freeMapFile : s'.freeMapFile = s.freeMapFile
  cwds : s'.cwds = s.cwds
  current : s'.current = s.current

theorem setting_loud : Loud SameSetting (fun _ _ => True) where
  refl _ := ⟨rfl, rfl, rfl, rfl, rfl⟩
  trans h h' := ⟨h'.env.trans h.env, h'.size.trans h.size, h'.freeMapFile.trans h.freeMapFile,
    h'.cwds.trans h.cwds, h'.current.trans h.current⟩
  fault _ _ := trivial
  stop _ _ _ := trivial
  step _ _ _ h := ⟨rfl, h, rfl, rfl, rfl⟩
  freeMap _ _ _ := ⟨rfl, rfl, rfl, rfl, rfl⟩
  history _ _ _ := ⟨rfl, rfl, rfl, rfl, rfl⟩
  data _ _ _ := ⟨rfl, rfl, rfl, rfl, rfl⟩
  releaseFree _ := trivial
  doubleClose _ := trivial
  useAfterFree _ := trivial
  inodes _ _ _ _ := ⟨rfl, rfl, rfl, rfl, rfl⟩

/-- A property of histories that no event undoes once it fails: none of `bad` has happened. -/
def History.Free (bad : List Event) (h : History) : Prop := ∀ e ∈ bad, e ∉ h.events

instance (bad : List Event) (h : History) : Decidable (h.Free bad) :=
  inferInstanceAs (Decidable (∀ e ∈ bad, e ∉ h.events))

/-- What had not happened at the end had not happened before. -/
theorem History.Free.of_le {bad : List Event} {h h' : History} (hf : h'.Free bad)
    (hle : h.Le h') : h.Free bad := fun e he hm => hf e he (hle hm)

end Pintos.Filesys
