import Pintos.Filesys.Kernel

/-!
# Inodes and the free map

`filesys/inode.c` and `filesys/free-map.c`. They call each other: a write past the end of
a file allocates sectors, and an allocation writes the free map to its own file. The
functions of `inode.c` under that knot take the allocator as an argument; the knot is tied
in `freeMapAllocateAt`.
-/

namespace Pintos.Filesys

open Pintos.Logic Pintos.Logic.Exec Pintos.Lib

/-! ## Machine integers -/

/-- The value of type `int32_t` with the bits of `n`. -/
@[irreducible] def wrap32 (n : Int) : Int := (n + 2147483648) % 4294967296 - 2147483648

/-- `(block_sector_t) -1`, for no sector. -/
abbrev noSector : Nat := 4294967295

/-- `DIV_ROUND_UP`. -/
def divRoundUp (n step : Nat) : Nat := (n + step - 1) / step

/-- `bytes_to_sectors`: the sum is an `off_t`, the result a `size_t`. -/
@[irreducible] def bytesToSectors (size : Int) : Nat :=
  ((wrap32 (size + (blockSectorSize - 1))).tdiv blockSectorSize % 4294967296).toNat

/-! ## Inode headers -/

/-- `FREE_MAP_SECTOR`. -/
abbrev freeMapSector : Nat := 0

/-- `ROOT_DIR_SECTOR`. -/
abbrev rootDirSector : Nat := 1

/-- `DIRECT_BLOCKS_COUNT`. -/
abbrev directBlocksCount : Nat := 123

/-- `INDIRECT_BLOCKS_PER_SECTOR`. -/
abbrev indirectBlocksPerSector : Nat := 128

/-- `INODE_MAGIC`. -/
abbrev inodeMagic : Nat := 0x494e4f44

/-- The index of `indirect_block` among the words of a `struct inode_disk`. -/
abbrev indirectBlock : Nat := 123

/-- The index of `doubly_indirect_block` among the words of a `struct inode_disk`. -/
abbrev doublyIndirectBlock : Nat := 124

/-- The field `is_dir` of a `struct inode_disk`. -/
def isDir (disk : Block) : Bool := disk.byte 500 != 0

/-- The field `length` of a `struct inode_disk`. -/
def diskLength (disk : Block) : Int := wrap32 (disk.word 126)

/-- Assigns to the field `length` of a `struct inode_disk`. -/
def setDiskLength (disk : Block) (length : Int) : Block :=
  disk.setWord 126 (length % 4294967296).toNat

/-- The `struct inode_disk` that `inode_create` starts with. -/
def newInodeDisk (length : Int) (dir : Bool) : Block :=
  (setDiskLength (Bytes.zeros.setWord 125 dir.toNat) length).setWord 127 inodeMagic

/-- `inode_length`. -/
def inodeLength (inode : Inode) : Int := diskLength inode.data

/-! ## Looking up sectors -/

/-- `index_to_sector`. -/
@[irreducible] def indexToSector (idisk : Block) (index : Nat) : Kernel Nat :=
  if index < directBlocksCount then return idisk.word index
  else
    let index := index - directBlocksCount
    if index < indirectBlocksPerSector then do
      mallocUnchecked
      let indirect ← readSector (idisk.word indirectBlock)
      return indirect.word index
    else
      let index := index - indirectBlocksPerSector
      if index < indirectBlocksPerSector * indirectBlocksPerSector then do
        mallocUnchecked
        let indirect ← readSector (idisk.word doublyIndirectBlock)
        let indirect ← readSector (indirect.word (index / indirectBlocksPerSector))
        return indirect.word (index % indirectBlocksPerSector)
      else return noSector

/-- `byte_to_sector`. -/
def byteToSector (inode : Inode) (pos : Int) : Kernel Nat :=
  if pos < 0 ∨ inodeLength inode ≤ pos then return noSector
  else indexToSector inode.data (pos / blockSectorSize).toNat

/-! ## Reserving sectors -/

section Reserve

variable (alloc : Kernel (Option Nat))

/-- `inode_reserve_direct`. Returns the new value of `*p_entry` with the result. -/
def inodeReserveDirect (entry : Nat) : Kernel (Bool × Nat) :=
  if entry = 0 then do
    match ← alloc with
    | none => return (false, entry)
    | some sector =>
      writeSector sector Bytes.zeros
      return (true, sector)
  else return (true, entry)

/-- The loop over an array of entries: `todo` of them from index `i` on, with `num` sectors
left to reserve and `unit` of them under each entry. -/
def reserveEntries (child : Nat → Nat → Kernel (Bool × Nat)) (unit : Nat) :
    (todo i num : Nat) → Block → Kernel (Bool × Block)
  | 0, _, _, blk => return (true, blk)
  | todo + 1, i, num, blk => do
    let (ok, entry) ← child (blk.word i) (min num unit)
    let blk := blk.setWord i entry
    if ok then reserveEntries child unit todo (i + 1) (num - min num unit) blk
    else return (false, blk)

/-- The start of `inode_reserve_indirect`: an index block where there is none.
Whether `free_map_allocate` succeeds is not checked. -/
def reserveIndexBlock (entry : Nat) : Kernel Nat :=
  if entry = 0 then do
    match ← alloc with
    | some sector =>
      writeSector sector Bytes.zeros
      return sector
    | none =>
      record .indexRefused
      writeSector entry Bytes.zeros
      return entry
  else return entry

/-- `level_unit`: the sectors under each entry of an index block. -/
def levelUnit (level : Nat) : Nat := if level = 1 then 1 else indirectBlocksPerSector

/-- `inode_reserve_indirect`. Returns the new value of `*p_entry` with the result. -/
def inodeReserveIndirect : (level : Nat) → (entry num : Nat) → Kernel (Bool × Nat)
  | 0, entry, _ => inodeReserveDirect alloc entry
  | level + 1, entry, num => do
    let entry ← reserveIndexBlock alloc entry
    let blk ← readSector entry
    let unit := levelUnit (level + 1)
    let (ok, blk) ←
      reserveEntries (inodeReserveIndirect level) unit (divRoundUp num unit) 0 num blk
    if ok then
      writeSector entry blk
      return (true, entry)
    else return (false, entry)

/-- `inode_reserve`. Returns the new header with the result. -/
def inodeReserve (disk : Block) (length : Int) : Kernel (Bool × Block) :=
  if length < 0 then return (false, disk)
  else do
    let sectors := bytesToSectors length
    let rest := min sectors directBlocksCount
    let (ok, disk) ← reserveEntries (fun entry _ => inodeReserveDirect alloc entry) 1 rest 0 rest disk
    let sectors := sectors - rest
    if !ok then return (false, disk)
    else if sectors = 0 then return (true, disk)
    else
      let rest := min sectors indirectBlocksPerSector
      let (ok, entry) ← inodeReserveIndirect alloc 1 (disk.word indirectBlock) rest
      let disk := disk.setWord indirectBlock entry
      let sectors := sectors - rest
      if !ok then return (false, disk)
      else if sectors = 0 then return (true, disk)
      else
        let rest := min sectors (indirectBlocksPerSector * indirectBlocksPerSector)
        let (ok, entry) ← inodeReserveIndirect alloc 2 (disk.word doublyIndirectBlock) rest
        let disk := disk.setWord doublyIndirectBlock entry
        return (ok && sectors - rest = 0, disk)

end Reserve

/-! ## Reading and writing -/

/-- The loop of `inode_read_at`. -/
def readLoop (inode : Addr) : (fuel : Nat) → (size offset : Int) → (read : List UInt8) →
    (bounce : Bool) → Kernel (List UInt8)
  | 0, _, _, read, _ => return read
  | fuel + 1, size, offset, read, bounce =>
    if size ≤ 0 then return read
    else do
      let i ← deref inode
      let sectorIdx ← byteToSector i offset
      let sectorOfs := offset.tmod blockSectorSize
      let sectorLeft := blockSectorSize - sectorOfs
      let chunkSize := min size (min (inodeLength i - offset) sectorLeft)
      if chunkSize ≤ 0 then return read
      else if sectorOfs = 0 ∧ chunkSize = blockSectorSize then
        let b ← readSector sectorIdx
        readLoop inode fuel (size - chunkSize) (offset + chunkSize)
          (read ++ b.slice 0 blockSectorSize) bounce
      else if ← (if bounce then pure true else malloc) then
        let b ← readSector sectorIdx
        readLoop inode fuel (size - chunkSize) (offset + chunkSize)
          (read ++ b.slice sectorOfs.toNat chunkSize.toNat) true
      else return read

/-- `inode_read_at`. Returns the bytes read. Every round reads a byte, so `size` rounds
are enough. -/
def inodeReadAt (inode : Addr) (size offset : Int) : Kernel (List UInt8) :=
  readLoop inode size.toNat size offset [] false

/-- The loop of `inode_write_at`. -/
def writeLoop (inode : Addr) (buffer : Nat → UInt8) : (fuel : Nat) →
    (size offset written : Int) → (bounce : Bool) → Kernel Int
  | 0, _, _, written, _ => return written
  | fuel + 1, size, offset, written, bounce =>
    if size ≤ 0 then return written
    else do
      let i ← deref inode
      let sectorIdx ← byteToSector i offset
      let sectorOfs := offset.tmod blockSectorSize
      let sectorLeft := blockSectorSize - sectorOfs
      let chunkSize := min size (min (inodeLength i - offset) sectorLeft)
      let source := fun k => buffer (written.toNat + k)
      if chunkSize ≤ 0 then return written
      else if sectorOfs = 0 ∧ chunkSize = blockSectorSize then
        writeSector sectorIdx (Bytes.tabulate source)
        writeLoop inode buffer fuel (size - chunkSize) (offset + chunkSize)
          (written + chunkSize) bounce
      else if ← (if bounce then pure true else malloc) then
        let b ← (if 0 < sectorOfs ∨ chunkSize < sectorLeft then readSector sectorIdx
          else pure Bytes.zeros)
        writeSector sectorIdx (b.splice sectorOfs.toNat chunkSize.toNat source)
        writeLoop inode buffer fuel (size - chunkSize) (offset + chunkSize)
          (written + chunkSize) true
      else return written

section Reserve

variable (alloc : Kernel (Option Nat))

/-- The extension of a file at the start of `inode_write_at`. -/
def extend (inode : Addr) (i : Inode) (length : Int) : Kernel Bool := do
  let (success, data) ← inodeReserve alloc i.data length
  if success then
    let data := setDiskLength data length
    modifyInode inode fun i => { i with data }
    writeSector i.sector data
    return true
  else
    modifyInode inode fun i => { i with data }
    return false

/-- `inode_write_at`. -/
def inodeWriteAtWith (inode : Addr) (buffer : Nat → UInt8) (size offset : Int) : Kernel Int := do
  let i ← deref inode
  if i.denyWriteCnt ≠ 0 then return 0
  else
    let last ← byteToSector i (wrap32 (offset + size - 1))
    let ready ← (if last = noSector then extend alloc inode i (wrap32 (offset + size))
      else pure true)
    if ready then writeLoop inode buffer size.toNat size offset 0 false
    else return 0

/-- `bitmap_write`. -/
def bitmapWriteWith (file : File) : Kernel Bool := do
  let b ← gets (·.freeMap)
  let size : Int := byteCnt b.bitCnt
  let written ← inodeWriteAtWith alloc file.inode b.toBytes size 0
  return written = size

end Reserve

/-! ## The free map -/

/-- Assigns a bitmap to `*free_map`. -/
def setFreeMap (f : Bitmap → Bitmap) : Kernel Unit := modify fun s => { s with freeMap := f s.freeMap }

/--
`free_map_allocate`, at most `depth` calls deep.

A call inside a call finds one free sector less, so there are never more than
`freeMap.bitCnt + 1` of them.
-/
def freeMapAllocateAt (cnt : Nat) : (depth : Nat) → Kernel (Option Nat)
  | 0 => fail .stackOverflow
  | depth + 1 => do
    let b ← gets (·.freeMap)
    match b.scan 0 cnt false with
    | none =>
      record .refused
      return none
    | some sector =>
      setFreeMap fun b => b.setMultiple sector cnt true
      match ← gets (·.freeMapFile) with
      | none => return some sector
      | some file =>
        if ← bitmapWriteWith (freeMapAllocateAt 1 depth) file then return some sector
        else
          setFreeMap fun b => b.setMultiple sector cnt false
          record .refused
          return none

/-- `free_map_allocate`, for the one sector every caller asks for. -/
def freeMapAllocate : Kernel (Option Nat) := do
  let b ← gets (·.freeMap)
  freeMapAllocateAt 1 (b.bitCnt + 1)

/-- `inode_write_at`. -/
def inodeWriteAt (inode : Addr) (buffer : Nat → UInt8) (size offset : Int) : Kernel Int :=
  inodeWriteAtWith freeMapAllocate inode buffer size offset

/-- `bitmap_write`. -/
def bitmapWrite (file : File) : Kernel Bool := bitmapWriteWith freeMapAllocate file

/-- `free_map_release`, for the one sector every caller releases. -/
def freeMapRelease (sector : Nat) : Kernel Unit := do
  let b ← gets (·.freeMap)
  if b.bitCnt ≤ sector then fail .assertion
  else if !b.all sector 1 then fail .releaseFree
  else
    setFreeMap fun b => b.setMultiple sector 1 false
    modifyLive fun live => live.erase sector
    match ← gets (·.freeMapFile) with
    | none => fail .nullDeref
    | some file =>
      let _ ← bitmapWrite file
      return ()

/-! ## Releasing sectors -/

/-- The loop over the 128 words of a block: `todo` of them from index `i` on, with `num`
sectors left to release and `unit` of them under each entry. -/
def unreserveEntries (child : Nat → Nat → Kernel Unit) (unit : Nat) (blk : Block) :
    (todo i num : Nat) → Kernel Unit
  | 0, _, _ => return ()
  | todo + 1, i, num =>
    if i < indirectBlocksPerSector then do
      child (blk.word i) (min num unit)
      unreserveEntries child unit blk todo (i + 1) (num - min num unit)
    else fail .outOfBounds

/-- `inode_unreserve_indirect`. -/
def inodeUnreserveIndirect : (level : Nat) → (entry num : Nat) → Kernel Unit
  | 0, entry, _ => freeMapRelease entry
  | level + 1, entry, num => do
    let blk ← readSector entry
    let unit := levelUnit (level + 1)
    unreserveEntries (inodeUnreserveIndirect level) unit blk (divRoundUp num unit) 0 num
    freeMapRelease entry

/-- The branch of `inode_unreserve` for an index block, if there is one. -/
def unreserveLevel (level entry num : Nat) : Kernel Unit :=
  if 0 < num then inodeUnreserveIndirect level entry num else return ()

/-- `inode_unreserve`. The first loop runs to `sectors_to_unreserve`, not to
`level_unreserve`. -/
def inodeUnreserve (data : Block) : Kernel Bool :=
  if diskLength data < 0 then return false
  else do
    let sectors := bytesToSectors (diskLength data)
    recordIf (fun _ => directBlocksCount < sectors) .overrun
    unreserveEntries (fun entry _ => freeMapRelease entry) 1 data sectors 0 sectors
    let sectors := sectors - min sectors directBlocksCount
    let level := min sectors indirectBlocksPerSector
    unreserveLevel 1 (data.word indirectBlock) level
    let sectors := sectors - level
    let level := min sectors (indirectBlocksPerSector * indirectBlocksPerSector)
    unreserveLevel 2 (data.word doublyIndirectBlock) level
    return true

/-! ## Creating, opening and closing -/

/-- `inode_create`. -/
def inodeCreate (sector : Nat) (length : Int) (dir : Bool) : Kernel Bool :=
  if length < 0 then fail .assertion
  else do
    if ← malloc then
      let (success, disk) ← inodeReserve freeMapAllocate (newInodeDisk length dir) length
      if success then
        writeSector sector disk
        modifyLive fun live => sector :: live
      return success
    else return false

/-- `inode_reopen`. -/
def inodeReopen (inode : Addr) : Kernel Addr := do
  let _ ← deref inode
  modifyInode inode fun i => { i with openCnt := i.openCnt + 1 }
  return inode

/-- `inode_open`, with `none` for a null pointer. -/
def inodeOpen (sector : Nat) : Kernel (Option Addr) := do
  recordIf (fun s => !s.history.live.contains sector) .deadOpen
  match (← gets (·.openInodes)).find? (·.sector == sector) with
  | some i =>
    recordIf (fun _ => sector == freeMapSector) .freeMapShared
    some <$> inodeReopen i.addr
  | none =>
    if ← malloc then
      let data ← readSector sector
      let addr ← gets (·.nextAddr)
      modify fun s => { s with
        nextAddr := s.nextAddr + 1
        openInodes := { addr, sector, openCnt := 1, removed := false, denyWriteCnt := 0, data }
          :: s.openInodes }
      return some addr
    else return none

/-- The first access of `inode_close` to the inode. -/
def derefClose (inode : Addr) : Kernel Inode := fun s =>
  match s.inode? inode with
  | some i => .ok (i, s)
  | none => .error ⟨.doubleClose, s.history⟩

/-- `inode_close`. -/
def inodeClose : (inode : Option Addr) → Kernel Unit
  | none => return ()
  | some inode => do
    let i ← derefClose inode
    modifyInode inode fun i => { i with openCnt := i.openCnt - 1 }
    if i.openCnt - 1 = 0 then
      modify fun s => { s with openInodes := s.openInodes.filter (·.addr != inode) }
      if i.removed then
        freeMapRelease i.sector
        let _ ← inodeUnreserve i.data
        return ()

/-- `inode_remove`. -/
def inodeRemove (inode : Addr) : Kernel Unit := do
  let _ ← deref inode
  modifyInode inode fun i => { i with removed := true }

/-- `inode_allow_write`. -/
def inodeAllowWrite (inode : Addr) : Kernel Unit := do
  let i ← deref inode
  if 0 < i.denyWriteCnt ∧ i.denyWriteCnt ≤ i.openCnt then
    modifyInode inode fun i => { i with denyWriteCnt := i.denyWriteCnt - 1 }
  else fail .assertion

/-! ## Files -/

/-- `file_open`. -/
def fileOpen (inode : Option Addr) : Kernel (Option File) := do
  let memory ← malloc
  match inode, memory with
  | some inode, true => return some { inode, pos := 0, denyWrite := false }
  | _, _ =>
    inodeClose inode
    return none

/-- `file_close`. -/
def fileClose (file : File) : Kernel Unit := do
  (if file.denyWrite then inodeAllowWrite file.inode else pure ())
  inodeClose (some file.inode)

/-- `file_write`. Returns the file with its new position. -/
def fileWrite (file : File) (buffer : Nat → UInt8) (size : Int) : Kernel (Int × File) := do
  let written ← inodeWriteAt file.inode buffer size file.pos
  return (written, { file with pos := file.pos + written })

/-- `file_read`. Returns the file with its new position. -/
def fileRead (file : File) (size : Int) : Kernel (List UInt8 × File) := do
  let read ← inodeReadAt file.inode size file.pos
  return (read, { file with pos := file.pos + read.length })

/-- `file_length`. -/
def fileLength (file : File) : Kernel Int := do
  let i ← deref file.inode
  return inodeLength i

/-- `file_seek`. Returns the file with its new position. -/
def fileSeek (file : File) (newPos : Int) : Kernel File :=
  if 0 ≤ newPos then return { file with pos := newPos } else fail .assertion

/-- `file_tell`. -/
def fileTell (file : File) : Int := file.pos

/-! ## The free map file -/

/-- `malloc` where the code panics without memory. -/
def mallocOrPanic : Kernel Unit := do
  if ← malloc then return () else fail .assertion

/-- `free_map_init`. The memory of the bitmap held `unused` before, and still does behind the
last bit. A device has at least the two sectors that are marked. -/
def freeMapInit (unused : Nat → Bool) : Kernel Unit := do
  let bitCnt ← gets (·.size)
  mallocOrPanic
  mallocOrPanic
  modify fun s => { s with freeMap := {
    bitCnt
    bits := (List.range (elemBits * elemCnt bitCnt)).map fun i => !decide (i < bitCnt) && unused i
    length_bits := by simp } }
  setFreeMap fun b => b.set freeMapSector true
  setFreeMap fun b => b.set rootDirSector true

/-- `free_map_open`. -/
def freeMapOpen : Kernel Unit := do
  match ← fileOpen (← inodeOpen freeMapSector) with
  | none => fail .assertion
  | some file =>
    modify fun s => { s with freeMapFile := some file }
    let bitCnt ← gets (·.freeMap.bitCnt)
    if 0 < bitCnt then
      let size : Int := byteCnt bitCnt
      let bytes ← inodeReadAt file.inode size 0
      if bytes.length = size then setFreeMap fun _ => Bitmap.ofBytes bitCnt fun k => bytes.getD k 0
      else fail .assertion

/-- `free_map_close`. -/
def freeMapClose : Kernel Unit := do
  match ← gets (·.freeMapFile) with
  | none => return ()
  | some file => fileClose file

/-- `free_map_create`. -/
def freeMapCreate : Kernel Unit := do
  let b ← gets (·.freeMap)
  if ← inodeCreate freeMapSector (byteCnt b.bitCnt) false then
    match ← fileOpen (← inodeOpen freeMapSector) with
    | none => fail .assertion
    | some file =>
      modify fun s => { s with freeMapFile := some file }
      if ← bitmapWrite file then return ()
      else fail .assertion
  else fail .assertion

end Pintos.Filesys
