import Pintos.Filesys.Inode
import Pintos.Logic.Traced

/-!
# Reserving sectors, with a log

The functions of `inode.c` that reserve sectors, once more: each sector that they are handed, write
or take for an index block is logged.
-/

namespace Pintos.Filesys

open Pintos.Logic Pintos.Logic.Exec

/-- What is done with a sector. -/
inductive Access where
  /-- `free_map_allocate` hands it out. -/
  | handed (sector : Nat)
  /-- `buffer_cache_write` writes it. -/
  | wrote (sector : Nat)
  /-- `buffer_cache_read` reads it, as an index block. -/
  | entered (sector : Nat)
  deriving DecidableEq

/-- Code of the file system with a log of its accesses. -/
abbrev Logged (α : Type) : Type := Traced Fs Stop Access α

namespace Logged

/-- `free_map_allocate`. -/
def allocate : Logged (Option Nat) := logged freeMapAllocate fun r => r.toList.map .handed

/-- `buffer_cache_write`. -/
def write (sector : Nat) (buffer : Block) : Logged Unit :=
  logged (writeSector sector buffer) fun _ => [.wrote sector]

/-- `buffer_cache_read` of an index block. -/
def read (sector : Nat) : Logged Block := logged (readSector sector) fun _ => [.entered sector]

/-- `inode_reserve_direct`. -/
def inodeReserveDirect (entry : Nat) : Logged (Bool × Nat) :=
  if entry = 0 then do
    match ← allocate with
    | none => return (false, entry)
    | some sector =>
      write sector Bytes.zeros
      return (true, sector)
  else return (true, entry)

/-- The loop over an array of entries. -/
def reserveEntries (child : Nat → Nat → Logged (Bool × Nat)) (unit : Nat) :
    (todo i num : Nat) → Block → Logged (Bool × Block)
  | 0, _, _, blk => return (true, blk)
  | todo + 1, i, num, blk => do
    let (ok, entry) ← child (blk.word i) (min num unit)
    let blk := blk.setWord i entry
    if ok then reserveEntries child unit todo (i + 1) (num - min num unit) blk
    else return (false, blk)

/-- The start of `inode_reserve_indirect`. -/
def reserveIndexBlock (entry : Nat) : Logged Nat :=
  if entry = 0 then do
    match ← allocate with
    | some sector =>
      write sector Bytes.zeros
      return sector
    | none =>
      logged (record .indexRefused) fun _ => []
      write entry Bytes.zeros
      return entry
  else return entry

/-- The rest of `inode_reserve_indirect`, with the index block `entry`. -/
def reserveUnder (child : Nat → Nat → Logged (Bool × Nat)) (unit entry num : Nat) :
    Logged (Bool × Nat) := do
  let blk ← read entry
  let (ok, blk) ← reserveEntries child unit (divRoundUp num unit) 0 num blk
  if ok then
    write entry blk
    return (true, entry)
  else return (false, entry)

/-- `inode_reserve_indirect`. -/
def inodeReserveIndirect : (level : Nat) → (entry num : Nat) → Logged (Bool × Nat)
  | 0, entry, _ => inodeReserveDirect entry
  | level + 1, entry, num => do
    let entry ← reserveIndexBlock entry
    reserveUnder (inodeReserveIndirect level) (levelUnit (level + 1)) entry num

/-- `inode_reserve`. -/
def inodeReserve (disk : Block) (length : Int) : Logged (Bool × Block) :=
  if length < 0 then return (false, disk)
  else do
    let sectors := bytesToSectors length
    let rest := min sectors directBlocksCount
    let (ok, disk) ← reserveEntries (fun entry _ => inodeReserveDirect entry) 1 rest 0 rest disk
    let sectors := sectors - rest
    if !ok then return (false, disk)
    else if sectors = 0 then return (true, disk)
    else
      let rest := min sectors indirectBlocksPerSector
      let (ok, entry) ← inodeReserveIndirect 1 (disk.word indirectBlock) rest
      let disk := disk.setWord indirectBlock entry
      let sectors := sectors - rest
      if !ok then return (false, disk)
      else if sectors = 0 then return (true, disk)
      else
        let rest := min sectors (indirectBlocksPerSector * indirectBlocksPerSector)
        let (ok, entry) ← inodeReserveIndirect 2 (disk.word doublyIndirectBlock) rest
        let disk := disk.setWord doublyIndirectBlock entry
        return (ok && sectors - rest = 0, disk)

/-! ## Without the log -/

theorem inodeReserveDirect_erases (entry : Nat) :
    Erases (inodeReserveDirect entry) (Filesys.inodeReserveDirect freeMapAllocate entry) := by
  refine .ite ?_ (.pure _)
  refine .bind (erases_logged _ _) fun r => ?_
  cases r with
  | none => exact .pure _
  | some k => exact .bind (erases_logged _ _) fun _ => .pure _

theorem reserveEntries_erases {child : Nat → Nat → Kernel (Bool × Nat)}
    {child' : Nat → Nat → Logged (Bool × Nat)}
    (h : ∀ entry num, Erases (child' entry num) (child entry num)) (unit todo : Nat) :
    ∀ i num blk, Erases (reserveEntries child' unit todo i num blk)
      (Filesys.reserveEntries child unit todo i num blk) := by
  induction todo with
  | zero => exact fun _ _ _ => .pure _
  | succ todo ih =>
    intro i num blk
    exact .bind (h _ _) fun r => .ite (ih _ _ _) (.pure _)

theorem reserveIndexBlock_erases (entry : Nat) :
    Erases (reserveIndexBlock entry) (Filesys.reserveIndexBlock freeMapAllocate entry) := by
  refine .ite ?_ (.pure _)
  refine .bind (erases_logged _ _) fun r => ?_
  cases r with
  | none =>
    exact .bind (erases_logged _ _) fun _ => .bind (erases_logged _ _) fun _ => .pure _
  | some k => exact .bind (erases_logged _ _) fun _ => .pure _

theorem inodeReserveIndirect_erases (level : Nat) :
    ∀ entry num, Erases (inodeReserveIndirect level entry num)
      (Filesys.inodeReserveIndirect freeMapAllocate level entry num) := by
  induction level with
  | zero => exact fun entry _ => inodeReserveDirect_erases entry
  | succ level ih =>
    intro entry num
    refine .bind (reserveIndexBlock_erases _) fun entry => .bind (erases_logged _ _) fun blk => ?_
    refine .bind (reserveEntries_erases ih _ _ _ _ _) fun r => .ite ?_ (.pure _)
    exact .bind (erases_logged _ _) fun _ => .pure _

theorem inodeReserve_erases (disk : Block) (length : Int) :
    Erases (inodeReserve disk length) (Filesys.inodeReserve freeMapAllocate disk length) := by
  refine .ite (.pure _) (.bind (reserveEntries_erases
    (fun entry _ => inodeReserveDirect_erases entry) _ _ _ _ _) fun r => ?_)
  refine .ite (.pure _) (.ite (.pure _) (.bind (inodeReserveIndirect_erases _ _ _) fun r => ?_))
  refine .ite (.pure _) (.ite (.pure _) (.bind (inodeReserveIndirect_erases _ _ _) fun r => ?_))
  exact .pure _

/-! ## Relations kept by every step -/

/-- A relation kept by what reserving is made of. -/
structure Keeping (R : Fs × List Access → Fs × List Access → Prop)
    (F : Fs × List Access → Stop → Prop) : Prop extends StepRel R F where
  allocate : Steps R F allocate
  write : ∀ sector buffer, Steps R F (write sector buffer)
  read : ∀ sector, Steps R F (read sector)
  refused : Steps R F (logged (record .indexRefused) fun _ => [])

/-- Code that reserves keeps what its steps keep. -/
abbrev Reserving {α : Type} (y : Logged α) : Prop :=
  ∀ (R : Fs × List Access → Fs × List Access → Prop) (F : Fs × List Access → Stop → Prop),
    Keeping R F → Steps R F y

theorem Reserving.pure {α : Type} (a : α) : Reserving (Pure.pure a : Logged α) :=
  fun _ _ q => .pure q.toStepRel a

theorem Reserving.bind {α β : Type} {x : Logged α} {f : α → Logged β} (hx : Reserving x)
    (hf : ∀ a, Reserving (f a)) : Reserving (x >>= f) :=
  fun R F q => .bind q.toStepRel (hx R F q) fun a => hf a R F q

theorem Reserving.ite {α : Type} {c : Prop} [Decidable c] {x y : Logged α} (hx : Reserving x)
    (hy : Reserving y) : Reserving (if c then x else y) :=
  fun R F q => Steps.ite (hx R F q) (hy R F q)

theorem write_reserving (sector : Nat) (buffer : Block) : Reserving (write sector buffer) :=
  fun _ _ q => q.write sector buffer

theorem read_reserving (sector : Nat) : Reserving (read sector) := fun _ _ q => q.read sector

theorem inodeReserveDirect_reserving (entry : Nat) : Reserving (inodeReserveDirect entry) := by
  refine .ite (.bind (fun _ _ q => q.allocate) fun r => ?_) (.pure _)
  cases r with
  | none => exact .pure _
  | some k => exact .bind (write_reserving _ _) fun _ => .pure _

theorem reserveEntries_reserving {child : Nat → Nat → Logged (Bool × Nat)}
    (h : ∀ entry num, Reserving (child entry num)) (unit todo : Nat) :
    ∀ i num blk, Reserving (reserveEntries child unit todo i num blk) := by
  induction todo with
  | zero => exact fun _ _ _ => .pure _
  | succ todo ih => exact fun i num blk => .bind (h _ _) fun r => .ite (ih _ _ _) (.pure _)

theorem reserveUnder_reserving {child : Nat → Nat → Logged (Bool × Nat)}
    (h : ∀ entry num, Reserving (child entry num)) (unit entry num : Nat) :
    Reserving (reserveUnder child unit entry num) := by
  refine .bind (read_reserving _) fun blk => ?_
  refine .bind (reserveEntries_reserving h _ _ _ _ _) fun r => .ite ?_ (.pure _)
  exact .bind (write_reserving _ _) fun _ => .pure _

theorem inodeReserveIndirect_reserving (level : Nat) :
    ∀ entry num, Reserving (inodeReserveIndirect level entry num) := by
  induction level with
  | zero => exact fun entry _ => inodeReserveDirect_reserving entry
  | succ level ih =>
    intro entry num
    refine .bind (.ite (.bind (fun _ _ q => q.allocate) fun r => ?_) (.pure _)) fun entry =>
      reserveUnder_reserving ih _ _ _
    cases r with
    | none =>
      refine .bind (fun _ _ q => q.refused) fun _ => ?_
      exact .bind (write_reserving _ _) fun _ => .pure _
    | some k => exact .bind (write_reserving _ _) fun _ => .pure _

end Logged

end Pintos.Filesys
