import Pintos.Logic.Bytes

/-!
# Block devices

The block device of `devices/block.c`, and the faults that stop the kernel.
A device returns what was last written to a sector.
-/

namespace Pintos

open Pintos.Logic

/-- What stops the kernel, or leaves it without a meaning. -/
inductive Fault where
  /-- An `ASSERT` fails, or the code calls `PANIC`. -/
  | assertion
  /-- `ASSERT (bitmap_all (free_map, sector, cnt))` of `free_map_release` fails. -/
  | releaseFree
  /-- `check_sector` panics: access past the end of the device. -/
  | pastEnd
  /-- The result of a failed allocation is dereferenced. -/
  | nullDeref
  /-- A freed `struct inode` is dereferenced. -/
  | useAfterFree
  /-- `inode_close` is applied to a freed `struct inode`. -/
  | doubleClose
  /-- An array of a `struct inode` is read past the end of the structure. -/
  | outOfBounds
  /-- The calls nest without end. -/
  | stackOverflow
  deriving DecidableEq, Repr

/-- `BLOCK_SECTOR_SIZE`. -/
abbrev blockSectorSize : Nat := 512

/-- The contents of a sector. -/
abbrev Block : Type := Bytes blockSectorSize

/-- `struct block`: the number of sectors and what they hold. -/
structure Disk where
  size : Nat
  sectors : Nat → Block

/-- A device of zeros. -/
def Disk.blank (size : Nat) : Disk := ⟨size, fun _ => Bytes.zeros⟩

/-- `block_read`. -/
def blockRead (block : Disk) (sector : Nat) : Except Fault Block :=
  if block.size ≤ sector then .error .pastEnd else .ok (block.sectors sector)

/-- `block_write`. -/
def blockWrite (block : Disk) (sector : Nat) (buffer : Block) : Except Fault Disk :=
  if block.size ≤ sector then .error .pastEnd
  else .ok { block with sectors := Function.update block.sectors sector buffer }

theorem blockRead_ok {block : Disk} {sector : Nat} (h : sector < block.size) :
    blockRead block sector = .ok (block.sectors sector) := by
  rw [blockRead, if_neg (Nat.not_le.mpr h)]

theorem blockWrite_ok {block : Disk} {sector : Nat} (h : sector < block.size) (buffer : Block) :
    blockWrite block sector buffer
      = .ok { block with sectors := Function.update block.sectors sector buffer } := by
  rw [blockWrite, if_neg (Nat.not_le.mpr h)]

end Pintos
