import Pintos.Filesys.Directory

/-!
# The file system

`filesys/filesys.c`: creating, opening and removing files by their paths, and starting and
stopping the file system.
-/

namespace Pintos.Filesys

open Pintos.Logic Pintos.Logic.Exec Pintos.Lib

/-- The two buffers for `name_resolution`, and what it puts there. -/
def resolve (path : CString) : Kernel (CString × CString) := do
  mallocUnchecked
  mallocUnchecked
  nameResolution path

/-- The allocation of an inode and its entry in `filesys_create`. Returns whether all of it
succeeded, and `inode_sector`. -/
def createIn (dir : Dir) (filename : CString) (initialSize : Int) (dirFlag : Bool) :
    Kernel (Bool × Nat) := do
  match ← freeMapAllocate with
  | none => return (false, 0)
  | some inodeSector =>
    if ← inodeCreate inodeSector initialSize dirFlag then
      let success ← dirAdd dir filename inodeSector dirFlag
      return (success, inodeSector)
    else return (false, inodeSector)

/-- `filesys_create`. -/
def filesysCreate (path : CString) (initialSize : Int) (dirFlag : Bool) : Kernel Bool := do
  let (directory, filename) ← resolve path
  match ← dirOpenPath directory with
  | none => return false
  | some dir =>
    let (success, inodeSector) ← createIn dir filename initialSize dirFlag
    (if !success && inodeSector != 0 then freeMapRelease inodeSector else pure ())
    dirClose (some dir)
    return success

/-- `filesys_open`. A removed inode is left open. -/
def filesysOpen (name : CString) : Kernel (Option File) :=
  if name.length = 0 then return none
  else do
    let (directory, filename) ← resolve name
    match ← dirOpenPath directory with
    | none => return none
    | some dir =>
      let inode ← (if 0 < filename.length then do
          let inode ← dirLookup dir filename
          dirClose (some dir)
          return inode
        else pure (some dir.inode))
      match inode with
      | none => return none
      | some inode =>
        let i ← deref inode
        if i.removed then
          record .removedOpened
          return none
        else fileOpen (some inode)

/-- `filesys_remove`. -/
def filesysRemove (name : CString) : Kernel Bool := do
  let (directory, filename) ← resolve name
  match ← dirOpenPath directory with
  | none => return false
  | some dir =>
    let success ← dirRemove dir filename
    dirClose (some dir)
    return success

/-- Assigns to the `cwd` of the running thread. -/
def Fs.setCwd (s : Fs) (dir : Dir) : Fs :=
  { s with cwds := (s.current, dir) :: s.cwds.eraseP (·.1 == s.current) }

/-- `filesys_cd`. -/
def filesysCd (name : CString) : Kernel Bool := do
  match ← dirOpenPath name with
  | none => return false
  | some dir =>
    dirClose (← gets (·.cwd))
    modify fun s => s.setCwd dir
    return true

/-! ## Starting and stopping -/

/-- `do_format`. -/
def doFormat : Kernel Unit := do
  freeMapCreate
  if ← dirCreate rootDirSector 16 then freeMapClose
  else fail .assertion

/-- The state in which `filesys_init` finds the kernel. -/
def boot (env : Env) (disk : Disk) : Fs where
  env
  clock := ⟨0, 0⟩
  store := Store.init disk
  freeMap := ⟨0, [], rfl⟩
  freeMapFile := none
  openInodes := []
  nextAddr := 0
  cwds := []
  current := 0
  history := { live := [], events := [] }

/-- `filesys_init`, where `unused` is what the memory for the free map held before. -/
def filesysInit (format : Bool) (unused : Nat → Bool) : Kernel Unit := do
  freeMapInit unused
  (if format then doFormat else pure ())
  freeMapOpen

end Pintos.Filesys
