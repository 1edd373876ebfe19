import Pintos.Filesys.Filesys
import Pintos.Userprog.Process

/-!
# What a process holds, and how it gives it back

`process_exit` with `free_child_list` and `free_opened_file`, as one call that runs alone, over
the threads and the file system together.
-/

namespace Pintos.Process

open Pintos.Lib Pintos.Logic Pintos.Logic.Exec Pintos.Filesys

/-- `struct file_descriptor`. -/
structure FileDescriptor where
  fd : Int
  file : File
  dir : Option Dir

/-- The rest of `struct thread`: what a process holds. Its `cwd` is kept with the file system. -/
structure Resources where
  pagedir : Option Nat
  runningFile : Option File
  fdList : List FileDescriptor

/-- The threads, what they hold, and the file system. -/
structure World where
  sys : Sys
  held : Ptr → Resources
  /-- The page directories that have not been freed. -/
  pagedirs : List Nat
  fs : Fs

namespace World

def setSys (w : World) (f : Sys → Sys) : World := { w with sys := f w.sys }

def setHeld (w : World) (p : Ptr) (f : Resources → Resources) : World :=
  { w with held := Function.update w.held p (f (w.held p)) }

/-- The current directory of a process. -/
def cwd (w : World) (p : Ptr) : Option Dir := (w.fs.cwds.find? (·.1 == p)).map (·.2)

end World

/-- Code of the file system. -/
def inFilesys {α : Type} (x : Kernel α) : Exec World Stop α := fun w =>
  match x w.fs with
  | .ok (a, fs) => .ok (a, { w with fs })
  | .error e => .error e

/-- `file_allow_write`. Returns the file as it is then. -/
def fileAllowWrite (file : File) : Kernel File := do
  (if file.denyWrite then inodeAllowWrite file.inode else pure ())
  return { file with denyWrite := false }

/-- What `process_exit` does with the executable. -/
def closeRunningFile (file : File) : Kernel Unit := do
  let file ← fileAllowWrite file
  fileClose file

/-- `free_child_list`. -/
def freeChildList (t : Ptr) : Exec World Stop Unit :=
  modify (World.setSys · fun s => s.setThread t fun r => { r with childThreadList := [] })

/-- `free_opened_file`. It frees the memory of each descriptor and of its `struct file`, and
closes nothing. -/
def freeOpenedFile (t : Ptr) : Exec World Stop Unit :=
  modify (World.setHeld · t fun r => { r with fdList := [] })

/-- `pagedir_destroy`. -/
def pagedirDestroy (pd : Nat) : Exec World Stop Unit :=
  modify fun w => { w with pagedirs := w.pagedirs.filter (· != pd) }

/-- The part of `process_exit` that gives back what the process holds. -/
def giveBack (p : Ptr) : Exec World Stop Unit := do
  let cur ← gets (World.held · p)
  match cur.runningFile with
  | none => pure ()
  | some file =>
    inFilesys (closeRunningFile file)
    modify (World.setHeld · p fun r => { r with runningFile := none })
  freeChildList p
  freeOpenedFile p
  match cur.pagedir with
  | none => pure ()
  | some pd =>
    modify (World.setHeld · p fun r => { r with pagedir := none })
    pagedirDestroy pd

/-- `process_exit`, called by the thread `p`. -/
def processExit (p : Ptr) : Exec World Stop Unit := do
  let s ← gets (·.sys)
  match threadGetByTid s (s.thread p).parentTid with
  | some parent =>
    if (s.thread parent).childThreadList = [] then return ()
    else
      modify (World.setSys · fun s => s.setThread parent fun r =>
        { r with childThreadList := upChild (s.thread p).tid r.childThreadList })
      giveBack p
  | none => giveBack p

end Pintos.Process
