import Pintos.Userprog.Exit

/-!
# The descriptors of a process

`getfile` and the system calls of `syscall.c` that take or return a descriptor. A call whose pointer
is refused ends the process and is left out. The keyboard and the console are left out, too.
-/

namespace Pintos.Process

open Pintos.Lib Pintos.Logic Pintos.Logic.Exec Pintos.Filesys

/-- The descriptors of a process, over the file system. -/
structure Descriptors where
  fs : Fs
  fileNum : Int
  fdList : List FileDescriptor

/-- Code of the file system, in a system call. -/
def inCall {α : Type} (x : Kernel α) : Exec Descriptors Stop α := fun s =>
  match x s.fs with
  | .ok (a, fs) => .ok (a, { s with fs })
  | .error e => .error e

/-- What `getfile` looks for. `searchdir` is 0 for a file, 1 for a directory, 2 for either. -/
def FileDescriptor.matches (fd : Int) (searchdir : Nat) (d : FileDescriptor) : Bool :=
  d.fd == fd && (searchdir == 2 || d.dir.isSome && searchdir == 1 || d.dir.isNone && searchdir == 0)

/-- `getfile`. -/
def getfile (l : List FileDescriptor) (fd : Int) (searchdir : Nat) : Option FileDescriptor :=
  l.find? (·.matches fd searchdir)

/-- Assigns to what `getfile` returns. -/
def setDescriptor (fd : Int) (searchdir : Nat) (f : FileDescriptor → FileDescriptor) :
    Exec Descriptors Stop Unit :=
  modify fun s => { s with fdList := s.fdList.modify (s.fdList.findIdx (·.matches fd searchdir)) f }

/-- `open`. -/
def openFile (file : CString) : Exec Descriptors Stop Int := do
  let memory ← inCall malloc
  match ← inCall (filesysOpen file) with
  | none => return -1
  | some f =>
    (if memory then pure () else inCall (fail .nullDeref))
    let fd ← gets (·.fileNum)
    modify fun s => { s with fileNum := wrap32 (fd + 1) }
    let i ← inCall (deref f.inode)
    let dir ← (if isDir i.data then inCall (do dirOpen (some (← inodeReopen f.inode))) else pure none)
    modify fun s => { s with fdList := s.fdList ++ [⟨fd, f, dir⟩] }
    return fd

/-- `filesize`. -/
def filesize (fd : Int) : Exec Descriptors Stop Int := do
  match getfile (← gets (·.fdList)) fd 0 with
  | none => return -1
  | some d => inCall (fileLength d.file)

/-- `read`. Returns what was read with the result. From the keyboard come `length` bytes. -/
def read (fd : Int) (length : Nat) : Exec Descriptors Stop (Int × List UInt8) := do
  if fd = 1 then return (-1, [])
  else
    let l ← gets (·.fdList)
    if fd = 0 then return (length, [])
    else
      match getfile l fd 0 with
      | none => return (-1, [])
      | some d =>
        let r ← inCall (fileRead d.file (wrap32 length))
        setDescriptor fd 0 fun d => { d with file := r.2 }
        return (r.1.length, r.1)

/-- `write`. -/
def write (fd : Int) (buffer : Nat → UInt8) (length : Nat) : Exec Descriptors Stop Int := do
  if fd = 0 then return -1
  else if fd = 1 then return length
  else
    match getfile (← gets (·.fdList)) fd 0 with
    | none => return -1
    | some d =>
      let r ← inCall (fileWrite d.file buffer (wrap32 length))
      setDescriptor fd 0 fun d => { d with file := r.2 }
      return r.1

/-- `seek`. -/
def seek (fd : Int) (position : Nat) : Exec Descriptors Stop Unit := do
  match getfile (← gets (·.fdList)) fd 0 with
  | none => return ()
  | some d =>
    let file ← inCall (fileSeek d.file (wrap32 position))
    setDescriptor fd 0 fun d => { d with file }

/-- `tell`. -/
def tell (fd : Int) : Exec Descriptors Stop Int := do
  match getfile (← gets (·.fdList)) fd 0 with
  | none => return -1
  | some d => return fileTell d.file

/-- `close`. It looks for a file only. -/
def close (fd : Int) : Exec Descriptors Stop Unit := do
  match getfile (← gets (·.fdList)) fd 0 with
  | none => return ()
  | some d =>
    inCall (fileClose d.file)
    inCall (dirClose d.dir)
    modify fun s => { s with fdList := s.fdList.eraseP (·.matches fd 0) }

/-- `readdir`. -/
def readdir (fd : Int) : Exec Descriptors Stop (Option (List UInt8)) := do
  match getfile (← gets (·.fdList)) fd 1 with
  | none => return none
  | some d =>
    let i ← inCall (deref d.file.inode)
    if !isDir i.data then return none
    else
      match d.dir with
      | none => inCall (fail .nullDeref)
      | some dir =>
        let r ← inCall (dirReaddir dir)
        setDescriptor fd 1 fun d => { d with dir := some r.2 }
        return r.1

/-- `isdir`. -/
def isdir (fd : Int) : Exec Descriptors Stop Bool := do
  match getfile (← gets (·.fdList)) fd 2 with
  | none => inCall (fail .nullDeref)
  | some d =>
    let i ← inCall (deref d.file.inode)
    return isDir i.data

/-- `inumber`. -/
def inumber (fd : Int) : Exec Descriptors Stop Nat := do
  match getfile (← gets (·.fdList)) fd 2 with
  | none => inCall (fail .nullDeref)
  | some d =>
    let i ← inCall (deref d.file.inode)
    return i.sector

/-- A system call of the process but `open`. -/
inductive DescriptorCall
  | close (fd : Int)
  | filesize (fd : Int)
  | read (fd : Int) (length : Nat)
  | write (fd : Int) (buffer : Nat → UInt8) (length : Nat)
  | seek (fd : Int) (position : Nat)
  | tell (fd : Int)
  | readdir (fd : Int)
  | isdir (fd : Int)
  | inumber (fd : Int)

/-- The call, without its result. -/
def DescriptorCall.serve : DescriptorCall → Exec Descriptors Stop Unit
  | .close fd => Process.close fd
  | .filesize fd => do let _ ← Process.filesize fd
  | .read fd length => do let _ ← Process.read fd length
  | .write fd buffer length => do let _ ← Process.write fd buffer length
  | .seek fd position => Process.seek fd position
  | .tell fd => do let _ ← Process.tell fd
  | .readdir fd => do let _ ← Process.readdir fd
  | .isdir fd => do let _ ← Process.isdir fd
  | .inumber fd => do let _ ← Process.inumber fd

end Pintos.Process
