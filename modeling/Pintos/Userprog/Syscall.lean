import Pintos.Userprog.Inodes
import Mathlib.Algebra.GroupWithZero.Nat
import Mathlib.Algebra.Ring.Int.Defs

/-!
# System calls on files

`userprog/syscall.c` of project 4, and what it calls, as far as locks, user memory and the file
system as a region of code are concerned. A call is a program of `Logic/Critical.lean`: its
instructions are the lock operations, the ways into and out of `filesys_*`, `dir_*`, `file_*`
and `inode_*`, the accesses that may fault, and those to the open inodes.

What a call finds in the file system, and which allocations succeed, is chosen when it starts
(`Seen`): every choice is a run. A choice that the open inodes do not bear out stops at the
access that shows it.
-/

namespace Pintos.Userprog

open Pintos.Logic

/-! ## User memory -/

/-- `PHYS_BASE`. -/
def physBase : Nat := 0xc0000000

/-- `is_user_vaddr`. -/
def isUserVaddr (vaddr : Nat) : Bool := vaddr < physBase

/-- What a page directory allows at an address. -/
inductive Access where
  | readOnly
  | readWrite
  deriving DecidableEq

/-- The memory of a process, as the kernel sees it. Addresses have 32 bits. -/
structure Memory where
  accessAt : BitVec 32 → Option Access
  byteAt : BitVec 32 → UInt8

def Memory.access (m : Memory) (addr : Nat) : Option Access := m.accessAt (BitVec.ofNat 32 addr)

def Memory.byte (m : Memory) (addr : Nat) : UInt8 := m.byteAt (BitVec.ofNat 32 addr)

/-- `validate_addr`. -/
def validateAddr (m : Memory) (ptr : Nat) : Bool :=
  ptr != 0 && (List.range 4).all fun i => isUserVaddr (ptr + i) && (m.access (ptr + i)).isSome

/-- The loop of `validate_string`, which stops at `PHYS_BASE` at the latest. -/
def validateStringFrom (m : Memory) : (fuel : Nat) → Nat → Bool
  | 0, _ => false
  | fuel + 1, ch =>
    if validateAddr m ch then m.byte ch == 0 || validateStringFrom m fuel (ch + 1) else false

/-- `validate_string`. -/
def validateString (m : Memory) (str : Nat) : Bool := validateStringFrom m (physBase - str) str

/-! ## Instructions -/

/-- The locks. -/
inductive LockName where
  | fileLock
  | bufferCacheLock
  deriving DecidableEq

/-- What the kernel does that may not go well. -/
inductive Action where
  /-- Reads a byte through a pointer of the user. -/
  | load (addr : Nat)
  /-- Writes one. -/
  | store (addr : Nat)
  /-- Uses a pointer of its own, which is null or dangling if not `ok`. -/
  | deref (ok : Bool)
  /-- `ASSERT`. -/
  | assert (ok : Bool)
  deriving DecidableEq

/-- The ways into the file system. -/
inductive Way where
  /-- Under `file_lock`. -/
  | guarded
  /-- With no lock. -/
  | bare
  deriving DecidableEq

/-- A part of a system call. -/
abbrev Program : Type := List (Instr LockName Way Action InodeWork)

/-- `page_fault`: for a page that is not there the process exits, for one that is read-only
`kill` panics. -/
def Memory.effect (m : Memory) : Action → Outcome
  | .load addr => if (m.access addr).isSome then .next else .die
  | .store addr =>
    match m.access addr with
    | none => .die
    | some .readOnly => .halt
    | some .readWrite => .next
  | .deref ok => if ok then .next else .die
  | .assert ok => if ok then .next else .halt

/-- The bytes from `addr` on are read. -/
def loads (addr n : Nat) : List Action := (List.range n).map fun i => .load (addr + i)

/-- The bytes from `addr` on are written. -/
def stores (addr n : Nat) : List Action := (List.range n).map fun i => .store (addr + i)

/-- A program that only acts. -/
def acts (as : List Action) : Program := as.map .act

/-- A part that runs with a lock held. -/
def locked (lock : LockName) (body : Program) : Program := .acquire lock :: body ++ [.release lock]

/-- A call into the file system. -/
def inFilesys (way : Way) (body : Program) : Program := .enter way :: body ++ [.leave]

/-- The conversion of a value to `off_t`. -/
def offT (n : Int) : Int := (n + 2 ^ 31) % 2 ^ 32 - 2 ^ 31

/-! ## The file system -/

/-- What the file system does in the course of a call. -/
inductive Use where
  /-- `buffer_cache_read` or `buffer_cache_write` with a buffer of the kernel, null if not `ok`. -/
  | io (ok : Bool)
  /-- `dir_get_inode` or `dir_is_empty` of a directory, null if not `ok`. -/
  | deref (ok : Bool)
  /-- An `ASSERT`, as that of `dir_lookup`. -/
  | assert (ok : Bool)
  /-- `inode_open`: whether the inode is open already, and whether `malloc` succeeds. -/
  | inodeOpen (sector handle : Nat) (found memory : Bool)
  | inodeReopen (handle handle' : Nat)
  /-- `inode_close`: whether it is for the last time, and what it does to a removed inode then. -/
  | inodeClose (handle : Nat) (last : Bool) (ios : List Bool)

/-- What a call finds. -/
structure Seen where
  /-- Whether each allocation whose result is used unchecked succeeds; those of a call are
  numbered. -/
  malloc : Nat → Bool := fun _ => true
  /-- What directories and inodes the call goes through. -/
  uses : List Use := []
  /-- The uses of the buffer cache with a buffer of the kernel, and whether this buffer was
  allocated. -/
  ios : List Bool := []
  /-- Whether a `bounce` buffer can be allocated. -/
  bounce : Bool := true
  /-- `inode->data.length` and `file->pos`. -/
  length : Int := 0
  pos : Int := 0
  /-- Whether writes to the inode are denied; for `file_deny_write`, whether it may deny them. -/
  denied : Bool := false
  /-- Whether `inode_reserve` succeeds. -/
  reserved : Bool := true
  /-- Whether `getfile` finds a descriptor. -/
  fileDesc : Bool := false
  /-- Whether `filesys_open` or `dir_readdir` finds something. -/
  found : Bool := false
  /-- `inode->data.is_dir`. -/
  isDir : Bool := false
  /-- The length of the name `dir_readdir` finds. -/
  nameLength : Nat := 0
  /-- The handles of `file_desc->file`, or of the executable, and of `file_desc->dir`, and
  whether they are the last. -/
  handle : Nat := 0
  dirHandle : Nat := 0
  last : Bool := false
  /-- Whether `thread_create` is given a name, and `palloc_free_page` a page. -/
  named : Bool := true
  /-- The threads `thread_get_by_tid` goes by, and whether each is still there. -/
  allList : List Bool := []
  /-- The reads of an executable by `load`, each with its uses of the buffer cache. -/
  reads : List (List Bool) := []
  /-- Whether `pagedir_create` succeeds, whether `setup_stack` stays on its page, and whether `load`
  succeeds. -/
  pagedir : Bool := true
  stack : Bool := true
  loaded : Bool := false

/-- `buffer_cache_read` and `buffer_cache_write`; `copy` is what `memcpy` does to the caller's
buffer. -/
def bufferCacheIo (copy : List Action) : Program := locked .bufferCacheLock (acts copy)

/-- Some uses of the buffer cache with buffers of the kernel, which `memcpy` asserts. -/
def bufferCacheIos (ios : List Bool) : Program := ios.flatMap fun ok => bufferCacheIo [.assert ok]

/-- `inode_open`. -/
def inodeOpen (sector handle : Nat) (found memory : Bool) : Program :=
  [.work (.begin sector), .work .turn] ++
  if found then [.work (.reopenFound handle)]
  else .work (.push memory) ::
    if memory then .work (.init handle) :: bufferCacheIo [] else []

/-- `inode_close`. -/
def inodeClose (handle : Nat) (last : Bool) (ios : List Bool) : Program :=
  .work (.drop handle last) ::
  if last then .work .remove :: bufferCacheIos ios ++ [.work .free] else []

def Use.program : Use → Program
  | .io ok => bufferCacheIo [.assert ok]
  | .deref ok => acts [.deref ok]
  | .assert ok => acts [.assert ok]
  | .inodeOpen sector handle found memory => Userprog.inodeOpen sector handle found memory
  | .inodeReopen handle handle' => [.work (.reopen handle handle')]
  | .inodeClose handle last ios => Userprog.inodeClose handle last ios

def uses (us : List Use) : Program := us.flatMap Use.program

/-- `strlen` of a string of the user, from a byte on. -/
def strlenFrom (m : Memory) : (fuel : Nat) → Nat → Nat
  | 0, _ => 0
  | fuel + 1, addr => if m.byte addr = 0 then 0 else strlenFrom m fuel (addr + 1) + 1

def strlen (m : Memory) (str : Nat) : Nat := strlenFrom m (2 ^ 32) str

/-- Reads a string of the user up to its end, as `strlen` and `memcpy` do. -/
def readString (m : Memory) (str : Nat) : List Action := loads str (strlen m str + 1)

/-- `name_resolution` for the buffers of the allocations 0 and 1, with the allocation 2 for its
copy. -/
def nameResolution (m : Memory) (s : Seen) (path : Nat) : List Action :=
  readString m path ++ .assert (s.malloc 2) :: readString m path ++
  (if s.malloc 0 ∧ 0 < strlen m path then [.load path] else []) ++
  -- the loop skips a `directory` that is null, what comes after it does not
  [.deref (s.malloc 0), .assert (s.malloc 1)]

/-- `dir_open_path` of a string of the kernel, with the allocation 3 for its copy, and what is done
in the directory. -/
def inDirectory (s : Seen) : Program := acts [.assert (s.malloc 3)] ++ uses s.uses

/-- `filesys_create`. -/
def filesysCreate (m : Memory) (s : Seen) (path : Nat) (initialSize : Nat) : Program :=
  acts (readString m path ++ readString m path ++ nameResolution m s path) ++
  -- `inode_create` is called if the directory exists and a sector is free
  acts (if s.found then [.assert (0 ≤ offT initialSize)] else []) ++
  inDirectory s

/-- `filesys_open`. -/
def filesysOpen (m : Memory) (s : Seen) (name : Nat) : Program :=
  acts (readString m name) ++
  if strlen m name = 0 then [] else acts (nameResolution m s name) ++ inDirectory s

/-- `filesys_remove`. -/
def filesysRemove (m : Memory) (s : Seen) (name : Nat) : Program :=
  acts (readString m name ++ nameResolution m s name) ++ inDirectory s

/-- `filesys_cd`, whose string is copied by `dir_open_path`. -/
def filesysCd (m : Memory) (s : Seen) (name : Nat) : Program :=
  acts (readString m name ++ .assert (s.malloc 3) :: readString m name ++ [.load name]) ++
  uses s.uses

/-- `DIRECT_BLOCKS_COUNT`. -/
def directBlocksCount : Int := 123

/-- `INDIRECT_BLOCKS_PER_SECTOR`. -/
def indirectBlocksPerSector : Int := 128

/-- The number of sectors an inode can have. -/
def maxSectors : Int :=
  directBlocksCount + indirectBlocksPerSector + indirectBlocksPerSector * indirectBlocksPerSector

/-- `index_to_sector`, with the allocation `n`. -/
def indexToSector (s : Seen) (n : Nat) (index : Int) : Program :=
  if index < directBlocksCount then []
  else if index < directBlocksCount + indirectBlocksPerSector then
    bufferCacheIo [.assert (s.malloc n)]
  else if index < maxSectors then
    bufferCacheIo [.assert (s.malloc n)] ++ bufferCacheIo [.assert (s.malloc n)]
  else []

/-- `byte_to_sector`. -/
def byteToSector (s : Seen) (n : Nat) (length pos : Int) : Program :=
  if pos < 0 ∨ length ≤ pos then [] else indexToSector s n (pos / 512)

/-- `MIN (size, MIN (inode_left, sector_left))`. -/
def chunkSize (length size offset : Int) : Int :=
  min size (min (length - offset) (512 - offset % 512))

/-- The loop of `inode_read_at`. -/
def readLoop (s : Seen) : (fuel : Nat) → (size offset : Int) → (buffer : Nat) → Program
  | 0, _, _, _ => []
  | fuel + 1, size, offset, buffer =>
    if size ≤ 0 then [] else
    let chunk := chunkSize s.length size offset
    byteToSector s fuel s.length offset ++
    if chunk ≤ 0 then [] else
    if offset % 512 = 0 ∧ chunk = 512 then
      -- straight into the buffer of the user
      bufferCacheIo (stores buffer 512) ++
        readLoop s fuel (size - chunk) (offset + chunk) (buffer + chunk.toNat)
    else if s.bounce then
      bufferCacheIo [] ++ acts (stores buffer chunk.toNat) ++
        readLoop s fuel (size - chunk) (offset + chunk) (buffer + chunk.toNat)
    else []

/-- `file_read`. -/
def fileRead (s : Seen) (buffer : Nat) (size : Int) : Program :=
  readLoop s size.toNat size s.pos buffer

/-- The loop of `inode_write_at`. -/
def writeLoop (s : Seen) (length : Int) :
    (fuel : Nat) → (size offset : Int) → (buffer : Nat) → Program
  | 0, _, _, _ => []
  | fuel + 1, size, offset, buffer =>
    if size ≤ 0 then [] else
    let chunk := chunkSize length size offset
    byteToSector s fuel length offset ++
    if chunk ≤ 0 then [] else
    if offset % 512 = 0 ∧ chunk = 512 then
      bufferCacheIo (loads buffer 512) ++
        writeLoop s length fuel (size - chunk) (offset + chunk) (buffer + chunk.toNat)
    else if s.bounce then
      -- the rest of the sector is read first
      (if 0 < offset % 512 ∨ chunk < 512 - offset % 512 then bufferCacheIo [] else []) ++
        acts (loads buffer chunk.toNat) ++ bufferCacheIo [] ++
        writeLoop s length fuel (size - chunk) (offset + chunk) (buffer + chunk.toNat)
    else []

/-- `file_write`. -/
def fileWrite (s : Seen) (buffer : Nat) (size : Int) : Program :=
  if s.denied then [] else
  let last := offT (s.pos + size - 1)
  byteToSector s size.toNat s.length last ++
  if last < 0 ∨ s.length ≤ last ∨ maxSectors ≤ last / 512 then
    bufferCacheIos s.ios ++
    if s.reserved then
      bufferCacheIo [] ++ writeLoop s (offT (s.pos + size)) size.toNat size s.pos buffer
    else []
  else writeLoop s s.length size.toNat size s.pos buffer

/-- `dir_readdir`. `strlcpy` asserts its buffer and copies the name with its `'\0'`. -/
def dirReaddir (s : Seen) (name : Nat) : Program :=
  bufferCacheIos s.ios ++
  if s.found then acts (.assert (name != 0) :: stores name (s.nameLength + 1)) else []

/-! ## Processes -/

/-- What the run of a process depends on. -/
structure Process where
  memory : Memory
  /-- Whether `running_file` is set, and `process_exit` comes to it. -/
  runningFile : Bool
  /-- Its handle, whether this is the last, and what is done if the file is removed. -/
  handle : Nat := 0
  last : Bool := false
  ios : List Bool := []
  /-- Whether `inode_allow_write` finds that writes are denied. -/
  denied : Bool := true

/-- `process_execute`. `strlcpy` reads a string to its end, and `thread_get_by_tid` goes through
`all_list`, whose threads may exit meanwhile. -/
def processExecute (m : Memory) (s : Seen) (cmdLine : Nat) : List Action :=
  if ¬ s.malloc 0 then []
  else readString m cmdLine ++
    if ¬ s.malloc 1 then []
    else readString m cmdLine ++ .assert s.named :: s.allList.map .deref

/-- `load`, as far as the file system is concerned: it opens the executable, reads it, and denies
writes to it or closes it. -/
def load (s : Seen) : Program :=
  (if s.pagedir then
    acts [.assert (s.malloc 4)] ++
    inFilesys .bare
      (acts [.assert (s.malloc 2), .deref (s.malloc 0), .assert (s.malloc 1)] ++ inDirectory s) ++
    (s.reads.flatMap fun ios => inFilesys .bare (bufferCacheIos ios)) ++
    acts [.deref s.stack]
  else []) ++
  inFilesys .bare (
    if s.loaded then acts [.assert s.denied]
    else if s.found then inodeClose s.handle s.last s.ios
    else [])

/-- What `process_exit` does to the file system: `file_allow_write` and `file_close` of
`running_file`. -/
def processExit (p : Process) : Program :=
  if p.runningFile then
    inFilesys .bare (acts [.assert p.denied]) ++
      inFilesys .bare (inodeClose p.handle p.last p.ios)
  else []

/-! ## The calls -/

/-- A system call and its arguments. -/
inductive Call where
  | exec (cmdLine : Nat)
  | create (file : Nat) (initialSize : Nat)
  | remove (file : Nat)
  | open (file : Nat)
  | filesize (fd : Int)
  | read (fd : Int) (buffer : Nat) (length : Nat)
  | write (fd : Int) (buffer : Nat) (length : Nat)
  | seek (fd : Int) (position : Nat)
  | tell (fd : Int)
  | close (fd : Int)
  | chdir (dir : Nat)
  | mkdir (dir : Nat)
  | readdir (fd : Int) (name : Nat)
  | isdir (fd : Int)
  | inumber (fd : Int)
  /-- Not a call: a new thread runs `start_process`, which calls `load`. -/
  | startProcess

/-- What a system call does, or `none` if it calls `exit (-1)` at once. -/
def Call.program (m : Memory) (s : Seen) : Call → Option Program
  | .exec cmdLine =>
    if validateString m cmdLine then some (locked .fileLock (acts (processExecute m s cmdLine)))
    else none
  | .create file initialSize =>
    if validateAddr m file then
      some (locked .fileLock (inFilesys .guarded (filesysCreate m s file initialSize)))
    else none
  | .remove file =>
    if validateAddr m file then
      some (locked .fileLock (inFilesys .guarded (filesysRemove m s file)))
    else none
  | .open file =>
    if validateAddr m file then
      some (locked .fileLock (inFilesys .guarded (filesysOpen m s file)) ++
        if s.found ∧ strlen m file ≠ 0 then
          -- `file_desc->file = f`, `file_get_inode`, `dir_open (inode_reopen (inode))`
          acts [.deref (s.malloc 4)] ++ inFilesys .bare [] ++
          if s.isDir then
            inFilesys .bare [.work (.reopen s.handle s.dirHandle)] ++
            -- with no memory for the directory, `dir_open` closes the inode
            inFilesys .bare (if s.malloc 5 then [] else inodeClose s.dirHandle s.last s.ios)
          else []
        else [])
    else none
  | .filesize _ =>
    some (if s.fileDesc then locked .fileLock (inFilesys .guarded []) else [])
  | .read fd buffer length =>
    if fd = 1 then some []
    else if validateAddr m buffer then
      some (
        if fd = 0 then acts (stores buffer length)
        else if s.fileDesc then
          locked .fileLock (inFilesys .guarded (fileRead s buffer (offT length)))
        else [])
    else none
  | .write fd buffer length =>
    if fd = 0 then some []
    else if validateAddr m buffer then
      some (
        if fd = 1 then acts (loads buffer length)
        else if s.fileDesc then
          locked .fileLock (inFilesys .guarded (fileWrite s buffer (offT length)))
        else [])
    else none
  | .seek _ position =>
    some (locked .fileLock
      (if s.fileDesc then inFilesys .guarded (acts [.assert (0 ≤ offT position)]) else []))
  | .tell _ => some (locked .fileLock (if s.fileDesc then inFilesys .guarded [] else []))
  | .close _ =>
    -- `getfile` finds descriptors of files only, which have no `dir`
    some (locked .fileLock
      (if s.fileDesc then inFilesys .guarded (inodeClose s.handle s.last s.ios) else []))
  | .chdir dir =>
    if validateAddr m dir then some (locked .fileLock (inFilesys .guarded (filesysCd m s dir)))
    else none
  | .mkdir dir =>
    if validateAddr m dir then
      some (locked .fileLock (inFilesys .guarded (filesysCreate m s dir 0)))
    else none
  | .readdir _ name =>
    some (
      if s.fileDesc then
        -- `file_get_inode`
        inFilesys .bare [] ++
        if s.isDir then locked .fileLock (inFilesys .guarded (dirReaddir s name)) else []
      else [])
  | .isdir _ => some (locked .fileLock (acts [.deref s.fileDesc] ++ inFilesys .guarded []))
  | .inumber _ => some (locked .fileLock (acts [.deref s.fileDesc] ++ inFilesys .guarded []))
  | .startProcess => some (load s)

/-! ## Runs -/

/-- The state of all threads. -/
abbrev Kernel : Type := Conf Nat LockName Way Action InodeWork Process Inodes InodeVars

/-- The programs a process can start, with a condition on the call. -/
def Starts (P : Process → Seen → Call → Prop) (p : Process) (prog : Program) : Prop :=
  ∃ s c, P p s c ∧ c.program p.memory s = some prog

/-- The states of the runs in which every call meets the condition `P`, every thread that ends by
itself the condition `Q`, and every way into the file system the condition `Go`. -/
def Runs (P : Process → Seen → Call → Prop) (Q : Process → Prop) (Go : Kernel → Nat → Way → Prop) :
    Kernel → Prop :=
  Reachable (fun p => p.memory.effect) processExit (Starts P) Q inodeRegion Go

end Pintos.Userprog
