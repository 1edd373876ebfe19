import Pintos.Logic.Critical

/-!
# The open inodes, access by access

`inode_open`, `inode_reopen` and `inode_close` of `filesys/inode.c`, cut into the accesses to
`open_inodes` and to the counts between which another thread may run. A turn of the loop of
`inode_open` is one of them, and so is a function of `lib/kernel/list.c`.

A `struct inode` is numbered when it is allocated. A pointer to one that has to be given back with
`inode_close` is a handle; the number of a handle is that of the variable, the `struct file` or
the `struct dir` it is kept in.
-/

namespace Pintos.Userprog

open Pintos.Logic

/-- The inodes in memory. -/
structure Inodes where
  /-- `open_inodes`, from its front. -/
  openInodes : List Nat
  sector : Nat → Nat
  openCnt : Nat → Int
  /-- Whether the memory of an inode has been freed. -/
  freed : Nat → Bool
  /-- The number of the inode that is allocated next. -/
  next : Nat
  /-- The inode that a handle points to, or has pointed to. -/
  pointer : Nat → Option Nat
  /-- The handles that are open, by their inode. No function reads them. -/
  handles : Nat → List Nat
  /-- Whether a handle has been used that was not open. No function reads it. -/
  misused : Bool

namespace Inodes

/-- What `filesys_init` leaves: `free_map_open` has opened the inode of the free map. -/
def start : Inodes where
  openInodes := [0]
  sector _ := 0
  openCnt inode := if inode = 0 then 1 else 0
  freed _ := false
  next := 1
  pointer handle := if handle = 0 then some 0 else none
  handles inode := if inode = 0 then [0] else []
  misused := false

/-- `list_next`, `none` at the end of the list. -/
def listNext (s : Inodes) (e : Nat) : Option Nat := (s.openInodes.dropWhile (· != e)).tail.head?

/-- A handle to an inode, and the count that goes with it. -/
def addHandle (s : Inodes) (inode : Nat) (openCnt : Int) (handle : Nat) : Inodes :=
  { s with
    openCnt := Function.update s.openCnt inode openCnt
    pointer := Function.update s.pointer handle (some inode)
    handles := Function.update s.handles inode (handle :: s.handles inode) }

/-- A handle is used to get at its inode. -/
def use (s : Inodes) (inode handle : Nat) : Inodes :=
  { s with misused := s.misused || !(s.handles inode).contains handle }

/-- A handle is given back, and the count goes down. -/
def dropHandle (s : Inodes) (inode handle : Nat) : Inodes :=
  { s with
    openCnt := Function.update s.openCnt inode (s.openCnt inode - 1)
    handles := Function.update s.handles inode ((s.handles inode).erase handle) }

end Inodes

/-- The variables of `inode_open` and `inode_close`. -/
inductive InodeVars where
  | none
  /-- `inode_open` is at the element `e` of its loop. -/
  | search (sector : Nat) (e : Option Nat)
  /-- It has found the inode. -/
  | found (inode : Nat)
  /-- It has pushed a new inode, whose fields are not set. -/
  | pushed (sector inode : Nat)
  /-- `inode_close` has brought the count to 0. -/
  | last (inode : Nat)
  /-- It has taken the inode off the list. -/
  | removed (inode : Nat)

/-- An access. -/
inductive InodeWork where
  /-- `list_begin (&open_inodes)` in `inode_open`. -/
  | begin (sector : Nat)
  /-- A turn of its loop. -/
  | turn
  /-- `inode_reopen` of the inode found. -/
  | reopenFound (handle : Nat)
  /-- `malloc`, which may fail, and `list_push_front`. -/
  | push (memory : Bool)
  /-- The new inode is initialized. -/
  | init (handle : Nat)
  /-- `inode_reopen` of an inode that the caller has a handle to. -/
  | reopen (handle handle' : Nat)
  /-- `--inode->open_cnt == 0` in `inode_close`. -/
  | drop (handle : Nat) (last : Bool)
  /-- `list_remove`. -/
  | remove
  /-- `free`. -/
  | free

/-- What an access does. -/
def InodeWork.run : InodeWork → InodeVars → Inodes → Option (InodeVars × Inodes × Bool)
  | .begin sector, _, s => some (.search sector s.openInodes.head?, s, false)
  | .turn, .search sector (some e), s =>
    if s.sector e = sector then some (.found e, s, false)
    else some (.search sector (s.listNext e), s, true)
  | .turn, .search sector .none, s => some (.search sector .none, s, false)
  | .reopenFound handle, .found inode, s =>
    some (.none, s.addHandle inode (s.openCnt inode + 1) handle, false)
  | .push false, .search _ .none, s => some (.none, s, false)
  | .push true, .search sector .none, s =>
    some (.pushed sector s.next,
      { s with openInodes := s.next :: s.openInodes, next := s.next + 1 }, false)
  | .init handle, .pushed sector inode, s =>
    let s := { s with sector := Function.update s.sector inode sector }
    some (.none, s.addHandle inode 1 handle, false)
  | .reopen handle handle', _, s =>
    (s.pointer handle).map fun inode =>
      (.none, (s.use inode handle).addHandle inode (s.openCnt inode + 1) handle', false)
  | .drop handle last, _, s =>
    (s.pointer handle).bind fun inode =>
      if s.openCnt inode - 1 = 0 ↔ last = true then
        some (if last then .last inode else .none, (s.use inode handle).dropHandle inode handle, false)
      else .none
  | .remove, .last inode, s =>
    some (.removed inode, { s with openInodes := s.openInodes.erase inode }, false)
  | .free, .removed inode, s =>
    some (.none, { s with freed := Function.update s.freed inode true }, false)
  | _, _, _ => .none

/-- The inodes as what the threads share in the file system. -/
def inodeRegion : Region InodeWork Inodes InodeVars where
  start := .start
  fresh := .none
  run := InodeWork.run

end Pintos.Userprog
