import Pintos.Logic.Bytes
import Mathlib.Data.List.AList
import Mathlib.Logic.Function.Basic

/-!
# The state of the virtual memory

The supplemental page tables, the page directories, the frame table, the user pool, the swap
block and the files, with what `pagedir.c`, `palloc.c`, `swap.c` and `file.c` do to them. A
function gives `none` where the kernel panics or does not return.

Faults, system calls and exits run to their end here, so no lock is ever found taken by another
thread and the locks are left out. What a thread does when it finds a lock taken by itself is said
where it happens. `malloc` and the kernel pool do not run out.
-/

namespace Pintos.Vm

open Pintos.Logic

abbrev Pid : Type := Nat

/-- An inode. Two `struct file`s of one inode are not told apart. -/
abbrev FileId : Type := Nat

/-- A pointer to a `struct suppl_page_table_entry`. -/
abbrev SptePtr : Type := Nat

/-- A page of the user pool, by its number. -/
abbrev Frame : Type := Nat

/-- A page of user memory, by its number. -/
abbrev Upage : Type := Nat

/-- `PGSIZE`. -/
abbrev pgsize : Nat := 4096

/-- `PHYS_BASE`. -/
abbrev physBase : Nat := 0xc0000000

/-- What a page holds. -/
abbrev Page : Type := Bytes pgsize

/-- `type_mmap`, `type_file` and `type_swap`. -/
inductive PageType
  | mmap
  | file
  | swap
  deriving DecidableEq, Repr

/-- `struct suppl_page_table_entry`. -/
structure SupplPageTableEntry where
  file : FileId
  type : PageType
  addr : Upage
  offset : Nat
  readBytes : Nat
  zeroBytes : Nat
  writable : Bool
  free : Bool
  swapIdx : Nat
  timestamp : Nat

/-- A page table entry. One that was never written is all zeros. -/
structure Pte where
  frame : Frame := 0
  present : Bool := false
  accessed : Bool := false
  dirty : Bool := false
  writable : Bool := false

/-- `struct frame_tab_entry`. -/
structure FrameTabEntry where
  frame : Frame
  spte : SptePtr
  owner : Pid
  deriving DecidableEq

/-- `struct mmap_entry`. -/
structure MmapEntry where
  mmapId : Nat
  uvaddr : Upage
  file : FileId
  pageNum : Nat
  deriving DecidableEq

/-- The part of `struct thread` that the virtual memory uses. A thread that is `exiting` is about to
call `exit (-1)`. -/
structure Thread where
  supplPageTable : AList fun _ : Upage => SptePtr := ∅
  pagedir : AList fun _ : Upage => Pte := ∅
  mmapList : List MmapEntry := []
  mmapNum : Nat := 0
  runningFile : Option FileId := none
  exiting : Bool := false

/-- An inode with its data. -/
structure FileData where
  content : Nat → UInt8
  length : Nat
  denyWriteCnt : Nat

/-- How many of `size` bytes at `ofs` are before the end of the file. -/
def FileData.left (d : FileData) (size ofs : Nat) : Nat := min size (d.length - ofs)

structure State where
  spte : SptePtr → SupplPageTableEntry
  /-- The next block that `malloc` gives for a `struct suppl_page_table_entry`. -/
  nextSpte : SptePtr
  thread : Pid → Option Thread
  frameTable : List FrameTabEntry
  /-- The number of pages in the user pool. -/
  poolSize : Nat
  usedMap : Frame → Bool
  memory : Frame → Page
  /-- The number of pages that fit on the swap block. -/
  swapSize : Nat
  swapBitmap : Nat → Bool
  swap : Nat → Page
  file : FileId → FileData
  /-- `timer_ticks`. -/
  ticks : Nat

namespace State

/-! ## Threads and their supplemental page tables -/

def setThread (s : State) (p : Pid) (f : Thread → Thread) : State :=
  { s with thread := Function.update s.thread p ((s.thread p).map f) }

def setSpte (s : State) (q : SptePtr) (f : SupplPageTableEntry → SupplPageTableEntry) : State :=
  { s with spte := Function.update s.spte q (f (s.spte q)) }

def setMemory (s : State) (k : Frame) (b : Page) : State :=
  { s with memory := Function.update s.memory k b }

def setFile (s : State) (i : FileId) (f : FileData → FileData) : State :=
  { s with file := Function.update s.file i (f (s.file i)) }

/-- `page_hash_find`. -/
def lookup (s : State) (p : Pid) (u : Upage) : Option SptePtr :=
  (s.thread p).bind fun t => t.supplPageTable.lookup u

def hashInsert (s : State) (p : Pid) (u : Upage) (q : SptePtr) : State :=
  s.setThread p fun t => { t with supplPageTable := t.supplPageTable.insert u q }

def hashDelete (s : State) (p : Pid) (u : Upage) : State :=
  s.setThread p fun t => { t with supplPageTable := t.supplPageTable.erase u }

/-! ## `pagedir.c` -/

/-- `lookup_page`, and what is found there. -/
def pte (s : State) (p : Pid) (u : Upage) : Pte :=
  ((s.thread p).bind fun t => t.pagedir.lookup u).getD {}

def setPte (s : State) (p : Pid) (u : Upage) (v : Pte) : State :=
  s.setThread p fun t => { t with pagedir := t.pagedir.insert u v }

/-- `pagedir_set_page`. -/
def pagedirSetPage (s : State) (p : Pid) (u : Upage) (k : Frame) (writable : Bool) : State :=
  s.setPte p u { frame := k, present := true, writable }

/-- `pagedir_get_page`. -/
def pagedirGetPage (s : State) (p : Pid) (u : Upage) : Option Frame :=
  if (s.pte p u).present then some (s.pte p u).frame else none

/-- `pagedir_clear_page`. The other bits of the entry stay. -/
def pagedirClearPage (s : State) (p : Pid) (u : Upage) : State :=
  if (s.pte p u).present then s.setPte p u { s.pte p u with present := false } else s

/-- `pagedir_is_dirty`. -/
def pagedirIsDirty (s : State) (p : Pid) (u : Upage) : Bool := (s.pte p u).dirty

/-- `pagedir_is_accessed`. -/
def pagedirIsAccessed (s : State) (p : Pid) (u : Upage) : Bool := (s.pte p u).accessed

/-- `install_page`. -/
def installPage (s : State) (p : Pid) (u : Upage) (k : Frame) (writable : Bool) : Bool × State :=
  match s.pagedirGetPage p u with
  | some _ => (false, s)
  | none => (true, s.pagedirSetPage p u k writable)

/-! ## `palloc.c`, for the user pool -/

/-- `palloc_get_page (PAL_USER)`. The page keeps what was in it. -/
def pallocGetPage (s : State) : Option (Frame × State) :=
  ((List.range s.poolSize).find? fun k => !s.usedMap k).map fun k =>
    (k, { s with usedMap := Function.update s.usedMap k true })

/-- `palloc_free_page`. It fills the page with `0xcc`. -/
def pallocFreePage (s : State) (k : Frame) : Option State :=
  if s.usedMap k then
    some { s.setMemory k (Bytes.tabulate fun _ => 0xcc) with
      usedMap := Function.update s.usedMap k false }
  else none

/-! ## `swap.c` -/

/-- `swap_out`. With no free slot it writes beyond the end of the block. -/
def swapOut (s : State) (k : Frame) : Option (Nat × State) :=
  ((List.range s.swapSize).find? fun i => !s.swapBitmap i).map fun i =>
    (i, { s with
      swapBitmap := Function.update s.swapBitmap i true
      swap := Function.update s.swap i (s.memory k) })

/-- `swap_in`. -/
def swapIn (s : State) (k : Frame) (i : Nat) : State :=
  { s.setMemory k (s.swap i) with swapBitmap := Function.update s.swapBitmap i (!s.swapBitmap i) }

/-! ## `file.c` -/

/-- `file_read_at` into a page of the user pool. Returns the number of bytes read. -/
def fileReadAt (s : State) (i : FileId) (k : Frame) (size ofs : Nat) : Nat × State :=
  let n := (s.file i).left size ofs
  (n, s.setMemory k ((s.memory k).splice 0 n fun j => (s.file i).content (ofs + j)))

/-- `file_write_at` from the user page `u` of the running thread `cur`. If the page is not present
the kernel faults. Whoever writes a page out holds a lock that `page_fault` takes as well:
`frame_lock` in `do_evict_frame`, the `spte_lock` of the page in `free_mmap_entry`. -/
def fileWriteAt (s : State) (cur : Pid) (i : FileId) (u : Upage) (size ofs : Nat) :
    Option State :=
  let n := (s.file i).left size ofs
  if (s.file i).denyWriteCnt ≠ 0 ∨ n = 0 then some s
  else if (s.pte cur u).present then
    let page := s.memory (s.pte cur u).frame
    some ((s.setPte cur u { s.pte cur u with accessed := true }).setFile i fun d =>
      { d with content := fun j =>
          if ofs ≤ j ∧ j < ofs + n then page.byte (j - ofs) else d.content j })
  else none

end State

end Pintos.Vm
