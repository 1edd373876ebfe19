import Pintos.Vm.Page

/-!
# Mappings, exits and programs

`mmap` and `munmap` of `syscall.c`, `vm/mmap.c`, and what `process_exit` and `load` do to the memory
of a process.
-/

namespace Pintos.Vm.State

open Pintos.Logic

/-! ## `mmap` -/

/-- The check of `mmap` for pages that are there already, for `n` pages from `upage` on. It panics
at a page of the kernel. -/
def overlaps (s : State) (cur : Pid) : Nat → Upage → Option Bool
  | 0, _ => some false
  | n + 1, upage =>
    if (s.lookup cur upage).isSome then some true
    else if physBase ≤ upage * pgsize then none
    else if (s.pagedirGetPage cur upage).isSome then some true
    else s.overlaps cur n (upage + 1)

/-- `mmap`, for a descriptor that has `file` open. `-1` is `none`. -/
def mmap (s : State) (cur : Pid) (file : FileId) (addr : Nat) :
    Option (Option Nat × State) :=
  if addr = 0 ∨ addr % pgsize ≠ 0 then some (none, s)
  else
    let readBytes := (s.file file).length
    if readBytes = 0 then some (none, s)
    else
      let upage := addr / pgsize
      let pageNum := (readBytes + (pgsize - 1)) / pgsize
      match s.overlaps cur pageNum upage with
      | none => none
      | some true => some (none, s)
      | some false =>
        let id := ((s.thread cur).map (·.mmapNum)).getD 0
        let s := s.setThread cur fun t => { t with mmapNum := t.mmapNum + 1 }
        match pageLazyLoad cur file true .mmap pageNum 0 upage readBytes s with
        | (false, s) => some (none, s)
        | (true, s) => some (some id, s.setThread cur fun t =>
            { t with mmapList := t.mmapList ++ [⟨id, upage, file, pageNum⟩] })

/-! ## `munmap` -/

/-- What `free_mmap_entry` writes back of a page. -/
def writeBack (s : State) (cur : Pid) (upage : Upage) (e : SupplPageTableEntry) : Option State :=
  if s.pagedirIsDirty cur upage then s.fileWriteAt cur e.file upage e.readBytes e.offset
  else some s

/-- How `free_mmap_entry` frees the frame of a page. -/
def freeMmapFrame (s : State) (cur : Pid) (e : SupplPageTableEntry) : Option State :=
  if e.free = false then
    (s.vmFreeFrame (s.pagedirGetPage cur e.addr)).map fun s => s.pagedirClearPage cur e.addr
  else some s

/-- One round of the loop of `free_mmap_entry`. -/
def freeMmapPage (s : State) (cur : Pid) (upage : Upage) : Option State :=
  match s.lookup cur upage with
  | none => some s
  | some q => do
    let e := s.spte q
    let s ← s.writeBack cur upage e
    let s ← s.freeMmapFrame cur e
    return s.hashDelete cur e.addr

/-- The loop of `free_mmap_entry`, for `n` pages from `upage` on. -/
def freeMmapEntry (cur : Pid) : Nat → Upage → State → Option State
  | 0, _, s => some s
  | n + 1, upage, s => (s.freeMmapPage cur upage).bind (freeMmapEntry cur n (upage + 1))

/-- `munmap`. -/
def munmap (s : State) (cur : Pid) (mapping : Nat) : Option State :=
  match (s.thread cur).bind fun t => t.mmapList.find? (·.mmapId = mapping) with
  | none => some s
  | some e => (freeMmapEntry cur e.pageNum e.uvaddr s).map fun s =>
      s.setThread cur fun t => { t with mmapList := t.mmapList.eraseP (·.mmapId = mapping) }

/-- `free_mmap_list`, for a list of the given entries. -/
def freeMmapList (cur : Pid) : List MmapEntry → State → Option State
  | [], s => some s
  | e :: l, s => (s.munmap cur e.mmapId).bind (freeMmapList cur l)

/-! ## `process_exit` -/

/-- `file_allow_write` on the executable. -/
def allowWrite (s : State) (cur : Pid) : State :=
  match (s.thread cur).bind (·.runningFile) with
  | none => s
  | some i => s.setFile i fun d => { d with denyWriteCnt := d.denyWriteCnt - 1 }

/-- `pagedir_destroy`, for the entries of a page directory. -/
def pagedirDestroy : List (Sigma fun _ : Upage => Pte) → State → Option State
  | [], s => some s
  | v :: l, s =>
    if v.2.present then (s.pallocFreePage v.2.frame).bind (pagedirDestroy l)
    else pagedirDestroy l s

/-- The part of `process_exit` that follows the wake-up of the parent. -/
def processExit (s : State) (cur : Pid) : Option State := do
  let t ← s.thread cur
  let s := s.allowWrite cur
  let s ← freeMmapList cur t.mmapList s
  -- `free_suppl_page_table`
  let s := s.setThread cur fun t => { t with supplPageTable := ∅ }
  let s := s.vmClearProcessFrameTable cur
  let t ← s.thread cur
  let s ← pagedirDestroy t.pagedir.entries s
  return { s with thread := Function.update s.thread cur none }

/-! ## Page faults -/

/-- `STACK_LIMIT`. -/
def stackLimit : Nat := 8388608

/-- What is left of a page fault handler that has failed is `exit (-1)`. -/
def orExit (cur : Pid) : Bool × State → State
  | (true, s) => s
  | (false, s) => s.setThread cur fun t => { t with exiting := true }

/-- How both handlers of page faults bring in a page, for an address where the stack may grow or
not. -/
def bringIn (s : State) (cur : Pid) (upage : Upage) (grow : Bool) : Option State :=
  match s.lookup cur upage with
  | some q =>
    (if (s.spte q).type = .swap then s.pageLoadSwap cur q else s.pageLoadFile cur q).map (orExit cur)
  | none =>
    if grow then (s.stackGrow cur upage).map (orExit cur) else some (orExit cur (false, s))

/-- The test `fault_addr >= esp - 32`, on 32-bit words. -/
def nearStack (faultAddr esp : Nat) : Bool := (esp + (2 ^ 32 - 32)) % 2 ^ 32 ≤ faultAddr

/-- `page_fault`, for an access by the user, with `esp` from the interrupt frame. -/
def pageFault (s : State) (cur : Pid) (faultAddr esp : Nat) : Option State :=
  let upage := faultAddr / pgsize
  if faultAddr = 0 ∨ physBase ≤ faultAddr ∨ (s.pte cur upage).present then
    some (orExit cur (false, s))
  else
    s.bringIn cur upage (physBase - stackLimit ≤ faultAddr ∧ nearStack faultAddr esp)

/-- `read_buf_page_fault_handler`, with `esp` from `global_f`. -/
def readBufPageFaultHandler (s : State) (cur : Pid) (faultAddr esp : Nat) : Option State :=
  let upage := faultAddr / pgsize
  if faultAddr = 0 ∨ physBase ≤ faultAddr then some (orExit cur (false, s))
  else
    match s.pagedirGetPage cur upage with
    | some _ => some s
    | none => s.bringIn cur upage (nearStack faultAddr esp)

/-! ## `load` -/

/-- A program header of type `PT_LOAD`. -/
structure Phdr where
  offset : Nat
  vaddr : Nat
  filesz : Nat
  memsz : Nat
  writable : Bool

/-- `validate_segment`, in 32-bit words. -/
def validateSegment (h : Phdr) (length : Nat) : Bool :=
  h.offset % pgsize = h.vaddr % pgsize ∧ h.offset ≤ length ∧ h.filesz ≤ h.memsz ∧ h.memsz ≠ 0 ∧
    h.vaddr < physBase ∧ (h.vaddr + h.memsz) % 2 ^ 32 < physBase ∧
    h.vaddr ≤ (h.vaddr + h.memsz) % 2 ^ 32 ∧ pgsize ≤ h.vaddr

/-- The pages of a segment, and how many of their bytes are read from the file. -/
def Phdr.extent (h : Phdr) : Nat × Nat :=
  let ofs := h.vaddr % pgsize
  ((ofs + h.memsz + (pgsize - 1)) / pgsize, if 0 < h.filesz then ofs + h.filesz else 0)

/-- The loop of `load` over the program headers. -/
def loadSegments (cur : Pid) (file : FileId) : List Phdr → State → Bool × State
  | [], s => (true, s)
  | h :: l, s =>
    if validateSegment h (s.file file).length then
      match pageLazyLoad cur file h.writable .file h.extent.1 (h.offset / pgsize * pgsize)
        (h.vaddr / pgsize) h.extent.2 s with
      | (false, s) => (false, s)
      | (true, s) => loadSegments cur file l s
    else (false, s)

/-- `load`, from the program headers on, up to where `setup_stack` has its page. Without the page
`setup_stack` goes on with `esp` zero and pushes the arguments to the pages of the kernel. -/
def load (s : State) (cur : Pid) (file : FileId) (phdrs : List Phdr) : Option (Bool × State) :=
  match loadSegments cur file phdrs s with
  | (false, s) => some (false, s)
  | (true, s) => do
    let (success, s) ← s.stackGrow cur ((physBase - pgsize) / pgsize)
    guard success
    let s := s.setThread cur fun t => { t with runningFile := some file }
    return (true, s.setFile file fun d => { d with denyWriteCnt := d.denyWriteCnt + 1 })

/-- `start_process` in a new process. -/
def startProcess (s : State) (cur : Pid) (file : FileId) (phdrs : List Phdr) :
    Option State := do
  guard (s.thread cur).isNone
  let s := { s with thread := Function.update s.thread cur (some {}) }
  (s.load cur file phdrs).map (orExit cur)

end Pintos.Vm.State
