import Pintos.Vm.Mmap

/-!
# `mmap` with its allocations

The system call `mmap` from the descriptor on. The file is opened once more and memory is allocated
for the mapping and for the entry of each page. Which of these allocations succeed is chosen in
advance (`Outcomes`).
-/

namespace Pintos.Vm

/-- What the allocations of `mmap` find. -/
structure Outcomes where
  /-- Whether `file_open` gets a `struct file`. -/
  file : Bool
  /-- Whether there is a `struct mmap_entry`. -/
  mmapEntry : Bool
  /-- Whether there is a `struct suppl_page_table_entry` for the page `i`. -/
  spte : Nat → Bool

/-- `struct file_descriptor`. -/
structure FileDescriptor where
  fd : Int
  file : Option FileId

/-- The state of the system call. -/
structure Files where
  vm : State
  /-- `open_cnt` of the inodes. -/
  openCnt : FileId → Nat
  /-- `fd_list` of the running thread. -/
  fdList : List FileDescriptor

namespace Files

/-- `getfile`. -/
def getfile (s : Files) (fd : Int) : Option FileDescriptor := s.fdList.find? (·.fd = fd)

/-- `inode_reopen`. -/
def inodeReopen (s : Files) (i : FileId) : Files :=
  { s with openCnt := Function.update s.openCnt i (s.openCnt i + 1) }

/-- `inode_close`, for an inode that is open elsewhere too. -/
def inodeClose (s : Files) (i : FileId) : Files :=
  { s with openCnt := Function.update s.openCnt i (s.openCnt i - 1) }

/-- `file_reopen`, with `file_open`. -/
def fileReopen (o : Outcomes) (s : Files) (i : FileId) : Bool × Files :=
  let s := s.inodeReopen i
  if o.file then (true, s) else (false, s.inodeClose i)

end Files

namespace State

/-- `page_lazy_load`, where `malloc` may fail. `i` is the number of the page. -/
def pageLazyLoadAt (o : Outcomes) (cur : Pid) (file : FileId) (writable : Bool) (type : PageType) :
    (i : Nat) → Nat → Nat → Upage → Nat → State → Bool × State
  | _, 0, _, _, _, s => (true, s)
  | i, n + 1, ofs, upage, readBytes, s =>
    if !o.spte i then (false, s)
    else
      match pageLazyLoad cur file writable type 1 ofs upage (min readBytes pgsize) s with
      | (false, s) => (false, s)
      | (true, s) =>
        pageLazyLoadAt o cur file writable type (i + 1) n (ofs + min readBytes pgsize) (upage + 1)
          (readBytes - min readBytes pgsize) s

end State

namespace Files

/-- `mmap`. `-1` is `none`. -/
def mmap (o : Outcomes) (cur : Pid) (fd : Int) (addr : Nat) (s : Files) :
    Option (Option Nat × Files) :=
  if fd = 0 ∨ fd = 1 then some (none, s)
  else if addr = 0 ∨ addr % pgsize ≠ 0 then some (none, s)
  else
    match (s.getfile fd).bind (·.file) with
    | none => some (none, s)
    | some file =>
      let readBytes := (s.vm.file file).length
      if readBytes = 0 then some (none, s)
      else
        match s.fileReopen o file with
        | (false, s) => some (none, s)
        | (true, s) =>
          let upage := addr / pgsize
          let pageNum := (readBytes + (pgsize - 1)) / pgsize
          match s.vm.overlaps cur pageNum upage with
          | none => none
          | some true => some (none, s)
          | some false =>
            if !o.mmapEntry then some (none, s)
            else
              let id := ((s.vm.thread cur).map (·.mmapNum)).getD 0
              let vm := s.vm.setThread cur fun t => { t with mmapNum := t.mmapNum + 1 }
              match vm.pageLazyLoadAt o cur file true .mmap 0 pageNum 0 upage readBytes with
              | (false, vm) => some (none, { s with vm })
              | (true, vm) => some (some id, { s with
                  vm := vm.setThread cur fun t =>
                    { t with mmapList := t.mmapList ++ [⟨id, upage, file, pageNum⟩] } })

end Files

end Pintos.Vm
