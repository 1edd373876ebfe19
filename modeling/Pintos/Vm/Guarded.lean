import Pintos.Logic.Exec
import Pintos.Vm.Page

/-!
# Loading pages, with the locks

`vm/frame.c` and `vm/page.c` once more, as far as they load a page or make one, with the locks that
they take and with the allocations that may fail. Which of these succeed is chosen in advance
(`Outcomes`). The thread runs alone, so a lock that it finds taken is its own.
-/

namespace Pintos.Vm

open Pintos.Logic

/-- The locks of the virtual memory. -/
inductive Lock where
  | fileLock
  | frameLock
  | spteLock (q : SptePtr)
  deriving DecidableEq

/-- The state, with the locks that the running thread holds. -/
structure Guarded where
  vm : State
  held : List Lock
  /-- The locks that are not initialised. -/
  garbage : Lock → Bool

namespace Guarded

/-- What allocations find. -/
structure Outcomes where
  /-- Whether there is a `struct frame_tab_entry`. -/
  frameTabEntry : Bool
  /-- Whether the page table for a page is there, or `lookup_page` gets one. -/
  pageTable : Bool
  /-- Whether there is a `struct suppl_page_table_entry`. -/
  spte : Bool

/-- How the thread can stop. -/
inductive Stop where
  | panic
  /-- It uses a lock that is not initialised: it waits for ever, fails an assertion or faults. -/
  | garbage

/-- Code of the kernel. -/
abbrev Code (α : Type) : Type := Exec Guarded Stop α

/-- A function of the state that may panic. -/
def orPanic {α : Type} : Option α → Code α
  | none => Exec.throw .panic
  | some a => return a

def update (f : State → State) : Code Unit := Exec.modify fun m => { m with vm := f m.vm }

/-! ## Locks -/

/-- `lock_acquire`. -/
def lockAcquire (l : Lock) : Code Unit := do
  let m ← Exec.gets id
  if l ∈ m.held then Exec.throw .panic
  else if m.garbage l then Exec.throw .garbage
  else Exec.modify fun m => { m with held := l :: m.held }

/-- `lock_release`. -/
def lockRelease (l : Lock) : Code Unit := do
  if l ∈ (← Exec.gets (·.held)) then Exec.modify fun m => { m with held := m.held.erase l }
  else Exec.throw .panic

/-- `lock_init`. -/
def lockInit (l : Lock) : Code Unit :=
  Exec.modify fun m => { m with garbage := Function.update m.garbage l false }

/-! ## Frames -/

/-- The loop of `find_unaccessed_page`. -/
def findUnaccessedPage (cur : Pid) : List FrameTabEntry → Code (Option FrameTabEntry)
  | [] => return none
  | f :: search => do
    lockAcquire .frameLock
    let s ← Exec.gets (·.vm)
    if !s.pagedirIsAccessed cur (s.spte f.spte).addr then
      lockRelease .frameLock
      return some f
    else
      update fun s => s.setSpte f.spte fun e => { e with timestamp := s.ticks }
      lockRelease .frameLock
      findUnaccessedPage cur search

/-- The loop of `find_longest_time_page`. -/
def findLongestTimePage :
    List FrameTabEntry → Option FrameTabEntry → Nat → Code (Option FrameTabEntry)
  | [], first, _ => return first
  | f :: search, first, time => do
    lockAcquire .frameLock
    let s ← Exec.gets (·.vm)
    lockRelease .frameLock
    if (s.spte f.spte).timestamp < time then
      findLongestTimePage search (some f) (s.spte f.spte).timestamp
    else findLongestTimePage search first time

/-- How `do_evict_frame` saves the page of `evi_pte`. -/
def pageOut (cur : Pid) (f : FrameTabEntry) : Code Unit := do
  let s ← Exec.gets (·.vm)
  let e := s.spte f.spte
  if s.pagedirIsDirty cur e.addr ∧ e.type = .mmap then
    lockAcquire .fileLock
    let s ← orPanic (s.fileWriteAt cur e.file e.addr e.readBytes e.offset)
    update fun _ => s
    lockRelease .fileLock
  else
    let r ← orPanic ((s.setSpte f.spte fun e => { e with type := .swap }).swapOut f.frame)
    update fun _ => r.2.setSpte f.spte fun e => { e with swapIdx := r.1 }

/-- `do_evict_frame`. It writes to the new `struct frame_tab_entry` even if there is none. -/
def doEvictFrame (o : Outcomes) (cur : Pid) (e : SptePtr) (f : FrameTabEntry) : Code Frame := do
  lockAcquire .frameLock
  lockAcquire (.spteLock e)
  let upage := ((← Exec.gets (·.vm)).spte f.spte).addr
  pageOut cur f
  let s ← Exec.gets (·.vm)
  if (s.thread f.owner).isNone then Exec.throw .panic
  else
    update fun s => (s.pagedirClearPage f.owner upage).setMemory f.frame Bytes.zeros
    update fun s => { s with frameTable := s.frameTable.erase f }
    if !o.frameTabEntry then Exec.throw .panic
    else
      update fun s => { s with frameTable := s.frameTable ++ [⟨f.frame, e, cur⟩] }
      lockRelease (.spteLock e)
      lockRelease .frameLock
      return f.frame

/-- `try_evict_frame`. `do_evict_frame` asserts that `e` is not null. -/
def tryEvictFrame (o : Outcomes) (cur : Pid) (e : Option SptePtr) : Code (Option Frame) := do
  let table := (← Exec.gets (·.vm)).frameTable
  match ← findUnaccessedPage cur table with
  | some f => return some (← doEvictFrame o cur (← orPanic e) f)
  | none =>
    match ← findLongestTimePage table none State.int64Max with
    | some f => return some (← doEvictFrame o cur (← orPanic e) f)
    | none => return none

/-- `vm_get_frame (PAL_USER, spte)`. Without a `struct frame_tab_entry` the page is lost. Where
`spte` is null the caller panics as soon as it has a frame. -/
def vmGetFrame (o : Outcomes) (cur : Pid) (spte : Option SptePtr) : Code (Option Frame) := do
  match (← Exec.gets (·.vm)).pallocGetPage with
  | none => tryEvictFrame o cur spte
  | some (frame, s) => do
    update fun _ => s
    if !o.frameTabEntry then return none
    else
      let spte ← orPanic spte
      lockAcquire .frameLock
      update fun s => { s with frameTable := ⟨frame, spte, cur⟩ :: s.frameTable }
      lockRelease .frameLock
      return some frame

/-- `vm_free_frame`, for a frame that is not null. -/
def vmFreeFrame (frame : Frame) : Code Unit := do
  lockAcquire .frameLock
  let s ← orPanic ((← Exec.gets (·.vm)).vmFreeFrame (some frame))
  update fun _ => s
  lockRelease .frameLock

/-- `install_page`. -/
def installPage (o : Outcomes) (cur : Pid) (upage : Upage) (frame : Frame) (writable : Bool) :
    Code Bool := do
  match (← Exec.gets (·.vm)).pagedirGetPage cur upage with
  | some _ => return false
  | none =>
    if !o.pageTable then return false
    else
      update fun s => s.pagedirSetPage cur upage frame writable
      return true

/-! ## Pages -/

/-- `page_load_file`. -/
def pageLoadFile (o : Outcomes) (cur : Pid) (q : SptePtr) : Code Bool := do
  match ← vmGetFrame o cur (some q) with
  | none => Exec.throw .panic
  | some frame => do
    lockAcquire (.spteLock q)
    lockAcquire .fileLock
    let s ← Exec.gets (·.vm)
    let e := s.spte q
    let r := s.fileReadAt e.file frame e.readBytes e.offset
    update fun _ => r.2
    lockRelease .fileLock
    if r.1 ≠ e.readBytes then
      vmFreeFrame frame
      return false
    else
      update fun s => if 0 < e.zeroBytes then
        s.setMemory frame ((s.memory frame).splice e.readBytes e.zeroBytes fun _ => 0) else s
      let installed ← installPage o cur e.addr frame e.writable
      if !installed then
        vmFreeFrame frame
        return false
      else
        update fun s => s.setSpte q fun e => { e with free := false }
        lockRelease (.spteLock q)
        return true

/-- `page_load_swap`. -/
def pageLoadSwap (o : Outcomes) (cur : Pid) (q : SptePtr) : Code Bool := do
  match ← vmGetFrame o cur (some q) with
  | none => Exec.throw .panic
  | some frame => do
    lockAcquire (.spteLock q)
    let e := (← Exec.gets (·.vm)).spte q
    update fun s => s.swapIn frame e.swapIdx
    let installed ← installPage o cur e.addr frame e.writable
    if !installed then
      vmFreeFrame frame
      return false
    else
      update fun s => s.setSpte q fun e => { e with free := false }
      lockRelease (.spteLock q)
      return true

/-- `stack_grow`. -/
def stackGrow (o : Outcomes) (cur : Pid) (upage : Upage) : Code Bool := do
  let q := (← Exec.gets (·.vm)).nextSpte
  let spte := if o.spte then some q else none
  update fun s => { s with nextSpte := q + 1 }
  Exec.modify fun m => { m with garbage := Function.update m.garbage (.spteLock q) true }
  match ← vmGetFrame o cur spte with
  | none => return false
  | some frame => do
    let q ← orPanic spte
    update fun s => s.setSpte q fun e => { e with
      free := false
      writable := true
      addr := upage
      type := .swap
      timestamp := s.ticks }
    lockInit (.spteLock q)
    let installed ← installPage o cur upage frame true
    if !installed then
      vmFreeFrame frame
      return false
    else
      match (← Exec.gets (·.vm)).lookup cur upage with
      | some _ => do
        vmFreeFrame frame
        return false
      | none => do
        update fun s => s.hashInsert cur upage q
        return true

/-- The functions that bring in a page. -/
inductive Loader where
  | pageLoadFile (q : SptePtr)
  | pageLoadSwap (q : SptePtr)
  | stackGrow (upage : Upage)

def Loader.run (o : Outcomes) (cur : Pid) : Loader → Code Bool
  | .pageLoadFile q => Guarded.pageLoadFile o cur q
  | .pageLoadSwap q => Guarded.pageLoadSwap o cur q
  | .stackGrow upage => Guarded.stackGrow o cur upage

/-- The functions without the locks, where no allocation fails. -/
def Loader.plain (cur : Pid) (s : State) : Loader → Option (Bool × State)
  | .pageLoadFile q => s.pageLoadFile cur q
  | .pageLoadSwap q => s.pageLoadSwap cur q
  | .stackGrow upage => s.stackGrow cur upage

end Guarded

end Pintos.Vm
