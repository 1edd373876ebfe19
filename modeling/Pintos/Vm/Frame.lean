import Pintos.Vm.State

/-!
# The frame table and eviction

`vm/frame.c`. The search for a victim asks the page directory of the running thread about the
addresses of all processes.
-/

namespace Pintos.Vm.State

open Pintos.Logic

/-- `INT64_MAX`. -/
def int64Max : Nat := 9223372036854775807

/-- The loop of `find_unaccessed_page` over the rest of the frame table. -/
def findUnaccessedPage (cur : Pid) : List FrameTabEntry → State → Option FrameTabEntry × State
  | [], s => (none, s)
  | f :: search, s =>
    if s.pagedirIsAccessed cur (s.spte f.spte).addr then
      findUnaccessedPage cur search (s.setSpte f.spte fun e => { e with timestamp := s.ticks })
    else (some f, s)

/-- The loop of `find_longest_time_page`, with `first_begin_entry` and `first_begin_time`. -/
def findLongestTimePage (s : State) :
    List FrameTabEntry → Option FrameTabEntry → Nat → Option FrameTabEntry
  | [], first, _ => first
  | f :: search, first, time =>
    if (s.spte f.spte).timestamp < time then
      s.findLongestTimePage search (some f) (s.spte f.spte).timestamp
    else s.findLongestTimePage search first time

/-- `evi_pte` goes back to its file if the running thread has a dirty page at its address, and
else to the swap block. -/
def pageOut (s : State) (cur : Pid) (f : FrameTabEntry) : Option State :=
  let e := s.spte f.spte
  if s.pagedirIsDirty cur e.addr ∧ e.type = .mmap then
    s.fileWriteAt cur e.file e.addr e.readBytes e.offset
  else do
    let s := s.setSpte f.spte fun e => { e with type := .swap }
    let (i, s) ← s.swapOut f.frame
    return s.setSpte f.spte fun e => { e with swapIdx := i }

/-- `do_evict_frame`. -/
def doEvictFrame (s : State) (cur : Pid) (e : SptePtr) (f : FrameTabEntry) :
    Option (Frame × State) := do
  let upage := (s.spte f.spte).addr
  let s ← s.pageOut cur f
  -- `thread_get_by_tid (owner)->pagedir`
  guard (s.thread f.owner).isSome
  let s := s.pagedirClearPage f.owner upage
  let s := s.setMemory f.frame Bytes.zeros
  return (f.frame, { s with frameTable := s.frameTable.erase f ++ [⟨f.frame, e, cur⟩] })

/-- The victim of `try_evict_frame`, and the state after the search. -/
def victim (s : State) (cur : Pid) : Option FrameTabEntry × State :=
  match findUnaccessedPage cur s.frameTable s with
  | (some f, s) => (some f, s)
  | (none, s) => (s.findLongestTimePage s.frameTable none int64Max, s)

/-- `try_evict_frame`. -/
def tryEvictFrame (s : State) (cur : Pid) (e : SptePtr) : Option (Option Frame × State) :=
  match s.victim cur with
  | (some f, s) => (s.doEvictFrame cur e f).map fun (k, s) => (some k, s)
  | (none, s) => some (none, s)

/-- `vm_get_frame (PAL_USER, spte)`. -/
def vmGetFrame (s : State) (cur : Pid) (spte : SptePtr) : Option (Option Frame × State) :=
  match s.pallocGetPage with
  | none => s.tryEvictFrame cur spte
  | some (k, s) => some (some k, { s with frameTable := ⟨k, spte, cur⟩ :: s.frameTable })

/-- The page that `vm_get_frame` has to evict. -/
def evicted (s : State) (cur : Pid) : Option FrameTabEntry :=
  match s.pallocGetPage with
  | none => (s.victim cur).1
  | some _ => none

/-- `vm_free_frame`. -/
def vmFreeFrame (s : State) (frame : Option Frame) : Option State :=
  match frame.bind fun k => s.frameTable.find? (·.frame = k) with
  | none => some s
  | some f => { s with frameTable := s.frameTable.erase f }.pallocFreePage f.frame

/-- `vm_clear_process_frame_table`. The frames themselves are not freed. -/
def vmClearProcessFrameTable (s : State) (pid : Pid) : State :=
  { s with frameTable := s.frameTable.filter (·.owner ≠ pid) }

end Pintos.Vm.State
