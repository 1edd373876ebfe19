import Pintos.Vm.Frame

/-!
# Loading pages

`vm/page.c`.
-/

namespace Pintos.Vm.State

open Pintos.Logic

/-- `page_load_file`. A page that cannot be read whole fails with its `spte_lock` held. -/
def pageLoadFile (s : State) (cur : Pid) (q : SptePtr) : Option (Bool × State) := do
  let (frame, s) ← s.vmGetFrame cur q
  let k ← frame
  let e := s.spte q
  let (ofs, s) := s.fileReadAt e.file k e.readBytes e.offset
  if ofs ≠ e.readBytes then
    let s ← s.vmFreeFrame (some k)
    return (false, s)
  let s := if 0 < e.zeroBytes then
      s.setMemory k ((s.memory k).splice e.readBytes e.zeroBytes fun _ => 0)
    else s
  match s.installPage cur e.addr k e.writable with
  | (false, s) =>
    let s ← s.vmFreeFrame (some k)
    return (false, s)
  | (true, s) => return (true, s.setSpte q fun e => { e with free := false })

/-- `page_load_swap`. -/
def pageLoadSwap (s : State) (cur : Pid) (q : SptePtr) : Option (Bool × State) := do
  let (frame, s) ← s.vmGetFrame cur q
  let k ← frame
  let e := s.spte q
  let s := s.swapIn k e.swapIdx
  match s.installPage cur e.addr k e.writable with
  | (false, s) =>
    let s ← s.vmFreeFrame (some k)
    return (false, s)
  | (true, s) => return (true, s.setSpte q fun e => { e with free := false })

/-- `page_lazy_load`. Each round of the loop makes one page; `n` is the number of pages left,
`(read_bytes + zero_bytes) / PGSIZE`. -/
def pageLazyLoad (cur : Pid) (file : FileId) (writable : Bool) (type : PageType) :
    Nat → Nat → Upage → Nat → State → Bool × State
  | 0, _, _, _, s => (true, s)
  | n + 1, ofs, upage, readBytes, s =>
    let pageReadBytes := min readBytes pgsize
    let q := s.nextSpte
    let s := { s.setSpte q fun e => { e with
        type, file
        offset := ofs
        addr := upage
        readBytes := pageReadBytes
        zeroBytes := pgsize - pageReadBytes
        writable
        timestamp := s.ticks
        free := true } with nextSpte := q + 1 }
    match s.lookup cur upage with
    | some _ => (false, s)
    | none =>
      pageLazyLoad cur file writable type n (ofs + pageReadBytes) (upage + 1)
        (readBytes - pageReadBytes) (s.hashInsert cur upage q)

/-- `stack_grow`. The frame is used as it is, and the fields of the new entry that are not set here
keep what was in the block. -/
def stackGrow (s : State) (cur : Pid) (upage : Upage) : Option (Bool × State) := do
  -- `do_evict_frame` takes the `spte_lock` of the new entry, which is not initialised yet.
  guard (s.evicted cur).isNone
  let q := s.nextSpte
  let (frame, s) ← { s with nextSpte := q + 1 }.vmGetFrame cur q
  match frame with
  | none => return (false, s)
  | some k =>
    let s := s.setSpte q fun e => { e with
      free := false
      writable := true
      addr := upage
      type := .swap
      timestamp := s.ticks }
    match s.installPage cur upage k true with
    | (false, s) =>
      let s ← s.vmFreeFrame (some k)
      return (false, s)
    | (true, s) =>
      match s.lookup cur upage with
      | none => return (true, s.hashInsert cur upage q)
      | some _ =>
        let s ← s.vmFreeFrame (some k)
        return (false, s)

end Pintos.Vm.State
