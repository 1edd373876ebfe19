import Pintos.Vm.Page

/-!
# Loading segments

The loop that `page_lazy_load` and the `load_segment` of the kernel without virtual memory share,
with its two counters, and what the latter does with a page.
-/

namespace Pintos.Vm.State

open Pintos.Logic

/-- `while (read_bytes > 0 || zero_bytes > 0)`, on 32-bit words, where `page` is given the number of
bytes to read into the next page. `none` is out of fuel. -/
def pageLoop (page : Nat → Upage → Nat → State → Bool × State) :
    Nat → Nat → Upage → Nat → Nat → State → Option (Bool × State)
  | 0, _, _, _, _, _ => none
  | fuel + 1, ofs, upage, readBytes, zeroBytes, s =>
    if 0 < readBytes ∨ 0 < zeroBytes then
      let pageReadBytes := if readBytes < pgsize then readBytes else pgsize
      let pageZeroBytes := pgsize - pageReadBytes
      match page ofs upage pageReadBytes s with
      | (false, s) => some (false, s)
      | (true, s) =>
        pageLoop page fuel (ofs + pageReadBytes) (upage + 1)
          ((readBytes + 2 ^ 32 - pageReadBytes) % 2 ^ 32)
          ((zeroBytes + 2 ^ 32 - pageZeroBytes) % 2 ^ 32) s
    else some (true, s)

/-- `page_lazy_load`, with both counters. -/
def pageLazyLoadLoop (cur : Pid) (file : FileId) (writable : Bool) (type : PageType)
    (fuel ofs : Nat) (upage : Upage) (readBytes zeroBytes : Nat) (s : State) :
    Option (Bool × State) :=
  pageLoop (fun ofs upage pageReadBytes s =>
    pageLazyLoad cur file writable type 1 ofs upage pageReadBytes s) fuel ofs upage readBytes
    zeroBytes s

/-- One round of `load_segment`. `ofs` is the position of the file, which `file_read` advances. -/
def loadSegmentPage (cur : Pid) (file : FileId) (writable : Bool) (ofs : Nat) (upage : Upage)
    (pageReadBytes : Nat) (s : State) : Bool × State :=
  match s.pallocGetPage with
  | none => (false, s)
  | some (kpage, s) =>
    let (bytesRead, s) := s.fileReadAt file kpage pageReadBytes ofs
    if bytesRead ≠ pageReadBytes then (false, (s.pallocFreePage kpage).getD s)
    else
      let s := s.setMemory kpage
        ((s.memory kpage).splice pageReadBytes (pgsize - pageReadBytes) fun _ => 0)
      match s.installPage cur upage kpage writable with
      | (false, s) => (false, (s.pallocFreePage kpage).getD s)
      | (true, s) => (true, s)

/-- `load_segment`, which loads every page at once. -/
def loadSegment (cur : Pid) (file : FileId) (fuel ofs : Nat) (upage : Upage)
    (readBytes zeroBytes : Nat) (writable : Bool) (s : State) : Option (Bool × State) :=
  pageLoop (loadSegmentPage cur file writable) fuel ofs upage readBytes zeroBytes s

end Pintos.Vm.State
