import Pintos.Devices.Block
import Pintos.Lib.Bitmap
import Pintos.Vm.State
import Mathlib.Data.Multiset.Filter

/-!
# The swap block

`vm/swap.c`, in the steps in which the calls of several threads can mix. A step is an operation on
`swap_lock`, a test or a change of one bit, or the transfer of one sector. The page of a call belongs
to its caller until the call returns.
-/

namespace Pintos.Vm

open Pintos.Logic Pintos.Lib

/-- `SECTORS_PER_PAGE`. -/
abbrev sectorsPerPage : Nat := pgsize / blockSectorSize

/-- The static variables of `swap.c`. -/
structure Swap where
  block : Disk
  bitmap : Bitmap
  /-- Whether `swap_lock` has a holder. -/
  lockHeld : Bool

/-- `swap_init`. -/
def swapInit (block : Disk) : Swap where
  block
  bitmap := Bitmap.create (block.size / sectorsPerPage)
  lockHeld := false

/-- `index * SECTORS_PER_PAGE + i`, in 32 bits. -/
def slotSector (index i : Nat) : Nat := (index * sectorsPerPage + i) % 2 ^ 32

/-- `BITMAP_ERROR`. -/
def bitmapError : Nat := 2 ^ 32 - 1

/-- The bytes at `page + i * BLOCK_SECTOR_SIZE`, as many as a sector has. -/
def part (page : Page) (i : Nat) : Block :=
  Bytes.tabulate fun k => page.byte (i * blockSectorSize + k)

/-- The page with these bytes replaced. -/
def setPart (page : Page) (i : Nat) (buffer : Block) : Page :=
  page.splice (i * blockSectorSize) blockSectorSize buffer.byte

/-- Where a call of `swap_out` is. -/
inductive SwapOut
  | acquire
  /-- In `bitmap_scan`, before the test of bit `i`. -/
  | scan (i : Nat)
  /-- Before `bitmap_set_multiple`. -/
  | mark (index : Nat)
  | release (index : Nat)
  /-- In `write_from_block`, before the transfer of sector `i`. -/
  | write (index i : Nat)
  | done (index : Nat)

/-- The next step of `swap_out (page)`, and `none` if it waits or has returned. -/
def swapOutStep (page : Page) (c : Swap) : SwapOut → Option (Except Fault (Swap × SwapOut))
  | .acquire => if c.lockHeld then none else some (.ok ({ c with lockHeld := true }, .scan 0))
  | .scan i =>
    if i < c.bitmap.bitCnt then
      some (.ok (c, if c.bitmap.test i then .scan (i + 1) else .mark i))
    else some (.ok (c, .release bitmapError))
  | .mark index =>
    if index < c.bitmap.bitCnt then
      some (.ok ({ c with bitmap := c.bitmap.set index true }, .release index))
    else some (.error .assertion)
  | .release index => some (.ok ({ c with lockHeld := false }, .write index 0))
  | .write index i =>
    if i < sectorsPerPage then
      some ((blockWrite c.block (slotSector index i) (part page i)).map fun block =>
        ({ c with block }, .write index (i + 1)))
    else some (.ok (c, .done index))
  | .done _ => none

/-- Where a call of `swap_in` is, with what its page holds. -/
inductive SwapIn
  /-- In `read_from_block`, before the transfer of sector `i`. -/
  | read (i : Nat) (page : Page)
  | flip (page : Page)
  | done (page : Page)

/-- The next step of `swap_in (page, swap_index)`, and `none` if it has returned. -/
def swapInStep (index : Nat) (c : Swap) : SwapIn → Option (Except Fault (Swap × SwapIn))
  | .read i page =>
    if i < sectorsPerPage then
      some ((blockRead c.block (slotSector index i)).map fun buffer =>
        (c, .read (i + 1) (setPart page i buffer)))
    else some (.ok (c, .flip page))
  | .flip page =>
    some (.ok ({ c with bitmap := c.bitmap.set index (!c.bitmap.test index) }, .done page))
  | .done _ => none

/-! ## Calls by any number of threads -/

/-- A page that was given to `swap_out` and that no `swap_in` has brought back yet. -/
inductive Outstanding
  | leaving (page : Page) (call : SwapOut)
  /-- `swap_out` has returned the index, and it was not passed to `swap_in` yet. -/
  | out (page : Page) (index : Nat)
  | coming (page : Page) (index : Nat) (call : SwapIn)

structure Swapping where
  swap : Swap
  pages : Multiset Outstanding

/-- Whether the call that brings the page back has returned. -/
def Outstanding.returned : Outstanding → Bool
  | .coming _ _ (.done _) => true
  | _ => false

/-- The number of pages that are outstanding. -/
def Swapping.outstanding (s : Swapping) : Nat := s.pages.countP fun a => a.returned = false

/-- A step of any of the calls, or a call that begins or returns. An index is passed to `swap_in` at
most once for each time that it was returned, and there are never more pages outstanding than fit. -/
inductive Swapping.Step : Swapping → Swapping → Prop
  | swapOut {c l} (page : Page) (h : Swapping.outstanding ⟨c, l⟩ < c.bitmap.bitCnt) :
    Step ⟨c, l⟩ ⟨c, .leaving page .acquire ::ₘ l⟩
  | runOut {c c' l page call call'} (h : swapOutStep page c call = some (.ok (c', call'))) :
    Step ⟨c, .leaving page call ::ₘ l⟩ ⟨c', .leaving page call' ::ₘ l⟩
  | returnOut {c l page index} :
    Step ⟨c, .leaving page (.done index) ::ₘ l⟩ ⟨c, .out page index ::ₘ l⟩
  | swapIn {c l page index} (frame : Page) :
    Step ⟨c, .out page index ::ₘ l⟩ ⟨c, .coming page index (.read 0 frame) ::ₘ l⟩
  | runIn {c c' l page index call call'} (h : swapInStep index c call = some (.ok (c', call'))) :
    Step ⟨c, .coming page index call ::ₘ l⟩ ⟨c', .coming page index call' ::ₘ l⟩
  | returnIn {c l page index frame} :
    Step ⟨c, .coming page index (.done frame) ::ₘ l⟩ ⟨c, l⟩

/-- What can be reached from `swap_init` with a block of `block_sector_t` many sectors. -/
inductive Swapping.Reachable : Swapping → Prop
  | init (block : Disk) (h : block.size < 2 ^ 32) : Reachable ⟨swapInit block, 0⟩
  | step {s s'} (h : Reachable s) (hs : Step s s') : Reachable s'

end Pintos.Vm
