import Pintos.Lib.Bitmap
import Pintos.Logic.Exec
import Pintos.Logic.Ram

/-!
# The allocators of the kernel

`threads/palloc.c` and `threads/malloc.c`. Addresses are those of kernel memory, and a `size_t` has
32 bits. The header of an arena is in memory, with the number of its descriptor plus one for the
pointer to it. A free list is a list of blocks, without the links that are kept in the blocks, and
the bits of a pool are kept apart from the pages below its base that they are in.

The locks are left out: a call runs alone.
-/

namespace Pintos.Malloc

open Pintos.Lib Pintos.Logic Pintos.Logic.Exec

/-! ## `vaddr.h` and `round.h` -/

/-- `PGSIZE`. -/
abbrev pgsize : Nat := 4096

/-- `PHYS_BASE`. -/
abbrev physBase : Nat := 0xc0000000

/-- `pg_ofs`. -/
def pgOfs (va : Nat) : Nat := va % pgsize

/-- `pg_no`. -/
def pgNo (va : Nat) : Nat := va / pgsize

/-- `pg_round_down`. -/
def pgRoundDown (va : Nat) : Nat := va / pgsize * pgsize

/-- The value of an expression of type `size_t`. -/
def sizeT (n : Nat) : Nat := n % 4294967296

/-- `DIV_ROUND_UP`. -/
def divRoundUp (x step : Nat) : Nat := sizeT (x + step - 1) / step

/-! ## `palloc.c` -/

/-- What ends a call other than its return. -/
inductive Stop where
  /-- An `ASSERT` fails, or control reaches `NOT_REACHED`. -/
  | assertion
  /-- The panic that `PAL_ASSERT` asks for. -/
  | outOfPages
  deriving DecidableEq, Repr

/-- `enum palloc_flags`. -/
structure PallocFlags where
  assert : Bool
  zero : Bool
  user : Bool

/-- `struct pool`. -/
structure Pool where
  usedMap : Bitmap
  base : Nat

/-- `struct desc`. -/
structure Desc where
  blockSize : Nat
  blocksPerArena : Nat
  freeList : List Nat

/-- The variables of both files, and memory. -/
structure Heap where
  kernelPool : Pool
  userPool : Pool
  descs : List Desc
  mem : Ram

namespace Heap

/-- One of the two pools. -/
def pool (h : Heap) (user : Bool) : Pool := if user then h.userPool else h.kernelPool

def setPool (h : Heap) (user : Bool) (pool : Pool) : Heap :=
  if user then { h with userPool := pool } else { h with kernelPool := pool }

def setMem (h : Heap) (mem : Ram) : Heap := { h with mem }

def setDescs (h : Heap) (descs : List Desc) : Heap := { h with descs }

end Heap

/-- `bitmap_buf_size`. -/
def bitmapBufSize (bitCnt : Nat) : Nat := 8 + byteCnt bitCnt

/-- `init_pool`, with `none` where it panics. -/
def initPool (base pageCnt : Nat) : Option Pool :=
  let bmPages := divRoundUp (bitmapBufSize pageCnt) pgsize
  if bmPages > pageCnt then none
  else some { usedMap := Bitmap.create (pageCnt - bmPages), base := base + bmPages * pgsize }

/-- `palloc_init`: the kernel pool and the user pool. -/
def pallocInit (initRamPages userPageLimit : Nat) : Option (Pool × Pool) := do
  let freeStart := physBase + 1024 * 1024
  let freeEnd := physBase + initRamPages * pgsize
  let freePages := (freeEnd - freeStart) / pgsize
  let userPages := min (freePages / 2) userPageLimit
  let kernelPages := freePages - userPages
  let kernelPool ← initPool freeStart kernelPages
  let userPool ← initPool (freeStart + kernelPages * pgsize) userPages
  return (kernelPool, userPool)

/-- `palloc_get_multiple`, with `none` for the null pointer. -/
def pallocGetMultiple (flags : PallocFlags) (pageCnt : Nat) : Exec Heap Stop (Option Nat) := do
  if pageCnt = 0 then
    return none
  else
    let pool ← gets (·.pool flags.user)
    match pool.usedMap.scanAndFlip 0 pageCnt false with
    | some (pageIdx, usedMap) =>
      modify (·.setPool flags.user { pool with usedMap })
      let pages := pool.base + pgsize * pageIdx
      if flags.zero then
        modify fun h => h.setMem (h.mem.fill pages (pgsize * pageCnt) 0)
      return some pages
    | none => if flags.assert then throw .outOfPages else return none

/-- `palloc_get_page`. -/
def pallocGetPage (flags : PallocFlags) : Exec Heap Stop (Option Nat) := pallocGetMultiple flags 1

/-- `page_from_pool`. -/
def pageFromPool (pool : Pool) (page : Nat) : Bool :=
  pgNo pool.base ≤ pgNo page && pgNo page < pgNo pool.base + pool.usedMap.bitCnt

/-- `palloc_free_multiple` from where the pool is known. -/
def freeToPool (user : Bool) (pages pageCnt : Nat) : Exec Heap Stop Unit := do
  let pool ← gets (·.pool user)
  let pageIdx := pgNo pages - pgNo pool.base
  modify fun h => h.setMem (h.mem.fill pages (pgsize * pageCnt) 0xcc)
  if pageIdx + pageCnt ≤ pool.usedMap.bitCnt ∧ pool.usedMap.all pageIdx pageCnt then
    modify (·.setPool user { pool with usedMap := pool.usedMap.setMultiple pageIdx pageCnt false })
  else
    throw .assertion

/-- `palloc_free_multiple`. -/
def pallocFreeMultiple (pages pageCnt : Nat) : Exec Heap Stop Unit := do
  if pgOfs pages ≠ 0 then
    throw .assertion
  else if pages = 0 ∨ pageCnt = 0 then
    return ()
  else if pageFromPool (← gets (·.kernelPool)) pages then
    freeToPool false pages pageCnt
  else if pageFromPool (← gets (·.userPool)) pages then
    freeToPool true pages pageCnt
  else
    throw .assertion

/-- `palloc_free_page`. -/
def pallocFreePage (page : Nat) : Exec Heap Stop Unit := pallocFreeMultiple page 1

/-! ## `malloc.c` -/

/-- `ARENA_MAGIC`. -/
abbrev arenaMagic : Nat := 0x9a548eed

/-- `sizeof (struct arena)`. -/
abbrev sizeofArena : Nat := 12

/-- `struct arena`. -/
structure Arena where
  magic : Nat
  /-- `0` for the null pointer, else the number of the descriptor plus one. -/
  desc : Nat
  freeCnt : Nat
  deriving DecidableEq

/-- The header at `a`. -/
def arenaAt (mem : Ram) (a : Nat) : Arena := ⟨mem.word a, mem.word (a + 4), mem.word (a + 8)⟩

def setArena (mem : Ram) (a : Nat) (arena : Arena) : Ram :=
  ((mem.setWord a arena.magic).setWord (a + 4) arena.desc).setWord (a + 8) arena.freeCnt

/-- The loop of `malloc_init`, which has `fuel` elements of `descs` left. -/
def mallocInitLoop : (fuel blockSize : Nat) → Option (List Desc)
  | 0, blockSize => if blockSize < pgsize / 2 then none else some []
  | fuel + 1, blockSize => do
    if blockSize < pgsize / 2 then
      let descs ← mallocInitLoop fuel (blockSize * 2)
      return ⟨blockSize, (pgsize - sizeofArena) / blockSize, []⟩ :: descs
    else
      return []

/-- `malloc_init`, with `none` where the assertion fails. -/
def mallocInit : Option (List Desc) := mallocInitLoop 10 16

/-- The kernel after `palloc_init` and `malloc_init`. -/
def boot (initRamPages userPageLimit : Nat) (mem : Ram) : Option Heap := do
  let (kernelPool, userPool) ← pallocInit initRamPages userPageLimit
  let descs ← mallocInit
  return { kernelPool, userPool, descs, mem }

/-- `block_to_arena`. -/
def blockToArena (b : Nat) : Exec Heap Stop Nat := do
  let a := pgRoundDown b
  let arena ← gets fun h => arenaAt h.mem a
  if a = 0 ∨ arena.magic ≠ arenaMagic then
    throw .assertion
  else if arena.desc = 0 then
    if pgOfs b = sizeofArena then return a else throw .assertion
  else
    match (← gets (·.descs))[arena.desc - 1]? with
    | none => throw .assertion
    | some d =>
      if sizeT (pgOfs b + 4294967296 - sizeofArena) % d.blockSize = 0 then return a
      else throw .assertion

/-- The address of block number `idx` of an arena with blocks of this size. -/
def blockAddr (a idx blockSize : Nat) : Nat := a + sizeofArena + idx * blockSize

/-- `arena_to_block`. -/
def arenaToBlock (a idx : Nat) : Exec Heap Stop Nat := do
  let arena ← gets fun h => arenaAt h.mem a
  if a = 0 ∨ arena.magic ≠ arenaMagic then
    throw .assertion
  else
    match (← gets (·.descs))[arena.desc - 1]? with
    | none => throw .assertion
    | some d =>
      if idx < d.blocksPerArena then return blockAddr a idx d.blockSize else throw .assertion

/-- A new arena for descriptor number `i`, with its blocks in the free list. -/
def newArena (i : Nat) (d : Desc) (a : Nat) : Exec Heap Stop Unit := do
  modify fun h => h.setMem (setArena h.mem a ⟨arenaMagic, i + 1, d.blocksPerArena⟩)
  let freeList ← (List.range d.blocksPerArena).foldlM
    (fun list idx => do return list ++ [← arenaToBlock a idx]) d.freeList
  modify fun h => h.setDescs (h.descs.set i { d with freeList })

/-- The end of `malloc`: a block of the free list of descriptor number `i`. -/
def popBlock (i : Nat) : Exec Heap Stop (Option Nat) := do
  match (← gets (·.descs))[i]? with
  | some ⟨blockSize, blocksPerArena, b :: freeList⟩ =>
    modify fun h => h.setDescs (h.descs.set i ⟨blockSize, blocksPerArena, freeList⟩)
    let a ← blockToArena b
    modify fun h =>
      let arena := arenaAt h.mem a
      h.setMem (setArena h.mem a { arena with freeCnt := sizeT (arena.freeCnt + 4294967295) })
    return some b
  | _ => throw .assertion

/-- `malloc`, with `none` for the null pointer. -/
def malloc (size : Nat) : Exec Heap Stop (Option Nat) := do
  if size = 0 then
    return none
  else
    let descs ← gets (·.descs)
    let i := descs.findIdx fun d => size ≤ d.blockSize
    match descs[i]? with
    | none =>
      let pageCnt := divRoundUp (sizeT (size + sizeofArena)) pgsize
      match ← pallocGetMultiple ⟨false, false, false⟩ pageCnt with
      | none => return none
      | some a =>
        modify fun h => h.setMem (setArena h.mem a ⟨arenaMagic, 0, pageCnt⟩)
        return some (a + sizeofArena)
    | some d =>
      if d.freeList = [] then
        match ← pallocGetPage ⟨false, false, false⟩ with
        | none => return none
        | some a =>
          newArena i d a
          popBlock i
      else
        popBlock i

/-- `calloc`. -/
def calloc (a b : Nat) : Exec Heap Stop (Option Nat) := do
  let size := sizeT (a * b)
  if size < a ∨ size < b then
    return none
  else
    match ← malloc size with
    | none => return none
    | some p =>
      modify fun h => h.setMem (h.mem.fill p size 0)
      return some p

/-- `block_size`. -/
def blockSize (block : Nat) : Exec Heap Stop Nat := do
  let a ← blockToArena block
  let arena ← gets fun h => arenaAt h.mem a
  if arena.desc = 0 then
    return sizeT (pgsize * arena.freeCnt + 4294967296 - pgOfs block)
  else
    match (← gets (·.descs))[arena.desc - 1]? with
    | none => throw .assertion
    | some d => return d.blockSize

/-- `free` for a block of descriptor number `i`, in the arena at `a`. -/
def freeBlock (i : Nat) (d : Desc) (a b : Nat) : Exec Heap Stop Unit := do
  modify fun h => h.setMem (h.mem.fill b d.blockSize 0xcc)
  let arena ← gets fun h => arenaAt h.mem a
  let freeCnt := sizeT (arena.freeCnt + 1)
  let freeList := b :: d.freeList
  modify fun h => h.setMem (setArena h.mem a { arena with freeCnt })
  if freeCnt ≥ d.blocksPerArena then
    if freeCnt = d.blocksPerArena then
      let freeList ← (List.range d.blocksPerArena).foldlM
        (fun list idx => do return list.erase (← arenaToBlock a idx)) freeList
      modify fun h => h.setDescs (h.descs.set i { d with freeList })
      pallocFreePage a
    else
      throw .assertion
  else
    modify fun h => h.setDescs (h.descs.set i { d with freeList })

/-- `free`, where `p` may be the null pointer. -/
def free (p : Option Nat) : Exec Heap Stop Unit := do
  match p with
  | none => return ()
  | some b =>
    let a ← blockToArena b
    let arena ← gets fun h => arenaAt h.mem a
    if arena.desc = 0 then
      pallocFreeMultiple a arena.freeCnt
    else
      match (← gets (·.descs))[arena.desc - 1]? with
      | none => throw .assertion
      | some d => freeBlock (arena.desc - 1) d a b

/-- `realloc`, where `oldBlock` may be the null pointer. -/
def realloc (oldBlock : Option Nat) (newSize : Nat) : Exec Heap Stop (Option Nat) := do
  if newSize = 0 then
    free oldBlock
    return none
  else
    let newBlock ← malloc newSize
    match oldBlock, newBlock with
    | some old, some new =>
      let oldSize ← blockSize old
      let minSize := min newSize oldSize
      modify fun h => h.setMem (h.mem.copy new old minSize)
      free oldBlock
      return newBlock
    | _, _ => return newBlock

end Pintos.Malloc
