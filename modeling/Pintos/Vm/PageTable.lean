import Pintos.Lib.Hash
import Pintos.Vm.State

/-!
# The supplemental page table

What `page_lazy_load`, `stack_grow`, `page_hash_find` and `free_mmap_entry` do with the hash table
of a process. `hash` is a hash function on addresses. A function gives `none` where the kernel
panics.
-/

namespace Pintos.Vm

open Pintos.Lib

/-! ## Addresses -/

/-- `PGMASK`. -/
abbrev pgmask : UInt32 := 0xfff

/-- `pg_ofs`. -/
def pgOfs (va : UInt32) : UInt32 := va &&& pgmask

/-- `pg_round_down`. -/
def pgRoundDown (va : UInt32) : UInt32 := va &&& ~~~pgmask

/-! ## The functions of the source -/

/-- A `struct suppl_page_table_entry` in a hash table, and its `addr`, which is not set again. -/
structure HashElem where
  spte : SptePtr
  addr : UInt32
  deriving DecidableEq

/-- `hash_bytes`. -/
def hashBytes (buf : List UInt8) : UInt32 :=
  buf.foldl (fun hash b => (hash * 16777619) ^^^ b.toUInt32) 2166136261

/-- `hash_bytes`, on the bytes of an address. -/
def hashAddr (addr : UInt32) : UInt32 :=
  hashBytes [addr.toUInt8, (addr >>> 8).toUInt8, (addr >>> 16).toUInt8, (addr >>> 24).toUInt8]

/-- `page_hash`. -/
def pageHash (hash : UInt32 → UInt32) (p : HashElem) : Nat := (hash p.addr).toNat

/-- `page_less`. -/
def pageLess (a b : HashElem) : Bool := a.addr < b.addr

/-- `page_hash_find`. The entry `tmp` that it looks for has an `addr` only. -/
def pageHashFind (hash : UInt32 → UInt32) (table : Hash HashElem) (upage : UInt32) :
    Option (Option HashElem) :=
  if upage = 0 then none
  else table.hashFind (pageHash hash) pageLess { spte := 0, addr := pgRoundDown upage }

/-- The uses of the table. `spte` is what `malloc` has given. -/
inductive TableOp
  /-- A page in `page_lazy_load`. -/
  | lazyLoad (spte : SptePtr) (upage : UInt32)
  /-- `stack_grow`. -/
  | stackGrow (spte : SptePtr) (faultAddr : UInt32)
  /-- `page_hash_find`. -/
  | find (upage : UInt32)
  /-- A page in `free_mmap_entry`. -/
  | freeMmap (upage : UInt32)

/-- Returns the entry that has been found or was there. `alloc` is whether `rehash` gets its
memory. -/
def TableOp.step (hash : UInt32 → UInt32) (alloc : Bool) (table : Hash HashElem) :
    TableOp → Option (Option HashElem × Hash HashElem)
  | .lazyLoad spte upage => table.hashInsert (pageHash hash) pageLess alloc ⟨spte, upage⟩
  | .stackGrow spte faultAddr =>
    if faultAddr = 0 then none
    else table.hashInsert (pageHash hash) pageLess alloc ⟨spte, pgRoundDown faultAddr⟩
  | .find upage => (pageHashFind hash table upage).map fun found => (found, table)
  | .freeMmap upage => do
    match ← pageHashFind hash table upage with
    | none => return (none, table)
    | some spte => table.hashDelete (pageHash hash) pageLess alloc spte

/-- A run, with the entries that are returned. -/
def TableOp.run (hash : UInt32 → UInt32) :
    List (TableOp × Bool) → Hash HashElem → Option (List (Option SptePtr) × Hash HashElem)
  | [], table => some ([], table)
  | (op, alloc) :: ops, table => do
    let (found, table) ← op.step hash alloc table
    let (results, table) ← run hash ops table
    return (found.map (·.spte) :: results, table)

/-- What the callers see to: pages are aligned, and a null pointer fails an assertion. -/
def TableOp.legal : TableOp → Bool
  | .lazyLoad _ upage => pgOfs upage = 0
  | .stackGrow _ addr | .find addr | .freeMmap addr => addr ≠ 0

/-! ## The purpose of the table -/

/-- A map from pages to entries, as in `Thread.supplPageTable`. -/
abbrev PageMap : Type := AList fun _ : Upage => SptePtr

/-- The page that contains an address. -/
def pgNo (va : UInt32) : Upage := va.toNat / pgsize

/-- An entry for a page that has none. -/
def PageMap.insertNew (m : PageMap) (u : Upage) (spte : SptePtr) : Option SptePtr × PageMap :=
  match m.lookup u with
  | some old => (some old, m)
  | none => (none, m.insert u spte)

def TableOp.specStep (m : PageMap) : TableOp → Option SptePtr × PageMap
  | .lazyLoad spte addr | .stackGrow spte addr => m.insertNew (pgNo addr) spte
  | .find addr => (m.lookup (pgNo addr), m)
  | .freeMmap addr => (m.lookup (pgNo addr), m.erase (pgNo addr))

def TableOp.specRun : List (TableOp × Bool) → PageMap → List (Option SptePtr) × PageMap
  | [], m => ([], m)
  | (op, _) :: ops, m =>
    let (found, m) := op.specStep m
    let (results, m) := specRun ops m
    (found :: results, m)

end Pintos.Vm
