import Pintos.Devices.Block
import Mathlib.Logic.Function.Basic

/-!
# The buffer cache

`filesys/cache.c`: 64 slots in front of the file system device, written back when they
are evicted and when the file system shuts down.
-/

namespace Pintos.Filesys

open Pintos.Logic

/-- `CACHE_CNT`. -/
abbrev cacheCnt : Nat := 64

/-- `INT64_MAX`. -/
abbrev int64Max : Int := 9223372036854775807

/-- `struct cache`. -/
structure CacheSlot where
  free : Bool
  dirty : Bool
  timeStamp : Int
  diskSector : Nat
  buffer : Block

/-- The slots and the device behind them. -/
structure BufferCache where
  caches : List CacheSlot
  fsDevice : Disk

/-- The static array `caches` before any code has run. -/
def staticCaches : List CacheSlot :=
  List.replicate cacheCnt
    { free := false, dirty := false, timeStamp := 0, diskSector := 0, buffer := Bytes.zeros }

/-- `buffer_cache_init`. -/
def bufferCacheInit (caches : List CacheSlot) (fsDevice : Disk) : BufferCache where
  caches := caches.map fun c => { c with free := true }
  fsDevice := fsDevice

/-- `buffer_cache_flush`. -/
def bufferCacheFlush (c : BufferCache) (i : Nat) : Except Fault BufferCache :=
  match c.caches[i]? with
  | none => .error .assertion
  | some entry =>
    if entry.free then .ok c
    else if entry.dirty then do
      let fsDevice ← blockWrite c.fsDevice entry.diskSector entry.buffer
      return { caches := c.caches.set i { entry with dirty := false }, fsDevice }
    else .ok c

/-- `buffer_cache_close`: the loop over the slots, from slot `i` on with `n` left. -/
def bufferCacheCloseFrom : Nat → Nat → BufferCache → Except Fault BufferCache
  | 0, _, c => .ok c
  | n + 1, i, c =>
    if (c.caches[i]?.map (·.free)).getD true then bufferCacheCloseFrom n (i + 1) c
    else do
      let c ← bufferCacheFlush c i
      bufferCacheCloseFrom n (i + 1) c

/-- `buffer_cache_close`. -/
def bufferCacheClose (c : BufferCache) : Except Fault BufferCache :=
  bufferCacheCloseFrom c.caches.length 0 c

/-- `buffer_cache_lookup`: the first slot in use that holds `sector`. -/
def bufferCacheLookup (c : BufferCache) (sector : Nat) : Option Nat :=
  c.caches.findIdx? fun s => !s.free && s.diskSector == sector

/-- The search of `buffer_cache_evict` for the least recently used slot. -/
def lruIdx : List CacheSlot → Nat → Nat → Int → Nat
  | [], _, idx, _ => idx
  | s :: rest, i, idx, time =>
    if s.timeStamp < time then lruIdx rest (i + 1) i s.timeStamp
    else lruIdx rest (i + 1) idx time

/-- `buffer_cache_evict`. -/
def bufferCacheEvict (c : BufferCache) : Except Fault (Nat × BufferCache) :=
  match c.caches.findIdx? (·.free) with
  | some i => .ok (i, c)
  | none => do
    let i := lruIdx c.caches 0 0 int64Max
    let c ← (if (c.caches[i]?.map (·.dirty)).getD false then bufferCacheFlush c i else .ok c)
    return (i, { c with
      caches := c.caches.modify i fun s => { s with free := true, dirty := false } })

/-- The first half of `buffer_cache_read` and `buffer_cache_write`: the slot of `sector`,
filled from the device when the sector was not cached. -/
def bufferCacheFetch (c : BufferCache) (sector : Nat) : Except Fault (Nat × BufferCache) :=
  match bufferCacheLookup c sector with
  | some i => .ok (i, c)
  | none => do
    let (i, c) ← bufferCacheEvict c
    if (c.caches[i]?.map (·.free)).getD false then do
      let buffer ← blockRead c.fsDevice sector
      return (i, { c with caches := c.caches.modify i fun s =>
        { s with free := false, diskSector := sector, dirty := false, buffer } })
    else .error .assertion

/-- `buffer_cache_read`, at tick `now`. -/
def bufferCacheRead (c : BufferCache) (sector : Nat) (now : Int) :
    Except Fault (Block × BufferCache) := do
  let (i, c) ← bufferCacheFetch c sector
  let c := { c with caches := c.caches.modify i fun s => { s with timeStamp := now } }
  return ((c.caches[i]?.map (·.buffer)).getD Bytes.zeros, c)

/-- `buffer_cache_write`, at tick `now`. -/
def bufferCacheWrite (c : BufferCache) (sector : Nat) (source : Block) (now : Int) :
    Except Fault BufferCache := do
  let (i, c) ← bufferCacheFetch c sector
  return { c with caches := c.caches.modify i fun s =>
    { s with dirty := true, timeStamp := now, buffer := source } }

end Pintos.Filesys
