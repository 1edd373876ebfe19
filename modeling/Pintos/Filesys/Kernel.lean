import Pintos.Logic.Exec
import Pintos.Lib.Bitmap
import Pintos.Properties.Cache

/-!
# The state of the file system

What the C code keeps in static variables, on the heap and on the device, and the
primitive steps everything else is made of: cached sectors, `malloc`, and the
`struct inode`s of `open_inodes`.

The file system runs under one lock, so a call runs alone from its start to its end.
-/

namespace Pintos.Filesys

open Pintos.Logic Pintos.Lib

/-! ## Cached sectors -/

/-- A cache in a state it can reach: it stands for the sector map `contents`. -/
structure Store where
  cache : BufferCache
  sound : Represents cache cache.contents

namespace Store

/-- The number of sectors of the device. -/
def size (st : Store) : Nat := st.cache.fsDevice.size

/-- What a client of the cache sees. -/
def view (st : Store) : Nat → Block := st.cache.contents

/-- A cache just initialised over a device. -/
def init (disk : Disk) : Store where
  cache := bufferCacheInit staticCaches disk
  sound := by
    have h := represents_init (show 0 < staticCaches.length by simp [staticCaches]) disk
    rwa [← h.contents_eq] at h

end Store

/-! ## Memory -/

/-- The address of a `struct inode`. Addresses are not used again. -/
abbrev Addr : Type := Nat

/-- `struct inode`, which is in `open_inodes` from its allocation until it is freed. -/
structure Inode where
  addr : Addr
  sector : Nat
  openCnt : Int
  removed : Bool
  denyWriteCnt : Int
  data : Block

/-- `struct file`. -/
structure File where
  inode : Addr
  pos : Int
  denyWrite : Bool
  deriving DecidableEq

/-- `struct dir`. -/
structure Dir where
  inode : Addr
  pos : Int
  deriving DecidableEq

/-- `struct dir_entry`, as the 20 bytes it takes in a file. -/
abbrev DirEntry : Type := Bytes 20

/-- What the code meets but does not decide. -/
structure Env where
  /-- The value of `timer_ticks` at each step. -/
  ticks : Nat → Int
  /-- Whether `malloc` returns memory, at each of its calls. -/
  mallocs : Nat → Bool
  /-- What an uninitialised `struct dir_entry` holds, at each step. -/
  stack : Nat → DirEntry

/-- An environment where memory never runs out and the stack holds bytes `garbage`. -/
def Env.calm (garbage : UInt8) : Env where
  ticks n := n
  mallocs _ := true
  stack _ _ := garbage

/-- How far the code has come in what it meets. -/
structure Clock where
  /-- The steps taken, calls of `malloc` left out. -/
  steps : Nat
  /-- The calls of `malloc`. -/
  mallocs : Nat

/-- Events that the code itself does not tell apart, or does not notice. -/
inductive Event where
  /-- An allocation of a sector is refused. -/
  | refused
  /-- An allocation of a sector for an index block is refused. -/
  | indexRefused
  /-- `inode_open` is called on a sector that holds no live header. -/
  | deadOpen
  /-- `inode_unreserve` is called on an inode with more than 123 sectors. -/
  | overrun
  /-- `dir_remove` finds a directory. -/
  | dirRemoved
  /-- `filesys_open` finds a removed inode. -/
  | removedOpened
  /-- `inode_open` is called on the free map file while that is open. -/
  | freeMapShared
  /-- `dir_open_path` comes to an inode that is not a directory. -/
  | fileWalked
  deriving DecidableEq

/-- What has happened so far. The code does not read it. -/
structure History where
  /-- The sectors written by `inode_create` and not released since. -/
  live : List Nat
  events : List Event

/-- The state of the file system. -/
structure Fs where
  env : Env
  clock : Clock
  store : Store
  freeMap : Bitmap
  freeMapFile : Option File
  openInodes : List Inode
  /-- The next address `malloc` returns for a `struct inode`. -/
  nextAddr : Addr
  /-- The threads that have a `cwd`. -/
  cwds : List (Nat × Dir)
  /-- `thread_current ()`. -/
  current : Nat
  history : History

/-- How a run stops early: the fault, and what had happened before it. -/
structure Stop where
  fault : Fault
  history : History

/-- Code of the file system. -/
abbrev Kernel (α : Type) : Type := Exec Fs Stop α

namespace Fs

/-- What the sectors hold, seen through the cache. -/
def view (s : Fs) : Nat → Block := s.store.view

/-- The number of sectors of the device. -/
def size (s : Fs) : Nat := s.store.size

/-- The open inode at an address. -/
def inode? (s : Fs) (inode : Addr) : Option Inode := s.openInodes.find? (·.addr == inode)

/-- The state with the open inode at an address changed. -/
def mapInode (s : Fs) (inode : Addr) (f : Inode → Inode) : Fs :=
  { s with openInodes := s.openInodes.map fun i => if i.addr = inode then f i else i }

/-- The state one step later, with another cache. -/
def step (s : Fs) (store : Store) : Fs := { s with store, clock.steps := s.clock.steps + 1 }

end Fs

open Exec

/-- Stops with a fault. -/
def fail {α : Type} (fault : Fault) : Kernel α := fun s => .error ⟨fault, s.history⟩

/-- Changes the history. -/
def modifyHistory (f : History → History) : Kernel Unit :=
  modify fun s => { s with history := f s.history }

/-- Records an event. -/
def record (event : Event) : Kernel Unit :=
  modifyHistory fun h => { h with events := event :: h.events }

/-- Records an event under a condition. -/
def recordIf (c : Fs → Bool) (event : Event) : Kernel Unit := modify fun s =>
  { s with history.events := if c s then event :: s.history.events else s.history.events }

/-- Changes the list of live headers. -/
def modifyLive (f : List Nat → List Nat) : Kernel Unit :=
  modifyHistory fun h => { h with live := f h.live }

/-- `malloc` and `calloc`: whether memory was available. -/
def malloc : Kernel Bool := fun s =>
  .ok (s.env.mallocs s.clock.mallocs, { s with clock.mallocs := s.clock.mallocs + 1 })

/-- `malloc` and `calloc` where the result is used unchecked. -/
def mallocUnchecked : Kernel Unit := do
  if ← malloc then return () else fail .nullDeref

/-- A `struct dir_entry` on the stack. -/
def uninitialised : Kernel DirEntry := fun s =>
  .ok (s.env.stack s.clock.steps, s.step s.store)

/-- Dereferences a pointer to a `struct inode`. -/
def deref (inode : Addr) : Kernel Inode := fun s =>
  match s.inode? inode with
  | some i => .ok (i, s)
  | none => .error ⟨.useAfterFree, s.history⟩

/-- Assigns to fields of a `struct inode`. -/
def modifyInode (inode : Addr) (f : Inode → Inode) : Kernel Unit :=
  modify fun s => s.mapInode inode f

/-! ## The cache as a map -/

theorem bufferCacheRead_ok {st : Store} {sector : Nat} {now : Int} {r : Block × BufferCache}
    (h : bufferCacheRead st.cache sector now = .ok r) :
    r.1 = st.view sector ∧ r.2.fsDevice.size = st.size ∧ Represents r.2 st.view := by
  by_cases hlt : sector < st.size
  · obtain ⟨c, hc, hr, hs⟩ := bufferCacheRead_represents st.sound hlt now
    rw [hc] at h
    cases h
    exact ⟨rfl, hs, hr⟩
  · rw [bufferCacheRead_pastEnd st.sound (Nat.not_lt.mp hlt)] at h
    cases h

theorem bufferCacheWrite_ok {st : Store} {sector : Nat} {b : Block} {now : Int} {c : BufferCache}
    (h : bufferCacheWrite st.cache sector b now = .ok c) :
    c.fsDevice.size = st.size ∧ Represents c (Function.update st.view sector b) := by
  by_cases hlt : sector < st.size
  · obtain ⟨c', hc, hr, hs⟩ := bufferCacheWrite_represents st.sound hlt b now
    rw [hc] at h
    cases h
    exact ⟨hs, hr⟩
  · rw [bufferCacheWrite_pastEnd st.sound (Nat.not_lt.mp hlt)] at h
    cases h

namespace Store

/-- `buffer_cache_read`. -/
def read (st : Store) (sector : Nat) (now : Int) : Except Fault (Block × Store) :=
  match h : bufferCacheRead st.cache sector now with
  | .error e => .error e
  | .ok (b, c) => .ok (b, ⟨c, by
      have hr := (bufferCacheRead_ok h).2.2
      rwa [← hr.contents_eq] at hr⟩)

/-- `buffer_cache_write`. -/
def write (st : Store) (sector : Nat) (buffer : Block) (now : Int) : Except Fault Store :=
  match h : bufferCacheWrite st.cache sector buffer now with
  | .error e => .error e
  | .ok c => .ok ⟨c, by
      have hr := (bufferCacheWrite_ok h).2
      rwa [← hr.contents_eq] at hr⟩

theorem read_of_lt (st : Store) {sector : Nat} (h : sector < st.size) (now : Int) :
    ∃ st', st.read sector now = .ok (st.view sector, st') ∧ st'.view = st.view ∧
      st'.size = st.size := by
  obtain ⟨c, hc, hr, hs⟩ := bufferCacheRead_represents st.sound h now
  unfold read
  split
  · next e he => rw [hc] at he; cases he
  · next b c' hb =>
    rw [hc] at hb
    cases hb
    exact ⟨_, rfl, hr.contents_eq, hs⟩

theorem read_of_ge (st : Store) {sector : Nat} (h : st.size ≤ sector) (now : Int) :
    st.read sector now = .error .pastEnd := by
  unfold read
  split
  · next e he =>
    rw [bufferCacheRead_pastEnd st.sound h] at he
    rw [Except.error.inj he]
  · next hb =>
    rw [bufferCacheRead_pastEnd st.sound h] at hb
    cases hb

theorem write_of_ge (st : Store) {sector : Nat} (h : st.size ≤ sector) (b : Block) (now : Int) :
    st.write sector b now = .error .pastEnd := by
  unfold write
  split
  · next e he =>
    rw [bufferCacheWrite_pastEnd st.sound h] at he
    rw [Except.error.inj he]
  · next hb =>
    rw [bufferCacheWrite_pastEnd st.sound h] at hb
    cases hb

theorem write_of_lt (st : Store) {sector : Nat} (h : sector < st.size) (b : Block) (now : Int) :
    ∃ st', st.write sector b now = .ok st' ∧ st'.view = Function.update st.view sector b ∧
      st'.size = st.size := by
  obtain ⟨c, hc, hr, hs⟩ := bufferCacheWrite_represents st.sound h b now
  unfold write
  split
  · next e he => rw [hc] at he; cases he
  · next c' hb =>
    rw [hc] at hb
    cases hb
    exact ⟨_, rfl, hr.contents_eq, hs⟩

end Store

/-- `buffer_cache_read`. -/
def readSector (sector : Nat) : Kernel Block := fun s =>
  match s.store.read sector (s.env.ticks s.clock.steps) with
  | .ok (b, st) => .ok (b, s.step st)
  | .error e => .error ⟨e, s.history⟩

/-- `buffer_cache_write`. -/
def writeSector (sector : Nat) (buffer : Block) : Kernel Unit := fun s =>
  match s.store.write sector buffer (s.env.ticks s.clock.steps) with
  | .ok st => .ok ((), s.step st)
  | .error e => .error ⟨e, s.history⟩

end Pintos.Filesys
