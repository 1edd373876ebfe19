import Pintos.Vm.Run

/-!
# Processes in the kernel at the same time

`page_fault` runs with interrupts on, and who loads a page waits for the disk. So the faults, system
calls and exits of `vm/` come in pieces, between which other processes run. A piece ends before each
use of something that processes share: the user pool, the frame table, the swap block, and the page
directory of another process. A process in `do_evict_frame` holds `frame_lock`, and whoever needs it
waits. The other locks keep a process waiting at most, so they are left out: here it may go on.

The lists are walked with interrupts on too. A walk that comes to an entry of the frame table that
has been freed meanwhile, or looks at the page of such an entry when its process has freed that, is
not followed any further: there is no step.
-/

namespace Pintos.Vm

open Pintos.Logic

/-- What a frame is needed for. -/
inductive Request where
  /-- `page_load_file`. -/
  | file (q : SptePtr)
  /-- `page_load_swap`. -/
  | swap (q : SptePtr)
  /-- `stack_grow`, from `setup_stack` if a program is being loaded. -/
  | grow (q : SptePtr) (upage : Upage) (program : Option FileId)

def Request.spte : Request → SptePtr
  | .file q => q
  | .swap q => q
  | .grow q _ _ => q

/-- The entry and the page for which the stack grows. -/
def Request.grows : Request → Option (SptePtr × Upage)
  | .grow q u _ => some (q, u)
  | .file _ | .swap _ => none

/-- How far `free_mmap_entry` has come with a mapping. -/
structure Unmapping where
  mmapId : Nat
  upage : Upage
  left : Nat
  /-- It is called by `process_exit`. -/
  exiting : Bool

/-- What `vm_free_frame` is called for. A page cannot be brought in, or is unmapped. -/
inductive Freeing where
  | failed (r : Request)
  | unmapped (m : Unmapping) (q : SptePtr)

/-- What a process does next in the kernel. -/
inductive Task where
  /-- It is in its program, or somewhere else in the kernel. -/
  | user
  /-- `vm_get_frame`. -/
  | getFrame (r : Request)
  /-- `list_push_front` of a new frame. -/
  | pushFront (r : Request) (k : Frame)
  | tryEvictFrame (r : Request)
  | findUnaccessedPage (r : Request) (search : Option FrameTabEntry)
  | findLongestTimePage (r : Request) (search first : Option FrameTabEntry) (time : Nat)
  /-- `do_evict_frame`, with `frame_lock` from `writeOut` on. -/
  | doEvictFrame (r : Request) (f : FrameTabEntry)
  | writeOut (r : Request) (f : FrameTabEntry) (upage : Upage)
  | swapOut (r : Request) (f : FrameTabEntry) (upage : Upage)
  /-- `write_from_block`, to a slot that has been taken. -/
  | writeFromBlock (r : Request) (f : FrameTabEntry) (upage : Upage) (slot : Nat)
  | clearPage (r : Request) (f : FrameTabEntry) (upage : Upage) (slot : Option Nat)
  | pushBack (r : Request) (f : FrameTabEntry)
  /-- It holds `frame_lock` and waits for a lock that is not initialised. -/
  | hung
  /-- `file_read_at`, or `read_from_block`. -/
  | read (r : Request) (k : Frame)
  | bitmapFlip (q : SptePtr) (k : Frame) (slot : Nat)
  | installPage (r : Request) (k : Frame)
  | hashInsert (q : SptePtr) (upage : Upage) (program : Option FileId) (k : Frame)
  /-- `vm_free_frame`. -/
  | freeFrame (k : Frame) (x : Freeing)
  | freeFrameFrom (k : Frame) (e : Option FrameTabEntry) (x : Freeing)
  | unmap (m : Unmapping)
  | pagedirGetPage (m : Unmapping) (q : SptePtr)
  | hashDelete (m : Unmapping) (q : SptePtr) (clear : Bool)
  | freeSupplPageTable
  /-- `vm_clear_process_frame_table`. -/
  | clearFrameTable
  | clearFrameTableFrom (e : Option FrameTabEntry)
  | pagedirDestroy (l : List (Sigma fun _ : Upage => Pte))

def Task.isUser : Task → Bool
  | .user => true
  | _ => false

/-- The task is done with `frame_lock` taken. -/
def Task.locks : Task → Bool
  | .writeOut _ _ _ | .swapOut _ _ _ | .writeFromBlock _ _ _ _ | .clearPage _ _ _ _ | .pushBack _ _
  | .hung => true
  | _ => false

/-- The process has freed its supplemental page table, and not all of its entries in the frame
table. -/
def Task.clears : Task → Bool
  | .clearFrameTable | .clearFrameTableFrom _ => true
  | _ => false

/-- The memory, and what the processes do. -/
structure Kernel where
  vm : State
  frameLock : Option Pid
  task : Pid → Task

/-- What can happen next: a process starts to do something, or goes on with it. -/
inductive Event where
  | begin (a : Action)
  | run (p : Pid)

namespace State

/-- `bitmap_scan_and_flip` on `swap_bitmap`. -/
def bitmapScanAndFlip (s : State) : Option (Nat × State) :=
  ((List.range s.swapSize).find? fun i => !s.swapBitmap i).map fun i =>
    (i, { s with swapBitmap := Function.update s.swapBitmap i true })

/-- `write_from_block`, and the end of `do_evict_frame`'s assignment to `swap_idx`. -/
def writeFromBlock (s : State) (f : FrameTabEntry) (i : Nat) : State :=
  ({ s with swap := Function.update s.swap i (s.memory f.frame) }).setSpte f.spte fun e =>
    { e with swapIdx := i }

/-- The frame table from an entry on. -/
def framesFrom (s : State) : Option FrameTabEntry → List FrameTabEntry
  | none => []
  | some f => s.frameTable.dropWhile (· ≠ f)

/-- The entry after `f` in the frame table. -/
def nextFrame (s : State) (f : FrameTabEntry) : Option FrameTabEntry :=
  (s.framesFrom (some f)).tail.head?

/-- The walk of `vm_free_frame` from the entry `e` on. -/
def freeFrameFrom (s : State) (k : Frame) (e : Option FrameTabEntry) : Option State :=
  match (s.framesFrom e).find? (·.frame = k) with
  | none => some s
  | some f => { s with frameTable := s.frameTable.erase f }.pallocFreePage f.frame

/-- The walk of `vm_clear_process_frame_table` from the entry `e` on. -/
def clearFrameTableFrom (s : State) (p : Pid) : Option FrameTabEntry → State
  | none => s
  | some f => { s with frameTable := s.frameTable.takeWhile (· ≠ f) ++
      (s.framesFrom (some f)).filter (·.owner ≠ p) }

end State

namespace Kernel

/-- The process `p` has done a piece of its work. -/
def goes (s : Kernel) (p : Pid) (vm : State) (t : Task) : Kernel :=
  { s with vm, task := Function.update s.task p t }

/-- The entry is there, with its page. -/
def listed (s : Kernel) (f : FrameTabEntry) : Bool :=
  f ∈ s.vm.frameTable ∧ (s.task f.owner).clears = false

/-- `exit (-1)` is called. -/
def fails (s : Kernel) (p : Pid) (vm : State) : Kernel :=
  s.goes p (State.orExit p (false, vm)) .user

/-! ## What begins -/

/-- A handler brings in a page. -/
def bringIn (s : Kernel) (p : Pid) (upage : Upage) (grow : Bool) : Kernel :=
  match s.vm.lookup p upage with
  | some q =>
    s.goes p s.vm (.getFrame (if (s.vm.spte q).type = .swap then .swap q else .file q))
  | none =>
    if grow then
      s.goes p { s.vm with nextSpte := s.vm.nextSpte + 1 }
        (.getFrame (.grow s.vm.nextSpte upage none))
    else s.fails p s.vm

/-- The next call of `munmap` by `free_mmap_list`, or what `process_exit` does after it. -/
def freeMmapList (vm : State) (p : Pid) : Task :=
  match (vm.thread p).bind (·.mmapList.head?) with
  | some e => .unmap ⟨e.mmapId, e.uvaddr, e.pageNum, true⟩
  | none => .freeSupplPageTable

/-- The process that does something. -/
def process : Action → Option Pid
  | .start p _ _ | .load p _ | .store p _ _ _ | .fault p _ _ | .readFault p _ _ | .mmap p _ _
  | .munmap p _ | .exit p => some p
  | .write _ _ _ | .tick => none

def begin (s : Kernel) : Action → Option Kernel
  | .start p file phdrs => do
    guard (s.vm.thread p).isNone
    let vm := { s.vm with thread := Function.update s.vm.thread p (some {}) }
    match State.loadSegments p file phdrs vm with
    | (false, vm) => return s.fails p vm
    | (true, vm) =>
      let upage := (physBase - pgsize) / pgsize
      -- With a segment there, `setup_stack` fails, and `load` goes on with `esp` zero.
      guard (vm.lookup p upage).isNone
      return s.goes p { vm with nextSpte := vm.nextSpte + 1 }
        (.getFrame (.grow vm.nextSpte upage (some file)))
  | .fault p faultAddr esp => do
    guard (s.vm.runs p)
    let upage := faultAddr / pgsize
    if faultAddr = 0 ∨ physBase ≤ faultAddr ∨ (s.vm.pte p upage).present then
      return s.fails p s.vm
    else
      return s.bringIn p upage
        (physBase - State.stackLimit ≤ faultAddr ∧ State.nearStack faultAddr esp)
  | .readFault p faultAddr esp => do
    guard (s.vm.runs p)
    let upage := faultAddr / pgsize
    if faultAddr = 0 ∨ physBase ≤ faultAddr then return s.fails p s.vm
    else
      match s.vm.pagedirGetPage p upage with
      | some _ => return s
      | none => return s.bringIn p upage (State.nearStack faultAddr esp)
  | .munmap p mapping => do
    guard (s.vm.runs p)
    match (s.vm.thread p).bind fun t => t.mmapList.find? (·.mmapId = mapping) with
    | none => return s
    | some e => return s.goes p s.vm (.unmap ⟨mapping, e.uvaddr, e.pageNum, false⟩)
  | .exit p => do
    guard (s.vm.thread p).isSome
    let vm := s.vm.allowWrite p
    return s.goes p vm (freeMmapList vm p)
  -- What is left is done in one piece.
  | a => (a.step s.vm).map fun vm => { s with vm }

/-! ## What goes on -/

/-- A page is there: the stack of a program that has been loaded, or one for which the process can
go on. -/
def arrives (s : Kernel) (p : Pid) (vm : State) : Option FileId → Kernel
  | none => s.goes p vm .user
  | some file =>
    let vm := vm.setThread p fun t => { t with runningFile := some file }
    s.goes p (vm.setFile file fun d => { d with denyWriteCnt := d.denyWriteCnt + 1 }) .user

/-- `read` and what follows it up to the next piece. -/
def read (s : Kernel) (p : Pid) (r : Request) (k : Frame) : Kernel :=
  let vm := s.vm
  match r with
  | .file q =>
    let e := vm.spte q
    let (ofs, vm) := vm.fileReadAt e.file k e.readBytes e.offset
    if ofs ≠ e.readBytes then s.goes p vm (.freeFrame k (.failed r))
    else
      s.goes p (if 0 < e.zeroBytes then
        vm.setMemory k ((vm.memory k).splice e.readBytes e.zeroBytes fun _ => 0) else vm)
          (.installPage r k)
  | .swap q =>
    let i := (vm.spte q).swapIdx
    s.goes p (vm.setMemory k (vm.swap i)) (.bitmapFlip q k i)
  | .grow q upage _ => s.goes p (vm.setSpte q fun e => { e with
      free := false
      writable := true
      addr := upage
      type := .swap
      timestamp := vm.ticks }) (.installPage r k)

/-- `install_page`, for a page that has an entry. -/
def install (s : Kernel) (p : Pid) (r : Request) (q : SptePtr) (k : Frame) : Kernel :=
  match s.vm.installPage p (s.vm.spte q).addr k (s.vm.spte q).writable with
  | (false, vm) => s.goes p vm (.freeFrame k (.failed r))
  | (true, vm) => s.goes p (vm.setSpte q fun e => { e with free := false }) .user

/-- A frame has been freed. Without a page for the stack, `setup_stack` goes on with `esp` zero. -/
def freed (s : Kernel) (p : Pid) (vm : State) : Freeing → Option Kernel
  | .failed (.grow _ _ (some _)) => none
  | .failed _ => some (s.fails p vm)
  | .unmapped m q => some (s.goes p vm (.hashDelete m q true))

/-- The process `p` goes on. It does not where it waits for `frame_lock`, nor where the kernel
panics. -/
def run (s : Kernel) (p : Pid) : Option Kernel :=
  let vm := s.vm
  match s.task p with
  | .user | .hung => none
  | .getFrame r =>
    match vm.pallocGetPage with
    | some (k, vm) => some (s.goes p vm (.pushFront r k))
    | none => some (s.goes p vm (.tryEvictFrame r))
  | .pushFront r k => do
    guard s.frameLock.isNone
    return s.goes p { vm with frameTable := ⟨k, r.spte, p⟩ :: vm.frameTable } (.read r k)
  | .tryEvictFrame r => some (s.goes p vm (.findUnaccessedPage r vm.frameTable.head?))
  | .findUnaccessedPage r none =>
    some (s.goes p vm (.findLongestTimePage r vm.frameTable.head? none State.int64Max))
  | .findUnaccessedPage r (some f) => do
    guard (s.frameLock.isNone ∧ s.listed f)
    if vm.pagedirIsAccessed p (vm.spte f.spte).addr then
      return s.goes p (vm.setSpte f.spte fun e => { e with timestamp := vm.ticks })
        (.findUnaccessedPage r (vm.nextFrame f))
    else return s.goes p vm (.doEvictFrame r f)
  | .findLongestTimePage r (some f) first time => do
    guard (s.frameLock.isNone ∧ s.listed f)
    if (vm.spte f.spte).timestamp < time then
      return s.goes p vm
        (.findLongestTimePage r (vm.nextFrame f) (some f) (vm.spte f.spte).timestamp)
    else return s.goes p vm (.findLongestTimePage r (vm.nextFrame f) first time)
  | .findLongestTimePage r none (some f) _ => some (s.goes p vm (.doEvictFrame r f))
  | .findLongestTimePage (.grow _ _ none) none none _ => some (s.fails p vm)
  | .findLongestTimePage _ none none _ => none
  | .doEvictFrame r f => do
    guard s.frameLock.isNone
    let s := { s with frameLock := some p }
    match r with
    | .grow _ _ _ => return s.goes p vm .hung
    | _ => do
      guard (s.listed f)
      return s.goes p vm (.writeOut r f (vm.spte f.spte).addr)
  | .writeOut r f upage =>
    let e := vm.spte f.spte
    if vm.pagedirIsDirty p e.addr ∧ e.type = .mmap then
      (vm.fileWriteAt p e.file e.addr e.readBytes e.offset).map fun vm =>
        s.goes p vm (.clearPage r f upage none)
    else
      some (s.goes p (vm.setSpte f.spte fun e => { e with type := .swap }) (.swapOut r f upage))
  | .swapOut r f upage =>
    vm.bitmapScanAndFlip.map fun (i, vm) => s.goes p vm (.writeFromBlock r f upage i)
  | .writeFromBlock r f upage i =>
    some (s.goes p (vm.writeFromBlock f i) (.clearPage r f upage (some i)))
  | .clearPage r f upage _ => do
    guard (vm.thread f.owner).isSome
    return s.goes p (vm.pagedirClearPage f.owner upage) (.pushBack r f)
  | .pushBack r f =>
    let vm := { vm.setMemory f.frame Bytes.zeros with
      frameTable := vm.frameTable.erase f ++ [⟨f.frame, r.spte, p⟩] }
    some { s.goes p vm (.read r f.frame) with frameLock := none }
  | .read r k => some (s.read p r k)
  | .bitmapFlip q k i =>
    some (s.goes p { vm with swapBitmap := Function.update vm.swapBitmap i (!vm.swapBitmap i) }
      (.installPage (.swap q) k))
  | .installPage (.file q) k => some (s.install p (.file q) q k)
  | .installPage (.swap q) k => some (s.install p (.swap q) q k)
  | .installPage (.grow q upage program) k =>
    match vm.installPage p upage k true with
    | (false, vm) => some (s.goes p vm (.freeFrame k (.failed (.grow q upage program))))
    | (true, vm) => some (s.goes p vm (.hashInsert q upage program k))
  | .hashInsert q upage program k =>
    match vm.lookup p upage with
    | none => some (s.arrives p (vm.hashInsert p upage q) program)
    | some _ => some (s.goes p vm (.freeFrame k (.failed (.grow q upage program))))
  | .freeFrame k x => some (s.goes p vm (.freeFrameFrom k vm.frameTable.head? x))
  | .freeFrameFrom k e x => do
    guard (s.frameLock.isNone ∧ ∀ f ∈ e, f ∈ vm.frameTable)
    s.freed p (← vm.freeFrameFrom k e) x
  | .unmap ⟨mapping, _, 0, exiting⟩ =>
    let vm := vm.setThread p fun t =>
      { t with mmapList := t.mmapList.eraseP (·.mmapId = mapping) }
    some (s.goes p vm (if exiting then freeMmapList vm p else .user))
  | .unmap ⟨mapping, upage, n + 1, exiting⟩ =>
    match vm.lookup p upage with
    | none => some (s.goes p vm (.unmap ⟨mapping, upage + 1, n, exiting⟩))
    | some q =>
      (vm.writeBack p upage (vm.spte q)).map fun vm =>
        s.goes p vm (.pagedirGetPage ⟨mapping, upage, n, exiting⟩ q)
  | .pagedirGetPage m q =>
    let e := vm.spte q
    some (s.goes p vm (if e.free = false then
      match vm.pagedirGetPage p e.addr with
      | none => .hashDelete m q true
      | some k => .freeFrame k (.unmapped m q)
      else .hashDelete m q false))
  | .hashDelete m q clear =>
    let u := (vm.spte q).addr
    let vm := if clear then vm.pagedirClearPage p u else vm
    some (s.goes p (vm.hashDelete p u) (.unmap { m with upage := m.upage + 1 }))
  | .freeSupplPageTable =>
    some (s.goes p (vm.setThread p fun t => { t with supplPageTable := ∅ }) .clearFrameTable)
  | .clearFrameTable => some (s.goes p vm (.clearFrameTableFrom vm.frameTable.head?))
  | .clearFrameTableFrom e => do
    guard (s.frameLock.isNone ∧ ∀ f ∈ e, f ∈ vm.frameTable)
    let t ← vm.thread p
    let vm := vm.clearFrameTableFrom p e
    -- `cur->pagedir` is set to `NULL` before the page directory is destroyed.
    return s.goes p (vm.setThread p fun t => { t with pagedir := ∅ })
      (.pagedirDestroy t.pagedir.entries)
  | .pagedirDestroy [] =>
    some (s.goes p { vm with thread := Function.update vm.thread p none } .user)
  | .pagedirDestroy (v :: l) =>
    if v.2.present then
      (vm.pallocFreePage v.2.frame).map fun vm => s.goes p vm (.pagedirDestroy l)
    else some (s.goes p vm (.pagedirDestroy l))

/-- One step. A process begins nothing while it is still at something. -/
def step (s : Kernel) : Event → Option Kernel
  | .begin a => do
    guard (∀ p ∈ process a, (s.task p).isUser)
    s.begin a
  | .run p => s.run p

/-- The states of the runs whose steps all meet the condition `P`. -/
inductive Reachable (P : Kernel → Event → Prop) : Kernel → Prop where
  | init {vm : State} (h : Booted vm) : Reachable P ⟨vm, none, fun _ => .user⟩
  | step {s s' : Kernel} (e : Event) (h : Reachable P s) (cond : P s e)
      (hs : s.step e = some s') : Reachable P s'

end Kernel

end Pintos.Vm
