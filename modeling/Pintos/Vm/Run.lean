import Pintos.Vm.Mmap

/-!
# Runs of the virtual memory

The faults, system calls and exits of all processes, each as one step, in any order.
-/

namespace Pintos.Vm

open Pintos.Logic

/-- What can happen next. -/
inductive Action where
  /-- A new process loads an executable. -/
  | start (p : Pid) (file : FileId) (phdrs : List State.Phdr)
  /-- A user program reads from a page. -/
  | load (p : Pid) (upage : Upage)
  /-- A user program writes a byte of a page. -/
  | store (p : Pid) (upage : Upage) (ofs : Nat) (byte : UInt8)
  /-- `page_fault`. -/
  | fault (p : Pid) (faultAddr esp : Nat)
  /-- `read_buf_page_fault_handler`. -/
  | readFault (p : Pid) (faultAddr esp : Nat)
  | mmap (p : Pid) (file : FileId) (addr : Nat)
  | munmap (p : Pid) (mapping : Nat)
  | exit (p : Pid)
  /-- A system call writes to a file. -/
  | write (file : FileId) (content : Nat → UInt8) (length : Nat)
  | tick

namespace State

/-- A process runs and is not on its way to `exit (-1)`. -/
def runs (s : State) (p : Pid) : Bool := (s.thread p).any fun t => !t.exiting

/-- A user program reads from a page that is present. -/
def userLoad (s : State) (p : Pid) (u : Upage) : Option State :=
  if (s.pte p u).present then some (s.setPte p u { s.pte p u with accessed := true }) else none

/-- A user program writes to a page that is present and writable. -/
def userStore (s : State) (p : Pid) (u : Upage) (ofs : Nat) (byte : UInt8) : Option State :=
  if (s.pte p u).present ∧ (s.pte p u).writable then
    some ((s.setPte p u { s.pte p u with accessed := true, dirty := true }).setMemory
      (s.pte p u).frame ((s.memory (s.pte p u).frame).splice ofs 1 fun _ => byte))
  else none

end State

/-- One step. There is none where an action is not possible or the kernel panics. -/
def Action.step (s : State) : Action → Option State
  | .start p file phdrs => s.startProcess p file phdrs
  | .load p upage => do guard (s.runs p); s.userLoad p upage
  | .store p upage ofs byte => do guard (s.runs p); s.userStore p upage ofs byte
  | .fault p faultAddr esp => do guard (s.runs p); s.pageFault p faultAddr esp
  | .readFault p faultAddr esp => do guard (s.runs p); s.readBufPageFaultHandler p faultAddr esp
  | .mmap p file addr => do guard (s.runs p); return (← s.mmap p file addr).2
  | .munmap p mapping => do guard (s.runs p); s.munmap p mapping
  | .exit p => s.processExit p
  | .write file content length => do
    guard ((s.file file).length ≤ length ∧ (s.file file).denyWriteCnt = 0)
    return s.setFile file fun d => { d with content, length }
  | .tick => some { s with ticks := s.ticks + 1 }

/-- The state before the first process. Memory, the swap block and what `malloc` returns hold
anything. -/
def State.init (spte : SptePtr → SupplPageTableEntry) (poolSize : Nat) (memory : Frame → Page)
    (swapSize : Nat) (swap : Nat → Page) (file : FileId → FileData) (ticks : Nat) : State where
  spte
  nextSpte := 0
  thread _ := none
  frameTable := []
  poolSize
  usedMap _ := false
  memory
  swapSize
  swapBitmap _ := false
  swap
  file
  ticks

/-- A state before the first process. -/
inductive Booted : State → Prop where
  | intro (spte : SptePtr → SupplPageTableEntry) (poolSize : Nat) (memory : Frame → Page)
      (swapSize : Nat) (swap : Nat → Page) (file : FileId → FileData) (ticks : Nat) :
      Booted (State.init spte poolSize memory swapSize swap file ticks)

/-- The states of the runs whose steps all meet the condition `P`. -/
inductive Reachable (P : State → Action → Prop) : State → Prop where
  | init {s : State} (h : Booted s) : Reachable P s
  | step {s s' : State} (a : Action) (h : Reachable P s) (cond : P s a)
      (hs : a.step s = some s') : Reachable P s'

end Pintos.Vm
