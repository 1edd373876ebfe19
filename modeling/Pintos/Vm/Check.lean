import Pintos.Vm.Run

/-!
# The checks of arguments

`validate_addr`, `validate_string` and `check_read_buffer` of `syscall.c`, and which of them each
system call makes before it uses a pointer.
-/

namespace Pintos.Vm.State

open Pintos.Logic

/-- `validate_addr`. -/
def validateAddr (s : State) (cur : Pid) (ptr : Nat) : Bool :=
  ptr != 0 && (List.range 4).all fun i =>
    ptr + i < physBase && (s.pagedirGetPage cur ((ptr + i) / pgsize)).isSome

/-- `*ptr`, for a page that is present. -/
def byteAt (s : State) (cur : Pid) (ptr : Nat) : UInt8 :=
  (s.memory (s.pte cur (ptr / pgsize)).frame).byte (ptr % pgsize)

/-- The loop of `validate_string`. The fuel is the number of user addresses from `ch` on: where there
is none left `validate_addr` fails. -/
def validateStringFrom (s : State) (cur : Pid) : Nat → Nat → Bool
  | 0, _ => false
  | fuel + 1, ch =>
    if s.validateAddr cur ch then
      if s.byteAt cur ch = 0 then true else s.validateStringFrom cur fuel (ch + 1)
    else false

/-- `validate_string`. -/
def validateString (s : State) (cur : Pid) (str : Nat) : Bool :=
  str != 0 && s.validateStringFrom cur (physBase - str) str

/-- The addresses that `check_read_buffer` passes to `read_buf_page_fault_handler`. -/
def probes (buffer length : Nat) : List Nat :=
  if length < pgsize then [buffer, (buffer + length) % 2 ^ 32]
  else
    let base := buffer / pgsize * pgsize
    let pageCount := if length % pgsize = 0 then length / pgsize else length / pgsize + 1
    (List.range (pageCount + 1)).map fun i => (base + i * pgsize) % 2 ^ 32

end State

/-- The system calls that are passed a pointer, with their arguments. -/
inductive Call where
  | create (file initialSize : Nat)
  | remove (file : Nat)
  | openFile (file : Nat)
  | exec (cmdLine : Nat)
  | read (fd : Int) (buffer length : Nat)
  | write (fd : Int) (buffer length : Nat)

namespace State

end State

end Pintos.Vm
