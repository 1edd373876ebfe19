import Pintos.Filesys.Directory
import Pintos.Lib.String
import Pintos.Logic.Bytes
import Pintos.Userprog.Syscall

/-!
# Command lines

The way of a command line through `exec`: `process_execute`, `start_process`, `load` and
`setup_stack` of `userprog/process.c`, with the copies that they make of it and what they write to
the stack of the new process. The new thread runs when its creator waits for it.

Which allocations succeed, and what `load` finds, is chosen in advance (`Outcomes`).
-/

namespace Pintos.Args

open Pintos.Logic Pintos.Lib Pintos.Userprog

/-- A string, without the NUL at its end. -/
abbrev CString : Type := Filesys.CString

/-- `PGSIZE`. -/
def pgSize : Nat := 4096

/-- `PHYS_BASE - PGSIZE`, the page of the stack. -/
def stackPage : Nat := physBase - pgSize

/-- `TID_ERROR`. -/
abbrev tidError : Int := -1

/-- The delimiters of a command line. -/
abbrev delimiters : List UInt8 := [32]

/-- What an operation finds. -/
structure Outcomes where
  /-- Whether `process_execute` gets its pages, the thread and the `struct child_status`. -/
  fnCopy : Bool
  programName : Bool
  thread : Bool
  child : Bool
  /-- Whether `load` gets a page directory and its copy. -/
  pagedir : Bool
  loadCopy : Bool
  /-- Whether `filesys_open` finds the executable. -/
  opens : List UInt8 → Bool
  /-- Whether the header is right and the segments are loaded. -/
  segments : Bool
  /-- Whether `setup_stack` gets its page, installs it, and gets its copy. -/
  kpage : Bool
  installed : Bool
  stackCopy : Bool

/-- The state, as far as command lines are concerned. -/
structure Machine where
  /-- The pages and blocks for copies of the command line that are in use. -/
  live : List Nat
  /-- The number of the next one. -/
  next : Nat
  /-- `esp` in the interrupt frame of the new process. -/
  esp : Nat
  /-- The memory of the new process. -/
  mem : Nat → UInt8
  /-- `name` of the new thread. -/
  name : Option (List UInt8)
  /-- What `load` opens. -/
  executable : Option (List UInt8)
  /-- `load_state` of the creator, after a `sema_up` on its `load_sema`. -/
  loadState : Option Bool

/-- How a run can go wrong. -/
inductive Crash where
  | assertion
  /-- A write to user memory outside the page of the stack. -/
  | outside
  /-- A write past the end of `argvs`. -/
  | overrun
  deriving DecidableEq

/-- Code of the kernel. -/
abbrev Code (α : Type) : Type := Exec Machine Crash α

/-! ## Copies -/

/-- `palloc_get_page` or `malloc`. -/
def alloc (granted : Bool) : Code (Option Nat) :=
  if granted then do
    let b ← Exec.gets (·.next)
    Exec.modify fun m => { m with live := b :: m.live, next := b + 1 }
    return some b
  else return none

/-- `palloc_free_page` or `free`, on a pointer into a page or a block. Both assert that it points to
the beginning, and `palloc_free_page` that the page is in use. -/
def release : Option (Nat × Nat) → Code Unit
  | none => return ()
  | some (b, ofs) => do
    let live ← Exec.gets (·.live)
    if ofs = 0 ∧ b ∈ live then Exec.modify fun m => { m with live := m.live.erase b }
    else Exec.throw .assertion

/-- The string that `strlcpy` copies into a page. -/
def pageCopy (s : CString) : CString := s.part (s.bytes.take (pgSize - 1)) (List.take_subset _ _)

/-! ## The stack -/

/-- `*esp -= n`, in 32 bits. -/
def lower (n : Nat) : Code Unit :=
  Exec.modify fun m => { m with esp := if n ≤ m.esp then m.esp - n else m.esp + 2 ^ 32 - n }

/-- A write of one byte. Of the user's memory the page of the stack is written only. -/
def store (addr : Nat) (c : UInt8) : Code Unit :=
  if stackPage ≤ addr ∧ addr < physBase then
    Exec.modify fun m => { m with mem := fun a => if a = addr then c else m.mem a }
  else Exec.throw .outside

/-- `memcpy` to user memory. -/
def storeBytes : Nat → List UInt8 → Code Unit
  | _, [] => return ()
  | addr, c :: bs => do
    store addr c
    storeBytes (addr + 1) bs

/-- Bytes are put on the stack. -/
def push (bs : List UInt8) : Code Unit := do
  lower bs.length
  storeBytes (← Exec.gets (·.esp)) bs

/-- The bytes of a word. -/
def le32 (v : Nat) : List UInt8 := (List.range 4).map (Bytes.leByte v)

/-- A word is put on the stack. It may depend on the place where it is put. -/
def pushWord (v : Nat → Nat) : Code Unit := do
  lower 4
  let esp ← Exec.gets (·.esp)
  storeBytes esp (le32 (v esp))

/-- The loop over the arguments, from the saved position on. `argvs` has 128 entries. -/
def pushArgs : (fuel : Nat) → (buf : List UInt8) → (save : Nat) → (argvs : List Nat) →
    Code (List Nat)
  | 0, _, _, argvs => return argvs
  | fuel + 1, buf, save, argvs =>
    let r := strtokR delimiters buf save
    match r.1 with
    | none => return argvs
    | some argv => do
      push (cstring r.2.1 argv ++ [0])
      let esp ← Exec.gets (·.esp)
      if argvs.length < 128 then pushArgs fuel r.2.1 r.2.2 (argvs ++ [esp])
      else Exec.throw .overrun

/-- The alignment to 4. -/
def align : (fuel : Nat) → Code Unit
  | 0 => return ()
  | fuel + 1 => do
    let esp ← Exec.gets (·.esp)
    if esp % 4 ≠ 0 then
      push [0]
      align fuel
    else return ()

/-- The loop over `argvs`, from the end. -/
def pushAddresses : List Nat → Code Unit
  | [] => return ()
  | a :: rest => do
    pushWord fun _ => a
    pushAddresses rest

/-- `setup_stack`. The copy is not freed. -/
def setupStack (o : Outcomes) (fileName : CString) : Code Bool := do
  let success := o.kpage && o.installed
  if success then
    Exec.modify fun m => { m with
      esp := physBase
      mem := fun a => if stackPage ≤ a ∧ a < physBase then 0 else m.mem a }
  else pure ()
  match ← alloc o.stackCopy with
  | none => Exec.throw .assertion
  | some _ =>
    let r := strtokR delimiters (fileName.bytes ++ [0]) 0
    match r.1 with
    -- `strlen (NULL)`
    | none => Exec.throw .assertion
    | some programName => do
      push (cstring r.2.1 programName ++ [0])
      let esp ← Exec.gets (·.esp)
      let argvs ← pushArgs fileName.bytes.length r.2.1 r.2.2 [esp]
      align 4
      pushWord fun _ => 0
      pushAddresses argvs.reverse
      pushWord fun esp => esp + 4
      pushWord fun _ => argvs.length
      pushWord fun _ => 0
      return success

/-! ## Processes -/

/-- `load`. -/
def load (o : Outcomes) (fileName : CString) : Code Bool := do
  if !o.pagedir then return false
  else
    match ← alloc o.loadCopy with
    | none => Exec.throw .assertion
    | some fnCopy =>
      let r := strtokR delimiters (fileName.bytes ++ [0]) 0
      match r.1 with
      -- `filesys_open (NULL)`
      | none => Exec.throw .assertion
      | some token => do
        let name := cstring r.2.1 token
        Exec.modify fun m => { m with executable := some name }
        release (some (fnCopy, token))
        if o.opens name && o.segments then setupStack o fileName else return false

/-- `start_process`, up to the end of the thread or the switch to user mode. -/
def startProcess (o : Outcomes) (page : Nat) (fileName : CString) : Code Unit := do
  Exec.modify fun m => { m with esp := 0 }
  let success ← load o fileName
  Exec.modify fun m => { m with loadState := some success }
  release (some (page, 0))

/-- `thread_create`. The name of a thread has 15 characters. -/
def threadCreate (o : Outcomes) (name : Option (List UInt8)) : Code Bool := do
  if !o.thread then return false
  else
    match name with
    | none => Exec.throw .assertion
    | some name => do
      Exec.modify fun m => { m with name := some (name.take 15) }
      return true

/-- `process_execute`, for the thread that is given the tid `tid` if there is one: its result, and
what it has given to the new thread. -/
def processExecute (o : Outcomes) (tid : Int) (fileName : CString) :
    Code (Int × Option (Nat × CString)) := do
  match ← alloc o.fnCopy with
  | none => return (tidError, none)
  | some fnCopy =>
    match ← alloc o.programName with
    | none => do
      release (some (fnCopy, 0))
      return (tidError, none)
    | some programName => do
      let r := strtokR delimiters ((pageCopy fileName).bytes ++ [0]) 0
      let created ← threadCreate o (r.1.map (cstring r.2.1))
      release (r.1.map fun token => (programName, token))
      if !created then
        release (some (fnCopy, 0))
        return (tidError, none)
      else if o.child then return (tid, some (fnCopy, pageCopy fileName))
      else
        release (some (fnCopy, 0))
        return (tidError, some (fnCopy, pageCopy fileName))

/-- `exec`: its result, or `none` if it waits for ever, because nobody ups its `load_sema`. -/
def exec (o : Outcomes) (tid : Int) (cmdLine : CString) : Code (Option Int) := do
  let r ← processExecute o tid cmdLine
  match r.2 with
  | none => return none
  | some (page, fileName) => do
    startProcess o page fileName
    let loadState ← Exec.gets (·.loadState)
    return some (if loadState = some true then r.1 else -1)

end Pintos.Args
