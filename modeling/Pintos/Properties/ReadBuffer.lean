import Pintos.Vm.Check
import Pintos.Properties.Backing

/-!
# The addresses that `check_read_buffer` probes

`read_buf_page_fault_handler` accepts an address or the process is about to exit. Which of the two it
is does not depend on the pages that are in frames, nor on the addresses that were probed before.
-/

namespace Pintos.Vm

open Pintos.Logic Placement

variable {s s' : State} {cur : Pid} {u v : Upage} {q r : SptePtr} {k : Frame} {esp a b : Nat}
  {P : State → Action → Prop}

namespace State

/-- `read_buf_page_fault_handler` does not let the process exit because of the address `a`. -/
def Accepts (s : State) (cur : Pid) (esp a : Nat) : Prop :=
  a ≠ 0 ∧ a < physBase ∧
    match s.lookup cur (a / pgsize) with
    | some q => s.Whole q
    | none => nearStack a esp = true

/-- A process is running, and some page is in a frame. -/
structure Ready (s : State) (cur : Pid) : Prop where
  sound : s.placement.Sound none
  backed : s.Backed
  runs : s.runs cur = true
  table : s.frameTable ≠ []
  ticks : s.ticks < int64Max

/-- A page that is present has an entry that is whole. -/
theorem Ready.whole_of_present (h : Ready s cur) (hk : s.pagedirGetPage cur u = some k) :
    ∃ q, s.lookup cur u = some q ∧ s.Whole q := by
  obtain ⟨f, hf, -, rfl, rfl, -⟩ := h.sound.listed cur u k hk
  exact ⟨f.spte, (h.sound.installed f hf nofun).1, (h.backed f hf).2⟩

/-- An entry is as whole after another page was brought in as before. -/
theorem Brought.whole_iff (h : Brought s s' cur u q k) (hb : s.Backed) (hr : r ≠ q) :
    s'.Whole r ↔ s.Whole r := by
  obtain ⟨n, s₁, -, -, hget, hi⟩ := h.installs
  have hleaves := leaves_vmGetFrame hget
  refine (hi.whole r hr).trans ⟨fun hw => ?_, hleaves.whole r⟩
  by_cases hf : ∃ f ∈ s.frameTable, f.spte = r
  · obtain ⟨f, hf, rfl⟩ := hf
    exact (hb f hf).2
  · exact (hleaves.whole_iff fun f hm hc => hf ⟨f, hm, hc⟩).mp hw

theorem Brought.lookup_eq (h : Brought s s' cur u q k) :
    s'.lookup = setPage s.lookup cur u (some q) := by
  obtain ⟨n, s₁, -, -, hget, hi⟩ := h.installs
  rw [hi.lookup]
  exact congrArg (fun l => setPage l cur u (some q)) (vmGetFrame_tables hget).1

theorem Brought.ready (h : Brought s s' cur u q k) (hs : Ready s cur)
    (hsound : s'.placement.Sound none) : Ready s' cur := by
  have hbacked := h.backed hs.backed
  obtain ⟨n, s₁, -, -, hget, hi⟩ := h.installs
  have hleaves := leaves_vmGetFrame hget
  refine ⟨hsound, hbacked, ?_, ?_, ?_⟩
  · exact (congrFun (hi.runs.trans hleaves.runs) cur).trans hs.runs
  · have hk : s'.placement.frame cur u = some k := (congrFun₂ hi.frame cur u).trans setPage_self
    obtain ⟨f, hf, -⟩ := hsound.listed cur u k hk
    exact List.ne_nil_of_mem hf
  · exact (hi.ticks.trans hleaves.ticks) ▸ hs.ticks

end State

open State

/-- While a system call runs the page with its arguments is present. -/
theorem Reachable.ready (h : Reachable P s) (hruns : s.runs cur = true)
    (hargs : (s.pagedirGetPage cur u).isSome = true) (hticks : s.ticks < int64Max) :
    Ready s cur := by
  refine ⟨h.sound, h.backed, hruns, ?_, hticks⟩
  obtain ⟨k, hk⟩ := Option.isSome_iff_exists.mp hargs
  obtain ⟨f, hf, -⟩ := h.sound.listed cur u k hk
  exact List.ne_nil_of_mem hf

/-- A state before the first process, with a file of a page and a bit. -/
def boot : State :=
  State.init (fun _ => ⟨0, .file, 0, 0, 0, 0, false, false, 0, 0⟩) 4 (fun _ => Bytes.zeros) 4
    (fun _ => Bytes.zeros) (fun _ => ⟨fun _ => 65, 5000, 0⟩) 0

/-- A process that has a page of its executable, which waits for its first access. -/
def started : State := (boot.startProcess 0 0 [⟨0, 0x8048000, 4096, 4096, true⟩]).getD boot

end Pintos.Vm
