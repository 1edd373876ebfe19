import Pintos.Properties.Evicting

/-!
# The pages that `check_read_buffer` brings in

With a free frame for each page that has to be brought in nothing is evicted, and the pages that were
probed are all present in the end. Whether these are the pages of the buffer depends on how the buffer
lies on the page boundaries.
-/

namespace Pintos.Vm

open Pintos.Logic Placement

variable {s s' : State} {cur p : Pid} {u v : Upage} {q : SptePtr} {k : Frame}
  {esp a buffer length : Nat} {grow : Bool} {P : State → Action → Prop}

namespace State

/-! ## One address -/

/-- The page `u` is not brought in, and gets no entry. -/
structure NotMore (s s' : State) (cur : Pid) (u : Upage) : Prop where
  frame : s.pagedirGetPage cur u = none → s'.pagedirGetPage cur u = none
  lookup : s.lookup cur u = none → s'.lookup cur u = none

theorem NotMore.refl : NotMore s s cur u := ⟨id, id⟩

theorem NotMore.trans {s'' : State} (h : NotMore s s' cur u) (h' : NotMore s' s'' cur u) :
    NotMore s s'' cur u := ⟨fun hk => h'.frame (h.frame hk), fun hl => h'.lookup (h.lookup hl)⟩

/-- Some byte of the buffer is on the page `u`. -/
def Overlaps (buffer length u : Nat) : Prop :=
  u * pgsize < buffer + length ∧ buffer < (u + 1) * pgsize

/-- The number of pages after the first that are probed, for a buffer of a page or more. -/
def pageCount (length : Nat) : Nat :=
  if length % pgsize = 0 then length / pgsize else length / pgsize + 1

/-- A page after the buffer is probed. -/
def Beyond (buffer length : Nat) : Prop :=
  if length < pgsize then (buffer + length) % pgsize = 0
  else buffer % pgsize + ((length - 1) % pgsize + 1) ≤ pgsize

instance : Decidable (Beyond buffer length) :=
  inferInstanceAs (Decidable (if length < pgsize then (buffer + length) % pgsize = 0
    else buffer % pgsize + ((length - 1) % pgsize + 1) ≤ pgsize))

/-- The page after the buffer. -/
def pageAfter (buffer length : Nat) : Nat := (buffer + length - 1) / pgsize + 1

/-- A page of the buffer can be used: it is a user page that is present, or has an entry, or is where
the stack may grow when its first byte in the buffer is accessed. -/
def Usable (s : State) (cur : Pid) (esp buffer u : Nat) : Prop :=
  u * pgsize < physBase ∧ (s.pagedirGetPage cur u ≠ none ∨ s.lookup cur u ≠ none ∨
    nearStack (max buffer (u * pgsize)) esp = true)

/-- The handler accepts what it should, the page after the buffer is not probed, or is present
already, and no page of the buffer is evicted for another. If some page of the buffer cannot be used,
the handler refuses an address. -/
def Tells (s : State) (cur : Pid) (esp buffer length : Nat) : Prop :=
  (∀ u, Overlaps buffer length u → s.Usable cur esp buffer u) ∧
      (∀ a ∈ probes buffer length, s.Accepts cur esp a) ∧
      (Beyond buffer length → s.pagedirGetPage cur (pageAfter buffer length) ≠ none) ∧
      Spared cur esp [] (probes buffer length) s ∨
    (∃ u, Overlaps buffer length u ∧ ¬s.Usable cur esp buffer u) ∧
      ∃ a ∈ probes buffer length, ¬s.Accepts cur esp a

/-- There are frames, and what is probed tells what the pages of the buffer do. -/
def Exact (s : State) (cur : Pid) (esp buffer length : Nat) : Prop :=
  Served cur esp (probes buffer length) s ∧ s.Tells cur esp buffer length

end State

open State

end Pintos.Vm
