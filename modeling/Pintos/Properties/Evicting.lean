import Pintos.Properties.ReadBuffer

/-!
# Frames for the pages that are probed

Where no frame is free a handler evicts a page for the one it brings in. It does not return if the
page cannot be written out, nor if it makes a new page of the stack. This module says when it returns,
and which page loses its frame.
-/

namespace Pintos.Vm

open Pintos.Logic Placement

variable {s s' : State} {cur p : Pid} {u v : Upage} {q : SptePtr} {k : Frame} {f : FrameTabEntry}
  {esp a : Nat} {grow : Bool} {P : State → Action → Prop}

namespace State

/-! ## Eviction -/

/-- A page can be written out: to its file, where nothing is written or the running process has a page
at its address, or to a free slot. -/
def CanPageOut (s : State) (cur : Pid) (f : FrameTabEntry) : Prop :=
  let e := s.spte f.spte
  if s.pagedirIsDirty cur e.addr ∧ e.type = .mmap then
    ((s.file e.file).denyWriteCnt ≠ 0 ∨ (s.file e.file).left e.readBytes e.offset = 0) ∨
      (s.pte cur e.addr).present = true
  else ∃ i < s.swapSize, s.swapBitmap i = false

instance : Decidable (s.CanPageOut cur f) := by
  unfold CanPageOut
  infer_instance

/-- The page `u` of the running process is not the one that is evicted. -/
def Spares (s : State) (cur : Pid) (u : Upage) : Prop :=
  ∀ f ∈ s.evicted cur, f.owner = cur → (s.spte f.spte).addr ≠ u

instance : Decidable (s.Spares cur u) :=
  inferInstanceAs (Decidable (∀ f ∈ s.evicted cur, _))

/-- A frame for the page `u` can be had, if one is needed. -/
def HasFrame (s : State) (cur : Pid) (u : Upage) (grow : Bool) : Prop :=
  ∀ f ∈ s.evicted cur, if (s.lookup cur u).isSome then s.CanPageOut cur f else grow = false

instance : Decidable (s.HasFrame cur u grow) :=
  inferInstanceAs (Decidable (∀ f ∈ s.evicted cur, _))

/-- The handler returns for the address `a`. -/
def Serves (s : State) (cur : Pid) (esp a : Nat) : Prop :=
  (a = 0 ∨ physBase ≤ a) ∨ s.pagedirGetPage cur (a / pgsize) ≠ none ∨
    s.HasFrame cur (a / pgsize) (nearStack a esp)

instance : Decidable (s.Serves cur esp a) := inferInstanceAs (Decidable (_ ∨ _ ∨ _))

/-- There is a frame for every page that has to be brought in, up to the first address that is
refused. -/
def Served (cur : Pid) (esp : Nat) : List Nat → State → Prop
  | [], _ => True
  | a :: l, s => s.Serves cur esp a ∧ ∀ s' ∈ s.readBufPageFaultHandler cur a esp,
      s'.runs cur = true → Served cur esp l s'

instance Served.decidable : ∀ (l : List Nat) (s : State), Decidable (Served cur esp l s)
  | [], _ => .isTrue trivial
  | a :: l, s =>
    have := Served.decidable l
    inferInstanceAs (Decidable (s.Serves cur esp a ∧ ∀ s' ∈ s.readBufPageFaultHandler cur a esp, _))

/-- No page of `seen`, and none that is probed, is evicted for one that is probed after it. -/
def Spared (cur : Pid) (esp : Nat) : List Upage → List Nat → State → Prop
  | _, [], _ => True
  | seen, a :: l, s =>
    (s.pagedirGetPage cur (a / pgsize) = none → ∀ u ∈ seen, s.Spares cur u) ∧
      ∀ s' ∈ s.readBufPageFaultHandler cur a esp, Spared cur esp (a / pgsize :: seen) l s'

instance Spared.decidable : ∀ (seen : List Upage) (l : List Nat) (s : State),
    Decidable (Spared cur esp seen l s)
  | _, [], _ => .isTrue trivial
  | seen, a :: l, s =>
    have := Spared.decidable (a / pgsize :: seen) l
    inferInstanceAs (Decidable ((_ → ∀ u ∈ seen, s.Spares cur u) ∧
      ∀ s' ∈ s.readBufPageFaultHandler cur a esp, _))

end State

end Pintos.Vm
