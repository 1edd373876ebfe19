import Mathlib.Logic.Relation
import Pintos.Properties.Mappings
import Pintos.Vm.Interleaving

/-!
# One process at a time

What a fault, a system call or an exit does if it runs to its end is what the process does in its
pieces, with no other process in between. So the states of `Action.step` are states of the kernel.
-/

namespace Pintos.Vm.Kernel

open Pintos.Logic

/-- Some steps, one after the other. -/
def Steps : Kernel → Kernel → Prop := Relation.ReflTransGen fun s s' => ∃ e, s.step e = some s'

/-- The process `p` is at something, and all others are in their programs. -/
def alone (p : Pid) (vm : State) (t : Task) : Kernel where
  vm
  frameLock := if t.locks then some p else none
  task := Function.update (fun _ => .user) p t

/-- All processes are in their programs. -/
def idle (vm : State) : Kernel := ⟨vm, none, fun _ => .user⟩

variable {s s' : Kernel} {vm vm' vm₁ : State} {p : Pid} {t t' : Task} {r : Request} {q : SptePtr}
  {k : Frame} {f : FrameTabEntry} {u : Upage} {x : Freeing}

theorem Steps.trans {s'' : Kernel} (h : Steps s s') (h' : Steps s' s'') : Steps s s'' :=
  Relation.ReflTransGen.trans h h'

theorem Steps.run (h : (alone p vm t).run p = some s) (hs : Steps s s') :
    Steps (alone p vm t) s' := hs.head ⟨.run p, h⟩

theorem Reachable.steps {P : Kernel → Event → Prop} (hP : ∀ s e, P s e) (h : Reachable P s)
    (hs : Steps s s') : Reachable P s' := by
  induction hs with
  | refl => exact h
  | tail _ hstep ih =>
    obtain ⟨e, he⟩ := hstep
    exact .step e ih (hP _ e) he

end Pintos.Vm.Kernel
