import Mathlib.Data.List.Basic
import Mathlib.Tactic.Common

/-!
# Lists as arrays

A C array is a list here, and `set` and `modify` are its assignments.
-/

namespace Pintos.Logic

variable {α : Type}

theorem set_getElem?_self {l : List α} {i : Nat} {a : α} (h : l[i]? = some a) :
    l.set i a = l := by
  refine List.ext_getElem? fun j => ?_
  rw [List.getElem?_set]
  split
  · next hij =>
    subst hij
    rw [if_pos (List.getElem?_eq_some_iff.mp h).1, h]
  · rfl

theorem modify_of_getElem? {l : List α} {i : Nat} {a : α} (h : l[i]? = some a)
    (g : α → α) : l.modify i g = l.set i (g a) := by
  have hlt := (List.getElem?_eq_some_iff.mp h).1
  refine List.ext_getElem? fun j => ?_
  rw [List.getElem?_modify, List.getElem?_set]
  by_cases hij : i = j
  · subst hij
    simp only [h, if_true, if_pos hlt, Option.map_eq_map, Option.map_some]
  · simp only [if_neg hij, Option.map_eq_map, Option.map_id']

end Pintos.Logic
