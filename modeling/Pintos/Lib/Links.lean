import Mathlib.Logic.Function.Basic
import Mathlib.Data.Option.Basic

/-!
# Doubly linked lists

`lib/kernel/list.c` on the links of the elements, which are given by their addresses. `none` is the
null pointer in a link. A function gives `none` where an assertion fails, where it goes through a
null pointer, or where one of its loops takes more than `fuel` rounds.
-/

namespace Pintos.Lib

/-- The `struct list_elem`s in memory. -/
structure Links (α : Type) where
  prev : α → Option α
  next : α → Option α

namespace Links

variable {α : Type} [DecidableEq α]

/-! ## Elements -/

/-- `is_head`. -/
def isHead (m : Links α) (elem : α) : Bool := (m.prev elem).isNone && (m.next elem).isSome

/-- `is_interior`. -/
def isInterior (m : Links α) (elem : α) : Bool := (m.prev elem).isSome && (m.next elem).isSome

/-- `is_tail`. -/
def isTail (m : Links α) (elem : α) : Bool := (m.prev elem).isSome && (m.next elem).isNone

/-- `list_next`. -/
def listNext (m : Links α) (elem : α) : Option α :=
  if m.isHead elem || m.isInterior elem then m.next elem else none

/-- `list_prev`. -/
def listPrev (m : Links α) (elem : α) : Option α :=
  if m.isInterior elem || m.isTail elem then m.prev elem else none

def setPrev (m : Links α) (elem : α) (link : Option α) : Links α :=
  { m with prev := Function.update m.prev elem link }

def setNext (m : Links α) (elem : α) (link : Option α) : Links α :=
  { m with next := Function.update m.next elem link }

/-- `list_insert`. -/
def listInsert (m : Links α) (before elem : α) : Option (Links α) :=
  if m.isInterior before || m.isTail before then do
    let m := m.setPrev elem (m.prev before)
    let m := m.setNext elem (some before)
    let m := m.setNext (← m.prev before) (some elem)
    return m.setPrev before (some elem)
  else none

/-- `list_splice` after its first lines, with the last element to be moved. -/
def splice (m : Links α) (before first last : α) : Option (Links α) :=
  if m.isInterior first && m.isInterior last then do
    let m := m.setNext (← m.prev first) (m.next last)
    let m := m.setPrev (← m.next last) (m.prev first)
    let m := m.setPrev first (m.prev before)
    let m := m.setNext last (some before)
    let m := m.setNext (← m.prev before) (some first)
    return m.setPrev before (some last)
  else none

/-- `list_splice`. -/
def listSplice (m : Links α) (before first last : α) : Option (Links α) :=
  if m.isInterior before || m.isTail before then
    if first = last then some m else (m.listPrev last).bind (m.splice before first)
  else none

/-! ## Ordered lists -/

/-- The loop of `is_sorted`. -/
def isSortedLoop (less : α → α → Bool) (m : Links α) : (fuel : Nat) → (a b : α) → Option Bool
  | 0, _, _ => none
  | fuel + 1, a, b => do
    let a ← m.listNext a
    if a = b then return true
    else
      let prev ← m.listPrev a
      if less a prev then return false else isSortedLoop less m fuel a b

/-- `is_sorted`. -/
def isSorted (less : α → α → Bool) (fuel : Nat) (m : Links α) (a b : α) : Option Bool :=
  if a = b then some true else isSortedLoop less m fuel a b

/-- The loop of `find_end_of_run`. -/
def endOfRunLoop (less : α → α → Bool) (m : Links α) : (fuel : Nat) → (a b : α) → Option α
  | 0, _, _ => none
  | fuel + 1, a, b => do
    let a ← m.listNext a
    if a = b then return a
    else
      let prev ← m.listPrev a
      if less a prev then return a else endOfRunLoop less m fuel a b

/-- `find_end_of_run`. -/
def findEndOfRun (less : α → α → Bool) (fuel : Nat) (m : Links α) (a b : α) : Option α :=
  if a = b then none else endOfRunLoop less m fuel a b

/-- The loop of `inplace_merge`. -/
def mergeLoop (less : α → α → Bool) : (fuel : Nat) → Links α → (a0 a1b0 b1 : α) → Option (Links α)
  | 0, _, _, _, _ => none
  | fuel + 1, m, a0, a1b0, b1 =>
    if a0 = a1b0 ∨ a1b0 = b1 then some m
    else if !less a1b0 a0 then do
      mergeLoop less fuel m (← m.listNext a0) a1b0 b1
    else do
      let a1b0 ← m.listNext a1b0
      let m ← m.listSplice a0 (← m.listPrev a1b0) a1b0
      mergeLoop less fuel m a0 a1b0 b1

/-- `inplace_merge`. -/
def inplaceMerge (less : α → α → Bool) (fuel : Nat) (m : Links α) (a0 a1b0 b1 : α) :
    Option (Links α) := do
  let sorted ← m.isSorted less fuel a0 a1b0
  let sorted' ← m.isSorted less fuel a1b0 b1
  if sorted && sorted' then mergeLoop less fuel m a0 a1b0 b1 else none

/-- The inner loop of `list_sort`, from `a0` on, and its `output_run_cnt`. -/
def mergeRuns (less : α → α → Bool) (fuel : Nat) (tail : α) :
    (rounds : Nat) → Links α → (a0 : α) → (outputRunCnt : Nat) → Option (Nat × Links α)
  | 0, _, _, _ => none
  | rounds + 1, m, a0, outputRunCnt =>
    if a0 = tail then some (outputRunCnt, m)
    else do
      let a1b0 ← m.findEndOfRun less fuel a0 tail
      if a1b0 = tail then return (outputRunCnt + 1, m)
      else
        let b1 ← m.findEndOfRun less fuel a1b0 tail
        let m ← m.inplaceMerge less fuel a0 a1b0 b1
        mergeRuns less fuel tail rounds m b1 (outputRunCnt + 1)

/-- The outer loop of `list_sort`. -/
def sortLoop (less : α → α → Bool) (fuel : Nat) (head tail : α) :
    (rounds : Nat) → Links α → Option (Links α)
  | 0, _ => none
  | rounds + 1, m => do
    let (outputRunCnt, m) ← mergeRuns less fuel tail fuel m (← m.next head) 0
    if outputRunCnt > 1 then sortLoop less fuel head tail rounds m else return m

/-- `list_sort`, on the list from `head` to `tail`. -/
def listSort (less : α → α → Bool) (fuel : Nat) (m : Links α) (head tail : α) :
    Option (Links α) := do
  let m ← sortLoop less fuel head tail fuel m
  let sorted ← m.isSorted less fuel (← m.next head) tail
  if sorted then return m else none

/-- The loop of `list_insert_ordered`. -/
def findPlace (less : α → α → Bool) (m : Links α) (tail elem : α) :
    (fuel : Nat) → (e : α) → Option α
  | 0, _ => none
  | fuel + 1, e =>
    if e = tail then some e
    else if less elem e then some e
    else do findPlace less m tail elem fuel (← m.listNext e)

/-- `list_insert_ordered`. -/
def listInsertOrdered (less : α → α → Bool) (fuel : Nat) (m : Links α) (head tail elem : α) :
    Option (Links α) := do
  let e ← m.findPlace less tail elem fuel (← m.next head)
  m.listInsert e elem

end Links

end Pintos.Lib
