import Mathlib.Data.List.Basic
import Mathlib.Tactic.Common

/-!
# Ordered lists

`lib/kernel/list.c`: insertion into an ordered list, and sorting.
-/

namespace Pintos.Lib

variable {α : Type}

/-- `list_insert_ordered`: before the first element that `elem` is less than. -/
def listInsertOrdered (less : α → α → Bool) (elem : α) : List α → List α
  | [] => [elem]
  | e :: list => if less elem e then elem :: e :: list else e :: listInsertOrdered less elem list

/-- `list_sort`, which keeps the order of elements that are not less than each other. -/
def listSort (less : α → α → Bool) : List α → List α
  | [] => []
  | elem :: list => listInsertOrdered (fun a b => !less b a) elem (listSort less list)

theorem listInsertOrdered_perm (less : α → α → Bool) (elem : α) (list : List α) :
    (listInsertOrdered less elem list).Perm (elem :: list) := by
  induction list with
  | nil => exact List.Perm.refl _
  | cons e list ih =>
    rw [listInsertOrdered]
    split
    · exact List.Perm.refl _
    · exact (ih.cons e).trans (List.Perm.swap elem e list)

theorem listSort_perm (less : α → α → Bool) (list : List α) : (listSort less list).Perm list := by
  induction list with
  | nil => exact List.Perm.refl _
  | cons e list ih => exact (listInsertOrdered_perm _ e _).trans (ih.cons e)

theorem mem_listInsertOrdered {less : α → α → Bool} {elem a : α} {list : List α} :
    a ∈ listInsertOrdered less elem list ↔ a = elem ∨ a ∈ list :=
  (listInsertOrdered_perm less elem list).mem_iff.trans List.mem_cons

theorem foldl_insert_perm (less : α → α → Bool) (list elems : List α) :
    (elems.foldl (fun list a => listInsertOrdered less a list) list).Perm (list ++ elems) := by
  induction elems generalizing list with
  | nil => rw [List.foldl_nil, List.append_nil]
  | cons a elems ih =>
    have hinsert := (listInsertOrdered_perm less a list).append_right elems
    exact (ih _).trans (hinsert.trans List.perm_middle.symm)

theorem mem_listSort {less : α → α → Bool} {a : α} {list : List α} :
    a ∈ listSort less list ↔ a ∈ list :=
  (listSort_perm less list).mem_iff

theorem listInsertOrdered_ne_nil (less : α → α → Bool) (elem : α) (list : List α) :
    listInsertOrdered less elem list ≠ [] := by
  cases list with
  | nil => simp [listInsertOrdered]
  | cons e list =>
    rw [listInsertOrdered]
    split <;> simp

theorem listSort_eq_nil {less : α → α → Bool} {list : List α} :
    listSort less list = [] ↔ list = [] := by
  cases list with
  | nil => simp [listSort]
  | cons e list => simp [listSort, listInsertOrdered_ne_nil]

/-- An order given by a key, the greatest first. -/
def decreasing (key : α → Int) (a b : α) : Bool := key b < key a

/-- Inserting keeps the greatest key in front. -/
theorem head_listInsertOrdered {key : α → Int} {elem m : α} {list : List α}
    (h : ∀ m, list.head? = some m → ∀ a ∈ list, key a ≤ key m)
    (hm : (listInsertOrdered (fun a b => !decreasing key b a) elem list).head? = some m) :
    ∀ a ∈ listInsertOrdered (fun a b => !decreasing key b a) elem list, key a ≤ key m := by
  intro a ha
  rw [mem_listInsertOrdered] at ha
  cases list with
  | nil =>
    cases hm
    rcases ha with rfl | ha
    · exact Int.le_refl _
    · cases ha
  | cons e list =>
    have he := h e rfl
    rw [listInsertOrdered] at hm
    split at hm
    · next hle =>
      have hle : key e ≤ key elem := by simpa [decreasing] using hle
      rw [← Option.some.inj hm]
      rcases ha with rfl | ha
      · exact Int.le_refl _
      · exact Int.le_trans (he a ha) hle
    · next hlt =>
      have hlt : key elem < key e := by simpa [decreasing] using hlt
      rw [← Option.some.inj hm]
      rcases ha with rfl | ha
      · exact Int.le_of_lt hlt
      · exact he a ha

/-- The front of a sorted list has the greatest key. -/
theorem head_listSort {key : α → Int} {m : α} {list : List α}
    (hm : (listSort (decreasing key) list).head? = some m) {a : α} (ha : a ∈ list) :
    key a ≤ key m := by
  have h : ∀ m, (listSort (decreasing key) list).head? = some m →
      ∀ a ∈ listSort (decreasing key) list, key a ≤ key m := by
    clear hm ha
    induction list with
    | nil => intro m hm; cases hm
    | cons e list ih => exact fun m hm => head_listInsertOrdered ih hm
  exact h m hm a (mem_listSort.mpr ha)

/-- The greatest keys come first. -/
abbrev Decreasing (key : α → Int) (list : List α) : Prop :=
  list.Pairwise fun a b => key b ≤ key a

theorem decreasing_listInsertOrdered {key : α → Int} {less : α → α → Bool} {elem : α}
    {list : List α} (hlt : ∀ e, less elem e = true → key e ≤ key elem)
    (hge : ∀ e, less elem e = false → key elem ≤ key e) (h : Decreasing key list) :
    Decreasing key (listInsertOrdered less elem list) := by
  induction h with
  | nil => simp [listInsertOrdered]
  | @cons e list he h ih =>
    rw [listInsertOrdered]
    split
    · next hless =>
      refine .cons (fun a ha => ?_) (.cons he h)
      rcases List.mem_cons.mp ha with rfl | ha
      · exact hlt _ hless
      · exact Int.le_trans (he a ha) (hlt _ hless)
    · next hless =>
      refine .cons (fun a ha => ?_) ih
      rcases mem_listInsertOrdered.mp ha with rfl | ha
      · exact hge _ (by simpa using hless)
      · exact he a ha

/-- Insertion by a key keeps a list in order. -/
theorem Decreasing.insert {key : α → Int} {elem : α} {list : List α} (h : Decreasing key list) :
    Decreasing key (listInsertOrdered (decreasing key) elem list) := by
  refine decreasing_listInsertOrdered (fun e he => ?_) (fun e he => ?_) h
  · have : key e < key elem := by simpa [decreasing] using he
    omega
  · have : key elem ≤ key e := by simpa [decreasing] using he
    exact this

/-- `R` holds of two elements in the order in which insertion by a key leaves them, where the second
is put in after the first. -/
def Arranged (key : α → Int) (R : α → α → Prop) (a b : α) : Prop :=
  if key a < key b then R b a else R a b

instance {key : α → Int} {R : α → α → Prop} [DecidableRel R] : DecidableRel (Arranged key R) :=
  fun a b => inferInstanceAs (Decidable (if key a < key b then R b a else R a b))

theorem pairwise_arranged {key : α → Int} {R : α → α → Prop} {list : List α}
    (h : Decreasing key list) : list.Pairwise (Arranged key R) ↔ list.Pairwise R := by
  have hpair : ∀ {a b}, key b ≤ key a → (Arranged key R a b ↔ R a b) := by
    intro a b hle
    rw [Arranged, if_neg (Int.not_lt.mpr hle)]
  constructor
  · exact fun ha => (h.and ha).imp fun ⟨hle, ha⟩ => (hpair hle).mp ha
  · exact fun hr => (h.and hr).imp fun ⟨hle, hr⟩ => (hpair hle).mpr hr

theorem pairwise_listInsertOrdered {key : α → Int} {R : α → α → Prop} {elem : α} {list : List α}
    (h : Decreasing key list) : (listInsertOrdered (decreasing key) elem list).Pairwise R ↔
      list.Pairwise R ∧ ∀ a ∈ list, Arranged key R a elem := by
  induction h with
  | nil => simp [listInsertOrdered]
  | @cons e list he h ih =>
    rw [listInsertOrdered]
    split
    · next hlt =>
      have hlt : key e < key elem := by simpa [decreasing] using hlt
      have hall : ∀ a ∈ e :: list, Arranged key R a elem ↔ R elem a := by
        intro a ha
        rw [Arranged, if_pos]
        rcases List.mem_cons.mp ha with rfl | ha
        · exact hlt
        · exact Int.lt_of_le_of_lt (he a ha) hlt
      rw [List.pairwise_cons, and_comm]
      exact and_congr_right fun _ => forall₂_congr fun a ha => (hall a ha).symm
    · next hge =>
      have hge : key elem ≤ key e := by simpa [decreasing] using hge
      have he' : Arranged key R e elem ↔ R e elem := by
        rw [Arranged, if_neg (Int.not_lt.mpr hge)]
      simp only [List.pairwise_cons, ih, mem_listInsertOrdered, List.forall_mem_cons, forall_eq_or_imp,
        he']
      tauto

/-- What insertion one by one leaves of a relation between the elements, told from the order in which
they come. -/
theorem pairwise_foldl_insert {key : α → Int} {R : α → α → Prop} {list elems : List α}
    (h : Decreasing key list) :
    (elems.foldl (fun list a => listInsertOrdered (decreasing key) a list) list).Pairwise R ↔
      (list ++ elems).Pairwise (Arranged key R) := by
  induction elems generalizing list with
  | nil => rw [List.foldl_nil, List.append_nil, pairwise_arranged h]
  | cons a elems ih =>
    rw [List.foldl_cons, ih h.insert]
    simp only [List.pairwise_append, List.pairwise_cons, pairwise_arranged h.insert,
      pairwise_arranged h, pairwise_listInsertOrdered h, mem_listInsertOrdered, List.mem_cons,
      forall_eq_or_imp]
    constructor
    · rintro ⟨⟨hlist, hlast⟩, helems, hnext, hacross⟩
      exact ⟨hlist, ⟨hnext, helems⟩, fun b hb => ⟨hlast b hb, hacross b hb⟩⟩
    · rintro ⟨hlist, ⟨hnext, helems⟩, hacross⟩
      exact ⟨⟨hlist, fun b hb => (hacross b hb).1⟩, helems, hnext, fun b hb => (hacross b hb).2⟩

/-- Sorting by a key puts a list in order. -/
theorem decreasing_listSort (key : α → Int) (list : List α) :
    Decreasing key (listSort (decreasing key) list) := by
  induction list with
  | nil => exact .nil
  | cons e list ih =>
    refine decreasing_listInsertOrdered (fun a ha => ?_) (fun a ha => ?_) ih
    · have : key a ≤ key e := by simpa [decreasing] using ha
      exact this
    · have : key e < key a := by simpa [decreasing] using ha
      omega

/-- Only the keys of its elements matter for the order of a list. -/
theorem Decreasing.congr {key key' : α → Int} {list : List α} (h : Decreasing key list)
    (hkey : ∀ a ∈ list, key' a = key a) : Decreasing key' list :=
  h.imp_of_mem fun ha hb hle => by rw [hkey _ ha, hkey _ hb]; exact hle

/-! ## Walks

A walk that other threads can run into holds a pointer to an element.
-/

variable [DecidableEq α]

/-- The elements from `elem` on. -/
def listFrom (elem : α) (list : List α) : List α := list.dropWhile (· ≠ elem)

/-- `list_next`, or `none` if `elem` is the last element. -/
def listNext (elem : α) (list : List α) : Option α := (listFrom elem list).tail.head?

theorem listFrom_cons (elem e : α) (list : List α) :
    listFrom elem (e :: list) = if e = elem then e :: list else listFrom elem list := by
  by_cases h : e = elem <;> simp [listFrom, h]

theorem listFrom_head {elem : α} {list : List α} (h : list.head? = some elem) :
    listFrom elem list = list := by
  cases list with
  | nil => rfl
  | cons e list => rw [listFrom_cons, if_pos (by simpa using h)]

theorem listFrom_sublist (elem : α) (list : List α) : (listFrom elem list).Sublist list :=
  List.dropWhile_sublist _

theorem listFrom_eq {elem : α} {list : List α} (h : elem ∈ list) :
    listFrom elem list = elem :: (listFrom elem list).tail := by
  induction list with
  | nil => simp at h
  | cons e list ih =>
    rw [listFrom_cons]
    split
    · next he => rw [he, List.tail_cons]
    · next he => exact ih (by simpa [Ne.symm he] using h)

theorem listFrom_append {elem : α} {list : List α} (h : elem ∈ list) (list' : List α) :
    listFrom elem (list ++ list') = listFrom elem list ++ list' := by
  induction list with
  | nil => simp at h
  | cons e list ih =>
    rw [List.cons_append, listFrom_cons, listFrom_cons]
    split
    · rfl
    · next he => exact ih (by simpa [Ne.symm he] using h)

/-- A removal ahead of a walk takes nothing else from it. -/
theorem mem_listFrom_erase {elem gone e : α} {list : List α} (hg : gone ≠ elem) (he : e ≠ gone)
    (h : e ∈ listFrom elem list) : e ∈ listFrom elem (list.erase gone) := by
  induction list with
  | nil => simp [listFrom] at h
  | cons a list ih =>
    rw [listFrom_cons] at h
    rw [List.erase_cons]
    split at h
    · next ha =>
      rw [if_neg (by simpa [ha] using Ne.symm hg), listFrom_cons, if_pos ha]
      rcases List.mem_cons.mp h with h | h
      · rw [h]
        exact List.mem_cons_self
      · exact List.mem_cons_of_mem _ ((List.mem_erase_of_ne he).mpr h)
    · next ha =>
      split
      · exact h
      · rw [listFrom_cons, if_neg ha]
        exact ih h

/-- One step of a walk leaves the element it stood on behind. -/
theorem listFrom_next {elem e : α} {list : List α} (hn : list.Nodup)
    (h : listNext elem list = some e) : listFrom e list = (listFrom elem list).tail := by
  induction list with
  | nil => simp [listNext, listFrom] at h
  | cons a list ih =>
    rw [List.nodup_cons] at hn
    rw [listNext, listFrom_cons] at h
    rw [listFrom_cons, listFrom_cons]
    split at h
    · next ha =>
      rw [List.tail_cons] at h
      have hne : a ≠ e := fun hae => hn.1 (hae ▸ List.mem_of_mem_head? h)
      rw [if_neg hne, if_pos ha, List.tail_cons, listFrom_head h]
    · next ha =>
      have hin : e ∈ list :=
        (listFrom_sublist elem list).subset (List.mem_of_mem_tail (List.mem_of_mem_head? h))
      rw [if_neg (fun hae : a = e => hn.1 (hae ▸ hin)), if_neg ha]
      exact ih hn.2 h

/-- At the last element, nothing else is ahead. -/
theorem mem_listFrom_last {elem e : α} {list : List α} (h : elem ∈ list)
    (hl : listNext elem list = none) (he : e ∈ listFrom elem list) : e = elem := by
  rw [listFrom_eq h] at he
  rw [listNext, List.head?_eq_none_iff] at hl
  simpa [hl] using he

end Pintos.Lib
