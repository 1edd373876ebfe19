import Pintos.Lib.List
import Mathlib.Data.List.Basic

/-!
# Stable sorting

`list_sort` of `lib/kernel/list.c` is a natural merge sort. Under an order that is given by a key it
comes to the same list as `listSort`, which is simpler to reason about.
-/

namespace Pintos.Lib

variable {α : Type} {key : α → Int} {list list' as bs : List α} {a b : α}

/-! ## The sort of the source -/

/-- `find_end_of_run`, which starts behind `a`: the rest of the run and what comes after it. -/
def findEndOfRun (less : α → α → Bool) : (a : α) → List α → List α × List α
  | _, [] => ([], [])
  | a, b :: list =>
    if less b a then ([], b :: list)
    else
      let (run, rest) := findEndOfRun less b list
      (b :: run, rest)

/-- `inplace_merge`. -/
def inplaceMerge (less : α → α → Bool) (as bs : List α) : List α :=
  as.merge bs fun a b => !less b a

/-- The inner loop of `list_sort`, which merges the runs in pairs. Returns `output_run_cnt` too. -/
def mergeRuns (less : α → α → Bool) : (fuel : Nat) → List α → Nat × List α
  | 0, list => (0, list)
  | _ + 1, [] => (0, [])
  | fuel + 1, a :: list =>
    match findEndOfRun less a list with
    | (run, []) => (1, a :: run)
    | (run, b :: list) =>
      let (run', rest) := findEndOfRun less b list
      let (cnt, list) := mergeRuns less fuel rest
      (cnt + 1, inplaceMerge less (a :: run) (b :: run') ++ list)

/-- The outer loop of `list_sort`. -/
def mergeSortLoop (less : α → α → Bool) : (fuel : Nat) → List α → List α
  | 0, list => list
  | fuel + 1, list =>
    let (cnt, list) := mergeRuns less list.length list
    if 1 < cnt then mergeSortLoop less fuel list else list

/-- `list_sort`. Each round of its outer loop makes the runs fewer. -/
def mergeSort (less : α → α → Bool) (list : List α) : List α :=
  mergeSortLoop less (list.length + 1) list

/-! ## Lists with the same elements of each key -/

/-- The elements of each key are the same, in the same order. -/
def Alike (key : α → Int) (list list' : List α) : Prop :=
  ∀ k, list'.filter (key · = k) = list.filter (key · = k)

theorem Alike.refl (key : α → Int) (list : List α) : Alike key list list := fun _ => rfl

theorem Alike.trans {list'' : List α} (h : Alike key list list') (h' : Alike key list' list'') :
    Alike key list list'' := fun k => (h' k).trans (h k)

theorem Alike.append {bs' as' : List α} (h : Alike key as as') (h' : Alike key bs bs') :
    Alike key (as ++ bs) (as' ++ bs') := by
  intro k
  rw [List.filter_append, List.filter_append, h k, h' k]

theorem Alike.cons (a : α) (h : Alike key list list') : Alike key (a :: list) (a :: list') :=
  Alike.append (Alike.refl key [a]) h

theorem Alike.mem (h : Alike key list list') (ha : a ∈ list) : a ∈ list' := by
  have hk : a ∈ list'.filter (key · = key a) := by
    rw [h]
    exact List.mem_filter.mpr ⟨ha, by simp⟩
  exact (List.mem_filter.mp hk).1

theorem Alike.perm [DecidableEq α] (h : Alike key list list') : list'.Perm list := by
  refine List.perm_iff_count.mpr fun a => ?_
  have hcount : ∀ l : List α, (l.filter (key · = key a)).count a = l.count a := fun l =>
    List.count_filter (by simp)
  rw [← hcount list', h, hcount list]

/-- Only the keys of the elements matter. -/
theorem Alike.congr {key' : α → Int} (h : Alike key list list')
    (hkey : ∀ a ∈ list, key' a = key a) : Alike key' list list' := by
  intro k
  have hkey' : ∀ a ∈ list', key' a = key a := fun a ha => by
    have hback : a ∈ list := Alike.mem (fun k => (h k).symm) ha
    exact hkey a hback
  rw [List.filter_congr fun a ha => by rw [hkey' a ha], h k]
  exact List.filter_congr fun a ha => by rw [hkey a ha]

/-- An element may move past those of smaller keys. -/
theorem alike_swap (h : ∀ a ∈ as, key a < key b) : Alike key (as ++ [b]) (b :: as) := by
  intro k
  rw [List.filter_append, List.filter_cons]
  split
  · next hb =>
    have hb : key b = k := of_decide_eq_true hb
    have hnil : as.filter (key · = k) = [] := by
      rw [List.filter_eq_nil_iff]
      intro a ha
      have := h a ha
      simp only [decide_eq_true_eq]
      omega
    rw [hnil, List.filter_cons, if_pos (decide_eq_true hb)]
    rfl
  · next hb =>
    rw [List.filter_cons, if_neg hb, List.filter_nil, List.append_nil]

/-- There is one order for each list. -/
theorem Alike.eq (h : Alike key list list') (hs : Decreasing key list)
    (hs' : Decreasing key list') : list' = list := by
  induction list generalizing list' with
  | nil =>
    cases list' with
    | nil => rfl
    | cons b list' =>
      have hb := h (key b)
      rw [List.filter_cons, if_pos (by simp)] at hb
      cases hb
  | cons a list ih =>
    have hmem : a ∈ list' := h.mem List.mem_cons_self
    cases list' with
    | nil => cases hmem
    | cons b list' =>
      have hsym : Alike key (b :: list') (a :: list) := fun k => (h k).symm
      have hba : key b ≤ key a := by
        rcases List.mem_cons.mp (hsym.mem List.mem_cons_self) with rfl | hb
        · exact Int.le_refl _
        · exact (List.pairwise_cons.mp hs).1 b hb
      have hab : key a ≤ key b := by
        rcases List.mem_cons.mp hmem with rfl | ha
        · exact Int.le_refl _
        · exact (List.pairwise_cons.mp hs').1 a ha
      have hfront := h (key a)
      rw [List.filter_cons, List.filter_cons, if_pos (decide_eq_true (Int.le_antisymm hba hab)),
        if_pos (by simp)] at hfront
      obtain ⟨rfl, -⟩ := List.cons.inj hfront
      refine congrArg (b :: ·) (ih (fun k => ?_) (List.pairwise_cons.mp hs).2
        (List.pairwise_cons.mp hs').2)
      have hk := h k
      rw [List.filter_cons, List.filter_cons] at hk
      split at hk
      · exact (List.cons.inj hk).2
      · exact hk

/-! ## Insertion -/

theorem alike_listInsertOrdered {less : α → α → Bool}
    (h : ∀ e, less a e = false → key e ≠ key a) (list : List α) :
    Alike key (a :: list) (listInsertOrdered less a list) := by
  induction list with
  | nil => exact Alike.refl key [a]
  | cons e list ih =>
    rw [listInsertOrdered]
    split
    · exact Alike.refl key _
    · next hless =>
      have hne := h e (by simpa using hless)
      have hswap : Alike key (a :: e :: list) (e :: a :: list) := fun k => by
        simp only [List.filter_cons]
        split <;> split <;> simp_all
      exact hswap.trans (ih.cons e)

/-- An element that is inserted into an ordered list comes after those of its key. -/
theorem Decreasing.alike_insert (h : Decreasing key list) (a : α) :
    Alike key (list ++ [a]) (listInsertOrdered (decreasing key) a list) := by
  induction h with
  | nil => exact Alike.refl key [a]
  | @cons e list he h ih =>
    rw [listInsertOrdered]
    split
    · next hless =>
      have hless : key e < key a := by simpa [decreasing] using hless
      refine alike_swap fun b hb => ?_
      rcases List.mem_cons.mp hb with rfl | hb
      · exact hless
      · exact Int.lt_of_le_of_lt (he b hb) hless
    · exact ih.cons e

/-- `listSort` keeps the order of elements that have the same key. -/
theorem alike_listSort (key : α → Int) (list : List α) :
    Alike key list (listSort (decreasing key) list) := by
  induction list with
  | nil => exact Alike.refl key []
  | cons a list ih =>
    refine (ih.cons a).trans (alike_listInsertOrdered (fun e he => ?_) _)
    have hlt : key a < key e := by simpa [decreasing] using he
    omega

/-! ## Merging -/

theorem alike_inplaceMerge (ha : Decreasing key as) :
    Alike key (as ++ bs) (inplaceMerge (decreasing key) as bs) := by
  induction as generalizing bs with
  | nil =>
    rw [inplaceMerge, List.nil_merge]
    exact Alike.refl key _
  | cons a as ih =>
    obtain ⟨hle, has⟩ := List.pairwise_cons.mp ha
    induction bs with
    | nil =>
      rw [inplaceMerge, List.merge_right, List.append_nil]
      exact Alike.refl key _
    | cons b bs ihb =>
      rw [inplaceMerge, List.cons_merge_cons]
      split
      · exact Alike.cons a (ih has)
      · next hb =>
        have hb : key a < key b := by simpa [decreasing] using hb
        have hsmall : ∀ e ∈ a :: as, key e < key b := by
          intro e he
          rcases List.mem_cons.mp he with rfl | he
          · exact hb
          · exact Int.lt_of_le_of_lt (hle e he) hb
        have hswap := (alike_swap hsmall).append (Alike.refl key bs)
        rw [List.append_assoc] at hswap
        exact hswap.trans (ihb.cons b)

theorem decreasing_inplaceMerge (ha : Decreasing key as) (hb : Decreasing key bs) :
    Decreasing key (inplaceMerge (decreasing key) as bs) := by
  have hmerge := @List.pairwise_merge _ (fun a b => !decreasing key b a)
    (fun a b c hab hbc => ?_) (fun a b => ?_) as bs (ha.imp fun h => ?_) (hb.imp fun h => ?_)
  · exact hmerge.imp fun h => by simpa [decreasing] using h
  · simp only [decreasing, Bool.not_eq_true', decide_eq_false_iff_not, Int.not_lt] at *
    omega
  · simp only [decreasing, Bool.or_eq_true, Bool.not_eq_true', decide_eq_false_iff_not, Int.not_lt]
    omega
  · simpa [decreasing] using h
  · simpa [decreasing] using h

/-! ## Runs -/

/-- The places in a list where a run ends and another one starts. -/
def drops (less : α → α → Bool) : List α → Nat
  | a :: b :: list => (if less b a then 1 else 0) + drops less (b :: list)
  | _ => 0

theorem drops_append_le (less : α → α → Bool) (as bs : List α) :
    drops less (as ++ bs) ≤ drops less as + drops less bs + 1 := by
  induction as with
  | nil => exact Nat.le_trans (Nat.le_add_left _ _) (Nat.le_succ _)
  | cons a as ih =>
    cases as with
    | nil =>
      cases bs with
      | nil => exact Nat.zero_le _
      | cons b bs =>
        simp only [List.cons_append, List.nil_append, drops]
        split <;> omega
    | cons a' as =>
      simp only [List.cons_append, drops] at ih ⊢
      omega

theorem drops_le_length (less : α → α → Bool) (list : List α) : drops less list ≤ list.length := by
  induction list with
  | nil => exact Nat.le_refl _
  | cons a list ih =>
    cases list with
    | nil => exact Nat.zero_le _
    | cons b list =>
      simp only [drops, List.length_cons] at ih ⊢
      split <;> omega

/-- A list without a drop is one run. -/
theorem drops_eq_zero : drops (decreasing key) list = 0 ↔ Decreasing key list := by
  induction list with
  | nil => simp [drops]
  | cons a list ih =>
    cases list with
    | nil => simp [drops]
    | cons b list =>
      rw [drops, Nat.add_eq_zero_iff, ih]
      constructor
      · rintro ⟨hab, hlist⟩
        have hab : key b ≤ key a := by
          split at hab
          · cases hab
          · next h => simpa [decreasing] using h
        refine .cons (fun e he => ?_) hlist
        rcases List.mem_cons.mp he with rfl | he
        · exact hab
        · exact Int.le_trans ((List.pairwise_cons.mp hlist).1 e he) hab
      · intro h
        obtain ⟨hle, hlist⟩ := List.pairwise_cons.mp h
        have hab := hle b List.mem_cons_self
        exact ⟨if_neg (by simpa [decreasing] using hab), hlist⟩

/-- What `find_end_of_run` finds. -/
structure IsRun (less : α → α → Bool) (a : α) (list run rest : List α) : Prop where
  append : run ++ rest = list
  drops : drops less (a :: run) = 0
  drop : ∀ b rest', rest = b :: rest' →
    Lib.drops less (a :: list) = 1 + Lib.drops less (b :: rest')

theorem findEndOfRun_isRun (less : α → α → Bool) (a : α) (list : List α) :
    IsRun less a list (findEndOfRun less a list).1 (findEndOfRun less a list).2 := by
  induction list generalizing a with
  | nil => exact ⟨rfl, rfl, fun _ _ h => by cases h⟩
  | cons b list ih =>
    rw [findEndOfRun]
    split
    · next hless =>
      refine ⟨rfl, rfl, fun b' rest' h => ?_⟩
      cases h
      rw [drops, if_pos hless]
    · next hless =>
      obtain ⟨happend, hdrops, hdrop⟩ := ih b
      refine ⟨congrArg (b :: ·) happend, ?_, fun b' rest' h => ?_⟩
      · dsimp only
        rw [drops, if_neg hless, hdrops]
      · rw [drops, if_neg hless, Nat.zero_add]
        exact hdrop b' rest' h

/-- A pass over a list that is not empty. -/
structure Merges (key : α → Int) (list : List α) (cnt : Nat) (list' : List α) : Prop where
  alike : Alike key list list'
  fewer : 2 * cnt ≤ drops (decreasing key) list + 2
  runs : drops (decreasing key) list' < cnt ∨ list' = []

theorem mergeRuns_merges (fuel : Nat) : ∀ list : List α, list.length ≤ fuel →
    Merges key list (mergeRuns (decreasing key) fuel list).1
      (mergeRuns (decreasing key) fuel list).2 := by
  induction fuel with
  | zero =>
    intro list hfuel
    obtain rfl := List.length_eq_zero_iff.mp (Nat.le_zero.mp hfuel)
    exact ⟨Alike.refl key [], Nat.zero_le _, .inr rfl⟩
  | succ fuel ih =>
    intro list hfuel
    cases list with
    | nil => exact ⟨Alike.refl key [], Nat.zero_le _, .inr rfl⟩
    | cons a list =>
      have hrun := findEndOfRun_isRun (decreasing key) a list
      rw [mergeRuns]
      cases hfind : findEndOfRun (decreasing key) a list with
      | mk run rest =>
        rw [hfind] at hrun
        obtain ⟨happend, hdrops, hdrop⟩ := hrun
        cases rest with
        | nil =>
          rw [← happend, List.append_nil]
          refine ⟨Alike.refl key _, Nat.le_add_left _ _, .inl ?_⟩
          exact Nat.lt_of_le_of_lt (Nat.le_of_eq hdrops) Nat.one_pos
        | cons b list' =>
          have hrun' := findEndOfRun_isRun (decreasing key) b list'
          dsimp only
          cases hfind' : findEndOfRun (decreasing key) b list' with
          | mk run' rest =>
            rw [hfind'] at hrun'
            obtain ⟨happend', hdrops', hdrop'⟩ := hrun'
            have hlen : rest.length ≤ fuel := by
              rw [← happend, ← happend'] at hfuel
              simp only [List.length_cons, List.length_append] at hfuel
              omega
            obtain ⟨halike, hfewer, hruns⟩ := ih rest hlen
            have hmerged : drops (decreasing key)
                (inplaceMerge (decreasing key) (a :: run) (b :: run')) = 0 :=
              drops_eq_zero.mpr
                (decreasing_inplaceMerge (drops_eq_zero.mp hdrops) (drops_eq_zero.mp hdrops'))
            refine ⟨?_, ?_, .inl ?_⟩
            · have hmerge : Alike key (a :: run ++ b :: run' ++ rest) _ :=
                (alike_inplaceMerge (drops_eq_zero.mp hdrops)).append halike
              rw [← happend, ← happend']
              simpa using hmerge
            · have hd := hdrop b list' rfl
              cases rest with
              | nil =>
                cases fuel <;> simp only [mergeRuns] <;> omega
              | cons c rest =>
                have hd' := hdrop' c rest rfl
                dsimp only
                omega
            · dsimp only
              rcases hruns with hruns | hnil
              · have hle := drops_append_le (decreasing key)
                  (inplaceMerge (decreasing key) (a :: run) (b :: run'))
                  (mergeRuns (decreasing key) fuel rest).2
                omega
              · rw [hnil, List.append_nil, hmerged]
                exact Nat.succ_pos _

/-! ## The result -/

theorem mergeSortLoop_sorts (fuel : Nat) : ∀ list : List α,
    drops (decreasing key) list < fuel → Alike key list (mergeSortLoop (decreasing key) fuel list) ∧
      Decreasing key (mergeSortLoop (decreasing key) fuel list) := by
  induction fuel with
  | zero => exact fun list h => absurd h (Nat.not_lt_zero _)
  | succ fuel ih =>
    intro list hfuel
    obtain ⟨halike, hfewer, hruns⟩ : Merges key list _ _ :=
      mergeRuns_merges list.length list (Nat.le_refl _)
    rw [mergeSortLoop]
    dsimp only
    split
    · next hcnt =>
      have hlt : drops (decreasing key) (mergeRuns (decreasing key) list.length list).2 < fuel := by
        rcases hruns with hruns | hnil
        · omega
        · rw [hnil, drops]
          · omega
          · exact fun _ _ _ h => by cases h
      obtain ⟨halike', hsorted⟩ := ih _ hlt
      exact ⟨halike.trans halike', hsorted⟩
    · next hcnt =>
      refine ⟨halike, drops_eq_zero.mp ?_⟩
      rcases hruns with hruns | hnil
      · omega
      · rw [hnil, drops]
        exact fun _ _ _ h => by cases h

/-- The merge sort of the source puts the elements into the same order as `listSort`. -/
theorem mergeSort_eq_listSort (key : α → Int) (list : List α) :
    mergeSort (decreasing key) list = listSort (decreasing key) list := by
  obtain ⟨halike, hsorted⟩ : Alike key list _ ∧ Decreasing key _ :=
    mergeSortLoop_sorts (list.length + 1) list (Nat.lt_succ_of_le (drops_le_length _ _))
  have hsort : Alike key (listSort (decreasing key) list) list := fun k =>
    (alike_listSort key list k).symm
  exact (hsort.trans halike).eq (decreasing_listSort key list) hsorted

end Pintos.Lib
