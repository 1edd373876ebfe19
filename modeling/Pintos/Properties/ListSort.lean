import Pintos.Lib.MergeSort
import Pintos.Logic.WeakOrder
import Pintos.Properties.Links
import Pintos.Threads.Schedule

/-!
# Sorting in place

What `list_sort` and `list_insert_ordered` make of the links of a list.

## Main results

* `IsList.mergeRuns` — a pass of `list_sort` is that of the sort on lists.
* `IsList.listSort` — the loops end, and no assertion fails.
* `list_sort_stable` — the sort is stable, and insertion keeps a list sorted.
-/

namespace Pintos.Lib

open Pintos.Logic

variable {α : Type} {less less' : α → α → Bool} {list as bs : List α} {a : α}

/-! ## Orders that agree -/

/-- Two orders are the same on the elements of a list. -/
def Agree (less less' : α → α → Bool) (list : List α) : Prop :=
  ∀ a ∈ list, ∀ b ∈ list, less a b = less' a b

theorem Agree.mono {list' : List α} (h : Agree less less' list) (hsub : list' ⊆ list) :
    Agree less less' list' :=
  fun a ha b hb => h a (hsub ha) b (hsub hb)

theorem Agree.findEndOfRun (h : Agree less less' (a :: list)) :
    findEndOfRun less a list = findEndOfRun less' a list := by
  induction list generalizing a with
  | nil => rfl
  | cons b list ih =>
    have htail : Agree less less' (b :: list) := h.mono (List.subset_cons_self a _)
    rw [Lib.findEndOfRun, Lib.findEndOfRun, h b (by simp) a (by simp), ih htail]

theorem Agree.inplaceMerge (h : Agree less less' (as ++ bs)) :
    inplaceMerge less as bs = inplaceMerge less' as bs := by
  induction as generalizing bs with
  | nil => rw [Lib.inplaceMerge, List.nil_merge, Lib.inplaceMerge, List.nil_merge]
  | cons a as ih =>
    induction bs with
    | nil => rw [Lib.inplaceMerge, List.merge_right, Lib.inplaceMerge, List.merge_right]
    | cons b bs ihb =>
      have has := ih (h.mono (List.subset_cons_self a _))
      have hbs := ihb (h.mono (by grind))
      simp only [Lib.inplaceMerge] at has hbs ⊢
      rw [List.cons_merge_cons, List.cons_merge_cons, h b (by simp) a (by simp), has, hbs]

theorem Agree.drops (h : Agree less less' list) : drops less list = drops less' list := by
  induction list with
  | nil => rfl
  | cons a list ih =>
    cases list with
    | nil => rfl
    | cons b list =>
      rw [Lib.drops, Lib.drops, h b (by simp) a (by simp), ih (h.mono (List.subset_cons_self a _))]

theorem Agree.mergeRuns (fuel : Nat) : ∀ list : List α, Agree less less' list →
    mergeRuns less fuel list = mergeRuns less' fuel list := by
  induction fuel with
  | zero => exact fun _ _ => rfl
  | succ fuel ih =>
    intro list h
    cases list with
    | nil => rfl
    | cons a list =>
      have hrun := (findEndOfRun_isRun less' a list).append
      rw [Lib.mergeRuns, Lib.mergeRuns, h.findEndOfRun]
      cases hfind : Lib.findEndOfRun less' a list with
      | mk run rest =>
        rw [hfind] at hrun
        cases rest with
        | nil => rfl
        | cons b list' =>
          have hb : Agree less less' (b :: list') := h.mono (by rw [← hrun]; simp)
          have hrun' := (findEndOfRun_isRun less' b list').append
          dsimp only
          rw [hb.findEndOfRun]
          cases hfind' : Lib.findEndOfRun less' b list' with
          | mk run' rest' =>
            rw [hfind'] at hrun'
            have hmerge : Agree less less' (a :: run ++ b :: run') := h.mono (by
              rw [← hrun, ← hrun']
              grind)
            have hrest : Agree less less' rest' := h.mono (by
              rw [← hrun, ← hrun']
              grind)
            dsimp only
            rw [hmerge.inplaceMerge, ih rest' hrest]

theorem Agree.listInsertOrdered (h : Agree less less' (a :: list)) :
    Lib.listInsertOrdered (fun a b => !less b a) a list =
      Lib.listInsertOrdered (fun a b => !less' b a) a list := by
  induction list with
  | nil => rfl
  | cons b list ih =>
    rw [Lib.listInsertOrdered, Lib.listInsertOrdered, h b (by simp) a (by simp),
      ih (h.mono (by grind))]

theorem Agree.listSort (h : Agree less less' list) :
    Lib.listSort less list = Lib.listSort less' list := by
  induction list with
  | nil => rfl
  | cons a list ih =>
    have hsorted : Agree less less' (a :: Lib.listSort less' list) :=
      h.mono fun b hb => by simpa [mem_listSort] using hb
    rw [Lib.listSort, Lib.listSort, ih (h.mono (List.subset_cons_self a _)),
      hsorted.listInsertOrdered]

/-- On the elements of a list, a strict weak order is that of a key. -/
theorem agree_rank (h : WeakOrder less) (list : List α) :
    Agree less (decreasing (rank less list)) list := by
  intro a ha b hb
  rw [decreasing, Bool.eq_iff_iff, decide_eq_true_iff, rank_lt_iff h hb]

namespace Links

variable [DecidableEq α] {m m' : Links α} {head tail b c elem : α} {pre post : List α}

/-! ## Walks -/

/-- `find_end_of_run` finds the end of the run. -/
theorem endOfRunLoop_eq (less : α → α → Bool) (fuel : Nat) :
    ∀ (a : α) (list : List α), m.Chain (a :: (list ++ [tail])) → tail ∉ list → list.length < fuel →
      endOfRunLoop less m fuel a tail = ((Lib.findEndOfRun less a list).2 ++ [tail]).head? := by
  induction fuel with
  | zero => exact fun _ _ _ _ h => absurd h (Nat.not_lt_zero _)
  | succ fuel ih =>
    intro a list hchain htail hfuel
    cases list with
    | nil =>
      have hadj := (List.isChain_cons_cons.mp hchain).1
      simp only [endOfRunLoop, listNext_eq, hadj.1, Option.bind_eq_bind, Option.bind_some, if_pos]
      rfl
    | cons b list =>
      obtain ⟨hadj, hchain⟩ := List.isChain_cons_cons.mp hchain
      rw [List.mem_cons, not_or] at htail
      simp only [endOfRunLoop, listNext_eq, hadj.1, Option.bind_eq_bind, Option.bind_some,
        if_neg (Ne.symm htail.1), listPrev_eq, hadj.2]
      rw [Lib.findEndOfRun]
      split
      · rfl
      · exact ih b list hchain htail.2 (Nat.lt_of_succ_lt_succ hfuel)

theorem IsList.findEndOfRun (h : m.IsList head tail (pre ++ a :: list)) (less : α → α → Bool)
    (fuel : Nat) (hfuel : list.length < fuel) :
    m.findEndOfRun less fuel a tail = ((Lib.findEndOfRun less a list).2 ++ [tail]).head? := by
  rw [Links.findEndOfRun, if_neg h.ne_tail, endOfRunLoop_eq less fuel a list h.suffix h.apart.2 hfuel]

/-- `is_sorted` looks for a drop. -/
theorem isSortedLoop_eq (less : α → α → Bool) (fuel : Nat) :
    ∀ (a : α) (list : List α), m.Chain (a :: (list ++ [b])) → b ∉ list → list.length < fuel →
      isSortedLoop less m fuel a b = some (decide (drops less (a :: list) = 0)) := by
  induction fuel with
  | zero => exact fun _ _ _ _ h => absurd h (Nat.not_lt_zero _)
  | succ fuel ih =>
    intro a list hchain hb hfuel
    cases list with
    | nil =>
      have hadj := (List.isChain_cons_cons.mp hchain).1
      simp only [isSortedLoop, listNext_eq, hadj.1, Option.bind_eq_bind, Option.bind_some, if_pos]
      rfl
    | cons c list =>
      obtain ⟨hadj, hchain⟩ := List.isChain_cons_cons.mp hchain
      rw [List.mem_cons, not_or] at hb
      simp only [isSortedLoop, listNext_eq, hadj.1, Option.bind_eq_bind, Option.bind_some,
        if_neg (Ne.symm hb.1), listPrev_eq, hadj.2, drops]
      split
      · simp
      · rw [Nat.zero_add]
        exact ih c list hchain hb.2 (Nat.lt_of_succ_lt_succ hfuel)

/-! ## Merging -/

/-- The step of `inplace_merge` that moves `b` before `a`. -/
theorem IsList.moveFirst (h : m.IsList head tail (pre ++ (a :: as ++ (b :: bs ++ post)))) :
    ∃ c m', (bs ++ (post ++ [tail])).head? = some c ∧ m.next b = some c ∧ m.prev c = some b ∧
      m.listSplice a b c = some m' ∧ Reordered m head tail (pre ++ (a :: as ++ (b :: bs ++ post)))
        m' (pre ++ [b] ++ (a :: as ++ (bs ++ post))) := by
  have hb : m.IsList head tail ((pre ++ (a :: as)) ++ b :: (bs ++ post)) := by simpa using h
  have ha : m.IsList head tail (pre ++ a :: (as ++ b :: (bs ++ post))) := by simpa using h
  obtain ⟨c, hc⟩ : ∃ c, (bs ++ post ++ [tail]).head? = some c :=
    ⟨_, List.head?_eq_some_head (by simp)⟩
  have hprev : m.prev c = some b := by
    obtain ⟨rest, hrest⟩ := List.head?_eq_some_iff.mp hc
    have hchain := hb.suffix
    rw [hrest] at hchain
    exact (List.isChain_cons_cons.mp hchain).1.2
  obtain ⟨m', hsplice, hr⟩ := ha.listSplice hc
  exact ⟨c, m', by simpa using hc, hb.next.trans hc, hprev, hsplice, by simpa using hr⟩

/-- The loop of `inplace_merge`, from the place where `as` and `bs` are still to be merged. -/
theorem IsList.mergeLoop (less : α → α → Bool) (fuel : Nat) : ∀ (m : Links α) (pre as bs : List α)
    (a0 a1b0 b1 : α), m.IsList head tail (pre ++ (as ++ (bs ++ post))) →
    (as ++ (bs ++ (post ++ [tail]))).head? = some a0 →
    (bs ++ (post ++ [tail])).head? = some a1b0 → (post ++ [tail]).head? = some b1 →
    as.length + bs.length < fuel →
    ∃ m', mergeLoop less fuel m a0 a1b0 b1 = some m' ∧ Reordered m head tail
      (pre ++ (as ++ (bs ++ post))) m' (pre ++ (Lib.inplaceMerge less as bs ++ post)) := by
  induction fuel with
  | zero => exact fun _ _ _ _ _ _ _ _ _ _ _ h => absurd h (Nat.not_lt_zero _)
  | succ fuel ih =>
    intro m pre as bs a0 a1b0 b1 h ha0 ha1 hb1 hfuel
    rw [Links.mergeLoop]
    cases as with
    | nil =>
      obtain rfl : a1b0 = a0 := Option.some.inj (ha1.symm.trans ha0)
      refine ⟨m, if_pos (.inl rfl), ?_⟩
      rw [Lib.inplaceMerge, List.nil_merge]
      exact h.refl
    | cons a as =>
      obtain rfl : a = a0 := by simpa using ha0
      cases bs with
      | nil =>
        obtain rfl : b1 = a1b0 := Option.some.inj (hb1.symm.trans ha1)
        refine ⟨m, if_pos (.inr rfl), ?_⟩
        rw [Lib.inplaceMerge, List.merge_right]
        exact h.refl
      | cons b bs =>
        obtain rfl : b = a1b0 := by simpa using ha1
        have ha : m.IsList head tail (pre ++ a :: (as ++ b :: (bs ++ post))) := by simpa using h
        have hab : a ≠ b := ha.ne_of_mem (by simp)
        have hb : m.IsList head tail ((pre ++ (a :: as)) ++ b :: (bs ++ post)) := by simpa using h
        have hmem : b1 ∈ post ++ [tail] := List.mem_of_mem_head? hb1
        have hbb1 : b ≠ b1 := hb.ne_of_mem (by
          rw [List.append_assoc]
          exact List.mem_append_right bs hmem)
        rw [if_neg (by simp [hab, hbb1]), Lib.inplaceMerge, List.cons_merge_cons]
        split
        · -- `a` stays where it is.
          obtain ⟨a', ha'⟩ : ∃ a', (as ++ (b :: bs ++ (post ++ [tail]))).head? = some a' :=
            ⟨_, List.head?_eq_some_head (by simp)⟩
          have hnext : m.next a = some a' := by
            rw [h.next, ← ha']
            simp
          obtain ⟨m', hm', hr⟩ := ih m (pre ++ [a]) as (b :: bs) a' b b1 (by simpa using h) ha' ha1
            hb1 (by simp only [List.length_cons] at hfuel ⊢; omega)
          refine ⟨m', ?_, by simpa [Lib.inplaceMerge] using hr⟩
          simp only [listNext_eq, hnext, Option.bind_eq_bind, Option.bind_some]
          exact hm'
        · -- `b` moves before `a`.
          obtain ⟨c, m₁, hc, hnext, hprev, hsplice, hr₁⟩ := h.moveFirst
          obtain ⟨m', hm', hr⟩ := ih m₁ (pre ++ [b]) (a :: as) bs a c b1 hr₁.isList rfl hc hb1
            (by simp only [List.length_cons] at hfuel ⊢; omega)
          refine ⟨m', ?_, by simpa [Lib.inplaceMerge] using hr₁.trans hr⟩
          simp only [listNext_eq, hnext, listPrev_eq, hprev, hsplice, Option.bind_eq_bind,
            Option.bind_some]
          exact hm'

/-- `is_sorted`, from an element of the list on. -/
theorem IsList.isSorted (h : m.IsList head tail (pre ++ (a :: as ++ post))) (less : α → α → Bool)
    (hb : (post ++ [tail]).head? = some b) (fuel : Nat) (hfuel : as.length < fuel) :
    m.isSorted less fuel a b = some (decide (drops less (a :: as) = 0)) := by
  obtain ⟨rest, hrest⟩ := List.head?_eq_some_iff.mp hb
  have hsplit : m.IsList head tail (pre ++ a :: (as ++ post)) := by simpa using h
  have hapart := hsplit.apart.1
  have hchain := hsplit.suffix
  rw [List.append_assoc, hrest] at hchain hapart
  have hn : (as ++ b :: rest).Nodup := by
    have hnodup := h.nodup
    rw [show head :: (pre ++ (a :: as ++ post) ++ [tail]) =
      (head :: pre) ++ a :: (as ++ (post ++ [tail])) by simp, hrest] at hnodup
    exact (List.nodup_cons.mp (List.nodup_append.mp hnodup).2.1).2
  have hb' : b ∉ as := fun hmem => (List.nodup_append.mp hn).2.2 b hmem b (by simp) rfl
  rw [Links.isSorted, if_neg (by rintro rfl; simp at hapart)]
  refine isSortedLoop_eq less fuel a as (b := b) ?_ hb' hfuel
  rw [show a :: (as ++ b :: rest) = (a :: as) ++ b :: rest by simp] at hchain
  exact (List.isChain_split.mp hchain).1

/-- `inplace_merge` of two runs. -/
theorem IsList.inplaceMerge (h : m.IsList head tail (pre ++ (a :: as ++ (b :: bs ++ post))))
    (less : α → α → Bool) (hb1 : (post ++ [tail]).head? = some c)
    (has : drops less (a :: as) = 0) (hbs : drops less (b :: bs) = 0) (fuel : Nat)
    (hfuel : as.length + bs.length + 2 < fuel) :
    ∃ m', m.inplaceMerge less fuel a b c = some m' ∧ Reordered m head tail
      (pre ++ (a :: as ++ (b :: bs ++ post))) m'
      (pre ++ (Lib.inplaceMerge less (a :: as) (b :: bs) ++ post)) := by
  have hb : (b :: bs ++ post ++ [tail]).head? = some b := rfl
  have hsorted := h.isSorted less hb fuel (by omega)
  have h' : m.IsList head tail ((pre ++ (a :: as)) ++ (b :: bs ++ post)) := by simpa using h
  have hsorted' := h'.isSorted less hb1 fuel (by omega)
  rw [Links.inplaceMerge, hsorted, hsorted', has, hbs]
  exact h.mergeLoop less fuel m pre (a :: as) (b :: bs) a b c rfl rfl hb1
    (by simp only [List.length_cons]; omega)

/-! ## Sorting -/

/-- The inner loop of `list_sort` does what it does on lists. -/
theorem IsList.mergeRuns (less : α → α → Bool) (fuel : Nat) (n : Nat) : ∀ (rounds : Nat)
    (m : Links α) (pre list : List α) (a0 : α) (cnt : Nat), m.IsList head tail (pre ++ list) →
    (list ++ [tail]).head? = some a0 → list.length ≤ n → list.length < rounds →
    list.length < fuel →
    ∃ m', mergeRuns less fuel tail rounds m a0 cnt =
        some (cnt + (Lib.mergeRuns less n list).1, m') ∧
      Reordered m head tail (pre ++ list) m' (pre ++ (Lib.mergeRuns less n list).2) := by
  induction n with
  | zero =>
    intro rounds m pre list a0 cnt h ha0 hn hrounds hfuel
    obtain rfl := List.length_eq_zero_iff.mp (Nat.le_zero.mp hn)
    obtain rfl : tail = a0 := by simpa using ha0
    cases rounds with
    | zero => simp at hrounds
    | succ rounds => exact ⟨m, by rw [Links.mergeRuns, if_pos rfl]; rfl, h.refl⟩
  | succ n ih =>
    intro rounds m pre list a0 cnt h ha0 hn hrounds hfuel
    cases rounds with
    | zero => simp at hrounds
    | succ rounds =>
      cases list with
      | nil =>
        obtain rfl : tail = a0 := by simpa using ha0
        exact ⟨m, by rw [Links.mergeRuns, if_pos rfl]; rfl, h.refl⟩
      | cons a list =>
        obtain rfl : a = a0 := by simpa using ha0
        simp only [List.length_cons] at hn hrounds hfuel
        have hfind := h.findEndOfRun less fuel (by omega)
        obtain ⟨happend, hdrops, -⟩ := findEndOfRun_isRun less a list
        rw [Links.mergeRuns, if_neg h.ne_tail, hfind, Lib.mergeRuns]
        cases hrun : Lib.findEndOfRun less a list with
        | mk run rest =>
          rw [hrun] at happend hdrops
          cases rest with
          | nil =>
            refine ⟨m, ?_, ?_⟩
            · simp
            · rw [← happend, List.append_nil] at h ⊢
              exact h.refl
          | cons b list' =>
            have hb : m.IsList head tail ((pre ++ (a :: run)) ++ b :: list') := by
              rw [← happend] at h
              simpa using h
            have hlen : run.length + (list'.length + 1) = list.length := by simp [← happend]
            have hfind' := hb.findEndOfRun less fuel (by omega)
            obtain ⟨happend', hdrops', -⟩ := findEndOfRun_isRun less b list'
            dsimp only
            cases hrun' : Lib.findEndOfRun less b list' with
            | mk run' rest' =>
              rw [hrun'] at happend' hdrops' hfind'
              have hlen' : run'.length + rest'.length = list'.length := by simp [← happend']
              -- where the second run ends: at the third, or at the end of the list
              obtain ⟨b1, hb1⟩ : ∃ b1, (rest' ++ [tail]).head? = some b1 :=
                ⟨_, List.head?_eq_some_head (by simp)⟩
              have hm : m.IsList head tail (pre ++ (a :: run ++ (b :: run' ++ rest'))) := by
                rw [← happend, ← happend'] at h
                simpa using h
              obtain ⟨m₁, hmerge, hr₁⟩ := hm.inplaceMerge less hb1 hdrops hdrops' fuel
                (by omega)
              obtain ⟨m', hm', hr⟩ := ih rounds m₁
                (pre ++ Lib.inplaceMerge less (a :: run) (b :: run')) rest' b1 (cnt + 1)
                (by simpa using hr₁.isList) hb1 (by omega) (by omega) (by omega)
              refine ⟨m', ?_, ?_⟩
              · simp only [List.cons_append, List.head?_cons, Option.bind_eq_bind, Option.bind_some,
                  if_neg hb.ne_tail, hfind', hb1, hmerge, hm', Option.some.injEq, Prod.mk.injEq, and_true]
                omega
              · have hlist : a :: list = a :: run ++ (b :: run' ++ rest') := by
                  rw [← happend, ← happend']
                  rfl
                rw [hlist]
                rw [List.append_assoc] at hr
                simpa using hr₁.trans (by simpa using hr)

variable {key : α → Int}

/-- The outer loop of `list_sort`: each round leaves fewer drops. -/
theorem IsList.sortLoop (fuel rounds : Nat) : ∀ (m : Links α) (list : List α),
    m.IsList head tail list → Agree less (decreasing key) list → list.length < fuel →
    drops (decreasing key) list < rounds →
    ∃ m' list', sortLoop less fuel head tail rounds m = some m' ∧
      Reordered m head tail list m' list' ∧ Alike key list list' ∧ Decreasing key list' := by
  induction rounds with
  | zero => exact fun _ _ _ _ _ h => absurd h (Nat.not_lt_zero _)
  | succ rounds ih =>
    intro m list h hagree hfuel hrounds
    obtain ⟨a0, ha0⟩ : ∃ a0, (list ++ [tail]).head? = some a0 :=
      ⟨_, List.head?_eq_some_head (by simp)⟩
    obtain ⟨m₁, hpass, hr₁⟩ := IsList.mergeRuns less fuel list.length fuel m [] list a0 0
      (by simpa using h) ha0 (Nat.le_refl _) hfuel hfuel
    rw [hagree.mergeRuns list.length list] at hpass hr₁
    obtain ⟨halike, hfewer, hruns⟩ : Merges key list _ _ :=
      mergeRuns_merges list.length list (Nat.le_refl _)
    cases hlist : Lib.mergeRuns (decreasing key) list.length list with
    | mk cnt list₁ =>
      rw [hlist] at hpass hr₁ halike hfewer hruns
      dsimp only [List.nil_append] at hpass hr₁ halike hfewer hruns
      simp only [Links.sortLoop, h.begin, ha0, hpass, Option.bind_eq_bind, Option.bind_some]
      split
      · next hcnt =>
        have hdrops : drops (decreasing key) list₁ < rounds := by
          rcases hruns with hruns | rfl
          · omega
          · simp only [drops]
            omega
        obtain ⟨m', list', hm', hr, halike', hsorted⟩ := ih m₁ list₁ hr₁.isList
          (hagree.mono hr₁.perm.subset) (by rw [hr₁.perm.length_eq]; exact hfuel) hdrops
        exact ⟨m', list', hm', hr₁.trans hr, halike.trans halike', hsorted⟩
      · next hcnt =>
        refine ⟨m₁, list₁, rfl, hr₁, halike, drops_eq_zero.mp ?_⟩
        rcases hruns with hruns | rfl
        · omega
        · simp only [drops]

/-- `list_sort` sorts a list where it is. -/
theorem IsList.listSort (h : m.IsList head tail list) (hless : WeakOrder less) {fuel : Nat}
    (hfuel : list.length < fuel) :
    ∃ m', listSort less fuel m head tail = some m' ∧
      Reordered m head tail list m' (Lib.listSort less list) := by
  have hagree := agree_rank hless list
  obtain ⟨m', list', hm', hr, halike, hsorted⟩ := h.sortLoop fuel fuel m list hagree hfuel
    (Nat.lt_of_le_of_lt (drops_le_length _ _) hfuel)
  have hdrops : drops less list' = 0 := by
    rw [(hagree.mono hr.perm.subset).drops]
    exact drops_eq_zero.mpr hsorted
  have hsort : Alike (rank less list) (Lib.listSort (decreasing (rank less list)) list) list :=
    fun k => (alike_listSort _ list k).symm
  obtain rfl : list' = Lib.listSort less list := by
    rw [hagree.listSort]
    exact (hsort.trans halike).eq (decreasing_listSort _ list) hsorted
  -- The assertion at the end holds.
  have hassert : ∀ a0, m'.next head = some a0 → m'.isSorted less fuel a0 tail = some true := by
    intro a0 ha0
    rw [hr.isList.begin] at ha0
    cases hlist : Lib.listSort less list with
    | nil =>
      rw [hlist] at ha0
      cases ha0
      rw [Links.isSorted, if_pos rfl]
    | cons a as =>
      rw [hlist] at ha0 hdrops
      obtain rfl : a = a0 := by simpa using ha0
      have hlen := hr.perm.length_eq
      rw [hlist, List.length_cons] at hlen
      have hl : m'.IsList head tail ([] ++ (a :: as ++ [])) := by
        simpa [hlist] using hr.isList
      rw [hl.isSorted less rfl fuel (by omega), hdrops]
      rfl
  obtain ⟨a0, ha0⟩ : ∃ a0, m'.next head = some a0 := by
    rw [hr.isList.begin]
    exact ⟨_, List.head?_eq_some_head (by simp)⟩
  refine ⟨m', ?_, hr⟩
  simp only [Links.listSort, hm', ha0, hassert a0 ha0, Option.bind_eq_bind, Option.bind_some]
  rfl

/-! ## Insertion -/

/-- The loop of `list_insert_ordered`. `before` are the elements that it has gone past. -/
theorem IsList.findPlace (less : α → α → Bool) (elem : α) (fuel : Nat) : ∀ (pre list : List α)
    (e : α), m.IsList head tail (pre ++ list) → (list ++ [tail]).head? = some e →
    list.length < fuel →
    ∃ before after e', list = before ++ after ∧ findPlace less m tail elem fuel e = some e' ∧
      (after ++ [tail]).head? = some e' ∧ (∀ b ∈ before, less elem b = false) ∧
      (∀ b, after.head? = some b → less elem b = true) ∧
      Lib.listInsertOrdered less elem list = before ++ elem :: after := by
  induction fuel with
  | zero => exact fun _ _ _ _ _ h => absurd h (Nat.not_lt_zero _)
  | succ fuel ih =>
    intro pre list e h he hfuel
    rw [Links.findPlace]
    cases list with
    | nil =>
      obtain rfl : tail = e := by simpa using he
      exact ⟨[], [], tail, rfl, if_pos rfl, rfl, by simp, by simp, rfl⟩
    | cons a list =>
      obtain rfl : a = e := by simpa using he
      rw [if_neg h.ne_tail, Lib.listInsertOrdered]
      split
      · next hlt => exact ⟨[], a :: list, a, rfl, rfl, rfl, by simp, by simpa using hlt, rfl⟩
      · next hlt =>
        obtain ⟨e, he⟩ : ∃ e, (list ++ [tail]).head? = some e :=
          ⟨_, List.head?_eq_some_head (by simp)⟩
        obtain ⟨before, after, e', rfl, hplace, he', hbefore, hafter, hinsert⟩ :=
          ih (pre ++ [a]) list e (by simpa using h) he (Nat.lt_of_succ_lt_succ hfuel)
        refine ⟨a :: before, after, e', rfl, ?_, he', ?_, hafter, ?_⟩
        · simp only [listNext_eq, h.next, he, Option.bind_eq_bind, Option.bind_some, hplace]
        · intro b hb
          rcases List.mem_cons.mp hb with rfl | hb
          · simpa using hlt
          · exact hbefore b hb
        · rw [hinsert]
          rfl

/-- `list_insert_ordered` inserts an element in the list where it is. -/
theorem IsList.listInsertOrdered (h : m.IsList head tail list)
    (helem : elem ∉ head :: (list ++ [tail])) (less : α → α → Bool) {fuel : Nat}
    (hfuel : list.length < fuel) :
    ∃ m' before after, list = before ++ after ∧
      listInsertOrdered less fuel m head tail elem = some m' ∧
      Inserted m head tail list elem m' (before ++ elem :: after) ∧
      (∀ b ∈ before, less elem b = false) ∧ (∀ b, after.head? = some b → less elem b = true) ∧
      Lib.listInsertOrdered less elem list = before ++ elem :: after := by
  obtain ⟨e, he⟩ : ∃ e, (list ++ [tail]).head? = some e :=
    ⟨_, List.head?_eq_some_head (by simp)⟩
  obtain ⟨before, after, e', rfl, hplace, he', hbefore, hafter, hinsert⟩ :=
    IsList.findPlace less elem fuel [] list e (by simpa using h) he hfuel
  obtain ⟨m', hm', hins⟩ := h.listInsert helem he'
  refine ⟨m', before, after, rfl, ?_, hins, hbefore, hafter, hinsert⟩
  simp only [Links.listInsertOrdered, h.begin, he, hplace, Option.bind_eq_bind, Option.bind_some,
    hm']

end Links

/-! ## What sorting is for -/

/-- No element is less than one before it. -/
abbrev Sorted (less : α → α → Bool) (list : List α) : Prop :=
  list.Pairwise fun a b => less b a = false

/-- `list'` is `list` in order, and equal elements are in the order that they had. -/
structure StablySorted (less : α → α → Bool) (list list' : List α) : Prop where
  perm : list'.Perm list
  sorted : Sorted less list'
  stable : ∀ a ∈ list, list'.filter (equivalent less a) = list.filter (equivalent less a)

theorem listSort_stablySorted (hless : WeakOrder less) (list : List α) :
    StablySorted less list (listSort less list) := by
  have hagree := agree_rank hless list
  have hperm := listSort_perm less list
  refine ⟨hperm, ?_, fun a ha => ?_⟩
  · have hsorted := decreasing_listSort (rank less list) list
    rw [← hagree.listSort] at hsorted
    refine hsorted.imp_of_mem fun {a b} ha hb hle => ?_
    rw [hagree b (hperm.subset hb) a (hperm.subset ha), decreasing]
    exact decide_eq_false (Int.not_lt.mpr hle)
  · have halike := alike_listSort (rank less list) list (rank less list a)
    rw [← hagree.listSort] at halike
    have hequiv : ∀ l : List α, l ⊆ list →
        l.filter (rank less list · = rank less list a) = l.filter (equivalent less a) :=
      fun l hl => List.filter_congr fun b hb => by
        rw [Bool.eq_iff_iff, decide_eq_true_iff, rank_eq_iff hless ha (hl hb)]
    rw [← hequiv _ hperm.subset, halike, hequiv list (List.Subset.refl list)]

/-- Past the first element that `elem` is less than, it is less than all. -/
theorem Sorted.less_after {elem : α} {after : List α} (hless : WeakOrder less)
    (hs : Sorted less after) (hafter : ∀ b, after.head? = some b → less elem b = true) :
    ∀ b ∈ after, less elem b = true := by
  cases after with
  | nil => simp
  | cons c after =>
    have hc := hafter c rfl
    intro b hb
    rcases List.mem_cons.mp hb with rfl | hb
    · exact hc
    · by_contra hne
      have hbc := hless.of_not_less (by simpa using hne) hc
      simp [(List.pairwise_cons.mp hs).1 b hb] at hbc

theorem Sorted.insert {elem : α} {before after : List α} (hless : WeakOrder less)
    (hs : Sorted less (before ++ after)) (hbefore : ∀ b ∈ before, less elem b = false)
    (hafter : ∀ b ∈ after, less elem b = true) : Sorted less (before ++ elem :: after) := by
  obtain ⟨hs₁, hs₂, hcross⟩ := List.pairwise_append.mp hs
  refine List.pairwise_append.mpr ⟨hs₁, List.pairwise_cons.mpr ⟨fun b hb => ?_, hs₂⟩,
    fun a ha b hb => ?_⟩
  · by_contra hne
    have hirrefl := hless.trans (hafter b hb) (by simpa using hne)
    simp [hless.irrefl] at hirrefl
  · rcases List.mem_cons.mp hb with rfl | hb
    · exact hbefore a ha
    · exact hcross a ha b hb

/-! ## The result -/

/-- What `list_sort` does to a list from `head` to `tail`. -/
def SortsInPlace [DecidableEq α] (less : α → α → Bool) (m : Links α) (head tail : α)
    (list : List α) : Prop :=
  ∃ m' list', (∀ fuel, list.length < fuel → m.listSort less fuel head tail = some m') ∧
    m.Reordered head tail list m' list' ∧ StablySorted less list list'

/-- What `list_insert_ordered` does: `elem` comes after the elements that are equal to it. -/
def InsertsInPlace [DecidableEq α] (less : α → α → Bool) (m : Links α) (head tail : α)
    (list : List α) (elem : α) : Prop :=
  ∃ m' before after, list = before ++ after ∧
    (∀ fuel, list.length < fuel → m.listInsertOrdered less fuel head tail elem = some m') ∧
    m.Inserted head tail list elem m' (before ++ elem :: after) ∧
    Sorted less (before ++ elem :: after) ∧ ∀ a ∈ list, equivalent less elem a = true → a ∈ before

theorem sortsInPlace [DecidableEq α] (hless : WeakOrder less) {m : Links α} {head tail : α}
    (h : m.IsList head tail list) : SortsInPlace less m head tail list := by
  obtain ⟨m', -, hr⟩ := h.listSort hless (Nat.lt_succ_self list.length)
  refine ⟨m', listSort less list, fun fuel hfuel => ?_, hr, listSort_stablySorted hless list⟩
  obtain ⟨m₁, hm₁, hr₁⟩ := h.listSort hless hfuel
  have hmem : ∀ x, x ∉ listSort less list ↔ x ∉ list := fun x => not_congr hr.perm.mem_iff
  rw [hm₁, hr₁.isList.ext hr.isList
    (fun x hx hxl => (hr₁.next x hx ((hmem x).mp hxl)).trans (hr.next x hx ((hmem x).mp hxl)).symm)
    fun x hx hxl => (hr₁.prev x hx ((hmem x).mp hxl)).trans (hr.prev x hx ((hmem x).mp hxl)).symm]

theorem insertsInPlace [DecidableEq α] (hless : WeakOrder less) {m : Links α} {head tail elem : α}
    (h : m.IsList head tail list) (helem : elem ∉ head :: (list ++ [tail]))
    (hs : Sorted less list) : InsertsInPlace less m head tail list elem := by
  obtain ⟨m', before, after, hlist, -, hins, hbefore, hafter, hinsert⟩ :=
    h.listInsertOrdered helem less (Nat.lt_succ_self list.length)
  have hless_after : ∀ b ∈ after, less elem b = true :=
    Sorted.less_after hless (List.pairwise_append.mp (hlist ▸ hs)).2.1 hafter
  refine ⟨m', before, after, hlist, fun fuel hfuel => ?_, hins,
    Sorted.insert hless (hlist ▸ hs) hbefore hless_after, fun a ha heq => ?_⟩
  · obtain ⟨m₁, before₁, after₁, -, hm₁, hins₁, -, -, hinsert₁⟩ :=
      h.listInsertOrdered helem less hfuel
    have hlist' : before₁ ++ elem :: after₁ = before ++ elem :: after := hinsert₁.symm.trans hinsert
    have hmem : ∀ x, x ∉ before ++ elem :: after → x ≠ elem ∧ x ∉ list := fun x hx => by
      simp only [List.mem_append, List.mem_cons, not_or] at hx
      simp [hlist, hx]
    have hl₁ := hins₁.isList
    rw [hlist'] at hl₁
    rw [hm₁, hl₁.ext hins.isList
      (fun x hx hxl => (hins₁.next x hx (hmem x hxl).1 (hmem x hxl).2).trans
        (hins.next x hx (hmem x hxl).1 (hmem x hxl).2).symm)
      fun x hx hxl => (hins₁.prev x hx (hmem x hxl).1 (hmem x hxl).2).trans
        (hins.prev x hx (hmem x hxl).1 (hmem x hxl).2).symm]
  · rw [hlist] at ha
    refine (List.mem_append.mp ha).resolve_right fun ha => ?_
    simp [equivalent, hless_after a ha] at heq

/-- `list_sort` is a stable sort that ends, and `list_insert_ordered` keeps a list sorted. -/
theorem list_sort_stable :
    (∀ s : Schedule.Sys, WeakOrder s.threadCmpPriority ∧ WeakOrder s.lockCmpPriority) ∧
      ∀ {α : Type} [DecidableEq α] {less : α → α → Bool}, WeakOrder less →
        ∀ {m : Links α} {head tail : α} {list : List α}, m.IsList head tail list →
          SortsInPlace less m head tail list ∧
            ∀ elem, elem ∉ head :: (list ++ [tail]) → Sorted less list →
              InsertsInPlace less m head tail list elem := by
  refine ⟨fun s => ⟨weakOrder_of_key _, weakOrder_of_key _⟩, ?_⟩
  intro α _ less hless m head tail list h
  exact ⟨sortsInPlace hless h, fun elem helem hs => insertsInPlace hless h helem hs⟩

/-- The elements 1 to 3 between 0 and 4, with 2 before the others in the order. -/
theorem list_sort_stable_three :
    SortsInPlace (fun a b => decide ((if b = 2 then 1 else 0 : Int) < if a = 2 then 1 else 0))
      ⟨fun x => if 0 < x ∧ x ≤ 4 then some (x - 1) else none,
        fun x => if x < 4 then some (x + 1) else none⟩ 0 4 [1, 2, 3] :=
  (list_sort_stable.2 (weakOrder_of_key fun a : Nat => if a = 2 then 1 else 0)
    ⟨by decide, by simp [Links.Adjacent], by decide, by decide⟩).1

end Pintos.Lib
