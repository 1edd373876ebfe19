import Pintos.Lib.Links
import Mathlib.Data.List.Chain
import Mathlib.Data.List.Nodup

/-!
# The links of a list

A list is in memory if the links go through its elements, from the head to the tail and back.

## Main results

* `IsList.listInsert`, `IsList.listSplice` — what moving elements makes of a list.
-/

namespace Pintos.Lib.Links

variable {α : Type} {m m' m'' : Links α} {head tail a b c x y : α}
  {list list' list'' pre mid post path : List α}

/-! ## Links -/

theorem listNext_eq (m : Links α) (elem : α) : m.listNext elem = m.next elem := by
  cases hn : m.next elem <;> cases hp : m.prev elem <;> simp [listNext, isHead, isInterior, hn, hp]

theorem listPrev_eq (m : Links α) (elem : α) : m.listPrev elem = m.prev elem := by
  cases hn : m.next elem <;> cases hp : m.prev elem <;> simp [listPrev, isTail, isInterior, hn, hp]

/-- Two elements are next to each other. -/
def Adjacent (m : Links α) (x y : α) : Prop := m.next x = some y ∧ m.prev y = some x

/-- The links go through a path. -/
abbrev Chain (m : Links α) (path : List α) : Prop := path.IsChain m.Adjacent

/-- Links that stay the same along a path. -/
theorem Chain.congr (h : m.Chain path) (hnext : ∀ x ∈ path.dropLast, m'.next x = m.next x)
    (hprev : ∀ x ∈ path.tail, m'.prev x = m.prev x) : m'.Chain path := by
  induction path with
  | nil => exact .nil
  | cons x path ih =>
    cases path with
    | nil => exact .singleton x
    | cons y path =>
      obtain ⟨⟨hxy, hyx⟩, htail⟩ := List.isChain_cons_cons.mp h
      refine .cons_cons ⟨?_, ?_⟩ (ih htail (fun z hz => ?_) fun z hz => ?_)
      · rw [hnext x (by simp), hxy]
      · rw [hprev y (by simp), hyx]
      · exact hnext z (by simpa using Or.inr hz)
      · exact hprev z (by simpa using Or.inr hz)

/-- An element has links in both directions. -/
theorem isInterior_of (hp : m.prev x = some a) (hn : m.next x = some b) :
    m.isInterior x = true := by
  simp [isInterior, hp, hn]

/-- An element can have another one before it. -/
theorem behind_of (hp : m.prev x = some a) : (m.isInterior x || m.isTail x) = true := by
  cases hn : m.next x <;> simp [isInterior, isTail, hp, hn]

/-! ## Lists -/

/-- A list from `head` to `tail`. -/
structure IsList (m : Links α) (head tail : α) (list : List α) : Prop where
  nodup : (head :: (list ++ [tail])).Nodup
  chain : m.Chain (head :: (list ++ [tail]))
  prev_head : m.prev head = none
  next_tail : m.next tail = none

/-- The links of a list are all that has changed, and it has the elements of `list` in another
order. -/
structure Reordered (m : Links α) (head tail : α) (list : List α) (m' : Links α)
    (list' : List α) : Prop where
  isList : m'.IsList head tail list'
  perm : list'.Perm list
  next : ∀ x, x ≠ head → x ∉ list → m'.next x = m.next x
  prev : ∀ x, x ≠ tail → x ∉ list → m'.prev x = m.prev x

theorem IsList.refl (h : m.IsList head tail list) : Reordered m head tail list m list :=
  ⟨h, List.Perm.refl _, fun _ _ _ => rfl, fun _ _ _ => rfl⟩

theorem Reordered.trans (h : Reordered m head tail list m' list')
    (h' : Reordered m' head tail list' m'' list'') : Reordered m head tail list m'' list'' where
  isList := h'.isList
  perm := h'.perm.trans h.perm
  next x hx hxl := (h'.next x hx fun hx' => hxl (h.perm.mem_iff.mp hx')).trans (h.next x hx hxl)
  prev x hx hxl := (h'.prev x hx fun hx' => hxl (h.perm.mem_iff.mp hx')).trans (h.prev x hx hxl)

theorem IsList.suffix (h : m.IsList head tail (pre ++ a :: list)) :
    m.Chain (a :: (list ++ [tail])) := by
  have hchain := h.chain
  rw [show head :: (pre ++ a :: list ++ [tail]) = (head :: pre) ++ (a :: (list ++ [tail])) by simp]
    at hchain
  exact hchain.right_of_append

theorem IsList.apart (h : m.IsList head tail (pre ++ a :: list)) :
    a ∉ list ++ [tail] ∧ tail ∉ list := by
  have hn := h.nodup
  simp only [List.nodup_cons, List.nodup_append, List.mem_append, List.mem_cons] at hn ⊢
  grind

theorem IsList.ne_of_mem (h : m.IsList head tail (pre ++ a :: list)) (hb : b ∈ list ++ [tail]) :
    a ≠ b := by
  rintro rfl
  exact h.apart.1 hb

theorem IsList.ne_tail (h : m.IsList head tail (pre ++ a :: list)) : a ≠ tail :=
  h.ne_of_mem List.mem_concat_self

theorem IsList.next (h : m.IsList head tail (pre ++ a :: list)) :
    m.next a = (list ++ [tail]).head? := by
  have hchain := h.suffix
  cases hlist : list ++ [tail] with
  | nil => simp at hlist
  | cons b rest =>
    rw [hlist] at hchain
    exact (List.isChain_cons_cons.mp hchain).1.1

theorem IsList.begin (h : m.IsList head tail list) : m.next head = (list ++ [tail]).head? := by
  cases hlist : list ++ [tail] with
  | nil => simp at hlist
  | cons b rest =>
    have hchain := h.chain
    rw [hlist] at hchain
    exact (List.isChain_cons_cons.mp hchain).1.1

theorem exists_concat (a : α) (list : List α) : ∃ L p, a :: list = L ++ [p] :=
  ⟨_, _, (List.dropLast_append_getLast (List.cons_ne_nil a list)).symm⟩

/-- Which element is before another one depends on the list only. -/
theorem exists_prev (head : α) (hx : x ∈ list ++ [tail]) :
    ∃ p, ∀ m : Links α, m.IsList head tail list → m.prev x = some p := by
  obtain ⟨pre, post, hsplit⟩ := List.append_of_mem hx
  obtain ⟨L, p, hL⟩ := exists_concat head pre
  refine ⟨p, fun m h => ?_⟩
  have hchain := h.chain
  rw [hsplit, ← List.cons_append, hL, List.append_assoc] at hchain
  exact (List.isChain_cons_cons.mp hchain.right_of_append).1.2

/-- A list, and what is outside of it, determine the links. -/
theorem IsList.ext (h : m.IsList head tail list) (h' : m'.IsList head tail list)
    (hnext : ∀ x, x ≠ head → x ∉ list → m.next x = m'.next x)
    (hprev : ∀ x, x ≠ tail → x ∉ list → m.prev x = m'.prev x) : m = m' := by
  have hn : m.next = m'.next := by
    funext x
    by_cases hx : x ∈ list
    · obtain ⟨pre, post, rfl⟩ := List.append_of_mem hx
      rw [h.next, h'.next]
    · by_cases hxh : x = head
      · rw [hxh, h.begin, h'.begin]
      · exact hnext x hxh hx
  have hp : m.prev = m'.prev := by
    funext x
    by_cases hx : x ∈ list ++ [tail]
    · obtain ⟨p, hp⟩ := exists_prev head hx
      rw [hp m h, hp m' h']
    · simp only [List.mem_append, List.mem_singleton, not_or] at hx
      exact hprev x hx.2 hx.1
  cases m
  cases m'
  cases hn
  cases hp
  rfl

/-! ## Moving elements -/

variable {p q : α} {L K R : List α}

/-- Who is not whom when a path has no element twice. -/
theorem spliced_apart (hn : (L ++ p :: (K ++ q :: b :: c :: R)).Nodup) (hK : K ++ [q] = a :: mid) :
    (∀ x ∈ L, x ∉ [p, b, q]) ∧ (∀ x ∈ L ++ [p], x ∉ [a, b, c]) ∧ (∀ x ∈ K, x ∉ [p, b, q]) ∧
      (∀ x ∈ mid, x ∉ [a, b, c]) ∧ (∀ x ∈ c :: R, x ∉ [p, b, q]) ∧ (∀ x ∈ R, x ∉ [a, b, c]) ∧
      p ≠ q ∧ p ≠ b ∧ q ≠ b ∧ a ≠ b ∧ a ≠ c ∧ b ≠ c := by
  have hmem : ∀ x, x ∈ K ∨ x = q ↔ x = a ∨ x ∈ mid := fun x => by
    rw [← List.mem_cons, ← hK, List.mem_append, List.mem_singleton]
  have hmid : (a :: mid).Nodup := by
    rw [← hK]
    refine (hn.sublist ?_)
    simp
  simp only [List.nodup_append, List.nodup_cons, List.mem_append, List.mem_cons, not_or] at hn hmid
  simp only [List.mem_append, List.mem_cons, List.not_mem_nil, or_false, not_or]
  refine ⟨?_, ?_, ?_, ?_, ?_, ?_, ?_⟩ <;> grind

theorem chain_adjacent (hc : m.Chain (L ++ p :: (K ++ q :: b :: c :: R)))
    (hK : K ++ [q] = a :: mid) : m.Adjacent p a ∧ m.Adjacent q b ∧ m.Adjacent b c := by
  obtain ⟨-, hc⟩ := List.isChain_split.mp hc
  obtain ⟨hcK, hc⟩ := List.isChain_cons_split.mp hc
  rw [hK] at hcK
  obtain ⟨hqb, hc⟩ := List.isChain_cons_cons.mp hc
  exact ⟨(List.isChain_cons_cons.mp hcK).1, hqb, (List.isChain_cons_cons.mp hc).1⟩

variable [DecidableEq α]

/-- The links when `b`, which is between `q` and `c`, has been moved between `p` and `a`. -/
def spliced (m : Links α) (p a q b c : α) : Links α where
  prev x := if x = a then some b else if x = b then some p else if x = c then some q else m.prev x
  next x := if x = p then some b else if x = b then some a else if x = q then some c else m.next x

theorem spliced_next (hx : x ∉ [p, b, q]) : (m.spliced p a q b c).next x = m.next x := by
  simp only [List.mem_cons, List.not_mem_nil, or_false, not_or] at hx
  simp [spliced, hx]

theorem spliced_prev (hx : x ∉ [a, b, c]) : (m.spliced p a q b c).prev x = m.prev x := by
  simp only [List.mem_cons, List.not_mem_nil, or_false, not_or] at hx
  simp [spliced, hx]

/-- `list_splice` of one element. -/
theorem listSplice_eq (hpa : m.Adjacent p a) (hqb : m.Adjacent q b) (hbc : m.Adjacent b c)
    (hq : q ≠ b) (ha : a ≠ b) (hac : a ≠ c) (hc : b ≠ c) :
    m.listSplice a b c = some (m.spliced p a q b c) := by
  rw [listSplice, if_pos (behind_of hpa.2), if_neg hc, listPrev_eq, hbc.2, Option.bind_some, splice,
    if_pos (by simp [isInterior_of hqb.2 hbc.1])]
  have hbq : b ≠ q := hq.symm
  simp only [setNext, setPrev, hqb.2, hbc.1, hpa.2, Function.update_of_ne hbq,
    Function.update_of_ne hac, Function.update_of_ne ha, Option.bind_eq_bind, Option.bind_some,
    Option.pure_def]
  refine congrArg some ?_
  simp only [spliced, Links.mk.injEq]
  exact ⟨funext fun x => by simp [Function.update_apply],
    funext fun x => by simp [Function.update_apply]⟩

/-- The path goes through `b` in its new place. -/
theorem spliced_chain (hn : (L ++ p :: (K ++ q :: b :: c :: R)).Nodup)
    (hc : m.Chain (L ++ p :: (K ++ q :: b :: c :: R))) (hK : K ++ [q] = a :: mid) :
    (m.spliced p a q b c).Chain (L ++ p :: b :: (K ++ q :: c :: R)) := by
  have hsame : ∀ l : List α, m.Chain l → (∀ x ∈ l.dropLast, x ∉ [p, b, q]) →
      (∀ x ∈ l.tail, x ∉ [a, b, c]) → (m.spliced p a q b c).Chain l := fun l hl hnext hprev =>
    hl.congr (fun x hx => spliced_next (hnext x hx)) fun x hx => spliced_prev (hprev x hx)
  obtain ⟨hL, hLp, hKs, hmid, hR, hR', hpq, hpb, hqb, hab, hac, hbc⟩ := spliced_apart hn hK
  obtain ⟨hcL, hc⟩ := List.isChain_split.mp hc
  obtain ⟨hcK, hc⟩ := List.isChain_cons_split.mp hc
  rw [hK] at hcK
  have hcK := (List.isChain_cons_cons.mp hcK).2
  have hcR := (List.isChain_cons_cons.mp (List.isChain_cons_cons.mp hc).2).2
  refine List.isChain_split.mpr ⟨hsame _ hcL ?_ ?_, List.isChain_cons_cons.mpr ⟨?_,
    List.isChain_cons_split.mpr ⟨?_, List.isChain_cons_cons.mpr ⟨?_, hsame _ hcR ?_ hR'⟩⟩⟩⟩
  · rw [List.dropLast_concat]
    exact hL
  · exact fun x hx => hLp x (List.mem_of_mem_tail hx)
  · exact ⟨by simp [spliced], by simp [spliced, hab.symm]⟩
  · rw [hK]
    refine List.isChain_cons_cons.mpr ⟨⟨by simp [spliced, hpb.symm], by simp [spliced]⟩,
      hsame _ hcK ?_ hmid⟩
    rw [← hK, List.dropLast_concat]
    exact hKs
  · exact ⟨by simp [spliced, hpq.symm, hqb], by simp [spliced, hac.symm, hbc.symm]⟩
  · exact fun x hx => hR x (List.dropLast_subset _ hx)

/-- `list_splice` moves `b` before `a`. -/
theorem IsList.listSplice (h : m.IsList head tail (pre ++ a :: (mid ++ b :: post)))
    (hc : (post ++ [tail]).head? = some c) :
    ∃ m', m.listSplice a b c = some m' ∧ Reordered m head tail (pre ++ a :: (mid ++ b :: post)) m'
      (pre ++ b :: a :: (mid ++ post)) := by
  obtain ⟨L, p, hL⟩ := exists_concat head pre
  obtain ⟨K, q, hK⟩ := exists_concat a mid
  obtain ⟨R, hR⟩ : ∃ R, post ++ [tail] = c :: R := List.head?_eq_some_iff.mp hc
  have hpath : head :: (pre ++ a :: (mid ++ b :: post) ++ [tail]) =
      L ++ p :: (K ++ q :: b :: c :: R) := by
    calc head :: (pre ++ a :: (mid ++ b :: post) ++ [tail])
        = (head :: pre) ++ ((a :: mid) ++ b :: (post ++ [tail])) := by simp
      _ = L ++ p :: (K ++ q :: b :: c :: R) := by rw [hL, hK, hR]; simp
  have hpath' : head :: (pre ++ b :: a :: (mid ++ post) ++ [tail]) =
      L ++ p :: b :: (K ++ q :: c :: R) := by
    calc head :: (pre ++ b :: a :: (mid ++ post) ++ [tail])
        = (head :: pre) ++ b :: ((a :: mid) ++ (post ++ [tail])) := by simp
      _ = L ++ p :: b :: (K ++ q :: c :: R) := by rw [hL, hK, hR]; simp
  have hperm : (pre ++ b :: a :: (mid ++ post)).Perm (pre ++ a :: (mid ++ b :: post)) :=
    List.Perm.append_left pre (@List.perm_middle α b (a :: mid) post).symm
  have hn := h.nodup
  have hchain := h.chain
  rw [hpath] at hn hchain
  obtain ⟨hLn, hLp, -, -, hRn, -, -, -, hqb, hab, hac, hbc⟩ := spliced_apart hn hK.symm
  obtain ⟨hadj, hadj', hadj''⟩ := chain_adjacent hchain hK.symm
  have hp : p ∈ head :: pre := by simp [hL]
  have hq : q ∈ a :: mid := by simp [hK]
  have hcpost : c ∈ post ++ [tail] := by simp [hR]
  refine ⟨_, listSplice_eq hadj hadj' hadj'' hqb hab hac hbc, ⟨⟨?_, ?_, ?_, ?_⟩, hperm, ?_, ?_⟩⟩
  · exact ((hperm.append_right [tail]).cons head).nodup_iff.mpr h.nodup
  · rw [hpath']
    exact spliced_chain hn hchain hK.symm
  · rw [spliced_prev (hLp head (by simp [← hL])), h.prev_head]
  · rw [spliced_next (hRn tail (by simp [← hR])), h.next_tail]
  · intro x hx hxl
    refine spliced_next ?_
    grind
  · intro x hx hxl
    refine spliced_prev ?_
    grind

/-! ## Insertion -/

variable {elem : α}

/-- `elem` has come into a list. -/
structure Inserted (m : Links α) (head tail : α) (list : List α) (elem : α) (m' : Links α)
    (list' : List α) : Prop where
  isList : m'.IsList head tail list'
  next : ∀ x, x ≠ head → x ≠ elem → x ∉ list → m'.next x = m.next x
  prev : ∀ x, x ≠ tail → x ≠ elem → x ∉ list → m'.prev x = m.prev x

/-- The links when `elem` has come between `p` and `b`. -/
def inserted (m : Links α) (p b elem : α) : Links α where
  prev x := if x = b then some elem else if x = elem then some p else m.prev x
  next x := if x = p then some elem else if x = elem then some b else m.next x

theorem inserted_next (hx : x ≠ p) (hxe : x ≠ elem) : (m.inserted p b elem).next x = m.next x := by
  simp [inserted, hx, hxe]

theorem inserted_prev (hx : x ≠ b) (hxe : x ≠ elem) : (m.inserted p b elem).prev x = m.prev x := by
  simp [inserted, hx, hxe]

theorem listInsert_eq (hpb : m.Adjacent p b) (he : b ≠ elem) :
    m.listInsert b elem = some (m.inserted p b elem) := by
  rw [Links.listInsert, if_pos (behind_of hpb.2)]
  simp only [setNext, setPrev, hpb.2, Function.update_of_ne he, Option.bind_eq_bind,
    Option.bind_some, Option.pure_def]
  refine congrArg some ?_
  simp only [inserted, Links.mk.injEq]
  exact ⟨funext fun x => by simp [Function.update_apply],
    funext fun x => by simp [Function.update_apply]⟩

theorem inserted_chain (hn : (L ++ p :: b :: R).Nodup) (hc : m.Chain (L ++ p :: b :: R))
    (he : elem ∉ L ++ p :: b :: R) : (m.inserted p b elem).Chain (L ++ p :: elem :: b :: R) := by
  simp only [List.nodup_append, List.nodup_cons, List.mem_cons, not_or] at hn
  simp only [List.mem_append, List.mem_cons, not_or] at he
  obtain ⟨-, ⟨⟨hpb, hpR⟩, ⟨hbR, -⟩⟩, hL⟩ := hn
  obtain ⟨heL, hep, heb, heR⟩ := he
  obtain ⟨hcL, hc⟩ := List.isChain_split.mp hc
  have hcR := (List.isChain_cons_cons.mp hc).2
  refine List.isChain_split.mpr ⟨Chain.congr hcL (fun x hx => ?_) fun x hx => ?_,
    List.isChain_cons_cons.mpr ⟨⟨by simp [inserted], by simp [inserted, heb]⟩,
    List.isChain_cons_cons.mpr ⟨⟨by simp [inserted, hep], by simp [inserted]⟩,
    Chain.congr hcR (fun x hx => ?_) fun x hx => ?_⟩⟩⟩
  · rw [List.dropLast_concat] at hx
    exact inserted_next (hL x hx p (.inl rfl)) fun hxe => heL (hxe ▸ hx)
  · have hx := List.mem_of_mem_tail hx
    exact inserted_prev (by grind) (by grind)
  · have hx := List.dropLast_subset _ hx
    exact inserted_next (by grind) (by grind)
  · exact inserted_prev (fun hxb => hbR (hxb ▸ hx)) fun hxe => heR (hxe ▸ hx)

/-- `list_insert` puts an element before `b`. -/
theorem IsList.listInsert (h : m.IsList head tail (pre ++ post))
    (he : elem ∉ head :: (pre ++ post ++ [tail])) (hb : (post ++ [tail]).head? = some b) :
    ∃ m', m.listInsert b elem = some m' ∧
      Inserted m head tail (pre ++ post) elem m' (pre ++ elem :: post) := by
  obtain ⟨L, p, hL⟩ := exists_concat head pre
  obtain ⟨R, hR⟩ : ∃ R, post ++ [tail] = b :: R := List.head?_eq_some_iff.mp hb
  have hpath : head :: (pre ++ post ++ [tail]) = L ++ p :: b :: R := by
    calc head :: (pre ++ post ++ [tail]) = (head :: pre) ++ (post ++ [tail]) := by simp
      _ = L ++ p :: b :: R := by rw [hL, hR]; simp
  have hpath' : head :: (pre ++ elem :: post ++ [tail]) = L ++ p :: elem :: b :: R := by
    calc head :: (pre ++ elem :: post ++ [tail])
        = (head :: pre) ++ elem :: (post ++ [tail]) := by simp
      _ = L ++ p :: elem :: b :: R := by rw [hL, hR]; simp
  have hends := h.nodup
  simp only [List.nodup_cons, List.nodup_append, List.mem_append, List.mem_singleton, not_or]
    at hends
  have helem : head ≠ elem ∧ tail ≠ elem := by
    constructor <;> rintro rfl <;> simp at he
  have hn := h.nodup
  have hchain := h.chain
  rw [hpath] at hn hchain he
  have hadj : m.Adjacent p b := (List.isChain_cons_cons.mp (List.isChain_split.mp hchain).2).1
  have hp : p ∈ head :: pre := by simp [hL]
  have hbpost : b ∈ post ++ [tail] := by simp [hR]
  have hne : b ≠ elem := by
    rintro rfl
    simp at he
  have hperm : (L ++ p :: elem :: b :: R).Perm (elem :: (L ++ p :: b :: R)) := by
    rw [show L ++ p :: elem :: b :: R = (L ++ [p]) ++ elem :: (b :: R) by simp,
      show L ++ p :: b :: R = (L ++ [p]) ++ (b :: R) by simp]
    exact List.perm_middle
  refine ⟨_, listInsert_eq hadj hne, ⟨?_, ?_, ?_, ?_⟩, ?_, ?_⟩
  · rw [hpath']
    exact hperm.nodup_iff.mpr (List.nodup_cons.mpr ⟨he, hn⟩)
  · rw [hpath']
    exact inserted_chain hn hchain he
  · rw [inserted_prev (by grind) helem.1, h.prev_head]
  · rw [inserted_next (by grind) helem.2, h.next_tail]
  · intro x hx hxe hxl
    exact inserted_next (by grind) hxe
  · intro x hx hxe hxl
    exact inserted_prev (by grind) hxe

end Pintos.Lib.Links
