import Pintos.Properties.FreeMap

/-!
# Reserving sectors

`inode_reserve` adds sectors to a file. `Extends` says what that does to a family of
pointers: old pointers stay, new ones are to fresh sectors, and new sectors of data hold
zeros. It is proved for one pointer, lifted to the entries of an index block and from there
to a header.

The allocation of an index block may be refused. The code then goes on as if sector 0 had been
allocated, and writes there.
-/

namespace Pintos.Filesys

open Pintos.Logic Pintos.Logic.Exec Pintos.Lib

attribute [local irreducible] Exec.wp

/-! ## Growing -/

/-- More sectors are in use, and of those in use before only the free map's header and data and
the sectors in `D` have been written. -/
structure Grows (D : Nat → Prop) (s s' : Fs) : Prop extends MapFileKept s s' where
  used : ∀ k, s.used k → s'.used k
  view : ∀ k, s.used k → k ≠ freeMapSector → ¬ D k → ¬ s.DataOfFreeMap k → s'.view k = s.view k
  live : s'.history.live = s.history.live
  events : s.history.Le s'.history
  written : s.env.MemOk → s.FreeMapWritten → s'.FreeMapWritten

section

variable {D D' : Nat → Prop} {s s' s'' : Fs} {k : Nat}

theorem Grows.refl (D : Nat → Prop) (s : Fs) : Grows D s s :=
  ⟨⟨rfl, rfl, rfl, fun _ _ _ _ => rfl⟩, fun _ h => h, fun _ _ _ _ _ => rfl, rfl,
    List.Subset.refl _, fun _ h => h⟩

theorem Grows.mono (h : Grows D s s') (hD : ∀ k, D k → D' k) : Grows D' s s' :=
  { h with view := fun k hu h0 hk => h.view k hu h0 fun hk' => hk (hD k hk') }

theorem Grows.trans (h : Grows D s s') (h' : Grows D' s' s'')
    (hD : ∀ k, s.used k → D' k → D k) : Grows D s s'' where
  toMapFileKept := h.toMapFileKept.trans h'.toMapFileKept
  used k hk := h'.used k (h.used k hk)
  view k hu h0 hk hm := by
    rw [h'.view k (h.used k hu) h0 (fun hk' => hk (hD k hu hk'))
      (fun hm' => hm (h.dataOfFreeMap.mp hm')), h.view k hu h0 hk hm]
  live := h'.live.trans h.live
  events := List.Subset.trans h.events h'.events
  written hm hw := h'.written (h.env ▸ hm) (h.written hm hw)

theorem Grows.taken (h : Grows D s s') (hk : s.Taken k) : s'.Taken k :=
  ⟨h.used k hk.1, fun hm => hk.2.1 (h.ofFreeMap.mp hm), hk.2.2⟩

theorem FreeMapOk.allocated_grows {r : Option Nat} (h : Allocated s r s') :
    Grows (fun _ => False) s s' where
  toMapFileKept := h.toMapFileKept
  used k hk := (h.used k).mpr (Or.inl hk)
  view k _ _ _ hm := h.view k hm
  live := h.live
  events := by
    rw [History.Le, h.events]
    split
    · exact List.subset_cons_self _ _
    · exact List.Subset.refl _
  written hm hw := h.written hm fun _ => hw

theorem Fs.Taken.not_data (h : s.Taken k) : ¬ s.DataOfFreeMap k := fun hd => h.2.1 hd.ofFreeMap

/-- The sector is not one of the free map's if it is not in use. -/
theorem FreeMapOk.not_ofFreeMap (hs : FreeMapOk s) (hk : ¬ s.used k) : ¬ s.OfFreeMap k :=
  fun hm => hk (hs.ofFreeMap_used hm)

/-- A write to a sector that is not the free map's keeps the pointers of the free map file. -/
theorem mapFileKept_write (h : Stored s s') {b : Block} (hk : ¬ s.OfFreeMap k)
    (hv : s'.view = Function.update s.view k b) : MapFileKept s s' where
  rest := by
    refine h.rest.trans ?_
    rw [h.freeMap, h.history]
  size := h.size
  bitCnt := by rw [h.freeMap]
  ptr i hi x hx := by
    refine ptr_congr (fun _ _ => rfl) (fun y hy _ hne j _ => ?_) hx
    rw [hv, Function.update_of_ne]
    rintro rfl
    exact hk ⟨hne, i, hi, y, hy, rfl⟩

theorem grows_write (h : Stored s s') {b : Block} (hk : ¬ s.OfFreeMap k)
    (hv : s'.view = Function.update s.view k b) : Grows (· = k) s s' where
  toMapFileKept := mapFileKept_write h hk hv
  used j hj := by rwa [Fs.used, h.freeMap]
  view j _ _ hj _ := by rw [hv, Function.update_of_ne hj]
  live := by rw [h.history]
  events := by rw [h.history]; exact List.Subset.refl _
  written _ hw i hi q hq := by
    have hkept := mapFileKept_write h hk hv
    rw [hkept.freeMapInode?] at hi
    rw [h.freeMap] at hq ⊢
    rw [← hw i hi q hq, byteAt, byteAt, slotOf_congr (hkept.ptr i hi)]
    by_cases h0 : slotOf s.view i.data (q / 512) = 0
    · rw [if_pos h0, if_pos h0]
    · rw [if_neg h0, if_neg h0, hv, Function.update_of_ne]
      intro he
      exact hk (Fs.DataOfFreeMap.ofFreeMap ⟨he ▸ h0, i, hi, _, he⟩)

end

/-! ## Families of pointers -/

section

variable {ι : Type} {dom leaf : ι → Prop} {f f' f'' : ι → Nat} {s s' s'' : Fs}

/-- The index blocks of a family of pointers. -/
def Inner (dom leaf : ι → Prop) (f : ι → Nat) (k : Nat) : Prop :=
  k ≠ 0 ∧ ∃ p, dom p ∧ ¬ leaf p ∧ f p = k

/-- From `s` to `s'` a family of pointers has been extended. -/
structure Extends (dom leaf : ι → Prop) (f f' : ι → Nat) (s s' : Fs) : Prop extends
    Grows (Inner dom leaf f) s s' where
  pointers : Grown dom s.used f f'
  taken : ∀ p, dom p → f p = 0 → f' p ≠ 0 → s'.Taken (f' p)
  zero : ∀ p, dom p → leaf p → f p = 0 → f' p ≠ 0 → s'.view (f' p) = Bytes.zeros

theorem Extends.refl (dom leaf : ι → Prop) (f : ι → Nat) (s : Fs) : Extends dom leaf f f s s :=
  ⟨Grows.refl _ s, Grown.refl _ f, fun _ _ h h' => absurd h h', fun _ _ _ h h' => absurd h h'⟩

theorem Extends.owned (h : Extends dom leaf f f' s s') (ho : Owned dom s.Taken f) :
    Owned dom s'.Taken f' :=
  ho.grown h.pointers (fun _ hk => hk.1) (fun _ hk => h.toGrows.taken hk) h.taken

/-- New index blocks were not in use. -/
theorem Extends.inner (h : Extends dom leaf f f' s s') {k : Nat} (hu : s.used k)
    (hk : Inner dom leaf f' k) : Inner dom leaf f k := by
  obtain ⟨h0, p, hp, hl, rfl⟩ := hk
  by_cases hfp : f p = 0
  · exact absurd hu (h.pointers.fresh p hp hfp h0)
  · exact ⟨h0, p, hp, hl, (h.pointers.keep p hp hfp).symm⟩

theorem Extends.trans (h : Extends dom leaf f f' s s') (h' : Extends dom leaf f' f'' s' s'')
    (ho : Owned dom s.Taken f) : Extends dom leaf f f'' s s'' where
  toGrows := h.toGrows.trans h'.toGrows fun k hu hk => h.inner hu hk
  pointers := h.pointers.trans h'.pointers h.used fun p hp h0 hne => (h.taken p hp h0 hne).1
  taken p hp h0 hne := by
    by_cases h1 : f' p = 0
    · exact h'.taken p hp h1 hne
    · rw [h'.pointers.keep p hp h1]
      exact h'.toGrows.taken (h.taken p hp h0 h1)
  zero p hp hl h0 hne := by
    by_cases h1 : f' p = 0
    · exact h'.zero p hp hl h1 hne
    · have ht := h.taken p hp h0 h1
      rw [h'.pointers.keep p hp h1, h'.view _ ht.1 ht.2.2 ?_ ht.not_data, h.zero p hp hl h0 h1]
      rintro ⟨-, q, hq, hlq, he⟩
      exact hlq ((h.owned ho).inj p q hp hq h1 he.symm ▸ hl)

/-- A data sector keeps its contents. -/
theorem Extends.leaf_view (h : Extends dom leaf f f' s s') (ho : Owned dom s.Taken f) {p : ι}
    (hp : dom p) (hl : leaf p) (hne : f p ≠ 0) : s'.view (f' p) = s.view (f p) := by
  have ht := ho.ok p hp hne
  rw [h.pointers.keep p hp hne, h.view _ ht.1 ht.2.2 ?_ ht.not_data]
  rintro ⟨-, q, hq, hlq, he⟩
  exact hlq (ho.inj p q hp hq hne he.symm ▸ hl)

end

/-! ## Trees and forests -/

/-- The pointers of a block: `n` words, with `d r` levels of index blocks under word `r`. -/
def InForest (n : Nat) (d : Nat → Nat) (x : Slot) : Prop := x.1 < n ∧ IsPath 128 (d x.1) x.2

/-- The pointers of a block that lead to data. -/
def IsEnd (d : Nat → Nat) (x : Slot) : Prop := x.2.length = d x.1

section

variable {s s' s'' : Fs} {n r e : Nat} {d : Nat → Nat} {blk : Block}

theorem ptr_setWord_self (v : Nat → Block) (hr : r < 128) (he : e < 4294967296) (p : List Nat) :
    ptr v (blk.setWord r e) (r, p) = node (kids v) e p := by
  rw [ptr, Bytes.word_setWord_self blk (show 4 * r + 4 ≤ 512 by omega) he]

/-- The words of a block are told apart by their trees, so the trees share nothing. -/
theorem Extends.ptr_ne {f' : List Nat → Nat} (ho : Owned (InForest n d) s.Taken (ptr s.view blk))
    (hr : r < n)
    (h : Extends (IsPath 128 (d r)) (·.length = d r) (node (kids s.view) (blk.word r)) f' s s')
    {x : Slot} (hx : InForest n d x) (hne : x.1 ≠ r) (e : Nat) :
    ptr s'.view (blk.setWord r e) x = ptr s.view blk x := by
  unfold ptr
  rw [Bytes.word_setWord_ne blk hne]
  refine node_congr hx.2 fun q hq hlt h0 i hi => ?_
  have hxq : InForest n d (x.1, q) := ⟨hx.1, hq⟩
  have ht : s.Taken (ptr s.view blk (x.1, q)) := ho.ok _ hxq h0
  show (s'.view (ptr s.view blk (x.1, q))).word i = (s.view (ptr s.view blk (x.1, q))).word i
  rw [h.view _ ht.1 ht.2.2 ?_ ht.not_data]
  rintro ⟨-, q', hq', -, he⟩
  exact hne (congrArg Prod.fst (ho.inj (x.1, q) (r, q') hxq ⟨hr, hq'⟩ h0 he.symm))

/-- To extend the tree under a word of a block is to extend the block. -/
theorem Extends.entry (ho : Owned (InForest n d) s.Taken (ptr s.view blk)) (hr : r < n)
    (hn : n ≤ 128) (he : e < 4294967296)
    (h : Extends (IsPath 128 (d r)) (·.length = d r) (node (kids s.view) (blk.word r))
      (node (kids s'.view) e) s s') :
    Extends (InForest n d) (IsEnd d) (ptr s.view blk) (ptr s'.view (blk.setWord r e)) s s' := by
  have hself : ∀ p, ptr s'.view (blk.setWord r e) (r, p) = node (kids s'.view) e p :=
    ptr_setWord_self s'.view (Nat.lt_of_lt_of_le hr hn) he
  have hother : ∀ x, InForest n d x → x.1 ≠ r →
      ptr s'.view (blk.setWord r e) x = ptr s.view blk x := fun x hx hne =>
    h.ptr_ne ho hr hx hne e
  -- only the tree has new pointers
  have hnew : ∀ x, InForest n d x → ptr s.view blk x = 0 →
      ptr s'.view (blk.setWord r e) x ≠ 0 → ∃ p, x = (r, p) ∧ IsPath 128 (d r) p := by
    rintro ⟨j, p⟩ hx h0 hne
    by_cases hj : j = r
    · subst hj
      exact ⟨p, rfl, hx.2⟩
    · rw [hother _ hx hj] at hne
      exact absurd h0 hne
  refine ⟨h.toGrows.mono ?_, ⟨?_, ?_, ?_⟩, ?_, ?_⟩
  · rintro k ⟨h0, p, hp, hl, rfl⟩
    exact ⟨h0, (r, p), ⟨hr, hp⟩, hl, rfl⟩
  · rintro ⟨j, p⟩ hx hne
    by_cases hj : j = r
    · subst hj
      rw [hself]
      exact h.pointers.keep p hx.2 hne
    · exact hother _ hx hj
  · intro x hx h0 hne
    obtain ⟨p, rfl, hp⟩ := hnew x hx h0 hne
    rw [hself] at hne ⊢
    exact h.pointers.fresh p hp h0 hne
  · intro x y hx hy h0 h0' hne heq
    obtain ⟨p, rfl, hp⟩ := hnew x hx h0 hne
    obtain ⟨q, rfl, hq⟩ := hnew y hy h0' (heq ▸ hne)
    rw [hself] at hne
    rw [hself, hself] at heq
    rw [h.pointers.inj p q hp hq h0 h0' hne heq]
  · intro x hx h0 hne
    obtain ⟨p, rfl, hp⟩ := hnew x hx h0 hne
    rw [hself] at hne ⊢
    exact h.taken p hp h0 hne
  · intro x hx hl h0 hne
    obtain ⟨p, rfl, hp⟩ := hnew x hx h0 hne
    rw [hself] at hne ⊢
    exact h.zero p hp hl h0 hne

/-- The pointers below an index block are those of its words. -/
theorem node_index {v : Nat → Block} {k : Nat} (hk : k ≠ 0) (i : Nat) (p : List Nat) :
    node (kids v) k (i :: p) = ptr v (v k) (i, p) := node_cons hk

/-- The words of an index block own what is below it. -/
theorem owned_index {ok : Nat → Prop} {v : Nat → Block} {l : Nat} (he : e ≠ 0)
    (ho : Owned (IsPath 128 (l + 1)) ok (node (kids v) e)) :
    Owned (InForest 128 fun _ => l) ok (ptr v (v e)) := by
  have h : Owned (InForest 128 fun _ => l) ok (node (kids v) e ∘ fun x : Slot => x.1 :: x.2) := ho.comp _
    (fun x hx => isPath_cons.mpr hx) fun x y _ _ hxy => by
      obtain ⟨h1, h2⟩ := List.cons.inj hxy
      exact Prod.ext h1 h2
  exact h.congr fun x _ => (node_index he x.1 x.2).symm

end

/-! ## Index blocks -/

section

variable {ι : Type} {dom leaf : ι → Prop} {f f' f'' : ι → Nat} {s s' s'' : Fs} {e l k : Nat}
  {blk b : Block}

theorem Extends.sub (h : Extends dom leaf f f' s s')
    (hsub : ∀ p, dom p → f'' p = f' p ∨ f'' p = 0 ∧ f p = 0) : Extends dom leaf f f'' s s' := by
  have heq : ∀ p, dom p → f'' p ≠ 0 → f'' p = f' p := fun p hp hne =>
    (hsub p hp).resolve_right fun hz => hne hz.1
  refine ⟨h.toGrows, h.pointers.sub hsub, fun p hp h0 hne => ?_, fun p hp hl h0 hne => ?_⟩
  · have he := heq p hp hne
    rw [he] at hne ⊢
    exact h.taken p hp h0 hne
  · have he := heq p hp hne
    rw [he] at hne ⊢
    exact h.zero p hp hl h0 hne

/-- An index block of the family is written, and the pointers stay as they are. -/
theorem Extends.write (h : Extends dom leaf f f' s s') (ho : Owned dom s.Taken f)
    (hk : Inner dom leaf f k) (hw : Stored s' s'') (hv : s''.view = Function.update s'.view k b)
    (hf : ∀ p, dom p → f'' p = f' p) : Extends dom leaf f f'' s s'' := by
  obtain ⟨hk0, q, hq, hlq, hqk⟩ := hk
  have ht : s.Taken k := hqk ▸ ho.ok q hq (hqk ▸ hk0)
  have hgrow := grows_write hw (h.toGrows.taken ht).2.1 hv
  refine ⟨h.toGrows.trans hgrow fun j _ hj => hj ▸ ⟨hk0, q, hq, hlq, hqk⟩, h.pointers.sub
    fun p hp => Or.inl (hf p hp), fun p hp h0 hne => ?_, fun p hp hl h0 hne => ?_⟩
  · rw [hf p hp] at hne ⊢
    exact hgrow.taken (h.taken p hp h0 hne)
  · rw [hf p hp] at hne ⊢
    rw [hv, Function.update_of_ne, h.zero p hp hl h0 hne]
    intro he
    have hq' : f' q = k := (h.pointers.keep q hq (hqk ▸ hk0)).trans hqk
    exact hlq ((h.owned ho).inj p q hp hq hne (he.trans hq'.symm) ▸ hl)

/-- To extend the words of an index block is to extend the tree under it. -/
theorem Extends.tree {F F' : List Nat → Nat} {f f' : Slot → Nat} (he : e ≠ 0) (hF : F [] = e)
    (hF' : F' [] = e) (hf : ∀ i p, F (i :: p) = f (i, p))
    (hf' : ∀ i p, IsPath 128 (l + 1) (i :: p) → F' (i :: p) = f' (i, p))
    (h : Extends (InForest 128 fun _ => l) (IsEnd fun _ => l) f f' s s') :
    Extends (IsPath 128 (l + 1)) (·.length = l + 1) F F' s s' := by
  have hne : F [] ≠ 0 := hF ▸ he
  refine ⟨h.toGrows.mono ?_, ⟨?_, ?_, ?_⟩, ?_, ?_⟩
  · rintro k ⟨h0, ⟨i, p⟩, hx, hl, rfl⟩
    refine ⟨h0, i :: p, isPath_cons.mpr hx, fun hlen => hl ?_, hf i p⟩
    exact Nat.succ.inj hlen
  · intro p hp h0
    cases p with
    | nil => rw [hF, hF']
    | cons i p =>
      rw [hf' i p hp, hf]
      exact h.pointers.keep (i, p) (isPath_cons.mp hp) (hf i p ▸ h0)
  · intro p hp h0 hne'
    cases p with
    | nil => exact absurd h0 hne
    | cons i p =>
      rw [hf' i p hp] at hne' ⊢
      exact h.pointers.fresh (i, p) (isPath_cons.mp hp) (hf i p ▸ h0) hne'
  · intro p q hp hq h0 h0' hne' heq
    cases p with
    | nil => exact absurd h0 hne
    | cons i p =>
      cases q with
      | nil => exact absurd h0' hne
      | cons j q =>
        rw [hf' i p hp] at hne'
        rw [hf' i p hp, hf' j q hq] at heq
        have := h.pointers.inj (i, p) (j, q) (isPath_cons.mp hp) (isPath_cons.mp hq)
          (hf i p ▸ h0) (hf j q ▸ h0') hne' heq
        cases this
        rfl
  · intro p hp h0 hne'
    cases p with
    | nil => exact absurd h0 hne
    | cons i p =>
      rw [hf' i p hp] at hne' ⊢
      exact h.taken (i, p) (isPath_cons.mp hp) (hf i p ▸ h0) hne'
  · intro p hp hl h0 hne'
    cases p with
    | nil => exact absurd h0 hne
    | cons i p =>
      rw [hf' i p hp] at hne' ⊢
      exact h.zero (i, p) (isPath_cons.mp hp) (Nat.succ.inj hl) (hf i p ▸ h0) hne'

/-- The block of a tree is not among the pointers in it. -/
theorem Extends.ne_root (he : e ≠ 0)
    (ho : Owned (IsPath 128 (l + 1)) s.Taken (node (kids s.view) e))
    (h : Extends (InForest 128 fun _ => l) (IsEnd fun _ => l) (ptr s.view (s.view e))
      (ptr s'.view blk) s s') {x : Slot} (hx : InForest 128 (fun _ => l) x) :
    ptr s'.view blk x ≠ e := by
  intro heq
  have ht : s.Taken e := ho.ok [] isPath_nil he
  by_cases h0 : ptr s.view (s.view e) x = 0
  · exact h.pointers.fresh x hx h0 (heq ▸ he) (heq ▸ ht.1)
  · rw [h.pointers.keep x hx h0] at heq
    have hn : node (kids s.view) e (x.1 :: x.2) = e := (node_index he x.1 x.2).trans heq
    cases ho.inj (x.1 :: x.2) [] (isPath_cons.mpr hx) isPath_nil (hn.trans_ne he) hn

/-- Below an index block that has been written are the pointers of its words. -/
theorem Extends.node_written (he : e ≠ 0)
    (ho : Owned (IsPath 128 (l + 1)) s.Taken (node (kids s.view) e))
    (h : Extends (InForest 128 fun _ => l) (IsEnd fun _ => l) (ptr s.view (s.view e))
      (ptr s'.view blk) s s') (hv : s''.view = Function.update s'.view e blk) {i : Nat}
    {p : List Nat} (hp : IsPath 128 (l + 1) (i :: p)) :
    node (kids s''.view) e (i :: p) = ptr s'.view blk (i, p) := by
  rw [node_index he, hv, Function.update_self]
  -- the block does not lie on any path from its own words
  refine node_congr (isPath_cons.mp hp).2 fun q hq _ hne j _ => ?_
  show (Function.update s'.view e blk _).word j = (s'.view _).word j
  rw [Function.update_of_ne]
  exact h.ne_root he ho (x := (i, q)) ⟨(isPath_cons.mp hp).1, hq⟩

/-- An index block is written with its words extended. -/
theorem Extends.index_written (he : e ≠ 0)
    (ho : Owned (IsPath 128 (l + 1)) s.Taken (node (kids s.view) e))
    (h : Extends (InForest 128 fun _ => l) (IsEnd fun _ => l) (ptr s.view (s.view e))
      (ptr s'.view blk) s s') (hw : Stored s' s'')
    (hv : s''.view = Function.update s'.view e blk) :
    Extends (IsPath 128 (l + 1)) (·.length = l + 1) (node (kids s.view) e)
      (node (kids s''.view) e) s s'' := by
  have htree : Extends (IsPath 128 (l + 1)) (·.length = l + 1) (node (kids s.view) e)
      (fun | [] => e | i :: p => ptr s'.view blk (i, p)) s s' :=
    Extends.tree he node_nil rfl (node_index he) (fun _ _ _ => rfl) h
  refine htree.write ho ⟨he, [], isPath_nil, Nat.succ_ne_zero l ∘ Eq.symm, rfl⟩ hw hv fun p hp => ?_
  cases p with
  | nil => rfl
  | cons i p => exact h.node_written he ho hv hp

/-- The block of a tree is not written while its words are extended. -/
theorem Extends.root_kept (he : e ≠ 0)
    (ho : Owned (IsPath 128 (l + 1)) s.Taken (node (kids s.view) e))
    (h : Extends (InForest 128 fun _ => l) (IsEnd fun _ => l) (ptr s.view (s.view e))
      (ptr s'.view blk) s s') : s'.view e = s.view e := by
  have ht : s.Taken e := ho.ok [] isPath_nil he
  refine h.view e ht.1 ht.2.2 ?_ ht.not_data
  rintro ⟨-, ⟨i, p⟩, hx, -, heq⟩
  have hn : node (kids s.view) e (i :: p) = e := (node_index he i p).trans heq
  cases ho.inj (i :: p) [] (isPath_cons.mpr hx) isPath_nil (hn.trans_ne he) hn

/-- The pointers of the words that a block had before they were extended. -/
theorem Extends.ptr_kept {blk' : Block}
    (h : Extends (InForest 128 fun _ => l) (IsEnd fun _ => l) (ptr s.view blk')
      (ptr s'.view blk) s s') {x : Slot} (hx : InForest 128 (fun _ => l) x) :
    ptr s'.view blk' x = ptr s'.view blk x ∨ ptr s'.view blk' x = 0 ∧ ptr s.view blk' x = 0 := by
  by_cases h0 : blk'.word x.1 = 0
  · refine Or.inr ⟨?_, ?_⟩
    · rw [ptr, h0, node_zero]
    · rw [ptr, h0, node_zero]
  · have hkeep := h.pointers.keep (x.1, []) ⟨hx.1, isPath_nil⟩ h0
    have hword : blk.word x.1 = blk'.word x.1 := hkeep
    exact Or.inl (by rw [ptr, ptr, hword])

/-- An index block is not written though its words are extended: the new ones are lost. -/
theorem Extends.index_kept (he : e ≠ 0)
    (ho : Owned (IsPath 128 (l + 1)) s.Taken (node (kids s.view) e))
    (h : Extends (InForest 128 fun _ => l) (IsEnd fun _ => l) (ptr s.view (s.view e))
      (ptr s'.view blk) s s') :
    Extends (IsPath 128 (l + 1)) (·.length = l + 1) (node (kids s.view) e)
      (node (kids s'.view) e) s s' := by
  refine Extends.tree he node_nil node_nil (node_index he) (fun i p _ => ?_)
    (h.sub fun x hx => h.ptr_kept hx)
  rw [node_index he, h.root_kept he ho]

end

end Pintos.Filesys
