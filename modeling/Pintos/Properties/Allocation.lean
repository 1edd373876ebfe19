import Pintos.Filesys.Accesses
import Pintos.Properties.Unreserve

/-!
# What a call of `inode_reserve` does

`inode_reserve` goes over the slots of a header in a fixed order (`reservedSlots`) and fills those
that are empty (`missing`). `Outcome` says how that ends, for one entry, for the entries of a block
and for a header:

* `Granted` — every sector asked for is handed out, or the first that is not was for data.
* `Refused` — an index block is not handed out. Then sector 0 is taken for it.
-/

namespace Pintos.Filesys

open Pintos.Logic Pintos.Logic.Exec Pintos.Lib

attribute [local irreducible] Exec.wp

/-! ## The slots of a call -/

/-- The slots that `reserveEntries` goes over, with the paths `paths num` under an entry. -/
def entrySlots (paths : Nat → List (List Nat)) (unit : Nat) : (todo i num : Nat) → List Slot
  | 0, _, _ => []
  | todo + 1, i, num =>
    (paths (min num unit)).map (i, ·) ++ entrySlots paths unit todo (i + 1) (num - min num unit)

/-- The paths that `inode_reserve_indirect` goes over below its index block. -/
def underPaths (paths : Nat → List (List Nat)) (unit num : Nat) : List (List Nat) :=
  (entrySlots paths unit (divRoundUp num unit) 0 num).map fun x => x.1 :: x.2

/-- The paths that `inode_reserve_indirect` goes over. -/
def treePaths : (level num : Nat) → List (List Nat)
  | 0, _ => [[]]
  | level + 1, num => [] :: underPaths (treePaths level) (levelUnit (level + 1)) num

/-- The slots under the pointer `root` of a header, of which `num` sectors are reserved. -/
def rootSlots (root num : Nat) : List Slot :=
  if num = 0 then [] else (treePaths (depth root) num).map (root, ·)

/-- The slots that `inode_reserve` goes over for `n` sectors. -/
def reservedSlots (n : Nat) : List Slot :=
  entrySlots (treePaths 0) 1 (min n 123) 0 (min n 123) ++
    (rootSlots indirectBlock (min (n - 123) 128) ++
      rootSlots doublyIndirectBlock (min (n - 251) 16384))

/-- Those of the slots `w` that are empty. -/
def missing {ι : Type} (f : ι → Nat) (w : List ι) : List ι := w.filter fun p => f p = 0

/-! ## Logs -/

/-- The sectors handed out. -/
def handed (l : List Access) : List Nat :=
  l.filterMap fun
    | .handed k => some k
    | _ => none

/-- The sector that is written or taken for an index block. -/
def Access.touches : Access → Option Nat
  | .handed _ => none
  | .wrote k => some k
  | .entered k => some k

/-- Only sectors in `own`, or handed out before, are written or taken for an index block. -/
def Proper (own : Nat → Prop) : List Access → Prop
  | [] => True
  | a :: l => (∀ k, a.touches = some k → own k ∨ k ∈ handed l) ∧ Proper own l

section

variable {own own' : Nat → Prop} {l l' : List Access}

theorem handed_append (l l' : List Access) : handed (l ++ l') = handed l ++ handed l' :=
  List.filterMap_append

theorem Proper.append (h : Proper own l)
    (h' : Proper (fun k => own k ∨ k ∈ handed l) l') : Proper own (l' ++ l) := by
  induction l' with
  | nil => exact h
  | cons a l' ih =>
    refine ⟨fun k hk => ?_, ih h'.2⟩
    show own k ∨ k ∈ handed (l' ++ l)
    rw [handed_append, List.mem_append]
    rcases h'.1 k hk with (hk | hk) | hk
    · exact .inl hk
    · exact .inr (.inr hk)
    · exact .inr (.inl hk)

theorem Proper.mono (h : Proper own l) (hown : ∀ k, own k → own' k) : Proper own' l := by
  induction l with
  | nil => exact h
  | cons a l ih => exact ⟨fun k hk => (h.1 k hk).imp_left (hown k), ih h.2⟩

theorem Proper.touches (h : Proper own l) {a : Access} (ha : a ∈ l) {k : Nat}
    (hk : a.touches = some k) : own k ∨ k ∈ handed l := by
  induction l with
  | nil => cases ha
  | cons b l ih =>
    have hcons : ∀ j ∈ handed l, j ∈ handed (b :: l) := fun j hj => by
      rw [show b :: l = [b] ++ l from rfl, handed_append]
      exact List.mem_append_right _ hj
    rcases List.mem_cons.mp ha with rfl | ha
    · exact (h.1 k hk).imp_right (hcons k)
    · exact (ih h.2 ha).imp_right (hcons k)

end

/-! ## Outcomes -/

section

variable {ι : Type} {dom leaf : ι → Prop} {w w' : List ι} {f f' f'' : ι → Nat} {ok ok' : Bool}
  {s s' s'' : Fs} {l l' : List Access}

/-- The pointers of a family. -/
def Points (dom : ι → Prop) (f : ι → Nat) (k : Nat) : Prop := k ≠ 0 ∧ ∃ p, dom p ∧ f p = k

/-- The slots `w` have been gone over, from the front to the end or to one that is for data. -/
structure Granted (dom leaf : ι → Prop) (w : List ι) (f f' : ι → Nat) (ok : Bool) (s s' : Fs)
    (l : List Access) : Prop extends Extends dom leaf f f' s s' where
  adds : Adds s (handed l) s'
  proper : Proper (Points dom f) l
  same : ∀ p, dom p → p ∉ w → f' p = f p
  filled : ok = true → ∀ p ∈ w, f' p ≠ 0
  count : ok = true → (handed l).length = (missing f w).length
  stopped : ok = false → s.env.MemOk → (handed l).length = s.free.card ∧
    ∃ p, (missing f w)[s.free.card]? = some p ∧ leaf p
  refused : ok = false → .refused ∈ s'.history.events
  still : handed l = [] → s.env.MemOk → s'.view = s.view

/-- Of the slots `w`, all that were empty in front of one for an index block have been filled, and
no sector is left for that one. The zeros of a new index block are written to sector 0. -/
structure Exhausted (dom leaf : ι → Prop) (w : List ι) (f f' : ι → Nat) (s s' : Fs)
    (l : List Access) : Prop extends Extends dom leaf f f' s s' where
  adds : Adds s (handed l) s'
  full : (handed l).length = s.free.card
  stopped : ∃ p, (missing f w)[s.free.card]? = some p ∧ ¬ leaf p
  still : handed l = [] → s'.view = Function.update s.view 0 Bytes.zeros

/-- An index block has not been handed out. `same` says that the result is what it was. -/
structure Refused (dom leaf : ι → Prop) (w : List ι) (f f' : ι → Nat) (same : Prop) (ok : Bool)
    (s s' : Fs) (l : List Access) : Prop where
  entered : .entered 0 ∈ l
  recorded : .indexRefused ∈ s'.history.events
  exhausted : s.env.MemOk →
    ok = false ∧ Exhausted dom leaf w f f' s s' l ∧ (handed l = [] → same)

/-- The fault of a call that runs out of memory. Nothing is known of it after an index block has
been refused. -/
def Starved (env : Env) (e : Stop) : Prop :=
  ¬ env.MemOk ∧ (e.fault = .nullDeref ∨ .indexRefused ∈ e.history.events)

/-- The outcome of going over the slots `w`, with the accesses since the log `l`. -/
def Outcome (dom leaf : ι → Prop) (w : List ι) (f f' : ι → Nat) (same : Prop) (ok : Bool)
    (s : Fs) (l : List Access) (s' : Fs) (l' : List Access) : Prop :=
  ∃ new, l' = new ++ l ∧ ((Granted dom leaf w f f' ok s s' new ∧ (handed new = [] → same)) ∨
    Refused dom leaf w f f' same ok s s' new)

theorem missing_append (f : ι → Nat) (w w' : List ι) :
    missing f (w ++ w') = missing f w ++ missing f w' := List.filter_append ..

theorem missing_congr (h : ∀ p ∈ w, f' p = f p) : missing f' w = missing f w :=
  List.filter_congr fun p hp => by rw [h p hp]

/-- What is new has been handed out. -/
theorem Granted.new_handed (h : Granted dom leaf w f f' ok s s' l) {p : ι} (hp : dom p)
    (h0 : f p = 0) (hne : f' p ≠ 0) : f' p ∈ handed l :=
  ((h.adds.used _).mp (h.taken p hp h0 hne).1).resolve_left (h.pointers.fresh p hp h0 hne)

theorem Granted.points (h : Granted dom leaf w f f' ok s s' l) {k : Nat}
    (hk : Points dom f' k) : Points dom f k ∨ k ∈ handed l := by
  obtain ⟨h0, p, hp, rfl⟩ := hk
  by_cases hfp : f p = 0
  · exact .inr (h.new_handed hp hfp h0)
  · exact .inl ⟨h0, p, hp, (h.pointers.keep p hp hfp).symm⟩

theorem Adds.perm {ks ks' : List Nat} (h : Adds s ks s') (hp : ks.Perm ks') : Adds s ks' s' where
  toMapFileKept := h.toMapFileKept
  once := hp.nodup_iff.mp h.once
  fresh k hk := h.fresh k (hp.mem_iff.mpr hk)
  used k := by rw [h.used, hp.mem_iff]

/-- Where what is missing of two lists begins. -/
theorem getElem?_missing_append {n m : Nat} (hdis : ∀ p ∈ w', f' p = f p)
    (hm : m = n + (missing f w).length) :
    (missing f (w ++ w'))[m]? = (missing f' w')[n]? := by
  rw [missing_append, missing_congr hdis, hm, Nat.add_comm, List.getElem?_append_right (by omega)]
  congr 1
  omega

theorem Granted.append (h : Granted dom leaf w f f' true s s' l)
    (h' : Granted dom leaf w' f' f'' ok s' s'' l') (ho : Owned dom s.Taken f)
    (hdis : ∀ p ∈ w', f' p = f p) (hdom : ∀ p ∈ w, dom p) :
    Granted dom leaf (w ++ w') f f'' ok s s'' (l' ++ l) where
  toExtends := h.toExtends.trans h'.toExtends ho
  adds := by
    rw [handed_append]
    exact (h.adds.trans h'.adds).perm List.perm_append_comm
  proper := h.proper.append (h'.proper.mono fun k hk => h.points hk)
  same p hp hw := by
    rw [List.mem_append, not_or] at hw
    rw [h'.same p hp hw.2, h.same p hp hw.1]
  filled hok p hp := by
    rcases List.mem_append.mp hp with hp | hp
    · have hne := h.filled rfl p hp
      rw [h'.pointers.keep p (hdom p hp) hne]
      exact hne
    · exact h'.filled hok p hp
  count hok := by
    rw [handed_append, missing_append, List.length_append, List.length_append, h'.count hok,
      h.count rfl, missing_congr hdis, Nat.add_comm]
  stopped hok hm := by
    obtain ⟨hlen, p, hp, hleaf⟩ := h'.stopped hok (h.env ▸ hm)
    have hcard := h.adds.card_free
    have hcount := h.count rfl
    refine ⟨?_, p, ?_, hleaf⟩
    · rw [handed_append, List.length_append, hlen]
      omega
    · rw [getElem?_missing_append hdis (by omega : s.free.card = s'.free.card + _), hp]
  refused := h'.refused
  still hnone hm := by
    rw [handed_append, List.append_eq_nil_iff] at hnone
    rw [h'.still hnone.1 (h.env ▸ hm), h.still hnone.2 hm]

theorem Granted.exhausted (h : Granted dom leaf w f f' true s s' l)
    (h' : Exhausted dom leaf w' f' f'' s' s'' l') (ho : Owned dom s.Taken f)
    (hdis : ∀ p ∈ w', f' p = f p) (hm : s.env.MemOk) :
    Exhausted dom leaf (w ++ w') f f'' s s'' (l' ++ l) where
  toExtends := h.toExtends.trans h'.toExtends ho
  adds := by
    rw [handed_append]
    exact (h.adds.trans h'.adds).perm List.perm_append_comm
  full := by
    have hcard := h.adds.card_free
    rw [handed_append, List.length_append, h'.full]
    omega
  stopped := by
    obtain ⟨p, hp, hleaf⟩ := h'.stopped
    have hcard := h.adds.card_free
    have hcount := h.count rfl
    refine ⟨p, ?_, hleaf⟩
    rw [getElem?_missing_append hdis (by omega : s.free.card = s'.free.card + _), hp]
  still hnone := by
    rw [handed_append, List.append_eq_nil_iff] at hnone
    rw [h'.still hnone.1, h.still hnone.2 hm]

/-- After a part that was granted comes another. -/
theorem Granted.outcome {same same' : Prop} {l₀ l₁ : List Access}
    (h : Granted dom leaf w f f' true s s' l) (hsame : handed l = [] → same)
    (h' : Outcome dom leaf w' f' f'' same' ok s' (l ++ l₀) s'' l₁) (ho : Owned dom s.Taken f)
    (hdis : ∀ p ∈ w', f' p = f p) (hdom : ∀ p ∈ w, dom p) :
    Outcome dom leaf (w ++ w') f f'' (same ∧ same') ok s l₀ s'' l₁ := by
  obtain ⟨new, rfl, ⟨hg, hs⟩ | hr⟩ := h'
  · refine ⟨new ++ l, (List.append_assoc ..).symm, .inl ⟨h.append hg ho hdis hdom, fun hnone => ?_⟩⟩
    rw [handed_append, List.append_eq_nil_iff] at hnone
    exact ⟨hsame hnone.2, hs hnone.1⟩
  · refine ⟨new ++ l, (List.append_assoc ..).symm, .inr ⟨List.mem_append_left _ hr.entered,
      hr.recorded, fun hm => ?_⟩⟩
    obtain ⟨hok, he, hs⟩ := hr.exhausted (h.env ▸ hm)
    refine ⟨hok, h.exhausted he ho hdis hm, fun hnone => ?_⟩
    rw [handed_append, List.append_eq_nil_iff] at hnone
    exact ⟨hsame hnone.2, hs hnone.1⟩

/-- Without memory anything may happen after an index block has been refused. -/
theorem outcome_of_entered {l₀ l₁ : List Access} (h : .entered 0 ∈ l) (hm : ¬ s.env.MemOk)
    (hlog : (l ++ l₀) <:+ l₁) (hev : .indexRefused ∈ s'.history.events) (dom leaf : ι → Prop)
    (w : List ι) (f f' : ι → Nat) (same : Prop) (ok : Bool) :
    Outcome dom leaf w f f' same ok s l₀ s' l₁ := by
  obtain ⟨new, rfl⟩ := hlog
  exact ⟨new ++ l, (List.append_assoc ..).symm, .inr ⟨List.mem_append_right _ h, hev,
    fun hm' => absurd hm' hm⟩⟩

theorem Outcome.congr {same same' : Prop} {l₀ l₁ : List Access}
    (h : Outcome dom leaf w f f' same ok s l₀ s' l₁) (hs : same → same') :
    Outcome dom leaf w f f' same' ok s l₀ s' l₁ := by
  obtain ⟨new, hnew, ⟨hg, hsame⟩ | hr⟩ := h
  · exact ⟨new, hnew, .inl ⟨hg, fun hn => hs (hsame hn)⟩⟩
  · refine ⟨new, hnew, .inr ⟨hr.entered, hr.recorded, fun hm => ?_⟩⟩
    obtain ⟨hok, he, hsame⟩ := hr.exhausted hm
    exact ⟨hok, he, fun hn => hs (hsame hn)⟩

end

/-! ## One entry -/

section

variable {s s' : Fs} {n r e : Nat} {d : Nat → Nat} {blk : Block} {w : List (List Nat)} {ok : Bool}
  {l l' : List Access} {same : Prop}

theorem missing_map {ι κ : Type} (f : ι → Nat) (g : κ → ι) (w : List κ) :
    missing f (w.map g) = (missing (f ∘ g) w).map g := by
  unfold missing
  rw [List.filter_map]
  rfl

/-- The slots of the entry `r` of a block are filled. -/
theorem Granted.entry (ho : Owned (InForest n d) s.Taken (ptr s.view blk)) (hr : r < n)
    (hn : n ≤ 128) (he : e < 4294967296)
    (h : Granted (IsPath 128 (d r)) (·.length = d r) w (node (kids s.view) (blk.word r))
      (node (kids s'.view) e) ok s s' l) :
    Granted (InForest n d) (IsEnd d) (w.map (r, ·)) (ptr s.view blk)
      (ptr s'.view (blk.setWord r e)) ok s s' l where
  toExtends := h.toExtends.entry ho hr hn he
  adds := h.adds
  proper := h.proper.mono fun k ⟨h0, p, hp, hk⟩ => ⟨h0, (r, p), ⟨hr, hp⟩, hk⟩
  same x hx hw := by
    by_cases hxr : x.1 = r
    · obtain ⟨j, p⟩ := x
      obtain rfl : j = r := hxr
      rw [ptr_setWord_self s'.view (Nat.lt_of_lt_of_le hr hn) he]
      exact h.same p hx.2 fun hp => hw (List.mem_map_of_mem hp)
    · exact h.toExtends.ptr_ne ho hr hx hxr e
  filled hok x hx := by
    obtain ⟨p, hp, rfl⟩ := List.mem_map.mp hx
    rw [ptr_setWord_self s'.view (Nat.lt_of_lt_of_le hr hn) he]
    exact h.filled hok p hp
  count hok := by
    rw [h.count hok, missing_map, List.length_map]
    rfl
  stopped hok hm := by
    obtain ⟨hlen, p, hp, hleaf⟩ := h.stopped hok hm
    refine ⟨hlen, (r, p), ?_, hleaf⟩
    rw [missing_map, List.getElem?_map]
    exact congrArg _ hp
  refused := h.refused
  still := h.still

theorem FreeMapOk.taken_lt (hs : FreeMapOk s) {k : Nat} (hk : s.Taken k) : k < 4294967296 := by
  have h := hs.used_lt hk.1
  have hle := hs.size_le
  omega

/-- A word of a block has room for the sector of a tree. -/
theorem Extends.entry_lt (hs : FreeMapOk s)
    (ho : Owned (InForest n d) s.Taken (ptr s.view blk)) (hr : r < n)
    (h : Extends (IsPath 128 (d r)) (·.length = d r) (node (kids s.view) (blk.word r))
      (node (kids s'.view) e) s s') : e < 4294967296 := by
  by_cases h0 : e = 0
  · omega
  · have htree : Owned (IsPath 128 (d r)) s.Taken (node (kids s.view) (blk.word r)) :=
      ho.comp (fun p => (r, p)) (fun p hp => ⟨hr, hp⟩) fun p q _ _ h => (Prod.mk.inj h).2
    exact (hs.takes ⟨h.toMapFileKept, h.used⟩).taken_lt ((h.owned htree).ok [] isPath_nil h0)

theorem Outcome.entry {l₀ l₁ : List Access} (hs : FreeMapOk s)
    (ho : Owned (InForest n d) s.Taken (ptr s.view blk)) (hr : r < n) (hn : n ≤ 128)
    (h : Outcome (IsPath 128 (d r)) (·.length = d r) w (node (kids s.view) (blk.word r))
      (node (kids s'.view) e) same ok s l₀ s' l₁) :
    Outcome (InForest n d) (IsEnd d) (w.map (r, ·)) (ptr s.view blk)
      (ptr s'.view (blk.setWord r e)) same ok s l₀ s' l₁ := by
  obtain ⟨new, hnew, ⟨hg, hsm⟩ | hrf⟩ := h
  · exact ⟨new, hnew, .inl ⟨hg.entry ho hr hn (hg.toExtends.entry_lt hs ho hr), hsm⟩⟩
  · refine ⟨new, hnew, .inr ⟨hrf.entered, hrf.recorded, fun hm => ?_⟩⟩
    obtain ⟨hok, hex, hsm⟩ := hrf.exhausted hm
    refine ⟨hok, ⟨hex.toExtends.entry ho hr hn (hex.toExtends.entry_lt hs ho hr), hex.adds,
      hex.full, ?_, hex.still⟩, hsm⟩
    obtain ⟨p, hp, hleaf⟩ := hex.stopped
    refine ⟨(r, p), ?_, hleaf⟩
    rw [missing_map, List.getElem?_map]
    exact congrArg _ hp

end

/-! ## New sectors -/

section

variable {ι : Type} {dom leaf : ι → Prop} {w : List ι} {f : ι → Nat} {s s' s'' : Fs} {k : Nat}
  {b : Block} {l : List Access} {level : Nat}

/-- Slots that are all in use. -/
theorem granted_used (h : ∀ p ∈ w, f p ≠ 0) (dom leaf : ι → Prop) (s : Fs) :
    Granted dom leaf w f f true s s [] where
  toExtends := .refl dom leaf f s
  adds := (Takes.refl s).adds rfl
  proper := trivial
  same _ _ _ := rfl
  filled _ := h
  count _ := by
    have hnone : missing f w = [] := by
      rw [missing, List.filter_eq_nil_iff]
      simpa using h
    rw [hnone]
    rfl
  stopped hok := by cases hok
  refused hok := by cases hok
  still _ _ := rfl

theorem adds_write (h : Stored s s') (hk : ¬ s.OfFreeMap k)
    (hv : s'.view = Function.update s.view k b) : Adds s [] s' :=
  Takes.adds ⟨mapFileKept_write h hk hv, fun j hj => by rwa [Fs.used, h.freeMap]⟩ h.freeMap

/-- A tree whose block is empty. -/
theorem node_of_zeros {v : Nat → Block} (hv : v k = Bytes.zeros) {p : List Nat}
    (hne : node (kids v) k p ≠ 0) : p = [] := by
  cases p with
  | nil => rfl
  | cons i p =>
    refine absurd (node_of_empty ?_) hne
    rw [kids, hv, Bytes.word_zeros]

/-- A sector has been handed out for an empty tree, and filled with zeros. -/
theorem granted_new (level : Nat) (hs : FreeMapOk s) (ha : Allocated s (some k) s')
    (hw : Stored s' s'')
    (hv : s''.view = Function.update s'.view k Bytes.zeros) :
    Granted (IsPath 128 level) (·.length = level) [[]] (node (kids s.view) 0)
      (node (kids s''.view) k) true s s'' [.wrote k, .handed k] := by
  obtain ⟨-, hnot, hk0⟩ := hs.fresh ha
  have hfresh : ¬ s.used k := ha.fresh k rfl
  have hzeros : s''.view k = Bytes.zeros := by rw [hv, Function.update_self]
  have hgrow : Grows (· = k) s' s'' := grows_write hw hnot hv
  have htaken : s''.Taken k := hgrow.taken ⟨(ha.used k).mpr (.inr rfl), hnot, hk0⟩
  have hroot : ∀ p, node (kids s''.view) k p ≠ 0 → node (kids s''.view) k p = k := by
    intro p hne
    rw [node_of_zeros hzeros hne, node_nil]
  have hall := (FreeMapOk.allocated_grows ha).trans hgrow fun j hj he => hfresh (he ▸ hj)
  exact {
    toExtends := {
      toGrows := hall.mono fun _ h => h.elim
      pointers := {
        keep := fun p _ hne => absurd node_zero hne
        fresh := fun p _ _ hne => by rwa [hroot p hne]
        inj := fun p q _ _ _ _ hne he =>
          (node_of_zeros hzeros hne).trans (node_of_zeros hzeros (he ▸ hne)).symm }
      taken := fun p _ _ hne => by rwa [hroot p hne]
      zero := fun p _ _ _ hne => by rwa [hroot p hne] }
    adds := by
      have h := ha.adds.trans (adds_write hw hnot hv)
      rwa [List.append_nil] at h
    proper := ⟨fun j hj => .inr (by cases hj; exact List.mem_singleton_self k),
      fun j hj => by (cases hj), trivial⟩
    same := fun p _ hp => by
      rw [node_zero]
      by_contra hne
      exact hp (List.mem_singleton.mpr (node_of_zeros hzeros hne))
    filled := fun _ p hp => by
      rw [List.mem_singleton.mp hp]
      exact hk0
    count := fun _ => by
      rw [missing, List.filter_cons_of_pos (by simp)]
      rfl
    stopped := fun hok => by cases hok
    refused := fun hok => by cases hok
    still := fun hnone => by cases hnone }

theorem Allocated.adds_nil (h : Allocated s none s') : Adds s [] s' where
  toMapFileKept := h.toMapFileKept
  once := .nil
  fresh _ hk := by cases hk
  used j := by
    rw [h.used]
    simp

/-- With no sector free `free_map_allocate` writes nothing. -/
theorem freeMapAllocate_full (hfree : s.free.card = 0) :
    freeMapAllocate.wp (fun _ => False) (fun r s' => r = none ∧ s'.view = s.view) s := by
  unfold freeMapAllocate freeMapAllocateAt
  rw [wp_bind, wp_gets, wp_bind, wp_gets]
  cases hscan : s.freeMap.scan 0 1 false with
  | none =>
    dsimp only
    rw [wp_bind, record]
    exact wp_modifyHistory fun s₁ _ he => (wp_pure _).mpr ⟨rfl, he ▸ rfl⟩
  | some j =>
    obtain ⟨hlt, hclear⟩ := Bitmap.scan_one_some hscan
    have hmem : j ∈ s.free := mem_free.mpr ⟨hlt, fun hu => by
      rw [Bool.eq_false_iff] at hclear
      exact hclear hu.2⟩
    rw [Finset.card_eq_zero.mp hfree] at hmem
    exact absurd hmem (Finset.notMem_empty j)

/-- An allocation, with the log. It fails for want of memory, or with no sector left. -/
theorem wp_allocate (hs : FreeMapOk s) :
    Logged.allocate.wp (Starved s.env) (fun r t => Allocated s r t.1 ∧
      t.2 = r.toList.map .handed ++ l ∧
      (r = none → s.env.MemOk → s.free.card = 0 ∧ t.1.view = s.view)) (s, l) := by
  rw [Logged.allocate, wp_logged]
  have hspec : freeMapAllocate.wp (OutOfMemory s.env) (fun r s' => Allocated s r s' ∧
      (r = none → s.env.MemOk → s.free.card = 0 ∧ s'.view = s.view)) s := by
    by_cases hfree : s.free.card = 0
    · refine wp_mono (wp_and (freeMapAllocate_spec hs) (freeMapAllocate_full hfree))
        (fun _ h => h.1) fun r s' h' => ⟨h'.1, fun _ _ => ⟨hfree, h'.2.2⟩⟩
    · by_cases hm : s.env.MemOk
      · refine wp_mono (freeMapAllocate_adds hs hm (Nat.pos_of_ne_zero hfree))
          (fun _ h => h.elim) fun r s' h' => ?_
        obtain ⟨k, rfl, hk⟩ := h'
        exact ⟨hk, fun hr => by cases hr⟩
      · exact wp_mono (freeMapAllocate_spec hs) (fun _ h => h) fun r s' h' =>
          ⟨h', fun _ hm' => absurd hm' hm⟩
  exact wp_mono hspec (fun _ h => ⟨h.2, .inl h.1⟩) fun r s' h' => ⟨h'.1, rfl, h'.2⟩

end

/-! ## Programs -/

/-- `child` fills the slots of a tree with `level` levels of index blocks. -/
def Reserves (level : Nat) (child : Nat → Nat → Logged (Bool × Nat)) : Prop :=
  ∀ s l entry num, 0 < num → num ≤ 128 ^ level → FreeMapOk s →
    Owned (IsPath 128 level) s.Taken (node (kids s.view) entry) →
    (child entry num).wp (Starved s.env) (fun r t =>
      Outcome (IsPath 128 level) (·.length = level) (treePaths level num)
        (node (kids s.view) entry) (node (kids t.1.view) r.2) (r.2 = entry) r.1 s l t.1 t.2) (s, l)

section

variable {s s' s'' : Fs} {k : Nat} {l : List Access}

theorem inodeReserveDirect_reserves :
    Reserves 0 fun entry _ => Logged.inodeReserveDirect entry := by
  intro s l entry num _ _ hs ho
  show (Logged.inodeReserveDirect entry).wp _ _ _
  unfold Logged.inodeReserveDirect
  by_cases he : entry = 0
  · subst he
    rw [if_pos rfl, wp_bind]
    refine wp_mono (wp_allocate hs) (fun _ h => h) fun r t h => ?_
    obtain ⟨s₁, l₁⟩ := t
    obtain ⟨ha, hl, hnone⟩ := h
    subst hl
    cases r with
    | none =>
      refine (wp_pure _).mpr ⟨[], rfl, .inl ⟨?_, fun _ => rfl⟩⟩
      have hzero : ∀ (v : Nat → Block) p, node (kids v) 0 p = 0 := fun _ _ => node_zero
      have hf : node (kids s₁.view) 0 = node (kids s.view) 0 := funext fun p => by
        rw [hzero, hzero]
      show Granted _ _ _ _ (node (kids s₁.view) 0) _ _ _ _
      rw [hf]
      exact {
        toExtends := {
          toGrows := (FreeMapOk.allocated_grows ha).mono fun _ h => h.elim
          pointers := .refl _ _
          taken := fun p _ h hne => absurd h hne
          zero := fun p _ _ h hne => absurd h hne }
        adds := ha.adds_nil
        proper := trivial
        same := fun _ _ _ => rfl
        filled := fun hok => by cases hok
        count := fun hok => by cases hok
        stopped := fun _ hm => by
          rw [(hnone rfl hm).1]
          refine ⟨rfl, [], ?_, rfl⟩
          rw [treePaths, missing, List.filter_cons_of_pos (by simp)]
          rfl
        refused := fun _ => by
          rw [ha.events, if_pos rfl]
          exact List.mem_cons_self
        still := fun _ hm => (hnone rfl hm).2 }
    | some k =>
      obtain ⟨hlt, -, -⟩ := hs.fresh ha
      dsimp only
      rw [wp_bind, Logged.write, wp_logged]
      exact wp_writeSector hlt fun s₂ h₂ hv => (wp_pure _).mpr ⟨_, rfl, .inl
        ⟨granted_new _ hs ha h₂ hv, fun hnone => by cases hnone⟩⟩
  · rw [if_neg he, wp_pure]
    refine ⟨[], rfl, .inl ⟨granted_used ?_ _ _ _, fun _ => rfl⟩⟩
    rw [treePaths]
    simpa using he

end

/-! ## The entries of a block -/

section

variable {ι β : Type} {dom leaf : ι → Prop} {w w' : List ι} {f f' : ι → Nat} {ok : Bool}
  {s s₁ : Fs} {l l₁ : List Access} {same : Prop}

/-- A part that ends early leaves the rest as it is. -/
theorem Granted.stop (h : Granted dom leaf w f f' false s s₁ l) :
    Granted dom leaf (w ++ w') f f' false s s₁ l where
  toExtends := h.toExtends
  adds := h.adds
  proper := h.proper
  same p hp hw := h.same p hp fun hpw => hw (List.mem_append_left _ hpw)
  filled hok := by cases hok
  count hok := by cases hok
  stopped hok hm := by
    obtain ⟨hlen, p, hp, hleaf⟩ := h.stopped hok hm
    refine ⟨hlen, p, ?_, hleaf⟩
    obtain ⟨hlt, -⟩ := List.getElem?_eq_some_iff.mp hp
    rw [missing_append, List.getElem?_append_left hlt, hp]
  refused := h.refused
  still := h.still

theorem Exhausted.stop (h : Exhausted dom leaf w f f' s s₁ l) :
    Exhausted dom leaf (w ++ w') f f' s s₁ l where
  toExtends := h.toExtends
  adds := h.adds
  full := h.full
  stopped := by
    obtain ⟨p, hp, hleaf⟩ := h.stopped
    refine ⟨p, ?_, hleaf⟩
    obtain ⟨hlt, -⟩ := List.getElem?_eq_some_iff.mp hp
    rw [missing_append, List.getElem?_append_left hlt, hp]
  still := h.still

theorem Outcome.stop {s' : Fs} {l' : List Access}
    (h : Outcome dom leaf w f f' same false s l s' l') :
    Outcome dom leaf (w ++ w') f f' same false s l s' l' := by
  obtain ⟨new, hnew, ⟨hg, hs⟩ | hr⟩ := h
  · exact ⟨new, hnew, .inl ⟨hg.stop, hs⟩⟩
  · refine ⟨new, hnew, .inr ⟨hr.entered, hr.recorded, fun hm => ?_⟩⟩
    obtain ⟨hok, he, hs⟩ := hr.exhausted hm
    exact ⟨hok, he.stop, hs⟩

/-- The log and the events grow. -/
theorem growing_keeping : Logged.Keeping (Growing fun s s' => s.history.Le s'.history)
    (fun s e => s.1.history.Le e.history) where
  toStepRel := growing events_loud.toStepRel
  allocate := growing_logged (freeMapAllocate_steps events_loud.toQuiet) _
  write sector buffer := growing_logged (writeSector_steps events_loud.toWriting sector buffer) _
  read sector := growing_logged (readSector_steps events_loud.toReading sector) _
  refused := growing_logged (record_steps events_loud.toQuiet _) _

/-- One part after the other, as long as all is well. -/
theorem Outcome.go {g : β → Fs → ι → Nat} {q r : β → Prop} {y : Logged (Bool × β)} {b : β}
    (h : Outcome dom leaf w f (g b s₁) same ok s l s₁ l₁) (hs : FreeMapOk s)
    (ho : Owned dom s.Taken f) (hdom : ∀ p ∈ w, dom p) (hdom' : ∀ p ∈ w', dom p ∧ p ∉ w)
    (hsame : same → q b) (hsame' : ∀ b', same → r b' → q b') (hy' : Logged.Reserving y)
    (hy : FreeMapOk s₁ → Owned dom s₁.Taken (g b s₁) → y.wp (Starved s₁.env)
      (fun o t => Outcome dom leaf w' (g b s₁) (g o.2 t.1) (r o.2) o.1 s₁ l₁ t.1 t.2)
      (s₁, l₁)) :
    (if ok then y else pure (false, b)).wp (Starved s.env)
      (fun o t => Outcome dom leaf (w ++ w') f (g o.2 t.1) (q o.2) o.1 s l t.1 t.2)
      (s₁, l₁) := by
  cases ok with
  | false =>
    rw [if_neg Bool.false_ne_true, wp_pure]
    exact (h.congr hsame).stop
  | true =>
    rw [if_pos rfl]
    obtain ⟨new, rfl, ⟨hg, hsm⟩ | hr⟩ := h
    · have hgo := hy (hs.takes hg.adds.takes) (hg.toExtends.owned ho)
      rw [hg.env] at hgo
      refine wp_mono hgo (fun _ h => h) fun r t ht => ?_
      have hdis : ∀ p ∈ w', g b s₁ p = f p := fun p hp => hg.same p (hdom' p hp).1 (hdom' p hp).2
      exact (hg.outcome hsm ht ho hdis hdom).congr fun hb => hsame' _ hb.1 hb.2
    · -- without memory
      have hm : ¬ s.env.MemOk := fun hm => by cases (hr.exhausted hm).1
      exact wp_mono (hy' _ _ growing_keeping _) (fun _ he => ⟨hm, .inr (he hr.recorded)⟩)
        fun r t ht => outcome_of_entered hr.entered hm ht.2 (ht.1 hr.recorded) ..

end

theorem mem_entrySlots {paths : Nat → List (List Nat)} {unit : Nat} (todo : Nat) :
    ∀ {i num : Nat} {x : Slot}, x ∈ entrySlots paths unit todo i num →
      i ≤ x.1 ∧ x.1 < i + todo ∧ ∃ m ≤ unit, x.2 ∈ paths m := by
  induction todo with
  | zero => exact fun hx => by cases hx
  | succ todo ih =>
    intro i num x hx
    rcases List.mem_append.mp hx with hx | hx
    · obtain ⟨p, hp, rfl⟩ := List.mem_map.mp hx
      exact ⟨Nat.le_refl i, by omega, _, Nat.min_le_right _ _, hp⟩
    · obtain ⟨hle, hlt, hm⟩ := ih hx
      exact ⟨by omega, by omega, hm⟩

theorem levelUnit_succ {level : Nat} (h : level ≤ 1) : levelUnit (level + 1) = 128 ^ level := by
  obtain rfl | rfl : level = 0 ∨ level = 1 := by omega
  · rfl
  · rfl

theorem divRoundUp_le {num unit m : Nat} (h : num ≤ m * unit) (hu : 0 < unit) :
    divRoundUp num unit ≤ m := by
  rw [divRoundUp, Nat.div_le_iff_le_mul_add_pred hu]
  rw [Nat.mul_comm] at h
  omega

theorem isPath_treePaths (level : Nat) : ∀ {num : Nat} {p : List Nat}, level ≤ 2 →
    num ≤ 128 ^ level → p ∈ treePaths level num → IsPath 128 level p := by
  induction level with
  | zero =>
    intro num p _ _ hp
    rw [List.mem_singleton.mp hp]
    exact isPath_nil
  | succ level ih =>
    intro num p hlevel hnum hp
    rcases List.mem_cons.mp hp with rfl | hp
    · exact isPath_nil
    · obtain ⟨x, hx, rfl⟩ := List.mem_map.mp hp
      obtain ⟨-, hlt, m, hm, hx⟩ := mem_entrySlots _ hx
      rw [levelUnit_succ (by omega)] at hlt hm
      rw [Nat.pow_succ, Nat.mul_comm] at hnum
      have hle := divRoundUp_le hnum (Nat.pow_pos (by decide))
      exact isPath_cons.mpr ⟨by omega, ih (by omega) hm hx⟩

/-- The entries of a block are gone over one after the other. -/
theorem reserveEntries_outcome {level n : Nat} {d : Nat → Nat}
    {child : Nat → Nat → Logged (Bool × Nat)} (hchild : Reserves level child)
    (hres : ∀ entry num, Logged.Reserving (child entry num)) (hlevel : level ≤ 2) (hn : n ≤ 128) (todo : Nat) :
    ∀ (s : Fs) (l : List Access) (i num : Nat) (blk : Block), i + todo ≤ n →
      (∀ j, i ≤ j → j < i + todo → d j = level) → (∀ m < todo, m * 128 ^ level < num) →
      FreeMapOk s → Owned (InForest n d) s.Taken (ptr s.view blk) →
      (Logged.reserveEntries child (128 ^ level) todo i num blk).wp (Starved s.env)
        (fun r t => Outcome (InForest n d) (IsEnd d)
          (entrySlots (treePaths level) (128 ^ level) todo i num) (ptr s.view blk)
          (ptr t.1.view r.2) (r.2 = blk) r.1 s l t.1 t.2) (s, l) := by
  induction todo with
  | zero =>
    intro s l i num blk _ _ _ _ _
    exact (wp_pure _).mpr
      ⟨[], rfl, .inl ⟨granted_used (fun p hp => by cases hp) _ _ _, fun _ => rfl⟩⟩
  | succ todo ih =>
    intro s l i num blk hi hd hnum hs ho
    have hdi : d i = level := hd i (Nat.le_refl i) (by omega)
    have hpos : 0 < num := by
      have h := hnum 0 (by omega)
      omega
    unfold Logged.reserveEntries
    rw [wp_bind]
    have hunit : min num (128 ^ level) ≤ 128 ^ level := Nat.min_le_right _ _
    have htree : Owned (IsPath 128 level) s.Taken (node (kids s.view) (blk.word i)) :=
      ho.comp (fun p => (i, p)) (fun p hp => ⟨by omega, by rwa [hdi]⟩)
        fun p q _ _ h => (Prod.mk.inj h).2
    refine wp_mono (hchild s l (blk.word i) (min num (128 ^ level)) (by
      have hp : 0 < 128 ^ level := Nat.pow_pos (by decide)
      omega) hunit hs htree) (fun _ h => h) fun r t h => ?_
    obtain ⟨ok, entry⟩ := r
    obtain ⟨s₁, l₁⟩ := t
    have hlt : i < n := by omega
    rw [hdi.symm] at h
    have hentry := h.entry hs ho hlt hn
    rw [hdi] at hentry
    refine Outcome.go (g := fun blk t => ptr t.view blk) (q := (· = blk))
      (r := (· = blk.setWord i entry)) hentry hs ho ?_ ?_ ?_ ?_
      (Logged.reserveEntries_reserving hres _ _ _ _ _) fun hs₁ ho₁ => ?_
    · intro x hx
      obtain ⟨p, hp, rfl⟩ := List.mem_map.mp hx
      exact ⟨hlt, by rw [hdi]; exact isPath_treePaths level hlevel hunit hp⟩
    · intro x hx
      obtain ⟨hle, hlt', m, hm, hx⟩ := mem_entrySlots _ hx
      refine ⟨⟨by omega, ?_⟩, fun hmem => ?_⟩
      · rw [hd x.1 (by omega) (by omega)]
        exact isPath_treePaths level hlevel hm hx
      · obtain ⟨p, hp, rfl⟩ := List.mem_map.mp hmem
        exact absurd hle (by simp)
    · rintro rfl
      exact Bytes.setWord_word blk i
    · rintro b' rfl rfl
      exact Bytes.setWord_word blk i
    · refine ih s₁ l₁ (i + 1) _ _ (by omega) (fun j h₁ h₂ => hd j (by omega) (by omega))
        (fun m hm => ?_) hs₁ ho₁
      have h := hnum (m + 1) (by omega)
      rw [Nat.add_mul, Nat.one_mul] at h
      omega

/-! ## Index blocks -/

section

variable {s s' s'' : Fs} {e level num : Nat} {blk : Block} {w : List Slot} {l log : List Access}
  {ok : Bool}

/-- The slots below an index block, as paths from there. -/
abbrev below (w : List Slot) : List (List Nat) := w.map fun x => x.1 :: x.2

theorem missing_below (he : e ≠ 0) (v : Nat → Block) (w : List Slot) :
    missing (node (kids v) e) (below w) = below (missing (ptr v (v e)) w) := by
  rw [missing_map]
  congr 2
  funext x
  exact node_index he x.1 x.2

theorem Points.below (he : e ≠ 0) {k : Nat}
    (h : Points (InForest 128 fun _ => level) (ptr s.view (s.view e)) k) :
    Points (IsPath 128 (level + 1)) (node (kids s.view) e) k := by
  obtain ⟨h0, x, hx, rfl⟩ := h
  exact ⟨h0, x.1 :: x.2, isPath_cons.mpr hx, node_index he x.1 x.2⟩

theorem Points.root (he : e ≠ 0) (v : Nat → Block) :
    Points (IsPath 128 level) (node (kids v) e) e :=
  ⟨he, [], isPath_nil, node_nil⟩

/-- The entries of an index block have been gone over, and the block is written. -/
theorem Granted.index_written (he : e ≠ 0)
    (ho : Owned (IsPath 128 (level + 1)) s.Taken (node (kids s.view) e))
    (h : Granted (InForest 128 fun _ => level) (IsEnd fun _ => level) w (ptr s.view (s.view e))
      (ptr s'.view blk) true s s' log) (hsame : handed log = [] → blk = s.view e)
    (hdom : ∀ x ∈ w, InForest 128 (fun _ => level) x) (hw : Stored s' s'')
    (hv : s''.view = Function.update s'.view e blk) :
    Granted (IsPath 128 (level + 1)) (·.length = level + 1) (below w) (node (kids s.view) e)
      (node (kids s''.view) e) true s s'' (.wrote e :: log) where
  toExtends := h.toExtends.index_written he ho hw hv
  adds := by
    have hnot := (h.toGrows.taken (ho.ok [] isPath_nil he)).2.1
    have hadds := h.adds.trans (adds_write hw hnot hv)
    rwa [List.append_nil] at hadds
  proper := ⟨fun k hk => by cases hk; exact .inl (.root he _),
    h.proper.mono fun k hk => hk.below he⟩
  same p hp hpw := by
    cases p with
    | nil => rfl
    | cons i p =>
      rw [h.toExtends.node_written he ho hv hp, node_index he]
      refine h.same (i, p) (isPath_cons.mp hp) fun hmem => hpw ?_
      exact List.mem_map.mpr ⟨_, hmem, rfl⟩
  filled _ p hp := by
    obtain ⟨x, hx, rfl⟩ := List.mem_map.mp hp
    rw [h.toExtends.node_written he ho hv (isPath_cons.mpr (hdom x hx))]
    exact h.filled rfl x hx
  count _ := by
    rw [missing_below he, List.length_map]
    exact h.count rfl
  stopped hok := by cases hok
  refused hok := by cases hok
  still hnone hm := by
    rw [hv, h.still hnone hm, hsame hnone, Function.update_eq_self]

/-- The entries of an index block have not all been filled, and the block is not written. -/
theorem Granted.index_kept (he : e ≠ 0)
    (ho : Owned (IsPath 128 (level + 1)) s.Taken (node (kids s.view) e))
    (h : Granted (InForest 128 fun _ => level) (IsEnd fun _ => level) w (ptr s.view (s.view e))
      (ptr s'.view blk) false s s' log) :
    Granted (IsPath 128 (level + 1)) (·.length = level + 1) (below w) (node (kids s.view) e)
      (node (kids s'.view) e) false s s' log where
  toExtends := h.toExtends.index_kept he ho
  adds := h.adds
  proper := h.proper.mono fun k hk => hk.below he
  same p hp hpw := by
    cases p with
    | nil => rfl
    | cons i p =>
      rw [node_index he, node_index he, h.toExtends.root_kept he ho]
      have hx : InForest 128 (fun _ => level) (i, p) := isPath_cons.mp hp
      rcases h.toExtends.ptr_kept hx with heq | ⟨hz, hz'⟩
      · rw [heq]
        refine h.same (i, p) hx fun hmem => hpw ?_
        exact List.mem_map.mpr ⟨_, hmem, rfl⟩
      · rw [hz, hz']
  filled hok := by cases hok
  count hok := by cases hok
  stopped hok hm := by
    obtain ⟨hlen, p, hp, hleaf⟩ := h.stopped hok hm
    refine ⟨hlen, p.1 :: p.2, ?_, congrArg Nat.succ hleaf⟩
    rw [missing_below he, List.getElem?_map, hp]
    rfl
  refused := h.refused
  still := h.still

theorem Exhausted.below (he : e ≠ 0)
    (ho : Owned (IsPath 128 (level + 1)) s.Taken (node (kids s.view) e))
    (h : Exhausted (InForest 128 fun _ => level) (IsEnd fun _ => level) w (ptr s.view (s.view e))
      (ptr s'.view blk) s s' log) :
    Exhausted (IsPath 128 (level + 1)) (·.length = level + 1) (below w) (node (kids s.view) e)
      (node (kids s'.view) e) s s' log where
  toExtends := h.toExtends.index_kept he ho
  adds := h.adds
  full := h.full
  stopped := by
    obtain ⟨p, hp, hleaf⟩ := h.stopped
    refine ⟨p.1 :: p.2, ?_, fun hlen => hleaf (Nat.succ.inj hlen)⟩
    rw [missing_below he, List.getElem?_map, hp]
    rfl
  still := h.still

end

section

variable {s s₁ : Fs} {e level num : Nat} {l l₁ : List Access}

theorem lt_of_lt_divRoundUp {num unit m : Nat} (hu : 0 < unit) (h : m < divRoundUp num unit) :
    m * unit < num := by
  rw [divRoundUp, ← Nat.succ_le_iff, Nat.le_div_iff_mul_le hu, Nat.succ_mul] at h
  omega

theorem Looks.grows (h : Looks s s₁) (D : Nat → Prop) : Grows D s s₁ where
  toMapFileKept := h.mapFileKept
  used := h.takes.used
  view k _ _ _ _ := by rw [h.view]
  live := by rw [h.history]
  events := by rw [h.history]; exact List.Subset.refl _
  written _ hw i hi q hq := by
    rw [h.freeMapInode?] at hi
    rw [h.freeMap] at hq ⊢
    rw [h.view]
    exact hw i hi q hq

/-- A block of the family has been read. -/
theorem granted_read {ι : Type} {dom : ι → Prop} {f : ι → Nat} (h : Looks s s₁)
    (he : Points dom f e) (leaf : ι → Prop) :
    Granted dom leaf [] f f true s s₁ [.entered e] where
  toGrows := h.grows _
  pointers := .refl _ f
  taken _ _ h hne := absurd h hne
  zero _ _ _ h hne := absurd h hne
  adds := h.takes.adds h.freeMap
  proper := ⟨fun k hk => by cases hk; exact .inl he, trivial⟩
  same _ _ _ := rfl
  filled _ p hp := by cases hp
  count _ := rfl
  stopped hok := by cases hok
  refused hok := by cases hok
  still _ _ := h.view

/-- What is under an index block is gone over. -/
theorem reserveUnder_outcome {child : Nat → Nat → Logged (Bool × Nat)}
    (hchild : Reserves level child) (hres : ∀ entry num, Logged.Reserving (child entry num))
    (hlevel : level ≤ 1) (hnum : num ≤ 128 ^ (level + 1)) (hs : FreeMapOk s)
    (he : e ≠ 0) (ho : Owned (IsPath 128 (level + 1)) s.Taken (node (kids s.view) e)) :
    (Logged.reserveUnder child (levelUnit (level + 1)) e num).wp (Starved s.env)
      (fun r t => Outcome (IsPath 128 (level + 1)) (·.length = level + 1)
        (underPaths (treePaths level) (levelUnit (level + 1)) num) (node (kids s.view) e)
        (node (kids t.1.view) r.2) (r.2 = e) r.1 s l t.1 t.2) (s, l) := by
  have htaken : s.Taken e := ho.ok [] isPath_nil he
  unfold Logged.reserveUnder underPaths
  rw [levelUnit_succ hlevel, wp_bind, Logged.read, wp_logged]
  refine wp_readSector (hs.used_lt htaken.1) fun s₁ h₁ => ?_
  have hs₁ := hs.takes h₁.takes
  have hlt : e < s₁.size := by
    rw [h₁.size]
    exact hs.used_lt htaken.1
  have ho₁ : Owned (IsPath 128 (level + 1)) s₁.Taken (node (kids s₁.view) e) := by
    rw [h₁.view]
    refine ho.mono fun k hk => ?_
    exact ⟨h₁.takes.used k hk.1, fun hm => hk.2.1 (h₁.takes.ofFreeMap.mp hm), hk.2.2⟩
  have hcap : divRoundUp num (128 ^ level) ≤ 128 := by
    rw [Nat.pow_succ, Nat.mul_comm] at hnum
    exact divRoundUp_le hnum (Nat.pow_pos (by decide))
  have hview : s.view e = s₁.view e := by rw [h₁.view]
  rw [hview, wp_bind]
  refine wp_mono (reserveEntries_outcome hchild hres (by omega) (Nat.le_refl 128) _ s₁ _ 0 num _
    (by omega) (fun _ _ _ => rfl) (fun m hm => ?_) hs₁ (owned_index he ho₁))
    (fun _ h => by rwa [h₁.env] at h) fun r t h => ?_
  · exact lt_of_lt_divRoundUp (Nat.pow_pos (by decide)) hm
  obtain ⟨ok, blk⟩ := r
  obtain ⟨s₂, l₂⟩ := t
  -- what holds of the rest from `s₁` on holds from `s` on
  have hread : ∀ {ok : Bool} {s' : Fs} {l' : List Access},
      Outcome (IsPath 128 (level + 1)) (·.length = level + 1)
        (below (entrySlots (treePaths level) (128 ^ level) (divRoundUp num (128 ^ level)) 0 num))
        (node (kids s₁.view) e) (node (kids s'.view) e) True ok s₁ (.entered e :: l) s' l' →
      Outcome (IsPath 128 (level + 1)) (·.length = level + 1)
        (below (entrySlots (treePaths level) (128 ^ level) (divRoundUp num (128 ^ level)) 0 num))
        (node (kids s.view) e) (node (kids s'.view) e) (e = e) ok s l s' l' := by
    intro ok s' l' h'
    have hgr : Granted (IsPath 128 (level + 1)) (·.length = level + 1) [] (node (kids s.view) e)
        (node (kids s.view) e) true s s₁ [.entered e] := granted_read h₁ (.root he s.view) _
    rw [h₁.view] at h'
    exact (hgr.outcome (fun _ => trivial) h' ho (fun _ _ => rfl) fun p hp => by cases hp).congr
      fun _ => rfl
  have hdom : ∀ x ∈ entrySlots (treePaths level) (128 ^ level) (divRoundUp num (128 ^ level)) 0 num,
      InForest 128 (fun _ => level) x := fun x hx => by
    obtain ⟨-, hlt, m, hm, hx⟩ := mem_entrySlots _ hx
    exact ⟨by omega, isPath_treePaths level (by omega) hm hx⟩
  obtain ⟨new, hnew, ⟨hg, hsame⟩ | hr⟩ := h
  · have hnew : l₂ = new ++ .entered e :: l := hnew
    subst hnew
    cases ok with
    | true =>
      dsimp only
      rw [if_pos rfl, wp_bind, Logged.write, wp_logged]
      refine wp_writeSector (by rw [hg.size]; exact hlt) fun s₃ h₃ hv => (wp_pure _).mpr (hread ?_)
      exact ⟨.wrote e :: new, rfl,
        .inl ⟨hg.index_written he ho₁ hsame hdom h₃ hv, fun _ => trivial⟩⟩
    | false =>
      dsimp only
      rw [if_neg Bool.false_ne_true, wp_pure]
      exact hread ⟨new, rfl, .inl ⟨hg.index_kept he ho₁, fun _ => trivial⟩⟩
  · have hnew : l₂ = new ++ .entered e :: l := hnew
    subst hnew
    cases ok with
    | true =>
      have hm : ¬ s₁.env.MemOk := fun hm => by cases (hr.exhausted hm).1
      have hwrite : Logged.Reserving (do
          Logged.write e blk
          return (true, e)) := .bind (Logged.write_reserving _ _) fun _ => .pure _
      dsimp only
      rw [if_pos rfl]
      refine wp_mono (hwrite _ _ growing_keeping _)
        (fun _ he => ⟨h₁.env ▸ hm, .inr (he hr.recorded)⟩) fun r t ht => ?_
      refine outcome_of_entered (l := new ++ [.entered e]) (List.mem_append_left _ hr.entered)
        (h₁.env ▸ hm) ?_ (ht.1 hr.recorded) ..
      rw [List.append_assoc]
      exact ht.2
    | false =>
      dsimp only
      rw [if_neg Bool.false_ne_true, wp_pure]
      refine hread ⟨new, rfl, .inr ⟨hr.entered, hr.recorded, fun hm => ?_⟩⟩
      exact ⟨rfl, (hr.exhausted hm).2.1.below he ho₁, fun _ => trivial⟩

/-! ## Without a free sector -/

/-- Every sector is as it was, or sector 0 has been filled with zeros. -/
def ZeroesAtMost (s s' : Fs) : Prop :=
  s'.view = s.view ∨ s'.view = Function.update s.view 0 Bytes.zeros

/-- Sector 0 has been filled with zeros, and stays so. -/
theorem ZeroesAtMost.zeroed (h : ZeroesAtMost s₁ s₂)
    (h₁ : s₁.view = Function.update s.view 0 Bytes.zeros) :
    s₂.view = Function.update s.view 0 Bytes.zeros := by
  rcases h with h | h
  · rw [h, h₁]
  · rw [h, h₁, Function.update_idem]

theorem ZeroesAtMost.trans (h : ZeroesAtMost s s₁) (h' : ZeroesAtMost s₁ s₂) :
    ZeroesAtMost s s₂ := by
  rcases h with h | h
  · rwa [ZeroesAtMost, h] at h'
  · exact .inr (h'.zeroed h)

/-- Nothing has been handed out, and nothing has changed but sector 0. -/
def Idle (s : Fs) (l : List Access) (t : Fs × List Access) : Prop :=
  ∃ new, t.2 = new ++ l ∧ handed new = [] ∧ Adds s [] t.1 ∧ Grows (fun _ => False) s t.1 ∧
    ZeroesAtMost s t.1

theorem Idle.trans {t t' : Fs × List Access} (h : Idle s l t) (h' : Idle t.1 t.2 t') :
    Idle s l t' := by
  obtain ⟨new, hnew, hnone, hadds, hgrows, hview⟩ := h
  obtain ⟨new', hnew', hnone', hadds', hgrows', hview'⟩ := h'
  refine ⟨new' ++ new, by rw [hnew', hnew, List.append_assoc], ?_, hadds.trans hadds',
    hgrows.trans hgrows' fun _ _ h => h, hview.trans hview'⟩
  rw [handed_append, hnone', hnone]
  rfl

theorem Idle.zeroes {t : Fs × List Access} (h : Idle s l t) : ZeroesAtMost s t.1 :=
  h.choose_spec.2.2.2.2

theorem Idle.free {t : Fs × List Access} (h : Idle s l t) : t.1.free.card = s.free.card :=
  h.choose_spec.2.2.1.card_free

theorem Idle.freeMapOk {t : Fs × List Access} (h : Idle s l t) (hs : FreeMapOk s) :
    FreeMapOk t.1 := hs.takes h.choose_spec.2.2.1.takes

theorem Idle.env {t : Fs × List Access} (h : Idle s l t) : t.1.env = s.env :=
  h.choose_spec.2.2.1.env

theorem Looks.idle (h : Looks s s₁) {new : List Access} (hnew : handed new = []) :
    Idle s l (s₁, new ++ l) :=
  ⟨new, rfl, hnew, h.takes.adds h.freeMap, h.grows _, .inl h.view⟩

theorem wp_allocate_full (hs : FreeMapOk s) (hm : s.env.MemOk) (hfree : s.free.card = 0) :
    Logged.allocate.wp (fun _ => False) (fun r t => r = none ∧ Idle s l t) (s, l) := by
  refine wp_mono (wp_allocate hs) (fun _ h => h.1 hm) fun r t h => ?_
  obtain ⟨ha, hl, hnone⟩ := h
  cases r with
  | some k =>
    have hcard := ha.adds.card_free
    rw [hfree, List.length_singleton] at hcard
    omega
  | none =>
    exact ⟨rfl, [], hl, rfl, ha.adds_nil, FreeMapOk.allocated_grows ha, .inl (hnone rfl hm).2⟩

/-- Sector 0 is filled with zeros, in place of an index block. -/
theorem wp_write_zero (hs : FreeMapOk s) {Q : Unit → Fs × List Access → Prop}
    (hQ : ∀ s', Idle s l (s', .wrote 0 :: l) → s'.view = Function.update s.view 0 Bytes.zeros →
      Q () (s', .wrote 0 :: l)) :
    (Logged.write 0 Bytes.zeros).wp (fun _ => False) Q (s, l) := by
  rw [Logged.write, wp_logged]
  refine wp_writeSector (hs.used_lt hs.header) fun s' h hv => hQ s' ?_ hv
  have hgrows := grows_write h (fun hk => hk.1 rfl) hv
  exact ⟨[.wrote 0], rfl, rfl, adds_write h (fun hk => hk.1 rfl) hv, { hgrows with
    view := fun k hk h0 _ hd => hgrows.view k hk h0 h0 hd }, .inr hv⟩

/-- `child` fills no slot of a tree without a block, when no sector is free. -/
def Refuses (child : Nat → Nat → Logged (Bool × Nat)) : Prop :=
  ∀ s l num, 0 < num → FreeMapOk s → s.env.MemOk → s.free.card = 0 →
    (child 0 num).wp (fun _ => False) (fun r t => r = (false, 0) ∧ Idle s l t) (s, l)

theorem inodeReserveDirect_refuses : Refuses fun entry _ => Logged.inodeReserveDirect entry := by
  intro s l num _ hs hm hfree
  show (Logged.inodeReserveDirect 0).wp _ _ _
  unfold Logged.inodeReserveDirect
  rw [if_pos rfl, wp_bind]
  refine wp_mono (wp_allocate_full hs hm hfree) (fun _ h => h) fun r t h => ?_
  obtain ⟨rfl, hidle⟩ := h
  exact (wp_pure _).mpr ⟨rfl, hidle⟩

theorem reserveUnder_refuses {child : Nat → Nat → Logged (Bool × Nat)} (hchild : Refuses child)
    {unit : Nat} (hunit : 0 < unit) (hpos : 0 < num) (hs : FreeMapOk s) (hm : s.env.MemOk)
    (hfree : s.free.card = 0) (hzero : s.view 0 = Bytes.zeros) :
    (Logged.reserveUnder child unit 0 num).wp (fun _ => False)
      (fun r t => r = (false, 0) ∧ Idle s l t) (s, l) := by
  unfold Logged.reserveUnder
  rw [wp_bind, Logged.read, wp_logged]
  refine wp_readSector (hs.used_lt hs.header) fun s₁ h₁ => ?_
  have hidle₁ : Idle s l (s₁, [.entered 0] ++ l) := h₁.idle rfl
  obtain ⟨todo, htodo⟩ : ∃ todo, divRoundUp num unit = todo + 1 :=
    Nat.exists_eq_succ_of_ne_zero (by
      have h := (Nat.div_pos_iff (a := num + unit - 1) (b := unit)).mpr ⟨hunit, by omega⟩
      exact Nat.ne_of_gt h)
  rw [hzero, htodo, Logged.reserveEntries, wp_bind, wp_bind, Bytes.word_zeros]
  refine wp_mono (hchild s₁ _ (min num unit) (by omega) (hidle₁.freeMapOk hs) (hidle₁.env ▸ hm)
    (hidle₁.free.trans hfree)) (fun _ h => h) fun r t h => ?_
  obtain ⟨rfl, hidle⟩ := h
  exact (wp_pure _).mpr ((wp_pure _).mpr ⟨rfl, hidle₁.trans hidle⟩)

theorem grows_record (s : Fs) (event : Event) (D : Nat → Prop) :
    Grows D s { s with history.events := event :: s.history.events } where
  toMapFileKept := ⟨rfl, rfl, rfl, fun _ _ _ _ => rfl⟩
  used _ hk := hk
  view _ _ _ _ _ := rfl
  live := rfl
  events := List.subset_cons_self _ _
  written _ hw := hw

/-- An index block is refused. -/
theorem refused_index {child : Nat → Nat → Logged (Bool × Nat)} (hchild : Refuses child)
    {unit : Nat} (hunit : 0 < unit) (hpos : 0 < num) (hs : FreeMapOk s) (hm : s.env.MemOk)
    (hfree : s.free.card = 0) :
    (do
      logged (record .indexRefused) fun _ => []
      Logged.write 0 Bytes.zeros
      Logged.reserveUnder child unit 0 num).wp (fun _ => False)
      (fun r t => r = (false, 0) ∧ Idle s l t ∧
        t.1.view = Function.update s.view 0 Bytes.zeros) (s, l) := by
  rw [wp_bind, wp_logged, record]
  refine wp_modifyHistory fun s₁ h₁ he => ?_
  have hview : s₁.view = s.view := he ▸ rfl
  have hidle₁ : Idle s l (s₁, l) := ⟨[], rfl, rfl, (h₁.takes (by rw [he])).adds (by rw [he]),
    he ▸ grows_record s _ _, .inl hview⟩
  rw [wp_bind]
  refine wp_write_zero (hidle₁.freeMapOk hs) fun s₂ h₂ hv => ?_
  have hidle₂ := hidle₁.trans h₂
  refine wp_mono (reserveUnder_refuses hchild hunit hpos (hidle₂.freeMapOk hs) (hidle₂.env ▸ hm)
    (hidle₂.free.trans hfree) (by rw [hv, Function.update_self])) (fun _ h => h) fun r t h => ?_
  exact ⟨h.1, hidle₂.trans h.2, h.2.zeroes.zeroed (hview ▸ hv)⟩

theorem levelUnit_pos (level : Nat) : 0 < levelUnit level := by
  unfold levelUnit
  split <;> decide

theorem inodeReserveIndirect_refuses (level : Nat) :
    Refuses (Logged.inodeReserveIndirect level) := by
  induction level with
  | zero => exact inodeReserveDirect_refuses
  | succ level ih =>
    intro s l num hpos hs hm hfree
    unfold Logged.inodeReserveIndirect Logged.reserveIndexBlock
    rw [if_pos rfl, wp_bind, wp_bind]
    refine wp_mono (wp_allocate_full hs hm hfree) (fun _ h => h) fun r t h => ?_
    obtain ⟨rfl, hidle⟩ := h
    have hrest := refused_index (l := t.2) ih (levelUnit_pos (level + 1)) hpos (hidle.freeMapOk hs)
      (hidle.env ▸ hm) (hidle.free.trans hfree)
    rw [wp_bind] at hrest
    dsimp only
    rw [wp_bind]
    refine wp_mono hrest (fun _ h => h) fun _ t₁ h₁ => ?_
    rw [wp_bind] at h₁ ⊢
    refine wp_mono h₁ (fun _ h => h) fun _ t₂ h₂ => (wp_pure _).mpr ?_
    exact wp_mono h₂ (fun _ h => h) fun r t₃ h₃ =>
      ⟨h₃.1, hidle.trans h₃.2.1⟩

/-- An index block that has been refused is taken to be sector 0. -/
theorem refused_enters {child : Nat → Nat → Logged (Bool × Nat)}
    (hres : ∀ entry num, Logged.Reserving (child entry num)) (unit num : Nat) :
    (do
      logged (record .indexRefused) fun _ => []
      Logged.write 0 Bytes.zeros
      Logged.reserveUnder child unit 0 num).wp (fun e => Event.indexRefused ∈ e.history.events)
      (fun _ t => Event.indexRefused ∈ t.1.history.events ∧
        ∃ new, t.2 = new ++ l ∧ Access.entered 0 ∈ new) (s, l) := by
  have hrest : ∀ r : Bool × Block, Logged.Reserving
      (if r.1 then do Logged.write 0 r.2; return (true, 0) else return (false, 0)) := fun r =>
    .ite (.bind (Logged.write_reserving _ _) fun _ => .pure _) (.pure _)
  have hentries := fun blk =>
    Logged.reserveEntries_reserving hres unit (divRoundUp num unit) 0 num blk
  rw [wp_bind, wp_logged, record]
  refine wp_modifyHistory fun s₁ _ he => ?_
  have hev : Event.indexRefused ∈ s₁.history.events := he ▸ List.mem_cons_self
  rw [wp_bind]
  refine wp_mono (Logged.write_reserving _ _ _ _ growing_keeping _) (fun _ hle => hle hev)
    fun _ t₂ h₂ => ?_
  rw [Logged.reserveUnder, wp_bind, Logged.read]
  refine wp_logged.mpr (wp_mono (readSector_steps events_loud.toReading 0 t₂.1)
    (fun _ hle => hle (h₂.1 hev)) fun blk s₃ h₃ => ?_)
  refine wp_mono (Logged.Reserving.bind (hentries blk) hrest _ _ growing_keeping _)
    (fun _ hle => hle (h₃ (h₂.1 hev))) fun r t ht => ⟨ht.1 (h₃ (h₂.1 hev)), ?_⟩
  obtain ⟨new₂, hnew₂⟩ := h₂.2
  obtain ⟨new, hnew⟩ := ht.2
  refine ⟨new ++ ([.entered 0] ++ new₂), ?_, by simp⟩
  rw [← hnew, ← hnew₂, List.append_assoc, List.append_assoc]
  rfl

/-- The tree without a block has stayed empty. -/
theorem extends_zero (h : Grows (fun _ => False) s s₁) :
    Extends (IsPath 128 level) (·.length = level) (node (kids s.view) 0)
      (node (kids s₁.view) 0) s s₁ where
  toGrows := h.mono fun _ h => h.elim
  pointers := .of_eq fun p _ => by rw [node_zero, node_zero]
  taken p _ _ hne := absurd node_zero hne
  zero p _ _ _ hne := absurd node_zero hne

theorem refused_outcome {child : Nat → Nat → Logged (Bool × Nat)} (level : Nat) (hs : FreeMapOk s)
    (ha : Allocated s none s₁)
    (hfree : s.env.MemOk → s.free.card = 0 ∧ s₁.view = s.view) (hchild : Refuses child)
    (hres : ∀ entry num, Logged.Reserving (child entry num)) (hpos : 0 < num) :
    (do
      logged (record .indexRefused) fun _ => []
      Logged.write 0 Bytes.zeros
      Logged.reserveUnder child (levelUnit (level + 1)) 0 num).wp (Starved s.env)
      (fun r t => Outcome (IsPath 128 (level + 1)) (·.length = level + 1)
        ([] :: underPaths (treePaths level) (levelUnit (level + 1)) num) (node (kids s.view) 0)
        (node (kids t.1.view) r.2) (r.2 = 0) r.1 s l t.1 t.2) (s₁, l) := by
  have henters := refused_enters (s := s₁) (l := l) hres (levelUnit (level + 1)) num
  by_cases hm : s.env.MemOk
  · have hfull := refused_index (l := l) hchild (levelUnit_pos (level + 1)) hpos (hs.allocated ha)
      (ha.env ▸ hm) (ha.adds_nil.card_free.trans (hfree hm).1)
    refine wp_mono (wp_and henters hfull) (fun _ h => h.2.elim) fun r t h => ?_
    obtain ⟨⟨hev, new, hnew, hentered⟩, rfl, ⟨new', hnew', hno, hadds, hgrows, -⟩, hzeroed⟩ := h
    obtain rfl : new' = new := List.append_cancel_right (hnew'.symm.trans hnew)
    have hall := (FreeMapOk.allocated_grows ha).trans hgrows fun _ _ h => h
    refine ⟨new', hnew, .inr ⟨hentered, hev, fun _ => ⟨rfl, ⟨extends_zero hall, ?_, ?_,
      ⟨[], ?_, ?_⟩, fun _ => (hfree hm).2 ▸ hzeroed⟩, fun _ => rfl⟩⟩⟩
    · rw [hno]
      exact ha.adds_nil.trans hadds
    · rw [hno, (hfree hm).1]
      rfl
    · rw [(hfree hm).1, missing, List.filter_cons_of_pos (by simp)]
      rfl
    · exact (Nat.succ_ne_zero level).symm
  · refine wp_mono henters (fun _ hev => ⟨hm, .inr hev⟩) fun r t h => ?_
    obtain ⟨hev, new, hnew, hentered⟩ := h
    exact outcome_of_entered hentered hm (hnew ▸ List.suffix_refl _) hev ..

/-! ## The whole of a tree -/

theorem inodeReserveIndirect_reserves (level : Nat) (hlevel : level ≤ 2) :
    Reserves level (Logged.inodeReserveIndirect level) := by
  induction level with
  | zero => exact inodeReserveDirect_reserves
  | succ level ih =>
    intro s l entry num hpos hnum hs ho
    have hunder := fun {s : Fs} {l : List Access} {e : Nat} =>
      reserveUnder_outcome (s := s) (l := l)
      (e := e) (ih (by omega)) (Logged.inodeReserveIndirect_reserving level) (by omega) hnum
    unfold Logged.inodeReserveIndirect Logged.reserveIndexBlock
    rw [wp_bind, treePaths]
    by_cases he : entry = 0
    · subst he
      rw [if_pos rfl, wp_bind]
      refine wp_mono (wp_allocate hs) (fun _ h => h) fun r t h => ?_
      obtain ⟨s₁, l₁⟩ := t
      obtain ⟨ha, hl, hnone⟩ := h
      subst hl
      cases r with
      | some k =>
        obtain ⟨hlt, -, hk0⟩ := hs.fresh ha
        dsimp only
        rw [wp_bind, Logged.write, wp_logged]
        refine wp_writeSector hlt fun s₂ h₂ hv => (wp_pure _).mpr ?_
        have hg := granted_new (level + 1) hs ha h₂ hv
        have hrest := hunder (l := .wrote k :: .handed k :: l) (hs.takes hg.adds.takes) hk0
          (hg.toExtends.owned ho)
        rw [hg.env] at hrest
        refine wp_mono hrest (fun _ h => h) fun r t h => ?_
        have hhanded : handed [.wrote k, .handed k] = [] → False := fun hn => by cases hn
        refine (hg.outcome hhanded h ho (fun p hp => ?_)
          (by simpa using isPath_nil)).congr fun h => h.1.elim
        refine hg.same p (isPath_treePaths (level + 1) hlevel hnum (List.mem_cons_of_mem _ hp)) ?_
        obtain ⟨x, -, rfl⟩ := List.mem_map.mp hp
        simp
      | none =>
        have h := refused_outcome (l := l) level hs ha (hnone rfl)
          (inodeReserveIndirect_refuses level) (Logged.inodeReserveIndirect_reserving level) hpos
        simp only [wp_bind, wp_pure] at h ⊢
        exact h
    · rw [if_neg he, wp_pure]
      refine wp_mono (hunder hs he ho) (fun _ h => h) fun r t h => ?_
      have hroot : ∀ p ∈ [[]], node (kids s.view) entry p ≠ 0 := by simpa using he
      exact ((granted_used hroot (IsPath 128 (level + 1)) (·.length = level + 1) s).outcome
        (fun _ => trivial) h ho (fun _ _ => rfl) (by simpa using isPath_nil)).congr fun h => h.2

end

/-! ## The header -/

/-- The part of `inode_reserve` for the pointer `root`, if there is one. -/
def reserveRoot (root num : Nat) (disk : Block) : Logged (Bool × Block) :=
  if num = 0 then return (true, disk)
  else do
    let (ok, entry) ← Logged.inodeReserveIndirect (depth root) (disk.word root) num
    return (ok, disk.setWord root entry)

/-- The parts of `inode_reserve` behind the direct blocks. -/
def reserveRoots (n : Nat) (disk : Block) : Logged (Bool × Block) := do
  let (ok, disk) ← reserveRoot indirectBlock (min (n - 123) 128) disk
  if ok then reserveRoot doublyIndirectBlock (min (n - 251) 16384) disk else return (false, disk)

/-- `inode_reserve` up to its last test, for `n` sectors. -/
def reserveSlots (n : Nat) (disk : Block) : Logged (Bool × Block) := do
  let (ok, disk) ← Logged.reserveEntries (fun entry _ => Logged.inodeReserveDirect entry) 1
    (min n 123) 0 (min n 123) disk
  if ok then reserveRoots n disk else return (false, disk)

/-- `inode_reserve` is `reserveSlots` and the test of the maximum size. -/
theorem wp_inodeReserve {E : Stop → Prop} {Q : Bool × Block → Fs × List Access → Prop}
    {s : Fs × List Access} {disk : Block} {length : Int} (h0 : 0 ≤ length)
    (h : (reserveSlots (bytesToSectors length) disk).wp E
      (fun r t => Q (r.1 && decide (bytesToSectors length ≤ 16635), r.2) t) s) :
    (Logged.inodeReserve disk length).wp E Q s := by
  unfold Logged.inodeReserve
  unfold reserveSlots at h
  rw [if_neg (Int.not_lt.mpr h0)]
  generalize bytesToSectors length = n at h ⊢
  have hdirect : n - min n 123 = n - 123 := by omega
  have hindirect : n - 123 - min (n - 123) 128 = n - 251 := by omega
  have hdoubly : n - 251 - min (n - 251) (128 * 128) = n - 16635 := by omega
  simp only [directBlocksCount, indirectBlocksPerSector, hdirect, hindirect, hdoubly]
  rw [wp_bind] at h ⊢
  refine wp_mono h (fun _ h => h) fun r t h => ?_
  obtain ⟨ok, disk⟩ := r
  dsimp only at h
  cases ok with
  | false =>
    rw [if_neg Bool.false_ne_true, wp_pure, Bool.false_and] at h
    exact (wp_pure _).mpr h
  | true =>
    rw [if_pos rfl, reserveRoots, wp_bind, reserveRoot] at h
    dsimp only
    rw [if_neg (show ¬ (!true) = true by decide)]
    by_cases hn : n - 123 = 0
    · rw [if_pos hn, wp_pure]
      rw [if_pos (by omega), wp_pure] at h
      dsimp only at h
      rw [if_pos rfl, reserveRoot, if_pos (by omega), wp_pure, decide_eq_true (by omega)] at h
      exact h
    rw [if_neg (by omega), wp_bind] at h
    rw [if_neg hn, wp_bind]
    refine wp_mono h (fun _ h => h) fun r t h => ?_
    obtain ⟨ok, entry⟩ := r
    rw [wp_pure] at h
    dsimp only at h
    cases ok with
    | false =>
      rw [if_neg Bool.false_ne_true, wp_pure, Bool.false_and] at h
      exact (wp_pure _).mpr h
    | true =>
      rw [if_pos rfl, reserveRoot] at h
      dsimp only
      rw [if_neg (show ¬ (!true) = true by decide)]
      by_cases hn : n - 251 = 0
      · rw [if_pos hn, wp_pure]
        rw [if_pos (by omega), wp_pure, decide_eq_true (by omega)] at h
        exact h
      rw [if_neg (by omega), wp_bind] at h
      rw [if_neg hn, wp_bind]
      refine wp_mono h (fun _ h => h) fun r t h => ?_
      rw [wp_pure] at h ⊢
      have hle : decide (n - 16635 = 0) = decide (n ≤ 16635) := decide_eq_decide.mpr (by omega)
      rw [hle]
      exact h

theorem reserveRoot_outcome {root num : Nat} (hroot : root = 123 ∨ root = 124)
    (hnum : num ≤ 128 ^ depth root) {s : Fs} {l : List Access} {disk : Block} (hs : FreeMapOk s)
    (ho : Owned IsSlot s.Taken (ptr s.view disk)) :
    (reserveRoot root num disk).wp (Starved s.env) (fun r t =>
      Outcome IsSlot IsLeaf (rootSlots root num) (ptr s.view disk) (ptr t.1.view r.2)
        (r.2 = disk) r.1 s l t.1 t.2) (s, l) := by
  have hdepth : depth root ≤ 2 := by
    rcases hroot with rfl | rfl <;> decide
  unfold reserveRoot rootSlots
  by_cases h0 : num = 0
  · rw [if_pos h0, if_pos h0, wp_pure]
    exact ⟨[], rfl, .inl ⟨granted_used (fun p hp => by cases hp) _ _ _, fun _ => rfl⟩⟩
  · rw [if_neg h0, if_neg h0, wp_bind]
    have htree : Owned (IsPath 128 (depth root)) s.Taken (node (kids s.view) (disk.word root)) :=
      ho.comp (fun p => (root, p)) (fun p hp => ⟨by omega, hp⟩) fun p q _ _ h => (Prod.mk.inj h).2
    refine wp_mono (inodeReserveIndirect_reserves _ hdepth s l _ num (by omega) hnum hs htree)
      (fun _ h => h) fun r t h => (wp_pure _).mpr ?_
    refine (h.entry (n := 125) (d := depth) hs ho (by omega) (by decide)).congr fun he => ?_
    rw [he]
    exact Bytes.setWord_word disk root

theorem mem_rootSlots {root num : Nat} (hroot : root = 123 ∨ root = 124)
    (hnum : num ≤ 128 ^ depth root) {x : Slot} (hx : x ∈ rootSlots root num) :
    x.1 = root ∧ IsSlot x := by
  have hdepth : depth root ≤ 2 := by
    rcases hroot with rfl | rfl <;> decide
  unfold rootSlots at hx
  split at hx
  · cases hx
  · obtain ⟨p, hp, rfl⟩ := List.mem_map.mp hx
    exact ⟨rfl, by show root < 125; omega, isPath_treePaths _ hdepth hnum hp⟩

theorem reserveRoot_reserving (root num : Nat) (disk : Block) :
    Logged.Reserving (reserveRoot root num disk) :=
  .ite (.pure _) (.bind (Logged.inodeReserveIndirect_reserving _ _ _) fun _ => .pure _)

theorem reserveRoots_reserving (n : Nat) (disk : Block) :
    Logged.Reserving (reserveRoots n disk) :=
  .bind (reserveRoot_reserving _ _ _) fun _ => .ite (reserveRoot_reserving _ _ _) (.pure _)

theorem indirect_le (n : Nat) : min (n - 123) 128 ≤ 128 ^ depth 123 := Nat.min_le_right _ _

theorem doubly_le (n : Nat) : min (n - 251) 16384 ≤ 128 ^ depth 124 := Nat.min_le_right _ _

theorem reserveRoots_outcome (n : Nat) {s : Fs} {l : List Access} {disk : Block} (hs : FreeMapOk s)
    (ho : Owned IsSlot s.Taken (ptr s.view disk)) :
    (reserveRoots n disk).wp (Starved s.env) (fun r t =>
      Outcome IsSlot IsLeaf (rootSlots indirectBlock (min (n - 123) 128) ++
          rootSlots doublyIndirectBlock (min (n - 251) 16384)) (ptr s.view disk)
        (ptr t.1.view r.2) (r.2 = disk) r.1 s l t.1 t.2) (s, l) := by
  unfold reserveRoots
  rw [wp_bind]
  refine wp_mono (reserveRoot_outcome (.inl rfl) (indirect_le n) hs ho) (fun _ h => h)
    fun r t h => ?_
  obtain ⟨ok, disk₁⟩ := r
  obtain ⟨s₁, l₁⟩ := t
  refine Outcome.go (g := fun disk t => ptr t.view disk) (q := (· = disk)) (r := (· = disk₁)) h
    hs ho ?_ ?_ id ?_ (reserveRoot_reserving _ _ _) fun hs₁ ho₁ =>
      reserveRoot_outcome (.inr rfl) (doubly_le n) hs₁ ho₁
  · exact fun x hx => (mem_rootSlots (.inl rfl) (indirect_le n) hx).2
  · intro x hx
    obtain ⟨hroot, hslot⟩ := mem_rootSlots (.inr rfl) (doubly_le n) hx
    refine ⟨hslot, fun hx' => ?_⟩
    have h := (mem_rootSlots (.inl rfl) (indirect_le n) hx').1
    exact absurd (hroot.symm.trans h) (by decide)
  · rintro b rfl rfl
    rfl

theorem mem_directSlots {n : Nat} {x : Slot}
    (hx : x ∈ entrySlots (treePaths 0) 1 (min n 123) 0 (min n 123)) : x.1 < 123 ∧ IsSlot x := by
  obtain ⟨-, hlt, m, -, hx⟩ := mem_entrySlots _ hx
  have hnil : x.2 = [] := List.mem_singleton.mp hx
  refine ⟨by omega, by omega, ?_⟩
  rw [hnil]
  exact isPath_nil

/-- **What `inode_reserve` does with the slots of a header.** -/
theorem reserveSlots_outcome (n : Nat) {s : Fs} {l : List Access} {disk : Block} (hs : FreeMapOk s)
    (ho : Owned IsSlot s.Taken (ptr s.view disk)) :
    (reserveSlots n disk).wp (Starved s.env) (fun r t =>
      Outcome IsSlot IsLeaf (reservedSlots n) (ptr s.view disk) (ptr t.1.view r.2) (r.2 = disk)
        r.1 s l t.1 t.2) (s, l) := by
  have hdirect := reserveEntries_outcome inodeReserveDirect_reserves
    (fun entry _ => Logged.inodeReserveDirect_reserving entry) (by decide) (by decide) (min n 123) s l 0
    (min n 123) disk (n := 125) (d := depth) (by omega) (fun j _ hj => depth_direct (by omega))
    (fun m hm => by omega) hs ho
  rw [Nat.pow_zero] at hdirect
  unfold reserveSlots
  rw [wp_bind]
  refine wp_mono hdirect (fun _ h => h) fun r t h => ?_
  obtain ⟨ok, disk₁⟩ := r
  obtain ⟨s₁, l₁⟩ := t
  refine Outcome.go (g := fun disk t => ptr t.view disk) (q := (· = disk)) (r := (· = disk₁)) h
    hs ho ?_ ?_ id ?_ (reserveRoots_reserving _ _) fun hs₁ ho₁ => reserveRoots_outcome n hs₁ ho₁
  · exact fun x hx => (mem_directSlots hx).2
  · intro x hx
    have hslot : 123 ≤ x.1 ∧ IsSlot x := by
      rcases List.mem_append.mp hx with hx | hx
      · obtain ⟨hroot, hslot⟩ := mem_rootSlots (.inl rfl) (indirect_le n) hx
        exact ⟨Nat.le_of_eq hroot.symm, hslot⟩
      · obtain ⟨hroot, hslot⟩ := mem_rootSlots (.inr rfl) (doubly_le n) hx
        exact ⟨by rw [hroot]; decide, hslot⟩
    refine ⟨hslot.2, fun hx' => ?_⟩
    have h := (mem_directSlots hx').1
    omega
  · rintro b rfl rfl
    rfl

/-- **What a call of `inode_reserve` does, and when it succeeds.** -/
theorem inodeReserve_outcome {s : Fs} {l : List Access} {disk : Block} {length : Int}
    (h0 : 0 ≤ length) (hs : FreeMapOk s) (ho : Owned IsSlot s.Taken (ptr s.view disk)) :
    (Logged.inodeReserve disk length).wp (Starved s.env) (fun r t =>
      ∃ ok, r.1 = (ok && decide (bytesToSectors length ≤ 16635)) ∧
        Outcome IsSlot IsLeaf (reservedSlots (bytesToSectors length)) (ptr s.view disk)
          (ptr t.1.view r.2) (r.2 = disk) ok s l t.1 t.2) (s, l) :=
  wp_inodeReserve h0 (wp_mono (reserveSlots_outcome _ hs ho) (fun _ h => h)
    fun r _ h => ⟨r.1, rfl, h⟩)

/-! ## The sectors of data among the slots -/

theorem mem_entrySlots_iff {paths : Nat → List (List Nat)} {unit : Nat} (todo : Nat) :
    ∀ {i num q : Nat} {p : List Nat}, (i + q, p) ∈ entrySlots paths unit todo i num ↔
      q < todo ∧ p ∈ paths (min (num - q * unit) unit) := by
  induction todo with
  | zero => simp [entrySlots]
  | succ todo ih =>
    intro i num q p
    rw [entrySlots, List.mem_append, List.mem_map]
    cases q with
    | zero =>
      rw [Nat.zero_mul, Nat.sub_zero]
      constructor
      · rintro (⟨p', hp, he⟩ | h)
        · exact ⟨Nat.succ_pos _, (Prod.mk.inj he).2 ▸ hp⟩
        · have hle := (mem_entrySlots _ h).1
          exact absurd hle (by simp)
      · exact fun h => .inl ⟨p, h.2, rfl⟩
    | succ q =>
      have hshift : i + (q + 1) = i + 1 + q := by omega
      have hnum : num - min num unit - q * unit = num - (q + 1) * unit := by
        rw [Nat.add_mul, Nat.one_mul]
        omega
      rw [hshift, ih, hnum, Nat.succ_lt_succ_iff]
      constructor
      · rintro (⟨p', -, he⟩ | h)
        · have hi := (Prod.mk.inj he).1
          omega
        · exact h
      · exact .inr

theorem lt_divRoundUp {num unit q : Nat} (hu : 0 < unit) :
    q < divRoundUp num unit ↔ q * unit < num := by
  refine ⟨lt_of_lt_divRoundUp hu, fun h => ?_⟩
  rw [divRoundUp, ← Nat.succ_le_iff, Nat.le_div_iff_mul_le hu, Nat.succ_mul]
  omega

/-- The leaves that are gone over are the first `num` ones. -/
theorem digits_mem_treePaths (level : Nat) : ∀ {num k : Nat}, level ≤ 2 → 0 < num →
    k < 128 ^ level → (digits 128 level k ∈ treePaths level num ↔ k < num) := by
  induction level with
  | zero =>
    intro num k _ hpos hk
    have hk : k = 0 := by simpa using hk
    simpa [treePaths, digits, hk] using hpos
  | succ level ih =>
    intro num k hlevel hpos hk
    have hunit : 0 < 128 ^ level := Nat.pow_pos (by decide)
    have hdiv := Nat.div_add_mod k (128 ^ level)
    have hmod := Nat.mod_lt k hunit
    rw [Nat.mul_comm] at hdiv
    rw [treePaths, List.mem_cons, digits, underPaths, levelUnit_succ (by omega), List.mem_map]
    constructor
    · rintro (h | ⟨x, hx, he⟩)
      · cases h
      · obtain ⟨j, p⟩ := x
        obtain ⟨rfl, rfl⟩ := List.cons.inj he
        rw [← Nat.zero_add (k / 128 ^ level), mem_entrySlots_iff, lt_divRoundUp hunit] at hx
        obtain ⟨hlt, hmem⟩ := hx
        rw [ih (by omega) (by omega) hmod] at hmem
        omega
    · intro hlt
      refine .inr ⟨(0 + k / 128 ^ level, digits 128 level (k % 128 ^ level)), ?_, by simp⟩
      rw [mem_entrySlots_iff, lt_divRoundUp hunit]
      refine ⟨by omega, (ih (by omega) (by omega) hmod).mpr (by omega)⟩

theorem mem_rootSlots_digits (root : Nat) {num k : Nat} (hdepth : depth root ≤ 2)
    (hk : k < 128 ^ depth root) :
    (root, digits 128 (depth root) k) ∈ rootSlots root num ↔ k < num := by
  unfold rootSlots
  split
  · next h => simp [h]
  · next h =>
    rw [← digits_mem_treePaths _ hdepth (Nat.pos_of_ne_zero h) hk, List.mem_map]
    exact ⟨fun ⟨p, hp, he⟩ => (Prod.mk.inj he).2 ▸ hp, fun hp => ⟨_, hp, rfl⟩⟩

/-- **The sectors of data that `inode_reserve` goes over are the first ones.** -/
theorem leafSlot_mem {n idx : Nat} (h : idx < 16635) :
    leafSlot idx ∈ reservedSlots n ↔ idx < n := by
  have hroots : ∀ {root : Nat} {p : List Nat}, 123 ≤ root →
      (root, p) ∉ entrySlots (treePaths 0) 1 (min n 123) 0 (min n 123) := fun hroot hx =>
    absurd (mem_directSlots hx).1 (Nat.not_lt.mpr hroot)
  have hother : ∀ {root root' num : Nat} {p : List Nat}, root ≠ root' →
      (root, p) ∉ rootSlots root' num := by
    intro root root' num p hne hx
    unfold rootSlots at hx
    split at hx
    · cases hx
    · obtain ⟨q, -, he⟩ := List.mem_map.mp hx
      exact hne (Prod.mk.inj he).1.symm
  rw [reservedSlots, List.mem_append, List.mem_append]
  unfold leafSlot
  split
  · next h₁ =>
    rw [or_iff_left (not_or.mpr ⟨hother (Nat.ne_of_lt h₁),
      hother (Nat.ne_of_lt (Nat.lt_succ_of_lt h₁))⟩)]
    rw [← Nat.zero_add idx, mem_entrySlots_iff]
    simp [treePaths]
    omega
  · split
    · next h₁ h₂ =>
      rw [or_iff_right (hroots (Nat.le_refl 123)), or_iff_left (hother (by decide))]
      refine (mem_rootSlots_digits 123 (by decide) ?_).trans ?_
      · rw [depth_indirect]
        omega
      · omega
    · next h₁ h₂ =>
      rw [or_iff_right (hroots (by decide)), or_iff_right (hother (by decide))]
      refine (mem_rootSlots_digits 124 (by decide) ?_).trans ?_
      · rw [depth_doublyIndirect]
        omega
      · omega

end Pintos.Filesys
