import Mathlib.Data.List.Perm.Lattice
import Mathlib.Tactic.Common
import Mathlib.Algebra.GroupWithZero.Nat

/-!
# Hash tables

`lib/kernel/hash.c`. A function gives `none` where it uses a bucket outside of the array.

`hash` and `less` are those of the table. `alloc` is whether `malloc` in `rehash` succeeds.

## Main results

* `WF.hashFind`, `WF.hashInsert`, `WF.hashDelete` — what the functions do, by the keys of the
  elements.
* `WF.rehash` — the elements stay the same.
-/

namespace Pintos.Lib

/-- `struct hash`. A bucket is the list of its elements. -/
structure Hash (α : Type) where
  elemCnt : Nat
  bucketCnt : Nat
  buckets : List (List α)
  deriving DecidableEq

namespace Hash

variable {α : Type}

/-! ## The functions of the source -/

/-- `hash_init`. -/
def hashInit : Hash α where
  elemCnt := 0
  bucketCnt := 4
  buckets := List.replicate 4 []

/-- `find_bucket`. -/
def findBucket (hash : α → Nat) (h : Hash α) (e : α) : Nat := hash e &&& (h.bucketCnt - 1)

/-- `find_elem`. -/
def findElem (less : α → α → Bool) (bucket : List α) (e : α) : Option α :=
  bucket.find? fun hi => !less hi e && !less e hi

/-- `list_push_front` on the bucket at `i`. -/
def pushFront (h : Hash α) (i : Nat) (e : α) : Option (Hash α) :=
  h.buckets[i]?.map fun bucket => { h with buckets := h.buckets.set i (e :: bucket) }

/-- `insert_elem`. -/
def insertElem (h : Hash α) (i : Nat) (e : α) : Option (Hash α) :=
  { h with elemCnt := h.elemCnt + 1 }.pushFront i e

/-- `remove_elem`. An element is taken out of the list that it is in. -/
def removeElem [DecidableEq α] (h : Hash α) (e : α) : Hash α :=
  { h with
    elemCnt := h.elemCnt - 1
    buckets := h.buckets.map (·.erase e) }

/-- `turn_off_least_1bit`. -/
def turnOffLeast1bit (x : Nat) : Nat := x &&& (x - 1)

/-- `is_power_of_2`. -/
def isPowerOf2 (x : Nat) : Bool := x ≠ 0 ∧ turnOffLeast1bit x = 0

/-- The loop in `rehash` that makes `new_bucket_cnt` a power of two. -/
def bucketCntLoop : (fuel : Nat) → Nat → Option Nat
  | 0, _ => none
  | fuel + 1, cnt =>
    if isPowerOf2 cnt then some cnt else bucketCntLoop fuel (turnOffLeast1bit cnt)

/-- The number of buckets to use for `elemCnt` elements. -/
def newBucketCnt (elemCnt : Nat) : Option Nat :=
  let cnt := if elemCnt / 2 < 4 then 4 else elemCnt / 2
  bucketCntLoop cnt cnt

/-- An element of an old bucket is moved into the appropriate new one. -/
def move (hash : α → Nat) (h : Hash α) (elem : α) : Option (Hash α) :=
  h.pushFront (h.findBucket hash elem) elem

/-- The last loop of `rehash`, over the buckets of `old`. -/
def moveAll (hash : α → Nat) (old : Hash α) (h : Hash α) : Option (Hash α) :=
  (List.range old.bucketCnt).foldlM (fun h i => old.buckets[i]?.bind (·.foldlM (move hash) h)) h

/-- `rehash`. -/
def rehash (hash : α → Nat) (alloc : Bool) (h : Hash α) : Option (Hash α) := do
  let cnt ← newBucketCnt h.elemCnt
  if cnt = h.bucketCnt then
    return h
  else if !alloc then
    return h
  else
    moveAll hash h { h with bucketCnt := cnt, buckets := List.replicate cnt [] }

/-- `hash_find`. -/
def hashFind (hash : α → Nat) (less : α → α → Bool) (h : Hash α) (e : α) : Option (Option α) :=
  h.buckets[h.findBucket hash e]?.map (findElem less · e)

/-- `hash_insert`. -/
def hashInsert (hash : α → Nat) (less : α → α → Bool) (alloc : Bool) (h : Hash α) (e : α) :
    Option (Option α × Hash α) := do
  let bucket ← h.buckets[h.findBucket hash e]?
  match findElem less bucket e with
  | none =>
    let h ← h.insertElem (h.findBucket hash e) e
    let h ← h.rehash hash alloc
    return (none, h)
  | some old =>
    let h ← h.rehash hash alloc
    return (some old, h)

/-- `hash_delete`. -/
def hashDelete [DecidableEq α] (hash : α → Nat) (less : α → α → Bool) (alloc : Bool) (h : Hash α)
    (e : α) : Option (Option α × Hash α) := do
  match ← h.hashFind hash less e with
  | none => return (none, h)
  | some found =>
    let h ← (h.removeElem found).rehash hash alloc
    return (some found, h)

/-! ## Powers of two -/

theorem isPowerOf2_iff {x : Nat} : isPowerOf2 x = true ↔ x.isPowerOfTwo := by
  rw [← Nat.ne_zero_and_sub_one_eq_zero_iff_isPowerOfTwo, isPowerOf2, turnOffLeast1bit]
  exact decide_eq_true_iff

theorem turnOffLeast1bit_lt {x : Nat} (hx : 0 < x) : turnOffLeast1bit x < x :=
  Nat.lt_of_le_of_lt Nat.and_le_right (Nat.sub_lt hx Nat.one_pos)

/-- The highest bit stays. -/
theorem le_turnOffLeast1bit {x k : Nat} (hx : 2 ^ k ≤ x) (hpow : isPowerOf2 x = false) :
    2 ^ k ≤ turnOffLeast1bit x := by
  have hpos : x ≠ 0 := by
    have := Nat.two_pow_pos k
    omega
  have hbit : (turnOffLeast1bit x).testBit x.log2 = true :=
    Nat.and_sub_one_testBit_log2 hpos fun h => by simp [isPowerOf2_iff.mpr h] at hpow
  calc 2 ^ k ≤ 2 ^ x.log2 := Nat.pow_le_pow_right (by decide) ((Nat.le_log2 hpos).mpr hx)
    _ ≤ turnOffLeast1bit x := Nat.ge_two_pow_of_testBit hbit

/-- The loop ends at a power of two, and does not go below one. -/
theorem bucketCntLoop_spec {k : Nat} (fuel : Nat) : ∀ cnt, 2 ^ k ≤ cnt → cnt ≤ fuel →
    ∃ cnt', bucketCntLoop fuel cnt = some cnt' ∧ cnt'.isPowerOfTwo ∧ 2 ^ k ≤ cnt' := by
  induction fuel with
  | zero =>
    intro cnt hcnt hfuel
    have := Nat.two_pow_pos k
    omega
  | succ fuel ih =>
    intro cnt hcnt hfuel
    rw [bucketCntLoop]
    split
    · next hpow => exact ⟨cnt, rfl, isPowerOf2_iff.mp hpow, hcnt⟩
    · next hpow =>
      have hlt : turnOffLeast1bit cnt < cnt := turnOffLeast1bit_lt (by
        have := Nat.two_pow_pos k
        omega)
      exact ih _ (le_turnOffLeast1bit hcnt (by simpa using hpow)) (by omega)

theorem newBucketCnt_spec (elemCnt : Nat) :
    ∃ cnt, newBucketCnt elemCnt = some cnt ∧ cnt.isPowerOfTwo ∧ 4 ≤ cnt := by
  refine bucketCntLoop_spec (k := 2) _ _ ?_ (Nat.le_refl _)
  split <;> omega

/-! ## Tables -/

/-- The elements of a table. -/
def elems (h : Hash α) : List α := h.buckets.flatten

/-- Each bucket has the elements that belong in it. -/
structure Placed (hash : α → Nat) (h : Hash α) : Prop where
  length : h.buckets.length = h.bucketCnt
  isPowerOfTwo : h.bucketCnt.isPowerOfTwo
  four_le : 4 ≤ h.bucketCnt
  bucket : ∀ i bucket, h.buckets[i]? = some bucket → ∀ e ∈ bucket, h.findBucket hash e = i

variable {κ : Type} {hash : α → Nat} {less : α → α → Bool} {key : α → κ} {h h' : Hash α} {e a : α}

/-- A mask of a power of two picks a bucket. -/
theorem findBucket_lt (hpos : 0 < h.bucketCnt) (e : α) : h.findBucket hash e < h.bucketCnt :=
  Nat.lt_of_le_of_lt Nat.and_le_right (Nat.sub_lt hpos Nat.one_pos)

theorem Placed.getElem? (hp : h.Placed hash) (e : α) :
    ∃ bucket, h.buckets[h.findBucket hash e]? = some bucket := by
  have hlt : h.findBucket hash e < h.buckets.length := by
    rw [hp.length]
    exact findBucket_lt (Nat.lt_of_lt_of_le (by decide) hp.four_le) e
  exact ⟨_, List.getElem?_eq_getElem hlt⟩

theorem mem_elems_of_getElem? {i : Nat} {bucket : List α} (hi : h.buckets[i]? = some bucket)
    (he : e ∈ bucket) : e ∈ h.elems :=
  List.mem_flatten.mpr ⟨bucket, List.mem_of_getElem? hi, he⟩

/-- An element of the table is in the bucket that it belongs in. -/
theorem Placed.mem_bucket (hp : h.Placed hash) (he : e ∈ h.elems) {bucket : List α}
    (hi : h.buckets[h.findBucket hash e]? = some bucket) : e ∈ bucket := by
  obtain ⟨bucket', hmem, he'⟩ := List.mem_flatten.mp he
  obtain ⟨i, hi'⟩ := List.mem_iff_getElem?.mp hmem
  rw [hp.bucket i bucket' hi' e he', hi'] at hi
  exact Option.some.inj hi ▸ he'

theorem placed_empty (elemCnt : Nat) {cnt : Nat} (hpow : cnt.isPowerOfTwo) (hcnt : 4 ≤ cnt) :
    Placed hash ⟨elemCnt, cnt, List.replicate cnt []⟩ where
  length := List.length_replicate
  isPowerOfTwo := hpow
  four_le := hcnt
  bucket i bucket hi e he := by
    obtain rfl := List.eq_of_mem_replicate (List.mem_of_getElem? hi)
    cases he

theorem elems_empty (elemCnt cnt : Nat) :
    elems (⟨elemCnt, cnt, List.replicate cnt []⟩ : Hash α) = [] :=
  List.flatten_replicate_nil

/-- What moving the elements of `list` into a table makes of it. -/
structure Moved (hash : α → Nat) (h : Hash α) (list : List α) (h' : Hash α) : Prop where
  placed : h'.Placed hash
  perm : h'.elems.Perm (list ++ h.elems)
  elemCnt : h'.elemCnt = h.elemCnt

theorem flatten_set {l : List (List α)} {i : Nat} {bucket : List α} (hi : l[i]? = some bucket)
    (e : α) : (l.set i (e :: bucket)).flatten.Perm (e :: l.flatten) := by
  induction l generalizing i with
  | nil => cases hi
  | cons b l ih =>
    cases i with
    | zero =>
      cases hi
      exact List.Perm.refl _
    | succ i =>
      rw [List.set_cons_succ, List.flatten_cons, List.flatten_cons]
      exact ((ih hi).append_left b).trans List.perm_middle

theorem Placed.pushFront (hp : h.Placed hash) (e : α) :
    ∃ h', h.pushFront (h.findBucket hash e) e = some h' ∧ Moved hash h [e] h' := by
  obtain ⟨bucket, hi⟩ := hp.getElem? e
  refine ⟨{ h with buckets := h.buckets.set (h.findBucket hash e) (e :: bucket) },
    by rw [Hash.pushFront, hi, Option.map_some], ?_, flatten_set hi e, rfl⟩
  refine ⟨(List.length_set ..).trans hp.length, hp.isPowerOfTwo, hp.four_le,
    fun j bucket' hj a ha => ?_⟩
  rw [List.getElem?_set] at hj
  split at hj
  · next hij =>
    subst hij
    split at hj
    · cases hj
      rcases List.mem_cons.mp ha with rfl | ha
      · rfl
      · exact hp.bucket _ bucket hi a ha
    · cases hj
  · exact hp.bucket j bucket' hj a ha

/-! ## `rehash` -/

/-- The inner loop. -/
theorem Placed.move (hp : h.Placed hash) (list : List α) :
    ∃ h', list.foldlM (Hash.move hash) h = some h' ∧ Moved hash h list h' := by
  induction list generalizing h with
  | nil => exact ⟨h, rfl, hp, List.Perm.refl _, rfl⟩
  | cons e list ih =>
    obtain ⟨h₁, hpush, hplaced, hperm, hcnt⟩ := hp.pushFront e
    obtain ⟨h₂, hmove, hplaced', hperm', hcnt'⟩ := ih hplaced
    refine ⟨h₂, ?_, hplaced', ?_, hcnt'.trans hcnt⟩
    · rw [List.foldlM_cons, Hash.move, hpush]
      exact hmove
    · exact hperm'.trans ((hperm.append_left list).trans List.perm_middle)

/-- The loop over the old buckets. -/
theorem Placed.moveBuckets (hp : h.Placed hash) (old : Hash α) (is : List Nat)
    (his : ∀ i ∈ is, i < old.buckets.length) :
    ∃ h', is.foldlM (fun h i => old.buckets[i]?.bind (·.foldlM (Hash.move hash) h)) h = some h' ∧
      Moved hash h (is.flatMap fun i => old.buckets[i]?.getD []) h' := by
  induction is generalizing h with
  | nil => exact ⟨h, rfl, hp, List.Perm.refl _, rfl⟩
  | cons i is ih =>
    obtain ⟨bucket, hi⟩ : ∃ bucket, old.buckets[i]? = some bucket :=
      ⟨_, List.getElem?_eq_getElem (his i List.mem_cons_self)⟩
    obtain ⟨h₁, hmove, hplaced, hperm, hcnt⟩ := hp.move bucket
    obtain ⟨h₂, hloop, hplaced', hperm', hcnt'⟩ :=
      ih hplaced fun j hj => his j (List.mem_cons_of_mem i hj)
    refine ⟨h₂, ?_, hplaced', ?_, hcnt'.trans hcnt⟩
    · rw [List.foldlM_cons, hi, Option.bind_some, hmove]
      exact hloop
    · rw [List.flatMap_cons, hi, Option.getD_some]
      refine hperm'.trans ((hperm.append_left _).trans ?_)
      rw [← List.append_assoc]
      exact List.perm_append_comm.append_right _

theorem flatMap_range (l : List (List α)) :
    (List.range l.length).flatMap (fun i => l[i]?.getD []) = l.flatten := by
  have hmap : (List.range l.length).map (fun i => l[i]?.getD []) = l := by
    refine List.ext_getElem (by simp) fun i hi hi' => ?_
    simp [hi']
  rw [List.flatMap_def, hmap]

theorem Placed.rehash (hp : h.Placed hash) (alloc : Bool) :
    ∃ h', h.rehash hash alloc = some h' ∧ h'.Placed hash ∧ h'.elems.Perm h.elems ∧
      h'.elemCnt = h.elemCnt := by
  obtain ⟨cnt, hcnt, hpow, hfour⟩ := newBucketCnt_spec h.elemCnt
  have hsame : h.Placed hash ∧ h.elems.Perm h.elems ∧ h.elemCnt = h.elemCnt :=
    ⟨hp, List.Perm.refl _, rfl⟩
  simp only [Hash.rehash, hcnt, Option.bind_eq_bind, Option.bind_some]
  split
  · exact ⟨h, rfl, hsame⟩
  · split
    · exact ⟨h, rfl, hsame⟩
    · obtain ⟨h', hmove, hplaced, hperm, helem⟩ :=
        (placed_empty h.elemCnt hpow hfour).moveBuckets h (List.range h.bucketCnt)
          fun i hi => by rw [hp.length]; exact List.mem_range.mp hi
      refine ⟨h', hmove, hplaced, ?_, helem⟩
      rw [elems_empty, List.append_nil, ← hp.length, flatMap_range] at hperm
      exact hperm

/-! ## Keys -/

/-- Elements are equal to each other if they have the same key. -/
structure Keyed (hash : α → Nat) (less : α → α → Bool) (key : α → κ) : Prop where
  less : ∀ a b, (!less a b && !less b a) = true ↔ key a = key b
  hash : ∀ a b, key a = key b → hash a = hash b

/-- A table with at most one element of each key. -/
structure WF (hash : α → Nat) (key : α → κ) (h : Hash α) : Prop extends h.Placed hash where
  keys : (h.elems.map key).Nodup
  elemCnt : h.elemCnt = h.elems.length

theorem wf_hashInit : WF hash key hashInit where
  toPlaced := placed_empty 0 ⟨2, rfl⟩ (by decide)
  keys := List.nodup_nil
  elemCnt := rfl

theorem WF.nodup (hw : h.WF hash key) : h.elems.Nodup := List.Nodup.of_map key hw.keys

theorem WF.rehash (hw : h.WF hash key) (alloc : Bool) :
    ∃ h', h.rehash hash alloc = some h' ∧ h'.WF hash key ∧ h'.elems.Perm h.elems := by
  obtain ⟨h', hrehash, hplaced, hperm, hcnt⟩ := hw.toPlaced.rehash alloc
  refine ⟨h', hrehash, ⟨hplaced, ?_, ?_⟩, hperm⟩
  · exact (hperm.map key).nodup_iff.mpr hw.keys
  · rw [hcnt, hw.elemCnt, hperm.length_eq]

variable [DecidableEq κ]

/-- The element of a key. -/
def get (key : α → κ) (h : Hash α) (k : κ) : Option α := h.elems.find? (key · = k)

theorem WF.get_eq_some (hw : h.WF hash key) {k : κ} :
    h.get key k = some a ↔ a ∈ h.elems ∧ key a = k := by
  constructor
  · intro hget
    exact ⟨List.mem_of_find?_eq_some hget, by simpa using List.find?_some hget⟩
  · rintro ⟨ha, hk⟩
    cases hget : h.get key k with
    | none => simpa [hk] using List.find?_eq_none.mp hget a ha
    | some b =>
      have hb : b ∈ h.elems := List.mem_of_find?_eq_some hget
      have hbk : key b = k := by simpa using List.find?_some hget
      rw [List.inj_on_of_nodup_map hw.keys hb ha (hbk.trans hk.symm)]

theorem get_eq_none {k : κ} : h.get key k = none ↔ ∀ a ∈ h.elems, key a ≠ k := by
  simp [get]

/-- In a bucket, `find_elem` finds what the table has. -/
theorem Keyed.findElem (hk : Keyed hash less key) (hw : h.WF hash key) {bucket : List α}
    (hi : h.buckets[h.findBucket hash e]? = some bucket) :
    findElem less bucket e = h.get key (key e) := by
  have hfind : Hash.findElem less bucket e = bucket.find? (key · = key e) := by
    rw [Hash.findElem]
    congr 1
    funext a
    exact Bool.eq_iff_iff.mpr ((hk.less a e).trans decide_eq_true_iff.symm)
  rw [hfind]
  cases hget : h.get key (key e) with
  | none =>
    have hnone := get_eq_none.mp hget
    simpa using fun a ha => hnone a (mem_elems_of_getElem? hi ha)
  | some a =>
    obtain ⟨ha, hae⟩ := hw.get_eq_some.mp hget
    have hbucket : h.findBucket hash a = h.findBucket hash e := by
      rw [findBucket, findBucket, hk.hash a e hae]
    have hmem : a ∈ bucket := hw.mem_bucket ha (hbucket ▸ hi)
    cases hfound : bucket.find? (key · = key e) with
    | none => simpa [hae] using List.find?_eq_none.mp hfound a hmem
    | some b =>
      have hb : b ∈ h.elems := mem_elems_of_getElem? hi (List.mem_of_find?_eq_some hfound)
      have hbe : key b = key e := by simpa using List.find?_some hfound
      rw [List.inj_on_of_nodup_map hw.keys hb ha (hbe.trans hae.symm)]

/-! ## What the functions do -/

theorem WF.hashFind (hw : h.WF hash key) (hk : Keyed hash less key) (e : α) :
    h.hashFind hash less e = some (h.get key (key e)) := by
  obtain ⟨bucket, hi⟩ := hw.getElem? e
  rw [Hash.hashFind, hi, Option.map_some, hk.findElem hw hi]

/-- Nothing changes if there is an element of the key. -/
theorem WF.hashInsert_present (hw : h.WF hash key) (hk : Keyed hash less key) (alloc : Bool)
    (hget : h.get key (key e) = some a) :
    ∃ h', h.hashInsert hash less alloc e = some (some a, h') ∧ h'.WF hash key ∧
      h'.elems.Perm h.elems := by
  obtain ⟨bucket, hi⟩ := hw.getElem? e
  obtain ⟨h', hrehash, hw', hperm⟩ := hw.rehash alloc
  refine ⟨h', ?_, hw', hperm⟩
  simp only [Hash.hashInsert, hi, Option.bind_eq_bind, Option.bind_some, hk.findElem hw hi, hget,
    hrehash, Option.pure_def]

theorem WF.insertElem (hw : h.WF hash key) (hget : h.get key (key e) = none) :
    ∃ h', h.insertElem (h.findBucket hash e) e = some h' ∧ h'.WF hash key ∧
      h'.elems.Perm (e :: h.elems) := by
  have hplaced : Placed hash { h with elemCnt := h.elemCnt + 1 } :=
    ⟨hw.length, hw.isPowerOfTwo, hw.four_le, hw.bucket⟩
  obtain ⟨h', hpush, hplaced', hperm, hcnt⟩ := hplaced.pushFront e
  have hperm : h'.elems.Perm (e :: h.elems) := hperm
  refine ⟨h', hpush, ⟨hplaced', ?_, ?_⟩, hperm⟩
  · rw [(hperm.map key).nodup_iff, List.map_cons, List.nodup_cons]
    refine ⟨fun hmem => ?_, hw.keys⟩
    obtain ⟨a, ha, hae⟩ := List.mem_map.mp hmem
    exact get_eq_none.mp hget a ha hae
  · rw [hcnt, hperm.length_eq, List.length_cons, hw.elemCnt]

theorem WF.hashInsert_absent (hw : h.WF hash key) (hk : Keyed hash less key) (alloc : Bool)
    (hget : h.get key (key e) = none) :
    ∃ h', h.hashInsert hash less alloc e = some (none, h') ∧ h'.WF hash key ∧
      h'.elems.Perm (e :: h.elems) := by
  obtain ⟨bucket, hi⟩ := hw.getElem? e
  obtain ⟨h₁, hinsert, hw₁, hperm⟩ := hw.insertElem hget
  obtain ⟨h', hrehash, hw', hperm'⟩ := hw₁.rehash alloc
  refine ⟨h', ?_, hw', hperm'.trans hperm⟩
  simp only [Hash.hashInsert, hi, Option.bind_eq_bind, Option.bind_some, hk.findElem hw hi, hget,
    hinsert, hrehash, Option.pure_def]

variable [DecidableEq α]

theorem WF.removeElem (hw : h.WF hash key) (ha : a ∈ h.elems) :
    (h.removeElem a).WF hash key ∧ (h.removeElem a).elems = h.elems.filter (key · ≠ key a) := by
  have hbuckets : (h.removeElem a).buckets = h.buckets.map (·.filter (· != a)) := by
    refine List.map_congr_left fun bucket hb => List.Nodup.erase_eq_filter ?_ a
    exact (List.nodup_flatten.mp hw.nodup).1 bucket hb
  have helems : (h.removeElem a).elems = h.elems.filter (· != a) := by
    rw [elems, hbuckets, elems, List.filter_flatten]
  have hkey : h.elems.filter (· != a) = h.elems.filter (key · ≠ key a) := by
    refine List.filter_congr fun b hb => ?_
    have hinj : key b = key a ↔ b = a :=
      ⟨fun hba => List.inj_on_of_nodup_map hw.keys hb ha hba, congrArg key⟩
    exact Bool.eq_iff_iff.mpr (by simp [hinj])
  refine ⟨⟨⟨?_, hw.isPowerOfTwo, hw.four_le, fun i bucket hi e he => ?_⟩, ?_, ?_⟩,
    helems.trans hkey⟩
  · rw [hbuckets, List.length_map]
    exact hw.length
  · rw [hbuckets, List.getElem?_map] at hi
    obtain ⟨bucket', hi', rfl⟩ := Option.map_eq_some_iff.mp hi
    exact hw.bucket i bucket' hi' e (List.mem_of_mem_filter he)
  · rw [helems]
    exact hw.keys.sublist ((List.filter_sublist ..).map key)
  · rw [helems, ← hw.nodup.erase_eq_filter, List.length_erase_of_mem ha, ← hw.elemCnt]
    rfl

theorem WF.hashDelete (hw : h.WF hash key) (hk : Keyed hash less key) (alloc : Bool) (e : α) :
    ∃ h', h.hashDelete hash less alloc e = some (h.get key (key e), h') ∧ h'.WF hash key ∧
      h'.elems.Perm (h.elems.filter (key · ≠ key e)) := by
  cases hget : h.get key (key e) with
  | none =>
    refine ⟨h, ?_, hw, ?_⟩
    · simp only [Hash.hashDelete, hw.hashFind hk e, hget, Option.bind_eq_bind, Option.bind_some,
        Option.pure_def]
    · rw [List.filter_eq_self.mpr fun a ha => by simpa using get_eq_none.mp hget a ha]
  | some a =>
    obtain ⟨ha, hae⟩ := hw.get_eq_some.mp hget
    obtain ⟨hw₁, helems⟩ := hw.removeElem ha
    obtain ⟨h', hrehash, hw', hperm⟩ := hw₁.rehash alloc
    refine ⟨h', ?_, hw', ?_⟩
    · simp only [Hash.hashDelete, hw.hashFind hk e, hget, Option.bind_eq_bind, Option.bind_some,
        hrehash, Option.pure_def]
    · rw [helems, hae] at hperm
      exact hperm

end Hash

end Pintos.Lib
