import Pintos.Vm.PageTable

/-!
# The supplemental page table is a map

Whatever the hash function, and wherever `rehash` gets no memory, the hash table of a process does
what a map from pages to entries does.

## Main results

* `TableOp.step_spec` — the uses of the table, one by one.
* `page_table_map` — a run.
-/

namespace Pintos.Vm

open Pintos.Lib

variable {hash : UInt32 → UInt32} {table table' : Hash HashElem} {m : PageMap} {alloc : Bool}
  {a b : UInt32} {e : HashElem}

/-! ## Addresses -/

theorem pgOfs_toNat (a : UInt32) : (pgOfs a).toNat = a.toNat % 4096 :=
  (UInt32.toNat_and ..).trans (Nat.and_two_pow_sub_one_eq_mod a.toNat 12)

theorem pgOfs_eq_zero : pgOfs a = 0 ↔ a.toNat % 4096 = 0 := by
  rw [← pgOfs_toNat, ← UInt32.toNat_inj]
  rfl

theorem pgRoundDown_toNat (a : UInt32) : (pgRoundDown a).toNat = a.toNat / 4096 * 4096 := by
  rw [pgRoundDown, UInt32.toNat_and]
  refine Nat.eq_of_testBit_eq fun i => ?_
  have hmask : (~~~pgmask).toNat = (2 ^ 20 - 1) * 2 ^ 12 := by decide
  have hdiv : a.toNat / 4096 * 4096 = a.toNat / 2 ^ 12 * 2 ^ 12 := rfl
  rw [hmask, hdiv, Nat.testBit_and, Nat.testBit_mul_two_pow, Nat.testBit_mul_two_pow,
    Nat.testBit_two_pow_sub_one, Nat.testBit_div_two_pow]
  rcases Nat.lt_or_ge i 12 with hi | hi
  · simp [Nat.not_le.mpr hi]
  · rw [Nat.sub_add_cancel hi]
    rcases Nat.lt_or_ge i 32 with hi' | hi'
    · simp [hi, show i - 12 < 20 by omega]
    · have hbit : a.toNat.testBit i = false :=
        Nat.testBit_lt_two_pow
          (Nat.lt_of_lt_of_le a.toNat_lt (Nat.pow_le_pow_right (by decide) hi'))
      simp [hbit]

theorem pgOfs_pgRoundDown (a : UInt32) : pgOfs (pgRoundDown a) = 0 := by
  rw [pgOfs_eq_zero, pgRoundDown_toNat]
  omega

theorem pgNo_pgRoundDown (a : UInt32) : pgNo (pgRoundDown a) = pgNo a := by
  have hdiv : a.toNat / 4096 * 4096 / 4096 = a.toNat / 4096 := Nat.mul_div_cancel _ (by decide)
  rw [pgNo, pgRoundDown_toNat]
  exact hdiv

/-- The address of a page goes with its number. -/
theorem pgNo_inj (ha : pgOfs a = 0) (hb : pgOfs b = 0) (hab : pgNo a = pgNo b) : a = b := by
  rw [pgOfs_eq_zero] at ha hb
  have hdiv : a.toNat / 4096 = b.toNat / 4096 := hab
  exact UInt32.toNat_inj.mp (by omega)

theorem pgNo_lt (a : UInt32) : pgNo a < 2 ^ 20 := by
  have hlt := a.toNat_lt
  show a.toNat / 4096 < 2 ^ 20
  omega

/-! ## The hash table of the map -/

theorem keyed_page (hash : UInt32 → UInt32) : Hash.Keyed (pageHash hash) pageLess (·.addr) where
  less a b := by
    simp only [pageLess, Bool.and_eq_true, Bool.not_eq_true', decide_eq_false_iff_not,
      UInt32.not_lt]
    exact ⟨fun h => UInt32.le_antisymm h.2 h.1, fun h => by simp [h]⟩
  hash a b h := by rw [pageHash, h, pageHash]

/-- The entries in a hash table are those of a map. -/
structure Represents (hash : UInt32 → UInt32) (table : Hash HashElem) (m : PageMap) : Prop where
  wf : table.WF (pageHash hash) (·.addr)
  mem : ∀ e : HashElem, e ∈ table.elems ↔ pgOfs e.addr = 0 ∧ m.lookup (pgNo e.addr) = some e.spte

/-- The entry of a page. -/
theorem Represents.get (h : Represents hash table m) (ha : pgOfs a = 0) :
    table.get (·.addr) a = (m.lookup (pgNo a)).map (⟨·, a⟩) := by
  cases hl : m.lookup (pgNo a) with
  | none =>
    refine Hash.get_eq_none.mpr fun e he hea => ?_
    have hsome := ((h.mem e).mp he).2
    rw [hea, hl] at hsome
    cases hsome
  | some q => exact h.wf.get_eq_some.mpr ⟨(h.mem _).mpr ⟨ha, hl⟩, rfl⟩

theorem Represents.perm (h : Represents hash table m) (hw : table'.WF (pageHash hash) (·.addr))
    (hperm : table'.elems.Perm table.elems) : Represents hash table' m :=
  ⟨hw, fun e => hperm.mem_iff.trans (h.mem e)⟩

theorem represents_hashInit (hash : UInt32 → UInt32) : Represents hash Hash.hashInit ∅ where
  wf := Hash.wf_hashInit
  mem e := by simp [Hash.elems, Hash.hashInit]

/-! ## The uses of the table -/

theorem Represents.hashFind (h : Represents hash table m) (ha : a ≠ 0) :
    pageHashFind hash table a = some ((m.lookup (pgNo a)).map (⟨·, pgRoundDown a⟩)) := by
  rw [pageHashFind, if_neg ha, h.wf.hashFind (keyed_page hash), h.get (pgOfs_pgRoundDown a),
    pgNo_pgRoundDown]

theorem Represents.insert_present (h : Represents hash table m) (alloc : Bool)
    (he : pgOfs e.addr = 0) {old : SptePtr} (hl : m.lookup (pgNo e.addr) = some old) :
    ∃ table', table.hashInsert (pageHash hash) pageLess alloc e =
        some (some ⟨old, e.addr⟩, table') ∧
      Represents hash table' m := by
  obtain ⟨table', hinsert, hw, hperm⟩ := h.wf.hashInsert_present (keyed_page hash) alloc
    (e := e) ((h.get he).trans (by rw [hl]; rfl))
  exact ⟨table', hinsert, h.perm hw hperm⟩

theorem Represents.insert_absent (h : Represents hash table m) (alloc : Bool)
    (he : pgOfs e.addr = 0) (hl : m.lookup (pgNo e.addr) = none) :
    ∃ table', table.hashInsert (pageHash hash) pageLess alloc e = some (none, table') ∧
      Represents hash table' (m.insert (pgNo e.addr) e.spte) := by
  obtain ⟨table', hinsert, hw, hperm⟩ := h.wf.hashInsert_absent (keyed_page hash) alloc
    (e := e) ((h.get he).trans (by rw [hl]; rfl))
  refine ⟨table', hinsert, hw, fun b => ?_⟩
  rw [hperm.mem_iff, List.mem_cons, h.mem]
  by_cases hb : pgNo b.addr = pgNo e.addr
  · rw [hb, AList.lookup_insert, hl]
    constructor
    · rintro (rfl | ⟨-, hnone⟩)
      · exact ⟨he, rfl⟩
      · cases hnone
    · rintro ⟨hofs, hspte⟩
      have haddr := pgNo_inj hofs he hb
      cases b
      cases e
      cases Option.some.inj hspte
      cases haddr
      exact .inl rfl
  · rw [AList.lookup_insert_ne hb]
    refine or_iff_right fun hbe => hb ?_
    rw [hbe]

/-- An entry that is not there stays so. -/
theorem Represents.hashDelete (h : Represents hash table m) (alloc : Bool) (he : pgOfs e.addr = 0) :
    ∃ table', table.hashDelete (pageHash hash) pageLess alloc e =
        some ((m.lookup (pgNo e.addr)).map (⟨·, e.addr⟩), table') ∧
      Represents hash table' (m.erase (pgNo e.addr)) := by
  obtain ⟨table', hdelete, hw, hperm⟩ := h.wf.hashDelete (keyed_page hash) alloc e
  rw [h.get he] at hdelete
  refine ⟨table', hdelete, hw, fun b => ?_⟩
  rw [hperm.mem_iff, List.mem_filter, h.mem]
  by_cases hb : pgNo b.addr = pgNo e.addr
  · rw [hb, AList.lookup_erase]
    constructor
    · rintro ⟨⟨hofs, -⟩, hne⟩
      exact absurd (pgNo_inj hofs he hb) (by simpa using hne)
    · rintro ⟨-, hnone⟩
      cases hnone
  · rw [AList.lookup_erase_ne hb]
    refine and_iff_left ?_
    simpa using fun hbe : b.addr = e.addr => hb (by rw [hbe])

theorem Represents.insertNew (h : Represents hash table m) (alloc : Bool) (he : pgOfs e.addr = 0) :
    ∃ found table', table.hashInsert (pageHash hash) pageLess alloc e = some (found, table') ∧
      found.map (·.spte) = (m.insertNew (pgNo e.addr) e.spte).1 ∧
      Represents hash table' (m.insertNew (pgNo e.addr) e.spte).2 := by
  rw [PageMap.insertNew]
  cases hl : m.lookup (pgNo e.addr) with
  | none =>
    obtain ⟨table', hinsert, h'⟩ := h.insert_absent alloc he hl
    exact ⟨none, table', hinsert, rfl, h'⟩
  | some old =>
    obtain ⟨table', hinsert, h'⟩ := h.insert_present alloc he hl
    exact ⟨some ⟨old, e.addr⟩, table', hinsert, rfl, h'⟩

theorem TableOp.step_spec (h : Represents hash table m) (alloc : Bool) {op : TableOp}
    (hlegal : op.legal = true) :
    ∃ found table', op.step hash alloc table = some (found, table') ∧
      found.map (·.spte) = (op.specStep m).1 ∧ Represents hash table' (op.specStep m).2 := by
  cases op with
  | lazyLoad spte upage =>
    exact h.insertNew (e := ⟨spte, upage⟩) alloc (by simpa [legal] using hlegal)
  | stackGrow spte faultAddr =>
    have hne : faultAddr ≠ 0 := by simpa [legal] using hlegal
    rw [step, if_neg hne, specStep, ← pgNo_pgRoundDown]
    exact h.insertNew (e := ⟨spte, pgRoundDown faultAddr⟩) alloc (pgOfs_pgRoundDown faultAddr)
  | find upage =>
    have hne : upage ≠ 0 := by simpa [legal] using hlegal
    refine ⟨_, table, by rw [step, h.hashFind hne]; rfl, ?_, h⟩
    rw [specStep, Option.map_map]
    exact Option.map_id'
  | freeMmap upage =>
    have hne : upage ≠ 0 := by simpa [legal] using hlegal
    have hfind := h.hashFind hne
    cases hl : m.lookup (pgNo upage) with
    | none =>
      rw [hl] at hfind
      refine ⟨none, table, ?_, ?_, ?_⟩
      · rw [step, hfind]
        rfl
      · rw [specStep, hl]
        rfl
      · rw [specStep]
        refine ⟨h.wf, fun e => (h.mem e).trans (and_congr_right fun _ => ?_)⟩
        by_cases he : pgNo e.addr = pgNo upage
        · rw [he, hl, AList.lookup_erase]
        · rw [AList.lookup_erase_ne he]
    | some q =>
      rw [hl] at hfind
      obtain ⟨table', hdelete, h'⟩ := h.hashDelete (e := ⟨q, pgRoundDown upage⟩) alloc
        (pgOfs_pgRoundDown upage)
      rw [pgNo_pgRoundDown, hl] at hdelete
      rw [pgNo_pgRoundDown] at h'
      refine ⟨some ⟨q, pgRoundDown upage⟩, table', ?_, ?_, h'⟩
      · rw [step, hfind]
        exact hdelete
      · rw [specStep, hl]
        rfl

/-- A run does what the map does. -/
theorem TableOp.run_spec (h : Represents hash table m) (ops : List (TableOp × Bool))
    (hlegal : ∀ op ∈ ops, op.1.legal = true) :
    ∃ table', run hash ops table = some ((specRun ops m).1, table') ∧
      Represents hash table' (specRun ops m).2 := by
  induction ops generalizing table m with
  | nil => exact ⟨table, rfl, h⟩
  | cons op ops ih =>
    obtain ⟨op, alloc⟩ := op
    obtain ⟨found, table₁, hstep, hfound, h₁⟩ := step_spec h alloc (hlegal _ List.mem_cons_self)
    obtain ⟨table₂, hrun, h₂⟩ := ih h₁ fun op hop => hlegal op (List.mem_cons_of_mem _ hop)
    refine ⟨table₂, ?_, h₂⟩
    simp only [run, hstep, hrun, Option.bind_eq_bind, Option.bind_some, Option.pure_def, specRun,
      hfound]

/-! ## The states of the virtual memory -/

section State

variable {s : State} {p : Pid} {t : Thread}

/-- `State.lookup` is what `page_hash_find` gives. -/
theorem Represents.lookup (ht : s.thread p = some t) (h : Represents hash table t.supplPageTable)
    (ha : a ≠ 0) :
    pageHashFind hash table a = some ((s.lookup p (pgNo a)).map (⟨·, pgRoundDown a⟩)) := by
  rw [h.hashFind ha, State.lookup, ht, Option.bind_some]

/-- `State.hashInsert` is what `hash_insert` does for a page that has no entry. -/
theorem Represents.state_hashInsert (ht : s.thread p = some t)
    (h : Represents hash table t.supplPageTable) (alloc : Bool) (he : pgOfs e.addr = 0)
    (hl : s.lookup p (pgNo e.addr) = none) :
    ∃ table' t', table.hashInsert (pageHash hash) pageLess alloc e = some (none, table') ∧
      (s.hashInsert p (pgNo e.addr) e.spte).thread p = some t' ∧
      Represents hash table' t'.supplPageTable := by
  rw [State.lookup, ht, Option.bind_some] at hl
  obtain ⟨table', hinsert, h'⟩ := h.insert_absent alloc he hl
  refine ⟨table', { t with supplPageTable := t.supplPageTable.insert (pgNo e.addr) e.spte }, hinsert,
    ?_, h'⟩
  simp [State.hashInsert, State.setThread, ht]

/-- `State.hashDelete` is what `hash_delete` does. -/
theorem Represents.state_hashDelete (ht : s.thread p = some t)
    (h : Represents hash table t.supplPageTable) (alloc : Bool) (he : pgOfs e.addr = 0) :
    ∃ found table' t', table.hashDelete (pageHash hash) pageLess alloc e = some (found, table') ∧
      (s.hashDelete p (pgNo e.addr)).thread p = some t' ∧
      Represents hash table' t'.supplPageTable := by
  obtain ⟨table', hdelete, h'⟩ := h.hashDelete alloc he
  refine ⟨_, table', { t with supplPageTable := t.supplPageTable.erase (pgNo e.addr) }, hdelete, ?_,
    h'⟩
  simp [State.hashDelete, State.setThread, ht]

end State

/-! ## `rehash` -/

/-- The tables that `rehash` is called on: in `hash_insert` with or without a new entry, and in
`hash_delete`. -/
inductive Rehashed (hash : UInt32 → UInt32) (table : Hash HashElem) : Hash HashElem → Prop
  | present : Rehashed hash table table
  | absent (e : HashElem) (table' : Hash HashElem) :
      table.hashFind (pageHash hash) pageLess e = some none →
      table.insertElem (table.findBucket (pageHash hash) e) e = some table' →
      Rehashed hash table table'
  | deleted (e found : HashElem) :
      table.hashFind (pageHash hash) pageLess e = some (some found) →
      Rehashed hash table (table.removeElem found)

theorem Rehashed.wf (hw : table.WF (pageHash hash) (·.addr)) (h : Rehashed hash table table') :
    table'.WF (pageHash hash) (·.addr) := by
  cases h with
  | present => exact hw
  | absent e table' hfind hinsert =>
    rw [hw.hashFind (keyed_page hash)] at hfind
    obtain ⟨table₁, hinsert', hw', -⟩ := hw.insertElem (Option.some.inj hfind)
    rw [hinsert'] at hinsert
    exact Option.some.inj hinsert ▸ hw'
  | deleted e found hfind =>
    rw [hw.hashFind (keyed_page hash)] at hfind
    exact (hw.removeElem (hw.get_eq_some.mp (Option.some.inj hfind)).1).1

/-- What `rehash` sees to. -/
structure Rebuilt (table table' : Hash HashElem) : Prop where
  /-- Each entry is there once, as it was before. -/
  perm : table'.elems.Perm table.elems
  nodup : table'.elems.Nodup
  elemCnt : table'.elemCnt = table'.elems.length
  isPowerOfTwo : table'.bucketCnt.isPowerOfTwo
  four_le : 4 ≤ table'.bucketCnt

/-- A hash table is a map from pages to entries. -/
structure IsMap (hash : UInt32 → UInt32) (table : Hash HashElem) (m : PageMap) : Prop where
  find : ∀ upage, upage ≠ 0 →
    ∃ found, pageHashFind hash table upage = some found ∧ found.map (·.spte) = m.lookup (pgNo upage)
  insert_present : ∀ (alloc : Bool) (e : HashElem) (old : SptePtr), pgOfs e.addr = 0 →
    m.lookup (pgNo e.addr) = some old →
    ∃ table', table.hashInsert (pageHash hash) pageLess alloc e =
        some (some ⟨old, e.addr⟩, table') ∧
      ∀ upage, pageHashFind hash table' upage = pageHashFind hash table upage
  rehash : ∀ (alloc : Bool) (table₁ : Hash HashElem), Rehashed hash table table₁ →
    ∃ table', table₁.rehash (pageHash hash) alloc = some table' ∧ Rebuilt table₁ table'
  elemCnt : table.elemCnt = table.elems.length
  /-- No count of entries or size of an array overflows. -/
  elemCnt_le : table.elemCnt ≤ 2 ^ 20

/-- There are no more entries than pages. -/
theorem Represents.length_le (h : Represents hash table m) : table.elems.length ≤ 2 ^ 20 := by
  have hinj : (table.elems.map fun e => pgNo e.addr).Nodup := by
    refine List.Nodup.map_on (fun a ha b hb hab => ?_) h.wf.nodup
    have haddr := pgNo_inj ((h.mem a).mp ha).1 ((h.mem b).mp hb).1 hab
    exact List.inj_on_of_nodup_map h.wf.keys ha hb haddr
  have hsub : (table.elems.map fun e => pgNo e.addr) ⊆ List.range (2 ^ 20) := by
    intro u hu
    obtain ⟨e, -, rfl⟩ := List.mem_map.mp hu
    exact List.mem_range.mpr (pgNo_lt e.addr)
  calc table.elems.length = (table.elems.map fun e => pgNo e.addr).length := by rw [List.length_map]
    _ ≤ (List.range (2 ^ 20)).length := (List.subperm_of_subset hinj hsub).length_le
    _ = 2 ^ 20 := List.length_range

theorem Represents.isMap (h : Represents hash table m) : IsMap hash table m where
  find upage hne := by
    refine ⟨_, h.hashFind hne, ?_⟩
    rw [Option.map_map]
    exact Option.map_id'
  insert_present alloc e old he hl := by
    obtain ⟨table', hinsert, h'⟩ := h.insert_present alloc he hl
    refine ⟨table', hinsert, fun upage => ?_⟩
    by_cases hu : upage = 0
    · rw [pageHashFind, if_pos hu, pageHashFind, if_pos hu]
    · rw [h'.hashFind hu, h.hashFind hu]
  rehash alloc table₁ hr := by
    obtain ⟨table', hrehash, hw, hperm⟩ := (hr.wf h.wf).rehash alloc
    exact ⟨table', hrehash, hperm, hw.nodup, hw.elemCnt, hw.isPowerOfTwo, hw.four_le⟩
  elemCnt := h.wf.elemCnt
  elemCnt_le := by
    rw [h.wf.elemCnt]
    exact h.length_le

/-- Whatever is done with the supplemental page table, it is a map from pages to entries. -/
theorem page_table_map (hash : UInt32 → UInt32) (ops : List (TableOp × Bool))
    (hlegal : ∀ op ∈ ops, op.1.legal = true) :
    ∃ table, TableOp.run hash ops Hash.hashInit = some ((TableOp.specRun ops ∅).1, table) ∧
      IsMap hash table (TableOp.specRun ops ∅).2 := by
  obtain ⟨table, hrun, h⟩ := TableOp.run_spec (represents_hashInit hash) ops hlegal
  exact ⟨table, hrun, h.isMap⟩

/-- A page of a file, which is there already the second time, and the stack. -/
theorem page_table_map_stack : ∃ table,
    TableOp.run hashAddr [(.lazyLoad 1 0x8048000, true), (.lazyLoad 2 0x8048000, true),
      (.stackGrow 3 0xbffffff0, false), (.find 0xbfffffff, true), (.freeMmap 0x8048000, true)]
      Hash.hashInit = some ([none, some 1, none, some 3, some 1], table) ∧
      IsMap hashAddr table (TableOp.specRun [(.lazyLoad 1 0x8048000, true),
        (.lazyLoad 2 0x8048000, true), (.stackGrow 3 0xbffffff0, false), (.find 0xbfffffff, true),
        (.freeMmap 0x8048000, true)] ∅).2 :=
  page_table_map hashAddr _ (by decide)

end Pintos.Vm
