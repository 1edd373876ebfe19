import Pintos.Properties.Allocation

/-!
# A full disk

What `inode_reserve` writes when the free map runs out of sectors. `inode_reserve_direct` tests
whether `free_map_allocate` succeeds, `inode_reserve_indirect` does not: an index block that is not
handed out is taken to be sector 0, which is the header of the free map's file.
-/

namespace Pintos.Filesys

open Pintos.Logic Pintos.Logic.Exec Pintos.Lib

attribute [local irreducible] Exec.wp

variable {s s' : Fs} {disk : Block} {length : Int}

/-- The sectors that the free map has handed to an inode: its index blocks and its data. -/
abbrev OfInode (s : Fs) (disk : Block) (k : Nat) : Prop := Points IsSlot (ptr s.view disk) k

/-- What a call of `inode_reserve` writes or takes for an index block has been handed to the inode,
in this call or before it. No entry of value 0 is taken for an index block, and no sector in use
that is not of the inode is written. -/
structure WritesOwn (s : Fs) (disk : Block) (l : List Access) : Prop where
  proper : Proper (OfInode s disk) l
  nonzero : .entered 0 ∉ l
  others : ∀ k, s.used k → ¬ OfInode s disk k → .wrote k ∉ l

/-- A call of `inode_reserve`, with its accesses to sectors. -/
def Runs (s : Fs) (disk : Block) (length : Int) (l : List Access) : Prop :=
  ∃ r s', Logged.inodeReserve disk length (s, []) = .ok (r, s', l)

/-- The slots that a call of `inode_reserve` finds empty, in the order in which it comes to them. -/
def empties (s : Fs) (disk : Block) (length : Int) : List Slot :=
  if length < 0 then [] else missing (ptr s.view disk) (reservedSlots (bytesToSectors length))

/-- The first empty slot for which no sector is left is for an index block. -/
def EndsAtIndex (s : Fs) (disk : Block) (length : Int) : Prop :=
  ∃ x, (empties s disk length)[s.free.card]? = some x ∧ ¬ IsLeaf x

/-- The sectors handed out were free. -/
theorem Granted.writesOwn {w : List Slot} {f' : Slot → Nat} {ok : Bool} {l : List Access}
    (h : Granted IsSlot IsLeaf w (ptr s.view disk) f' ok s s' l) (hs : FreeMapOk s) :
    WritesOwn s disk l where
  proper := h.proper
  nonzero hmem := by
    rcases h.proper.touches hmem rfl with ⟨h0, -⟩ | hk
    · exact h0 rfl
    · exact h.adds.fresh 0 hk hs.header
  others k hu hk hmem := by
    rcases h.proper.touches hmem rfl with h0 | hk'
    · exact hk h0
    · exact h.adds.fresh k hk' hu

/-- A call for a negative length touches nothing. -/
theorem runs_negative (h0 : length < 0) {l : List Access} (h : Runs s disk length l) : l = [] := by
  obtain ⟨r, s', h⟩ := h
  unfold Logged.inodeReserve at h
  rw [if_pos h0] at h
  have h' := congrArg (fun x => x.map fun y => y.2.2) h
  exact (Except.ok.inj h').symm

theorem writesOwn_nil (s : Fs) (disk : Block) : WritesOwn s disk [] :=
  ⟨trivial, List.not_mem_nil, fun _ _ _ => List.not_mem_nil⟩

/-- The outcome of a call, seen from its log. -/
theorem Runs.outcome (h0 : 0 ≤ length) (hs : FreeMapOk s)
    (ho : Owned IsSlot s.Taken (ptr s.view disk))
    {l : List Access} (h : Runs s disk length l) :
    ∃ f' same ok s', Outcome IsSlot IsLeaf (reservedSlots (bytesToSectors length)) (ptr s.view disk)
      f' same ok s [] s' l := by
  obtain ⟨r, s', h⟩ := h
  obtain ⟨ok, -, hout⟩ := wp_ok (inodeReserve_outcome h0 hs ho) h
  exact ⟨_, _, ok, s', hout⟩

/-- As long as no entry of value 0 is taken for an index block, only the inode's sectors are. -/
theorem runs_writesOwn_iff (hs : FreeMapOk s) (ho : Owned IsSlot s.Taken (ptr s.view disk))
    {l : List Access} (h : Runs s disk length l) : WritesOwn s disk l ↔ .entered 0 ∉ l := by
  refine ⟨WritesOwn.nonzero, fun hnot => ?_⟩
  rcases Int.lt_or_le length 0 with h0 | h0
  · rw [runs_negative h0 h]
    exact writesOwn_nil s disk
  · obtain ⟨f', same, ok, s', new, hnew, ⟨hg, -⟩ | hr⟩ := h.outcome h0 hs ho
    · rw [List.append_nil] at hnew
      exact hnew ▸ hg.writesOwn hs
    · rw [List.append_nil] at hnew
      exact absurd (hnew ▸ hr.entered) hnot

/-- With enough memory an index block is refused exactly if the sectors end there. -/
theorem runs_entered_iff (hs : FreeMapOk s) (ho : Owned IsSlot s.Taken (ptr s.view disk))
    (hm : s.env.MemOk) {l : List Access} (h : Runs s disk length l) :
    .entered 0 ∈ l ↔ EndsAtIndex s disk length := by
  unfold EndsAtIndex empties
  rcases Int.lt_or_le length 0 with h0 | h0
  · rw [runs_negative h0 h, if_pos h0]
    simp
  rw [if_neg (Int.not_lt.mpr h0)]
  obtain ⟨f', same, ok, s', new, hnew, ⟨hg, -⟩ | hr⟩ := h.outcome h0 hs ho
  · rw [List.append_nil] at hnew
    subst hnew
    refine iff_of_false (hg.writesOwn hs).nonzero ?_
    rintro ⟨x, hx, hleaf⟩
    cases ok with
    | true =>
      -- there was a sector for each of the slots
      have hcount := hg.count rfl
      have hcard := hg.adds.card_free
      obtain ⟨hlt, -⟩ := List.getElem?_eq_some_iff.mp hx
      omega
    | false =>
      obtain ⟨-, y, hy, hleaf'⟩ := hg.stopped rfl hm
      rw [hx] at hy
      cases hy
      exact hleaf hleaf'
  · rw [List.append_nil] at hnew
    subst hnew
    exact iff_of_true hr.entered (hr.exhausted hm).2.1.stopped

/-- With enough memory the call returns. -/
theorem exists_runs (hs : FreeMapOk s) (ho : Owned IsSlot s.Taken (ptr s.view disk))
    (hm : s.env.MemOk) (length : Int) : ∃ l, Runs s disk length l := by
  rcases Int.lt_or_le length 0 with h0 | h0
  · refine ⟨[], (false, disk), s, ?_⟩
    unfold Logged.inodeReserve
    rw [if_pos h0]
    rfl
  · have hwp : (Logged.inodeReserve disk length).wp _ _ (s, []) := inodeReserve_outcome h0 hs ho
    obtain ⟨r, t, h, -⟩ := wp_returns (wp_mono hwp (fun _ h => h.1 hm) fun _ _ h => h)
    exact ⟨t.2, r, t.1, h⟩

/-- Every call of `inode_reserve` from the state `s` writes only what is the inode's. -/
def AlwaysWritesOwn (s : Fs) (disk : Block) (length : Int) : Prop :=
  ∀ l, Runs s disk length l → WritesOwn s disk l

theorem alwaysWritesOwn_iff (hs : FreeMapOk s) (ho : Owned IsSlot s.Taken (ptr s.view disk))
    (hm : s.env.MemOk) : AlwaysWritesOwn s disk length ↔ ¬ EndsAtIndex s disk length := by
  obtain ⟨l, h⟩ := exists_runs hs ho hm length
  constructor
  · intro hall hends
    exact (hall l h).nonzero ((runs_entered_iff hs ho hm h).mpr hends)
  · intro hends l h
    exact (runs_writesOwn_iff hs ho h).mpr fun hmem => hends ((runs_entered_iff hs ho hm h).mp hmem)

/-- **`inode_reserve` writes only sectors of its inode, exactly if the free map does not run out at
an index block.** Whatever the memory, it does as long as it takes no entry of value 0 for one. -/
theorem reserve_writes_own (hs : FreeMapOk s) (ho : Owned IsSlot s.Taken (ptr s.view disk))
    (length : Int) :
    (s.env.MemOk → (AlwaysWritesOwn s disk length ↔ ¬ EndsAtIndex s disk length)) ∧
      ∀ l, Runs s disk length l → (WritesOwn s disk l ↔ .entered 0 ∉ l) :=
  ⟨fun hm => alwaysWritesOwn_iff hs ho hm, fun _ h => runs_writesOwn_iff hs ho h⟩

/-! ## New files -/

theorem Unreserved.ptr_eq (h : Unreserved disk) (v : Nat → Block) {x : Slot} (hx : x.1 < 125) :
    ptr v disk x = 0 := by
  rw [ptr, h x.1 hx, node_zero]

theorem Unreserved.owned (h : Unreserved disk) (ok : Nat → Prop) (v : Nat → Block) :
    Owned IsSlot ok (ptr v disk) :=
  ⟨fun _ hx hne => absurd (h.ptr_eq v hx.1) hne, fun _ _ hx _ hne => absurd (h.ptr_eq v hx.1) hne⟩

theorem unreserved_zeros : Unreserved Bytes.zeros := fun _ _ => Bytes.word_zeros _

/-- All slots of a new file are empty. -/
theorem empties_zeros (s : Fs) (h0 : 0 ≤ length) :
    empties s Bytes.zeros length = reservedSlots (bytesToSectors length) := by
  rw [empties, if_neg (Int.not_lt.mpr h0), missing, List.filter_eq_self]
  intro x _
  rw [ptr, Bytes.word_zeros, node_zero]
  rfl

/-- A file of 1000 bytes on a device of 16 sectors. -/
theorem reserve_writes_own_two : AlwaysWritesOwn (smallFs 16) Bytes.zeros 1000 := by
  have horder := smallFs_freeMap 16 (by decide) (by decide)
  refine ((reserve_writes_own horder (unreserved_zeros.owned _ _) 1000).1 fun _ => rfl).mpr ?_
  rintro ⟨x, hx, -⟩
  rw [empties_zeros _ (by decide), bytesToSectors_eq (by decide) (by decide),
    smallFs_free (by decide)] at hx
  have hnone : (reservedSlots ((1000 + 511) / 512 : Int).toNat)[16 - 3]? = none := by decide
  cases hnone.symm.trans hx

/-- A file of 124 sectors on a device with 123 free sectors. -/
theorem reserve_overwrites_free_map : ¬ ∀ s disk length, FreeMapOk s →
    Owned IsSlot s.Taken (ptr s.view disk) → AlwaysWritesOwn s disk length := by
  intro hall
  have horder := smallFs_freeMap 126 (by decide) (by decide)
  have howned := unreserved_zeros.owned (smallFs 126).Taken (smallFs 126).view
  refine (alwaysWritesOwn_iff horder howned fun _ => rfl).mp
    (hall _ _ (124 * 512) horder howned) ⟨(123, []), ?_, ?_⟩
  · rw [empties_zeros _ (by decide), bytesToSectors_eq (by decide) (by decide),
      smallFs_free (by decide)]
    decide +kernel
  · have hlength : ([] : List Nat).length ≠ depth 123 := by decide
    exact hlength

end Pintos.Filesys
