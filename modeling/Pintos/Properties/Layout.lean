import Pintos.Properties.Frames
import Pintos.Logic.IndexTree

/-!
# How a file lies on the device

An inode header is a forest: 123 pointers to data, one to an index block, one to an index
block of index blocks. A `slot` names a pointer of the forest by its root and its path.

* `ptr` — the pointer in a slot, `slotOf` — the one that leads to the `idx`-th sector of data.
* `byteAt` — the byte of a file at a position, `0` where no sector is allocated.
* `inodeReadAt_spec` and `writeLoop_spec` — reads and writes inside a file, in these terms.
-/

namespace Pintos.Filesys

open Pintos.Logic Pintos.Logic.Exec Pintos.Lib

-- `wp` is used through its rules: unfolding a program would unfold its arithmetic too
attribute [local irreducible] Exec.wp

/-! ## Slots -/

/-- The pointer at index `i` of the index block in sector `k`. -/
def kids (v : Nat → Block) (k i : Nat) : Nat := (v k).word i

/-- The number of levels of index blocks under each pointer of a header. -/
def depth (root : Nat) : Nat := if root < 123 then 0 else root - 122

theorem depth_indirect : depth 123 = 1 := by decide

theorem depth_doublyIndirect : depth 124 = 2 := by decide

theorem depth_direct {root : Nat} (h : root < 123) : depth root = 0 := by simp [depth, h]

/-- A pointer of a header, and a path from there. -/
abbrev Slot : Type := Nat × List Nat

/-- The slots of a header. -/
def IsSlot (x : Slot) : Prop := x.1 < 125 ∧ IsPath 128 (depth x.1) x.2

/-- The slots that lead to data. -/
def IsLeaf (x : Slot) : Prop := x.2.length = depth x.1

/-- The pointer in a slot. -/
def ptr (v : Nat → Block) (disk : Block) (x : Slot) : Nat := node (kids v) (disk.word x.1) x.2

/-- The slot of the `idx`-th sector of data. -/
def leafSlot (idx : Nat) : Slot :=
  if idx < 123 then (idx, [])
  else if idx < 251 then (123, digits 128 1 (idx - 123))
  else (124, digits 128 2 (idx - 251))

theorem isSlot_leafSlot {idx : Nat} (h : idx < 16635) : IsSlot (leafSlot idx) := by
  unfold leafSlot
  split
  · exact ⟨by simp only; omega, isPath_nil⟩
  · split
    · refine ⟨by simp, ?_⟩
      rw [depth_indirect]
      exact isPath_digits (by omega)
    · refine ⟨by simp, ?_⟩
      rw [depth_doublyIndirect]
      exact isPath_digits (by omega)

theorem isLeaf_leafSlot (idx : Nat) : IsLeaf (leafSlot idx) := by
  unfold leafSlot IsLeaf
  split
  · next h => simp [depth_direct h]
  · split
    · rw [depth_indirect, length_digits]
    · rw [depth_doublyIndirect, length_digits]

theorem leafSlot_inj {idx idx' : Nat} (h : idx < 16635) (h' : idx' < 16635)
    (he : leafSlot idx = leafSlot idx') : idx = idx' := by
  unfold leafSlot at he
  split at he
  · split at he
    · exact congrArg Prod.fst he
    · split at he
      · have := congrArg Prod.fst he
        simp only at this
        omega
      · have := congrArg Prod.fst he
        simp only at this
        omega
  · split at he
    · split at he
      · have := congrArg Prod.fst he
        simp only at this
        omega
      · split at he
        · have := digits_inj (by omega) (by omega) (congrArg Prod.snd he)
          omega
        · cases congrArg Prod.fst he
    · split at he
      · have := congrArg Prod.fst he
        simp only at this
        omega
      · split at he
        · cases congrArg Prod.fst he
        · have := digits_inj (by omega) (by omega) (congrArg Prod.snd he)
          omega

/-- The pointer to the `idx`-th sector of data. -/
def slotOf (v : Nat → Block) (disk : Block) (idx : Nat) : Nat :=
  if idx < 16635 then ptr v disk (leafSlot idx) else 0

/-- The byte of a file at position `q`. -/
def byteAt (v : Nat → Block) (disk : Block) (q : Nat) : UInt8 :=
  if slotOf v disk (q / 512) = 0 then 0 else (v (slotOf v disk (q / 512))).byte (q % 512)

/-- The pointers of a header depend on its words and on its index blocks. -/
theorem ptr_congr {v v' : Nat → Block} {disk disk' : Block} (hd : ∀ r < 125, disk'.word r = disk.word r)
    (h : ∀ x, IsSlot x → ¬ IsLeaf x → ptr v disk x ≠ 0 →
      ∀ i < 128, (v' (ptr v disk x)).word i = (v (ptr v disk x)).word i) {x : Slot} (hx : IsSlot x) :
    ptr v' disk' x = ptr v disk x := by
  unfold ptr
  rw [hd x.1 hx.1]
  refine node_congr hx.2 fun q hq hlt hne => h (x.1, q) ⟨hx.1, hq⟩ ?_ hne
  exact Nat.ne_of_lt hlt

theorem slotOf_congr {v v' : Nat → Block} {disk disk' : Block}
    (h : ∀ x, IsSlot x → ptr v' disk' x = ptr v disk x) (idx : Nat) :
    slotOf v' disk' idx = slotOf v disk idx := by
  unfold slotOf
  split
  · next hidx => exact h _ (isSlot_leafSlot hidx)
  · rfl

/-- A header whose pointers lie on the device without sharing, and reach its length. -/
structure Mapped (size : Nat) (v : Nat → Block) (disk : Block) : Prop where
  owned : Owned IsSlot (· < size) (ptr v disk)
  length_nonneg : 0 ≤ diskLength disk
  length_le : diskLength disk ≤ 8517120
  covered : ∀ idx : Nat, ((idx * 512 : Nat) : Int) < diskLength disk → slotOf v disk idx ≠ 0

theorem slotOf_lt_size {size : Nat} {v : Nat → Block} {disk : Block}
    (h : Owned IsSlot (· < size) (ptr v disk)) {idx : Nat} (hne : slotOf v disk idx ≠ 0) :
    slotOf v disk idx < size := by
  unfold slotOf at hne ⊢
  split at hne
  · next hidx =>
    rw [if_pos hidx]
    exact h.ok _ (isSlot_leafSlot hidx) hne
  · exact absurd rfl hne

theorem slotOf_inj {ok : Nat → Prop} {v : Nat → Block} {disk : Block}
    (h : Owned IsSlot ok (ptr v disk)) {idx idx' : Nat} (hne : slotOf v disk idx ≠ 0)
    (he : slotOf v disk idx = slotOf v disk idx') : idx = idx' := by
  have hlt : ∀ j, slotOf v disk j ≠ 0 → j < 16635 := by
    intro j hj
    by_contra hge
    rw [slotOf, if_neg hge] at hj
    exact hj rfl
  have h1 := hlt idx hne
  have h2 := hlt idx' (he ▸ hne)
  unfold slotOf at he hne
  rw [if_pos h1] at he hne
  rw [if_pos h2] at he
  exact leafSlot_inj h1 h2 (h.inj _ _ (isSlot_leafSlot h1) (isSlot_leafSlot h2) hne he)

/-- A sector of data is not an index block. -/
theorem slotOf_ne_inner {ok : Nat → Prop} {v : Nat → Block} {disk : Block}
    (h : Owned IsSlot ok (ptr v disk)) {idx : Nat} {x : Slot} (hx : IsSlot x) (hleaf : ¬ IsLeaf x)
    (hne : ptr v disk x ≠ 0) : slotOf v disk idx ≠ ptr v disk x := by
  unfold slotOf
  split
  · next hidx =>
    intro he
    have := h.inj _ _ (isSlot_leafSlot hidx) hx (he ▸ hne) he
    exact hleaf (this ▸ isLeaf_leafSlot idx)
  · exact fun he => hne he.symm

/-! ## Elementary steps -/

/-- Memory never runs out. -/
def Env.MemOk (env : Env) : Prop := ∀ n, env.mallocs n = true

/-- The code dereferences the result of a failed allocation. -/
def OutOfMemory (env : Env) (e : Stop) : Prop := e.fault = .nullDeref ∧ ¬ env.MemOk

/-- Only sectors have changed. -/
structure Stored (s s' : Fs) : Prop where
  rest : s' = { s with store := s'.store, clock := s'.clock }
  size : s'.size = s.size

/-- Nothing has changed that can be seen. -/
structure Looks (s s' : Fs) : Prop extends Stored s s' where
  view : s'.view = s.view

section

variable {s s' s'' : Fs}

theorem Stored.env (h : Stored s s') : s'.env = s.env := by rw [h.rest]
theorem Stored.freeMap (h : Stored s s') : s'.freeMap = s.freeMap := by rw [h.rest]
theorem Stored.history (h : Stored s s') : s'.history = s.history := by rw [h.rest]
theorem Stored.freeMapFile (h : Stored s s') : s'.freeMapFile = s.freeMapFile := by
  rw [h.rest]
theorem Stored.openInodes (h : Stored s s') : s'.openInodes = s.openInodes := by
  rw [h.rest]
theorem Stored.inode? (h : Stored s s') (a : Addr) : s'.inode? a = s.inode? a := by
  rw [Fs.inode?, h.openInodes, Fs.inode?]

theorem Stored.nextAddr (h : Stored s s') : s'.nextAddr = s.nextAddr := by
  rw [h.rest]

theorem Stored.refl (s : Fs) : Stored s s := ⟨rfl, rfl⟩

theorem Stored.trans (h : Stored s s') (h' : Stored s' s'') : Stored s s'' := by
  refine ⟨h'.rest.trans ?_, h'.size.trans h.size⟩
  rw [h.rest]

theorem Looks.refl (s : Fs) : Looks s s := ⟨Stored.refl s, rfl⟩

theorem Looks.trans (h : Looks s s') (h' : Looks s' s'') : Looks s s'' :=
  ⟨h.toStored.trans h'.toStored, h'.view.trans h.view⟩

theorem stored_step {st : Store} {clock : Clock} (h : st.size = s.store.size) :
    Stored s { s with store := st, clock } := ⟨rfl, h⟩

end

/-- Code that only reads changes nothing that can be seen. -/
theorem looks_reading : Reading Looks (fun _ _ => True) where
  refl := Looks.refl
  trans := Looks.trans
  fault _ h := h
  stop _ _ _ := trivial
  look _ _ _ h hv := ⟨stored_step h, hv⟩

section

variable {s : Fs} {E : Stop → Prop}

theorem wp_readSector {k : Nat} {Q : Block → Fs → Prop} (h : k < s.size)
    (hQ : ∀ s', Looks s s' → Q (s.view k) s') : (readSector k).wp E Q s := by
  obtain ⟨st, hr, hv, hs⟩ := s.store.read_of_lt h (s.env.ticks s.clock.steps)
  unfold wp readSector
  rw [hr]
  exact hQ _ ⟨stored_step hs, hv⟩

theorem wp_writeSector {k : Nat} {b : Block} {Q : Unit → Fs → Prop} (h : k < s.size)
    (hQ : ∀ s', Stored s s' → s'.view = Function.update s.view k b → Q () s') :
    (writeSector k b).wp E Q s := by
  obtain ⟨st, hw, hv, hs⟩ := s.store.write_of_lt h b (s.env.ticks s.clock.steps)
  unfold wp writeSector
  rw [hw]
  exact hQ _ (stored_step hs) hv

theorem wp_malloc {Q : Bool → Fs → Prop}
    (hQ : ∀ r s', Looks s s' → (s.env.MemOk → r = true) → Q r s') : malloc.wp E Q s := by
  unfold wp malloc
  exact hQ _ _ ⟨stored_step rfl, rfl⟩ fun h => h _

theorem wp_fail {α : Type} {fault : Fault} {Q : α → Fs → Prop} :
    (fail fault : Kernel α).wp E Q s ↔ E ⟨fault, s.history⟩ := by
  unfold wp fail
  rfl

theorem wp_mallocUnchecked {Q : Unit → Fs → Prop} (hE : ∀ e, OutOfMemory s.env e → E e)
    (hQ : ∀ s', Looks s s' → Q () s') : mallocUnchecked.wp E Q s := by
  unfold mallocUnchecked
  rw [wp_bind]
  refine wp_malloc fun r s' h hm => ?_
  cases r with
  | true => exact (wp_pure ()).mpr (hQ _ h)
  | false => exact wp_fail.mpr (hE _ ⟨rfl, fun hok => by cases hm hok⟩)

theorem wp_deref {a : Addr} {i : Inode} {Q : Inode → Fs → Prop} (h : s.inode? a = some i)
    (hQ : Q i s) : (deref a).wp E Q s := by
  unfold wp deref
  rw [h]
  exact hQ

/-! ## Looking up sectors -/

theorem indexToSector_spec {disk : Block} {idx : Nat}
    (hsize : Owned IsSlot (· < s.size) (ptr s.view disk)) (hne : slotOf s.view disk idx ≠ 0) :
    (indexToSector disk idx).wp (OutOfMemory s.env)
      (fun k s' => k = slotOf s.view disk idx ∧ Looks s s') s := by
  have hidx : idx < 16635 := by
    by_contra hge
    exact hne (if_neg hge)
  rw [slotOf, if_pos hidx] at *
  rcases Nat.lt_or_ge idx 123 with h1 | h1
  · rw [indexToSector, if_pos h1, wp_pure, leafSlot, if_pos h1]
    exact ⟨rfl, Looks.refl s⟩
  rcases Nat.lt_or_ge idx 251 with h2 | h2
  · -- one index block
    rw [leafSlot, if_neg (Nat.not_lt.mpr h1), if_pos h2] at hne ⊢
    unfold indexToSector
    dsimp only
    rw [if_neg (Nat.not_lt.mpr h1), if_pos (by simp only [directBlocksCount, indirectBlocksPerSector]; omega)]
    have hroot : disk.word 123 ≠ 0 := ne_zero_of_node hne
    have hblk : ptr s.view disk (123, []) < s.size :=
      hsize.ok (123, []) ⟨by simp, isPath_nil⟩ hroot
    rw [wp_bind]
    refine wp_mallocUnchecked (fun _ h => h) fun s₁ h₁ => ?_
    rw [wp_bind]
    refine wp_readSector (by rw [h₁.size]; exact hblk) fun s₂ h₂ => ?_
    rw [wp_pure, h₁.view]
    refine ⟨?_, h₁.trans h₂⟩
    simp [ptr, digits, node_cons hroot, kids]
  · -- two index blocks
    rw [leafSlot, if_neg (Nat.not_lt.mpr h1), if_neg (Nat.not_lt.mpr h2)] at hne ⊢
    unfold indexToSector
    dsimp only
    rw [if_neg (Nat.not_lt.mpr h1), if_neg (by simp only [directBlocksCount, indirectBlocksPerSector]; omega),
      if_pos (by simp only [directBlocksCount, indirectBlocksPerSector]; omega)]
    have hroot : disk.word 124 ≠ 0 := ne_zero_of_node hne
    have hinner : ptr s.view disk (124, [(idx - 251) / 128]) ≠ 0 := by
      simp only [ptr, digits, node_cons hroot] at hne ⊢
      exact ne_zero_of_node hne
    have hblk : ptr s.view disk (124, []) < s.size :=
      hsize.ok (124, []) ⟨by simp, isPath_nil⟩ hroot
    have hblk' : ptr s.view disk (124, [(idx - 251) / 128]) < s.size := by
      refine hsize.ok _ ⟨by simp, ?_⟩ hinner
      rw [depth_doublyIndirect]
      exact ⟨by simp, by simp; omega⟩
    have heq : ∀ j, ptr s.view disk (124, [j]) = (s.view (disk.word 124)).word j := by
      intro j
      simp [ptr, node_cons hroot, kids]
    rw [heq] at hblk' hinner
    rw [wp_bind]
    refine wp_mallocUnchecked (fun _ h => h) fun s₁ h₁ => ?_
    rw [wp_bind]
    refine wp_readSector (by rw [h₁.size]; exact hblk) fun s₂ h₂ => ?_
    rw [wp_bind]
    have h12 := h₁.trans h₂
    have hsub : idx - directBlocksCount - indirectBlocksPerSector = idx - 251 := by
      simp only [directBlocksCount, indirectBlocksPerSector]
      omega
    rw [hsub, h₁.view]
    refine wp_readSector (by rw [h12.size]; exact hblk') fun s₃ h₃ => ?_
    rw [wp_pure, h12.view]
    refine ⟨?_, h12.trans h₃⟩
    simp [ptr, digits, node_cons hroot, kids, node_cons hinner]

theorem byteToSector_spec {i : Inode} {pos : Nat} (hm : Mapped s.size s.view i.data) :
    (byteToSector i pos).wp (OutOfMemory s.env) (fun k s' => Looks s s' ∧
      k = if (pos : Int) < diskLength i.data then slotOf s.view i.data (pos / 512)
        else noSector) s := by
  by_cases hpos : (pos : Int) < diskLength i.data
  · have hcond : ¬ ((pos : Int) < 0 ∨ inodeLength i ≤ pos) := by
      rw [inodeLength]
      omega
    rw [byteToSector, if_neg hcond, if_pos hpos]
    have hidx : ((pos : Int) / (blockSectorSize : Nat)).toNat = pos / 512 := by
      simp only [blockSectorSize]
      omega
    rw [hidx]
    have hne := hm.covered (pos / 512) (by omega)
    exact wp_mono (indexToSector_spec hm.owned hne) (fun _ h => h) fun _ _ h => ⟨h.2, h.1⟩
  · have hcond : (pos : Int) < 0 ∨ inodeLength i ≤ pos := Or.inr (by rw [inodeLength]; omega)
    rw [byteToSector, if_pos hcond, if_neg hpos, wp_pure]
    exact ⟨Looks.refl s, rfl⟩

/-! ## Reading -/

/-- The `n` bytes of a file from position `o` on. -/
def bytesAt (v : Nat → Block) (disk : Block) (o n : Nat) : List UInt8 :=
  (List.range n).map fun j => byteAt v disk (o + j)

@[simp] theorem length_bytesAt (v : Nat → Block) (disk : Block) (o n : Nat) :
    (bytesAt v disk o n).length = n := by simp [bytesAt]

theorem bytesAt_add (v : Nat → Block) (disk : Block) (o m n : Nat) :
    bytesAt v disk o (m + n) = bytesAt v disk o m ++ bytesAt v disk (o + m) n := by
  simp only [bytesAt, List.range_add, List.map_append, List.map_map]
  congr 1
  refine List.map_congr_left fun j _ => ?_
  simp [Nat.add_assoc]

/-- A part of one sector of a file. -/
theorem bytesAt_sector {v : Nat → Block} {disk : Block} {o n : Nat} (h : o % 512 + n ≤ 512)
    (hne : slotOf v disk (o / 512) ≠ 0) :
    bytesAt v disk o n = (v (slotOf v disk (o / 512))).slice (o % 512) n := by
  refine List.map_congr_left fun j hj => ?_
  have hj := List.mem_range.mp hj
  have hdiv : (o + j) / 512 = o / 512 := by omega
  have hmod : (o + j) % 512 = o % 512 + j := by omega
  rw [byteAt, hdiv, if_neg hne, hmod]

/-- The bytes of a file of `length` bytes that `size` bytes from `o` on can reach. -/
def reach (size length : Int) (o : Nat) : Nat := min size.toNat (length.toNat - o)

theorem reach_of_size {size length : Int} {o : Nat} (h : size ≤ 0) : reach size length o = 0 := by
  rw [reach, Int.toNat_of_nonpos h, Nat.zero_min]

theorem reach_of_length {size length : Int} {o : Nat} (h : length ≤ o) :
    reach size length o = 0 := by
  have : length.toNat - o = 0 := by omega
  rw [reach, this, Nat.min_zero]

theorem reach_chunk {size length : Int} {o c : Nat} (hsize : (c : Int) ≤ size)
    (hlen : ((o + c : Nat) : Int) ≤ length) :
    reach size length o = c + reach (size - c) length (o + c) := by
  unfold reach
  have h1 : size.toNat = c + (size - c).toNat := by omega
  have h2 : length.toNat - o = c + (length.toNat - (o + c)) := by omega
  rw [h1, h2, Nat.add_min_add_left]

/-- The part of `size` bytes at `o` that lies in one sector. -/
structure IsChunk (size length : Int) (o c : Nat) : Prop where
  eq : min size (min (length - o) ((blockSectorSize : Nat) - (o : Int).tmod (blockSectorSize : Nat))) = c
  pos : 0 < c
  le_size : (c : Int) ≤ size
  le_length : ((o + c : Nat) : Int) ≤ length
  le_sector : o % 512 + c ≤ 512

theorem exists_isChunk {size length : Int} {o : Nat} (hsize : ¬ size ≤ 0) (ho : (o : Int) < length) :
    ∃ c, IsChunk size length o c := by
  have hofs : (o : Int).tmod (blockSectorSize : Nat) = ((o % 512 : Nat) : Int) := rfl
  refine ⟨(min size (min (length - o) ((blockSectorSize : Nat) - (o : Int).tmod (blockSectorSize : Nat)))).toNat,
    ?_, ?_, ?_, ?_, ?_⟩ <;> rw [hofs] <;> simp only [blockSectorSize] <;> omega

/-- What a read of `size` bytes at `o` returns: a part of the file, and with enough memory
all of it. -/
def ReadPart (env : Env) (v : Nat → Block) (disk : Block) (size : Int) (o : Nat)
    (r : List UInt8) : Prop :=
  ∃ n : Nat, r = bytesAt v disk o n ∧ n ≤ reach size (diskLength disk) o ∧
    (env.MemOk → n = reach size (diskLength disk) o)

theorem readPart_nil {env : Env} {v : Nat → Block} {disk : Block} {size : Int} {o : Nat}
    (h : env.MemOk → reach size (diskLength disk) o = 0) : ReadPart env v disk size o [] :=
  ⟨0, rfl, Nat.zero_le _, fun hok => (h hok).symm⟩

/-- A chunk and a part of what comes after it. -/
theorem ReadPart.chunk {env : Env} {v : Nat → Block} {disk : Block} {size : Int} {o c : Nat}
    {r : List UInt8} (hc : IsChunk size (diskLength disk) o c)
    (hr : ReadPart env v disk (size - c) (o + c) r) :
    ReadPart env v disk size o (bytesAt v disk o c ++ r) := by
  obtain ⟨n, rfl, h1, h2⟩ := hr
  rw [ReadPart, reach_chunk hc.le_size hc.le_length]
  refine ⟨c + n, (bytesAt_add v disk o c n).symm, Nat.add_le_add_left h1 c, fun hok => ?_⟩
  rw [← h2 hok]

/-- The bounce buffer of a read or a write, allocated where it is first needed. -/
theorem wp_bounce {s₁ : Fs} (hl : Looks s s₁) (bounce : Bool) :
    (if bounce then pure true else malloc : Kernel Bool).wp E
      (fun r s' => Looks s s' ∧ (s.env.MemOk → r = true)) s₁ := by
  cases bounce with
  | true => exact (wp_pure true).mpr ⟨hl, fun _ => rfl⟩
  | false => exact wp_malloc fun r s' h hr => ⟨hl.trans h, hl.env ▸ hr⟩

theorem readLoop_spec {a : Addr} {i : Inode} (fuel : Nat) :
    ∀ {s : Fs} (size : Int) (o : Nat) (read : List UInt8) (bounce : Bool),
      s.inode? a = some i → Mapped s.size s.view i.data → size.toNat ≤ fuel →
      (readLoop a fuel size o read bounce).wp (OutOfMemory s.env)
        (fun r s' => Looks s s' ∧ ∃ r', r = read ++ r' ∧
          ReadPart s.env s.view i.data size o r') s := by
  induction fuel with
  | zero =>
    intro s size o read bounce hi hm hfuel
    rw [readLoop, wp_pure]
    exact ⟨Looks.refl s, [], by simp, readPart_nil fun _ => reach_of_size (by omega)⟩
  | succ fuel ih =>
    intro s size o read bounce hi hm hfuel
    rw [readLoop]
    by_cases hsize : size ≤ 0
    · rw [if_pos hsize, wp_pure]
      exact ⟨Looks.refl s, [], by simp, readPart_nil fun _ => reach_of_size hsize⟩
    rw [if_neg hsize, wp_bind]
    refine wp_deref hi ?_
    rw [wp_bind]
    refine wp_mono (byteToSector_spec hm) (fun _ h => h) fun k s₁ h₁ => ?_
    obtain ⟨hl, hk⟩ := h₁
    dsimp only [inodeLength]
    by_cases ho : (o : Int) < diskLength i.data
    · obtain ⟨c, hc⟩ := exists_isChunk hsize ho
      rw [hc.eq, if_neg (by have := hc.pos; omega)]
      rw [if_pos ho] at hk
      have hne : slotOf s.view i.data (o / 512) ≠ 0 := hm.covered _ (by omega)
      have hlt : k < s.size := hk ▸ slotOf_lt_size hm.owned hne
      -- the rest of the loop, once the chunk is read
      have hrest : ∀ (s₂ : Fs) (r : List UInt8) (bounce : Bool), Looks s s₂ →
          r = bytesAt s.view i.data o c →
          (readLoop a fuel (size - c) (o + c) (read ++ r) bounce).wp (OutOfMemory s.env)
            (fun r s' => Looks s s' ∧ ∃ r', r = read ++ r' ∧
              ReadPart s.env s.view i.data size o r') s₂ := by
        rintro s₂ _ bounce h₂ rfl
        have h := ih (s := s₂) (size - c) (o + c) (read ++ bytesAt s.view i.data o c) bounce
          (by rw [h₂.inode?, hi]) (by rw [h₂.size, h₂.view]; exact hm)
          (by have := hc.pos; omega)
        rw [h₂.env, h₂.view] at h
        refine wp_mono h (fun _ h => h) fun r s' h => ?_
        obtain ⟨hs', r', rfl, hr⟩ := h
        exact ⟨h₂.trans hs', _, List.append_assoc _ _ _, hr.chunk hc⟩
      have hpart := bytesAt_sector hc.le_sector hne
      rw [← hk] at hpart
      by_cases hfull : (o : Int).tmod (blockSectorSize : Nat) = 0 ∧ (c : Int) = (blockSectorSize : Nat)
      · rw [if_pos hfull, wp_bind]
        refine wp_readSector (hl.size ▸ hlt) fun s₂ h₂ => ?_
        refine hrest s₂ _ _ (hl.trans h₂) ?_
        have h0 : o % 512 = 0 := Int.ofNat_inj.mp hfull.1
        have h512 : c = 512 := Int.ofNat_inj.mp hfull.2
        rw [hpart, hl.view, h0, h512]
      · rw [if_neg hfull, wp_bind]
        refine wp_mono (wp_bounce hl bounce) (fun _ h => h) fun r s₂ h₂ => ?_
        cases r with
        | false =>
          rw [if_neg Bool.false_ne_true, wp_pure]
          exact ⟨h₂.1, [], by simp, readPart_nil fun hok => absurd (h₂.2 hok) Bool.false_ne_true⟩
        | true =>
          rw [if_pos rfl, wp_bind]
          refine wp_readSector (h₂.1.size ▸ hlt) fun s₃ h₃ => ?_
          refine hrest s₃ _ _ (h₂.1.trans h₃) ?_
          rw [hpart, h₂.1.view]
          rfl
    · have hc : min size (min (diskLength i.data - o)
          ((blockSectorSize : Nat) - (o : Int).tmod (blockSectorSize : Nat))) ≤ 0 := by omega
      rw [if_pos hc, wp_pure]
      exact ⟨hl, [], by simp, readPart_nil fun _ => reach_of_length (Int.not_lt.mp ho)⟩

/-- **`inode_read_at` returns the bytes of the file and changes nothing.** -/
theorem inodeReadAt_spec {a : Addr} {i : Inode} (hi : s.inode? a = some i)
    (hm : Mapped s.size s.view i.data) (size : Int) (o : Nat) :
    (inodeReadAt a size o).wp (OutOfMemory s.env)
      (fun r s' => Looks s s' ∧ ReadPart s.env s.view i.data size o r) s := by
  refine wp_mono (readLoop_spec size.toNat size o [] false hi hm (Nat.le_refl _)) (fun _ h => h)
    fun r s' h => ?_
  obtain ⟨hs', r', rfl, hr⟩ := h
  exact ⟨hs', hr⟩

end

/-! ## Writing -/

/-- The `n` bytes of a file from position `o` on have become those of `src`. -/
structure Overwritten (v v' : Nat → Block) (disk : Block) (o n : Nat) (src : Nat → UInt8) : Prop where
  frame : ∀ k, v' k ≠ v k → k ≠ 0 ∧ ∃ q, o ≤ q ∧ q < o + n ∧ slotOf v disk (q / 512) = k
  bytes : ∀ q, byteAt v' disk q = if o ≤ q ∧ q < o + n then src (q - o) else byteAt v disk q

section

variable {v v' v'' : Nat → Block} {disk : Block} {o m n : Nat} {src : Nat → UInt8}
  {ok : Nat → Prop}

theorem Overwritten.none (v : Nat → Block) (disk : Block) (o : Nat) (src : Nat → UInt8) :
    Overwritten v v disk o 0 src := by
  refine ⟨fun k h => absurd rfl h, fun q => ?_⟩
  rw [if_neg (by omega)]

/-- A write to a file leaves its pointers where they are. -/
theorem Overwritten.ptr_eq (h : Overwritten v v' disk o n src) (ho : Owned IsSlot ok (ptr v disk))
    {x : Slot} (hx : IsSlot x) : ptr v' disk x = ptr v disk x := by
  refine ptr_congr (fun _ _ => rfl) (fun y hy hleaf hne i _ => ?_) hx
  by_cases hv : v' (ptr v disk y) = v (ptr v disk y)
  · rw [hv]
  · obtain ⟨-, q, -, -, hq⟩ := h.frame _ hv
    exact absurd hq (slotOf_ne_inner ho hy hleaf hne)

theorem Overwritten.slotOf_eq (h : Overwritten v v' disk o n src)
    (ho : Owned IsSlot ok (ptr v disk)) (idx : Nat) : slotOf v' disk idx = slotOf v disk idx :=
  slotOf_congr (fun _ hx => h.ptr_eq ho hx) idx

theorem Overwritten.owned (h : Overwritten v v' disk o n src)
    (ho : Owned IsSlot ok (ptr v disk)) : Owned IsSlot ok (ptr v' disk) :=
  ho.congr fun _ hx => h.ptr_eq ho hx

theorem Overwritten.mapped {size : Nat} (h : Overwritten v v' disk o n src)
    (hm : Mapped size v disk) : Mapped size v' disk where
  owned := h.owned hm.owned
  length_nonneg := hm.length_nonneg
  length_le := hm.length_le
  covered idx hidx := by
    rw [h.slotOf_eq hm.owned]
    exact hm.covered idx hidx

theorem Overwritten.append (h : Overwritten v v' disk o m src)
    (ho : Owned IsSlot ok (ptr v disk))
    (h' : Overwritten v' v'' disk (o + m) n fun j => src (m + j)) :
    Overwritten v v'' disk o (m + n) src := by
  constructor
  · intro k hk
    by_cases hk' : v' k = v k
    · obtain ⟨h0, q, h1, h2, hq⟩ := h'.frame k (hk' ▸ hk)
      exact ⟨h0, q, by omega, by omega, h.slotOf_eq ho _ ▸ hq⟩
    · obtain ⟨h0, q, h1, h2, hq⟩ := h.frame k hk'
      exact ⟨h0, q, h1, by omega, hq⟩
  · intro q
    rw [h'.bytes, h.bytes]
    by_cases h1 : q < o + m
    · rw [if_neg (by omega)]
      simp only [h1, and_true, show q < o + (m + n) by omega]
    · by_cases h2 : q < o + m + n
      · rw [if_pos (by omega), if_pos (by omega)]
        congr 1
        omega
      · rw [if_neg (by omega), if_neg (by omega), if_neg (by omega)]

/-- A write to a part of one sector. -/
theorem overwritten_chunk (src : Nat → UInt8) (ho : Owned IsSlot ok (ptr v disk))
    (hne : slotOf v disk (o / 512) ≠ 0) (hle : o % 512 + n ≤ 512) (hpos : 0 < n) :
    Overwritten v (Function.update v (slotOf v disk (o / 512))
      ((v (slotOf v disk (o / 512))).splice (o % 512) n src)) disk o n src := by
  have hframe : ∀ k, Function.update v (slotOf v disk (o / 512))
      ((v (slotOf v disk (o / 512))).splice (o % 512) n src) k ≠ v k →
      k = slotOf v disk (o / 512) := by
    intro k hk
    by_contra hne
    exact hk (Function.update_of_ne hne _ _)
  have hptr : ∀ x, IsSlot x → ptr (Function.update v (slotOf v disk (o / 512))
      ((v (slotOf v disk (o / 512))).splice (o % 512) n src)) disk x
        = ptr v disk x := by
    intro x hx
    refine ptr_congr (fun _ _ => rfl) (fun y hy hleaf hy0 i _ => ?_) hx
    rw [Function.update_of_ne (slotOf_ne_inner ho hy hleaf hy0).symm]
  constructor
  · intro k hk
    rw [hframe k hk]
    exact ⟨hne, o, Nat.le_refl o, by omega, rfl⟩
  · intro q
    have hslot := slotOf_congr hptr (q / 512)
    simp only [byteAt]
    rw [hslot]
    by_cases hq : q / 512 = o / 512
    · rw [hq, if_neg hne, if_neg hne, Function.update_self, Bytes.byte_splice _ _ _ _ (show q % 512 < 512 by omega)]
      by_cases hin : o ≤ q ∧ q < o + n
      · rw [if_pos hin, if_pos (by omega)]
        congr 1
        omega
      · rw [if_neg hin, if_neg (by omega)]
    · rw [if_neg (show ¬ (o ≤ q ∧ q < o + n) by omega)]
      by_cases h0 : slotOf v disk (q / 512) = 0
      · rw [if_pos h0, if_pos h0]
      · rw [if_neg h0, if_neg h0, Function.update_of_ne]
        exact fun he => hq (slotOf_inj ho h0 he)

/-- What a write of `size` bytes at `o` does: it replaces a part of the file, and with enough
memory all of it. -/
def WritePart (env : Env) (v v' : Nat → Block) (disk : Block) (size : Int) (o : Nat)
    (src : Nat → UInt8) (n : Nat) : Prop :=
  Overwritten v v' disk o n src ∧ n ≤ reach size (diskLength disk) o ∧
    (env.MemOk → n = reach size (diskLength disk) o)

theorem writePart_none {env : Env} {size : Int}
    (h : env.MemOk → reach size (diskLength disk) o = 0) :
    WritePart env v v disk size o src 0 :=
  ⟨Overwritten.none v disk o src, Nat.zero_le _, fun hok => (h hok).symm⟩

theorem WritePart.chunk {env : Env} {size : Int} {c : Nat} (ho : Owned IsSlot ok (ptr v disk))
    (hc : IsChunk size (diskLength disk) o c) (h : Overwritten v v' disk o c src)
    (h' : WritePart env v' v'' disk (size - c) (o + c) (fun j => src (c + j)) n) :
    WritePart env v v'' disk size o src (c + n) := by
  obtain ⟨hw, h1, h2⟩ := h'
  rw [WritePart, reach_chunk hc.le_size hc.le_length]
  refine ⟨h.append ho hw, Nat.add_le_add_left h1 c, fun hok => ?_⟩
  rw [← h2 hok]

end

section

variable {s : Fs}

theorem writeLoop_spec {a : Addr} {i : Inode} (buffer : Nat → UInt8) (fuel : Nat) :
    ∀ {s : Fs} (size : Int) (o written : Nat) (bounce : Bool),
      s.inode? a = some i → Mapped s.size s.view i.data → size.toNat ≤ fuel →
      (writeLoop a buffer fuel size o written bounce).wp (OutOfMemory s.env)
        (fun r s' => Stored s s' ∧ ∃ n : Nat, r = ((written + n : Nat) : Int) ∧
          WritePart s.env s.view s'.view i.data size o (fun j => buffer (written + j)) n) s := by
  induction fuel with
  | zero =>
    intro s size o written bounce hi hm hfuel
    rw [writeLoop, wp_pure]
    exact ⟨Stored.refl s, 0, rfl, writePart_none fun _ => reach_of_size (by omega)⟩
  | succ fuel ih =>
    intro s size o written bounce hi hm hfuel
    rw [writeLoop]
    by_cases hsize : size ≤ 0
    · rw [if_pos hsize, wp_pure]
      exact ⟨Stored.refl s, 0, rfl, writePart_none fun _ => reach_of_size hsize⟩
    rw [if_neg hsize, wp_bind]
    refine wp_deref hi ?_
    rw [wp_bind]
    refine wp_mono (byteToSector_spec hm) (fun _ h => h) fun k s₁ h₁ => ?_
    obtain ⟨hl, hk⟩ := h₁
    dsimp only [inodeLength]
    by_cases ho : (o : Int) < diskLength i.data
    · obtain ⟨c, hc⟩ := exists_isChunk hsize ho
      rw [hc.eq, if_neg (by have := hc.pos; omega)]
      rw [if_pos ho] at hk
      have hne : slotOf s.view i.data (o / 512) ≠ 0 := hm.covered _ (by omega)
      have hlt : k < s.size := hk ▸ slotOf_lt_size hm.owned hne
      have hwrite := overwritten_chunk (fun j => buffer (written + j)) hm.owned hne
        hc.le_sector hc.pos
      rw [← hk] at hwrite
      -- the rest of the loop, once the chunk is written
      have hrest : ∀ (s₂ : Fs) (bounce : Bool), Stored s s₂ →
          s₂.view = Function.update s.view k
            ((s.view k).splice (o % 512) c fun j => buffer (written + j)) →
          (writeLoop a buffer fuel (size - c) (o + c) (written + c) bounce).wp (OutOfMemory s.env)
            (fun r s' => Stored s s' ∧ ∃ n : Nat, r = ((written + n : Nat) : Int) ∧
              WritePart s.env s.view s'.view i.data size o (fun j => buffer (written + j)) n)
            s₂ := by
        intro s₂ bounce h₂ hv
        rw [← hv] at hwrite
        have h := ih (s := s₂) (size - c) (o + c) (written + c) bounce
          (by rw [h₂.inode?, hi]) (by rw [h₂.size]; exact hwrite.mapped hm)
          (by have := hc.pos; omega)
        rw [h₂.env] at h
        refine wp_mono h (fun _ h => h) fun r s' h => ?_
        obtain ⟨hs', n, hr, hw⟩ := h
        refine ⟨h₂.trans hs', c + n, by rw [hr, Nat.add_assoc], WritePart.chunk hm.owned hc hwrite ?_⟩
        simpa only [Nat.add_assoc] using hw
      by_cases hfull : (o : Int).tmod (blockSectorSize : Nat) = 0 ∧ (c : Int) = (blockSectorSize : Nat)
      · rw [if_pos hfull, wp_bind]
        refine wp_writeSector (hl.size ▸ hlt) fun s₂ h₂ hv => hrest s₂ _ (hl.toStored.trans h₂) ?_
        have h0 : o % 512 = 0 := Int.ofNat_inj.mp hfull.1
        have h512 : c = 512 := Int.ofNat_inj.mp hfull.2
        rw [hv, hl.view, h0, h512, Bytes.splice_all _ (Nat.le_refl _)]
        rfl
      · rw [if_neg hfull, wp_bind]
        refine wp_mono (wp_bounce hl bounce) (fun _ h => h) fun r s₂ h₂ => ?_
        cases r with
        | false =>
          rw [if_neg Bool.false_ne_true, wp_pure]
          refine ⟨h₂.1.toStored, 0, rfl, ?_⟩
          rw [h₂.1.view]
          exact writePart_none fun hok => absurd (h₂.2 hok) Bool.false_ne_true
        | true =>
          -- a chunk that is not a whole sector leaves a part of its sector as it is
          have hpart : 0 < (o : Int).tmod (blockSectorSize : Nat) ∨
              (c : Int) < (blockSectorSize : Nat) - (o : Int).tmod (blockSectorSize : Nat) := by
            have hofs : (o : Int).tmod (blockSectorSize : Nat) = ((o % 512 : Nat) : Int) := rfl
            have := hc.le_sector
            rw [hofs] at hfull ⊢
            simp only [blockSectorSize] at hfull ⊢
            omega
          rw [if_pos rfl, if_pos hpart, wp_bind]
          refine wp_readSector (h₂.1.size ▸ hlt) fun s₃ h₃ => ?_
          have h₁₃ := h₂.1.trans h₃
          rw [wp_bind]
          refine wp_writeSector (h₁₃.size ▸ hlt) fun s₄ h₄ hv => hrest s₄ _ (h₁₃.toStored.trans h₄) ?_
          rw [hv, h₁₃.view, h₂.1.view]
          rfl
    · have hc : min size (min (diskLength i.data - o)
          ((blockSectorSize : Nat) - (o : Int).tmod (blockSectorSize : Nat))) ≤ 0 := by omega
      rw [if_pos hc, wp_pure]
      refine ⟨hl.toStored, 0, rfl, ?_⟩
      rw [hl.view]
      exact writePart_none fun _ => reach_of_length (Int.not_lt.mp ho)

end

end Pintos.Filesys
