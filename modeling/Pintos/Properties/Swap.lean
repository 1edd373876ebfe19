import Pintos.Vm.Swap
import Mathlib.Data.Multiset.Range

/-!
# Pages in the swap block, under any interleaving

Only the search for a free slot is done under `swap_lock`. The slot that is found is marked before
the lock is given back, and `swap_in` clears the mark only after it has read the last sector. So a
slot belongs to one page from the search to the end of `swap_in`, and nobody else writes its
sectors.
-/

namespace Pintos.Vm

open Pintos.Logic Pintos.Lib

variable {c c' : Swap} {a a' : Outstanding} {l : Multiset Outstanding} {s s' : Swapping}
  {page frame : Page} {index i : Nat}

/-! ## The parts of a page -/

theorem sectorsPerPage_eq : sectorsPerPage = 8 := rfl

theorem byte_part (page : Page) {k : Nat} (hk : k < 512) :
    (part page i).byte k = page.byte (i * 512 + k) :=
  Bytes.byte_tabulate hk

theorem byte_setPart (buffer : Block) {k : Nat} (hk : k < 4096) :
    (setPart page i buffer).byte k
      = if i * 512 ≤ k ∧ k < i * 512 + 512 then buffer.byte (k - i * 512) else page.byte k :=
  Bytes.byte_splice _ _ _ _ hk

theorem part_setPart_self (hi : i < sectorsPerPage) (buffer : Block) :
    part (setPart page i buffer) i = buffer := by
  rw [sectorsPerPage_eq] at hi
  refine Bytes.ext_byte fun k (hk : k < 512) => ?_
  rw [byte_part _ hk, byte_setPart _ (by omega), if_pos (by omega), Nat.add_sub_cancel_left]

theorem part_setPart_ne {m : Nat} (hm : m < sectorsPerPage) (h : m ≠ i) (buffer : Block) :
    part (setPart page i buffer) m = part page m := by
  rw [sectorsPerPage_eq] at hm
  refine Bytes.ext_byte fun k (hk : k < 512) => ?_
  rw [byte_part _ hk, byte_part _ hk, byte_setPart _ (by omega), if_neg (by omega)]

/-- Pages with the same parts are equal. -/
theorem ext_part (h : ∀ m < sectorsPerPage, part page m = part frame m) : page = frame := by
  refine Bytes.ext_byte fun k (hk : k < 4096) => ?_
  have hpart := h (k / 512) (by rw [sectorsPerPage_eq]; omega)
  have hmod : k % 512 < 512 := Nat.mod_lt _ (by decide)
  calc page.byte k = (part page (k / 512)).byte (k % 512) := by
        rw [byte_part _ hmod, Nat.div_add_mod']
    _ = (part frame (k / 512)).byte (k % 512) := by rw [hpart]
    _ = frame.byte k := by rw [byte_part _ hmod, Nat.div_add_mod']

/-! ## Slots -/

/-- The slot that belongs to the page. -/
def Outstanding.slot : Outstanding → Option Nat
  | .leaving _ .acquire => none
  | .leaving _ (.scan _) => none
  | .leaving _ (.mark index) => some index
  | .leaving _ (.release index) => some index
  | .leaving _ (.write index _) => some index
  | .leaving _ (.done index) => some index
  | .out _ index => some index
  | .coming _ _ (.done _) => none
  | .coming _ index _ => some index

/-- Whether its call of `swap_out` holds `swap_lock`. -/
def Outstanding.critical : Outstanding → Bool
  | .leaving _ (.scan _) => true
  | .leaving _ (.mark _) => true
  | .leaving _ (.release _) => true
  | _ => false

/-- The slots that belong to pages, as often as they do. -/
def slots (l : Multiset Outstanding) : Multiset Nat := l.filterMap Outstanding.slot

/-- A slot with what it holds. -/
structure Swap.Kept (c : Swap) (page : Page) (index : Nat) : Prop where
  lt : index < c.bitmap.bitCnt
  marked : c.bitmap.test index = true
  holds : ∀ m < sectorsPerPage, c.block.sectors (slotSector index m) = part page m

/-- What is true of an outstanding page, whatever the other calls do. -/
def Swap.Holds (c : Swap) : Outstanding → Prop
  | .leaving _ .acquire => True
  | .leaving _ (.scan i) => ∃ k, i ≤ k ∧ k < c.bitmap.bitCnt ∧ c.bitmap.test k = false
  | .leaving _ (.mark index) => index < c.bitmap.bitCnt ∧ c.bitmap.test index = false
  | .leaving _ (.release index) => index < c.bitmap.bitCnt ∧ c.bitmap.test index = true
  | .leaving page (.write index i) =>
    index < c.bitmap.bitCnt ∧ c.bitmap.test index = true ∧ i ≤ sectorsPerPage ∧
      ∀ m < i, c.block.sectors (slotSector index m) = part page m
  | .leaving page (.done index) => c.Kept page index
  | .out page index => c.Kept page index
  | .coming page index (.read i frame) =>
    c.Kept page index ∧ i ≤ sectorsPerPage ∧ ∀ m < i, part frame m = part page m
  | .coming page index (.flip frame) => c.Kept page index ∧ frame = page
  | .coming page _ (.done frame) => frame = page

/-- A state in which each slot belongs to at most one page. -/
structure Swapping.Exact (s : Swapping) : Prop where
  size : s.swap.bitmap.bitCnt = s.swap.block.size / sectorsPerPage
  sectors : s.swap.block.size < 2 ^ 32
  fits : s.outstanding ≤ s.swap.bitmap.bitCnt
  once : (slots s.pages).Nodup
  owned : ∀ i < s.swap.bitmap.bitCnt, s.swap.bitmap.test i = true → i ∈ slots s.pages
  alone : s.pages.countP (·.critical) = s.swap.lockHeld.toNat
  holds : ∀ a ∈ s.pages, s.swap.Holds a

theorem mem_slots : i ∈ slots l ↔ ∃ a ∈ l, a.slot = some i := Multiset.mem_filterMap ..

theorem slots_cons_none (h : a.slot = none) : slots (a ::ₘ l) = slots l :=
  Multiset.filterMap_cons_none _ _ h

theorem slots_cons_some (h : a.slot = some i) : slots (a ::ₘ l) = i ::ₘ slots l :=
  Multiset.filterMap_cons_some _ _ _ h

/-- A slot of the swap block is in eight sectors of its own. -/
theorem slotSector_eq {n : Nat} (hsize : n < 2 ^ 32) (h : index < n / sectorsPerPage)
    (hi : i < sectorsPerPage) : slotSector index i = index * sectorsPerPage + i ∧
      slotSector index i < n := by
  rw [sectorsPerPage_eq] at *
  rw [slotSector, sectorsPerPage_eq]
  omega

theorem slotSector_ne {n j m : Nat} (hsize : n < 2 ^ 32) (h : index < n / sectorsPerPage)
    (hj : j < n / sectorsPerPage) (hne : index ≠ j) (hi : i < sectorsPerPage)
    (hm : m < sectorsPerPage) : slotSector index i ≠ slotSector j m := by
  rw [(slotSector_eq hsize h hi).1, (slotSector_eq hsize hj hm).1]
  rw [sectorsPerPage_eq] at *
  omega

/-- A page that has a slot has it on the swap block. -/
theorem Swap.Holds.slot_lt (h : c.Holds a) (hi : a.slot = some i) : i < c.bitmap.bitCnt := by
  rcases a with ⟨page, call⟩ | ⟨page, index⟩ | ⟨page, index, call⟩
  · cases call <;> cases hi
    · exact h.1
    · exact h.1
    · exact h.1
    · exact h.lt
  · cases hi
    exact h.lt
  · cases call <;> cases hi
    · exact h.1.lt
    · exact h.1.lt

/-! ## What the other calls leave alone -/

/-- The step from `c` to `c'` leaves slot `i` as it is. -/
def Swap.Spares (c c' : Swap) (i : Nat) : Prop :=
  c'.bitmap.test i = c.bitmap.test i ∧
    ∀ m < sectorsPerPage, c'.block.sectors (slotSector i m) = c.block.sectors (slotSector i m)

theorem Swap.Kept.spares (h : c.Kept page index) (hcnt : c'.bitmap.bitCnt = c.bitmap.bitCnt)
    (hs : c.Spares c' index) : c'.Kept page index where
  lt := hcnt ▸ h.lt
  marked := hs.1.trans h.marked
  holds m hm := (hs.2 m hm).trans (h.holds m hm)

/-- What is true of a page stays true if its slot is spared, and if no mark is set while it looks for
a slot. -/
theorem Swap.Holds.spares (h : c.Holds a) (hcnt : c'.bitmap.bitCnt = c.bitmap.bitCnt)
    (hs : ∀ i, a.slot = some i → c.Spares c' i)
    (hclear : a.critical = true → ∀ k, c.bitmap.test k = false → c'.bitmap.test k = false) :
    c'.Holds a := by
  rcases a with ⟨page, call⟩ | ⟨page, index⟩ | ⟨page, index, call⟩
  · cases call with
    | acquire => trivial
    | scan i =>
      obtain ⟨k, hik, hk, hfree⟩ := h
      exact ⟨k, hik, hcnt ▸ hk, hclear rfl k hfree⟩
    | mark index => exact ⟨hcnt ▸ h.1, (hs index rfl).1.trans h.2⟩
    | release index => exact ⟨hcnt ▸ h.1, (hs index rfl).1.trans h.2⟩
    | write index i =>
      obtain ⟨hlt, hmark, hi, hw⟩ := h
      refine ⟨hcnt ▸ hlt, (hs index rfl).1.trans hmark, hi, fun m hm => ?_⟩
      exact ((hs index rfl).2 m (Nat.lt_of_lt_of_le hm hi)).trans (hw m hm)
    | done index => exact Swap.Kept.spares h hcnt (hs index rfl)
  · exact Swap.Kept.spares h hcnt (hs index rfl)
  · cases call with
    | read i frame => exact ⟨h.1.spares hcnt (hs index rfl), h.2⟩
    | flip frame => exact ⟨h.1.spares hcnt (hs index rfl), h.2⟩
    | done frame => exact h

theorem Swap.Spares.refl (c : Swap) (i : Nat) : c.Spares c i := ⟨rfl, fun _ _ => rfl⟩

/-- A page without a mark on its slot is in the hands of the holder of `swap_lock`. -/
theorem Swap.Holds.marked (h : c.Holds a) (hi : a.slot = some i) (hc : a.critical = false) :
    c.bitmap.test i = true := by
  rcases a with ⟨page, call⟩ | ⟨page, index⟩ | ⟨page, index, call⟩
  · cases call <;> cases hi
    · cases hc
    · exact h.2
    · exact h.2.1
    · exact h.marked
  · cases hi
    exact h.marked
  · cases call <;> cases hi
    · exact h.1.marked
    · exact h.1.marked

theorem countP_critical_cons : (a ::ₘ l).countP (·.critical) =
    a.critical.toNat + l.countP (·.critical) := by
  rw [Multiset.countP_cons, Nat.add_comm]
  cases a.critical <;> rfl

/-! ## One step -/

namespace Swapping

/-- The other pages do not hold `swap_lock` if this one does. -/
theorem Exact.others (h : Exact ⟨c, a ::ₘ l⟩) (ha : a.critical = true) :
    ∀ b ∈ l, b.critical = false := by
  have hone := h.alone
  rw [countP_critical_cons, ha] at hone
  have hle : c.lockHeld.toNat ≤ 1 := Bool.toNat_le _
  have hzero : l.countP (·.critical) = 0 := by
    simp only [Bool.toNat_true] at hone
    omega
  intro b hb
  exact Bool.eq_false_iff.mpr (Multiset.countP_eq_zero.mp hzero b hb)

theorem outstanding_cons : outstanding ⟨c, a ::ₘ l⟩ =
    outstanding ⟨c, l⟩ + (if a.returned = false then 1 else 0) :=
  Multiset.countP_cons ..

/-- One page takes a step, and the slots of the others are spared. -/
theorem Exact.replace (h : Exact ⟨c, a ::ₘ l⟩) (hcnt : c'.bitmap.bitCnt = c.bitmap.bitCnt)
    (hsize : c'.block.size = c.block.size) (hret : a.returned = false)
    (halone : a'.critical.toNat + c.lockHeld.toNat = a.critical.toNat + c'.lockHeld.toNat)
    (honce : (slots (a' ::ₘ l)).Nodup)
    (howned : ∀ j < c.bitmap.bitCnt, c'.bitmap.test j = true → j ∈ slots (a' ::ₘ l))
    (hspares : ∀ b ∈ l, ∀ j, b.slot = some j → c.Spares c' j)
    (hclear : ∀ b ∈ l, b.critical = true →
      ∀ k, c.bitmap.test k = false → c'.bitmap.test k = false)
    (hholds : c'.Holds a') : Exact ⟨c', a' ::ₘ l⟩ where
  size := by
    dsimp only
    rw [hcnt, hsize]
    exact h.size
  sectors := hsize ▸ h.sectors
  fits := by
    have hfits := h.fits
    rw [outstanding_cons, if_pos hret] at hfits
    have hle : outstanding ⟨c', a' ::ₘ l⟩ ≤ outstanding ⟨c, l⟩ + 1 := by
      rw [outstanding_cons]
      refine Nat.add_le_add (Nat.le_refl _) ?_
      split <;> decide
    exact Nat.le_trans hle (hcnt ▸ hfits)
  once := honce
  owned j hj := howned j (hcnt ▸ hj)
  alone := by
    have hone := h.alone
    rw [countP_critical_cons] at hone ⊢
    dsimp only at hone ⊢
    omega
  holds b hb := by
    obtain rfl | hb := Multiset.mem_cons.mp hb
    · exact hholds
    · exact (h.holds b (Multiset.mem_cons_of_mem hb)).spares hcnt (hspares b hb) (hclear b hb)

/-- The slots of the other pages are not that of this one. -/
theorem Exact.slot_ne (h : Exact ⟨c, a ::ₘ l⟩) (ha : a.slot = some i) {b : Outstanding}
    (hb : b ∈ l) {j : Nat} (hj : b.slot = some j) : j ≠ i := by
  rintro rfl
  have honce := h.once
  dsimp only at honce
  rw [slots_cons_some ha] at honce
  exact (Multiset.nodup_cons.mp honce).1 (mem_slots.mpr ⟨b, hb, hj⟩)

/-- The page keeps its slot, and no mark is set or cleared but that of its slot. -/
theorem Exact.keep (h : Exact ⟨c, a ::ₘ l⟩) (hcnt : c'.bitmap.bitCnt = c.bitmap.bitCnt)
    (hsize : c'.block.size = c.block.size) (hret : a.returned = false)
    (halone : a'.critical.toNat + c.lockHeld.toNat = a.critical.toNat + c'.lockHeld.toNat)
    (hslot : a'.slot = a.slot)
    (howned : ∀ j, c'.bitmap.test j = true → c.bitmap.test j = true ∨ a.slot = some j)
    (hspares : ∀ b ∈ l, ∀ j, b.slot = some j → c.Spares c' j)
    (hclear : ∀ b ∈ l, b.critical = true →
      ∀ k, c.bitmap.test k = false → c'.bitmap.test k = false)
    (hholds : c'.Holds a') : Exact ⟨c', a' ::ₘ l⟩ := by
  have hsame : slots (a' ::ₘ l) = slots (a ::ₘ l) := by
    cases ha : a.slot with
    | none => rw [slots_cons_none ha, slots_cons_none (hslot.trans ha)]
    | some i => rw [slots_cons_some ha, slots_cons_some (hslot.trans ha)]
  refine h.replace hcnt hsize hret halone (hsame ▸ h.once) (fun j hj ht => ?_) hspares hclear hholds
  rw [hsame]
  obtain ht | ha := howned j ht
  · exact h.owned j hj ht
  · exact mem_slots.mpr ⟨a, Multiset.mem_cons_self a l, ha⟩

/-- A step that leaves the bitmap and the block as they are. -/
theorem Exact.quiet (h : Exact ⟨c, a ::ₘ l⟩) (hbitmap : c'.bitmap = c.bitmap)
    (hblock : c'.block = c.block) (hret : a.returned = false)
    (halone : a'.critical.toNat + c.lockHeld.toNat = a.critical.toNat + c'.lockHeld.toNat)
    (hslot : a'.slot = a.slot) (hholds : c'.Holds a') : Exact ⟨c', a' ::ₘ l⟩ := by
  refine h.keep (by rw [hbitmap]) (by rw [hblock]) hret halone hslot (fun j ht => ?_)
    (fun _ _ j _ => ⟨by rw [hbitmap], fun m _ => by rw [hblock]⟩)
    (fun _ _ _ k hk => by rwa [hbitmap]) hholds
  exact .inl (hbitmap ▸ ht)

/-! ## `swap_out` -/

theorem card_slots_le (l : Multiset Outstanding) : (slots l).card ≤ outstanding ⟨c, l⟩ := by
  induction l using Multiset.induction_on with
  | empty => exact Nat.zero_le _
  | cons a l ih =>
    rw [outstanding_cons]
    cases ha : a.slot with
    | none =>
      rw [slots_cons_none ha]
      exact Nat.le_add_right_of_le ih
    | some i =>
      have hret : a.returned = false := by
        rcases a with _ | _ | ⟨page, index, call⟩
        · rfl
        · rfl
        · cases call with
          | done frame => cases ha
          | _ => rfl
      rw [slots_cons_some ha, Multiset.card_cons, if_pos hret]
      exact Nat.succ_le_succ ih

/-- While a page that has no slot is outstanding, there is a free one. -/
theorem Exact.free_slot (h : Exact ⟨c, a ::ₘ l⟩) (ha : a.slot = none)
    (hret : a.returned = false) : ∃ k < c.bitmap.bitCnt, c.bitmap.test k = false := by
  by_contra hfull
  have hsub : Multiset.range c.bitmap.bitCnt ≤ slots l := by
    refine (Multiset.le_iff_subset (Multiset.nodup_range _)).mpr fun k hk => ?_
    have hlt : k < c.bitmap.bitCnt := Multiset.mem_range.mp hk
    have hmem : k ∈ slots (a ::ₘ l) := by
      refine h.owned k hlt ?_
      by_contra hk
      exact hfull ⟨k, hlt, (Bool.not_eq_true _).mp hk⟩
    rwa [slots_cons_none ha] at hmem
  have hcard : c.bitmap.bitCnt ≤ (slots l).card := by
    simpa using Multiset.card_le_card hsub
  have hfits := h.fits
  rw [outstanding_cons, if_pos hret] at hfits
  have hle := card_slots_le (c := c) l
  dsimp only at hfits
  omega

/-- Nobody else has a slot without a mark while this page looks for one. -/
theorem Exact.not_mem_slots (h : Exact ⟨c, a ::ₘ l⟩) (ha : a.critical = true)
    (hi : c.bitmap.test i = false) : i ∉ slots l := by
  intro hmem
  obtain ⟨b, hb, hslot⟩ := mem_slots.mp hmem
  have hmark := (h.holds b (Multiset.mem_cons_of_mem hb)).marked hslot (h.others ha b hb)
  rw [hi] at hmark
  cases hmark

/-- The scan has come to a slot without a mark. -/
theorem Exact.takeSlot (h : Exact ⟨c, .leaving page (.scan i) ::ₘ l⟩) (hlt : i < c.bitmap.bitCnt)
    (hi : c.bitmap.test i = false) : Exact ⟨c, .leaving page (.mark i) ::ₘ l⟩ := by
  have hnew := h.not_mem_slots rfl hi
  have honce := h.once
  have howned := h.owned
  dsimp only at honce howned
  rw [slots_cons_none rfl] at honce howned
  refine h.replace rfl rfl rfl rfl ?_ (fun j hj ht => ?_) (fun _ _ j _ => .refl c j)
    (fun _ _ _ _ hk => hk) ⟨hlt, hi⟩
  · rw [slots_cons_some (i := i) rfl]
    exact Multiset.nodup_cons.mpr ⟨hnew, honce⟩
  · rw [slots_cons_some (i := i) rfl]
    exact Multiset.mem_cons_of_mem (howned j hj ht)

theorem Exact.markSlot (h : Exact ⟨c, .leaving page (.mark index) ::ₘ l⟩) :
    Exact ⟨{ c with bitmap := c.bitmap.set index true }, .leaving page (.release index) ::ₘ l⟩ := by
  obtain ⟨hlt, hfree⟩ := h.holds _ (Multiset.mem_cons_self ..)
  dsimp only at hlt hfree
  refine h.keep rfl rfl rfl rfl rfl (fun j ht => ?_) (fun b hb j hj => ?_) (fun b hb hc => ?_)
    ⟨hlt, ?_⟩
  · dsimp only at ht
    rw [Bitmap.test_set hlt] at ht
    split at ht
    · next hj => exact .inr (congrArg some hj.symm)
    · exact .inl ht
  · refine ⟨?_, fun _ _ => rfl⟩
    rw [Bitmap.test_set hlt, if_neg (h.slot_ne rfl hb hj)]
  · rw [h.others rfl b hb] at hc
    cases hc
  · rw [Bitmap.test_set hlt, if_pos rfl]

theorem Exact.giveLock (h : Exact ⟨c, .leaving page (.release index) ::ₘ l⟩) :
    Exact ⟨{ c with lockHeld := false }, .leaving page (.write index 0) ::ₘ l⟩ := by
  have hholds := h.holds _ (Multiset.mem_cons_self ..)
  refine h.quiet rfl rfl rfl ?_ rfl ⟨hholds.1, hholds.2, Nat.zero_le _, nofun⟩
  have hone := h.alone
  rw [countP_critical_cons] at hone
  have hle : c.lockHeld.toNat ≤ 1 := Bool.toNat_le _
  have hcrit : (Outstanding.leaving page (.release index)).critical.toNat = 1 := rfl
  dsimp only at hone
  simp only [Outstanding.critical, Bool.toNat_true, Bool.toNat_false] at hone hcrit ⊢
  omega

/-- The sector that is written is in no slot but that of the page. -/
theorem Exact.writePart (h : Exact ⟨c, .leaving page (.write index i) ::ₘ l⟩)
    (hlt8 : i < sectorsPerPage) :
    Exact ⟨{ c with block := { c.block with
      sectors := Function.update c.block.sectors (slotSector index i) (part page i) } },
      .leaving page (.write index (i + 1)) ::ₘ l⟩ := by
  obtain ⟨hlt, hmark, hi, hw⟩ := h.holds _ (Multiset.mem_cons_self ..)
  have hsize := h.size
  have hsectors := h.sectors
  dsimp only at hlt hmark hw hsize hsectors
  rw [hsize] at hlt
  refine h.keep rfl rfl rfl rfl rfl (fun _ ht => .inl ht)
    (fun b hb j hj => ⟨rfl, fun m hm => ?_⟩) (fun _ _ _ _ hk => hk)
    ⟨hsize ▸ hlt, hmark, hlt8, fun m hm => ?_⟩
  · have hj8 := (h.holds b (Multiset.mem_cons_of_mem hb)).slot_lt hj
    dsimp only at hj8
    rw [hsize] at hj8
    exact Function.update_of_ne
      (slotSector_ne hsectors hj8 hlt (h.slot_ne rfl hb hj) hm hlt8) ..
  · dsimp only
    by_cases hmi : m = i
    · rw [hmi, Function.update_self]
    · have hm8 : m < sectorsPerPage := by omega
      rw [Function.update_of_ne, hw m (by omega)]
      rw [(slotSector_eq hsectors hlt hm8).1, (slotSector_eq hsectors hlt hlt8).1]
      omega

theorem Exact.runOut {call call' : SwapOut} (h : Exact ⟨c, .leaving page call ::ₘ l⟩)
    (hs : swapOutStep page c call = some (.ok (c', call'))) :
    Exact ⟨c', .leaving page call' ::ₘ l⟩ := by
  have hholds := h.holds _ (Multiset.mem_cons_self ..)
  cases call with
  | acquire =>
    simp only [swapOutStep, Option.ite_none_left_eq_some, Option.some.injEq, Except.ok.injEq,
      Prod.mk.injEq] at hs
    obtain ⟨hheld, rfl, rfl⟩ := hs
    refine h.quiet rfl rfl rfl ?_ rfl ?_
    · rw [(Bool.not_eq_true _).mp hheld]
      rfl
    · obtain ⟨k, hk, hfree⟩ := h.free_slot rfl rfl
      exact ⟨k, Nat.zero_le k, hk, hfree⟩
  | scan i =>
    obtain ⟨k, hik, hk, hfree⟩ := hholds
    dsimp only at hk hfree
    rw [swapOutStep, if_pos (Nat.lt_of_le_of_lt hik hk)] at hs
    simp only [Option.some.injEq, Except.ok.injEq, Prod.mk.injEq] at hs
    obtain ⟨rfl, rfl⟩ := hs
    cases hi : c.bitmap.test i with
    | true =>
      rw [if_pos rfl]
      have hne : k ≠ i := by
        rintro rfl
        rw [hfree] at hi
        cases hi
      exact h.quiet rfl rfl rfl rfl rfl ⟨k, Nat.lt_of_le_of_ne hik hne.symm, hk, hfree⟩
    | false =>
      rw [if_neg Bool.false_ne_true]
      exact h.takeSlot (Nat.lt_of_le_of_lt hik hk) hi
  | mark index =>
    have hlt : index < c.bitmap.bitCnt := hholds.1
    rw [swapOutStep, if_pos hlt] at hs
    simp only [Option.some.injEq, Except.ok.injEq, Prod.mk.injEq] at hs
    obtain ⟨rfl, rfl⟩ := hs
    exact h.markSlot
  | release index =>
    simp only [swapOutStep, Option.some.injEq, Except.ok.injEq, Prod.mk.injEq] at hs
    obtain ⟨rfl, rfl⟩ := hs
    exact h.giveLock
  | write index i =>
    obtain ⟨hlt, hmark, hi, hw⟩ := hholds
    have hsize := h.size
    dsimp only at hlt hmark hw hsize
    rw [swapOutStep] at hs
    split at hs
    · next hlt8 =>
      rw [blockWrite_ok (slotSector_eq h.sectors (hsize ▸ hlt) hlt8).2] at hs
      simp only [Except.map, Option.some.injEq, Except.ok.injEq, Prod.mk.injEq] at hs
      obtain ⟨rfl, rfl⟩ := hs
      exact h.writePart hlt8
    · next hge =>
      simp only [Option.some.injEq, Except.ok.injEq, Prod.mk.injEq] at hs
      obtain ⟨rfl, rfl⟩ := hs
      refine h.quiet rfl rfl rfl rfl rfl ⟨hlt, hmark, fun m hm => hw m ?_⟩
      omega
  | done index => cases hs

/-! ## `swap_in` -/

/-- `swap_in` reads its page back sector by sector, and gives up the slot when it has it all. -/
theorem Exact.runIn {call call' : SwapIn} (h : Exact ⟨c, .coming page index call ::ₘ l⟩)
    (hs : swapInStep index c call = some (.ok (c', call'))) :
    Exact ⟨c', .coming page index call' ::ₘ l⟩ := by
  have hholds := h.holds _ (Multiset.mem_cons_self ..)
  have hsize := h.size
  have hsectors := h.sectors
  dsimp only at hsize hsectors
  cases call with
  | read i frame =>
    obtain ⟨hkept, hi, hr⟩ := hholds
    dsimp only at hkept
    have hlt := hkept.lt
    rw [hsize] at hlt
    rw [swapInStep] at hs
    split at hs
    · next hlt8 =>
      rw [blockRead_ok (slotSector_eq hsectors hlt hlt8).2] at hs
      simp only [Except.map, Option.some.injEq, Except.ok.injEq, Prod.mk.injEq] at hs
      obtain ⟨rfl, rfl⟩ := hs
      refine h.quiet rfl rfl rfl rfl rfl ⟨hkept, hlt8, fun m hm => ?_⟩
      by_cases hmi : m = i
      · rw [hmi, part_setPart_self hlt8, hkept.holds i hlt8]
      · rw [part_setPart_ne (by omega) hmi, hr m (by omega)]
    · next hge =>
      simp only [Option.some.injEq, Except.ok.injEq, Prod.mk.injEq] at hs
      obtain ⟨rfl, rfl⟩ := hs
      exact h.quiet rfl rfl rfl rfl rfl ⟨hkept, ext_part fun m hm => hr m (by omega)⟩
  | flip frame =>
    obtain ⟨hkept, rfl⟩ := hholds
    dsimp only at hkept
    simp only [swapInStep, Option.some.injEq, Except.ok.injEq, Prod.mk.injEq] at hs
    obtain ⟨rfl, rfl⟩ := hs
    have hlt := hkept.lt
    have honce := h.once
    have howned := h.owned
    dsimp only at honce howned
    rw [slots_cons_some (i := index) rfl] at honce howned
    rw [hkept.marked, Bool.not_true]
    refine h.replace rfl rfl rfl rfl ?_ (fun j hj ht => ?_) (fun b hb j hj => ?_)
      (fun _ _ _ k hk => ?_) rfl
    · rw [slots_cons_none rfl]
      exact (Multiset.nodup_cons.mp honce).2
    · dsimp only at ht
      rw [Bitmap.test_set hlt] at ht
      split at ht
      · cases ht
      · next hj' =>
        rw [slots_cons_none rfl]
        exact (Multiset.mem_cons.mp (howned j hj ht)).resolve_left hj'
    · refine ⟨?_, fun _ _ => rfl⟩
      rw [Bitmap.test_set hlt, if_neg (h.slot_ne rfl hb hj)]
    · rw [Bitmap.test_set hlt]
      split
      · rfl
      · exact hk
  | done frame => cases hs

/-! ## Every run -/

theorem Exact.swapOut (h : Exact ⟨c, l⟩) (hfits : outstanding ⟨c, l⟩ < c.bitmap.bitCnt) :
    Exact ⟨c, .leaving page .acquire ::ₘ l⟩ where
  size := h.size
  sectors := h.sectors
  fits := by
    rw [outstanding_cons]
    exact hfits
  once := by
    rw [slots_cons_none rfl]
    exact h.once
  owned j hj ht := by
    rw [slots_cons_none rfl]
    exact h.owned j hj ht
  alone := by
    rw [countP_critical_cons]
    exact (Nat.zero_add _).trans h.alone
  holds b hb := by
    obtain rfl | hb := Multiset.mem_cons.mp hb
    · trivial
    · exact h.holds b hb

theorem Exact.returnIn (h : Exact ⟨c, .coming page index (.done frame) ::ₘ l⟩) :
    Exact ⟨c, l⟩ where
  size := h.size
  sectors := h.sectors
  fits := by
    have hfits := h.fits
    rwa [outstanding_cons] at hfits
  once := by
    have honce := h.once
    rwa [slots_cons_none rfl] at honce
  owned j hj ht := by
    have howned := h.owned j hj ht
    rwa [slots_cons_none rfl] at howned
  alone := by
    have hone := h.alone
    rw [countP_critical_cons] at hone
    exact (Nat.zero_add _).symm.trans hone
  holds b hb := h.holds b (Multiset.mem_cons_of_mem hb)

theorem Exact.step (h : Exact s) (hs : Step s s') : Exact s' := by
  cases hs with
  | swapOut page hfits => exact h.swapOut hfits
  | runOut hs => exact h.runOut hs
  | @returnOut c l page index =>
    have hkept : c.Kept page index := h.holds _ (Multiset.mem_cons_self ..)
    exact h.quiet rfl rfl rfl rfl rfl hkept
  | @swapIn c l page index frame =>
    have hkept : c.Kept page index := h.holds _ (Multiset.mem_cons_self ..)
    exact h.quiet rfl rfl rfl rfl rfl ⟨hkept, Nat.zero_le _, nofun⟩
  | runIn hs => exact h.runIn hs
  | returnIn => exact h.returnIn

theorem Reachable.exact (h : Reachable s) : Exact s := by
  induction h with
  | init block h =>
    refine ⟨rfl, h, Nat.zero_le _, Multiset.nodup_zero, fun i _ ht => ?_, rfl, fun a ha => ?_⟩
    · rw [swapInit, Bitmap.test_create] at ht
      cases ht
    · cases ha
  | step _ hs ih => exact ih.step hs

/-- What the callers of `swap_out` and `swap_in` rely on. -/
structure Faithful (s : Swapping) : Prop where
  /-- Two outstanding pages share neither a slot nor a sector. -/
  apart : ∀ a b l, s.pages = a ::ₘ b ::ₘ l → ∀ i j, a.slot = some i → b.slot = some j →
    i ≠ j ∧ ∀ m < sectorsPerPage, ∀ n < sectorsPerPage, slotSector i m ≠ slotSector j n
  /-- A page that is out is in its slot, whatever else is going on. -/
  kept : ∀ page index, .out page index ∈ s.pages →
    ∀ m < sectorsPerPage, s.swap.block.sectors (slotSector index m) = part page m
  /-- `swap_in` has filled its page with what was given to `swap_out`. -/
  back : ∀ page index frame, .coming page index (.done frame) ∈ s.pages → frame = page
  /-- `swap_in` never waits and never faults. -/
  comes : ∀ page index call, .coming page index call ∈ s.pages →
    (Outstanding.coming page index call).returned = false →
      ∃ r, swapInStep index s.swap call = some (.ok r)
  /-- `swap_out` waits for `swap_lock` only, and never faults. -/
  goes : ∀ page call, .leaving page call ∈ s.pages →
    (∃ r, swapOutStep page s.swap call = some (.ok r)) ∨ (∃ index, call = .done index) ∨
      call = .acquire ∧ s.swap.lockHeld = true
  /-- A slot is free, or the slot of an outstanding page. -/
  marked : ∀ i < s.swap.bitmap.bitCnt, s.swap.bitmap.test i = true →
    ∃ a ∈ s.pages, a.slot = some i

theorem Exact.goes {call : SwapOut} (h : Exact s) (ha : .leaving page call ∈ s.pages) :
    (∃ r, swapOutStep page s.swap call = some (.ok r)) ∨ (∃ index, call = .done index) ∨
      call = .acquire ∧ s.swap.lockHeld = true := by
  have hholds := h.holds _ ha
  cases call with
  | acquire =>
    cases hheld : s.swap.lockHeld with
    | true => exact .inr (.inr ⟨rfl, rfl⟩)
    | false => exact .inl ⟨_, if_neg (by rw [hheld]; exact Bool.false_ne_true)⟩
  | scan i =>
    obtain ⟨k, hik, hk, -⟩ := hholds
    exact .inl ⟨_, if_pos (Nat.lt_of_le_of_lt hik hk)⟩
  | mark index => exact .inl ⟨_, if_pos hholds.1⟩
  | release index => exact .inl ⟨_, rfl⟩
  | write index i =>
    have hlt := hholds.1
    rw [h.size] at hlt
    refine .inl ?_
    rw [swapOutStep]
    split
    · next hlt8 =>
      rw [blockWrite_ok (slotSector_eq h.sectors hlt hlt8).2]
      exact ⟨_, rfl⟩
    · exact ⟨_, rfl⟩
  | done index => exact .inr (.inl ⟨index, rfl⟩)

theorem Exact.comes {call : SwapIn} (h : Exact s) (ha : .coming page index call ∈ s.pages)
    (hret : (Outstanding.coming page index call).returned = false) :
    ∃ r, swapInStep index s.swap call = some (.ok r) := by
  have hholds := h.holds _ ha
  cases call with
  | read i frame =>
    have hlt := hholds.1.lt
    rw [h.size] at hlt
    rw [swapInStep]
    split
    · next hlt8 =>
      rw [blockRead_ok (slotSector_eq h.sectors hlt hlt8).2]
      exact ⟨_, rfl⟩
    · exact ⟨_, rfl⟩
  | flip frame => exact ⟨_, rfl⟩
  | done frame => cases hret

/-! ## Calls that are left alone come to their end -/

/-- A bound on the steps that a call of `swap_in` has left. -/
def steps : SwapIn → Nat
  | .read i _ => sectorsPerPage - i + 2
  | .flip _ => 1
  | .done _ => 0

theorem Reachable.brings {call : SwapIn} (h : Reachable ⟨c, .coming page index call ::ₘ l⟩) :
    ∃ c', Reachable ⟨c', .coming page index (.done page) ::ₘ l⟩ := by
  induction hn : steps call using Nat.strong_induction_on generalizing c call with
  | _ n ih =>
    subst hn
    cases hret : (Outstanding.coming page index call).returned with
    | true =>
      cases call with
      | done frame =>
        obtain rfl : frame = page := h.exact.holds _ (Multiset.mem_cons_self ..)
        exact ⟨c, h⟩
      | _ => cases hret
    | false =>
      obtain ⟨⟨c', call'⟩, hs⟩ := h.exact.comes (Multiset.mem_cons_self ..) hret
      refine ih (steps call') ?_ (h.step (.runIn hs)) rfl
      cases call with
      | read i frame =>
        rw [swapInStep] at hs
        split at hs
        · next hlt8 =>
          cases hb : blockRead c.block (slotSector index i) with
          | error e => rw [hb] at hs; cases hs
          | ok b =>
            rw [hb] at hs
            cases hs
            simp only [steps]
            omega
        · cases hs
          simp only [steps]
          omega
      | flip frame =>
        cases hs
        exact Nat.zero_lt_one
      | done frame => cases hs

/-! ## The bytes that come back -/

/-- Whatever calls of `swap_out` and `swap_in` are mixed, and however, each page comes back as it
was. When `swap_in` has cleared its mark, the slot is no page's any more. A `swap_in` that runs on
comes to its end. -/
theorem swap_faithful (h : Reachable s) : Faithful s ∧
    (∀ page index frame l, s.pages = .coming page index (.flip frame) ::ₘ l →
      ∃ c, swapInStep index s.swap (.flip frame) = some (.ok (c, .done page)) ∧
        c.block = s.swap.block ∧ (∀ k, c.bitmap.test k = (s.swap.bitmap.test k && k != index)) ∧
          ∀ a ∈ l, a.slot ≠ some index) ∧
    ∀ page index call l, s.pages = .coming page index call ::ₘ l →
      ∃ c, Reachable ⟨c, .coming page index (.done page) ::ₘ l⟩ := by
  have he := h.exact
  refine ⟨⟨fun a b l hs i j hi hj => ?_, fun page index ha => (he.holds _ ha).holds,
    fun page index frame ha => he.holds _ ha, fun page index call ha => he.comes ha,
    fun page call ha => he.goes ha, fun i hi ht => mem_slots.mp (he.owned i hi ht)⟩,
    fun page index frame l hs => ?_, fun page index call l hs => ?_⟩
  · obtain ⟨c, pages⟩ := s
    cases hs
    have hne : j ≠ i := he.slot_ne hi (Multiset.mem_cons_self b l) hj
    have hi8 := (he.holds a (Multiset.mem_cons_self ..)).slot_lt hi
    have hj8 := (he.holds b (Multiset.mem_cons_of_mem (Multiset.mem_cons_self ..))).slot_lt hj
    rw [he.size] at hi8 hj8
    exact ⟨hne.symm, fun m hm n hn => slotSector_ne he.sectors hi8 hj8 hne.symm hm hn⟩
  · obtain ⟨c, pages⟩ := s
    cases hs
    obtain ⟨hkept, rfl⟩ := he.holds _ (Multiset.mem_cons_self ..)
    refine ⟨_, rfl, rfl, fun k => ?_, fun a ha hslot => he.slot_ne rfl ha hslot rfl⟩
    rw [hkept.marked, Bitmap.test_set hkept.lt]
    split
    · next hk => simp [hk]
    · next hk => simp [hk]
  · obtain ⟨c, pages⟩ := s
    cases hs
    exact h.brings

theorem Reachable.swap {b : Outstanding} (h : Reachable ⟨c, a ::ₘ b ::ₘ l⟩) :
    Reachable ⟨c, b ::ₘ a ::ₘ l⟩ :=
  Multiset.cons_swap a b l ▸ h

/-- A page that is not what the swap block or a new frame holds. -/
def ones : Page := Bytes.tabulate fun _ => 1

/-- A page comes back to a frame of zeros while a second one looks for a slot. -/
theorem swap_faithful_two : ∃ s, (∃ index, .coming ones index (.done ones) ∈ s.pages) ∧
    s.pages.card = 2 ∧ Faithful s := by
  have hboot := Reachable.init (Disk.blank 16) (by decide)
  have hslot := (((hboot.step (.swapOut ones (by decide))).step (.runOut rfl)).step
    (.runOut rfl)).step (.runOut rfl)
  have hfour := ((((hslot.step (.runOut rfl)).step (.runOut rfl)).step (.runOut rfl)).step
    (.runOut rfl)).step (.runOut rfl)
  have hout := (((((hfour.step (.runOut rfl)).step (.runOut rfl)).step (.runOut rfl)).step
    (.runOut rfl)).step (.runOut rfl)).step .returnOut
  have hnext := ((hout.step (.swapOut Bytes.zeros (by decide))).step (.runOut rfl)).swap
  obtain ⟨c, hback⟩ := (hnext.step (.swapIn Bytes.zeros)).brings
  have hmem := Multiset.mem_cons_self (Outstanding.coming ones 0 (.done ones))
    (Outstanding.leaving Bytes.zeros (.scan 0) ::ₘ 0)
  exact ⟨_, ⟨_, hmem⟩, rfl, (swap_faithful hback).1⟩

end Swapping

end Pintos.Vm
