import Mathlib.Data.List.Basic
import Mathlib.Tactic.Common

/-!
# Bitmaps

`lib/kernel/bitmap.c`. A bitmap of `bitCnt` bits is stored in whole elements of 32 bits,
so up to 31 bits past the last one are stored, and written to files, without ever being
tested or set.
-/

namespace Pintos.Lib

/-- `ELEM_BITS`. -/
abbrev elemBits : Nat := 32

/-- `elem_cnt`: the number of elements for `bitCnt` bits. -/
def elemCnt (bitCnt : Nat) : Nat := (bitCnt + elemBits - 1) / elemBits

/-- `byte_cnt`: the number of bytes for `bitCnt` bits. -/
def byteCnt (bitCnt : Nat) : Nat := 4 * elemCnt bitCnt

/-- `struct bitmap`. The list holds the bits of all elements, the unused ones included. -/
structure Bitmap where
  bitCnt : Nat
  bits : List Bool
  length_bits : bits.length = elemBits * elemCnt bitCnt

namespace Bitmap

variable {b : Bitmap}

theorem bitCnt_le_length (b : Bitmap) : b.bitCnt ≤ b.bits.length := by
  rw [b.length_bits, elemCnt, elemBits]
  omega

/-- `bitmap_create`. -/
def create (bitCnt : Nat) : Bitmap where
  bitCnt
  bits := List.replicate (elemBits * elemCnt bitCnt) false
  length_bits := List.length_replicate

/-- `bitmap_test`. -/
def test (b : Bitmap) (idx : Nat) : Bool := b.bits.getD idx false

/-- `bitmap_set`. -/
def set (b : Bitmap) (idx : Nat) (value : Bool) : Bitmap where
  bitCnt := b.bitCnt
  bits := b.bits.set idx value
  length_bits := by rw [List.length_set, b.length_bits]

/-- `bitmap_set_multiple`. -/
def setMultiple (b : Bitmap) (start : Nat) : (cnt : Nat) → (value : Bool) → Bitmap
  | 0, _ => b
  | cnt + 1, value => (b.setMultiple start cnt value).set (start + cnt) value

/-- `bitmap_contains`. -/
def contains (b : Bitmap) (start cnt : Nat) (value : Bool) : Bool :=
  (List.range cnt).any fun i => b.test (start + i) == value

/-- `bitmap_all`. -/
def all (b : Bitmap) (start cnt : Nat) : Bool := !b.contains start cnt false

/-- The loop of `bitmap_scan`: the first of the `n` groups from `i` on that fits. -/
def scanFrom (b : Bitmap) (cnt : Nat) (value : Bool) : (n i : Nat) → Option Nat
  | 0, _ => none
  | n + 1, i => if b.contains i cnt (!value) then b.scanFrom cnt value n (i + 1) else some i

/-- `bitmap_scan`, with `none` for `BITMAP_ERROR`. -/
def scan (b : Bitmap) (start cnt : Nat) (value : Bool) : Option Nat :=
  if cnt ≤ b.bitCnt then b.scanFrom cnt value (b.bitCnt - cnt + 1 - start) start else none

/-- `bitmap_scan_and_flip`: what `bitmap_scan` finds, and the bitmap after it. -/
def scanAndFlip (b : Bitmap) (start cnt : Nat) (value : Bool) : Option (Nat × Bitmap) :=
  (b.scan start cnt value).map fun idx => (idx, b.setMultiple idx cnt (!value))

/-- The bytes of the elements, as `bitmap_write` passes them to the file. -/
def toBytes (b : Bitmap) (k : Nat) : UInt8 :=
  UInt8.ofNat ((List.range 8).foldr (fun j n => 2 * n + (b.test (8 * k + j)).toNat) 0)

/-- The bitmap `bitmap_read` makes of the bytes it read, with the unused bits masked out. -/
def ofBytes (bitCnt : Nat) (f : Nat → UInt8) : Bitmap where
  bitCnt := bitCnt
  bits := (List.range (elemBits * elemCnt bitCnt)).map fun i =>
    decide (i < bitCnt) && (f (i / 8)).toNat.testBit (i % 8)
  length_bits := by simp

/-! ## One bit -/

@[simp] theorem bitCnt_set (idx : Nat) (value : Bool) : (b.set idx value).bitCnt = b.bitCnt := rfl

theorem test_set {idx : Nat} (h : idx < b.bitCnt) (value : Bool) (k : Nat) :
    (b.set idx value).test k = if k = idx then value else b.test k := by
  have hlt : idx < b.bits.length := Nat.lt_of_lt_of_le h b.bitCnt_le_length
  simp only [test, set, List.getD_eq_getElem?_getD, List.getElem?_set]
  by_cases hk : k = idx
  · rw [if_pos hk.symm, if_pos hlt, if_pos hk]
    rfl
  · rw [if_neg (Ne.symm hk), if_neg hk]

@[simp] theorem setMultiple_one (start : Nat) (value : Bool) :
    b.setMultiple start 1 value = b.set start value := rfl

@[simp] theorem all_one (idx : Nat) : b.all idx 1 = b.test idx := by
  simp [all, contains]

@[simp] theorem test_create (bitCnt k : Nat) : (create bitCnt).test k = false := by
  simp [test, create, List.getElem?_replicate]
  split <;> rfl

theorem scanFrom_one_some {n i k : Nat} (h : b.scanFrom 1 false n i = some k) :
    i ≤ k ∧ k < i + n ∧ b.test k = false := by
  induction n generalizing i with
  | zero => simp [scanFrom] at h
  | succ n ih =>
    rw [scanFrom] at h
    split at h
    · obtain ⟨h1, h2, h3⟩ := ih h
      exact ⟨by omega, by omega, h3⟩
    · next hc =>
      cases h
      refine ⟨Nat.le_refl _, by omega, ?_⟩
      simpa [contains] using hc

theorem scanFrom_one_none {n i : Nat} (h : b.scanFrom 1 false n i = none) :
    ∀ k, i ≤ k → k < i + n → b.test k = true := by
  induction n generalizing i with
  | zero => intro k h1 h2; omega
  | succ n ih =>
    rw [scanFrom] at h
    split at h
    · next hc =>
      intro k h1 h2
      by_cases hk : k = i
      · subst hk; simpa [contains] using hc
      · exact ih h k (by omega) (by omega)
    · cases h

/-- `bitmap_scan` for one clear bit finds one. -/
theorem scan_one_some {k : Nat} (h : b.scan 0 1 false = some k) :
    k < b.bitCnt ∧ b.test k = false := by
  rw [scan] at h
  split at h
  · obtain ⟨-, h2, h3⟩ := scanFrom_one_some h
    exact ⟨by omega, h3⟩
  · cases h

/-- `bitmap_scan` for one clear bit fails only if there is none. -/
theorem scan_one_none (h : b.scan 0 1 false = none) {k : Nat} (hk : k < b.bitCnt) :
    b.test k = true := by
  rw [scan, if_pos (by omega)] at h
  exact scanFrom_one_none h k (Nat.zero_le k) (by omega)

/-! ## Groups of bits -/

@[simp] theorem bitCnt_setMultiple (start cnt : Nat) (value : Bool) :
    (b.setMultiple start cnt value).bitCnt = b.bitCnt := by
  induction cnt with
  | zero => rfl
  | succ cnt ih => rw [setMultiple, bitCnt_set, ih]

theorem test_setMultiple {start cnt : Nat} (h : start + cnt ≤ b.bitCnt) (value : Bool) (k : Nat) :
    (b.setMultiple start cnt value).test k
      = if start ≤ k ∧ k < start + cnt then value else b.test k := by
  induction cnt with
  | zero => rw [setMultiple, if_neg (by omega)]
  | succ cnt ih =>
    rw [setMultiple, test_set (by rw [bitCnt_setMultiple]; omega), ih (by omega)]
    by_cases hk : k = start + cnt
    · rw [if_pos hk, if_pos (by omega)]
    · rw [if_neg hk]
      congr 1
      exact propext (by omega)

theorem contains_eq_false {start cnt : Nat} {value : Bool} :
    b.contains start cnt value = false ↔ ∀ k, start ≤ k → k < start + cnt → b.test k = !value := by
  simp only [contains, List.any_eq_false, List.mem_range, beq_iff_eq]
  constructor
  · intro h k h1 h2
    have := h (k - start) (by omega)
    rw [Nat.add_sub_cancel' h1] at this
    exact Bool.eq_not_of_ne this
  · intro h i hi he
    have := h (start + i) (by omega) (by omega)
    rw [he] at this
    cases value <;> cases this

theorem all_iff {start cnt : Nat} :
    b.all start cnt = true ↔ ∀ k, start ≤ k → k < start + cnt → b.test k = true := by
  rw [all, Bool.not_eq_true', contains_eq_false]
  rfl

/-- What `bitmap_scan` finds is a group inside of the bitmap. -/
theorem scan_some {cnt idx : Nat} {value : Bool} (h : b.scan 0 cnt value = some idx) :
    idx + cnt ≤ b.bitCnt ∧ ∀ k, idx ≤ k → k < idx + cnt → b.test k = value := by
  have key : ∀ n i, b.scanFrom cnt value n i = some idx →
      idx < i + n ∧ ∀ k, idx ≤ k → k < idx + cnt → b.test k = value := by
    intro n
    induction n with
    | zero => intro i h; cases h
    | succ n ih =>
      intro i h
      rw [scanFrom] at h
      cases hc : b.contains i cnt (!value) with
      | true =>
        rw [if_pos hc] at h
        exact ⟨by have := (ih _ h).1; omega, (ih _ h).2⟩
      | false =>
        rw [hc, if_neg Bool.false_ne_true] at h
        obtain rfl := Option.some.inj h
        exact ⟨by omega, by simpa using contains_eq_false.mp hc⟩
  rw [scan] at h
  by_cases hcnt : cnt ≤ b.bitCnt
  · rw [if_pos hcnt] at h
    exact ⟨by have := (key _ _ h).1; omega, (key _ _ h).2⟩
  · rw [if_neg hcnt] at h
    cases h

/-! ## The bytes of a bitmap -/

theorem testBit_foldr_range (f : Nat → Bool) : ∀ n j,
    ((List.range n).foldr (fun j n => 2 * n + (f j).toNat) 0).testBit j
      = (decide (j < n) && f j) := by
  have key : ∀ (n i j : Nat),
      ((List.range' i n).foldr (fun j n => 2 * n + (f j).toNat) 0).testBit j
        = (decide (j < n) && f (i + j)) := by
    intro n
    induction n with
    | zero => simp
    | succ n ih =>
      intro i j
      rw [List.range'_succ, List.foldr_cons]
      cases j with
      | zero => cases f i <;> simp
      | succ j =>
        have hdiv : ∀ m : Nat, (2 * m + (f i).toNat) / 2 = m := by
          intro m; cases f i <;> simp; omega
        rw [Nat.testBit_succ, hdiv, ih (i + 1) j]
        simp [Nat.add_assoc, Nat.add_comm 1 j]
  intro n j
  simpa [List.range_eq_range'] using key n 0 j

/-- A bitmap read back from its own bytes has the same bits. -/
theorem test_ofBytes_toBytes (f : Nat → UInt8) (hf : ∀ k < byteCnt b.bitCnt, f k = b.toBytes k)
    {i : Nat} (hi : i < b.bitCnt) : (ofBytes b.bitCnt f).test i = b.test i := by
  have hlen : i < elemBits * elemCnt b.bitCnt := by
    rw [← b.length_bits]; exact Nat.lt_of_lt_of_le hi b.bitCnt_le_length
  have hk : i / 8 < byteCnt b.bitCnt := by
    rw [byteCnt]; simp only [elemBits] at hlen; omega
  have hfold : (List.range 8).foldr (fun j n => 2 * n + (b.test (8 * (i / 8) + j)).toNat) 0
      < 256 := by
    refine Nat.lt_pow_two_of_testBit (n := 8) _ fun j hj => ?_
    rw [testBit_foldr_range (fun j => b.test (8 * (i / 8) + j))]
    simp [Nat.not_lt.mpr hj]
  simp only [ofBytes, test, List.getD_eq_getElem?_getD, List.getElem?_map,
    List.getElem?_range hlen, Option.map_some, Option.getD_some, hi, decide_true, Bool.true_and]
  rw [hf _ hk, toBytes, UInt8.toNat_ofNat', Nat.mod_eq_of_lt (by simpa using hfold),
    testBit_foldr_range (fun j => b.test (8 * (i / 8) + j))]
  have : i % 8 < 8 := Nat.mod_lt _ (by decide)
  simp only [this, decide_true, Bool.true_and, Nat.div_add_mod, test, List.getD_eq_getElem?_getD]

end Bitmap

end Pintos.Lib
