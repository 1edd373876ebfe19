import Mathlib.Data.List.Basic
import Mathlib.Tactic.Common
import Mathlib.Algebra.GroupWithZero.Nat

/-!
# Fixed-size byte records

A record of `n` bytes with the two views a C program takes of it: an array of bytes
(`byte`, `splice`) and an array of little-endian 32-bit words (`word`, `setWord`).
Out of bounds a read gives `0` and a write does nothing.
-/

namespace Pintos.Logic

/-- A record of `n` bytes. -/
abbrev Bytes (n : Nat) : Type := Fin n → UInt8

namespace Bytes

variable {n : Nat}

/-! ## Bytes -/

/-- The byte at position `k`. -/
def byte (b : Bytes n) (k : Nat) : UInt8 :=
  if h : k < n then b ⟨k, h⟩ else 0

/-- The record whose byte at `k` is `f k`. -/
def tabulate (f : Nat → UInt8) : Bytes n := fun i => f i

/-- The record of zeros. -/
def zeros : Bytes n := fun _ => 0

@[simp] theorem byte_tabulate {f : Nat → UInt8} {k : Nat} (h : k < n) :
    (tabulate f : Bytes n).byte k = f k := by
  simp [byte, tabulate, h]

theorem byte_of_le {b : Bytes n} {k : Nat} (h : n ≤ k) : b.byte k = 0 := by
  simp [byte, Nat.not_lt.mpr h]

@[simp] theorem byte_zeros (k : Nat) : (zeros : Bytes n).byte k = 0 := by
  simp [byte, zeros]

/-- Records with the same bytes are equal. -/
theorem ext_byte {a b : Bytes n} (h : ∀ k < n, a.byte k = b.byte k) : a = b := by
  funext ⟨k, hk⟩
  simpa [byte, hk] using h k hk

/-- The record with `len` bytes from `ofs` on replaced by those of `src`. -/
def splice (b : Bytes n) (ofs len : Nat) (src : Nat → UInt8) : Bytes n :=
  tabulate fun k => if ofs ≤ k ∧ k < ofs + len then src (k - ofs) else b.byte k

theorem byte_splice (b : Bytes n) (ofs len : Nat) (src : Nat → UInt8) {k : Nat} (h : k < n) :
    (b.splice ofs len src).byte k
      = if ofs ≤ k ∧ k < ofs + len then src (k - ofs) else b.byte k := by
  rw [splice, byte_tabulate h]

theorem splice_zero (b : Bytes n) (ofs : Nat) (src : Nat → UInt8) : b.splice ofs 0 src = b := by
  refine ext_byte fun k hk => ?_
  rw [byte_splice _ _ _ _ hk, if_neg fun hc => Nat.not_lt.mpr hc.1 hc.2]

/-- Replacing all bytes of a record leaves nothing of it. -/
theorem splice_all (b : Bytes n) {len : Nat} (h : n ≤ len) (src : Nat → UInt8) :
    b.splice 0 len src = tabulate src := by
  refine ext_byte fun k hk => ?_
  rw [byte_splice _ _ _ _ hk, if_pos ⟨by omega, by omega⟩, byte_tabulate hk, Nat.sub_zero]

/-- The `len` bytes from `ofs` on. -/
def slice (b : Bytes n) (ofs len : Nat) : List UInt8 :=
  (List.range len).map fun k => b.byte (ofs + k)

/-! ## Little-endian words -/

/-- The byte at position `k` of the little-endian form of `v`. -/
def leByte (v k : Nat) : UInt8 := UInt8.ofNat (v / 256 ^ k)

/-- The number with the four little-endian bytes `f 0`, …, `f 3`. -/
def leNat (f : Nat → UInt8) : Nat :=
  (f 0).toNat + 256 * (f 1).toNat + 65536 * (f 2).toNat + 16777216 * (f 3).toNat

/-- The bytes of a 32-bit number give it back. -/
theorem leNat_leByte {v : Nat} (h : v < 4294967296) : leNat (leByte v) = v := by
  simp only [leNat, leByte, UInt8.toNat_ofNat', Nat.reducePow]
  omega

/-- The word at index `i`. -/
def word (b : Bytes n) (i : Nat) : Nat := leNat fun k => b.byte (4 * i + k)

/-- The record with the word at index `i` replaced by `v`. -/
def setWord (b : Bytes n) (i v : Nat) : Bytes n :=
  tabulate fun k => if k / 4 = i then leByte v (k % 4) else b.byte k

@[simp] theorem word_zeros (i : Nat) : (zeros : Bytes n).word i = 0 := by
  simp [word, leNat]

theorem byte_setWord (b : Bytes n) (i v : Nat) {k : Nat} (h : k < n) :
    (b.setWord i v).byte k = if k / 4 = i then leByte v (k % 4) else b.byte k := by
  rw [setWord, byte_tabulate h]

theorem word_setWord_self (b : Bytes n) {i v : Nat} (hi : 4 * i + 4 ≤ n)
    (hv : v < 4294967296) : (b.setWord i v).word i = v := by
  conv => rhs; rw [← leNat_leByte hv]
  have h : ∀ k < 4, (b.setWord i v).byte (4 * i + k) = leByte v k := by
    intro k hk
    rw [byte_setWord _ _ _ (by omega), if_pos (by omega), show (4 * i + k) % 4 = k by omega]
  simp only [word, leNat, h 0 (by omega), h 1 (by omega), h 2 (by omega), h 3 (by omega)]

theorem word_setWord_ne (b : Bytes n) {i j v : Nat} (h : j ≠ i) :
    (b.setWord i v).word j = b.word j := by
  have hb : ∀ k < 4, (b.setWord i v).byte (4 * j + k) = b.byte (4 * j + k) := by
    intro k hk
    by_cases hn : 4 * j + k < n
    · rw [byte_setWord _ _ _ hn, if_neg (by omega)]
    · rw [byte_of_le (by omega), byte_of_le (by omega)]
  simp only [word, leNat, hb 0 (by omega), hb 1 (by omega), hb 2 (by omega), hb 3 (by omega)]

theorem word_setWord (b : Bytes n) {i j v : Nat} (hi : 4 * i + 4 ≤ n) (hv : v < 4294967296) :
    (b.setWord i v).word j = if j = i then v else b.word j := by
  split
  · next h => rw [h]; exact word_setWord_self b hi hv
  · next h => exact word_setWord_ne b h

/-- The bytes of a 32-bit number are those it was made of. -/
theorem leByte_leNat (f : Nat → UInt8) {k : Nat} (hk : k < 4) : leByte (leNat f) k = f k := by
  have h0 := (f 0).toNat_lt
  have h1 := (f 1).toNat_lt
  have h2 := (f 2).toNat_lt
  have h3 := (f 3).toNat_lt
  refine UInt8.toNat_inj.mp ?_
  have hk : k = 0 ∨ k = 1 ∨ k = 2 ∨ k = 3 := by omega
  rcases hk with rfl | rfl | rfl | rfl <;>
    simp only [leNat, leByte, UInt8.toNat_ofNat', Nat.reducePow] <;> omega

/-- Replacing a word by itself changes nothing. -/
theorem setWord_word (b : Bytes n) (i : Nat) : b.setWord i (b.word i) = b := by
  refine ext_byte fun k hk => ?_
  rw [byte_setWord _ _ _ hk]
  split
  · next h =>
    rw [word, leByte_leNat _ (Nat.mod_lt _ (by decide)), ← h, Nat.div_add_mod]
  · rfl

end Bytes

end Pintos.Logic
