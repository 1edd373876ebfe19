import Mathlib.Tactic.Common

/-!
# Memory as bytes

A memory has a byte at every address. `word` and `setWord` are the accesses of 32 bits, the low byte
first; `fill` and `copy` are `memset` and `memcpy`.

`Kept p m m'` says that from `m` to `m'` only bytes at addresses in `p` have changed.
-/

namespace Pintos.Logic

/-- The bytes of a memory, by address. -/
abbrev Ram : Type := Nat → UInt8

namespace Ram

variable {m m' m'' : Ram} {p q : Nat → Prop} {a b n v : Nat}

/-- The 32-bit word at `a`. -/
def word (m : Ram) (a : Nat) : Nat :=
  (m a).toNat + 256 * ((m (a + 1)).toNat + 256 * ((m (a + 2)).toNat + 256 * (m (a + 3)).toNat))

/-- The memory with the word `v` at `a`. -/
def setWord (m : Ram) (a v : Nat) : Ram := fun x =>
  if x = a then UInt8.ofNat v
  else if x = a + 1 then UInt8.ofNat (v / 256)
  else if x = a + 2 then UInt8.ofNat (v / 65536)
  else if x = a + 3 then UInt8.ofNat (v / 16777216)
  else m x

/-- `memset`. -/
def fill (m : Ram) (a n : Nat) (value : UInt8) : Ram := fun x =>
  if a ≤ x ∧ x < a + n then value else m x

/-- `memcpy`. -/
def copy (m : Ram) (dst src n : Nat) : Ram := fun x =>
  if dst ≤ x ∧ x < dst + n then m (src + (x - dst)) else m x

/-- The byte at `a` is written. -/
def put (m : Ram) (a : Nat) (value : UInt8) : Ram := fun x => if x = a then value else m x

/-- The addresses of `n` bytes from `a` on. -/
def Range (a n x : Nat) : Prop := a ≤ x ∧ x < a + n

/-- Only bytes in `p` have changed. -/
def Kept (p : Nat → Prop) (m m' : Ram) : Prop := ∀ x, ¬ p x → m' x = m x

theorem Kept.refl (p : Nat → Prop) (m : Ram) : Kept p m m := fun _ _ => rfl

theorem Kept.trans (h : Kept p m m') (h' : Kept p m' m'') : Kept p m m'' := fun x hx =>
  (h' x hx).trans (h x hx)

theorem Kept.mono (h : Kept p m m') (hpq : ∀ x, p x → q x) : Kept q m m' := fun x hx =>
  h x fun hp => hx (hpq x hp)

theorem kept_setWord (m : Ram) (a v : Nat) : Kept (Range a 4) m (m.setWord a v) := by
  intro x hx
  have : ¬ (a ≤ x ∧ x < a + 4) := hx
  rw [setWord, if_neg (by omega), if_neg (by omega), if_neg (by omega), if_neg (by omega)]

theorem kept_fill (m : Ram) (a n : Nat) (value : UInt8) : Kept (Range a n) m (m.fill a n value) :=
  fun _ hx => if_neg hx

theorem kept_copy (m : Ram) (dst src n : Nat) : Kept (Range dst n) m (m.copy dst src n) :=
  fun _ hx => if_neg hx

theorem kept_put (m : Ram) (a : Nat) (value : UInt8) : Kept (Range a 1) m (m.put a value) :=
  fun x hx => if_neg fun he => hx ⟨by omega, by omega⟩

theorem word_setWord (hv : v < 4294967296) : (m.setWord a v).word a = v := by
  simp only [word, setWord, if_true, if_neg (show ¬ a + 1 = a by omega),
    if_neg (show ¬ a + 2 = a by omega), if_neg (show ¬ a + 2 = a + 1 by omega),
    if_neg (show ¬ a + 3 = a by omega), if_neg (show ¬ a + 3 = a + 1 by omega),
    if_neg (show ¬ a + 3 = a + 2 by omega), UInt8.toNat_ofNat']
  omega

/-- A word none of whose bytes has changed is the same. -/
theorem Kept.word (h : Kept p m m') (hp : ∀ x, Range a 4 x → ¬ p x) : m'.word a = m.word a := by
  simp only [Ram.word]
  rw [h a (hp a ⟨by omega, by omega⟩), h (a + 1) (hp _ ⟨by omega, by omega⟩),
    h (a + 2) (hp _ ⟨by omega, by omega⟩), h (a + 3) (hp _ ⟨by omega, by omega⟩)]

/-- A word that is read is the one written there before. -/
theorem word_setWord_of_ne (h : b + 4 ≤ a ∨ a + 4 ≤ b) : (m.setWord a v).word b = m.word b :=
  (kept_setWord m a v).word fun x hx hx' => by
    obtain ⟨h1, h2⟩ := hx
    obtain ⟨h3, h4⟩ := hx'
    omega

end Ram

end Pintos.Logic
