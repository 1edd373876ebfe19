import Mathlib.Logic.Function.Basic

/-!
# Slots and their owners

A map says which slots are taken, and each owner has at most one. In a ledger every slot that is
taken has exactly one owner. A slot is given out, handed on or given back, and nothing else happens.

* `Ledger.grab`, `Ledger.hand`, `Ledger.drop` — the three ways in which a ledger changes.
-/

namespace Pintos.Logic

variable {α : Type} {taken : Nat → Bool} {owns owns' : α → Option Nat} {x y : α} {i : Nat}

/-- Every slot that is taken has one owner. -/
structure Ledger (taken : Nat → Bool) (owns : α → Option Nat) : Prop where
  taken_iff : ∀ i, taken i = true ↔ ∃ x, owns x = some i
  once : ∀ x y i, owns x = some i → owns y = some i → x = y

theorem Ledger.empty : Ledger (fun _ => false) fun _ : α => none :=
  ⟨fun _ => iff_of_false Bool.false_ne_true nofun, nofun⟩

theorem Ledger.taken_of_owns (h : Ledger taken owns) (hx : owns x = some i) : taken i = true :=
  (h.taken_iff i).mpr ⟨x, hx⟩

/-- A slot that is free goes to an owner that has none. -/
theorem Ledger.grab (h : Ledger taken owns) (hfree : taken i = false) (hnone : owns x = none)
    (hx : owns' x = some i) (hother : ∀ y, y ≠ x → owns' y = owns y) :
    Ledger (Function.update taken i true) owns' := by
  have hne : ∀ y, owns y ≠ some i := fun y hy => by
    rw [h.taken_of_owns hy] at hfree
    cases hfree
  refine ⟨fun j => ?_, fun y z j hy hz => ?_⟩
  · by_cases hj : j = i
    · subst hj
      exact iff_of_true (Function.update_self ..) ⟨x, hx⟩
    · rw [Function.update_of_ne hj, h.taken_iff]
      constructor
      · rintro ⟨y, hy⟩
        have hyx : y ≠ x := by
          rintro rfl
          cases hnone.symm.trans hy
        exact ⟨y, (hother y hyx).trans hy⟩
      · rintro ⟨y, hy⟩
        have hyx : y ≠ x := by
          rintro rfl
          exact hj (Option.some.inj (hy.symm.trans hx))
        exact ⟨y, (hother y hyx).symm.trans hy⟩
  · by_cases hyx : y = x
    · by_cases hzx : z = x
      · rw [hyx, hzx]
      · rw [hyx, hx] at hy
        rw [hother z hzx] at hz
        exact absurd (hy ▸ hz) (hne z)
    · rw [hother y hyx] at hy
      by_cases hzx : z = x
      · rw [hzx, hx] at hz
        exact absurd (hz ▸ hy) (hne y)
      · rw [hother z hzx] at hz
        exact h.once y z j hy hz

/-- An owner hands its slot on to one that has none. -/
theorem Ledger.hand (h : Ledger taken owns) (hxy : x ≠ y) (hi : owns x = some i)
    (hnone : owns y = none) (hx : owns' x = none) (hy : owns' y = some i)
    (hother : ∀ z, z ≠ x → z ≠ y → owns' z = owns z) : Ledger taken owns' := by
  -- Who has the slot `j` afterwards had it before, or is `y` and has that of `x`.
  have hold : ∀ z j, owns' z = some j → (z = y ∧ j = i) ∨ (z ≠ y ∧ z ≠ x ∧ owns z = some j) := by
    intro z j hz
    by_cases hzy : z = y
    · subst hzy
      exact .inl ⟨rfl, Option.some.inj (hz.symm.trans hy)⟩
    · have hzx : z ≠ x := by
        rintro rfl
        cases hx.symm.trans hz
      exact .inr ⟨hzy, hzx, (hother z hzx hzy).symm.trans hz⟩
  refine ⟨fun j => ?_, fun z w j hz hw => ?_⟩
  · rw [h.taken_iff]
    constructor
    · rintro ⟨z, hz⟩
      by_cases hzx : z = x
      · subst hzx
        exact ⟨y, hy.trans (hi.symm.trans hz)⟩
      · have hzy : z ≠ y := by
          rintro rfl
          cases hnone.symm.trans hz
        exact ⟨z, (hother z hzx hzy).trans hz⟩
    · rintro ⟨z, hz⟩
      rcases hold z j hz with ⟨-, rfl⟩ | ⟨-, -, hz⟩
      · exact ⟨x, hi⟩
      · exact ⟨z, hz⟩
  · rcases hold z j hz with ⟨rfl, rfl⟩ | ⟨-, hzx, hz⟩
    · rcases hold w j hw with ⟨rfl, -⟩ | ⟨-, hwx, hw⟩
      · rfl
      · exact absurd (h.once w x j hw hi) hwx
    · rcases hold w j hw with ⟨rfl, rfl⟩ | ⟨-, -, hw⟩
      · exact absurd (h.once z x j hz hi) hzx
      · exact h.once z w j hz hw

/-- An owner gives its slot back. -/
theorem Ledger.drop (h : Ledger taken owns) (hi : owns x = some i) (hx : owns' x = none)
    (hother : ∀ y, y ≠ x → owns' y = owns y) : Ledger (Function.update taken i false) owns' := by
  have hold : ∀ y j, owns' y = some j → y ≠ x ∧ owns y = some j := by
    intro y j hy
    have hyx : y ≠ x := by
      rintro rfl
      cases hx.symm.trans hy
    exact ⟨hyx, (hother y hyx).symm.trans hy⟩
  refine ⟨fun j => ?_, fun y z j hy hz => h.once y z j (hold y j hy).2 (hold z j hz).2⟩
  by_cases hj : j = i
  · subst hj
    rw [Function.update_self]
    refine iff_of_false Bool.false_ne_true fun ⟨y, hy⟩ => ?_
    obtain ⟨hyx, hy⟩ := hold y j hy
    exact hyx (h.once y x j hy hi)
  · rw [Function.update_of_ne hj, h.taken_iff]
    constructor
    · rintro ⟨y, hy⟩
      have hyx : y ≠ x := by
        rintro rfl
        exact hj (Option.some.inj (hy.symm.trans hi))
      exact ⟨y, (hother y hyx).trans hy⟩
    · rintro ⟨y, hy⟩
      exact ⟨y, (hold y j hy).2⟩

end Pintos.Logic
