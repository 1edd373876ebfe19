import Mathlib.Order.RelClasses
import Mathlib.Data.List.Basic

/-!
# Strict weak orders

On the elements of a list, a strict weak order is the order of a number.
-/

namespace Pintos.Logic

variable {α : Type} {less : α → α → Bool} {list : List α} {a b : α}

/-- A strict weak order, as a function. -/
abbrev WeakOrder (less : α → α → Bool) : Prop := IsStrictWeakOrder α fun a b => less a b = true

/-- Neither of two elements is before the other one. -/
def equivalent (less : α → α → Bool) (a b : α) : Bool := !less a b && !less b a

/-- How many elements of a list are behind `a`. -/
def rank (less : α → α → Bool) (list : List α) (a : α) : Int := (list.filter (less a)).length

theorem WeakOrder.irrefl (h : WeakOrder less) (a : α) : less a a = false := by
  simpa using h.toIsStrictOrder.irrefl a

theorem WeakOrder.trans (h : WeakOrder less) {c : α} (hab : less a b = true)
    (hbc : less b c = true) : less a c = true :=
  h.toIsStrictOrder.trans a b c hab hbc

/-- What is behind `b` is behind `a`, too, unless `a` is behind `b`. -/
theorem WeakOrder.of_not_less (h : WeakOrder less) {c : α} (hba : less b a = false)
    (hbc : less b c = true) : less a c = true := by
  by_contra hac
  have hca : ¬less c a = true := fun hca => by simp [h.trans hbc hca] at hba
  by_cases hab : less a b = true
  · exact hac (h.trans hab hbc)
  · have hcb : ¬less c b = true := fun hcb => by simpa [h.irrefl] using h.trans hbc hcb
    have hinc := h.incomp_trans b a c ⟨by simp [hba], hab⟩ ⟨hac, hca⟩
    exact hinc.1 hbc

theorem rank_le_rank (h : WeakOrder less) (list : List α) (hba : less b a = false) :
    rank less list b ≤ rank less list a := by
  have hsub : (list.filter (less b)).Sublist (list.filter (less a)) :=
    List.monotone_filter_right list fun _ hbc => h.of_not_less hba hbc
  exact Int.ofNat_le.mpr hsub.length_le

theorem rank_lt_rank (h : WeakOrder less) (hb : b ∈ list) (hab : less a b = true) :
    rank less list b < rank less list a := by
  have hsub : (list.filter (less b)).Sublist (list.filter (less a)) :=
    List.monotone_filter_right list fun _ hbc => h.trans hab hbc
  refine Int.ofNat_lt.mpr (Nat.lt_of_le_of_ne hsub.length_le fun heq => ?_)
  have hmem : b ∈ list.filter (less b) := by
    rw [hsub.eq_of_length heq]
    exact List.mem_filter.mpr ⟨hb, hab⟩
  simp [h.irrefl] at hmem

/-- The order is that of the ranks, the greatest first. -/
theorem rank_lt_iff (h : WeakOrder less) (hb : b ∈ list) :
    rank less list b < rank less list a ↔ less a b = true := by
  refine ⟨fun hlt => ?_, rank_lt_rank h hb⟩
  by_contra hab
  have hle := rank_le_rank h list (a := b) (b := a) (by simpa using hab)
  omega

theorem rank_eq_iff (h : WeakOrder less) (ha : a ∈ list) (hb : b ∈ list) :
    rank less list b = rank less list a ↔ equivalent less a b = true := by
  have hab := rank_lt_iff h (a := a) hb
  have hba := rank_lt_iff h (a := b) ha
  simp only [equivalent, Bool.and_eq_true, Bool.not_eq_true', ← Bool.not_eq_true, ← hab, ← hba]
  omega

/-- A number gives a strict weak order. -/
theorem weakOrder_of_key (key : α → Int) : WeakOrder fun a b => decide (key b < key a) where
  irrefl a := by simp
  trans a b c := by
    simp only [decide_eq_true_eq]
    omega
  incomp_trans a b c := by
    simp only [decide_eq_true_eq]
    omega

end Pintos.Logic
