import Mathlib.Data.List.Basic
import Mathlib.Tactic.Common
import Mathlib.Algebra.GroupWithZero.Nat

/-!
# Trees of index blocks

A tree of blocks that hold pointers to blocks. `kid k i` is the pointer at index `i` of
block `k`, and `0` is the null pointer. A node is named by the path that leads to it.

* `node` — the pointer at the end of a path.
* `Owned` — a family of pointers without sharing.
* `Grown` — a family of pointers to which fresh ones have been added.
* `digits` — the path to the `k`-th leaf of a tree.
-/

namespace Pintos.Logic

/-- The pointer that a path leads to from the pointer `e`. -/
def node (kid : Nat → Nat → Nat) : (e : Nat) → (path : List Nat) → Nat
  | e, [] => e
  | e, i :: p => if e = 0 then 0 else node kid (kid e i) p

/-- A path of at most `level` steps, each to one of `arity` children. -/
def IsPath (arity level : Nat) (p : List Nat) : Prop := p.length ≤ level ∧ ∀ i ∈ p, i < arity

variable {kid kid' : Nat → Nat → Nat} {arity level e i : Nat} {p : List Nat}

@[simp] theorem node_nil : node kid e [] = e := rfl

@[simp] theorem node_zero : node kid 0 p = 0 := by
  cases p <;> simp [node]

theorem node_cons (h : e ≠ 0) : node kid e (i :: p) = node kid (kid e i) p := by
  rw [node, if_neg h]

theorem ne_zero_of_node (h : node kid e p ≠ 0) : e ≠ 0 := by
  rintro rfl
  exact h node_zero

/-- A tree whose root block is empty has nothing but its root. -/
theorem node_of_empty (h : kid e i = 0) : node kid e (i :: p) = 0 := by
  rw [node]
  split
  · rfl
  · rw [h, node_zero]

theorem isPath_cons : IsPath arity (level + 1) (i :: p) ↔ i < arity ∧ IsPath arity level p := by
  simp only [IsPath, List.length_cons, List.mem_cons, forall_eq_or_imp,
    Nat.add_le_add_iff_right]
  exact and_left_comm

theorem isPath_nil : IsPath arity level [] := ⟨Nat.zero_le _, by simp⟩

/-- What a tree looks like depends on the blocks of its inner nodes only. -/
theorem node_congr (hp : IsPath arity level p)
    (h : ∀ q, IsPath arity level q → q.length < level → node kid e q ≠ 0 →
      ∀ i < arity, kid' (node kid e q) i = kid (node kid e q) i) :
    node kid' e p = node kid e p := by
  induction p generalizing e level with
  | nil => rfl
  | cons i p ih =>
    by_cases he : e = 0
    · rw [he, node_zero, node_zero]
    cases level with
    | zero => exact absurd hp.1 (by simp)
    | succ level =>
      obtain ⟨hi, hp⟩ := isPath_cons.mp hp
      have hroot : kid' e i = kid e i := h [] isPath_nil (Nat.succ_pos _) he i hi
      rw [node_cons he, node_cons he, hroot]
      refine ih hp fun q hq hlt hne => ?_
      have := h (i :: q) (isPath_cons.mpr ⟨hi, hq⟩) (by simpa using hlt) (by rwa [node_cons he])
      rwa [node_cons he] at this

/-! ## Ownership -/

section Owned

variable {ι κ : Type} {dom : ι → Prop} {ok ok' used used' : Nat → Prop} {f f' f'' : ι → Nat}

/-- The pointers `f` over `dom` are in `ok`, and no two of them are the same. -/
structure Owned (dom : ι → Prop) (ok : Nat → Prop) (f : ι → Nat) : Prop where
  ok : ∀ p, dom p → f p ≠ 0 → ok (f p)
  inj : ∀ p q, dom p → dom q → f p ≠ 0 → f p = f q → p = q

/-- The pointers `f'` are those of `f` and fresh ones. -/
structure Grown (dom : ι → Prop) (used : Nat → Prop) (f f' : ι → Nat) : Prop where
  keep : ∀ p, dom p → f p ≠ 0 → f' p = f p
  fresh : ∀ p, dom p → f p = 0 → f' p ≠ 0 → ¬ used (f' p)
  inj : ∀ p q, dom p → dom q → f p = 0 → f q = 0 → f' p ≠ 0 → f' p = f' q → p = q

theorem Owned.mono (h : Owned dom ok f) (hok : ∀ k, ok k → ok' k) : Owned dom ok' f :=
  ⟨fun p hp hne => hok _ (h.ok p hp hne), h.inj⟩

/-- A part of an owned family is owned. -/
theorem Owned.comp {dom' : κ → Prop} (h : Owned dom ok f) (g : κ → ι)
    (hg : ∀ c, dom' c → dom (g c)) (hinj : ∀ c d, dom' c → dom' d → g c = g d → c = d) :
    Owned dom' ok (f ∘ g) :=
  ⟨fun c hc hne => h.ok _ (hg c hc) hne,
    fun c d hc hd hne he => hinj c d hc hd (h.inj _ _ (hg c hc) (hg d hd) hne he)⟩

theorem Owned.congr (h : Owned dom ok f) (hf : ∀ p, dom p → f' p = f p) : Owned dom ok f' := by
  constructor
  · intro p hp hne
    rw [hf p hp] at hne ⊢
    exact h.ok p hp hne
  · intro p q hp hq hne he
    rw [hf p hp] at hne he
    rw [hf q hq] at he
    exact h.inj p q hp hq hne he

theorem Grown.refl (used : Nat → Prop) (f : ι → Nat) : Grown dom used f f :=
  ⟨fun _ _ _ => rfl, fun _ _ h h' => absurd h h', fun _ _ _ _ h _ h' => absurd h h'⟩

theorem Grown.of_eq (hf : ∀ p, dom p → f' p = f p) : Grown dom used f f' :=
  ⟨fun p hp _ => hf p hp, fun p hp h h' => absurd ((hf p hp).trans h) h',
    fun p _ hp _ h _ h' => absurd ((hf p hp).trans h) h'⟩

/-- What a grown family owns: what it owned, and what is new. -/
theorem Owned.grown (h : Owned dom ok f) (hg : Grown dom used f f') (hused : ∀ k, ok k → used k)
    (hok : ∀ k, ok k → ok' k) (hnew : ∀ p, dom p → f p = 0 → f' p ≠ 0 → ok' (f' p)) :
    Owned dom ok' f' := by
  constructor
  · intro p hp hne
    by_cases h0 : f p = 0
    · exact hnew p hp h0 hne
    · rw [hg.keep p hp h0]
      exact hok _ (h.ok p hp h0)
  · intro p q hp hq hne he
    have hold : ∀ p, dom p → f p ≠ 0 → used (f' p) := fun p hp h0 => by
      rw [hg.keep p hp h0]
      exact hused _ (h.ok p hp h0)
    by_cases h0 : f p = 0 <;> by_cases h1 : f q = 0
    · exact hg.inj p q hp hq h0 h1 hne he
    · exact absurd (he ▸ hold q hq h1) (hg.fresh p hp h0 hne)
    · exact absurd (he ▸ hold p hp h0) (hg.fresh q hq h1 (he ▸ hne))
    · rw [hg.keep p hp h0] at hne he
      rw [hg.keep q hq h1] at he
      exact h.inj p q hp hq hne he

/-- Some of the fresh pointers left out. -/
theorem Grown.sub (h : Grown dom used f f') (hsub : ∀ p, dom p → f'' p = f' p ∨ f'' p = 0 ∧ f p = 0) :
    Grown dom used f f'' := by
  have heq : ∀ p, dom p → f'' p ≠ 0 → f'' p = f' p := fun p hp hne =>
    (hsub p hp).resolve_right fun hz => hne hz.1
  constructor
  · intro p hp hne
    rcases hsub p hp with he | he
    · rw [he, h.keep p hp hne]
    · exact absurd he.2 hne
  · intro p hp h0 hne
    have he := heq p hp hne
    rw [he] at hne ⊢
    exact h.fresh p hp h0 hne
  · intro p q hp hq h0 h0' hne hpq
    have he := heq p hp hne
    have he' := heq q hq (hpq ▸ hne)
    rw [he] at hne
    rw [he, he'] at hpq
    exact h.inj p q hp hq h0 h0' hne hpq

/-- Growing twice. The second time, what is new the first time is in use. -/
theorem Grown.trans (h : Grown dom used f f') (h' : Grown dom used' f' f'')
    (hused : ∀ k, used k → used' k)
    (hnew : ∀ p, dom p → f p = 0 → f' p ≠ 0 → used' (f' p)) : Grown dom used f f'' := by
  constructor
  · intro p hp hne
    have he := h.keep p hp hne
    rw [h'.keep p hp (he ▸ hne), he]
  · intro p hp h0 hne
    by_cases h1 : f' p = 0
    · exact fun hu => h'.fresh p hp h1 hne (hused _ hu)
    · rw [h'.keep p hp h1]
      exact h.fresh p hp h0 h1
  · intro p q hp hq h0 h0' hne he
    by_cases h1 : f' p = 0 <;> by_cases h2 : f' q = 0
    · exact h'.inj p q hp hq h1 h2 hne he
    · rw [h'.keep q hq h2] at he
      exact absurd (he ▸ hnew q hq h0' h2) (h'.fresh p hp h1 hne)
    · have hk := h'.keep p hp h1
      refine absurd (?_ : used' (f'' q)) (h'.fresh q hq h2 (he ▸ hne))
      rw [← he, hk]
      exact hnew p hp h0 h1
    · rw [h'.keep p hp h1] at hne he
      rw [h'.keep q hq h2] at he
      exact h.inj p q hp hq h0 h0' hne he

end Owned

/-! ## Leaves -/

/-- The path to the `k`-th leaf of a tree with `level` levels of index blocks. -/
def digits (arity : Nat) : (level k : Nat) → List Nat
  | 0, _ => []
  | level + 1, k => k / arity ^ level :: digits arity level (k % arity ^ level)

@[simp] theorem length_digits (arity level k : Nat) : (digits arity level k).length = level := by
  induction level generalizing k with
  | zero => rfl
  | succ level ih => simp [digits, ih]

theorem isPath_digits {arity level k : Nat} (h : k < arity ^ level) :
    IsPath arity level (digits arity level k) := by
  induction level generalizing k with
  | zero => exact isPath_nil
  | succ level ih =>
    have hpos : 0 < arity ^ level := by
      rcases Nat.eq_zero_or_pos (arity ^ level) with h0 | h0
      · rw [Nat.pow_succ, h0] at h
        omega
      · exact h0
    refine isPath_cons.mpr ⟨?_, ih (Nat.mod_lt _ hpos)⟩
    rw [Nat.div_lt_iff_lt_mul hpos, Nat.mul_comm, ← Nat.pow_succ]
    exact h

theorem digits_inj {arity level k k' : Nat} (h : k < arity ^ level) (h' : k' < arity ^ level)
    (he : digits arity level k = digits arity level k') : k = k' := by
  induction level generalizing k k' with
  | zero => simp at h h'; omega
  | succ level ih =>
    have hpos : 0 < arity ^ level := by
      rcases Nat.eq_zero_or_pos (arity ^ level) with h0 | h0
      · rw [Nat.pow_succ, h0] at h
        omega
      · exact h0
    simp only [digits, List.cons.injEq] at he
    have hmod := ih (Nat.mod_lt _ hpos) (Nat.mod_lt _ hpos) he.2
    rw [← Nat.div_add_mod k (arity ^ level), ← Nat.div_add_mod k' (arity ^ level), he.1, hmod]

end Pintos.Logic
