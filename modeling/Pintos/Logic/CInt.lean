import Mathlib.Tactic.Common
import Mathlib.Algebra.GroupWithZero.Nat
import Mathlib.Algebra.Ring.Int.Defs

/-!
# Signed integers of C

The values of `int` and `int64_t`, and expressions over them. Both operands of an operator are
converted to the wider of their types. An expression has no value where the result of an operator
does not fit its type; a cast to a narrower type keeps the low bits.

`CExpr.Has e τ v` says that `e` has the value `v`, of type `τ`. There is a rule for each operator,
whose premise is that the result fits; that for a cast says that the value is kept.
-/

namespace Pintos.Logic

/-- The types `int` and `int64_t`. -/
inductive CType where
  | int
  | int64
  deriving DecidableEq

namespace CType

/-- The values of a type are below this. -/
def bound : CType → Int
  | .int => 2147483648
  | .int64 => 9223372036854775808

/-- A number is a value of a type. -/
def Fits (τ : CType) (x : Int) : Prop := -τ.bound ≤ x ∧ x < τ.bound

instance (τ : CType) (x : Int) : Decidable (τ.Fits x) := inferInstanceAs (Decidable (_ ∧ _))

theorem fits_int {x : Int} (h : -2147483648 ≤ x) (h' : x ≤ 2147483647) : CType.int.Fits x :=
  ⟨h, Int.lt_of_le_of_lt h' (by decide)⟩

theorem fits_int64 {x : Int} (h : -9223372036854775808 ≤ x) (h' : x ≤ 9223372036854775807) :
    CType.int64.Fits x :=
  ⟨h, Int.lt_of_le_of_lt h' (by decide)⟩

/-- The type of an operator's result. -/
def join : CType → CType → CType
  | .int, .int => .int
  | _, _ => .int64

/-- The value of a type that has the same low bits. -/
def wrap (τ : CType) (x : Int) : Int := (x + τ.bound) % (2 * τ.bound) - τ.bound

theorem wrap_fits (τ : CType) (x : Int) : τ.Fits (τ.wrap x) := by
  cases τ <;> simp only [Fits, wrap, bound] <;> omega

theorem wrap_of_fits {τ : CType} {x : Int} (h : τ.Fits x) : τ.wrap x = x := by
  cases τ <;> simp only [Fits, wrap, bound] at * <;> omega

end CType

/-- A value with its type. -/
structure CInt where
  type : CType
  val : Int
  fits : type.Fits val

/-- An expression, as its value if it has one. -/
def CExpr : Type := Option CInt

namespace CExpr

/-- A value of a type, if it is one. -/
def of (τ : CType) (x : Int) : CExpr :=
  if h : τ.Fits x then some ⟨τ, x, h⟩ else none

/-- An operator. -/
def binary (op : Int → Int → Option Int) (x y : CExpr) : CExpr :=
  Option.bind x fun a => Option.bind y fun b =>
    Option.bind (op a.val b.val) fun r => of (a.type.join b.type) r

instance (n : Nat) : OfNat CExpr n := ⟨of .int n⟩
instance : Add CExpr := ⟨binary fun a b => some (a + b)⟩
instance : Sub CExpr := ⟨binary fun a b => some (a - b)⟩
instance : Mul CExpr := ⟨binary fun a b => some (a * b)⟩
instance : Div CExpr := ⟨binary fun a b => if b = 0 then none else some (a.tdiv b)⟩
instance : ShiftLeft CExpr :=
  ⟨binary fun a b => if 0 ≤ a ∧ 0 ≤ b then some (a * 2 ^ b.toNat) else none⟩

/-- A cast. -/
def cast (τ : CType) (x : CExpr) : CExpr :=
  Option.map (fun a => ⟨τ, τ.wrap a.val, τ.wrap_fits a.val⟩) x

/-- `x >= 0 ? y : z`. -/
def ifNonneg (x y z : CExpr) : CExpr :=
  Option.bind x fun a => if 0 ≤ a.val then y else z

/-- What is assigned to a variable of a type. -/
def store (τ : CType) (x : CExpr) : Option Int := Option.map CInt.val (x.cast τ)

/-- The expression has the value `v`, of the type `τ`. -/
def Has (x : CExpr) (τ : CType) (v : Int) : Prop := ∃ h : τ.Fits v, x = some ⟨τ, v, h⟩

variable {x y z : CExpr} {τ σ : CType} {v w : Int}

theorem has_of (h : τ.Fits v) : (of τ v).Has τ v := ⟨h, dif_pos h⟩

theorem has_lit (n : Nat) (h : CType.int.Fits n) : (OfNat.ofNat n : CExpr).Has .int n := has_of h

theorem has_binary {op : Int → Int → Option Int} {r : Int} (hx : x.Has τ v) (hy : y.Has σ w)
    (hr : op v w = some r) (h : (τ.join σ).Fits r) : (binary op x y).Has (τ.join σ) r := by
  obtain ⟨hv, rfl⟩ := hx
  obtain ⟨hw, rfl⟩ := hy
  refine ⟨h, ?_⟩
  show Option.bind (op v w) _ = _
  rw [hr]
  exact dif_pos h

theorem Has.add (hx : x.Has τ v) (hy : y.Has σ w) (h : (τ.join σ).Fits (v + w)) :
    (x + y).Has (τ.join σ) (v + w) := has_binary hx hy rfl h

theorem Has.sub (hx : x.Has τ v) (hy : y.Has σ w) (h : (τ.join σ).Fits (v - w)) :
    (x - y).Has (τ.join σ) (v - w) := has_binary hx hy rfl h

theorem Has.mul (hx : x.Has τ v) (hy : y.Has σ w) (h : (τ.join σ).Fits (v * w)) :
    (x * y).Has (τ.join σ) (v * w) := has_binary hx hy rfl h

theorem Has.div (hx : x.Has τ v) (hy : y.Has σ w) (hw : w ≠ 0)
    (h : (τ.join σ).Fits (v.tdiv w)) : (x / y).Has (τ.join σ) (v.tdiv w) :=
  has_binary hx hy (if_neg hw) h

/-- A cast to a type that the value fits keeps it. -/
theorem Has.cast (hx : x.Has τ v) (h : σ.Fits v) : (x.cast σ).Has σ v := by
  obtain ⟨hv, rfl⟩ := hx
  refine ⟨h, ?_⟩
  show some _ = some _
  simp only [CType.wrap_of_fits h]

theorem Has.ifNonneg (hx : x.Has τ v) (hy : 0 ≤ v → y.Has σ w) (hz : v < 0 → z.Has σ w) :
    (x.ifNonneg y z).Has σ w := by
  obtain ⟨hv, rfl⟩ := hx
  show Has (if 0 ≤ v then y else z) σ w
  split
  · next h => exact hy h
  · next h => exact hz (Int.not_le.mp h)

theorem Has.shiftLeft (hx : x.Has τ v) (hy : y.Has σ w) (hv : 0 ≤ v) (hw : 0 ≤ w)
    (h : (τ.join σ).Fits (v * 2 ^ w.toNat)) : (x <<< y).Has (τ.join σ) (v * 2 ^ w.toNat) :=
  has_binary hx hy (if_pos ⟨hv, hw⟩) h

theorem Has.store (hx : x.Has τ v) (h : σ.Fits v) : x.store σ = some v := by
  obtain ⟨hv, hcast⟩ := hx.cast h
  rw [CExpr.store, hcast]
  rfl

end CExpr

end Pintos.Logic
