/-!
# Division of 64-bit integers

`lib/arithmetic.c`. A function gives `none` where the processor traps with a divide error.
-/

namespace Pintos.Lib

/-- `divl`, an instruction. -/
def divl (n : UInt64) (d : UInt32) : Option UInt32 :=
  if d = 0 ∨ n / d.toUInt64 ≥ 0x100000000 then none else some (n / d.toUInt64).toUInt32

/-- A test of `nlz`, on its `n` and its `x`. -/
def nlzStep (max : UInt32) (k : Nat) (r : Nat × UInt32) : Nat × UInt32 :=
  if r.2 ≤ max then (r.1 + k, r.2 <<< UInt32.ofNat k) else r

/-- `nlz`. -/
def nlz (x : UInt32) : Nat :=
  let r := nlzStep 0x0000FFFF 16 (0, x)
  let r := nlzStep 0x00FFFFFF 8 r
  let r := nlzStep 0x0FFFFFFF 4 r
  let r := nlzStep 0x3FFFFFFF 2 r
  if r.2 ≤ 0x7FFFFFFF then r.1 + 1 else r.1

/-- `udiv64`. -/
def udiv64 (n d : UInt64) : Option UInt64 :=
  if d >>> 32 = 0 then
    let b := (1 : UInt64) <<< 32
    let n1 := (n >>> 32).toUInt32
    let n0 := n.toUInt32
    let d0 := d.toUInt32
    if d0 = 0 then none
    else (divl (b * (n1 % d0).toUInt64 + n0.toUInt64) d0).map fun q =>
      q.toUInt64 + b * (n1 / d0).toUInt64
  else if n < d then some 0
  else
    let d1 := (d >>> 32).toUInt32
    let s := nlz d1
    (divl (n >>> 1) ((d <<< UInt64.ofNat s) >>> 32).toUInt32).map fun q =>
      let q := (q >>> UInt32.ofNat (31 - s)).toUInt64
      if n - (q - 1) * d < d then q - 1 else q

/-- `umod64`, which returns a `uint32_t`. -/
def umod64 (n d : UInt64) : Option UInt32 := (udiv64 n d).map fun q => (n - d * q).toUInt32

/-- The absolute value as it is computed in `sdiv64`. -/
def abs64 (n : Int64) : UInt64 := if n ≥ 0 then n.toUInt64 else -n.toUInt64

/-- `sdiv64`. -/
def sdiv64 (n d : Int64) : Option Int64 :=
  (udiv64 (abs64 n) (abs64 d)).map fun qAbs =>
    if (n < 0) = (d < 0) then qAbs.toInt64 else -qAbs.toInt64

/-- `smod64`, which returns an `int32_t`. -/
def smod64 (n d : Int64) : Option Int32 := (sdiv64 n d).map fun q => (n - d * q).toInt32

/-! ## The routines that GCC calls -/

/-- `__divdi3`. -/
def divdi3 (n d : Int64) : Option Int64 := sdiv64 n d

/-- `__moddi3`. -/
def moddi3 (n d : Int64) : Option Int64 := (smod64 n d).map (·.toInt64)

/-- `__udivdi3`. -/
def udivdi3 (n d : UInt64) : Option UInt64 := udiv64 n d

/-- `__umoddi3`. -/
def umoddi3 (n d : UInt64) : Option UInt64 := (umod64 n d).map (·.toUInt64)

end Pintos.Lib
