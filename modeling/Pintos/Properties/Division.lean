import Mathlib.Algebra.Order.Ring.Nat
import Mathlib.Data.Nat.Bits
import Mathlib.Tactic.Ring
import Pintos.Lib.Arithmetic

/-!
# The routines for division are right, but for two casts

* `division_exact` — for every divisor but zero the routines do not trap, and they return the
  quotient.
* `remainder_exact_iff` — the remainder is cast to 32 bits on its way, and is right just when it fits.
-/

namespace Pintos.Lib

/-! ## Numbers -/

/-- The quotient by the leading part of the divisor is too large by at most one. -/
theorem div_leading {n d v p : Nat} (hp : 2 ≤ p) (hv : 2147483648 ≤ v)
    (hn : n < 18446744073709551616) (hlo : v * p ≤ d) (hhi : d < v * p + p) :
    n / d ≤ n / (v * p) ∧ n / (v * p) ≤ n / d + 1 := by
  have hvp : 0 < v * p := Nat.mul_pos (by omega) (by omega)
  have hd : 0 < d := by omega
  refine ⟨Nat.div_le_div_left hlo hvp, ?_⟩
  obtain ⟨q, hq⟩ : ∃ q, q = n / (v * p) := ⟨_, rfl⟩
  have hqn : q * (v * p) ≤ n := hq ▸ Nat.div_mul_le_self n (v * p)
  -- what is missing of the divisor, taken `q` times, is less than the divisor
  have hsmall : q * p < 8589934592 := by
    by_contra hbig
    have : 8589934592 * 2147483648 ≤ q * p * v :=
      Nat.mul_le_mul (Nat.not_lt.mp hbig) hv
    have hcomm : q * p * v = q * (v * p) := by ring
    omega
  have hsquare : 4 * (p - 1) ≤ p * p := by
    obtain ⟨k, rfl⟩ : ∃ k, p = k + 2 := ⟨p - 2, by omega⟩
    have : (k + 2) * (k + 2) = k * k + 4 * k + 4 := by ring
    omega
  have hrest : q * (p - 1) ≤ v * p := by
    refine Nat.le_of_mul_le_mul_right (c := p) ?_ (by omega)
    calc q * (p - 1) * p = q * p * (p - 1) := by ring
      _ ≤ 8589934592 * (p - 1) := Nat.mul_le_mul_right _ (Nat.le_of_lt hsmall)
      _ = 2147483648 * (4 * (p - 1)) := by ring
      _ ≤ 2147483648 * (p * p) := Nat.mul_le_mul_left _ hsquare
      _ ≤ v * (p * p) := Nat.mul_le_mul_right _ hv
      _ = v * p * p := by ring
  have hqd : q * d ≤ n + d := by
    calc q * d ≤ q * (v * p + (p - 1)) := Nat.mul_le_mul_left _ (by omega)
      _ = q * (v * p) + q * (p - 1) := Nat.mul_add _ _ _
      _ ≤ n + d := Nat.add_le_add hqn (Nat.le_trans hrest hlo)
  rw [← hq]
  rcases Nat.eq_zero_or_pos q with hzero | hpos
  · rw [hzero]
    exact Nat.zero_le _
  · have : (q - 1) * d ≤ n := by
      rw [Nat.sub_mul]
      omega
    have := (Nat.le_div_iff_mul_le hd).mpr this
    omega

/-- Long division by one digit. -/
theorem div_digit (n d b : Nat) (hd : 0 < d) :
    (b * (n / b % d) + n % b) / d + b * (n / b / d) = n / d := by
  have hn : n = b * (n / b % d) + n % b + b * (n / b / d) * d := by
    calc n = b * (n / b) + n % b := (Nat.div_add_mod n b).symm
      _ = b * (d * (n / b / d) + n / b % d) + n % b := by rw [Nat.div_add_mod (n / b) d]
      _ = _ := by ring
  conv_rhs => rw [hn, Nat.add_mul_div_right _ _ hd]

/-! ## `divl` and `nlz` -/

theorem divl_spec {n : UInt64} {d : UInt32} (hd : 0 < d.toNat)
    (hq : n.toNat / d.toNat < 4294967296) :
    ∃ q, divl n d = some q ∧ q.toNat = n.toNat / d.toNat := by
  have hdiv : (n / d.toUInt64).toNat = n.toNat / d.toNat := by simp
  have hne : d ≠ 0 := fun he => by simp [he] at hd
  have hlt : ¬ n / d.toUInt64 ≥ 0x100000000 := by
    rw [ge_iff_le, UInt64.le_iff_toNat_le, hdiv]
    exact Nat.not_le.mpr hq
  refine ⟨_, by rw [divl, if_neg (not_or.mpr ⟨hne, hlt⟩)], ?_⟩
  rw [UInt64.toNat_toUInt32, hdiv]
  exact Nat.mod_eq_of_lt hq

/-- What a test of `nlz` keeps: the number shifted so far, with its leading bits. -/
structure Shifted (x : Nat) (lo : Nat) (r : Nat × UInt32) : Prop where
  value : r.2.toNat = x * 2 ^ r.1
  lo : 2 ^ lo ≤ r.2.toNat

theorem Shifted.step {x lo k : Nat} {r : Nat × UInt32} (h : Shifted x lo r) (hk : k < 32)
    (hlo : lo + k ≤ 32 - k) (max : UInt32) (hmax : max.toNat + 1 = 2 ^ (32 - k)) :
    Shifted x (lo + k) (nlzStep max k r) := by
  have hpow : 2 ^ (32 - k) * 2 ^ k = 4294967296 := by
    rw [← Nat.pow_add, Nat.sub_add_cancel (Nat.le_of_lt hk)]
  rw [nlzStep]
  by_cases hle : r.2 ≤ max
  · rw [if_pos hle]
    rw [UInt32.le_iff_toNat_le] at hle
    have hlt : r.2.toNat * 2 ^ k < 4294967296 := by
      rw [← hpow]
      exact Nat.mul_lt_mul_of_pos_right (by omega) (Nat.two_pow_pos k)
    have hk' : (UInt32.ofNat k).toNat % 32 = k := by
      rw [UInt32.toNat_ofNat']
      omega
    have hshift : (r.2 <<< UInt32.ofNat k).toNat = r.2.toNat * 2 ^ k := by
      rw [UInt32.toNat_shiftLeft, hk', Nat.shiftLeft_eq]
      exact Nat.mod_eq_of_lt hlt
    refine ⟨?_, ?_⟩
    · show (r.2 <<< UInt32.ofNat k).toNat = x * 2 ^ (r.1 + k)
      rw [hshift, h.value, Nat.pow_add, Nat.mul_assoc]
    · show 2 ^ (lo + k) ≤ (r.2 <<< UInt32.ofNat k).toNat
      rw [hshift, Nat.pow_add]
      exact Nat.mul_le_mul_right _ h.lo
  · rw [if_neg hle]
    rw [UInt32.le_iff_toNat_le] at hle
    refine ⟨h.value, Nat.le_trans (Nat.pow_le_pow_right (by decide) hlo) (by omega)⟩

/-- `nlz` of a number but zero: shifted by it the number has 32 bits. -/
theorem nlz_spec {x : UInt32} (hx : 0 < x.toNat) :
    nlz x ≤ 31 ∧ 2147483648 ≤ x.toNat * 2 ^ nlz x ∧ x.toNat * 2 ^ nlz x < 4294967296 := by
  have h₀ : Shifted x.toNat 0 (0, x) := ⟨(Nat.mul_one _).symm, hx⟩
  have h₁ := h₀.step (k := 16) (by decide) (by decide) 0x0000FFFF rfl
  have h₂ := h₁.step (k := 8) (by decide) (by decide) 0x00FFFFFF rfl
  have h₃ := h₂.step (k := 4) (by decide) (by decide) 0x0FFFFFFF rfl
  have h₄ := h₃.step (k := 2) (by decide) (by decide) 0x3FFFFFFF rfl
  have hbounds : 2147483648 ≤ x.toNat * 2 ^ nlz x ∧ x.toNat * 2 ^ nlz x < 4294967296 := by
    rw [nlz]
    generalize nlzStep 0x3FFFFFFF 2 _ = r at h₄ ⊢
    obtain ⟨hvalue, hlo⟩ := h₄
    have hlo : 1073741824 ≤ r.2.toNat := hlo
    by_cases hle : r.2 ≤ 0x7FFFFFFF
    · have hle' : r.2.toNat ≤ 2147483647 := UInt32.le_iff_toNat_le.mp hle
      simp only [if_pos hle, Nat.pow_succ, ← Nat.mul_assoc, ← hvalue]
      omega
    · have hle' : ¬ r.2.toNat ≤ 2147483647 := fun h => hle (UInt32.le_iff_toNat_le.mpr h)
      simp only [if_neg hle, ← hvalue]
      have := r.2.toNat_lt
      omega
  refine ⟨?_, hbounds⟩
  by_contra hbig
  have : 2 ^ 32 ≤ 2 ^ nlz x := Nat.pow_le_pow_right (by decide) (by omega)
  have := Nat.le_mul_of_pos_left (2 ^ nlz x) hx
  omega

/-! ## `udiv64` -/

theorem shiftRight_toNat (x : UInt64) {k : Nat} (hk : k < 64) :
    (x >>> UInt64.ofNat k).toNat = x.toNat / 2 ^ k := by
  rw [UInt64.toNat_shiftRight, UInt64.toNat_ofNat', Nat.shiftRight_eq_div_pow]
  congr 2
  omega

/-- A divisor of 32 bits. -/
theorem udiv64_small {n d : UInt64} (hd : 0 < d.toNat) (hsmall : d.toNat < 4294967296) :
    udiv64 n d = some (n / d) := by
  have hhigh : d >>> 32 = 0 := UInt64.toNat.inj (by
    rw [show (32 : UInt64) = UInt64.ofNat 32 from rfl, shiftRight_toNat d (by decide)]
    exact Nat.div_eq_of_lt hsmall)
  have hn := n.toNat_lt
  have hd0 : d.toUInt32.toNat = d.toNat := by
    rw [UInt64.toNat_toUInt32]
    exact Nat.mod_eq_of_lt hsmall
  have hn1 : (n >>> 32).toUInt32.toNat = n.toNat / 4294967296 := by
    rw [UInt64.toNat_toUInt32, show (32 : UInt64) = UInt64.ofNat 32 from rfl,
      shiftRight_toNat n (by decide)]
    omega
  have hn0 : n.toUInt32.toNat = n.toNat % 4294967296 := UInt64.toNat_toUInt32 n
  have hne : d.toUInt32 ≠ 0 := fun he => by
    rw [he] at hd0
    exact absurd hd0 (Nat.ne_of_lt hd)
  have hb : ((1 : UInt64) <<< 32).toNat = 4294967296 := by decide
  have hmod := Nat.mod_lt (n.toNat / 4294967296) hd
  have hdividend : ((1 : UInt64) <<< 32 * ((n >>> 32).toUInt32 % d.toUInt32).toUInt64
      + n.toUInt32.toUInt64).toNat
      = 4294967296 * (n.toNat / 4294967296 % d.toNat) + n.toNat % 4294967296 := by
    rw [UInt64.toNat_add, UInt64.toNat_mul, hb, UInt32.toNat_toUInt64, UInt32.toNat_mod,
      UInt32.toNat_toUInt64, hn1, hd0, hn0]
    omega
  have hquot : (4294967296 * (n.toNat / 4294967296 % d.toNat) + n.toNat % 4294967296) / d.toNat
      < 4294967296 := by
    rw [Nat.div_lt_iff_lt_mul hd]
    have hle := Nat.mul_le_mul_left 4294967296 (Nat.succ_le_of_lt hmod)
    rw [Nat.mul_succ] at hle
    have := Nat.mod_lt n.toNat (show 0 < 4294967296 by decide)
    omega
  obtain ⟨q, hq, hqv⟩ := divl_spec (d := d.toUInt32) (by rw [hd0]; exact hd)
    (by rw [hdividend, hd0]; exact hquot)
  rw [hdividend, hd0] at hqv
  have hdigit := div_digit n.toNat d.toNat 4294967296 hd
  rw [udiv64, if_pos hhigh]
  simp only [if_neg hne, hq, Option.map_some, Option.some.injEq]
  refine UInt64.toNat.inj ?_
  have hlt : n.toNat / d.toNat ≤ n.toNat := Nat.div_le_self _ _
  rw [UInt64.toNat_add, UInt64.toNat_mul, hb, UInt32.toNat_toUInt64, UInt32.toNat_toUInt64, hqv,
    UInt32.toNat_div, hn1, hd0, UInt64.toNat_div, ← hdigit]
  omega

/-- A divisor of more than 32 bits. -/
theorem udiv64_large {n d : UInt64} (hlarge : 4294967296 ≤ d.toNat) :
    udiv64 n d = some (n / d) := by
  have hn := n.toNat_lt
  have hd := d.toNat_lt
  have h32 : (d >>> 32).toNat = d.toNat / 4294967296 := by
    rw [show (32 : UInt64) = UInt64.ofNat 32 from rfl, shiftRight_toNat d (by decide)]
    rfl
  have hhigh : ¬ d >>> 32 = 0 := fun he => by
    rw [he] at h32
    have : (0 : UInt64).toNat = 0 := rfl
    omega
  rw [udiv64, if_neg hhigh]
  by_cases hnd : n < d
  · rw [if_pos hnd]
    refine congrArg some (UInt64.toNat.inj ?_)
    rw [UInt64.toNat_div]
    exact (Nat.div_eq_of_lt (UInt64.lt_iff_toNat_lt.mp hnd)).symm
  · rw [if_neg hnd]
    have hnd' : d.toNat ≤ n.toNat := Nat.not_lt.mp fun h => hnd (UInt64.lt_iff_toNat_lt.mpr h)
    have hd1 : (d >>> 32).toUInt32.toNat = d.toNat / 4294967296 := by
      rw [UInt64.toNat_toUInt32, h32]
      omega
    obtain ⟨hs, hlo, hhi⟩ := nlz_spec (x := (d >>> 32).toUInt32) (by omega)
    rw [hd1] at hlo hhi
    simp only
    generalize nlz (d >>> 32).toUInt32 = s at hs hlo hhi ⊢
    obtain ⟨p, hp⟩ : ∃ p, p = 2 ^ (32 - s) := ⟨_, rfl⟩
    have hpow : p * 2 ^ s = 4294967296 := by
      rw [hp, ← Nat.pow_add, Nat.sub_add_cancel (by omega)]
    have hhalf : p = 2 ^ (31 - s) * 2 := by
      rw [hp, ← Nat.pow_succ]
      congr 1
      omega
    have hpos := Nat.two_pow_pos s
    -- the leading part of the divisor
    have hv : ((d <<< UInt64.ofNat s) >>> 32).toUInt32.toNat = d.toNat / p := by
      have hlt : d.toNat / 4294967296 < p := by
        refine Nat.lt_of_mul_lt_mul_right (a := 2 ^ s) ?_
        omega
      have hmul : d.toNat * 2 ^ s < 18446744073709551616 := by
        calc d.toNat * 2 ^ s < 4294967296 * p * 2 ^ s := by
              refine Nat.mul_lt_mul_of_pos_right ?_ hpos
              omega
          _ = 18446744073709551616 := by rw [Nat.mul_assoc, hpow]
      have hshift : (d <<< UInt64.ofNat s).toNat = d.toNat * 2 ^ s := by
        rw [UInt64.toNat_shiftLeft, UInt64.toNat_ofNat', Nat.shiftLeft_eq,
          show s % 2 ^ 64 % 64 = s by omega]
        exact Nat.mod_eq_of_lt hmul
      have hquot : d.toNat * 2 ^ s / 4294967296 = d.toNat / p := by
        rw [← hpow, Nat.mul_div_mul_right _ _ hpos]
      rw [UInt64.toNat_toUInt32, show (32 : UInt64) = UInt64.ofNat 32 from rfl,
        shiftRight_toNat _ (by decide), hshift]
      show d.toNat * 2 ^ s / 4294967296 % 4294967296 = _
      rw [hquot, Nat.mod_eq_of_lt]
      rw [← hquot]
      omega
    have hp2 : 2 ≤ p := by
      rw [hhalf]
      exact Nat.le_mul_of_pos_left 2 (Nat.two_pow_pos _)
    have hvlo : 2147483648 ≤ d.toNat / p := by
      have hquot : d.toNat * 2 ^ s / 4294967296 = d.toNat / p := by
        rw [← hpow, Nat.mul_div_mul_right _ _ hpos]
      rw [← hquot, Nat.le_div_iff_mul_le (by decide)]
      calc 2147483648 * 4294967296 ≤ d.toNat / 4294967296 * 2 ^ s * 4294967296 :=
            Nat.mul_le_mul_right _ hlo
        _ = d.toNat / 4294967296 * 4294967296 * 2 ^ s := by ring
        _ ≤ d.toNat * 2 ^ s := Nat.mul_le_mul_right _ (Nat.div_mul_le_self _ _)
    have hu : (n >>> 1).toNat = n.toNat / 2 := by
      rw [show (1 : UInt64) = UInt64.ofNat 1 from rfl, shiftRight_toNat n (by decide)]
      rfl
    obtain ⟨q, hq, hqv⟩ := divl_spec (n := n >>> 1)
      (d := ((d <<< UInt64.ofNat s) >>> 32).toUInt32) (by rw [hv]; omega) (by
        rw [hv, hu, Nat.div_lt_iff_lt_mul (by omega)]
        omega)
    rw [hv, hu] at hqv
    rw [hq, Option.map_some]
    refine congrArg some ?_
    have hvp : d.toNat / p * p ≤ d.toNat := Nat.div_mul_le_self _ _
    have hmodp := Nat.mod_lt d.toNat (show 0 < p by omega)
    have hdp := Nat.div_add_mod d.toNat p
    rw [Nat.mul_comm] at hdp
    obtain ⟨hge, hle⟩ := div_leading hp2 hvlo hn hvp (by omega)
    obtain ⟨q', hq'⟩ : ∃ q', q' = (q >>> UInt32.ofNat (31 - s)).toUInt64 := ⟨_, rfl⟩
    have hq'v : q'.toNat = n.toNat / (d.toNat / p * p) := by
      rw [hq', UInt32.toNat_toUInt64, UInt32.toNat_shiftRight, UInt32.toNat_ofNat',
        Nat.shiftRight_eq_div_pow, show (31 - s) % 2 ^ 32 % 32 = 31 - s by omega, hqv,
        Nat.div_div_eq_div_mul, Nat.div_div_eq_div_mul]
      congr 1
      calc 2 * (d.toNat / p * 2 ^ (31 - s)) = d.toNat / p * (2 ^ (31 - s) * 2) := by ring
        _ = d.toNat / p * p := by rw [← hhalf]
    have hone : 1 ≤ n.toNat / d.toNat := (Nat.one_le_div_iff (by omega)).mpr hnd'
    simp only [← hq']
    rw [← hq'v] at hge hle
    have hpred : (q' - 1).toNat = q'.toNat - 1 := UInt64.toNat_sub_of_le _ _
      (UInt64.le_iff_toNat_le.mpr (Nat.le_trans hone hge))
    have hbelow : (q'.toNat - 1) * d.toNat ≤ n.toNat :=
      (Nat.le_div_iff_mul_le (by omega)).mp (by omega)
    have hmul : ((q' - 1) * d).toNat = (q'.toNat - 1) * d.toNat := by
      rw [UInt64.toNat_mul, hpred]
      exact Nat.mod_eq_of_lt (by omega)
    have hsub : (n - (q' - 1) * d).toNat = n.toNat - (q'.toNat - 1) * d.toNat := by
      rw [UInt64.toNat_sub_of_le _ _ (UInt64.le_iff_toNat_le.mpr (by rw [hmul]; exact hbelow)), hmul]
    have hqd := Nat.div_add_mod n.toNat d.toNat
    have hmod := Nat.mod_lt n.toNat (show 0 < d.toNat by omega)
    refine UInt64.toNat.inj ?_
    rw [UInt64.toNat_div]
    rcases Nat.lt_or_ge (n.toNat / d.toNat) q'.toNat with hgt | hle'
    · -- one too large
      have heq : q'.toNat - 1 = n.toNat / d.toNat := by omega
      rw [if_pos (UInt64.lt_iff_toNat_lt.mpr ?_), hpred, heq]
      rw [hsub, heq, Nat.mul_comm]
      omega
    · have heq : q'.toNat = n.toNat / d.toNat := by omega
      rw [if_neg fun hlt => ?_, heq]
      have hlt := UInt64.lt_iff_toNat_lt.mp hlt
      rw [hsub, heq, Nat.sub_mul, Nat.mul_comm] at hlt
      omega

theorem udiv64_eq {n d : UInt64} (hd : d ≠ 0) : udiv64 n d = some (n / d) := by
  have hpos : 0 < d.toNat := Nat.pos_of_ne_zero fun h => hd (UInt64.toNat.inj h)
  rcases Nat.lt_or_ge d.toNat 4294967296 with hsmall | hlarge
  · exact udiv64_small hpos hsmall
  · exact udiv64_large hlarge

/-! ## The other routines -/

theorem toInt_eq_bmod (n : Int64) : n.toInt = (n.toUInt64.toNat : Int).bmod (2 ^ 64) :=
  BitVec.toInt_eq_toNat_bmod n.toBitVec

theorem toInt_toInt64 (n : UInt64) : n.toInt64.toInt = (n.toNat : Int).bmod (2 ^ 64) :=
  BitVec.toInt_eq_toNat_bmod n.toBitVec

theorem abs64_toNat (n : Int64) : (abs64 n).toNat = n.toInt.natAbs := by
  have hmod := toInt_eq_bmod n
  have hlt := n.toUInt64.toNat_lt
  rw [Int.bmod] at hmod
  rw [abs64]
  by_cases h : n ≥ 0
  · have h' : 0 ≤ n.toInt := Int64.le_iff_toInt_le.mp h
    rw [if_pos h]
    split at hmod <;> omega
  · have h' : ¬ 0 ≤ n.toInt := fun h' => h (Int64.le_iff_toInt_le.mpr h')
    rw [if_neg h, UInt64.toNat_neg, show UInt64.size = 18446744073709551616 from rfl]
    split at hmod <;> omega

theorem lt_zero_iff (n : Int64) : n < 0 ↔ n.toInt < 0 := Int64.lt_iff_toInt_lt

theorem sdiv64_eq {n d : Int64} (hd : d ≠ 0) : sdiv64 n d = some (n / d) := by
  have hne : d.toInt ≠ 0 := fun h => hd (Int64.toInt_inj.mp h)
  have habs : abs64 d ≠ 0 := fun h => by
    have := abs64_toNat d
    rw [h] at this
    exact hne (Int.natAbs_eq_zero.mp this.symm)
  rw [sdiv64, udiv64_eq habs, Option.map_some]
  refine congrArg some (Int64.toInt_inj.mp ?_)
  have hq : (abs64 n / abs64 d).toNat = n.toInt.natAbs / d.toInt.natAbs := by
    rw [UInt64.toNat_div, abs64_toNat, abs64_toNat]
  have hdiv : (n / d).toInt = (n.toInt.tdiv d.toInt).bmod (2 ^ 64) := Int64.toInt_div n d
  -- the quotient of the absolute values, with its sign
  have hsame : (abs64 n / abs64 d).toInt64.toInt
      = ((n.toInt.natAbs : Int).tdiv d.toInt.natAbs).bmod (2 ^ 64) := by
    rw [toInt_toInt64, hq, Int.ofNat_tdiv]
  have hopposite : (-(abs64 n / abs64 d).toInt64).toInt
      = (-(n.toInt.natAbs : Int).tdiv d.toInt.natAbs).bmod (2 ^ 64) := by
    rw [Int64.toInt_neg, hsame, Int.bmod_neg_bmod]
  rw [hdiv]
  by_cases hn0 : n < 0 <;> by_cases hd0 : d < 0
  · rw [if_pos (by simp [hn0, hd0]), hsame, Int.ofNat_natAbs_of_nonpos, Int.ofNat_natAbs_of_nonpos,
      Int.neg_tdiv_neg]
    · exact Int.le_of_lt ((lt_zero_iff d).mp hd0)
    · exact Int.le_of_lt ((lt_zero_iff n).mp hn0)
  · have hd1 : 0 ≤ d.toInt := Int.not_lt.mp fun h => hd0 ((lt_zero_iff d).mpr h)
    rw [if_neg (by simp [hn0, hd0]), hopposite, Int.ofNat_natAbs_of_nonpos, Int.natAbs_of_nonneg hd1,
      Int.neg_tdiv, Int.neg_neg]
    exact Int.le_of_lt ((lt_zero_iff n).mp hn0)
  · have hn1 : 0 ≤ n.toInt := Int.not_lt.mp fun h => hn0 ((lt_zero_iff n).mpr h)
    rw [if_neg (by simp [hn0, hd0]), hopposite, Int.natAbs_of_nonneg hn1, Int.ofNat_natAbs_of_nonpos,
      Int.tdiv_neg, Int.neg_neg]
    exact Int.le_of_lt ((lt_zero_iff d).mp hd0)
  · have hn1 : 0 ≤ n.toInt := Int.not_lt.mp fun h => hn0 ((lt_zero_iff n).mpr h)
    have hd1 : 0 ≤ d.toInt := Int.not_lt.mp fun h => hd0 ((lt_zero_iff d).mpr h)
    rw [if_pos (by simp [hn0, hd0]), hsame, Int.natAbs_of_nonneg hn1, Int.natAbs_of_nonneg hd1]

/-- With any divisor but zero both routines for division return the quotient and do not trap. -/
theorem division_exact :
    (∀ n d : UInt64, d ≠ 0 → udivdi3 n d = some (n / d)) ∧
    ∀ n d : Int64, d ≠ 0 → divdi3 n d = some (n / d) :=
  ⟨fun _ _ hd => udiv64_eq hd, fun _ _ hd => sdiv64_eq hd⟩

theorem division_exact_large :
    udivdi3 18446744073709551615 4294967297 = some (18446744073709551615 / 4294967297) ∧
    divdi3 (-9223372036854775808) (-1) = some (-9223372036854775808 / -1) :=
  ⟨division_exact.1 _ _ (by decide), division_exact.2 _ _ (by decide)⟩

/-- The unsigned remainder is right just when it has 32 bits. -/
theorem umoddi3_exact_iff {n d : UInt64} (hd : d ≠ 0) :
    umoddi3 n d = some (n % d) ↔ (n % d).toNat < 4294967296 := by
  have hrem : n - d * (n / d) = n % d := by
    have hle : (d * (n / d)).toNat = d.toNat * (n.toNat / d.toNat) := by
      rw [UInt64.toNat_mul, UInt64.toNat_div]
      exact Nat.mod_eq_of_lt (Nat.lt_of_le_of_lt (Nat.mul_div_le _ _) n.toNat_lt)
    refine UInt64.toNat.inj ?_
    rw [UInt64.toNat_sub_of_le _ _ (UInt64.le_iff_toNat_le.mpr (hle ▸ Nat.mul_div_le _ _)), hle,
      UInt64.toNat_mod]
    have := Nat.div_add_mod n.toNat d.toNat
    omega
  rw [umoddi3, umod64, udiv64_eq hd, Option.map_some, Option.map_some, hrem, Option.some.injEq,
    ← UInt64.toNat_inj, UInt32.toNat_toUInt64, UInt64.toNat_toUInt32]
  have hlt := Nat.mod_lt (n % d).toNat (show 0 < 2 ^ 32 by decide)
  exact ⟨fun h => h ▸ hlt, fun h => Nat.mod_eq_of_lt h⟩

/-- The signed remainder is right just when it is an `int32_t`. -/
theorem moddi3_exact_iff {n d : Int64} (hd : d ≠ 0) :
    moddi3 n d = some (n % d) ↔
      -2147483648 ≤ (n % d).toInt ∧ (n % d).toInt < 2147483648 := by
  have hrem : n - d * (n / d) = n % d := by
    refine Int64.toInt_inj.mp ?_
    rw [Int64.toInt_sub, Int64.toInt_mul, Int64.toInt_div, Int.mul_bmod_bmod, Int.sub_bmod_bmod,
      ← Int.tmod_def, ← Int64.toInt_mod]
    exact Int64.toInt_bmod _
  rw [moddi3, smod64, sdiv64_eq hd, Option.map_some, Option.map_some, hrem, Option.some.injEq,
    ← Int64.toInt_inj, Int32.toInt_toInt64, Int64.toInt_toInt32, Int.bmod_eq_iff (by decide)]
  omega

/-- With any divisor but zero the routines for remainders are right just when the remainder fits the
type that `umod64` and `smod64` return. -/
theorem remainder_exact_iff :
    (∀ n d : UInt64, d ≠ 0 →
      (umoddi3 n d = some (n % d) ↔ (n % d).toNat < 4294967296)) ∧
    ∀ n d : Int64, d ≠ 0 →
      (moddi3 n d = some (n % d) ↔ -2147483648 ≤ (n % d).toInt ∧ (n % d).toInt < 2147483648) :=
  ⟨fun _ _ hd => umoddi3_exact_iff hd, fun _ _ hd => moddi3_exact_iff hd⟩

theorem remainder_exact_iff_large :
    (umoddi3 18446744073709551614 18446744073709551615
      = some (18446744073709551614 % 18446744073709551615) ↔
      (18446744073709551614 % 18446744073709551615 : UInt64).toNat < 4294967296) ∧
    (moddi3 (-3000000000) 4000000000 = some (-3000000000 % 4000000000) ↔
      -2147483648 ≤ (-3000000000 % 4000000000 : Int64).toInt ∧
      (-3000000000 % 4000000000 : Int64).toInt < 2147483648) :=
  ⟨remainder_exact_iff.1 _ _ (by decide), remainder_exact_iff.2 _ _ (by decide)⟩

end Pintos.Lib
