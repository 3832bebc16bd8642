import Diffmonger.Lib.LowBit

/-!
# Bit manipulation on 64-bit words

What the usual idioms on a `UInt64` compute, as facts about the number it stands for: isolating the
lowest set bit, clearing or testing the bits below a power of two, and shifting a power of two or a
mask `2 ^ m - 1` by one; and when arithmetic that mixes an `Int64` with a `UInt64` is exact.
-/

namespace UInt64

open LowBit

theorem toNat_ne_zero {x : UInt64} : x.toNat ≠ 0 ↔ x ≠ 0 := by
  rw [ne_eq, ne_eq, ← UInt64.toNat_inj]; rfl

theorem toNat_neg_of_ne_zero {x : UInt64} (hx : x ≠ 0) : (-x).toNat = 2 ^ 64 - x.toNat := by
  have hlt := x.toNat_lt
  have hpos : x.toNat ≠ 0 := toNat_ne_zero.mpr hx
  rw [UInt64.toNat_neg, UInt64.size]
  omega

theorem toNat_sub_one {x : UInt64} (hx : x ≠ 0) : (x - 1).toNat = x.toNat - 1 :=
  UInt64.toNat_sub_of_le x 1
    (UInt64.le_iff_toNat_le.mpr (Nat.pos_of_ne_zero (toNat_ne_zero.mpr hx)))

/-- `x & -x` isolates the lowest set bit. -/
theorem toNat_and_neg {x : UInt64} (hx : x ≠ 0) : (x &&& -x).toNat = lowBit x.toNat := by
  have hpos : x.toNat ≠ 0 := toNat_ne_zero.mpr hx
  have hpred : 2 ^ 64 - x.toNat = 2 ^ 64 - ((x.toNat - 1) + 1) := by omega
  have hlt : x.toNat - 1 < 2 ^ 64 := by have := x.toNat_lt; omega
  apply Nat.eq_of_testBit_eq
  intro j
  rw [UInt64.toNat_and, toNat_neg_of_ne_zero hx, Nat.testBit_and, hpred,
    Nat.testBit_two_pow_sub_succ hlt, ← testBit_lowBit hpos]
  by_cases hj : j < 64
  · simp [hj]
  · have hbit : x.toNat.testBit j = false :=
      Nat.testBit_lt_two_pow (x.toNat_lt.trans_le (Nat.pow_le_pow_right (by decide) (by omega)))
    simp [hbit]

theorem toNat_and_neg_le (x : UInt64) : (x &&& -x).toNat ≤ x.toNat := by
  rw [UInt64.toNat_and]
  exact Nat.and_le_left

/-- `x - (x & -x)` clears the lowest set bit. -/
theorem toNat_sub_and_neg {x : UInt64} (hx : x ≠ 0) :
    (x - (x &&& -x)).toNat = x.toNat - lowBit x.toNat := by
  rw [UInt64.toNat_sub_of_le _ _ (UInt64.le_iff_toNat_le.mpr (toNat_and_neg_le x)),
    toNat_and_neg hx]

/-!
## Powers of two and masks

The operations on words that hold a power of two, or that are combined with one less, as arithmetic
on natural numbers. Each needs to know that nothing overflows.
-/

theorem toNat_one_shiftLeft_63 : ((1 : UInt64) <<< 63).toNat = 2 ^ 63 := rfl

section Power

variable {p : UInt64} {m : ℕ}

theorem toNat_shiftLeft_one_of_two_pow (hp : p.toNat = 2 ^ m) (hm : m < 63) :
    (p <<< 1).toNat = 2 ^ (m + 1) := by
  have hlt : 2 ^ (m + 1) < 2 ^ 64 := Nat.pow_lt_pow_right (by decide) (by omega)
  rw [UInt64.toNat_shiftLeft, hp, show (1 : UInt64).toNat % 64 = 1 from rfl, Nat.shiftLeft_eq,
    ← pow_succ]
  exact Nat.mod_eq_of_lt hlt

/-- `a & ~(p - 1)` rounds `a` down to a multiple of the power of two `p`. -/
theorem toNat_and_not_pred (hp : p.toNat = 2 ^ m) (hm : m < 64) (a : UInt64) :
    (a &&& ~~~(p - 1)).toNat = a.toNat / 2 ^ m * 2 ^ m := by
  have hpos := Nat.two_pow_pos m
  have hle : m ≤ 64 := hm.le
  have hpred : (p - 1).toNat = 2 ^ m - 1 := by
    rw [toNat_sub_one (toNat_ne_zero.mp (by omega)), hp]
  have hlt : 2 ^ m - 1 < 2 ^ 64 := by
    have := Nat.pow_le_pow_right (n := 2) (by decide) hle; omega
  have hnot : (~~~(p - 1)).toNat = 2 ^ 64 - ((2 ^ m - 1) + 1) := by
    rw [UInt64.toNat_not, hpred, UInt64.size]; omega
  apply Nat.eq_of_testBit_eq
  intro j
  rw [UInt64.toNat_and, hnot, Nat.testBit_and, Nat.testBit_two_pow_sub_succ hlt,
    Nat.testBit_two_pow_sub_one, Nat.testBit_mul_two_pow, Nat.testBit_div_two_pow]
  by_cases hj : j < 64
  · rcases Nat.lt_or_ge j m with h | h
    · simp [h]
    · simp [hj, h, Nat.sub_add_cancel h]
  · have hbit : a.toNat.testBit j = false :=
      Nat.testBit_lt_two_pow (a.toNat_lt.trans_le (Nat.pow_le_pow_right (by decide) (by omega)))
    rcases Nat.lt_or_ge j m with h | h
    · simp [h]
    · simp [h, hbit, Nat.sub_add_cancel h]

theorem toNat_shiftRight_one (p : UInt64) : (p >>> 1).toNat = p.toNat / 2 := by
  rw [UInt64.toNat_shiftRight, Nat.shiftRight_eq_div_pow]; rfl

theorem toNat_shiftRight_two (p : UInt64) : (p >>> 2).toNat = p.toNat / 4 := by
  rw [UInt64.toNat_shiftRight, Nat.shiftRight_eq_div_pow]; rfl

end Power

section Mask

variable {mask : UInt64} {m : ℕ}

/-- `mask | mask << 1` is the next mask. -/
theorem toNat_or_shiftLeft_one (hmask : mask.toNat = 2 ^ (m + 1) - 1) (hm : m < 63) :
    (mask ||| (mask <<< 1)).toNat = 2 ^ (m + 2) - 1 := by
  have hle : 2 ^ (m + 2) ≤ 2 ^ 64 := Nat.pow_le_pow_right (by decide) (by omega)
  have hpos := Nat.two_pow_pos (m + 1)
  have hshift : (mask <<< 1).toNat = 2 * (2 ^ (m + 1) - 1) := by
    rw [UInt64.toNat_shiftLeft, hmask, show (1 : UInt64).toNat % 64 = 1 from rfl,
      Nat.shiftLeft_eq, Nat.mod_eq_of_lt (by rw [pow_succ 2 (m + 1)] at hle; omega)]
    ring
  rw [UInt64.toNat_or, hmask, hshift]
  apply Nat.eq_of_testBit_eq
  intro j
  rw [Nat.testBit_or, Nat.testBit_two_pow_sub_one, Nat.testBit_two_pow_sub_one]
  cases j with
  | zero => simp
  | succ j =>
      rw [Nat.testBit_succ (2 * _), Nat.mul_div_cancel_left _ (by decide),
        Nat.testBit_two_pow_sub_one]
      simp only [← Bool.decide_or, decide_eq_decide]
      omega

/-- No bit of `x` above the mask is set. -/
theorem and_not_mask_eq_zero_iff (hmask : mask.toNat = 2 ^ m - 1) (hm : m < 64) (x : UInt64) :
    x &&& ~~~mask = 0 ↔ x.toNat < 2 ^ m := by
  have hpos := Nat.two_pow_pos m
  have hlt : 2 ^ m < 2 ^ 64 := Nat.pow_lt_pow_right (by decide) hm
  have hp : (mask + 1).toNat = 2 ^ m := by
    rw [UInt64.toNat_add, hmask, show (1 : UInt64).toNat = 1 from rfl, Nat.sub_add_cancel hpos]
    exact Nat.mod_eq_of_lt hlt
  have hmask' : mask = mask + 1 - 1 := by rw [UInt64.add_sub_cancel]
  rw [hmask', ← UInt64.toNat_inj, toNat_and_not_pred hp hm, show (0 : UInt64).toNat = 0 from rfl,
    mul_eq_zero, Nat.div_eq_zero_iff]
  omega

/-- No bit of `x` below the mask is set. -/
theorem and_mask_eq_zero_iff (hmask : mask.toNat = 2 ^ m - 1) (x : UInt64) :
    x &&& mask = 0 ↔ 2 ^ m ∣ x.toNat := by
  rw [← UInt64.toNat_inj, UInt64.toNat_and, hmask, Nat.and_two_pow_sub_one_eq_mod,
    Nat.dvd_iff_mod_eq_zero]
  rfl

end Mask

/-! ## Signed words -/

theorem toInt_toInt64 {x : UInt64} (h : x.toNat < 2 ^ 63) : x.toInt64.toInt = x.toNat := by
  show x.toBitVec.toInt = _
  rw [BitVec.toInt_eq_toNat_of_lt (by rw [UInt64.toNat_toBitVec]; omega), UInt64.toNat_toBitVec]

/-- Adding a signed word that has been converted is exact where the sum is a word. -/
theorem toNat_add_toUInt64 {x : UInt64} {a : Int64} (h : 0 ≤ x.toNat + a.toInt)
    (h' : x.toNat + a.toInt < 2 ^ 64) : ((x + a.toUInt64).toNat : ℤ) = x.toNat + a.toInt := by
  have ha : a.toInt = if 2 * a.toUInt64.toNat < 2 ^ 64 then (a.toUInt64.toNat : ℤ)
      else (a.toUInt64.toNat : ℤ) - 2 ^ 64 := BitVec.toInt_eq_toNat_cond _
  have hx := x.toNat_lt
  have hlt := a.toUInt64.toNat_lt
  rw [UInt64.toNat_add]
  split at ha <;> omega

theorem toNat_toUInt64 {a : Int64} (h : 0 ≤ a.toInt) : (a.toUInt64.toNat : ℤ) = a.toInt := by
  have hlt := a.toInt_lt
  have hadd : ((0 + a.toUInt64).toNat : ℤ) = (0 : UInt64).toNat + a.toInt :=
    toNat_add_toUInt64 (by simpa using h) (by simp; omega)
  simpa using hadd

end UInt64

namespace Int64

theorem toInt_sub_one {a : Int64} (h : minValue < a) : (a - 1).toInt = a.toInt - 1 := by
  rw [lt_iff_toInt_lt, toInt_minValue] at h
  have hlt := a.toInt_lt
  rw [toInt_sub, show (1 : Int64).toInt = 1 from rfl]
  exact Int.bmod_eq_of_le (by omega) (by omega)

theorem toInt_neg_of_nonneg {a : Int64} (h : 0 ≤ a.toInt) : (-a).toInt = -a.toInt := by
  have hlt := a.toInt_lt
  rw [toInt_neg]
  exact Int.bmod_eq_of_le (by omega) (by omega)

end Int64
