import Mathlib.NumberTheory.Padics.PadicVal.Basic

/-!
# The lowest set bit of a natural number

`lowBit n` is the value of the least significant set bit of `n`, the largest power of two dividing
`n`. Zero has no set bit; `lowBit 0 = 1` is a junk value that no lemma below relies on.

The second half is about multiples of powers of two in a half-open window: the facts a loop that
walks down the multiples of `2 ^ i`, doubling the spacing as it goes, needs.
-/

namespace LowBit

/-- The value of the least significant set bit. -/
def lowBit (n : ℕ) : ℕ := 2 ^ padicValNat 2 n

theorem lowBit_pos (n : ℕ) : 0 < lowBit n := Nat.two_pow_pos _

theorem lowBit_dvd (n : ℕ) : lowBit n ∣ n := pow_padicValNat_dvd

theorem lowBit_le {n : ℕ} (hn : n ≠ 0) : lowBit n ≤ n :=
  Nat.le_of_dvd (Nat.pos_of_ne_zero hn) (lowBit_dvd n)

/-- The powers of two dividing `n` are those up to its lowest set bit. -/
theorem two_pow_dvd_iff {n : ℕ} (hn : n ≠ 0) (i : ℕ) : 2 ^ i ∣ n ↔ 2 ^ i ≤ lowBit n := by
  rw [padicValNat_dvd_iff_le hn, lowBit, Nat.pow_le_pow_iff_right (by decide)]

theorem lowBit_eq_two_pow_iff {n : ℕ} (hn : n ≠ 0) (i : ℕ) :
    lowBit n = 2 ^ i ↔ 2 ^ i ∣ n ∧ ¬ 2 ^ (i + 1) ∣ n := by
  rw [padicValNat_dvd_iff_le hn, padicValNat_dvd_iff_le hn, lowBit,
    Nat.pow_right_injective (le_refl 2) |>.eq_iff]
  omega

/-- An odd multiple of `2 ^ i` has lowest set bit `2 ^ i`. -/
theorem lowBit_odd_mul (q i : ℕ) : lowBit ((2 * q + 1) * 2 ^ i) = 2 ^ i := by
  have hne : (2 * q + 1) * 2 ^ i ≠ 0 := by positivity
  rw [lowBit_eq_two_pow_iff hne]
  refine ⟨Dvd.intro_left _ rfl, ?_⟩
  rw [pow_succ', Nat.mul_dvd_mul_iff_right (Nat.two_pow_pos i)]
  omega

/-- Every positive number is an odd multiple of its lowest set bit. -/
theorem exists_odd_mul {n : ℕ} (hn : n ≠ 0) :
    ∃ q i, n = (2 * q + 1) * 2 ^ i ∧ lowBit n = 2 ^ i := by
  obtain ⟨i, m, ⟨q, rfl⟩, rfl⟩ := Nat.exists_eq_two_pow_mul_odd hn
  exact ⟨q, i, mul_comm _ _, by rw [mul_comm]; exact lowBit_odd_mul q i⟩

/-- Doubling a number doubles its lowest set bit. -/
theorem lowBit_two_mul {n : ℕ} (hn : n ≠ 0) : lowBit (2 * n) = 2 * lowBit n := by
  obtain ⟨q, i, rfl, hi⟩ := exists_odd_mul hn
  rw [hi, ← pow_succ', ← lowBit_odd_mul q (i + 1), pow_succ']
  congr 1
  ring

theorem lowBit_two_mul_add_one (n : ℕ) : lowBit (2 * n + 1) = 1 := by
  have h := lowBit_odd_mul n 0
  rwa [pow_zero, mul_one] at h

/-- Clearing the lowest set bit leaves a multiple of twice that bit. -/
theorem two_mul_lowBit_dvd_sub {n : ℕ} (hn : n ≠ 0) : 2 * lowBit n ∣ n - lowBit n := by
  obtain ⟨q, i, hq, hi⟩ := exists_odd_mul hn
  rw [hi, hq]
  exact ⟨q, by rw [add_mul, one_mul, Nat.add_sub_cancel]; ring⟩

/-- Clearing the lowest set bit more than doubles the lowest set bit of what is left. -/
theorem two_mul_lowBit_le {n : ℕ} (hn : n ≠ 0) (hsub : n - lowBit n ≠ 0) :
    2 * lowBit n ≤ lowBit (n - lowBit n) := by
  have hdvd := two_mul_lowBit_dvd_sub hn
  rw [lowBit, ← pow_succ'] at hdvd ⊢
  exact (two_pow_dvd_iff hsub _).mp hdvd

/-- Only the power of two itself among the numbers of `i + 1` bits reaches `2 ^ (i + 2)` when three
times its lowest set bit is added. -/
theorem add_three_mul_lowBit_lt {n i : ℕ} (hn : n ≠ 0) (hlt : n < 2 ^ (i + 1)) (hne : n ≠ 2 ^ i) :
    n + 3 * lowBit n < 2 ^ (i + 2) := by
  have hlow : lowBit n < 2 ^ i := by
    rw [← not_le, ← two_pow_dvd_iff hn]
    rintro ⟨c, rfl⟩
    have hc : c < 2 := Nat.lt_of_mul_lt_mul_left (pow_succ 2 i ▸ hlt)
    interval_cases c
    · exact hn (Nat.mul_zero _)
    · exact hne (Nat.mul_one _)
  have htwice : 2 * lowBit n ≤ 2 ^ i := by
    rw [lowBit, Nat.pow_lt_pow_iff_right (by decide)] at hlow
    rw [lowBit, ← pow_succ']
    exact Nat.pow_le_pow_right (by decide) hlow
  rw [pow_succ] at hlt
  rw [pow_succ, pow_succ]
  omega

theorem two_pow_le_lowBit_iff {n i : ℕ} :
    2 ^ i ≤ lowBit n ↔ lowBit n = 2 ^ i ∨ 2 ^ (i + 1) ≤ lowBit n := by
  rw [lowBit, Nat.pow_le_pow_iff_right (by decide), Nat.pow_le_pow_iff_right (by decide),
    Nat.pow_right_injective (le_refl 2) |>.eq_iff]
  omega

theorem lowBit_dvd_lowBit_total (a b : ℕ) : lowBit a ∣ lowBit b ∨ lowBit b ∣ lowBit a :=
  (le_total (padicValNat 2 a) (padicValNat 2 b)).imp (pow_dvd_pow 2) (pow_dvd_pow 2)

/-- Within the block of `a`, the lowest set bit of a number is at most its offset from `a`. -/
theorem lowBit_le_sub {a n : ℕ} (hlt : a < n) (hblock : n < a + lowBit a) :
    lowBit n ≤ n - a := by
  have hoff : 0 < n - a := by omega
  rcases lowBit_dvd_lowBit_total a n with h | h
  · have hdvd : lowBit a ∣ n - a := Nat.dvd_sub (h.trans (lowBit_dvd n)) (lowBit_dvd a)
    have := Nat.le_of_dvd hoff hdvd
    omega
  · exact Nat.le_of_dvd hoff (Nat.dvd_sub (lowBit_dvd n) (h.trans (lowBit_dvd a)))

/-!
## Bits

How the lowest set bit is computed: `n` and `n - 1` differ in it and in the bits below it, of which
`n` has none.
-/

/-- The bits of an odd multiple of `2 ^ i` that differ from those of its predecessor. -/
theorem testBit_lowBit {n : ℕ} (hn : n ≠ 0) (j : ℕ) :
    (n.testBit j && !(n - 1).testBit j) = (lowBit n).testBit j := by
  obtain ⟨q, i, rfl, hi⟩ := exists_odd_mul hn
  have hpred : (2 * q + 1) * 2 ^ i - 1 = 2 ^ i * (2 * q) + (2 ^ i - 1) := by
    have := Nat.two_pow_pos i
    rw [add_mul, one_mul, mul_comm (2 * q)]; omega
  have hself : (2 * q + 1) * 2 ^ i = 2 ^ i * (2 * q + 1) + 0 := by ring
  have hlt : 2 ^ i - 1 < 2 ^ i := by have := Nat.two_pow_pos i; omega
  rw [hi, hpred, hself, Nat.testBit_two_pow_mul_add _ hlt,
    Nat.testBit_two_pow_mul_add _ (Nat.two_pow_pos i), Nat.testBit_two_pow]
  rcases lt_trichotomy j i with hj | rfl | hj
  · simp [hj, Nat.ne_of_gt hj]
  · simp [Nat.testBit_zero]
  · obtain ⟨d, hd⟩ : ∃ d, j - i = d + 1 := ⟨j - i - 1, by omega⟩
    have hnlt : ¬ j < i := by omega
    simp only [hnlt, if_false, hd, Nat.testBit_succ]
    have h1 : (2 * q + 1) / 2 = q := by omega
    have h2 : 2 * q / 2 = q := by omega
    rw [h1, h2, Bool.and_not_self]
    simp; omega

/-!
## Multiples in a window

Going down from one multiple of a power of two to the next multiple of twice that power, as a loop
does that doubles the power in each iteration.
-/

/-- The multiple of `2 ^ m` strictly below a multiple `c * 2 ^ (m - 1)`, `c ≠ 0`, as the loop
computes it: subtract one and clear the `m` low bits. -/
theorem pred_div_mul_of_even (c p : ℕ) (hp : 0 < p) :
    ((2 * c + 2) * p - 1) / (2 * p) * (2 * p) = (2 * c + 2) * p - 2 * p := by
  have h : ((2 * c + 2) * p - 1) / (2 * p) = c := by
    apply Nat.div_eq_of_lt_le
    · rw [show (2 * c + 2) * p = c * (2 * p) + 2 * p by ring]; omega
    · rw [show (2 * c + 2) * p = (c + 1) * (2 * p) by ring]
      have : 0 < (c + 1) * (2 * p) := by positivity
      omega
  rw [h, show (2 * c + 2) * p = c * (2 * p) + 2 * p by ring, Nat.add_sub_cancel]

theorem pred_div_mul_of_odd (c p : ℕ) (hp : 0 < p) :
    ((2 * c + 1) * p - 1) / (2 * p) * (2 * p) = (2 * c + 1) * p - p := by
  have h : ((2 * c + 1) * p - 1) / (2 * p) = c := by
    apply Nat.div_eq_of_lt_le
    · rw [show (2 * c + 1) * p = c * (2 * p) + p by ring]; omega
    · have : (c + 1) * (2 * p) = (2 * c + 1) * p + p := by ring
      omega
  rw [h, show (2 * c + 1) * p = c * (2 * p) + p by ring, Nat.add_sub_cancel]

end LowBit
