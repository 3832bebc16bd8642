import Diffmonger.Fenwick
import Mathlib.Algebra.BigOperators.Intervals
import Mathlib.Data.Nat.Size

/-!
# The size of the schedule

Doubling a number doubles its lowest set bit. The even nodes that are alive after `2 * n`, and those
that are alive after `2 * n + 1`, are therefore twice the nodes that are alive after `n`; the odd
ones are the one or two newest. What can be said about how many nodes are alive, how much they take
up and how long the paths are follows by induction on the binary digits of `n`
(`binary_induction`): each of the quantities has an equation for `2 * n` and one for `2 * n + 1`.
-/

namespace Diffmonger

open LowBit

namespace Fenwick

/-!
## Alive nodes

Doubling a node doubles its lowest set bit, and the number of the node at whose creation it dies. So
the even nodes that are alive after `2 * n` or `2 * n + 1` are twice those that are alive after `n`.
An odd node dies three nodes later, so that no more than the last two odd nodes are alive.
-/

theorem two_mul_mem_alive_iff {j n : ℕ} : 2 * j ∈ fenwick.alive (2 * n) ↔ j ∈ fenwick.alive n := by
  rcases eq_or_ne j 0 with rfl | hj
  · exact iff_of_true (zero_mem_alive _) (zero_mem_alive _)
  · rw [mem_alive_iff (by omega), mem_alive_iff hj, lowBit_two_mul hj]
    omega

theorem two_mul_mem_alive_succ_iff {j n : ℕ} :
    2 * j ∈ fenwick.alive (2 * n + 1) ↔ j ∈ fenwick.alive n := by
  rcases eq_or_ne j 0 with rfl | hj
  · exact iff_of_true (zero_mem_alive _) (zero_mem_alive _)
  · rw [mem_alive_iff (by omega), mem_alive_iff hj, lowBit_two_mul hj]
    omega

theorem two_mul_add_one_mem_alive_iff {j n : ℕ} :
    2 * j + 1 ∈ fenwick.alive (2 * n) ↔ j + 1 = n := by
  rw [mem_alive_iff (by omega), lowBit_two_mul_add_one]
  omega

theorem two_mul_add_one_mem_alive_succ_iff {j n : ℕ} :
    2 * j + 1 ∈ fenwick.alive (2 * n + 1) ↔ j = n ∨ j + 1 = n := by
  rw [mem_alive_iff (by omega), lowBit_two_mul_add_one]
  omega

/-- The alive nodes, as a finite set. -/
def aliveFinset (n : ℕ) : Finset ℕ :=
  (Finset.range (n + 1)).filter fun k => k = 0 ∨ n < k + 3 * lowBit k

theorem mem_aliveFinset {k n : ℕ} : k ∈ aliveFinset n ↔ k ∈ fenwick.alive n := by
  rw [aliveFinset, Finset.mem_filter, Finset.mem_range]
  rcases eq_or_ne k 0 with rfl | hk
  · simp [zero_mem_alive]
  · rw [mem_alive_iff hk]
    simp only [hk, false_or]
    omega

/-- The double of a finite set. -/
def double (s : Finset ℕ) : Finset ℕ := s.image (2 * ·)

@[simp] theorem two_mul_mem_double {s : Finset ℕ} {j : ℕ} : 2 * j ∈ double s ↔ j ∈ s := by
  simp [double]

@[simp] theorem two_mul_add_one_notMem_double {s : Finset ℕ} {j : ℕ} : 2 * j + 1 ∉ double s := by
  simp only [double, Finset.mem_image, not_exists, not_and]
  intro k _ heq
  omega

theorem card_double (s : Finset ℕ) : (double s).card = s.card :=
  Finset.card_image_of_injective s fun a b h => by simpa using h

theorem sum_double (s : Finset ℕ) (f : ℕ → ℕ) : ∑ k ∈ double s, f k = ∑ k ∈ s, f (2 * k) :=
  Finset.sum_image fun a _ b _ h => by simpa using h

theorem aliveFinset_two_mul (n : ℕ) :
    aliveFinset (2 * (n + 1)) = insert (2 * n + 1) (double (aliveFinset (n + 1))) := by
  ext k
  rw [mem_aliveFinset, Finset.mem_insert]
  obtain ⟨j, rfl | rfl⟩ := Nat.even_or_odd' k
  · have hne : 2 * j ≠ 2 * n + 1 := by omega
    rw [two_mul_mem_alive_iff, two_mul_mem_double, mem_aliveFinset, or_iff_right hne]
  · rw [two_mul_add_one_mem_alive_iff]
    simp only [two_mul_add_one_notMem_double, or_false]
    omega

theorem aliveFinset_two_mul_add_one (n : ℕ) :
    aliveFinset (2 * (n + 1) + 1) =
      insert (2 * (n + 1) + 1) (insert (2 * n + 1) (double (aliveFinset (n + 1)))) := by
  ext k
  rw [mem_aliveFinset, Finset.mem_insert, Finset.mem_insert]
  obtain ⟨j, rfl | rfl⟩ := Nat.even_or_odd' k
  · have hne : 2 * j ≠ 2 * n + 1 := by omega
    have hne' : 2 * j ≠ 2 * (n + 1) + 1 := by omega
    rw [two_mul_mem_alive_succ_iff, two_mul_mem_double, mem_aliveFinset, or_iff_right hne',
      or_iff_right hne]
  · rw [two_mul_add_one_mem_alive_succ_iff]
    simp only [two_mul_add_one_notMem_double, or_false]
    omega

/-!
## How many nodes there are, and what they take up

Both numbers follow the recurrence of the previous section, by induction on the binary digits of
`n`: a digit adds one node, and another one if it is set.
-/

/-- The set bits of a number. -/
def popcount (n : ℕ) : ℕ := n.bits.count true

@[simp] theorem popcount_zero : popcount 0 = 0 := rfl

@[simp] theorem popcount_one : popcount 1 = 1 := by simp [popcount]

theorem popcount_two_mul (n : ℕ) : popcount (2 * n) = popcount n := by
  rcases eq_or_ne n 0 with rfl | hn
  · rfl
  · rw [popcount, Nat.bit0_bits n hn, List.count_cons_of_ne (by decide), popcount]

theorem popcount_two_mul_add_one (n : ℕ) : popcount (2 * n + 1) = popcount n + 1 := by
  rw [popcount, Nat.bit1_bits, List.count_cons_self, popcount]

theorem size_two_mul {n : ℕ} (hn : n ≠ 0) : (2 * n).size = n.size + 1 := by
  rw [← Nat.size_eq_bits_len, Nat.bit0_bits n hn, List.length_cons, Nat.size_eq_bits_len]

theorem size_two_mul_add_one (n : ℕ) : (2 * n + 1).size = n.size + 1 := by
  rw [← Nat.size_eq_bits_len, Nat.bit1_bits, List.length_cons, Nat.size_eq_bits_len]

/-- What holds of 1, and of `2 * n` and `2 * n + 1` if it holds of `n`, holds of every positive
number. -/
theorem binary_induction {motive : (n : ℕ) → n ≠ 0 → Prop} (one : motive 1 one_ne_zero)
    (even : ∀ n, motive (n + 1) n.succ_ne_zero → motive (2 * (n + 1)) (by omega))
    (odd : ∀ n, motive (n + 1) n.succ_ne_zero → motive (2 * (n + 1) + 1) (by omega)) (n : ℕ)
    (hn : n ≠ 0) : motive n hn := by
  induction n using Nat.strong_induction_on with
  | _ n ih =>
      obtain ⟨j, rfl | rfl⟩ := Nat.even_or_odd' n
      · obtain ⟨m, rfl⟩ := Nat.exists_eq_succ_of_ne_zero (by omega : j ≠ 0)
        exact even m (ih (m + 1) (by omega) (by omega))
      · rcases eq_or_ne j 0 with rfl | hj
        · exact one
        · obtain ⟨m, rfl⟩ := Nat.exists_eq_succ_of_ne_zero hj
          exact odd m (ih (m + 1) (by omega) (by omega))

theorem aliveFinset_one : aliveFinset 1 = {0, 1} := by
  ext k
  rw [mem_aliveFinset, (alive_eq_Iio_iff (n := 1)).mpr (by decide)]
  simp only [Set.mem_Iio, Finset.mem_insert, Finset.mem_singleton]
  omega

theorem log2_two_mul_add_one {n : ℕ} (hn : n ≠ 0) : (2 * n + 1).log2 = n.log2 + 1 := by
  rw [Nat.log2_def, if_pos (by omega), show (2 * n + 1) / 2 = n by omega]

/-- As many nodes are alive after `n` as `n` has bits and set bits. -/
theorem card_aliveFinset {n : ℕ} (hn : n ≠ 0) : (aliveFinset n).card = n.size + popcount n := by
  induction n, hn using binary_induction with
  | one => rw [aliveFinset_one]; simp
  | even n ih =>
      rw [aliveFinset_two_mul, Finset.card_insert_of_notMem two_mul_add_one_notMem_double,
        card_double, ih, size_two_mul n.add_one_ne_zero, popcount_two_mul]
      omega
  | odd n ih =>
      have hnew : 2 * (n + 1) + 1 ∉ insert (2 * n + 1) (double (aliveFinset (n + 1))) := by
        rw [Finset.mem_insert, not_or]
        exact ⟨by omega, two_mul_add_one_notMem_double⟩
      rw [aliveFinset_two_mul_add_one, Finset.card_insert_of_notMem hnew,
        Finset.card_insert_of_notMem two_mul_add_one_notMem_double, card_double, ih,
        size_two_mul_add_one, popcount_two_mul_add_one]
      omega

/-- The size of the difference that is stored for a node, if every snapshot introduces one unit of
new data; the root stands for none. -/
def weight (k : ℕ) : ℕ := k - parent k

@[simp] theorem weight_zero : weight 0 = 0 := rfl

theorem weight_of_ne_zero {k : ℕ} (hk : k ≠ 0) : weight k = lowBit k := by
  rw [weight, parent_of_ne_zero hk]
  have := lowBit_le hk
  omega

theorem weight_two_mul (k : ℕ) : weight (2 * k) = 2 * weight k := by
  rcases eq_or_ne k 0 with rfl | hk
  · rfl
  · rw [weight_of_ne_zero (by omega), weight_of_ne_zero hk, lowBit_two_mul hk]

theorem weight_two_mul_add_one (k : ℕ) : weight (2 * k + 1) = 1 := by
  rw [weight_of_ne_zero (by omega), lowBit_two_mul_add_one]

/-- What the alive nodes take up. -/
theorem sum_weight_aliveFinset {n : ℕ} (hn : n ≠ 0) :
    ∑ k ∈ aliveFinset n, weight k + 1 = n + 2 ^ n.log2 := by
  induction n, hn using binary_induction with
  | one => rw [aliveFinset_one]; simp [weight_two_mul_add_one 0, Nat.log2_def]
  | even n ih =>
      rw [aliveFinset_two_mul, Finset.sum_insert two_mul_add_one_notMem_double, sum_double,
        weight_two_mul_add_one, Nat.log2_two_mul n.add_one_ne_zero, pow_succ']
      simp only [weight_two_mul, ← Finset.mul_sum]
      omega
  | odd n ih =>
      have hnew : 2 * (n + 1) + 1 ∉ insert (2 * n + 1) (double (aliveFinset (n + 1))) := by
        rw [Finset.mem_insert, not_or]
        exact ⟨by omega, two_mul_add_one_notMem_double⟩
      rw [aliveFinset_two_mul_add_one, Finset.sum_insert hnew,
        Finset.sum_insert two_mul_add_one_notMem_double, sum_double, weight_two_mul_add_one,
        weight_two_mul_add_one, log2_two_mul_add_one n.add_one_ne_zero, pow_succ']
      simp only [weight_two_mul, ← Finset.mul_sum]
      omega

/-- While the next node is added, what is stored stays below 2.5 times what a chain of differences
takes up. -/
theorem peak_lt (n : ℕ) :
    2 * (∑ k ∈ aliveFinset n, weight k + weight (n + 1) + 1) < 5 * (n + 2) := by
  rcases eq_or_ne n 0 with rfl | hn
  · have hzero : aliveFinset 0 = {0} := by
      ext k
      rw [mem_aliveFinset, fenwick.alive_zero, Set.mem_singleton_iff, Finset.mem_singleton]
    rw [hzero, Finset.sum_singleton, weight_zero, weight_two_mul_add_one 0]
    decide
  · have hsum := sum_weight_aliveFinset hn
    have hlog : 2 ^ n.log2 ≤ n := Nat.log2_self_le hn
    obtain ⟨q, i, heq, hlow⟩ := exists_odd_mul n.succ_ne_zero
    have hpos := Nat.two_pow_pos i
    rw [weight_of_ne_zero n.succ_ne_zero, hlow]
    rcases eq_or_ne q 0 with rfl | hq
    · -- the next node is a power of two, and the greatest one so far is half of it
      rw [mul_zero, zero_add, one_mul] at heq
      have hlt : n.log2 < i := by
        rw [Nat.log2_lt hn]
        omega
      have hhalf : 2 ^ (n.log2 + 1) ≤ 2 ^ i := Nat.pow_le_pow_right (by decide) hlt
      rw [pow_succ'] at hhalf
      omega
    · have hthree : 3 * 2 ^ i ≤ (2 * q + 1) * 2 ^ i := Nat.mul_le_mul_right _ (by omega)
      omega

/-!
## What has been written

The payload of a node is as large as its lowest set bit. In the sum over all nodes up to `2 * n`,
the odd ones count one each, and the even ones twice what they do up to `n`.
-/

theorem sum_weight_two_mul (n : ℕ) :
    ∑ i ∈ Finset.Icc 1 (2 * n), weight i = 2 * ∑ i ∈ Finset.Icc 1 n, weight i + n := by
  induction n with
  | zero => rfl
  | succ n ih =>
      rw [show 2 * (n + 1) = 2 * n + 1 + 1 by ring, Finset.sum_Icc_succ_top (by omega),
        Finset.sum_Icc_succ_top (by omega), ih, Finset.sum_Icc_succ_top (by omega),
        weight_two_mul_add_one, show 2 * n + 1 + 1 = 2 * (n + 1) by ring, weight_two_mul]
      ring

theorem sum_weight_two_mul_add_one (n : ℕ) :
    ∑ i ∈ Finset.Icc 1 (2 * n + 1), weight i = 2 * ∑ i ∈ Finset.Icc 1 n, weight i + n + 1 := by
  rw [Finset.sum_Icc_succ_top (by omega), sum_weight_two_mul, weight_two_mul_add_one]

theorem two_mul_sum_weight_le {n : ℕ} (hn : n ≠ 0) :
    2 * ∑ i ∈ Finset.Icc 1 n, weight i ≤ n * (n.log2 + 2) := by
  induction n, hn using binary_induction with
  | one => simp [weight_two_mul_add_one 0]
  | even n ih =>
      rw [sum_weight_two_mul, Nat.log2_two_mul n.add_one_ne_zero]
      linarith
  | odd n ih =>
      rw [sum_weight_two_mul_add_one, log2_two_mul_add_one n.add_one_ne_zero]
      linarith [Nat.zero_le (n + 1).log2]

theorem two_mul_sum_weight_two_pow (k : ℕ) :
    2 * ∑ i ∈ Finset.Icc 1 (2 ^ k), weight i = (k + 2) * 2 ^ k := by
  induction k with
  | zero => simp [weight_two_mul_add_one 0]
  | succ k ih =>
      rw [pow_succ', sum_weight_two_mul, mul_add, ← mul_assoc, mul_comm 2 2, mul_assoc, ih]
      ring

/-!
## The paths

Going to the parent clears the lowest set bit. The path of `n` is therefore as long as `n` has set
bits.
-/

/-- Every step towards the root clears a bit. -/
theorem popcount_parent {n : ℕ} (hn : n ≠ 0) : popcount (parent n) + 1 = popcount n := by
  induction n, hn using binary_induction with
  | one =>
      have hlow : lowBit 1 = 1 := lowBit_two_mul_add_one 0
      rw [parent_of_ne_zero one_ne_zero, hlow]
      simp
  | even n ih =>
      have hdouble := weight_two_mul (n + 1)
      have hlt := parent_lt n.add_one_ne_zero
      have hlt' := parent_lt (k := 2 * (n + 1)) (by omega)
      have hparent : parent (2 * (n + 1)) = 2 * parent (n + 1) := by
        rw [weight, weight] at hdouble
        omega
      rw [hparent, popcount_two_mul, popcount_two_mul, ih]
  | odd n ih =>
      rw [parent_of_ne_zero (by omega), lowBit_two_mul_add_one, Nat.add_sub_cancel,
        popcount_two_mul, popcount_two_mul_add_one]

/-- A node all of whose bits are set. -/
theorem popcount_two_pow_sub_one (k : ℕ) : popcount (2 ^ k - 1) = k := by
  induction k with
  | zero => rfl
  | succ k ih =>
      have hpos := Nat.two_pow_pos k
      rw [show 2 ^ (k + 1) - 1 = 2 * (2 ^ k - 1) + 1 by rw [pow_succ']; omega,
        popcount_two_mul_add_one, ih]

end Fenwick

end Diffmonger
