import Diffmonger.Lib.LowBit
import Diffmonger.Lib.Retention

/-!
# The Fenwick retention schedule

What the tree is for, on exact natural numbers: the parent of node `k ≠ 0` is `k - LSB(k)`, its
demise is `k + 3 * LSB(k)`, and the root never dies. That these two functions form a `Retention`
schedule is the mathematical content of the design; `Tree/Loops.lean` shows that the bit-twiddling
loops enumerate this schedule.
-/

namespace Diffmonger

open LowBit

namespace Fenwick

/-- The parent of a node; the root is its own parent. -/
def parent (k : ℕ) : ℕ := if k = 0 then 0 else k - lowBit k

/-- The node upon whose creation a node dies; the root never does. -/
def demise (k : ℕ) : ℕ∞ := if k = 0 then ⊤ else ((k + 3 * lowBit k : ℕ) : ℕ∞)

@[simp] theorem parent_zero : parent 0 = 0 := rfl

theorem parent_of_ne_zero {k : ℕ} (hk : k ≠ 0) : parent k = k - lowBit k := if_neg hk

@[simp] theorem demise_zero : demise 0 = ⊤ := rfl

theorem demise_of_ne_zero {k : ℕ} (hk : k ≠ 0) : demise k = ((k + 3 * lowBit k : ℕ) : ℕ∞) :=
  if_neg hk

theorem parent_lt {k : ℕ} (hk : k ≠ 0) : parent k < k := by
  rw [parent_of_ne_zero hk]
  have := lowBit_pos k
  omega

/-- The lowest set bit at least doubles from a node to its parent. -/
theorem two_mul_lowBit_le_lowBit_parent {k : ℕ} (hk : k ≠ 0) (hp : parent k ≠ 0) :
    2 * lowBit k ≤ lowBit (parent k) := by
  rw [parent_of_ne_zero hk] at hp ⊢
  exact two_mul_lowBit_le hk hp

/-- Iterating the parent function from `n` stays within the block of every node met. -/
theorem iterate_parent_block (n i : ℕ) (h : parent^[i] n ≠ 0) :
    parent^[i] n ≤ n ∧ n < parent^[i] n + lowBit (parent^[i] n) := by
  induction i with
  | zero => exact ⟨le_rfl, Nat.lt_add_of_pos_right (lowBit_pos n)⟩
  | succ i ih =>
      rw [Function.iterate_succ_apply'] at h ⊢
      generalize parent^[i] n = b at ih h ⊢
      have hb : b ≠ 0 := by rintro rfl; exact h parent_zero
      obtain ⟨hle, hlt⟩ := ih hb
      have hdouble := two_mul_lowBit_le_lowBit_parent hb h
      have hpar := parent_of_ne_zero hb
      have := lowBit_le hb
      omega

/-- `a` is met on the way from `n` to the root as soon as `n` lies in the block of `a`. -/
theorem exists_iterate_parent {a : ℕ} (ha : a ≠ 0) :
    ∀ n, a ≤ n → n < a + lowBit a → ∃ i, parent^[i] n = a := by
  intro n
  induction n using Nat.strong_induction_on with
  | _ n ih =>
      intro hle hlt
      rcases eq_or_ne n a with rfl | hne
      · exact ⟨0, rfl⟩
      -- clearing the lowest set bit of `n` does not leave the block
      have hn : n ≠ 0 := by omega
      have hoff : lowBit n ≤ n - a := lowBit_le_sub (by omega) hlt
      have hpar := parent_of_ne_zero hn
      have hlow := lowBit_pos n
      obtain ⟨i, hi⟩ := ih (parent n) (parent_lt hn) (by omega) (by omega)
      exact ⟨i + 1, hi⟩

/-- The root is met from everywhere. -/
theorem exists_iterate_parent_zero (n : ℕ) : ∃ i, parent^[i] n = 0 := by
  induction n using Nat.strong_induction_on with
  | _ n ih =>
      rcases eq_or_ne n 0 with rfl | hn
      · exact ⟨0, rfl⟩
      · obtain ⟨i, hi⟩ := ih (parent n) (parent_lt hn)
        exact ⟨i + 1, hi⟩

end Fenwick

/-- The schedule of the tree. -/
def fenwick : Retention where
  parent := Fenwick.parent
  demise := Fenwick.demise
  parent_root := rfl
  parent_lt _ := Fenwick.parent_lt
  parent_succ_mem n := by
    rcases eq_or_ne (Fenwick.parent (n + 1)) 0 with h | h
    · rw [h]
      exact Fenwick.exists_iterate_parent_zero n
    · have hn : n + 1 ≠ 0 := n.succ_ne_zero
      have hpar := Fenwick.parent_of_ne_zero hn
      have hlow := Fenwick.two_mul_lowBit_le_lowBit_parent hn h
      have hpos := lowBit_pos (n + 1)
      have := lowBit_le hn
      exact Fenwick.exists_iterate_parent h n (by omega) (by omega)
  demise_le_parent k := by
    rcases eq_or_ne (Fenwick.parent k) 0 with h | h
    · rw [h, Fenwick.demise_zero]
      exact le_top
    · have hk : k ≠ 0 := by rintro rfl; exact h rfl
      have hpar := Fenwick.parent_of_ne_zero hk
      have hlow := Fenwick.two_mul_lowBit_le_lowBit_parent hk h
      rw [Fenwick.demise_of_ne_zero hk, Fenwick.demise_of_ne_zero h, Nat.cast_le]
      omega
  succ_lt_demise n := by
    rcases eq_or_ne n 0 with rfl | hn
    · exact WithTop.coe_lt_top _
    · have := lowBit_pos n
      rw [Fenwick.demise_of_ne_zero hn, Nat.cast_lt]
      omega

namespace Fenwick

theorem mem_alive_iff {k n : ℕ} (hk : k ≠ 0) :
    k ∈ fenwick.alive n ↔ k ≤ n ∧ n < k + 3 * lowBit k := by
  show k ≤ n ∧ (n : ℕ∞) < demise k ↔ _
  rw [demise_of_ne_zero hk, Nat.cast_lt]

theorem zero_mem_alive (n : ℕ) : 0 ∈ fenwick.alive n := ⟨n.zero_le, WithTop.coe_lt_top _⟩

theorem mem_dying_iff {k n : ℕ} : k ∈ fenwick.dying n ↔ k ≠ 0 ∧ k + 3 * lowBit k = n := by
  show demise k = n ↔ _
  rcases eq_or_ne k 0 with rfl | hk
  · simp
  · rw [demise_of_ne_zero hk, Nat.cast_inj]
    simp [hk]

/-- Nothing dies before the fifth node is created. -/
theorem notMem_dying_of_le {k n : ℕ} (h : n ≤ 3) : k ∉ fenwick.dying n := by
  rw [mem_dying_iff]
  have := lowBit_pos k
  omega

/-- Then node 1 does. -/
theorem one_notMem_alive {n : ℕ} (h : 3 < n) : 1 ∉ fenwick.alive n := by
  have hlow : lowBit 1 = 1 := lowBit_odd_mul 0 0
  rw [mem_alive_iff one_ne_zero, hlow]
  omega

/-- Everything is alive exactly as long. -/
theorem alive_eq_Iio_iff {n : ℕ} : fenwick.alive n = Set.Iio (n + 1) ↔ n ≤ 3 := by
  constructor
  · intro heq
    by_contra hlt
    refine one_notMem_alive (not_le.mp hlt) ?_
    rw [heq, Set.mem_Iio]
    omega
  · intro hle
    ext k
    rcases eq_or_ne k 0 with rfl | hk
    · simp [zero_mem_alive]
    · have := lowBit_pos k
      rw [mem_alive_iff hk, Set.mem_Iio]
      omega

/-- The ancestors of `n` are the root and the nodes in whose block `n` lies. -/
theorem mem_path_iff {a n : ℕ} :
    a ∈ fenwick.path n ↔ a = 0 ∨ (a ≤ n ∧ n < a + lowBit a) := by
  constructor
  · rintro ⟨i, hi⟩
    rcases eq_or_ne a 0 with ha | ha
    · exact Or.inl ha
    · have h : parent^[i] n = a := hi
      exact Or.inr (h ▸ iterate_parent_block n i (h ▸ ha))
  · rintro (rfl | ⟨hle, hlt⟩)
    · exact exists_iterate_parent_zero n
    · rcases eq_or_ne a 0 with rfl | ha
      · exact exists_iterate_parent_zero n
      · exact exists_iterate_parent ha n hle hlt

theorem path_zero : fenwick.path 0 = {0} := by
  ext a
  rw [mem_path_iff, Set.mem_singleton_iff]
  constructor
  · rintro (h | ⟨h, -⟩) <;> omega
  · exact Or.inl

/-- A node that is alive at age `2 * 2 ^ m` or more is a multiple of `2 ^ m`. -/
theorem two_pow_dvd_of_alive {k n m : ℕ} (hk : k ∈ fenwick.alive n) (hage : 2 * 2 ^ m ≤ n - k) :
    2 ^ m ∣ k := by
  rcases eq_or_ne k 0 with rfl | hk0
  · exact dvd_zero _
  · have hlt := ((mem_alive_iff hk0).mp hk).2
    rw [two_pow_dvd_iff hk0]
    by_contra hnot
    have hdouble : 2 * lowBit k ≤ 2 ^ m := by
      rw [lowBit, Nat.pow_le_pow_iff_right (by decide)] at hnot
      rw [lowBit, ← pow_succ', Nat.pow_le_pow_iff_right (by decide)]
      omega
    omega

/-- A multiple of `2 ^ m` is alive up to age `3 * 2 ^ m`, exclusive. -/
theorem mem_alive_of_dvd {k n m : ℕ} (hdvd : 2 ^ m ∣ k) (hle : k ≤ n) (hage : n - k < 3 * 2 ^ m) :
    k ∈ fenwick.alive n := by
  rcases eq_or_ne k 0 with rfl | hk0
  · exact zero_mem_alive n
  · have := (two_pow_dvd_iff hk0 m).mp hdvd
    exact (mem_alive_iff hk0).mpr ⟨hle, by omega⟩

/-- From every age on, the next node that is alive has at most twice that age. -/
theorem exists_alive_age {a n : ℕ} (ha : 1 ≤ a) (hlt : a < n) :
    ∃ k ∈ fenwick.alive n, a < n - k ∧ n - k ≤ 2 * a := by
  have hlog : 2 ^ a.log2 ≤ a := Nat.log2_self_le (by omega)
  have hlog' : a < 2 ^ (a.log2 + 1) := Nat.lt_log2_self
  rw [pow_succ'] at hlog'
  generalize a.log2 = m at hlog hlog'
  -- the greatest multiple of `2 ^ m` of a greater age
  have hdiv := Nat.div_add_mod (n - a - 1) (2 ^ m)
  have hmod := Nat.mod_lt (n - a - 1) (Nat.two_pow_pos m)
  refine ⟨2 ^ m * ((n - a - 1) / 2 ^ m), ?_, by omega, by omega⟩
  exact mem_alive_of_dvd (Nat.dvd_mul_right _ _) (by omega) (by omega)

/-- An odd multiple of `2 ^ m` is alive at no age from `3 * 2 ^ m` on. -/
theorem notMem_alive_of_odd {d n m : ℕ} (hage : 3 * 2 ^ m ≤ n - (2 * d + 1) * 2 ^ m) :
    (2 * d + 1) * 2 ^ m ∉ fenwick.alive n := by
  have hne : (2 * d + 1) * 2 ^ m ≠ 0 := by positivity
  rw [mem_alive_iff hne, lowBit_odd_mul]
  omega

end Fenwick

end Diffmonger
