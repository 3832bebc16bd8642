import Mathlib.Data.ENat.Basic
import Mathlib.Logic.Function.Iterate
import Mathlib.Data.Set.Insert

/-!
# Retention schedules

Items are numbered `0, 1, 2, …` in the order in which they are created. A *retention schedule*
hangs every item below an earlier one, its parent, and says at the creation of which item it stops
being kept, its demise. Item `0` is the root of the tree.

The schedule decides which items are kept after the creation of item `n` (`alive n`), which ones
stop being kept at that moment (`dying n`) and which ones the item `n` rests on (`path n`, its
ancestors and itself). The results are the recurrence between the three (`alive_succ`), and what a
store that removes the dying items one at a time may rely on half way through (`PartlyPruned`).
-/

/-- A numbered forest in which an item outlives every item that rests on it. -/
structure Retention where
  parent : ℕ → ℕ
  demise : ℕ → ℕ∞
  parent_root : parent 0 = 0
  parent_lt : ∀ k, k ≠ 0 → parent k < k
  /-- The next item hangs below an item that the newest one rests on. -/
  parent_succ_mem : ∀ n, ∃ i, parent^[i] n = parent (n + 1)
  demise_le_parent : ∀ k, demise k ≤ demise (parent k)
  /-- What the newest item rests on is kept beyond the creation of the next one. -/
  succ_lt_demise : ∀ n, ((n + 1 : ℕ) : ℕ∞) < demise n

namespace Retention

variable (R : Retention)

/-- The items kept after the creation of `n`. -/
def alive (n : ℕ) : Set ℕ := {k | k ≤ n ∧ (n : ℕ∞) < R.demise k}

/-- The items that stop being kept at the creation of `n`. -/
def dying (n : ℕ) : Set ℕ := {k | R.demise k = n}

/-- `n` and its ancestors. -/
def path (n : ℕ) : Set ℕ := {a | ∃ i, R.parent^[i] n = a}

theorem self_mem_path (n : ℕ) : n ∈ R.path n := ⟨0, rfl⟩

theorem path_trans {a b n : ℕ} (hab : a ∈ R.path b) (hbn : b ∈ R.path n) : a ∈ R.path n := by
  obtain ⟨i, rfl⟩ := hab
  obtain ⟨j, rfl⟩ := hbn
  exact ⟨i + j, Function.iterate_add_apply _ _ _ _⟩

theorem path_le {a n : ℕ} (h : a ∈ R.path n) : a ≤ n := by
  obtain ⟨i, rfl⟩ := h
  induction i generalizing n with
  | zero => exact le_rfl
  | succ i ih =>
      rw [Function.iterate_succ_apply]
      refine ih.trans ?_
      rcases eq_or_ne n 0 with rfl | hn
      · rw [R.parent_root]
      · exact (R.parent_lt n hn).le

/-- The path of an item is the item and the path of its parent. -/
theorem path_eq_insert (n : ℕ) : R.path n = insert n (R.path (R.parent n)) := by
  ext a
  constructor
  · rintro ⟨i, rfl⟩
    cases i with
    | zero => exact Set.mem_insert _ _
    | succ i => exact Or.inr ⟨i, rfl⟩
  · rintro (rfl | ⟨i, rfl⟩)
    · exact R.self_mem_path a
    · exact ⟨i + 1, rfl⟩

/-- Storing the next item adds it to the path of the newest one, and may drop some of that path. -/
theorem path_succ_subset (n : ℕ) : R.path (n + 1) ⊆ insert (n + 1) (R.path n) := by
  rw [path_eq_insert]
  exact Set.insert_subset_insert fun _ ha => R.path_trans ha (R.parent_succ_mem n)

/-- What an item rests on, and is older than another item it rests on, that one rests on too. -/
theorem le_parent_of_mem_path {a m n : ℕ} (ha : a ∈ R.path n) (hm : m ∈ R.path n) (hlt : a < m) :
    a ≤ R.parent m := by
  obtain ⟨i, rfl⟩ := ha
  obtain ⟨j, rfl⟩ := hm
  rcases Nat.lt_or_ge j i with hji | hij
  · refine R.path_le ⟨i - j - 1, ?_⟩
    rw [← Function.iterate_succ_apply, ← Function.iterate_add_apply]
    congr 1
    omega
  · have hle : R.parent^[j] n ≤ R.parent^[i] n := by
      refine R.path_le ⟨j - i, ?_⟩
      rw [← Function.iterate_add_apply, Nat.sub_add_cancel hij]
    omega

theorem demise_le_of_mem_path {a n : ℕ} (h : a ∈ R.path n) : R.demise n ≤ R.demise a := by
  obtain ⟨i, rfl⟩ := h
  induction i generalizing n with
  | zero => exact le_rfl
  | succ i ih => exact (R.demise_le_parent n).trans ih

/-!
## Ancestors are kept

From the one condition that a parent is not dropped before its child: along a path, items are
dropped in order.
-/

/-- A kept item's ancestors are kept. -/
theorem path_subset_alive_of_mem {k n : ℕ} (hk : k ∈ R.alive n) : R.path k ⊆ R.alive n :=
  fun _ ha => ⟨(R.path_le ha).trans hk.1, hk.2.trans_le (R.demise_le_of_mem_path ha)⟩

theorem self_mem_alive (n : ℕ) : n ∈ R.alive n :=
  ⟨le_rfl, (Nat.cast_lt.mpr n.lt_succ_self).trans (R.succ_lt_demise n)⟩

theorem path_subset_alive (n : ℕ) : R.path n ⊆ R.alive n :=
  R.path_subset_alive_of_mem (R.self_mem_alive n)

/-- Nothing that the newest item rests on dies at the creation of any item up to the next one. -/
theorem not_mem_dying_of_mem_path {a n m : ℕ} (ha : a ∈ R.path n) (hm : m ≤ n + 1) :
    a ∉ R.dying m := by
  intro hd
  have hlt : ((n + 1 : ℕ) : ℕ∞) < m :=
    (R.succ_lt_demise n).trans_le ((R.demise_le_of_mem_path ha).trans_eq hd)
  exact absurd (Nat.cast_lt.mp hlt) (by omega)

/-!
## The recurrence

What is kept changes by one item that is new and by the items that are dropped with it. A store that
deletes just these, each time it creates an item, therefore always holds what it should.
-/

theorem lt_of_mem_dying {k n : ℕ} (h : k ∈ R.dying n) : k + 1 < n := by
  have hlt := R.succ_lt_demise k
  rw [show R.demise k = n from h] at hlt
  exact Nat.cast_lt.mp hlt

theorem dying_subset_alive (n : ℕ) : R.dying (n + 1) ⊆ R.alive n := by
  intro k hk
  have hlt := R.lt_of_mem_dying hk
  refine ⟨by omega, ?_⟩
  rw [show R.demise k = ((n + 1 : ℕ) : ℕ∞) from hk]
  exact Nat.cast_lt.mpr n.lt_succ_self

/-- Creating an item keeps what was kept, except what dies with it, and the item itself. -/
theorem alive_succ (n : ℕ) : R.alive (n + 1) = insert (n + 1) (R.alive n \ R.dying (n + 1)) := by
  ext k
  constructor
  · rintro ⟨hle, hlt⟩
    rcases Nat.lt_or_eq_of_le hle with hk | rfl
    · refine Or.inr ⟨⟨by omega, (Nat.cast_lt.mpr n.lt_succ_self).trans hlt⟩, ?_⟩
      exact fun hd => absurd hlt (by rw [show R.demise k = ((n + 1 : ℕ) : ℕ∞) from hd]; simp)
    · exact Set.mem_insert _ _
  · rintro (rfl | ⟨⟨hle, hlt⟩, hnd⟩)
    · exact R.self_mem_alive _
    · refine ⟨by omega, lt_of_le_of_ne ?_ (Ne.symm hnd)⟩
      rw [Nat.cast_succ]
      exact Order.add_one_le_of_lt hlt

theorem succ_notMem_alive (n : ℕ) : n + 1 ∉ R.alive n := fun h => absurd h.1 (by omega)

/-- What dies with an item is what was kept before it and is not after it. -/
theorem dying_eq (n : ℕ) : R.dying (n + 1) = R.alive n \ R.alive (n + 1) := by
  ext k
  rw [alive_succ]
  constructor
  · intro hk
    refine ⟨R.dying_subset_alive n hk, ?_⟩
    rintro (rfl | ⟨-, hnd⟩)
    · exact absurd (R.lt_of_mem_dying hk) (by omega)
    · exact hnd hk
  · rintro ⟨hk, hnot⟩
    by_contra hnd
    exact hnot (Or.inr ⟨hk, hnd⟩)

/-- The items kept before the creation of `c`. -/
def aliveBefore : ℕ → Set ℕ
  | 0 => ∅
  | n + 1 => R.alive n

theorem lt_of_mem_aliveBefore {k c : ℕ} (h : k ∈ R.aliveBefore c) : k < c := by
  cases c with
  | zero => exact h.elim
  | succ n => exact Nat.lt_succ_of_le h.1

theorem self_notMem_dying (n : ℕ) : n ∉ R.dying n := fun h => absurd (R.lt_of_mem_dying h) (by omega)

theorem pred_notMem_dying (n : ℕ) : n - 1 ∉ R.dying n :=
  fun h => absurd (R.lt_of_mem_dying h) (by omega)

/-- The first item is alone. -/
theorem alive_zero : R.alive 0 = {0} := by
  ext k
  constructor
  · exact fun h => Nat.le_zero.mp h.1
  · rintro rfl
    exact R.self_mem_alive 0

theorem aliveBefore_succ (c : ℕ) :
    R.aliveBefore (c + 1) = insert c (R.aliveBefore c \ R.dying c) := by
  cases c with
  | zero => rw [aliveBefore, aliveBefore, alive_zero, Set.empty_sdiff, insert_empty_eq]
  | succ n => exact R.alive_succ n

/-!
## Stores that are being pruned

In between, a store holds too much, but never too little: what is about to be dropped is on no path
that the next item needs.
-/

/-- `S` is what is kept after the creation of `n`, less some of the items that die with the next
one: the state of a store that removes the dying items before it creates the next item. -/
structure PartlyPruned (n : ℕ) (S : Set ℕ) : Prop where
  alive_diff_subset : R.alive n \ R.dying (n + 1) ⊆ S
  subset_alive : S ⊆ R.alive n

variable {R}

theorem partlyPruned_alive (n : ℕ) : R.PartlyPruned n (R.alive n) :=
  ⟨Set.sdiff_subset, le_rfl⟩

theorem PartlyPruned.path_subset {n : ℕ} {S : Set ℕ} (h : R.PartlyPruned n S) : R.path n ⊆ S :=
  fun _ ha => h.alive_diff_subset
    ⟨R.path_subset_alive n ha, R.not_mem_dying_of_mem_path ha le_rfl⟩

theorem PartlyPruned.parent_succ_mem {n : ℕ} {S : Set ℕ} (h : R.PartlyPruned n S) :
    R.parent (n + 1) ∈ S :=
  h.path_subset (R.parent_succ_mem n)

/-- Removing dying items, all or some, leaves a partly pruned store. -/
theorem PartlyPruned.diff {n : ℕ} {S D : Set ℕ} (h : R.PartlyPruned n S)
    (hD : D ⊆ R.dying (n + 1)) : R.PartlyPruned n (S \ D) :=
  ⟨fun _ hk => ⟨h.alive_diff_subset hk, fun hd => hk.2 (hD hd)⟩,
   Set.sdiff_subset.trans h.subset_alive⟩

/-- Once the dying items are all removed, creating the next item gives exactly what is to be kept.
-/
theorem PartlyPruned.insert_diff_dying {n : ℕ} {S : Set ℕ} (h : R.PartlyPruned n S) :
    insert (n + 1) (S \ R.dying (n + 1)) = R.alive (n + 1) := by
  rw [alive_succ]
  congr 1
  exact Set.Subset.antisymm (Set.sdiff_subset_sdiff_left h.subset_alive)
    fun k hk => ⟨h.alive_diff_subset hk, hk.2⟩

variable (R) in
/-- `S` is a store into which `c` items have been put, and which is being pruned for the next. -/
def Kept : ℕ → Set ℕ → Prop
  | 0, S => S = ∅
  | n + 1, S => R.PartlyPruned n S

theorem Kept.diff {c : ℕ} {S D : Set ℕ} (h : R.Kept c S) (hD : D ⊆ R.dying c) :
    R.Kept c (S \ D) := by
  cases c with
  | zero => rw [show S = ∅ from h]; exact Set.empty_sdiff D
  | succ n => exact PartlyPruned.diff h hD

/-- A store that holds nothing that is about to die is ready for the next item. -/
theorem Kept.insert {c : ℕ} {S : Set ℕ} (h : R.Kept c S) (hD : ∀ k ∈ S, k ∉ R.dying c) :
    insert c S = R.alive c := by
  cases c with
  | zero =>
      rw [show S = ∅ from h, alive_zero]
      exact insert_empty_eq 0
  | succ n =>
      rw [← PartlyPruned.insert_diff_dying h, sdiff_eq_left.mpr (Set.disjoint_left.mpr hD)]

/-- What an item rests on is there, and is not about to die, unless the item is. -/
theorem Kept.path_subset {c k : ℕ} {S : Set ℕ} (h : R.Kept c S) (hk : k ∈ S)
    (hdying : k ∉ R.dying c) : R.path k ⊆ S \ R.dying c := by
  cases c with
  | zero => exact absurd hk (by rw [show S = ∅ from h]; exact Set.notMem_empty k)
  | succ n =>
      intro a ha
      have halive := PartlyPruned.subset_alive h hk
      have hnot : a ∉ R.dying (n + 1) := by
        intro hdies
        have hle : R.demise k ≤ ((n + 1 : ℕ) : ℕ∞) :=
          (R.demise_le_of_mem_path ha).trans_eq hdies
        refine hdying (le_antisymm hle ?_)
        rw [Nat.cast_succ]
        exact Order.add_one_le_of_lt halive.2
      exact ⟨PartlyPruned.alive_diff_subset h ⟨R.path_subset_alive_of_mem halive ha, hnot⟩, hnot⟩

theorem kept_alive (n : ℕ) : R.Kept (n + 1) (R.alive n) := partlyPruned_alive n

theorem Kept.notMem {c : ℕ} {S : Set ℕ} (h : R.Kept c S) {k : ℕ} (hk : c ≤ k) : k ∉ S := by
  cases c with
  | zero => rw [show S = ∅ from h]; exact Set.notMem_empty k
  | succ n => exact fun hS => absurd (h.subset_alive hS).1 (by omega)

end Retention
