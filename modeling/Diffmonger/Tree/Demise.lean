import Diffmonger.Tree.Loops

/-!
# The time of demise

`time_of_demise` adds three times a node's lowest set bit to the node, on 64-bit words and without a
check. The sum is the first node at which `alive_after` leaves the node out, and at which `prune`
reports it.
-/

namespace Diffmonger.Tree

open LowBit

/-- What the documentation says about the node upon whose creation `k` dies: it comes later, and `k`
is alive until then, and not from then on. -/
structure DiesUpon (k n : UInt64) : Prop where
  /-- The sum does not wrap around. -/
  toNat_eq : n.toNat = k.toNat + 3 * (k &&& -k).toNat
  lt : k < n
  alive : ∀ m, k ≤ m → m < n → m.toNat < 2 ^ 63 → k ∈ (aliveAfter m).nodes
  dead : ∀ m, n ≤ m → m.toNat < 2 ^ 63 → k ∉ (aliveAfter m).nodes
  pruned : n.toNat < 2 ^ 63 → k ∈ (prune n).nodes

theorem diesUpon_of_mem_dying {k n : UInt64} (h : k.toNat ∈ fenwick.dying n.toNat) :
    DiesUpon k n := by
  obtain ⟨hne, hsum⟩ := mem_dying_iff_toNat.mp h
  have hpos := lowBit_pos k.toNat
  rw [← UInt64.toNat_and_neg hne] at hpos
  refine ⟨hsum.symm, UInt64.lt_iff_toNat_lt.mpr (by omega), fun m hle hlt hm => ?_,
    fun m hle hm => ?_, fun hn => (mem_prune_nodes hn).mpr h⟩
  · rw [mem_aliveAfter_nodes hm, Fenwick.mem_alive_iff (UInt64.toNat_ne_zero.mpr hne),
      ← UInt64.toNat_and_neg hne, hsum]
    exact ⟨UInt64.le_iff_toNat_le.mp hle, UInt64.lt_iff_toNat_lt.mp hlt⟩
  · rw [mem_aliveAfter_nodes hm, Fenwick.mem_alive_iff (UInt64.toNat_ne_zero.mpr hne),
      ← UInt64.toNat_and_neg hne, hsum]
    exact fun halive => absurd (UInt64.le_iff_toNat_le.mp hle) (not_le.mpr halive.2)

/-- The nodes are 63-bit numbers, and their times of demise are as documented, except that of
`2 ^ 62`. -/
theorem timeOfDemise_iff (k : UInt64) (hpos : 1 ≤ k) (hk : k.toNat < 2 ^ 63) :
    (∃ n, timeOfDemise k = .ok n ∧ DiesUpon k n) ↔ k.toNat ≠ 2 ^ 62 := by
  have hne : k ≠ 0 := by
    rintro rfl
    exact absurd hpos (by decide)
  constructor
  · rintro ⟨n, -, hn⟩ heq
    -- four times `2 ^ 62` does not fit
    have hk : k = (1 : UInt64) <<< 62 := UInt64.toNat_inj.mp heq
    have hlt := n.toNat_lt
    rw [hn.toNat_eq, hk] at hlt
    exact absurd hlt (by decide)
  · intro hroom
    have hsum : k.toNat + 3 * lowBit k.toNat < 2 ^ 64 :=
      add_three_mul_lowBit_lt (UInt64.toNat_ne_zero.mpr hne) hk hroom
    have hdying : k.toNat ∈ fenwick.dying (UInt64.ofNat (k.toNat + 3 * lowBit k.toNat)).toNat := by
      rw [UInt64.toNat_ofNat_of_lt' hsum, Fenwick.mem_dying_iff]
      exact ⟨UInt64.toNat_ne_zero.mpr hne, rfl⟩
    exact ⟨_, timeOfDemise_of_mem_dying hdying, diesUpon_of_mem_dying hdying⟩

/-- Node 20 of the tree of the documentation. -/
theorem timeOfDemise_iff_twenty : ∃ n, timeOfDemise 20 = .ok n ∧ DiesUpon 20 n :=
  (timeOfDemise_iff 20 (by decide) (by decide)).mpr (by decide)

/-- Node `2 ^ 62`, whose time of demise wraps around to 0. -/
theorem timeOfDemise_wraps :
    timeOfDemise ((1 : UInt64) <<< 62) = .ok 0 ∧
      ¬ ∃ n, timeOfDemise ((1 : UInt64) <<< 62) = .ok n ∧ DiesUpon ((1 : UInt64) <<< 62) n := by
  refine ⟨by decide, ?_⟩
  rintro ⟨n, hok, hdies⟩
  obtain rfl : (0 : UInt64) = n := Except.ok.inj hok
  exact absurd hdies.lt (by decide)

end Diffmonger.Tree
