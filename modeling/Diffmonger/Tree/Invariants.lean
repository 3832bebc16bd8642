import Diffmonger.Fenwick.Doubling
import Diffmonger.Tree.Loops
import Mathlib.Order.Lattice.Nat

/-!
# The invariants of the tree

What the documentation promises about the nodes that are alive after the creation of `n`, for every
`n` below `2 ^ 63`: which ones they are and in which order `alive_after` reports them, that nobody's
ancestors are pruned, how far apart they are, how many there are, and what they take up.
-/

namespace Diffmonger.Tree

open LowBit

/-!
## What `alive_after` reports

From `2 ^ 63` on the loop comes to the last power of two before it comes to the root, and throws.
Below that, what it reports is what is alive, in descending order (`aliveAfter_exact`).
-/

/-- From `2 ^ 63` on, the root is out of reach. -/
theorem Window.cur_ne_zero {n m cur : ℕ} (h : Window n m cur) (hm : m ≤ 63) (hn : 2 ^ 63 ≤ n) :
    cur ≠ 0 := by
  intro hcur
  have hage := h.age_lt
  have hle : 2 ^ m ≤ 2 ^ 63 := Nat.pow_le_pow_right (by decide) hm
  omega

/-- Then the loop gives up, after 64 iterations. -/
theorem aliveAfterLoop_throws {node : UInt64} (hn : 2 ^ 63 ≤ node.toNat) (fuel m : ℕ)
    (hfuel : fuel + m = 63) (cur p : UInt64) (hp : p.toNat = 2 ^ m)
    (hw : Window node.toNat m cur.toNat) :
    (aliveAfterLoop node (fuel + 1) cur p).result = .exn (.runtimeError "Node too big") := by
  induction fuel generalizing m cur p with
  | zero =>
      obtain rfl : m = 63 := by omega
      have hcur := UInt64.toNat_ne_zero.mp (hw.cur_ne_zero le_rfl hn)
      have hguard : p = (1 : UInt64) <<< 63 :=
        UInt64.toNat_inj.mp (hp.trans UInt64.toNat_one_shiftLeft_63.symm)
      rw [aliveAfterLoop_succ, if_neg hcur, if_pos hguard]
  | succ fuel ih =>
      have hcur := UInt64.toNat_ne_zero.mp (hw.cur_ne_zero (by omega) hn)
      have hguard : p ≠ (1 : UInt64) <<< 63 := by
        intro h
        rw [h, UInt64.toNat_one_shiftLeft_63] at hp
        have := Nat.pow_right_injective (le_refl 2) hp
        omega
      have hw' := hw.next (UInt64.toNat_ne_zero.mpr hcur)
      rw [← toNat_next_cur hp (by omega) hcur] at hw'
      rw [aliveAfterLoop_succ, if_neg hcur, if_neg hguard]
      exact ih (m + 1) (by omega) _ _ (UInt64.toNat_shiftLeft_one_of_two_pow hp (by omega)) hw'

theorem aliveAfter_throws {node : UInt64} (hn : 2 ^ 63 ≤ node.toNat) :
    (aliveAfter node).result = .exn (.runtimeError "Node too big") :=
  aliveAfterLoop_throws hn 63 0 rfl node 1 rfl (window_zero _)

section
variable {l : List UInt64}

/-- A decreasing list begins with its greatest element. -/
theorem head?_of_decreasing (hl : l.Pairwise (fun a b => b.toNat < a.toNat)) {x : UInt64}
    (hx : x ∈ l) (hmax : ∀ y ∈ l, y.toNat ≤ x.toNat) : l.head? = some x := by
  cases l with
  | nil => cases hx
  | cons y l =>
      rcases List.mem_cons.mp hx with rfl | hmem
      · rfl
      · have hlt := List.rel_of_pairwise_cons hl hmem
        have hle := hmax y List.mem_cons_self
        omega

/-- It ends with its least element. -/
theorem getLast?_of_decreasing (hl : l.Pairwise (fun a b => b.toNat < a.toNat)) {x : UInt64}
    (hx : x ∈ l) (hmin : ∀ y ∈ l, x.toNat ≤ y.toNat) : l.getLast? = some x := by
  rcases List.eq_nil_or_concat l with rfl | ⟨l, y, rfl⟩
  · cases hx
  · rw [List.concat_eq_append] at hl hx hmin ⊢
    rcases List.mem_append.mp hx with hmem | hmem
    · have hlt := (List.pairwise_append.mp hl).2.2 x hmem y (List.mem_singleton_self y)
      have hle := hmin y (by simp)
      omega
    · rw [List.mem_singleton.mp hmem, List.getLast?_concat]

/-- There is nothing between two consecutive elements. -/
theorem le_of_consecutive (hl : l.Pairwise (fun a b => b.toNat < a.toNat)) {j k x : UInt64}
    (hjk : [j, k] <:+: l) (hx : x ∈ l) (hlt : x.toNat < j.toNat) : x.toNat ≤ k.toNat := by
  obtain ⟨before, after, rfl⟩ := hjk
  rw [List.append_assoc] at hl hx
  obtain ⟨-, hrest, hbefore⟩ := List.pairwise_append.mp hl
  rcases List.mem_append.mp hx with hmem | hmem
  · have hgt := hbefore x hmem j (by simp)
    omega
  · rcases List.mem_append.mp hmem with hmem | hmem
    · rcases List.mem_pair.mp hmem with rfl | rfl
      · omega
      · exact le_rfl
    · exact ((List.pairwise_append.mp hrest).2.2 k (by simp) x hmem).le

end

theorem mem_aliveAfter_iff {n k : UInt64} (hn : n.toNat < 2 ^ 63) :
    k ∈ (aliveAfter n).nodes ↔
      k = 0 ∨ (1 ≤ k ∧ k ≤ n ∧ n.toNat < k.toNat + 3 * (k &&& -k).toNat) := by
  rw [mem_aliveAfter_nodes hn]
  rcases eq_or_ne k 0 with rfl | hk
  · exact iff_of_true (Fenwick.zero_mem_alive _) (Or.inl rfl)
  · have hne := UInt64.toNat_ne_zero.mpr hk
    have hpos : 1 ≤ k := UInt64.le_iff_toNat_le.mpr (Nat.one_le_iff_ne_zero.mpr hne)
    rw [Fenwick.mem_alive_iff hne, UInt64.toNat_and_neg hk, UInt64.le_iff_toNat_le (a := k)]
    simp only [hk, hpos, true_and, false_or]

/-- Below `2 ^ 63`, `alive_after(n)` reports, each once and in decreasing order, from `n` down to
the root, the nodes whose demise is yet to come; from `2 ^ 63` on it throws. -/
theorem aliveAfter_exact (n : UInt64) :
    (n.toNat < 2 ^ 63 → (aliveAfter n).result = .val () ∧
      (aliveAfter n).nodes.Pairwise (fun a b => b < a) ∧
      (aliveAfter n).nodes.head? = some n ∧ (aliveAfter n).nodes.getLast? = some 0 ∧
      ∀ k, k ∈ (aliveAfter n).nodes ↔
        k = 0 ∨ (1 ≤ k ∧ k ≤ n ∧ n.toNat < k.toNat + 3 * (k &&& -k).toNat)) ∧
    (2 ^ 63 ≤ n.toNat → (aliveAfter n).result = .exn (.runtimeError "Node too big")) := by
  refine ⟨fun hn => ?_, aliveAfter_throws⟩
  have hdec := aliveAfter_decreasing hn
  have hmem {k : UInt64} := mem_aliveAfter_nodes (x := k) hn
  refine ⟨aliveAfter_result hn, hdec.imp UInt64.lt_iff_toNat_lt.mpr, ?_, ?_,
    fun k => mem_aliveAfter_iff hn⟩
  · exact head?_of_decreasing hdec (hmem.mpr (fenwick.self_mem_alive _)) fun k hk => (hmem.mp hk).1
  · exact getLast?_of_decreasing hdec (hmem.mpr (Fenwick.zero_mem_alive _)) fun _ _ => Nat.zero_le _

/-- Node 5, and the first node that is too big. -/
theorem aliveAfter_exact_five :
    ((aliveAfter 5).nodes.head? = some 5 ∧ (aliveAfter 5).nodes.getLast? = some 0) ∧
      (aliveAfter ((1 : UInt64) <<< 63)).result = .exn (.runtimeError "Node too big") :=
  have hfive := (aliveAfter_exact 5).1 (by decide)
  ⟨⟨hfive.2.2.1, hfive.2.2.2.1⟩, (aliveAfter_exact ((1 : UInt64) <<< 63)).2 (by decide)⟩

/-!
## The lifetime invariant

The invariants of the documentation, carried over from natural numbers to what the loops report.
-/

theorem mem_fenwickPathIncRoot_nodes {x k : UInt64} :
    x ∈ (fenwickPathIncRoot k).nodes ↔ x.toNat ∈ fenwick.path k.toNat := by
  rw [← fenwickPathIncRoot_numbers, Calls.toNat_mem_numbers]

/-- A node's ancestors outlive it, the parent of `n` is on the path of `n - 1`, and pruning for `n`
spares the paths of `n` and of `n - 1`. -/
theorem ancestors_outlive (n : UInt64) (hpos : 1 ≤ n) (hn : n.toNat < 2 ^ 63) :
    (∀ k ∈ (aliveAfter n).nodes, ∀ a ∈ (fenwickPathIncRoot k).nodes, a ∈ (aliveAfter n).nodes) ∧
      fenwickParent n ∈ (fenwickPathIncRoot (n - 1)).nodes ∧
      ∀ j ∈ (prune n).nodes,
        j ∉ (fenwickPathIncRoot n).nodes ∧ j ∉ (fenwickPathIncRoot (n - 1)).nodes := by
  have hne : n ≠ 0 := by
    rintro rfl
    exact absurd hpos (by decide)
  obtain ⟨m, hm⟩ := Nat.exists_eq_succ_of_ne_zero (UInt64.toNat_ne_zero.mpr hne)
  have hpred : (n - 1).toNat = m := by rw [UInt64.toNat_sub_one hne, hm, Nat.succ_sub_one]
  refine ⟨fun k hk a ha => ?_, ?_, fun j hj => ?_⟩
  · rw [mem_aliveAfter_nodes hn] at hk ⊢
    exact fenwick.path_subset_alive_of_mem hk (mem_fenwickPathIncRoot_nodes.mp ha)
  · rw [mem_fenwickPathIncRoot_nodes, hpred, toNat_fenwickParent, hm]
    exact fenwick.parent_succ_mem m
  · rw [mem_prune_nodes hn] at hj
    rw [mem_fenwickPathIncRoot_nodes, mem_fenwickPathIncRoot_nodes, hpred]
    refine ⟨fun hpath => ?_, fun hpath => ?_⟩
    · exact fenwick.not_mem_dying_of_mem_path hpath (Nat.le_succ _) hj
    · exact fenwick.not_mem_dying_of_mem_path hpath hm.le hj

/-- Node 8. -/
theorem ancestors_outlive_eight :
    fenwickParent 8 ∈ (fenwickPathIncRoot (8 - 1)).nodes ∧
      ∀ j ∈ (prune 8).nodes,
        j ∉ (fenwickPathIncRoot 8).nodes ∧ j ∉ (fenwickPathIncRoot (8 - 1)).nodes :=
  (ancestors_outlive 8 (by decide) (by decide)).2

/-!
## The node distribution invariant

Multiples of a power of two stay alive for long enough for one of them to be there at any age of
about this power.
-/

/-- From every age on, the next node that is alive has at most twice that age. -/
theorem exists_alive_age {n : UInt64} (hn : n.toNat < 2 ^ 63) {a : ℕ} (ha : 1 ≤ a)
    (hlt : a < n.toNat) :
    ∃ x ∈ (aliveAfter n).nodes, a < n.toNat - x.toNat ∧ n.toNat - x.toNat ≤ 2 * a := by
  obtain ⟨k, hk, hage⟩ := Fenwick.exists_alive_age ha hlt
  rw [← aliveAfter_numbers hn] at hk
  obtain ⟨x, hx, rfl⟩ := hk
  exact ⟨x, hx, hage⟩

/-- The two newest nodes are alive. -/
theorem aliveAfter_begins {n : UInt64} (hne : n ≠ 0) (hn : n.toNat < 2 ^ 63) :
    [n, n - 1] <+: (aliveAfter n).nodes := by
  have hdec := aliveAfter_decreasing hn
  have hmem {k : UInt64} := mem_aliveAfter_nodes (x := k) hn
  have hne' := UInt64.toNat_ne_zero.mpr hne
  have hpred : (n - 1).toNat = n.toNat - 1 := UInt64.toNat_sub_one hne
  have hsucc : n - 1 ∈ (aliveAfter n).nodes := by
    refine hmem.mpr (Fenwick.mem_alive_of_dvd (m := 0) (one_dvd _) ?_ ?_) <;> omega
  have hhead := head?_of_decreasing hdec (hmem.mpr (fenwick.self_mem_alive _))
    fun k hk => (hmem.mp hk).1
  obtain ⟨l, hl⟩ := List.head?_eq_some_iff.mp hhead
  rw [hl] at hdec hsucc ⊢
  -- whatever follows `n` is at most `n - 1`
  have htail := (List.mem_cons.mp hsucc).resolve_left fun heq => by
    have := congrArg UInt64.toNat heq
    omega
  have hhead' := head?_of_decreasing (List.pairwise_cons.mp hdec).2 htail fun k hk => by
    have := (List.pairwise_cons.mp hdec).1 k hk
    omega
  obtain ⟨l', rfl⟩ := List.head?_eq_some_iff.mp hhead'
  exact ⟨l', rfl⟩

/-- The ages of the alive nodes are 0 and 1, and from then on grow by a factor of at most two. For
every distance into the past there is thus an alive node within a factor of two of it. -/
theorem node_distribution (n : UInt64) (hpos : 1 ≤ n) (hn : n.toNat < 2 ^ 63) :
    (∀ j k, [j, k] <:+: (aliveAfter n).nodes → 1 ≤ n.toNat - j.toNat →
      n.toNat - k.toNat ≤ 2 * (n.toNat - j.toNat)) ∧
    [n, n - 1] <+: (aliveAfter n).nodes ∧
    ∀ m, 0 < m → m ≤ n.toNat → ∃ k ∈ (aliveAfter n).nodes,
      n.toNat - m ≤ k.toNat ∧ k.toNat ≤ n.toNat - m / 2 := by
  have hne : n ≠ 0 := by
    rintro rfl
    exact absurd hpos (by decide)
  refine ⟨fun j k hjk hj => ?_, aliveAfter_begins hne hn, fun m hm hle => ?_⟩
  · have hdec := aliveAfter_decreasing hn
    have hpair := hdec.sublist hjk.sublist
    have hlt := List.pairwise_pair.mp hpair
    rcases Nat.lt_or_ge (n.toNat - j.toNat) n.toNat with hage | hage
    · obtain ⟨x, hx, hgt, hle⟩ := exists_alive_age hn hj hage
      have hbelow := le_of_consecutive hdec hjk hx (by omega)
      omega
    · omega
  · rcases Nat.lt_or_ge m 2 with hlt | hge
    · exact ⟨n, (mem_aliveAfter_nodes hn).mpr (fenwick.self_mem_alive _), by omega, by omega⟩
    · obtain ⟨x, hx, hgt, hle⟩ := exists_alive_age hn (show 1 ≤ m / 2 by omega) (by omega)
      exact ⟨x, hx, by omega, by omega⟩

/-- Ten nodes into the past of node 23. -/
theorem node_distribution_twentyThree :
    ∃ k ∈ (aliveAfter 23).nodes, 23 - 10 ≤ k.toNat ∧ k.toNat ≤ 23 - 10 / 2 :=
  (node_distribution 23 (by decide) (by decide)).2.2 10 (by decide) (by decide)

/-!
## The repository size invariant

No node is reported twice, so that the reported nodes can be counted and summed up as a finite set.
-/

section
variable {n : UInt64} (hn : n.toNat < 2 ^ 63)
include hn

theorem nodup_aliveAfter : ((aliveAfter n).nodes.map UInt64.toNat).Nodup :=
  List.pairwise_map.mpr ((aliveAfter_decreasing hn).imp ne_of_gt)

theorem toFinset_aliveAfter :
    ((aliveAfter n).nodes.map UInt64.toNat).toFinset = Fenwick.aliveFinset n.toNat := by
  ext k
  rw [List.mem_toFinset, List.mem_map, Fenwick.mem_aliveFinset, ← aliveAfter_numbers hn]
  exact Iff.rfl

theorem length_aliveAfter (hne : n ≠ 0) :
    (aliveAfter n).nodes.length = n.toNat.size + Fenwick.popcount n.toNat := by
  rw [← Fenwick.card_aliveFinset (UInt64.toNat_ne_zero.mpr hne), ← toFinset_aliveAfter hn,
    List.toFinset_card_of_nodup (nodup_aliveAfter hn), List.length_map]

end

theorem length_fenwickPathExcRootLoop (fuel : ℕ) (x : UInt64)
    (h : (fenwickPathExcRootLoop fuel x).result = .val ()) :
    (fenwickPathExcRootLoop fuel x).nodes.length = Fenwick.popcount x.toNat := by
  induction fuel generalizing x with
  | zero => cases h
  | succ fuel ih =>
      rw [fenwickPathExcRootLoop] at h ⊢
      rcases eq_or_ne x 0 with rfl | hx
      · rfl
      · have hne := UInt64.toNat_ne_zero.mpr hx
        have hparent : (x - (x &&& -x)).toNat = Fenwick.parent x.toNat := toNat_fenwickParent x
        rw [if_neg hx] at h ⊢
        rw [Calls.after_nodes, List.length_append, List.length_singleton, ih _ h, hparent,
          ← Fenwick.popcount_parent hne, add_comm]

theorem length_fenwickPathIncRoot (x : UInt64) :
    (fenwickPathIncRoot x).nodes.length = Fenwick.popcount x.toNat + 1 := by
  rw [fenwickPathIncRoot, List.length_append, List.length_singleton]
  exact congrArg (· + 1) (length_fenwickPathExcRootLoop 65 x (fenwickPathIncRoot_result x))

/-- The number of levels of the tree of the nodes up to `n`. -/
def levels (n : UInt64) : ℕ :=
  (Finset.range (n.toNat + 1)).sup fun k => (fenwickPathIncRoot (.ofNat k)).nodes.length

theorem size_le_levels (n : UInt64) (hne : n ≠ 0) : n.toNat.size ≤ levels n := by
  obtain ⟨m, hm⟩ := Nat.exists_eq_succ_of_ne_zero
    (Nat.pos_iff_ne_zero.mp (Nat.size_pos.mpr (UInt64.toNat_ne_zero.mpr hne).bot_lt))
  -- all bits of this node are set
  have hle : 2 ^ m ≤ n.toNat := Nat.lt_size.mp (by omega)
  have hlt := n.toNat_lt
  have hmem : 2 ^ m - 1 ∈ Finset.range (n.toNat + 1) := Finset.mem_range.mpr (by omega)
  refine le_trans ?_ (Finset.le_sup hmem)
  rw [length_fenwickPathIncRoot, UInt64.toNat_ofNat_of_lt' (show 2 ^ m - 1 < 2 ^ 64 by omega),
    Fenwick.popcount_two_pow_sub_one, hm]

/-- After `n`, as many nodes are alive as `n` has bits and set bits, thus at most twice the number
of bits, or of levels of the tree; the path of `n` has one more node than `n` has set bits. -/
theorem repository_size (n : UInt64) (hpos : 1 ≤ n) (hn : n.toNat < 2 ^ 63) :
    (aliveAfter n).nodes.length = n.toNat.size + n.toNat.bits.count true ∧
      (aliveAfter n).nodes.length ≤ 2 * n.toNat.size ∧
      (aliveAfter n).nodes.length ≤ 2 * levels n ∧
      (fenwickPathIncRoot n).nodes.length = n.toNat.bits.count true + 1 := by
  have hne : n ≠ 0 := by
    rintro rfl
    exact absurd hpos (by decide)
  have hlength := length_aliveAfter hn hne
  have hlevels := size_le_levels n hne
  have hcount : Fenwick.popcount n.toNat ≤ n.toNat.size := by
    rw [← Nat.size_eq_bits_len]
    exact List.count_le_length
  exact ⟨hlength, by omega, by omega, length_fenwickPathIncRoot n⟩

/-- Node 23 has five bits, four of which are set. -/
theorem repository_size_twentyThree :
    (aliveAfter 23).nodes.length = 9 ∧ (fenwickPathIncRoot 23).nodes.length = 5 := by
  obtain ⟨hlength, -, -, hpath⟩ := repository_size 23 (by decide) (by decide)
  exact ⟨hlength.trans (by decide), hpath.trans (by decide)⟩

/-!
## Space overhead and write amplification

The size of a difference is the distance to the parent, which is the lowest set bit. The sums over
the alive nodes, and over all nodes, are those of `Fenwick/Doubling.lean`.
-/

theorem toNat_sub_fenwickParent (x : UInt64) :
    (x - fenwickParent x).toNat = Fenwick.weight x.toNat := by
  have hparent : (fenwickParent x).toNat = Fenwick.parent x.toNat := toNat_fenwickParent x
  have hle : Fenwick.parent x.toNat ≤ x.toNat := by
    rcases eq_or_ne x.toNat 0 with h | h
    · rw [h, Fenwick.parent_zero]
    · exact (Fenwick.parent_lt h).le
  rw [UInt64.toNat_sub_of_le _ _ (UInt64.le_iff_toNat_le.mpr (hparent.trans_le hle)), hparent,
    Fenwick.weight]

/-- What the alive nodes take up, if every snapshot introduces one unit of new data. -/
def storage (n : UInt64) : ℕ :=
  ((aliveAfter n).nodes.map fun k => (k - fenwickParent k).toNat).sum

theorem storage_eq {n : UInt64} (hn : n.toNat < 2 ^ 63) :
    storage n = ∑ k ∈ Fenwick.aliveFinset n.toNat, Fenwick.weight k := by
  rw [← toFinset_aliveAfter hn, List.sum_toFinset _ (nodup_aliveAfter hn), List.map_map, storage]
  congr 1
  exact List.map_congr_left fun k _ => toNat_sub_fenwickParent k

/-- What the alive nodes take up; and, while the next node is being added, the repository stays
below 2.5 times the size of a chain of differences. -/
theorem storage_overhead :
    (∀ n : UInt64, 1 ≤ n → n.toNat < 2 ^ 63 →
      storage n = n.toNat + 2 ^ n.toNat.log2 - 1) ∧
    ∀ n : UInt64, n.toNat < 2 ^ 63 - 1 →
      2 * (storage n + (n + 1 - fenwickParent (n + 1)).toNat + 1) < 5 * (n.toNat + 2) := by
  refine ⟨fun n hpos hn => ?_, fun n hn => ?_⟩
  · have hne : n.toNat ≠ 0 := Nat.one_le_iff_ne_zero.mp (UInt64.le_iff_toNat_le.mp hpos)
    have hsum := Fenwick.sum_weight_aliveFinset hne
    rw [storage_eq hn]
    omega
  · have hsucc : (n + 1).toNat = n.toNat + 1 := by
      rw [UInt64.toNat_add, show (1 : UInt64).toNat = 1 from rfl, Nat.mod_eq_of_lt (by omega)]
    rw [storage_eq (by omega), toNat_sub_fenwickParent, hsucc]
    exact Fenwick.peak_lt n.toNat

/-- Node 23, and adding node 24 to it. -/
theorem storage_overhead_twentyThree :
    storage 23 = 38 ∧ 2 * (storage 23 + 8 + 1) < 125 :=
  ⟨storage_overhead.1 23 (by decide) (by decide), storage_overhead.2 23 (by decide)⟩

/-- All differences that have been written by the time node `n` is stored. -/
def written (n : ℕ) : ℕ := ∑ i ∈ Finset.Icc 1 n, (i - fenwick.parent i)

/-- All differences that have been written by the time node `n` is stored amount to at most half of
`n * (log n + 2)` units, and to exactly that if `n` is a power of two. -/
theorem write_amplification (n : ℕ) (hn : 1 ≤ n) :
    (n < 2 ^ 64 →
      written n = ∑ i ∈ Finset.Icc 1 n, (UInt64.ofNat i - fenwickParent (.ofNat i)).toNat) ∧
    2 * written n ≤ n * (n.log2 + 2) ∧
    ∀ k, n = 2 ^ k → 2 * written n = (k + 2) * 2 ^ k := by
  refine ⟨fun hlt => ?_, Fenwick.two_mul_sum_weight_le (by omega), ?_⟩
  · refine Finset.sum_congr rfl fun i hi => ?_
    have hi' := (Finset.mem_Icc.mp hi).2
    rw [toNat_sub_fenwickParent, UInt64.toNat_ofNat_of_lt' (show i < 2 ^ 64 by omega)]
    rfl
  · intro k hk
    subst hk
    exact Fenwick.two_mul_sum_weight_two_pow k

/-- A repository with `2 ^ 28` nodes. -/
theorem write_amplification_two_pow_28 :
    2 * written (2 ^ 28) = 2 * (15 * 2 ^ 28) :=
  (write_amplification (2 ^ 28) (by decide)).2.2 28 rfl

end Diffmonger.Tree
