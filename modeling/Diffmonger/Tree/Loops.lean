import Diffmonger.Tree
import Diffmonger.Fenwick
import Diffmonger.Lib.Word

/-!
# The loops of the tree enumerate the schedule

Each loop of `Tree.lean` is compared with the Fenwick schedule on natural numbers:

* `fenwickPathIncRoot n` calls its functor on `fenwick.path n`,
* `aliveAfter n` on `fenwick.alive n`,
* `prune n` on `fenwick.dying n`,

the last two for `n < 2 ^ 63` only, where neither throws. For each loop there is an invariant on
its variables, a lemma about what one iteration reports, and an induction on the fuel. The fuel is
enough since each iteration concerns one bit, or one power of two, of a 64-bit number.

The 64-bit operations are rewritten to operations on natural numbers as soon as the invariant shows
that they do not overflow; what is then left is arithmetic of powers of two.
-/

namespace Diffmonger.Tree

open LowBit

/-- The numbers of the nodes on which the functor is called. -/
def Calls.numbers (c : Calls) : Set ℕ := {k | ∃ x ∈ c.nodes, x.toNat = k}

theorem Calls.mem_numbers_after {c : Calls} {l : List UInt64} {k : ℕ} :
    k ∈ (c.after l).numbers ↔ (∃ x ∈ l, x.toNat = k) ∨ k ∈ c.numbers := by
  simp only [Calls.numbers, Calls.after_nodes, Set.mem_ofPred_eq, List.mem_append, or_and_right,
    exists_or]

theorem Calls.toNat_mem_numbers {c : Calls} {x : UInt64} : x.toNat ∈ c.numbers ↔ x ∈ c.nodes :=
  ⟨fun ⟨_, hy, h⟩ => UInt64.toNat_inj.mp h ▸ hy, fun h => ⟨x, h, rfl⟩⟩

/-!
## The Fenwick path

The loop reports the node, and goes on with what is left of it when its lowest set bit is cleared. A
word has 64 bits, so that the loop comes to the root after 64 nodes at most.
-/

theorem toNat_fenwickParent (x : UInt64) : (fenwickParent x).toNat = fenwick.parent x.toNat := by
  rcases eq_or_ne x 0 with rfl | hx
  · rfl
  · show _ = Fenwick.parent x.toNat
    rw [Fenwick.parent_of_ne_zero (UInt64.toNat_ne_zero.mpr hx)]
    exact UInt64.toNat_sub_and_neg hx

/-- The invariant is on the bits that are cleared already: with `fuel` iterations left, the bits
below position `65 - fuel` are. -/
theorem fenwickPathExcRootLoop_spec (fuel : ℕ) (x : UInt64)
    (hdvd : 2 ^ (64 - fuel) ∣ x.toNat) (hfuel : fuel ≤ 64) :
    (fenwickPathExcRootLoop (fuel + 1) x).result = .val () ∧
      insert 0 (fenwickPathExcRootLoop (fuel + 1) x).numbers = fenwick.path x.toNat := by
  induction fuel generalizing x with
  | zero =>
      have hx : x = 0 := by
        by_contra hne
        have := Nat.le_of_dvd (Nat.pos_of_ne_zero (UInt64.toNat_ne_zero.mpr hne)) hdvd
        exact absurd x.toNat_lt (by simpa using this)
      subst hx
      refine ⟨rfl, ?_⟩
      rw [show (0 : UInt64).toNat = 0 from rfl, Fenwick.path_zero]
      ext k
      simp [fenwickPathExcRootLoop, Calls.numbers]
  | succ fuel ih =>
      rw [fenwickPathExcRootLoop]
      rcases eq_or_ne x 0 with rfl | hx
      · refine ⟨rfl, ?_⟩
        rw [show (0 : UInt64).toNat = 0 from rfl, Fenwick.path_zero]
        ext k
        simp [Calls.numbers]
      · have hne := UInt64.toNat_ne_zero.mpr hx
        have hsub := UInt64.toNat_sub_and_neg hx
        have hpar : fenwick.parent x.toNat = x.toNat - lowBit x.toNat :=
          Fenwick.parent_of_ne_zero hne
        -- clearing the lowest bit that is set clears at least the lowest that may be set
        have hdvd' : 2 ^ (64 - fuel) ∣ (x - (x &&& -x)).toNat := by
          rw [hsub, show 64 - fuel = 64 - (fuel + 1) + 1 by omega, pow_succ']
          refine dvd_trans (Nat.mul_dvd_mul_left 2 ?_) (two_mul_lowBit_dvd_sub hne)
          rw [two_pow_dvd_iff hne] at hdvd
          exact pow_dvd_pow 2 ((Nat.pow_le_pow_iff_right (by decide)).mp hdvd)
        obtain ⟨hres, hnum⟩ := ih _ hdvd' (by omega)
        rw [if_neg hx]
        refine ⟨hres, ?_⟩
        rw [fenwick.path_eq_insert, hpar, ← hsub, ← hnum]
        ext k
        simp only [Set.mem_insert_iff, Calls.mem_numbers_after, List.mem_singleton,
          exists_eq_left]
        tauto

theorem fenwickPathIncRoot_result (x : UInt64) : (fenwickPathIncRoot x).result = .val () :=
  (fenwickPathExcRootLoop_spec 64 x (one_dvd _) le_rfl).1

/-- `fenwick_path_inc_root(n)` enumerates `n` and its ancestors. -/
theorem fenwickPathIncRoot_numbers (x : UInt64) :
    (fenwickPathIncRoot x).numbers = fenwick.path x.toNat := by
  rw [← (fenwickPathExcRootLoop_spec 64 x (one_dvd _) le_rfl).2]
  ext k
  simp only [Calls.numbers, fenwickPathIncRoot, fenwickPathExcRoot, List.mem_append,
    List.mem_singleton, Set.mem_ofPred_eq, Set.mem_insert_iff]
  constructor
  · rintro ⟨y, hy | rfl, rfl⟩
    · exact Or.inr ⟨y, hy, rfl⟩
    · exact Or.inl rfl
  · rintro (rfl | ⟨y, hy, rfl⟩)
    · exact ⟨0, Or.inr rfl, rfl⟩
    · exact ⟨y, Or.inl hy, rfl⟩

/-! ## `alive_after`

The source's comment says that `cur` is a multiple of `2 ^ m` at the iteration where
`uint_2powm = 2 ^ m`. It is a multiple of half of that only: what the iteration looks at is the
window of nodes whose age is at least `2 ^ m / 2` and less than `2 ^ m`. -/

/-- The invariant of the loop at the iteration with `uint_2powm = 2 ^ m`. -/
structure Window (n m cur : ℕ) : Prop where
  cur_le : cur ≤ n
  dvd : 2 ^ m ∣ 2 * cur
  le_age : 2 ^ m / 2 ≤ n - cur
  age_lt : n - cur < 2 ^ m

theorem window_zero (n : ℕ) : Window n 0 n := ⟨le_rfl, one_dvd _, by simp, by simp⟩

/-- From the second iteration on, `cur` is a multiple of half of `uint_2powm`. -/
theorem Window.exists_eq_mul {n m cur : ℕ} (h : Window n (m + 1) cur) :
    ∃ c, cur = c * 2 ^ m := by
  have hdvd := h.dvd
  rw [pow_succ', Nat.mul_dvd_mul_iff_left (by decide)] at hdvd
  obtain ⟨c, hc⟩ := hdvd
  exact ⟨c, by rw [hc, mul_comm]⟩

/-- One iteration moves to the window of twice the age. -/
theorem Window.next {n m cur : ℕ} (h : Window n m cur) (hcur : cur ≠ 0) :
    Window n (m + 1) ((cur - 1) / 2 ^ m * 2 ^ m) := by
  have ⟨hle, _, hage, hlt⟩ := h
  have hdvd : 2 ^ (m + 1) ∣ 2 * ((cur - 1) / 2 ^ m * 2 ^ m) := by
    rw [pow_succ']
    exact Nat.mul_dvd_mul_left 2 (Nat.dvd_mul_left _ _)
  cases m with
  | zero =>
      simp only [pow_zero, Nat.div_one, mul_one, zero_add, pow_one] at *
      exact ⟨by omega, hdvd, by omega, by omega⟩
  | succ m =>
      obtain ⟨c, rfl⟩ := Window.exists_eq_mul h
      have hpos := Nat.two_pow_pos m
      have hdouble : 2 ^ (m + 1) = 2 * 2 ^ m := pow_succ' 2 m
      have hquadruple : 2 ^ (m + 1 + 1) = 4 * 2 ^ m := by ring
      rw [hdouble] at hage hlt hdvd ⊢
      -- the multiple of `2 ^ (m + 1)` below `cur` is one or two half-steps away
      obtain ⟨d, rfl | rfl⟩ : ∃ d, c = 2 * d + 2 ∨ c = 2 * d + 1 := by
        have hc : c ≠ 0 := by rintro rfl; exact hcur (zero_mul _)
        exact ⟨(c - 1) / 2, by omega⟩
      · rw [pred_div_mul_of_even d _ hpos] at hdvd ⊢
        have hge : 2 * 2 ^ m ≤ (2 * d + 2) * 2 ^ m := Nat.mul_le_mul_right _ (by omega)
        exact ⟨by omega, hdvd, by omega, by omega⟩
      · rw [pred_div_mul_of_odd d _ hpos] at hdvd ⊢
        have hge : 1 * 2 ^ m ≤ (2 * d + 1) * 2 ^ m := Nat.mul_le_mul_right _ (by omega)
        exact ⟨by omega, hdvd, by omega, by omega⟩

/-- A multiple of `p` in the window of ages between `2 * p` and `4 * p` is the multiple of `2 * p`
there or a neighbour of it. -/
theorem eq_or_of_window {n p c d : ℕ} (hc : 2 * p ≤ n - 2 * c * p) (hc' : n - 2 * c * p < 4 * p)
    (hd : 2 * p ≤ n - d * p) (hd' : n - d * p < 4 * p) :
    d = 2 * c ∨ d = 2 * c + 1 ∨ d + 1 = 2 * c := by
  rcases Nat.lt_or_ge (2 * c + 1) d with h | h
  · have := Nat.mul_le_mul_right p h
    rw [Nat.succ_mul, Nat.succ_mul] at this
    omega
  · rcases Nat.lt_or_ge (d + 1) (2 * c) with h' | h'
    · have := Nat.mul_le_mul_right p h'
      rw [Nat.succ_mul, Nat.succ_mul] at this
      omega
    · omega

/-- The alive nodes of a window: the anchor `cur`, and the candidate a quarter step above it if it
lies in the window too. -/
theorem Window.mem_alive_iff {n m cur k : ℕ} (h : Window n m cur) :
    k ∈ fenwick.alive n ∧ 2 ^ m / 2 ≤ n - k ∧ n - k < 2 ^ m ↔
      k = cur ∨ (2 ^ m / 2 + 2 ^ m / 4 ≤ n - cur ∧ k = cur + 2 ^ m / 4 ∧ k ≠ cur) := by
  match m, h with
  -- the window of age 0, which holds the node itself
  | 0, ⟨hle, _, hage, hlt⟩ =>
      simp only [pow_zero, Nat.reduceDiv] at *
      constructor
      · rintro ⟨hk, hage', hlt'⟩
        have hkn : k ≤ n := hk.1
        exact Or.inl (by omega)
      · rintro (rfl | ⟨-, rfl, hne⟩)
        · rw [show k = n by omega]
          exact ⟨fenwick.self_mem_alive n, by omega, by omega⟩
        · exact absurd rfl hne
  -- the window of age 1, which holds the node before it
  | 1, ⟨hle, _, hage, hlt⟩ =>
      simp only [pow_one, Nat.reduceDiv] at *
      constructor
      · rintro ⟨hk, hage', hlt'⟩
        have hkn : k ≤ n := hk.1
        exact Or.inl (by omega)
      · rintro (rfl | ⟨-, rfl, hne⟩)
        · exact ⟨Fenwick.mem_alive_of_dvd (m := 0) (one_dvd _) hle (by omega), hage, hlt⟩
        · exact absurd rfl hne
  -- all others, in units of a quarter of the power of two
  | m + 2, h =>
      obtain ⟨c, rfl⟩ := h.exists_eq_mul
      obtain ⟨hle, -, hage, hlt⟩ := h
      have hp := Nat.two_pow_pos m
      have hfull : 2 ^ (m + 2) = 4 * 2 ^ m := by ring
      have hhalf : 2 ^ (m + 2) / 2 = 2 * 2 ^ m := by omega
      have hquarter : 2 ^ (m + 2) / 4 = 2 ^ m := by omega
      have hcur : c * 2 ^ (m + 1) = 2 * c * 2 ^ m := by rw [pow_succ']; ring
      have hsucc : (2 * c + 1) * 2 ^ m = 2 * c * 2 ^ m + 2 ^ m := Nat.succ_mul _ _
      rw [hhalf, hquarter, hcur]
      rw [hhalf, hcur] at hage
      rw [hfull, hcur] at hlt
      rw [hcur] at hle
      constructor
      · rintro ⟨hk, hage', hlt'⟩
        obtain ⟨d, rfl⟩ := Fenwick.two_pow_dvd_of_alive hk hage'
        rw [mul_comm (2 ^ m) d] at *
        rcases eq_or_of_window hage hlt hage' (hfull ▸ hlt') with rfl | rfl | hd
        · exact Or.inl rfl
        · exact Or.inr ⟨by omega, hsucc, by omega⟩
        · -- a quarter step below the anchor: a node with that lowest set bit is dead at this age
          obtain ⟨e, rfl⟩ : ∃ e, d = 2 * e + 1 := ⟨c - 1, by omega⟩
          have hstep : 2 * c * 2 ^ m = (2 * e + 1) * 2 ^ m + 2 ^ m := by rw [← hd, Nat.succ_mul]
          exact absurd hk (Fenwick.notMem_alive_of_odd (by omega))
      · rintro (rfl | ⟨hr, rfl, -⟩)
        · have hdvd : 2 ^ (m + 1) ∣ 2 * c * 2 ^ m := ⟨c, by rw [← hcur, mul_comm]⟩
          refine ⟨Fenwick.mem_alive_of_dvd hdvd hle ?_, hage, by omega⟩
          rw [pow_succ']
          omega
        · have hdvd : 2 ^ m ∣ 2 * c * 2 ^ m + 2 ^ m := ⟨2 * c + 1, by rw [← hsucc, mul_comm]⟩
          exact ⟨Fenwick.mem_alive_of_dvd hdvd (by omega) (by omega), by omega, by omega⟩

/-! ### One iteration, and the loop -/

/-- The nodes that one iteration reports. -/
def reported (node cur uint2powm : UInt64) : List UInt64 :=
  if (uint2powm >>> 1) + (uint2powm >>> 2) ≤ node - cur ∧ cur + (uint2powm >>> 2) ≠ cur
  then [cur + (uint2powm >>> 2), cur] else [cur]

theorem aliveAfterLoop_succ (node : UInt64) (fuel : ℕ) (cur uint2powm : UInt64) :
    aliveAfterLoop node (fuel + 1) cur uint2powm =
      if cur = 0 then ⟨reported node cur uint2powm, .val ()⟩
      else if uint2powm = (1 : UInt64) <<< 63 then
        ⟨reported node cur uint2powm, .exn (.runtimeError "Node too big")⟩
      else (aliveAfterLoop node fuel ((cur - 1) &&& ~~~(uint2powm - 1)) (uint2powm <<< 1)).after
        (reported node cur uint2powm) := rfl

section Iteration

variable {node cur p : UInt64} {m : ℕ}

theorem toNat_quarter_sum (hp : p.toNat = 2 ^ m) :
    ((p >>> 1) + (p >>> 2)).toNat = 2 ^ m / 2 + 2 ^ m / 4 := by
  have hlt := p.toNat_lt
  rw [UInt64.toNat_add, UInt64.toNat_shiftRight_one, UInt64.toNat_shiftRight_two, hp]
  rw [hp] at hlt
  exact Nat.mod_eq_of_lt (by omega)

/-- An iteration reports the alive nodes of its window, in decreasing order. -/
theorem reported_spec (hw : Window node.toNat m cur.toNat) (hp : p.toNat = 2 ^ m) :
    (reported node cur p).Pairwise (fun a b => b.toNat < a.toNat) ∧
      ∀ k, (∃ x ∈ reported node cur p, x.toNat = k) ↔
        k ∈ fenwick.alive node.toNat ∧ 2 ^ m / 2 ≤ node.toNat - k ∧ node.toNat - k < 2 ^ m := by
  have hle : cur ≤ node := UInt64.le_iff_toNat_le.mpr hw.cur_le
  have hsub : (node - cur).toNat = node.toNat - cur.toNat := UInt64.toNat_sub_of_le _ _ hle
  have hquarter : (p >>> 2).toNat = 2 ^ m / 4 := by rw [UInt64.toNat_shiftRight_two, hp]
  have hcond : (p >>> 1) + (p >>> 2) ≤ node - cur ↔
      2 ^ m / 2 + 2 ^ m / 4 ≤ node.toNat - cur.toNat := by
    rw [UInt64.le_iff_toNat_le, toNat_quarter_sum hp, hsub]
  unfold reported
  by_cases hr : 2 ^ m / 2 + 2 ^ m / 4 ≤ node.toNat - cur.toNat
  · -- the candidate does not overflow: it is at most `node`
    have hcand : (cur + (p >>> 2)).toNat = cur.toNat + 2 ^ m / 4 := by
      have := node.toNat_lt
      have := hw.cur_le
      rw [UInt64.toNat_add, hquarter]
      exact Nat.mod_eq_of_lt (by omega)
    by_cases hne : cur + (p >>> 2) = cur
    · have hzero : 2 ^ m / 4 = 0 := by rw [hne] at hcand; omega
      rw [if_neg (fun h => h.2 hne)]
      refine ⟨List.pairwise_singleton _ _, fun k => ?_⟩
      simp only [hw.mem_alive_iff, List.mem_singleton, exists_eq_left]
      omega
    · have hpos : 2 ^ m / 4 ≠ 0 := fun h => hne (UInt64.toNat_inj.mp (by rw [hcand]; omega))
      rw [if_pos ⟨hcond.mpr hr, hne⟩]
      refine ⟨List.pairwise_pair.mpr (by omega), fun k => ?_⟩
      rw [hw.mem_alive_iff]
      simp only [List.mem_cons, List.not_mem_nil, or_false, exists_eq_or_imp, exists_eq_left,
        hcand]
      omega
  · rw [if_neg (fun h => hr (hcond.mp h.1))]
    refine ⟨List.pairwise_singleton _ _, fun k => ?_⟩
    simp only [hw.mem_alive_iff, List.mem_singleton, exists_eq_left]
    omega

theorem toNat_next_cur (hp : p.toNat = 2 ^ m) (hm : m < 64) (hcur : cur ≠ 0) :
    ((cur - 1) &&& ~~~(p - 1)).toNat = (cur.toNat - 1) / 2 ^ m * 2 ^ m := by
  rw [UInt64.toNat_and_not_pred hp hm, UInt64.toNat_sub_one hcur]

end Iteration

/-- The last window below `2 ^ 63` is anchored at the root. -/
theorem Window.cur_eq_zero {n cur : ℕ} (h : Window n 63 cur) (hn : n < 2 ^ 63) : cur = 0 := by
  obtain ⟨c, rfl⟩ := h.exists_eq_mul
  obtain ⟨hle, -, hage, -⟩ := h
  omega

/-- From the iteration with `uint_2powm = 2 ^ m` on, the loop reports the alive nodes of age at
least `2 ^ m / 2`. -/
theorem aliveAfterLoop_spec {node : UInt64} (hn : node.toNat < 2 ^ 63) (fuel m : ℕ)
    (hfuel : fuel + m = 63) (cur p : UInt64) (hp : p.toNat = 2 ^ m)
    (hw : Window node.toNat m cur.toNat) :
    let c := aliveAfterLoop node (fuel + 1) cur p
    c.result = .val () ∧ c.nodes.Pairwise (fun a b => b.toNat < a.toNat) ∧
      ∀ k, k ∈ c.numbers ↔ k ∈ fenwick.alive node.toNat ∧ 2 ^ m / 2 ≤ node.toNat - k := by
  induction fuel generalizing m cur p with
  | zero =>
      -- the last window is anchored at the root, where the loop ends
      obtain rfl : m = 63 := by omega
      have hcur : cur = 0 := UInt64.toNat_inj.mp (hw.cur_eq_zero hn)
      obtain ⟨hdec, hmem⟩ := reported_spec hw hp
      rw [aliveAfterLoop_succ, if_pos hcur]
      refine ⟨rfl, hdec, fun k => (hmem k).trans ?_⟩
      have : node.toNat - k < 2 ^ 63 := by omega
      tauto
  | succ fuel ih =>
      obtain ⟨hdec, hmem⟩ := reported_spec hw hp
      rw [aliveAfterLoop_succ]
      by_cases hcur : cur = 0
      · rw [if_pos hcur]
        refine ⟨rfl, hdec, fun k => (hmem k).trans ?_⟩
        have hage := hw.age_lt
        rw [hcur, show (0 : UInt64).toNat = 0 from rfl] at hage
        have : node.toNat - k < 2 ^ m := by omega
        tauto
      -- the power of two is still below the one at which the loop gives up
      · have hguard : p ≠ (1 : UInt64) <<< 63 := by
          intro h
          rw [h, UInt64.toNat_one_shiftLeft_63] at hp
          have := Nat.pow_right_injective (le_refl 2) hp
          omega
        have hw' := hw.next (UInt64.toNat_ne_zero.mpr hcur)
        rw [← toNat_next_cur hp (by omega) hcur] at hw'
        obtain ⟨hres, hdec', hmem'⟩ := ih (m + 1) (by omega) _ _
          (UInt64.toNat_shiftLeft_one_of_two_pow hp (by omega)) hw'
        have hhalf : 2 ^ (m + 1) / 2 = 2 ^ m := by
          rw [pow_succ', Nat.mul_div_cancel_left _ (by decide)]
        rw [if_neg hcur, if_neg hguard]
        refine ⟨hres, ?_, fun k => ?_⟩
        · -- what later iterations report is older than this window
          refine List.pairwise_append.mpr ⟨hdec, hdec', fun a ha b hb => ?_⟩
          have h1 := ((hmem _).mp ⟨a, ha, rfl⟩).2.2
          have h2 := ((hmem' _).mp ⟨b, hb, rfl⟩).2
          rw [hhalf] at h2
          omega
        · rw [Calls.mem_numbers_after, hmem, hmem', hhalf]
          have : 2 ^ m / 2 ≤ 2 ^ m := Nat.div_le_self _ _
          constructor
          · rintro (⟨h1, h2, -⟩ | ⟨h1, h2⟩)
            · exact ⟨h1, h2⟩
            · exact ⟨h1, by omega⟩
          · rintro ⟨h1, h2⟩
            rcases Nat.lt_or_ge (node.toNat - k) (2 ^ m) with h | h
            · exact Or.inl ⟨h1, h2, h⟩
            · exact Or.inr ⟨h1, h⟩

section AliveAfter

variable {node : UInt64} (hn : node.toNat < 2 ^ 63)
include hn

private theorem aliveAfter_spec :
    (aliveAfter node).result = .val () ∧
      (aliveAfter node).nodes.Pairwise (fun a b => b.toNat < a.toNat) ∧
      ∀ k, k ∈ (aliveAfter node).numbers ↔ k ∈ fenwick.alive node.toNat := by
  obtain ⟨h1, h2, h3⟩ := aliveAfterLoop_spec hn 63 0 rfl node 1 rfl (window_zero _)
  exact ⟨h1, h2, fun k => (h3 k).trans (by simp)⟩

theorem aliveAfter_result : (aliveAfter node).result = .val () := (aliveAfter_spec hn).1

theorem aliveAfter_decreasing :
    (aliveAfter node).nodes.Pairwise (fun a b => b.toNat < a.toNat) := (aliveAfter_spec hn).2.1

/-- `alive_after(n)` enumerates the nodes alive after the creation of `n`. -/
theorem aliveAfter_numbers : (aliveAfter node).numbers = fenwick.alive node.toNat :=
  Set.ext (aliveAfter_spec hn).2.2

end AliveAfter

/-!
## `prune`

The nodes that die with `n` are at distance `3 * 2 ^ i` from it, one at most for each power of two
that divides `n` far enough. The loop goes through these powers.
-/

/-- The node that dies with `n` and has lowest set bit `2 ^ i`, if there is one. -/
theorem dying_two_pow_iff {n i j : ℕ} :
    j ∈ fenwick.dying n ∧ lowBit j = 2 ^ i ↔
      2 ^ (i + 1) ∣ n ∧ 3 * 2 ^ i ≤ n ∧ j = n - 3 * 2 ^ i := by
  have hpow : 2 ^ (i + 1) = 2 * 2 ^ i := pow_succ' 2 i
  have hpos := Nat.two_pow_pos i
  rw [Fenwick.mem_dying_iff]
  constructor
  · rintro ⟨⟨hj, hn⟩, hlow⟩
    obtain ⟨q, i', hq, hi'⟩ := exists_odd_mul hj
    rw [← hi', hlow] at hq
    rw [hlow] at hn
    refine ⟨⟨q + 2, ?_⟩, by omega, by omega⟩
    rw [← hn, hq, hpow]
    ring
  · rintro ⟨⟨q, hq⟩, hle, rfl⟩
    -- `n` is an even multiple of `2 ^ i` and at least three of them, hence at least four
    have hq2 : 2 ≤ q := by
      by_contra hlt
      have : 2 ^ (i + 1) * q ≤ 2 ^ (i + 1) * 1 := Nat.mul_le_mul_left _ (by omega)
      omega
    obtain ⟨e, rfl⟩ : ∃ e, q = e + 2 := ⟨q - 2, by omega⟩
    have hodd : n - 3 * 2 ^ i = (2 * e + 1) * 2 ^ i := by
      have : n = (2 * e + 1) * 2 ^ i + 3 * 2 ^ i := by rw [hq, hpow]; ring
      omega
    have hne : (2 * e + 1) * 2 ^ i ≠ 0 := by positivity
    rw [hodd, lowBit_odd_mul]
    exact ⟨⟨hne, by omega⟩, rfl⟩

theorem pruneLoop_succ (node : UInt64) (fuel : ℕ) (mask : UInt64) :
    pruneLoop node (fuel + 1) mask =
      if node &&& ~~~mask = 0 then ⟨[], .val ()⟩
      else if mask = ((1 : UInt64) <<< 63) - 1 then ⟨[], .exn (.runtimeError "Node too big")⟩
      else if node &&& mask ≠ 0 then ⟨[], .val ()⟩
      else (pruneLoop node fuel (mask ||| (mask <<< 1))).after
        (if mask + (mask >>> 1) + 2 ≤ node then [node - (mask + (mask >>> 1) + 2)] else []) := rfl

/-- The constant `k` of an iteration is three times half of the power of two it is about. -/
theorem toNat_prune_k {mask : UInt64} {i : ℕ} (hmask : mask.toNat = 2 ^ (i + 1) - 1)
    (hi : i < 62) : (mask + (mask >>> 1) + 2).toNat = 3 * 2 ^ i := by
  have hpow : 2 ^ (i + 1) = 2 * 2 ^ i := pow_succ' 2 i
  have hlt : 2 ^ i ≤ 2 ^ 61 := Nat.pow_le_pow_right (by decide) (by omega)
  have hpos := Nat.two_pow_pos i
  rw [UInt64.toNat_add, UInt64.toNat_add, UInt64.toNat_shiftRight_one, hmask,
    show (2 : UInt64).toNat = 2 from rfl]
  omega

/-- What one iteration reports: the node that dies with `node` and has lowest set bit `2 ^ i`. -/
theorem mem_prune_reported_iff {node mask : UInt64} {i j : ℕ} (hmask : mask.toNat = 2 ^ (i + 1) - 1)
    (hi : i < 62) (hdvd : node &&& mask = 0) :
    (∃ x ∈ (if mask + (mask >>> 1) + 2 ≤ node then [node - (mask + (mask >>> 1) + 2)] else []),
        x.toNat = j) ↔ j ∈ fenwick.dying node.toNat ∧ lowBit j = 2 ^ i := by
  have hk := toNat_prune_k hmask hi
  have hdvd' := (UInt64.and_mask_eq_zero_iff hmask node).mp hdvd
  rw [dying_two_pow_iff]
  by_cases hle : mask + (mask >>> 1) + 2 ≤ node
  · have hle' := UInt64.le_iff_toNat_le.mp hle
    rw [hk] at hle'
    rw [if_pos hle]
    simp only [List.mem_singleton, exists_eq_left, UInt64.toNat_sub_of_le _ _ hle, hk]
    exact ⟨fun h => ⟨hdvd', hle', h.symm⟩, fun h => h.2.2.symm⟩
  · have hle' : ¬ 3 * 2 ^ i ≤ node.toNat := by rwa [← hk, ← UInt64.le_iff_toNat_le]
    rw [if_neg hle]
    simp [hle']

/-- A node that dies with `n` has a lowest set bit of at most a quarter of `n`. -/
theorem lowBit_lt_of_dying {n i j : ℕ} (hj : j ∈ fenwick.dying n) (hn : n < 2 ^ (i + 1)) :
    ¬ 2 ^ i ≤ lowBit j := by
  have hpow : 2 ^ (i + 1) = 2 * 2 ^ i := pow_succ' 2 i
  have := (Fenwick.mem_dying_iff.mp hj).2
  omega

/-- A node that dies with `n` has a lowest set bit of at most half of that of `n`. -/
theorem two_pow_succ_dvd_of_dying {n i j : ℕ} (hj : j ∈ fenwick.dying n) (hlow : 2 ^ i ≤ lowBit j) :
    2 ^ (i + 1) ∣ n := by
  obtain ⟨q, i', -, hi'⟩ := exists_odd_mul (Fenwick.mem_dying_iff.mp hj).1
  have hdvd := (dying_two_pow_iff.mp ⟨hj, hi'⟩).1
  rw [hi', Nat.pow_le_pow_iff_right (by decide)] at hlow
  exact dvd_trans (pow_dvd_pow 2 (by omega)) hdvd

/-- What the loop is to do from the iteration with mask `2 ^ (i + 1) - 1` on: call the functor on
the nodes that die with `n` and have lowest set bit at least `2 ^ i`. -/
structure PruneCalls (n i : ℕ) (c : Calls) : Prop where
  result : c.result = .val ()
  decreasing : c.nodes.Pairwise fun a b => b.toNat < a.toNat
  mem_iff : ∀ j, j ∈ c.numbers ↔ j ∈ fenwick.dying n ∧ 2 ^ i ≤ lowBit j

theorem pruneCalls_nil {n i : ℕ} (h : ∀ j, j ∈ fenwick.dying n → ¬ 2 ^ i ≤ lowBit j) :
    PruneCalls n i ⟨[], .val ()⟩ :=
  ⟨rfl, List.Pairwise.nil, fun j => by simpa [Calls.numbers] using h j⟩

/-- With the mask `2 ^ (i + 1) - 1`, the loop still has to report the nodes whose lowest set bit is
at least `2 ^ i`. -/
theorem pruneLoop_spec {node : UInt64} (hn : node.toNat < 2 ^ 63) (fuel i : ℕ)
    (hfuel : 62 ≤ fuel + i) (hi : i ≤ 62) (mask : UInt64) (hmask : mask.toNat = 2 ^ (i + 1) - 1) :
    PruneCalls node.toNat i (pruneLoop node (fuel + 1) mask) := by
  induction fuel generalizing i mask with
  | zero =>
      -- all bits of the node are below the mask, and nothing is left to report
      have hlt : node.toNat < 2 ^ (i + 1) := by
        rw [show i = 62 by omega]
        exact hn
      rw [pruneLoop_succ, if_pos ((UInt64.and_not_mask_eq_zero_iff hmask (by omega) node).mpr hlt)]
      exact pruneCalls_nil fun j hj => lowBit_lt_of_dying hj hlt
  | succ fuel ih =>
      have hend := UInt64.and_not_mask_eq_zero_iff hmask (by omega) node
      rw [pruneLoop_succ]
      by_cases hlt : node &&& ~~~mask = 0
      · rw [if_pos hlt]
        exact pruneCalls_nil fun j hj => lowBit_lt_of_dying hj (hend.mp hlt)
      -- `mask < node`, so the guard is still ahead
      have hi' : i < 62 := by
        rw [hend, not_lt] at hlt
        have := (Nat.pow_lt_pow_iff_right (a := 2) (by decide)).mp (hlt.trans_lt hn)
        omega
      have hguard : mask ≠ ((1 : UInt64) <<< 63) - 1 := by
        intro h
        have h63 : 2 ^ 63 - 1 = 2 ^ (i + 1) - 1 := by rw [← hmask, h]; rfl
        have hle : 2 ^ (i + 1) ≤ 2 ^ 62 := Nat.pow_le_pow_right (by decide) (by omega)
        omega
      rw [if_neg hlt, if_neg hguard]
      by_cases hdvd : node &&& mask = 0
      · obtain ⟨hres, hdec, hmem⟩ := ih (i + 1) (by omega) (by omega) _
          (UInt64.toNat_or_shiftLeft_one hmask (by omega))
        have hrep := fun j => mem_prune_reported_iff (j := j) hmask hi' hdvd
        rw [if_neg (not_not.mpr hdvd)]
        refine ⟨hres, ?_, fun j => ?_⟩
        · refine List.pairwise_append.mpr ⟨by split <;> simp, hdec, fun a ha b hb => ?_⟩
          have h1 := (hrep _).mp ⟨a, ha, rfl⟩
          have h2 := (hmem _).mp ⟨b, hb, rfl⟩
          have hpow : 2 ^ (i + 1) = 2 * 2 ^ i := pow_succ' 2 i
          have hpos := Nat.two_pow_pos i
          have := (Fenwick.mem_dying_iff.mp h1.1).2
          have := (Fenwick.mem_dying_iff.mp h2.1).2
          omega
        · rw [Calls.mem_numbers_after, hrep, hmem, ← and_or_left, ← two_pow_le_lowBit_iff]
      · rw [if_pos hdvd]
        refine pruneCalls_nil fun j hj hlow => hdvd ?_
        rw [UInt64.and_mask_eq_zero_iff hmask]
        exact two_pow_succ_dvd_of_dying hj hlow

section Prune

variable {node : UInt64} (hn : node.toNat < 2 ^ 63)
include hn

private theorem prune_spec : PruneCalls node.toNat 0 (prune node) :=
  pruneLoop_spec hn 63 0 (by decide) (by decide) 1 rfl

theorem prune_result : (prune node).result = .val () := (prune_spec hn).result

theorem prune_decreasing : (prune node).nodes.Pairwise (fun a b => b.toNat < a.toNat) :=
  (prune_spec hn).decreasing

/-- `prune(n)` enumerates the nodes that die upon the creation of `n`. -/
theorem prune_numbers : (prune node).numbers = fenwick.dying node.toNat :=
  Set.ext fun j => ((prune_spec hn).mem_iff j).trans (and_iff_left (lowBit_pos j))

end Prune

/-- Here the bound on the node is not needed. -/
theorem pruneLoop_below {node : UInt64} (fuel i : ℕ) (hi : i ≤ 62) (mask : UInt64)
    (hmask : mask.toNat = 2 ^ (i + 1) - 1) :
    ∀ x ∈ (pruneLoop node fuel mask).nodes, x.toNat + 3 ≤ node.toNat := by
  induction fuel generalizing i mask with
  | zero => exact fun x hx => absurd hx List.not_mem_nil
  | succ fuel ih =>
      intro x hx
      rw [pruneLoop_succ] at hx
      split at hx
      · cases hx
      · split at hx
        · cases hx
        · next hguard =>
            split at hx
            · cases hx
            · have hi' : i < 62 := by
                refine lt_of_le_of_ne hi fun heq => hguard (UInt64.toNat_inj.mp ?_)
                rw [hmask, heq]
                rfl
              rcases List.mem_append.mp hx with hx | hx
              · split at hx
                · next hle =>
                    -- three halves of a power of two, at least 3
                    have hpos := Nat.two_pow_pos i
                    have hk := toNat_prune_k hmask hi'
                    have hle' := UInt64.le_iff_toNat_le.mp hle
                    rw [List.mem_singleton.mp hx, UInt64.toNat_sub_of_le _ _ hle]
                    omega
                · cases hx
              · exact ih (i + 1) (by omega) _ (UInt64.toNat_or_shiftLeft_one hmask (by omega)) x hx

/-- Whatever `prune(n)` reports is well below `n`. -/
theorem add_three_le_of_mem_prune {node x : UInt64} (hx : x ∈ (prune node).nodes) :
    x.toNat + 3 ≤ node.toNat :=
  pruneLoop_below 64 0 (by decide) 1 rfl x hx

/-- At `2 ^ 63` the loop gives up, after it has reported nodes that do die then. -/
theorem prune_two_pow_63 :
    (prune ((1 : UInt64) <<< 63)).result = .exn (.runtimeError "Node too big") ∧
      ∀ x ∈ (prune ((1 : UInt64) <<< 63)).nodes,
        x ≠ 0 ∧ x.toNat + 3 * (x &&& -x).toNat = 2 ^ 63 := by
  refine ⟨by decide +kernel, fun x hx => ?_⟩
  have hall : ((prune ((1 : UInt64) <<< 63)).nodes.all fun x =>
      x ≠ 0 ∧ x.toNat + 3 * (x &&& -x).toNat = 2 ^ 63) = true := by decide +kernel
  exact of_decide_eq_true (List.all_eq_true.mp hall x hx)

/-!
## Pruning maintains what `alive_after` recomputes

The recurrence of the schedule, for the two loops: one of them computes what is alive from `n`, and
the other one what is to be deleted from what was alive before.
-/

theorem mem_aliveAfter_nodes {node x : UInt64} (hn : node.toNat < 2 ^ 63) :
    x ∈ (aliveAfter node).nodes ↔ x.toNat ∈ fenwick.alive node.toNat := by
  rw [← aliveAfter_numbers hn, Calls.toNat_mem_numbers]

theorem mem_prune_nodes {node x : UInt64} (hn : node.toNat < 2 ^ 63) :
    x ∈ (prune node).nodes ↔ x.toNat ∈ fenwick.dying node.toNat := by
  rw [← prune_numbers hn, Calls.toNat_mem_numbers]

theorem mem_dying_iff_toNat {j : UInt64} {n : ℕ} :
    j.toNat ∈ fenwick.dying n ↔ j ≠ 0 ∧ j.toNat + 3 * (j &&& -j).toNat = n := by
  rw [Fenwick.mem_dying_iff, UInt64.toNat_ne_zero]
  refine and_congr_right fun hj => ?_
  rw [UInt64.toNat_and_neg hj]

/-- A node whose demise is a 64-bit number has it as its `time_of_demise`. -/
theorem timeOfDemise_of_mem_dying {j node : UInt64} (h : j.toNat ∈ fenwick.dying node.toNat) :
    timeOfDemise j = .ok node := by
  obtain ⟨hj, hsum⟩ := mem_dying_iff_toNat.mp h
  rw [timeOfDemise, if_neg hj]
  congr 1
  have hlt := node.toNat_lt
  apply UInt64.toNat_inj.mp
  rw [UInt64.toNat_add, UInt64.toNat_mul, show (3 : UInt64).toNat = 3 from rfl,
    Nat.mod_eq_of_lt (by omega : 3 * (j &&& -j).toNat < 2 ^ 64), Nat.mod_eq_of_lt (by omega), hsum]

/-- Up to `2 ^ 63`, whatever `prune(n)` reports dies upon the creation of `n`. -/
theorem mem_dying_of_mem_prune {node x : UInt64} (hn : node.toNat ≤ 2 ^ 63)
    (hx : x ∈ (prune node).nodes) : x.toNat ∈ fenwick.dying node.toNat := by
  rcases Nat.lt_or_eq_of_le hn with hlt | heq
  · exact (mem_prune_nodes hlt).mp hx
  · have hnode : node = (1 : UInt64) <<< 63 := UInt64.toNat_inj.mp heq
    rw [hnode] at hx
    rw [heq, mem_dying_iff_toNat]
    exact prune_two_pow_63.2 x hx

/-- Up to `2 ^ 63`, `prune(n)` returns, except at `2 ^ 63` itself. -/
theorem prune_result_cases {node : UInt64} (hn : node.toNat ≤ 2 ^ 63) :
    (node.toNat < 2 ^ 63 ∧ (prune node).result = .val ()) ∨
      (prune node).result = .exn (.runtimeError "Node too big") := by
  rcases Nat.lt_or_eq_of_le hn with hlt | heq
  · exact Or.inl ⟨hlt, prune_result hlt⟩
  · have hnode : node = (1 : UInt64) <<< 63 := UInt64.toNat_inj.mp heq
    rw [hnode]
    exact Or.inr prune_two_pow_63.1

/-- `prune(n)` reports, each once, the nodes whose demise is `n`; they are what `alive_after(n - 1)`
reports and `alive_after(n)` does not, and removing them and adding `n` leads from the one to the
other. -/
theorem prune_maintains_aliveAfter (n : UInt64) (hpos : 1 ≤ n) (hn : n.toNat < 2 ^ 63) :
    ((aliveAfter n).result = .val () ∧ (aliveAfter (n - 1)).result = .val () ∧
      (prune n).result = .val ()) ∧
    (prune n).nodes.Pairwise (fun a b => b < a) ∧
    (∀ j, j ∈ (prune n).nodes ↔ 1 ≤ j ∧ j.toNat + 3 * (j &&& -j).toNat = n.toNat) ∧
    (∀ j ∈ (prune n).nodes, timeOfDemise j = .ok n) ∧
    (∀ j, j ∈ (prune n).nodes ↔ j ∈ (aliveAfter (n - 1)).nodes ∧ j ∉ (aliveAfter n).nodes) ∧
    ∀ j, j ∈ (aliveAfter n).nodes ↔
      (j ∈ (aliveAfter (n - 1)).nodes ∧ j ∉ (prune n).nodes) ∨ j = n := by
  have hne (j : UInt64) : 1 ≤ j ↔ j ≠ 0 := by
    rw [UInt64.le_iff_toNat_le, ← UInt64.toNat_ne_zero]
    exact Nat.one_le_iff_ne_zero
  obtain ⟨m, hm⟩ := Nat.exists_eq_succ_of_ne_zero (UInt64.toNat_ne_zero.mpr ((hne n).mp hpos))
  have hpred : (n - 1).toNat = m := by
    rw [UInt64.toNat_sub_one ((hne n).mp hpos), hm, Nat.succ_sub_one]
  have hn' : (n - 1).toNat < 2 ^ 63 := by omega
  refine ⟨⟨aliveAfter_result hn, aliveAfter_result hn', prune_result hn⟩, ?_, ?_, ?_, ?_, ?_⟩
  · exact (prune_decreasing hn).imp fun h => UInt64.lt_iff_toNat_lt.mpr h
  · intro j
    rw [mem_prune_nodes hn, mem_dying_iff_toNat, hne]
  · intro j hj
    exact timeOfDemise_of_mem_dying ((mem_prune_nodes hn).mp hj)
  · intro j
    rw [mem_prune_nodes hn, mem_aliveAfter_nodes hn, mem_aliveAfter_nodes hn', hpred, hm,
      fenwick.dying_eq]
    exact Iff.rfl
  · intro j
    rw [mem_prune_nodes hn, mem_aliveAfter_nodes hn, mem_aliveAfter_nodes hn', hpred, hm,
      fenwick.alive_succ, ← UInt64.toNat_inj, hm]
    exact or_comm

theorem prune_maintains_aliveAfter_eight :
    (prune 8).nodes = [5, 2] ∧
      ∀ j, j ∈ (aliveAfter 8).nodes ↔ (j ∈ (aliveAfter 7).nodes ∧ j ∉ (prune 8).nodes) ∨ j = 8 :=
  ⟨by decide, (prune_maintains_aliveAfter 8 (by decide) (by decide)).2.2.2.2.2⟩

end Diffmonger.Tree
