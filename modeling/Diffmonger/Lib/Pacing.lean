import Mathlib.Algebra.Order.Group.MinMax
import Mathlib.Algebra.Order.Monoid.Defs
import Mathlib.Data.Finset.Fold
import Mathlib.Order.Interval.Finset.Nat

/-!
# Keeping a distance

Events are due at certain times. Each of them is let in when it is due, but no earlier than `gap`
after the one before it. `admitted_eq_fold` solves the recurrence: an event may have to wait for any
of those before it, with the gaps in between.
-/

namespace Pacing

variable {T : Type} [AddCommMonoid T] [LinearOrder T]

/-- When event `k` is let in; event 0 is let in at the start. -/
def admitted (start gap : T) (due : ℕ → T) : ℕ → T
  | 0 => start
  | k + 1 => max (admitted start gap due k + gap) (due (k + 1))

variable {start gap : T} {due : ℕ → T}

theorem due_le_admitted {k : ℕ} (hk : 1 ≤ k) : due k ≤ admitted start gap due k := by
  obtain ⟨n, rfl⟩ := Nat.exists_eq_add_of_le' hk
  exact le_max_right _ _

/-- Nobody waits if all events are far enough apart. -/
theorem admitted_eq_due {k : ℕ} (hk : 1 ≤ k) (hstart : start + gap ≤ due 1)
    (hspaced : ∀ j, 1 ≤ j → j < k → due j + gap ≤ due (j + 1)) :
    admitted start gap due k = due k := by
  induction k, hk using Nat.le_induction with
  | base => exact max_eq_right hstart
  | succ k hk ih =>
      rw [admitted, ih fun j hj hlt => hspaced j hj (Nat.lt_succ_of_lt hlt)]
      exact max_eq_right (hspaced k hk (Nat.lt_succ_self k))

variable [IsOrderedAddMonoid T]

/-- Events are let in one after the other. -/
theorem monotone_admitted (hgap : 0 ≤ gap) : Monotone (admitted start gap due) :=
  monotone_nat_of_le_succ fun _ => (le_add_of_nonneg_right hgap).trans (le_max_left _ _)

/-- An event is admitted once it is due and, for each of those before it, the gaps since that one
was due are over. -/
theorem admitted_eq_fold (k : ℕ) :
    admitted start gap due k =
      (Finset.Icc 1 k).fold max (start + k • gap) fun j => due j + (k - j) • gap := by
  induction k with
  | zero => simp [admitted]
  | succ k ih =>
      have hlast : Finset.Icc 1 (k + 1) = insert (k + 1) (Finset.Icc 1 k) := by
        ext j
        simp only [Finset.mem_Icc, Finset.mem_insert]
        omega
      -- whoever waits for event `k` waits for one more gap
      have hshift : (Finset.Icc 1 k).fold max (start + (k + 1) • gap)
            (fun j => due j + (k + 1 - j) • gap) =
          (Finset.Icc 1 k).fold max (start + k • gap) (fun j => due j + (k - j) • gap) + gap := by
        refine Eq.trans ?_ (Finset.fold_hom (m := (· + gap))
          fun x y => (max_add_add_right x y gap).symm)
        rw [succ_nsmul, ← add_assoc]
        refine Finset.fold_congr fun j hj => ?_
        rw [Nat.succ_sub (Finset.mem_Icc.mp hj).2, succ_nsmul, ← add_assoc]
      rw [hlast, Finset.fold_insert (by simp), hshift, ← ih, Nat.sub_self, zero_nsmul, add_zero,
        max_comm, admitted]

end Pacing
