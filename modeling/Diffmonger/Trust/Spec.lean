import Diffmonger.Trust
import Diffmonger.RepositoryStructure.Spec
import Diffmonger.Lib.Interference

/-!
# What `maybeUpdateBreadcrumb` decides

The decision on a candidate is a function of the timestamps, the minimum time and the clock
(`trustedAt`); the program reads the node before the candidate and takes it
(`wp_maybeUpdateBreadcrumb`). Where nothing is known of the repository, it is known at least what
may be returned (`Follows`).
-/

namespace Diffmonger.Trust

open Prog RepositoryStructure

variable {β : Type}

/-- When the candidate that follows `cursnapshot` is trusted, if it is trusted at the time `now`. -/
def trustedAt (plus : Int64 → Int64 → ℤ) (lastTrustedNodeAuthorisedAt : Int64)
    (cursnapshot candidate : Encoded) (minTimeBetweenSnapshots now : Int64) : Option Int64 :=
  if candidate.timestamp < cursnapshot.timestamp then none
  else
    let at' := max (plus lastTrustedNodeAuthorisedAt minTimeBetweenSnapshots)
      candidate.timestamp.toInt
    if at' ≤ (max lastTrustedNodeAuthorisedAt now).toInt then some (Int64.ofInt at') else none

theorem toInt_max (a b : Int64) : (max a b).toInt = max a.toInt b.toInt := by
  show (if a ≤ b then b else a).toInt = _
  split
  · next h => exact (max_eq_right (Int64.le_iff_toInt_le.mp h)).symm
  · next h =>
      rw [Int64.le_iff_toInt_le, not_le] at h
      exact (max_eq_left h.le).symm

/-- The time at which a node is trusted does not depend on the time at which that is found out. -/
theorem trustedAt_mono {plus : Int64 → Int64 → ℤ} {last min now now' at' : Int64}
    {cursnapshot candidate : Encoded} (hnow : now ≤ now')
    (h : trustedAt plus last cursnapshot candidate min now = some at') :
    trustedAt plus last cursnapshot candidate min now' = some at' := by
  unfold trustedAt at h ⊢
  split at h
  · cases h
  · next hts =>
      rw [if_neg hts]
      dsimp only at h ⊢
      split at h
      · next hle =>
          have hmax : (max last now).toInt ≤ (max last now').toInt := by
            rw [toInt_max, toInt_max]
            exact max_le_max_left _ (Int64.le_iff_toInt_le.mp hnow)
          rw [if_pos (hle.trans hmax)]
          exact h
      · cases h

variable {plus : Int64 → Int64 → ℤ} {breadcrumb : Breadcrumb} {candidate : Encoded}
  {minTimeBetweenSnapshots now : Int64}

/-- The initial node is trusted at once. -/
theorem maybeUpdateBreadcrumb_initial (h : breadcrumb.untrustedBegin = Node.initialValue) :
    (maybeUpdateBreadcrumb plus breadcrumb candidate minTimeBetweenSnapshots now : Repo β _) =
      pure (some ⟨.ofNat 1, now⟩) := by
  rw [maybeUpdateBreadcrumb, if_pos h, h]
  rfl

/-- Any other node is compared with the one before it. -/
theorem wp_maybeUpdateBreadcrumb {I : List Event → World β → Prop}
    {Q : Result Exn (Option Breadcrumb) → List Event → World β → Prop} {tr : List Event}
    {w : World β} {cursnapshot : Encoded} (h : breadcrumb.untrustedBegin ≠ Node.initialValue)
    (hnode : candidate.node = breadcrumb.untrustedBegin)
    (hlt : breadcrumb.untrustedBegin.toNat < 2 ^ 64 - 1)
    (hcur : w.disk.readId ⟨breadcrumb.untrustedBegin.value - 1⟩ = .ok (some cursnapshot)) :
    (maybeUpdateBreadcrumb plus breadcrumb candidate minTimeBetweenSnapshots now).wp I Q tr w ↔
      I (tr ++ [.look]) w ∧ Q (.val
        ((trustedAt plus breadcrumb.lastTrustedNodeAuthorisedAt cursnapshot candidate
          minTimeBetweenSnapshots now).map fun at' =>
            ⟨.ofNat (breadcrumb.untrustedBegin.toNat + 1), at'⟩)) (tr ++ [.look]) w := by
  rw [maybeUpdateBreadcrumb, if_neg h, if_neg (by simp [hnode])]
  simp only [wp_bind, wp_getEncodedSnapshotId, hcur, bindPost, trustedAt]
  refine and_congr_right fun _ => ?_
  split
  · rfl
  · split
    · rw [hnode, Node.next_of_toNat_lt hlt]
      rfl
    · rfl

/-- The candidate is older than its predecessor, and is taken for an attack. -/
def Rejects (disk : Disk) (breadcrumb : Breadcrumb) (candidate : Encoded) : Prop :=
  breadcrumb.untrustedBegin ≠ Node.initialValue ∧ candidate.node = breadcrumb.untrustedBegin ∧
    ∃ cursnapshot, disk.readId ⟨breadcrumb.untrustedBegin.value - 1⟩ = .ok (some cursnapshot) ∧
      candidate.timestamp < cursnapshot.timestamp

/-- Such a candidate is never trusted. -/
theorem Rejects.ends {w : World β} (h : Rejects w.disk breadcrumb candidate) :
    (maybeUpdateBreadcrumb plus breadcrumb candidate minTimeBetweenSnapshots now).Ends
      (fun r w' => r = .val none ∧ w' = w) w := by
  obtain ⟨hroot, hnode, cursnapshot, hread, hlt⟩ := h
  intro tr
  rw [maybeUpdateBreadcrumb, if_neg hroot, if_neg (by simp [hnode])]
  simp only [wp_bind, wp_getEncodedSnapshotId, hread, bindPost, hlt, if_true]
  exact ⟨trivial, rfl, rfl⟩

/-- With exact times, a node is trusted no earlier than its predecessor and the minimum time later,
and not in the future. -/
theorem quarantine_bounds {last min now timestamp : Int64}
    (h : max (exactPlus last min) timestamp.toInt ≤ (max last now).toInt) :
    last.toInt + min.toInt ≤ (Int64.ofInt (max (exactPlus last min) timestamp.toInt)).toInt ∧
      ((Int64.ofInt (max (exactPlus last min) timestamp.toInt)).toInt ≤ last.toInt ∨
        (Int64.ofInt (max (exactPlus last min) timestamp.toInt)).toInt ≤ now.toInt) := by
  -- the exact time fits, since it lies between two times that do
  rw [Int64.toInt_ofInt_of_le ((Int64.le_toInt timestamp).trans (le_max_right _ _))
    (lt_of_le_of_lt h (Int64.toInt_lt _))]
  rw [toInt_max] at h
  exact ⟨le_max_left _ _, le_max_iff.mp h⟩

/-- What the breadcrumb may be updated to, whatever the repository holds. -/
def Follows (min now : Int64) (b b' : Breadcrumb) : Prop :=
  (b.untrustedBegin = Node.initialValue ∧ b' = ⟨.ofNat 1, now⟩) ∨
    (b.untrustedBegin ≠ Node.initialValue ∧
      b'.untrustedBegin.toNat = b.untrustedBegin.toNat + 1 ∧
      b.lastTrustedNodeAuthorisedAt.toInt + min.toInt ≤ b'.lastTrustedNodeAuthorisedAt.toInt ∧
      (b'.lastTrustedNodeAuthorisedAt.toInt ≤ b.lastTrustedNodeAuthorisedAt.toInt ∨
        b'.lastTrustedNodeAuthorisedAt.toInt ≤ now.toInt))

/-- It is enough to follow the returns of the program; what it reads does not matter. -/
theorem returns_maybeUpdateBreadcrumb :
    (maybeUpdateBreadcrumb exactPlus breadcrumb candidate minTimeBetweenSnapshots now :
      Repo β _).Returns
      fun updated => ∀ b', updated = some b' → Follows minTimeBetweenSnapshots now breadcrumb b' := by
  rcases eq_or_ne breadcrumb.untrustedBegin Node.initialValue with hroot | hroot
  · rw [maybeUpdateBreadcrumb_initial hroot]
    rintro b' ⟨⟩
    exact .inl ⟨hroot, rfl⟩
  · rw [maybeUpdateBreadcrumb, if_neg hroot]
    split
    · trivial
    · next hnode =>
        rw [ne_eq, not_not] at hnode
        refine returns_bind (returns_trivial _) fun cursnapshot _ => ?_
        split
        · rintro b' ⟨⟩
        · next hts =>
            dsimp only
            split
            · next hle =>
                rcases hnext : candidate.node.next with e | next
                · trivial
                · rintro b' ⟨⟩
                  exact .inr ⟨hroot, hnode ▸ Node.toNat_next hnext, quarantine_bounds hle⟩
            · rintro b' ⟨⟩

end Diffmonger.Trust
