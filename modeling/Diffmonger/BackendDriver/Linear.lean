import Diffmonger.BackendDriver
import Diffmonger.Lib.Rollback

/-!
# Backends with a linear history

The dataset is a list of snapshots. Restoring a difference requires that its parent is in the
dataset, and discards everything after it, as `zfs receive -F` does.
-/

namespace Diffmonger

variable {β S : Type} [DecidableEq S]

/-- Nothing goes wrong on a backend with a linear history, as long as the snapshots that a method
needs are in the dataset. -/
structure LinearHistory (driver : BackendDriver β S) (snapshots : β → List S) : Prop where
  snapshotId_encoded : ∀ id, driver.snapshotId (driver.encoded id) = .ok id
  existsSnapshot : ∀ id b, (driver.existsSnapshot id b).1 = .ok (decide (id ∈ snapshots b)) ∧
    snapshots (driver.existsSnapshot id b).2 = snapshots b
  initial : ∀ id b, id ∈ snapshots b → (driver.initial id b).1.result = .ok () ∧
    snapshots (driver.initial id b).2 = snapshots b
  diff : ∀ parent id b, parent ∈ snapshots b → id ∈ snapshots b →
    (driver.diff parent id b).1.result = .ok () ∧
      snapshots (driver.diff parent id b).2 = snapshots b
  restoreInitial : ∀ id input b, (driver.restoreInitial id input b).1 = .ok () ∧
    snapshots (driver.restoreInitial id input b).2 = [id]
  restoreDiff : ∀ parent id input b, parent ∈ snapshots b →
    (driver.restoreDiff parent id input b).1 = .ok () ∧
      snapshots (driver.restoreDiff parent id input b).2 = rollBack parent (snapshots b) ++ [id]

theorem linearHistory_linear : LinearHistory BackendDriver.linear id where
  snapshotId_encoded _ := rfl
  existsSnapshot _ _ := ⟨rfl, rfl⟩
  initial id b hid := by
    have h : BackendDriver.linear.initial id b = _ := if_pos hid
    rw [h]
    exact ⟨rfl, rfl⟩
  diff parent id b hparent hid := by
    have h : BackendDriver.linear.diff parent id b = _ := if_pos ⟨hparent, hid⟩
    rw [h]
    exact ⟨rfl, rfl⟩
  restoreInitial _ _ _ := ⟨rfl, rfl⟩
  restoreDiff parent id input b hparent := by
    have h : BackendDriver.linear.restoreDiff parent id input b = _ := if_pos hparent
    rw [h]
    exact ⟨rfl, rfl⟩

/-- What can be relied on where anything may go wrong: a method that returns has done its work. -/
structure Receives (driver : BackendDriver β S) (snapshots : β → List S) : Prop where
  snapshotId_encoded : ∀ id, driver.snapshotId (driver.encoded id) = .ok id
  existsSnapshot : ∀ id b found, (driver.existsSnapshot id b).1 = .ok found →
    found = decide (id ∈ snapshots b) ∧ snapshots (driver.existsSnapshot id b).2 = snapshots b
  restoreInitial : ∀ id input b, (driver.restoreInitial id input b).1 = .ok () →
    snapshots (driver.restoreInitial id input b).2 = [id]
  restoreDiff : ∀ parent id input b, (driver.restoreDiff parent id input b).1 = .ok () →
    parent ∈ snapshots b ∧
      snapshots (driver.restoreDiff parent id input b).2 = rollBack parent (snapshots b) ++ [id]

theorem receives_linear : Receives BackendDriver.linear id where
  snapshotId_encoded _ := rfl
  existsSnapshot _ _ _ h := ⟨(Except.ok.inj h).symm, rfl⟩
  restoreInitial _ _ _ _ := rfl
  restoreDiff parent id input b h := by
    by_cases hparent : parent ∈ b
    · exact ⟨hparent, (linearHistory_linear.restoreDiff parent id input b hparent).2⟩
    · have hmissing : BackendDriver.linear.restoreDiff parent id input b = _ := if_neg hparent
      rw [hmissing] at h
      cases h

/-- Moreover, a snapshot that is taken is a new one, and comes last; ids are of bounded size, and so
the dataset must not hold too many snapshots. There is no difference to a snapshot that is not in
the dataset. -/
structure LinearDataset (driver : BackendDriver β S) (snapshots : β → List S) : Prop
    extends LinearHistory driver snapshots where
  snapshot : ∀ node uuid b, (snapshots b).length < 2 ^ 63 → ∃ id old,
    (driver.snapshot node uuid b).1 = .ok (id, old) ∧ id ∉ snapshots b ∧
      snapshots (driver.snapshot node uuid b).2 = snapshots b ++ [id]
  diff_missing : ∀ parent id b, parent ∉ snapshots b →
    ∃ e, (driver.diff parent id b).1.result = .error e

/-!
## New snapshots

A driver for runs on fixed inputs has to come up with an id that the dataset does not hold. Among
more ids than the dataset has snapshots there is one.
-/

namespace Encoded

/-- Ids of a node, told apart by their timestamps. -/
def stamped (node : Node) (n : ℕ) : Encoded := { plain node with timestamp := .ofNat n }

/-- An id of the node that is not used in the dataset. -/
def unused (node : Node) (b : List Encoded) : Encoded :=
  (((List.range (b.length + 1)).map (stamped node)).find? (· ∉ b)).getD (plain node)

theorem node_unused (node : Node) (b : List Encoded) : (unused node b).node = node := by
  unfold unused
  cases h : ((List.range (b.length + 1)).map (stamped node)).find? (· ∉ b) with
  | none => rfl
  | some encoded =>
      obtain ⟨n, -, rfl⟩ := List.mem_map.mp (List.mem_of_find?_eq_some h)
      rfl

/-- There are more ids than snapshots. -/
theorem unused_notMem {b : List Encoded} (hb : b.length < 2 ^ 63) (node : Node) :
    unused node b ∉ b := by
  have hinj : ((List.range (b.length + 1)).map (stamped node)).Nodup := by
    refine (List.nodup_map_iff_inj_on List.nodup_range).mpr fun m hm n hn heq => ?_
    rw [List.mem_range] at hm hn
    have htoInt := congrArg (fun e => e.timestamp.toInt) heq
    simp only [stamped] at htoInt
    rw [Int64.toInt_ofNat_of_lt (by omega), Int64.toInt_ofNat_of_lt (by omega)] at htoInt
    exact_mod_cast htoInt
  unfold unused
  cases h : ((List.range (b.length + 1)).map (stamped node)).find? (· ∉ b) with
  | some encoded => simpa using List.find?_some h
  | none =>
      have hsub : (List.range (b.length + 1)).map (stamped node) ⊆ b := fun e he => by
        simpa using List.find?_eq_none.mp h e he
      have hle := (hinj.subperm hsub).length_le
      rw [List.length_map, List.length_range] at hle
      omega

end Encoded

/-- Snapshots get ids that are not used in the dataset. -/
def BackendDriver.linearFresh : BackendDriver (List Encoded) Encoded :=
  { BackendDriver.linear with
    snapshot := fun node _ b => (.ok (Encoded.unused node b, false), b ++ [Encoded.unused node b])
    getNode_snapshot := fun node _ b _ _ h => by
      cases h
      exact Encoded.node_unused node b }

theorem linearDataset_linearFresh : LinearDataset BackendDriver.linearFresh id where
  toLinearHistory := { linearHistory_linear with }
  snapshot node _ b hb := ⟨_, _, rfl, Encoded.unused_notMem hb node, rfl⟩
  diff_missing parent id b hparent := by
    have h : BackendDriver.linearFresh.diff parent id b = _ := if_neg fun hmem => hparent hmem.1
    rw [h]
    exact ⟨_, rfl⟩

end Diffmonger
