import Diffmonger.RepositoryStructure.Spec
import Diffmonger.Tree.Invariants

/-!
# The nodes that are listed

`getNodesIncludingUntrusted` enumerates the trusted nodes that are alive from the last one down, and
the untrusted ones from the first one up to the limit or to the next node.

The second enumeration is empty or does not come to an end. To find the next node,
`getNextSnapshotNode` has to return, and it does so only if the first untrusted node has not been
stored, which is then the next node; a limit before it has been passed already, and counting up does
not get there (`nodesUntil_passed`). So what is listed, if anything, are the trusted nodes
(`getNodesIncludingUntrusted_free`), and otherwise nothing is returned
(`getNodesIncludingUntrusted_val`).
-/

namespace Diffmonger

open Prog

variable {β : Type}

namespace RepositoryStructure

/-!
## The two enumerations

The trusted nodes come from `alive_after`, in no particular order, and are sorted; the untrusted
ones are tried one number after the other.
-/

/-- Sorting nodes that are all different. -/
theorem ascending_mergeSort {nodes : List Node} (h : nodes.Nodup) :
    (nodes.mergeSort fun a b => a.value ≤ b.value).Pairwise fun a b => a.toNat < b.toNat := by
  have hsorted : (nodes.mergeSort fun a b => a.value ≤ b.value).Pairwise
      fun a b => decide (a.value ≤ b.value) = true :=
    List.pairwise_mergeSort (fun a b c => by simpa using UInt64.le_trans)
      (fun a b => by simpa using UInt64.le_total _ _) nodes
  refine hsorted.imp₂ (fun a b hle hne => ?_) ((List.mergeSort_perm ..).nodup_iff.mpr h)
  refine lt_of_le_of_ne (UInt64.le_iff_toNat_le.mp (of_decide_eq_true hle)) fun heq => hne ?_
  exact Node.toNat_inj.mp heq

theorem existingNodes_ends (values : List UInt64) (w : World β) :
    (existingNodes values).Ends (fun r w' => w' = w ∧ r = .val
      ((values.map Node.mk).filter fun node => (w.disk.snapshots node).isSome)) w := by
  induction values with
  | nil => exact fun tr => ⟨rfl, rfl⟩
  | cons value rest ih =>
      intro tr
      simp only [existingNodes, nodeExists, wp_bind, wp_look, bindPost, true_and]
      refine wp_post ?_ (ih _)
      rintro r tr' w' ⟨rfl, rfl⟩
      refine ⟨rfl, ?_⟩
      rw [List.map_cons, List.filter_cons]

/-- Counting up never comes back to a node that has been passed. -/
theorem nodesUntil_passed {last node : Node} (hlt : last.toNat < node.toNat) (fuel : ℕ)
    (w : World β) :
    (nodesUntil last fuel node).Ends (fun r _ => ∀ nodes, r ≠ .val nodes) w := by
  induction fuel generalizing node w with
  | zero => exact fun tr => by simp [nodesUntil]
  | succ fuel ih =>
      intro tr
      have hne : node ≠ last := by
        rintro rfl
        exact lt_irrefl _ hlt
      rw [nodesUntil, if_neg hne, wp_bind, wp_ofExcept]
      cases hnext : node.next with
      | error e => simp [Result.ofExcept]
      | ok next =>
          have hsucc := Node.toNat_next hnext
          simp only [Result.ofExcept, bindPost, wp_bind]
          exact wp_post (fun _ _ _ => bindPost_of_ne fun _ => id) (ih (by omega) w tr)

/-! ## What is listed -/

section
variable {w : World β} {limit : Node} {env : Env}

/-- If the first untrusted node has no id file and is not past the limit, exactly the trusted nodes
are listed that are alive and have a directory. -/
theorem getNodesIncludingUntrusted_free
    (hroot : w.repositoryStructure.breadcrumb.untrustedBegin ≠ Node.initialValue)
    (hbound : w.repositoryStructure.breadcrumb.untrustedBegin.toNat ≤ 2 ^ 63)
    (hid : w.disk.idFile w.repositoryStructure.breadcrumb.untrustedBegin = none)
    (hlimit : limit = Node.initialValue ∨
      w.repositoryStructure.breadcrumb.untrustedBegin.toNat ≤ limit.toNat)
    (hfuel : 0 < env.fuel) :
    (getNodesIncludingUntrusted env limit).Ends (fun r w' => w' = w ∧ ∃ nodes, r = .val nodes ∧
      nodes.Pairwise (fun a b => a.toNat < b.toNat) ∧
      ∀ node, node ∈ nodes ↔ node.toNat ∈
        fenwick.aliveBefore w.repositoryStructure.breadcrumb.untrustedBegin.toNat ∩ w.disk.nodes)
      w := by
  generalize hu : w.repositoryStructure.breadcrumb.untrustedBegin = u at hroot hbound hid hlimit ⊢
  obtain ⟨n, hn⟩ := Nat.exists_eq_succ_of_ne_zero fun h0 => hroot (Node.toNat_inj.mp h0)
  have hpred : (⟨u.value - 1⟩ : Node).toNat = n := by
    rw [Node.toNat_pred hroot, hn]
    rfl
  have hlt : (⟨u.value - 1⟩ : Node).toNat < 2 ^ 63 := by omega
  intro tr
  simp only [getNodesIncludingUntrusted, getBreadcrumb, wp_bind, wp_look, bindPost, true_and, hu,
    if_neg hroot]
  refine wp_post ?_ (existingNodes_ends _ w _)
  rintro r tr' w' ⟨rfl, rfl⟩
  simp only [bindPost, Node.aliveAfter, Tree.aliveAfter_result hlt]
  rw [wp_bind, wp_ofResult, bindPost, wp_bind]
  refine wp_post ?_ (getNextSnapshotNode_free (hu ▸ hid) hfuel _)
  rintro r tr' w ⟨rfl, rfl⟩
  -- there is no untrusted node before the limit
  have hlast : (if limit = ⟨0⟩ ∨ u.value < limit.value then u else limit) = u := by
    split
    · rfl
    · next hnot =>
        obtain ⟨hne, hge⟩ := not_or.mp hnot
        rw [UInt64.lt_iff_toNat_lt, not_lt] at hge
        exact Node.toNat_inj.mp (le_antisymm hge (hlimit.resolve_left hne))
  obtain ⟨fuel, hsucc⟩ := Nat.exists_eq_succ_of_ne_zero hfuel.ne'
  simp only [bindPost, hu, hlast, hsucc, nodesUntil, if_true, wp_bind, wp_pure, List.append_nil]
  -- The enumeration is in decreasing order, so that no node comes twice.
  refine ⟨trivial, _, rfl, ascending_mergeSort ?_, fun node => ?_⟩
  · have hdistinct : ((Tree.aliveAfter (u.value - 1)).nodes.map Node.mk).Pairwise
        fun a b => b.toNat < a.toNat := List.pairwise_map.mpr (Tree.aliveAfter_decreasing hlt)
    refine (hdistinct.sublist List.filter_sublist).imp fun hlt heq => ?_
    rw [heq] at hlt
    exact lt_irrefl _ hlt
  · rw [List.mem_mergeSort, List.mem_filter, ← Disk.toNat_mem_nodes, hn]
    refine and_congr_left fun _ => ?_
    show _ ↔ node.toNat ∈ fenwick.alive n
    rw [← hpred, ← Tree.mem_aliveAfter_nodes hlt]
    refine ⟨fun hmem => ?_, fun hmem => List.mem_map.mpr ⟨node.value, hmem, rfl⟩⟩
    obtain ⟨value, hvalue, rfl⟩ := List.mem_map.mp hmem
    exact hvalue

/-- If nothing has been trusted yet, nothing is listed. -/
theorem getNodesIncludingUntrusted_initial
    (hroot : w.repositoryStructure.breadcrumb.untrustedBegin = Node.initialValue) :
    (getNodesIncludingUntrusted env limit).Ends (fun r w' => w' = w ∧ r = .val []) w := by
  intro tr
  simp [getNodesIncludingUntrusted, getBreadcrumb, hroot]

/-- What has to be the case for anything to be returned, if some nodes are trusted. -/
theorem getNodesIncludingUntrusted_val
    (hroot : w.repositoryStructure.breadcrumb.untrustedBegin ≠ Node.initialValue) :
    (getNodesIncludingUntrusted env limit).Ends (fun r _ => ∀ nodes, r = .val nodes →
      w.repositoryStructure.breadcrumb.untrustedBegin.toNat ≤ 2 ^ 63 ∧
        w.disk.idFile w.repositoryStructure.breadcrumb.untrustedBegin = none ∧
        (limit = Node.initialValue ∨
          w.repositoryStructure.breadcrumb.untrustedBegin.toNat ≤ limit.toNat)) w := by
  generalize hu : w.repositoryStructure.breadcrumb.untrustedBegin = u at hroot ⊢
  have hthrows {P : Prop} {α : Type} {r : Result Exn α}
      {k : α → Repo β (List Node)} {tr : List Event} {w : World β} (hr : ∀ a, r ≠ .val a) :
      bindPost k (fun _ _ => True) (fun r _ _ => ∀ nodes, r = .val nodes → P) r tr w :=
    bindPost_of_ne (fun _ hne nodes hval => absurd hval (hne nodes)) hr
  intro tr
  simp only [getNodesIncludingUntrusted, getBreadcrumb, wp_bind, wp_look, bindPost, true_and, hu,
    if_neg hroot]
  refine wp_post ?_ (existingNodes_ends _ w _)
  rintro r tr' w' ⟨rfl, rfl⟩
  simp only [bindPost, Node.aliveAfter]
  rw [wp_bind, wp_ofResult]
  by_cases hlt : (⟨u.value - 1⟩ : Node).toNat < 2 ^ 63
  · have hbound : u.toNat ≤ 2 ^ 63 := by
      rw [Node.toNat_pred hroot] at hlt
      omega
    rw [Tree.aliveAfter_result hlt, bindPost, wp_bind]
    -- If the first untrusted node has been stored, the next node is not found.
    cases hid : w'.disk.idFile u with
    | some bytes =>
        exact wp_post (fun _ _ _ => hthrows)
          (getNextSnapshotNode_stored (by rw [hu, hid]; rfl) _)
    | none =>
        refine wp_post ?_ (getNextSnapshotNode_absent (by rw [hu]; exact Disk.readId_of_none hid) _)
        rintro r tr w ⟨rfl, rfl | rfl⟩
        · rw [bindPost, wp_bind]
          by_cases hlimit : limit = Node.initialValue ∨ u.toNat ≤ limit.toNat
          · refine wp_post (fun r tr w _ => ?_) (ends_trivial tr)
            cases r with
            | val untrusted => exact fun _ _ => ⟨hbound, rfl, hlimit⟩
            | exn e => simp
            | diverged => simp
          · obtain ⟨hne, hpassed⟩ := not_or.mp hlimit
            rw [not_le] at hpassed
            -- the limit is the last node, and has been passed already
            have hlast : (if limit = ⟨0⟩ ∨ u.value < limit.value then u else limit) = limit :=
              if_neg (not_or.mpr ⟨hne, UInt64.lt_asymm (UInt64.lt_iff_toNat_lt.mpr hpassed)⟩)
            rw [hu, hlast]
            exact wp_post (fun _ _ _ => hthrows) (nodesUntil_passed hpassed env.fuel w tr)
        · simp
  · rw [Tree.aliveAfter_throws (not_lt.mp hlt)]
    simp

end

end RepositoryStructure

end Diffmonger
