import Diffmonger.Controller.Crash
import Diffmonger.Trust.Spec

/-!
# Offline pruning

`prune_repository` on a directory that nobody else changes. What one iteration of its loop does is a
function of the directory (`nextBreadcrumb`, `Disk.pruned`); a run of the loop iterates it
(`PrunesTo`). The program takes the nodes that die away one by one, and the decisions of the loop
depend on none of them, so that a killed run can be taken up again.

Main result: `pruneRepository_keeps_aliveBefore`. The invariant of an iteration is `Prunable`: of
the nodes below the first untrusted one exactly those are there that are alive before it. A kill
leaves, at a boundary, what some iteration started from, less some of the nodes that this iteration
deletes (`Resumes`). From there the same run follows, since the first untrusted node and the one
before it, which are all that an iteration looks at, never die with the first untrusted node.
-/

namespace Diffmonger

open Prog RepositoryStructure

variable {β : Type}

/-- The nodes that are alive right before the creation of the given one. -/
def Node.aliveBefore (node : Node) : Set ℕ :=
  if node = initialValue then ∅ else (⟨node.value - 1⟩ : Node).aliveAfter.numbers

namespace Node

/-- The number of the node before. -/
theorem aliveBefore_eq {node : Node} (h : node.toNat ≤ 2 ^ 63) :
    node.aliveBefore = fenwick.aliveBefore node.toNat := by
  rw [aliveBefore]
  split
  · next hroot =>
      rw [hroot]
      rfl
  · next hne =>
      have hpos : node.toNat ≠ 0 := fun hz => hne (toNat_inj.mp hz)
      obtain ⟨n, hn⟩ := Nat.exists_eq_succ_of_ne_zero hpos
      have hpred := toNat_pred hne
      have halive := Tree.aliveAfter_numbers (by
        rw [show (node.value - 1).toNat = node.toNat - 1 from hpred]
        omega)
      rw [aliveAfter, halive, show (node.value - 1).toNat = node.toNat - 1 from hpred, hn]
      rfl

end Node

theorem Disk.readId_congr {disk disk' : Disk} {node : Node}
    (h : disk.snapshots node = disk'.snapshots node) : disk.readId node = disk'.readId node := by
  rw [readId, readId, idFile, idFile, h]

/-- The directory once the nodes that die with `u` are gone and a breadcrumb is written. -/
def Disk.pruned (disk : Disk) (u : Node) (b' : Breadcrumb) : Disk :=
  { disk with
    snapshots := fun node => if node.value ∈ u.prune.nodes then none else disk.snapshots node
    breadcrumb := some b'.serialise }

namespace Controller

/-!
## One iteration

What an iteration does is decided by the disk, the breadcrumb and the clock: it writes the
breadcrumb `nextBreadcrumb` and deletes the nodes that die with the node it trusts, or it writes
nothing and the loop ends. Nothing that it deletes is read again.
-/

section
variable (plus : Int64 → Int64 → ℤ) (min now : Int64)

/-- The breadcrumb that the next iteration writes, if it writes one. -/
def nextBreadcrumb (disk : Disk) (b : Breadcrumb) : Option Breadcrumb :=
  match disk.readId b.untrustedBegin with
  | .ok (some candidate) =>
    if b.untrustedBegin = Node.initialValue then some ⟨.ofNat 1, now⟩
    else
      match disk.readId ⟨b.untrustedBegin.value - 1⟩ with
      | .ok (some cursnapshot) =>
        (Trust.trustedAt plus b.lastTrustedNodeAuthorisedAt cursnapshot candidate min now).map
          fun at' => ⟨.ofNat (b.untrustedBegin.toNat + 1), at'⟩
      | _ => none
  | _ => none

variable {plus min now}

theorem nextBreadcrumb_initial {disk : Disk} {b : Breadcrumb} {candidate : Encoded}
    (hroot : b.untrustedBegin = Node.initialValue)
    (hread : disk.readId b.untrustedBegin = .ok (some candidate)) :
    nextBreadcrumb plus min now disk b = some ⟨.ofNat 1, now⟩ := by
  rw [nextBreadcrumb, hread]
  exact if_pos hroot

theorem nextBreadcrumb_next {disk : Disk} {b : Breadcrumb} {candidate cursnapshot : Encoded}
    (hroot : b.untrustedBegin ≠ Node.initialValue)
    (hread : disk.readId b.untrustedBegin = .ok (some candidate))
    (hcur : disk.readId ⟨b.untrustedBegin.value - 1⟩ = .ok (some cursnapshot)) :
    nextBreadcrumb plus min now disk b =
      (Trust.trustedAt plus b.lastTrustedNodeAuthorisedAt cursnapshot candidate min now).map
        fun at' => ⟨.ofNat (b.untrustedBegin.toNat + 1), at'⟩ := by
  rw [nextBreadcrumb, hread]
  simp only [if_neg hroot, hcur]

end

/-- A repository in which exactly what is to be kept of the trusted nodes is left; any nodes may be
in quarantine. -/
structure Prunable (disk : Disk) (b : Breadcrumb) : Prop where
  initargs : ∀ repository, ∃ args, disk.readInitargs repository = .ok args
  read : disk.readBreadcrumb = .ok b
  below : ∀ k, k < b.untrustedBegin.toNat → (k ∈ disk.nodes ↔ k ∈ b.untrustedBegin.aliveBefore)
  bound : ∀ k ∈ disk.nodes, b.untrustedBegin.toNat ≤ k → k < 2 ^ 63 - 1
  ids : ∀ node, (disk.snapshots node).isSome → ∃ encoded, disk.readId node = .ok (some encoded)

section
variable {plus : Int64 → Int64 → ℤ} {min now : Int64} {disk : Disk} {b b' : Breadcrumb}

/-- An iteration that writes a breadcrumb has found the first untrusted node. -/
theorem mem_nodes_of_next (hnext : nextBreadcrumb plus min now disk b = some b') :
    b.untrustedBegin.toNat ∈ disk.nodes := by
  rw [Disk.toNat_mem_nodes]
  cases hdir : disk.snapshots b.untrustedBegin with
  | some dir => rfl
  | none =>
      rw [nextBreadcrumb, Disk.readId_of_absent hdir] at hnext
      cases hnext

theorem toNat_of_next (hlt : b.untrustedBegin.toNat < 2 ^ 64 - 1)
    (hnext : nextBreadcrumb plus min now disk b = some b') :
    b'.untrustedBegin.toNat = b.untrustedBegin.toNat + 1 := by
  rw [nextBreadcrumb] at hnext
  split at hnext
  · split at hnext
    · next hroot =>
        cases hnext
        rw [hroot]
        rfl
    · split at hnext
      · obtain ⟨at', -, rfl⟩ := Option.map_eq_some_iff.mp hnext
        exact Node.toNat_ofNat (by omega)
      · cases hnext
  · cases hnext

theorem Prunable.lt_of_next (h : Prunable disk b) (hnext : nextBreadcrumb plus min now disk b = some b') :
    b.untrustedBegin.toNat ∈ disk.nodes ∧ b.untrustedBegin.toNat < 2 ^ 63 - 1 ∧
      b'.untrustedBegin.toNat = b.untrustedBegin.toNat + 1 := by
  have hmem := mem_nodes_of_next hnext
  have hlt := h.bound _ hmem le_rfl
  exact ⟨hmem, hlt, toNat_of_next (by omega) hnext⟩

theorem mem_nodes_pruned {u : Node} (hu : u.toNat < 2 ^ 63) {k : ℕ} :
    k ∈ (disk.pruned u b').nodes ↔ k ∈ disk.nodes ∧ k ∉ fenwick.dying u.toNat := by
  constructor
  · rintro ⟨node, rfl, hs⟩
    have hnot : node.value ∉ u.prune.nodes := fun hmem => by simp [Disk.pruned, hmem] at hs
    refine ⟨Disk.toNat_mem_nodes.mpr ?_, fun hd => hnot ((Tree.mem_prune_nodes hu).mpr hd)⟩
    simpa [Disk.pruned, hnot] using hs
  · rintro ⟨⟨node, rfl, hs⟩, hd⟩
    have hnot : node.value ∉ u.prune.nodes := fun hmem => hd ((Tree.mem_prune_nodes hu).mp hmem)
    refine Disk.toNat_mem_nodes.mpr ?_
    simpa [Disk.pruned, hnot] using hs

/-- What an iteration leaves of a node is what was there. -/
theorem snapshots_pruned {u node : Node} {dir : NodeDir}
    (h : (disk.pruned u b').snapshots node = some dir) : disk.snapshots node = some dir := by
  simp only [Disk.pruned] at h
  split at h
  · cases h
  · exact h

/-- Nodes in quarantine are left alone. -/
theorem snapshots_pruned_of_le {u node : Node} (hu : u.toNat < 2 ^ 63) (hle : u.toNat ≤ node.toNat) :
    (disk.pruned u b').snapshots node = disk.snapshots node := by
  refine if_neg fun hmem => ?_
  have hd : node.toNat + 1 < u.toNat := fenwick.lt_of_mem_dying ((Tree.mem_prune_nodes hu).mp hmem)
  omega

/-- An iteration keeps the invariant. -/
theorem Prunable.step (h : Prunable disk b) (hnext : nextBreadcrumb plus min now disk b = some b') :
    Prunable (disk.pruned b.untrustedBegin b') b' := by
  obtain ⟨hmem, hlt, hsucc⟩ := h.lt_of_next hnext
  have hu : b.untrustedBegin.toNat < 2 ^ 63 := by omega
  refine ⟨h.initargs, Breadcrumb.deserialise_serialise b', ?_, ?_, ?_⟩
  · intro k hk
    rw [mem_nodes_pruned hu, Node.aliveBefore_eq (by omega), hsucc, Retention.aliveBefore_succ]
    have hbelow := h.below k
    rw [Node.aliveBefore_eq (by omega)] at hbelow
    rcases Nat.lt_or_eq_of_le (Nat.le_of_lt_succ (hsucc ▸ hk)) with hlt' | rfl
    · rw [hbelow hlt', Set.mem_insert_iff, Set.mem_sdiff, or_iff_right hlt'.ne]
    · exact iff_of_true ⟨hmem, fenwick.self_notMem_dying _⟩ (Set.mem_insert _ _)
  · intro k hk hle
    exact h.bound k ((mem_nodes_pruned hu).mp hk).1 (by omega)
  · intro node hs
    obtain ⟨dir, hdir⟩ := Option.isSome_iff_exists.mp hs
    have hdisk := snapshots_pruned hdir
    rw [Disk.readId_congr (hdir.trans hdisk.symm)]
    exact h.ids node (by rw [hdisk]; rfl)

end

/-!
## Runs of the loop

The relation is on directories and breadcrumbs; it counts the iterations, for the fuel. The
invariant of an iteration is kept, and what a run leaves alone follows from what an iteration leaves
alone.
-/

/-- `n` iterations write a breadcrumb, and the next one does not. -/
inductive PrunesTo (plus : Int64 → Int64 → ℤ) (min now : Int64) :
    ℕ → Disk → Breadcrumb → Disk → Breadcrumb → Prop
  | done {disk : Disk} {b : Breadcrumb} (h : nextBreadcrumb plus min now disk b = none) :
    PrunesTo plus min now 0 disk b disk b
  | step {n : ℕ} {disk final : Disk} {b b' b'' : Breadcrumb}
    (h : nextBreadcrumb plus min now disk b = some b')
    (rest : PrunesTo plus min now n (disk.pruned b.untrustedBegin b') b' final b'') :
    PrunesTo plus min now (n + 1) disk b final b''

section
variable {plus : Int64 → Int64 → ℤ} {min now : Int64} {disk final : Disk} {b b' : Breadcrumb}

/-- The loop ends, since there are only so many nodes. -/
theorem Prunable.prunesTo (h : Prunable disk b) :
    ∃ n final b', PrunesTo plus min now n disk b final b' := by
  obtain ⟨m, hm⟩ : ∃ m, 2 ^ 63 - b.untrustedBegin.toNat = m := ⟨_, rfl⟩
  induction m generalizing disk b with
  | zero =>
      cases hnext : nextBreadcrumb plus min now disk b with
      | none => exact ⟨0, disk, b, .done hnext⟩
      | some b' =>
          have hlt := (h.lt_of_next hnext).2.1
          omega
  | succ m ih =>
      cases hnext : nextBreadcrumb plus min now disk b with
      | none => exact ⟨0, disk, b, .done hnext⟩
      | some b' =>
          obtain ⟨-, hlt, hsucc⟩ := h.lt_of_next hnext
          obtain ⟨n, final, b'', hrest⟩ := ih (h.step hnext) (by omega)
          exact ⟨n + 1, final, b'', .step hnext hrest⟩

/-- What a run of the loop leaves: the invariant holds for the new breadcrumb, the nodes in
quarantine are all there, and the nodes that are left are what they were. -/
theorem PrunesTo.keeps {n : ℕ} (hto : PrunesTo plus min now n disk b final b')
    (h : Prunable disk b) :
    Prunable final b' ∧ b.untrustedBegin.toNat ≤ b'.untrustedBegin.toNat ∧
      (∀ node, b'.untrustedBegin.toNat ≤ node.toNat →
        final.snapshots node = disk.snapshots node) ∧
      ∀ node dir, final.snapshots node = some dir → disk.snapshots node = some dir := by
  induction hto with
  | done _ => exact ⟨h, le_rfl, fun _ _ => rfl, fun _ _ => id⟩
  | step hnext _ ih =>
      obtain ⟨-, hlt, hsucc⟩ := h.lt_of_next hnext
      obtain ⟨hfinal, hle, hquarantine, hleft⟩ := ih (h.step hnext)
      refine ⟨hfinal, by omega, fun node hnode => ?_, fun node dir hdir =>
        snapshots_pruned (hleft node dir hdir)⟩
      rw [hquarantine node hnode, snapshots_pruned_of_le (by omega) (by omega)]

end

/-!
## Interrupted deletions

A directory that is being deleted may lack one of its files, and the breadcrumb may be empty while
it is written. Everywhere else a node is either there as it was or gone.
-/

/-- A step in the middle of deleting a node or of writing the breadcrumb. -/
def Event.Inner : Event → Prop
  | .unlinkId _ | .unlinkBlob _ | .truncateBreadcrumb => True
  | _ => False

/-- No node is being deleted, and the breadcrumb is not being written. -/
def Boundary (tr : List Event) : Prop := ∀ event, tr.getLast? = some event → ¬ Event.Inner event

theorem boundary_append_iff {tr ls : List Event} (hne : ls ≠ []) :
    Boundary (tr ++ ls) ↔ Boundary ls := by
  rw [Boundary, Boundary, List.getLast?_append_of_ne_nil _ hne]

/-- Some nodes of `D` are gone, and nothing else has changed. -/
structure PartlyDeleted (D : Set ℕ) (disk disk' : Disk) : Prop where
  same : disk' = { disk with snapshots := disk'.snapshots }
  deleted : ∀ node, disk'.snapshots node = disk.snapshots node ∨
    node.toNat ∈ D ∧ disk'.snapshots node = none

section
variable {D : Set ℕ} {disk disk' disk'' : Disk}

theorem PartlyDeleted.refl (D : Set ℕ) (disk : Disk) : PartlyDeleted D disk disk :=
  ⟨rfl, fun _ => .inl rfl⟩

theorem PartlyDeleted.removeNode {w : World β} (h : PartlyDeleted D disk w.disk) {node : Node}
    (hnode : node.toNat ∈ D) : PartlyDeleted D disk (w.removeNode node).disk := by
  refine ⟨?_, fun m => ?_⟩
  · rw [World.removeNode, Disk.setNode, h.same]
  · rcases eq_or_ne m node with rfl | hne
    · exact .inr ⟨hnode, Disk.setNode_self _ _ _⟩
    · have heq := Disk.setNode_of_ne w.disk hne none
      exact (h.deleted m).imp heq.trans fun hm => ⟨hm.1, heq.trans hm.2⟩

theorem PartlyDeleted.snapshots_eq (h : PartlyDeleted D disk disk') {node : Node}
    (hnode : node.toNat ∉ D) : disk'.snapshots node = disk.snapshots node :=
  (h.deleted node).resolve_right fun hd => hnode hd.1

/-- What an iteration leaves does not depend on what has been deleted already. -/
theorem PartlyDeleted.pruned_eq {u : Node} (hu : u.toNat < 2 ^ 63)
    (h : PartlyDeleted (fenwick.dying u.toNat) disk disk') (b' : Breadcrumb) :
    disk'.pruned u b' = disk.pruned u b' := by
  rw [Disk.pruned, Disk.pruned, h.same]
  congr 1
  funext node
  split
  · rfl
  · next hnot => exact h.snapshots_eq fun hd => hnot ((Tree.mem_prune_nodes hu).mpr hd)

end

section
variable {I : List Event → World β → Prop} {Q : Result Exn Unit → List Event → World β → Prop}
  {tr : List Event} {w : World β}

/-- `deleteNode`, between whose first and last step the directory may be incomplete. -/
theorem wp_deleteNode (env : Env) (node : Node) (hlook : I (tr ++ [.look]) w)
    (hinner : ∀ ls w', ls ≠ [] → ¬ Boundary ls → I (tr ++ ls) w')
    (hgone : ∀ ls, ls ≠ [] → I (tr ++ ls) (w.removeNode node))
    (hval : ∀ ls, ls ≠ [] → Q (.val ()) (tr ++ ls) (w.removeNode node)) :
    (deleteNode env node).wp I Q tr w := by
  -- after one of the files has been unlinked, nothing needs to be shown
  have hunlink (ls : List Event) (w' : World β) (hls : ls.getLast? = some (.unlinkId node) ∨
      ls.getLast? = some (.unlinkBlob node)) : I (tr ++ ls) w' := by
    refine hinner ls w' (fun h => by simp [h] at hls) fun hb => ?_
    exact hls.elim (fun h => hb _ h trivial) fun h => hb _ h trivial
  simp only [deleteNode, wp_bind, wp_look, bindPost]
  refine ⟨hlook, ?_⟩
  cases hdir : w.disk.snapshots node with
  | none =>
      have hw : w.removeNode node = w := by
        rw [World.removeNode, Disk.setNode, ← hdir, Function.update_eq_self]
      exact hw ▸ hval _ (by simp)
  | some dir =>
      -- the files go first, in either order
      have hfiles : (unlinkFiles env node dir).wp I (fun r tr' w' => r = .val () ∧
          (∃ ls, tr' = tr ++ ls) ∧ w'.removeNode node = w.removeNode node) (tr ++ [.look]) w := by
        have hends := unlinkFiles_ends env node dir w (tr ++ [.look])
        refine wp_mono ?_ ?_ _ (wp_and (wp_of_emits (R := fun tr' w' => ∃ ls, tr' = tr ++ ls ∧
          (ls = [.look] ∧ w' = w ∨ ls.getLast? = some (.unlinkId node) ∨
            ls.getLast? = some (.unlinkBlob node)))
          (C := Kind fun e => e = .unlinkId node ∨ e = .unlinkBlob node) ?_ ?_
          ⟨[.look], rfl, .inl ⟨rfl, rfl⟩⟩) hends)
        · rintro tr' w' ⟨⟨ls, rfl, ⟨rfl, rfl⟩ | hls⟩, -⟩
          · exact hlook
          · exact hunlink ls w' hls
        · rintro r tr' w' ⟨⟨ls, rfl, -⟩, hr, hw'⟩
          exact ⟨hr, ⟨ls, rfl⟩, hw'⟩
        · unfold unlinkFiles
          split
          · exact emits_bind (emits_performIf (.inr rfl) _) fun _ => emits_performIf (.inl rfl) _
          · exact emits_bind (emits_performIf (.inl rfl) _) fun _ => emits_performIf (.inr rfl) _
        · rintro l u tr' w' ⟨hl, -⟩ ⟨ls, rfl, -⟩
          exact ⟨ls ++ [l], by simp, .inr (by simpa using hl)⟩
      rw [wp_bind]
      refine wp_post ?_ hfiles
      rintro r _ w' ⟨rfl, ⟨ls, rfl⟩, hw'⟩
      simp only [bindPost, wp_perform, List.append_assoc]
      rw [show w'.apply (.removeDirectory node) = w.removeNode node from hw']
      exact ⟨hgone _ (by simp), hval _ (by simp)⟩

/-- Deleting what dies with `u`, one node after the other. -/
theorem wp_deleteNodes {env : Env} {u : Node} (hu : u.toNat < 2 ^ 63) {disk₀ : Disk}
    (hdisk : PartlyDeleted (fenwick.dying u.toNat) disk₀ w.disk)
    (hI : ∀ tr' w', (Boundary tr' → PartlyDeleted (fenwick.dying u.toNat) disk₀ w'.disk) → I tr' w')
    (hval : ∀ tr', Q (.val ()) tr' (removeNodes w u.prune.nodes)) :
    (forEachNode u.prune (deleteNode env)).wp I Q tr w := by
  rw [forEachNode, wp_bind]
  refine wp_forM (fun treated _ w' => w' = removeNodes w treated ∧
    PartlyDeleted (fenwick.dying u.toNat) disk₀ w'.disk) u.prune.nodes ?_ ?_
    ⟨(removeNodes_nil w).symm, hdisk⟩
  · rintro treated x rest hsplit tr' w' ⟨rfl, hpart⟩
    have hx : x.toNat ∈ fenwick.dying u.toNat :=
      Tree.mem_dying_of_mem_prune hu.le (show x ∈ u.prune.nodes by rw [hsplit]; simp)
    have hpart' := hpart.removeNode hx
    refine wp_deleteNode env ⟨x⟩ (hI _ _ fun _ => hpart) ?_ (fun _ _ => hI _ _ fun _ => hpart') ?_
    · intro ls w'' hne hnot
      exact hI _ _ fun hb => absurd ((boundary_append_iff hne).mp hb) hnot
    · exact fun _ _ => ⟨removeNode_removeNodes w treated x, hpart'⟩
  · rintro tr' w' ⟨rfl, -⟩
    simp only [bindPost, wp_ofResult]
    rw [show u.prune.result = .val () from Tree.prune_result hu]
    exact hval tr'

/-- One iteration of the loop, in terms of the decision that it takes. -/
theorem wp_pruneRepositoryLoop_succ {plus : Int64 → Int64 → ℤ} {env : Env}
    {params : RepositoryParams} {now : Int64} {disk : Disk} {b : Breadcrumb} (h : Prunable disk b)
    (hpart : PartlyDeleted (fenwick.dying b.untrustedBegin.toNat) disk w.disk)
    (hb : w.repositoryStructure.breadcrumb = b)
    (hI : ∀ ls, (∀ l ∈ ls, l = .look) → ls ≠ [] → I (tr ++ ls) w) (fuel : ℕ)
    (hdone : nextBreadcrumb plus (minTimeBetweenSnapshots params) now disk b = none →
      ∀ tr, Q (.val ()) tr w)
    (hstep : ∀ b', nextBreadcrumb plus (minTimeBetweenSnapshots params) now disk b = some b' →
      ∀ tr, (do
        forEachNode b.untrustedBegin.prune (deleteNode env)
        writeBreadcrumb b'
        pruneRepositoryLoop plus env params now fuel).wp I Q tr w) :
    (pruneRepositoryLoop plus env params now (fuel + 1)).wp I Q tr w := by
  -- what has been deleted already does not include the candidate
  have hread := Disk.readId_congr (hpart.snapshots_eq (fenwick.self_notMem_dying _))
  simp only [pruneRepositoryLoop, getBreadcrumb, wp_bind, wp_look, bindPost,
    wp_tryGetEncodedSnapshotId, hb, hread, List.append_assoc, List.cons_append, List.nil_append]
  refine ⟨hI [.look] (by simp) (by simp), hI [.look, .look] (by simp) (by simp), ?_⟩
  cases hdir : disk.snapshots b.untrustedBegin with
  | none =>
      -- there is no candidate
      have habsent := Disk.readId_of_absent hdir
      rw [habsent]
      exact hdone (by rw [nextBreadcrumb, habsent]) _
  | some dir =>
      have hs : (disk.snapshots b.untrustedBegin).isSome := by rw [hdir]; rfl
      obtain ⟨candidate, hcandidate⟩ := h.ids _ hs
      have hlt := h.bound _ (Disk.toNat_mem_nodes.mpr hs) le_rfl
      rw [hcandidate]
      simp only [Result.ofExcept, wp_bind]
      rcases eq_or_ne b.untrustedBegin Node.initialValue with hroot | hroot
      · rw [Trust.maybeUpdateBreadcrumb_initial hroot]
        exact hstep _ (nextBreadcrumb_initial hroot hcandidate) _
      · -- the node before the candidate is there
        have hpred := Node.toNat_pred hroot
        have hpos : b.untrustedBegin.toNat ≠ 0 := fun hz => hroot (Node.toNat_inj.mp hz)
        obtain ⟨n, hn⟩ := Nat.exists_eq_succ_of_ne_zero hpos
        have hprev : (disk.snapshots ⟨b.untrustedBegin.value - 1⟩).isSome := by
          rw [← Disk.toNat_mem_nodes, h.below _ (by omega), Node.aliveBefore_eq (by omega), hpred, hn]
          exact fenwick.self_mem_alive n
        obtain ⟨cursnapshot, hcur⟩ := h.ids _ hprev
        have hcur' : w.disk.readId ⟨b.untrustedBegin.value - 1⟩ = .ok (some cursnapshot) := by
          rw [Disk.readId_congr (hpart.snapshots_eq ?_), hcur]
          rw [hpred]
          exact fenwick.pred_notMem_dying _
        rw [Trust.wp_maybeUpdateBreadcrumb hroot (Disk.node_of_readId hcandidate) (by omega) hcur']
        refine ⟨by simpa using hI [.look, .look, .look] (by simp) (by simp), ?_⟩
        rw [← nextBreadcrumb_next hroot hcandidate hcur]
        cases hcase : nextBreadcrumb plus (minTimeBetweenSnapshots params) now disk b with
        | none => exact hdone hcase _
        | some b' => exact hstep b' hcase _

end

/-!
## The run, and the run after a kill

A killed run is not resumed where it has stopped: another run starts from what is on disk. That it
ends in the same directory is shown by saying, of every moment, which iteration of the first run it
can be taken for the beginning of.
-/

/-- At most `N` more iterations lead from the directory to `final`: it is what an iteration starts
from, less some of the nodes that this iteration deletes. -/
def Resumes (plus : Int64 → Int64 → ℤ) (min now : Int64) (N : ℕ) (final disk : Disk) : Prop :=
  ∃ n disk₀ b b', n ≤ N ∧ Prunable disk₀ b ∧ PrunesTo plus min now n disk₀ b final b' ∧
    PartlyDeleted (fenwick.dying b.untrustedBegin.toNat) disk₀ disk ∧
    (nextBreadcrumb plus min now disk₀ b = none → disk = disk₀)

section
variable {plus : Int64 → Int64 → ℤ} {env : Env} {params : RepositoryParams} {now : Int64} {N : ℕ}
  {final : Disk}

/-- The loop ends, and its every step but the inner ones can be followed by another run. -/
theorem wp_pruneRepositoryLoop {n : ℕ} {disk₀ : Disk} {b b' : Breadcrumb}
    (hto : PrunesTo plus (minTimeBetweenSnapshots params) now n disk₀ b final b') (hn : n ≤ N)
    (h : Prunable disk₀ b) {w : World β}
    (hpart : PartlyDeleted (fenwick.dying b.untrustedBegin.toNat) disk₀ w.disk)
    (hdone : nextBreadcrumb plus (minTimeBetweenSnapshots params) now disk₀ b = none →
      w.disk = disk₀) (hb : w.repositoryStructure.breadcrumb = b) (fuel : ℕ) (tr : List Event) :
    (pruneRepositoryLoop plus env params now fuel).wp
      (fun tr w => Boundary tr → Resumes plus (minTimeBetweenSnapshots params) now N final w.disk)
      (fun r _ w => n < fuel → r = .val () ∧ w.disk = final) tr w := by
  induction hto generalizing w fuel tr with
  | done hnext =>
      cases fuel with
      | zero => exact fun hlt => absurd hlt (Nat.not_lt_zero _)
      | succ fuel =>
          refine wp_pruneRepositoryLoop_succ h hpart hb
            (fun ls _ _ _ => ⟨0, _, _, _, hn, h, .done hnext, hpart, hdone⟩) fuel
            (fun _ tr _ => ⟨rfl, hdone hnext⟩) fun b' hb' => ?_
          rw [hnext] at hb'
          cases hb'
  | @step n disk₀ final b b₁ b'' hnext hrest ih =>
      obtain ⟨-, hlt, -⟩ := h.lt_of_next hnext
      have hu : b.untrustedBegin.toNat < 2 ^ 63 := by omega
      -- until the breadcrumb is written, the same iteration can be started again
      have hhere (w' : World β)
          (hpart' : PartlyDeleted (fenwick.dying b.untrustedBegin.toNat) disk₀ w'.disk) :
          Resumes plus (minTimeBetweenSnapshots params) now N final w'.disk :=
        ⟨n + 1, disk₀, b, b'', hn, h, .step hnext hrest, hpart', fun hnone => by
          rw [hnext] at hnone
          cases hnone⟩
      cases fuel with
      | zero => exact fun hlt => absurd hlt (Nat.not_lt_zero _)
      | succ fuel =>
          refine wp_pruneRepositoryLoop_succ h hpart hb (fun ls _ _ _ => hhere w hpart) fuel
            (fun hnone => by rw [hnext] at hnone; cases hnone) ?_
          intro b₁' hb₁ tr
          obtain rfl : b₁ = b₁' := Option.some.inj (hnext.symm.trans hb₁)
          rw [wp_bind]
          refine wp_deleteNodes hu hpart (fun tr' w' hw' hbound => hhere w' (hw' hbound)) ?_
          intro tr'
          simp only [bindPost, wp_bind, wp_writeBreadcrumb]
          -- the directory is now what the next iteration starts from
          have hdisk : (((removeNodes w b.untrustedBegin.prune.nodes).apply
              .truncateBreadcrumb).recordBreadcrumb b₁).disk =
                disk₀.pruned b.untrustedBegin b₁ := hpart.pruned_eq hu b₁
          have hpart₁ : PartlyDeleted (fenwick.dying b₁.untrustedBegin.toNat)
              (disk₀.pruned b.untrustedBegin b₁) (((removeNodes w
                b.untrustedBegin.prune.nodes).apply .truncateBreadcrumb).recordBreadcrumb b₁).disk := by
            rw [hdisk]
            exact .refl _ _
          refine ⟨fun hbound => ?_, fun _ => ?_, ?_⟩
          · exact absurd trivial (hbound .truncateBreadcrumb (by simp))
          · exact ⟨n, _, b₁, b'', by omega, h.step hnext, hrest, hpart₁, fun _ => hdisk⟩
          · refine wp_post (fun r tr w hr hlt => hr (by omega))
              (ih (by omega) (h.step hnext) hpart₁ (fun _ => hdisk) rfl fuel _)

/-- The command, from wherever an earlier run of it was killed. -/
theorem Resumes.command {w : World β}
    (h : Resumes plus (minTimeBetweenSnapshots params) now N final w.disk) (repository : String) :
    (pruneRepositoryCommand repository plus env params now).wp
      (fun tr w => Boundary tr → Resumes plus (minTimeBetweenSnapshots params) now N final w.disk)
      (fun r _ w => N < env.fuel → r = .val () ∧ w.disk = final) [] w := by
  have ⟨n, disk₀, b, b', hn, hprunable, hto, hpart, hdone⟩ := h
  have hargs : ∃ args, w.disk.readInitargs repository = .ok args := by
    rw [hpart.same]
    exact hprunable.initargs repository
  have hread : w.disk.readBreadcrumb = .ok b := by
    rw [hpart.same]
    exact hprunable.read
  rw [pruneRepositoryCommand, wp_bind]
  refine wp_openRepository_readable hargs hread (fun ls w' _ _ hw' _ _ => by rwa [hw']) ?_
  intro ls w' _ _ hw' hb
  rw [← hw'] at hpart
  refine wp_post (fun r tr w hr hlt => hr (by omega))
    (wp_pruneRepositoryLoop hto hn hprunable hpart (fun hnone => hw'.trans (hdone hnone)) hb _ _)

end

/-- The program ends without an exception and leaves the directory `final`. -/
def Leaves (p : Repo β Unit) (w : World β) (final : Disk) : Prop :=
  (p.run w).result = .val () ∧ (stateAfter w (p.run w).steps).disk = final

/-- Pruning a repository in which exactly what is to be kept of the trusted nodes is left ends, and
leaves such a repository: nodes in quarantine are not touched, and no node that is left is changed.
A run that is killed between two deletions, or between a deletion and a write of the breadcrumb, is
completed by running the command again. -/
theorem pruneRepository_keeps_aliveBefore (plus : Int64 → Int64 → ℤ) (params : RepositoryParams)
    (now : Int64) (repository : String) {w : World β} {b : Breadcrumb}
    (hargs : ∀ repository, ∃ args, w.disk.readInitargs repository = .ok args)
    (hread : w.disk.readBreadcrumb = .ok b)
    (hbelow : ∀ k, k < b.untrustedBegin.toNat →
      (k ∈ w.disk.nodes ↔ k ∈ b.untrustedBegin.aliveBefore))
    (hbound : ∀ k ∈ w.disk.nodes, b.untrustedBegin.toNat ≤ k → k < 2 ^ 63 - 1)
    (hids : ∀ node, (w.disk.snapshots node).isSome →
      ∃ encoded, w.disk.readId node = .ok (some encoded)) :
    ∃ fuel final b', final.readBreadcrumb = .ok b' ∧
      (∀ k, k < b'.untrustedBegin.toNat → (k ∈ final.nodes ↔ k ∈ b'.untrustedBegin.aliveBefore)) ∧
      (∀ node, b'.untrustedBegin.toNat ≤ node.toNat →
        final.snapshots node = w.disk.snapshots node) ∧
      (∀ node dir, final.snapshots node = some dir → w.disk.snapshots node = some dir) ∧
      (∀ env, fuel ≤ env.fuel →
        Leaves (pruneRepositoryCommand repository plus env params now) w final) ∧
      ∀ (a : Attempt Event (World β) Exn Unit) (env : Env), SameDisk w a.start →
        a.program = pruneRepositoryCommand repository plus env params now → Boundary a.labels →
        ∀ w', SameDisk a.state w' → ∀ env', fuel ≤ env'.fuel →
          Leaves (pruneRepositoryCommand repository plus env' params now) w' final := by
  have hprunable : Prunable w.disk b := ⟨hargs, hread, hbelow, hbound, hids⟩
  obtain ⟨n, final, b', hto⟩ :=
    hprunable.prunesTo
  obtain ⟨hfinal, -, hquarantine, hleft⟩ := hto.keeps hprunable
  have hstart : Resumes plus (minTimeBetweenSnapshots params) now n final w.disk :=
    ⟨n, w.disk, b, b', le_rfl, hprunable, hto, .refl _ _, fun _ => rfl⟩
  have hleaves {w' : World β} (env : Env)
      (h : Resumes plus (minTimeBetweenSnapshots params) now n final w'.disk)
      (hfuel : n + 1 ≤ env.fuel) :
      Leaves (pruneRepositoryCommand repository plus env params now) w' final :=
    wp_run (h.command repository) hfuel
  refine ⟨n + 1, final, b', hfinal.read, hfinal.below, hquarantine, hleft,
    fun env hfuel => hleaves env hstart hfuel, ?_⟩
  intro a env hsame hprogram hboundary w' hw' env' hfuel
  rw [← show a.start.disk = w.disk from hsame] at hstart
  have hkilled := a.invariant (hprogram ▸ hstart.command repository) fun _ => hstart
  exact hleaves env' (by rw [hw']; exact hkilled hboundary) hfuel

/-- A mirror that has received the nodes 0 and 1 and never been pruned. -/
def sampleMirror : World Unit :=
  { sampleWorld with
    disk := { sampleWorld.disk with
      snapshots := fun node =>
        if node.toNat < 2 then some ⟨some (Encoded.plain node).serialise, some []⟩
        else none } }

/-- A mirror that has received the nodes 0 to 4 and never been pruned. -/
def sampleUnpruned : World Unit :=
  { sampleWorld with
    disk := { sampleWorld.disk with
      snapshots := fun node =>
        if node.toNat < 5 then some ⟨some (Encoded.plain node).serialise, some []⟩
        else none } }

theorem lt_of_sampleUnpruned {node : Node} (h : (sampleUnpruned.disk.snapshots node).isSome) :
    node.toNat < 5 := by
  by_contra hnot
  rw [sampleUnpruned] at h
  simp only [if_neg hnot] at h
  cases h

theorem prunable_sampleUnpruned : Prunable sampleUnpruned.disk .initial where
  initargs := fresh_sampleWorld.tracked.numbered.initargs
  read := rfl
  below k hk := absurd hk (Nat.not_lt_zero k)
  bound := by
    rintro _ ⟨node, rfl, hs⟩ -
    exact (lt_of_sampleUnpruned hs).trans (by decide)
  ids node hs := by
    refine ⟨.plain node, Disk.readId_of_serialise ?_ rfl⟩
    rw [Disk.idFile, sampleUnpruned]
    simp only [if_pos (lt_of_sampleUnpruned hs)]
    rfl

/-- All nodes come to be trusted. -/
theorem prunesTo_sampleUnpruned : ∃ final, PrunesTo Trust.exactPlus
    (minTimeBetweenSnapshots ⟨false, 0⟩) 5 5 sampleUnpruned.disk .initial final ⟨⟨5⟩, 5⟩ := by
  refine ⟨_, .step (?_ : _ = some ⟨⟨1⟩, 5⟩) <| .step (?_ : _ = some ⟨⟨2⟩, 5⟩) <|
    .step (?_ : _ = some ⟨⟨3⟩, 5⟩) <| .step (?_ : _ = some ⟨⟨4⟩, 5⟩) <|
    .step (?_ : _ = some ⟨⟨5⟩, 5⟩) <| .done ?_⟩
  all_goals decide +kernel

theorem mem_aliveBefore_five {k : ℕ} : k ∈ (⟨5⟩ : Node).aliveBefore ↔ k ∈ [0, 2, 3, 4] := by
  have hnodes : (⟨4⟩ : Node).aliveAfter.nodes = [4, 3, 2, 0] := by decide
  rw [Node.aliveBefore, if_neg (by decide)]
  change (∃ x ∈ (⟨4⟩ : Node).aliveAfter.nodes, x.toNat = k) ↔ _
  rw [hnodes]
  simp only [List.mem_cons, List.not_mem_nil, or_false, exists_eq_or_imp, exists_eq_left]
  change 4 = k ∨ 3 = k ∨ 2 = k ∨ 0 = k ↔ _
  omega

/-- Node 1 is deleted, also if the command is killed in between and run again. -/
theorem pruneRepository_keeps_aliveBefore_mirror :
    let prune (env : Env) : Repo Unit Unit :=
      pruneRepositoryCommand "repository" Trust.exactPlus env ⟨false, 0⟩ 5
    ∃ fuel final, (∀ k, k ∈ final.nodes ↔ k ∈ [0, 2, 3, 4]) ∧
      (∀ env, fuel ≤ env.fuel → Leaves (prune env) sampleUnpruned final) ∧
      ∀ (a : Attempt Event (World Unit) Exn Unit) (env : Env), SameDisk sampleUnpruned a.start →
        a.program = prune env → Boundary a.labels → ∀ env', fuel ≤ env'.fuel →
          Leaves (prune env') a.state final := by
  intro prune
  obtain ⟨fuel, final, b', hread, hbelow, -, hleft, hleaves, hkilled⟩ :=
    pruneRepository_keeps_aliveBefore Trust.exactPlus ⟨false, 0⟩ 5 "repository"
      (w := sampleUnpruned) prunable_sampleUnpruned.initargs prunable_sampleUnpruned.read
      prunable_sampleUnpruned.below prunable_sampleUnpruned.bound prunable_sampleUnpruned.ids
  refine ⟨fuel, final, fun k => ?_, hleaves, fun a env hstart hprogram hboundary =>
    hkilled a env hstart hprogram hboundary _ (SameDisk.refl _)⟩
  -- the run goes as far as node 4
  have hb' : b' = ⟨⟨5⟩, 5⟩ := by
    obtain ⟨final', hto⟩ := prunesTo_sampleUnpruned
    let env : Env := { sampleEnv with fuel := fuel + 6 }
    have hresumes : Resumes Trust.exactPlus (minTimeBetweenSnapshots ⟨false, 0⟩) 5 5 final'
        sampleUnpruned.disk :=
      ⟨5, _, _, _, le_rfl, prunable_sampleUnpruned, hto, .refl _ _, fun _ => rfl⟩
    have henough : 5 < env.fuel := by
      change 5 < fuel + 6
      omega
    have hcommand : Leaves (prune env) sampleUnpruned final' :=
      wp_run (hresumes.command "repository") henough
    have hsame : final = final' := (hleaves env (Nat.le_add_right fuel 6)).2.symm.trans hcommand.2
    rw [hsame, (hto.keeps prunable_sampleUnpruned).1.read] at hread
    exact (Except.ok.inj hread).symm
  subst hb'
  by_cases hk : k < 5
  · exact (hbelow k hk).trans mem_aliveBefore_five
  · refine iff_of_false ?_ fun h => ?_
    · rintro ⟨node, rfl, hs⟩
      obtain ⟨dir, hdir⟩ := Option.isSome_iff_exists.mp hs
      exact hk (lt_of_sampleUnpruned (hleft node dir hdir ▸ rfl))
    · have hlt : ∀ k ∈ [0, 2, 3, 4], k < 5 := by decide
      exact hk (hlt k h)

end Controller

end Diffmonger
