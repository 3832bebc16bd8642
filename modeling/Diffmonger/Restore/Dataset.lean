import Diffmonger.Restore.Adopting

/-!
# Where a restored dataset ends

`restore` skips the nodes whose snapshots are in the dataset already. The first node of the path
that is missing rolls the dataset back to its parent, and from then on every node is missing; but if
no node is missing, nothing is rolled back, and the dataset stays where it is.

Main result: `restore_ends_at_iff`. `FromRepository` says what can have happened to a dataset; all
that is used of it is that the snapshots of nodes are in the order of the nodes (`InOrder`). On such
a list, restoring is a fold over the path (`wp_restore_onVal`), and where that ends is a fact about
trees and lists (`fenwick.putMissing`).
-/

namespace Diffmonger

open Prog RepositoryStructure

variable {β S σ : Type}

/-! ## The datasets of a repository -/

section
variable [DecidableEq S]

/-- A dataset whose snapshots of nodes have been taken for a repository or restored from it:
`ids node` is the snapshot that the repository stores for the node, and `next` is the number of the
node that it stores next. -/
inductive FromRepository (ids : Node → S) : (next : ℕ) → (history : List S) → Prop
  | empty : FromRepository ids 0 []
  /-- The snapshot of the next node is taken. -/
  | taken {history : List S} (node : Node) (h : FromRepository ids node.toNat history) :
      FromRepository ids (node.toNat + 1) (history ++ [ids node])
  /-- The next node is stored, but its snapshot belongs to another dataset. -/
  | stored {next : ℕ} {history : List S} (h : FromRepository ids next history) :
      FromRepository ids (next + 1) history
  | restoredInitial {next : ℕ} {history : List S} (h : FromRepository ids next history)
      (hnext : 0 < next) : FromRepository ids next [ids Node.initialValue]
  | restoredDiff {next : ℕ} {history : List S} (node : Node) (h : FromRepository ids next history)
      (hroot : node ≠ Node.initialValue) (hnext : node.toNat < next)
      (hparent : ids node.fenwickParent ∈ history) :
      FromRepository ids next (rollBack (ids node.fenwickParent) history ++ [ids node])
  /-- Snapshots are destroyed. -/
  | destroyed {next : ℕ} {history left : List S} (h : FromRepository ids next history)
      (hleft : left.Sublist history) : FromRepository ids next left
  /-- A snapshot that is not one of the repository's is taken. -/
  | other {next : ℕ} {history : List S} (h : FromRepository ids next history) (id : S)
      (hid : ∀ node, id ≠ ids node) : FromRepository ids next (history ++ [id])

/-- The snapshots of the nodes are in the order of the nodes. -/
def InOrder (ids : Node → S) (a b : S) : Prop :=
  ∀ m n, a = ids m → b = ids n → m.toNat < n.toNat

omit [DecidableEq S] in
theorem pairwise_concat {ids : Node → S} {history : List S} (h : history.Pairwise (InOrder ids))
    {id : S} (hid : ∀ n, id = ids n → ∀ m, ids m ∈ history → m.toNat < n.toNat) :
    (history ++ [id]).Pairwise (InOrder ids) := by
  refine List.pairwise_append.mpr ⟨h, List.pairwise_singleton _ _, fun a ha b hb m n hm hn => ?_⟩
  rw [List.mem_singleton.mp hb] at hn
  exact hid n hn m (hm ▸ ha)

/-- Whatever happens to the dataset, the snapshots of nodes stay in the order of the nodes. -/
theorem FromRepository.inOrder {ids : Node → S} (hids : Function.Injective ids) {next : ℕ}
    {history : List S} (h : FromRepository ids next history) :
    history.Pairwise (InOrder ids) ∧ ∀ node, ids node ∈ history → node.toNat < next := by
  induction h with
  | empty => exact ⟨List.Pairwise.nil, fun _ h => by cases h⟩
  | taken node h ih =>
      -- the node is the next one, and comes after all that have been stored
      refine ⟨pairwise_concat ih.1 fun n hn m hm => hids hn ▸ ih.2 m hm, fun m hm => ?_⟩
      rcases List.mem_append.mp hm with hm | hm
      · exact (ih.2 m hm).trans (Nat.lt_succ_self _)
      · rw [hids (List.mem_singleton.mp hm)]
        exact Nat.lt_succ_self _
  | stored h ih => exact ⟨ih.1, fun node hnode => (ih.2 node hnode).trans (Nat.lt_succ_self _)⟩
  | restoredInitial h hnext ih =>
      refine ⟨List.pairwise_singleton _ _, fun node hnode => ?_⟩
      rw [hids (List.mem_singleton.mp hnode)]
      exact hnext
  | @restoredDiff next history node h hroot hnext hparent ih =>
      have hlt : node.fenwickParent.toNat < node.toNat := by
        rw [Node.toNat_fenwickParent]
        exact fenwick.parent_lt _ fun h0 => hroot (Node.toNat_inj.mp h0)
      -- what is not discarded comes before the parent
      have hbefore (m : Node) (hm : ids m ∈ rollBack (ids node.fenwickParent) history) :
          m.toNat < node.toNat := by
        rcases rel_of_mem_rollBack ih.1 hparent hm with heq | hrel
        · rwa [hids heq]
        · exact (hrel m _ rfl rfl).trans hlt
      refine ⟨pairwise_concat (ih.1.sublist (prefix_of_rollBack hparent).sublist)
        fun n hn m hm => hids hn ▸ hbefore m hm, fun m hm => ?_⟩
      rcases List.mem_append.mp hm with hm | hm
      · exact (hbefore m hm).trans hnext
      · rwa [hids (List.mem_singleton.mp hm)]
  | destroyed h hleft ih =>
      exact ⟨ih.1.sublist hleft, fun node hnode => ih.2 node (hleft.subset hnode)⟩
  | other h id hid ih =>
      -- the snapshot is not that of a node, and its place is of no importance
      refine ⟨pairwise_concat ih.1 fun n hn => absurd hn (hid n), fun node hnode => ih.2 node ?_⟩
      exact (List.mem_append.mp hnode).resolve_right fun heq =>
        hid node (List.mem_singleton.mp heq).symm

end

namespace Controller

section
variable [DecidableEq S] {driver : BackendDriver β S} {snapshots : β → List S} {sodium : Sodium σ}
  {ids : Node → S} {k node : Node} {tr : List Event} {w : World β}

/-!
## One node

If the call of the backend returns, the snapshot has been put on top of its parent's; a node that is
skipped leaves the dataset as it is.
-/

/-- Passing a payload on. -/
theorem wp_decrypted_onVal {key : Option DecryptedKeyPair} {f : Bytes → Repo β Unit}
    {P : World β → Prop}
    (hf : ∀ input tr, (f input).wp (fun _ _ => True) (onVal fun _ _ w' => P w') tr w) :
    (decrypted sodium key node f).wp (fun _ _ => True) (onVal fun _ _ w' => P w') tr w := by
  rw [decrypted, wp_bind_onVal, createPayloadFdForReading, wp_bind, wp_look]
  refine ⟨trivial, ?_⟩
  rw [id, bindPost]
  cases w.disk.blobFile node with
  | none => trivial
  | some blob =>
      cases key with
      | none => exact hf blob _
      | some key =>
          show (withDecryptedInput sodium blob key f).wp _ _ _ _
          rw [withDecryptedInput]
          refine wp_bind_of_onVal (hf _ _) fun _ _ w' hw' => ?_
          split
          · exact hw'
          · trivial

/-- The repository holds the path of `k`. -/
def HoldsPath (driver : BackendDriver β S) (ids : Node → S) (k : Node) (disk : Disk) : Prop :=
  ∀ node : Node, node.toNat ∈ k.fenwickPathIncRoot.numbers →
    disk.readId node = .ok (some (driver.encoded (ids node)))

variable (h : Receives driver snapshots)
include h

theorem wp_nodeToSnapshotId_onVal (hheld : HoldsPath driver ids k w.disk)
    (hnode : node.toNat ∈ k.fenwickPathIncRoot.numbers) :
    (nodeToSnapshotId driver node).wp (fun _ _ => True)
      (onVal fun id _ w' => id = ids node ∧ w' = w) tr w := by
  refine wp_post ?_ (nodeToSnapshotId_ends driver node w tr)
  rintro r tr' w' ⟨rfl, hr⟩
  refine onVal_iff.mpr fun id hid => ⟨?_, rfl⟩
  obtain ⟨encoded, hread, hdecode⟩ := (hr id).mp hid
  obtain rfl : encoded = driver.encoded (ids node) := by
    have heq := hread.symm.trans (hheld node hnode)
    exact Option.some.inj (Except.ok.inj heq)
  exact Except.ok.inj (hdecode.symm.trans (h.snapshotId_encoded _))

/-- The snapshot of the node of a number. -/
def numbered (ids : Node → S) (number : ℕ) : S := ids (.ofNat number)

omit [DecidableEq S] h in
theorem numbered_toNat (ids : Node → S) (node : Node) : numbered ids node.toNat = ids node :=
  congrArg ids (Node.ofNat_toNat node)

/-- Handing a payload over puts the snapshot on top of its parent. -/
theorem wp_restorePayload_onVal (hheld : HoldsPath driver ids k w.disk)
    (hnode : node.toNat ∈ k.fenwickPathIncRoot.numbers) (input : Bytes) :
    (restorePayload driver (ids node) node input).wp (fun _ _ => True)
      (onVal fun _ _ w' => w'.disk = w.disk ∧
        snapshots w'.backend = fenwick.put (numbered ids) (snapshots w.backend) node.toNat) tr w := by
  unfold restorePayload
  split
  · next hroot =>
      simp only [callBackend, wp_bind, wp_readModify, bindPost, wp_ofExcept, true_and]
      cases hr : (driver.restoreInitial (ids node) input w.backend).1 with
      | error e => trivial
      | ok _ =>
          have hzero : node.toNat = 0 := by rw [hroot]; rfl
          refine ⟨rfl, ?_⟩
          rw [Retention.put, if_pos hzero, ← hzero, numbered_toNat]
          exact h.restoreInitial (ids node) input w.backend hr
  · next hroot =>
      have hne : node.toNat ≠ 0 := fun h0 => hroot (Node.toNat_inj.mp h0)
      have hparent : node.fenwickParent.toNat ∈ k.fenwickPathIncRoot.numbers := by
        have hpath : k.fenwickPathIncRoot.numbers = fenwick.path k.toNat :=
          Tree.fenwickPathIncRoot_numbers k.value
        rw [hpath] at hnode ⊢
        exact fenwick.path_trans ⟨1, (Node.toNat_fenwickParent node).symm⟩ hnode
      refine wp_bind_of_onVal (wp_nodeToSnapshotId_onVal h hheld hparent) ?_
      rintro _ tr' w ⟨rfl, rfl⟩
      simp only [callBackend, wp_bind, wp_readModify, bindPost, wp_ofExcept, true_and]
      cases hr : (driver.restoreDiff (ids node.fenwickParent) (ids node) input w.backend).1 with
      | error e => trivial
      | ok _ =>
          refine ⟨rfl, ?_⟩
          rw [Retention.put, if_neg hne, ← Node.toNat_fenwickParent, numbered_toNat, numbered_toNat]
          exact (h.restoreDiff _ _ input w.backend hr).2

theorem wp_existsSnapshot_onVal (id : S) :
    (existsSnapshot driver id).wp (fun _ _ => True)
      (onVal fun found _ w' => found = decide (id ∈ snapshots w.backend) ∧ w'.disk = w.disk ∧
        snapshots w'.backend = snapshots w.backend) tr w := by
  simp only [existsSnapshot, callBackend, wp_bind, wp_readModify, bindPost, wp_ofExcept, true_and]
  cases hr : (driver.existsSnapshot id w.backend).1 with
  | error e => trivial
  | ok found =>
      obtain ⟨hfound, hkeeps⟩ := h.existsSnapshot id w.backend found hr
      exact ⟨hfound, rfl, hkeeps⟩

/-- A node is put on top of its parent, unless it is in the dataset. -/
theorem wp_restoreNode_onVal (hheld : HoldsPath driver ids k w.disk)
    (hnode : node.toNat ∈ k.fenwickPathIncRoot.numbers) (key : Option DecryptedKeyPair) :
    (restoreNode driver sodium key true (fun _ => pure ()) node).wp (fun _ _ => True)
      (onVal fun _ _ w' => w'.disk = w.disk ∧ snapshots w'.backend =
        fenwick.putMissing (numbered ids) (snapshots w.backend) node.toNat) tr w := by
  rw [restoreNode]
  refine wp_bind_of_onVal (wp_nodeToSnapshotId_onVal h hheld hnode) ?_
  rintro _ tr₁ w ⟨rfl, rfl⟩
  rw [Retention.putMissing, numbered_toNat]
  refine wp_bind_of_onVal (wp_existsSnapshot_onVal h (ids node)) ?_
  rintro _ tr₂ w₂ ⟨rfl, hdisk, hkeeps⟩
  by_cases hthere : ids node ∈ snapshots w.backend
  · rw [decide_eq_true hthere, if_pos hthere]
    exact ⟨hdisk, hkeeps⟩
  · rw [decide_eq_false hthere, if_neg hthere]
    show (decrypted sodium key node _ >>= fun _ => pure ()).wp _ _ _ _
    rw [← hkeeps, ← hdisk]
    exact wp_bind_of_onVal (wp_decrypted_onVal fun input tr =>
      wp_restorePayload_onVal h (hdisk ▸ hheld) hnode input) fun _ _ _ hr => hr

/-!
## All nodes of the path

Restoring the path is a fold over it, in which the nodes that the dataset has are skipped. What this
leaves is a matter of lists (`Lib/Rollback.lean`).
-/

/-- Node after node, the ones that are missing are put into the dataset. -/
theorem wp_forM_restoreNode (hheld : HoldsPath driver ids k w.disk) {nodes : List Node}
    (hnodes : PathNodes k nodes) (key : Option DecryptedKeyPair) :
    (forM nodes (restoreNode driver sodium key true fun _ => pure ())).wp (fun _ _ => True)
      (onVal fun _ _ w' => snapshots w'.backend =
        (nodes.map Node.toNat).foldl (fenwick.putMissing (numbered ids)) (snapshots w.backend)) tr
      w := by
  have hpath : k.fenwickPathIncRoot.numbers = fenwick.path k.toNat :=
    Tree.fenwickPathIncRoot_numbers k.value
  refine wp_forM (fun treated _ w' => w'.disk = w.disk ∧ snapshots w'.backend =
    (treated.map Node.toNat).foldl (fenwick.putMissing (numbered ids)) (snapshots w.backend))
    nodes ?_ (fun _ _ hw => by exact hw.2) ⟨rfl, rfl⟩
  rintro treated node rest heq tr w' ⟨hdisk, hsnapshots⟩
  have hnode : node.toNat ∈ k.fenwickPathIncRoot.numbers := by
    rw [hpath, ← hnodes.mem_iff, heq]
    simp
  refine wp_onVal_mono (fun _ tr w'' hw'' => ?_)
    (wp_restoreNode_onVal h (w := w') (by rw [hdisk]; exact hheld) hnode key)
  refine ⟨hw''.1.trans hdisk, ?_⟩
  rw [hw''.2, hsnapshots, List.map_append, List.foldl_append]
  rfl

/-- Restoring with `skip_existing` puts the nodes of the path that are missing into the dataset. -/
theorem wp_restore_onVal (hheld : HoldsPath driver ids k w.disk) (env : Env)
    (repositoryParams : RepositoryParams) (password : Option Bytes) :
    (restore driver sodium env repositoryParams ⟨password, k, true⟩).wp (fun _ _ => True)
      (onVal fun _ _ w' => ∃ nodes, PathNodes k nodes ∧ snapshots w'.backend =
        (nodes.map Node.toNat).foldl (fenwick.putMissing (numbered ids)) (snapshots w.backend)) tr
      w := by
  have hloop (key : Option DecryptedKeyPair) (tr : List Event) :
      (nodesToRestore env k false >>= fun nodes =>
        forM nodes (restoreNode driver sodium key true fun _ => pure ())).wp (fun _ _ => True)
        (onVal fun _ _ w' => ∃ nodes, PathNodes k nodes ∧ snapshots w'.backend =
          (nodes.map Node.toNat).foldl (fenwick.putMissing (numbered ids)) (snapshots w.backend))
        tr w := by
    rw [wp_bind_onVal]
    refine wp_post ?_ (nodesToRestore_path k w tr)
    rintro r tr' w ⟨rfl, nodes, rfl, hnodes⟩
    exact wp_onVal_mono (fun _ _ _ hw' => ⟨nodes, hnodes, hw'⟩)
      (wp_forM_restoreNode h hheld hnodes key)
  rw [restore, restoreNodes]
  split
  · cases password with
    | none => trivial
    | some password =>
        refine wp_bind_of_onVal (P := fun _ _ w' => w' = w) ?_ ?_
        · refine wp_post (fun r _ w' hr => onVal_iff.mpr fun _ _ => ?_) (decryptKeyPair_ends w tr)
          exact hr.2
        · rintro key tr' w' rfl
          exact hloop key tr'
  · exact hloop none tr

omit [DecidableEq S] h in
/-- The numbers on a path are those of nodes. -/
theorem exists_node_of_path {a : ℕ} (ha : a ∈ fenwick.path k.toNat) : ∃ node : Node, node.toNat = a :=
  ⟨.ofNat a, Node.toNat_ofNat ((fenwick.path_le ha).trans_lt k.toNat_lt)⟩

omit [DecidableEq S] h in
theorem PathNodes.mem_map_toNat {nodes : List Node} (hnodes : PathNodes k nodes) (a : ℕ) :
    a ∈ nodes.map Node.toNat ↔ a ∈ fenwick.path k.toNat := by
  rw [List.mem_map]
  constructor
  · rintro ⟨node, hnode, rfl⟩
    exact (hnodes.mem_iff node).mp hnode
  · intro ha
    obtain ⟨node, rfl⟩ := exists_node_of_path ha
    exact ⟨node, (hnodes.mem_iff node).mpr ha, rfl⟩

omit [DecidableEq S] h in
/-- On a path, the order of the snapshots is that of the numbers. -/
theorem le_of_numbered_inOrder (hinjective : Function.Injective ids) {a b : ℕ}
    (ha : a ∈ fenwick.path k.toNat) (hb : b ∈ fenwick.path k.toNat)
    (hrel : numbered ids a = numbered ids b ∨ InOrder ids (numbered ids a) (numbered ids b)) :
    a ≤ b := by
  obtain ⟨m, rfl⟩ := exists_node_of_path ha
  obtain ⟨n, rfl⟩ := exists_node_of_path hb
  rw [numbered_toNat, numbered_toNat] at hrel
  rcases hrel with heq | hlt
  · rw [hinjective heq]
  · exact (hlt m n rfl rfl).le

/-! ## The restored dataset -/

/-- Restoring the node `k` with `skip_existing`, to a dataset whose snapshots of nodes have been
taken for the repository or restored from it: if it succeeds, then the most recent snapshot is that
of `k` exactly if the snapshot of a node on the path of `k` was not there before, or that of `k` was
the most recent one already. -/
theorem restore_ends_at_iff (hids : ∀ node, driver.getNode (ids node) = node)
    (hheld : HoldsPath driver ids k w.disk) {next : ℕ}
    (hdataset : FromRepository ids next (snapshots w.backend)) (env : Env)
    (repositoryParams : RepositoryParams) (password : Option Bytes)
    (hsucceeds : ((restore driver sodium env repositoryParams ⟨password, k, true⟩).run w).result =
      .val ()) :
    (snapshots (stateAfter w ((restore driver sodium env repositoryParams
        ⟨password, k, true⟩).run w).steps).backend).getLast? = some (ids k) ↔
      (∃ node : Node, node.toNat ∈ k.fenwickPathIncRoot.numbers ∧
        ids node ∉ snapshots w.backend) ∨
      (snapshots w.backend).getLast? = some (ids k) := by
  have hpath : k.fenwickPathIncRoot.numbers = fenwick.path k.toNat :=
    Tree.fenwickPathIncRoot_numbers k.value
  have hinjective : Function.Injective ids := fun m n heq => by rw [← hids m, heq, hids]
  have hwp : (restore driver sodium env repositoryParams ⟨password, k, true⟩).wp (fun _ _ => True) _ []
      w := wp_restore_onVal h hheld env repositoryParams password
  have hrun := wp_run hwp
  rw [hsucceeds] at hrun
  obtain ⟨nodes, hnodes, hsnapshots⟩ := hrun
  have hitems : (nodes.map Node.toNat).Pairwise (· < ·) := List.pairwise_map.mpr hnodes.ascending
  have hfold := Retention.getLast?_foldl_putMissing hitems hnodes.mem_map_toNat
    (hdataset.inOrder hinjective).1 fun a ha b hb => le_of_numbered_inOrder hinjective ha hb
  rw [numbered_toNat] at hfold
  rw [hsnapshots, hfold, hpath]
  -- a missing number is that of a missing node
  refine or_congr_left ⟨?_, ?_⟩
  · rintro ⟨a, ha, hmissing⟩
    obtain ⟨node, rfl⟩ := exists_node_of_path ha
    rw [numbered_toNat] at hmissing
    exact ⟨node, ha, hmissing⟩
  · rintro ⟨node, hnode, hmissing⟩
    refine ⟨node.toNat, hnode, ?_⟩
    rwa [numbered_toNat]

end

/-! ## Runs on fixed inputs -/

/-- After three commands. -/
def sampleStored : World (List Encoded) := (Attempt.repeated sampleSourceCommand sampleSource 3).2

def sampleRestoreOne : Repo (List Encoded) Unit :=
  restore .linear .transparent sampleEnv ⟨false, 0⟩ ⟨none, ⟨1⟩, true⟩

theorem holdsPath_sampleStored : HoldsPath .linear Encoded.plain ⟨1⟩ sampleStored.disk := by
  intro node hnode
  obtain ⟨x, hx, heq⟩ := hnode
  obtain rfl : node = ⟨x⟩ := Node.toNat_inj.mp heq.symm
  have hnodes : (Node.fenwickPathIncRoot ⟨1⟩).nodes = [1, 0] := by decide +kernel
  rw [hnodes] at hx
  simp only [List.mem_cons, List.not_mem_nil, or_false] at hx
  rcases hx with rfl | rfl
  · decide +kernel
  · decide +kernel

/-- The snapshot of the node 1 has been destroyed. -/
def samplePart : World (List Encoded) := { sampleStored with backend := [.plain ⟨0⟩, .plain ⟨2⟩] }

/-- Restoring the node 1 to what is left: that of the initial node is skipped, and that of the node
2 has to go. -/
theorem restore_ends_at_iff_part :
    (stateAfter samplePart (sampleRestoreOne.run samplePart).steps).backend =
        [.plain ⟨0⟩, .plain ⟨1⟩] ∧
      (stateAfter samplePart (sampleRestoreOne.run samplePart).steps).backend.getLast? =
        some (.plain ⟨1⟩) := by
  refine ⟨by decide +kernel, ?_⟩
  have hdataset : FromRepository Encoded.plain 3 samplePart.backend :=
    .destroyed (.taken ⟨2⟩ (.taken ⟨1⟩ (.taken ⟨0⟩ .empty))) (by decide)
  have h := @restore_ends_at_iff _ _ _ _ _ _ Sodium.transparent _ ⟨1⟩ samplePart receives_linear
    (fun _ => rfl) holdsPath_sampleStored 3 hdataset sampleEnv ⟨false, 0⟩ none (by decide +kernel)
  refine h.mpr (.inl ⟨⟨1⟩, ⟨1, by decide +kernel, rfl⟩, ?_⟩)
  change Encoded.plain ⟨1⟩ ∉ [.plain ⟨0⟩, .plain ⟨2⟩]
  decide

/-- Restoring the node 1 to the dataset that the three snapshots have been taken from: it succeeds,
but the most recent snapshot remains that of the node 2. -/
theorem restore_skips_all :
    FromRepository Encoded.plain 3 sampleStored.backend ∧
      HoldsPath .linear Encoded.plain ⟨1⟩ sampleStored.disk ∧
      (sampleRestoreOne.run sampleStored).result = .val () ∧
      (stateAfter sampleStored (sampleRestoreOne.run sampleStored).steps).backend.getLast? ≠
        some (.plain ⟨1⟩) := by
  refine ⟨?_, holdsPath_sampleStored, by decide +kernel, by decide +kernel⟩
  have hthree : sampleStored.backend = [.plain ⟨0⟩, .plain ⟨1⟩, .plain ⟨2⟩] := by decide +kernel
  rw [hthree]
  exact .taken ⟨2⟩ (.taken ⟨1⟩ (.taken ⟨0⟩ .empty))

end Controller

end Diffmonger
