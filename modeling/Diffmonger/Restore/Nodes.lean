import Diffmonger.Restore
import Diffmonger.RepositoryStructure.Listing

/-!
# The nodes that are exported

If the breadcrumb names the node after `n`, and the repository holds what is alive after `n`, then
all of it is exported, in ascending order (`UpTo.nodesToRestore_ends`): the parent of a node that is
alive is alive, so that `restorableNodes` drops nothing. What is restored otherwise is the path of
one node, in ascending order too (`nodesToRestore_path`). Both are described by an order and a
membership condition, which determine the list.
-/

namespace Diffmonger

open Prog RepositoryStructure

variable {β : Type}

/-- The nodes that are alive after `n`, in ascending order. -/
structure AliveNodes (n : ℕ) (nodes : List Node) : Prop where
  ascending : nodes.Pairwise fun a b => a.toNat < b.toNat
  mem_iff : ∀ node, node ∈ nodes ↔ node.toNat ∈ fenwick.alive n

/-- The parent of a node that is alive comes before it. -/
theorem AliveNodes.parent_mem {n : ℕ} {before rest : List Node} {node : Node}
    (h : AliveNodes n (before ++ node :: rest)) (hroot : node ≠ Node.initialValue) :
    node.fenwickParent ∈ before := by
  have hne : node.toNat ≠ 0 := fun h0 => hroot (Node.toNat_inj.mp h0)
  have halive : node.toNat ∈ fenwick.alive n := (h.mem_iff node).mp (by simp)
  have hparent : node.fenwickParent ∈ before ++ node :: rest := by
    rw [h.mem_iff, Node.toNat_fenwickParent]
    exact fenwick.path_subset_alive_of_mem halive ⟨1, rfl⟩
  have hlt : node.fenwickParent.toNat < node.toNat := by
    rw [Node.toNat_fenwickParent]
    exact fenwick.parent_lt _ hne
  refine (List.mem_append.mp hparent).resolve_right fun hmem => ?_
  have hge : node.toNat ≤ node.fenwickParent.toNat := by
    rcases List.mem_cons.mp hmem with heq | hmem
    · rw [heq]
    · have hsorted := (List.pairwise_append.mp h.ascending).2.1
      exact (List.rel_of_pairwise_cons hsorted hmem).le
  omega

/-- The node before one that has a parent: the parent, or one that comes after it. -/
theorem AliveNodes.exists_last {n : ℕ} {before rest : List Node} {node : Node}
    (h : AliveNodes n (before ++ node :: rest)) (hroot : node ≠ Node.initialValue) :
    ∃ last, before.getLast? = some last ∧ node.fenwickParent.toNat ≤ last.toNat ∧
      last.toNat < node.toNat := by
  have hparent := h.parent_mem hroot
  obtain ⟨last, hlast⟩ := Option.ne_none_iff_exists'.mp
    (mt List.getLast?_eq_none_iff.mp (List.ne_nil_of_mem hparent))
  obtain ⟨earlier, rfl⟩ := List.getLast?_eq_some_iff.mp hlast
  obtain ⟨hascending, -, hbefore⟩ := List.pairwise_append.mp h.ascending
  refine ⟨last, hlast, ?_, hbefore last (by simp) node (by simp)⟩
  rcases List.mem_append.mp hparent with hmem | hmem
  · exact ((List.pairwise_append.mp hascending).2.2 _ hmem last (by simp)).le
  · rw [List.mem_singleton.mp hmem]

/-- The last node is `n`. -/
theorem AliveNodes.getLast {n : Node} {nodes : List Node} (h : AliveNodes n.toNat nodes) :
    nodes.getLast? = some n := by
  have hmem : n ∈ nodes := (h.mem_iff n).mpr (fenwick.self_mem_alive _)
  obtain ⟨last, hlast⟩ := Option.ne_none_iff_exists'.mp
    (mt List.getLast?_eq_none_iff.mp (List.ne_nil_of_mem hmem))
  obtain ⟨earlier, rfl⟩ := List.getLast?_eq_some_iff.mp hlast
  rcases List.mem_append.mp hmem with hbefore | hself
  · have hlt := (List.pairwise_append.mp h.ascending).2.2 n hbefore last (by simp)
    have hle := ((h.mem_iff last).mp (by simp)).1
    omega
  · rw [hlast, List.mem_singleton.mp hself]

/-- The first node is the initial one. -/
theorem AliveNodes.exists_cons {n : ℕ} {nodes : List Node} (h : AliveNodes n nodes) :
    ∃ rest, nodes = Node.initialValue :: rest := by
  have hmem : Node.initialValue ∈ nodes := (h.mem_iff _).mpr (Fenwick.zero_mem_alive n)
  cases nodes with
  | nil => cases hmem
  | cons node rest =>
      rcases List.mem_cons.mp hmem with rfl | hrest
      · exact ⟨rest, rfl⟩
      · exact absurd (List.rel_of_pairwise_cons h.ascending hrest) (Nat.not_lt_zero _)

/-- A node does not come twice. -/
theorem AliveNodes.notMem_before {n : ℕ} {before rest : List Node} {node : Node}
    (h : AliveNodes n (before ++ node :: rest)) : node ∉ before := fun hmem =>
  lt_irrefl _ ((List.pairwise_append.mp h.ascending).2.2 node hmem node List.mem_cons_self)

namespace Controller

/-!
## `restorableNodes`

A node is dropped if its parent is not among the nodes that have been found restorable. The nodes
come in ascending order, so that a parent has been looked at before.
-/

theorem emplace_of_lt {node : Node} {nodes : List Node}
    (h : ∀ m ∈ nodes, m.toNat < node.toNat) : emplace node nodes = nodes ++ [node] := by
  induction nodes with
  | nil => rfl
  | cons m nodes ih =>
      obtain ⟨hm, hrest⟩ := List.forall_mem_cons.mp h
      have hnot : ¬ node.value < m.value := by
        rw [UInt64.lt_iff_toNat_lt]
        exact lt_asymm hm
      have hne : node ≠ m := by
        rintro rfl
        exact lt_irrefl _ hm
      rw [emplace, if_neg hnot, if_neg hne, ih hrest, List.cons_append]

/-- All nodes that are alive can be restored. -/
theorem restorableNodes_alive {n : ℕ} {last : Node} (hlast : last.toNat = n) {rest nodes : List Node}
    (h : AliveNodes n (nodes ++ rest)) : restorableNodes last rest nodes = nodes ++ rest := by
  induction rest generalizing nodes with
  | nil => rw [restorableNodes, List.append_nil]
  | cons node rest ih =>
      have hle : node.toNat ≤ n := ((h.mem_iff node).mp (by simp)).1
      have hnot : ¬ last.value < node.value := by
        rw [UInt64.lt_iff_toNat_lt]
        exact not_lt.mpr (hle.trans_eq hlast.symm)
      have hparent : node.fenwickParent ∈ nodes ∨ node = Node.initialValue := by
        by_cases hroot : node = Node.initialValue
        · exact .inr hroot
        · exact .inl (h.parent_mem hroot)
      have hbefore : ∀ m ∈ nodes, m.toNat < node.toNat := fun m hm =>
        (List.pairwise_append.mp h.ascending).2.2 m hm node List.mem_cons_self
      rw [restorableNodes, if_neg hnot, if_pos hparent, emplace_of_lt hbefore,
        ih (by rwa [List.append_assoc]), List.append_assoc, List.singleton_append]

/-! ## `nodesToRestore` -/

theorem emits_nodesToRestore {C : Event → (World β → World β) → Prop} (hC : C .look id) (env : Env)
    (node : Node) (all : Bool) : (nodesToRestore env node all : Repo β _).Emits C := by
  unfold nodesToRestore
  split
  · exact emits_bind (emits_getNodesIncludingUntrusted hC env _) fun _ => trivial
  · exact emits_bind trivial fun _ => trivial

/-!
## The path of a node

The path comes from the node towards the root. It is put into a sorted set, from which it comes out
in the order in which it can be restored.
-/

/-- The nodes of the path, in ascending order. -/
structure PathNodes (n : Node) (nodes : List Node) : Prop where
  ascending : nodes.Pairwise fun a b => a.toNat < b.toNat
  mem_iff : ∀ node, node ∈ nodes ↔ node.toNat ∈ fenwick.path n.toNat

theorem mem_emplace {node m : Node} {nodes : List Node} :
    m ∈ emplace node nodes ↔ m = node ∨ m ∈ nodes := by
  induction nodes with
  | nil => rw [emplace, List.mem_singleton, or_iff_left (List.not_mem_nil)]
  | cons next nodes ih =>
      rw [emplace]
      split
      · exact List.mem_cons
      · split
        · next heq =>
            rw [heq, List.mem_cons, or_self_left]
        · rw [List.mem_cons, ih, List.mem_cons, or_left_comm]

/-- A node is put where it belongs. -/
theorem pairwise_emplace {node : Node} {nodes : List Node}
    (h : nodes.Pairwise fun a b => a.toNat < b.toNat) :
    (emplace node nodes).Pairwise fun a b => a.toNat < b.toNat := by
  induction nodes with
  | nil => exact List.pairwise_singleton _ _
  | cons next nodes ih =>
      obtain ⟨hnext, hnodes⟩ := List.pairwise_cons.mp h
      rw [emplace]
      split
      · next hlt =>
          have hfirst : node.toNat < next.toNat := UInt64.lt_iff_toNat_lt.mp hlt
          refine List.pairwise_cons.mpr ⟨fun m hm => ?_, h⟩
          rcases List.mem_cons.mp hm with rfl | hm
          · exact hfirst
          · exact hfirst.trans (hnext m hm)
      · next hge =>
          split
          · exact h
          · next hne =>
              have hfirst : next.toNat < node.toNat := by
                rw [UInt64.lt_iff_toNat_lt, not_lt] at hge
                exact lt_of_le_of_ne hge fun heq => hne (Node.toNat_inj.mp heq.symm)
              refine List.pairwise_cons.mpr ⟨fun m hm => ?_, ih hnodes⟩
              rcases mem_emplace.mp hm with rfl | hm
              · exact hfirst
              · exact hnext m hm

theorem pairwise_foldl_emplace {values : List UInt64} {nodes : List Node}
    (h : nodes.Pairwise fun a b => a.toNat < b.toNat) :
    (values.foldl (fun nodes value => emplace ⟨value⟩ nodes) nodes).Pairwise
      fun a b => a.toNat < b.toNat := by
  induction values generalizing nodes with
  | nil => exact h
  | cons value values ih => exact ih (pairwise_emplace h)

theorem mem_foldl_emplace {values : List UInt64} {nodes : List Node} {m : Node} :
    m ∈ values.foldl (fun nodes value => emplace ⟨value⟩ nodes) nodes ↔
      m.value ∈ values ∨ m ∈ nodes := by
  induction values generalizing nodes with
  | nil => rw [List.foldl_nil, or_iff_right List.not_mem_nil]
  | cons value values ih =>
      have hnode : m = ⟨value⟩ ↔ m.value = value :=
        ⟨fun h => h ▸ rfl, fun h => h ▸ rfl⟩
      rw [List.foldl_cons, ih, mem_emplace, hnode, List.mem_cons, or_left_comm, or_assoc]

/-- The nodes to be restored are those of the path. -/
theorem nodesToRestore_path {env : Env} (node : Node) (w : World β) :
    (nodesToRestore env node false).Ends
      (fun r w' => w' = w ∧ ∃ nodes, r = .val nodes ∧ PathNodes node nodes) w := by
  intro tr
  have hresult : node.fenwickPathIncRoot.result = .val () := Tree.fenwickPathIncRoot_result _
  rw [nodesToRestore, if_neg Bool.false_ne_true]
  simp only [wp_bind, wp_ofResult, hresult, bindPost, wp_pure]
  refine ⟨trivial, _, rfl, pairwise_foldl_emplace List.Pairwise.nil, fun m => ?_⟩
  rw [mem_foldl_emplace, or_iff_left List.not_mem_nil]
  exact Tree.mem_fenwickPathIncRoot_nodes

/-!
## `getNodesIncludingUntrusted`

For a repository that is up to date nothing is untrusted, and what is listed is what is alive.
-/

/-- A repository whose breadcrumb names the node after `n`. -/
structure UpTo (n : ℕ) (disk : Disk) (breadcrumb : Breadcrumb) : Prop where
  bound : n < 2 ^ 63
  untrustedBegin : breadcrumb.untrustedBegin.toNat = n + 1
  nodes : disk.nodes = fenwick.alive n

section
variable {n : ℕ} {env : Env} {w : World β}

theorem UpTo.root (h : UpTo n w.disk w.repositoryStructure.breadcrumb) :
    w.repositoryStructure.breadcrumb.untrustedBegin ≠ Node.initialValue :=
  Node.ne_initialValue_of_toNat h.untrustedBegin

theorem UpTo.toNat_pred (h : UpTo n w.disk w.repositoryStructure.breadcrumb) :
    (⟨w.repositoryStructure.breadcrumb.untrustedBegin.value - 1⟩ : Node).toNat = n := by
  rw [Node.toNat_pred h.root, h.untrustedBegin]
  rfl

theorem UpTo.idFile (h : UpTo n w.disk w.repositoryStructure.breadcrumb) :
    w.disk.idFile w.repositoryStructure.breadcrumb.untrustedBegin = none := by
  have habsent : w.disk.snapshots w.repositoryStructure.breadcrumb.untrustedBegin = none := by
    rw [← Option.not_isSome_iff_eq_none, ← Disk.toNat_mem_nodes, h.nodes, h.untrustedBegin]
    exact fenwick.succ_notMem_alive n
  rw [Disk.idFile, habsent]
  rfl

theorem UpTo.getNodesIncludingUntrusted_ends
    (h : UpTo n w.disk w.repositoryStructure.breadcrumb) (hfuel : 0 < env.fuel) :
    (getNodesIncludingUntrusted env ⟨0⟩).Ends
      (fun r w' => w' = w ∧ ∃ nodes, r = .val nodes ∧ AliveNodes n nodes) w := by
  have hbound : w.repositoryStructure.breadcrumb.untrustedBegin.toNat ≤ 2 ^ 63 :=
    h.untrustedBegin.trans_le h.bound
  intro tr
  refine wp_post ?_ (getNodesIncludingUntrusted_free h.root hbound h.idFile (.inl rfl) hfuel tr)
  rintro r tr' w' ⟨rfl, nodes, rfl, hascending, hmem⟩
  refine ⟨rfl, nodes, rfl, hascending, fun node => ?_⟩
  rw [hmem, h.untrustedBegin, h.nodes]
  exact and_self_iff

/-- The nodes to be exported. -/
theorem UpTo.nodesToRestore_ends (h : UpTo n w.disk w.repositoryStructure.breadcrumb)
    (hfuel : 0 < env.fuel) {last : Node} (hlast : last.toNat = n) :
    (nodesToRestore env last true).Ends
      (fun r w' => w' = w ∧ ∃ nodes, r = .val nodes ∧ AliveNodes n nodes) w := by
  intro tr
  rw [nodesToRestore, if_pos rfl, wp_bind]
  refine wp_post ?_ (h.getNodesIncludingUntrusted_ends hfuel tr)
  rintro r tr' w' ⟨rfl, nodes, rfl, halive⟩
  exact ⟨rfl, nodes, congrArg _ (restorableNodes_alive hlast halive), halive⟩

end

end Controller

end Diffmonger
