import Diffmonger.Controller.Breadcrumb
import Diffmonger.Controller.Completed
import Diffmonger.Lib.Trace
import Diffmonger.RepositoryStructure.Listing

/-!
# The nodes that are listed

`getNodesIncludingUntrusted` is to return the trusted nodes that are alive and all untrusted ones.
It is also called for a repository that a command has been deleting nodes from when it was killed.

* `getNodesIncludingUntrusted_lists_iff`: it returns what it should only if there is no untrusted node
  to be listed.
* `listing_intact_iff`: a command that is killed while it deletes a node may leave a directory that
  lacks one of its files (`Torn`). The listing only asks for the directory, and so names the node.
  When the directory is gone as well, all that is left is whole.
-/

namespace Diffmonger

open Prog RepositoryStructure

variable {β S σ : Type}

namespace RepositoryStructure

/-! ## What is documented -/

section
variable {w : World β} {limit : Node}

/-- All nodes from `u` up to the given one have an id file. -/
def StoredFrom (disk : Disk) (u node : Node) : Prop :=
  u.toNat ≤ node.toNat ∧
    ∀ m : Node, u.toNat ≤ m.toNat → m.toNat ≤ node.toNat → (disk.idFile m).isSome

/-- What the documentation says about the result: the trusted nodes that are alive and have a
directory, and the untrusted ones, in ascending order. -/
structure Lists (w : World β) (limit : Node) (nodes : List Node) : Prop where
  ascending : nodes.Pairwise fun a b => a.toNat < b.toNat
  mem_iff : ∀ node, node ∈ nodes ↔ (limit ≠ Node.initialValue → node.toNat < limit.toNat) ∧
    (node.toNat ∈
        fenwick.aliveBefore w.repositoryStructure.breadcrumb.untrustedBegin.toNat ∩ w.disk.nodes ∨
      StoredFrom w.disk w.repositoryStructure.breadcrumb.untrustedBegin node)

/-- The call returns the nodes that it should. -/
def ReturnsListing (w : World β) (limit : Node) : Prop :=
  ∃ fuel, ∀ env : Env, fuel ≤ env.fuel → ∃ nodes,
    ((getNodesIncludingUntrusted env limit).run w).result = .val nodes ∧ Lists w limit nodes

theorem not_storedFrom {disk : Disk} {u : Node} (hid : disk.idFile u = none) (node : Node) :
    ¬ StoredFrom disk u node := by
  rintro ⟨hle, hstored⟩
  have hu := hstored u le_rfl hle
  rw [hid] at hu
  cases hu

theorem storedFrom_self {disk : Disk} {u : Node} : StoredFrom disk u u ↔ (disk.idFile u).isSome := by
  refine ⟨fun h => h.2 u le_rfl le_rfl, fun h => ⟨le_rfl, fun m hle hge => ?_⟩⟩
  rwa [Node.toNat_inj.mp (le_antisymm hge hle)]

/-- The call returns the nodes that it should if and only if the first untrusted node has no id
file, is not past the limit, unless it is the initial node, and its number is at most `2 ^ 63`. -/
theorem getNodesIncludingUntrusted_lists_iff (w : World β) (limit : Node) :
    ReturnsListing w limit ↔
      w.repositoryStructure.breadcrumb.untrustedBegin.toNat ≤ 2 ^ 63 ∧
        w.disk.idFile w.repositoryStructure.breadcrumb.untrustedBegin = none ∧
        (w.repositoryStructure.breadcrumb.untrustedBegin = Node.initialValue ∨
          limit = Node.initialValue ∨
          w.repositoryStructure.breadcrumb.untrustedBegin.toNat ≤ limit.toNat) := by
  by_cases hroot : w.repositoryStructure.breadcrumb.untrustedBegin = Node.initialValue
  · have hempty (env : Env) : ((getNodesIncludingUntrusted env limit).run w).result = .val [] :=
      (ends_iff_run.mp (getNodesIncludingUntrusted_initial hroot)).2
    constructor
    · rintro ⟨fuel, hreturns⟩
      obtain ⟨nodes, hval, hlists⟩ := hreturns { Controller.sampleEnv with fuel := fuel } le_rfl
      obtain rfl := Result.val.inj (hval.symm.trans (hempty _))
      refine ⟨by rw [hroot]; decide, ?_, .inl hroot⟩
      -- otherwise the initial node should have been listed
      rw [← Option.not_isSome_iff_eq_none, ← storedFrom_self]
      intro hstored
      refine List.not_mem_nil ((hlists.mem_iff _).mpr ⟨fun hlimit => ?_, .inr hstored⟩)
      rw [hroot]
      exact Nat.pos_of_ne_zero fun h0 => hlimit (Node.toNat_inj.mp h0)
    · rintro ⟨-, hid, -⟩
      refine ⟨0, fun env _ => ⟨[], hempty env, .nil, fun node => ?_⟩⟩
      rw [hroot, Node.toNat_initialValue]
      refine ⟨fun hmem => absurd hmem List.not_mem_nil, ?_⟩
      rintro ⟨-, ⟨halive, -⟩ | hstored⟩
      · exact absurd halive (Set.notMem_empty _)
      · exact absurd hstored (not_storedFrom (hroot ▸ hid) node)
  · constructor
    · rintro ⟨fuel, hreturns⟩
      obtain ⟨nodes, hval, -⟩ := hreturns { Controller.sampleEnv with fuel := fuel } le_rfl
      obtain ⟨hbound, hid, hlimit⟩ :=
        ends_iff_run.mp (getNodesIncludingUntrusted_val hroot) nodes hval
      exact ⟨hbound, hid, .inr hlimit⟩
    · rintro ⟨hbound, hid, hlimit⟩
      have hlimit := hlimit.resolve_left hroot
      refine ⟨1, fun env hfuel => ?_⟩
      obtain ⟨-, nodes, hval, hascending, hmem⟩ := ends_iff_run.mp
        (getNodesIncludingUntrusted_free hroot hbound hid hlimit hfuel)
      refine ⟨nodes, hval, hascending, fun node => ?_⟩
      rw [hmem, or_iff_left (not_storedFrom hid node)]
      refine ⟨fun halive => ⟨fun hne => ?_, halive⟩, And.right⟩
      exact (fenwick.lt_of_mem_aliveBefore halive.1).trans_le (hlimit.resolve_left hne)

end

/-- A mirror to which the initial node has been copied, and which has not been pruned yet. -/
def sampleListed : World Unit :=
  { Controller.sampleWorld with
    disk := { Controller.sampleWorld.disk with
      snapshots := fun node =>
        if node = Node.initialValue then some ⟨some (Encoded.plain node).serialise, some []⟩
        else none } }

/-- The initial node is an untrusted one, and is not listed. -/
theorem getNodesIncludingUntrusted_skips_initial : ¬ ReturnsListing sampleListed Node.initialValue := by
  rintro ⟨fuel, hreturns⟩
  obtain ⟨nodes, hval, hlists⟩ := hreturns { Controller.sampleEnv with fuel := fuel } le_rfl
  have hempty : nodes = [] := Result.val.inj
    (hval.symm.trans (ends_iff_run.mp (getNodesIncludingUntrusted_initial rfl)).2)
  have hstored : StoredFrom sampleListed.disk Node.initialValue Node.initialValue :=
    storedFrom_self.mpr rfl
  have hmem := (hlists.mem_iff Node.initialValue).mpr ⟨fun hne => absurd rfl hne, .inr hstored⟩
  rw [hempty] at hmem
  cases hmem

end RepositoryStructure

namespace Controller

/-!
## Deleting a node

A node that is being deleted is `Torn`: its directory is there, and one of its two files is not. The
files go in any order, since the entries of a directory are read in any order.
-/

/-- Every directory holds what `A` allows for its node. -/
def Whole (A : Encoded → NodeDir → Prop) (disk : Disk) : Prop :=
  ∀ node dir, disk.snapshots node = some dir → ∃ encoded, encoded.node = node ∧ A encoded dir

/-- The node's directory is there, but a file in it is missing. -/
def Torn (disk : Disk) (node : Node) : Prop :=
  ∃ dir, disk.snapshots node = some dir ∧ (dir.id = none ∨ dir.blob = none)

/-- `c` nodes have been stored, and some of them may have been deleted. -/
structure Pruned (c : ℕ) (disk : Disk) : Prop where
  bound : c ≤ 2 ^ 63
  initargs : ∀ repository, ∃ args, disk.readInitargs repository = .ok args
  aligned : Aligned c disk
  nodes : disk.nodes ⊆ fenwick.aliveBefore c

/-- What holds after a step that deletes: a file has been removed from the directory of a node, or
every directory that is left is whole. -/
def AfterDeletion (A : Encoded → NodeDir → Prop) (event : Event) (w : World β) : Prop :=
  match event with
  | .unlinkId node | .unlinkBlob node => (∃ c, Pruned c w.disk) ∧ Torn w.disk node
  | .removeDirectory _ => (∃ c, Pruned c w.disk) ∧ Whole A w.disk
  | _ => True

section
variable {A : Encoded → NodeDir → Prop} {c : ℕ} {w : World β} {node : Node} {tr : List Event}

theorem Pruned.setNode {disk : Disk} (h : Pruned c disk) {dir : Option NodeDir}
    (hdir : dir.isSome → (disk.snapshots node).isSome) : Pruned c (disk.setNode node dir) := by
  refine ⟨h.bound, h.initargs, h.aligned, ?_⟩
  rintro _ ⟨m, rfl, hm⟩
  refine h.nodes (Disk.toNat_mem_nodes.mpr ?_)
  rcases eq_or_ne m node with rfl | hne
  · rw [Disk.setNode_self] at hm
    exact hdir hm
  · rwa [Disk.setNode_of_ne _ hne] at hm

theorem Whole.removeNode {disk : Disk} (h : Whole A disk) (node : Node) :
    Whole A (disk.setNode node none) := by
  intro m dir hm
  rcases eq_or_ne m node with rfl | hne
  · rw [Disk.setNode_self] at hm
    cases hm
  · rw [Disk.setNode_of_ne _ hne] at hm
    exact h m dir hm

/-- The two steps that remove a file. -/
theorem Pruned.unlink (h : Pruned c w.disk) (hnode : (w.disk.snapshots node).isSome) {event : Event}
    (hevent : event = .unlinkId node ∨ event = .unlinkBlob node) :
    Pruned c (w.apply event).disk ∧ Torn (w.apply event).disk node := by
  obtain ⟨dir, hdir⟩ := Option.isSome_iff_exists.mp hnode
  rcases hevent with rfl | rfl
  · exact ⟨h.setNode (by simp), { dir with id := none },
      by simp [World.apply, Event.apply, hdir], .inl rfl⟩
  · exact ⟨h.setNode (by simp), { dir with blob := none },
      by simp [World.apply, Event.apply, hdir], .inr rfl⟩

/-- Removing both files, in any order. -/
theorem wp_unlinkFiles {bytes blob : Bytes}
    (hdir : w.disk.snapshots node = some ⟨some bytes, some blob⟩)
    (hpruned : Pruned c w.disk) (env : Env) :
    (unlinkFiles env node ⟨some bytes, some blob⟩).wp (AtLast (AfterDeletion A))
      (fun r _ w' => r = .val () ∧ w'.removeNode node = w.removeNode node) tr w := by
  have hnode : (w.disk.snapshots node).isSome := by
    rw [hdir]
    rfl
  have htwo {e e' : Event} (he : e = .unlinkId node ∨ e = .unlinkBlob node)
      (he' : e' = .unlinkId node ∨ e' = .unlinkBlob node) :
      AtLast (AfterDeletion A) (tr ++ [e]) (w.apply e) ∧
        AtLast (AfterDeletion A) (tr ++ [e] ++ [e']) ((w.apply e).apply e') := by
    obtain ⟨hpruned', htorn⟩ := hpruned.unlink hnode he
    obtain ⟨dir, hdir', -⟩ := id htorn
    obtain ⟨hpruned'', htorn'⟩ := hpruned'.unlink (by rw [hdir']; rfl) he'
    rw [atLast_append_singleton, atLast_append_singleton]
    constructor
    · rcases he with rfl | rfl <;> exact ⟨⟨c, hpruned'⟩, htorn⟩
    · rcases he' with rfl | rfl <;> exact ⟨⟨c, hpruned''⟩, htorn'⟩
  unfold unlinkFiles performIf
  simp only [Option.isSome_some, if_true]
  split
  · rw [wp_bind, wp_perform, bindPost, wp_perform]
    obtain ⟨hfirst, hsecond⟩ := htwo (.inr rfl) (.inl rfl)
    exact ⟨hfirst, hsecond, rfl,
      by simp [World.apply, World.removeNode, Event.apply, Disk.setNode]⟩
  · rw [wp_bind, wp_perform, bindPost, wp_perform]
    obtain ⟨hfirst, hsecond⟩ := htwo (.inl rfl) (.inr rfl)
    exact ⟨hfirst, hsecond, rfl,
      by simp [World.apply, World.removeNode, Event.apply, Disk.setNode]⟩

/-- Until the directory is removed, the node lacks one of its files after each step that deletes
something. -/
theorem wp_deleteNode_tears (hA : ∀ encoded dir, A encoded dir → dir.id.isSome ∧ dir.blob.isSome)
    (hpruned : Pruned c w.disk) (hwhole : Whole A w.disk) (env : Env) :
    (deleteNode env node).wp (AtLast (AfterDeletion A))
      (fun r _ w' => r = .val () ∧ w' = w.removeNode node) tr w := by
  simp only [deleteNode, wp_bind, wp_look, bindPost, atLast_append_singleton]
  refine ⟨trivial, ?_⟩
  cases hdir : w.disk.snapshots node with
  | none =>
      refine ⟨rfl, ?_⟩
      rw [World.removeNode, Disk.setNode, ← hdir, Function.update_eq_self]
  | some dir =>
      obtain ⟨encoded, -, hAdir⟩ := hwhole node dir hdir
      obtain ⟨id, blob⟩ := dir
      obtain ⟨hid, hblob⟩ := hA _ _ hAdir
      obtain ⟨id, rfl⟩ := Option.isSome_iff_exists.mp hid
      obtain ⟨blob, rfl⟩ := Option.isSome_iff_exists.mp hblob
      dsimp only
      rw [wp_bind]
      refine wp_post ?_ (wp_unlinkFiles hdir hpruned env)
      rintro r tr w' ⟨rfl, hremoved⟩
      have hdisk : (w'.apply (.removeDirectory node)).disk = w.disk.setNode node none :=
        congrArg World.disk hremoved
      rw [bindPost, wp_perform, atLast_append_singleton]
      refine ⟨⟨⟨c, ?_⟩, ?_⟩, rfl, hremoved⟩ <;> rw [hdisk]
      · exact hpruned.setNode (by simp)
      · exact hwhole.removeNode node

end

/-!
## A command that is killed

Only steps that delete something are of interest, and what is there after each of them. All parts of
the command but the one that prunes take no such steps.
-/

/-- A step that deletes nothing of any node. -/
def KeepsNodes (event : Event) (_ : World β → World β) : Prop :=
  match event with
  | .unlinkId _ | .unlinkBlob _ | .removeDirectory _ => False
  | _ => True

theorem keepsNodes_of_prepares {event : Event} {update : World β → World β}
    (h : Kind (Event.Prepares ∅) event update) : KeepsNodes event update := by
  obtain ⟨hE, -⟩ := h
  cases event with
  | unlinkId node | unlinkBlob node | removeDirectory node => exact absurd hE (Set.notMem_empty _)
  | _ => trivial

theorem KeepsNodes.afterDeletion {A : Encoded → NodeDir → Prop} {event : Event}
    {update : World β → World β} (h : KeepsNodes event update) (w : World β) :
    AfterDeletion A event w := by
  cases event with
  | unlinkId node | unlinkBlob node | removeDirectory node => exact h.elim
  | _ => trivial

/-- Committing a node deletes nothing. -/
theorem emits_commit_keepsNodes (encoded : Encoded) :
    (commit encoded : Repo β Unit).Emits KeepsNodes := by
  refine emits_bind ((emits_read ..).mpr trivial) fun checkedOut => ?_
  split
  · refine emits_bind ((emits_modify ..).mpr trivial) fun _ => emits_bind ?_ fun _ =>
      emits_bind (by simp) fun _ => emits_bind ((emits_modify ..).mpr trivial) fun _ =>
        (emits_modify ..).mpr trivial
    refine emits_bind ((emits_modify ..).mpr trivial) fun _ =>
      emits_bind ((emits_modify ..).mpr trivial) fun _ => emits_handle ?_ fun e => ?_
    · refine emits_bind ((emits_read ..).mpr trivial) fun w => ?_
      split
      · exact (emits_modify ..).mpr trivial
      · exact (emits_modify ..).mpr trivial
      · trivial
    · refine emits_bind ((emits_read ..).mpr trivial) fun found => ?_
      split <;> trivial
  · trivial

section
variable {driver : BackendDriver β S} {sodium : Sodium σ} {env : Env} {params : RepositoryParams}
  {A : Encoded → NodeDir → Prop} {keyPairs : Except Exn (List KeyPair)} {c c₀ : ℕ}
  {tr : List Event} {w : World β}

theorem wp_pruneNode (hA : ∀ encoded dir, A encoded dir → dir.id.isSome ∧ dir.blob.isSome)
    (hpruned : Pruned c w.disk) (hwhole : Whole A w.disk) (node : Node) :
    (pruneNode driver env node).wp (AtLast (AfterDeletion A))
      (fun r _ w' => r = .val () ∧ w' = w.removeNode node) tr w := by
  simp only [pruneNode, wp_handle, wp_bind]
  refine wp_post ?_ (wp_deleteNode_tears hA hpruned hwhole env)
  rintro r tr' w' ⟨rfl, rfl⟩
  have habsent : (w.removeNode node).disk.readId node = .ok none :=
    Disk.readId_of_absent (Disk.setNode_self _ _ _)
  simp [habsent, Result.ofExcept, AfterDeletion]

/-- Pruning tears no more than one node at a time. -/
theorem wp_pruneNodes (hA : ∀ encoded dir, A encoded dir → dir.id.isSome ∧ dir.blob.isSome)
    (hpruned : Pruned c w.disk) (hwhole : Whole A w.disk) :
    (prune (pruneNode driver env)).wp (AtLast (AfterDeletion A)) (fun _ _ _ => True) tr w := by
  simp only [prune, getLatestTrustedNode, getBreadcrumb, wp_bind, wp_look, bindPost, wp_pure,
    atLast_append_singleton]
  refine ⟨trivial, ?_⟩
  split
  · trivial
  · next node _ =>
      rw [forEachNode, wp_bind]
      refine wp_forM (fun _ _ w => Pruned c w.disk ∧ Whole A w.disk) node.prune.nodes ?_
        (fun _ _ _ => by trivial) ⟨hpruned, hwhole⟩
      rintro treated value rest - tr w ⟨hpruned, hwhole⟩
      refine wp_post ?_ (wp_pruneNode hA hpruned hwhole ⟨value⟩)
      rintro r tr w' ⟨rfl, rfl⟩
      exact ⟨hpruned.setNode (by simp), hwhole.removeNode ⟨value⟩⟩

/-- One iteration of `snapshot`. -/
theorem StockedAfter.deletions (hA : ∀ encoded dir, A encoded dir → dir.id.isSome ∧ dir.blob.isSome)
    (h : StockedAfter A keyPairs c₀ tr w) (hopen : Opened w) :
    (_snapshot driver sodium env params).wp (AtLast (AfterDeletion A)) (fun _ _ _ => True) tr w := by
  obtain ⟨c, -, hstocked, -⟩ := h
  obtain ⟨b, hread, hb⟩ := hstocked.aligned
  obtain rfl : b = w.repositoryStructure.breadcrumb := Except.ok.inj (hread.symm.trans hopen)
  have hpruned : Pruned c w.disk :=
    ⟨hstocked.bound, hstocked.initargs, hstocked.aligned, hstocked.nodes.subset⟩
  have hkeeps {event : Event} {update : World β → World β} {w : World β}
      (h : KeepsNodes event update) : AfterDeletion A event (update w) := h.afterDeletion _
  rw [_snapshot_eq, wp_bind]
  refine wp_post ?_ ((getNextSnapshotNode_absent (Disk.readId_of_absent
    (hstocked.absent hb))).wp_atLast (emits_getNextSnapshotNode (C := Kind (Event.Prepares ∅))
      (kind_look trivial) env)
    fun _ _ _ hk => hkeeps (keepsNodes_of_prepares hk))
  rintro r tr w ⟨rfl, rfl | rfl⟩
  swap
  · trivial
  rw [bindPost, wp_bind]
  refine wp_post (fun r tr w _ => ?_) (wp_pruneNodes hA hpruned hstocked.holds)
  cases r with
  | exn e => trivial
  | diverged => trivial
  | val _ =>
      -- from here on no node is deleted
      refine ends_trivial.wp_atLast (C := KeepsNodes) ?_ fun _ _ _ hk => hkeeps hk
      refine emits_bind ((emits_nextSnapshot driver _).mono fun _ _ => keepsNodes_of_prepares)
        fun ⟨maybeParent, id, old⟩ => emits_bind ?_ fun _ => trivial
      exact emits_bind ((emits_storePayload ..).mono fun _ _ => keepsNodes_of_prepares)
        fun _ => emits_commit_keepsNodes _

/-- The whole command. -/
theorem StockedAfter.command_deletions
    (hA : ∀ encoded dir, A encoded dir → dir.id.isSome ∧ dir.blob.isSome)
    (hallows : Allows driver sodium env params keyPairs A) (h : StockedAfter A keyPairs c₀ tr w)
    (repository : String) :
    (snapshotCommand driver repository sodium env params).wp (AtLast (AfterDeletion A))
      (fun _ _ _ => True) tr w := by
  obtain ⟨c, hc, hstocked, hkeys⟩ := h
  obtain ⟨b, hread, hb⟩ := hstocked.aligned
  have hlooks {ls : List Event} (hls : ∀ l ∈ ls, l = .look) (hne : ls ≠ []) (w : World β) :
      AtLast (AfterDeletion A) (tr ++ ls) w := by
    intro event hevent
    rw [List.getLast?_append_of_ne_nil _ hne] at hevent
    obtain rfl := hls event (List.mem_of_getLast? hevent)
    trivial
  rw [snapshotCommand, wp_bind]
  refine wp_openRepository_readable (hstocked.initargs repository) hread
    (fun ls w' hls hne _ _ => hlooks hls hne w') fun ls w' hls _ hw' hb => ?_
  have hprepares : ∀ l ∈ ls, l.Prepares ∅ := fun l hl => hls l hl ▸ trivial
  have hstart : StockedAfter A keyPairs c₀ (tr ++ ls) w' :=
    ⟨c, hc.prepared hprepares, hw' ▸ hstocked, hw' ▸ hkeys⟩
  have hopen : Opened w' := by
    rw [Opened, hw', hb]
    exact hread
  refine wp_post (fun _ _ _ _ => trivial) (wp_snapshot
    (J := fun tr w => StockedAfter A keyPairs c₀ tr w ∧ Opened w) ?_ ⟨hstart, hopen⟩)
  rintro tr w ⟨h, hopen⟩
  refine wp_mono (fun _ _ h => h.1) ?_ _
    (wp_and (h.deletions hA hopen) (h.iteration hallows hopen))
  rintro r _ w ⟨-, hr⟩ b hval
  rw [hval] at hr
  exact hr

end

/-!
## Listing what is left

The listing goes through the directories of the nodes that should be alive and are there. Whoever
prints it then reads the id of each.
-/

section
variable {c : ℕ} {w : World β} {env : Env}

/-- A new process lists the nodes that have a directory. -/
theorem Pruned.listing (h : Pruned c w.disk) (hfuel : 0 < env.fuel) (repository : String) :
    (do openRepository repository; getNodesIncludingUntrusted env ⟨0⟩ : Repo β _).Ends
      (fun r w' => w'.disk = w.disk ∧ ∃ nodes, r = .val nodes ∧
        ∀ node, node ∈ nodes ↔ node.toNat ∈ w.disk.nodes) w := by
  obtain ⟨b, hread, hb⟩ := h.aligned
  intro tr
  rw [wp_bind]
  refine wp_openRepository_readable (h.initargs repository) hread (fun _ _ _ _ _ _ => trivial)
    fun ls w' _ _ hdisk hbreadcrumb => ?_
  rw [← hbreadcrumb] at hb
  rw [← hdisk] at h
  rw [← hdisk, bindPost]
  by_cases hroot : w'.repositoryStructure.breadcrumb.untrustedBegin = Node.initialValue
  · -- nothing has been stored yet
    rw [hroot, Node.toNat_initialValue] at hb
    subst hb
    refine wp_post ?_ (getNodesIncludingUntrusted_initial hroot _)
    rintro r tr w ⟨rfl, rfl⟩
    exact ⟨rfl, [], rfl, fun node => ⟨nofun, fun hnode => (h.nodes hnode).elim⟩⟩
  · have hid : w'.disk.idFile w'.repositoryStructure.breadcrumb.untrustedBegin = none := by
      have habsent : w'.disk.snapshots w'.repositoryStructure.breadcrumb.untrustedBegin = none := by
        rw [← Option.not_isSome_iff_eq_none, ← Disk.toNat_mem_nodes]
        intro hmem
        exact (fenwick.lt_of_mem_aliveBefore (h.nodes hmem)).ne hb
      rw [Disk.idFile, habsent]
      rfl
    refine wp_post ?_ (getNodesIncludingUntrusted_free hroot (hb.trans_le h.bound) hid (.inl rfl)
      hfuel _)
    rintro r tr w' ⟨rfl, nodes, rfl, -, hmem⟩
    refine ⟨rfl, nodes, rfl, fun node => ?_⟩
    rw [hmem, hb]
    exact and_iff_right_of_imp fun hnode => h.nodes hnode

theorem listNodes_ends {nodes : List Node} {encoded : Node → Encoded}
    (hread : ∀ node ∈ nodes, w.disk.readId node = .ok (some (encoded node))) :
    (nodes.mapM fun node => do
        let encoded ← getEncodedSnapshotId node
        return (node, some encoded.timestamp) : Repo β _).Ends
      (fun r w' => w' = w ∧ r = .val (nodes.map fun node => (node, some (encoded node).timestamp)))
      w := by
  induction nodes with
  | nil => exact fun tr => ⟨rfl, rfl⟩
  | cons node rest ih =>
      intro tr
      obtain ⟨hnode, hrest⟩ := List.forall_mem_cons.mp hread
      simp only [List.mapM_cons, wp_bind, wp_getEncodedSnapshotId, hnode, true_and, bindPost, wp_pure]
      refine wp_post ?_ (ih hrest _)
      rintro r tr w ⟨rfl, rfl⟩
      exact ⟨rfl, rfl⟩

end

section
variable (driver : BackendDriver β S) (sodium : Sodium σ) (encryption : Bool)
  (keyPairs : Except Exn (List KeyPair))

/-- The node has an id that can be decoded, and its whole payload. -/
def Intact (disk : Disk) (node : Node) : Prop :=
  ∃ encoded blob, disk.readId node = .ok (some encoded) ∧ disk.blobFile node = some blob ∧
    HoldsPayload driver sodium encryption keyPairs encoded ⟨some encoded.serialise, some blob⟩

/-- A new process can list the nodes, with their times, and all of them are intact. -/
def ListsIntact (repository : String) (w : World β) : Prop :=
  ∃ fuel, ∀ env : Env, fuel ≤ env.fuel →
    (∃ nodes, ((do openRepository repository; getNodesIncludingUntrusted env ⟨0⟩ :
        Repo β _).run w).result = .val nodes ∧
      ∀ node ∈ nodes, Intact driver sodium encryption keyPairs w.disk node) ∧
    ∃ lines, ((listNodesCommand repository env true).run w).result = .val lines

end

section
variable {driver : BackendDriver β S} {sodium : Sodium σ} {encryption : Bool}
  {keyPairs : Except Exn (List KeyPair)}

theorem intact_of_whole {disk : Disk}
    (h : Whole (HoldsPayload driver sodium encryption keyPairs) disk) {node : Node}
    (hnode : node.toNat ∈ disk.nodes) : Intact driver sodium encryption keyPairs disk node := by
  rw [Disk.toNat_mem_nodes, Option.isSome_iff_exists] at hnode
  obtain ⟨dir, hdir⟩ := hnode
  obtain ⟨encoded, hencoded, hholds⟩ := h node dir hdir
  obtain ⟨env, params, blob, henc, rfl, hwhole⟩ := id hholds
  refine ⟨encoded, blob, Disk.readId_of_serialise ?_ hencoded, ?_, hholds⟩
  · rw [Disk.idFile, hdir]
    rfl
  · rw [Disk.blobFile, hdir]
    rfl

theorem Torn.not_intact {disk : Disk} {node : Node} (h : Torn disk node) :
    ¬ Intact driver sodium encryption keyPairs disk node := by
  obtain ⟨dir, hdir, hmissing⟩ := h
  rintro ⟨encoded, blob, hread, hblob, -⟩
  rcases hmissing with hid | hnone
  · rw [Disk.readId_of_none (by rw [Disk.idFile, hdir]; exact hid)] at hread
    cases hread
  · rw [Disk.blobFile, hdir] at hblob
    cases hnone.symm.trans hblob

/-- After completed snapshot commands, one is killed. -/
theorem afterDeletion_of_killed {w₀ w : World β} {as : List (Attempt Event (World β) Exn Unit)}
    (h₀ : Created w₀.disk)
    (hist : History (snapshotCommandsOf driver sodium encryption) SameDisk Attempt.Completed w₀ as w)
    {a : Attempt Event (World β) Exn Unit} (hstart : SameDisk w a.start)
    (hprogram : a.program ∈ snapshotCommandsOf driver sodium encryption) {event : Event}
    (hlast : a.labels.getLast? = some event) :
    AfterDeletion (HoldsPayload driver sodium encryption w₀.disk.keyPairs) event a.state := by
  obtain ⟨c, -, hstocked, hkeys⟩ := stocked_of_completed h₀ hist
  obtain ⟨repository, env, params, henc, hp⟩ := hprogram
  have hdisk : a.start.disk = w.disk := hstart
  have hbefore : StockedAfter (HoldsPayload driver sodium encryption w₀.disk.keyPairs)
      w₀.disk.keyPairs c [] a.start := ⟨c, .nil c, hdisk ▸ hstocked, hdisk ▸ hkeys⟩
  have hfiles : ∀ encoded dir, HoldsPayload driver sodium encryption w₀.disk.keyPairs encoded dir →
      dir.id.isSome ∧ dir.blob.isSome := by
    rintro _ _ ⟨_, _, _, -, rfl, -⟩
    exact ⟨rfl, rfl⟩
  have hcommand : a.program.wp (AtLast (AfterDeletion _)) (fun _ _ _ => True) [] a.start :=
    hp ▸ hbefore.command_deletions hfiles
      (fun encoded blob hwhole => ⟨env, params, blob, henc, rfl, hwhole⟩) repository
  exact a.invariant hcommand nofun event hlast

/-- If a node is torn, it is listed as well. -/
theorem Torn.not_listsIntact {w : World β} {c : ℕ} (hpruned : Pruned c w.disk) {node : Node}
    (h : Torn w.disk node) (repository : String) :
    ¬ ListsIntact driver sodium encryption keyPairs repository w := by
  rintro ⟨fuel, hlists⟩
  obtain ⟨⟨nodes, hval, hintact⟩, -⟩ := hlists { sampleEnv with fuel := fuel + 1 } (Nat.le_succ _)
  have hfuel : 0 < { sampleEnv with fuel := fuel + 1 }.fuel := Nat.succ_pos _
  obtain ⟨-, nodes', hval', hmem⟩ := ends_iff_run.mp (hpruned.listing hfuel repository)
  obtain rfl := Result.val.inj (hval.symm.trans hval')
  refine h.not_intact (hintact node ((hmem node).mpr (Disk.toNat_mem_nodes.mpr ?_)))
  obtain ⟨dir, hdir, -⟩ := h
  rw [hdir]
  rfl

/-- If every directory is whole, everything that is listed is intact. -/
theorem Whole.listsIntact {w : World β} {c : ℕ} (hpruned : Pruned c w.disk)
    (h : Whole (HoldsPayload driver sodium encryption keyPairs) w.disk) (repository : String) :
    ListsIntact driver sodium encryption keyPairs repository w := by
  refine ⟨1, fun env hfuel => ?_⟩
  have hlisting := hpruned.listing hfuel repository
  obtain ⟨-, nodes, hval, hmem⟩ := ends_iff_run.mp hlisting
  refine ⟨⟨nodes, hval, fun node hnode => intact_of_whole h ((hmem node).mp hnode)⟩, ?_⟩
  have hlines : (listNodesCommand repository env true).Ends (fun r _ => ∃ lines, r = .val lines)
      w := by
    intro tr
    simp only [listNodesCommand, listNodes, ← bind_assoc, if_true]
    rw [wp_bind]
    refine wp_post ?_ (hlisting tr)
    rintro r tr w' ⟨hdisk, nodes, rfl, hmem⟩
    have hread (node : Node) : ∃ encoded, node ∈ nodes →
        w'.disk.readId node = .ok (some encoded) := by
      by_cases hnode : node ∈ nodes
      · obtain ⟨encoded, _, hread, -⟩ := intact_of_whole h ((hmem node).mp hnode)
        exact ⟨encoded, fun _ => hdisk ▸ hread⟩
      · exact ⟨.plain node, fun hmem => absurd hmem hnode⟩
    choose encoded hread using hread
    refine wp_post ?_ (listNodes_ends hread tr)
    rintro r tr w ⟨-, rfl⟩
    exact ⟨_, rfl⟩
  exact ends_iff_run.mp hlines

/-- After completed snapshot commands, one is killed right after a step in which it has deleted
something of a node: all nodes that are then listed are intact if and only if that step has removed
the node's directory. -/
theorem listing_intact_iff {w₀ w : World β} {as : List (Attempt Event (World β) Exn Unit)}
    (h₀ : Created w₀.disk)
    (hist : History (snapshotCommandsOf driver sodium encryption) SameDisk Attempt.Completed w₀ as w)
    {a : Attempt Event (World β) Exn Unit} (hstart : SameDisk w a.start)
    (hprogram : a.program ∈ snapshotCommandsOf driver sodium encryption) {event : Event}
    (hlast : a.labels.getLast? = some event) (hdeletes : ¬ KeepsNodes event (id : World β → World β))
    {w' : World β} (hdisk : SameDisk a.state w') (repository : String) :
    ListsIntact driver sodium encryption w₀.disk.keyPairs repository w' ↔
      ∃ node, event = .removeDirectory node := by
  have hdisk' : w'.disk = a.state.disk := hdisk
  have hafter := afterDeletion_of_killed h₀ hist hstart hprogram hlast
  cases event with
  | removeDirectory node =>
      -- no other node has been touched
      obtain ⟨⟨c, hpruned⟩, hwhole⟩ := hafter
      rw [← hdisk'] at hpruned hwhole
      exact iff_of_true (hwhole.listsIntact hpruned repository) ⟨node, rfl⟩
  | unlinkId node | unlinkBlob node =>
      obtain ⟨⟨c, hpruned⟩, htorn⟩ := hafter
      rw [← hdisk'] at hpruned htorn
      exact iff_of_false (htorn.not_listsIntact hpruned repository) (by simp)
  | _ => exact absurd trivial hdeletes

end

/-- The fifth snapshot command, killed after `k` steps. -/
def sampleKilled (k : ℕ) : Attempt Event (World Unit) Exn Unit :=
  .cut (snapshotCommand (.constant [7]) "repository" .transparent sampleEnv ⟨false, 0⟩)
    (sampleSnapshots 4).2 k

theorem sampleKilled_mem (k : ℕ) :
    (sampleKilled k).program ∈ snapshotCommandsOf (.constant [7]) Sodium.transparent false :=
  ⟨"repository", sampleEnv, ⟨false, 0⟩, rfl, rfl⟩

theorem history_sampleKilled :
    History (snapshotCommandsOf (.constant [7]) Sodium.transparent false) SameDisk
      Attempt.Completed sampleWorld (sampleSnapshots 4).1 (sampleSnapshots 4).2 :=
  .repeated (sampleKilled_mem 0) SameDisk.refl _ fun i hi => ⟨rfl, (), by revert i; decide +kernel⟩

/-- The node 1 has lost its id, and is listed. -/
theorem listing_torn_one :
    (sampleKilled 8).labels.getLast? = some (.unlinkId ⟨1⟩) ∧
      ¬ ListsIntact (.constant [7]) Sodium.transparent false sampleWorld.disk.keyPairs "repository"
        (sampleKilled 8).state := by
  have hlast : (sampleKilled 8).labels.getLast? = some (.unlinkId ⟨1⟩) := by decide +kernel
  obtain ⟨⟨c, hpruned⟩, htorn⟩ := afterDeletion_of_killed fresh_sampleWorld.created
    history_sampleKilled (SameDisk.refl _) (sampleKilled_mem 8) hlast
  exact ⟨hlast, htorn.not_listsIntact hpruned "repository"⟩

/-- Two steps later its directory has been removed. -/
theorem listing_intact_iff_removed :
    ListsIntact (.constant [7]) Sodium.transparent false sampleWorld.disk.keyPairs "repository"
      (sampleKilled 10).state := by
  have hlast : (sampleKilled 10).labels.getLast? = some (.removeDirectory ⟨1⟩) := by decide +kernel
  exact (listing_intact_iff fresh_sampleWorld.created history_sampleKilled (SameDisk.refl _)
    (sampleKilled_mem 10) hlast id (SameDisk.refl _) "repository").mpr ⟨⟨1⟩, rfl⟩

end Controller

end Diffmonger
