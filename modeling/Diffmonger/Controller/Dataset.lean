import Diffmonger.Controller.Crash
import Diffmonger.Controller.Directory
import Diffmonger.ZfsDriver.Spec

/-!
# The dataset beside the repository

The snapshots that the ZFS driver keeps in the dataset, under a run of snapshot commands during
which nothing goes wrong. The commands prune the repository, but none of them ever removes a
snapshot from the dataset.

Main result: `dataset_pruned_iff`. The invariant `Accumulated` of completed commands says that all
snapshots that have been taken are still there, while the repository holds what is alive. The two
agree as long as no node has died. That the snapshot of a node that is deleted stays has one reason:
`pruneNode` asks for the id of the node when the node's directory is gone already.
-/

namespace Diffmonger

open Prog RepositoryStructure Zfs ZfsDriver

variable {β σ γ : Type}

namespace Controller

/-!
## What a program leaves alone

Of all steps, only those that take or remove a snapshot matter here; all others keep what is seen of
the dataset, and so does a program that consists of them.
-/

/-- A step that does not change what `view` sees of the world. -/
def Preserves (view : World β → γ) (_ : Event) (update : World β → World β) : Prop :=
  ∀ w, view (update w) = view w

/-- What of a world matters to the snapshots of the dataset: they themselves, and the repository's
identity. -/
def outside {δ : Type} (snapshots : β → δ) (w : World β) : δ × Option Bytes :=
  (snapshots w.backend, w.disk.uuid)

/-- No step on the directory touches the repository's identity. -/
theorem uuid_apply (event : Event) (disk : Disk) : (event.apply disk).uuid = disk.uuid := by
  cases event <;> rfl

section
variable {δ : Type} {snapshots : β → δ} {S : Type} {driver : BackendDriver β S}

theorem onDirectory_preserves : OnDirectory (Preserves (outside snapshots)) where
  look _ := rfl
  perform event _ w := congrArg (Prod.mk _) (uuid_apply event w.disk)
  remember _ _ := rfl
  writeBreadcrumb _ _ := rfl

theorem preserves_callBackend {ρ : Type} (call : BackendCall) {method : β → ρ × β}
    (h : ∀ b, snapshots (method b).2 = snapshots b) :
    (callBackend call method).Emits (Preserves (outside snapshots)) :=
  (emits_readModify ..).mpr fun w => congrArg (·, w.disk.uuid) (h w.backend)

/-- A driver whose methods other than `snapshot` and `removeSnapshot` leave the snapshots alone. -/
structure Sends (driver : BackendDriver β S) (snapshots : β → δ) : Prop where
  existsSnapshot : ∀ id b, snapshots (driver.existsSnapshot id b).2 = snapshots b
  initial : ∀ id b, snapshots (driver.initial id b).2 = snapshots b
  diff : ∀ parent id b, snapshots (driver.diff parent id b).2 = snapshots b

theorem preserves_parentSnapshot
    (h : ∀ id b, snapshots (driver.existsSnapshot id b).2 = snapshots b) (node : Node) :
    (parentSnapshot driver node).Emits (Preserves (outside snapshots)) := by
  apply onDirectory_preserves.emits_parentSnapshot
  · exact fun _ => emits_bind (preserves_callBackend _ fun _ => rfl) fun _ => by simp
  · exact fun id => emits_bind (preserves_callBackend _ (h id)) fun _ => by simp

theorem Sends.storeSnapshot (h : Sends driver snapshots) (sodium : Sodium σ) (env : Env)
    (params : RepositoryParams) (id : S) (maybeParent : Option S) :
    (storeSnapshot driver sodium env params id maybeParent).Emits
      (Preserves (outside snapshots)) :=
  onDirectory_preserves.emits_storeSnapshot (fun id => preserves_callBackend _ (h.initial id))
    (fun parent id => preserves_callBackend _ (h.diff parent id)) sodium env params id maybeParent

end

/-!
## The snapshots that accumulate

A snapshot is identified by its name, which is made of the number of the node and the identity of
the repository. Nodes of different numbers have different names, so that the dataset can be
described by a set of numbers.
-/

section
variable {system : System β} {impl : ZfsBackendDriverImpl}
  {snapshots : β → SnapshotName → Option SnapshotGuid}

theorem sends (h : FaultFree system impl.toDataset snapshots) :
    Sends (impl.driver system) snapshots :=
  ⟨ZfsBackendDriverImpl.keeps_existsSnapshot h.keeps_zfsGetGuid, ZfsBackendDriverImpl.initial_keeps h,
    ZfsBackendDriverImpl.diff_keeps h⟩

/-- The nodes whose snapshot is in the dataset. -/
def datasetNodes (snapshots : β → SnapshotName → Option SnapshotGuid) (uuid : Uuid) (b : β) : Set ℕ :=
  {k | ∃ node : Node, node.toNat = k ∧ (snapshots b (nameOf node uuid)).isSome}

/-- The snapshot of one more node. -/
theorem datasetNodes_update {uuid : Uuid} {b b' : β} {node : Node} {guid : SnapshotGuid}
    (h : snapshots b' = Function.update (snapshots b) (nameOf node uuid) (some guid)) :
    datasetNodes snapshots uuid b' = insert node.toNat (datasetNodes snapshots uuid b) := by
  ext k
  constructor
  · rintro ⟨m, rfl, hm⟩
    rcases eq_or_ne m node with rfl | hne
    · exact Set.mem_insert _ _
    · rw [h, Function.update_of_ne fun heq => hne (nameOf_injective heq)] at hm
      exact Or.inr ⟨m, rfl, hm⟩
  · rintro (rfl | ⟨m, rfl, hm⟩)
    · exact ⟨node, rfl, by rw [h, Function.update_self]; rfl⟩
    · refine ⟨m, rfl, ?_⟩
      rw [h]
      rcases eq_or_ne m node with rfl | hne
      · rw [Function.update_self]
        rfl
      · rwa [Function.update_of_ne fun heq => hne (nameOf_injective heq)]

/-- The identity of the repository. -/
def HasUuid (file : Option Bytes) (uuid : Uuid) : Prop :=
  ∃ bytes rest, file = some bytes ∧ Ioutil.readBytesExact 16 bytes = .ok (uuid, rest)

theorem wp_getRepositoryUuid {uuid : Uuid} {w : World β} (h : HasUuid w.disk.uuid uuid)
    {I : List Event → World β → Prop} {Q : Result Exn Uuid → List Event → World β → Prop}
    {tr : List Event} :
    (getRepositoryUuid : Repo β Uuid).wp I Q tr w ↔
      I (tr ++ [.look]) w ∧ Q (.val uuid) (tr ++ [.look]) w := by
  obtain ⟨bytes, rest, hfile, hread⟩ := h
  simp only [getRepositoryUuid, wp_bind, wp_look, bindPost, id, hfile, hread, wp_ofExcept]
  rfl

/-- Taking the snapshot of a node that has none. -/
theorem wp_takeSnapshot (h : FaultFree system impl.toDataset snapshots) {u : Node} {uuid : Uuid}
    {w : World β} (hnone : snapshots w.backend (nameOf u uuid) = none) (tr : List Event) :
    (takeSnapshot (impl.driver system) u uuid).wp (fun _ _ => True)
      (onVal fun _ _ w' => w'.disk = w.disk ∧ datasetNodes snapshots uuid w'.backend =
        insert u.toNat (datasetNodes snapshots uuid w.backend)) tr w := by
  obtain ⟨guid, b', heq, hb'⟩ := ZfsBackendDriverImpl.snapshot_eq h hnone
  refine (wp_bind_onVal _ _).mpr ⟨trivial, ?_⟩
  have hcall : (impl.driver system).snapshot u uuid w.backend = _ := heq
  simp only [hcall]
  exact ⟨rfl, datasetNodes_update hb'⟩

/-- One iteration of `snapshot` adds the snapshot of the next node to the dataset, if it returns. -/
theorem wp_snapshot_dataset (h : FaultFree system impl.toDataset snapshots) {sodium : Sodium σ}
    {env : Env} {params : RepositoryParams} {u : Node} {uuid : Uuid} {w : World β}
    (hnode : w.repositoryStructure.breadcrumb.untrustedBegin = u) (hu : u.toNat ≤ 2 ^ 63)
    (habsent : w.disk.readId u = .ok none) (huuid : HasUuid w.disk.uuid uuid)
    (hnone : snapshots w.backend (nameOf u uuid) = none) (tr : List Event) :
    (_snapshot (impl.driver system) sodium env params).wp (fun _ _ => True)
      (onVal fun _ _ w' => w'.disk.uuid = w.disk.uuid ∧
        datasetNodes snapshots uuid w'.backend =
          insert u.toNat (datasetNodes snapshots uuid w.backend)) tr w := by
  -- what follows the snapshot of the node leaves the dataset alone
  have hkeeps {α : Type} {p : Repo β α} (hp : p.Emits (Preserves (outside snapshots)))
      (w : World β) (tr : List Event) : p.wp (fun _ _ => True)
        (onVal fun _ _ w' => outside snapshots w' = outside snapshots w) tr w := by
    refine wp_mono (fun _ _ _ => trivial) (fun r _ _ hr => onVal_iff.mpr fun _ _ => hr) _
      (wp_of_emits (R := fun _ w' => outside snapshots w' = outside snapshots w) hp
        (fun l u _ w' hu hw' => (hu w').trans hw') rfl)
  -- pruning takes place in the directory only
  refine wp_snapshotIteration_pruned hnode habsent hu (fun _ _ _ => trivial)
    (fun _ _ r _ hr => onVal_iff.mpr fun b hb => absurd hb (hr b)) fun ls _ _ => ?_
  rw [← wp_bind]
  simp only [nextSnapshot, bind_assoc, pure_bind]
  refine wp_bind_of_onVal (hkeeps (preserves_parentSnapshot (sends h).existsSnapshot u) _ _) ?_
  intro maybeParent tr₂ w₂ hw₂
  obtain ⟨hsnapshots, hfile⟩ := Prod.mk.inj hw₂
  rw [wp_bind_onVal, wp_getRepositoryUuid (by rw [hfile]; exact huuid)]
  refine ⟨trivial, ?_⟩
  simp only [onVal]
  refine wp_bind_of_onVal (wp_takeSnapshot h (by rw [hsnapshots]; exact hnone) _) ?_
  rintro ⟨id, old⟩ tr₃ w₃ ⟨hdisk, hnodes⟩
  refine wp_bind_of_onVal (hkeeps ((sends h).storeSnapshot sodium env params id maybeParent) _ _) ?_
  intro _ tr₄ w₄ hw₄
  obtain ⟨hsnapshots', hfile'⟩ := Prod.mk.inj hw₄
  refine ⟨hfile'.trans ((congrArg Disk.uuid hdisk).trans hfile), ?_⟩
  rw [datasetNodes, hsnapshots', ← datasetNodes, hnodes, datasetNodes, hsnapshots]
  rfl

/-- What one iteration of `snapshot` has done once it returns: it has stored the next node, and has
deleted only nodes that die with it. -/
theorem wp_snapshot_labels {S : Type} {driver : BackendDriver β S} {sodium : Sodium σ} {env : Env}
    {params : RepositoryParams} {u : Node} {w : World β}
    (hnode : w.repositoryStructure.breadcrumb.untrustedBegin = u) (hu : u.toNat ≤ 2 ^ 63)
    (habsent : w.disk.readId u = .ok none) (tr : List Event) :
    (_snapshot driver sodium env params).wp (fun _ _ => True)
      (onVal fun _ tr' _ => committed tr' = committed tr ++ [u] ∧
        (∃ b, tr'.getLast? = some (.writeBreadcrumb b)) ∧
        ∀ node, .removeDirectory node ∈ tr' →
          .removeDirectory node ∈ tr ∨ node.toNat ∈ fenwick.dying u.toNat) tr w := by
  refine wp_snapshotIteration hnode habsent hu (fun _ _ _ => trivial)
    (fun _ _ r _ hr => onVal_iff.mpr fun b hb => absurd hb (hr b)) ?_
  intro ls w' encoded old hw' hlt _ hid _ _ _
  rw [wp_commitRename hid (by omega), wp_writeBreadcrumb]
  refine ⟨trivial, trivial, trivial, ?_,
    ⟨⟨Node.ofNat (u.toNat + 1), encoded.timestamp⟩, by simp⟩, fun node hmem => ?_⟩
  · rw [List.append_assoc, committed_append, committed_append, committed_of_prepares hw'.prepares,
      List.append_nil]
    rfl
  · rw [List.append_assoc, List.mem_append, List.mem_append] at hmem
    rcases hmem with (hmem | hmem) | hmem
    · exact .inl hmem
    · exact .inr (hw'.prepares _ hmem)
    · simp at hmem

/-- The repository and the dataset between two commands that ran to the end. -/
structure Accumulated (snapshots : β → SnapshotName → Option SnapshotGuid) (uuid : Uuid)
    (tr : List Event) (w : World β) : Prop where
  identity : HasUuid w.disk.uuid uuid
  /-- Every snapshot that has been taken is still there. -/
  dataset : datasetNodes snapshots uuid w.backend = Set.Iio (committed tr).length
  nodes : ∀ n, (committed tr).length = n + 1 → w.disk.nodes = fenwick.alive n
  deleted : ∀ node, .removeDirectory node ∈ tr →
    ∃ u < (committed tr).length, node.toNat ∈ fenwick.dying u

/-- One iteration adds the snapshot of its node, and deletes nothing from the dataset. -/
theorem Accumulated.iteration (h : FaultFree system impl.toDataset snapshots) {sodium : Sodium σ}
    {env : Env} {params : RepositoryParams} {uuid : Uuid} {tr : List Event} {w : World β}
    (hw : Accumulated snapshots uuid tr w) (htracked : Tracked tr w) (hbal : Balanced tr) :
    (_snapshot (impl.driver system) sodium env params).wp (fun _ _ => True)
      (onVal fun _ tr' w' => Accumulated snapshots uuid tr' w' ∧ Tracked tr' w' ∧ Balanced tr') tr
      w := by
  obtain ⟨hbegin, hnext⟩ := htracked.readId_next hbal
  have hle := hbegin.trans_le htracked.numbered.bound
  have hnone : snapshots w.backend
      (nameOf w.repositoryStructure.breadcrumb.untrustedBegin uuid) = none := by
    rw [← Option.not_isSome_iff_eq_none]
    intro hsome
    have hmem : w.repositoryStructure.breadcrumb.untrustedBegin.toNat ∈
        datasetNodes snapshots uuid w.backend := ⟨_, rfl, hsome⟩
    rw [hw.dataset, hbegin] at hmem
    exact lt_irrefl _ (Set.mem_Iio.mp hmem)
  refine wp_mono (fun _ _ _ => trivial) ?_ _
    (wp_and (wp_and (wp_snapshot_dataset h rfl hle hnext hw.identity hnone tr)
      (wp_snapshot_labels rfl hle hnext tr)) (htracked.iteration hbal))
  rintro r tr' w' ⟨⟨hdataset, hlabels⟩, htracked'⟩
  refine onVal_iff.mpr fun b hb => ?_
  obtain ⟨huuid, hnodes⟩ := onVal_iff.mp hdataset b hb
  obtain ⟨hcommitted, ⟨b', hlast⟩, hdeleted⟩ := onVal_iff.mp hlabels b hb
  have hlength : (committed tr').length = (committed tr).length + 1 := by
    rw [hcommitted, List.length_append, List.length_singleton]
  refine ⟨⟨huuid ▸ hw.identity, ?_, fun n hn => ?_, fun node hmem => ?_⟩, htracked' b hb⟩
  · rw [hnodes, hw.dataset, hlength, hbegin]
    exact (Order.Iio_succ_eq_insert _).symm
  · exact ((htracked' b hb).1.numbered.complete b' n hlast hn).2.2
  · rcases hdeleted node hmem with hmem | hdying
    · obtain ⟨u, hu, hdying⟩ := hw.deleted node hmem
      exact ⟨u, by omega, hdying⟩
    · exact ⟨_, by rw [hlength, hbegin]; exact Nat.lt_succ_self _, hdying⟩

/-- Looking changes nothing. -/
theorem Accumulated.looks {uuid : Uuid} {tr ls : List Event} {w w' : World β}
    (h : Accumulated snapshots uuid tr w) (hls : ∀ l ∈ ls, l = .look) (hdisk : w'.disk = w.disk)
    (hbackend : w'.backend = w.backend) : Accumulated snapshots uuid (tr ++ ls) w' := by
  have hcommitted : committed (tr ++ ls) = committed tr := by
    have hprepares : ∀ l ∈ ls, l.Prepares ∅ := fun l hl => by
      rw [hls l hl]
      trivial
    rw [committed_append, committed_of_prepares hprepares, List.append_nil]
  refine ⟨hdisk ▸ h.identity, ?_, ?_, fun node hmem => ?_⟩
  · rw [hbackend, hcommitted]
    exact h.dataset
  · rw [hdisk, hcommitted]
    exact h.nodes
  · rw [hcommitted]
    rcases List.mem_append.mp hmem with hmem | hmem
    · exact h.deleted node hmem
    · cases hls _ hmem

/-- Opening the repository and taking the snapshot. -/
theorem Accumulated.command (h : FaultFree system impl.toDataset snapshots) {sodium : Sodium σ}
    {uuid : Uuid} {tr : List Event} {w : World β} {p : Repo β Unit}
    (hp : p ∈ snapshotCommands (impl.driver system) sodium) (hw : Accumulated snapshots uuid tr w)
    (hnum : Numbered tr w.disk) (hbal : Balanced tr) :
    p.wp (fun _ _ => True) (onVal fun _ tr' w' =>
      Accumulated snapshots uuid tr' w' ∧ Numbered tr' w'.disk ∧ Balanced tr') tr w := by
  obtain ⟨repository, env, params, rfl⟩ := hp
  rw [snapshotCommand, wp_bind_onVal]
  refine wp_openRepository repository (fun _ _ _ => trivial) (fun _ _ _ _ _ => trivial)
    fun ls args b hls hne _ hread => ⟨trivial, ?_⟩
  have hopened : Accumulated snapshots uuid (tr ++ ls) (w.opened repository args b) :=
    hw.looks hls rfl rfl
  obtain ⟨htracked, hbal'⟩ :=
    hnum.tracked_of_looks hbal hls hne (show (w.opened repository args b).disk = w.disk from rfl) hread
  refine wp_post ?_ (wp_snapshot (J := fun tr w =>
    Accumulated snapshots uuid tr w ∧ Tracked tr w ∧ Balanced tr) ?_ ⟨hopened, htracked, hbal'⟩)
  · intro r tr' w' hr
    refine onVal_iff.mpr fun _ hval => ?_
    exact ⟨(hr hval).1, (hr hval).2.1.numbered, (hr hval).2.2⟩
  · rintro tr' w' ⟨hw', htracked', hbal'⟩
    exact wp_post (fun _ _ _ => onVal_iff.mp) (hw'.iteration h htracked' hbal')

end

/-! ## Histories -/

/-- Between two commands nobody touches the repository or the dataset. -/
def SameDiskAndDataset (w w' : World β) : Prop := w'.disk = w.disk ∧ w'.backend = w.backend

/-- The dataset has been pruned together with the repository. -/
structure PrunedTogether (snapshots : β → SnapshotName → Option SnapshotGuid) (uuid : Uuid)
    (tr : List Event) (w : World β) : Prop where
  dataset : datasetNodes snapshots uuid w.backend = w.disk.nodes
  removed : ∀ node, .removeDirectory node ∈ tr →
    ∃ encoded, encoded.node = node ∧ .backend (.removeSnapshot encoded) ∈ tr

section
variable {system : System β} {impl : ZfsBackendDriverImpl} {sodium : Sodium σ}
  {snapshots : β → SnapshotName → Option SnapshotGuid}

/-- After completed snapshot commands. -/
theorem accumulated_of_completed (h : FaultFree system impl.toDataset snapshots) {w₀ w : World β}
    {as : List (Attempt Event (World β) Exn Unit)} (h₀ : Fresh w₀) {uuid : Uuid}
    (huuid : HasUuid w₀.disk.uuid uuid) (hempty : ∀ name, snapshots w₀.backend name = none)
    (hist : History (snapshotCommands (impl.driver system) sodium) SameDiskAndDataset
      Attempt.Completed w₀ as w) :
    Accumulated snapshots uuid (Attempt.allLabels as) w ∧
      Numbered (Attempt.allLabels as) w.disk ∧ Balanced (Attempt.allLabels as) := by
  refine History.labels_invariant (J := fun tr w => Accumulated snapshots uuid tr w ∧
    Numbered tr w.disk ∧ Balanced tr)
    ⟨⟨huuid, ?_, by simp [committed], by simp⟩, h₀.tracked.numbered, rfl⟩ ?_ ?_ hist
  · refine Set.Subset.antisymm ?_ fun k hk => absurd hk (Nat.not_lt_zero k)
    rintro k ⟨node, -, hsome⟩
    rw [hempty] at hsome
    cases hsome
  · rintro tr w w' ⟨hw, hnum, hbal⟩ ⟨hdisk, hbackend⟩
    have hlooks := hw.looks (List.forall_mem_nil _) hdisk hbackend
    rw [List.append_nil] at hlooks
    exact ⟨hlooks, hdisk ▸ hnum, hbal⟩
  · rintro a tr hp hcompleted ⟨hw, hnum, hbal⟩
    obtain ⟨_, hpost⟩ := hcompleted.post (hw.command h hp hnum hbal)
    exact hpost

/-- After completed snapshot commands, the last of which stored the node `n`, the repository holds
the nodes that are alive, whereas the dataset holds all nodes up to `n`: it has been pruned together
with the repository exactly if `n` is at most 3, and no node has been pruned yet. -/
theorem dataset_pruned_iff (h : FaultFree system impl.toDataset snapshots) {w₀ w : World β}
    {as : List (Attempt Event (World β) Exn Unit)} (h₀ : Fresh w₀) {uuid : Uuid}
    (huuid : HasUuid w₀.disk.uuid uuid) (hempty : ∀ name, snapshots w₀.backend name = none)
    (hist : History (snapshotCommands (impl.driver system) sodium) SameDiskAndDataset
      Attempt.Completed w₀ as w) {n : Node}
    (hn : (committed (Attempt.allLabels as)).getLast? = some n) :
    w.disk.nodes = n.aliveAfter.numbers ∧
      (PrunedTogether snapshots uuid (Attempt.allLabels as) w ↔ n.toNat ≤ 3) := by
  obtain ⟨hacc, hnum, -⟩ := accumulated_of_completed h h₀ huuid hempty hist
  have hlength := hnum.length_of_getLast hn
  have hlt : n.toNat < 2 ^ 63 := by
    have hbound := hnum.bound
    omega
  have hnodes := hacc.nodes n.toNat hlength
  refine ⟨hnodes.trans (Tree.aliveAfter_numbers hlt).symm, ?_, fun hle => ⟨?_, ?_⟩⟩
  · intro hpruned
    have hdataset := hpruned.dataset
    rw [hacc.dataset, hnodes, hlength] at hdataset
    exact Fenwick.alive_eq_Iio_iff.mp hdataset.symm
  · rw [hacc.dataset, hnodes, hlength]
    exact (Fenwick.alive_eq_Iio_iff.mpr hle).symm
  · intro node hmem
    obtain ⟨u, hu, hdying⟩ := hacc.deleted node hmem
    exact absurd hdying (Fenwick.notMem_dying_of_le (by omega))

end

/-! ## Runs on fixed inputs -/

/-- A new repository for a dataset without snapshots. -/
def sampleRepository (clock : List Int64) : World SamplePool :=
  ⟨sampleWorld.disk, sampleWorld.repositoryStructure, .empty clock⟩

def sampleSnapshotCommand : Repo SamplePool Unit :=
  snapshotCommand (sampleDriver.driver sampleSystem) "repository" .transparent sampleEnv ⟨false, 0⟩

theorem sampleSnapshotCommand_mem : sampleSnapshotCommand ∈
    snapshotCommands (sampleDriver.driver sampleSystem) Sodium.transparent :=
  ⟨"repository", sampleEnv, ⟨false, 0⟩, rfl⟩

theorem fresh_sampleRepository (clock : List Int64) : Fresh (sampleRepository clock) :=
  ⟨_, _, _, _, rfl, rfl⟩

theorem hasUuid_sampleRepository (clock : List Int64) :
    HasUuid (sampleRepository clock).disk.uuid (.replicate 16 0) := ⟨_, [], rfl, by decide⟩

/-- Four commands: nothing has been pruned yet. -/
theorem dataset_pruned_iff_four :
    let run := Attempt.repeated sampleSnapshotCommand (sampleRepository [])
    PrunedTogether SamplePool.snapshots (.replicate 16 0) (Attempt.allLabels (run 4).1)
      (run 4).2 := by
  intro run
  have hist : History (snapshotCommands (sampleDriver.driver sampleSystem) Sodium.transparent)
      SameDiskAndDataset Attempt.Completed (sampleRepository []) (run 4).1 (run 4).2 :=
    .repeated sampleSnapshotCommand_mem (fun _ => ⟨rfl, rfl⟩) _ fun i hi =>
      ⟨rfl, (), by revert i; decide +kernel⟩
  exact (dataset_pruned_iff SamplePool.faultFree (fresh_sampleRepository [])
    (hasUuid_sampleRepository []) (fun _ => rfl) hist (n := ⟨3⟩) (by decide +kernel)).2.mpr
    (by decide)

/-- The fifth command deletes the node 1, but not its snapshot. -/
theorem five_commands_not_prunedTogether :
    let run := Attempt.repeated sampleSnapshotCommand (sampleRepository [])
    History (snapshotCommands (sampleDriver.driver sampleSystem) Sodium.transparent)
        SameDiskAndDataset Attempt.Completed (sampleRepository []) (run 5).1 (run 5).2 ∧
      (committed (Attempt.allLabels (run 5).1)).getLast? = some ⟨4⟩ ∧
      ¬ PrunedTogether SamplePool.snapshots (.replicate 16 0) (Attempt.allLabels (run 5).1)
        (run 5).2 := by
  intro run
  have hist : History (snapshotCommands (sampleDriver.driver sampleSystem) Sodium.transparent)
      SameDiskAndDataset Attempt.Completed (sampleRepository []) (run 5).1 (run 5).2 :=
    .repeated sampleSnapshotCommand_mem (fun _ => ⟨rfl, rfl⟩) _ fun i hi =>
      ⟨rfl, (), by revert i; decide +kernel⟩
  obtain ⟨hacc, -⟩ := accumulated_of_completed SamplePool.faultFree (fresh_sampleRepository [])
    (hasUuid_sampleRepository []) (fun _ => rfl) hist
  have hlength : (committed (Attempt.allLabels (run 5).1)).length = 5 := by decide +kernel
  refine ⟨hist, by decide +kernel, fun hpruned => ?_⟩
  have hdataset := hpruned.dataset
  rw [hacc.dataset, hacc.nodes 4 hlength, hlength] at hdataset
  exact absurd (Fenwick.alive_eq_Iio_iff.mp hdataset.symm) (by decide)

end Controller

end Diffmonger
