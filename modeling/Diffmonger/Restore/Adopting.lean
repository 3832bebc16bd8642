import Diffmonger.Restore.Export

/-!
# Imports that adopt snapshots

Every node is restored to the scratch dataset before the import command stores it in the
destination. Restoring a node rolls the dataset back to the parent's snapshot, which destroys all
later ones. As the nodes come in ascending order, the parent of the next one is never among these.

Main result: `export_reproduces`. Its invariant `Exported` says, of the nodes that have been
treated, that the destination holds copies of them, and that the scratch dataset is in order and
holds the snapshots on the path of the last one (`fenwick.Traces`). Restoring and importing one node
takes this to the nodes up to that one (`wp_restoreNode_adopts`), with the rule for restoring from
`Restore/Export` and the one for importing from `Controller/Import`.
-/

namespace Diffmonger

open Prog RepositoryStructure EncryptionUtil

variable {β γ S σ : Type}

namespace Controller

/-!
## One node

The import command finds the restored snapshot in the dataset and stores it under the same id. With
this, the destination is one node ahead, and the dataset is ready for the next node (`Exported`).
-/

section
variable {driver : BackendDriver β S} {snapshots : β → List S}

/-- What has been exported once the given nodes have been. -/
structure Exported (driver : BackendDriver β S) (snapshots : β → List S) (ids : ℕ → S)
    (source : Disk) (keyPairs : Except Exn (List KeyPair)) (treated : List Node)
    (w : World (Scratch β)) : Prop where
  source : w.disk = source
  dataset : ∀ last, treated.getLast? = some last →
    fenwick.Traces (fun id => (driver.getNode id).toNat) ids last.toNat
      (snapshots w.backend.dataset)
  copied : ∀ node ∈ treated, ∃ blob, w.backend.destination.snapshots node =
    some ⟨some (driver.encoded (ids node.toNat)).serialise, some blob⟩
  absent : ∀ node ∉ treated, w.backend.destination.snapshots node = none
  breadcrumb : ∃ b, w.backend.destination.readBreadcrumb = .ok b ∧
    ∀ last, treated.getLast? = some last → b.untrustedBegin.toNat = last.toNat + 1
  initargs : ∀ repository, ∃ args, w.backend.destination.readInitargs repository = .ok args
  keyPairs : w.backend.destination.keyPairs = keyPairs
  adopts : ∀ run ∈ w.backend.imports, Adopts driver snapshots run

section
variable {n : ℕ} {ids : ℕ → S} {source : Disk} {keyPairs : Except Exn (List KeyPair)}
  {treated rest : List Node} {node : Node} {w : World (Scratch β)} {tr : List Event}

/-- What the import command needs is there. -/
theorem Exported.importable (hsource : Exportable driver n ids source)
    (hnodes : AliveNodes n (treated ++ node :: rest))
    (hw : Exported driver snapshots ids source keyPairs treated w) {b : β}
    (htraces : fenwick.Traces (fun id => (driver.getNode id).toNat) ids node.toNat (snapshots b)) :
    Importable driver snapshots (ids node.toNat) w.backend.destination b := by
  have halive : node.toNat ∈ fenwick.alive n := (hnodes.mem_iff node).mp (by simp)
  refine ⟨htraces.path _ (fenwick.self_mem_path _), ?_, ?_, ?_⟩
  · rw [hsource.getNode_eq halive]
    exact hw.absent node hnodes.notMem_before
  · rw [hsource.getNode_eq halive]
    exact (halive.1.trans_lt hsource.bound).trans (by decide)
  · rw [hsource.getNode_eq halive]
    intro hroot
    have hparent := hnodes.parent_mem hroot
    have hpath : node.fenwickParent.toNat ∈ fenwick.path node.toNat :=
      ⟨1, (Node.toNat_fenwickParent node).symm⟩
    obtain ⟨blob, hdir⟩ := hw.copied _ hparent
    refine ⟨_, htraces.path _ hpath, readId_of_dir ?_ hdir⟩
    exact hsource.getNode_eq (fenwick.path_subset_alive_of_mem halive hpath)

/-- The node has been adopted. -/
theorem Exported.adopted (hsource : Exportable driver n ids source)
    (hnodes : AliveNodes n (treated ++ node :: rest))
    (hw : Exported driver snapshots ids source keyPairs treated w) {b : β}
    (htraces : fenwick.Traces (fun id => (driver.getNode id).toNat) ids node.toNat (snapshots b))
    {run : Outcome Event (World β) Exn Unit} (hrun : Adopts driver snapshots run) (blob : Bytes) :
    Exported driver snapshots ids source keyPairs (treated ++ [node])
      { w with backend :=
        ⟨b, w.backend.destination.stored (driver.encoded (ids node.toNat)) blob,
          w.backend.imports ++ [run]⟩ } := by
  have halive : node.toNat ∈ fenwick.alive n := (hnodes.mem_iff node).mp (by simp)
  have hid : (driver.encoded (ids node.toNat)).node = node := by
    rw [driver.node_encoded, hsource.getNode_eq halive]
  have hlast {last : Node} (h : (treated ++ [node]).getLast? = some last) : last = node := by
    rw [List.getLast?_concat] at h
    exact (Option.some.inj h).symm
  -- The destination has one node more, and all others are as they were.
  refine ⟨hw.source, fun last h => ?_, fun m hm => ?_, fun m hm => ?_, ⟨_, Disk.readBreadcrumb_stored ..,
    fun last h => ?_⟩, hw.initargs, hw.keyPairs, fun run' hrun' => ?_⟩
  · rw [hlast h]
    exact htraces
  · rcases eq_or_ne m node with rfl | hne
    · refine ⟨blob, ?_⟩
      have hself := Disk.stored_snapshots_self w.backend.destination (driver.encoded (ids m.toNat)) blob
      rwa [hid] at hself
    · have hmem : m ∈ treated := (List.mem_append.mp hm).resolve_right fun h =>
        hne (List.mem_singleton.mp h)
      rw [Disk.stored_snapshots_of_ne _ _ _ (by rwa [hid])]
      exact hw.copied m hmem
  · rw [List.mem_append, List.mem_singleton, not_or] at hm
    rw [Disk.stored_snapshots_of_ne _ _ _ (by rw [hid]; exact hm.2)]
    exact hw.absent m hm.1
  · rw [hlast h, hid]
    have hlt := halive.1.trans_lt hsource.bound
    exact Node.toNat_ofNat (by omega)
  · rcases List.mem_append.mp hrun' with hmem | hmem
    · exact hw.adopts run' hmem
    · exact List.mem_singleton.mp hmem ▸ hrun

variable [DecidableEq S] {sodium : Sodium σ} {env : Env} {params : RepositoryParams}
  {repository : String} {memory : RepositoryStructure}

/-- The import command adopts the snapshot that has been restored. -/
theorem wp_runImportCommand_adopts (h : LinearHistory driver snapshots) {id : S}
    (hid : Importable driver snapshots id w.backend.destination w.backend.dataset)
    (hargs : ∃ args, w.backend.destination.readInitargs repository = .ok args)
    (hread : ∃ breadcrumb, w.backend.destination.readBreadcrumb = .ok breadcrumb)
    (hcan : CanEncrypt sodium params w.backend.destination.keyPairs) :
    (runImportCommand driver.onScratch (adoptCommand driver repository sodium env params memory)
        id).wp (AtLast (RestoresBased driver snapshots))
      (fun r _ w' => r = .val () ∧ ∃ run blob b, Adopts driver snapshots run ∧
        snapshots b = snapshots w.backend.dataset ∧
        w' = { w with backend := ⟨b, w.backend.destination.stored (driver.encoded id) blob,
          w.backend.imports ++ [run]⟩ }) tr w := by
  obtain ⟨run, blob, b, hrun, hkeeps, hcall⟩ := adoptCommand_stores h hid hargs hread hcan
  refine wp_post ?_ (wp_runImportCommand_ok hcall)
  rintro r tr _ ⟨rfl, rfl⟩
  exact ⟨rfl, run, blob, b, hrun, hkeeps, rfl⟩

/-- The dataset of an export that adopts what it restores is ready for the next node. -/
theorem Exported.traces (hsource : Exportable driver n ids source)
    (hnodes : AliveNodes n (treated ++ node :: rest))
    (hw : Exported driver snapshots ids source keyPairs treated w) :
    (node ≠ Node.initialValue →
      ids (fenwick.parent node.toNat) ∈ snapshots w.backend.dataset) ∧
    fenwick.Traces (fun id => (driver.getNode id).toNat) ids node.toNat
      (restored ids node (snapshots w.backend.dataset)) := by
  have halive : node.toNat ∈ fenwick.alive n := (hnodes.mem_iff node).mp (by simp)
  by_cases hroot : node = Node.initialValue
  · refine ⟨fun hne => absurd hroot hne, ?_⟩
    rw [restored, if_pos hroot, hroot]
    exact Retention.traces_root
  · obtain ⟨last, hlast, hle, hlt⟩ := hnodes.exists_last hroot
    have htraces := hw.dataset last hlast
    rw [Node.toNat_fenwickParent] at hle
    refine ⟨fun _ => htraces.parent_mem hle hlt, ?_⟩
    rw [restored, if_neg hroot]
    exact htraces.extend hle hlt fun a ha =>
      hsource.getNode a (fenwick.path_subset_alive_of_mem halive ha)

/-- A node is restored, and then adopted. -/
theorem wp_restoreNode_adopts (h : LinearHistory driver snapshots)
    (hsource : Exportable driver n ids source) {key : Option DecryptedKeyPair}
    (hkey : DecryptsPayloads sodium key source) (hcan : CanEncrypt sodium params keyPairs)
    (hnodes : AliveNodes n (treated ++ node :: rest))
    (hw : Exported driver snapshots ids source keyPairs treated w) :
    (restoreNode driver.onScratch sodium key false (runImportCommand driver.onScratch
        (adoptCommand driver repository sodium env params memory)) node).wp
      (AtLast (RestoresBased driver snapshots))
      (fun r _ w' => r = .val () ∧
        Exported driver snapshots ids source keyPairs (treated ++ [node]) w') tr w := by
  have halive : node.toNat ∈ fenwick.alive n := (hnodes.mem_iff node).mp (by simp)
  obtain ⟨hparent, htraces⟩ := hw.traces hsource hnodes
  obtain rfl := hw.source
  refine wp_restoreNode h hsource hkey halive hparent fun b tr hb => ?_
  rw [← hb] at htraces
  have himportable := hw.importable hsource hnodes htraces
  refine wp_post ?_ (wp_runImportCommand_adopts (w := w.withDataset b) h himportable
    (hw.initargs repository) (hw.breadcrumb.imp fun _ => And.left) (hw.keyPairs ▸ hcan))
  rintro r tr _ ⟨rfl, run, blob, b', hrun, hkeeps, rfl⟩
  exact ⟨rfl, hw.adopted hsource hnodes (b := b') (hkeeps ▸ htraces) hrun blob⟩

/-- All nodes are adopted. -/
theorem wp_adoptNodes (h : LinearHistory driver snapshots)
    (hsource : Exportable driver n ids source) {key : Option DecryptedKeyPair}
    (hkey : DecryptsPayloads sodium key source) (hcan : CanEncrypt sodium params keyPairs)
    (hw : Exported driver snapshots ids source keyPairs [] w) {nodes : List Node}
    (hnodes : AliveNodes n nodes) :
    (forM nodes (restoreNode driver.onScratch sodium key false (runImportCommand driver.onScratch
        (adoptCommand driver repository sodium env params memory)))).wp
      (AtLast (RestoresBased driver snapshots))
      (fun r _ w' => r = .val () ∧ ∃ nodes, AliveNodes n nodes ∧
        Exported driver snapshots ids source keyPairs nodes w') tr w := by
  refine wp_forM (fun treated _ w => Exported driver snapshots ids source keyPairs treated w)
    nodes ?_ (fun _ _ hw => ⟨rfl, nodes, hnodes, hw⟩) hw
  rintro treated node rest rfl tr w hw
  refine wp_post ?_ (wp_restoreNode_adopts h hsource hkey hcan hnodes hw)
  rintro r tr w ⟨rfl, hw⟩
  exact hw

end

end

/-!
## The whole export

The invariant after the last node is what is to be shown: every node of the source has been copied,
none besides, and the breadcrumb names the one after the last.
-/

/-- The destination holds the nodes of the source, with the same ids, and trusts those before `n`.
-/
structure Reproduces (n : Node) (source destination : Disk) : Prop where
  nodes : ∀ node, (destination.snapshots node).isSome ↔ (source.snapshots node).isSome
  ids : ∀ node, destination.idFile node = source.idFile node
  breadcrumb : ∃ b, destination.readBreadcrumb = .ok b ∧ b.untrustedBegin.toNat = n.toNat + 1

section
variable {driver : BackendDriver β S} {snapshots : β → List S}

/-- Once all nodes have been treated. -/
theorem Exported.reproduces {n : Node} {ids : ℕ → S} {source : Disk}
    {keyPairs : Except Exn (List KeyPair)} {nodes : List Node} {w : World (Scratch β)}
    (hsource : Exportable driver n.toNat ids source) (hnodes : AliveNodes n.toNat nodes)
    (hw : Exported driver snapshots ids source keyPairs nodes w) :
    Reproduces n source w.backend.destination := by
  have hdirs (node : Node) : (∃ blob blob',
      w.backend.destination.snapshots node = some ⟨some (driver.encoded (ids node.toNat)).serialise, some blob⟩ ∧
      source.snapshots node = some ⟨some (driver.encoded (ids node.toNat)).serialise, some blob'⟩) ∨
      (w.backend.destination.snapshots node = none ∧ source.snapshots node = none) := by
    by_cases hmem : node ∈ nodes
    · obtain ⟨blob, hdir⟩ := hw.copied node hmem
      obtain ⟨blob', hdir'⟩ := hsource.dir node ((hnodes.mem_iff node).mp hmem)
      exact .inl ⟨blob, blob', hdir, hdir'⟩
    · refine .inr ⟨hw.absent node hmem, ?_⟩
      rwa [← Option.not_isSome_iff_eq_none, ← Disk.toNat_mem_nodes, hsource.nodes,
        ← hnodes.mem_iff]
  refine ⟨fun node => ?_, fun node => ?_, ?_⟩
  · rcases hdirs node with ⟨_, _, hdir, hdir'⟩ | ⟨hdir, hdir'⟩
    · simp [hdir, hdir']
    · simp [hdir, hdir']
  · rcases hdirs node with ⟨_, _, hdir, hdir'⟩ | ⟨hdir, hdir'⟩
    · simp [Disk.idFile, hdir, hdir']
    · simp [Disk.idFile, hdir, hdir']
  · obtain ⟨b, hread, hbegin⟩ := hw.breadcrumb
    exact ⟨b, hread, hbegin n hnodes.getLast⟩

/-- Exporting a repository that completed snapshot commands have left, the last of which stored the
node `n`, to one that has just been created: the export completes. Whenever a difference is restored
to the scratch dataset, or is asked for by the import command, both of its snapshots are in the
dataset. At the end the destination holds the nodes of the source, with the same ids, and its first
untrusted node is the one after `n`. -/
theorem export_reproduces [DecidableEq S] (h : LinearHistory driver snapshots) {source : BackendDriver γ S}
    (hencoded : ∀ id, source.encoded id = driver.encoded id) {sodium : Sodium σ}
    {IsKeyPair : ByteArray' 32 → ByteArray' 32 → Prop} {InStep : σ → σ → Prop}
    (hsodium : sodium.Correct IsKeyPair InStep) {sourceParams : RepositoryParams} {w₀ w : World γ}
    {as : List (Attempt Event (World γ) Exn Unit)} (h₀ : Created w₀.disk)
    (hist : History (snapshotCommandsOf source sodium sourceParams.encryption) SameDisk
      Attempt.Completed w₀ as w) {n : Node}
    (hn : (committed (Attempt.allLabels as)).getLast? = some n) {exportParams : ExportParams}
    (hcommand : exportParams.importCommand ≠ [])
    (hpassword : sourceParams.encryption = true → ∃ password,
      exportParams.password = some password ∧ KeyFits sodium IsKeyPair password w₀.disk.keyPairs)
    {destination : Disk} (hdestination : Created destination) {params : RepositoryParams}
    (hprivate : params.encryption = true → HasPrivateKeys IsKeyPair destination.keyPairs)
    {env envExport : Env} (hfuel : 0 < envExport.fuel) (repository repositoryExport : String)
    (memory memoryExport : RepositoryStructure) (dataset : β) :
    let export' := exportRepositoryCommand driver.onScratch sodium repositoryExport
      (adoptCommand driver repository sodium env params memory) envExport sourceParams exportParams
    let start : World (Scratch β) := ⟨w.disk, memoryExport, dataset, destination, []⟩
    let scratch := (stateAfter start (export'.run start).steps).backend
    (export'.run start).result = .val () ∧
      (∀ step ∈ (export'.run start).steps, RestoresBased driver snapshots step.1 step.2) ∧
      (∀ run ∈ scratch.imports, Adopts driver snapshots run) ∧
      Reproduces n w.disk scratch.destination := by
  intro export' start scratch
  have hempty : Stocked (fun _ _ => True) 0 destination := stocked_of_created hdestination
  have hwp : export'.wp (AtLast (RestoresBased driver snapshots))
      (fun r _ w' => r = .val () ∧ ∃ ids nodes, Exportable driver n.toNat ids w.disk ∧
        AliveNodes n.toNat nodes ∧
        Exported driver snapshots ids w.disk destination.keyPairs nodes w') [] start := by
    refine wp_export_of_completed hencoded hsodium h₀ hist hn hcommand hpassword hfuel
      repositoryExport rfl fun ids key w' hsource hkey hdisk hbackend nodes tr hnodes => ?_
    rw [show w'.disk = w.disk from hdisk] at hsource hkey
    -- Nothing has been exported yet, and the destination is empty.
    have hw : Exported driver snapshots ids w.disk destination.keyPairs [] w' := by
      obtain ⟨b, hread, -⟩ := hempty.aligned
      refine ⟨hdisk, nofun, nofun, fun node _ => ?_, ?_, ?_, ?_, ?_⟩ <;> rw [hbackend]
      · rw [← Option.not_isSome_iff_eq_none, ← Disk.toNat_mem_nodes, hempty.nodes]
        exact Set.notMem_empty _
      · exact ⟨b, hread, nofun⟩
      · exact hempty.initargs
      · exact nofun
    refine wp_post ?_ (wp_adoptNodes h hsource hkey (HasPrivateKeys.canEncrypt hsodium hprivate) hw
      hnodes)
    rintro r tr w' ⟨rfl, nodes, hnodes, hend⟩
    exact ⟨rfl, ids, nodes, hsource, hnodes, hend⟩
  -- What holds of the last step of a program that is cut anywhere holds of all its steps.
  obtain ⟨hresult, ids, nodes, hsource, hnodes, hend⟩ := wp_run hwp
  exact ⟨hresult, fun step hstep => of_mem_steps hwp hstep, hend.adopts,
    hend.reproduces hsource hnodes⟩

end

/-- A new repository, and a dataset without snapshots. -/
def sampleSource : World (List Encoded) := ⟨sampleWorld.disk, sampleWorld.repositoryStructure, []⟩

def sampleSourceCommand : Repo (List Encoded) Unit :=
  snapshotCommand .linear "repository" .transparent sampleEnv ⟨false, 0⟩

def sampleExport : Repo (Scratch (List Encoded)) Unit :=
  exportRepositoryCommand BackendDriver.linear.onScratch .transparent "repository"
    (adoptCommand .linear "mirror" .transparent sampleEnv ⟨false, 0⟩ sampleWorld.repositoryStructure)
    sampleEnv ⟨false, 0⟩ ⟨none, ["import"]⟩

/-- After five commands, the node 1 has been pruned, and is not exported. -/
theorem export_reproduces_five :
    let source := (Attempt.repeated sampleSourceCommand sampleSource 5).2
    let start : World (Scratch (List Encoded)) :=
      ⟨source.disk, sampleWorld.repositoryStructure, [], sampleWorld.disk, []⟩
    Reproduces ⟨4⟩ source.disk (stateAfter start (sampleExport.run start).steps).backend.destination := by
  intro source start
  have hcommand : sampleSourceCommand ∈ snapshotCommandsOf .linear Sodium.transparent false :=
    ⟨"repository", sampleEnv, ⟨false, 0⟩, rfl, rfl⟩
  have hist : History (snapshotCommandsOf .linear Sodium.transparent false) SameDisk
      Attempt.Completed sampleSource (Attempt.repeated sampleSourceCommand sampleSource 5).1 source :=
    .repeated hcommand SameDisk.refl _ fun i hi => ⟨rfl, (), by revert i; decide +kernel⟩
  have hcreated : Created sampleWorld.disk := fresh_sampleWorld.created
  exact (@export_reproduces _ _ _ _ _ _ _ linearHistory_linear _ (fun _ => rfl) _ _ _
    Sodium.transparent_correct ⟨false, 0⟩ _ _ _ hcreated hist ⟨4⟩ (by decide +kernel)
    ⟨none, ["import"]⟩ (by decide) nofun _ hcreated ⟨false, 0⟩ nofun sampleEnv sampleEnv (by decide)
    "mirror" "repository" sampleWorld.repositoryStructure sampleWorld.repositoryStructure []).2.2.2

end Controller

end Diffmonger
