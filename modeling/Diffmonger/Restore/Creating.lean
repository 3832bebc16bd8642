import Diffmonger.Controller.Dataset
import Diffmonger.Restore.Adopting

/-!
# Imports that create snapshots

With `create-snapshot=true` the import command does not adopt the snapshot that has been restored,
but takes another one of the same dataset. The export then restores the next node, and thereby rolls
the dataset back to the snapshot of the parent. What the import command has taken in the meantime is
discarded, and with it what the next difference should start from.

Main result: `export_creates_iff`. The initial node can be imported (`wp_restoreNode_creates`). The
node that comes next has the initial one as its parent: restoring it leaves the exporter's snapshots
of the two, while the import command looks for its own snapshot of the initial node, whose id is in
the destination, and does not find it (`wp_restoreNode_missing`). So with a second node the export
fails.
-/

namespace Diffmonger

open Prog RepositoryStructure EncryptionUtil

variable {β γ S σ : Type}

namespace Controller

/-!
## The import of one node

The import command takes a snapshot of what has been restored, as `snapshot` would, and stores it as
a difference to the parent's snapshot whose id the destination has. It fails if that snapshot has
been rolled back.
-/

section
variable [DecidableEq S] {driver : BackendDriver β S} {snapshots : β → List S} {sodium : Sodium σ}
  {env : Env} {params : RepositoryParams} {tr : List Event} {w : World β} {uuid : Uuid}

/-- Steps that do not ask for a difference do not matter to `P`. -/
def OnlyDiffs (P : Event → World β → Prop) : Prop :=
  ∀ event w, (∀ parent encoded, event ≠ .backend (.diff parent encoded)) → P event w

omit [DecidableEq S] in
theorem onlyDiffs_diffsBased : OnlyDiffs (DiffsBased driver snapshots) :=
  fun _ _ hne parent encoded heq => absurd heq (hne parent encoded)

section
variable {P : Event → World β → Prop} (hP : OnlyDiffs P)
include hP

/-- A new snapshot is put behind the others. -/
theorem wp_importedSnapshot_creates (h : LinearDataset driver snapshots)
    (huuid : HasUuid w.disk.uuid uuid) (hroom : (snapshots w.backend).length < 2 ^ 63)
    (encoded : Encoded) :
    (importedSnapshot driver true encoded).wp (AtLast P)
      (fun r _ w' => ∃ id b, r = .val id ∧ driver.getNode id = encoded.node ∧
        id ∉ snapshots w.backend ∧ snapshots b = snapshots w.backend ++ [id] ∧
        w' = { w with backend := b }) tr w := by
  obtain ⟨id, old, hok, hnew, hlist⟩ := h.snapshot encoded.node uuid w.backend hroom
  rw [importedSnapshot, if_pos rfl, wp_bind, wp_getRepositoryUuid huuid]
  refine ⟨atLast_append_singleton.mpr (hP _ _ (by simp)), ?_⟩
  simp only [bindPost, takeSnapshot, callBackend, wp_bind, wp_readModify, wp_ofExcept, hok,
    Result.ofExcept, atLast_append_singleton]
  exact ⟨hP _ _ (by simp), id, _, rfl, driver.getNode_snapshot _ _ _ _ _ hok, hnew, hlist, rfl⟩

/-- The import command takes a snapshot and stores it. -/
theorem wp_snapshotImportCommand_creates (h : LinearDataset driver snapshots)
    {repository : String} {args : Uuid × StringVector}
    (hargs : w.disk.readInitargs repository = .ok args) {breadcrumb : Breadcrumb}
    (hread : w.disk.readBreadcrumb = .ok breadcrumb) (huuid : HasUuid w.disk.uuid uuid)
    (hroom : (snapshots w.backend).length < 2 ^ 63) {encoded : Encoded}
    (habsent : w.disk.snapshots encoded.node = none)
    {Q : Result Exn Unit → List Event → World β → Prop}
    (hstore : ∀ id b tr, driver.getNode id = encoded.node → id ∉ snapshots w.backend →
      snapshots b = snapshots w.backend ++ [id] →
      (do
        let maybeParent ← importedParent driver encoded.node
        storeSnapshot driver sodium env params id maybeParent).wp (AtLast P) Q tr
        { w.opened repository args breadcrumb with backend := b }) :
    (snapshotImportCommand driver repository sodium env params true encoded.serialise).wp
      (AtLast P) Q tr w := by
  rw [snapshotImportCommand, wp_bind]
  refine wp_post ?_ ((openRepository_ends hargs hread).wp_atLast
    (onDirectory_noCall.emits_openRepository _) fun event _ _ hn => hP event _ fun _ _ => hn _)
  rintro r tr w' ⟨rfl, rfl⟩
  have habsent' : (w.opened repository args breadcrumb).disk.snapshots encoded.node = none :=
    habsent
  simp only [bindPost, snapshotImport, wp_bind, wp_ofExcept, Encoded.deserialise_serialise,
    Result.ofExcept, nodeExists, wp_look, habsent', Option.isSome_none, Bool.false_eq_true,
    if_false, atLast_append_singleton]
  refine ⟨hP _ _ (by simp), ?_⟩
  refine wp_post ?_ (wp_importedSnapshot_creates hP h
    (w := w.opened repository args breadcrumb) huuid hroom encoded)
  rintro r tr _ ⟨id, b, rfl, hid, hnew, hlist, rfl⟩
  exact hstore id b tr hid hnew hlist

end

variable (env tr) in
/-- If the parent's snapshot is in the dataset, the node is stored. -/
theorem wp_snapshotImportCommand_stores (h : LinearDataset driver snapshots)
    {repository : String} {args : Uuid × StringVector}
    (hargs : w.disk.readInitargs repository = .ok args) {breadcrumb : Breadcrumb}
    (hread : w.disk.readBreadcrumb = .ok breadcrumb) (huuid : HasUuid w.disk.uuid uuid)
    (hroom : (snapshots w.backend).length < 2 ^ 63) {encoded : Encoded}
    (habsent : w.disk.snapshots encoded.node = none) (hlt : encoded.node.toNat < 2 ^ 64 - 1)
    (hparent : encoded.node ≠ Node.initialValue → ∃ parent ∈ snapshots w.backend,
      w.disk.readId encoded.node.fenwickParent = .ok (some (driver.encoded parent)))
    (hcan : CanEncrypt sodium params w.disk.keyPairs) :
    (snapshotImportCommand driver repository sodium env params true encoded.serialise).wp
      (AtLast (DiffsBased driver snapshots))
      (fun r _ w' => r = .val () ∧ ∃ id blob b, driver.getNode id = encoded.node ∧
        id ∉ snapshots w.backend ∧ snapshots b = snapshots w.backend ++ [id] ∧
        w' = { w.opened repository args breadcrumb with backend := b }.stored
          (driver.encoded id) blob) tr w := by
  refine wp_snapshotImportCommand_creates onlyDiffs_diffsBased h hargs hread huuid hroom habsent ?_
  intro id b tr hid hnew hlist
  rw [← hid] at habsent hlt hparent ⊢
  have himportable : Importable driver snapshots id w.disk b := by
    refine ⟨hlist ▸ List.mem_append_right _ (List.mem_singleton_self id), habsent, hlt, ?_⟩
    intro hroot
    obtain ⟨parent, hmem, hread⟩ := hparent hroot
    exact ⟨parent, hlist ▸ List.mem_append_left _ hmem, hread⟩
  rw [wp_bind]
  refine wp_post ?_ (wp_importedParent h.toLinearHistory
    (w := { w.opened repository args breadcrumb with backend := b }) himportable)
  rintro r tr _ ⟨rfl, maybeParent, rfl, hparentOf⟩
  refine wp_post ?_ (wp_storeSnapshot_stores h.toLinearHistory
    (w := { w.opened repository args breadcrumb with backend := b }) himportable.inDataset hparentOf
    rfl hcan habsent hlt)
  rintro r tr _ ⟨rfl, blob, b', hkeeps, rfl⟩
  exact ⟨rfl, id, blob, b', rfl, hnew, hkeeps.trans hlist, rfl⟩

omit [DecidableEq S] in
theorem writeBlob_returns (chunks : List Bytes) (w : World β) :
    (writeBlob chunks : Repo β Unit).Ends (fun r _ => r = .val ()) w := fun _ =>
  wp_forM (fun _ _ _ => True) chunks (fun _ _ _ _ _ _ _ => ⟨trivial, trivial⟩) (fun _ _ _ => rfl)
    trivial

/-- What a backend cannot write is not stored. -/
theorem store_fails (env : Env) (params : RepositoryParams) (node : Node) {stream : Stream} {e : Exn}
    (hstream : stream.result = .error e) (w : World β) :
    (if params.encryption then storeEncrypted sodium env node stream
      else storePlain stream : Repo β Unit).Ends (fun r _ => r = .exn e) w := by
  intro tr
  split
  · rw [storeEncrypted, wp_bind]
    refine wp_post ?_ (encryptInChild_ends sodium env node stream.bytes w tr)
    rintro r tr w ⟨rfl, rfl⟩
    rw [bindPost, wp_bind]
    refine wp_post ?_ (writeBlob_returns _ w tr)
    rintro r tr w rfl
    simp [hstream, Result.ofExcept]
  · rw [storePlain, wp_bind]
    refine wp_post ?_ (writeBlob_returns _ w tr)
    rintro r tr w rfl
    simp [hstream, Result.ofExcept]

/-- There is no difference to a snapshot that is not in the dataset. -/
theorem storeSnapshot_missing (h : LinearDataset driver snapshots) {id parent : S}
    (hroot : driver.getNode id ≠ Node.initialValue) (hmissing : parent ∉ snapshots w.backend)
    (hchecked : w.repositoryStructure.temporarySnapshotImpl = false) :
    (storeSnapshot driver sodium env params id (some parent)).Ends (fun r _ => ∃ e, r = .exn e)
      w := by
  intro tr
  rw [storeSnapshot, storePayload, wp_bind, wp_bind]
  refine wp_post ?_ (checkOutTemporarySnapshot_ends hchecked tr)
  rintro r tr _ ⟨rfl, rfl⟩
  obtain ⟨e, he⟩ := h.diff_missing parent id w.backend hmissing
  simp only [bindPost, storeSnapshotOrDiff, if_neg hroot, callBackend, wp_bind, wp_readModify,
    true_and]
  refine wp_post ?_ (store_fails env params (driver.getNode id) he _ _)
  rintro r tr w rfl
  exact ⟨e, rfl⟩

variable (sodium env params) in
/-- If the parent's snapshot is not in the dataset, the import command fails. -/
theorem snapshotImportCommand_missing (h : LinearDataset driver snapshots)
    {repository : String} {args : Uuid × StringVector}
    (hargs : w.disk.readInitargs repository = .ok args) {breadcrumb : Breadcrumb}
    (hread : w.disk.readBreadcrumb = .ok breadcrumb) (huuid : HasUuid w.disk.uuid uuid)
    (hroom : (snapshots w.backend).length < 2 ^ 63) {encoded : Encoded}
    (habsent : w.disk.snapshots encoded.node = none) (hroot : encoded.node ≠ Node.initialValue)
    {parent : S} (hparent : w.disk.readId encoded.node.fenwickParent =
      .ok (some (driver.encoded parent))) (hmissing : parent ∉ snapshots w.backend) :
    (snapshotImportCommand driver repository sodium env params true encoded.serialise).Ends
      (fun r _ => ∃ e, r = .exn e) w := by
  intro tr
  refine wp_mono (fun _ _ _ => trivial) (fun _ _ _ => id) _ (wp_snapshotImportCommand_creates
    (P := fun _ _ => True) (fun _ _ _ => trivial) h hargs hread huuid hroom habsent
    fun id b tr hid hnew hlist => ?_)
  refine wp_mono (I := fun _ _ => True) (fun _ _ _ _ _ => trivial) (fun _ _ _ hr => hr) _ ?_
  rw [wp_bind, importedParent, Node.fenwickMaybeParent, if_neg (mt Node.isRoot_iff.mp hroot)]
  dsimp only
  rw [wp_bind]
  refine wp_post ?_ (nodeToSnapshotId_stored h.toLinearHistory
    (w := { w.opened repository args breadcrumb with backend := b }) hparent tr)
  rintro r tr _ ⟨rfl, rfl⟩
  refine storeSnapshot_missing h (by rwa [hid]) ?_ rfl tr
  show parent ∉ snapshots b
  rw [hlist, List.mem_append, List.mem_singleton, not_or]
  refine ⟨hmissing, ?_⟩
  -- the new snapshot is that of another node
  rintro rfl
  have hnode := Disk.node_of_readId hparent
  rw [driver.node_encoded, hid, ← Node.toNat_inj, Node.toNat_fenwickParent] at hnode
  have hlt := fenwick.parent_lt encoded.node.toNat fun h0 => hroot (Node.toNat_inj.mp h0)
  omega

end

/-!
## The import command

The same as a process of its own, which opens the destination first.
-/

/-- The import command with `create-snapshot=true`: a new process, with whatever in its memory,
takes a snapshot of its own. -/
def createCommand (driver : BackendDriver β S) (repository : String) (sodium : Sodium σ) (env : Env)
    (params : RepositoryParams) (memory : RepositoryStructure) (serialised : Bytes)
    (s : Scratch β) : Except Exn (Except Exn Unit) × Scratch β :=
  let w : World β := ⟨s.destination, memory, s.dataset⟩
  let run := (snapshotImportCommand driver repository sodium env params true serialised).run w
  let w' := stateAfter w run.steps
  (.ok (exitStatus run.result), ⟨w'.backend, w'.disk, s.imports ++ [run]⟩)

/-- The repository can be opened, and has an identity. -/
structure Openable (repository : String) (disk : Disk) : Prop where
  initargs : ∃ args, disk.readInitargs repository = .ok args
  breadcrumb : ∃ breadcrumb, disk.readBreadcrumb = .ok breadcrumb
  identity : ∃ uuid, HasUuid disk.uuid uuid

theorem Openable.stored {repository : String} {disk : Disk} (h : Openable repository disk)
    (encoded : Encoded) (blob : Bytes) : Openable repository (disk.stored encoded blob) :=
  ⟨h.initargs, ⟨_, Disk.readBreadcrumb_stored ..⟩, h.identity⟩

theorem openable_of_created {disk : Disk} (h : Created disk) (repository : String) :
    Openable repository disk := by
  have hempty : Stocked (fun _ _ => True) 0 disk := stocked_of_created h
  obtain ⟨b, hread, -⟩ := hempty.aligned
  obtain ⟨formatUuid, initargs, uuid, created, keys, hcreated, rfl⟩ := h
  refine ⟨hempty.initargs repository, ⟨b, hread⟩, uuid, ?_⟩
  unfold createRepository at hcreated
  split at hcreated
  · cases hcreated
  · cases hcreated
    have hbytes : Serialisation.serialise uuid = uuid.toList :=
      List.flatMap_singleton' uuid.toList
    exact ⟨_, [], rfl, hbytes ▸ (reads_readBytesExact uuid).all⟩

section
variable [DecidableEq S] {driver : BackendDriver β S} {snapshots : β → List S} {sodium : Sodium σ}
  {env : Env} {params : RepositoryParams} {repository : String} {memory : RepositoryStructure}
  {s : Scratch β} {id : S}

variable (env memory s id) in
/-- If the parent's snapshot is in the dataset, a snapshot is taken and stored. -/
theorem createCommand_stores (h : LinearDataset driver snapshots)
    (hopen : Openable repository s.destination) (hroom : (snapshots s.dataset).length < 2 ^ 63)
    (habsent : s.destination.snapshots (driver.getNode id) = none)
    (hlt : (driver.getNode id).toNat < 2 ^ 64 - 1)
    (hparent : driver.getNode id ≠ Node.initialValue → ∃ parent ∈ snapshots s.dataset,
      s.destination.readId (driver.getNode id).fenwickParent = .ok (some (driver.encoded parent)))
    (hcan : CanEncrypt sodium params s.destination.keyPairs) :
    ∃ run id' blob b, Adopts driver snapshots run ∧ driver.getNode id' = driver.getNode id ∧
      id' ∉ snapshots s.dataset ∧ snapshots b = snapshots s.dataset ++ [id'] ∧
      createCommand driver repository sodium env params memory (driver.encoded id).serialise s =
        (.ok (.ok ()), ⟨b, s.destination.stored (driver.encoded id') blob, s.imports ++ [run]⟩) := by
  obtain ⟨⟨args, hargs⟩, ⟨breadcrumb, hread⟩, ⟨uuid, huuid⟩⟩ := hopen
  rw [← driver.node_encoded] at habsent hlt hparent
  have hwp := wp_snapshotImportCommand_stores env [] (w := ⟨s.destination, memory, s.dataset⟩) h
    hargs hread huuid hroom habsent hlt hparent hcan
  obtain ⟨hval, id', blob, b, hid', hnew, hlist, hw'⟩ := wp_run_nil hwp
  refine ⟨_, id', blob, b, ⟨hval, fun step hstep => of_mem_steps hwp hstep⟩, ?_, hnew, hlist, ?_⟩
  · rw [hid', driver.node_encoded]
  · rw [createCommand, hval, hw']
    rfl

variable (sodium env params memory s id) in
/-- If it is not, the command fails. -/
theorem createCommand_missing (h : LinearDataset driver snapshots)
    (hopen : Openable repository s.destination) (hroom : (snapshots s.dataset).length < 2 ^ 63)
    (habsent : s.destination.snapshots (driver.getNode id) = none)
    (hroot : driver.getNode id ≠ Node.initialValue) {parent : S}
    (hparent : s.destination.readId (driver.getNode id).fenwickParent =
      .ok (some (driver.encoded parent))) (hmissing : parent ∉ snapshots s.dataset) :
    ∃ e, (createCommand driver repository sodium env params memory (driver.encoded id).serialise
      s).1 = .ok (.error e) := by
  obtain ⟨⟨args, hargs⟩, ⟨breadcrumb, hread⟩, ⟨uuid, huuid⟩⟩ := hopen
  rw [← driver.node_encoded] at habsent hroot hparent
  obtain ⟨e, he⟩ := ends_iff_run.mp (snapshotImportCommand_missing sodium env params
    (w := ⟨s.destination, memory, s.dataset⟩) h hargs hread huuid hroom habsent hroot hparent
    hmissing)
  rw [createCommand, he]
  exact ⟨_, rfl⟩

end

/-!
## The export

Restoring the second node is where it ends. The scratch dataset holds the exporter's snapshot of the
initial node and the one that the import command has taken after it, and restoring a difference
discards the latter.
-/

section
variable [DecidableEq S] {driver : BackendDriver β S} {snapshots : β → List S} {sodium : Sodium σ}
  {env : Env} {params : RepositoryParams} {repository : String} {memory : RepositoryStructure}
  {tr : List Event} {w : World (Scratch β)} {n : ℕ} {ids : ℕ → S} {key : Option DecryptedKeyPair}

/-- The first node: its snapshot is followed by the one that the import command takes. -/
theorem wp_restoreNode_creates (h : LinearDataset driver snapshots)
    (hsource : Exportable driver n ids w.disk) (hkey : DecryptsPayloads sodium key w.disk)
    (hopen : Openable repository w.backend.destination)
    (habsent : ∀ node, w.backend.destination.snapshots node = none)
    (hcan : CanEncrypt sodium params w.backend.destination.keyPairs) :
    (restoreNode driver.onScratch sodium key false (runImportCommand driver.onScratch
        (createCommand driver repository sodium env params memory)) Node.initialValue).wp
      (AtLast (RestoresBased driver snapshots))
      (fun r _ w' => r = .val () ∧ ∃ run id blob b, Adopts driver snapshots run ∧
        driver.getNode id = Node.initialValue ∧ id ≠ ids 0 ∧ snapshots b = [ids 0, id] ∧
        w' = { w with backend := ⟨b, w.backend.destination.stored (driver.encoded id) blob,
          w.backend.imports ++ [run]⟩ }) tr w := by
  have halive : Node.initialValue.toNat ∈ fenwick.alive n := Fenwick.zero_mem_alive n
  have hnode : driver.getNode (ids 0) = Node.initialValue :=
    hsource.getNode_eq halive
  refine wp_restoreNode h.toLinearHistory hsource hkey halive
    (fun hroot => absurd rfl hroot) fun b tr hb => ?_
  rw [restored, if_pos rfl] at hb
  obtain ⟨run, id, blob, b', hrun, hid, hnew, hlist, hcall⟩ := createCommand_stores
    env memory (w.withDataset b).backend (ids 0) h hopen
    (by rw [show snapshots (w.withDataset b).backend.dataset = [ids 0] from hb]; simp)
    (habsent _) (by rw [hnode]; decide) (fun hroot => absurd hnode hroot) hcan
  refine wp_post ?_ (wp_runImportCommand_ok hcall)
  rintro r tr _ ⟨rfl, rfl⟩
  rw [show snapshots (w.withDataset b).backend.dataset = [ids 0] from hb] at hnew hlist
  exact ⟨rfl, run, id, blob, b', hrun, hid.trans hnode, by simpa using hnew, hlist, rfl⟩

/-- The second node: restoring it has discarded the snapshot that the import command needs. -/
theorem wp_restoreNode_missing (h : LinearDataset driver snapshots)
    (hsource : Exportable driver n ids w.disk) (hkey : DecryptsPayloads sodium key w.disk)
    (hopen : Openable repository w.backend.destination) {root : S}
    (hroot : driver.getNode root = Node.initialValue) (hne : root ≠ ids 0)
    (hlist : snapshots w.backend.dataset = [ids 0, root])
    (hread : w.backend.destination.readId Node.initialValue = .ok (some (driver.encoded root)))
    {node : Node} (halive : node.toNat ∈ fenwick.alive n) (hnode : node ≠ Node.initialValue)
    (hparent : node.fenwickParent = Node.initialValue)
    (habsent : w.backend.destination.snapshots node = none) :
    (restoreNode driver.onScratch sodium key false (runImportCommand driver.onScratch
        (createCommand driver repository sodium env params memory)) node).wp
      (AtLast (RestoresBased driver snapshots)) (fun r _ _ => ∃ e, r = .exn e) tr w := by
  have hids : driver.getNode (ids node.toNat) = node := hsource.getNode_eq halive
  have hzero : fenwick.parent node.toNat = 0 := by
    rw [← Node.toNat_fenwickParent, hparent]
    rfl
  refine wp_restoreNode h.toLinearHistory hsource hkey halive
    (fun _ => by rw [hzero, hlist]; exact List.mem_cons_self) fun b tr hb => ?_
  have hdataset : snapshots b = [ids 0, ids node.toNat] := by
    rw [hb, restored, if_neg hnode, hzero, hlist]
    simp [rollBack]
  have hmissing : root ∉ snapshots b := by
    rw [hdataset, List.mem_pair, not_or]
    refine ⟨hne, ?_⟩
    rintro rfl
    exact hnode (hids.symm.trans hroot)
  obtain ⟨e, he⟩ := createCommand_missing sodium env params memory (w.withDataset b).backend
    (ids node.toNat) h hopen
    (by rw [show snapshots (w.withDataset b).backend.dataset = _ from hdataset]; simp)
    (by rwa [hids]) (by rwa [hids]) (by rw [hids, hparent]; exact hread) hmissing
  exact wp_runImportCommand_error he

/-- What is left after the initial node has been exported. -/
structure CopiesRoot (driver : BackendDriver β S) (snapshots : β → List S) (s : Scratch β) :
    Prop where
  nodes : s.destination.nodes = {0}
  breadcrumb : ∃ b, s.destination.readBreadcrumb = .ok b ∧ b.untrustedBegin.toNat = 1
  imports : ∀ run ∈ s.imports, Adopts driver snapshots run

/-- One node is exported; with more of them, the import command fails at the second one. -/
theorem wp_createNodes (h : LinearDataset driver snapshots)
    (hsource : Exportable driver n ids w.disk) (hkey : DecryptsPayloads sodium key w.disk)
    (hopen : Openable repository w.backend.destination)
    (habsent : ∀ node, w.backend.destination.snapshots node = none)
    (himports : w.backend.imports = [])
    (hcan : CanEncrypt sodium params w.backend.destination.keyPairs) {nodes : List Node}
    (hnodes : AliveNodes n nodes) :
    (forM nodes (restoreNode driver.onScratch sodium key false (runImportCommand driver.onScratch
        (createCommand driver repository sodium env params memory)))).wp
      (AtLast (RestoresBased driver snapshots))
      (fun r _ w' => if n = 0 then r = .val () ∧ CopiesRoot driver snapshots w'.backend
        else ∃ e, r = .exn e) tr w := by
  -- The initial node is always alive, and is the first one.
  obtain ⟨rest, rfl⟩ := hnodes.exists_cons
  rw [List.forM_cons, wp_bind]
  refine wp_post ?_ (wp_restoreNode_creates h hsource hkey hopen habsent hcan)
  rintro r tr _ ⟨rfl, run, root, blob, b, hrun, hroot, hne, hlist, rfl⟩
  have hencoded : (driver.encoded root).node = Node.initialValue := by
    rw [driver.node_encoded, hroot]
  have hself := Disk.stored_snapshots_self w.backend.destination (driver.encoded root) blob
  rw [hencoded] at hself
  have hother {node : Node} (hnode : node ≠ Node.initialValue) :
      (w.backend.destination.stored (driver.encoded root) blob).snapshots node = none := by
    rw [Disk.stored_snapshots_of_ne _ _ _ (by rwa [hencoded]), habsent]
  cases rest with
  | nil =>
      -- the only node that is alive is the initial one
      have hbound := hsource.bound
      have hn : (Node.ofNat n).toNat = n := Node.toNat_ofNat (by omega)
      have hlast : Node.ofNat n ∈ [Node.initialValue] :=
        (hnodes.mem_iff _).mpr (by rw [hn]; exact fenwick.self_mem_alive n)
      rw [List.mem_singleton.mp hlast, Node.toNat_initialValue] at hn
      refine (if_pos hn.symm).mpr ⟨rfl, ?_, ?_, ?_⟩
      · ext k
        rw [Set.mem_singleton_iff]
        constructor
        · rintro ⟨node, rfl, hs⟩
          by_contra hne
          rw [hother fun heq => hne (by rw [heq]; rfl)] at hs
          cases hs
        · rintro rfl
          exact ⟨Node.initialValue, rfl, by rw [hself]; rfl⟩
      · exact ⟨_, Disk.readBreadcrumb_stored .., by rw [hencoded]; rfl⟩
      · rw [himports]
        exact fun run' hrun' => List.mem_singleton.mp hrun' ▸ hrun
  -- the next node, whose parent is the initial one, since there is no other node before it
  | cons node rest =>
      have halive : node.toNat ∈ fenwick.alive n := (hnodes.mem_iff node).mp (by simp)
      have hlt := List.rel_of_pairwise_cons hnodes.ascending (List.mem_cons_self (a := node))
      have hnode : node ≠ Node.initialValue := by
        rintro rfl
        exact lt_irrefl _ hlt
      have hn : n ≠ 0 := by
        have hle := halive.1
        rintro rfl
        omega
      simp only [if_neg hn, List.forM_cons, bindPost]
      rw [wp_bind]
      refine wp_post ?_ (wp_restoreNode_missing
        (w := { w with backend := ⟨b, w.backend.destination.stored (driver.encoded root) blob,
          w.backend.imports ++ [run]⟩ }) h hsource hkey (hopen.stored _ _)
        hroot hne hlist (readId_of_dir hroot hself) halive hnode ?_ (hother hnode))
      · rintro r tr w ⟨e, rfl⟩
        exact ⟨e, rfl⟩
      · have hparent : node.fenwickParent ∈ [Node.initialValue] :=
          AliveNodes.parent_mem hnodes hnode
        exact List.mem_singleton.mp hparent

end

/-- The export completes. At the end the destination holds the nodes of the source, and its first
untrusted node is the one after `n`. Whenever the import command has asked for a difference, the
snapshots of its own that it needs were in the dataset. -/
structure CopiesNodes (driver : BackendDriver β S) (snapshots : β → List S) (n : Node)
    (source : Disk) (result : Result Exn Unit) (s : Scratch β) : Prop where
  completes : result = .val ()
  nodes : s.destination.nodes = source.nodes
  breadcrumb : ∃ b, s.destination.readBreadcrumb = .ok b ∧ b.untrustedBegin.toNat = n.toNat + 1
  imports : ∀ run ∈ s.imports, Adopts driver snapshots run

section
variable {driver : BackendDriver β S} {snapshots : β → List S}

/-- One node is exported; with more of them, the import command fails at the second one. -/
theorem wp_export_creates [DecidableEq S] (h : LinearDataset driver snapshots)
    {source : BackendDriver γ S} (hencoded : ∀ id, source.encoded id = driver.encoded id)
    {sodium : Sodium σ} {IsKeyPair : ByteArray' 32 → ByteArray' 32 → Prop} {InStep : σ → σ → Prop}
    (hsodium : sodium.Correct IsKeyPair InStep) {sourceParams : RepositoryParams} {w₀ w : World γ}
    {as : List (Attempt Event (World γ) Exn Unit)} (h₀ : Created w₀.disk)
    (hist : History (snapshotCommandsOf source sodium sourceParams.encryption) SameDisk
      Attempt.Completed w₀ as w) {n : Node}
    (hn : (committed (Attempt.allLabels as)).getLast? = some n) {exportParams : ExportParams}
    (hcommand : exportParams.importCommand ≠ [])
    (hpassword : sourceParams.encryption = true → ∃ password,
      exportParams.password = some password ∧ KeyFits sodium IsKeyPair password w₀.disk.keyPairs)
    {destination : Disk} (hdestination : Created destination) {params : RepositoryParams}
    (hprivate : params.encryption = true → HasPrivateKeys IsKeyPair destination.keyPairs)
    (env : Env) {envExport : Env} (hfuel : 0 < envExport.fuel) (repository repositoryExport : String)
    (memory memoryExport : RepositoryStructure) (dataset : β) :
    (exportRepositoryCommand driver.onScratch sodium repositoryExport
      (createCommand driver repository sodium env params memory) envExport sourceParams
      exportParams).wp (AtLast (RestoresBased driver snapshots))
      (fun r _ w' => if n.toNat = 0 then r = .val () ∧ CopiesRoot driver snapshots w'.backend
        else ∃ e, r = .exn e) [] ⟨w.disk, memoryExport, dataset, destination, []⟩ := by
  have hempty : Stocked (fun _ _ => True) 0 destination := stocked_of_created hdestination
  have habsent (node : Node) : destination.snapshots node = none := by
    rw [← Option.not_isSome_iff_eq_none, ← Disk.toNat_mem_nodes, hempty.nodes]
    exact Set.notMem_empty _
  refine wp_export_of_completed hencoded hsodium h₀ hist hn hcommand hpassword hfuel
    repositoryExport rfl fun ids key w' hsource hkey _ hbackend nodes tr hnodes => ?_
  refine wp_createNodes h hsource hkey ?_ ?_ ?_ ?_ hnodes <;> rw [hbackend]
  · exact openable_of_created hdestination repository
  · exact habsent
  · exact HasPrivateKeys.canEncrypt hsodium hprivate

/-- Exporting a repository that completed snapshot commands have left, the last of which stored the
node `n`, to one that has just been created and whose import command takes snapshots of its own:
this completes if and only if there is nothing but the initial node. -/
theorem export_creates_iff [DecidableEq S] (h : LinearDataset driver snapshots)
    {source : BackendDriver γ S} (hencoded : ∀ id, source.encoded id = driver.encoded id)
    {sodium : Sodium σ} {IsKeyPair : ByteArray' 32 → ByteArray' 32 → Prop} {InStep : σ → σ → Prop}
    (hsodium : sodium.Correct IsKeyPair InStep) {sourceParams : RepositoryParams} {w₀ w : World γ}
    {as : List (Attempt Event (World γ) Exn Unit)} (h₀ : Created w₀.disk)
    (hist : History (snapshotCommandsOf source sodium sourceParams.encryption) SameDisk
      Attempt.Completed w₀ as w) {n : Node}
    (hn : (committed (Attempt.allLabels as)).getLast? = some n) {exportParams : ExportParams}
    (hcommand : exportParams.importCommand ≠ [])
    (hpassword : sourceParams.encryption = true → ∃ password,
      exportParams.password = some password ∧ KeyFits sodium IsKeyPair password w₀.disk.keyPairs)
    {destination : Disk} (hdestination : Created destination) {params : RepositoryParams}
    (hprivate : params.encryption = true → HasPrivateKeys IsKeyPair destination.keyPairs)
    {env envExport : Env} (hfuel : 0 < envExport.fuel) (repository repositoryExport : String)
    (memory memoryExport : RepositoryStructure) (dataset : β) :
    let export' := exportRepositoryCommand driver.onScratch sodium repositoryExport
      (createCommand driver repository sodium env params memory) envExport sourceParams exportParams
    let start : World (Scratch β) := ⟨w.disk, memoryExport, dataset, destination, []⟩
    CopiesNodes driver snapshots n w.disk (export'.run start).result
      (stateAfter start (export'.run start).steps).backend ↔ n = Node.initialValue := by
  intro export' start
  have hend := wp_run (wp_export_creates h hencoded hsodium h₀ hist hn hcommand hpassword
    hdestination hprivate env hfuel repository repositoryExport memory memoryExport dataset)
  obtain ⟨c, hcommits, hstocked, -⟩ := stocked_of_completed h₀ hist
  obtain rfl := hcommits.eq_of_getLast hn
  constructor
  · intro hcopies
    by_contra hne
    have hpos : n.toNat ≠ 0 := fun hzero => hne (Node.toNat_inj.mp hzero)
    rw [if_neg hpos] at hend
    obtain ⟨e, he⟩ := hend
    exact nomatch he.symm.trans hcopies.completes
  · rintro rfl
    rw [Node.toNat_initialValue, if_pos rfl] at hend
    obtain ⟨hval, hcopied⟩ := hend
    refine ⟨hval, ?_, hcopied.breadcrumb, hcopied.imports⟩
    rw [hcopied.nodes, hstocked.nodes]
    exact fenwick.alive_zero.symm

end

/-- A snapshot command of the source. -/
def sampleCreateCommand : Repo (List Encoded) Unit :=
  snapshotCommand .linearFresh "repository" .transparent sampleEnv ⟨false, 0⟩

/-- The export to a repository whose import command takes snapshots of its own. -/
def sampleCreateExport : Repo (Scratch (List Encoded)) Unit :=
  exportRepositoryCommand BackendDriver.linearFresh.onScratch .transparent "repository"
    (createCommand .linearFresh "mirror" .transparent sampleEnv ⟨false, 0⟩
      sampleWorld.repositoryStructure)
    sampleEnv ⟨false, 0⟩ ⟨none, ["import"]⟩

/-- The source after the given number of snapshot commands. -/
def sampleCreated (commands : ℕ) : List (Attempt Event (World (List Encoded)) Exn Unit) ×
    World (List Encoded) :=
  Attempt.repeated sampleCreateCommand sampleSource commands

theorem history_sampleCreated (commands : ℕ)
    (h : ∀ i < commands, (sampleCreateCommand.run (sampleCreated i).2).result = .val ()) :
    History (snapshotCommandsOf .linearFresh Sodium.transparent false) SameDisk Attempt.Completed
      sampleSource (sampleCreated commands).1 (sampleCreated commands).2 := by
  have hcommand : sampleCreateCommand ∈ snapshotCommandsOf .linearFresh Sodium.transparent false :=
    ⟨"repository", sampleEnv, ⟨false, 0⟩, rfl, rfl⟩
  exact .repeated hcommand SameDisk.refl _ fun i hi => ⟨rfl, (), h i hi⟩

/-- After two commands, the export fails: the import command misses the snapshot of the initial node
that it has taken itself. -/
theorem export_creates_two :
    let source := (sampleCreated 2).2
    let start : World (Scratch (List Encoded)) :=
      ⟨source.disk, sampleWorld.repositoryStructure, [], sampleWorld.disk, []⟩
    ¬ CopiesNodes BackendDriver.linearFresh id ⟨1⟩ source.disk (sampleCreateExport.run start).result
      (stateAfter start (sampleCreateExport.run start).steps).backend := by
  intro source start hcopies
  have hcreated : Created sampleWorld.disk := fresh_sampleWorld.created
  have hend := wp_run (@wp_export_creates _ _ _ _ _ _ _ linearDataset_linearFresh _ (fun _ => rfl)
    _ _ _ Sodium.transparent_correct ⟨false, 0⟩ _ _ _ hcreated
    (history_sampleCreated 2 (by decide +kernel)) ⟨1⟩ (by decide +kernel) ⟨none, ["import"]⟩
    (by decide) (by simp) _ hcreated ⟨false, 0⟩ (by simp) sampleEnv sampleEnv (by decide) "mirror"
    "repository" sampleWorld.repositoryStructure sampleWorld.repositoryStructure [])
  obtain ⟨e, he⟩ : ∃ e, (sampleCreateExport.run start).result = .exn e := hend
  exact nomatch he.symm.trans hcopies.completes

/-- After one command it completes. -/
theorem export_creates_iff_one :
    let source := (sampleCreated 1).2
    let start : World (Scratch (List Encoded)) :=
      ⟨source.disk, sampleWorld.repositoryStructure, [], sampleWorld.disk, []⟩
    CopiesNodes BackendDriver.linearFresh id Node.initialValue source.disk
      (sampleCreateExport.run start).result
      (stateAfter start (sampleCreateExport.run start).steps).backend := by
  have hcreated : Created sampleWorld.disk := fresh_sampleWorld.created
  exact (@export_creates_iff _ _ _ _ _ _ _ linearDataset_linearFresh _ (fun _ => rfl) _ _ _
    Sodium.transparent_correct ⟨false, 0⟩ _ _ _ hcreated
    (history_sampleCreated 1 (by decide +kernel)) Node.initialValue (by decide +kernel)
    ⟨none, ["import"]⟩ (by decide) (by simp) _ hcreated ⟨false, 0⟩ (by simp) sampleEnv sampleEnv
    (by decide) "mirror" "repository" sampleWorld.repositoryStructure
    sampleWorld.repositoryStructure []).mpr rfl

end Controller

end Diffmonger
