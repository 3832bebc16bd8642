import Diffmonger.BackendDriver.Linear
import Diffmonger.Controller.Directory
import Diffmonger.Controller.Snapshots
import Diffmonger.EncryptionUtil.Spec
import Diffmonger.Lib.Trace

/-!
# Imports that run to the end

Where nothing goes wrong, the parts of `snapshot_import` always return, and the worlds that they
leave behind are known exactly (`Disk.stored`). Put together, an import of a snapshot that is in the
dataset, and whose parent has been imported before, stores the node and nothing else
(`wp_snapshotImportCommand_adopts`).

What a part returns and what each of its steps satisfies are shown separately: the first by running
it, the second from the kinds of steps that it consists of (`Ends.wp_atLast`). The only steps of
which something has to be shown are the calls of the backend.
-/

namespace Diffmonger

open Prog RepositoryStructure

variable {β S σ : Type}

/-- The world of a process that has checked out the temporary snapshot. -/
def World.checkedOut (w : World β) : World β :=
  { w.withTemporary (some ⟨none, some []⟩) with
    repositoryStructure := { w.repositoryStructure with temporarySnapshotImpl := true } }

namespace Disk

/-- The directory once a node has been stored, with its breadcrumb. -/
def stored (disk : Disk) (encoded : Encoded) (blob : Bytes) : Disk :=
  { disk with
    breadcrumb := some (Breadcrumb.serialise ⟨.ofNat (encoded.node.toNat + 1), encoded.timestamp⟩)
    temporarySnapshot := none
    snapshots := Function.update disk.snapshots encoded.node
      (some ⟨some encoded.serialise, some blob⟩) }

section
variable (disk : Disk) (encoded : Encoded) (blob : Bytes)

@[simp] theorem stored_snapshots_self :
    (disk.stored encoded blob).snapshots encoded.node =
      some ⟨some encoded.serialise, some blob⟩ := Function.update_self ..

theorem stored_snapshots_of_ne {node : Node} (h : node ≠ encoded.node) :
    (disk.stored encoded blob).snapshots node = disk.snapshots node := Function.update_of_ne h ..

@[simp] theorem readBreadcrumb_stored :
    (disk.stored encoded blob).readBreadcrumb =
      .ok ⟨.ofNat (encoded.node.toNat + 1), encoded.timestamp⟩ :=
  Breadcrumb.deserialise_serialise _

@[simp] theorem readInitargs_stored (repository : String) :
    (disk.stored encoded blob).readInitargs repository = disk.readInitargs repository := rfl

@[simp] theorem keyPairs_stored : (disk.stored encoded blob).keyPairs = disk.keyPairs := rfl

end

end Disk

/-- The world of the process that has stored it. -/
def World.stored (w : World β) (encoded : Encoded) (blob : Bytes) : World β :=
  { w with
    disk := w.disk.stored encoded blob
    repositoryStructure :=
      { w.repositoryStructure with
        breadcrumb := ⟨.ofNat (encoded.node.toNat + 1), encoded.timestamp⟩
        temporarySnapshotImpl := false } }

namespace RepositoryStructure

theorem openRepository_ends {repository : String} {args : Uuid × StringVector}
    {breadcrumb : Breadcrumb} {w : World β} (hargs : w.disk.readInitargs repository = .ok args)
    (hread : w.disk.readBreadcrumb = .ok breadcrumb) :
    (openRepository repository).Ends
      (fun r w' => r = .val () ∧ w' = w.opened repository args breadcrumb) w := by
  intro tr
  refine wp_openRepository repository (fun _ _ _ => trivial) ?_ ?_
  · rintro ls e - - (h | ⟨-, h⟩)
    · rw [hargs] at h
      cases h
    · rw [hread] at h
      cases h
  · intro ls args' breadcrumb' _ _ hargs' hread'
    cases hargs.symm.trans hargs'
    cases hread.symm.trans hread'
    exact ⟨trivial, rfl, rfl⟩

theorem checkOutTemporarySnapshot_ends {w : World β}
    (h : w.repositoryStructure.temporarySnapshotImpl = false) :
    (checkOutTemporarySnapshot : Repo β Unit).Ends (fun r w' => r = .val () ∧ w' = w.checkedOut)
      w := by
  intro tr
  simp only [checkOutTemporarySnapshot, wp_bind, wp_look, bindPost, true_and, h, Bool.false_eq_true,
    if_false]
  refine wp_post ?_ (emptyTemporary_ends w _)
  rintro r tr' w' ⟨rfl, rfl⟩
  simp only [bindPost, wp_bind, wp_perform, wp_remember, true_and]
  rfl

/-- The temporary snapshot becomes the node's directory. -/
theorem commit_ends {w : World β} {encoded : Encoded} {blob : Bytes}
    (hchecked : w.repositoryStructure.temporarySnapshotImpl = true)
    (htemp : w.disk.temporarySnapshot = some ⟨none, some blob⟩)
    (habsent : w.disk.snapshots encoded.node = none) (hlt : encoded.node.toNat < 2 ^ 64 - 1) :
    (commit encoded).Ends (fun r w' => r = .val () ∧ w' = w.stored encoded blob) w := by
  intro tr
  simp only [commit, wp_bind, wp_look, bindPost, hchecked, if_true, wp_remember, true_and,
    commitTemporary, wp_perform, wp_handle, renameTemporary, id]
  generalize hw' : World.apply _ (.writeTemporaryId encoded.serialise) = w'
  have habsent' : w'.disk.snapshots encoded.node = none := by
    subst hw'
    exact habsent
  simp only [habsent', wp_perform, handlePost, bindPost, wp_bind, wp_ofExcept,
    Node.next_of_toNat_lt hlt, Result.ofExcept, wp_writeBreadcrumb, true_and]
  have htemp' : w'.disk.temporarySnapshot = some ⟨some encoded.serialise, some blob⟩ := by
    subst hw'
    simp [World.apply, Event.apply, Disk.setTemporary, htemp]
  have hsnapshots : Function.update w'.disk.snapshots encoded.node w'.disk.temporarySnapshot =
      Function.update w.disk.snapshots encoded.node
        (some ⟨some encoded.serialise, some blob⟩) := by
    rw [htemp', ← hw']
    rfl
  rw [World.stored, Disk.stored, ← hsnapshots]
  subst hw'
  rfl

end RepositoryStructure

namespace Controller

/-!
## Storing the payload

The payload of an imported node is encrypted like that of any other one. What matters here is only
that the whole payload comes to be in the file, and that encryption does not fail halfway.
-/

theorem writeBlob_ends {id : Option Bytes} {bytes : Bytes} (chunks : List Bytes) {w : World β}
    (htemp : w.disk.temporarySnapshot = some ⟨id, some bytes⟩) :
    (writeBlob chunks : Repo β Unit).Ends (fun r w' => r = .val () ∧
      w' = w.withTemporary (some ⟨id, some (bytes ++ chunks.flatten)⟩)) w := by
  intro tr
  refine wp_forM (fun treated _ w' =>
    w' = w.withTemporary (some ⟨id, some (bytes ++ treated.flatten)⟩)) chunks ?_
    (fun _ _ h => ⟨rfl, h⟩) ?_
  · rintro treated chunk rest - tr' _ rfl
    simp [World.apply, Event.apply, Disk.setTemporary, World.withTemporary]
  · rw [List.flatten_nil, List.append_nil, World.withTemporary, ← htemp]

/-- Encryption does not fail, if it is enabled. -/
def CanEncrypt (sodium : Sodium σ) (params : RepositoryParams)
    (keyPairs : Except Exn (List KeyPair)) : Prop :=
  params.encryption = true → ∃ kps, keyPairs = .ok kps ∧ ∀ random plaintext,
    (EncryptionUtil.encryptToFd sodium random kps plaintext).result = .ok ()

/-- What the backend writes goes to the blob. -/
theorem store_ends {sodium : Sodium σ} (env : Env) {params : RepositoryParams} (node : Node)
    {stream : Stream} (hstream : stream.result = .ok ()) {w : World β}
    (hcan : CanEncrypt sodium params w.disk.keyPairs)
    (htemp : w.disk.temporarySnapshot = some ⟨none, some []⟩) :
    (if params.encryption then storeEncrypted sodium env node stream
      else storePlain stream : Repo β Unit).Ends
      (fun r w' => r = .val () ∧ ∃ blob, w' = w.withTemporary (some ⟨none, some blob⟩)) w := by
  intro tr
  split
  · next henc =>
      obtain ⟨kps, hkps, hok⟩ := hcan henc
      rw [storeEncrypted, wp_bind]
      refine wp_post ?_ (encryptInChild_ends sodium env node stream.bytes w tr)
      rintro r tr' w' ⟨rfl, rfl⟩
      simp only [hkps, bindPost, wp_bind]
      refine wp_post ?_ (writeBlob_ends _ htemp tr')
      rintro r tr' _ ⟨rfl, rfl⟩
      simp only [hstream, hok, bindPost, wp_bind, wp_ofExcept, Result.ofExcept, wp_pure, true_and]
      exact ⟨_, rfl⟩
  · rw [storePlain, wp_bind]
    refine wp_post ?_ (writeBlob_ends _ htemp tr)
    rintro r tr' _ ⟨rfl, rfl⟩
    simp only [hstream, bindPost, wp_ofExcept, Result.ofExcept, true_and]
    exact ⟨_, rfl⟩

/-!
## The snapshots that a difference needs

A difference from one snapshot to another can only be had while both are in the dataset.
`DiffsBased` says so of a step, in the state in which it is taken.
-/

section
variable {driver : BackendDriver β S} {snapshots : β → List S}

/-- A snapshot with the given encoding is in the dataset. -/
def InDataset (driver : BackendDriver β S) (snapshots : β → List S) (b : β) (encoded : Encoded) :
    Prop := ∃ id ∈ snapshots b, driver.encoded id = encoded

/-- The dataset holds a snapshot and that of the parent of its node. -/
structure Based (driver : BackendDriver β S) (snapshots : β → List S) (b : β)
    (parent encoded : Encoded) : Prop where
  node : parent.node = encoded.node.fenwickParent
  parentIn : InDataset driver snapshots b parent
  snapshotIn : InDataset driver snapshots b encoded

/-- A step that asks the backend for a difference is taken when both snapshots are in the dataset.
-/
def DiffsBased (driver : BackendDriver β S) (snapshots : β → List S) (event : Event)
    (w : World β) : Prop :=
  ∀ parent encoded, event = .backend (.diff parent encoded) →
    Based driver snapshots w.backend parent encoded

/-- No call of the backend. -/
def NoCall (event : Event) (_ : World β → World β) : Prop := ∀ call, event ≠ .backend call

theorem onDirectory_noCall : OnDirectory (NoCall (β := β)) where
  look := nofun
  perform _ h := h
  remember _ := nofun
  writeBreadcrumb _ := nofun

theorem NoCall.diffsBased {event : Event} {update : World β → World β} {w : World β}
    (h : NoCall event update) : DiffsBased driver snapshots event (update w) :=
  fun _ _ heq => absurd heq (h _)

end

section
variable [DecidableEq S] {driver : BackendDriver β S} {snapshots : β → List S} {sodium : Sodium σ}
  {env : Env} {params : RepositoryParams} {tr : List Event} {w : World β}

/-- The snapshot that a difference to the given one starts from. -/
def ParentOf (driver : BackendDriver β S) (snapshots : β → List S) (b : β) (id : S)
    (maybeParent : Option S) : Prop :=
  driver.getNode id ≠ Node.initialValue → ∃ parent ∈ snapshots b,
    maybeParent = some parent ∧ driver.getNode parent = (driver.getNode id).fenwickParent

/-- The payload is asked for with both snapshots in the dataset. -/
theorem wp_storeSnapshotOrDiff (h : LinearHistory driver snapshots) {id : S}
    {maybeParent : Option S} (hid : id ∈ snapshots w.backend)
    (hparent : ParentOf driver snapshots w.backend id maybeParent) :
    (storeSnapshotOrDiff driver id maybeParent).wp (AtLast (DiffsBased driver snapshots))
      (fun r _ w' => ∃ stream b, r = .val stream ∧ stream.result = .ok () ∧
        snapshots b = snapshots w.backend ∧ w' = { w with backend := b }) tr w := by
  unfold storeSnapshotOrDiff
  split
  · obtain ⟨hok, hkeeps⟩ := h.initial id w.backend hid
    refine ⟨atLast_append_singleton.mpr nofun, _, _, rfl, hok, hkeeps, rfl⟩
  · next hroot =>
      obtain ⟨parent, hmem, rfl, hnode⟩ := hparent hroot
      obtain ⟨hok, hkeeps⟩ := h.diff parent id w.backend hmem hid
      refine ⟨atLast_append_singleton.mpr ?_, _, _, rfl, hok, hkeeps, rfl⟩
      rintro _ _ ⟨⟩
      refine ⟨?_, ⟨parent, ?_, rfl⟩, ⟨id, ?_, rfl⟩⟩
      · rw [driver.node_encoded, driver.node_encoded, hnode]
      · exact hkeeps.symm ▸ hmem
      · exact hkeeps.symm ▸ hid

/-- The node is stored, and the dataset stays as it is. -/
theorem wp_storeSnapshot_stores (h : LinearHistory driver snapshots) {id : S}
    {maybeParent : Option S} (hid : id ∈ snapshots w.backend)
    (hparent : ParentOf driver snapshots w.backend id maybeParent)
    (hchecked : w.repositoryStructure.temporarySnapshotImpl = false)
    (hcan : CanEncrypt sodium params w.disk.keyPairs)
    (habsent : w.disk.snapshots (driver.getNode id) = none)
    (hlt : (driver.getNode id).toNat < 2 ^ 64 - 1) :
    (storeSnapshot driver sodium env params id maybeParent).wp
      (AtLast (DiffsBased driver snapshots))
      (fun r _ w' => r = .val () ∧ ∃ blob b, snapshots b = snapshots w.backend ∧
        w' = { w with backend := b }.stored (driver.encoded id) blob) tr w := by
  have hquiet {event : Event} {update : World β → World β} {w : World β}
      (hn : NoCall event update) : DiffsBased driver snapshots event (update w) := hn.diffsBased
  -- check out, let the backend write, encrypt if need be, commit
  rw [storeSnapshot, storePayload, wp_bind, wp_bind]
  refine wp_post ?_ ((checkOutTemporarySnapshot_ends hchecked).wp_atLast
    onDirectory_noCall.emits_checkOutTemporarySnapshot fun _ _ _ => hquiet)
  rintro r tr _ ⟨rfl, rfl⟩
  simp only [bindPost, wp_bind]
  refine wp_post ?_ (wp_storeSnapshotOrDiff h (w := w.checkedOut) hid hparent)
  rintro r tr w' ⟨stream, b, rfl, hok, hkeeps, rfl⟩
  simp only [bindPost]
  refine wp_post ?_ ((store_ends env (driver.getNode id) hok
    (w := { w.checkedOut with backend := b }) hcan rfl).wp_atLast
    (onDirectory_noCall.emits_store ..) fun _ _ _ => hquiet)
  rintro r tr _ ⟨rfl, blob, rfl⟩
  simp only [bindPost]
  refine wp_post ?_ ((commit_ends rfl rfl ?_ ?_).wp_atLast
    (onDirectory_noCall.emits_commit _) fun _ _ _ => hquiet)
  · rintro r tr _ ⟨rfl, rfl⟩
    exact ⟨rfl, blob, b, hkeeps, rfl⟩
  · rw [driver.node_encoded]
    exact habsent
  · rw [driver.node_encoded]
    exact hlt

/-!
## The import of a snapshot that exists already

The snapshot that is named on the command line is in the dataset, and that of its parent is found
under the id that the repository holds for it.
-/

/-- A step that reads the directory or decodes a snapshot id. -/
def Decodes : Event → Prop
  | .look | .backend (.snapshotId _) => True
  | _ => False

theorem nodeToSnapshotId_stored (h : LinearHistory driver snapshots) {node : Node} {id : S}
    (hread : w.disk.readId node = .ok (some (driver.encoded id))) :
    (nodeToSnapshotId driver node).Ends (fun r w' => r = .val id ∧ w' = w) w := by
  intro tr
  simp only [nodeToSnapshotId, decodeSnapshotId, callBackend, wp_bind, wp_getEncodedSnapshotId,
    hread, bindPost, wp_readModify, wp_ofExcept, h.snapshotId_encoded, Result.ofExcept, and_self]

/-- What it takes to import a snapshot: it is in the dataset, its node is not in the repository, and
that of its parent is. -/
structure Importable (driver : BackendDriver β S) (snapshots : β → List S) (id : S) (disk : Disk)
    (b : β) : Prop where
  inDataset : id ∈ snapshots b
  absent : disk.snapshots (driver.getNode id) = none
  bound : (driver.getNode id).toNat < 2 ^ 64 - 1
  parent : driver.getNode id ≠ Node.initialValue → ∃ parent ∈ snapshots b,
    disk.readId (driver.getNode id).fenwickParent = .ok (some (driver.encoded parent))

/-- The parent is found in the dataset, under the id that the repository holds. -/
theorem wp_importedParent (h : LinearHistory driver snapshots) {id : S}
    (hid : Importable driver snapshots id w.disk w.backend) :
    (importedParent driver (driver.getNode id)).wp (AtLast (DiffsBased driver snapshots))
      (fun r _ w' => w' = w ∧ ∃ maybeParent, r = .val maybeParent ∧
        ParentOf driver snapshots w.backend id maybeParent) tr w := by
  unfold importedParent Node.fenwickMaybeParent
  by_cases hroot : driver.getNode id = Node.initialValue
  · rw [if_pos (Node.isRoot_iff.mpr hroot)]
    exact ⟨rfl, none, rfl, fun hne => absurd hroot hne⟩
  · obtain ⟨parent, hmem, hread⟩ := hid.parent hroot
    rw [if_neg fun hr => hroot (Node.isRoot_iff.mp hr)]
    simp only [wp_bind]
    refine wp_post ?_ ((nodeToSnapshotId_stored h hread).wp_atLast
      (emits_nodeToSnapshotId (E := Decodes) driver _ trivial fun _ => trivial) ?_)
    · rintro r tr w' ⟨rfl, rfl⟩
      refine ⟨rfl, some parent, rfl, fun _ => ⟨parent, hmem, rfl, ?_⟩⟩
      rw [← driver.node_encoded, Disk.node_of_readId hread]
    · rintro _ u w ⟨hdecodes, -⟩ _ _ rfl
      exact hdecodes.elim

/-- The import command, run on a snapshot that exists already, stores the node. -/
theorem wp_snapshotImportCommand_adopts (h : LinearHistory driver snapshots) {id : S}
    (hid : Importable driver snapshots id w.disk w.backend) {repository : String}
    {args : Uuid × StringVector} (hargs : w.disk.readInitargs repository = .ok args)
    {breadcrumb : Breadcrumb} (hread : w.disk.readBreadcrumb = .ok breadcrumb)
    (hcan : CanEncrypt sodium params w.disk.keyPairs) :
    (snapshotImportCommand driver repository sodium env params false
        (driver.encoded id).serialise).wp (AtLast (DiffsBased driver snapshots))
      (fun r _ w' => r = .val () ∧ ∃ blob b, snapshots b = snapshots w.backend ∧
        w' = { w.opened repository args breadcrumb with backend := b }.stored (driver.encoded id)
          blob) tr w := by
  rw [snapshotImportCommand, wp_bind]
  refine wp_post ?_ ((openRepository_ends hargs hread).wp_atLast
    (onDirectory_noCall.emits_openRepository _) fun _ _ _ hn => hn.diffsBased)
  rintro r tr w' ⟨rfl, rfl⟩
  have habsent : (w.opened repository args breadcrumb).disk.snapshots (driver.getNode id) = none :=
    hid.absent
  simp only [bindPost, snapshotImport, wp_bind, wp_ofExcept, Encoded.deserialise_serialise,
    Result.ofExcept, nodeExists, wp_look, habsent, Option.isSome_none, Bool.false_eq_true, if_false,
    importedSnapshot, decodeSnapshotId, callBackend, wp_readModify, h.snapshotId_encoded,
    driver.node_encoded, atLast_append_singleton]
  refine ⟨by simp [DiffsBased], by simp [DiffsBased], ?_⟩
  refine wp_post ?_ (wp_importedParent h (w := w.opened repository args breadcrumb) hid)
  rintro r tr _ ⟨rfl, maybeParent, rfl, hparent⟩
  exact wp_storeSnapshot_stores h (w := w.opened repository args breadcrumb) hid.inDataset hparent
    rfl hcan hid.absent hid.bound

end

end Controller

end Diffmonger
