import Diffmonger.BackendDriver

/-!
# The repository's directory, and the steps on it

A `Disk` holds what the program reads of a repository's directory. A process works on a `World`:
the directory, its own `RepositoryStructure` object and the backend's dataset.

Every step of a process is an `Event`. The event determines what the step does to the directory
(`Event.apply`), so that what a killed process leaves behind is a fold over its events. A step that
changes neither the directory nor the dataset is a `look`.
-/

namespace Diffmonger

open Serialisation

/-- The directory of a node, or the temporary one: its files `id` and `blob`. -/
structure NodeDir where
  id : Option Bytes
  blob : Option Bytes
  deriving DecidableEq, Repr

structure Disk where
  /-- The file `initargs`. -/
  initargs : Option Bytes
  /-- The file `repository-uuid`. -/
  uuid : Option Bytes
  /-- The files of the directory `keys` that are named by a number. -/
  keys : Option (ℕ → Option Bytes)
  /-- The file `breadcrumb`. -/
  breadcrumb : Option Bytes
  /-- The directory `temporary-snapshot`. -/
  temporarySnapshot : Option NodeDir
  /-- The directories in `snapshots`. -/
  snapshots : Node → Option NodeDir

/-- `RepositoryStructure::Breadcrumb` -/
structure Breadcrumb where
  untrustedBegin : Node
  lastTrustedNodeAuthorisedAt : Int64
  deriving DecidableEq, Repr

namespace Breadcrumb

/-- What `writeBreadcrumb` writes. -/
def serialise (breadcrumb : Breadcrumb) : Bytes :=
  Serialisation.serialise breadcrumb.untrustedBegin.value ++
    Serialisation.serialise breadcrumb.lastTrustedNodeAuthorisedAt

def deserialiser : Deserialiser Breadcrumb := do
  let value ← Serialisation.deserialise
  let at' ← Serialisation.deserialise
  return ⟨⟨value⟩, at'⟩

/-- What the constructor reads. -/
def deserialise (bytes : Bytes) : Except Exn Breadcrumb := (deserialiser bytes).map Prod.fst

theorem reads_serialise (breadcrumb : Breadcrumb) :
    Reads (· = insufficientData) deserialiser breadcrumb.serialise breadcrumb :=
  (reads breadcrumb.untrustedBegin.value).bind <|
    (reads breadcrumb.lastTrustedNodeAuthorisedAt).bind_pure rfl

@[simp] theorem deserialise_serialise (breadcrumb : Breadcrumb) :
    deserialise breadcrumb.serialise = .ok breadcrumb := by
  rw [deserialise, breadcrumb.reads_serialise.all]
  rfl

/-- A breadcrumb file that has been truncated cannot be read. -/
@[simp] theorem deserialise_nil :
    deserialise [] = .error (.runtimeError "Insufficient data (corrupt stream)") := rfl

/-- The breadcrumb of a repository that has no breadcrumb file. -/
def initial : Breadcrumb := ⟨Node.initialValue, Int64.minValue⟩

end Breadcrumb

/-- The members of a `RepositoryStructure` object. -/
structure RepositoryStructure where
  repository : String
  repositoryStructureFormatUuid : Uuid
  initargs : StringVector
  breadcrumb : Breadcrumb
  /-- `temporarySnapshotImpl` is set: the temporary snapshot is checked out. -/
  temporarySnapshotImpl : Bool

structure World (β : Type) where
  disk : Disk
  repositoryStructure : RepositoryStructure
  backend : β

/-- A call of a method of the backend, or of another program that works on the dataset. -/
inductive BackendCall where
  | snapshotId (encoded : Encoded)
  | snapshot (node : Node)
  | existsSnapshot (encoded : Encoded)
  | removeSnapshot (encoded : Encoded)
  | initial (encoded : Encoded)
  | diff (parent encoded : Encoded)
  | restoreInitial (encoded : Encoded) (input : Bytes)
  | restoreDiff (parent encoded : Encoded) (input : Bytes)
  | importCommand (stdinbytes : Bytes)
  deriving DecidableEq

inductive Event where
  | look
  | backend (call : BackendCall)
  | createTemporary
  | unlinkTemporaryId
  | unlinkTemporaryBlob
  | createBlob
  | writeBlob (chunk : Bytes)
  | truncateTemporaryId
  | writeTemporaryId (bytes : Bytes)
  | rename (node : Node)
  | truncateBreadcrumb
  | writeBreadcrumb (breadcrumb : Breadcrumb)
  | unlinkId (node : Node)
  | unlinkBlob (node : Node)
  | removeDirectory (node : Node)
  deriving DecidableEq

namespace Disk

/-- Change a directory in `snapshots`. -/
def setNode (disk : Disk) (node : Node) (dir : Option NodeDir) : Disk :=
  { disk with snapshots := Function.update disk.snapshots node dir }

@[simp] theorem setNode_self (disk : Disk) (node : Node) (dir : Option NodeDir) :
    (disk.setNode node dir).snapshots node = dir := Function.update_self ..

theorem setNode_of_ne (disk : Disk) {node m : Node} (h : m ≠ node) (dir : Option NodeDir) :
    (disk.setNode node dir).snapshots m = disk.snapshots m := Function.update_of_ne h ..

/-- Change the temporary directory. -/
def setTemporary (disk : Disk) (f : NodeDir → NodeDir) : Disk :=
  { disk with temporarySnapshot := disk.temporarySnapshot.map f }

/-- The files that belong to no node. -/
def clear (disk : Disk) : Disk := { disk with temporarySnapshot := none, snapshots := fun _ => none }

/-- The numbers of the nodes that have a directory. -/
def nodes (disk : Disk) : Set ℕ := {k | ∃ node, node.toNat = k ∧ (disk.snapshots node).isSome}

theorem toNat_mem_nodes {disk : Disk} {node : Node} :
    node.toNat ∈ disk.nodes ↔ (disk.snapshots node).isSome :=
  ⟨fun ⟨_, h, hs⟩ => Node.toNat_inj.mp h ▸ hs, fun h => ⟨node, rfl, h⟩⟩

end Disk

/-- What a step does to the repository's directory. -/
def Event.apply (disk : Disk) : Event → Disk
  | look | backend _ => disk
  | createTemporary => { disk with temporarySnapshot := some ⟨none, none⟩ }
  | unlinkTemporaryId => disk.setTemporary fun dir => { dir with id := none }
  | unlinkTemporaryBlob => disk.setTemporary fun dir => { dir with blob := none }
  | createBlob => disk.setTemporary fun dir => { dir with blob := some [] }
  | writeBlob chunk => disk.setTemporary fun dir => { dir with blob := dir.blob.map (· ++ chunk) }
  | truncateTemporaryId => disk.setTemporary fun dir => { dir with id := some [] }
  | writeTemporaryId bytes => disk.setTemporary fun dir => { dir with id := some bytes }
  | rename node => { disk.setNode node disk.temporarySnapshot with temporarySnapshot := none }
  | truncateBreadcrumb => { disk with breadcrumb := some [] }
  | writeBreadcrumb breadcrumb => { disk with breadcrumb := some breadcrumb.serialise }
  | unlinkId node =>
    disk.setNode node ((disk.snapshots node).map fun dir => { dir with id := none })
  | unlinkBlob node =>
    disk.setNode node ((disk.snapshots node).map fun dir => { dir with blob := none })
  | removeDirectory node => disk.setNode node none

end Diffmonger
