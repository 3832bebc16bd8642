import Diffmonger.Zfs

/-!
# The ZFS driver (`ZfsDriver.cpp`)

The methods of the backend, each as a few commands of `zfs` in a row, any of which may throw. An id
consists of the node, the guid of the snapshot and its name; the encoding holds the latter two as
strings, after a number that identifies the driver. Before a method relies on a snapshot, it asks
for the guid of the name and compares it with that of the id (`castAndVerify`).
-/

namespace Diffmonger

open Serialisation Zfs

namespace ZfsDriver

/-- If ever the encoding changes, this changes. -/
def driverIdentityAndVersion : Uuid :=
  ⟨[0xe3, 0x7c, 0xfb, 0xbe, 0x35, 0x16, 0xaf, 0x29, 0xf4, 0x26, 0x7e, 0xc1, 0xdf, 0x50, 0xc1, 0x61],
    rfl⟩

/-- `SnapshotIdImpl` -/
structure SnapshotIdImpl where
  node : Node
  guid : SnapshotGuid
  name : SnapshotName
  timestamp : Int64
  deriving DecidableEq

namespace SnapshotIdImpl

def pretty (id : SnapshotIdImpl) : String := String.ofList id.name.str

theorem length_guid_str (guid : SnapshotGuid) : guid.str.length ≤ 20 :=
  length_decimal guid.guid.toNat_lt

theorem length_name_str (name : SnapshotName) : name.str.length ≤ 255 := by
  obtain ⟨str, valid⟩ := name
  cases str with
  | nil => exact Nat.zero_le _
  | cons c rest =>
      simp only [matchesSnapshotName, Bool.and_eq_true, decide_eq_true_eq] at valid
      exact Nat.succ_le_succ valid.1.2

/-- A `std::string` of a moderate length. -/
def stdString (str : List Char) (h : str.length ≤ 255) : StdString :=
  ⟨⟨toBytes str, by rw [toBytes, List.length_map]; omega⟩⟩

/-- The bytes that only the driver reads. -/
def payload (id : SnapshotIdImpl) : Bytes :=
  serialise driverIdentityAndVersion ++
    (serialise (stdString id.guid.str ((length_guid_str id.guid).trans (by decide))) ++
      serialise (stdString id.name.str (length_name_str id.name)))

theorem length_payload (id : SnapshotIdImpl) : id.payload.length ≤ 512 := by
  have hguid := length_guid_str id.guid
  have hname := length_name_str id.name
  have hstr (str : List Char) (h : str.length ≤ 255) :
      (serialise (stdString str h)).length = 8 + str.length := by
    show (serialise (UInt64.ofNat _) ++ toBytes str).length = _
    rw [List.length_append, length_serialise_uint64, toBytes, List.length_map]
  have hversion : (serialise driverIdentityAndVersion).length = 16 := rfl
  rw [payload, List.length_append, List.length_append, hstr, hstr, hversion]
  omega

def encoded (id : SnapshotIdImpl) : Encoded :=
  ⟨⟨id.payload, id.length_payload.trans (by decide)⟩, id.node, id.timestamp⟩

/-- Reads the bytes of an encoded id of the given node and timestamp. -/
def deserialiser (node : Node) (timestamp : Int64) : Deserialiser SnapshotIdImpl := do
  let version : Uuid ← deserialise
  let guid : StdString ← deserialise
  let name : StdString ← deserialise
  if version ≠ driverIdentityAndVersion then
    throw (.runtimeError "Driver identity or version mismatch when decoding encoded snapshot")
  else
    let guid ← SnapshotGuid.ofString (ofBytes guid.chars.toList)
    let name ← SnapshotName.ofString (ofBytes name.chars.toList)
    return ⟨node, guid, name, timestamp⟩

/-- The existence of the snapshot is not verified. -/
def parseNoVerify (encoded : Encoded) : Except Exn SnapshotIdImpl :=
  (deserialiser encoded.node encoded.timestamp encoded.bytes.toList).map Prod.fst

end SnapshotIdImpl

/-- `Uuid::ascii` -/
def ascii (uuid : Uuid) : List Char :=
  uuid.toList.flatMap fun b => [(b.toNat / 16).digitChar, (b.toNat % 16).digitChar]

/-- The name of the snapshot that is taken for a node. -/
def snapshotName (node : Node) (uuid : Uuid) : List Char :=
  "diffmonger-".toList ++ decimal node.toNat ++ '-' :: ascii uuid

/-- `ZfsBackendDriverImpl` -/
structure ZfsBackendDriverImpl extends Dataset where
  receive0Args : Option (List (List Char))
  receivenArgs : Option (List (List Char))

namespace ZfsBackendDriverImpl

variable {β : Type} (system : System β) (impl : ZfsBackendDriverImpl)

def doesNotExist (id : SnapshotIdImpl) : Exn :=
  .snapshotDoesNotExist ("Snapshot does not exist: " ++ id.pretty)

def castAndVerify (id : SnapshotIdImpl) : Shell β Unit := do
  let guid ← tryCatch (zfsGetGuid system impl.toDataset id.name) fun
    | .commandFailed _ => throw (doesNotExist id)
    | e => throw e
  if guid ≠ id.guid then
    throw (.snapshotInvalid ("Snapshot invalid (" ++ id.pretty ++
      "): Snapshot GUID mismatch; the snapshot has changed since being created (expected guid: " ++
      String.ofList id.guid.str ++ "; actual guid: " ++ String.ofList guid.str ++ ")."))

def existsSnapshot (id : SnapshotIdImpl) : Shell β Bool :=
  tryCatch (do castAndVerify system impl id; return true) fun
    | .snapshotDoesNotExist _ => return false
    | e => throw e

/-- The exception of `zfs snapshot`, if it is a `std::system_error`; any other one propagates. -/
def trySnapshot (name : SnapshotName) : Shell β (Option Exn) :=
  tryCatch (do zfsSnapshot system impl.toDataset name; return none) fun e =>
    if e.isSystemError then return some e else throw e

/-- The new id has the time of its construction. -/
def newSnapshotId (node : Node) (name : SnapshotName) (maybeException : Option Exn) :
    Shell β (SnapshotIdImpl × Bool) :=
  tryCatch
    (do
      let guid ← zfsGetGuid system impl.toDataset name
      return (⟨node, guid, name, system.now (← get)⟩, maybeException.isSome)) fun e =>
    if e.isRuntimeError then throw (maybeException.getD e) else throw e

def snapshot (node : Node) (uuid : Uuid) : Shell β (SnapshotIdImpl × Bool) := do
  let name ← liftM (SnapshotName.ofString (snapshotName node uuid))
  let maybeException ← trySnapshot system impl name
  newSnapshotId system impl node name maybeException

def removeSnapshot (id : SnapshotIdImpl) : Shell β Unit := do
  castAndVerify system impl id
  zfsRemoveSnapshot system impl.toDataset id.name

/-- What is written to a file descriptor once the ids have been verified. -/
def sendVerified (verify : Shell β Unit) (send : β → Stream × β) : β → Stream × β := fun b =>
  match verify b with
  | (.ok (), b) => send b
  | (.error e, b) => (⟨[], .error e⟩, b)

def initial (id : SnapshotIdImpl) : β → Stream × β :=
  sendVerified (castAndVerify system impl id) (zfsSend system impl.toDataset id.name)

def diff (fromId toId : SnapshotIdImpl) : β → Stream × β :=
  sendVerified (do castAndVerify system impl fromId; castAndVerify system impl toId)
    (zfsDiffsend system impl.toDataset toId.name fromId.name)

def restoreInitial (id : SnapshotIdImpl) (input : Bytes) : Shell β Unit :=
  zfsReceive system impl.toDataset id.name input ("-F".toList :: impl.receive0Args.getD [])

def restoreDiff (fromId toId : SnapshotIdImpl) (input : Bytes) : Shell β Unit := do
  castAndVerify system impl fromId
  zfsReceive system impl.toDataset toId.name input ("-F".toList :: impl.receivenArgs.getD [])

theorem node_of_parseNoVerify {encoded : Encoded} {id : SnapshotIdImpl}
    (h : SnapshotIdImpl.parseNoVerify encoded = .ok id) :
    id.node = encoded.node ∧ id.timestamp = encoded.timestamp := by
  obtain ⟨⟨id', data⟩, hread, heq⟩ := ok_of_map h
  obtain rfl : id' = id := heq
  unfold SnapshotIdImpl.deserialiser at hread
  obtain ⟨⟨version, data₁⟩, -, hread⟩ := Reads.ok_of_bind hread
  obtain ⟨⟨guidStr, data₂⟩, -, hread⟩ := Reads.ok_of_bind hread
  obtain ⟨⟨nameStr, data₃⟩, -, hread⟩ := Reads.ok_of_bind hread
  dsimp only at hread
  split at hread
  · cases hread
  · obtain ⟨⟨guid, data₄⟩, -, hread⟩ := Reads.ok_of_bind hread
    obtain ⟨⟨name, data₅⟩, -, hread⟩ := Reads.ok_of_bind hread
    cases hread
    exact ⟨rfl, rfl⟩

theorem node_of_snapshot {node : Node} {uuid : Uuid} {b : β} {id : SnapshotIdImpl} {old : Bool}
    (h : (snapshot system impl node uuid b).1 = .ok (id, old)) : id.node = node := by
  unfold snapshot at h
  obtain ⟨name, b₁, -, h⟩ := Shell.ok_of_bind h
  obtain ⟨maybeException, b₂, -, h⟩ := Shell.ok_of_bind h
  rw [newSnapshotId, Shell.tryCatch_apply, Shell.bind_apply] at h
  rcases hguid : zfsGetGuid system impl.toDataset name b₂ with ⟨e | guid, b₃⟩
  · simp only [hguid, Shell.andThen] at h
    split at h <;> cases h
  · rw [hguid] at h
    cases h
    rfl

/-- The driver as a backend. -/
def driver : BackendDriver β SnapshotIdImpl where
  pretty := SnapshotIdImpl.pretty
  encoded := SnapshotIdImpl.encoded
  getNode := SnapshotIdImpl.node
  snapshotId := SnapshotIdImpl.parseNoVerify
  snapshot := snapshot system impl
  existsSnapshot := existsSnapshot system impl
  removeSnapshot := removeSnapshot system impl
  initial := initial system impl
  diff := diff system impl
  restoreInitial := restoreInitial system impl
  restoreDiff := restoreDiff system impl
  node_encoded _ := rfl
  getNode_snapshotId _ _ h := (node_of_parseNoVerify h).1
  getNode_snapshot _ _ _ _ _ h := node_of_snapshot system impl h

end ZfsBackendDriverImpl

end ZfsDriver

end Diffmonger
