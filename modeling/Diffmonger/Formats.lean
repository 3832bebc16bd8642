import Diffmonger.RepositoryStructure.Spec
import Diffmonger.ZfsDriver.Spec

/-!
# The formats of files and messages

Everything that is written to a file of the repository, or sent from one process to another, can be
read back: the reader takes exactly the bytes that were written, whatever follows, and throws if
some of them are missing.
-/

namespace Diffmonger

open Serialisation Zfs ZfsDriver

/-- The deserialiser takes exactly the bytes of the value, whatever follows, and throws a runtime
error if the data ends before. -/
def ReadsBack {α : Type} (deserialiser : Deserialiser α) (bytes : Bytes) (x : α) : Prop :=
  (∀ rest, deserialiser (bytes ++ rest) = .ok (x, rest)) ∧
    ∀ cut, cut <+: bytes → cut ≠ bytes → ∃ what, deserialiser cut = .error (.runtimeError what)

theorem readsBack_of_reads {α : Type} {deserialiser : Deserialiser α} {bytes : Bytes} {x : α}
    (h : Reads (· = insufficientData) deserialiser bytes x) : ReadsBack deserialiser bytes x := by
  refine ⟨h.append, fun cut hcut hne => ?_⟩
  obtain ⟨_, rfl, hfail⟩ := h.truncated cut hcut hne
  exact ⟨_, hfail⟩

/-- The guid and the name of a snapshot are written as strings of their characters. -/
theorem reads_payload (id : SnapshotIdImpl) : Reads (· = insufficientData)
    (SnapshotIdImpl.deserialiser id.node id.timestamp) id.payload id := by
  refine (reads driverIdentityAndVersion).bind <| (reads _).bind <| (reads _).bind_pure ?_
  have hguid : ofBytes (toBytes id.guid.str) = id.guid.str := ofBytes_toBytes id.guid.toNat_lt
  have hname : ofBytes (toBytes id.name.str) = id.name.str := ofBytes_toBytes id.name.toNat_lt
  simp only [SnapshotIdImpl.stdString, hguid, hname, SnapshotGuid.ofString_str,
    SnapshotName.ofString_str]
  rfl

/-- The formats: an encoded id, the bytes in it that only the ZFS driver reads, a key slot, the file
`initargs` and the breadcrumb. -/
theorem formats_readBack :
    (∀ encoded : Encoded, ReadsBack Encoded.deserialiser encoded.serialise encoded) ∧
    (∀ id : SnapshotIdImpl,
      ReadsBack (SnapshotIdImpl.deserialiser id.node id.timestamp) id.payload id) ∧
    (∀ keyPair : KeyPair, ReadsBack deserialise (serialise keyPair) keyPair) ∧
    (∀ formatUuid initargs, ReadsBack RepositoryStructure.initargsDeserialiser
      (RepositoryStructure.serialiseInitargs formatUuid initargs) (formatUuid, initargs)) ∧
    ∀ breadcrumb : Breadcrumb,
      ReadsBack Breadcrumb.deserialiser breadcrumb.serialise breadcrumb :=
  ⟨fun encoded => readsBack_of_reads encoded.reads_serialise,
    fun id => readsBack_of_reads (reads_payload id),
    fun keyPair => readsBack_of_reads (reads keyPair),
    fun formatUuid initargs => readsBack_of_reads
      (RepositoryStructure.reads_serialiseInitargs formatUuid initargs),
    fun breadcrumb => readsBack_of_reads breadcrumb.reads_serialise⟩

/-- A timestamp before the epoch, with data behind it. -/
example : Breadcrumb.deserialiser (Breadcrumb.serialise ⟨⟨3⟩, -2⟩ ++ [7]) =
    .ok (⟨⟨3⟩, -2⟩, [7]) := by decide +kernel

end Diffmonger
