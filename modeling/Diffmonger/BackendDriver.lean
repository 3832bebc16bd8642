import Diffmonger.Lib.Rollback
import Diffmonger.Serialisation

/-!
# Snapshot ids and backends (`BackendDriver.hpp`)

A backend is given by its methods, as functions on the state `β` of the dataset; `S` is its type of
snapshot ids. Any method may throw. A method that writes to a file descriptor is modelled by the
`Stream` it writes; a method that reads from one takes the bytes that can be read.
-/

namespace Diffmonger

open Serialisation

/-- 16 bytes -/
abbrev Uuid := List.Vector Byte 16

/-- `BackendDriver::SnapshotId::Encoded`; the timestamp counts nanoseconds since the epoch. -/
structure Encoded where
  bytes : ByteVector
  node : Node
  timestamp : Int64
  deriving DecidableEq

namespace Encoded

def serialise (encoded : Encoded) : Bytes :=
  serialiseSpan encoded.bytes.toList ++
    (Serialisation.serialise encoded.node.value ++ Serialisation.serialise encoded.timestamp)

def deserialiser : Deserialiser Encoded := do
  let encodedBytes ← Serialisation.deserialise
  let value ← Serialisation.deserialise
  let timestamp ← Serialisation.deserialise
  return ⟨encodedBytes, ⟨value⟩, timestamp⟩

/-- Data after the timestamp is ignored. -/
def deserialise (bytes : Bytes) : Except Exn Encoded := (deserialiser bytes).map Prod.fst

theorem reads_serialise (encoded : Encoded) :
    Reads (· = insufficientData) deserialiser encoded.serialise encoded :=
  (reads_span encoded.bytes).bind <| (reads encoded.node.value).bind <|
    (reads encoded.timestamp).bind_pure rfl

@[simp] theorem deserialise_serialise (encoded : Encoded) :
    deserialise encoded.serialise = .ok encoded := by
  rw [deserialise, encoded.reads_serialise.all]
  rfl

/-- An id that consists of its node. -/
def plain (node : Node) : Encoded := ⟨⟨[], Nat.zero_le _⟩, node, 0⟩

end Encoded

/-- What a method writes to a file descriptor, one `write` after the other, and how it ends. -/
structure Stream where
  chunks : List Bytes
  result : Except Exn Unit

/-- The methods of a backend, with what their documentation says about the node of an id. -/
structure BackendDriver (β S : Type) where
  pretty : S → String
  encoded : S → Encoded
  getNode : S → Node
  snapshotId : Encoded → Except Exn S
  /-- The Boolean says that the snapshot is already old. -/
  snapshot : Node → Uuid → β → Except Exn (S × Bool) × β
  existsSnapshot : S → β → Except Exn Bool × β
  removeSnapshot : S → β → Except Exn Unit × β
  initial : S → β → Stream × β
  diff : S → S → β → Stream × β
  restoreInitial : S → Bytes → β → Except Exn Unit × β
  restoreDiff : S → S → Bytes → β → Except Exn Unit × β
  node_encoded : ∀ id, (encoded id).node = getNode id
  getNode_snapshotId : ∀ e id, snapshotId e = .ok id → getNode id = e.node
  getNode_snapshot : ∀ node uuid b id old,
    (snapshot node uuid b).1 = .ok (id, old) → getNode id = node

/-- `BackendDriver::SnapshotDoesNotExist` -/
def BackendDriver.doesNotExist {β S : Type} (driver : BackendDriver β S) (id : S) : Exn :=
  .snapshotDoesNotExist ("Snapshot does not exist: " ++ driver.pretty id)

/-- A backend whose ids are their own encodings, and that writes the same payload for every node. -/
def BackendDriver.constant (payload : Bytes) : BackendDriver Unit Encoded where
  pretty _ := "constant"
  encoded id := id
  getNode id := id.node
  snapshotId encoded := .ok encoded
  snapshot node _ b := (.ok (.plain node, false), b)
  existsSnapshot _ b := (.ok true, b)
  removeSnapshot _ b := (.ok (), b)
  initial _ b := (⟨[payload], .ok ()⟩, b)
  diff _ _ b := (⟨[payload], .ok ()⟩, b)
  restoreInitial _ _ b := (.ok (), b)
  restoreDiff _ _ _ b := (.ok (), b)
  node_encoded _ := rfl
  getNode_snapshotId e id h := by cases h; rfl
  getNode_snapshot node uuid b id old h := by cases h; rfl

/-- A backend whose dataset is the list of its snapshots, and whose ids are their own encodings. It
writes the number of the snapshot that it is asked for. -/
def BackendDriver.linear : BackendDriver (List Encoded) Encoded where
  pretty _ := "linear"
  encoded id := id
  getNode id := id.node
  snapshotId encoded := .ok encoded
  snapshot node _ b :=
    let id := Encoded.plain node
    (.ok (id, false), b ++ [id])
  existsSnapshot id b := (.ok (decide (id ∈ b)), b)
  removeSnapshot id b := (.ok (), b.erase id)
  initial id b :=
    if id ∈ b then (⟨[Serialisation.serialise id.node.value], .ok ()⟩, b)
    else (⟨[], .error (.snapshotDoesNotExist "linear")⟩, b)
  diff parent id b :=
    if parent ∈ b ∧ id ∈ b then (⟨[Serialisation.serialise id.node.value], .ok ()⟩, b)
    else (⟨[], .error (.snapshotDoesNotExist "linear")⟩, b)
  restoreInitial id _ _ := (.ok (), [id])
  restoreDiff parent id _ b :=
    if parent ∈ b then (.ok (), rollBack parent b ++ [id])
    else (.error (.snapshotDoesNotExist "linear"), b)
  node_encoded _ := rfl
  getNode_snapshotId e id h := by cases h; rfl
  getNode_snapshot node uuid b id old h := by cases h; rfl

end Diffmonger
