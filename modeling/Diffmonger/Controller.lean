import Diffmonger.Trust

/-!
# The commands (`Controller.cpp`)

Each function of the Controller that takes or imports a snapshot, prunes or lists, as a program; and
each command, which is a new process that opens the repository and calls the function. The backend
is a parameter, and a call of one of its methods is one step of the program, with an effect on the
dataset only.

A child process that encrypts is run here when the backend has written everything, and what it
writes goes to the blob chunk by chunk. That this is what the processes amount to when they run at
the same time is shown in `Controller/Processes.lean`. The loops without a bound of their own get
their fuel from `Env`.

The messages that the commands print are left out.
-/

namespace Diffmonger

open RepositoryStructure

structure RepositoryParams where
  encryption : Bool
  minSecondsBetweenSnapshots : UInt64

/-- How a process reports that a child process was aborted by an exception. -/
def childAborted : Exn := .commandFailed ": command failed due to signal: SIGABRT"

namespace Controller

variable {β S σ : Type}

/-- Call a method of the backend. -/
def callBackend {ρ : Type} (call : BackendCall) (method : β → ρ × β) : Repo β ρ :=
  Prog.readModify (.backend call) (fun w => (method w.backend).1)
    fun w => { w with backend := (method w.backend).2 }

section
variable (driver : BackendDriver β S)

/-- `backendDriver.snapshotId()`, which only decodes. -/
def decodeSnapshotId (encoded : Encoded) : Repo β S := do
  let id ← callBackend (.snapshotId encoded) fun b => (driver.snapshotId encoded, b)
  Prog.ofExcept id

def nodeToSnapshotId (node : Node) : Repo β S := do
  decodeSnapshotId driver (← getEncodedSnapshotId node)

def existsSnapshot (id : S) : Repo β Bool := do
  let r ← callBackend (.existsSnapshot (driver.encoded id)) (driver.existsSnapshot id)
  Prog.ofExcept r

def removeSnapshot (id : S) : Repo β Unit := do
  let r ← callBackend (.removeSnapshot (driver.encoded id)) (driver.removeSnapshot id)
  Prog.ofExcept r

def takeSnapshot (node : Node) (uuid : Uuid) : Repo β (S × Bool) := do
  let r ← callBackend (.snapshot node) (driver.snapshot node uuid)
  Prog.ofExcept r

/-! ## Storing a snapshot -/

/-- The payload of a node, as the backend writes it: a full image of the initial node, a difference
to the parent for any other one. -/
def storeSnapshotOrDiff (snapshotId : S) (maybeParent : Option S) : Repo β Stream :=
  if driver.getNode snapshotId = Node.initialValue then
    callBackend (.initial (driver.encoded snapshotId)) (driver.initial snapshotId)
  else
    match maybeParent with
    -- the callers have thrown before if there is no parent
    | none => Prog.throw (.logicError "Bug: store_snapshot() not given parent when needed")
    | some parent =>
      callBackend (.diff (driver.encoded parent) (driver.encoded snapshotId))
        (driver.diff parent snapshotId)

/-- The child process that encrypts what comes through the pipe; an exception ends it. -/
def encryptInChild (sodium : Sodium σ) (env : Env) (node : Node) (plaintext : Bytes) :
    Repo β Stream :=
  (do
    let keyPairs ← readKeyPairs
    return EncryptionUtil.encryptToFd sodium (env.random node) keyPairs plaintext).handle
      (fun _ => true) fun e => return Stream.fail e

/-- Append to the blob, one `write` after the other. -/
def writeBlob (chunks : List Bytes) : Repo β Unit :=
  forM chunks fun chunk => perform (.writeBlob chunk)

/-- What the backend writes goes to the blob. -/
def storePlain (stream : Stream) : Repo β Unit := do
  writeBlob stream.chunks
  Prog.ofExcept stream.result

/-- What the backend writes goes into a pipe, at whose other end the child process fills the blob.
The child is waited for unless the backend throws first. -/
def storeEncrypted (sodium : Sodium σ) (env : Env) (node : Node) (stream : Stream) :
    Repo β Unit := do
  let encrypted ← encryptInChild sodium env node stream.bytes
  writeBlob encrypted.chunks
  -- the exception of the backend propagates, whatever becomes of the child
  Prog.ofExcept stream.result
  match encrypted.result with
  | .ok () => return
  | .error _ => Prog.throw childAborted

/-- The part of `store_snapshot` before the commit. -/
def storePayload (sodium : Sodium σ) (env : Env) (params : RepositoryParams) (snapshotId : S)
    (maybeParent : Option S) : Repo β Unit := do
  checkOutTemporarySnapshot
  let stream ← storeSnapshotOrDiff driver snapshotId maybeParent
  if params.encryption then storeEncrypted sodium env (driver.getNode snapshotId) stream
  else storePlain stream

def storeSnapshot (sodium : Sodium σ) (env : Env) (params : RepositoryParams) (snapshotId : S)
    (maybeParent : Option S) : Repo β Unit := do
  storePayload driver sodium env params snapshotId maybeParent
  commit (driver.encoded snapshotId)

/-! ## `snapshot` -/

/-- `prune()`: the functor is called for each node that dies with the latest trusted node, as
`getLatestTrustedNode` has it. -/
def prune (fremove : Node → Repo β Unit) : Repo β Unit := do
  match ← getLatestTrustedNode with
  | none => return
  | some node => forEachNode node.prune fremove

/-- What `_snapshot` does to a node to be pruned: the directory goes first, and the snapshot of the
dataset is looked up in it afterwards. -/
def pruneNode (env : Env) (node : Node) : Repo β Unit :=
  (do
    deleteNode env node
    match ← tryGetEncodedSnapshotId node with
    | some encoded => removeSnapshot driver (← decodeSnapshotId driver encoded)
    | none => return).handle Exn.isSnapshotDoesNotExist fun _ => return

/-- The parent's snapshot must exist in the dataset. -/
def parentSnapshot (node : Node) : Repo β (Option S) :=
  match node.fenwickMaybeParent with
  | none => return none
  | some parent => do
    let id ← nodeToSnapshotId driver parent
    if ← existsSnapshot driver id then return some id
    else Prog.throw (.snapshotDoesNotExist ("Parent snapshot (" ++ driver.pretty id ++
      ") does not exist; it must be created by restoring to the dataset."))

/-- One iteration; `false` if the snapshot was already old. -/
def _snapshot (sodium : Sodium σ) (env : Env) (params : RepositoryParams) : Repo β Bool := do
  let node ← getNextSnapshotNode env
  prune (pruneNode driver env)
  let maybeParent ← parentSnapshot driver node
  let uuid ← getRepositoryUuid
  let (id, alreadyOld) ← takeSnapshot driver node uuid
  storeSnapshot driver sodium env params id maybeParent
  return !alreadyOld

def snapshotLoop (sodium : Sodium σ) (env : Env) (params : RepositoryParams) : ℕ → Repo β Unit
  | 0 => Prog.diverge
  | fuel + 1 => do
    if ← _snapshot driver sodium env params then return
    else snapshotLoop sodium env params fuel

def snapshot (sodium : Sodium σ) (env : Env) (params : RepositoryParams) : Repo β Unit :=
  snapshotLoop driver sodium env params env.fuel

/-- The snapshot command: a new process opens the repository and takes a snapshot. -/
def snapshotCommand (repository : String) (sodium : Sodium σ) (env : Env)
    (params : RepositoryParams) : Repo β Unit := do
  openRepository repository
  snapshot driver sodium env params

/-! ## `snapshot_import` -/

/-- A new snapshot of the dataset, or the existing one. -/
def importedSnapshot (createSnapshot : Bool) (encoded : Encoded) : Repo β S :=
  if createSnapshot then do
    let uuid ← getRepositoryUuid
    let (id, _) ← takeSnapshot driver encoded.node uuid
    return id
  else decodeSnapshotId driver encoded

def importedParent (node : Node) : Repo β (Option S) :=
  match node.fenwickMaybeParent with
  | none => return none
  | some parent => do
    let id ← nodeToSnapshotId driver parent
    return some id

/-- Stores the snapshot whose encoded id is read from standard input. -/
def snapshotImport (sodium : Sodium σ) (env : Env) (params : RepositoryParams)
    (createSnapshot : Bool) (stdinbytes : Bytes) : Repo β Unit := do
  let encoded ← Prog.ofExcept (Encoded.deserialise stdinbytes)
  if ← nodeExists encoded.node then
    Prog.throw (.runtimeError "Cannot import snapshot: node already exists")
  else
    let id ← importedSnapshot driver createSnapshot encoded
    let maybeParent ← importedParent driver encoded.node
    storeSnapshot driver sodium env params id maybeParent

/-- The import command: a new process opens the repository and imports the snapshot. -/
def snapshotImportCommand (repository : String) (sodium : Sodium σ) (env : Env)
    (params : RepositoryParams) (createSnapshot : Bool) (stdinbytes : Bytes) : Repo β Unit := do
  openRepository repository
  snapshotImport driver sodium env params createSnapshot stdinbytes

end

/-! ## `prune_repository` -/

/-- `duration_cast` of the seconds to nanoseconds -/
def minTimeBetweenSnapshots (params : RepositoryParams) : Int64 :=
  params.minSecondsBetweenSnapshots.toInt64 * 1000000000

def pruneRepositoryLoop (plus : Int64 → Int64 → ℤ) (env : Env) (params : RepositoryParams)
    (now : Int64) : ℕ → Repo β Unit
  | 0 => Prog.diverge
  | fuel + 1 => do
    let breadcrumb ← getBreadcrumb
    match ← tryGetEncodedSnapshotId breadcrumb.untrustedBegin with
    | none => return
    | some candidate =>
      match ← Trust.maybeUpdateBreadcrumb plus breadcrumb candidate
          (minTimeBetweenSnapshots params) now with
      | none => return
      | some updatedBreadcrumb =>
        forEachNode breadcrumb.untrustedBegin.prune (deleteNode env)
        writeBreadcrumb updatedBreadcrumb
        pruneRepositoryLoop plus env params now fuel

/-- `now` is read from the clock once. -/
def pruneRepository (plus : Int64 → Int64 → ℤ) (env : Env) (params : RepositoryParams)
    (now : Int64) : Repo β Unit :=
  pruneRepositoryLoop plus env params now env.fuel

/-- A new process opens the repository and prunes it. -/
def pruneRepositoryCommand (repository : String) (plus : Int64 → Int64 → ℤ) (env : Env)
    (params : RepositoryParams) (now : Int64) : Repo β Unit := do
  openRepository repository
  pruneRepository plus env params now

/-! ## `list_nodes` -/

/-- The lines that are printed: the nodes, with the times of their snapshots if these are asked
for. -/
def listNodes (env : Env) (showTimestamps : Bool) : Repo β (List (Node × Option Int64)) := do
  let nodes ← getNodesIncludingUntrusted env ⟨0⟩
  nodes.mapM fun node =>
    if showTimestamps then do
      let encoded ← getEncodedSnapshotId node
      return (node, some encoded.timestamp)
    else return (node, none)

/-- A new process opens the repository and lists its nodes. -/
def listNodesCommand (repository : String) (env : Env) (showTimestamps : Bool) :
    Repo β (List (Node × Option Int64)) := do
  openRepository repository
  listNodes env showTimestamps

end Controller

end Diffmonger
