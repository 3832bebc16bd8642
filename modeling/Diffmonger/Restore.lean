import Diffmonger.Controller

/-!
# Restoring and exporting (`Controller.cpp`)

`restore` and `export_repository` share the loop over the nodes, with a functor that is called upon
each snapshot; for `restore` it does nothing. The payload of a node is a parameter of the call of
the backend: all of it, as the child that decrypts writes it, of which the backend need not read
everything.

The import command of an export is a program of the user's. It is a parameter that acts on the state
of the backend, so that it may be instantiated with another run of this program on the same dataset.

The messages that the commands print are left out.
-/

namespace Diffmonger

open RepositoryStructure

structure RestoreParams where
  password : Option Bytes
  node : Node
  /-- Should nodes whose snapshots already exist in the live dataset be skipped? -/
  skipExisting : Bool

structure ExportParams where
  password : Option Bytes
  importCommand : List String

namespace Controller

variable {β S σ : Type}

/-! ## Keys -/

/-- The functor returns `true`, whether the password opens the key slot or not. -/
def decryptKeyPair (sodium : Sodium σ) (password : Bytes) : Repo β (Option DecryptedKeyPair) :=
  withKeyPairs
    (fun out keyPair => (do
      let decrypted ← Prog.ofExcept (DecryptedKeyPair.ofPassword sodium keyPair password)
      return (some decrypted, true)).handle Exn.isRuntimeError fun _ => return (out, true))
    none

/-- The functor reads what a child process decrypts, which may end early; the child is waited for
unless the functor throws. -/
def withDecryptedInput (sodium : Sodium σ) (input : Bytes) (decryptedKeyPair : DecryptedKeyPair)
    (f : Bytes → Repo β Unit) : Repo β Unit := do
  let output := EncryptionUtil.decryptFromFd sodium decryptedKeyPair input
  f output.bytes
  match output.result with
  | .ok () => return
  | .error _ => Prog.throw childAborted

/-- Without a key the payload is passed on as it is. -/
def decrypted (sodium : Sodium σ) (decryptedKeyPair : Option DecryptedKeyPair) (node : Node)
    (f : Bytes → Repo β Unit) : Repo β Unit := do
  let input ← createPayloadFdForReading node
  match decryptedKeyPair with
  | some decryptedKeyPair => withDecryptedInput sodium input decryptedKeyPair f
  | none => f input

/-! ## `restore` -/

/-- Insert a node into a `std::set`, a sorted list. -/
def emplace (node : Node) : List Node → List Node
  | [] => [node]
  | next :: nodes =>
    if node.value < next.value then node :: next :: nodes
    else if node = next then next :: nodes
    else next :: emplace node nodes

/-- The available nodes, up to the given one, whose ancestors are available. -/
def restorableNodes (last : Node) : List Node → (nodes : List Node) → List Node
  | [], nodes => nodes
  | node :: rest, nodes =>
    if last.value < node.value then nodes
    else if node.fenwickParent ∈ nodes ∨ node = Node.initialValue then
      restorableNodes last rest (emplace node nodes)
    else restorableNodes last rest nodes

/-- The nodes to be restored, in the order in which they are. -/
def nodesToRestore (env : Env) (node : Node) (restoreAllAvailableNodes : Bool) :
    Repo β (List Node) :=
  if restoreAllAvailableNodes then do
    let nodes ← getNodesIncludingUntrusted env ⟨0⟩
    return restorableNodes node nodes []
  else do
    let calls := node.fenwickPathIncRoot
    Prog.ofResult calls.result
    return calls.nodes.foldl (fun nodes value => emplace ⟨value⟩ nodes) []

section
variable (driver : BackendDriver β S) (sodium : Sodium σ)

/-- Hand the payload of a node to the backend. -/
def restorePayload (id : S) (node : Node) (input : Bytes) : Repo β Unit :=
  if node = Node.initialValue then do
    let r ← callBackend (.restoreInitial (driver.encoded id) input) (driver.restoreInitial id input)
    Prog.ofExcept r
  else do
    let parent ← nodeToSnapshotId driver node.fenwickParent
    let r ← callBackend (.restoreDiff (driver.encoded parent) (driver.encoded id) input)
      (driver.restoreDiff parent id input)
    Prog.ofExcept r

def restoreNode (decryptedKeyPair : Option DecryptedKeyPair) (skipExisting : Bool)
    (uponEachSnapshot : S → Repo β Unit) (node : Node) : Repo β Unit := do
  let id ← nodeToSnapshotId driver node
  let found ← existsSnapshot driver id
  if !found || !skipExisting then
    decrypted sodium decryptedKeyPair node (restorePayload driver id node)
  uponEachSnapshot id

/-- `restore`, with all its parameters. -/
def restoreNodes (env : Env) (repositoryParams : RepositoryParams) (params : RestoreParams)
    (restoreAllAvailableNodes : Bool) (uponEachSnapshot : S → Repo β Unit) : Repo β Unit := do
  let decryptedKeyPair ←
    if repositoryParams.encryption then
      match params.password with
      | some password => decryptKeyPair sodium password
      | none => Prog.throw (.runtimeError "Password needed but not given")
    else pure none
  let nodes ← nodesToRestore env params.node restoreAllAvailableNodes
  forM nodes (restoreNode driver sodium decryptedKeyPair params.skipExisting uponEachSnapshot)

def restore (env : Env) (repositoryParams : RepositoryParams) (params : RestoreParams) :
    Repo β Unit :=
  restoreNodes driver sodium env repositoryParams params false fun _ => return

/-! ## `export_repository` -/

/-- Run the import command, which reads the encoded id of the snapshot that has been restored. Only
waiting for it is inside the `try`: a failure to start it, or to write to it, propagates as it is.
-/
def runImportCommand (importCommand : Bytes → β → Except Exn (Except Exn Unit) × β) (id : S) :
    Repo β Unit := do
  let serialised := (driver.encoded id).serialise
  let started ← callBackend (.importCommand serialised) (importCommand serialised)
  let exitStatus ← Prog.ofExcept started
  (Prog.ofExcept exitStatus).handle Exn.isRuntimeError fun e =>
    Prog.throw (.runtimeError ("Snapshot command failed: " ++ e.what))

/-- The import command is a program of the user's; `importCommand` is what starting it and waiting
for it come to. -/
def exportRepository (importCommand : Bytes → β → Except Exn (Except Exn Unit) × β) (env : Env)
    (repositoryParams : RepositoryParams) (params : ExportParams) : Repo β Unit := do
  let next ← getNextSnapshotNode env
  if next = Node.initialValue then return
  else if params.importCommand.isEmpty then
    Prog.throw (.runtimeError "Invalid command: empty command")
  else
    restoreNodes driver sodium env repositoryParams
      ⟨params.password, ⟨next.value - 1⟩, false⟩ true (runImportCommand driver importCommand)

/-- The export command: a new process opens the repository and exports it. -/
def exportRepositoryCommand (repository : String)
    (importCommand : Bytes → β → Except Exn (Except Exn Unit) × β) (env : Env)
    (repositoryParams : RepositoryParams) (params : ExportParams) : Repo β Unit := do
  openRepository repository
  exportRepository driver sodium importCommand env repositoryParams params

end

end Controller

end Diffmonger
