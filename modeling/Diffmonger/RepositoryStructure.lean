import Diffmonger.Disk
import Diffmonger.EncryptionUtil
import Diffmonger.Lib.History

/-!
# The repository (`RepositoryStructure.cpp`)

The methods of `RepositoryStructure`, as programs on the world of a process. What the operating
system decides is a parameter: `Env`.

A method takes a step for every system call after which the directory is another one, so that a kill
between any two of them can be modelled; the steps that only read are kept as well, since other
processes may take theirs in between. So are changes of the object's own memory; only the breadcrumb
is remembered in the step that writes it.

The lock that the constructor waits for is not a step of a program: `Lib/Locking.lean` says what it
does to programs that take it first. The permissions of files and files that no method reads are
left out.
-/

namespace Diffmonger

/-- A program of the process that owns the repository. -/
abbrev Repo (β α : Type) := Prog Event (World β) Exn α

/-- What a process is given by its surroundings. -/
structure Env where
  /-- Bounds the number of iterations of the loops that have no bound of their own. -/
  fuel : ℕ
  /-- The order in which `remove_all` visits the files of a node's directory. -/
  blobFirst : Node → Bool
  /-- The random bytes drawn while a node is being stored. -/
  random : Node → Randomness

section
variable {β α : Type}

/-- Read the directory or the process's own memory. -/
def look (f : World β → α) : Repo β α := Prog.read .look f

/-- Take a step on the directory. -/
def perform (event : Event) : Repo β Unit :=
  Prog.modify event fun w => { w with disk := event.apply w.disk }

/-- Take a step on the directory if it is needed. -/
def performIf (needed : Bool) (event : Event) : Repo β Unit :=
  if needed then perform event else pure ()

/-- Change the process's own memory. -/
def remember (f : RepositoryStructure → RepositoryStructure) : Repo β Unit :=
  Prog.modify .look fun w => { w with repositoryStructure := f w.repositoryStructure }

/-- Call a functor on the nodes that a function of the tree calls it on. -/
def forEachNode (calls : Tree.Calls) (f : Node → Repo β Unit) : Repo β Unit := do
  forM calls.nodes fun value => f ⟨value⟩
  Prog.ofResult calls.result

end

/-- The path of a node's directory. -/
def pathForNode (repository : String) (node : Node) : String :=
  repository ++ "/snapshots/" ++ toString node.value

namespace Disk

def idFile (disk : Disk) (node : Node) : Option Bytes := (disk.snapshots node).bind NodeDir.id

def blobFile (disk : Disk) (node : Node) : Option Bytes := (disk.snapshots node).bind NodeDir.blob

end Disk

namespace RepositoryStructure

variable {β : Type}

def maxKeySlots : ℕ := 255

/-! ## Reading nodes -/

def tryGetEncodedSnapshotId2 (node : Node) : Repo β (Except Exn Encoded) := do
  let w ← look id
  match w.disk.idFile node with
  | none =>
    return .error (.systemError .ENOENT
      ("Could not read file (" ++ pathForNode w.repositoryStructure.repository node ++ "/id)"))
  | some bytes =>
    let out ← Prog.ofExcept (Encoded.deserialise bytes)
    if out.node ≠ node then
      Prog.throw (.runtimeError "Node mismatch in repository: repository in invalid state")
    else return .ok out

def tryGetEncodedSnapshotId (node : Node) : Repo β (Option Encoded) := do
  match ← tryGetEncodedSnapshotId2 node with
  | .ok out => return some out
  | .error (.systemError .ENOENT _) => return none
  | .error e => Prog.throw e

def getEncodedSnapshotId (node : Node) : Repo β Encoded := do
  match ← tryGetEncodedSnapshotId2 node with
  | .ok out => return out
  | .error e => Prog.throw e

def nodeExists (node : Node) : Repo β Bool := look fun w => (w.disk.snapshots node).isSome

/-- The bytes that can be read from the node's payload file. -/
def createPayloadFdForReading (node : Node) : Repo β Bytes := do
  let w ← look id
  match w.disk.blobFile node with
  | some bytes => return bytes
  | none =>
    Prog.throw (.systemError .ENOENT
      ("open (" ++ pathForNode w.repositoryStructure.repository node ++ "/blob)"))

def getBreadcrumb : Repo β Breadcrumb := look fun w => w.repositoryStructure.breadcrumb

/-- The source returns `untrusted_begin` itself, not the node before it. -/
def getLatestTrustedNode : Repo β (Option Node) := do
  let node := (← getBreadcrumb).untrustedBegin
  return if node = Node.initialValue then none else some node

/-- `while (true)`: the next node looked at is the one that has just been read. -/
def getNextSnapshotNodeLoop : ℕ → Node → Repo β Node
  | 0, _ => Prog.diverge
  | fuel + 1, prev => do
    match ← tryGetEncodedSnapshotId prev with
    | some next => getNextSnapshotNodeLoop fuel next.node
    | none => return prev

def getNextSnapshotNode (env : Env) : Repo β Node := do
  getNextSnapshotNodeLoop env.fuel (← getBreadcrumb).untrustedBegin

/-- The nodes among the given ones that exist. -/
def existingNodes : List UInt64 → Repo β (List Node)
  | [] => return []
  | value :: rest => do
    let found ← nodeExists ⟨value⟩
    let nodes ← existingNodes rest
    return if found then ⟨value⟩ :: nodes else nodes

/-- The nodes from the given one to, but not including, the last one. -/
def nodesUntil (last : Node) : ℕ → Node → Repo β (List Node)
  | 0, _ => Prog.diverge
  | fuel + 1, node =>
    if node = last then return []
    else do
      let next ← Prog.ofExcept node.next
      let nodes ← nodesUntil last fuel next
      return node :: nodes

/-- The alive ones of the trusted nodes, as far as they exist, and all untrusted ones; sorted. The
node 0 stands for no limit. -/
def getNodesIncludingUntrusted (env : Env) (limit : Node) : Repo β (List Node) := do
  let begin' := (← getBreadcrumb).untrustedBegin
  if begin' = Node.initialValue then return []
  else
    let calls := Node.aliveAfter ⟨begin'.value - 1⟩
    let alive ← existingNodes calls.nodes
    Prog.ofResult calls.result
    let next ← getNextSnapshotNode env
    let last := if limit = ⟨0⟩ ∨ next.value < limit.value then next else limit
    let untrusted ← nodesUntil last env.fuel begin'
    return (alive ++ untrusted).mergeSort fun a b => a.value ≤ b.value

def getRepositoryUuid : Repo β Uuid := do
  let w ← look id
  match w.disk.uuid with
  | none =>
    Prog.throw (.systemError .ENOENT
      ("open (" ++ w.repositoryStructure.repository ++ "/repository-uuid)"))
  | some bytes =>
    let (uuid, _) ← Prog.ofExcept (Ioutil.readBytesExact 16 bytes)
    return uuid

/-- One less than the offset; the least offset is made greater first. -/
def offsetPrime (offset : Int64) : Int64 :=
  (if Int64.minValue + 1 < offset then offset else Int64.minValue + 1) - 1

/-- The `for` loop: the number of steps that are left, and what has been read. -/
def getNodeRelativeToLastTrustedLoop : ℕ → Option Encoded → Repo β (Option Encoded)
  | 0, next => return next
  | _ + 1, none => return none
  | steps + 1, some encoded => do
    let node ← Prog.ofExcept encoded.node.next
    getNodeRelativeToLastTrustedLoop steps (← tryGetEncodedSnapshotId node)

def getNodeRelativeToLastTrusted (offset : Int64) : Repo β (Option Encoded) := do
  let begin' := (← getBreadcrumb).untrustedBegin
  if 0 < offsetPrime offset then
    let next ← tryGetEncodedSnapshotId begin'
    getNodeRelativeToLastTrustedLoop (offsetPrime offset).toUInt64.toNat next
  else if Int64.maxValue.toUInt64 < begin'.value then Prog.throw (.runtimeError "Node too big")
  else if -begin'.value.toInt64 ≤ offsetPrime offset then
    tryGetEncodedSnapshotId ⟨begin'.value + offset.toUInt64⟩
  else return none

/-! ## Storing and deleting nodes -/

/-- A leftover of an earlier attempt is emptied. -/
def emptyTemporary : Option NodeDir → Repo β Unit
  | some dir => do
    performIf dir.id.isSome .unlinkTemporaryId
    performIf dir.blob.isSome .unlinkTemporaryBlob
  | none => perform .createTemporary

/-- With the constructor of `TemporarySnapshot::Impl`. -/
def checkOutTemporarySnapshot : Repo β Unit := do
  if ← look fun w => w.repositoryStructure.temporarySnapshotImpl then
    Prog.throw (.logicError "TemporarySnapshot already checked out")
  else
    emptyTemporary (← look fun w => w.disk.temporarySnapshot)
    perform .createBlob
    remember fun r => { r with temporarySnapshotImpl := true }

/-- `rename` of the temporary directory; an empty directory under the new name is replaced. -/
def renameTemporary (node : Node) : Repo β Unit := do
  let w ← look id
  match w.disk.snapshots node with
  | none | some ⟨none, none⟩ => perform (.rename node)
  | some _ =>
    let repository := w.repositoryStructure.repository
    Prog.throw (.systemError (.other 39)
      ("Could not rename " ++ repository ++ "/temporary-snapshot to " ++
        pathForNode repository node))

/-- `TemporarySnapshot::commit` -/
def commitTemporary (encoded : Encoded) : Repo β Unit := do
  perform .truncateTemporaryId
  perform (.writeTemporaryId encoded.serialise)
  (renameTemporary encoded.node).handle Exn.isSystemError fun e => do
    if ← nodeExists encoded.node then
      Prog.throw (.runtimeError ("Node " ++ toString encoded.node.value ++
        "already exists in repository; this is unexpected"))
    else Prog.throw e

/-- The object's copy is set once the file is written; no kill can tell the two steps apart. -/
def writeBreadcrumb (breadcrumb : Breadcrumb) : Repo β Unit := do
  perform .truncateBreadcrumb
  Prog.modify (.writeBreadcrumb breadcrumb) fun w =>
    { w with
      disk := (Event.writeBreadcrumb breadcrumb).apply w.disk
      repositoryStructure := { w.repositoryStructure with breadcrumb := breadcrumb } }

def commit (encoded : Encoded) : Repo β Unit := do
  if ← look fun w => w.repositoryStructure.temporarySnapshotImpl then
    remember fun r => { r with temporarySnapshotImpl := false }
    commitTemporary encoded
    let next ← Prog.ofExcept encoded.node.next
    writeBreadcrumb ⟨next, encoded.timestamp⟩
  else Prog.throw (.invalidArgument "Invalid TemporarySnapshot: owner mismatch")

/-- The files of a node's directory, in the order in which they are visited. -/
def unlinkFiles (env : Env) (node : Node) (dir : NodeDir) : Repo β Unit :=
  if env.blobFirst node then do
    performIf dir.blob.isSome (.unlinkBlob node)
    performIf dir.id.isSome (.unlinkId node)
  else do
    performIf dir.id.isSome (.unlinkId node)
    performIf dir.blob.isSome (.unlinkBlob node)

/-- `remove_all`: nothing happens if there is no such directory. -/
def deleteNode (env : Env) (node : Node) : Repo β Unit := do
  match ← look fun w => w.disk.snapshots node with
  | none => return
  | some dir =>
    unlinkFiles env node dir
    perform (.removeDirectory node)

/-! ## Key slots

A visitor that captures a local variable by reference is given the variable's value and returns the
new one; `true` stops the iteration. -/

def withKeyFilesLoop {γ : Type} (f : γ → Bytes → Repo β (γ × Bool)) (keys : ℕ → Option Bytes) :
    (slots i : ℕ) → γ → Repo β γ
  | 0, _, captured => return captured
  | slots + 1, i, captured =>
    match keys i with
    | none => return captured
    | some file => do
      let (captured, stop) ← f captured file
      if stop then return captured
      else withKeyFilesLoop f keys slots (i + 1) captured

/-- The slots are numbered from 0; the first one missing ends the iteration. -/
def withKeyFiles {γ : Type} (f : γ → Bytes → Repo β (γ × Bool)) (captured : γ) : Repo β γ := do
  match ← look fun w => w.disk.keys with
  | none => Prog.throw (.runtimeError "Invalid keys directory for repository")
  | some keys => withKeyFilesLoop f keys maxKeySlots 0 captured

/-- The key files, each given by what it holds: only their number is used. -/
def getKeyFiles : Repo β (List Bytes) :=
  withKeyFiles (fun out file => return (out ++ [file], false)) []

def withKeyPairs {γ : Type} (f : γ → KeyPair → Repo β (γ × Bool)) (captured : γ) : Repo β γ :=
  withKeyFiles (fun captured file => do f captured (← Prog.ofExcept (KeyPair.ofBytes file))) captured

def readKeyPairs : Repo β (List KeyPair) :=
  withKeyPairs (fun out keyPair => return (out ++ [keyPair], false)) []

/-- The new slot's file must not exist; `open` fails with `EEXIST` if it does. Returns the directory
that is left. -/
def storeKeyPair (repository : String) (keyPair : KeyPair) : Repo β Disk := do
  let slot := (← getKeyFiles).length
  let what := "open keyfile (" ++ repository ++ "/keys/" ++ toString slot ++ ")"
  let disk ← look World.disk
  match disk.keys with
  | none => Prog.throw (.systemError .ENOENT what)
  | some keys =>
    if (keys slot).isSome then Prog.throw (.systemError (.other 17) what)
    else return { disk with
      keys := some (Function.update keys slot (some (Serialisation.serialise keyPair))) }

/-! ## Opening and creating a repository -/

/-- What `createRepository` writes to the file `initargs`. -/
def serialiseInitargs (formatUuid : Uuid) (initargs : StringVector) : Bytes :=
  Serialisation.serialise formatUuid ++ Serialisation.serialiseSpan initargs.toList

def initargsDeserialiser : Serialisation.Deserialiser (Uuid × StringVector) := do
  let formatUuid ← Serialisation.deserialise
  let initargs ← Serialisation.deserialise
  return (formatUuid, initargs)

/-- The contents of the file `initargs`. -/
def parseInitargs (bytes : Bytes) : Except Exn (Uuid × StringVector) := do
  let ((formatUuid, initargs), _) ← initargsDeserialiser bytes
  if initargs.toList.isEmpty then
    .error (.runtimeError "Repository initargs were non-valid (empty)")
  else .ok (formatUuid, initargs)

/-- The contents of the file `breadcrumb`, if there is one. -/
def parseBreadcrumb : Option Bytes → Except Exn Breadcrumb
  | some bytes => Breadcrumb.deserialise bytes
  | none => .ok Breadcrumb.initial

/-- The constructor. -/
def openRepository (repository : String) : Repo β Unit := do
  match ← look fun w => w.disk.initargs with
  | none => Prog.throw (.systemError .ENOENT ("open (" ++ repository ++ "/initargs)"))
  | some initargsFile =>
    let (formatUuid, initargs) ← Prog.ofExcept (parseInitargs initargsFile)
    let breadcrumb ← Prog.ofExcept (parseBreadcrumb (← look fun w => w.disk.breadcrumb))
    remember fun _ => ⟨repository, formatUuid, initargs, breadcrumb, false⟩

/-- What `createRepository` leaves in an empty directory; `uuid` is drawn at random. -/
def createRepository (formatUuid : Uuid) (initargs : StringVector) (uuid : Uuid) :
    Except Exn Disk :=
  if initargs.toList.isEmpty then .error (.invalidArgument "Invalid initargs (empty)")
  else .ok
    { initargs := some (serialiseInitargs formatUuid initargs)
      uuid := some (Serialisation.serialise uuid)
      keys := some fun _ => none
      breadcrumb := none
      temporarySnapshot := none
      snapshots := fun _ => none }

end RepositoryStructure

end Diffmonger
