import Diffmonger.Controller
import Diffmonger.Lib.Decimal
import Diffmonger.Parser
import Diffmonger.PasswordBuffer

/-!
# The command line (`CommandLineInterface.cpp`)

How parameters are read, how a node that the user names is looked up in the repository, and what the
subcommands do that are more than a call of the Controller's function. The tree of the commands,
with all of their parameters, is in `CommandLineInterface/Main.lean`.

Numbers are read with `std::from_chars`, of which only the result and the rest of the string matter;
what is done with the rest differs from one parameter to the next.
-/

namespace Diffmonger

variable {β : Type}

/-! ## Integers -/

/-- The overloads of `std::from_chars`: the number and what comes behind it. -/
class FromChars (T : Type) where
  fromChars : Str → Except Decimal.Failure (T × Str)

instance : FromChars UInt64 where
  fromChars s := (Decimal.fromChars (2 ^ 64) s).map fun (n, rest) => (.ofNat n, rest)

instance : FromChars Int64 where
  fromChars s := (Decimal.signedFromChars (2 ^ 63) s).map fun (x, rest) => (.ofInt x, rest)

/-- `parameter::Integer<T>::process` -/
def Parser.Integer.process {T : Type} [FromChars T] (arg : Str) : Except Exn T :=
  match FromChars.fromChars arg with
  | .ok (out, _) => .ok out
  | .error _ => .error (.argumentError ("invalid number: " ++ String.ofList arg))

/-! ## Nodes -/

/-- `DiffmongerNode::ValueT` -/
inductive DiffmongerNode where
  | node (node : Node)
  | relativeNode (value : Int64)
  | latestNode
  deriving DecidableEq, Repr

namespace DiffmongerNode

open RepositoryStructure

def process (x : Str) : Except Exn DiffmongerNode :=
  if x = ['+', 'm', 'a', 'x'] then .ok .latestNode
  else if x.head? = some '-' ∨ x.head? = some '+' then
    (Parser.Integer.process x).map .relativeNode
  else (Parser.Integer.process x).map fun value => .node ⟨value⟩

/-- `DiffmongerNode::ValueT::toNode` -/
def toNode (env : Env) : DiffmongerNode → Repo β Node
  | .node x => return x
  | .relativeNode value => do
    match ← getNodeRelativeToLastTrusted value with
    | some snapshot => return snapshot.node
    | none => Prog.throw (.runtimeError "No such node")
  | .latestNode => do
    let next ← getNextSnapshotNode env
    if next = Node.initialValue then
      Prog.throw (.runtimeError "No such node: repository empty")
    else return ⟨next.value - 1⟩

end DiffmongerNode

/-! ## Passwords -/

namespace PasswordParameter

/-- What is typed; `tty` and `ttyCheck` are what opening the terminal gives, for the prompt and to
confirm. -/
def ttyPassword (disablePassphrase : Bool) (tty ttyCheck : Except Exn InputFd) (check : Bool) :
    Except Exn Bytes :=
  if disablePassphrase then .ok []
  else do
    let password ← PasswordBuffer.readPasswordFromTty tty
    if check then
      let passwordCheck ← PasswordBuffer.readPasswordFromTty ttyCheck
      if password ≠ passwordCheck then .error (.runtimeError "Passwords do not match")
      else .ok password
    else .ok password

def readPassword (disablePassphrase : Bool) (tty ttyCheck : Except Exn InputFd)
    (additionalPassphraseFd : Option InputFd) (check : Bool) : Except Exn Bytes := do
  let ttyPassword ← ttyPassword disablePassphrase tty ttyCheck check
  match additionalPassphraseFd with
  | none => return ttyPassword
  | some fd =>
    let additionalPassword ← PasswordBuffer.readuntil (PasswordBuffer.getpagesize / 2) [] fd
    if additionalPassword.length = 0 then
      .error (.runtimeError "Additional password was given but is empty; this isn't supported")
    else if (ttyPassword ++ additionalPassword).length = 0 then
      .error (.runtimeError
        "Zero-length password is not supported; use unencrypted storage instead")
    else return ttyPassword ++ additionalPassword

end PasswordParameter

/-! ## Subcommands -/

namespace InitV1

/-- The `switch` on the suffix. -/
def scaled (value : UInt64) : Char → Except Exn UInt64
  | 's' => .ok value
  | 'm' => .ok (60 * value)
  | 'h' => .ok (60 * 60 * value)
  | 'd' => .ok (60 * 60 * 24 * value)
  | 'w' => .ok (60 * 60 * 24 * 7 * value)
  | _ => .error (.runtimeError "Invalid suffix for min-duration-between-snapshots")

/-- The value of `min_seconds_between_snapshots` that `before_subcommand` computes from the value
of the parameter `min-duration-between-snapshots`. -/
def minSecondsBetweenSnapshots (x : Str) : Except Exn UInt64 :=
  if x.isEmpty then
    .error (.runtimeError "Invalid value for min-duration-between-snapshots")
  else
    match FromChars.fromChars x with
    | .ok (value, [suffix]) => scaled value suffix -- the number ends before the last character
    | _ => .error (.runtimeError ("Invalid value (" ++ String.ofList x ++
        ") for min-duration-between-snapshots"))

end InitV1

namespace PruneRepository

/-- The method's body is empty; nothing opens the repository before it. -/
def execute : Repo β Unit := pure ()

end PruneRepository

end Diffmonger
