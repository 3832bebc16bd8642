import Diffmonger.CommandLineInterface
import Diffmonger.Parser.ParameterHelper
import Diffmonger.Zfs

/-!
# The command tree (`struct Main` of `CommandLineInterface.cpp`)

`Main` is the state that the objects of the tree hold. A command line changes it by the virtual
functions that `Parser::parse` calls; where `execute` calls another part of the program, the call is
added to the list of calls, with its arguments.

A command that needs the driver opens the repository when it is entered, and parses the arguments
that the repository was initialised with a second time, with a tree of their own. Only then it has
the driver's parameters; as nothing looks at the parameters of a command before it is entered, the
tree below has them from the beginning.
-/

namespace Diffmonger

open Diffmonger.Parser

/-! ## What the tree holds -/

/-- `Main::PasswordParameter` -/
structure PasswordParameter where
  disablePassphrase : Bool
  additionalPassphraseFd : Option InputFd

/-- `Main::DriverRequiringCommand`, with the parameters that `ZfsSubCommand::extendCommand` adds. -/
structure DriverRequiringCommand where
  /-- `repositoryParams`, and the value of `raw` that the functor has captured. -/
  entered : Option (RepositoryParams × Bool)
  dataset : Option Str
  receiveArgs : List Str
  initialReceiveArgs : Option (List Str)

/-- `InitV1` and its subcommand `zfs`. -/
structure InitV1 where
  minDurationBetweenSnapshots : Str
  encryption : Bool
  raw : Bool
  repositoryParams : Option RepositoryParams

/-- What `ZfsBackendDriver::createFactory` is given. The drivers do not use `raw`. -/
structure ZfsBackendDriver.Factory where
  raw : Bool
  zfsCommand : List Str
  datasetName : Str
  receive0Args : Option (List Str)
  receivenArgs : Option (List Str)

/-- A call of a function of another part of the program; `nullptr` is no password. -/
inductive Call where
  /-- The functor captures `raw`. -/
  | extendCommand (raw : Bool)
  | initRepository (repositoryPath : Str) (formatUuid : Uuid) (initargs : StringVector)
  | showInit (repositoryPath : Str) (nullsep : Bool)
  | initKeypair (repositoryPath : Str) (password : PasswordParameter) (memlimit : UInt64)
  | snapshot (repositoryParams : RepositoryParams) (factory : ZfsBackendDriver.Factory)
  | snapshotImport (repositoryParams : RepositoryParams) (factory : ZfsBackendDriver.Factory)
    (createSnapshot : Bool)
  | restore (repositoryParams : RepositoryParams) (factory : ZfsBackendDriver.Factory)
    (password : Option PasswordParameter) (node : DiffmongerNode)
  | exportRepository (repositoryParams : RepositoryParams) (factory : ZfsBackendDriver.Factory)
    (password : Option PasswordParameter) (importCommand : List Str)
  | aliveAfter (n : Node)
  | help

/-- What is left to create the driver's factory with. -/
def Call.functor : Call → Option Bool
  | .extendCommand raw => some raw
  | _ => none

namespace Main

structure InitKeyPair where
  passwordParameter : PasswordParameter
  memlimit : UInt64

structure Snapshot where
  driver : DriverRequiringCommand
  /-- Nothing reads it. -/
  fromExport : Bool

structure SnapshotImport where
  driver : DriverRequiringCommand
  createSnapshots : Bool

structure Restore where
  driver : DriverRequiringCommand
  passwordParameter : PasswordParameter
  nodeParameter : DiffmongerNode

structure ExportRepository where
  driver : DriverRequiringCommand
  passwordParameter : PasswordParameter
  snapshotImportCommand : Option (List Str)

/-- `InitBase::ModeVariant`; `commandToExtend` says whether there is one. -/
inductive ModeVariant where
  | retrospective (commandToExtend : Bool) (repositoryStructureFormatUuid : Uuid)
  | execution (args : StringVector)

end Main

structure Main where
  repositoryPath : Str
  init : InitV1
  /-- Of `show-init`. -/
  nullsep : Bool
  initKeyPair : Main.InitKeyPair
  snapshot : Main.Snapshot
  snapshotImport : Main.SnapshotImport
  restore : Main.Restore
  exportRepository : Main.ExportRepository
  /-- Of `alive-after`. -/
  n : Option UInt64
  /-- In the order in which they have been made. -/
  calls : List Call

/-! ## The values of parameters -/

/-- What the operating system gives for a number or a path. -/
structure Files where
  inherited : ℕ → InputFd
  openPath : Str → Except Exn InputFd

/-- With the constructor of `FdOwner`. -/
def FdOrFile.process (files : Files) (scalar : Str) : Except Exn InputFd :=
  match Decimal.signedFromChars (2 ^ 31) scalar with
  | .ok (fd, []) =>
    if fd < 0 then .error (.invalidArgument "Invalid file descriptor")
    else .ok (files.inherited fd.toNat)
  | _ =>
    if "file://".toList.isPrefixOf scalar then files.openPath (scalar.drop 7)
    else .error (.runtimeError ("Unrecognised fd or path: " ++ String.ofList scalar))

/-- The chain `Scalar, Boolean` -/
def BooleanParameter.process (values : List Str) : Except Exn Bool := do
  Boolean.process (← Scalar.process values)

/-- The chain `Scalar, FdOrFile` -/
def OptionalFdOrFile.process (files : Files) (values : List Str) : Except Exn InputFd := do
  FdOrFile.process files (← Scalar.process values)

/-- The chain `Scalar, DiffmongerNode` -/
def DefaultedNodeParameter.process (values : List Str) : Except Exn DiffmongerNode := do
  DiffmongerNode.process (← Scalar.process values)

/-- The chain `Scalar, Integer<uint64_t>`, also of `ArgonLimit` -/
def RequiredNode.process (values : List Str) : Except Exn UInt64 := do
  Integer.process (← Scalar.process values)

namespace PasswordParameter

/-- The defaults of the parameters. -/
def initial : Except Exn PasswordParameter := do
  return ⟨← BooleanParameter.process ["false".toList], none⟩

variable (part : Part Main PasswordParameter)

def noPassphrase : Str × Parameter Main :=
  ("no-passphrase".toList,
    (part.comp ⟨disablePassphrase, fun value p => { p with disablePassphrase := value }⟩).defaulted
      BooleanParameter.process)

def additionalPassphrase (files : Files) : Str × Parameter Main :=
  ("additional-passphrase-fd".toList,
    (part.comp ⟨additionalPassphraseFd,
      fun value p => { p with additionalPassphraseFd := value }⟩).optional
        (OptionalFdOrFile.process files))

/-- What `maybeReadPassword` reads a password with. -/
def maybe (repositoryParams : RepositoryParams) (p : PasswordParameter) : Option PasswordParameter :=
  if repositoryParams.encryption then some p else none

end PasswordParameter

namespace DriverRequiringCommand

def initial : Except Exn DriverRequiringCommand := do
  return ⟨none, none, ← Vector.process ["-u".toList], none⟩

variable (part : Part Main DriverRequiringCommand)

def datasetParameter : Str × Parameter Main :=
  ("dataset".toList,
    (part.comp ⟨dataset, fun value d => { d with dataset := value }⟩).required "dataset".toList
      Scalar.process)

def receiveArgsParameter : Str × Parameter Main :=
  ("receive-args".toList,
    (part.comp ⟨receiveArgs, fun value d => { d with receiveArgs := value }⟩).defaulted
      Vector.process)

def initialReceiveArgsParameter : Str × Parameter Main :=
  ("initial-receive-args".toList,
    (part.comp ⟨initialReceiveArgs, fun value d => { d with initialReceiveArgs := value }⟩).optional
      Vector.process)

/-- `on_enter`; `opened` is what it gets from the repository at a path, or throws. -/
def entering (opened : Str → Except Exn (RepositoryParams × Bool)) : Hook Main := fun main =>
  match opened main.repositoryPath with
  | .ok params => (.ok (), part.set { part.get main with entered := some params } main)
  | .error e => (.error e, main)

/-- `*repositoryParams` and `createBackendDriverFactory()` -/
def factory (command : DriverRequiringCommand) :
    Except Exn (RepositoryParams × ZfsBackendDriver.Factory) :=
  match command.entered with
  | none => .error (.runtimeError "Could not create driver")
  | some (repositoryParams, raw) => do
    let datasetName ← getRequired "dataset".toList command.dataset
    return (repositoryParams,
      { raw
        zfsCommand := ["zfs".toList]
        datasetName
        receive0Args := some (command.initialReceiveArgs.getD command.receiveArgs)
        receivenArgs := some command.receiveArgs })

end DriverRequiringCommand

/-! ## The commands -/

/-- `execute`, where it calls something. -/
def calling (f : Main → Except Exn Call) : Hook Main := fun main =>
  match f main with
  | .ok call => (.ok (), { main with calls := main.calls ++ [call] })
  | .error e => (.error e, main)

namespace InitV1

def repositoryStructureFormatUuid : Uuid :=
  ⟨[0x8d, 0x76, 0xc7, 0x4f, 0x60, 0x6f, 0x7a, 0xdd, 0x0a, 0x29, 0xef, 0xd4, 0xc2, 0x86, 0x69, 0xc1],
    rfl⟩

/-- The same bytes as in `InitV1`. -/
def currentRepositoryStructureFormatUuid : Uuid :=
  ⟨[0x8d, 0x76, 0xc7, 0x4f, 0x60, 0x6f, 0x7a, 0xdd, 0x0a, 0x29, 0xef, 0xd4, 0xc2, 0x86, 0x69, 0xc1],
    rfl⟩

def initial : Except Exn InitV1 := do
  return ⟨← Scalar.process ["1m".toList], ← BooleanParameter.process ["true".toList],
    ← BooleanParameter.process ["false".toList], none⟩

def part : Part Main InitV1 := ⟨Main.init, fun init main => { main with init }⟩

/-- `DriverSubCommandBase::execute` -/
def executeDriverSubCommand : Main.ModeVariant → Hook Main
  | .retrospective false _ => .nothing
  | .retrospective true _ => calling fun main => .ok (.extendCommand main.init.raw)
  | .execution args => calling fun main =>
    .ok (.initRepository main.repositoryPath currentRepositoryStructureFormatUuid args)

def zfsSubCommand (mode : Main.ModeVariant) : Command Main where
  parameters := ⟨[("raw".toList, (part.comp ⟨raw, fun value i => { i with raw := value }⟩).defaulted
    BooleanParameter.process)], by decide⟩
  subcommands _ := none
  execute := executeDriverSubCommand mode

/-- What has been assigned before an exception is not looked at afterwards. -/
def beforeSubcommand (_ : Str) : Hook Main := fun main =>
  match minSecondsBetweenSnapshots main.init.minDurationBetweenSnapshots with
  | .ok value =>
    (.ok (), part.set { main.init with repositoryParams := some ⟨main.init.encryption, value⟩ } main)
  | .error e => (.error e, main)

def command (mode : Main.ModeVariant) : Command Main where
  parameters := ⟨[
    ("encryption".toList,
      (part.comp ⟨encryption, fun value i => { i with encryption := value }⟩).defaulted
        BooleanParameter.process),
    ("min-duration-between-snapshots".toList,
      (part.comp ⟨minDurationBetweenSnapshots,
        fun value i => { i with minDurationBetweenSnapshots := value }⟩).defaulted Scalar.process)],
    by decide⟩
  subcommands name := [("zfs".toList, zfsSubCommand mode)].lookup name
  beforeSubcommand := beforeSubcommand

end InitV1

namespace Main

def ShowInit.command : Command Main where
  parameters := ⟨[("nullsep".toList, Part.defaulted
    ⟨nullsep, fun nullsep main => { main with nullsep }⟩ BooleanParameter.process)], by decide⟩
  subcommands _ := none
  execute := calling fun main => .ok (.showInit main.repositoryPath main.nullsep)

namespace InitKeyPair

def memlimitSensitive : Str := "1073741824".toList

def initial : Except Exn InitKeyPair := do
  return ⟨← PasswordParameter.initial, ← RequiredNode.process [memlimitSensitive]⟩

def part : Part Main InitKeyPair :=
  ⟨Main.initKeyPair, fun initKeyPair main => { main with initKeyPair }⟩

def passwordPart : Part Main PasswordParameter :=
  part.comp ⟨passwordParameter, fun value p => { p with passwordParameter := value }⟩

def command (files : Files) : Command Main where
  parameters := ⟨[
    PasswordParameter.additionalPassphrase passwordPart files,
    ("memlimit".toList,
      (part.comp ⟨memlimit, fun value p => { p with memlimit := value }⟩).defaulted
        RequiredNode.process),
    PasswordParameter.noPassphrase passwordPart], of_decide_eq_true rfl⟩
  subcommands _ := none
  execute := calling fun main => .ok (.initKeypair main.repositoryPath
    main.initKeyPair.passwordParameter main.initKeyPair.memlimit)

end InitKeyPair

section
variable (files : Files) (opened : Str → Except Exn (RepositoryParams × Bool))

namespace Snapshot

def initial : Except Exn Snapshot := do
  return ⟨← DriverRequiringCommand.initial, ← BooleanParameter.process ["false".toList]⟩

def part : Part Main Snapshot := ⟨Main.snapshot, fun snapshot main => { main with snapshot }⟩

def driverPart : Part Main DriverRequiringCommand :=
  part.comp ⟨driver, fun value c => { c with driver := value }⟩

def command : Command Main where
  parameters := ⟨[
    DriverRequiringCommand.datasetParameter driverPart,
    ("from-export".toList,
      (part.comp ⟨fromExport, fun value c => { c with fromExport := value }⟩).defaulted
        BooleanParameter.process),
    DriverRequiringCommand.initialReceiveArgsParameter driverPart,
    DriverRequiringCommand.receiveArgsParameter driverPart], by decide⟩
  subcommands _ := none
  onEnter := DriverRequiringCommand.entering driverPart opened
  execute := calling fun main => do
    let (repositoryParams, factory) ← main.snapshot.driver.factory
    return .snapshot repositoryParams factory

end Snapshot

namespace SnapshotImport

def initial : Except Exn SnapshotImport := do
  return ⟨← DriverRequiringCommand.initial, ← BooleanParameter.process ["false".toList]⟩

def part : Part Main SnapshotImport :=
  ⟨Main.snapshotImport, fun snapshotImport main => { main with snapshotImport }⟩

def driverPart : Part Main DriverRequiringCommand :=
  part.comp ⟨driver, fun value c => { c with driver := value }⟩

def command : Command Main where
  parameters := ⟨[
    ("create-snapshot".toList,
      (part.comp ⟨createSnapshots, fun value c => { c with createSnapshots := value }⟩).defaulted
        BooleanParameter.process),
    DriverRequiringCommand.datasetParameter driverPart,
    DriverRequiringCommand.initialReceiveArgsParameter driverPart,
    DriverRequiringCommand.receiveArgsParameter driverPart], by decide⟩
  subcommands _ := none
  onEnter := DriverRequiringCommand.entering driverPart opened
  execute := calling fun main => do
    let (repositoryParams, factory) ← main.snapshotImport.driver.factory
    return .snapshotImport repositoryParams factory main.snapshotImport.createSnapshots

end SnapshotImport

namespace Restore

def initial : Except Exn Restore := do
  return ⟨← DriverRequiringCommand.initial, ← PasswordParameter.initial,
    ← DefaultedNodeParameter.process ["+max".toList]⟩

def part : Part Main Restore := ⟨Main.restore, fun restore main => { main with restore }⟩

def driverPart : Part Main DriverRequiringCommand :=
  part.comp ⟨driver, fun value c => { c with driver := value }⟩

def passwordPart : Part Main PasswordParameter :=
  part.comp ⟨passwordParameter, fun value c => { c with passwordParameter := value }⟩

/-- The password is read and the node is looked up before the factory is created. -/
def command : Command Main where
  parameters := ⟨[
    PasswordParameter.additionalPassphrase passwordPart files,
    DriverRequiringCommand.datasetParameter driverPart,
    DriverRequiringCommand.initialReceiveArgsParameter driverPart,
    PasswordParameter.noPassphrase passwordPart,
    ("node".toList,
      (part.comp ⟨nodeParameter, fun value c => { c with nodeParameter := value }⟩).defaulted
        DefaultedNodeParameter.process),
    DriverRequiringCommand.receiveArgsParameter driverPart], of_decide_eq_true rfl⟩
  subcommands _ := none
  onEnter := DriverRequiringCommand.entering driverPart opened
  execute := calling fun main => do
    let (repositoryParams, factory) ← main.restore.driver.factory
    return .restore repositoryParams factory (main.restore.passwordParameter.maybe repositoryParams)
      main.restore.nodeParameter

end Restore

namespace ExportRepository

def initial : Except Exn ExportRepository := do
  return ⟨← DriverRequiringCommand.initial, ← PasswordParameter.initial, none⟩

def part : Part Main ExportRepository :=
  ⟨Main.exportRepository, fun exportRepository main => { main with exportRepository }⟩

def driverPart : Part Main DriverRequiringCommand :=
  part.comp ⟨driver, fun value c => { c with driver := value }⟩

def passwordPart : Part Main PasswordParameter :=
  part.comp ⟨passwordParameter, fun value c => { c with passwordParameter := value }⟩

def command : Command Main where
  parameters := ⟨[
    PasswordParameter.additionalPassphrase passwordPart files,
    ("cmd".toList,
      (part.comp ⟨snapshotImportCommand,
        fun value c => { c with snapshotImportCommand := value }⟩).required "cmd".toList
          Vector.process),
    DriverRequiringCommand.datasetParameter driverPart,
    DriverRequiringCommand.initialReceiveArgsParameter driverPart,
    PasswordParameter.noPassphrase passwordPart,
    DriverRequiringCommand.receiveArgsParameter driverPart], of_decide_eq_true rfl⟩
  subcommands _ := none
  onEnter := DriverRequiringCommand.entering driverPart opened
  execute := calling fun main => do
    let (repositoryParams, factory) ← main.exportRepository.driver.factory
    let importCommand ← getRequired "cmd".toList main.exportRepository.snapshotImportCommand
    return .exportRepository repositoryParams factory
      (main.exportRepository.passwordParameter.maybe repositoryParams) importCommand

end ExportRepository

def PruneRepository.command : Command Main where
  parameters := ⟨[], .nil⟩
  subcommands _ := none
  execute := .nothing

def AliveAfter.command : Command Main where
  parameters := ⟨[("node".toList, Part.required ⟨n, fun n main => { main with n }⟩ "node".toList
    RequiredNode.process)], by decide⟩
  subcommands _ := none
  execute := calling fun main => do return .aliveAfter ⟨← getRequired "node".toList main.n⟩

def Help.command : Command Main where
  parameters := ⟨[], .nil⟩
  subcommands _ := none
  execute := calling fun _ => .ok .help

/-! ## The tree -/

/-- The subcommands other than `init`; `ListNodes` is not among them. -/
def otherSubcommands : List (Str × Command Main) :=
  [("alive-after".toList, AliveAfter.command),
    ("show-init".toList, ShowInit.command),
    ("init-keypair".toList, InitKeyPair.command files),
    ("snapshot".toList, Snapshot.command opened),
    ("snapshot-import".toList, SnapshotImport.command opened),
    ("restore".toList, Restore.command files opened),
    ("prune-repository".toList, PruneRepository.command),
    ("export-repository".toList, ExportRepository.command files opened),
    ("help".toList, Help.command)]

def command (mode : ModeVariant) : Command Main where
  parameters := ⟨[("R".toList, Part.defaulted
    ⟨repositoryPath, fun repositoryPath main => { main with repositoryPath }⟩ Scalar.process)],
    by decide⟩
  subcommands name :=
    (("init".toList, InitV1.command mode) :: otherSubcommands files opened).lookup name

/-- `emplaceInitCommand`, as far as it can fail. -/
def checkMode : ModeVariant → Except Exn Unit
  | .retrospective _ repositoryStructureFormatUuid =>
    if repositoryStructureFormatUuid = InitV1.repositoryStructureFormatUuid then .ok ()
    else .error (.runtimeError "Unsupported repository parameters version")
  | .execution _ => .ok ()

/-- The constructor. The default of a parameter is read as if it had been given. -/
def initial (name : Str) (mode : ModeVariant) : Except Exn Main := do
  if keyValueSeparator ∈ name ∨ assignToken ∈ name ∨ appendToken ∈ name then
    .error (.argumentError ("Invalid name: " ++ String.ofList name))
  else
    checkMode mode
    return {
      repositoryPath := ← Scalar.process [".".toList]
      init := ← InitV1.initial
      nullsep := ← BooleanParameter.process ["false".toList]
      initKeyPair := ← InitKeyPair.initial
      snapshot := ← Snapshot.initial
      snapshotImport := ← SnapshotImport.initial
      restore := ← Restore.initial
      exportRepository := ← ExportRepository.initial
      n := none
      calls := [] }

/-- A string of an argument vector as the parser sees it. -/
def argument (str : StdString) : Str := Zfs.ofBytes str.chars.toList

/-- Build the tree, and parse the arguments. The first one is the root's name. -/
def parse (mode : ModeVariant) (args : StringVector) : Result Exn Main :=
  match args.toList.map argument with
  | [] => .exn (.invalidArgument "span_exc_front: empty argument")
  | name :: args =>
    match initial name mode with
    | .error e => .exn e
    | .ok main =>
      let outcome := (Parser.parse name (command files opened mode) args).run main
      match outcome.result with
      | .val () => .val (stateAfter main outcome.steps)
      | .exn e => .exn e
      | .diverged => .diverged

end

end Main

/-- `cli_interface::run`; the documentation that is added to an `argument_error` is left out. -/
def run (files : Files) (opened : Str → Except Exn (RepositoryParams × Bool)) (argv : StringVector) :
    Result Exn Main := Main.parse files opened (.execution argv) argv

/-- `Main::createRepositoryParams`, and the functor that `extendCommand` has set last. -/
def createRepositoryParams (files : Files) (opened : Str → Except Exn (RepositoryParams × Bool))
    (repositoryStructure : RepositoryStructure) (commandToExtend : Bool) :
    Result Exn (Option RepositoryParams × Option Bool) :=
  match Main.parse files opened
    (.retrospective commandToExtend repositoryStructure.repositoryStructureFormatUuid)
    repositoryStructure.initargs with
  | .val main =>
    .val (main.init.repositoryParams, (main.calls.filterMap Call.functor).getLast?)
  | .exn e => .exn e
  | .diverged => .diverged

/-- `on_enter` of a command that needs the driver. -/
def DriverRequiringCommand.onEnter {β : Type} (files : Files)
    (opened : Str → Except Exn (RepositoryParams × Bool)) (repositoryPath : String) :
    Repo β (RepositoryParams × Bool) := do
  RepositoryStructure.openRepository repositoryPath
  let repositoryStructure ← look World.repositoryStructure
  match ← Prog.ofResult (createRepositoryParams files opened repositoryStructure true) with
  | (some repositoryParams, some raw) => return (repositoryParams, raw)
  | _ => Prog.throw (.runtimeError "Could not process initargs")

end Diffmonger
