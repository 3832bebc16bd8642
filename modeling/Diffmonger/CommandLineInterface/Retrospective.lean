import Diffmonger.CommandLineInterface.Main
import Diffmonger.Controller.Import

/-!
# Parsing the initargs again

A repository keeps the command line that it was initialised with. Every command that needs the
driver parses it a second time, with a tree in retrospective mode, to get the parameters of the
repository.

Main result: `onEnter_of_initRepository`. The two trees are run side by side, as a `Simulation`: up
to `execute` of the subcommand `zfs` they do the same (`simulation`), where one calls
`init_repository` and the other `extendCommand`, with the same parameters. A command line may as
well lead to another subcommand; nothing below those calls `init_repository`, which is an invariant
of each of their hooks (`harmless_otherSubcommands`). The repository's copy of the arguments is then
the only thing that connects the two parses, and no event of any command changes it
(`Disk.readInitargs_of_changes`).
-/

namespace Diffmonger

open Diffmonger.Parser Prog Relation

/-! ## The new tree -/

/-- A parameter's default passes its own check, and no call has been made. -/
theorem Main.initial_eq {name : Str} {mode : Main.ModeVariant}
    (hname : ¬ (keyValueSeparator ∈ name ∨ assignToken ∈ name ∨ appendToken ∈ name))
    (hmode : Main.checkMode mode = .ok ()) :
    Main.initial name mode = .ok
      { repositoryPath := ".".toList
        init := ⟨"1m".toList, true, false, none⟩
        nullsep := false
        initKeyPair := ⟨⟨false, none⟩, 1073741824⟩
        snapshot := ⟨⟨none, none, ["-u".toList], none⟩, false⟩
        snapshotImport := ⟨⟨none, none, ["-u".toList], none⟩, false⟩
        restore := ⟨⟨none, none, ["-u".toList], none⟩, ⟨false, none⟩, .latestNode⟩
        exportRepository := ⟨⟨none, none, ["-u".toList], none⟩, ⟨false, none⟩, none⟩
        n := none
        calls := [] } := by
  rw [Main.initial, if_neg hname, hmode]
  rfl

theorem Main.checkMode_retrospective {commandToExtend : Bool} :
    Main.checkMode (.retrospective commandToExtend InitV1.repositoryStructureFormatUuid) = .ok () := by
  rw [Main.checkMode, if_pos rfl]

theorem Main.initial_congr (name : Str) {mode mode' : Main.ModeVariant}
    (h : Main.checkMode mode = Main.checkMode mode') :
    Main.initial name mode = Main.initial name mode' := by
  rw [Main.initial, Main.initial, h]

theorem Main.calls_of_initial {name : Str} {args : StringVector} {main : Main}
    (h : Main.initial name (.execution args) = .ok main) : main.calls = [] := by
  by_cases hname : keyValueSeparator ∈ name ∨ assignToken ∈ name ∨ appendToken ∈ name
  · rw [Main.initial, if_pos hname] at h
    cases h
  · rw [Main.initial_eq hname rfl] at h
    cases h
    rfl

/-- The first argument is the root's name, and parsing the other ones returns. -/
theorem Main.parse_eq_val_iff {files : Files} {opened : Str → Except Exn (RepositoryParams × Bool)}
    {mode : Main.ModeVariant} {argv : StringVector} {final : Main} :
    Main.parse files opened mode argv = .val final ↔
      ∃ name args main, argv.toList.map argument = name :: args ∧ Main.initial name mode = .ok main ∧
        (Parser.parse name (command files opened mode) args).Ends
          (fun r main' => r = .val () ∧ main' = final) main := by
  rw [Main.parse]
  constructor
  · intro h
    split at h
    · cases h
    · next name args hargs =>
        split at h
        · cases h
        · next main hmain =>
            dsimp only at h
            split at h
            · next hresult =>
                refine ⟨name, args, main, hargs, hmain, ends_iff_run.mpr ⟨hresult, ?_⟩⟩
                exact Result.val.inj h
            · cases h
            · cases h
  · rintro ⟨name, args, main, hargs, hmain, hends⟩
    obtain ⟨hresult, hfinal⟩ := ends_iff_run.mp hends
    simp only [hargs, hmain, hresult, hfinal]

/-!
## Commands that do not initialise a repository

The hooks of a parameter write to its own part of the state, and keep every property of the calls
for this reason alone (`Part.Apart`). What is left to look at are the functions that add a call.
-/

/-- `init_repository` has not been called. -/
def Main.NotInitialising (main : Main) : Prop :=
  ∀ repositoryPath formatUuid initargs,
    .initRepository repositoryPath formatUuid initargs ∉ main.calls

theorem keeps_calling {J : Main → Prop} {f : Main → Except Exn Call}
    (h : ∀ main call, f main = .ok call → J main →
      J { main with calls := main.calls ++ [call] }) :
    (calling f).Keeps J := by
  intro main hmain
  rw [calling]
  split
  · next call hcall => exact h main call hcall hmain
  · exact hmain

/-- The call is another one. -/
theorem keeps_calling_other {f : Main → Except Exn Call}
    (h : ∀ main repositoryPath formatUuid initargs,
      f main ≠ .ok (.initRepository repositoryPath formatUuid initargs)) :
    (calling f).Keeps Main.NotInitialising := by
  refine keeps_calling fun main call hcall hmain repositoryPath formatUuid initargs hmem => ?_
  rcases List.mem_append.mp hmem with hbefore | hlast
  · exact hmain _ _ _ hbefore
  · obtain rfl := List.mem_singleton.mp hlast
    exact h main _ _ _ hcall

section
variable {J : Main → Prop}

theorem PasswordParameter.keeps_noPassphrase {part : Part Main PasswordParameter}
    (h : part.Apart J) : (noPassphrase part).2.Keeps J :=
  (h.comp _).defaulted _

theorem PasswordParameter.keeps_additionalPassphrase {part : Part Main PasswordParameter}
    (h : part.Apart J) (files : Files) : (additionalPassphrase part files).2.Keeps J :=
  (h.comp _).optional _

namespace DriverRequiringCommand

variable {part : Part Main DriverRequiringCommand}

theorem keeps_datasetParameter (h : part.Apart J) : (datasetParameter part).2.Keeps J :=
  (h.comp _).required _ _

theorem keeps_receiveArgsParameter (h : part.Apart J) : (receiveArgsParameter part).2.Keeps J :=
  (h.comp _).defaulted _

theorem keeps_initialReceiveArgsParameter (h : part.Apart J) :
    (initialReceiveArgsParameter part).2.Keeps J :=
  (h.comp _).optional _

theorem keeps_entering (h : part.Apart J) (opened : Str → Except Exn (RepositoryParams × Bool)) :
    (entering part opened).Keeps J := by
  intro main hmain
  rw [entering]
  split
  · exact h _ main hmain
  · exact hmain

end DriverRequiringCommand

end

namespace Main

/-- A subcommand without subcommands, which does not call `init_repository`. -/
structure Harmless (command : Command Main) : Prop where
  keeps : command.Keeps NotInitialising
  subcommands : ∀ name, command.subcommands name = none

theorem harmless_of {command : Command Main} (honEnter : command.onEnter.Keeps NotInitialising)
    (hparameters : ∀ e ∈ command.parameters.entries, e.2.Keeps NotInitialising)
    (hexecute : command.execute.Keeps NotInitialising)
    (hdefault : command.unrecognisedParameters = Parser.unrecognisedParameters ∧
      (∀ name, command.beforeSubcommand name = .nothing) ∧ ∀ name, command.subcommands name = none) :
    Harmless command where
  keeps :=
    { onEnter := honEnter
      parameters := hparameters
      unrecognisedParameters := hdefault.1 ▸ keeps_unrecognisedParameters
      beforeSubcommand := fun name => hdefault.2.1 name ▸ keeps_nothing
      execute := hexecute }
  subcommands := hdefault.2.2

variable (files : Files) (opened : Str → Except Exn (RepositoryParams × Bool))

theorem harmless_aliveAfter : Harmless AliveAfter.command := by
  refine harmless_of keeps_nothing ?_ (keeps_calling_other fun main _ _ _ h => ?_)
    ⟨rfl, fun _ => rfl, fun _ => rfl⟩
  · rw [AliveAfter.command, List.forall_mem_singleton]
    exact Part.Apart.required (fun _ _ h => h) _ _
  · obtain ⟨n, -, hcall⟩ := ok_of_bind h
    cases hcall

theorem harmless_showInit : Harmless ShowInit.command := by
  refine harmless_of keeps_nothing ?_ (keeps_calling_other fun main _ _ _ h => ?_)
    ⟨rfl, fun _ => rfl, fun _ => rfl⟩
  · rw [ShowInit.command, List.forall_mem_singleton]
    exact Part.Apart.defaulted (fun _ _ h => h) _
  · cases h

theorem harmless_initKeyPair : Harmless (InitKeyPair.command files) := by
  have hpart : InitKeyPair.part.Apart NotInitialising := fun _ _ h => h
  have hpassword : InitKeyPair.passwordPart.Apart NotInitialising := hpart.comp _
  refine harmless_of keeps_nothing ?_ (keeps_calling_other fun main _ _ _ h => ?_)
    ⟨rfl, fun _ => rfl, fun _ => rfl⟩
  · rw [InitKeyPair.command, List.forall_mem_cons, List.forall_mem_cons, List.forall_mem_singleton]
    exact ⟨PasswordParameter.keeps_additionalPassphrase hpassword files, (hpart.comp _).defaulted _,
      PasswordParameter.keeps_noPassphrase hpassword⟩
  · cases h

theorem harmless_snapshot : Harmless (Snapshot.command opened) := by
  have hpart : Snapshot.part.Apart NotInitialising := fun _ _ h => h
  have hdriver : Snapshot.driverPart.Apart NotInitialising := hpart.comp _
  refine harmless_of (DriverRequiringCommand.keeps_entering hdriver opened) ?_
    (keeps_calling_other fun main _ _ _ h => ?_) ⟨rfl, fun _ => rfl, fun _ => rfl⟩
  · rw [Snapshot.command, List.forall_mem_cons, List.forall_mem_cons, List.forall_mem_cons,
      List.forall_mem_singleton]
    exact ⟨DriverRequiringCommand.keeps_datasetParameter hdriver, (hpart.comp _).defaulted _,
      DriverRequiringCommand.keeps_initialReceiveArgsParameter hdriver,
      DriverRequiringCommand.keeps_receiveArgsParameter hdriver⟩
  · obtain ⟨factory, -, hcall⟩ := ok_of_bind h
    cases hcall

theorem harmless_snapshotImport : Harmless (SnapshotImport.command opened) := by
  have hpart : SnapshotImport.part.Apart NotInitialising := fun _ _ h => h
  have hdriver : SnapshotImport.driverPart.Apart NotInitialising := hpart.comp _
  refine harmless_of (DriverRequiringCommand.keeps_entering hdriver opened) ?_
    (keeps_calling_other fun main _ _ _ h => ?_) ⟨rfl, fun _ => rfl, fun _ => rfl⟩
  · rw [SnapshotImport.command, List.forall_mem_cons, List.forall_mem_cons, List.forall_mem_cons,
      List.forall_mem_singleton]
    exact ⟨(hpart.comp _).defaulted _, DriverRequiringCommand.keeps_datasetParameter hdriver,
      DriverRequiringCommand.keeps_initialReceiveArgsParameter hdriver,
      DriverRequiringCommand.keeps_receiveArgsParameter hdriver⟩
  · obtain ⟨factory, -, hcall⟩ := ok_of_bind h
    cases hcall

theorem harmless_restore : Harmless (Restore.command files opened) := by
  have hpart : Restore.part.Apart NotInitialising := fun _ _ h => h
  have hdriver : Restore.driverPart.Apart NotInitialising := hpart.comp _
  have hpassword : Restore.passwordPart.Apart NotInitialising := hpart.comp _
  refine harmless_of (DriverRequiringCommand.keeps_entering hdriver opened) ?_
    (keeps_calling_other fun main _ _ _ h => ?_) ⟨rfl, fun _ => rfl, fun _ => rfl⟩
  · rw [Restore.command, List.forall_mem_cons, List.forall_mem_cons, List.forall_mem_cons,
      List.forall_mem_cons, List.forall_mem_cons, List.forall_mem_singleton]
    exact ⟨PasswordParameter.keeps_additionalPassphrase hpassword files,
      DriverRequiringCommand.keeps_datasetParameter hdriver,
      DriverRequiringCommand.keeps_initialReceiveArgsParameter hdriver,
      PasswordParameter.keeps_noPassphrase hpassword, (hpart.comp _).defaulted _,
      DriverRequiringCommand.keeps_receiveArgsParameter hdriver⟩
  · obtain ⟨factory, -, hcall⟩ := ok_of_bind h
    cases hcall

theorem harmless_pruneRepository : Harmless PruneRepository.command := by
  refine harmless_of keeps_nothing ?_ keeps_nothing ⟨rfl, fun _ => rfl, fun _ => rfl⟩
  rw [PruneRepository.command]
  exact List.forall_mem_nil _

theorem harmless_exportRepository : Harmless (ExportRepository.command files opened) := by
  have hpart : ExportRepository.part.Apart NotInitialising := fun _ _ h => h
  have hdriver : ExportRepository.driverPart.Apart NotInitialising := hpart.comp _
  have hpassword : ExportRepository.passwordPart.Apart NotInitialising := hpart.comp _
  refine harmless_of (DriverRequiringCommand.keeps_entering hdriver opened) ?_
    (keeps_calling_other fun main _ _ _ h => ?_) ⟨rfl, fun _ => rfl, fun _ => rfl⟩
  · rw [ExportRepository.command, List.forall_mem_cons, List.forall_mem_cons, List.forall_mem_cons,
      List.forall_mem_cons, List.forall_mem_cons, List.forall_mem_singleton]
    exact ⟨PasswordParameter.keeps_additionalPassphrase hpassword files,
      (hpart.comp _).required _ _, DriverRequiringCommand.keeps_datasetParameter hdriver,
      DriverRequiringCommand.keeps_initialReceiveArgsParameter hdriver,
      PasswordParameter.keeps_noPassphrase hpassword,
      DriverRequiringCommand.keeps_receiveArgsParameter hdriver⟩
  · obtain ⟨factory, -, h⟩ := ok_of_bind h
    obtain ⟨importCommand, -, hcall⟩ := ok_of_bind h
    cases hcall

theorem harmless_help : Harmless Help.command := by
  refine harmless_of keeps_nothing ?_ (keeps_calling_other fun main _ _ _ h => ?_)
    ⟨rfl, fun _ => rfl, fun _ => rfl⟩
  · rw [Help.command]
    exact List.forall_mem_nil _
  · cases h

theorem harmless_otherSubcommands :
    ∀ e ∈ otherSubcommands files opened, Harmless e.2 := by
  simp only [otherSubcommands, List.forall_mem_cons]
  exact ⟨harmless_aliveAfter, harmless_showInit, harmless_initKeyPair files,
    harmless_snapshot opened, harmless_snapshotImport opened, harmless_restore files opened,
    harmless_pruneRepository, harmless_exportRepository files opened, harmless_help,
    List.forall_mem_nil _⟩

/-!
## The two trees side by side

The states are equal until `execute`, so that the relation of the simulation says in addition only
what the hooks rely on: nothing has been called, and the parameters are there once the driver's
subcommand has been entered.
-/

/-- The commands on the way to `execute` of the driver's subcommand. -/
inductive Position where
  | main
  | init
  | zfs

/-- The command at the position. -/
def commandAt (mode : ModeVariant) : Position → Command Main
  | .main => command files opened mode
  | .init => InitV1.command mode
  | .zfs => InitV1.zfsSubCommand mode

theorem subcommands_main (mode : ModeVariant) (name : Str) :
    (command files opened mode).subcommands name =
      if name = "init".toList then some (InitV1.command mode)
      else (otherSubcommands files opened).lookup name := by
  simp only [command, List.lookup_cons]
  split
  · next heq => rw [if_pos (beq_iff_eq.mp heq)]
  · next hne => rw [if_neg (beq_eq_false_iff_ne.mp hne)]

theorem subcommands_init (mode : ModeVariant) (name : Str) :
    (InitV1.command mode).subcommands name =
      if name = "zfs".toList then some (InitV1.zfsSubCommand mode) else none := by
  simp only [InitV1.command, List.lookup_cons]
  split
  · next heq => rw [if_pos (beq_iff_eq.mp heq)]
  · next hne => rw [if_neg (beq_eq_false_iff_ne.mp hne), List.lookup_nil]

/-- What has been done before the driver's subcommand is entered. -/
def ReadyAt : Position → Main → Prop
  | .main, main | .init, main => main.calls = []
  | .zfs, main => main.calls = [] ∧ main.init.repositoryParams.isSome

/-- `init_repository` has been called with the given arguments; the other tree has the same
parameters, and extends the command instead. Neither has called anything else. -/
def Initialised (argv : StringVector) (main main' : Main) : Prop :=
  main.calls = [.initRepository main.repositoryPath InitV1.repositoryStructureFormatUuid argv] ∧
    main.init.repositoryParams.isSome ∧
    main'.init.repositoryParams = main.init.repositoryParams ∧
    main'.calls = [.extendCommand main.init.raw]

theorem ReadyAt.calls {i : Position} {main : Main} (h : ReadyAt i main) : main.calls = [] := by
  cases i with
  | main => exact h
  | init => exact h
  | zfs => exact h.1

/-- The subcommands of `init` are reached by way of `before_subcommand`. -/
theorem beforeSubcommand_matches (name name' : Str) :
    Hook.Matches (fun s t => s = t ∧ ReadyAt .init s) (fun s t => s = t ∧ ReadyAt .zfs s)
      (InitV1.beforeSubcommand name) (InitV1.beforeSubcommand name') := by
  rintro s _ ⟨rfl, hs⟩ hok
  refine ⟨hok, rfl, ?_⟩
  rw [InitV1.beforeSubcommand] at hok ⊢
  split
  · exact ⟨hs, rfl⟩
  · next e he =>
      rw [he] at hok
      cases hok

theorem executeDriverSubCommand_matches (argv : StringVector) (formatUuid : Uuid) :
    Hook.Matches (fun s t => s = t ∧ ReadyAt .zfs s) (Initialised argv)
      (InitV1.executeDriverSubCommand (.execution argv))
      (InitV1.executeDriverSubCommand (.retrospective true formatUuid)) := by
  rintro s _ ⟨rfl, hcalls, hparams⟩ -
  refine ⟨rfl, ?_, hparams, rfl, ?_⟩
  · change s.calls ++ [_] = _
    rw [hcalls]
    rfl
  · change s.calls ++ [_] = _
    rw [hcalls]
    rfl

variable (files' : Files) (opened' : Str → Except Exn (RepositoryParams × Bool))

/-- The tree that executes a command line simulates the one that parses it again, unless a
subcommand is entered that does not initialise a repository. -/
theorem simulation (argv : StringVector) (formatUuid : Uuid) :
    Simulation NotInitialising (fun i s t => s = t ∧ ReadyAt i s) (Initialised argv)
      (commandAt files opened (.execution argv))
      (commandAt files' opened' (.retrospective true formatUuid)) where
  hooks i := by
    have hunrecognised : ∀ map, (unrecognisedParameters map : Hook Main).Keeps (ReadyAt i) :=
      keeps_unrecognisedParameters
    cases i with
    -- the hooks do not depend on the mode, so that it is enough that they keep what is said of one
    -- state
    | main =>
        refine Command.matches_of_keeps rfl ?_ rfl hunrecognised fun s t _ h => by cases h
        simp only [commandAt, command, List.forall_mem_singleton]
        exact Part.Apart.defaulted (fun _ _ h => h) _
    | init =>
        have hpart : InitV1.part.Apart (ReadyAt .init) := fun _ _ h => h
        refine Command.matches_of_keeps rfl ?_ rfl hunrecognised fun s t _ h => by cases h
        simp only [commandAt, InitV1.command, List.forall_mem_cons]
        exact ⟨(hpart.comp _).defaulted _, (hpart.comp _).defaulted _, List.forall_mem_nil _⟩
    | zfs =>
        -- only here do the two trees differ
        refine Command.matches_of_keeps rfl ?_ rfl hunrecognised
          (executeDriverSubCommand_matches argv formatUuid)
        simp only [commandAt, InitV1.zfsSubCommand, List.forall_mem_singleton]
        exact Part.Apart.defaulted (fun _ _ h => h) _
  related i s t h := by
    intro repositoryPath formatUuid initargs
    rw [h.2.calls]
    exact List.not_mem_nil
  beforeSubcommand i name := by
    cases i with
    | main => exact keeps_nothing
    | init =>
        intro main hmain
        simp only [commandAt, InitV1.command, InitV1.beforeSubcommand]
        split <;> exact hmain
    | zfs => exact keeps_nothing
  subcommands i name next hname := by
    cases i with
    | main =>
        change (command files opened _).subcommands name = _ at hname
        rw [subcommands_main] at hname
        split at hname
        · next hinit =>
            cases hname
            -- both trees go on at the next position
            refine Or.inl ⟨.init, rfl, ?_, _, Hook.Keeps.matches_self keeps_nothing,
              Hook.Keeps.matches_self (J := ReadyAt .init) keeps_nothing⟩
            change (command files' opened' _).subcommands name = _
            rw [subcommands_main, if_pos hinit]
            rfl
        -- another subcommand: the first tree ends without having called `init_repository`
        · obtain ⟨l, r, hsplit, -⟩ := List.lookup_eq_some_iff.mp hname
          have hmem : (name, next) ∈ otherSubcommands files opened := by
            rw [hsplit]
            exact List.mem_append_right _ List.mem_cons_self
          have hharmless := harmless_otherSubcommands files opened _ hmem
          refine Or.inr fun target htarget => ?_
          rw [htarget.eq_self hharmless.subcommands]
          exact hharmless.keeps
    | init =>
        change (InitV1.command _).subcommands name = _ at hname
        rw [subcommands_init] at hname
        split at hname
        · next hzfs =>
            cases hname
            refine Or.inl ⟨.zfs, rfl, ?_, _, beforeSubcommand_matches name name,
              Hook.Keeps.matches_self (J := ReadyAt .zfs) keeps_nothing⟩
            change (InitV1.command _).subcommands name = _
            rw [subcommands_init, if_pos hzfs]
            rfl
        · cases hname
    | zfs => cases hname

/-!
## The parameters of a repository

What is between the two parses is a directory. Its initargs are written when the repository is
created, and read by every constructor; that nothing else writes to them holds of each event, and so
of any sequence of them.
-/

variable {files opened}

/-- Where the arguments of a new tree lead to a call of `init_repository`. -/
theorem parse_of_initRepository {argv : StringVector} {final : Main}
    (hparse : parse files opened (.execution argv) argv = .val final)
    (hcall : ¬ NotInitialising final) :
    final.calls =
      [.initRepository final.repositoryPath InitV1.repositoryStructureFormatUuid argv] ∧
    ∃ repositoryParams, final.init.repositoryParams = some repositoryParams ∧ ∃ final',
      parse files' opened' (.retrospective true InitV1.repositoryStructureFormatUuid) argv =
        .val final' ∧ final'.init.repositoryParams = some repositoryParams ∧
          final'.calls = [.extendCommand final.init.raw] := by
  obtain ⟨name, args, main, hargs, hmain, hends⟩ := parse_eq_val_iff.mp hparse
  have hready : ReadyAt .main main := calls_of_initial hmain
  have hmatches := (simulation files opened files' opened' argv
    InitV1.repositoryStructureFormatUuid).parse (i := .main)
      (Hook.Keeps.matches_self keeps_nothing) ⟨rfl, hready⟩ name args
  obtain hnot | ⟨⟨⟩, final', hends', hinit, hsome, hparams, hextend⟩ := hmatches.ends hends
  · exact absurd hnot hcall
  obtain ⟨repositoryParams, hsome⟩ := Option.isSome_iff_exists.mp hsome
  refine ⟨hinit, repositoryParams, hsome, final', parse_eq_val_iff.mpr
    ⟨name, args, main, hargs, ?_, hends'⟩, hparams.trans hsome, hextend⟩
  rw [← hmain]
  exact initial_congr name checkMode_retrospective

end Main

/-- What a step of any command may do to the directory; `init-keypair` changes the key slots. -/
inductive Disk.Changes (disk : Disk) : Disk → Prop
  | event (event : Event) : Changes disk (event.apply disk)
  | keys (keys : Option (ℕ → Option Bytes)) : Changes disk { disk with keys := keys }

/-- Nothing changes the initargs. -/
theorem Disk.readInitargs_of_changes {disk disk' : Disk} (h : ReflTransGen Disk.Changes disk disk')
    (repository : String) : disk'.readInitargs repository = disk.readInitargs repository := by
  induction h with
  | refl => rfl
  | tail _ hstep ih =>
      rw [← ih]
      cases hstep with
      | event event => cases event <;> rfl
      | keys keys => rfl

/-- A command line has initialised a repository. This was all that it has called, and the repository
keeps its arguments, whatever has been done to the repository since then, by whatever commands,
complete or killed. Parsing them again calls `extendCommand` and nothing else, and a command that
needs the driver and can read the breadcrumb gets the parameters that have been checked when the
repository was initialised, and the driver's option that was given then. -/
theorem onEnter_of_initRepository {β : Type} {files files' : Files}
    {opened opened' : Str → Except Exn (RepositoryParams × Bool)} {argv : StringVector}
    {final : Main} (hrun : run files opened argv = .val final) {repositoryPath : Str}
    {formatUuid : Uuid} {initargs : StringVector}
    (hcall : .initRepository repositoryPath formatUuid initargs ∈ final.calls) {uuid : Uuid}
    {created : Disk}
    (hcreated : RepositoryStructure.createRepository formatUuid initargs uuid = .ok created)
    {w : World β} (hchanges : ReflTransGen Disk.Changes created w.disk) (repository : String) :
    final.calls = [.initRepository repositoryPath formatUuid argv] ∧
      w.disk.readInitargs repository = .ok (formatUuid, argv) ∧
      ∃ repositoryParams, final.init.repositoryParams = some repositoryParams ∧
        (∃ final', Main.parse files' opened' (.retrospective true formatUuid) argv = .val final' ∧
          final'.init.repositoryParams = some repositoryParams ∧
          final'.calls = [.extendCommand final.init.raw]) ∧
        ((DriverRequiringCommand.onEnter files' opened' repository).run w).result =
          .ofExcept (w.disk.readBreadcrumb.map fun _ => (repositoryParams, final.init.raw)) := by
  have hinitialising : ¬ final.NotInitialising := fun h => h _ _ _ hcall
  -- The second parse is that of the same arguments in retrospective mode,
  obtain ⟨hcalls, repositoryParams, hparams, final', hparse, hparams', hextend⟩ :=
    Main.parse_of_initRepository files' opened' hrun hinitialising
  obtain ⟨rfl, rfl, rfl⟩ : _ = _ ∧ _ = _ ∧ _ = _ := by
    simpa [hcalls] using hcall
  -- and the arguments that it gets are those of the first one.
  have hargs := (Disk.readInitargs_of_changes hchanges repository).trans
    ((RepositoryStructure.createRepository_spec hcreated).1 repository)
  refine ⟨hcalls, hargs, repositoryParams, hparams, ⟨final', hparse, hparams', hextend⟩, ?_⟩
  suffices hends : (DriverRequiringCommand.onEnter files' opened' repository).Ends (fun r _ =>
      r = .ofExcept (w.disk.readBreadcrumb.map fun _ => (repositoryParams, final.init.raw))) w from
    ends_iff_run.mp hends
  intro tr
  rw [DriverRequiringCommand.onEnter, wp_bind]
  refine RepositoryStructure.wp_openRepository repository (fun _ _ _ => trivial) ?_ ?_
  · -- The initargs are there, so that only the breadcrumb can have stopped it.
    rintro ls e - - (h | ⟨-, h⟩)
    · cases hargs.symm.trans h
    · rw [h]
      rfl
  · intro ls args breadcrumb _ _ hargs' hread
    obtain rfl := Except.ok.inj (hargs.symm.trans hargs')
    have hparsed : createRepositoryParams files' opened'
        (w.opened repository (InitV1.repositoryStructureFormatUuid, initargs)
          breadcrumb).repositoryStructure true = .val (some repositoryParams, some final.init.raw) := by
      simp only [createRepositoryParams, World.opened, hparse, hparams', hextend]
      rfl
    refine ⟨trivial, ?_⟩
    simp only [bindPost, wp_bind, wp_look, wp_ofResult, hparsed, true_and, hread]
    rfl

/-- The command line `d R=r init zfs raw=true` -/
def sampleInit : StringVector :=
  ⟨[⟨⟨Zfs.toBytes "d".toList, by decide⟩⟩, ⟨⟨Zfs.toBytes "R=r".toList, by decide⟩⟩,
    ⟨⟨Zfs.toBytes "init".toList, by decide⟩⟩, ⟨⟨Zfs.toBytes "zfs".toList, by decide⟩⟩,
    ⟨⟨Zfs.toBytes "raw=true".toList, by decide⟩⟩], by decide⟩

def sampleFiles : Files := ⟨fun _ => .eof, fun _ => .ok .eof⟩

def sampleOpened (_ : Str) : Except Exn (RepositoryParams × Bool) :=
  .error (.runtimeError "no repository")

/-- The repository that is created, and what a killed command has added to it. -/
def sampleLeft : World Unit where
  disk :=
    { initargs := some
        (RepositoryStructure.serialiseInitargs InitV1.repositoryStructureFormatUuid sampleInit)
      uuid := some (Serialisation.serialise InitV1.repositoryStructureFormatUuid)
      keys := some fun _ => none
      breadcrumb := none
      temporarySnapshot := some ⟨none, none⟩
      snapshots := fun _ => none }
  repositoryStructure := ⟨"", InitV1.repositoryStructureFormatUuid, sampleInit, .initial, false⟩
  backend := ()

/-- The arguments of the calls of `init_repository`. -/
def Main.initialised (main : Main) : List (Str × Uuid × StringVector) :=
  main.calls.filterMap fun
    | .initRepository repositoryPath formatUuid initargs =>
      some (repositoryPath, formatUuid, initargs)
    | _ => none

theorem Main.mem_initialised {main : Main} {repositoryPath : Str} {formatUuid : Uuid}
    {initargs : StringVector} (h : (repositoryPath, formatUuid, initargs) ∈ main.initialised) :
    .initRepository repositoryPath formatUuid initargs ∈ main.calls := by
  obtain ⟨call, hcall, heq⟩ := List.mem_filterMap.mp h
  split at heq
  · cases heq
    exact hcall
  · cases heq

def sampleInitialised (argv : StringVector) : List (Str × Uuid × StringVector) × Bool :=
  match run sampleFiles sampleOpened argv with
  | .val final => (final.initialised, final.init.raw)
  | _ => ([], false)

theorem onEnter_of_initRepository_sample :
    sampleLeft.disk.readInitargs "r" = .ok (InitV1.repositoryStructureFormatUuid, sampleInit) ∧
      ∃ repositoryParams,
        ((DriverRequiringCommand.onEnter sampleFiles sampleOpened "r").run sampleLeft).result =
          .val (repositoryParams, true) := by
  have hinitialised : sampleInitialised sampleInit =
      ([("r".toList, InitV1.repositoryStructureFormatUuid, sampleInit)], true) := by
    decide +kernel
  rw [sampleInitialised] at hinitialised
  split at hinitialised
  · next final hrun =>
      obtain ⟨hcalls, hraw⟩ := Prod.mk.inj hinitialised
      have hcall : .initRepository "r".toList InitV1.repositoryStructureFormatUuid sampleInit ∈
          final.calls := Main.mem_initialised (hcalls ▸ List.mem_singleton_self _)
      have hchanges : ReflTransGen Disk.Changes { sampleLeft.disk with temporarySnapshot := none }
          sampleLeft.disk := .single (.event .createTemporary)
      have hcreated : RepositoryStructure.createRepository
          InitV1.repositoryStructureFormatUuid sampleInit InitV1.repositoryStructureFormatUuid =
            .ok { sampleLeft.disk with temporarySnapshot := none } := rfl
      obtain ⟨-, hargs, repositoryParams, -, -, hresult⟩ :=
        onEnter_of_initRepository hrun hcall hcreated hchanges "r"
      exact ⟨hargs, repositoryParams, hraw ▸ hresult⟩
  · cases hinitialised

end Diffmonger
