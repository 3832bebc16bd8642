import Diffmonger.Basic
import Mathlib.Data.Char
import Mathlib.Data.List.AList
import Mathlib.Data.List.Lex
import Mathlib.Data.List.TakeWhile
import Mathlib.Data.String.Basic

/-!
# The argument parser (`util/parser/Parser.hpp`)

A `std::string` is a list of characters, one for each byte. The client's commands and parameters are
given by their virtual functions, as functions on a state `σ` of the client's own; every call of one
is a step of the program, labelled by a `HookCall`, which names a command by its path from the root.

What is only used for the documentation of commands and parameters is left out.
-/

namespace Diffmonger

abbrev Str := List Char

namespace Parser

def keyValueSeparator : Char := '='

def appendToken : Char := '+'

def assignToken : Char := ':'

/-- A virtual function of a command or parameter. -/
abbrev Hook (σ : Type) := σ → Except Exn Unit × σ

/-- A virtual function that does nothing. -/
def Hook.nothing {σ : Type} : Hook σ := fun s => (.ok (), s)

/-- `std::map<std::string_view, std::vector<std::string_view>>`; the order of the keys only matters
where the map is iterated. -/
abbrev KeyValues := AList fun _ : Str => List Str

/-- `std::quoted` -/
def quoted (str : Str) : String :=
  String.ofList ('"' :: (str.flatMap fun c => if c = '"' ∨ c = '\\' then ['\\', c] else [c]) ++ ['"'])

structure Parameter (σ : Type) where
  set : List Str → Hook σ
  check : Hook σ

/-- The parameters of a command, in the order of their names. -/
structure Parameters (σ : Type) where
  entries : List (Str × Parameter σ)
  sorted : (entries.map Prod.fst).Pairwise (· < ·)

def Parameters.names {σ : Type} (parameters : Parameters σ) : List Str :=
  parameters.entries.map Prod.fst

/-- What `unrecognisedParameters` does by default: the first one is an error. -/
def unrecognisedParameters {σ : Type} (unrecognisedParams : KeyValues) : Hook σ := fun s =>
  match unrecognisedParams.keys.min? with
  | some key => (.error (.argumentError ("Unrecognised parameter: " ++ quoted key)), s)
  | none => (.ok (), s)

/-- What `execute` does by default. -/
def subcommandExpected {σ : Type} : Hook σ := fun s =>
  (.error (.argumentError "Subcommand expected"), s)

structure Command (σ : Type) where
  parameters : Parameters σ
  /-- `lookupCommand` -/
  subcommands : Str → Option (Command σ)
  onEnter : Hook σ := .nothing
  /-- The subcommand is given by its name. -/
  beforeSubcommand : Str → Hook σ := fun _ => .nothing
  execute : Hook σ := subcommandExpected
  unrecognisedParameters : KeyValues → Hook σ := Parser.unrecognisedParameters

/-- A call of a virtual function. -/
inductive HookCall where
  | onEnter (path : List Str)
  | set (path : List Str) (parameter : Str) (values : List Str)
  | check (path : List Str) (parameter : Str)
  | unrecognisedParameters (path : List Str)
  | beforeSubcommand (path : List Str) (subcommand : Str)
  | execute (path : List Str)
  deriving DecidableEq

variable {σ : Type}

def callHook (call : HookCall) (hook : Hook σ) : Prog HookCall σ Exn Unit := do
  let r ← Prog.readModify call (fun s => (hook s).1) fun s => (hook s).2
  Prog.ofExcept r

/-! ## Errors -/

def contextstr (path : List Str) (parameter : Option Str) : String :=
  ">>".intercalate ((path ++ parameter.toList).map String.ofList)

def contextualError (path : List Str) (parameter : Option Str) (str : String) : Exn :=
  .argumentError ("Error while processing " ++ contextstr path parameter ++ ": " ++ str)

def withContext (path : List Str) (parameter : Option Str) (f : Prog HookCall σ Exn Unit) :
    Prog HookCall σ Exn Unit :=
  f.handle Exn.isArgumentError fun e => Prog.throw (contextualError path parameter e.what)

/-! ## Parsing -/

/-- What `finalise` does to one parameter; `values` are those that were given for it, if any. -/
def finaliseParameter (path : List Str) (name : Str) (parameter : Parameter σ)
    (values : Option (List Str)) : Prog HookCall σ Exn Unit :=
  withContext path (some name) do
    match values with
    | some values => callHook (.set path name values) (parameter.set values)
    | none => pure ()
    callHook (.check path name) parameter.check

/-- The loop of `finalise`; what remains of the map is returned. -/
def finaliseParameters (path : List Str) :
    List (Str × Parameter σ) → KeyValues → Prog HookCall σ Exn KeyValues
  | [], map => return map
  | (name, parameter) :: entries, map => do
    let (values, map) := map.extract name
    finaliseParameter path name parameter values
    finaliseParameters path entries map

def finalise (path : List Str) (command : Command σ) (map : KeyValues) :
    Prog HookCall σ Exn Unit := do
  let map ← finaliseParameters path command.parameters.entries map
  withContext path none
    (callHook (.unrecognisedParameters path) (command.unrecognisedParameters map))

/-- The part of an argument before the first separator; it possibly ends with a token. -/
def keyAndMaybeToken (cur : Str) : Str := cur.takeWhile (· ≠ keyValueSeparator)

/-- The part of an argument after the first separator. -/
def valueOf (cur : Str) : Str := (cur.dropWhile (· ≠ keyValueSeparator)).drop 1

def endsWith (str : Str) (token : Char) : Bool := str.getLast? = some token

/-- The argument continues the assignment before it. -/
def startsWithSeparator (cur : Str) : Bool := cur.head? = some keyValueSeparator

/-- `try_emplace`, and append a value. -/
def KeyValues.emplaceBack (map : KeyValues) (key value : Str) : KeyValues :=
  map.insert key (((map.lookup key).getD []) ++ [value])

/-- The loop over the arguments, in which `command` is the current command. -/
def parseLoop (path : List Str) (command : Command σ) (keyValues : KeyValues) :
    List Str → Prog HookCall σ Exn Unit
  | [] => do
    finalise path command keyValues
    withContext path none (callHook (.execute path) command.execute)
  | cur :: args =>
    let key := keyAndMaybeToken cur
    let endsWithAssignToken := endsWith key assignToken
    if keyValueSeparator ∉ cur ∧ ¬ endsWithAssignToken then
      -- `cur` is a command
      match command.subcommands key with
      | none => Prog.throw (contextualError path none ("Unrecognised command: " ++ quoted key))
      | some next => do
        finalise path command keyValues
        withContext path none
          (callHook (.beforeSubcommand path key) (command.beforeSubcommand key))
        withContext (path ++ [key]) none (callHook (.onEnter (path ++ [key])) next.onEnter)
        parseLoop (path ++ [key]) next ∅ args
    else if endsWith key appendToken then
      parseLoop path command (keyValues.emplaceBack key.dropLast (valueOf cur)) args
    else
      let key := if endsWithAssignToken then key.dropLast else key
      if keyValueSeparator ∉ cur then
        parseLoop path command (keyValues.insert key []) args
      else
        -- the values after the first one
        let more := (args.takeWhile startsWithSeparator).map (List.drop 1)
        parseLoop path command (keyValues.insert key (valueOf cur :: more))
          (args.dropWhile startsWithSeparator)
termination_by args => args.length
decreasing_by
  all_goals simp only [List.length_cons]
  all_goals exact Nat.lt_succ_of_le (by first | exact le_rfl | exact List.length_dropWhile_le _ _)

/-- `parse`, where the root command has the given name. -/
def parse (name : Str) (command : Command σ) (args : List Str) : Prog HookCall σ Exn Unit := do
  withContext [name] none (callHook (.onEnter [name]) command.onEnter)
  parseLoop [name] command ∅ args

end Parser

end Diffmonger
