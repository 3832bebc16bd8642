import Diffmonger.Lib.Script
import Diffmonger.Parser.Grammar

/-!
# Arguments without quoting

An `Invocation` says what is done to the parameters of a command and of a chain of subcommands.
`render` writes it as arguments, whatever the values are, and `parse` does exactly what it says:
the map that the parser keeps is, between any two operations, the fold of those before
(`lookup_foldl_applyMap`).

Main result: `parse_render`. One round of the loop undoes the rendering of one operation
(`parseLoop_render`), because the arguments that follow cannot be taken for more values of it
(`NotContinuing`): they begin with a free name, and a continuation begins with the separator.
-/

namespace Diffmonger.Parser

variable {σ : Type}

/-- What the arguments do to a parameter. -/
inductive Operation where
  | assign (parameter : Str) (values : List Str)
  | append (parameter : Str) (value : Str)
  deriving DecidableEq

namespace Operation

def parameter : Operation → Str
  | assign parameter _ => parameter
  | append parameter _ => parameter

/-- The values of an assignment are `name:=v0 =v1 =v2 …`, and those of an append `name+=v`. -/
def render : Operation → List Str
  | assign name [] => [name ++ [assignToken]]
  | assign name (value :: values) =>
    (name ++ assignToken :: assignvalue value) :: values.map assignvalue
  | append name value => [name ++ appendToken :: assignvalue value]

/-- The values of the parameter `name`, if it occurs, after the operation. -/
def apply (name : Str) (before : Option (List Str)) : Operation → Option (List Str)
  | assign parameter values => if parameter = name then some values else before
  | append parameter value =>
    if parameter = name then some (before.getD [] ++ [value]) else before

/-- The operation on the parser's map. -/
def applyMap (map : KeyValues) : Operation → KeyValues
  | assign parameter values => map.insert parameter values
  | append parameter value => map.emplaceBack parameter value

end Operation

/-- What the operations give for a parameter, if it occurs. -/
def given (ops : List Operation) (name : Str) : Option (List Str) :=
  ops.foldl (Operation.apply name) none

/-- The map that the parser has after the operations. -/
theorem lookup_foldl_applyMap (ops : List Operation) (map : KeyValues) (name : Str) :
    (ops.foldl Operation.applyMap map).lookup name =
      ops.foldl (Operation.apply name) (map.lookup name) := by
  induction ops generalizing map with
  | nil => rfl
  | cons op ops ih =>
      rw [List.foldl_cons, List.foldl_cons, ih]
      congr 1
      cases op with
      | assign parameter values =>
          by_cases heq : parameter = name
          · rw [heq, Operation.applyMap, Operation.apply, if_pos rfl, AList.lookup_insert]
          · rw [Operation.applyMap, Operation.apply, if_neg heq,
              AList.lookup_insert_ne (Ne.symm heq)]
      | append parameter value =>
          by_cases heq : parameter = name
          · rw [heq, Operation.applyMap, Operation.apply, if_pos rfl, KeyValues.emplaceBack,
              AList.lookup_insert]
          · rw [Operation.applyMap, Operation.apply, if_neg heq, KeyValues.emplaceBack,
              AList.lookup_insert_ne (Ne.symm heq)]

/-!
## Operations on the way through the loop

The arguments of one operation are consumed by one round of the loop.
-/

/-- The arguments do not continue an assignment before them. -/
def NotContinuing (args : List Str) : Prop := ∀ cur ∈ args.head?, startsWithSeparator cur = false

theorem NotContinuing.dropWhile {args : List Str} (h : NotContinuing args) :
    args.dropWhile startsWithSeparator = args := by
  cases args with
  | nil => rfl
  | cons cur args => exact List.dropWhile_cons_of_neg (by simp [h cur rfl])

theorem NotContinuing.takeWhile {args : List Str} (h : NotContinuing args) :
    args.takeWhile startsWithSeparator = [] := by
  cases args with
  | nil => rfl
  | cons cur args => exact List.takeWhile_cons_of_neg (by simp [h cur rfl])

/-- No argument that starts with a free name is a continuation. -/
theorem startsWithSeparator_append {name rest : Str} (h : Free name)
    (hrest : startsWithSeparator rest = false) : startsWithSeparator (name ++ rest) = false := by
  cases name with
  | nil => exact hrest
  | cons c name =>
      have hne : c ≠ keyValueSeparator := fun heq => h.separator (heq ▸ List.mem_cons_self)
      simpa [startsWithSeparator] using hne

theorem notContinuing_render_append {op : Operation} (h : Free op.parameter) (args : List Str) :
    NotContinuing (op.render ++ args) := by
  intro cur hcur
  cases op with
  | assign name values =>
      cases values with
      | nil =>
          obtain rfl : name ++ [assignToken] = cur := Option.some.inj hcur
          exact startsWithSeparator_append h rfl
      | cons value values =>
          obtain rfl : name ++ assignToken :: assignvalue value = cur := Option.some.inj hcur
          exact startsWithSeparator_append h rfl
  | append name value =>
      obtain rfl : name ++ appendToken :: assignvalue value = cur := Option.some.inj hcur
      exact startsWithSeparator_append h rfl

theorem notContinuing_flatMap_render_append {ops : List Operation} {args : List Str}
    (hfree : ∀ op ∈ ops, Free op.parameter) (hargs : NotContinuing args) :
    NotContinuing (ops.flatMap Operation.render ++ args) := by
  cases ops with
  | nil => exact hargs
  | cons op ops =>
      rw [List.flatMap_cons, List.append_assoc]
      exact notContinuing_render_append (hfree op List.mem_cons_self) _

theorem takeWhile_map_assignvalue_append {values args : List Str} (h : NotContinuing args) :
    (values.map assignvalue ++ args).takeWhile startsWithSeparator = values.map assignvalue := by
  have hall : ∀ cur ∈ values.map assignvalue, startsWithSeparator cur = true := by
    intro cur hcur
    obtain ⟨value, _, rfl⟩ := List.mem_map.mp hcur
    exact startsWithSeparator_assignvalue value
  rw [List.takeWhile_append_of_pos hall, h.takeWhile, List.append_nil]

theorem map_drop_assignvalue (values : List Str) :
    (values.map assignvalue).map (List.drop 1) = values := by
  rw [List.map_map]
  exact List.map_id values

/-- One round of the loop does what the operation says. -/
theorem parseLoop_render {op : Operation} {args : List Str} (hfree : Free op.parameter)
    (hargs : NotContinuing args) (path : List Str) (command : Command σ) (keyValues : KeyValues) :
    parseLoop path command keyValues (op.render ++ args) =
      parseLoop path command (op.applyMap keyValues) args := by
  cases op with
  | assign name values =>
      change Free name at hfree
      cases values with
      | nil =>
          have hcur : classify (name ++ [assignToken]) = .clear name :=
            classify_of_mem_spellings hfree (List.mem_singleton_self _)
          rw [Operation.render, List.cons_append, parseLoop_cons, hcur]
          rfl
      | cons value values =>
          have hcur : classify (name ++ assignToken :: assignvalue value) = .assign name value :=
            classify_of_mem_spellings hfree (List.mem_cons_of_mem _ (List.mem_singleton_self _))
          rw [Operation.render, List.cons_append, parseLoop_cons, hcur]
          dsimp only
          -- the loop takes as many continuations as have been rendered
          rw [takeWhile_map_assignvalue_append hargs, map_drop_assignvalue,
            dropWhile_map_assignvalue_append, hargs.dropWhile]
          rfl
  | append name value =>
      have hcur : classify (name ++ appendToken :: assignvalue value) = .append name value :=
        classify_of_mem_spellings hfree (List.mem_singleton_self _)
      rw [Operation.render, List.cons_append, parseLoop_cons, hcur]
      rfl

theorem parseLoop_flatMap_render {ops : List Operation} {args : List Str}
    (hfree : ∀ op ∈ ops, Free op.parameter) (hargs : NotContinuing args) (path : List Str)
    (command : Command σ) (keyValues : KeyValues) :
    parseLoop path command keyValues (ops.flatMap Operation.render ++ args) =
      parseLoop path command (ops.foldl Operation.applyMap keyValues) args := by
  induction ops generalizing keyValues with
  | nil => rfl
  | cons op ops ih =>
      have hops := fun op h => hfree op (List.mem_cons_of_mem _ h)
      rw [List.flatMap_cons, List.append_assoc,
        parseLoop_render (hfree op List.mem_cons_self)
          (notContinuing_flatMap_render_append hops hargs)]
      exact ih hops _

/-- What is rendered is accepted. -/
theorem parses_render_append {op : Operation} {command : Command σ} {args : List Str}
    (hfree : Free op.parameter) (hname : op.parameter ∈ command.parameters.names)
    (hargs : Parses false command args) : Parses false command (op.render ++ args) := by
  cases op with
  | assign name values =>
      cases values with
      | nil =>
          have hcur : classify (name ++ [assignToken]) = .clear name :=
            classify_of_mem_spellings hfree (List.mem_singleton_self _)
          exact .clear hcur hname hargs
      | cons value values =>
          have hcur : classify (name ++ assignToken :: assignvalue value) = .assign name value :=
            classify_of_mem_spellings hfree (List.mem_cons_of_mem _ (List.mem_singleton_self _))
          refine .assign hcur hname ?_
          change Parses false command ((values.map assignvalue ++ args).dropWhile _)
          rw [dropWhile_map_assignvalue_append]
          exact hargs.dropWhile
  | append name value =>
      have hcur : classify (name ++ appendToken :: assignvalue value) = .append name value :=
        classify_of_mem_spellings hfree (List.mem_singleton_self _)
      exact .append hcur hname hargs

/-! ## Invocations -/

/-- Operations on the parameters of a command, followed by those of a chain of subcommands. -/
inductive Invocation where
  | last (ops : List Operation)
  | subcommand (ops : List Operation) (name : Str) (next : Invocation)
  deriving DecidableEq

/-- The operations are on parameters that the command declares, by free names. -/
def Command.Declares (command : Command σ) (ops : List Operation) : Prop :=
  ∀ op ∈ ops, op.parameter ∈ command.parameters.names ∧ Free op.parameter

namespace Invocation

def render : Invocation → List Str
  | last ops => ops.flatMap Operation.render
  | subcommand ops name next => ops.flatMap Operation.render ++ name :: next.render

/-- The invocation is one of this command. -/
inductive Of : Command σ → Invocation → Prop
  | last {command : Command σ} {ops : List Operation} (hops : command.Declares ops) :
    Of command (last ops)
  | subcommand {command target : Command σ} {ops : List Operation} {name : Str}
    {next : Invocation} (hops : command.Declares ops) (hfree : Free name)
    (hname : command.subcommands name = some target) (hnext : Of target next) :
    Of command (subcommand ops name next)

end Invocation

/-- A parameter that occurs is set, once; the parameters are in the order of their names. -/
def setCallsOf (path : List Str) (command : Command σ) (ops : List Operation) : List HookCall :=
  command.parameters.names.filterMap fun name => (given ops name).map (HookCall.set path name)

/-- The calls of `Parameter::set` that an invocation asks for. -/
def Invocation.setCalls (path : List Str) (command : Command σ) : Invocation → List HookCall
  | last ops => setCallsOf path command ops
  | subcommand ops name next => setCallsOf path command ops ++
      match command.subcommands name with
      | some target => next.setCalls (path ++ [name]) target
      | none => []

/-!
## The calls of the parser

The calls are the labels of the program, and those of `Parameter::set` are filtered out of them. At
the end of a command, each of its parameters is looked up in the map; one that occurs is set, and
all are finalised.
-/

def HookCall.isSet : HookCall → Bool
  | set _ _ _ => true
  | _ => false

theorem performs_callHook (call : HookCall) (hook : Hook σ) :
    (callHook call hook).Performs [call] () :=
  ⟨[], rfl, fun s => Prog.performs_ofExcept (hook s).1⟩

/-- The calls of `finalise` for the parameters with the given names. -/
def parameterCalls (path : List Str) (values : Str → Option (List Str)) (names : List Str) :
    List HookCall :=
  names.flatMap fun name => (values name).toList.map (HookCall.set path name) ++ [.check path name]

theorem performs_finaliseParameter (path : List Str) (name : Str) (parameter : Parameter σ)
    (values : Option (List Str)) : (finaliseParameter path name parameter values).Performs
      (values.toList.map (HookCall.set path name) ++ [.check path name]) () := by
  refine Prog.performs_handle ?_
  cases values with
  | none => exact performs_callHook _ _
  | some values => exact Prog.performs_bind (performs_callHook _ _) (performs_callHook _ _)

/-- The parameters are finalised in the order of their names, and taken out of the map. -/
theorem performs_finaliseParameters (path : List Str) (entries : List (Str × Parameter σ))
    (hnodup : (entries.map Prod.fst).Nodup) (map : KeyValues) :
    (finaliseParameters path entries map).Performs
      (parameterCalls path map.lookup (entries.map Prod.fst))
      (entries.foldl (fun map e => map.erase e.1) map) := by
  induction entries generalizing map with
  | nil => exact ⟨rfl, rfl⟩
  | cons e entries ih =>
      obtain ⟨name, parameter⟩ := e
      obtain ⟨hname, hentries⟩ := List.nodup_cons.mp hnodup
      have herase : parameterCalls path (map.erase name).lookup (entries.map Prod.fst) =
          parameterCalls path map.lookup (entries.map Prod.fst) := by
        refine List.flatMap_congr fun other hother => ?_
        have hne : other ≠ name := ne_of_mem_of_not_mem hother hname
        dsimp only
        rw [AList.lookup_erase_ne hne]
      rw [finaliseParameters, AList.extract_eq_lookup_erase]
      have hrest := ih hentries (map.erase name)
      rw [herase] at hrest
      exact Prog.performs_bind (performs_finaliseParameter path name parameter _) hrest

theorem performs_finalise (path : List Str) (command : Command σ) (map : KeyValues) :
    (finalise path command map).Performs
      (parameterCalls path map.lookup command.parameters.names ++ [.unrecognisedParameters path])
      () := by
  have hnodup : command.parameters.names.Nodup := command.parameters.sorted.imp fun h => ne_of_lt h
  exact Prog.performs_bind (performs_finaliseParameters path _ hnodup map)
    (Prog.performs_handle (performs_callHook _ _))

theorem filter_isSet_parameterCalls (path : List Str) (values : Str → Option (List Str))
    (names : List Str) : (parameterCalls path values names).filter HookCall.isSet =
      names.filterMap fun name => (values name).map (HookCall.set path name) := by
  induction names with
  | nil => rfl
  | cons name names ih =>
      rw [parameterCalls, List.flatMap_cons, List.filter_append, ← parameterCalls, ih]
      cases hvalues : values name with
      | none => rw [List.filterMap_cons_none (by simp [hvalues])]; rfl
      | some value => rw [List.filterMap_cons_some (by rw [hvalues]; rfl)]; rfl

theorem performs_finalise_given (path : List Str) (command : Command σ) (ops : List Operation) :
    ∃ ls, (finalise path command (ops.foldl Operation.applyMap ∅)).Performs ls () ∧
      ls.filter HookCall.isSet = setCallsOf path command ops := by
  refine ⟨_, performs_finalise path command _, ?_⟩
  have hgiven : (fun name => (ops.foldl Operation.applyMap ∅).lookup name) = given ops :=
    funext fun name => lookup_foldl_applyMap ops ∅ name
  rw [hgiven, List.filter_append, filter_isSet_parameterCalls]
  exact List.append_nil _

/-- The loop makes the calls of an invocation; the induction is on the chain of subcommands. -/
theorem performs_parseLoop {command : Command σ} {invocation : Invocation}
    (h : invocation.Of command) (path : List Str) :
    ∃ ls, (parseLoop path command ∅ invocation.render).Performs ls () ∧
      ls.filter HookCall.isSet = invocation.setCalls path command := by
  induction h generalizing path with
  | @last command ops hops =>
      obtain ⟨ls, hfinalise, hls⟩ := performs_finalise_given path command ops
      have hrender := parseLoop_flatMap_render (fun op hop => (hops op hop).2)
        (show NotContinuing [] from nofun) path command ∅
      rw [List.append_nil] at hrender
      rw [Invocation.render, hrender, parseLoop]
      refine ⟨ls ++ [.execute path], Prog.performs_bind hfinalise
        (Prog.performs_handle (performs_callHook _ _)), ?_⟩
      rw [List.filter_append, hls]
      exact List.append_nil _
  | @subcommand command target ops name next hops hfree hname _ ih =>
      obtain ⟨ls, hfinalise, hls⟩ := performs_finalise_given path command ops
      obtain ⟨ls', hnext, hls'⟩ := ih (path ++ [name])
      -- the name of the subcommand continues no assignment
      have hstart : NotContinuing (name :: next.render) := by
        intro cur hcur
        obtain rfl : name = cur := Option.some.inj hcur
        rw [← List.append_nil name]
        exact startsWithSeparator_append hfree rfl
      have hcur : classify name = .command name :=
        classify_of_mem_spellings hfree (List.mem_singleton_self name)
      rw [Invocation.render, parseLoop_flatMap_render (fun op hop => (hops op hop).2) hstart,
        parseLoop_cons, hcur]
      dsimp only
      rw [hname]
      refine ⟨ls ++ ([.beforeSubcommand path name] ++ ([.onEnter (path ++ [name])] ++ ls')),
        Prog.performs_bind hfinalise
          (Prog.performs_bind (Prog.performs_handle (performs_callHook _ _))
            (Prog.performs_bind (Prog.performs_handle (performs_callHook _ _)) hnext)), ?_⟩
      rw [Invocation.setCalls, hname, List.filter_append, hls]
      exact congrArg _ hls'

theorem parses_flatMap_render_append {ops : List Operation} {command : Command σ}
    {args : List Str} (hops : command.Declares ops) (hargs : Parses false command args) :
    Parses false command (ops.flatMap Operation.render ++ args) := by
  induction ops with
  | nil => exact hargs
  | cons op ops ih =>
      have hop := hops op List.mem_cons_self
      rw [List.flatMap_cons, List.append_assoc]
      exact parses_render_append hop.2 hop.1 (ih fun op h => hops op (List.mem_cons_of_mem _ h))

theorem parses_render {command : Command σ} {invocation : Invocation} (h : invocation.Of command) :
    Parses false command invocation.render := by
  induction h with
  | @last command ops hops =>
      have hparses := parses_flatMap_render_append hops (.nil command)
      rwa [List.append_nil] at hparses
  | @subcommand command target ops name next hops hfree hname _ ih =>
      have hcur : classify name = .command name :=
        classify_of_mem_spellings hfree (List.mem_singleton_self name)
      exact parses_flatMap_render_append hops (.command hcur hname ih)

/-- Whatever its values are, an invocation is transported to the calls of `Parameter::set`. Only an
exception of a virtual function can cut the calls short. -/
theorem parse_render {command : Command σ} {invocation : Invocation}
    (h : invocation.Of command) (name : Str) (s : σ) :
    ((labels ((parse name command invocation.render).run s).steps).filter HookCall.isSet <+:
        invocation.setCalls [name] command) ∧
      (((parse name command invocation.render).run s).result = .val () →
        (labels ((parse name command invocation.render).run s).steps).filter HookCall.isSet =
          invocation.setCalls [name] command) ∧
      ((∀ target, command.Reaches target → target.HooksSucceed) →
        ((parse name command invocation.render).run s).result = .val ()) := by
  obtain ⟨ls, hloop, hls⟩ := performs_parseLoop h [name]
  have hparse : (parse name command invocation.render).Performs ([.onEnter [name]] ++ ls) () :=
    Prog.performs_bind (Prog.performs_handle (performs_callHook _ _)) hloop
  have hfilter : ([HookCall.onEnter [name]] ++ ls).filter HookCall.isSet =
      invocation.setCalls [name] command := hls
  refine ⟨?_, ?_, ?_⟩
  · rw [← hfilter]
    exact (hparse.prefix_run s).filter HookCall.isSet
  · intro hresult
    rw [(hparse.run s hresult).1, hfilter]
  · intro hhooks
    rcases Prog.ends_iff_run.mp (decides_parse hhooks name invocation.render s) with h' | h'
    · exact h'.2
    · exact absurd (parses_render h) h'.1

/-- The arguments `a:==:+= = a+==` -/
theorem parse_render_sample :
    let invocation : Invocation :=
      .last [.assign ['a'] [['=', ':', '+', '='], []], .append ['a'] ['=']]
    ((parse ['c'] sampleCommand invocation.render).run ()).result = .val () ∧
      (labels ((parse ['c'] sampleCommand invocation.render).run ()).steps).filter HookCall.isSet =
        [.set [['c']] ['a'] [['=', ':', '+', '='], [], ['=']]] := by
  have hof : Invocation.Of sampleCommand
      (.last [.assign ['a'] [['=', ':', '+', '='], []], .append ['a'] ['=']]) := by
    refine .last fun op hop => ?_
    have hfree : Free ['a'] := ⟨by decide, by decide, by decide⟩
    rcases List.mem_pair.mp hop with rfl | rfl
    · exact ⟨List.mem_cons_self, hfree⟩
    · exact ⟨List.mem_cons_self, hfree⟩
  obtain ⟨-, hcalls, hresult⟩ := parse_render hof ['c'] ()
  have hval := hresult sampleCommand_hooksSucceed
  exact ⟨hval, (hcalls hval).trans (by decide)⟩

end Diffmonger.Parser
