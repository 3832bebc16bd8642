import Diffmonger.Parser.Arguments

/-!
# The grammar of the arguments

The grammar in the comment on `Parser` is stated literally, as inductive predicates on lists of
arguments. `Parses` is the walk that the parser takes over them. It differs from the grammar in a
single place: after `name:` the grammar goes on with the `=value` arguments, and the parser takes
the first of them for a parameter with the empty name. `Parses` has both readings, so that
everything else is proved once.

Main result: `throws_iff_not_argv_iff`. With the one reading the walk is the grammar (`Argv.parses`,
`Parses.argv`), with the other one it is what the parser accepts (`decides_parseLoop`), and the two
readings differ exactly on the arguments that `StopsShort` describes. That the parser throws nothing
but an `argument_error` where it does not accept is part of `Decides`.
-/

namespace Diffmonger.Parser

variable {σ : Type}

/-- `assignvalue = "=" value` -/
def assignvalue (value : Str) : Str := keyValueSeparator :: value

/-- What stands after the name in its argument, and the arguments after that one.

`paramvalue = ":" [assignvalue] { <$> assignvalue } | "=" value { <$> assignvalue } | "+=" value` -/
inductive Paramvalue : Str → List Str → Prop
  | clear (values : List Str) : Paramvalue [assignToken] (values.map assignvalue)
  | clearAssign (value : Str) (values : List Str) :
    Paramvalue (assignToken :: assignvalue value) (values.map assignvalue)
  | assign (value : Str) (values : List Str) :
    Paramvalue (assignvalue value) (values.map assignvalue)
  | append (value : Str) : Paramvalue (appendToken :: assignvalue value) []

/-- `param = paramname paramvalue` -/
inductive Param (command : Command σ) : List Str → Prop
  | mk {paramname first : Str} {more : List Str} (hname : paramname ∈ command.parameters.names)
    (hvalue : Paramvalue first more) : Param command ((paramname ++ first) :: more)

/-- `subcommandargv = subcommandname { <$> param }`, without the name. -/
inductive Subcommandargv (command : Command σ) : List Str → Prop
  | nil : Subcommandargv command []
  | cons {param args : List Str} (hparam : Param command param)
    (hargs : Subcommandargv command args) : Subcommandargv command (param ++ args)

/-- `argv = subcommandargv { <$> subcommandargv }`, without the name of the root command. -/
inductive Argv : Command σ → List Str → Prop
  | last {command : Command σ} {args : List Str} (hargs : Subcommandargv command args) :
    Argv command args
  | subcommand {command next : Command σ} {args rest : List Str} {name : Str}
    (hargs : Subcommandargv command args) (hname : command.subcommands name = some next)
    (hrest : Argv next rest) : Argv command (args ++ name :: rest)

/-!
## The walk over the arguments

The grammar says how arguments are composed, the walk how they are taken apart, one after the other.
That both describe the same lists is not quite immediate, since a continuation is also an argument
of its own, an assignment to the empty name.
-/

/-- What is left of the arguments after `name:`. -/
def afterClear (continues : Bool) (args : List Str) : List Str :=
  if continues then args.dropWhile startsWithSeparator else args

/-- The arguments are taken for parameters and subcommands that exist; `continues` says whether
`name:` can be continued. -/
inductive Parses (continues : Bool) : Command σ → List Str → Prop
  | nil (command : Command σ) : Parses continues command []
  | command {command next : Command σ} {cur key : Str} {args : List Str}
    (hcur : classify cur = .command key) (hkey : command.subcommands key = some next)
    (hargs : Parses continues next args) : Parses continues command (cur :: args)
  | append {command : Command σ} {cur key value : Str} {args : List Str}
    (hcur : classify cur = .append key value) (hkey : key ∈ command.parameters.names)
    (hargs : Parses continues command args) : Parses continues command (cur :: args)
  | clear {command : Command σ} {cur key : Str} {args : List Str}
    (hcur : classify cur = .clear key) (hkey : key ∈ command.parameters.names)
    (hargs : Parses continues command (afterClear continues args)) :
    Parses continues command (cur :: args)
  | assign {command : Command σ} {cur key value : Str} {args : List Str}
    (hcur : classify cur = .assign key value) (hkey : key ∈ command.parameters.names)
    (hargs : Parses continues command (args.dropWhile startsWithSeparator)) :
    Parses continues command (cur :: args)

/-- The walk is determined by the kind of its first argument. -/
theorem parses_cons {continues : Bool} {command : Command σ} {cur : Str} {args : List Str} :
    Parses continues command (cur :: args) ↔
      match classify cur with
      | .command key => ∃ next, command.subcommands key = some next ∧ Parses continues next args
      | .append key _ => key ∈ command.parameters.names ∧ Parses continues command args
      | .clear key =>
        key ∈ command.parameters.names ∧ Parses continues command (afterClear continues args)
      | .assign key _ => key ∈ command.parameters.names ∧
        Parses continues command (args.dropWhile startsWithSeparator) := by
  constructor
  · intro h
    cases h with
    | command hcur hkey hargs => rw [hcur]; exact ⟨_, hkey, hargs⟩
    | append hcur hkey hargs => rw [hcur]; exact ⟨hkey, hargs⟩
    | clear hcur hkey hargs => rw [hcur]; exact ⟨hkey, hargs⟩
    | assign hcur hkey hargs => rw [hcur]; exact ⟨hkey, hargs⟩
  · intro h
    cases hcur : classify cur with
    | command key =>
        rw [hcur] at h
        obtain ⟨next, hkey, hargs⟩ := h
        exact .command hcur hkey hargs
    | append key value => rw [hcur] at h; exact .append hcur h.1 h.2
    | clear key => rw [hcur] at h; exact .clear hcur h.1 h.2
    | assign key value => rw [hcur] at h; exact .assign hcur h.1 h.2

@[simp] theorem startsWithSeparator_assignvalue (value : Str) :
    startsWithSeparator (assignvalue value) = true := rfl

theorem eq_assignvalue_of_startsWithSeparator {cur : Str} (h : startsWithSeparator cur) :
    ∃ value, cur = assignvalue value := by
  cases cur with
  | nil => exact absurd h (by decide)
  | cons c value =>
      have hc : c = keyValueSeparator := by simpa [startsWithSeparator] using h
      exact ⟨value, by rw [hc]; rfl⟩

/-- A continuation is an assignment to the empty name when it is not taken for a continuation. -/
theorem classify_assignvalue (value : Str) : classify (assignvalue value) = .assign [] value := by
  have hpre : keyValueSeparator ∉ ([] : Str) := List.not_mem_nil
  rw [assignvalue, ← List.nil_append (keyValueSeparator :: value), classify_append hpre]
  rfl

theorem parses_assignvalue {continues : Bool} {command : Command σ} {value : Str}
    {args : List Str} : Parses continues command (assignvalue value :: args) ↔
      [] ∈ command.parameters.names ∧
        Parses continues command (args.dropWhile startsWithSeparator) := by
  rw [parses_cons, classify_assignvalue]

/-- Continuations can be left out. -/
theorem Parses.dropWhile {continues : Bool} {command : Command σ} {args : List Str}
    (h : Parses continues command args) :
    Parses continues command (args.dropWhile startsWithSeparator) := by
  cases args with
  | nil => exact h
  | cons cur args =>
      by_cases hcur : startsWithSeparator cur
      · rw [List.dropWhile_cons_of_pos hcur]
        obtain ⟨value, rfl⟩ := eq_assignvalue_of_startsWithSeparator hcur
        exact (parses_assignvalue.mp h).2
      · rwa [List.dropWhile_cons_of_neg hcur]

/-! ## The grammar is the walk with continuations after `name:` -/

/-- The commands that subcommands of this one lead to. -/
inductive Command.Reaches : Command σ → Command σ → Prop
  | refl (command : Command σ) : Reaches command command
  | subcommand {command next target : Command σ} {name : Str}
    (hname : command.subcommands name = some next) (hnext : Reaches next target) :
    Reaches command target

/-- The names that a command declares are free of the syntax. -/
structure Command.NamesFree (command : Command σ) : Prop where
  parameters : ∀ name ∈ command.parameters.names, Free name
  subcommands : ∀ name next, command.subcommands name = some next → Free name

theorem dropWhile_map_assignvalue_append (values args : List Str) :
    (values.map assignvalue ++ args).dropWhile startsWithSeparator =
      args.dropWhile startsWithSeparator := by
  refine List.dropWhile_append_of_pos fun cur hcur => ?_
  obtain ⟨value, _, rfl⟩ := List.mem_map.mp hcur
  exact startsWithSeparator_assignvalue value

theorem exists_takeWhile_eq_map_assignvalue (args : List Str) :
    ∃ values : List Str, args.takeWhile startsWithSeparator = values.map assignvalue := by
  induction args with
  | nil => exact ⟨[], rfl⟩
  | cons cur args ih =>
      by_cases hcur : startsWithSeparator cur
      · obtain ⟨values, hvalues⟩ := ih
        obtain ⟨value, rfl⟩ := eq_assignvalue_of_startsWithSeparator hcur
        exact ⟨value :: values, by rw [List.takeWhile_cons_of_pos hcur, hvalues, List.map_cons]⟩
      · exact ⟨[], by rw [List.takeWhile_cons_of_neg hcur]; rfl⟩

/-- A parameter of the grammar is one round of the walk. -/
theorem Param.parses_append {command : Command σ} {param args : List Str}
    (h : Param command param) (hfree : command.NamesFree) (hargs : Parses true command args) :
    Parses true command (param ++ args) := by
  cases h with
  | @mk name first more hname hvalue =>
      have hkey : Free name := hfree.parameters name hname
      rw [List.cons_append]
      cases hvalue with
      | clear values =>
          have hcur : classify (name ++ [assignToken]) = .clear name :=
            classify_of_mem_spellings hkey (List.mem_singleton_self _)
          refine .clear hcur hname ?_
          rw [afterClear, if_pos rfl, dropWhile_map_assignvalue_append]
          exact hargs.dropWhile
      | clearAssign value values =>
          have hcur : classify (name ++ assignToken :: assignvalue value) = .assign name value :=
            classify_of_mem_spellings hkey (List.mem_cons_of_mem _ (List.mem_singleton_self _))
          refine .assign hcur hname ?_
          rw [dropWhile_map_assignvalue_append]
          exact hargs.dropWhile
      | assign value values =>
          have hcur : classify (name ++ assignvalue value) = .assign name value :=
            classify_of_mem_spellings hkey List.mem_cons_self
          refine .assign hcur hname ?_
          rw [dropWhile_map_assignvalue_append]
          exact hargs.dropWhile
      | append value =>
          have hcur : classify (name ++ appendToken :: assignvalue value) = .append name value :=
            classify_of_mem_spellings hkey (List.mem_singleton_self _)
          exact .append hcur hname hargs

theorem Subcommandargv.parses_append {command : Command σ} {args rest : List Str}
    (h : Subcommandargv command args) (hfree : command.NamesFree)
    (hrest : Parses true command rest) : Parses true command (args ++ rest) := by
  induction h with
  | nil => exact hrest
  | cons hparam _ ih =>
      rw [List.append_assoc]
      exact hparam.parses_append hfree ih

theorem Argv.parses {command : Command σ} {args : List Str} (h : Argv command args)
    (hfree : ∀ target, command.Reaches target → target.NamesFree) : Parses true command args := by
  induction h with
  | @last command args hargs =>
      have hparses := hargs.parses_append (hfree command (.refl command)) (.nil command)
      rwa [List.append_nil] at hparses
  | @subcommand command next args rest name hargs hname _ ih =>
      have hcommand := hfree command (.refl command)
      refine hargs.parses_append hcommand (.command ?_ hname ?_)
      · exact classify_of_mem_spellings (hcommand.subcommands name next hname)
          (List.mem_singleton_self name)
      · exact ih fun target htarget => hfree target (.subcommand hname htarget)

/-- Another parameter before the arguments. -/
theorem Argv.param {command : Command σ} {param args : List Str} (hparam : Param command param)
    (h : Argv command args) : Argv command (param ++ args) := by
  cases h with
  | last hargs => exact .last (.cons hparam hargs)
  | subcommand hargs hname hrest =>
      rw [← List.append_assoc]
      exact .subcommand (.cons hparam hargs) hname hrest

/-- A parameter that is continued as far as possible. -/
theorem Argv.continued {command : Command σ} {name first : Str} {args : List Str}
    (hname : name ∈ command.parameters.names)
    (hvalue : ∀ values : List Str, Paramvalue first (values.map assignvalue))
    (h : Argv command (args.dropWhile startsWithSeparator)) :
    Argv command ((name ++ first) :: args) := by
  obtain ⟨values, hvalues⟩ := exists_takeWhile_eq_map_assignvalue args
  have hparam : Param command ((name ++ first) :: args.takeWhile startsWithSeparator) := by
    rw [hvalues]
    exact .mk hname (hvalue values)
  have hargv := Argv.param hparam h
  rwa [List.cons_append, List.takeWhile_append_dropWhile] at hargv

/-- The walk with continuations after `name:` only takes derivable arguments. -/
theorem Parses.argv {command : Command σ} {args : List Str} (h : Parses true command args) :
    Argv command args := by
  induction h with
  | nil command => exact .last .nil
  | @command _ _ cur key _ hcur hkey _ ih =>
      have hspelling := mem_spellings_classify cur
      rw [hcur] at hspelling
      obtain rfl := List.mem_singleton.mp hspelling
      exact .subcommand .nil hkey ih
  | @append _ cur key value _ hcur hkey _ ih =>
      have hspelling := mem_spellings_classify cur
      rw [hcur] at hspelling
      obtain rfl := List.mem_singleton.mp hspelling
      exact Argv.param (.mk hkey (.append value)) ih
  | @clear _ cur key _ hcur hkey _ ih =>
      have hspelling := mem_spellings_classify cur
      rw [hcur] at hspelling
      obtain rfl := List.mem_singleton.mp hspelling
      exact Argv.continued hkey .clear ih
  | @assign _ cur key value _ hcur hkey _ ih =>
      have hspelling := mem_spellings_classify cur
      rw [hcur] at hspelling
      rcases List.mem_pair.mp hspelling with rfl | rfl
      · exact Argv.continued hkey (.assign value) ih
      · exact Argv.continued hkey (.clearAssign value) ih

/-!
## The walk of the parser

The walk without continuations after `name:` is the one with them, except where `StopsShort` holds.
Both directions are by induction on the walk.
-/

/-- In the arguments of a command without a parameter of the empty name, `name:` is directly
followed by an argument that starts with the separator. -/
inductive StopsShort : Command σ → List Str → Prop
  | here {command : Command σ} {cur key value : Str} {args : List Str}
    (hcur : classify cur = .clear key) (hempty : [] ∉ command.parameters.names) :
    StopsShort command (cur :: assignvalue value :: args)
  | argument {command : Command σ} {cur : Str} {args : List Str}
    (hcur : ∀ key, classify cur ≠ .command key) (hargs : StopsShort command args) :
    StopsShort command (cur :: args)
  | command {command next : Command σ} {cur key : Str} {args : List Str}
    (hcur : classify cur = .command key) (hkey : command.subcommands key = some next)
    (hargs : StopsShort next args) : StopsShort command (cur :: args)

/-- What the parser accepts is derivable. -/
theorem Parses.continued {command : Command σ} {args : List Str} (h : Parses false command args) :
    Parses true command args := by
  induction h with
  | nil command => exact .nil command
  | command hcur hkey _ ih => exact .command hcur hkey ih
  | append hcur hkey _ ih => exact .append hcur hkey ih
  | clear hcur hkey _ ih => exact .clear hcur hkey ih.dropWhile
  | assign hcur hkey _ ih => exact .assign hcur hkey ih

/-- Continuations do not matter. -/
theorem stopsShort_dropWhile_iff {command : Command σ} {args : List Str} :
    StopsShort command (args.dropWhile startsWithSeparator) ↔ StopsShort command args := by
  induction args with
  | nil => rfl
  | cons cur args ih =>
      by_cases hcur : startsWithSeparator cur
      · rw [List.dropWhile_cons_of_pos hcur, ih]
        obtain ⟨value, rfl⟩ := eq_assignvalue_of_startsWithSeparator hcur
        have hclass := classify_assignvalue value
        constructor
        · intro h
          exact .argument (by simp [hclass]) h
        · intro h
          cases h with
          | here hclear _ => simp [hclass] at hclear
          | argument _ hargs => exact hargs
          | command hcommand _ _ => simp [hclass] at hcommand
      · rw [List.dropWhile_cons_of_neg hcur]

/-- What the parser accepts does not stop short. -/
theorem Parses.not_stopsShort {command : Command σ} {args : List Str}
    (h : Parses false command args) : ¬ StopsShort command args := by
  induction h with
  | nil command => nofun
  | command hcur hkey _ ih =>
      intro hstops
      cases hstops with
      | here hclear _ => simp [hcur] at hclear
      | argument hargument _ => exact hargument _ hcur
      | command hcur' hkey' hargs =>
          obtain rfl : _ = _ := Argument.command.inj (hcur'.symm.trans hcur)
          obtain rfl : _ = _ := Option.some.inj (hkey'.symm.trans hkey)
          exact ih hargs
  | append hcur _ _ ih =>
      intro hstops
      cases hstops with
      | here hclear _ => simp [hcur] at hclear
      | argument _ hargs => exact ih hargs
      | command hcommand _ _ => simp [hcur] at hcommand
  | clear hcur _ hargs ih =>
      intro hstops
      cases hstops with
      | here _ hempty => exact hempty (parses_assignvalue.mp hargs).1
      | argument _ hstops => exact ih hstops
      | command hcommand _ _ => simp [hcur] at hcommand
  | assign hcur _ _ ih =>
      intro hstops
      cases hstops with
      | here hclear _ => simp [hcur] at hclear
      | argument _ hargs => exact ih (stopsShort_dropWhile_iff.mpr hargs)
      | command hcommand _ _ => simp [hcur] at hcommand

/-- What is derivable and does not stop short is accepted by the parser. -/
theorem Parses.not_continued {command : Command σ} {args : List Str}
    (h : Parses true command args) (hstops : ¬ StopsShort command args) :
    Parses false command args := by
  induction h with
  | nil command => exact .nil command
  | command hcur hkey _ ih => exact .command hcur hkey (ih fun h => hstops (.command hcur hkey h))
  | append hcur hkey _ ih =>
      exact .append hcur hkey (ih fun h => hstops (.argument (by simp [hcur]) h))
  | assign hcur hkey _ ih =>
      refine .assign hcur hkey (ih fun h => hstops ?_)
      exact .argument (by simp [hcur]) (stopsShort_dropWhile_iff.mp h)
  | @clear command _ _ args hcur hkey _ ih =>
      have hargs : Parses false command (args.dropWhile startsWithSeparator) := ih fun h =>
        hstops (.argument (by simp [hcur]) (stopsShort_dropWhile_iff.mp h))
      refine .clear hcur hkey ?_
      change Parses false command args
      cases args with
      | nil => exact .nil command
      | cons cur args =>
          by_cases hsep : startsWithSeparator cur
          · obtain ⟨value, rfl⟩ := eq_assignvalue_of_startsWithSeparator hsep
            refine parses_assignvalue.mpr ⟨?_, ?_⟩
            · by_contra hempty
              exact hstops (.here hcur hempty)
            · rwa [List.dropWhile_cons_of_pos hsep] at hargs
          · rwa [List.dropWhile_cons_of_neg hsep] at hargs

/-!
## What the parser decides

With virtual functions that succeed, whether the parser returns does not depend on the state, and
can be decided from the arguments. A part that decides one condition, followed by a part that
decides another one, decides their conjunction.
-/

/-- In every state `p` returns if `ok` holds, and throws an `argument_error` if not. -/
def Decides (ok : Prop) (p : Prog HookCall σ Exn Unit) : Prop :=
  ∀ s, p.Ends (fun r _ => ok ∧ r = .val () ∨ ¬ ok ∧ ∃ str, r = .exn (.argumentError str)) s

section
variable {ok ok' : Prop} {p : Prog HookCall σ Exn Unit}

theorem Decides.congr (h : Decides ok p) (hiff : ok ↔ ok') : Decides ok' p := by
  rwa [propext hiff] at h

theorem decides_throw (str : String) :
    Decides False (Prog.throw (.argumentError str) : Prog HookCall σ Exn Unit) :=
  fun _ _ => Or.inr ⟨not_false, str, rfl⟩

theorem Decides.bind {k : Unit → Prog HookCall σ Exn Unit} (hp : Decides ok p)
    (hk : Decides ok' (k ())) : Decides (ok ∧ ok') (p >>= k) := by
  intro s tr
  rw [Prog.wp_bind]
  refine Prog.wp_post ?_ (hp s tr)
  rintro r tr s (⟨hok, rfl⟩ | ⟨hok, str, rfl⟩)
  · refine Prog.wp_post ?_ (hk s tr)
    rintro r tr s (⟨hok', hr⟩ | ⟨hok', hr⟩)
    · exact Or.inl ⟨⟨hok, hok'⟩, hr⟩
    · exact Or.inr ⟨fun h => hok' h.2, hr⟩
  · exact Or.inr ⟨fun h => hok h.1, str, rfl⟩

/-- The same for a part that always returns, with a value. -/
theorem Decides.bind_of_ends {α : Type} {P : α → Prop} {q : Prog HookCall σ Exn α}
    {k : α → Prog HookCall σ Exn Unit} (hq : ∀ s, q.Ends (fun r _ => ∃ a, r = .val a ∧ P a) s)
    (hk : ∀ a, P a → Decides ok (k a)) : Decides ok (q >>= k) := by
  intro s tr
  rw [Prog.wp_bind]
  refine Prog.wp_post ?_ (hq s tr)
  rintro r tr s ⟨a, rfl, ha⟩
  exact hk a ha s tr

/-- The context changes the text of an error, not its type. -/
theorem Decides.withContext (h : Decides ok p) (path : List Str) (parameter : Option Str) :
    Decides ok (withContext path parameter p) := by
  intro s tr
  rw [Parser.withContext, Prog.wp_handle]
  refine Prog.wp_post ?_ (h s tr)
  rintro r tr s (⟨hok, rfl⟩ | ⟨hok, str, rfl⟩)
  · exact Or.inl ⟨hok, rfl⟩
  · exact Or.inr ⟨hok, _, rfl⟩

end

def Hook.Succeeds (hook : Hook σ) : Prop := ∀ s, (hook s).1 = .ok ()

/-- The virtual functions of a command and its parameters succeed, and `unrecognisedParameters` is
not overridden. -/
structure Command.HooksSucceed (command : Command σ) : Prop where
  onEnter : command.onEnter.Succeeds
  set : ∀ e ∈ command.parameters.entries, ∀ values, (e.2.set values).Succeeds
  check : ∀ e ∈ command.parameters.entries, e.2.check.Succeeds
  beforeSubcommand : ∀ name, (command.beforeSubcommand name).Succeeds
  execute : command.execute.Succeeds
  unrecognisedParameters : command.unrecognisedParameters = Parser.unrecognisedParameters

theorem decides_callHook {hook : Hook σ} (h : hook.Succeeds) (call : HookCall) :
    Decides True (callHook call hook) := by
  intro s tr
  refine ⟨trivial, Or.inl ⟨trivial, ?_⟩⟩
  change Result.ofExcept (hook s).1 = .val ()
  rw [h s]
  rfl

/-- An unrecognised parameter is an error by default. -/
theorem decides_unrecognisedParameters (call : HookCall) (map : KeyValues) :
    Decides (∀ key, key ∉ map)
      (callHook call (unrecognisedParameters map : Hook σ)) := by
  intro s tr
  refine ⟨trivial, ?_⟩
  have hkeys : map.keys.min? = none ↔ ∀ key, key ∉ map := by
    rw [List.min?_eq_none_iff, List.eq_nil_iff_forall_not_mem]
    rfl
  rw [← hkeys]
  dsimp only [unrecognisedParameters]
  cases map.keys.min? with
  | none => exact Or.inl ⟨rfl, rfl⟩
  | some key => exact Or.inr ⟨nofun, _, rfl⟩

theorem decides_finaliseParameter {parameter : Parameter σ} {values : Option (List Str)}
    (hset : ∀ values, (parameter.set values).Succeeds) (hcheck : parameter.check.Succeeds)
    (path : List Str) (name : Str) :
    Decides True (finaliseParameter path name parameter values) := by
  refine Decides.withContext ?_ path (some name)
  cases values with
  | none => exact decides_callHook hcheck _
  | some values =>
      exact ((decides_callHook (hset values) _).bind (decides_callHook hcheck _)).congr
        (and_self_iff)

/-- What is left of the map are the keys that are no parameters. -/
theorem finaliseParameters_ends (path : List Str) (entries : List (Str × Parameter σ))
    (hset : ∀ e ∈ entries, ∀ values, (e.2.set values).Succeeds)
    (hcheck : ∀ e ∈ entries, e.2.check.Succeeds) (map : KeyValues) (s : σ) :
    (finaliseParameters path entries map).Ends (fun r _ => ∃ rest, r = .val rest ∧
      ∀ key, key ∈ rest ↔ key ∈ map ∧ key ∉ entries.map Prod.fst) s := by
  induction entries generalizing map s with
  | nil =>
      intro tr
      exact ⟨map, rfl, fun key => (and_iff_left List.not_mem_nil).symm⟩
  | cons e entries ih =>
      obtain ⟨name, parameter⟩ := e
      intro tr
      rw [finaliseParameters, AList.extract_eq_lookup_erase]
      dsimp only
      rw [Prog.wp_bind]
      refine Prog.wp_post ?_ (decides_finaliseParameter (hset _ List.mem_cons_self)
        (hcheck _ List.mem_cons_self) path name s tr)
      rintro r tr s (⟨-, rfl⟩ | ⟨hfalse, -⟩)
      · refine Prog.wp_post ?_ (ih (fun e he => hset e (List.mem_cons_of_mem _ he))
          (fun e he => hcheck e (List.mem_cons_of_mem _ he)) (map.erase name) s tr)
        rintro r tr s ⟨rest, rfl, hrest⟩
        refine ⟨rest, rfl, fun key => ?_⟩
        rw [hrest, AList.mem_erase, List.map_cons, List.mem_cons]
        tauto
      · exact absurd trivial hfalse

theorem decides_finalise {command : Command σ} (h : command.HooksSucceed) (path : List Str)
    (map : KeyValues) :
    Decides (∀ key ∈ map, key ∈ command.parameters.names) (finalise path command map) := by
  refine Decides.bind_of_ends
    (finaliseParameters_ends path command.parameters.entries h.set h.check map) ?_
  intro rest hrest
  rw [h.unrecognisedParameters]
  refine ((decides_unrecognisedParameters _ rest).withContext path none).congr ?_
  simp only [hrest, Parameters.names, not_and, not_not]

/-- A parameter is among the declared ones with those that were given before. -/
theorem forall_mem_insert_iff {map : KeyValues} {key : Str} {values : List Str}
    {names : List Str} :
    (∀ k ∈ map.insert key values, k ∈ names) ↔ (∀ k ∈ map, k ∈ names) ∧ key ∈ names := by
  simp only [AList.mem_insert, forall_eq_or_imp]
  exact and_comm

theorem forall_mem_empty {names : List Str} : ∀ k ∈ (∅ : KeyValues), k ∈ names :=
  fun k hk => absurd hk (AList.notMem_empty k)

/-- The loop accepts the arguments that it walks over, if it was given declared parameters. -/
theorem decides_parseLoop {command : Command σ}
    (h : ∀ target, command.Reaches target → target.HooksSucceed) (path : List Str)
    (keyValues : KeyValues) (args : List Str) :
    Decides ((∀ key ∈ keyValues, key ∈ command.parameters.names) ∧ Parses false command args)
      (parseLoop path command keyValues args) := by
  induction hn : args.length using Nat.strong_induction_on generalizing command path keyValues args
    with
  | _ n ih =>
  have hcommand := h command (.refl command)
  cases args with
  | nil =>
      rw [parseLoop]
      have hexecute := (decides_callHook hcommand.execute (.execute path)).withContext path none
      -- at the end it is decided whether the parameters are declared
      refine ((decides_finalise hcommand path keyValues).bind hexecute).congr ?_
      exact and_congr_right fun _ => iff_of_true trivial (.nil command)
  | cons cur args =>
      rw [parseLoop_cons, parses_cons]
      have hlt : args.length < n := by rw [← hn]; exact Nat.lt_succ_self _
      cases classify cur with
      | command key =>
          dsimp only
          cases hkey : command.subcommands key with
          | none => exact (decides_throw _).congr (iff_of_false not_false (by simp))
          | some next =>
              have hnext : ∀ target, next.Reaches target → target.HooksSucceed :=
                fun target htarget => h target (.subcommand hkey htarget)
              have hbefore := (decides_callHook (hcommand.beforeSubcommand key)
                (.beforeSubcommand path key)).withContext path none
              have henter := (decides_callHook (hnext next (.refl next)).onEnter
                (.onEnter (path ++ [key]))).withContext (path ++ [key]) none
              have hloop := ih _ hlt hnext (path ++ [key]) ∅ args rfl
              -- the parameters are finalised, and the subcommand starts with none
              refine ((decides_finalise hcommand path keyValues).bind
                (hbefore.bind (henter.bind hloop))).congr ?_
              simp only [true_and, Option.some.injEq, exists_eq_left']
              exact and_congr_right fun _ => and_iff_right forall_mem_empty
      | append key value =>
          -- one more parameter that has to be declared
          refine (ih _ hlt h path (keyValues.emplaceBack key value) args rfl).congr ?_
          rw [KeyValues.emplaceBack, forall_mem_insert_iff, and_assoc]
      | clear key =>
          refine (ih _ hlt h path (keyValues.insert key []) args rfl).congr ?_
          rw [forall_mem_insert_iff, and_assoc]
          rfl
      | assign key value =>
          -- the arguments that continue the assignment are walked over as well
          have hle := List.length_dropWhile_le startsWithSeparator args
          refine (ih _ (hle.trans_lt hlt) h path _ _ rfl).congr ?_
          rw [forall_mem_insert_iff, and_assoc]

/-- The parser accepts the arguments that it walks over. -/
theorem decides_parse {command : Command σ}
    (h : ∀ target, command.Reaches target → target.HooksSucceed) (name : Str) (args : List Str) :
    Decides (Parses false command args) (parse name command args) := by
  have henter := (decides_callHook (h command (.refl command)).onEnter
    (.onEnter [name])).withContext [name] none
  refine (henter.bind (decides_parseLoop h [name] ∅ args)).congr ?_
  rw [true_and]
  exact and_iff_right forall_mem_empty

/-!
## The language of the parser

Everything together: the parser accepts an invocation exactly if the grammar does and it does not
stop short of some of the arguments. If the client's functors do not throw, then whether the parser
throws is determined by the arguments.
-/

/-- The parser accepts the derivable arguments that do not stop short, and no others. -/
theorem parses_iff_argv {command : Command σ}
    (hfree : ∀ target, command.Reaches target → target.NamesFree) {args : List Str} :
    Parses false command args ↔ Argv command args ∧ ¬ StopsShort command args :=
  ⟨fun h => ⟨h.continued.argv, h.not_stopsShort⟩, fun h => (h.1.parses hfree).not_continued h.2⟩

theorem throws_iff_not_parses {command : Command σ}
    (h : ∀ target, command.Reaches target → target.HooksSucceed) (name : Str) (args : List Str)
    (s : σ) : (∃ str, ((parse name command args).run s).result = .exn (.argumentError str)) ↔
      ¬ Parses false command args := by
  rcases Prog.ends_iff_run.mp (decides_parse h name args s) with ⟨hparses, hr⟩ | ⟨hparses, hr⟩
  · refine iff_of_false ?_ (not_not_intro hparses)
    rintro ⟨str, hstr⟩
    cases hr.symm.trans hstr
  · exact iff_of_true hr hparses

/-- The errors of the parser tell whether the arguments are derivable, unless they are derivable
with a continuation directly after `name:`. -/
theorem throws_iff_not_argv_iff {command : Command σ}
    (hfree : ∀ target, command.Reaches target → target.NamesFree)
    (hhooks : ∀ target, command.Reaches target → target.HooksSucceed) (name : Str)
    (args : List Str) (s : σ) :
    ((∃ str, ((parse name command args).run s).result = .exn (.argumentError str)) ↔
      ¬ Argv command args) ↔ (Argv command args → ¬ StopsShort command args) := by
  rw [throws_iff_not_parses hhooks, parses_iff_argv hfree, not_iff_not]
  exact and_iff_left_iff_imp

/-- A command with the parameter `a` and no subcommands. -/
def sampleCommand : Command Unit where
  parameters := ⟨[(['a'], ⟨fun _ => .nothing, .nothing⟩)], List.pairwise_singleton _ _⟩
  subcommands _ := none
  execute := .nothing

theorem sampleCommand_reaches {target : Command Unit} (h : sampleCommand.Reaches target) :
    target = sampleCommand := by
  cases h with
  | refl => rfl
  | subcommand hname _ => cases hname

theorem sampleCommand_namesFree (target : Command Unit) (h : sampleCommand.Reaches target) :
    target.NamesFree := by
  rw [sampleCommand_reaches h]
  refine ⟨?_, nofun⟩
  intro name hname
  obtain rfl := List.mem_singleton.mp hname
  exact ⟨by decide, by decide, by decide⟩

theorem sampleCommand_hooksSucceed (target : Command Unit) (h : sampleCommand.Reaches target) :
    target.HooksSucceed := by
  rw [sampleCommand_reaches h]
  refine ⟨fun _ => rfl, ?_, ?_, fun _ _ => rfl, fun _ => rfl, rfl⟩
  · intro e he values s
    obtain rfl := List.mem_singleton.mp he
    rfl
  · intro e he s
    obtain rfl := List.mem_singleton.mp he
    rfl

/-- The arguments `a=x a:` -/
theorem throws_iff_not_argv_sample :
    ((∃ str, ((parse ['c'] sampleCommand [['a', '=', 'x'], ['a', ':']]).run ()).result =
      .exn (.argumentError str)) ↔ ¬ Argv sampleCommand [['a', '=', 'x'], ['a', ':']]) ↔
    (Argv sampleCommand [['a', '=', 'x'], ['a', ':']] →
      ¬ StopsShort sampleCommand [['a', '=', 'x'], ['a', ':']]) :=
  throws_iff_not_argv_iff sampleCommand_namesFree sampleCommand_hooksSucceed ['c'] _ ()

/-- The arguments `a: =y` are derivable, and an error. -/
theorem continued_clear_throws :
    ¬ ∀ (name : Str) (command : Command Unit),
      (∀ target, command.Reaches target → target.NamesFree) →
      (∀ target, command.Reaches target → target.HooksSucceed) → ∀ (args : List Str) (s : Unit),
      ((∃ str, ((parse name command args).run s).result = .exn (.argumentError str)) ↔
        ¬ Argv command args) := by
  intro h
  have hparam : Param sampleCommand [['a', ':'], ['=', 'y']] :=
    @Param.mk _ sampleCommand ['a'] _ _ List.mem_cons_self (.clear [['y']])
  have hargv : Argv sampleCommand [['a', ':'], ['=', 'y']] := .last (.cons hparam .nil)
  have hthrows : ((parse ['c'] sampleCommand [['a', ':'], ['=', 'y']]).run ()).result =
      .exn (.argumentError
        "Error while processing c: Unrecognised parameter: \"\"") := by
    decide +kernel
  exact (h ['c'] sampleCommand sampleCommand_namesFree sampleCommand_hooksSucceed _ ()).mp
    ⟨_, hthrows⟩ hargv

end Diffmonger.Parser
