import Diffmonger.Lib.Relational
import Diffmonger.Parser.Grammar

/-!
# Parsing the same arguments with two command trees

The first tree simulates the second one where the virtual functions of corresponding commands match:
whenever one of the first tree succeeds, so does the other one, and the states stay related. Then
the second tree accepts what the first one accepts. Subcommands that only the first tree has may be
entered, if nothing below them destroys `J`.

Main result: `Simulation.parse`. The parser's own part, the loop and the map of the parameters, is
the same for both trees, so that it is taken apart once, with the relational rules of
`Lib/Relational.lean`. The relation of the states changes only with the command.
-/

namespace Diffmonger.Parser

open Prog

variable {σ τ : Type}

/-!
## Commands that keep a property of the state

Whatever a command does, if each of its virtual functions keeps a property, then parsing keeps it,
since the parser itself does not look into the state.
-/

/-- Whether the function succeeds or throws. -/
def Hook.Keeps (J : σ → Prop) (hook : Hook σ) : Prop := ∀ s, J s → J (hook s).2

structure Parameter.Keeps (J : σ → Prop) (parameter : Parameter σ) : Prop where
  set : ∀ values, (parameter.set values).Keeps J
  check : parameter.check.Keeps J

structure Command.Keeps (J : σ → Prop) (command : Command σ) : Prop where
  onEnter : command.onEnter.Keeps J
  parameters : ∀ e ∈ command.parameters.entries, e.2.Keeps J
  unrecognisedParameters : ∀ map, (command.unrecognisedParameters map).Keeps J
  beforeSubcommand : ∀ name, (command.beforeSubcommand name).Keeps J
  execute : command.execute.Keeps J

section
variable {J : σ → Prop}

theorem keeps_nothing : (Hook.nothing : Hook σ).Keeps J := fun _ hs => hs

theorem keeps_unrecognisedParameters (map : KeyValues) :
    (unrecognisedParameters map : Hook σ).Keeps J := by
  intro s hs
  rw [unrecognisedParameters]
  split <;> exact hs

/-- A command without subcommands leads nowhere. -/
theorem Command.Reaches.eq_self {command target : Command σ} (h : command.Reaches target)
    (hnone : ∀ name, command.subcommands name = none) : target = command := by
  cases h with
  | refl => rfl
  | subcommand hname _ => cases (hnone _).symm.trans hname

theorem Hook.Keeps.emits {hook : Hook σ} (h : hook.Keeps J) (path : List Str)
    (parameter : Option Str) (call : HookCall) :
    (withContext path parameter (callHook call hook)).Emits fun _ u => ∀ s, J s → J (u s) :=
  emits_handle (emits_bind ((emits_readModify _ _ _).mpr h) fun _ => emits_ofExcept _) fun _ =>
    emits_throw _

theorem Parameter.Keeps.emits {parameter : Parameter σ} (h : parameter.Keeps J) (path : List Str)
    (name : Str) (values : Option (List Str)) :
    (finaliseParameter path name parameter values).Emits fun _ u => ∀ s, J s → J (u s) := by
  refine emits_handle ?_ fun _ => emits_throw _
  have hcheck : (callHook (.check path name) parameter.check).Emits fun _ u => ∀ s, J s → J (u s) :=
    emits_bind ((emits_readModify _ _ _).mpr h.check) fun _ => emits_ofExcept _
  cases values with
  | none => exact hcheck
  | some values =>
      exact emits_bind (emits_bind ((emits_readModify _ _ _).mpr (h.set values)) fun _ =>
        emits_ofExcept _) fun _ => hcheck

theorem emits_finaliseParameters {entries : List (Str × Parameter σ)}
    (h : ∀ e ∈ entries, e.2.Keeps J) (path : List Str) (map : KeyValues) :
    (finaliseParameters path entries map).Emits fun _ u => ∀ s, J s → J (u s) := by
  induction entries generalizing map with
  | nil => exact emits_pure _
  | cons e entries ih =>
      refine emits_bind ((h e List.mem_cons_self).emits path e.1 _) fun _ => ?_
      exact ih (fun e he => h e (List.mem_cons_of_mem _ he)) _

theorem Command.Keeps.finalise {command : Command σ} (h : command.Keeps J) (path : List Str)
    (map : KeyValues) :
    (finalise path command map).Emits fun _ u => ∀ s, J s → J (u s) :=
  emits_bind (emits_finaliseParameters h.parameters path map) fun rest =>
    (h.unrecognisedParameters rest).emits path none _

/-- Whatever happens below a command, a property is kept that all commands below it keep. -/
theorem emits_parseLoop {command : Command σ}
    (h : ∀ target, command.Reaches target → target.Keeps J) (path : List Str)
    (keyValues : KeyValues) (args : List Str) :
    (parseLoop path command keyValues args).Emits fun _ u => ∀ s, J s → J (u s) := by
  induction hn : args.length using Nat.strong_induction_on generalizing command path keyValues args
    with
  | _ n ih =>
  have hcommand := h command (.refl command)
  cases args with
  | nil =>
      rw [parseLoop]
      exact emits_bind (hcommand.finalise path keyValues) fun _ => hcommand.execute.emits _ _ _
  | cons cur args =>
      have hlt : args.length < n := by rw [← hn]; exact Nat.lt_succ_self _
      rw [parseLoop_cons]
      cases classify cur with
      | command key =>
          dsimp only
          cases hkey : command.subcommands key with
          | none => exact emits_throw _
          | some next =>
              have hnext : ∀ target, next.Reaches target → target.Keeps J :=
                fun target htarget => h target (.subcommand hkey htarget)
              refine emits_bind (hcommand.finalise path keyValues) fun _ => ?_
              refine emits_bind ((hcommand.beforeSubcommand key).emits _ _ _) fun _ => ?_
              refine emits_bind ((hnext next (.refl next)).onEnter.emits _ _ _) fun _ => ?_
              exact ih _ hlt hnext _ ∅ args rfl
      | append key value => exact ih _ hlt h _ _ args rfl
      | clear key => exact ih _ hlt h _ _ args rfl
      | assign key value =>
          have hle := List.length_dropWhile_le startsWithSeparator args
          exact ih _ (hle.trans_lt hlt) h _ _ _ rfl

end

/-!
## Commands that match

The virtual functions of two commands are compared one by one. The parser's own data, the map of the
parameters and the path, is the same on both sides.
-/

/-- If the first function succeeds in a state, then the second one does in a related one. -/
def Hook.Matches (R R' : σ → τ → Prop) (f : Hook σ) (g : Hook τ) : Prop :=
  ∀ s t, R s t → (f s).1 = .ok () → (g t).1 = .ok () ∧ R' (f s).2 (g t).2

structure Parameter.Matches (R : σ → τ → Prop) (parameter : Parameter σ)
    (parameter' : Parameter τ) : Prop where
  set : ∀ values, Hook.Matches R R (parameter.set values) (parameter'.set values)
  check : Hook.Matches R R parameter.check parameter'.check

/-- Executing the commands leads from states related by `R` to states related by `Q`. -/
structure Command.Matches (R Q : σ → τ → Prop) (command : Command σ) (command' : Command τ) :
    Prop where
  parameters : List.Forall₂ (fun e e' => e.1 = e'.1 ∧ Parameter.Matches R e.2 e'.2)
    command.parameters.entries command'.parameters.entries
  unrecognisedParameters : ∀ map, Hook.Matches R R (command.unrecognisedParameters map)
    (command'.unrecognisedParameters map)
  execute : Hook.Matches R Q command.execute command'.execute

/-- The commands of the two trees that correspond to each other are numbered by `ι`, and `R` says
how the states are related while they are the current ones. -/
structure Simulation {ι : Type} (J : σ → Prop) (R : ι → σ → τ → Prop) (Q : σ → τ → Prop)
    (first : ι → Command σ) (second : ι → Command τ) : Prop where
  hooks : ∀ i, (first i).Matches (R i) Q (second i)
  related : ∀ i {s t}, R i s t → J s
  beforeSubcommand : ∀ i name, ((first i).beforeSubcommand name).Keeps J
  subcommands : ∀ i {name next}, (first i).subcommands name = some next →
    (∃ j, next = first j ∧ (second i).subcommands name = some (second j) ∧
      ∃ B, Hook.Matches (R i) B ((first i).beforeSubcommand name)
          ((second i).beforeSubcommand name) ∧
        Hook.Matches B (R j) (first j).onEnter (second j).onEnter) ∨
      ∀ target, next.Reaches target → target.Keeps J

section
variable {J : σ → Prop} {R R' Q : σ → τ → Prop} {s : σ} {t : τ}

/-- A handler that adds the context does not return. -/
theorem withContext_matches {p : Prog HookCall σ Exn Unit} {q : Prog HookCall τ Exn Unit}
    (h : p.Matches J (fun _ _ => R) q s t) (path : List Str) (parameter : Option Str) :
    (withContext path parameter p).Matches J (fun _ _ => R) (withContext path parameter q) s t := by
  refine h.handle fun e s tr a ha => ?_
  cases ha

/-- A function that keeps `J` matches itself. -/
theorem Hook.Keeps.matches_self {hook : Hook σ} (h : hook.Keeps J) :
    Hook.Matches (fun s t => s = t ∧ J s) (fun s t => s = t ∧ J s) hook hook := by
  rintro s _ ⟨rfl, hs⟩ hok
  exact ⟨hok, rfl, h s hs⟩

theorem Parameter.Keeps.matches_self {parameter : Parameter σ} (h : parameter.Keeps J) :
    Parameter.Matches (fun s t => s = t ∧ J s) parameter parameter :=
  ⟨fun values => (h.set values).matches_self, h.check.matches_self⟩

/-- Two commands with the same parameters, that keep `J`. -/
theorem Command.matches_of_keeps {Q : σ → σ → Prop} {command command' : Command σ}
    (hparameters : command'.parameters = command.parameters)
    (hkeeps : ∀ e ∈ command.parameters.entries, e.2.Keeps J)
    (hunrecognised : command'.unrecognisedParameters = command.unrecognisedParameters)
    (hkeeps' : ∀ map, (command.unrecognisedParameters map).Keeps J)
    (hexecute : Hook.Matches (fun s t => s = t ∧ J s) Q command.execute command'.execute) :
    command.Matches (fun s t => s = t ∧ J s) Q command' := by
  refine ⟨?_, fun map => ?_, hexecute⟩
  · rw [hparameters]
    exact List.forall₂_same.mpr fun e he => ⟨rfl, (hkeeps e he).matches_self⟩
  · rw [hunrecognised]
    exact (hkeeps' map).matches_self

theorem Hook.Matches.callHook {f : Hook σ} {g : Hook τ} (h : Hook.Matches R R' f g) (hR : R s t)
    (call : HookCall) :
    (callHook call f).Matches J (fun _ _ => R') (Parser.callHook call g) s t := by
  have hread : (Prog.readModify call (fun s => (f s).1) fun s => (f s).2 :
      Prog HookCall σ Exn _).Matches (fun _ => False)
        (fun r r' s' t' => r = .ok () → r' = .ok () ∧ R' s' t')
        (Prog.readModify call (fun t => (g t).1) fun t => (g t).2 : Prog HookCall τ Exn _) s t :=
    matches_readModify (h s t hR)
  refine hread.bind fun r r' s' t' hr => ?_
  cases r with
  | error e => exact matches_throw
  | ok u =>
      obtain ⟨rfl, hR'⟩ := hr rfl
      exact matches_pure hR'

theorem Hook.Matches.withContext {f : Hook σ} {g : Hook τ} (h : Hook.Matches R R' f g) (hR : R s t)
    (path : List Str) (parameter : Option Str) (call : HookCall) :
    (withContext path parameter (Parser.callHook call f)).Matches J (fun _ _ => R')
      (Parser.withContext path parameter (Parser.callHook call g)) s t :=
  withContext_matches (h.callHook hR call) path parameter

theorem finaliseParameter_matches {parameter : Parameter σ} {parameter' : Parameter τ}
    (h : Parameter.Matches R parameter parameter') (hR : R s t) (path : List Str) (name : Str)
    (values : Option (List Str)) :
    (finaliseParameter path name parameter values).Matches J (fun _ _ => R)
      (finaliseParameter path name parameter' values) s t := by
  refine withContext_matches ?_ path (some name)
  cases values with
  | none => exact h.check.callHook hR _
  | some values =>
      exact ((h.set values).callHook hR _).bind fun _ _ _ _ hR => h.check.callHook hR _

/-- The same keys are left of the map. -/
theorem finaliseParameters_matches {entries : List (Str × Parameter σ)}
    {entries' : List (Str × Parameter τ)}
    (h : List.Forall₂ (fun e e' => e.1 = e'.1 ∧ Parameter.Matches R e.2 e'.2) entries entries')
    (hR : R s t) (path : List Str) (map : KeyValues) :
    (finaliseParameters path entries map).Matches J (fun rest rest' s t => rest = rest' ∧ R s t)
      (finaliseParameters path entries' map) s t := by
  induction h generalizing map s t with
  | nil => exact matches_pure ⟨rfl, hR⟩
  | @cons e e' entries entries' he _ ih =>
      obtain ⟨name, parameter⟩ := e
      obtain ⟨name', parameter'⟩ := e'
      obtain ⟨rfl, hparameter⟩ := he
      exact (finaliseParameter_matches hparameter hR path name _).bind fun _ _ _ _ hR => ih hR _

theorem Command.Matches.finalise {command : Command σ} {command' : Command τ}
    (h : command.Matches R Q command') (hR : R s t) (path : List Str) (map : KeyValues) :
    (finalise path command map).Matches J (fun _ _ => R) (finalise path command' map) s t := by
  refine (finaliseParameters_matches h.parameters hR path map).bind ?_
  rintro rest rest' s t ⟨rfl, hR⟩
  exact (h.unrecognisedParameters rest).withContext hR path none _

section
variable {ι : Type} {P : ι → σ → τ → Prop} {first : ι → Command σ} {second : ι → Command τ}

/-- What the first tree accepts, the second one accepts as well, unless something has been entered
that only the first tree has. -/
theorem Simulation.parseLoop (h : Simulation J P Q first second) {i : ι} (hP : P i s t)
    (path : List Str) (keyValues : KeyValues) (args : List Str) :
    (parseLoop path (first i) keyValues args).Matches J (fun _ _ => Q)
      (Parser.parseLoop path (second i) keyValues args) s t := by
  induction hn : args.length using Nat.strong_induction_on
    generalizing i path keyValues args s t with
  | _ n ih =>
  cases args with
  | nil =>
      rw [Parser.parseLoop, Parser.parseLoop]
      exact ((h.hooks i).finalise hP path keyValues).bind fun _ _ _ _ hP =>
        (h.hooks i).execute.withContext hP path none _
  | cons cur args =>
      have hlt : args.length < n := by rw [← hn]; exact Nat.lt_succ_self _
      rw [parseLoop_cons, parseLoop_cons]
      cases classify cur with
      | command key =>
          dsimp only
          cases hkey : (first i).subcommands key with
          | none => exact matches_throw
          | some next =>
              dsimp only
              -- both trees have the subcommand, or only the first one
              obtain ⟨j, rfl, hsecond, B, hbefore, henter⟩ | hkeeps := h.subcommands i hkey
              · rw [hsecond]
                refine ((h.hooks i).finalise hP path keyValues).bind fun _ _ _ _ hP => ?_
                refine (hbefore.withContext hP _ _ _).bind fun _ _ _ _ hB => ?_
                refine (henter.withContext hB _ _ _).bind fun _ _ _ _ hP => ?_
                exact ih _ hlt hP _ ∅ args rfl
              · -- only the first tree is followed here
                refine matches_of_endsIn ?_
                refine ((h.hooks i).finalise hP path keyValues).endsIn.bind ?_
                rintro _ s ⟨_, t, hP⟩
                refine endsIn_of_emits (emits_bind ?_ fun _ => emits_bind ?_ fun _ => ?_)
                  (h.related i hP)
                · exact (h.beforeSubcommand i key).emits _ _ _
                · exact (hkeeps next (.refl next)).onEnter.emits _ _ _
                · exact emits_parseLoop hkeeps _ ∅ args
      -- the parameters that are given are only collected
      | append key value => exact ih _ hlt hP _ _ args rfl
      | clear key => exact ih _ hlt hP _ _ args rfl
      | assign key value =>
          have hle := List.length_dropWhile_le startsWithSeparator args
          exact ih _ (hle.trans_lt hlt) hP _ _ _ rfl

theorem Simulation.parse (h : Simulation J P Q first second) {i : ι}
    (henter : Hook.Matches R (P i) (first i).onEnter (second i).onEnter) (hR : R s t) (name : Str)
    (args : List Str) :
    (parse name (first i) args).Matches J (fun _ _ => Q) (Parser.parse name (second i) args) s t :=
  (henter.withContext hR _ _ _).bind fun _ _ _ _ hP => h.parseLoop hP _ ∅ args

end

end

end Diffmonger.Parser
