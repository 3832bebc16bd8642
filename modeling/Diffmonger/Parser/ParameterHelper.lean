import Diffmonger.Parser.Simulation

/-!
# Parameters that keep a value (`parameter::ParameterHelper`)

The values that are given for a parameter are taken to its value by the classes of its `Chain`, one
after the other. The value is kept in the client's state, in a part of it that belongs to the
parameter alone. What is only used for the documentation is left out.
-/

namespace Diffmonger.Parser

variable {σ V W T : Type}

/-! ## The classes of a chain -/

/-- `Scalar::process` -/
def Scalar.process : List Str → Except Exn Str
  | [arg] => .ok arg
  | _ => .error (.argumentError "Wrong number of args")

/-- `Vector::process` -/
def Vector.process (args : List Str) : Except Exn (List Str) := .ok args

/-- `Boolean::process` -/
def Boolean.process (arg : Str) : Except Exn Bool :=
  if arg = "true".toList then .ok true
  else if arg = "false".toList then .ok false
  else .error (.argumentError ("invalid value for choice: " ++ quoted arg))

/-! ## Where values are kept -/

/-- A part of the client's state. -/
structure Part (σ V : Type) where
  get : σ → V
  set : V → σ → σ

/-- A part of a part. -/
def Part.comp (part : Part σ V) (inner : Part V W) : Part σ W where
  get s := inner.get (part.get s)
  set value s := part.set (inner.set value (part.get s)) s

/-- `ParameterHelper::set`; nothing is kept where the chain throws. -/
def setParameter (process : List Str → Except Exn T) (store : T → σ → σ) (values : List Str) :
    Hook σ := fun s =>
  match process values with
  | .ok value => (.ok (), store value s)
  | .error e => (.error e, s)

/-- `ParameterHelper<Parameter::Defaulted, ..>`; it always has a value. -/
def Part.defaulted (part : Part σ T) (process : List Str → Except Exn T) : Parameter σ where
  set := setParameter process part.set
  check := .nothing

/-- `ParameterHelper<Parameter::Optional, ..>` -/
def Part.optional (part : Part σ (Option T)) (process : List Str → Except Exn T) : Parameter σ where
  set := setParameter process fun value => part.set (some value)
  check := .nothing

/-- `get` of a required parameter. -/
def getRequired (name : Str) : Option T → Except Exn T
  | some value => .ok value
  | none => .error (.argumentError
      ("Regarding parameter " ++ String.ofList name ++ ": Required value not given"))

/-- `ParameterHelper<Parameter::Required, ..>` -/
def Part.required (part : Part σ (Option T)) (name : Str) (process : List Str → Except Exn T) :
    Parameter σ where
  set := setParameter process fun value => part.set (some value)
  check s := ((getRequired name (part.get s)).map fun _ => (), s)

/-!
## What setting a parameter leaves alone

Parameters are kept in separate parts of the client's state. A parameter that is set, whether that
works or not, leaves what is said of the other parts as it was.
-/

/-- Nothing that `J` says is about this part of the state. -/
def Part.Apart (part : Part σ V) (J : σ → Prop) : Prop := ∀ value s, J s → J (part.set value s)

section
variable {J : σ → Prop}

theorem Part.Apart.comp {part : Part σ V} (h : part.Apart J) (inner : Part V W) :
    (part.comp inner).Apart J := fun _ s hs => h _ s hs

theorem keeps_setParameter {process : List Str → Except Exn T} {store : T → σ → σ}
    (h : ∀ value s, J s → J (store value s)) (values : List Str) :
    (setParameter process store values).Keeps J := by
  intro s hs
  rw [setParameter]
  cases process values with
  | error e => exact hs
  | ok value => exact h value s hs

theorem Part.Apart.defaulted {part : Part σ T} (h : part.Apart J)
    (process : List Str → Except Exn T) : (part.defaulted process).Keeps J :=
  ⟨keeps_setParameter h, keeps_nothing⟩

theorem Part.Apart.optional {part : Part σ (Option T)} (h : part.Apart J)
    (process : List Str → Except Exn T) : (part.optional process).Keeps J :=
  ⟨keeps_setParameter fun _ => h _, keeps_nothing⟩

theorem Part.Apart.required {part : Part σ (Option T)} (h : part.Apart J) (name : Str)
    (process : List Str → Except Exn T) : (part.required name process).Keeps J :=
  ⟨keeps_setParameter fun _ => h _, fun _ hs => hs⟩

end

end Diffmonger.Parser
