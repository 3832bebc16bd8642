import Diffmonger.Lib.Program

/-!
# Bytes and exceptions

The exceptions the program throws, by C++ class, each with its message. A handler names a class and
catches the classes derived from it: `std::system_error`, `command_failed`, `argument_error` and the
two snapshot errors of `BackendDriver` are runtime errors; `std::invalid_argument`,
`std::length_error` and `std::out_of_range` are logic errors.
-/

namespace Diffmonger

abbrev Byte := UInt8

abbrev Bytes := List Byte

/-- The error codes of the system calls that the program tells apart. -/
inductive Errno where
  | ENOENT
  | other (code : ℕ)
  deriving DecidableEq, Repr

inductive Exn where
  | runtimeError (what : String)
  | systemError (code : Errno) (what : String)
  | commandFailed (what : String)
  | snapshotDoesNotExist (what : String)
  | snapshotInvalid (what : String)
  | argumentError (what : String)
  | logicError (what : String)
  | invalidArgument (what : String)
  | lengthError (what : String)
  | outOfRange (what : String)
  deriving DecidableEq, Repr

/-- The message. -/
def Exn.what : Exn → String
  | runtimeError what | systemError _ what | commandFailed what | snapshotDoesNotExist what
  | snapshotInvalid what | argumentError what | logicError what | invalidArgument what
  | lengthError what | outOfRange what => what

/-- Caught by a handler for `std::runtime_error`. -/
def Exn.isRuntimeError : Exn → Bool
  | runtimeError _ | systemError _ _ | commandFailed _ | snapshotDoesNotExist _
  | snapshotInvalid _ | argumentError _ => true
  | logicError _ | invalidArgument _ | lengthError _ | outOfRange _ => false

/-- Caught by a handler for `std::system_error`. -/
def Exn.isSystemError : Exn → Bool
  | systemError _ _ => true
  | _ => false

/-- Caught by a handler for `BackendDriver::SnapshotDoesNotExist`. -/
def Exn.isSnapshotDoesNotExist : Exn → Bool
  | snapshotDoesNotExist _ => true
  | _ => false

/-- Caught by a handler for `argument_error`. -/
def Exn.isArgumentError : Exn → Bool
  | argumentError _ => true
  | _ => false

/-- A sequence that succeeds has got through its first part. -/
theorem ok_of_bind {ε α γ : Type} {x : Except ε α} {k : α → Except ε γ} {c : γ}
    (h : (x >>= k) = .ok c) : ∃ a, x = .ok a ∧ k a = .ok c := by
  cases x with
  | error e => cases h
  | ok a => exact ⟨a, rfl, h⟩

theorem ok_of_map {ε α γ : Type} {x : Except ε α} {f : α → γ} {c : γ} (h : x.map f = .ok c) :
    ∃ a, x = .ok a ∧ f a = c := by
  cases x with
  | error e => cases h
  | ok a => exact ⟨a, rfl, Except.ok.inj h⟩

theorem error_of_map {ε α γ : Type} {x : Except ε α} {f : α → γ} {e : ε} (h : x.map f = .error e) :
    x = .error e := by
  cases x with
  | error e' => exact congrArg Except.error (Except.error.inj h)
  | ok a => cases h

theorem ok_of_mapError {ε ε' α : Type} {x : Except ε α} {f : ε → ε'} {a : α}
    (h : x.mapError f = .ok a) : x = .ok a := by
  cases x with
  | error e => cases h
  | ok a' => exact congrArg Except.ok (Except.ok.inj h)

theorem error_of_mapError {ε ε' α : Type} {x : Except ε α} {f : ε → ε'} {e' : ε'}
    (h : x.mapError f = .error e') : ∃ e, x = .error e ∧ f e = e' := by
  cases x with
  | error e => exact ⟨e, rfl, Except.error.inj h⟩
  | ok a => cases h

end Diffmonger
