import Diffmonger.BackendDriver

/-!
# Running `zfs` (`zfs.cpp`, `sysutil.cpp`)

A `std::string` is a list of characters, one for each byte. What running a command does is a
parameter: `System`. A command gets its arguments and what it can read, changes the state of the
dataset in whatever way, and writes something, whether it succeeds or not.

The types `SnapshotName` and `SnapshotGuid` carry the check of their constructors as a field, so
that what is built into a command line has the form that it should have.
-/

namespace Diffmonger

/-- What surrounds a process: the commands that it runs act on the state `β` of the dataset. -/
structure System (β : Type) where
  /-- `systemvp3` and `wait_or_throw`: given the arguments of a command and what it can read, what
  the command writes, and the exception that says how it failed. -/
  run : List (List Char) → Bytes → β → Stream × β
  /-- `system_clock::now()` -/
  now : β → Int64

/-- A computation that runs commands. -/
abbrev Shell (β : Type) := ExceptT Exn (StateM β)

namespace Shell

variable {β α γ : Type}

/-- What follows a computation that has run. -/
def andThen (k : α → Shell β γ) : Except Exn α × β → Except Exn γ × β
  | (.ok a, b) => k a b
  | (.error e, b) => (.error e, b)

theorem bind_apply (p : Shell β α) (k : α → Shell β γ) (b : β) :
    (p >>= k) b = andThen k (p b) := by
  show (ExceptT.bindCont k (p b).1) (p b).2 = _
  rcases p b with ⟨_ | _, _⟩ <;> rfl

theorem tryCatch_apply (p : Shell β α) (h : Exn → Shell β α) (b : β) :
    (tryCatch p h : Shell β α) b =
      match p b with
      | (.ok a, b) => (.ok a, b)
      | (.error e, b) => h e b := by
  simp only [tryCatch, tryCatchThe, MonadExceptOf.tryCatch, ExceptT.tryCatch, ExceptT.mk, bind,
    StateT.bind]
  rcases p b with ⟨_ | _, _⟩ <;> rfl

/-- A computation that returns has got through its first part. -/
theorem ok_of_bind {p : Shell β α} {k : α → Shell β γ} {b : β} {c : γ}
    (h : ((p >>= k) b).1 = .ok c) : ∃ a b', p b = (.ok a, b') ∧ (k a b').1 = .ok c := by
  rw [bind_apply] at h
  rcases hp : p b with ⟨e | a, b'⟩
  · rw [hp] at h
    cases h
  · rw [hp] at h
    exact ⟨a, b', rfl, h⟩

@[simp] theorem pure_apply (a : α) (b : β) : (pure a : Shell β α) b = (.ok a, b) := rfl

@[simp] theorem throw_apply (e : Exn) (b : β) : (throw e : Shell β α) b = (.error e, b) := rfl

end Shell

namespace Zfs

/-- The string as bytes, and back. -/
def toBytes (chars : List Char) : Bytes := chars.map Char.toUInt8

def ofBytes (bytes : Bytes) : List Char := bytes.map Char.ofUInt8

/-! ## Names and guids -/

def isNameChar (c : Char) : Bool := c.isAlphanum || c == '_' || c == '-' || c == '.'

/-- A name that matches `[a-zA-Z0-9_\-\.]+(/[a-zA-Z0-9_\-\.]+)*` -/
structure DatasetName where
  str : List Char
  valid : (str.splitOn '/').all fun part => !part.isEmpty && part.all isNameChar

/-- A name that matches `[a-zA-Z][a-zA-Z0-9_\-\.:]{0,254}` -/
def matchesSnapshotName : List Char → Bool
  | [] => false
  | c :: rest => c.isAlpha && decide (rest.length ≤ 254) &&
      rest.all fun c => isNameChar c || c == ':'

structure SnapshotName where
  str : List Char
  valid : matchesSnapshotName str
  deriving DecidableEq

def SnapshotName.ofString (str : List Char) : Except Exn SnapshotName :=
  if h : matchesSnapshotName str then .ok ⟨str, h⟩
  else .error (.invalidArgument ("Invalid snapshot name: " ++ String.ofList str))

/-- `DatasetSnapshotName::str` -/
def datasetSnapshotName (dataset : DatasetName) (snapshot : SnapshotName) : List Char :=
  dataset.str ++ '@' :: snapshot.str

/-- `std::to_string` -/
def decimal (n : ℕ) : List Char := Nat.toDigits 10 n

theorem length_decimal {n : ℕ} (h : n < 2 ^ 64) : (decimal n).length ≤ 20 := by
  rw [decimal, Nat.length_toDigits_le_iff (by decide) (by decide)]
  exact h.trans (by decide)

/-- `std::stoull` of digits -/
def stoull (digits : List Char) : Except Exn UInt64 :=
  if digits.isEmpty then .error (.invalidArgument "stoull")
  else if 2 ^ 64 ≤ Nat.ofDigitChars 10 digits 0 then .error (.outOfRange "stoull")
  else .ok (UInt64.ofNat (Nat.ofDigitChars 10 digits 0))

structure SnapshotGuid where
  guid : UInt64
  nonzero : guid ≠ 0
  deriving DecidableEq

namespace SnapshotGuid

def str (guid : SnapshotGuid) : List Char := decimal guid.guid.toNat

/-- The constructor; its assertion is an exception that nothing catches. -/
def ofString (str : List Char) : Except Exn SnapshotGuid :=
  if str.all Char.isDigit then do
    let out ← stoull str
    if h : out = 0 then .error (.invalidArgument "Invalid null guid")
    else if decimal out.toNat = str then return ⟨out, h⟩
    else .error (.logicError "Assertion `std::to_string(this->guid) == guid' failed.")
  else .error (.invalidArgument ("Invalid guid: " ++ String.ofList str))

end SnapshotGuid

def verifyGuid (guid : List Char) : Bool := !guid.isEmpty && guid.all Char.isDigit

/-! ## The commands -/

variable {β : Type} (system : System β)

/-- `systemvp_str`, also for a command whose output is not looked at. -/
def systemvpStr (argv : List (List Char)) (stdin : Bytes) : Shell β (List Char) := fun b =>
  let (out, b) := system.run argv stdin b
  (out.result.map fun _ => ofBytes out.chunks.flatten, b)

/-- The final newline is dropped. -/
def strchomp (out : List Char) : List Char :=
  if out.getLast? = some '\n' then out.dropLast else out

/-- What the functions of `zfs.cpp` are given. -/
structure Dataset where
  zfsCommand : List (List Char)
  dataset : DatasetName

section
variable (ds : Dataset) (snapshot : SnapshotName)

def zfsSnapshot : Shell β Unit := do
  let _ ← systemvpStr system
    (ds.zfsCommand ++ ["snapshot".toList, datasetSnapshotName ds.dataset snapshot]) []

def zfsGetGuid : Shell β SnapshotGuid := do
  let out ← systemvpStr system
    (ds.zfsCommand ++ ["get".toList, "-H".toList, "-o".toList, "value".toList, "guid".toList,
      datasetSnapshotName ds.dataset snapshot]) []
  let guid := strchomp out
  if verifyGuid guid then liftM (SnapshotGuid.ofString guid)
  else throw (.runtimeError ("zfs reported an invalid guid! (" ++ String.ofList guid ++ ")"))

def zfsRemoveSnapshot : Shell β Unit := do
  let _ ← systemvpStr system
    (ds.zfsCommand ++ ["destroy".toList, datasetSnapshotName ds.dataset snapshot]) []

def zfsReceive (stdin : Bytes) (args : List (List Char)) : Shell β Unit := do
  let _ ← systemvpStr system
    (ds.zfsCommand ++ "receive".toList :: args ++ [datasetSnapshotName ds.dataset snapshot]) stdin

def zfsSend : β → Stream × β :=
  system.run (ds.zfsCommand ++ ["send".toList, datasetSnapshotName ds.dataset snapshot]) []

def zfsDiffsend (base : SnapshotName) : β → Stream × β :=
  system.run (ds.zfsCommand ++ ["send".toList, "-i".toList, '@' :: base.str,
    datasetSnapshotName ds.dataset snapshot]) []

end

end Zfs

end Diffmonger
