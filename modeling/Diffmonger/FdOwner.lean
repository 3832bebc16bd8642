import Diffmonger.Basic
import Diffmonger.Lib.Moves

/-!
# Standard streams of child processes (`FdOwner.cpp`, `sysutil.cpp`)

The process's file descriptors are a partial map to its open files, whatever these are. The calls
that change it fail only if a descriptor is not open.

Main result: `systemvp3InChild_iff`. What the child does before `execvp` is a list of moves
(`systemvp3InChild_file`), each of which overwrites its target, so that the result depends on the
order in which they are made. When such a list has the effect of all moves at once is known
(`Lib/Moves.lean`); the case of the first owner is apart, which may be empty and then closes its
target.
-/

namespace Diffmonger

variable {F : Type}

structure FdTable (F : Type) where
  file : ℤ → Option F
  nonneg : ∀ fd, (file fd).isSome → 0 ≤ fd

namespace FdTable

def EBADF : Errno := .other 9

def EINTR : Errno := .other 4

def erase (t : FdTable F) (fd : ℤ) : FdTable F where
  file := Function.update t.file fd none
  nonneg n hn := by
    rw [Function.update_apply] at hn
    split at hn
    · cases hn
    · exact t.nonneg n hn

def insert (t : FdTable F) (fd : ℤ) (h : 0 ≤ fd) (f : F) : FdTable F where
  file := Function.update t.file fd (some f)
  nonneg n hn := by
    rw [Function.update_apply] at hn
    split at hn
    · next heq => exact heq ▸ h
    · exact t.nonneg n hn

def close (t : FdTable F) (fd : ℤ) : Except Errno Unit × FdTable F :=
  if (t.file fd).isSome then (.ok (), t.erase fd) else (.error EBADF, t)

/-- Closes `newfd` if it is open, and makes it refer to the file of `oldfd`. -/
def dup2 (t : FdTable F) (oldfd newfd : ℤ) : Except Errno (FdTable F) :=
  match t.file oldfd with
  | some f => if h : 0 ≤ newfd then .ok (t.insert newfd h f) else .error EBADF
  | none => .error EBADF

section
variable {t : FdTable F} {fd newfd : ℤ} {f : F}

theorem file_of_neg (t : FdTable F) (h : fd < 0) : t.file fd = none :=
  Option.not_isSome_iff_eq_none.mp fun hsome => absurd (t.nonneg fd hsome) (Int.not_le.mpr h)

theorem close_of_some (h : t.file fd = some f) : t.close fd = (.ok (), t.erase fd) :=
  if_pos (Option.isSome_of_eq_some h)

theorem close_of_none (h : t.file fd = none) : t.close fd = (.error EBADF, t) := by
  rw [close, h]
  rfl

theorem dup2_of_some (h : t.file fd = some f) (hnew : 0 ≤ newfd) :
    t.dup2 fd newfd = .ok (t.insert newfd hnew f) := by
  rw [dup2, h]
  exact dif_pos hnew

theorem dup2_of_none (h : t.file fd = none) : t.dup2 fd newfd = .error EBADF := by
  rw [dup2, h]

end

end FdTable

open FdTable

/-!
## Owners of file descriptors

An owner has a file descriptor or is empty, which is written as `-1`. `mov2` hands the descriptor to
another number. If it has that number already, the owner is released, and `mov2` goes on to call
`dup2` with the `-1` of an empty owner.
-/

def emptyFd : ℤ := -1

structure FdOwner where
  fd : ℤ
  valid : fd = emptyFd ∨ 0 ≤ fd

namespace FdOwner

def empty : FdOwner := ⟨emptyFd, .inl rfl⟩

/-- The constructor. -/
def ofFd (fd : ℤ) : Except Exn FdOwner :=
  if h : 0 ≤ fd then .ok ⟨fd, .inr h⟩ else .error (.invalidArgument "Invalid file descriptor")

def isEmpty (owner : FdOwner) : Bool := owner.fd == emptyFd

def ensureNotEmpty (owner : FdOwner) (method : String) : Except Exn Unit :=
  if owner.isEmpty then .error (.logicError ("FdOwner::" ++ method ++ "(): called on empty FdOwner"))
  else .ok ()

def reset (owner : FdOwner) (t : FdTable F) : Except Exn (FdOwner × FdTable F) :=
  if owner.isEmpty then .ok (owner, t)
  else
    match t.close owner.fd with
    | (.ok (), t) => .ok (empty, t)
    | (.error errno, t) =>
      -- an interrupted call has closed it nevertheless
      if errno = EINTR then .ok (empty, t)
      else if errno = EBADF then
        .error (.logicError ("FdOwner::reset(): fd (" ++ toString owner.fd ++ ") is invalid"))
      else .ok (owner, t)

def release (owner : FdOwner) : Except Exn (ℤ × FdOwner) := do
  owner.ensureNotEmpty "release"
  .ok (owner.fd, empty)

def mov2 (owner : FdOwner) (targetFd : ℤ) (t : FdTable F) : Except Exn (FdOwner × FdTable F) := do
  owner.ensureNotEmpty "mov2"
  -- does not return after the release
  let owner ← if owner.fd = targetFd then Prod.snd <$> owner.release else .ok owner
  match t.dup2 owner.fd targetFd with
  | .error errno => .error (.systemError errno "FdOwner::mov2: dup2 failed")
  | .ok t => owner.reset t

/-- How a child process ends that does not get any further. -/
inductive Failure where
  | exception (e : Exn)
  /-- An exception that a destructor throws while there is another one. -/
  | terminate
  deriving DecidableEq, Repr

def mov2OrClose (owner : FdOwner) (targetFd : ℤ) (t : FdTable F) :
    Except Failure (FdOwner × FdTable F) :=
  if owner.isEmpty then do
    let temporary ← (ofFd targetFd).mapError .exception
    match temporary.reset t with
    | .ok (_, t) => .ok (owner, t)
    -- the temporary is as before, so that its destructor fails in the same way
    | .error _ => .error .terminate
  else (owner.mov2 targetFd t).mapError .exception

end FdOwner

/-!
## `systemvp3`

The child moves its three owners to the standard descriptors, one after the other. Each move may
overwrite a descriptor that another owner has.
-/

def STDIN_FILENO : ℤ := 0

def STDOUT_FILENO : ℤ := 1

def STDERR_FILENO : ℤ := 2

/-- What the child does before `execvp`. -/
def systemvp3InChild (stdin stdout stderr : FdOwner) (t : FdTable F) :
    Except FdOwner.Failure (FdTable F) := do
  let (_, t) ← stdin.mov2OrClose STDIN_FILENO t
  let (_, t) ← (stdout.mov2 STDOUT_FILENO t).mapError .exception
  let (_, t) ← (stderr.mov2 STDERR_FILENO t).mapError .exception
  .ok t

/-!
## The moves of the child

What the child does to its file descriptors, as moves of the files that the owners hold. An owner
that is empty makes no move, but closes the stream that it stands for.
-/

namespace FdOwner

/-- The file that it holds; an empty one holds none. -/
def file (owner : FdOwner) (t : FdTable F) : Option F := t.file owner.fd

theorem isEmpty_iff {owner : FdOwner} : owner.isEmpty ↔ owner.fd = emptyFd := beq_iff_eq

theorem file_of_isEmpty {owner : FdOwner} (h : owner.isEmpty) (t : FdTable F) :
    owner.file t = none := by
  rw [file, isEmpty_iff.mp h]
  exact t.file_of_neg (by decide)

theorem not_isEmpty_of_file {owner : FdOwner} {t : FdTable F} (h : (owner.file t).isSome) :
    ¬ owner.isEmpty := by
  intro hempty
  rw [file_of_isEmpty hempty] at h
  cases h

/-- The open files after a call that succeeds. -/
def files {ε : Type} (r : Except ε (FdOwner × FdTable F)) : Option (ℤ → Option F) :=
  r.toOption.map (·.2.file)

@[simp] theorem files_ok {ε : Type} (owner : FdOwner) (t : FdTable F) :
    files (.ok (owner, t) : Except ε _) = some t.file := rfl

@[simp] theorem files_error {ε : Type} (e : ε) :
    files (.error e : Except ε (FdOwner × FdTable F)) = none := rfl

@[simp] theorem files_mapError {ε ε' : Type} (f : ε → ε') (r : Except ε (FdOwner × FdTable F)) :
    files (r.mapError f) = files r := by
  cases r with
  | error e => rfl
  | ok r => rfl

section
variable {owner : FdOwner} (ho : ¬ owner.isEmpty) {t : FdTable F}
include ho

theorem ensureNotEmpty_eq (method : String) : owner.ensureNotEmpty method = .ok () := if_neg ho

theorem reset_of_some {f : F} (h : owner.file t = some f) :
    owner.reset t = .ok (empty, t.erase owner.fd) := by
  rw [reset, if_neg ho, close_of_some h]

theorem reset_of_none (h : owner.file t = none) : owner.reset t =
    .error (.logicError ("FdOwner::reset(): fd (" ++ toString owner.fd ++ ") is invalid")) := by
  rw [reset, if_neg ho, close_of_none h]
  rfl

/-- An owner of the target's own descriptor releases it, and has none left to move. -/
theorem mov2_self : owner.mov2 owner.fd t =
    .error (.systemError EBADF "FdOwner::mov2: dup2 failed") := by
  have hnone : t.file empty.fd = none := t.file_of_neg (by decide)
  simp [mov2, release, ensureNotEmpty_eq ho, dup2_of_none hnone, bind, Except.bind, Functor.map,
    Except.map]

theorem mov2_of_none {targetFd : ℤ} (hne : owner.fd ≠ targetFd) (h : owner.file t = none) :
    owner.mov2 targetFd t = .error (.systemError EBADF "FdOwner::mov2: dup2 failed") := by
  simp [mov2, ensureNotEmpty_eq ho, hne, dup2_of_none h, bind, Except.bind]

theorem mov2_of_some {targetFd : ℤ} (hne : owner.fd ≠ targetFd) (htarget : 0 ≤ targetFd) {f : F}
    (h : owner.file t = some f) :
    owner.mov2 targetFd t = .ok (empty, (t.insert targetFd htarget f).erase owner.fd) := by
  have hfile : owner.file (t.insert targetFd htarget f) = some f :=
    (Function.update_of_ne hne ..).trans h
  simp [mov2, ensureNotEmpty_eq ho, hne, dup2_of_some h htarget, reset_of_some ho hfile, bind,
    Except.bind]

/-- The file is moved, unless the owner holds the target itself. -/
theorem files_mov2 {targetFd : ℤ} (htarget : 0 ≤ targetFd) (t : FdTable F) :
    files (owner.mov2 targetFd t) = (⟨owner.fd, targetFd⟩ : Move ℤ).run t.file := by
  by_cases hne : owner.fd = targetFd
  · subst hne
    rw [mov2_self ho, Move.run, if_neg fun h => h.1 rfl]
    rfl
  · cases h : t.file owner.fd with
    | none =>
        rw [mov2_of_none ho hne h, Move.run, if_neg fun hmove => by simp [h] at hmove]
        rfl
    | some f =>
        rw [mov2_of_some ho hne htarget h, Move.run, if_pos ⟨hne, Option.isSome_of_eq_some h⟩, h]
        rfl

end

theorem files_mov2OrClose_of_isEmpty {owner : FdOwner} (h : owner.isEmpty) {targetFd : ℤ}
    (htarget : 0 ≤ targetFd) (t : FdTable F) : files (owner.mov2OrClose targetFd t) =
      if (t.file targetFd).isSome then some (Function.update t.file targetFd none) else none := by
  let temporary : FdOwner := ⟨targetFd, .inr htarget⟩
  have hof : ofFd targetFd = .ok temporary := dif_pos htarget
  have ho : ¬ temporary.isEmpty := fun h => by
    have hfd : targetFd = -1 := isEmpty_iff.mp h
    omega
  rw [mov2OrClose, if_pos h, hof]
  cases hfile : t.file targetFd with
  | none => simp [Except.mapError, bind, Except.bind, reset_of_none ho hfile]
  | some f => simp [Except.mapError, bind, Except.bind, reset_of_some ho hfile, erase, temporary]

end FdOwner

section
variable {ε : Type}

theorem exists_file_iff {r : Except ε (FdTable F)} {P : (ℤ → Option F) → Prop} :
    (∃ t, r = .ok t ∧ P t.file) ↔ ∃ m, r.toOption.map file = some m ∧ P m := by
  cases r with
  | error e => simp [Except.toOption]
  | ok t => simp [Except.toOption]

theorem bind_files {r : Except ε (FdOwner × FdTable F)}
    {k : FdOwner × FdTable F → Except ε (FdTable F)} {g : (ℤ → Option F) → Option (ℤ → Option F)}
    (hk : ∀ owner t, (k (owner, t)).toOption.map file = g t.file) :
    (r >>= k).toOption.map file = (FdOwner.files r).bind g := by
  cases r with
  | error e => rfl
  | ok r => exact hk r.1 r.2

end

section
variable {stdin stdout stderr : FdOwner} {t : FdTable F}

/-- The moves to the output streams. -/
def outputs (stdout stderr : FdOwner) : List (Move ℤ) :=
  [⟨stdout.fd, STDOUT_FILENO⟩, ⟨stderr.fd, STDERR_FILENO⟩]

/-- The child makes the moves one after the other. -/
theorem systemvp3InChild_file (hout : ¬ stdout.isEmpty) (herr : ¬ stderr.isEmpty) :
    (systemvp3InChild stdin stdout stderr t).toOption.map file =
      (FdOwner.files (stdin.mov2OrClose STDIN_FILENO t)).bind
        (Move.runAll (outputs stdout stderr)) := by
  refine bind_files fun _ t => ?_
  rw [outputs, Move.runAll, ← FdOwner.files_mov2 hout (by decide) t,
    ← FdOwner.files_mapError FdOwner.Failure.exception]
  refine bind_files fun _ t => ?_
  rw [Move.runAll, ← FdOwner.files_mov2 herr (by decide) t,
    ← FdOwner.files_mapError FdOwner.Failure.exception]
  exact bind_files fun _ _ => rfl

theorem forall_mem_outputs {P : Move ℤ → Prop} : (∀ move ∈ outputs stdout stderr, P move) ↔
    P ⟨stdout.fd, STDOUT_FILENO⟩ ∧ P ⟨stderr.fd, STDERR_FILENO⟩ := by
  simp [outputs]

theorem independent_outputs {m : ℤ → Option F} :
    Move.Independent (outputs stdout stderr) m ↔
      (m stdout.fd).isSome ∧ stdout.fd ≠ STDOUT_FILENO ∧ stderr.fd ≠ STDOUT_FILENO ∧
        (m stderr.fd).isSome ∧ stderr.fd ≠ STDERR_FILENO := by
  simp [outputs, Move.independent_cons, Move.independent_nil]

theorem isSome_update_none {m : ℤ → Option F} {fd n : ℤ} :
    (Function.update m fd none n).isSome ↔ n ≠ fd ∧ (m n).isSome := by
  rw [Function.update_apply]
  split <;> simp [*]

section
variable (hout : (stdout.file t).isSome) (herr : (stderr.file t).isSome)
  (hdistinct : [stdin.fd, stdout.fd, stderr.fd].Nodup)
include hout herr hdistinct

/-- The first owner is empty, so the outputs are moved in a table where its target is closed. -/
theorem exists_runAll_iff_of_isEmpty (hempty : stdin.isEmpty) :
    (∃ m, Move.runAll (outputs stdout stderr) (Function.update t.file STDIN_FILENO none) = some m ∧
        m STDIN_FILENO = stdin.file t ∧ m STDOUT_FILENO = stdout.file t ∧
        m STDERR_FILENO = stderr.file t) ↔
      stdout.fd ∉ [STDIN_FILENO, STDOUT_FILENO] ∧
      stderr.fd ∉ [STDIN_FILENO, STDOUT_FILENO, STDERR_FILENO] := by
  have hsources : ((outputs stdout stderr).map Move.source).Nodup := (List.nodup_cons.mp hdistinct).2
  have htargets : ((outputs stdout stderr).map Move.target).Nodup :=
    show [STDOUT_FILENO, STDERR_FILENO].Nodup by decide
  constructor
  · rintro ⟨m, hm, -, hm1, hm2⟩
    have h := Move.independent_of_runAll hsources htargets hm
      (forall_mem_outputs.mpr ⟨hm1 ▸ hout, hm2 ▸ herr⟩)
    rw [independent_outputs, isSome_update_none, isSome_update_none] at h
    obtain ⟨⟨hout0, -⟩, hout1, herr1, ⟨herr0, -⟩, herr2⟩ := h
    exact ⟨by simp [hout0, hout1], by simp [herr0, herr1, herr2]⟩
  · rintro ⟨houtfd, herrfd⟩
    simp only [List.mem_cons, List.not_mem_nil, or_false, not_or] at houtfd herrfd
    have h := independent_outputs.mpr ⟨isSome_update_none.mpr ⟨houtfd.1, hout⟩, houtfd.2,
      herrfd.2.1, isSome_update_none.mpr ⟨herrfd.1, herr⟩, herrfd.2.2⟩
    obtain ⟨m, hm, hplaced⟩ := h.runAll hsources htargets
    rw [forall_mem_outputs, Function.update_of_ne houtfd.1, Function.update_of_ne herrfd.1]
      at hplaced
    refine ⟨m, hm, ?_, hplaced⟩
    -- nothing is moved to the first stream, so it is still closed
    have hsource : STDIN_FILENO ∉ (outputs stdout stderr).map Move.source := by
      simp [outputs, Ne.symm houtfd.1, Ne.symm herrfd.1]
    have htarget : STDIN_FILENO ∉ (outputs stdout stderr).map Move.target :=
      show STDIN_FILENO ∉ [STDOUT_FILENO, STDERR_FILENO] by decide
    rw [Move.runAll_of_notMem hm hsource htarget, Function.update_self,
      FdOwner.file_of_isEmpty hempty]

/-- The first owner has a file to move. -/
theorem exists_runAll_iff_of_isSome (hin : (stdin.file t).isSome) :
    (∃ m, Move.runAll (⟨stdin.fd, STDIN_FILENO⟩ :: outputs stdout stderr) t.file = some m ∧
        m STDIN_FILENO = stdin.file t ∧ m STDOUT_FILENO = stdout.file t ∧
        m STDERR_FILENO = stderr.file t) ↔
      stdin.fd ≠ STDIN_FILENO ∧ stdout.fd ∉ [STDIN_FILENO, STDOUT_FILENO] ∧
      stderr.fd ∉ [STDIN_FILENO, STDOUT_FILENO, STDERR_FILENO] := by
  have hsources : ((⟨stdin.fd, STDIN_FILENO⟩ :: outputs stdout stderr).map Move.source).Nodup :=
    hdistinct
  have htargets : ((⟨stdin.fd, STDIN_FILENO⟩ :: outputs stdout stderr).map Move.target).Nodup :=
    show [STDIN_FILENO, STDOUT_FILENO, STDERR_FILENO].Nodup by decide
  constructor
  · rintro ⟨m, hm, hm0, hm1, hm2⟩
    have h := Move.independent_of_runAll hsources htargets hm (List.forall_mem_cons.mpr
      ⟨hm0 ▸ hin, forall_mem_outputs.mpr ⟨hm1 ▸ hout, hm2 ▸ herr⟩⟩)
    rw [Move.independent_cons, forall_mem_outputs, independent_outputs] at h
    obtain ⟨-, hin0, ⟨hout0, herr0⟩, -, hout1, herr1, -, herr2⟩ := h
    exact ⟨hin0, by simp [hout0, hout1], by simp [herr0, herr1, herr2]⟩
  · rintro ⟨hinfd, houtfd, herrfd⟩
    simp only [List.mem_cons, List.not_mem_nil, or_false, not_or] at houtfd herrfd
    have h : Move.Independent (⟨stdin.fd, STDIN_FILENO⟩ :: outputs stdout stderr) t.file :=
      Move.independent_cons.mpr ⟨hin, hinfd, forall_mem_outputs.mpr ⟨houtfd.1, herrfd.1⟩,
        independent_outputs.mpr ⟨hout, houtfd.2, herrfd.2.1, herr, herrfd.2.2⟩⟩
    obtain ⟨m, hm, hplaced⟩ := h.runAll hsources htargets
    rw [List.forall_mem_cons, forall_mem_outputs] at hplaced
    exact ⟨m, hm, hplaced⟩

end

/-- The streams of the child are the files that the owners hold if and only if no owner holds its
own target or that of an earlier one, and there is something to close if the first owner is empty.
-/
theorem systemvp3InChild_iff (hin : stdin.isEmpty ∨ (stdin.file t).isSome)
    (hout : (stdout.file t).isSome) (herr : (stderr.file t).isSome)
    (hdistinct : [stdin.fd, stdout.fd, stderr.fd].Nodup) :
    (∃ t', systemvp3InChild stdin stdout stderr t = .ok t' ∧ t'.file STDIN_FILENO = stdin.file t ∧
        t'.file STDOUT_FILENO = stdout.file t ∧ t'.file STDERR_FILENO = stderr.file t) ↔
      (stdin.isEmpty → (t.file STDIN_FILENO).isSome) ∧ stdin.fd ≠ STDIN_FILENO ∧
      stdout.fd ∉ [STDIN_FILENO, STDOUT_FILENO] ∧
      stderr.fd ∉ [STDIN_FILENO, STDOUT_FILENO, STDERR_FILENO] := by
  rw [exists_file_iff (P := fun m => m STDIN_FILENO = stdin.file t ∧ m STDOUT_FILENO = stdout.file t ∧
    m STDERR_FILENO = stderr.file t), systemvp3InChild_file (FdOwner.not_isEmpty_of_file hout)
    (FdOwner.not_isEmpty_of_file herr)]
  by_cases hempty : stdin.isEmpty
  · have hin0 : stdin.fd ≠ STDIN_FILENO := FdOwner.isEmpty_iff.mp hempty ▸ by decide
    rw [FdOwner.files_mov2OrClose_of_isEmpty hempty (by decide)]
    by_cases hopen : (t.file STDIN_FILENO).isSome
    · rw [if_pos hopen, Option.bind_some, exists_runAll_iff_of_isEmpty hout herr hdistinct hempty,
        and_iff_right fun _ => hopen, and_iff_right hin0]
    · rw [if_neg hopen]
      exact iff_of_false (fun h => by simp at h) fun h => hopen (h.1 hempty)
  · rw [FdOwner.mov2OrClose, if_neg hempty, FdOwner.files_mapError,
      FdOwner.files_mov2 hempty (by decide), ← Move.runAll,
      exists_runAll_iff_of_isSome hout herr hdistinct (hin.resolve_left hempty),
      and_iff_right fun h => absurd h hempty]

end

/-- The first `n` file descriptors are open. -/
def FdTable.firstOpen (n : ℕ) : FdTable ℤ where
  file fd := if 0 ≤ fd ∧ fd < n then some fd else none
  nonneg fd h := by
    split at h
    · next hfd => exact hfd.1
    · cases h

/-- Among the owners' descriptors are two of the standard ones. -/
theorem systemvp3InChild_iff_overlapping :
    let stdin : FdOwner := ⟨1, .inr (by decide)⟩
    let stdout : FdOwner := ⟨2, .inr (by decide)⟩
    let stderr : FdOwner := ⟨3, .inr (by decide)⟩
    ∃ t', systemvp3InChild stdin stdout stderr (firstOpen 4) = .ok t' ∧ t'.file 0 = some 1 ∧
      t'.file 1 = some 2 ∧ t'.file 2 = some 3 := by
  intro stdin stdout stderr
  exact (systemvp3InChild_iff (.inr (by decide)) (by decide) (by decide) (by decide)).mpr
    ⟨by decide, by decide, by decide, by decide⟩

/-- The standard input was closed, so a pipe got its number, and it cannot be moved to it. -/
theorem systemvp3InChild_self :
    let stdin : FdOwner := ⟨0, .inr (by decide)⟩
    let stdout : FdOwner := ⟨3, .inr (by decide)⟩
    let stderr : FdOwner := ⟨4, .inr (by decide)⟩
    let t := firstOpen 5
    ((stdin.file t).isSome ∧ (stdout.file t).isSome ∧ (stderr.file t).isSome ∧
      [stdin.fd, stdout.fd, stderr.fd].Nodup) ∧
    ¬ ∃ t', systemvp3InChild stdin stdout stderr t = .ok t' := by
  intro stdin stdout stderr t
  refine ⟨by decide, ?_⟩
  rintro ⟨t', h⟩
  have hself : stdin.mov2 STDIN_FILENO t =
      .error (.systemError EBADF "FdOwner::mov2: dup2 failed") :=
    FdOwner.mov2_self (show ¬ stdin.isEmpty by decide)
  rw [systemvp3InChild, FdOwner.mov2OrClose, if_neg (by decide), hself] at h
  cases h

end Diffmonger
