import Diffmonger.CommandLineInterface

/-!
# The password

It is checked that the password is not empty where something is added to what has been typed.

Main result: `readsNonempty_iff`. Without anything to add, the function returns early, before the
check (`readPassword_none_iff`); with something to add, the check is never the one that fails, since
the file has been found not to be empty before (`readPassword_some`).
-/

namespace Diffmonger

namespace PasswordParameter

/-- The passphrase that is typed at a terminal, or the empty one if none is asked for. -/
def Typed (disablePassphrase : Bool) (tty : Except Exn InputFd) (line : Bytes) : Prop :=
  if disablePassphrase then line = [] else ∃ fd, tty = .ok fd ∧ fd.upTo 10 = .ok line

/-- The passphrase that is added to it. -/
def Added (additionalPassphraseFd : Option InputFd) (bytes : Bytes) : Prop :=
  match additionalPassphraseFd with
  | none => bytes = []
  | some fd => fd.contents = .ok bytes

/-- If a password is returned, it is what is typed and added, and not empty. -/
def ReadsNonempty (disablePassphrase : Bool) (tty ttyCheck : Except Exn InputFd)
    (additionalPassphraseFd : Option InputFd) (check : Bool) : Prop :=
  ∀ password,
    readPassword disablePassphrase tty ttyCheck additionalPassphraseFd check = .ok password →
      password ≠ [] ∧ ∃ line bytes, Typed disablePassphrase tty line ∧
        Added additionalPassphraseFd bytes ∧ password = line ++ bytes

section
variable {disablePassphrase check : Bool} {tty ttyCheck : Except Exn InputFd}

theorem completed_eq_ok_iff {password bytes : Bytes} {r : Except Errno Bytes} :
    PasswordBuffer.completed password r = .ok bytes ↔ ∃ rest, r = .ok rest ∧ bytes = password ++ rest := by
  cases r with
  | error e => simp [PasswordBuffer.completed]
  | ok rest => simp [PasswordBuffer.completed, eq_comm]

theorem readPasswordFromTty_eq_ok_iff {line : Bytes} :
    PasswordBuffer.readPasswordFromTty tty = .ok line ↔ Typed false tty line := by
  cases tty with
  | error e => exact ⟨nofun, fun ⟨fd, h, _⟩ => nomatch h⟩
  | ok fd =>
      have hread : PasswordBuffer.readPasswordFromTty (.ok fd) = PasswordBuffer.readline fd := rfl
      rw [hread, PasswordBuffer.readline_eq, completed_eq_ok_iff]
      constructor
      · rintro ⟨line, hline, rfl⟩
        exact ⟨fd, rfl, hline⟩
      · rintro ⟨_, ⟨⟩, hline⟩
        exact ⟨line, hline, rfl⟩

/-- The two lines must be the same if the first is to be confirmed. -/
theorem ttyPassword_eq_ok_iff {line : Bytes} :
    ttyPassword disablePassphrase tty ttyCheck check = .ok line ↔
      Typed disablePassphrase tty line ∧
        (disablePassphrase = false → check = true → Typed false ttyCheck line) := by
  unfold ttyPassword
  cases disablePassphrase with
  | true => simp [Typed, eq_comm]
  | false =>
      rw [← readPasswordFromTty_eq_ok_iff, ← readPasswordFromTty_eq_ok_iff]
      cases PasswordBuffer.readPasswordFromTty tty with
      | error e => exact ⟨nofun, fun ⟨h, _⟩ => nomatch h⟩
      | ok password =>
          cases check with
          | false => simp [bind, Except.bind]
          | true =>
              cases PasswordBuffer.readPasswordFromTty ttyCheck with
              | error e => simp [bind, Except.bind]
              | ok passwordCheck =>
                  by_cases heq : password = passwordCheck
                  · simp [bind, Except.bind, heq]
                  · have hne : ¬ (password = line ∧ passwordCheck = line) :=
                      fun h => heq (h.1.trans h.2.symm)
                    simpa [bind, Except.bind, heq] using hne

/-- If none is added, what is typed is the password, whatever it is. -/
theorem readPassword_none_iff {password : Bytes} :
    readPassword disablePassphrase tty ttyCheck none check = .ok password ↔
      Typed disablePassphrase tty password ∧
        (disablePassphrase = false → check = true → Typed false ttyCheck password) := by
  rw [← ttyPassword_eq_ok_iff, readPassword]
  cases ttyPassword disablePassphrase tty ttyCheck check with
  | error e => exact Iff.rfl
  | ok line => exact Iff.rfl

/-- If a passphrase is added, it is not empty. -/
theorem readPassword_some {fd : InputFd} {password : Bytes}
    (h : readPassword disablePassphrase tty ttyCheck (some fd) check = .ok password) :
    ∃ line bytes, Typed disablePassphrase tty line ∧ fd.contents = .ok bytes ∧ bytes ≠ [] ∧
      password = line ++ bytes := by
  unfold readPassword at h
  cases htty : ttyPassword disablePassphrase tty ttyCheck check with
  | error e =>
      rw [htty] at h
      cases h
  | ok line =>
      have hpos : 0 < PasswordBuffer.getpagesize / 2 := by decide
      simp only [htty, PasswordBuffer.readuntil_nil fd hpos, bind, Except.bind] at h
      cases hcontents : PasswordBuffer.completed [] fd.contents with
      | error e =>
          rw [hcontents] at h
          cases h
      | ok bytes =>
          obtain ⟨bytes, hbytes, rfl⟩ := completed_eq_ok_iff.mp hcontents
          simp only [hcontents] at h
          split at h
          · cases h
          · next hlength =>
              split at h
              · cases h
              · cases h
                exact ⟨line, bytes, (ttyPassword_eq_ok_iff.mp htty).1, hbytes,
                  List.length_eq_zero_iff.not.mp hlength, rfl⟩

/-- A password is returned that is not empty exactly if something is added to it, or something is
typed, or nothing can be returned. -/
theorem readsNonempty_iff (disablePassphrase : Bool) (tty ttyCheck : Except Exn InputFd)
    (additionalPassphraseFd : Option InputFd) (check : Bool) :
    ReadsNonempty disablePassphrase tty ttyCheck additionalPassphraseFd check ↔
      ¬ (additionalPassphraseFd = none ∧ Typed disablePassphrase tty [] ∧
        (disablePassphrase = false → check = true → Typed false ttyCheck [])) := by
  cases additionalPassphraseFd with
  | some fd =>
      refine iff_of_true (fun password h => ?_) (by simp)
      obtain ⟨line, bytes, hline, hbytes, hne, rfl⟩ := readPassword_some h
      exact ⟨List.append_ne_nil_of_right_ne_nil _ hne, line, bytes, hline, hbytes, rfl⟩
  | none =>
      constructor
      · rintro h ⟨-, htyped, hcheck⟩
        have hempty := readPassword_none_iff.mpr ⟨htyped, hcheck⟩
        exact (h [] hempty).1 rfl
      · intro h password hpassword
        obtain ⟨htyped, hcheck⟩ := readPassword_none_iff.mp hpassword
        refine ⟨?_, password, [], htyped, rfl, (List.append_nil _).symm⟩
        rintro rfl
        exact h ⟨rfl, htyped, hcheck⟩

/-- Two empty lines are typed. -/
theorem readPassword_newline :
    let tty : Except Exn InputFd := .ok (.piece 10 [] .eof)
    readPassword false tty tty none true = .ok [] ∧ ¬ ReadsNonempty false tty tty none true := by
  intro tty
  have htyped : Typed false tty [] := ⟨_, rfl, rfl⟩
  have hempty : readPassword false tty tty none true = .ok [] :=
    readPassword_none_iff.mpr ⟨htyped, fun _ _ => htyped⟩
  exact ⟨hempty, fun h => (h [] hempty).1 rfl⟩

end

end PasswordParameter

end Diffmonger
