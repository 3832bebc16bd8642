import Diffmonger.Basic
import Diffmonger.Lib.Input

/-!
# Passwords (`PasswordBuffer.cpp`)

A `PasswordBuffer` is the bytes that it holds. That its memory is locked, and cleared in the end, is
left out.

Reading takes one call of `read` after the other, each of which may get fewer bytes than there is
room for, or be interrupted. The size of the buffer is kept although its contents are not, since it
decides how much a call may get. `PasswordBuffer/Buffers.lean` has the buffers themselves.
-/

namespace Diffmonger

/-- What is to be read from a file descriptor. -/
abbrev InputFd := Input Byte Errno

namespace PasswordBuffer

/-- A page has 4k on x86. -/
def getpagesize : ℕ := 4096

/-- `std::search`: where the sentinel first occurs, or else the end. -/
def search (sentinel : Bytes) : Bytes → ℕ
  | [] => 0
  | b :: bs => if sentinel.isPrefixOf (b :: bs) then 0 else search sentinel bs + 1

/-- The loop, for a buffer of `size` bytes that starts with the bytes `password` read so far. -/
def readuntilLoop (sentinel : Bytes) (size : ℕ) (password : Bytes) (fd : InputFd) :
    Except Exn Bytes :=
  let size := if password.length = size then size * 2 else size
  match _hread : fd.read (size - password.length) with
  | (.interrupted, fd) => readuntilLoop sentinel size password fd
  | (.failed e, _) => .error (.systemError e "read() failed")
  | (.data [], _) => .ok password
  | (.data (b :: bs), fd) =>
    if sentinel.isEmpty then readuntilLoop sentinel size (password ++ b :: bs) fd
    else
      -- only what has just been read is searched
      let it := search sentinel (b :: bs)
      if it = (b :: bs).length then readuntilLoop sentinel size (password ++ b :: bs) fd
      else .ok (password ++ (b :: bs).take it)
termination_by fd.size
decreasing_by
  · exact Input.size_read_interrupted _hread
  · exact Input.size_read_lt _hread
  · exact Input.size_read_lt _hread

/-- The buffer has `size0` bytes at first. -/
def readuntil (size0 : ℕ) (sentinel : Bytes) (fd : InputFd) : Except Exn Bytes :=
  readuntilLoop sentinel size0 [] fd

/-- Up to the first newline. -/
def readline (fd : InputFd) : Except Exn Bytes := readuntil (getpagesize / 2) [10] fd

/-- What is read if there is a terminal to open. -/
def readPasswordFromTty (tty : Except Exn InputFd) : Except Exn Bytes := do readline (← tty)

/-! ## What is read -/

theorem search_le (sentinel bs : Bytes) : search sentinel bs ≤ bs.length := by
  induction bs with
  | nil => exact Nat.le_refl _
  | cons b bs ih =>
      rw [search]
      split
      · exact Nat.zero_le _
      · exact Nat.succ_le_succ ih

theorem search_singleton (c : Byte) (bs : Bytes) :
    search [c] bs = (bs.takeWhile (· ≠ c)).length := by
  induction bs with
  | nil => rfl
  | cons b bs ih =>
      rw [search, List.takeWhile_cons]
      by_cases hb : b = c
      · simp [hb]
      · simp [hb, Ne.symm hb, ih]

section
variable {size : ℕ} {password : Bytes}

@[simp] theorem readuntilLoop_eof (sentinel : Bytes) :
    readuntilLoop sentinel size password .eof = .ok password := by
  rw [readuntilLoop]
  rfl

@[simp] theorem readuntilLoop_failed (sentinel : Bytes) (e : Errno) :
    readuntilLoop sentinel size password (.failed e) = .error (.systemError e "read() failed") := by
  rw [readuntilLoop]
  rfl

/-- The size that the buffer has when `read` is called: there is room in it. -/
theorem exists_room {length : ℕ} (hsize : 0 < size) (hle : length ≤ size) :
    ∃ k, (if length = size then size * 2 else size) = length + (k + 1) := by
  split
  · next heq => exact ⟨size - 1, by omega⟩
  · next hne => exact ⟨size - length - 1, by omega⟩

section
variable {k : ℕ} (hk : (if password.length = size then size * 2 else size) = password.length + (k + 1))
include hk

theorem readuntilLoop_interrupted (sentinel : Bytes) (rest : InputFd) :
    readuntilLoop sentinel size password (.interrupted rest) =
      readuntilLoop sentinel (password.length + (k + 1)) password rest := by
  rw [readuntilLoop]
  dsimp only
  rw [hk]
  rfl

/-- A piece that is read in one go or cut off where the buffer ends. -/
theorem readuntilLoop_piece (sentinel : Bytes) (b : Byte) (bs : Bytes) (rest : InputFd) :
    readuntilLoop sentinel size password (.piece b bs rest) =
      let it := search sentinel (b :: bs.take k)
      if sentinel.isEmpty ∨ it = (b :: bs.take k).length then
        readuntilLoop sentinel (password.length + (k + 1)) (password ++ b :: bs.take k)
          (.push (bs.drop k) rest)
      else .ok (password ++ (b :: bs.take k).take it) := by
  rw [readuntilLoop]
  dsimp only
  rw [hk, Nat.add_sub_cancel_left]
  by_cases hsentinel : sentinel.isEmpty
  · rw [if_pos (.inl hsentinel)]
    exact if_pos hsentinel
  · rw [if_congr (or_iff_right hsentinel) rfl rfl]
    exact if_neg hsentinel

end

/-- The password that begins with `password` and ends as the calls of `read` do. -/
def completed (password : Bytes) : Except Errno Bytes → Except Exn Bytes
  | .ok bytes => .ok (password ++ bytes)
  | .error e => .error (.systemError e "read() failed")

theorem completed_map (bs : Bytes) (r : Except Errno Bytes) :
    completed password (r.map (bs ++ ·)) = completed (password ++ bs) r := by
  cases r with
  | error e => rfl
  | ok bytes => exact congrArg Except.ok (List.append_assoc ..).symm

theorem piece_eq_push (k : ℕ) (b : Byte) (bs : Bytes) (rest : InputFd) :
    (.piece b bs rest : InputFd) = .push ((b :: bs.take k) ++ bs.drop k) rest := by
  rw [List.cons_append, List.take_append_drop]
  rfl

/-- The calls of `read`, for a buffer of `size` bytes of which `length` are in use. -/
inductive Reading : ℕ → ℕ → InputFd → Prop
  | eof {size length : ℕ} : Reading size length .eof
  | failed {size length : ℕ} (e : Errno) : Reading size length (.failed e)
  | interrupted {size length k : ℕ} {rest : InputFd}
      (hk : (if length = size then size * 2 else size) = length + (k + 1))
      (h : Reading (length + (k + 1)) length rest) : Reading size length (.interrupted rest)
  | piece {size length k : ℕ} {b : Byte} {bs : Bytes} {rest : InputFd}
      (hk : (if length = size then size * 2 else size) = length + (k + 1))
      (h : Reading (length + (k + 1)) (length + (b :: bs.take k).length) (.push (bs.drop k) rest)) :
      Reading size length (.piece b bs rest)

/-- Each of them asks for something, so they come to an end. -/
theorem reading {length : ℕ} (fd : InputFd) (hsize : 0 < size) (hle : length ≤ size) :
    Reading size length fd := by
  induction hfd : fd.size using Nat.strong_induction_on generalizing size length fd with
  | _ n ih =>
      cases fd with
      | eof => exact .eof
      | failed e => exact .failed e
      | interrupted rest =>
          obtain ⟨k, hk⟩ := exists_room hsize hle
          refine .interrupted hk ?_
          exact ih _ (hfd ▸ Nat.lt_succ_self _) rest (Nat.succ_pos _) (Nat.le_add_right ..) rfl
      | piece b bs rest =>
          obtain ⟨k, hk⟩ := exists_room hsize hle
          refine .piece hk ?_
          have hsmaller : (Input.push (bs.drop k) rest).size < n := by
            rw [← hfd, Input.size_push, Input.size, List.length_drop]
            omega
          -- what has been read of the piece fits the buffer
          have hfits : (b :: bs.take k).length ≤ k + 1 :=
            Nat.succ_le_succ (List.length_take_le ..)
          exact ih _ hsmaller _ (Nat.succ_pos _) (Nat.add_le_add_left hfits _) rfl

/-- A sentinel of one byte cannot be cut in two. -/
theorem readuntilLoop_singleton (c : Byte) {fd : InputFd} (h : Reading size password.length fd) :
    readuntilLoop [c] size password fd = completed password (fd.upTo c) := by
  generalize hlength : password.length = length at h
  induction h generalizing password with
  | eof => rw [readuntilLoop_eof, Input.upTo, completed, List.append_nil]
  | failed e => exact readuntilLoop_failed [c] e
  | interrupted hk h ih =>
      subst hlength
      rw [readuntilLoop_interrupted hk]
      exact ih rfl
  | @piece _ _ k b bs rest hk h ih =>
      subst hlength
      rw [readuntilLoop_piece hk, piece_eq_push k, Input.upTo_push_append]
      dsimp only
      rw [search_singleton]
      by_cases hc : c ∈ b :: bs.take k
      · have hfound : ¬ (List.isEmpty [c] = true ∨
            ((b :: bs.take k).takeWhile (· ≠ c)).length = (b :: bs.take k).length) := by
          rintro (h | h)
          · cases h
          · exact Input.length_takeWhile_eq_iff.mp h hc
        rw [if_neg hfound, if_pos hc, completed,
          ← List.prefix_iff_eq_take.mp (List.takeWhile_prefix _)]
      · rw [if_neg hc, if_pos (.inr (Input.length_takeWhile_eq_iff.mpr hc)),
          ih List.length_append, completed_map]

/-- Without a sentinel, everything is read. -/
theorem readuntilLoop_nil {fd : InputFd} (h : Reading size password.length fd) :
    readuntilLoop [] size password fd = completed password fd.contents := by
  generalize hlength : password.length = length at h
  induction h generalizing password with
  | eof => rw [readuntilLoop_eof, Input.contents, completed, List.append_nil]
  | failed e => exact readuntilLoop_failed [] e
  | interrupted hk h ih =>
      subst hlength
      rw [readuntilLoop_interrupted hk]
      exact ih rfl
  | piece hk h ih =>
      subst hlength
      rw [readuntilLoop_piece hk, if_pos (.inl rfl), ih List.length_append, piece_eq_push,
        Input.contents_push_append, completed_map]

/-- The first line, without the newline. -/
theorem readline_eq (fd : InputFd) : readline fd = completed [] (fd.upTo 10) :=
  readuntilLoop_singleton 10 (reading fd (by decide) (Nat.zero_le _))

/-- The whole input. -/
theorem readuntil_nil (fd : InputFd) {size0 : ℕ} (h : 0 < size0) :
    readuntil size0 [] fd = completed [] fd.contents :=
  readuntilLoop_nil (reading fd h (Nat.zero_le _))

end

end PasswordBuffer

end Diffmonger
