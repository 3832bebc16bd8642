import Diffmonger.PasswordBuffer
import Mathlib.Data.Vector.Basic

/-!
# The buffers that are read into (`PasswordBuffer::readuntil`, `PasswordBuffer::resizedTo`)

While it is read, a password is the front of a buffer. What a new buffer holds is not known; when it
gets too small, it is copied to one of twice the size. A buffer has room for one byte more than its
size says, which the null terminator may be put into, and which the model leaves out.

Main result: `readuntil_eq`. The front of the buffer is the invariant, and what is behind it is of
no importance: growing copies the front (`take_resizedTo`), and reading appends to it
(`take_receive`).
-/

namespace Diffmonger.PasswordBuffer.Buffers

/-- What new buffers hold, by their size. -/
abbrev Fresh := (size : ℕ) → List.Vector Byte size

def resizedTo (fresh : Fresh) (newlen : ℕ) (buffer : Bytes) : Bytes :=
  let n := min newlen buffer.length
  buffer.take n ++ ((fresh newlen).toList.set n 0).drop n

/-- What is returned of a buffer of which `length` bytes are in use. -/
def trimmed (fresh : Fresh) (length : ℕ) (buffer : Bytes) : Bytes :=
  resizedTo fresh length (buffer.set length 0)

/-- What `read` does to the buffer if it gets the bytes `bs`. -/
def receive (buffer : Bytes) (length : ℕ) (bs : Bytes) : Bytes :=
  buffer.take length ++ bs ++ buffer.drop (length + bs.length)

/-- The loop, for a buffer of which `length` bytes are in use. -/
def readuntilLoop (fresh : Fresh) (sentinel : Bytes) (buffer : Bytes) (length : ℕ) (fd : InputFd) :
    Except Exn Bytes :=
  let buffer := if length = buffer.length then resizedTo fresh (buffer.length * 2) buffer else buffer
  match _hread : fd.read (buffer.length - length) with
  | (.interrupted, fd) => readuntilLoop fresh sentinel buffer length fd
  | (.failed e, _) => .error (.systemError e "read() failed")
  | (.data [], _) => .ok (trimmed fresh length buffer)
  | (.data (b :: bs), fd) =>
    let nread := (b :: bs).length
    let buffer := receive buffer length (b :: bs)
    if sentinel.isEmpty then readuntilLoop fresh sentinel buffer (length + nread) fd
    else
      let it := search sentinel ((buffer.drop length).take nread)
      if it = nread then readuntilLoop fresh sentinel buffer (length + it) fd
      else .ok (trimmed fresh (length + it) buffer)
termination_by fd.size
decreasing_by
  · exact Input.size_read_interrupted _hread
  · exact Input.size_read_lt _hread
  · exact Input.size_read_lt _hread

def readuntil (fresh : Fresh) (size0 : ℕ) (sentinel : Bytes) (fd : InputFd) : Except Exn Bytes :=
  readuntilLoop fresh sentinel (fresh size0).toList 0 fd

/-!
## The front of a buffer

Only the front of a buffer means anything, up to the length in use. Growing the buffer keeps the
front; what is behind it may be anything (`Fresh`).
-/

section
variable (fresh : Fresh) {buffer : Bytes} {length n : ℕ} {bs : Bytes}

@[simp] theorem length_resizedTo : (resizedTo fresh n buffer).length = n := by
  rw [resizedTo, List.length_append, List.length_drop, List.length_set, List.length_take,
    List.Vector.toList_length]
  omega

/-- A greater buffer begins with what the smaller one holds. -/
theorem take_resizedTo (hbuffer : length ≤ buffer.length) (hn : length ≤ n) :
    (resizedTo fresh n buffer).take length = buffer.take length := by
  rw [resizedTo, List.take_append_of_le_length, List.take_take, Nat.min_eq_left]
  · exact le_min hn hbuffer
  · rw [List.length_take]
    omega

theorem trimmed_eq (h : n ≤ buffer.length) : trimmed fresh n buffer = buffer.take n := by
  have hset : n ≤ (buffer.set n 0).length := by rwa [List.length_set]
  have htake := take_resizedTo fresh hset (Nat.le_refl n)
  rw [List.take_of_length_le (length_resizedTo fresh).le, List.take_set_of_le (Nat.le_refl n)] at htake
  exact htake

@[simp] theorem length_receive (h : length + bs.length ≤ buffer.length) :
    (receive buffer length bs).length = buffer.length := by
  rw [receive, List.length_append, List.length_append, List.length_take, List.length_drop]
  omega

theorem take_receive (h : length ≤ buffer.length) (hn : n ≤ bs.length) :
    (receive buffer length bs).take (length + n) = buffer.take length ++ bs.take n := by
  have hlength : (buffer.take length).length = length := List.length_take_of_le h
  rw [receive, List.append_assoc]
  nth_rewrite 1 [← hlength]
  rw [List.take_length_add_append, List.take_append_of_le_length hn]

theorem take_drop_receive (h : length ≤ buffer.length) :
    ((receive buffer length bs).drop length).take bs.length = bs := by
  have hlength : (buffer.take length).length = length := List.length_take_of_le h
  rw [receive, List.append_assoc]
  nth_rewrite 1 [← hlength]
  rw [List.drop_left, List.take_left]

end

/-!
## What is read

By induction along the calls: the front of the buffer is the same as the bytes of the simpler model,
in which there is no buffer. So both read the same, and fail alike.
-/

section
variable (fresh : Fresh) {buffer : Bytes} {length : ℕ}

theorem length_doubled :
    (if length = buffer.length then resizedTo fresh (buffer.length * 2) buffer else buffer).length =
      if length = buffer.length then buffer.length * 2 else buffer.length := by
  split
  · exact length_resizedTo fresh
  · rfl

theorem take_doubled (hle : length ≤ buffer.length) :
    (if length = buffer.length then resizedTo fresh (buffer.length * 2) buffer else buffer).take
      length = buffer.take length := by
  split
  · exact take_resizedTo fresh hle (by omega)
  · rfl

end

section
variable {fresh : Fresh} {sentinel buffer doubled : Bytes} {length k : ℕ}
  (hdoubled : (if length = buffer.length then resizedTo fresh (buffer.length * 2) buffer else buffer) =
    doubled)
  (hroom : doubled.length = length + (k + 1))
include hdoubled hroom

theorem readuntilLoop_interrupted (rest : InputFd) :
    readuntilLoop fresh sentinel buffer length (.interrupted rest) =
      readuntilLoop fresh sentinel doubled length rest := by
  rw [readuntilLoop, hdoubled, hroom]
  rfl

/-- What is searched are the bytes that have just been put into the buffer. -/
theorem readuntilLoop_piece (b : Byte) (bs : Bytes) (rest : InputFd) :
    readuntilLoop fresh sentinel buffer length (.piece b bs rest) =
      let stored := receive doubled length (b :: bs.take k)
      let it := search sentinel (b :: bs.take k)
      if sentinel.isEmpty ∨ it = (b :: bs.take k).length then
        readuntilLoop fresh sentinel stored (length + (b :: bs.take k).length)
          (.push (bs.drop k) rest)
      else .ok (trimmed fresh (length + it) stored) := by
  have hsearched : ((receive doubled length (b :: bs.take k)).drop length).take
      (b :: bs.take k).length = b :: bs.take k := take_drop_receive (by omega)
  rw [readuntilLoop, hdoubled, hroom, Nat.add_sub_cancel_left]
  by_cases hsentinel : sentinel.isEmpty
  · rw [if_pos (.inl hsentinel)]
    exact if_pos hsentinel
  · rw [if_congr (or_iff_right hsentinel) rfl rfl]
    refine (if_neg hsentinel).trans ?_
    dsimp only
    rw [hsearched]
    split
    · next heq =>
        rw [heq]
        rfl
    · rfl

end

/-- The loop reads what it reads without regard to buffers. -/
theorem readuntilLoop_eq (fresh : Fresh) (sentinel : Bytes) {buffer : Bytes} {length : ℕ}
    {fd : InputFd} (h : Reading buffer.length length fd) (hle : length ≤ buffer.length) :
    readuntilLoop fresh sentinel buffer length fd =
      PasswordBuffer.readuntilLoop sentinel buffer.length (buffer.take length) fd := by
  generalize hsize : buffer.length = size at h
  induction h generalizing buffer with
  | eof =>
      subst hsize
      rw [PasswordBuffer.readuntilLoop_eof, readuntilLoop]
      refine congrArg Except.ok ((trimmed_eq fresh ?_).trans (take_doubled fresh hle))
      rw [length_doubled]
      split <;> omega
  | failed e =>
      rw [PasswordBuffer.readuntilLoop_failed, readuntilLoop]
      rfl
  | @interrupted size length k rest hk h ih =>
      subst hsize
      have hroom := (length_doubled fresh).trans hk
      have hlength := List.length_take_of_le hle
      rw [readuntilLoop_interrupted rfl hroom, ih (by omega) hroom, take_doubled fresh hle,
        PasswordBuffer.readuntilLoop_interrupted (k := k) (by rwa [hlength]), hlength]
  | @piece size length k b bs rest hk h ih =>
      subst hsize
      have hroom := (length_doubled fresh).trans hk
      have htake := take_doubled fresh hle
      have hlength := List.length_take_of_le hle
      rw [readuntilLoop_piece rfl hroom,
        PasswordBuffer.readuntilLoop_piece (k := k) (by rwa [hlength]), hlength]
      generalize (if length = buffer.length then resizedTo fresh (buffer.length * 2) buffer
        else buffer) = doubled at hroom htake
      have hfits : length + (b :: bs.take k).length ≤ doubled.length := by
        rw [hroom]
        exact Nat.add_le_add_left (Nat.succ_le_succ (List.length_take_le ..)) _
      have hstored := length_receive hfits
      -- the bytes are behind those that were there before
      have hfront (n : ℕ) (hn : n ≤ (b :: bs.take k).length) :
          (receive doubled length (b :: bs.take k)).take (length + n) =
            buffer.take length ++ (b :: bs.take k).take n := by
        rw [take_receive (by omega) hn, htake]
      dsimp only
      split
      · rw [ih (by omega) (hstored.trans hroom), hfront _ le_rfl, List.take_length]
      · have hsearch := search_le sentinel (b :: bs.take k)
        rw [trimmed_eq fresh (by omega), hfront _ hsearch]

theorem readuntil_eq (fresh : Fresh) {size0 : ℕ} (hsize : 0 < size0) (sentinel : Bytes)
    (fd : InputFd) : readuntil fresh size0 sentinel fd = PasswordBuffer.readuntil size0 sentinel fd := by
  have hlength : (fresh size0).toList.length = size0 := (fresh size0).toList_length
  rw [readuntil, readuntilLoop_eq fresh sentinel (hlength.symm ▸ reading fd hsize (Nat.zero_le _))
    (Nat.zero_le _), hlength]
  rfl

end Diffmonger.PasswordBuffer.Buffers
