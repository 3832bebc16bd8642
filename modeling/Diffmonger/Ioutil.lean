import Diffmonger.Serialisation

/-!
# Reading from a file descriptor (`ioutil.cpp`)

`read` returns as much as it can get at once, which need not be as much as was asked for. An `Fd` is
what is left to be read from a file descriptor, divided into the pieces that single calls of `read`
get. The functions of `ioutil` call it until they have what they need: what they return depends on
the bytes only, and not on how these are divided.

Interrupted calls, which are repeated, are left out.
-/

namespace Diffmonger

/-- What is left to be read; an empty piece would be taken for the end of the file. -/
structure Fd where
  pieces : List Bytes
  nonempty : ∀ piece ∈ pieces, piece ≠ []

namespace Fd

/-- All bytes that are left. -/
def bytes (fd : Fd) : Bytes := fd.pieces.flatten

/-- The system call: at most `n` bytes of the next piece. -/
def read (n : ℕ) : Fd → Bytes × Fd
  | ⟨[], h⟩ => ([], ⟨[], h⟩)
  | ⟨piece :: rest, h⟩ =>
    if hlt : n < piece.length then
      (piece.take n, ⟨piece.drop n :: rest, by
        intro p hp
        rcases List.mem_cons.mp hp with rfl | hp
        · exact List.ne_nil_of_length_pos (by rw [List.length_drop]; omega)
        · exact h p (List.mem_cons_of_mem _ hp)⟩)
    else (piece, ⟨rest, fun p hp => h p (List.mem_cons_of_mem _ hp)⟩)

/-- A file descriptor that is read in one go. -/
def whole (data : Bytes) : Fd where
  pieces := if data = [] then [] else [data]
  nonempty := by split <;> simp_all

@[simp] theorem bytes_whole (data : Bytes) : (whole data).bytes = data := by
  unfold whole bytes
  split <;> simp_all

/-- `read` takes bytes off the front, at least one unless the end is reached. -/
theorem read_spec (n : ℕ) (fd : Fd) :
    (fd.read n).1 ++ (fd.read n).2.bytes = fd.bytes ∧ (fd.read n).1.length ≤ n ∧
      ((fd.read n).1 = [] → n = 0 ∨ fd.bytes = []) := by
  obtain ⟨pieces, h⟩ := fd
  cases pieces with
  | nil => exact ⟨rfl, n.zero_le, fun _ => .inr rfl⟩
  | cons piece rest =>
      have hne : piece ≠ [] := h piece List.mem_cons_self
      rw [read]
      split
      · next hlt =>
          refine ⟨?_, List.length_take_le _ _, fun hnil => .inl ?_⟩
          · simp [bytes, ← List.append_assoc]
          · by_contra hpos
            exact hne ((List.take_eq_nil_iff.mp hnil).resolve_left hpos)
      · next hle => exact ⟨rfl, Nat.le_of_not_lt hle, fun hnil => absurd hnil hne⟩

end Fd

namespace Ioutil

/-! ## `readBytes` -/

/-- The loop, for `room` bytes of the buffer that are not filled yet. -/
def readBytesLoop : ℕ → (room : ℕ) → Fd → Bytes × Fd
  | 0, _, fd => ([], fd)
  | fuel + 1, room, fd =>
    if room = 0 then ([], fd)
    else
      let (read, fd) := fd.read room
      if read = [] then ([], fd)
      else
        let (rest, fd) := readBytesLoop fuel (room - read.length) fd
        (read ++ rest, fd)

/-- Every call of `read` before the end fills a byte, which bounds the number of iterations. -/
def readBytes (size : ℕ) (fd : Fd) : Bytes × Fd := readBytesLoop size size fd

/-- As many bytes as there is room for are taken off the front, however they are divided. -/
theorem readBytesLoop_spec (fuel : ℕ) :
    ∀ (room : ℕ) (fd : Fd), room ≤ fuel →
      (readBytesLoop fuel room fd).1 = fd.bytes.take room ∧
        (readBytesLoop fuel room fd).2.bytes = fd.bytes.drop room := by
  induction fuel with
  | zero =>
      intro room fd hle
      obtain rfl : room = 0 := Nat.le_zero.mp hle
      exact ⟨rfl, rfl⟩
  | succ fuel ih =>
      intro room fd hle
      obtain ⟨hbytes, hlength, hend⟩ := fd.read_spec room
      rw [readBytesLoop]
      split
      · next hroom =>
          subst hroom
          exact ⟨rfl, rfl⟩
      · next hroom =>
          dsimp only
          split
          · next hnil =>
              have hdata : fd.bytes = [] := (hend hnil).resolve_left hroom
              rw [hnil, List.nil_append] at hbytes
              rw [hbytes, hdata]
              exact ⟨(List.take_nil).symm, (List.drop_nil).symm⟩
          · next hne =>
              have hpos : 0 < (fd.read room).1.length := List.length_pos_iff.mpr hne
              obtain ⟨htake, hdrop⟩ := ih (room - (fd.read room).1.length) (fd.read room).2
                (by omega)
              rw [htake, hdrop, ← hbytes, List.take_append, List.drop_append,
                List.take_of_length_le hlength, List.drop_of_length_le hlength, List.nil_append]
              exact ⟨rfl, rfl⟩

/-- `readBytes` fills the buffer as far as there are bytes. -/
theorem readBytes_spec (size : ℕ) (fd : Fd) :
    (readBytes size fd).1 = fd.bytes.take size ∧
      (readBytes size fd).2.bytes = fd.bytes.drop size :=
  readBytesLoop_spec size size fd le_rfl

/-! ## `readBytesExact` -/

/-- The bytes read, and what is left to be read. -/
def readBytesExactFd (n : ℕ) (fd : Fd) : Except Exn (List.Vector Byte n × Fd) :=
  let (read, fd) := readBytes n fd
  if h : read.length = n then .ok (⟨read, h⟩, fd)
  else .error (.runtimeError "Unexpected EOF")

/-- What reading from a file descriptor comes to on the bytes themselves. -/
def onBytes {α : Type} : Except Exn (α × Fd) → Except Exn (α × Bytes) :=
  Except.map fun x => (x.1, x.2.bytes)

theorem onBytes_readBytesExactFd (n : ℕ) (fd : Fd) :
    onBytes (readBytesExactFd n fd) = readBytesExact n fd.bytes := by
  obtain ⟨hread, hrest⟩ := readBytes_spec n fd
  have hlength : (readBytes n fd).1.length = n ↔ n ≤ fd.bytes.length := by
    rw [hread, List.length_take]
    omega
  rw [readBytesExactFd, readBytesExact]
  dsimp only
  split
  · next h =>
      rw [dif_pos (hlength.mp h)]
      refine congrArg Except.ok (Prod.ext (Subtype.ext ?_) hrest)
      exact hread
  · next h =>
      rw [dif_neg (fun hle => h (hlength.mpr hle))]
      rfl

/-! ## `consume` -/

/-- The buffers that are passed to the functor. -/
def consumeLoop (size : ℕ) : ℕ → Fd → List Bytes
  | 0, _ => []
  | fuel + 1, fd =>
    let (read, fd) := readBytes size fd
    let passed := if read.length ≠ 0 then [read] else []
    if read.length ≠ size then passed else passed ++ consumeLoop size fuel fd

/-- Every iteration before the last one takes bytes, which bounds the number of iterations. -/
def consume (size : ℕ) (fd : Fd) : List Bytes := consumeLoop size (fd.bytes.length + 1) fd

end Ioutil

end Diffmonger
