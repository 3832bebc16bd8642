import Diffmonger.EncryptionUtil.Reading
import Diffmonger.Lib.Chunks
import Diffmonger.PasswordBuffer

/-!
# Filling a buffer again and again (`ioutil.cpp`)

`readBytes` and `consume` on a file descriptor whose calls of `read` get as much as there is at the
moment, and may be interrupted or fail. The buffers that are passed on are the chunks of what there
is to be read, whatever the single calls get.

Main result: `consume_chunks`. `readBytes` fills the buffer or gets to the end of the input
(`readBytes_eq`), so that `consume` takes chunk after chunk off the front; that a chunk is short
only at the end makes the division unique (`Chunked`).
-/

namespace Diffmonger

namespace InputFd

/-- The loop of `readBytes`, for `room` bytes of the buffer that are not filled yet. -/
def readBytes (room : ℕ) (fd : InputFd) : Except Exn (Bytes × InputFd) :=
  if room = 0 then .ok ([], fd)
  else
    match _hread : fd.read room with
    | (.interrupted, fd) => readBytes room fd
    | (.failed e, _) => .error (.systemError e "read() failed")
    | (.data [], fd) => .ok ([], fd)
    | (.data (b :: bs), fd) =>
      match readBytes (room - (b :: bs).length) fd with
      | .error e => .error e
      | .ok (rest, fd) => .ok (b :: bs ++ rest, fd)
termination_by fd.size
decreasing_by
  · exact Input.size_read_interrupted _hread
  · exact Input.size_read_lt _hread

/-- What is filled into the buffer is not left to be read. -/
theorem size_readBytes (room : ℕ) (fd : InputFd) {read : Bytes} {rest : InputFd}
    (h : readBytes room fd = .ok (read, rest)) : read.length + rest.size ≤ fd.size := by
  fun_induction readBytes room fd generalizing read with
  | case1 fd =>
      cases h
      exact (Nat.zero_add _).le
  | case2 room fd hroom fd' hread ih =>
      exact (ih h).trans (Input.size_read_interrupted hread).le
  | case3 room fd hroom e fd' hread => cases h
  | case4 room fd hroom fd' hread =>
      cases h
      exact (Input.size_of_read_data hread).le
  | case5 room fd hroom b bs fd' hread e hrest => cases h
  | case6 room fd hroom b bs fd' hread more fd'' hrest ih =>
      cases h
      have hsize := Input.size_of_read_data hread
      have hmore := ih hrest
      rw [List.length_append]
      omega

/-- The buffers that `consume` passes to its functor, and how it ends. -/
structure Consumed where
  buffers : List Bytes
  result : Except Exn Unit
  deriving DecidableEq

/-- A buffer of no bytes would be filled again and again. -/
def consume (size : ℕ) (hsize : 0 < size) (fd : InputFd) : Consumed :=
  match _hread : readBytes size fd with
  | .error e => ⟨[], .error e⟩
  | .ok (read, fd) =>
    let passed := if read.length ≠ 0 then [read] else []
    if _hshort : read.length ≠ size then ⟨passed, .ok ()⟩
    else
      let rest := consume size hsize fd
      ⟨passed ++ rest.buffers, rest.result⟩
termination_by fd.size
decreasing_by
  have hlt := size_readBytes _ _ _hread
  omega

/-!
## What is passed on

A call of `readBytes` fills the buffer unless the input ends first. Hence all buffers but the last
one are full, whatever the pieces and interruptions were: the division into buffers is determined by
the data alone.
-/

/-- The buffer is filled with as many bytes as there are, interruptions or not. -/
theorem readBytes_eq (room : ℕ) (fd : InputFd) {data : Bytes} (h : fd.contents = .ok data) :
    ∃ rest, readBytes room fd = .ok (data.take room, rest) ∧
      rest.contents = .ok (data.drop room) := by
  fun_induction readBytes room fd generalizing data with
  | case1 fd => exact ⟨fd, rfl, h⟩
  | case2 room fd hroom fd' hread ih => exact ih (Input.contents_of_read_interrupted hread ▸ h)
  | case3 room fd hroom e fd' hread =>
      rw [Input.contents_of_read_failed hread] at h
      cases h
  | case4 room fd hroom fd' hread =>
      -- the end, with room left in the buffer
      obtain rfl := Input.eq_eof_of_read_nil (Nat.pos_of_ne_zero hroom) hread
      cases hread
      cases h
      rw [List.take_nil, List.drop_nil]
      exact ⟨_, rfl, rfl⟩
  | case5 room fd hroom b bs fd' hread e hrest ih =>
      obtain ⟨hle, hcontents⟩ := Input.contents_of_read_data hread
      obtain ⟨more, hmore, rfl⟩ := ok_of_map (hcontents.symm.trans h)
      obtain ⟨rest, heq, -⟩ := ih hmore
      rw [hrest] at heq
      cases heq
  | case6 room fd hroom b bs fd' hread more fd'' hrest ih =>
      obtain ⟨hle, hcontents⟩ := Input.contents_of_read_data hread
      obtain ⟨data, hdata, rfl⟩ := ok_of_map (hcontents.symm.trans h)
      obtain ⟨rest, heq, hleft⟩ := ih hdata
      rw [hrest] at heq
      cases heq
      refine ⟨fd'', ?_, ?_⟩
      · rw [List.take_append, List.take_of_length_le hle]
      · rw [List.drop_append, List.drop_of_length_le hle, List.nil_append]
        exact hleft

/-- One filling of the buffer. -/
theorem consume_eq {size : ℕ} (hsize : 0 < size) {fd rest : InputFd} {read : Bytes}
    (hread : readBytes size fd = .ok (read, rest)) :
    consume size hsize fd =
      if read.length = size then
        ⟨read :: (consume size hsize rest).buffers, (consume size hsize rest).result⟩
      else ⟨if read = [] then [] else [read], .ok ()⟩ := by
  rw [consume]
  split
  · next e he =>
      rw [hread] at he
      cases he
  · next read' rest' he =>
      obtain ⟨rfl, rfl⟩ := Prod.mk.inj (Except.ok.inj (hread.symm.trans he))
      by_cases hfull : read.length = size
      · have hne : read.length ≠ 0 := by omega
        rw [dif_neg (not_not.mpr hfull), if_pos hfull, if_pos hne]
        rfl
      · rw [dif_pos hfull, if_neg hfull]
        simp only [ne_eq, List.length_eq_zero_iff, ite_not]

/-- The buffers are the chunks of what is read. -/
theorem consume_chunked {size : ℕ} (hsize : 0 < size) (fd : InputFd) {data : Bytes}
    (h : fd.contents = .ok data) :
    ∃ chunks, consume size hsize fd = ⟨chunks, .ok ()⟩ ∧ Chunked size data chunks := by
  induction hlength : data.length using Nat.strong_induction_on generalizing fd data with
  | _ n ih =>
      obtain ⟨rest, hread, hrest⟩ := readBytes_eq size fd h
      rw [consume_eq hsize hread, List.length_take]
      by_cases hfull : size ≤ data.length
      · rw [if_pos (min_eq_left hfull)]
        have hlt : (data.drop size).length < n := by
          rw [List.length_drop]
          omega
        obtain ⟨chunks, heq, hchunked⟩ := ih _ hlt rest hrest rfl
        rw [heq]
        refine ⟨data.take size :: chunks, rfl, ?_⟩
        have hcons := hchunked.cons hsize (List.length_take_of_le hfull)
        rwa [List.take_append_drop] at hcons
      · -- the end has been reached, maybe before anything was read
        have hle : data.length ≤ size := (not_le.mp hfull).le
        rw [if_neg (by omega), List.take_of_length_le hle]
        split
        · next hnil => exact ⟨[], rfl, hnil ▸ .nil⟩
        · next hne => exact ⟨[data], rfl, .last hne hle⟩

end InputFd

/-!
## The frames of `encryptToFd`

`encryptToFd` makes a frame of every buffer that it is passed. If reading fails, the frames of the
buffers before are there, but not the last one.
-/

namespace EncryptionUtil.Reading

variable {σ : Type} {sodium : Sodium σ}

/-- A frame for each buffer, and then, unless reading has failed, the last one. -/
def pushBuffers (sodium : Sodium σ) (result : Except Exn Unit) : σ → List Bytes → Stream
  | state, [] =>
    match result with
    | .ok () => frame (sodium.push state [] tagFinal).1
    | .error e => Stream.fail e
  | state, buffer :: rest =>
    let (ciphertext, state) := sodium.push state buffer 0
    (frame ciphertext).andThen (pushBuffers sodium result state rest)

/-- `encryptToFd`, from a file descriptor that may interrupt calls, or fail. -/
def encryptFromInput (sodium : Sodium σ) (random : Randomness) (keyPairs : List KeyPair)
    (fromfd : InputFd) : Stream :=
  if !sodium.init then Stream.fail (.runtimeError "libsodium init failed")
  else (sealSymKey sodium random keyPairs 0).andThen <|
    match sodium.initPush random.header random.symKey with
    | none => Stream.fail (.runtimeError "Failed to init secret stream")
    | some (state, header) =>
      let consumed := fromfd.consume plaintextChunkSize (by decide)
      (Stream.write header.toList).andThen
        (pushBuffers sodium consumed.result state consumed.buffers)

theorem pushBuffers_ok (state : σ) (buffers : List Bytes) :
    pushBuffers sodium (.ok ()) state buffers = pushBlocks sodium state buffers := by
  induction buffers generalizing state with
  | nil => rfl
  | cons buffer rest ih =>
      rw [pushBuffers, pushBlocks]
      simp only [ih]

theorem encryptFromInput_eq (random : Randomness) (keyPairs : List KeyPair) {fromfd : InputFd}
    {data : Bytes} (h : fromfd.contents = .ok data) :
    encryptFromInput sodium random keyPairs fromfd =
      EncryptionUtil.encryptToFd sodium random keyPairs data := by
  obtain ⟨chunks, heq, hchunked⟩ :=
    InputFd.consume_chunked (show 0 < plaintextChunkSize by decide) fromfd h
  rw [encryptFromInput, heq, hchunked.unique (blocks_chunked data)]
  simp only [pushBuffers_ok]
  rfl

end EncryptionUtil.Reading

namespace InputFd

/-- However the calls of `read` divide the data, and are interrupted, `consume` returns, and passes
on the chunks of the data; so what `encryptToFd` writes depends on the data only. -/
theorem consume_chunks (size : ℕ) (hsize : 1 ≤ size) (data : Bytes) :
    (∃ chunks, Chunked size data chunks ∧
      ∀ fd : InputFd, fd.contents = .ok data → consume size hsize fd = ⟨chunks, .ok ()⟩) ∧
    ∀ {σ : Type} (sodium : Sodium σ) (random : Randomness) (keyPairs : List KeyPair) (fd : InputFd),
      fd.contents = .ok data →
        EncryptionUtil.Reading.encryptFromInput sodium random keyPairs fd =
          EncryptionUtil.encryptToFd sodium random keyPairs data := by
  refine ⟨?_, fun sodium random keyPairs fd h =>
    EncryptionUtil.Reading.encryptFromInput_eq random keyPairs h⟩
  have hwhole : (Input.push data .eof : InputFd).contents = .ok data := by
    rw [Input.contents_push, Input.contents, Except.map, List.append_nil]
  obtain ⟨chunks, -, hchunked⟩ := consume_chunked hsize _ hwhole
  refine ⟨chunks, hchunked, fun fd h => ?_⟩
  obtain ⟨chunks', heq, hchunked'⟩ := consume_chunked hsize fd h
  rw [heq, hchunked'.unique hchunked]

/-- Three bytes and a buffer of two, read one byte at a time and with an interruption. -/
theorem consume_chunks_three :
    consume 2 (by decide) (.piece 1 [] (.interrupted (.piece 2 [] (.piece 3 [] .eof)))) =
      ⟨[[1, 2], [3]], .ok ()⟩ := by
  obtain ⟨chunks, hchunked, hall⟩ := (consume_chunks 2 (by decide) [1, 2, 3]).1
  have hexpected : Chunked 2 [(1 : Byte), 2, 3] [[1, 2], [3]] :=
    ⟨rfl, by decide, by decide, by decide⟩
  rw [← hchunked.unique hexpected]
  exact hall _ rfl

end InputFd

end Diffmonger
