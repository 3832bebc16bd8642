import Diffmonger.EncryptionUtil.Spec
import Diffmonger.Ioutil

/-!
# Encryption, read by read

`encryptToFd` and `decryptFromFd` as they read their input, through the functions of `ioutil`. They
do to a file descriptor what `EncryptionUtil.lean` has them do to its bytes, however these are
divided (`encryptToFd_eq`, `decryptFromFd_eq`): each of the functions that they call is one that
reads a certain number of bytes, or fails.

Main result: `decrypts_encrypted`, which puts this together with what is known of the bytes.
-/

namespace Diffmonger

open Serialisation Ioutil

variable {σ : Type}

namespace EncryptionUtil.Reading

section
variable (sodium : Sodium σ)

def encryptToFd (random : Randomness) (keyPairs : List KeyPair) (fromfd : Fd) : Stream :=
  if !sodium.init then Stream.fail (.runtimeError "libsodium init failed")
  else (sealSymKey sodium random keyPairs 0).andThen <|
    match sodium.initPush random.header random.symKey with
    | none => Stream.fail (.runtimeError "Failed to init secret stream")
    | some (state, header) =>
      (Stream.write header.toList).andThen
        (pushBlocks sodium state (Ioutil.consume plaintextChunkSize fromfd))

/-- The bytes of an array from an index on. -/
def slice {m : ℕ} (bytes : List.Vector Byte m) (i n : ℕ) (h : i + n ≤ m) : List.Vector Byte n :=
  ⟨(bytes.toList.drop i).take n, by
    rw [List.length_take, List.length_drop, bytes.toList_length]; omega⟩

def openSymKeyLoop (decryptedKeyPair : DecryptedKeyPair) :
    ℕ → Fd → Option (ByteArray' 32) → Except Exn (Option (ByteArray' 32) × Fd)
  | 0, _, _ => .error (.runtimeError "Unexpected EOF")
  | fuel + 1, fromfd, symKey => do
    let (entry, fromfd) ← readBytesExactFd (16 + 80 + 1) fromfd
    let keyId := slice entry 0 16 (by decide)
    let encryptedSymKey := slice entry 16 80 (by decide)
    let isLast := slice entry 96 1 (by decide)
    let symKey ←
      if keyId = decryptedKeyPair.keyPair.getKeyId then
        match sodium.boxSealOpen encryptedSymKey decryptedKeyPair.keyPair.pubKey
            decryptedKeyPair.privKeyPlaintext with
        | some symKey => pure (some symKey)
        | none => throw (.runtimeError "Error decrypting session key")
      else pure symKey
    if isLast.head ≠ 0 then return (symKey, fromfd)
    else openSymKeyLoop decryptedKeyPair fuel fromfd symKey

def openSymKey (decryptedKeyPair : DecryptedKeyPair) (fromfd : Fd) :
    Except Exn (ByteArray' 32 × Fd) := do
  let (symKey, fromfd) ←
    openSymKeyLoop sodium decryptedKeyPair (fromfd.bytes.length + 1) fromfd none
  match symKey with
  | some symKey => return (symKey, fromfd)
  | none => throw (.runtimeError "Decryption key not present in any key slot")

def readFrame (fromfd : Fd) : Except Exn (Bytes × Fd) := do
  let (nbytesbuf, fromfd) ← readBytesExactFd 4 fromfd
  let nbytes := min ciphertextMaxChunkSize (LittleEndian.fromBytes 4 nbytesbuf.toList).toNat
  let (buf, fromfd) ← readBytesExactFd nbytes fromfd
  return (buf.toList, fromfd)

def pullLoop : ℕ → σ → Fd → Stream
  | 0, _, _ => Stream.fail (.runtimeError "Unexpected EOF")
  | fuel + 1, state, fromfd =>
    match readFrame fromfd with
    | .error e => Stream.fail e
    | .ok (buf, fromfd) =>
      match sodium.pull state buf with
      | none => Stream.fail (.runtimeError "Failed to decrypt data")
      | some ((message, tag), state) =>
        (Stream.write message).andThen <|
          if tag = 0 then pullLoop fuel state fromfd
          else if tag ≠ tagFinal then
            Stream.fail (.runtimeError "Invalid data (tag) while decrypting")
          else ⟨[], .ok ()⟩

def decryptFromFd (decryptedKeyPair : DecryptedKeyPair) (fromfd : Fd) : Stream :=
  if !sodium.init then Stream.fail (.runtimeError "libsodium init failed")
  else
    match openSymKey sodium decryptedKeyPair fromfd with
    | .error e => Stream.fail e
    | .ok (symKey, fromfd) =>
      match readBytesExactFd 24 fromfd with
      | .error e => Stream.fail e
      | .ok (header, fromfd) =>
        match sodium.initPull header symKey with
        | none => Stream.fail (.runtimeError "Failed to init secret stream")
        | some state => pullLoop sodium (fromfd.bytes.length + 1) state fromfd

end

/-!
## What it comes to on the bytes

One equation for each function. What `readBytesExact` gets from a file descriptor does not depend on
how its bytes are divided, and neither does what `consume` passes on; the rest follows by going
through the two definitions side by side.
-/

section
variable {sodium : Sodium σ}

/-- The buffers that `consume` passes on are the blocks of the input. -/
theorem consumeLoop_eq_blocks {fuel : ℕ} {fd : Fd} (h : fd.bytes.length < fuel) :
    consumeLoop plaintextChunkSize fuel fd = blocks fd.bytes := by
  induction fuel generalizing fd with
  | zero => exact absurd h (Nat.not_lt_zero _)
  | succ fuel ih =>
      obtain ⟨hread, hrest⟩ := readBytes_spec plaintextChunkSize fd
      have hpos : 0 < plaintextChunkSize := by decide
      rw [consumeLoop]
      simp only [hread, List.length_take]
      by_cases hshort : fd.bytes.length < plaintextChunkSize
      · -- the end has been reached
        rw [if_pos (by omega), min_eq_right hshort.le, List.take_of_length_le hshort.le]
        rcases eq_or_ne fd.bytes [] with hnil | hne
        · rw [hnil]
          rfl
        · rw [if_pos (List.length_pos_iff.mpr hne).ne', blocks_of_ne_nil hne,
            List.take_of_length_le hshort.le, List.drop_of_length_le hshort.le, blocks_nil]
      · have hne : fd.bytes ≠ [] := List.ne_nil_of_length_pos (by omega)
        rw [if_neg (by omega), if_pos (by omega), ih (by rw [hrest, List.length_drop]; omega), hrest,
          blocks_of_ne_nil hne]
        rfl

theorem encryptToFd_eq (random : Randomness) (keyPairs : List KeyPair) (fromfd : Fd) :
    encryptToFd sodium random keyPairs fromfd =
      EncryptionUtil.encryptToFd sodium random keyPairs fromfd.bytes := by
  rw [encryptToFd, Ioutil.consume, consumeLoop_eq_blocks (Nat.lt_succ_self _)]
  rfl

/-- What is read from the file descriptor in sequence. -/
theorem onBytes_bind {α γ : Type} {p : Except Exn (α × Fd)} {q : Except Exn (α × Bytes)}
    {k : α × Fd → Except Exn (γ × Fd)} {k' : α × Bytes → Except Exn (γ × Bytes)}
    (hp : onBytes p = q) (hk : ∀ x fd, onBytes (k (x, fd)) = k' (x, fd.bytes)) :
    onBytes (p >>= k) = q >>= k' := by
  subst hp
  cases p with
  | error e => rfl
  | ok x => exact hk x.1 x.2

/-- The three parts of an entry. -/
def split (entry : List.Vector Byte (16 + 80 + 1)) : ByteArray' 16 × ByteArray' 80 × ByteArray' 1 :=
  (slice entry 0 16 (by decide), slice entry 16 80 (by decide), slice entry 96 1 (by decide))

theorem toList_split (entry : List.Vector Byte (16 + 80 + 1)) :
    (split entry).1.toList ++ (split entry).2.1.toList ++ (split entry).2.2.toList =
      entry.toList := by
  have hlength := entry.toList_length
  show (entry.toList.drop 0).take 16 ++ (entry.toList.drop 16).take 80 ++
    (entry.toList.drop 96).take 1 = _
  have hlast : (entry.toList.drop 96).take 1 = entry.toList.drop 96 :=
    List.take_of_length_le (by rw [List.length_drop]; omega)
  rw [hlast, List.drop_zero, List.append_assoc]
  have hmiddle : entry.toList.drop 96 = (entry.toList.drop 16).drop 80 := by rw [List.drop_drop]
  rw [hmiddle, List.take_append_drop, List.take_append_drop]

/-- An entry is read as a whole. -/
theorem readEntry_eq (data : Bytes) :
    readEntry data = (readBytesExact (16 + 80 + 1) data).map fun x => (split x.1, x.2) := by
  have hread (entry : List.Vector Byte (16 + 80 + 1)) :
      Reads (· = unexpectedEof) readEntry entry.toList (split entry) :=
    (reads_readEntry _ _ _).congr (toList_split entry) rfl
  by_cases h : 16 + 80 + 1 ≤ data.length
  · have hdata : data = (takeVector (16 + 80 + 1) data h).toList ++ data.drop (16 + 80 + 1) :=
      (List.take_append_drop _ _).symm
    rw [readBytesExact, dif_pos h]
    conv_lhs => rw [hdata]
    exact (hread _).append _
  · -- data that is too short is the beginning of some entry
    have hlength : (data ++ List.replicate (16 + 80 + 1 - data.length) (0 : Byte)).length =
        16 + 80 + 1 := by
      rw [List.length_append, List.length_replicate]
      omega
    obtain ⟨_, rfl, hfail⟩ := (hread ⟨_, hlength⟩).truncated data (List.prefix_append _ _)
      fun heq => h (by rw [← hlength]; exact (congrArg List.length heq).ge)
    rw [readBytesExact, dif_neg h, hfail]
    rfl

theorem openSymKeyLoop_succ (decryptedKeyPair : DecryptedKeyPair) (fuel : ℕ) (fromfd : Fd)
    (symKey : Option (ByteArray' 32)) :
    openSymKeyLoop sodium decryptedKeyPair (fuel + 1) fromfd symKey =
      (readBytesExactFd (16 + 80 + 1) fromfd >>= fun x =>
        tryEntry sodium decryptedKeyPair (split x.1).1 (split x.1).2.1 symKey >>= fun symKey =>
          if (split x.1).2.2.head ≠ 0 then .ok (symKey, x.2)
          else openSymKeyLoop sodium decryptedKeyPair fuel x.2 symKey) := by
  rw [openSymKeyLoop]
  refine bind_congr fun x => ?_
  show (if (split x.1).1 = decryptedKeyPair.keyPair.getKeyId then _ else _) = _
  rw [tryEntry]
  by_cases hid : (split x.1).1 = decryptedKeyPair.keyPair.getKeyId
  · simp only [if_pos hid]
    show (match sodium.boxSealOpen (split x.1).2.1 _ _ with
      | some symKey => _
      | none => _) = _
    cases sodium.boxSealOpen (split x.1).2.1 decryptedKeyPair.keyPair.pubKey
      decryptedKeyPair.privKeyPlaintext <;> rfl
  · simp only [if_neg hid]
    rfl

/-- Entry by entry. -/
theorem onBytes_openSymKeyLoop (decryptedKeyPair : DecryptedKeyPair) (fuel : ℕ) (fromfd : Fd)
    (symKey : Option (ByteArray' 32)) :
    onBytes (openSymKeyLoop sodium decryptedKeyPair fuel fromfd symKey) =
      EncryptionUtil.openSymKeyLoop sodium decryptedKeyPair fuel fromfd.bytes symKey := by
  induction fuel generalizing fromfd symKey with
  | zero => rfl
  | succ fuel ih =>
      rw [openSymKeyLoop_succ, EncryptionUtil.openSymKeyLoop_succ, readEntry_eq,
        ← onBytes_readBytesExactFd]
      cases readBytesExactFd (16 + 80 + 1) fromfd with
      | error e => rfl
      | ok x =>
          show onBytes (tryEntry sodium decryptedKeyPair (split x.1).1 (split x.1).2.1 symKey >>= _) =
            tryEntry sodium decryptedKeyPair (split x.1).1 (split x.1).2.1 symKey >>= _
          cases tryEntry sodium decryptedKeyPair (split x.1).1 (split x.1).2.1 symKey with
          | error e => rfl
          | ok symKey =>
              show onBytes (if (split x.1).2.2.head ≠ 0 then _ else _) =
                if (split x.1).2.2.head ≠ 0 then _ else _
              split
              · rfl
              · exact ih x.2 symKey

theorem onBytes_openSymKey (decryptedKeyPair : DecryptedKeyPair) (fromfd : Fd) :
    onBytes (openSymKey sodium decryptedKeyPair fromfd) =
      EncryptionUtil.openSymKey sodium decryptedKeyPair fromfd.bytes := by
  refine onBytes_bind (onBytes_openSymKeyLoop ..) fun symKey fd => ?_
  cases symKey <;> rfl

theorem onBytes_readFrame (fromfd : Fd) :
    onBytes (readFrame fromfd) = EncryptionUtil.readFrame fromfd.bytes :=
  onBytes_bind (onBytes_readBytesExactFd ..) fun _ _ =>
    onBytes_bind (onBytes_readBytesExactFd ..) fun _ _ => rfl

theorem pullLoop_eq (fuel : ℕ) (state : σ) (fromfd : Fd) :
    pullLoop sodium fuel state fromfd =
      EncryptionUtil.pullLoop sodium fuel state fromfd.bytes := by
  induction fuel generalizing state fromfd with
  | zero => rfl
  | succ fuel ih =>
      rw [pullLoop, EncryptionUtil.pullLoop, ← onBytes_readFrame]
      cases readFrame fromfd with
      | error e => rfl
      | ok x =>
          simp only [onBytes, Except.map]
          cases sodium.pull state x.1 with
          | none => rfl
          | some y => simp only [ih]

theorem decryptFromFd_eq (decryptedKeyPair : DecryptedKeyPair) (fromfd : Fd) :
    decryptFromFd sodium decryptedKeyPair fromfd =
      EncryptionUtil.decryptFromFd sodium decryptedKeyPair fromfd.bytes := by
  rw [decryptFromFd, EncryptionUtil.decryptFromFd, ← onBytes_openSymKey]
  cases openSymKey sodium decryptedKeyPair fromfd with
  | error e => rfl
  | ok x =>
      simp only [onBytes, Except.map]
      rw [← onBytes_readBytesExactFd]
      cases readBytesExactFd 24 x.2 with
      | error e => rfl
      | ok y =>
          simp only [onBytes, Except.map]
          cases sodium.initPull y.1 x.1 with
          | none => rfl
          | some state => simp only [pullLoop_eq]

/-!
## The round trip

With the equations above, this is about the bytes of the payload only.
-/

/-- Whatever is encrypted, for key pairs with different ids, can be decrypted with the private key
of each of them, however the input of either side is divided; and a payload that has been cut short
cannot. -/
theorem decrypts_encrypted {IsKeyPair : ByteArray' 32 → ByteArray' 32 → Prop}
    {InStep : σ → σ → Prop} (h : sodium.Correct IsKeyPair InStep) (random : Randomness)
    {keyPairs : List KeyPair}
    (hpairs : ∀ keyPair ∈ keyPairs, ∃ privKey, IsKeyPair keyPair.pubKey privKey)
    (hids : (keyPairs.map KeyPair.getKeyId).Nodup) {decryptedKeyPair : DecryptedKeyPair}
    (hmem : decryptedKeyPair.keyPair ∈ keyPairs)
    (hpair : IsKeyPair decryptedKeyPair.keyPair.pubKey decryptedKeyPair.privKeyPlaintext)
    (plaintext : Fd) :
    let output := encryptToFd sodium random keyPairs plaintext
    output.result = .ok () ∧
      (∀ fromfd : Fd, fromfd.bytes = output.bytes →
        (decryptFromFd sodium decryptedKeyPair fromfd).result = .ok () ∧
          (decryptFromFd sodium decryptedKeyPair fromfd).bytes = plaintext.bytes) ∧
      ∀ fromfd : Fd, fromfd.bytes <+: output.bytes → fromfd.bytes ≠ output.bytes →
        ∃ e, (decryptFromFd sodium decryptedKeyPair fromfd).result = .error e := by
  intro output
  have houtput : output = EncryptionUtil.encryptToFd sodium random keyPairs plaintext.bytes :=
    encryptToFd_eq ..
  have hopens := opens_of_nodup hpair hmem hids
  have hok : (EncryptionUtil.encryptToFd sodium random keyPairs plaintext.bytes).result = .ok () :=
    encryptToFd_ok h hpairs plaintext.bytes
  rw [houtput]
  refine ⟨hok, fun fromfd hbytes => ?_, fun fromfd hcut hne => ?_⟩
  · rw [decryptFromFd_eq, hbytes]
    exact decryptFromFd_encryptToFd h hopens hok
  · rw [decryptFromFd_eq]
    exact decryptFromFd_truncated h hopens hok hcut hne

end

/-- Five bytes in two pieces, for two key pairs. -/
theorem decrypts_encrypted_two :
    let plaintext : Fd := ⟨[[1, 2], [3, 4, 5]], by decide⟩
    let random : Randomness := ⟨.replicate 32 1, fun _ => .replicate 32 2, .replicate 24 3⟩
    let output := encryptToFd Sodium.transparent random [sampleKeyPair 1, sampleKeyPair 2] plaintext
    (decryptFromFd Sodium.transparent ⟨sampleKeyPair 2, .replicate 32 2⟩
      (.whole output.bytes)).bytes = [1, 2, 3, 4, 5] :=
  ((decrypts_encrypted Sodium.transparent_correct
    ⟨.replicate 32 1, fun _ => .replicate 32 2, .replicate 24 3⟩
    (fun keyPair (_ : keyPair ∈ [sampleKeyPair 1, sampleKeyPair 2]) => ⟨keyPair.pubKey, rfl⟩)
    (by decide) (show (DecryptedKeyPair.mk (sampleKeyPair 2) (.replicate 32 2)).keyPair ∈ _ by decide)
    rfl
    ⟨[[1, 2], [3, 4, 5]], by decide⟩).2.1 (.whole _) (Fd.bytes_whole _)).2

end EncryptionUtil.Reading

end Diffmonger
