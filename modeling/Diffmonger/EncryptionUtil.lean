import Diffmonger.KeyPair

/-!
# Encryption (`EncryptionUtil.cpp`, `KeyPair.cpp`)

The payload of an encrypted node is a list of entries, one for each key pair, that hold the session
key sealed to the key pair, then the header of a secret stream, then the stream's frames.

libsodium is a parameter: the structure `Sodium` has the functions that the program calls, with a
failure code as `none`, and with the random bytes that a function draws as an argument. Nothing is
assumed of these functions here; what their documentation promises is a hypothesis of the theorems
(`Sodium.Correct`).

A function that writes to a file descriptor is modelled by the `Stream` that it writes, which may
end with an exception. What has been written up to there has been written.
-/

namespace Diffmonger

open Serialisation

/-- The functions of libsodium; `σ` is the type `crypto_secretstream_xchacha20poly1305_state`. -/
structure Sodium (σ : Type) where
  /-- `sodium_init` succeeds -/
  init : Bool
  /-- `crypto_pwhash`, with the value of `errno` if it fails -/
  pwhash : Bytes → ByteArray' 16 → KdfParams → Except Errno (ByteArray' 32)
  /-- `crypto_aead_xchacha20poly1305_ietf_decrypt`, of the private key of a key pair -/
  aeadDecrypt : ByteArray' 48 → Bytes → ByteArray' 24 → ByteArray' 32 → Option (ByteArray' 32)
  /-- `crypto_box_seal`, of a session key -/
  boxSeal : ByteArray' 32 → ByteArray' 32 → ByteArray' 32 → Option (ByteArray' 80)
  /-- `crypto_box_seal_open` -/
  boxSealOpen : ByteArray' 80 → ByteArray' 32 → ByteArray' 32 → Option (ByteArray' 32)
  /-- `crypto_secretstream_xchacha20poly1305_init_push` -/
  initPush : ByteArray' 24 → ByteArray' 32 → Option (σ × ByteArray' 24)
  /-- `crypto_secretstream_xchacha20poly1305_push` -/
  push : σ → Bytes → Byte → Bytes × σ
  /-- `crypto_secretstream_xchacha20poly1305_init_pull` -/
  initPull : ByteArray' 24 → ByteArray' 32 → Option σ
  /-- `crypto_secretstream_xchacha20poly1305_pull` -/
  pull : σ → Bytes → Option ((Bytes × Byte) × σ)

/-- `crypto_secretstream_xchacha20poly1305_TAG_FINAL` -/
def tagFinal : Byte := 3

/-- A stand-in for libsodium with the lengths of the real one, under which nothing is hidden: every
public key is its own private key, and what is sealed or encrypted names the key. -/
def Sodium.transparent : Sodium (ByteArray' 32) where
  init := true
  pwhash password _ _ :=
    if password.isEmpty then .error (.other 22) else .ok (.replicate 32 password.length.toUInt8)
  aeadDecrypt privKey _ _ key :=
    if privKey.toList.take 16 = List.replicate 16 key.head then
      some ⟨privKey.toList.drop 16, by simp⟩
    else none
  boxSeal ephemeral symKey pubKey :=
    some ⟨pubKey.toList ++ symKey.toList ++ ephemeral.toList.take 16, by simp⟩
  boxSealOpen sealed pubKey privKey :=
    if privKey = pubKey ∧ sealed.toList.take 32 = pubKey.toList then
      some ⟨(sealed.toList.drop 32).take 32, by simp⟩
    else none
  initPush header symKey := some (symKey, header)
  push state message tag := (tag :: (state.toList.take 16 ++ message), state)
  initPull _ symKey := some symKey
  pull state ciphertext :=
    match ciphertext with
    | [] => none
    | tag :: rest =>
      if rest.take 16 = state.toList.take 16 then some ((rest.drop 16, tag), state) else none

/-- The random bytes that storing one node draws. -/
structure Randomness where
  symKey : ByteArray' 32
  /-- for sealing the session key to the key pair of each index -/
  ephemeral : ℕ → ByteArray' 32
  header : ByteArray' 24

structure DecryptedKeyPair where
  keyPair : KeyPair
  privKeyPlaintext : ByteArray' 32
  deriving DecidableEq

namespace DecryptedKeyPair

variable {σ : Type}

def aeadAdditionalData (keyPair : KeyPair) : Bytes :=
  serialise keyPair.version ++ serialise keyPair.salt ++ serialise keyPair.nonce ++
    serialise keyPair.kdfParams.opslimit ++ serialise keyPair.kdfParams.memlimit ++
    serialise keyPair.kdfParams.passwordHashAlgorithm ++ serialise keyPair.pubKey

/-- The constructor of `EncryptionKey`. -/
def encryptionKey (sodium : Sodium σ) (password : Bytes) (keyPair : KeyPair) :
    Except Exn (ByteArray' 32) :=
  match sodium.pwhash password keyPair.salt keyPair.kdfParams with
  | .ok key => .ok key
  | .error (.other 22) => .error (.runtimeError "Invalid parameters for password hashing")
  | .error _ => .error (.runtimeError "Password hashing failed: out of memory")

/-- The constructor from a key pair and a password. -/
def ofPassword (sodium : Sodium σ) (keyPair : KeyPair) (password : Bytes) :
    Except Exn DecryptedKeyPair := do
  let key ← encryptionKey sodium password keyPair
  if !sodium.init then throw (.runtimeError "libsodium init failed")
  match sodium.aeadDecrypt keyPair.privKeyRepresentation (aeadAdditionalData keyPair) keyPair.nonce
      key with
  | some privKeyPlaintext => return ⟨keyPair, privKeyPlaintext⟩
  | none => throw (.runtimeError "Decryption failure")

end DecryptedKeyPair

/-! ## Streams -/

namespace Stream

def write (bytes : Bytes) : Stream := ⟨[bytes], .ok ()⟩

def fail (e : Exn) : Stream := ⟨[], .error e⟩

/-- Write the one, then, unless it failed, the other. -/
def andThen (s t : Stream) : Stream :=
  match s.result with
  | .ok () => ⟨s.chunks ++ t.chunks, t.result⟩
  | .error e => ⟨s.chunks, .error e⟩

/-- Everything that is written. -/
def bytes (s : Stream) : Bytes := s.chunks.flatten

end Stream

namespace EncryptionUtil

variable {σ : Type} (sodium : Sodium σ)

def plaintextChunkSize : ℕ := 8192

def ciphertextMaxChunkSize : ℕ := plaintextChunkSize + 17

/-! ## `encryptToFd` -/

/-- The blocks that `consume` passes to its functor. -/
def blocksLoop : ℕ → Bytes → List Bytes
  | 0, _ => []
  | fuel + 1, data =>
    if data.isEmpty then []
    else data.take plaintextChunkSize :: blocksLoop fuel (data.drop plaintextChunkSize)

def blocks (data : Bytes) : List Bytes := blocksLoop data.length data

/-- The entries of the key pairs, the first of which has the index `i`. -/
def sealSymKey (random : Randomness) : List KeyPair → (i : ℕ) → Stream
  | [], _ => ⟨[], .ok ()⟩
  | keyPair :: rest, i =>
    match sodium.boxSeal (random.ephemeral i) random.symKey keyPair.pubKey with
    | none => Stream.fail (.runtimeError "Failed to encrypt symmetric key")
    | some encryptedSymKey =>
      let isLast : Byte := if rest.isEmpty then 1 else 0
      (Stream.write (keyPair.getKeyId.toList ++ encryptedSymKey.toList ++ [isLast])).andThen
        (sealSymKey random rest (i + 1))

/-- A frame is its length, as `NbytesT`, and its ciphertext. -/
def frame (ciphertext : Bytes) : Stream :=
  ⟨[serialise (UInt32.ofNat ciphertext.length), ciphertext], .ok ()⟩

def pushBlocks : σ → List Bytes → Stream
  | state, [] => frame (sodium.push state [] tagFinal).1
  | state, block :: rest =>
    let (ciphertext, state) := sodium.push state block 0
    (frame ciphertext).andThen (pushBlocks state rest)

def encryptToFd (random : Randomness) (keyPairs : List KeyPair) (input : Bytes) : Stream :=
  if !sodium.init then Stream.fail (.runtimeError "libsodium init failed")
  else (sealSymKey sodium random keyPairs 0).andThen <|
    match sodium.initPush random.header random.symKey with
    | none => Stream.fail (.runtimeError "Failed to init secret stream")
    | some (state, header) =>
      (Stream.write header.toList).andThen (pushBlocks sodium state (blocks input))

/-! ## `decryptFromFd` -/

/-- The loop over the entries, with the session key found so far. -/
def openSymKeyLoop (decryptedKeyPair : DecryptedKeyPair) :
    ℕ → Bytes → Option (ByteArray' 32) → Except Exn (Option (ByteArray' 32) × Bytes)
  | 0, _, _ => .error (.runtimeError "Unexpected EOF")
  | fuel + 1, data, symKey => do
    let (keyId, data) ← Ioutil.readBytesExact 16 data
    let (encryptedSymKey, data) ← Ioutil.readBytesExact 80 data
    let (isLast, data) ← Ioutil.readBytesExact 1 data
    let symKey ←
      if keyId = decryptedKeyPair.keyPair.getKeyId then
        match sodium.boxSealOpen encryptedSymKey decryptedKeyPair.keyPair.pubKey
            decryptedKeyPair.privKeyPlaintext with
        | some symKey => pure (some symKey)
        | none => throw (.runtimeError "Error decrypting session key")
      else pure symKey
    if isLast.head ≠ 0 then return (symKey, data)
    else openSymKeyLoop decryptedKeyPair fuel data symKey

/-- Every entry takes bytes from the input, which bounds the number of iterations. -/
def openSymKey (decryptedKeyPair : DecryptedKeyPair) (data : Bytes) :
    Except Exn (ByteArray' 32 × Bytes) := do
  let (symKey, data) ← openSymKeyLoop sodium decryptedKeyPair (data.length + 1) data none
  match symKey with
  | some symKey => return (symKey, data)
  | none => throw (.runtimeError "Decryption key not present in any key slot")

/-- Reads a frame; the length is capped at the size of the buffer. -/
def readFrame (data : Bytes) : Except Exn (Bytes × Bytes) := do
  let (nbytesbuf, data) ← Ioutil.readBytesExact 4 data
  let nbytes := min ciphertextMaxChunkSize (LittleEndian.fromBytes 4 nbytesbuf.toList).toNat
  let (buf, data) ← Ioutil.readBytesExact nbytes data
  return (buf.toList, data)

def pullLoop : ℕ → σ → Bytes → Stream
  | 0, _, _ => Stream.fail (.runtimeError "Unexpected EOF")
  | fuel + 1, state, data =>
    match readFrame data with
    | .error e => Stream.fail e
    | .ok (buf, data) =>
      match sodium.pull state buf with
      | none => Stream.fail (.runtimeError "Failed to decrypt data")
      | some ((message, tag), state) =>
        (Stream.write message).andThen <|
          if tag = 0 then pullLoop fuel state data
          else if tag ≠ tagFinal then
            Stream.fail (.runtimeError "Invalid data (tag) while decrypting")
          else ⟨[], .ok ()⟩

/-- What is written before an error stays written. -/
def decryptFromFd (decryptedKeyPair : DecryptedKeyPair) (input : Bytes) : Stream :=
  if !sodium.init then Stream.fail (.runtimeError "libsodium init failed")
  else
    match openSymKey sodium decryptedKeyPair input with
    | .error e => Stream.fail e
    | .ok (symKey, data) =>
      match Ioutil.readBytesExact 24 data with
      | .error e => Stream.fail e
      | .ok (header, data) =>
        match sodium.initPull header symKey with
        | none => Stream.fail (.runtimeError "Failed to init secret stream")
        | some state => pullLoop sodium (data.length + 1) state data

end EncryptionUtil

end Diffmonger
