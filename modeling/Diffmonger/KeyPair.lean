import Diffmonger.BackendDriver

/-!
# Key pairs (`KeyPair.hpp`)

The part of a key pair that a key slot of the repository stores. The private key is stored
encrypted; `EncryptionUtil.lean` says what decrypting it takes, and `KeyPair/LifeCycle.lean` how it
comes to be encrypted. A key pair of another version than the current one cannot be built.
-/

namespace Diffmonger

open Serialisation

/-- An array of bytes, such as a key of libsodium. -/
abbrev ByteArray' (n : ℕ) := List.Vector Byte n

structure KdfParams where
  opslimit : UInt64
  memlimit : UInt64
  passwordHashAlgorithm : Int32
  deriving DecidableEq

/-- The version of the format of key slots. -/
def KeyPair.currentVersion : Uuid :=
  ⟨[0xee, 0x2c, 0x0c, 0xcd, 0xd0, 0x53, 0x83, 0x8b, 0xe9, 0x97, 0x05, 0xd8, 0xfd, 0x1f, 0xfd, 0x61],
    rfl⟩

/-- The constructor is private: key pairs are generated, and read, with the current version only. -/
structure KeyPair where
  salt : ByteArray' 16
  nonce : ByteArray' 24
  kdfParams : KdfParams
  pubKey : ByteArray' 32
  privKeyRepresentation : ByteArray' 48
  version : Uuid
  isCurrent : version = KeyPair.currentVersion
  deriving DecidableEq

namespace KeyPair

def getKeyId (keyPair : KeyPair) : ByteArray' 16 := keyPair.salt

instance : Codec KdfParams where
  serialise kdfParams := serialise kdfParams.opslimit ++
    (serialise kdfParams.memlimit ++ serialise kdfParams.passwordHashAlgorithm)
  deserialise := do
    let opslimit ← deserialise
    let memlimit ← deserialise
    let passwordHashAlgorithm ← deserialise
    return ⟨opslimit, memlimit, passwordHashAlgorithm⟩

instance : LawfulCodec KdfParams where
  reads kdfParams := (reads kdfParams.opslimit).bind <| (reads kdfParams.memlimit).bind <|
    (reads kdfParams.passwordHashAlgorithm).bind_pure rfl

instance : Codec KeyPair where
  serialise keyPair := serialise currentVersion ++ (serialise keyPair.salt ++
    (serialise keyPair.nonce ++ (serialise keyPair.kdfParams ++ (serialise keyPair.pubKey ++
      serialise keyPair.privKeyRepresentation))))
  deserialise := do
    let version : Uuid ← deserialise
    let salt ← deserialise
    let nonce ← deserialise
    let kdfParams ← deserialise
    let pubKey ← deserialise
    let privKeyRepresentation ← deserialise
    if h : version = currentVersion then
      return ⟨salt, nonce, kdfParams, pubKey, privKeyRepresentation, version, h⟩
    else throw (.runtimeError "Version mismatch")

instance : LawfulCodec KeyPair where
  reads keyPair := by
    refine (reads currentVersion).bind <| (reads keyPair.salt).bind <|
      (reads keyPair.nonce).bind <| (reads keyPair.kdfParams).bind <|
      (reads keyPair.pubKey).bind <| (reads keyPair.privKeyRepresentation).bind_pure ?_
    obtain ⟨salt, nonce, kdfParams, pubKey, privKeyRepresentation, version, rfl⟩ := keyPair
    rw [dif_pos rfl]

/-- A key slot's contents; what follows the key pair is ignored. -/
def ofBytes (bytes : Bytes) : Except Exn KeyPair :=
  ((deserialise : Deserialiser KeyPair) bytes).map Prod.fst

@[simp] theorem ofBytes_serialise (keyPair : KeyPair) : ofBytes (serialise keyPair) = .ok keyPair := by
  rw [ofBytes, (reads keyPair).all]
  rfl

end KeyPair

end Diffmonger
