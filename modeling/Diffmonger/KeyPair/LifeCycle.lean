import Diffmonger.EncryptionUtil

/-!
# The life of a key pair (`KeyPair.cpp`)

The private key is encrypted when the key pair is generated, before there is a `KeyPair`, and
decrypted when a `KeyPair` has been read from a key slot. Both sides have to come to the same key
and the same additional data.

Main result: `generate_store_decrypt`. Both sides do so since both compute them from the same fields
(`encryptionKey_eq`, `aeadAdditionalData_eq`). The additional data determines all of these fields,
as the concatenation of encodings that can be read back (`aeadAdditionalDataOf_inj`).
-/

namespace Diffmonger

open Serialisation

variable {σ : Type}

/-- The functions of libsodium that generating a key pair takes as well. -/
structure SodiumKeys (σ : Type) extends Sodium σ where
  /-- `crypto_box_keypair`, which draws a seed and returns the public and the private key -/
  boxKeypair : ByteArray' 32 → Option (ByteArray' 32 × ByteArray' 32)
  /-- `crypto_aead_xchacha20poly1305_ietf_encrypt`, of the private key of a key pair -/
  aeadEncrypt : ByteArray' 32 → Bytes → ByteArray' 24 → ByteArray' 32 → ByteArray' 48

/-- Decryption inverts encryption, for the same additional data, nonce and key. -/
structure SodiumKeys.Correct (sodium : SodiumKeys σ) : Prop where
  init : sodium.init = true
  aeadDecrypt : ∀ privKey additionalData nonce key,
    sodium.aeadDecrypt (sodium.aeadEncrypt privKey additionalData nonce key) additionalData nonce key =
      some privKey

/-- The random bytes that generating a key pair draws. -/
structure KeyRandomness where
  salt : ByteArray' 16
  seed : ByteArray' 32
  nonce : ByteArray' 24

structure EncryptionKey where
  keyNotPassword : ByteArray' 32
  salt : ByteArray' 16
  kdfParams : KdfParams

/-- The constructor from a password. -/
def EncryptionKey.ofPassword (sodium : Sodium σ) (password : Bytes) (salt : ByteArray' 16)
    (kdfParams : KdfParams) : Except Exn EncryptionKey :=
  match sodium.pwhash password salt kdfParams with
  | .ok key => .ok ⟨key, salt, kdfParams⟩
  | .error (.other 22) => .error (.runtimeError "Invalid parameters for password hashing")
  | .error _ => .error (.runtimeError "Password hashing failed: out of memory")

namespace DecryptedKeyPair

/-- `aeadAdditionalData`, of what there is when a key pair is generated. -/
def aeadAdditionalDataOf (salt : ByteArray' 16) (kdfParams : KdfParams) (nonce : ByteArray' 24)
    (pubKey : ByteArray' 32) (version : Uuid) : Bytes :=
  serialise version ++ serialise salt ++ serialise nonce ++ serialise kdfParams.opslimit ++
    serialise kdfParams.memlimit ++ serialise kdfParams.passwordHashAlgorithm ++ serialise pubKey

def generateFromKey (sodium : SodiumKeys σ) (random : KeyRandomness) (key : EncryptionKey) :
    Except Exn DecryptedKeyPair := do
  if !sodium.init then throw (.runtimeError "libsodium init failed")
  match sodium.boxKeypair random.seed with
  | none => throw (.runtimeError "Failed to create keypair")
  | some (pubKey, privKeyPlaintext) =>
    let additionalData := aeadAdditionalDataOf key.salt key.kdfParams random.nonce pubKey
      KeyPair.currentVersion
    let privKey := sodium.aeadEncrypt privKeyPlaintext additionalData random.nonce key.keyNotPassword
    return ⟨⟨key.salt, random.nonce, key.kdfParams, pubKey, privKey, KeyPair.currentVersion, rfl⟩,
      privKeyPlaintext⟩

def generateFromPassphrase (sodium : SodiumKeys σ) (random : KeyRandomness) (kdfParams : KdfParams)
    (password : Bytes) : Except Exn DecryptedKeyPair := do
  let key ← EncryptionKey.ofPassword sodium.toSodium password random.salt kdfParams
  generateFromKey sodium random key

/-!
## Both sides

Generating a key pair and unlocking it compute the same additional data and the same key, though
from different objects. Once the two are seen to be equal, the laws of libsodium do the rest.
-/

theorem aeadAdditionalData_eq (keyPair : KeyPair) : aeadAdditionalData keyPair =
    aeadAdditionalDataOf keyPair.salt keyPair.kdfParams keyPair.nonce keyPair.pubKey
      keyPair.version := rfl

theorem encryptionKey_eq (sodium : Sodium σ) (password : Bytes) (keyPair : KeyPair) :
    encryptionKey sodium password keyPair =
      (EncryptionKey.ofPassword sodium password keyPair.salt keyPair.kdfParams).map
        EncryptionKey.keyNotPassword := by
  rw [encryptionKey, EncryptionKey.ofPassword]
  rcases sodium.pwhash password keyPair.salt keyPair.kdfParams with (_ | code) | key
  · rfl
  · by_cases hcode : code = 22
    · subst hcode
      rfl
    · simp [hcode, Except.map]
  · rfl

section
variable {sodium : SodiumKeys σ} {random : KeyRandomness} {kdfParams : KdfParams} {password : Bytes}
  {key pubKey privKey : ByteArray' 32}

theorem ofPassword_of_pwhash (hkey : sodium.pwhash password random.salt kdfParams = .ok key) :
    EncryptionKey.ofPassword sodium.toSodium password random.salt kdfParams =
      .ok ⟨key, random.salt, kdfParams⟩ := by
  rw [EncryptionKey.ofPassword, hkey]

/-- The key pair that is generated. -/
def generated (sodium : SodiumKeys σ) (random : KeyRandomness) (key : EncryptionKey)
    (pubKey privKey : ByteArray' 32) : KeyPair where
  salt := key.salt
  nonce := random.nonce
  kdfParams := key.kdfParams
  pubKey := pubKey
  privKeyRepresentation := sodium.aeadEncrypt privKey
    (aeadAdditionalDataOf key.salt key.kdfParams random.nonce pubKey KeyPair.currentVersion)
    random.nonce key.keyNotPassword
  version := KeyPair.currentVersion
  isCurrent := rfl

theorem generateFromKey_eq (hinit : sodium.init = true) {key : EncryptionKey}
    (hpair : sodium.boxKeypair random.seed = some (pubKey, privKey)) :
    generateFromKey sodium random key =
      .ok ⟨generated sodium random key pubKey privKey, privKey⟩ := by
  rw [generateFromKey, hinit, hpair]
  rfl

/-- The key that a private key was encrypted with decrypts it. -/
theorem ofPassword_eq (h : sodium.Correct) {keyPair : KeyPair}
    (hkey : EncryptionKey.ofPassword sodium.toSodium password keyPair.salt keyPair.kdfParams =
      .ok ⟨key, keyPair.salt, keyPair.kdfParams⟩)
    (hprivKey : keyPair.privKeyRepresentation =
      sodium.aeadEncrypt privKey (aeadAdditionalData keyPair) keyPair.nonce key) :
    ofPassword sodium.toSodium keyPair password = .ok ⟨keyPair, privKey⟩ := by
  rw [ofPassword, encryptionKey_eq, hkey, h.init, hprivKey]
  simp [bind, Except.bind, Except.map, h.aeadDecrypt, pure, Except.pure]

end

end DecryptedKeyPair

/-!
## The additional data

Every part of the additional data has a fixed length, so that it can be told from the whole where a
part ends.
-/

namespace DecryptedKeyPair

theorem aeadAdditionalDataOf_inj {salt salt' : ByteArray' 16} {kdfParams kdfParams' : KdfParams}
    {nonce nonce' : ByteArray' 24} {pubKey pubKey' : ByteArray' 32} {version version' : Uuid} :
    aeadAdditionalDataOf salt kdfParams nonce pubKey version =
        aeadAdditionalDataOf salt' kdfParams' nonce' pubKey' version' ↔
      version = version' ∧ salt = salt' ∧ nonce = nonce' ∧
        kdfParams.opslimit = kdfParams'.opslimit ∧ kdfParams.memlimit = kdfParams'.memlimit ∧
        kdfParams.passwordHashAlgorithm = kdfParams'.passwordHashAlgorithm ∧ pubKey = pubKey' := by
  simp only [aeadAdditionalDataOf, List.append_assoc, serialise_append_inj, serialise_inj]

/-- A key pair that is generated, written and read again yields its private key to whoever has the
password; and the additional data that this private key is bound to determines each of its parts. -/
theorem generate_store_decrypt {sodium : SodiumKeys σ} (h : sodium.Correct) :
    (∀ (random : KeyRandomness) (kdfParams : KdfParams) (password : Bytes)
        (key pubKey privKey : ByteArray' 32),
      sodium.pwhash password random.salt kdfParams = .ok key →
      sodium.boxKeypair random.seed = some (pubKey, privKey) →
      ∃ generated keyPair decrypted,
        generateFromPassphrase sodium random kdfParams password = .ok generated ∧
        generated.keyPair.pubKey = pubKey ∧ generated.privKeyPlaintext = privKey ∧
        KeyPair.ofBytes (serialise generated.keyPair) = .ok keyPair ∧
        ofPassword sodium.toSodium keyPair password = .ok decrypted ∧
        decrypted.privKeyPlaintext = privKey) ∧
    ∀ (salt salt' : ByteArray' 16) (kdfParams kdfParams' : KdfParams) (nonce nonce' : ByteArray' 24)
        (pubKey pubKey' : ByteArray' 32) (version version' : Uuid),
      aeadAdditionalDataOf salt kdfParams nonce pubKey version =
          aeadAdditionalDataOf salt' kdfParams' nonce' pubKey' version' ↔
        version = version' ∧ salt = salt' ∧ nonce = nonce' ∧
          kdfParams.opslimit = kdfParams'.opslimit ∧ kdfParams.memlimit = kdfParams'.memlimit ∧
          kdfParams.passwordHashAlgorithm = kdfParams'.passwordHashAlgorithm ∧ pubKey = pubKey' := by
  refine ⟨fun random kdfParams password key pubKey privKey hkey hpair => ?_,
    fun _ _ _ _ _ _ _ _ _ _ => aeadAdditionalDataOf_inj⟩
  have hderived := ofPassword_of_pwhash hkey
  let keyPair := generated sodium random ⟨key, random.salt, kdfParams⟩ pubKey privKey
  have hgenerate : generateFromPassphrase sodium random kdfParams password =
      .ok ⟨keyPair, privKey⟩ := by
    rw [generateFromPassphrase, hderived]
    exact generateFromKey_eq h.init hpair
  -- it was encrypted with the additional data that the key pair itself has
  have hprivKey : keyPair.privKeyRepresentation =
      sodium.aeadEncrypt privKey (aeadAdditionalData keyPair) keyPair.nonce key := by
    rw [aeadAdditionalData_eq]
    rfl
  exact ⟨⟨keyPair, privKey⟩, keyPair, _, hgenerate, rfl, rfl, KeyPair.ofBytes_serialise keyPair,
    ofPassword_eq h hderived hprivKey, rfl⟩

end DecryptedKeyPair

/-- A stand-in that generates the key pairs whose public key is the private key. -/
def SodiumKeys.transparent : SodiumKeys (ByteArray' 32) where
  toSodium := .transparent
  boxKeypair seed := some (seed, seed)
  aeadEncrypt privKey _ _ key := ⟨List.replicate 16 key.head ++ privKey.toList, by simp⟩

theorem SodiumKeys.transparent_correct : SodiumKeys.transparent.Correct where
  init := rfl
  aeadDecrypt privKey additionalData nonce key := by
    simp [transparent, Sodium.transparent]

/-- The password is one byte long. -/
theorem DecryptedKeyPair.generate_store_decrypt_transparent :
    ∃ generated keyPair decrypted,
      generateFromPassphrase SodiumKeys.transparent
        ⟨.replicate 16 1, .replicate 32 2, .replicate 24 3⟩ ⟨1, 8192, 2⟩ [0] = .ok generated ∧
      generated.keyPair.pubKey = .replicate 32 2 ∧ generated.privKeyPlaintext = .replicate 32 2 ∧
      KeyPair.ofBytes (serialise generated.keyPair) = .ok keyPair ∧
      ofPassword Sodium.transparent keyPair [0] = .ok decrypted ∧
      decrypted.privKeyPlaintext = .replicate 32 2 :=
  (generate_store_decrypt SodiumKeys.transparent_correct).1
    ⟨.replicate 16 1, .replicate 32 2, .replicate 24 3⟩ ⟨1, 8192, 2⟩ [0] _ _ _ rfl rfl

end Diffmonger
