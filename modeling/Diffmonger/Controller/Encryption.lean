import Diffmonger.Controller.Snapshots
import Diffmonger.EncryptionUtil.Spec

/-!
# Encrypted snapshots

What `store_snapshot` commits when encryption is enabled: the whole payload, encrypted for the key
pairs that the repository holds at that time. If it holds none, the session key is lost.

Main result: `committed_decryptable_iff`. That the blob is whole at the moment of the rename
(`blob_of_committed`) is a fact about the program; who can decrypt it is one about the encoding
(`EncryptionUtil/Spec.lean`), where a payload without entries, or with entries for other keys only,
cannot be opened.
-/

namespace Diffmonger

open Prog RepositoryStructure EncryptionUtil

variable {β S σ : Type}

namespace Controller

section
variable {driver : BackendDriver β S} {sodium : Sodium σ} {env : Env} {params : RepositoryParams}

/-- The steps of `commit` from the rename on: the node's directory is the temporary one. -/
theorem wp_commitRename_stored {encoded : Encoded} {dir : Option NodeDir} {tr : List Event}
    {w : World β} (htemp : w.disk.temporarySnapshot = dir) :
    (commitRename encoded).wp (fun _ w' => w'.disk.snapshots encoded.node = dir)
      (fun _ _ w' => w'.disk.snapshots encoded.node = dir) tr w := by
  have hrename : (w.apply (.rename encoded.node)).disk.snapshots encoded.node = dir :=
    (Disk.setNode_self ..).trans htemp
  simp only [commitRename, wp_bind, wp_perform, bindPost, wp_ofExcept]
  refine ⟨hrename, ?_⟩
  cases encoded.node.next with
  | error e => exact hrename
  | ok next =>
      rw [Result.ofExcept]
      simp only [wp_writeBreadcrumb]
      exact ⟨hrename, hrename, hrename⟩

/-- Once `store_snapshot` has renamed the node's directory into place, it holds the whole payload.
-/
theorem blob_of_committed {a : Attempt Event (World β) Exn Unit} {id : S} {maybeParent : Option S}
    (hprogram : a.program = storeSnapshot driver sodium env params id maybeParent)
    (hcommitted : .rename (driver.getNode id) ∈ a.labels) :
    ∃ blob, a.state.disk.blobFile (driver.getNode id) = some blob ∧
      PayloadOf driver sodium env params a.start.disk.keyPairs id maybeParent a.start.backend
        blob := by
  have hwp : a.program.wp
      (fun tr w' => .rename (driver.getNode id) ∈ tr →
        ∃ blob, w'.disk.blobFile (driver.getNode id) = some blob ∧ PayloadOf driver sodium env params
          a.start.disk.keyPairs id maybeParent a.start.backend blob)
      (fun _ _ _ => True) [] a.start := by
    rw [hprogram]
    refine wp_storeSnapshot driver (fun ls w' hw' hmem => ?_) (fun _ _ _ _ _ => trivial) ?_
    · exact (hw'.prepares _ hmem).elim
    · intro ls w' _ hpayload htemp _
      rw [← driver.node_encoded]
      refine wp_mono (fun tr w'' hw'' _ => ⟨_, ?_, hpayload⟩) (fun _ _ _ _ => trivial) _
        (wp_commitRename_stored htemp)
      rw [Disk.blobFile, hw'']
      rfl
  exact a.invariant hwp (by simp) hcommitted

/-- Some key pair of the repository recovers the plaintext from the blob. -/
def Decryptable (sodium : Sodium σ) (IsKeyPair : ByteArray' 32 → ByteArray' 32 → Prop)
    (keyPairs : Except Exn (List KeyPair)) (blob : Option Bytes) (plaintext : Bytes) : Prop :=
  ∃ kps bytes decryptedKeyPair, keyPairs = .ok kps ∧ blob = some bytes ∧
    decryptedKeyPair.keyPair ∈ kps ∧
    IsKeyPair decryptedKeyPair.keyPair.pubKey decryptedKeyPair.privKeyPlaintext ∧
    (decryptFromFd sodium decryptedKeyPair bytes).result = .ok () ∧
    (decryptFromFd sodium decryptedKeyPair bytes).bytes = plaintext

/-- Some key pair of the repository has a private key, and shares its id with no key pair that has
another public key. -/
def HasKey (IsKeyPair : ByteArray' 32 → ByteArray' 32 → Prop)
    (keyPairs : Except Exn (List KeyPair)) : Prop :=
  ∃ kps, keyPairs = .ok kps ∧ ∃ keyPair ∈ kps, (∃ privKey, IsKeyPair keyPair.pubKey privKey) ∧
    ∀ other ∈ kps, other.getKeyId = keyPair.getKeyId → other.pubKey = keyPair.pubKey

/-- Whenever `store_snapshot` commits an encrypted node, what the backend has written for it can be
recovered with a key of the repository exactly if the repository has a key: in particular, it cannot
if the repository holds no key pair. -/
theorem committed_decryptable_iff {IsKeyPair : ByteArray' 32 → ByteArray' 32 → Prop}
    {InStep : σ → σ → Prop} (h : sodium.Correct IsKeyPair InStep)
    (hrejects : sodium.Rejects IsKeyPair) (henc : params.encryption = true)
    {a : Attempt Event (World β) Exn Unit} {id : S} {maybeParent : Option S}
    (hprogram : a.program = storeSnapshot driver sodium env params id maybeParent)
    (hcommitted : .rename (driver.getNode id) ∈ a.labels) :
    Decryptable sodium IsKeyPair a.start.disk.keyPairs
        (a.state.disk.blobFile (driver.getNode id))
        (payloadStream driver id maybeParent a.start.backend).bytes ↔
      HasKey IsKeyPair a.start.disk.keyPairs := by
  obtain ⟨blob, hblob, hresult, hstored⟩ := blob_of_committed hprogram hcommitted
  rw [StoredAs, if_pos henc] at hstored
  obtain ⟨kps, hkps, hok, rfl⟩ := hstored
  rw [hblob, hkps]
  constructor
  · rintro ⟨_, _, decryptedKeyPair, ⟨⟩, ⟨⟩, hmem, hpair, hdecrypted, -⟩
    refine ⟨kps, rfl, decryptedKeyPair.keyPair, hmem, ⟨_, hpair⟩, fun other hother hid => ?_⟩
    by_contra hpub
    obtain ⟨e, hfail⟩ := decryptFromFd_fails h hrejects hpair hother hid hpub hok
    rw [hfail] at hdecrypted
    cases hdecrypted
  · rintro ⟨_, ⟨⟩, keyPair, hmem, ⟨privKey, hpair⟩, hids⟩
    have hopens : Opens IsKeyPair kps ⟨keyPair, privKey⟩ := ⟨hpair, hmem, hids⟩
    obtain ⟨hdecrypted, hbytes⟩ := decryptFromFd_encryptToFd h hopens hok
    exact ⟨kps, _, ⟨keyPair, privKey⟩, rfl, rfl, hmem, hpair, hdecrypted, hbytes⟩

end

/-- A repository with the given key slots. -/
def sampleKeys (keyPairs : List KeyPair) : World Unit :=
  { sampleWorld with
    disk := { sampleWorld.disk with keys := some fun i => keyPairs[i]?.map Serialisation.serialise } }

def sampleStore : Repo Unit Unit :=
  storeSnapshot (.constant [7]) .transparent sampleEnv ⟨true, 0⟩ (.plain ⟨0⟩) none

/-- With one key pair. -/
theorem committed_decryptable_iff_one :
    let a := Attempt.whole sampleStore (sampleKeys [sampleKeyPair 1])
    Decryptable Sodium.transparent (· = ·) a.start.disk.keyPairs
      (a.state.disk.blobFile ⟨0⟩) [7] := by
  intro a
  refine (committed_decryptable_iff Sodium.transparent_correct Sodium.transparent_rejects rfl
    (a := a) rfl (by decide +kernel)).mpr
    ⟨[sampleKeyPair 1], by decide +kernel, sampleKeyPair 1, List.mem_singleton_self _, ⟨_, rfl⟩, ?_⟩
  intro other hother _
  rw [List.mem_singleton.mp hother]

/-- Without any key pair the node is committed all the same. -/
theorem committed_without_key :
    let a := Attempt.whole sampleStore (sampleKeys [])
    .rename ⟨0⟩ ∈ a.labels ∧ a.start.disk.keyPairs = .ok [] ∧
      ¬ Decryptable Sodium.transparent (· = ·) a.start.disk.keyPairs
        (a.state.disk.blobFile ⟨0⟩) [7] := by
  intro a
  have hkeys : a.start.disk.keyPairs = .ok [] := rfl
  refine ⟨by decide +kernel, hkeys, ?_⟩
  rintro ⟨kps, bytes, decryptedKeyPair, hkps, -, hmem, -⟩
  rw [hkeys] at hkps
  cases hkps
  cases hmem

end Controller

end Diffmonger
