import Diffmonger.Restore
import Diffmonger.Controller.Encryption

/-!
# Which key slots a password opens

`decryptKeyPair` stops at the first key slot, whether the password opens it or not. Without a
decrypted key pair, `restore` takes the repository to be unencrypted.

Main result: `decryptKeyPair_first_iff`. The visitor returns `true` in any case, which ends the
visits (`visitKeyPairs_stop`), so that the result is what slot 0 comes to (`firstKeyPair`).
-/

namespace Diffmonger

open Prog RepositoryStructure

variable {β S σ : Type}

/-!
## Slots

What `decryptKeyPair` returns is a function of the files in the slots and of the password. Its
visitor catches whatever goes wrong with a password, so that only reading the slots can fail.
-/

namespace DecryptedKeyPair

variable {sodium : Sodium σ} {password : Bytes} {keyPair : KeyPair}

/-- The key pair with its private key, if the password decrypts it. -/
def unlock (sodium : Sodium σ) (password : Bytes) (keyPair : KeyPair) : Option DecryptedKeyPair :=
  (ofPassword sodium keyPair password).toOption

/-- Whatever goes wrong, the visitor in `decryptKeyPair` catches it. -/
theorem isRuntimeError_of_ofPassword {e : Exn} (h : ofPassword sodium keyPair password = .error e) :
    e.isRuntimeError = true := by
  unfold ofPassword at h
  cases hkey : encryptionKey sodium password keyPair with
  | error e' =>
      rw [hkey] at h
      cases h
      unfold encryptionKey at hkey
      split at hkey <;> cases hkey <;> rfl
  | ok key =>
      rw [hkey] at h
      dsimp only [bind, Except.bind] at h
      split at h
      · cases h
        rfl
      · dsimp only [pure, Except.pure] at h
        split at h
        · cases h
        · cases h
          rfl

end DecryptedKeyPair

open DecryptedKeyPair

namespace Disk

/-- The key pair of slot 0, if there is one. -/
def firstKeyPair (keys : Option (ℕ → Option Bytes)) : Except Exn (Option KeyPair) :=
  match keys with
  | none => .error (.runtimeError "Invalid keys directory for repository")
  | some keys =>
    match keys 0 with
    | none => .ok none
    | some file => (KeyPair.ofBytes file).map some

/-- A visitor that stops the iteration sees slot 0 only. -/
theorem visitKeyPairs_stop {γ : Type} (g : γ → KeyPair → γ) (disk : Disk) (captured : γ) :
    disk.visitKeyPairs (fun captured keyPair => (g captured keyPair, true)) captured =
      (firstKeyPair disk.keys).map fun slot => slot.elim captured (g captured) := by
  unfold visitKeyPairs firstKeyPair
  cases disk.keys with
  | none => rfl
  | some keys =>
      rw [show maxKeySlots = 254 + 1 from rfl]
      dsimp only
      rw [visitKeyFiles]
      cases keys 0 with
      | none => rfl
      | some file => cases hslot : KeyPair.ofBytes file <;> simp [hslot, Except.map]

/-- The key pairs found so far stay in front. -/
theorem prefix_of_visitKeyFiles {keys : ℕ → Option Bytes} {slots i : ℕ} {out kps : List KeyPair}
    (h : visitKeyFiles (fun out keyPair => (out ++ [keyPair], false)) keys slots i out = .ok kps) :
    out <+: kps := by
  induction slots generalizing i out with
  | zero =>
      cases h
      exact List.prefix_rfl
  | succ slots ih =>
      rw [visitKeyFiles] at h
      split at h
      · cases h
        exact List.prefix_rfl
      · split at h
        · cases h
        · exact (List.prefix_append ..).trans (ih h)

/-- If all slots can be read, slot 0 holds the first of the key pairs. -/
theorem firstKeyPair_of_keyPairs {disk : Disk} {kps : List KeyPair} (h : disk.keyPairs = .ok kps) :
    firstKeyPair disk.keys = .ok kps.head? := by
  unfold keyPairs visitKeyPairs at h
  unfold firstKeyPair
  cases hkeys : disk.keys with
  | none =>
      rw [hkeys] at h
      cases h
  | some keys =>
      rw [hkeys, show maxKeySlots = 254 + 1 from rfl] at h
      dsimp only at h ⊢
      rw [visitKeyFiles] at h
      cases hfile : keys 0 with
      | none =>
          rw [hfile] at h
          cases h
          rfl
      | some file =>
          rw [hfile] at h
          dsimp only at h ⊢
          cases hslot : KeyPair.ofBytes file with
          | error e =>
              simp only [hslot] at h
              cases h
          | ok keyPair =>
              simp only [hslot] at h
              obtain ⟨rest, rfl⟩ := prefix_of_visitKeyFiles h
              rfl

end Disk

namespace Controller

variable {sodium : Sodium σ} {password : Bytes}

theorem decryptKeyPair_eq :
    (decryptKeyPair sodium password : Repo β _) =
      withKeyPairs (fun out keyPair => pure ((unlock sodium password keyPair).or out, true)) none := by
  unfold decryptKeyPair
  congr 1
  funext out keyPair
  rw [unlock]
  cases hslot : ofPassword sodium keyPair password with
  | ok decryptedKeyPair => rfl
  | error e => exact if_pos (isRuntimeError_of_ofPassword hslot)

theorem decryptKeyPair_ends (w : World β) :
    (decryptKeyPair sodium password).Ends (fun r w' =>
      r = .ofExcept ((Disk.firstKeyPair w.disk.keys).map fun slot =>
        slot.bind (unlock sodium password)) ∧ w' = w) w := by
  have hends := withKeyPairs_ends
    (fun out keyPair => ((unlock sodium password keyPair).or out, true)) none w
  rw [← decryptKeyPair_eq, Disk.visitKeyPairs_stop] at hends
  have hmap : (fun slot : Option KeyPair => slot.bind (unlock sodium password)) =
      fun slot => slot.elim none fun keyPair => (unlock sodium password keyPair).or none := by
    funext slot
    cases slot with
    | none => rfl
    | some keyPair => exact (Option.or_none ..).symm
  rwa [hmap]

/-- `decryptKeyPair` returns the first decrypted key pair exactly if the password opens slot 0, or
none at all. -/
theorem decryptKeyPair_first_iff {w : World β} {kps : List KeyPair}
    (hkeys : w.disk.keyPairs = .ok kps) (hne : kps ≠ []) :
    ((decryptKeyPair sodium password).run w).result =
        .val (kps.findSome? (unlock sodium password)) ↔
      (unlock sodium password (kps.head hne)).isSome ∨
        ∀ keyPair ∈ kps, unlock sodium password keyPair = none := by
  rw [(ends_iff_run.mp (decryptKeyPair_ends w)).1, Disk.firstKeyPair_of_keyPairs hkeys]
  cases kps with
  | nil => exact absurd rfl hne
  | cons keyPair kps =>
      simp only [List.head?_cons, Except.map, Result.ofExcept, Option.bind_some, Result.val.injEq,
        List.findSome?_cons, List.head_cons, List.forall_mem_cons]
      cases hslot : unlock sodium password keyPair with
      | some decryptedKeyPair => simp
      | none =>
          rw [eq_comm, List.findSome?_eq_none_iff]
          simp

/-- With a second slot, that nobody asks for. -/
theorem decryptKeyPair_first_iff_two :
    ((decryptKeyPair Sodium.transparent [0]).run
        (sampleKeys [sampleKeyPair 1, sampleKeyPair 2])).result =
      .val ([sampleKeyPair 1, sampleKeyPair 2].findSome? (unlock Sodium.transparent [0])) :=
  (decryptKeyPair_first_iff (by decide +kernel) (by simp)).mpr (.inl (by decide +kernel))

/-- The password of the second slot is of no use. -/
theorem second_slot_not_returned :
    let kps := [sampleKeyPair 1, sampleKeyPair 2]
    (sampleKeys kps).disk.keyPairs = .ok kps ∧
      (kps.findSome? (unlock Sodium.transparent [0, 0])).isSome ∧
      ((decryptKeyPair Sodium.transparent [0, 0]).run (sampleKeys kps)).result = .val none := by
  decide +kernel

end Controller

end Diffmonger
