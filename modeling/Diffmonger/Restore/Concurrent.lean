import Diffmonger.Lib.Locking
import Diffmonger.Restore.Lossless

/-!
# Commands that run at the same time

The constructor of `RepositoryStructure` waits for a lock on the repository before it reads
anything. The lock belongs to an open file description, which is closed when the process is over,
but which its children have inherited: it is free only when they are gone too. A command that has
been killed may leave the child behind that encrypts, which then writes to the blob still.

Whoever holds the lock is alone with the repository. A run of any number of processes therefore
leaves what their commands leave one after the other, each of them whole or cut somewhere
(`Locking.Run.serial`), and what has been shown of histories applies (`Stored.held_of_restore`).
-/

namespace Diffmonger

open RepositoryStructure Locking

variable {β S V σ Pid : Type} [DecidableEq Pid]

namespace Controller

/-- The child that encrypts reads the key slots, and writes the blob. -/
def ofEncryptionChild : Event → Prop
  | .look | .writeBlob _ => True
  | _ => False

/-- Snapshot commands run at the same time, and may be killed. One of them has run to the end, and
has stored the node `n` last. At any later moment, also while another command is running, what is
there has `n` with the contents of the dataset at the moment when the command got the lock: whenever
it is restored, to whatever dataset, and restoring succeeds, then the dataset holds the snapshot of
`n`, and that has these contents. -/
theorem restore_lossless_concurrent {driver : BackendDriver β S} {contents : Contents β S V}
    {sodium : Sodium σ} {IsKeyPair : ByteArray' 32 → ByteArray' 32 → Prop} {InStep : σ → σ → Prop}
    {encryption : Bool} {key : Option DecryptedKeyPair} (h : Conveys driver contents)
    (hsodium : sodium.Correct IsKeyPair InStep) {w₀ : World β} (h₀ : Created w₀.disk)
    (hgenuine : contents.Genuine w₀.backend)
    {before atLock atEnd after later : Config Event (World β) Exn Unit Pid}
    {ls₁ ls₂ ls₃ : List (Label Event Exn Unit Pid)} {pid : Pid}
    (hbefore : Run (snapshotCommandsOf driver sodium encryption)
      (Meanwhile contents IsKeyPair encryption key) ofEncryptionChild (.init w₀) ls₁ before)
    (hacquire : Step (snapshotCommandsOf driver sodium encryption)
      (Meanwhile contents IsKeyPair encryption key) ofEncryptionChild (.acquire pid) before atLock)
    (hrun : Run (snapshotCommandsOf driver sodium encryption)
      (Meanwhile contents IsKeyPair encryption key) ofEncryptionChild atLock ls₂ atEnd)
    (hfinish : Step (snapshotCommandsOf driver sodium encryption)
      (Meanwhile contents IsKeyPair encryption key) ofEncryptionChild (.finish pid (.val ())) atEnd
      after)
    (hlater : Run (snapshotCommandsOf driver sodium encryption)
      (Meanwhile contents IsKeyPair encryption key) ofEncryptionChild after ls₃ later)
    {n : Node} (hn : (committed (ls₂.filterMap (Label.of pid))).getLast? = some n) {w' : World β}
    (hw' : Meanwhile contents IsKeyPair encryption key later.state w') (env : Env)
    {repositoryParams : RepositoryParams} (henc : repositoryParams.encryption = encryption)
    {password : Option Bytes} (hwith : DecryptsWith sodium encryption password w'.disk key)
    (skipExisting : Bool)
    (hsucceeds : ((restore driver sodium env repositoryParams
      ⟨password, n, skipExisting⟩).run w').result = .val ()) :
    ∃ id, w'.disk.readId n = .ok (some (driver.encoded id)) ∧
      contents.held (stateAfter w' ((restore driver sodium env repositoryParams
        ⟨password, n, skipExisting⟩).run w').steps).backend id =
          some (contents.live atLock.state.backend) := by
  -- The command that has run to the end is one of the history, with the others before and after it.
  obtain ⟨earlier, a, hearlier, hstart, hprogram, hlock, hcompleted, hlabels, hserial⟩ :=
    attempt_of_finish (hbefore.serial (serial_init w₀)) hacquire hrun hfinish
  obtain ⟨as, has⟩ := (hlater.serial hserial).history
  rw [← hlabels] at hn
  obtain ⟨record, id, hstored, hentry⟩ :=
    exists_stored_of_completed h hsodium h₀ hgenuine hearlier hstart hprogram hcompleted hn has
  rw [hlock] at hentry
  exact ⟨id, hstored.held_of_restore h hw' env henc hwith hentry hsucceeds⟩

/-- Two commands have been started. -/
def sampleWaiting : Config Event (World Counter) Exn Unit ℕ :=
  ((Config.init sampleCounter).set 0 (.waiting sampleCounterCommand)).set 1
    (.waiting sampleCounterCommand)

/-- The first command gets the lock and returns; then the second one gets it, and is killed at
once. -/
theorem restore_lossless_concurrent_counter :
    let w := withoutSnapshots sampleFirst.state
    ∃ id, w.disk.readId ⟨0⟩ = .ok (some (Counter.driver.encoded id)) ∧
      Counter.contents.held (stateAfter w ((restore Counter.driver .transparent sampleEnv ⟨true, 0⟩
        ⟨some [0], ⟨0⟩, false⟩).run w).steps).backend id = some 5 := by
  intro w
  let between := Meanwhile Counter.contents (· = ·) true (some sampleKey)
  let atLock := sampleWaiting.set 0 (.running sampleCounterCommand)
  let after := ({ atLock with state := sampleFirst.state }.set 0
    (.running (.done (.val ())))).set 0 .gone
  let later := ({ after with state := sampleFirst.state }.set 1 (.running sampleCounterCommand)).set 1
    (.orphaned sampleCounterCommand)
  have hkeys : sampleFirst.state.disk.keyPairs = .ok [sampleKeyPair 1] := by decide +kernel
  have hkeys₀ : sampleCounter.disk.keyPairs = .ok [sampleKeyPair 1] := by decide +kernel
  have hresult : (sampleCounterCommand.run sampleCounter).result = .val () := by decide +kernel
  have hbefore : Run (snapshotCommandsOf Counter.driver Sodium.transparent true) between
      ofEncryptionChild (.init sampleCounter) [.start 0, .start 1] sampleWaiting :=
    .snoc (.snoc .nil (.start rfl sampleCounterCommand_mem)) (.start rfl sampleCounterCommand_mem)
  -- nobody holds the lock, and the first command gets it
  have hfree : sampleWaiting.Free :=
    Config.Free.set (Config.Free.set (fun _ _ h => by cases h) rfl) rfl
  have hacquire : Step (snapshotCommandsOf Counter.driver Sodium.transparent true) between
      ofEncryptionChild (.acquire 0) sampleWaiting atLock :=
    .acquire rfl hfree ⟨.refl _, fits_sample hkeys₀, .refl _⟩
  have hrun : Run (snapshotCommandsOf Counter.driver Sodium.transparent true) between
      ofEncryptionChild atLock (sampleFirst.steps.map fun step => .act 0 step.1)
      ({ atLock with state := sampleFirst.state }.set 0
        (.running (.done (sampleCounterCommand.run sampleCounter).result))) :=
    run_whole sampleCounterCommand atLock Config.process_set
  rw [hresult] at hrun
  -- it runs to the end, and gives the lock back
  have hfinish : Step (snapshotCommandsOf Counter.driver Sodium.transparent true) between
      ofEncryptionChild (.finish 0 (.val ())) _ after := .finish Config.process_set
  have hstate : after.state = sampleFirst.state := by simp only [after, Config.set]
  have hagain : between after.state sampleFirst.state := by
    rw [hstate]
    exact ⟨.refl _, fits_sample hkeys, .refl _⟩
  have hfree' : after.Free :=
    hfinish.free_of_finish (((hbefore.snoc hacquire).trans hrun).serial (serial_init sampleCounter))
  -- the second one gets the lock, and is killed with its child left behind
  have hlater : Run (snapshotCommandsOf Counter.driver Sodium.transparent true) between
      ofEncryptionChild after [.acquire 1, .kill 1] later :=
    .snoc (.snoc .nil (.acquire rfl hfree' hagain)) (.kill Config.process_set)
  have hw : between later.state w := by
    have hstate' : later.state = sampleFirst.state := by simp only [later, Config.set]
    rw [hstate']
    exact meanwhile_withoutSnapshots hkeys
  have hcommitted : (committed ((sampleFirst.steps.map
      fun step => (.act 0 step.1 : Label Event Exn Unit ℕ)).filterMap (Label.of 0))).getLast? =
        some ⟨0⟩ := by decide +kernel
  have hsucceeds : ((restore Counter.driver .transparent sampleEnv ⟨true, 0⟩
      ⟨some [0], ⟨0⟩, false⟩).run w).result = .val () := by decide +kernel
  exact @restore_lossless_concurrent _ _ _ _ ℕ _ _ _ _ (· = ·) (· = ·) true (some sampleKey)
    Counter.conveys_driver Sodium.transparent_correct _ created_sampleCounter nofun _ _ _ _ _ _ _ _ 0
    hbefore hacquire hrun hfinish hlater ⟨0⟩ hcommitted w hw sampleEnv ⟨true, 0⟩ rfl (some [0])
    (decryptsWith_sample hkeys) false hsucceeds

end Controller

end Diffmonger
