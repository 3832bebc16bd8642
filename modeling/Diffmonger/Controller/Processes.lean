import Diffmonger.Controller.Snapshots
import Diffmonger.Controller.Spec
import Diffmonger.EncryptionUtil.Spec
import Diffmonger.Lib.Pipeline
import Diffmonger.Restore

/-!
# The processes of an encrypted snapshot

`store_snapshot` and `withDecryptedInput` connect a child process, which encrypts or decrypts, with
the backend's own process. Here these are processes that run at the same time, in any order of their
steps, and may be killed. `storeEncrypted` and `withDecryptedInput`, which do one thing after the
other, are what they amount to.

The parent's part is a `Pipeline.Script`, and that it is disciplined is decided by evaluation. The
rest is `Pipeline.implements`: no deadlock, an end after boundedly many steps, and the same outcome
as the sequential program has. The comments in the source that call the order of fork and close
important are right: without either, there are runs in which nothing fails that never end.
-/

namespace Diffmonger

open Prog Pipeline

variable {β σ : Type}

/-!
## What the parent does

The calls of `fork`, `close` and `wait` in `store_snapshot` and `restore`, with the exceptions that
may come between them, as scripts. Everything that a script does not mention, such as the blob's own
file descriptor, is private to one process.
-/

/-- Run a program with one end of the pipe, which is closed here, and wait for it. If it could not
be executed, the destructor of its `PidOwner` waits. -/
def systemvpThrowOnFailure3 (role : Role) (next failed : Script) : Script :=
  .attempt
    (.fork role <| .close role.own <|
      .launched role (.wait role next failed) (.wait role failed failed))
    (.close role.own failed)

/-- A child made by `runInChild` has one end, a method of the backend the other one, which the
method closes also if it throws before it gets to run anything. The child is waited for in any case,
but only `wait_or_throw` minds how it has ended. -/
def backendWithChild (child backend : Role) : Script :=
  .attempt
    (.fork child <| .close child.own <|
      .attempt
        (systemvpThrowOnFailure3 backend (.wait child (.stop true) (.stop false))
          (.wait child (.stop false) (.stop false)))
        (.close backend.own <| .wait child (.stop false) (.stop false)))
    (.close .read <| .close .write <| .stop false)

namespace Controller

/-- `store_snapshot`, if encryption is enabled. -/
def storeScript : Script := backendWithChild .consumer .producer

/-- `withDecryptedInput`. -/
def restoreScript : Script := backendWithChild .producer .consumer

/-!
## What the children do

A plan says what the two processes at the ends of the pipe do with it: what is written, what becomes
of what has been read, and which ends are closed first. These are taken from the sequential model.
-/

/-- Does the child succeed that encrypts the given data? -/
def encrypts (sodium : Sodium σ) (env : Env) (node : Node) (w : World β) (plaintext : Bytes) :
    Bool :=
  match ((encryptInChild sodium env node plaintext : Repo β Stream).run w).result with
  | .val encrypted => encrypted.result.isOk
  | _ => false

/-- The backend writes to the pipe; the child reads up to the end of its input. -/
def storePlan (sodium : Sodium σ) (env : Env) (node : Node) (stream : Stream) (w : World β)
    (capacity : ℕ) : Plan UInt8 where
  output := stream.bytes
  producerOk := stream.result.isOk
  consumerOk := encrypts sodium env node w
  closes _ := true
  quits := false
  capacity

/-- The child writes to the pipe what it decrypts; the backend may stop before the end of that. -/
def restorePlan (sodium : Sodium σ) (input : Bytes) (decryptedKeyPair : DecryptedKeyPair)
    (f : Bytes → Repo β Unit) (w : World β) (capacity : ℕ) : Plan UInt8 where
  output := (EncryptionUtil.decryptFromFd sodium decryptedKeyPair input).bytes
  producerOk := (EncryptionUtil.decryptFromFd sodium decryptedKeyPair input).result.isOk
  consumerOk input := ((f input).run w).result = .val ()
  closes _ := true
  quits := true
  capacity

/-!
## One after the other

When the sequential programs return, in terms of what the two sides do.
-/

theorem isOk_iff {x : Except Exn Unit} : x.isOk = true ↔ x = .ok () := by
  cases x with
  | error e => simp [Except.isOk, Except.toBool]
  | ok u => simp [Except.isOk, Except.toBool]

/-- The sequential program returns if the backend and the child succeed. -/
theorem storeEncrypted_returns_iff {sodium : Sodium σ} {env : Env} {node : Node} {stream : Stream}
    {w : World β} : ((storeEncrypted sodium env node stream).run w).result = .val () ↔
      stream.result.isOk = true ∧ encrypts sodium env node w stream.bytes = true := by
  obtain ⟨encrypted, hchild⟩ : ∃ encrypted,
      (encryptInChild sodium env node stream.bytes : Repo β Stream).Ends
        (fun r w' => w' = w ∧ r = .val encrypted) w :=
      ⟨_, encryptInChild_ends sodium env node stream.bytes w⟩
  have hends : (storeEncrypted sodium env node stream).Ends
      (fun r _ => r = .val () ↔
        stream.result.isOk = true ∧ encrypts sodium env node w stream.bytes = true) w := by
    intro tr
    rw [storeEncrypted, wp_bind]
    refine wp_post ?_ (hchild tr)
    rintro r tr w' ⟨-, rfl⟩
    rw [encrypts, (ends_iff_run.mp hchild).2]
    rw [bindPost, wp_bind]
    refine wp_post ?_ (wp_writeBlob encrypted.chunks tr w')
    rintro r tr w'' ⟨rfl, -⟩
    simp only [bindPost, wp_bind, wp_ofExcept, isOk_iff]
    cases stream.result with
    | error e => simp [Result.ofExcept]
    | ok u =>
        cases hresult : encrypted.result with
        | error e => simp [Result.ofExcept]
        | ok u => simp [Result.ofExcept]
  exact ends_iff_run.mp hends

/-- It returns if the payload can be decrypted, and what is called with it returns. -/
theorem withDecryptedInput_returns_iff {sodium : Sodium σ} {input : Bytes}
    {decryptedKeyPair : DecryptedKeyPair} {f : Bytes → Repo β Unit} {w : World β} :
    ((withDecryptedInput sodium input decryptedKeyPair f).run w).result = .val () ↔
      (EncryptionUtil.decryptFromFd sodium decryptedKeyPair input).result.isOk = true ∧
        ((f (EncryptionUtil.decryptFromFd sodium decryptedKeyPair input).bytes).run w).result =
          .val () := by
  set output := EncryptionUtil.decryptFromFd sodium decryptedKeyPair input with houtput
  have hf : (f output.bytes).Ends (fun r _ => r = ((f output.bytes).run w).result) w :=
    ends_iff_run.mpr rfl
  have hends : (withDecryptedInput sodium input decryptedKeyPair f).Ends
      (fun r _ => r = .val () ↔
        output.result.isOk = true ∧ ((f output.bytes).run w).result = .val ()) w := by
    intro tr
    rw [withDecryptedInput, wp_bind]
    refine wp_post ?_ (hf tr)
    rintro r tr w' rfl
    simp only [isOk_iff]
    rw [← houtput]
    cases ((f output.bytes).run w).result with
    | exn e => simp [bindPost]
    | diverged => simp [bindPost]
    | val u =>
        cases hresult : output.result with
        | error e => simp [bindPost]
        | ok u => simp [bindPost]
  exact ends_iff_run.mp hends

/-!
## At the same time

That a script is disciplined is decided by evaluation, once for all inputs. The rest is the theorem
about disciplined scripts: however the processes are scheduled, they come to an end, and to the same
one as the sequential program.
-/

theorem disciplined_storeScript : storeScript.Disciplined Track.init := by decide

theorem disciplined_restoreScript : restoreScript.Disciplined Track.init := by decide

/-- The processes of `store_snapshot` do what `storeEncrypted` does. -/
theorem storeScript_implements {sodium : Sodium σ} {env : Env} {node : Node} {stream : Stream}
    {w : World β} {capacity : ℕ} (hcapacity : 0 < capacity) :
    Implements (storePlan sodium env node stream w capacity) storeScript
      (((storeEncrypted sodium env node stream).run w).result = .val ()) :=
  implements disciplined_storeScript hcapacity (fun _ => rfl) storeEncrypted_returns_iff

/-- With a pipe that holds 65536 bytes. -/
theorem storeScript_implements_pipe :
    Implements (storePlan .transparent sampleEnv ⟨0⟩ ⟨[[7]], .ok ()⟩ sampleWorld 65536) storeScript
      (((storeEncrypted .transparent sampleEnv ⟨0⟩ ⟨[[7]], .ok ()⟩).run sampleWorld).result =
        .val ()) :=
  storeScript_implements (by decide)

/-- The processes of `withDecryptedInput` do what its sequential form does. -/
theorem restoreScript_implements {sodium : Sodium σ} {input : Bytes}
    {decryptedKeyPair : DecryptedKeyPair} {f : Bytes → Repo β Unit} {w : World β} {capacity : ℕ}
    (hcapacity : 0 < capacity) :
    Implements (restorePlan sodium input decryptedKeyPair f w capacity) restoreScript
      (((withDecryptedInput sodium input decryptedKeyPair f).run w).result = .val ()) := by
  refine implements disciplined_restoreScript hcapacity (fun _ => rfl) ?_
  rw [withDecryptedInput_returns_iff]
  exact and_congr_right fun _ => decide_eq_true_iff.symm

/-- A payload of three bytes, which the backend reads up to the end. -/
theorem restoreScript_implements_pipe :
    let key : DecryptedKeyPair := ⟨sampleKeyPair 1, .replicate 32 1⟩
    let input := (EncryptionUtil.encryptToFd Sodium.transparent (sampleEnv.random ⟨0⟩)
      [sampleKeyPair 1] [1, 2, 3]).bytes
    let f : Bytes → Repo Unit Unit := fun _ => return
    let plan := restorePlan Sodium.transparent input key f sampleWorld 65536
    plan.output = [1, 2, 3] ∧ plan.producerOk = true ∧
      ((withDecryptedInput Sodium.transparent input key f).run sampleWorld).result = .val () ∧
      Implements plan restoreScript
        (((withDecryptedInput Sodium.transparent input key f).run sampleWorld).result = .val ()) :=
  ⟨by decide +kernel, by decide +kernel, by decide +kernel, restoreScript_implements (by decide)⟩

/-!
## What the comments call important

Two comments in the source warn of a deadlock. Without the step that they ask for, no run in which
nothing fails ends.
-/

/-- The child has to close the write end that it inherits: otherwise the processes never end, unless
something fails. -/
theorem storeScript_endless {plan : Plan UInt8} {ls : List Label} {s : State UInt8}
    {returned : Bool} (hcloses : plan.closes .consumer = false)
    (h : Run plan (init plan storeScript) ls s) (hls : ∀ l ∈ ls, l = .step) :
    ¬ s.Ended returned :=
  h.not_ended_of_keeps disciplined_storeScript hls hcloses

/-- A child that encrypts without closing the write end. -/
def samplePlan : Plan UInt8 := ⟨[7], true, fun _ => true, (· == .producer), false, 1⟩

/-- The backend is done, the child has read everything, and the parent waits for it. -/
theorem storeScript_endless_sample :
    ∃ ls s, Run samplePlan (init samplePlan storeScript) ls s ∧ s.received = [7] ∧
      ¬ s.Ended true := by
  have h : Run samplePlan (init samplePlan storeScript) [] _ := .nil
  -- the child
  have h := h.snoc (.attempt rfl)
  have h := h.snoc (.fork rfl)
  have h := h.snoc (.close rfl)
  have h := h.snoc (@Step.start _ _ _ .consumer _ rfl rfl)
  -- the backend
  have h := h.snoc (.attempt rfl)
  have h := h.snoc (.attempt rfl)
  have h := h.snoc (.fork rfl)
  have h := h.snoc (.close rfl)
  have h := h.snoc (@Step.start _ _ _ .producer _ rfl rfl)
  have h := h.snoc (.launched rfl rfl (.inl rfl))
  have h := h.snoc (.write rfl rfl (by decide) (List.append_nil [7]).symm (List.cons_ne_nil _ _)
    (.inr ⟨.consumer, _, rfl, by decide⟩) (by decide))
  have h := h.snoc (.read rfl rfl (by decide) (List.append_nil [7]).symm (List.cons_ne_nil _ _))
  have h := h.snoc (.finish rfl rfl rfl)
  have h := h.snoc (.wait rfl rfl rfl)
  exact ⟨_, _, h, rfl, storeScript_endless rfl h (by decide)⟩

/-- The parent has to close the read end, and to have a child that reads, before it calls the
backend: otherwise it waits for the backend forever if there is more to write than fits into the
pipe, unless something else fails. -/
theorem systemvpThrowOnFailure3_endless {plan : Plan UInt8} {next failed : Script}
    {ls : List Label} {s s' : State UInt8} {returned : Bool}
    (hscript : s.script = systemvpThrowOnFailure3 .producer next failed)
    (hread : .read ∈ s.holds) (hconsumer : ∀ c, s.child .consumer = some c → c.phase.Over)
    (hproducer : s.child .producer = none) (hpending : s.pending = plan.output)
    (hbuffer : s.buffer = []) (hreceived : s.received = [])
    (hlong : plan.capacity < plan.output.length) (h : Run plan s ls s')
    (hls : ∀ l ∈ ls, l = .step) : ¬ s'.Ended returned := by
  refine h.not_ended_of_blocked hls
    ⟨?_, hread, hconsumer, fun c hchild => ?_, ?_, ?_, ?_⟩
  · rw [hscript]
    exact ⟨rfl, by decide, rfl, rfl⟩
  · cases hproducer.symm.trans hchild
  · rw [hreceived, hbuffer, hpending]
    rfl
  · rw [hbuffer]
    exact Nat.zero_le _
  · rw [hreceived, List.length_nil, Nat.zero_add]
    exact hlong

/-- The pipe holds one byte, and the backend has two to write. -/
theorem systemvpThrowOnFailure3_endless_sample :
    let plan : Plan UInt8 := { samplePlan with output := [7, 8] }
    let script := systemvpThrowOnFailure3 .producer (.stop true) (.stop false)
    ∃ ls s, Run plan (init plan script) ls s ∧ s.buffer = [7] ∧ ¬ s.Ended true := by
  intro plan script
  have h : Run plan (init plan script) [] _ := .nil
  have h := h.snoc (.attempt rfl)
  have h := h.snoc (.fork rfl)
  have h := h.snoc (.close rfl)
  have h := h.snoc (@Step.start _ _ _ .producer _ rfl rfl)
  have h := h.snoc (.launched rfl rfl (.inl rfl))
  have h := h.snoc (@Step.write _ _ _ _ [7] [8] rfl rfl (by decide) rfl (List.cons_ne_nil _ _)
    (.inl (by decide)) (by decide))
  exact ⟨_, _, h, rfl, systemvpThrowOnFailure3_endless rfl (by decide) (fun _ h => by cases h) rfl
    rfl rfl rfl (by decide) h (by decide)⟩

end Controller

end Diffmonger
