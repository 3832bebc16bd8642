import Diffmonger.ZfsDriver.Spec

/-!
# Adopting a snapshot that is already there

`snapshot` is to return the snapshot that already has the name, which an interrupted command may
have left. It only looks for one if `zfs snapshot` could not be run at all: when the command exits
nonzero, which it does when the name is taken, the exception is a `command_failed`, and its handler
is one for `std::system_error`.

Main result: `adopts_iff`. Each way in which `zfs snapshot` may end leads to one of the cases of
`Exits`, and each of these to one of the two exceptions or to none (`snapshot_of_ok`,
`snapshot_of_commandFailed`, `snapshot_of_systemError`).
-/

namespace Diffmonger

namespace Zfs

variable {β : Type}

/-- What can go wrong with `zfs snapshot`, apart from the name being taken. -/
inductive Fault where
  /-- The command cannot be run. -/
  | notRun (code : Errno) (what : String)
  /-- It exits nonzero although the name is free, and may have created the snapshot. -/
  | failed (created : Bool)

/-- How `zfs snapshot` may end, and the snapshot that has the name afterwards, given the one that
had it before. -/
inductive Exits : Option Fault → Option SnapshotGuid → Except Exn Unit → Option SnapshotGuid → Prop
  | created (guid : SnapshotGuid) : Exits none none (.ok ()) (some guid)
  | taken (guid : SnapshotGuid) (what : String) :
      Exits none (some guid) (.error (.commandFailed what)) (some guid)
  | notRun (code : Errno) (what : String) (old : Option SnapshotGuid) :
      Exits (some (.notRun code what)) old (.error (.systemError code what)) old
  | failed (created : Bool) (what : String) (guid : SnapshotGuid) (old : Option SnapshotGuid) :
      Exits (some (.failed created)) old (.error (.commandFailed what))
        (if created then some (old.getD guid) else old)

/-- If `zfs snapshot` exits nonzero, then no snapshot has the name. -/
def FailsWithoutSnapshot (fault : Option Fault) (old : Option SnapshotGuid) : Prop :=
  match fault with
  | none => old = none
  | some (.notRun _ _) => True
  | some (.failed created) => old = none ∧ created = false

theorem Exits.snapshot_of_not {fault : Option Fault} {old new : Option SnapshotGuid}
    {result : Except Exn Unit} (h : Exits fault old result new)
    (hfault : ¬ FailsWithoutSnapshot fault old) :
    (∃ what, result = .error (.commandFailed what)) ∧ new.isSome := by
  cases h with
  | created guid => exact absurd rfl hfault
  | taken guid what => exact ⟨⟨what, rfl⟩, rfl⟩
  | notRun code what => exact absurd trivial hfault
  | failed created what guid =>
      refine ⟨⟨what, rfl⟩, ?_⟩
      cases created with
      | true => rfl
      | false =>
          rw [if_neg Bool.false_ne_true, ← Option.ne_none_iff_isSome]
          exact fun hnone => hfault ⟨hnone, rfl⟩

/-- `zfs` on a set of snapshots with their guids, of which `zfs snapshot` may suffer a fault. -/
structure SnapshotSet (system : System β) (ds : Dataset)
    (snapshots : β → SnapshotName → Option SnapshotGuid)
    (fault : β → SnapshotName → Option Fault) : Prop where
  snapshot : ∀ b name, ∃ out result b' new,
    system.run (ds.zfsCommand ++ ["snapshot".toList, datasetSnapshotName ds.dataset name]) [] b =
      (⟨out, result⟩, b') ∧ Exits (fault b name) (snapshots b name) result new ∧
      snapshots b' = Function.update (snapshots b) name new
  /-- `zfs get` prints the guid of a snapshot that exists. -/
  get : ∀ b name guid, snapshots b name = some guid → ∃ out b',
    system.run (ds.zfsCommand ++ ["get".toList, "-H".toList, "-o".toList, "value".toList,
      "guid".toList, datasetSnapshotName ds.dataset name]) [] b = (⟨out, .ok ()⟩, b') ∧
      ofBytes out.flatten = guid.str ++ ['\n']
  /-- It exits nonzero if the snapshot does not exist. -/
  get_absent : ∀ b name, snapshots b name = none → ∃ out what b',
    system.run (ds.zfsCommand ++ ["get".toList, "-H".toList, "-o".toList, "value".toList,
      "guid".toList, datasetSnapshotName ds.dataset name]) [] b =
      (⟨out, .error (.commandFailed what)⟩, b')
  get_keeps : ∀ b name, snapshots (system.run (ds.zfsCommand ++ ["get".toList, "-H".toList,
    "-o".toList, "value".toList, "guid".toList, datasetSnapshotName ds.dataset name]) [] b).2 =
      snapshots b

namespace SnapshotSet

variable {system : System β} {ds : Dataset} {snapshots : β → SnapshotName → Option SnapshotGuid}
  {fault : β → SnapshotName → Option Fault} (h : SnapshotSet system ds snapshots fault)
include h

theorem keeps_zfsGetGuid (name : SnapshotName) :
    Shell.Keeps snapshots (zfsGetGuid system ds name) :=
  Zfs.keeps_zfsGetGuid fun b => h.get_keeps b name

theorem zfsGetGuid_eq {b : β} {name : SnapshotName} {guid : SnapshotGuid}
    (hguid : snapshots b name = some guid) :
    ∃ b', zfsGetGuid system ds name b = (.ok guid, b') ∧ snapshots b' = snapshots b := by
  obtain ⟨out, b', hrun, hout⟩ := h.get b name guid hguid
  have hkeeps := h.get_keeps b name
  rw [hrun] at hkeeps
  exact ⟨b', zfsGetGuid_of_printed hrun hout, hkeeps⟩

theorem zfsGetGuid_absent {b : β} {name : SnapshotName} (hnone : snapshots b name = none) :
    ∃ what b', zfsGetGuid system ds name b = (.error (.commandFailed what), b') ∧
      snapshots b' = snapshots b := by
  obtain ⟨out, what, b', hrun⟩ := h.get_absent b name hnone
  have hkeeps := h.get_keeps b name
  rw [hrun] at hkeeps
  refine ⟨what, b', ?_, hkeeps⟩
  rw [zfsGetGuid, Shell.bind_apply, systemvpStr, hrun]
  rfl

theorem zfsSnapshot_eq (b : β) (name : SnapshotName) :
    ∃ result b' new, zfsSnapshot system ds name b = (result, b') ∧
      Exits (fault b name) (snapshots b name) result new ∧
      snapshots b' = Function.update (snapshots b) name new := by
  obtain ⟨out, result, b', new, hrun, hexits, hb'⟩ := h.snapshot b name
  refine ⟨result, b', new, ?_, hexits, hb'⟩
  rw [zfsSnapshot, Shell.bind_apply, systemvpStr, hrun]
  cases result <;> rfl

end SnapshotSet

end Zfs

open Zfs

namespace ZfsDriver.ZfsBackendDriverImpl

variable {β : Type} {system : System β} {impl : ZfsBackendDriverImpl}
  {snapshots : β → SnapshotName → Option SnapshotGuid} {fault : β → SnapshotName → Option Fault}
  {node : Node} {uuid : Uuid} {b b' : β}

/-!
## The handlers

Two `catch` clauses decide. The one around taking the snapshot keeps the exception for later, but
only a `std::system_error`; the one around reading the guid throws the exception that has been kept,
if there is one.
-/

/-- Only a `std::system_error` is kept. -/
theorem trySnapshot_error {name : SnapshotName} {e : Exn}
    (h : zfsSnapshot system impl.toDataset name b = (.error e, b')) :
    trySnapshot system impl name b =
      (if e.isSystemError then .ok (some e) else .error e, b') := by
  rw [trySnapshot, Shell.tryCatch_apply, Shell.bind_apply, h]
  simp only [Shell.andThen]
  split <;> rfl

/-- An exception that has been kept is thrown if the snapshot does not exist. -/
theorem newSnapshotId_error {name : SnapshotName} {e : Exn} (maybeException : Option Exn)
    (h : zfsGetGuid system impl.toDataset name b = (.error e, b')) (he : e.isRuntimeError = true) :
    newSnapshotId system impl node name maybeException b =
      (.error (maybeException.getD e), b') := by
  rw [newSnapshotId, Shell.tryCatch_apply, Shell.bind_apply, h]
  simp only [Shell.andThen, he, if_true]
  rfl

theorem snapshot_of_ok
    (h : zfsSnapshot system impl.toDataset (nameOf node uuid) b = (.ok (), b')) :
    snapshot system impl node uuid b =
      newSnapshotId system impl node (nameOf node uuid) none b' := by
  rw [snapshot_apply, trySnapshot_ok h]
  rfl

/-- A `zfs snapshot` that exits nonzero ends the call. -/
theorem snapshot_of_commandFailed {what : String}
    (h : zfsSnapshot system impl.toDataset (nameOf node uuid) b =
      (.error (.commandFailed what), b')) :
    snapshot system impl node uuid b = (.error (.commandFailed what), b') := by
  rw [snapshot_apply, trySnapshot_error h]
  rfl

/-- One that could not be run does not. -/
theorem snapshot_of_systemError {code : Errno} {what : String}
    (h : zfsSnapshot system impl.toDataset (nameOf node uuid) b =
      (.error (.systemError code what), b')) :
    snapshot system impl node uuid b =
      newSnapshotId system impl node (nameOf node uuid) (some (.systemError code what)) b' := by
  rw [snapshot_apply, trySnapshot_error h]
  rfl

/-! ## When the snapshot is adopted -/

/-- What `snapshot` is to do: return the snapshot that it has created or the one that is already
there, and throw only if there is none. -/
structure Adopts (system : System β) (impl : ZfsBackendDriverImpl)
    (snapshots : β → SnapshotName → Option SnapshotGuid) (fault : β → SnapshotName → Option Fault)
    (node : Node) (uuid : Uuid) (b : β) : Prop where
  created : fault b (nameOf node uuid) = none → snapshots b (nameOf node uuid) = none →
    ∃ guid b', snapshot system impl node uuid b =
        (.ok (⟨node, guid, nameOf node uuid, system.now b'⟩, false), b') ∧
      snapshots b' (nameOf node uuid) = some guid
  existed : ∀ guid, snapshots b (nameOf node uuid) = some guid →
    ∃ b', snapshot system impl node uuid b =
      (.ok (⟨node, guid, nameOf node uuid, system.now b'⟩, true), b')
  throws : ∀ e b', snapshot system impl node uuid b = (.error e, b') →
    snapshots b' (nameOf node uuid) = none

section
variable (h : SnapshotSet system impl.toDataset snapshots fault)
include h

/-- If it exits nonzero, the call throws, whatever there is. -/
theorem snapshot_throws (hfault : ¬ FailsWithoutSnapshot (fault b (nameOf node uuid))
      (snapshots b (nameOf node uuid))) :
    ∃ what b', snapshot system impl node uuid b = (.error (.commandFailed what), b') ∧
      (snapshots b' (nameOf node uuid)).isSome := by
  obtain ⟨result, b', new, hrun, hexits, hb'⟩ := h.zfsSnapshot_eq b (nameOf node uuid)
  obtain ⟨⟨what, rfl⟩, hsome⟩ := hexits.snapshot_of_not hfault
  refine ⟨what, b', snapshot_of_commandFailed hrun, ?_⟩
  rw [hb', Function.update_self]
  exact hsome

theorem adopts_of_absent (hfault : fault b (nameOf node uuid) = none)
    (hold : snapshots b (nameOf node uuid) = none) :
    Adopts system impl snapshots fault node uuid b := by
  obtain ⟨result, b', new, hrun, hexits, hb'⟩ := h.zfsSnapshot_eq b (nameOf node uuid)
  rw [hfault, hold] at hexits
  cases hexits with
  | created guid =>
      have hnew : snapshots b' (nameOf node uuid) = some guid := by rw [hb', Function.update_self]
      obtain ⟨b'', hget, hb''⟩ := h.zfsGetGuid_eq hnew
      have hcall := (snapshot_of_ok hrun).trans (newSnapshotId_ok none hget)
      refine ⟨fun _ _ => ⟨guid, b'', hcall, by rw [hb'', hnew]⟩, fun guid' hguid' => ?_,
        fun e b₃ he => ?_⟩
      · rw [hold] at hguid'
        cases hguid'
      · rw [hcall] at he
        cases he

/-- If the command could not be run, whatever has the name is returned. -/
theorem adopts_of_notRun {code : Errno} {what : String}
    (hfault : fault b (nameOf node uuid) = some (.notRun code what)) :
    Adopts system impl snapshots fault node uuid b := by
  obtain ⟨result, b', new, hrun, hexits, hb'⟩ := h.zfsSnapshot_eq b (nameOf node uuid)
  rw [hfault] at hexits
  cases hexits
  have hsame : snapshots b' (nameOf node uuid) = snapshots b (nameOf node uuid) := by
    rw [hb', Function.update_self]
  cases hold : snapshots b (nameOf node uuid) with
  | none =>
      obtain ⟨what', b'', hget, hb''⟩ := h.zfsGetGuid_absent (hsame.trans hold)
      have hcall := (snapshot_of_systemError hrun).trans (newSnapshotId_error _ hget rfl)
      refine ⟨fun hnone => ?_, fun guid hguid => ?_, fun e b₃ he => ?_⟩
      · rw [hfault] at hnone
        cases hnone
      · rw [hold] at hguid
        cases hguid
      · obtain rfl : b'' = b₃ := congrArg Prod.snd (hcall.symm.trans he)
        rw [hb'', hsame, hold]
  | some guid =>
      obtain ⟨b'', hget, -⟩ := h.zfsGetGuid_eq (hsame.trans hold)
      have hcall := (snapshot_of_systemError hrun).trans (newSnapshotId_ok _ hget)
      refine ⟨fun hnone => ?_, fun guid' hguid' => ?_, fun e b₃ he => ?_⟩
      · rw [hfault] at hnone
        cases hnone
      · obtain rfl : guid = guid' := Option.some.inj (hold.symm.trans hguid')
        exact ⟨b'', hcall⟩
      · rw [hcall] at he
        cases he

/-- If it fails without having taken the snapshot, and there is none, the call throws, as it should.
-/
theorem adopts_of_failed (hfault : fault b (nameOf node uuid) = some (.failed false))
    (hold : snapshots b (nameOf node uuid) = none) :
    Adopts system impl snapshots fault node uuid b := by
  obtain ⟨result, b', new, hrun, hexits, hb'⟩ := h.zfsSnapshot_eq b (nameOf node uuid)
  rw [hfault, hold] at hexits
  cases hexits with
  | failed created what guid =>
      have hcall : snapshot system impl node uuid b = (.error (.commandFailed what), b') :=
        snapshot_of_commandFailed hrun
      refine ⟨fun hnone => ?_, fun guid' hguid' => ?_, fun e b₃ he => ?_⟩
      · rw [hfault] at hnone
        cases hnone
      · rw [hold] at hguid'
        cases hguid'
      · obtain rfl : b' = b₃ := congrArg Prod.snd (hcall.symm.trans he)
        rw [hb', Function.update_self]
        rfl

/-- The call does what it is to do exactly if no snapshot has the name where `zfs snapshot` exits
nonzero. -/
theorem adopts_iff : Adopts system impl snapshots fault node uuid b ↔
    FailsWithoutSnapshot (fault b (nameOf node uuid)) (snapshots b (nameOf node uuid)) := by
  constructor
  · intro hadopts
    by_contra hfault
    obtain ⟨what, b', hcall, hsome⟩ := snapshot_throws h hfault
    rw [hadopts.throws _ b' hcall] at hsome
    cases hsome
  · intro hfault
    rcases hf : fault b (nameOf node uuid) with _ | ⟨code, what⟩ | created
    · rw [hf] at hfault
      exact adopts_of_absent h hf hfault
    · exact adopts_of_notRun h hf
    · rw [hf] at hfault
      obtain ⟨hold, rfl⟩ := hfault
      exact adopts_of_failed h hf hold

end

end ZfsDriver.ZfsBackendDriverImpl

/-! ## The system for runs on fixed inputs -/

namespace Zfs.SamplePool

/-- The sample system, which suffers no faults. -/
theorem snapshotSet : SnapshotSet sampleSystem sampleDriver.toDataset SamplePool.snapshots
    fun _ _ => none where
  snapshot pool name := by
    have hrun := zfs_command pool "snapshot".toList name
    cases hold : pool.snapshots name with
    | none =>
        rw [hold] at hrun
        exact ⟨_, _, _, some pool.nextGuid, hrun, .created _, rfl⟩
    | some guid =>
        rw [hold] at hrun
        refine ⟨_, _, _, some guid, hrun, .taken _ _, ?_⟩
        rw [← hold, Function.update_eq_self]
  get := faultFree.get
  get_absent pool name h := by
    have hrun := zfs_get pool name
    rw [h] at hrun
    exact ⟨_, _, _, hrun⟩
  get_keeps := faultFree.get_keeps

end Zfs.SamplePool

end Diffmonger
