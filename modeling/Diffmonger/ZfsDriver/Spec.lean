import Diffmonger.ZfsDriver

/-!
# What the ZFS driver does

The driver talks to `zfs` in text: it prints names and numbers, and reads a guid from what `zfs get`
prints. Both directions are exact, since a name consists of characters that are bytes
(`ofBytes_toBytes`) and a guid is printed in decimal (`SnapshotGuid.ofString_str`), and snapshots of
different nodes have different names (`nameOf_injective`).

`FaultFree` says what `zfs` does if nothing goes wrong. With it, the methods that only look leave
the snapshots alone, and taking the snapshot of a node adds just this one (`snapshot_eq`).
-/

namespace Diffmonger

open Serialisation

namespace Zfs

/-!
## Numbers and names

What is printed consists of characters below 256, of which each is one byte, and the numbers are in
decimal. So what is printed is read back as it was.
-/

theorem stoull_decimal (n : UInt64) : stoull (decimal n.toNat) = .ok n := by
  have hne : (decimal n.toNat).isEmpty = false := by
    rw [decimal, List.isEmpty_eq_false_iff]
    exact Nat.toDigits_ne_nil
  rw [stoull, hne]
  simp only [Bool.false_eq_true, if_false]
  rw [decimal, Nat.ofDigitChars_ten_toDigits, if_neg (by have := n.toNat_lt; omega),
    UInt64.ofNat_toNat]

theorem all_isDigit_decimal (n : ℕ) : (decimal n).all Char.isDigit = true :=
  List.all_eq_true.mpr fun _ hc => Nat.isDigit_of_mem_toDigits (by decide) (by decide) hc

theorem decimal_injective {m n : ℕ} (h : decimal m = decimal n) : m = n := by
  rw [← Nat.ofDigitChars_ten_toDigits (n := m), ← Nat.ofDigitChars_ten_toDigits (n := n)]
  exact congrArg (Nat.ofDigitChars 10 · 0) h

@[simp] theorem SnapshotGuid.ofString_str (guid : SnapshotGuid) : ofString guid.str = .ok guid := by
  rw [ofString, str, if_pos (all_isDigit_decimal _), stoull_decimal]
  simp only [bind, Except.bind, dif_neg guid.nonzero, if_true]
  rfl

@[simp] theorem SnapshotName.ofString_str (name : SnapshotName) : ofString name.str = .ok name :=
  dif_pos name.valid

theorem ofUInt8_toUInt8 {c : Char} (h : c.toNat < 256) : Char.ofUInt8 c.toUInt8 = c := by
  refine Char.ext (UInt32.toNat_inj.mp ?_)
  show c.val.toUInt8.toUInt32.toNat = c.val.toNat
  rw [UInt8.toNat_toUInt32, UInt32.toNat_toUInt8]
  exact Nat.mod_eq_of_lt h

/-- Characters that are bytes survive being written. -/
theorem ofBytes_toBytes {str : List Char} (h : ∀ c ∈ str, c.toNat < 256) :
    ofBytes (toBytes str) = str := by
  rw [ofBytes, toBytes, List.map_map]
  exact (List.map_congr_left fun c hc => ofUInt8_toUInt8 (h c hc)).trans (List.map_id str)

theorem toNat_lt_of_isDigit {c : Char} (h : c.isDigit = true) : c.toNat < 256 := by
  simp only [Char.isDigit, Bool.and_eq_true, decide_eq_true_eq] at h
  exact (UInt32.le_iff_toNat_le.mp h.2).trans_lt (by decide)

theorem toNat_lt_of_isAlpha {c : Char} (h : c.isAlpha = true) : c.toNat < 256 := by
  have hranges : (decide (c.val ≥ 'A'.val ∧ c.val ≤ 'Z'.val) ||
      (decide (c.val ≥ 'a'.val) && decide (c.val ≤ 'z'.val))) = true := h
  simp only [Bool.or_eq_true, Bool.and_eq_true, decide_eq_true_eq] at hranges
  rcases hranges with h | h
  · exact (UInt32.le_iff_toNat_le.mp h.2).trans_lt (by decide)
  · exact (UInt32.le_iff_toNat_le.mp h.2).trans_lt (by decide)

theorem toNat_lt_of_isNameChar {c : Char} (h : (isNameChar c || c == ':') = true) :
    c.toNat < 256 := by
  simp only [isNameChar, Char.isAlphanum, Bool.or_eq_true, beq_iff_eq] at h
  rcases h with ((((h | h) | rfl) | rfl) | rfl) | rfl
  · exact toNat_lt_of_isAlpha h
  · exact toNat_lt_of_isDigit h
  all_goals decide

theorem SnapshotName.toNat_lt (name : SnapshotName) : ∀ c ∈ name.str, c.toNat < 256 := by
  obtain ⟨str, valid⟩ := name
  cases str with
  | nil => simp
  | cons c rest =>
      simp only [matchesSnapshotName, Bool.and_eq_true, List.all_eq_true] at valid
      intro d hd
      rcases List.mem_cons.mp hd with rfl | hd
      · exact toNat_lt_of_isAlpha valid.1.1
      · exact toNat_lt_of_isNameChar (valid.2 d hd)

theorem SnapshotGuid.toNat_lt (guid : SnapshotGuid) : ∀ c ∈ guid.str, c.toNat < 256 :=
  fun c hc => toNat_lt_of_isDigit (List.all_eq_true.mp (all_isDigit_decimal _) c hc)

end Zfs

open Zfs

namespace ZfsDriver

/-!
## The name of a node's snapshot

The name has the node's number and the repository's uuid in it. It matches the pattern of the
source, and nodes with different numbers have different names.
-/

theorem isNameChar_digitChar {n : ℕ} (h : n < 16) : isNameChar n.digitChar = true := by
  interval_cases n <;> decide

theorem isNameChar_ascii (uuid : Uuid) : (ascii uuid).all isNameChar = true := by
  simp only [ascii, List.all_flatMap, List.all_eq_true]
  intro b _
  have hhigh : b.toNat / 16 < 16 := Nat.div_lt_of_lt_mul b.toNat_lt
  have hlow : b.toNat % 16 < 16 := Nat.mod_lt _ (by decide)
  intro c hc
  rcases List.mem_pair.mp hc with rfl | rfl
  · exact isNameChar_digitChar hhigh
  · exact isNameChar_digitChar hlow

theorem length_ascii (uuid : Uuid) : (ascii uuid).length = 32 := by
  have hsum : (ascii uuid).length = (uuid.toList.map fun _ => 2).sum := by
    rw [ascii, List.length_flatMap]
    rfl
  rw [hsum]
  simp

theorem toList_diffmonger : "diffmonger-".toList = 'd' :: "iffmonger-".toList := rfl

/-- The names that the driver makes have the form that it checks. -/
theorem matchesSnapshotName_snapshotName (node : Node) (uuid : Uuid) :
    matchesSnapshotName (snapshotName node uuid) = true := by
  have hdigits : (decimal node.toNat).all isNameChar = true := by
    refine List.all_eq_true.mpr fun c hc => ?_
    have hdigit := List.all_eq_true.mp (all_isDigit_decimal _) c hc
    simp [isNameChar, Char.isAlphanum, hdigit]
  have hlength := length_decimal node.toNat_lt
  have hname : snapshotName node uuid =
      'd' :: ("iffmonger-".toList ++ (decimal node.toNat ++ '-' :: ascii uuid)) := by
    unfold snapshotName
    rw [toList_diffmonger, List.cons_append, List.cons_append, List.append_assoc]
  have hcolon {l : List Char} (h : l.all isNameChar = true) :
      (l.all fun c => isNameChar c || c == ':') = true :=
    List.all_eq_true.mpr fun c hc => by simp [List.all_eq_true.mp h c hc]
  have hrest : ("iffmonger-".toList ++ (decimal node.toNat ++ '-' :: ascii uuid)).length ≤ 254 := by
    have hprefix : "iffmonger-".toList.length = 10 := by simp
    have hascii := length_ascii uuid
    simp only [List.length_append, List.length_cons]
    omega
  have hchars : ("iffmonger-".toList ++ (decimal node.toNat ++ '-' :: ascii uuid)).all
      fun c => isNameChar c || c == ':' := by
    simp only [List.all_append, List.all_cons, hcolon hdigits, hcolon (isNameChar_ascii uuid)]
    decide
  rw [hname, matchesSnapshotName, hchars, decide_eq_true hrest]
  decide

theorem snapshotName_injective {m n : Node} {uuid : Uuid}
    (h : snapshotName m uuid = snapshotName n uuid) : m = n := by
  unfold snapshotName at h
  rw [List.append_assoc, List.append_assoc, List.append_right_inj, List.append_left_inj] at h
  exact Node.toNat_inj.mp (decimal_injective h)

/-- The name as the driver has it. -/
def nameOf (node : Node) (uuid : Uuid) : SnapshotName :=
  ⟨snapshotName node uuid, matchesSnapshotName_snapshotName node uuid⟩

theorem nameOf_injective {m n : Node} {uuid : Uuid} (h : nameOf m uuid = nameOf n uuid) : m = n :=
  snapshotName_injective (congrArg SnapshotName.str h)

end ZfsDriver

namespace ZfsDriver.ZfsBackendDriverImpl

/-- The id of a snapshot has the time that the clock shows when the call returns. -/
theorem timestamp_of_snapshot {β : Type} {system : System β} {impl : ZfsBackendDriverImpl}
    {node : Node} {uuid : Uuid} {b : β} {id : SnapshotIdImpl} {old : Bool}
    (h : (snapshot system impl node uuid b).1 = .ok (id, old)) :
    id.timestamp = system.now (snapshot system impl node uuid b).2 := by
  unfold snapshot at h ⊢
  obtain ⟨name, b₁, hname, h⟩ := Shell.ok_of_bind h
  obtain ⟨maybeException, b₂, htry, h⟩ := Shell.ok_of_bind h
  rw [Shell.bind_apply, hname, Shell.andThen, Shell.bind_apply, htry, Shell.andThen]
  rw [newSnapshotId, Shell.tryCatch_apply, Shell.bind_apply] at h ⊢
  rcases hguid : zfsGetGuid system impl.toDataset name b₂ with ⟨e | guid, b₃⟩
  · simp only [hguid, Shell.andThen] at h
    split at h <;> cases h
  · rw [hguid] at h
    cases h
    rfl

end ZfsDriver.ZfsBackendDriverImpl

/-!
## Views of the dataset

A computation that leaves a view alone does so whichever of its commands fail.
-/

section
variable {β α γ δ : Type} {view : β → δ}

/-- The computation leaves what `view` sees of the dataset as it is. -/
def Shell.Keeps (view : β → δ) (p : Shell β α) : Prop := ∀ b, view (p b).2 = view b

namespace Shell

theorem keeps_pure (a : α) : Keeps view (pure a : Shell β α) := fun _ => rfl

theorem keeps_throw (e : Exn) : Keeps view (throw e : Shell β α) := fun _ => rfl

theorem Keeps.bind {p : Shell β α} {k : α → Shell β γ} (hp : Keeps view p)
    (hk : ∀ a, Keeps view (k a)) : Keeps view (p >>= k) := by
  intro b
  have hfirst := hp b
  rw [bind_apply]
  rcases hb : p b with ⟨e | a, b'⟩
  · rwa [hb] at hfirst
  · rw [hb] at hfirst
    exact (hk a b').trans hfirst

theorem Keeps.tryCatch {p : Shell β α} {h : Exn → Shell β α} (hp : Keeps view p)
    (hh : ∀ e, Keeps view (h e)) : Keeps view (MonadExcept.tryCatch p h) := by
  intro b
  have hfirst := hp b
  rw [tryCatch_apply]
  rcases hb : p b with ⟨e | a, b'⟩
  · rw [hb] at hfirst
    exact (hh e b').trans hfirst
  · rwa [hb] at hfirst

end Shell

end

/-!
## A system without faults

What is printed is read back, and a command that is run succeeds if its arguments make sense.
-/

namespace Zfs

variable {β : Type}

/-- What `zfs` does to the dataset when nothing goes wrong and nobody else touches the dataset:
`snapshots` says which snapshots there are, and with which guids. -/
structure FaultFree (system : System β) (ds : Dataset)
    (snapshots : β → SnapshotName → Option SnapshotGuid) : Prop where
  /-- `zfs snapshot` creates. -/
  snapshot : ∀ b name, snapshots b name = none → ∃ out guid b',
    system.run (ds.zfsCommand ++ ["snapshot".toList, datasetSnapshotName ds.dataset name]) [] b =
      (⟨out, .ok ()⟩, b') ∧ snapshots b' = Function.update (snapshots b) name (some guid)
  /-- `zfs get` prints the guid. -/
  get : ∀ b name guid, snapshots b name = some guid → ∃ out b',
    system.run (ds.zfsCommand ++ ["get".toList, "-H".toList, "-o".toList, "value".toList,
      "guid".toList, datasetSnapshotName ds.dataset name]) [] b = (⟨out, .ok ()⟩, b') ∧
      ofBytes out.flatten = guid.str ++ ['\n']
  get_keeps : ∀ b name, snapshots (system.run (ds.zfsCommand ++ ["get".toList, "-H".toList,
    "-o".toList, "value".toList, "guid".toList, datasetSnapshotName ds.dataset name]) [] b).2 =
      snapshots b
  /-- `zfs destroy` removes the named snapshot. -/
  destroy : ∀ b name, (snapshots b name).isSome → ∃ out b',
    system.run (ds.zfsCommand ++ ["destroy".toList, datasetSnapshotName ds.dataset name]) [] b =
      (⟨out, .ok ()⟩, b') ∧ snapshots b' = Function.update (snapshots b) name none
  send_keeps : ∀ b name, snapshots (zfsSend system ds name b).2 = snapshots b
  diffsend_keeps : ∀ b name base, snapshots (zfsDiffsend system ds name base b).2 = snapshots b

section
variable {system : System β} {ds : Dataset} {snapshots : β → SnapshotName → Option SnapshotGuid}

theorem keeps_systemvpStr {δ : Type} {view : β → δ} {argv : List (List Char)} {stdin : Bytes}
    (h : ∀ b, view (system.run argv stdin b).2 = view b) :
    Shell.Keeps view (systemvpStr system argv stdin) := h

theorem keeps_zfsGetGuid {δ : Type} {view : β → δ} {name : SnapshotName}
    (h : ∀ b, view (system.run (ds.zfsCommand ++ ["get".toList, "-H".toList, "-o".toList,
      "value".toList, "guid".toList, datasetSnapshotName ds.dataset name]) [] b).2 = view b) :
    Shell.Keeps view (zfsGetGuid system ds name) := by
  refine (keeps_systemvpStr h).bind fun out => ?_
  dsimp only
  split
  · exact fun b => rfl
  · exact Shell.keeps_throw _

theorem FaultFree.keeps_zfsGetGuid (h : FaultFree system ds snapshots) (name : SnapshotName) :
    Shell.Keeps snapshots (zfsGetGuid system ds name) :=
  Zfs.keeps_zfsGetGuid fun b => h.get_keeps b name

/-- The guid that is printed is read. -/
theorem zfsGetGuid_of_printed {b b' : β} {name : SnapshotName} {guid : SnapshotGuid}
    {out : List Bytes}
    (hrun : system.run (ds.zfsCommand ++ ["get".toList, "-H".toList, "-o".toList, "value".toList,
      "guid".toList, datasetSnapshotName ds.dataset name]) [] b = (⟨out, .ok ()⟩, b'))
    (hout : ofBytes out.flatten = guid.str ++ ['\n']) :
    zfsGetGuid system ds name b = (.ok guid, b') := by
  have hchomp : strchomp (ofBytes out.flatten) = guid.str := by
    rw [hout, strchomp, List.getLast?_concat, if_pos rfl, List.dropLast_concat]
  have hdigits : verifyGuid guid.str = true := by
    rw [verifyGuid, SnapshotGuid.str, all_isDigit_decimal, Bool.and_true, Bool.not_eq_true',
      List.isEmpty_eq_false_iff]
    exact Nat.toDigits_ne_nil
  rw [zfsGetGuid, Shell.bind_apply, systemvpStr, hrun]
  simp only [Except.map, Shell.andThen, hchomp, hdigits, if_true, SnapshotGuid.ofString_str]
  rfl

theorem FaultFree.zfsGetGuid_eq (h : FaultFree system ds snapshots) {b : β} {name : SnapshotName}
    {guid : SnapshotGuid} (hguid : snapshots b name = some guid) :
    ∃ b', zfsGetGuid system ds name b = (.ok guid, b') ∧ snapshots b' = snapshots b := by
  obtain ⟨out, b', hrun, hout⟩ := h.get b name guid hguid
  have hkeeps := h.get_keeps b name
  rw [hrun] at hkeeps
  exact ⟨b', zfsGetGuid_of_printed hrun hout, hkeeps⟩

theorem FaultFree.zfsSnapshot_eq (h : FaultFree system ds snapshots) {b : β} {name : SnapshotName}
    (hnone : snapshots b name = none) :
    ∃ guid b', zfsSnapshot system ds name b = (.ok (), b') ∧
      snapshots b' = Function.update (snapshots b) name (some guid) := by
  obtain ⟨out, guid, b', hrun, hb'⟩ := h.snapshot b name hnone
  refine ⟨guid, b', ?_, hb'⟩
  rw [zfsSnapshot, Shell.bind_apply, systemvpStr, hrun]
  rfl

end

end Zfs

namespace ZfsDriver.ZfsBackendDriverImpl

variable {β : Type} {system : System β} {impl : ZfsBackendDriverImpl}
  {snapshots : β → SnapshotName → Option SnapshotGuid}

theorem sendVerified_keeps {verify : Shell β Unit} (hverify : Shell.Keeps snapshots verify)
    {send : β → Stream × β} (hsend : ∀ b, snapshots (send b).2 = snapshots b) (b : β) :
    snapshots (sendVerified verify send b).2 = snapshots b := by
  have hfirst := hverify b
  unfold sendVerified
  rcases hb : verify b with ⟨e | _, b'⟩
  · rwa [hb] at hfirst
  · rw [hb] at hfirst
    exact (hsend b').trans hfirst

section
variable {δ : Type} {view : β → δ}
  (h : ∀ name, Shell.Keeps view (zfsGetGuid system impl.toDataset name))
include h

theorem keeps_castAndVerify (id : SnapshotIdImpl) :
    Shell.Keeps view (castAndVerify system impl id) := by
  refine ((h id.name).tryCatch fun e => ?_).bind fun guid => ?_
  · split <;> exact Shell.keeps_throw _
  · split
    · exact Shell.keeps_throw _
    · exact Shell.keeps_pure _

theorem keeps_existsSnapshot (id : SnapshotIdImpl) :
    Shell.Keeps view (existsSnapshot system impl id) := by
  refine ((keeps_castAndVerify h id).bind fun _ => Shell.keeps_pure _).tryCatch fun e => ?_
  split
  · exact Shell.keeps_pure _
  · exact Shell.keeps_throw _

end

/-!
### Taking a snapshot

Creating the snapshot, and then asking for its guid and for the time.
-/

section
variable {node : Node} {uuid : Uuid} {b b' : β}

theorem snapshot_apply (node : Node) (uuid : Uuid) (b : β) :
    snapshot system impl node uuid b =
      Shell.andThen (newSnapshotId system impl node (nameOf node uuid))
        (trySnapshot system impl (nameOf node uuid) b) := by
  have hname : SnapshotName.ofString (snapshotName node uuid) = .ok (nameOf node uuid) :=
    SnapshotName.ofString_str (nameOf node uuid)
  rw [snapshot, hname, Shell.bind_apply]
  show Shell.andThen _ (.ok (nameOf node uuid), b) = _
  rw [Shell.andThen, Shell.bind_apply]

theorem trySnapshot_ok (h : zfsSnapshot system impl.toDataset (nameOf node uuid) b = (.ok (), b')) :
    trySnapshot system impl (nameOf node uuid) b = (.ok none, b') := by
  rw [trySnapshot, Shell.tryCatch_apply, Shell.bind_apply, h]
  rfl

/-- The guid that is read is the one of the new id. -/
theorem newSnapshotId_ok {name : SnapshotName} {guid : SnapshotGuid} (maybeException : Option Exn)
    (h : zfsGetGuid system impl.toDataset name b = (.ok guid, b')) :
    newSnapshotId system impl node name maybeException b =
      (.ok (⟨node, guid, name, system.now b'⟩, maybeException.isSome), b') := by
  rw [newSnapshotId, Shell.tryCatch_apply, Shell.bind_apply, h]
  rfl

end

variable (h : FaultFree system impl.toDataset snapshots)
include h

theorem initial_keeps (id : SnapshotIdImpl) (b : β) :
    snapshots (initial system impl id b).2 = snapshots b :=
  sendVerified_keeps (keeps_castAndVerify h.keeps_zfsGetGuid id) (fun b => h.send_keeps b _) b

theorem diff_keeps (fromId toId : SnapshotIdImpl) (b : β) :
    snapshots (diff system impl fromId toId b).2 = snapshots b :=
  sendVerified_keeps ((keeps_castAndVerify h.keeps_zfsGetGuid fromId).bind fun _ =>
    keeps_castAndVerify h.keeps_zfsGetGuid toId) (fun b => h.diffsend_keeps b _ _) b

/-- A node whose snapshot does not exist gets one, which is not old. -/
theorem snapshot_eq {node : Node} {uuid : Uuid} {b : β}
    (hnone : snapshots b (nameOf node uuid) = none) :
    ∃ guid b', snapshot system impl node uuid b =
        (.ok (⟨node, guid, nameOf node uuid, system.now b'⟩, false), b') ∧
      snapshots b' = Function.update (snapshots b) (nameOf node uuid) (some guid) := by
  obtain ⟨guid, b₁, hsnapshot, hb₁⟩ := h.zfsSnapshot_eq hnone
  obtain ⟨b₂, hget, hb₂⟩ := h.zfsGetGuid_eq (b := b₁)
    (by rw [hb₁, Function.update_self])
  refine ⟨guid, b₂, ?_, hb₂.trans hb₁⟩
  rw [snapshot_apply, trySnapshot_ok hsnapshot]
  exact newSnapshotId_ok none hget

end ZfsDriver.ZfsBackendDriverImpl

/-! ## A system for runs on fixed inputs -/

namespace Zfs

/-- A dataset with its snapshots, and the readings of the clock that are still to come. -/
structure SamplePool where
  snapshots : SnapshotName → Option SnapshotGuid
  nextGuid : SnapshotGuid
  clock : List Int64

def SnapshotGuid.next (guid : SnapshotGuid) : SnapshotGuid :=
  if h : guid.guid + 1 = 0 then ⟨1, by decide⟩ else ⟨guid.guid + 1, h⟩

namespace SamplePool

/-- A dataset without snapshots. -/
def empty (clock : List Int64) : SamplePool := ⟨fun _ => none, ⟨1, by decide⟩, clock⟩

/-- The snapshot of the dataset that an argument names. -/
def target (arg : List Char) : Option SnapshotName := (SnapshotName.ofString (arg.drop 5)).toOption

def succeed (out : Bytes) (pool : SamplePool) : Stream × SamplePool := (⟨[out], .ok ()⟩, pool)

def failed (pool : SamplePool) : Stream × SamplePool :=
  (⟨[], .error (.commandFailed "zfs: command failed with exit status 1")⟩, pool)

/-- Taking a snapshot takes until the clock's next reading. -/
def zfs (argv : List (List Char)) (_ : Bytes) (pool : SamplePool) : Stream × SamplePool :=
  match argv with
  | [_, command, arg] =>
    match target arg with
    | none => failed pool
    | some name =>
      match pool.snapshots name with
      | none =>
        if command = "snapshot".toList then
          succeed [] ⟨Function.update pool.snapshots name (some pool.nextGuid), pool.nextGuid.next,
            pool.clock.tail⟩
        else failed pool
      | some _ =>
        if command = "destroy".toList then
          succeed [] { pool with snapshots := Function.update pool.snapshots name none }
        else if command = "send".toList then succeed [7] pool
        else failed pool
  | [_, _, _, _, _, _, arg] =>
    match (target arg).bind pool.snapshots with
    | some guid => succeed (toBytes (guid.str ++ ['\n'])) pool
    | none => failed pool
  | [_, _, _, _, _] => succeed [8] pool
  | _ => failed pool

end SamplePool

def sampleSystem : System SamplePool := ⟨SamplePool.zfs, fun pool => pool.clock.headD 0⟩

def sampleDriver : ZfsDriver.ZfsBackendDriverImpl where
  zfsCommand := ["zfs".toList]
  dataset := ⟨"tank".toList, by decide⟩
  receive0Args := none
  receivenArgs := none

namespace SamplePool

@[simp] theorem target_name (name : SnapshotName) :
    target (datasetSnapshotName sampleDriver.dataset name) = some name := by
  show (SnapshotName.ofString name.str).toOption = _
  rw [SnapshotName.ofString_str]
  rfl

theorem zfs_get (pool : SamplePool) (name : SnapshotName) :
    zfs (sampleDriver.zfsCommand ++ ["get".toList, "-H".toList, "-o".toList, "value".toList,
      "guid".toList, datasetSnapshotName sampleDriver.dataset name]) [] pool =
      match pool.snapshots name with
      | some guid => succeed (toBytes (guid.str ++ ['\n'])) pool
      | none => failed pool := by
  show (match (target (datasetSnapshotName sampleDriver.dataset name)).bind pool.snapshots with
    | some guid => _
    | none => _) = _
  rw [target_name]
  rfl

theorem zfs_command (pool : SamplePool) (command : List Char) (name : SnapshotName) :
    zfs (sampleDriver.zfsCommand ++ [command, datasetSnapshotName sampleDriver.dataset name]) []
        pool =
      match pool.snapshots name with
      | none =>
        if command = "snapshot".toList then
          succeed [] ⟨Function.update pool.snapshots name (some pool.nextGuid), pool.nextGuid.next,
            pool.clock.tail⟩
        else failed pool
      | some _ =>
        if command = "destroy".toList then
          succeed [] { pool with snapshots := Function.update pool.snapshots name none }
        else if command = "send".toList then succeed [7] pool
        else failed pool := by
  show (match target (datasetSnapshotName sampleDriver.dataset name) with
    | none => _
    | some name => _) = _
  rw [target_name]

theorem faultFree : FaultFree sampleSystem sampleDriver.toDataset SamplePool.snapshots where
  snapshot pool name h := by
    refine ⟨[[]], pool.nextGuid, ⟨Function.update pool.snapshots name (some pool.nextGuid),
      pool.nextGuid.next, pool.clock.tail⟩, (zfs_command pool _ name).trans ?_, rfl⟩
    rw [h]
    rfl
  get pool name guid h := by
    refine ⟨[toBytes (guid.str ++ ['\n'])], pool, (zfs_get pool name).trans ?_, ?_⟩
    · rw [h]
      rfl
    · rw [List.flatten_singleton]
      refine ofBytes_toBytes fun c hc => ?_
      rcases List.mem_append.mp hc with hc | hc
      · exact guid.toNat_lt c hc
      · rw [List.mem_singleton.mp hc]
        decide
  get_keeps pool name := by
    refine (congrArg (fun r => r.2.snapshots) (zfs_get pool name)).trans ?_
    split <;> rfl
  destroy pool name h := by
    obtain ⟨guid, hguid⟩ := Option.isSome_iff_exists.mp h
    refine ⟨[[]], { pool with snapshots := Function.update pool.snapshots name none },
      (zfs_command pool _ name).trans ?_, rfl⟩
    rw [hguid]
    rfl
  send_keeps pool name := by
    refine (congrArg (fun r => r.2.snapshots) (zfs_command pool "send".toList name)).trans ?_
    split <;> rfl
  diffsend_keeps pool name base := rfl

end SamplePool

end Zfs

end Diffmonger
