import Diffmonger.BackendDriver.Contents
import Diffmonger.Formats

/-!
# What ZFS snapshots contain

Every ZFS snapshot has a guid that no other snapshot ever gets, and that `zfs receive` keeps. The
driver's ids hold the name and the guid of a snapshot, and the driver compares the guids before it
relies on a snapshot. So an id belongs to one snapshot for good, although names are used again.

Main result: `conveys`. What is assumed of `zfs` is said command by command (`Documented`), each of
which may fail at any time and may do less than it was asked for. A method of the driver is a few
commands in a row; what it does to the dataset is composed from what they do (`Moves.bind`), and
what its ids stand for follows from the guids that have been taken so far, which only grow.
-/

namespace Diffmonger

/-!
## Steps of a computation

As for programs of processes, there is a frame rule: what each command may do to the pool, a
sequence of commands may do, whichever of them throws.
-/

namespace Shell

variable {β α γ : Type} {R : β → β → Prop}

/-- Whether it returns or throws, the computation moves the state as `R` allows. -/
def Moves (R : β → β → Prop) (p : Shell β α) : Prop := ∀ b, R b (p b).2

theorem moves_pure (hrefl : ∀ b, R b b) (a : α) : Moves R (pure a : Shell β α) := hrefl

theorem moves_throw (hrefl : ∀ b, R b b) (e : Exn) : Moves R (throw e : Shell β α) := hrefl

theorem Moves.bind {p : Shell β α} {k : α → Shell β γ}
    (htrans : ∀ b b' b'', R b b' → R b' b'' → R b b'') (hp : Moves R p) (hk : ∀ a, Moves R (k a)) :
    Moves R (p >>= k) := by
  intro b
  have hfirst := hp b
  rw [bind_apply]
  rcases hb : p b with ⟨e | a, b'⟩
  · rwa [hb] at hfirst
  · rw [hb] at hfirst
    exact htrans b b' _ hfirst (hk a b')

theorem Moves.tryCatch {p : Shell β α} {h : Exn → Shell β α}
    (htrans : ∀ b b' b'', R b b' → R b' b'' → R b b'') (hp : Moves R p) (hh : ∀ e, Moves R (h e)) :
    Moves R (MonadExcept.tryCatch p h) := by
  intro b
  have hfirst := hp b
  rw [tryCatch_apply]
  rcases hb : p b with ⟨e | a, b'⟩
  · rw [hb] at hfirst
    exact htrans b b' _ hfirst (hh e b')
  · rwa [hb] at hfirst

theorem Keeps.moves {δ : Type} {view : β → δ} {p : Shell β α} (h : Keeps view p)
    (hview : ∀ b b', view b' = view b → R b b') : Moves R p := fun b => hview b _ (h b)

end Shell

namespace Zfs

/-!
## The snapshots of a dataset

A pool of snapshots is seen through what there is to see: which guid is behind a name, with which
contents, and what the dataset contains itself. The commands are described by how they may move it.
-/

/-- A dataset with its snapshots, and what the streams of `zfs send` say about them. -/
structure Pool (β V : Type) where
  /-- The contents of the dataset itself. -/
  live : β → V
  /-- The snapshots in the dataset, with their guids and contents. -/
  snapshots : β → SnapshotName → Option (SnapshotGuid × V)
  /-- The contents of all snapshots that have ever been taken, of this dataset or of another. -/
  taken : β → SnapshotGuid → Option V
  /-- The contents that a full stream describes. -/
  image : Bytes → V
  /-- What an incremental stream makes of the contents of the snapshot that it is based on. -/
  patch : V → Bytes → V
  /-- The full streams of a snapshot. -/
  full : SnapshotGuid → Bytes → Prop
  /-- The streams of a snapshot that are based on another one. -/
  incremental : SnapshotGuid → SnapshotGuid → Bytes → Prop

section
variable {β V : Type} (pool : Pool β V)

/-- All that there is to see. -/
def Pool.view (b : β) : V × (SnapshotName → Option (SnapshotGuid × V)) × (SnapshotGuid → Option V) :=
  (pool.live b, pool.snapshots b, pool.taken b)

/-- A snapshot has been taken, and got a new guid. -/
structure Pool.Takes (name : SnapshotName) (b b' : β) (guid : SnapshotGuid) : Prop where
  fresh : pool.taken b guid = none
  live : pool.live b' = pool.live b
  snapshots : pool.snapshots b' =
    Function.update (pool.snapshots b) name (some (guid, pool.live b))
  taken : pool.taken b' = Function.update (pool.taken b) guid (some (pool.live b))

/-- Snapshots may have been destroyed. -/
structure Pool.Loses (b b' : β) : Prop where
  live : pool.live b' = pool.live b
  snapshots : ∀ name x, pool.snapshots b' name = some x → pool.snapshots b name = some x
  taken : pool.taken b' = pool.taken b

/-- A snapshot has been received under the given name, and others may have been destroyed. -/
structure Pool.Receives (name : SnapshotName) (x : SnapshotGuid × V) (b b' : β) : Prop where
  received : pool.snapshots b' name = some x
  others : ∀ other y, other ≠ name → pool.snapshots b' other = some y →
    pool.snapshots b other = some y

/-- An attempt to receive a snapshot takes none; if it fails, it leaves none that was not there. -/
structure Pool.Attempts (result : Except Exn Unit) (b b' : β) : Prop where
  taken : pool.taken b' = pool.taken b
  failed : ∀ e, result = .error e → ∀ name x, pool.snapshots b' name = some x →
    pool.snapshots b name = some x

end

open ZfsDriver (ZfsBackendDriverImpl)

variable {β V : Type}

/-- The arguments of `zfs get`. -/
def getArgs (ds : Dataset) (name : SnapshotName) : List (List Char) :=
  ds.zfsCommand ++ ["get".toList, "-H".toList, "-o".toList, "value".toList, "guid".toList,
    datasetSnapshotName ds.dataset name]

/-- The arguments of `zfs receive`. -/
def receiveArgs (ds : Dataset) (args : List (List Char)) (name : SnapshotName) : List (List Char) :=
  ds.zfsCommand ++ "receive".toList :: args ++ [datasetSnapshotName ds.dataset name]

/-- The options of `zfs receive`, for the initial node and for any other one. -/
def receiveOptions (impl : ZfsBackendDriverImpl) : List (List (List Char)) :=
  ["-F".toList :: impl.receive0Args.getD [], "-F".toList :: impl.receivenArgs.getD []]

/-- What the driver relies on `zfs` for, of which any command may fail at any time. -/
structure Documented (system : System β) (impl : ZfsBackendDriverImpl) (pool : Pool β V) : Prop where
  get_keeps : ∀ b name, pool.view (system.run (getArgs impl.toDataset name) [] b).2 = pool.view b
  /-- `zfs get` prints the guid. -/
  get : ∀ b name, (system.run (getArgs impl.toDataset name) [] b).1.result = .ok () →
    ∃ guid v, pool.snapshots b name = some (guid, v) ∧
      ofBytes (system.run (getArgs impl.toDataset name) [] b).1.chunks.flatten = guid.str ++ ['\n']
  /-- A command that fails may have taken the snapshot. -/
  snapshot : ∀ b name, ∃ out result b',
    system.run (impl.zfsCommand ++ ["snapshot".toList, datasetSnapshotName impl.dataset name]) [] b =
      (⟨out, result⟩, b') ∧
      (result ≠ .ok () ∧ pool.view b' = pool.view b ∨ ∃ guid, pool.Takes name b b' guid)
  destroy : ∀ b name, pool.Loses b (system.run
    (impl.zfsCommand ++ ["destroy".toList, datasetSnapshotName impl.dataset name]) [] b).2
  send_keeps : ∀ b name, pool.view (zfsSend system impl.toDataset name b).2 = pool.view b
  send : ∀ b name, (zfsSend system impl.toDataset name b).1.result = .ok () →
    ∃ guid, pool.full guid (zfsSend system impl.toDataset name b).1.bytes ∧
      pool.snapshots b name =
        some (guid, pool.image (zfsSend system impl.toDataset name b).1.bytes)
  diffsend_keeps : ∀ b name base,
    pool.view (zfsDiffsend system impl.toDataset name base b).2 = pool.view b
  diffsend : ∀ b name base, (zfsDiffsend system impl.toDataset name base b).1.result = .ok () →
    ∃ guidBase v guid, pool.snapshots b base = some (guidBase, v) ∧
      pool.incremental guidBase guid (zfsDiffsend system impl.toDataset name base b).1.bytes ∧
      pool.snapshots b name =
        some (guid, pool.patch v (zfsDiffsend system impl.toDataset name base b).1.bytes)
  receive_attempts : ∀ b name input, ∀ args ∈ receiveOptions impl,
    pool.Attempts (system.run (receiveArgs impl.toDataset args name) input b).1.result b
      (system.run (receiveArgs impl.toDataset args name) input b).2
  receive : ∀ b name guid input, pool.full guid input →
    (system.run (receiveArgs impl.toDataset ("-F".toList :: impl.receive0Args.getD []) name) input
      b).1.result = .ok () →
    pool.Receives name (guid, pool.image input) b (system.run
      (receiveArgs impl.toDataset ("-F".toList :: impl.receive0Args.getD []) name) input b).2
  /-- An incremental stream can only be received where the snapshot is that it is based on. -/
  receiveIncremental : ∀ b name guidBase guid input, pool.incremental guidBase guid input →
    (system.run (receiveArgs impl.toDataset ("-F".toList :: impl.receivenArgs.getD []) name) input
      b).1.result = .ok () →
    ∃ base v, pool.snapshots b base = some (guidBase, v) ∧
      pool.Receives name (guid, pool.patch v input) b (system.run
        (receiveArgs impl.toDataset ("-F".toList :: impl.receivenArgs.getD []) name) input b).2

end Zfs

open Serialisation Zfs

namespace ZfsDriver

/-!
## The driver's ids

An id stands for the contents of the snapshot with its guid, whether or not the snapshot is still
there. Since guids are never given twice, this can only become more.
-/

variable {β V : Type} (pool : Pool β V)

/-- The contents of the snapshots that the driver's ids are of. -/
def contents : Contents β SnapshotIdImpl V where
  live := pool.live
  held b id := (pool.snapshots b id.name).bind fun x => if x.1 = id.guid then some x.2 else none
  named b id := pool.taken b id.guid
  image := pool.image
  patch := pool.patch
  full id := pool.full id.guid
  difference parent id := pool.incremental parent.guid id.guid

variable {pool} {b b' : β} {id : SnapshotIdImpl} {v : V}

theorem held_iff :
    (contents pool).held b id = some v ↔ pool.snapshots b id.name = some (id.guid, v) := by
  simp only [contents, Option.bind_eq_some_iff, Option.ite_none_right_eq_some, Option.some.injEq]
  constructor
  · rintro ⟨⟨guid, v⟩, hsnapshot, rfl, rfl⟩
    exact hsnapshot
  · intro hsnapshot
    exact ⟨_, hsnapshot, rfl, rfl⟩

theorem genuine_iff : (contents pool).Genuine b ↔
    ∀ name guid v, pool.snapshots b name = some (guid, v) → pool.taken b guid = some v := by
  constructor
  · intro h name guid v hsnapshot
    exact h ⟨⟨0⟩, guid, name, 0⟩ v (held_iff.mpr hsnapshot)
  · intro h id v hheld
    exact h id.name id.guid v (held_iff.mp hheld)

theorem named_of_taken (hkept : pool.taken b' = pool.taken b)
    (hv : (contents pool).named b id = some v) : (contents pool).named b' id = some v :=
  (congrFun hkept id.guid).trans hv

theorem genuine_of_fewer (hkept : pool.taken b' = pool.taken b)
    (hfewer : ∀ name x, pool.snapshots b' name = some x → pool.snapshots b name = some x)
    (hb : (contents pool).Genuine b) : (contents pool).Genuine b' := by
  refine genuine_iff.mpr fun name guid v hname => ?_
  rw [hkept]
  exact genuine_iff.mp hb name guid v (hfewer name _ hname)

theorem keeps_of_view (h : pool.view b' = pool.view b) : (contents pool).Keeps b b' := by
  obtain ⟨hlive, hsnapshots, htaken⟩ : pool.live b' = pool.live b ∧
      pool.snapshots b' = pool.snapshots b ∧ pool.taken b' = pool.taken b := by
    simpa only [Pool.view, Prod.mk.injEq] using h
  exact ⟨⟨fun _ _ => named_of_taken htaken,
    genuine_of_fewer htaken fun name x hname => hsnapshots ▸ hname⟩, hlive⟩

/-- A new guid is given to a new snapshot. -/
theorem keeps_of_takes {name : SnapshotName} {guid : SnapshotGuid}
    (h : pool.Takes name b b' guid) : (contents pool).Keeps b b' := by
  have htaken (other : SnapshotGuid) (v : V) (hv : pool.taken b other = some v) :
      pool.taken b' other = some v := by
    have hne : other ≠ guid := by
      rintro rfl
      rw [h.fresh] at hv
      cases hv
    rwa [h.taken, Function.update_of_ne hne]
  refine ⟨⟨fun id v hv => htaken id.guid v hv, fun hb => genuine_iff.mpr ?_⟩, h.live⟩
  intro other guid' v hother
  rw [h.snapshots] at hother
  rcases eq_or_ne other name with rfl | hne
  · rw [Function.update_self] at hother
    cases hother
    rw [h.taken, Function.update_self]
  · rw [Function.update_of_ne hne] at hother
    exact htaken guid' v (genuine_iff.mp hb other guid' v hother)

theorem keeps_of_loses (h : pool.Loses b b') : (contents pool).Keeps b b' := by
  exact ⟨⟨fun _ _ => named_of_taken h.taken, genuine_of_fewer h.taken h.snapshots⟩, h.live⟩

/-- Receiving a snapshot that has been taken. -/
theorem genuine_of_receives {name : SnapshotName} {guid : SnapshotGuid}
    (h : pool.Receives name (guid, v) b b') (hkept : pool.taken b' = pool.taken b)
    (htaken : pool.taken b guid = some v) (hb : (contents pool).Genuine b) :
    (contents pool).Genuine b' := by
  refine genuine_iff.mpr fun other guid' v' hother => ?_
  rw [hkept]
  rcases eq_or_ne other name with rfl | hne
  · cases h.received.symm.trans hother
    exact htaken
  · exact genuine_iff.mp hb other guid' v' (h.others other _ hne hother)

theorem parseNoVerify_encoded (id : SnapshotIdImpl) :
    SnapshotIdImpl.parseNoVerify id.encoded = .ok id := by
  have hread := (reads_payload id).all
  show (SnapshotIdImpl.deserialiser id.node id.timestamp id.payload).map Prod.fst = _
  rw [hread]
  rfl

/-!
## The methods

For each method there are two facts: whether it returns or throws, it moves the pool only in certain
ways; and if it returns, it has done its work. The second needs that what happens between a check
and the command that relies on it does not change the pool.
-/

namespace ZfsBackendDriverImpl

variable {system : System β} {impl : ZfsBackendDriverImpl}

section
variable {δ : Type} {stdin : Bytes} {argv : List (List Char)}

theorem ok_of_systemvpStr {out : List Char} (h : (systemvpStr system argv stdin b).1 = .ok out) :
    (system.run argv stdin b).1.result = .ok () ∧
      out = ofBytes (system.run argv stdin b).1.chunks.flatten := by
  simp only [systemvpStr] at h
  cases hr : (system.run argv stdin b).1.result with
  | error e =>
      rw [hr] at h
      cases h
  | ok _ =>
      rw [hr] at h
      exact ⟨rfl, (Except.ok.inj h).symm⟩

end

section
variable {verify : Shell β Unit} {send : β → Stream × β} (hverify : Shell.Keeps pool.view verify)
include hverify

/-- What is sent is sent once the ids have been verified. -/
theorem ok_of_sendVerified (hok : (sendVerified verify send b).1.result = .ok ()) :
    ∃ b', verify b = (.ok (), b') ∧ pool.view b' = pool.view b ∧
      sendVerified verify send b = send b' := by
  have hview := hverify b
  unfold sendVerified at hok ⊢
  rcases hb : verify b with ⟨e | _, b'⟩
  · rw [hb] at hok
    cases hok
  · rw [hb] at hview
    exact ⟨b', rfl, hview, rfl⟩

theorem view_sendVerified (hsend : ∀ b, pool.view (send b).2 = pool.view b) :
    pool.view (sendVerified verify send b).2 = pool.view b := by
  have hview := hverify b
  unfold sendVerified
  rcases hb : verify b with ⟨e | _, b'⟩
  · rwa [hb] at hview
  · rw [hb] at hview
    exact (hsend b').trans hview

end

variable (h : Documented system impl pool)
include h

/-- A guid that is read is the one of the snapshot. -/
theorem ok_of_zfsGetGuid {name : SnapshotName} {guid : SnapshotGuid}
    (hok : (zfsGetGuid system impl.toDataset name b).1 = .ok guid) :
    ∃ v, pool.snapshots b name = some (guid, v) := by
  rw [zfsGetGuid] at hok
  obtain ⟨out, b', hout, hok⟩ := Shell.ok_of_bind hok
  obtain ⟨hresult, rfl⟩ := ok_of_systemvpStr (congrArg Prod.fst hout)
  obtain ⟨guid', v, hsnapshot, hprinted⟩ := h.get b name hresult
  have hchomp : strchomp (guid'.str ++ ['\n']) = guid'.str := by
    rw [strchomp, List.getLast?_concat, if_pos rfl, List.dropLast_concat]
  rw [getArgs] at hprinted
  rw [hprinted, hchomp] at hok
  dsimp only at hok
  split at hok
  · rw [SnapshotGuid.ofString_str] at hok
    cases hok
    exact ⟨v, hsnapshot⟩
  · cases hok

theorem keeps_zfsGetGuid (name : SnapshotName) :
    Shell.Keeps pool.view (zfsGetGuid system impl.toDataset name) :=
  Zfs.keeps_zfsGetGuid fun b => h.get_keeps b name

theorem view_castAndVerify (id : SnapshotIdImpl) :
    Shell.Keeps pool.view (castAndVerify system impl id) :=
  keeps_castAndVerify (keeps_zfsGetGuid h) id

/-- Once an id has been verified, its snapshot is in the dataset. -/
theorem ok_of_castAndVerify {id : SnapshotIdImpl}
    (hok : (castAndVerify system impl id b).1 = .ok ()) :
    ∃ v, pool.snapshots b id.name = some (id.guid, v) := by
  rw [castAndVerify] at hok
  obtain ⟨guid, b', htry, hok⟩ := Shell.ok_of_bind hok
  rw [Shell.tryCatch_apply] at htry
  rcases hguid : zfsGetGuid system impl.toDataset id.name b with ⟨e | guid', b₁⟩
  · rw [hguid] at htry
    dsimp only at htry
    split at htry <;> cases htry
  · rw [hguid] at htry
    cases htry
    split at hok
    · cases hok
    · next heq =>
        obtain rfl := not_not.mp heq
        exact ok_of_zfsGetGuid h (congrArg Prod.fst hguid)

/-!
### Taking and destroying snapshots

`zfs snapshot` may have taken the snapshot although it fails. The driver finds out by asking for the
guid.
-/

theorem keeps_zfsSnapshot (name : SnapshotName) :
    Shell.Moves (contents pool).Keeps (zfsSnapshot system impl.toDataset name) := by
  refine Shell.Moves.bind (fun _ _ _ => .trans) (fun b => ?_) fun _ => Shell.moves_pure .refl _
  obtain ⟨out, result, b', hrun, hmoved⟩ := h.snapshot b name
  show (contents pool).Keeps b (system.run _ [] b).2
  rw [hrun]
  rcases hmoved with ⟨-, hview⟩ | ⟨guid, htakes⟩
  · exact keeps_of_view hview
  · exact keeps_of_takes htakes

/-- If the command succeeds, then it has taken the snapshot. -/
theorem ok_of_zfsSnapshot {name : SnapshotName}
    (hrun : zfsSnapshot system impl.toDataset name b = (.ok (), b')) :
    ∃ guid, pool.Takes name b b' guid := by
  obtain ⟨out, result, b₁, hrun₁, hmoved⟩ := h.snapshot b name
  rw [zfsSnapshot, Shell.bind_apply, systemvpStr, hrun₁] at hrun
  cases result with
  | error e => cases hrun
  | ok _ =>
      obtain rfl : b₁ = b' := congrArg Prod.snd hrun
      exact hmoved.resolve_left fun hfailed => hfailed.1 rfl

theorem keeps_trySnapshot (name : SnapshotName) :
    Shell.Moves (contents pool).Keeps (trySnapshot system impl name) := by
  refine Shell.Moves.tryCatch (fun _ _ _ => .trans) ?_ fun e => ?_
  · exact (keeps_zfsSnapshot h name).bind (fun _ _ _ => .trans) fun _ => Shell.moves_pure .refl _
  · split
    · exact Shell.moves_pure .refl _
    · exact Shell.moves_throw .refl _

theorem view_newSnapshotId (node : Node) (name : SnapshotName) (maybeException : Option Exn) :
    Shell.Keeps pool.view (newSnapshotId system impl node name maybeException) := by
  refine ((keeps_zfsGetGuid h name).bind fun guid => fun b => rfl).tryCatch fun e => ?_
  split <;> exact Shell.keeps_throw _

theorem keeps_snapshot (node : Node) (uuid : Uuid) :
    Shell.Moves (contents pool).Keeps (snapshot system impl node uuid) := by
  refine Shell.Moves.bind (fun _ _ _ => .trans) (fun b => ?_) fun name =>
    (keeps_trySnapshot h name).bind (fun _ _ _ => .trans) fun maybeException =>
      (view_newSnapshotId h node name maybeException).moves fun _ _ => keeps_of_view
  cases SnapshotName.ofString (snapshotName node uuid) <;> exact .refl b

/-- The id that is returned is of a snapshot in the dataset; a snapshot that is not old contains
what the dataset does. -/
theorem ok_of_snapshot {node : Node} {uuid : Uuid} {id : SnapshotIdImpl} {old : Bool}
    (hok : (snapshot system impl node uuid b).1 = .ok (id, old)) :
    ∃ v, (contents pool).held (snapshot system impl node uuid b).2 id = some v ∧
      (old = false → v = pool.live b) := by
  rw [snapshot_apply] at hok ⊢
  rcases htry : trySnapshot system impl (nameOf node uuid) b with ⟨e | maybeException, b₁⟩
  · rw [htry] at hok
    cases hok
  · rw [htry] at hok
    rw [Shell.andThen] at hok ⊢
    have hview := view_newSnapshotId h node (nameOf node uuid) maybeException b₁
    -- the guid is read, from which the id is made, or the call throws
    rcases hguid : zfsGetGuid system impl.toDataset (nameOf node uuid) b₁ with ⟨e | guid, b₂⟩
    · rw [newSnapshotId, Shell.tryCatch_apply, Shell.bind_apply, hguid] at hok
      simp only [Shell.andThen] at hok
      split at hok <;> cases hok
    · obtain ⟨v, hsnapshot⟩ := ok_of_zfsGetGuid h (congrArg Prod.fst hguid)
      rw [newSnapshotId_ok maybeException hguid] at hok hview ⊢
      cases hok
      have hsnapshots : pool.snapshots b₂ = pool.snapshots b₁ := (Prod.mk.inj (Prod.mk.inj hview).2).1
      refine ⟨v, held_iff.mpr ((congrFun hsnapshots _).trans hsnapshot), fun hold => ?_⟩
      -- the command has succeeded
      have hnone : maybeException = none := by simpa using hold
      subst hnone
      rw [trySnapshot, Shell.tryCatch_apply, Shell.bind_apply] at htry
      rcases hzfs : zfsSnapshot system impl.toDataset (nameOf node uuid) b with ⟨e | _, b₀⟩
      · rw [hzfs] at htry
        simp only [Shell.andThen] at htry
        split at htry <;> cases htry
      · rw [hzfs] at htry
        obtain rfl : b₀ = b₁ := congrArg Prod.snd htry
        obtain ⟨guid', htakes⟩ := ok_of_zfsSnapshot h hzfs
        rw [htakes.snapshots, Function.update_self] at hsnapshot
        cases hsnapshot
        rfl

theorem keeps_removeSnapshot (id : SnapshotIdImpl) :
    Shell.Moves (contents pool).Keeps (removeSnapshot system impl id) := by
  refine Shell.Moves.bind (fun _ _ _ => .trans)
    ((view_castAndVerify h id).moves fun _ _ => keeps_of_view) fun _ =>
      Shell.Moves.bind (fun _ _ _ => .trans) (fun b => ?_) fun _ => Shell.moves_pure .refl _
  exact keeps_of_loses (h.destroy b id.name)

theorem view_existsSnapshot (id : SnapshotIdImpl) :
    Shell.Keeps pool.view (existsSnapshot system impl id) :=
  keeps_existsSnapshot (keeps_zfsGetGuid h) id

theorem ok_of_existsSnapshot {id : SnapshotIdImpl}
    (hok : (existsSnapshot system impl id b).1 = .ok true) :
    ((contents pool).held (existsSnapshot system impl id b).2 id).isSome := by
  have hview := view_existsSnapshot h id b
  have hsnapshots := (Prod.mk.inj (Prod.mk.inj hview).2).1
  rw [existsSnapshot, Shell.tryCatch_apply, Shell.bind_apply] at hok
  rcases hverify : castAndVerify system impl id b with ⟨e | _, b'⟩
  · rw [hverify] at hok
    simp only [Shell.andThen] at hok
    split at hok <;> cases hok
  · obtain ⟨v, hsnapshot⟩ := ok_of_castAndVerify h (congrArg Prod.fst hverify)
    exact Option.isSome_of_eq_some (held_iff.mpr ((congrFun hsnapshots _).trans hsnapshot))

/-!
### Sending

What is sent is sent by name. The names are compared with the guids of the ids first.
-/

theorem ok_of_initial {id : SnapshotIdImpl} (hok : (initial system impl id b).1.result = .ok ()) :
    pool.full id.guid (initial system impl id b).1.bytes ∧
      pool.snapshots b id.name =
        some (id.guid, pool.image (initial system impl id b).1.bytes) := by
  obtain ⟨b', hverify, hview, heq⟩ := ok_of_sendVerified (view_castAndVerify h id) hok
  have hsnapshots : pool.snapshots b' = pool.snapshots b := (Prod.mk.inj (Prod.mk.inj hview).2).1
  obtain ⟨v, hverified⟩ := ok_of_castAndVerify h (congrArg Prod.fst hverify)
  rw [initial, heq] at hok ⊢
  obtain ⟨guid, hfull, hsnapshot⟩ := h.send b' id.name hok
  rw [hsnapshots, hverified] at hsnapshot
  cases hsnapshot
  exact ⟨hfull, hverified⟩

/-- Both ids are verified. -/
theorem ok_of_verifyBoth {parent id : SnapshotIdImpl} (hok : (do
      castAndVerify system impl parent
      castAndVerify system impl id : Shell β Unit) b = (.ok (), b')) :
    (∃ v, pool.snapshots b parent.name = some (parent.guid, v)) ∧
      ∃ v, pool.snapshots b id.name = some (id.guid, v) := by
  obtain ⟨_, b₁, hparent, hid⟩ := Shell.ok_of_bind (congrArg Prod.fst hok)
  have hview := view_castAndVerify h parent b
  rw [hparent] at hview
  have hsnapshots : pool.snapshots b₁ = pool.snapshots b := (Prod.mk.inj (Prod.mk.inj hview).2).1
  have hid' := ok_of_castAndVerify h hid
  rw [hsnapshots] at hid'
  exact ⟨ok_of_castAndVerify h (congrArg Prod.fst hparent), hid'⟩

theorem view_verifyBoth (parent id : SnapshotIdImpl) : Shell.Keeps pool.view (do
    castAndVerify system impl parent
    castAndVerify system impl id : Shell β Unit) :=
  (view_castAndVerify h parent).bind fun _ => view_castAndVerify h id

theorem ok_of_diff {parent id : SnapshotIdImpl}
    (hok : (diff system impl parent id b).1.result = .ok ()) :
    pool.incremental parent.guid id.guid (diff system impl parent id b).1.bytes ∧
      ∃ v, pool.snapshots b parent.name = some (parent.guid, v) ∧ pool.snapshots b id.name =
        some (id.guid, pool.patch v (diff system impl parent id b).1.bytes) := by
  obtain ⟨b', hverify, hview, heq⟩ := ok_of_sendVerified (view_verifyBoth h parent id) hok
  have hsnapshots : pool.snapshots b' = pool.snapshots b := (Prod.mk.inj (Prod.mk.inj hview).2).1
  obtain ⟨⟨v, hparent⟩, v', hid⟩ := ok_of_verifyBoth h hverify
  rw [diff, heq] at hok ⊢
  obtain ⟨guidBase, vBase, guid, hbase, hincremental, hsnapshot⟩ :=
    h.diffsend b' id.name parent.name hok
  rw [hsnapshots, hparent] at hbase
  rw [hsnapshots, hid] at hsnapshot
  cases hbase
  cases hsnapshot
  exact ⟨hincremental, v, hparent, hid⟩

/-!
### Receiving

`zfs receive -F` rolls the dataset back first. A difference is only received on top of the snapshot
with the guid that the stream names, whatever the name of that snapshot is.
-/

omit h in
theorem zfsReceive_apply (name : SnapshotName) (input : Bytes) (args : List (List Char)) (b : β) :
    zfsReceive system impl.toDataset name input args b =
      ((system.run (receiveArgs impl.toDataset args name) input b).1.result,
        (system.run (receiveArgs impl.toDataset args name) input b).2) := by
  rw [zfsReceive, Shell.bind_apply, systemvpStr, ← receiveArgs]
  rcases system.run (receiveArgs impl.toDataset args name) input b with ⟨⟨chunks, result⟩, b'⟩
  cases result <;> rfl

/-- A restore that throws has not even begun to receive, or has failed to. -/
theorem restoreDiff_cases (parent id : SnapshotIdImpl) (input : Bytes) (b : β) :
    ∃ b₁, pool.view b₁ = pool.view b ∧
      ((∃ e, restoreDiff system impl parent id input b = (.error e, b₁)) ∨
        castAndVerify system impl parent b = (.ok (), b₁) ∧
        restoreDiff system impl parent id input b = zfsReceive system impl.toDataset id.name input
          ("-F".toList :: impl.receivenArgs.getD []) b₁) := by
  have hview := view_castAndVerify h parent b
  rcases hverify : castAndVerify system impl parent b with ⟨e | _, b₁⟩
  · rw [hverify] at hview
    refine ⟨b₁, hview, .inl ⟨e, ?_⟩⟩
    rw [restoreDiff, Shell.bind_apply, hverify]
    rfl
  · rw [hverify] at hview
    refine ⟨b₁, hview, .inr ⟨rfl, ?_⟩⟩
    rw [restoreDiff, Shell.bind_apply, hverify]
    rfl

theorem attempts_restoreInitial (id : SnapshotIdImpl) (input : Bytes) (b : β) :
    pool.Attempts (restoreInitial system impl id input b).1 b
      (restoreInitial system impl id input b).2 := by
  rw [restoreInitial, zfsReceive_apply]
  exact h.receive_attempts b id.name input _ List.mem_cons_self

theorem attempts_restoreDiff (parent id : SnapshotIdImpl) (input : Bytes) (b : β) :
    pool.Attempts (restoreDiff system impl parent id input b).1 b
      (restoreDiff system impl parent id input b).2 := by
  obtain ⟨b₁, hview, ⟨e, heq⟩ | ⟨-, heq⟩⟩ := restoreDiff_cases h parent id input b
  · obtain ⟨-, hsnapshots, htaken⟩ : pool.live b₁ = pool.live b ∧
        pool.snapshots b₁ = pool.snapshots b ∧ pool.taken b₁ = pool.taken b := by
      simpa only [Pool.view, Prod.mk.injEq] using hview
    rw [heq]
    exact ⟨htaken, fun _ _ name x hname => hsnapshots ▸ hname⟩
  · obtain ⟨-, hsnapshots, htaken⟩ : pool.live b₁ = pool.live b ∧
        pool.snapshots b₁ = pool.snapshots b ∧ pool.taken b₁ = pool.taken b := by
      simpa only [Pool.view, Prod.mk.injEq] using hview
    rw [heq, zfsReceive_apply]
    obtain ⟨hkept, hfailed⟩ := h.receive_attempts b₁ id.name input
      ("-F".toList :: impl.receivenArgs.getD []) (by simp [receiveOptions])
    exact ⟨hkept.trans htaken, fun e he name x hname => hsnapshots ▸ hfailed e he name x hname⟩

theorem receives_restoreInitial {id : SnapshotIdImpl} {guid : SnapshotGuid} {input : Bytes}
    (hfull : pool.full guid input) (hok : (restoreInitial system impl id input b).1 = .ok ()) :
    pool.Receives id.name (guid, pool.image input) b (restoreInitial system impl id input b).2 := by
  rw [restoreInitial, zfsReceive_apply] at hok ⊢
  exact h.receive b id.name guid input hfull hok

/-- A difference is received on top of the snapshot that it is based on, whatever its name. -/
theorem receives_restoreDiff {parent id : SnapshotIdImpl} {base guid : SnapshotGuid} {input : Bytes}
    (hincremental : pool.incremental base guid input)
    (hok : (restoreDiff system impl parent id input b).1 = .ok ()) :
    (∃ v, pool.snapshots b parent.name = some (parent.guid, v)) ∧
      ∃ name v, pool.snapshots b name = some (base, v) ∧
        pool.Receives id.name (guid, pool.patch v input) b
          (restoreDiff system impl parent id input b).2 := by
  obtain ⟨b₁, hview, ⟨e, heq⟩ | ⟨hverify, heq⟩⟩ := restoreDiff_cases h parent id input b
  · rw [heq] at hok
    cases hok
  · have hsnapshots : pool.snapshots b₁ = pool.snapshots b := (Prod.mk.inj (Prod.mk.inj hview).2).1
    rw [heq, zfsReceive_apply] at hok ⊢
    obtain ⟨name, v, hname, hreceived, hothers⟩ :=
      h.receiveIncremental b₁ id.name base guid input hincremental hok
    exact ⟨ok_of_castAndVerify h (congrArg Prod.fst hverify), name, v, hsnapshots ▸ hname,
      hreceived, fun other y hne hy => hsnapshots ▸ hothers other y hne hy⟩

/-!
### The driver

All methods together: with what has been shown of each, the driver conveys contents.
-/

/-- What a method that returns has done. -/
theorem conveys_driver : Conveys (driver system impl) (contents pool) where
  snapshotId_encoded := parseNoVerify_encoded
  keeps_snapshot node uuid := keeps_snapshot h node uuid
  keeps_existsSnapshot id b := keeps_of_view (view_existsSnapshot h id b)
  keeps_removeSnapshot id := keeps_removeSnapshot h id
  keeps_initial id b := keeps_of_view
    (view_sendVerified (view_castAndVerify h id) fun b => h.send_keeps b id.name)
  keeps_diff parent id b := keeps_of_view
    (view_sendVerified (view_verifyBoth h parent id) fun b => h.diffsend_keeps b id.name parent.name)
  snapshot node uuid b id old hok := ok_of_snapshot h hok
  existsSnapshot id b hok := ok_of_existsSnapshot h hok
  initial id b hok := by
    obtain ⟨hfull, hsnapshot⟩ := ok_of_initial h hok
    exact ⟨hfull, held_iff.mpr hsnapshot⟩
  diff parent id b hok := by
    obtain ⟨hincremental, v, hparent, hsnapshot⟩ := ok_of_diff h hok
    exact ⟨hincremental, v, held_iff.mpr hparent, held_iff.mpr hsnapshot⟩
  restoreInitial id input b hfull hok := by
    have hreceives := receives_restoreInitial h hfull hok
    have hkept := (attempts_restoreInitial h id input b).taken
    exact ⟨held_iff.mpr hreceives.received, fun htaken =>
      ⟨fun _ _ => named_of_taken hkept, genuine_of_receives hreceives hkept htaken⟩⟩
  restoreDiff parent id input b hincremental hgenuine hok := by
    obtain ⟨⟨v, hparent⟩, base, v', hbase, hreceives⟩ := receives_restoreDiff h hincremental hok
    have hkept := (attempts_restoreDiff h parent id input b).taken
    -- the stream is based on the parent's snapshot, whatever its name
    have hguid := genuine_iff.mp hgenuine
    cases (hguid _ _ _ hparent).symm.trans (hguid _ _ _ hbase)
    exact ⟨v, held_iff.mpr hparent, held_iff.mpr hreceives.received, fun htaken =>
      ⟨fun _ _ => named_of_taken hkept, genuine_of_receives hreceives hkept htaken⟩⟩

/-- What a restore does to the meaning of ids, whatever it is given. -/
theorem upholds_driver : Upholds (driver system impl) (contents pool) where
  named_restoreInitial id input b other v :=
    named_of_taken (attempts_restoreInitial h id input b).taken
  genuine_restoreInitial id input b hgenuine hb := by
    have hattempts := attempts_restoreInitial h id input b
    cases hr : (restoreInitial system impl id input b).1 with
    | error e => exact genuine_of_fewer hattempts.taken (hattempts.failed e hr) hb
    | ok _ =>
        obtain ⟨other, hfull, htaken⟩ := hgenuine hr
        exact genuine_of_receives (receives_restoreInitial h hfull hr) hattempts.taken htaken hb
  named_restoreDiff parent id input b other v :=
    named_of_taken (attempts_restoreDiff h parent id input b).taken
  genuine_restoreDiff parent id input b hgenuine hb := by
    have hattempts := attempts_restoreDiff h parent id input b
    cases hr : (restoreDiff system impl parent id input b).1 with
    | error e => exact genuine_of_fewer hattempts.taken (hattempts.failed e hr) hb
    | ok _ =>
        obtain ⟨base, other, v, hincremental, hbase, htaken⟩ := hgenuine hr
        obtain ⟨-, name, v', hname, hreceives⟩ := receives_restoreDiff h hincremental hr
        cases (genuine_iff.mp hb _ _ _ hname).symm.trans hbase
        exact genuine_of_receives hreceives hattempts.taken htaken hb

/-- The driver conveys the contents of snapshots, and upholds what ids stand for: whichever commands
fail, what `zfs` does is enough for what the repository relies on. -/
theorem conveys : Conveys (driver system impl) (contents pool) ∧
    Upholds (driver system impl) (contents pool) :=
  ⟨conveys_driver h, upholds_driver h⟩

end ZfsBackendDriverImpl

end ZfsDriver

/-!
## A system for runs on fixed inputs

A dataset whose contents are a number, with a `zfs` that parses its arguments as the real one does,
and streams that name the guids of their snapshots.
-/

namespace Zfs

/-- A dataset whose contents are a number. -/
structure Vault where
  live : UInt64
  snapshots : SnapshotName → Option (SnapshotGuid × UInt64)
  /-- The names that have been used. -/
  names : List SnapshotName
  taken : SnapshotGuid → Option UInt64
  nextGuid : SnapshotGuid

namespace Vault

/-- A stream: the guid of the snapshot that it is based on, or 0, that of its snapshot, and a
number. -/
def stream (base guid value : UInt64) : Bytes :=
  serialise base ++ (serialise guid ++ serialise value)

def streamDeserialiser : Deserialiser (UInt64 × UInt64 × UInt64) := do
  let base ← deserialise
  let guid ← deserialise
  let value ← deserialise
  return (base, guid, value)

/-- What a stream says. -/
def parse (bytes : Bytes) : UInt64 × UInt64 × UInt64 :=
  match streamDeserialiser bytes with
  | .ok (stream, _) => stream
  | .error _ => (0, 0, 0)

@[simp] theorem parse_stream (base guid value : UInt64) :
    parse (stream base guid value) = (base, guid, value) := by
  have hreads : Reads (· = insufficientData) streamDeserialiser (stream base guid value)
      (base, guid, value) :=
    (reads base).bind <| (reads guid).bind <| (reads value).bind_pure rfl
  rw [parse, hreads.all]

def pool : Pool Vault UInt64 where
  live := live
  snapshots := snapshots
  taken := taken
  image bytes := (parse bytes).2.2
  patch v bytes := (parse bytes).2.2 + v
  full guid bytes := ∃ value, bytes = stream 0 guid.guid value
  incremental base guid bytes := ∃ value, bytes = stream base.guid guid.guid value

@[simp] theorem image_stream (base guid value : UInt64) :
    pool.image (stream base guid value) = value :=
  congrArg (fun x => x.2.2) (parse_stream base guid value)

@[simp] theorem patch_stream (v base guid value : UInt64) :
    pool.patch v (stream base guid value) = value + v :=
  congrArg (fun x => x.2.2 + v) (parse_stream base guid value)

def succeed (out : Bytes) (vault : Vault) : Stream × Vault := (⟨[out], .ok ()⟩, vault)

def failed (vault : Vault) : Stream × Vault :=
  (⟨[], .error (.commandFailed "zfs: command failed with exit status 1")⟩, vault)

def snapshot (name : SnapshotName) (vault : Vault) : Stream × Vault :=
  match vault.snapshots name, vault.taken vault.nextGuid with
  | none, none => succeed []
      { vault with
        snapshots := Function.update vault.snapshots name (some (vault.nextGuid, vault.live))
        names := name :: vault.names
        taken := Function.update vault.taken vault.nextGuid (some vault.live)
        nextGuid := vault.nextGuid.next }
  | _, _ => failed vault

def destroy (name : SnapshotName) (vault : Vault) : Stream × Vault :=
  succeed [] { vault with snapshots := Function.update vault.snapshots name none }

def send (name : SnapshotName) (vault : Vault) : Stream × Vault :=
  match vault.snapshots name with
  | some (guid, value) => succeed (stream 0 guid.guid value) vault
  | none => failed vault

def diffsend (base name : SnapshotName) (vault : Vault) : Stream × Vault :=
  match vault.snapshots base, vault.snapshots name with
  | some (guidBase, before), some (guid, value) =>
    succeed (stream guidBase.guid guid.guid (value - before)) vault
  | _, _ => failed vault

def get (name : SnapshotName) (vault : Vault) : Stream × Vault :=
  match vault.snapshots name with
  | some (guid, _) => succeed (toBytes (guid.str ++ ['\n'])) vault
  | none => failed vault

/-- The contents of the snapshot with the guid. -/
def find (guid : UInt64) (vault : Vault) : Option UInt64 :=
  vault.names.findSome? fun name =>
    (vault.snapshots name).bind fun x => if x.1.guid = guid then some x.2 else none

def receive (name : SnapshotName) (input : Bytes) (vault : Vault) : Stream × Vault :=
  let (base, guid, value) := parse input
  if h : guid = 0 then failed vault
  else if base = 0 then
    succeed [] { vault with
      live := value
      snapshots := Function.update (fun _ => none) name (some (⟨guid, h⟩, value))
      names := name :: vault.names }
  else
    match vault.find base with
    | some before => succeed [] { vault with
        live := value + before
        snapshots := Function.update vault.snapshots name (some (⟨guid, h⟩, value + before))
        names := name :: vault.names }
    | none => failed vault

def zfs (argv : List (List Char)) (input : Bytes) (vault : Vault) : Stream × Vault :=
  match argv with
  | [_, command, arg] =>
    match SamplePool.target arg with
    | some name =>
      if command = "snapshot".toList then vault.snapshot name
      else if command = "destroy".toList then vault.destroy name
      else vault.send name
    | none => failed vault
  | [_, _, _, arg] =>
    match SamplePool.target arg with
    | some name => vault.receive name input
    | none => failed vault
  | [_, _, _, base, arg] =>
    match (SnapshotName.ofString (base.drop 1)).toOption, SamplePool.target arg with
    | some base, some name => vault.diffsend base name
    | _, _ => failed vault
  | [_, _, _, _, _, _, arg] =>
    match SamplePool.target arg with
    | some name => vault.get name
    | none => failed vault
  | _ => failed vault

def system : System Vault := ⟨zfs, fun _ => 0⟩

/-- The command of an argument that names the snapshot. -/
theorem run_command (vault : Vault) (command : List Char) (name : SnapshotName) :
    system.run (sampleDriver.zfsCommand ++ [command, datasetSnapshotName sampleDriver.dataset name])
        [] vault =
      if command = "snapshot".toList then vault.snapshot name
      else if command = "destroy".toList then vault.destroy name
      else vault.send name := by
  show (match SamplePool.target (datasetSnapshotName sampleDriver.dataset name) with
    | some name => _
    | none => _) = _
  rw [SamplePool.target_name]

theorem run_get (vault : Vault) (name : SnapshotName) :
    system.run (getArgs sampleDriver.toDataset name) [] vault = vault.get name := by
  show (match SamplePool.target (datasetSnapshotName sampleDriver.dataset name) with
    | some name => _
    | none => _) = _
  rw [SamplePool.target_name]

theorem run_receive (vault : Vault) (input : Bytes) (name : SnapshotName) :
    system.run (receiveArgs sampleDriver.toDataset ["-F".toList] name) input vault =
      vault.receive name input := by
  show (match SamplePool.target (datasetSnapshotName sampleDriver.dataset name) with
    | some name => _
    | none => _) = _
  rw [SamplePool.target_name]

theorem run_diffsend (vault : Vault) (base name : SnapshotName) :
    zfsDiffsend system sampleDriver.toDataset name base vault = vault.diffsend base name := by
  show (match (SnapshotName.ofString base.str).toOption,
      SamplePool.target (datasetSnapshotName sampleDriver.dataset name) with
    | some base, some name => _
    | _, _ => _) = _
  rw [SamplePool.target_name, SnapshotName.ofString_str]
  rfl

theorem run_send (vault : Vault) (name : SnapshotName) :
    zfsSend system sampleDriver.toDataset name vault = vault.send name :=
  run_command vault "send".toList name

/-- A snapshot that is found has a name. -/
theorem exists_of_find {vault : Vault} {guid : SnapshotGuid} {v : UInt64}
    (h : vault.find guid.guid = some v) : ∃ name, vault.snapshots name = some (guid, v) := by
  obtain ⟨name, -, hname⟩ := List.exists_of_findSome?_eq_some h
  simp only [Option.bind_eq_some_iff, Option.ite_none_right_eq_some, Option.some.injEq] at hname
  obtain ⟨⟨⟨guid', hguid'⟩, v'⟩, hsnapshot, rfl, rfl⟩ := hname
  exact ⟨name, hsnapshot⟩

/-!
### What the commands do

The sample system does what is documented. There is one lemma for each command.
-/

theorem view_get (vault : Vault) (name : SnapshotName) :
    pool.view (vault.get name).2 = pool.view vault := by
  rw [get]
  split <;> rfl

theorem get_prints {vault : Vault} {name : SnapshotName}
    (hok : (vault.get name).1.result = .ok ()) :
    ∃ guid v, vault.snapshots name = some (guid, v) ∧
      ofBytes (vault.get name).1.chunks.flatten = guid.str ++ ['\n'] := by
  rw [get] at hok ⊢
  split at hok
  · next guid v hsnapshot =>
      refine ⟨guid, v, hsnapshot, ?_⟩
      simp only [succeed, List.flatten_singleton]
      refine ofBytes_toBytes fun c hc => ?_
      rcases List.mem_append.mp hc with hc | hc
      · exact guid.toNat_lt c hc
      · rw [List.mem_singleton.mp hc]
        decide
  · cases hok

/-- The snapshot is taken, unless there is one of the name already. -/
theorem snapshot_takes (vault : Vault) (name : SnapshotName) :
    ∃ out result vault', vault.snapshot name = (⟨out, result⟩, vault') ∧
      (result ≠ .ok () ∧ pool.view vault' = pool.view vault ∨
        ∃ guid, pool.Takes name vault vault' guid) := by
  rw [snapshot]
  split
  · next hnone hfresh => exact ⟨_, _, _, rfl, .inr ⟨vault.nextGuid, hfresh, rfl, rfl, rfl⟩⟩
  · exact ⟨_, _, _, rfl, .inl ⟨by simp, rfl⟩⟩

theorem destroy_loses (vault : Vault) (name : SnapshotName) :
    pool.Loses vault (vault.destroy name).2 := by
  refine ⟨rfl, fun other x hx => ?_, rfl⟩
  have hx : Function.update vault.snapshots name none other = some x := hx
  rcases eq_or_ne other name with rfl | hne
  · rw [Function.update_self] at hx
    cases hx
  · rwa [Function.update_of_ne hne] at hx

theorem view_send (vault : Vault) (name : SnapshotName) :
    pool.view (vault.send name).2 = pool.view vault := by
  rw [send]
  split <;> rfl

theorem send_sends {vault : Vault} {name : SnapshotName}
    (hok : (vault.send name).1.result = .ok ()) :
    ∃ guid, pool.full guid (vault.send name).1.bytes ∧
      vault.snapshots name = some (guid, pool.image (vault.send name).1.bytes) := by
  rw [send] at hok ⊢
  split at hok
  · next guid v hsnapshot =>
      simp only [succeed, Stream.bytes, List.flatten_singleton, image_stream]
      exact ⟨guid, ⟨v, rfl⟩, hsnapshot⟩
  · cases hok

theorem view_diffsend (vault : Vault) (base name : SnapshotName) :
    pool.view (vault.diffsend base name).2 = pool.view vault := by
  rw [diffsend]
  split <;> rfl

theorem diffsend_sends {vault : Vault} {base name : SnapshotName}
    (hok : (vault.diffsend base name).1.result = .ok ()) :
    ∃ guidBase v guid, vault.snapshots base = some (guidBase, v) ∧
      pool.incremental guidBase guid (vault.diffsend base name).1.bytes ∧
      vault.snapshots name = some (guid, pool.patch v (vault.diffsend base name).1.bytes) := by
  rw [diffsend] at hok ⊢
  split at hok
  · next guidBase before guid v hbase hsnapshot =>
      simp only [succeed, Stream.bytes, List.flatten_singleton]
      refine ⟨guidBase, before, guid, hbase, ⟨v - before, rfl⟩, ?_⟩
      rw [patch_stream, UInt64.sub_add_cancel]
      exact hsnapshot
  · cases hok

/-- Only a stream that can be received changes anything. -/
theorem attempts_receive (vault : Vault) (name : SnapshotName) (input : Bytes) :
    pool.Attempts (vault.receive name input).1.result vault (vault.receive name input).2 := by
  have hsucceeded (vault' : Vault) (htaken : vault'.taken = vault.taken) :
      pool.Attempts (succeed [] vault').1.result vault (succeed [] vault').2 :=
    ⟨htaken, fun e he => by cases he⟩
  have hfailed : pool.Attempts (failed vault).1.result vault (failed vault).2 :=
    ⟨rfl, fun _ _ _ _ hx => hx⟩
  rw [receive]
  dsimp only
  split
  · exact hfailed
  · split
    · exact hsucceeded _ rfl
    · split
      · exact hsucceeded _ rfl
      · exact hfailed

theorem receive_full (vault : Vault) (name : SnapshotName) {guid : SnapshotGuid} {input : Bytes}
    (hfull : pool.full guid input) :
    pool.Receives name (guid, pool.image input) vault (vault.receive name input).2 := by
  obtain ⟨v, rfl⟩ := hfull
  rw [receive, parse_stream]
  dsimp only
  rw [dif_neg guid.nonzero, if_pos rfl, image_stream]
  refine ⟨Function.update_self name _ (fun _ : SnapshotName => none), fun other y hne hy => ?_⟩
  have hy : Function.update (fun _ => none) name _ other = some y := hy
  rw [Function.update_of_ne hne] at hy
  cases hy

/-- If a difference is received, the snapshot that it is based on was there. -/
theorem receive_incremental {vault : Vault} {name : SnapshotName} {guidBase guid : SnapshotGuid}
    {input : Bytes} (hincremental : pool.incremental guidBase guid input)
    (hok : (vault.receive name input).1.result = .ok ()) :
    ∃ base v, vault.snapshots base = some (guidBase, v) ∧
      pool.Receives name (guid, pool.patch v input) vault (vault.receive name input).2 := by
  obtain ⟨v, rfl⟩ := hincremental
  rw [receive, parse_stream] at hok ⊢
  dsimp only at hok ⊢
  rw [dif_neg guid.nonzero, if_neg guidBase.nonzero] at hok ⊢
  split at hok
  · next before hfind =>
      obtain ⟨base, hbase⟩ := exists_of_find hfind
      refine ⟨base, before, hbase, ?_, fun other y hne hy => ?_⟩
      · rw [patch_stream]
        exact Function.update_self name _ vault.snapshots
      · have hy : Function.update vault.snapshots name _ other = some y := hy
        rwa [Function.update_of_ne hne] at hy
  · cases hok

theorem documented : Documented system sampleDriver pool where
  get_keeps vault name := by
    rw [run_get]
    exact view_get vault name
  get vault name hok := by
    rw [run_get] at hok ⊢
    exact get_prints hok
  snapshot vault name := by
    obtain ⟨out, result, vault', heq, hmoved⟩ := snapshot_takes vault name
    exact ⟨out, result, vault', (run_command vault "snapshot".toList name).trans heq, hmoved⟩
  destroy vault name := by
    have hrun : system.run (sampleDriver.zfsCommand ++ ["destroy".toList,
        datasetSnapshotName sampleDriver.dataset name]) [] vault = vault.destroy name :=
      run_command vault _ name
    rw [hrun]
    exact destroy_loses vault name
  send_keeps vault name := by
    rw [run_send]
    exact view_send vault name
  send vault name hok := by
    rw [run_send] at hok ⊢
    exact send_sends hok
  diffsend_keeps vault name base := by
    rw [run_diffsend]
    exact view_diffsend vault base name
  diffsend vault name base hok := by
    rw [run_diffsend] at hok ⊢
    exact diffsend_sends hok
  receive_attempts vault name input args hargs := by
    -- both kinds of nodes are received with the option -F alone
    obtain rfl : args = ["-F".toList] := by simpa [receiveOptions, sampleDriver] using hargs
    rw [run_receive]
    exact attempts_receive vault name input
  receive vault name guid input hfull _ := by
    have hrun : system.run (receiveArgs sampleDriver.toDataset
        ("-F".toList :: sampleDriver.receive0Args.getD []) name) input vault =
          vault.receive name input := run_receive vault input name
    rw [hrun]
    exact receive_full vault name hfull
  receiveIncremental vault name guidBase guid input hincremental hok := by
    have hrun : system.run (receiveArgs sampleDriver.toDataset
        ("-F".toList :: sampleDriver.receivenArgs.getD []) name) input vault =
          vault.receive name input := run_receive vault input name
    rw [hrun] at hok ⊢
    exact receive_incremental hincremental hok

end Vault

end Zfs

/-- With the numbers. -/
theorem ZfsDriver.ZfsBackendDriverImpl.conveys_vault :
    Conveys (ZfsDriver.ZfsBackendDriverImpl.driver Vault.system sampleDriver)
        (ZfsDriver.contents Vault.pool) ∧
      Upholds (ZfsDriver.ZfsBackendDriverImpl.driver Vault.system sampleDriver)
        (ZfsDriver.contents Vault.pool) :=
  conveys Vault.documented

end Diffmonger
