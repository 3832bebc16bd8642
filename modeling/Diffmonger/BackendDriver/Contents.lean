import Diffmonger.BackendDriver
import Diffmonger.EncryptionUtil

/-!
# What snapshots contain

A full payload describes the contents of a dataset, and a difference describes them in terms of the
contents of its parent. An id belongs to one snapshot for good: which contents it stands for
(`named`) does not depend on whether the dataset holds the snapshot (`held`).

This is what the repository relies on a backend for, without reference to any one backend. A method
that returns has done its work (`Conveys`); whatever is called, and however it ends, no id comes to
stand for something else (`Upholds`); and a backend that is asked for nothing unreasonable does not
fail (`Willing`). A dataset that is a counter has all of these properties. For ZFS the first two are
derived from what `zfs` does (`ZfsDriver/Contents.lean`).
-/

namespace Diffmonger

/-- The contents of a backend's dataset and of its snapshots, and what payloads say about them. -/
structure Contents (β S V : Type) where
  /-- The contents of the dataset itself. -/
  live : β → V
  /-- The contents of a snapshot that is in the dataset. -/
  held : β → S → Option V
  /-- The contents of the snapshot that the id was given to. -/
  named : β → S → Option V
  /-- The contents that a full payload describes. -/
  image : Bytes → V
  /-- What a difference makes of the contents of its parent. -/
  patch : V → Bytes → V
  /-- The full payloads of a snapshot. -/
  full : S → Bytes → Prop
  /-- The differences between a parent and a snapshot. -/
  difference : S → S → Bytes → Prop

namespace Contents

variable {β S V : Type} {contents : Contents β S V} {b b' b'' : β}

/-- The snapshots in the dataset are the ones that their ids were given to. -/
def Genuine (contents : Contents β S V) (b : β) : Prop :=
  ∀ id v, contents.held b id = some v → contents.named b id = some v

/-- From `b` to `b'`, ids have been given to new snapshots only. -/
structure Persists (contents : Contents β S V) (b b' : β) : Prop where
  named : ∀ id v, contents.named b id = some v → contents.named b' id = some v
  genuine : contents.Genuine b → contents.Genuine b'

/-- Besides, the dataset itself has not changed. -/
structure Keeps (contents : Contents β S V) (b b' : β) : Prop
    extends contents.Persists b b' where
  live : contents.live b' = contents.live b

theorem Persists.refl (b : β) : contents.Persists b b := ⟨fun _ _ => id, id⟩

theorem Persists.trans (h : contents.Persists b b') (h' : contents.Persists b' b'') :
    contents.Persists b b'' :=
  ⟨fun id v hv => h'.named id v (h.named id v hv), fun hb => h'.genuine (h.genuine hb)⟩

theorem Keeps.refl (b : β) : contents.Keeps b b := ⟨.refl b, rfl⟩

theorem Keeps.trans (h : contents.Keeps b b') (h' : contents.Keeps b' b'') :
    contents.Keeps b b'' :=
  ⟨h.toPersists.trans h'.toPersists, h'.live.trans h.live⟩

end Contents

variable {β S V : Type}

/-- A method that returns has done its work, and no method gives an id a new meaning, as long as
what is restored are the payloads of the snapshots. A snapshot contains what the dataset does when
it is taken, unless it is already old. -/
structure Conveys (driver : BackendDriver β S) (contents : Contents β S V) : Prop where
  snapshotId_encoded : ∀ id, driver.snapshotId (driver.encoded id) = .ok id
  keeps_snapshot : ∀ node uuid b, contents.Keeps b (driver.snapshot node uuid b).2
  keeps_existsSnapshot : ∀ id b, contents.Keeps b (driver.existsSnapshot id b).2
  keeps_removeSnapshot : ∀ id b, contents.Keeps b (driver.removeSnapshot id b).2
  keeps_initial : ∀ id b, contents.Keeps b (driver.initial id b).2
  keeps_diff : ∀ parent id b, contents.Keeps b (driver.diff parent id b).2
  snapshot : ∀ node uuid b id old, (driver.snapshot node uuid b).1 = .ok (id, old) →
    ∃ v, contents.held (driver.snapshot node uuid b).2 id = some v ∧
      (old = false → v = contents.live b)
  existsSnapshot : ∀ id b, (driver.existsSnapshot id b).1 = .ok true →
    (contents.held (driver.existsSnapshot id b).2 id).isSome
  initial : ∀ id b, (driver.initial id b).1.result = .ok () →
    contents.full id (driver.initial id b).1.bytes ∧
      contents.held b id = some (contents.image (driver.initial id b).1.bytes)
  diff : ∀ parent id b, (driver.diff parent id b).1.result = .ok () →
    contents.difference parent id (driver.diff parent id b).1.bytes ∧ ∃ v,
      contents.held b parent = some v ∧
        contents.held b id = some (contents.patch v (driver.diff parent id b).1.bytes)
  restoreInitial : ∀ id input b, contents.full id input →
    (driver.restoreInitial id input b).1 = .ok () →
    contents.held (driver.restoreInitial id input b).2 id = some (contents.image input) ∧
      (contents.named b id = some (contents.image input) →
        contents.Persists b (driver.restoreInitial id input b).2)
  restoreDiff : ∀ parent id input b, contents.difference parent id input → contents.Genuine b →
    (driver.restoreDiff parent id input b).1 = .ok () → ∃ v, contents.held b parent = some v ∧
      contents.held (driver.restoreDiff parent id input b).2 id = some (contents.patch v input) ∧
      (contents.named b id = some (contents.patch v input) →
        contents.Persists b (driver.restoreDiff parent id input b).2)

/-- Whatever is restored and however it ends, no id is given a new meaning. If it fails, or if what
is restored is the payload of a snapshot as it was taken, then the dataset still holds only
snapshots that are the ones their ids were given to. -/
structure Upholds (driver : BackendDriver β S) (contents : Contents β S V) : Prop where
  named_restoreInitial : ∀ id input b other v, contents.named b other = some v →
    contents.named (driver.restoreInitial id input b).2 other = some v
  genuine_restoreInitial : ∀ id input b, ((driver.restoreInitial id input b).1 = .ok () →
      ∃ other, contents.full other input ∧ contents.named b other = some (contents.image input)) →
    contents.Genuine b → contents.Genuine (driver.restoreInitial id input b).2
  named_restoreDiff : ∀ parent id input b other v, contents.named b other = some v →
    contents.named (driver.restoreDiff parent id input b).2 other = some v
  genuine_restoreDiff : ∀ parent id input b, ((driver.restoreDiff parent id input b).1 = .ok () →
      ∃ base other v, contents.difference base other input ∧ contents.named b base = some v ∧
        contents.named b other = some (contents.patch v input)) →
    contents.Genuine b → contents.Genuine (driver.restoreDiff parent id input b).2

/-- Nothing goes wrong when payloads are restored to a dataset without snapshots, or those of
differences to a dataset that holds their parents. -/
structure Willing (driver : BackendDriver β S) (contents : Contents β S V) : Prop where
  existsSnapshot : ∀ id b, (driver.existsSnapshot id b).1 = .ok (contents.held b id).isSome ∧
    contents.held (driver.existsSnapshot id b).2 = contents.held b
  restoreInitial : ∀ id input b, contents.full id input → (∀ other, contents.held b other = none) →
    (driver.restoreInitial id input b).1 = .ok ()
  restoreDiff : ∀ parent id input b, contents.difference parent id input →
    (contents.held b parent).isSome → (driver.restoreDiff parent id input b).1 = .ok ()

/-!
## A counter

A backend that is as simple as can be and has all of these properties: the dataset is a number, an
id holds the number at the time, and a difference is the number to be added. Restoring the initial
node discards the other snapshots.
-/

/-- A dataset whose contents are a number, with its snapshots. -/
structure Counter where
  value : UInt64
  snapshots : Encoded → Option UInt64

namespace Counter

def nodeOf (id : Encoded) : Node := id.node

theorem node_eq (id : Encoded) : id.node = nodeOf id := rfl

/-- The id of a snapshot tells its contents. -/
def idOf (node : Node) (value : UInt64) : Encoded :=
  ⟨⟨Serialisation.serialise value, by simp⟩, node, 0⟩

/-- The number that the bytes begin with. -/
def read (bytes : Bytes) : UInt64 :=
  match (Serialisation.deserialise : Serialisation.Deserialiser UInt64) bytes with
  | .ok (value, _) => value
  | .error _ => 0

theorem read_serialise (value : UInt64) : read (Serialisation.serialise value) = value := by
  have h := (Serialisation.reads value).all
  rw [read, h]

def contents : Contents Counter Encoded UInt64 where
  live b := b.value
  held b id := b.snapshots id
  named _ id := some (read id.bytes.toList)
  image := read
  patch v bytes := read bytes + v
  full _ _ := True
  difference _ _ _ := True

/-- The snapshot is put into the dataset, or taken out of it. -/
def set (b : Counter) (id : Encoded) (value : Option UInt64) : Counter :=
  { b with snapshots := Function.update b.snapshots id value }

def missing : Exn := .snapshotDoesNotExist "counter"

/-- A difference is the number to be added. -/
def driver : BackendDriver Counter Encoded where
  pretty _ := "counter"
  encoded id := id
  getNode := nodeOf
  snapshotId encoded := .ok encoded
  snapshot node _ b := (.ok (idOf node b.value, false), b.set (idOf node b.value) (some b.value))
  existsSnapshot id b := (.ok (b.snapshots id).isSome, b)
  removeSnapshot id b := (.ok (), b.set id none)
  initial id b :=
    match b.snapshots id with
    | some value => (⟨[Serialisation.serialise value], .ok ()⟩, b)
    | none => (⟨[], .error missing⟩, b)
  diff parent id b :=
    match b.snapshots parent, b.snapshots id with
    | some before, some value => (⟨[Serialisation.serialise (value - before)], .ok ()⟩, b)
    | _, _ => (⟨[], .error missing⟩, b)
  restoreInitial id input _ :=
    (.ok (), (⟨read input, fun _ => none⟩ : Counter).set id (some (read input)))
  restoreDiff parent id input b :=
    match b.snapshots parent with
    | some before =>
      (.ok (), (⟨read input + before, b.snapshots⟩ : Counter).set id (some (read input + before)))
    | none => (.error missing, b)
  node_encoded := node_eq
  getNode_snapshotId e id h := by cases h; rfl
  getNode_snapshot node uuid b id old h := by cases h; rfl

theorem genuine_set {snapshots : Encoded → Option UInt64} {value : UInt64} {id : Encoded}
    {new : Option UInt64} (hnew : ∀ v, new = some v → v = read id.bytes.toList)
    (h : ∀ other v, snapshots other = some v → v = read other.bytes.toList) :
    contents.Genuine ((⟨value, snapshots⟩ : Counter).set id new) := by
  intro other v hv
  have hv : Function.update snapshots id new other = some v := hv
  rcases eq_or_ne other id with rfl | hne
  · rw [Function.update_self] at hv
    exact congrArg some (hnew v hv).symm
  · rw [Function.update_of_ne hne] at hv
    exact congrArg some (h other v hv).symm

theorem genuine_iff {b : Counter} :
    contents.Genuine b ↔ ∀ other v, b.snapshots other = some v → v = read other.bytes.toList :=
  ⟨fun h other v hv => (Option.some.inj (h other v hv)).symm,
    fun h other v hv => congrArg some (h other v hv).symm⟩

theorem keeps_set {b : Counter} {id : Encoded} {new : Option UInt64}
    (hnew : ∀ v, new = some v → v = read id.bytes.toList) : contents.Keeps b (b.set id new) :=
  ⟨⟨fun _ _ h => h, fun hb => genuine_set hnew (genuine_iff.mp hb)⟩, rfl⟩

/-- The counter does what it is asked to. -/
theorem conveys_driver : Conveys driver contents where
  snapshotId_encoded _ := rfl
  keeps_snapshot node _ b := keeps_set fun v hv => by
    cases hv
    exact (read_serialise b.value).symm
  keeps_existsSnapshot _ b := .refl b
  keeps_removeSnapshot _ b := keeps_set nofun
  keeps_initial id b := by
    simp only [driver]
    split <;> exact .refl b
  keeps_diff parent id b := by
    simp only [driver]
    split <;> exact .refl b
  snapshot node _ b id old h := by
    cases h
    exact ⟨b.value, Function.update_self .., fun _ => rfl⟩
  existsSnapshot id b h := Except.ok.inj h
  initial id b h := by
    simp only [driver] at h ⊢
    split at h
    · next value hid =>
        simp only [contents, Stream.bytes, List.flatten_singleton, read_serialise, hid, true_and]
    · cases h
  diff parent id b h := by
    simp only [driver] at h ⊢
    split at h
    · next before value hparent hid =>
        -- adding what has been subtracted gives the number back, whatever overflows
        refine ⟨trivial, before, hparent, ?_⟩
        simp only [contents, Stream.bytes, List.flatten_singleton, read_serialise, hid,
          UInt64.sub_add_cancel]
    · cases h
  restoreInitial id input b _ _ := by
    refine ⟨Function.update_self .., fun hnamed => ⟨fun _ _ h => h, fun _ => ?_⟩⟩
    -- all other snapshots are gone
    exact genuine_set (fun v hv => by cases hv; exact (Option.some.inj hnamed).symm) nofun
  restoreDiff parent id input b _ _ h := by
    simp only [driver] at h ⊢
    split at h
    · next before hparent =>
        refine ⟨before, hparent, Function.update_self .., fun hnamed => ⟨fun _ _ h => h, fun hb => ?_⟩⟩
        exact genuine_set (fun v hv => by cases hv; exact (Option.some.inj hnamed).symm)
          (genuine_iff.mp hb)
    · cases h

theorem willing_driver : Willing driver contents where
  existsSnapshot _ _ := ⟨rfl, rfl⟩
  restoreInitial _ _ _ _ _ := rfl
  restoreDiff parent id input b _ h := by
    obtain ⟨before, hparent⟩ := Option.isSome_iff_exists.mp h
    have hparent : b.snapshots parent = some before := hparent
    simp only [driver, hparent]

end Counter

end Diffmonger
