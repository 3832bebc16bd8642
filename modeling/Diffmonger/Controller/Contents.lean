import Diffmonger.BackendDriver.Contents
import Diffmonger.Controller.Completed
import Diffmonger.Controller.Directory
import Diffmonger.EncryptionUtil.Spec

/-!
# What the repository contains

What a repository says about the contents of the snapshots that it stores, under a history of
snapshot commands, each of which may be killed after any step. A `record` lists the nodes committed
so far, each with the id and the contents of its snapshot. The files that are left of a node's
directory are those of its entry: the id is that of the entry, and the payload leads from the
contents of the parent's entry to its own.

This is the invariant `Filed`. It does not say which nodes are left, so that deleting a node keeps
it (`Filed.framed`); and as an entry never changes, the record of a longer history has that of a
shorter one as its first part (`Grown`), so that what a payload leads from stays what it was
(`LeadsTo.extend`). A step that commits the next node adds its entry (`Filed.committed`).

That the payload of the new node leads to its contents comes from the backend: what it writes is a
difference between two snapshots of the dataset, and the parent's is the one in the record, since
nobody else has taken a snapshot with that id (`NextSnapshot.leadsTo`). That the bytes on the disk
are what the backend has written comes from `Controller/Spec.lean`, and that the key recovers it
from `EncryptionUtil/Spec.lean`. One iteration (`Filed.iteration`) is then the rule for the phases
of `_snapshot`, with `Filed` in every state that it goes through; a command repeats it
(`Filed.wp_snapshot`), and a history repeats commands (`Stored.history`).

That the parents of what is left are left as well is the invariant of `Controller/Durability.lean`.
Both together make up `Stored`.
-/

namespace Diffmonger

open Prog RepositoryStructure EncryptionUtil

variable {β S V σ : Type}

namespace Controller

/-!
## Steps that keep the contents

A step may change the directory in the way its label says. What the dataset's snapshots contain, and
what their ids stand for, it keeps. Every call of a backend that `Conveys` the contents is such a
step, and so the frame rule `wp_framed` applies to everything but a commit.
-/

/-- A step that does to the directory what its label says, and keeps the contents. -/
def Conveying (contents : Contents β S V) (event : Event) (update : World β → World β) : Prop :=
  ∀ w, (update w).disk = event.apply w.disk ∧ contents.Keeps w.backend (update w).backend

section
variable {contents : Contents β S V}

theorem onDirectory_conveying : OnDirectory (Conveying contents) where
  look _ := ⟨rfl, .refl _⟩
  perform _ _ _ := ⟨rfl, .refl _⟩
  remember _ _ := ⟨rfl, .refl _⟩
  writeBreadcrumb _ _ := ⟨rfl, .refl _⟩

theorem conveying_callBackend {ρ : Type} (call : BackendCall) {method : β → ρ × β}
    (h : ∀ b, contents.Keeps b (method b).2) :
    (callBackend call method).Emits (Conveying contents) :=
  (emits_readModify ..).mpr fun w => ⟨rfl, h w.backend⟩

variable {driver : BackendDriver β S} {sodium : Sodium σ}

theorem conveying_decodeSnapshotId (encoded : Encoded) :
    (decodeSnapshotId driver encoded).Emits (Conveying contents) :=
  emits_bind (conveying_callBackend _ .refl) fun _ => by simp

theorem conveying_existsSnapshot (h : Conveys driver contents) (id : S) :
    (existsSnapshot driver id).Emits (Conveying contents) :=
  emits_bind (conveying_callBackend _ (h.keeps_existsSnapshot id)) fun _ => by simp

theorem conveying_storeSnapshot (h : Conveys driver contents) (env : Env)
    (params : RepositoryParams) (id : S) (maybeParent : Option S) :
    (storeSnapshot driver sodium env params id maybeParent).Emits (Conveying contents) :=
  onDirectory_conveying.emits_storeSnapshot (fun id => conveying_callBackend _ (h.keeps_initial id))
    (fun parent id => conveying_callBackend _ (h.keeps_diff parent id)) sodium env params id
    maybeParent

theorem conveying_nextSnapshot (h : Conveys driver contents) (node : Node) :
    (nextSnapshot driver node).Emits (Conveying contents) := by
  refine emits_bind (onDirectory_conveying.emits_parentSnapshot conveying_decodeSnapshotId
    (conveying_existsSnapshot h) node) fun _ =>
      emits_bind (emits_getRepositoryUuid onDirectory_conveying.look) fun uuid =>
        emits_bind ?_ fun _ => ?_
  · exact emits_bind (conveying_callBackend _ (h.keeps_snapshot node uuid)) fun _ => by simp
  · trivial

theorem conveying_snapshotIteration (h : Conveys driver contents) (env : Env)
    (params : RepositoryParams) :
    (_snapshot driver sodium env params).Emits (Conveying contents) := by
  rw [_snapshot_eq]
  refine emits_bind (emits_getNextSnapshotNode onDirectory_conveying.look env) fun node =>
    emits_bind (onDirectory_conveying.emits_prune (onDirectory_conveying.emits_pruneNode
      conveying_decodeSnapshotId ?_ env)) fun _ =>
      emits_bind (conveying_nextSnapshot h node) fun _ =>
        emits_bind (conveying_storeSnapshot h env params _ _) fun _ => trivial
  exact fun id => emits_bind (conveying_callBackend _ (h.keeps_removeSnapshot id)) fun _ => by simp

end

/-!
## What is left of the nodes

A node that is there has been there before with the same id and the same payload, or has been
committed by the command that is running. Deleting takes files away, and never changes one.
-/

/-- `dir'` is what is left of `dir`. -/
structure Remains (dir dir' : NodeDir) : Prop where
  id : ∀ bytes, dir'.id = some bytes → dir.id = some bytes
  blob : ∀ bytes, dir'.blob = some bytes → dir.blob = some bytes

theorem Remains.refl (dir : NodeDir) : Remains dir dir := ⟨fun _ h => h, fun _ h => h⟩

theorem Remains.trans {dir dir' dir'' : NodeDir} (h : Remains dir dir') (h' : Remains dir' dir'') :
    Remains dir dir'' :=
  ⟨fun bytes hid => h.id bytes (h'.id bytes hid), fun bytes hblob => h.blob bytes (h'.blob bytes hblob)⟩

/-- Changing a directory in `snapshots`, but for adding to it. -/
theorem remains_of_setNode {disk : Disk} {n node : Node} {dir' : NodeDir} {dir : Option NodeDir}
    (hdir : ∀ d, dir = some d → ∃ d₀, disk.snapshots n = some d₀ ∧ Remains d₀ d)
    (h : (disk.setNode n dir).snapshots node = some dir') :
    ∃ d₀, disk.snapshots node = some d₀ ∧ Remains d₀ dir' := by
  rcases eq_or_ne node n with rfl | hne
  · rw [Disk.setNode_self] at h
    exact hdir dir' h
  · rw [Disk.setNode_of_ne _ hne] at h
    exact ⟨dir', h, .refl dir'⟩

/-- Unless a directory is renamed into place, it is what is left of the one before. -/
theorem remains_of_apply {event : Event} {disk : Disk} {node : Node} {dir' : NodeDir}
    (hevent : event ≠ .rename node) (h : (event.apply disk).snapshots node = some dir') :
    ∃ dir, disk.snapshots node = some dir ∧ Remains dir dir' := by
  cases event with
  | rename n =>
      have hne : node ≠ n := fun heq => hevent (heq ▸ rfl)
      have h : (disk.setNode n disk.temporarySnapshot).snapshots node = some dir' := h
      rw [Disk.setNode_of_ne _ hne] at h
      exact ⟨dir', h, .refl dir'⟩
  | unlinkId n =>
      refine remains_of_setNode (fun d hd => ?_) h
      obtain ⟨d₀, hd₀, rfl⟩ := Option.map_eq_some_iff.mp hd
      exact ⟨d₀, hd₀, nofun, fun _ h => h⟩
  | unlinkBlob n =>
      refine remains_of_setNode (fun d hd => ?_) h
      obtain ⟨d₀, hd₀, rfl⟩ := Option.map_eq_some_iff.mp hd
      exact ⟨d₀, hd₀, fun _ h => h, nofun⟩
  | removeDirectory n => exact remains_of_setNode (fun d hd => by cases hd) h
  | look | backend _ | createTemporary | unlinkTemporaryId | unlinkTemporaryBlob | createBlob
  | writeBlob _ | truncateTemporaryId | writeTemporaryId _ | truncateBreadcrumb
  | writeBreadcrumb _ => exact ⟨dir', h, .refl dir'⟩

/-- What steps that keep the contents lead to. -/
structure Framed (contents : Contents β S V) (w : World β) (ls : List Event) (w' : World β) : Prop where
  keeps : contents.Keeps w.backend w'.backend
  remains : ∀ node dir', node ∉ committed ls → w'.disk.snapshots node = some dir' →
    ∃ dir, w.disk.snapshots node = some dir ∧ Remains dir dir'

theorem Framed.refl {contents : Contents β S V} (w : World β) : Framed contents w [] w :=
  ⟨.refl _, fun _ dir' _ h => ⟨dir', h, .refl dir'⟩⟩

theorem Framed.step {contents : Contents β S V} {w w' : World β} {ls : List Event}
    (h : Framed contents w ls w') {event : Event} {update : World β → World β}
    (hc : Conveying contents event update) : Framed contents w (ls ++ [event]) (update w') := by
  obtain ⟨hdisk, hkeeps⟩ := hc w'
  refine ⟨h.keeps.trans hkeeps, fun node dir' hnode hdir => ?_⟩
  rw [committed_append, List.mem_append, not_or] at hnode
  rw [hdisk] at hdir
  have hevent : event ≠ .rename node := by
    rintro rfl
    exact hnode.2 (List.mem_singleton_self node)
  obtain ⟨dir, hdir, hremains⟩ := remains_of_apply hevent hdir
  obtain ⟨dir₀, hdir₀, hremains₀⟩ := h.remains node dir hnode.1 hdir
  exact ⟨dir₀, hdir₀, hremains₀.trans hremains⟩

/-- The frame rule for programs that keep the contents. -/
theorem wp_framed {contents : Contents β S V} {α : Type} {p : Repo β α}
    (hp : p.Emits (Conveying contents)) (tr : List Event) (w : World β) :
    p.wp (fun tr' w' => ∃ ls, tr' = tr ++ ls ∧ Framed contents w ls w')
      (fun _ tr' w' => ∃ ls, tr' = tr ++ ls ∧ Framed contents w ls w') tr w :=
  wp_of_emits (R := fun tr' w' => ∃ ls, tr' = tr ++ ls ∧ Framed contents w ls w') hp
    (fun _ _ _ _ hc ⟨ls, htr, hw⟩ => ⟨_, by rw [htr, List.append_assoc], hw.step hc⟩)
    ⟨[], (List.append_nil tr).symm, .refl w⟩

/-- From the start of a process on. -/
theorem wp_framed_nil {contents : Contents β S V} {α : Type} {p : Repo β α}
    (hp : p.Emits (Conveying contents)) (w : World β) :
    p.wp (Framed contents w) (fun _ => Framed contents w) [] w :=
  wp_of_emits hp (fun _ _ _ _ hc hw => hw.step hc) (.refl w)

/-! ## Records -/

/-- What decrypting makes of a blob. -/
def revealed (sodium : Sodium σ) (key : Option DecryptedKeyPair) (blob : Bytes) : Bytes :=
  match key with
  | some key => (decryptFromFd sodium key blob).bytes
  | none => blob

/-- With the key, what is stored now can be read. -/
def Fits (IsKeyPair : ByteArray' 32 → ByteArray' 32 → Prop) (encryption : Bool)
    (key : Option DecryptedKeyPair) (keyPairs : Except Exn (List KeyPair)) : Prop :=
  if encryption then
    ∃ kps decryptedKeyPair, keyPairs = .ok kps ∧ key = some decryptedKeyPair ∧
      Opens IsKeyPair kps decryptedKeyPair
  else key = none

/-- The key, if there is one, decrypts the blob. -/
def Decrypts (sodium : Sodium σ) (key : Option DecryptedKeyPair) (blob : Bytes) : Prop :=
  ∀ decryptedKeyPair, key = some decryptedKeyPair →
    (decryptFromFd sodium decryptedKeyPair blob).result = .ok ()

/-- What has been stored comes back. -/
theorem revealed_of_storedAs {sodium : Sodium σ} {IsKeyPair : ByteArray' 32 → ByteArray' 32 → Prop}
    {InStep : σ → σ → Prop} (hsodium : sodium.Correct IsKeyPair InStep) {env : Env}
    {params : RepositoryParams} {key : Option DecryptedKeyPair}
    {keyPairs : Except Exn (List KeyPair)} (hfits : Fits IsKeyPair params.encryption key keyPairs)
    {node : Node} {plaintext blob : Bytes}
    (h : StoredAs sodium env params keyPairs node plaintext blob) :
    Decrypts sodium key blob ∧ revealed sodium key blob = plaintext := by
  unfold StoredAs at h
  unfold Fits at hfits
  split at h
  · next henc =>
      rw [if_pos henc] at hfits
      obtain ⟨kps, decryptedKeyPair, hkps, rfl, hopens⟩ := hfits
      obtain ⟨kps', hkps', hok, rfl⟩ := h
      obtain rfl : kps = kps' := Except.ok.inj (hkps.symm.trans hkps')
      obtain ⟨hdecrypted, hbytes⟩ := decryptFromFd_encryptToFd hsodium hopens hok
      exact ⟨fun _ heq => Option.some.inj heq ▸ hdecrypted, hbytes⟩
  · next henc =>
      rw [if_neg henc] at hfits
      subst hfits
      exact ⟨nofun, h⟩

/-- The payload is one of the snapshot `id`, and leads from the contents that the record has for the
parent to `v`. -/
def LeadsTo (contents : Contents β S V) (record : List (S × V)) (node : Node) (id : S) (v : V)
    (payload : Bytes) : Prop :=
  if node = Node.initialValue then contents.full id payload ∧ contents.image payload = v
  else ∃ parent before, record[node.fenwickParent.toNat]? = some (parent, before) ∧
    contents.difference parent id payload ∧ contents.patch before payload = v

/-- The files in a node's directory are those of the node's entry in the record. -/
structure OfEntry (driver : BackendDriver β S) (contents : Contents β S V) (sodium : Sodium σ)
    (key : Option DecryptedKeyPair) (record : List (S × V)) (node : Node) (id : S) (v : V)
    (dir : NodeDir) : Prop where
  entry : record[node.toNat]? = some (id, v)
  idFile : ∀ bytes, dir.id = some bytes → bytes = (driver.encoded id).serialise
  blobFile : ∀ bytes, dir.blob = some bytes →
    LeadsTo contents record node id v (revealed sodium key bytes)

/-- The directory holds what is left of the nodes in the record. -/
def HoldsEntries (driver : BackendDriver β S) (contents : Contents β S V) (sodium : Sodium σ)
    (key : Option DecryptedKeyPair) (record : List (S × V)) (disk : Disk) : Prop :=
  ∀ node dir, disk.snapshots node = some dir →
    ∃ id v, OfEntry driver contents sodium key record node id v dir

/-- Besides, the ids in the record are those of snapshots with the contents in the record. -/
structure Filed (driver : BackendDriver β S) (contents : Contents β S V) (sodium : Sodium σ)
    (key : Option DecryptedKeyPair) (record : List (S × V)) (w : World β) : Prop where
  files : HoldsEntries driver contents sodium key record w.disk
  named : ∀ id v, (id, v) ∈ record → contents.named w.backend id = some v
  genuine : contents.Genuine w.backend

section
variable {driver : BackendDriver β S} {contents : Contents β S V} {sodium : Sodium σ}
  {key : Option DecryptedKeyPair} {record record' : List (S × V)} {node : Node} {id : S} {v : V}
  {dir dir' : NodeDir} {w w' : World β}

theorem getElem?_of_isPrefix {α : Type} {xs ys : List α} (h : xs <+: ys) {i : ℕ} {x : α}
    (hx : xs[i]? = some x) : ys[i]? = some x := by
  obtain ⟨hi, rfl⟩ := List.getElem?_eq_some_iff.mp hx
  exact List.prefix_iff_getElem?.mp h i hi

theorem LeadsTo.extend {payload : Bytes} (h : LeadsTo contents record node id v payload)
    (hgrows : record <+: record') : LeadsTo contents record' node id v payload := by
  unfold LeadsTo at h ⊢
  split at h
  · next hroot => rwa [if_pos hroot]
  · next hroot =>
      obtain ⟨parent, before, hparent, hpayload⟩ := h
      rw [if_neg hroot]
      exact ⟨parent, before, getElem?_of_isPrefix hgrows hparent, hpayload⟩

theorem OfEntry.extend (h : OfEntry driver contents sodium key record node id v dir)
    (hgrows : record <+: record') : OfEntry driver contents sodium key record' node id v dir :=
  ⟨getElem?_of_isPrefix hgrows h.entry, h.idFile,
    fun bytes hbytes => (h.blobFile bytes hbytes).extend hgrows⟩

theorem OfEntry.remains (h : OfEntry driver contents sodium key record node id v dir)
    (hdir : Remains dir dir') : OfEntry driver contents sodium key record node id v dir' :=
  ⟨h.entry, fun bytes hbytes => h.idFile bytes (hdir.id bytes hbytes),
    fun bytes hbytes => h.blobFile bytes (hdir.blob bytes hbytes)⟩

/-- Steps that commit nothing. -/
theorem Filed.framed (h : Filed driver contents sodium key record w) {ls : List Event}
    (hw : Framed contents w ls w') (hls : committed ls = []) :
    Filed driver contents sodium key record w' where
  files node dir' hdir' := by
    obtain ⟨dir, hdir, hremains⟩ := hw.remains node dir' (by rw [hls]; exact List.not_mem_nil) hdir'
    obtain ⟨id, v, hentry⟩ := h.files node dir hdir
    exact ⟨id, v, hentry.remains hremains⟩
  named id v hmem := hw.keeps.named id v (h.named id v hmem)
  genuine := hw.keeps.genuine h.genuine

/-- Steps that commit the next node. -/
theorem Filed.committed (h : Filed driver contents sodium key record w) {ls : List Event}
    (hw : Framed contents w ls w') {u : Node} (hls : committed ls = [u])
    (hu : u.toNat = record.length) (hnamed : contents.named w'.backend id = some v)
    {blob : Bytes} (hdir : w'.disk.snapshots u = some ⟨some (driver.encoded id).serialise, some blob⟩)
    (hblob : LeadsTo contents record u id v (revealed sodium key blob)) :
    Filed driver contents sodium key (record ++ [(id, v)]) w' where
  files node dir' hdir' := by
    have hgrows : record <+: record ++ [(id, v)] := List.prefix_append ..
    rcases eq_or_ne node u with rfl | hne
    · cases hdir.symm.trans hdir'
      refine ⟨id, v, ?_, fun bytes hbytes => ?_, fun bytes hbytes => ?_⟩
      · rw [hu]
        exact List.getElem?_concat_length
      · cases hbytes
        rfl
      · cases hbytes
        exact hblob.extend hgrows
    · have hnode : node ∉ Diffmonger.committed ls := by
        rw [hls]
        exact fun hmem => hne (List.mem_singleton.mp hmem)
      obtain ⟨dir, hdir, hremains⟩ := hw.remains node dir' hnode hdir'
      obtain ⟨id, v, hentry⟩ := h.files node dir hdir
      exact ⟨id, v, (hentry.remains hremains).extend hgrows⟩
  named id' v' hmem := by
    rcases List.mem_append.mp hmem with hmem | hmem
    · exact hw.keeps.named id' v' (h.named id' v' hmem)
    · cases List.mem_singleton.mp hmem
      exact hnamed
  genuine := hw.keeps.genuine h.genuine

end

/-!
## One iteration of `snapshot`

The record grows by the snapshot of the next node. Until the node is committed, nothing of it can be
seen; then its id and its payload are there, which is a difference to what the record says of its
parent, or a full payload.
-/

section
variable {driver : BackendDriver β S} {contents : Contents β S V} {sodium : Sodium σ}
  {key : Option DecryptedKeyPair} {record : List (S × V)} {u : Node} {w : World β}

/-- An id that is read is that of the node's entry. -/
theorem HoldsEntries.entry_of_readId {disk : Disk}
    (hfiles : HoldsEntries driver contents sodium key record disk) {node : Node} {encoded : Encoded}
    (hread : disk.readId node = .ok (some encoded)) :
    ∃ id v, encoded = driver.encoded id ∧ record[node.toNat]? = some (id, v) := by
  have hfile : ∃ bytes, disk.idFile node = some bytes := by
    by_contra hnone
    rw [not_exists, ← Option.eq_none_iff_forall_ne_some] at hnone
    rw [Disk.readId_of_none hnone] at hread
    cases hread
  obtain ⟨bytes, hbytes⟩ := hfile
  obtain ⟨dir, hdir, hidfile⟩ := Option.bind_eq_some_iff.mp hbytes
  obtain ⟨id, v, hentry⟩ := hfiles node dir hdir
  obtain rfl := hentry.idFile bytes hidfile
  refine ⟨id, v, ?_, hentry.entry⟩
  rw [Disk.readId, hbytes] at hread
  simp only [Encoded.deserialise_serialise] at hread
  split at hread
  · cases hread
    rfl
  · cases hread

theorem HoldsEntries.wp_nodeToSnapshotId
    (hfiles : HoldsEntries driver contents sodium key record w.disk)
    (h : Conveys driver contents) (node : Node) (tr : List Event) :
    (nodeToSnapshotId driver node).wp (fun _ _ => True)
      (onVal fun id _ w' => w' = w ∧ w.disk.readId node = .ok (some (driver.encoded id)) ∧
        ∃ v, record[node.toNat]? = some (id, v)) tr w := by
  refine wp_post ?_ (nodeToSnapshotId_ends driver node w tr)
  rintro r tr' w' ⟨rfl, hr⟩
  refine onVal_iff.mpr fun id hid => ⟨rfl, ?_⟩
  obtain ⟨encoded, hread, hdecode⟩ := (hr id).mp hid
  obtain ⟨id', v, rfl, hentry⟩ := hfiles.entry_of_readId hread
  rw [h.snapshotId_encoded] at hdecode
  cases hdecode
  exact ⟨hread, v, hentry⟩

/-- What `nextSnapshot` returns: the next node's snapshot, and its parent's. -/
structure NextSnapshot (driver : BackendDriver β S) (contents : Contents β S V)
    (record : List (S × V)) (u : Node) (live : V) (b : β) (x : Option S × S × Bool) (v : V) :
    Prop where
  node : driver.getNode x.2.1 = u
  held : contents.held b x.2.1 = some v
  live : x.2.2 = false → v = live
  parent : u ≠ Node.initialValue →
    ∃ parent before, x.1 = some parent ∧ record[u.fenwickParent.toNat]? = some (parent, before)

/-- The parent's snapshot, if the node has a parent. -/
theorem Filed.wp_parentSnapshot (hfiled : Filed driver contents sodium key record w)
    (h : Conveys driver contents) (u : Node) (tr : List Event) :
    (parentSnapshot driver u).wp (fun _ _ => True)
      (onVal fun maybeParent _ w' => contents.Keeps w.backend w'.backend ∧
        (u ≠ Node.initialValue → ∃ parent before, maybeParent = some parent ∧
          record[u.fenwickParent.toNat]? = some (parent, before))) tr w := by
  unfold parentSnapshot Node.fenwickMaybeParent
  by_cases hroot : u = Node.initialValue
  · rw [if_pos (Node.isRoot_iff.mpr hroot)]
    exact ⟨.refl _, fun hne => absurd hroot hne⟩
  · rw [if_neg (mt Node.isRoot_iff.mp hroot)]
    refine wp_bind_of_onVal (hfiled.files.wp_nodeToSnapshotId h u.fenwickParent tr) ?_
    rintro parent tr w ⟨rfl, -, before, hentry⟩
    simp only [existsSnapshot, callBackend, bind_assoc]
    refine (wp_bind_onVal _ _).mpr ⟨trivial, ?_⟩
    dsimp only
    cases (driver.existsSnapshot parent w.backend).1 with
    | error e => trivial
    | ok found =>
        cases found with
        | false => trivial
        | true => exact ⟨h.keeps_existsSnapshot parent w.backend, fun _ => ⟨parent, before, rfl, hentry⟩⟩

/-- The snapshot of the next node, together with that of its parent, and with what the dataset
contains at that moment. -/
theorem Filed.nextSnapshot_ends (hfiled : Filed driver contents sodium key record w)
    (h : Conveys driver contents) (u : Node) :
    (nextSnapshot driver u).Ends (fun r w' => ∀ x, r = .val x → contents.Keeps w.backend w'.backend ∧
      ∃ v, NextSnapshot driver contents record u (contents.live w.backend) w'.backend x v) w := by
  intro tr
  refine wp_post (fun _ _ _ => onVal_iff.mp) (?_ : (nextSnapshot driver u).wp (fun _ _ => True)
    (onVal fun x _ w' => contents.Keeps w.backend w'.backend ∧ ∃ v, NextSnapshot driver contents
      record u (contents.live w.backend) w'.backend x v) tr w)
  refine wp_bind_of_onVal (hfiled.wp_parentSnapshot h u tr) ?_
  rintro maybeParent tr₁ w₁ ⟨hkeeps₁, hparent⟩
  refine wp_bind_of_onVal (P := fun _ _ w' => w'.backend = w₁.backend) ?_ ?_
  · simp only [getRepositoryUuid, wp_bind, wp_look, bindPost, true_and]
    split
    · trivial
    · simp only [wp_bind, wp_ofExcept]
      cases Ioutil.readBytesExact 16 _ <;> trivial
  · intro uuid tr₂ w₂ hw₂
    simp only [takeSnapshot, callBackend, bind_assoc]
    refine (wp_bind_onVal _ _).mpr ⟨trivial, ?_⟩
    dsimp only
    have hkeeps₂ := h.keeps_snapshot u uuid w₂.backend
    cases hr : (driver.snapshot u uuid w₂.backend).1 with
    | error e => trivial
    | ok x =>
        obtain ⟨id, old⟩ := x
        obtain ⟨v, hheld, hlive⟩ := h.snapshot u uuid w₂.backend id old hr
        refine ⟨(hw₂ ▸ hkeeps₁).trans hkeeps₂, v, driver.getNode_snapshot u uuid w₂.backend id old hr,
          hheld, fun hold => ?_, hparent⟩
        rw [hlive hold, hw₂, hkeeps₁.live]

/-- What the backend writes for the next snapshot leads from its parent's contents to its own. -/
theorem NextSnapshot.leadsTo {x : Option S × S × Bool} {v live : V} {b : β}
    (hnext : NextSnapshot driver contents record u live b x v) (h : Conveys driver contents)
    (hnamed : ∀ id v, (id, v) ∈ record → contents.named b id = some v)
    (hgenuine : contents.Genuine b) (hok : (payloadStream driver x.2.1 x.1 b).result = .ok ()) :
    LeadsTo contents record u x.2.1 v (payloadStream driver x.2.1 x.1 b).bytes := by
  have hheld := hnext.held
  unfold payloadStream at hok ⊢
  unfold LeadsTo
  rw [hnext.node] at hok ⊢
  -- the initial node's payload is a full one, the others' are differences
  by_cases hroot : u = Node.initialValue
  · rw [if_pos hroot] at hok
    rw [if_pos hroot, if_pos hroot]
    obtain ⟨hfull, hheld'⟩ := h.initial x.2.1 b hok
    exact ⟨hfull, Option.some.inj (hheld'.symm.trans hheld)⟩
  · obtain ⟨parent, before, hparent, hentry⟩ := hnext.parent hroot
    rw [if_neg hroot, hparent] at hok
    rw [if_neg hroot, if_neg hroot, hparent]
    obtain ⟨hdifference, v', hv', hdiff⟩ := h.diff parent x.2.1 b hok
    -- the parent's snapshot in the dataset is the one in the record
    have hbefore := (hgenuine parent v' hv').symm.trans
      (hnamed parent before (List.mem_of_getElem? hentry))
    cases hbefore
    rw [hdiff] at hheld
    exact ⟨parent, before, hentry, hdifference, Option.some.inj hheld⟩

/-- The next node has been committed, with the id `id` and the contents `v`. -/
structure HasNext (driver : BackendDriver β S) (contents : Contents β S V) (sodium : Sodium σ)
    (key : Option DecryptedKeyPair) (record : List (S × V)) (u : Node) (ls : List Event)
    (w : World β) (id : S) (v : V) : Prop where
  committed : committed ls = [u]
  named : contents.named w.backend id = some v
  stored : ∃ blob, w.disk.snapshots u = some ⟨some (driver.encoded id).serialise, some blob⟩ ∧
    LeadsTo contents record u id v (revealed sodium key blob)

variable {IsKeyPair : ByteArray' 32 → ByteArray' 32 → Prop} {InStep : σ → σ → Prop} {env : Env}
  {params : RepositoryParams}

/-- Storing the next snapshot. -/
theorem NextSnapshot.wp_storeSnapshot {x : Option S × S × Bool} {v live : V}
    (hnext : NextSnapshot driver contents record u live w.backend x v)
    (h : Conveys driver contents) (hsodium : sodium.Correct IsKeyPair InStep)
    (hfits : Fits IsKeyPair params.encryption key w.disk.keyPairs)
    (hnamed : ∀ id v, (id, v) ∈ record → contents.named w.backend id = some v)
    (hgenuine : contents.Genuine w.backend) (hlt : u.toNat < 2 ^ 63) (tr : List Event) :
    (storeSnapshot driver sodium env params x.2.1 x.1).wp
      (fun tr' w' => ∃ ls, tr' = tr ++ ls ∧ (Diffmonger.committed ls = [] ∨
        HasNext driver contents sodium key record u ls w' x.2.1 v))
      (onVal fun _ tr' w' => ∃ ls, tr' = tr ++ ls ∧
        HasNext driver contents sodium key record u ls w' x.2.1 v) tr w := by
  have hid : (driver.encoded x.2.1).node = u := by rw [driver.node_encoded, hnext.node]
  -- the files
  have hfiles : (storeSnapshot driver sodium env params x.2.1 x.1).wp
      (fun tr' w' => ∃ ls, tr' = tr ++ ls ∧ (Diffmonger.committed ls = [] ∨
        Diffmonger.committed ls = [u] ∧ ∃ blob,
          w'.disk.snapshots u = some ⟨some (driver.encoded x.2.1).serialise, some blob⟩ ∧
          LeadsTo contents record u x.2.1 v (revealed sodium key blob)))
      (onVal fun _ tr' w' => ∃ ls, tr' = tr ++ ls ∧ Diffmonger.committed ls = [u] ∧ ∃ blob,
          w'.disk.snapshots u = some ⟨some (driver.encoded x.2.1).serialise, some blob⟩ ∧
          LeadsTo contents record u x.2.1 v (revealed sodium key blob)) tr w := by
    refine Controller.wp_storeSnapshot driver
      (fun ls w' hw' => ⟨ls, rfl, .inl (committed_of_prepares hw'.prepares)⟩)
      (fun _ _ r _ hr => onVal_iff.mpr fun _ hval => absurd hval hr) ?_
    rintro ls w' hw' ⟨hok, hstored⟩ htemp -
    have hleads := hnext.leadsTo h hnamed hgenuine hok
    rw [← (revealed_of_storedAs hsodium hfits hstored).2] at hleads
    have hdir (disk : Disk) (hdisk : disk.snapshots = ((Event.rename u).apply w'.disk).snapshots) :
        disk.snapshots u = some ⟨some (driver.encoded x.2.1).serialise, some (payload (tr ++ ls))⟩ := by
      rw [hdisk]
      exact (Disk.setNode_self ..).trans htemp
    have hcommitted (ls' : List Event) : Diffmonger.committed
        (ls ++ commitLabels (driver.encoded x.2.1) ++ .rename u :: ls') =
          u :: Diffmonger.committed ls' := by
      rw [committed_append, committed_of_prepares hw'.prepares]
      rfl
    rw [wp_commitRename hid (by omega), wp_writeBreadcrumb]
    simp only [List.append_assoc, List.singleton_append]
    refine ⟨⟨_, rfl, .inr ⟨?_, _, hdir _ rfl, hleads⟩⟩, ⟨_, rfl, .inr ⟨?_, _, hdir _ rfl, hleads⟩⟩,
      ⟨_, rfl, .inr ⟨?_, _, hdir _ rfl, hleads⟩⟩, ⟨_, rfl, ?_, _, hdir _ rfl, hleads⟩⟩
    all_goals
      rw [← List.append_assoc]
      exact hcommitted _
  -- the snapshot keeps its name while the payload is stored
  have hhas {tr' : List Event} {w' : World β}
      (hframed : ∃ ls, tr' = tr ++ ls ∧ Framed contents w ls w') :
      contents.named w'.backend x.2.1 = some v := by
    obtain ⟨_, -, hw'⟩ := hframed
    exact hw'.keeps.named _ _ (hgenuine _ _ hnext.held)
  refine wp_mono ?_ ?_ _ (wp_and hfiles (wp_framed (conveying_storeSnapshot h env params _ _) tr w))
  · rintro tr' w' ⟨⟨ls, htr, hls | ⟨hls, hdir⟩⟩, hframed⟩
    · exact ⟨ls, htr, .inl hls⟩
    · exact ⟨ls, htr, .inr ⟨hls, hhas hframed, hdir⟩⟩
  · rintro r tr' w' ⟨hr, hframed⟩
    refine onVal_iff.mpr fun y hy => ?_
    obtain ⟨ls, htr, hls, hdir⟩ := onVal_iff.mp hr y hy
    exact ⟨ls, htr, hls, hhas hframed, hdir⟩

/-- Where nodes have been removed. -/
theorem Filed.removeNodes (h : Filed driver contents sodium key record w) (values : List UInt64) :
    Filed driver contents sodium key record (removeNodes w values) where
  files node dir hdir := by
    simp only [RepositoryStructure.removeNodes] at hdir
    split at hdir
    · cases hdir
    · exact h.files node dir hdir
  named := h.named
  genuine := h.genuine

/-- After steps labelled `ls`, the record `record` has grown to `record'`. -/
structure Grown (driver : BackendDriver β S) (contents : Contents β S V) (sodium : Sodium σ)
    (key : Option DecryptedKeyPair) (record : List (S × V)) (ls : List Event)
    (record' : List (S × V)) (w : World β) : Prop where
  extends' : record <+: record'
  commits : Commits record.length ls record'.length
  filed : Filed driver contents sodium key record' w

theorem Filed.grown (h : Filed driver contents sodium key record w) {ls : List Event} {w' : World β}
    (hw : Framed contents w ls w') (hls : Diffmonger.committed ls = []) :
    Grown driver contents sodium key record ls record w' :=
  ⟨List.prefix_rfl, by simp [Commits, hls], h.framed hw hls⟩

theorem Grown.trans {record' record'' : List (S × V)} {ls ls' : List Event} {w' : World β}
    (h : Grown driver contents sodium key record ls record' w)
    (h' : Grown driver contents sodium key record' ls' record'' w') :
    Grown driver contents sodium key record (ls ++ ls') record'' w' :=
  ⟨h.extends'.trans h'.extends', h.commits.trans h'.commits, h'.filed⟩

/-- The next node is not there yet, and the breadcrumb names it. -/
structure AwaitsNext (record : List (S × V)) (w : World β) : Prop where
  begin' : w.repositoryStructure.breadcrumb.untrustedBegin.toNat = record.length
  bound : record.length ≤ 2 ^ 63
  absent : w.disk.readId w.repositoryStructure.breadcrumb.untrustedBegin = .ok none

/-- One iteration of `snapshot`: the record grows by the node that is committed, and if the snapshot
is not already old, it contains what the dataset does. -/
theorem Filed.iteration (hfiled : Filed driver contents sodium key record w)
    (hnext : AwaitsNext record w) (h : Conveys driver contents)
    (hsodium : sodium.Correct IsKeyPair InStep)
    (hfits : Fits IsKeyPair params.encryption key w.disk.keyPairs) (tr : List Event) :
    (_snapshot driver sodium env params).wp
      (fun tr' w' => ∃ ls record', tr' = tr ++ ls ∧
        Grown driver contents sodium key record ls record' w')
      (onVal fun done tr' w' => ∃ ls id v, tr' = tr ++ ls ∧
        Grown driver contents sodium key record ls (record ++ [(id, v)]) w' ∧
        contents.live w'.backend = contents.live w.backend ∧
        (done = true → v = contents.live w.backend)) tr w := by
  -- what is committed, going through the phases; the other files are left to the frame below
  set u := w.repositoryStructure.breadcrumb.untrustedBegin with hu
  have hmain : (_snapshot driver sodium env params).wp
      (fun tr' w' => ∃ ls, tr' = tr ++ ls ∧ (Diffmonger.committed ls = [] ∨
        ∃ id v, HasNext driver contents sodium key record u ls w' id v))
      (onVal fun done tr' w' => ∃ ls id v, tr' = tr ++ ls ∧
        HasNext driver contents sodium key record u ls w' id v ∧
        (done = true → v = contents.live w.backend)) tr w := by
    refine wp_snapshotIteration_pruned hu.symm hnext.absent (hnext.begin'.trans_le hnext.bound)
      (fun ls w' hw' => ⟨ls, rfl, .inl (committed_of_prepares hw'.prepares)⟩)
      (fun _ _ r _ hr => onVal_iff.mpr fun b hb => absurd hb (hr b)) fun ls₁ hw₁ hlt => ?_
    have hfiled₁ := hfiled.removeNodes u.prune.nodes
    -- the nodes that die with `u` are gone, which leaves the files of the others what they were
    refine wp_of_prepares (D := ∅) (emits_nextSnapshot driver u) (hfiled₁.nextSnapshot_ends h u) ?_ ?_
    · intro ls w' hw'
      rw [List.append_assoc]
      exact ⟨_, rfl, .inl (committed_of_prepares (hw₁.append hw'.weaken).prepares)⟩
    intro ls₂ w₂ r hw₂ hr
    have hw₁₂ := hw₁.append hw₂.weaken
    cases r with
    | exn e => trivial
    | diverged => trivial
    | val x =>
        -- the backend has taken the snapshot, or found one of that name: its contents are `v`
        obtain ⟨hkeeps, v, hx⟩ := hr x rfl
        rw [bindPost, wp_bind_onVal, List.append_assoc]
        have hfits₂ : Fits IsKeyPair params.encryption key w₂.disk.keyPairs := by
          rwa [hw₁₂.world.keyPairs]
        refine wp_mono ?_ ?_ _ (hx.wp_storeSnapshot h hsodium hfits₂
          (fun id v hmem => hkeeps.named id v (hfiled.named id v hmem))
          (hkeeps.genuine hfiled.genuine) hlt (tr ++ (ls₁ ++ ls₂)))
        -- only `store_snapshot` commits, and what it commits is the node `u`
        · rintro _ w₃ ⟨ls₃, rfl, hw₃⟩
          rw [List.append_assoc]
          refine ⟨_, rfl, ?_⟩
          rw [committed_append, committed_of_prepares hw₁₂.prepares, List.nil_append]
          refine hw₃.imp_right fun hhas => ⟨_, v, ?_, hhas.named, hhas.stored⟩
          rw [committed_append, committed_of_prepares hw₁₂.prepares, hhas.committed]
          rfl
        · rintro r _ w₃ hr
          refine onVal_iff.mpr fun _ hval => ?_
          obtain ⟨ls₃, rfl, hhas⟩ := onVal_iff.mp hr _ hval
          rw [List.append_assoc]
          refine ⟨_, _, v, rfl, ⟨?_, hhas.named, hhas.stored⟩, fun hdone => hx.live ?_⟩
          · rw [committed_append, committed_of_prepares hw₁₂.prepares, hhas.committed]
            rfl
          · exact Bool.not_eq_true' _ ▸ hdone
  -- the new entry comes last, since the breadcrumb names the node after the last entry
  have hgrown {ls : List Event} {w' : World β} {id : S} {v : V} (hw' : Framed contents w ls w')
      (hhas : HasNext driver contents sodium key record u ls w' id v) :
      Grown driver contents sodium key record ls (record ++ [(id, v)]) w' := by
    obtain ⟨blob, hdir, hleads⟩ := hhas.stored
    refine ⟨List.prefix_append .., ?_,
      hfiled.committed hw' hhas.committed hnext.begin' hhas.named hdir hleads⟩
    rw [List.length_append]
    exact (Commits.nil record.length).rename hnext.begin' hhas.committed
  -- what the steps leave alone, whatever they are, is put together with what has been committed
  refine wp_mono ?_ ?_ _ (wp_and hmain (wp_framed (conveying_snapshotIteration h env params) tr w))
  · rintro _ w' ⟨⟨ls, rfl, hls⟩, ls', heq, hw'⟩
    obtain rfl := List.append_cancel_left heq
    rcases hls with hls | ⟨id, v, hhas⟩
    · exact ⟨ls, record, rfl, hfiled.grown hw' hls⟩
    · exact ⟨ls, record ++ [(id, v)], rfl, hgrown hw' hhas⟩
  · rintro r _ w' ⟨hr, ls', rfl, hw'⟩
    refine onVal_iff.mpr fun done hdone => ?_
    obtain ⟨ls, id, v, heq, hhas, hlive⟩ := onVal_iff.mp hr done hdone
    obtain rfl := List.append_cancel_left heq
    exact ⟨ls', id, v, rfl, hgrown hw' hhas, hw'.keeps.live, hlive⟩

/-!
## Commands

A command is any number of iterations. The record that it leaves is longer by the nodes that it has
committed, which is told from the labels of its steps (`Commits`), also if it is killed.
-/

theorem Commits.unique {c₀ c c' : ℕ} {tr : List Event} (h : Commits c₀ tr c) (h' : Commits c₀ tr c') :
    c = c' := by
  have heq := congrArg List.length (h.symm.trans h')
  rwa [List.length_range, List.length_range] at heq

/-- The rule for `snapshot`: `J` holds before every iteration, and `K` after the last one. -/
theorem wp_snapshot_last {I J K : List Event → World β → Prop}
    (hiter : ∀ tr w, J tr w → (_snapshot driver sodium env params).wp I
      (onVal fun done tr w => if done then K tr w else J tr w) tr w) {tr : List Event}
    {w : World β} (h : J tr w) :
    (snapshot driver sodium env params).wp I (onVal fun _ => K) tr w := by
  unfold snapshot
  generalize env.fuel = fuel
  induction fuel generalizing tr w with
  | zero => trivial
  | succ fuel ih =>
      rw [snapshotLoop]
      refine wp_bind_of_onVal (hiter tr w h) fun done tr w hdone => ?_
      cases done with
      | true => exact hdone
      | false => exact ih hdone

theorem conveying_snapshotCommand (h : Conveys driver contents) (repository : String) :
    (snapshotCommand driver repository sodium env params).Emits (Conveying contents) := by
  refine emits_bind (onDirectory_conveying.emits_openRepository repository) fun _ => ?_
  unfold snapshot
  generalize env.fuel = fuel
  induction fuel with
  | zero => trivial
  | succ fuel ih =>
      refine emits_bind (conveying_snapshotIteration h env params) fun done => ?_
      cases done
      · exact ih
      · trivial

/-- A command of a new process, in a repository that can be used. -/
theorem Filed.wp_snapshot (h : Conveys driver contents) (hsodium : sodium.Correct IsKeyPair InStep)
    {keyPairs : Except Exn (List KeyPair)} (hfits : Fits IsKeyPair params.encryption key keyPairs)
    {A₀ : Encoded → NodeDir → Prop} {tr : List Event}
    (husable : Usable driver sodium env params keyPairs A₀ record.length tr w)
    {record' : List (S × V)} (hgrown : Grown driver contents sodium key record tr record' w) :
    (snapshot driver sodium env params).wp
      (fun tr w' => ∃ record', Grown driver contents sodium key record tr record' w')
      (onVal fun _ tr w' => ∃ record' id, Grown driver contents sodium key record tr record' w' ∧
        record'.getLast? = some (id, contents.live w.backend)) tr w := by
  -- between two iterations the repository can be used, and the live dataset is as it was at the
  -- start
  refine wp_snapshot_last (J := fun tr w' =>
    Usable driver sodium env params keyPairs A₀ record.length tr w' ∧
      contents.live w'.backend = contents.live w.backend ∧
      ∃ record', Grown driver contents sodium key record tr record' w') ?_
    ⟨husable, rfl, record', hgrown⟩
  rintro tr₁ w₁ ⟨husable₁, hlive₁, record₁, hgrown₁⟩
  have ⟨c, hc, hdurable, ⟨b, hread, hb⟩, hopen, hkeys⟩ := husable₁
  obtain rfl := hc.unique hgrown₁.commits
  obtain rfl : b = w₁.repositoryStructure.breadcrumb := Except.ok.inj (hread.symm.trans hopen)
  have hawaits : AwaitsNext record₁ w₁ := by
    refine ⟨hb, hdurable.bound, Disk.readId_of_absent ?_⟩
    have hnot := hdurable.kept.notMem hb.ge
    rwa [Disk.toNat_mem_nodes, Option.not_isSome_iff_eq_none] at hnot
  -- the nodes that are left and their contents are followed side by side
  refine wp_mono ?_ ?_ _ (wp_and (Usable.iteration husable₁)
    (hgrown₁.filed.iteration hawaits h hsodium (by rwa [hkeys]) tr₁))
  · rintro _ w₂ ⟨-, ls, record₂, rfl, hgrown₂⟩
    exact ⟨record₂, hgrown₁.trans hgrown₂⟩
  · rintro r tr₂ w₂ ⟨husable₂, hr⟩
    refine onVal_iff.mpr fun done hdone => ?_
    obtain ⟨ls, id, v, rfl, hgrown₂, hlive₂, hv⟩ := onVal_iff.mp hr done hdone
    cases done with
    -- the snapshot was not an old one, so this iteration is the last
    | true =>
        refine ⟨_, id, hgrown₁.trans hgrown₂, ?_⟩
        rw [List.getLast?_concat, hv rfl, hlive₁]
    | false => exact ⟨husable₂ _ hdone, hlive₂.trans hlive₁, _, hgrown₁.trans hgrown₂⟩

/-- A command of a new process. -/
theorem Filed.wp_snapshotCommand (hfiled : Filed driver contents sodium key record w)
    (h : Conveys driver contents) (hsodium : sodium.Correct IsKeyPair InStep)
    (hfits : Fits IsKeyPair params.encryption key w.disk.keyPairs) {A₀ : Encoded → NodeDir → Prop}
    (hdurable : Durable A₀ record.length w.disk) (repository : String) :
    (snapshotCommand driver repository sodium env params).wp
      (fun tr w' => ∃ record', Grown driver contents sodium key record tr record' w')
      (onVal fun _ tr w' => ∃ record' id, Grown driver contents sodium key record tr record' w' ∧
        record'.getLast? = some (id, contents.live w.backend)) [] w := by
  have hlooks {ls : List Event} {w' : World β} (hls : ∀ l ∈ ls, l = .look)
      (hw' : Framed contents w ls w') : Grown driver contents sodium key record ls record w' :=
    hfiled.grown hw' (committed_of_prepares (D := ∅) fun l hl => hls l hl ▸ trivial)
  rcases hdurable.breadcrumb with hal | ⟨b, encoded, hread, hid⟩ | ⟨e, hread⟩
  · -- the repository is as it should be
    have ⟨b, hread, _⟩ := hal
    have hopen : (openRepository repository : Repo β Unit).wp (fun tr _ => ∀ l ∈ tr, l = .look)
        (fun _ tr w' => (∀ l ∈ tr, l = .look) ∧ w'.disk = w.disk ∧
          w'.repositoryStructure.breadcrumb = b) [] w :=
      wp_openRepository_readable (hdurable.initargs repository) hread (fun _ _ hls _ _ _ => hls)
        fun _ _ hls _ hdisk hb => ⟨hls, hdisk, hb⟩
    have hframed : (openRepository repository : Repo β Unit).wp (Framed contents w)
        (fun _ => Framed contents w) [] w :=
      wp_framed_nil (onDirectory_conveying.emits_openRepository repository) w
    rw [Controller.snapshotCommand, wp_bind_onVal]
    refine wp_mono ?_ ?_ _ (wp_and hopen hframed)
    · rintro tr w' ⟨hls, hw'⟩
      exact ⟨record, hlooks hls hw'⟩
    · rintro r tr w' ⟨⟨hls, hdisk, hb⟩, hw'⟩
      refine onVal_iff.mpr fun _ _ => ?_
      -- opening it has changed nothing, and has made the breadcrumb known
      have husable : Usable driver sodium env params w.disk.keyPairs A₀ record.length tr w' := by
        refine ⟨record.length, (hlooks hls hw').commits, ?_, hdisk ▸ hal, ?_, by rw [hdisk]⟩
        · rw [hdisk]
          exact hdurable.mono fun _ _ => .inl
        · rw [Opened, hdisk, hb]
          exact hread
      rw [← hw'.keeps.live]
      exact Filed.wp_snapshot h hsodium hfits husable (hlooks hls hw')
  · -- an earlier command was killed after the rename
    refine wp_mono ?_ ?_ _ (wp_and (snapshotCommand_stuck (hdurable.initargs repository) hread hid)
      (wp_framed_nil (conveying_snapshotCommand h repository) w))
    · rintro tr w' ⟨⟨-, hls⟩, hw'⟩
      exact ⟨record, hlooks hls hw'⟩
    · rintro r tr w' ⟨⟨rfl, -⟩, -⟩
      trivial
  · -- an earlier command was killed while it wrote the breadcrumb
    rw [Controller.snapshotCommand, wp_bind_onVal]
    refine wp_openRepository repository
      (fun ls hls _ => ⟨record, hlooks hls ⟨.refl _, fun _ dir _ hdir => ⟨dir, hdir, .refl _⟩⟩⟩)
      (fun _ _ _ _ _ => trivial) fun ls args b _ _ _ hread' => ?_
    rw [hread] at hread'
    cases hread'

end

/-!
## Histories

By induction on the history: a command that has been killed leaves `Stored` as one that has
completed does, so it does not matter to the next one which it was.
-/

section
variable {driver : BackendDriver β S} {contents : Contents β S V} {sodium : Sodium σ}
  {IsKeyPair : ByteArray' 32 → ByteArray' 32 → Prop} {InStep : σ → σ → Prop} {encryption : Bool}
  {key : Option DecryptedKeyPair}

/-- A new process finds the directory as it was left, but for the key slots: with the key, what is
stored can be read. No id has been given to another snapshot in the meantime. -/
structure Meanwhile (contents : Contents β S V) (IsKeyPair : ByteArray' 32 → ByteArray' 32 → Prop)
    (encryption : Bool) (key : Option DecryptedKeyPair) (w w' : World β) : Prop where
  disk : SameButKeys w w'
  fits : Fits IsKeyPair encryption key w'.disk.keyPairs
  persists : contents.Persists w.backend w'.backend

theorem Filed.meanwhile {record : List (S × V)} {w w' : World β}
    (h : Filed driver contents sodium key record w)
    (hw : Meanwhile contents IsKeyPair encryption key w w') :
    Filed driver contents sodium key record w' where
  files node dir hdir := by
    obtain ⟨keys, hdisk⟩ := hw.disk
    rw [hdisk] at hdir
    exact h.files node dir hdir
  named id v hmem := hw.persists.named id v (h.named id v hmem)
  genuine := hw.persists.genuine h.genuine

theorem Durable.sameButKeys {A : Encoded → NodeDir → Prop} {c : ℕ} {w w' : World β}
    (h : Durable A c w.disk) (hw : SameButKeys w w') : Durable A c w'.disk := by
  obtain ⟨keys, hdisk⟩ := hw
  rw [hdisk]
  exact ⟨h.bound, h.kept, h.initargs, h.breadcrumb, h.authored⟩

/-- The directory holds an id, and a payload that the key decrypts. -/
def Complete (driver : BackendDriver β S) (sodium : Sodium σ) (key : Option DecryptedKeyPair)
    (encoded : Encoded) (dir : NodeDir) : Prop :=
  ∃ id blob, encoded = driver.encoded id ∧ dir = ⟨some encoded.serialise, some blob⟩ ∧
    Decrypts sodium key blob

/-- What has been written is complete. -/
theorem Written.complete (hsodium : sodium.Correct IsKeyPair InStep) {env : Env}
    {params : RepositoryParams} {keyPairs : Except Exn (List KeyPair)}
    (hfits : Fits IsKeyPair params.encryption key keyPairs) {events : List Event} {encoded : Encoded}
    {dir : NodeDir} (h : Written driver sodium env params keyPairs events encoded dir) :
    Complete driver sodium key encoded dir := by
  obtain ⟨before, after, -, hdir, id, maybeParent, b, hid, -, hstored⟩ := h
  exact ⟨id, _, hid.symm, hdir, (revealed_of_storedAs hsodium hfits hstored).1⟩

/-- Between two commands, or when one has been killed. -/
structure Stored (driver : BackendDriver β S) (contents : Contents β S V) (sodium : Sodium σ)
    (key : Option DecryptedKeyPair) (record : List (S × V)) (w : World β) : Prop where
  durable : Durable (Complete driver sodium key) record.length w.disk
  filed : Filed driver contents sodium key record w

/-- Nothing has been stored in a new repository. -/
theorem stored_of_created {w : World β} (h : Created w.disk) (hgenuine : contents.Genuine w.backend) :
    Stored driver contents sodium key [] w := by
  obtain ⟨formatUuid, initargs, uuid, created, keys, hcreated, hdisk⟩ := h
  obtain ⟨hargs, hread, hnodes⟩ := createRepository_spec hcreated
  have hnone (node : Node) (dir : NodeDir) (hdir : w.disk.snapshots node = some dir) : False := by
    rw [hdisk] at hdir
    have hmem : node.toNat ∈ created.nodes := Disk.toNat_mem_nodes.mpr (Option.isSome_of_eq_some hdir)
    rw [hnodes] at hmem
    exact hmem
  refine ⟨⟨Nat.zero_le _, ?_, ?_, .inl ⟨.initial, ?_, rfl⟩, fun node dir _ hdir => (hnone node dir hdir).elim⟩,
    fun node dir hdir => (hnone node dir hdir).elim, nofun, hgenuine⟩
  · rw [hdisk]
    exact hnodes
  · intro repository
    rw [hdisk]
    exact ⟨_, hargs repository⟩
  · rw [hdisk]
    exact hread

/-- A command of a new process, at every moment and if it runs to the end. -/
theorem Stored.attempt {record : List (S × V)} (h : Conveys driver contents)
    (hsodium : sodium.Correct IsKeyPair InStep) {w : World β}
    (hstored : Stored driver contents sodium key record w) {a : Attempt Event (World β) Exn Unit}
    (hstart : Meanwhile contents IsKeyPair encryption key w a.start)
    (hprogram : a.program ∈ snapshotCommandsOf driver sodium encryption) :
    ∃ record', record <+: record' ∧ Commits record.length a.labels record'.length ∧
      Stored driver contents sodium key record' a.state ∧
      (a.Completed → ∃ id, record'.getLast? = some (id, contents.live a.start.backend)) := by
  obtain ⟨repository, env, params, henc, hprogram⟩ := hprogram
  have hfits := hstart.fits
  rw [← henc] at hfits
  have hdurable := hstored.durable.sameButKeys hstart.disk
  have hfiled := hstored.filed.meanwhile hstart
  -- the contents, and the nodes that are left, at every step
  have hgrows : a.program.wp
      (fun tr w' => ∃ record', Grown driver contents sodium key record tr record' w')
      (onVal fun _ tr w' => ∃ record' id, Grown driver contents sodium key record tr record' w' ∧
        record'.getLast? = some (id, contents.live a.start.backend)) [] a.start := by
    rw [hprogram]
    exact hfiled.wp_snapshotCommand h hsodium hfits hdurable repository
  have hlasts : a.program.wp (fun tr w' => ∃ c', Commits record.length tr c' ∧
      Durable (Author driver sodium env params a.start.disk.keyPairs
        (Complete driver sodium key) tr) c' w'.disk)
      (fun _ _ _ => True) [] a.start := by
    rw [hprogram]
    exact hdurable.snapshotCommand repository
  obtain ⟨c, hcommits, hdurable'⟩ :=
    a.invariant hlasts ⟨_, .nil _, hdurable.mono fun _ _ => .inl⟩
  have hstored' {record' : List (S × V)}
      (hgrown : Grown driver contents sodium key record a.labels record' a.state) :
      Stored driver contents sodium key record' a.state := by
    -- the two invariants agree on how many nodes have been committed
    obtain rfl := Commits.unique hcommits hgrown.commits
    refine ⟨hdurable'.mono fun encoded dir hauthor => ?_, hgrown.filed⟩
    exact hauthor.elim id fun hwritten => hwritten.complete hsodium hfits
  by_cases hcompleted : a.Completed
  · obtain ⟨_, record', id, hgrown, hlast⟩ := hcompleted.post hgrows
    exact ⟨record', hgrown.extends', hgrown.commits, hstored' hgrown, fun _ => ⟨id, hlast⟩⟩
  · obtain ⟨record', hgrown⟩ :=
      a.invariant hgrows ⟨record, hfiled.grown (.refl a.start) rfl⟩
    exact ⟨record', hgrown.extends', hgrown.commits, hstored' hgrown,
      fun h => absurd h hcompleted⟩

/-- However often commands are killed, the record only grows. -/
theorem Stored.history {record : List (S × V)} (h : Conveys driver contents)
    (hsodium : sodium.Correct IsKeyPair InStep) {w₀ w : World β}
    (hstored : Stored driver contents sodium key record w₀)
    {as : List (Attempt Event (World β) Exn Unit)}
    (hist : History (snapshotCommandsOf driver sodium encryption)
      (Meanwhile contents IsKeyPair encryption key) (fun _ => True) w₀ as w) :
    ∃ record', record <+: record' ∧
      Commits record.length (Attempt.allLabels as) record'.length ∧
      Stored driver contents sodium key record' w := by
  refine History.invariant (fun as w => ∃ record', record <+: record' ∧
    Commits record.length (Attempt.allLabels as) record'.length ∧
    Stored driver contents sodium key record' w) ⟨record, List.prefix_rfl, .nil _, hstored⟩ ?_ hist
  rintro as w a ⟨record', hgrows, hcommits, hstored'⟩ hstart hprogram -
  obtain ⟨record'', hgrows', hcommits', hstored'', -⟩ :=
    hstored'.attempt h hsodium hstart hprogram
  rw [Attempt.allLabels_append_singleton]
  exact ⟨record'', hgrows.trans hgrows', hcommits.trans hcommits', hstored''⟩

end

end Controller

end Diffmonger
