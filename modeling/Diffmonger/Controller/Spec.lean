import Diffmonger.Controller
import Diffmonger.RepositoryStructure.Spec

/-!
# What the commands do

The commands are taken apart into phases, each with one rule that the invariants of the later
modules are proved with, so that none of them has to look at the steps of a command again.

Everything before the rename only prepares the next node (`Event.Prepares`): the pruning phase
deletes nodes that die with it (`wp_prune`), and the phase that stores the payload leaves the nodes
alone (`emits_storePayload`). So a rule has three premises. `hI` asks for the invariant after every
prefix of such steps, which is where the process may be killed; `hend` for the case that an
exception ends the phase; and the last one for what follows when it is done, in the world that it
leaves.

What a phase computes and what its steps may do are proved separately and put together by `wp_and`:
the first by going through the program, the second from the kinds of the steps alone (`Emits`).
The only fact that needs both is that the blob in the temporary directory is what has been written
(`wp_storePayload`), since the blob is looked at in the directory and what has been written in the
trace.
-/

namespace Diffmonger.Controller

open Prog RepositoryStructure

variable {β S σ : Type} {D : Set ℕ}

/-! ## Calls of the backend -/

@[simp] theorem emits_callBackend {ρ : Type} {E : Event → Prop} (call : BackendCall)
    (method : β → ρ × β) : (callBackend call method).Emits (Kind E) ↔ E (.backend call) := by
  simp [callBackend, Kind, Event.apply]

section
variable (driver : BackendDriver β S)

section
variable {E : Event → Prop}

theorem emits_decodeSnapshotId (encoded : Encoded) (hcall : E (.backend (.snapshotId encoded))) :
    (decodeSnapshotId driver encoded).Emits (Kind E) :=
  emits_bind ((emits_callBackend ..).mpr hcall) fun _ => by simp

theorem emits_existsSnapshot (id : S) (hcall : E (.backend (.existsSnapshot (driver.encoded id)))) :
    (existsSnapshot driver id).Emits (Kind E) :=
  emits_bind ((emits_callBackend ..).mpr hcall) fun _ => by simp

theorem emits_nodeToSnapshotId (node : Node) (hlook : E .look)
    (hcall : ∀ encoded, E (.backend (.snapshotId encoded))) :
    (nodeToSnapshotId driver node).Emits (Kind E) :=
  emits_bind (emits_getEncodedSnapshotId (kind_look hlook) node) fun encoded =>
    emits_decodeSnapshotId driver encoded (hcall encoded)

end

theorem emits_removeSnapshot (id : S) :
    (removeSnapshot driver id).Emits (Kind (Event.Prepares D)) :=
  emits_bind ((emits_callBackend ..).mpr trivial) fun _ => by simp

theorem emits_takeSnapshot (node : Node) (uuid : Uuid) :
    (takeSnapshot driver node uuid).Emits (Kind (Event.Prepares D)) :=
  emits_bind ((emits_callBackend ..).mpr trivial) fun _ => by simp

theorem emits_parentSnapshot (node : Node) :
    (parentSnapshot driver node).Emits (Kind (Event.Prepares D)) := by
  unfold parentSnapshot
  split
  · simp
  · refine emits_bind (emits_nodeToSnapshotId driver _ trivial fun _ => trivial) fun id =>
      emits_bind (emits_existsSnapshot driver id trivial) fun found => ?_
    split <;> simp

theorem emits_importedSnapshot (createSnapshot : Bool) (encoded : Encoded) {D : Set ℕ} :
    (importedSnapshot driver createSnapshot encoded).Emits (Kind (Event.Prepares D)) := by
  unfold importedSnapshot
  split
  · exact emits_bind (emits_getRepositoryUuid (kind_look trivial)) fun uuid =>
      emits_bind (emits_takeSnapshot driver _ uuid) fun _ => by simp
  · exact emits_decodeSnapshotId driver encoded trivial

theorem emits_importedParent (node : Node) {D : Set ℕ} :
    (importedParent driver node).Emits (Kind (Event.Prepares D)) := by
  unfold importedParent
  split
  · trivial
  · exact emits_bind (emits_nodeToSnapshotId driver _ trivial fun _ => trivial) fun _ => trivial

/-- A snapshot id comes from the id file of its node. -/
theorem nodeToSnapshotId_ends (node : Node) (w : World β) :
    (nodeToSnapshotId driver node).Ends (fun r w' => w' = w ∧ ∀ id, r = .val id ↔
      ∃ encoded, w.disk.readId node = .ok (some encoded) ∧ driver.snapshotId encoded = .ok id) w := by
  intro tr
  simp only [nodeToSnapshotId, wp_bind, wp_getEncodedSnapshotId, true_and]
  cases hread : w.disk.readId node with
  | error e => exact ⟨rfl, by simp⟩
  | ok encoded? =>
      cases encoded? with
      | none => exact ⟨rfl, by simp⟩
      | some encoded =>
          simp only [bindPost, decodeSnapshotId, callBackend, wp_bind, wp_readModify, wp_ofExcept,
            true_and, Result.ofExcept_eq_val]
          simp

/-! ## Storing the payload

The bytes of the blob are read off the trace (`payload`). The child that encrypts is run on all that
the backend writes, so what it writes is `encryptToFd` of that. -/

theorem emits_writeBlob (chunks : List Bytes) :
    (writeBlob chunks : Repo β Unit).Emits (Kind (Event.Prepares D)) :=
  emits_forM (fun _ => (emits_perform _).mpr trivial) _

theorem emits_storeSnapshotOrDiff (id : S) (maybeParent : Option S) :
    (storeSnapshotOrDiff driver id maybeParent).Emits (Kind (Event.Prepares D)) := by
  unfold storeSnapshotOrDiff
  split
  · exact (emits_callBackend ..).mpr trivial
  · split
    · trivial
    · exact (emits_callBackend ..).mpr trivial

theorem emits_storePayload (sodium : Sodium σ) (env : Env) (params : RepositoryParams) (id : S)
    (maybeParent : Option S) :
    (storePayload driver sodium env params id maybeParent).Emits (Kind (Event.Prepares D)) := by
  refine emits_bind emits_checkOutTemporarySnapshot fun _ =>
    emits_bind (emits_storeSnapshotOrDiff driver id maybeParent) fun stream => ?_
  split
  · refine emits_bind (emits_handle (emits_bind (emits_readKeyPairs (kind_look trivial))
      fun _ => by simp) fun _ => by simp) fun encrypted => emits_bind (emits_writeBlob _) fun _ =>
      emits_bind (by simp) fun _ => ?_
    split <;> simp
  · exact emits_bind (emits_writeBlob _) fun _ => by simp

/-- A step that at most appends to the blob. -/
def Fills : Event → Prop
  | .look | .backend _ | .writeBlob _ => True
  | _ => False

/-- What is written goes to the blob of the temporary directory. -/
theorem emits_fillPayload {sodium : Sodium σ} {env : Env} {params : RepositoryParams} {id : S}
    {maybeParent : Option S} :
    (storeSnapshotOrDiff driver id maybeParent >>= fun stream =>
      if params.encryption then storeEncrypted sodium env (driver.getNode id) stream
      else storePlain stream).Emits (Kind Fills) := by
  have hwrite (chunks : List Bytes) : (writeBlob chunks : Repo β Unit).Emits (Kind Fills) :=
    emits_forM (fun _ => (emits_perform _).mpr trivial) _
  refine emits_bind ?_ fun stream => ?_
  · unfold storeSnapshotOrDiff
    split
    · exact (emits_callBackend ..).mpr trivial
    · split
      · trivial
      · exact (emits_callBackend ..).mpr trivial
  · split
    · refine emits_bind (emits_handle (emits_bind (emits_readKeyPairs (kind_look trivial))
        fun _ => by simp) fun _ => by simp) fun encrypted => emits_bind (hwrite _) fun _ =>
        emits_bind (by simp) fun _ => ?_
      split <;> simp
    · exact emits_bind (hwrite _) fun _ => by simp

/-- What the backend writes for a snapshot when the dataset is in the state `b`. -/
def payloadStream (id : S) (maybeParent : Option S) (b : β) : Stream :=
  if driver.getNode id = Node.initialValue then (driver.initial id b).1
  else
    match maybeParent with
    | none => ⟨[], .error (.logicError "Bug: store_snapshot() not given parent when needed")⟩
    | some parent => (driver.diff parent id b).1

/-- The blob that holds the given plaintext. -/
def StoredAs (sodium : Sodium σ) (env : Env) (params : RepositoryParams)
    (keyPairs : Except Exn (List KeyPair)) (node : Node) (plaintext bytes : Bytes) : Prop :=
  if params.encryption then
    ∃ kps, keyPairs = .ok kps ∧
      (EncryptionUtil.encryptToFd sodium (env.random node) kps plaintext).result = .ok () ∧
      bytes = (EncryptionUtil.encryptToFd sodium (env.random node) kps plaintext).bytes
  else bytes = plaintext

/-- The blob holds everything that the backend wrote for the snapshot with the given id. -/
def WholePayload (sodium : Sodium σ) (env : Env) (params : RepositoryParams)
    (keyPairs : Except Exn (List KeyPair)) (encoded : Encoded) (bytes : Bytes) : Prop :=
  ∃ id maybeParent b, driver.encoded id = encoded ∧
    (payloadStream driver id maybeParent b).result = .ok () ∧
    StoredAs sodium env params keyPairs encoded.node (payloadStream driver id maybeParent b).bytes
      bytes

/-- The blob holds everything that the backend writes for the snapshot when the dataset is in the
state `b`. -/
def PayloadOf (sodium : Sodium σ) (env : Env) (params : RepositoryParams)
    (keyPairs : Except Exn (List KeyPair)) (id : S) (maybeParent : Option S) (b : β)
    (bytes : Bytes) : Prop :=
  (payloadStream driver id maybeParent b).result = .ok () ∧
    StoredAs sodium env params keyPairs (driver.getNode id)
      (payloadStream driver id maybeParent b).bytes bytes

theorem PayloadOf.whole {driver : BackendDriver β S} {sodium : Sodium σ} {env : Env}
    {params : RepositoryParams} {keyPairs : Except Exn (List KeyPair)} {id : S}
    {maybeParent : Option S} {b : β} {bytes : Bytes}
    (h : PayloadOf driver sodium env params keyPairs id maybeParent b bytes) :
    WholePayload driver sodium env params keyPairs (driver.encoded id) bytes :=
  ⟨id, maybeParent, b, rfl, h.1, by rw [driver.node_encoded]; exact h.2⟩

theorem wp_writeBlob (chunks : List Bytes) (tr : List Event) (w : World β) :
    (writeBlob chunks : Repo β Unit).wp (fun _ _ => True)
      (fun r tr' w' => r = .val () ∧ payload tr' = payload tr ++ chunks.flatten ∧
        w'.disk.keys = w.disk.keys) tr w := by
  refine wp_forM (fun treated tr' w' => payload tr' = payload tr ++ treated.flatten ∧
    w'.disk.keys = w.disk.keys) chunks ?_ (fun _ _ h => ⟨rfl, h⟩) (by simp)
  rintro treated chunk rest - tr' w' ⟨htr, hkeys⟩
  simp [payload_append_singleton, htr, hkeys, World.apply, Event.apply, Disk.setTemporary]

theorem encryptInChild_ends (sodium : Sodium σ) (env : Env) (node : Node) (plaintext : Bytes)
    (w : World β) :
    (encryptInChild sodium env node plaintext : Repo β Stream).Ends (fun r w' => w' = w ∧
      r = .val (match w.disk.keyPairs with
        | .ok kps => EncryptionUtil.encryptToFd sodium (env.random node) kps plaintext
        | .error e => Stream.fail e)) w := by
  intro tr
  simp only [encryptInChild, wp_handle, wp_bind]
  refine wp_post ?_ (readKeyPairs_ends w tr)
  rintro r tr' w' ⟨rfl, rfl⟩
  cases w'.disk.keyPairs <;> exact ⟨rfl, rfl⟩

/-- What has been written to the blob by the time the payload is stored. -/
theorem wp_fillPayload {sodium : Sodium σ} {env : Env} {params : RepositoryParams} {id : S}
    {maybeParent : Option S} {tr : List Event} (htr : payload tr = []) (w : World β) :
    (storeSnapshotOrDiff driver id maybeParent >>= fun stream =>
      if params.encryption then storeEncrypted sodium env (driver.getNode id) stream
      else storePlain stream).wp (fun _ _ => True)
      (fun r tr' _ => r = .val () → PayloadOf driver sodium env params w.disk.keyPairs id maybeParent
        w.backend (payload tr')) tr w := by
  -- the backend writes
  have hstream : (storeSnapshotOrDiff driver id maybeParent).wp (fun _ _ => True)
      (fun r tr' w' => payload tr' = [] ∧ w'.disk = w.disk ∧ ∀ stream, r = .val stream →
        stream = payloadStream driver id maybeParent w.backend) tr w := by
    have hcall (call : BackendCall) : payload (tr ++ [.backend call]) = [] := by
      rw [payload_append_singleton]
      exact htr
    -- the three cases are the initial node, the missing parent and the difference to the parent
    unfold storeSnapshotOrDiff payloadStream
    split
    · exact ⟨trivial, hcall _, rfl, fun stream h => by cases h; rfl⟩
    · split
      · exact ⟨htr, rfl, fun stream h => by cases h⟩
      · exact ⟨trivial, hcall _, rfl, fun stream h => by cases h; rfl⟩
  rw [wp_bind]
  refine wp_post ?_ hstream
  rintro r tr₁ w₁ ⟨htr₁, hw₁, hr⟩
  cases r with
  -- only a stream leads to a payload that is stored
  | exn e => exact fun h => by cases h
  | diverged => exact fun h => by cases h
  | val stream =>
      obtain rfl := hr stream rfl
      set stream := payloadStream driver id maybeParent w.backend with hstream
      simp only [bindPost]
      split
      · next henc =>
          -- what the child writes, once it has read the key pairs
          have hchild := (encryptInChild_ends sodium env (driver.getNode id) stream.bytes
            w₁).wp_of_emits (C := Kind (· = .look)) (R := fun tr' _ => payload tr' = [])
            (emits_handle (emits_bind (emits_readKeyPairs (kind_look rfl)) fun _ => by simp)
              fun _ => by simp)
            (by rintro l u tr' w' ⟨rfl, -⟩ h; rw [payload_append_singleton]; exact h)
            htr₁
          rw [storeEncrypted, wp_bind]
          refine wp_mono (fun _ _ _ => trivial) ?_ _ hchild
          rintro r tr₂ w₂ ⟨htr₂, rfl, rfl⟩
          -- all that the child has written is in the blob
          simp only [bindPost, wp_bind]
          refine wp_post ?_ (wp_writeBlob _ tr₂ w₂)
          rintro r tr₃ w₃ ⟨rfl, htr₃, -⟩
          simp only [bindPost]
          -- the backend's failure is thrown first, then that of the child: neither returns
          cases hok : stream.result with
          | error e => exact fun h => by cases h
          | ok _ =>
              rw [hw₁] at htr₃ ⊢
              cases hkeys : w.disk.keyPairs with
              | error e => exact fun h => by cases h
              | ok kps =>
                  simp only [hkeys] at htr₃ ⊢
                  split
                  · next hdone =>
                      intro _
                      refine ⟨hok, ?_⟩
                      rw [StoredAs, if_pos henc]
                      exact ⟨kps, rfl, hdone, by rw [htr₃, htr₂]; rfl⟩
                  · exact fun h => by cases h
      · next henc =>
          -- without encryption, the backend writes to the blob itself
          rw [storePlain, wp_bind]
          refine wp_post ?_ (wp_writeBlob _ tr₁ w₁)
          rintro r tr₂ w₂ ⟨rfl, htr₂, -⟩
          simp only [bindPost]
          cases hok : stream.result with
          | error e => exact fun h => by cases h
          | ok _ =>
              intro _
              refine ⟨hok, ?_⟩
              rw [StoredAs, if_neg henc, htr₂, htr₁]
              rfl

/-- Once the payload is stored, the temporary directory holds a blob, namely what has been written
to it, which is the whole payload, and no id. -/
theorem wp_storePayload {sodium : Sodium σ} {env : Env} {params : RepositoryParams} {id : S}
    {maybeParent : Option S} {I : List Event → World β → Prop}
    {Q : Result Exn Unit → List Event → World β → Prop} {tr : List Event} {w : World β}
    (hI : ∀ ls w', World.PreparedBy ∅ w ls w' → I (tr ++ ls) w')
    (hend : ∀ ls w' r, World.PreparedBy ∅ w ls w' →
      (r = .val () → w'.disk.temporarySnapshot = some ⟨none, some (payload (tr ++ ls))⟩ ∧
        PayloadOf driver sodium env params w.disk.keyPairs id maybeParent w.backend
          (payload (tr ++ ls))) →
      Q r (tr ++ ls) w') :
    (storePayload driver sodium env params id maybeParent).wp I Q tr w := by
  -- what the steps may change, and what the temporary directory holds at the end
  have hframe : (storePayload driver sodium env params id maybeParent).wp
      (fun tr' w' => ∃ ls, tr' = tr ++ ls ∧ World.PreparedBy ∅ w ls w')
      (fun _ tr' w' => ∃ ls, tr' = tr ++ ls ∧ World.PreparedBy ∅ w ls w') tr w :=
    wp_of_prepares (emits_storePayload driver sodium env params id maybeParent) ends_trivial
      (fun ls w' hw' => ⟨ls, rfl, hw'⟩) fun ls w' _ hw' _ => ⟨ls, rfl, hw'⟩
  have htemp : (storePayload driver sodium env params id maybeParent).wp (fun _ _ => True)
      (fun r tr' w' => r = .val () →
        w'.disk.temporarySnapshot = some ⟨none, some (payload tr')⟩ ∧
          PayloadOf driver sodium env params w.disk.keyPairs id maybeParent w.backend (payload tr'))
      tr w := by
    rw [storePayload, wp_bind]
    refine wp_post ?_ (wp_checkOutTemporarySnapshot tr w)
    intro r tr' w' h
    cases r with
    | exn e => exact fun he => by cases he
    | diverged => exact fun he => by cases he
    | val _ =>
        obtain ⟨htemp, htr', hkeys, hbackend⟩ := h rfl
        -- the new temporary directory is empty, and nothing has been written yet
        have hwhole := @wp_fillPayload _ _ _ driver sodium env params id maybeParent _ htr' w'
        rw [hkeys, hbackend] at hwhole
        have hblob := wp_of_emits (R := fun tr' w' =>
            w'.disk.temporarySnapshot = some ⟨none, some (payload tr')⟩)
          (@emits_fillPayload _ _ _ driver sodium env params id maybeParent) ?_ (htr' ▸ htemp)
        · exact wp_mono (fun _ _ _ => trivial) (fun r _ _ h hr => ⟨h.1, h.2 hr⟩) _
            (wp_and hblob hwhole)
        -- a step either leaves the blob and the trace's payload alone, or adds the same chunk to
        -- both
        intro l u tr' w' ⟨hE, hu⟩ hw'
        rw [(hu w').1, payload_append_singleton]
        cases l with
        | look | backend _ => exact hw'
        | writeBlob chunk => simp [Event.apply, Disk.setTemporary, hw']
        | createTemporary | unlinkTemporaryId | unlinkTemporaryBlob | createBlob
        | truncateTemporaryId | writeTemporaryId _ | rename _ | truncateBreadcrumb
        | writeBreadcrumb _ | unlinkId _ | unlinkBlob _ | removeDirectory _ => exact hE.elim
  refine wp_mono ?_ ?_ _ (wp_and hframe htemp)
  · rintro _ w' ⟨⟨ls, rfl, hw'⟩, -⟩
    exact hI ls w' hw'
  · rintro r _ w' ⟨⟨ls, rfl, hw'⟩, h⟩
    exact hend ls w' r hw' h

/-- `store_snapshot` leaves the nodes alone until the rename, at which the temporary directory holds
the id and the whole payload. -/
theorem wp_storeSnapshot {sodium : Sodium σ} {env : Env} {params : RepositoryParams} {id : S}
    {maybeParent : Option S} {I : List Event → World β → Prop}
    {Q : Result Exn Unit → List Event → World β → Prop} {tr : List Event} {w : World β}
    (hI : ∀ ls w', World.PreparedBy ∅ w ls w' → I (tr ++ ls) w')
    (hend : ∀ ls w' r, World.PreparedBy ∅ w ls w' → r ≠ .val () → Q r (tr ++ ls) w')
    (hcommit : ∀ ls w', World.PreparedBy ∅ w (ls ++ commitLabels (driver.encoded id)) w' →
      PayloadOf driver sodium env params w.disk.keyPairs id maybeParent w.backend
        (payload (tr ++ ls)) →
      w'.disk.temporarySnapshot =
        some ⟨some (driver.encoded id).serialise, some (payload (tr ++ ls))⟩ →
      RenameFree w' (driver.encoded id).node →
      (commitRename (driver.encoded id)).wp I Q
        (tr ++ (ls ++ commitLabels (driver.encoded id))) w') :
    (storeSnapshot driver sodium env params id maybeParent).wp I Q tr w := by
  rw [storeSnapshot, wp_bind]
  refine wp_storePayload driver hI fun ls w' r hw' hstored => ?_
  cases r with
  | exn e => exact hend ls w' _ hw' (by simp)
  | diverged => exact hend ls w' _ hw' (by simp)
  | val _ =>
      obtain ⟨htemp, hwhole⟩ := hstored rfl
      simp only [bindPost]
      -- the id is written and the directory renamed: `commit` up to the rename still prepares
      refine wp_commit ?_ ?_ ?_
      · intro ls' w'' hw''
        rw [List.append_assoc]
        exact hI _ w'' (hw'.append hw'')
      · intro ls' w'' e hw''
        rw [List.append_assoc]
        exact hend _ w'' _ (hw'.append hw'') (by simp)
      · intro w'' hw'' htemp' hfree
        rw [List.append_assoc]
        refine hcommit ls w'' (hw'.append hw'') hwhole ?_ ?_
        · rw [htemp', htemp]
          rfl
        · rwa [RenameFree, hw''.world.snapshots]

/-! ## Pruning

Deleting the nodes that die with `u` is a loop over `u.prune`; that its numbers are those of
`fenwick.dying` is a fact about the loops of `Tree.lean`. -/

theorem emits_pruneNode (env : Env) {node : Node} (hnode : node.toNat ∈ D) :
    (pruneNode driver env node).Emits (Kind (Event.Prepares D)) := by
  refine emits_handle (emits_bind (emits_deleteNode env hnode) fun _ =>
    emits_bind (emits_tryGetEncodedSnapshotId (kind_look trivial) node) fun encoded => ?_)
      fun _ => by simp
  split
  · exact emits_bind (emits_decodeSnapshotId driver _ trivial) fun id => emits_removeSnapshot driver id
  · simp

/-- Once its directory is gone, the node's id is not found, and its snapshot is not removed. -/
theorem pruneNode_ends (env : Env) (node : Node) (w : World β) :
    (pruneNode driver env node).Ends (fun r w' => r = .val () ∧ w' = w.removeNode node) w := by
  intro tr
  simp only [pruneNode, wp_handle, wp_bind]
  refine wp_post ?_ (deleteNode_ends env node w _)
  rintro r tr' w' ⟨rfl, rfl⟩
  have habsent : (w.removeNode node).disk.readId node = .ok none :=
    Disk.readId_of_absent (Disk.setNode_self _ _ _)
  simp [habsent, Result.ofExcept]

end

section
variable {I : List Event → World β → Prop} {Q : Result Exn Unit → List Event → World β → Prop}
  {tr : List Event} {w : World β} {f : Node → Repo β Unit}

/-- A functor that deletes the node it is called on. -/
structure Deletes (f : Node → Repo β Unit) : Prop where
  emits : ∀ {D : Set ℕ} {node : Node}, node.toNat ∈ D → (f node).Emits (Kind (Event.Prepares D))
  ends : ∀ node w, (f node).Ends (fun r w' => r = .val () ∧ w' = w.removeNode node) w

theorem deletes_deleteNode (env : Env) : Deletes (deleteNode env : Node → Repo β Unit) :=
  ⟨emits_deleteNode env, deleteNode_ends env⟩

theorem deletes_pruneNode (driver : BackendDriver β S) (env : Env) :
    Deletes (pruneNode driver env) :=
  ⟨emits_pruneNode driver env, pruneNode_ends driver env⟩

/-- Deleting what dies upon the creation of `u`: only such nodes are deleted, and if all goes well,
all of them are. -/
theorem wp_forEachNode_prune (hf : Deletes f) {u : Node} (hu : u.toNat ≤ 2 ^ 63)
    (hI : ∀ ls w', World.PreparedBy (fenwick.dying u.toNat) w ls w' → I (tr ++ ls) w')
    (hexn : ∀ ls w' e, World.PreparedBy (fenwick.dying u.toNat) w ls w' →
      Q (.exn e) (tr ++ ls) w')
    (hval : ∀ ls, World.PreparedBy (fenwick.dying u.toNat) w ls (removeNodes w u.prune.nodes) →
      u.toNat < 2 ^ 63 → Q (.val ()) (tr ++ ls) (removeNodes w u.prune.nodes)) :
    (forEachNode u.prune f).wp I Q tr w := by
  have hmem (x : UInt64) (hx : x ∈ u.prune.nodes) : x.toNat ∈ fenwick.dying u.toNat :=
    Tree.mem_dying_of_mem_prune hu hx
  refine wp_of_prepares (emits_forEachNode fun x hx => hf.emits (hmem x hx))
    (forEachNode_ends hf.ends w) hI ?_
  rintro ls w' r hw' ⟨rfl, rfl⟩
  -- `prune` itself throws for the node `2 ^ 63`, after it has gone through the others
  rcases Tree.prune_result_cases hu with ⟨hlt, hr⟩ | hr
  · rw [Node.prune, hr]
    exact hval ls hw' hlt
  · rw [Node.prune, hr]
    exact hexn ls _ _ hw'

/-- The pruning phase of a snapshot. -/
theorem wp_prune (hf : Deletes f) {u : Node}
    (hnode : w.repositoryStructure.breadcrumb.untrustedBegin = u) (hu : u.toNat ≤ 2 ^ 63)
    (hI : ∀ ls w', World.PreparedBy (fenwick.dying u.toNat) w ls w' → I (tr ++ ls) w')
    (hexn : ∀ ls w' e, World.PreparedBy (fenwick.dying u.toNat) w ls w' →
      Q (.exn e) (tr ++ ls) w')
    (hval : ∀ ls, World.PreparedBy (fenwick.dying u.toNat) w ls (removeNodes w u.prune.nodes) →
      u.toNat < 2 ^ 63 → Q (.val ()) (tr ++ ls) (removeNodes w u.prune.nodes)) :
    (prune f).wp I Q tr w := by
  have hlook := World.PreparedBy.look (fenwick.dying u.toNat) w
  simp only [prune, getLatestTrustedNode, getBreadcrumb, wp_bind, wp_look, bindPost, wp_pure, hnode]
  refine ⟨hI _ w hlook, ?_⟩
  rcases eq_or_ne u Node.initialValue with rfl | hne
  · -- the initial node has no nodes to prune
    have hnil : removeNodes w Node.initialValue.prune.nodes = w := removeNodes_nil w
    rw [if_pos rfl]
    rw [hnil] at hval
    exact hval [.look] hlook (by decide)
  · rw [if_neg hne]
    refine wp_forEachNode_prune hf hu ?_ ?_ ?_
    · intro ls w' hw'
      rw [List.append_assoc]
      exact hI _ w' (hlook.append hw')
    · intro ls w' e hw'
      rw [List.append_assoc]
      exact hexn _ w' e (hlook.append hw')
    · intro ls hw' hlt
      rw [List.append_assoc]
      exact hval _ (hlook.append hw') hlt

end

/-!
## One iteration of `snapshot`

The iteration looks for the next node, prunes for it, takes its snapshot and stores it. The rules
below take it apart in this order; each leaves what follows as a hypothesis.
-/

section
variable (driver : BackendDriver β S)

/-- The part of `_snapshot` between the pruning and `store_snapshot`. -/
def nextSnapshot (node : Node) : Repo β (Option S × S × Bool) := do
  let maybeParent ← parentSnapshot driver node
  let uuid ← getRepositoryUuid
  let (id, alreadyOld) ← takeSnapshot driver node uuid
  return (maybeParent, id, alreadyOld)

theorem _snapshot_eq (sodium : Sodium σ) (env : Env) (params : RepositoryParams) :
    _snapshot driver sodium env params = do
      let node ← getNextSnapshotNode env
      prune (pruneNode driver env)
      let (maybeParent, id, alreadyOld) ← nextSnapshot driver node
      storeSnapshot driver sodium env params id maybeParent
      return !alreadyOld := by
  simp only [_snapshot, nextSnapshot, bind_assoc, pure_bind]

theorem emits_nextSnapshot (node : Node) :
    (nextSnapshot driver node).Emits (Kind (Event.Prepares D)) :=
  emits_bind (emits_parentSnapshot driver node) fun _ =>
    emits_bind (emits_getRepositoryUuid (kind_look trivial)) fun uuid =>
      emits_bind (emits_takeSnapshot driver node uuid) fun _ => by simp

/-- The backend returns an id of the node it is asked for. -/
theorem nextSnapshot_ends (node : Node) (w : World β) :
    (nextSnapshot driver node).Ends
      (fun r _ => ∀ x, r = .val x → (driver.encoded x.2.1).node = node) w := by
  intro tr
  have htake (uuid : Uuid) (w : World β) (tr : List Event) :
      (takeSnapshot driver node uuid).wp (fun _ _ => True)
        (fun r _ _ => ∀ x, r = .val x → (driver.encoded x.1).node = node) tr w := by
    simp only [takeSnapshot, callBackend, wp_bind, wp_readModify, bindPost, wp_ofExcept, true_and]
    cases h : (driver.snapshot node uuid w.backend).1 with
    | error e => exact fun x hx => by cases hx
    | ok x =>
        intro y hy
        cases hy
        rw [driver.node_encoded]
        exact driver.getNode_snapshot node uuid w.backend x.1 x.2 h
  simp only [nextSnapshot, wp_bind]
  refine wp_post (fun r tr' w' _ => ?_) (ends_trivial tr)
  cases r with
  | exn e => exact fun x hx => by cases hx
  | diverged => exact fun x hx => by cases hx
  | val maybeParent =>
      simp only [bindPost, wp_bind]
      refine wp_post (fun r tr' w' _ => ?_) (ends_trivial tr')
      cases r with
      | exn e => exact fun x hx => by cases hx
      | diverged => exact fun x hx => by cases hx
      | val uuid =>
          simp only [bindPost, wp_bind]
          refine wp_post (fun r tr' w' h => ?_) (htake uuid w' tr')
          cases r with
          | exn e => exact fun x hx => by cases hx
          | diverged => exact fun x hx => by cases hx
          | val x =>
              intro y hy
              cases hy
              exact h x rfl

end

/-- One iteration of `snapshot`, where the next node `u` is the first untrusted one and has no id,
up to the point where what dies with `u` is gone. -/
theorem wp_snapshotIteration_pruned {driver : BackendDriver β S} {sodium : Sodium σ} {env : Env}
    {params : RepositoryParams} {u : Node} {I : List Event → World β → Prop}
    {Q : Result Exn Bool → List Event → World β → Prop} {tr : List Event} {w : World β}
    (hnode : w.repositoryStructure.breadcrumb.untrustedBegin = u)
    (habsent : w.disk.readId u = .ok none) (hu : u.toNat ≤ 2 ^ 63)
    (hI : ∀ ls w', World.PreparedBy (fenwick.dying u.toNat) w ls w' → I (tr ++ ls) w')
    (hend : ∀ ls w' r, World.PreparedBy (fenwick.dying u.toNat) w ls w' → (∀ b, r ≠ .val b) →
      Q r (tr ++ ls) w')
    (hpruned : ∀ ls, World.PreparedBy (fenwick.dying u.toNat) w ls (removeNodes w u.prune.nodes) →
      u.toNat < 2 ^ 63 →
      (nextSnapshot driver u).wp I (bindPost (fun x =>
        storeSnapshot driver sodium env params x.2.1 x.1 >>= fun _ => pure (!x.2.2)) I Q)
        (tr ++ ls) (removeNodes w u.prune.nodes)) :
    (_snapshot driver sodium env params).wp I Q tr w := by
  rw [_snapshot_eq, wp_bind]
  refine wp_of_prepares (D := fenwick.dying u.toNat)
    (emits_getNextSnapshotNode (kind_look trivial) env) (getNextSnapshotNode_absent (by rw [hnode]; exact habsent)) hI ?_
  -- the next node is `u`, or there is not enough fuel
  rintro ls₁ w₁ r hw₁ ⟨rfl, rfl | rfl⟩
  swap
  · exact hend ls₁ w₁ _ hw₁ (by simp)
  simp only [bindPost, wp_bind, hnode]
  refine wp_prune (deletes_pruneNode driver env) hnode hu ?_ ?_ ?_
  · intro ls w' hw'
    rw [List.append_assoc]
    exact hI _ w' (hw₁.append hw')
  · intro ls w' e hw'
    rw [List.append_assoc]
    exact hend _ w' _ (hw₁.append hw') (by simp)
  · intro ls₂ hw₂ hlt
    simp only [bindPost, wp_bind, List.append_assoc]
    exact hpruned _ (hw₁.append hw₂) hlt

/-- One iteration of `snapshot`, where the next node `u` is the first untrusted one and has no id.
Until the rename it prepares that node; if it gets there, what dies with `u` is gone, and the
temporary directory holds the id and the whole payload that this iteration has written. -/
theorem wp_snapshotIteration {driver : BackendDriver β S} {sodium : Sodium σ} {env : Env}
    {params : RepositoryParams} {u : Node} {I : List Event → World β → Prop}
    {Q : Result Exn Bool → List Event → World β → Prop} {tr : List Event} {w : World β}
    (hnode : w.repositoryStructure.breadcrumb.untrustedBegin = u)
    (habsent : w.disk.readId u = .ok none) (hu : u.toNat ≤ 2 ^ 63)
    (hI : ∀ ls w', World.PreparedBy (fenwick.dying u.toNat) w ls w' → I (tr ++ ls) w')
    (hend : ∀ ls w' r, World.PreparedBy (fenwick.dying u.toNat) w ls w' → (∀ b, r ≠ .val b) →
      Q r (tr ++ ls) w')
    (hcommit : ∀ ls w' encoded old,
      World.PreparedBy (fenwick.dying u.toNat) w (ls ++ commitLabels encoded) w' →
      u.toNat < 2 ^ 63 → w'.disk.snapshots = (removeNodes w u.prune.nodes).disk.snapshots →
      encoded.node = u →
      WholePayload driver sodium env params w.disk.keyPairs encoded (payload (tr ++ ls)) →
      w'.disk.temporarySnapshot =
        some ⟨some encoded.serialise, some (payload (tr ++ ls))⟩ → RenameFree w' u →
      (commitRename encoded).wp I (bindPost (fun _ => pure old) I Q)
        (tr ++ (ls ++ commitLabels encoded)) w') :
    (_snapshot driver sodium env params).wp I Q tr w := by
  refine wp_snapshotIteration_pruned hnode habsent hu hI hend fun ls₁ hw₁₂ hlt => ?_
  -- from here on the nodes are left alone
  refine wp_of_prepares (D := ∅) (emits_nextSnapshot driver u) (nextSnapshot_ends driver u _) ?_ ?_
  · intro ls w' hw'
    rw [List.append_assoc]
    exact hI _ w' (hw₁₂.append hw'.weaken)
  intro ls₃ w₃ r hw₃ hr
  have hw₁₂₃ := hw₁₂.append hw₃.weaken
  rw [List.append_assoc]
  -- without an id there is nothing to store
  cases r with
  | exn e => exact hend _ w₃ _ hw₁₂₃ (by simp)
  | diverged => exact hend _ w₃ _ hw₁₂₃ (by simp)
  | val x =>
      obtain ⟨maybeParent, id, alreadyOld⟩ := x
      have hid : (driver.encoded id).node = u := hr _ rfl
      simp only [bindPost, wp_bind]
      refine wp_storeSnapshot driver ?_ ?_ ?_
      · intro ls w' hw'
        rw [List.append_assoc]
        exact hI _ w' (hw₁₂₃.append hw'.weaken)
      · intro ls w' r hw' hr
        rw [List.append_assoc]
        exact bindPost_of_ne (fun r => hend _ w' r (hw₁₂₃.append hw'.weaken)) fun _ => hr
      -- the labels of the three phases are put together; the key slots have not changed on the way
      · intro ls w' hw' hpayload htemp hfree
        have hwhole := hpayload.whole
        generalize ls₁ ++ ls₃ = ls₀ at hw₁₂₃ hwhole htemp ⊢
        rw [hw₁₂₃.world.keyPairs, List.append_assoc] at hwhole
        rw [List.append_assoc] at htemp
        rw [List.append_assoc, ← List.append_assoc ls₀]
        refine hcommit _ w' _ (!alreadyOld) ?_ hlt
          (hw'.world.snapshots.trans hw₃.world.snapshots) hid hwhole htemp (hid ▸ hfree)
        rw [List.append_assoc]
        exact hw₁₂₃.append hw'.weaken

end Diffmonger.Controller
