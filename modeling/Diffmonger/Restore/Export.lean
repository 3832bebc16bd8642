import Diffmonger.Controller.Completed
import Diffmonger.Restore.Keys
import Diffmonger.Restore.Scratch

/-!
# Exporting a repository

Every node that is alive is restored to the scratch dataset, and then handed to the import command,
whatever that does. A node can be restored if its parent's snapshot is in the dataset; all later
snapshots are destroyed.

`wp_export_of_completed` reduces the export of what completed snapshot commands have left to the
loop over the nodes that are alive, in ascending order, with a key that decrypts their payloads.
`wp_restoreNode` is the rule for one turn of that loop: what the import command finds in the dataset
is `restored`. The condition on all events, `RestoresBased`, is that differences are only ever
restored on top of the snapshot that they start from.
-/

namespace Diffmonger

open Prog RepositoryStructure EncryptionUtil

variable {β γ S σ : Type}

/-- The scratch dataset has changed. -/
def World.withDataset (w : World (Scratch β)) (b : β) : World (Scratch β) :=
  { w with backend := { w.backend with dataset := b } }

namespace Controller

/-!
## The source

What an export asks of its source: the nodes that are alive, each with an id that can be decoded and
a payload that the key decrypts.
-/

/-- A repository that holds what is alive after `n`: the snapshots with the given ids. -/
structure Exportable (driver : BackendDriver β S) (n : ℕ) (ids : ℕ → S) (disk : Disk) : Prop where
  bound : n < 2 ^ 63
  nodes : disk.nodes = fenwick.alive n
  getNode : ∀ k ∈ fenwick.alive n, (driver.getNode (ids k)).toNat = k
  dir : ∀ node, node.toNat ∈ fenwick.alive n → ∃ blob,
    disk.snapshots node = some ⟨some (driver.encoded (ids node.toNat)).serialise, some blob⟩

/-- The key pair, if there is one, decrypts all payloads. -/
def DecryptsPayloads (sodium : Sodium σ) (decryptedKeyPair : Option DecryptedKeyPair) (disk : Disk) : Prop :=
  ∀ key, decryptedKeyPair = some key → ∀ node blob, disk.blobFile node = some blob →
    (decryptFromFd sodium key blob).result = .ok ()

section
variable {driver : BackendDriver β S} {n : ℕ} {ids : ℕ → S} {disk : Disk}

theorem readId_of_dir {node : Node} {id : S} (hnode : driver.getNode id = node) {blob : Option Bytes}
    (h : disk.snapshots node = some ⟨some (driver.encoded id).serialise, blob⟩) :
    disk.readId node = .ok (some (driver.encoded id)) := by
  refine Disk.readId_of_serialise ?_ (by rw [driver.node_encoded, hnode])
  rw [Disk.idFile, h]
  rfl

theorem Exportable.getNode_eq (h : Exportable driver n ids disk) {node : Node}
    (hnode : node.toNat ∈ fenwick.alive n) : driver.getNode (ids node.toNat) = node :=
  Node.toNat_inj.mp (h.getNode _ hnode)

theorem Exportable.readId (h : Exportable driver n ids disk) {node : Node}
    (hnode : node.toNat ∈ fenwick.alive n) :
    disk.readId node = .ok (some (driver.encoded (ids node.toNat))) := by
  obtain ⟨blob, hdir⟩ := h.dir node hnode
  exact readId_of_dir (h.getNode_eq hnode) hdir

end

/-! ## One node -/

section
variable {driver : BackendDriver β S} {snapshots : β → List S}

/-- After a step that restores a difference, both of its snapshots are in the dataset. -/
def RestoresBased (driver : BackendDriver β S) (snapshots : β → List S) (event : Event)
    (w : World (Scratch β)) : Prop :=
  ∀ parent encoded input, event = .backend (.restoreDiff parent encoded input) →
    Based driver snapshots w.backend.dataset parent encoded

section
variable {n : ℕ} {ids : ℕ → S} {node : Node} {w : World (Scratch β)} {tr : List Event}
  {sodium : Sodium σ}

/-- A call of the backend that restores a snapshot. -/
theorem wp_restoreCall {call : BackendCall} {method : β → Except Exn Unit × β}
    (hok : (method w.backend.dataset).1 = .ok ())
    (hbased : RestoresBased driver snapshots (.backend call)
      (w.withDataset (method w.backend.dataset).2)) :
    (do let r ← callBackend call (Scratch.onDataset method); Prog.ofExcept r : Repo _ Unit).wp
      (AtLast (RestoresBased driver snapshots))
      (fun r _ w' => r = .val () ∧ w' = w.withDataset (method w.backend.dataset).2) tr w :=
  ⟨atLast_append_singleton.mpr hbased, congrArg Result.ofExcept hok, rfl⟩

/-- A step that only reads. -/
theorem Decodes.restoresBased {event : Event} {update : World (Scratch β) → World (Scratch β)}
    {w : World (Scratch β)} (h : Kind Decodes event update) :
    RestoresBased driver snapshots event (update w) := by
  rintro _ _ _ rfl
  exact h.1.elim

/-- Passing on a payload that can be decrypted, if it has to be. -/
theorem wp_decrypted {key : Option DecryptedKeyPair} {blob : Bytes}
    {f : Bytes → Repo (Scratch β) Unit} {P : World (Scratch β) → Prop}
    (hblob : w.disk.blobFile node = some blob)
    (hok : ∀ decryptedKeyPair, key = some decryptedKeyPair →
      (decryptFromFd sodium decryptedKeyPair blob).result = .ok ())
    (hf : ∀ input tr, (f input).wp (AtLast (RestoresBased driver snapshots))
      (fun r _ w' => r = .val () ∧ P w') tr w) :
    (decrypted sodium key node f).wp (AtLast (RestoresBased driver snapshots))
      (fun r _ w' => r = .val () ∧ P w') tr w := by
  simp only [decrypted, createPayloadFdForReading, wp_bind, wp_look, id_eq, bindPost, hblob, wp_pure]
  refine ⟨atLast_append_singleton.mpr (by simp [RestoresBased]), ?_⟩
  cases key with
  | none => exact hf _ _
  | some decryptedKeyPair =>
      simp only [withDecryptedInput, wp_bind]
      refine wp_post ?_ (hf _ _)
      rintro r tr' w' ⟨rfl, hP⟩
      simp only [bindPost, hok decryptedKeyPair rfl]
      exact ⟨rfl, hP⟩

variable [DecidableEq S]

/-- The snapshots of the dataset once a node has been restored. -/
def restored (ids : ℕ → S) (node : Node) (history : List S) : List S :=
  if node = Node.initialValue then [ids 0]
  else rollBack (ids (fenwick.parent node.toNat)) history ++ [ids node.toNat]

/-- Restoring a node whose parent is in the dataset. -/
theorem wp_restorePayload (h : LinearHistory driver snapshots)
    (hsource : Exportable driver n ids w.disk) (halive : node.toNat ∈ fenwick.alive n)
    (hparent : node ≠ Node.initialValue →
      ids (fenwick.parent node.toNat) ∈ snapshots w.backend.dataset) (input : Bytes) :
    (restorePayload driver.onScratch (ids node.toNat) node input).wp
      (AtLast (RestoresBased driver snapshots))
      (fun r _ w' => r = .val () ∧ ∃ b, w' = w.withDataset b ∧
        snapshots b = restored ids node (snapshots w.backend.dataset)) tr w := by
  unfold restorePayload restored
  split
  · next hroot =>
      obtain ⟨hok, hlist⟩ := h.restoreInitial (ids node.toNat) input w.backend.dataset
      refine wp_post ?_ (wp_restoreCall hok nofun)
      rintro r tr' _ ⟨rfl, rfl⟩
      exact ⟨rfl, _, rfl, by rw [hlist, hroot]; rfl⟩
  · next hroot =>
      have hmem := hparent hroot
      have hparentAlive : fenwick.parent node.toNat ∈ fenwick.alive n :=
        fenwick.path_subset_alive_of_mem halive ⟨1, rfl⟩
      have hread : w.disk.readId node.fenwickParent =
          .ok (some (driver.encoded (ids (fenwick.parent node.toNat)))) := by
        rw [← Node.toNat_fenwickParent]
        exact hsource.readId (by rwa [Node.toNat_fenwickParent])
      rw [wp_bind]
      -- The parent is alive as well, so that its id can be read.
      refine wp_post ?_ ((nodeToSnapshotId_stored h.onScratch hread).wp_atLast
        (emits_nodeToSnapshotId (E := Decodes) _ _ trivial fun _ => trivial)
        fun _ _ _ hdecodes => Decodes.restoresBased hdecodes)
      rintro r tr' w ⟨rfl, rfl⟩
      obtain ⟨hok, hlist⟩ := h.restoreDiff _ (ids node.toNat) input w.backend.dataset hmem
      -- After the call, both snapshots are in the dataset.
      refine wp_post ?_ (wp_restoreCall hok ?_)
      · rintro r tr' _ ⟨rfl, rfl⟩
        exact ⟨rfl, _, rfl, hlist⟩
      · rintro _ _ _ ⟨⟩
        refine ⟨?_, ⟨_, ?_, rfl⟩, _, ?_, rfl⟩
        · refine Node.toNat_inj.mp ?_
          rw [driver.onScratch.node_encoded, driver.onScratch.node_encoded,
            Node.toNat_fenwickParent]
          exact (hsource.getNode _ hparentAlive).trans
            (congrArg _ (hsource.getNode _ halive).symm)
        · exact hlist ▸ List.mem_append_left _ (mem_rollBack_self _ _)
        · exact hlist ▸ List.mem_append_right _ (List.mem_singleton_self _)

/-- Asking for a snapshot leaves the snapshots alone. -/
theorem wp_existsSnapshot (h : LinearHistory driver snapshots) (id : S) :
    (existsSnapshot driver.onScratch id).wp (AtLast (RestoresBased driver snapshots))
      (fun r _ w' => ∃ found b, r = .val found ∧ snapshots b = snapshots w.backend.dataset ∧
        w' = w.withDataset b) tr w := by
  obtain ⟨hexists, hkeeps⟩ := h.existsSnapshot id w.backend.dataset
  exact ⟨atLast_append_singleton.mpr nofun, _, _, congrArg Result.ofExcept hexists, hkeeps, rfl⟩

omit [DecidableEq S] in
theorem wp_runImportCommand_ok
    {importCommand : Bytes → Scratch β → Except Exn (Except Exn Unit) × Scratch β} {id : S}
    {s : Scratch β}
    (hcall : importCommand (driver.encoded id).serialise w.backend = (.ok (.ok ()), s)) :
    (runImportCommand driver.onScratch importCommand id).wp (AtLast (RestoresBased driver snapshots))
      (fun r _ w' => r = .val () ∧ w' = { w with backend := s }) tr w := by
  have hcall' : importCommand (driver.onScratch.encoded id).serialise w.backend =
      (.ok (.ok ()), s) := hcall
  simp only [runImportCommand, callBackend, wp_bind, wp_readModify, hcall', bindPost, wp_ofExcept,
    Result.ofExcept, wp_handle, handlePost, and_self, and_true]
  exact atLast_append_singleton.mpr (by simp [RestoresBased])

omit [DecidableEq S] in
theorem wp_runImportCommand_error
    {importCommand : Bytes → Scratch β → Except Exn (Except Exn Unit) × Scratch β} {id : S} {e : Exn}
    (hcall : (importCommand (driver.encoded id).serialise w.backend).1 = .ok (.error e)) :
    (runImportCommand driver.onScratch importCommand id).wp (AtLast (RestoresBased driver snapshots))
      (fun r _ _ => ∃ e, r = .exn e) tr w := by
  have hcall' : (importCommand (driver.onScratch.encoded id).serialise w.backend).1 =
      .ok (.error e) := hcall
  simp only [runImportCommand, callBackend, wp_bind, wp_readModify, hcall', bindPost, wp_ofExcept,
    Result.ofExcept, wp_handle, handlePost]
  refine ⟨atLast_append_singleton.mpr (by simp [RestoresBased]), ?_⟩
  split
  · exact ⟨_, rfl⟩
  · exact ⟨_, rfl⟩

/-- A node is restored, and then handed to whatever follows. -/
theorem wp_restoreNode (h : LinearHistory driver snapshots)
    (hsource : Exportable driver n ids w.disk) {key : Option DecryptedKeyPair}
    (hkey : DecryptsPayloads sodium key w.disk) (halive : node.toNat ∈ fenwick.alive n)
    (hparent : node ≠ Node.initialValue →
      ids (fenwick.parent node.toNat) ∈ snapshots w.backend.dataset)
    {uponEachSnapshot : S → Repo (Scratch β) Unit}
    {Q : Result Exn Unit → List Event → World (Scratch β) → Prop}
    (hupon : ∀ b tr, snapshots b = restored ids node (snapshots w.backend.dataset) →
      (uponEachSnapshot (ids node.toNat)).wp (AtLast (RestoresBased driver snapshots)) Q tr
        (w.withDataset b)) :
    (restoreNode driver.onScratch sodium key false uponEachSnapshot node).wp
      (AtLast (RestoresBased driver snapshots)) Q tr w := by
  rw [restoreNode, wp_bind]
  refine wp_post ?_ ((nodeToSnapshotId_stored h.onScratch (hsource.readId halive)).wp_atLast
    (emits_nodeToSnapshotId (E := Decodes) _ _ trivial fun _ => trivial)
    fun _ _ _ hdecodes => Decodes.restoresBased hdecodes)
  rintro r tr w ⟨rfl, rfl⟩
  -- whether the snapshot is there already makes no difference
  rw [bindPost, wp_bind]
  refine wp_post ?_ (wp_existsSnapshot h (ids node.toNat))
  rintro r tr _ ⟨found, b, rfl, hb, rfl⟩
  simp only [bindPost, Bool.not_false, Bool.or_true, if_true, wp_bind]
  obtain ⟨blob, hdir⟩ := hsource.dir node halive
  have hblob : w.disk.blobFile node = some blob := by
    rw [Disk.blobFile, hdir]
    rfl
  rw [← hb] at hparent
  refine wp_post ?_ (wp_decrypted (w := w.withDataset b) hblob
    (fun decryptedKeyPair heq => hkey decryptedKeyPair heq node blob hblob)
    fun input tr => wp_restorePayload (w := w.withDataset b) h hsource halive hparent input)
  rintro r tr _ ⟨rfl, b', rfl, hb'⟩
  exact hupon b' tr (hb'.trans (by rw [← hb]; rfl))

/-!
## All nodes

The loop over the nodes, with `wp_restoreNode` for each. In front of it, the key is decrypted if the
repository is encrypted.
-/

/-- What an export decrypts the payloads with, if it gets that far. -/
def DecryptsWith (sodium : Sodium σ) (encryption : Bool) (password : Option Bytes) (disk : Disk)
    (key : Option DecryptedKeyPair) : Prop :=
  if encryption then
    ∃ bytes slot, password = some bytes ∧ Disk.firstKeyPair disk.keys = .ok slot ∧
      key = slot.bind (DecryptedKeyPair.unlock sodium bytes)
  else key = none

omit [DecidableEq S]

/-- All nodes are restored. -/
theorem wp_restoreAlive (hsource : Exportable driver n ids w.disk)
    (hbegin : w.repositoryStructure.breadcrumb.untrustedBegin.toNat = n + 1) {envExport : Env}
    (hfuel : 0 < envExport.fuel) {last : Node} (hlast : last.toNat = n)
    {f : Node → Repo (Scratch β) Unit}
    {Q : Result Exn Unit → List Event → World (Scratch β) → Prop}
    (hloop : ∀ nodes tr, AliveNodes n nodes →
      (forM nodes f : Repo _ Unit).wp (AtLast (RestoresBased driver snapshots)) Q tr w) :
    (do
      let nodes ← nodesToRestore envExport last true
      forM nodes f : Repo _ Unit).wp (AtLast (RestoresBased driver snapshots)) Q tr w := by
  have hupTo : UpTo n w.disk w.repositoryStructure.breadcrumb :=
    ⟨hsource.bound, hbegin, hsource.nodes⟩
  rw [wp_bind]
  refine wp_post ?_ ((hupTo.nodesToRestore_ends hfuel hlast).wp_atLast (C := Kind Decodes) ?_
    fun _ _ _ => Decodes.restoresBased)
  · rintro r tr w ⟨rfl, nodes, rfl, hnodes⟩
    exact hloop nodes tr hnodes
  · exact emits_nodesToRestore (kind_look trivial) _ _ _

/-- The key is decrypted first, if there is encryption, and then the loop over the nodes begins. -/
theorem wp_restoreNodes (hsource : Exportable driver n ids w.disk)
    {repositoryParams : RepositoryParams} {password : Option Bytes}
    {key : Option DecryptedKeyPair}
    (hwith : DecryptsWith sodium repositoryParams.encryption password w.disk key)
    (hbegin : w.repositoryStructure.breadcrumb.untrustedBegin.toNat = n + 1) {envExport : Env}
    (hfuel : 0 < envExport.fuel) {last : Node} (hlast : last.toNat = n)
    {uponEachSnapshot : S → Repo (Scratch β) Unit}
    {Q : Result Exn Unit → List Event → World (Scratch β) → Prop}
    (hloop : ∀ nodes tr, AliveNodes n nodes →
      (forM nodes (restoreNode driver.onScratch sodium key false uponEachSnapshot)).wp
        (AtLast (RestoresBased driver snapshots)) Q tr w) :
    (restoreNodes driver.onScratch sodium envExport repositoryParams ⟨password, last, false⟩ true
      uponEachSnapshot).wp (AtLast (RestoresBased driver snapshots)) Q tr w := by
  unfold DecryptsWith at hwith
  split at hwith
  · next henc =>
      obtain ⟨bytes, slot, rfl, hslot, rfl⟩ := hwith
      have hemits : (decryptKeyPair sodium bytes : Repo (Scratch β) _).Emits (Kind Decodes) := by
        rw [decryptKeyPair_eq]
        exact emits_withKeyPairs (kind_look trivial) (fun _ _ => emits_pure _) none
      rw [restoreNodes, if_pos henc, wp_bind]
      refine wp_post ?_ ((decryptKeyPair_ends w).wp_atLast hemits
        fun _ _ _ => Decodes.restoresBased)
      rintro r tr w ⟨rfl, rfl⟩
      rw [hslot]
      exact wp_restoreAlive hsource hbegin hfuel hlast hloop
  · next henc =>
      subst hwith
      rw [restoreNodes, if_neg henc, wp_bind, wp_pure]
      exact wp_restoreAlive hsource hbegin hfuel hlast hloop

/-- The export command restores what is alive, one node after the other. -/
theorem wp_exportRepositoryCommand (hsource : Exportable driver n ids w.disk)
    {repositoryExport : String} {args : Uuid × StringVector}
    (hargs : w.disk.readInitargs repositoryExport = .ok args) {breadcrumb : Breadcrumb}
    (hread : w.disk.readBreadcrumb = .ok breadcrumb)
    (hbegin : breadcrumb.untrustedBegin.toNat = n + 1) {repositoryParams : RepositoryParams}
    {exportParams : ExportParams} (hcommand : exportParams.importCommand ≠ [])
    {key : Option DecryptedKeyPair}
    (hwith : DecryptsWith sodium repositoryParams.encryption exportParams.password w.disk key)
    {envExport : Env} (hfuel : 0 < envExport.fuel)
    {importCommand : Bytes → Scratch β → Except Exn (Except Exn Unit) × Scratch β}
    {Q : Result Exn Unit → List Event → World (Scratch β) → Prop}
    (hloop : ∀ nodes tr, AliveNodes n nodes →
      (forM nodes (restoreNode driver.onScratch sodium key false
        (runImportCommand driver.onScratch importCommand))).wp
        (AtLast (RestoresBased driver snapshots)) Q tr (w.opened repositoryExport args breadcrumb)) :
    (exportRepositoryCommand driver.onScratch sodium repositoryExport importCommand envExport
      repositoryParams exportParams).wp (AtLast (RestoresBased driver snapshots)) Q tr w := by
  have hlooks {event : Event} {update : World (Scratch β) → World (Scratch β)}
      {w : World (Scratch β)} (hk : NoCall event update) :
      RestoresBased driver snapshots event (update w) := fun _ _ _ heq => absurd heq (hk _)
  rw [exportRepositoryCommand, wp_bind]
  refine wp_post ?_ ((openRepository_ends hargs hread).wp_atLast
    (onDirectory_noCall.emits_openRepository _) fun _ _ _ => hlooks)
  rintro r tr _ ⟨rfl, rfl⟩
  have hupTo : UpTo n (w.opened repositoryExport args breadcrumb).disk breadcrumb :=
    ⟨hsource.bound, hbegin, hsource.nodes⟩
  rw [bindPost, exportRepository, wp_bind]
  refine wp_post ?_ ((getNextSnapshotNode_free (UpTo.idFile hupTo) hfuel).wp_atLast (C := Kind Decodes)
    (emits_getNextSnapshotNode (kind_look trivial) _) fun _ _ _ => Decodes.restoresBased)
  rintro r tr w' ⟨rfl, rfl⟩
  rw [bindPost, if_neg (UpTo.root hupTo), if_neg (by simpa using hcommand)]
  exact wp_restoreNodes (w := w.opened repositoryExport args breadcrumb) hsource hwith hbegin hfuel
    (UpTo.toNat_pred hupTo) hloop

end

end

/-!
## After completed commands

Where completed commands have left off, all that is alive is there and can be decrypted, and the
breadcrumb names the node after the last one.
-/

section
variable {driver : BackendDriver β S} {source : BackendDriver γ S} {sodium : Sodium σ}
  {encryption : Bool} {disk : Disk}

/-- What completed commands leave can be exported. -/
theorem exportable_of_stocked (hencoded : ∀ id, source.encoded id = driver.encoded id)
    {keyPairs : Except Exn (List KeyPair)} {n : ℕ}
    (h : Stocked (HoldsPayload source sodium encryption keyPairs) (n + 1) disk) :
    ∃ ids, Exportable driver n ids disk := by
  have hstored (node : Node) (hnode : node.toNat ∈ fenwick.alive n) : ∃ id,
      driver.getNode id = node ∧ ∃ blob,
        disk.snapshots node = some ⟨some (driver.encoded id).serialise, some blob⟩ := by
    have hnodes : disk.nodes = fenwick.alive n := h.nodes
    rw [← hnodes, Disk.toNat_mem_nodes, Option.isSome_iff_exists] at hnode
    obtain ⟨dir, hdir⟩ := hnode
    obtain ⟨_, hid, env, params, blob, -, rfl, id, maybeParent, b, rfl, -, -⟩ := h.holds node dir hdir
    rw [hencoded] at hid hdir
    exact ⟨id, by rw [← hid, driver.node_encoded], blob, hdir⟩
  obtain ⟨root, -⟩ := hstored Node.initialValue (Fenwick.zero_mem_alive n)
  have hchoice (k : ℕ) : ∃ id, k ∈ fenwick.alive n → (driver.getNode id).toNat = k ∧ ∃ blob,
      disk.snapshots (.ofNat k) = some ⟨some (driver.encoded id).serialise, some blob⟩ := by
    by_cases hk : k ∈ fenwick.alive n
    · have hnum : (Node.ofNat k).toNat = k := by
        have hbound := h.bound
        have hle := hk.1
        exact Node.toNat_ofNat (by omega)
      obtain ⟨id, hid, hdir⟩ := hstored (.ofNat k) (by rwa [hnum])
      exact ⟨id, fun _ => ⟨by rw [hid, hnum], hdir⟩⟩
    · exact ⟨root, fun hk' => absurd hk' hk⟩
  choose ids hids using hchoice
  refine ⟨ids, h.bound, h.nodes, fun k hk => (hids k hk).1, fun node hnode => ?_⟩
  obtain ⟨-, hdir⟩ := hids _ hnode
  rwa [Node.ofNat_toNat] at hdir

/-- The password opens slot 0, if it does, to the private key of its key pair, which shares its id
with no key pair that has another public key. -/
def KeyFits (sodium : Sodium σ) (IsKeyPair : ByteArray' 32 → ByteArray' 32 → Prop)
    (password : Bytes) (keyPairs : Except Exn (List KeyPair)) : Prop :=
  ∀ kps decryptedKeyPair, keyPairs = .ok kps →
    kps.head?.bind (DecryptedKeyPair.unlock sodium password) = some decryptedKeyPair →
      Opens IsKeyPair kps decryptedKeyPair

/-- Every key pair has a private key. -/
def HasPrivateKeys (IsKeyPair : ByteArray' 32 → ByteArray' 32 → Prop)
    (keyPairs : Except Exn (List KeyPair)) : Prop :=
  ∃ kps, keyPairs = .ok kps ∧ ∀ keyPair ∈ kps, ∃ privKey, IsKeyPair keyPair.pubKey privKey

variable {IsKeyPair : ByteArray' 32 → ByteArray' 32 → Prop} {InStep : σ → σ → Prop}

theorem HasPrivateKeys.canEncrypt (hsodium : sodium.Correct IsKeyPair InStep)
    {params : RepositoryParams} {keyPairs : Except Exn (List KeyPair)}
    (h : params.encryption = true → HasPrivateKeys IsKeyPair keyPairs) :
    CanEncrypt sodium params keyPairs := fun henc => by
  obtain ⟨kps, hkps, hpairs⟩ := h henc
  exact ⟨kps, hkps, fun _ _ => encryptToFd_ok hsodium hpairs _⟩

/-- Whatever the password opens, the payloads can be decrypted with it. -/
theorem exists_key_of_stocked (hsodium : sodium.Correct IsKeyPair InStep) {n : ℕ}
    (h : Stocked (HoldsPayload source sodium encryption disk.keyPairs) (n + 1) disk)
    {password : Option Bytes} (hpassword : encryption = true →
      ∃ bytes, password = some bytes ∧ KeyFits sodium IsKeyPair bytes disk.keyPairs) :
    ∃ key, DecryptsWith sodium encryption password disk key ∧ DecryptsPayloads sodium key disk := by
  cases hencryption : encryption with
  | false => exact ⟨none, rfl, nofun⟩
  | true =>
      subst hencryption
      obtain ⟨bytes, rfl, hfits⟩ := hpassword rfl
      have hpayload {node : Node} {dir : NodeDir} (hdir : disk.snapshots node = some dir) :
          ∃ kps random input, disk.keyPairs = .ok kps ∧
            (encryptToFd sodium random kps input).result = .ok () ∧
            dir.blob = some (encryptToFd sodium random kps input).bytes := by
        obtain ⟨encoded, -, env, params, blob, henc, rfl, id, maybeParent, b, -, -, hstored⟩ :=
          h.holds node dir hdir
        rw [StoredAs, if_pos henc] at hstored
        obtain ⟨kps, hkps, hok, rfl⟩ := hstored
        exact ⟨kps, _, _, hkps, hok, rfl⟩
      have hroot : (Node.initialValue).toNat ∈ disk.nodes := h.nodes ▸ Fenwick.zero_mem_alive n
      rw [Disk.toNat_mem_nodes, Option.isSome_iff_exists] at hroot
      obtain ⟨dir, hdir⟩ := hroot
      obtain ⟨kps, -, -, hkps, -⟩ := hpayload hdir
      refine ⟨_, ⟨bytes, _, rfl, Disk.firstKeyPair_of_keyPairs hkps, rfl⟩, fun key hkey node blob hblob => ?_⟩
      obtain ⟨dir, hdir, hblob⟩ := Option.bind_eq_some_iff.mp hblob
      obtain ⟨kps', random, input, hkps', hok, hbytes⟩ := hpayload hdir
      cases hkps.symm.trans hkps'
      cases hblob.symm.trans hbytes
      exact (decryptFromFd_encryptToFd hsodium (hfits kps key hkps hkey) hok).1

end

section
variable {driver : BackendDriver β S} {snapshots : β → List S} {source : BackendDriver γ S}
  {sodium : Sodium σ} {IsKeyPair : ByteArray' 32 → ByteArray' 32 → Prop} {InStep : σ → σ → Prop}

/-- The rule for the export of a repository that completed snapshot commands have left, the last of
which stored the node `n`: it does what restoring the nodes that are alive, one after the other, and
calling the import command does. -/
theorem wp_export_of_completed (hencoded : ∀ id, source.encoded id = driver.encoded id)
    (hsodium : sodium.Correct IsKeyPair InStep) {sourceParams : RepositoryParams} {w₀ w : World γ}
    {as : List (Attempt Event (World γ) Exn Unit)} (h₀ : Created w₀.disk)
    (hist : History (snapshotCommandsOf source sodium sourceParams.encryption) SameDisk
      Attempt.Completed w₀ as w) {n : Node}
    (hn : (committed (Attempt.allLabels as)).getLast? = some n) {exportParams : ExportParams}
    (hcommand : exportParams.importCommand ≠ [])
    (hpassword : sourceParams.encryption = true → ∃ password,
      exportParams.password = some password ∧ KeyFits sodium IsKeyPair password w₀.disk.keyPairs)
    {envExport : Env} (hfuel : 0 < envExport.fuel) (repositoryExport : String)
    {importCommand : Bytes → Scratch β → Except Exn (Except Exn Unit) × Scratch β} {start : World (Scratch β)}
    (hstart : start.disk = w.disk) {tr : List Event}
    {Q : Result Exn Unit → List Event → World (Scratch β) → Prop}
    (hloop : ∀ ids key w', Exportable driver n.toNat ids w'.disk →
      DecryptsPayloads sodium key w'.disk → w'.disk = start.disk → w'.backend = start.backend →
      ∀ nodes tr, AliveNodes n.toNat nodes →
        (forM nodes (restoreNode driver.onScratch sodium key false
          (runImportCommand driver.onScratch importCommand))).wp
          (AtLast (RestoresBased driver snapshots)) Q tr w') :
    (exportRepositoryCommand driver.onScratch sodium repositoryExport importCommand envExport
      sourceParams exportParams).wp (AtLast (RestoresBased driver snapshots)) Q tr start := by
  obtain ⟨c, hcommits, hstocked, hkeys⟩ := stocked_of_completed h₀ hist
  obtain rfl := hcommits.eq_of_getLast hn
  rw [← hkeys, ← hstart] at hpassword
  rw [← hkeys, ← hstart] at hstocked
  obtain ⟨ids, hsource⟩ := exportable_of_stocked hencoded hstocked
  obtain ⟨key, hwith, hkey⟩ := exists_key_of_stocked hsodium hstocked hpassword
  obtain ⟨args, hargs⟩ := hstocked.initargs repositoryExport
  obtain ⟨b, hread, hbegin⟩ := hstocked.aligned
  exact wp_exportRepositoryCommand hsource hargs hread hbegin hcommand hwith hfuel
    fun nodes tr hnodes => hloop ids key (start.opened repositoryExport args b) hsource hkey rfl rfl
      nodes tr hnodes

end

end Controller

end Diffmonger
