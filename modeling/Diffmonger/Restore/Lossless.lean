import Diffmonger.Controller.Contents
import Diffmonger.Controller.Encryption
import Diffmonger.Restore.Export

/-!
# What restoring brings back

Main results:
* `restore_lossless`: restoring a node to any dataset, if it succeeds, leaves a snapshot there that
  contains what the dataset that was backed up contained when the node was stored;
* `restore_succeeds`: a node that is there and not about to be removed can be restored to a dataset
  without snapshots, and to one to which it has been restored before.

A history of snapshot commands leaves the repository in agreement with a record of what was stored
when (`Filed`), and restoring keeps that: each node of the path in turn is either found in the
dataset, or comes from a payload that leads to the recorded contents (`Filed.wp_restoreNode`). For
the second result, a payload's base has to be there as well. The path is ascending, and the parent
of a node on it is the node before (`PathNodes.getLast_before`), whose snapshot has just been
restored or found.
-/

namespace Diffmonger

open Prog RepositoryStructure

variable {β S V σ : Type}

namespace Controller

section
variable {driver : BackendDriver β S} {contents : Contents β S V} {sodium : Sodium σ}
  {key : Option DecryptedKeyPair} {record : List (S × V)} {node : Node} {id : S} {v : V}
  {w : World β} {tr : List Event}

theorem Filed.persists (h : Filed driver contents sodium key record w) {b : β}
    (hb : contents.Persists w.backend b) :
    Filed driver contents sodium key record ⟨w.disk, w.repositoryStructure, b⟩ :=
  ⟨h.files, fun id v hmem => hb.named id v (h.named id v hmem), hb.genuine h.genuine⟩

/-- Handing a payload over brings the contents of its node back. -/
theorem Filed.wp_restorePayload (hfiled : Filed driver contents sodium key record w)
    (h : Conveys driver contents) (hentry : record[node.toNat]? = some (id, v)) {input : Bytes}
    (hleads : LeadsTo contents record node id v input) :
    (restorePayload driver id node input).wp (fun _ _ => True)
      (onVal fun _ _ w' => w'.disk = w.disk ∧ Filed driver contents sodium key record w' ∧
        contents.held w'.backend id = some v) tr w := by
  have hnamed := hfiled.named id v (List.mem_of_getElem? hentry)
  unfold LeadsTo at hleads
  unfold restorePayload
  split
  · next hroot =>
      rw [if_pos hroot] at hleads
      obtain ⟨hfull, rfl⟩ := hleads
      simp only [callBackend, wp_bind, wp_readModify, bindPost, wp_ofExcept, true_and]
      cases hr : (driver.restoreInitial id input w.backend).1 with
      | error e => trivial
      | ok _ =>
          obtain ⟨hheld, hpersists⟩ := h.restoreInitial id input w.backend hfull hr
          exact ⟨rfl, hfiled.persists (hpersists hnamed), hheld⟩
  · next hroot =>
      rw [if_neg hroot] at hleads
      obtain ⟨parent, before, hparent, hdifference, rfl⟩ := hleads
      refine wp_bind_of_onVal (hfiled.files.wp_nodeToSnapshotId h node.fenwickParent tr) ?_
      rintro parent' tr' w ⟨rfl, -, before', hparent'⟩
      cases hparent.symm.trans hparent'
      simp only [callBackend, wp_bind, wp_readModify, bindPost, wp_ofExcept, true_and]
      cases hr : (driver.restoreDiff parent id input w.backend).1 with
      | error e => trivial
      | ok _ =>
          obtain ⟨v₀, hv₀, hheld, hpersists⟩ :=
            h.restoreDiff parent id input w.backend hdifference hfiled.genuine hr
          -- the parent's snapshot in the dataset is the one in the record
          cases (hfiled.genuine parent v₀ hv₀).symm.trans
            (hfiled.named parent before (List.mem_of_getElem? hparent))
          exact ⟨rfl, hfiled.persists (hpersists hnamed), hheld⟩

/-- A payload is passed on as decrypting reveals it. -/
theorem wp_decrypted_revealed {f : Bytes → Repo β Unit} {P : World β → Prop}
    (hf : ∀ blob tr, w.disk.blobFile node = some blob →
      (f (revealed sodium key blob)).wp (fun _ _ => True) (onVal fun _ _ w' => P w') tr w) :
    (decrypted sodium key node f).wp (fun _ _ => True) (onVal fun _ _ w' => P w') tr w := by
  rw [decrypted, wp_bind_onVal, createPayloadFdForReading, wp_bind, wp_look]
  refine ⟨trivial, ?_⟩
  rw [id_eq, bindPost]
  cases hblob : w.disk.blobFile node with
  | none => trivial
  | some blob =>
      cases key with
      | none => exact hf blob _ hblob
      | some key =>
          show (withDecryptedInput sodium blob key f).wp _ _ _ _
          rw [withDecryptedInput]
          refine wp_bind_of_onVal (hf blob _ hblob) fun _ _ w' hw' => ?_
          split
          · exact hw'
          · trivial

theorem Filed.wp_existsSnapshot (hfiled : Filed driver contents sodium key record w)
    (h : Conveys driver contents) (id : S) :
    (existsSnapshot driver id).wp (fun _ _ => True)
      (onVal fun found _ w' => w'.disk = w.disk ∧ Filed driver contents sodium key record w' ∧
        (found = true → (contents.held w'.backend id).isSome)) tr w := by
  simp only [existsSnapshot, callBackend, wp_bind, wp_readModify, bindPost, wp_ofExcept, true_and]
  cases hr : (driver.existsSnapshot id w.backend).1 with
  | error e => trivial
  | ok found =>
      refine ⟨rfl, hfiled.persists (h.keeps_existsSnapshot id w.backend).toPersists, ?_⟩
      rintro rfl
      exact h.existsSnapshot id w.backend hr

/-- Restoring a node, whether it is skipped or not, leaves its snapshot in the dataset, with the
contents in the record. -/
theorem Filed.wp_restoreNode (hfiled : Filed driver contents sodium key record w)
    (h : Conveys driver contents) (skipExisting : Bool) (node : Node) :
    (restoreNode driver sodium key skipExisting (fun _ => pure ()) node).wp (fun _ _ => True)
      (onVal fun _ _ w' => w'.disk = w.disk ∧ Filed driver contents sodium key record w' ∧
        ∃ id v, record[node.toNat]? = some (id, v) ∧
          w.disk.readId node = .ok (some (driver.encoded id)) ∧
          contents.held w'.backend id = some v) tr w := by
  rw [restoreNode]
  refine wp_bind_of_onVal (hfiled.files.wp_nodeToSnapshotId h node tr) ?_
  rintro id tr₁ w ⟨rfl, hread, v, hentry⟩
  refine wp_bind_of_onVal (hfiled.wp_existsSnapshot h id) ?_
  rintro found tr₂ w₂ ⟨hdisk, hfiled₂, hfound⟩
  rw [← hdisk] at hread ⊢
  split
  · refine wp_bind_of_onVal (P := fun _ _ w' => w'.disk = w₂.disk ∧
      Filed driver contents sodium key record w' ∧ contents.held w'.backend id = some v)
      (wp_decrypted_revealed fun blob tr hblob => ?_) ?_
    · obtain ⟨dir, hdir, hblob⟩ := Option.bind_eq_some_iff.mp hblob
      obtain ⟨id', v', hentry'⟩ := hfiled₂.files node dir hdir
      cases hentry.symm.trans hentry'.entry
      exact hfiled₂.wp_restorePayload h hentry (hentry'.blobFile blob hblob)
    · rintro _ tr' w' ⟨hdisk', hfiled', hheld'⟩
      exact ⟨hdisk', hfiled', id, v, hentry, hread, hheld'⟩
  · next hskip =>
      refine ⟨rfl, hfiled₂, id, v, hentry, hread, ?_⟩
      -- the snapshot was there before
      have htrue : found = true := by
        cases found
        · exact absurd rfl hskip
        · rfl
      obtain ⟨v', hv'⟩ := Option.isSome_iff_exists.mp (hfound htrue)
      cases (hfiled₂.genuine id v' hv').symm.trans
        (hfiled₂.named id v (List.mem_of_getElem? hentry))
      exact hv'

/-- The last node of the path is the node itself. -/
theorem PathNodes.getLast {n : Node} {nodes : List Node} (h : PathNodes n nodes) :
    nodes.getLast? = some n := by
  have hmem : n ∈ nodes := (h.mem_iff n).mpr (fenwick.self_mem_path _)
  obtain ⟨before, after, rfl⟩ := List.append_of_mem hmem
  cases after with
  | nil => exact List.getLast?_concat
  | cons m after =>
      have hlt := List.rel_of_pairwise_cons (List.pairwise_append.mp h.ascending).2.1
        (List.mem_cons_self (a := m) (l := after))
      have hle := fenwick.path_le ((h.mem_iff m).mp (by simp))
      omega

/-- Restoring a node, if it succeeds, leaves its snapshot in the dataset, with the contents in the
record. -/
theorem Filed.wp_restore (hfiled : Filed driver contents sodium key record w)
    (h : Conveys driver contents) (env : Env) {repositoryParams : RepositoryParams}
    {password : Option Bytes}
    (hwith : DecryptsWith sodium repositoryParams.encryption password w.disk key) (node : Node)
    (skipExisting : Bool) :
    (restore driver sodium env repositoryParams ⟨password, node, skipExisting⟩).wp (fun _ _ => True)
      (onVal fun _ _ w' => ∃ id v, record[node.toNat]? = some (id, v) ∧
        w.disk.readId node = .ok (some (driver.encoded id)) ∧
        contents.held w'.backend id = some v) tr w := by
  -- Along the path, the invariant is that the last node treated is in the dataset with what is
  -- recorded of it; the last node of the path is the one that is asked for.
  have hloop (tr : List Event) : (nodesToRestore env node false >>= fun nodes =>
      forM nodes (restoreNode driver sodium key skipExisting fun _ => pure ())).wp (fun _ _ => True)
      (onVal fun _ _ w' => ∃ id v, record[node.toNat]? = some (id, v) ∧
        w.disk.readId node = .ok (some (driver.encoded id)) ∧
        contents.held w'.backend id = some v) tr w := by
    rw [wp_bind_onVal]
    refine wp_post ?_ (nodesToRestore_path node w tr)
    rintro r tr' w ⟨rfl, nodes, rfl, hnodes⟩
    refine wp_forM (fun treated _ w' => w'.disk = w.disk ∧
      Filed driver contents sodium key record w' ∧
      ∀ last, treated.getLast? = some last → ∃ id v, record[last.toNat]? = some (id, v) ∧
        w.disk.readId last = .ok (some (driver.encoded id)) ∧
        contents.held w'.backend id = some v) nodes ?_ ?_ ⟨rfl, hfiled, nofun⟩
    · rintro treated m rest - tr₁ w₁ ⟨hdisk, hfiled₁, -⟩
      refine wp_onVal_mono (fun _ tr₂ w₂ hw₂ => ?_) (hfiled₁.wp_restoreNode h skipExisting m)
      obtain ⟨hdisk', hfiled₂, id, v, hentry, hread, hheld⟩ := hw₂
      refine ⟨hdisk'.trans hdisk, hfiled₂, fun last hlast => ?_⟩
      rw [List.getLast?_concat] at hlast
      cases hlast
      exact ⟨id, v, hentry, hdisk ▸ hread, hheld⟩
    · rintro tr₁ w₁ ⟨-, -, hlast⟩
      exact hlast node hnodes.getLast
  -- The key is the one that the password opens, if there is encryption at all.
  rw [restore, restoreNodes]
  unfold DecryptsWith at hwith
  split
  · next henc =>
      rw [if_pos henc] at hwith
      obtain ⟨bytes, slot, rfl, hslot, rfl⟩ := hwith
      refine (wp_bind_onVal _ _).mpr (wp_post ?_ (decryptKeyPair_ends w tr))
      rintro r tr' w' ⟨rfl, rfl⟩
      rw [hslot]
      exact hloop tr'
  · next henc =>
      rw [if_neg henc] at hwith
      subst hwith
      exact hloop tr

end

/-!
## Where nothing goes wrong

A backend that is willing does what it is asked to, so that a restore succeeds if the repository
offers what it needs: the ids of the path, and payloads that the key decrypts.
-/

section
variable {driver : BackendDriver β S} {contents : Contents β S V} {sodium : Sodium σ}
  {key : Option DecryptedKeyPair} {node : Node} {id : S} {w : World β}

/-- The directory offers the snapshot of the node: its id, and a payload that the key decrypts. -/
structure Offers (driver : BackendDriver β S) (sodium : Sodium σ) (key : Option DecryptedKeyPair)
    (disk : Disk) (node : Node) (id : S) : Prop where
  readId : disk.readId node = .ok (some (driver.encoded id))
  blob : ∃ blob, disk.blobFile node = some blob ∧ Decrypts sodium key blob

/-- Nodes that are neither gone nor about to be removed are offered, with their paths. -/
theorem Durable.offers {c : ℕ} (h : Durable (Complete driver sodium key) c w.disk)
    (hpresent : node.toNat ∈ w.disk.nodes) (hdying : node.toNat ∉ fenwick.dying c) {m : Node}
    (hm : m.toNat ∈ fenwick.path node.toNat) : ∃ id, Offers driver sodium key w.disk m id := by
  obtain ⟨hmem, hnot⟩ := h.kept.path_subset hpresent hdying hm
  obtain ⟨dir, hdir⟩ := Option.isSome_iff_exists.mp (Disk.toNat_mem_nodes.mp hmem)
  obtain ⟨_, hnode, id, blob, rfl, rfl, hdecrypts⟩ := h.authored m dir hnot hdir
  rw [driver.node_encoded] at hnode
  refine ⟨id, readId_of_dir hnode hdir, blob, ?_, hdecrypts⟩
  rw [Disk.blobFile, hdir]
  rfl

/-- The node before one that has a parent is the parent. -/
theorem PathNodes.getLast_before {n m : Node} {before rest : List Node}
    (h : PathNodes n (before ++ m :: rest)) (hroot : m ≠ Node.initialValue) :
    before.getLast? = some m.fenwickParent := by
  have hne : m.toNat ≠ 0 := fun h0 => hroot (Node.toNat_inj.mp h0)
  have hm : m.toNat ∈ fenwick.path n.toNat := (h.mem_iff m).mp (by simp)
  have hlt : m.fenwickParent.toNat < m.toNat := by
    rw [Node.toNat_fenwickParent]
    exact fenwick.parent_lt _ hne
  obtain ⟨hascending, hafter, hbefore⟩ := List.pairwise_append.mp h.ascending
  have hparent : m.fenwickParent ∈ before := by
    have hmem : m.fenwickParent ∈ before ++ m :: rest := by
      rw [h.mem_iff, Node.toNat_fenwickParent]
      exact fenwick.path_trans ⟨1, rfl⟩ hm
    refine (List.mem_append.mp hmem).resolve_right fun hmem => ?_
    rcases List.mem_cons.mp hmem with heq | hmem
    · rw [heq] at hlt
      exact lt_irrefl _ hlt
    · exact lt_asymm hlt (List.rel_of_pairwise_cons hafter hmem)
  obtain ⟨last, hlast⟩ := Option.ne_none_iff_exists'.mp
    (mt List.getLast?_eq_none_iff.mp (List.ne_nil_of_mem hparent))
  obtain ⟨earlier, rfl⟩ := List.getLast?_eq_some_iff.mp hlast
  -- nothing on the path is between the parent and the node
  have hle : last.toNat ≤ m.fenwickParent.toNat := by
    rw [Node.toNat_fenwickParent]
    exact fenwick.le_parent_of_mem_path ((h.mem_iff last).mp (by simp)) hm
      (hbefore last (by simp) m List.mem_cons_self)
  rcases List.mem_append.mp hparent with hmem | hmem
  · have hlt' := (List.pairwise_append.mp hascending).2.2 _ hmem last (by simp)
    omega
  · rw [hlast, List.mem_singleton.mp hmem]

/-- The id that is read is the one that is offered. -/
theorem Offers.unique {disk : Disk} (hoffers : Offers driver sodium key disk node id)
    (h : Conveys driver contents) {id' : S}
    (hread : disk.readId node = .ok (some (driver.encoded id'))) : id = id' := by
  have heq := hoffers.readId.symm.trans hread
  have hid := congrArg driver.snapshotId (Option.some.inj (Except.ok.inj heq))
  rw [h.snapshotId_encoded, h.snapshotId_encoded] at hid
  exact Except.ok.inj hid

section
variable {record : List (S × V)} (hfiled : Filed driver contents sodium key record w)
  (h : Conveys driver contents)
include hfiled h

theorem Filed.entry_of_offers (hoffers : Offers driver sodium key w.disk node id) :
    ∃ v, record[node.toNat]? = some (id, v) := by
  obtain ⟨id', v, heq, hentry⟩ := hfiled.files.entry_of_readId hoffers.readId
  have hread := hoffers.readId
  rw [heq] at hread
  exact ⟨v, hoffers.unique h hread ▸ hentry⟩

omit hfiled in
theorem nodeToSnapshotId_offered (hoffers : Offers driver sodium key w.disk node id) :
    (nodeToSnapshotId driver node).Ends (fun r w' => r = .val id ∧ w' = w) w := by
  intro tr
  simp only [nodeToSnapshotId, decodeSnapshotId, callBackend, wp_bind, wp_getEncodedSnapshotId,
    hoffers.readId, bindPost, wp_readModify, wp_ofExcept, h.snapshotId_encoded, Result.ofExcept,
    and_self]

variable (hwilling : Willing driver contents)
include hwilling

/-- Handing a payload over, where the parent's snapshot is in the dataset, or no snapshot is. -/
theorem Filed.restorePayload_ends {v : V} {input : Bytes}
    (hleads : LeadsTo contents record node id v input)
    (hvacant : node = Node.initialValue → ∀ other, contents.held w.backend other = none)
    (hparent : node ≠ Node.initialValue → ∃ parent,
      Offers driver sodium key w.disk node.fenwickParent parent ∧
        (contents.held w.backend parent).isSome) :
    (restorePayload driver id node input).Ends (fun r _ => r = .val ()) w := by
  intro tr
  unfold LeadsTo at hleads
  unfold restorePayload
  split
  · next hroot =>
      rw [if_pos hroot] at hleads
      have hok := hwilling.restoreInitial id input w.backend hleads.1 (hvacant hroot)
      simp only [callBackend, wp_bind, wp_readModify, bindPost, hok, wp_ofExcept, true_and]
      rfl
  · next hroot =>
      rw [if_neg hroot] at hleads
      obtain ⟨parent, before, hentry, hdifference, -⟩ := hleads
      obtain ⟨parent', hoffers, hheld⟩ := hparent hroot
      obtain ⟨before', hentry'⟩ := hfiled.entry_of_offers h hoffers
      cases hentry.symm.trans hentry'
      rw [wp_bind]
      refine wp_post ?_ (nodeToSnapshotId_offered h hoffers tr)
      rintro r tr w ⟨rfl, rfl⟩
      have hok := hwilling.restoreDiff parent id input w.backend hdifference hheld
      simp only [callBackend, wp_bind, wp_readModify, bindPost, hok, wp_ofExcept, true_and]
      rfl

omit hfiled h hwilling in
/-- Passing on a payload that can be decrypted. -/
theorem decrypted_ends {f : Bytes → Repo β Unit}
    (hoffers : Offers driver sodium key w.disk node id)
    (hf : ∀ blob, w.disk.blobFile node = some blob →
      (f (revealed sodium key blob)).Ends (fun r _ => r = .val ()) w) :
    (decrypted sodium key node f).Ends (fun r _ => r = .val ()) w := by
  intro tr
  obtain ⟨blob, hblob, hdecrypts⟩ := hoffers.blob
  simp only [decrypted, createPayloadFdForReading, wp_bind, wp_look, id_eq, bindPost, hblob,
    wp_pure, true_and]
  cases key with
  | none => exact hf blob hblob _
  | some decryptedKeyPair =>
      simp only [withDecryptedInput, wp_bind]
      refine wp_post ?_ (hf blob hblob _)
      rintro r tr' w' rfl
      simp only [bindPost, hdecrypts decryptedKeyPair rfl]
      rfl

omit hfiled h in
theorem existsSnapshot_ends (id : S) :
    (existsSnapshot driver id).Ends (fun r w' => r = .val (contents.held w.backend id).isSome ∧
      contents.held w'.backend = contents.held w.backend) w := by
  intro tr
  obtain ⟨hok, hsame⟩ := hwilling.existsSnapshot id w.backend
  simp only [existsSnapshot, callBackend, wp_bind, wp_readModify, bindPost, hok, wp_ofExcept,
    Result.ofExcept, true_and]
  exact hsame

/-- Restoring a node whose parent's snapshot is in the dataset. The initial node is restored if no
snapshot is in the dataset, or skipped. -/
theorem Filed.restoreNode_ends {skipExisting : Bool}
    (hoffers : Offers driver sodium key w.disk node id)
    (hvacant : node = Node.initialValue → (∀ other, contents.held w.backend other = none) ∨
      skipExisting = true ∧ (contents.held w.backend id).isSome)
    (hparent : node ≠ Node.initialValue → ∃ parent,
      Offers driver sodium key w.disk node.fenwickParent parent ∧
        (contents.held w.backend parent).isSome) :
    (restoreNode driver sodium key skipExisting (fun _ => pure ()) node).Ends
      (fun r _ => r = .val ()) w := by
  intro tr
  rw [restoreNode, wp_bind]
  refine wp_post ?_ (nodeToSnapshotId_offered h hoffers tr)
  rintro r tr w ⟨rfl, rfl⟩
  rw [bindPost, wp_bind]
  refine wp_mono (fun _ _ _ => trivial) ?_ _
    (wp_and (existsSnapshot_ends hwilling id tr) (hfiled.wp_existsSnapshot h id))
  rintro r tr w' ⟨⟨rfl, hsame⟩, hdisk, hfiled', -⟩
  rw [← hdisk] at hoffers hparent
  rw [← hsame] at hvacant hparent ⊢
  obtain ⟨v, hentry⟩ := hfiled'.entry_of_offers h hoffers
  rw [bindPost]
  split
  · next hrestored =>
      rw [wp_bind]
      refine wp_post ?_ (decrypted_ends hoffers (fun blob hblob => ?_) tr)
      · rintro r tr w rfl
        rfl
      obtain ⟨dir, hdir, hfile⟩ := Option.bind_eq_some_iff.mp hblob
      obtain ⟨id', v', hentry'⟩ := hfiled'.files node dir hdir
      cases hentry.symm.trans hentry'.entry
      refine hfiled'.restorePayload_ends h hwilling (hentry'.blobFile blob hfile) (fun hroot => ?_)
        hparent
      refine (hvacant hroot).resolve_right fun hskips => ?_
      rw [hskips.1, hskips.2] at hrestored
      cases hrestored
  · rfl

end

/-- Restoring a node whose path is offered. -/
theorem Filed.restore_ends {record : List (S × V)}
    (hfiled : Filed driver contents sodium key record w) (h : Conveys driver contents)
    (hwilling : Willing driver contents) (env : Env) {repositoryParams : RepositoryParams}
    {password : Option Bytes}
    (hwith : DecryptsWith sodium repositoryParams.encryption password w.disk key)
    (hpath : ∀ m : Node, m.toNat ∈ fenwick.path node.toNat →
      ∃ id, Offers driver sodium key w.disk m id) {skipExisting : Bool}
    (hvacant : (∀ other, contents.held w.backend other = none) ∨ skipExisting = true ∧
      ∃ id, w.disk.readId Node.initialValue = .ok (some (driver.encoded id)) ∧
        (contents.held w.backend id).isSome) :
    (restore driver sodium env repositoryParams ⟨password, node, skipExisting⟩).Ends
      (fun r _ => r = .val ()) w := by
  have hloop : (nodesToRestore env node false >>= fun nodes =>
      forM nodes (restoreNode driver sodium key skipExisting fun _ => pure ()) :
        Repo β Unit).Ends (fun r _ => r = .val ()) w := by
    intro tr
    rw [wp_bind]
    refine wp_post ?_ (nodesToRestore_path node w tr)
    rintro r tr' w ⟨rfl, nodes, rfl, hnodes⟩
    -- The snapshot of the last node treated is in the dataset, for the next one to be based on.
    refine wp_forM (fun treated _ w' => w'.disk = w.disk ∧
      Filed driver contents sodium key record w' ∧ (treated = [] → w' = w) ∧
      ∀ last, treated.getLast? = some last → ∃ id, Offers driver sodium key w.disk last id ∧
        (contents.held w'.backend id).isSome) nodes ?_ (fun _ _ _ => rfl)
      ⟨rfl, hfiled, fun _ => rfl, nofun⟩
    rintro treated m rest rfl tr₁ w₁ ⟨hdisk, hfiled₁, hfirst, hlast⟩
    obtain ⟨id, hoffers⟩ := hpath m ((hnodes.mem_iff m).mp (by simp))
    -- The initial node, which needs an empty dataset, comes first if it comes at all.
    have hroot (hm : m = Node.initialValue) : treated = [] := by
      refine List.eq_nil_iff_forall_not_mem.mpr fun first hfirst => ?_
      have hlt := (List.pairwise_append.mp hnodes.ascending).2.2 first hfirst m List.mem_cons_self
      rw [hm] at hlt
      exact Nat.not_lt_zero _ hlt
    have hvacant₁ (hm : m = Node.initialValue) :
        (∀ other, contents.held w₁.backend other = none) ∨
          skipExisting = true ∧ (contents.held w₁.backend id).isSome := by
      rw [hfirst (hroot hm)]
      refine hvacant.imp_right fun ⟨hskip, id', hread, hheld⟩ => ⟨hskip, ?_⟩
      rw [hm] at hoffers
      rwa [hoffers.unique h hread]
    rw [← hdisk] at hoffers hlast
    -- That the call returns, and what it leaves then, have been shown separately.
    refine wp_mono (fun _ _ _ => trivial) ?_ _ (wp_and
      (hfiled₁.restoreNode_ends h hwilling hoffers hvacant₁
        (fun hm => hlast _ (hnodes.getLast_before hm)) tr₁)
      (hfiled₁.wp_restoreNode h skipExisting m))
    rintro r tr₂ w₂ ⟨rfl, hdisk₂, hfiled₂, id', v, -, hread, hheld⟩
    rw [← hoffers.unique h hread] at hheld
    refine ⟨hdisk₂.trans hdisk, hfiled₂, fun hnil => by simp at hnil, fun last heq => ?_⟩
    rw [List.getLast?_concat] at heq
    cases heq
    exact ⟨id, hdisk ▸ hoffers, Option.isSome_of_eq_some hheld⟩
  intro tr
  rw [restore, restoreNodes]
  unfold DecryptsWith at hwith
  split
  · next henc =>
      rw [if_pos henc] at hwith
      obtain ⟨bytes, slot, rfl, hslot, rfl⟩ := hwith
      rw [wp_bind]
      refine wp_post ?_ (decryptKeyPair_ends w tr)
      rintro r tr' w' ⟨rfl, rfl⟩
      rw [hslot]
      exact hloop tr'
  · next henc =>
      rw [if_neg henc] at hwith
      subst hwith
      exact hloop tr

end

/-! ## A sample history -/

section

/-- The key of the repository. -/
def sampleKey : DecryptedKeyPair := ⟨sampleKeyPair 1, .replicate 32 1⟩

/-- A new encrypted repository of a counter. -/
def sampleCounter : World Counter :=
  ⟨(sampleKeys [sampleKeyPair 1]).disk, sampleWorld.repositoryStructure, ⟨5, fun _ => none⟩⟩

def sampleCounterCommand : Repo Counter Unit :=
  snapshotCommand Counter.driver "repository" .transparent sampleEnv ⟨true, 0⟩

/-- The counter is set. -/
def setCounter (value : UInt64) (w : World Counter) : World Counter :=
  { w with backend := { w.backend with value := value } }

/-- Where the sample repository is restored. -/
def withoutSnapshots (w : World Counter) : World Counter :=
  { w with backend := ⟨0, fun _ => none⟩ }

/-- The first command stores the node 0. -/
def sampleFirst : Attempt Event (World Counter) Exn Unit :=
  .whole sampleCounterCommand sampleCounter

/-- The second command stores the node 1. -/
def sampleSecond : Attempt Event (World Counter) Exn Unit :=
  .whole sampleCounterCommand (setCounter 9 sampleFirst.state)

/-- The third command is killed. -/
def sampleThird : Attempt Event (World Counter) Exn Unit :=
  .cut sampleCounterCommand (setCounter 12 sampleSecond.state) 20

theorem sampleCounterCommand_mem :
    sampleCounterCommand ∈ snapshotCommandsOf Counter.driver Sodium.transparent true :=
  ⟨"repository", sampleEnv, ⟨true, 0⟩, rfl, rfl⟩

theorem created_sampleCounter : Created sampleCounter.disk := by
  obtain ⟨formatUuid, initargs, uuid, created, keys, h, hdisk⟩ := fresh_sampleWorld.created
  have hkeys : sampleCounter.disk = { sampleWorld.disk with keys := sampleCounter.disk.keys } := rfl
  exact ⟨formatUuid, initargs, uuid, created, _, h, by rw [hkeys, hdisk]⟩

theorem opens_sampleKey : EncryptionUtil.Opens (· = ·) [sampleKeyPair 1] sampleKey :=
  ⟨rfl, List.mem_singleton_self _, fun other hother _ => by rw [List.mem_singleton.mp hother]; rfl⟩

section
variable {w : World Counter} (hkeys : w.disk.keyPairs = .ok [sampleKeyPair 1])
include hkeys

theorem fits_sample : Fits (· = ·) true (some sampleKey) w.disk.keyPairs :=
  ⟨_, _, hkeys, rfl, opens_sampleKey⟩

theorem meanwhile_setCounter (value : UInt64) :
    Meanwhile Counter.contents (· = ·) true (some sampleKey) w (setCounter value w) :=
  ⟨.refl w, fits_sample hkeys, fun _ _ h => h, id⟩

theorem meanwhile_withoutSnapshots :
    Meanwhile Counter.contents (· = ·) true (some sampleKey) w (withoutSnapshots w) :=
  ⟨.refl w, fits_sample hkeys, fun _ _ h => h, fun _ => nofun⟩

theorem decryptsWith_sample :
    DecryptsWith Sodium.transparent true (some [0]) (withoutSnapshots w).disk (some sampleKey) :=
  ⟨[0], some (sampleKeyPair 1), rfl, Disk.firstKeyPair_of_keyPairs hkeys, by decide +kernel⟩

end

/-- The history up to the first command. -/
theorem sampleHistory : History (snapshotCommandsOf Counter.driver Sodium.transparent true)
    (Meanwhile Counter.contents (· = ·) true (some sampleKey)) (fun _ => True) sampleCounter
    ([] ++ [sampleFirst]) sampleFirst.state :=
  .snoc sampleFirst .nil ⟨.refl _, fits_sample (by decide +kernel), .refl _⟩ sampleCounterCommand_mem
    trivial

theorem meanwhile_second :
    Meanwhile Counter.contents (· = ·) true (some sampleKey) sampleFirst.state sampleSecond.start :=
  meanwhile_setCounter (by decide +kernel) 9

theorem meanwhile_third :
    Meanwhile Counter.contents (· = ·) true (some sampleKey) sampleSecond.state sampleThird.start :=
  meanwhile_setCounter (by decide +kernel) 12

end

/-!
## Histories

The record at the end of a history has an entry for every node that has been committed, and the
entry of a node is made when the node is. What is restored later is compared with that entry.
-/

section
variable {driver : BackendDriver β S} {contents : Contents β S V} {sodium : Sodium σ}
  {IsKeyPair : ByteArray' 32 → ByteArray' 32 → Prop} {InStep : σ → σ → Prop} {encryption : Bool}
  {key : Option DecryptedKeyPair}

/-- What a completed command has stored last. -/
theorem getElem?_of_commits {α : Type} {record record' : List α} {ls : List Event} {n : Node}
    (hcommits : Commits record.length ls record'.length) (hn : (committed ls).getLast? = some n)
    {x : α} (hlast : record'.getLast? = some x) : record'[n.toNat]? = some x := by
  obtain ⟨before, hls⟩ := List.getLast?_eq_some_iff.mp hn
  obtain ⟨earlier, rfl⟩ := List.getLast?_eq_some_iff.mp hlast
  rw [Commits, hls, List.length_append, List.length_singleton, List.range_succ, List.map_append,
    ← List.append_assoc] at hcommits
  have hlength : n.toNat = earlier.length := by
    simpa using (List.append_inj' hcommits rfl).2
  rw [hlength]
  exact List.getElem?_concat_length

/-- After a completed command, and whatever has been killed later, the record says what the command
has stored last. -/
theorem exists_stored_of_completed (h : Conveys driver contents)
    (hsodium : sodium.Correct IsKeyPair InStep) {w₀ w₁ w : World β} (h₀ : Created w₀.disk)
    (hgenuine : contents.Genuine w₀.backend) {earlier later : List (Attempt Event (World β) Exn Unit)}
    (hearlier : History (snapshotCommandsOf driver sodium encryption)
      (Meanwhile contents IsKeyPair encryption key) (fun _ => True) w₀ earlier w₁)
    {a : Attempt Event (World β) Exn Unit}
    (hstart : Meanwhile contents IsKeyPair encryption key w₁ a.start)
    (hprogram : a.program ∈ snapshotCommandsOf driver sodium encryption) (hcompleted : a.Completed)
    {n : Node} (hn : (committed a.labels).getLast? = some n)
    (hlater : History (snapshotCommandsOf driver sodium encryption)
      (Meanwhile contents IsKeyPair encryption key) (fun _ => True) a.state later w) :
    ∃ record id, Stored driver contents sodium key record w ∧
      record[n.toNat]? = some (id, contents.live a.start.backend) := by
  obtain ⟨record₁, -, -, hstored₁⟩ := (stored_of_created h₀ hgenuine).history h hsodium hearlier
  obtain ⟨record₂, -, hcommits, hstored₂, hlast⟩ := hstored₁.attempt h hsodium hstart hprogram
  obtain ⟨record, hgrows, -, hstored⟩ := hstored₂.history h hsodium hlater
  obtain ⟨id, hlast⟩ := hlast hcompleted
  exact ⟨record, id, hstored,
    getElem?_of_isPrefix hgrows (getElem?_of_commits hcommits hn hlast)⟩

/-- What restoring leaves, if it succeeds. -/
theorem Stored.held_of_restore {record : List (S × V)} {w w' : World β}
    (hstored : Stored driver contents sodium key record w) (h : Conveys driver contents)
    (hw' : Meanwhile contents IsKeyPair encryption key w w') (env : Env)
    {repositoryParams : RepositoryParams} (henc : repositoryParams.encryption = encryption)
    {password : Option Bytes} (hwith : DecryptsWith sodium encryption password w'.disk key)
    {skipExisting : Bool} {n : Node} {id : S} {v : V} (hentry : record[n.toNat]? = some (id, v))
    (hsucceeds : ((restore driver sodium env repositoryParams
      ⟨password, n, skipExisting⟩).run w').result = .val ()) :
    w'.disk.readId n = .ok (some (driver.encoded id)) ∧
      contents.held (stateAfter w' ((restore driver sodium env repositoryParams
        ⟨password, n, skipExisting⟩).run w').steps).backend id = some v := by
  rw [← henc] at hwith
  have hwp : (restore driver sodium env repositoryParams ⟨password, n, skipExisting⟩).wp
      (fun _ _ => True) _ [] w' :=
    (hstored.filed.meanwhile hw').wp_restore h env hwith n skipExisting
  obtain ⟨id', v', hentry', hread, hheld⟩ := onVal_iff.mp (wp_run_nil hwp) () hsucceeds
  cases hentry.symm.trans hentry'
  exact ⟨hread, hheld⟩

/-- In a history of snapshot commands, each of which may be killed after any step, a command has run
to the end, and has stored the node `n` last. Whenever `n` is restored from what the history leaves,
to whatever dataset, and restoring succeeds, then the dataset holds the snapshot of `n`, and that
contains what the dataset contained when the command was started. -/
theorem restore_lossless (h : Conveys driver contents) (hsodium : sodium.Correct IsKeyPair InStep)
    {w₀ w₁ w w' : World β} (h₀ : Created w₀.disk) (hgenuine : contents.Genuine w₀.backend)
    {earlier later : List (Attempt Event (World β) Exn Unit)}
    (hearlier : History (snapshotCommandsOf driver sodium encryption)
      (Meanwhile contents IsKeyPair encryption key) (fun _ => True) w₀ earlier w₁)
    {a : Attempt Event (World β) Exn Unit}
    (hstart : Meanwhile contents IsKeyPair encryption key w₁ a.start)
    (hprogram : a.program ∈ snapshotCommandsOf driver sodium encryption) (hcompleted : a.Completed)
    {n : Node} (hn : (committed a.labels).getLast? = some n)
    (hlater : History (snapshotCommandsOf driver sodium encryption)
      (Meanwhile contents IsKeyPair encryption key) (fun _ => True) a.state later w)
    (hw' : Meanwhile contents IsKeyPair encryption key w w') (env : Env)
    {repositoryParams : RepositoryParams} (henc : repositoryParams.encryption = encryption)
    {password : Option Bytes} (hwith : DecryptsWith sodium encryption password w'.disk key)
    (skipExisting : Bool)
    (hsucceeds : ((restore driver sodium env repositoryParams
      ⟨password, n, skipExisting⟩).run w').result = .val ()) :
    ∃ id, w'.disk.readId n = .ok (some (driver.encoded id)) ∧
      contents.held (stateAfter w' ((restore driver sodium env repositoryParams
        ⟨password, n, skipExisting⟩).run w').steps).backend id =
          some (contents.live a.start.backend) := by
  obtain ⟨record, id, hstored, hentry⟩ :=
    exists_stored_of_completed h hsodium h₀ hgenuine hearlier hstart hprogram hcompleted hn hlater
  exact ⟨id, hstored.held_of_restore h hw' env henc hwith hentry hsucceeds⟩

/-- The second command of a history whose third command has been killed. -/
theorem restore_lossless_counter :
    let w := withoutSnapshots sampleThird.state
    ∃ id, w.disk.readId ⟨1⟩ = .ok (some (Counter.driver.encoded id)) ∧
      Counter.contents.held (stateAfter w ((restore Counter.driver .transparent sampleEnv ⟨true, 0⟩
        ⟨some [0], ⟨1⟩, false⟩).run w).steps).backend id = some 9 := by
  intro w
  have hthird : History (snapshotCommandsOf Counter.driver Sodium.transparent true)
      (Meanwhile Counter.contents (· = ·) true (some sampleKey)) (fun _ => True) sampleSecond.state
      ([] ++ [sampleThird]) sampleThird.state :=
    .snoc sampleThird .nil meanwhile_third sampleCounterCommand_mem trivial
  have hkeys : sampleThird.state.disk.keyPairs = .ok [sampleKeyPair 1] := by decide +kernel
  have hlive : Counter.contents.live sampleSecond.start.backend = 9 := rfl
  have hcompleted : sampleSecond.Completed := ⟨rfl, (), by decide +kernel⟩
  have hcommitted : (committed sampleSecond.labels).getLast? = some ⟨1⟩ := by decide +kernel
  have hsucceeds : ((restore Counter.driver .transparent sampleEnv ⟨true, 0⟩
      ⟨some [0], ⟨1⟩, false⟩).run w).result = .val () := by decide +kernel
  obtain ⟨id, hread, hheld⟩ := @restore_lossless _ _ _ _ _ _ _ (· = ·) (· = ·) true (some sampleKey)
    Counter.conveys_driver Sodium.transparent_correct sampleCounter sampleFirst.state
    sampleThird.state w created_sampleCounter nofun _ ([] ++ [sampleThird]) sampleHistory sampleSecond
    meanwhile_second sampleCounterCommand_mem hcompleted ⟨1⟩ hcommitted hthird
    (meanwhile_withoutSnapshots hkeys) sampleEnv ⟨true, 0⟩ rfl (some [0]) (decryptsWith_sample hkeys)
    false hsucceeds
  exact ⟨id, hread, hheld.trans (congrArg some hlive)⟩

/-- Whichever commands of a history have been killed, every node that is still there, and that is
not about to be removed, can be restored. Where nothing goes wrong with the backend, restoring
succeeds, to a dataset without snapshots, and also, if existing ones are skipped, to one that holds
the snapshot of the initial node. -/
theorem restore_succeeds (h : Conveys driver contents) (hwilling : Willing driver contents)
    (hsodium : sodium.Correct IsKeyPair InStep) {w₀ w w' : World β} (h₀ : Created w₀.disk)
    (hgenuine : contents.Genuine w₀.backend) {as : List (Attempt Event (World β) Exn Unit)}
    (hist : History (snapshotCommandsOf driver sodium encryption)
      (Meanwhile contents IsKeyPair encryption key) (fun _ => True) w₀ as w)
    (hw' : Meanwhile contents IsKeyPair encryption key w w') {n : Node}
    (hpresent : n.toNat ∈ w'.disk.nodes)
    (hdying : n.toNat ∉ fenwick.dying (committed (Attempt.allLabels as)).length) (env : Env)
    {repositoryParams : RepositoryParams} (henc : repositoryParams.encryption = encryption)
    {password : Option Bytes} (hwith : DecryptsWith sodium encryption password w'.disk key)
    {skipExisting : Bool}
    (hvacant : (∀ other, contents.held w'.backend other = none) ∨ skipExisting = true ∧
      ∃ id, w'.disk.readId Node.initialValue = .ok (some (driver.encoded id)) ∧
        (contents.held w'.backend id).isSome) :
    ((restore driver sodium env repositoryParams ⟨password, n, skipExisting⟩).run w').result =
      .val () := by
  obtain ⟨record, -, hcommits, hstored⟩ := (stored_of_created h₀ hgenuine).history h hsodium hist
  have hcount : (committed (Attempt.allLabels as)).length = record.length := by
    simpa [Commits] using congrArg List.length hcommits
  rw [hcount] at hdying
  rw [← henc] at hwith
  have hdurable := hstored.durable.sameButKeys hw'.disk
  exact ends_iff_run.mp ((hstored.filed.meanwhile hw').restore_ends h hwilling env hwith
    (fun m hm => hdurable.offers hpresent hdying hm) hvacant)

/-- The node 1, when the third command of the history has been killed. -/
theorem restore_succeeds_counter :
    ((restore Counter.driver .transparent sampleEnv ⟨true, 0⟩ ⟨some [0], ⟨1⟩, false⟩).run
      (withoutSnapshots sampleThird.state)).result = .val () := by
  have hist : History (snapshotCommandsOf Counter.driver Sodium.transparent true)
      (Meanwhile Counter.contents (· = ·) true (some sampleKey)) (fun _ => True) sampleCounter
      ((([] ++ [sampleFirst]) ++ [sampleSecond]) ++ [sampleThird]) sampleThird.state :=
    .snoc sampleThird
      (.snoc sampleSecond sampleHistory meanwhile_second sampleCounterCommand_mem trivial)
      meanwhile_third sampleCounterCommand_mem trivial
  have hcount : (committed (Attempt.allLabels
      ((([] ++ [sampleFirst]) ++ [sampleSecond]) ++ [sampleThird]))).length = 2 := by
    decide +kernel
  have hkeys : sampleThird.state.disk.keyPairs = .ok [sampleKeyPair 1] := by decide +kernel
  exact @restore_succeeds _ _ _ _ _ _ _ (· = ·) (· = ·) true (some sampleKey)
    Counter.conveys_driver Counter.willing_driver Sodium.transparent_correct sampleCounter
    sampleThird.state _ created_sampleCounter nofun _ hist (meanwhile_withoutSnapshots hkeys) ⟨1⟩
    (Disk.toNat_mem_nodes.mpr (by decide +kernel))
    (by rw [hcount]; exact fenwick.pred_notMem_dying 2) sampleEnv ⟨true, 0⟩ rfl (some [0])
    (decryptsWith_sample hkeys) false (.inl fun _ => rfl)

end

end Controller

end Diffmonger
