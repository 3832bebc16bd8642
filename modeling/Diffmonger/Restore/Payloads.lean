import Diffmonger.Controller.Spec
import Diffmonger.Restore.Nodes
import Diffmonger.Lib.Trace

/-!
# The payloads that a restore hands over

`restore` hands the payload of each node over either as the blob is stored or, if it has a key, as
what the blob decrypts to. One invariant says so for both (`HandsOver`), and goes along with every
step from the first look at a node to the call of the backend.

How much is handed over without a key depends on what the backend answers, and on what the
repository holds: each node is skipped, or its blob goes to the backend, or the restore stops there.
`Spares` says that no stored byte goes to the backend, by recursion on the nodes ahead; that this is
exact (`passes_restoreNodes_iff`) is proved by taking the program apart into what each part does and
what follows where it has returned.
-/

namespace Diffmonger

open Prog RepositoryStructure EncryptionUtil

variable {β S σ : Type}

/-! ## Payloads -/

/-- The payload that a call hands over, with the id of its node. -/
def BackendCall.payload : BackendCall → Option (Encoded × Bytes)
  | restoreInitial encoded input | restoreDiff _ encoded input => some (encoded, input)
  | snapshotId _ | snapshot _ | existsSnapshot _ | removeSnapshot _ | initial _ | diff _ _
  | importCommand _ => none

/-- A step that changes nothing in the repository and hands no payload over. -/
def Event.HandsNothingOver : Event → Prop
  | look => True
  | backend call => call.payload = none
  | createTemporary | unlinkTemporaryId | unlinkTemporaryBlob | createBlob | writeBlob _
  | truncateTemporaryId | writeTemporaryId _ | rename _ | truncateBreadcrumb | writeBreadcrumb _
  | unlinkId _ | unlinkBlob _ | removeDirectory _ => False

theorem Event.HandsNothingOver.apply {event : Event} (h : event.HandsNothingOver) (disk : Disk) :
    event.apply disk = disk := by
  cases event with
  | look | backend _ => rfl
  | createTemporary | unlinkTemporaryId | unlinkTemporaryBlob | createBlob | writeBlob _
  | truncateTemporaryId | writeTemporaryId _ | rename _ | truncateBreadcrumb | writeBreadcrumb _
  | unlinkId _ | unlinkBlob _ | removeDirectory _ => exact h.elim

/-- What comes out of a blob: the blob itself without a key. -/
def plaintext (sodium : Sodium σ) : Option DecryptedKeyPair → Bytes → Bytes
  | some decryptedKeyPair, blob => (decryptFromFd sodium decryptedKeyPair blob).bytes
  | none, blob => blob

/-!
## The invariant

Nothing in a restore writes to the repository, so that a blob is the same whenever it is read; and a
payload is read from the blob in the step before it is handed over.
-/

namespace Controller

section
variable {driver : BackendDriver β S} {sodium : Sodium σ} {disk : Disk}
  {key : Option DecryptedKeyPair} {skipExisting : Bool} {uponEachSnapshot : S → Repo β Unit}

/-- The repository is as it was, and every payload handed over so far is what comes out of its
node's blob. -/
structure HandsOver (sodium : Sodium σ) (key : Option DecryptedKeyPair) (disk : Disk)
    (tr : List Event) (w : World β) : Prop where
  unchanged : w.disk = disk
  payloads : ∀ call encoded input, .backend call ∈ tr → call.payload = some (encoded, input) →
    ∃ blob, disk.blobFile encoded.node = some blob ∧ input = plaintext sodium key blob

section
variable {tr : List Event} {w : World β}

theorem HandsOver.step (h : HandsOver sodium key disk tr w) {event : Event}
    {update : World β → World β} (hk : Kind Event.HandsNothingOver event update) :
    HandsOver sodium key disk (tr ++ [event]) (update w) where
  unchanged := by rw [(hk.2 w).1, hk.1.apply, h.unchanged]
  payloads call encoded input hmem hpayload := by
    rcases List.mem_append.mp hmem with hmem | hmem
    · exact h.payloads call encoded input hmem hpayload
    · cases List.mem_singleton.mp hmem
      have hnone : call.payload = none := hk.1
      rw [hnone] at hpayload
      cases hpayload

theorem HandsOver.wp_of_emits (h : HandsOver sodium key disk tr w) {α : Type} {p : Repo β α}
    (hp : p.Emits (Kind Event.HandsNothingOver)) :
    p.wp (HandsOver sodium key disk) (fun _ => HandsOver sodium key disk) tr w :=
  Prog.wp_of_emits hp (fun _ _ _ _ hk h => h.step hk) h

/-- A call that hands over what comes out of its node's blob. -/
theorem HandsOver.handOver (h : HandsOver sodium key disk tr w) {call : BackendCall}
    {encoded : Encoded} {blob : Bytes} (method : β → Except Exn Unit × β)
    (hpayload : call.payload = some (encoded, plaintext sodium key blob))
    (hblob : disk.blobFile encoded.node = some blob) :
    (do let r ← callBackend call method; Prog.ofExcept r : Repo β Unit).wp
      (HandsOver sodium key disk) (fun _ => HandsOver sodium key disk) tr w := by
  simp only [callBackend, wp_bind, wp_readModify, bindPost, wp_ofExcept, and_self]
  refine ⟨h.unchanged, fun call' encoded' input' hmem hpayload' => ?_⟩
  rcases List.mem_append.mp hmem with hmem | hmem
  · exact h.payloads call' encoded' input' hmem hpayload'
  · cases List.mem_singleton.mp hmem
    rw [hpayload] at hpayload'
    cases hpayload'
    exact ⟨blob, hblob, rfl⟩

theorem HandsOver.restorePayload (h : HandsOver sodium key disk tr w) {id : S} {node : Node}
    (hid : driver.getNode id = node) {blob : Bytes} (hblob : disk.blobFile node = some blob) :
    (restorePayload driver id node (plaintext sodium key blob)).wp (HandsOver sodium key disk)
      (fun _ => HandsOver sodium key disk) tr w := by
  have hnode : disk.blobFile (driver.encoded id).node = some blob := by
    rwa [driver.node_encoded, hid]
  unfold Controller.restorePayload
  split
  · exact h.handOver _ rfl hnode
  · rw [wp_bind]
    refine wp_post (fun r tr' w' h' => ?_)
      (h.wp_of_emits (emits_nodeToSnapshotId driver _ trivial fun _ => rfl))
    cases r with
    | val parent => exact h'.handOver _ rfl hnode
    | exn _ => exact h'
    | diverged => exact h'

/-- With a key, the backend gets what comes out of the child that decrypts; without one, the blob
itself. -/
theorem HandsOver.decrypted (h : HandsOver sodium key disk tr w) {id : S} {node : Node}
    (hid : driver.getNode id = node) :
    (decrypted sodium key node (Controller.restorePayload driver id node)).wp
      (HandsOver sodium key disk) (fun _ => HandsOver sodium key disk) tr w := by
  have hlook : HandsOver sodium key disk (tr ++ [.look]) w :=
    h.step (show Kind Event.HandsNothingOver .look fun w => w from kind_look trivial)
  simp only [Controller.decrypted, createPayloadFdForReading, wp_bind, wp_look]
  refine ⟨hlook, ?_⟩
  rw [bindPost, id_eq]
  cases hblob : w.disk.blobFile node with
  | none => exact hlook
  | some blob =>
      rw [h.unchanged] at hblob
      have hrestore := hlook.restorePayload hid hblob
      cases key with
      | none => exact hrestore
      | some decryptedKeyPair =>
          -- the child may have failed, which changes nothing about what was handed over
          simp only [wp_pure, bindPost, withDecryptedInput, wp_bind]
          refine wp_post (fun r tr w h => ?_) hrestore
          cases r with
          | exn _ => exact h
          | diverged => exact h
          | val _ =>
              rw [bindPost]
              split <;> exact h

/-- A node that is skipped hands nothing over. -/
theorem HandsOver.restoreNode (h : HandsOver sodium key disk tr w)
    (hupon : ∀ id, (uponEachSnapshot id).Emits (Kind Event.HandsNothingOver)) (node : Node) :
    (restoreNode driver sodium key skipExisting uponEachSnapshot node).wp
      (HandsOver sodium key disk) (fun _ => HandsOver sodium key disk) tr w := by
  unfold Controller.restoreNode
  rw [wp_bind]
  refine wp_post (fun r tr w hr => ?_) ((nodeToSnapshotId_ends driver node w).wp_of_emits
    (emits_nodeToSnapshotId driver node trivial fun _ => rfl) (fun _ _ _ _ hk h => h.step hk) h)
  obtain ⟨h, -, hid⟩ := hr
  cases r with
  | exn _ => exact h
  | diverged => exact h
  | val id =>
    obtain ⟨encoded, hread, hdecode⟩ := (hid id).mp rfl
    have hnode : driver.getNode id = node :=
      (driver.getNode_snapshotId _ _ hdecode).trans (Disk.node_of_readId hread)
    rw [bindPost, wp_bind]
    refine wp_post (fun r tr w h => ?_)
      (h.wp_of_emits (emits_existsSnapshot driver id rfl))
    cases r with
    | exn _ => exact h
    | diverged => exact h
    | val found =>
      rw [bindPost]
      split
      · rw [wp_bind]
        refine wp_post (fun r tr w h => ?_) (h.decrypted hnode)
        cases r with
        | exn _ => exact h
        | diverged => exact h
        | val _ => exact h.wp_of_emits (hupon id)
      · exact h.wp_of_emits (hupon id)

end

/-- `restore` from the nodes on. -/
theorem HandsOver.restoreNodes {tr : List Event} {w : World β} (h : HandsOver sodium key disk tr w)
    (env : Env) (node : Node) (all : Bool)
    (hupon : ∀ id, (uponEachSnapshot id).Emits (Kind Event.HandsNothingOver)) :
    (do
      let nodes ← nodesToRestore env node all
      forM nodes (Controller.restoreNode driver sodium key skipExisting uponEachSnapshot) :
        Repo β Unit).wp
      (HandsOver sodium key disk) (fun _ => HandsOver sodium key disk) tr w := by
  rw [wp_bind]
  refine wp_post (fun r tr w h => ?_)
    (h.wp_of_emits (emits_nodesToRestore (kind_look trivial) env node all))
  cases r with
  | exn _ => exact h
  | diverged => exact h
  | val nodes =>
      refine wp_forM (fun _ => HandsOver sodium key disk) nodes
        (fun _ node _ _ tr w h => ?_) (fun _ _ h => h) h
      refine wp_post (fun r _ _ h => ?_) (h.restoreNode hupon node)
      cases r <;> exact h

end

end Controller

/-!
## A restore without a key

The rules of this section are equivalences, for a program followed by another one: what has to hold
of the first, and what of the second wherever the first has returned.
-/

/-- The snapshot id that is stored with a node. -/
def Disk.Names (driver : BackendDriver β S) (disk : Disk) (node : Node) (id : S) : Prop :=
  ∃ encoded, disk.readId node = .ok (some encoded) ∧ driver.snapshotId encoded = .ok id

/-- The method that is to take the payload of a node, if the ids it needs can be read. -/
inductive Disk.Receiver (driver : BackendDriver β S) (disk : Disk) (node : Node) (id : S) :
    (Bytes → β → Except Exn Unit × β) → Prop where
  | initial (hnode : node = Node.initialValue) : Receiver driver disk node id (driver.restoreInitial id)
  | diff (hnode : node ≠ Node.initialValue) {parent : S}
      (hparent : disk.Names driver node.fenwickParent parent) :
      Receiver driver disk node id (driver.restoreDiff parent id)

/-- With these nodes ahead of it in the state `w`, a restore without a key hands no stored byte
over: each node is skipped, or its payload is empty, up to the end or to a node that cannot be
restored. -/
def Spares (driver : BackendDriver β S) (skipExisting : Bool) (uponEachSnapshot : S → Repo β Unit) :
    List Node → World β → Prop
  | [], _ => True
  | node :: nodes, w => ∀ id, w.disk.Names driver node id →
      ∀ found b, driver.existsSnapshot id w.backend = (.ok found, b) →
      let goesOn (w : World β) : Prop := ((uponEachSnapshot id).run w).result = .val () →
        Spares driver skipExisting uponEachSnapshot nodes
          (stateAfter w ((uponEachSnapshot id).run w).steps)
      if found && skipExisting then goesOn { w with backend := b }
      else ∀ blob, w.disk.blobFile node = some blob →
        ∀ method, w.disk.Receiver driver node id method →
        blob = [] ∧ ∀ b', method [] b = (.ok (), b') → goesOn { w with backend := b' }

namespace Controller

/-- A step that hands no byte of a payload over. -/
def HandsNoByteOver (event : Event) (_ : World β) : Prop :=
  ∀ call encoded input, event = .backend call → call.payload = some (encoded, input) → input = []

theorem passes_of_handsNothingOver {α : Type} {p : Repo β α} {w : World β}
    (h : p.Emits (Kind Event.HandsNothingOver)) : p.Passes HandsNoByteOver w := by
  refine passes_of_emits (fun event update w hk call encoded input hcall hpayload => ?_) h
  have hnone : event.HandsNothingOver := hk.1
  rw [hcall] at hnone
  rw [show call.payload = none from hnone] at hpayload
  cases hpayload

section
variable {driver : BackendDriver β S} {sodium : Sodium σ} {skipExisting : Bool}
  {uponEachSnapshot : S → Repo β Unit} {w : World β}

/-- What follows a call that succeeds. -/
theorem passes_callBackend_bind {P : Event → World β → Prop} {ρ α : Type} {call : BackendCall}
    {method : β → Except Exn ρ × β} {k : ρ → Repo β α} :
    ((do let r ← callBackend call method; Prog.ofExcept r : Repo β ρ) >>= k).Passes P w ↔
      P (.backend call) { w with backend := (method w.backend).2 } ∧
        ∀ a b, method w.backend = (.ok a, b) → (k a).Passes P { w with backend := b } := by
  obtain ⟨r, b, hmethod⟩ : ∃ r b, method w.backend = (r, b) := ⟨_, _, rfl⟩
  have hcall : ((do let r ← callBackend call method; Prog.ofExcept r : Repo β ρ) >>= k).Passes P w ↔
      P (.backend call) { w with backend := b } ∧
        ((Prog.ofExcept r : Repo β ρ) >>= k).Passes P { w with backend := b } := by
    show P (.backend call) { w with backend := (method w.backend).2 } ∧
      ((Prog.ofExcept (method w.backend).1 : Repo β ρ) >>= k).Passes P
        { w with backend := (method w.backend).2 } ↔ _
    rw [hmethod]
  rw [hcall, hmethod]
  refine and_congr_right fun _ => ?_
  cases r with
  | error e =>
      refine ⟨fun _ a b heq => ?_, fun _ => trivial⟩
      cases heq
  | ok a =>
      refine ⟨fun h a' b' heq => ?_, fun h => h a b rfl⟩
      cases heq
      exact h

/-- What follows once the id of a node has been read. -/
theorem passes_nodeToSnapshotId_bind {α : Type} {node : Node} {k : S → Repo β α} :
    (nodeToSnapshotId driver node >>= k).Passes HandsNoByteOver w ↔
      ∀ id, w.disk.Names driver node id → (k id).Passes HandsNoByteOver w := by
  obtain ⟨hstate, hresult⟩ := ends_iff_run.mp (nodeToSnapshotId_ends driver node w)
  rw [passes_bind, hstate, and_iff_right]
  · exact forall_congr' fun id => imp_congr_left (hresult id)
  · exact passes_of_handsNothingOver (emits_nodeToSnapshotId driver node trivial fun _ => rfl)

theorem passes_existsSnapshot_bind {α : Type} {id : S} {k : Bool → Repo β α} :
    (existsSnapshot driver id >>= k).Passes HandsNoByteOver w ↔
      ∀ found b, driver.existsSnapshot id w.backend = (.ok found, b) →
        (k found).Passes HandsNoByteOver { w with backend := b } := by
  refine passes_callBackend_bind.trans (and_iff_right ?_)
  rintro call encoded input ⟨⟩ hpayload
  cases hpayload

/-- What follows once a payload has been handed over as it is stored. -/
theorem passes_restorePayload_bind {α : Type} {id : S} {node : Node} {input : Bytes}
    {k : Unit → Repo β α} :
    (restorePayload driver id node input >>= k).Passes HandsNoByteOver w ↔
      ∀ method, w.disk.Receiver driver node id method → input = [] ∧
        ∀ b, method input w.backend = (.ok (), b) →
          (k ()).Passes HandsNoByteOver { w with backend := b } := by
  have hcall {call : BackendCall} {encoded : Encoded}
      (hpayload : call.payload = some (encoded, input)) (w : World β) :
      HandsNoByteOver (.backend call) w ↔ input = [] := by
    refine ⟨fun h => h call encoded input rfl hpayload, ?_⟩
    rintro hempty call' encoded' input' ⟨⟩ hpayload'
    rw [hpayload] at hpayload'
    cases hpayload'
    exact hempty
  unfold restorePayload
  split
  · next hnode =>
      rw [passes_callBackend_bind, hcall rfl]
      refine ⟨fun h method hmethod => ?_, fun h => ?_⟩
      · cases hmethod with
        | initial _ => exact ⟨h.1, fun b => h.2 () b⟩
        | diff hne _ => exact absurd hnode hne
      · obtain ⟨hempty, hrest⟩ := h _ (.initial hnode)
        exact ⟨hempty, fun _ b => hrest b⟩
  · next hnode =>
      rw [bind_assoc, passes_nodeToSnapshotId_bind]
      refine ⟨fun h method hmethod => ?_, fun h parent hparent => ?_⟩
      · cases hmethod with
        | initial heq => exact absurd heq hnode
        | diff _ hparent =>
            obtain ⟨hempty, hrest⟩ := passes_callBackend_bind.mp (h _ hparent)
            exact ⟨(hcall rfl _).mp hempty, fun b => hrest () b⟩
      · obtain ⟨hempty, hrest⟩ := h _ (.diff hnode hparent)
        exact passes_callBackend_bind.mpr ⟨(hcall rfl _).mpr hempty, fun _ b => hrest b⟩

theorem passes_createPayloadFdForReading_bind {α : Type} {node : Node} {k : Bytes → Repo β α} :
    (createPayloadFdForReading node >>= k).Passes HandsNoByteOver w ↔
      ∀ blob, w.disk.blobFile node = some blob → (k blob).Passes HandsNoByteOver w := by
  have hends : (createPayloadFdForReading node : Repo β Bytes).Ends
      (fun r w' => w' = w ∧ ∀ blob, r = .val blob ↔ w.disk.blobFile node = some blob) w := by
    intro tr
    simp only [createPayloadFdForReading, wp_bind, wp_look, bindPost, true_and]
    cases hblob : w.disk.blobFile node with
    | none => simp [hblob]
    | some blob => simp [hblob]
  have hemits : (createPayloadFdForReading node : Repo β Bytes).Emits
      (Kind Event.HandsNothingOver) := by
    refine emits_bind ((emits_look _).mpr trivial) fun w => ?_
    split <;> trivial
  obtain ⟨hstate, hresult⟩ := ends_iff_run.mp hends
  rw [passes_bind, hstate, and_iff_right (passes_of_handsNothingOver hemits)]
  exact forall_congr' fun blob => imp_congr_left (hresult blob)

/-- What the turn of one node comes to, with `k` after it. -/
theorem passes_restoreNode_bind {node : Node} {k : Unit → Repo β Unit} :
    (restoreNode driver sodium none skipExisting uponEachSnapshot node >>= k).Passes
        HandsNoByteOver w ↔
      ∀ id, w.disk.Names driver node id →
        ∀ found b, driver.existsSnapshot id w.backend = (.ok found, b) →
        if found && skipExisting then
          (uponEachSnapshot id >>= k).Passes HandsNoByteOver { w with backend := b }
        else ∀ blob, w.disk.blobFile node = some blob →
          ∀ method, w.disk.Receiver driver node id method → blob = [] ∧
            ∀ b', method [] b = (.ok (), b') →
              (uponEachSnapshot id >>= k).Passes HandsNoByteOver { w with backend := b' } := by
  unfold restoreNode
  rw [bind_assoc, passes_nodeToSnapshotId_bind]
  refine forall_congr' fun id => imp_congr_right fun _ => ?_
  rw [bind_assoc, passes_existsSnapshot_bind]
  refine forall_congr' fun found => forall_congr' fun b => imp_congr_right fun _ => ?_
  by_cases hskip : found && skipExisting
  · have hnot : ¬ (!found || !skipExisting) = true := by simpa using hskip
    rw [if_pos hskip]
    simp only [if_neg hnot]
  · have hrestore : (!found || !skipExisting) = true := by simpa [imp_iff_not_or] using hskip
    rw [if_neg hskip]
    simp only [if_pos hrestore, decrypted, bind_assoc]
    rw [passes_createPayloadFdForReading_bind]
    refine forall_congr' fun blob => imp_congr_right fun _ => ?_
    rw [passes_restorePayload_bind]
    refine forall_congr' fun method => imp_congr_right fun _ => and_congr_right fun hempty => ?_
    rw [hempty]

/-- A restore without a key hands no stored byte over exactly if its nodes are spared. -/
theorem passes_restoreNodes_iff
    (hupon : ∀ id, (uponEachSnapshot id).Emits (Kind Event.HandsNothingOver)) (nodes : List Node) :
    (forM nodes (restoreNode driver sodium none skipExisting uponEachSnapshot) :
        Repo β Unit).Passes HandsNoByteOver w ↔
      Spares driver skipExisting uponEachSnapshot nodes w := by
  induction nodes generalizing w with
  | nil => exact Iff.rfl
  | cons node nodes ih =>
      -- what the caller does with the snapshot hands nothing over, and the other nodes follow
      have hgoesOn (id : S) (w : World β) :
          (uponEachSnapshot id >>= fun _ => forM nodes (restoreNode driver sodium none
              skipExisting uponEachSnapshot) : Repo β Unit).Passes HandsNoByteOver w ↔
            (((uponEachSnapshot id).run w).result = .val () →
              Spares driver skipExisting uponEachSnapshot nodes
                (stateAfter w ((uponEachSnapshot id).run w).steps)) := by
        rw [passes_bind, and_iff_right (passes_of_handsNothingOver (hupon id)), ← ih]
        exact ⟨fun h => h (), fun h _ => h⟩
      rw [List.forM_cons, passes_restoreNode_bind, Spares]
      simp only [hgoesOn]

end

/-!
## The nodes ahead

Which nodes are restored is decided before the first one is, by the repository and not by the
dataset.
-/

/-- The nodes that a restore goes through, as the repository stands. -/
def nodesAhead (env : Env) (node : Node) (all : Bool) (w : World β) : Result Exn (List Node) :=
  if all then
    match ((getNodesIncludingUntrusted env ⟨0⟩).run w).result with
    | .val nodes => .val (restorableNodes node nodes [])
    | .exn e => .exn e
    | .diverged => .diverged
  else .val (node.fenwickPathIncRoot.nodes.foldl (fun nodes value => emplace ⟨value⟩ nodes) [])

/-- Listing the nodes changes nothing. -/
theorem nodesToRestore_ends (env : Env) (node : Node) (all : Bool) (w : World β) :
    (nodesToRestore env node all).Ends (fun r w' => w' = w ∧ r = nodesAhead env node all w) w := by
  have hlisting : (getNodesIncludingUntrusted env ⟨0⟩).Ends (fun r w' => w' = w ∧
      r = ((getNodesIncludingUntrusted env ⟨0⟩).run w).result) w := by
    have hstays : (getNodesIncludingUntrusted env ⟨0⟩ : Repo β _).wp (fun _ w' => w' = w)
        (fun _ _ w' => w' = w) [] w := by
      refine wp_of_emits (C := fun _ update => update = id)
        (emits_getNodesIncludingUntrusted rfl env _) ?_ rfl
      rintro _ _ _ _ rfl rfl
      rfl
    exact ends_iff_run.mpr ⟨wp_run hstays, rfl⟩
  intro tr
  unfold nodesToRestore nodesAhead
  cases all with
  | false =>
      rw [if_neg Bool.false_ne_true, if_neg Bool.false_ne_true]
      simp only [wp_bind, wp_ofResult, show node.fenwickPathIncRoot.result = .val () from
        Tree.fenwickPathIncRoot_result _, bindPost, wp_pure]
      exact ⟨trivial, trivial⟩
  | true =>
      rw [if_pos rfl, if_pos rfl, wp_bind]
      refine wp_post ?_ (hlisting tr)
      rintro r tr' w' ⟨rfl, rfl⟩
      cases ((getNodesIncludingUntrusted env ⟨0⟩).run w').result with
      | val nodes => exact ⟨rfl, rfl⟩
      | exn e => exact ⟨rfl, rfl⟩
      | diverged => exact ⟨rfl, rfl⟩

theorem wp_nodesToRestore (env : Env) (node : Node) (all : Bool) {w : World β} {tr : List Event}
    (htr : ∀ event ∈ tr, event = .look) :
    (nodesToRestore env node all).wp (fun _ _ => True) (fun r tr w' =>
      (∀ event ∈ tr, event = .look) ∧ w' = w ∧ r = nodesAhead env node all w) tr w := by
  refine wp_mono (fun _ _ _ => trivial) (fun _ _ _ h => h) _
    ((nodesToRestore_ends env node all w).wp_of_emits (C := fun event _ => event = .look)
      (R := fun tr _ => ∀ event ∈ tr, event = .look) (emits_nodesToRestore rfl env node all) ?_ htr)
  rintro event _ tr _ rfl h
  exact List.forall_mem_append.mpr ⟨h, by simp⟩

end Controller

end Diffmonger
