import Diffmonger.Restore.Keys
import Diffmonger.Restore.Payloads

/-!
# Which restores hand over decrypted payloads only

`decryptKeyPair` returns a null pointer if the password does not open key slot 0, and `restore`
takes the null pointer to mean that the repository is not encrypted: the payloads are then handed
over as they are stored. A restore with such a password does as it should only if it comes to no
stored byte: all nodes are skipped, or have an empty payload, up to the end or to a node that cannot
be restored. If the password opens no slot at all, it has to stop before the first call of the
backend.
-/

namespace Diffmonger

open Prog RepositoryStructure EncryptionUtil DecryptedKeyPair

variable {β S σ : Type}

/-!
## What a password opens

Every slot counts, up to the first one that is missing, although `decryptKeyPair` only tries the
first. What a restore should do is stated with all slots, and what it does is compared with that.
-/

/-- `keyPair` is stored in a key slot. -/
def Disk.Slot (disk : Disk) (keyPair : KeyPair) : Prop :=
  ∃ keys i file, disk.keys = some keys ∧ i < maxKeySlots ∧ (∀ j < i, (keys j).isSome) ∧
    keys i = some file ∧ KeyPair.ofBytes file = .ok keyPair

/-- The password opens a key slot, with this result. -/
def Disk.Unlocks (sodium : Sodium σ) (password : Bytes) (disk : Disk)
    (decryptedKeyPair : DecryptedKeyPair) : Prop :=
  ∃ keyPair, disk.Slot keyPair ∧ unlock sodium password keyPair = some decryptedKeyPair

/-- The input is what the node's payload decrypts to, under a key pair that the password opens. -/
def Disk.Decrypts (sodium : Sodium σ) (password : Bytes) (disk : Disk) (node : Node)
    (input : Bytes) : Prop :=
  ∃ decryptedKeyPair blob, disk.Unlocks sodium password decryptedKeyPair ∧
    disk.blobFile node = some blob ∧ input = (decryptFromFd sodium decryptedKeyPair blob).bytes

/-- The password opens no key slot. -/
def Disk.Locked (sodium : Sodium σ) (password : Bytes) (disk : Disk) : Prop :=
  ∀ decryptedKeyPair, ¬ disk.Unlocks sodium password decryptedKeyPair

/-- The backend is handed decrypted payloads only; a password that opens no slot ends `p` before any
call of the backend. -/
structure RestoresDecrypted (sodium : Sodium σ) (password : Bytes) (p : Repo β Unit) (w : World β) :
    Prop where
  decrypts : ∀ call encoded input, .backend call ∈ labels (p.run w).steps →
    call.payload = some (encoded, input) → w.disk.Decrypts sodium password encoded.node input
  locked : w.disk.Locked sodium password →
    (∃ e, (p.run w).result = .exn e) ∧ (∀ call, .backend call ∉ labels (p.run w).steps) ∧
      (stateAfter w (p.run w).steps).backend = w.backend

/-- Reading slot 0 fails, or there is a slot 0 and the password opens it. -/
def FirstSlotOpens (sodium : Sodium σ) (password : Bytes) (keys : Option (ℕ → Option Bytes)) :
    Prop :=
  ∀ slot, Disk.firstKeyPair keys = .ok slot → (slot.bind (unlock sodium password)).isSome

theorem Disk.unlocks_of_first {sodium : Sodium σ} {password : Bytes} {disk : Disk}
    {slot : Option KeyPair} {decryptedKeyPair : DecryptedKeyPair}
    (hslot : firstKeyPair disk.keys = .ok slot)
    (hopen : slot.bind (unlock sodium password) = some decryptedKeyPair) :
    disk.Unlocks sodium password decryptedKeyPair := by
  unfold firstKeyPair at hslot
  split at hslot
  · cases hslot
  · next keys hkeys =>
      split at hslot
      · cases hslot
        cases hopen
      · next file hfile =>
          obtain ⟨keyPair, hparse, rfl⟩ := ok_of_map hslot
          exact ⟨keyPair, ⟨keys, 0, file, hkeys, by decide, nofun, hfile, hparse⟩, hopen⟩

namespace Controller

/-- The nodes to be restored cannot be told, or the id of the first one cannot be read. -/
def StopsAtOnce (disk : Disk) (nodes : Result Exn (List Node)) : Prop :=
  (∃ e, nodes = .exn e) ∨
    ∃ node rest, nodes = .val (node :: rest) ∧ ∀ encoded, disk.readId node ≠ .ok (some encoded)

/-- A restore that comes to no stored byte although it has no key, and to no call of the backend if
the password opens no slot at all. -/
structure ComesToNothing (driver : BackendDriver β S) (sodium : Sodium σ) (password : Bytes)
    (env : Env) (params : RestoreParams) (all : Bool) (uponEachSnapshot : S → Repo β Unit)
    (w : World β) : Prop where
  spares : ∀ nodes, nodesAhead env params.node all w = .val nodes →
    Spares driver params.skipExisting uponEachSnapshot nodes w
  stops : w.disk.Locked sodium password → StopsAtOnce w.disk (nodesAhead env params.node all w)

/-!
## The key of a restore

The key is decided before anything else is done, and then passed on. Without one, the restore goes
on as for a repository that is not encrypted.
-/

/-- After `decryptKeyPair` the process has only looked. -/
theorem wp_decryptKeyPair {sodium : Sodium σ} {password : Bytes} (w : World β) :
    (decryptKeyPair sodium password).wp (fun _ _ => True) (fun r tr w' =>
      (∀ event ∈ tr, event = .look) ∧ w' = w ∧
        r = .ofExcept ((Disk.firstKeyPair w.disk.keys).map fun slot =>
          slot.bind (unlock sodium password))) [] w := by
  have hemits : (decryptKeyPair sodium password : Repo β _).Emits (Kind (Eq .look)) := by
    rw [decryptKeyPair_eq]
    exact emits_withKeyPairs (kind_look rfl) (fun _ _ => emits_pure _) none
  have hstep : ∀ event (update : World β → World β) tr (w : World β),
      Kind (Eq .look) event update → (∀ e ∈ tr, e = .look) → ∀ e ∈ tr ++ [event], e = .look := by
    rintro _ _ tr _ ⟨rfl, -⟩ h e he
    rcases List.mem_append.mp he with he | he
    · exact h e he
    · exact List.mem_singleton.mp he
  have hwp := (decryptKeyPair_ends w).wp_of_emits (R := fun tr _ => ∀ event ∈ tr, event = .look)
    hemits hstep (List.forall_mem_nil _)
  exact wp_mono (fun _ _ _ => trivial) (fun _ _ _ h => ⟨h.1, h.2.2, h.2.1⟩) _ hwp

section
variable {driver : BackendDriver β S} {sodium : Sodium σ} {password : Bytes} {env : Env}
  {repositoryParams : RepositoryParams} {params : RestoreParams} {all : Bool}
  {uponEachSnapshot : S → Repo β Unit} {w : World β} {slot : Option KeyPair}

theorem restoreNodes_eq (henc : repositoryParams.encryption = true)
    (hpassword : params.password = some password) :
    restoreNodes driver sodium env repositoryParams params all uponEachSnapshot = (do
      let key ← decryptKeyPair sodium password
      let nodes ← nodesToRestore env params.node all
      forM nodes (restoreNode driver sodium key params.skipExisting uponEachSnapshot)) := by
  rw [restoreNodes, if_pos henc, hpassword]

variable (driver sodium env all) in
/-- Whatever the first slot comes to, that is the key of the restore. -/
theorem wp_restoreNodes_handsOver (henc : repositoryParams.encryption = true)
    (hpassword : params.password = some password)
    (hupon : ∀ id, (uponEachSnapshot id).Emits (Kind Event.HandsNothingOver))
    (hslot : Disk.firstKeyPair w.disk.keys = .ok slot) :
    (restoreNodes driver sodium env repositoryParams params all uponEachSnapshot).wp
      (fun _ _ => True)
      (fun _ => HandsOver sodium (slot.bind (unlock sodium password)) w.disk) [] w := by
  rw [restoreNodes_eq henc hpassword, wp_bind]
  refine wp_post (fun r tr w' hr => ?_) (wp_decryptKeyPair w)
  obtain ⟨hlooks, rfl, rfl⟩ := hr
  rw [hslot, Except.map, Result.ofExcept, bindPost]
  have hbefore : HandsOver sodium (slot.bind (unlock sodium password)) w'.disk tr w' :=
    ⟨rfl, fun call _ _ hmem _ => by cases hlooks _ hmem⟩
  exact wp_mono (fun _ _ _ => trivial) (fun _ _ _ h => h) _
    (hbefore.restoreNodes env params.node all hupon)

variable (driver sodium env all) in
/-- Without a key, what is handed over is decided by the nodes ahead. -/
theorem passes_restoreNodes_none (henc : repositoryParams.encryption = true)
    (hpassword : params.password = some password)
    (hupon : ∀ id, (uponEachSnapshot id).Emits (Kind Event.HandsNothingOver))
    (hslot : Disk.firstKeyPair w.disk.keys = .ok slot)
    (hclosed : slot.bind (unlock sodium password) = none) :
    (restoreNodes driver sodium env repositoryParams params all uponEachSnapshot).Passes
        HandsNoByteOver w ↔
      ∀ nodes, nodesAhead env params.node all w = .val nodes →
        Spares driver params.skipExisting uponEachSnapshot nodes w := by
  have hkey : (decryptKeyPair sodium password : Repo β _).Emits (Kind Event.HandsNothingOver) := by
    rw [decryptKeyPair_eq]
    exact emits_withKeyPairs (kind_look trivial) (fun _ _ => emits_pure _) none
  have hnodes : (nodesToRestore env params.node all : Repo β _).Emits
      (Kind Event.HandsNothingOver) := emits_nodesToRestore (kind_look trivial) env _ all
  obtain ⟨-, hstate, hresult⟩ := wp_run_nil (p := decryptKeyPair sodium password)
    (wp_decryptKeyPair w)
  obtain ⟨hstate', hresult'⟩ := ends_iff_run.mp (nodesToRestore_ends env params.node all w)
  rw [hslot, Except.map, hclosed, Result.ofExcept] at hresult
  rw [restoreNodes_eq henc hpassword, passes_bind, hresult, hstate,
    and_iff_right (passes_of_handsNothingOver hkey)]
  simp only [Result.val.injEq, forall_eq']
  rw [passes_bind, hresult', hstate', and_iff_right (passes_of_handsNothingOver hnodes)]
  exact forall_congr' fun nodes => imp_congr_right fun _ => passes_restoreNodes_iff hupon nodes

theorem not_stopsAtOnce_diverged {disk : Disk} : ¬ StopsAtOnce disk .diverged := by
  rintro (⟨e, h⟩ | ⟨node, rest, h, -⟩) <;> cases h

theorem not_stopsAtOnce_nil {disk : Disk} : ¬ StopsAtOnce disk (.val []) := by
  rintro (⟨e, h⟩ | ⟨node, rest, h, -⟩) <;> cases h

theorem stopsAtOnce_cons_iff {disk : Disk} {node : Node} {rest : List Node} :
    StopsAtOnce disk (.val (node :: rest)) ↔ ∀ encoded, disk.readId node ≠ .ok (some encoded) := by
  refine ⟨?_, fun h => .inr ⟨node, rest, rfl, h⟩⟩
  rintro (⟨e, h⟩ | ⟨node', rest', h, hread⟩)
  · cases h
  · cases h
    exact hread

theorem wp_restoreNode_decodes {key : Option DecryptedKeyPair} {skipExisting : Bool} {node : Node}
    {encoded : Encoded} (hread : w.disk.readId node = .ok (some encoded)) (tr : List Event) :
    (restoreNode driver sodium key skipExisting uponEachSnapshot node).wp (fun _ _ => True)
      (fun _ tr _ => .backend (.snapshotId encoded) ∈ tr) tr w := by
  refine wp_bind_mem ?_
  simp [nodeToSnapshotId, wp_getEncodedSnapshotId, hread, decodeSnapshotId, callBackend]

theorem wp_restoreNode_unreadable {key : Option DecryptedKeyPair} {skipExisting : Bool}
    {node : Node} (hread : ∀ encoded, w.disk.readId node ≠ .ok (some encoded)) {tr : List Event}
    (hlooks : ∀ event ∈ tr, event = .look) :
    (restoreNode driver sodium key skipExisting uponEachSnapshot node).wp (fun _ _ => True)
      (fun r tr w' => (∃ e, r = .exn e) ∧ (∀ event ∈ tr, event = .look) ∧ w' = w) tr w := by
  have hlooks' : ∀ event ∈ tr ++ [.look], event = .look :=
    List.forall_mem_append.mpr ⟨hlooks, by simp⟩
  simp only [restoreNode, nodeToSnapshotId, wp_bind, wp_getEncodedSnapshotId, true_and]
  rcases hfound : w.disk.readId node with e | _ | encoded
  · exact ⟨⟨e, rfl⟩, hlooks', rfl⟩
  · exact ⟨⟨_, rfl⟩, hlooks', rfl⟩
  · exact absurd hfound (hread encoded)

variable (driver sodium env all uponEachSnapshot) in
/-- Without a key, the restore ends before any call of the backend exactly if it stops at once. -/
theorem wp_restoreNodes_stops (henc : repositoryParams.encryption = true)
    (hpassword : params.password = some password)
    (hslot : Disk.firstKeyPair w.disk.keys = .ok slot)
    (hclosed : slot.bind (unlock sodium password) = none) :
    (restoreNodes driver sodium env repositoryParams params all uponEachSnapshot).wp
      (fun _ _ => True) (fun r tr w' =>
        (StopsAtOnce w.disk (nodesAhead env params.node all w) →
          (∃ e, r = .exn e) ∧ (∀ call, .backend call ∉ tr) ∧ w'.backend = w.backend) ∧
        ((∃ e, r = .exn e) → (∀ call, .backend call ∉ tr) →
          StopsAtOnce w.disk (nodesAhead env params.node all w))) [] w := by
  have hnocall {tr : List Event} (hlooks : ∀ event ∈ tr, event = .look) (call : BackendCall) :
      .backend call ∉ tr := fun hmem => by cases hlooks _ hmem
  -- Reading the slots and listing the nodes is only looking.
  rw [restoreNodes_eq henc hpassword, wp_bind]
  refine wp_post (fun r tr w' hr => ?_) (wp_decryptKeyPair w)
  obtain ⟨hlooks, rfl, rfl⟩ := hr
  rw [hslot, Except.map, hclosed, Result.ofExcept, bindPost, wp_bind]
  refine wp_mono (fun _ _ _ => trivial) (fun r tr w hr => ?_) _
    (wp_nodesToRestore env params.node all hlooks)
  obtain ⟨hlooks, rfl, rfl⟩ := hr
  cases nodesAhead env params.node all w with
  | exn e => exact ⟨fun _ => ⟨⟨e, rfl⟩, hnocall hlooks, rfl⟩, fun _ _ => .inl ⟨e, rfl⟩⟩
  | diverged =>
      refine ⟨fun h => absurd h not_stopsAtOnce_diverged, ?_⟩
      rintro ⟨e, h⟩
      cases h
  | val nodes =>
      cases nodes with
      | nil =>
          refine ⟨fun h => absurd h not_stopsAtOnce_nil, ?_⟩
          rintro ⟨e, h⟩
          cases h
      | cons node rest =>
          rw [bindPost, List.forM_cons, stopsAtOnce_cons_iff]
          by_cases hread : ∃ encoded, w.disk.readId node = .ok (some encoded)
          · -- the backend is asked to decode the id
            obtain ⟨encoded, hread⟩ := hread
            refine wp_mono (fun _ _ _ => trivial) (fun r tr w' hmem => ?_) _
              (wp_bind_mem (wp_restoreNode_decodes hread tr))
            exact ⟨fun h => absurd hread (h encoded), fun _ h => absurd hmem (h _)⟩
          · rw [not_exists] at hread
            rw [wp_bind]
            refine wp_post (fun r tr w' hr => ?_) (wp_restoreNode_unreadable hread hlooks)
            obtain ⟨⟨e, rfl⟩, hlooks, rfl⟩ := hr
            exact ⟨fun _ => ⟨⟨e, rfl⟩, hnocall hlooks, rfl⟩, fun _ _ => hread⟩

/-!
## Exactly when

Three cases, by what reading slot 0 comes to: it fails, it opens, or there is no key. Only in the
last one does it matter what is restored.
-/

/-- A password that opens slot 0 makes every restore hand over decrypted payloads. -/
theorem restoresDecrypted_of_opens (henc : repositoryParams.encryption = true)
    (hpassword : params.password = some password)
    (hupon : ∀ id, (uponEachSnapshot id).Emits (Kind Event.HandsNothingOver))
    (hslot : Disk.firstKeyPair w.disk.keys = .ok slot) {decryptedKeyPair : DecryptedKeyPair}
    (hopen : slot.bind (unlock sodium password) = some decryptedKeyPair) :
    RestoresDecrypted sodium password
      (restoreNodes driver sodium env repositoryParams params all uponEachSnapshot) w := by
  have hunlocks := Disk.unlocks_of_first hslot hopen
  have hhands := wp_run_nil
    (wp_restoreNodes_handsOver driver sodium env all henc hpassword hupon hslot)
  refine ⟨fun call encoded input hmem hpayload => ?_, fun hlocked => absurd hunlocks (hlocked _)⟩
  obtain ⟨blob, hblob, rfl⟩ := hhands.payloads call encoded input hmem hpayload
  rw [hopen]
  exact ⟨decryptedKeyPair, blob, hunlocks, hblob, rfl⟩

/-- If slot 0 cannot be read, the restore ends with that. -/
theorem restoresDecrypted_of_unreadable (henc : repositoryParams.encryption = true)
    (hpassword : params.password = some password) {e : Exn}
    (hslot : Disk.firstKeyPair w.disk.keys = .error e) :
    RestoresDecrypted sodium password
      (restoreNodes driver sodium env repositoryParams params all uponEachSnapshot) w := by
  have hwp : (restoreNodes driver sodium env repositoryParams params all uponEachSnapshot).wp
      (fun _ _ => True) (fun r tr w' => r = .exn e ∧ (∀ event ∈ tr, event = .look) ∧ w' = w)
      [] w := by
    rw [restoreNodes_eq henc hpassword, wp_bind]
    refine wp_post (fun r tr w' hr => ?_) (wp_decryptKeyPair w)
    obtain ⟨hlooks, rfl, rfl⟩ := hr
    rw [hslot]
    exact ⟨rfl, hlooks, rfl⟩
  obtain ⟨hresult, hlooks, hstate⟩ := wp_run_nil hwp
  have hnocall (call : BackendCall) : .backend call ∉ labels ((restoreNodes driver sodium env
      repositoryParams params all uponEachSnapshot).run w).steps := fun hmem => by
    cases hlooks _ hmem
  exact ⟨fun call _ _ hmem _ => absurd hmem (hnocall call),
    fun _ => ⟨⟨e, hresult⟩, hnocall, congrArg World.backend hstate⟩⟩

/-- A password that does not open slot 0: the payloads are handed over as they are stored. -/
theorem restoresDecrypted_none_iff (hshort : sodium.Shortens)
    (henc : repositoryParams.encryption = true) (hpassword : params.password = some password)
    (hupon : ∀ id, (uponEachSnapshot id).Emits (Kind Event.HandsNothingOver))
    (hslot : Disk.firstKeyPair w.disk.keys = .ok slot)
    (hclosed : slot.bind (unlock sodium password) = none) :
    RestoresDecrypted sodium password
        (restoreNodes driver sodium env repositoryParams params all uponEachSnapshot) w ↔
      ComesToNothing driver sodium password env params all uponEachSnapshot w := by
  -- What has been shown of a restore without a key, on this run.
  have hpasses := passes_restoreNodes_none driver sodium env all henc hpassword hupon hslot hclosed
  obtain ⟨hstops, hstopsAtOnce⟩ := wp_run_nil
    (wp_restoreNodes_stops driver sodium env all uponEachSnapshot henc hpassword hslot hclosed)
  have hhands := wp_run_nil
    (wp_restoreNodes_handsOver driver sodium env all henc hpassword hupon hslot)
  rw [hclosed] at hhands
  rw [passes_iff_run] at hpasses
  have hstored {call : BackendCall} {encoded : Encoded} {input : Bytes}
      (hmem : .backend call ∈ labels ((restoreNodes driver sodium env repositoryParams params all
        uponEachSnapshot).run w).steps) (hpayload : call.payload = some (encoded, input)) :
      w.disk.blobFile encoded.node = some input := by
    obtain ⟨blob, hblob, rfl⟩ := hhands.payloads call encoded input hmem hpayload
    exact hblob
  constructor
  · rintro ⟨hdecrypts, hlocked⟩
    refine ⟨hpasses.mp fun step hstep call encoded input hcall hpayload => ?_, fun h => ?_⟩
    · -- a stored payload that is its own decryption is empty
      have hmem : .backend call ∈ labels ((restoreNodes driver sodium env repositoryParams params
          all uponEachSnapshot).run w).steps := hcall ▸ List.mem_map_of_mem hstep
      obtain ⟨decryptedKeyPair, blob, -, hblob, hself⟩ := hdecrypts call encoded input hmem hpayload
      obtain rfl : input = blob := Option.some.inj ((hstored hmem hpayload).symm.trans hblob)
      exact eq_nil_of_decryptFromFd_self hshort hself.symm
    · obtain ⟨hexn, hnocall, -⟩ := hlocked h
      exact hstopsAtOnce hexn hnocall
  · rintro ⟨hspares, hstop⟩
    refine ⟨fun call encoded input hmem hpayload => ?_, fun hlocked => hstops (hstop hlocked)⟩
    obtain ⟨step, hstep, hcall⟩ := List.mem_map.mp hmem
    -- an empty payload decrypts to itself, whatever the key
    obtain rfl := hpasses.mpr hspares step hstep call encoded input hcall hpayload
    by_cases hlocked : w.disk.Locked sodium password
    · exact absurd hmem ((hstops (hstop hlocked)).2.1 call)
    · obtain ⟨decryptedKeyPair, hunlocks⟩ := not_forall_not.mp hlocked
      refine ⟨decryptedKeyPair, [], hunlocks, hstored hmem hpayload, ?_⟩
      unfold decryptFromFd
      split <;> rfl

/-- A restore hands over decrypted payloads only, and ends before any call of the backend if the
password opens no slot, exactly if the password opens slot 0, or reading slot 0 fails, or the
restore comes to no stored byte anyway. -/
theorem restoresDecrypted_iff (hshort : sodium.Shortens)
    (henc : repositoryParams.encryption = true) (hpassword : params.password = some password)
    (hupon : ∀ id, (uponEachSnapshot id).Emits (Kind Event.HandsNothingOver)) :
    RestoresDecrypted sodium password
        (restoreNodes driver sodium env repositoryParams params all uponEachSnapshot) w ↔
      FirstSlotOpens sodium password w.disk.keys ∨
        ComesToNothing driver sodium password env params all uponEachSnapshot w := by
  cases hslot : Disk.firstKeyPair w.disk.keys with
  | error e =>
      refine iff_of_true (restoresDecrypted_of_unreadable henc hpassword hslot) (.inl ?_)
      intro slot hslot'
      rw [hslot] at hslot'
      cases hslot'
  | ok slot =>
      have hfirst : FirstSlotOpens sodium password w.disk.keys ↔
          (slot.bind (unlock sodium password)).isSome := by
        simp only [FirstSlotOpens, hslot, Except.ok.injEq, forall_eq']
      rw [hfirst]
      cases hopen : slot.bind (unlock sodium password) with
      | some decryptedKeyPair =>
          exact iff_of_true (restoresDecrypted_of_opens henc hpassword hupon hslot hopen) (.inl rfl)
      | none =>
          rw [restoresDecrypted_none_iff hshort henc hpassword hupon hslot hopen]
          simp

end

/-! ## On fixed repositories -/

/-- A repository with the given key pairs and the node 0, whose payload is one byte. -/
def sampleEncrypted (keyPairs : List KeyPair) : World Unit :=
  { sampleWorld with
    disk := { sampleWorld.disk.setNode ⟨0⟩
        (some ⟨some (Encoded.plain ⟨0⟩).serialise, some [1]⟩) with
      keys := (sampleKeys keyPairs).disk.keys } }

/-- The password of the second slot, for a node that is skipped. -/
theorem restoresDecrypted_iff_skipped :
    RestoresDecrypted Sodium.transparent [0, 0]
      (restoreNodes (.constant []) Sodium.transparent sampleEnv ⟨true, 0⟩
        ⟨some [0, 0], ⟨0⟩, true⟩ false fun _ => pure ())
      (sampleEncrypted [sampleKeyPair 1, sampleKeyPair 2]) := by
  refine (restoresDecrypted_iff Sodium.transparent_shortens rfl rfl fun _ => emits_pure _).mpr
    (.inr ⟨fun nodes hnodes => ?_, fun hlocked => ?_⟩)
  · obtain rfl : [⟨0⟩] = nodes := Result.val.inj hnodes
    rintro id - found b hfound
    cases hfound
    exact fun _ => trivial
  · obtain ⟨decryptedKeyPair, hopen⟩ := Option.isSome_iff_exists.mp
      (show (unlock Sodium.transparent [0, 0] (sampleKeyPair 2)).isSome by decide +kernel)
    refine absurd ⟨sampleKeyPair 2, ⟨_, 1, _, rfl, by decide, ?_, rfl, by decide +kernel⟩, hopen⟩
      (hlocked decryptedKeyPair)
    intro j hj
    obtain rfl : j = 0 := Nat.lt_one_iff.mp hj
    rfl

/-- With a wrong password the encrypted payload is restored. -/
theorem wrong_password_not_restoresDecrypted :
    ¬ RestoresDecrypted Sodium.transparent [0, 0]
      (restore (.constant []) Sodium.transparent sampleEnv ⟨true, 0⟩ ⟨some [0, 0], ⟨0⟩, false⟩)
      (sampleEncrypted [sampleKeyPair 1]) := by
  intro h
  have hnothing := (restoresDecrypted_none_iff Sodium.transparent_shortens rfl rfl
    (fun _ => emits_pure _)
    (show Disk.firstKeyPair (sampleEncrypted [sampleKeyPair 1]).disk.keys =
      .ok (some (sampleKeyPair 1)) by decide +kernel) (by decide +kernel)).mp h
  have hempty := hnothing.spares [⟨0⟩] rfl (Encoded.plain ⟨0⟩) ⟨_, rfl, rfl⟩ true () rfl [1] rfl _
    (.initial rfl)
  cases hempty.1

end Controller

end Diffmonger
