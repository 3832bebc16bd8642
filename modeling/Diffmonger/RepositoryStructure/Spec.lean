import Diffmonger.RepositoryStructure

/-!
# What the methods of the repository do

One specification for each method of `RepositoryStructure`, so that the proofs about commands never
look into one. A method is described by the kind of steps it takes (`Kind`), which says what it
leaves alone at every moment, and by where it ends.

The first is closed under sequencing and needs no state; it gives the frame rule (`wp_of_prepares`,
`World.PreparedBy.wp_bind`), by which an invariant survives any program that only prepares the next
node. The second is an equation for the result and the world that is left. The rules for `commit`
and for the constructor are more detailed, since commands may be killed between any two of their
steps.
-/

namespace Diffmonger

open Prog

variable {β : Type}

/-!
## Kinds of steps

A kind says what a step does to the directory by its label alone. Whatever only takes steps of a
kind can be framed without being looked into.
-/

/-- A step labelled by an event of `E`, that does to the directory what the event says and keeps the
object's breadcrumb. -/
def Kind (E : Event → Prop) (event : Event) (update : World β → World β) : Prop :=
  E event ∧ ∀ w, (update w).disk = event.apply w.disk ∧
    (update w).repositoryStructure.breadcrumb = w.repositoryStructure.breadcrumb

namespace Event

/-- A step on the way to the next node: it leaves the directory alone but for the temporary
directory and for the directories of nodes of `D`, of which it only deletes. -/
def Prepares (D : Set ℕ) : Event → Prop
  | look | backend _ | createTemporary | unlinkTemporaryId | unlinkTemporaryBlob | createBlob
  | writeBlob _ | truncateTemporaryId | writeTemporaryId _ => True
  | unlinkId node | unlinkBlob node | removeDirectory node => node.toNat ∈ D
  | rename _ | truncateBreadcrumb | writeBreadcrumb _ => False

theorem Prepares.weaken {D : Set ℕ} {event : Event} (h : event.Prepares ∅) : event.Prepares D := by
  cases event with
  | look | backend _ | createTemporary | unlinkTemporaryId | unlinkTemporaryBlob | createBlob
  | writeBlob _ | truncateTemporaryId | writeTemporaryId _ => trivial
  | unlinkId _ | unlinkBlob _ | removeDirectory _ => exact absurd h (Set.notMem_empty _)
  | rename _ | truncateBreadcrumb | writeBreadcrumb _ => exact h

end Event

section
variable {E : Event → Prop} {α : Type}

theorem Kind.mono {E' : Event → Prop} (h : ∀ e, E e → E' e) {event : Event}
    {update : World β → World β} (hk : Kind E event update) : Kind E' event update :=
  ⟨h _ hk.1, hk.2⟩

@[simp] theorem emits_look (f : World β → α) : (look f).Emits (Kind E) ↔ E .look := by
  simp [look, Kind, Event.apply]

@[simp] theorem emits_perform (event : Event) :
    (perform event : Repo β Unit).Emits (Kind E) ↔ E event := by
  simp [perform, Kind]

theorem emits_performIf {event : Event} (h : E event) (needed : Bool) :
    (performIf needed event : Repo β Unit).Emits (Kind E) := by
  cases needed <;> simp [performIf, h]

theorem emits_remember {f : RepositoryStructure → RepositoryStructure}
    (hf : ∀ r, (f r).breadcrumb = r.breadcrumb) (hE : E .look) :
    (remember f : Repo β Unit).Emits (Kind E) := by
  simp [remember, Kind, Event.apply, hE, hf]

theorem emits_forEachNode {calls : Tree.Calls} {f : Node → Repo β Unit}
    (hf : ∀ x ∈ calls.nodes, (f ⟨x⟩).Emits (Kind E)) :
    (forEachNode calls f).Emits (Kind E) := by
  refine emits_bind ?_ fun _ => by simp
  generalize calls.nodes = l at hf
  induction l with
  | nil => trivial
  | cons x l ih =>
      rw [List.forM_cons]
      exact emits_bind (hf x (by simp)) fun _ => ih fun y hy => hf y (by simp [hy])

end

/-!
## Key slots

The loop over the key slots, for a visitor that has no effects, is a function of the files in them.
The slots are read up to the first one that is missing.
-/

namespace Disk

/-- What a visitor that only computes has captured once it has seen the key slots. -/
def visitKeyFiles {γ : Type} (f : γ → KeyPair → γ × Bool) (keys : ℕ → Option Bytes) :
    (slots i : ℕ) → γ → Except Exn γ
  | 0, _, captured => .ok captured
  | slots + 1, i, captured =>
    match keys i with
    | none => .ok captured
    | some file =>
      match KeyPair.ofBytes file with
      | .error e => .error e
      | .ok keyPair =>
        match f captured keyPair with
        | (captured, true) => .ok captured
        | (captured, false) => visitKeyFiles f keys slots (i + 1) captured

def visitKeyPairs {γ : Type} (f : γ → KeyPair → γ × Bool) (disk : Disk) (captured : γ) :
    Except Exn γ :=
  match disk.keys with
  | none => .error (.runtimeError "Invalid keys directory for repository")
  | some keys => visitKeyFiles f keys RepositoryStructure.maxKeySlots 0 captured

/-- The key pairs of the repository. -/
def keyPairs (disk : Disk) : Except Exn (List KeyPair) :=
  disk.visitKeyPairs (fun out keyPair => (out ++ [keyPair], false)) []

end Disk

/-!
## Frames

A process that has not committed anything yet has changed the temporary directory, deleted some
nodes, and nothing else. `World.PreparedBy` keeps the labels of the steps as well, from which it can
be told that none of them was a commit.
-/

namespace World

/-- `w` differs from `w₀` at most in the temporary directory, the dataset and what the process has
checked out, and in that nodes of `D` may have been deleted, wholly or in part. -/
structure Prepared (D : Set ℕ) (w₀ w : World β) : Prop where
  disk : w.disk.clear = w₀.disk.clear
  breadcrumb : w.repositoryStructure.breadcrumb = w₀.repositoryStructure.breadcrumb
  frame : ∀ node, node.toNat ∉ D → w.disk.snapshots node = w₀.disk.snapshots node
  mono : ∀ node, (w.disk.snapshots node).isSome → (w₀.disk.snapshots node).isSome

namespace Prepared

variable {D : Set ℕ} {w₀ w w' : World β}

theorem refl (D : Set ℕ) (w : World β) : Prepared D w w := ⟨rfl, rfl, fun _ _ => rfl, fun _ => id⟩

theorem trans (h : Prepared D w₀ w) (h' : Prepared D w w') : Prepared D w₀ w' :=
  ⟨h'.disk.trans h.disk, h'.breadcrumb.trans h.breadcrumb,
    fun node hD => (h'.frame node hD).trans (h.frame node hD),
    fun node hs => h.mono node (h'.mono node hs)⟩

theorem weaken {D' : Set ℕ} (h : Prepared D w₀ w) (hD : D ⊆ D') : Prepared D' w₀ w :=
  ⟨h.disk, h.breadcrumb, fun node hn => h.frame node fun hd => hn (hD hd), h.mono⟩

theorem breadcrumbFile (h : Prepared D w₀ w) : w.disk.breadcrumb = w₀.disk.breadcrumb := by
  have heq := congrArg Disk.breadcrumb h.disk
  exact heq

theorem initargs (h : Prepared D w₀ w) : w.disk.initargs = w₀.disk.initargs := by
  have heq := congrArg Disk.initargs h.disk
  exact heq

theorem keyPairs (h : Prepared D w₀ w) : w.disk.keyPairs = w₀.disk.keyPairs := by
  have heq := congrArg Disk.keys h.disk
  rw [Disk.keyPairs, Disk.visitKeyPairs, Disk.keyPairs, Disk.visitKeyPairs,
    show w.disk.keys = w₀.disk.keys from heq]

/-- If no node may be deleted, none is. -/
theorem snapshots (h : Prepared ∅ w₀ w) : w.disk.snapshots = w₀.disk.snapshots :=
  funext fun node => h.frame node (Set.notMem_empty _)

/-- A step that changes one directory of `snapshots`, of a node of `D`, and does not create it. -/
theorem setNode (h : Prepared D w₀ w) {node : Node} (hnode : node.toNat ∈ D) {dir : Option NodeDir}
    (hdir : dir.isSome → (w.disk.snapshots node).isSome)
    (hdisk : w'.disk = w.disk.setNode node dir)
    (hbread : w'.repositoryStructure.breadcrumb = w.repositoryStructure.breadcrumb) :
    Prepared D w₀ w' := by
  refine ⟨?_, hbread.trans h.breadcrumb, fun m hm => ?_, fun m hm => ?_⟩
  · rw [hdisk, ← h.disk]
    rfl
  · have hne : m ≠ node := fun heq => hm (heq ▸ hnode)
    rw [hdisk, Disk.setNode_of_ne _ hne, h.frame m hm]
  · rw [hdisk] at hm
    rcases eq_or_ne m node with rfl | hne
    · rw [Disk.setNode_self] at hm
      exact h.mono m (hdir hm)
    · rw [Disk.setNode_of_ne _ hne] at hm
      exact h.mono m hm

theorem step (h : Prepared D w₀ w) {event : Event} {update : World β → World β}
    (hk : Kind (Event.Prepares D) event update) : Prepared D w₀ (update w) := by
  obtain ⟨hE, hu⟩ := hk
  obtain ⟨hdisk, hbread⟩ := hu w
  cases event with
  | look | backend _ | createTemporary | unlinkTemporaryId | unlinkTemporaryBlob | createBlob
  | writeBlob _ | truncateTemporaryId | writeTemporaryId _ =>
      -- the directories of the nodes stay as they are
      have hsnap : (update w).disk.snapshots = w.disk.snapshots := by
        rw [hdisk]
        rfl
      refine ⟨?_, hbread.trans h.breadcrumb, by rw [hsnap]; exact h.frame,
        by rw [hsnap]; exact h.mono⟩
      rw [hdisk, ← h.disk]
      rfl
  | unlinkId node | unlinkBlob node => exact h.setNode hE (by simp) hdisk hbread
  | removeDirectory node => exact h.setNode hE (by simp) hdisk hbread
  | rename _ | truncateBreadcrumb | writeBreadcrumb _ => exact hE.elim

/-- The nodes that are left: none but those of `D` are missing. -/
theorem nodes (h : Prepared D w₀ w) :
    w₀.disk.nodes \ D ⊆ w.disk.nodes ∧ w.disk.nodes ⊆ w₀.disk.nodes := by
  constructor
  · rintro _ ⟨⟨node, rfl, hs⟩, hD⟩
    exact Disk.toNat_mem_nodes.mpr (h.frame node hD ▸ hs)
  · rintro _ ⟨node, rfl, hs⟩
    exact Disk.toNat_mem_nodes.mpr (h.mono node hs)

end Prepared

/-- The world `w₀` has been prepared by steps with the given labels. -/
structure PreparedBy (D : Set ℕ) (w₀ : World β) (events : List Event) (w : World β) : Prop where
  prepares : ∀ event ∈ events, event.Prepares D
  world : Prepared D w₀ w
  nil : events = [] → w = w₀

namespace PreparedBy

variable {D : Set ℕ} {w₀ w w' : World β} {events events' : List Event}

theorem refl (D : Set ℕ) (w : World β) : PreparedBy D w [] w :=
  ⟨by simp, .refl D w, fun _ => rfl⟩

theorem append (h : PreparedBy D w₀ events w) (h' : PreparedBy D w events' w') :
    PreparedBy D w₀ (events ++ events') w' := by
  refine ⟨List.forall_mem_append.mpr ⟨h.prepares, h'.prepares⟩, h.world.trans h'.world, ?_⟩
  intro hnil
  obtain ⟨h1, h2⟩ := List.append_eq_nil_iff.mp hnil
  exact (h'.nil h2).trans (h.nil h1)

theorem weaken (h : PreparedBy ∅ w₀ events w) : PreparedBy D w₀ events w :=
  ⟨fun event he => (h.prepares event he).weaken, h.world.weaken (Set.empty_subset D), h.nil⟩

/-- A step that only looks. -/
theorem look (D : Set ℕ) (w : World β) : PreparedBy D w [.look] w :=
  ⟨by simp [Event.Prepares], .refl D w, by simp⟩

theorem step {event : Event} {update : World β → World β} (h : PreparedBy D w₀ events w)
    (hk : Kind (Event.Prepares D) event update) : PreparedBy D w₀ (events ++ [event]) (update w) :=
  ⟨List.forall_mem_append.mpr ⟨h.prepares, by simpa using hk.1⟩, h.world.step hk, by simp⟩

end PreparedBy

end World

/-- The frame rule for programs that prepare the next node: at every moment, and at the end, the
world has been prepared by the steps taken. -/
theorem wp_of_prepares {α : Type} {D : Set ℕ} {p : Repo β α} (hp : p.Emits (Kind (Event.Prepares D)))
    {Q : Result Exn α → World β → Prop} {w : World β} (hQ : p.Ends Q w)
    {I : List Event → World β → Prop} {Q' : Result Exn α → List Event → World β → Prop}
    {tr : List Event}
    (hI : ∀ ls w', World.PreparedBy D w ls w' → I (tr ++ ls) w')
    (hend : ∀ ls w' r, World.PreparedBy D w ls w' → Q r w' → Q' r (tr ++ ls) w') :
    p.wp I Q' tr w := by
  have hframe : p.wp _ _ tr w :=
    hQ.wp_of_emits (R := fun tr' w' => ∃ ls, tr' = tr ++ ls ∧ World.PreparedBy D w ls w') hp
      (fun l u _ w' hk ⟨ls, htr, hw'⟩ => ⟨ls ++ [l], by rw [htr, List.append_assoc], hw'.step hk⟩)
      ⟨[], (List.append_nil tr).symm, .refl D w⟩
  refine wp_mono ?_ ?_ p hframe
  · rintro _ w' ⟨ls, rfl, hw'⟩
    exact hI ls w' hw'
  · rintro r _ w' ⟨⟨ls, rfl, hw'⟩, hr⟩
    exact hend ls w' r hw' hr

/-- The rule for a program that prepares the next node and is followed by another one, when the
world has been prepared since `w₀`. -/
theorem World.PreparedBy.wp_bind {α γ : Type} {D : Set ℕ} {w₀ w : World β} {ls tr : List Event}
    (h : World.PreparedBy D w₀ ls w) {p : Repo β γ} (hp : p.Emits (Kind (Event.Prepares D)))
    {P : γ → World β → Prop} (hP : p.Ends (fun r w' => ∀ a, r = .val a → P a w') w)
    {k : γ → Repo β α} {I : List Event → World β → Prop}
    {Q : Result Exn α → List Event → World β → Prop}
    (hI : ∀ ls w', World.PreparedBy D w₀ ls w' → I (tr ++ ls) w')
    (hend : ∀ ls w' r, World.PreparedBy D w₀ ls w' → (∀ a, r ≠ .val a) → Q r (tr ++ ls) w')
    (hk : ∀ a ls w', World.PreparedBy D w₀ ls w' → P a w' → (k a).wp I Q (tr ++ ls) w') :
    (p >>= k).wp I Q (tr ++ ls) w := by
  rw [Prog.wp_bind]
  refine wp_of_prepares hp hP (fun ls' w' hw' => ?_) fun ls' w' r hw' hr => ?_
  · rw [List.append_assoc]
    exact hI _ w' (h.append hw')
  · rw [List.append_assoc]
    cases r with
    | val a => exact hk a _ w' (h.append hw') (hr a rfl)
    | exn e => exact hend _ w' _ (h.append hw') (by simp)
    | diverged => exact hend _ w' _ (h.append hw') (by simp)

/-!
## The elementary steps

The worlds that single steps lead to, by name, so that specifications can be stated without writing
them out.
-/

/-- Take a step on the directory. -/
def World.apply (w : World β) (event : Event) : World β := { w with disk := event.apply w.disk }

/-- The world with another temporary directory. -/
def World.withTemporary (w : World β) (dir : Option NodeDir) : World β :=
  { w with disk := { w.disk with temporarySnapshot := dir } }

/-- The world of a process that has opened the repository. -/
def World.opened (w : World β) (repository : String) (args : Uuid × StringVector)
    (breadcrumb : Breadcrumb) : World β :=
  { w with repositoryStructure := ⟨repository, args.1, args.2, breadcrumb, false⟩ }

/-- The world once a breadcrumb has been written. -/
def World.recordBreadcrumb (w : World β) (breadcrumb : Breadcrumb) : World β :=
  { w.apply (.writeBreadcrumb breadcrumb) with
    repositoryStructure := { w.repositoryStructure with breadcrumb := breadcrumb } }

@[simp] theorem World.recordBreadcrumb_breadcrumb (w : World β) (breadcrumb : Breadcrumb) :
    (w.recordBreadcrumb breadcrumb).repositoryStructure.breadcrumb = breadcrumb := rfl

@[simp] theorem World.recordBreadcrumb_snapshots (w : World β) (breadcrumb : Breadcrumb) :
    (w.recordBreadcrumb breadcrumb).disk.snapshots = w.disk.snapshots := rfl

/-- The world without the node's directory. -/
def World.removeNode (w : World β) (node : Node) : World β :=
  { w with disk := w.disk.setNode node none }

section
variable {α : Type} {I : List Event → World β → Prop} {tr : List Event} {w : World β}

@[simp] theorem wp_look {Q : Result Exn α → List Event → World β → Prop} (f : World β → α) :
    (look f).wp I Q tr w ↔ I (tr ++ [.look]) w ∧ Q (.val (f w)) (tr ++ [.look]) w := Iff.rfl

@[simp] theorem wp_perform {Q : Result Exn Unit → List Event → World β → Prop} (event : Event) :
    (perform event).wp I Q tr w ↔
      I (tr ++ [event]) (w.apply event) ∧ Q (.val ()) (tr ++ [event]) (w.apply event) := Iff.rfl

@[simp] theorem wp_remember {Q : Result Exn Unit → List Event → World β → Prop}
    (f : RepositoryStructure → RepositoryStructure) :
    (remember f).wp I Q tr w ↔
      I (tr ++ [.look]) { w with repositoryStructure := f w.repositoryStructure } ∧
        Q (.val ()) (tr ++ [.look]) { w with repositoryStructure := f w.repositoryStructure } :=
  Iff.rfl

end

/-!
## Reading nodes

What a file says, if it is there and can be read: `Disk.readId`, `Disk.readBreadcrumb` and
`Disk.readInitargs` are what the rest of the development knows of the contents of files.
-/

namespace Disk

/-- The id of a node, or nothing if the node has no id file. -/
def readId (disk : Disk) (node : Node) : Except Exn (Option Encoded) :=
  match disk.idFile node with
  | none => .ok none
  | some bytes =>
    match Encoded.deserialise bytes with
    | .error e => .error e
    | .ok out =>
      if out.node = node then .ok (some out)
      else .error (.runtimeError "Node mismatch in repository: repository in invalid state")

theorem readId_of_none {disk : Disk} {node : Node} (h : disk.idFile node = none) :
    disk.readId node = .ok none := by
  rw [readId, h]

theorem readId_of_absent {disk : Disk} {node : Node} (h : disk.snapshots node = none) :
    disk.readId node = .ok none := readId_of_none (by rw [idFile, h]; rfl)

theorem readId_of_serialise {disk : Disk} {node : Node} {encoded : Encoded}
    (h : disk.idFile node = some encoded.serialise) (hnode : encoded.node = node) :
    disk.readId node = .ok (some encoded) := by
  rw [readId, h]
  simp [hnode]

/-- An id that has been read is the node's own. -/
theorem node_of_readId {disk : Disk} {node : Node} {encoded : Encoded}
    (h : disk.readId node = .ok (some encoded)) : encoded.node = node := by
  rw [readId] at h
  split at h
  · cases h
  · split at h
    · cases h
    · split at h
      next hnode => cases h; exact hnode
      next => cases h

theorem readId_eq_none {disk : Disk} {node : Node} :
    disk.readId node = .ok none ↔ disk.idFile node = none := by
  refine ⟨fun h => ?_, readId_of_none⟩
  cases hid : disk.idFile node with
  | none => rfl
  | some bytes =>
      rw [readId, hid] at h
      cases hout : Encoded.deserialise bytes with
      | error e => simp [hout] at h
      | ok out => by_cases hnode : out.node = node <;> simp [hout, hnode] at h

theorem isSome_idFile_of_readId {disk : Disk} {node : Node} {encoded : Encoded}
    (h : disk.readId node = .ok (some encoded)) : (disk.idFile node).isSome := by
  rw [Option.isSome_iff_ne_none]
  intro hid
  rw [readId_of_none hid] at h
  cases h

/-- What the breadcrumb file says. -/
def readBreadcrumb (disk : Disk) : Except Exn Breadcrumb :=
  RepositoryStructure.parseBreadcrumb disk.breadcrumb

@[simp] theorem readBreadcrumb_writeBreadcrumb (disk : Disk) (breadcrumb : Breadcrumb) :
    ((Event.writeBreadcrumb breadcrumb).apply disk).readBreadcrumb = .ok breadcrumb :=
  Breadcrumb.deserialise_serialise breadcrumb

/-- What the file `initargs` says. -/
def readInitargs (disk : Disk) (repository : String) : Except Exn (Uuid × StringVector) :=
  match disk.initargs with
  | none => .error (.systemError .ENOENT ("open (" ++ repository ++ "/initargs)"))
  | some bytes => RepositoryStructure.parseInitargs bytes

end Disk

namespace RepositoryStructure

section
variable {I : List Event → World β → Prop} {tr : List Event} {w : World β}

/-- The exception for a node without an id file. -/
def missing (w : World β) (node : Node) : Exn :=
  .systemError .ENOENT
    ("Could not read file (" ++ pathForNode w.repositoryStructure.repository node ++ "/id)")

@[simp] theorem wp_tryGetEncodedSnapshotId2
    {Q : Result Exn (Except Exn Encoded) → List Event → World β → Prop} (node : Node) :
    (tryGetEncodedSnapshotId2 node).wp I Q tr w ↔
      I (tr ++ [.look]) w ∧ Q (match w.disk.readId node with
        | .ok (some encoded) => .val (.ok encoded)
        | .ok none => .val (.error (missing w node))
        | .error e => .exn e) (tr ++ [.look]) w := by
  simp only [tryGetEncodedSnapshotId2, wp_bind, wp_look, Disk.readId, bindPost, id]
  refine and_congr_right fun _ => ?_
  cases w.disk.idFile node with
  | none => exact Iff.rfl
  | some bytes =>
      simp only [wp_bind, wp_ofExcept]
      cases Encoded.deserialise bytes with
      | error e => exact Iff.rfl
      | ok out =>
          by_cases hnode : out.node = node
          · simp only [Result.ofExcept, bindPost, hnode, ne_eq, not_true_eq_false, if_false, if_true]
            exact Iff.rfl
          · simp only [Result.ofExcept, bindPost, hnode, ne_eq, not_false_eq_true, if_true, if_false]
            exact Iff.rfl

@[simp] theorem wp_tryGetEncodedSnapshotId
    {Q : Result Exn (Option Encoded) → List Event → World β → Prop} (node : Node) :
    (tryGetEncodedSnapshotId node).wp I Q tr w ↔
      I (tr ++ [.look]) w ∧ Q (.ofExcept (w.disk.readId node)) (tr ++ [.look]) w := by
  simp only [tryGetEncodedSnapshotId, wp_bind, wp_tryGetEncodedSnapshotId2]
  refine and_congr_right fun _ => ?_
  rcases w.disk.readId node with _ | _ | _ <;> exact Iff.rfl

@[simp] theorem wp_getEncodedSnapshotId {Q : Result Exn Encoded → List Event → World β → Prop}
    (node : Node) :
    (getEncodedSnapshotId node).wp I Q tr w ↔
      I (tr ++ [.look]) w ∧ Q (match w.disk.readId node with
        | .ok (some encoded) => .val encoded
        | .ok none => .exn (missing w node)
        | .error e => .exn e) (tr ++ [.look]) w := by
  simp only [getEncodedSnapshotId, wp_bind, wp_tryGetEncodedSnapshotId2]
  refine and_congr_right fun _ => ?_
  rcases w.disk.readId node with _ | _ | _ <;> exact Iff.rfl

end

/-!
### Methods that only read

None of these takes any step but looks, so that they are of every kind that a look is of.
-/

theorem kind_look {E : Event → Prop} (h : E .look) : Kind E .look (id : World β → World β) :=
  ⟨h, fun _ => ⟨rfl, rfl⟩⟩

section
variable {C : Event → (World β → World β) → Prop} (hC : C .look id)
include hC

theorem emits_tryGetEncodedSnapshotId2 (node : Node) :
    (tryGetEncodedSnapshotId2 node : Repo β _).Emits C := by
  refine emits_bind ((emits_read ..).mpr hC) fun w => ?_
  split
  · simp
  · refine emits_bind (by simp) fun out => ?_
    split <;> simp

theorem emits_tryGetEncodedSnapshotId (node : Node) :
    (tryGetEncodedSnapshotId node : Repo β _).Emits C := by
  refine emits_bind (emits_tryGetEncodedSnapshotId2 hC node) fun r => ?_
  split <;> simp

theorem emits_getEncodedSnapshotId (node : Node) :
    (getEncodedSnapshotId node : Repo β _).Emits C := by
  refine emits_bind (emits_tryGetEncodedSnapshotId2 hC node) fun r => ?_
  split <;> simp

theorem emits_getNextSnapshotNodeLoop (fuel : ℕ) (prev : Node) :
    (getNextSnapshotNodeLoop fuel prev : Repo β _).Emits C := by
  induction fuel generalizing prev with
  | zero => simp [getNextSnapshotNodeLoop]
  | succ fuel ih =>
      refine emits_bind (emits_tryGetEncodedSnapshotId hC prev) fun r => ?_
      split
      · exact ih _
      · simp

theorem emits_getNextSnapshotNode (env : Env) : (getNextSnapshotNode env : Repo β _).Emits C :=
  emits_bind ((emits_read ..).mpr hC) fun _ => emits_getNextSnapshotNodeLoop hC _ _

theorem emits_existingNodes (values : List UInt64) : (existingNodes values : Repo β _).Emits C := by
  induction values with
  | nil => trivial
  | cons value rest ih =>
      exact emits_bind ((emits_read ..).mpr hC) fun _ => emits_bind ih fun _ => trivial

omit hC in
theorem emits_nodesUntil (last : Node) (fuel : ℕ) (node : Node) :
    (nodesUntil last fuel node : Repo β _).Emits C := by
  induction fuel generalizing node with
  | zero => trivial
  | succ fuel ih =>
      rw [nodesUntil]
      split
      · trivial
      · exact emits_bind trivial fun next => emits_bind (ih next) fun _ => trivial

theorem emits_getNodesIncludingUntrusted (env : Env) (limit : Node) :
    (getNodesIncludingUntrusted env limit : Repo β _).Emits C := by
  refine emits_bind ((emits_read ..).mpr hC) fun breadcrumb => ?_
  dsimp only
  split
  · trivial
  · refine emits_bind (emits_existingNodes hC _) fun alive => emits_bind trivial fun _ => ?_
    exact emits_bind (emits_getNextSnapshotNode hC env) fun next =>
      emits_bind (emits_nodesUntil _ _ _) fun _ => trivial

theorem emits_getLatestTrustedNode : (getLatestTrustedNode : Repo β _).Emits C :=
  emits_bind ((emits_read ..).mpr hC) fun _ => by simp

theorem emits_getRepositoryUuid : (getRepositoryUuid : Repo β _).Emits C := by
  refine emits_bind ((emits_read ..).mpr hC) fun w => ?_
  split
  · simp
  · exact emits_bind (by simp) fun _ => by simp

/-- The loop over the slots only looks, so that it is of the kind that the visitor is of. -/
theorem emits_withKeyPairs {γ : Type} {f : γ → KeyPair → Repo β (γ × Bool)}
    (hf : ∀ c keyPair, (f c keyPair).Emits C) (c : γ) : (withKeyPairs f c).Emits C := by
  refine emits_bind ((emits_read ..).mpr hC) fun keys => ?_
  split
  · simp
  · next files =>
      generalize maxKeySlots = slots
      suffices h : ∀ i c, (withKeyFilesLoop (fun c file => do
          f c (← ofExcept (KeyPair.ofBytes file))) files slots i c).Emits C from h 0 c
      induction slots with
      | zero => simp [withKeyFilesLoop]
      | succ slots ih =>
          intro i c
          rw [withKeyFilesLoop]
          split
          · simp
          · refine emits_bind (emits_bind (by simp) fun keyPair => hf _ _) fun ⟨c', stop⟩ => ?_
            cases stop with
            | true => trivial
            | false => exact ih _ _

theorem emits_readKeyPairs : (readKeyPairs : Repo β _).Emits C :=
  emits_withKeyPairs hC (fun _ _ => by simp) _

end

/-!
## The next node

The loop that looks for the next node starts at the first untrusted one. It is over at once if this
node has no id file, and otherwise asks for the same node again and again.
-/

section
variable {w : World β} {env : Env}

/-- If the first untrusted node is missing, it is the next one. -/
theorem getNextSnapshotNode_absent
    (h : w.disk.readId w.repositoryStructure.breadcrumb.untrustedBegin = .ok none) :
    (getNextSnapshotNode env).Ends (fun r w' => w' = w ∧
      (r = .val w.repositoryStructure.breadcrumb.untrustedBegin ∨ r = .diverged)) w := by
  intro tr
  cases hfuel : env.fuel with
  | zero => simp [getNextSnapshotNode, getBreadcrumb, hfuel, getNextSnapshotNodeLoop]
  | succ fuel =>
      simp [getNextSnapshotNode, getBreadcrumb, hfuel, getNextSnapshotNodeLoop, h, Result.ofExcept]

theorem getNextSnapshotNodeLoop_present {node : Node} {encoded : Encoded}
    (h : w.disk.readId node = .ok (some encoded)) (fuel : ℕ) :
    (getNextSnapshotNodeLoop fuel node).Ends (fun r w' => w' = w ∧ r = .diverged) w := by
  intro tr
  induction fuel generalizing tr with
  | zero => exact ⟨rfl, rfl⟩
  | succ fuel ih =>
      -- the node that is read is the one looked at before
      simpa [getNextSnapshotNodeLoop, h, Result.ofExcept, Disk.node_of_readId h] using ih _

/-- If the first untrusted node is present, the loop never gets past it. -/
theorem getNextSnapshotNode_present {encoded : Encoded}
    (h : w.disk.readId w.repositoryStructure.breadcrumb.untrustedBegin = .ok (some encoded)) :
    (getNextSnapshotNode env).Ends (fun r w' => w' = w ∧ r = .diverged) w := by
  intro tr
  simpa [getNextSnapshotNode, getBreadcrumb] using getNextSnapshotNodeLoop_present h env.fuel _

/-- If the first untrusted node has no id file, a single iteration is enough. -/
theorem getNextSnapshotNode_free
    (hid : w.disk.idFile w.repositoryStructure.breadcrumb.untrustedBegin = none)
    (hfuel : 0 < env.fuel) :
    (getNextSnapshotNode env).Ends
      (fun r w' => w' = w ∧ r = .val w.repositoryStructure.breadcrumb.untrustedBegin) w := by
  intro tr
  obtain ⟨fuel, hsucc⟩ := Nat.exists_eq_succ_of_ne_zero hfuel.ne'
  simp [getNextSnapshotNode, getBreadcrumb, hsucc, getNextSnapshotNodeLoop,
    Disk.readId_of_none hid, Result.ofExcept]

/-- If it has one, whatever is in it, nothing is returned. -/
theorem getNextSnapshotNode_stored
    (hid : (w.disk.idFile w.repositoryStructure.breadcrumb.untrustedBegin).isSome) :
    (getNextSnapshotNode env).Ends (fun r _ => ∀ node, r ≠ .val node) w := by
  intro tr
  rcases hread : w.disk.readId w.repositoryStructure.breadcrumb.untrustedBegin with e | found
  · cases hfuel : env.fuel with
    | zero => simp [getNextSnapshotNode, getBreadcrumb, hfuel, getNextSnapshotNodeLoop]
    | succ fuel =>
        simp [getNextSnapshotNode, getBreadcrumb, hfuel, getNextSnapshotNodeLoop, hread,
          Result.ofExcept]
  · cases found with
    | none =>
        rw [Disk.readId_eq_none.mp hread] at hid
        cases hid
    | some encoded =>
        refine wp_post ?_ (getNextSnapshotNode_present hread tr)
        rintro r tr' w' ⟨-, rfl⟩ node hnode
        cases hnode

end

/-! ## Deleting nodes -/

theorem emits_deleteNode {D : Set ℕ} {node : Node} (env : Env) (hnode : node.toNat ∈ D) :
    (deleteNode env node : Repo β _).Emits (Kind (Event.Prepares D)) := by
  refine emits_bind (by simp [Event.Prepares]) fun dir => ?_
  split
  · simp
  · refine emits_bind ?_ fun _ => (emits_perform _).mpr hnode
    unfold unlinkFiles
    split
    · exact emits_bind (emits_performIf hnode _) fun _ => emits_performIf hnode _
    · exact emits_bind (emits_performIf hnode _) fun _ => emits_performIf hnode _

theorem unlinkFiles_ends (env : Env) (node : Node) (dir : NodeDir) (w : World β) :
    (unlinkFiles env node dir).Ends
      (fun r w' => r = .val () ∧ w'.removeNode node = w.removeNode node) w := by
  intro tr
  have hunlink (w : World β) {event : Event}
      (h : event = .unlinkId node ∨ event = .unlinkBlob node) :
      (w.apply event).removeNode node = w.removeNode node := by
    rcases h with rfl | rfl <;>
      simp [World.apply, World.removeNode, Event.apply, Disk.setNode]
  unfold unlinkFiles performIf
  split <;> split <;> split <;> simp [hunlink]

theorem deleteNode_ends (env : Env) (node : Node) (w : World β) :
    (deleteNode env node).Ends (fun r w' => r = .val () ∧ w' = w.removeNode node) w := by
  intro tr
  simp only [deleteNode, wp_bind, wp_look, bindPost, true_and]
  split
  · next h =>
      refine ⟨rfl, ?_⟩
      rw [World.removeNode, Disk.setNode, ← h, Function.update_eq_self]
  · next dir h =>
      rw [wp_bind]
      refine wp_post ?_ (unlinkFiles_ends env node dir w _)
      rintro r tr' w' ⟨rfl, hw'⟩
      exact ⟨trivial, rfl, hw'⟩

/-- The world without the nodes with the given values. -/
def removeNodes (w : World β) (values : List UInt64) : World β :=
  { w with disk := { w.disk with
      snapshots := fun node => if node.value ∈ values then none else w.disk.snapshots node } }

theorem removeNodes_nil (w : World β) : removeNodes w [] = w := by simp [removeNodes]

theorem removeNode_removeNodes (w : World β) (values : List UInt64) (x : UInt64) :
    (removeNodes w values).removeNode ⟨x⟩ = removeNodes w (values ++ [x]) := by
  simp only [removeNodes, World.removeNode, Disk.setNode, List.mem_append, List.mem_singleton]
  congr 2
  funext node
  rcases eq_or_ne node ⟨x⟩ with rfl | hne
  · simp
  · have hvalue : node.value ≠ x := fun h => hne (by rw [← h])
    rw [Function.update_of_ne hne]
    simp [hvalue]

/-- Calling a functor that deletes a node on each of several nodes. -/
theorem forEachNode_ends {calls : Tree.Calls} {f : Node → Repo β Unit}
    (hf : ∀ node w, (f node).Ends (fun r w' => r = .val () ∧ w' = w.removeNode node) w)
    (w : World β) :
    (forEachNode calls f).Ends
      (fun r w' => r = calls.result ∧ w' = removeNodes w calls.nodes) w := by
  intro tr
  rw [forEachNode, wp_bind]
  refine wp_forM (fun treated _ w' => w' = removeNodes w treated) calls.nodes ?_ ?_
    (removeNodes_nil w).symm
  · rintro treated x rest - tr' w' rfl
    refine wp_post ?_ (hf ⟨x⟩ _ tr')
    rintro r tr'' w'' ⟨rfl, rfl⟩
    exact removeNode_removeNodes w treated x
  · rintro tr' w' rfl
    exact ⟨rfl, rfl⟩

/-!
## Storing a node

The temporary directory is emptied and checked out, the payload is written, then the id; and then
the directory is renamed. Every step before the rename leaves the node invisible.
-/

theorem emits_checkOutTemporarySnapshot {D : Set ℕ} :
    (checkOutTemporarySnapshot : Repo β _).Emits (Kind (Event.Prepares D)) := by
  refine emits_bind ((emits_look _).mpr trivial) fun checkedOut => ?_
  split
  · trivial
  · refine emits_bind ((emits_look _).mpr trivial) fun temporary => emits_bind ?_ fun _ =>
      emits_bind ((emits_perform _).mpr trivial) fun _ => emits_remember (fun _ => rfl) trivial
    cases temporary with
    | none => exact (emits_perform _).mpr trivial
    | some dir => exact emits_bind (emits_performIf trivial _) fun _ => emits_performIf trivial _

/-- What the blob that was last created holds, by the labels of the steps taken. -/
def payload (events : List Event) : Bytes :=
  events.foldl (fun bytes event => match event with
    | .createBlob => []
    | .writeBlob chunk => bytes ++ chunk
    | _ => bytes) []

theorem payload_append_singleton (events : List Event) (event : Event) :
    payload (events ++ [event]) = match event with
      | .createBlob => []
      | .writeBlob chunk => payload events ++ chunk
      | _ => payload events := by
  rw [payload, List.foldl_append]
  rfl

theorem emptyTemporary_ends (w : World β) :
    (emptyTemporary w.disk.temporarySnapshot).Ends
      (fun r w' => r = .val () ∧ w' = w.withTemporary (some ⟨none, none⟩)) w := by
  intro tr
  cases h : w.disk.temporarySnapshot with
  | none => simp [emptyTemporary, World.apply, Event.apply, World.withTemporary]
  | some dir =>
      have hsame : w.withTemporary (some dir) = w := by rw [World.withTemporary, ← h]
      obtain ⟨id, blob⟩ := dir
      cases id <;> cases blob
      · exact ⟨rfl, hsame.symm⟩
      all_goals
        simp [emptyTemporary, performIf, World.apply, Event.apply, Disk.setTemporary, h,
          World.withTemporary]

/-- The temporary snapshot that is checked out has no id and an empty blob. -/
theorem wp_checkOutTemporarySnapshot (tr : List Event) (w : World β) :
    (checkOutTemporarySnapshot : Repo β Unit).wp (fun _ _ => True)
      (fun r tr' w' => r = .val () → w'.disk.temporarySnapshot = some ⟨none, some []⟩ ∧
        payload tr' = [] ∧ w'.disk.keyPairs = w.disk.keyPairs ∧ w'.backend = w.backend) tr w := by
  simp only [checkOutTemporarySnapshot, wp_bind, wp_look, bindPost, true_and]
  split
  · intro h
    cases h
  · simp only [wp_bind, wp_look, bindPost, true_and]
    refine wp_post ?_ (emptyTemporary_ends w _)
    rintro r tr' w' ⟨rfl, rfl⟩
    simp only [bindPost, wp_bind, wp_perform, wp_remember, true_and]
    exact fun _ => ⟨rfl, by simp [payload], rfl, rfl⟩

/-- The steps of `commit` from the rename on. -/
def commitRename (encoded : Encoded) : Repo β Unit := do
  perform (.rename encoded.node)
  let next ← ofExcept encoded.node.next
  writeBreadcrumb ⟨next, encoded.timestamp⟩

/-- The temporary directory with its id written. -/
def withId (encoded : Encoded) (dir : NodeDir) : NodeDir := { dir with id := some encoded.serialise }

/-- The labels of the steps of `commit` before the rename. -/
def commitLabels (encoded : Encoded) : List Event :=
  [.look, .look, .truncateTemporaryId, .writeTemporaryId encoded.serialise, .look]

section
variable {I : List Event → World β → Prop} {Q : Result Exn Unit → List Event → World β → Prop}
  {tr : List Event} {w : World β}

/-- Nothing is in the way of renaming the temporary directory to the node's. -/
def RenameFree (w : World β) (node : Node) : Prop :=
  w.disk.snapshots node = none ∨ w.disk.snapshots node = some ⟨none, none⟩

theorem wp_renameTemporary (node : Node) (hlook : I (tr ++ [.look]) w)
    (hfree : RenameFree w node → (perform (.rename node)).wp I Q (tr ++ [.look]) w)
    (hbusy : ∀ what, Q (.exn (.systemError (.other 39) what)) (tr ++ [.look]) w) :
    (renameTemporary node).wp I Q tr w := by
  simp only [renameTemporary, wp_bind, wp_look, bindPost, id]
  refine ⟨hlook, ?_⟩
  split
  · next h => exact hfree (.inl h)
  · next h => exact hfree (.inr h)
  · exact hbusy _

@[simp] theorem wp_writeBreadcrumb (breadcrumb : Breadcrumb) :
    (writeBreadcrumb breadcrumb).wp I Q tr w ↔
      I (tr ++ [.truncateBreadcrumb]) (w.apply .truncateBreadcrumb) ∧
        I (tr ++ [.truncateBreadcrumb, .writeBreadcrumb breadcrumb])
          ((w.apply .truncateBreadcrumb).recordBreadcrumb breadcrumb) ∧
        Q (.val ()) (tr ++ [.truncateBreadcrumb, .writeBreadcrumb breadcrumb])
          ((w.apply .truncateBreadcrumb).recordBreadcrumb breadcrumb) := by
  simp only [writeBreadcrumb, wp_bind, wp_perform, bindPost, wp_modify, List.append_assoc,
    List.cons_append, List.nil_append]
  rfl

/-- The node appears, and then the breadcrumb is written anew. -/
theorem wp_commitRename {encoded : Encoded} {u : Node} (hu : encoded.node = u)
    (hlt : u.toNat < 2 ^ 64 - 1) :
    (commitRename encoded).wp I Q tr w ↔
      I (tr ++ [.rename u]) (w.apply (.rename u)) ∧
        (writeBreadcrumb ⟨.ofNat (u.toNat + 1), encoded.timestamp⟩).wp I Q (tr ++ [.rename u])
          (w.apply (.rename u)) := by
  simp only [commitRename, wp_bind, wp_perform, bindPost, wp_ofExcept, hu,
    Node.next_of_toNat_lt hlt, Result.ofExcept]

/-- `commit` writes the id, and then renames the temporary directory unless the node's own directory
is in the way. -/
theorem wp_commit {encoded : Encoded}
    (hI : ∀ ls w', World.PreparedBy ∅ w ls w' → I (tr ++ ls) w')
    (hexn : ∀ ls w' e, World.PreparedBy ∅ w ls w' → Q (.exn e) (tr ++ ls) w')
    (hrename : ∀ w', World.PreparedBy ∅ w (commitLabels encoded) w' →
      w'.disk.temporarySnapshot = w.disk.temporarySnapshot.map (withId encoded) →
      RenameFree w encoded.node →
      (commitRename encoded).wp I Q (tr ++ commitLabels encoded) w') :
    (commit encoded).wp I Q tr w := by
  have hI' {ls : List Event} {w' : World β} (h : World.PreparedBy ∅ w ls w') := hI ls w' h
  simp only [commit, wp_bind, wp_look, bindPost]
  refine ⟨hI' (.look ∅ w), ?_⟩
  split
  · simp only [commitTemporary, wp_bind, wp_remember, bindPost, wp_perform, wp_handle,
      List.append_assoc, List.cons_append, List.nil_append]
    -- what is written before the rename goes to the temporary directory
    have hsame {ls : List Event} {w' : World β} (hls : ∀ l ∈ ls, l.Prepares ∅) (hne : ls ≠ [])
        (hdisk : w'.disk.clear = w.disk.clear) (hsnap : w'.disk.snapshots = w.disk.snapshots)
        (hbread : w'.repositoryStructure.breadcrumb = w.repositoryStructure.breadcrumb) :
        World.PreparedBy ∅ w ls w' :=
      ⟨hls, ⟨hdisk, hbread, fun _ _ => by rw [hsnap], fun _ h => by rwa [hsnap] at h⟩,
        fun h => absurd h hne⟩
    refine ⟨hI' (hsame (by simp [Event.Prepares]) (by simp) rfl rfl rfl),
      hI' (hsame (by simp [Event.Prepares]) (by simp) rfl rfl rfl),
      hI' (hsame (by simp [Event.Prepares]) (by simp) rfl rfl rfl), ?_⟩
    -- the world right before the rename
    generalize hw' : World.apply _ (.writeTemporaryId encoded.serialise) = w'
    have hprep : World.PreparedBy ∅ w (commitLabels encoded) w' := by
      subst hw'
      exact hsame (by simp [commitLabels, Event.Prepares]) (by simp [commitLabels]) rfl rfl rfl
    have htemp : w'.disk.temporarySnapshot = w.disk.temporarySnapshot.map (withId encoded) := by
      subst hw'
      show Option.map _ (Option.map _ _) = _
      rw [Option.map_map]
      rfl
    refine wp_renameTemporary _ ?_ (fun hfree => ?_) fun what => ?_
    · simpa [commitLabels] using hI' hprep
    · have hwp := hrename w' hprep htemp (by rwa [RenameFree, hprep.world.snapshots] at hfree)
      simpa [commitRename, commitLabels] using hwp
    · -- the source tells the node that exists from other failures
      have hprep' := hprep.append (.look ∅ w')
      simp only [handlePost, Exn.isSystemError, if_true, wp_bind, nodeExists, wp_look, bindPost]
      refine ⟨by simpa [commitLabels] using hI' hprep', ?_⟩
      split
      · simpa [commitLabels] using hexn _ _ _ hprep'
      · simpa [commitLabels] using hexn _ _ _ hprep'
  · exact hexn _ w _ (.look ∅ w)

end

/-! ## Reading key slots -/

/-- A visitor that only computes. -/
theorem withKeyPairs_ends {γ : Type} (f : γ → KeyPair → γ × Bool) (captured : γ) (w : World β) :
    (withKeyPairs (fun captured keyPair => pure (f captured keyPair)) captured).Ends
      (fun r w' => r = .ofExcept (w.disk.visitKeyPairs f captured) ∧ w' = w) w := by
  intro tr
  simp only [withKeyPairs, withKeyFiles, wp_bind, wp_look, bindPost, true_and, Disk.visitKeyPairs]
  cases w.disk.keys with
  | none => exact ⟨rfl, rfl⟩
  | some keys =>
      generalize maxKeySlots = slots
      suffices h : ∀ i captured tr, (withKeyFilesLoop (fun captured file => do
          pure (f captured (← ofExcept (KeyPair.ofBytes file)))) keys slots i captured).wp
          (fun _ _ => True) (fun r _ w' => r = .ofExcept (Disk.visitKeyFiles f keys slots i captured) ∧
            w' = w) tr w from h 0 captured _
      induction slots with
      | zero => exact fun i captured tr => ⟨rfl, rfl⟩
      | succ slots ih =>
          intro i captured tr
          rw [withKeyFilesLoop, Disk.visitKeyFiles]
          cases keys i with
          | none => exact ⟨rfl, rfl⟩
          | some file =>
              simp only [wp_bind, wp_ofExcept]
              cases KeyPair.ofBytes file with
              | error e => exact ⟨rfl, rfl⟩
              | ok keyPair =>
                  simp only [Result.ofExcept, bindPost, wp_pure]
                  rcases hf : f captured keyPair with ⟨captured', stop⟩
                  cases stop with
                  | true => exact ⟨rfl, rfl⟩
                  | false => exact ih _ _ _

theorem readKeyPairs_ends (w : World β) :
    (readKeyPairs : Repo β (List KeyPair)).Ends
      (fun r w' => r = .ofExcept w.disk.keyPairs ∧ w' = w) w :=
  withKeyPairs_ends _ _ w

/-! ## Opening the repository -/

theorem reads_serialiseInitargs (formatUuid : Uuid) (initargs : StringVector) :
    Reads (· = Serialisation.insufficientData) initargsDeserialiser
      (serialiseInitargs formatUuid initargs) (formatUuid, initargs) :=
  (Serialisation.reads formatUuid).bind ((Serialisation.reads_span initargs).bind_pure rfl)

theorem parseInitargs_serialise (formatUuid : Uuid) {initargs : StringVector}
    (h : initargs.toList.isEmpty = false) :
    parseInitargs (serialiseInitargs formatUuid initargs) = .ok (formatUuid, initargs) := by
  rw [parseInitargs, (reads_serialiseInitargs formatUuid initargs).all]
  simp only [bind, Except.bind, h]
  rfl

/-- A new repository can be read, and is empty. -/
theorem createRepository_spec {formatUuid uuid : Uuid} {initargs : StringVector} {disk : Disk}
    (h : createRepository formatUuid initargs uuid = .ok disk) :
    (∀ repository, disk.readInitargs repository = .ok (formatUuid, initargs)) ∧
      disk.readBreadcrumb = .ok .initial ∧ disk.nodes = ∅ := by
  rw [createRepository] at h
  split at h
  · cases h
  · next hne =>
      cases h
      refine ⟨fun _ => parseInitargs_serialise formatUuid (by simpa using hne), rfl, ?_⟩
      exact Set.eq_empty_iff_forall_notMem.mpr fun k ⟨_, _, hs⟩ => by cases hs

/-- The constructor reads the directory, and fails or sets up the object. -/
theorem wp_openRepository {I : List Event → World β → Prop}
    {Q : Result Exn Unit → List Event → World β → Prop} {tr : List Event} {w : World β}
    (repository : String)
    (hlook : ∀ ls, (∀ l ∈ ls, l = .look) → ls ≠ [] → I (tr ++ ls) w)
    (hexn : ∀ ls e, (∀ l ∈ ls, l = .look) → ls ≠ [] →
      (w.disk.readInitargs repository = .error e ∨
        (∃ args, w.disk.readInitargs repository = .ok args) ∧ w.disk.readBreadcrumb = .error e) →
      Q (.exn e) (tr ++ ls) w)
    (hopened : ∀ ls args breadcrumb, (∀ l ∈ ls, l = .look) → ls ≠ [] →
      w.disk.readInitargs repository = .ok args → w.disk.readBreadcrumb = .ok breadcrumb →
      I (tr ++ ls) (World.opened w repository args breadcrumb) ∧
        Q (.val ()) (tr ++ ls) (World.opened w repository args breadcrumb)) :
    (openRepository repository).wp I Q tr w := by
  simp only [openRepository, wp_bind, wp_look, bindPost]
  refine ⟨hlook _ (by simp) (by simp), ?_⟩
  cases hfile : w.disk.initargs with
  | none => exact hexn _ _ (by simp) (by simp) (.inl (by rw [Disk.readInitargs, hfile]))
  | some bytes =>
      -- first the initargs, then the breadcrumb
      have hread : w.disk.readInitargs repository = parseInitargs bytes := by
        rw [Disk.readInitargs, hfile]
      simp only [wp_bind, wp_ofExcept]
      cases hargs : parseInitargs bytes with
      | error e => exact hexn _ _ (by simp) (by simp) (.inl (hread.trans hargs))
      | ok args =>
          simp only [Result.ofExcept, bindPost, wp_bind, wp_look, wp_ofExcept]
          refine ⟨by simpa using hlook [.look, .look] (by simp) (by simp), ?_⟩
          have hread' : w.disk.readBreadcrumb = parseBreadcrumb w.disk.breadcrumb := rfl
          cases hbread : parseBreadcrumb w.disk.breadcrumb with
          | error e =>
              simpa using hexn [.look, .look] e (by simp) (by simp)
                (.inr ⟨⟨args, hread.trans hargs⟩, hread'.trans hbread⟩)
          | ok breadcrumb =>
              simpa [World.opened] using hopened [.look, .look, .look] args breadcrumb (by simp)
                (by simp) (hread.trans hargs) (hread'.trans hbread)

/-- Opening a repository that can be read. -/
theorem wp_openRepository_readable {I : List Event → World β → Prop}
    {Q : Result Exn Unit → List Event → World β → Prop} {tr : List Event} {w : World β}
    {repository : String} (hargs : ∃ args, w.disk.readInitargs repository = .ok args)
    {breadcrumb : Breadcrumb} (hread : w.disk.readBreadcrumb = .ok breadcrumb)
    (hI : ∀ ls w', (∀ l ∈ ls, l = .look) → ls ≠ [] → w'.disk = w.disk →
      (w' = w ∨ w'.repositoryStructure.breadcrumb = breadcrumb) → I (tr ++ ls) w')
    (hval : ∀ ls w', (∀ l ∈ ls, l = .look) → ls ≠ [] → w'.disk = w.disk →
      w'.repositoryStructure.breadcrumb = breadcrumb → Q (.val ()) (tr ++ ls) w') :
    (openRepository repository).wp I Q tr w := by
  obtain ⟨args, hargs⟩ := hargs
  refine wp_openRepository repository (fun ls hls hne => hI ls w hls hne rfl (.inl rfl)) ?_ ?_
  · rintro ls e - - (h | ⟨-, h⟩)
    · rw [hargs] at h
      cases h
    · rw [hread] at h
      cases h
  · intro ls args' breadcrumb' hls hne _ hread'
    obtain rfl : breadcrumb = breadcrumb' := Except.ok.inj (hread.symm.trans hread')
    exact ⟨hI ls _ hls hne rfl (.inr rfl), hval ls _ hls hne rfl rfl⟩

end RepositoryStructure

end Diffmonger
