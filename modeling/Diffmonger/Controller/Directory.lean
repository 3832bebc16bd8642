import Diffmonger.Controller
import Diffmonger.RepositoryStructure.Spec

/-!
# Programs that work on the directory

Everything that a `RepositoryStructure` object does are steps on the repository's directory and on
the object's own memory. What all such steps have in common, its methods have, too.

`OnDirectory C` is the condition on a kind `C` of steps that makes this work. An invariant for which
only calls of the backend, or only renames, are of interest then needs no walk through the methods
of its own; and of the methods of the Controller, the parts that call the backend are left.
-/

namespace Diffmonger.Controller

open Prog RepositoryStructure

variable {β S σ : Type}

/-- Steps of the kind `C` include those on the directory and on the object's memory. -/
structure OnDirectory (C : Event → (World β → World β) → Prop) : Prop where
  look : C .look id
  perform : ∀ event, (∀ call, event ≠ .backend call) →
    C event fun w => { w with disk := event.apply w.disk }
  remember : ∀ f : RepositoryStructure → RepositoryStructure, C .look fun w =>
    { w with repositoryStructure := f w.repositoryStructure }
  writeBreadcrumb : ∀ breadcrumb, C (.writeBreadcrumb breadcrumb) fun w =>
    { w with
      disk := (Event.writeBreadcrumb breadcrumb).apply w.disk
      repositoryStructure := { w.repositoryStructure with breadcrumb := breadcrumb } }

namespace OnDirectory

variable {C : Event → (World β → World β) → Prop} (hC : OnDirectory C)
include hC

theorem emits_look {α : Type} (f : World β → α) : (Diffmonger.look f).Emits C :=
  (emits_read ..).mpr hC.look

theorem emits_perform {event : Event} (h : ∀ call, event ≠ .backend call) :
    (Diffmonger.perform event : Repo β Unit).Emits C :=
  (emits_modify ..).mpr (hC.perform event h)

theorem emits_performIf (needed : Bool) {event : Event} (h : ∀ call, event ≠ .backend call) :
    (performIf needed event : Repo β Unit).Emits C := by
  cases needed
  · trivial
  · exact hC.emits_perform h

theorem emits_remember (f : RepositoryStructure → RepositoryStructure) :
    (Diffmonger.remember f : Repo β Unit).Emits C :=
  (emits_modify ..).mpr (hC.remember f)

theorem emits_deleteNode (env : Env) (node : Node) : (deleteNode env node : Repo β _).Emits C := by
  refine emits_bind (hC.emits_look _) fun dir => ?_
  split
  · trivial
  · refine emits_bind ?_ fun _ => hC.emits_perform nofun
    unfold unlinkFiles
    split
    · exact emits_bind (hC.emits_performIf _ nofun) fun _ => hC.emits_performIf _ nofun
    · exact emits_bind (hC.emits_performIf _ nofun) fun _ => hC.emits_performIf _ nofun

theorem emits_checkOutTemporarySnapshot :
    (checkOutTemporarySnapshot : Repo β _).Emits C := by
  refine emits_bind (hC.emits_look _) fun checkedOut => ?_
  split
  · trivial
  · refine emits_bind (hC.emits_look _) fun temporary => emits_bind ?_ fun _ =>
      emits_bind (hC.emits_perform nofun) fun _ => hC.emits_remember _
    cases temporary with
    | none => exact hC.emits_perform nofun
    | some dir =>
        exact emits_bind (hC.emits_performIf _ nofun) fun _ => hC.emits_performIf _ nofun

theorem emits_commitTemporary (encoded : Encoded) :
    (commitTemporary encoded : Repo β _).Emits C := by
  refine emits_bind (hC.emits_perform nofun) fun _ => emits_bind (hC.emits_perform nofun) fun _ =>
    emits_handle (emits_bind (hC.emits_look _) fun w => ?_) fun e =>
      emits_bind (hC.emits_look _) fun found => ?_
  · split
    · exact hC.emits_perform nofun
    · exact hC.emits_perform nofun
    · trivial
  · split <;> trivial

theorem emits_writeBreadcrumb (breadcrumb : Breadcrumb) :
    (RepositoryStructure.writeBreadcrumb breadcrumb : Repo β _).Emits C :=
  emits_bind (hC.emits_perform nofun) fun _ => (emits_modify ..).mpr (hC.writeBreadcrumb breadcrumb)

theorem emits_commit (encoded : Encoded) : (commit encoded : Repo β _).Emits C := by
  refine emits_bind (hC.emits_look _) fun checkedOut => ?_
  split
  · exact emits_bind (hC.emits_remember _) fun _ =>
      emits_bind (hC.emits_commitTemporary encoded) fun _ =>
        emits_bind (by simp) fun _ => hC.emits_writeBreadcrumb _
  · trivial

theorem emits_openRepository (repository : String) :
    (openRepository repository : Repo β _).Emits C := by
  refine emits_bind (hC.emits_look _) fun initargs => ?_
  split
  · trivial
  · exact emits_bind (by simp) fun _ => emits_bind (hC.emits_look _) fun _ =>
      emits_bind (by simp) fun _ => hC.emits_remember _

theorem emits_writeBlob (chunks : List Bytes) : (writeBlob chunks : Repo β Unit).Emits C :=
  emits_forM (fun chunk => hC.emits_perform fun _ h => by cases h) chunks

/-- Storing what the backend writes. -/
theorem emits_store (sodium : Sodium σ) (env : Env) (params : RepositoryParams) (node : Node)
    (stream : Stream) : (if params.encryption then storeEncrypted sodium env node stream
      else storePlain stream : Repo β Unit).Emits C := by
  split
  · refine emits_bind (emits_handle (emits_bind (emits_readKeyPairs hC.look) fun _ => trivial)
      fun _ => trivial) fun encrypted => emits_bind (hC.emits_writeBlob _) fun _ =>
        emits_bind (by simp) fun _ => ?_
    split <;> trivial
  · exact emits_bind (hC.emits_writeBlob _) fun _ => by simp

/-! ## The parts of the snapshot command

They are of the kind `C` if the calls of the backend are. -/

theorem emits_prune {f : Node → Repo β Unit} (hf : ∀ node, (f node).Emits C) :
    (prune f).Emits C := by
  refine emits_bind (emits_bind (hC.emits_look _) fun _ => trivial) fun node => ?_
  split
  · trivial
  · exact emits_bind (emits_forM (fun _ => hf _) _) fun _ => by simp

section
variable {driver : BackendDriver β S}

theorem emits_pruneNode (hdecode : ∀ encoded, (decodeSnapshotId driver encoded).Emits C)
    (hremove : ∀ id, (removeSnapshot driver id).Emits C) (env : Env) (node : Node) :
    (pruneNode driver env node).Emits C := by
  refine emits_handle (emits_bind (hC.emits_deleteNode env node) fun _ =>
    emits_bind (emits_tryGetEncodedSnapshotId hC.look node) fun encoded => ?_) fun _ => trivial
  split
  · exact emits_bind (hdecode _) hremove
  · trivial

theorem emits_parentSnapshot (hdecode : ∀ encoded, (decodeSnapshotId driver encoded).Emits C)
    (hexists : ∀ id, (existsSnapshot driver id).Emits C) (node : Node) :
    (parentSnapshot driver node).Emits C := by
  unfold parentSnapshot
  split
  · trivial
  · refine emits_bind (emits_bind (emits_getEncodedSnapshotId hC.look _) hdecode) fun id =>
      emits_bind (hexists id) fun found => ?_
    split <;> trivial

theorem emits_storeSnapshot
    (hinitial : ∀ id, (callBackend (.initial (driver.encoded id)) (driver.initial id)).Emits C)
    (hdiff : ∀ parent id, (callBackend (.diff (driver.encoded parent) (driver.encoded id))
      (driver.diff parent id)).Emits C)
    (sodium : Sodium σ) (env : Env) (params : RepositoryParams) (id : S) (maybeParent : Option S) :
    (storeSnapshot driver sodium env params id maybeParent).Emits C := by
  have hstream : (storeSnapshotOrDiff driver id maybeParent).Emits C := by
    unfold storeSnapshotOrDiff
    split
    · exact hinitial id
    · split
      · trivial
      · exact hdiff _ id
  refine emits_bind (emits_bind hC.emits_checkOutTemporarySnapshot fun _ =>
    emits_bind hstream fun stream => ?_) fun _ => hC.emits_commit _
  exact hC.emits_store sodium env params _ stream

end

end OnDirectory

end Diffmonger.Controller
