import Diffmonger.Controller.Import
import Diffmonger.Restore.Nodes

/-!
# The import command of an export

An export restores one node after the other to a scratch dataset. After each, the import command
stores the restored snapshot in another repository, the destination. It is given here as a program
that works on the same dataset: `snapshot_import`, which adopts the snapshot.
-/

namespace Diffmonger

open Prog RepositoryStructure

variable {β S σ : Type}

/-- The scratch dataset of an export, the directory of the destination, and what the runs of the
adopting command have done so far. -/
structure Scratch (β : Type) where
  dataset : β
  destination : Disk
  imports : List (Outcome Event (World β) Exn Unit)

namespace Scratch

/-- Call a method of the backend of the scratch dataset. -/
def onDataset {ρ : Type} (method : β → ρ × β) (s : Scratch β) : ρ × Scratch β :=
  ((method s.dataset).1, { s with dataset := (method s.dataset).2 })

end Scratch

/-- The backend of the exporting process. -/
def BackendDriver.onScratch (driver : BackendDriver β S) : BackendDriver (Scratch β) S where
  pretty := driver.pretty
  encoded := driver.encoded
  getNode := driver.getNode
  snapshotId := driver.snapshotId
  snapshot node uuid := Scratch.onDataset (driver.snapshot node uuid)
  existsSnapshot id := Scratch.onDataset (driver.existsSnapshot id)
  removeSnapshot id := Scratch.onDataset (driver.removeSnapshot id)
  initial id := Scratch.onDataset (driver.initial id)
  diff parent id := Scratch.onDataset (driver.diff parent id)
  restoreInitial id input := Scratch.onDataset (driver.restoreInitial id input)
  restoreDiff parent id input := Scratch.onDataset (driver.restoreDiff parent id input)
  node_encoded := driver.node_encoded
  getNode_snapshotId := driver.getNode_snapshotId
  getNode_snapshot node uuid s := driver.getNode_snapshot node uuid s.dataset

theorem LinearHistory.onScratch [DecidableEq S] {driver : BackendDriver β S}
    {snapshots : β → List S} (h : LinearHistory driver snapshots) :
    LinearHistory driver.onScratch fun s => snapshots s.dataset where
  snapshotId_encoded := h.snapshotId_encoded
  existsSnapshot id s := h.existsSnapshot id s.dataset
  initial id s := h.initial id s.dataset
  diff parent id s := h.diff parent id s.dataset
  restoreInitial id input s := h.restoreInitial id input s.dataset
  restoreDiff parent id input s := h.restoreDiff parent id input s.dataset

namespace Controller

/-- How the exporting process learns how the import command has ended. -/
def exitStatus : Result Exn Unit → Except Exn Unit
  | .val _ => .ok ()
  | .exn _ | .diverged => .error (.commandFailed ": command failed with exit status 1")

/-- The import command: a new process, with whatever in its memory, adopts the snapshot. -/
def adoptCommand (driver : BackendDriver β S) (repository : String) (sodium : Sodium σ) (env : Env)
    (params : RepositoryParams) (memory : RepositoryStructure) (serialised : Bytes)
    (s : Scratch β) : Except Exn (Except Exn Unit) × Scratch β :=
  let w : World β := ⟨s.destination, memory, s.dataset⟩
  let run := (snapshotImportCommand driver repository sodium env params false serialised).run w
  let w' := stateAfter w run.steps
  (.ok (exitStatus run.result), ⟨w'.backend, w'.disk, s.imports ++ [run]⟩)

section
variable [DecidableEq S] {driver : BackendDriver β S} {snapshots : β → List S} {sodium : Sodium σ}
  {env : Env} {params : RepositoryParams} {repository : String} {memory : RepositoryStructure}

/-- A run of the import command that has completed, and during which every difference was asked for
when both of its snapshots were in the dataset. -/
structure Adopts (driver : BackendDriver β S) (snapshots : β → List S)
    (run : Outcome Event (World β) Exn Unit) : Prop where
  completes : run.result = .val ()
  diffsBased : ∀ step ∈ run.steps, DiffsBased driver snapshots step.1 step.2

/-- The import command stores the node. -/
theorem adoptCommand_stores (h : LinearHistory driver snapshots) {id : S} {s : Scratch β}
    (hid : Importable driver snapshots id s.destination s.dataset)
    (hargs : ∃ args, s.destination.readInitargs repository = .ok args)
    (hread : ∃ breadcrumb, s.destination.readBreadcrumb = .ok breadcrumb)
    (hcan : CanEncrypt sodium params s.destination.keyPairs) :
    ∃ run blob b, Adopts driver snapshots run ∧ snapshots b = snapshots s.dataset ∧
      adoptCommand driver repository sodium env params memory (driver.encoded id).serialise s =
        (.ok (.ok ()), ⟨b, s.destination.stored (driver.encoded id) blob, s.imports ++ [run]⟩) := by
  obtain ⟨args, hargs⟩ := hargs
  obtain ⟨breadcrumb, hread⟩ := hread
  have hwp := @wp_snapshotImportCommand_adopts _ _ _ _ _ _ _ env _ []
    ⟨s.destination, memory, s.dataset⟩ h _ hid _ _ hargs _ hread hcan
  obtain ⟨hval, blob, b, hkeeps, hw'⟩ := wp_run hwp
  refine ⟨_, blob, b, ⟨hval, fun step hstep => of_mem_steps hwp hstep⟩, hkeeps, ?_⟩
  rw [adoptCommand, hval, hw']
  rfl

end

end Controller

end Diffmonger
