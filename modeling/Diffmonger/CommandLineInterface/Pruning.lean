import Diffmonger.CommandLineInterface
import Diffmonger.Controller.Schedule

/-!
# The subcommand `prune-repository`

The subcommand does nothing, so that it leaves what `prune_repository` leaves exactly where there is
nothing to prune.

Main result: `execute_refines_iff`. What `prune_repository` leaves is known from
`Controller/Schedule.lean`, as a relation; it is the directory as it was only if no step of the loop
is taken, or the first one fails before it deletes anything (`loopEnds_eq_self_iff`).
-/

namespace Diffmonger

open Prog RepositoryStructure Controller

variable {β : Type}

namespace PruneRepository

section
variable {plus : Int64 → Int64 → ℤ} {repository : String} {params : RepositoryParams} {now : Int64}
  {w : World β} {b b' : Breadcrumb}

/-- A process that executes the subcommand leaves the directory that one leaves that opens the
repository and calls `prune_repository`. -/
def Refines (plus : Int64 → Int64 → ℤ) (repository : String) (params : RepositoryParams)
    (now : Int64) (w : World β) : Prop :=
  ∃ fuel, ∀ env : Env, fuel ≤ env.fuel →
    (stateAfter w (execute.run w).steps).disk =
      (stateAfter w ((pruneRepositoryCommand repository plus env params now).run w).steps).disk

/-- There is nothing to delete or to write: the first node in quarantine is missing or not accepted,
or its deletions fail and would delete nothing. -/
def NothingToPrune (plus : Int64 → Int64 → ℤ) (params : RepositoryParams) (now : Int64)
    (disk : Disk) (b : Breadcrumb) : Prop :=
  trusted plus (minTimeBetweenSnapshots params) now disk b = none ∨
    b.untrustedBegin.prune.result ≠ .val () ∧
      ∀ x ∈ b.untrustedBegin.prune.nodes, disk.snapshots ⟨x⟩ = none

theorem disk_execute : (stateAfter w (execute.run w).steps).disk = w.disk := rfl

theorem without_eq_self_iff {disk : Disk} {values : List UInt64} :
    disk.without values = disk ↔ ∀ x ∈ values, disk.snapshots ⟨x⟩ = none := by
  constructor
  · intro h x hx
    have hx' := congrArg (fun d : Disk => d.snapshots ⟨x⟩) h
    simpa [Disk.without, hx] using hx'.symm
  · intro h
    rw [Disk.without]
    congr 1
    funext node
    split
    · next hmem => exact (h node.value hmem).symm
    · rfl

/-- The loop leaves the directory alone if and only if there is nothing to prune: a step moves the
breadcrumb on. -/
theorem loopEnds_eq_self_iff {disk final : Disk}
    (h : LoopEnds plus (minTimeBetweenSnapshots params) now disk b final b')
    (hread : disk.readBreadcrumb = .ok b) :
    final = disk ↔ NothingToPrune plus params now disk b := by
  cases h with
  | stop hnone => exact iff_of_true rfl (.inl hnone)
  | fail hsome hprune =>
      rw [without_eq_self_iff, NothingToPrune, hsome]
      simp [hprune]
  | step hsome hprune rest =>
      refine iff_of_false (fun heq => ?_) ?_
      · obtain ⟨-, hread', hle, -⟩ := rest.keeps
        obtain ⟨-, -, hnext⟩ := trusted_some hsome
        have hfinal := hread' (Breadcrumb.deserialise_serialise _)
        rw [heq, hread] at hfinal
        cases hfinal
        omega
      · rintro (hnone | ⟨hfails, -⟩)
        · rw [hsome] at hnone
          cases hnone
        · exact hfails hprune

/-- If the repository can be opened. -/
theorem refines_iff_of_read (hargs : ∃ args, w.disk.readInitargs repository = .ok args)
    (hread : w.disk.readBreadcrumb = .ok b) :
    Refines plus repository params now w ↔ NothingToPrune plus params now w.disk b := by
  obtain ⟨final, b', hends⟩ : ∃ final b',
      LoopEnds plus (minTimeBetweenSnapshots params) now w.disk b final b' :=
    exists_loopEnds w.disk b
  have hcommand (env : Env) (hfuel : 2 ^ 64 ≤ env.fuel) := hends.command hargs hread hfuel
  rw [← loopEnds_eq_self_iff hends hread]
  constructor
  · rintro ⟨fuel, hsame⟩
    have h := hsame { sampleEnv with fuel := fuel + 2 ^ 64 } (Nat.le_add_right _ _)
    rw [disk_execute, hcommand _ (Nat.le_add_left _ _)] at h
    exact h.symm
  · rintro rfl
    exact ⟨2 ^ 64, fun env hfuel => (hcommand env hfuel).symm⟩

/-- If the repository cannot be opened, `prune_repository` is not called. -/
theorem refines_of_not_read
    (h : ¬ ∃ args b, w.disk.readInitargs repository = .ok args ∧ w.disk.readBreadcrumb = .ok b) :
    Refines plus repository params now w := by
  refine ⟨0, fun env _ => ?_⟩
  refine (wp_run_nil (I := fun _ _ => True)
    (Q := fun _ _ (w' : World β) => w'.disk = w.disk) ?_).symm
  rw [pruneRepositoryCommand, wp_bind]
  refine wp_openRepository repository (fun _ _ _ => trivial) (fun _ _ _ _ _ => rfl) ?_
  intro _ args b _ _ hargs hread
  exact absurd ⟨args, b, hargs, hread⟩ h

/-- The subcommand and the function agree if and only if the repository cannot be opened or there is
nothing to prune in it. -/
theorem execute_refines_iff (plus : Int64 → Int64 → ℤ) (repository : String)
    (params : RepositoryParams) (now : Int64) (w : World β) :
    Refines plus repository params now w ↔
      ∀ args b, w.disk.readInitargs repository = .ok args → w.disk.readBreadcrumb = .ok b →
        NothingToPrune plus params now w.disk b := by
  by_cases h : ∃ args b, w.disk.readInitargs repository = .ok args ∧ w.disk.readBreadcrumb = .ok b
  · obtain ⟨args, b, hargs, hread⟩ := h
    rw [refines_iff_of_read ⟨args, hargs⟩ hread]
    refine ⟨fun hnothing args' b' _ hread' => ?_, fun hall => hall args b hargs hread⟩
    rw [hread] at hread'
    cases hread'
    exact hnothing
  · refine iff_of_true (refines_of_not_read h) fun args b hargs hread => ?_
    exact absurd ⟨args, b, hargs, hread⟩ h

/-- In a mirror that has never been pruned the node 0 is accepted at once. -/
theorem execute_not_refines_mirror :
    (∃ args, sampleMirror.disk.readInitargs "repository" = .ok args) ∧
      sampleMirror.disk.readBreadcrumb = .ok .initial ∧
      trusted Trust.exactPlus (minTimeBetweenSnapshots ⟨false, 0⟩) 5 sampleMirror.disk .initial =
        some ⟨⟨1⟩, 5⟩ ∧
      ¬ Refines Trust.exactPlus "repository" ⟨false, 0⟩ 5 sampleMirror := by
  have hargs : ∃ args, sampleMirror.disk.readInitargs "repository" = .ok args :=
    fresh_sampleWorld.tracked.numbered.initargs "repository"
  have hread : sampleMirror.disk.readBreadcrumb = .ok .initial := rfl
  have hsome : trusted Trust.exactPlus (minTimeBetweenSnapshots ⟨false, 0⟩) 5 sampleMirror.disk
      .initial = some ⟨⟨1⟩, 5⟩ := by decide +kernel
  refine ⟨hargs, hread, hsome, ?_⟩
  rw [refines_iff_of_read hargs hread]
  rintro (hnone | ⟨hfails, -⟩)
  · rw [hsome] at hnone
    cases hnone
  · exact hfails (by decide)

end

end PruneRepository

end Diffmonger
