import Diffmonger.Controller.Prune

/-!
# Pruning on a schedule

How often `prune_repository` is run does not matter: when a node comes to be trusted is computed
from what the repository holds, and the clock only decides whether that time has come. A run that
starts from what an earlier run has left therefore ends where a run would have ended that starts
from what the earlier run had found (`LoopEnds.resume`).

The argument is made about a relation. `LoopEnds` says which directory and which breadcrumb a run of
the loop leaves, given those that it finds, without reference to programs or events: a run stops
where it trusts no further node (`trusted`), or where pruning throws. That a decision once taken
stays the same at a later time, with more nodes there and after what the earlier run has deleted, is
`trusted_mono`; for it, the node before the candidate has to be there still, and indeed the node
that has just been trusted is never among those that die. The program is connected to the relation
at the end (`LoopEnds.wp_pruneRepositoryLoop`), and a schedule is one run after another
(`pruneOnSchedule_loopEnds`).

Nothing is assumed of the nodes here: runs may end with an exception, after which the repository is
what the loop has made of it.
-/

namespace Diffmonger

open Prog RepositoryStructure

variable {β : Type}

namespace Disk

/-- The directory without the nodes with the given values. -/
def without (disk : Disk) (values : List UInt64) : Disk :=
  { disk with snapshots := fun node => if node.value ∈ values then none else disk.snapshots node }

/-- The directory once the given nodes have been added. -/
def add (disk : Disk) (files : Node → Option NodeDir) : Disk :=
  { disk with snapshots := fun node => (files node).or (disk.snapshots node) }

end Disk

theorem Disk.isSome_of_readId {disk : Disk} {node : Node} {encoded : Encoded}
    (h : disk.readId node = .ok (some encoded)) : (disk.snapshots node).isSome := by
  cases hdir : disk.snapshots node with
  | some dir => rfl
  | none =>
      rw [Disk.readId_of_absent hdir] at h
      cases h

namespace Controller

/-!
## Decisions

An iteration looks at two nodes only: the first untrusted one and the one before it. So what a run
of the loop does is determined by the ids of the nodes from the breadcrumb on, and the pruning that
earlier runs have done does not matter to it.
-/

section
variable (plus : Int64 → Int64 → ℤ) (min now : Int64)

/-- The breadcrumb that an iteration is about to write. The greatest node is never trusted, since
no node follows it. -/
def trusted (disk : Disk) (b : Breadcrumb) : Option Breadcrumb :=
  if b.untrustedBegin.toNat < 2 ^ 64 - 1 then nextBreadcrumb plus min now disk b else none

/-- Runs of the loop: from a directory and a breadcrumb to those that it leaves. -/
inductive LoopEnds : Disk → Breadcrumb → Disk → Breadcrumb → Prop
  | stop {disk : Disk} {b : Breadcrumb} (h : trusted plus min now disk b = none) :
    LoopEnds disk b disk b
  | fail {disk : Disk} {b b' : Breadcrumb} (h : trusted plus min now disk b = some b')
    (hprune : b.untrustedBegin.prune.result ≠ .val ()) :
    LoopEnds disk b (disk.without b.untrustedBegin.prune.nodes) b
  | step {disk final : Disk} {b b' b'' : Breadcrumb} (h : trusted plus min now disk b = some b')
    (hprune : b.untrustedBegin.prune.result = .val ())
    (rest : LoopEnds (disk.pruned b.untrustedBegin b') b' final b'') : LoopEnds disk b final b''

end

section
variable {plus : Int64 → Int64 → ℤ} {min now : Int64} {disk : Disk} {b b' : Breadcrumb}

theorem trusted_some (h : trusted plus min now disk b = some b') :
    (disk.snapshots b.untrustedBegin).isSome ∧ b.untrustedBegin.toNat < 2 ^ 64 - 1 ∧
      b'.untrustedBegin.toNat = b.untrustedBegin.toNat + 1 := by
  unfold trusted at h
  split at h
  · next hlt =>
      exact ⟨Disk.toNat_mem_nodes.mp (mem_nodes_of_next h), hlt, toNat_of_next hlt h⟩
  · cases h

/-- Later the same decision is taken, as long as the candidate and the node before it are there. -/
theorem trusted_mono {now' : Int64} {disk' : Disk} (hnow : now ≤ now')
    (hroot : b.untrustedBegin ≠ Node.initialValue)
    (hdisk : ∀ node, (disk.snapshots node).isSome → b.untrustedBegin.toNat ≤ node.toNat + 1 →
      disk'.snapshots node = disk.snapshots node)
    (h : trusted plus min now disk b = some b') : trusted plus min now' disk' b = some b' := by
  obtain ⟨hcandidate, hlt, -⟩ := trusted_some h
  rw [trusted, if_pos hlt, nextBreadcrumb] at h ⊢
  rw [Disk.readId_congr (hdisk _ hcandidate (by omega))]
  split at h
  · next candidate hread =>
      rw [if_neg hroot] at h
      split at h
      · next cursnapshot hcur =>
          have hpred := Node.toNat_pred hroot
          have hcur' : disk'.readId ⟨b.untrustedBegin.value - 1⟩ = .ok (some cursnapshot) := by
            rw [← hcur]
            exact Disk.readId_congr (hdisk _ (Disk.isSome_of_readId hcur) (by omega))
          simp only [if_neg hroot, hcur']
          obtain ⟨at', htrusted, rfl⟩ := Option.map_eq_some_iff.mp h
          rw [Trust.trustedAt_mono hnow htrusted]
          rfl
      · cases h
  · cases h

/-- The run ends, since each of its iterations but the last trusts a node. -/
theorem exists_loopEnds (disk : Disk) (b : Breadcrumb) :
    ∃ final b', LoopEnds plus min now disk b final b' := by
  obtain ⟨m, hm⟩ : ∃ m, 2 ^ 64 - b.untrustedBegin.toNat = m := ⟨_, rfl⟩
  induction m generalizing disk b with
  | zero =>
      have hlt := b.untrustedBegin.toNat_lt
      omega
  | succ m ih =>
      cases htrusted : trusted plus min now disk b with
      | none => exact ⟨disk, b, .stop htrusted⟩
      | some b' =>
          by_cases hprune : b.untrustedBegin.prune.result = .val ()
          · obtain ⟨-, hlt, hnext⟩ := trusted_some htrusted
            obtain ⟨final, b'', hrest⟩ := ih (disk.pruned b.untrustedBegin b') b' (by omega)
            exact ⟨final, b'', .step htrusted hprune hrest⟩
          · exact ⟨_, b, .fail htrusted hprune⟩

/-- A run of the loop has only one outcome. -/
theorem LoopEnds.unique {final final' : Disk} {b₁ b₂ : Breadcrumb}
    (h : LoopEnds plus min now disk b final b₁) (h' : LoopEnds plus min now disk b final' b₂) :
    final = final' := by
  induction h with
  | stop hnone =>
      cases h' with
      | stop _ => rfl
      | fail htrusted _ | step htrusted _ _ =>
          rw [hnone] at htrusted
          cases htrusted
  | fail htrusted hprune =>
      cases h' with
      | stop hnone =>
          rw [htrusted] at hnone
          cases hnone
      | fail _ _ => rfl
      | step _ hval _ => exact absurd hval hprune
  | step htrusted hval _ ih =>
      cases h' with
      | stop hnone =>
          rw [htrusted] at hnone
          cases hnone
      | fail _ hprune => exact absurd hval hprune
      | step htrusted' _ rest =>
          rw [htrusted] at htrusted'
          cases htrusted'
          exact ih rest

end

/-!
## What a run of the loop leaves

Pruning for the node `u` deletes nodes that are at least three below it, and the breadcrumb only
moves up: what is deleted is never looked at again. Nodes that arrive are at or above the
breadcrumb.
-/

section
variable {plus : Int64 → Int64 → ℤ} {min now : Int64} {disk final : Disk} {b b' : Breadcrumb}

theorem snapshots_without {u node : Node} (h : u.toNat ≤ node.toNat + 2) :
    (disk.without u.prune.nodes).snapshots node = disk.snapshots node := by
  refine if_neg fun hmem => ?_
  have hlt : node.toNat + 3 ≤ u.toNat := Tree.add_three_le_of_mem_prune hmem
  omega

theorem without_of_none {values : List UInt64} {node : Node} (h : disk.snapshots node = none) :
    (disk.without values).snapshots node = none := by
  simp [Disk.without, h]

theorem without_without (values : List UInt64) :
    (disk.without values).without values = disk.without values := by
  unfold Disk.without
  congr 1
  funext node
  dsimp only
  split <;> rfl

/-- Nodes are only deleted, and a node that was missing at first is not passed over. -/
theorem LoopEnds.keeps (h : LoopEnds plus min now disk b final b') :
    final.initargs = disk.initargs ∧
      (disk.readBreadcrumb = .ok b → final.readBreadcrumb = .ok b') ∧
      b.untrustedBegin.toNat ≤ b'.untrustedBegin.toNat ∧
      ∀ node, disk.snapshots node = none → final.snapshots node = none ∧
        (b.untrustedBegin.toNat ≤ node.toNat → b'.untrustedBegin.toNat ≤ node.toNat) := by
  induction h with
  | stop _ => exact ⟨rfl, id, le_rfl, fun node hnone => ⟨hnone, id⟩⟩
  | fail _ _ => exact ⟨rfl, id, le_rfl, fun node hnone => ⟨without_of_none hnone, id⟩⟩
  | @step disk _ b _ _ htrusted _ _ ih =>
      obtain ⟨hinitargs, hread, hle, hnodes⟩ := ih
      obtain ⟨hcandidate, -, hnext⟩ := trusted_some htrusted
      refine ⟨hinitargs, fun _ => hread (Breadcrumb.deserialise_serialise _), by omega,
        fun node hnone => ?_⟩
      obtain ⟨hgone, hpast⟩ := hnodes node (without_of_none hnone)
      refine ⟨hgone, fun hu => hpast ?_⟩
      -- the candidate was there
      have hne : node ≠ b.untrustedBegin := fun heq => by simp [← heq, hnone] at hcandidate
      have hne' := mt Node.toNat_inj.mp hne
      omega

/-!
## Taking up a run

By induction on the earlier run. Where it trusts a node, the later run, had it been the only one,
would have trusted the same node first, and would have deleted the same nodes.
-/

/-- Nodes may arrive: they are new, and in quarantine. -/
def Arrives (disk : Disk) (b : Breadcrumb) (files : Node → Option NodeDir) : Prop :=
  ∀ node, (files node).isSome → b.untrustedBegin.toNat ≤ node.toNat ∧ disk.snapshots node = none

theorem Arrives.snapshots_add {files : Node → Option NodeDir} (h : Arrives disk b files)
    {node : Node} (hs : (disk.snapshots node).isSome) :
    (disk.add files).snapshots node = disk.snapshots node := by
  cases hfile : files node with
  | none => simp [Disk.add, hfile]
  | some dir =>
      rw [(h node (by rw [hfile]; rfl)).2] at hs
      cases hs

/-- Deletions and arrivals do not get in each other's way. -/
theorem Arrives.without_add {files : Node → Option NodeDir} (h : Arrives disk b files) :
    (disk.without b.untrustedBegin.prune.nodes).add files =
      (disk.add files).without b.untrustedBegin.prune.nodes := by
  unfold Disk.without Disk.add
  congr 1
  funext node
  dsimp only
  split
  · next hmem =>
      have hlt : node.toNat + 3 ≤ b.untrustedBegin.toNat := Tree.add_three_le_of_mem_prune hmem
      have hnone : files node = none := by
        cases hfile : files node with
        | none => rfl
        | some dir =>
            have hle := (h node (by rw [hfile]; rfl)).1
            omega
      rw [hnone]
      rfl
  · rfl

theorem Arrives.pruned_add {files : Node → Option NodeDir} (h : Arrives disk b files)
    (b' : Breadcrumb) :
    (disk.pruned b.untrustedBegin b').add files = (disk.add files).pruned b.untrustedBegin b' :=
  congrArg (fun disk : Disk => { disk with breadcrumb := some b'.serialise }) h.without_add

/-- A run that starts where an earlier one has ended, once more nodes have arrived, ends where a run
ends that starts where the earlier one has started, with these nodes. -/
theorem LoopEnds.resume {now' : Int64} {final' : Disk} {b'' : Breadcrumb}
    {files : Node → Option NodeDir} (hnow : now ≤ now')
    (hroot : b.untrustedBegin ≠ Node.initialValue) (hfiles : Arrives disk b files)
    (h : LoopEnds plus min now disk b final b')
    (h' : LoopEnds plus min now' (final.add files) b' final' b'') :
    LoopEnds plus min now' (disk.add files) b final' b'' := by
  induction h with
  -- what the earlier run did not trust, the later one may: it starts from the same directory
  | stop _ => exact h'
  | @fail disk b b₁ htrusted hprune =>
      -- the later run deletes the same nodes, and fails as well
      rw [hfiles.without_add] at h'
      have hagain : trusted plus min now' ((disk.add files).without b.untrustedBegin.prune.nodes) b =
          some b₁ := trusted_mono hnow hroot (fun node hs hle => by
        rw [snapshots_without (by omega), hfiles.snapshots_add hs]) htrusted
      have hfull : trusted plus min now' (disk.add files) b = some b₁ :=
        trusted_mono hnow hroot (fun node hs _ => hfiles.snapshots_add hs) htrusted
      cases h' with
      | stop hnone =>
          rw [hagain] at hnone
          cases hnone
      | fail _ _ =>
          have hfail := LoopEnds.fail hfull hprune
          rwa [← without_without] at hfail
      | step _ hval _ => exact absurd hval hprune
  | @step disk final b b₁ b'' htrusted hprune _ ih =>
      -- the later run would have taken the same step, after which the two are to be compared again
      obtain ⟨hcandidate, -, hnext⟩ := trusted_some htrusted
      have hfull : trusted plus min now' (disk.add files) b = some b₁ :=
        trusted_mono hnow hroot (fun node hs _ => hfiles.snapshots_add hs) htrusted
      -- what arrives is still in quarantine: the node that has been trusted was there before
      have harrives : Arrives (disk.pruned b.untrustedBegin b₁) b₁ files := by
        intro node hs
        obtain ⟨hle, hnone⟩ := hfiles node hs
        have hne : node ≠ b.untrustedBegin := fun heq => by simp [← heq, hnone] at hcandidate
        have hne' := mt Node.toNat_inj.mp hne
        exact ⟨by omega, without_of_none hnone⟩
      refine .step hfull hprune ?_
      rw [← hfiles.pruned_add]
      exact ih (Node.ne_initialValue_of_toNat hnext) harrives h'

end

/-!
## The program

The decision of the program on a candidate is `trusted`, with the clock, the breadcrumb and the
directory at that moment. A decision that throws ends the command, and so does pruning that throws.
-/

section
variable {plus : Int64 → Int64 → ℤ} {env : Env} {params : RepositoryParams} {now : Int64}

/-- The decision on a candidate. -/
theorem maybeUpdateBreadcrumb_ends {b : Breadcrumb} {candidate : Encoded} {min : Int64}
    {w : World β} (hread : w.disk.readId b.untrustedBegin = .ok (some candidate)) :
    (Trust.maybeUpdateBreadcrumb plus b candidate min now).Ends (fun r w' => w' = w ∧
      ((∃ e, r = .exn e) ∧ trusted plus min now w.disk b = none ∨
        r = .val (trusted plus min now w.disk b))) w := by
  intro tr
  rcases eq_or_ne b.untrustedBegin Node.initialValue with hroot | hroot
  -- the initial node is trusted at once, and there is no node before it
  · rw [Trust.maybeUpdateBreadcrumb_initial hroot]
    have htrusted : trusted plus min now w.disk b = some ⟨.ofNat 1, now⟩ := by
      rw [trusted, if_pos (by rw [hroot]; decide), nextBreadcrumb_initial hroot hread]
    exact ⟨rfl, .inr (by rw [htrusted])⟩
  have hnode : candidate.node = b.untrustedBegin := Disk.node_of_readId hread
  by_cases hcur : ∃ cursnapshot,
      w.disk.readId ⟨b.untrustedBegin.value - 1⟩ = .ok (some cursnapshot)
  · obtain ⟨cursnapshot, hcur⟩ := hcur
    by_cases hlt : b.untrustedBegin.toNat < 2 ^ 64 - 1
    -- the node before the candidate is there, and the two timestamps are compared
    · rw [Trust.wp_maybeUpdateBreadcrumb hroot hnode hlt hcur]
      refine ⟨trivial, rfl, .inr ?_⟩
      rw [trusted, if_pos hlt, nextBreadcrumb_next hroot hread hcur]
    · -- no node follows the candidate
      have hnone : trusted plus min now w.disk b = none := if_neg hlt
      have hmax : candidate.node.next = .error (.runtimeError "Node too big") := by
        rw [hnode]
        refine if_pos (UInt64.toNat_inj.mp ?_)
        exact le_antisymm (Nat.le_of_lt_succ b.untrustedBegin.toNat_lt) (not_lt.mp hlt)
      rw [hnone, Trust.maybeUpdateBreadcrumb, if_neg hroot, if_neg (not_not.mpr hnode)]
      simp only [wp_bind, wp_getEncodedSnapshotId, hcur, bindPost, true_and]
      split
      · exact ⟨rfl, .inr rfl⟩
      · split
        · rw [hmax]
          exact ⟨rfl, .inl ⟨⟨_, rfl⟩, trivial⟩⟩
        · exact ⟨rfl, .inr rfl⟩
  · -- the node before the candidate is missing, or cannot be read
    have hnone : trusted plus min now w.disk b = none := by
      rw [trusted, nextBreadcrumb, hread]
      simp only [if_neg hroot]
      split
      · split
        · next cursnapshot hcur' => exact absurd ⟨cursnapshot, hcur'⟩ hcur
        · rfl
      · rfl
    rw [hnone, Trust.maybeUpdateBreadcrumb, if_neg hroot, if_neg (not_not.mpr hnode)]
    simp only [wp_bind, wp_getEncodedSnapshotId, true_and]
    rcases hread' : w.disk.readId ⟨b.untrustedBegin.value - 1⟩ with e | _ | cursnapshot
    · exact ⟨rfl, .inl ⟨⟨_, rfl⟩, trivial⟩⟩
    · exact ⟨rfl, .inl ⟨⟨_, rfl⟩, trivial⟩⟩
    · exact absurd ⟨cursnapshot, hread'⟩ hcur

/-- One iteration of the loop, in terms of the decision that it takes. -/
theorem wp_pruneRepositoryLoop_of_trusted {b : Breadcrumb} {w : World β} {tr : List Event}
    {Q : Result Exn Unit → List Event → World β → Prop}
    (hb : w.repositoryStructure.breadcrumb = b) (fuel : ℕ)
    (hnone : trusted plus (minTimeBetweenSnapshots params) now w.disk b = none →
      ∀ r tr, Q r tr w)
    (hsome : ∀ b', trusted plus (minTimeBetweenSnapshots params) now w.disk b = some b' →
      ∀ tr, (do
        forEachNode b.untrustedBegin.prune (deleteNode env)
        writeBreadcrumb b'
        pruneRepositoryLoop plus env params now fuel).wp (fun _ _ => True) Q tr w) :
    (pruneRepositoryLoop plus env params now (fuel + 1)).wp (fun _ _ => True) Q tr w := by
  simp only [pruneRepositoryLoop, getBreadcrumb, wp_bind, wp_look, bindPost,
    wp_tryGetEncodedSnapshotId, hb, true_and]
  have hcandidate : (∀ candidate, w.disk.readId b.untrustedBegin ≠ .ok (some candidate)) →
      trusted plus (minTimeBetweenSnapshots params) now w.disk b = none := by
    intro hread
    rw [trusted, nextBreadcrumb]
    split
    · split
      · next candidate heq => exact absurd heq (hread candidate)
      · rfl
    · rfl
  rcases hread : w.disk.readId b.untrustedBegin with e | _ | candidate
  · exact hnone (hcandidate (by simp [hread])) _ _
  · exact hnone (hcandidate (by simp [hread])) _ _
  · simp only [Result.ofExcept, wp_bind]
    refine wp_post (fun r tr w' hr => ?_) (maybeUpdateBreadcrumb_ends hread _)
    obtain ⟨rfl, ⟨⟨e, rfl⟩, htrusted⟩ | rfl⟩ := hr
    · exact hnone htrusted _ _
    · cases htrusted : trusted plus (minTimeBetweenSnapshots params) now w'.disk b with
      | none => exact hnone htrusted _ _
      | some b' =>
          exact hsome b' htrusted tr

/-- The program leaves what the relation says. -/
theorem LoopEnds.wp_pruneRepositoryLoop {disk final : Disk} {b b' : Breadcrumb}
    (h : LoopEnds plus (minTimeBetweenSnapshots params) now disk b final b')
    {w : World β} (hdisk : w.disk = disk) (hb : w.repositoryStructure.breadcrumb = b) (fuel : ℕ)
    (hfuel : 2 ^ 64 ≤ fuel + b.untrustedBegin.toNat) (tr : List Event) :
    (pruneRepositoryLoop plus env params now fuel).wp (fun _ _ => True)
      (fun _ _ w => w.disk = final) tr w := by
  -- the breadcrumb comes to its end before the fuel does
  have hsucc (b : Breadcrumb) (fuel : ℕ) (hfuel : 2 ^ 64 ≤ fuel + b.untrustedBegin.toNat) :
      ∃ fuel', fuel = fuel' + 1 := by
    have hlt := b.untrustedBegin.toNat_lt
    exact Nat.exists_eq_succ_of_ne_zero (by omega)
  induction h generalizing w fuel tr with
  | stop hnone =>
      subst hdisk
      obtain ⟨fuel, rfl⟩ := hsucc _ fuel hfuel
      -- nothing is written, and the loop returns or throws
      refine wp_pruneRepositoryLoop_of_trusted hb fuel (fun _ _ _ => rfl) fun b' hsome => ?_
      rw [hnone] at hsome
      cases hsome
  | @fail disk b b₁ htrusted hprune =>
      subst hdisk
      obtain ⟨fuel, rfl⟩ := hsucc _ fuel hfuel
      refine wp_pruneRepositoryLoop_of_trusted hb fuel (fun hnone => ?_) fun b' _ tr => ?_
      · rw [htrusted] at hnone
        cases hnone
      · rw [wp_bind]
        refine wp_post (fun r tr w' hr => ?_)
          (forEachNode_ends (fun node w => deleteNode_ends env node w) w tr)
        obtain ⟨rfl, rfl⟩ := hr
        -- the exception leaves the loop; the nodes that came before it have been deleted
        cases hresult : b.untrustedBegin.prune.result with
        | val _ => exact absurd hresult hprune
        | exn e => rfl
        | diverged => rfl
  | @step disk final b b₁ b'' htrusted hprune _ ih =>
      subst hdisk
      obtain ⟨fuel, rfl⟩ := hsucc _ fuel hfuel
      obtain ⟨-, -, hnext⟩ := trusted_some htrusted
      refine wp_pruneRepositoryLoop_of_trusted hb fuel (fun hnone => ?_) fun b' hsome tr => ?_
      · rw [htrusted] at hnone
        cases hnone
      · obtain rfl : b₁ = b' := Option.some.inj (htrusted.symm.trans hsome)
        rw [wp_bind]
        refine wp_post (fun r tr w' hr => ?_)
          (forEachNode_ends (fun node w => deleteNode_ends env node w) w tr)
        obtain ⟨rfl, rfl⟩ := hr
        rw [hprune]
        -- the breadcrumb is written, and the rest of the run is that of the relation
        simp only [bindPost, wp_bind, wp_writeBreadcrumb, true_and]
        exact ih rfl rfl fuel (by omega) _

/-- The command. -/
theorem LoopEnds.command {w : World β} {final : Disk} {b b' : Breadcrumb}
    (h : LoopEnds plus (minTimeBetweenSnapshots params) now w.disk b final b')
    {repository : String} (hargs : ∃ args, w.disk.readInitargs repository = .ok args)
    (hread : w.disk.readBreadcrumb = .ok b) (hfuel : 2 ^ 64 ≤ env.fuel) :
    (stateAfter w ((pruneRepositoryCommand repository plus env params now).run w).steps).disk =
      final := by
  refine wp_run_nil (I := fun _ _ => True) (Q := fun _ _ w' => w'.disk = final) (s := w) ?_
  rw [pruneRepositoryCommand, wp_bind]
  refine wp_openRepository_readable hargs hread (fun _ _ _ _ _ _ => trivial) ?_
  intro ls w' _ _ hdisk hb
  exact h.wp_pruneRepositoryLoop hdisk hb env.fuel (by omega) _

end

/-!
## Schedules

Nodes appear in the course of time. That a node appears only in quarantine is said of the beginning;
it stays so, since a run of the loop never passes over a node that is missing (`LoopEnds.keeps`).
-/

/-- When the directory of a node appears, and what it holds. -/
abbrev Arrivals := Node → Option (Int64 × NodeDir)

/-- The nodes that appear after the one time, if it is given, and up to the other one. -/
def Arrivals.between (arrivals : Arrivals) (since : Option Int64) (now : Int64) (node : Node) :
    Option NodeDir :=
  match arrivals node with
  | some (at', dir) => if (since.all fun s => s < at') ∧ at' ≤ now then some dir else none
  | none => none

section
variable (plus : Int64 → Int64 → ℤ) (repository : String) (params : RepositoryParams)
  (arrivals : Arrivals)

/-- Run the command at each of the given times, on what has appeared until then. -/
def pruneOnSchedule : Option Int64 → List (Env × Int64) → World β → World β
  | _, [], w => w
  | since, (env, now) :: rest, w =>
    let w := { w with disk := w.disk.add (arrivals.between since now) }
    pruneOnSchedule (some now) rest
      (stateAfter w ((pruneRepositoryCommand repository plus env params now).run w).steps)

/-- The nodes that appear after the given time are new, and in quarantine. -/
def Upcoming (since : Option Int64) (disk : Disk) (b : Breadcrumb) : Prop :=
  ∀ node at' dir, arrivals node = some (at', dir) → (∀ s ∈ since, s < at') →
    b.untrustedBegin.toNat ≤ node.toNat ∧ disk.snapshots node = none

end

section
variable {plus : Int64 → Int64 → ℤ} {repository : String} {params : RepositoryParams}
  {arrivals : Arrivals} {since : Option Int64} {now : Int64} {disk : Disk} {b : Breadcrumb}

theorem Upcoming.arrives (h : Upcoming arrivals since disk b) (now : Int64) :
    Arrives disk b (arrivals.between since now) := by
  intro node hs
  unfold Arrivals.between at hs
  split at hs
  · next at' dir hnode =>
      split at hs
      · next hat =>
          refine h node at' dir hnode fun s hs => ?_
          exact of_decide_eq_true ((Option.all_eq_true _ _).mp hat.1 s hs)
      · cases hs
  · cases hs

/-- What appears later has not appeared yet. -/
theorem Upcoming.later (h : Upcoming arrivals since disk b) (hsince : ∀ s ∈ since, s ≤ now) :
    Upcoming arrivals (some now) (disk.add (arrivals.between since now)) b := by
  intro node at' dir hnode hlater
  have hnow : now < at' := hlater now rfl
  obtain ⟨hle, hnone⟩ := h node at' dir hnode fun s hs => by
    have hs' := hsince s hs
    rw [Int64.lt_iff_toInt_lt] at hnow ⊢
    rw [Int64.le_iff_toInt_le] at hs'
    omega
  refine ⟨hle, ?_⟩
  have hnot : ¬ at' ≤ now := by
    rw [Int64.lt_iff_toInt_lt] at hnow
    rw [Int64.le_iff_toInt_le]
    omega
  simp [Disk.add, Arrivals.between, hnode, hnot, hnone]

/-- Two periods, one after the other. -/
theorem between_or {t : Int64} (hsince : ∀ s ∈ since, s ≤ t) (ht : t ≤ now) (node : Node) :
    (arrivals.between (some t) now node).or (arrivals.between since t node) =
      arrivals.between since now node := by
  unfold Arrivals.between
  cases arrivals node with
  | none => rfl
  | some arrival =>
      obtain ⟨at', dir⟩ := arrival
      by_cases hlater : t < at'
      · have hall : since.all (fun s => s < at') = true := by
          refine (Option.all_eq_true _ _).mpr fun s hs => decide_eq_true ?_
          exact Int64.lt_of_le_of_lt (hsince s hs) hlater
        have hnot : ¬ at' ≤ t := Int64.not_le.mpr hlater
        simp [hlater, hnot, hall]
      · have hle : at' ≤ t := Int64.not_lt.mp hlater
        simp [hlater, hle, Int64.le_trans hle ht]

theorem add_between {t : Int64} (hsince : ∀ s ∈ since, s ≤ t) (ht : t ≤ now) :
    (disk.add (arrivals.between since t)).add (arrivals.between (some t) now) =
      disk.add (arrivals.between since now) := by
  unfold Disk.add
  congr 1
  funext node
  rw [← between_or hsince ht, Option.or_assoc]

/-- A schedule, with whatever arrives on the way, leaves what one run of the loop at the end leaves,
given all that has arrived by then. -/
theorem pruneOnSchedule_loopEnds {schedule : List (Env × Int64)} {env : Env} {w : World β}
    (hargs : ∃ args, w.disk.readInitargs repository = .ok args)
    (hread : w.disk.readBreadcrumb = .ok b) (hroot : b.untrustedBegin ≠ Node.initialValue)
    (hupcoming : Upcoming arrivals since w.disk b)
    (hsorted : (since.toList ++ schedule.map Prod.snd ++ [now]).Pairwise (· ≤ ·))
    (hfuel : ∀ run ∈ schedule ++ [(env, now)], 2 ^ 64 ≤ run.1.fuel) :
    ∃ b', LoopEnds plus (minTimeBetweenSnapshots params) now
      (w.disk.add (arrivals.between since now)) b
      (pruneOnSchedule plus repository params arrivals since (schedule ++ [(env, now)]) w).disk
      b' := by
  induction schedule generalizing since w b with
  | nil =>
      obtain ⟨final, b', hends⟩ : ∃ final b', LoopEnds plus (minTimeBetweenSnapshots params) now
          (w.disk.add (arrivals.between since now)) b final b' := exists_loopEnds _ _
      rw [List.nil_append, pruneOnSchedule, pruneOnSchedule,
        LoopEnds.command (w := { w with disk := w.disk.add (arrivals.between since now) }) hends
          hargs hread (hfuel (env, now) (by simp))]
      exact ⟨b', hends⟩
  | cons run schedule ih =>
      obtain ⟨env₁, t⟩ := run
      have hsince : ∀ s ∈ since, s ≤ t := by
        rintro s rfl
        exact List.rel_of_pairwise_cons hsorted (by simp)
      have hrest : ((some t).toList ++ schedule.map Prod.snd ++ [now]).Pairwise (· ≤ ·) :=
        hsorted.sublist (by simp)
      have ht : t ≤ now := List.rel_of_pairwise_cons hrest (by simp)
      -- the first run, which the others take up
      obtain ⟨final, b₁, hends⟩ : ∃ final b₁, LoopEnds plus (minTimeBetweenSnapshots params) t
          (w.disk.add (arrivals.between since t)) b final b₁ := exists_loopEnds _ _
      obtain ⟨hinitargs, hread₁, hle, hnodes⟩ := hends.keeps
      have hfinal : (stateAfter { w with disk := w.disk.add (arrivals.between since t) }
          ((pruneRepositoryCommand repository plus env₁ params t).run
            { w with disk := w.disk.add (arrivals.between since t) }).steps).disk = final :=
        hends.command hargs hread (hfuel (env₁, t) List.mem_cons_self)
      -- the rest of the schedule starts from what the first run has left
      have hlater := hupcoming.later hsince
      rw [List.cons_append, pruneOnSchedule]
      generalize stateAfter _ _ = w₁ at hfinal ⊢
      subst hfinal
      have hargs₁ : ∃ args, w₁.disk.readInitargs repository = .ok args := by
        unfold Disk.readInitargs
        rw [hinitargs]
        exact hargs
      have hroot₁ : b₁.untrustedBegin ≠ Node.initialValue := by
        intro hzero
        rw [hzero] at hle
        exact hroot (Node.toNat_inj.mp (Nat.le_zero.mp hle))
      have hupcoming₁ : Upcoming arrivals (some t) w₁.disk b₁ := by
        intro node at' dir hnode hat
        obtain ⟨hu, hnone⟩ := hlater node at' dir hnode hat
        exact ⟨(hnodes node hnone).2 hu, (hnodes node hnone).1⟩
      obtain ⟨b', hrun⟩ := ih hargs₁ (hread₁ hread) hroot₁ hupcoming₁ hrest
        fun run hrun => hfuel run (List.mem_cons_of_mem _ hrun)
      -- so the others end where they would have ended without the first
      refine ⟨b', ?_⟩
      rw [← add_between hsince ht]
      exact hends.resume ht hroot (hlater.arrives now) hrun

/-- How often the command is run, and when, does not matter: the directory, with the breadcrumb in
it, is in the end what a single run at the end leaves, provided that nodes only ever appear in
quarantine. -/
theorem prune_schedule_independent {w : World β}
    (hargs : ∃ args, w.disk.readInitargs repository = .ok args)
    (hread : w.disk.readBreadcrumb = .ok b) (htrusts : 1 ≤ b.untrustedBegin.toNat)
    (harrivals : ∀ node at' dir, arrivals node = some (at', dir) →
      b.untrustedBegin.toNat ≤ node.toNat ∧ w.disk.snapshots node = none) :
    ∃ fuel, ∀ (schedule : List (Env × Int64)) (env env' : Env) (now : Int64),
      (schedule.map Prod.snd ++ [now]).Pairwise (· ≤ ·) →
      (∀ run ∈ schedule ++ [(env, now)], fuel ≤ run.1.fuel) → fuel ≤ env'.fuel →
      (pruneOnSchedule plus repository params arrivals none (schedule ++ [(env, now)]) w).disk =
        (pruneOnSchedule plus repository params arrivals none [(env', now)] w).disk := by
  refine ⟨2 ^ 64, fun schedule env env' now hsorted hfuel hfuel' => ?_⟩
  have hroot : b.untrustedBegin ≠ Node.initialValue := by
    intro hzero
    rw [hzero] at htrusts
    exact absurd htrusts (by decide)
  have hupcoming : Upcoming arrivals none w.disk b := fun node at' dir hnode _ =>
    harrivals node at' dir hnode
  obtain ⟨b', hmany⟩ := pruneOnSchedule_loopEnds hargs hread hroot hupcoming hsorted hfuel
  have hfuel₁ : ∀ run ∈ [] ++ [(env', now)], 2 ^ 64 ≤ run.1.fuel := by simpa using hfuel'
  obtain ⟨b'', hsingle⟩ := pruneOnSchedule_loopEnds hargs hread hroot hupcoming
    (List.pairwise_singleton _ now) hfuel₁
  exact hmany.unique hsingle

end

/-- The mirror once the initial node is trusted. -/
def sampleTrusting : World Unit :=
  { sampleMirror with
    disk := { sampleMirror.disk with breadcrumb := some (⟨⟨1⟩, 0⟩ : Breadcrumb).serialise } }

/-- Node 2 appears between two runs. -/
def sampleArrivals : Arrivals := fun node =>
  if node = ⟨2⟩ then
    some (1600000000,
      ⟨some { Encoded.plain ⟨2⟩ with timestamp := 1500000000 }.serialise, some []⟩)
  else none

/-- The earlier run trusts node 1, the later one node 2, and a run that comes last both. -/
theorem prune_schedule_independent_two :
    (pruneOnSchedule Trust.exactPlus "repository" ⟨false, 1⟩ sampleArrivals none
        [(sampleEnv, 1000000000)] sampleTrusting).disk.readBreadcrumb =
      .ok ⟨⟨2⟩, 1000000000⟩ ∧
    (pruneOnSchedule Trust.exactPlus "repository" ⟨false, 1⟩ sampleArrivals none
        [(sampleEnv, 1000000000), (sampleEnv, 4000000000)] sampleTrusting).disk.readBreadcrumb =
      .ok ⟨⟨3⟩, 2000000000⟩ ∧
    ∃ fuel, ∀ env : Env, fuel ≤ env.fuel →
      (pruneOnSchedule Trust.exactPlus "repository" ⟨false, 1⟩ sampleArrivals none
          [(env, 1000000000), (env, 4000000000)] sampleTrusting).disk =
        (pruneOnSchedule Trust.exactPlus "repository" ⟨false, 1⟩ sampleArrivals none
          [(env, 4000000000)] sampleTrusting).disk := by
  refine ⟨by decide +kernel, by decide +kernel, ?_⟩
  obtain ⟨fuel, heq⟩ := @prune_schedule_independent _ Trust.exactPlus "repository" ⟨false, 1⟩
    sampleArrivals ⟨⟨1⟩, 0⟩ sampleTrusting
    (fresh_sampleWorld.tracked.numbered.initargs "repository")
    (Breadcrumb.deserialise_serialise _) (by decide) (by
      intro node at' dir hnode
      rw [sampleArrivals] at hnode
      split at hnode
      · next hnode' =>
          subst hnode'
          exact ⟨by decide, rfl⟩
      · cases hnode)
  have hsorted : ([1000000000, 4000000000] : List Int64).Pairwise (· ≤ ·) := by decide
  exact ⟨fuel, fun env henv =>
    heq [(env, 1000000000)] env env 4000000000 hsorted (by simpa using henv) henv⟩

end Controller

end Diffmonger
