import Diffmonger.Controller.Breadcrumb

/-!
# The latest trusted node

`getLatestTrustedNode` is documented to return a node that is trusted and whose path is stored. It
returns the first untrusted node.

Main result: `latestTrusted_iff`. The two agree only where nothing is trusted. After completed
commands this means that nothing has been stored: a command that returns has committed a node, or
was a run of `prune_repository`, which trusts nothing in a repository without nodes (`Untouched`).
-/

namespace Diffmonger

open Prog RepositoryStructure

variable {β S σ : Type}

namespace Controller

/-!
## What is documented

The comment in the header asks for a node that is trusted, and available together with its whole
path. In an empty repository there is none.
-/

/-- What the documentation says about the result, in a repository with the breadcrumb `b`. -/
def IsLatestTrusted (disk : Disk) (b : Breadcrumb) : Option Node → Prop
  | some n => n.toNat < b.untrustedBegin.toNat ∧ (disk.snapshots n).isSome ∧
      ∀ k ∈ fenwick.path n.toNat, k ∈ disk.nodes
  | none => ∀ n : Node, ¬ n.toNat < b.untrustedBegin.toNat

/-- A new process that asks for the latest trusted node is given it. -/
def ReturnsLatestTrusted (repository : String) (w : World β) : Prop :=
  ∃ b latest, w.disk.readBreadcrumb = .ok b ∧
    ((do openRepository repository; getLatestTrustedNode : Repo β _).run w).result = .val latest ∧
    IsLatestTrusted w.disk b latest

/-- The source returns `untrusted_begin`. -/
theorem getLatestTrustedNode_ends {w : World β} {repository : String}
    (hargs : ∃ args, w.disk.readInitargs repository = .ok args) {b : Breadcrumb}
    (hread : w.disk.readBreadcrumb = .ok b) :
    (do openRepository repository; getLatestTrustedNode : Repo β _).Ends
      (fun r _ => r = .val (if b.untrustedBegin = Node.initialValue then none
        else some b.untrustedBegin)) w := by
  intro tr
  rw [wp_bind]
  refine wp_openRepository_readable hargs hread (fun _ _ _ _ _ _ => trivial) ?_
  intro ls w' _ _ _ hb
  simp only [bindPost, getLatestTrustedNode, getBreadcrumb, wp_bind, wp_look, wp_pure, hb, true_and]

/-- This is the latest trusted node only if there is none. -/
theorem returnsLatestTrusted_iff {w : World β} {repository : String}
    (hargs : ∃ args, w.disk.readInitargs repository = .ok args) {b : Breadcrumb}
    (hread : w.disk.readBreadcrumb = .ok b) :
    ReturnsLatestTrusted repository w ↔ b.untrustedBegin = Node.initialValue := by
  have hend := ends_iff_run.mp (getLatestTrustedNode_ends hargs hread)
  constructor
  · rintro ⟨b', latest, hread', hval, hlatest⟩
    obtain rfl := Except.ok.inj (hread.symm.trans hread')
    obtain rfl := Result.val.inj (hval.symm.trans hend)
    by_contra hroot
    rw [if_neg hroot] at hlatest
    exact lt_irrefl _ hlatest.1
  · intro hroot
    rw [if_pos hroot] at hend
    refine ⟨b, none, hread, hend, fun n hn => ?_⟩
    rw [hroot] at hn
    exact Nat.not_lt_zero _ hn

/-!
## Commands that store a node

A program commits a node if it returns: this is said of the labels of its run, and holds of a
sequence of programs as soon as it holds of one of them.
-/

/-- If the program returns, a node has been committed. -/
def CommitsIfReturns {α : Type} (p : Repo β α) : Prop :=
  ∀ tr w, p.wp (fun _ _ => True) (fun r tr' _ => ∀ a, r = .val a → committed tr' ≠ []) tr w

theorem CommitsIfReturns.after {α γ : Type} {k : γ → Repo β α} (h : ∀ a, CommitsIfReturns (k a))
    (p : Repo β γ) : CommitsIfReturns (p >>= k) := by
  intro tr w
  rw [wp_bind]
  refine wp_post (fun r tr w _ => ?_) (ends_trivial tr)
  cases r with
  | val a => exact h a tr w
  | exn e => exact nofun
  | diverged => exact nofun

theorem CommitsIfReturns.map {α γ : Type} {p : Repo β γ} (h : CommitsIfReturns p) (f : γ → α) :
    CommitsIfReturns (p >>= fun x => pure (f x)) := by
  intro tr w
  rw [wp_bind]
  refine wp_post (fun r tr w hr => ?_) (h tr w)
  cases r with
  | val x => exact fun _ _ => hr x rfl
  | exn e => exact nofun
  | diverged => exact nofun

section
variable {driver : BackendDriver β S} {sodium : Sodium σ} {env : Env} {params : RepositoryParams}

/-- Whatever happens after the rename. -/
theorem commitsIfReturns_commitRename (encoded : Encoded) :
    CommitsIfReturns (commitRename encoded : Repo β Unit) := by
  intro tr w
  have hne (ls : List Event) : committed (tr ++ [.rename encoded.node] ++ ls) ≠ [] := by
    rw [committed_append, committed_append]
    simp [committed]
  rw [commitRename, wp_bind, wp_perform]
  refine ⟨trivial, ?_⟩
  cases hnext : encoded.node.next with
  | error e => exact fun _ h => by cases h
  | ok next =>
      simp only [bindPost, wp_bind, wp_ofExcept, Result.ofExcept, wp_writeBreadcrumb, true_and]
      exact fun _ _ => hne _

theorem commitsIfReturns_storeSnapshot (id : S) (maybeParent : Option S) :
    CommitsIfReturns (storeSnapshot driver sodium env params id maybeParent) := by
  intro tr w
  refine wp_storeSnapshot driver (fun _ _ _ => trivial) (fun _ _ _ _ hr a h => absurd h hr) ?_
  exact fun ls w' _ _ _ _ => commitsIfReturns_commitRename _ _ _

/-- The loop of `snapshot` returns only after an iteration that has stored a node. -/
theorem commitsIfReturns_snapshot : CommitsIfReturns (snapshot driver sodium env params) := by
  have hiteration : CommitsIfReturns (_snapshot driver sodium env params) := by
    rw [_snapshot_eq]
    refine .after (fun node => .after (fun _ => .after (fun ⟨maybeParent, id, old⟩ => ?_) _) _) _
    exact (commitsIfReturns_storeSnapshot id maybeParent).map fun _ => !old
  unfold snapshot
  generalize env.fuel = fuel
  intro tr w
  induction fuel generalizing tr w with
  | zero => exact fun _ h => by cases h
  | succ fuel ih =>
      rw [snapshotLoop, wp_bind]
      refine wp_post (fun r tr w hr => ?_) (hiteration tr w)
      cases r with
      | exn e => exact fun _ h => by cases h
      | diverged => exact fun _ h => by cases h
      | val done =>
          cases done with
          | true => exact fun _ _ => hr true rfl
          | false => exact ih tr w

theorem commitsIfReturns_snapshotImport {createSnapshot : Bool} {bytes : Bytes} :
    CommitsIfReturns (snapshotImport driver sodium env params createSnapshot bytes) := by
  intro tr w
  refine wp_snapshotImport (fun _ _ _ => trivial) (fun _ _ r _ hr a h => absurd h (hr a)) ?_
  exact fun ls w' encoded id _ _ _ => commitsIfReturns_commitRename _ _ _

/-!
## Repositories without nodes

As long as no command has committed a node, the directory holds none, and the breadcrumb names the
initial one. A command that returns and commits nothing is a run of `prune_repository`, which finds
nothing to trust.
-/

/-- Nothing has been stored, and nothing is trusted. -/
structure Untouched (disk : Disk) : Prop where
  breadcrumb : ∃ b, disk.readBreadcrumb = .ok b ∧ b.untrustedBegin = Node.initialValue
  absent : ∀ node, disk.snapshots node = none

/-- There is nothing to prune. -/
theorem Untouched.pruneRepository {w : World β} (h : Untouched w.disk) (repository : String)
    (plus : Int64 → Int64 → ℤ) (now : Int64) :
    (pruneRepositoryCommand repository plus env params now).Ends
      (fun _ w' => w'.disk = w.disk) w := by
  obtain ⟨b, hread, hroot⟩ := h.breadcrumb
  intro tr
  rw [pruneRepositoryCommand, wp_bind]
  refine wp_openRepository repository (fun _ _ _ => trivial) (fun _ _ _ _ _ => rfl) ?_
  intro ls args b' _ _ _ hread'
  obtain rfl := Except.ok.inj (hread.symm.trans hread')
  refine ⟨trivial, ?_⟩
  have hfirst : (w.opened repository args b).disk.readId b.untrustedBegin = .ok none :=
    Disk.readId_of_absent (h.absent _)
  rw [bindPost, Controller.pruneRepository]
  cases env.fuel with
  | zero => rfl
  | succ fuel =>
      simp only [pruneRepositoryLoop, getBreadcrumb, wp_bind, wp_look, bindPost,
        wp_tryGetEncodedSnapshotId, true_and]
      rw [World.opened] at hfirst ⊢
      simp only [hfirst]
      rfl

/-- A command that completes and commits nothing. -/
theorem Untouched.attempt {a : Attempt Event (World β) Exn Unit} (h : Untouched a.start.disk)
    (hprogram : a.program ∈ commands driver sodium) (hcompleted : a.Completed)
    (hnone : committed a.labels = []) : Untouched a.state.disk := by
  have hcommits {p : Repo β Unit} {repository : String} (hp : CommitsIfReturns p)
      (hq : a.program = do openRepository repository; p) : Untouched a.state.disk := by
    obtain ⟨x, hpost⟩ := hcompleted.post (hq ▸ CommitsIfReturns.after (fun _ => hp) _ [] a.start)
    exact absurd hnone (hpost x rfl)
  rcases hprogram with (⟨repository, env, params, hp⟩ | ⟨repository, plus, env, params, now, hp⟩) |
    ⟨repository, env, params, createSnapshot, bytes, hp⟩
  · exact hcommits commitsIfReturns_snapshot hp
  · obtain ⟨x, hpost⟩ := hcompleted.post (hp ▸ h.pruneRepository repository plus now [])
    rwa [hpost]
  · exact hcommits commitsIfReturns_snapshotImport hp

theorem Untouched.start {w w' : World β} (h : Untouched w.disk) (hw : SameButKeys w w') :
    Untouched w'.disk := by
  obtain ⟨keys, hdisk⟩ := hw
  rw [hdisk]
  exact ⟨h.breadcrumb, h.absent⟩

/-- Nothing is trusted as long as no node has been taken. -/
theorem untouched_of_history {w₀ w : World β} {as : List (Attempt Event (World β) Exn Unit)}
    (h₀ : Fresh w₀)
    (hist : History (commands driver sodium) SameButKeys Attempt.Completed w₀ as w) :
    Taken as = ∅ → Untouched w.disk := by
  refine hist.invariant (fun as w => Taken as = ∅ → Untouched w.disk) ?_ ?_
  · intro _
    obtain ⟨_, formatUuid, initargs, uuid, hcreated, -⟩ := h₀
    obtain ⟨-, hread, hnodes⟩ := createRepository_spec hcreated
    refine ⟨⟨_, hread, rfl⟩, fun node => ?_⟩
    rw [← Option.not_isSome_iff_eq_none, ← Disk.toNat_mem_nodes, hnodes]
    exact Set.notMem_empty _
  · intro as w a ih hstart hprogram hcompleted hnone
    rw [Set.eq_empty_iff_forall_notMem] at hnone
    have hbefore : Taken as = ∅ := Set.eq_empty_iff_forall_notMem.mpr fun n ⟨a', ha', hn⟩ =>
      hnone n ⟨a', List.mem_append_left _ ha', hn⟩
    have hlast : committed a.labels = [] := List.eq_nil_iff_forall_not_mem.mpr fun n hn =>
      hnone n ⟨a, by simp, hcompleted, hn⟩
    exact ((ih hbefore).start hstart).attempt hprogram hcompleted hlast

/-- After completed commands, imports being in ascending order, the latest trusted node is what its
documentation says it is if and only if no command has stored a node yet. -/
theorem latestTrusted_iff {w₀ w : World β} {as : List (Attempt Event (World β) Exn Unit)}
    (h₀ : Fresh w₀)
    (hist : History (commands driver sodium) SameButKeys Attempt.Completed w₀ as w)
    (hahead : AllAhead driver sodium as) {w' : World β} (hnext : SameButKeys w w')
    (repository : String) : ReturnsLatestTrusted repository w' ↔ Taken as = ∅ := by
  obtain ⟨b₀, hreadable⟩ := readable_of_completed h₀ hist
  have hreadable := hreadable.start hnext
  rw [returnsLatestTrusted_iff (hreadable.initargs repository) hreadable.breadcrumb]
  constructor
  · intro hroot
    -- what has been taken is below the first untrusted node
    rw [Set.eq_empty_iff_forall_notMem]
    intro n hn
    rcases (takenBelow_of_history h₀ hist).start hnext with ⟨e, herror⟩ | ⟨b, hb, htaken⟩
    · rw [hreadable.breadcrumb] at herror
      cases herror
    · have hlt := htaken hahead n hn
      have hb : b.untrustedBegin = Node.initialValue := by
        rwa [Except.ok.inj (hreadable.breadcrumb.symm.trans hb.breadcrumb)] at hroot
      rw [hb] at hlt
      exact Nat.not_lt_zero _ hlt
  · intro hnone
    obtain ⟨b, hread, hroot⟩ := ((untouched_of_history h₀ hist hnone).start hnext).breadcrumb
    rwa [Except.ok.inj (hread.symm.trans hreadable.breadcrumb)] at hroot

end

/-! ## Runs on fixed inputs -/

theorem allAhead_sampleSnapshots (k : ℕ) :
    AllAhead (.constant [7]) Sodium.transparent (sampleSnapshots k).1 := by
  induction k with
  | zero => exact List.forall_mem_nil _
  | succ k ih =>
      exact List.forall_mem_append.mpr ⟨ih, List.forall_mem_singleton.mpr
        (.inl (.inl ⟨"repository", sampleEnv, ⟨false, 0⟩, rfl⟩))⟩

/-- In a new repository, no node is trusted; after two snapshots, the wrong one is returned. -/
theorem latestTrusted_iff_two : ReturnsLatestTrusted "repository" sampleWorld ∧
    ¬ ReturnsLatestTrusted "repository" (sampleSnapshots 2).2 := by
  have hiff {k : ℕ} (hist : History (commands (.constant [7]) Sodium.transparent) SameButKeys
      Attempt.Completed sampleWorld (sampleSnapshots k).1 (sampleSnapshots k).2) :
      ReturnsLatestTrusted "repository" (sampleSnapshots k).2 ↔ Taken (sampleSnapshots k).1 = ∅ :=
    latestTrusted_iff fresh_sampleWorld hist (allAhead_sampleSnapshots k) (SameButKeys.refl _)
      "repository"
  refine ⟨(hiff (k := 0) .nil).mpr ?_, fun h => ?_⟩
  · exact Set.eq_empty_of_forall_notMem fun _ ⟨_, ha, _⟩ => absurd ha List.not_mem_nil
  · have hist : History (commands (.constant [7]) Sodium.transparent) SameButKeys Attempt.Completed
        sampleWorld (sampleSnapshots 2).1 (sampleSnapshots 2).2 :=
      history_sampleSnapshots fun i hi => ⟨rfl, (), by revert i; decide +kernel⟩
    -- the first command has stored node 0
    have hfirst : ⟨0⟩ ∈ Taken (sampleSnapshots 2).1 :=
      ⟨_, List.mem_cons_self, ⟨rfl, (), by decide +kernel⟩, by decide +kernel⟩
    rw [(hiff hist).mp h] at hfirst
    exact Set.notMem_empty _ hfirst

/-- After one snapshot, the node 1 is returned. It is not trusted, and there is no such node. -/
theorem latestTrusted_one :
    History (commands (.constant [7]) Sodium.transparent) SameButKeys Attempt.Completed sampleWorld
        (sampleSnapshots 1).1 (sampleSnapshots 1).2 ∧
      AllAhead (.constant [7]) Sodium.transparent (sampleSnapshots 1).1 ∧
      ¬ ReturnsLatestTrusted "repository" (sampleSnapshots 1).2 := by
  have hist : History (commands (.constant [7]) Sodium.transparent) SameButKeys Attempt.Completed
      sampleWorld (sampleSnapshots 1).1 (sampleSnapshots 1).2 :=
    history_sampleSnapshots fun i hi => ⟨rfl, (), by revert i; decide +kernel⟩
  have hread : (sampleSnapshots 1).2.disk.readBreadcrumb = .ok ⟨⟨1⟩, 0⟩ := by decide +kernel
  obtain ⟨_, hreadable⟩ := readable_of_completed fresh_sampleWorld hist
  refine ⟨hist, allAhead_sampleSnapshots 1, ?_⟩
  rw [returnsLatestTrusted_iff (hreadable.initargs "repository") hread]
  decide

end Controller

end Diffmonger
