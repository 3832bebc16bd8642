import Diffmonger.Controller.Spec

/-!
# Histories of snapshots

A repository under a sequence of attempts to take a snapshot, each by the same process as the one
before or by a new one. What the attempts have done so far is read off the labels of their steps:
`committed` lists the nodes that have appeared, `recorded` the breadcrumbs that have been written.

Main result: `snapshots_maintain_aliveAfter`. The invariant on disk is `Numbered`, and `Tracked`
adds what a process knows that has opened the repository. Until the next node is committed, the
steps only prepare it, and delete nothing but what dies with it (`Tracked.prepared`); what is left
then is described by the Fenwick schedule (`fenwick.Kept`). The commit itself is looked at step by
step (`Tracked.commit`).
-/

namespace Diffmonger

open Prog RepositoryStructure

variable {β S σ : Type}

/-- The nodes whose directories have been renamed into place. -/
def committed (events : List Event) : List Node :=
  events.filterMap fun
    | .rename node => some node
    | _ => none

/-- The breadcrumbs that have been written. -/
def recorded (events : List Event) : List Breadcrumb :=
  events.filterMap fun
    | .writeBreadcrumb breadcrumb => some breadcrumb
    | _ => none

@[simp] theorem committed_append (events events' : List Event) :
    committed (events ++ events') = committed events ++ committed events' :=
  List.filterMap_append

@[simp] theorem recorded_append (events events' : List Event) :
    recorded (events ++ events') = recorded events ++ recorded events' :=
  List.filterMap_append

/-- Preparing a node commits nothing. -/
theorem committed_of_prepares {D : Set ℕ} {events : List Event}
    (h : ∀ event ∈ events, event.Prepares D) : committed events = [] := by
  refine List.filterMap_eq_nil_iff.mpr fun event he => ?_
  cases event with
  | rename node => exact (h _ he).elim
  | _ => rfl

theorem recorded_of_prepares {D : Set ℕ} {events : List Event}
    (h : ∀ event ∈ events, event.Prepares D) : recorded events = [] := by
  refine List.filterMap_eq_nil_iff.mpr fun event he => ?_
  cases event with
  | writeBreadcrumb breadcrumb => exact (h _ he).elim
  | _ => rfl

namespace Disk

/-- Renaming the temporary directory makes a node appear. -/
theorem nodes_rename {disk : Disk} (h : disk.temporarySnapshot.isSome) (node : Node) :
    ((Event.rename node).apply disk).nodes = insert node.toNat disk.nodes := by
  ext k
  constructor
  · rintro ⟨m, rfl, hm⟩
    rcases eq_or_ne m node with rfl | hne
    · exact Set.mem_insert _ _
    · refine Or.inr (toNat_mem_nodes.mpr ?_)
      have heq := setNode_of_ne disk hne disk.temporarySnapshot
      rw [← heq]
      exact hm
  · rintro (rfl | ⟨m, rfl, hm⟩)
    · refine toNat_mem_nodes.mpr ?_
      have heq := setNode_self disk node disk.temporarySnapshot
      rw [← heq] at h
      exact h
    · refine toNat_mem_nodes.mpr ?_
      rcases eq_or_ne m node with rfl | hne
      · have heq := setNode_self disk m disk.temporarySnapshot
        rw [← heq] at h
        exact h
      · have heq := setNode_of_ne disk hne disk.temporarySnapshot
        rw [← heq] at hm
        exact hm

theorem nodes_congr {disk disk' : Disk} (h : disk.snapshots = disk'.snapshots) :
    disk.nodes = disk'.nodes := by
  unfold nodes
  rw [h]

end Disk

/-- Nothing is left of the nodes that die with `u`. -/
theorem notMem_dying_of_mem_removeNodes {w : World β} {u : Node} (hu : u.toNat < 2 ^ 63) {k : ℕ}
    (hk : k ∈ (removeNodes w u.prune.nodes).disk.nodes) : k ∉ fenwick.dying u.toNat := by
  obtain ⟨node, rfl, hs⟩ := hk
  intro hd
  have hmem : node.value ∈ u.prune.nodes := (Tree.mem_prune_nodes hu).mpr hd
  simp [removeNodes, hmem] at hs

/-- Deleting nodes that die next leaves a repository that is being pruned. -/
theorem World.Prepared.kept {c : ℕ} {D : Set ℕ} {w w' : World β} (h : World.Prepared D w w')
    (hD : D ⊆ fenwick.dying c) (hkept : fenwick.Kept c w.disk.nodes) :
    fenwick.Kept c w'.disk.nodes := by
  obtain ⟨hsub, hsub'⟩ := h.nodes
  have hdiff : w'.disk.nodes = w.disk.nodes \ (w.disk.nodes \ w'.disk.nodes) := by
    rw [sdiff_sdiff_right_self]
    exact (Set.inter_eq_right.mpr hsub').symm
  rw [hdiff]
  refine hkept.diff fun k hk => hD ?_
  by_contra hnot
  exact hk.2 (hsub ⟨hk.1, hnot⟩)

/-- The id that has been renamed into place. -/
theorem Disk.readId_rename {disk : Disk} {encoded : Encoded} {u : Node} (hu : encoded.node = u)
    {blob : Option Bytes} (htemp : disk.temporarySnapshot = some ⟨some encoded.serialise, blob⟩) :
    ((Event.rename u).apply disk).readId u = .ok (some encoded) := by
  refine Disk.readId_of_serialise ?_ hu
  have hdir := Disk.setNode_self disk u disk.temporarySnapshot
  show ((disk.setNode u disk.temporarySnapshot).snapshots u).bind NodeDir.id = _
  rw [hdir, htemp]
  rfl

namespace Controller

/-!
## The repository between two attempts

Everything is said in terms of the labels: how many nodes there have been, and whether the
breadcrumb has been written since the last one. An attempt that ends between the rename and the
breadcrumb is the only one that leaves the two out of step.
-/

/-- Every node that has appeared has been followed by a breadcrumb. -/
def Balanced (tr : List Event) : Prop := (recorded tr).length = (committed tr).length

/-- What holds on disk at every moment of a history of attempts, none of which ends between the
rename and the breadcrumb. -/
structure Numbered (tr : List Event) (disk : Disk) : Prop where
  /-- The nodes are committed in order. -/
  inOrder : (committed tr).map Node.toNat = List.range (committed tr).length
  bound : (committed tr).length ≤ 2 ^ 63
  kept : fenwick.Kept (committed tr).length disk.nodes
  initargs : ∀ repository, ∃ args, disk.readInitargs repository = .ok args
  /-- Whenever the breadcrumb is not about to be written, it says how many nodes there have been. -/
  aligned : Balanced tr →
    ∃ b, disk.readBreadcrumb = .ok b ∧ b.untrustedBegin.toNat = (committed tr).length
  /-- When a node has appeared, the breadcrumb still names it as the next one. -/
  behind : ∀ n, tr.getLast? = some (.rename n) → ∃ b encoded,
    disk.readBreadcrumb = .ok b ∧ b.untrustedBegin = n ∧ disk.readId n = .ok (some encoded)
  /-- Once the breadcrumb is written, nothing more is left than is to be kept. -/
  complete : ∀ b n, tr.getLast? = some (.writeBreadcrumb b) → (committed tr).length = n + 1 →
    disk.readBreadcrumb = .ok b ∧ b.untrustedBegin.toNat = n + 1 ∧ disk.nodes = fenwick.alive n

/-- The object's breadcrumb is the one on disk. -/
def Opened (w : World β) : Prop := w.disk.readBreadcrumb = .ok w.repositoryStructure.breadcrumb

/-- What holds besides of a process that has opened the repository. -/
structure Tracked (tr : List Event) (w : World β) : Prop where
  numbered : Numbered tr w.disk
  opened : Balanced tr → Opened w
  /-- A breadcrumb that has just been written is the object's. -/
  remembered : ∀ b, tr.getLast? = some (.writeBreadcrumb b) → w.repositoryStructure.breadcrumb = b

section
variable {tr : List Event} {w : World β}

/-- Steps that only prepare do not change what a history has done. -/
theorem balanced_append_of_prepares {D : Set ℕ} {ls : List Event} (h : ∀ l ∈ ls, l.Prepares D) :
    Balanced (tr ++ ls) ↔ Balanced tr := by
  rw [Balanced, Balanced, committed_append, recorded_append, committed_of_prepares h,
    recorded_of_prepares h, List.append_nil, List.append_nil]

theorem prepares_of_getLast {D : Set ℕ} {ls : List Event} (h : ∀ l ∈ ls, l.Prepares D)
    (hne : ls ≠ []) {event : Event} (he : (tr ++ ls).getLast? = some event) : event.Prepares D := by
  rw [List.getLast?_append_of_ne_nil _ hne] at he
  exact h _ (List.mem_of_getLast? he)

/-- A step on the way to the next node. -/
theorem Numbered.prepared (h : Numbered tr w.disk) (hbal : Balanced tr) {D : Set ℕ}
    (hD : D ⊆ fenwick.dying (committed tr).length) {ls : List Event} {w' : World β}
    (hw' : World.PreparedBy D w ls w') : Numbered (tr ++ ls) w'.disk := by
  rcases eq_or_ne ls [] with rfl | hne
  · rw [List.append_nil, hw'.nil rfl]
    exact h
  have hcommitted : committed (tr ++ ls) = committed tr := by
    rw [committed_append, committed_of_prepares hw'.prepares, List.append_nil]
  refine ⟨?_, ?_, ?_, fun repository => ?_, fun _ => ?_,
    fun n hn => (prepares_of_getLast hw'.prepares hne hn).elim,
    fun b n hb => (prepares_of_getLast hw'.prepares hne hb).elim⟩
  · rw [hcommitted]
    exact h.inOrder
  · rw [hcommitted]
    exact h.bound
  · rw [hcommitted]
    exact hw'.world.kept hD h.kept
  · rw [Disk.readInitargs, hw'.world.initargs]
    exact h.initargs repository
  · rw [hcommitted, Disk.readBreadcrumb, hw'.world.breadcrumbFile]
    exact h.aligned hbal

/-- Opening the repository changes nothing on disk. -/
theorem Numbered.looks (h : Numbered tr w.disk) (hbal : Balanced tr) {ls : List Event}
    (hls : ∀ l ∈ ls, l = .look) {w' : World β} (hw' : w'.disk = w.disk) :
    Numbered (tr ++ ls) w'.disk ∧ Balanced (tr ++ ls) := by
  have hprep : ∀ l ∈ ls, l.Prepares ∅ := fun l hl => by
    rw [hls l hl]
    trivial
  rw [hw']
  exact ⟨h.prepared hbal (Set.empty_subset _) ⟨hprep, .refl ∅ w, fun _ => rfl⟩,
    (balanced_append_of_prepares hprep).mpr hbal⟩

theorem Numbered.tracked_of_looks (h : Numbered tr w.disk) (hbal : Balanced tr) {ls : List Event}
    (hls : ∀ l ∈ ls, l = .look) (hne : ls ≠ []) {w' : World β} (hw' : w'.disk = w.disk)
    (hopen : Opened w') : Tracked (tr ++ ls) w' ∧ Balanced (tr ++ ls) := by
  obtain ⟨hnum, hbal'⟩ := h.looks hbal hls hw'
  refine ⟨⟨hnum, fun _ => hopen, fun b hb => ?_⟩, hbal'⟩
  rw [List.getLast?_append_of_ne_nil _ hne] at hb
  cases hls _ (List.mem_of_getLast? hb)

theorem Tracked.prepared (h : Tracked tr w) (hbal : Balanced tr) {D : Set ℕ}
    (hD : D ⊆ fenwick.dying (committed tr).length) {ls : List Event} {w' : World β}
    (hw' : World.PreparedBy D w ls w') : Tracked (tr ++ ls) w' := by
  refine ⟨h.numbered.prepared hbal hD hw', fun _ => ?_, fun b hb => ?_⟩
  · have hopen := h.opened hbal
    rwa [Opened, Disk.readBreadcrumb, ← hw'.world.breadcrumbFile, ← hw'.world.breadcrumb] at hopen
  · rcases eq_or_ne ls [] with rfl | hne
    · rw [List.append_nil] at hb
      rw [hw'.nil rfl]
      exact h.remembered b hb
    · exact (prepares_of_getLast hw'.prepares hne hb).elim

/-- The next node has appeared, once nothing is left that dies with it. -/
theorem Numbered.next (h : Numbered tr w.disk) {u : Node} (hnode : u.toNat = (committed tr).length)
    (hlt : u.toNat < 2 ^ 63) (hpruned : ∀ k ∈ w.disk.nodes, k ∉ fenwick.dying u.toNat)
    (htemp : w.disk.temporarySnapshot.isSome) {ls : List Event} (hls : committed ls = [u])
    {disk : Disk} (hdisk : disk.nodes = ((Event.rename u).apply w.disk).nodes)
    (hargs : disk.initargs = w.disk.initargs)
    (haligned : Balanced (tr ++ ls) →
      ∃ b, disk.readBreadcrumb = .ok b ∧ b.untrustedBegin.toNat = u.toNat + 1)
    (hbehind : ∀ n, (tr ++ ls).getLast? = some (.rename n) → ∃ b encoded,
      disk.readBreadcrumb = .ok b ∧ b.untrustedBegin = n ∧ disk.readId n = .ok (some encoded))
    (hcomplete : ∀ b, (tr ++ ls).getLast? = some (.writeBreadcrumb b) →
      disk.readBreadcrumb = .ok b ∧ b.untrustedBegin.toNat = u.toNat + 1) :
    Numbered (tr ++ ls) disk := by
  have hcommitted : committed (tr ++ ls) = committed tr ++ [u] := by rw [committed_append, hls]
  have hlength : (committed tr ++ [u]).length = u.toNat + 1 := by
    rw [List.length_append, List.length_singleton, hnode]
  have hnodes : disk.nodes = fenwick.alive u.toNat := by
    rw [hdisk, Disk.nodes_rename htemp, hnode]
    exact h.kept.insert (hnode ▸ hpruned)
  refine ⟨?_, ?_, ?_, fun repository => ?_, ?_, hbehind, fun b n hb hn => ?_⟩
  · rw [hcommitted, List.map_append, h.inOrder, List.length_append, List.length_singleton,
      List.range_succ, List.map_singleton, hnode]
  · rw [hcommitted, hlength]
    exact hlt
  · rw [hcommitted, hlength, hnodes]
    exact Retention.kept_alive _
  · rw [Disk.readInitargs, hargs]
    exact h.initargs repository
  · rw [hcommitted, hlength]
    exact haligned
  · obtain rfl : u.toNat = n := by
      rw [hcommitted, hlength] at hn
      omega
    exact ⟨(hcomplete b hb).1, (hcomplete b hb).2, hnodes⟩

/-- Committing the next node. -/
theorem Tracked.commit (h : Tracked tr w) (hbal : Balanced tr) {encoded : Encoded} {u : Node}
    (hu : encoded.node = u) (hnode : u.toNat = (committed tr).length) (hlt : u.toNat < 2 ^ 63)
    (hpruned : ∀ k ∈ w.disk.nodes, k ∉ fenwick.dying u.toNat) {blob : Option Bytes}
    (htemp : w.disk.temporarySnapshot = some ⟨some encoded.serialise, blob⟩) :
    (commitRename encoded).wp Tracked (fun _ tr w => Tracked tr w ∧ Balanced tr) tr w := by
  -- what holds once the node has appeared, with the breadcrumb still to be written or not
  have hnext {ls : List Event} :=
    @Numbered.next _ _ _ h.numbered u hnode hlt hpruned (by rw [htemp]; rfl) ls
  have hbegin : (Node.ofNat (u.toNat + 1)).toNat = u.toNat + 1 := Node.toNat_ofNat (by omega)
  -- between the rename and the breadcrumb
  have hbehind {ls : List Event} (hc : committed ls = [u]) (hr : recorded ls = []) :
      ¬ Balanced (tr ++ ls) := by
    rw [Balanced, committed_append, recorded_append, hc, hr, List.append_nil, List.length_append,
      List.length_singleton, hbal]
    omega
  rw [wp_commitRename hu (by omega), wp_writeBreadcrumb]
  refine ⟨?_, ?_, ?_⟩
  · have hnot : ¬ Balanced (tr ++ [.rename u]) := hbehind (by simp [committed]) (by simp [recorded])
    refine ⟨hnext (by simp [committed]) rfl rfl (fun hb => absurd hb hnot) ?_ (by simp),
      fun hb => absurd hb hnot, by simp⟩
    -- the breadcrumb is the one before
    intro n hn
    obtain rfl : u = n := by simpa using hn
    obtain ⟨b, hread, hb⟩ := h.numbered.aligned hbal
    exact ⟨b, encoded, hread, Node.toNat_inj.mp (hb.trans hnode.symm), Disk.readId_rename hu htemp⟩
  · rw [List.append_assoc]
    have hnot : ¬ Balanced (tr ++ ([.rename u] ++ [.truncateBreadcrumb])) :=
      hbehind (by simp [committed]) (by simp [recorded])
    exact ⟨hnext (by simp [committed]) rfl rfl (fun hb => absurd hb hnot) (by simp) (by simp),
      fun hb => absurd hb hnot, by simp⟩
  · -- once it is written
    rw [List.append_assoc]
    refine (fun h => ⟨h.1, h⟩ : Tracked _ _ ∧ Balanced _ → Tracked _ _ ∧ Tracked _ _ ∧ Balanced _) ?_
    refine ⟨⟨hnext (by simp [committed]) rfl rfl ?_ (by simp) ?_, fun _ => ?_, ?_⟩, ?_⟩
    · exact fun _ => ⟨_, Disk.readBreadcrumb_writeBreadcrumb _ _, hbegin⟩
    · intro b hb
      obtain rfl : ⟨.ofNat (u.toNat + 1), encoded.timestamp⟩ = b := by simpa using hb
      exact ⟨Disk.readBreadcrumb_writeBreadcrumb _ _, hbegin⟩
    · exact Disk.readBreadcrumb_writeBreadcrumb _ _
    · exact fun b hb => by simpa using hb
    · rw [Balanced, committed_append, recorded_append, List.length_append, List.length_append, hbal]
      rfl

/-- The next node is not there yet. -/
theorem Tracked.readId_next (h : Tracked tr w) (hbal : Balanced tr) :
    w.repositoryStructure.breadcrumb.untrustedBegin.toNat = (committed tr).length ∧
      w.disk.readId w.repositoryStructure.breadcrumb.untrustedBegin = .ok none := by
  obtain ⟨b, hread, hbegin⟩ := h.numbered.aligned hbal
  obtain rfl : b = w.repositoryStructure.breadcrumb :=
    Except.ok.inj (hread.symm.trans (h.opened hbal))
  have hnot := h.numbered.kept.notMem hbegin.ge
  rw [Disk.toNat_mem_nodes, Option.not_isSome_iff_eq_none] at hnot
  exact ⟨hbegin, Disk.readId_of_absent hnot⟩

end

/-!
## Attempts

An attempt may be made by a process that has opened the repository before, or by a new one. Either
takes any number of iterations, each of which stores one node.
-/

section
variable (driver : BackendDriver β S) (sodium : Sodium σ)

/-- The programs of new processes that take a snapshot. -/
def snapshotCommands : Set (Repo β Unit) :=
  {p | ∃ repository env params, p = snapshotCommand driver repository sodium env params}

/-- The programs that attempt to take a snapshot, by a process that has opened the repository or by
a new one. -/
def snapshotAttempts : Set (Repo β Unit) :=
  {p | ∃ env params, p = snapshot driver sodium env params} ∪ snapshotCommands driver sodium

end

section
variable {driver : BackendDriver β S} {sodium : Sodium σ} {env : Env} {params : RepositoryParams}

/-- The rule for `snapshot`: `J` holds before every iteration. -/
theorem wp_snapshot {I J : List Event → World β → Prop}
    (hiter : ∀ tr w, J tr w → (_snapshot driver sodium env params).wp I
      (fun r tr w => ∀ b, r = .val b → J tr w) tr w) {tr : List Event} {w : World β} (h : J tr w) :
    (snapshot driver sodium env params).wp I (fun r tr w => r = .val () → J tr w) tr w := by
  unfold snapshot
  generalize env.fuel = fuel
  induction fuel generalizing tr w with
  | zero => exact fun hr => by cases hr
  | succ fuel ih =>
      simp only [snapshotLoop, wp_bind]
      refine wp_post ?_ (hiter tr w h)
      intro r tr' w' hr
      cases r with
      | exn e => exact fun he => by cases he
      | diverged => exact fun he => by cases he
      | val b =>
          cases b with
          | true => exact fun _ => hr true rfl
          | false => exact ih (hr false rfl)

/-- One iteration of `snapshot`. -/
theorem Tracked.iteration {tr : List Event} {w : World β} (h : Tracked tr w) (hbal : Balanced tr) :
    (_snapshot driver sodium env params).wp Tracked
      (fun r tr w => ∀ b, r = .val b → Tracked tr w ∧ Balanced tr) tr w := by
  obtain ⟨hbegin, hnext⟩ := h.readId_next hbal
  have hD : fenwick.dying w.repositoryStructure.breadcrumb.untrustedBegin.toNat ⊆
      fenwick.dying (committed tr).length := by rw [hbegin]
  refine wp_snapshotIteration rfl hnext (hbegin.trans_le h.numbered.bound)
    (fun ls w' hw' => h.prepared hbal hD hw') (fun ls w' r _ hr b hb => absurd hb (hr b)) ?_
  intro ls₀ w' encoded old hw' hlt hsnapshots hnode _ htemp _
  generalize ls₀ ++ commitLabels encoded = ls at hw' ⊢
  have hpruned (k : ℕ) (hk : k ∈ w'.disk.nodes) :
      k ∉ fenwick.dying w.repositoryStructure.breadcrumb.untrustedBegin.toNat := by
    rw [Disk.nodes_congr hsnapshots] at hk
    exact notMem_dying_of_mem_removeNodes hlt hk
  have hcommitted : (committed (tr ++ ls)).length = (committed tr).length := by
    rw [committed_append, committed_of_prepares hw'.prepares, List.append_nil]
  refine wp_post ?_ ((h.prepared hbal hD hw').commit
    ((balanced_append_of_prepares hw'.prepares).mpr hbal) hnode (hbegin.trans hcommitted.symm) hlt
    hpruned htemp)
  intro r tr' w'' hw''
  cases r with
  | val _ => exact fun b _ => hw''
  | exn e => exact fun b hb => by cases hb
  | diverged => exact fun b hb => by cases hb

theorem Tracked.snapshot {tr : List Event} {w : World β} (h : Tracked tr w) (hbal : Balanced tr) :
    (snapshot driver sodium env params).wp Tracked
      (fun r tr w => r = .val () → Tracked tr w ∧ Balanced tr) tr w :=
  wp_snapshot (J := fun tr w => Tracked tr w ∧ Balanced tr) (fun _ _ h => h.1.iteration h.2)
    ⟨h, hbal⟩

/-- A new process need not know anything. -/
theorem Numbered.snapshotCommand {p : Repo β Unit} (hp : p ∈ snapshotCommands driver sodium)
    {I : List Event → World β → Prop} (hI : ∀ tr w, Tracked tr w → I tr w) {tr : List Event}
    {w : World β} (h : Numbered tr w.disk) (hbal : Balanced tr)
    (hlooks : ∀ ls w', (∀ l ∈ ls, l = .look) → ls ≠ [] → w'.disk = w.disk →
      (w' = w ∨ Opened w') → I (tr ++ ls) w') :
    p.wp I (fun r tr w => r = .val () → Tracked tr w ∧ Balanced tr) tr w := by
  obtain ⟨repository, env, params, rfl⟩ := hp
  obtain ⟨b, hread, -⟩ := h.aligned hbal
  have hopen {w' : World β} (hw' : w'.disk = w.disk)
      (hb : w'.repositoryStructure.breadcrumb = b) : Opened w' := by
    rw [Opened, hw', hb]
    exact hread
  rw [Controller.snapshotCommand, wp_bind]
  refine wp_openRepository_readable (h.initargs repository) hread ?_ ?_
  · exact fun ls w' hls hne hw' hb => hlooks ls w' hls hne hw' (hb.imp_right (hopen hw'))
  · intro ls w' hls hne hw' hb
    obtain ⟨hnum, hbal'⟩ := h.looks hbal hls hw'
    refine wp_mono hI (fun _ _ _ => id) _ (Tracked.snapshot ⟨hnum, fun _ => hopen hw' hb, ?_⟩ hbal')
    intro b' hb'
    rw [List.getLast?_append_of_ne_nil _ hne] at hb'
    cases hls _ (List.mem_of_getLast? hb')

end

/-!
## Histories

The run of a history is the concatenation of the runs of its attempts, so that the invariant goes
from one attempt to the next by way of the directory, which is all that a new process finds.
-/

/-- A repository that has just been created. -/
def Fresh (w : World β) : Prop :=
  ∃ repository formatUuid initargs uuid,
    createRepository formatUuid initargs uuid = .ok w.disk ∧
    w.repositoryStructure = ⟨repository, formatUuid, initargs, .initial, false⟩

theorem Fresh.tracked {w : World β} (h : Fresh w) : Tracked [] w := by
  obtain ⟨repository, formatUuid, initargs, uuid, hdisk, hobject⟩ := h
  obtain ⟨hargs, hread, hnodes⟩ := createRepository_spec hdisk
  refine ⟨⟨rfl, Nat.zero_le _, hnodes, fun r => ⟨_, hargs r⟩, fun _ => ⟨_, hread, rfl⟩,
    by simp, by simp⟩, fun _ => ?_, by simp⟩
  rw [Opened, hobject]
  exact hread

/-- A repository that has just been created, for runs on fixed inputs. -/
def sampleWorld : World Unit :=
  let uuid : Uuid := .replicate 16 0
  let initargs : StringVector := ⟨[⟨⟨[0x7a], by decide⟩⟩], by decide⟩
  { disk :=
      { initargs := some (Serialisation.serialise uuid ++ Serialisation.serialise initargs)
        uuid := some (Serialisation.serialise uuid)
        keys := some fun _ => none
        breadcrumb := none
        temporarySnapshot := none
        snapshots := fun _ => none }
    repositoryStructure := ⟨"repository", uuid, initargs, .initial, false⟩
    backend := () }

def sampleEnv : Env where
  fuel := 3
  blobFirst _ := false
  random _ := ⟨.replicate 32 1, fun _ => .replicate 32 2, .replicate 24 3⟩

theorem fresh_sampleWorld : Fresh sampleWorld := ⟨_, _, _, _, rfl, rfl⟩

/-- Between two attempts only the dataset changes. -/
def OnlyDataset (w w' : World β) : Prop :=
  w'.disk = w.disk ∧ w'.repositoryStructure = w.repositoryStructure

/-- At every moment of a history of attempts the labels say what is left in the repository. -/
theorem tracked_of_history {driver : BackendDriver β S} {sodium : Sodium σ} {w₀ w : World β}
    {as : List (Attempt Event (World β) Exn Unit)} (h₀ : Fresh w₀)
    (hist : History (snapshotAttempts driver sodium) OnlyDataset (fun a => Balanced a.labels) w₀ as
      w) (a : Attempt Event (World β) Exn Unit) (hstart : OnlyDataset w a.start)
    (hprogram : a.program ∈ snapshotAttempts driver sodium) :
    Tracked (Attempt.allLabels as ++ a.labels) a.state := by
  have hbetween (tr : List Event) (w w' : World β) (h : Tracked tr w ∧ Balanced tr)
      (hw : OnlyDataset w w') : Tracked tr w' ∧ Balanced tr := by
    refine ⟨⟨hw.1 ▸ h.1.numbered, ?_, hw.2 ▸ h.1.remembered⟩, h.2⟩
    rw [Opened, hw.1, hw.2]
    exact h.1.opened
  have hmoment (a : Attempt Event (World β) Exn Unit) (tr : List Event)
      (hp : a.program ∈ snapshotAttempts driver sodium) (h : Tracked tr a.start ∧ Balanced tr) :
      Tracked (tr ++ a.labels) a.state := by
    obtain ⟨env, params, heq⟩ | hcommand := hp
    · exact a.invariant (heq ▸ h.1.snapshot h.2) h.1
    · refine a.invariant (h.1.numbered.snapshotCommand hcommand (fun _ _ => id) h.2 ?_) h.1
      intro ls w' hls hne hdisk hw'
      exact (h.1.numbered.tracked_of_looks h.2 hls hne hdisk
        (hw'.elim (fun heq => heq ▸ h.1.opened h.2) id)).1
  have hlast : Tracked (Attempt.allLabels as) w ∧ Balanced (Attempt.allLabels as) := by
    refine History.labels_invariant (J := fun tr w => Tracked tr w ∧ Balanced tr)
      ⟨h₀.tracked, rfl⟩ hbetween ?_ hist
    intro a tr hp hstop h
    refine ⟨hmoment a tr hp h, ?_⟩
    rw [Balanced, committed_append, recorded_append, List.length_append, List.length_append, h.2,
      hstop]
  exact hmoment a _ hprogram (hbetween _ _ _ hlast hstart)

/-- The number of nodes that have been committed, by the last one. -/
theorem Numbered.length_of_getLast {tr : List Event} {disk : Disk} (h : Numbered tr disk) {n : Node}
    (hn : (committed tr).getLast? = some n) : (committed tr).length = n.toNat + 1 := by
  have hlast : ((committed tr).map Node.toNat).getLast? = some n.toNat := by
    rw [List.getLast?_map, hn]
    rfl
  have hpos : (committed tr).length ≠ 0 := by
    intro hzero
    rw [List.length_eq_zero_iff.mp hzero] at hn
    cases hn
  obtain ⟨c, hc⟩ := Nat.exists_eq_succ_of_ne_zero hpos
  rw [h.inOrder, hc, List.range_succ, List.getLast?_concat] at hlast
  rw [hc, Option.some.inj hlast]

/-- Every history of attempts to take snapshots, each of which may end anywhere but between the
rename and the breadcrumb, commits the nodes in order. From the commit of a node `n` to the next one
the repository holds nothing that is not alive after `n` and everything on the path of `n`, and in
particular the parent of the next node; right after the commit, the breadcrumb names the next node
and what is alive after `n` is there. -/
theorem snapshots_maintain_aliveAfter {driver : BackendDriver β S} {sodium : Sodium σ}
    {w₀ w : World β} {as : List (Attempt Event (World β) Exn Unit)} (h₀ : Fresh w₀)
    (hist : History (snapshotAttempts driver sodium) OnlyDataset (fun a => Balanced a.labels) w₀ as
      w) (a : Attempt Event (World β) Exn Unit) (hstart : OnlyDataset w a.start)
    (hprogram : a.program ∈ snapshotAttempts driver sodium) :
    (committed (Attempt.allLabels as ++ a.labels)).map Node.toNat =
        List.range (committed (Attempt.allLabels as ++ a.labels)).length ∧
      ∀ n, (committed (Attempt.allLabels as ++ a.labels)).getLast? = some n → n.toNat < 2 ^ 63 - 1 →
        (∀ b, (Attempt.allLabels as ++ a.labels).getLast? = some (.writeBreadcrumb b) →
          a.state.repositoryStructure.breadcrumb.untrustedBegin.toNat = n.toNat + 1 ∧
          a.state.disk.readBreadcrumb = .ok a.state.repositoryStructure.breadcrumb ∧
          a.state.disk.nodes = n.aliveAfter.numbers) ∧
        a.state.disk.nodes ⊆ n.aliveAfter.numbers ∧
        n.fenwickPathIncRoot.numbers ⊆ a.state.disk.nodes ∧
        ∀ n', n.next = .ok n' → (a.state.disk.snapshots n'.fenwickParent).isSome := by
  have htracked := tracked_of_history h₀ hist a hstart hprogram
  refine ⟨htracked.numbered.inOrder, fun n hn hlt => ?_⟩
  have hlength := htracked.numbered.length_of_getLast hn
  have hkept : fenwick.PartlyPruned n.toNat a.state.disk.nodes := by
    have hkept := htracked.numbered.kept
    rw [hlength] at hkept
    exact hkept
  have halive : n.aliveAfter.numbers = fenwick.alive n.toNat :=
    Tree.aliveAfter_numbers (hlt.trans_le (Nat.sub_le _ _))
  have hpath : n.fenwickPathIncRoot.numbers = fenwick.path n.toNat :=
    Tree.fenwickPathIncRoot_numbers n.value
  rw [halive, hpath]
  refine ⟨fun b hb => ?_, hkept.subset_alive, hkept.path_subset, fun n' hn' => ?_⟩
  · rw [htracked.remembered b hb]
    obtain ⟨hread, hbegin, hnodes⟩ := htracked.numbered.complete b n.toNat hb hlength
    exact ⟨hbegin, hread, hnodes⟩
  · rw [← Disk.toNat_mem_nodes, Node.toNat_fenwickParent, Node.toNat_next hn']
    exact hkept.parent_succ_mem

/-- Two commands, of which the second stores the node 1. -/
theorem snapshots_maintain_aliveAfter_one :
    let command : Repo Unit Unit :=
      snapshotCommand (.constant [7]) "repository" .transparent sampleEnv ⟨false, 0⟩
    let first := Attempt.whole command sampleWorld
    (Attempt.whole command first.state).state.disk.nodes = (Node.aliveAfter ⟨1⟩).numbers := by
  intro command first
  have hcommand : command ∈ snapshotAttempts (.constant [7]) Sodium.transparent :=
    .inr ⟨"repository", sampleEnv, ⟨false, 0⟩, rfl⟩
  have hist : History (snapshotAttempts (.constant [7]) Sodium.transparent) OnlyDataset
      (fun a => Balanced a.labels) sampleWorld ([] ++ [first]) first.state :=
    .snoc first .nil ⟨rfl, rfl⟩ hcommand rfl
  have h := (snapshots_maintain_aliveAfter fresh_sampleWorld hist
    (Attempt.whole command first.state) ⟨rfl, rfl⟩ hcommand).2 ⟨1⟩ (by decide +kernel) (by decide)
  exact (h.1 ⟨⟨2⟩, 0⟩ (by decide +kernel)).2.2

end Controller

end Diffmonger
