import Diffmonger.Controller.Dataset
import Diffmonger.ZfsDriver.Adoption

/-!
# Snapshots that a killed command leaves behind

A snapshot command that is killed after it has taken the snapshot of a node and before it has
committed the node leaves a snapshot that belongs to no node of the repository. The next command is
to adopt it; but its own `zfs snapshot` exits nonzero, and the command ends there.

Main result: `snapshot_adopts_iff`. Its first part is about the method of the driver alone, in any
state of the dataset. The second is about histories: a snapshot that has been taken and not
committed is that of the node that comes next (`TakenNext`), so that the command that follows asks
for the same snapshot, and gets an exception that is not the one it catches.
-/

namespace Diffmonger

open Prog RepositoryStructure Zfs ZfsDriver

variable {β S σ : Type}

namespace Controller

/-!
## Which snapshots have been taken

A snapshot that has been taken and whose node has not been committed can only be that of the next
node. The invariant is on the labels, and concerns only the steps that take a snapshot and those
that commit a node.
-/

/-- A snapshot that has been taken is the one of a node that has been committed or of the one that
comes next. -/
def TakenNext (tr : List Event) : Prop :=
  ∀ n, .backend (.snapshot n) ∈ tr → n ∉ committed tr → Balanced tr ∧ n.toNat = (committed tr).length

/-- The steps that take no other snapshot than that of `u`. -/
def TakesOnly (u : Node) (event : Event) (_ : World β → World β) : Prop :=
  ∀ n, event = .backend (.snapshot n) → n = u

section
variable {driver : BackendDriver β S} {sodium : Sodium σ} {env : Env} {params : RepositoryParams}
  {u : Node} {tr : List Event} {w : World β}

theorem onDirectory_takesOnly : OnDirectory (β := β) (TakesOnly u) where
  look n h := by cases h
  perform event hdirectory n h := absurd h (hdirectory _)
  remember f n h := by cases h
  writeBreadcrumb breadcrumb n h := by cases h

theorem takesOnly_callBackend {ρ : Type} {call : BackendCall} {method : β → ρ × β}
    (h : ∀ n, call = .snapshot n → n = u) : (callBackend call method).Emits (TakesOnly u) :=
  (emits_readModify ..).mpr fun n hn => h n (Event.backend.inj hn)

theorem takesOnly_decodeSnapshotId (encoded : Encoded) :
    (decodeSnapshotId driver encoded).Emits (TakesOnly u) :=
  emits_bind (takesOnly_callBackend fun _ h => by cases h) fun _ => by simp

theorem takesOnly_nextSnapshot : (nextSnapshot driver u).Emits (TakesOnly u) := by
  refine emits_bind (onDirectory_takesOnly.emits_parentSnapshot takesOnly_decodeSnapshotId
    (fun id => ?_) u) fun _ => emits_bind (emits_getRepositoryUuid onDirectory_takesOnly.look) fun _ =>
      emits_bind (emits_bind (takesOnly_callBackend fun _ h => ?_) fun _ => by simp) fun _ => trivial
  · exact emits_bind (takesOnly_callBackend fun _ h => by cases h) fun _ => by simp
  · cases h
    rfl

theorem takesOnly_prune : (prune (pruneNode driver env)).Emits (TakesOnly u) :=
  onDirectory_takesOnly.emits_prune <| onDirectory_takesOnly.emits_pruneNode
    takesOnly_decodeSnapshotId
    (fun _ => emits_bind (takesOnly_callBackend fun _ h => by cases h) fun _ => by simp) env

theorem takesOnly_storeSnapshot (id : S) (maybeParent : Option S) :
    (storeSnapshot driver sodium env params id maybeParent).Emits (TakesOnly u) :=
  onDirectory_takesOnly.emits_storeSnapshot (fun _ => takesOnly_callBackend fun _ h => by cases h)
    (fun _ _ => takesOnly_callBackend fun _ h => by cases h) sodium env params id maybeParent

/-- One iteration takes the snapshot of the node that comes next. -/
theorem wp_snapshot_takesOnly (hnode : w.repositoryStructure.breadcrumb.untrustedBegin = u)
    (habsent : w.disk.readId u = .ok none) :
    (_snapshot driver sodium env params).wp
      (fun tr' _ => ∀ n, .backend (.snapshot n) ∈ tr' → .backend (.snapshot n) ∈ tr ∨ n = u)
      (fun _ tr' _ => ∀ n, .backend (.snapshot n) ∈ tr' → .backend (.snapshot n) ∈ tr ∨ n = u)
      tr w := by
  have hstep (l : Event) (update : World β → World β) (tr' : List Event) (w' : World β)
      (hl : TakesOnly u l update)
      (h : ∀ n, .backend (.snapshot n) ∈ tr' → .backend (.snapshot n) ∈ tr ∨ n = u) :
      ∀ n, .backend (.snapshot n) ∈ tr' ++ [l] → .backend (.snapshot n) ∈ tr ∨ n = u := by
    intro n hn
    rcases List.mem_append.mp hn with hn | hn
    · exact h n hn
    · exact .inr (hl n (List.mem_singleton.mp hn).symm)
  have hlook : (getNextSnapshotNode env : Repo β Node).Emits (TakesOnly u) :=
    (emits_getNextSnapshotNode (C := Kind (· = .look)) (kind_look rfl) env).mono fun l _ hl n hn => by
      rw [hl.1] at hn
      cases hn
  rw [_snapshot_eq, wp_bind]
  refine wp_post ?_ ((getNextSnapshotNode_absent (by rw [hnode]; exact habsent)).wp_of_emits
    hlook hstep fun n hn => .inl hn)
  rintro r tr₁ w₁ ⟨h₁, rfl, rfl | rfl⟩
  · rw [hnode]
    exact wp_of_emits (emits_bind takesOnly_prune fun _ => emits_bind takesOnly_nextSnapshot
      fun _ => emits_bind (takesOnly_storeSnapshot _ _) fun _ => emits_pure _) hstep h₁
  · exact h₁

/-- Where one iteration may stop: before the commit of the next node, or after it. -/
theorem wp_snapshot_committed (h : Tracked tr w) (hbal : Balanced tr)
    (hnode : w.repositoryStructure.breadcrumb.untrustedBegin = u) :
    (_snapshot driver sodium env params).wp
      (fun tr' _ => (Balanced tr' ∧ committed tr' = committed tr) ∨
        committed tr' = committed tr ++ [u])
      (fun _ tr' _ => (Balanced tr' ∧ committed tr' = committed tr) ∨
        committed tr' = committed tr ++ [u]) tr w := by
  obtain ⟨hbegin, hnext⟩ := h.readId_next hbal
  rw [hnode] at hbegin hnext
  have hbefore {D : Set ℕ} {ls : List Event} (hls : ∀ l ∈ ls, l.Prepares D) :
      Balanced (tr ++ ls) ∧ committed (tr ++ ls) = committed tr := by
    refine ⟨(balanced_append_of_prepares hls).mpr hbal, ?_⟩
    rw [committed_append, committed_of_prepares hls, List.append_nil]
  refine wp_snapshotIteration hnode hnext (hbegin.trans_le h.numbered.bound)
    (fun ls w' hw' => .inl (hbefore hw'.prepares))
    (fun ls w' r hw' _ => .inl (hbefore hw'.prepares)) ?_
  intro ls w' encoded old hw' hlt _ hid _ _ _
  have hafter {ls' : List Event} (hls' : committed ls' = []) :
      committed (tr ++ (ls ++ commitLabels encoded) ++ [.rename u] ++ ls') =
        committed tr ++ [u] := by
    rw [committed_append, committed_append, (hbefore hw'.prepares).2, hls', List.append_nil]
    rfl
  rw [wp_commitRename hid (by omega), wp_writeBreadcrumb]
  refine ⟨.inr ?_, .inr (hafter rfl), .inr (hafter rfl), .inr (hafter rfl)⟩
  rw [committed_append, (hbefore hw'.prepares).2]
  rfl

/-- One iteration takes the snapshot of the next node, and then commits that node or not. -/
theorem TakenNext.iteration (h : TakenNext tr) (htracked : Tracked tr w) (hbal : Balanced tr) :
    (_snapshot driver sodium env params).wp (fun tr' _ => TakenNext tr')
      (fun _ tr' _ => TakenNext tr') tr w := by
  obtain ⟨hbegin, hnext⟩ := htracked.readId_next hbal
  generalize hu : w.repositoryStructure.breadcrumb.untrustedBegin = u at hbegin hnext
  have hboth (tr' : List Event)
      (htakes : ∀ n, .backend (.snapshot n) ∈ tr' → .backend (.snapshot n) ∈ tr ∨ n = u)
      (hcommitted : (Balanced tr' ∧ committed tr' = committed tr) ∨
        committed tr' = committed tr ++ [u]) : TakenNext tr' := by
    intro n hn hnot
    have hkept : n ∉ committed tr := by
      intro hmem
      rcases hcommitted with ⟨-, heq⟩ | heq
      · exact hnot (heq ▸ hmem)
      · exact hnot (heq ▸ List.mem_append_left _ hmem)
    have hnext : n = u := by
      rcases htakes n hn with hn | hn
      · exact Node.toNat_inj.mp ((h n hn hkept).2.trans hbegin.symm)
      · exact hn
    rcases hcommitted with ⟨hbal', heq⟩ | heq
    · rw [hnext, heq]
      exact ⟨hbal', hbegin⟩
    · rw [hnext, heq] at hnot
      exact absurd (List.mem_append_right _ (List.mem_singleton_self u)) hnot
  exact wp_mono (fun tr' _ h => hboth tr' h.1 h.2) (fun _ tr' _ h => hboth tr' h.1 h.2) _
    (wp_and (wp_snapshot_takesOnly hu hnext) (wp_snapshot_committed htracked hbal hu))

/-- Looking takes no snapshot. -/
theorem TakenNext.looks {ls : List Event} (h : TakenNext tr) (hls : ∀ l ∈ ls, l = .look) :
    TakenNext (tr ++ ls) := by
  have hprep : ∀ l ∈ ls, l.Prepares ∅ := fun l hl => hls l hl ▸ trivial
  have hcommitted : committed (tr ++ ls) = committed tr := by
    rw [committed_append, committed_of_prepares hprep, List.append_nil]
  intro n hn hnot
  rw [hcommitted] at hnot ⊢
  rcases List.mem_append.mp hn with hn | hn
  · exact ⟨(balanced_append_of_prepares hprep).mpr (h n hn hnot).1, (h n hn hnot).2⟩
  · cases hls _ hn

/-- A command that opens the repository first. -/
theorem TakenNext.snapshotCommand {p : Repo β Unit} (hp : p ∈ snapshotCommands driver sodium)
    (h : TakenNext tr) (hnum : Numbered tr w.disk) (hbal : Balanced tr) :
    p.wp (fun tr' _ => TakenNext tr') (fun _ _ _ => True) tr w := by
  obtain ⟨repository, env, params, rfl⟩ := hp
  obtain ⟨b, hread, -⟩ := hnum.aligned hbal
  rw [Controller.snapshotCommand, wp_bind]
  refine wp_openRepository_readable (hnum.initargs repository) hread
    (fun ls w' hls _ _ _ => h.looks hls) fun ls w' hls hne hw' hb => ?_
  have hopen : Opened w' := by
    rw [Opened, hw', hb]
    exact hread
  obtain ⟨htracked, hbal'⟩ := hnum.tracked_of_looks hbal hls hne hw' hopen
  refine wp_post (fun _ _ _ _ => trivial) (wp_snapshot (J := fun tr w =>
    Tracked tr w ∧ Balanced tr ∧ TakenNext tr) ?_ ⟨htracked, hbal', h.looks hls⟩)
  rintro tr' w'' ⟨htracked', hbal'', h'⟩
  refine wp_mono (fun _ _ h => h.1) ?_ _
    (wp_and (h'.iteration htracked' hbal'') (htracked'.iteration hbal''))
  rintro r tr₁ w₁ ⟨htaken, hnext⟩ b hr
  exact ⟨(hnext b hr).1, (hnext b hr).2, htaken⟩

end

/-! ## The command that comes next -/

section
variable {system : System β} {impl : ZfsBackendDriverImpl} {sodium : Sodium σ} {env : Env}
  {params : RepositoryParams} {snapshots : β → SnapshotName → Option SnapshotGuid}
  {fault : β → SnapshotName → Option Fault} {u : Node} {uuid : Uuid} {tr : List Event} {w : World β}

theorem not_failsWithoutSnapshot {fault : Option Fault} {old : Option SnapshotGuid}
    (hrun : ∀ code what, fault ≠ some (.notRun code what)) (hold : old.isSome) :
    ¬ FailsWithoutSnapshot fault old := by
  have hne : old ≠ none := Option.ne_none_iff_isSome.mpr hold
  rcases fault with _ | ⟨code, what⟩ | created
  · exact hne
  · exact absurd rfl (hrun code what)
  · exact fun h => hne h.1

variable (h : SnapshotSet system impl.toDataset snapshots fault)
  (hrun : ∀ b code what, fault b (nameOf u uuid) ≠ some (.notRun code what))
include h hrun

/-- Taking the snapshot of a node that already has one. -/
theorem takeSnapshot_orphan (horphan : (snapshots w.backend (nameOf u uuid)).isSome) :
    (takeSnapshot (impl.driver system) u uuid).wp (fun _ _ => True) (fun r _ _ => ∃ e, r = .exn e) tr
      w := by
  obtain ⟨what, b', hcall, -⟩ := ZfsBackendDriverImpl.snapshot_throws h
    (not_failsWithoutSnapshot (hrun w.backend) horphan)
  have hcall : (impl.driver system).snapshot u uuid w.backend = _ := hcall
  simp only [takeSnapshot, callBackend, wp_bind, wp_readModify, bindPost, wp_ofExcept, hcall,
    true_and]
  exact ⟨_, rfl⟩

/-- If the snapshot of the node has been left behind, taking it throws. -/
theorem nextSnapshot_orphan (huuid : HasUuid w.disk.uuid uuid)
    (horphan : (snapshots w.backend (nameOf u uuid)).isSome) :
    (nextSnapshot (impl.driver system) u).Ends (fun r _ => ∀ x, r ≠ .val x) w := by
  intro tr
  have hkeeps : (parentSnapshot (impl.driver system) u).Emits (Preserves (outside snapshots)) :=
    preserves_parentSnapshot
      (fun id b => ZfsBackendDriverImpl.keeps_existsSnapshot h.keeps_zfsGetGuid id b) u
  rw [nextSnapshot, wp_bind]
  refine wp_mono (fun _ _ _ => trivial) ?_ _
    (wp_of_emits (R := fun _ w' => outside snapshots w' = outside snapshots w) hkeeps
      (fun l update _ w' hu hw' => (hu w').trans hw') rfl)
  intro r tr₁ w₁ hw₁
  obtain ⟨hsnapshots, hfile⟩ := Prod.mk.inj hw₁
  cases r with
  | exn e => exact fun x hx => by cases hx
  | diverged => exact fun x hx => by cases hx
  | val maybeParent =>
      rw [bindPost, wp_bind, wp_getRepositoryUuid (by rw [hfile]; exact huuid)]
      refine ⟨trivial, ?_⟩
      rw [bindPost, wp_bind]
      refine wp_post ?_ (takeSnapshot_orphan h hrun (by rw [hsnapshots]; exact horphan))
      rintro r tr₂ w₂ ⟨e, rfl⟩ x hx
      cases hx

/-- One iteration of `snapshot` throws before it commits anything. -/
theorem wp_snapshot_orphan (hnode : w.repositoryStructure.breadcrumb.untrustedBegin = u)
    (habsent : w.disk.readId u = .ok none) (hu : u.toNat ≤ 2 ^ 63)
    (huuid : HasUuid w.disk.uuid uuid)
    (horphan : (snapshots w.backend (nameOf u uuid)).isSome) :
    (_snapshot (impl.driver system) sodium env params).wp
      (fun tr' _ => committed tr' = committed tr)
      (fun r tr' _ => (∀ x, r ≠ .val x) ∧ committed tr' = committed tr) tr w := by
  have hbefore {D : Set ℕ} {ls : List Event} (hls : ∀ l ∈ ls, l.Prepares D) :
      committed (tr ++ ls) = committed tr := by
    rw [committed_append, committed_of_prepares hls, List.append_nil]
  refine wp_snapshotIteration_pruned hnode habsent hu (fun ls _ hw' => hbefore hw'.prepares)
    (fun ls _ r hw' hr => ⟨hr, hbefore hw'.prepares⟩) fun ls hw' _ => ?_
  have hends : (nextSnapshot (impl.driver system) u).Ends (fun r _ => ∀ x, r ≠ .val x)
      (removeNodes w u.prune.nodes) := nextSnapshot_orphan h hrun huuid horphan
  refine wp_of_prepares (D := ∅) (emits_nextSnapshot _ u) hends (fun ls' w'' hw'' => ?_) ?_
  · rw [List.append_assoc]
    exact hbefore (hw'.append hw''.weaken).prepares
  · intro ls' w'' r hw'' hr
    have hall := hbefore (hw'.append hw''.weaken).prepares
    rw [← List.append_assoc] at hall
    exact bindPost_of_ne (fun _ hne => ⟨hne, hall⟩) hr

/-- Then the command commits nothing, and does not return. -/
theorem snapshotCommand_orphan {breadcrumb : Breadcrumb}
    (hread : w.disk.readBreadcrumb = .ok breadcrumb) (hnode : breadcrumb.untrustedBegin = u)
    (habsent : w.disk.readId u = .ok none) (hu : u.toNat ≤ 2 ^ 63)
    (huuid : HasUuid w.disk.uuid uuid)
    (horphan : (snapshots w.backend (nameOf u uuid)).isSome) {p : Repo β Unit}
    (hp : p ∈ snapshotCommands (impl.driver system) sodium) :
    p.wp (fun tr _ => committed tr = []) (fun r tr _ => (∀ x, r ≠ .val x) ∧ committed tr = []) [] w := by
  obtain ⟨repository, env, params, rfl⟩ := hp
  have hlooks {ls : List Event} (hls : ∀ l ∈ ls, l = .look) : committed ([] ++ ls) = [] := by
    have hprep : ∀ l ∈ ls, l.Prepares ∅ := fun l hl => hls l hl ▸ trivial
    rw [List.nil_append, committed_of_prepares hprep]
  rw [snapshotCommand, wp_bind]
  refine wp_openRepository repository (fun ls hls _ => hlooks hls)
    (fun ls e hls _ _ => ⟨by simp, hlooks hls⟩)
    fun ls args b hls _ _ hread' => ⟨hlooks hls, ?_⟩
  obtain rfl : breadcrumb = b := Except.ok.inj (hread.symm.trans hread')
  rw [bindPost, snapshot]
  cases env.fuel with
  | zero => exact ⟨by simp, hlooks hls⟩
  | succ fuel =>
      rw [snapshotLoop, wp_bind]
      refine wp_mono (fun _ _ heq => heq.trans (hlooks hls)) ?_ _
        (wp_snapshot_orphan h hrun (w := w.opened repository args breadcrumb) hnode habsent hu huuid
          horphan)
      rintro r tr' w' ⟨hr, heq⟩
      exact bindPost_of_ne (fun _ hne => ⟨hne, heq.trans (hlooks hls)⟩) hr

end

/-!
## Histories

No command of the history ends between the rename and the breadcrumb; a command that does leaves a
repository in which no command gets as far as taking a snapshot.
-/

section
variable {driver : BackendDriver β S} {sodium : Sodium σ} {w₀ w : World β}
  {as : List (Attempt Event (World β) Exn Unit)}

/-- At every moment of a history of commands, none of which ends between the rename and the
breadcrumb. -/
theorem takenNext_of_killed (h₀ : Fresh w₀)
    (hist : History (snapshotCommands driver sodium) SameDisk (fun a => Balanced a.labels) w₀ as w)
    (a : Attempt Event (World β) Exn Unit) (hstart : SameDisk w a.start)
    (hprogram : a.program ∈ snapshotCommands driver sodium) :
    Numbered (Attempt.allLabels as ++ a.labels) a.state.disk ∧
      TakenNext (Attempt.allLabels as ++ a.labels) := by
  have hmoment (a : Attempt Event (World β) Exn Unit) (tr : List Event)
      (hp : a.program ∈ snapshotCommands driver sodium) (hnum : Numbered tr a.start.disk)
      (hbal : Balanced tr) (htaken : TakenNext tr) :
      Numbered (tr ++ a.labels) a.state.disk ∧ TakenNext (tr ++ a.labels) := by
    refine ⟨a.invariant (I := fun tr w => Numbered tr w.disk) (hnum.snapshotCommand hp
      (fun _ _ h => h.numbered) hbal ?_) hnum,
      a.invariant (htaken.snapshotCommand hp hnum hbal) htaken⟩
    exact fun ls w' hls _ hw' _ => (hnum.looks hbal hls hw').1
  have hlast : Numbered (Attempt.allLabels as) w.disk ∧ Balanced (Attempt.allLabels as) ∧
      TakenNext (Attempt.allLabels as) := by
    refine History.labels_invariant
      (J := fun tr w => Numbered tr w.disk ∧ Balanced tr ∧ TakenNext tr)
      ⟨h₀.tracked.numbered, rfl, fun n hn => by cases hn⟩ ?_ ?_ hist
    · intro tr w w' h hw
      rw [hw]
      exact h
    · intro a tr hp hstop ⟨hnum, hbal, htaken⟩
      refine ⟨(hmoment a tr hp hnum hbal htaken).1, ?_, (hmoment a tr hp hnum hbal htaken).2⟩
      rw [Balanced, committed_append, recorded_append, List.length_append, List.length_append, hbal,
        hstop]
  rw [← show a.start.disk = w.disk from hstart] at hlast
  exact hmoment a _ hprogram hlast.1 hlast.2.1 hlast.2.2

/-- A command that is killed after it has taken the snapshot of a node, and before it has committed
the node, leaves a repository whose next node this is. -/
theorem next_of_killed (h₀ : Fresh w₀)
    (hist : History (snapshotCommands driver sodium) SameDisk (fun a => Balanced a.labels) w₀ as w)
    (a : Attempt Event (World β) Exn Unit) (hstart : SameDisk w a.start)
    (hprogram : a.program ∈ snapshotCommands driver sodium) {n : Node}
    (htaken : .backend (.snapshot n) ∈ a.labels)
    (hnot : n ∉ committed (Attempt.allLabels as ++ a.labels)) :
    ∃ b, a.state.disk.readBreadcrumb = .ok b ∧ b.untrustedBegin = n ∧
      a.state.disk.readId n = .ok none ∧ n.toNat ≤ 2 ^ 63 := by
  obtain ⟨hnum, hnext⟩ := takenNext_of_killed h₀ hist a hstart hprogram
  obtain ⟨hbal, hlength⟩ := hnext n (List.mem_append_right _ htaken) hnot
  obtain ⟨b, hread, hbegin⟩ := hnum.aligned hbal
  have habsent := hnum.kept.notMem hlength.ge
  rw [Disk.toNat_mem_nodes, Option.not_isSome_iff_eq_none] at habsent
  exact ⟨b, hread, Node.toNat_inj.mp (hbegin.trans hlength.symm), Disk.readId_of_absent habsent,
    hlength.trans_le hnum.bound⟩

end

section
variable {system : System β} {impl : ZfsBackendDriverImpl} {sodium : Sodium σ}
  {snapshots : β → SnapshotName → Option SnapshotGuid} {fault : β → SnapshotName → Option Fault}

/-- `snapshot` does what it is to do exactly where no snapshot has the name when `zfs snapshot`
exits nonzero, which it does when the name is taken. So a command that is killed between taking the
snapshot of a node and committing the node leaves a snapshot that is never adopted: as long as `zfs
snapshot` can be run, no command that follows returns, or commits anything. -/
theorem snapshot_adopts_iff (h : SnapshotSet system impl.toDataset snapshots fault) :
    (∀ node uuid b, ZfsBackendDriverImpl.Adopts system impl snapshots fault node uuid b ↔
      FailsWithoutSnapshot (fault b (nameOf node uuid)) (snapshots b (nameOf node uuid))) ∧
    ∀ (w₀ w : World β) (as : List (Attempt Event (World β) Exn Unit)), Fresh w₀ →
      History (snapshotCommands (impl.driver system) sodium) SameDisk (fun a => Balanced a.labels) w₀
        as w →
      ∀ (a : Attempt Event (World β) Exn Unit) (n : Node), SameDisk w a.start →
        a.program ∈ snapshotCommands (impl.driver system) sodium →
        .backend (.snapshot n) ∈ a.labels →
        n ∉ committed (Attempt.allLabels as ++ a.labels) →
      ∀ (w' : World β) (uuid : Uuid), SameDisk a.state w' → HasUuid w'.disk.uuid uuid →
        (snapshots w'.backend (nameOf n uuid)).isSome →
        (∀ b code what, fault b (nameOf n uuid) ≠ some (.notRun code what)) →
      ∀ p ∈ snapshotCommands (impl.driver system) sodium,
        (∀ x, (p.run w').result ≠ .val x) ∧ committed (labels (p.run w').steps) = [] := by
  refine ⟨fun node uuid b => ZfsBackendDriverImpl.adopts_iff h, ?_⟩
  intro w₀ w as h₀ hist a n hstart hprogram htaken hnot w' uuid hsame huuid horphan hrun p hp
  obtain ⟨b, hread, hnode, habsent, hn⟩ := next_of_killed h₀ hist a hstart hprogram htaken hnot
  rw [← show w'.disk = a.state.disk from hsame] at hread habsent
  exact wp_run (snapshotCommand_orphan h hrun hread hnode habsent hn huuid horphan hp)

end

/-! ## Runs on fixed inputs -/

/-- The first command of a new repository, killed when it has taken the snapshot and made the
temporary directory. -/
def killedBeforeCommit : Attempt Event (World SamplePool) Exn Unit :=
  .cut sampleSnapshotCommand (sampleRepository []) 9

theorem isSome_killedBeforeCommit :
    (killedBeforeCommit.state.backend.snapshots (nameOf ⟨0⟩ (.replicate 16 0))).isSome := by
  decide +kernel

theorem snapshot_adopts_iff_sample :
    ZfsBackendDriverImpl.Adopts sampleSystem sampleDriver SamplePool.snapshots (fun _ _ => none) ⟨0⟩
        (.replicate 16 0) (.empty []) ∧
      (sampleSnapshotCommand.run killedBeforeCommit.state).result ≠ .val () := by
  obtain ⟨hcall, hkilled⟩ :=
    @snapshot_adopts_iff _ _ _ _ Sodium.transparent _ _ SamplePool.snapshotSet
  refine ⟨(hcall _ _ _).mpr rfl, (hkilled _ _ [] (fresh_sampleRepository []) .nil killedBeforeCommit
    ⟨0⟩ rfl sampleSnapshotCommand_mem ?_ ?_ killedBeforeCommit.state (.replicate 16 0) rfl ?_
    isSome_killedBeforeCommit ?_ _ sampleSnapshotCommand_mem).1 ()⟩
  · decide +kernel
  · decide +kernel
  · exact ⟨_, [], rfl, by decide⟩
  · exact fun b code what h => by cases h

/-- The next command finds the snapshot, and throws. -/
theorem orphan_not_adopted :
    .backend (.snapshot ⟨0⟩) ∈ killedBeforeCommit.labels ∧
      committed killedBeforeCommit.labels = [] ∧
      ¬ ZfsBackendDriverImpl.Adopts sampleSystem sampleDriver SamplePool.snapshots (fun _ _ => none)
        ⟨0⟩ (.replicate 16 0) killedBeforeCommit.state.backend ∧
      (sampleSnapshotCommand.run killedBeforeCommit.state).result =
        .exn (.commandFailed "zfs: command failed with exit status 1") := by
  refine ⟨by decide +kernel, by decide +kernel, fun hadopts => ?_, by decide +kernel⟩
  have hold := (ZfsBackendDriverImpl.adopts_iff SamplePool.snapshotSet).mp hadopts
  have hsome := isSome_killedBeforeCommit
  rw [show killedBeforeCommit.state.backend.snapshots _ = none from hold] at hsome
  cases hsome

end Controller

end Diffmonger
