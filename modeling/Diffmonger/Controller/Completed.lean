import Diffmonger.Controller.Durability

/-!
# Commands that run to the end

Where every snapshot command runs to the end, the repository holds exactly the nodes that are alive,
and the breadcrumb names the next one.

This is sharper than what is known of killed commands (`Controller/Durability.lean`), where nodes
may be missing that are about to be pruned, and it needs less: only the end of a command is looked
at, so the rules are used with a trivial invariant for the steps, and there is one state of the
breadcrumb instead of three.
-/

namespace Diffmonger

open Prog RepositoryStructure

variable {β S σ : Type}

/-- A repository that has just been created, and that may have been given keys. -/
def Created (disk : Disk) : Prop :=
  ∃ formatUuid initargs uuid created keys,
    createRepository formatUuid initargs uuid = .ok created ∧ disk = { created with keys := keys }

namespace Controller

/-- `c` nodes have been stored. Those of them that are alive are there, and `A` allows what their
directories hold. -/
structure Stocked (A : Encoded → NodeDir → Prop) (c : ℕ) (disk : Disk) : Prop where
  bound : c ≤ 2 ^ 63
  initargs : ∀ repository, ∃ args, disk.readInitargs repository = .ok args
  aligned : Aligned c disk
  nodes : disk.nodes = fenwick.aliveBefore c
  holds : ∀ node dir, disk.snapshots node = some dir → ∃ encoded, encoded.node = node ∧ A encoded dir

theorem Fresh.created {w : World β} (h : Fresh w) : Created w.disk := by
  obtain ⟨_, formatUuid, initargs, uuid, hdisk, -⟩ := h
  exact ⟨formatUuid, initargs, uuid, w.disk, w.disk.keys, hdisk, rfl⟩

theorem stocked_of_created {A : Encoded → NodeDir → Prop} {disk : Disk} (h : Created disk) :
    Stocked A 0 disk := by
  obtain ⟨formatUuid, initargs, uuid, created, keys, hcreated, rfl⟩ := h
  obtain ⟨hargs, hread, hnodes⟩ := createRepository_spec hcreated
  refine ⟨Nat.zero_le _, fun repository => ⟨_, hargs repository⟩, ⟨_, hread, rfl⟩, hnodes, ?_⟩
  intro node dir hdir
  have hmem : node.toNat ∈ created.nodes := Disk.toNat_mem_nodes.mpr (by
    rw [show created.snapshots node = some dir from hdir]
    rfl)
  rw [hnodes] at hmem
  exact hmem.elim

section
variable {A : Encoded → NodeDir → Prop} {c : ℕ}

/-- The next node is not there yet. -/
theorem Stocked.absent {disk : Disk} (h : Stocked A c disk) {u : Node} (hu : u.toNat = c) :
    disk.snapshots u = none := by
  rw [← Option.not_isSome_iff_eq_none, ← Disk.toNat_mem_nodes, h.nodes, hu]
  cases c with
  | zero => exact Set.notMem_empty _
  | succ n => exact fenwick.succ_notMem_alive n

/-- The next node has been stored. -/
theorem Stocked.rename {w w' : World β} (h : Stocked A c w.disk) {u : Node} (hu : u.toNat = c)
    (hlt : c < 2 ^ 63) {ls : List Event} (hw' : World.PreparedBy (fenwick.dying u.toNat) w ls w')
    (hsnapshots : w'.disk.snapshots = (removeNodes w u.prune.nodes).disk.snapshots)
    {encoded : Encoded} (hencoded : encoded.node = u) {dir : NodeDir}
    (htemp : w'.disk.temporarySnapshot = some dir) (hA : A encoded dir) {disk : Disk}
    (hdisk : disk.snapshots = ((Event.rename u).apply w'.disk).snapshots)
    (hargs : disk.initargs = w'.disk.initargs) (haligned : Aligned (c + 1) disk) :
    Stocked A (c + 1) disk := by
  refine ⟨hlt, fun repository => ?_, haligned, ?_, fun node dir' hdir' => ?_⟩
  · rw [Disk.readInitargs, hargs, hw'.world.initargs]
    exact h.initargs repository
  · have hleft : w'.disk.nodes = w.disk.nodes \ fenwick.dying c := by
      refine Set.Subset.antisymm (fun k hk => ⟨hw'.world.nodes.2 hk, ?_⟩) (hu ▸ hw'.world.nodes.1)
      rw [Disk.nodes_congr hsnapshots] at hk
      exact hu ▸ notMem_dying_of_mem_removeNodes (hu ▸ hlt) hk
    rw [Disk.nodes_congr hdisk, Disk.nodes_rename (by rw [htemp]; rfl), hleft, h.nodes, hu,
      fenwick.aliveBefore_succ]
  · have hset : (w'.disk.setNode u w'.disk.temporarySnapshot).snapshots node = some dir' := by
      rw [hdisk] at hdir'
      exact hdir'
    rcases eq_or_ne node u with rfl | hne
    · rw [Disk.setNode_self, htemp] at hset
      cases hset
      exact ⟨encoded, hencoded, hA⟩
    · rw [Disk.setNode_of_ne _ hne, hsnapshots] at hset
      refine h.holds node dir' ?_
      simp only [removeNodes] at hset
      split at hset
      · cases hset
      · exact hset

section
variable {driver : BackendDriver β S} {sodium : Sodium σ} {env : Env} {params : RepositoryParams}
  {keyPairs : Except Exn (List KeyPair)} {c₀ : ℕ}

/-- What is stored may be what the backend writes. -/
def Allows (driver : BackendDriver β S) (sodium : Sodium σ) (env : Env) (params : RepositoryParams)
    (keyPairs : Except Exn (List KeyPair)) (A : Encoded → NodeDir → Prop) : Prop :=
  ∀ encoded blob, WholePayload driver sodium env params keyPairs encoded blob →
    A encoded ⟨some encoded.serialise, some blob⟩

/-- What holds of the repository between two commands. -/
def StockedAfter (A : Encoded → NodeDir → Prop) (keyPairs : Except Exn (List KeyPair)) (c₀ : ℕ)
    (tr : List Event) (w : World β) : Prop :=
  ∃ c, Commits c₀ tr c ∧ Stocked A c w.disk ∧ w.disk.keyPairs = keyPairs

/-- One iteration that returns leaves what is alive after the node that it has stored. -/
theorem StockedAfter.iteration (hA : Allows driver sodium env params keyPairs A) {tr : List Event}
    {w : World β} (h : StockedAfter A keyPairs c₀ tr w) (hopen : Opened w) :
    (_snapshot driver sodium env params).wp (fun _ _ => True)
      (onVal fun _ tr' w' => StockedAfter A keyPairs c₀ tr' w' ∧ Opened w') tr w := by
  obtain ⟨c, hc, hstocked, hkeys⟩ := h
  obtain ⟨b, hread, hb⟩ := hstocked.aligned
  obtain rfl : b = w.repositoryStructure.breadcrumb := Except.ok.inj (hread.symm.trans hopen)
  refine wp_snapshotIteration rfl (Disk.readId_of_absent (hstocked.absent hb))
    (hb.trans_le hstocked.bound) (fun _ _ _ => trivial)
    (fun _ _ r _ hr => onVal_iff.mpr fun b hb => absurd hb (hr b)) ?_
  intro ls w' encoded old hw' hlt hsnapshots hid hwhole htemp _
  rw [hkeys] at hwhole
  rw [wp_commitRename hid (by omega), wp_writeBreadcrumb, List.append_assoc]
  generalize hb' : (⟨.ofNat (_ + 1), encoded.timestamp⟩ : Breadcrumb) = b'
  have hread' := Disk.readBreadcrumb_writeBreadcrumb
    ((w'.apply (.rename w.repositoryStructure.breadcrumb.untrustedBegin)).apply
      .truncateBreadcrumb).disk b'
  have hbegin : b'.untrustedBegin.toNat = c + 1 := by
    rw [← hb', ← hb]
    exact Node.toNat_ofNat (by omega)
  refine ⟨trivial, trivial, trivial, ⟨c + 1, ?_, ?_, hw'.world.keyPairs.trans hkeys⟩, hread'⟩
  · exact (hc.prepared hw'.prepares).rename hb rfl
  · exact hstocked.rename hb (hb ▸ hlt) hw' hsnapshots hid htemp (hA _ _ hwhole) rfl rfl
      ⟨b', hread', hbegin⟩

/-- A command of a new process, if it runs to the end. -/
theorem StockedAfter.command (hA : Allows driver sodium env params keyPairs A) {tr : List Event}
    {w : World β} (h : StockedAfter A keyPairs c₀ tr w) (repository : String) :
    (snapshotCommand driver repository sodium env params).wp (fun _ _ => True)
      (onVal fun _ tr' w' => StockedAfter A keyPairs c₀ tr' w') tr w := by
  obtain ⟨c, hc, hstocked, hkeys⟩ := h
  obtain ⟨b, hread, hb⟩ := hstocked.aligned
  rw [snapshotCommand, wp_bind_onVal]
  refine wp_openRepository_readable (hstocked.initargs repository) hread
    (fun _ _ _ _ _ _ => trivial) fun ls w' hls _ hw' hb => ?_
  have hlooks : ∀ l ∈ ls, l.Prepares ∅ := fun l hl => hls l hl ▸ trivial
  refine wp_post (fun r tr' w' hr => onVal_iff.mpr fun _ hval => (hr hval).1)
    (wp_snapshot (I := fun _ _ => True) (J := fun tr w => StockedAfter A keyPairs c₀ tr w ∧ Opened w)
      (fun tr w h => wp_post (fun _ _ _ => onVal_iff.mp) (h.1.iteration hA h.2))
      ⟨⟨c, hc.prepared hlooks, hw' ▸ hstocked, hw' ▸ hkeys⟩, ?_⟩)
  · rw [Opened, hw', hb]
    exact hread

end

end

/-!
## Histories

All commands encrypt, or none does. What each leaves is then what the next one starts from: all
nodes alive after the last one, each with its id and a payload that is whole.
-/

section
variable (driver : BackendDriver β S) (sodium : Sodium σ) (encryption : Bool)

/-- The programs of new processes that take a snapshot of a repository which is encrypted, or not.
-/
def snapshotCommandsOf : Set (Repo β Unit) :=
  {p | ∃ repository env params,
    params.encryption = encryption ∧ p = snapshotCommand driver repository sodium env params}

/-- The directory holds the id and the whole payload of a snapshot. -/
def HoldsPayload (keyPairs : Except Exn (List KeyPair)) (encoded : Encoded) (dir : NodeDir) : Prop :=
  ∃ env params blob, params.encryption = encryption ∧
    dir = ⟨some encoded.serialise, some blob⟩ ∧
    WholePayload driver sodium env params keyPairs encoded blob

end

/-- After completed commands. -/
theorem stocked_of_completed {driver : BackendDriver β S} {sodium : Sodium σ} {encryption : Bool}
    {w₀ w : World β} {as : List (Attempt Event (World β) Exn Unit)} (h₀ : Created w₀.disk)
    (hist : History (snapshotCommandsOf driver sodium encryption) SameDisk Attempt.Completed w₀ as
      w) :
    StockedAfter (HoldsPayload driver sodium encryption w₀.disk.keyPairs) w₀.disk.keyPairs 0
      (Attempt.allLabels as) w := by
  refine History.labels_invariant ⟨0, .nil 0, stocked_of_created h₀, rfl⟩ ?_ ?_ hist
  · rintro tr w w' ⟨c, hc, hstocked, hkeys⟩ hw
    have hdisk : w'.disk = w.disk := hw
    exact ⟨c, hc, hdisk ▸ hstocked, hdisk ▸ hkeys⟩
  · rintro a tr ⟨repository, env, params, henc, hprogram⟩ hcompleted h
    have hallows : Allows driver sodium env params w₀.disk.keyPairs
        (HoldsPayload driver sodium encryption w₀.disk.keyPairs) :=
      fun encoded blob hwhole => ⟨env, params, blob, henc, rfl, hwhole⟩
    obtain ⟨_, hpost⟩ := hcompleted.post (hprogram ▸ h.command hallows repository)
    exact hpost

/-- The number of nodes, by the last one that has been committed. -/
theorem Commits.eq_of_getLast {tr : List Event} {c : ℕ} (h : Commits 0 tr c) {n : Node}
    (hn : (committed tr).getLast? = some n) : c = n.toNat + 1 := by
  have hlast := congrArg List.getLast? h
  rw [List.range_zero, List.nil_append, List.getLast?_map, hn] at hlast
  cases c with
  | zero => cases hlast
  | succ c =>
      rw [List.range_succ, List.getLast?_concat] at hlast
      rw [Option.some.inj hlast]

end Controller

end Diffmonger
