import Diffmonger.Controller.Crash

/-!
# What survives kills

A history of snapshot commands, each of which may be killed after any step. Once a command has been
killed between the rename and the breadcrumb, or while the breadcrumb is being written, all later
ones leave the repository alone; until then it is as if nothing had happened.

`Durable A c` says this of one directory: `c` nodes have been committed, the numbers of those that
are left are what pruning in any order can leave (`fenwick.Kept`), the breadcrumb is in one of the
three states that a kill can leave it in, and whatever a node's directory holds is allowed by `A`.
It holds at every step of a command. Between two iterations the first of the three states holds as
well, and the object has the breadcrumb that is in the file (`Usable`); this is what the next
iteration starts from.

`A` depends on the labels of the steps so far (`Author`), so that it can say which attempt wrote a
directory. What the steps of an attempt have written stays written when more steps follow
(`Written.append`), and the id is only written after the whole payload (`written_of_commitLabels`).

From there a path is complete because of the order of the tree alone: what is to be kept after the
last commit contains the path of the newest node, and only nodes that are not to be kept can be
missing.
-/

namespace Diffmonger

open Prog RepositoryStructure

variable {β S σ : Type}

namespace Controller

/-!
## Who wrote a directory

A directory is under a node's name only since a rename, and the steps before it are those of one
process. That is what makes it possible to say of each directory which attempt wrote it, id and
payload both.
-/

section
variable (driver : BackendDriver β S) (sodium : Sodium σ)

/-- Among the steps with the given labels, the id was written after the whole payload, and they are
what the directory holds. -/
def Written (env : Env) (params : RepositoryParams) (keyPairs : Except Exn (List KeyPair))
    (events : List Event) (encoded : Encoded) (dir : NodeDir) : Prop :=
  ∃ before after, events = before ++ .writeTemporaryId encoded.serialise :: after ∧
    dir = ⟨some encoded.serialise, some (payload before)⟩ ∧
    WholePayload driver sodium env params keyPairs encoded (payload before)

/-- The attempt wrote both the id and the whole payload that the directory holds. -/
def WrittenBy (a : Attempt Event (World β) Exn Unit) (encoded : Encoded) (dir : NodeDir) : Prop :=
  ∃ repository env params, a.program = snapshotCommand driver repository sodium env params ∧
    Written driver sodium env params a.start.disk.keyPairs a.labels encoded dir

end

theorem Written.append {driver : BackendDriver β S} {sodium : Sodium σ} {env : Env}
    {params : RepositoryParams} {keyPairs : Except Exn (List KeyPair)} {events : List Event}
    {encoded : Encoded} {dir : NodeDir}
    (h : Written driver sodium env params keyPairs events encoded dir) (ls : List Event) :
    Written driver sodium env params keyPairs (events ++ ls) encoded dir := by
  obtain ⟨before, after, rfl, hdir, hwhole⟩ := h
  exact ⟨before, after ++ ls, by simp, hdir, hwhole⟩

/-- The steps of an iteration up to the rename. -/
theorem written_of_commitLabels {driver : BackendDriver β S} {sodium : Sodium σ} {env : Env}
    {params : RepositoryParams} {keyPairs : Except Exn (List KeyPair)} {events : List Event}
    {encoded : Encoded}
    (hwhole : WholePayload driver sodium env params keyPairs encoded (payload events)) :
    Written driver sodium env params keyPairs (events ++ commitLabels encoded) encoded
      ⟨some encoded.serialise, some (payload events)⟩ := by
  have hpayload : payload (events ++ [.look, .look, .truncateTemporaryId]) = payload events := by
    simp [payload]
  refine ⟨events ++ [.look, .look, .truncateTemporaryId], [.look], by simp [commitLabels], ?_, ?_⟩
  · rw [hpayload]
  · rw [hpayload]
    exact hwhole

/-! ## What holds at every moment

There are three states of the breadcrumb because `commit` renames the directory first and writes the
breadcrumb in two steps: before the rename it is `Aligned`, after it the node that it names is there
(`Stuck`), and once the file is truncated it cannot be read (`Unreadable`). -/

/-- The breadcrumb says that `c` nodes have been committed. -/
def Aligned (c : ℕ) (disk : Disk) : Prop :=
  ∃ b, disk.readBreadcrumb = .ok b ∧ b.untrustedBegin.toNat = c

/-- No command goes beyond the first untrusted node. -/
def Stuck (disk : Disk) : Prop :=
  ∃ b encoded, disk.readBreadcrumb = .ok b ∧
    disk.readId b.untrustedBegin = .ok (some encoded)

/-- No command opens the repository. -/
def Unreadable (disk : Disk) : Prop := ∃ e, disk.readBreadcrumb = .error e

/-- `c` nodes have been committed, and everything but what dies next is what `A` allows. -/
structure Durable (A : Encoded → NodeDir → Prop) (c : ℕ) (disk : Disk) : Prop where
  bound : c ≤ 2 ^ 63
  kept : fenwick.Kept c disk.nodes
  initargs : ∀ repository, ∃ args, disk.readInitargs repository = .ok args
  breadcrumb : Aligned c disk ∨ Stuck disk ∨ Unreadable disk
  authored : ∀ node dir, node.toNat ∉ fenwick.dying c → disk.snapshots node = some dir →
    ∃ encoded, encoded.node = node ∧ A encoded dir

/-- The first `c₀` nodes had been committed before the steps labelled `tr`, and the first `c` have
been after them. -/
def Commits (c₀ : ℕ) (tr : List Event) (c : ℕ) : Prop :=
  List.range c₀ ++ (committed tr).map Node.toNat = List.range c

section
variable {c₀ c : ℕ} {tr ls : List Event}

theorem Commits.nil (c : ℕ) : Commits c [] c := by simp [Commits, committed]

theorem Commits.prepared (h : Commits c₀ tr c) {D : Set ℕ} (hls : ∀ l ∈ ls, l.Prepares D) :
    Commits c₀ (tr ++ ls) c := by
  rw [Commits, committed_append, committed_of_prepares hls, List.append_nil]
  exact h

/-- The next node has appeared. -/
theorem Commits.rename (h : Commits c₀ tr c) {u : Node} (hu : u.toNat = c)
    (hls : committed ls = [u]) : Commits c₀ (tr ++ ls) (c + 1) := by
  rw [Commits, committed_append, hls, List.map_append, ← List.append_assoc, h, List.range_succ,
    List.map_singleton, hu]

/-- The steps that follow those of the attempts before. -/
theorem Commits.trans {c' : ℕ} (h : Commits c₀ tr c) (h' : Commits c ls c') :
    Commits c₀ (tr ++ ls) c' := by
  rw [Commits, committed_append, List.map_append, ← List.append_assoc, h]
  exact h'

end

section
variable {A : Encoded → NodeDir → Prop} {c : ℕ} {w : World β}

theorem Durable.mono {disk : Disk} {A' : Encoded → NodeDir → Prop} (h : Durable A c disk)
    (hA : ∀ encoded dir, A encoded dir → A' encoded dir) : Durable A' c disk :=
  ⟨h.bound, h.kept, h.initargs, h.breadcrumb, fun node dir hnode hdir =>
    (h.authored node dir hnode hdir).imp fun _ ⟨heq, ha⟩ => ⟨heq, hA _ _ ha⟩⟩

/-- A step on the way to the next node. -/
theorem Durable.prepared (h : Durable A c w.disk) (hal : Aligned c w.disk) {w' : World β}
    (hw' : World.Prepared (fenwick.dying c) w w') : Durable A c w'.disk ∧ Aligned c w'.disk := by
  have hal' : Aligned c w'.disk := by
    rwa [Aligned, Disk.readBreadcrumb, hw'.breadcrumbFile]
  refine ⟨⟨h.bound, hw'.kept le_rfl h.kept, fun repository => ?_, .inl hal', ?_⟩, hal'⟩
  · rw [Disk.readInitargs, hw'.initargs]
    exact h.initargs repository
  · intro node dir hnode hdir
    rw [hw'.frame node hnode] at hdir
    exact h.authored node dir hnode hdir

/-- The next node has appeared. -/
theorem Durable.rename (h : Durable A c w.disk) {u : Node} (hu : u.toNat = c) (hlt : c < 2 ^ 63)
    (hpruned : ∀ k ∈ w.disk.nodes, k ∉ fenwick.dying u.toNat) {encoded : Encoded}
    (hencoded : encoded.node = u) {dir : NodeDir} (htemp : w.disk.temporarySnapshot = some dir)
    (hA : A encoded dir) {disk : Disk}
    (hsnapshots : disk.snapshots = ((Event.rename u).apply w.disk).snapshots)
    (hargs : disk.initargs = w.disk.initargs)
    (hbreadcrumb : Aligned (c + 1) disk ∨ Stuck disk ∨ Unreadable disk) :
    Durable A (c + 1) disk := by
  have hnodes : disk.nodes = fenwick.alive c := by
    rw [Disk.nodes_congr hsnapshots, Disk.nodes_rename (by rw [htemp]; rfl), hu]
    exact h.kept.insert (hu ▸ hpruned)
  refine ⟨hlt, by rw [hnodes]; exact Retention.kept_alive c, fun repository => ?_, hbreadcrumb, ?_⟩
  · rw [Disk.readInitargs, hargs]
    exact h.initargs repository
  · intro node dir' _ hdir'
    have hupdate : (w.disk.setNode u w.disk.temporarySnapshot).snapshots node = some dir' := by
      rw [hsnapshots] at hdir'
      exact hdir'
    rcases eq_or_ne node u with rfl | hne
    · rw [Disk.setNode_self, htemp] at hupdate
      cases hupdate
      exact ⟨encoded, hencoded, hA⟩
    · rw [Disk.setNode_of_ne _ hne] at hupdate
      refine h.authored node dir' ?_ hupdate
      rw [← hu]
      exact hpruned _ (Disk.toNat_mem_nodes.mpr (by rw [hupdate]; rfl))

/-- Committing the next node: at every moment the repository is durable, and at the end the
breadcrumb is right. -/
theorem Durable.commit {A : List Event → Encoded → NodeDir → Prop}
    (hA : ∀ tr ls encoded dir, A tr encoded dir → A (tr ++ ls) encoded dir) {tr : List Event}
    {c₀ : ℕ} (hc : Commits c₀ tr c) (h : Durable (A tr) c w.disk) (hal : Aligned c w.disk)
    {u : Node} (hu : u.toNat = c)
    (hlt : c < 2 ^ 63) (hpruned : ∀ k ∈ w.disk.nodes, k ∉ fenwick.dying u.toNat)
    {encoded : Encoded} (hencoded : encoded.node = u) {blob : Option Bytes}
    (htemp : w.disk.temporarySnapshot = some ⟨some encoded.serialise, blob⟩)
    (hauthor : A tr encoded ⟨some encoded.serialise, blob⟩) :
    (commitRename encoded).wp (fun tr w' => ∃ c, Commits c₀ tr c ∧ Durable (A tr) c w'.disk)
      (fun _ tr w' => ∃ c, Commits c₀ tr c ∧ Durable (A tr) c w'.disk ∧ Aligned c w'.disk ∧
        Opened w' ∧ w'.disk.keyPairs = w.disk.keyPairs) tr w := by
  -- after the rename only the breadcrumb changes, so this is proved once for the three states
  have hrename (ls : List Event) (disk : Disk)
      (hsnapshots : disk.snapshots = ((Event.rename u).apply w.disk).snapshots)
      (hargs : disk.initargs = w.disk.initargs)
      (hbreadcrumb : Aligned (c + 1) disk ∨ Stuck disk ∨ Unreadable disk) :
      Durable (A (tr ++ ls)) (c + 1) disk :=
    (h.rename hu hlt hpruned hencoded htemp hauthor hsnapshots hargs hbreadcrumb).mono
      fun _ _ => hA tr ls _ _
  rw [wp_commitRename hencoded (by omega), wp_writeBreadcrumb, List.append_assoc]
  have hcommits {ls : List Event} (hls : committed ls = [u]) := hc.rename hu hls
  refine ⟨⟨c + 1, hcommits rfl, hrename _ _ rfl rfl (.inr (.inl ?_))⟩, ⟨c + 1, hcommits rfl, ?_⟩, ?_⟩
  · -- the breadcrumb still names the node that has appeared
    obtain ⟨b, hread, hb⟩ := hal
    obtain rfl : b.untrustedBegin = u := Node.toNat_inj.mp (hb.trans hu.symm)
    exact ⟨b, encoded, hread, Disk.readId_rename hencoded htemp⟩
  -- the breadcrumb file is empty
  · exact hrename _ _ rfl rfl (.inr (.inr ⟨_, Breadcrumb.deserialise_nil⟩))
  -- the breadcrumb names the node after the one that has appeared
  · rw [List.append_assoc]
    generalize hb : (⟨.ofNat (u.toNat + 1), encoded.timestamp⟩ : Breadcrumb) = b
    have hread := Disk.readBreadcrumb_writeBreadcrumb
      ((w.apply (.rename u)).apply .truncateBreadcrumb).disk b
    have hal' : Aligned (c + 1)
        (((w.apply (.rename u)).apply .truncateBreadcrumb).recordBreadcrumb b).disk :=
      ⟨b, hread, by rw [← hu, ← hb]; exact Node.toNat_ofNat (by omega)⟩
    have hdurable (ls : List Event) := hrename ls
      (((w.apply (.rename u)).apply .truncateBreadcrumb).recordBreadcrumb b).disk rfl rfl (.inl hal')
    exact ⟨⟨c + 1, hcommits rfl, hdurable _⟩, c + 1, hcommits rfl, hdurable _, hal', hread, rfl⟩

end

/-!
## Commands

A new process first opens the repository. If it finds the breadcrumb stale or empty, it does not get
any further, and what is there stays as it is; otherwise one iteration follows, at each moment of
which it is known what is there.
-/

section
variable {driver : BackendDriver β S} {sodium : Sodium σ} {env : Env} {params : RepositoryParams}
  {keyPairs : Except Exn (List KeyPair)} {A₀ : Encoded → NodeDir → Prop} {c₀ : ℕ}

/-- What the directories of nodes may hold: what they did before, or what has been written since. -/
def Author (driver : BackendDriver β S) (sodium : Sodium σ) (env : Env) (params : RepositoryParams)
    (keyPairs : Except Exn (List KeyPair)) (A₀ : Encoded → NodeDir → Prop) (tr : List Event)
    (encoded : Encoded) (dir : NodeDir) : Prop :=
  A₀ encoded dir ∨ Written driver sodium env params keyPairs tr encoded dir

theorem Author.append {tr : List Event} (ls : List Event) {encoded : Encoded} {dir : NodeDir}
    (h : Author driver sodium env params keyPairs A₀ tr encoded dir) :
    Author driver sodium env params keyPairs A₀ (tr ++ ls) encoded dir :=
  h.imp_right fun h => h.append ls

/-- What holds before every iteration of a command. -/
def Usable (driver : BackendDriver β S) (sodium : Sodium σ) (env : Env) (params : RepositoryParams)
    (keyPairs : Except Exn (List KeyPair)) (A₀ : Encoded → NodeDir → Prop) (c₀ : ℕ)
    (tr : List Event) (w : World β) : Prop :=
  ∃ c, Commits c₀ tr c ∧ Durable (Author driver sodium env params keyPairs A₀ tr) c w.disk ∧
    Aligned c w.disk ∧ Opened w ∧ w.disk.keyPairs = keyPairs

/-- One iteration of `snapshot`. -/
theorem Usable.iteration {tr : List Event} {w : World β}
    (h : Usable driver sodium env params keyPairs A₀ c₀ tr w) :
    (_snapshot driver sodium env params).wp
      (fun tr w => ∃ c, Commits c₀ tr c ∧
        Durable (Author driver sodium env params keyPairs A₀ tr) c w.disk)
      (fun r tr w => ∀ b, r = .val b → Usable driver sodium env params keyPairs A₀ c₀ tr w) tr
      w := by
  obtain ⟨c, hc, hdurable, hal, hopen, hkeys⟩ := h
  obtain ⟨b, hread, hb⟩ := hal
  obtain rfl : b = w.repositoryStructure.breadcrumb := Except.ok.inj (hread.symm.trans hopen)
  -- the next node is not there, since it has not been committed
  have habsent : w.disk.readId w.repositoryStructure.breadcrumb.untrustedBegin = .ok none := by
    have hnot := hdurable.kept.notMem hb.ge
    rw [Disk.toNat_mem_nodes, Option.not_isSome_iff_eq_none] at hnot
    exact Disk.readId_of_absent hnot
  have hal : Aligned c w.disk := ⟨_, hread, hb⟩
  have hprepared {ls : List Event} {w' : World β} (hw' : World.PreparedBy
      (fenwick.dying w.repositoryStructure.breadcrumb.untrustedBegin.toNat) w ls w') :=
    Durable.prepared (hdurable.mono fun _ _ h => h.append ls) hal (hb ▸ hw'.world)
  refine wp_snapshotIteration rfl habsent (hb.trans_le hdurable.bound)
    (fun ls w' hw' => ⟨c, hc.prepared hw'.prepares, (hprepared hw').1⟩)
    (fun ls w' r _ hr b hb => absurd hb (hr b)) ?_
  intro ls w' encoded old hw' hlt hsnapshots hnode hwhole htemp _
  -- by the rename all that dies with the new node is gone
  have hpruned (k : ℕ) (hk : k ∈ w'.disk.nodes) :
      k ∉ fenwick.dying w.repositoryStructure.breadcrumb.untrustedBegin.toNat := by
    rw [Disk.nodes_congr hsnapshots] at hk
    exact notMem_dying_of_mem_removeNodes hlt hk
  obtain ⟨hdurable', hal'⟩ := hprepared hw'
  rw [hkeys] at hwhole
  -- this iteration is the author of what the temporary directory holds
  have hauthor := written_of_commitLabels hwhole
  rw [List.append_assoc] at hauthor
  refine wp_post ?_ (Durable.commit (fun _ ls _ _ h => h.append ls) (hc.prepared hw'.prepares)
    hdurable' hal' hb (hb ▸ hlt) hpruned hnode htemp (.inr hauthor))
  rintro r tr' w'' ⟨c', hc', hd, ha, ho, hk⟩
  cases r with
  | val _ => exact fun b _ => ⟨c', hc', hd, ha, ho, hk.trans (hw'.world.keyPairs.trans hkeys)⟩
  | exn e => exact fun b hb => by cases hb
  | diverged => exact fun b hb => by cases hb

/-- A command of a new process. -/
theorem Durable.snapshotCommand {c : ℕ} {w : World β} (h : Durable A₀ c w.disk)
    (repository : String) :
    (snapshotCommand driver repository sodium env params).wp
      (fun tr w' => ∃ c', Commits c tr c' ∧
        Durable (Author driver sodium env params w.disk.keyPairs A₀ tr) c' w'.disk)
      (fun _ _ _ => True) [] w := by
  -- a command that only looks changes nothing
  have hlooks {tr : List Event} {w' : World β} (htr : ∀ l ∈ tr, l = .look)
      (hw' : w'.disk = w.disk) : Commits c tr c ∧
        Durable (Author driver sodium env params w.disk.keyPairs A₀ tr) c w'.disk := by
    rw [hw']
    exact ⟨(Commits.nil c).prepared (D := ∅) fun l hl => htr l hl ▸ trivial, h.mono fun _ _ => .inl⟩
  rcases h.breadcrumb with hal | ⟨b, encoded, hread, hid⟩ | ⟨e, hread⟩
  · -- the repository is as it should be
    have ⟨b, hread, _⟩ := hal
    rw [Controller.snapshotCommand, wp_bind]
    refine wp_openRepository_readable (h.initargs repository) hread
      (fun ls w' hls _ hw' _ => ⟨c, hlooks hls hw'⟩) ?_
    intro ls w' hls _ hw' hb
    refine wp_post (fun _ _ _ _ => trivial) (wp_snapshot (fun _ _ h => h.iteration)
      (J := Usable driver sodium env params w.disk.keyPairs A₀ c) ?_)
    refine ⟨c, (hlooks hls hw').1, (hlooks hls hw').2, ?_, ?_, by rw [hw']⟩
    · rw [hw']
      exact hal
    · rw [Opened, hw', hb]
      exact hread
  · -- an earlier command was killed after the rename
    exact wp_mono (fun tr w' h => ⟨c, hlooks h.2 h.1⟩) (fun _ _ _ _ => trivial) _
      (snapshotCommand_stuck (h.initargs repository) hread hid)
  · -- an earlier command was killed while it wrote the breadcrumb
    rw [Controller.snapshotCommand, wp_bind]
    refine wp_openRepository repository (fun ls hls _ => ⟨c, hlooks hls rfl⟩)
      (fun _ _ _ _ _ => trivial) ?_
    intro ls args breadcrumb _ _ _ hread'
    rw [hread] at hread'
    cases hread'

end

/-!
## Histories

By induction on the history, with the number `c` of the nodes that have been committed so far. It is
determined by the labels, so that it is the same number for what is known of the breadcrumb and for
what is known of the directories.
-/

section
variable {driver : BackendDriver β S} {sodium : Sodium σ} {w₀ w : World β}
  {as : List (Attempt Event (World β) Exn Unit)}

/-- What is there after a history of commands, some of which have been killed, has been written by
them. -/
theorem durable_of_history (h₀ : Fresh w₀)
    (hist : History (snapshotCommands driver sodium) SameDisk (fun _ => True) w₀ as w) :
    ∃ c, Commits 0 (Attempt.allLabels as) c ∧
      Durable (fun encoded dir => ∃ a ∈ as, WrittenBy driver sodium a encoded dir) c w.disk := by
  refine History.invariant (fun as w => ∃ c, Commits 0 (Attempt.allLabels as) c ∧
    Durable (fun encoded dir => ∃ a ∈ as, WrittenBy driver sodium a encoded dir) c w.disk)
    ?_ ?_ hist
  · have h := h₀.tracked
    refine ⟨0, .nil 0, Nat.zero_le _, h.numbered.kept, h.numbered.initargs, .inl (h.numbered.aligned rfl),
      fun node dir _ hdir => ?_⟩
    have hmem : node.toNat ∈ w₀.disk.nodes := Disk.toNat_mem_nodes.mpr (by rw [hdir]; rfl)
    exact absurd hmem (h.numbered.kept.notMem (Nat.zero_le _))
  · rintro as w a ⟨c, hc, h⟩ hstart ⟨repository, env, params, hprogram⟩ -
    rw [← show a.start.disk = w.disk from hstart] at h
    obtain ⟨c', hc', h'⟩ := a.invariant (hprogram ▸ h.snapshotCommand repository)
      ⟨c, .nil c, h.mono fun _ _ => .inl⟩
    refine ⟨c', ?_, h'.mono fun encoded dir => ?_⟩
    · rw [Attempt.allLabels_append_singleton]
      exact hc.trans hc'
    rintro (⟨b, hb, hwritten⟩ | hwritten)
    · exact ⟨b, List.mem_append_left _ hb, hwritten⟩
    · exact ⟨a, by simp, repository, env, params, hprogram, hwritten⟩

/-- However often snapshot commands are killed, and after whichever steps: every node on the path of
the newest one has a directory, whose id is the node's own and whose blob is the whole payload
written by the attempt that wrote the id. -/
theorem newest_node_restorable (h₀ : Fresh w₀)
    (hist : History (snapshotCommands driver sodium) SameDisk (fun _ => True) w₀ as w) {h : Node}
    (hh : (w.disk.snapshots h).isSome)
    (hnewest : ∀ m, (w.disk.snapshots m).isSome → m.toNat ≤ h.toNat) :
    ∀ x ∈ h.fenwickPathIncRoot.nodes, ∃ dir encoded, w.disk.snapshots ⟨x⟩ = some dir ∧
      w.disk.readId ⟨x⟩ = .ok (some encoded) ∧ encoded.node = ⟨x⟩ ∧
      ∃ a ∈ as, WrittenBy driver sodium a encoded dir := by
  obtain ⟨c, -, hdurable⟩ := durable_of_history h₀ hist
  have hmem := Disk.toNat_mem_nodes.mpr hh
  -- the newest node is the last one committed
  obtain ⟨n, rfl⟩ : ∃ n, c = n + 1 := by
    cases c with
    | zero => exact absurd hmem (hdurable.kept.notMem (Nat.zero_le _))
    | succ n => exact ⟨n, rfl⟩
  have hkept : fenwick.PartlyPruned n w.disk.nodes := hdurable.kept
  have hn : n = h.toNat := by
    refine le_antisymm ?_ (hkept.subset_alive hmem).1
    obtain ⟨m, hm, hs⟩ := hkept.path_subset (fenwick.self_mem_path n)
    exact hm ▸ hnewest m hs
  subst hn
  intro x hx
  have hpath : x.toNat ∈ fenwick.path h.toNat := by
    rw [← Tree.fenwickPathIncRoot_numbers h.value]
    exact Tree.Calls.toNat_mem_numbers.mpr hx
  have hs := hkept.path_subset hpath
  rw [show x.toNat = (⟨x⟩ : Node).toNat from rfl, Disk.toNat_mem_nodes,
    Option.isSome_iff_exists] at hs
  obtain ⟨dir, hdir⟩ := hs
  obtain ⟨encoded, hnode, a, ha, hwritten⟩ := hdurable.authored ⟨x⟩ dir
    (fenwick.not_mem_dying_of_mem_path hpath le_rfl) hdir
  refine ⟨dir, encoded, hdir, Disk.readId_of_serialise ?_ hnode, hnode, a, ha, hwritten⟩
  obtain ⟨_, _, _, _, _, _, _, hid, _⟩ := hwritten
  rw [Disk.idFile, hdir, hid]
  rfl

end

/-- A command that ran to the end, and one that is killed after the rename. -/
theorem newest_node_restorable_one :
    let command : Repo Unit Unit :=
      snapshotCommand (.constant [7]) "repository" .transparent sampleEnv ⟨false, 0⟩
    let first := Attempt.whole command sampleWorld
    let killed := Attempt.cut command first.state 24
    ∃ dir encoded, killed.state.disk.snapshots ⟨0⟩ = some dir ∧ encoded.node = ⟨0⟩ ∧
      ∃ a ∈ [first, killed], WrittenBy (.constant [7]) Sodium.transparent a encoded dir := by
  intro command first killed
  have hcommand : command ∈ snapshotCommands (.constant [7]) Sodium.transparent :=
    ⟨"repository", sampleEnv, ⟨false, 0⟩, rfl⟩
  -- the node 1 is the newest
  have hnum : Numbered (Attempt.allLabels ([] ++ [first]) ++ killed.labels) killed.state.disk :=
    numbered_of_killed fresh_sampleWorld (.snoc first .nil rfl hcommand ⟨rfl, (), by decide +kernel⟩)
      killed rfl hcommand
  have hcount : (committed (Attempt.allLabels ([] ++ [first]) ++ killed.labels)).length = 2 := by
    decide +kernel
  have hkept := hnum.kept
  rw [hcount] at hkept
  have hnewest (m : Node) (hm : (killed.state.disk.snapshots m).isSome) :
      m.toNat ≤ (⟨1⟩ : Node).toNat :=
    (Retention.PartlyPruned.subset_alive hkept (Disk.toNat_mem_nodes.mpr hm)).1
  have hist : History (snapshotCommands (.constant [7]) Sodium.transparent) SameDisk
      (fun _ => True) sampleWorld ([] ++ [first] ++ [killed]) killed.state :=
    .snoc killed (.snoc first .nil rfl hcommand trivial) rfl hcommand trivial
  obtain ⟨dir, encoded, hdir, -, hnode, hauthor⟩ := newest_node_restorable fresh_sampleWorld hist
    (by decide +kernel) hnewest 0 (by decide)
  exact ⟨dir, encoded, hdir, hnode, hauthor⟩

end Controller

end Diffmonger
