import Diffmonger.Controller.Snapshots

/-!
# Kills

What a killed snapshot command leaves behind, and what the next process makes of it. There are two
moments at which a kill leaves a repository that no later command can use.

After the rename of node `n` and before the breadcrumb is opened, the breadcrumb names a node that
is present. `getNextSnapshotNode` advances while the node it looks at is present, but it takes the
next one from a variable that it has not changed, so it looks at the same node again; no fuel is
enough (`snapshotCommand_stuck`), and the disk stays as it is, so it is the same for every later
command.

Between the two steps of writing the breadcrumb the file is empty, and the constructor throws. That
these are the only such moments is an invariant about the last label of the trace: the breadcrumb
can be read, and is the one that was written last, unless the last step truncated it
(`ReadableOrTruncated`). All other steps leave the file alone (`Quiet`), and so the invariant is
proved along the commands without looking at what they do to the nodes.
-/

namespace Diffmonger

open Prog RepositoryStructure

variable {β S σ : Type}

namespace Controller

/-!
## A stale breadcrumb

A command that is killed right after the rename leaves a node that the breadcrumb on disk still
names as the next one. Whoever looks for the next node then finds it, and looks for it again.
-/

section
variable {driver : BackendDriver β S} {sodium : Sodium σ} {env : Env} {params : RepositoryParams}
  {repository : String}

/-- If the first untrusted node is present, the snapshot command only reads, and does not end. -/
theorem snapshotCommand_stuck {w : World β}
    (hargs : ∃ args, w.disk.readInitargs repository = .ok args) {breadcrumb : Breadcrumb}
    (hread : w.disk.readBreadcrumb = .ok breadcrumb) {encoded : Encoded}
    (hid : w.disk.readId breadcrumb.untrustedBegin = .ok (some encoded)) :
    (snapshotCommand driver repository sodium env params).wp
      (fun tr w' => w'.disk = w.disk ∧ ∀ l ∈ tr, l = .look)
      (fun r tr w' => r = .diverged ∧ w'.disk = w.disk ∧ ∀ l ∈ tr, l = .look) [] w := by
  rw [snapshotCommand, wp_bind]
  refine wp_openRepository_readable hargs hread (fun ls w' hls _ hw' _ => ⟨hw', hls⟩) ?_
  intro ls w' hls _ hw' hb
  simp only [bindPost, List.nil_append, snapshot]
  cases env.fuel with
  | zero => exact ⟨rfl, hw', hls⟩
  | succ fuel =>
      rw [snapshotLoop, wp_bind, _snapshot_eq, wp_bind]
      have hstuck : (getNextSnapshotNode env).Ends (fun r w'' => w'' = w' ∧ r = .diverged) w' := by
        have hid' : w'.disk.readId w'.repositoryStructure.breadcrumb.untrustedBegin =
            .ok (some encoded) := by rw [hw', hb]; exact hid
        exact getNextSnapshotNode_present hid'
      refine wp_post ?_ (hstuck.wp_of_emits
        (R := fun tr w' => w'.disk = w.disk ∧ ∀ l ∈ tr, l = .look)
        (emits_getNextSnapshotNode (C := Kind (· = .look)) (kind_look rfl) env) ?_ ⟨hw', hls⟩)
      · rintro r tr w'' ⟨h, -, rfl⟩
        exact ⟨rfl, h⟩
      · rintro l u tr w'' ⟨rfl, hu⟩ ⟨hdisk, hlooks⟩
        exact ⟨(hu w'').1.trans hdisk, List.forall_mem_append.mpr ⟨hlooks, by simp⟩⟩

end

/-- A new process finds the directory as it was left. -/
def SameDisk (w w' : World β) : Prop := w'.disk = w.disk

theorem SameDisk.refl (w : World β) : SameDisk w w := rfl

section
variable (driver : BackendDriver β S) (sodium : Sodium σ) (repository : String)
  (params : RepositoryParams)

/-- The snapshot command ends, stores the node after `n`, and leaves the repository as it should. -/
def StoresNext (w : World β) (n : Node) (env : Env) : Prop :=
  let run := (snapshotCommand driver repository sodium env params).run w
  let w' := stateAfter w run.steps
  run.result = .val () ∧ committed (labels run.steps) = [.ofNat (n.toNat + 1)] ∧
    (∃ b, w'.disk.readBreadcrumb = .ok b ∧ b.untrustedBegin.toNat = n.toNat + 2) ∧
    w'.disk.nodes = (Node.ofNat (n.toNat + 1)).aliveAfter.numbers

/-- Given enough fuel, the snapshot command goes on after `n`. -/
def Recovers (w : World β) (n : Node) : Prop :=
  ∃ fuel, ∀ env, fuel ≤ env.fuel → StoresNext driver sodium repository params w n env

end

section
variable {driver : BackendDriver β S} {sodium : Sodium σ} {repository : String}
  {params : RepositoryParams}

theorem not_recovers_of_behind {tr : List Event} {w : World β} (h : Numbered tr w.disk) {n : Node}
    (hn : tr.getLast? = some (.rename n)) :
    ¬ Recovers driver sodium repository params w n ∧
      ∀ env, ((snapshotCommand driver repository sodium env params).run w).result = .diverged ∧
        (stateAfter w ((snapshotCommand driver repository sodium env params).run w).steps).disk =
          w.disk := by
  obtain ⟨b, encoded, hread, rfl, hid⟩ := h.behind n hn
  have hstuck (env : Env) := wp_run (@snapshotCommand_stuck _ _ _ driver sodium env params repository
    _ (h.initargs repository) _ hread _ hid)
  refine ⟨fun ⟨fuel, hfuel⟩ => ?_, fun env => ⟨(hstuck env).1, (hstuck env).2.1⟩⟩
  obtain ⟨hval, -⟩ := hfuel { sampleEnv with fuel } le_rfl
  rw [(hstuck _).1] at hval
  cases hval

/-- Between two commands that ran to the end. -/
theorem numbered_of_completed {w₀ w : World β} {as : List (Attempt Event (World β) Exn Unit)}
    (h₀ : Fresh w₀)
    (hist : History (snapshotCommands driver sodium) SameDisk Attempt.Completed w₀ as w) :
    Numbered (Attempt.allLabels as) w.disk ∧ Balanced (Attempt.allLabels as) := by
  refine History.labels_invariant (J := fun tr w => Numbered tr w.disk ∧ Balanced tr)
    ⟨h₀.tracked.numbered, rfl⟩ ?_ ?_ hist
  · intro tr w w' h hw
    rw [hw]
    exact h
  · intro a tr hp hcompleted h
    obtain ⟨_, hpost⟩ := hcompleted.post
      (h.1.snapshotCommand (I := fun _ _ => True) hp (fun _ _ _ => trivial) h.2
        fun _ _ _ _ _ _ => trivial)
    exact ⟨(hpost rfl).1.numbered, (hpost rfl).2⟩

/-- At every moment of a command that follows completed ones. -/
theorem numbered_of_killed {w₀ w : World β} {as : List (Attempt Event (World β) Exn Unit)}
    (h₀ : Fresh w₀)
    (hist : History (snapshotCommands driver sodium) SameDisk Attempt.Completed w₀ as w)
    (a : Attempt Event (World β) Exn Unit) (hstart : SameDisk w a.start)
    (hprogram : a.program ∈ snapshotCommands driver sodium) :
    Numbered (Attempt.allLabels as ++ a.labels) a.state.disk := by
  obtain ⟨hnum, hbal⟩ := numbered_of_completed h₀ hist
  rw [← show a.start.disk = w.disk from hstart] at hnum
  refine a.invariant (I := fun tr w => Numbered tr w.disk)
    (hnum.snapshotCommand hprogram (fun _ _ h => h.numbered) hbal ?_) hnum
  exact fun ls w' hls _ hw' _ => (hnum.looks hbal hls hw').1

/-- After completed snapshot commands and one that is killed when the node `n` has been renamed into
place and the breadcrumb has not been touched, no snapshot command ever recovers: with whatever
fuel, it runs out of it, looking at the node `n` again and again. -/
theorem stale_breadcrumb_never_recovers {w₀ w : World β}
    {as : List (Attempt Event (World β) Exn Unit)} (h₀ : Fresh w₀)
    (hist : History (snapshotCommands driver sodium) SameDisk Attempt.Completed w₀ as w)
    (a : Attempt Event (World β) Exn Unit) (hstart : SameDisk w a.start)
    (hprogram : a.program ∈ snapshotCommands driver sodium) {n : Node}
    (hkilled : a.labels.getLast? = some (.rename n)) {w' : World β} (hnext : SameDisk a.state w') :
    ¬ Recovers driver sodium repository params w' n ∧
      ∀ env, ((snapshotCommand driver repository sodium env params).run w').result = .diverged ∧
        (stateAfter w' ((snapshotCommand driver repository sodium env params).run w').steps).disk =
          w'.disk := by
  have hmoment := numbered_of_killed h₀ hist a hstart hprogram
  rw [← show w'.disk = a.state.disk from hnext] at hmoment
  have hne : a.labels ≠ [] := fun h => by rw [h] at hkilled; cases hkilled
  exact not_recovers_of_behind hmoment (by rw [List.getLast?_append_of_ne_nil _ hne, hkilled])

end

/-- The first command of a new repository, killed after the rename. -/
theorem first_command_not_recovers :
    ¬ Recovers (.constant [7]) Sodium.transparent "repository" ⟨false, 0⟩
      (Attempt.cut (snapshotCommand (.constant [7]) "repository" .transparent sampleEnv ⟨false, 0⟩)
        sampleWorld 21).state ⟨0⟩ := by
  set command : Repo Unit Unit :=
    snapshotCommand (.constant [7]) "repository" .transparent sampleEnv ⟨false, 0⟩
  have hcommand : command ∈ snapshotCommands (.constant [7]) Sodium.transparent :=
    ⟨"repository", sampleEnv, ⟨false, 0⟩, rfl⟩
  have hnum := numbered_of_killed fresh_sampleWorld .nil (Attempt.cut command sampleWorld 21) rfl
    hcommand
  exact (not_recovers_of_behind hnum (by decide +kernel)).1

/-- A command that ran to the end, and one that is killed after the rename. -/
theorem stale_breadcrumb_never_recovers_one :
    let command : Repo Unit Unit :=
      snapshotCommand (.constant [7]) "repository" .transparent sampleEnv ⟨false, 0⟩
    let killed := Attempt.cut command (Attempt.whole command sampleWorld).state 24
    killed.labels.getLast? = some (.rename ⟨1⟩) ∧
      ¬ Recovers (.constant [7]) Sodium.transparent "repository" ⟨false, 0⟩ killed.state ⟨1⟩ := by
  intro command killed
  have hcommand : command ∈ snapshotCommands (.constant [7]) Sodium.transparent :=
    ⟨"repository", sampleEnv, ⟨false, 0⟩, rfl⟩
  have hkilled : killed.labels.getLast? = some (.rename ⟨1⟩) := by decide +kernel
  have hist : History (snapshotCommands (.constant [7]) Sodium.transparent) SameDisk
      Attempt.Completed sampleWorld ([] ++ [Attempt.whole command sampleWorld])
      (Attempt.whole command sampleWorld).state :=
    .snoc _ .nil rfl hcommand ⟨rfl, (), by decide +kernel⟩
  exact ⟨hkilled, (stale_breadcrumb_never_recovers fresh_sampleWorld hist killed rfl hcommand
    hkilled rfl).1⟩

/-!
## A truncated breadcrumb

The breadcrumb is opened with `O_TRUNC` and then written. A command that is killed in between leaves
an empty file, which no constructor can read. The invariant says, of each step, that the breadcrumb
can be read or has just been truncated.
-/

/-- A step that leaves the breadcrumb file alone. -/
def KeepsBreadcrumb : Event → Prop
  | .truncateBreadcrumb | .writeBreadcrumb _ => False
  | _ => True

/-- Such a step, whatever the process keeps in mind. -/
def Quiet (event : Event) (update : World β → World β) : Prop :=
  KeepsBreadcrumb event ∧ ∀ w, (update w).disk = event.apply w.disk

theorem quiet_of_kind {event : Event} {update : World β → World β}
    (h : Kind KeepsBreadcrumb event update) : Quiet event update := ⟨h.1, fun w => (h.2 w).1⟩

theorem quiet_of_prepares {event : Event} {update : World β → World β}
    (h : Kind (Event.Prepares Set.univ) event update) : Quiet event update := by
  refine ⟨?_, fun w => (h.2 w).1⟩
  cases event with
  | rename _ | truncateBreadcrumb | writeBreadcrumb _ => exact h.1.elim
  | _ => trivial

/-- The breadcrumb that has been written last. -/
def lastBreadcrumb (b₀ : Breadcrumb) (events : List Event) : Breadcrumb :=
  (recorded events).getLast?.getD b₀

/-- The repository can be opened, with the breadcrumb that has been written last. -/
structure Readable (b₀ : Breadcrumb) (tr : List Event) (w : World β) : Prop where
  last : tr.getLast? ≠ some .truncateBreadcrumb
  initargs : ∀ repository, ∃ args, w.disk.readInitargs repository = .ok args
  breadcrumb : w.disk.readBreadcrumb = .ok (lastBreadcrumb b₀ tr)

/-- At every moment of a command. -/
def ReadableOrTruncated (b₀ : Breadcrumb) (tr : List Event) (w : World β) : Prop :=
  Readable b₀ tr w ∨ tr.getLast? = some .truncateBreadcrumb ∧ w.disk.breadcrumb = some []

section
variable {α γ : Type} {b₀ : Breadcrumb} {tr : List Event} {w : World β}

/-- A step that does not write the breadcrumb. -/
theorem Readable.step (h : Readable b₀ tr w) {event : Event} {update : World β → World β}
    (hq : Quiet event update) : Readable b₀ (tr ++ [event]) (update w) := by
  obtain ⟨hkeeps, hdisk⟩ := hq
  have hrecorded : recorded (tr ++ [event]) = recorded tr := by
    cases event with
    | truncateBreadcrumb | writeBreadcrumb _ => exact hkeeps.elim
    | _ => simp [recorded]
  have hfiles : (update w).disk.initargs = w.disk.initargs ∧
      (update w).disk.breadcrumb = w.disk.breadcrumb := by
    rw [hdisk w]
    cases event with
    | truncateBreadcrumb | writeBreadcrumb _ => exact hkeeps.elim
    | _ => exact ⟨rfl, rfl⟩
  refine ⟨?_, fun repository => ?_, ?_⟩
  · rintro hlast
    obtain rfl : event = .truncateBreadcrumb := by simpa using hlast
    exact hkeeps
  · rw [Disk.readInitargs, hfiles.1]
    exact h.initargs repository
  · rw [Disk.readBreadcrumb, hfiles.2, lastBreadcrumb, hrecorded]
    exact h.breadcrumb

/-- A quiet program is followed by one that starts from a readable repository. -/
theorem Readable.bind {p : Repo β γ} {k : γ → Repo β α} (hp : p.Emits Quiet)
    (hk : ∀ x tr w, Readable b₀ tr w →
      (k x).wp (ReadableOrTruncated b₀) (fun _ => Readable b₀) tr w) (h : Readable b₀ tr w) :
    (p >>= k).wp (ReadableOrTruncated b₀) (fun _ => Readable b₀) tr w := by
  rw [wp_bind]
  refine wp_mono (fun _ _ => .inl) ?_ _
    (wp_of_emits (R := Readable b₀) hp (fun _ _ _ _ hq h => h.step hq) h)
  intro r tr' w' h'
  cases r with
  | val x => exact hk x tr' w' h'
  | exn e => exact h'
  | diverged => exact h'

theorem Readable.quiet {p : Repo β α} (hp : p.Emits Quiet) (h : Readable b₀ tr w) :
    p.wp (ReadableOrTruncated b₀) (fun _ => Readable b₀) tr w := by
  have hbind := h.bind (k := pure) hp fun x tr w h => h
  rwa [bind_pure] at hbind

/-- While the breadcrumb is being written, it cannot be read. -/
theorem Readable.writeBreadcrumb (h : Readable b₀ tr w) (b : Breadcrumb) :
    (writeBreadcrumb b).wp (ReadableOrTruncated b₀) (fun _ => Readable b₀) tr w := by
  have hfinal : Readable b₀ (tr ++ [.truncateBreadcrumb, .writeBreadcrumb b])
      ((w.apply .truncateBreadcrumb).recordBreadcrumb b) := by
    refine ⟨by simp, h.initargs, ?_⟩
    rw [lastBreadcrumb, recorded_append]
    simp only [recorded, List.filterMap_cons, List.filterMap_nil, List.getLast?_append_of_ne_nil,
      ne_eq, List.cons_ne_nil, not_false_eq_true, List.getLast?_singleton, Option.getD_some]
    exact Disk.readBreadcrumb_writeBreadcrumb _ b
  rw [wp_writeBreadcrumb]
  exact ⟨.inr ⟨by simp, rfl⟩, .inl hfinal, hfinal⟩

/-- A method that only looks. -/
theorem Readable.looks {p : Repo β γ} {k : γ → Repo β α} (hp : p.Emits (Kind (· = .look)))
    (hk : ∀ x tr w, Readable b₀ tr w →
      (k x).wp (ReadableOrTruncated b₀) (fun _ => Readable b₀) tr w) (h : Readable b₀ tr w) :
    (p >>= k).wp (ReadableOrTruncated b₀) (fun _ => Readable b₀) tr w :=
  h.bind (hp.mono fun _ _ hk => quiet_of_kind (hk.mono fun _ he => he ▸ trivial)) hk

theorem Readable.prepares {p : Repo β γ} {k : γ → Repo β α}
    (hp : p.Emits (Kind (Event.Prepares Set.univ)))
    (hk : ∀ x tr w, Readable b₀ tr w →
      (k x).wp (ReadableOrTruncated b₀) (fun _ => Readable b₀) tr w) (h : Readable b₀ tr w) :
    (p >>= k).wp (ReadableOrTruncated b₀) (fun _ => Readable b₀) tr w :=
  h.bind (hp.mono fun _ _ => quiet_of_prepares) hk

end

/-! ### The commands

A command is a sequence of parts, each of which is quiet, only looks, or prepares the next node,
interrupted by the places where a breadcrumb is written. `Readable.bind` puts one such part in front
of the rest. -/

section
variable {driver : BackendDriver β S} {sodium : Sodium σ} {env : Env} {params : RepositoryParams}
  {b₀ : Breadcrumb} {tr : List Event} {w : World β}

theorem emits_openRepository (repository : String) :
    (openRepository repository : Repo β Unit).Emits Quiet := by
  have hlook : Quiet .look (id : World β → World β) := ⟨trivial, fun _ => rfl⟩
  refine emits_bind ((emits_read ..).mpr hlook) fun file => ?_
  cases file with
  | none => trivial
  | some bytes =>
      refine emits_bind (by simp) fun args => emits_bind ((emits_read ..).mpr hlook) fun file =>
        emits_bind (by simp) fun b => (emits_modify ..).mpr ⟨trivial, fun _ => rfl⟩

theorem emits_commitTemporary {E : Event → Prop} (encoded : Encoded) (hlook : E .look)
    (htruncate : E .truncateTemporaryId) (hwrite : E (.writeTemporaryId encoded.serialise))
    (hrename : E (.rename encoded.node)) :
    (commitTemporary encoded : Repo β Unit).Emits (Kind E) := by
  refine emits_bind ((emits_perform _).mpr htruncate) fun _ =>
    emits_bind ((emits_perform _).mpr hwrite) fun _ => emits_handle ?_ fun e => ?_
  · refine emits_bind ((emits_look _).mpr hlook) fun w => ?_
    split
    · exact (emits_perform _).mpr hrename
    · exact (emits_perform _).mpr hrename
    · trivial
  · refine emits_bind ((emits_look _).mpr hlook) fun found => ?_
    split <;> trivial

theorem Readable.commit (h : Readable b₀ tr w) (encoded : Encoded) :
    (commit encoded).wp (ReadableOrTruncated b₀) (fun _ => Readable b₀) tr w := by
  refine h.looks ((emits_look _).mpr rfl) fun checkedOut tr w h => ?_
  split
  · refine h.looks (emits_remember (fun _ => rfl) rfl) fun _ tr w h => ?_
    refine h.bind ((emits_commitTemporary (E := KeepsBreadcrumb) encoded trivial trivial trivial
      trivial).mono fun _ _ => quiet_of_kind) fun _ tr w h => ?_
    exact h.looks (by simp) fun next tr w h => h.writeBreadcrumb _
  · exact h.quiet trivial

theorem Readable.storeSnapshot (h : Readable b₀ tr w) (id : S) (maybeParent : Option S) :
    (storeSnapshot driver sodium env params id maybeParent).wp (ReadableOrTruncated b₀)
      (fun _ => Readable b₀) tr w :=
  h.prepares (emits_storePayload driver sodium env params id maybeParent) fun _ _ _ h => h.commit _

theorem emits_prune {f : Node → Repo β Unit} (hf : Deletes f) :
    (prune f).Emits (Kind (Event.Prepares Set.univ)) := by
  refine emits_bind (emits_getLatestTrustedNode (kind_look trivial)) fun node => ?_
  cases node with
  | none => trivial
  | some node => exact emits_forEachNode fun x _ => hf.emits (Set.mem_univ _)

/-- The breadcrumb is only unreadable while it is being written. -/
theorem Readable.snapshotLoop (h : Readable b₀ tr w) (fuel : ℕ) :
    (snapshotLoop driver sodium env params fuel).wp (ReadableOrTruncated b₀) (fun _ => Readable b₀)
      tr w := by
  induction fuel generalizing tr w with
  | zero => exact h
  | succ fuel ih =>
      rw [Controller.snapshotLoop, _snapshot_eq]
      simp only [bind_assoc, pure_bind]
      refine h.looks (emits_getNextSnapshotNode (C := Kind (· = .look)) (kind_look rfl) env)
        fun node tr w h => ?_
      refine h.prepares (emits_prune (deletes_pruneNode driver env)) fun _ tr w h => ?_
      refine h.prepares (emits_nextSnapshot driver node) fun x tr w h => ?_
      rw [wp_bind]
      refine wp_post ?_ (h.storeSnapshot x.2.1 x.1)
      intro r tr' w' h'
      cases r with
      | exn e => exact h'
      | diverged => exact h'
      | val _ =>
          simp only [bindPost]
          split
          · exact h'
          · exact ih h'

theorem emits_maybeUpdateBreadcrumb (plus : Int64 → Int64 → ℤ) (b : Breadcrumb)
    (candidate : Encoded) (min now : Int64) :
    (Trust.maybeUpdateBreadcrumb plus b candidate min now : Repo β _).Emits (Kind (· = .look)) := by
  unfold Trust.maybeUpdateBreadcrumb
  split
  · exact emits_bind (by simp) fun _ => by simp
  · split
    · trivial
    · refine emits_bind (emits_getEncodedSnapshotId (C := Kind (· = .look)) (kind_look rfl) _)
        fun cursnapshot => ?_
      split
      · trivial
      · dsimp only
        split
        · exact emits_bind (by simp) fun _ => by simp
        · trivial

/-- The same for `prune_repository`. -/
theorem Readable.pruneRepositoryLoop (h : Readable b₀ tr w) (plus : Int64 → Int64 → ℤ)
    (now : Int64) (fuel : ℕ) :
    (pruneRepositoryLoop plus env params now fuel).wp (ReadableOrTruncated b₀)
      (fun _ => Readable b₀) tr w := by
  induction fuel generalizing tr w with
  | zero => exact h
  | succ fuel ih =>
      rw [Controller.pruneRepositoryLoop]
      refine h.looks ((emits_look _).mpr rfl) fun b tr w h => ?_
      refine h.looks (emits_tryGetEncodedSnapshotId (C := Kind (· = .look)) (kind_look rfl) _)
        fun candidate tr w h => ?_
      cases candidate with
      | none => exact h
      | some candidate =>
          refine h.looks (emits_maybeUpdateBreadcrumb ..) fun updated tr w h => ?_
          cases updated with
          | none => exact h
          | some updated =>
              refine h.prepares (emits_forEachNode fun x _ =>
                (deletes_deleteNode env).emits (Set.mem_univ _)) fun _ tr w h => ?_
              rw [wp_bind]
              refine wp_post ?_ (h.writeBreadcrumb updated)
              intro r tr' w' h'
              cases r with
              | exn e => exact h'
              | diverged => exact h'
              | val _ => exact ih h'

theorem Readable.snapshotImport (h : Readable b₀ tr w) (createSnapshot : Bool) (bytes : Bytes) :
    (snapshotImport driver sodium env params createSnapshot bytes).wp (ReadableOrTruncated b₀)
      (fun _ => Readable b₀) tr w := by
  refine h.looks (by simp) fun encoded tr w h => ?_
  refine h.looks ((emits_look _).mpr rfl) fun found tr w h => ?_
  split
  · exact h
  · refine h.prepares (emits_importedSnapshot driver createSnapshot encoded) fun id tr w h => ?_
    exact h.prepares (emits_importedParent driver encoded.node) fun maybeParent tr w h =>
      h.storeSnapshot id maybeParent

end

section
variable (driver : BackendDriver β S) (sodium : Sodium σ)

/-- The programs of new processes that prune the repository. -/
def pruneCommands : Set (Repo β Unit) :=
  {p | ∃ repository plus env params now, p = pruneRepositoryCommand repository plus env params now}

/-- The programs of new processes that import a snapshot. -/
def importCommands : Set (Repo β Unit) :=
  {p | ∃ repository env params createSnapshot stdinbytes,
    p = snapshotImportCommand driver repository sodium env params createSnapshot stdinbytes}

/-- The programs of new processes that change the nodes of the repository. -/
def commands : Set (Repo β Unit) :=
  snapshotCommands driver sodium ∪ pruneCommands ∪ importCommands driver sodium

end

/-- A new process finds the directory as it was left, but for the key slots. -/
def SameButKeys (w w' : World β) : Prop := ∃ keys, w'.disk = { w.disk with keys := keys }

theorem SameButKeys.refl (w : World β) : SameButKeys w w := ⟨w.disk.keys, rfl⟩

theorem Readable.start {b₀ : Breadcrumb} {w w' : World β} (h : Readable b₀ [] w)
    (hw : SameButKeys w w') : Readable b₀ [] w' := by
  obtain ⟨keys, hdisk⟩ := hw
  refine ⟨h.last, ?_, ?_⟩
  · rw [hdisk]
    exact h.initargs
  · rw [hdisk]
    exact h.breadcrumb

/-- The constructor succeeds, and the object's breadcrumb is `b`. -/
def OpensWith (repository : String) (w : World β) (b : Breadcrumb) : Prop :=
  let run := (openRepository repository).run w
  run.result = .val () ∧ (stateAfter w run.steps).repositoryStructure.breadcrumb = b

/-- After the attempt, the repository can be opened in the world `w`, with the breadcrumb that was
written last or with the one that was about to be written. -/
def Reopens (repository : String) (a : Attempt Event (World β) Exn Unit) (w : World β) : Prop :=
  ∃ b₀ b, a.start.disk.readBreadcrumb = .ok b₀ ∧ OpensWith repository w b ∧
    (b = lastBreadcrumb b₀ a.labels ∨
      ∃ rest, labels (a.program.run a.start).steps = a.labels ++ rest ∧
        (recorded rest).head? = some b)

section
variable {driver : BackendDriver β S} {sodium : Sodium σ} {b₀ : Breadcrumb}

theorem Readable.command {p : Repo β Unit} (hp : p ∈ commands driver sodium) {tr : List Event}
    {w : World β} (h : Readable b₀ tr w) :
    p.wp (ReadableOrTruncated b₀) (fun _ => Readable b₀) tr w := by
  rcases hp with (⟨repository, env, params, rfl⟩ | ⟨repository, plus, env, params, now, rfl⟩) |
    ⟨repository, env, params, createSnapshot, stdinbytes, rfl⟩
  · exact h.bind (emits_openRepository repository) fun _ _ _ h => h.snapshotLoop _
  · exact h.bind (emits_openRepository repository) fun _ _ _ h => h.pruneRepositoryLoop _ _ _
  · exact h.bind (emits_openRepository repository) fun _ _ _ h => h.snapshotImport _ _

theorem opensWith_of_readable {repository : String} {w : World β}
    (hargs : ∃ args, w.disk.readInitargs repository = .ok args) {b : Breadcrumb}
    (hread : w.disk.readBreadcrumb = .ok b) : OpensWith repository w b :=
  wp_run_nil (wp_openRepository_readable (I := fun _ _ => True)
    (Q := fun r _ w' => r = .val () ∧ w'.repositoryStructure.breadcrumb = b) hargs hread
    (fun _ _ _ _ _ _ => trivial) fun _ _ _ _ _ hb => ⟨rfl, hb⟩)

theorem not_opensWith_of_truncated {repository : String} {w : World β}
    (hread : w.disk.breadcrumb = some []) (b : Breadcrumb) : ¬ OpensWith repository w b := by
  have hfails := wp_run_nil (wp_openRepository (I := fun _ _ => True) (w := w)
    (Q := fun r _ _ => r ≠ .val ()) repository (fun _ _ _ => trivial)
    (fun _ _ _ _ _ h => by cases h) (by
      intro ls args breadcrumb _ _ _ hok
      rw [Disk.readBreadcrumb, hread] at hok
      cases hok))
  exact fun h => hfails h.1

end

/-!
### Histories

The history before the command that is killed is one of completed commands, which leave a repository
that can be read. What becomes of the breadcrumb in the last command decides the rest.
-/

section
variable {driver : BackendDriver β S} {sodium : Sodium σ} {w₀ w : World β}
  {as : List (Attempt Event (World β) Exn Unit)}

/-- What completed commands leave can be opened. -/
theorem readable_of_completed (h₀ : Fresh w₀)
    (hist : History (commands driver sodium) SameButKeys Attempt.Completed w₀ as w) :
    ∃ b₀, Readable b₀ [] w := by
  refine History.invariant (fun _ w => ∃ b₀, Readable b₀ [] w) ?_ ?_ hist
  · obtain ⟨b₀, hread, -⟩ := h₀.tracked.numbered.aligned rfl
    exact ⟨b₀, by simp, h₀.tracked.numbered.initargs, hread⟩
  · rintro as w a ⟨b₀, h⟩ hstart hprogram hcompleted
    obtain ⟨_, hend⟩ := hcompleted.post ((h.start hstart).command hprogram)
    exact ⟨_, by simp, hend.initargs, hend.breadcrumb⟩

/-- A repository reached by completed commands, and a snapshot or prune command killed at any point:
the repository can be opened again, with the breadcrumb before or after the interrupted write,
exactly if the command was not killed between the two steps of writing the breadcrumb. -/
theorem reopens_iff_not_truncated (h₀ : Fresh w₀)
    (hist : History (commands driver sodium) SameButKeys Attempt.Completed w₀ as w)
    (a : Attempt Event (World β) Exn Unit) (hstart : SameButKeys w a.start)
    (hprogram : a.program ∈ snapshotCommands driver sodium ∪ pruneCommands) {w' : World β}
    (hnext : SameDisk a.state w') (repository : String) :
    Reopens repository a w' ↔ a.labels.getLast? ≠ some .truncateBreadcrumb := by
  obtain ⟨b₀, h⟩ := readable_of_completed h₀ hist
  have hstart := h.start hstart
  have hmoment := a.invariant (hstart.command (.inl hprogram)) (.inl hstart)
  rw [List.nil_append] at hmoment
  constructor
  · rintro ⟨-, b, -, hopen, -⟩ hlast
    rcases hmoment with hreadable | ⟨-, htruncated⟩
    · exact hreadable.last hlast
    · exact not_opensWith_of_truncated (by rw [hnext]; exact htruncated) b hopen
  · intro hlast
    rcases hmoment with hreadable | ⟨htruncated, -⟩
    · refine ⟨b₀, _, hstart.breadcrumb, opensWith_of_readable ?_ ?_, .inl rfl⟩
      · rw [hnext]
        exact hreadable.initargs repository
      · rw [hnext]
        exact hreadable.breadcrumb
    · exact absurd htruncated hlast

end

/-- The first command of a new repository, killed when it has opened the breadcrumb file for
writing. -/
theorem first_command_not_reopens :
    let command : Repo Unit Unit :=
      snapshotCommand (.constant [7]) "repository" .transparent sampleEnv ⟨false, 0⟩
    ¬ Reopens "repository" (Attempt.cut command sampleWorld 22)
      (Attempt.cut command sampleWorld 22).state := by
  rintro command ⟨-, b, -, hopen, -⟩
  exact not_opensWith_of_truncated (by decide +kernel) b hopen

/-- The same command, killed one step earlier. -/
theorem reopens_iff_not_truncated_renamed :
    let command : Repo Unit Unit :=
      snapshotCommand (.constant [7]) "repository" .transparent sampleEnv ⟨false, 0⟩
    Reopens "repository" (Attempt.cut command sampleWorld 21)
      (Attempt.cut command sampleWorld 21).state := by
  intro command
  have hcommand : command ∈ snapshotCommands (.constant [7]) Sodium.transparent :=
    ⟨"repository", sampleEnv, ⟨false, 0⟩, rfl⟩
  exact (reopens_iff_not_truncated fresh_sampleWorld .nil (Attempt.cut command sampleWorld 21)
    ⟨_, rfl⟩ (.inl hcommand) rfl "repository").mpr (by decide +kernel)

end Controller

end Diffmonger
