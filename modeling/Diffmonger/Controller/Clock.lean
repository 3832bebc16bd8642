import Diffmonger.Controller.Dataset
import Diffmonger.Controller.Durability
import Diffmonger.Lib.Trace
import Diffmonger.Trust.Spec

/-!
# Timestamps and the clock

The timestamp of a node is what the clock shows when the backend has taken its snapshot. A mirror
takes a node that is older than its predecessor for an attack, and the repository does nothing to
keep its own nodes from looking like that: whether they do is up to the clock.

Main result: `honest_timestamps_iff`. A `ledger` is kept of every step of a run: the reading of the
clock when a snapshot was taken, and the ids that were renamed into place after it. That each id
carries the reading before it (`Stamped`) is an invariant of all steps, whatever the repository
looks like and wherever a command is killed; it concerns only the two kinds of steps that the ledger
records. The nodes are committed in order, so that comparing timestamps is comparing readings.
-/

namespace Diffmonger

open Prog RepositoryStructure Zfs ZfsDriver

variable {β σ : Type}

namespace Controller

/-!
## What the clock showed

The ledger is computed from the run: it is not part of the program's state, and nothing in the
program looks at it. A step that takes a snapshot notes what the clock shows, and a rename files the
id under the last note.
-/

/-- The clock's last reading when the backend took a snapshot, and the ids that have been committed,
each as it can be read right after the rename and with the last reading before it. -/
structure Ledger where
  reading : Int64
  commits : List (Encoded × Int64)

/-- Before the first snapshot the reading does not matter. -/
def Ledger.empty : Ledger := ⟨0, []⟩

section
variable (now : β → Int64)

def Ledger.step (ledger : Ledger) : Event × World β → Ledger
  | (.backend (.snapshot _), w) => { ledger with reading := now w.backend }
  | (.rename node, w) =>
    match w.disk.readId node with
    | .ok (some encoded) => { ledger with commits := ledger.commits ++ [(encoded, ledger.reading)] }
    | _ => ledger
  | _ => ledger

def ledger (steps : List (Event × World β)) : Ledger := steps.foldl (Ledger.step now) .empty

/-- The ids that have been committed. -/
def committedIds (steps : List (Event × World β)) : List Encoded :=
  (ledger now steps).commits.map Prod.fst

/-- The readings of the clock when the snapshots were taken whose ids have been committed. -/
def commitReadings (steps : List (Event × World β)) : List Int64 :=
  (ledger now steps).commits.map Prod.snd

/-- The ids are those of the nodes that have been committed, with the clock's readings as their
timestamps. -/
structure Stamped (steps : List (Event × World β)) : Prop where
  nodes : (committedIds now steps).map Encoded.node = committed (labels steps)
  stamps : (committedIds now steps).map Encoded.timestamp = commitReadings now steps

end

section
variable {now : β → Int64} {steps : List (Event × World β)} {event : Event} {w : World β}

@[simp] theorem ledger_append_singleton (x : Event × World β) :
    ledger now (steps ++ [x]) = (ledger now steps).step now x := by
  simp [ledger]

theorem stamped_nil : Stamped now ([] : List (Event × World β)) := ⟨rfl, rfl⟩

/-- A step that renames nothing. -/
theorem Stamped.keeps (h : Stamped now steps) (hevent : ∀ node, event ≠ .rename node) :
    Stamped now (steps ++ [(event, w)]) := by
  have hcommits : (ledger now (steps ++ [(event, w)])).commits = (ledger now steps).commits := by
    rw [ledger_append_singleton]
    cases event with
    | rename node => exact absurd rfl (hevent node)
    | backend call => cases call <;> rfl
    | _ => rfl
  have hcommitted : committed (labels (steps ++ [(event, w)])) = committed (labels steps) := by
    cases event with
    | rename node => exact absurd rfl (hevent node)
    | _ => simp [committed]
  constructor
  · rw [committedIds, hcommits, hcommitted]
    exact h.nodes
  · rw [committedIds, commitReadings, hcommits]
    exact h.stamps

/-- A node appears whose timestamp is the clock's last reading. -/
theorem Stamped.rename (h : Stamped now steps) {encoded : Encoded} {node : Node}
    (hread : w.disk.readId node = .ok (some encoded))
    (hstamp : encoded.timestamp = (ledger now steps).reading) :
    Stamped now (steps ++ [(.rename node, w)]) := by
  have hcommits : (ledger now (steps ++ [(.rename node, w)])).commits =
      (ledger now steps).commits ++ [(encoded, (ledger now steps).reading)] := by
    rw [ledger_append_singleton, Ledger.step, hread]
  have hids : committedIds now (steps ++ [(.rename node, w)]) =
      committedIds now steps ++ [encoded] := by
    rw [committedIds, hcommits, List.map_append]
    rfl
  constructor
  · have hlabels : labels (steps ++ [(.rename node, w)]) = labels steps ++ [.rename node] :=
      List.map_append
    rw [hids, List.map_append, h.nodes, hlabels, committed_append, List.map_singleton,
      Disk.node_of_readId hread]
    rfl
  · rw [hids, commitReadings, hcommits, List.map_append, List.map_append, h.stamps,
      List.map_singleton, hstamp]
    rfl

end

/-!
## Commands

Between the snapshot of a node and its rename no other snapshot is taken, so that the note made at
the snapshot is still there at the rename.
-/

/-- A step that does not take a snapshot. -/
def TakesNone : Event → Prop
  | .backend (.snapshot _) => False
  | _ => True

/-- Storing a snapshot takes none. -/
theorem emits_storeSnapshot {S : Type} (driver : BackendDriver β S) (sodium : Sodium σ) (env : Env)
    (params : RepositoryParams) (id : S) (maybeParent : Option S) :
    (storeSnapshot driver sodium env params id maybeParent).Emits fun event _ => TakesNone event := by
  have hkind {α : Type} {p : Repo β α} (hp : p.Emits (Kind TakesNone)) :
      p.Emits fun event _ => TakesNone event := hp.mono fun _ _ => And.left
  -- Storing calls the backend only for the payload.
  have hwrite (chunks : List Bytes) :
      (writeBlob chunks : Repo β Unit).Emits fun event _ => TakesNone event :=
    emits_forM (fun _ => (emits_modify ..).mpr trivial) _
  refine emits_bind (emits_bind ?_ fun _ => emits_bind (hkind ?_) fun stream => ?_) fun _ => ?_
  · refine emits_bind ((emits_read ..).mpr trivial) fun checkedOut => ?_
    split
    · trivial
    · refine emits_bind ((emits_read ..).mpr trivial) fun temporary => emits_bind (hkind ?_) fun _ =>
        emits_bind ((emits_modify ..).mpr trivial) fun _ => (emits_modify ..).mpr trivial
      cases temporary with
      | none => exact (emits_perform _).mpr trivial
      | some dir => exact emits_bind (emits_performIf trivial _) fun _ => emits_performIf trivial _
  · unfold storeSnapshotOrDiff
    split
    · exact (emits_callBackend ..).mpr trivial
    · split
      · trivial
      · exact (emits_callBackend ..).mpr trivial
  · split
    · refine emits_bind (hkind (emits_handle (emits_bind (emits_readKeyPairs (kind_look trivial))
        fun _ => by simp) fun _ => by simp)) fun encrypted => emits_bind (hwrite _) fun _ =>
          emits_bind (by simp) fun _ => ?_
      split <;> simp
    · exact emits_bind (hwrite _) fun _ => by simp
  · refine emits_bind ((emits_read ..).mpr trivial) fun checkedOut => ?_
    split
    · refine emits_bind ((emits_modify ..).mpr trivial) fun _ =>
        emits_bind (hkind (emits_commitTemporary _ trivial trivial trivial trivial)) fun _ =>
          emits_bind (by simp) fun next => emits_bind ((emits_modify ..).mpr trivial) fun _ =>
            (emits_modify ..).mpr trivial
    · trivial

section
variable {system : System β} {impl : ZfsBackendDriverImpl} {sodium : Sodium σ} {env : Env}
  {params : RepositoryParams} {steps : List (Event × World β)} {w : World β}

/-- Taking a snapshot reads the clock. -/
theorem wpTrace_takeSnapshot {node : Node} {uuid : Uuid} (h : Stamped system.now steps) :
    (takeSnapshot (impl.driver system) node uuid).wpTrace (Stamped system.now)
      (fun x steps _ => Stamped system.now steps ∧
        x.1.timestamp = (ledger system.now steps).reading) steps w := by
  rw [takeSnapshot, callBackend, wpTrace_bind, wpTrace_readModify]
  have hnot (n : Node) : Event.backend (.snapshot node) ≠ .rename n := by simp
  have hkeeps := h.keeps hnot (w :=
    { w with backend := ((impl.driver system).snapshot node uuid w.backend).2 })
  refine ⟨hkeeps, wpTrace_ofExcept fun x hx => ⟨hkeeps, ?_⟩⟩
  rw [ledger_append_singleton]
  exact ZfsBackendDriverImpl.timestamp_of_snapshot hx

/-- Every step of `store_snapshot`: what it renames into place is the given id. -/
theorem passes_storeSnapshot {S : Type} {driver : BackendDriver β S} {id : S}
    {maybeParent : Option S} :
    (storeSnapshot driver sodium env params id maybeParent).Passes (fun event w => TakesNone event ∧
      ∀ node, event = .rename node →
        w.disk.readId node = .ok (some (driver.encoded id))) w := by
  refine (passes_of_emits (fun _ _ _ h => h)
    (emits_storeSnapshot driver sodium env params id maybeParent)).and ?_
  -- what has been renamed last is the given id
  have hprepared (ls : List Event) (w' : World β) (hw' : World.PreparedBy ∅ w ls w') (node : Node)
      (hnode : ls.getLast? = some (.rename node)) :
      w'.disk.readId node = .ok (some (driver.encoded id)) :=
    (hw'.prepares _ (List.mem_of_getLast? hnode)).elim
  refine passes_of_wp [] (I := fun tr w => ∀ node, tr.getLast? = some (.rename node) →
    w.disk.readId node = .ok (some (driver.encoded id)))
    (fun tr event w h node hevent => h node (by rw [List.getLast?_concat, hevent]))
    (wp_storeSnapshot driver (Q := fun _ _ _ => True) hprepared
      (fun _ _ _ _ _ => trivial) fun ls w' hw' _ htemp _ => ?_)
  refine ⟨fun node hnode => ?_, ?_⟩
  · rw [List.nil_append, List.getLast?_concat] at hnode
    cases hnode
    exact Disk.readId_rename rfl htemp
  · cases (driver.encoded id).node.next with
    | error e => trivial
    | ok next => exact ⟨by simp, by simp, trivial⟩

/-- One iteration of `snapshot`, whatever the repository looks like. -/
theorem Stamped.iteration (h : Stamped system.now steps) :
    (_snapshot (impl.driver system) sodium env params).wpTrace (Stamped system.now)
      (fun _ steps _ => Stamped system.now steps) steps w := by
  -- What comes before the snapshot renames nothing.
  have hkeeps {α : Type} {p : Repo β α} (hp : p.Emits (Kind (Event.Prepares Set.univ)))
      {steps : List (Event × World β)} {w : World β} (h : Stamped system.now steps) :
      p.wpTrace (Stamped system.now) (fun _ steps _ => Stamped system.now steps) steps w := by
    refine wpTrace_of_passes (P := fun event _ => ∀ node, event ≠ .rename node) ?_ ?_ h
    · exact fun steps event w hevent h => h.keeps hevent
    · refine passes_of_emits ?_ hp
      rintro event update w ⟨hprepares, -⟩ node rfl
      exact hprepares
  rw [_snapshot, wpTrace_bind]
  refine wpTrace_mono (fun _ => id) (fun node steps w h => ?_)
    (hkeeps (emits_getNextSnapshotNode (kind_look trivial) env) h)
  rw [wpTrace_bind]
  refine wpTrace_mono (fun _ => id) (fun _ steps w h => ?_)
    (hkeeps (emits_prune (deletes_pruneNode _ env)) h)
  rw [wpTrace_bind]
  refine wpTrace_mono (fun _ => id) (fun maybeParent steps w h => ?_)
    (hkeeps (emits_parentSnapshot _ node) h)
  rw [wpTrace_bind]
  refine wpTrace_mono (fun _ => id) (fun uuid steps w h => ?_)
    (hkeeps (emits_getRepositoryUuid (kind_look trivial)) h)
  rw [wpTrace_bind]
  refine wpTrace_mono (fun _ => id) ?_ (wpTrace_takeSnapshot h)
  rintro ⟨id, alreadyOld⟩ steps w ⟨h, hstamp⟩
  simp only [wpTrace_bind, wpTrace_pure]
  -- until the rename, the clock is not read again
  refine wpTrace_mono (fun _ => And.left) (fun _ _ _ => And.left)
    (wpTrace_of_passes (R := fun steps => Stamped system.now steps ∧
      id.timestamp = (ledger system.now steps).reading) ?_ passes_storeSnapshot ⟨h, hstamp⟩)
  rintro steps event w ⟨htakes, hrename⟩ ⟨h, hstamp⟩
  rw [ledger_append_singleton]
  cases event with
  | rename node =>
      have hread := hrename node rfl
      refine ⟨h.rename hread hstamp, ?_⟩
      rw [Ledger.step, hread]
      exact hstamp
  | backend call =>
      refine ⟨h.keeps (by simp), ?_⟩
      cases call with
      | snapshot node => exact htakes.elim
      | _ => exact hstamp
  | _ => exact ⟨h.keeps (by simp), hstamp⟩

/-- The programs of snapshot commands. -/
theorem Stamped.command {p : Repo β Unit} (hp : p ∈ snapshotCommands (impl.driver system) sodium)
    (h : Stamped system.now steps) :
    p.wpTrace (Stamped system.now) (fun _ _ _ => True) steps w := by
  obtain ⟨repository, env, params, rfl⟩ := hp
  have hlooks : (openRepository repository : Repo β Unit).Passes (fun event _ => event = .look) w :=
    passes_of_wp [] (I := fun tr _ => ∀ event ∈ tr, event = .look)
      (fun tr event _ h => h event (by simp))
      (wp_openRepository (Q := fun _ _ _ => True) repository (fun ls hls _ => hls)
        (fun _ _ _ _ _ => trivial) fun ls _ _ hls _ _ _ => ⟨hls, trivial⟩)
  rw [snapshotCommand, wpTrace_bind]
  refine wpTrace_mono (fun _ => id) (fun _ steps w h => ?_)
    (wpTrace_of_passes (R := Stamped system.now) ?_ hlooks h)
  · rw [snapshot]
    generalize env.fuel = fuel
    induction fuel generalizing steps w with
    | zero => trivial
    | succ fuel ih =>
        rw [snapshotLoop, wpTrace_bind]
        refine wpTrace_mono (fun _ => id) (fun done steps w h => ?_) h.iteration
        cases done with
        | true => trivial
        | false => exact ih steps w h
  · rintro steps event w rfl h
    exact h.keeps (by simp)

end

/-!
## Histories

The nodes are numbered in the order in which they are committed, so that the order of the timestamps
is an order of the list. A mirror compares neighbours only; it is enough to let it have two nodes.
-/

/-- No node is older than one before it. -/
def NeverOlder (ids : List Encoded) : Prop :=
  ∀ e ∈ ids, ∀ e' ∈ ids, e.node.toNat ≤ e'.node.toNat → e.timestamp ≤ e'.timestamp

/-- A mirror that holds nothing but these nodes takes none of them for an attack. -/
def NeverRejected (ids : List Encoded) : Prop :=
  ∀ (mirror : Disk) (breadcrumb : Breadcrumb),
    (∀ node encoded, mirror.readId node = .ok (some encoded) → encoded ∈ ids) →
      ∀ candidate ∈ ids, ¬ Trust.Rejects mirror breadcrumb candidate

theorem NeverOlder.neverRejected {ids : List Encoded} (h : NeverOlder ids) : NeverRejected ids := by
  rintro mirror breadcrumb hmirror candidate hcandidate ⟨hroot, hnode, cursnapshot, hread, hlt⟩
  have hle : cursnapshot.node.toNat ≤ candidate.node.toNat := by
    rw [Disk.node_of_readId hread, hnode, Node.toNat_pred hroot]
    exact Nat.sub_le _ _
  have hstamp := h cursnapshot (hmirror _ _ hread) candidate hcandidate hle
  rw [Int64.le_iff_toInt_le] at hstamp
  rw [Int64.lt_iff_toInt_lt] at hlt
  omega

/-- A list that is numbered in order. -/
theorem pairwise_iff_of_map_eq_range {γ : Type} {f : γ → ℕ} {r : γ → γ → Prop}
    (hrefl : ∀ a, r a a) {l : List γ} {n : ℕ} (h : l.map f = List.range n) :
    l.Pairwise r ↔ ∀ a ∈ l, ∀ b ∈ l, f a ≤ f b → r a b := by
  have hnumber (i : ℕ) (hi : i < l.length) : f l[i] = i := by
    have hget := List.getElem_map f (l := l) (h := by rwa [List.length_map])
    rw [← hget]
    simp [h]
  rw [List.pairwise_iff_getElem]
  refine ⟨fun hp a ha b hb hab => ?_, fun hp i j hi hj hij => ?_⟩
  · obtain ⟨i, hi, rfl⟩ := List.getElem_of_mem ha
    obtain ⟨j, hj, rfl⟩ := List.getElem_of_mem hb
    rw [hnumber i hi, hnumber j hj] at hab
    rcases hab.lt_or_eq with hlt | rfl
    · exact hp i j hi hj hlt
    · exact hrefl _
  · refine hp _ (List.getElem_mem hi) _ (List.getElem_mem hj) ?_
    rw [hnumber i hi, hnumber j hj]
    exact hij.le

section
variable {system : System β} {impl : ZfsBackendDriverImpl} {sodium : Sodium σ} {w₀ w : World β}
  {as : List (Attempt Event (World β) Exn Unit)}

/-- In a history of snapshot commands, each of which may be killed after any of its steps, and
between which the dataset and the clock may change in any way, the nodes' timestamps are in order,
and no mirror ever takes a node for an attack, exactly if the clock did not go back from the
snapshot of one node to that of the next. -/
theorem honest_timestamps_iff (h₀ : Fresh w₀)
    (hist : History (snapshotCommands (impl.driver system) sodium) SameDisk (fun _ => True) w₀ as
      w) :
    let ids := committedIds system.now (Attempt.allSteps as)
    ids.map Encoded.node = committed (Attempt.allLabels as) ∧
      (NeverOlder ids ∧ NeverRejected ids ↔
        (commitReadings system.now (Attempt.allSteps as)).Pairwise (· ≤ ·)) := by
  intro ids
  have hstamped : Stamped system.now (Attempt.allSteps as) :=
    Attempt.trace_invariant stamped_nil (fun p hp _ _ h => h.command hp) hist
  have hnodes : ids.map Encoded.node = committed (Attempt.allLabels as) := by
    rw [← Attempt.map_fst_allSteps]
    exact hstamped.nodes
  obtain ⟨c, hcommits, -⟩ := durable_of_history h₀ hist
  have hnumbers : ids.map (fun e => e.node.toNat) = List.range c := by
    rw [Commits, List.range_zero, List.nil_append, ← hnodes, List.map_map] at hcommits
    exact hcommits
  have horder : NeverOlder ids ↔
      (commitReadings system.now (Attempt.allSteps as)).Pairwise (· ≤ ·) := by
    rw [← hstamped.stamps, List.pairwise_map]
    exact (pairwise_iff_of_map_eq_range (r := fun e e' => e.timestamp ≤ e'.timestamp)
      (fun e => Int64.le_iff_toInt_le.mpr le_rfl) hnumbers).symm
  exact ⟨hnodes, (and_iff_left_of_imp NeverOlder.neverRejected).trans horder⟩

end

/-- The clock goes forward. -/
theorem honest_timestamps_iff_two :
    let run := Attempt.repeated sampleSnapshotCommand (sampleRepository [0, 3, 5])
    let ids := committedIds sampleSystem.now (Attempt.allSteps (run 2).1)
    ids.map Encoded.timestamp = [3, 5] ∧ NeverOlder ids ∧ NeverRejected ids := by
  intro run ids
  have hist : History (snapshotCommands (sampleDriver.driver sampleSystem) Sodium.transparent)
      SameDisk (fun _ => True) (sampleRepository [0, 3, 5]) (run 2).1 (run 2).2 :=
    .repeated sampleSnapshotCommand_mem SameDisk.refl _ fun _ _ => trivial
  exact ⟨by decide +kernel, (honest_timestamps_iff (fresh_sampleRepository [0, 3, 5]) hist).2.mpr
    (by decide +kernel)⟩

/-- The clock goes back between two commands: on a mirror that has both nodes, the second one is
never trusted. -/
theorem backward_clock_rejected :
    let run := Attempt.repeated sampleSnapshotCommand (sampleRepository [0, 5, 3])
    let ids := committedIds sampleSystem.now (Attempt.allSteps (run 2).1)
    History (snapshotCommands (sampleDriver.driver sampleSystem) Sodium.transparent) SameDisk
        Attempt.Completed (sampleRepository [0, 5, 3]) (run 2).1 (run 2).2 ∧
      ids.map Encoded.timestamp = [5, 3] ∧ ¬ NeverOlder ids ∧
      ∃ candidate ∈ ids, (run 2).2.disk.readId ⟨1⟩ = .ok (some candidate) ∧
        ∀ plus last min now, ((Trust.maybeUpdateBreadcrumb plus ⟨⟨1⟩, last⟩ candidate min now).run
          (run 2).2).result = .val none := by
  intro run ids
  have hist : History (snapshotCommands (sampleDriver.driver sampleSystem) Sodium.transparent)
      SameDisk Attempt.Completed (sampleRepository [0, 5, 3]) (run 2).1 (run 2).2 :=
    .repeated sampleSnapshotCommand_mem SameDisk.refl _ fun i hi =>
      ⟨rfl, (), by revert i; decide +kernel⟩
  have hstamps : ids.map Encoded.timestamp = [5, 3] := by decide +kernel
  have hnodes : ids.map Encoded.node = [⟨0⟩, ⟨1⟩] := by decide +kernel
  have hreads : ids.map (fun e => (run 2).2.disk.readId e.node) = ids.map fun e => .ok (some e) := by
    decide +kernel
  refine ⟨hist, hstamps, ?_⟩
  generalize (run 2).2 = w at hreads ⊢
  clear_value ids
  obtain ⟨first, second, rfl⟩ : ∃ first second, ids = [first, second] :=
    List.length_eq_two.mp (by rw [← List.length_map (f := Encoded.node), hnodes]; rfl)
  simp only [List.map_cons, List.map_nil, List.cons.injEq, and_true] at hstamps hnodes hreads
  rw [hnodes.1, hnodes.2] at hreads
  refine ⟨fun h => ?_, second, by simp, hreads.2, fun plus last min now => ?_⟩
  · have hle := h first (by simp) second (by simp) (by rw [hnodes.1, hnodes.2]; decide)
    rw [hstamps.1, hstamps.2] at hle
    exact absurd hle (by decide)
  · have hpred : (⟨(⟨1⟩ : Node).value - 1⟩ : Node) = ⟨0⟩ := by decide
    have hrejects : Trust.Rejects w.disk ⟨⟨1⟩, last⟩ second :=
      ⟨show (⟨1⟩ : Node) ≠ ⟨0⟩ by decide, hnodes.2, first, (congrArg w.disk.readId hpred).trans hreads.1,
        by rw [hstamps.1, hstamps.2]; decide⟩
    exact (Prog.ends_iff_run.mp hrejects.ends).1

end Controller

end Diffmonger
