import Diffmonger.Controller.Durability
import Diffmonger.Lib.Interference

/-!
# The first untrusted node

Snapshots and pruning move the breadcrumb forward. An import takes it from outside, and moves it to
wherever the imported node is.

The invariant speaks about the trace, not about the directory: at every step the breadcrumb that has
been written last is not before the one that the process found (`Forward`), and between two writes
all nodes that the process has committed are below it (`Settled`). The two are put into one notion
of a program (`Proceeds`), which is closed under what the commands are made of, so that each command
is followed once, from the places where it writes a breadcrumb:

- `snapshot` commits the first untrusted node, and then names the one after it; - `prune_repository`
names the node after the first untrusted one, and commits nothing; - an import commits the node that
it is given. This moves the breadcrumb forward only where the node is not before the last trusted
one (`ImportsAhead`), which the code does not check.

A killed command may leave a breadcrumb that cannot be read, so over histories the statement is
about readable ones (`TakenBelow`). An import that goes back is noticed by the breadcrumb that it
leaves, which only depends on the node (`wp_snapshotImport_last`); this gives the converse.
-/

namespace Diffmonger

open Prog RepositoryStructure

variable {β S σ : Type}

namespace Controller

/-!
## Where the breadcrumb goes

The breadcrumb that was written last is read off the labels of a run. That it moves forward, and
that the nodes that are committed are below it, is said of the labels as well, so that it is
meaningful in the middle of a command, when the file may be empty.
-/

/-- The steps labelled `tr`, of a process that found the breadcrumb `b₀`, have not moved the first
untrusted node back, and have committed only nodes from `k` on. -/
structure Forward (k : ℕ) (b₀ : Breadcrumb) (tr : List Event) : Prop where
  rises : b₀.untrustedBegin.toNat ≤ (lastBreadcrumb b₀ tr).untrustedBegin.toNat
  above : ∀ n ∈ committed tr, k ≤ n.toNat

/-- Between two writes of the breadcrumb, which is `b`: all committed nodes are below it. -/
structure Settled (k : ℕ) (b₀ b : Breadcrumb) (tr : List Event) (w : World β) : Prop where
  last : lastBreadcrumb b₀ tr = b
  rises : b₀.untrustedBegin.toNat ≤ b.untrustedBegin.toNat
  above : ∀ n ∈ committed tr, k ≤ n.toNat
  below : ∀ n ∈ committed tr, n.toNat < b.untrustedBegin.toNat
  object : w.repositoryStructure.breadcrumb = b

/-- `p` only ever moves the first untrusted node forward, and leaves it above all committed nodes.
-/
def Proceeds {α : Type} (k : ℕ) (b₀ : Breadcrumb) (p : Repo β α) (tr : List Event) (w : World β) :
    Prop :=
  p.wp (fun tr _ => Forward k b₀ tr)
    (fun r tr w => Forward k b₀ tr ∧ ∀ a, r = .val a → ∃ b, Settled k b₀ b tr w) tr w

section
variable {α γ : Type} {k : ℕ} {b₀ b : Breadcrumb} {tr ls : List Event} {w : World β}

theorem lastBreadcrumb_append (h : recorded ls = []) :
    lastBreadcrumb b₀ (tr ++ ls) = lastBreadcrumb b₀ tr := by
  rw [lastBreadcrumb, recorded_append, h, List.append_nil]
  rfl

theorem Settled.forward (h : Settled k b₀ b tr w) : Forward k b₀ tr :=
  ⟨h.last ▸ h.rises, h.above⟩

theorem Settled.prepared (h : Settled k b₀ b tr w) {D : Set ℕ} {w' : World β}
    (hw' : World.PreparedBy D w ls w') : Settled k b₀ b (tr ++ ls) w' := by
  have hcommitted : committed (tr ++ ls) = committed tr := by
    rw [committed_append, committed_of_prepares hw'.prepares, List.append_nil]
  refine ⟨?_, h.rises, ?_, ?_, ?_⟩
  · rw [lastBreadcrumb_append (recorded_of_prepares hw'.prepares)]
    exact h.last
  · rw [hcommitted]
    exact h.above
  · rw [hcommitted]
    exact h.below
  · rw [hw'.world.breadcrumb]
    exact h.object

theorem Settled.pure (h : Settled k b₀ b tr w) (a : α) :
    Proceeds k b₀ (pure a : Repo β α) tr w := ⟨h.forward, fun _ _ => ⟨b, h⟩⟩

/-- A program that leaves the breadcrumb alone, followed by one that relies on what it returns. -/
theorem Settled.bind (h : Settled k b₀ b tr w) {P : γ → Prop} {p : Repo β γ} {f : γ → Repo β α}
    (hp : p.Emits (Kind (Event.Prepares Set.univ)))
    (hr : p.Ends (fun r _ => ∀ a, r = .val a → P a) w)
    (hf : ∀ a tr w, P a → Settled k b₀ b tr w → Proceeds k b₀ (f a) tr w) :
    Proceeds k b₀ (p >>= f) tr w := by
  rw [Proceeds, wp_bind]
  refine wp_of_prepares hp hr (fun ls w' hw' => (h.prepared hw').forward) fun ls w' r hw' hr => ?_
  cases r with
  | val a => exact hf a _ w' (hr a rfl) (h.prepared hw')
  | exn e => exact ⟨(h.prepared hw').forward, nofun⟩
  | diverged => exact ⟨(h.prepared hw').forward, nofun⟩

/-- A step that writes no breadcrumb and commits nothing. -/
theorem Forward.keeps (h : Forward k b₀ tr) (hcommitted : committed ls = [])
    (hrecorded : recorded ls = []) : Forward k b₀ (tr ++ ls) := by
  refine ⟨?_, ?_⟩
  · rw [lastBreadcrumb_append hrecorded]
    exact h.rises
  · rw [committed_append, hcommitted, List.append_nil]
    exact h.above

/-- The first untrusted node moves to one that is above all nodes committed so far. -/
theorem Forward.writeBreadcrumb (h : Forward k b₀ tr)
    (hrises : b₀.untrustedBegin.toNat ≤ b.untrustedBegin.toNat)
    (hbelow : ∀ n ∈ committed tr, n.toNat < b.untrustedBegin.toNat) :
    (writeBreadcrumb b).wp (fun tr _ => Forward k b₀ tr)
      (fun _ tr w => Settled k b₀ b tr w) tr w := by
  have hcommitted : committed (tr ++ [.truncateBreadcrumb, .writeBreadcrumb b]) = committed tr := by
    rw [committed_append]
    exact List.append_nil _
  have hsettled : Settled k b₀ b (tr ++ [.truncateBreadcrumb, .writeBreadcrumb b])
      ((w.apply .truncateBreadcrumb).recordBreadcrumb b) := by
    refine ⟨?_, hrises, by rw [hcommitted]; exact h.above, by rw [hcommitted]; exact hbelow, rfl⟩
    rw [lastBreadcrumb, recorded_append]
    simp [recorded]
  rw [wp_writeBreadcrumb]
  exact ⟨h.keeps rfl rfl, hsettled.forward, hsettled⟩

/-- A node is committed that is not before the last trusted one. -/
theorem Settled.commitRename (h : Settled k b₀ b tr w) {encoded : Encoded}
    (hk : k ≤ encoded.node.toNat)
    (hahead : b.untrustedBegin.toNat ≤ encoded.node.toNat + 1) :
    Proceeds k b₀ (commitRename encoded) tr w := by
  have hcommitted : committed (tr ++ [.rename encoded.node]) = committed tr ++ [encoded.node] := by
    rw [committed_append]
    rfl
  have hforward : Forward k b₀ (tr ++ [.rename encoded.node]) := by
    refine ⟨?_, ?_⟩
    · rw [lastBreadcrumb_append rfl]
      exact h.forward.rises
    · rw [hcommitted]
      simpa [or_imp, forall_and] using ⟨h.above, hk⟩
  rw [Proceeds, RepositoryStructure.commitRename, wp_bind, wp_perform]
  refine ⟨hforward, ?_⟩
  cases hnext : encoded.node.next with
  | error e => exact ⟨hforward, by simp⟩
  | ok next =>
      have hnode := Node.toNat_next hnext
      refine wp_post (fun r tr w hr => ⟨hr.forward, fun _ _ => ⟨_, hr⟩⟩)
        (hforward.writeBreadcrumb (b := ⟨next, encoded.timestamp⟩) ?_ ?_)
      · have hrises := h.rises
        dsimp only
        omega
      · rw [hcommitted]
        intro n hn
        dsimp only
        rcases List.mem_append.mp hn with hn | hn
        · have hbelow := h.below n hn
          omega
        · rw [List.mem_singleton.mp hn]
          omega

end

/-! ## The commands

`k` bounds what is committed from below. For a snapshot it is the first untrusted node, so that
nodes that are taken later have higher numbers; for the other commands nothing is said. -/

section
variable {driver : BackendDriver β S} {sodium : Sodium σ} {env : Env} {params : RepositoryParams}
  {k : ℕ} {b₀ b : Breadcrumb} {tr : List Event} {w : World β}

theorem Settled.storeSnapshot (h : Settled k b₀ b tr w) {id : S} (maybeParent : Option S)
    (hk : k ≤ (driver.encoded id).node.toNat)
    (hahead : b.untrustedBegin.toNat ≤ (driver.encoded id).node.toNat + 1) :
    Proceeds k b₀ (storeSnapshot driver sodium env params id maybeParent) tr w := by
  refine wp_storeSnapshot driver (fun ls w' hw' => (h.prepared hw').forward) ?_ ?_
  · exact fun ls w' r hw' hr => ⟨(h.prepared hw').forward, fun a ha => absurd ha hr⟩
  · exact fun ls w' hw' _ _ _ => (h.prepared hw').commitRename hk hahead

/-- The next node is the first untrusted one. -/
theorem getNextSnapshotNode_ends (env : Env) (w : World β) :
    (getNextSnapshotNode env).Ends
      (fun r _ => ∀ node, r = .val node → node = w.repositoryStructure.breadcrumb.untrustedBegin)
      w := by
  intro tr
  cases hid : w.disk.idFile w.repositoryStructure.breadcrumb.untrustedBegin with
  | none =>
      refine wp_post ?_ (getNextSnapshotNode_absent (Disk.readId_of_none hid) tr)
      rintro r tr' w' ⟨-, rfl | rfl⟩ node hnode
      · exact (Result.val.inj hnode).symm
      · cases hnode
  | some bytes =>
      refine wp_post ?_ (getNextSnapshotNode_stored (by rw [hid]; rfl) tr)
      intro r tr' w' hr node hnode
      exact absurd hnode (hr node)

/-- One iteration of `snapshot`. -/
theorem Settled.iteration (h : Settled k b₀ b tr w) (hk : k ≤ b.untrustedBegin.toNat) :
    Proceeds k b₀ (_snapshot driver sodium env params) tr w := by
  rw [_snapshot_eq]
  refine h.bind (emits_getNextSnapshotNode (kind_look trivial) env) (getNextSnapshotNode_ends env w)
    fun node tr₁ w₁ hnode h₁ => ?_
  refine h₁.bind (emits_prune (deletes_pruneNode driver env)) ((returns_trivial _).ends w₁)
    fun _ tr₂ w₂ _ h₂ => ?_
  refine h₂.bind (emits_nextSnapshot driver node) (nextSnapshot_ends driver node w₂)
    fun ⟨maybeParent, id, alreadyOld⟩ tr₃ w₃ hid h₃ => ?_
  have hnumber : (driver.encoded id).node.toNat = b.untrustedBegin.toNat := by
    rw [show (driver.encoded id).node = node from hid, hnode, h.object]
  have hstore : Proceeds k b₀
      (Controller.storeSnapshot driver sodium env params id maybeParent) tr₃ w₃ :=
    h₃.storeSnapshot maybeParent (hk.trans hnumber.ge) (hnumber.ge.trans (Nat.le_succ _))
  rw [Proceeds, wp_bind]
  refine wp_post ?_ hstore
  rintro r tr₄ w₄ ⟨hforward, hsettled⟩
  cases r with
  | val a =>
      obtain ⟨b', h₄⟩ := hsettled a rfl
      exact ⟨hforward, fun _ _ => ⟨b', h₄⟩⟩
  | exn e => exact ⟨hforward, nofun⟩
  | diverged => exact ⟨hforward, nofun⟩

/-- Taking a snapshot moves the breadcrumb to the next node. -/
theorem Settled.snapshot (h : Settled k b₀ b tr w) (hk : k ≤ b₀.untrustedBegin.toNat) :
    Proceeds k b₀ (snapshot driver sodium env params) tr w := by
  unfold Controller.snapshot
  generalize env.fuel = fuel
  induction fuel generalizing b tr w with
  | zero => exact ⟨h.forward, by simp⟩
  | succ fuel ih =>
      rw [snapshotLoop, Proceeds, wp_bind]
      refine wp_post ?_ (h.iteration (hk.trans h.rises))
      rintro r tr₁ w₁ ⟨hforward, hsettled⟩
      cases r with
      | exn e => exact ⟨hforward, by simp⟩
      | diverged => exact ⟨hforward, by simp⟩
      | val done =>
          obtain ⟨b', h₁⟩ := hsettled done rfl
          cases done with
          | true => exact h₁.pure ()
          | false => exact ih h₁

/-- The updated breadcrumb names the node after the candidate. -/
theorem returns_maybeUpdateBreadcrumb (plus : Int64 → Int64 → ℤ) (breadcrumb : Breadcrumb)
    (candidate : Encoded) (min now : Int64) :
    (Trust.maybeUpdateBreadcrumb plus breadcrumb candidate min now : Repo β _).Returns
      fun updated => ∀ b', updated = some b' →
        b'.untrustedBegin.toNat = breadcrumb.untrustedBegin.toNat + 1 := by
  unfold Trust.maybeUpdateBreadcrumb
  have hnext (node : Node) : (ofExcept node.next : Repo β Node).Returns
      fun next => next.toNat = node.toNat + 1 := by
    rcases hnode : node.next with e | next
    · trivial
    · exact Node.toNat_next hnode
  split
  · refine returns_bind (hnext _) fun next hnode => ?_
    rintro b' ⟨⟩
    exact hnode
  · split
    · trivial
    · next heq =>
        rw [ne_eq, not_not] at heq
        refine returns_bind (returns_trivial _) fun cursnapshot _ => ?_
        split
        · rintro b' ⟨⟩
        · dsimp only
          split
          · refine returns_bind (hnext _) fun next hnode => ?_
            rintro b' ⟨⟩
            exact hnode.trans (by rw [heq])
          · rintro b' ⟨⟩

/-- So does every node that `prune_repository` trusts. -/
theorem Settled.pruneRepository (h : Settled k b₀ b tr w) (plus : Int64 → Int64 → ℤ)
    (now : Int64) : Proceeds k b₀ (pruneRepository plus env params now) tr w := by
  have hlooks {α : Type} {p : Repo β α} (hp : p.Emits (Kind (· = .look))) :
      p.Emits (Kind (Event.Prepares Set.univ)) :=
    hp.mono fun _ _ hk => hk.mono fun _ he => he ▸ trivial
  unfold Controller.pruneRepository
  generalize env.fuel = fuel
  -- by induction on the iterations, each of which starts from a settled state
  induction fuel generalizing b tr w with
  | zero => exact ⟨h.forward, by simp⟩
  | succ fuel ih =>
      rw [pruneRepositoryLoop]
      have hobject : (getBreadcrumb : Repo β _).Ends (fun r _ => ∀ a, r = .val a → a = b) w := by
        intro tr
        simp [getBreadcrumb, h.object]
      refine h.bind ((emits_look _).mpr trivial) hobject fun _ tr₁ w₁ heq h₁ => ?_
      subst heq
      -- the candidate is the first untrusted node, if it is there
      refine h₁.bind (emits_tryGetEncodedSnapshotId (kind_look trivial) _)
        ((returns_trivial _).ends w₁) fun candidate tr₂ w₂ _ h₂ => ?_
      cases candidate with
      | none => exact h₂.pure ()
      | some candidate =>
          refine h₂.bind (hlooks (emits_maybeUpdateBreadcrumb ..))
            ((returns_maybeUpdateBreadcrumb ..).ends w₂) fun updated tr₃ w₃ hupdated h₃ => ?_
          cases updated with
          | none => exact h₃.pure ()
          | some b' =>
              have hnext := hupdated b' rfl
              -- what dies with it is deleted, and then the next breadcrumb is written
              refine h₃.bind (emits_forEachNode fun x _ =>
                (deletes_deleteNode env).emits (Set.mem_univ _)) ((returns_trivial _).ends w₃)
                fun _ tr₄ w₄ _ h₄ => ?_
              rw [Proceeds, wp_bind]
              have hrises := h₄.rises
              refine wp_post ?_ (h₄.forward.writeBreadcrumb (b := b') (by omega) fun n hn => by
                have hbelow := h₄.below n hn
                omega)
              intro r tr₅ w₅ h₅
              cases r with
              | val _ => exact ih h₅
              | exn e => exact ⟨h₅.forward, by simp⟩
              | diverged => exact ⟨h₅.forward, by simp⟩

/-- The imported id is of the node that was asked for. -/
theorem importedSnapshot_ends (createSnapshot : Bool) (encoded : Encoded) (w : World β) :
    (importedSnapshot driver createSnapshot encoded).Ends
      (fun r _ => ∀ id, r = .val id → (driver.encoded id).node = encoded.node) w := by
  intro tr
  cases createSnapshot with
  | false =>
      simp only [importedSnapshot, Bool.false_eq_true, if_false, decodeSnapshotId, callBackend,
        wp_bind, wp_readModify, bindPost, wp_ofExcept, true_and, Result.ofExcept_eq_val]
      intro id hid
      rw [driver.node_encoded]
      exact driver.getNode_snapshotId encoded id hid
  | true =>
      simp only [importedSnapshot, if_true, wp_bind]
      refine wp_post (fun r tr' w' _ => ?_) (ends_trivial tr)
      cases r with
      | exn e => simp
      | diverged => simp
      | val uuid =>
          simp only [bindPost, takeSnapshot, callBackend, wp_bind, wp_readModify, wp_ofExcept,
            true_and]
          cases htake : (driver.snapshot encoded.node uuid w'.backend).1 with
          | error e => simp [Result.ofExcept]
          | ok x =>
              rintro id ⟨⟩
              rw [driver.node_encoded]
              exact driver.getNode_snapshot encoded.node uuid w'.backend x.1 x.2 htake

/-- An import stores the node of the id that it reads. -/
theorem wp_snapshotImport {createSnapshot : Bool} {bytes : Bytes} {I : List Event → World β → Prop}
    {Q : Result Exn Unit → List Event → World β → Prop}
    (hI : ∀ ls w', World.PreparedBy ∅ w ls w' → I (tr ++ ls) w')
    (hend : ∀ ls w' r, World.PreparedBy ∅ w ls w' → (∀ a, r ≠ .val a) → Q r (tr ++ ls) w')
    (hcommit : ∀ ls w' encoded id, World.PreparedBy ∅ w ls w' →
      Encoded.deserialise bytes = .ok encoded → (driver.encoded id).node = encoded.node →
      (commitRename (driver.encoded id)).wp I Q (tr ++ ls) w') :
    (snapshotImport driver sodium env params createSnapshot bytes).wp I Q tr w := by
  have hstart := World.PreparedBy.refl ∅ w
  rw [← List.append_nil tr, snapshotImport]
  refine hstart.wp_bind (P := fun encoded _ => Encoded.deserialise bytes = .ok encoded) (by simp)
    (fun _ => by simp) hI hend fun encoded ls₁ w₁ hw₁ hread => ?_
  refine hw₁.wp_bind (P := fun _ _ => True) ((emits_look _).mpr trivial)
    ((returns_trivial _).ends w₁) hI hend fun found ls₂ w₂ hw₂ _ => ?_
  split
  · exact hend _ w₂ _ hw₂ (by simp)
  · refine hw₂.wp_bind (emits_importedSnapshot driver createSnapshot encoded)
      (importedSnapshot_ends createSnapshot encoded w₂) hI hend fun id ls₃ w₃ hw₃ hid => ?_
    refine hw₃.wp_bind (P := fun _ _ => True) (emits_importedParent driver encoded.node)
      ((returns_trivial _).ends w₃) hI hend fun maybeParent ls₄ w₄ hw₄ _ => ?_
    refine wp_storeSnapshot driver (fun ls w' hw' => ?_) (fun ls w' r hw' hr => ?_)
      fun ls w' hw' _ _ _ => ?_
    · rw [List.append_assoc]
      exact hI _ w' (hw₄.append hw')
    · rw [List.append_assoc]
      exact hend _ w' r (hw₄.append hw') fun a => hr
    · rw [List.append_assoc]
      exact hcommit _ w' encoded id (hw₄.append hw') hread hid

/-- An import moves the breadcrumb to where the imported node is. -/
theorem Settled.snapshotImport (h : Settled 0 b₀ b tr w) {createSnapshot : Bool} {bytes : Bytes}
    (hahead : ∀ encoded, Encoded.deserialise bytes = .ok encoded →
      b.untrustedBegin.toNat ≤ encoded.node.toNat + 1) :
    Proceeds 0 b₀ (snapshotImport driver sodium env params createSnapshot bytes) tr w := by
  refine wp_snapshotImport (fun ls w' hw' => (h.prepared hw').forward)
    (fun ls w' r hw' hr => ⟨(h.prepared hw').forward, fun a ha => absurd ha (hr a)⟩) ?_
  intro ls w' encoded id hw' hread hid
  have hle := hahead encoded hread
  rw [← hid] at hle
  exact (h.prepared hw').commitRename (Nat.zero_le _) hle

/-- What is written at the end does not depend on where the breadcrumb was before. -/
theorem wp_snapshotImport_last {createSnapshot : Bool} {bytes : Bytes} :
    (snapshotImport driver sodium env params createSnapshot bytes).wp (fun _ _ => True)
      (fun r tr _ => r = .val () → ∀ encoded, Encoded.deserialise bytes = .ok encoded →
        (lastBreadcrumb b₀ tr).untrustedBegin.toNat = encoded.node.toNat + 1) tr w := by
  refine wp_snapshotImport (fun _ _ _ => trivial) (fun _ _ r _ hr h => absurd h (hr ())) ?_
  intro ls w' encoded id _ hread hid
  rw [RepositoryStructure.commitRename, wp_bind, wp_perform]
  refine ⟨trivial, ?_⟩
  cases hnext : (driver.encoded id).node.next with
  | error e => simp [Result.ofExcept]
  | ok next =>
      simp only [bindPost, wp_ofExcept, Result.ofExcept, wp_bind, wp_writeBreadcrumb]
      refine ⟨trivial, trivial, fun _ encoded' hread' => ?_⟩
      obtain rfl : encoded = encoded' := Except.ok.inj (hread.symm.trans hread')
      rw [lastBreadcrumb, recorded_append]
      simpa [recorded, hid] using Node.toNat_next hnext

theorem wp_snapshotImportCommand_last {repository : String} {createSnapshot : Bool} {bytes : Bytes} :
    (snapshotImportCommand driver repository sodium env params createSnapshot bytes).wp
      (fun _ _ => True)
      (fun r tr _ => r = .val () → ∀ encoded, Encoded.deserialise bytes = .ok encoded →
        (lastBreadcrumb b₀ tr).untrustedBegin.toNat = encoded.node.toNat + 1) tr w := by
  rw [snapshotImportCommand, wp_bind]
  refine wp_post (fun r tr' w' _ => ?_) (ends_trivial tr)
  cases r with
  | val _ => exact wp_snapshotImport_last
  | exn e => exact nofun
  | diverged => exact nofun

/-- A process that has opened the repository. -/
theorem proceeds_open {repository : String} {p : Repo β Unit}
    (hread : w.disk.readBreadcrumb = .ok b₀)
    (hp : ∀ tr w, Settled k b₀ b₀ tr w → Proceeds k b₀ p tr w) :
    Proceeds k b₀ (do openRepository repository; p) [] w := by
  have hlooks {ls : List Event} (hls : ∀ l ∈ ls, l = .look) : Forward k b₀ ls := by
    have hprepares : ∀ l ∈ ls, l.Prepares ∅ := fun l hl => hls l hl ▸ trivial
    have hstart : Forward k b₀ [] := ⟨le_rfl, nofun⟩
    exact hstart.keeps (committed_of_prepares hprepares) (recorded_of_prepares hprepares)
  rw [Proceeds, wp_bind]
  refine wp_openRepository repository (fun ls hls _ => hlooks hls)
    (fun ls e hls _ _ => ⟨hlooks hls, nofun⟩) ?_
  intro ls args b hls _ _ hb
  obtain rfl : b₀ = b := Except.ok.inj (hread.symm.trans hb)
  have hprepares : ∀ l ∈ ls, l.Prepares ∅ := fun l hl => hls l hl ▸ trivial
  refine ⟨hlooks hls, hp _ _ ⟨?_, le_rfl, (hlooks hls).above, ?_, rfl⟩⟩
  · exact lastBreadcrumb_append (recorded_of_prepares hprepares)
  · rw [List.nil_append, committed_of_prepares hprepares]
    exact nofun

end

/-!
## Histories

Over a history the first untrusted node never moves back, provided that no import is of a node
before the last trusted one: such an import is what `Advances` fails for, and what the iff of one
command singles out. The nodes that have been committed are numbered as they come.
-/

section
variable (driver : BackendDriver β S) (sodium : Sodium σ)

/-- The attempt is not an import of a node that is before the last trusted one. -/
def ImportsAhead (a : Attempt Event (World β) Exn Unit) : Prop :=
  a.program ∈ snapshotCommands driver sodium ∪ pruneCommands ∨
    ∃ repository env params createSnapshot bytes,
      a.program = snapshotImportCommand driver repository sodium env params createSnapshot bytes ∧
      ∀ b encoded, a.start.disk.readBreadcrumb = .ok b → Encoded.deserialise bytes = .ok encoded →
        b.untrustedBegin.toNat ≤ encoded.node.toNat + 1

end

/-- The attempt has not moved the first untrusted node back, and not below a trusted node. -/
def Advances (a : Attempt Event (World β) Exn Unit) : Prop :=
  ∀ b, a.start.disk.readBreadcrumb = .ok b → ∃ b', a.state.disk.readBreadcrumb = .ok b' ∧
    b.untrustedBegin.toNat ≤ b'.untrustedBegin.toNat ∧
    ∀ n ∈ a.start.disk.nodes ∪ a.state.disk.nodes,
      n < b.untrustedBegin.toNat → n < b'.untrustedBegin.toNat

section
variable {driver : BackendDriver β S} {sodium : Sodium σ}

theorem proceeds_snapshotCommand {p : Repo β Unit} (hp : p ∈ snapshotCommands driver sodium)
    {b : Breadcrumb} {w : World β} (hread : w.disk.readBreadcrumb = .ok b) :
    Proceeds b.untrustedBegin.toNat b p [] w := by
  obtain ⟨repository, env, params, rfl⟩ := hp
  exact proceeds_open hread fun _ _ h => h.snapshot le_rfl

theorem ImportsAhead.proceeds {a : Attempt Event (World β) Exn Unit}
    (h : ImportsAhead driver sodium a) {b : Breadcrumb}
    (hread : a.start.disk.readBreadcrumb = .ok b) : Proceeds 0 b a.program [] a.start := by
  rcases h with (⟨repository, env, params, hp⟩ | ⟨repository, plus, env, params, now, hp⟩) |
    ⟨repository, env, params, createSnapshot, bytes, hp, hahead⟩
  · rw [hp]
    exact proceeds_open hread fun _ _ h => h.snapshot (Nat.zero_le _)
  · rw [hp]
    exact proceeds_open hread fun _ _ h => h.pruneRepository plus now
  · rw [hp]
    exact proceeds_open hread fun _ _ h => h.snapshotImport fun encoded => hahead b encoded hread

/-- A command that cannot read the breadcrumb only looks. -/
theorem wp_command_unreadable {p : Repo β Unit} (hp : p ∈ commands driver sodium) {w : World β}
    {e : Exn} (hread : w.disk.readBreadcrumb = .error e) :
    p.wp (fun tr w' => w'.disk = w.disk ∧ ∀ l ∈ tr, l = .look)
      (fun r tr w' => r ≠ .val () ∧ w'.disk = w.disk ∧ ∀ l ∈ tr, l = .look) [] w := by
  have hopens : ∃ repository, ∃ q : Repo β Unit,
      p = openRepository repository >>= fun _ => q := by
    rcases hp with (⟨repository, env, params, rfl⟩ | ⟨repository, plus, env, params, now, rfl⟩) |
      ⟨repository, env, params, createSnapshot, bytes, rfl⟩
    · exact ⟨repository, _, rfl⟩
    · exact ⟨repository, _, rfl⟩
    · exact ⟨repository, _, rfl⟩
  obtain ⟨repository, q, rfl⟩ := hopens
  rw [wp_bind]
  refine wp_openRepository repository (fun ls hls _ => ⟨rfl, hls⟩)
    (fun ls e hls _ _ => ⟨nofun, rfl, hls⟩) ?_
  intro ls args b _ _ _ hok
  rw [hread] at hok
  cases hok

/-- The nodes that completed attempts have committed. -/
def Taken (as : List (Attempt Event (World β) Exn Unit)) : Set Node :=
  {n | ∃ a ∈ as, a.Completed ∧ n ∈ committed a.labels}

/-- All imports are of nodes that are not before the last trusted one. -/
def AllAhead (driver : BackendDriver β S) (sodium : Sodium σ)
    (as : List (Attempt Event (World β) Exn Unit)) : Prop :=
  ∀ a ∈ as, ImportsAhead driver sodium a

/-- No command opens the repository, or all nodes that have been taken are below the breadcrumb,
unless there was an import to prevent it. -/
def TakenBelow (driver : BackendDriver β S) (sodium : Sodium σ)
    (as : List (Attempt Event (World β) Exn Unit)) (w : World β) : Prop :=
  Unreadable w.disk ∨ ∃ b, Readable b [] w ∧
    (AllAhead driver sodium as → ∀ n ∈ Taken as, n.toNat < b.untrustedBegin.toNat)

theorem TakenBelow.start {as : List (Attempt Event (World β) Exn Unit)} {w w' : World β}
    (h : TakenBelow driver sodium as w) (hw : SameButKeys w w') :
    TakenBelow driver sodium as w' := by
  refine h.imp (fun ⟨e, hread⟩ => ⟨e, ?_⟩) fun ⟨b, hb, hbelow⟩ => ⟨b, hb.start hw, hbelow⟩
  obtain ⟨keys, hdisk⟩ := hw
  rw [hdisk]
  exact hread

/-- One more command of the history. -/
theorem TakenBelow.attempt {as : List (Attempt Event (World β) Exn Unit)}
    {a : Attempt Event (World β) Exn Unit} (h : TakenBelow driver sodium as a.start)
    (hprogram : a.program ∈ commands driver sodium) :
    TakenBelow driver sodium (as ++ [a]) a.state := by
  rcases h with ⟨e, hread⟩ | ⟨b, hb, hbelow⟩
  · -- nothing has happened
    have hkept := a.invariant (wp_command_unreadable hprogram hread) ⟨rfl, nofun⟩
    exact .inl ⟨e, by rw [hkept.1]; exact hread⟩
  · have hread : a.start.disk.readBreadcrumb = .ok b := hb.breadcrumb
    rcases a.invariant (hb.command hprogram) (.inl hb) with hreadable | ⟨-, htruncated⟩
    · refine .inr ⟨_, ⟨nofun, hreadable.initargs, hreadable.breadcrumb⟩, ?_⟩
      rintro hahead n ⟨a', ha', hcompleted, hn⟩
      have hproceeds := (hahead a (by simp)).proceeds hread
      have hforward := a.invariant hproceeds ⟨le_rfl, nofun⟩
      rcases List.mem_append.mp ha' with ha' | ha'
      · exact (hbelow (fun a ha => hahead a (List.mem_append_left _ ha)) n
          ⟨a', ha', hcompleted, hn⟩).trans_le hforward.rises
      · obtain rfl := List.mem_singleton.mp ha'
        obtain ⟨x, -, hsettled⟩ := hcompleted.post hproceeds
        obtain ⟨b', hb'⟩ := hsettled x rfl
        have hlt := hb'.below n hn
        rwa [← hb'.last] at hlt
    · exact .inl ⟨_, by rw [Disk.readBreadcrumb, htruncated]; exact Breadcrumb.deserialise_nil⟩

theorem takenBelow_of_history {stop : Attempt Event (World β) Exn Unit → Prop} {w₀ w : World β}
    {as : List (Attempt Event (World β) Exn Unit)} (h₀ : Fresh w₀)
    (hist : History (commands driver sodium) SameButKeys stop w₀ as w) :
    TakenBelow driver sodium as w := by
  refine History.invariant (TakenBelow driver sodium) (.inr ?_)
    (fun as w a h hstart hp _ => (h.start hstart).attempt hp) hist
  obtain ⟨b, hread, -⟩ := h₀.tracked.numbered.aligned rfl
  exact ⟨b, ⟨nofun, h₀.tracked.numbered.initargs, hread⟩, fun _ n ⟨_, hmem, _⟩ => nomatch hmem⟩

/-- In a repository reached by any commands, each of which may have stopped anywhere, a command that
completes advances the breadcrumb exactly if it is not an import of a node before the last trusted
one. As long as there has been no such import, a snapshot is numbered above every node that has been
taken. -/
theorem breadcrumb_advances_iff {w₀ w : World β} {as : List (Attempt Event (World β) Exn Unit)}
    (h₀ : Fresh w₀)
    (hist : History (commands driver sodium) SameButKeys (fun _ => True) w₀ as w)
    (a : Attempt Event (World β) Exn Unit) (hstart : SameButKeys w a.start)
    (hprogram : a.program ∈ commands driver sodium) :
    (a.Completed → (Advances a ↔ ImportsAhead driver sodium a)) ∧
      (AllAhead driver sodium as → a.program ∈ snapshotCommands driver sodium →
        ∀ n ∈ committed a.labels, ∀ m ∈ Taken as, m.toNat < n.toNat) := by
  have hstart := (takenBelow_of_history h₀ hist).start hstart
  -- a breadcrumb that can be read was written last by the commands before
  have hreadable {b : Breadcrumb} (hread : a.start.disk.readBreadcrumb = .ok b) :
      Readable b [] a.start ∧
        (AllAhead driver sodium as → ∀ n ∈ Taken as, n.toNat < b.untrustedBegin.toNat) := by
    rcases hstart with ⟨e, herror⟩ | ⟨b', hb', htaken⟩
    · rw [hread] at herror
      cases herror
    · obtain rfl : b = b' := Except.ok.inj (hread.symm.trans hb'.breadcrumb)
      exact ⟨hb', htaken⟩
  refine ⟨fun hcompleted => ⟨fun hadvances => ?_, fun hahead b hread => ?_⟩,
    fun hall hsnapshot => ?_⟩
  · rcases hprogram with hprogram | ⟨repository, env, params, createSnapshot, bytes, hp⟩
    · exact .inl hprogram
    · -- an import has moved the breadcrumb to its node
      refine .inr ⟨repository, env, params, createSnapshot, bytes, hp, fun b encoded hread hdec => ?_⟩
      obtain ⟨b', hread', hle, -⟩ := hadvances b hread
      obtain ⟨x, hend⟩ := hcompleted.post ((hreadable hread).1.command (.inr
        ⟨repository, env, params, createSnapshot, bytes, hp⟩))
      obtain rfl : b' = lastBreadcrumb b ([] ++ a.labels) :=
        Except.ok.inj (hread'.symm.trans hend.breadcrumb)
      obtain ⟨_, hlast⟩ := hcompleted.post (hp ▸ wp_snapshotImportCommand_last)
      -- so the node is not before where the breadcrumb was
      exact hle.trans (hlast rfl encoded hdec).le
  -- a command that completes leaves the breadcrumb that it has written last
  · obtain ⟨x, hend⟩ := hcompleted.post ((hreadable hread).1.command hprogram)
    have hforward := a.invariant (hahead.proceeds hread) ⟨le_rfl, nofun⟩
    exact ⟨_, hend.breadcrumb, hforward.rises, fun n _ hlt => hlt.trans_le hforward.rises⟩
  · intro n hn m hm
    rcases hread : a.start.disk.readBreadcrumb with e | b
    · -- nothing has been committed
      have hkept := a.invariant (wp_command_unreadable hprogram hread) ⟨rfl, nofun⟩
      have hprepares : ∀ l ∈ a.labels, l.Prepares ∅ := fun l hl => hkept.2 l hl ▸ trivial
      rw [committed_of_prepares hprepares] at hn
      cases hn
    · have hforward := a.invariant (proceeds_snapshotCommand hsnapshot hread) ⟨le_rfl, nofun⟩
      exact ((hreadable hread).2 hall m hm).trans_le (hforward.above n hn)

end

/-! ## Runs on fixed inputs -/

/-- Imports a snapshot of the given node, which the dataset has. -/
def sampleImport (node : Node) (w : World Unit) : Attempt Event (World Unit) Exn Unit :=
  .whole (snapshotImportCommand (.constant [7]) "repository" .transparent sampleEnv ⟨false, 0⟩ false
    (Encoded.plain node).serialise) w

theorem sampleImport_mem (node : Node) (w : World Unit) :
    (sampleImport node w).program ∈ commands (.constant [7]) Sodium.transparent :=
  .inr ⟨_, _, _, _, _, rfl⟩

theorem sampleImport_ahead {node : Node} {w : World Unit} {b : Breadcrumb}
    (hread : w.disk.readBreadcrumb = .ok b) (hle : b.untrustedBegin.toNat ≤ node.toNat + 1) :
    ImportsAhead (.constant [7]) Sodium.transparent (sampleImport node w) := by
  refine .inr ⟨_, _, _, _, _, rfl, fun b' encoded hread' hdec => ?_⟩
  cases Except.ok.inj (hread.symm.trans hread')
  cases Except.ok.inj ((Encoded.deserialise_serialise _).symm.trans hdec)
  exact hle

/-- A repository in which `k` snapshots have been taken. -/
def sampleSnapshots (k : ℕ) : List (Attempt Event (World Unit) Exn Unit) × World Unit :=
  Attempt.repeated (snapshotCommand (.constant [7]) "repository" .transparent sampleEnv ⟨false, 0⟩)
    sampleWorld k

theorem history_sampleSnapshots {stop : Attempt Event (World Unit) Exn Unit → Prop} {k : ℕ}
    (h : ∀ i < k, stop (.whole (snapshotCommand (.constant [7]) "repository" .transparent sampleEnv
      ⟨false, 0⟩) (sampleSnapshots i).2)) :
    History (commands (.constant [7]) Sodium.transparent) SameButKeys stop sampleWorld
      (sampleSnapshots k).1 (sampleSnapshots k).2 :=
  .repeated (Or.inl (Or.inl ⟨"repository", sampleEnv, ⟨false, 0⟩, rfl⟩)) SameButKeys.refl _ h

/-- After five snapshots, the node 8 is imported. -/
theorem breadcrumb_advances_iff_five :
    (sampleImport ⟨8⟩ (sampleSnapshots 5).2).Completed ∧
      Advances (sampleImport ⟨8⟩ (sampleSnapshots 5).2) := by
  have hcompleted : (sampleImport ⟨8⟩ (sampleSnapshots 5).2).Completed :=
    ⟨rfl, (), by decide +kernel⟩
  have hread : (sampleSnapshots 5).2.disk.readBreadcrumb = .ok ⟨⟨5⟩, 0⟩ := by decide +kernel
  have hadvances := (breadcrumb_advances_iff fresh_sampleWorld
    (history_sampleSnapshots fun _ _ => trivial) (sampleImport ⟨8⟩ (sampleSnapshots 5).2)
    (SameButKeys.refl _) (sampleImport_mem _ _)).1 hcompleted
  exact ⟨hcompleted, hadvances.mpr (sampleImport_ahead hread (by decide))⟩

/-- After five snapshots, the node 1 has been pruned, and is imported. -/
theorem pruned_node_not_advances :
    let imported := sampleImport ⟨1⟩ (sampleSnapshots 5).2
    History (commands (.constant [7]) Sodium.transparent) SameButKeys Attempt.Completed sampleWorld
        (sampleSnapshots 5).1 (sampleSnapshots 5).2 ∧
      imported.start.disk.snapshots ⟨1⟩ = none ∧
      (imported.start.disk.snapshots (Node.fenwickParent ⟨1⟩)).isSome ∧ imported.Completed ∧
      imported.start.disk.readBreadcrumb = .ok ⟨⟨5⟩, 0⟩ ∧
      imported.state.disk.readBreadcrumb = .ok ⟨⟨2⟩, 0⟩ ∧ ¬ Advances imported := by
  intro imported
  have hbegin : imported.start.disk.readBreadcrumb = .ok ⟨⟨5⟩, 0⟩ := by decide +kernel
  have hend : imported.state.disk.readBreadcrumb = .ok ⟨⟨2⟩, 0⟩ := by decide +kernel
  refine ⟨history_sampleSnapshots fun i hi => ⟨rfl, (), by revert i; decide +kernel⟩,
    by decide +kernel, by decide +kernel, ⟨rfl, (), by decide +kernel⟩, hbegin, hend, ?_⟩
  intro hadvances
  obtain ⟨b', hb', hle, -⟩ := hadvances _ hbegin
  cases Except.ok.inj (hend.symm.trans hb')
  exact absurd hle (by decide)

end Controller

end Diffmonger
