import Diffmonger.Controller.Prune
import Diffmonger.Lib.Interference

/-!
# Quarantine

`prune_repository` on a mirror, into which an adversary puts nodes of its own while the program
runs. Whatever these say, every breadcrumb that is written is `Paced`: it trusts a node more than
the breadcrumb before it no sooner than the minimum time later, and at no time that the clock has
not shown.

Main result: `quarantine_limits_trust`. The invariant is on the breadcrumb alone, in the file and in
the object, which the adversary does not write to. So nothing has to be known of the nodes: of the
decision on a candidate it is enough to know what values it may return (`Pending.follows`). The rate
limit is then a sum over the nodes that have been trusted.
-/

namespace Diffmonger

open Prog RepositoryStructure

variable {β : Type}

/-- Whether the breadcrumb file says that the initial node is trusted. -/
def Disk.trustsInitial (disk : Disk) : Bool :=
  match disk.readBreadcrumb with
  | .ok b => b.untrustedBegin ≠ Node.initialValue
  | .error _ => false

namespace Controller

/-- A step of the adversary: directories of nodes appear. -/
def Creates (w w' : World β) : Prop :=
  ∃ snapshots, (∀ node dir, w.disk.snapshots node = some dir → snapshots node = some dir) ∧
    w' = { w with disk := { w.disk with snapshots := snapshots } }

/-- The states that calls of `prune_repository` reach among steps of the adversary, from a
repository without a breadcrumb: with the clock's reading in the call that trusted the initial
node, if one has, and with all the readings so far. A call may stop at any of its steps. -/
inductive Quarantine (params : RepositoryParams) : Option Int64 → List Int64 → World β → Prop
  | start {w : World β} (h : w.disk.breadcrumb = none) : Quarantine params none [] w
  | adversary {T : Option Int64} {nows : List Int64} {w w' : World β}
      (before : Quarantine params T nows w) (step : Creates w w') : Quarantine params T nows w'
  | call {T : Option Int64} {nows : List Int64} {w w' w'' : World β} {q : Repo β Unit}
      (repository : String) (env : Env) (now : Int64) (before : Quarantine params T nows w)
      (process : SameDisk w w')
      (run : Interleaving Creates
        (pruneRepositoryCommand repository Trust.exactPlus env params now) w' q w'') :
      Quarantine params (T.or (if w''.disk.trustsInitial then some now else none)) (now :: nows) w''

/-!
## The invariant

Each node after the initial one is authorised at least `min` later than the one before it, and no
time is authorised that the clock has not shown. So the number of nodes that are trusted is bounded
by the time that has passed. The sums are exact.
-/

/-- The breadcrumb trusts nodes at the permitted rate, counted from the time `T₀` at which the
initial one was trusted; the last of them at no later time than one that the clock has shown. -/
structure Paced (min : Int64) (T₀ : Int64) (nows : List Int64) (b : Breadcrumb) : Prop where
  trusts : b.untrustedBegin ≠ Node.initialValue
  rate : T₀.toInt + ((b.untrustedBegin.toNat : ℤ) - 1) * min.toInt ≤
    b.lastTrustedNodeAuthorisedAt.toInt
  past : ∃ now ∈ nows, b.lastTrustedNodeAuthorisedAt.toInt ≤ now.toInt

section
variable {min now T₀ : Int64} {T : Option Int64} {nows : List Int64} {b b' : Breadcrumb}

theorem Paced.mono (h : Paced min T₀ nows b) : Paced min T₀ (now :: nows) b :=
  ⟨h.trusts, h.rate, h.past.imp fun _ => And.imp_left (List.mem_cons_of_mem now)⟩

/-- Of a breadcrumb in the course of a call: nothing is trusted yet, or nodes are at the permitted
rate; the first call that trusts a node sets the time from which the rate is counted. -/
def Pending (min now : Int64) (T : Option Int64) (nows : List Int64) (b : Breadcrumb) : Prop :=
  T = none ∧ b.untrustedBegin = Node.initialValue ∨ Paced min (T.getD now) (now :: nows) b

/-- The step of the invariant: however the candidate was made, the updated breadcrumb is paced. -/
theorem Pending.follows (h : Pending min now T nows b) (hb : Trust.Follows min now b b') :
    Paced min (T.getD now) (now :: nows) b' := by
  rcases hb with ⟨hroot, rfl⟩ | ⟨hroot, hnext, hsum, hpast⟩
  · rcases h with ⟨rfl, -⟩ | h
    · refine ⟨Node.ne_initialValue_of_toNat (Node.toNat_ofNat (by decide)), ?_, now, by simp, le_rfl⟩
      show now.toInt + ((1 : ℤ) - 1) * min.toInt ≤ now.toInt
      simp
    · exact absurd hroot h.trusts
  · rcases h with ⟨-, h⟩ | h
    · exact absurd h hroot
    · refine ⟨Node.ne_initialValue_of_toNat hnext, ?_, ?_⟩
      · calc (T.getD now).toInt + ((b'.untrustedBegin.toNat : ℤ) - 1) * min.toInt
            = (T.getD now).toInt + ((b.untrustedBegin.toNat : ℤ) - 1) * min.toInt + min.toInt := by
              rw [hnext]
              push_cast
              ring
          _ ≤ b.lastTrustedNodeAuthorisedAt.toInt + min.toInt := by
              have hrate := h.rate
              omega
          _ ≤ b'.lastTrustedNodeAuthorisedAt.toInt := hsum
      · -- the new time is the old one, or now
        obtain ⟨m, hm, hle⟩ := h.past
        rcases hpast with hpast | hpast
        · exact ⟨m, hm, hpast.trans hle⟩
        · exact ⟨now, by simp, hpast⟩

/-- The breadcrumb file between calls. -/
def FileBetween (min : Int64) (T : Option Int64) (nows : List Int64) (file : Option Bytes) : Prop :=
  (T = none ∧ file = none) ∨ file = some [] ∨
    ∃ T₀ b, T = some T₀ ∧ file = some b.serialise ∧ Paced min T₀ nows b

/-- The breadcrumb file in the course of a call. -/
def FileDuring (min now : Int64) (T : Option Int64) (nows : List Int64) (file : Option Bytes) :
    Prop :=
  (T = none ∧ file = none) ∨ file = some [] ∨
    ∃ b, file = some b.serialise ∧ Paced min (T.getD now) (now :: nows) b

theorem FileBetween.during {file : Option Bytes} (h : FileBetween min T nows file) :
    FileDuring min now T nows file := by
  rcases h with h | h | ⟨T₀, b, rfl, hfile, hb⟩
  · exact .inl h
  · exact .inr (.inl h)
  · exact .inr (.inr ⟨b, hfile, hb.mono⟩)

/-- When a call is over, its reading of the clock is one of those before, and the time at which the
initial node was trusted may have been set. -/
theorem FileDuring.between {disk : Disk} (h : FileDuring min now T nows disk.breadcrumb) :
    FileBetween min (T.or (if disk.trustsInitial then some now else none)) (now :: nows)
      disk.breadcrumb := by
  rcases h with ⟨rfl, hfile⟩ | hfile | ⟨b, hfile, hb⟩
  · have hnot : disk.trustsInitial = false := by
      rw [Disk.trustsInitial, Disk.readBreadcrumb, hfile]
      rfl
    rw [hnot]
    exact .inl ⟨rfl, hfile⟩
  · exact .inr (.inl hfile)
  · have htrusts : disk.trustsInitial = true := by
      rw [Disk.trustsInitial, Disk.readBreadcrumb, hfile, parseBreadcrumb,
        Breadcrumb.deserialise_serialise]
      simpa using hb.trusts
    rw [htrusts]
    refine .inr (.inr ⟨T.getD now, b, ?_, hfile, hb⟩)
    cases T <;> rfl

/-- What a call reads at its start. -/
theorem FileDuring.pending {disk : Disk} (h : FileDuring min now T nows disk.breadcrumb)
    (hread : disk.readBreadcrumb = .ok b) : Pending min now T nows b := by
  rw [Disk.readBreadcrumb] at hread
  rcases h with ⟨hT, hfile⟩ | hfile | ⟨b', hfile, hb⟩
  · rw [hfile] at hread
    cases hread
    exact .inl ⟨hT, rfl⟩
  · rw [hfile, parseBreadcrumb, Breadcrumb.deserialise_nil] at hread
    cases hread
  · rw [hfile, parseBreadcrumb, Breadcrumb.deserialise_serialise] at hread
    cases hread
    exact .inr hb

end

/-!
## A call among steps of the adversary

The adversary adds directories of nodes, and leaves the breadcrumb alone. So what is said of the
breadcrumb is stable under its steps, and the program can be taken apart as if it were alone, as
long as nothing is concluded from what it has read of the nodes.
-/

section
variable {params : RepositoryParams} {now : Int64} {T : Option Int64} {nows : List Int64}

/-- The invariant of a call, of the directory. -/
def CallInv (params : RepositoryParams) (now : Int64) (T : Option Int64) (nows : List Int64)
    (w : World β) : Prop :=
  FileDuring (minTimeBetweenSnapshots params) now T nows w.disk.breadcrumb

/-- The invariant of a call that has opened the repository. -/
def OpenInv (params : RepositoryParams) (now : Int64) (T : Option Int64) (nows : List Int64)
    (w : World β) : Prop :=
  CallInv params now T nows w ∧
    Pending (minTimeBetweenSnapshots params) now T nows w.repositoryStructure.breadcrumb

theorem CallInv.creates (w w' : World β) (hw : Creates w w') (h : CallInv params now T nows w) :
    CallInv params now T nows w' := by
  obtain ⟨snapshots, -, rfl⟩ := hw
  exact h

theorem OpenInv.creates (w w' : World β) (hw : Creates w w') (h : OpenInv params now T nows w) :
    OpenInv params now T nows w' := by
  obtain ⟨snapshots, -, rfl⟩ := hw
  exact h

/-- A step that touches neither the breadcrumb file nor the object's breadcrumb. -/
theorem OpenInv.step (event : Event) (update : World β → World β) (w : World β)
    (hk : Kind KeepsBreadcrumb event update) (h : OpenInv params now T nows w) :
    OpenInv params now T nows (update w) := by
  obtain ⟨hkeeps, hu⟩ := hk
  obtain ⟨hdisk, hobject⟩ := hu w
  refine ⟨?_, hobject ▸ h.2⟩
  have hfile : (update w).disk.breadcrumb = w.disk.breadcrumb := by
    rw [hdisk]
    cases event with
    | truncateBreadcrumb | writeBreadcrumb _ => exact hkeeps.elim
    | _ => rfl
  rw [CallInv, hfile]
  exact h.1

/-- A program that leaves the breadcrumb alone, followed by one that relies on what it returns. -/
theorem OpenInv.bind {α γ : Type} {P : γ → Prop} {p : Repo β γ} {k : γ → Repo β α} {w : World β}
    (h : OpenInv params now T nows w) (hp : p.Emits (Kind KeepsBreadcrumb)) (hr : p.Returns P)
    (hk : ∀ a w', P a → OpenInv params now T nows w' →
      (k a).wpUnder Creates (CallInv params now T nows) w') :
    (p >>= k).wpUnder Creates (CallInv params now T nows) w :=
  wpUnder_bind hp hr OpenInv.step OpenInv.creates (fun _ => And.left) h hk

theorem wpUnder_writeBreadcrumb {α : Type} {k : Unit → Repo β α} {w : World β} {b : Breadcrumb}
    (hb : Paced (minTimeBetweenSnapshots params) (T.getD now) (now :: nows) b)
    (hk : ∀ w', OpenInv params now T nows w' →
      (k ()).wpUnder Creates (CallInv params now T nows) w') :
    (writeBreadcrumb b >>= k).wpUnder Creates (CallInv params now T nows) w := by
  -- whatever the adversary does in between, the file is empty, and then holds `b`
  intro w₁ _
  refine ⟨.inr (.inl rfl), fun w₂ _ => ?_⟩
  have hfile : FileDuring (minTimeBetweenSnapshots params) now T nows (some b.serialise) :=
    .inr (.inr ⟨b, rfl, hb⟩)
  exact ⟨hfile, hk _ ⟨hfile, .inr hb⟩⟩

theorem emits_deleteNodes (env : Env) (calls : Tree.Calls) :
    (forEachNode calls (deleteNode env) : Repo β Unit).Emits (Kind KeepsBreadcrumb) := by
  refine (emits_forEachNode fun x _ => emits_deleteNode env (Set.mem_univ _)).mono ?_
  rintro event update ⟨hprepares, hu⟩
  refine ⟨?_, hu⟩
  cases event with
  | rename _ | truncateBreadcrumb | writeBreadcrumb _ => exact hprepares.elim
  | _ => trivial

/-- The induction is on the fuel; the adversary may act before every step. -/
theorem wpUnder_pruneRepositoryLoop (env : Env) (fuel : ℕ) {w : World β}
    (h : OpenInv params now T nows w) :
    (pruneRepositoryLoop Trust.exactPlus env params now fuel).wpUnder Creates
      (CallInv params now T nows) w := by
  induction fuel generalizing w with
  | zero => trivial
  | succ fuel ih =>
      have hlooks {α : Type} {p : Repo β α} (hp : p.Emits (Kind (· = .look))) :
          p.Emits (Kind KeepsBreadcrumb) := hp.mono fun _ _ hk => hk.mono fun _ he => he ▸ trivial
      rw [pruneRepositoryLoop]
      refine wpUnder_read_bind OpenInv.creates (fun _ => And.left) h fun w₁ h₁ => ?_
      refine h₁.bind (hlooks (emits_tryGetEncodedSnapshotId (C := Kind (· = .look)) (kind_look rfl) _))
        (returns_trivial _) fun candidate w₂ _ h₂ => ?_
      cases candidate with
      | none => trivial
      | some candidate =>
          refine h₂.bind (hlooks (emits_maybeUpdateBreadcrumb ..))
            Trust.returns_maybeUpdateBreadcrumb fun updated w₃ hupdated h₃ => ?_
          cases updated with
          | none => trivial
          | some updated =>
              refine h₃.bind (emits_deleteNodes env _) (returns_trivial _) fun _ w₄ _ h₄ => ?_
              exact wpUnder_writeBreadcrumb (h₁.2.follows (hupdated updated rfl)) fun w₅ h₅ => ih h₅

/-- The constructor reads the breadcrumb before it is written. -/
theorem wpUnder_pruneRepositoryCommand (repository : String) (env : Env) {w : World β}
    (h : CallInv params now T nows w) :
    (pruneRepositoryCommand repository Trust.exactPlus env params now).wpUnder Creates
      (CallInv params now T nows) w := by
  rw [pruneRepositoryCommand, openRepository, bind_assoc]
  refine wpUnder_read_bind CallInv.creates (fun _ => id) h fun w₁ h₁ => ?_
  cases w₁.disk.initargs with
  | none => trivial
  | some initargsFile =>
      simp only [bind_assoc]
      rcases parseInitargs initargsFile with e | args
      · trivial
      · refine wpUnder_read_bind CallInv.creates (fun _ => id) h₁ fun w₂ h₂ => ?_
        rcases hread : parseBreadcrumb w₂.disk.breadcrumb with e | b
        · trivial
        · intro w₃ h₃
          have hcall : CallInv params now T nows w₃ := invariant_of_steps CallInv.creates h₂ h₃
          exact ⟨hcall, wpUnder_pruneRepositoryLoop env env.fuel ⟨hcall, h₂.pending hread⟩⟩

end

/-!
## The rate limit

The breadcrumb trusts nodes one at a time, and each of them the minimum time after the one before.
The time at which the last one was trusted bounds their number.
-/

/-- The minimum time, if it fits into 64 bits. -/
theorem toInt_minTimeBetweenSnapshots {params : RepositoryParams}
    (h : params.minSecondsBetweenSnapshots.toNat * 10 ^ 9 < 2 ^ 63) :
    (minTimeBetweenSnapshots params).toInt = params.minSecondsBetweenSnapshots.toNat * 10 ^ 9 := by
  have hnat : minTimeBetweenSnapshots params =
      Int64.ofNat (params.minSecondsBetweenSnapshots.toNat * 10 ^ 9) := by
    rw [Int64.ofNat_mul, ← UInt64.toInt64_ofNat', UInt64.ofNat_toNat]
    rfl
  rw [hnat, Int64.toInt_ofNat_of_lt h]
  push_cast
  rfl

/-- In every state reached. -/
theorem Quarantine.file {params : RepositoryParams} {T : Option Int64} {nows : List Int64}
    {w : World β} (h : Quarantine params T nows w) :
    FileBetween (minTimeBetweenSnapshots params) T nows w.disk.breadcrumb := by
  induction h with
  | start h => exact .inl ⟨rfl, h⟩
  | adversary _ step ih =>
      obtain ⟨snapshots, -, rfl⟩ := step
      exact ih
  | call repository env now _ process run ih =>
      have hstart : CallInv params now _ _ _ := FileBetween.during (by rw [process]; exact ih)
      exact (wpUnder_sound (wpUnder_pruneRepositoryCommand repository env hstart) hstart
        CallInv.creates run).1.between

/-- However many snapshots an adversary forges, and whatever their timestamps say, nodes come to be
trusted at the permitted rate. -/
theorem quarantine_limits_trust {params : RepositoryParams}
    (hmin : params.minSecondsBetweenSnapshots.toNat * 10 ^ 9 < 2 ^ 63) {T : Option Int64}
    {nows : List Int64} {w : World β} (h : Quarantine params T nows w) {b : Breadcrumb}
    (hread : w.disk.readBreadcrumb = .ok b) (hu : 1 ≤ b.untrustedBegin.toNat) {M : ℤ}
    (hM : ∀ now ∈ nows, now.toInt ≤ M) :
    ∃ T₀, T = some T₀ ∧
      let min : ℤ := params.minSecondsBetweenSnapshots.toNat * 10 ^ 9
      T₀.toInt + ((b.untrustedBegin.toNat : ℤ) - 1) * min ≤ b.lastTrustedNodeAuthorisedAt.toInt ∧
        b.lastTrustedNodeAuthorisedAt.toInt ≤ M ∧
        (0 < min → (b.untrustedBegin.toNat : ℤ) ≤ 1 + (M - T₀.toInt) / min) := by
  rw [Disk.readBreadcrumb] at hread
  rcases h.file with ⟨-, hfile⟩ | hfile | ⟨T₀, b', rfl, hfile, hb⟩
  · rw [hfile] at hread
    cases hread
    exact absurd hu (by decide)
  · rw [hfile, parseBreadcrumb, Breadcrumb.deserialise_nil] at hread
    cases hread
  · rw [hfile, parseBreadcrumb, Breadcrumb.deserialise_serialise] at hread
    cases hread
    obtain ⟨now, hnow, hle⟩ := hb.past
    have hrate := hb.rate
    rw [toInt_minTimeBetweenSnapshots hmin] at hrate
    have hlast := hle.trans (hM now hnow)
    refine ⟨T₀, rfl, hrate, hlast, fun hpos => ?_⟩
    have hdiv := (Int.le_ediv_iff_mul_le hpos).mpr (by omega :
      ((b.untrustedBegin.toNat : ℤ) - 1) * _ ≤ M - T₀.toInt)
    omega

/-- A mirror that has the nodes 0 and 1 and is pruned twice. -/
theorem quarantine_limits_trust_two :
    let prune (now : Int64) (w : World Unit) : World Unit :=
      stateAfter w ((pruneRepositoryCommand "repository" Trust.exactPlus sampleEnv ⟨false, 1⟩
        now).run w).steps
    (prune 2000000000 (prune 5 sampleMirror)).disk.readBreadcrumb = .ok ⟨⟨2⟩, 1000000005⟩ ∧
      (2 : ℤ) ≤ 1 + (2000000000 - 5) / (1 * 10 ^ 9) := by
  intro prune
  have hread : (prune 2000000000 (prune 5 sampleMirror)).disk.readBreadcrumb =
      .ok ⟨⟨2⟩, 1000000005⟩ := by decide +kernel
  have hfirst : Quarantine ⟨false, 1⟩ (some 5) [5] (prune 5 sampleMirror) := by
    have h : Quarantine ⟨false, 1⟩ _ [5] (prune 5 sampleMirror) :=
      .call "repository" sampleEnv 5 (.start rfl) rfl (Interleaving.run .start)
    rwa [if_pos (by decide +kernel)] at h
  have hsecond : Quarantine ⟨false, 1⟩ (some 5) [2000000000, 5]
      (prune 2000000000 (prune 5 sampleMirror)) :=
    .call "repository" sampleEnv 2000000000 hfirst rfl (Interleaving.run .start)
  obtain ⟨T₀, hT, -, -, hcount⟩ := quarantine_limits_trust (by decide) hsecond hread (by decide)
    (M := 2000000000)
    (List.forall_mem_cons.mpr ⟨by decide, List.forall_mem_singleton.mpr (by decide)⟩)
  cases hT
  exact ⟨hread, hcount (by decide)⟩

end Controller

end Diffmonger
