import Diffmonger.Controller.Schedule
import Diffmonger.Lib.Pacing

/-!
# Mirrors of honest sources

A mirror that has received the nodes of a source whose clock never goes back. The trust decisions
follow each other through the breadcrumb, as events that keep a distance (`Pacing.admitted`).

Main result: `honest_trusted_iff`. Between two iterations, the breadcrumb holds the time at which
the last trusted node was admitted (`Awaits`), and the next decision compares the time of the next
node with the clock (`Awaits.trusted`). The times are admitted in order, so that the nodes that one
run trusts are those whose time has come. The sum in the decision is exact, and a time that has come
fits into 64 bits, since it is not later than the clock.
-/

namespace Diffmonger

open Prog RepositoryStructure

variable {β : Type}

namespace Controller

/-- The nodes up to `h` have been received. The source takes no snapshot beyond the node
`2 ^ 63 - 1`. -/
structure Mirrors (disk : Disk) (h : ℕ) (ts : ℕ → Int64) : Prop where
  bound : h < 2 ^ 63
  stored : ∀ node : Node, node.toNat ≤ h →
    ∃ encoded, disk.readId node = .ok (some encoded) ∧ encoded.timestamp = ts node.toNat
  absent : ∀ node : Node, h < node.toNat → disk.snapshots node = none
  ascending : ∀ i j, i ≤ j → j ≤ h → (ts i).toInt ≤ (ts j).toInt

/-- When node `k` comes to be trusted, if node 0 was trusted at `now0`. -/
def authorisedAt (now0 min : ℤ) (ts : ℕ → ℤ) (k : ℕ) : ℤ :=
  (Finset.Icc 1 k).fold max (now0 + k * min) fun j => ts j + (k - j) * min

theorem authorisedAt_eq (now0 min : ℤ) (ts : ℕ → ℤ) (k : ℕ) :
    authorisedAt now0 min ts k = Pacing.admitted now0 min ts k := by
  rw [Pacing.admitted_eq_fold, authorisedAt, nsmul_eq_mul]
  refine Finset.fold_congr fun j hj => ?_
  rw [nsmul_eq_mul, Nat.cast_sub (Finset.mem_Icc.mp hj).2]

section
variable (now0 min now : Int64) (h : ℕ) (ts : ℕ → Int64)

/-- Between two iterations of the loop: the nodes from the last trusted one on are there, and the
breadcrumb says when that one came to be trusted. -/
structure Awaits (disk : Disk) (b : Breadcrumb) : Prop where
  pos : 1 ≤ b.untrustedBegin.toNat
  begin_le : b.untrustedBegin.toNat ≤ h + 1
  stored : ∀ node : Node, b.untrustedBegin.toNat ≤ node.toNat + 1 → node.toNat ≤ h →
    ∃ encoded, disk.readId node = .ok (some encoded) ∧ encoded.timestamp = ts node.toNat
  absent : ∀ node : Node, h < node.toNat → disk.snapshots node = none
  last : b.lastTrustedNodeAuthorisedAt.toInt =
    Pacing.admitted now0.toInt min.toInt (fun k => (ts k).toInt) (b.untrustedBegin.toNat - 1)
  past : b.lastTrustedNodeAuthorisedAt.toInt ≤ now.toInt

variable {now0 min now h ts} {disk final : Disk} {b b' : Breadcrumb} {repository : String}

/-- The next node comes to be trusted in its turn. -/
theorem Awaits.trusted (ha : Awaits now0 min now h ts disk b)
    (hts : ∀ i j, i ≤ j → j ≤ h → (ts i).toInt ≤ (ts j).toInt) (hh : h < 2 ^ 63)
    (hle : b.untrustedBegin.toNat ≤ h) :
    trusted Trust.exactPlus min now disk b =
      let at' := Pacing.admitted now0.toInt min.toInt (fun k => (ts k).toInt) b.untrustedBegin.toNat
      if at' ≤ now.toInt then some ⟨.ofNat (b.untrustedBegin.toNat + 1), .ofInt at'⟩ else none := by
  have hroot : b.untrustedBegin ≠ Node.initialValue := by
    intro hzero
    have hpos := ha.pos
    rw [hzero] at hpos
    exact absurd hpos (by decide)
  obtain ⟨n, hn⟩ := Nat.exists_eq_add_of_le' ha.pos
  have hpred : (⟨b.untrustedBegin.value - 1⟩ : Node).toNat = n := by
    rw [Node.toNat_pred hroot]
    omega
  obtain ⟨candidate, hcandidate, hcandidateTs⟩ := ha.stored b.untrustedBegin (by omega) hle
  obtain ⟨cursnapshot, hcur, hcurTs⟩ :=
    ha.stored ⟨b.untrustedBegin.value - 1⟩ (by omega) (by omega)
  rw [hpred] at hcurTs
  have hlast := ha.last
  rw [hn, Nat.add_sub_cancel] at hlast
  -- the source's clock has not gone back, and the candidate is not rejected
  have hascending : ¬ candidate.timestamp < cursnapshot.timestamp := by
    rw [hcandidateTs, hcurTs, hn, Int64.lt_iff_toInt_lt, not_lt]
    exact hts n (n + 1) (Nat.le_succ n) (hn ▸ hle)
  have hat : max (Trust.exactPlus b.lastTrustedNodeAuthorisedAt min) candidate.timestamp.toInt =
      Pacing.admitted now0.toInt min.toInt (fun k => (ts k).toInt) b.untrustedBegin.toNat := by
    rw [Trust.exactPlus, hlast, hcandidateTs, hn, Pacing.admitted]
  -- nor has the clock of the mirror
  have hnow : (max b.lastTrustedNodeAuthorisedAt now).toInt = now.toInt := by
    rw [Trust.toInt_max, max_eq_right ha.past]
  rw [Controller.trusted, if_pos (by omega), nextBreadcrumb_next hroot hcandidate hcur,
    Trust.trustedAt, if_neg hascending]
  dsimp only
  rw [hat, hnow]
  split
  · rfl
  · rfl

/-- Only a node that is there is trusted. -/
theorem Awaits.le_of_trusted (ha : Awaits now0 min now h ts disk b)
    (htrusted : Controller.trusted Trust.exactPlus min now disk b = some b') :
    b.untrustedBegin.toNat ≤ h := by
  by_contra hlt
  have hsome := (trusted_some htrusted).1
  rw [ha.absent _ (not_le.mp hlt)] at hsome
  cases hsome

/-- The node is trusted. -/
theorem Awaits.step (ha : Awaits now0 min now h ts disk b) (hh : h < 2 ^ 63)
    (hle : b.untrustedBegin.toNat ≤ h)
    (hat : Pacing.admitted now0.toInt min.toInt (fun k => (ts k).toInt) b.untrustedBegin.toNat ≤
      now.toInt) :
    let b' : Breadcrumb := ⟨.ofNat (b.untrustedBegin.toNat + 1), .ofInt
      (Pacing.admitted now0.toInt min.toInt (fun k => (ts k).toInt) b.untrustedBegin.toNat)⟩
    Awaits now0 min now h ts (disk.pruned b.untrustedBegin b') b' := by
  intro b'
  have hbegin : b'.untrustedBegin.toNat = b.untrustedBegin.toNat + 1 :=
    Node.toNat_ofNat (by omega)
  have hlast : b'.lastTrustedNodeAuthorisedAt.toInt =
      Pacing.admitted now0.toInt min.toInt (fun k => (ts k).toInt) b.untrustedBegin.toNat := by
    -- the time lies between two 64-bit numbers
    have hdue : (ts b.untrustedBegin.toNat).toInt ≤
        Pacing.admitted now0.toInt min.toInt (fun k => (ts k).toInt) b.untrustedBegin.toNat :=
      @Pacing.due_le_admitted ℤ _ _ _ _ (fun k => (ts k).toInt) _ ha.pos
    exact Int64.toInt_ofInt_of_le ((Int64.le_toInt _).trans hdue) (hat.trans_lt now.toInt_lt)
  refine ⟨by omega, by omega, fun node hnode hnodeh => ?_, fun node hnode => ?_, ?_, ?_⟩
  · have hkept : (disk.pruned b.untrustedBegin b').snapshots node = disk.snapshots node :=
      snapshots_pruned_of_le (hle.trans_lt hh) (by omega)
    rw [Disk.readId_congr hkept]
    exact ha.stored node (by omega) hnodeh
  · rw [Disk.pruned]
    dsimp only
    rw [ha.absent node hnode, ite_self]
  · rw [hlast, hbegin, Nat.add_sub_cancel]
  · rw [hlast]
    exact hat

/-- A run of the loop ends at the first node whose time has not come yet. -/
theorem LoopEnds.awaits (hends : LoopEnds Trust.exactPlus min now disk b final b')
    (hts : ∀ i j, i ≤ j → j ≤ h → (ts i).toInt ≤ (ts j).toInt) (hh : h < 2 ^ 63)
    (ha : Awaits now0 min now h ts disk b) :
    Awaits now0 min now h ts final b' ∧ (b'.untrustedBegin.toNat ≤ h →
      now.toInt < Pacing.admitted now0.toInt min.toInt (fun k => (ts k).toInt)
        b'.untrustedBegin.toNat) := by
  induction hends with
  | stop hnone =>
      refine ⟨ha, fun hle => ?_⟩
      rw [ha.trusted hts hh hle] at hnone
      by_contra hat
      rw [if_pos (not_lt.mp hat)] at hnone
      cases hnone
  | fail htrusted hprune =>
      -- what dies with a node of the source can be computed
      exact absurd (Tree.prune_result ((ha.le_of_trusted htrusted).trans_lt hh)) hprune
  | @step disk final b b₁ b'' htrusted hprune rest ih =>
      have hle := ha.le_of_trusted htrusted
      refine ih ?_
      rw [ha.trusted hts hh hle] at htrusted
      dsimp only at htrusted
      split at htrusted
      · next hat =>
          cases htrusted
          exact ha.step hh hle hat
      · cases htrusted

/-- What one run of the command on the mirror trusts, and when it says that this came to be
trusted. -/
structure TrustsInTime (now0 min now : Int64) (h : ℕ) (ts : ℕ → Int64) (b' : Breadcrumb) :
    Prop where
  trusted_iff : ∀ k, 1 ≤ k → k ≤ h → (k < b'.untrustedBegin.toNat ↔
    authorisedAt now0.toInt min.toInt (fun k => (ts k).toInt) k ≤ now.toInt)
  authorised : b'.lastTrustedNodeAuthorisedAt.toInt =
    authorisedAt now0.toInt min.toInt (fun k => (ts k).toInt) (b'.untrustedBegin.toNat - 1)
  on_time : (∀ j, 1 ≤ j → j ≤ h → now0.toInt + j * min.toInt ≤ (ts j).toInt) →
    (∀ j, j < h → (ts j).toInt + min.toInt ≤ (ts (j + 1)).toInt) →
    ∀ k, 1 ≤ k → k ≤ h → (ts k).toInt ≤ now.toInt → k < b'.untrustedBegin.toNat

/-- The times at which nodes are admitted are in order, so that a node is among the trusted ones
exactly if its own time has come. -/
theorem Awaits.trustsInTime (ha : Awaits now0 min now h ts final b') (hmin : 0 ≤ min.toInt)
    (hstop : b'.untrustedBegin.toNat ≤ h →
      now.toInt < Pacing.admitted now0.toInt min.toInt (fun k => (ts k).toInt)
        b'.untrustedBegin.toNat) :
    TrustsInTime now0 min now h ts b' := by
  have hmono : Monotone (Pacing.admitted now0.toInt min.toInt fun k => (ts k).toInt) :=
    Pacing.monotone_admitted hmin
  have hiff (k : ℕ) (hk : k ≤ h) : k < b'.untrustedBegin.toNat ↔
      Pacing.admitted now0.toInt min.toInt (fun k => (ts k).toInt) k ≤ now.toInt := by
    constructor
    · intro hlt
      have hpast := ha.past
      rw [ha.last] at hpast
      exact (hmono (Nat.le_sub_one_of_lt hlt)).trans hpast
    · intro hat
      by_contra hge
      have hle := not_lt.mp hge
      exact absurd ((hmono hle).trans hat) (not_le.mpr (hstop (hle.trans hk)))
  refine ⟨fun k _ hk => ?_, ?_, fun hstart hspaced k h1 hk hts => ?_⟩
  · rw [authorisedAt_eq]
    exact hiff k hk
  · rw [authorisedAt_eq]
    exact ha.last
  · rw [hiff k hk, Pacing.admitted_eq_due h1 ?_ fun j _ hlt => hspaced j (by omega)]
    · exact hts
    · have hfirst := hstart 1 le_rfl (h1.trans hk)
      rwa [Nat.cast_one, one_mul] at hfirst

/-- On a mirror where node 0 has just been trusted, one run of the command trusts exactly those
nodes whose time has come, given that no node may be trusted before the last one and the minimum
time. -/
theorem honest_trusted_iff {w : World β} {params : RepositoryParams}
    (hargs : ∃ args, w.disk.readInitargs repository = .ok args)
    (hread : w.disk.readBreadcrumb = .ok ⟨⟨1⟩, now0⟩) (hmirror : Mirrors w.disk h ts)
    (hmin : 0 ≤ (minTimeBetweenSnapshots params).toInt) (hnow : now0 ≤ now) :
    ∃ fuel, ∀ env : Env, fuel ≤ env.fuel →
      ∃ b', (stateAfter w ((pruneRepositoryCommand repository Trust.exactPlus env params now).run
          w).steps).disk.readBreadcrumb = .ok b' ∧
        TrustsInTime now0 (minTimeBetweenSnapshots params) now h ts b' := by
  obtain ⟨final, b', hends⟩ : ∃ final b', LoopEnds Trust.exactPlus (minTimeBetweenSnapshots params)
      now w.disk ⟨⟨1⟩, now0⟩ final b' := exists_loopEnds _ _
  refine ⟨2 ^ 64, fun env hfuel => ⟨b', ?_, ?_⟩⟩
  · rw [hends.command hargs hread hfuel]
    exact hends.keeps.2.1 hread
  · have hstart : Awaits now0 (minTimeBetweenSnapshots params) now h ts w.disk ⟨⟨1⟩, now0⟩ := by
      refine ⟨le_rfl, Nat.le_add_left _ _, fun node _ hnode => hmirror.stored node hnode,
        hmirror.absent, rfl, Int64.le_iff_toInt_le.mp hnow⟩
    obtain ⟨ha, hstop⟩ := hends.awaits hmirror.ascending hmirror.bound hstart
    exact ha.trustsInTime hmin hstop

end

/-- When a source has stored the nodes 0 to 3. -/
def sampleTimes (k : ℕ) : Int64 := [5, 2000000000, 2500000000].getD k 9000000000

/-- The mirror of the source, once the initial node is trusted. -/
def sampleHonest : World Unit :=
  { sampleWorld with
    disk := { sampleWorld.disk with
      breadcrumb := some (⟨⟨1⟩, 5⟩ : Breadcrumb).serialise
      snapshots := fun node =>
        if node.toNat < 4 then
          some ⟨some { Encoded.plain node with timestamp := sampleTimes node.toNat }.serialise,
            some []⟩
        else none } }

theorem mirrors_sampleHonest : Mirrors sampleHonest.disk 3 sampleTimes := by
  have hascending : ∀ j < 4, ∀ i < j + 1, (sampleTimes i).toInt ≤ (sampleTimes j).toInt := by
    decide
  refine ⟨by decide, fun node hnode => ?_, fun node hnode => ?_, fun i j hij hj =>
    hascending j (Nat.lt_succ_of_le hj) i (Nat.lt_succ_of_le hij)⟩
  · refine ⟨{ Encoded.plain node with timestamp := sampleTimes node.toNat },
      Disk.readId_of_serialise ?_ rfl, rfl⟩
    rw [Disk.idFile, sampleHonest]
    simp only [if_pos (Nat.lt_succ_of_le hnode)]
    rfl
  · exact if_neg (not_lt.mpr hnode)

/-- Node 1 was late, and node 2 had to wait for it; the time of node 3 has not come yet. -/
theorem honest_trusted_iff_three :
    (stateAfter sampleHonest ((pruneRepositoryCommand "repository" Trust.exactPlus sampleEnv
        ⟨false, 1⟩ 4000000000).run sampleHonest).steps).disk.readBreadcrumb =
      .ok ⟨⟨3⟩, 3000000000⟩ ∧
    ∃ fuel, ∀ env : Env, fuel ≤ env.fuel →
      ∃ b', (stateAfter sampleHonest ((pruneRepositoryCommand "repository" Trust.exactPlus env
          ⟨false, 1⟩ 4000000000).run sampleHonest).steps).disk.readBreadcrumb = .ok b' ∧
        TrustsInTime 5 (minTimeBetweenSnapshots ⟨false, 1⟩) 4000000000 3 sampleTimes b' :=
  ⟨by decide +kernel,
    honest_trusted_iff (fresh_sampleWorld.tracked.numbered.initargs "repository")
      (Breadcrumb.deserialise_serialise _) mirrors_sampleHonest (by decide) (by decide)⟩

end Controller

end Diffmonger
