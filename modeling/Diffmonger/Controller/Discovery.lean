import Diffmonger.Controller.Schedule

/-!
# Discovering the newest snapshot

A mirror without a breadcrumb walks through consecutive nodes, from the initial one on. A source
that prunes has no node 1 once it has a node 4, so that the walk ends there.

Main result: `mirror_discovers_iff`. Both directions are about the relation `LoopEnds`, which has
only one outcome. Up to node 3 no node is missing, each is trusted in its turn, and none dies on the
way (`CompleteMirror.loopEnds`); from node 4 on, the run stops at the breadcrumb that it writes
first.
-/

namespace Diffmonger

open Prog RepositoryStructure

variable {β : Type}

namespace Controller

/-- A mirror without a breadcrumb that holds what a source keeps after `node` has been stored, at a
time later than all of the timestamps. -/
structure CompleteMirror (node : Node) (now : Int64) (disk : Disk) : Prop where
  noBreadcrumb : disk.breadcrumb = none
  nodes : disk.nodes = node.aliveAfter.numbers
  ids : ∀ k, (disk.snapshots k).isSome →
    ∃ encoded, disk.readId k = .ok (some encoded) ∧ encoded.timestamp < now
  ordered : ∀ j k ej ek, disk.readId j = .ok (some ej) → disk.readId k = .ok (some ek) →
    j.toNat ≤ k.toNat → ej.timestamp ≤ ek.timestamp

/-- The newest node has been discovered, and nothing has been deleted. -/
def Discovers (node : Node) (disk final : Disk) : Prop :=
  (∃ b, final.readBreadcrumb = .ok b ∧ b.untrustedBegin.toNat = node.toNat + 1) ∧
    final.snapshots = disk.snapshots

section
variable {node : Node} {now : Int64} {disk : Disk}

theorem CompleteMirror.mem_nodes_iff (h : CompleteMirror node now disk) (hn : node.toNat < 2 ^ 63)
    {k : Node} : (disk.snapshots k).isSome ↔ k.toNat ∈ fenwick.alive node.toNat := by
  rw [← Disk.toNat_mem_nodes, h.nodes]
  exact Set.ext_iff.mp (Tree.aliveAfter_numbers hn) k.toNat

/-- The initial node is trusted at the time `now`. -/
theorem CompleteMirror.trusted_initial (h : CompleteMirror node now disk)
    (hn : node.toNat < 2 ^ 63) (plus : Int64 → Int64 → ℤ) (min : Int64) :
    trusted plus min now disk .initial = some ⟨.ofNat 1, now⟩ := by
  obtain ⟨encoded, hread, -⟩ := h.ids Node.initialValue
    ((h.mem_nodes_iff hn).mpr (Fenwick.zero_mem_alive _))
  rw [trusted, if_pos (by decide), nextBreadcrumb_initial rfl hread]

/-- So is any other one that follows a node that is there. -/
theorem CompleteMirror.trusted_next (h : CompleteMirror node now disk) {k : ℕ} (hk : k < 2 ^ 64 - 2)
    (hcur : (disk.snapshots (.ofNat k)).isSome) (hnext : (disk.snapshots (.ofNat (k + 1))).isSome) :
    trusted Trust.exactPlus 0 now disk ⟨.ofNat (k + 1), now⟩ = some ⟨.ofNat (k + 2), now⟩ := by
  obtain ⟨cursnapshot, hcur, -⟩ := h.ids _ hcur
  obtain ⟨candidate, hnext, hpast⟩ := h.ids _ hnext
  have hnum : (Node.ofNat (k + 1)).toNat = k + 1 := Node.toNat_ofNat (by omega)
  have hroot := Node.ne_initialValue_of_toNat hnum
  have hpred : (⟨(Node.ofNat (k + 1)).value - 1⟩ : Node) = .ofNat k := by
    rw [← Node.toNat_inj, Node.toNat_pred hroot, hnum, Node.toNat_ofNat (by omega)]
    rfl
  have hordered : cursnapshot.timestamp ≤ candidate.timestamp := by
    refine h.ordered _ _ _ _ hcur hnext ?_
    rw [hnum, Node.toNat_ofNat (by omega)]
    omega
  have htrusted : Trust.trustedAt Trust.exactPlus now cursnapshot candidate 0 now = some now := by
    rw [Int64.lt_iff_toInt_lt] at hpast
    rw [Int64.le_iff_toInt_le] at hordered
    have hnot : ¬ candidate.timestamp < cursnapshot.timestamp := by
      rw [Int64.lt_iff_toInt_lt]
      omega
    have hmax : max (Trust.exactPlus now 0) candidate.timestamp.toInt = now.toInt := by
      rw [Trust.exactPlus, Int64.toInt_zero]
      omega
    rw [Trust.trustedAt, if_neg hnot]
    dsimp only
    rw [hmax, Trust.toInt_max, max_self, if_pos le_rfl, Int64.ofInt_toInt]
  rw [trusted, if_pos (by dsimp only; omega), nextBreadcrumb_next hroot hnext (by rw [hpred]; exact hcur)]
  dsimp only
  rw [htrusted, hnum]
  rfl

theorem trusted_congr {plus : Int64 → Int64 → ℤ} {min : Int64} {b : Breadcrumb} {disk' : Disk}
    (h : disk'.snapshots = disk.snapshots) :
    trusted plus min now disk' b = trusted plus min now disk b := by
  have hread (k : Node) : disk'.readId k = disk.readId k := Disk.readId_congr (congrFun h k)
  simp only [trusted, nextBreadcrumb, hread]

/-- Nothing dies with the first nodes. -/
theorem snapshots_pruned_of_le_three {u : Node} (hu : u.toNat ≤ 3) (b : Breadcrumb) :
    (disk.pruned u b).snapshots = disk.snapshots := by
  have hnil : u.prune.nodes = [] := by
    refine List.eq_nil_iff_forall_not_mem.mpr fun x hx => ?_
    exact Fenwick.notMem_dying_of_le hu ((Tree.mem_prune_nodes (hu.trans_lt (by decide))).mp hx)
  simp [Disk.pruned, hnil]

theorem prune_result_of_le_three {u : Node} (hu : u.toNat ≤ 3) : u.prune.result = .val () :=
  Tree.prune_result (hu.trans_lt (by decide))

/-- As long as no node is missing, the walk goes on to the newest one. -/
theorem CompleteMirror.loopEnds (h : CompleteMirror node now disk) (hn : node.toNat ≤ 3) {k : ℕ}
    (hk : k ≤ node.toNat) {disk' : Disk} (hdisk : disk'.snapshots = disk.snapshots) :
    ∃ final, LoopEnds Trust.exactPlus 0 now disk' ⟨.ofNat (k + 1), now⟩ final
        ⟨.ofNat (node.toNat + 1), now⟩ ∧ final.snapshots = disk.snapshots := by
  have hthere (j : ℕ) (hj : j < 2 ^ 64) : (disk.snapshots (.ofNat j)).isSome ↔ j ≤ node.toNat := by
    rw [h.mem_nodes_iff (by omega), Node.toNat_ofNat hj, Fenwick.alive_eq_Iio_iff.mpr hn]
    exact Nat.lt_succ_iff
  obtain ⟨m, hm⟩ : ∃ m, node.toNat - k = m := ⟨_, rfl⟩
  induction m generalizing k disk' with
  | zero =>
      obtain rfl : k = node.toNat := by omega
      refine ⟨disk', .stop ?_, hdisk⟩
      cases htrusted : trusted Trust.exactPlus 0 now disk' ⟨.ofNat (node.toNat + 1), now⟩ with
      | none => rfl
      | some b =>
          have hsome := (trusted_some htrusted).1
          rw [hdisk] at hsome
          have hle := (hthere _ (by omega)).mp hsome
          omega
  | succ m ih =>
      have hnum : (Node.ofNat (k + 1)).toNat = k + 1 := Node.toNat_ofNat (by omega)
      have htrusted := h.trusted_next (k := k) (by omega) ((hthere _ (by omega)).mpr hk)
        ((hthere _ (by omega)).mpr (by omega))
      rw [← trusted_congr hdisk] at htrusted
      obtain ⟨final, hends, hfinal⟩ := ih (k := k + 1) (by omega)
        ((snapshots_pruned_of_le_three (u := .ofNat (k + 1)) (by omega)
          ⟨.ofNat (k + 2), now⟩).trans hdisk) (by omega)
      exact ⟨final, .step htrusted (prune_result_of_le_three (by dsimp only; omega)) hends, hfinal⟩

/-- The first step of the walk. -/
theorem CompleteMirror.loopEnds_initial (h : CompleteMirror node now disk)
    (hn : node.toNat < 2 ^ 63) {plus : Int64 → Int64 → ℤ} {min : Int64} {final : Disk}
    {b : Breadcrumb}
    (hends : LoopEnds plus min now (disk.pruned Node.initialValue ⟨.ofNat 1, now⟩) ⟨.ofNat 1, now⟩
      final b) : LoopEnds plus min now disk .initial final b :=
  .step (h.trusted_initial hn plus min) (prune_result_of_le_three (by decide)) hends

/-- With a minimum time of zero, the newest node is discovered exactly if it is one of the first
four. -/
theorem mirror_discovers_iff {w : World β} {repository : String} {params : RepositoryParams}
    (hmin : params.minSecondsBetweenSnapshots = 0)
    (hargs : ∃ args, w.disk.readInitargs repository = .ok args) (hn : node.toNat < 2 ^ 63)
    (h : CompleteMirror node now w.disk) :
    ∃ fuel, ∀ env, fuel ≤ env.fuel →
      (Discovers node w.disk (stateAfter w
        ((pruneRepositoryCommand repository Trust.exactPlus env params now).run w).steps).disk ↔
          node.toNat ≤ 3) := by
  have hmin' : minTimeBetweenSnapshots params = 0 := by
    rw [minTimeBetweenSnapshots, hmin]
    rfl
  have hread : w.disk.readBreadcrumb = .ok .initial := by
    rw [Disk.readBreadcrumb, h.noBreadcrumb]
    rfl
  refine ⟨2 ^ 64, fun env hfuel => ?_⟩
  -- what the command leaves is what any run of the relation leaves
  have hfinal {final : Disk} {b : Breadcrumb}
      (hends : LoopEnds Trust.exactPlus 0 now w.disk .initial final b) :
      (stateAfter w ((pruneRepositoryCommand repository Trust.exactPlus env params now).run
        w).steps).disk = final ∧ final.readBreadcrumb = .ok b :=
    ⟨LoopEnds.command (hmin' ▸ hends) hargs hread hfuel, hends.keeps.2.1 hread⟩
  constructor
  · rintro ⟨⟨b, hb, hnewest⟩, -⟩
    by_contra hlarge
    -- node 1 has died, and the walk ends before it
    have hdead : w.disk.snapshots (.ofNat 1) = none := by
      rw [← Option.not_isSome_iff_eq_none, h.mem_nodes_iff hn]
      exact Fenwick.one_notMem_alive (not_le.mp hlarge)
    have hstop : trusted Trust.exactPlus 0 now
        (w.disk.pruned Node.initialValue ⟨.ofNat 1, now⟩) ⟨.ofNat 1, now⟩ = none := by
      rw [trusted_congr (snapshots_pruned_of_le_three (by decide) _)]
      cases htrusted : trusted Trust.exactPlus 0 now w.disk ⟨.ofNat 1, now⟩ with
      | none => rfl
      | some b =>
          have hsome := (trusted_some htrusted).1
          rw [hdead] at hsome
          cases hsome
    obtain ⟨hdisk, hb'⟩ := hfinal (h.loopEnds_initial hn (.stop hstop))
    rw [hdisk, hb'] at hb
    cases hb
    rw [Node.toNat_ofNat (by decide)] at hnewest
    omega
  · intro hsmall
    obtain ⟨final, hends, hsnapshots⟩ := h.loopEnds hsmall (Nat.zero_le _)
      (snapshots_pruned_of_le_three (u := Node.initialValue) (by decide) ⟨.ofNat 1, now⟩)
    obtain ⟨hdisk, hb⟩ := hfinal (h.loopEnds_initial hn hends)
    rw [hdisk]
    exact ⟨⟨_, hb, Node.toNat_ofNat (by omega)⟩, hsnapshots⟩

end

/-- A copy of a repository in which `node` is the newest one. -/
def sampleCopy (node : Node) : World Unit :=
  { sampleWorld with
    disk := { sampleWorld.disk with
      snapshots := fun k =>
        if k.value ∈ node.aliveAfter.nodes then
          some ⟨some (Encoded.plain k).serialise, some []⟩
        else none } }

/-- The sample is what it should be. -/
theorem completeMirror_sampleCopy (node : Node) : CompleteMirror node 5 (sampleCopy node).disk := by
  have hread {k : Node} (hs : ((sampleCopy node).disk.snapshots k).isSome) :
      (sampleCopy node).disk.readId k = .ok (some (.plain k)) := by
    refine Disk.readId_of_serialise ?_ rfl
    rw [Disk.idFile]
    simp only [sampleCopy] at hs ⊢
    split at hs
    · next hmem => rw [if_pos hmem]; rfl
    · cases hs
  refine ⟨rfl, ?_, fun k hs => ⟨_, hread hs, by show (0 : Int64) < 5; decide⟩, fun j k ej ek hj hk _ => ?_⟩
  · ext k
    constructor
    · rintro ⟨node', rfl, hs⟩
      simp only [sampleCopy] at hs
      split at hs
      · next hmem => exact Tree.Calls.toNat_mem_numbers.mpr hmem
      · cases hs
    · rintro ⟨x, hx, rfl⟩
      exact ⟨⟨x⟩, rfl, by simp [sampleCopy, hx]⟩
  · rw [hread (Disk.isSome_of_readId hj)] at hj
    rw [hread (Disk.isSome_of_readId hk)] at hk
    cases hj
    cases hk
    exact Int64.le_refl 0

/-- The first four nodes. -/
theorem mirror_discovers_iff_three :
    ∃ fuel, ∀ env, fuel ≤ env.fuel → Discovers ⟨3⟩ (sampleCopy ⟨3⟩).disk (stateAfter (sampleCopy ⟨3⟩)
      ((pruneRepositoryCommand "repository" Trust.exactPlus env ⟨false, 0⟩ 5).run
        (sampleCopy ⟨3⟩)).steps).disk := by
  obtain ⟨fuel, hiff⟩ := mirror_discovers_iff
    (w := sampleCopy ⟨3⟩) (show (RepositoryParams.mk false 0).minSecondsBetweenSnapshots = 0 from
    rfl) (fresh_sampleWorld.tracked.numbered.initargs "repository") (by decide)
    (completeMirror_sampleCopy ⟨3⟩)
  exact ⟨fuel, fun env henv => (hiff env henv).mpr (by decide)⟩

/-- With node 4, node 1 is gone, and the mirror only trusts the initial node. -/
theorem fifth_node_not_discovered :
    let final := (stateAfter (sampleCopy ⟨4⟩)
      ((pruneRepositoryCommand "repository" Trust.exactPlus sampleEnv ⟨false, 0⟩ 5).run
        (sampleCopy ⟨4⟩)).steps).disk
    CompleteMirror ⟨4⟩ 5 (sampleCopy ⟨4⟩).disk ∧ final.readBreadcrumb = .ok ⟨⟨1⟩, 5⟩ ∧
      ¬ Discovers ⟨4⟩ (sampleCopy ⟨4⟩).disk final := by
  intro final
  have hread : final.readBreadcrumb = .ok ⟨⟨1⟩, 5⟩ := by decide +kernel
  refine ⟨completeMirror_sampleCopy ⟨4⟩, hread, ?_⟩
  rintro ⟨⟨b, hb, hnewest⟩, -⟩
  rw [hread] at hb
  cases hb
  exact absurd hnewest (by decide)

end Controller

end Diffmonger
