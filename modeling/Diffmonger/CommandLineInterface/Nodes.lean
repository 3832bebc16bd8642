import Diffmonger.CommandLineInterface
import Diffmonger.Controller.Prune

/-!
# The nodes that a user names

A node is named by its distance from the last trusted one, or as the most recent one. Both are
looked for from the first untrusted node on: by `getNodeRelativeToLastTrusted` and by
`getNextSnapshotNode`.

* `getNextSnapshotNode_returns_iff`: the call returns if and only if the first untrusted node has not
  been stored. The loop asks for the node that it has just read, and does not get any further.
* `getNodeRelativeToLastTrusted_names_iff`: forwards the right node is found, since the walk starts
  from the first untrusted node; backwards, the number that is computed is one too large, which shows
  unless both nodes are missing.

The 64-bit arithmetic is exact for as long as `untrusted_begin` is less than 2^63, so that the rest
is said about integers (`relativeNumber`).
-/

namespace Diffmonger

open Prog

variable {β : Type}

namespace Disk

/-- Every id file that there is can be read, and is that of its own node. -/
def IdsValid (disk : Disk) : Prop := ∀ node, ∃ found, disk.readId node = .ok found

theorem IdsValid.readId_of_isSome {disk : Disk} {node : Node} (h : disk.IdsValid)
    (hid : (disk.idFile node).isSome) : ∃ encoded, disk.readId node = .ok (some encoded) := by
  obtain ⟨found, hfound⟩ := h node
  cases found with
  | some encoded => exact ⟨encoded, hfound⟩
  | none => exact absurd (readId_eq_none.mp hfound) (Option.isSome_iff_ne_none.mp hid)

end Disk

namespace RepositoryStructure

variable {w : World β} {env : Env}

/-!
## The next node

The loop of `getNextSnapshotNode` goes on from the node that it has read, not from the one after it.
So it ends at once or not at all.
-/

/-- The numbers of the nodes that can be stored next. -/
def freeNumbers (w : World β) : Set ℕ :=
  {k | ∃ node : Node, node.toNat = k ∧ w.disk.idFile node = none ∧
    w.repositoryStructure.breadcrumb.untrustedBegin.toNat ≤ k}

/-- The call returns, and its result is the first node without an id file. -/
def ReturnsNextNode (w : World β) : Prop :=
  ∃ fuel, ∀ env : Env, fuel ≤ env.fuel → ∃ node,
    ((getNextSnapshotNode env).run w).result = .val node ∧ IsLeast (freeNumbers w) node.toNat

/-- The loop asks for the node that it has just read. -/
theorem getNextSnapshotNode_stuck (hvalid : w.disk.IdsValid)
    (hid : (w.disk.idFile w.repositoryStructure.breadcrumb.untrustedBegin).isSome) (env : Env) :
    ((getNextSnapshotNode env).run w).result = .diverged := by
  obtain ⟨encoded, hread⟩ := hvalid.readId_of_isSome hid
  exact (ends_iff_run.mp (getNextSnapshotNode_present hread)).2

theorem getNextSnapshotNode_returns_iff (hvalid : w.disk.IdsValid) :
    ReturnsNextNode w ↔ w.disk.idFile w.repositoryStructure.breadcrumb.untrustedBegin = none := by
  constructor
  · rintro ⟨fuel, hreturns⟩
    by_contra hid
    let env : Env := { Controller.sampleEnv with fuel := fuel }
    obtain ⟨node, hnode, -⟩ := hreturns env le_rfl
    rw [getNextSnapshotNode_stuck hvalid (Option.isSome_iff_ne_none.mpr hid)] at hnode
    cases hnode
  · intro hid
    refine ⟨1, fun env hfuel => ⟨w.repositoryStructure.breadcrumb.untrustedBegin, ?_, ?_⟩⟩
    · exact (ends_iff_run.mp (getNextSnapshotNode_free hid hfuel)).2
    · exact ⟨⟨_, rfl, hid, le_rfl⟩, fun k hk => hk.choose_spec.2.2⟩

/-- A repository that holds the nodes 0 to 3, of which the last two are not trusted yet. -/
def sampleUntrusted : World Unit :=
  let breadcrumb : Breadcrumb := ⟨⟨2⟩, 0⟩
  { Controller.sampleWorld with
    disk := { Controller.sampleWorld.disk with
      breadcrumb := some breadcrumb.serialise
      snapshots := fun node =>
        if node.toNat < 4 then some ⟨some (Encoded.plain node).serialise, some []⟩ else none }
    repositoryStructure :=
      { Controller.sampleWorld.repositoryStructure with breadcrumb := breadcrumb } }

theorem readId_sampleUntrusted (node : Node) : sampleUntrusted.disk.readId node =
    .ok (if node.toNat < 4 then some (Encoded.plain node) else none) := by
  by_cases hlt : node.toNat < 4
  · rw [if_pos hlt]
    exact Disk.readId_of_serialise (by simp [Disk.idFile, sampleUntrusted, hlt]) rfl
  · rw [if_neg hlt]
    exact Disk.readId_of_none (by simp [Disk.idFile, sampleUntrusted, hlt])

theorem idsValid_sampleUntrusted : sampleUntrusted.disk.IdsValid := fun node =>
  ⟨_, readId_sampleUntrusted node⟩

theorem getNextSnapshotNode_stuck_untrusted :
    sampleUntrusted.disk.IdsValid ∧ 4 ∈ freeNumbers sampleUntrusted ∧
      ¬ ReturnsNextNode sampleUntrusted := by
  refine ⟨idsValid_sampleUntrusted, ⟨⟨4⟩, rfl, rfl, by decide⟩, ?_⟩
  rintro ⟨fuel, hreturns⟩
  obtain ⟨node, hnode, -⟩ := hreturns { Controller.sampleEnv with fuel := fuel } le_rfl
  rw [getNextSnapshotNode_stuck idsValid_sampleUntrusted (by decide)] at hnode
  cases hnode

theorem getNextSnapshotNode_returns_iff_untrusted :
    ReturnsNextNode sampleUntrusted ↔ sampleUntrusted.disk.idFile ⟨2⟩ = none :=
  getNextSnapshotNode_returns_iff idsValid_sampleUntrusted

/-!
## Nodes relative to the last trusted one

An offset from 2 on is walked, one node at a time, and the walk ends at the first node that is
missing. For the other offsets the number of the node is computed.
-/

section
variable {disk : Disk} {offset : Int64}

/-- The node is stored and can be read, and so are all nodes from the node `u` up to it. -/
structure Reached (disk : Disk) (u node : Node) (encoded : Encoded) : Prop where
  read : disk.readId node = .ok (some encoded)
  stored : ∀ k : Node, u.toNat ≤ k.toNat → k.toNat ≤ node.toNat → (disk.idFile k).isSome

/-- Walking starts at a stored node. -/
theorem Reached.succ_iff {u v node : Node} {encoded : Encoded} (hv : v.toNat = u.toNat + 1)
    (hu : (disk.idFile u).isSome) :
    Reached disk v node encoded ↔ Reached disk u node encoded := by
  constructor
  · refine fun h => ⟨h.read, fun k hk hnode => ?_⟩
    rcases hk.eq_or_lt with heq | hlt
    · rwa [← Node.toNat_inj.mp heq]
    · exact h.stored k (by omega) hnode
  · exact fun h => ⟨h.read, fun k hk hnode => h.stored k (by omega) hnode⟩

/-- The walk from a node that has just been read. -/
theorem getNodeRelativeToLastTrustedLoop_ends (hvalid : w.disk.IdsValid) (steps : ℕ) {u : Node}
    {found : Option Encoded} (hread : w.disk.readId u = .ok found)
    (hlt : u.toNat + steps < 2 ^ 64) :
    (getNodeRelativeToLastTrustedLoop steps found).Ends (fun r _ => ∃ found', r = .val found' ∧
      ∀ encoded, found' = some encoded ↔
        Reached w.disk u (Node.ofNat (u.toNat + steps)) encoded) w := by
  induction steps generalizing u found with
  | zero =>
      refine fun tr => ⟨found, rfl, fun encoded => ?_⟩
      rw [Nat.add_zero, Node.ofNat_toNat]
      constructor
      · rintro rfl
        refine ⟨hread, fun k hk hnode => ?_⟩
        rw [Node.toNat_inj.mp (le_antisymm hnode hk)]
        exact Disk.isSome_idFile_of_readId hread
      · intro h
        exact Except.ok.inj (hread.symm.trans h.read)
  | succ steps ih =>
      have htarget : (Node.ofNat (u.toNat + (steps + 1))).toNat = u.toNat + (steps + 1) :=
        Node.toNat_ofNat hlt
      cases found with
      | none =>
          -- the first node is missing, and no node behind it is reached
          refine fun tr => ⟨none, rfl, fun encoded => ⟨by simp, fun h => ?_⟩⟩
          have hu := h.stored u le_rfl (by omega)
          rw [Disk.readId_eq_none.mp hread] at hu
          cases hu
      | some encoded =>
          intro tr
          -- the walk goes on from the next node, whether that is stored or not
          have hnext : u.next = .ok (Node.ofNat (u.toNat + 1)) :=
            Node.next_of_toNat_lt (by omega)
          have hu : (Node.ofNat (u.toNat + 1)).toNat = u.toNat + 1 := Node.toNat_ofNat (by omega)
          obtain ⟨found', hfound'⟩ := hvalid (Node.ofNat (u.toNat + 1))
          have hih := ih hfound' (by omega)
          rw [hu, show u.toNat + 1 + steps = u.toNat + (steps + 1) by omega] at hih
          simp only [Reached.succ_iff hu (Disk.isSome_idFile_of_readId hread)] at hih
          simp only [getNodeRelativeToLastTrustedLoop, Disk.node_of_readId hread, hnext, wp_bind,
            wp_ofExcept, wp_tryGetEncodedSnapshotId, Result.ofExcept, bindPost, hfound', true_and]
          exact hih _

theorem toInt_offsetPrime (offset : Int64) :
    (offsetPrime offset).toInt = max (-2 ^ 63 + 1) offset.toInt - 1 := by
  have hmin : (Int64.minValue + 1).toInt = -2 ^ 63 + 1 := by decide
  rw [offsetPrime]
  split
  · next h =>
      rw [Int64.lt_iff_toInt_lt, hmin] at h
      rw [Int64.toInt_sub_one (by rw [Int64.lt_iff_toInt_lt, Int64.toInt_minValue]; omega),
        max_eq_right h.le]
  · next h =>
      rw [Int64.lt_iff_toInt_lt, hmin, not_lt] at h
      rw [Int64.toInt_sub_one (by decide), hmin, max_eq_left h]

theorem offsetPrime_pos_iff : 0 < offsetPrime offset ↔ 2 ≤ offset.toInt := by
  rw [Int64.lt_iff_toInt_lt, toInt_offsetPrime, show (0 : Int64).toInt = 0 from rfl]
  omega

section
variable {u : Node} (hlt : u.toNat < 2 ^ 63)
include hlt

theorem toInt_neg_value : (-u.value.toInt64).toInt = -(u.toNat : ℤ) := by
  have hu : u.value.toInt64.toInt = u.toNat := UInt64.toInt_toInt64 hlt
  rw [Int64.toInt_neg_of_nonneg (by omega), hu]

/-- The test for the backward computation is whether the number is that of a node. -/
theorem neg_value_le_offsetPrime_iff :
    -u.value.toInt64 ≤ offsetPrime offset ↔ 0 ≤ u.toNat - 1 + offset.toInt := by
  rw [Int64.le_iff_toInt_le, toInt_neg_value hlt, toInt_offsetPrime]
  omega

/-- The backward computation arrives at the node behind the one that the offset stands for. -/
theorem value_add_toUInt64 (hoffset : ¬ 2 ≤ offset.toInt)
    (hnumber : 0 ≤ u.toNat - 1 + offset.toInt) :
    (⟨u.value + offset.toUInt64⟩ : Node) = Node.ofNat (u.toNat - 1 + offset.toInt + 1).toNat := by
  have hsum : ((u.value + offset.toUInt64).toNat : ℤ) = u.toNat + offset.toInt :=
    UInt64.toNat_add_toUInt64 (by show (0 : ℤ) ≤ u.toNat + offset.toInt; omega)
      (by show u.toNat + offset.toInt < (2 : ℤ) ^ 64; omega)
  rw [← Node.toNat_inj, Node.toNat_ofNat (by omega)]
  show (u.value + offset.toUInt64).toNat = _
  omega

theorem not_maxValue_lt_value : ¬ Int64.maxValue.toUInt64 < u.value := by
  rw [UInt64.lt_iff_toNat_lt, show Int64.maxValue.toUInt64.toNat = 2 ^ 63 - 1 from rfl]
  show ¬ 2 ^ 63 - 1 < u.toNat
  omega

end

/-- The number of the node that an offset stands for. -/
def relativeNumber (w : World β) (offset : Int64) : ℤ :=
  w.repositoryStructure.breadcrumb.untrustedBegin.toNat - 1 + offset.toInt

/-- The arithmetic is exact, and the call returns the id of the node that the offset stands for if
that node is reached, and nothing otherwise. -/
structure NamesRelative (w : World β) (offset : Int64) : Prop where
  offsetPrime :
    (RepositoryStructure.offsetPrime offset).toInt = max (-2 ^ 63 + 1) offset.toInt - 1
  untrustedBegin : (-w.repositoryStructure.breadcrumb.untrustedBegin.value.toInt64).toInt =
    -(w.repositoryStructure.breadcrumb.untrustedBegin.toNat : ℤ)
  names : ∃ found, ((getNodeRelativeToLastTrusted offset).run w).result = .val found ∧
    ∀ encoded, found = some encoded ↔
      ∃ node : Node, (node.toNat : ℤ) = relativeNumber w offset ∧
        Reached w.disk w.repositoryStructure.breadcrumb.untrustedBegin node encoded

section

/-- The forward walk ends at the node that the offset stands for. -/
theorem getNodeRelativeToLastTrusted_forward (hvalid : w.disk.IdsValid)
    (hlt : w.repositoryStructure.breadcrumb.untrustedBegin.toNat < 2 ^ 63)
    (hoffset : 2 ≤ offset.toInt) :
    (getNodeRelativeToLastTrusted offset).Ends (fun r _ => ∃ found, r = .val found ∧
      ∀ encoded, found = some encoded ↔
        Reached w.disk w.repositoryStructure.breadcrumb.untrustedBegin
          (Node.ofNat (relativeNumber w offset).toNat) encoded) w := by
  intro tr
  have hprime := toInt_offsetPrime offset
  have hoffset' := offset.toInt_lt
  have hsteps : ((offsetPrime offset).toUInt64.toNat : ℤ) = (offsetPrime offset).toInt :=
    UInt64.toNat_toUInt64 (by omega)
  obtain ⟨found, hread⟩ := hvalid w.repositoryStructure.breadcrumb.untrustedBegin
  have hloop := getNodeRelativeToLastTrustedLoop_ends hvalid
    (offsetPrime offset).toUInt64.toNat hread (by omega)
  rw [show w.repositoryStructure.breadcrumb.untrustedBegin.toNat +
    (offsetPrime offset).toUInt64.toNat = (relativeNumber w offset).toNat by
      rw [relativeNumber]; omega] at hloop
  simp only [getNodeRelativeToLastTrusted, getBreadcrumb, wp_bind, wp_look, bindPost,
    if_pos (offsetPrime_pos_iff.mpr hoffset), wp_tryGetEncodedSnapshotId, hread, Result.ofExcept,
    true_and]
  exact hloop _

/-- The backward computation arrives at the node behind the one that the offset stands for. -/
theorem getNodeRelativeToLastTrusted_backward (hvalid : w.disk.IdsValid)
    (hlt : w.repositoryStructure.breadcrumb.untrustedBegin.toNat < 2 ^ 63)
    (hoffset : ¬ 2 ≤ offset.toInt) :
    (getNodeRelativeToLastTrusted offset).Ends (fun r _ => ∃ found, r = .val found ∧
      if 0 ≤ relativeNumber w offset then
        w.disk.readId (Node.ofNat (relativeNumber w offset + 1).toNat) = .ok found
      else found = none) w := by
  intro tr
  simp only [getNodeRelativeToLastTrusted, getBreadcrumb, wp_bind, wp_look, bindPost,
    if_neg (mt offsetPrime_pos_iff.mp hoffset), if_neg (not_maxValue_lt_value hlt),
    neg_value_le_offsetPrime_iff hlt, true_and]
  by_cases hnumber : 0 ≤ relativeNumber w offset
  · obtain ⟨found, hread⟩ := hvalid (Node.ofNat (relativeNumber w offset + 1).toNat)
    rw [← relativeNumber, if_pos hnumber, value_add_toUInt64 hlt hoffset hnumber,
      wp_tryGetEncodedSnapshotId, ← relativeNumber, hread]
    exact ⟨trivial, found, rfl, by rw [if_pos hnumber]⟩
  · rw [← relativeNumber, if_neg hnumber]
    exact ⟨none, rfl, by rw [if_neg hnumber]⟩

end

/-- At most one node has a given number. -/
theorem exists_toNat_eq_iff {n : ℤ} {P : Node → Prop} (h₀ : 0 ≤ n) (hlt : n < 2 ^ 64) :
    (∃ node : Node, (node.toNat : ℤ) = n ∧ P node) ↔ P (Node.ofNat n.toNat) := by
  have hn : (Node.ofNat n.toNat).toNat = n.toNat := Node.toNat_ofNat (by omega)
  constructor
  · rintro ⟨node, hnode, hP⟩
    rwa [← hnode, Int.toNat_natCast, Node.ofNat_toNat]
  · exact fun hP => ⟨_, by omega, hP⟩

/-- Backwards from the first untrusted node, a node is reached as soon as it is stored. -/
theorem reached_iff {u node : Node} (hle : node.toNat ≤ u.toNat) (encoded : Encoded) :
    Reached disk u node encoded ↔ disk.readId node = .ok (some encoded) := by
  refine ⟨Reached.read, fun h => ⟨h, fun k hk hnode => ?_⟩⟩
  rw [Node.toNat_inj.mp (le_antisymm hnode (hle.trans hk))]
  exact Disk.isSome_idFile_of_readId h

/-- Reading one node in another's place shows unless neither is stored. -/
theorem reads_other_iff {meant next : Node} {found : Option Encoded} (hvalid : disk.IdsValid)
    (hne : next ≠ meant) (hread : disk.readId next = .ok found) :
    (∀ encoded, found = some encoded ↔ disk.readId meant = .ok (some encoded)) ↔
      disk.idFile meant = none ∧ disk.idFile next = none := by
  constructor
  · intro h
    have hfound : found = none := by
      cases found with
      | none => rfl
      | some encoded =>
          have hmeant := (h encoded).mp rfl
          exact absurd ((Disk.node_of_readId hread).symm.trans (Disk.node_of_readId hmeant)) hne
    rw [hfound] at h hread
    obtain ⟨other, hother⟩ := hvalid meant
    cases other with
    | none => exact ⟨Disk.readId_eq_none.mp hother, Disk.readId_eq_none.mp hread⟩
    | some encoded => cases (h encoded).mpr hother
  · rintro ⟨hmeant, hnext⟩ encoded
    rw [Disk.readId_of_none hnext] at hread
    cases hread
    simp [Disk.readId_of_none hmeant]

theorem namesRelative_iff {found : Option Encoded}
    (hlt : w.repositoryStructure.breadcrumb.untrustedBegin.toNat < 2 ^ 63)
    (hfound : ((getNodeRelativeToLastTrusted offset).run w).result = .val found) :
    NamesRelative w offset ↔ ∀ encoded, found = some encoded ↔
      ∃ node : Node, (node.toNat : ℤ) = relativeNumber w offset ∧
        Reached w.disk w.repositoryStructure.breadcrumb.untrustedBegin node encoded := by
  constructor
  · rintro ⟨-, -, found', hfound', hnames⟩
    rw [hfound] at hfound'
    cases hfound'
    exact hnames
  · exact fun hnames => ⟨toInt_offsetPrime offset, toInt_neg_value hlt, found, hfound, hnames⟩

/-- The call names the node that the offset stands for exactly if the offset is at least 2, or
stands for a negative number, or neither that node nor the one behind it is stored. -/
theorem getNodeRelativeToLastTrusted_names_iff (hvalid : w.disk.IdsValid)
    (hlt : w.repositoryStructure.breadcrumb.untrustedBegin.toNat < 2 ^ 63) (offset : Int64) :
    NamesRelative w offset ↔ 2 ≤ offset.toInt ∨ relativeNumber w offset < 0 ∨
      ∀ node : Node, (node.toNat : ℤ) = relativeNumber w offset ∨
        (node.toNat : ℤ) = relativeNumber w offset + 1 → w.disk.idFile node = none := by
  have hoffset' := offset.toInt_lt
  by_cases hoffset : 2 ≤ offset.toInt
  · -- the forward walk
    obtain ⟨found, hfound, hiff⟩ :=
      ends_iff_run.mp (getNodeRelativeToLastTrusted_forward hvalid hlt hoffset)
    refine iff_of_true ((namesRelative_iff hlt hfound).mpr fun encoded => ?_) (.inl hoffset)
    rw [hiff, exists_toNat_eq_iff (by rw [relativeNumber]; omega) (by rw [relativeNumber]; omega)]
  · obtain ⟨found, hfound, hread⟩ :=
      ends_iff_run.mp (getNodeRelativeToLastTrusted_backward hvalid hlt hoffset)
    rw [namesRelative_iff hlt hfound]
    by_cases hnumber : 0 ≤ relativeNumber w offset
    · have hlt' : relativeNumber w offset + 1 < 2 ^ 64 := by rw [relativeNumber]; omega
      have hmeant : (Node.ofNat (relativeNumber w offset).toNat).toNat =
        (relativeNumber w offset).toNat := Node.toNat_ofNat (by omega)
      have hnext : (Node.ofNat (relativeNumber w offset + 1).toNat).toNat =
        (relativeNumber w offset + 1).toNat := Node.toNat_ofNat (by omega)
      rw [if_pos hnumber] at hread
      have hle : (Node.ofNat (relativeNumber w offset).toNat).toNat ≤
          w.repositoryStructure.breadcrumb.untrustedBegin.toNat := by
        rw [hmeant, relativeNumber]
        omega
      simp only [exists_toNat_eq_iff hnumber (show relativeNumber w offset < 2 ^ 64 by omega),
        reached_iff hle]
      -- the node that is read is the one behind the one that is meant
      rw [reads_other_iff hvalid (by rw [Ne, ← Node.toNat_inj]; omega) hread]
      constructor
      · rintro ⟨hmeant', hnext'⟩
        refine .inr (.inr fun node hnode => ?_)
        rcases hnode with hnode | hnode
        · rwa [← Node.ofNat_toNat node, show node.toNat = (relativeNumber w offset).toNat by omega]
        · rwa [← Node.ofNat_toNat node,
            show node.toNat = (relativeNumber w offset + 1).toNat by omega]
      · rintro (h | h | hnone)
        · exact absurd h hoffset
        · exact absurd hnumber (not_le.mpr h)
        · exact ⟨hnone _ (.inl (by omega)), hnone _ (.inr (by omega))⟩
    · -- the number is negative, and nothing is returned
      rw [if_neg hnumber] at hread
      refine iff_of_true (fun encoded => ⟨by simp [hread], fun ⟨node, hnode, _⟩ => ?_⟩)
        (.inr (.inl (not_le.mp hnumber)))
      omega

theorem getNodeRelativeToLastTrusted_names_iff_untrusted :
    NamesRelative sampleUntrusted 2 ↔ 2 ≤ (2 : Int64).toInt ∨ relativeNumber sampleUntrusted 2 < 0 ∨
      ∀ node : Node, (node.toNat : ℤ) = relativeNumber sampleUntrusted 2 ∨
        (node.toNat : ℤ) = relativeNumber sampleUntrusted 2 + 1 →
          sampleUntrusted.disk.idFile node = none :=
  getNodeRelativeToLastTrusted_names_iff idsValid_sampleUntrusted (by decide) 2

/-- What an offset below 2 finds in the sample. -/
theorem getNodeRelativeToLastTrusted_untrusted (offset : Int64) (hoffset : ¬ 2 ≤ offset.toInt)
    (hnumber : 0 ≤ relativeNumber sampleUntrusted offset)
    (hlt : (Node.ofNat (relativeNumber sampleUntrusted offset + 1).toNat).toNat < 4) :
    ((getNodeRelativeToLastTrusted offset).run sampleUntrusted).result =
      .val (some (Encoded.plain (Node.ofNat (relativeNumber sampleUntrusted offset + 1).toNat))) := by
  obtain ⟨found, hfound, hread⟩ := ends_iff_run.mp
    (getNodeRelativeToLastTrusted_backward idsValid_sampleUntrusted (by decide) hoffset)
  rw [if_pos hnumber, readId_sampleUntrusted, if_pos hlt] at hread
  cases hread
  exact hfound

/-- The offset 0 stands for the node 1 and names the node 2; the offsets 1 and 2 both name the node
3. -/
theorem getNodeRelativeToLastTrusted_off_by_one :
    sampleUntrusted.disk.IdsValid ∧
      sampleUntrusted.repositoryStructure.breadcrumb.untrustedBegin = ⟨2⟩ ∧
      ¬ NamesRelative sampleUntrusted 0 ∧
      ((getNodeRelativeToLastTrusted 0).run sampleUntrusted).result =
        .val (some (Encoded.plain ⟨2⟩)) ∧
      ((getNodeRelativeToLastTrusted 1).run sampleUntrusted).result =
        .val (some (Encoded.plain ⟨3⟩)) ∧
      ((getNodeRelativeToLastTrusted 2).run sampleUntrusted).result =
        .val (some (Encoded.plain ⟨3⟩)) := by
  have hzero := getNodeRelativeToLastTrusted_untrusted 0 (by decide) (by decide)
    (by decide)
  refine ⟨idsValid_sampleUntrusted, rfl, ?_, hzero,
    getNodeRelativeToLastTrusted_untrusted 1 (by decide) (by decide) (by decide), ?_⟩
  · rw [namesRelative_iff (by decide) hzero]
    intro hnames
    obtain ⟨node, hnode, hreached⟩ := (hnames _).mp rfl
    rw [← Disk.node_of_readId hreached.read] at hnode
    exact absurd hnode (by decide)
  · obtain ⟨found, hfound, hiff⟩ := ends_iff_run.mp
      (getNodeRelativeToLastTrusted_forward idsValid_sampleUntrusted (by decide)
        (show 2 ≤ (2 : Int64).toInt by decide))
    rw [hfound, (hiff (Encoded.plain ⟨3⟩)).mpr ⟨readId_sampleUntrusted ⟨3⟩, fun k _ hk => ?_⟩]
    have hlt : k.toNat < 4 := Nat.lt_succ_of_le hk
    exact Disk.isSome_idFile_of_readId ((readId_sampleUntrusted k).trans (by rw [if_pos hlt]))

end

end RepositoryStructure

/-!
## How a node is looked up

The two forms for the last trusted node, in a repository where no other node follows it. The more
general one fails, since an offset is taken from the first untrusted node.
-/

namespace DiffmongerNode

open RepositoryStructure

variable {w : World β} {env : Env}

/-- As long as no node is waiting to be trusted, the most recent node is the last trusted one. -/
theorem toNode_latestNode
    (hid : w.disk.idFile w.repositoryStructure.breadcrumb.untrustedBegin = none)
    (hne : w.repositoryStructure.breadcrumb.untrustedBegin ≠ Node.initialValue)
    (hfuel : 0 < env.fuel) :
    (latestNode.toNode env).Ends (fun r _ =>
      r = .val ⟨w.repositoryStructure.breadcrumb.untrustedBegin.value - 1⟩) w := by
  intro tr
  rw [toNode, wp_bind]
  refine wp_post ?_ (getNextSnapshotNode_free hid hfuel tr)
  rintro _ _ _ ⟨rfl, rfl⟩
  simp [hne]

/-- In the same state the offset 0 names no node. -/
theorem toNode_relativeNode_zero (hvalid : w.disk.IdsValid)
    (hid : w.disk.idFile w.repositoryStructure.breadcrumb.untrustedBegin = none)
    (hne : w.repositoryStructure.breadcrumb.untrustedBegin ≠ Node.initialValue)
    (hlt : w.repositoryStructure.breadcrumb.untrustedBegin.toNat < 2 ^ 63) :
    ((relativeNode 0).toNode env).Ends (fun r _ => r = .exn (.runtimeError "No such node")) w := by
  intro tr
  have hpos : w.repositoryStructure.breadcrumb.untrustedBegin.toNat ≠ 0 := fun h =>
    hne (Node.toNat_inj.mp h)
  have hnumber : relativeNumber w 0 =
      w.repositoryStructure.breadcrumb.untrustedBegin.toNat - 1 := by simp [relativeNumber]
  rw [toNode, wp_bind]
  refine wp_post ?_ (getNodeRelativeToLastTrusted_backward hvalid hlt (by decide) tr)
  rintro _ _ _ ⟨found, rfl, hread⟩
  rw [if_pos (by omega), show (relativeNumber w 0 + 1).toNat =
    w.repositoryStructure.breadcrumb.untrustedBegin.toNat by omega, Node.ofNat_toNat,
    Disk.readId_of_none hid] at hread
  cases hread
  rfl

end DiffmongerNode

end Diffmonger
