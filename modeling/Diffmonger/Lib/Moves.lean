import Mathlib.Data.List.Nodup
import Mathlib.Logic.Function.Basic

/-!
# Moving the entries of a partial map, one after the other

A list of moves that are made one after the other is to have the effect that it would have if they
were made all at once. It does if and only if no move takes what an earlier one has put down
(`Independent.runAll`, `independent_of_runAll`). For the converse it is enough to count: a move
empties its source, and only a target can come to have an entry again.
-/

variable {K V : Type}

structure Move (K : Type) where
  source : K
  target : K

namespace Move

section
variable {moves : List (Move K)} {m m' : K → Option V}

/-- Each source has an entry, and it is no target so far. -/
structure Independent (moves : List (Move K)) (m : K → Option V) : Prop where
  given : ∀ move ∈ moves, (m move.source).isSome
  own : ∀ move ∈ moves, move.source ≠ move.target
  earlier : moves.Pairwise fun move later => later.source ≠ move.target

theorem independent_nil : Independent [] m := ⟨by simp, by simp, .nil⟩

theorem independent_cons {move : Move K} : Independent (move :: moves) m ↔
    (m move.source).isSome ∧ move.source ≠ move.target ∧
      (∀ later ∈ moves, later.source ≠ move.target) ∧ Independent moves m := by
  constructor
  · rintro ⟨hgiven, hown, hearlier⟩
    rw [List.forall_mem_cons] at hgiven hown
    rw [List.pairwise_cons] at hearlier
    exact ⟨hgiven.1, hown.1, hearlier.1, hgiven.2, hown.2, hearlier.2⟩
  · rintro ⟨hgiven, hown, hearlier, h⟩
    exact ⟨List.forall_mem_cons.mpr ⟨hgiven, h.given⟩, List.forall_mem_cons.mpr ⟨hown, h.own⟩,
      List.pairwise_cons.mpr ⟨hearlier, h.earlier⟩⟩

/-- It depends on the sources only. -/
theorem Independent.congr (h : Independent moves m)
    (hsame : ∀ move ∈ moves, m' move.source = m move.source) : Independent moves m' :=
  ⟨fun move hmove => hsame move hmove ▸ h.given move hmove, h.own, h.earlier⟩

end

variable [DecidableEq K]

/-- Overwrites what there is at the target, and leaves nothing at the source. There must be
something to move, and somewhere else to move it to. -/
def run (move : Move K) (m : K → Option V) : Option (K → Option V) :=
  if move.source ≠ move.target ∧ (m move.source).isSome then
    some (Function.update (Function.update m move.target (m move.source)) move.source none)
  else none

def runAll : List (Move K) → (K → Option V) → Option (K → Option V)
  | [], m => some m
  | move :: moves, m => (move.run m).bind (runAll moves)

section
variable {move : Move K} {m m' : K → Option V} {k : K}

theorem run_eq_some_iff : move.run m = some m' ↔
    (move.source ≠ move.target ∧ (m move.source).isSome) ∧
      Function.update (Function.update m move.target (m move.source)) move.source none = m' := by
  rw [run, Option.ite_none_right_eq_some, Option.some_inj]

theorem run_source (h : move.run m = some m') : m' move.source = none := by
  obtain ⟨-, rfl⟩ := run_eq_some_iff.mp h
  exact Function.update_self ..

theorem run_target (h : move.run m = some m') : m' move.target = m move.source := by
  obtain ⟨⟨hne, -⟩, rfl⟩ := run_eq_some_iff.mp h
  rw [Function.update_of_ne hne.symm, Function.update_self]

/-- Nothing else changes. -/
theorem run_of_ne (h : move.run m = some m') (hsource : k ≠ move.source) (htarget : k ≠ move.target) :
    m' k = m k := by
  obtain ⟨-, rfl⟩ := run_eq_some_iff.mp h
  rw [Function.update_of_ne hsource, Function.update_of_ne htarget]

end

section
variable {moves : List (Move K)} {m m' : K → Option V} {k : K}

theorem runAll_cons {move : Move K} : runAll (move :: moves) m = some m' ↔
    ∃ m₁, move.run m = some m₁ ∧ runAll moves m₁ = some m' := by
  rw [runAll, Option.bind_eq_some_iff]

/-- What is not mentioned does not change. -/
theorem runAll_of_notMem (h : runAll moves m = some m') (hsources : k ∉ moves.map source)
    (htargets : k ∉ moves.map target) : m' k = m k := by
  induction moves generalizing m with
  | nil =>
      cases h
      rfl
  | cons move moves ih =>
      obtain ⟨m₁, hmove, hrest⟩ := runAll_cons.mp h
      rw [List.map_cons, List.mem_cons, not_or] at hsources htargets
      rw [ih hrest hsources.2 htargets.2, run_of_ne hmove hsources.1 htargets.1]

/-- Only a target can come to have an entry. -/
theorem runAll_eq_none (h : runAll moves m = some m') (htargets : k ∉ moves.map target)
    (hnone : k ∈ moves.map source ∨ m k = none) : m' k = none := by
  induction moves generalizing m with
  | nil =>
      cases h
      exact hnone.resolve_left List.not_mem_nil
  | cons move moves ih =>
      obtain ⟨m₁, hmove, hrest⟩ := runAll_cons.mp h
      rw [List.map_cons, List.mem_cons, not_or] at htargets
      refine ih hrest htargets.2 ?_
      by_cases hk : k = move.source
      · exact .inr (hk ▸ run_source hmove)
      · rcases hnone with hmem | hnone
        · exact .inl ((List.mem_cons.mp hmem).resolve_left hk)
        · exact .inr ((run_of_ne hmove hk htargets.1).trans hnone)

/-- After independent moves, each target has what its source had. -/
theorem Independent.runAll (h : Independent moves m) (hsources : (moves.map source).Nodup)
    (htargets : (moves.map target).Nodup) :
    ∃ m', runAll moves m = some m' ∧ ∀ move ∈ moves, m' move.target = m move.source := by
  induction moves generalizing m with
  | nil => exact ⟨m, rfl, fun _ h => absurd h List.not_mem_nil⟩
  | cons move moves ih =>
      obtain ⟨hsource, hsources⟩ := List.nodup_cons.mp hsources
      obtain ⟨htarget, htargets⟩ := List.nodup_cons.mp htargets
      obtain ⟨hgiven, hown, hearlier, hrest⟩ := independent_cons.mp h
      obtain ⟨m₁, hm₁⟩ : ∃ m₁, move.run m = some m₁ := ⟨_, run_eq_some_iff.mpr ⟨⟨hown, hgiven⟩, rfl⟩⟩
      -- the other sources are as before
      have hsame : ∀ later ∈ moves, m₁ later.source = m later.source := fun later hlater =>
        run_of_ne hm₁ (fun heq => hsource (heq ▸ List.mem_map_of_mem hlater)) (hearlier later hlater)
      obtain ⟨m', hm', hplaced⟩ := ih (hrest.congr hsame) hsources htargets
      refine ⟨m', runAll_cons.mpr ⟨m₁, hm₁, hm'⟩, List.forall_mem_cons.mpr ⟨?_, ?_⟩⟩
      · rw [runAll_of_notMem hm' _ htarget, run_target hm₁]
        intro hmem
        obtain ⟨later, hlater, heq⟩ := List.mem_map.mp hmem
        exact hearlier later hlater heq
      · intro later hlater
        rw [hplaced later hlater, hsame later hlater]

/-- Otherwise there is no entry at one of the targets in the end. -/
theorem independent_of_runAll (hsources : (moves.map source).Nodup)
    (htargets : (moves.map target).Nodup) (h : runAll moves m = some m')
    (hplaced : ∀ move ∈ moves, (m' move.target).isSome) : Independent moves m := by
  induction moves generalizing m with
  | nil => exact independent_nil
  | cons move moves ih =>
      obtain ⟨hsource, hsources⟩ := List.nodup_cons.mp hsources
      obtain ⟨htarget, htargets⟩ := List.nodup_cons.mp htargets
      obtain ⟨hplaced, hplaceds⟩ := List.forall_mem_cons.mp hplaced
      obtain ⟨m₁, hm₁, hm'⟩ := runAll_cons.mp h
      obtain ⟨⟨hown, hgiven⟩, -⟩ := run_eq_some_iff.mp hm₁
      have hrest := ih hsources htargets hm' hplaceds
      -- a later move that takes it away leaves nothing there
      have hearlier : ∀ later ∈ moves, later.source ≠ move.target := by
        intro later hlater heq
        rw [runAll_eq_none hm' htarget (.inl (heq ▸ List.mem_map_of_mem hlater))] at hplaced
        cases hplaced
      refine independent_cons.mpr ⟨hgiven, hown, hearlier, hrest.congr fun later hlater => ?_⟩
      exact (run_of_ne hm₁ (fun heq => hsource (heq ▸ List.mem_map_of_mem hlater))
        (hearlier later hlater)).symm

end

end Move
