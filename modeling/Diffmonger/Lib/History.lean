import Diffmonger.Lib.Program

/-!
# Histories of programs

A `History` runs programs one after the other on a shared state. Each may be cut short (`Attempt`),
and between two of them the state may change as the relation `between` allows.
-/

/-- A program that has taken the given steps: a prefix of its run. -/
structure Attempt (ι σ ε α : Type) where
  program : Prog ι σ ε α
  start : σ
  steps : List (ι × σ)
  prefix_run : steps <+: (program.run start).steps

namespace Attempt

variable {ι σ ε α : Type}

/-- The state it has reached. -/
def state (a : Attempt ι σ ε α) : σ := stateAfter a.start a.steps

/-- The labels of the steps it has taken. -/
def labels (a : Attempt ι σ ε α) : List ι := a.steps.map Prod.fst

/-- It ran to the end. -/
def Finished (a : Attempt ι σ ε α) : Prop := a.steps = (a.program.run a.start).steps

/-- It ran to the end and returned. -/
def Completed (a : Attempt ι σ ε α) : Prop :=
  a.Finished ∧ ∃ x, (a.program.run a.start).result = .val x

/-- The whole run of a program. -/
def whole (p : Prog ι σ ε α) (s : σ) : Attempt ι σ ε α := ⟨p, s, (p.run s).steps, List.prefix_rfl⟩

/-- A program that is killed after `k` steps. -/
def cut (p : Prog ι σ ε α) (s : σ) (k : ℕ) : Attempt ι σ ε α :=
  ⟨p, s, (p.run s).steps.take k, List.take_prefix k _⟩

/-- What an attempt has reached satisfies the crash invariant of its program. -/
theorem invariant {a : Attempt ι σ ε α} {I : List ι → σ → Prop}
    {Q : Result ε α → List ι → σ → Prop} {tr : List ι} (h : a.program.wp I Q tr a.start)
    (hs : I tr a.start) : I (tr ++ a.labels) a.state :=
  Prog.wp_killed h hs a.prefix_run

/-- A completed attempt has reached the postcondition of its program. -/
theorem Completed.post {a : Attempt ι σ ε α} {I : List ι → σ → Prop}
    {Q : Result ε α → List ι → σ → Prop} {tr : List ι} (ha : a.Completed)
    (h : a.program.wp I Q tr a.start) : ∃ x, Q (.val x) (tr ++ a.labels) a.state := by
  obtain ⟨hfin, x, hx⟩ := ha
  have hQ := Prog.wp_run h
  rw [hx, ← hfin] at hQ
  exact ⟨x, hQ⟩

/-- The labels of the steps of several attempts. -/
def allLabels (as : List (Attempt ι σ ε α)) : List ι := as.flatMap labels

@[simp] theorem allLabels_nil : allLabels ([] : List (Attempt ι σ ε α)) = [] := rfl

@[simp] theorem allLabels_append_singleton (as : List (Attempt ι σ ε α)) (a : Attempt ι σ ε α) :
    allLabels (as ++ [a]) = allLabels as ++ a.labels := by simp [allLabels]

end Attempt

/-- Starting from `s₀`, attempts at programs of `P` were made one after the other, each stopping
where `stop` allows, and the last one left the state. -/
inductive History {ι σ ε α : Type} (P : Set (Prog ι σ ε α)) (between : σ → σ → Prop)
    (stop : Attempt ι σ ε α → Prop) (s₀ : σ) : List (Attempt ι σ ε α) → σ → Prop
  | nil : History P between stop s₀ [] s₀
  | snoc {as : List (Attempt ι σ ε α)} {s : σ} (a : Attempt ι σ ε α)
      (before : History P between stop s₀ as s) (start : between s a.start)
      (program : a.program ∈ P) (stopped : stop a) : History P between stop s₀ (as ++ [a]) a.state

/-- What holds initially and is preserved by every attempt holds after every history. -/
theorem History.invariant {ι σ ε α : Type} {P : Set (Prog ι σ ε α)} {between : σ → σ → Prop}
    {stop : Attempt ι σ ε α → Prop} {s₀ : σ} (J : List (Attempt ι σ ε α) → σ → Prop) (h0 : J [] s₀)
    (hstep : ∀ as s a, J as s → between s a.start → a.program ∈ P → stop a →
      J (as ++ [a]) a.state)
    {as : List (Attempt ι σ ε α)} {s : σ} (h : History P between stop s₀ as s) : J as s := by
  induction h with
  | nil => exact h0
  | snoc a _ hstart hprog hstop ih => exact hstep _ _ a ih hstart hprog hstop

/-- The rule for what the labels of all attempts say about the state between two attempts. -/
theorem History.labels_invariant {ι σ ε α : Type} {P : Set (Prog ι σ ε α)} {between : σ → σ → Prop}
    {stop : Attempt ι σ ε α → Prop} {s₀ : σ} {J : List ι → σ → Prop} (h0 : J [] s₀)
    (hbetween : ∀ tr s t, J tr s → between s t → J tr t)
    (hattempt : ∀ a tr, a.program ∈ P → stop a → J tr a.start → J (tr ++ a.labels) a.state)
    {as : List (Attempt ι σ ε α)} {s : σ} (h : History P between stop s₀ as s) :
    J (Attempt.allLabels as) s := by
  refine History.invariant (fun as s => J (Attempt.allLabels as) s) h0 ?_ h
  intro as s a hs hstart hp hst
  rw [Attempt.allLabels_append_singleton]
  exact hattempt a _ hp hst (hbetween _ _ _ hs hstart)

/-- The whole runs of a program that is started `k` times in a row, and the state they leave. -/
def Attempt.repeated {ι σ ε α : Type} (p : Prog ι σ ε α) (s : σ) :
    ℕ → List (Attempt ι σ ε α) × σ
  | 0 => ([], s)
  | k + 1 =>
    let next := whole p (repeated p s k).2
    ((repeated p s k).1 ++ [next], next.state)

/-- Running a program again and again is a history. -/
theorem History.repeated {ι σ ε α : Type} {P : Set (Prog ι σ ε α)} {between : σ → σ → Prop}
    {stop : Attempt ι σ ε α → Prop} {p : Prog ι σ ε α} (hp : p ∈ P) (hrefl : ∀ s, between s s)
    (s : σ) {k : ℕ} (hstop : ∀ i < k, stop (.whole p (Attempt.repeated p s i).2)) :
    History P between stop s (Attempt.repeated p s k).1 (Attempt.repeated p s k).2 := by
  induction k with
  | zero => exact .nil
  | succ k ih =>
      have before := ih fun i hi => hstop i (Nat.lt_succ_of_lt hi)
      exact .snoc _ before (hrefl _) hp (hstop k (Nat.lt_succ_self k))
