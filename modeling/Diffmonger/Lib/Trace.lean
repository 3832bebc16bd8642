import Diffmonger.Lib.History

/-!
# Traces

The trace of a run keeps beside the label of every step the state that the step leads to. What an
invariant has to say about states that are long gone is a function of the trace: the readings of a
clock, the values that were once in a file. `Prog.wpTrace` is the logic for such invariants.

Most parts of a program matter to such an invariant only through what holds right after each of
their steps: `Prog.Passes` says that, and `wpTrace_of_passes` is the frame rule.
-/

namespace Prog

variable {ι σ ε α β : Type}

/-- `p`, started in `s` after the steps `tr`, keeps `I` after each of its steps, and if it returns,
it does so in `Q`. -/
def wpTrace (I : List (ι × σ) → Prop) (Q : α → List (ι × σ) → σ → Prop) :
    Prog ι σ ε α → List (ι × σ) → σ → Prop
  | done (.val a), tr, s => Q a tr s
  | done _, _, _ => True
  | act l u n, tr, s => I (tr ++ [(l, u s)]) ∧ (n s).wpTrace I Q (tr ++ [(l, u s)]) (u s)

/-- Every step of `p`, started in `s`, leads to a state that `P` allows for its label. -/
def Passes (P : ι → σ → Prop) : Prog ι σ ε α → σ → Prop
  | done _, _ => True
  | act l u n, s => P l (u s) ∧ (n s).Passes P (u s)

section
variable {I : List (ι × σ) → Prop} {tr : List (ι × σ)} {s : σ}

@[simp] theorem wpTrace_pure {Q : α → List (ι × σ) → σ → Prop} (a : α) :
    (pure a : Prog ι σ ε α).wpTrace I Q tr s ↔ Q a tr s := Iff.rfl

@[simp] theorem wpTrace_readModify {Q : α → List (ι × σ) → σ → Prop} (l : ι) (f : σ → α)
    (u : σ → σ) : (readModify l f u : Prog ι σ ε α).wpTrace I Q tr s ↔
      I (tr ++ [(l, u s)]) ∧ Q (f s) (tr ++ [(l, u s)]) (u s) := Iff.rfl

theorem wpTrace_ofExcept {Q : α → List (ι × σ) → σ → Prop} {x : Except ε α}
    (h : ∀ a, x = .ok a → Q a tr s) : (ofExcept x : Prog ι σ ε α).wpTrace I Q tr s := by
  cases x with
  | ok a => exact h a rfl
  | error _ => trivial

theorem wpTrace_mono {I' : List (ι × σ) → Prop} {Q Q' : α → List (ι × σ) → σ → Prop}
    (hI : ∀ tr, I tr → I' tr) (hQ : ∀ a tr s, Q a tr s → Q' a tr s) {p : Prog ι σ ε α}
    (h : p.wpTrace I Q tr s) : p.wpTrace I' Q' tr s := by
  induction p generalizing tr s with
  | done r =>
      cases r with
      | val a => exact hQ a tr s h
      | exn _ => trivial
      | diverged => trivial
  | act l u n ih => exact ⟨hI _ h.1, ih s h.2⟩

@[simp] theorem wpTrace_bind {Q : β → List (ι × σ) → σ → Prop} (p : Prog ι σ ε α)
    (k : α → Prog ι σ ε β) :
    (p >>= k).wpTrace I Q tr s ↔ p.wpTrace I (fun a tr s => (k a).wpTrace I Q tr s) tr s := by
  induction p generalizing tr s with
  | done r => cases r <;> rfl
  | act l u n ih => exact and_congr_right fun _ => ih s

/-- The invariant holds of every prefix of the trace of a run. -/
theorem wpTrace_run {Q : α → List (ι × σ) → σ → Prop} {p : Prog ι σ ε α}
    (h : p.wpTrace I Q tr s) (htr : I tr) {steps : List (ι × σ)}
    (hp : steps <+: (p.run s).steps) : I (tr ++ steps) := by
  induction p generalizing tr s steps with
  | done r =>
      rw [List.prefix_nil.mp hp, List.append_nil]
      exact htr
  | act l u n ih =>
      rcases List.prefix_cons_iff.mp hp with rfl | ⟨rest, rfl, hrest⟩
      · rwa [List.append_nil]
      · rw [List.append_cons]
        exact ih s h.2 h.1 hrest

end

section
variable {P : ι → σ → Prop} {p : Prog ι σ ε α} {s : σ}

/-- What holds at every moment, and in particular after a step. -/
theorem passes_of_wp {I : List ι → σ → Prop} {Q : Result ε α → List ι → σ → Prop} (tr : List ι)
    (hI : ∀ tr l s, I (tr ++ [l]) s → P l s) (h : p.wp I Q tr s) : p.Passes P s := by
  induction p generalizing tr s with
  | done r => trivial
  | act l u n ih => exact ⟨hI tr l _ h.1, ih s _ h.2⟩

theorem passes_of_emits {C : ι → (σ → σ) → Prop} (hC : ∀ l u s, C l u → P l (u s))
    (h : p.Emits C) : p.Passes P s := by
  induction p generalizing s with
  | done r => trivial
  | act l u n ih => exact ⟨hC l u s h.1, ih s (h.2 s)⟩

theorem passes_iff_run : p.Passes P s ↔ ∀ step ∈ (p.run s).steps, P step.1 step.2 := by
  induction p generalizing s with
  | done r => simp [Passes, run]
  | act l u n ih => simp only [Passes, run, List.forall_mem_cons, ih]

/-- The second part of a sequence starts where the first one returned. -/
theorem passes_bind {k : α → Prog ι σ ε β} :
    (p >>= k).Passes P s ↔ p.Passes P s ∧ ∀ a, (p.run s).result = .val a →
      (k a).Passes P (stateAfter s (p.run s).steps) := by
  induction p generalizing s with
  | done r =>
      cases r with
      | val a =>
          show (k a).Passes P s ↔ _
          simp [Passes, run]
      | exn e => exact ⟨fun _ => ⟨trivial, fun a h => by cases h⟩, fun _ => trivial⟩
      | diverged => exact ⟨fun _ => ⟨trivial, fun a h => by cases h⟩, fun _ => trivial⟩
  | act l u n ih =>
      show P l (u s) ∧ (n s >>= k).Passes P (u s) ↔ _
      simp only [Passes, run, stateAfter_cons, ih, and_assoc]

theorem Passes.and {P' : ι → σ → Prop} (h : p.Passes P s) (h' : p.Passes P' s) :
    p.Passes (fun l s => P l s ∧ P' l s) s := by
  induction p generalizing s with
  | done r => trivial
  | act l u n ih => exact ⟨⟨h.1, h'.1⟩, ih s h.2 h'.2⟩

/-- The frame rule: what holds of a trace and is not destroyed by a step that `P` allows. -/
theorem wpTrace_of_passes {R : List (ι × σ) → Prop}
    (hR : ∀ tr l s, P l s → R tr → R (tr ++ [(l, s)])) (h : p.Passes P s) {tr : List (ι × σ)}
    (htr : R tr) : p.wpTrace R (fun _ tr _ => R tr) tr s := by
  induction p generalizing tr s with
  | done r =>
      cases r with
      | val a => exact htr
      | exn _ => trivial
      | diverged => trivial
  | act l u n ih =>
      have hstep := hR tr l (u s) h.1 htr
      exact ⟨hstep, ih s h.2 hstep⟩

end

/-!
## What holds right after the steps of a kind

For conditions on a single step and the state after it, such as that a call finds what it needs. All
other steps of the program do not matter.
-/

/-- The state is one that `P` allows right after the last of the labels, if there is one. -/
def AtLast (P : ι → σ → Prop) (tr : List ι) (s : σ) : Prop := ∀ l ∈ tr.getLast?, P l s

section
variable {P : ι → σ → Prop} {p : Prog ι σ ε α} {tr : List ι} {s : σ}

@[simp] theorem atLast_append_singleton {l : ι} : AtLast P (tr ++ [l]) s ↔ P l s := by
  simp [AtLast]

/-- A part of a program whose steps do not matter to `P`. -/
theorem Ends.wp_atLast {C : ι → (σ → σ) → Prop} {Q : Result ε α → σ → Prop} (h : p.Ends Q s)
    (hp : p.Emits C) (hC : ∀ l u s, C l u → P l (u s)) :
    p.wp (AtLast P) (fun r _ => Q r) tr s := by
  have hsteps : p.wp (AtLast P) (fun _ _ _ => True) tr s := by
    clear h
    induction p generalizing tr s with
    | done r => trivial
    | act l u n ih => exact ⟨atLast_append_singleton.mpr (hC l u s hp.1), ih s (hp.2 s)⟩
  exact wp_mono (fun _ _ h => h.1) (fun _ _ _ h => h.2) p (wp_and hsteps (h tr))

/-- The steps of a run. -/
theorem of_mem_steps {Q : Result ε α → List ι → σ → Prop} (h : p.wp (AtLast P) Q tr s)
    {step : ι × σ} (hstep : step ∈ (p.run s).steps) : P step.1 step.2 := by
  induction p generalizing tr s with
  | done r => cases hstep
  | act l u n ih =>
      rcases List.mem_cons.mp hstep with rfl | hrest
      · exact atLast_append_singleton.mp h.1
      · exact ih s h.2 hrest

end

end Prog

namespace Attempt

variable {ι σ ε α : Type}

/-- The steps of several attempts. -/
def allSteps (as : List (Attempt ι σ ε α)) : List (ι × σ) := as.flatMap steps

@[simp] theorem allSteps_append_singleton (as : List (Attempt ι σ ε α)) (a : Attempt ι σ ε α) :
    allSteps (as ++ [a]) = allSteps as ++ a.steps := by simp [allSteps]

theorem map_fst_allSteps (as : List (Attempt ι σ ε α)) :
    (allSteps as).map Prod.fst = allLabels as := by
  rw [allSteps, allLabels, List.map_flatMap]
  rfl

/-- The rule for the trace of all attempts. -/
theorem trace_invariant {P : Set (Prog ι σ ε α)} {between : σ → σ → Prop}
    {stop : Attempt ι σ ε α → Prop} {s₀ : σ} {I : List (ι × σ) → Prop} (h0 : I [])
    (hprogram : ∀ p ∈ P, ∀ tr s, I tr → p.wpTrace I (fun _ _ _ => True) tr s)
    {as : List (Attempt ι σ ε α)} {s : σ} (h : History P between stop s₀ as s) :
    I (allSteps as) := by
  refine History.invariant (fun as _ => I (allSteps as)) h0 ?_ h
  intro as s a hs _ hp _
  rw [allSteps_append_singleton]
  exact Prog.wpTrace_run (hprogram _ hp _ _ hs) hs a.prefix_run

end Attempt
