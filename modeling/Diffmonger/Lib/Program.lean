import Mathlib.Data.List.Infix
import Mathlib.Logic.Relation

/-!
# Programs of atomic actions

A `Prog` is a sequential program over a shared state: a tree whose nodes are atomic actions. An
action carries a label, updates the state, and continues with a program chosen from the state it
found. Programs form a monad with exceptions, so that imperative code is written in `do` notation.

`Prog.run` executes a program alone and records every step it takes. A process that is killed
leaves the state after some prefix of these steps (`stateAfter`).

The logic is a weakest precondition, `Prog.wp`, that besides a postcondition asks an invariant of
the state after *every* step, which is what a kill may leave behind. Both may also speak about the
labels of the steps taken so far. `wp` is computed by recursion on the program, and the rules below
(`wp_bind`, `wp_handle`, `wp_forM`, …) take a program apart along its syntax. Where only the kind
of actions that a program takes matters, `Prog.Emits` says so and `wp_of_emits` is the frame rule.

A loop is bounded by a fuel argument of its own; running out of fuel ends the program with
`Result.diverged`, which no handler catches.
-/

/-- How a program ends. -/
inductive Result (ε α : Type) where
  | val (a : α)
  | exn (e : ε)
  /-- A loop ran out of fuel. -/
  | diverged
  deriving DecidableEq, Repr

/-- The result of a computation outside any program. -/
def Result.ofExcept {ε α : Type} : Except ε α → Result ε α
  | .ok a => .val a
  | .error e => .exn e

@[simp] theorem Result.ofExcept_eq_val {ε α : Type} {x : Except ε α} {a : α} :
    Result.ofExcept x = .val a ↔ x = .ok a := by
  cases x <;> simp [Result.ofExcept]

/-- A program over states `σ` that returns an `α` or throws an `ε`; `ι` labels its actions. -/
inductive Prog (ι σ ε α : Type) where
  | done (r : Result ε α)
  | act (label : ι) (update : σ → σ) (next : σ → Prog ι σ ε α)

/-- What executing a program alone does: its steps, each with the state it leads to, and its
result. -/
structure Outcome (ι σ ε α : Type) where
  steps : List (ι × σ)
  result : Result ε α

/-- The state after the given steps from `s`. -/
def stateAfter {ι σ : Type} (s : σ) (steps : List (ι × σ)) : σ :=
  (steps.getLast?.map Prod.snd).getD s

/-- The labels of the given steps. -/
abbrev labels {ι σ : Type} (steps : List (ι × σ)) : List ι := steps.map Prod.fst

namespace Prog

variable {ι σ ε α β : Type}

protected def bind : Prog ι σ ε α → (α → Prog ι σ ε β) → Prog ι σ ε β
  | done (.val a), k => k a
  | done (.exn e), _ => done (.exn e)
  | done .diverged, _ => done .diverged
  | act l u n, k => act l u fun s => (n s).bind k

instance : Monad (Prog ι σ ε) where
  pure a := done (.val a)
  bind := Prog.bind

protected def throw (e : ε) : Prog ι σ ε α := done (.exn e)

/-- Run `p`; an exception that `catches` selects is passed to the handler `h`, any other one
propagates. -/
def handle (p : Prog ι σ ε α) (catches : ε → Bool) (h : ε → Prog ι σ ε α) : Prog ι σ ε α :=
  match p with
  | done (.val a) => done (.val a)
  | done (.exn e) => if catches e then h e else done (.exn e)
  | done .diverged => done .diverged
  | act l u n => act l u fun s => (n s).handle catches h

/-- A loop without fuel. -/
def diverge : Prog ι σ ε α := done .diverged

/-- Read the state. -/
def read (l : ι) (f : σ → α) : Prog ι σ ε α := act l id fun s => pure (f s)

/-- Update the state. -/
def modify (l : ι) (u : σ → σ) : Prog ι σ ε Unit := act l u fun _ => pure ()

/-- Update the state, returning a value computed from the state before. -/
def readModify (l : ι) (f : σ → α) (u : σ → σ) : Prog ι σ ε α := act l u fun s => pure (f s)

/-- A result computed outside the program. -/
def ofResult (r : Result ε α) : Prog ι σ ε α := done r

/-- An outcome computed outside the program. -/
def ofExcept (x : Except ε α) : Prog ι σ ε α := done (.ofExcept x)

/-- Execute a program alone. -/
def run : Prog ι σ ε α → σ → Outcome ι σ ε α
  | done r, _ => ⟨[], r⟩
  | act l u n, s => ⟨(l, u s) :: ((n s).run (u s)).steps, ((n s).run (u s)).result⟩

theorem bind_assoc' {γ : Type} (p : Prog ι σ ε α) (f : α → Prog ι σ ε β)
    (g : β → Prog ι σ ε γ) : (p.bind f).bind g = p.bind fun a => (f a).bind g := by
  induction p with
  | done r => cases r <;> rfl
  | act l u n ih =>
      simp only [Prog.bind]
      congr 1
      exact funext ih

theorem bind_pure' (p : Prog ι σ ε α) : (p.bind fun a => done (.val a)) = p := by
  induction p with
  | done r => cases r <;> rfl
  | act l u n ih =>
      simp only [Prog.bind]
      congr 1
      exact funext ih

instance : LawfulMonad (Prog ι σ ε) :=
  LawfulMonad.mk' _ bind_pure' (fun _ _ => rfl) bind_assoc'

end Prog

/-! ## States along a run -/

section
variable {ι σ : Type}

@[simp] theorem stateAfter_nil (s : σ) : stateAfter (ι := ι) s [] = s := rfl

@[simp] theorem stateAfter_cons (s : σ) (x : ι × σ) (steps : List (ι × σ)) :
    stateAfter s (x :: steps) = stateAfter x.2 steps := by
  cases steps with
  | nil => rfl
  | cons y ys =>
      rw [stateAfter, stateAfter, List.getLast?_cons_cons]
      cases h : (y :: ys).getLast? with
      | none => exact absurd (List.getLast?_eq_none_iff.mp h) (List.cons_ne_nil y ys)
      | some z => rfl

end

namespace Prog

variable {ι σ ε α β : Type}

/-!
## The crash logic

The rules are those of weakest preconditions, with one more condition for each step. A process that
may be killed at any moment has to keep `I` after every step, not only in the end.
-/

/-- `p`, started in `s` after steps labelled `tr`, keeps `I` after each of its steps and ends in
`Q`. -/
def wp (I : List ι → σ → Prop) (Q : Result ε α → List ι → σ → Prop) :
    Prog ι σ ε α → List ι → σ → Prop
  | done r, tr, s => Q r tr s
  | act l u n, tr, s => I (tr ++ [l]) (u s) ∧ (n s).wp I Q (tr ++ [l]) (u s)

section
variable {I : List ι → σ → Prop} {Q : Result ε α → List ι → σ → Prop} {tr : List ι} {s : σ}

/-- `wp` speaks about the state after every nonempty prefix of the run, and about its end. -/
theorem wp_iff_run (p : Prog ι σ ε α) (tr : List ι) (s : σ) :
    p.wp I Q tr s ↔
      (∀ steps, steps <+: (p.run s).steps → steps ≠ [] →
        I (tr ++ labels steps) (stateAfter s steps)) ∧
      Q (p.run s).result (tr ++ labels (p.run s).steps) (stateAfter s (p.run s).steps) := by
  induction p generalizing tr s with
  | done r => simp +contextual [wp, run]
  | act l u n ih =>
      simp only [wp, run, ih, stateAfter_cons, labels, List.map_cons, List.append_assoc,
        List.singleton_append]
      rw [← and_assoc]
      refine and_congr_left fun _ => ⟨?_, fun h => ⟨?_, ?_⟩⟩
      · rintro ⟨h1, h2⟩ steps hp hne
        rcases List.prefix_cons_iff.mp hp with rfl | ⟨rest, rfl, hrest⟩
        · exact absurd rfl hne
        · rcases eq_or_ne rest [] with rfl | hne'
          · simpa using h1
          · simpa using h2 rest hrest hne'
      · simpa using h [(l, u s)] (by simp) (by simp)
      · intro steps hp _
        simpa using h ((l, u s) :: steps) (by simpa using hp) (by simp)

theorem wp_mono {I' : List ι → σ → Prop} {Q' : Result ε α → List ι → σ → Prop}
    (hI : ∀ tr s, I tr s → I' tr s) (hQ : ∀ r tr s, Q r tr s → Q' r tr s)
    (p : Prog ι σ ε α) {tr : List ι} {s : σ} (h : p.wp I Q tr s) : p.wp I' Q' tr s := by
  induction p generalizing tr s with
  | done r => exact hQ _ _ _ h
  | act l u n ih => exact ⟨hI _ _ h.1, ih _ h.2⟩

theorem wp_post {Q' : Result ε α → List ι → σ → Prop} (hQ : ∀ r tr s, Q r tr s → Q' r tr s)
    {p : Prog ι σ ε α} (h : p.wp I Q tr s) : p.wp I Q' tr s :=
  wp_mono (fun _ _ => id) hQ p h

theorem wp_and {I' : List ι → σ → Prop} {Q' : Result ε α → List ι → σ → Prop}
    {p : Prog ι σ ε α} (h : p.wp I Q tr s) (h' : p.wp I' Q' tr s) :
    p.wp (fun tr s => I tr s ∧ I' tr s) (fun r tr s => Q r tr s ∧ Q' r tr s) tr s := by
  rw [wp_iff_run] at *
  exact ⟨fun steps hp hne => ⟨h.1 steps hp hne, h'.1 steps hp hne⟩, h.2, h'.2⟩

@[simp] theorem wp_pure (a : α) : (pure a : Prog ι σ ε α).wp I Q tr s ↔ Q (.val a) tr s := Iff.rfl

@[simp] theorem wp_throw (e : ε) : (Prog.throw e : Prog ι σ ε α).wp I Q tr s ↔ Q (.exn e) tr s :=
  Iff.rfl

@[simp] theorem wp_diverge : (diverge : Prog ι σ ε α).wp I Q tr s ↔ Q .diverged tr s := Iff.rfl

@[simp] theorem wp_ofResult (r : Result ε α) :
    (ofResult r : Prog ι σ ε α).wp I Q tr s ↔ Q r tr s := Iff.rfl

@[simp] theorem wp_read (l : ι) (f : σ → α) :
    (read l f : Prog ι σ ε α).wp I Q tr s ↔ I (tr ++ [l]) s ∧ Q (.val (f s)) (tr ++ [l]) s :=
  Iff.rfl

@[simp] theorem wp_readModify (l : ι) (f : σ → α) (u : σ → σ) :
    (readModify l f u : Prog ι σ ε α).wp I Q tr s ↔
      I (tr ++ [l]) (u s) ∧ Q (.val (f s)) (tr ++ [l]) (u s) :=
  Iff.rfl

@[simp] theorem wp_modify (l : ι) (u : σ → σ) {Q : Result ε Unit → List ι → σ → Prop} :
    (modify l u : Prog ι σ ε Unit).wp I Q tr s ↔
      I (tr ++ [l]) (u s) ∧ Q (.val ()) (tr ++ [l]) (u s) :=
  Iff.rfl

@[simp] theorem wp_ofExcept (x : Except ε α) :
    (ofExcept x : Prog ι σ ε α).wp I Q tr s ↔ Q (.ofExcept x) tr s := Iff.rfl

end

/-- What is asked of the end of `p` in `p >>= k`. -/
@[simp] def bindPost (k : α → Prog ι σ ε β) (I : List ι → σ → Prop)
    (Q : Result ε β → List ι → σ → Prop) : Result ε α → List ι → σ → Prop
  | .val a, tr, s => (k a).wp I Q tr s
  | .exn e, tr, s => Q (.exn e) tr s
  | .diverged, tr, s => Q .diverged tr s

/-- A postcondition for the runs that return. -/
@[simp] def onVal (Q : α → List ι → σ → Prop) : Result ε α → List ι → σ → Prop
  | .val a, tr, s => Q a tr s
  | .exn _, _, _ => True
  | .diverged, _, _ => True

/-- What is asked of the end of `p` in `p.handle catches h`. -/
@[simp] def handlePost (catches : ε → Bool) (h : ε → Prog ι σ ε α) (I : List ι → σ → Prop)
    (Q : Result ε α → List ι → σ → Prop) : Result ε α → List ι → σ → Prop
  | .val a, tr, s => Q (.val a) tr s
  | .exn e, tr, s => if catches e then (h e).wp I Q tr s else Q (.exn e) tr s
  | .diverged, tr, s => Q .diverged tr s

section
variable {I : List ι → σ → Prop} {tr : List ι} {s : σ}

@[simp] theorem wp_bind {Q : Result ε β → List ι → σ → Prop} (p : Prog ι σ ε α)
    (k : α → Prog ι σ ε β) : (p >>= k).wp I Q tr s ↔ p.wp I (bindPost k I Q) tr s := by
  induction p generalizing tr s with
  | done r => cases r <;> rfl
  | act l u n ih => exact and_congr_right fun _ => ih s

/-- A trace only grows. -/
theorem wp_mem {l : ι} (p : Prog ι σ ε α) (s : σ) (h : l ∈ tr) :
    p.wp (fun _ _ => True) (fun _ tr _ => l ∈ tr) tr s := by
  induction p generalizing tr s with
  | done r => exact h
  | act l' u n ih => exact ⟨trivial, ih s (u s) (List.mem_append_left _ h)⟩

/-- An action of the first part is an action of the sequence. -/
theorem wp_bind_mem {l : ι} {p : Prog ι σ ε α} {k : α → Prog ι σ ε β}
    (h : p.wp (fun _ _ => True) (fun _ tr _ => l ∈ tr) tr s) :
    (p >>= k).wp (fun _ _ => True) (fun _ tr _ => l ∈ tr) tr s := by
  rw [wp_bind]
  refine wp_post (fun r tr s hmem => ?_) h
  cases r with
  | val a => exact wp_mem (k a) s hmem
  | exn _ => exact hmem
  | diverged => exact hmem

/-- A sequence returns if both of its parts do. -/
theorem wp_bind_onVal {Q : β → List ι → σ → Prop} (p : Prog ι σ ε α) (k : α → Prog ι σ ε β) :
    (p >>= k).wp I (onVal Q) tr s ↔ p.wp I (onVal fun a => (k a).wp I (onVal Q)) tr s := by
  rw [wp_bind]
  have heq : bindPost k I (onVal Q) = (onVal fun a => (k a).wp I (onVal Q) : Result ε α → _) := by
    funext r tr s
    cases r <;> rfl
  rw [heq]

theorem onVal_iff {Q : α → List ι → σ → Prop} {r : Result ε α} :
    onVal Q r tr s ↔ ∀ a, r = .val a → Q a tr s := by
  cases r <;> simp

theorem wp_onVal_mono {P Q : α → List ι → σ → Prop} (hQ : ∀ a tr s, P a tr s → Q a tr s)
    {p : Prog ι σ ε α} (h : p.wp I (onVal P) tr s) : p.wp I (onVal Q) tr s :=
  wp_post (fun _ tr s hr => onVal_iff.mpr fun a ha => hQ a tr s (onVal_iff.mp hr a ha)) h

/-- Where the first part has not returned, that is how the sequence ends. -/
theorem bindPost_of_ne {k : α → Prog ι σ ε β} {Q : Result ε β → List ι → σ → Prop}
    (hQ : ∀ r : Result ε β, (∀ b, r ≠ .val b) → Q r tr s) {r : Result ε α}
    (hr : ∀ a, r ≠ .val a) : bindPost k I Q r tr s := by
  cases r with
  | val a => exact absurd rfl (hr a)
  | exn e => exact hQ _ (by simp)
  | diverged => exact hQ _ (by simp)

/-- The second part is run only where the first one has returned. -/
theorem wp_bind_of_onVal {P : α → List ι → σ → Prop} {Q : β → List ι → σ → Prop}
    {p : Prog ι σ ε α} {k : α → Prog ι σ ε β} (hp : p.wp I (onVal P) tr s)
    (hk : ∀ a tr s, P a tr s → (k a).wp I (onVal Q) tr s) : (p >>= k).wp I (onVal Q) tr s :=
  (wp_bind_onVal p k).mpr (wp_onVal_mono hk hp)

@[simp] theorem wp_handle {Q : Result ε α → List ι → σ → Prop} (p : Prog ι σ ε α)
    (catches : ε → Bool) (h : ε → Prog ι σ ε α) :
    (p.handle catches h).wp I Q tr s ↔ p.wp I (handlePost catches h I Q) tr s := by
  induction p generalizing tr s with
  | done r =>
      cases r with
      | exn e => simp only [handle, wp, handlePost]; split <;> rfl
      | val a => rfl
      | diverged => rfl
  | act l u n ih => exact and_congr_right fun _ => ih s

/-- What is asked of the end of one iteration of a loop: the loop's invariant, unless it left the
loop. -/
@[simp] def stepPost (J : List ι → σ → Prop) (Q : Result ε β → List ι → σ → Prop) :
    Result ε α → List ι → σ → Prop
  | .val _, tr, s => J tr s
  | .exn e, tr, s => Q (.exn e) tr s
  | .diverged, tr, s => Q .diverged tr s

/-- The rule for a loop over a list: `J treated` holds once the elements `treated` have been. -/
theorem wp_forM {γ : Type} {Q : Result ε PUnit → List ι → σ → Prop}
    {f : γ → Prog ι σ ε PUnit} (J : List γ → List ι → σ → Prop) (l : List γ)
    (hbody : ∀ treated a rest, l = treated ++ a :: rest → ∀ tr s, J treated tr s →
      (f a).wp I (stepPost (J (treated ++ [a])) Q) tr s)
    (hend : ∀ tr s, J l tr s → Q (.val ⟨⟩) tr s) (hs : J [] tr s) :
    (forM l f : Prog ι σ ε PUnit).wp I Q tr s := by
  suffices h : ∀ rest treated, l = treated ++ rest → ∀ tr s, J treated tr s →
      (forM rest f : Prog ι σ ε PUnit).wp I Q tr s from h l [] rfl tr s hs
  intro rest
  induction rest with
  | nil =>
      intro treated hl tr s hJ
      rw [List.append_nil] at hl
      exact hend tr s (hl ▸ hJ)
  | cons a rest ih =>
      intro treated hl tr s hJ
      rw [List.forM_cons, wp_bind]
      refine wp_post ?_ (hbody treated a rest hl tr s hJ)
      intro r tr s h
      cases r with
      | val _ => exact ih (treated ++ [a]) (by simp [hl]) tr s h
      | exn _ => exact h
      | diverged => exact h

end

/-!
## The kinds of actions a program takes

What can be said of a program without running it. A program that only takes actions of a certain
kind keeps whatever these actions keep, which is the frame rule `wp_of_emits`.
-/

/-- Every action that `p` may take, in whatever state, is of the kind `C`. -/
def Emits (C : ι → (σ → σ) → Prop) : Prog ι σ ε α → Prop
  | done _ => True
  | act l u n => C l u ∧ ∀ s, (n s).Emits C

section
variable {C : ι → (σ → σ) → Prop}

@[simp] theorem emits_pure (a : α) : (pure a : Prog ι σ ε α).Emits C := trivial

@[simp] theorem emits_throw (e : ε) : (Prog.throw e : Prog ι σ ε α).Emits C := trivial

@[simp] theorem emits_diverge : (diverge : Prog ι σ ε α).Emits C := trivial

@[simp] theorem emits_ofResult (r : Result ε α) : (ofResult r : Prog ι σ ε α).Emits C := trivial

@[simp] theorem emits_ofExcept (x : Except ε α) : (ofExcept x : Prog ι σ ε α).Emits C := trivial

@[simp] theorem emits_read (l : ι) (f : σ → α) :
    (read l f : Prog ι σ ε α).Emits C ↔ C l id := and_iff_left fun _ => trivial

@[simp] theorem emits_modify (l : ι) (u : σ → σ) :
    (modify l u : Prog ι σ ε Unit).Emits C ↔ C l u := and_iff_left fun _ => trivial

@[simp] theorem emits_readModify (l : ι) (f : σ → α) (u : σ → σ) :
    (readModify l f u : Prog ι σ ε α).Emits C ↔ C l u := and_iff_left fun _ => trivial

theorem emits_bind {p : Prog ι σ ε α} {k : α → Prog ι σ ε β} (hp : p.Emits C)
    (hk : ∀ a, (k a).Emits C) : (p >>= k).Emits C := by
  induction p with
  | done r =>
      cases r with
      | val a => exact hk a
      | exn _ => trivial
      | diverged => trivial
  | act l u n ih => exact ⟨hp.1, fun s => ih s (hp.2 s)⟩

theorem emits_handle {p : Prog ι σ ε α} {catches : ε → Bool} {h : ε → Prog ι σ ε α}
    (hp : p.Emits C) (hh : ∀ e, (h e).Emits C) : (p.handle catches h).Emits C := by
  induction p with
  | done r =>
      cases r with
      | exn e =>
          simp only [handle]
          split
          · exact hh e
          · trivial
      | val a => trivial
      | diverged => trivial
  | act l u n ih => exact ⟨hp.1, fun s => ih s (hp.2 s)⟩

theorem emits_forM {γ : Type} {f : γ → Prog ι σ ε PUnit} (hf : ∀ a, (f a).Emits C) (l : List γ) :
    (forM l f : Prog ι σ ε PUnit).Emits C := by
  induction l with
  | nil => trivial
  | cons a l ih => exact emits_bind (hf a) fun _ => ih

theorem Emits.mono {C' : ι → (σ → σ) → Prop} (h : ∀ l u, C l u → C' l u) {p : Prog ι σ ε α}
    (hp : p.Emits C) : p.Emits C' := by
  induction p with
  | done r => trivial
  | act l u n ih => exact ⟨h l u hp.1, fun s => ih s (hp.2 s)⟩

/-- The frame rule: what no action of the kind `C` destroys holds throughout a program that takes
only such actions. -/
theorem wp_of_emits {R : List ι → σ → Prop} {p : Prog ι σ ε α} (hp : p.Emits C)
    (hC : ∀ l u tr s, C l u → R tr s → R (tr ++ [l]) (u s)) {tr : List ι} {s : σ} (hs : R tr s) :
    p.wp R (fun _ => R) tr s := by
  induction p generalizing tr s with
  | done r => exact hs
  | act l u n ih => exact ⟨hC l u tr s hp.1 hs, ih s (hp.2 s) (hC l u tr s hp.1 hs)⟩

end

/-!
## Where a program ends

`Ends` forgets what is on the way. It goes with `Emits`: the one says what holds at the end, the
other what holds all the time.
-/

/-- `p`, started in `s`, ends in `Q`. -/
def Ends (Q : Result ε α → σ → Prop) (p : Prog ι σ ε α) (s : σ) : Prop :=
  ∀ tr, p.wp (fun _ _ => True) (fun r _ => Q r) tr s

/-- What holds throughout and what holds at the end. -/
theorem Ends.wp_of_emits {C : ι → (σ → σ) → Prop} {R : List ι → σ → Prop}
    {Q : Result ε α → σ → Prop} {p : Prog ι σ ε α} {s : σ} (h : p.Ends Q s) (hp : p.Emits C)
    (hC : ∀ l u tr s, C l u → R tr s → R (tr ++ [l]) (u s)) {tr : List ι} (hs : R tr s) :
    p.wp R (fun r tr s => R tr s ∧ Q r s) tr s :=
  wp_mono (fun _ _ h => h.1) (fun _ _ _ h => h) p (wp_and (Prog.wp_of_emits hp hC hs) (h tr))

theorem ends_iff_run {Q : Result ε α → σ → Prop} {p : Prog ι σ ε α} {s : σ} :
    p.Ends Q s ↔ Q (p.run s).result (stateAfter s (p.run s).steps) :=
  ⟨fun h => ((wp_iff_run p [] s).mp (h [])).2, fun h tr => (wp_iff_run p tr s).mpr ⟨by simp, h⟩⟩

theorem ends_trivial {p : Prog ι σ ε α} {s : σ} : p.Ends (fun _ _ => True) s :=
  ends_iff_run.mpr trivial

/-! ## Kills -/

/-- A killed process leaves its starting state, or a state of its crash invariant. -/
theorem wp_killed {I : List ι → σ → Prop} {Q : Result ε α → List ι → σ → Prop}
    {p : Prog ι σ ε α} {tr : List ι} {s : σ} (h : p.wp I Q tr s) (hs : I tr s)
    {steps : List (ι × σ)} (hp : steps <+: (p.run s).steps) :
    I (tr ++ labels steps) (stateAfter s steps) := by
  rcases eq_or_ne steps [] with rfl | hne
  · simpa using hs
  · exact ((wp_iff_run p tr s).mp h).1 steps hp hne

/-- The end of a run that is not cut short. -/
theorem wp_run {I : List ι → σ → Prop} {Q : Result ε α → List ι → σ → Prop}
    {p : Prog ι σ ε α} {tr : List ι} {s : σ} (h : p.wp I Q tr s) :
    Q (p.run s).result (tr ++ labels (p.run s).steps) (stateAfter s (p.run s).steps) :=
  ((wp_iff_run p tr s).mp h).2

theorem wp_run_nil {I : List ι → σ → Prop} {Q : Result ε α → List ι → σ → Prop}
    {p : Prog ι σ ε α} {s : σ} (h : p.wp I Q [] s) :
    Q (p.run s).result (labels (p.run s).steps) (stateAfter s (p.run s).steps) := wp_run h

end Prog
