import Diffmonger.Lib.Program

/-!
# Programs under interference

An `Interleaving` is a program that runs while an environment changes the state between any two of
its actions. `Prog.wpUnder` is the weakest precondition under such interference. Since the state
that an action finds is then hardly known, it often matters only which actions a program takes
(`Prog.Emits`) and which values it may return (`Prog.Returns`).
-/

/-- `p` started in `s` has become `q` in the state reached, while the environment took steps of its
own. -/
inductive Interleaving {ι σ ε α : Type} (env : σ → σ → Prop) (p : Prog ι σ ε α) (s : σ) :
    Prog ι σ ε α → σ → Prop
  | start : Interleaving env p s p s
  | environment {q : Prog ι σ ε α} {t t' : σ} (before : Interleaving env p s q t)
      (step : env t t') : Interleaving env p s q t'
  | program {l : ι} {u : σ → σ} {n : σ → Prog ι σ ε α} {t : σ}
      (before : Interleaving env p s (.act l u n) t) : Interleaving env p s (n t) (u t)

/-- A program that goes on alone to its end. -/
theorem Interleaving.run {ι σ ε α : Type} {env : σ → σ → Prop} {p q : Prog ι σ ε α} {s t : σ}
    (h : Interleaving env p s q t) :
    Interleaving env p s (.done (q.run t).result) (stateAfter t (q.run t).steps) := by
  induction q generalizing t with
  | done r => exact h
  | act l u n ih =>
      have hstep := ih t (.program h)
      rwa [Prog.run, stateAfter_cons]

namespace Prog

open Relation

variable {ι σ ε α β : Type}

/-!
## What a program may return

Nothing is known here of the states that the program finds. What it may return is what its text
allows.
-/

/-- Whatever states `p` finds, a value that it returns satisfies `P`. -/
def Returns (P : α → Prop) : Prog ι σ ε α → Prop
  | done (.val a) => P a
  | done _ => True
  | act _ _ n => ∀ s, (n s).Returns P

section
variable {P : α → Prop}

@[simp] theorem returns_pure (a : α) : (pure a : Prog ι σ ε α).Returns P ↔ P a := Iff.rfl

@[simp] theorem returns_throw (e : ε) : (Prog.throw e : Prog ι σ ε α).Returns P := trivial

theorem returns_trivial (p : Prog ι σ ε α) : p.Returns fun _ => True := by
  induction p with
  | done r => cases r <;> trivial
  | act l u n ih => exact ih

theorem returns_bind {Q : β → Prop} {p : Prog ι σ ε α} {k : α → Prog ι σ ε β} (hp : p.Returns P)
    (hk : ∀ a, P a → (k a).Returns Q) : (p >>= k).Returns Q := by
  induction p with
  | done r =>
      cases r with
      | val a => exact hk a hp
      | exn _ => trivial
      | diverged => trivial
  | act l u n ih => exact fun s => ih s (hp s)

/-- In particular where it ends when nothing interferes. -/
theorem Returns.ends {p : Prog ι σ ε α} (h : p.Returns P) (s : σ) :
    p.Ends (fun r _ => ∀ a, r = .val a → P a) s := by
  intro tr
  induction p generalizing s tr with
  | done r =>
      rintro a rfl
      exact h
  | act l u n ih => exact ⟨trivial, ih s (h s) (u s) (tr ++ [l])⟩

end

/-!
## The logic

`wpUnder` is to runs among the steps of an environment what `wp` is to runs by oneself: before each
of its own steps the program finds any state that the environment may have made of the last one.
-/

section
variable {env : σ → σ → Prop} {I : σ → Prop}

/-- `p`, started in `s` among steps of the environment, keeps `I` after each of its own steps. -/
def wpUnder (env : σ → σ → Prop) (I : σ → Prop) : Prog ι σ ε α → σ → Prop
  | done _, _ => True
  | act _ u n, s => ∀ t, ReflTransGen env s t → I (u t) ∧ (n t).wpUnder env I (u t)

@[simp] theorem wpUnder_pure (a : α) (s : σ) : (pure a : Prog ι σ ε α).wpUnder env I s := trivial

@[simp] theorem wpUnder_throw (e : ε) (s : σ) :
    (Prog.throw e : Prog ι σ ε α).wpUnder env I s := trivial

@[simp] theorem wpUnder_diverge (s : σ) : (diverge : Prog ι σ ε α).wpUnder env I s := trivial

/-- A step of the environment does not disturb `wpUnder`. -/
theorem wpUnder_stable {p : Prog ι σ ε α} {s t : σ} (h : p.wpUnder env I s)
    (hst : ReflTransGen env s t) : p.wpUnder env I t := by
  cases p with
  | done r => trivial
  | act l u n => exact fun t' ht' => h t' (hst.trans ht')

/-- Every state met satisfies the invariant, if the environment respects it. -/
theorem wpUnder_sound {p : Prog ι σ ε α} {s : σ} (h : p.wpUnder env I s) (hs : I s)
    (henv : ∀ s t, env s t → I s → I t) {q : Prog ι σ ε α} {t : σ}
    (hreach : Interleaving env p s q t) : I t ∧ q.wpUnder env I t := by
  induction hreach with
  | start => exact ⟨hs, h⟩
  | environment _ hstep ih => exact ⟨henv _ _ hstep ih.1, wpUnder_stable ih.2 (.single hstep)⟩
  | program _ ih => exact ih.2 _ .refl

end

section
variable {env : σ → σ → Prop} {I R : σ → Prop}

theorem invariant_of_steps (henv : ∀ s t, env s t → R s → R t) {s t : σ} (hs : R s)
    (h : ReflTransGen env s t) : R t := by
  induction h with
  | refl => exact hs
  | tail _ hstep ih => exact henv _ _ hstep ih

/-- A read action, in a program that keeps `R`. -/
theorem wpUnder_read_bind (henv : ∀ s t, env s t → R s → R t) (hRI : ∀ s, R s → I s) {l : ι}
    {f : σ → α} {k : α → Prog ι σ ε β} {s : σ} (hs : R s)
    (hk : ∀ t, R t → (k (f t)).wpUnder env I t) :
    ((read l f : Prog ι σ ε α) >>= k).wpUnder env I s := by
  intro t ht
  have hR := invariant_of_steps henv hs ht
  exact ⟨hRI t hR, hk t hR⟩

/-- The frame rule: a program that keeps `R` by the kind of its actions, followed by another one
that may rely on what it returns. -/
theorem wpUnder_bind {C : ι → (σ → σ) → Prop} {P : α → Prop} {p : Prog ι σ ε α}
    {k : α → Prog ι σ ε β} (hp : p.Emits C) (hr : p.Returns P)
    (hC : ∀ l u s, C l u → R s → R (u s)) (henv : ∀ s t, env s t → R s → R t)
    (hRI : ∀ s, R s → I s) {s : σ} (hs : R s)
    (hk : ∀ a t, P a → R t → (k a).wpUnder env I t) : (p >>= k).wpUnder env I s := by
  induction p generalizing s with
  | done r =>
      cases r with
      | val a => exact hk a s hr hs
      | exn _ => trivial
      | diverged => trivial
  | act l u n ih =>
      intro t ht
      have hu := hC l u t hp.1 (invariant_of_steps henv hs ht)
      exact ⟨hRI _ hu, ih t (hp.2 t) (hr t) hu⟩

end

end Prog
