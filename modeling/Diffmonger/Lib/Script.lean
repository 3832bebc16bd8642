import Diffmonger.Lib.Program

/-!
# Programs whose actions are known beforehand

A program that does not look at the state, other than to see whether an action fails, performs a
fixed list of actions. `Prog.Performs` says which, and composes along the syntax of the program;
`Performs.prefix_run` and `Performs.run` say what it means for a run.
-/

namespace Prog

variable {ι σ ε α β : Type}

/-- Whatever states `p` finds, its actions are labelled `ls` and it returns `a`, unless an exception
cuts it short. -/
def Performs : List ι → α → Prog ι σ ε α → Prop
  | ls, a, done (.val a') => ls = [] ∧ a' = a
  | _, _, done _ => True
  | ls, a, act l _ n => ∃ rest, ls = l :: rest ∧ ∀ s, (n s).Performs rest a

@[simp] theorem performs_pure (a : α) : (pure a : Prog ι σ ε α).Performs [] a := ⟨rfl, rfl⟩

theorem performs_ofExcept (x : Except ε Unit) :
    (ofExcept x : Prog ι σ ε Unit).Performs [] () := by
  cases x with
  | ok _ => exact ⟨rfl, rfl⟩
  | error _ => trivial

theorem performs_bind {ls ls' : List ι} {a : α} {b : β} {p : Prog ι σ ε α} {k : α → Prog ι σ ε β}
    (hp : p.Performs ls a) (hk : (k a).Performs ls' b) : (p >>= k).Performs (ls ++ ls') b := by
  induction p generalizing ls with
  | done r =>
      cases r with
      | val a' =>
          obtain ⟨rfl, rfl⟩ := hp
          exact hk
      | exn _ => trivial
      | diverged => trivial
  | act l u n ih =>
      obtain ⟨rest, rfl, hrest⟩ := hp
      exact ⟨rest ++ ls', rfl, fun s => ih s (hrest s)⟩

/-- A handler that throws in turn changes nothing. -/
theorem performs_handle {ls : List ι} {a : α} {p : Prog ι σ ε α} {catches : ε → Bool} {f : ε → ε}
    (hp : p.Performs ls a) : (p.handle catches fun e => Prog.throw (f e)).Performs ls a := by
  induction p generalizing ls with
  | done r =>
      cases r with
      | val a' => exact hp
      | exn e => simp only [handle]; split <;> trivial
      | diverged => trivial
  | act l u n ih =>
      obtain ⟨rest, rfl, hrest⟩ := hp
      exact ⟨rest, rfl, fun s => ih s (hrest s)⟩

section
variable {ls : List ι} {a : α} {p : Prog ι σ ε α} (h : p.Performs ls a) (s : σ)
include h

theorem Performs.prefix_run : labels (p.run s).steps <+: ls := by
  induction p generalizing ls s with
  | done r => exact List.nil_prefix
  | act l u n ih =>
      obtain ⟨rest, rfl, hrest⟩ := h
      exact (List.prefix_cons_inj l).mpr (ih s (hrest s) (u s))

theorem Performs.run {a' : α} (hr : (p.run s).result = .val a') :
    labels (p.run s).steps = ls ∧ a' = a := by
  induction p generalizing ls s with
  | done r =>
      obtain rfl : r = .val a' := hr
      exact ⟨h.1.symm, h.2⟩
  | act l u n ih =>
      obtain ⟨rest, rfl, hrest⟩ := h
      obtain ⟨hlabels, ha⟩ := ih s (hrest s) (u s) hr
      exact ⟨congrArg (l :: ·) hlabels, ha⟩

end

end Prog
