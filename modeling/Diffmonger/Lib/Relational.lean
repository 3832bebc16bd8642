import Diffmonger.Lib.Program

/-!
# Two programs side by side

`Prog.Matches J R p q s t` compares a run of `p` from `s` with one of `q` from `t`, each on states
of its own: whenever `p` returns, `q` returns as well, and `R` relates the values and the states
that they end with. The set `J` is a way out: nothing is asked of `q` if `p` has got there.

The rules take the two programs apart together. What they have in common has to be looked at only
once, and a part that only the first one has must lead to `J`.
-/

namespace Prog

variable {ι ι' σ τ ε ε' α α' β β' : Type}

/-! ## Where one program ends -/

section
variable {p : Prog ι σ ε α} {s : σ}

/-- A sequence whose first part returns ends where the second part does. -/
theorem Ends.bind_val {P : α → σ → Prop} {Q : Result ε β → σ → Prop} {k : α → Prog ι σ ε β}
    (hp : p.Ends (fun r s' => ∃ a, r = .val a ∧ P a s') s)
    (hk : ∀ a s', P a s' → (k a).Ends Q s') : (p >>= k).Ends Q s := by
  intro tr
  rw [wp_bind]
  refine wp_post ?_ (hp tr)
  rintro r tr s' ⟨a, rfl, ha⟩
  exact hk a s' ha tr

/-- The program may throw. If it returns, it ends in `P`. -/
def EndsIn (P : α → σ → Prop) (p : Prog ι σ ε α) (s : σ) : Prop :=
  p.Ends (fun r s' => ∀ a, r = .val a → P a s') s

theorem EndsIn.bind {P : α → σ → Prop} {Q : β → σ → Prop} {k : α → Prog ι σ ε β}
    (hp : p.EndsIn P s) (hk : ∀ a s', P a s' → (k a).EndsIn Q s') : (p >>= k).EndsIn Q s := by
  intro tr
  rw [wp_bind]
  refine wp_post ?_ (hp tr)
  intro r tr s' h
  cases r with
  | val a => exact hk a s' (h a rfl) tr
  | exn e => intro b hb; cases hb
  | diverged => intro b hb; cases hb

theorem EndsIn.mono {P Q : α → σ → Prop} (h : p.EndsIn P s) (hPQ : ∀ a s', P a s' → Q a s') :
    p.EndsIn Q s :=
  fun tr => wp_post (fun _ _ s' hr a ha => hPQ a s' (hr a ha)) (h tr)

/-- What none of a program's actions destroys holds where it returns. -/
theorem endsIn_of_emits {J : σ → Prop} (hp : p.Emits fun _ u => ∀ s, J s → J (u s)) (hs : J s) :
    p.EndsIn (fun _ => J) s := by
  intro tr
  have hkeeps : p.wp (fun _ => J) (fun _ _ => J) tr s :=
    wp_of_emits (R := fun _ => J) hp (fun _ _ _ s hu hs => hu s hs) hs
  exact wp_mono (fun _ _ _ => trivial) (fun _ _ _ h _ _ => h) p hkeeps

end

/-!
## Comparing two programs

The rules are by the structure of the first program: `pure`, sequencing, and a loop over a list. The
state predicate `J` is a way out, for runs in which the first program has got to a point from which
the second one does not have to follow.
-/

/-- Whenever `p` returns from `s`, it has got to `J`, or else `q` returns from `t`, and `R` relates
how they end. -/
def Matches (J : σ → Prop) (R : α → β → σ → τ → Prop) (p : Prog ι σ ε α) (q : Prog ι' τ ε' β)
    (s : σ) (t : τ) : Prop :=
  p.EndsIn (fun a s' => J s' ∨ q.Ends (fun r t' => ∃ b, r = .val b ∧ R a b s' t') t) s

section
variable {J : σ → Prop} {R : α → β → σ → τ → Prop} {p : Prog ι σ ε α} {q : Prog ι' τ ε' β}
  {s : σ} {t : τ}

theorem matches_pure {a : α} {b : β} (h : R a b s t) :
    (pure a : Prog ι σ ε α).Matches J R (pure b : Prog ι' τ ε' β) s t := by
  intro tr a' ha'
  cases ha'
  exact Or.inr fun tr => ⟨b, rfl, h⟩

theorem matches_throw {e : ε} : (Prog.throw e : Prog ι σ ε α).Matches J R q s t := by
  intro tr a ha
  cases ha

/-- The way out. -/
theorem matches_of_endsIn (h : p.EndsIn (fun _ => J) s) : p.Matches J R q s t :=
  h.mono fun _ _ => Or.inl

/-- Where the first program returns, the second one has returned, too. -/
theorem Matches.endsIn (h : p.Matches (fun _ => False) R q s t) :
    p.EndsIn (fun a s' => ∃ b t', R a b s' t') s := by
  refine EndsIn.mono h fun a s' ha => ?_
  obtain hfalse | hq := ha
  · exact hfalse.elim
  · obtain ⟨b, -, hR⟩ := ends_iff_run.mp hq
    exact ⟨b, _, hR⟩

/-- What a run of the first program says about the second one. -/
theorem Matches.ends {a : α} {s' : σ} (h : p.Matches J R q s t)
    (hp : p.Ends (fun r s'' => r = .val a ∧ s'' = s') s) :
    J s' ∨ ∃ b t', q.Ends (fun r t'' => r = .val b ∧ t'' = t') t ∧ R a b s' t' := by
  obtain ⟨ha, rfl⟩ := ends_iff_run.mp hp
  refine (ends_iff_run.mp h a ha).imp_right fun hq => ?_
  obtain ⟨b, hb, hR⟩ := ends_iff_run.mp hq
  exact ⟨b, _, ends_iff_run.mpr ⟨hb, rfl⟩, hR⟩

/-- Two sequences: the first parts end in related ways, and from there the second parts match. -/
theorem Matches.bind {R' : α' → β' → σ → τ → Prop} {k : α → Prog ι σ ε α'}
    {l : β → Prog ι' τ ε' β'} (hp : p.Matches (fun _ => False) R q s t)
    (hk : ∀ a b s t, R a b s t → (k a).Matches J R' (l b) s t) :
    (p >>= k).Matches J R' (q >>= l) s t := by
  refine EndsIn.bind hp fun a s' ha => ?_
  obtain hfalse | hq := ha
  · exact hfalse.elim
  · -- where `q` ends is determined
    obtain ⟨b, hb, hR⟩ := ends_iff_run.mp hq
    have hq' : q.Ends (fun r t' => ∃ b', r = .val b' ∧
        (b' = b ∧ t' = stateAfter t (q.run t).steps)) t :=
      ends_iff_run.mpr ⟨b, hb, rfl, rfl⟩
    refine (hk a b s' _ hR).mono fun a' s'' => Or.imp_right fun hl => ?_
    refine hq'.bind_val ?_
    rintro b' t' ⟨rfl, rfl⟩
    exact hl

/-- Handlers that never return do not matter. -/
theorem Matches.handle {catches : ε → Bool} {h : ε → Prog ι σ ε α} {catches' : ε' → Bool}
    {h' : ε' → Prog ι' τ ε' β} (hp : p.Matches J R q s t)
    (hthrows : ∀ e s, (h e).EndsIn (fun _ _ => False) s) :
    (p.handle catches h).Matches J R (q.handle catches' h') s t := by
  intro tr
  rw [wp_handle]
  refine wp_post ?_ (hp tr)
  intro r tr s' hr
  cases r with
  | val a =>
      intro a' ha'
      cases ha'
      refine (hr a rfl).imp_right fun hq tr => ?_
      rw [wp_handle]
      refine wp_post ?_ (hq tr)
      rintro r tr t' ⟨b, rfl, hR⟩
      exact ⟨b, rfl, hR⟩
  | exn e =>
      rw [handlePost]
      split
      · exact wp_post (fun _ _ _ h a ha => (h a ha).elim) (hthrows e s' tr)
      · intro a ha
        cases ha
  | diverged =>
      intro a ha
      cases ha

theorem matches_readModify {l : ι} {f : σ → α} {u : σ → σ} {l' : ι'} {f' : τ → β} {u' : τ → τ}
    (h : R (f s) (f' t) (u s) (u' t)) :
    (readModify l f u : Prog ι σ ε α).Matches J R (readModify l' f' u' : Prog ι' τ ε' β) s t := by
  intro tr
  refine ⟨trivial, fun a ha => ?_⟩
  cases ha
  exact Or.inr fun tr => ⟨trivial, _, rfl, h⟩

end

end Prog
