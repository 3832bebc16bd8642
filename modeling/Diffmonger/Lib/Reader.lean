import Mathlib.Data.List.Infix

/-!
# Readers

A reader takes a value off the front of a list, or fails: it is a program of the monad
`StateT (List ι) (Except ε)`, whose state is what is left to be read. `Reads E p w a` says that `p`
takes exactly the word `w` off the front, for the value `a`, whatever follows, and that on a word
that has been cut short it fails with an error of the kind `E`. Such readers can be sequenced
(`Reads.bind`): the words are appended, and it does not matter in which of them the cut is.
-/

/-- `p` takes exactly `w` off the front, for `a`; on less than that it fails with an `E`. -/
structure Reads {ι ε α : Type} (E : ε → Prop) (p : StateT (List ι) (Except ε) α) (w : List ι)
    (a : α) : Prop where
  append : ∀ rest, p (w ++ rest) = .ok (a, rest)
  truncated : ∀ v, v <+: w → v ≠ w → ∃ e, E e ∧ p v = .error e

namespace Reads

variable {ι ε α β : Type} {E : ε → Prop}

/-- A word that has been cut short is cut in its first or in its second part. -/
theorem prefix_append_cases {v w w' : List ι} (h : v <+: w ++ w') (hne : v ≠ w ++ w') :
    (v <+: w ∧ v ≠ w) ∨ ∃ v', v = w ++ v' ∧ v' <+: w' ∧ v' ≠ w' := by
  rcases List.prefix_or_prefix_of_prefix h (List.prefix_append w w') with hv | ⟨v', rfl⟩
  · by_cases heq : v = w
    · subst heq
      refine .inr ⟨[], (List.append_nil v).symm, List.nil_prefix, fun hnil => hne ?_⟩
      rw [← hnil, List.append_nil]
    · exact .inl ⟨hv, heq⟩
  · have hv' : v' <+: w' := (List.prefix_append_right_inj w).mp h
    exact .inr ⟨v', rfl, hv', fun heq => hne (by rw [heq])⟩

theorem pure (a : α) : Reads E (Pure.pure a : StateT (List ι) (Except ε) α) [] a where
  append _ := rfl
  truncated _ hv hne := absurd (List.prefix_nil.mp hv) hne

/-- One reader after the other. -/
theorem bind {p : StateT (List ι) (Except ε) α} {k : α → StateT (List ι) (Except ε) β}
    {w w' : List ι} {a : α} {b : β} (hp : Reads E p w a) (hk : Reads E (k a) w' b) :
    Reads E (p >>= k) (w ++ w') b where
  append rest := by
    show (p (w ++ w' ++ rest) >>= fun x => k x.1 x.2) = _
    rw [List.append_assoc, hp.append]
    exact hk.append rest
  truncated v hv hne := by
    have hrun : (p >>= k) v = p v >>= fun x => k x.1 x.2 := rfl
    rw [hrun]
    rcases prefix_append_cases hv hne with ⟨hv, hne⟩ | ⟨v', rfl, hv', hne'⟩
    · obtain ⟨e, he, hfail⟩ := hp.truncated v hv hne
      rw [hfail]
      exact ⟨e, he, rfl⟩
    · rw [hp.append]
      exact hk.truncated v' hv' hne'

/-- What is computed from a value once it is read. -/
theorem bind_pure {p : StateT (List ι) (Except ε) α} {k : α → StateT (List ι) (Except ε) β}
    {w : List ι} {a : α} {b : β} (hp : Reads E p w a) (hk : k a = Pure.pure b) :
    Reads E (p >>= k) w b := by
  have h := hp.bind (k := k) (by rw [hk]; exact pure b)
  rwa [List.append_nil] at h

/-- A reader that is right about a word is right about it under another name. -/
theorem congr {p : StateT (List ι) (Except ε) α} {w w' : List ι} {a a' : α} (h : Reads E p w a)
    (hw : w = w') (ha : a = a') : Reads E p w' a' := by
  subst hw ha
  exact h

/-- The whole word is read. -/
theorem all {p : StateT (List ι) (Except ε) α} {w : List ι} {a : α} (h : Reads E p w a) :
    p w = .ok (a, []) := by
  have hall := h.append []
  rwa [List.append_nil] at hall

/-- A sequence that succeeds has got through its first part. -/
theorem ok_of_bind {p : StateT (List ι) (Except ε) α} {k : α → StateT (List ι) (Except ε) β}
    {data : List ι} {y : β × List ι} (h : (p >>= k) data = .ok y) :
    ∃ x, p data = .ok x ∧ k x.1 x.2 = .ok y := by
  have hrun : (p >>= k) data = p data >>= fun x => k x.1 x.2 := rfl
  rw [hrun] at h
  cases hx : p data with
  | error e =>
      rw [hx] at h
      cases h
  | ok x =>
      rw [hx] at h
      exact ⟨x, rfl, h⟩

end Reads

/-- What `p` has taken off the front for a value is what is written for it. -/
def Canonical {ι ε α : Type} (p : StateT (List ι) (Except ε) α) (write : α → List ι) : Prop :=
  ∀ data a rest, p data = .ok (a, rest) → write a ++ rest = data

/-- `p` fails with an `E` only. -/
def FailsWith {ι ε α : Type} (E : ε → Prop) (p : StateT (List ι) (Except ε) α) : Prop :=
  ∀ data e, p data = .error e → E e

namespace FailsWith

variable {ι ε α β : Type} {E : ε → Prop}

theorem pure (a : α) : FailsWith E (Pure.pure a : StateT (List ι) (Except ε) α) :=
  fun _ _ h => by cases h

theorem bind {p : StateT (List ι) (Except ε) α} {k : α → StateT (List ι) (Except ε) β}
    (hp : FailsWith E p) (hk : ∀ a, FailsWith E (k a)) : FailsWith E (p >>= k) := by
  intro data e h
  have hrun : (p >>= k) data = p data >>= fun x => k x.1 x.2 := rfl
  rw [hrun] at h
  cases hx : p data with
  | error e' =>
      rw [hx] at h
      cases h
      exact hp data e hx
  | ok x =>
      rw [hx] at h
      exact hk x.1 x.2 e h

end FailsWith
