import Mathlib.Data.List.TakeWhile
import Mathlib.Data.Nat.Notation
import Mathlib.Data.Int.Notation

/-!
# Reading decimal numbers

`fromChars` reads a number from the start of a string as `std::from_chars` does: as many digits as
there are, whatever comes behind them. The number must be below a bound. `fromChars_eq_ok_iff` is
its specification; `signedFromChars` also reads a minus sign.
-/

namespace Decimal

/-- The number that a string of digits denotes. -/
def value (digits : List Char) : ℕ := Nat.ofDigitChars 10 digits 0

/-- A nonempty string of digits. -/
structure IsNumeral (digits : List Char) : Prop where
  nonempty : digits ≠ []
  digit : ∀ c ∈ digits, c.isDigit

/-- No digit comes next. -/
def Stops (rest : List Char) : Prop := ∀ c ∈ rest.head?, c.isDigit = false

inductive Failure where
  | invalidArgument
  | resultOutOfRange
  deriving DecidableEq, Repr

/-- Returns the number and the characters behind it. -/
def fromChars (bound : ℕ) (s : List Char) : Except Failure (ℕ × List Char) :=
  let digits := s.takeWhile Char.isDigit
  if digits = [] then .error .invalidArgument
  else if value digits < bound then .ok (value digits, s.dropWhile Char.isDigit)
  else .error .resultOutOfRange

/-- The numbers from `-bound` on and below `bound`. There is no plus sign. -/
def signedFromChars (bound : ℕ) : List Char → Except Failure (ℤ × List Char)
  | '-' :: s => (fromChars (bound + 1) s).map fun (n, rest) => (-(n : ℤ), rest)
  | s => (fromChars bound s).map fun (n, rest) => ((n : ℤ), rest)

/-! ## Numerals -/

section
variable {digits rest s : List Char}

theorem stops_nil : Stops [] := nofun

theorem stops_cons {c : Char} : Stops (c :: rest) ↔ c.isDigit = false := by
  simp [Stops]

theorem Stops.takeWhile (h : Stops rest) : rest.takeWhile Char.isDigit = [] := by
  cases rest with
  | nil => rfl
  | cons c rest => rw [List.takeWhile_cons, stops_cons.mp h]; rfl

theorem stops_dropWhile (s : List Char) : Stops (s.dropWhile Char.isDigit) := by
  intro c hc
  rw [Option.mem_def] at hc
  have hdrop := List.head?_dropWhile_not Char.isDigit s
  rw [hc] at hdrop
  exact hdrop

theorem IsNumeral.takeWhile (h : IsNumeral digits) (hrest : Stops rest) :
    (digits ++ rest).takeWhile Char.isDigit = digits := by
  rw [List.takeWhile_append_of_pos h.digit, hrest.takeWhile, List.append_nil]

theorem IsNumeral.dropWhile (h : IsNumeral digits) (hrest : Stops rest) :
    (digits ++ rest).dropWhile Char.isDigit = rest := by
  rw [List.dropWhile_append_of_pos h.digit]
  cases rest with
  | nil => rfl
  | cons c rest => rw [List.dropWhile_cons, stops_cons.mp hrest]; rfl

theorem isNumeral_takeWhile (h : s.takeWhile Char.isDigit ≠ []) :
    IsNumeral (s.takeWhile Char.isDigit) :=
  ⟨h, fun _ hc => List.mem_takeWhile_imp hc⟩

/-- A numeral starts with a digit. -/
theorem IsNumeral.exists_cons (h : IsNumeral digits) :
    ∃ c digits', digits = c :: digits' ∧ c.isDigit := by
  obtain ⟨c, digits', rfl⟩ := List.exists_cons_of_ne_nil h.nonempty
  exact ⟨c, digits', rfl, h.digit c (List.mem_cons_self ..)⟩

/-! ## What is read -/

/-- The longest numeral there is is read, if it denotes a number below the bound. -/
theorem fromChars_eq_ok_iff {bound n : ℕ} :
    fromChars bound s = .ok (n, rest) ↔
      ∃ digits, IsNumeral digits ∧ Stops rest ∧ s = digits ++ rest ∧ value digits = n ∧
        n < bound := by
  unfold fromChars
  dsimp only
  constructor
  · intro h
    split at h
    · cases h
    · next hne =>
        split at h
        · next hlt =>
            cases h
            exact ⟨_, isNumeral_takeWhile hne, stops_dropWhile s,
              (List.takeWhile_append_dropWhile ..).symm, rfl, hlt⟩
        · cases h
  · rintro ⟨digits, hdigits, hrest, rfl, rfl, hlt⟩
    rw [hdigits.takeWhile hrest, hdigits.dropWhile hrest, if_neg hdigits.nonempty, if_pos hlt]

/-- The number that has been read is converted. -/
theorem map_eq_ok_iff {α β : Type} {r : Except Failure (α × List Char)} {f : α → β} {b : β} :
    (r.map fun (a, rest) => (f a, rest)) = .ok (b, rest) ↔ ∃ a, r = .ok (a, rest) ∧ f a = b := by
  cases r with
  | error e => simp [Except.map]
  | ok read =>
      simp only [Except.map, Except.ok.injEq, Prod.ext_iff]
      constructor
      · rintro ⟨hb, hrest⟩
        exact ⟨read.1, ⟨rfl, hrest⟩, hb⟩
      · rintro ⟨_, ⟨rfl, hrest⟩, hb⟩
        exact ⟨hb, hrest⟩

/-- A minus sign may come before the numeral. -/
theorem signedFromChars_eq_ok_iff {bound : ℕ} {x : ℤ} :
    signedFromChars bound s = .ok (x, rest) ↔
      ∃ digits, IsNumeral digits ∧ Stops rest ∧
        (s = digits ++ rest ∧ x = value digits ∧ value digits < bound ∨
          s = '-' :: (digits ++ rest) ∧ x = -(value digits : ℤ) ∧ value digits ≤ bound) := by
  unfold signedFromChars
  split
  · next s =>
      rw [map_eq_ok_iff (f := fun n : ℕ => -(n : ℤ))]
      simp only [fromChars_eq_ok_iff, List.cons.injEq, true_and, Nat.lt_add_one_iff]
      constructor
      · rintro ⟨n, ⟨digits, hdigits, hrest, rfl, rfl, hle⟩, rfl⟩
        exact ⟨digits, hdigits, hrest, .inr ⟨rfl, rfl, hle⟩⟩
      · rintro ⟨digits, hdigits, hrest, ⟨hs, -, -⟩ | ⟨rfl, rfl, hle⟩⟩
        · -- a numeral does not start with a minus sign
          obtain ⟨c, digits', rfl, hc⟩ := hdigits.exists_cons
          rw [List.cons_append, List.cons.injEq] at hs
          rw [← hs.1] at hc
          exact absurd hc (by decide)
        · exact ⟨_, ⟨digits, hdigits, hrest, rfl, rfl, hle⟩, rfl⟩
  · next hs =>
      rw [map_eq_ok_iff (f := fun n : ℕ => (n : ℤ))]
      simp only [fromChars_eq_ok_iff]
      constructor
      · rintro ⟨n, ⟨digits, hdigits, hrest, rfl, rfl, hlt⟩, rfl⟩
        exact ⟨digits, hdigits, hrest, .inl ⟨rfl, rfl, hlt⟩⟩
      · rintro ⟨digits, hdigits, hrest, ⟨rfl, rfl, hlt⟩ | ⟨rfl, -, -⟩⟩
        · exact ⟨_, ⟨digits, hdigits, hrest, rfl, rfl, hlt⟩, rfl⟩
        · exact absurd rfl (hs _)

end

end Decimal
