import Diffmonger.CommandLineInterface
import Diffmonger.Controller.Quarantine

/-!
# Numbers on the command line

Parameters that contain a number are read with `std::from_chars`, which stops at the first character
that is not a digit.

* `readsAsDocumented_iff`: what the documentation says about nodes is written down as an inductive
  predicate (`Denotes`), and so is what the source accepts (`Accepts`). Each is contained in the other
  but for the strings that are `Misread`.
* `lastsAsWritten_iff`: a duration is read as a number of units, and all that can go wrong is that a
  product or a sum does not fit into 64 bits.
-/

namespace Diffmonger

open Decimal

/-! ## Integers -/

namespace Parser.Integer

variable {arg : Str}

theorem fromChars_uint64_iff {rest : Str} {n : UInt64} :
    FromChars.fromChars arg = .ok (n, rest) ↔
      ∃ digits, IsNumeral digits ∧ Stops rest ∧ arg = digits ++ rest ∧
        n.toNat = Decimal.value digits := by
  have hread : FromChars.fromChars arg = .ok (n, rest) ↔
      ∃ k, fromChars (2 ^ 64) arg = .ok (k, rest) ∧ UInt64.ofNat k = n := map_eq_ok_iff
  rw [hread]
  simp only [fromChars_eq_ok_iff]
  constructor
  · rintro ⟨_, ⟨digits, hdigits, hrest, rfl, rfl, hlt⟩, rfl⟩
    exact ⟨digits, hdigits, hrest, rfl, UInt64.toNat_ofNat_of_lt' hlt⟩
  · rintro ⟨digits, hdigits, hrest, rfl, hn⟩
    exact ⟨_, ⟨digits, hdigits, hrest, rfl, hn.symm, n.toNat_lt⟩, n.ofNat_toNat⟩

/-- What comes behind the number is ignored. -/
theorem process_eq_ok_iff {T : Type} [FromChars T] {value : T} :
    process arg = .ok value ↔ ∃ rest, FromChars.fromChars arg = .ok (value, rest) := by
  unfold process
  split
  · next out rest hout => simp [hout]
  · next hout => simp [hout]

theorem process_uint64_iff {value : UInt64} :
    process arg = .ok value ↔
      ∃ digits rest, IsNumeral digits ∧ Stops rest ∧ arg = digits ++ rest ∧
        value.toNat = Decimal.value digits := by
  rw [process_eq_ok_iff, exists_comm]
  exact exists_congr fun rest => fromChars_uint64_iff

/-- A minus sign is read, a plus sign is not. -/
theorem process_int64_iff {value : Int64} :
    process arg = .ok value ↔
      ∃ digits rest, IsNumeral digits ∧ Stops rest ∧
        (arg = digits ++ rest ∧ value.toInt = Decimal.value digits ∨
          arg = '-' :: (digits ++ rest) ∧ value.toInt = -(Decimal.value digits : ℤ)) := by
  have hread {rest : Str} : FromChars.fromChars arg = .ok (value, rest) ↔
      ∃ x, signedFromChars (2 ^ 63) arg = .ok (x, rest) ∧ Int64.ofInt x = value := map_eq_ok_iff
  rw [process_eq_ok_iff]
  simp only [hread, signedFromChars_eq_ok_iff]
  constructor
  · rintro ⟨rest, x, ⟨digits, hdigits, hrest, hx⟩, rfl⟩
    have htoInt : (Int64.ofInt x).toInt = x := Int64.toInt_ofInt_of_le (by omega) (by omega)
    rw [htoInt]
    exact ⟨digits, rest, hdigits, hrest, hx.imp (fun h => ⟨h.1, h.2.1⟩) fun h => ⟨h.1, h.2.1⟩⟩
  · rintro ⟨digits, rest, hdigits, hrest, hvalue⟩
    have hlt := value.toInt_lt
    have hle := value.le_toInt
    refine ⟨rest, value.toInt, ⟨digits, hdigits, hrest, ?_⟩, value.ofInt_toInt⟩
    exact hvalue.imp (fun h => ⟨h.1, h.2, by omega⟩) fun h => ⟨h.1, h.2, by omega⟩

theorem process_error {T : Type} [FromChars T] {e : Exn} (h : (process arg : Except Exn T) = .error e) :
    ∃ what, e = .argumentError what := by
  unfold process at h
  split at h
  · cases h
  · cases h
    exact ⟨_, rfl⟩

end Parser.Integer

/-!
## Nodes

The documentation and the source each give a set of strings with their meaning. Neither contains the
other: a plus sign is documented and not read, and what follows a number is read over.
-/

namespace DiffmongerNode

/-- What the documentation says that a string denotes. -/
inductive Denotes : Str → DiffmongerNode → Prop
  | node {digits : Str} {x : Node} (numeral : IsNumeral digits) (eq : x.toNat = value digits) :
      Denotes digits (.node x)
  | plus {digits : Str} {x : Int64} (numeral : IsNumeral digits) (eq : x.toInt = value digits) :
      Denotes ('+' :: digits) (.relativeNode x)
  | minus {digits : Str} {x : Int64} (numeral : IsNumeral digits)
      (eq : x.toInt = -(value digits : ℤ)) : Denotes ('-' :: digits) (.relativeNode x)
  | latest : Denotes ['+', 'm', 'a', 'x'] .latestNode

/-- What is denoted is returned; what denotes nothing is an argument error. -/
structure ReadsAsDocumented (x : Str) : Prop where
  returns : ∀ v, process x = .ok v ↔ Denotes x v
  throws : ∀ e, process x = .error e → ∃ what, e = .argumentError what

/-- What is not read as documented: a number with a plus sign, and a number that something follows,
if it fits. -/
inductive Misread : Str → Prop
  | plus {digits : Str} (numeral : IsNumeral digits) (lt : value digits < 2 ^ 63) :
      Misread ('+' :: digits)
  | trailing {digits : Str} {c : Char} {rest : Str} (numeral : IsNumeral digits)
      (lt : value digits < 2 ^ 64) (stops : c.isDigit = false) : Misread (digits ++ c :: rest)
  | minusTrailing {digits : Str} {c : Char} {rest : Str} (numeral : IsNumeral digits)
      (le : value digits ≤ 2 ^ 63) (stops : c.isDigit = false) :
      Misread ('-' :: (digits ++ c :: rest))

/-- How the source reads a node. -/
inductive Accepts : Str → DiffmongerNode → Prop
  | node {digits rest : Str} {x : Node} (numeral : IsNumeral digits) (stops : Stops rest)
      (eq : x.toNat = value digits) : Accepts (digits ++ rest) (.node x)
  | minus {digits rest : Str} {x : Int64} (numeral : IsNumeral digits) (stops : Stops rest)
      (eq : x.toInt = -(value digits : ℤ)) : Accepts ('-' :: (digits ++ rest)) (.relativeNode x)
  | latest : Accepts ['+', 'm', 'a', 'x'] .latestNode

/-- A numeral starts with no sign. -/
theorem head?_numeral {digits : Str} (h : IsNumeral digits) (rest : Str) :
    (digits ++ rest).head? ≠ some '-' ∧ (digits ++ rest).head? ≠ some '+' := by
  obtain ⟨c, digits', rfl, hc⟩ := h.exists_cons
  refine ⟨?_, ?_⟩
  · rintro hhead
    cases Option.some.inj hhead
    exact absurd hc (by decide)
  · rintro hhead
    cases Option.some.inj hhead
    exact absurd hc (by decide)

/-- What is accepted is returned. -/
theorem Accepts.process_eq {x : Str} {v : DiffmongerNode} (h : Accepts x v) :
    process x = .ok v := by
  cases h with
  | @node digits rest n numeral stops eq =>
      obtain ⟨hminus, hplus⟩ := head?_numeral numeral rest
      have hmax : digits ++ rest ≠ ['+', 'm', 'a', 'x'] := by
        intro hmax
        rw [hmax] at hplus
        exact hplus rfl
      have hread : Parser.Integer.process (digits ++ rest) = .ok n.value :=
        Parser.Integer.process_uint64_iff.mpr ⟨_, _, numeral, stops, rfl, eq⟩
      rw [process, if_neg hmax, if_neg (not_or.mpr ⟨hminus, hplus⟩), hread]
      rfl
  | @minus digits rest value numeral stops eq =>
      have hread : Parser.Integer.process ('-' :: (digits ++ rest)) = .ok value :=
        Parser.Integer.process_int64_iff.mpr ⟨_, _, numeral, stops, .inr ⟨rfl, eq⟩⟩
      rw [process, if_neg (by simp), if_pos (.inl rfl), hread]
      rfl
  | latest => rfl

/-- Nothing else is. -/
theorem accepts_of_process {x : Str} {v : DiffmongerNode} (h : process x = .ok v) :
    Accepts x v := by
  have hmap {α : Type} {r : Except Exn α} {f : α → DiffmongerNode} (h : r.map f = .ok v) :
      ∃ a, r = .ok a ∧ f a = v := by
    cases r with
    | error e => cases h
    | ok a => exact ⟨a, rfl, Except.ok.inj h⟩
  unfold process at h
  split at h
  · next hmax =>
      obtain rfl := Except.ok.inj h
      rw [hmax]
      exact .latest
  · split at h
    · next hsign =>
        obtain ⟨value, hvalue, rfl⟩ := hmap h
        obtain ⟨digits, rest, hdigits, hrest, ⟨rfl, -⟩ | ⟨rfl, heq⟩⟩ :=
          Parser.Integer.process_int64_iff.mp hvalue
        -- `std::from_chars` itself takes no plus sign, and a numeral has no sign at all
        · exact absurd hsign (not_or.mpr (head?_numeral hdigits rest))
        · exact .minus hdigits hrest heq
    · obtain ⟨value, hvalue, rfl⟩ := hmap h
      obtain ⟨digits, rest, hdigits, hrest, rfl, heq⟩ := Parser.Integer.process_uint64_iff.mp hvalue
      exact .node hdigits hrest heq

theorem process_eq_ok_iff {x : Str} {v : DiffmongerNode} : process x = .ok v ↔ Accepts x v :=
  ⟨accepts_of_process, Accepts.process_eq⟩

theorem process_error {x : Str} {e : Exn} (h : process x = .error e) :
    ∃ what, e = .argumentError what := by
  have hmap {α : Type} {r : Except Exn α} (f : α → DiffmongerNode) (h : r.map f = .error e) :
      r = .error e := by
    cases r with
    | ok a => cases h
    | error e' => cases h; rfl
  unfold process at h
  split at h
  · cases h
  · split at h
    · exact Parser.Integer.process_error (hmap _ h)
    · exact Parser.Integer.process_error (hmap _ h)

/-- What is accepted, but for what follows the number, is documented. -/
theorem Accepts.denotes_or_misread {x : Str} {v : DiffmongerNode} (h : Accepts x v) :
    Denotes x v ∨ Misread x := by
  cases h with
  | @node digits rest _ numeral stops eq =>
      cases rest with
      | nil => exact .inl (digits.append_nil.symm ▸ .node numeral eq)
      | cons c rest => exact .inr (.trailing numeral (eq ▸ UInt64.toNat_lt _) (stops_cons.mp stops))
  | @minus digits rest value numeral stops eq =>
      cases rest with
      | nil => exact .inl (digits.append_nil.symm ▸ .minus numeral eq)
      | cons c rest =>
          have hle := value.le_toInt
          exact .inr (.minusTrailing numeral (by omega) (stops_cons.mp stops))
  | latest => exact .inl .latest

/-- What is documented, but for the plus sign, is accepted. -/
theorem Denotes.accepts_or_misread {x : Str} {v : DiffmongerNode} (h : Denotes x v) :
    Accepts x v ∨ Misread x := by
  cases h with
  | node numeral eq => exact .inl (List.append_nil x ▸ .node numeral stops_nil eq)
  | @plus digits value numeral eq =>
      have hlt := value.toInt_lt
      exact .inr (.plus numeral (by omega))
  | @minus digits _ numeral eq =>
      exact .inl (digits.append_nil ▸ .minus numeral stops_nil eq)
  | latest => exact .inl .latest

theorem Accepts.head? {x : Str} {value : Int64} (h : Accepts x (.relativeNode value)) :
    x.head? = some '-' := by
  cases h with
  | minus => rfl

theorem Denotes.isNumeral {x : Str} {n : Node} (h : Denotes x (.node n)) : IsNumeral x := by
  cases h with
  | node numeral => exact numeral

theorem Denotes.isNumeral_tail {x : Str} {value : Int64} (h : Denotes x (.relativeNode value)) :
    IsNumeral x.tail := by
  cases h with
  | plus numeral => exact numeral
  | minus numeral => exact numeral

theorem not_isNumeral {digits rest : Str} {c : Char} (h : c.isDigit = false) :
    ¬ IsNumeral (digits ++ c :: rest) := by
  intro numeral
  have hc := numeral.digit c (by simp)
  rw [h] at hc
  cases hc

theorem Misread.not_readsAsDocumented {x : Str} (h : Misread x) : ¬ ReadsAsDocumented x := by
  intro hreads
  have hiff (v : DiffmongerNode) : Accepts x v ↔ Denotes x v :=
    process_eq_ok_iff.symm.trans (hreads.returns v)
  cases h with
  | @plus digits numeral lt =>
      have heq : (Int64.ofInt (value digits)).toInt = value digits :=
        Int64.toInt_ofInt_of_le (by omega) (by omega)
      -- a relative node is only accepted with a minus sign
      cases ((hiff _).mpr (.plus numeral heq)).head?
  | @trailing digits c rest numeral lt stops =>
      have heq : (UInt64.ofNat (value digits)).toNat = value digits := UInt64.toNat_ofNat_of_lt' lt
      have haccepts : Accepts (digits ++ c :: rest) (.node ⟨.ofNat (value digits)⟩) :=
        .node numeral (stops_cons.mpr stops) heq
      exact not_isNumeral stops ((hiff _).mp haccepts).isNumeral
  | @minusTrailing digits c rest numeral le stops =>
      have heq : (Int64.ofInt (-(value digits : ℤ))).toInt = -(value digits : ℤ) :=
        Int64.toInt_ofInt_of_le (by omega) (by omega)
      have haccepts : Accepts ('-' :: (digits ++ c :: rest)) _ :=
        .minus numeral (stops_cons.mpr stops) heq
      exact not_isNumeral stops ((hiff _).mp haccepts).isNumeral_tail

/-- A string is read as documented exactly if it is not a number with a plus sign or with something
behind it. -/
theorem readsAsDocumented_iff (x : Str) : ReadsAsDocumented x ↔ ¬ Misread x := by
  constructor
  · exact fun h hmisread => hmisread.not_readsAsDocumented h
  · intro h
    refine ⟨fun v => process_eq_ok_iff.trans ⟨fun haccepts => ?_, fun hdenotes => ?_⟩,
      fun e he => process_error he⟩
    · exact haccepts.denotes_or_misread.resolve_right h
    · exact hdenotes.accepts_or_misread.resolve_right h

/-- The node 5, with something behind it. -/
theorem readsAsDocumented_trailing :
    process ['5', 'x'] = .ok (.node ⟨5⟩) ∧ ¬ ReadsAsDocumented ['5', 'x'] := by
  have hmisread : Misread (['5'] ++ 'x' :: []) :=
    .trailing ⟨List.cons_ne_nil _ _, List.forall_mem_singleton.mpr rfl⟩ (by decide +kernel) rfl
  exact ⟨by decide, hmisread.not_readsAsDocumented⟩

end DiffmongerNode

/-!
## Durations

The suffix is the last character, and what is before it the number. The number is multiplied by the
seconds of the suffix, then by the nanoseconds of a second, and is added to the time at which the
quarantine starts, each time without a test for overflow.
-/

namespace InitV1

/-- The seconds that a suffix stands for. -/
def unitSeconds : Char → Option ℕ
  | 's' => some 1
  | 'm' => some 60
  | 'h' => some 3600
  | 'd' => some 86400
  | 'w' => some 604800
  | _ => none

/-- The parameter is the duration that consists of the given number of units. -/
def Writes (x : Str) (count unit : ℕ) : Prop :=
  ∃ digits suffix, x = digits ++ [suffix] ∧ IsNumeral digits ∧ value digits = count ∧
    unitSeconds suffix = some unit

/-- Nothing wraps around on the way to the end of the quarantine. -/
structure Exact (params : RepositoryParams) (seconds : ℕ) (t : Int64) : Prop where
  eq : params.minSecondsBetweenSnapshots.toNat = seconds
  nanoseconds : (Controller.minTimeBetweenSnapshots params).toInt = seconds * 10 ^ 9
  ends : Trust.wrapPlus t (Controller.minTimeBetweenSnapshots params) = t.toInt + seconds * 10 ^ 9

/-- If the parameter is accepted, the quarantine that starts at `t` lasts as long as is written. -/
def LastsAsWritten (x : Str) (t : Int64) : Prop :=
  ∀ params : RepositoryParams, minSecondsBetweenSnapshots x = .ok params.minSecondsBetweenSnapshots →
    ∃ count unit, Writes x count unit ∧ Exact params (count * unit) t

theorem isDigit_of_unitSeconds {suffix : Char} {unit : ℕ} (h : unitSeconds suffix = some unit) :
    suffix.isDigit = false := by
  unfold unitSeconds at h
  split at h
  case h_6 => cases h
  all_goals rfl

theorem scaled_eq_ok_iff {value seconds : UInt64} {suffix : Char} :
    scaled value suffix = .ok seconds ↔
      ∃ unit, unitSeconds suffix = some unit ∧ seconds = .ofNat (value.toNat * unit) := by
  have hmul (unit : ℕ) : UInt64.ofNat (value.toNat * unit) = .ofNat unit * value := by
    rw [UInt64.ofNat_mul, UInt64.ofNat_toNat, UInt64.mul_comm]
  simp only [hmul]
  unfold scaled unitSeconds
  split
  all_goals simp [eq_comm]

/-- A duration is accepted whose number fits into 64 bits; its seconds need not. -/
theorem minSecondsBetweenSnapshots_eq_ok_iff {x : Str} {seconds : UInt64} :
    minSecondsBetweenSnapshots x = .ok seconds ↔
      ∃ count unit, Writes x count unit ∧ count < 2 ^ 64 ∧ seconds = .ofNat (count * unit) := by
  unfold minSecondsBetweenSnapshots
  constructor
  · intro h
    split at h
    · cases h
    · split at h
      · next value suffix hread =>
          obtain ⟨unit, hunit, rfl⟩ := scaled_eq_ok_iff.mp h
          obtain ⟨digits, hdigits, -, rfl, hvalue⟩ :=
            Parser.Integer.fromChars_uint64_iff.mp hread
          exact ⟨_, unit, ⟨digits, suffix, rfl, hdigits, hvalue.symm, hunit⟩, value.toNat_lt, rfl⟩
      · cases h
  · rintro ⟨count, unit, ⟨digits, suffix, rfl, hdigits, rfl, hunit⟩, hlt, rfl⟩
    have hstops : Stops [suffix] := stops_cons.mpr (isDigit_of_unitSeconds hunit)
    have hvalue : (UInt64.ofNat (value digits)).toNat = value digits := UInt64.toNat_ofNat_of_lt' hlt
    have hread : FromChars.fromChars (digits ++ [suffix]) =
        .ok (UInt64.ofNat (value digits), [suffix]) :=
      Parser.Integer.fromChars_uint64_iff.mpr ⟨digits, hdigits, hstops, rfl, hvalue⟩
    rw [if_neg (by simp), hread]
    exact scaled_eq_ok_iff.mpr ⟨unit, hunit, by rw [hvalue]⟩

/-- The nanoseconds and the sum have to fit; the seconds then do as well. -/
theorem exact_iff {params : RepositoryParams} {seconds : ℕ} {t : Int64}
    (h : params.minSecondsBetweenSnapshots = .ofNat seconds) :
    Exact params seconds t ↔
      seconds * 10 ^ 9 < 2 ^ 63 ∧ t.toInt + seconds * 10 ^ 9 < 2 ^ 63 := by
  constructor
  · rintro ⟨-, hnano, hends⟩
    have hlt := (Controller.minTimeBetweenSnapshots params).toInt_lt
    have hlt' := (t + Controller.minTimeBetweenSnapshots params).toInt_lt
    rw [Trust.wrapPlus] at hends
    rw [hnano] at hlt
    rw [hends] at hlt'
    exact ⟨by exact_mod_cast hlt, hlt'⟩
  · rintro ⟨hlt, hlt'⟩
    have hseconds : params.minSecondsBetweenSnapshots.toNat = seconds := by
      have hlt64 : seconds < 2 ^ 64 := by omega
      rw [h]
      exact UInt64.toNat_ofNat_of_lt' hlt64
    have hnano : (Controller.minTimeBetweenSnapshots params).toInt = seconds * 10 ^ 9 := by
      rw [Controller.toInt_minTimeBetweenSnapshots (by rw [hseconds]; exact hlt), hseconds]
    refine ⟨hseconds, hnano, ?_⟩
    have hle := t.le_toInt
    rw [Trust.wrapPlus, Int64.toInt_add, hnano]
    exact Int.bmod_eq_of_le (by omega) (by omega)

/-- A duration is written in one way. -/
theorem Writes.unique {x : Str} {count unit count' unit' : ℕ} (h : Writes x count unit)
    (h' : Writes x count' unit') : count = count' ∧ unit = unit' := by
  obtain ⟨digits, suffix, rfl, -, rfl, hunit⟩ := h
  obtain ⟨digits', suffix', heq, -, rfl, hunit'⟩ := h'
  obtain ⟨rfl, hsuffix⟩ := List.append_inj' heq rfl
  cases hsuffix
  exact ⟨rfl, Option.some.inj (hunit.symm.trans hunit')⟩

/-- Every duration that can be read is accepted. It lasts as long as is written exactly if its
nanoseconds, and their sum with the time at which it starts, are 64-bit signed integers. -/
theorem lastsAsWritten_iff (x : Str) (t : Int64) :
    LastsAsWritten x t ↔ ∀ count unit, Writes x count unit → count < 2 ^ 64 →
      count * unit * 10 ^ 9 < 2 ^ 63 ∧ t.toInt + count * unit * 10 ^ 9 < 2 ^ 63 := by
  constructor
  · intro h count unit hwrites hlt
    obtain ⟨count', unit', hwrites', hexact⟩ := h ⟨false, .ofNat (count * unit)⟩
      (minSecondsBetweenSnapshots_eq_ok_iff.mpr ⟨count, unit, hwrites, hlt, rfl⟩)
    obtain ⟨rfl, rfl⟩ := hwrites.unique hwrites'
    exact_mod_cast (exact_iff rfl).mp hexact
  · intro h params hok
    obtain ⟨count, unit, hwrites, hlt, hseconds⟩ := minSecondsBetweenSnapshots_eq_ok_iff.mp hok
    refine ⟨count, unit, hwrites, (exact_iff hseconds).mpr ?_⟩
    exact_mod_cast h count unit hwrites hlt

/-- Twenty thousand weeks: the quarantine ends before it starts. -/
theorem lastsAsWritten_weeks :
    minSecondsBetweenSnapshots ['2', '0', '0', '0', '0', 'w'] = .ok 12096000000 ∧
      Trust.wrapPlus 0 (Controller.minTimeBetweenSnapshots ⟨true, 12096000000⟩) < 0 ∧
      ¬ LastsAsWritten ['2', '0', '0', '0', '0', 'w'] 0 := by
  have hok : minSecondsBetweenSnapshots ['2', '0', '0', '0', '0', 'w'] = .ok 12096000000 := by
    decide +kernel
  have hbefore : Trust.wrapPlus 0 (Controller.minTimeBetweenSnapshots ⟨true, 12096000000⟩) < 0 := by
    decide +kernel
  refine ⟨hok, hbefore, fun h => ?_⟩
  obtain ⟨count, unit, -, hexact⟩ := h ⟨true, 12096000000⟩ hok
  have hends := hexact.ends
  rw [show (0 : Int64).toInt = 0 from rfl] at hends
  omega

end InitV1

end Diffmonger
