import Mathlib.Data.List.TakeWhile
import Mathlib.Data.Nat.Notation

/-!
# Reading from a file descriptor, call by call

An `Input` is what the calls of `read` on a file descriptor get, one after the other: some elements,
nothing because the call was interrupted, or an error. A call that asks for fewer elements than
there are at the moment leaves the others to the next one.
-/

inductive Input (α ε : Type) where
  /-- The end, which every further call finds as well. -/
  | eof
  | failed (e : ε)
  | interrupted (rest : Input α ε)
  /-- At least one element. -/
  | piece (x : α) (xs : List α) (rest : Input α ε)

namespace Input

/-- What one call returns; no elements are the end. -/
inductive Got (α ε : Type) where
  | data (xs : List α)
  | interrupted
  | failed (e : ε)

variable {α ε : Type}

/-- Elements that have not been asked for. -/
def push : List α → Input α ε → Input α ε
  | [], rest => rest
  | x :: xs, rest => piece x xs rest

/-- The system call, for at most `n` elements. -/
def read (n : ℕ) : Input α ε → Got α ε × Input α ε
  | eof => (.data [], eof)
  | failed e => (.failed e, failed e)
  | interrupted rest => (.interrupted, rest)
  | piece x xs rest => (.data ((x :: xs).take n), push ((x :: xs).drop n) rest)

/-- The number of calls that return before the end, if each asks for one element. -/
def size : Input α ε → ℕ
  | eof => 0
  | failed _ => 0
  | interrupted rest => rest.size + 1
  | piece _ xs rest => xs.length + 1 + rest.size

/-- Everything there is to be read, unless there is an error. -/
def contents : Input α ε → Except ε (List α)
  | eof => .ok []
  | failed e => .error e
  | interrupted rest => rest.contents
  | piece x xs rest => rest.contents.map (x :: xs ++ ·)

/-- How much there is to be read before the end of each piece. -/
def cuts : Input α ε → List ℕ
  | eof => []
  | failed _ => []
  | interrupted rest => rest.cuts
  | piece _ xs rest => (xs.length + 1) :: rest.cuts.map (xs.length + 1 + ·)

/-- What there is to be read before the first element `c`, or else before the end. -/
def upTo [DecidableEq α] (c : α) : Input α ε → Except ε (List α)
  | eof => .ok []
  | failed e => .error e
  | interrupted rest => rest.upTo c
  | piece x xs rest =>
    if c ∈ x :: xs then .ok ((x :: xs).takeWhile (· ≠ c)) else (rest.upTo c).map (x :: xs ++ ·)

/-!
## Elements that have not been asked for

A call that asks for less than the next piece holds leaves the rest of the piece to the next call.
`push` puts such a rest back in front; the contents and the size of an input are those of its parts.
-/

section
variable (xs ys : List α) (rest : Input α ε)

@[simp] theorem size_push : (push xs rest).size = xs.length + rest.size := by
  cases xs with
  | nil => exact (Nat.zero_add _).symm
  | cons x xs => rfl

theorem contents_push : (push xs rest).contents = rest.contents.map (xs ++ ·) := by
  cases xs with
  | nil => cases h : rest.contents <;> simp [push, h, Except.map]
  | cons x xs => rfl

/-- It does not matter to what there is if only a part of a piece is asked for. -/
theorem contents_push_append :
    (push (xs ++ ys) rest).contents = (push ys rest).contents.map (xs ++ ·) := by
  rw [contents_push, contents_push]
  cases rest.contents with
  | error e => rfl
  | ok zs => exact congrArg Except.ok (List.append_assoc ..)

theorem contents_push_append_eq_ok_iff {zs : List α} :
    (push (xs ++ ys) rest).contents = .ok zs ↔
      ∃ ws, (push ys rest).contents = .ok ws ∧ xs ++ ws = zs := by
  rw [contents_push_append]
  cases (push ys rest).contents with
  | error e => simp [Except.map]
  | ok ws => simp [Except.map]

theorem mem_cuts_push {n : ℕ} : n ∈ (push xs rest).cuts ↔
    xs ≠ [] ∧ n = xs.length ∨ ∃ m ∈ rest.cuts, xs.length + m = n := by
  cases xs with
  | nil => simp [push]
  | cons x xs => simp [push, cuts]

theorem le_of_mem_cuts_push {n : ℕ} (h : n ∈ (push xs rest).cuts) : xs.length ≤ n := by
  rcases (mem_cuts_push xs rest).mp h with ⟨-, rfl⟩ | ⟨m, -, rfl⟩
  · exact Nat.le_refl _
  · exact Nat.le_add_right ..

theorem add_mem_cuts_push_append {n : ℕ} (hn : 0 < n) :
    xs.length + n ∈ (push (xs ++ ys) rest).cuts ↔ n ∈ (push ys rest).cuts := by
  have hne (h : n = ys.length) : ys ≠ [] := List.length_pos_iff.mp (h ▸ hn)
  rw [mem_cuts_push, mem_cuts_push, List.length_append, Nat.add_left_cancel_iff]
  simp only [Nat.add_assoc, Nat.add_left_cancel_iff]
  refine or_congr ⟨fun h => ⟨hne h.2, h.2⟩, fun h => ⟨?_, h.2⟩⟩ Iff.rfl
  exact List.append_ne_nil_of_right_ne_nil xs h.1

section
variable [DecidableEq α] (c : α)

theorem upTo_push : (push xs rest).upTo c =
    if c ∈ xs then .ok (xs.takeWhile (· ≠ c)) else (rest.upTo c).map (xs ++ ·) := by
  cases xs with
  | nil => cases h : rest.upTo c <;> simp [push, h, Except.map]
  | cons x xs => rfl

theorem length_takeWhile_eq_iff {c : α} {xs : List α} :
    (xs.takeWhile (· ≠ c)).length = xs.length ↔ c ∉ xs := by
  constructor
  · intro h hmem
    have heq := (List.takeWhile_prefix _).eq_of_length h
    exact absurd rfl (of_decide_eq_true (List.takeWhile_eq_self_iff.mp heq c hmem))
  · intro h
    have heq : xs.takeWhile (· ≠ c) = xs := List.takeWhile_eq_self_iff.mpr fun x hx =>
      decide_eq_true fun hxc => h (hxc ▸ hx)
    rw [heq]

theorem upTo_push_append : (push (xs ++ ys) rest).upTo c =
    if c ∈ xs then .ok (xs.takeWhile (· ≠ c)) else ((push ys rest).upTo c).map (xs ++ ·) := by
  rw [upTo_push, upTo_push, List.takeWhile_append]
  by_cases hxs : c ∈ xs
  · rw [if_pos (List.mem_append_left _ hxs), if_pos hxs,
      if_neg (length_takeWhile_eq_iff.not.mpr (not_not.mpr hxs))]
  · rw [if_neg hxs, if_pos (length_takeWhile_eq_iff.mpr hxs)]
    by_cases hys : c ∈ ys
    · rw [if_pos (List.mem_append_right _ hys), if_pos hys]
      rfl
    · rw [if_neg fun h => (List.mem_append.mp h).elim hxs hys, if_neg hys]
      cases rest.upTo c with
      | error e => rfl
      | ok zs => exact congrArg Except.ok (List.append_assoc ..)

end

end

/-!
## What one call gets

One lemma for each answer of a call, about the contents and about the size: data come off the front,
an interruption changes nothing, and a failure is one of the contents.
-/

section
variable {n : ℕ} {i rest : Input α ε} {xs : List α}

/-- A call takes what it gets off the front. -/
theorem contents_of_read_data (h : i.read n = (.data xs, rest)) :
    xs.length ≤ n ∧ i.contents = rest.contents.map (xs ++ ·) := by
  cases i with
  | eof =>
      cases h
      exact ⟨Nat.zero_le _, rfl⟩
  | failed e => cases h
  | interrupted i => cases h
  | piece y ys i =>
      cases h
      refine ⟨List.length_take_le .., ?_⟩
      rw [← contents_push_append, List.take_append_drop]
      rfl

/-- A call that asks for something finds nothing at the end only. -/
theorem eq_eof_of_read_nil (hn : 0 < n) (h : i.read n = (.data [], rest)) : i = eof := by
  cases i with
  | eof => rfl
  | failed e => cases h
  | interrupted i => cases h
  | piece y ys i =>
      obtain ⟨n, rfl⟩ := Nat.exists_eq_succ_of_ne_zero hn.ne'
      cases h

theorem contents_of_read_interrupted (h : i.read n = (.interrupted, rest)) :
    i.contents = rest.contents := by
  cases i with
  | eof => cases h
  | failed e => cases h
  | interrupted i =>
      cases h
      rfl
  | piece y ys i => cases h

theorem contents_of_read_failed {e : ε} (h : i.read n = (.failed e, rest)) :
    i.contents = .error e := by
  cases i with
  | eof => cases h
  | failed e => cases h; rfl
  | interrupted i => cases h
  | piece y ys i => cases h

end

/-- A call leaves what it does not get to the other ones. -/
theorem size_of_read_data {n : ℕ} {i rest : Input α ε} {xs : List α}
    (h : i.read n = (.data xs, rest)) : xs.length + rest.size = i.size := by
  cases i with
  | eof => cases h; rfl
  | failed e => cases h
  | interrupted i => cases h
  | piece y ys i =>
      cases h
      rw [size_push, ← Nat.add_assoc, ← List.length_append, List.take_append_drop]
      rfl

theorem size_read_lt {n : ℕ} {i rest : Input α ε} {x : α} {xs : List α}
    (h : i.read n = (.data (x :: xs), rest)) : rest.size < i.size := by
  have hsize := size_of_read_data h
  rw [List.length_cons] at hsize
  omega

theorem size_read_interrupted {n : ℕ} {i rest : Input α ε}
    (h : i.read n = (.interrupted, rest)) : rest.size < i.size := by
  cases i with
  | eof => cases h
  | failed e => cases h
  | interrupted i => cases h; exact Nat.lt_succ_self _
  | piece y ys i => cases h

end Input
