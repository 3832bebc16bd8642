import Diffmonger.PasswordBuffer.Buffers
import Diffmonger.Lib.Occurrence
import Mathlib.Algebra.Group.Nat.Defs

/-!
# Where reading stops (`PasswordBuffer::readuntil`)

Only the bytes that one call of `read` gets are searched for the sentinel, so a sentinel of more
than one byte is not found if it is cut in two, by the kernel or by the end of the buffer.

Main result: `readuntil_iff`. What the single calls get (`fragments`) is searched as
`Lib/Occurrence.lean` has it (`readuntilLoop_eq`). The cuts between them are where a piece ends and
where the buffer is full (`mem_cuts_fragments`); as the size doubles, the latter are the initial
size times a power of two.
-/

namespace Diffmonger.PasswordBuffer

open Occurrence

/-- The function that searches for the sentinel finds its first occurrence. -/
theorem finds_search (sentinel : Bytes) : Finds sentinel (search sentinel) := by
  intro bs
  induction bs with
  | nil =>
      by_cases hs : sentinel = []
      · subst hs
        exact .inl ⟨List.prefix_rfl, fun j hj => absurd hj (Nat.not_lt_zero j)⟩
      · exact .inr ⟨fun h => hs (List.infix_nil.mp h), rfl⟩
  | cons b bs ih =>
      rw [search]
      split
      · next h =>
          refine .inl ⟨List.isPrefixOf_iff_prefix.mp h, fun j hj => absurd hj (Nat.not_lt_zero j)⟩
      · next h =>
          have hnot : ¬ sentinel <+: b :: bs := fun hp => h (List.isPrefixOf_iff_prefix.mpr hp)
          rcases ih with hfirst | ⟨hnone, hlength⟩
          · refine .inl ⟨hfirst.occurs, fun j hj => ?_⟩
            cases j with
            | zero => exact hnot
            | succ j => exact hfirst.first j (Nat.lt_of_succ_lt_succ hj)
          · refine .inr ⟨fun hinfix => ?_, congrArg Nat.succ hlength⟩
            exact (List.infix_cons_iff.mp hinfix).elim hnot hnone

/-!
## What the calls of `read` get

The sentinel is looked for in what one call has got, never across two calls. So what matters is how
the bytes are divided among the calls: at the ends of the pieces, and where the buffer is full.
-/

/-- What they get one after the other, for a buffer of `size` bytes of which `length` are in use. -/
def fragments (size length : ℕ) (fd : InputFd) : List Bytes :=
  let size := if length = size then size * 2 else size
  match _hread : fd.read (size - length) with
  | (.interrupted, fd) => fragments size length fd
  | (.failed _, _) => []
  | (.data [], _) => []
  | (.data (b :: bs), fd) => (b :: bs) :: fragments size (length + (b :: bs).length) fd
termination_by fd.size
decreasing_by
  · exact Input.size_read_interrupted _hread
  · exact Input.size_read_lt _hread

section
variable {size length k : ℕ}

@[simp] theorem fragments_eof : fragments size length .eof = [] := by
  rw [fragments]
  rfl

theorem fragments_interrupted (hk : (if length = size then size * 2 else size) = length + (k + 1))
    (rest : InputFd) :
    fragments size length (.interrupted rest) = fragments (length + (k + 1)) length rest := by
  rw [fragments]
  rw [hk]
  rfl

theorem fragments_piece (hk : (if length = size then size * 2 else size) = length + (k + 1))
    (b : Byte) (bs : Bytes) (rest : InputFd) :
    fragments size length (.piece b bs rest) = (b :: bs.take k) ::
      fragments (length + (k + 1)) (length + (b :: bs.take k).length) (.push (bs.drop k) rest) := by
  rw [fragments]
  rw [hk, Nat.add_sub_cancel_left]
  rfl

end

section
variable {size length : ℕ} {fd : InputFd} {data : Bytes}

/-- Together they are everything there is to be read. -/
theorem flatten_fragments (h : Reading size length fd) (hdata : fd.contents = .ok data) :
    (fragments size length fd).flatten = data := by
  induction h generalizing data with
  | eof =>
      cases hdata
      rw [fragments_eof, List.flatten_nil]
  | failed e => cases hdata
  | interrupted hk h ih =>
      rw [fragments_interrupted hk]
      exact ih hdata
  | @piece _ _ k b bs rest hk h ih =>
      rw [piece_eq_push k, Input.contents_push_append_eq_ok_iff] at hdata
      obtain ⟨data, hdata, rfl⟩ := hdata
      rw [fragments_piece hk, List.flatten_cons, ih hdata]

/-- The loop searches each of them alone. -/
theorem readuntilLoop_eq {sentinel password : Bytes} (hne : sentinel ≠ [])
    (h : Reading size password.length fd) (hdata : fd.contents = .ok data) :
    readuntilLoop sentinel size password fd =
      .ok (password ++ searchChunks (search sentinel) (fragments size password.length fd)) := by
  generalize hlength : password.length = length at h
  induction h generalizing password data with
  | eof => rw [readuntilLoop_eof, fragments_eof, searchChunks, List.append_nil]
  | failed e => cases hdata
  | interrupted hk h ih =>
      subst hlength
      rw [readuntilLoop_interrupted hk, fragments_interrupted hk]
      exact ih hdata rfl
  | @piece _ _ k b bs rest hk h ih =>
      subst hlength
      rw [piece_eq_push k, Input.contents_push_append_eq_ok_iff] at hdata
      obtain ⟨data, hdata, -⟩ := hdata
      rw [readuntilLoop_piece hk, fragments_piece hk, searchChunks]
      have hempty : ¬ sentinel.isEmpty = true := fun h => hne (List.isEmpty_iff.mp h)
      by_cases hsearch : search sentinel (b :: bs.take k) = (b :: bs.take k).length
      · rw [if_pos hsearch, ← List.append_assoc]
        exact (if_pos (.inr hsearch)).trans (ih hdata List.length_append)
      · rw [if_neg hsearch]
        exact if_neg (not_or_intro hempty hsearch)

end

/-!
## Where they end

A call of `read` gets as much as fits into the rest of the buffer, or as the next piece holds. The
sizes that the buffer will have are known in advance, since they double.
-/

/-- A number of bytes at which the buffer is full. -/
def Full (size n : ℕ) : Prop := ∃ j, n = size * 2 ^ j

section
variable {size length k n : ℕ}

/-- To double the size does not change where the buffer will be full. -/
theorem full_iff (hk : (if length = size then size * 2 else size) = length + (k + 1)) (hn : 0 < n) :
    Full (length + (k + 1)) (length + n) ↔ Full size (length + n) := by
  split at hk
  · next heq =>
      subst heq
      rw [← hk]
      constructor
      · rintro ⟨j, hj⟩
        exact ⟨j + 1, by rw [hj, Nat.pow_succ', Nat.mul_assoc]⟩
      · rintro ⟨j, hj⟩
        cases j with
        | zero => omega
        | succ j => exact ⟨j, by rw [hj, Nat.pow_succ', Nat.mul_assoc]⟩
  · rw [hk]

theorem le_of_full (h : Full size n) : size ≤ n := by
  obtain ⟨j, rfl⟩ := h
  exact Nat.le_mul_of_pos_right _ (Nat.two_pow_pos j)

theorem full_self : Full size size := ⟨0, (Nat.mul_one size).symm⟩

end

/-- What the calls get ends where a piece does and where the buffer is full. -/
theorem mem_cuts_fragments {size length n : ℕ} {fd : InputFd} {data : Bytes}
    (h : Reading size length fd) (hdata : fd.contents = .ok data) (hn : 0 < n)
    (hle : n ≤ data.length) :
    n ∈ cuts (fragments size length fd) ↔ n ∈ fd.cuts ∨ Full size (length + n) := by
  induction h generalizing data n with
  | eof =>
      cases hdata
      exact absurd hn (Nat.not_lt.mpr hle)
  | failed e => cases hdata
  | interrupted hk h ih =>
      -- nothing has been read, but the buffer may have grown
      rw [fragments_interrupted hk, ih hdata hn hle, full_iff hk hn]
      rfl
  | @piece size length k b bs rest hk h ih =>
      rw [piece_eq_push k, Input.contents_push_append_eq_ok_iff] at hdata
      obtain ⟨data, hdata, rfl⟩ := hdata
      rw [fragments_piece hk, piece_eq_push k, ← full_iff hk hn]
      have hlength : (b :: bs.take k).length = min (k + 1) (bs.length + 1) := by
        rw [List.length_cons, List.length_take, Nat.add_min_add_right]
      have hfull : Full (length + (k + 1)) (length + n) → k + 1 ≤ n := fun h =>
        Nat.le_of_add_le_add_left (le_of_full h)
      rcases Nat.lt_trichotomy n (b :: bs.take k).length with hlt | rfl | hgt
      · -- neither the piece nor the buffer ends within what this call gets
        refine iff_of_false (fun h => Nat.not_le.mpr hlt (le_of_mem_cuts h)) ?_
        rintro (h | h)
        · have hcut := Input.le_of_mem_cuts_push _ _ h
          rw [List.length_append] at hcut
          omega
        · have := hfull h
          omega
      · -- what it gets ends where one of the two does
        refine iff_of_true List.mem_cons_self ?_
        by_cases hend : k < bs.length
        · refine .inr ?_
          rw [hlength, Nat.min_eq_left (by omega)]
          exact full_self
        · refine .inl ((Input.mem_cuts_push _ _).mpr (.inl ⟨List.cons_ne_nil _ _, ?_⟩))
          rw [List.drop_of_length_le (by omega), List.append_nil]
      · -- and the other calls get the rest
        obtain ⟨m, rfl⟩ := Nat.exists_eq_add_of_lt hgt
        rw [List.length_append] at hle
        rw [Nat.add_assoc (List.length _), add_mem_cuts (Nat.succ_pos m),
          ih hdata (Nat.succ_pos m) (by omega),
          Input.add_mem_cuts_push_append _ _ _ (Nat.succ_pos m), Nat.add_assoc length]

/-! ## The first occurrence of the sentinel -/

/-- What is before the first occurrence of the sentinel is read if and only if the occurrence is not
cut in two, neither by the pieces in which the bytes arrive nor where the buffer is full. -/
theorem readuntil_iff (fresh : Buffers.Fresh) {size0 : ℕ} (hsize : 0 < size0) (sentinel : Bytes)
    {fd : InputFd} {data : Bytes} (hdata : fd.contents = .ok data) :
    (∃ out, Buffers.readuntil fresh size0 sentinel fd = .ok out ∧ UpTo sentinel data out) ↔
      ∀ i, FirstAt sentinel data i → ∀ k, k ∈ fd.cuts ∨ Full size0 k →
        k ≤ i ∨ i + sentinel.length ≤ k := by
  have h := reading fd hsize (Nat.zero_le size0)
  rw [Buffers.readuntil_eq fresh hsize]
  by_cases hne : sentinel = []
  · subst hne
    refine iff_of_true ⟨data, ?_, .whole (.inl rfl)⟩ fun i _ k _ => Nat.le_total k i
    rw [readuntil_nil fd hsize, hdata]
    rfl
  · have hout : readuntil size0 sentinel fd =
        .ok (searchChunks (search sentinel) (fragments size0 0 fd)) := readuntilLoop_eq hne h hdata
    have hiff : (∃ out, readuntil size0 sentinel fd = .ok out ∧ UpTo sentinel data out) ↔
        UpTo sentinel data (searchChunks (search sentinel) (fragments size0 0 fd)) := by
      rw [hout]
      simp
    have hmem (k : ℕ) (hk : 0 < k) (hle : k ≤ data.length) :
        k ∈ cuts (fragments size0 0 fd) ↔ k ∈ fd.cuts ∨ Full size0 k := by
      rw [mem_cuts_fragments h hdata hk hle, Nat.zero_add]
    rw [hiff, ← flatten_fragments h hdata, searchChunks_iff (finds_search sentinel) hne,
      flatten_fragments h hdata]
    refine forall₂_congr fun i hi => forall_congr' fun k => ?_
    have hend := add_length_le hne hi.occurs
    by_cases hk : i < k ∧ k < i + sentinel.length
    · rw [hmem k (by omega) (by omega)]
    · exact iff_of_true (fun _ => by omega) fun _ => by omega

/-- New buffers hold zeros. -/
def zeros : Buffers.Fresh := fun size => .replicate size 0

/-- A carriage return and a newline that arrive in one piece; the cut is before them. -/
theorem readuntil_iff_piece :
    ∃ out, Buffers.readuntil zeros 2048 [13, 10]
        (.piece 97 [] (.interrupted (.piece 13 [10, 98] .eof))) = .ok out ∧
      UpTo [13, 10] [97, 13, 10, 98] out := by
  have hfirst : FirstAt [13, 10] ([97, 13, 10, 98] : Bytes) 1 := ⟨by decide, by decide⟩
  refine (readuntil_iff zeros (by decide) [13, 10] rfl).mpr fun i hi k hk => ?_
  obtain rfl := hi.unique hfirst
  rcases hk with hcut | ⟨j, rfl⟩
  · have hcuts : ∀ k ∈ Input.cuts (.piece 97 [] (.interrupted (.piece 13 [10, 98] .eof)) : InputFd),
        k ≤ 1 ∨ 1 + 2 ≤ k := by decide
    exact hcuts k hcut
  · -- the buffer is not full
    have hpow : 0 < 2 ^ j := Nat.two_pow_pos j
    change _ ∨ 1 + 2 ≤ 2048 * 2 ^ j
    omega

/-- A carriage return and a newline that arrive in two pieces: everything is read. -/
theorem readuntil_cut :
    let fd : InputFd := .piece 97 [13] (.piece 10 [98] .eof)
    fd.contents = .ok [97, 13, 10, 98] ∧
      Buffers.readuntil zeros 2048 [13, 10] fd = .ok [97, 13, 10, 98] ∧
      ¬ ∃ out, Buffers.readuntil zeros 2048 [13, 10] fd = .ok out ∧
        UpTo [13, 10] [97, 13, 10, 98] out := by
  intro fd
  have hfragments : fragments 2048 0 fd = [[97, 13], [10, 98]] := by
    rw [fragments_piece (k := 2047) rfl]
    refine congrArg (_ :: ·) ((fragments_piece (k := 2045) rfl 10 [98] .eof).trans ?_)
    exact congrArg (_ :: ·) fragments_eof
  have hall : Buffers.readuntil zeros 2048 [13, 10] fd = .ok [97, 13, 10, 98] := by
    rw [Buffers.readuntil_eq zeros (by decide), readuntil,
      readuntilLoop_eq (by decide) (reading fd (by decide) (Nat.zero_le _)) rfl]
    exact congrArg (fun chunks => Except.ok (searchChunks (search [13, 10]) chunks)) hfragments
  refine ⟨rfl, hall, ?_⟩
  rintro ⟨out, hout, hupTo⟩
  obtain rfl : [97, 13, 10, 98] = out := Except.ok.inj (hall.symm.trans hout)
  rcases (upTo_iff ..).mp hupTo with ⟨hnot, -⟩ | ⟨i, -, hfirst, htake⟩
  · exact absurd hnot (by decide)
  · -- all four bytes are kept, although the sentinel occurs after the first one
    have hlength := congrArg List.length htake
    rw [List.length_take] at hlength
    exact hfirst.first 1 (by simp at hlength; omega) (by decide)

end Diffmonger.PasswordBuffer
