import Mathlib.Data.List.Infix
import Mathlib.Data.Nat.Find
import Mathlib.Tactic.MkIffOfInductiveProp

/-!
# Searching a list chunk by chunk

A reader that looks for a pattern in each chunk as it arrives, and never across two of them, finds
the first occurrence of the pattern if and only if the chunks do not cut it in two
(`searchChunks_iff`). What the search finds is the first occurrence that lies within one chunk
(`searchChunks_spec`), and an occurrence lies within one chunk unless one of the `cuts` goes through
it (`within_iff`).
-/

namespace Occurrence

variable {α : Type}

/-- The pattern occurs at the position `i`, and nowhere before. -/
structure FirstAt (pattern xs : List α) (i : ℕ) : Prop where
  occurs : pattern <+: xs.drop i
  first : ∀ j < i, ¬ pattern <+: xs.drop j

/-- What comes before the first occurrence; everything, if the pattern is empty or does not occur.
-/
@[mk_iff]
inductive UpTo (pattern xs : List α) : List α → Prop
  | whole (h : pattern = [] ∨ ¬ pattern <:+: xs) : UpTo pattern xs xs
  | before {i : ℕ} (ne : pattern ≠ []) (first : FirstAt pattern xs i) :
      UpTo pattern xs (xs.take i)

section
variable {pattern xs ys : List α} {i j : ℕ}

theorem FirstAt.unique (hi : FirstAt pattern xs i) (hj : FirstAt pattern xs j) : i = j :=
  Nat.le_antisymm (not_lt.mp fun h => hi.first j h hj.occurs)
    (not_lt.mp fun h => hj.first i h hi.occurs)

theorem isInfix_of_drop (h : pattern <+: xs.drop i) : pattern <:+: xs :=
  h.isInfix.trans (List.drop_suffix i xs).isInfix

theorem exists_drop (h : pattern <:+: xs) : ∃ i, pattern <+: xs.drop i := by
  obtain ⟨before, after, rfl⟩ := h
  refine ⟨before.length, ?_⟩
  rw [List.append_assoc, List.drop_left]
  exact List.prefix_append ..

/-- If there is an occurrence with some property, there is a first one. -/
theorem exists_least {P : ℕ → Prop} (h : ∃ i, P i) : ∃ i, P i ∧ ∀ j < i, ¬ P j := by
  classical
  exact ⟨Nat.find h, Nat.find_spec h, fun _ hj => Nat.find_min h hj⟩

/-- An occurrence ends within the list. -/
theorem add_length_le (hne : pattern ≠ []) (h : pattern <+: xs.drop i) :
    i + pattern.length ≤ xs.length := by
  have hle := h.length_le
  have hpos := List.length_pos_iff.mpr hne
  rw [List.length_drop] at hle
  omega

/-- An occurrence that ends before the other list begins. -/
theorem isPrefix_drop_append (h : i + pattern.length ≤ xs.length) :
    pattern <+: (xs ++ ys).drop i ↔ pattern <+: xs.drop i := by
  have hlength : pattern.length ≤ (xs.drop i).length := by
    rw [List.length_drop]
    omega
  rw [List.drop_append_of_le_length (by omega)]
  exact ⟨fun h => List.prefix_of_prefix_length_le h (List.prefix_append ..) hlength,
    fun h => h.trans (List.prefix_append ..)⟩

end

/-!
## Occurrences within one chunk

An occurrence lies within one chunk if no chunk ends inside it. The two are compared by induction on
the chunks, with the cuts as positions in the whole list.
-/

/-- The pattern occurs at the position `i`, and within one of the chunks. -/
def Within (pattern : List α) : List (List α) → ℕ → Prop
  | [], _ => False
  | chunk :: chunks, i => pattern <+: chunk.drop i ∨
      chunk.length ≤ i ∧ Within pattern chunks (i - chunk.length)

/-- The positions at which a chunk ends. -/
def cuts : List (List α) → List ℕ
  | [] => []
  | chunk :: chunks => chunk.length :: (cuts chunks).map (chunk.length + ·)

section
variable {pattern chunk : List α} {chunks : List (List α)} {i : ℕ}

theorem le_of_mem_cuts {k : ℕ} (h : k ∈ cuts (chunk :: chunks)) : chunk.length ≤ k := by
  rcases List.mem_cons.mp h with rfl | h
  · exact Nat.le_refl _
  · obtain ⟨k, -, rfl⟩ := List.mem_map.mp h
    exact Nat.le_add_right ..

/-- The cuts behind the first one are those of the other chunks. -/
theorem add_mem_cuts {k : ℕ} (hk : 0 < k) :
    chunk.length + k ∈ cuts (chunk :: chunks) ↔ k ∈ cuts chunks := by
  rw [cuts, List.mem_cons, List.mem_map]
  constructor
  · rintro (h | ⟨k', hk', h⟩)
    · omega
    · exact Nat.add_left_cancel h ▸ hk'
  · exact fun h => .inr ⟨k, h, rfl⟩

/-- Each cut is before an occurrence within one chunk, or behind it. -/
theorem within_iff (hne : pattern ≠ []) : Within pattern chunks i ↔
    pattern <+: chunks.flatten.drop i ∧ ∀ k ∈ cuts chunks, k ≤ i ∨ i + pattern.length ≤ k := by
  have hpos := List.length_pos_iff.mpr hne
  induction chunks generalizing i with
  | nil =>
      rw [List.flatten_nil, List.drop_nil, List.prefix_nil]
      exact iff_of_false id fun h => hne h.1
  | cons chunk chunks ih =>
      rw [Within, List.flatten_cons]
      rcases Nat.lt_or_ge i chunk.length with hi | hi
      · rw [or_iff_left fun h => Nat.not_le.mpr hi h.1]
        constructor
        · intro h
          have hend := add_length_le hne h
          refine ⟨(isPrefix_drop_append hend).mpr h, fun k hk => .inr ?_⟩
          exact hend.trans (le_of_mem_cuts hk)
        · rintro ⟨h, hcuts⟩
          have hend := (hcuts chunk.length List.mem_cons_self).resolve_left (Nat.not_le.mpr hi)
          exact (isPrefix_drop_append hend).mp h
      · obtain ⟨i, rfl⟩ := Nat.exists_eq_add_of_le hi
        have hnot : ¬ pattern <+: chunk.drop (chunk.length + i) := by
          rw [List.drop_of_length_le hi, List.prefix_nil]
          exact hne
        rw [or_iff_right hnot, and_iff_right hi, Nat.add_sub_cancel_left, List.drop_append,
          List.drop_of_length_le hi, List.nil_append, Nat.add_sub_cancel_left]
        refine ih.trans (and_congr_right fun _ => ?_)
        rw [cuts, List.forall_mem_cons, List.forall_mem_map, and_iff_right (.inl hi)]
        refine forall₂_congr fun k _ => ?_
        rw [Nat.add_assoc, Nat.add_le_add_iff_left, Nat.add_le_add_iff_left]

end

/-! ## The search -/

/-- A search for the pattern returns where it first occurs, or else the end. -/
def Finds (pattern : List α) (find : List α → ℕ) : Prop :=
  ∀ xs, FirstAt pattern xs (find xs) ∨ ¬ pattern <:+: xs ∧ find xs = xs.length

/-- The chunks up to where a search of each one alone finds something. -/
def searchChunks (find : List α → ℕ) : List (List α) → List α
  | [] => []
  | chunk :: chunks =>
    if find chunk = chunk.length then chunk ++ searchChunks find chunks else chunk.take (find chunk)

section
variable {pattern chunk : List α} {chunks : List (List α)} {find : List α → ℕ}

theorem Finds.firstAt (h : Finds pattern find) (hne : find chunk ≠ chunk.length) :
    FirstAt pattern chunk (find chunk) :=
  (h chunk).resolve_right fun h => hne h.2

theorem Finds.not_occurs (h : Finds pattern find) (hne : pattern ≠ [])
    (heq : find chunk = chunk.length) (i : ℕ) : ¬ pattern <+: chunk.drop i := by
  intro hi
  refine (h chunk).elim (fun hfirst => ?_) fun hnot => hnot.1 (isInfix_of_drop hi)
  have hend := add_length_le hne hfirst.occurs
  have hpos := List.length_pos_iff.mpr hne
  omega

/-- The search ends at the first occurrence within one chunk. -/
theorem searchChunks_spec (h : Finds pattern find) (hne : pattern ≠ []) (chunks : List (List α)) :
    (∃ i, Within pattern chunks i ∧ (∀ j < i, ¬ Within pattern chunks j) ∧
      searchChunks find chunks = chunks.flatten.take i) ∨
    (∀ i, ¬ Within pattern chunks i) ∧ searchChunks find chunks = chunks.flatten := by
  induction chunks with
  | nil => exact .inr ⟨fun _ => id, rfl⟩
  | cons chunk chunks ih =>
      rw [searchChunks, List.flatten_cons]
      by_cases hfind : find chunk = chunk.length
      · rw [if_pos hfind]
        have hiff (i : ℕ) : Within pattern (chunk :: chunks) i ↔
            chunk.length ≤ i ∧ Within pattern chunks (i - chunk.length) :=
          or_iff_right (h.not_occurs hne hfind i)
        rcases ih with ⟨i, hi, hfirst, heq⟩ | ⟨hnone, heq⟩
        · refine .inl ⟨chunk.length + i, (hiff _).mpr ⟨Nat.le_add_right .., ?_⟩, ?_, ?_⟩
          · rwa [Nat.add_sub_cancel_left]
          · intro j hj hwithin
            obtain ⟨hle, hj'⟩ := (hiff j).mp hwithin
            exact hfirst _ (by omega) hj'
          · rw [heq, List.take_length_add_append]
        · exact .inr ⟨fun i hi => hnone _ ((hiff i).mp hi).2, by rw [heq]⟩
      · rw [if_neg hfind]
        have hfirst := h.firstAt hfind
        have hend := add_length_le hne hfirst.occurs
        refine .inl ⟨find chunk, .inl hfirst.occurs, ?_, ?_⟩
        · rintro j hj (hoccurs | ⟨hle, -⟩)
          · exact hfirst.first j hj hoccurs
          · omega
        · rw [List.take_append_of_le_length (by omega)]

/-- What is found is what comes before the first occurrence if and only if no cut goes through the
latter. -/
theorem searchChunks_iff (h : Finds pattern find) (hne : pattern ≠ []) :
    UpTo pattern chunks.flatten (searchChunks find chunks) ↔
      ∀ i, FirstAt pattern chunks.flatten i → ∀ k ∈ cuts chunks, k ≤ i ∨ i + pattern.length ≤ k := by
  have hpos := List.length_pos_iff.mpr hne
  constructor
  · intro hupTo i hi
    have hend := add_length_le hne hi.occurs
    -- the first occurrence is found, so it is the first one within a chunk
    suffices Within pattern chunks i from ((within_iff hne).mp this).2
    have htake : searchChunks find chunks = chunks.flatten.take i := by
      rw [upTo_iff] at hupTo
      rcases hupTo with ⟨hnot, -⟩ | ⟨j, -, hj, heq⟩
      · exact absurd (isInfix_of_drop hi.occurs) (hnot.resolve_left hne)
      · rw [heq, hi.unique hj]
    have hlength : (searchChunks find chunks).length = i := by
      rw [htake, List.length_take]
      omega
    rcases searchChunks_spec h hne chunks with ⟨j, hj, -, heq⟩ | ⟨-, heq⟩
    · have hendj := add_length_le hne ((within_iff hne).mp hj).1
      rw [heq, List.length_take] at hlength
      rwa [show i = j by omega]
    · rw [heq] at hlength
      omega
  · intro huncut
    rcases searchChunks_spec h hne chunks with ⟨i, hi, hfirst, heq⟩ | ⟨hnone, heq⟩
    · rw [heq]
      have hoccurs := ((within_iff hne).mp hi).1
      obtain ⟨k, hk, hkfirst⟩ := exists_least (P := (pattern <+: chunks.flatten.drop ·)) ⟨i, hoccurs⟩
      have hkwithin := (within_iff hne).mpr ⟨hk, huncut k ⟨hk, hkfirst⟩⟩
      have hki : k = i := Nat.le_antisymm (not_lt.mp fun hlt => hkfirst i hlt hoccurs)
        (not_lt.mp fun hlt => hfirst k hlt hkwithin)
      exact .before hne ⟨hki ▸ hk, hki ▸ hkfirst⟩
    · rw [heq]
      refine .whole (.inr fun hinfix => ?_)
      obtain ⟨k, hk, hkfirst⟩ := exists_least (exists_drop hinfix)
      exact hnone k ((within_iff hne).mpr ⟨hk, huncut k ⟨hk, hkfirst⟩⟩)

end

end Occurrence
