import Mathlib.Data.List.Basic
import Mathlib.Data.Nat.Notation

/-!
# Lists divided into chunks

A reader that fills a buffer again and again divides what it reads into chunks of the buffer's size,
the last one of which may be shorter. There is only one way to do so.
-/

variable {α : Type}

/-- The chunks of a list: none of them is empty or longer than `size`, and only the last one may be
shorter. -/
structure Chunked (size : ℕ) (xs : List α) (chunks : List (List α)) : Prop where
  flatten : chunks.flatten = xs
  nonempty : ∀ chunk ∈ chunks, chunk ≠ []
  le : ∀ chunk ∈ chunks, chunk.length ≤ size
  full : ∀ chunk ∈ chunks.dropLast, chunk.length = size

namespace Chunked

variable {size : ℕ} {xs chunk : List α} {chunks chunks' : List (List α)}

theorem nil : Chunked size ([] : List α) [] := ⟨rfl, by simp, by simp, by simp⟩

/-- A list that fits the buffer. -/
theorem last (hne : xs ≠ []) (hle : xs.length ≤ size) : Chunked size xs [xs] := by
  refine ⟨by simp, ?_, ?_, by simp⟩
  · rintro _ hmem rfl
    exact hne (List.mem_singleton.mp hmem).symm
  · intro chunk hmem
    rwa [List.mem_singleton.mp hmem]

theorem cons (hsize : 0 < size) (hfull : chunk.length = size) (h : Chunked size xs chunks) :
    Chunked size (chunk ++ xs) (chunk :: chunks) := by
  refine ⟨by rw [List.flatten_cons, h.flatten], ?_, ?_, ?_⟩
  · refine List.forall_mem_cons.mpr ⟨List.ne_nil_of_length_pos (by omega), h.nonempty⟩
  · exact List.forall_mem_cons.mpr ⟨Nat.le_of_eq hfull, h.le⟩
  · intro c hc
    cases chunks with
    | nil => cases hc
    | cons d chunks =>
        rw [List.dropLast_cons_cons] at hc
        rcases List.mem_cons.mp hc with rfl | hc
        · exact hfull
        · exact h.full c hc

/-- The first chunk is as much of the list as fits the buffer. -/
theorem head_tail (h : Chunked size xs (chunk :: chunks)) :
    chunk = xs.take size ∧ chunks.flatten = xs.drop size := by
  have hflatten := h.flatten
  rw [List.flatten_cons] at hflatten
  cases chunks with
  | nil =>
      have hle := h.le chunk (List.mem_singleton_self chunk)
      rw [List.flatten_nil, List.append_nil] at hflatten
      rw [← hflatten, List.take_of_length_le hle, List.drop_of_length_le hle]
      exact ⟨rfl, rfl⟩
  | cons d chunks =>
      have hfull : chunk.length = size := h.full chunk (by simp)
      rw [← hflatten, ← hfull, List.take_left, List.drop_left]
      exact ⟨rfl, rfl⟩

theorem tail (h : Chunked size xs (chunk :: chunks)) : Chunked size (xs.drop size) chunks := by
  refine ⟨h.head_tail.2, fun c hc => h.nonempty c (List.mem_cons_of_mem _ hc),
    fun c hc => h.le c (List.mem_cons_of_mem _ hc), fun c hc => h.full c ?_⟩
  cases chunks with
  | nil => cases hc
  | cons d chunks => exact List.mem_cons_of_mem _ hc

theorem ne_nil (h : Chunked size xs (chunk :: chunks)) : xs ≠ [] := by
  rintro rfl
  have hhead := h.head_tail.1
  rw [List.take_nil] at hhead
  exact h.nonempty chunk List.mem_cons_self hhead

/-- The chunks depend on the list and on the size of the buffer only. -/
theorem unique (h : Chunked size xs chunks) (h' : Chunked size xs chunks') : chunks = chunks' := by
  induction chunks generalizing xs chunks' with
  | nil =>
      cases chunks' with
      | nil => rfl
      | cons chunk' chunks' => exact absurd h.flatten.symm h'.ne_nil
  | cons chunk chunks ih =>
      cases chunks' with
      | nil => exact absurd h'.flatten.symm h.ne_nil
      | cons chunk' chunks' =>
          rw [h.head_tail.1, h'.head_tail.1, ih h.tail h'.tail]

end Chunked
