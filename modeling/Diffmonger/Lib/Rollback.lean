import Diffmonger.Lib.Retention
import Mathlib.Data.List.Induction
import Mathlib.Data.List.TakeWhile

/-!
# A tree in a linear history

A linear history can only be extended at its end, and to extend it elsewhere it is first rolled
back, which discards everything after that place. `rollBack` is that operation on the list of what
the history holds.

The items of a retention schedule can be put into a linear history one after the other, each on top
of its parent: as long as they come in the order of their numbers, the parent of the next item is
never among what has been discarded (`Traces.parent_mem`). All that is needed is that the history
is ordered and holds the path of the newest item (`Traces`).

To bring the history to an item, the items of its path are put into it. If those that are in the
history already are skipped, then nothing is rolled back when none is missing, and the history stays
where it is (`getLast?_foldl_putMissing`).
-/

section
variable {α : Type} [DecidableEq α]

/-- Discard everything after `a`. -/
def rollBack (a : α) (history : List α) : List α := history.takeWhile (· ≠ a) ++ [a]

theorem prefix_of_rollBack {a : α} {history : List α} (ha : a ∈ history) :
    rollBack a history <+: history := by
  induction history with
  | nil => cases ha
  | cons b history ih =>
      by_cases hb : b = a
      · subst hb
        simp [rollBack]
      · rw [rollBack, List.takeWhile_cons_of_pos (by simpa using hb), List.cons_append,
          List.prefix_cons_inj]
        exact ih ((List.mem_cons.mp ha).resolve_left fun h => hb h.symm)

theorem mem_rollBack_self (a : α) (history : List α) : a ∈ rollBack a history := by
  simp [rollBack]

variable {key : α → ℕ} {history : List α}

/-- In an ordered history, what comes before stays. -/
theorem mem_rollBack_of_le (hordered : history.Pairwise fun a b => key a < key b) {a b : α}
    (ha : a ∈ history) (hb : b ∈ history) (hle : key b ≤ key a) : b ∈ rollBack a history := by
  obtain ⟨discarded, heq⟩ := prefix_of_rollBack ha
  rw [← heq] at hb hordered
  refine (List.mem_append.mp hb).resolve_right fun hmem => ?_
  have hlt := (List.pairwise_append.mp hordered).2.2 a (mem_rollBack_self a history) b hmem
  omega

theorem rel_of_mem_rollBack {r : α → α → Prop} (hordered : history.Pairwise r) {a b : α}
    (ha : a ∈ history) (hb : b ∈ rollBack a history) : b = a ∨ r b a := by
  rcases List.mem_append.mp hb with hbefore | hself
  · have hsorted := hordered.sublist (prefix_of_rollBack ha).sublist
    exact .inr ((List.pairwise_append.mp hsorted).2.2 b hbefore a (List.mem_singleton_self a))
  · exact .inl (List.mem_singleton.mp hself)

theorem le_of_mem_rollBack (hordered : history.Pairwise fun a b => key a < key b) {a b : α}
    (ha : a ∈ history) (hb : b ∈ rollBack a history) : key b ≤ key a := by
  rcases rel_of_mem_rollBack hordered ha hb with rfl | hlt
  · exact le_rfl
  · exact hlt.le

/-- Nothing is added but the place itself. -/
theorem mem_of_mem_rollBack {a b : α} (hb : b ∈ rollBack a history) : b = a ∨ b ∈ history := by
  rcases List.mem_append.mp hb with hbefore | hself
  · exact .inr ((List.takeWhile_prefix _).subset hbefore)
  · exact .inl (List.mem_singleton.mp hself)

end

namespace Retention

variable (R : Retention)

/-- An ancestor is also one of everything between. -/
theorem mem_path_of_le {a k n : ℕ} (h : a ∈ R.path n) (hak : a ≤ k) (hkn : k ≤ n) :
    a ∈ R.path k := by
  induction n with
  | zero =>
      obtain rfl := Nat.le_zero.mp hkn
      exact h
  | succ n ih =>
      rcases Nat.of_le_succ hkn with hle | rfl
      · refine ih ((R.path_succ_subset n h).resolve_left ?_) hle
        rintro rfl
        omega
      · exact h

/-- What an item rests on, other than itself, everything since then rests on, too. -/
theorem parent_mem_path_of_lt {k last : ℕ} (hparent : R.parent k ≤ last) (hlt : last < k) :
    R.parent k ∈ R.path last := by
  obtain ⟨n, rfl⟩ : ∃ n, k = n + 1 := ⟨k - 1, by omega⟩
  exact R.mem_path_of_le (R.parent_succ_mem n) hparent (Nat.le_of_lt_succ hlt)

section
variable {α : Type} (key : α → ℕ) (ids : ℕ → α)

/-- The history is ordered, and holds the path of `last`. -/
structure Traces (last : ℕ) (history : List α) : Prop where
  ordered : history.Pairwise fun a b => key a < key b
  path : ∀ a ∈ R.path last, ids a ∈ history

end

variable {R} {α : Type} {key : α → ℕ} {ids : ℕ → α} {last k : ℕ} {history : List α}

theorem traces_root : R.Traces key ids 0 [ids 0] where
  ordered := List.pairwise_singleton _ _
  path a ha := by
    obtain rfl := Nat.le_zero.mp (R.path_le ha)
    exact List.mem_singleton_self _

/-- The parent of the next item is in the history. -/
theorem Traces.parent_mem (h : R.Traces key ids last history) (hparent : R.parent k ≤ last)
    (hlt : last < k) : ids (R.parent k) ∈ history :=
  h.path _ (R.parent_mem_path_of_lt hparent hlt)

/-- The next item is put on top of its parent. -/
theorem Traces.extend [DecidableEq α] (h : R.Traces key ids last history)
    (hparent : R.parent k ≤ last) (hlt : last < k) (hkey : ∀ a ∈ R.path k, key (ids a) = a) :
    R.Traces key ids k (rollBack (ids (R.parent k)) history ++ [ids k]) := by
  have hpath := R.parent_mem_path_of_lt hparent hlt
  have hmem := h.path _ hpath
  have hkeyParent : key (ids (R.parent k)) = R.parent k := hkey _ ⟨1, rfl⟩
  refine ⟨List.pairwise_append.mpr ⟨?_, List.pairwise_singleton _ _, ?_⟩, fun a ha => ?_⟩
  · exact h.ordered.sublist (prefix_of_rollBack hmem).sublist
  · intro a ha b hb
    obtain rfl := List.mem_singleton.mp hb
    have hle := le_of_mem_rollBack h.ordered hmem ha
    rw [hkeyParent] at hle
    rw [hkey k (R.self_mem_path k)]
    omega
  · have hkeyA := hkey a ha
    rw [path_eq_insert] at ha
    rcases ha with rfl | ha
    · exact List.mem_append_right _ (List.mem_singleton_self _)
    · refine List.mem_append_left _ (mem_rollBack_of_le h.ordered hmem
        (h.path a (R.path_trans ha hpath)) ?_)
      rw [hkeyA, hkeyParent]
      exact R.path_le ha

/-!
## Items that are already there

Restoring may skip items that the history holds. Then an item is not always put on top, and the
history only ends with it if something has been put.
-/

section
variable {α : Type} [DecidableEq α] (R : Retention) (ids : ℕ → α)

/-- Put an item on top of its parent; the root replaces the history. -/
def put (history : List α) (k : ℕ) : List α :=
  if k = 0 then [ids 0] else rollBack (ids (R.parent k)) history ++ [ids k]

/-- Put an item on top of its parent, unless it is there already. -/
def putMissing (history : List α) (k : ℕ) : List α :=
  if ids k ∈ history then history else R.put ids history k

/-- The history `h` once the given items of the path of `k` have been put into `history`, of which
one was missing. -/
structure PutOnto (k : ℕ) (history : List α) (treated : List ℕ) (h : List α) : Prop where
  missing : ∃ a ∈ treated, ids a ∉ history
  last : ∃ a ∈ treated, (∀ b ∈ treated, b ≤ a) ∧ h.getLast? = some (ids a) ∧
    ∀ b ∈ R.path k, ids b ∈ h → b ≤ a

variable {R ids} {r : α → α → Prop} {k a : ℕ} {history h : List α} {items treated rest : List ℕ}

theorem getLast?_put : (R.put ids history k).getLast? = some (ids k) := by
  unfold put
  split
  · next hroot => rw [hroot]; rfl
  · exact List.getLast?_concat ..

/-- The parent of an item of the path comes before it. -/
theorem parent_mem_treated (hitems : (treated ++ a :: rest).Pairwise (· < ·))
    (hmem : ∀ b, b ∈ treated ++ a :: rest ↔ b ∈ R.path k) (hroot : a ≠ 0) :
    R.parent a ∈ treated := by
  have hparent : R.parent a ∈ treated ++ a :: rest := by
    rw [hmem]
    exact R.path_trans ⟨1, rfl⟩ ((hmem a).mp (by simp))
  refine (List.mem_append.mp hparent).resolve_right fun hafter => ?_
  have hlt := R.parent_lt a hroot
  rcases List.mem_cons.mp hafter with heq | hrest
  · omega
  · have hgt := List.rel_of_pairwise_cons (List.pairwise_append.mp hitems).2.1 hrest
    omega

/-- What the history holds of the path once an item of it has been put there. -/
theorem le_of_mem_put (hr : ∀ a ∈ R.path k, ∀ b ∈ R.path k, ids a = ids b ∨ r (ids a) (ids b) → a ≤ b)
    (ha : a ∈ R.path k) (hbefore : a ≠ 0 → ∀ b ∈ R.path k,
      ids b ∈ rollBack (ids (R.parent a)) h → b ≤ a) {b : ℕ} (hb : b ∈ R.path k)
    (hput : ids b ∈ R.put ids h a) : b ≤ a := by
  unfold put at hput
  split at hput
  · next hroot =>
      rw [← hroot] at hput
      exact hr b hb a ha (.inl (List.mem_singleton.mp hput))
  · next hroot =>
      rcases List.mem_append.mp hput with hkept | hself
      · exact hbefore hroot b hb hkept
      · exact hr b hb a ha (.inl (List.mem_singleton.mp hself))

section
variable (hitems : (treated ++ a :: rest).Pairwise (· < ·))
  (hmem : ∀ b, b ∈ treated ++ a :: rest ↔ b ∈ R.path k)
  (hr : ∀ a ∈ R.path k, ∀ b ∈ R.path k, ids a = ids b ∨ r (ids a) (ids b) → a ≤ b)
include hitems hmem hr

theorem putOnto_of_le (hmissing : ∃ b ∈ treated ++ [a], ids b ∉ history)
    (hbefore : a ≠ 0 → ∀ b ∈ R.path k, ids b ∈ rollBack (ids (R.parent a)) h → b ≤ a) :
    R.PutOnto ids k history (treated ++ [a]) (R.put ids h a) := by
  have ha : a ∈ R.path k := (hmem a).mp (by simp)
  refine ⟨hmissing, a, by simp, fun b hb => ?_, getLast?_put, fun b hb hput =>
    le_of_mem_put hr ha hbefore hb hput⟩
  rcases List.mem_append.mp hb with hb | hb
  · exact ((List.pairwise_append.mp hitems).2.2 b hb a (by simp)).le
  · exact (List.mem_singleton.mp hb).le

/-- Putting the first item that is missing rolls the history back to its parent. -/
theorem putOnto_first (hordered : history.Pairwise r) (hthere : ∀ b ∈ treated, ids b ∈ history)
    (hmissing : ids a ∉ history) :
    R.PutOnto ids k history (treated ++ [a]) (R.putMissing ids history a) := by
  rw [putMissing, if_neg hmissing]
  refine putOnto_of_le hitems hmem hr ⟨a, by simp, hmissing⟩ fun hroot b hb hkept => ?_
  have hparent := parent_mem_treated hitems hmem hroot
  have hpath : R.parent a ∈ R.path k := R.path_trans ⟨1, rfl⟩ ((hmem a).mp (by simp))
  have hle := hr b hb _ hpath (rel_of_mem_rollBack hordered (hthere _ hparent) hkept)
  exact hle.trans (R.parent_lt a hroot).le

/-- From then on, every item is missing. -/
theorem PutOnto.next (hput : R.PutOnto ids k history treated h) :
    R.PutOnto ids k history (treated ++ [a]) (R.putMissing ids h a) := by
  obtain ⟨⟨b, hb, hmissing⟩, last, hlast, -, -, hle⟩ := hput
  have hlt : last < a := (List.pairwise_append.mp hitems).2.2 last hlast a (by simp)
  have hnot : ids a ∉ h := fun hthere =>
    absurd (hle a ((hmem a).mp (by simp)) hthere) hlt.not_ge
  rw [putMissing, if_neg hnot]
  refine putOnto_of_le hitems hmem hr ⟨b, by simp [hb], hmissing⟩ fun hroot b hb hkept => ?_
  have hpath : R.parent a ∈ R.path k := R.path_trans ⟨1, rfl⟩ ((hmem a).mp (by simp))
  rcases mem_of_mem_rollBack hkept with heq | hthere
  · exact (hr b hb _ hpath (.inl heq)).trans (R.parent_lt a hroot).le
  · exact (hle b hb hthere).trans hlt.le

end

/-- Either nothing was missing so far, or the history ends with the item put last. -/
theorem foldl_putMissing (hitems : items.Pairwise (· < ·)) (hmem : ∀ b, b ∈ items ↔ b ∈ R.path k)
    (hordered : history.Pairwise r)
    (hr : ∀ a ∈ R.path k, ∀ b ∈ R.path k, ids a = ids b ∨ r (ids a) (ids b) → a ≤ b)
    (heq : items = treated ++ rest) :
    ((∀ b ∈ treated, ids b ∈ history) ∧ treated.foldl (R.putMissing ids) history = history) ∨
      R.PutOnto ids k history treated (treated.foldl (R.putMissing ids) history) := by
  induction treated using List.reverseRec generalizing rest with
  | nil => exact .inl ⟨List.forall_mem_nil _, rfl⟩
  | append_singleton treated a ih =>
      rw [List.append_assoc, List.singleton_append] at heq
      subst heq
      rw [List.foldl_append, List.foldl_cons, List.foldl_nil]
      rcases ih rfl with ⟨hthere, hsame⟩ | hput
      · rw [hsame]
        by_cases ha : ids a ∈ history
        · refine .inl ⟨List.forall_mem_append.mpr ⟨hthere, by simpa using ha⟩, if_pos ha⟩
        · exact .inr (putOnto_first hitems hmem hr hordered hthere ha)
      · exact .inr (hput.next hitems hmem hr)

/-- Putting the missing items of a path brings the history to its last item exactly if one of them
was missing, or the history ended there already. -/
theorem getLast?_foldl_putMissing (hitems : items.Pairwise (· < ·))
    (hmem : ∀ b, b ∈ items ↔ b ∈ R.path k) (hordered : history.Pairwise r)
    (hr : ∀ a ∈ R.path k, ∀ b ∈ R.path k, ids a = ids b ∨ r (ids a) (ids b) → a ≤ b) :
    (items.foldl (R.putMissing ids) history).getLast? = some (ids k) ↔
      (∃ a ∈ R.path k, ids a ∉ history) ∨ history.getLast? = some (ids k) := by
  rcases foldl_putMissing hitems hmem hordered hr (List.append_nil items).symm with
    ⟨hthere, hsame⟩ | ⟨⟨a, ha, hmissing⟩, last, hlast, hmax, hend, -⟩
  · rw [hsame]
    refine ⟨.inr, fun h => h.resolve_left ?_⟩
    rintro ⟨a, ha, hmissing⟩
    exact hmissing (hthere a ((hmem a).mpr ha))
  · obtain rfl : last = k := le_antisymm (R.path_le ((hmem last).mp hlast))
      (hmax k ((hmem k).mpr (R.self_mem_path k)))
    exact ⟨fun _ => .inl ⟨a, (hmem a).mp ha, hmissing⟩, fun _ => hend⟩

end

end Retention
