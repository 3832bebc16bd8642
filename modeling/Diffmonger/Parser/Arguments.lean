import Diffmonger.Parser

/-!
# The kinds of arguments

The parser tells the kinds of arguments apart by the first separator and the character before it.
`classify` says what it takes an argument for, and the lemmas below invert it: an argument is one of
the `spellings` of what it is taken for, and whatever is spelled with a free name is taken for what
it was meant to be (`classify_of_mem_spellings`).
-/

namespace Diffmonger.Parser

variable {σ : Type}

/-- What an argument is taken for. -/
inductive Argument where
  | command (key : Str)
  /-- `key+=value` -/
  | append (key value : Str)
  /-- `key:` -/
  | clear (key : Str)
  /-- `key=value` or `key:=value` -/
  | assign (key value : Str)
  deriving DecidableEq

def classify (cur : Str) : Argument :=
  let key := keyAndMaybeToken cur
  let endsWithAssignToken := endsWith key assignToken
  if keyValueSeparator ∉ cur ∧ ¬ endsWithAssignToken then .command key
  else if endsWith key appendToken then .append key.dropLast (valueOf cur)
  else
    let key := if endsWithAssignToken then key.dropLast else key
    if keyValueSeparator ∉ cur then .clear key else .assign key (valueOf cur)

/-- The loop, by the kind of its first argument. -/
theorem parseLoop_cons (path : List Str) (command : Command σ) (keyValues : KeyValues) (cur : Str)
    (args : List Str) : parseLoop path command keyValues (cur :: args) =
      match classify cur with
      | .command key =>
        match command.subcommands key with
        | none => Prog.throw (contextualError path none ("Unrecognised command: " ++ quoted key))
        | some next => do
          finalise path command keyValues
          withContext path none
            (callHook (.beforeSubcommand path key) (command.beforeSubcommand key))
          withContext (path ++ [key]) none (callHook (.onEnter (path ++ [key])) next.onEnter)
          parseLoop (path ++ [key]) next ∅ args
      | .append key value => parseLoop path command (keyValues.emplaceBack key value) args
      | .clear key => parseLoop path command (keyValues.insert key []) args
      | .assign key value =>
        parseLoop path command
          (keyValues.insert key (value :: (args.takeWhile startsWithSeparator).map (List.drop 1)))
          (args.dropWhile startsWithSeparator) := by
  rw [parseLoop, classify]
  dsimp only
  split
  · rfl
  · split
    · rfl
    · split <;> rfl

/-! ## Characters -/

section
variable {pre value : Str}

theorem keyAndMaybeToken_append (h : keyValueSeparator ∉ pre) :
    keyAndMaybeToken (pre ++ keyValueSeparator :: value) = pre := by
  have hpre : ∀ c ∈ pre, decide (c ≠ keyValueSeparator) = true := fun c hc =>
    decide_eq_true (ne_of_mem_of_not_mem hc h)
  rw [keyAndMaybeToken, List.takeWhile_append_of_pos hpre]
  simp

theorem valueOf_append (h : keyValueSeparator ∉ pre) :
    valueOf (pre ++ keyValueSeparator :: value) = value := by
  have hpre : ∀ c ∈ pre, decide (c ≠ keyValueSeparator) = true := fun c hc =>
    decide_eq_true (ne_of_mem_of_not_mem hc h)
  rw [valueOf, List.dropWhile_append_of_pos hpre]
  simp

theorem keyAndMaybeToken_of_notMem (h : keyValueSeparator ∉ pre) : keyAndMaybeToken pre = pre :=
  List.takeWhile_eq_self_iff.mpr fun _ hc => decide_eq_true (ne_of_mem_of_not_mem hc h)

/-- An argument with a separator. -/
theorem eq_append_of_mem {cur : Str} (h : keyValueSeparator ∈ cur) :
    cur = keyAndMaybeToken cur ++ keyValueSeparator :: valueOf cur := by
  have hsplit : keyAndMaybeToken cur ++ cur.dropWhile (· ≠ keyValueSeparator) = cur :=
    List.takeWhile_append_dropWhile
  cases hdrop : cur.dropWhile (· ≠ keyValueSeparator) with
  | nil =>
      have hall := List.dropWhile_eq_nil_iff.mp hdrop keyValueSeparator h
      simp at hall
  | cons c rest =>
      have hhead := List.head?_dropWhile_not (· ≠ keyValueSeparator) cur
      rw [hdrop] at hhead
      have hc : c = keyValueSeparator := by simpa using hhead
      rw [valueOf, hdrop, List.drop_one, List.tail_cons, ← hc, ← hdrop, hsplit]

@[simp] theorem endsWith_append_singleton (str : Str) (c token : Char) :
    endsWith (str ++ [c]) token ↔ c = token := by
  simp [endsWith]

theorem eq_dropLast_append_of_endsWith {str : Str} {token : Char} (h : endsWith str token) :
    str = str.dropLast ++ [token] :=
  (List.dropLast_append_getLast? token (by simpa [endsWith] using h)).symm

theorem not_endsWith_of_notMem {str : Str} {token : Char} (h : token ∉ str) :
    endsWith str token = false :=
  decide_eq_false fun hlast => h (List.mem_of_getLast? hlast)

end

/-! ## Spellings -/

def Argument.key : Argument → Str
  | command key => key
  | append key _ => key
  | clear key => key
  | assign key _ => key

/-- The arguments that are taken for this one. -/
def Argument.spellings : Argument → List Str
  | command key => [key]
  | append key value => [key ++ appendToken :: keyValueSeparator :: value]
  | clear key => [key ++ [assignToken]]
  | assign key value =>
    [key ++ keyValueSeparator :: value, key ++ assignToken :: keyValueSeparator :: value]

/-- A name that is free of the characters of the syntax. -/
structure Free (name : Str) : Prop where
  separator : keyValueSeparator ∉ name
  assign : assignToken ∉ name
  append : appendToken ∉ name

/-- An argument is spelled as what it is taken for. -/
theorem mem_spellings_classify (cur : Str) : cur ∈ (classify cur).spellings := by
  unfold classify
  dsimp only
  by_cases hmem : keyValueSeparator ∈ cur
  · have hcur := eq_append_of_mem hmem
    generalize keyAndMaybeToken cur = key at hcur ⊢
    generalize valueOf cur = value at hcur ⊢
    rw [if_neg fun h => h.1 hmem]
    by_cases happend : endsWith key appendToken
    · rw [if_pos happend, Argument.spellings, List.mem_singleton, List.append_cons,
        ← eq_dropLast_append_of_endsWith happend]
      exact hcur
    · rw [if_neg happend, if_neg (not_not_intro hmem)]
      by_cases hassign : endsWith key assignToken
      · rw [if_pos hassign]
        refine List.mem_cons_of_mem _ (List.mem_singleton.mpr ?_)
        rwa [List.append_cons, ← eq_dropLast_append_of_endsWith hassign]
      · rw [if_neg hassign, Argument.spellings, ← hcur]
        exact List.mem_cons_self
  · rw [keyAndMaybeToken_of_notMem hmem]
    by_cases hassign : endsWith cur assignToken
    · have hcur := eq_dropLast_append_of_endsWith hassign
      have happend : ¬ endsWith cur appendToken := by
        rw [hcur, endsWith_append_singleton]
        decide
      rw [if_neg fun h => h.2 hassign, if_neg happend, if_pos hassign, if_pos hmem,
        Argument.spellings, ← hcur]
      exact List.mem_singleton_self cur
    · rw [if_pos ⟨hmem, hassign⟩]
      exact List.mem_singleton_self cur

/-- What an argument with a separator is taken for, by the part before it. -/
theorem classify_append {pre : Str} (hpre : keyValueSeparator ∉ pre) (value : Str) :
    classify (pre ++ keyValueSeparator :: value) =
      if endsWith pre appendToken then .append pre.dropLast value
      else .assign (if endsWith pre assignToken then pre.dropLast else pre) value := by
  have hmem : keyValueSeparator ∈ pre ++ keyValueSeparator :: value := by simp
  rw [classify, keyAndMaybeToken_append hpre, valueOf_append hpre, if_neg fun h => h.1 hmem,
    if_neg (not_not_intro hmem)]

/-- An argument is taken for what it is spelled as, if the name in it is free. -/
theorem classify_of_mem_spellings {a : Argument} {cur : Str} (hkey : Free a.key)
    (h : cur ∈ a.spellings) : classify cur = a := by
  cases a with
  | command key =>
      change Free key at hkey
      obtain rfl := List.mem_singleton.mp h
      have hassign : endsWith cur assignToken = false := not_endsWith_of_notMem hkey.assign
      rw [classify, keyAndMaybeToken_of_notMem hkey.separator,
        if_pos ⟨hkey.separator, by simp [hassign]⟩]
  | append key value =>
      change Free key at hkey
      obtain rfl := List.mem_singleton.mp h
      have hpre : keyValueSeparator ∉ key ++ [appendToken] := by
        simpa [keyValueSeparator, appendToken] using hkey.separator
      rw [List.append_cons, classify_append hpre, if_pos (by simp), List.dropLast_concat]
  | clear key =>
      change Free key at hkey
      obtain rfl := List.mem_singleton.mp h
      have hpre : keyValueSeparator ∉ key ++ [assignToken] := by
        simpa [keyValueSeparator, assignToken] using hkey.separator
      have happend : ¬ endsWith (key ++ [assignToken]) appendToken := by
        rw [endsWith_append_singleton]
        decide
      rw [classify, keyAndMaybeToken_of_notMem hpre, if_neg fun h => h.2 (by simp),
        if_neg happend, if_pos hpre, if_pos (by simp), List.dropLast_concat]
  | assign key value =>
      change Free key at hkey
      rcases List.mem_pair.mp h with rfl | rfl
      -- `key=value`
      · rw [classify_append hkey.separator, not_endsWith_of_notMem hkey.append,
          not_endsWith_of_notMem hkey.assign, if_neg Bool.false_ne_true,
          if_neg Bool.false_ne_true]
      -- `key:=value`, where the colon says nothing
      · have hpre : keyValueSeparator ∉ key ++ [assignToken] := by
          simpa [keyValueSeparator, assignToken] using hkey.separator
        have happend : ¬ endsWith (key ++ [assignToken]) appendToken := by
          rw [endsWith_append_singleton]
          decide
        rw [List.append_cons, classify_append hpre, if_neg happend, if_pos (by simp),
          List.dropLast_concat]

end Diffmonger.Parser
