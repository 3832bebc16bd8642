import Diffmonger.EncryptionUtil.Spec
import Diffmonger.RepositoryStructure.Spec

/-!
# Adding a key pair

`storeKeyPair` takes the number of slots that are read for the number of the next slot. No more than
`maxKeySlots` are read.

Main result: `storeKeyPair_visited_iff`. Behind fewer slots the new one is the next that is read; it
is visited unless a slot before it holds no key pair, at which the visits end (`readable`). Behind
`maxKeySlots` slots it is written and never read again, and behind more of them it is not written.
-/

namespace Diffmonger

open Prog

variable {β : Type}

/-- The key slots are numbered from 0 without a gap, and hold the given files. -/
def Disk.HasKeyFiles (disk : Disk) (files : List Bytes) : Prop :=
  disk.keys = some fun i => files[i]?

namespace RepositoryStructure

/-!
## The visits of a visitor that never stops

A visitor that records what it is given, and asks for more each time, sees all that `withKeyPairs`
can be made to visit.
-/

/-- The process keeps the key pairs that it is given in place of a dataset. -/
def recordVisit (_captured : Unit) (keyPair : KeyPair) : Repo (List KeyPair) (Unit × Bool) := do
  Prog.modify .look fun w => { w with backend := w.backend ++ [keyPair] }
  return ((), false)

/-- The key pairs that `withKeyPairs` visits, also if it throws in the end. -/
def visited (w : World β) : List KeyPair :=
  let start : World (List KeyPair) := ⟨w.disk, w.repositoryStructure, []⟩
  (stateAfter start ((withKeyPairs recordVisit ()).run start).steps).backend

/-- The key pairs before the first file that holds none. -/
def readable : List Bytes → List KeyPair
  | [] => []
  | file :: files =>
    match KeyPair.ofBytes file with
    | .ok keyPair => keyPair :: readable files
    | .error _ => []

theorem readable_append {files : List Bytes} (h : ∀ file ∈ files, ∃ keyPair,
    KeyPair.ofBytes file = .ok keyPair) (files' : List Bytes) :
    readable (files ++ files') = readable files ++ readable files' := by
  induction files with
  | nil => rfl
  | cons file files ih =>
      obtain ⟨⟨keyPair, hfile⟩, hfiles⟩ := List.forall_mem_cons.mp h
      rw [List.cons_append, readable, readable, hfile, ih hfiles]
      rfl

/-- Behind a file that holds no key pair, nothing is visited. -/
theorem readable_append_of_error {files : List Bytes} {file : Bytes} (hmem : file ∈ files)
    {e : Exn} (hfile : KeyPair.ofBytes file = .error e) (files' : List Bytes) :
    readable (files ++ files') = readable files := by
  induction files with
  | nil => cases hmem
  | cons first files ih =>
      rw [List.cons_append, readable, readable]
      cases hfirst : KeyPair.ofBytes first with
      | error _ => rfl
      | ok keyPair =>
          rcases List.mem_cons.mp hmem with rfl | hmem
          · rw [hfile] at hfirst
            cases hfirst
          · exact congrArg (keyPair :: ·) (ih hmem)

section
variable {files : List Bytes}

/-- What the loop over the slots visits from slot `i` on. -/
theorem withKeyFilesLoop_visits (slots i : ℕ) (w : World (List KeyPair)) :
    (withKeyFilesLoop (fun captured file => do
        recordVisit captured (← ofExcept (KeyPair.ofBytes file)))
      (fun i => files[i]?) slots i ()).Ends
      (fun _ w' => w'.backend = w.backend ++ readable ((files.drop i).take slots)) w := by
  induction slots generalizing i w with
  | zero =>
      intro tr
      exact (List.append_nil _).symm
  | succ slots ih =>
      intro tr
      rw [withKeyFilesLoop]
      cases hi : files[i]? with
      | none =>
          rw [List.drop_eq_nil_of_le (List.getElem?_eq_none_iff.mp hi)]
          exact (List.append_nil _).symm
      | some file =>
          obtain ⟨hlt, rfl⟩ := List.getElem?_eq_some_iff.mp hi
          rw [← List.getElem_cons_drop hlt, List.take_succ_cons, readable]
          simp only [wp_bind, wp_ofExcept]
          cases KeyPair.ofBytes files[i] with
          | error e => exact (List.append_nil _).symm
          | ok keyPair =>
              simp only [Result.ofExcept, bindPost, recordVisit, wp_bind, wp_modify, wp_pure,
                true_and]
              refine wp_post (fun r tr w' hr => ?_) (ih (i + 1) _ _)
              rw [hr, List.append_assoc]
              rfl

theorem visited_eq {w : World β} (h : w.disk.HasKeyFiles files) :
    visited w = readable (files.take maxKeySlots) := by
  rw [Disk.HasKeyFiles] at h
  suffices hends : (withKeyPairs recordVisit ()).Ends
      (fun _ w' => w'.backend = readable (files.take maxKeySlots))
      ⟨w.disk, w.repositoryStructure, []⟩ from ends_iff_run.mp hends
  intro tr
  simp only [withKeyPairs, withKeyFiles, wp_bind, wp_look, bindPost, true_and, h]
  have hvisits := @withKeyFilesLoop_visits files maxKeySlots 0 ⟨w.disk, w.repositoryStructure, []⟩
  simp only [List.drop_zero, List.nil_append] at hvisits
  exact hvisits _

/-!
## The next slot

A new key pair goes to the slot after the ones in use, as counted by `getKeyFiles`; and this count
ends at `maxKeySlots`.
-/

/-- At most `maxKeySlots` slots are read. -/
theorem getKeyFiles_ends {w : World β} (h : w.disk.HasKeyFiles files) :
    (getKeyFiles : Repo β (List Bytes)).Ends
      (fun r w' => r = .val (files.take maxKeySlots) ∧ w' = w) w := by
  rw [Disk.HasKeyFiles] at h
  intro tr
  simp only [getKeyFiles, withKeyFiles, wp_bind, wp_look, bindPost, true_and, h]
  generalize maxKeySlots = slots
  suffices hloop : ∀ i out tr, (withKeyFilesLoop (fun out file => pure (out ++ [file], false))
      (fun i => files[i]?) slots i out : Repo β (List Bytes)).wp (fun _ _ => True)
      (fun r _ w' => r = .val (out ++ (files.drop i).take slots) ∧ w' = w) tr w from
    hloop 0 [] _
  induction slots with
  | zero => exact fun i out tr => ⟨by rw [List.take_zero, List.append_nil], rfl⟩
  | succ slots ih =>
      intro i out tr
      rw [withKeyFilesLoop]
      cases hi : files[i]? with
      | none =>
          rw [List.drop_eq_nil_of_le (List.getElem?_eq_none_iff.mp hi), List.take_nil,
            List.append_nil]
          exact ⟨rfl, rfl⟩
      | some file =>
          obtain ⟨hlt, rfl⟩ := List.getElem?_eq_some_iff.mp hi
          rw [← List.getElem_cons_drop hlt, List.take_succ_cons]
          have hrest := ih (i + 1) (out ++ [files[i]]) tr
          rw [List.append_assoc] at hrest
          exact hrest

/-- A key pair is added behind the slots that there are, unless these are more than are read. -/
theorem storeKeyPair_ends {w : World β} (h : w.disk.HasKeyFiles files) (repository : String)
    (keyPair : KeyPair) :
    (storeKeyPair repository keyPair : Repo β Disk).Ends
      (fun r _ => if files.length ≤ maxKeySlots then
          ∃ disk, r = .val disk ∧ disk.HasKeyFiles (files ++ [Serialisation.serialise keyPair])
        else ∃ e, r = .exn e) w := by
  intro tr
  rw [storeKeyPair, wp_bind]
  refine wp_post ?_ (getKeyFiles_ends h tr)
  rintro r tr w' ⟨rfl, rfl⟩
  rw [Disk.HasKeyFiles] at h
  simp only [bindPost, wp_bind, wp_look, h, true_and, List.length_take]
  split
  · next hle =>
      rw [min_eq_right hle, if_neg (by simp)]
      refine ⟨_, rfl, congrArg some (funext fun i => ?_)⟩
      rcases lt_trichotomy i files.length with hlt | rfl | hgt
      · rw [Function.update_of_ne hlt.ne, List.getElem?_append_left hlt]
      · rw [Function.update_self, List.getElem?_concat_length]
      · rw [Function.update_of_ne hgt.ne', List.getElem?_eq_none hgt.le,
          List.getElem?_eq_none (by rw [List.length_append]; exact hgt)]
  · next hgt =>
      have hlt : maxKeySlots < files.length := Nat.lt_of_not_le hgt
      rw [min_eq_left hlt.le, if_pos (by simpa using hlt)]
      exact ⟨_, rfl⟩

/-- The slot `maxKeySlots` is never read. -/
theorem storeKeyPair_unread {w : World β} (h : w.disk.HasKeyFiles files)
    (hlength : files.length = maxKeySlots) (repository : String) (keyPair : KeyPair) :
    ∃ w' : World β, ((storeKeyPair repository keyPair).run w).result = .val w'.disk ∧
      visited w' = visited w := by
  have hend := ends_iff_run.mp (storeKeyPair_ends h repository keyPair)
  rw [if_pos hlength.le] at hend
  obtain ⟨disk, hval, hdisk⟩ := hend
  refine ⟨{ w with disk := disk }, hval, ?_⟩
  rw [visited_eq h, visited_eq (w := { w with disk := disk }) hdisk,
    List.take_append_of_le_length hlength.ge]

/-- What `storeKeyPair` stores is visited after what was visited before exactly if the slots are not
`maxKeySlots` in number and, where they are fewer, each of them holds a key pair. (Where they are
more, nothing is stored.) -/
theorem storeKeyPair_visited_iff {w : World β} (h : w.disk.HasKeyFiles files) (repository : String)
    (keyPair : KeyPair) :
    (∀ (w' : World β), ((storeKeyPair repository keyPair).run w).result = .val w'.disk →
        visited w' = visited w ++ [keyPair]) ↔
      files.length ≠ maxKeySlots ∧ (files.length < maxKeySlots →
        ∀ file ∈ files, ∃ keyPair, KeyPair.ofBytes file = .ok keyPair) := by
  have hend := ends_iff_run.mp (storeKeyPair_ends h repository keyPair)
  have hnew : readable [Serialisation.serialise keyPair] = [keyPair] := by
    rw [readable, KeyPair.ofBytes_serialise]
    rfl
  rcases lt_trichotomy files.length maxKeySlots with hlt | heq | hgt
  · rw [if_pos hlt.le] at hend
    obtain ⟨disk, hval, hdisk⟩ := hend
    have hafter (w' : World β) (hw' : w'.disk = disk) : visited w' =
        readable (files ++ [Serialisation.serialise keyPair]) := by
      rw [visited_eq (hw' ▸ hdisk), List.take_of_length_le (by simpa using hlt)]
    rw [visited_eq h, List.take_of_length_le hlt.le]
    constructor
    · intro hvisited
      refine ⟨hlt.ne, fun _ file hfile => ?_⟩
      cases hparse : KeyPair.ofBytes file with
      | ok keyPair' => exact ⟨keyPair', rfl⟩
      | error e =>
          -- the new slot is not reached
          have hlast := hvisited { w with disk := disk } hval
          rw [hafter _ rfl, readable_append_of_error hfile hparse] at hlast
          simp at hlast
    · rintro ⟨-, hall⟩ w' hval'
      rw [hafter w' (Result.val.inj (hval'.symm.trans hval)), readable_append (hall hlt), hnew]
  · obtain ⟨w', hval, hunread⟩ := storeKeyPair_unread h heq repository keyPair
    -- the new slot is written, but not read
    refine iff_of_false (fun hvisited => ?_) (fun hne => hne.1 heq)
    rw [hvisited w' hval] at hunread
    simp at hunread
  · rw [if_neg hgt.not_ge] at hend
    obtain ⟨e, hexn⟩ := hend
    -- nothing is stored, since the next slot of those that are read is taken
    refine iff_of_true (fun w' hval => ?_) ⟨hgt.ne', fun hlt => absurd hlt hgt.not_gt⟩
    rw [hexn] at hval
    cases hval

/-! ## Runs on fixed inputs -/

/-- `n` key slots that hold a key pair. -/
def sampleFiles (n : ℕ) : List Bytes := List.replicate n (Serialisation.serialise (sampleKeyPair 1))

def sampleSlots (n : ℕ) : World Unit :=
  { disk := ⟨none, none, some fun i => (sampleFiles n)[i]?, none, none, fun _ => none⟩
    repositoryStructure :=
      ⟨"repository", .replicate 16 0, ⟨[], Nat.zero_le _⟩, .initial, false⟩
    backend := () }

/-- A second key pair is visited after the first one. -/
theorem storeKeyPair_visited_iff_one :
    (sampleSlots 1).disk.HasKeyFiles (sampleFiles 1) ∧ ∀ w' : World Unit,
      ((storeKeyPair "repository" (sampleKeyPair 2)).run (sampleSlots 1)).result = .val w'.disk →
        visited w' = visited (sampleSlots 1) ++ [sampleKeyPair 2] := by
  have hslots : (sampleSlots 1).disk.HasKeyFiles (sampleFiles 1) := rfl
  refine ⟨hslots, (storeKeyPair_visited_iff hslots _ _).mpr ⟨by simp [sampleFiles, maxKeySlots],
    fun _ file hfile => ?_⟩⟩
  rw [List.eq_of_mem_replicate hfile]
  exact ⟨_, KeyPair.ofBytes_serialise _⟩

/-- The key pair that is stored behind 255 others is not visited. -/
theorem storeKeyPair_unread_255 :
    (sampleSlots 255).disk.HasKeyFiles (sampleFiles 255) ∧ ∃ w' : World Unit,
      ((storeKeyPair "repository" (sampleKeyPair 2)).run (sampleSlots 255)).result = .val w'.disk ∧
        visited w' ≠ visited (sampleSlots 255) ++ [sampleKeyPair 2] := by
  have hslots : (sampleSlots 255).disk.HasKeyFiles (sampleFiles 255) := rfl
  obtain ⟨w', hval, hunread⟩ :=
    storeKeyPair_unread hslots List.length_replicate "repository" (sampleKeyPair 2)
  refine ⟨hslots, w', hval, ?_⟩
  rw [hunread]
  simp

end

end RepositoryStructure

end Diffmonger
