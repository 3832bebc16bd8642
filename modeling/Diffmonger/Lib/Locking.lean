import Diffmonger.Lib.History
import Mathlib.Logic.Function.Basic

/-!
# Programs that take a lock first

Processes are started at any time, and run programs on a shared state at the same time. Each waits
for the lock before its first step, and has it until it is over. A process may be killed at any
time; its children, which have the lock as well, may then still take the steps that are theirs.

In whatever order the processes take their steps, it is as if the programs had been run one after
the other, in the order in which they got the lock (`Run.serial`), and a process that returns has
done all of its program in one go (`attempt_of_finish`).

The invariant of a run is `Progress`: either nobody has the lock, and the state is one that a
history of attempts leaves; or one process has it, and the state is one that an attempt at its
program has reached, after such a history. A process that is killed keeps the lock until its
children are gone, so that what they do after it counts as steps of the same attempt.
-/

namespace Locking

variable {ι σ ε α Pid : Type}

/-- The life of a process. -/
inductive Phase (ι σ ε α : Type) where
  | waiting (program : Prog ι σ ε α)
  /-- It has the lock, and `rest` to do. -/
  | running (rest : Prog ι σ ε α)
  /-- It has been killed, but its children have the lock. -/
  | orphaned (rest : Prog ι σ ε α)
  | gone

/-- What a process that has the lock has still to do. -/
def Phase.rest : Phase ι σ ε α → Option (Prog ι σ ε α)
  | running rest | orphaned rest => some rest
  | waiting _ | gone => none

structure Config (ι σ ε α Pid : Type) where
  state : σ
  /-- Not every process has been started yet. -/
  process : Pid → Option (Phase ι σ ε α)

inductive Label (ι ε α Pid : Type) where
  | start (pid : Pid)
  | acquire (pid : Pid)
  | act (pid : Pid) (label : ι)
  | finish (pid : Pid) (result : Result ε α)
  | kill (pid : Pid)
  | release (pid : Pid)

/-- Nobody has the lock. -/
def Config.Free (c : Config ι σ ε α Pid) : Prop :=
  ∀ pid phase, c.process pid = some phase → phase.rest = none

section
variable [DecidableEq Pid] (P : Set (Prog ι σ ε α)) (between : σ → σ → Prop) (inChild : ι → Prop)

def Config.set (c : Config ι σ ε α Pid) (pid : Pid) (phase : Phase ι σ ε α) :
    Config ι σ ε α Pid :=
  { c with process := Function.update c.process pid (some phase) }

/-- While nobody has the lock, the state may change as `between` allows. -/
inductive Step : Label ι ε α Pid → Config ι σ ε α Pid → Config ι σ ε α Pid → Prop
  | start {c : Config ι σ ε α Pid} {pid : Pid} {p : Prog ι σ ε α} (process : c.process pid = none)
      (mem : p ∈ P) : Step (.start pid) c (c.set pid (.waiting p))
  | acquire {c : Config ι σ ε α Pid} {pid : Pid} {p : Prog ι σ ε α} {s : σ}
      (process : c.process pid = some (.waiting p)) (free : c.Free) (state : between c.state s) :
      Step (.acquire pid) c ({ c with state := s }.set pid (.running p))
  | act {c : Config ι σ ε α Pid} {pid : Pid} {l : ι} {u : σ → σ} {n : σ → Prog ι σ ε α}
      (process : c.process pid = some (.running (.act l u n))) :
      Step (.act pid l) c ({ c with state := u c.state }.set pid (.running (n c.state)))
  | finish {c : Config ι σ ε α Pid} {pid : Pid} {r : Result ε α}
      (process : c.process pid = some (.running (.done r))) :
      Step (.finish pid r) c (c.set pid .gone)
  | killWaiting {c : Config ι σ ε α Pid} {pid : Pid} {p : Prog ι σ ε α}
      (process : c.process pid = some (.waiting p)) : Step (.kill pid) c (c.set pid .gone)
  | kill {c : Config ι σ ε α Pid} {pid : Pid} {rest : Prog ι σ ε α}
      (process : c.process pid = some (.running rest)) :
      Step (.kill pid) c (c.set pid (.orphaned rest))
  | actInChild {c : Config ι σ ε α Pid} {pid : Pid} {l : ι} {u : σ → σ} {n : σ → Prog ι σ ε α}
      (process : c.process pid = some (.orphaned (.act l u n))) (child : inChild l) :
      Step (.act pid l) c ({ c with state := u c.state }.set pid (.orphaned (n c.state)))
  | release {c : Config ι σ ε α Pid} {pid : Pid} {rest : Prog ι σ ε α}
      (process : c.process pid = some (.orphaned rest)) :
      Step (.release pid) c (c.set pid .gone)

inductive Run (c : Config ι σ ε α Pid) : List (Label ι ε α Pid) → Config ι σ ε α Pid → Prop
  | nil : Run c [] c
  | snoc {ls : List (Label ι ε α Pid)} {c' c'' : Config ι σ ε α Pid} {l : Label ι ε α Pid}
      (before : Run c ls c') (step : Step P between inChild l c' c'') : Run c (ls ++ [l]) c''

end

/-- Before any process has been started. -/
def Config.init (s : σ) : Config ι σ ε α Pid := ⟨s, fun _ => none⟩

/-- What the process has done. -/
def Label.of [DecidableEq Pid] (pid : Pid) : Label ι ε α Pid → Option ι
  | act pid' label => if pid' = pid then some label else none
  | _ => none

/-!
## Attempts that have something left to do

A process in the middle of its program is an attempt that has been cut short, together with what it
would still do. Each step moves one action from the latter to the former.
-/

/-- The attempt has reached the state, with `rest` still to do. -/
structure Leaves (a : Attempt ι σ ε α) (rest : Prog ι σ ε α) (s : σ) : Prop where
  state : a.state = s
  steps : (a.program.run a.start).steps = a.steps ++ (rest.run s).steps
  result : (a.program.run a.start).result = (rest.run s).result

theorem leaves_start (p : Prog ι σ ε α) (s : σ) : Leaves ⟨p, s, [], List.nil_prefix⟩ p s :=
  ⟨rfl, rfl, rfl⟩

/-- The attempt takes one more step. -/
theorem Leaves.act {a : Attempt ι σ ε α} {l : ι} {u : σ → σ} {n : σ → Prog ι σ ε α} {s : σ}
    (h : Leaves a (.act l u n) s) :
    ∃ a' : Attempt ι σ ε α, a'.program = a.program ∧ a'.start = a.start ∧
      a'.labels = a.labels ++ [l] ∧ Leaves a' (n s) (u s) := by
  have hsteps : (a.program.run a.start).steps =
      (a.steps ++ [(l, u s)]) ++ ((n s).run (u s)).steps := by
    rw [h.steps, List.append_assoc]
    rfl
  refine ⟨⟨a.program, a.start, a.steps ++ [(l, u s)], hsteps ▸ List.prefix_append ..⟩, rfl, rfl,
    ?_, ?_, hsteps, h.result⟩
  · simp [Attempt.labels]
  · simp [Attempt.state, stateAfter]

/-- The attempt is over. -/
theorem Leaves.finished {a : Attempt ι σ ε α} {r : Result ε α} {s : σ} (h : Leaves a (.done r) s) :
    a.Finished := by
  have hsteps := h.steps
  rw [Prog.run, List.append_nil] at hsteps
  exact hsteps.symm

theorem Leaves.completed {a : Attempt ι σ ε α} {x : α} {s : σ} (h : Leaves a (.done (.val x)) s) :
    a.Completed :=
  ⟨h.finished, x, h.result⟩

/-!
## One after the other

Only the process that has the lock takes steps on the state, up to its end or to where it is killed.
So the attempts, in the order in which they get the lock, are a history; the invariant says what has
been done of it so far, and what the process that has the lock still has to do.
-/

section
variable [DecidableEq Pid] {P : Set (Prog ι σ ε α)} {between : σ → σ → Prop} {inChild : ι → Prop}
  {c c' : Config ι σ ε α Pid} {pid other : Pid} {phase : Phase ι σ ε α} {rest : Prog ι σ ε α}
  {ls : List (Label ι ε α Pid)}

theorem Config.process_set : (c.set pid phase).process pid = some phase := Function.update_self ..

theorem Config.process_set_of_ne (h : other ≠ pid) :
    (c.set pid phase).process other = c.process other := Function.update_of_ne h ..

/-- What has become of a process. -/
theorem Config.process_of_set {phase' : Phase ι σ ε α}
    (h : (c.set pid phase).process other = some phase') :
    (other = pid ∧ phase' = phase) ∨ (other ≠ pid ∧ c.process other = some phase') := by
  by_cases heq : other = pid
  · subst heq
    rw [process_set] at h
    exact .inl ⟨rfl, (Option.some.inj h).symm⟩
  · rw [process_set_of_ne heq] at h
    exact .inr ⟨heq, h⟩

/-- The process has the lock, with `rest` to do, and no other one has it. -/
structure Config.HeldBy (c : Config ι σ ε α Pid) (pid : Pid) (rest : Prog ι σ ε α) : Prop where
  holder : ∃ phase, c.process pid = some phase ∧ phase.rest = some rest
  others : ∀ other phase, other ≠ pid → c.process other = some phase → phase.rest = none

theorem Config.Free.set (h : c.Free) (hrest : phase.rest = none) : (c.set pid phase).Free := by
  intro other phase' hother
  obtain ⟨-, rfl⟩ | ⟨-, hother⟩ := process_of_set hother
  · exact hrest
  · exact h other phase' hother

theorem Config.Free.heldBy (h : c.Free) (hrest : phase.rest = some rest) :
    (c.set pid phase).HeldBy pid rest where
  holder := ⟨phase, process_set, hrest⟩
  others other phase' hne hother := by
    rw [process_set_of_ne hne] at hother
    exact h other phase' hother

/-- Another process changes. -/
theorem Config.HeldBy.set_other (h : c.HeldBy pid rest) (hne : other ≠ pid)
    (hrest : phase.rest = none) : (c.set other phase).HeldBy pid rest where
  holder := by
    rw [process_set_of_ne hne.symm]
    exact h.holder
  others other' phase' hne' hother' := by
    obtain ⟨-, rfl⟩ | ⟨-, hother'⟩ := process_of_set hother'
    · exact hrest
    · exact h.others other' phase' hne' hother'

/-- The process itself changes, and keeps the lock. -/
theorem Config.HeldBy.set_self {rest' : Prog ι σ ε α} (h : c.HeldBy pid rest)
    (hrest : phase.rest = some rest') : (c.set pid phase).HeldBy pid rest' where
  holder := ⟨phase, process_set, hrest⟩
  others other phase' hne hother := by
    rw [process_set_of_ne hne] at hother
    exact h.others other phase' hne hother

theorem Config.HeldBy.free (h : c.HeldBy pid rest) (hrest : phase.rest = none) :
    (c.set pid phase).Free := by
  intro other phase' hother
  obtain ⟨-, rfl⟩ | ⟨hne, hother⟩ := process_of_set hother
  · exact hrest
  · exact h.others other phase' hne hother

/-- Only the process that has the lock takes steps. -/
theorem Config.HeldBy.eq {rest' : Prog ι σ ε α} (h : c.HeldBy pid rest)
    (hother : c.process other = some phase) (hrest : phase.rest = some rest') :
    other = pid ∧ rest' = rest := by
  by_cases heq : other = pid
  · subst heq
    obtain ⟨phase', hphase', hrest'⟩ := h.holder
    cases hother.symm.trans hphase'
    exact ⟨rfl, Option.some.inj (hrest.symm.trans hrest')⟩
  · cases (h.others other phase heq hother).symm.trans hrest

omit [DecidableEq Pid] in
theorem Config.Free.not_rest (h : c.Free) (hprocess : c.process pid = some phase)
    (hrest : phase.rest = some rest) : False := by
  cases (h pid phase hprocess).symm.trans hrest

/-- What has happened so far is a history, and what the process that has the lock has done is an
attempt at its program. -/
inductive Progress (P : Set (Prog ι σ ε α)) (between : σ → σ → Prop) (s₀ : σ)
    (c : Config ι σ ε α Pid) : Prop
  | free {as : List (Attempt ι σ ε α)} (free : c.Free)
      (before : History P between (fun _ => True) s₀ as c.state)
  | held {as : List (Attempt ι σ ε α)} {s : σ} {a : Attempt ι σ ε α} {pid : Pid}
      {rest : Prog ι σ ε α} (before : History P between (fun _ => True) s₀ as s)
      (start : between s a.start) (program : a.program ∈ P) (leaves : Leaves a rest c.state)
      (held : c.HeldBy pid rest)

structure Serial (P : Set (Prog ι σ ε α)) (between : σ → σ → Prop) (s₀ : σ)
    (c : Config ι σ ε α Pid) : Prop where
  waiting : ∀ pid p, c.process pid = some (.waiting p) → p ∈ P
  progress : Progress P between s₀ c

theorem Step.waiting {l : Label ι ε α Pid} (h : Step P between inChild l c c')
    (hwaiting : ∀ pid p, c.process pid = some (.waiting p) → p ∈ P) :
    ∀ pid p, c'.process pid = some (.waiting p) → p ∈ P := by
  intro pid p hp
  cases h with
  | start process mem =>
      obtain ⟨-, hphase⟩ | ⟨-, hp⟩ := Config.process_of_set hp
      · cases hphase
        exact mem
      · exact hwaiting pid p hp
  | acquire | act | finish | killWaiting | kill | actInChild | release =>
      obtain ⟨-, hphase⟩ | ⟨-, hp⟩ := Config.process_of_set hp
      · cases hphase
      · exact hwaiting pid p hp

/-- The process that has the lock takes a step of its program. -/
theorem Progress.act {s₀ : σ} {l : ι} {u : σ → σ} {n : σ → Prog ι σ ε α}
    {phase' : Phase ι σ ε α} (h : Progress P between s₀ c) (hprocess : c.process pid = some phase)
    (hrest : phase.rest = some (.act l u n)) (hrest' : phase'.rest = some (n c.state)) :
    Progress P between s₀ ({ c with state := u c.state }.set pid phase') := by
  cases h with
  | free free => exact (free.not_rest hprocess hrest).elim
  | held before start program leaves held =>
      obtain ⟨rfl, rfl⟩ := held.eq hprocess hrest
      obtain ⟨a', hprogram, hstart, -, hleaves⟩ := leaves.act
      rw [← hstart] at start
      rw [← hprogram] at program
      exact .held before start program hleaves
        (Config.HeldBy.set_self (c := { c with state := u c.state }) ⟨held.holder, held.others⟩ hrest')

/-- The process that has the lock gives it back. -/
theorem Progress.release {s₀ : σ} {phase' : Phase ι σ ε α} (h : Progress P between s₀ c)
    (hprocess : c.process pid = some phase) (hrest : phase.rest = some rest)
    (hrest' : phase'.rest = none) : Progress P between s₀ (c.set pid phase') := by
  cases h with
  | free free => exact (free.not_rest hprocess hrest).elim
  | held before start program leaves held =>
      obtain ⟨rfl, rfl⟩ := held.eq hprocess hrest
      have hsnoc := History.snoc _ before start program trivial
      rw [leaves.state] at hsnoc
      exact .free (held.free hrest') hsnoc

/-- Every step keeps the invariant: others than the one that has the lock can start, wait or be
killed. -/
theorem Step.progress {l : Label ι ε α Pid} {s₀ : σ} (h : Step P between inChild l c c')
    (hserial : Serial P between s₀ c) : Progress P between s₀ c' := by
  have hprogress := hserial.progress
  cases h with
  | start process mem =>
      cases hprogress with
      | free free before => exact .free (free.set rfl) before
      | held before start program leaves held =>
          refine .held before start program leaves (held.set_other ?_ rfl)
          rintro rfl
          obtain ⟨phase, hphase, -⟩ := held.holder
          cases process.symm.trans hphase
  | acquire process free state =>
      cases hprogress with
      | free _ before =>
          -- a new attempt begins, from what the history has left
          exact .held before state (hserial.waiting _ _ process) (leaves_start _ _)
            (Config.Free.heldBy (c := { c with state := _ }) free rfl)
      | held _ _ _ _ held =>
          obtain ⟨phase, hphase, hrest⟩ := held.holder
          exact (free.not_rest hphase hrest).elim
  | act process => exact hprogress.act process rfl rfl
  | actInChild process => exact hprogress.act process rfl rfl
  | finish process => exact hprogress.release process rfl rfl
  | release process => exact hprogress.release process rfl rfl
  | killWaiting process =>
      cases hprogress with
      | free free before => exact .free (free.set rfl) before
      | held before start program leaves held =>
          refine .held before start program leaves (held.set_other ?_ rfl)
          rintro rfl
          obtain ⟨phase, hphase, hrest⟩ := held.holder
          cases process.symm.trans hphase
          cases hrest
  -- the process is over, but the lock is not free yet, and the attempt goes on
  | kill process =>
      cases hprogress with
      | free free => exact (free.not_rest process rfl).elim
      | held before start program leaves held =>
          obtain ⟨rfl, rfl⟩ := held.eq process rfl
          exact .held before start program leaves (held.set_self rfl)

theorem Run.serial {s₀ : σ} (h : Run P between inChild c ls c') (hserial : Serial P between s₀ c) :
    Serial P between s₀ c' := by
  induction h with
  | nil => exact hserial
  | snoc _ step ih => exact ⟨step.waiting ih.waiting, step.progress ih⟩

omit [DecidableEq Pid] in
/-- At any time, the state is one that a history leaves, whose last program may not be done. -/
theorem Serial.history {s₀ : σ} (h : Serial P between s₀ c) :
    ∃ as, History P between (fun _ => True) s₀ as c.state := by
  cases h.progress with
  | free _ before => exact ⟨_, before⟩
  | held before start program leaves =>
      have hsnoc := History.snoc _ before start program trivial
      rw [leaves.state] at hsnoc
      exact ⟨_, hsnoc⟩

omit [DecidableEq Pid] in
theorem serial_init (s : σ) : Serial P between s (Config.init s : Config ι σ ε α Pid) :=
  ⟨nofun, .free nofun .nil⟩

omit [DecidableEq Pid] in
/-- While nobody has the lock, a new history begins. -/
theorem Serial.restart {s₀ : σ} (h : Serial P between s₀ c) (hfree : c.Free) :
    Serial P between c.state c :=
  ⟨h.waiting, .free hfree .nil⟩

/-!
## What a process does

From the moment when it gets the lock, the labels of a process are those of an attempt at its
program, until it returns or is killed.
-/

/-- It has been killed, or is over. -/
def Phase.Ended : Phase ι σ ε α → Prop
  | waiting _ | running _ => False
  | orphaned _ | gone => True

/-- A process that has ended takes no steps of its own any more. -/
theorem Step.ended {l : Label ι ε α Pid} (h : Step P between inChild l c c')
    (hprocess : c.process pid = some phase) (hended : phase.Ended) :
    ∃ phase', c'.process pid = some phase' ∧ phase'.Ended := by
  have hset {pid' : Pid} {phase' : Phase ι σ ε α} {s : σ} (hended' : pid' = pid → phase'.Ended) :
      ∃ phase'', ({ c with state := s }.set pid' phase').process pid = some phase'' ∧
        phase''.Ended := by
    by_cases heq : pid = pid'
    · subst heq
      exact ⟨phase', Config.process_set, hended' rfl⟩
    · rw [Config.process_set_of_ne heq]
      exact ⟨phase, hprocess, hended⟩
  have hnot {pid' : Pid} {phase' : Phase ι σ ε α} (h : c.process pid' = some phase')
      (hphase' : ¬ phase'.Ended) : pid' ≠ pid := by
    rintro rfl
    cases hprocess.symm.trans h
    exact hphase' hended
  cases h with
  | start process =>
      refine hset fun heq => ?_
      subst heq
      cases hprocess.symm.trans process
  | acquire process => exact hset fun heq => absurd heq (hnot process id)
  | act process => exact hset fun heq => absurd heq (hnot process id)
  | finish | killWaiting | kill | actInChild | release => exact hset fun _ => trivial

/-- The process is still running, and has done what its labels say, or it has ended. -/
def Running (p : Prog ι σ ε α) (s : σ) (pid : Pid) (labels : List ι) (c : Config ι σ ε α Pid) :
    Prop :=
  (∃ rest a, c.process pid = some (.running rest) ∧ c.HeldBy pid rest ∧ a.program = p ∧
    a.start = s ∧ a.labels = labels ∧ Leaves a rest c.state) ∨
  ∃ phase, c.process pid = some phase ∧ phase.Ended

/-- What is said of a process that has got the lock is kept by every step. -/
theorem Step.running {l : Label ι ε α Pid} {p : Prog ι σ ε α} {s : σ} {labels : List ι}
    (h : Step P between inChild l c c') (hrunning : Running p s pid labels c) :
    Running p s pid (labels ++ (Label.of pid l).toList) c' := by
  -- A process that still runs has the lock, so that the other ones can only start or be killed.
  obtain ⟨rest, a, hprocess, hheld, hprogram, hstart, hlabels, hleaves⟩ | ⟨_, hprocess, hended⟩ :=
    hrunning
  · have hother {pid' : Pid} {phase : Phase ι σ ε α} (hne : pid' ≠ pid) (hrest : phase.rest = none) :
        Running p s pid labels (c.set pid' phase) :=
      .inl ⟨rest, a, (Config.process_set_of_ne hne.symm).trans hprocess, hheld.set_other hne hrest,
        hprogram, hstart, hlabels, hleaves⟩
    cases h with
    | start process =>
        show Running p s pid (labels ++ []) _
        rw [List.append_nil]
        refine hother ?_ rfl
        rintro rfl
        cases hprocess.symm.trans process
    | killWaiting process =>
        show Running p s pid (labels ++ []) _
        rw [List.append_nil]
        refine hother ?_ rfl
        rintro rfl
        cases hprocess.symm.trans process
    | acquire _ free => exact (free.not_rest hprocess rfl).elim
    | act process =>
        obtain ⟨rfl, rfl⟩ := hheld.eq process rfl
        -- the attempt goes on by one step
        obtain ⟨a', hprogram', hstart', hlabels', hleaves'⟩ := hleaves.act
        refine .inl ⟨_, a', Config.process_set,
          Config.HeldBy.set_self (c := { c with state := _ }) ⟨hheld.holder, hheld.others⟩ rfl,
          hprogram'.trans hprogram, hstart'.trans hstart, ?_, hleaves'⟩
        rw [hlabels', hlabels, Label.of, if_pos rfl, Option.toList_some]
    | finish process =>
        obtain ⟨rfl, rfl⟩ := hheld.eq process rfl
        exact .inr ⟨_, Config.process_set, trivial⟩
    | kill process =>
        obtain ⟨rfl, rfl⟩ := hheld.eq process rfl
        exact .inr ⟨_, Config.process_set, trivial⟩
    | actInChild process =>
        obtain ⟨rfl, -⟩ := hheld.eq process rfl
        cases hprocess.symm.trans process
    | release process =>
        obtain ⟨rfl, -⟩ := hheld.eq process rfl
        cases hprocess.symm.trans process
  · exact .inr (h.ended hprocess hended)

/-- And so by every run. -/
theorem Run.running {p : Prog ι σ ε α} {s₀ : σ} (h : Run P between inChild c ls c')
    (hserial : Serial P between s₀ c) (hprocess : c.process pid = some (.running p)) :
    Running p c.state pid (ls.filterMap (Label.of pid)) c' := by
  induction h with
  | nil =>
      refine .inl ⟨p, _, hprocess, ?_, rfl, rfl, rfl, leaves_start p _⟩
      cases hserial.progress with
      | free free => exact (free.not_rest hprocess rfl).elim
      | held _ _ _ _ held =>
          obtain ⟨rfl, rfl⟩ := held.eq hprocess rfl
          exact held
  | snoc _ step ih =>
      have hsingle (l : Label ι ε α Pid) :
          [l].filterMap (Label.of pid) = (Label.of pid l).toList := by
        rw [List.filterMap_cons]
        cases Label.of pid l <;> rfl
      rw [List.filterMap_append, hsingle]
      exact step.running ih

theorem Step.free_of_finish {s₀ : σ} {r : Result ε α}
    (h : Step P between inChild (.finish pid r) c c') (hserial : Serial P between s₀ c) :
    c'.Free := by
  cases h with
  | finish process =>
      cases hserial.progress with
      | free free => exact (free.not_rest process rfl).elim
      | held _ _ _ _ held =>
          obtain ⟨rfl, rfl⟩ := held.eq process rfl
          exact held.free rfl

/-- A process that gets the lock and returns has done all of its program without being disturbed:
after a history, and before another one. -/
theorem attempt_of_finish {s₀ : σ} {atLock atEnd : Config ι σ ε α Pid} {x : α}
    (hserial : Serial P between s₀ c)
    (hacquire : Step P between inChild (.acquire pid) c atLock)
    (hrun : Run P between inChild atLock ls atEnd)
    (hfinish : Step P between inChild (.finish pid (.val x)) atEnd c') :
    ∃ (as : List (Attempt ι σ ε α)) (a : Attempt ι σ ε α),
      History P between (fun _ => True) s₀ as c.state ∧ between c.state a.start ∧
      a.program ∈ P ∧ a.start = atLock.state ∧ a.Completed ∧
      a.labels = ls.filterMap (Label.of pid) ∧ Serial P between a.state c' := by
  have hlocked : Serial P between s₀ atLock := (Run.snoc .nil hacquire).serial hserial
  have hend := hrun.serial hlocked
  have hfree := hfinish.free_of_finish hend
  have hafter := ((Run.snoc .nil hfinish).serial hend).restart hfree
  obtain ⟨as, hist⟩ := hserial.history
  cases hacquire with
  | acquire process _ state =>
      have hmem := hserial.waiting _ _ process
      cases hfinish with
      | finish done =>
          obtain ⟨rest, a, hrest, -, hprogram, hstart, hlabels, hleaves⟩ | ⟨phase, hphase, hended⟩ :=
            hrun.running hlocked Config.process_set
          · cases hrest.symm.trans done
            have hstate : a.state = (atEnd.set pid .gone).state := hleaves.state
            rw [← hstate] at hafter
            exact ⟨as, a, hist, hstart.symm ▸ state, hprogram.symm ▸ hmem, hstart,
              hleaves.completed, hlabels, hafter⟩
          · cases done.symm.trans hphase
            exact hended.elim

/-! ## Runs in which a process is not killed -/

theorem Run.trans {c'' : Config ι σ ε α Pid} {ls' : List (Label ι ε α Pid)}
    (h : Run P between inChild c ls c') (h' : Run P between inChild c' ls' c'') :
    Run P between inChild c (ls ++ ls') c'' := by
  induction h' with
  | nil =>
      rw [List.append_nil]
      exact h
  | snoc _ step ih =>
      rw [← List.append_assoc]
      exact .snoc ih step

/-- A process that has the lock may do all of its program. -/
theorem run_whole (p : Prog ι σ ε α) (c : Config ι σ ε α Pid)
    (hprocess : c.process pid = some (.running p)) :
    Run P between inChild c ((p.run c.state).steps.map fun step => .act pid step.1)
      ({ c with state := stateAfter c.state (p.run c.state).steps }.set pid
        (.running (.done (p.run c.state).result))) := by
  induction p generalizing c with
  | done r =>
      have hsame : c.set pid (.running (.done r)) = c := by
        rw [Config.set, ← hprocess, Function.update_eq_self]
      exact hsame.symm ▸ .nil
  | act l u n ih =>
      have hrest := ih c.state ({ c with state := u c.state }.set pid (.running (n c.state)))
        Config.process_set
      have hwhole := Run.trans (.snoc .nil (.act hprocess)) hrest
      rw [Prog.run, List.map_cons, stateAfter_cons]
      simpa only [Config.set, Function.update_idem, List.nil_append, List.singleton_append] using hwhole

end

end Locking
