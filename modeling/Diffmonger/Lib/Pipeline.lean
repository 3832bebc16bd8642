import Mathlib.Data.Finset.Basic
import Mathlib.Data.Fintype.Defs
import Mathlib.Logic.Function.Basic

/-!
# Two processes connected by a pipe

A process makes a pipe, forks a child that writes to it and a child that reads from it, and waits
for both. A child starts with copies of all ends that its parent has open, so that who has which end
open depends on the order in which the processes take their steps. A reader sees the end of its
input once the pipe is empty and nobody has its write end open; a writer blocks while the pipe is
full, and is killed once nobody has the read end open.

`Script.Disciplined` is what the parent's program has to keep to: close its own ends before it
waits, and wait for every child that it has forked, also after a failure. Then no run gets stuck
(`progress`), every run comes to an end (`Run.length_le`), and the parent learns whether the reader
has got everything that the writer had to write (`returned`, `returns`). Together, the processes do
what a sequential program does that writes everything first and reads it then (`Implements`).

All of this rests on one invariant (`Inv`) that every step keeps. The state follows what the script
has done so far (`Follows`), which is recorded in a `Track`, so that discipline is a condition on
the script alone and can be decided; a child that is running has its own end open and no other
(`Wired`); and what has been written is what has been read and what is still in the pipe. That no
run gets stuck is then a case distinction on who waits for whom, and that every run ends is a
measure that every step lowers (`Step.size_lt`).

The discipline is also needed. A consumer that has the write end open waits for itself
(`State.WaitsForItself`), and a producer whose output does not fit into the pipe waits for a reader
that is there but does not read (`Blocked`). Neither ever ends, unless something fails.
-/

namespace Pipeline

/-- The ends of the pipe. -/
inductive End where
  | read
  | write
  deriving DecidableEq

instance : Fintype End := ⟨{.read, .write}, by rintro ⟨⟩ <;> decide⟩

/-- The children. -/
inductive Role where
  | producer
  | consumer
  deriving DecidableEq

instance : Fintype Role := ⟨{.producer, .consumer}, by rintro ⟨⟩ <;> decide⟩

/-- The end that a child works with. -/
def Role.own : Role → End
  | .producer => .write
  | .consumer => .read

/-- The program of the parent. Where an action may fail, the second continuation says what is done
after a failure. -/
inductive Script where
  /-- Something that may fail for reasons of its own. -/
  | attempt (next failed : Script)
  | fork (role : Role) (next : Script)
  | close (e : End) (next : Script)
  /-- Wait until a child that is to execute a program does so, or cannot. -/
  | launched (role : Role) (next failed : Script)
  /-- Wait until a child is over; it is a failure if the child has failed. -/
  | wait (role : Role) (next failed : Script)
  | stop (returned : Bool)

/-- The life of a child. -/
inductive Phase where
  /-- It has been forked, and still has all the ends that it has inherited. -/
  | starting
  /-- It could not execute its program. -/
  | notLaunched
  | running
  | exited (ok : Bool)
  deriving DecidableEq

def Phase.Over : Phase → Prop
  | starting | running => False
  | notLaunched | exited _ => True

structure Child where
  phase : Phase
  /-- The ends that it has open. -/
  holds : Finset End

structure State (α : Type) where
  /-- What the parent has still to do. -/
  script : Script
  /-- The ends that the parent has open. -/
  holds : Finset End
  child : Role → Option Child
  /-- What the producer has still to write. -/
  pending : List α
  /-- What is in the pipe. -/
  buffer : List α
  /-- What the consumer has read. -/
  received : List α

/-- What the children do, unless something goes wrong. -/
structure Plan (α : Type) where
  output : List α
  /-- Does the producer succeed once it has written everything? -/
  producerOk : Bool
  /-- Does the consumer succeed at the end of its input? -/
  consumerOk : List α → Bool
  /-- Does a child close the end that it has no use for? -/
  closes : Role → Bool
  /-- May the consumer be satisfied before the end of its input? -/
  quits : Bool
  capacity : ℕ

/-- A step as planned, a failure, or a consumer that is satisfied before the end of its input. -/
inductive Label where
  | step
  | fault
  | quit
  deriving DecidableEq

variable {α : Type}

/-- Somebody has the end open. -/
def State.Open (s : State α) (e : End) : Prop :=
  e ∈ s.holds ∨ ∃ role c, s.child role = some c ∧ e ∈ c.holds

def State.setChild (s : State α) (role : Role) (c : Child) : State α :=
  { s with child := Function.update s.child role (some c) }

/-- A process that is over has no ends open. -/
def State.setOver (s : State α) (role : Role) (phase : Phase) : State α :=
  s.setChild role ⟨phase, ∅⟩

/-- The ends of a child that has started. -/
def Plan.keeps (plan : Plan α) (role : Role) (inherited : Finset End) : Finset End :=
  if plan.closes role then inherited ∩ {role.own} else inherited

inductive Step (plan : Plan α) : Label → State α → State α → Prop
  | attempt {s : State α} {next failed : Script} (script : s.script = .attempt next failed) :
      Step plan .step s { s with script := next }
  | attemptFails {s : State α} {next failed : Script} (script : s.script = .attempt next failed) :
      Step plan .fault s { s with script := failed }
  | fork {s : State α} {role : Role} {next : Script} (script : s.script = .fork role next) :
      Step plan .step s ({ s with script := next }.setChild role ⟨.starting, s.holds⟩)
  | close {s : State α} {e : End} {next : Script} (script : s.script = .close e next) :
      Step plan .step s { s with script := next, holds := s.holds.erase e }
  | launched {s : State α} {role : Role} {next failed : Script} {c : Child}
      (script : s.script = .launched role next failed) (child : s.child role = some c)
      (phase : c.phase = .running ∨ ∃ ok, c.phase = .exited ok) :
      Step plan .step s { s with script := next }
  | notLaunched {s : State α} {role : Role} {next failed : Script} {c : Child}
      (script : s.script = .launched role next failed) (child : s.child role = some c)
      (phase : c.phase = .notLaunched) : Step plan .step s { s with script := failed }
  | wait {s : State α} {role : Role} {next failed : Script} {c : Child}
      (script : s.script = .wait role next failed) (child : s.child role = some c)
      (phase : c.phase = .exited true) : Step plan .step s { s with script := next }
  | waitFails {s : State α} {role : Role} {next failed : Script} {c : Child}
      (script : s.script = .wait role next failed) (child : s.child role = some c)
      (isOver : c.phase.Over) (phase : c.phase ≠ .exited true) :
      Step plan .step s { s with script := failed }
  | start {s : State α} {role : Role} {c : Child} (child : s.child role = some c)
      (phase : c.phase = .starting) :
      Step plan .step s (s.setChild role ⟨.running, plan.keeps role c.holds⟩)
  | startFails {s : State α} {role : Role} {c : Child} (child : s.child role = some c)
      (phase : c.phase = .starting) : Step plan .fault s (s.setOver role .notLaunched)
  | abort {s : State α} {role : Role} {c : Child} (child : s.child role = some c)
      (phase : ¬ c.phase.Over) : Step plan .fault s (s.setOver role (.exited false))
  | write {s : State α} {c : Child} {xs rest : List α} (child : s.child .producer = some c)
      (phase : c.phase = .running) (holds : .write ∈ c.holds) (pending : s.pending = xs ++ rest)
      (ne_nil : xs ≠ []) (reader : s.Open .read)
      (fits : s.buffer.length + xs.length ≤ plan.capacity) :
      Step plan .step s { s with pending := rest, buffer := s.buffer ++ xs }
  | sigpipe {s : State α} {c : Child} (child : s.child .producer = some c)
      (phase : c.phase = .running) (pending : s.pending ≠ []) (noReader : ¬ s.Open .read) :
      Step plan .step s (s.setOver .producer (.exited false))
  | finish {s : State α} {c : Child} (child : s.child .producer = some c)
      (phase : c.phase = .running) (pending : s.pending = []) :
      Step plan .step s (s.setOver .producer (.exited plan.producerOk))
  | read {s : State α} {c : Child} {xs rest : List α} (child : s.child .consumer = some c)
      (phase : c.phase = .running) (holds : .read ∈ c.holds) (buffer : s.buffer = xs ++ rest)
      (ne_nil : xs ≠ []) :
      Step plan .step s { s with buffer := rest, received := s.received ++ xs }
  | eof {s : State α} {c : Child} (child : s.child .consumer = some c)
      (phase : c.phase = .running) (buffer : s.buffer = []) (noWriter : ¬ s.Open .write) :
      Step plan .step s (s.setOver .consumer (.exited (plan.consumerOk s.received)))
  | quit {s : State α} {c : Child} (child : s.child .consumer = some c)
      (phase : c.phase = .running) (quits : plan.quits = true) :
      Step plan .quit s (s.setOver .consumer (.exited true))

/-- The processes have taken steps with the given labels, in whatever order they were scheduled. -/
inductive Run (plan : Plan α) (s : State α) : List Label → State α → Prop
  | nil : Run plan s [] s
  | snoc {ls : List Label} {t u : State α} {l : Label} (before : Run plan s ls t)
      (step : Step plan l t u) : Run plan s (ls ++ [l]) u

/-- The parent has made the pipe. -/
def init (plan : Plan α) (script : Script) : State α :=
  ⟨script, Finset.univ, fun _ => none, plan.output, [], []⟩

/-- The parent has stopped, and none of its children is left. -/
def State.Ended (s : State α) (returned : Bool) : Prop :=
  s.script = .stop returned ∧ ∀ role c, s.child role = some c → c.phase.Over

/-!
## Disciplined scripts

A script is disciplined if it gives each end of the pipe to one child, closes its own copy once the
child has it, and waits for every child that it has started, on all its branches. This is checked by
going through the script; `Track` is what the check remembers.
-/

/-- What a script has done so far; `well` as long as nothing has failed. -/
structure Track where
  holds : Finset End
  forked : Finset Role
  waited : Finset Role
  well : Bool

def Track.init : Track := ⟨Finset.univ, ∅, ∅, true⟩

def Script.Disciplined : Script → Track → Prop
  | .attempt next failed, t => next.Disciplined t ∧ failed.Disciplined { t with well := false }
  | .fork role next, t => role ∉ t.forked ∧ role.own ∈ t.holds ∧
      next.Disciplined { t with forked := insert role t.forked }
  | .close e next, t => (t.well → ∀ role : Role, role.own = e → role ∈ t.forked) ∧
      next.Disciplined { t with holds := t.holds.erase e }
  | .launched role next failed, t => role ∈ t.forked ∧ next.Disciplined t ∧
      failed.Disciplined { t with well := false }
  | .wait role next failed, t => role ∈ t.forked ∧ role ∉ t.waited ∧ t.holds = ∅ ∧
      next.Disciplined { t with waited := insert role t.waited } ∧
      failed.Disciplined { t with waited := insert role t.waited, well := false }
  | .stop returned, t => t.forked ⊆ t.waited ∧ returned = t.well ∧
      (t.well → t.waited = Finset.univ)

instance Script.decidableDisciplined : (script : Script) → (t : Track) →
    Decidable (script.Disciplined t)
  | .attempt next failed, _ =>
      have := next.decidableDisciplined
      have := failed.decidableDisciplined
      inferInstanceAs (Decidable (_ ∧ _))
  | .fork _ next, _ =>
      have := next.decidableDisciplined
      inferInstanceAs (Decidable (_ ∧ _ ∧ _))
  | .close _ next, _ =>
      have := next.decidableDisciplined
      inferInstanceAs (Decidable (_ ∧ _))
  | .launched _ next failed, _ =>
      have := next.decidableDisciplined
      have := failed.decidableDisciplined
      inferInstanceAs (Decidable (_ ∧ _ ∧ _))
  | .wait _ next failed, _ =>
      have := next.decidableDisciplined
      have := failed.decidableDisciplined
      inferInstanceAs (Decidable (_ ∧ _ ∧ _ ∧ _ ∧ _))
  | .stop _, _ => inferInstanceAs (Decidable (_ ∧ _ ∧ _))

/-!
## Runs come to an end

What is still to be written counts twice, since it has to be read as well, and a fork counts for the
steps that the child will take.
-/

def Script.size : Script → ℕ
  | .attempt next failed => 1 + max next.size failed.size
  | .fork _ next => 3 + next.size
  | .close _ next => 1 + next.size
  | .launched _ next failed => 1 + max next.size failed.size
  | .wait _ next failed => 1 + max next.size failed.size
  | .stop _ => 0

/-- The steps that a child takes, but for reading and writing. -/
def Phase.steps : Phase → ℕ
  | .starting => 2
  | .running => 1
  | .notLaunched | .exited _ => 0

def State.steps (s : State α) (role : Role) : ℕ := (s.child role).elim 0 fun c => c.phase.steps

/-- What is written has to be read as well. -/
def State.size (s : State α) : ℕ :=
  s.script.size + (s.steps .producer + s.steps .consumer) + (2 * s.pending.length + s.buffer.length)

section
variable {s s' : State α} {plan : Plan α} {role : Role} {c : Child}

theorem State.steps_setChild_of_ne {other : Role} (h : other ≠ role) :
    (s.setChild role c).steps other = s.steps other := by
  simp only [steps, setChild, Function.update_of_ne h]

/-- Replacing a child. -/
theorem State.size_setChild :
    (s.setChild role c).size + s.steps role = s.size + c.phase.steps := by
  have hself : (s.setChild role c).steps role = c.phase.steps := by
    simp only [steps, setChild, Function.update_self, Option.elim_some]
  cases role with
  | producer =>
      have hother : (s.setChild .producer c).steps .consumer = s.steps .consumer :=
        steps_setChild_of_ne (by decide)
      simp only [size, hself, hother]
      simp only [setChild]
      omega
  | consumer =>
      have hother : (s.setChild .consumer c).steps .producer = s.steps .producer :=
        steps_setChild_of_ne (by decide)
      simp only [size, hself, hother]
      simp only [setChild]
      omega

theorem State.steps_of_child (hchild : s.child role = some c) : s.steps role = c.phase.steps := by
  rw [steps, hchild]
  rfl

/-- A child that gets nearer to its end. -/
theorem State.size_setChild_lt {c' : Child} (hchild : s.child role = some c)
    (h : c'.phase.steps < c.phase.steps) : (s.setChild role c').size < s.size := by
  have hsize : (s.setChild role c').size + _ = _ := State.size_setChild
  rw [steps_of_child hchild] at hsize
  omega

theorem Phase.steps_pos {phase : Phase} (h : ¬ phase.Over) : 0 < phase.steps := by
  cases phase with
  | starting => decide
  | running => decide
  | notLaunched => exact absurd trivial h
  | exited ok => exact absurd trivial h

theorem State.size_setOver_lt {phase : Phase} (hchild : s.child role = some c)
    (hover : ¬ c.phase.Over) (h : phase.steps = 0) : (s.setOver role phase).size < s.size :=
  size_setChild_lt hchild (h ▸ Phase.steps_pos hover)

theorem Phase.not_over_running : ¬ Phase.running.Over := nofun

theorem Phase.not_over_starting : ¬ Phase.starting.Over := nofun

/-- Every step brings the end nearer. -/
theorem Step.size_lt {l : Label} (h : Step plan l s s') : s'.size < s.size := by
  have hscript {next : Script} (hnext : next.size < s.script.size) :
      { s with script := next }.size < s.size := by
    simp only [State.size, State.steps]
    omega
  cases h with
  | attempt script => exact hscript (by rw [script, Script.size]; omega)
  | attemptFails script => exact hscript (by rw [script, Script.size]; omega)
  -- a fork adds a child with two steps to take, and removes three from the script
  | @fork _ role next script =>
      have hsize : ({ s with script := next }.setChild role ⟨.starting, s.holds⟩).size + _ = _ + 2 :=
        State.size_setChild
      have hnext : { s with script := next }.size + 3 = s.size := by
        simp only [State.size, State.steps, script, Script.size]
        omega
      omega
  | close script =>
      simp only [State.size, State.steps, script, Script.size]
      omega
  | launched script => exact hscript (by rw [script, Script.size]; omega)
  | notLaunched script => exact hscript (by rw [script, Script.size]; omega)
  | wait script => exact hscript (by rw [script, Script.size]; omega)
  | waitFails script => exact hscript (by rw [script, Script.size]; omega)
  | start child phase =>
      refine State.size_setChild_lt child ?_
      rw [phase]
      exact Nat.lt_succ_self 1
  | startFails child phase =>
      exact State.size_setOver_lt child (phase ▸ Phase.not_over_starting) rfl
  | abort child isOver => exact State.size_setOver_lt child isOver rfl
  -- what is written moves from where it counts twice to where it counts once
  | write _ _ _ pending ne_nil =>
      have hpos := List.length_pos_of_ne_nil ne_nil
      simp only [State.size, State.steps, pending, List.length_append]
      omega
  | sigpipe child phase =>
      exact State.size_setOver_lt child (phase ▸ Phase.not_over_running) rfl
  | finish child phase =>
      exact State.size_setOver_lt child (phase ▸ Phase.not_over_running) rfl
  | read _ _ _ buffer ne_nil =>
      have hpos := List.length_pos_of_ne_nil ne_nil
      simp only [State.size, State.steps, buffer, List.length_append]
      omega
  | eof child phase =>
      exact State.size_setOver_lt child (phase ▸ Phase.not_over_running) rfl
  | quit child phase =>
      exact State.size_setOver_lt child (phase ▸ Phase.not_over_running) rfl

/-- However the processes are scheduled, they do not take more steps than that. -/
theorem Run.length_le {ls : List Label} (h : Run plan s ls s') : ls.length + s'.size ≤ s.size := by
  induction h with
  | nil => exact (Nat.zero_add _).le
  | snoc _ step ih =>
      have hlt := step.size_lt
      rw [List.length_append, List.length_singleton]
      omega

end

/-!
## What the parent has done so far

The record is what discipline is defined with, so that each action of the script has one rule that
takes the record forward with it.
-/

section
variable {s s' : State α} {plan : Plan α} {role : Role} {c c' : Child} {e : End} {t : Track}

theorem State.child_setChild (role : Role) (c : Child) :
    (s.setChild role c).child role = some c :=
  Function.update_self ..

theorem State.child_setChild_of_ne {other : Role} (h : other ≠ role) (c : Child) :
    (s.setChild role c).child other = s.child other :=
  Function.update_of_ne h ..

/-- The state agrees with what the script has done so far. -/
structure Follows (s : State α) (t : Track) : Prop where
  disciplined : s.script.Disciplined t
  holds : s.holds = t.holds
  forked : ∀ role, s.child role = none ↔ role ∉ t.forked
  waited : ∀ role ∈ t.waited, ∃ c, s.child role = some c ∧ c.phase.Over
  well : t.well → ∀ role ∈ t.waited, ∃ c, s.child role = some c ∧ c.phase = .exited true
  owned : t.well → ∀ role ∉ t.forked, role.own ∈ s.holds

theorem follows_init {script : Script} (h : script.Disciplined Track.init) :
    Follows (init plan script) Track.init where
  disciplined := h
  holds := rfl
  forked _ := ⟨fun _ => Finset.notMem_empty _, fun _ => rfl⟩
  waited _ h := absurd h (Finset.notMem_empty _)
  well _ _ h := absurd h (Finset.notMem_empty _)
  owned _ _ _ := Finset.mem_univ _

theorem Follows.exists_child (h : Follows s t) (hforked : role ∈ t.forked) :
    ∃ c, s.child role = some c :=
  Option.ne_none_iff_exists'.mp fun hnone => (h.forked role).mp hnone hforked

/-- The script goes on. -/
theorem Follows.next {next : Script} (h : Follows s t) (hnext : next.Disciplined t) :
    Follows { s with script := next } t :=
  ⟨hnext, h.holds, h.forked, h.waited, h.well, h.owned⟩

/-- The script goes on after a failure. -/
theorem Follows.failed {failed : Script} (h : Follows s t)
    (hfailed : failed.Disciplined { t with well := false }) :
    Follows { s with script := failed } { t with well := false } :=
  ⟨hfailed, h.holds, h.forked, h.waited, nofun, nofun⟩

/-- A child that is not yet over may change. -/
theorem Follows.setChild (h : Follows s t) (hchild : s.child role = some c)
    (hover : ¬ c.phase.Over) : Follows (s.setChild role c') t := by
  have hne {other : Role} (hwaited : other ∈ t.waited) : other ≠ role := by
    rintro rfl
    obtain ⟨_, hother, hother_over⟩ := h.waited other hwaited
    cases hchild.symm.trans hother
    exact hover hother_over
  refine ⟨h.disciplined, h.holds, fun other => ?_, fun other hwaited => ?_,
    fun hwell other hwaited => ?_, h.owned⟩
  · by_cases hother : other = role
    · subst hother
      rw [State.child_setChild, ← h.forked other, hchild]
      exact ⟨nofun, nofun⟩
    · rw [State.child_setChild_of_ne hother]
      exact h.forked other
  · rw [State.child_setChild_of_ne (hne hwaited)]
    exact h.waited other hwaited
  · rw [State.child_setChild_of_ne (hne hwaited)]
    exact h.well hwell other hwaited

/-- A child starts with what its parent has open. -/
theorem Follows.fork {next : Script} (h : Follows s t) (hforked : role ∉ t.forked)
    (hnext : next.Disciplined { t with forked := insert role t.forked }) :
    Follows ({ s with script := next }.setChild role ⟨.starting, s.holds⟩)
      { t with forked := insert role t.forked } := by
  have hne {other : Role} (hwaited : other ∈ t.waited) : other ≠ role := by
    rintro rfl
    obtain ⟨_, hother, -⟩ := h.waited other hwaited
    cases ((h.forked other).mpr hforked).symm.trans hother
  refine ⟨hnext, h.holds, fun other => ?_, fun other hwaited => ?_,
    fun hwell other hwaited => ?_,
    fun hwell other hother => h.owned hwell other fun hmem =>
      hother (Finset.mem_insert_of_mem hmem)⟩
  · by_cases hother : other = role
    · subst hother
      rw [State.child_setChild]
      exact ⟨nofun, fun hmem => absurd (Finset.mem_insert_self other t.forked) hmem⟩
    · rw [State.child_setChild_of_ne hother, Finset.mem_insert, not_or]
      exact (h.forked other).trans ⟨fun hmem => ⟨hother, hmem⟩, And.right⟩
  · rw [State.child_setChild_of_ne (hne hwaited)]
    exact h.waited other hwaited
  · rw [State.child_setChild_of_ne (hne hwaited)]
    exact h.well hwell other hwaited

theorem Follows.close {next : Script} (h : Follows s t)
    (hforked : t.well → ∀ role : Role, role.own = e → role ∈ t.forked)
    (hnext : next.Disciplined { t with holds := t.holds.erase e }) :
    Follows { s with script := next, holds := s.holds.erase e }
      { t with holds := t.holds.erase e } where
  disciplined := hnext
  holds := congrArg (·.erase e) h.holds
  forked := h.forked
  waited := h.waited
  well := h.well
  owned hwell other hother :=
    Finset.mem_erase.mpr
      ⟨fun heq => hother (hforked hwell other heq), h.owned hwell other hother⟩

/-- A child has been waited for. -/
theorem Follows.wait {next : Script} {well : Bool} (h : Follows s t)
    (hchild : s.child role = some c) (hover : c.phase.Over)
    (hwell : well → t.well ∧ c.phase = .exited true)
    (hnext : next.Disciplined { t with waited := insert role t.waited, well }) :
    Follows { s with script := next } { t with waited := insert role t.waited, well } where
  disciplined := hnext
  holds := h.holds
  forked := h.forked
  waited := Finset.forall_mem_insert .. |>.mpr ⟨⟨c, hchild, hover⟩, h.waited⟩
  well hw := Finset.forall_mem_insert .. |>.mpr ⟨⟨c, hchild, (hwell hw).2⟩, h.well (hwell hw).1⟩
  owned hw := h.owned (hwell hw).1

/-- No child has failed so far. -/
def State.Well (s : State α) : Prop :=
  ∀ role c, s.child role = some c → c.phase.Over → c.phase = .exited true

/-- Whatever the step, there is a record that agrees with the script again; it says that all is well
as long as nothing fails. -/
theorem Step.follows {l : Label} (h : Step plan l s s') (hfollows : Follows s t) :
    ∃ t', Follows s' t' ∧ (l ≠ .fault → s.Well → t.well → t'.well) := by
  have hdisciplined := hfollows.disciplined
  cases h with
  | attempt script =>
      rw [script] at hdisciplined
      exact ⟨_, hfollows.next hdisciplined.1, fun _ _ hw => hw⟩
  | attemptFails script =>
      rw [script] at hdisciplined
      exact ⟨_, hfollows.failed hdisciplined.2, fun hl => absurd rfl hl⟩
  | fork script =>
      rw [script] at hdisciplined
      exact ⟨_, hfollows.fork hdisciplined.1 hdisciplined.2.2, fun _ _ hw => hw⟩
  | close script =>
      rw [script] at hdisciplined
      exact ⟨_, hfollows.close hdisciplined.1 hdisciplined.2, fun _ _ hw => hw⟩
  | launched script =>
      rw [script] at hdisciplined
      exact ⟨_, hfollows.next hdisciplined.2.1, fun _ _ hw => hw⟩
  -- a child that could not execute its program is over and has not succeeded
  | notLaunched script child phase =>
      rw [script] at hdisciplined
      refine ⟨_, hfollows.failed hdisciplined.2.2, fun _ hwell _ => ?_⟩
      have hexited := hwell _ _ child (phase ▸ trivial)
      rw [phase] at hexited
      cases hexited
  | wait script child phase =>
      rw [script] at hdisciplined
      exact ⟨{ t with waited := _ },
        hfollows.wait child (phase ▸ trivial) (fun hw => ⟨hw, phase⟩) hdisciplined.2.2.2.1,
        fun _ _ hw => hw⟩
  -- the failure of a child is recorded by the script as well
  | waitFails script child isOver phase =>
      rw [script] at hdisciplined
      exact ⟨{ t with waited := _, well := false },
        hfollows.wait child isOver nofun hdisciplined.2.2.2.2,
        fun _ hwell _ => absurd (hwell _ _ child isOver) phase⟩
  -- the other steps are those of the children; a script records nothing of them until it waits
  | start child phase =>
      exact ⟨t, hfollows.setChild child (phase ▸ Phase.not_over_starting), fun _ _ hw => hw⟩
  | startFails child phase =>
      exact ⟨t, hfollows.setChild child (phase ▸ Phase.not_over_starting), fun _ _ hw => hw⟩
  | abort child isOver => exact ⟨t, hfollows.setChild child isOver, fun _ _ hw => hw⟩
  | write | read =>
      exact ⟨t, ⟨hdisciplined, hfollows.holds, hfollows.forked, hfollows.waited, hfollows.well,
        hfollows.owned⟩, fun _ _ hw => hw⟩
  | sigpipe child phase | finish child phase | eof child phase | quit child phase =>
      exact ⟨t, hfollows.setChild child (phase ▸ Phase.not_over_running), fun _ _ hw => hw⟩

/-!
## Who has which end open

Ends are only ever passed on by a fork, and only closed otherwise.
-/

theorem State.Open.of_setChild (h : (s.setChild role c).Open e) : e ∈ c.holds ∨ s.Open e := by
  obtain hholds | ⟨other, c', hother, hmem⟩ := h
  · exact .inr (.inl hholds)
  · by_cases heq : other = role
    · subst heq
      rw [child_setChild] at hother
      cases hother
      exact .inl hmem
    · rw [child_setChild_of_ne heq] at hother
      exact .inr (.inr ⟨other, c', hother, hmem⟩)

theorem Plan.keeps_subset (plan : Plan α) (role : Role) (inherited : Finset End) :
    plan.keeps role inherited ⊆ inherited := by
  rw [keeps]
  split
  · exact Finset.inter_subset_left
  · exact Finset.Subset.refl _

/-- An end that nobody has open stays closed: a child gets only what its parent has. -/
theorem Step.open {l : Label} (h : Step plan l s s') (hopen : s'.Open e) : s.Open e := by
  have hover {role : Role} {phase : Phase} (hopen : (s.setOver role phase).Open e) : s.Open e :=
    hopen.of_setChild.resolve_left (Finset.notMem_empty e)
  cases h with
  | attempt | attemptFails | launched | notLaunched | wait | waitFails | write | read => exact hopen
  | fork => exact hopen.of_setChild.elim .inl id
  | close => exact hopen.imp_left fun hmem => Finset.mem_of_mem_erase hmem
  | start child =>
      exact hopen.of_setChild.elim
        (fun hmem => .inr ⟨_, _, child, plan.keeps_subset _ _ hmem⟩) id
  | startFails | abort | sigpipe | finish | eof | quit => exact hover hopen

/-- A child that is not over has its own end; it closes the other one if the plan says so. -/
structure Child.Wired (plan : Plan α) (role : Role) (c : Child) : Prop where
  own : ¬ c.phase.Over → role.own ∈ c.holds
  only : c.phase = .running → plan.closes role → ∀ e ∈ c.holds, e = role.own
  isOver : c.phase.Over → c.holds = ∅

def State.Wired (plan : Plan α) (s : State α) : Prop :=
  ∀ role c, s.child role = some c → c.Wired plan role

theorem State.Wired.setChild (h : s.Wired plan) (hc : c.Wired plan role) :
    (s.setChild role c).Wired plan := by
  intro other c' hother
  by_cases heq : other = role
  · subst heq
    rw [child_setChild] at hother
    cases hother
    exact hc
  · rw [child_setChild_of_ne heq] at hother
    exact h other c' hother

theorem State.Wired.setOver {phase : Phase} (h : s.Wired plan) (hover : phase.Over) :
    (s.setOver role phase).Wired plan :=
  h.setChild ⟨fun hne => absurd hover hne, fun _ _ _ hmem => absurd hmem (Finset.notMem_empty _),
    fun _ => rfl⟩

theorem Child.Wired.start (h : c.Wired plan role) (hphase : c.phase = .starting) :
    Child.Wired plan role ⟨.running, plan.keeps role c.holds⟩ where
  own _ := by
    have hown := h.own (hphase ▸ Phase.not_over_starting)
    rw [Plan.keeps]
    split
    · exact Finset.mem_inter.mpr ⟨hown, Finset.mem_singleton_self _⟩
    · exact hown
  only _ hcloses e hmem := by
    rw [Plan.keeps, if_pos hcloses] at hmem
    exact Finset.mem_singleton.mp (Finset.mem_inter.mp hmem).2
  isOver h := h.elim

theorem Step.wired {l : Label} (h : Step plan l s s') (hfollows : Follows s t)
    (hwired : s.Wired plan) : s'.Wired plan := by
  cases h with
  | attempt | attemptFails | close | launched | notLaunched | wait | waitFails | write | read =>
      exact hwired
  | fork script =>
      have hdisciplined := hfollows.disciplined
      rw [script] at hdisciplined
      exact State.Wired.setChild (s := { s with script := _ }) hwired
        ⟨fun _ => hfollows.holds ▸ hdisciplined.2.1, nofun, False.elim⟩
  | start child phase => exact hwired.setChild ((hwired _ _ child).start phase)
  | startFails | abort | sigpipe | finish | eof | quit => exact hwired.setOver trivial

/-!
## What has gone through the pipe

A producer succeeds once it has written everything, and a consumer once it has seen the end of its
input; the latter is the end of everything that will ever be written, since nobody has the write end
open any more, and an end that is closed stays closed.
-/

/-- A producer that has succeeded has written everything. -/
def State.Produced (plan : Plan α) (s : State α) : Prop :=
  ∀ c, s.child .producer = some c → c.phase = .exited true →
    s.pending = [] ∧ plan.producerOk = true

/-- A consumer that has succeeded has seen the end of its input. -/
def State.Consumed (plan : Plan α) (s : State α) : Prop :=
  ∀ c, s.child .consumer = some c → c.phase = .exited true →
    s.buffer = [] ∧ ¬ s.Open .write ∧ plan.consumerOk s.received = true

/-- Nothing is lost in the pipe, or gets there twice or out of order. -/
theorem Step.conserved {l : Label} (h : Step plan l s s') :
    s'.received ++ s'.buffer ++ s'.pending = s.received ++ s.buffer ++ s.pending := by
  cases h with
  | write _ _ _ pending => simp only [pending, List.append_assoc]
  | read _ _ _ buffer => simp only [buffer, List.append_assoc]
  | _ => rfl

theorem State.child_of_setChild {other : Role}
    (h : (s.setChild role c).child other = some c') :
    (other = role ∧ c' = c) ∨ s.child other = some c' := by
  by_cases heq : other = role
  · subst heq
    rw [child_setChild] at h
    exact .inl ⟨rfl, (Option.some.inj h).symm⟩
  · rw [child_setChild_of_ne heq] at h
    exact .inr h

/-- A child that has not succeeded has nothing to show. -/
theorem State.Produced.setChild (h : s.Produced plan) (hphase : c.phase ≠ .exited true) :
    (s.setChild role c).Produced plan := by
  intro c' hchild hexited
  obtain ⟨-, rfl⟩ | hchild := child_of_setChild hchild
  · exact absurd hexited hphase
  · exact h c' hchild hexited

theorem State.Produced.setOver {phase : Phase} (h : s.Produced plan)
    (hsucceeds : role = .producer → phase = .exited true →
      s.pending = [] ∧ plan.producerOk = true) : (s.setOver role phase).Produced plan := by
  intro c' hchild hexited
  obtain ⟨hrole, rfl⟩ | hchild := child_of_setChild hchild
  · exact hsucceeds hrole.symm hexited
  · exact h c' hchild hexited

theorem Step.produced {l : Label} (h : Step plan l s s') (hproduced : s.Produced plan) :
    s'.Produced plan := by
  cases h with
  | attempt | attemptFails | close | launched | notLaunched | wait | waitFails | read =>
      exact hproduced
  | fork | start => exact State.Produced.setChild (s := { s with script := _ }) hproduced nofun
  | startFails | abort | sigpipe => exact hproduced.setOver nofun
  | eof | quit => exact hproduced.setOver nofun
  | finish _ _ pending =>
      exact hproduced.setOver fun _ hphase => ⟨pending, Phase.exited.inj hphase⟩
  | write child phase =>
      intro c hchild hexited
      cases child.symm.trans hchild
      cases phase.symm.trans hexited

theorem State.Consumed.setChild (h : s.Consumed plan) (hphase : c.phase ≠ .exited true)
    (hopen : (s.setChild role c).Open .write → s.Open .write) :
    (s.setChild role c).Consumed plan := by
  intro c' hchild hexited
  obtain ⟨-, rfl⟩ | hchild := child_of_setChild hchild
  · exact absurd hexited hphase
  · exact (h c' hchild hexited).imp_right fun h => h.imp_left fun h hne => h (hopen hne)

theorem State.Consumed.setOver {phase : Phase} (h : s.Consumed plan)
    (hsucceeds : role = .consumer → phase = .exited true →
      s.buffer = [] ∧ ¬ s.Open .write ∧ plan.consumerOk s.received = true) :
    (s.setOver role phase).Consumed plan := by
  have hopen (hwrite : (s.setOver role phase).Open .write) : s.Open .write :=
    hwrite.of_setChild.resolve_left (Finset.notMem_empty _)
  intro c' hchild hexited
  obtain ⟨hrole, rfl⟩ | hchild := child_of_setChild hchild
  · exact (hsucceeds hrole.symm hexited).imp_right fun h => h.imp_left fun h hne => h (hopen hne)
  · exact (h c' hchild hexited).imp_right fun h => h.imp_left fun h hne => h (hopen hne)

/-- As long as the consumer is not satisfied early, it succeeds only at the end of its input, with
nothing left in the pipe. -/
theorem Step.consumed {l : Label} (h : Step plan l s s') (hl : l ≠ .quit)
    (hconsumed : s.Consumed plan) : s'.Consumed plan := by
  have hopen := h.open (e := .write)
  cases h with
  | attempt | attemptFails | launched | notLaunched | wait | waitFails => exact hconsumed
  | close =>
      intro c hchild hexited
      exact (hconsumed c hchild hexited).imp_right fun h => h.imp_left fun h hne => h (hopen hne)
  | fork => exact State.Consumed.setChild (s := { s with script := _ }) hconsumed nofun hopen
  | start => exact hconsumed.setChild nofun hopen
  | startFails | abort | sigpipe => exact hconsumed.setOver nofun
  | finish => exact hconsumed.setOver nofun
  | eof _ _ buffer noWriter =>
      exact hconsumed.setOver fun _ hphase => ⟨buffer, noWriter, Phase.exited.inj hphase⟩
  | quit => exact absurd rfl hl
  | write child _ holds =>
      -- Nobody can write any more once the consumer has seen the end of its input.
      intro c hchild hexited
      exact absurd (.inr ⟨_, _, child, holds⟩) (hconsumed c hchild hexited).2.1
  | read child phase =>
      intro c hchild hexited
      cases child.symm.trans hchild
      cases phase.symm.trans hexited

/-!
## Runs

The invariant of a run: the parent has got to where the check of its script has got to, and nothing
is lost or made up between the two ends of the pipe.
-/

/-- What holds in every state of a run. -/
structure Inv (plan : Plan α) (s : State α) (t : Track) : Prop where
  follows : Follows s t
  wired : s.Wired plan
  produced : s.Produced plan
  conserved : s.received ++ s.buffer ++ s.pending = plan.output

theorem inv_init {script : Script} (h : script.Disciplined Track.init) :
    Inv plan (init plan script) Track.init :=
  ⟨follows_init h, nofun, nofun, rfl⟩

theorem Step.inv {l : Label} (h : Step plan l s s') (hinv : Inv plan s t) :
    ∃ t', Inv plan s' t' ∧ (l ≠ .fault → s.Well → t.well → t'.well) := by
  obtain ⟨t', hfollows, hwell⟩ := h.follows hinv.follows
  exact ⟨t', ⟨hfollows, h.wired hinv.follows hinv.wired, h.produced hinv.produced,
    h.conserved.trans hinv.conserved⟩, hwell⟩

theorem Run.inv {script : Script} {ls : List Label} (hdisciplined : script.Disciplined Track.init)
    (h : Run plan (init plan script) ls s) : ∃ t, Inv plan s t := by
  induction h with
  | nil => exact ⟨_, inv_init hdisciplined⟩
  | snoc _ step ih =>
      obtain ⟨t, hinv⟩ := ih
      obtain ⟨t', hinv', -⟩ := step.inv hinv
      exact ⟨t', hinv'⟩

theorem Run.consumed {script : Script} {ls : List Label} (h : Run plan (init plan script) ls s)
    (hls : .quit ∉ ls) : s.Consumed plan := by
  induction h with
  | nil => exact nofun
  | snoc _ step ih =>
      rw [List.mem_append, not_or, List.mem_singleton] at hls
      exact step.consumed (Ne.symm hls.2) (ih hls.1)

/-!
## No run gets stuck

While the parent still has work to do, it can go on, unless it waits for a child. It waits with its
ends closed, so that a child that cannot go on would have to wait for the other one: a producer for
the pipe to be emptied, a consumer for something to be written. The two do not wait for each other,
since the pipe is not empty and full at the same time.
-/

/-- Once the parent has closed its ends, a child that is not yet over can go on. -/
theorem Inv.exists_step_child (hinv : Inv plan s t) (hcapacity : 0 < plan.capacity)
    (hcloses : ∀ role, plan.closes role) (hholds : s.holds = ∅)
    (hchild : s.child role = some c) (hover : ¬ c.phase.Over) : ∃ s', Step plan .step s s' := by
  by_cases hstarting : ∃ role c, s.child role = some c ∧ c.phase = .starting
  · obtain ⟨role, c, hchild, hphase⟩ := hstarting
    exact ⟨_, .start hchild hphase⟩
  -- So all children that are not over are running, and each has its own end only.
  have hrunning {role : Role} {c : Child} (hchild : s.child role = some c)
      (hover : ¬ c.phase.Over) : c.phase = .running := by
    cases hphase : c.phase with
    | starting => exact absurd ⟨role, c, hchild, hphase⟩ hstarting
    | running => rfl
    | notLaunched => exact absurd (hphase ▸ trivial) hover
    | exited ok => exact absurd (hphase ▸ trivial) hover
  have hopen {e : End} (hopen : s.Open e) :
      ∃ role c, s.child role = some c ∧ c.phase = .running ∧ e ∈ c.holds ∧ e = role.own := by
    obtain hmem | ⟨role, c, hchild, hmem⟩ := hopen
    · rw [hholds] at hmem
      exact absurd hmem (Finset.notMem_empty _)
    · have hphase := hrunning hchild fun hover => by
        rw [(hinv.wired _ _ hchild).isOver hover] at hmem
        exact Finset.notMem_empty _ hmem
      exact ⟨role, c, hchild, hphase, hmem,
        (hinv.wired _ _ hchild).only hphase (hcloses role) e hmem⟩
  -- A consumer can read from a pipe that is not empty.
  have hconsumer {c : Child} (hchild : s.child .consumer = some c) (hphase : c.phase = .running)
      (hnonempty : s.buffer ≠ []) : ∃ s', Step plan .step s s' :=
    ⟨_, .read hchild hphase ((hinv.wired _ _ hchild).own (hphase ▸ Phase.not_over_running))
      (List.append_nil _).symm hnonempty⟩
  -- A producer can finish, write to an empty pipe, or be killed; if the pipe is not empty, it is
  -- the consumer that can go on.
  have hproducer {c : Child} (hchild : s.child .producer = some c) (hphase : c.phase = .running) :
      ∃ s', Step plan .step s s' := by
    cases hpending : s.pending with
    | nil => exact ⟨_, .finish hchild hphase hpending⟩
    | cons x rest =>
        by_cases hreader : s.Open .read
        · obtain ⟨role, reader, hreader_child, hreader_phase, -, hown⟩ := hopen hreader
          cases role with
          | producer => cases hown
          | consumer =>
              by_cases hbuffer : s.buffer = []
              · have hsplit : s.pending = [x] ++ rest := hpending
                refine ⟨_, .write hchild hphase
                  ((hinv.wired _ _ hchild).own (hphase ▸ Phase.not_over_running)) hsplit
                  (List.cons_ne_nil _ _) hreader ?_⟩
                rw [hbuffer]
                exact hcapacity
              · exact hconsumer hreader_child hreader_phase hbuffer
        · exact ⟨_, .sigpipe hchild hphase (hpending ▸ List.cons_ne_nil _ _) hreader⟩
  have hphase := hrunning hchild hover
  cases role with
  | producer => exact hproducer hchild hphase
  | consumer =>
      -- A consumer with an empty pipe sees the end of its input, or there is a producer that can go
      -- on.
      by_cases hwriter : s.Open .write
      · obtain ⟨role, writer, hwriter_child, hwriter_phase, -, hown⟩ := hopen hwriter
        cases role with
        | producer => exact hproducer hwriter_child hwriter_phase
        | consumer => cases hown
      · by_cases hbuffer : s.buffer = []
        · exact ⟨_, .eof hchild hphase hbuffer hwriter⟩
        · exact hconsumer hchild hphase hbuffer

/-- Somebody can go on until all are over. -/
theorem Inv.exists_step (hinv : Inv plan s t) (hcapacity : 0 < plan.capacity)
    (hcloses : ∀ role, plan.closes role) :
    (∃ returned, s.Ended returned) ∨ ∃ s', Step plan .step s s' := by
  have hdisciplined := hinv.follows.disciplined
  cases hscript : s.script with
  | attempt => exact .inr ⟨_, .attempt hscript⟩
  | fork => exact .inr ⟨_, .fork hscript⟩
  | close => exact .inr ⟨_, .close hscript⟩
  | launched role next failed =>
      rw [hscript] at hdisciplined
      obtain ⟨c, hchild⟩ := hinv.follows.exists_child hdisciplined.1
      cases hphase : c.phase with
      | starting => exact .inr ⟨_, .start hchild hphase⟩
      | running => exact .inr ⟨_, .launched hscript hchild (.inl hphase)⟩
      | notLaunched => exact .inr ⟨_, .notLaunched hscript hchild hphase⟩
      | exited ok => exact .inr ⟨_, .launched hscript hchild (.inr ⟨ok, hphase⟩)⟩
  | wait role next failed =>
      rw [hscript] at hdisciplined
      obtain ⟨c, hchild⟩ := hinv.follows.exists_child hdisciplined.1
      by_cases hover : c.phase.Over
      · by_cases hphase : c.phase = .exited true
        · exact .inr ⟨_, .wait hscript hchild hphase⟩
        · exact .inr ⟨_, .waitFails hscript hchild hover hphase⟩
      · exact .inr (hinv.exists_step_child hcapacity hcloses
          (hinv.follows.holds.trans hdisciplined.2.2.1) hchild hover)
  | stop returned =>
      rw [hscript] at hdisciplined
      refine .inl ⟨returned, hscript, fun role c hchild => ?_⟩
      have hforked : role ∈ t.forked := by
        by_contra hforked
        cases ((hinv.follows.forked role).mpr hforked).symm.trans hchild
      obtain ⟨_, hwaited, hover⟩ := hinv.follows.waited role (hdisciplined.1 hforked)
      cases hchild.symm.trans hwaited
      exact hover

/-- However the processes are scheduled, and whatever goes wrong, they can go on until the parent
has stopped and all children are over. -/
theorem progress {script : Script} {ls : List Label}
    (hdisciplined : script.Disciplined Track.init) (hcapacity : 0 < plan.capacity)
    (hcloses : ∀ role, plan.closes role) (h : Run plan (init plan script) ls s) :
    (∃ returned, s.Ended returned) ∨ ∃ s', Step plan .step s s' := by
  obtain ⟨t, hinv⟩ := h.inv hdisciplined
  exact hinv.exists_step hcapacity hcloses

/-!
## What the parent learns

The parent returns if it has seen both children succeed. Conversely, in a run in which nothing fails
the children do succeed: the consumer does not end before the producer, which therefore has a reader
as long as it writes.
-/

theorem Inv.exited_of_ended (hinv : Inv plan s t) (hended : s.Ended true) (role : Role) :
    ∃ c, s.child role = some c ∧ c.phase = .exited true := by
  have hdisciplined := hinv.follows.disciplined
  rw [hended.1] at hdisciplined
  have hwell : t.well = true := hdisciplined.2.1.symm
  exact hinv.follows.well hwell role (hdisciplined.2.2 hwell ▸ Finset.mem_univ role)

/-- When the parent returns, the producer has succeeded, with everything written. -/
theorem produced_of_returned {script : Script} {ls : List Label}
    (hdisciplined : script.Disciplined Track.init) (h : Run plan (init plan script) ls s)
    (hended : s.Ended true) : s.pending = [] ∧ plan.producerOk = true := by
  obtain ⟨t, hinv⟩ := h.inv hdisciplined
  obtain ⟨c, hchild, hphase⟩ := hinv.exited_of_ended hended .producer
  exact hinv.produced c hchild hphase

/-- When the parent returns, and the consumer has not stopped early, the consumer has got all of the
output, and has succeeded with it. -/
theorem returned {script : Script} {ls : List Label}
    (hdisciplined : script.Disciplined Track.init) (h : Run plan (init plan script) ls s)
    (hls : .quit ∉ ls) (hended : s.Ended true) :
    s.received = plan.output ∧ plan.producerOk = true ∧ plan.consumerOk plan.output = true := by
  obtain ⟨t, hinv⟩ := h.inv hdisciplined
  obtain ⟨hpending, hproducer⟩ := produced_of_returned hdisciplined h hended
  obtain ⟨c, hchild, hphase⟩ := hinv.exited_of_ended hended .consumer
  obtain ⟨hbuffer, -, hconsumer⟩ := h.consumed hls c hchild hphase
  have hreceived := hinv.conserved
  rw [hpending, hbuffer, List.append_nil, List.append_nil] at hreceived
  exact ⟨hreceived, hproducer, hreceived ▸ hconsumer⟩

/-- No child has failed, and the consumer has not ended before the producer. -/
structure Smooth (s : State α) (t : Track) : Prop where
  trackWell : t.well = true
  well : s.Well
  order : ∀ c, s.child .consumer = some c → c.phase.Over →
    ∃ c', s.child .producer = some c' ∧ c'.phase.Over

/-- Until then, the producer can write, and no end of the input is seen. -/
theorem Smooth.open_of_own (h : Smooth s t) (hinv : Inv plan s t)
    (hrole : ∀ c, s.child role = some c → ¬ c.phase.Over) : s.Open role.own := by
  cases hchild : s.child role with
  | none =>
      exact .inl (hinv.follows.owned h.trackWell role ((hinv.follows.forked role).mp hchild))
  | some c => exact .inr ⟨role, c, hchild, (hinv.wired _ _ hchild).own (hrole c hchild)⟩

theorem State.Well.setChild (h : s.Well) (hphase : c.phase.Over → c.phase = .exited true) :
    (s.setChild role c).Well := by
  intro other c' hchild hover
  obtain ⟨-, rfl⟩ | hchild := child_of_setChild hchild
  · exact hphase hover
  · exact h other c' hchild hover

/-- A producer that is not over has not been overtaken. -/
theorem Smooth.consumer_not_over (h : Smooth s t)
    (hproducer : ∀ c, s.child .producer = some c → ¬ c.phase.Over) :
    ∀ c, s.child .consumer = some c → ¬ c.phase.Over := by
  intro c hchild hover
  obtain ⟨c', hchild', hover'⟩ := h.order c hchild hover
  exact hproducer c' hchild' hover'

theorem Smooth.start {phase : Phase} (h : Smooth s t)
    (hchild : ∀ c, s.child role = some c → ¬ c.phase.Over) (hphase : ¬ phase.Over)
    {holds : Finset End} : Smooth (s.setChild role ⟨phase, holds⟩) t where
  trackWell := h.trackWell
  well := h.well.setChild fun hover => absurd hover hphase
  order := by
    intro c hconsumer hover
    obtain ⟨-, rfl⟩ | hconsumer := State.child_of_setChild hconsumer
    · exact absurd hover hphase
    · obtain ⟨c', hproducer, hover'⟩ := h.order c hconsumer hover
      refine ⟨c', ?_, hover'⟩
      rw [State.child_setChild_of_ne, hproducer]
      rintro rfl
      exact hchild c' hproducer hover'

/-- If nothing fails, the producer ends first, and both succeed. -/
theorem Step.smooth {t' : Track} (h : Step plan .step s s') (hinv : Inv plan s t)
    (hproducer : plan.producerOk = true) (hconsumer : plan.consumerOk plan.output = true)
    (hsmooth : Smooth s t) (htrack : t'.well = true) : Smooth s' t' := by
  have hnot {role : Role} {c : Child} (hchild : s.child role = some c) (hover : ¬ c.phase.Over) :
      ∀ c, s.child role = some c → ¬ c.phase.Over := by
    intro c' hchild'
    cases hchild.symm.trans hchild'
    exact hover
  -- Most steps leave the children as they are.
  have hsame {s' : State α} (hchild : s'.child = s.child) : Smooth s' t' :=
    ⟨htrack, by rw [State.Well, hchild]; exact hsmooth.well, by rw [hchild]; exact hsmooth.order⟩
  cases h with
  | attempt | close | launched | notLaunched | wait | waitFails | write | read => exact hsame rfl
  | @fork _ _ next script =>
      have hdisciplined := hinv.follows.disciplined
      rw [script] at hdisciplined
      have hnone := (hinv.follows.forked _).mpr hdisciplined.1
      exact Smooth.start (s := { s with script := next }) (hsame rfl)
        (fun c hchild => by cases hnone.symm.trans hchild) Phase.not_over_starting
  | start child phase =>
      exact Smooth.start (hsame rfl) (hnot child (phase ▸ Phase.not_over_starting))
        Phase.not_over_running
  -- the consumer is not over before the producer, and has its own end open
  | sigpipe child phase _ noReader =>
      exact absurd (hsmooth.open_of_own hinv
        (hsmooth.consumer_not_over (hnot child (phase ▸ Phase.not_over_running)))) noReader
  | finish child phase =>
      refine ⟨htrack, hsmooth.well.setChild fun _ => congrArg Phase.exited hproducer,
        fun c _ _ => ⟨_, State.child_setChild .., trivial⟩⟩
  | eof child phase buffer noWriter =>
      -- The producer is over, since otherwise it has its end open; so all output has been read.
      have hover : ∃ c, s.child .producer = some c ∧ c.phase.Over := by
        by_contra hne
        exact noWriter (hsmooth.open_of_own hinv fun c hchild hover => hne ⟨c, hchild, hover⟩)
      obtain ⟨c, hchild, hover⟩ := hover
      have hpending := (hinv.produced c hchild (hsmooth.well _ c hchild hover)).1
      have hreceived := hinv.conserved
      rw [hpending, buffer, List.append_nil, List.append_nil] at hreceived
      refine ⟨htrack, hsmooth.well.setChild fun _ => ?_, fun _ _ _ => ⟨c, ?_, hover⟩⟩
      · exact congrArg Phase.exited (hreceived ▸ hconsumer)
      · rw [State.setOver, State.child_setChild_of_ne (by decide)]
        exact hchild

theorem smooth_init {script : Script} : Smooth (init plan script) Track.init :=
  ⟨rfl, nofun, nofun⟩

theorem Run.smooth {script : Script} {ls : List Label}
    (hdisciplined : script.Disciplined Track.init) (h : Run plan (init plan script) ls s)
    (hls : ∀ l ∈ ls, l = .step) (hproducer : plan.producerOk = true)
    (hconsumer : plan.consumerOk plan.output = true) : ∃ t, Inv plan s t ∧ Smooth s t := by
  induction h with
  | nil => exact ⟨_, inv_init hdisciplined, smooth_init⟩
  | snoc _ step ih =>
      obtain ⟨t, hinv, hsmooth⟩ := ih fun l hmem => hls l (List.mem_append_left _ hmem)
      cases hls _ (List.mem_append_right _ (List.mem_singleton_self _))
      obtain ⟨t', hinv', hwell⟩ := step.inv hinv
      exact ⟨t', hinv', step.smooth hinv hproducer hconsumer hsmooth
        (hwell nofun hsmooth.well hsmooth.trackWell)⟩

/-- When nothing goes wrong, the parent returns. -/
theorem returns {script : Script} {ls : List Label} {returned : Bool}
    (hdisciplined : script.Disciplined Track.init) (h : Run plan (init plan script) ls s)
    (hls : ∀ l ∈ ls, l = .step) (hproducer : plan.producerOk = true)
    (hconsumer : plan.consumerOk plan.output = true) (hended : s.Ended returned) :
    returned = true := by
  obtain ⟨t, hinv, hsmooth⟩ := h.smooth hdisciplined hls hproducer hconsumer
  have hstop := hinv.follows.disciplined
  rw [hended.1] at hstop
  exact hstop.2.1.trans hsmooth.trackWell

theorem Run.quit_notMem {ls : List Label} (h : Run plan s ls s') (hquits : plan.quits = false) :
    .quit ∉ ls := by
  induction h with
  | nil => exact List.not_mem_nil
  | snoc _ step ih =>
      rw [List.mem_append, not_or, List.mem_singleton]
      refine ⟨ih, ?_⟩
      rintro rfl
      cases step with
      | quit _ _ quits => cases hquits.symm.trans quits

/-- The processes do what a sequential program does, of which `succeeds` says that it succeeds. -/
structure Implements (plan : Plan α) (script : Script) (succeeds : Prop) : Prop where
  length_le : ∀ ls s, Run plan (init plan script) ls s →
    ls.length ≤ script.size + 2 * plan.output.length
  progress : ∀ ls s, Run plan (init plan script) ls s →
    (∃ returned, s.Ended returned) ∨ ∃ s', Step plan .step s s'
  /-- What has been read is, at any time, the first part of the output. -/
  prefix_output : ∀ ls s, Run plan (init plan script) ls s → s.received <+: plan.output
  produced : ∀ ls s, Run plan (init plan script) ls s → s.Ended true → plan.producerOk = true
  /-- Unless the consumer was satisfied early. -/
  sound : ∀ ls s, Run plan (init plan script) ls s → (plan.quits = true → .quit ∉ ls) →
    s.Ended true → s.received = plan.output ∧ succeeds
  /-- If nothing goes wrong that does not go wrong in the sequential program. -/
  complete : ∀ ls s returned, Run plan (init plan script) ls s → (∀ l ∈ ls, l = .step) →
    s.Ended returned → (returned = true ↔ succeeds)

/-- A disciplined script, and children that close what they have no use for. -/
theorem implements {script : Script} {succeeds : Prop}
    (hdisciplined : script.Disciplined Track.init) (hcapacity : 0 < plan.capacity)
    (hcloses : ∀ role, plan.closes role)
    (hsucceeds : succeeds ↔ plan.producerOk = true ∧ plan.consumerOk plan.output = true) :
    Implements plan script succeeds where
  length_le ls s h := by
    have hlength := h.length_le
    have hsize : (init plan script).size = script.size + 2 * plan.output.length := rfl
    omega
  progress ls s h := progress hdisciplined hcapacity hcloses h
  prefix_output ls s h := by
    obtain ⟨t, hinv⟩ := h.inv hdisciplined
    exact ⟨s.buffer ++ s.pending, by rw [← hinv.conserved, List.append_assoc]⟩
  produced ls s h hended := (produced_of_returned hdisciplined h hended).2
  sound ls s h hquit hended := by
    have hquit : .quit ∉ ls := by
      cases hquits : plan.quits with
      | true => exact hquit hquits
      | false => exact h.quit_notMem hquits
    exact (returned hdisciplined h hquit hended).imp_right hsucceeds.mpr
  complete ls s returned h hls hended := by
    constructor
    · rintro rfl
      have hquit : .quit ∉ ls := fun hmem => by cases hls _ hmem
      exact hsucceeds.mpr (Pipeline.returned hdisciplined h hquit hended).2
    · intro h'
      obtain ⟨hproducer, hconsumer⟩ := hsucceeds.mp h'
      exact returns hdisciplined h hls hproducer hconsumer hended

/-!
## Why the ends have to be closed

Both ways of getting stuck are invariants, of the steps that are not failures. It is said that a run
does not end, not that it gets stuck: the other processes may go on for a while.
-/

/-- A consumer that keeps the write end open, and so waits for its own end. -/
def State.WaitsForItself (s : State α) : Prop :=
  ∃ c, s.child .consumer = some c ∧ ¬ c.phase.Over ∧ .write ∈ c.holds

theorem State.WaitsForItself.setChild (h : s.WaitsForItself)
    (hc : role = .consumer → ¬ c.phase.Over ∧ .write ∈ c.holds) :
    (s.setChild role c).WaitsForItself := by
  cases role with
  | consumer => exact ⟨c, child_setChild .., hc rfl⟩
  | producer =>
      obtain ⟨c', hchild, h⟩ := h
      exact ⟨c', (child_setChild_of_ne (by decide) c).trans hchild, h⟩

/-- Its own end of the pipe keeps it from seeing the end of its input. -/
theorem Step.waitsForItself (h : Step plan .step s s') (hfollows : Follows s t)
    (hcloses : plan.closes .consumer = false) (hwaits : s.WaitsForItself) :
    s'.WaitsForItself := by
  obtain ⟨c, hchild, hover, hwrite⟩ := hwaits
  have hwaits : s.WaitsForItself := ⟨c, hchild, hover, hwrite⟩
  cases h with
  | attempt | close | launched | notLaunched | wait | waitFails | write | read => exact hwaits
  | fork script =>
      have hdisciplined := hfollows.disciplined
      rw [script] at hdisciplined
      have hnone := (hfollows.forked _).mpr hdisciplined.1
      refine State.WaitsForItself.setChild (s := { s with script := _ }) hwaits ?_
      rintro rfl
      cases hnone.symm.trans hchild
  | start child =>
      refine hwaits.setChild ?_
      rintro rfl
      cases hchild.symm.trans child
      refine ⟨Phase.not_over_running, ?_⟩
      rw [Plan.keeps, hcloses, if_neg Bool.false_ne_true]
      exact hwrite
  | sigpipe | finish => exact hwaits.setChild nofun
  | eof _ _ _ noWriter => exact absurd (.inr ⟨_, c, hchild, hwrite⟩) noWriter

/-- What the parent does while there are no children. -/
theorem Step.of_attempt {next failed : Script} (h : Step plan .step s s')
    (hscript : s.script = .attempt next failed) (hnone : ∀ role, s.child role = none) :
    s' = { s with script := next } := by
  cases h with
  | attempt script =>
      cases hscript.symm.trans script
      rfl
  | fork script | close script | launched script | notLaunched script | wait script
  | waitFails script => cases hscript.symm.trans script
  | start child | write child | sigpipe child | finish child | read child | eof child =>
      cases (hnone _).symm.trans child

theorem Step.of_fork {next : Script} (h : Step plan .step s s')
    (hscript : s.script = .fork role next) (hnone : ∀ role, s.child role = none) :
    s' = { s with script := next }.setChild role ⟨.starting, s.holds⟩ := by
  cases h with
  | fork script =>
      cases hscript.symm.trans script
      rfl
  | attempt script | close script | launched script | notLaunched script | wait script
  | waitFails script => cases hscript.symm.trans script
  | start child | write child | sigpipe child | finish child | read child | eof child =>
      cases (hnone _).symm.trans child

/-- A consumer that is forked first, and does not close the write end, never ends of itself. -/
theorem Run.not_ended_of_keeps {next failed : Script} {ls : List Label} {returned : Bool}
    (hdisciplined : (Script.attempt (.fork .consumer next) failed).Disciplined Track.init)
    (h : Run plan (init plan (.attempt (.fork .consumer next) failed)) ls s)
    (hls : ∀ l ∈ ls, l = .step) (hcloses : plan.closes .consumer = false) :
    ¬ s.Ended returned := by
  -- The first two steps are the parent's; after them, there is a consumer with both ends.
  have hstages : ∃ t, Follows s t ∧
      (s = init plan (.attempt (.fork .consumer next) failed) ∨
        s = init plan (.fork .consumer next) ∨ s.WaitsForItself) := by
    induction h with
    | nil => exact ⟨_, follows_init hdisciplined, .inl rfl⟩
    | snoc _ step ih =>
        obtain ⟨t, hfollows, hstage⟩ := ih fun l hmem => hls l (List.mem_append_left _ hmem)
        cases hls _ (List.mem_append_right _ (List.mem_singleton_self _))
        obtain ⟨t', hfollows', -⟩ := step.follows hfollows
        refine ⟨t', hfollows', .inr ?_⟩
        obtain rfl | rfl | hwaits := hstage
        · exact .inl (step.of_attempt rfl fun _ => rfl)
        · refine .inr ?_
          rw [step.of_fork rfl fun _ => rfl]
          exact ⟨_, State.child_setChild .., Phase.not_over_starting, Finset.mem_univ _⟩
        · exact .inr (step.waitsForItself hfollows hcloses hwaits)
  obtain ⟨-, -, rfl | rfl | ⟨c, hchild, hover, -⟩⟩ := hstages
  · exact fun hended => by cases hended.1
  · exact fun hended => by cases hended.1
  · exact fun hended => hover (hended.2 _ c hchild)

/-- As long as nothing fails, the script does not close the read end, or fork a consumer, before it
waits for the producer. -/
def Script.Retains : Script → Prop
  | .attempt next _ => next.Retains
  | .fork role next => role = .producer ∧ next.Retains
  | .close e next => e ≠ .read ∧ next.Retains
  | .launched role next _ => role = .producer ∧ next.Retains
  | .wait role _ _ => role = .producer
  | .stop _ => False

/-- The producer has more to write than fits into the pipe, from which nobody reads, although the
parent could. -/
structure Blocked (plan : Plan α) (s : State α) : Prop where
  retains : s.script.Retains
  holds : .read ∈ s.holds
  noReader : ∀ c, s.child .consumer = some c → c.phase.Over
  producer : ∀ c, s.child .producer = some c → ¬ c.phase.Over
  conserved : s.received ++ s.buffer ++ s.pending = plan.output
  fits : s.buffer.length ≤ plan.capacity
  long : s.received.length + plan.capacity < plan.output.length

theorem Blocked.setProducer (h : Blocked plan s) (hover : ¬ c.phase.Over) :
    Blocked plan (s.setChild .producer c) :=
  ⟨h.retains, h.holds, fun c' hchild => h.noReader c' hchild,
    fun c' hchild => by
      cases (State.child_setChild ..).symm.trans hchild
      exact hover,
    h.conserved, h.fits, h.long⟩

/-- No step that is not a failure gets the producer, or the parent, any further. -/
theorem Step.blocked (h : Step plan .step s s') (hblocked : Blocked plan s) :
    Blocked plan s' := by
  -- The script does not get past the producer, which it waits for with the read end open.
  have hretains := hblocked.retains
  have hnext {next : Script} (hnext : next.Retains) : Blocked plan { s with script := next } :=
    ⟨hnext, hblocked.holds, hblocked.noReader, hblocked.producer, hblocked.conserved,
      hblocked.fits, hblocked.long⟩
  have hconserved := h.conserved.trans hblocked.conserved
  cases h with
  | attempt script =>
      rw [script] at hretains
      exact hnext hretains
  | fork script =>
      rw [script] at hretains
      obtain ⟨rfl, hretains⟩ := hretains
      exact (hnext hretains).setProducer Phase.not_over_starting
  | close script =>
      rw [script] at hretains
      exact { hnext hretains.2 with
        holds := Finset.mem_erase.mpr ⟨hretains.1.symm, hblocked.holds⟩ }
  | launched script =>
      rw [script] at hretains
      exact hnext hretains.2
  | notLaunched script child phase =>
      rw [script] at hretains
      obtain ⟨rfl, -⟩ := hretains
      exact absurd (phase ▸ trivial) (hblocked.producer _ child)
  | wait script child phase =>
      rw [script] at hretains
      obtain rfl := hretains
      exact absurd (phase ▸ trivial) (hblocked.producer _ child)
  | waitFails script child isOver =>
      rw [script] at hretains
      obtain rfl := hretains
      exact absurd isOver (hblocked.producer _ child)
  | @start _ role _ child phase =>
      cases role with
      | producer => exact hblocked.setProducer Phase.not_over_running
      | consumer => exact absurd (hblocked.noReader _ child) (phase ▸ Phase.not_over_starting)
  | write _ _ _ _ _ _ fits =>
      exact { hblocked with
        conserved := hconserved
        fits := by rw [List.length_append]; exact fits }
  -- It is not killed either, since the parent still has the read end.
  | sigpipe _ _ _ noReader => exact absurd (.inl hblocked.holds) noReader
  | finish _ _ pending =>
      -- What has been written so far has been read, or fits into the pipe.
      have hlength := congrArg List.length hblocked.conserved
      rw [pending, List.append_nil, List.length_append] at hlength
      have hfits := hblocked.fits
      have hlong := hblocked.long
      omega
  | read child phase | eof child phase =>
      exact absurd (hblocked.noReader _ child) (phase ▸ Phase.not_over_running)

/-- Such a producer never ends of itself. -/
theorem Run.not_ended_of_blocked {ls : List Label} {returned : Bool} (h : Run plan s ls s')
    (hls : ∀ l ∈ ls, l = .step) (hblocked : Blocked plan s) : ¬ s'.Ended returned := by
  have hblocked' : Blocked plan s' := by
    induction h with
    | nil => exact hblocked
    | snoc _ step ih =>
        cases hls _ (List.mem_append_right _ (List.mem_singleton_self _))
        exact step.blocked (ih fun l hmem => hls l (List.mem_append_left _ hmem))
  intro hended
  have hretains := hblocked'.retains
  rw [hended.1] at hretains
  exact hretains

end

end Pipeline
