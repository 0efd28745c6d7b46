import LessonScript.Proofs.Moment
import Mathlib.Algebra.BigOperators.Group.List.Basic
import Mathlib.Algebra.Ring.Nat

/-! # What the steps of a run are

A step is a statement or the beginning of a loop turn. The log has an entry for every statement, and one
for every loop that says how many turns it begins with. So at every moment of a run (`Moment.Balanced`)
the steps are the statements of the log and the turns begun so far, and the turns that the log
announces are those begun so far and those left in the tasks. A run that succeeds ends in balance
with nothing left (`balanced_of_ok`). One that fails may have turns left, and a step too many is
counted although it is not taken (`steps_of_error`). -/

namespace LessonScript

/-! ### What a log adds up to -/

namespace Event

/-- A statement counts as one. -/
@[simp] def statements : Event → Nat
  | executed _ _ => 1
  | _ => 0

/-- A print statement counts as one. -/
@[simp] def prints : Event → Nat
  | executed _ .print => 1
  | _ => 0

/-- A loop counts as many as the turns it begins with. -/
@[simp] def turns : Event → Nat
  | looped _ turns _ => turns
  | _ => 0

end Event

/-- What the entries of a log count for, added up. -/
def total (w : Event → Nat) (log : List Event) : Nat := (log.map w).sum

section Total

variable {w : Event → Nat}

@[simp] theorem total_cons (e : Event) (log : List Event) :
    total w (e :: log) = w e + total w log := List.sum_cons

@[simp] theorem total_reverse (log : List Event) : total w log.reverse = total w log := by
  rw [total, List.map_reverse, List.sum_reverse, total]

@[simp] theorem total_append (log log' : List Event) :
    total w (log ++ log') = total w log + total w log' := by
  rw [total, List.map_append, List.sum_append, total, total]

@[simp] theorem total_evaluated (ts : List Text) :
    total w (ts.map .evaluated) = (ts.map fun t => w (.evaluated t)).sum := by
  rw [total, List.map_map]
  rfl

end Total

/-! ### Loop turns -/

variable {ν : Type} [NumberSystem ν] {limit : Option Nat}

namespace Moment

/-- The loop turns that begin with the next bit of a run: one at a loop with turns left. -/
def turnsNext (c : Moment ν) : Nat :=
  match c.tasks with
  | .turns _ _ (_ + 1) _ _ :: _ => 1
  | _ => 0

/-- **One moment comes after another, and so many loop turns begin on the way.** A turn that is a step
too many does not begin: no moment is next there. -/
inductive Begins (limit : Option Nat) (c : Moment ν) : Nat → Moment ν → Prop
  | refl : Begins limit c 0 c
  | tail {n : Nat} {c₁ c₂ : Moment ν} : Begins limit c n c₁ → Next limit c₁ c₂ →
      Begins limit c (n + c₁.turnsNext) c₂

variable {c c' : Moment ν} {n : Nat}

theorem Begins.reaches (h : Begins limit c n c') : Reaches limit c c' := by
  induction h with
  | refl => exact .refl
  | tail _ hn ih => exact ih.tail hn

theorem exists_begins_of_reaches (h : Reaches limit c c') : ∃ n, Begins limit c n c' := by
  induction h with
  | refl => exact ⟨0, .refl⟩
  | tail _ hn ih =>
    obtain ⟨n, h⟩ := ih
    exact ⟨_, h.tail hn⟩

/-- The turns that the tasks have left. -/
def turnsLeft : List (Task ν) → Nat
  | [] => 0
  | .lines _ :: ts => turnsLeft ts
  | .turns _ _ n _ _ :: ts => n + turnsLeft ts

/-- **A moment in balance**, after so many loop turns. -/
structure Balanced (n : Nat) (c : Moment ν) : Prop where
  steps : c.machine.steps = total Event.statements c.machine.log + n
  turns : total Event.turns c.machine.log = n + turnsLeft c.tasks
  prints : c.machine.output.length = total Event.prints c.machine.log

end Moment

/-! ### Balance -/

section Balance

open Moment (turnsLeft)

variable {l : Line} {ls : List Line} {m m' : Machine ν} {d : Demand} {c c' : Moment ν} {n : Nat}

/-- **What the part of a line adds**: a statement to the log with every step, and a print statement
with every text that is printed. -/
theorem total_of_performed (h : l.Performed m d m') :
    m'.steps + total Event.statements m.log = m.steps + total Event.statements m'.log ∧
      m'.output.length + total Event.prints m.log =
        m.output.length + total Event.prints m'.log ∧
      total Event.turns m'.log = total Event.turns m.log := by
  cases h with
  | skip _ => exact ⟨rfl, rfl, rfl⟩
  | print _ _ | assign _ _ | loop _ | branch _ _ _ => simp; omega

omit [NumberSystem ν] in
/-- **A demand announces the turns that it leaves.** -/
theorem total_announced (l : Line) (ls : List Line) (m : Machine ν) (d : Demand)
    (block : Bindings (Value ν)) (ts : List (Task ν)) :
    total Event.statements (l.announced ls m d).log = total Event.statements m.log ∧
      total Event.prints (l.announced ls m d).log = total Event.prints m.log ∧
      total Event.turns (l.announced ls m d).log + turnsLeft ts =
        total Event.turns m.log + turnsLeft (l.tasks ls block d ++ .lines (l.after ls) :: ts) := by
  cases d with
  | nothing => simp [Line.announced, Line.tasks, turnsLeft]
  | loop var range =>
    simp [Line.announced, Line.tasks, turnsLeft]
    omega
  | branch holds => cases holds <;> simp [Line.announced, Line.tasks, turnsLeft]

/-- **Every change keeps the balance.** -/
theorem balanced_of_change (h : c.Change limit c') (hc : c.Balanced n) :
    c'.Balanced (n + c.turnsNext) := by
  cases h with
  | leave => exact ⟨hc.steps, hc.turns, hc.prints⟩
  | @line l ls ts m m' d hp _ =>
    obtain ⟨hsteps, hturns, hprints⟩ := hc
    obtain ⟨hs, ho, ht⟩ := total_of_performed hp
    obtain ⟨hs', ho', ht'⟩ := total_announced l ls m' d m'.scope.block ts
    simp only [turnsLeft] at hsteps hturns hprints
    refine ⟨?_, ?_, ?_⟩ <;> simp only [Moment.turnsNext, Nat.add_zero]
    · rw [steps_announced, hs']
      omega
    · omega
    · rw [output_announced, ho']
      omega
  | finish => exact ⟨hc.steps, hc.turns.trans (by simp [turnsLeft, Moment.turnsNext]), hc.prints⟩
  | turn _ =>
    obtain ⟨hsteps, hturns, hprints⟩ := hc
    simp only [turnsLeft] at hsteps hturns
    refine ⟨congrArg (· + 1) hsteps, hturns.trans ?_, hprints⟩
    simp only [turnsLeft, Moment.turnsNext]
    omega

theorem balanced_of_begins (h : c.Begins limit n c') (hc : c.Balanced 0) : c'.Balanced n := by
  induction h with
  | refl => exact hc
  | tail _ hn ih => exact balanced_of_change (Moment.change_of_next hn) ih

omit [NumberSystem ν] in
theorem balanced_start (program : List Line) :
    (Moment.start program .initial : Moment ν).Balanced 0 := ⟨rfl, rfl, rfl⟩

/-- The step that is counted beyond those that are taken. -/
def RunError.excess : RunError → Nat
  | .stepLimit _ => 1
  | _ => 0

/-- **Where an error ends a run** the steps are the statements and the turns begun, and a step too many
if that is the error. -/
theorem steps_of_stopped {e : RunError} (h : c.Stopped limit e m') (hc : c.Balanced n) :
    m'.steps = total Event.statements m'.log + n + e.excess := by
  have hsteps := hc.steps
  cases h with
  | line hf =>
    cases hf with
    | header _ => exact hsteps
    | stepLimit _ _ _ _ => exact congrArg (· + 1) hsteps
    | unsupported _ _ | print _ _ _ | assign _ _ _ | lhs _ _ _ | rhs _ _ _ _ =>
      simp only [RunError.excess] at hsteps ⊢
      simp
      omega
  | turn _ _ => exact congrArg (· + 1) hsteps

end Balance

/-! ### Whole runs -/

/-- The run from a moment on comes to its end, where nothing is left or an error ends it, and so many
loop turns begin on the way. -/
def Moment.EndsAfter (limit : Option Nat) (c : Moment ν) (n : Nat) : Prop :=
  ∃ c', c.Begins limit n c' ∧ c'.Final limit

section Ends

variable {program : List Line} {m : Machine ν} {e : RunError} {n : Nat}

theorem exists_endsAfter (limit : Option Nat) (program : List Line) :
    ∃ n, (Moment.start program .initial : Moment ν).EndsAfter limit n := by
  rcases hr : (runLines limit program : Run ν Unit) .initial with ⟨u, m⟩ | ⟨e, m⟩
  · obtain ⟨n, hn⟩ := Moment.exists_begins_of_reaches (Moment.runLines_eq_ok_iff.mp hr)
    exact ⟨n, _, hn, Moment.final_nil m⟩
  · obtain ⟨c, hc, hs⟩ := Moment.runLines_eq_error_iff.mp hr
    obtain ⟨n, hn⟩ := Moment.exists_begins_of_reaches hc
    exact ⟨n, c, hn, Moment.final_of_stops hs⟩

/-- **A run that succeeds ends in balance.** -/
theorem balanced_of_ok (h : (Moment.start program .initial : Moment ν).EndsAfter limit n)
    (hr : runLines limit program .initial = .ok () m) : (⟨[], m⟩ : Moment ν).Balanced n := by
  obtain ⟨c, hc, hf⟩ := h
  obtain rfl :=
    Moment.eq_of_final hc.reaches (Moment.runLines_eq_ok_iff.mp hr) hf (Moment.final_nil m)
  exact balanced_of_begins hc (balanced_start _)

/-- **The steps of a run that fails.** -/
theorem steps_of_error (h : (Moment.start program .initial : Moment ν).EndsAfter limit n)
    (hr : runLines limit program .initial = .error e m) :
    m.steps = total Event.statements m.log + n + e.excess := by
  obtain ⟨c, hc, hf⟩ := h
  obtain ⟨c', hc', hs⟩ := Moment.runLines_eq_error_iff.mp hr
  obtain rfl := Moment.eq_of_final hc.reaches hc' hf (Moment.final_of_stops hs)
  exact steps_of_stopped (Moment.stopped_of_stops hs) (balanced_of_begins hc (balanced_start _))

/-- The turns that begin before the end of a run are so many and no others. -/
theorem exists_endsAfter_iff (limit : Option Nat) (program : List Line) :
    ∃ turns, ∀ n, (Moment.start program .initial : Moment ν).EndsAfter limit n ↔ n = turns := by
  obtain ⟨turns, hturns⟩ := exists_endsAfter (ν := ν) limit program
  refine ⟨turns, fun n => ⟨fun hn => ?_, fun hn => hn ▸ hturns⟩⟩
  rcases hr : (runLines limit program : Run ν Unit) .initial with ⟨u, m⟩ | ⟨e, m⟩
  · have hsteps := (balanced_of_ok hn hr).steps
    have hsteps' := (balanced_of_ok hturns hr).steps
    omega
  · have hsteps := steps_of_error hn hr
    have hsteps' := steps_of_error hturns hr
    omega

/-- Without a limit no step is one too many. -/
theorem excess_of_unlimited (hr : runLines none program .initial = .error e m) : e.excess = 0 := by
  obtain ⟨c, -, hs⟩ := Moment.runLines_eq_error_iff.mp hr
  cases Moment.stopped_of_stops hs with
  | turn hlimit _ => cases hlimit
  | line hf =>
    cases hf with
    | stepLimit _ _ hlimit _ => cases hlimit
    | header _ | unsupported _ _ | print _ _ _ | assign _ _ _ | lhs _ _ _ | rhs _ _ _ _ => rfl

end Ends

end LessonScript
