import LessonScript.Proofs.Structured

/-! # Runs that differ in the log only

Line numbers and numbers of lines go to the log and nowhere else. Two parts of runs are *alike* if,
from states that are the same but for the log, they come to the same value or the same error, in
states that are again the same but for the log. Sequencing keeps this (`Alike.bind`), and all
operations have it, whatever they note.

Two lines that say the same statement are alike in what they do on their own (`alike_perform`), and in
what they leave to be run if the blocks are alike (`alike_finish`). -/

namespace LessonScript

variable {ν : Type} {α β : Type}

/-- What a part of a run comes to and the state in which it ends, the log left aside. -/
def observed : EStateM.Result RunError (Machine ν) α → Except RunError α × World ν
  | .ok a m => (.ok a, m.world)
  | .error e m => (.error e, m.world)

/-- **The parts of runs differ in the log only.** -/
def Alike (x y : Run ν α) : Prop :=
  ∀ m m' : Machine ν, m.world = m'.world → observed (x m) = observed (y m')

/-- States of the same world differ in the log only. -/
theorem Machine.exists_log_of_world {m m' : Machine ν} (h : m.world = m'.world) :
    ∃ log, m' = { m with log := log } := by
  obtain ⟨scope, output, steps, log⟩ := m
  obtain ⟨scope', output', steps', log'⟩ := m'
  simp only [world, World.mk.injEq, List.reverse_inj] at h
  obtain ⟨rfl, rfl, rfl⟩ := h
  exact ⟨log', rfl⟩

namespace Alike

section Results

variable {x y : Run ν α} {m m' m₁ : Machine ν} (h : Alike x y) (hw : m.world = m'.world)
include h hw

theorem exists_ok {a : α} (hx : x m = .ok a m₁) :
    ∃ m₂, y m' = .ok a m₂ ∧ m₁.world = m₂.world := by
  have hxy := h m m' hw
  rw [hx] at hxy
  rcases hy : y m' with ⟨b, m₂⟩ | ⟨e, m₂⟩ <;> rw [hy] at hxy
  · obtain ⟨hab, hw₁⟩ := Prod.mk.inj hxy
    obtain rfl := Except.ok.inj hab
    exact ⟨m₂, rfl, hw₁⟩
  · cases (Prod.mk.inj hxy).1

theorem exists_error {e : RunError} (hx : x m = .error e m₁) :
    ∃ m₂, y m' = .error e m₂ ∧ m₁.world = m₂.world := by
  have hxy := h m m' hw
  rw [hx] at hxy
  rcases hy : y m' with ⟨b, m₂⟩ | ⟨e', m₂⟩ <;> rw [hy] at hxy
  · cases (Prod.mk.inj hxy).1
  · obtain ⟨hee, hw₁⟩ := Prod.mk.inj hxy
    obtain rfl := Except.error.inj hee
    exact ⟨m₂, rfl, hw₁⟩

end Results

theorem pure (a : α) : Alike (Pure.pure a : Run ν α) (Pure.pure a) :=
  fun _ _ hw => congrArg (Prod.mk _) hw

theorem throw (e : RunError) : Alike (MonadExcept.throw e : Run ν α) (MonadExcept.throw e) :=
  fun _ _ hw => congrArg (Prod.mk _) hw

/-- **Sequencing keeps it.** -/
theorem bind {x y : Run ν α} {f g : α → Run ν β} (h : Alike x y) (hf : ∀ a, Alike (f a) (g a)) :
    Alike (x >>= f) (y >>= g) := by
  intro m m' hw
  rcases hx : x m with ⟨a, m₁⟩ | ⟨e, m₁⟩
  · obtain ⟨m₂, hy, hw₁⟩ := h.exists_ok hw hx
    rw [Run.bind_of_ok hx, Run.bind_of_ok hy]
    exact hf a m₁ m₂ hw₁
  · obtain ⟨m₂, hy, hw₁⟩ := h.exists_error hw hx
    rw [Run.bind_of_error hx, Run.bind_of_error hy]
    exact congrArg (Prod.mk _) hw₁

/-! ### Operations -/

theorem step (limit : Option Nat) : Alike (Run.step limit : Run ν Unit) (Run.step limit) := by
  intro m m' hw
  obtain ⟨log, rfl⟩ := Machine.exists_log_of_world hw
  by_cases h : m.AtLimit limit
  · obtain ⟨n, hl, hn⟩ := h
    rw [Run.step_of_atLimit hl hn, Run.step_of_atLimit hl (m := { m with log := log }) hn]
    rfl
  · rw [Run.step_of_not_atLimit h, Run.step_of_not_atLimit (m := { m with log := log }) h]
    rfl

/-- A change of the state that does the same to the same worlds. -/
theorem change {f g : Machine ν → Machine ν}
    (h : ∀ m m', m.world = m'.world → (f m).world = (g m').world) :
    Alike (modify f : Run ν Unit) (modify g) :=
  fun m m' hw => congrArg (Prod.mk _) (h m m' hw)

/-- What is noted does not matter. -/
theorem record (e e' : Event) : Alike (Run.record e : Run ν Unit) (Run.record e') :=
  change fun _ _ hw => hw

theorem begin (limit : Option Nat) (line line' : Nat) (kind : StatementKind) :
    Alike (Run.begin limit line kind : Run ν Unit) (Run.begin limit line' kind) :=
  (step limit).bind fun _ => record _ _

theorem assign (name : Text) (v : Value ν) : Alike (Run.assign name v) (Run.assign name v) :=
  change fun _ _ hw => congrArg (World.assign · name v) hw

variable [NumberSystem ν]

theorem print (v : Value ν) : Alike (Run.print v) (Run.print v) := by
  refine change fun m m' hw => ?_
  obtain ⟨log, rfl⟩ := Machine.exists_log_of_world hw
  rfl

theorem eval (e : Text) : Alike (Run.eval e : Run ν (Value ν)) (Run.eval e) := by
  intro m m' hw
  obtain ⟨log, rfl⟩ := Machine.exists_log_of_world hw
  rcases h : evaluate m.scope e with err | v
  · rw [Run.eval_of_error h, Run.eval_of_error (m := { m with log := log }) h]
    rfl
  · rw [Run.eval_of_ok h, Run.eval_of_ok (m := { m with log := log }) h]
    rfl

theorem condition (cond : Condition) :
    Alike (Run.condition cond : Run ν Bool) (Run.condition cond) := by
  unfold Run.condition
  exact (eval cond.lhs).bind fun _ => (eval cond.rhs).bind fun _ => (record _ _).bind fun _ => pure _

theorem turn {body body' : Run ν Unit} (h : Alike body body') (var : Text) (i : Int) :
    Alike (Run.turn var i body) (Run.turn var i body') := by
  intro m m' hw
  obtain ⟨log, rfl⟩ := Machine.exists_log_of_world hw
  have hrestore : Alike (body >>= fun _ => modify fun m' => m'.withBlock m.scope.block)
      (body' >>= fun _ => modify fun m' => m'.withBlock m.scope.block) :=
    h.bind fun _ => change fun _ _ hw => congrArg (World.withBlock · m.scope.block) hw
  exact hrestore (m.turned m.scope.block var i)
    ({ m with log := log }.turned m.scope.block var i) rfl

theorem turns {body body' : Run ν Unit} (h : Alike body body') (limit : Option Nat) (var : Text)
    (n : Nat) (i : Int) : Alike (Run.turns limit var body i n) (Run.turns limit var body' i n) := by
  induction n generalizing i with
  | zero => exact pure ()
  | succ n ih =>
    rw [Run.turns_succ, Run.turns_succ]
    exact (step limit).bind fun _ => (h.turn var i).bind fun _ => ih (i + 1)

end Alike

/-! ### Lines -/

variable [NumberSystem ν]

/-- Lines that say the same do the same on their own. -/
theorem alike_perform {l l' : Line} (h : l.statement = l'.statement) (limit : Option Nat) :
    Alike (l.perform limit : Run ν Demand) (l'.perform limit) := by
  have hbegin := Alike.begin (ν := ν) limit l.number l'.number
  unfold Line.perform
  rw [← h]
  split
  · exact .throw _
  · exact .pure _
  · exact (hbegin _).bind fun _ => (Alike.eval _).bind fun v => (Alike.print v).bind fun _ => .pure _
  · exact (hbegin _).bind fun _ => (Alike.eval _).bind fun v => (Alike.assign _ v).bind fun _ =>
      .pure _
  · exact (hbegin _).bind fun _ => .pure _
  · exact (hbegin _).bind fun _ => (Alike.condition _).bind fun _ => .pure _
  · exact (hbegin _).bind fun _ => .throw _

/-- Lines with alike blocks do the same with what they ask for. -/
theorem alike_finish {limit : Option Nat} {l l' : Line} {ls ls' : List Line}
    (hblock : Alike (runLines limit (l.block ls) : Run ν Unit) (runLines limit (l'.block ls')))
    (helse : Alike (runLines limit (l.elseBlock ls) : Run ν Unit)
      (runLines limit (l'.elseBlock ls'))) (demand : Demand) :
    Alike (l.finish limit ls demand : Run ν Unit) (l'.finish limit ls' demand) := by
  cases demand with
  | nothing => exact .pure ()
  | loop var range => exact (Alike.record _ _).bind fun _ => hblock.turns limit var _ _
  | branch holds =>
    cases holds with
    | true => exact hblock
    | false => exact helse

end LessonScript
