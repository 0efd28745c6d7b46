import LessonScript.Run.Event

/-! # The state of a run

A run changes the scope, adds to the output and to the log, and counts steps. -/

namespace LessonScript

/-- The state of a run. -/
structure Machine (ν : Type) where
  /-- The bindings that the current line sees. -/
  scope : Scope ν
  /-- The printed lines, the last one first. -/
  output : List Text
  /-- The number of steps begun. -/
  steps : Nat
  /-- The log, the last entry first. -/
  log : List Event

def Machine.initial {ν : Type} : Machine ν := ⟨.empty, [], 0, []⟩

/-- A part of a run: it changes the state, and may end the run with an error. -/
abbrev Run (ν : Type) := EStateM RunError (Machine ν)

namespace Run

variable {ν : Type} [NumberSystem ν]

/-- Count a step, an error beyond the limit. -/
def step (limit : Option Nat) : Run ν Unit := do
  let m ← get
  set { m with steps := m.steps + 1 }
  match limit with
  | some n => if n < m.steps + 1 then throw (.stepLimit n)
  | none => pure ()

def record (e : Event) : Run ν Unit := modify fun m => { m with log := e :: m.log }

def begin (limit : Option Nat) (line : Nat) (kind : StatementKind) : Run ν Unit := do
  step limit
  record (.executed line kind)

/-- The value of an expression, with all that is evaluated for it in the log. -/
def eval (e : Text) : Run ν (Value ν) := do
  let m ← get
  set { m with log := (visits m.scope e).foldl (fun log t => .evaluated t :: log) m.log }
  match evaluate m.scope e with
  | .ok v => pure v
  | .error error => throw (.evaluation error)

def print (v : Value ν) : Run ν Unit := modify fun m => { m with output := v.toText :: m.output }

def assign (name : Text) (v : Value ν) : Run ν Unit :=
  modify fun m => { m with scope := m.scope.write name v }

def condition (cond : Condition) : Run ν Bool := do
  let lhs ← eval cond.lhs
  let rhs ← eval cond.rhs
  let holds := cond.op.holds lhs rhs
  record (.decided lhs.toText cond.op rhs.toText holds)
  pure holds

/-- One turn of a loop: the body sees the loop variable, and the block is afterwards what it was
before the turn. -/
def turn (var : Text) (i : Int) (body : Run ν Unit) : Run ν Unit := do
  let block := (← get).scope.block
  modify fun m => { m with scope := m.scope.enterTurn var (.number (NumberSystem.ofInt i)) }
  body
  modify fun m => { m with scope := { m.scope with block := block } }

/-- So many turns of a loop from `i` on, each of which counts as a step. -/
def turns (limit : Option Nat) (var : Text) (body : Run ν Unit) : Int → Nat → Run ν Unit
  | _, 0 => pure ()
  | i, n + 1 => do
    step limit
    turn var i body
    turns limit var body (i + 1) n

end Run

end LessonScript
