import LessonScript.Outline
import LessonScript.Run.Machine

/-! # Running programs

A program is run along its outline. A line that cannot be read ends the run where the run gets to
it, before it counts as a step; a line of no known shape ends it as a step of its own. -/

namespace LessonScript

variable {ν : Type} [NumberSystem ν]

mutual

def Node.exec (limit : Option Nat) : Node → Run ν Unit
  | .skip _ => pure ()
  | .malformed _ fault => throw (.header fault)
  | .print line expr => do
    Run.begin limit line .print
    Run.print (← Run.eval expr)
  | .assign line target value => do
    Run.begin limit line .assign
    Run.assign target (← Run.eval value)
  | .loop line var range bodyLines body => do
    Run.begin limit line .loop
    Run.record (.looped var range.size bodyLines)
    Run.turns limit var (Node.execAll limit body) range.start range.size
  | .branch line cond thenBody _ elseBody => do
    Run.begin limit line .branch
    if ← Run.condition cond then Node.execAll limit thenBody else Node.execAll limit elseBody
  | .unrecognized line text => do
    Run.begin limit line .unrecognized
    throw (.unsupported text)

def Node.execAll (limit : Option Nat) : List Node → Run ν Unit
  | [] => pure ()
  | n :: ns => do
    Node.exec limit n
    Node.execAll limit ns

end

/-- What a run comes to. -/
structure Outcome where
  /-- The printed lines, or the error that ended the run. -/
  result : Except RunError (List Text)
  log : List Event

/-- The outcome of a run that began with the given entry in the log. -/
def Outcome.ofResult (start : Event) : EStateM.Result RunError (Machine ν) Unit → Outcome
  | .ok _ m => ⟨.ok m.output.reverse, close m true⟩
  | .error e m => ⟨.error e, close m false⟩
where
  /-- The whole log of a run that ends in a state. -/
  close (m : Machine ν) (ok : Bool) : List Event :=
    start :: (.finished m.steps m.scope.globals.size ok :: m.log).reverse

/-- **The outcome of running a source** with numbers of the system `ν`, with a limit on the number
of steps or none. -/
def execute (ν : Type) [NumberSystem ν] (source : Text) (limit : Option Nat) : Outcome :=
  let lines := Line.ofSource source
  let run : Run ν Unit := Node.execAll limit (outline lines)
  .ofResult (.started lines.length limit) (run.run .initial)

end LessonScript
