import LessonScript.Proofs.Block
import LessonScript.Run.Execute

/-! # Running lines with a cursor

A run of a program along its outline is a run of its lines with a cursor: the line at the cursor
does its own part (`Line.perform`), then the blocks that it asks for are run (`Line.finish`), and
the cursor moves to the line after them (`Line.after`). This is `runLines_cons`.

A block that is run is a list of lines again, run by `runLines` in its own right; a loop runs its
block once for every turn. -/

namespace LessonScript

/-- What a line leaves to be run when its own part is done. -/
inductive Demand
  | nothing
  /-- The block of a loop, for each integer of a range. -/
  | loop (var : Text) (range : Range)
  /-- One of the two blocks of a branch. -/
  | branch (holds : Bool)
deriving DecidableEq, Repr

variable {ν : Type} [NumberSystem ν]

def runLines (limit : Option Nat) (ls : List Line) : Run ν Unit := Node.execAll limit (outline ls)

namespace Line

/-- The part of a line in a run that is its own: reading it, counting it as a step and noting it in
the log, and evaluating what is written on it. -/
def perform (limit : Option Nat) (l : Line) : Run ν Demand :=
  match l.statement with
  | .error fault => throw (.header fault)
  | .ok .skip => pure .nothing
  | .ok (.print expr) => do
    Run.begin limit l.number .print
    Run.print (← Run.eval expr)
    pure .nothing
  | .ok (.assign target value) => do
    Run.begin limit l.number .assign
    Run.assign target (← Run.eval value)
    pure .nothing
  | .ok (.loop var range) => do
    Run.begin limit l.number .loop
    pure (.loop var range)
  | .ok (.branch cond) => do
    Run.begin limit l.number .branch
    return .branch (← Run.condition cond)
  | .ok (.unrecognized text) => do
    Run.begin limit l.number .unrecognized
    throw (.unsupported text)

/-- Run the blocks that a line asks for, found in the lines after it. -/
def finish (limit : Option Nat) (l : Line) (ls : List Line) : Demand → Run ν Unit
  | .nothing => pure ()
  | .loop var range => do
    Run.record (.looped var range.size (l.block ls).length)
    Run.turns limit var (runLines limit (l.block ls)) range.start range.size
  | .branch true => runLines limit (l.block ls)
  | .branch false => runLines limit (l.elseBlock ls)

end Line

theorem exec_node (limit : Option Nat) (l : Line) (ls : List Line) :
    (Node.exec limit (l.node ls) : Run ν Unit) = l.perform limit >>= l.finish limit ls := by
  unfold Line.node Line.perform
  match l.statement with
  | .error _ | .ok .skip | .ok (.print _) | .ok (.assign _ _) | .ok (.loop _ _)
  | .ok (.unrecognized _) =>
    simp only [Node.exec, bind_assoc, pure_bind]
    rfl
  | .ok (.branch cond) =>
    simp only [Node.exec, bind_assoc, pure_bind]
    congr 1
    funext _
    congr 1
    funext holds
    cases holds <;> rfl

/-- **The cursor.** Running lines is doing the part of the first one, running the blocks that it
asks for, and going on with the lines after them. -/
theorem runLines_cons (limit : Option Nat) (l : Line) (ls : List Line) :
    (runLines limit (l :: ls) : Run ν Unit) = (do
      let demand ← l.perform limit
      l.finish limit ls demand
      runLines limit (l.after ls)) := by
  rw [← bind_assoc, ← exec_node, runLines, outline_cons]
  rfl

/-- A source is run as the block of all its lines. -/
theorem execute_eq (source : Text) (limit : Option Nat) :
    execute ν source limit = .ofResult (.started (Line.ofSource source).length limit)
      ((runLines limit (Line.ofSource source) : Run ν Unit) .initial) := rfl

end LessonScript
