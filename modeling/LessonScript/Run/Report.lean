import LessonScript.Run.Execute

/-! # Reports

A report shows the printed lines of a run, or its error and none of the lines. -/

namespace LessonScript

/-- What is shown of a run. -/
structure Report where
  output : List Text
  error : Option Text
  kind : Option ErrorKind
deriving DecidableEq, Repr

namespace Report

def ofResult : Except RunError (List Text) → Report
  | .ok output => ⟨output, none, none⟩
  | .error e => ⟨[], some e.message, some e.kind⟩

def isOk (r : Report) : Bool := r.error.isNone

/-- The lines of the report: the output, and the error on a line of its own. -/
def transcript (r : Report) : List Text :=
  r.output ++ (r.error.map fun message => "Error: ".toList ++ message).toList

end Report

def Outcome.report (o : Outcome) : Report := .ofResult o.result

end LessonScript
