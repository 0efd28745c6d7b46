import LessonScript.Run.Report

/-! # Grading

A submission passes if it runs without an error and its output, cleaned, is the expected text.
A source of blanks only is not run at all. -/

namespace LessonScript

/-- Why a source is not run. -/
inductive SubmissionError
  | empty
deriving DecidableEq, Repr

def SubmissionError.message : SubmissionError → Text
  | empty => "Code is empty.".toList

/-- Reject a source of blanks only. -/
def validate (source : Text) : Except SubmissionError Unit :=
  if source.all isBlank then .error .empty else .ok ()

/-- The lines without the blanks around them, and without those that are blank. -/
def cleanLines (lines : List Text) : List Text := (lines.map Text.trim).filter (· ≠ [])

def cleanOutput (lines : List Text) : Text := ['\n'].intercalate (cleanLines lines)

/-- A graded submission. -/
structure Grade where
  report : Report
  /-- The output is the expected one. -/
  passed : Bool
  /-- The log of the run and of its grading. -/
  log : List Event

/-- **Run a source and compare its output with the expected text.** -/
def grade (ν : Type) [NumberSystem ν] (source expected : Text) (limit : Option Nat) :
    Except SubmissionError Grade := do
  validate source
  let outcome := execute ν source limit
  let report := outcome.report
  let passed := report.isOk && cleanOutput report.output == expected
  return ⟨report, passed, outcome.log ++ [.graded passed report.error]⟩

end LessonScript
