import LessonScript.Command.Answer
import LessonScript.Command.Arguments
import LessonScript.Command.Render
import LessonScript.Command.Source

/-! # The commands

Each command is a function of the text of the source; `Command.perform` reads the files first. -/

namespace LessonScript

namespace Command

/-- Run a source and show its output. -/
def runSource (source : Text) (limit : Nat) (format : Format) : Answer :=
  match validate source with
  | .error e => .failure e.message
  | .ok () =>
    let report := (execute Float source (some limit)).report
    let exit := Answer.exitCode report.isOk
    match format with
    | .json => ⟨exit, unlines [report.json 0], []⟩
    | .pretty =>
      match report.error with
      | some message => { Answer.failure message with stdout := unlines report.output }
      | none => ⟨exit, unlines report.output, []⟩

/-- The expected text without the line ends at its end. -/
def stripLineEnds (t : Text) : Text :=
  (t.reverse.dropWhile fun c => c == '\r' || c == '\n').reverse

/-- A line without a carriage return at its end. -/
def dropReturn (t : Text) : Text := (['\r'].isSuffixOf? t).getD t

/-- The lines of a text, each ended by a line feed with or without a carriage return; what follows
the last line end is a line if it is not empty. -/
def linesOf (t : Text) : List Text :=
  let pieces := t.splitOn '\n'
  pieces.dropLast.map dropReturn ++ (pieces.getLast?.filter (· ≠ [])).toList

/-- Run a source and compare its output with the expected text, less the line ends at its end. -/
def checkSource (file source expected : Text) (limit : Nat) : Answer :=
  let expected := stripLineEnds expected
  match grade Float source expected (some limit) with
  | .error e => .failure e.message
  | .ok g =>
    let verdict :=
      if g.passed then ["Success! Output matches the expected answer.".toList]
      else
        "Not quite. Expected output:".toList ::
          (linesOf expected).map fun line => ' ' :: ' ' :: line
    ⟨Answer.exitCode g.passed,
      unlines (("> Running code for: ".toList ++ file) :: g.report.transcript ++ [] :: verdict), []⟩

/-- List the lines of a source. -/
def listSource (source : Text) (format : Format) : Answer :=
  let listing := Listing.ofLines (Line.ofSource source)
  let shown := match format with
    | .pretty => listing.map Listing.row
    | .json => [JsonText.list (listing.map Listing.json) 0]
  ⟨Answer.exitCode (listing.all fun l => l.problem.isNone), unlines shown, []⟩

/-- How a command line is written. -/
def usage : Text :=
  unlines
    ["Usage:".toList,
      "  run FILE [--max-steps N] [--format pretty|json]".toList,
      "  check FILE (--expected TEXT | --expected-file PATH) [--max-steps N]".toList,
      "  parse FILE [--format pretty|json]".toList]

variable {m : Type → Type} [Monad m]

def withSource (reader : Reader m) (file : Text) (answer : Text → m Answer) : m Answer := do
  match ← loadSource reader file with
  | .error e => return .failure e.message
  | .ok source => answer source

/-- **The answer of a command**, given a way to read files. -/
def perform (reader : Reader m) : Command → m Answer
  | run file limit format =>
    withSource reader file fun source => pure (runSource source limit format)
  | check file expected limit =>
    withSource reader file fun source => do
      match expected with
      | .text t => return checkSource file source t limit
      | .file path =>
        match ← loadText reader "expected output ".toList path with
        | .error e => return .failure e.message
        | .ok t => return checkSource file source t limit
  | parse file format =>
    withSource reader file fun source => pure (listSource source format)
  | help => pure ⟨0, usage, []⟩

/-- **The answer to a command line.** -/
def answer (reader : Reader m) (args : List Text) : m Answer :=
  match ofArguments? args with
  | some c => c.perform reader
  | none => pure (.misuse usage)

end Command

end LessonScript
