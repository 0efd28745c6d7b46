import LessonScript.Text.Digits

/-! # Command lines

A command line names a subcommand, a file and options. An option has a value, after `=` or as the
next argument, which may not look like an option then; it is given once. `-v` and `--verbose` may
stand anywhere, and what follows `--` is no option.

Arguments are read from left to right. A value that cannot be read and a second file are refused
where they stand, and `-h` or `--help` asks for an explanation where it stands; whether something is
missing shows only at the end. -/

namespace LessonScript

inductive Format
  | pretty
  | json
deriving DecidableEq, Repr

/-- Where the expected output comes from. -/
inductive Expected
  | text (t : Text)
  | file (path : Text)
deriving DecidableEq, Repr

/-- What a command line asks for. -/
inductive Command
  | run (file : Text) (limit : Nat) (format : Format)
  | check (file : Text) (expected : Expected) (limit : Nat)
  | parse (file : Text) (format : Format)
  | help
deriving DecidableEq, Repr

inductive Subcommand
  | run
  | check
  | parse
  | help
deriving DecidableEq, Repr

def Subcommand.ofName? (name : Text) : Option Subcommand :=
  if name = "run".toList then some run
  else if name = "check".toList then some check
  else if name = "parse".toList then some parse
  else if name = "help".toList then some help
  else none

/-- The options that have a value. -/
inductive Flag
  | format
  | maxSteps
  | expected
  | expectedFile
deriving DecidableEq, Repr

/-- The option of a name without its dashes. -/
def Flag.ofName? (name : Text) : Option Flag :=
  if name = "format".toList then some format
  else if name = "max-steps".toList then some maxSteps
  else if name = "expected".toList then some expected
  else if name = "expected-file".toList then some expectedFile
  else none

def Subcommand.flags : Subcommand → List Flag
  | run => [.format, .maxSteps]
  | check => [.expected, .expectedFile, .maxSteps]
  | parse => [.format]
  | help => []

/-- Why reading a command line stops. -/
inductive Refusal
  | usage
  | help
deriving DecidableEq, Repr

/-- A value that has to be there. -/
def demand {α : Type} : Option α → Except Refusal α
  | some a => .ok a
  | none => .error .usage

/-- A value put where there may not be one yet. -/
def putOnce {α : Type} (a : α) : Option α → Except Refusal (Option α)
  | none => .ok (some a)
  | some _ => .error .usage

def Format.ofName? (t : Text) : Option Format :=
  if t = "pretty".toList then some pretty
  else if t = "json".toList then some json
  else none

/-- The step limit that a text says in decimal digits, after a plus or not, below `2 ^ 64`. -/
def readLimit? (t : Text) : Option Nat :=
  let digits := match t with
    | '+' :: rest => rest
    | _ => t
  let n := Text.digitsValue digits
  if digits ≠ [] ∧ digits.all Char.isDigit ∧ n < 18446744073709551616 then some n else none

/-- The arguments after a subcommand, as far as they are read. -/
structure Arguments where
  file : Option Text
  format : Option Format
  limit : Option Nat
  expected : Option Text
  expectedFile : Option Text
deriving DecidableEq, Repr

namespace Arguments

def empty : Arguments := ⟨none, none, none, none, none⟩

def putFlag (a : Arguments) (value : Text) : Flag → Except Refusal Arguments
  | .format => do
    return { a with format := ← putOnce (← demand (Format.ofName? value)) a.format }
  | .maxSteps => do return { a with limit := ← putOnce (← demand (readLimit? value)) a.limit }
  | .expected => do return { a with expected := ← putOnce value a.expected }
  | .expectedFile => do return { a with expectedFile := ← putOnce value a.expectedFile }

def putFile (a : Arguments) (t : Text) : Except Refusal Arguments := do
  return { a with file := ← putOnce t a.file }

/-- The argument looks like an option: it begins with a dash, and is not one alone. -/
def looksLikeOption : Text → Bool
  | '-' :: _ :: _ => true
  | _ => false

/-- Read the letters after a single dash: one that raises the verbosity is passed over, and one that
asks for an explanation counts before the letters after it. -/
def readLetters : Text → Except Refusal Unit
  | [] => .ok ()
  | 'v' :: rest => readLetters rest
  | 'h' :: _ => .error .help
  | _ => .error .usage

/-- Read an option without its two dashes, given its name and the value after `=`. The answer is the
arguments with the option if its value is there, and otherwise the option whose value is the next
argument. -/
def readNamed (allowed : List Flag) (a : Arguments) (name : Text) (value : Option Text) :
    Except Refusal (Arguments × Option Flag) :=
  if value = none ∧ name = "verbose".toList then .ok (a, none)
  else if value = none ∧ name = "help".toList then .error .help
  else do
    let f ← demand ((Flag.ofName? name).filter fun f => allowed.contains f)
    match value with
    | none => return (a, some f)
    | some value => return (← a.putFlag value f, none)

def readOption (allowed : List Flag) (a : Arguments) (t : Text) :
    Except Refusal (Arguments × Option Flag) :=
  match t with
  | '-' :: '-' :: body =>
    readNamed allowed a (body.takeWhile (· ≠ '=')) (body.dropWhile (· ≠ '=')).tail?
  | _ => do
    readLetters (t.drop 1)
    return (a, none)

/-- Read on, after the arguments already read; `pending` is the option that waits for its value. -/
def readOn (allowed : List Flag) (a : Arguments) (pending : Option Flag) :
    List Text → Except Refusal Arguments
  | [] => if pending.isSome then .error .usage else .ok a
  | t :: rest =>
    match pending with
    | some f =>
      if looksLikeOption t then .error .usage
      else do readOn allowed (← a.putFlag t f) none rest
    | none =>
      if t = "--".toList then rest.foldlM putFile a
      else if looksLikeOption t then do
        let (a, pending) ← readOption allowed a t
        readOn allowed a pending rest
      else do readOn allowed (← a.putFile t) none rest

def formatOrPretty (a : Arguments) : Format := a.format.getD .pretty

def limitOrDefault (a : Arguments) : Nat := a.limit.getD 100000

/-- The expected output asked for: as a text or in a file, not both. -/
def anyExpected (a : Arguments) : Except Refusal Expected :=
  match a.expected, a.expectedFile with
  | some t, none => .ok (.text t)
  | none, some path => .ok (.file path)
  | _, _ => .error .usage

end Arguments

namespace Command

/-- Whether an explanation can be given of what the names say: of everything, or of one
subcommand. -/
def isTopic : List Text → Bool
  | [] => true
  | [name] => (Subcommand.ofName? name).isSome
  | _ => false

def ofSubcommand (sub : Subcommand) (args : List Text) : Except Refusal Command :=
  match sub with
  | .help => .error (if isTopic args then .help else .usage)
  | .run => do
    let a ← Arguments.readOn sub.flags .empty none args
    return .run (← demand a.file) a.limitOrDefault a.formatOrPretty
  | .check => do
    let a ← Arguments.readOn sub.flags .empty none args
    return .check (← demand a.file) (← a.anyExpected) a.limitOrDefault
  | .parse => do
    let a ← Arguments.readOn sub.flags .empty none args
    return .parse (← demand a.file) a.formatOrPretty

/-- The command of a command line: a subcommand, after options that have no value. -/
def ofLine : List Text → Except Refusal Command
  | [] => .error .usage
  | t :: rest =>
    if Arguments.looksLikeOption t then do
      let _ ← Arguments.readOption [] .empty t
      ofLine rest
    else do ofSubcommand (← demand (Subcommand.ofName? t)) rest

/-- **The command that a command line asks for**, none if it makes no sense. -/
def ofArguments? (args : List Text) : Option Command :=
  match ofLine args with
  | .ok c => some c
  | .error .help => some .help
  | .error .usage => none

end Command

end LessonScript
