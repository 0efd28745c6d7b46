import LessonScript.Text.Blank

/-! # Source files

A file is read as bytes and has to be UTF-8; a source may have a million bytes. -/

namespace LessonScript

/-- Why a file cannot be read. -/
inductive ReadFault
  /-- The system says so, with a description and a code. -/
  | system (description : Text) (code : Nat)
  /-- Its bytes are no text. -/
  | notText
deriving DecidableEq, Repr

def ReadFault.message : ReadFault → Text
  | system description code =>
    description ++ " (os error ".toList ++ Nat.toDigits 10 code ++ [')']
  | notText => "stream did not contain valid UTF-8".toList

/-- A way to read files: the bytes of a file of a name, or why there are none. -/
abbrev Reader (m : Type → Type) := Text → m (Except ReadFault ByteArray)

/-- Why there is no source to run. -/
inductive LoadError
  /-- The file cannot be read; `what` says what was to be read. -/
  | unreadable (what path : Text) (fault : ReadFault)
  | tooLarge (bytes : Nat)

/-- The number of bytes that a source may have. -/
def maxSourceBytes : Nat := 1000000

/-- The message of an error; the cause follows on lines of its own. -/
def LoadError.message : LoadError → Text
  | unreadable what path fault =>
    "failed to read ".toList ++ what ++ ['\''] ++ path ++ "'\n\nCaused by:\n    ".toList ++
      fault.message
  | tooLarge bytes =>
    "source file exceeds 1MB limit (".toList ++ Nat.toDigits 10 bytes ++ " bytes)".toList

def decodeText (bytes : ByteArray) : Except ReadFault Text :=
  match String.fromUTF8? bytes with
  | some s => .ok s.toList
  | none => .error .notText

variable {m : Type → Type} [Monad m]

/-- The text of a file; `what` says in an error what was to be read. -/
def loadText (reader : Reader m) (what path : Text) : m (Except LoadError Text) := do
  let bytes ← reader path
  return (bytes.bind decodeText).mapError (.unreadable what path)

/-- The text of a source file, which may not be too large. -/
def loadSource (reader : Reader m) (path : Text) : m (Except LoadError Text) := do
  match ← reader path with
  | .error fault => return .error (.unreadable [] path fault)
  | .ok bytes =>
    match decodeText bytes with
    | .error fault => return .error (.unreadable [] path fault)
    | .ok source =>
      return if maxSourceBytes < bytes.size then .error (.tooLarge bytes.size) else .ok source

end LessonScript
