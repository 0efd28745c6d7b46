import LessonScript.Command.Perform

/-! # The program

Reads the command line and the files, and writes the answer. -/

namespace LessonScript

/-- The description of a failure with a code, unless it is an unusual one. -/
def describe? : Nat → Option String
  | 2 => some "No such file or directory"
  | 5 => some "Input/output error"
  | 13 => some "Permission denied"
  | 20 => some "Not a directory"
  | 21 => some "Is a directory"
  | 22 => some "Invalid argument"
  | 36 => some "File name too long"
  | 40 => some "Too many levels of symbolic links"
  | _ => none

/-- A failure of the system: its code, which may come as a negative word, and its description. -/
def systemFault (code : UInt32) (details : String) : ReadFault :=
  let code := code.toInt32.toInt.natAbs
  .system ((describe? code).getD details).toList code

def faultOf : IO.Error → ReadFault
  | .noFileOrDirectory _ code details => systemFault code details
  | .permissionDenied _ code details => systemFault code details
  | .inappropriateType _ code details => systemFault code details
  | .noSuchThing _ code details => systemFault code details
  | .invalidArgument _ code details => systemFault code details
  | .resourceExhausted _ code details => systemFault code details
  | .otherError code details => systemFault code details
  | e => systemFault 0 (toString e)

def systemFiles : Reader IO := fun path => do
  try
    return .ok (← IO.FS.readBinFile (String.ofList path))
  catch e => return .error (faultOf e)

end LessonScript

/-- Answer the command line. -/
def main (args : List String) : IO UInt32 := do
  let a ← LessonScript.Command.answer LessonScript.systemFiles (args.map String.toList)
  (← IO.getStdout).putStr (String.ofList a.stdout)
  (← IO.getStderr).putStr (String.ofList a.stderr)
  return UInt32.ofNat a.exit
