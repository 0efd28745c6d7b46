import LessonScript.Main
import LessonScript.Proofs.Accounting
import LessonScript.Proofs.Answers
import LessonScript.Proofs.Arithmetic
import LessonScript.Proofs.Balance
import LessonScript.Proofs.Blame
import LessonScript.Proofs.Bounds
import LessonScript.Proofs.Diagnosis
import LessonScript.Proofs.Exchange
import LessonScript.Proofs.Grading
import LessonScript.Proofs.Indentation
import LessonScript.Proofs.Layered
import LessonScript.Proofs.Limit
import LessonScript.Proofs.Ordinary
import LessonScript.Proofs.Ownership
import LessonScript.Proofs.Padding
import LessonScript.Proofs.Sequence
import LessonScript.Proofs.Structured
import LessonScript.Proofs.Unentered
import LessonScript.Proofs.RoundTrip
import LessonScript.Proofs.Patterns
import LessonScript.Proofs.Grammar
import LessonScript.Proofs.Printing
import LessonScript.Proofs.Comparison
import LessonScript.Proofs.Cuts
import LessonScript.Proofs.LineEnds
import LessonScript.Proofs.Laminar
import LessonScript.Proofs.Nesting
import LessonScript.Proofs.Literals
import LessonScript.Proofs.Integers
import LessonScript.Proofs.Counting
import LessonScript.Proofs.RadixDigits
