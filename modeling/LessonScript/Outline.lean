import LessonScript.Line

/-! # Outlines

The blocks of a program do not depend on a run, so a program is a tree: its *outline*. The header
of a loop or a branch holds the outline of its block; a branch also holds that of the block after
an `else:` line that follows its own block at its own indentation. Every other line stands for
itself, and one that cannot be read stays in its place: it is an error only when a run gets there.

The outline is built from the last line to the first. What follows a line is then already a list of
entries, and a header takes from it the run of entries that are blank or deeper than it. -/

namespace LessonScript

/-- A part of a program, with the number of its first line. -/
inductive Node
  /-- A blank line or a comment. -/
  | skip (line : Nat)
  /-- A header that cannot be read. -/
  | malformed (line : Nat) (fault : HeaderFault)
  | print (line : Nat) (expr : Text)
  | assign (line : Nat) (target value : Text)
  /-- A loop with its block, of the given number of lines. -/
  | loop (line : Nat) (var : Text) (range : Range) (bodyLines : Nat) (body : List Node)
  /-- A branch with its block, and the number of its `else:` line with the block of that; without
  an `else:` the second block is empty. -/
  | branch (line : Nat) (cond : Condition) (thenBody : List Node) (elseLine : Option Nat)
    (elseBody : List Node)
  /-- A line of no known shape. -/
  | unrecognized (line : Nat) (text : Text)
deriving Repr

def Node.line : Node → Nat
  | skip line => line
  | malformed line _ => line
  | print line _ => line
  | assign line _ _ => line
  | loop line _ _ _ _ => line
  | branch line _ _ _ _ => line
  | unrecognized line _ => line

/-- A node where it stands in the program. -/
structure Entry where
  indent : Nat
  isBlank : Bool
  /-- Its first line opens the other half of a branch. -/
  isElse : Bool
  /-- The number of lines it takes up. -/
  lines : Nat
  node : Node

namespace Entry

/-- The entry belongs to the block of a header at the given indentation. -/
def isInside (parent : Nat) (e : Entry) : Bool := e.isBlank || parent < e.indent

/-- The entry of a line with a number of lines below it in one node. -/
def ofLine (l : Line) (below : Nat) (node : Node) : Entry :=
  ⟨l.indent, l.isBlank, l.isElse, below + 1, node⟩

def lineCount (es : List Entry) : Nat := es.foldl (fun n e => n + e.lines) 0

/-- The block at the front of the entries after a header, and the entries after the block. -/
def cutBlock (parent : Nat) (es : List Entry) : List Entry × List Entry :=
  (es.takeWhile (isInside parent), es.dropWhile (isInside parent))

/-- The second half of a branch, as it stands after its block. -/
structure ElseHalf where
  /-- The number of the `else:` line. -/
  line : Option Nat
  body : List Entry
  /-- The number of lines that the half takes up. -/
  lines : Nat
  rest : List Entry

/-- The second half of a branch at the given indentation: an `else:` at the front of the entries
with its block, or nothing. -/
def cutElse (parent : Nat) : List Entry → ElseHalf
  | [] => ⟨none, [], 0, []⟩
  | e :: es =>
    if e.isElse && e.indent == parent then
      let (body, rest) := cutBlock parent es
      ⟨some e.node.line, body, lineCount body + 1, rest⟩
    else ⟨none, [], 0, e :: es⟩

/-- The entries of a line and of those after it, given the entries of those after it. -/
def cons (l : Line) (es : List Entry) : List Entry :=
  match l.statement with
  | .error fault => ofLine l 0 (.malformed l.number fault) :: es
  | .ok .skip => ofLine l 0 (.skip l.number) :: es
  | .ok (.print expr) => ofLine l 0 (.print l.number expr) :: es
  | .ok (.assign target value) => ofLine l 0 (.assign l.number target value) :: es
  | .ok (.loop var range) =>
    let (body, rest) := cutBlock l.indent es
    let below := lineCount body
    ofLine l below (.loop l.number var range below (body.map node)) :: rest
  | .ok (.branch cond) =>
    let (thenBody, rest) := cutBlock l.indent es
    let half := cutElse l.indent rest
    ofLine l (lineCount thenBody + half.lines)
      (.branch l.number cond (thenBody.map node) half.line (half.body.map node)) :: half.rest
  | .ok (.unrecognized text) => ofLine l 0 (.unrecognized l.number text) :: es

end Entry

/-- **The outline of a program.** -/
def outline (lines : List Line) : List Node := (lines.foldr Entry.cons []).map Entry.node

end LessonScript
