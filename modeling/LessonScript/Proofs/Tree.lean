import LessonScript.Proofs.Canonical
import LessonScript.Run.Execute

/-! # Programs as trees

A program without its layout is a list of *trees*. `Tree.run` says what a tree does, by recursion on
the tree: the state before is given, and the state after or the error is returned. `Written` says how
trees are laid out in lines: every statement in canonical form, the statements of one body at one
indentation, deeper than the header of the body, and an `else:` right after the body at the
indentation of its header. -/

namespace LessonScript

/-- A statement with the statements in its bodies. -/
inductive Tree
  /-- A blank line or a comment. -/
  | skip
  | print (expr : Text)
  | assign (target value : Text)
  | loop (var : Text) (range : Range) (body : List Tree)
  /-- A branch without an `else:`. -/
  | when (cond : Condition) (body : List Tree)
  | choose (cond : Condition) (thenBody elseBody : List Tree)

/-! ### What trees do -/

/-- What a statement can see and change: the bindings, the printed lines in order, and the number of
steps. -/
structure World (ν : Type) where
  scope : Scope ν
  output : List Text
  steps : Nat

/-- The integers of a range, in order. -/
def Range.integers (r : Range) : List Int := (List.range r.size).map fun k : Nat => r.start + k

variable {ν : Type}

namespace World

def initial : World ν := ⟨.empty, [], 0⟩

/-- One more step, which may be one too many. -/
def tick (limit : Option Nat) (w : World ν) : Except RunError (World ν) :=
  match limit with
  | some n =>
    if w.steps < n then .ok { w with steps := w.steps + 1 } else .error (.stepLimit n)
  | none => .ok { w with steps := w.steps + 1 }

def withBlock (w : World ν) (block : Bindings (Value ν)) : World ν :=
  { w with scope := { w.scope with block := block } }

def assign (w : World ν) (name : Text) (v : Value ν) : World ν :=
  { w with scope := w.scope.write name v }

variable [NumberSystem ν]

def eval (w : World ν) (e : Text) : Except RunError (Value ν) :=
  (evaluate w.scope e).mapError .evaluation

def holds (w : World ν) (cond : Condition) : Except RunError Bool := do
  let a ← w.eval cond.lhs
  let b ← w.eval cond.rhs
  return cond.op.holds a b

def print (w : World ν) (v : Value ν) : World ν := { w with output := w.output ++ [v.toText] }

/-- The world at the beginning of a loop turn, with the variable bound to an integer. -/
def enter (w : World ν) (var : Text) (i : Int) : World ν :=
  { w with scope := w.scope.enterTurn var (.number (NumberSystem.ofInt i)) }

/-- A turn of a loop: the body runs with the variable bound to an integer, and the block of names is
afterwards what it was before. -/
def turn (limit : Option Nat) (var : Text) (body : World ν → Except RunError (World ν))
    (w : World ν) (i : Int) : Except RunError (World ν) := do
  let w ← w.tick limit
  let after ← body (w.enter var i)
  return after.withBlock w.scope.block

end World

variable [NumberSystem ν]

mutual

/-- **What a tree does.** -/
def Tree.run (limit : Option Nat) : Tree → World ν → Except RunError (World ν)
  | .skip, w => .ok w
  | .print expr, w => do
    let w ← w.tick limit
    return w.print (← w.eval expr)
  | .assign target value, w => do
    let w ← w.tick limit
    return w.assign target (← w.eval value)
  | .loop var range body, w => do
    let w ← w.tick limit
    range.integers.foldlM (World.turn limit var (Tree.runAll limit body)) w
  | .when cond body, w => do
    let w ← w.tick limit
    if ← w.holds cond then Tree.runAll limit body w else return w
  | .choose cond thenBody elseBody, w => do
    let w ← w.tick limit
    if ← w.holds cond then Tree.runAll limit thenBody w else Tree.runAll limit elseBody w

/-- What trees do one after the other. -/
def Tree.runAll (limit : Option Nat) : List Tree → World ν → Except RunError (World ν)
  | [], w => .ok w
  | t :: ts, w => do Tree.runAll limit ts (← Tree.run limit t w)

end

/-- **What a program of trees comes to**: the printed lines, or the error that ends it. -/
def Tree.result (ν : Type) [NumberSystem ν] (limit : Option Nat) (ts : List Tree) :
    Except RunError (List Text) :=
  (Tree.runAll limit ts (World.initial : World ν)).map World.output

/-! ### How trees are laid out -/

/-- The line is the text after so many blanks. -/
def Indented (indent : Nat) (content line : Text) : Prop :=
  '\n' ∉ line ∧ ∃ margin : Text, margin.length = indent ∧ (∀ c ∈ margin, isBlank c = true) ∧
    line = margin ++ content

theorem indented_of_spaces (n : Nat) {content : Text} (h : '\n' ∉ content) :
    Indented n content (List.replicate n ' ' ++ content) := by
  refine ⟨?_, List.replicate n ' ', List.length_replicate, fun c hc => ?_, rfl⟩
  · rw [List.mem_append, not_or]
    exact ⟨fun hm => absurd (List.eq_of_mem_replicate hm) (by decide), h⟩
  · rw [List.eq_of_mem_replicate hc]
    exact Text.isBlank_space

/-- **The lines are the trees, laid out at an indentation.** -/
inductive Written : Nat → List Tree → List Text → Prop
  | nil {n : Nat} : Written n [] []
  /-- A blank line can have any blanks. -/
  | blank {n : Nat} {ts : List Tree} {line : Text} {lines : List Text} :
      '\n' ∉ line → (∀ c ∈ line, isBlank c = true) → Written n ts lines →
      Written n (.skip :: ts) (line :: lines)
  | comment {n : Nat} {ts : List Tree} {text line : Text} {lines : List Text} :
      Indented n ('#' :: text) line → Written n ts lines → Written n (.skip :: ts) (line :: lines)
  | print {n : Nat} {ts : List Tree} {expr line : Text} {lines : List Text} :
      Indented n (Statement.print expr).render line → Written n ts lines →
      Written n (.print expr :: ts) (line :: lines)
  | assign {n : Nat} {ts : List Tree} {target value line : Text} {lines : List Text} :
      (Statement.assign target value).Plain →
      Indented n (Statement.assign target value).render line → Written n ts lines →
      Written n (.assign target value :: ts) (line :: lines)
  | loop {n d : Nat} {body ts : List Tree} {var line : Text} {range : Range}
      {block lines : List Text} :
      (Statement.loop var range).Plain → Indented n (Statement.loop var range).render line →
      n < d → Written d body block → Written n ts lines →
      Written n (.loop var range body :: ts) (line :: (block ++ lines))
  | when {n d : Nat} {body ts : List Tree} {line : Text} {cond : Condition}
      {block lines : List Text} :
      (Statement.branch cond).Plain → Indented n (Statement.branch cond).render line →
      n < d → Written d body block → Written n ts lines →
      Written n (.when cond body :: ts) (line :: (block ++ lines))
  /-- The two bodies of a branch can be at different indentations. -/
  | choose {n d d' : Nat} {thenBody elseBody ts : List Tree} {line mid : Text} {cond : Condition}
      {block block' lines : List Text} :
      (Statement.branch cond).Plain → Indented n (Statement.branch cond).render line →
      n < d → Written d thenBody block → Indented n Line.elseMark mid →
      n < d' → Written d' elseBody block' → Written n ts lines →
      Written n (.choose cond thenBody elseBody :: ts) (line :: (block ++ mid :: (block' ++ lines)))

end LessonScript
