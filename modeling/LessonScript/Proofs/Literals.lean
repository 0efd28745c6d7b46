import LessonScript.Proofs.Answers
import LessonScript.Proofs.Layered
import LessonScript.Proofs.Limit
import LessonScript.Proofs.Structured

/-! # Programs that print literals

A literal is a text of one line between two quotes that are not inside it. Nothing else about the text
matters: what is between the quotes is neither trimmed nor cut nor read (`Literal.evaluate_expr`). A program
with one line for each literal prints the texts in order, a step for each.

Main statement: `literals_verbatim`. -/

namespace LessonScript

/-- **A literal**: a text of one line, and a quote that is not in it. -/
structure Literal where
  quote : Quote
  text : Text
  mark_not_mem : quote.mark ∉ text
  oneLine : text.OneLine

namespace Literal

/-- The text between its quotes. -/
def expr (l : Literal) : Text := l.quote.mark :: (l.text ++ [l.quote.mark])

/-- The line that prints the literal. -/
def line (l : Literal) : Text := (Statement.print l.expr).render

/-- The program that prints literals, one on each line. -/
def source (ls : List Literal) : Text := ['\n'].intercalate (ls.map line)

/-- Every list of texts of one line that lack a quote is the texts of literals. -/
theorem exists_map_text {texts : List Text}
    (h : ∀ t ∈ texts, t.OneLine ∧ ∃ quote : Quote, quote.mark ∉ t) :
    ∃ ls : List Literal, ls.map text = texts := by
  induction texts with
  | nil => exact ⟨[], rfl⟩
  | cons t texts ih =>
    obtain ⟨⟨hline, quote, hquote⟩, hrest⟩ := List.forall_mem_cons.mp h
    obtain ⟨ls, rfl⟩ := ih hrest
    exact ⟨⟨quote, t, hquote, hline⟩ :: ls, rfl⟩

theorem trim_expr (l : Literal) : l.expr.trim = l.expr := by
  have hlast : l.expr.getLast? = some l.quote.mark := List.getLast?_concat (l := _ :: l.text)
  exact Text.trim_of_ends rfl (isBlank_mark l.quote) hlast (isBlank_mark l.quote)

theorem oneLine_line (l : Literal) : l.line.OneLine := by
  have hmark : l.quote.mark ≠ '\n' := by cases l.quote <;> decide
  have hexpr : l.expr.OneLine := Text.oneLine_cons.mpr ⟨hmark, Text.oneLine_append.mpr
    ⟨l.oneLine, Text.oneLine_cons.mpr ⟨hmark, List.not_mem_nil⟩⟩⟩
  rw [line, Statement.render_print]
  exact Text.oneLine_append.mpr ⟨by decide, Text.oneLine_append.mpr ⟨hexpr, by decide⟩⟩

/-- A program that prints literals is laid out as its trees. -/
theorem written (ls : List Literal) :
    Written 0 (ls.map fun l => .print l.expr) (ls.map line) := by
  induction ls with
  | nil => exact .nil
  | cons l ls ih => exact .print (indented_of_spaces 0 l.oneLine_line) ih

variable {ν : Type} [NumberSystem ν]

/-- **The value of a literal is its text**, in every scope. -/
theorem evaluate_expr (l : Literal) (s : Scope ν) : evaluate s l.expr = .ok (.text l.text) := by
  have hatom : Expression.atom? s l.expr = some (.text l.text) := by
    rw [Expression.atom?, expr, Expression.literal?_quoted l.mark_not_mem]
    rfl
  rw [evaluate, Expression.operand, l.trim_expr, hatom]

/-- Literals are printed in order, with a step for each. -/
theorem runAll_prints (ls : List Literal) : ∀ w : World ν,
    Tree.runAll none (ls.map fun l => .print l.expr) w =
      .ok { w with output := w.output ++ ls.map text, steps := w.steps + ls.length } := by
  induction ls with
  | nil =>
    intro w
    rw [List.map_nil, Tree.runAll, List.map_nil, List.append_nil]
    rfl
  | cons l ls ih =>
    intro w
    rw [List.map_cons, Tree.runAll, run_print_of_ok (l.evaluate_expr w.scope)]
    refine (ih _).trans ?_
    simp only [List.map_cons, List.length_cons, List.append_assoc, List.singleton_append]
    congr 2
    omega

/-- **The run without a limit** prints the texts, with as many steps. -/
theorem exists_unlimited (ν : Type) [NumberSystem ν] (ls : List Literal) :
    ∃ m : Machine ν, unlimited ν (source ls) = .ok () m ∧ m.output.reverse = ls.map text ∧
      m.steps = ls.length := by
  obtain ⟨m, hm, hw⟩ := exists_of_runAll (written ls) (runAll_prints ls (World.initial : World ν))
  exact ⟨m, hm, congrArg World.output hw, (congrArg World.steps hw).trans (Nat.zero_add _)⟩

variable {ls : List Literal}

theorem result_of_enough (ν : Type) [NumberSystem ν] {limit : Option Nat}
    (h : ∀ k ∈ limit, ls.length ≤ k) : (execute ν (source ls) limit).result = .ok (ls.map text) := by
  obtain ⟨m, hm, houtput, hsteps⟩ := exists_unlimited ν ls
  have hnone : (execute ν (source ls) none).result = .ok (ls.map text) := by
    rw [execute_of_unlimited hm, ← houtput]
    rfl
  cases limit with
  | none => exact hnone
  | some k =>
    refine (result_of_within ?_).trans hnone
    rw [hm]
    exact hsteps.trans_le (h k rfl)

theorem result_of_less (ν : Type) [NumberSystem ν] {k : Nat} (h : k < ls.length) :
    (execute ν (source ls) (some k)).result = .error (.stepLimit k) := by
  obtain ⟨m, hm, -, hsteps⟩ := exists_unlimited ν ls
  refine result_of_beyond ?_
  rw [hm]
  exact h.trans_eq hsteps.symm

theorem validate_source (h : ls ≠ []) : validate (source ls) = .ok () := by
  obtain ⟨l, ls, rfl⟩ := List.exists_cons_of_ne_nil h
  have hin : l.line <:+: source (l :: ls) :=
    (Text.standsIn_intercalate (by decide) List.mem_cons_self).isInfix
  have hp : 'p' ∈ source (l :: ls) := hin.subset List.mem_cons_self
  refine Command.validate_eq_ok (Bool.eq_false_iff.mpr fun hall => ?_)
  exact absurd (List.all_eq_true.mp hall 'p' hp) (by decide)

theorem exists_grade (ν : Type) [NumberSystem ν] (hne : ls ≠ []) {limit : Option Nat}
    (h : ∀ k ∈ limit, ls.length ≤ k) :
    ∃ g, grade ν (source ls) (cleanOutput (ls.map text)) limit = .ok g ∧ g.passed = true := by
  rw [grade, validate_source hne]
  refine ⟨_, rfl, ?_⟩
  show (Report.isOk (.ofResult _) && cleanOutput (Report.output (.ofResult _)) == _) = true
  rw [result_of_enough ν h]
  simp [Report.ofResult, Report.isOk]

end Literal

/-- **Literals print verbatim and in order.** Take any list of texts of one line, each of which lacks one
of the quotes at least, and the program with one line for each that prints it in such a quote. Under
every limit that leaves a step for each line, and without a limit, it prints exactly these texts; under
every other limit it fails with the error that says so. If there is a line at all, the program passes
when it is graded against the texts, under every limit that suffices. -/
theorem literals_verbatim (ν : Type) [NumberSystem ν] :
    (∀ texts : List Text, (∀ t ∈ texts, t.OneLine ∧ ∃ quote : Quote, quote.mark ∉ t) →
      ∃ ls : List Literal, ls.map Literal.text = texts) ∧
    ∀ ls : List Literal,
      (∀ limit : Option Nat, (∀ k ∈ limit, ls.length ≤ k) →
        (execute ν (Literal.source ls) limit).result = .ok (ls.map Literal.text) ∧
          (ls ≠ [] → ∃ g,
            grade ν (Literal.source ls) (cleanOutput (ls.map Literal.text)) limit = .ok g ∧
              g.passed = true)) ∧
      ∀ k < ls.length, (execute ν (Literal.source ls) (some k)).result = .error (.stepLimit k) :=
  ⟨fun _ => Literal.exists_map_text, fun _ =>
    ⟨fun _ h => ⟨Literal.result_of_enough ν h, fun hne => Literal.exists_grade ν hne h⟩,
      fun _ => Literal.result_of_less ν⟩⟩

/-- Texts with everything inside that means something outside of quotes. -/
def trickyLiterals : List Literal :=
  [⟨.single, " 1 + 2) # x == \"y\" ".toList, by decide, by decide⟩,
    ⟨.double, "print('a')".toList, by decide, by decide⟩, ⟨.single, [], by decide, by decide⟩]

theorem literals_verbatim_tricky :
    trickyLiterals.length ≤ 3 ∧ 2 < trickyLiterals.length ∧
      (execute Float (Literal.source trickyLiterals) (some 3)).result =
        .ok [" 1 + 2) # x == \"y\" ".toList, "print('a')".toList, []] ∧
      (execute Float (Literal.source trickyLiterals) (some 2)).result = .error (.stepLimit 2) := by
  obtain ⟨-, h⟩ := literals_verbatim Float
  obtain ⟨henough, hless⟩ := h trickyLiterals
  exact ⟨by decide, by decide, (henough (some 3) (by decide)).1, hless 2 (by decide)⟩

end LessonScript
