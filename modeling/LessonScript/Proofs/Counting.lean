import LessonScript.Proofs.Integers
import LessonScript.Proofs.Layered
import LessonScript.Proofs.Limit
import LessonScript.Proofs.OneLine
import LessonScript.Proofs.Structured

/-! # Loops that print their integers

The body of the loop is one line, which prints the loop variable. The name is looked up before it could
be read as a numeral (`evaluate_of_isWord`), so a turn prints its integer, whatever word the variable is
(`turn_print`), and leaves the scope as it was. In binary64 the integers that are printed are exact
(`write_ofInt`).

Main statement: `counting_loop`. -/

namespace LessonScript

/-- The program of a loop with one line in its body. -/
def countingSource (var : Text) (range : Range) (line : Text) : Text :=
  ['\n'].intercalate [(Statement.loop var range).render, line]

variable {ν : Type} [NumberSystem ν] {var line : Text} {range : Range} {width : Nat}

/-- A word that is bound has the value that it is bound to, even if the word is a numeral. -/
theorem evaluate_of_isWord {s : Scope ν} {v : Value ν} (hvar : var.IsWord) (h : s.read? var = some v) :
    evaluate s var = .ok v := by
  have htrim : var.trim = var := (Atom.word var hvar).trim
  have hliteral : Expression.literal? var = none := by
    obtain ⟨c, u, rfl, hc⟩ := Atom.exists_cons_of_bare (.inl hvar)
    exact Expression.literal?_of_isNumeralChar hc u
  have hatom : Expression.atom? s var = some v := by
    rw [Expression.atom?, hliteral, h]
    rfl
  rw [evaluate, Expression.operand, htrim, hatom]

/-- **A turn** prints its integer, in two steps, and leaves the scope as it was. -/
theorem turn_print (hvar : var.IsWord) (w : World ν) (i : Int) :
    World.turn none var (Tree.runAll none [.print var]) w i =
      .ok { w with
        output := w.output ++ [NumberSystem.write (NumberSystem.ofInt i : ν)]
        steps := w.steps + 2 } := by
  have hread : (w.scope.enterTurn var (.number (NumberSystem.ofInt i : ν))).read? var =
      some (.number (NumberSystem.ofInt i)) := by
    rw [Scope.enterTurn, Scope.read?, Bindings.get?_insert, if_pos rfl]
    rfl
  have hvalue : evaluate (({ w with steps := w.steps + 1 } : World ν).enter var i).scope var =
      .ok (.number (NumberSystem.ofInt i)) := evaluate_of_isWord hvar hread
  show (Tree.runAll none _ _ >>= _) = _
  rw [runAll_singleton, run_print_of_ok hvalue]
  rfl

/-- The turns of the loop print their integers in order. -/
theorem foldlM_turn_print (hvar : var.IsWord) (is : List Int) : ∀ w : World ν,
    is.foldlM (World.turn none var (Tree.runAll none [.print var])) w =
      .ok { w with
        output := w.output ++ is.map fun i => NumberSystem.write (NumberSystem.ofInt i : ν)
        steps := w.steps + 2 * is.length } := by
  induction is with
  | nil =>
    intro w
    rw [List.map_nil, List.append_nil]
    rfl
  | cons i is ih =>
    intro w
    rw [List.foldlM_cons, turn_print hvar]
    refine (ih _).trans ?_
    simp only [List.map_cons, List.length_cons, List.append_assoc, List.singleton_append]
    congr 2
    omega

/-- The whole loop: its own step, and two for every integer. -/
theorem runAll_counting (hvar : var.IsWord) :
    Tree.runAll none [.loop var range [.print var]] (World.initial : World ν) =
      .ok ⟨.empty, range.integers.map fun i => NumberSystem.write (NumberSystem.ofInt i : ν),
        2 * range.size + 1⟩ := by
  have hlength : range.integers.length = range.size := by
    rw [Range.integers, List.length_map, List.length_range]
  rw [Tree.runAll, Tree.run]
  show (range.integers.foldlM _ (⟨.empty, [], 1⟩ : World ν) >>= _) = _
  rw [foldlM_turn_print hvar, hlength, Nat.add_comm]
  rfl

theorem oneLine_integerText (n : Int) : Text.OneLine (integerText n) := by
  intro h
  rcases Range.mem_integerText h with h | h <;> cases h

theorem oneLine_render_loop (hvar : var.IsWord) : Text.OneLine (Statement.loop var range).render := by
  have hword : var.OneLine := Text.oneLine_of_forall (by decide) hvar.chars
  simp only [Statement.render_loop, Text.oneLine_append]
  exact ⟨by decide, hword, by decide, oneLine_integerText _, by decide, oneLine_integerText _,
    by decide⟩

theorem written_counting (hvar : var.IsWord) (hs : Range.Fits range.start) (he : Range.Fits range.stop)
    (hwidth : 0 < width) (hline : Indented width (Statement.print var).render line) :
    Written 0 [.loop var range [.print var]] [(Statement.loop var range).render, line] := by
  have hheader : Indented 0 (Statement.loop var range).render (Statement.loop var range).render :=
    indented_of_spaces 0 (oneLine_render_loop hvar)
  exact .loop ⟨hvar, hs, he⟩ hheader hwidth (.print hline .nil) .nil

/-- **The run of the loop**, in any number system. -/
theorem exists_unlimited_counting (ν : Type) [NumberSystem ν] (range : Range) (hvar : var.IsWord)
    (hs : Range.Fits range.start) (he : Range.Fits range.stop) (hwidth : 0 < width)
    (hline : Indented width (Statement.print var).render line) :
    ∃ m : Machine ν, unlimited ν (countingSource var range line) = .ok () m ∧
      m.world = ⟨.empty, range.integers.map fun i => NumberSystem.write (NumberSystem.ofInt i : ν),
        2 * range.size + 1⟩ :=
  exists_of_runAll (written_counting hvar hs he hwidth hline) (runAll_counting hvar)

/-- **Loops print their integers.** In binary64, with bounds up to `2 ^ 53` in absolute value, any word
as the variable and the printing line indented by any blanks, the loop prints exactly the decimal texts of
its integers, in order. It makes a step for the loop and two for each integer. -/
theorem counting_loop (var line : Text) (a b : Int) (width : Nat) (hvar : var.IsWord)
    (ha : -2 ^ 53 ≤ a ∧ a ≤ 2 ^ 53) (hb : -2 ^ 53 ≤ b ∧ b ≤ 2 ^ 53) (hwidth : 0 < width)
    (hline : Indented width (Statement.print var).render line) :
    (execute Float (countingSource var ⟨a, b⟩ line) none).result =
        .ok ((List.range (b - a).toNat).map fun k : Nat => integerText (a + k)) ∧
      ∃ steps, (execute Float (countingSource var ⟨a, b⟩ line) none).log.getLast? =
          some (.finished steps 0 true) ∧
        (steps : Int) = if a < b then 2 * (b - a) + 1 else 1 := by
  have hfits : ∀ n : Int, -2 ^ 53 ≤ n ∧ n ≤ 2 ^ 53 → Range.Fits n := fun n hn => by
    unfold Range.Fits
    omega
  obtain ⟨m, hm, hworld⟩ :=
    exists_unlimited_counting Float ⟨a, b⟩ hvar (hfits a ha) (hfits b hb) hwidth hline
  have hintegers : ((Range.mk a b).integers.map fun i => NumberLayout.plain.write (Binary64.ofInt i)) =
      (List.range (b - a).toNat).map fun k : Nat => integerText (a + k) := by
    rw [Range.integers, List.map_map]
    refine List.map_congr_left fun k hk => ?_
    have hlt : k < (b - a).toNat := List.mem_range.mp hk
    exact write_ofInt (by show (a + (k : Int)).natAbs ≤ 2 ^ 53; omega)
  have hlog : (execute Float (countingSource var ⟨a, b⟩ line) none).log =
      .started (Line.ofSource (countingSource var ⟨a, b⟩ line)).length none ::
        (m.log.reverse ++ [.finished m.steps m.scope.globals.size true]) := by
    rw [execute_of_unlimited hm]
    exact congrArg _ List.reverse_cons
  have hscope : m.scope = .empty := congrArg World.scope hworld
  have hsteps : m.steps = 2 * (b - a).toNat + 1 := congrArg World.steps hworld
  refine ⟨?_, m.steps, ?_, ?_⟩
  · rw [execute_of_unlimited hm]
    exact congrArg Except.ok ((congrArg World.output hworld).trans hintegers)
  · rw [hlog, hscope, ← List.cons_append, List.getLast?_concat]
    rfl
  · rw [hsteps]
    split_ifs <;> omega

/-- The variable is a numeral, the body is indented by a tab, and the integers are the least ones. -/
theorem counting_loop_least :
    Text.IsWord "2".toList ∧ (-2 ^ 53 : Int) ≤ -9007199254740992 ∧
      Indented 1 (Statement.print "2".toList).render "\tprint(2)".toList ∧
      countingSource "2".toList ⟨-9007199254740992, -9007199254740990⟩ "\tprint(2)".toList =
        "for 2 in range(-9007199254740992, -9007199254740990):\n\tprint(2)".toList ∧
      (execute Float (countingSource "2".toList ⟨-9007199254740992, -9007199254740990⟩
        "\tprint(2)".toList) none).result =
          .ok ["-9007199254740992".toList, "-9007199254740991".toList] := by
  have hword : Text.IsWord "2".toList := .of_all (by decide) (by decide)
  have hline : Indented 1 (Statement.print "2".toList).render "\tprint(2)".toList :=
    ⟨by decide, ['\t'], rfl, List.all_eq_true.mp rfl, rfl⟩
  obtain ⟨hresult, -⟩ := counting_loop "2".toList "\tprint(2)".toList (-9007199254740992)
    (-9007199254740990) 1 hword (by decide) (by decide) (by decide) hline
  exact ⟨hword, by decide, hline, by decide, hresult.trans (congrArg Except.ok (by decide))⟩

end LessonScript
