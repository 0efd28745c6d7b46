import LessonScript.Proofs.Grading

/-! # Line ends of the expected text

A check takes the line ends off the end of the expected text, whether they have carriage returns or
not, and leaves those between its lines as they are. So carriage returns make no difference to an
expected text of one line. No text of several lines passes with them: the lines that it is compared
with are trimmed, and a line before a carriage return is not.

Main statement: `check_withReturns`. -/

namespace LessonScript

/-- The text with a carriage return before every line feed. -/
def Text.withReturns (t : Text) : Text := t.flatMap fun c => if c = '\n' then ['\r', '\n'] else [c]

namespace Text

variable {t : Text}

theorem withReturns_append (s t : Text) :
    (s ++ t).withReturns = s.withReturns ++ t.withReturns := List.flatMap_append

theorem withReturns_of_oneLine (h : t.OneLine) : t.withReturns = t := by
  induction t with
  | nil => rfl
  | cons c t ih =>
    have hc : c ≠ '\n' := fun heq => h (heq ▸ List.mem_cons_self)
    have ht := ih fun hmem => h (List.mem_cons_of_mem c hmem)
    rw [withReturns, List.flatMap_cons, if_neg hc, List.singleton_append]
    exact congrArg (List.cons c) ht

end Text

namespace Command

open Text

theorem stripLineEnds_append {t ends : Text} (h : ∀ c ∈ ends, c = '\r' ∨ c = '\n') :
    stripLineEnds (t ++ ends) = stripLineEnds t := by
  have hr : ∀ c ∈ ends.reverse, (c == '\r' || c == '\n') = true := fun c hc => by
    simpa using h c (List.mem_reverse.mp hc)
  rw [stripLineEnds, List.reverse_append, List.dropWhile_append_of_pos hr]
  rfl

theorem stripLineEnds_concat {c : Char} (h : ¬ (c = '\r' ∨ c = '\n')) (t : Text) :
    stripLineEnds (t ++ [c]) = t ++ [c] := by
  rw [stripLineEnds, List.reverse_append, List.reverse_singleton, List.singleton_append,
    List.dropWhile_cons_of_neg (by simpa using h), List.reverse_cons, List.reverse_reverse]

/-- **The line ends at the end are taken off**, with or without carriage returns. -/
theorem stripLineEnds_withReturns (t : Text) :
    stripLineEnds t.withReturns = (stripLineEnds t).withReturns := by
  induction t using List.reverseRecOn with
  | nil => rfl
  | append_singleton t c ih =>
    rw [withReturns_append]
    by_cases hc : c = '\r' ∨ c = '\n'
    · have hends : ∀ d ∈ withReturns [c], d = '\r' ∨ d = '\n' := by
        rcases hc with rfl | rfl
        · exact List.forall_mem_singleton.mpr (.inl rfl)
        · exact List.forall_mem_cons.mpr ⟨.inl rfl, List.forall_mem_singleton.mpr (.inr rfl)⟩
      rw [stripLineEnds_append hends, ih, stripLineEnds_append (List.forall_mem_singleton.mpr hc)]
    · have hone : withReturns [c] = [c] :=
        withReturns_of_oneLine fun h => hc (.inr (List.mem_singleton.mp h).symm)
      rw [hone, stripLineEnds_concat hc, stripLineEnds_concat hc, withReturns_append, hone]

end Command

/-- **No output is an expected text of several lines with carriage returns**: its first line would
end with a blank. -/
theorem cleanOutput_ne_withReturns {lines : List Text} (h : ∀ t ∈ lines, t.OneLine) {t : Text}
    (ht : ¬ t.OneLine) : cleanOutput lines ≠ t.withReturns := by
  intro heq
  obtain ⟨first, rest, rfl, hfirst⟩ := List.eq_append_cons_of_mem (not_not.mp ht)
  have hreturns : Text.withReturns (first ++ '\n' :: rest) =
      (first ++ ['\r']) ++ '\n' :: Text.withReturns rest := by
    rw [Text.withReturns_append, Text.withReturns_of_oneLine hfirst, List.append_assoc]
    rfl
  have hline : first ++ ['\r'] ∈ cleanLines lines := by
    rw [(cleanOutput_eq_iff h _).mp heq, hreturns, answerLines, if_neg (by simp),
      splitOn_append_newline (Text.oneLine_append.mpr ⟨hfirst, by decide⟩)]
    exact List.mem_cons_self
  have hblank := Text.isBlank_of_trim_concat (trim_of_mem_cleanLines hline).1
  cases hblank

namespace Command

variable (file source : Text) (limit : Nat) (t : Text)

/-- With carriage returns an expected text passes a check only if it has one line. -/
theorem exit_checkSource_withReturns :
    (checkSource file source t.withReturns limit).exit = 0 ↔
      (checkSource file source t limit).exit = 0 ∧ (stripLineEnds t).OneLine := by
  rw [exit_checkSource_eq_zero_iff, exit_checkSource_eq_zero_iff, stripLineEnds_withReturns]
  constructor
  · rintro ⟨hv, output, hr, hout⟩
    have hone : (stripLineEnds t).OneLine := by
      by_contra hlines
      exact cleanOutput_ne_withReturns (oneLine_of_result_ok hr) hlines hout
    rw [Text.withReturns_of_oneLine hone] at hout
    exact ⟨⟨hv, output, hr, hout⟩, hone⟩
  · rintro ⟨⟨hv, output, hr, hout⟩, hone⟩
    exact ⟨hv, output, hr, by rwa [Text.withReturns_of_oneLine hone]⟩

theorem exit_checkSource_eq_zero_or :
    (checkSource file source t limit).exit = 0 ∨ (checkSource file source t limit).exit = 1 := by
  rcases hv : validate source with e | _
  · simp [checkSource, grade, hv, Answer.failure]
  · rw [exit_checkSource_of_validate source limit file t hv]
    unfold Answer.exitCode
    dsimp only
    split_ifs <;> simp

end Command

/-! ### The main statement -/

/-- **Carriage returns in the expected text make a difference** exactly if it has several lines and
would pass without them. Whatever the expected text, given as such or in a file, a check of it with
a carriage return before every line feed passes if and only if the check without them does and the
text has one line. -/
theorem check_withReturns {m : Type → Type} [Monad m] [LawfulMonad m] {reader : Reader m}
    {file source t : Text} {expected expected' : Expected} (hsource : reader.IsSource file source)
    (hexpected : reader.Expects t expected) (hexpected' : reader.Expects t.withReturns expected')
    (limit : Nat) :
    ∃ a a', (Command.check file expected limit).perform reader = pure a ∧
      (Command.check file expected' limit).perform reader = pure a' ∧
      (a'.exit = 0 ↔ a.exit = 0 ∧ (Command.stripLineEnds t).OneLine) ∧
      (a'.exit = a.exit ↔ (a.exit = 0 → (Command.stripLineEnds t).OneLine)) := by
  have hiff := Command.exit_checkSource_withReturns file source limit t
  refine ⟨_, _, Command.perform_check hsource hexpected limit,
    Command.perform_check hsource hexpected' limit, hiff, ?_⟩
  constructor
  · intro hsame hpass
    exact (hiff.mp (hsame.trans hpass)).2
  · intro hone
    rcases Command.exit_checkSource_eq_zero_or file source limit t with h | h
    · rw [h]
      exact hiff.mpr ⟨h, hone h⟩
    · have hne : (Command.checkSource file source t.withReturns limit).exit ≠ 0 := by
        intro h'
        rw [(hiff.mp h').1] at h
        cases h
      rw [h]
      exact (Command.exit_checkSource_eq_zero_or file source limit t.withReturns).resolve_left hne

/-- The two lines that the program prints pass, and do not with carriage returns. -/
theorem check_withReturns_counted :
    countedFiles.Expects "0\n1\n".toList (.text "0\n1\n".toList) ∧
      countedFiles.Expects (Text.withReturns "0\n1\n".toList) (.text "0\r\n1\r\n".toList) ∧
      ∃ a a', (Command.check [] (.text "0\n1\n".toList) 6).perform countedFiles = pure a ∧
        (Command.check [] (.text "0\r\n1\r\n".toList) 6).perform countedFiles = pure a' ∧
        a.exit = 0 ∧ a'.exit ≠ 0 := by
  have hexpected : countedFiles.Expects "0\n1\n".toList (.text "0\n1\n".toList) := rfl
  have hexpected' : countedFiles.Expects (Text.withReturns "0\n1\n".toList)
      (.text "0\r\n1\r\n".toList) := by
    show _ = _
    decide
  obtain ⟨a, a', ha, ha', hiff, -⟩ :=
    check_withReturns countedFiles_isSource hexpected hexpected' 6
  have hexit : a = Command.checkSource [] counted.toList "0\n1\n".toList 6 :=
    ha.symm.trans (Command.perform_check countedFiles_isSource hexpected 6)
  refine ⟨hexpected, hexpected', a, a', ha, ha', ?_, fun h => (hiff.mp h).2 (by decide)⟩
  rw [hexit]
  decide +kernel

/-- **The style of line ends is not a matter of indifference** to a check of several lines. -/
theorem lineEnds_matter : ¬ ∀ (file source t : Text) (limit : Nat), '\r' ∉ t →
    (Command.checkSource file source t.withReturns limit).exit =
      (Command.checkSource file source t limit).exit := by
  intro h
  have hsame := h [] counted.toList "0\n1".toList 6 (by decide)
  have hreturns :
      (Command.checkSource [] counted.toList (Text.withReturns "0\n1".toList) 6).exit = 1 := by
    decide +kernel
  have hplain : (Command.checkSource [] counted.toList "0\n1".toList 6).exit = 0 := by
    decide +kernel
  rw [hreturns, hplain] at hsame
  cases hsame

end LessonScript
