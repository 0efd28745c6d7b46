import LessonScript.Proofs.Answers

/-! # Grading agrees with running

A grader compares the cleaned output, joined to one text, with the expected text. It is the same to
compare lists of lines: a printed text holds no line feed, and no cleaned line is empty, so the
lines can be read off the joined text (`answerLines_cleanOutput`). These lines are also those that a
run shows, so a check passes exactly if a run succeeds and shows the expected lines.

Main statement: `check_agrees_with_run`. -/

namespace LessonScript

/-! ### Cleaned lines and the text that joins them -/

/-- The lines that are shown: the pieces between line feeds, without the empty one at the end. -/
def shownLines (stdout : Text) : List Text := (stdout.splitOn '\n').dropLast

/-- The lines of an expected text, none if it is empty. -/
def answerLines (t : Text) : List Text := if t = [] then [] else t.splitOn '\n'

section Clean

variable {lines : List Text} {t : Text}

theorem shownLines_unlines (h : ∀ t ∈ lines, t.OneLine) : shownLines (unlines lines) = lines := by
  rw [shownLines, splitOn_unlines h, List.dropLast_concat]

theorem mem_cleanLines : t ∈ cleanLines lines ↔ (∃ s ∈ lines, s.trim = t) ∧ t ≠ [] := by
  simp [cleanLines]

theorem trim_of_mem_cleanLines (h : t ∈ cleanLines lines) : t.trim = t ∧ t ≠ [] := by
  obtain ⟨⟨s, -, rfl⟩, hne⟩ := mem_cleanLines.mp h
  exact ⟨Text.trim_trim s, hne⟩

theorem oneLine_of_mem_cleanLines (h : ∀ t ∈ lines, t.OneLine) (ht : t ∈ cleanLines lines) :
    t.OneLine := by
  obtain ⟨⟨s, hs, rfl⟩, -⟩ := mem_cleanLines.mp ht
  exact (h s hs).of_isInfix (Text.trim_isInfix s)

/-- Only an output without lines is joined to the empty text, because no cleaned line is empty. -/
theorem cleanOutput_eq_nil_iff : cleanOutput lines = [] ↔ cleanLines lines = [] := by
  rw [cleanOutput]
  rcases hc : cleanLines lines with _ | ⟨t, ts⟩
  · simp
  have hne : t ≠ [] := (trim_of_mem_cleanLines (hc ▸ List.mem_cons_self)).2
  rcases ts with _ | ⟨u, ts⟩
  · simpa using hne
  · simp [List.intercalate_cons_cons]

/-- **The cleaned lines can be read off the text that joins them.** -/
theorem answerLines_cleanOutput (h : ∀ t ∈ lines, t.OneLine) :
    answerLines (cleanOutput lines) = cleanLines lines := by
  unfold answerLines
  split_ifs with hnil
  · exact (cleanOutput_eq_nil_iff.mp hnil).symm
  · have hne : cleanLines lines ≠ [] := fun hc => hnil (cleanOutput_eq_nil_iff.mpr hc)
    exact List.splitOn_intercalate '\n' (fun t ht => oneLine_of_mem_cleanLines h ht) hne

theorem intercalate_answerLines (t : Text) : ['\n'].intercalate (answerLines t) = t := by
  unfold answerLines
  split_ifs with hnil
  · rw [hnil]
    rfl
  · exact List.intercalate_splitOn '\n'

/-- **Comparing joined lines is comparing lists of lines.** -/
theorem cleanOutput_eq_iff (h : ∀ t ∈ lines, t.OneLine) (expected : Text) :
    cleanOutput lines = expected ↔ cleanLines lines = answerLines expected := by
  constructor
  · rintro rfl
    exact (answerLines_cleanOutput h).symm
  · intro hlines
    rw [cleanOutput, hlines, intercalate_answerLines]

theorem cleanOutput_inj {lines' : List Text} (h : ∀ t ∈ lines, t.OneLine)
    (h' : ∀ t ∈ lines', t.OneLine) (hout : cleanOutput lines = cleanOutput lines') :
    cleanLines lines = cleanLines lines' := by
  rw [← answerLines_cleanOutput h, ← answerLines_cleanOutput h', hout]

end Clean

/-! ### Exit codes -/

theorem Answer.exitCode_eq_zero_iff {ok : Bool} : exitCode ok = 0 ↔ ok = true := by
  cases ok <;> simp [exitCode]

namespace Command

variable (source : Text) (limit : Nat)

theorem exit_runSource_eq_zero_iff :
    (runSource source limit .pretty).exit = 0 ↔ validate source = .ok () ∧
      ∃ output, (execute Float source (some limit)).result = .ok output := by
  rcases hv : validate source with e | _
  · simp [runSource, hv, Answer.failure]
  rcases hr : (execute Float source (some limit)).result with e | output
  · simp [runSource_of_error hv hr, Answer.failure]
  · simp [runSource_of_ok hv hr]

/-- A source that is run passes a check if its report is a success with the expected output. -/
theorem exit_checkSource_of_validate (file expected : Text) (hv : validate source = .ok ()) :
    (checkSource file source expected limit).exit =
      let report := (execute Float source (some limit)).report
      Answer.exitCode (report.isOk && cleanOutput report.output == stripLineEnds expected) := by
  simp only [checkSource, grade, hv]
  rfl

theorem exit_checkSource_eq_zero_iff (file expected : Text) :
    (checkSource file source expected limit).exit = 0 ↔ validate source = .ok () ∧
      ∃ output, (execute Float source (some limit)).result = .ok output ∧
        cleanOutput output = stripLineEnds expected := by
  rcases hv : validate source with e | _
  · simp [checkSource, grade, hv, Answer.failure]
  rw [exit_checkSource_of_validate source limit file expected hv, Answer.exitCode_eq_zero_iff,
    Outcome.report]
  rcases hr : (execute Float source (some limit)).result with e | output
  · simp [Report.ofResult, Report.isOk]
  · simp [Report.ofResult, Report.isOk]

end Command

/-! ### The main statement -/

section Files

variable {m : Type → Type} [Monad m]

/-- What is expected can be read, and is the text. -/
def Reader.Expects (reader : Reader m) (t : Text) : Expected → Prop
  | .text t' => t' = t
  | .file path => reader.IsText path t

theorem Command.perform_check [LawfulMonad m] {reader : Reader m} {file source t : Text}
    {expected : Expected} (hs : reader.IsSource file source) (ht : reader.Expects t expected)
    (limit : Nat) : (Command.check file expected limit).perform reader =
      pure (checkSource file source t limit) := by
  rw [perform, withSource_of_isSource hs]
  cases expected with
  | text t' =>
    obtain rfl : t' = t := ht
    rfl
  | file path =>
    simp only [loadText_of_isText ht, pure_bind]

/-- **A check agrees with a run.** For a source and an expected text that can be read, a check
passes exactly if a run in the pretty format with the same limit succeeds and the lines that it
shows, cleaned, are those of the expected text without the line ends at its end. A check can only be
passed if none of these lines is blank or has blanks around it. Two outputs that join to the same
text have the same cleaned lines. -/
theorem check_agrees_with_run [LawfulMonad m] {reader : Reader m} {file source t : Text}
    {expected : Expected} (hsource : reader.IsSource file source)
    (hexpected : reader.Expects t expected) (limit : Nat) :
    ∃ r a, (Command.run file limit .pretty).perform reader = pure r ∧
      (Command.check file expected limit).perform reader = pure a ∧
      (a.exit = 0 ↔ r.exit = 0 ∧
        cleanLines (shownLines r.stdout) = answerLines (Command.stripLineEnds t)) ∧
      (a.exit = 0 → ∀ line ∈ answerLines (Command.stripLineEnds t),
        line.trim = line ∧ line ≠ []) ∧
      ∀ other limit' xs ys, (execute Float source (some limit)).result = .ok xs →
        (execute Float other limit').result = .ok ys → cleanOutput xs = cleanOutput ys →
          cleanLines xs = cleanLines ys := by
  have hrun := Command.exit_runSource_eq_zero_iff source limit
  have hcheck := Command.exit_checkSource_eq_zero_iff source limit file t
  have hlines : ∀ output, (execute Float source (some limit)).result = .ok output →
      (cleanOutput output = Command.stripLineEnds t ↔
        cleanLines output = answerLines (Command.stripLineEnds t)) :=
    fun output hr => cleanOutput_eq_iff (oneLine_of_result_ok hr) _
  refine ⟨Command.runSource source limit .pretty, Command.checkSource file source t limit,
    Command.withSource_of_isSource hsource _, Command.perform_check hsource hexpected limit,
    ?_, fun hexit line hline => ?_, fun other limit' xs ys hxs hys => ?_⟩
  · rw [hrun, hcheck]
    constructor
    · rintro ⟨hv, output, hr, hout⟩
      rw [Command.runSource_of_ok hv hr, shownLines_unlines (oneLine_of_result_ok hr)]
      exact ⟨⟨hv, output, hr⟩, (hlines output hr).mp hout⟩
    · rintro ⟨⟨hv, output, hr⟩, hshown⟩
      rw [Command.runSource_of_ok hv hr, shownLines_unlines (oneLine_of_result_ok hr)] at hshown
      exact ⟨hv, output, hr, (hlines output hr).mpr hshown⟩
  · obtain ⟨-, output, hr, hout⟩ := hcheck.mp hexit
    rw [← (hlines output hr).mp hout] at hline
    exact trim_of_mem_cleanLines hline
  · exact cleanOutput_inj (oneLine_of_result_ok hxs) (oneLine_of_result_ok hys)

end Files

theorem check_agrees_with_run_counted :
    countedFiles.Expects "0\n1\n".toList (.text "0\n1\n".toList) ∧
      ∃ r a, (Command.run [] 6 .pretty).perform countedFiles = pure r ∧
        (Command.check [] (.text "0\n1\n".toList) 6).perform countedFiles = pure a ∧
        shownLines r.stdout = ["0".toList, "1".toList, []] ∧ a.exit = 0 := by
  have hexpected : countedFiles.Expects "0\n1\n".toList (.text "0\n1\n".toList) := rfl
  obtain ⟨r, a, hr, ha, hiff, -⟩ := check_agrees_with_run countedFiles_isSource hexpected 6
  have hshown : r = Command.runSource counted.toList 6 .pretty :=
    hr.symm.trans (Command.withSource_of_isSource countedFiles_isSource _)
  have hlines : r.exit = 0 ∧ shownLines r.stdout = ["0".toList, "1".toList, []] := by
    rw [hshown]
    decide +kernel
  refine ⟨hexpected, r, a, hr, ha, hlines.2, hiff.mpr ⟨hlines.1, ?_⟩⟩
  rw [hlines.2]
  decide

end LessonScript
