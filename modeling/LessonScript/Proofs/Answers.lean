import LessonScript.Command.Perform
import LessonScript.Proofs.OneLine

/-! # What the commands write

A command reads its files and then answers from their texts. The answer to a run in the pretty
format shows every printed text on a line of its own, so the output can be read off it: its pieces
between line feeds are the printed texts, because no printed text holds a line feed.

Main statement: `run_output_faithful`. -/

namespace LessonScript

/-! ### Files -/

section Files

variable {m : Type → Type} [Monad m] {reader : Reader m} {path source t : Text}

/-- The file can be read, and its bytes say the text. -/
def Reader.IsText (reader : Reader m) (path t : Text) : Prop :=
  ∃ bytes, reader path = pure (.ok bytes) ∧ decodeText bytes = .ok t

/-- The file can be read, and its bytes say the source and are not too many. -/
def Reader.IsSource (reader : Reader m) (path source : Text) : Prop :=
  ∃ bytes, reader path = pure (.ok bytes) ∧ decodeText bytes = .ok source ∧
    bytes.size ≤ maxSourceBytes

theorem decodeText_toUTF8 (s : String) : decodeText s.toUTF8 = .ok s.toList := by
  have hvalid : s.toUTF8.IsValidUTF8 := s.isValidUTF8
  have hs : String.fromUTF8? s.toUTF8 = some s := dif_pos hvalid
  rw [decodeText, hs]

variable [LawfulMonad m]

theorem loadText_of_isText (h : reader.IsText path t) (what : Text) :
    loadText reader what path = pure (.ok t) := by
  obtain ⟨bytes, hread, hdecode⟩ := h
  rw [loadText, hread, pure_bind]
  show pure ((decodeText bytes).mapError _) = _
  rw [hdecode]
  rfl

theorem loadSource_of_isSource (h : reader.IsSource path source) :
    loadSource reader path = pure (.ok source) := by
  obtain ⟨bytes, hread, hdecode, hsize⟩ := h
  rw [loadSource, hread, pure_bind]
  simp only [hdecode, if_neg (Nat.not_lt.mpr hsize)]

theorem Command.withSource_of_isSource (h : reader.IsSource path source)
    (answer : Text → m Answer) : withSource reader path answer = answer source := by
  rw [withSource, loadSource_of_isSource h, pure_bind]

end Files

/-! ### Lines -/

theorem splitOn_append_newline {t : Text} (h : t.OneLine) (u : Text) :
    (t ++ '\n' :: u).splitOn '\n' = t :: u.splitOn '\n' := by
  have hchars : ∀ c ∈ t, (c == '\n') = false := fun c hc =>
    beq_eq_false_iff_ne.mpr fun heq => h (heq ▸ hc)
  exact List.splitOnP_append_cons_of_forall_mem hchars '\n' (beq_self_eq_true '\n') u

/-- **Texts on one line can be read off the lines that they are shown on.** -/
theorem splitOn_unlines {ts : List Text} (h : ∀ t ∈ ts, t.OneLine) :
    (unlines ts).splitOn '\n' = ts ++ [[]] := by
  induction ts with
  | nil => rfl
  | cons t ts ih =>
    obtain ⟨ht, hts⟩ := List.forall_mem_cons.mp h
    have hunlines : unlines (t :: ts) = t ++ '\n' :: unlines ts := by
      simp [unlines, List.flatMap_cons]
    rw [hunlines, splitOn_append_newline ht, ih hts, List.cons_append]

/-! ### The answer to a run -/

namespace Command

variable {source : Text} {limit : Nat}

theorem validate_eq_ok (h : source.all isBlank = false) : validate source = .ok () := by
  rw [validate, if_neg (by simp [h])]

theorem runSource_of_ok {output : List Text} (hv : validate source = .ok ())
    (h : (execute Float source (some limit)).result = .ok output) :
    runSource source limit .pretty = ⟨0, unlines output, []⟩ := by
  simp only [runSource, hv, Outcome.report, h]
  rfl

theorem runSource_of_error {e : RunError} (hv : validate source = .ok ())
    (h : (execute Float source (some limit)).result = .error e) :
    runSource source limit .pretty = .failure e.message := by
  simp only [runSource, hv, Outcome.report, h]
  rfl

end Command

theorem oneLine_errorLine {message : Text} (h : message.OneLine) :
    Text.OneLine ("Error: ".toList ++ message) := Text.oneLine_append.mpr ⟨by decide, h⟩

/-- The lines of a report are on one line each. -/
theorem oneLine_of_mem_transcript {ν : Type} [NumberSystem ν] [NumberSystem.WritesOneLine ν]
    {source : Text} {limit : Option Nat} :
    ∀ t ∈ (execute ν source limit).report.transcript, t.OneLine := by
  rw [Outcome.report]
  rcases hr : (execute ν source limit).result with e | output
  · exact List.forall_mem_singleton.mpr (oneLine_errorLine (oneLine_of_result_error hr))
  · intro t ht
    have hmem : t ∈ output := by simpa [Report.ofResult, Report.transcript] using ht
    exact oneLine_of_result_ok hr t hmem

/-- **Texts stay on one line, and the output can be read off what is written.** At every moment of a
run, also in the blocks that its loops saved, only words are bound, and only to numbers and texts on
one line; the printed texts are on one line; and so is the message of an error that ends the run
there, and every line of the report. So a run of a source that can be read and is not blank either
writes its output and nothing else, a line for each printed text and with no text over several
lines; or it writes no output and one line with its error. -/
theorem run_output_faithful :
    (∀ source limit (c : Moment Float), c.OfRun limit source →
      c.machine.Clean ∧
      (∀ var i n body block, .turns var i n body block ∈ c.tasks → block.Clean) ∧
      ∀ e m, c.Stops limit e m → e.message.OneLine ∧ m.Clean) ∧
    (∀ source limit, ∀ t ∈ (execute Float source limit).report.transcript, t.OneLine) ∧
    (∀ (m : Type → Type) [Monad m] [LawfulMonad m] (reader : Reader m) file source limit,
      reader.IsSource file source → source.all isBlank = false →
      ∃ a, (Command.run file limit .pretty).perform reader = pure a ∧
        ((∃ output, (execute Float source (some limit)).result = .ok output ∧
            a.exit = 0 ∧ a.stderr = [] ∧ a.stdout.splitOn '\n' = output ++ [[]]) ∨
          ∃ e, (execute Float source (some limit)).result = .error e ∧
            a.exit = 1 ∧ a.stdout = [] ∧
              a.stderr.splitOn '\n' = ["Error: ".toList ++ e.message, []])) := by
  refine ⟨fun source limit c hc => ?_, fun source limit => oneLine_of_mem_transcript,
    fun m _ _ reader file source limit hsource hblank => ?_⟩
  · have hclean := clean_of_ofRun hc
    refine ⟨hclean.machine, fun var i n body block ht => ?_, fun e m hs => ?_⟩
    · obtain ⟨-, hblock, -⟩ := hclean.tasks _ ht
      exact hblock
    · exact oneLine_of_stops hs hclean
  · have hv := Command.validate_eq_ok hblank
    refine ⟨Command.runSource source limit .pretty, Command.withSource_of_isSource hsource _, ?_⟩
    rcases hr : (execute Float source (some limit)).result with e | output
    · right
      have hline := oneLine_errorLine (oneLine_of_result_error hr)
      rw [Command.runSource_of_error hv hr]
      exact ⟨e, rfl, rfl, rfl, splitOn_unlines (List.forall_mem_singleton.mpr hline)⟩
    · left
      rw [Command.runSource_of_ok hv hr]
      exact ⟨output, rfl, rfl, rfl, splitOn_unlines (oneLine_of_result_ok hr)⟩

/-- A loop that prints its numbers, and an empty line after it. -/
def counted : String := "for i in range(2):\n    print(i)\nprint('')"

/-- Every file is the same one. -/
def countedFiles : Reader Id := fun _ => pure (.ok counted.toUTF8)

theorem countedFiles_isSource : countedFiles.IsSource [] counted.toList :=
  ⟨counted.toUTF8, rfl, decodeText_toUTF8 counted, by decide +kernel⟩

theorem run_output_faithful_counted :
    ∃ a, (Command.run [] 6 .pretty).perform countedFiles = pure a ∧ a.exit = 0 ∧
      a.stdout.splitOn '\n' = ["0".toList, "1".toList, [], []] := by
  have hresult : (execute Float counted.toList (some 6)).result =
      .ok ["0".toList, "1".toList, []] := by decide +kernel
  obtain ⟨a, ha, ⟨output, hok, hexit, -, hstdout⟩ | ⟨e, herror, -⟩⟩ :=
    run_output_faithful.2.2 Id countedFiles [] counted.toList 6 countedFiles_isSource (by decide)
  · obtain rfl := Except.ok.inj (hresult.symm.trans hok)
    exact ⟨a, ha, hexit, hstdout⟩
  · cases hresult.symm.trans herror

end LessonScript
