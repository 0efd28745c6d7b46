import LessonScript.Proofs.Diagnosis
import LessonScript.Proofs.Limit
import LessonScript.Proofs.RoundTrip
import Mathlib.Data.Int.Interval
import Mathlib.SetTheory.Cardinal.Finite

/-! # Steps and the log

The log of a run accounts for its steps: the statements in it and the turns that its loops begin with
are the steps of a run that succeeds, and of one that fails the statements and the turns begun. What a
loop begins with is said of the range on its line (`Event.FromLoop`), for every entry that is made on
the way.

Main statement: `steps_balance`. -/

namespace LessonScript

variable {ν : Type} [NumberSystem ν] {limit : Option Nat}

/-! ### The turns of a loop -/

namespace Range

variable {r : Range}

/-- A loop begins with a turn for every integer of its range. -/
theorem size_eq_card (r : Range) : r.size = Nat.card {j : Int // r.start ≤ j ∧ j < r.stop} := by
  rw [Nat.subtype_card (Finset.Ico r.start r.stop) fun _ => Finset.mem_Ico, Int.card_Ico, size]

theorem size_lt_of_fits (hs : Fits r.start) (he : Fits r.stop) : r.size < 2 ^ 64 := by
  obtain ⟨hs, -⟩ := hs
  obtain ⟨-, he⟩ := he
  unfold size
  omega

/-- The difference of the bounds as 64-bit words is the count, also where it is no signed word. -/
theorem size_eq_toNat_sub (hs : Fits r.start) (he : Fits r.stop) (h : r.start ≤ r.stop) :
    r.size = (BitVec.ofInt 64 r.stop - BitVec.ofInt 64 r.start).toNat := by
  have hlt := size_lt_of_fits hs he
  rw [BitVec.toNat_sub, BitVec.toNat_ofInt, BitVec.toNat_ofInt]
  unfold size at hlt ⊢
  omega

example : size ⟨-9223372036854775808, 9223372036854775807⟩ = 2 ^ 64 - 1 := by decide

end Range

/-- An entry that a loop begins with is about a loop of the program, and about all of its turns. -/
def Event.FromLoop (program : List Line) : Event → Prop
  | looped var turns _ =>
    ∃ l ∈ program, ∃ range, l.statement = .ok (.loop var range) ∧ turns = range.size
  | _ => True

section Loops

variable {program : List Line} {l : Line} {m m' : Machine ν} {d : Demand} {c c' : Moment ν}

theorem fromLoop_of_performed (ls : List Line) (hl : l ∈ program) (h : l.Performed m d m')
    (hm : ∀ e ∈ m.log, e.FromLoop program) :
    ∀ e ∈ (l.announced ls m' d).log, e.FromLoop program := by
  cases h with
  | skip _ => exact hm
  | loop hs =>
    simp only [Line.announced, Machine.noted_log, Machine.begun_log, List.forall_mem_cons]
    exact ⟨⟨l, hl, _, hs, rfl⟩, trivial, hm⟩
  | print _ _ | assign _ _ | branch _ _ _ =>
    simpa [Line.announced, or_imp, forall_and, Event.FromLoop] using hm

theorem fromLoop_of_change (h : c.Change limit c')
    (hc : (∀ t ∈ c.tasks, t.Placed program) ∧ ∀ e ∈ c.machine.log, e.FromLoop program) :
    (∀ t ∈ c'.tasks, t.Placed program) ∧ ∀ e ∈ c'.machine.log, e.FromLoop program := by
  obtain ⟨hplaced, hlog⟩ := hc
  refine ⟨placed_of_change h hplaced, ?_⟩
  cases h with
  | leave | finish | turn _ => exact hlog
  | @line l ls ts m m' d hp _ =>
    have hplace : InPlace program (l :: ls) := hplaced _ List.mem_cons_self
    obtain ⟨i, hi, -⟩ := hplace.head
    exact fromLoop_of_performed ls (List.mem_of_getElem? hi) hp hlog

theorem fromLoop_of_reaches (h : (Moment.start program .initial : Moment ν).Reaches limit c) :
    ∀ e ∈ c.machine.log, e.FromLoop program := by
  have hstart : (Moment.start program .initial : Moment ν).Reaches limit (.start program .initial) :=
    .refl
  exact (Moment.of_reaches (P := fun c => (∀ t ∈ c.tasks, t.Placed program) ∧
    ∀ e ∈ c.machine.log, e.FromLoop program) (fun _ _ => fromLoop_of_change) h
    ⟨placed_of_reaches hstart, List.forall_mem_nil _⟩).2

theorem fromLoop_of_stopped {err : RunError} (h : c.Stopped limit err m)
    (hc : ∀ e ∈ c.machine.log, e.FromLoop program) : ∀ e ∈ m.log, e.FromLoop program := by
  cases h with
  | line hf =>
    cases hf with
    | header _ | stepLimit _ _ _ _ => exact hc
    | unsupported _ _ | print _ _ _ | assign _ _ _ | lhs _ _ _ | rhs _ _ _ _ =>
      simpa [or_imp, forall_and, Event.FromLoop] using hc
  | turn _ _ => exact hc

/-- **What a loop begins with** is as many turns as there are integers in the range on its line. -/
theorem turns_of_fromLoop {source var : Text} {turns below : Nat}
    (h : (Event.looped var turns below).FromLoop (Line.ofSource source)) :
    ∃ l ∈ Line.ofSource source, ∃ range, l.statement = .ok (.loop var range) ∧
      turns = Nat.card {j : Int // range.start ≤ j ∧ j < range.stop} ∧ turns < 2 ^ 64 := by
  obtain ⟨l, hl, range, hs, rfl⟩ := h
  obtain ⟨-, hstart, hstop⟩ := (Statement.wellFormed_of_ofLine hs).1
  exact ⟨l, hl, range, hs, range.size_eq_card, Range.size_lt_of_fits hstart hstop⟩

end Loops

/-! ### The main statement -/

section Runs

variable {source : Text} {m : Machine ν}

theorem steps_of_runLines
    (h : runLines limit (Line.ofSource source) .initial = .ok () m) :
    m.steps = total Event.statements m.log + total Event.turns m.log ∧
      m.output.length = total Event.prints m.log := by
  obtain ⟨n, hn⟩ := exists_endsAfter (ν := ν) limit (Line.ofSource source)
  obtain ⟨hsteps, hturns, hprints⟩ := balanced_of_ok hn h
  exact ⟨hsteps.trans (congrArg _ hturns.symm), hprints⟩

theorem fromLoop_of_runLines {r : EStateM.Result RunError (Machine ν) Unit}
    (h : runLines limit (Line.ofSource source) .initial = r) :
    ∀ e ∈ (endState r).log, e.FromLoop (Line.ofSource source) := by
  rcases r with ⟨u, m⟩ | ⟨err, m⟩
  · exact fromLoop_of_reaches (Moment.runLines_eq_ok_iff.mp h)
  · obtain ⟨c, hc, hs⟩ := Moment.runLines_eq_error_iff.mp h
    exact fromLoop_of_stopped (Moment.stopped_of_stops hs) (fromLoop_of_reaches hc)

end Runs

/-- **The steps of a run balance its log.** Let `E` be the entries between the first and the last one
of the log. If the run succeeds then its steps are the statements in `E` and the turns that the loops
in `E` begin with, and it prints as many lines as there are print statements. If an error ends it then
its steps are the statements in `E` and the loop turns that began, and one more if the error is the
step limit. The turns that a loop begins with are the integers in its range, for any bounds that fit
a signed 64-bit word, and their number is the difference of the bounds as unsigned words. -/
theorem steps_balance (ν : Type) [NumberSystem ν] (source : Text) (limit : Option Nat) :
    ∃ E steps globals ok,
      (execute ν source limit).log = .started (Line.ofSource source).length limit ::
        (E ++ [.finished steps globals ok]) ∧
      (∀ output, (execute ν source limit).result = .ok output →
        steps = total Event.statements E + total Event.turns E ∧
          output.length = total Event.prints E) ∧
      (∀ e, (execute ν source limit).result = .error e →
        ∃ n c m, (Moment.start (Line.ofSource source) .initial : Moment ν).Begins limit n c ∧
          c.Stops limit e m) ∧
      (∀ n c e m, (Moment.start (Line.ofSource source) .initial : Moment ν).Begins limit n c →
        c.Stops limit e m → (execute ν source limit).result = .error e ∧
          steps = total Event.statements E + n + e.excess) ∧
      (∀ var turns below, .looped var turns below ∈ E →
        ∃ l ∈ Line.ofSource source, ∃ range, l.statement = .ok (.loop var range) ∧
          turns = Nat.card {j : Int // range.start ≤ j ∧ j < range.stop} ∧ turns < 2 ^ 64) ∧
      ∀ range : Range, Range.Fits range.start → Range.Fits range.stop →
        range.size = Nat.card {j : Int // range.start ≤ j ∧ j < range.stop} ∧ range.size < 2 ^ 64 ∧
          (range.start ≤ range.stop →
            range.size = (BitVec.ofInt 64 range.stop - BitVec.ofInt 64 range.start).toNat) := by
  obtain ⟨ok, hlog⟩ := log_ofResult ((runLines limit (Line.ofSource source) : Run ν Unit) .initial)
  refine ⟨_, _, _, ok, hlog _, fun output h => ?_, fun e h => ?_, fun n c e m hc hs => ?_,
    fun var turns below h => ?_, fun range hs he => ?_⟩
  · rw [execute_eq] at h
    rcases hr : (runLines limit (Line.ofSource source) : Run ν Unit) .initial with ⟨u, m⟩ | ⟨e, m⟩ <;>
      rw [hr] at h
    · cases h
      obtain ⟨hsteps, hprints⟩ := steps_of_runLines hr
      simp only [endState, total_reverse]
      exact ⟨hsteps, List.length_reverse.trans hprints⟩
    · cases h
  · obtain ⟨c, m, hc, hs⟩ := Moment.exists_of_result_error h
    obtain ⟨n, hn⟩ := Moment.exists_begins_of_reaches hc
    exact ⟨n, c, m, hn, hs⟩
  · have hr := Moment.runLines_eq_error_iff.mpr ⟨c, hc.reaches, hs⟩
    have hsteps := steps_of_error ⟨c, hc, Moment.final_of_stops hs⟩ hr
    rw [execute_eq, hr]
    simp only [endState, total_reverse]
    exact ⟨rfl, hsteps⟩
  · exact turns_of_fromLoop (fromLoop_of_runLines rfl _ (List.mem_reverse.mp h))
  · exact ⟨range.size_eq_card, Range.size_lt_of_fits hs he, Range.size_eq_toNat_sub hs he⟩

end LessonScript
