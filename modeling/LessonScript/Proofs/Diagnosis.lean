import LessonScript.Listing
import LessonScript.Proofs.Moment
import Mathlib.Tactic.Conv

/-! # Listings and runs agree about syntax

A listing looks for the branch of an `else:` backwards through the whole program; a run pairs the
two forwards, in the block that it is in. The two agree because of where a run can be: with the
cursor at a line of a block, no later line of the block that could be next at its own indentation
finds a branch before the cursor (`Closed`). Entering a block, leaving one and passing a branch with
its `else:` all keep this, so it holds of every task at every moment (`placed_of_reaches`).

Main statement: `listing_agrees_with_runs`. -/

namespace LessonScript

variable {ν : Type} [NumberSystem ν]

/-! ### Listings by index -/

namespace Listing

theorem foldl_ofLines (lines before : List Line) (listed : List Listing) :
    (lines.foldl (fun (before, listed) l => (l :: before, ⟨l, l.problem? before⟩ :: listed))
      (before, listed)).2.reverse = listed.reverse ++
        lines.mapIdx fun i l => ⟨l, l.problem? ((lines.take i).reverse ++ before)⟩ := by
  induction lines generalizing before listed with
  | nil => simp
  | cons l lines ih =>
    rw [List.foldl_cons, ih, List.mapIdx_cons, List.reverse_cons, List.append_assoc]
    simp

theorem getElem?_ofLines (lines : List Line) (i : Nat) :
    (ofLines lines)[i]? = lines[i]?.map fun l => ⟨l, l.problem? (lines.take i).reverse⟩ := by
  have h := foldl_ofLines lines [] []
  rw [List.reverse_nil, List.nil_append] at h
  rw [ofLines, h, List.getElem?_mapIdx]
  simp

end Listing

namespace Line

/-! ### The line that an `else:` looks back to -/

theorem closesBranch_cons_of_inside {e x : Line} (before : List Line)
    (h : x.isInside e.indent = true) : e.closesBranch (x :: before) = e.closesBranch before := by
  have hx : (!x.isBlank && decide (x.indent ≤ e.indent)) = false := by
    simp only [isInside, Bool.or_eq_true, decide_eq_true_eq] at h
    rcases h with h | h
    · simp [h]
    · simp [Nat.not_le.mpr h]
  rw [closesBranch, closesBranch, List.find?_cons, hx]

theorem closesBranch_cons_of_not_inside {e x : Line} (before : List Line)
    (h : ¬ x.isInside e.indent = true) :
    e.closesBranch (x :: before) = (e.isElse && (x.indent == e.indent && x.isBranch)) := by
  have hx : (!x.isBlank && decide (x.indent ≤ e.indent)) = true := by
    simp only [isInside, Bool.or_eq_true, decide_eq_true_eq, not_or] at h
    simp [h.1, Nat.not_lt.mp h.2]
  rw [closesBranch, List.find?_cons, hx]
  rfl

theorem closesBranch_append_of_inside {e : Line} {xs : List Line} (before : List Line)
    (h : ∀ x ∈ xs, x.isInside e.indent = true) :
    e.closesBranch (xs ++ before) = e.closesBranch before := by
  induction xs with
  | nil => rfl
  | cons x xs ih =>
    rw [List.cons_append, closesBranch_cons_of_inside _ (h x List.mem_cons_self),
      ih fun y hy => h y (List.mem_cons_of_mem x hy)]

/-- A line after a block that could be next at its own indentation is not deeper than the header,
so everything in the block is deeper than it. -/
theorem indent_le_of_past {l e : Line} {ls pre post : List Line}
    (h : l.past ls = pre ++ e :: post) (hpre : ∀ x ∈ pre, x.isInside e.indent = true) :
    e.indent ≤ l.indent := by
  rcases pre with _ | ⟨x, pre⟩
  · exact indent_le_of_not_inside (not_inside_of_past h)
  · have hx := not_inside_of_past h
    have he := hpre x List.mem_cons_self
    by_contra hlt
    exact hx (isInside_of_le (by omega) he)

theorem inside_block_of_le {l e : Line} (ls : List Line) (h : e.indent ≤ l.indent) :
    ∀ x ∈ l.block ls, x.isInside e.indent = true :=
  fun _ hx => isInside_of_le h (isInside_of_mem_block hx)

/-! ### Where no branch is open -/

/-- No line of `rest` that could be next at its own indentation takes up a branch in `before`. -/
def Closed (before rest : List Line) : Prop :=
  ∀ pre e post, rest = pre ++ e :: post → (∀ x ∈ pre, x.isInside e.indent = true) →
    e.closesBranch before = false

theorem closed_nil (rest : List Line) : Closed [] rest := by
  intro pre e post _ _
  simp [closesBranch]

theorem Closed.head {before ls : List Line} {l : Line} (h : Closed before (l :: ls)) :
    l.closesBranch before = false := h [] l ls rfl (by simp)

theorem Closed.pass {before ls : List Line} {l : Line} (h : Closed before (l :: ls))
    (hb : l.isBranch = false) : Closed (l :: before) ls := by
  intro pre e post he hpre
  by_cases hl : l.isInside e.indent = true
  · rw [closesBranch_cons_of_inside _ hl]
    refine h (l :: pre) e post (by rw [he, List.cons_append]) fun x hx => ?_
    rcases List.mem_cons.mp hx with rfl | hx
    · exact hl
    · exact hpre x hx
  · rw [closesBranch_cons_of_not_inside _ hl, hb]
    simp

/-- The cursor passes a block, with its header behind it. -/
theorem Closed.passBlock {before ls : List Line} {l : Line} (h : Closed before ls) :
    Closed ((l.block ls).reverse ++ before) (l.past ls) := by
  intro pre e post he hpre
  have hblock := inside_block_of_le ls (indent_le_of_past he hpre)
  rw [closesBranch_append_of_inside _ fun x hx => hblock x (List.mem_reverse.mp hx)]
  refine h (l.block ls ++ pre) e post ?_ fun x hx => ?_
  · rw [List.append_assoc, ← he, block_append_past]
  · rcases List.mem_append.mp hx with hx | hx
    · exact hblock x hx
    · exact hpre x hx

/-- The cursor enters a block. -/
theorem closed_block {l : Line} {before ls : List Line} (hl : l.isBlank = false) :
    Closed (l :: before) (l.block ls) := by
  intro pre e post he _
  by_cases hs : e.isElse = true
  · have hin : e.isInside l.indent = true :=
      isInside_of_mem_block (he ▸ List.mem_append_right pre List.mem_cons_self)
    have hlt : l.indent < e.indent := lt_indent_of_isInside hin (isBlank_of_isElse hs)
    have hout : ¬ l.isInside e.indent = true := by
      simp only [isInside, hl, Bool.false_or, decide_eq_true_eq]
      omega
    rw [closesBranch_cons_of_not_inside _ hout, beq_eq_false_iff_ne.mpr (by omega)]
    simp
  · simp [closesBranch, hs]

theorem isBranch_of_isElse {l : Line} (h : l.isElse = true) : l.isBranch = false := by
  rw [isBranch, statement_of_isElse h]

/-- The line `y` is the `else:` of `x`, and `es` are the lines after it. -/
structure ElseOf (x y : Line) (ls es : List Line) : Prop where
  past : x.past ls = y :: es
  isElse : y.isElse = true
  indent : y.indent = x.indent

theorem elseOf_of_some {x y : Line} {ls : List Line} (h : x.elseLine? ls = some y) :
    ∃ es, ElseOf x y ls es := by
  rw [elseLine?, Option.filter_eq_some_iff] at h
  obtain ⟨hy, hat⟩ := h
  obtain ⟨es, hes⟩ := List.head?_eq_some_iff.mp hy
  rw [isElseAt, Bool.and_eq_true, beq_iff_eq] at hat
  exact ⟨es, hes, hat.1, hat.2⟩

namespace ElseOf

variable {x y : Line} {ls es : List Line} (h : ElseOf x y ls es)
include h

theorem isElseAt : y.isElseAt x.indent = true := by
  rw [Line.isElseAt, h.isElse, h.indent]
  simp

theorem elseBlock_eq : x.elseBlock ls = y.block es := by
  rw [elseBlock_of_pos h.past h.isElseAt, block, block, h.indent]

theorem pastElse_eq : x.pastElse ls = y.past es := by
  rw [pastElse_of_pos h.past h.isElseAt, Line.past, Line.past, h.indent]

/-- **An `else:` that a run takes up is in its place** for a listing. -/
theorem closesBranch_eq_true (hx : x.isBranch = true) (hb : x.isBlank = false)
    (before : List Line) :
    y.closesBranch ((x.block ls).reverse ++ x :: before) = true := by
  have hblock := inside_block_of_le ls h.indent.le
  rw [closesBranch_append_of_inside _ fun z hz => hblock z (List.mem_reverse.mp hz)]
  have hout : ¬ x.isInside y.indent = true := by simp [isInside, hb, h.indent]
  rw [closesBranch_cons_of_not_inside _ hout, h.isElse, hx, h.indent]
  simp

end ElseOf

theorem Closed.passBranch {before ls : List Line} {x : Line} (h : Closed before (x :: ls))
    (hb : x.isBlank = false) (hn : x.elseLine? ls = none) :
    Closed ((x.block ls).reverse ++ x :: before) (x.past ls) := by
  intro pre e post he hpre
  have hle := indent_le_of_past he hpre
  have hblock := inside_block_of_le ls hle
  rw [closesBranch_append_of_inside _ fun z hz => hblock z (List.mem_reverse.mp hz)]
  by_cases hx : x.isInside e.indent = true
  · rw [closesBranch_cons_of_inside _ hx]
    refine h (x :: (x.block ls ++ pre)) e post ?_ fun z hz => ?_
    · rw [List.cons_append, List.append_assoc, ← he, block_append_past]
    · rcases List.mem_cons.mp hz with rfl | hz
      · exact hx
      rcases List.mem_append.mp hz with hz | hz
      · exact hblock z hz
      · exact hpre z hz
  -- The line is as deep as the branch, so it is the very next one, and it is no `else:`.
  · have heq : e.indent = x.indent := Nat.le_antisymm hle (indent_le_of_not_inside hx)
    rcases pre with _ | ⟨z, pre⟩
    · by_cases hs : e.isElse = true
      · have hat : e.isElseAt x.indent = true := by rw [isElseAt, hs, heq]; simp
        rw [elseLine?_of_pos he hat] at hn
        cases hn
      · rw [closesBranch_cons_of_not_inside _ hx]
        simp [hs]
    · exact absurd (heq ▸ hpre z List.mem_cons_self) (not_inside_of_past he)

/-- The cursor passes a branch with its `else:`. -/
theorem Closed.passElse {before ls es : List Line} {x y : Line} (h : Closed before (x :: ls))
    (hb : x.isBlank = false) (hy : ElseOf x y ls es) :
    Closed ((y.block es).reverse ++ y :: ((x.block ls).reverse ++ x :: before)) (y.past es) := by
  intro pre e post he hpre
  have hle := indent_le_of_past he hpre
  have helse := inside_block_of_le es hle
  rw [closesBranch_append_of_inside _ fun z hz => helse z (List.mem_reverse.mp hz)]
  -- Below the indentation of the branch the scan goes on to the lines before the branch; at that
  -- indentation it ends at the `else:`, which is no branch.
  by_cases hin : y.isInside e.indent = true
  · have hlt : e.indent < x.indent := by
      simpa [isInside, isBlank_of_isElse hy.isElse, hy.indent] using hin
    have hx : x.isInside e.indent = true := isInside_of_lt_indent hlt
    have hblock := inside_block_of_le ls hlt.le
    rw [closesBranch_cons_of_inside _ hin,
      closesBranch_append_of_inside _ fun z hz => hblock z (List.mem_reverse.mp hz),
      closesBranch_cons_of_inside _ hx]
    refine h (x :: (x.block ls ++ y :: (y.block es ++ pre))) e post ?_ fun z hz => ?_
    · simp only [List.cons_append, List.append_assoc]
      rw [← he, block_append_past, ← hy.past, block_append_past]
    · simp only [List.mem_cons, List.mem_append] at hz
      rcases hz with rfl | hz | rfl | hz | hz
      · exact hx
      · exact hblock z hz
      · exact hin
      · exact helse z hz
      · exact hpre z hz
  · rw [closesBranch_cons_of_not_inside _ hin, isBranch_of_isElse hy.isElse]
    simp

end Line

/-! ### The places of tasks -/

/-- The lines stand somewhere in the program, and no branch is open before them. -/
def InPlace (program rest : List Line) : Prop :=
  ∃ before more, program = before.reverse ++ (rest ++ more) ∧ Line.Closed before rest

namespace InPlace

variable {program ls : List Line} {l : Line}

theorem nil (program : List Line) : InPlace program [] := by
  refine ⟨program.reverse, [], by simp, fun pre e post h _ => ?_⟩
  simp at h

/-- The index of a line in place, and that it is not the `else:` of a branch. -/
theorem head (h : InPlace program (l :: ls)) :
    ∃ i, program[i]? = some l ∧ l.closesBranch (program.take i).reverse = false := by
  obtain ⟨before, more, rfl, hc⟩ := h
  refine ⟨before.reverse.length, by simp, ?_⟩
  rw [List.take_left, List.reverse_reverse]
  exact hc.head

theorem pass (h : InPlace program (l :: ls)) (hb : l.isBranch = false) : InPlace program ls := by
  obtain ⟨before, more, rfl, hc⟩ := h
  exact ⟨l :: before, more, by simp, hc.pass hb⟩

theorem block (h : InPlace program (l :: ls)) (hb : l.isBlank = false) :
    InPlace program (l.block ls) := by
  obtain ⟨before, more, rfl, -⟩ := h
  refine ⟨l :: before, l.past ls ++ more, ?_, Line.closed_block hb⟩
  conv_lhs => rw [← l.block_append_past ls]
  simp

theorem past (h : InPlace program ls) : InPlace program (l.past ls) := by
  obtain ⟨before, more, rfl, hc⟩ := h
  refine ⟨(l.block ls).reverse ++ before, more, ?_, hc.passBlock⟩
  conv_lhs => rw [← l.block_append_past ls]
  simp

/-- The line of the program at which the `else:` of a branch stands is in its place. -/
theorem else_closes {e : Line} {es : List Line} (h : InPlace program (l :: ls))
    (hb : l.isBranch = true) (hblank : l.isBlank = false) (he : Line.ElseOf l e ls es) :
    ∃ i, program[i]? = some e ∧ e.closesBranch (program.take i).reverse = true := by
  obtain ⟨before, more, rfl, -⟩ := h
  have hp : before.reverse ++ (l :: ls ++ more) =
      ((l.block ls).reverse ++ l :: before).reverse ++ (e :: (es ++ more)) := by
    conv_lhs => rw [← l.block_append_past ls, he.past]
    simp
  rw [hp]
  refine ⟨((l.block ls).reverse ++ l :: before).reverse.length, by simp, ?_⟩
  rw [List.take_left, List.reverse_reverse]
  exact he.closesBranch_eq_true hb hblank before

theorem elseBlock (h : InPlace program (l :: ls)) : InPlace program (l.elseBlock ls) := by
  rcases he : l.elseLine? ls with _ | e
  · rw [Line.elseBlock_of_none he]
    exact nil program
  obtain ⟨es, he⟩ := Line.elseOf_of_some he
  obtain ⟨before, more, rfl, -⟩ := h
  rw [he.elseBlock_eq]
  refine ⟨e :: ((l.block ls).reverse ++ l :: before), e.past es ++ more, ?_,
    Line.closed_block (Line.isBlank_of_isElse he.isElse)⟩
  conv_lhs => rw [← l.block_append_past ls, he.past, ← e.block_append_past es]
  simp

theorem pastElse (h : InPlace program (l :: ls)) (hb : l.isBlank = false) :
    InPlace program (l.pastElse ls) := by
  obtain ⟨before, more, rfl, hc⟩ := h
  rcases he : l.elseLine? ls with _ | e
  · rw [Line.pastElse_of_none he]
    refine ⟨(l.block ls).reverse ++ l :: before, more, ?_, hc.passBranch hb he⟩
    conv_lhs => rw [← l.block_append_past ls]
    simp
  obtain ⟨es, he⟩ := Line.elseOf_of_some he
  rw [he.pastElse_eq]
  refine ⟨(e.block es).reverse ++ e :: ((l.block ls).reverse ++ l :: before), more, ?_,
    hc.passElse hb he⟩
  conv_lhs => rw [← l.block_append_past ls, he.past, ← e.block_append_past es]
  simp

end InPlace

def Task.Placed (program : List Line) : Task ν → Prop
  | .lines rest => InPlace program rest
  | .turns _ _ _ body _ => InPlace program body

section Placed

variable {program ls : List Line} {l : Line} {m m' : Machine ν} {d : Demand} {ts : List (Task ν)}

theorem placed_line (h : InPlace program (l :: ls)) (hp : l.Performed m d m')
    (hts : ∀ t ∈ ts, t.Placed program) (block : Bindings (Value ν)) :
    ∀ t ∈ l.tasks ls block d ++ .lines (l.after ls) :: ts, t.Placed program := by
  have hpass : ∀ s, l.statement = .ok s → (∀ cond, s ≠ .branch cond) → InPlace program ls := by
    intro s hs hne
    refine h.pass ?_
    rw [Line.isBranch, hs]
    cases s <;> first | rfl | exact absurd rfl (hne _)
  cases hp with
  | skip hs | print hs _ | assign hs _ =>
    simp only [Line.tasks, Line.after, hs, List.nil_append, List.forall_mem_cons]
    exact ⟨hpass _ hs (by simp), hts⟩
  | loop hs =>
    have hblank := Line.isBlank_of_statement hs (by simp)
    simp only [Line.tasks, Line.after, hs, List.singleton_append, List.forall_mem_cons]
    exact ⟨h.block hblank, (hpass _ hs (by simp)).past, hts⟩
  | @branch cond a b hs _ _ =>
    have hblank := Line.isBlank_of_statement hs (by simp)
    generalize cond.op.holds a b = holds
    cases holds with
    | false =>
      simp only [Line.tasks, Line.after, hs, List.singleton_append, List.forall_mem_cons]
      exact ⟨h.elseBlock, h.pastElse hblank, hts⟩
    | true =>
      simp only [Line.tasks, Line.after, hs, List.singleton_append, List.forall_mem_cons]
      exact ⟨h.block hblank, h.pastElse hblank, hts⟩

theorem placed_of_change {limit : Option Nat} {c c' : Moment ν} (h : c.Change limit c')
    (hc : ∀ t ∈ c.tasks, t.Placed program) : ∀ t ∈ c'.tasks, t.Placed program := by
  cases h with
  | leave | finish => exact fun t ht => hc t (List.mem_cons_of_mem _ ht)
  | line hp _ =>
    rw [List.forall_mem_cons] at hc
    exact placed_line hc.1 hp hc.2 _
  | turn _ =>
    simp only [List.forall_mem_cons] at hc ⊢
    exact ⟨hc.1, hc.1, hc.2⟩

/-- **At every moment of a run all tasks are in place.** -/
theorem placed_of_reaches {limit : Option Nat} {c : Moment ν} {m : Machine ν}
    (h : (Moment.start program m).Reaches limit c) : ∀ t ∈ c.tasks, t.Placed program := by
  refine Moment.of_reaches (P := fun c => ∀ t ∈ c.tasks, t.Placed program)
    (fun _ _ => placed_of_change) h ?_
  simp only [Moment.start, List.forall_mem_singleton]
  exact ⟨[], [], by simp, Line.closed_nil program⟩

end Placed

/-! ### The main statement -/

/-- The line of an index is the `else:` of a branch, as a listing sees it. -/
def closesBranchAt (lines : List Line) (i : Nat) : Bool :=
  lines[i]?.any fun l => l.closesBranch (lines.take i).reverse

namespace Moment

/-- The line of an index is at the cursor, with the lines of the block after it. -/
def AtLine (c : Moment ν) (i : Nat) (l : Line) (ls : List Line) : Prop :=
  l.number = i + 1 ∧ ∃ ts, c.tasks = .lines (l :: ls) :: ts

/-- A branch is at the cursor that takes up the line of an index as its `else:`. -/
def TakesUp (c : Moment ν) (i : Nat) : Prop :=
  ∃ j l ls cond e, c.AtLine j l ls ∧ l.statement = .ok (.branch cond) ∧
    l.elseLine? ls = some e ∧ e.number = i + 1

variable {limit : Option Nat} {source : Text} {c : Moment ν}

theorem OfRun.line {i : Nat} {l : Line} {ls : List Line} (h : c.OfRun limit source)
    (hl : c.AtLine i l ls) : (Line.ofSource source)[i]? = some l ∧
      l.closesBranch ((Line.ofSource source).take i).reverse = false := by
  obtain ⟨hnum, ts, hts⟩ := hl
  have hplace : InPlace (Line.ofSource source) (l :: ls) :=
    placed_of_reaches h (.lines (l :: ls)) (hts ▸ List.mem_cons_self)
  obtain ⟨j, hj, hc⟩ := hplace.head
  have hnum' := number_ofSource hj
  rw [show i = j by omega]
  exact ⟨hj, hc⟩

end Moment

theorem EvalError.kind_ne_syntaxError (e : EvalError) : e.kind ≠ .syntaxError := by
  cases e <;> simp [EvalError.kind]

section Problem

variable {limit : Option Nat} {l : Line} {m : Machine ν} {before : List Line} {e : RunError}

/-- A syntax error that a line ends a run with is its problem in a listing. -/
theorem problem?_of_failed {m' : Machine ν} (hc : l.closesBranch before = false)
    (h : l.Failed limit m e m') (hk : e.kind = .syntaxError) : l.problem? before = some e := by
  cases h with
  | header hs => rw [Line.problem?, hs]
  | unsupported hs _ =>
    rw [Line.problem?, hs]
    exact if_neg (by simp [hc])
  | stepLimit => cases hk
  | print | assign | lhs | rhs => exact absurd hk (EvalError.kind_ne_syntaxError _)

/-- A line with a problem ends a run with it, unless it is a step too many. -/
theorem perform_of_problem? (hno : ∀ n m', l.perform limit m ≠ .error (.stepLimit n) m')
    (h : l.problem? before = some e) :
    e.kind = .syntaxError ∧ ∃ m', l.perform limit m = .error e m' := by
  rcases hs : l.statement with fault | s
  · simp only [Line.problem?, hs, Option.some.injEq] at h
    subst h
    refine ⟨rfl, m, ?_⟩
    simp only [Line.perform, hs]
    rfl
  have hunrec : ∃ text, s = .unrecognized text ∧ e = .unsupported text := by
    cases s <;> simp only [Line.problem?, hs] at h <;> try cases h
    split_ifs at h
    exact ⟨_, rfl, (Option.some.inj h).symm⟩
  obtain ⟨text, rfl, rfl⟩ := hunrec
  refine ⟨rfl, m.begun l.number .unrecognized, ?_⟩
  by_cases hl : m.AtLimit limit
  · obtain ⟨n, hn, hlt⟩ := hl
    exact absurd (Line.perform_of_atLimit hs (by simp) hn hlt) (hno n _)
  · simp only [Line.perform, hs]
    exact Run.bind_of_ok (Run.begin_of_not_atLimit hl _ _)

theorem syntaxError_iff_problem? (hc : l.closesBranch before = false)
    (hno : ∀ n m', l.perform limit m ≠ .error (.stepLimit n) m') :
    (e.kind = .syntaxError ∧ ∃ m', l.perform limit m = .error e m') ↔
      l.problem? before = some e := by
  refine ⟨fun ⟨hk, m', hm⟩ => ?_, perform_of_problem? hno⟩
  exact problem?_of_failed hc (Line.failed_of_perform hm) hk

end Problem

/-- A run that ends with a syntax error ends with the problem of one of its lines. -/
theorem exists_problem_of_syntaxError {source : Text} {limit : Option Nat} {e : RunError}
    (h : (execute ν source limit).result = .error e) (hk : e.kind = .syntaxError) :
    ∃ x ∈ Listing.ofLines (Line.ofSource source), x.problem = some e := by
  obtain ⟨c, m, hc, hs⟩ := Moment.exists_of_result_error h
  rcases Moment.stopped_of_stops hs with ⟨hf⟩ | ⟨hl, hlt⟩
  · rename_i l ls ts m₀
    have hplace : InPlace (Line.ofSource source) (l :: ls) :=
      placed_of_reaches hc (.lines (l :: ls)) List.mem_cons_self
    obtain ⟨i, hi, hclose⟩ := hplace.head
    have hx := Listing.getElem?_ofLines (Line.ofSource source) i
    rw [hi] at hx
    exact ⟨_, List.mem_of_getElem? hx, problem?_of_failed hclose hf hk⟩
  · cases hk

/-- **Listings and runs agree about syntax.** A line that comes to the cursor of a run, and is no
step too many, ends the run with a syntax error of its own exactly if the listing shows a problem of
the line, and with this problem. A run takes up an `else:` only where the listing sees that it
closes a branch, and such a line never comes to the cursor. So no run of a source without problems
ends with a syntax error. -/
theorem listing_agrees_with_runs (ν : Type) [NumberSystem ν] (source : Text)
    (limit : Option Nat) :
    (∀ (c : Moment ν) i l ls, c.OfRun limit source → c.AtLine i l ls →
      (∀ n m', l.perform limit c.machine ≠ .error (.stepLimit n) m') →
      ∃ x, (Listing.ofLines (Line.ofSource source))[i]? = some x ∧ x.line = l ∧
        ∀ e, (e.kind = .syntaxError ∧ ∃ m', l.perform limit c.machine = .error e m') ↔
          x.problem = some e) ∧
    (∀ (c : Moment ν) i, c.OfRun limit source → c.TakesUp i →
      closesBranchAt (Line.ofSource source) i = true) ∧
    (∀ (c : Moment ν) i l ls, c.OfRun limit source → c.AtLine i l ls →
      closesBranchAt (Line.ofSource source) i = false) ∧
    ((∀ x ∈ Listing.ofLines (Line.ofSource source), x.problem = none) →
      ∀ e, (execute ν source limit).result = .error e → e.kind ≠ .syntaxError) := by
  refine ⟨fun c i l ls hc hl hno => ?_, fun c i hc ht => ?_, fun c i l ls hc hl => ?_,
    fun hnone e he hk => ?_⟩
  · obtain ⟨hi, hclose⟩ := hc.line hl
    refine ⟨⟨l, l.problem? ((Line.ofSource source).take i).reverse⟩, ?_, rfl, fun e => ?_⟩
    · rw [Listing.getElem?_ofLines, hi]
      rfl
    · exact syntaxError_iff_problem? hclose hno
  · obtain ⟨j, l, ls, cond, e, ⟨-, ts, hts⟩, hs, he, hnum⟩ := ht
    have hplace : InPlace (Line.ofSource source) (l :: ls) :=
      placed_of_reaches hc (.lines (l :: ls)) (hts ▸ List.mem_cons_self)
    obtain ⟨es, he⟩ := Line.elseOf_of_some he
    obtain ⟨k, hk, hclose⟩ := hplace.else_closes (by rw [Line.isBranch, hs])
      (Line.isBlank_of_statement hs (by simp)) he
    have hnum' := number_ofSource hk
    rw [closesBranchAt, show i = k by omega, hk]
    exact hclose
  · obtain ⟨hi, hclose⟩ := hc.line hl
    rw [closesBranchAt, hi]
    exact hclose
  · obtain ⟨x, hx, hp⟩ := exists_problem_of_syntaxError he hk
    rw [hnone x hx] at hp
    cases hp

end LessonScript
