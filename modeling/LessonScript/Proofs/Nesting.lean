import LessonScript.Proofs.Blame
import LessonScript.Proofs.Levels
import LessonScript.Proofs.Sequence
import Mathlib.Data.List.Flatten
import Mathlib.Data.List.Nodup
import Mathlib.Data.List.Perm.Subperm
import Mathlib.Data.Nat.Choose.Basic

/-! # Nesting is shallow

Running a block inside a block is a call of the executor from a call, and so is evaluating an operand
of an expression. Neither goes deep, whatever the source.

* A block at level `n` has headers around it at every level below, the one at level `i` indented by at
  least `i`. So the source has at least `0 + 1 + … + (n - 1)` characters besides those of the block
  (`Within`), which bounds the depth of every moment, and so much fuel is enough to run the blocks by
  calls (`runWithin_eq`).
* A call of the evaluator looks for all operators in its text, but those that were cut at before are
  not in the pieces (`Calls.symbol_not_mem`). With four operators five calls are enough
  (`evaluateWithin_eq`).

What is done without fuel is a parameter, `exhausted`: the results do not depend on it.

Main statement: `nesting_shallow`. -/

namespace LessonScript

variable {ν : Type} [NumberSystem ν]

/-! ### Blocks by calls -/

section Runs

/-- Run the blocks that a line asks for, each with `run`. -/
def Line.finishWith (limit : Option Nat) (run : List Line → Run ν Unit) (l : Line) (ls : List Line) :
    Demand → Run ν Unit
  | .nothing => pure ()
  | .loop var range => do
    Run.record (.looped var range.size (l.block ls).length)
    Run.turns limit var (run (l.block ls)) range.start range.size
  | .branch true => run (l.block ls)
  | .branch false => run (l.elseBlock ls)

/-- One call of the executor: the cursor goes through the lines, and the blocks that they ask for are
run with `run`. -/
def walk (limit : Option Nat) (run : List Line → Run ν Unit) : List Line → Run ν Unit
  | [] => pure ()
  | l :: ls => do
    let demand ← l.perform limit
    l.finishWith limit run ls demand
    walk limit run (l.after ls)
termination_by ls => ls.length
decreasing_by exact Nat.lt_succ_of_le (l.length_after_le ls)

/-- Run lines with so many calls, each inside the one before; `exhausted` stands for those that are too
deep. -/
def runWithin (limit : Option Nat) (exhausted : List Line → Run ν Unit) :
    Nat → List Line → Run ν Unit
  | 0 => exhausted
  | fuel + 1 => walk limit (runWithin limit exhausted fuel)

/-- The outcome of running a source with so many calls, each inside the one before. -/
def executeWithin (limit : Option Nat) (exhausted : List Line → Run ν Unit) (fuel : Nat)
    (source : Text) : Outcome :=
  let lines := Line.ofSource source
  .ofResult (.started lines.length limit) (runWithin limit exhausted fuel lines .initial)

variable {limit : Option Nat} {run : List Line → Run ν Unit} {l : Line} {ls : List Line}

theorem finishWith_eq (hblock : run (l.block ls) = runLines limit (l.block ls))
    (helse : run (l.elseBlock ls) = runLines limit (l.elseBlock ls)) (d : Demand) :
    l.finishWith limit run ls d = l.finish limit ls d := by
  cases d with
  | nothing => rfl
  | loop var range => rw [Line.finishWith, Line.finish, hblock]
  | branch holds => cases holds <;> assumption

/-- One call does what the whole run does, if the calls for the blocks one level deeper do. -/
theorem walk_eq {P : Nat → List Line → Prop} (hP : Hereditary P) {n : Nat}
    (hrun : ∀ bs, P (n + 1) bs → run bs = runLines limit bs) (ls : List Line) (hls : P n ls) :
    walk limit run ls = runLines limit ls := by
  induction hk : ls.length using Nat.strong_induction_on generalizing ls with
  | _ k ih =>
    rcases ls with _ | ⟨l, ls⟩
    · rw [walk]
      rfl
    have hafter : walk limit run (l.after ls) = runLines limit (l.after ls) :=
      ih _ (hk ▸ Nat.lt_succ_of_le (l.length_after_le ls)) _ (hP.after hls) rfl
    rw [walk, runLines_cons, hafter]
    rcases hb : l.isBlank with _ | _
    · have hfinish : l.finishWith limit run ls = l.finish limit ls :=
        funext (finishWith_eq (hrun _ (hP.block hb hls)) (hrun _ (hP.elseBlock hb hls)))
      rw [hfinish]
    -- A blank line asks for nothing.
    · have hskip : (l.perform limit : Run ν Demand) = pure .nothing := by
        rw [Line.perform, Line.statement_of_isBlank hb]
      rw [hskip, pure_bind, pure_bind]
      rfl

/-- **So much fuel as there are levels is enough.** -/
theorem runWithin_eq {P : Nat → List Line → Prop} (hP : Hereditary P) {fuel : Nat}
    (exhausted : List Line → Run ν Unit) :
    ∀ {n : Nat}, (∀ k bs, P k bs → k < n + fuel) → ∀ ls, P n ls →
      runWithin limit exhausted fuel ls = runLines limit ls := by
  induction fuel with
  | zero => exact fun hlevels ls hls => absurd (hlevels _ ls hls) (Nat.lt_irrefl _)
  | succ fuel ih =>
    intro n hlevels ls hls
    exact walk_eq hP (ih fun k bs hbs => (hlevels k bs hbs).trans_eq (by omega)) ls hls

end Runs

/-! ### Characters of a source -/

/-- The number of characters of lines, without what separates them. -/
def charCount (ls : List Line) : Nat := (ls.flatMap Line.text).length

theorem charCount_le_of_sublist {ls ls' : List Line} (h : ls.Sublist ls') :
    charCount ls ≤ charCount ls' :=
  (h.flatMap Line.text).length_le

theorem flatten_sublist_intercalate (separator : Text) (pieces : List Text) :
    pieces.flatten.Sublist (separator.intercalate pieces) := by
  induction pieces with
  | nil => exact List.nil_sublist _
  | cons t pieces ih =>
    rcases pieces with _ | ⟨t', pieces⟩
    · simp
    · rw [List.intercalate_cons_cons, List.flatten_cons, List.append_assoc]
      exact .append (.refl t) (ih.trans (List.sublist_append_right separator _))

theorem charCount_ofSource (source : Text) : charCount (Line.ofSource source) ≤ source.length := by
  have h := (flatten_sublist_intercalate ['\n'] (source.splitOn '\n')).length_le
  rwa [List.intercalate_splitOn, ← map_text_ofSource, ← List.flatMap_def] at h

/-- Lines at a level of a program with so many characters: what is not blank is indented by the level
at least, and the headers around have `0 + 1 + … + (level - 1)` characters at least. -/
structure Within (total level : Nat) (ls : List Line) : Prop where
  level_le_indent : ∀ l ∈ ls, l.isBlank = false → level ≤ l.indent
  fits : level * (level - 1) / 2 + charCount ls ≤ total

namespace Within

variable {total level : Nat} {l : Line} {ls rest : List Line}

theorem of_suffix (h : Within total level ls) (hs : rest <:+ ls) : Within total level rest where
  level_le_indent x hx := h.level_le_indent x (hs.subset hx)
  fits := (Nat.add_le_add_left (charCount_le_of_sublist hs.sublist) _).trans h.fits

/-- **One level deeper**: a header gives its indentation for its block. -/
theorem inner (h : Within total level (l :: ls)) (hb : l.isBlank = false)
    (hsub : rest.Sublist ls) (hinside : ∀ x ∈ rest, x.isInside l.indent = true) :
    Within total (level + 1) rest := by
  have hlevel : level ≤ l.indent := h.level_le_indent l List.mem_cons_self hb
  have hindent : l.indent ≤ l.text.length := (List.takeWhile_prefix _).length_le
  have hcount : charCount (l :: ls) = l.text.length + charCount ls := List.length_append
  have hrest := charCount_le_of_sublist hsub
  have hfits := h.fits
  refine ⟨fun x hx hxb => ?_, ?_⟩
  · exact hlevel.trans_lt (Line.lt_indent_of_isInside (hinside x hx) hxb)
  · rw [Nat.triangle_succ]
    omega

theorem hereditary (total : Nat) : Hereditary (Within total) where
  after {_ l ls} h := h.of_suffix ((l.after_suffix ls).trans (List.suffix_cons l ls))
  block hb h := h.inner hb (List.takeWhile_sublist _) fun _ => Line.isInside_of_mem_block
  elseBlock {_ l ls} hb h := by
    unfold Line.elseBlock
    split
    · refine h.inner hb ?_ fun _ => Line.isInside_of_mem_block
      exact (List.takeWhile_sublist _).trans ((List.tail_sublist _).trans (List.dropWhile_sublist _))
    · exact h.inner hb (List.nil_sublist ls) fun _ hx => absurd hx List.not_mem_nil

theorem ofSource (source : Text) : Within source.length 0 (Line.ofSource source) where
  level_le_indent _ _ _ := Nat.zero_le _
  fits := by simpa using charCount_ofSource source

/-- With so many levels the program has more characters than that. -/
theorem lt_of_lt {fuel : Nat} (h : Within total level ls) (hfuel : total < fuel * (fuel - 1) / 2) :
    level < fuel := by
  by_contra hle
  have hmul := Nat.mul_le_mul (Nat.not_lt.mp hle) (Nat.sub_le_sub_right (Nat.not_lt.mp hle) 1)
  have htriangle := Nat.div_le_div_right (c := 2) hmul
  have hfits := h.fits
  omega

end Within

/-- **A moment is not deep.** -/
theorem triangle_depth_le {source : Text} {limit : Option Nat} {c : Moment ν}
    (h : c.OfRun limit source) : c.depth * (c.depth - 1) / 2 ≤ source.length := by
  have hlevels := atLevels_of_reaches (Within.hereditary _) h (.ofSource source)
  unfold Moment.depth
  rcases hn : openBlocks c.tasks with _ | n
  · simp
  · obtain ⟨ls, hls⟩ := hlevels.exists_of_openBlocks hn
    exact (Nat.le_add_right _ _).trans hls.fits

theorem executeWithin_eq {source : Text} {fuel : Nat} (limit : Option Nat)
    (exhausted : List Line → Run ν Unit) (h : source.length < fuel * (fuel - 1) / 2) :
    executeWithin limit exhausted fuel source = execute ν source limit := by
  have hlevels : ∀ n bs, Within source.length n bs → n < 0 + fuel := fun n bs hbs => by
    rw [Nat.zero_add]
    exact hbs.lt_of_lt h
  rw [executeWithin, execute_eq,
    runWithin_eq (Within.hereditary _) exhausted hlevels _ (.ofSource source)]

/-! ### Operands by calls -/

namespace Expression

/-- The loosest operator of a text. -/
def loosest? (e : Text) : Option Operator := Operator.all.find? fun op => e.contains op.symbol

/-- Evaluate with so many calls, each inside the one before; `exhausted` stands for those that are too
deep. A call looks for every operator in its text, whatever the text was cut from. -/
def evaluateWithin (s : Scope ν) (exhausted : Text → Except EvalError (Value ν)) :
    Nat → Text → Except EvalError (Value ν)
  | 0, e => exhausted e
  | fuel + 1, e =>
    match atom? s e.trim with
    | some v => .ok v
    | none =>
      match loosest? e.trim with
      | some op => do
        op.combine (← (e.trim.splitOn op.symbol).mapM (evaluateWithin s exhausted fuel))
      | none => .error (.unbound e.trim)

/-- A call of the evaluator on a text that is called, through other calls, for an expression: the
operators that the texts of these calls are cut at, the last one first, and the text. -/
inductive Calls (s : Scope ν) (e : Text) : List Operator → Text → Prop
  | entry : Calls s e [] e
  | operand {cuts : List Operator} {op : Operator} {t piece : Text} : Calls s e cuts t →
      atom? s t.trim = none → loosest? t.trim = some op → piece ∈ t.trim.splitOn op.symbol →
      Calls s e (op :: cuts) piece

variable {s : Scope ν} {e t : Text} {op : Operator} {ops cuts : List Operator}

theorem mem_of_mem_trim {c : Char} (h : c ∈ t.trim) : c ∈ t := (Text.trim_standsIn t).isInfix.subset h

theorem mem_of_mem_piece {c : Char} {piece : Text} (h : piece ∈ t.splitOn op.symbol)
    (hc : c ∈ piece) : c ∈ t :=
  (Text.standsIn_of_mem_splitOn (isWordChar_symbol op) h).isInfix.subset hc

theorem symbol_mem_of_loosest? (h : loosest? t = some op) : op.symbol ∈ t := by
  simpa using List.find?_some h

theorem loosest?_eq_none (h : ∀ op : Operator, op.symbol ∉ t) : loosest? t = none := by
  refine List.find?_eq_none.mpr fun op _ => ?_
  simpa using h op

/-- The loosest operator of a text in which only the last operators are. -/
theorem loosest?_of_suffix (hops : op :: ops <:+ Operator.all) (hop : op.symbol ∈ t)
    (ht : ∀ op' : Operator, op'.symbol ∈ t → op' ∈ op :: ops) : loosest? t = some op := by
  obtain ⟨tried, htried⟩ := hops
  have hnodup : (tried ++ op :: ops).Nodup := htried ▸ (by decide : Operator.all.Nodup)
  have hnone : tried.find? (fun op => t.contains op.symbol) = none := by
    refine List.find?_eq_none.mpr fun op' hop' => ?_
    have hnot : op'.symbol ∉ t := fun hmem =>
      List.disjoint_of_nodup_append hnodup hop' (ht op' hmem)
    simpa using hnot
  rw [loosest?, ← htried, List.find?_append, hnone, Option.none_or]
  exact List.find?_cons_of_pos (by simpa using hop)

/-- **Calls find what is left to find**: when only the last operators are in a text, looking for all of
them is looking for these. -/
theorem evaluateWithin_eq_operand (exhausted : Text → Except EvalError (Value ν))
    (hops : ops <:+ Operator.all) :
    ∀ {fuel : Nat} {e : Text}, ops.length < fuel → (∀ op : Operator, op.symbol ∈ e.trim → op ∈ ops) →
      evaluateWithin s exhausted fuel e = operand s (compound s ops) e := by
  induction ops with
  | nil =>
    intro fuel e hfuel he
    obtain ⟨fuel, rfl⟩ := Nat.exists_eq_succ_of_ne_zero (Nat.ne_of_gt hfuel)
    have hnone := loosest?_eq_none fun op hop => List.not_mem_nil (he op hop)
    rw [evaluateWithin, operand, hnone]
    rfl
  | cons op ops ih =>
    intro fuel e hfuel he
    have hrest : ops <:+ Operator.all := (List.suffix_cons op ops).trans hops
    by_cases hop : op.symbol ∈ e.trim
    · obtain ⟨fuel, rfl⟩ := Nat.exists_eq_succ_of_ne_zero (Nat.ne_zero_of_lt hfuel)
      have hpieces : ∀ t ∈ e.trim.splitOn op.symbol,
          evaluateWithin s exhausted fuel t = operand s (compound s ops) t := by
        intro t ht
        refine ih hrest (Nat.lt_of_succ_lt_succ hfuel) fun op' hop' => ?_
        have hmem := mem_of_mem_trim hop'
        refine List.mem_of_ne_of_mem ?_ (he op' (mem_of_mem_piece ht hmem))
        rintro rfl
        exact Text.separator_not_mem_splitOn _ t ht hmem
      rw [evaluateWithin, operand, loosest?_of_suffix hops hop he, compound_of_mem hop]
      cases atom? s e.trim with
      | some v => rfl
      | none => exact congrArg (· >>= _) (mapM_congr_of_mem hpieces)
    · rw [ih hrest (Nat.lt_of_succ_lt hfuel) fun op' hop' => ?_, operand, operand,
        compound_of_not_mem hop]
      refine List.mem_of_ne_of_mem ?_ (he op' hop')
      rintro rfl
      exact hop hop'

/-- **Five calls are enough**, one more than there are operators. -/
theorem evaluateWithin_eq (s : Scope ν) (exhausted : Text → Except EvalError (Value ν)) (e : Text) :
    evaluateWithin s exhausted 5 e = evaluate s e :=
  evaluateWithin_eq_operand exhausted List.suffix_rfl (by decide) fun op _ => op.mem_all

namespace Calls

/-- **What was cut at is not in the text of a call.** -/
theorem symbol_not_mem (h : Calls s e cuts t) : ∀ op ∈ cuts, op.symbol ∉ t := by
  induction h with
  | entry => simp
  | @operand cuts op t piece _ _ _ hpiece ih =>
    refine List.forall_mem_cons.mpr ⟨Text.separator_not_mem_splitOn _ piece hpiece, ?_⟩
    exact fun op' hop' hmem => ih op' hop' (mem_of_mem_trim (mem_of_mem_piece hpiece hmem))

/-- No text is cut at an operator that was cut at before. -/
theorem nodup (h : Calls s e cuts t) : cuts.Nodup := by
  induction h with
  | entry => exact List.nodup_nil
  | operand hcall _ hop _ ih =>
    refine List.nodup_cons.mpr ⟨fun hmem => ?_, ih⟩
    exact hcall.symbol_not_mem _ hmem (mem_of_mem_trim (symbol_mem_of_loosest? hop))

/-- The calls around a call are four at most. -/
theorem length_le (h : Calls s e cuts t) : cuts.length + 1 ≤ 5 :=
  Nat.succ_le_succ (h.nodup.subperm fun op _ => op.mem_all).length_le

end Calls

end Expression

/-- **Nesting is shallow, whatever the source and the expression.** When `d` blocks are being run inside
the whole program, each in the one before, the source has at least `d * (d - 1) / 2` characters; so with
`fuel * (fuel - 1) / 2` beyond the number of characters the executor never runs out of fuel. Five calls
are enough for the evaluator: a call is on a text without the operators that were cut at on the way to
it, so it is at most the fifth one on its way. -/
theorem nesting_shallow (ν : Type) [NumberSystem ν] :
    (∀ source limit (c : Moment ν), c.OfRun limit source →
      c.depth * (c.depth - 1) / 2 ≤ source.length) ∧
    (∀ source limit fuel (exhausted : List Line → Run ν Unit),
      source.length < fuel * (fuel - 1) / 2 →
      executeWithin limit exhausted fuel source = execute ν source limit) ∧
    (∀ (s : Scope ν) exhausted e, Expression.evaluateWithin s exhausted 5 e = evaluate s e) ∧
    ∀ (s : Scope ν) e cuts t, Expression.Calls s e cuts t →
      (∀ op ∈ cuts, op.symbol ∉ t) ∧ cuts.length + 1 ≤ 5 :=
  ⟨fun _ _ _ => triangle_depth_le, fun _ limit _ exhausted => executeWithin_eq limit exhausted,
    Expression.evaluateWithin_eq, fun _ _ _ _ h => ⟨h.symbol_not_mem, h.length_le⟩⟩

/-- The moment after this one, or this one if it is final. -/
def Moment.advanced (limit : Option Nat) (c : Moment ν) : Moment ν :=
  match advance limit c.tasks c.machine with
  | .ok ts m => ⟨ts, m⟩
  | .error _ _ => c

theorem Moment.reaches_advanced (limit : Option Nat) (c : Moment ν) :
    c.Reaches limit (c.advanced limit) := by
  obtain ⟨ts, m⟩ := c
  unfold advanced
  rcases hr : advance limit ts m with ⟨ts', m'⟩ | ⟨e, m'⟩
  · by_cases hne : ts = []
    · subst hne
      cases hr
      exact .refl
    · exact .single ⟨hne, hr⟩
  · exact .refl

theorem Moment.reaches_iterate (limit : Option Nat) (n : Nat) (c : Moment ν) :
    c.Reaches limit ((advanced limit)^[n] c) := by
  induction n generalizing c with
  | zero => exact .refl
  | succ n ih => exact (reaches_advanced limit c).trans (ih _)

/-- A loop in a loop in a loop. -/
def threeLoops : Text :=
  "for i in range(1):\n for j in range(1):\n  for k in range(1):\n   print('a')".toList

/-- The moment at which the body of the innermost loop begins. -/
def insideLoops : Moment Float :=
  (Moment.advanced none)^[6] (.start (Line.ofSource threeLoops) .initial)

theorem insideLoops_ofRun : insideLoops.OfRun none threeLoops := Moment.reaches_iterate none 6 _

theorem calls_product : Expression.Calls (.empty : Scope Float) "1+2*3".toList [.mul, .add]
    "3".toList :=
  .operand (.operand .entry (by decide +kernel) (by decide) (by decide : "2*3".toList ∈ _))
    (by decide +kernel) (by decide) (by decide)

theorem nesting_shallow_threeLoops :
    insideLoops.OfRun none threeLoops ∧ insideLoops.depth = 3 ∧
      insideLoops.depth * (insideLoops.depth - 1) / 2 ≤ threeLoops.length ∧
      threeLoops.length < 13 * (13 - 1) / 2 ∧
      executeWithin none (fun _ => (throw (.stepLimit 0) : Run Float Unit)) 13 threeLoops =
        execute Float threeLoops none ∧
      Expression.Calls (.empty : Scope Float) "1+2*3".toList [.mul, .add] "3".toList ∧
      ∀ op ∈ [Operator.mul, .add], op.symbol ∉ "3".toList := by
  obtain ⟨hdepth, hfuel, -, hcalls⟩ := nesting_shallow Float
  exact ⟨insideLoops_ofRun, by decide +kernel, hdepth _ _ _ insideLoops_ofRun, by decide,
    hfuel threeLoops none 13 _ (by decide), calls_product, (hcalls _ _ _ _ calls_product).1⟩

end LessonScript
