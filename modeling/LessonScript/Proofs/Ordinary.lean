import LessonScript.Proofs.Diagnosis
import LessonScript.Proofs.Fields
import LessonScript.Proofs.Store
import Mathlib.Tactic.MkIffOfInductiveProp

/-! # Ordinary programs need one environment only

A program is *ordinary* if it never assigns to a loop variable, has no loop inside one over the same
variable, and reads a loop variable only inside the loops over it (`Ordinary`). What lies in the
body of a loop is said by the indices of lines, as blocks are cut from a program.

A run cuts its blocks from blocks, so the conditions are carried from the whole program to the lines
of a block, together with the variables of the loops that the block is in (`Suited`). A loop before
such a block ends before the block begins, so it does not matter there (`Suited.drop`).

Main statement: `execute_eq_flat`. -/

namespace LessonScript

/-! ### Ordinary programs -/

namespace Line

/-- The variable of the loop whose header the line is. -/
def loopVar? (l : Line) : Option Text :=
  match l.statement with
  | .ok (.loop var _) => some var
  | _ => none

/-- The name that the line assigns to. -/
def target? (l : Line) : Option Text :=
  match l.statement with
  | .ok (.assign target _) => some target
  | _ => none

/-- The expressions on the line: what it prints, what it assigns, or what it compares. -/
def expressions (l : Line) : List Text :=
  match l.statement with
  | .ok (.print expr) => [expr]
  | .ok (.assign _ value) => [value]
  | .ok (.branch cond) => [cond.lhs, cond.rhs]
  | _ => []

end Line

/-- The variables of all loops of a program. -/
def loopVars (lines : List Line) : List Text := lines.filterMap Line.loopVar?

/-- The variables of the loops in whose bodies the line of an index lies. -/
def enclosing (lines : List Line) (j : Nat) : List Text :=
  (List.range j).filterMap fun i => lines[i]?.bind fun l =>
    if j < (blockAt lines (i + 1) l.indent).2 then l.loopVar? else none

/-- **The program is ordinary.** -/
@[mk_iff]
structure Ordinary (lines : List Line) : Prop where
  /-- Nothing is assigned to a loop variable. -/
  target : ∀ l ∈ lines, ∀ name ∈ l.target?, name ∉ loopVars lines
  /-- No loop lies in the body of a loop over the same variable. -/
  loop : ∀ j (h : j < lines.length), ∀ v ∈ lines[j].loopVar?, v ∉ enclosing lines j
  /-- A loop variable that is a word of an expression is the variable of a loop in whose body the
  expression lies. -/
  read : ∀ j (h : j < lines.length), ∀ e ∈ lines[j].expressions,
    Reads (loopVars lines) (enclosing lines j) e

instance (loops active : List Text) (e : Text) : Decidable (Reads loops active e) := by
  unfold Reads
  infer_instance

instance (lines : List Line) : Decidable (Ordinary lines) :=
  decidable_of_iff _ (ordinary_iff lines).symm

namespace Line

section Fields

variable {l : Line} {v : Text}

theorem loopVar?_eq_some_iff :
    l.loopVar? = some v ↔ ∃ range, l.statement = .ok (.loop v range) := by
  unfold loopVar?
  split
  · next var range hs => simp [hs]
  · next hne => simpa using fun range hs => hne v range hs

theorem isBlank_of_loopVar? (h : l.loopVar? = some v) : l.isBlank = false := by
  obtain ⟨range, hs⟩ := loopVar?_eq_some_iff.mp h
  exact isBlank_of_statement hs (by simp)

theorem loopVar?_of_isElse (h : l.isElse = true) : l.loopVar? = none := by
  rw [loopVar?, statement_of_isElse h]

end Fields

end Line

theorem isWord_of_mem_loopVars {lines : List Line} : ∀ v ∈ loopVars lines, v.IsWord := by
  intro v hv
  obtain ⟨l, -, hl⟩ := List.mem_filterMap.mp hv
  obtain ⟨range, hs⟩ := Line.loopVar?_eq_some_iff.mp hl
  exact Statement.takenFrom_of_ofLine hs

/-! ### Loops around a line -/

/-- Among the lines before a line there is the header of a loop over the variable with the line in
its body. -/
def InLoop (before : List Line) (y : Line) (v : Text) : Prop :=
  ∃ pre x mid, before = pre ++ x :: mid ∧ x.loopVar? = some v ∧
    (∀ z ∈ mid, z.isInside x.indent = true) ∧ y.isInside x.indent = true

theorem lt_length_takeWhile_iff {α : Type} {p : α → Bool} {xs ys : List α} {y : α} :
    xs.length < ((xs ++ y :: ys).takeWhile p).length ↔ (∀ x ∈ xs, p x = true) ∧ p y = true := by
  induction xs with
  | nil => by_cases hy : p y = true <;> simp [hy]
  | cons x xs ih =>
    rw [List.cons_append, List.length_cons]
    by_cases hx : p x = true
    · rw [List.takeWhile_cons_of_pos hx, List.length_cons, Nat.add_lt_add_iff_right, ih]
      simp [hx]
    · rw [List.takeWhile_cons_of_neg hx]
      simp [hx]

/-- A line lies in the body of a header before it if all lines from the header on do. -/
theorem lt_blockAt_iff {pre mid after : List Line} {x y : Line} {p : Nat} :
    (pre ++ x :: mid).length < (blockAt (pre ++ x :: (mid ++ y :: after)) (pre.length + 1) p).2 ↔
      (∀ z ∈ mid, z.isInside p = true) ∧ y.isInside p = true := by
  have hlength : (pre ++ x :: mid).length = pre.length + 1 + mid.length := by
    simp only [List.length_append, List.length_cons]
    omega
  rw [blockAt_append, hlength, Nat.add_lt_add_iff_left]
  exact lt_length_takeWhile_iff

theorem mem_enclosing_iff {before after : List Line} {y : Line} {v : Text} :
    v ∈ enclosing (before ++ y :: after) before.length ↔ InLoop before y v := by
  simp only [enclosing, List.mem_filterMap, List.mem_range, Option.bind_eq_some_iff]
  constructor
  · rintro ⟨i, hi, x, hx, hv⟩
    split_ifs at hv with hlt
    rw [List.getElem?_append_left hi] at hx
    obtain ⟨pre, mid, rfl, rfl⟩ := exists_append_of_getElem? hx
    rw [List.append_assoc, List.cons_append] at hlt
    obtain ⟨hmid, hy⟩ := lt_blockAt_iff.mp hlt
    exact ⟨pre, x, mid, rfl, hv, hmid, hy⟩
  · rintro ⟨pre, x, mid, rfl, hv, hmid, hy⟩
    refine ⟨pre.length, by simp, x, by simp, ?_⟩
    rw [List.append_assoc, List.cons_append, if_pos (lt_blockAt_iff.mpr ⟨hmid, hy⟩)]
    exact hv

namespace InLoop

variable {skipped before : List Line} {l y : Line} {v : Text}

theorem append_left (skipped : List Line) (h : InLoop before y v) :
    InLoop (skipped ++ before) y v := by
  obtain ⟨pre, x, mid, rfl, hx⟩ := h
  exact ⟨skipped ++ pre, x, mid, (List.append_assoc _ _ _).symm, hx⟩

/-- A header whose body all the lines are in. -/
theorem of_header (hv : l.loopVar? = some v) (hbefore : ∀ z ∈ before, z.isInside l.indent = true)
    (hy : y.isInside l.indent = true) : InLoop (l :: before) y v :=
  ⟨[], l, before, rfl, hv, hbefore, hy⟩

/-- Loops that end before the lines begin do not matter. -/
theorem of_append (h : InLoop (skipped ++ before) y v)
    (hends : ∀ x ∈ skipped, x.loopVar? = some v →
      ∀ z ∈ (before ++ [y]).head?, ¬ z.isInside x.indent = true) : InLoop before y v := by
  obtain ⟨pre, x, mid, heq, hv, hmid, hy⟩ := h
  rcases List.append_eq_append_iff.mp heq with ⟨rest, rfl, rfl⟩ | ⟨rest, rfl, hrest⟩
  · exact ⟨rest, x, mid, rfl, hv, hmid, hy⟩
  rcases rest with _ | ⟨x', rest⟩
  · exact ⟨[], x, mid, hrest.symm, hv, hmid, hy⟩
  obtain ⟨rfl, rfl⟩ := List.cons.inj hrest
  -- The header is before the lines, and its body would have to reach into them.
  have hnot := hends x (by simp) hv
  rcases before with _ | ⟨z, before⟩
  · exact absurd hy (hnot y rfl)
  · exact absurd (hmid z (by simp)) (hnot z rfl)

end InLoop

/-! ### Lines of a block -/

/-- **What an ordinary program is for the lines of a block**, which is in the bodies of loops over
the active variables; `loops` are the variables of all loops. -/
structure Suited (loops active : List Text) (ls : List Line) : Prop where
  target : ∀ l ∈ ls, ∀ name ∈ l.target?, name ∉ loops
  loop : ∀ before y after, ls = before ++ y :: after → ∀ v ∈ y.loopVar?,
    v ∈ loops ∧ v ∉ active ∧ ¬ InLoop before y v
  read : ∀ before y after, ls = before ++ y :: after → ∀ e ∈ y.expressions, ∀ v ∈ e.words,
    v ∈ loops → v ∈ active ∨ InLoop before y v

theorem suited_of_ordinary {lines : List Line} (h : Ordinary lines) :
    Suited (loopVars lines) [] lines := by
  have hat : ∀ before y after, lines = before ++ y :: after →
      ∃ hj : before.length < lines.length, lines[before.length] = y ∧
        ∀ v, v ∈ enclosing lines before.length ↔ InLoop before y v := by
    rintro before y after rfl
    exact ⟨by simp, by simp, fun v => mem_enclosing_iff⟩
  refine ⟨h.target, fun before y after heq v hv => ?_, fun before y after heq e he v hw hl => ?_⟩
  · obtain ⟨hj, rfl, henclosing⟩ := hat before y after heq
    have hmem : lines[before.length] ∈ lines := List.getElem_mem hj
    have hnot := h.loop before.length hj v hv
    rw [henclosing] at hnot
    exact ⟨List.mem_filterMap.mpr ⟨_, hmem, hv⟩, List.not_mem_nil, hnot⟩
  · obtain ⟨hj, rfl, henclosing⟩ := hat before y after heq
    exact .inr ((henclosing v).mp (h.read before.length hj e he v hw hl))

namespace Suited

variable {loops active : List Text} {l e : Line} {ls skipped rest body : List Line} {v : Text}

theorem nil : Suited loops active [] :=
  ⟨fun _ h => absurd h List.not_mem_nil, fun before _ _ h => by simp at h,
    fun before _ _ h => by simp at h⟩

theorem of_isPrefix (h : Suited loops active ls) (hfront : body <+: ls) :
    Suited loops active body := by
  obtain ⟨rest, rfl⟩ := hfront
  refine ⟨fun l hl => h.target l (List.mem_append_left rest hl), ?_, ?_⟩
  · rintro before y after rfl
    exact h.loop before y (after ++ rest) (by simp)
  · rintro before y after rfl
    exact h.read before y (after ++ rest) (by simp)

/-- **Lines after loops that have ended.** -/
theorem drop (h : Suited loops active (skipped ++ rest))
    (hends : ∀ x ∈ skipped, x.loopVar? ≠ none → ∀ z ∈ rest.head?, ¬ z.isInside x.indent = true) :
    Suited loops active rest := by
  refine ⟨fun l hl => h.target l (List.mem_append_right skipped hl), ?_, ?_⟩
  · rintro before y after rfl v hv
    obtain ⟨hl, ha, hnot⟩ := h.loop (skipped ++ before) y after (by simp) v hv
    exact ⟨hl, ha, fun hin => hnot (hin.append_left skipped)⟩
  · rintro before y after rfl e he v hw hl
    refine (h.read (skipped ++ before) y after (by simp) e he v hw hl).imp_right fun hin => ?_
    refine hin.of_append fun x hx hv z hz => hends x hx (by simp [hv]) z ?_
    rcases before with _ | ⟨b, before⟩ <;> exact hz

theorem tail (h : Suited loops active (l :: ls)) (hl : l.loopVar? = none) :
    Suited loops active ls := by
  have hdrop : Suited loops active ([l] ++ ls) := h
  exact hdrop.drop fun x hx hv => absurd (List.mem_singleton.mp hx ▸ hl) hv

/-- The lines after the block of a header: neither its loop nor one in its block goes on there. -/
theorem past (h : Suited loops active (l :: ls)) : Suited loops active (l.past ls) := by
  have hdrop : Suited loops active ((l :: l.block ls) ++ l.past ls) := by
    rwa [List.cons_append, Line.block_append_past]
  refine hdrop.drop fun x hx hv z hz hin => ?_
  obtain ⟨zs, hzs⟩ := List.head?_eq_some_iff.mp hz
  have hnot := Line.not_inside_of_past hzs
  rcases List.mem_cons.mp hx with rfl | hx
  · exact hnot hin
  · obtain ⟨v, hv⟩ := Option.ne_none_iff_exists'.mp hv
    have hdeep := Line.lt_indent_of_isInside (Line.isInside_of_mem_block hx)
      (Line.isBlank_of_loopVar? hv)
    exact hnot (Line.isInside_of_le hdeep.le hin)

/-- **The body of a loop**, with the loop at work. -/
theorem enter (h : Suited loops active (l :: ls)) (hv : l.loopVar? = some v) :
    Suited loops (v :: active) (l.block ls) := by
  have hblock : Suited loops active (l :: l.block ls) := by
    refine h.of_isPrefix ⟨l.past ls, ?_⟩
    rw [List.cons_append, Line.block_append_past]
  have hinside : ∀ before y after, l.block ls = before ++ y :: after →
      (∀ z ∈ before, z.isInside l.indent = true) ∧ y.isInside l.indent = true := by
    intro before y after heq
    have hall : ∀ z ∈ before ++ y :: after, z.isInside l.indent = true :=
      fun z hz => Line.isInside_of_mem_block (heq ▸ hz)
    exact ⟨fun z hz => hall z (List.mem_append_left _ hz), hall y (by simp)⟩
  refine ⟨fun x hx => hblock.target x (List.mem_cons_of_mem l hx), ?_, ?_⟩
  · intro before y after heq w hw
    obtain ⟨hbefore, hy⟩ := hinside before y after heq
    obtain ⟨hl, ha, hnot⟩ := hblock.loop (l :: before) y after (by rw [heq, List.cons_append]) w hw
    refine ⟨hl, fun hmem => ?_, fun hin => hnot (hin.append_left [l])⟩
    rcases List.mem_cons.mp hmem with rfl | hmem
    · exact hnot (.of_header hv hbefore hy)
    · exact ha hmem
  · intro before y after heq e he w hw hl
    rcases hblock.read (l :: before) y after (by rw [heq, List.cons_append]) e he w hw hl
      with ha | ⟨pre, x, mid, hpre, hx, hmid, hy⟩
    · exact .inl (List.mem_cons_of_mem v ha)
    rcases pre with _ | ⟨x', pre⟩
    · obtain ⟨rfl, rfl⟩ := List.cons.inj hpre
      obtain rfl : v = w := Option.some.inj (hv.symm.trans hx)
      exact .inl List.mem_cons_self
    · obtain ⟨rfl, rfl⟩ := List.cons.inj hpre
      exact .inr ⟨pre, x, mid, rfl, hx, hmid, hy⟩

end Suited

/-! ### The outline of an ordinary program -/

section Outline

variable {loops active : List Text} {l : Line} {ls : List Line}

theorem Suited.elseBlock (h : Suited loops active (l :: ls)) :
    Suited loops active (l.elseBlock ls) := by
  rcases he : l.elseLine? ls with _ | e
  · rw [Line.elseBlock_of_none he]
    exact .nil
  · obtain ⟨es, he⟩ := Line.elseOf_of_some he
    have hpast := h.past
    rw [he.past] at hpast
    rw [he.elseBlock_eq]
    exact (hpast.tail (Line.loopVar?_of_isElse he.isElse)).of_isPrefix (List.takeWhile_prefix _)

theorem Suited.pastElse (h : Suited loops active (l :: ls)) :
    Suited loops active (l.pastElse ls) := by
  rcases he : l.elseLine? ls with _ | e
  · rw [Line.pastElse_of_none he]
    exact h.past
  · obtain ⟨es, he⟩ := Line.elseOf_of_some he
    have hpast := h.past
    rw [he.past] at hpast
    rw [he.pastElse_eq]
    exact hpast.past

theorem Suited.after (h : Suited loops active (l :: ls)) : Suited loops active (l.after ls) := by
  unfold Line.after
  split
  · exact h.past
  · exact h.pastElse
  · next hloop _ =>
    refine h.tail ?_
    unfold Line.loopVar?
    split
    · next var range hs => exact absurd hs (hloop var range)
    · rfl

/-- The node of a line is tame if the nodes of its blocks are. -/
theorem tame_node (h : Suited loops active (l :: ls))
    (hblock : ∀ active', Suited loops active' (l.block ls) →
      Node.TameAll loops active' (outline (l.block ls)))
    (helse : Suited loops active (l.elseBlock ls) →
      Node.TameAll loops active (outline (l.elseBlock ls))) :
    Node.Tame loops active (l.node ls) := by
  have hreads : ∀ e ∈ l.expressions, Reads loops active e := by
    intro e he v hw hl
    rcases h.read [] l ls rfl e he v hw hl with ha | ⟨pre, x, mid, hnil, -⟩
    · exact ha
    · simp at hnil
  have htarget : ∀ name ∈ l.target?, name ∉ loops := h.target l List.mem_cons_self
  unfold Line.node
  split
  · next fault hs => simp only [Node.Tame]
  · next hs => simp only [Node.Tame]
  · next expr hs =>
    rw [Node.Tame]
    exact hreads expr (by simp [Line.expressions, hs])
  · next target value hs =>
    rw [Node.Tame]
    exact ⟨htarget target (by simp [Line.target?, hs]),
      hreads value (by simp [Line.expressions, hs])⟩
  · next var range hs =>
    have hvar : l.loopVar? = some var := Line.loopVar?_eq_some_iff.mpr ⟨range, hs⟩
    obtain ⟨hl, ha, -⟩ := h.loop [] l ls rfl var hvar
    rw [Node.Tame]
    exact ⟨hl, ha, hblock _ (h.enter hvar)⟩
  · next cond hs =>
    have hnone : l.loopVar? = none := by simp [Line.loopVar?, hs]
    have hthen : Suited loops active (l.block ls) :=
      (h.tail hnone).of_isPrefix (List.takeWhile_prefix _)
    rw [Node.Tame]
    exact ⟨hreads _ (by simp [Line.expressions, hs]), hreads _ (by simp [Line.expressions, hs]),
      hblock _ hthen, helse h.elseBlock⟩
  · next text hs => simp only [Node.Tame]

/-- **The outline of suited lines is tame.** -/
theorem tameAll_outline (h : Suited loops active ls) : Node.TameAll loops active (outline ls) := by
  -- On the number of lines: the blocks of a line and what comes after it are shorter.
  induction hn : ls.length using Nat.strong_induction_on generalizing ls active with
  | _ n ih =>
    subst hn
    rcases ls with _ | ⟨l, ls⟩
    · rw [outline, List.foldr_nil, List.map_nil, Node.TameAll]
      trivial
    have hshort : ∀ (active' : List Text) (ls' : List Line), ls'.length ≤ ls.length →
        Suited loops active' ls' → Node.TameAll loops active' (outline ls') :=
      fun active' ls' hle hs => ih _ (Nat.lt_succ_of_le hle) hs rfl
    rw [outline_cons, Node.TameAll]
    refine ⟨tame_node h (fun active' => hshort active' _ (l.length_block_le ls))
      (hshort active _ (l.length_elseBlock_le ls)), ?_⟩
    exact hshort active _ (l.length_after_le ls) h.after

end Outline

/-! ### The main statement -/

/-- **Ordinary programs need one environment only.** A source that never assigns to a loop variable,
has no loop in the body of one over the same variable, and reads no loop variable outside the loops
over it comes to the same, under every limit on the steps and without one, as with one environment,
in which an assignment sets its name and a turn of a loop sets the loop variable. -/
theorem execute_eq_flat (ν : Type) [NumberSystem ν] {source : Text}
    (h : Ordinary (Line.ofSource source)) (limit : Option Nat) :
    (execute ν source limit).result = executeFlat ν source limit := by
  have htame := tameAll_outline (suited_of_ordinary h)
  have hfollows : Follows (loopVars (Line.ofSource source)) [] .empty
      (effect (runLines limit (Line.ofSource source) (.initial : Machine ν)))
      (Node.storeAll limit (outline (Line.ofSource source)) Store.initial) :=
    simulates_execAll isWord_of_mem_loopVars _ _ htame .initial Store.initial Agrees.initial
  rw [execute_eq, result_ofResult_eq_map, executeFlat, hfollows.output]

/-- A variable that is read after its loop tells the two apart: the block that bound it is gone, and
the one environment still has its last value. -/
example :
    let source := "for i in range(2):\n  x = i\nprint(i)".toList
    (execute Float source none).result = .error (.evaluation (.unbound ['i'])) ∧
      executeFlat Float source none = .ok [['1']] := by decide +kernel

/-- Loops inside each other and after each other over the same variable, and a name that lives
through all of them. -/
def sums : String :=
  "n = 0\nfor i in range(3):\n for j in range(2):\n  n = n + i * j\nfor i in range(2):\n" ++
    " if i > 0:\n  print(i - n)\nprint('sum: ' + n)"

theorem execute_eq_flat_sums : Ordinary (Line.ofSource sums.toList) ∧
    (execute Float sums.toList (some 60)).result = executeFlat Float sums.toList (some 60) ∧
    executeFlat Float sums.toList (some 60) = .ok ["-2".toList, "sum: 3".toList] := by
  have hordinary : Ordinary (Line.ofSource sums.toList) := by decide +kernel
  have hresult : executeFlat Float sums.toList (some 60) =
      .ok ["-2".toList, "sum: 3".toList] := by decide +kernel
  exact ⟨hordinary, execute_eq_flat Float hordinary (some 60), hresult⟩

end LessonScript
