import LessonScript.Outline
import Mathlib.Data.List.TakeWhile

/-! # The outline, line by line

The outline is built from the last line to the first; a run goes through the lines the other way,
with a cursor. Here the outline is read in the order of the run: `outline_cons` gives the node of
the first line of a program and the lines at which the next node begins.

* `Line.block l ls`: the block of a header `l` with the lines `ls` after it; `Line.past l ls`: the
  lines after the block.
* `Line.elseLine? l ls`: the `else:` that follows the block at the indentation of `l`;
  `Line.elseBlock l ls`: its block; `Line.pastElse l ls`: the lines after both.
* `Line.node l ls`: the node of `l`; `Line.after l ls`: the lines after that node. -/

namespace LessonScript

/-! ### Runs of elements with two nested properties -/

section Nested

variable {α : Type} {p q : α → Bool} (h : ∀ a, p a = true → q a = true)
include h

theorem takeWhile_takeWhile_of_imp (xs : List α) :
    (xs.takeWhile q).takeWhile p = xs.takeWhile p := by
  induction xs with
  | nil => rfl
  | cons a xs ih =>
    by_cases hp : p a = true
    · rw [List.takeWhile_cons_of_pos (h a hp), List.takeWhile_cons_of_pos hp, ih,
        List.takeWhile_cons_of_pos hp]
    · rw [List.takeWhile_cons_of_neg (l := xs) hp]
      by_cases hq : q a = true
      · rw [List.takeWhile_cons_of_pos hq, List.takeWhile_cons_of_neg hp]
      · rw [List.takeWhile_cons_of_neg hq, List.takeWhile_nil]

theorem dropWhile_takeWhile_of_imp (xs : List α) :
    (xs.takeWhile q).dropWhile p = (xs.dropWhile p).takeWhile q := by
  induction xs with
  | nil => rfl
  | cons a xs ih =>
    by_cases hp : p a = true
    · rw [List.takeWhile_cons_of_pos (h a hp), List.dropWhile_cons_of_pos hp, ih,
        List.dropWhile_cons_of_pos hp]
    · rw [List.dropWhile_cons_of_neg (l := xs) hp]
      by_cases hq : q a = true
      · rw [List.takeWhile_cons_of_pos hq, List.dropWhile_cons_of_neg hp]
      · rw [List.takeWhile_cons_of_neg hq, List.dropWhile_nil]

theorem dropWhile_dropWhile_of_imp (xs : List α) :
    (xs.dropWhile p).dropWhile q = xs.dropWhile q := by
  induction xs with
  | nil => rfl
  | cons a xs ih =>
    by_cases hp : p a = true
    · rw [List.dropWhile_cons_of_pos hp, List.dropWhile_cons_of_pos (h a hp), ih]
    · rw [List.dropWhile_cons_of_neg hp]

end Nested

/-! ### The parts of a statement -/

namespace Line

/-- The block of a header, from the lines after the header. -/
def block (l : Line) (ls : List Line) : List Line := ls.takeWhile (isInside l.indent)

/-- The lines after the block of a header. -/
def past (l : Line) (ls : List Line) : List Line := ls.dropWhile (isInside l.indent)

/-- The line is the `else:` of a header at the given indentation, if it comes after its block. -/
def isElseAt (parent : Nat) (e : Line) : Bool := e.isElse && e.indent == parent

/-- The `else:` line that follows the block of a header at its indentation. -/
def elseLine? (l : Line) (ls : List Line) : Option Line :=
  (l.past ls).head?.filter (isElseAt l.indent)

/-- The block of the `else:` line of a header, empty without such a line. -/
def elseBlock (l : Line) (ls : List Line) : List Line :=
  if (l.elseLine? ls).isSome then l.block (l.past ls).tail else []

/-- The lines after the block of a header and that of its `else:`. -/
def pastElse (l : Line) (ls : List Line) : List Line :=
  if (l.elseLine? ls).isSome then l.past (l.past ls).tail else l.past ls

def node (l : Line) (ls : List Line) : Node :=
  match l.statement with
  | .error fault => .malformed l.number fault
  | .ok .skip => .skip l.number
  | .ok (.print expr) => .print l.number expr
  | .ok (.assign target value) => .assign l.number target value
  | .ok (.loop var range) =>
    .loop l.number var range (l.block ls).length (outline (l.block ls))
  | .ok (.branch cond) =>
    .branch l.number cond (outline (l.block ls)) ((l.elseLine? ls).map Line.number)
      (outline (l.elseBlock ls))
  | .ok (.unrecognized text) => .unrecognized l.number text

def after (l : Line) (ls : List Line) : List Line :=
  match l.statement with
  | .ok (.loop _ _) => l.past ls
  | .ok (.branch _) => l.pastElse ls
  | _ => ls

theorem elseLine?_of_pos {l e : Line} {ls es : List Line} (hp : l.past ls = e :: es)
    (he : e.isElseAt l.indent = true) : l.elseLine? ls = some e := by
  rw [elseLine?, hp, List.head?_cons, Option.filter_some, if_pos he]

theorem elseLine?_of_neg {l e : Line} {ls es : List Line} (hp : l.past ls = e :: es)
    (he : ¬ e.isElseAt l.indent = true) : l.elseLine? ls = none := by
  rw [elseLine?, hp, List.head?_cons, Option.filter_some, if_neg he]

theorem elseLine?_of_nil {l : Line} {ls : List Line} (hp : l.past ls = []) :
    l.elseLine? ls = none := by
  rw [elseLine?, hp]
  rfl

theorem elseBlock_of_none {l : Line} {ls : List Line} (h : l.elseLine? ls = none) :
    l.elseBlock ls = [] := by
  rw [elseBlock, h]
  rfl

theorem pastElse_of_none {l : Line} {ls : List Line} (h : l.elseLine? ls = none) :
    l.pastElse ls = l.past ls := by
  rw [pastElse, h]
  rfl

theorem elseBlock_of_pos {l e : Line} {ls es : List Line} (hp : l.past ls = e :: es)
    (he : e.isElseAt l.indent = true) : l.elseBlock ls = l.block es := by
  rw [elseBlock, elseLine?_of_pos hp he, hp]
  rfl

theorem pastElse_of_pos {l e : Line} {ls es : List Line} (hp : l.past ls = e :: es)
    (he : e.isElseAt l.indent = true) : l.pastElse ls = l.past es := by
  rw [pastElse, elseLine?_of_pos hp he, hp]
  rfl

section Related

variable {R : List Line → List Line → Prop} {l l' : Line} {ls ls' : List Line}

/-- What two headers make of an `else:` if neither has one. -/
theorem related_of_no_else (nil : R [] []) (hpast : R (l.past ls) (l'.past ls'))
    (h : l.elseLine? ls = none) (h' : l'.elseLine? ls' = none) :
    R (l.elseBlock ls) (l'.elseBlock ls') ∧ R (l.pastElse ls) (l'.pastElse ls') := by
  rw [elseBlock_of_none h, elseBlock_of_none h', pastElse_of_none h, pastElse_of_none h']
  exact ⟨nil, hpast⟩

/-- The lines after a line are those after its block, those after its `else:`, or the next ones. -/
theorem related_after (hs : l.statement = l'.statement) (hpast : R (l.past ls) (l'.past ls'))
    (hpastElse : R (l.pastElse ls) (l'.pastElse ls')) (hrest : R ls ls') :
    R (l.after ls) (l'.after ls') := by
  unfold after
  rw [← hs]
  split
  · exact hpast
  · exact hpastElse
  · exact hrest

end Related

theorem block_append_past (l : Line) (ls : List Line) : l.block ls ++ l.past ls = ls :=
  List.takeWhile_append_dropWhile

/-- **The lines after a branch**: its block, the `else:` if there is one, the block of that, and
the lines after both. -/
theorem branch_append (l : Line) (ls : List Line) :
    l.block ls ++ ((l.elseLine? ls).toList ++ (l.elseBlock ls ++ l.pastElse ls)) = ls := by
  rcases hp : l.past ls with _ | ⟨e, es⟩
  · have hn := elseLine?_of_nil hp
    rw [hn, elseBlock_of_none hn, pastElse_of_none hn]
    exact block_append_past l ls
  by_cases he : e.isElseAt l.indent = true
  · rw [elseLine?_of_pos hp he, elseBlock_of_pos hp he, pastElse_of_pos hp he,
      block_append_past]
    exact (congrArg _ hp.symm).trans (block_append_past l ls)
  · have hn := elseLine?_of_neg hp he
    rw [hn, elseBlock_of_none hn, pastElse_of_none hn]
    exact block_append_past l ls

theorem length_block_le (l : Line) (ls : List Line) : (l.block ls).length ≤ ls.length :=
  (List.takeWhile_sublist _).length_le

theorem length_past_le (l : Line) (ls : List Line) : (l.past ls).length ≤ ls.length :=
  (List.dropWhile_sublist _).length_le

theorem length_branch (l : Line) (ls : List Line) :
    (l.block ls).length + ((l.elseLine? ls).toList.length +
      ((l.elseBlock ls).length + (l.pastElse ls).length)) = ls.length := by
  have h := congrArg List.length (branch_append l ls)
  simpa only [List.length_append] using h

theorem length_elseBlock_le (l : Line) (ls : List Line) :
    (l.elseBlock ls).length ≤ ls.length := by
  have := length_branch l ls
  omega

theorem length_after_le (l : Line) (ls : List Line) : (l.after ls).length ≤ ls.length := by
  unfold after
  split
  · exact length_past_le l ls
  · have := length_branch l ls
    omega
  · exact le_rfl

/-! ### Blank lines and `else:` lines -/

theorem trim_of_all_isBlank {t : Text} (h : t.all LessonScript.isBlank = true) : t.trim = [] := by
  have hs : t.trimStart = [] := by
    rw [Text.trimStart, List.dropWhile_eq_nil_iff]
    exact List.all_eq_true.mp h
  rw [Text.trim, hs]
  rfl

theorem statement_of_isBlank {l : Line} (h : l.isBlank = true) : l.statement = .ok .skip := by
  rw [statement, Statement.ofLine, trim_of_all_isBlank h]

theorem statement_of_isElse {l : Line} (h : l.isElse = true) :
    l.statement = .ok (.unrecognized elseMark) := by
  have hc : l.text.trim = elseMark := by simpa [isElse, content] using h
  rw [statement, Statement.ofLine, hc]
  decide

theorem isBlank_of_isElse {l : Line} (h : l.isElse = true) : l.isBlank = false := by
  by_contra hb
  have hs := statement_of_isBlank (by simpa using hb : l.isBlank = true)
  rw [statement_of_isElse h] at hs
  cases hs

theorem isElse_of_statement {l : Line} {s : Statement} (hs : l.statement = .ok s)
    (hne : s ≠ .unrecognized elseMark) : l.isElse = false := by
  by_contra h
  rw [statement_of_isElse (by simpa using h)] at hs
  exact hne (Except.ok.inj hs).symm

theorem isBlank_of_statement {l : Line} {s : Statement} (hs : l.statement = .ok s)
    (hne : s ≠ .skip) : l.isBlank = false := by
  by_contra h
  rw [statement_of_isBlank (by simpa using h)] at hs
  exact hne (Except.ok.inj hs).symm

/-! ### Lines inside a block -/

theorem isInside_of_isBlank {p : Nat} (l : Line) (h : l.isBlank = true) : l.isInside p = true := by
  rw [isInside, h, Bool.true_or]

theorem isInside_of_lt_indent {l : Line} {p : Nat} (h : p < l.indent) : l.isInside p = true := by
  simp [isInside, h]

/-- A line of a block that is not blank is deeper than the header of the block. -/
theorem lt_indent_of_isInside {l : Line} {p : Nat} (h : l.isInside p = true)
    (hb : l.isBlank = false) : p < l.indent := by
  simpa [isInside, hb] using h

theorem indent_le_of_not_inside {l : Line} {p : Nat} (h : ¬ l.isInside p = true) :
    l.indent ≤ p := by
  by_contra hp
  exact h (isInside_of_lt_indent (Nat.not_le.mp hp))

theorem isInside_of_le {p q : Nat} (hpq : p ≤ q) {l : Line} (h : l.isInside q = true) :
    l.isInside p = true := by
  simp only [isInside, Bool.or_eq_true, decide_eq_true_eq] at h ⊢
  exact h.imp_right fun h => by omega

theorem isInside_of_mem_block {l x : Line} {ls : List Line} (h : x ∈ l.block ls) :
    x.isInside l.indent = true := List.mem_takeWhile_imp h

/-- The first line after a block is neither blank nor deeper than the header. -/
theorem not_inside_of_past {l x : Line} {ls rest : List Line} (h : l.past ls = x :: rest) :
    ¬ x.isInside l.indent = true := by
  have hx := List.head?_dropWhile_not (isInside l.indent) ls
  rw [show ls.dropWhile (isInside l.indent) = x :: rest from h] at hx
  simpa using hx

end Line

/-! ### The lines of a source -/

theorem number_ofSource {source : Text} {i : Nat} {l : Line}
    (h : (Line.ofSource source)[i]? = some l) : l.number = i + 1 := by
  simp only [Line.ofSource, List.getElem?_map, List.getElem?_zipIdx] at h
  rcases ht : (source.splitOn '\n')[i]? with _ | t <;> rw [ht] at h
  · cases h
  · simp only [Option.map_some, Option.some.injEq] at h
    rw [← h]
    simp

theorem map_text_ofSource (source : Text) :
    (Line.ofSource source).map Line.text = source.splitOn '\n' := by
  have hfst : ∀ xs : List Text, (xs.zipIdx.map fun (text, i) => (⟨i + 1, text⟩ : Line)).map Line.text =
      xs := by
    intro xs
    rw [List.map_map]
    exact List.zipIdx_map_fst 0 xs
  exact hfst _

theorem exists_append_of_getElem? {α : Type} {xs : List α} {i : Nat} {x : α} (h : xs[i]? = some x) :
    ∃ pre post, xs = pre ++ x :: post ∧ pre.length = i := by
  obtain ⟨hi, rfl⟩ := List.getElem?_eq_some_iff.mp h
  refine ⟨xs.take i, xs.drop (i + 1), ?_, List.length_take_of_le hi.le⟩
  rw [← List.drop_eq_getElem_cons hi, List.take_append_drop]

/-- The block after a line, and the place after it. -/
theorem blockAt_append (pre ls : List Line) (l : Line) (p : Nat) :
    blockAt (pre ++ l :: ls) (pre.length + 1) p =
      (ls.takeWhile (Line.isInside p),
        pre.length + 1 + (ls.takeWhile (Line.isInside p)).length) := by
  have hstart : min (pre.length + 1) (pre ++ l :: ls).length = pre.length + 1 := by
    simp only [List.length_append, List.length_cons]
    omega
  have hdrop : (pre ++ l :: ls).drop (pre.length + 1) = ls := by simp
  simp only [blockAt, hstart, hdrop]

/-! ### Entries of a program -/

namespace Entry

def ofLines (ls : List Line) : List Entry := ls.foldr cons []

theorem outline_eq (ls : List Line) : outline ls = (ofLines ls).map node := rfl

theorem ofLines_cons (l : Line) (ls : List Line) : ofLines (l :: ls) = cons l (ofLines ls) := rfl

theorem isInside_of_lt {p q : Nat} (hpq : p < q) (e : Entry) (h : e.isInside q = true) :
    e.isInside p = true := by
  simp only [isInside, Bool.or_eq_true, decide_eq_true_eq] at h ⊢
  exact h.imp_right fun h => by omega

theorem foldl_lines (es : List Entry) (n : Nat) :
    es.foldl (fun n e => n + e.lines) n = n + lineCount es := by
  induction es generalizing n with
  | nil => rfl
  | cons e es ih =>
    have h0 : lineCount (e :: es) = 0 + e.lines + lineCount es := ih (0 + e.lines)
    rw [List.foldl_cons, ih, h0]
    omega

theorem lineCount_cons (e : Entry) (es : List Entry) :
    lineCount (e :: es) = e.lines + lineCount es := by
  rw [lineCount, List.foldl_cons, foldl_lines]; omega

theorem cutElse_of_pos {parent : Nat} {e : Entry} {es : List Entry}
    (h : (e.isElse && e.indent == parent) = true) :
    cutElse parent (e :: es) = ⟨some e.node.line, (cutBlock parent es).1,
      lineCount (cutBlock parent es).1 + 1, (cutBlock parent es).2⟩ := by
  rw [cutElse, if_pos h]

theorem cutElse_of_neg {parent : Nat} {e : Entry} {es : List Entry}
    (h : ¬ (e.isElse && e.indent == parent) = true) :
    cutElse parent (e :: es) = ⟨none, [], 0, e :: es⟩ := by
  rw [cutElse, if_neg h]

theorem isInside_of_else {p q : Nat} (hpq : p < q) {e : Entry}
    (h : (e.isElse && e.indent == q) = true) : e.isInside p = true := by
  simp only [Bool.and_eq_true, beq_iff_eq] at h
  simp only [isInside, Bool.or_eq_true, decide_eq_true_eq]
  exact Or.inr (by omega)

/-- The second half of a branch inside a block is found inside the block. -/
theorem cutElse_takeWhile {p q : Nat} (hpq : p < q) (es : List Entry) :
    cutElse q (es.takeWhile (isInside p)) =
      { cutElse q es with rest := (cutElse q es).rest.takeWhile (isInside p) } := by
  rcases es with _ | ⟨e, es⟩
  · rfl
  by_cases he : (e.isElse && e.indent == q) = true
  · rw [List.takeWhile_cons_of_pos (isInside_of_else hpq he), cutElse_of_pos he, cutElse_of_pos he]
    simp only [cutBlock, takeWhile_takeWhile_of_imp (isInside_of_lt hpq),
      dropWhile_takeWhile_of_imp (isInside_of_lt hpq)]
  · rw [cutElse_of_neg he]
    by_cases hp : e.isInside p = true
    · rw [List.takeWhile_cons_of_pos hp, cutElse_of_neg he]
    · rw [List.takeWhile_cons_of_neg hp, cutElse]

theorem dropWhile_rest_cutElse {p q : Nat} (hpq : p < q) (es : List Entry) :
    (cutElse q es).rest.dropWhile (isInside p) = es.dropWhile (isInside p) := by
  rcases es with _ | ⟨e, es⟩
  · rfl
  by_cases he : (e.isElse && e.indent == q) = true
  · rw [cutElse_of_pos he, List.dropWhile_cons_of_pos (isInside_of_else hpq he)]
    exact dropWhile_dropWhile_of_imp (isInside_of_lt hpq) es
  · rw [cutElse_of_neg he]

/-! ### Blocks of entries are the entries of blocks -/

theorem exists_cons_eq (l : Line) (es : List Entry) :
    ∃ below n rest, cons l es = ofLine l below n :: rest := by
  unfold cons
  split <;> exact ⟨_, _, _, rfl⟩

theorem takeWhile_cons {p : Nat} {l : Line} (h : l.isInside p = true) (es : List Entry) :
    (cons l es).takeWhile (isInside p) = cons l (es.takeWhile (isInside p)) := by
  have hcons : ∀ below n es, (ofLine l below n :: es).takeWhile (isInside p) =
      ofLine l below n :: es.takeWhile (isInside p) := fun _ _ _ => List.takeWhile_cons_of_pos h
  unfold cons
  match hs : l.statement with
  | .error _ | .ok .skip | .ok (.print _) | .ok (.assign _ _) | .ok (.unrecognized _) =>
    exact hcons _ _ _
  -- A header inside is deeper than `p`, so whatever it cuts off is inside too.
  | .ok (.loop var range) =>
    have hlt := Line.lt_indent_of_isInside h (Line.isBlank_of_statement hs (by simp))
    simp only [hcons, cutBlock, takeWhile_takeWhile_of_imp (isInside_of_lt hlt),
      dropWhile_takeWhile_of_imp (isInside_of_lt hlt)]
  | .ok (.branch cond) =>
    have hlt := Line.lt_indent_of_isInside h (Line.isBlank_of_statement hs (by simp))
    simp only [hcons, cutBlock, takeWhile_takeWhile_of_imp (isInside_of_lt hlt),
      dropWhile_takeWhile_of_imp (isInside_of_lt hlt), cutElse_takeWhile hlt]

theorem dropWhile_cons {p : Nat} {l : Line} (h : l.isInside p = true) (es : List Entry) :
    (cons l es).dropWhile (isInside p) = es.dropWhile (isInside p) := by
  have hcons : ∀ below n es, (ofLine l below n :: es).dropWhile (isInside p) =
      es.dropWhile (isInside p) := fun _ _ _ => List.dropWhile_cons_of_pos h
  unfold cons
  match hs : l.statement with
  | .error _ | .ok .skip | .ok (.print _) | .ok (.assign _ _) | .ok (.unrecognized _) =>
    exact hcons _ _ _
  | .ok (.loop var range) =>
    have hlt := Line.lt_indent_of_isInside h (Line.isBlank_of_statement hs (by simp))
    simp only [hcons, cutBlock, dropWhile_dropWhile_of_imp (isInside_of_lt hlt)]
  | .ok (.branch cond) =>
    have hlt := Line.lt_indent_of_isInside h (Line.isBlank_of_statement hs (by simp))
    simp only [hcons, cutBlock, dropWhile_rest_cutElse hlt,
      dropWhile_dropWhile_of_imp (isInside_of_lt hlt)]

/-- **The entries of a block are a block of the entries.** -/
theorem ofLines_takeWhile (p : Nat) (ls : List Line) :
    ofLines (ls.takeWhile (Line.isInside p)) = (ofLines ls).takeWhile (isInside p) := by
  induction ls with
  | nil => rfl
  | cons l ls ih =>
    by_cases h : l.isInside p = true
    · rw [List.takeWhile_cons_of_pos h, ofLines_cons, ofLines_cons, takeWhile_cons h, ih]
    · obtain ⟨below, n, rest, hc⟩ := exists_cons_eq l (ofLines ls)
      have he : ¬ (ofLine l below n).isInside p = true := h
      rw [List.takeWhile_cons_of_neg h, ofLines_cons, hc, List.takeWhile_cons_of_neg he]
      rfl

theorem ofLines_dropWhile (p : Nat) (ls : List Line) :
    ofLines (ls.dropWhile (Line.isInside p)) = (ofLines ls).dropWhile (isInside p) := by
  induction ls with
  | nil => rfl
  | cons l ls ih =>
    by_cases h : l.isInside p = true
    · rw [List.dropWhile_cons_of_pos h, ofLines_cons, dropWhile_cons h, ih]
    · obtain ⟨below, n, rest, hc⟩ := exists_cons_eq l (ofLines ls)
      have he : ¬ (ofLine l below n).isInside p = true := h
      rw [List.dropWhile_cons_of_neg h, ofLines_cons, hc, List.dropWhile_cons_of_neg he]

theorem lines_of_cutElse {p : Nat} {e : Line} {es : List Line} (h : e.isElseAt p = true) :
    cutElse p (ofLines (e :: es)) =
      ⟨some e.number, ofLines (es.takeWhile (Line.isInside p)),
        lineCount (ofLines (es.takeWhile (Line.isInside p))) + 1,
        ofLines (es.dropWhile (Line.isInside p))⟩ := by
  have hs := Line.statement_of_isElse (Bool.and_eq_true _ _ ▸ h).1
  set entry := ofLine e 0 (.unrecognized e.number Line.elseMark)
  have hc : ofLines (e :: es) = entry :: ofLines es := by rw [ofLines_cons, cons, hs]
  have he : (entry.isElse && entry.indent == p) = true := h
  rw [hc, cutElse_of_pos he, ofLines_takeWhile, ofLines_dropWhile]
  rfl

/-- The second half of a branch, from the lines after the header. -/
theorem cutElse_past (l : Line) (ls : List Line) :
    cutElse l.indent (ofLines (l.past ls)) =
      ⟨(l.elseLine? ls).map Line.number, ofLines (l.elseBlock ls),
        lineCount (ofLines (l.elseBlock ls)) + (l.elseLine? ls).toList.length,
        ofLines (l.pastElse ls)⟩ := by
  rcases hp : l.past ls with _ | ⟨e, es⟩
  · have hn := Line.elseLine?_of_nil hp
    rw [hn, Line.elseBlock_of_none hn, Line.pastElse_of_none hn, hp]
    rfl
  by_cases he : e.isElseAt l.indent = true
  · rw [lines_of_cutElse he, Line.elseLine?_of_pos hp he, Line.elseBlock_of_pos hp he,
      Line.pastElse_of_pos hp he]
    rfl
  · have hn := Line.elseLine?_of_neg hp he
    rw [hn, Line.elseBlock_of_none hn, Line.pastElse_of_none hn, hp]
    obtain ⟨below, n, rest, hc⟩ := exists_cons_eq e (ofLines es)
    rw [ofLines_cons, hc]
    exact cutElse_of_neg he

/-- The entries of a line and the lines after it, before the lines of its block are counted. -/
theorem ofLines_cons_count (l : Line) (ls : List Line) :
    ofLines (l :: ls) = match l.statement with
      | .error fault => ofLine l 0 (.malformed l.number fault) :: ofLines ls
      | .ok .skip => ofLine l 0 (.skip l.number) :: ofLines ls
      | .ok (.print expr) => ofLine l 0 (.print l.number expr) :: ofLines ls
      | .ok (.assign target value) => ofLine l 0 (.assign l.number target value) :: ofLines ls
      | .ok (.loop var range) =>
        ofLine l (lineCount (ofLines (l.block ls)))
          (.loop l.number var range (lineCount (ofLines (l.block ls))) (outline (l.block ls))) ::
            ofLines (l.past ls)
      | .ok (.branch cond) =>
        ofLine l (lineCount (ofLines (l.block ls)) +
            (lineCount (ofLines (l.elseBlock ls)) + (l.elseLine? ls).toList.length))
          (.branch l.number cond (outline (l.block ls)) ((l.elseLine? ls).map Line.number)
            (outline (l.elseBlock ls))) :: ofLines (l.pastElse ls)
      | .ok (.unrecognized text) => ofLine l 0 (.unrecognized l.number text) :: ofLines ls := by
  have hb : (ofLines ls).takeWhile (isInside l.indent) = ofLines (l.block ls) :=
    (ofLines_takeWhile _ ls).symm
  have hd : (ofLines ls).dropWhile (isInside l.indent) = ofLines (l.past ls) :=
    (ofLines_dropWhile _ ls).symm
  rw [ofLines_cons, cons]
  match l.statement with
  | .error _ | .ok .skip | .ok (.print _) | .ok (.assign _ _) | .ok (.unrecognized _) => rfl
  | .ok (.loop _ _) => simp only [cutBlock, hb, hd, outline_eq]
  | .ok (.branch _) => simp only [cutBlock, hb, hd, cutElse_past, outline_eq]

/-- **Every line is in one entry.** -/
theorem lineCount_ofLines (ls : List Line) : lineCount (ofLines ls) = ls.length := by
  -- On the number of lines: a block and what is past it are no tails of the program.
  induction hn : ls.length using Nat.strong_induction_on generalizing ls with
  | _ n ih =>
    rcases ls with _ | ⟨l, ls⟩
    · exact hn
    subst hn
    have hone : ∀ below n, (ofLine l below n).lines = below + 1 := fun _ _ => rfl
    rw [ofLines_cons_count]
    match l.statement with
    | .error _ | .ok .skip | .ok (.print _) | .ok (.assign _ _) | .ok (.unrecognized _) =>
      rw [lineCount_cons, hone, ih _ (Nat.lt_succ_self _) ls rfl, List.length_cons]
      omega
    | .ok (.loop var range) =>
      have hlen := congrArg List.length (Line.block_append_past l ls)
      rw [List.length_append] at hlen
      rw [lineCount_cons, hone, List.length_cons,
        ih _ (by rw [List.length_cons]; omega) (l.block ls) rfl,
        ih _ (by rw [List.length_cons]; omega) (l.past ls) rfl]
      omega
    | .ok (.branch cond) =>
      have hlen := Line.length_branch l ls
      rw [lineCount_cons, hone, List.length_cons,
        ih _ (by rw [List.length_cons]; omega) (l.block ls) rfl,
        ih _ (by rw [List.length_cons]; omega) (l.elseBlock ls) rfl,
        ih _ (by rw [List.length_cons]; omega) (l.pastElse ls) rfl]
      omega

end Entry

/-- **The outline in the order of a run**: the node of the first line, then the outline of the
lines after that node. -/
theorem outline_cons (l : Line) (ls : List Line) :
    outline (l :: ls) = l.node ls :: outline (l.after ls) := by
  rw [Entry.outline_eq, Entry.ofLines_cons_count, Line.node, Line.after]
  simp only [Entry.lineCount_ofLines]
  match l.statement with
  | .error _ | .ok .skip | .ok (.print _) | .ok (.assign _ _) | .ok (.loop _ _) | .ok (.branch _)
  | .ok (.unrecognized _) => rfl

end LessonScript
