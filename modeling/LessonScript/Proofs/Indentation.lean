import LessonScript.Proofs.Canonical
import LessonScript.Proofs.Cursor

/-! # Layout

Two programs have the same layout if their lines differ only in the blanks at both ends, and the
indentations of their lines that are not blank are in the same order. A run sees no more of the
layout than this order: both programs have the same outline (`outline_of_twins`).

The proof goes through the list of the pairs of lines that stand at one place. What a header cuts
off in one program and in the other are the two sides of one part of this list (`Twins.block`,
`Twins.past`, `Twins.elseBlock`, `Twins.pastElse`).

Main statement: `execute_sameLayout`. -/

namespace LessonScript

/-- **Layout that does not matter.** Line by line the programs have the same content, and of any two
lines that are not blank the first is less indented than the second in both programs or in neither. -/
structure SameLayout (ls ls' : List Line) : Prop where
  content : ls.map Line.content = ls'.map Line.content
  order : ∀ p ∈ ls.zip ls', ∀ q ∈ ls.zip ls', p.1.isBlank = false → q.1.isBlank = false →
    (p.1.indent < q.1.indent ↔ p.2.indent < q.2.indent)

/-- The pairs are of lines that stand at the same place of two programs of the same layout. -/
structure Twins (ps : List (Line × Line)) : Prop where
  number : ∀ p ∈ ps, p.1.number = p.2.number
  content : ∀ p ∈ ps, p.1.content = p.2.content
  order : ∀ p ∈ ps, ∀ q ∈ ps, p.1.isBlank = false → q.1.isBlank = false →
    (p.1.indent < q.1.indent ↔ p.2.indent < q.2.indent)

/-- Two lists of lines are the two sides of a part of the pairs. -/
def Sides (ps : List (Line × Line)) (ls ls' : List Line) : Prop :=
  ∃ qs : List (Line × Line), qs.Sublist ps ∧ ls = qs.map Prod.fst ∧ ls' = qs.map Prod.snd

theorem Sides.mono {ps qs : List (Line × Line)} {ls ls' : List Line} (h : Sides qs ls ls')
    (hsub : qs.Sublist ps) : Sides ps ls ls' := by
  obtain ⟨rs, hrs, hfst, hsnd⟩ := h
  exact ⟨rs, hrs.trans hsub, hfst, hsnd⟩

/-! ### What the content of a line decides -/

namespace Line

theorem isBlank_iff_content {l : Line} : l.isBlank = true ↔ l.content = [] :=
  List.all_eq_true.trans Text.trim_eq_nil_iff.symm

variable {l l' : Line} (h : l.content = l'.content)
include h

theorem isBlank_of_content : l.isBlank = l'.isBlank := by
  rw [Bool.eq_iff_iff, isBlank_iff_content, isBlank_iff_content, h]

theorem isElse_of_content : l.isElse = l'.isElse := by
  unfold isElse
  rw [h]

theorem statement_of_content : l.statement = l'.statement := by
  have htrim : l.text.trim = l'.text.trim := h
  unfold statement Statement.ofLine
  rw [htrim]

end Line

/-! ### What a header cuts off -/

theorem takeWhile_congr_of_mem {α : Type} {f g : α → Bool} {xs : List α}
    (h : ∀ x ∈ xs, f x = g x) : xs.takeWhile f = xs.takeWhile g := by
  induction xs with
  | nil => rfl
  | cons x xs ih =>
    have ih' := ih fun y hy => h y (List.mem_cons_of_mem _ hy)
    rw [List.takeWhile_cons, List.takeWhile_cons, h x List.mem_cons_self, ih']

theorem dropWhile_congr_of_mem {α : Type} {f g : α → Bool} {xs : List α}
    (h : ∀ x ∈ xs, f x = g x) : xs.dropWhile f = xs.dropWhile g := by
  induction xs with
  | nil => rfl
  | cons x xs ih =>
    have ih' := ih fun y hy => h y (List.mem_cons_of_mem _ hy)
    rw [List.dropWhile_cons, List.dropWhile_cons, h x List.mem_cons_self, ih']

namespace Twins

variable {p q : Line × Line} {ps qs : List (Line × Line)}

theorem mono (h : Twins ps) (hsub : ∀ p ∈ qs, p ∈ ps) : Twins qs where
  number p hp := h.number p (hsub p hp)
  content p hp := h.content p (hsub p hp)
  order p hp q hq := h.order p (hsub p hp) q (hsub q hq)

theorem isInside (h : Twins ps) (hp : p ∈ ps) (hq : q ∈ ps) (hb : p.1.isBlank = false) :
    q.1.isInside p.1.indent = q.2.isInside p.2.indent := by
  unfold Line.isInside
  rw [← Line.isBlank_of_content (h.content q hq)]
  cases hqb : q.1.isBlank with
  | true => rfl
  | false => rw [Bool.false_or, Bool.false_or, decide_eq_decide.mpr (h.order p hp q hq hb hqb)]

theorem isElseAt (h : Twins ps) (hp : p ∈ ps) (hq : q ∈ ps) (hb : p.1.isBlank = false) :
    q.1.isElseAt p.1.indent = q.2.isElseAt p.2.indent := by
  unfold Line.isElseAt
  rw [← Line.isElse_of_content (h.content q hq)]
  cases he : q.1.isElse with
  | false => rfl
  | true =>
    have hqb := Line.isBlank_of_isElse he
    have hlt := h.order p hp q hq hb hqb
    have hgt := h.order q hq p hp hqb hb
    rw [Bool.true_and, Bool.true_and, Bool.eq_iff_iff, beq_iff_eq, beq_iff_eq]
    omega

variable (h : Twins (p :: ps)) (hb : p.1.isBlank = false)
include h hb

theorem block : Sides ps (p.1.block (ps.map Prod.fst)) (p.2.block (ps.map Prod.snd)) := by
  have hsame : ∀ q ∈ ps, q.1.isInside p.1.indent = q.2.isInside p.2.indent :=
    fun q hq => h.isInside List.mem_cons_self (List.mem_cons_of_mem _ hq) hb
  refine ⟨ps.takeWhile fun q => q.1.isInside p.1.indent, List.takeWhile_sublist _, ?_, ?_⟩
  · rw [Line.block, List.takeWhile_map]
    rfl
  · rw [Line.block, List.takeWhile_map, takeWhile_congr_of_mem hsame]
    rfl

theorem past : Sides ps (p.1.past (ps.map Prod.fst)) (p.2.past (ps.map Prod.snd)) := by
  have hsame : ∀ q ∈ ps, q.1.isInside p.1.indent = q.2.isInside p.2.indent :=
    fun q hq => h.isInside List.mem_cons_self (List.mem_cons_of_mem _ hq) hb
  refine ⟨ps.dropWhile fun q => q.1.isInside p.1.indent, List.dropWhile_sublist _, ?_, ?_⟩
  · rw [Line.past, List.dropWhile_map]
    rfl
  · rw [Line.past, List.dropWhile_map, dropWhile_congr_of_mem hsame]
    rfl

/-- Both headers of a pair have an `else:` at the same place, or neither has one. -/
theorem elseHalf :
    (p.1.elseLine? (ps.map Prod.fst)).map Line.number =
        (p.2.elseLine? (ps.map Prod.snd)).map Line.number ∧
      Sides ps (p.1.elseBlock (ps.map Prod.fst)) (p.2.elseBlock (ps.map Prod.snd)) ∧
      Sides ps (p.1.pastElse (ps.map Prod.fst)) (p.2.pastElse (ps.map Prod.snd)) := by
  have hnil : Sides ps [] [] := ⟨[], List.nil_sublist _, rfl, rfl⟩
  have hpast := h.past hb
  obtain ⟨rs, hsub, hfst, hsnd⟩ := h.past hb
  rcases rs with _ | ⟨r, rs⟩
  · have hn := Line.elseLine?_of_nil hfst
    have hn' := Line.elseLine?_of_nil hsnd
    exact ⟨by rw [hn, hn'], Line.related_of_no_else hnil hpast hn hn'⟩
  have hr : r ∈ ps := hsub.subset List.mem_cons_self
  have hsame := h.isElseAt List.mem_cons_self (List.mem_cons_of_mem p hr) hb
  by_cases he : r.1.isElseAt p.1.indent = true
  · have he' : r.2.isElseAt p.2.indent = true := hsame ▸ he
    have hrest : rs.Sublist ps := (List.sublist_cons_self r rs).trans hsub
    have htwins : Twins (p :: rs) := h.mono (hrest.cons_cons p).subset
    rw [Line.elseLine?_of_pos hfst he, Line.elseLine?_of_pos hsnd he', Line.elseBlock_of_pos hfst he,
      Line.elseBlock_of_pos hsnd he', Line.pastElse_of_pos hfst he, Line.pastElse_of_pos hsnd he']
    have hnumber := h.number r (List.mem_cons_of_mem p hr)
    exact ⟨congrArg some hnumber, (htwins.block hb).mono hrest, (htwins.past hb).mono hrest⟩
  · have he' : ¬ r.2.isElseAt p.2.indent = true := hsame ▸ he
    have hn := Line.elseLine?_of_neg hfst he
    have hn' := Line.elseLine?_of_neg hsnd he'
    exact ⟨by rw [hn, hn'], Line.related_of_no_else hnil hpast hn hn'⟩

end Twins

/-! ### Outlines -/

/-- **Programs of the same layout have the same outline.** -/
theorem outline_of_twins {ps : List (Line × Line)} (h : Twins ps) :
    outline (ps.map Prod.fst) = outline (ps.map Prod.snd) := by
  -- On the number of lines: the parts that a header cuts off are shorter.
  induction hn : ps.length using Nat.strong_induction_on generalizing ps with
  | _ n ih =>
    subst hn
    rcases ps with _ | ⟨p, ps⟩
    · rfl
    have hsides : ∀ {ls ls'}, Sides ps ls ls' → outline ls = outline ls' ∧ ls.length = ls'.length := by
      rintro _ _ ⟨qs, hsub, rfl, rfl⟩
      have htwins : Twins qs := h.mono fun q hq => List.mem_cons_of_mem p (hsub.subset hq)
      refine ⟨ih _ (Nat.lt_succ_of_le hsub.length_le) htwins rfl, ?_⟩
      rw [List.length_map, List.length_map]
    have hnumber := h.number p List.mem_cons_self
    have hstatement := Line.statement_of_content (h.content p List.mem_cons_self)
    have hrest := (hsides ⟨ps, List.Sublist.refl ps, rfl, rfl⟩).1
    rw [List.map_cons, List.map_cons, outline_cons, outline_cons, Line.node, Line.node, Line.after,
      Line.after, ← hstatement, ← hnumber]
    rcases hs : p.1.statement with fault | statement
    · simp only [hrest]
    cases statement with
    | skip | print _ | assign _ _ | unrecognized _ => simp only [hrest]
    | loop var range =>
      have hb := Line.isBlank_of_statement hs (by simp)
      obtain ⟨hblock, hlength⟩ := hsides (h.block hb)
      simp only [hblock, hlength, (hsides (h.past hb)).1]
    | branch cond =>
      have hb := Line.isBlank_of_statement hs (by simp)
      obtain ⟨hline, helse, hpast⟩ := h.elseHalf hb
      simp only [(hsides (h.block hb)).1, hline, (hsides helse).1, (hsides hpast).1]

theorem twins_of_sameLayout {source source' : Text}
    (h : SameLayout (Line.ofSource source) (Line.ofSource source')) :
    Twins ((Line.ofSource source).zip (Line.ofSource source')) where
  number p hp := by
    obtain ⟨i, hi⟩ := List.mem_iff_getElem?.mp hp
    obtain ⟨hfst, hsnd⟩ := List.getElem?_zip_eq_some.mp hi
    rw [number_ofSource hfst, number_ofSource hsnd]
  content p hp := by
    obtain ⟨i, hi⟩ := List.mem_iff_getElem?.mp hp
    obtain ⟨hfst, hsnd⟩ := List.getElem?_zip_eq_some.mp hi
    have hcontent := congrArg (fun cs => cs[i]?) h.content
    simpa only [List.getElem?_map, hfst, hsnd, Option.map_some, Option.some.injEq] using hcontent
  order := h.order

/-- **Layout invariance.** Sources of the same layout have the same outcome under every step limit:
the same result, and the same log with the same number of steps at its end. -/
theorem execute_sameLayout (ν : Type) [NumberSystem ν] (source source' : Text)
    (h : SameLayout (Line.ofSource source) (Line.ofSource source')) (limit : Option Nat) :
    execute ν source limit = execute ν source' limit := by
  have hlength : (Line.ofSource source).length = (Line.ofSource source').length := by
    simpa using congrArg List.length h.content
  have houtline := outline_of_twins (twins_of_sameLayout h)
  rw [List.map_fst_zip hlength.le, List.map_snd_zip hlength.ge] at houtline
  simp only [execute, houtline, hlength]

/-- A branch indented with spaces. -/
def spaced : Text := "if 1 == 2:\n    print('a')\n\nelse:\n    print('b')".toList

/-- The same branch with tabs, with carriage returns, and with blanks on the blank line. -/
def tabbed : Text := "if 1 == 2:\r\n\tprint('a')\r\n   \r\nelse: \r\n\tprint('b')".toList

theorem execute_sameLayout_tabbed : SameLayout (Line.ofSource spaced) (Line.ofSource tabbed) ∧
    execute Float spaced (some 2) = execute Float tabbed (some 2) := by
  have hlayout : SameLayout (Line.ofSource spaced) (Line.ofSource tabbed) :=
    ⟨by decide +kernel, by decide +kernel⟩
  exact ⟨hlayout, execute_sameLayout Float spaced tabbed hlayout (some 2)⟩

end LessonScript
