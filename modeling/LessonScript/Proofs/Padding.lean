import LessonScript.Proofs.Alike
import Mathlib.Data.List.InsertIdx

/-! # Inserting blank lines and comments

Blank lines and comments do nothing by themselves, but a comment ends a block that it is not deep
enough for, and the `else:` of a branch is looked for only right after its block. A blank line can be
inserted anywhere. A comment is *harmless* where it is at least as deep as the next line that is not
blank, and deeper if that line is an `else:` (`Line.Harmless`).

`Padded` relates a program to one with such lines inserted. A block may end earlier in the padded
program, namely at an inserted comment, but then only blank lines are missing from it; so blank lines
may also be left out. Blocks of padded programs are padded blocks (`Padded.block`, `Padded.past`,
`Padded.elseHalf`), and the runs are alike.

Main statement: `execute_insertLine`. -/

namespace LessonScript

namespace Line

/-- The first character of the line that is not blank is a `#`. -/
def IsComment (l : Line) : Prop := l.content.head? = some '#'

/-- The first of the lines that is not blank. -/
def next? (ls : List Line) : Option Line := ls.find? fun l => !l.isBlank

/-- **The line can be inserted before the others**: it is blank, or a comment at least as deep as
the next line that is not blank, and deeper than it if that is an `else:`. -/
def Harmless (k : Line) (ls : List Line) : Prop :=
  k.isBlank = true ∨ k.IsComment ∧ ∀ x ∈ next? ls,
    x.indent ≤ k.indent ∧ (x.isElse = true → x.indent < k.indent)

instance (k : Line) (ls : List Line) : Decidable (k.Harmless ls) := by
  unfold Harmless IsComment
  infer_instance

theorem next?_of_isBlank {l : Line} (h : l.isBlank = true) (ls : List Line) :
    next? (l :: ls) = next? ls := List.find?_cons_of_neg (by simp [h])

theorem next?_of_not_isBlank {l : Line} (h : l.isBlank = false) (ls : List Line) :
    next? (l :: ls) = some l := List.find?_cons_of_pos (by simp [h])

theorem next?_takeWhile {f : Line → Bool} {ls : List Line} {x : Line}
    (h : next? (ls.takeWhile f) = some x) : next? ls = some x := by
  have happend : next? (ls.takeWhile f ++ ls.dropWhile f) =
      (next? (ls.takeWhile f)).or (next? (ls.dropWhile f)) := List.find?_append
  rw [List.takeWhile_append_dropWhile, h] at happend
  exact happend

theorem next?_dropWhile_isBlank (ls : List Line) : next? (ls.dropWhile isBlank) = next? ls := by
  induction ls with
  | nil => rfl
  | cons l ls ih =>
    by_cases hb : l.isBlank = true
    · rw [List.dropWhile_cons_of_pos hb, ih, next?_of_isBlank hb]
    · rw [List.dropWhile_cons_of_neg hb]

theorem statement_of_isComment {k : Line} (h : k.IsComment) : k.statement = .ok .skip := by
  obtain ⟨t, ht⟩ := List.head?_eq_some_iff.mp h
  have htrim : k.text.trim = '#' :: t := ht
  rw [statement, Statement.ofLine, htrim]
  rfl

namespace Harmless

variable {k : Line} {ls : List Line}

theorem statement (h : k.Harmless ls) : k.statement = .ok .skip := by
  rcases h with h | ⟨h, -⟩
  · exact statement_of_isBlank h
  · exact statement_of_isComment h

theorem isElse (h : k.Harmless ls) : k.isElse = false := isElse_of_statement h.statement nofun

/-- Outside of a block it is a comment, so it is as deep as a comment has to be. -/
theorem deep {p : Nat} (h : k.Harmless ls) (hout : ¬ k.isInside p = true) {x : Line}
    (hx : next? ls = some x) : x.indent ≤ k.indent ∧ (x.isElse = true → x.indent < k.indent) := by
  have hb : ¬ k.isBlank = true := fun hb => hout (isInside_of_isBlank k hb)
  exact (h.resolve_left hb).2 x hx

theorem next_le {p : Nat} (h : k.Harmless ls) (hout : ¬ k.isInside p = true) :
    ∀ x, next? ls = some x → x.indent ≤ p :=
  fun _ hx => (h.deep hout hx).1.trans (indent_le_of_not_inside hout)

theorem dropWhile_isBlank (h : k.Harmless ls) : k.Harmless (ls.dropWhile Line.isBlank) := by
  unfold Harmless
  rw [next?_dropWhile_isBlank]
  exact h

theorem takeWhile (h : k.Harmless ls) (f : Line → Bool) : k.Harmless (ls.takeWhile f) :=
  h.imp_right fun h => ⟨h.1, fun x hx => h.2 x (next?_takeWhile hx)⟩

end Harmless

end Line

open Line (next?)

/-- **A program and the same program with harmless lines inserted**; blank lines may also be left
out. The numbers of the lines do not matter. -/
inductive Padded : List Line → List Line → Prop
  | nil : Padded [] []
  | both (n n' : Nat) (t : Text) {ls ls' : List Line} : Padded ls ls' →
      Padded (⟨n, t⟩ :: ls) (⟨n', t⟩ :: ls')
  | left {l : Line} {ls ls' : List Line} : l.isBlank = true → Padded ls ls' → Padded (l :: ls) ls'
  | right {k : Line} {ls ls' : List Line} : k.Harmless ls → Padded ls ls' → Padded ls (k :: ls')

namespace Padded

variable {ls ls' : List Line}

/-- Blank lines may be left out. -/
theorem takeWhile_isBlank (ls : List Line) : Padded (ls.takeWhile Line.isBlank) [] := by
  induction ls with
  | nil => exact nil
  | cons l ls ih =>
    by_cases hb : l.isBlank = true
    · rw [List.takeWhile_cons_of_pos hb]
      exact left hb ih
    · rw [List.takeWhile_cons_of_neg hb]
      exact nil

theorem dropWhile_isBlank (h : Padded ls ls') : Padded (ls.dropWhile Line.isBlank) ls' := by
  induction h with
  | nil => exact nil
  | @both n n' t ls ls' h ih =>
    by_cases hb : (⟨n, t⟩ : Line).isBlank = true
    · rw [List.dropWhile_cons_of_pos hb]
      exact right (.inl hb) ih
    · rw [List.dropWhile_cons_of_neg hb]
      exact both n n' t h
  | left hb h ih =>
    rw [List.dropWhile_cons_of_pos hb]
    exact ih
  | right hk h ih => exact right (hk.dropWhile_isBlank) ih

/-- Where the next line is not in a block, only blank lines are in front of it. -/
theorem isInside_eq_isBlank {p : Nat} (h : ∀ y, next? ls = some y → y.indent ≤ p) :
    ls.takeWhile (Line.isInside p) = ls.takeWhile Line.isBlank ∧
      ls.dropWhile (Line.isInside p) = ls.dropWhile Line.isBlank := by
  induction ls with
  | nil => exact ⟨rfl, rfl⟩
  | cons l ls ih =>
    cases hb : l.isBlank with
    | true =>
      rw [Line.next?_of_isBlank hb] at h
      obtain ⟨htake, hdrop⟩ := ih h
      have hin := Line.isInside_of_isBlank (p := p) l hb
      rw [List.takeWhile_cons_of_pos hin, List.takeWhile_cons_of_pos hb, htake,
        List.dropWhile_cons_of_pos hin, List.dropWhile_cons_of_pos hb, hdrop]
      exact ⟨rfl, rfl⟩
    | false =>
      have hle := h l (Line.next?_of_not_isBlank hb ls)
      have hout : ¬ l.isInside p = true := by simp [Line.isInside, hb, hle]
      have hb' : ¬ l.isBlank = true := by simp [hb]
      rw [List.takeWhile_cons_of_neg hout, List.takeWhile_cons_of_neg hb',
        List.dropWhile_cons_of_neg hout, List.dropWhile_cons_of_neg hb']
      exact ⟨rfl, rfl⟩

theorem block (h : Padded ls ls') (p : Nat) :
    Padded (ls.takeWhile (Line.isInside p)) (ls'.takeWhile (Line.isInside p)) := by
  induction h with
  | nil => exact nil
  | @both n n' t ls ls' h ih =>
    by_cases hin : (⟨n, t⟩ : Line).isInside p = true
    · have hin' : (⟨n', t⟩ : Line).isInside p = true := hin
      rw [List.takeWhile_cons_of_pos hin, List.takeWhile_cons_of_pos hin']
      exact both n n' t ih
    · have hin' : ¬ (⟨n', t⟩ : Line).isInside p = true := hin
      rw [List.takeWhile_cons_of_neg hin, List.takeWhile_cons_of_neg hin']
      exact nil
  | left hb h ih =>
    rw [List.takeWhile_cons_of_pos (Line.isInside_of_isBlank _ hb)]
    exact left hb ih
  | @right k ls ls' hk h ih =>
    by_cases hin : k.isInside p = true
    · rw [List.takeWhile_cons_of_pos hin]
      exact right (hk.takeWhile _) ih
    · -- The block ends at the inserted line, and only blank lines are missing from it.
      rw [List.takeWhile_cons_of_neg hin, (isInside_eq_isBlank (hk.next_le hin)).1]
      exact takeWhile_isBlank ls

theorem past (h : Padded ls ls') (p : Nat) :
    Padded (ls.dropWhile (Line.isInside p)) (ls'.dropWhile (Line.isInside p)) := by
  induction h with
  | nil => exact nil
  | @both n n' t ls ls' h ih =>
    by_cases hin : (⟨n, t⟩ : Line).isInside p = true
    · have hin' : (⟨n', t⟩ : Line).isInside p = true := hin
      rw [List.dropWhile_cons_of_pos hin, List.dropWhile_cons_of_pos hin']
      exact ih
    · have hin' : ¬ (⟨n', t⟩ : Line).isInside p = true := hin
      rw [List.dropWhile_cons_of_neg hin, List.dropWhile_cons_of_neg hin']
      exact both n n' t h
  | left hb h ih =>
    rw [List.dropWhile_cons_of_pos (Line.isInside_of_isBlank _ hb)]
    exact ih
  | @right k ls ls' hk h ih =>
    by_cases hin : k.isInside p = true
    · rw [List.dropWhile_cons_of_pos hin]
      exact ih
    · rw [List.dropWhile_cons_of_neg hin, (isInside_eq_isBlank (hk.next_le hin)).2]
      exact right hk.dropWhile_isBlank h.dropWhile_isBlank

/-- **The `else:` of a header is found in both programs or in neither.** -/
theorem elseHalf (h : Padded ls ls') (n n' : Nat) (t : Text) :
    Padded (Line.elseBlock ⟨n, t⟩ ls) (Line.elseBlock ⟨n', t⟩ ls') ∧
      Padded (Line.pastElse ⟨n, t⟩ ls) (Line.pastElse ⟨n', t⟩ ls') := by
  have hpast : Padded (Line.past ⟨n, t⟩ ls) (Line.past ⟨n', t⟩ ls') := h.past _
  have hnone := Line.related_of_no_else nil hpast
  generalize hq : Line.past ⟨n, t⟩ ls = qs at hpast
  generalize hq' : Line.past ⟨n', t⟩ ls' = qs' at hpast
  cases hpast with
  | nil => exact hnone (Line.elseLine?_of_nil hq) (Line.elseLine?_of_nil hq')
  | both m m' u hrest =>
    by_cases he : (⟨m, u⟩ : Line).isElseAt (Line.indent ⟨n, t⟩) = true
    · have he' : (⟨m', u⟩ : Line).isElseAt (Line.indent ⟨n', t⟩) = true := he
      rw [Line.elseBlock_of_pos hq he, Line.elseBlock_of_pos hq' he', Line.pastElse_of_pos hq he,
        Line.pastElse_of_pos hq' he']
      exact ⟨hrest.block _, hrest.past _⟩
    · exact hnone (Line.elseLine?_of_neg hq he) (Line.elseLine?_of_neg hq' he)
  | left hb hrest => exact absurd (Line.isInside_of_isBlank _ hb) (Line.not_inside_of_past hq)
  | @right k _ qs' hk hrest =>
    have hout := Line.not_inside_of_past hq'
    have hk' : ¬ k.isElseAt (Line.indent ⟨n', t⟩) = true := by simp [Line.isElseAt, hk.isElse]
    refine hnone ?_ (Line.elseLine?_of_neg hq' hk')
    rcases qs with _ | ⟨y, ys⟩
    · exact Line.elseLine?_of_nil hq
    · -- An `else:` here would be at the indentation of the header, and the comment no deeper.
      refine Line.elseLine?_of_neg hq fun hy => ?_
      simp only [Line.isElseAt, Bool.and_eq_true, beq_iff_eq] at hy
      obtain ⟨helse, hindent⟩ := hy
      have hnext := Line.next?_of_not_isBlank (Line.isBlank_of_isElse helse) ys
      have hlt := (hk.deep hout hnext).2 helse
      have hle := Line.indent_le_of_not_inside hout
      exact absurd (hlt.trans_le hle) (by rw [hindent]; exact Nat.lt_irrefl _)

end Padded

/-! ### Runs of padded programs -/

section Runs

variable {ν : Type} [NumberSystem ν]

/-- **Runs of padded programs are alike.** -/
theorem alike_of_padded {ls ls' : List Line} (h : Padded ls ls') (limit : Option Nat) :
    Alike (runLines limit ls : Run ν Unit) (runLines limit ls') := by
  -- On the number of lines of both: the blocks of a header are shorter than the lines after it.
  induction hn : ls.length + ls'.length using Nat.strong_induction_on generalizing ls ls' with
  | _ n ih =>
    subst hn
    cases h with
    | nil => exact .pure ()
    | left hb h =>
      rw [runLines_of_skip (Line.statement_of_isBlank hb)]
      exact ih _ (by rw [List.length_cons]; omega) h rfl
    | right hk h =>
      rw [runLines_of_skip hk.statement]
      exact ih _ (by rw [List.length_cons]; omega) h rfl
    | @both n n' t ls ls' h =>
      have hparts : ∀ {bs bs' : List Line}, Padded bs bs' → bs.length ≤ ls.length →
          bs'.length ≤ ls'.length → Alike (runLines limit bs : Run ν Unit) (runLines limit bs') := by
        intro bs bs' hpad hlen hlen'
        exact ih _ (by rw [List.length_cons, List.length_cons]; omega) hpad rfl
      have hblock := hparts (h.block (Line.indent ⟨n, t⟩)) (Line.length_block_le ⟨n, t⟩ ls)
        (Line.length_block_le ⟨n', t⟩ ls')
      have helse := hparts (h.elseHalf n n' t).1 (Line.length_elseBlock_le _ _)
        (Line.length_elseBlock_le _ _)
      have hstatement : (⟨n, t⟩ : Line).statement = (⟨n', t⟩ : Line).statement := rfl
      have hafter := Line.related_after hstatement (h.past _) (h.elseHalf n n' t).2 h
      rw [runLines_cons, runLines_cons]
      refine (alike_perform hstatement limit).bind fun demand => ?_
      refine (alike_finish hblock helse demand).bind fun _ => ?_
      exact hparts hafter (Line.length_after_le _ _) (Line.length_after_le _ _)

end Runs

/-! ### Sources -/

/-- The source with a line inserted before the line of an index. -/
def insertLine (source : Text) (i : Nat) (line : Text) : Text :=
  ['\n'].intercalate ((source.splitOn '\n').insertIdx i line)

theorem newline_not_mem_splitOn (source : Text) : ∀ t ∈ source.splitOn '\n', '\n' ∉ t :=
  Text.separator_not_mem_splitOn source

/-- Programs are related if they are the same up to a place and related from there on, for a relation
that lines of the same text can be put in front of. -/
theorem related_of_map_text {R : List Line → List Line → Prop}
    (same : ∀ (n n' : Nat) (t : Text) {ls ls' : List Line}, R ls ls' →
      R (⟨n, t⟩ :: ls) (⟨n', t⟩ :: ls'))
    {pre rest ls' : List Line} {texts : List Text}
    (h : ls'.map Line.text = pre.map Line.text ++ texts)
    (hrest : ∀ rest', rest'.map Line.text = texts → R rest rest') : R (pre ++ rest) ls' := by
  induction pre generalizing ls' with
  | nil => exact hrest ls' h
  | cons l pre ih =>
    obtain ⟨l', ls', rfl, htext, hmap⟩ := List.map_eq_cons_iff.mp h
    obtain ⟨n, t⟩ := l
    obtain ⟨n', t'⟩ := l'
    obtain rfl : t' = t := htext
    exact same n n' t' (ih hmap)

theorem related_of_same_text {R : List Line → List Line → Prop} (nil : R [] [])
    (same : ∀ (n n' : Nat) (t : Text) {ls ls' : List Line}, R ls ls' →
      R (⟨n, t⟩ :: ls) (⟨n', t⟩ :: ls'))
    {ls ls' : List Line} (h : ls'.map Line.text = ls.map Line.text) : R ls ls' := by
  have hrest : ∀ rest' : List Line, rest'.map Line.text = [] → R [] rest' := by
    intro rest' hmap
    rwa [List.map_eq_nil_iff.mp hmap]
  have hrelated := related_of_map_text same (h.trans (List.append_nil _).symm) hrest
  rwa [List.append_nil] at hrelated

theorem padded_of_map_text {ls ls' : List Line} (h : ls'.map Line.text = ls.map Line.text) :
    Padded ls ls' :=
  related_of_same_text .nil .both h

theorem padded_of_insertIdx {ls ls' : List Line} {i n : Nat} {line : Text}
    (h : ls'.map Line.text = (ls.map Line.text).insertIdx i line)
    (hk : Line.Harmless ⟨n, line⟩ (ls.drop i)) : Padded ls ls' := by
  induction i generalizing ls ls' with
  | zero =>
    rw [List.insertIdx_zero] at h
    obtain ⟨k, ls', rfl, htext, hrest⟩ := List.map_eq_cons_iff.mp h
    obtain ⟨n', t⟩ := k
    obtain rfl : t = line := htext
    exact .right hk (padded_of_map_text hrest)
  | succ i ih =>
    rcases ls with _ | ⟨l, ls⟩
    · exact padded_of_map_text h
    · rw [List.map_cons, List.insertIdx_succ_cons] at h
      obtain ⟨l', ls', rfl, htext, hrest⟩ := List.map_eq_cons_iff.mp h
      obtain ⟨n, t⟩ := l
      obtain ⟨n', t'⟩ := l'
      obtain rfl : t' = t := htext
      exact .both n n' t' (ih hrest hk)

/-- Results that differ in the log only give outcomes with the same result and the same last
entry. -/
theorem outcome_of_observed {ν : Type} {r r' : EStateM.Result RunError (Machine ν) Unit}
    (h : observed r = observed r') (start start' : Event) :
    (Outcome.ofResult start r).result = (Outcome.ofResult start' r').result ∧
      ∃ steps globals ok E E', (Outcome.ofResult start r).log = E ++ [.finished steps globals ok] ∧
        (Outcome.ofResult start' r').log = E' ++ [.finished steps globals ok] := by
  have hlog : ∀ (start : Event) (m : Machine ν) (ok : Bool), Outcome.ofResult.close start m ok =
      (start :: m.log.reverse) ++ [.finished m.steps m.scope.globals.size ok] := by
    intro start m ok
    rw [Outcome.ofResult.close, List.reverse_cons, List.cons_append]
  rcases r with ⟨u, m⟩ | ⟨e, m⟩
  · rcases r' with ⟨u', m'⟩ | ⟨e', m'⟩
    · obtain ⟨log, rfl⟩ := Machine.exists_log_of_world (Prod.mk.inj h).2
      exact ⟨rfl, m.steps, m.scope.globals.size, true, _, _, hlog _ _ _, hlog _ _ _⟩
    · cases (Prod.mk.inj h).1
  · rcases r' with ⟨u', m'⟩ | ⟨e', m'⟩
    · cases (Prod.mk.inj h).1
    · obtain ⟨he, hw⟩ := Prod.mk.inj h
      obtain rfl := Except.error.inj he
      obtain ⟨log, rfl⟩ := Machine.exists_log_of_world hw
      exact ⟨rfl, m.steps, m.scope.globals.size, false, _, _, hlog _ _ _, hlog _ _ _⟩

/-- **Inserting skip lines is harmless.** A line of blanks can be inserted into a source at any place,
and a comment where it is at least as deep as the next line that is not blank, and deeper if that is
an `else:`. The result of a run and its number of steps stay the same, under every step limit. -/
theorem execute_insertLine (ν : Type) [NumberSystem ν] (source line : Text) (i : Nat)
    (hline : '\n' ∉ line) (h : Line.Harmless ⟨i + 1, line⟩ ((Line.ofSource source).drop i))
    (limit : Option Nat) :
    (execute ν source limit).result = (execute ν (insertLine source i line) limit).result ∧
      ∃ steps globals ok E E', (execute ν source limit).log = E ++ [.finished steps globals ok] ∧
        (execute ν (insertLine source i line) limit).log = E' ++ [.finished steps globals ok] := by
  have hpieces : (insertLine source i line).splitOn '\n' = (source.splitOn '\n').insertIdx i line := by
    refine List.splitOn_intercalate '\n' ?_ ?_
    · intro t ht
      rcases List.eq_or_mem_of_mem_insertIdx ht with rfl | ht
      · exact hline
      · exact newline_not_mem_splitOn source t ht
    · intro hnil
      have hsub := List.sublist_insertIdx (source.splitOn '\n') i line
      rw [hnil, List.sublist_nil] at hsub
      exact List.splitOn_ne_nil '\n' source hsub
  have hpadded : Padded (Line.ofSource source) (Line.ofSource (insertLine source i line)) := by
    refine padded_of_insertIdx ?_ h
    rw [map_text_ofSource, map_text_ofSource, hpieces]
  have hobserved := alike_of_padded hpadded limit (.initial : Machine ν) .initial rfl
  rw [execute_eq, execute_eq]
  exact outcome_of_observed hobserved _ _

/-- A branch with both halves, and a comment to stand before its `else:`. -/
def twoHalves : Text := "if 1 == 2:\n    print('a')\nelse:\n    print('b')".toList

theorem execute_insertLine_twoHalves :
    insertLine twoHalves 2 " # or".toList =
        "if 1 == 2:\n    print('a')\n # or\nelse:\n    print('b')".toList ∧
      (execute Float twoHalves (some 2)).result =
        (execute Float (insertLine twoHalves 2 " # or".toList) (some 2)).result := by
  have hharmless : Line.Harmless ⟨3, " # or".toList⟩ ((Line.ofSource twoHalves).drop 2) := by
    decide +kernel
  refine ⟨by decide +kernel, ?_⟩
  exact (execute_insertLine Float twoHalves " # or".toList 2 (by decide) hharmless (some 2)).1

end LessonScript
