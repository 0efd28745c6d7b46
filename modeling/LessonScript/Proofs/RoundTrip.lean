import LessonScript.Proofs.Fields

/-! # Reading round-trips through the canonical form

What is read from a line has well-formed fields (`Statement.WellFormed`), and its canonical form
says the same statement again. The fields of a statement with a shape of its own are even such that
the canonical form can be expected to be read back (`plain_of_ofContent`): the shapes that are tried
before leave their mark on what is left for a shape that comes later, so the left operand of a
condition never begins with the `=` that would make its line an assignment.

Main statement: `reading_round_trip`. -/

namespace LessonScript

namespace Text

variable {t v : Text}

/-- The end of a trimmed text is trimmed once its leading blanks are gone. -/
theorem trim_trimStart_of_suffix (hv : v <:+ t) (ht : t.trim = t) :
    v.trimStart.trim = v.trimStart := by
  rcases hh : v.trimStart.head? with _ | c
  · rw [List.head?_eq_none_iff.mp hh]
    rfl
  rcases hl : v.trimStart.getLast? with _ | d
  · rw [List.getLast?_eq_none_iff.mp hl]
    rfl
  have hsuffix : v.trimStart <:+ t := (List.dropWhile_suffix _).trans hv
  obtain ⟨u, hu⟩ := hsuffix
  obtain ⟨w, hw⟩ := List.getLast?_eq_some_iff.mp hl
  rw [hw, ← List.append_assoc] at hu
  have hd : isBlank d = false := isBlank_of_trim_concat (t := u ++ w) (by rw [hu, ht])
  exact trim_of_ends hh (isBlank_of_head?_trimStart hh) hl hd

end Text

/-! ### Bounds -/

namespace Range

theorem fits_nothing : Fits nothing.start ∧ Fits nothing.stop := by decide

theorem fits_of_bound? {t : Text} {n : Int} (h : bound? t = some n) : Fits n :=
  of_decide_eq_true (Option.filter_eq_some_iff.mp h).2

theorem fits_of_ofParts? {parts : List Text} {r : Range} (h : ofParts? parts = some r) :
    Fits r.start ∧ Fits r.stop := by
  unfold ofParts? at h
  split at h
  · next stop =>
    obtain rfl := Option.some.inj h
    rcases hb : bound? stop with _ | b
    · exact fits_nothing
    · exact ⟨fits_nothing.1, fits_of_bound? hb⟩
  · next start stop =>
    obtain rfl := Option.some.inj h
    rcases ha : bound? start with _ | a
    · exact fits_nothing
    rcases hb : bound? stop with _ | b
    · exact fits_nothing
    · exact ⟨fits_of_bound? ha, fits_of_bound? hb⟩
  · cases h

theorem fits_of_ofText? {t : Text} {r : Range} (h : ofText? t = some r) :
    Fits r.start ∧ Fits r.stop := by
  unfold ofText? at h
  split_ifs at h
  exact fits_of_ofParts? h

end Range

/-! ### Conditions -/

namespace CompareOp

theorem Occurs.mono {t u : Text} (h : t <:+: u) (ht : Occurs t) : Occurs u := by
  obtain ⟨op, hop⟩ := ht
  exact ⟨op, hop.trans h⟩

theorem front?_ne_none (op : CompareOp) (t : Text) : front? (op.symbol ++ t) ≠ none := by
  intro h
  have hop := List.findSome?_eq_none_iff.mp h op (mem_scanOrder op)
  rw [Option.map_eq_none_iff, List.isPrefixOf?_eq_some_iff_append_eq.mpr rfl] at hop
  cases hop

/-- A text within which no operator begins holds none. -/
theorem Clear.not_occurs {pre rest : Text} (h : Clear pre rest) : ¬ Occurs pre := by
  rintro ⟨op, u, w, hw⟩
  rw [List.append_assoc] at hw
  have hnone := h u (op.symbol ++ w) hw.symm (by simp [op.symbol_ne_nil])
  rw [List.append_assoc] at hnone
  exact front?_ne_none op _ hnone

/-- The scan stops at the first place where an operator begins. -/
theorem clear_of_cutFrom {t before after : Text} {op : CompareOp} :
    ∀ seen : Text, cutFrom seen t = some (before, op, after) →
      ∃ pre rest, before = seen.reverse ++ pre ∧ t = pre ++ rest ∧ front? rest = some (op, after) ∧
        Clear pre rest := by
  induction t with
  | nil =>
    intro seen h
    cases h
  | cons c t ih =>
    intro seen h
    rw [cutFrom] at h
    split at h
    · next op' rest hfront =>
      obtain ⟨rfl, heq⟩ := Prod.mk.inj (Option.some.inj h)
      obtain ⟨rfl, rfl⟩ := Prod.mk.inj heq
      exact ⟨[], c :: t, (List.append_nil _).symm, rfl, hfront, clear_nil _⟩
    · next hnone =>
      obtain ⟨pre, rest, hbefore, rfl, hrest, hpre⟩ := ih (c :: seen) h
      rw [List.reverse_cons, List.append_assoc, List.singleton_append] at hbefore
      exact ⟨c :: pre, rest, hbefore, rfl, hrest, clear_cons.mpr ⟨hnone, hpre⟩⟩

theorem clear_of_cutFrom_eq_none {t : Text} :
    ∀ seen : Text, cutFrom seen t = none → Clear t [] := by
  induction t with
  | nil => exact fun _ _ => clear_nil []
  | cons c t ih =>
    intro seen h
    rw [cutFrom] at h
    split at h
    · cases h
    · next hfront => exact clear_cons.mpr ⟨by rwa [List.append_nil], ih (c :: seen) h⟩

theorem not_occurs_of_cut? {t before after : Text} {op : CompareOp}
    (h : cut? t = some (before, op, after)) : ¬ Occurs before := by
  obtain ⟨pre, rest, rfl, -, -, hpre⟩ := clear_of_cutFrom [] h
  exact hpre.not_occurs

theorem not_occurs_of_cut?_eq_none {t : Text} (h : cut? t = none) : ¬ Occurs t :=
  (clear_of_cutFrom_eq_none [] h).not_occurs

end CompareOp

namespace Condition

variable {t : Text} {cond : Condition}

/-- **The operands of a condition** are trimmed and hold no operator. -/
structure Clean (cond : Condition) : Prop where
  lhs_trim : cond.lhs.trim = cond.lhs
  rhs_trim : cond.rhs.trim = cond.rhs
  lhs_clean : ¬ CompareOp.Occurs cond.lhs
  rhs_clean : ¬ CompareOp.Occurs cond.rhs

theorem clean_of_ofText? (h : ofText? t = some cond) : cond.Clean := by
  obtain ⟨⟨before, op, after⟩, hcut, rfl⟩ := Option.map_eq_some_iff.mp h
  refine ⟨Text.trim_trim _, Text.trim_trim _, ?_, ?_⟩
  · exact fun ho => CompareOp.not_occurs_of_cut? hcut (ho.mono (Text.trim_isInfix before))
  · refine fun ho => ?_
    have hrhs := ho.mono (Text.trim_isInfix _)
    split at hrhs
    · next hcut' => exact CompareOp.not_occurs_of_cut? hcut' hrhs
    · next hcut' => exact CompareOp.not_occurs_of_cut?_eq_none hcut' hrhs

/-- Nothing in front of the operator looks like an `=` if nothing in front of the text does. -/
theorem plain_of_ofText? (h : ofText? t = some cond) (htrim : t.trimStart = t)
    (hhead : t.head? ≠ some '=') : cond.Plain := by
  obtain ⟨hl, hr, hlc, hrc⟩ := clean_of_ofText? h
  obtain ⟨⟨before, op, after⟩, hcut, rfl⟩ := Option.map_eq_some_iff.mp h
  have ht := CompareOp.cut?_eq_some hcut
  rcases before with _ | ⟨c, u⟩
  · refine ⟨hl, hr, hlc, hrc, by simp [Text.trim, Text.trimStart, Text.trimEnd], ?_⟩
    rintro (rfl : op = .eq)
    rw [ht] at hhead
    exact absurd rfl hhead
  · have hc : isBlank c = false :=
      Text.isBlank_of_head?_trimStart (t := t) (by rw [htrim, ht]; rfl)
    obtain ⟨w, hw⟩ := Text.exists_trim_cons hc u
    have hne : c ≠ '=' := by
      rintro rfl
      rw [ht] at hhead
      exact absurd rfl hhead
    refine ⟨hl, hr, hlc, hrc, ?_, fun _ => ?_⟩
    · show (Text.trim (c :: u)).head? ≠ _
      rw [hw]
      simpa using hne
    · show Text.trim (c :: u) ≠ []
      rw [hw]
      simp

end Condition

/-! ### Statements -/

namespace Statement

open Text

/-- **The fields of a statement are well formed**, for a statement read from a line. -/
def WellFormed (line : Text) : Statement → Prop
  | skip | print _ => True
  | assign target value => target.IsWord ∧ value.trim = value
  | loop var range => var.IsWord ∧ Range.Fits range.start ∧ Range.Fits range.stop
  | branch cond => cond.Clean
  | unrecognized text => text = line.trim

theorem WellFormed.of_plain {line : Text} {s : Statement} (h : s.Plain) : s.WellFormed line := by
  cases s with
  | skip | unrecognized => exact h.elim
  | print | assign | loop => exact h
  | branch cond => exact ⟨h.lhs_trim, h.rhs_trim, h.lhs_clean, h.rhs_clean⟩

variable {t : Text}

theorem trim_of_assigned? {target value : Text} (h : assigned? t = some (target, value))
    (ht : t.trim = t) : value.trim = value := by
  obtain ⟨⟨w, rest⟩, hword, h⟩ := Option.bind_eq_some_iff.mp h
  obtain ⟨v, hv, h⟩ := Option.bind_eq_some_iff.mp h
  obtain ⟨rfl, rfl⟩ := Prod.mk.inj (Option.some.inj h)
  have hrest : rest <:+ t := ⟨w, (word?_eq_some hword).2.symm⟩
  have hsuffix := (suffix_of_isPrefixOf? hv).trans (List.dropWhile_suffix _)
  exact trim_trimStart_of_suffix (hsuffix.trans hrest) ht

/-- The condition after `if` and its blanks begins with no blank, and with no `=` unless the line is
an assignment. -/
theorem head?_of_branchHeader? {cond : Text} (h : branchHeader? t = some cond)
    (ha : assigned? t = none) : cond.trimStart = cond ∧ cond.head? ≠ some '=' := by
  simp only [branchHeader?, Option.bind_eq_bind, Option.bind_eq_some_iff] at h
  obtain ⟨rest, hif, rest', hblanks, hcond⟩ := h
  obtain rfl : "if".toList ++ rest = t := List.isPrefixOf?_eq_some_iff_append_eq.mp hif
  rcases rest with _ | ⟨c, u⟩
  · cases hblanks
  simp only [afterBlanks?] at hblanks
  split_ifs at hblanks with hc
  obtain rfl := Option.some.inj hblanks
  have hstart : trimStart (c :: u) = trimStart u := List.dropWhile_cons_of_pos hc
  have hu : cond ++ [':'] = trimStart u := List.isSuffixOf?_eq_some_iff_append_eq.mp hcond
  rcases cond with _ | ⟨d, v⟩
  · exact ⟨rfl, by simp⟩
  have hd : isBlank d = false := isBlank_of_head?_trimStart (t := u) (by rw [← hu]; rfl)
  refine ⟨trimStart_cons hd v, ?_⟩
  have hcw : isWordChar c = false := by
    by_contra hw
    rw [isBlank_of_isWordChar (by simpa using hw)] at hc
    cases hc
  intro hhead
  obtain rfl : d = '=' := by simpa using hhead
  rw [assigned?, isWord_if.word?_append hcw] at ha
  simp only [Option.bind_eq_bind, Option.bind_some, hstart, ← hu] at ha
  cases ha

/-- **A statement on a trimmed line** has a canonical form that can be read back, or it is the line
itself. -/
theorem plain_of_ofContent {s : Statement} (h : ofContent t = .ok s) (ht : t.trim = t) :
    s.Plain ∨ s = unrecognized t := by
  unfold ofContent at h
  split at h
  · cases h
    exact .inl trivial
  split at h
  · next target value ha =>
    cases h
    exact .inl ⟨(takenFrom_of_assigned? ha).1, trim_of_assigned? ha ht⟩
  next ha =>
  split at h
  · next var args hl =>
    split at h
    · next range hr =>
      cases h
      exact .inl ⟨isWord_of_loopHeader? hl, Range.fits_of_ofText? hr⟩
    · cases h
  split at h
  · next text hb =>
    split at h
    · next cond hc =>
      cases h
      obtain ⟨hstart, hhead⟩ := head?_of_branchHeader? hb ha
      exact .inl (Condition.plain_of_ofText? hc hstart hhead)
    · cases h
  · cases h
    exact .inr rfl

theorem ofLine_trim (line : Text) : ofLine line.trim = ofLine line := by
  unfold ofLine
  rw [trim_trim]

theorem wellFormed_of_ofLine {line : Text} {s : Statement} (h : ofLine line = .ok s) :
    s.WellFormed line ∧ ofLine s.render = .ok s := by
  have hline := h
  unfold ofLine at h
  split at h
  · cases h
    exact ⟨trivial, rfl⟩
  · cases h
    exact ⟨trivial, rfl⟩
  rcases plain_of_ofContent h (trim_trim line) with hs | rfl
  · exact ⟨.of_plain hs, ofLine_render (List.forall_mem_nil _) hs⟩
  · exact ⟨rfl, (ofLine_trim line).trans hline⟩

/-- **Reading round-trips through the canonical form.** What is read from a line has well-formed
fields, and its canonical form says it again; and every statement whose names are words, whose texts
are trimmed and whose condition begins with nothing like an assignment is what its canonical form
says. -/
theorem reading_round_trip :
    (∀ (line : Text) (s : Statement), ofLine line = .ok s →
      s.WellFormed line ∧ ofLine s.render = .ok s) ∧
    ∀ s : Statement, s.Plain → ofLine s.render = .ok s :=
  ⟨fun _ _ => wellFormed_of_ofLine, fun _ => ofLine_render (List.forall_mem_nil _)⟩

/-- A line with more blanks and operators than its statement keeps. -/
theorem reading_round_trip_branch :
    let line := "  if \tx =>= y < z :  ".toList
    let s := branch ⟨"x =".toList, .ge, ['y']⟩
    ofLine line = .ok s ∧ s.WellFormed line ∧ ofLine s.render = .ok s ∧ s.Plain ∧
      s.render = "if x = >= y:".toList := by
  intro line s
  have hread : ofLine line = .ok s := by decide +kernel
  obtain ⟨hwell, hrender⟩ := reading_round_trip.1 line s hread
  have hplain : s.Plain :=
    ⟨hwell.lhs_trim, hwell.rhs_trim, hwell.lhs_clean, hwell.rhs_clean, by decide, by decide⟩
  exact ⟨hread, hwell, reading_round_trip.2 s hplain, hplain, by decide⟩

end Statement

end LessonScript
