import LessonScript.Proofs.Canonical

/-! # The fields of a statement

Whatever line a statement is read from, its names are words and its texts are pieces of the line
(`Statement.TakenFrom`): reading trims and cuts, and puts nothing together. -/

namespace LessonScript

namespace Text

variable {t : Text}

theorem trim_isInfix (t : Text) : t.trim <:+: t := by
  have hstart : t.trimStart <:+ t := List.dropWhile_suffix _
  exact (isPrefix_trimEnd t.trimStart).isInfix.trans hstart.isInfix

theorem word?_eq_some {w rest : Text} (h : word? t = some (w, rest)) :
    w.IsWord ∧ t = w ++ rest := by
  have hsplit := List.takeWhile_append_dropWhile (p := isWordChar) (l := t)
  have hchars : ∀ c ∈ t.takeWhile isWordChar, isWordChar c = true :=
    fun c hc => List.mem_takeWhile_imp hc
  unfold word? at h
  rcases hw : t.takeWhile isWordChar with _ | ⟨c, u⟩ <;> rw [hw] at h hsplit hchars
  · cases h
  · obtain ⟨rfl, rfl⟩ := Prod.mk.inj (Option.some.inj h)
    exact ⟨⟨List.cons_ne_nil c u, hchars⟩, hsplit.symm⟩

theorem afterBlanks?_suffix {rest : Text} (h : afterBlanks? t = some rest) : rest <:+ t := by
  rcases t with _ | ⟨c, t⟩
  · cases h
  · simp only [afterBlanks?] at h
    split_ifs at h with hc
    obtain rfl := Option.some.inj h
    exact (List.dropWhile_suffix _).trans (List.suffix_cons c t)

end Text

theorem suffix_of_isPrefixOf? {t u rest : Text} (h : t.isPrefixOf? u = some rest) : rest <:+ u :=
  ⟨t, List.isPrefixOf?_eq_some_iff_append_eq.mp h⟩

theorem prefix_of_isSuffixOf? {t u rest : Text} (h : t.isSuffixOf? u = some rest) : rest <+: u :=
  ⟨t, List.isSuffixOf?_eq_some_iff_append_eq.mp h⟩

/-! ### Conditions -/

namespace CompareOp

theorem front?_eq_some {t rest : Text} {op : CompareOp} (h : front? t = some (op, rest)) :
    t = op.symbol ++ rest := by
  obtain ⟨op', -, hop⟩ := List.exists_of_findSome?_eq_some h
  obtain ⟨rest', hp, heq⟩ := Option.map_eq_some_iff.mp hop
  obtain ⟨rfl, rfl⟩ := Prod.mk.inj heq
  exact (List.isPrefixOf?_eq_some_iff_append_eq.mp hp).symm

theorem cutFrom_eq_some {t before after : Text} {op : CompareOp} :
    ∀ seen : Text, cutFrom seen t = some (before, op, after) →
      seen.reverse ++ t = before ++ (op.symbol ++ after) := by
  induction t with
  | nil =>
    intro seen h
    cases h
  | cons c t ih =>
    intro seen h
    rw [cutFrom] at h
    split at h
    · next op' rest hfront =>
      obtain ⟨rfl, heq⟩ := Prod.mk.inj (Option.some.inj h)
      obtain ⟨rfl, rfl⟩ := Prod.mk.inj heq
      rw [front?_eq_some hfront]
    · have hrest := ih (c :: seen) h
      rw [← hrest, List.reverse_cons, List.append_assoc, List.singleton_append]

/-- Cutting loses nothing. -/
theorem cut?_eq_some {t before after : Text} {op : CompareOp}
    (h : cut? t = some (before, op, after)) : t = before ++ (op.symbol ++ after) :=
  cutFrom_eq_some [] h

end CompareOp

theorem Condition.infix_of_ofText? {t : Text} {cond : Condition} (h : ofText? t = some cond) :
    cond.lhs <:+: t ∧ cond.rhs <:+: t := by
  obtain ⟨⟨before, op, after⟩, hcut, rfl⟩ := Option.map_eq_some_iff.mp h
  have ht := CompareOp.cut?_eq_some hcut
  have hafter : after <:+: t := by
    rw [ht, ← List.append_assoc]
    exact (List.suffix_append _ _).isInfix
  refine ⟨(Text.trim_isInfix before).trans ?_, (Text.trim_isInfix _).trans ?_⟩
  · rw [ht]
    exact (List.prefix_append _ _).isInfix
  · split
    · next before' op' rest' hcut' =>
      have ha := CompareOp.cut?_eq_some hcut'
      have hbefore : before' <+: after := ⟨_, ha.symm⟩
      exact hbefore.isInfix.trans hafter
    · exact hafter

/-! ### Statements -/

namespace Statement

/-- **The fields of a statement are well formed and taken from a text**: names are words, and the
other texts are pieces of it. -/
def TakenFrom (t : Text) : Statement → Prop
  | skip => True
  | print expr => expr <:+: t
  | assign target value => target.IsWord ∧ value <:+: t
  | loop var _ => var.IsWord
  | branch cond => cond.lhs <:+: t ∧ cond.rhs <:+: t
  | unrecognized text => text <:+: t

theorem TakenFrom.mono {t u : Text} {s : Statement} (h : s.TakenFrom t) (htu : t <:+: u) :
    s.TakenFrom u := by
  cases s with
  | skip | loop _ _ => exact h
  | print _ | unrecognized _ => exact List.IsInfix.trans h htu
  | assign _ _ => exact ⟨h.1, h.2.trans htu⟩
  | branch _ => exact ⟨h.1.trans htu, h.2.trans htu⟩

variable {t : Text}

theorem infix_of_printed? {expr : Text} (h : printed? t = some expr) : expr <:+: t := by
  obtain ⟨rest, hrest, hexpr⟩ := Option.bind_eq_some_iff.mp h
  exact (prefix_of_isSuffixOf? hexpr).isInfix.trans (suffix_of_isPrefixOf? hrest).isInfix

theorem takenFrom_of_assigned? {target value : Text} (h : assigned? t = some (target, value)) :
    target.IsWord ∧ value <:+: t := by
  obtain ⟨⟨w, rest⟩, hword, h⟩ := Option.bind_eq_some_iff.mp h
  obtain ⟨v, hv, h⟩ := Option.bind_eq_some_iff.mp h
  obtain ⟨rfl, rfl⟩ := Prod.mk.inj (Option.some.inj h)
  obtain ⟨hw, ht⟩ := Text.word?_eq_some hword
  have hrest : rest <:+ t := ⟨w, ht.symm⟩
  have hv' : v <:+ rest := (suffix_of_isPrefixOf? hv).trans (List.dropWhile_suffix _)
  have hvalue : Text.trimStart v <:+ v := List.dropWhile_suffix _
  exact ⟨hw, (hvalue.trans (hv'.trans hrest)).isInfix⟩

theorem isWord_of_loopHeader? {var args : Text} (h : loopHeader? t = some (var, args)) :
    var.IsWord := by
  simp only [loopHeader?, Option.bind_eq_bind, Option.bind_eq_some_iff] at h
  obtain ⟨_, -, _, -, ⟨w, rest⟩, hword, _, -, _, -, _, -, _, -, _, -, h⟩ := h
  obtain ⟨rfl, -⟩ := Prod.mk.inj (Option.some.inj h)
  exact (Text.word?_eq_some hword).1

theorem infix_of_branchHeader? {cond : Text} (h : branchHeader? t = some cond) : cond <:+: t := by
  simp only [branchHeader?, Option.bind_eq_bind, Option.bind_eq_some_iff] at h
  obtain ⟨rest', hif, rest, hblanks, hcond⟩ := h
  have hrest := (Text.afterBlanks?_suffix hblanks).trans (suffix_of_isPrefixOf? hif)
  exact (prefix_of_isSuffixOf? hcond).isInfix.trans hrest.isInfix

theorem takenFrom_of_ofContent {s : Statement} (h : ofContent t = .ok s) : s.TakenFrom t := by
  unfold ofContent at h
  split at h
  · next expr hp =>
    cases h
    exact infix_of_printed? hp
  split at h
  · next target value ha =>
    cases h
    exact takenFrom_of_assigned? ha
  split at h
  · next var args hl =>
    split at h
    · cases h
      exact isWord_of_loopHeader? hl
    · cases h
  split at h
  · next text hb =>
    split at h
    · next cond hc =>
      cases h
      obtain ⟨hl, hr⟩ := Condition.infix_of_ofText? hc
      have htext := infix_of_branchHeader? hb
      exact ⟨hl.trans htext, hr.trans htext⟩
    · cases h
  · cases h
    exact List.infix_rfl

/-- **The fields of a statement are well formed and taken from its line.** -/
theorem takenFrom_of_ofLine {s : Statement} (h : ofLine t = .ok s) : s.TakenFrom t := by
  unfold ofLine at h
  split at h
  · cases h
    trivial
  · cases h
    trivial
  · exact (takenFrom_of_ofContent h).mono (Text.trim_isInfix t)

end Statement

end LessonScript
