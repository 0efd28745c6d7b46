import LessonScript.Proofs.Lookup

/-! # What an error blames

An expression is cut at one operator after the other, and each piece is looked at as a whole before it
is cut. So a text that is blamed for not being bound (`Expression.Unknown`) is a piece that is trimmed,
that no operator is left in, and that was tried as a literal, as a name and as a numeral. An operand of
the wrong type and a division by zero are blamed on an operator that is in the expression. Nothing else
can go wrong (`EvalError.Blames`).

Main statement: `evaluate_blames`. -/

namespace LessonScript

variable {ν : Type} [NumberSystem ν] {s : Scope ν}

namespace Expression

/-- **A text that says nothing in a scope**: it is not empty, has no blanks around it and no operator
inside, and it is neither quoted, nor bound, nor a finite number. -/
structure Unknown (s : Scope ν) (name : Text) : Prop where
  ne_nil : name ≠ []
  trim : name.trim = name
  uncut : Uncut name
  block : s.block.get? name = none
  globals : s.globals.get? name = none
  unquoted : ∀ (quote : Quote) (inner : Text), quote.mark ∉ inner →
    name ≠ quote.mark :: (inner ++ [quote.mark])
  not_finite : NumberSystem.isFinite (NumberSystem.read name : ν) = false

end Expression

/-- **What an error says about an expression in a scope**: which piece of it is unknown, or which
operator in it has operands that do not go with it. -/
inductive EvalError.Blames (s : Scope ν) (e : Text) : EvalError → Prop
  | unbound {name : Text} : Expression.Unknown s name → name <:+: e → Blames s e (.unbound name)
  | operandType : '-' ∈ e → Blames s e (.operandType .sub)
  | zeroDivision : '/' ∈ e → Blames s e .zeroDivision

/-- What is blamed in a piece is blamed in the whole. -/
theorem EvalError.Blames.mono {t e : Text} {err : EvalError} (h : err.Blames s t) (hte : t <:+: e) :
    err.Blames s e := by
  cases h with
  | unbound hname ht => exact .unbound hname (ht.trans hte)
  | operandType ht => exact .operandType (hte.subset ht)
  | zeroDivision ht => exact .zeroDivision (hte.subset ht)

namespace Expression

variable {e : Text} {err : EvalError}

theorem atom?_eq_none_iff :
    atom? s e = none ↔ literal? e = none ∧ s.read? e = none ∧ (numeral? e : Option ν) = none := by
  rw [atom?, Option.or_eq_none_iff, Option.or_eq_none_iff, Option.map_eq_none_iff,
    Option.map_eq_none_iff]

theorem isFinite_of_numeral?_eq_none (h : (numeral? e : Option ν) = none) :
    NumberSystem.isFinite (NumberSystem.read e : ν) = false := by
  by_contra hfinite
  have hsome : (numeral? e : Option ν) = some (NumberSystem.read e) :=
    if_pos (by simpa using hfinite)
  rw [h] at hsome
  cases hsome

/-- What is no atom and cannot be cut is unknown, if the empty text counts as a number. -/
theorem unknown_of_atom? (hempty : (numeral? [] : Option ν) ≠ none) (htrim : e.trim = e)
    (huncut : Uncut e) (h : atom? s e = none) : Unknown s e := by
  obtain ⟨hliteral, hread, hnumeral⟩ := atom?_eq_none_iff.mp h
  obtain ⟨hblock, hglobals⟩ := Option.or_eq_none_iff.mp hread
  refine ⟨?_, htrim, huncut, hblock, hglobals, ?_, isFinite_of_numeral?_eq_none hnumeral⟩
  · rintro rfl
    exact hempty hnumeral
  · rintro quote inner hinner rfl
    rw [literal?_quoted hinner] at hliteral
    cases hliteral

/-- **Every step of cutting blames a piece of what it cuts.** The text is trimmed and no atom, and the
operators that were tried before are not in it. -/
theorem blames_of_compound (hempty : (numeral? [] : Option ν) ≠ none) (ops : List Operator) :
    ∀ e, e.trim = e → atom? s e = none → (∀ op : Operator, op.symbol ∈ e → op ∈ ops) →
      compound s ops e = .error err → err.Blames s e := by
  induction ops with
  | nil =>
    intro e htrim hatom hops h
    obtain rfl : .unbound e = err := Except.error.inj h
    have huncut : Uncut e := fun op hop => List.not_mem_nil (hops op hop)
    exact .unbound (unknown_of_atom? hempty htrim huncut hatom) List.infix_rfl
  | cons op ops ih =>
    intro e htrim hatom hops h
    -- An operator of a part of the text is another one than the text is cut at.
    have hrest : ∀ t : Text, op.symbol ∉ t → t <:+: e →
        ∀ op' : Operator, op'.symbol ∈ t → op' ∈ ops := by
      intro t hop ht op' hop'
      rcases List.mem_cons.mp (hops op' (ht.subset hop')) with rfl | hmem
      · exact absurd hop' hop
      · exact hmem
    by_cases hop : op.symbol ∈ e
    · rw [compound_of_mem hop] at h
      rcases hvs : (e.splitOn op.symbol).mapM (operand s (compound s ops)) with err' | vs <;>
        rw [hvs] at h
      · obtain rfl : err' = err := Except.error.inj h
        obtain ⟨t, ht, herr⟩ := exists_of_mapM_error hvs
        unfold operand at herr
        split at herr
        · cases herr
        · next hpiece =>
          have hin : t.trim <:+: t := (Text.trim_standsIn t).isInfix
          have hte : t.trim <:+: e :=
            hin.trans (Text.standsIn_of_mem_splitOn (isWordChar_symbol op) ht).isInfix
          have hcut : op.symbol ∉ t.trim := fun hmem =>
            Text.separator_not_mem_splitOn e t ht (hin.subset hmem)
          exact (ih t.trim (Text.trim_trim t) hpiece (hrest _ hcut hte) herr).mono hte
      · rcases op.eq_of_combine_error h with ⟨rfl, rfl⟩ | ⟨rfl, rfl⟩
        · exact .operandType hop
        · exact .zeroDivision hop
    · rw [compound_of_not_mem hop] at h
      exact ih e htrim hatom (hrest e hop List.infix_rfl) h

/-- The empty text counts as the number zero. -/
theorem numeral?_nil : (numeral? [] : Option Float) ≠ none := by decide +kernel

end Expression

/-- **An error blames a part of the expression that deserves it.** If an expression has no value, then
a piece of it is unknown: not empty, without blanks around it, with no operator inside, bound neither
in the block nor in the globals, not quoted and no finite number. Or a difference, with its `-` in the
expression, has an operand of the wrong type; or a quotient, with its `/` in it, divides by zero. -/
theorem evaluate_blames (s : Scope Float) (e : Text) (err : EvalError)
    (h : evaluate s e = .error err) : err.Blames s e := by
  unfold evaluate Expression.operand at h
  split at h
  · cases h
  · next hatom =>
    have hin : e.trim <:+: e := (Text.trim_standsIn e).isInfix
    exact (Expression.blames_of_compound Expression.numeral?_nil _ e.trim (Text.trim_trim e) hatom
      (fun op _ => op.mem_all) h).mono hin

/-- A scope with one global. -/
def oneGlobal : Scope Float := Scope.empty.write "x".toList (.text "two".toList)

/-- Brackets mean nothing, so a piece begins with one. -/
theorem evaluate_blames_brackets :
    let e := "1 + x * ( 2 - 1 )".toList
    evaluate oneGlobal e = .error (.unbound "( 2".toList) ∧
      EvalError.Blames oneGlobal e (.unbound "( 2".toList) := by
  intro e
  have herror : evaluate oneGlobal e = .error (.unbound "( 2".toList) := by decide +kernel
  exact ⟨herror, evaluate_blames oneGlobal e _ herror⟩

end LessonScript
