import LessonScript.Proofs.Layered

/-! # What an expression looks up

An expression is looked at in pieces: itself without the blanks around it, then what stands between
its operators, again without blanks. Neither a blank nor an operator is a character of a word, so
every piece *stands by itself* in the expression (`Text.StandsIn`); if a piece is a word, it is one
of the words of the expression.

The value of an expression depends on nothing but what the scope binds to these pieces
(`evaluate_congr`), and a name that is not bound is one of them (`standsIn_of_unbound`). -/

namespace LessonScript

/-! ### Texts that stand by themselves -/

namespace Text

/-- **The text stands by itself in another**: at some place of it, with no character of a word next
to it. -/
def StandsIn (v e : Text) : Prop :=
  ∃ pre post : Text, e = pre ++ (v ++ post) ∧ (∀ c ∈ pre.getLast?, isWordChar c = false) ∧
    ∀ c ∈ post.head?, isWordChar c = false

/-- The longest runs of characters of words in a text; empty where no such characters are. -/
def words (e : Text) : List Text := e.splitOnP fun c => !isWordChar c

variable {u v e t : Text}

theorem StandsIn.isInfix (h : v.StandsIn e) : v <:+: e := by
  obtain ⟨pre, post, rfl, -, -⟩ := h
  exact ⟨pre, post, List.append_assoc pre v post⟩

theorem standsIn_refl (v : Text) : v.StandsIn v := ⟨[], [], by simp, by simp, by simp⟩

theorem StandsIn.trans (h : u.StandsIn v) (h' : v.StandsIn e) : u.StandsIn e := by
  obtain ⟨pre, post, rfl, hpre, hpost⟩ := h
  obtain ⟨pre', post', rfl, hpre', hpost'⟩ := h'
  refine ⟨pre' ++ pre, post ++ post', by simp only [List.append_assoc], fun c hc => ?_,
    fun c hc => ?_⟩
  · rw [List.getLast?_append, Option.mem_def, Option.or_eq_some_iff] at hc
    rcases hc with hc | ⟨-, hc⟩
    · exact hpre c hc
    · exact hpre' c hc
  · rw [List.head?_append, Option.mem_def, Option.or_eq_some_iff] at hc
    rcases hc with hc | ⟨-, hc⟩
    · exact hpost c hc
    · exact hpost' c hc

theorem isWordChar_of_isBlank {c : Char} (h : isBlank c = true) : isWordChar c = false := by
  by_contra hc
  have hb := isBlank_of_isWordChar (by simpa using hc : isWordChar c = true)
  rw [h] at hb
  cases hb

theorem exists_margins (t : Text) : ∃ left right : Text, t = left ++ (t.trim ++ right) ∧
    (∀ c ∈ left, isBlank c = true) ∧ ∀ c ∈ right, isBlank c = true := by
  have hstart : t.takeWhile isBlank ++ t.trimStart = t := List.takeWhile_append_dropWhile
  have hend : t.trim ++ (t.trimStart.reverse.takeWhile isBlank).reverse = t.trimStart := by
    have h := List.takeWhile_append_dropWhile (p := isBlank) (l := t.trimStart.reverse)
    rw [← List.reverse_inj, List.reverse_append, trim, trimEnd, List.reverse_reverse,
      List.reverse_reverse]
    exact h
  refine ⟨t.takeWhile isBlank, (t.trimStart.reverse.takeWhile isBlank).reverse, ?_, ?_, ?_⟩
  · rw [hend, hstart]
  · exact fun c hc => List.mem_takeWhile_imp hc
  · exact fun c hc => List.mem_takeWhile_imp (List.mem_reverse.mp hc)

theorem trim_standsIn (t : Text) : t.trim.StandsIn t := by
  obtain ⟨left, right, ht, hl, hr⟩ := exists_margins t
  refine ⟨left, right, ht, fun c hc => ?_, fun c hc => ?_⟩
  · exact isWordChar_of_isBlank (hl c (List.mem_of_getLast? hc))
  · exact isWordChar_of_isBlank (hr c (List.mem_of_head? hc))

/-- The pieces between separators that are no characters of words stand by themselves. -/
theorem standsIn_intercalate {c : Char} (hc : isWordChar c = false) {ps : List Text}
    (h : v ∈ ps) : v.StandsIn ([c].intercalate ps) := by
  induction ps with
  | nil => cases h
  | cons p ps ih =>
    rcases ps with _ | ⟨q, ps⟩
    · rw [List.mem_singleton] at h
      rw [h, List.intercalate_singleton]
      exact standsIn_refl p
    rw [List.intercalate_cons_cons, List.append_assoc]
    rcases List.mem_cons.mp h with rfl | h
    · exact ⟨[], _, rfl, by simp, by simp [hc]⟩
    · refine (ih h).trans ⟨p ++ [c], [], by simp, fun d hd => ?_, by simp⟩
      rw [List.getLast?_concat, Option.mem_some_iff] at hd
      rwa [← hd]

theorem standsIn_of_mem_splitOn {c : Char} (hc : isWordChar c = false)
    (h : v ∈ e.splitOn c) : v.StandsIn e := by
  have hv := standsIn_intercalate hc h
  rwa [List.intercalate_splitOn] at hv

/-- **A word that stands by itself in a text is one of its words.** -/
theorem StandsIn.mem_words (h : v.StandsIn e) (hv : v.IsWord) : v ∈ e.words := by
  obtain ⟨pre, post, rfl, hpre, hpost⟩ := h
  have hchars : ∀ c ∈ v, (!isWordChar c) = false := fun c hc => by simp [hv.chars c hc]
  have hback : v ∈ words (v ++ post) := by
    rcases post with _ | ⟨d, post⟩
    · rw [List.append_nil, words, List.splitOnP_eq_singleton hchars]
      exact List.mem_singleton_self v
    · have hd : (!isWordChar d) = true := by simp [hpost d rfl]
      rw [words, List.splitOnP_append_cons_of_forall_mem hchars d hd]
      exact List.mem_cons_self
  rcases List.eq_nil_or_concat' pre with rfl | ⟨pre, c, rfl⟩
  · exact hback
  · have hc : (!isWordChar c) = true := by simp [hpre c (List.getLast?_concat)]
    have hsplit := List.splitOnP_append_cons (p := fun c => !isWordChar c) pre (v ++ post) hc
    rw [List.append_assoc, List.singleton_append, words, hsplit]
    exact List.mem_append_right _ hback

end Text

/-! ### Evaluating operands in order -/

section Operands

variable {α β ε : Type} {f g : α → Except ε β} {xs : List α} {ys : List β} {err : ε}

theorem mapM_congr_of_mem (h : ∀ x ∈ xs, f x = g x) : xs.mapM f = xs.mapM g := by
  induction xs with
  | nil => rfl
  | cons x xs ih =>
    have hrest := ih fun y hy => h y (List.mem_cons_of_mem x hy)
    rw [List.mapM_cons, List.mapM_cons, h x List.mem_cons_self, hrest]

theorem exists_of_mapM_ok (h : xs.mapM f = .ok ys) : ∀ y ∈ ys, ∃ x ∈ xs, f x = .ok y := by
  induction xs generalizing ys with
  | nil =>
    cases h
    exact fun y hy => absurd hy List.not_mem_nil
  | cons x xs ih =>
    rw [List.mapM_cons] at h
    rcases hx : f x with e | z <;> rw [hx] at h
    · cases h
    rcases hr : xs.mapM f with e | zs <;> rw [hr] at h
    · cases h
    obtain rfl : z :: zs = ys := Except.ok.inj h
    intro y hy
    rcases List.mem_cons.mp hy with rfl | hy
    · exact ⟨x, List.mem_cons_self, hx⟩
    · obtain ⟨x', hx', hy'⟩ := ih hr y hy
      exact ⟨x', List.mem_cons_of_mem x hx', hy'⟩

theorem exists_of_mapM_error (h : xs.mapM f = .error err) : ∃ x ∈ xs, f x = .error err := by
  induction xs with
  | nil => cases h
  | cons x xs ih =>
    rw [List.mapM_cons] at h
    rcases hx : f x with e | z <;> rw [hx] at h
    · obtain rfl : e = err := Except.error.inj h
      exact ⟨x, List.mem_cons_self, hx⟩
    rcases hr : xs.mapM f with e | zs <;> rw [hr] at h
    · obtain rfl : e = err := Except.error.inj h
      obtain ⟨x', hx', he⟩ := ih hr
      exact ⟨x', List.mem_cons_of_mem x hx', he⟩
    · cases h

end Operands

/-! ### The pieces of an expression -/

variable {ν : Type} [NumberSystem ν]

/-- What can go wrong when values are combined: a difference with an operand that is not number-like,
or a division by zero. -/
theorem Operator.eq_of_combine_error {op : Operator} {vs : List (Value ν)} {err : EvalError}
    (h : op.combine vs = .error err) :
    op = .sub ∧ err = .operandType .sub ∨ op = .div ∧ err = .zeroDivision := by
  cases op with
  | add =>
    simp only [combine] at h
    split at h <;> cases h
  | sub =>
    simp only [combine] at h
    split at h
    · cases h
    · exact .inl ⟨rfl, (Except.error.inj h).symm⟩
  | mul => cases h
  | div =>
    simp only [combine] at h
    split at h
    · exact .inr ⟨rfl, (Except.error.inj h).symm⟩
    · cases h

/-- Values are not combined to an unbound name. -/
theorem Operator.combine_ne_unbound (op : Operator) (vs : List (Value ν)) (name : Text) :
    op.combine vs ≠ .error (.unbound name) := by
  intro h
  rcases eq_of_combine_error h with ⟨-, herr⟩ | ⟨-, herr⟩ <;> cases herr

namespace Expression

theorem compound_of_mem {s : Scope ν} {op : Operator} {ops : List Operator} {e : Text}
    (h : op.symbol ∈ e) : compound s (op :: ops) e =
      (e.splitOn op.symbol).mapM (operand s (compound s ops)) >>= fun vs => op.combine vs := by
  rw [compound, if_pos (by simpa using h)]

theorem compound_of_not_mem {s : Scope ν} {op : Operator} {ops : List Operator} {e : Text}
    (h : op.symbol ∉ e) : compound s (op :: ops) e = compound s ops e := by
  rw [compound, if_neg (by simpa using h)]

section Congr

variable {s s' : Scope ν}

theorem atom?_congr {e : Text} (h : s.read? e = s'.read? e) : atom? s e = atom? s' e := by
  rw [atom?, atom?, h]

theorem operand_congr {f f' : Text → Except EvalError (Value ν)} {t : Text}
    (h : s.read? t.trim = s'.read? t.trim) (hf : f t.trim = f' t.trim) :
    operand s f t = operand s' f' t := by
  rw [operand, operand, atom?_congr h, hf]

/-- Cutting an expression looks up pieces of it that stand by themselves. -/
theorem compound_congr (ops : List Operator) :
    ∀ e, (∀ v, v.StandsIn e → s.read? v = s'.read? v) → compound s ops e = compound s' ops e := by
  induction ops with
  | nil => exact fun e _ => rfl
  | cons op ops ih =>
    intro e h
    by_cases hop : op.symbol ∈ e
    · rw [compound_of_mem hop, compound_of_mem hop]
      refine congrArg (· >>= _) (mapM_congr_of_mem fun t ht => ?_)
      have hstands := Text.standsIn_of_mem_splitOn (isWordChar_symbol op) ht
      have htrim := (Text.trim_standsIn t).trans hstands
      exact operand_congr (h _ htrim) (ih _ fun v hv => h v (hv.trans htrim))
    · rw [compound_of_not_mem hop, compound_of_not_mem hop]
      exact ih e h

end Congr

/-- What is not bound is a piece that stands by itself. -/
theorem standsIn_of_compound {s : Scope ν} {name : Text} (ops : List Operator) :
    ∀ e, compound s ops e = .error (.unbound name) → name.StandsIn e := by
  induction ops with
  | nil =>
    intro e h
    obtain rfl : e = name := EvalError.unbound.inj (Except.error.inj h)
    exact Text.standsIn_refl e
  | cons op ops ih =>
    intro e h
    by_cases hop : op.symbol ∈ e
    · rw [compound_of_mem hop] at h
      rcases hvs : (e.splitOn op.symbol).mapM (operand s (compound s ops)) with err | vs <;>
        rw [hvs] at h
      · obtain rfl : err = .unbound name := Except.error.inj h
        obtain ⟨t, ht, herr⟩ := exists_of_mapM_error hvs
        have hstands := Text.standsIn_of_mem_splitOn (isWordChar_symbol op) ht
        unfold operand at herr
        split at herr
        · cases herr
        · exact (ih _ herr).trans ((Text.trim_standsIn t).trans hstands)
      · exact absurd h (op.combine_ne_unbound vs name)
    · rw [compound_of_not_mem hop] at h
      exact ih e h

end Expression

/-- **An expression looks up nothing but pieces of it that stand by themselves.** -/
theorem evaluate_congr {s s' : Scope ν} {e : Text}
    (h : ∀ v, v.StandsIn e → s.read? v = s'.read? v) : evaluate s e = evaluate s' e := by
  have htrim := Text.trim_standsIn e
  exact Expression.operand_congr (h _ htrim)
    (Expression.compound_congr _ _ fun v hv => h v (hv.trans htrim))

theorem standsIn_of_unbound {s : Scope ν} {e name : Text}
    (h : evaluate s e = .error (.unbound name)) : name.StandsIn e := by
  unfold evaluate Expression.operand at h
  split at h
  · cases h
  · exact (Expression.standsIn_of_compound _ _ h).trans (Text.trim_standsIn e)

end LessonScript
