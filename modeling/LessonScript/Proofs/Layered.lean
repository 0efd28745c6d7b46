import LessonScript.Expression
import LessonScript.Proofs.Numerals

/-! # Layered expressions

An expression without brackets is a tree with one level for each operator: operands joined by `+`,
each of them operands joined by `-`, those by `*`, and those by `/`, down to the *atoms*. An atom is
a word, an unsigned numeral or a quoted text without operators. `Layered.value` says what such a
tree comes to, by recursion on the tree; `Layered.Renders` says how it is written, with blanks
around every operator.

An expression is evaluated as a text, so at every level the text could be taken for something else
before it is cut: for a literal, a name or a numeral. It is not (`atom?_append`): it begins with an
atom and goes on with a blank and an operator. One lemma does all four levels (`Level.joined`).

Main statement: `evaluate_layered`. -/

namespace LessonScript

/-! ### Atoms -/

/-- No operator is written in the text. -/
def Uncut (t : Text) : Prop := ∀ op : Operator, op.symbol ∉ t

theorem Operator.mem_all (op : Operator) : op ∈ all := by cases op <;> decide

instance (t : Text) : Decidable (Uncut t) :=
  decidable_of_iff (∀ op ∈ Operator.all, op.symbol ∉ t)
    ⟨fun h op => h op op.mem_all, fun h op _ => h op⟩

/-- The text is a numeral without a sign, and there is no operator inside. -/
structure Numeral.Unsigned (t : Text) : Prop where
  ne_nil : t ≠ []
  trim : t.trim = t
  numeral : (Numeral.ofText? t).isSome = true
  uncut : Uncut t

inductive Quote
  | single
  | double
deriving DecidableEq, Repr

def Quote.mark : Quote → Char
  | single => '\''
  | double => '"'

/-- An operand that is not cut any further. -/
inductive Atom
  | word (t : Text) (h : t.IsWord)
  | numeral (t : Text) (h : Numeral.Unsigned t)
  /-- A text between two quotes that are not inside it. -/
  | quoted (quote : Quote) (inner : Text) (h : quote.mark ∉ inner) (h' : Uncut inner)

def Atom.text : Atom → Text
  | word t _ => t
  | numeral t _ => t
  | quoted quote inner _ _ => quote.mark :: (inner ++ [quote.mark])

def Atom.Renders (a : Atom) (e : Text) : Prop := e = a.text

/-! ### Trees -/

/-- The operands of a level, from left to right. -/
structure Joined (α : Type) where
  first : α
  others : List α

/-- A tree of atoms with a level for each operator. -/
abbrev Layered := Joined (Joined (Joined (Joined Atom)))

/-- **How a level is written**: its operands as they are written, with the operator between two of
them and one or more blanks on both sides of it. -/
inductive Spaced {α : Type} (op : Operator) (R : α → Text → Prop) : Joined α → Text → Prop
  | one {x : α} {e : Text} : R x e → Spaced op R ⟨x, []⟩ e
  | more {x y : α} {ys : List α} {e e' left right : Text} :
      R x e → left ≠ [] → (∀ c ∈ left, isBlank c = true) → right ≠ [] →
      (∀ c ∈ right, isBlank c = true) → Spaced op R ⟨y, ys⟩ e' →
      Spaced op R ⟨x, y :: ys⟩ (e ++ (left ++ op.symbol :: (right ++ e')))

/-- **How a tree is written.** -/
def Layered.Renders : Layered → Text → Prop :=
  Spaced .add (Spaced .sub (Spaced .mul (Spaced .div Atom.Renders)))

/-- A level with a space on both sides of every operator. -/
def Joined.text {α : Type} (op : Operator) (text : α → Text) (x : Joined α) : Text :=
  text x.first ++ x.others.flatMap fun y => ' ' :: op.symbol :: ' ' :: text y

def Layered.text : Layered → Text :=
  Joined.text .add (Joined.text .sub (Joined.text .mul (Joined.text .div Atom.text)))

theorem spaced_text {α : Type} {op : Operator} {R : α → Text → Prop} {text : α → Text}
    (h : ∀ x, R x (text x)) (x : Joined α) : Spaced op R x (x.text op text) := by
  have hspace : ∀ c ∈ [' '], isBlank c = true := List.forall_mem_singleton.mpr Text.isBlank_space
  obtain ⟨x, ys⟩ := x
  induction ys generalizing x with
  | nil =>
    rw [Joined.text, List.flatMap_nil, List.append_nil]
    exact .one (h x)
  | cons y ys ih =>
    have htext : Joined.text op text ⟨x, y :: ys⟩ =
        text x ++ ([' '] ++ op.symbol :: ([' '] ++ Joined.text op text ⟨y, ys⟩)) := rfl
    rw [htext]
    exact .more (h x) (by simp) hspace (by simp) hspace (ih y)

/-- Every tree can be written. -/
theorem Layered.renders_text (x : Layered) : x.Renders x.text := by
  have hatom : ∀ a : Atom, a.Renders a.text := fun _ => rfl
  exact spaced_text (spaced_text (spaced_text (spaced_text hatom))) x

/-! ### Values -/

variable {ν : Type} [NumberSystem ν]

/-- The value of a word or a numeral: what the block binds to it, else what the globals do, else the
finite number that it says. -/
def bareValue (s : Scope ν) (t : Text) : Except EvalError (Value ν) :=
  match s.block.get? t, s.globals.get? t with
  | some v, _ => .ok v
  | none, some v => .ok v
  | none, none =>
    let n : ν := NumberSystem.read t
    if NumberSystem.isFinite n then .ok (.number n) else .error (.unbound t)

def Atom.value (s : Scope ν) : Atom → Except EvalError (Value ν)
  | word t _ => bareValue s t
  | numeral t _ => bareValue s t
  | quoted _ inner _ _ => .ok (.text inner)

/-- What two or more values come to. A sum begins at zero; it is a text if one of them is not
number-like. A difference has to be one of numbers. A product begins at one. The first divisor may
not be zero. -/
def Operator.result (op : Operator) (v u : Value ν) (vs : List (Value ν)) :
    Except EvalError (Value ν) :=
  match op with
  | add =>
    if (v :: u :: vs).all Value.isNumberLike then
      .ok (.number ((v :: u :: vs).foldl (fun n w => n + w.toNumber) (NumberSystem.ofInt 0)))
    else .ok (.text ((v :: u :: vs).flatMap Value.toText))
  | sub =>
    if (v :: u :: vs).all Value.isNumberLike then
      .ok (.number ((u :: vs).foldl (fun n w => n - w.toNumber) v.toNumber))
    else .error (.operandType .sub)
  | mul => .ok (.number ((v :: u :: vs).foldl (fun n w => n * w.toNumber) (NumberSystem.ofInt 1)))
  | div =>
    if u.toNumber == NumberSystem.ofInt 0 then .error .zeroDivision
    else .ok (.number ((u :: vs).foldl (fun n w => n / w.toNumber) v.toNumber))

/-- The value of a level: that of its operand if there is only one. Two or more are evaluated from
left to right, up to the first error, and then combined. -/
def Joined.value {α : Type} (op : Operator) (value : α → Except EvalError (Value ν)) :
    Joined α → Except EvalError (Value ν)
  | ⟨x, []⟩ => value x
  | ⟨x, y :: ys⟩ => do
    let v ← value x
    let u ← value y
    let vs ← ys.mapM value
    op.result v u vs

/-- **What a tree comes to** in a scope. -/
def Layered.value (s : Scope ν) : Layered → Except EvalError (Value ν) :=
  Joined.value .add (Joined.value .sub (Joined.value .mul (Joined.value .div (Atom.value s))))

/-- All names that the scope binds are words. -/
def Scope.BindsWords (s : Scope ν) : Prop := ∀ name v, s.read? name = some v → name.IsWord

/-- No name that the scope binds has an operator inside. -/
def Scope.BindsUncut (s : Scope ν) : Prop := ∀ name v, s.read? name = some v → Uncut name

/-! ### What atoms look like -/

theorem isNumeralChar_mark (quote : Quote) : isNumeralChar quote.mark = false := by
  cases quote <;> decide

theorem isBlank_mark (quote : Quote) : isBlank quote.mark = false := by cases quote <;> decide

theorem isWordChar_symbol (op : Operator) : isWordChar op.symbol = false := by
  cases op <;> decide

theorem isBlank_symbol (op : Operator) : isBlank op.symbol = false := by cases op <;> decide

theorem symbol_ne_mark (op : Operator) (quote : Quote) : op.symbol ≠ quote.mark := by
  cases op <;> cases quote <;> decide

theorem symbol_inj {op op' : Operator} (h : op.symbol = op'.symbol) : op = op' := by
  cases op <;> cases op' <;> first | rfl | exact absurd h (by decide)

theorem Text.IsWord.uncut {t : Text} (h : t.IsWord) : Uncut t := by
  intro op hop
  have hc := h.chars _ hop
  rw [isWordChar_symbol] at hc
  cases hc

omit [NumberSystem ν] in
theorem Scope.BindsWords.bindsUncut {s : Scope ν} (hs : s.BindsWords) : s.BindsUncut :=
  fun name v hv => (hs name v hv).uncut

namespace Numeral.Unsigned

theorem spelled {t : Text} (h : Unsigned t) : Spelled t := by
  obtain ⟨n, hn⟩ := Option.isSome_iff_exists.mp h.numeral
  rw [ofText?, h.trim] at hn
  exact spelled_of_ofTrimmed? hn

end Numeral.Unsigned

namespace Atom

/-- A text that is an atom as it stands begins with a character of a numeral. -/
theorem exists_cons_of_bare {t : Text} (h : t.IsWord ∨ Numeral.Unsigned t) :
    ∃ c u, t = c :: u ∧ isNumeralChar c = true := by
  rcases h with h | h
  · obtain ⟨c, u, rfl, hc⟩ := h.exists_cons
    exact ⟨c, u, rfl, isNumeralChar_of_isWordChar hc⟩
  · rcases t with _ | ⟨c, u⟩
    · exact absurd rfl h.ne_nil
    · exact ⟨c, u, rfl, h.spelled c List.mem_cons_self⟩

theorem ne_nil (a : Atom) : a.text ≠ [] := by
  cases a with
  | word t h => exact h.ne_nil
  | numeral t h => exact h.ne_nil
  | quoted quote inner h h' => exact List.cons_ne_nil _ _

theorem trim (a : Atom) : a.text.trim = a.text := by
  cases a with
  | word t h => exact Text.trim_of_no_blank fun c hc => isBlank_of_isWordChar (h.chars c hc)
  | numeral t h => exact h.trim
  | quoted quote inner h h' =>
    refine Text.trim_of_ends (c := quote.mark) (d := quote.mark) rfl (isBlank_mark quote) ?_
      (isBlank_mark quote)
    show (quote.mark :: (inner ++ [quote.mark])).getLast? = some quote.mark
    rw [← List.cons_append, List.getLast?_concat]

theorem uncut (a : Atom) : Uncut a.text := by
  cases a with
  | word t h => exact h.uncut
  | numeral t h => exact h.uncut
  | quoted quote inner h h' =>
    intro op hop
    have hne := symbol_ne_mark op quote
    simp only [text, List.mem_cons, List.mem_append, List.not_mem_nil, or_false] at hop
    rcases hop with hop | hop | hop
    · exact hne hop
    · exact h' op hop
    · exact hne hop

end Atom

/-! ### Literals -/

namespace Expression

theorem quotedBy?_of_ne {quote c : Char} (h : c ≠ quote) (t : Text) :
    quotedBy? quote (c :: t) = none := by
  have hp : [quote].isPrefixOf? (c :: t) = none := by
    simp [List.isPrefixOf?, Ne.symm h]
  rw [quotedBy?, hp]
  rfl

theorem literal?_of_isNumeralChar {c : Char} (h : isNumeralChar c = true) (t : Text) :
    literal? (c :: t) = none := by
  have hs : quotedBy? '\'' (c :: t) = none :=
    quotedBy?_of_ne (ne_of_isNumeralChar h (isNumeralChar_mark .single)) t
  have hd : quotedBy? '"' (c :: t) = none :=
    quotedBy?_of_ne (ne_of_isNumeralChar h (isNumeralChar_mark .double)) t
  rw [literal?, hs, hd]
  rfl

/-- A text that begins with a quote can only be a literal in this quote. -/
theorem literal?_mark (quote : Quote) (t : Text) : literal? (quote.mark :: t) =
    ([quote.mark].isSuffixOf? t).filter fun inner => !inner.contains quote.mark := by
  have hown : quotedBy? quote.mark (quote.mark :: t) =
      ([quote.mark].isSuffixOf? t).filter fun inner => !inner.contains quote.mark := by
    have hp : [quote.mark].isPrefixOf? (quote.mark :: t) = some t := by simp [List.isPrefixOf?]
    rw [quotedBy?, hp]
    rfl
  rw [← hown]
  cases quote with
  | single =>
    have hother : quotedBy? '"' (Quote.single.mark :: t) = none := quotedBy?_of_ne (by decide) t
    rw [literal?, hother, Option.or_none]
    rfl
  | double =>
    have hother : quotedBy? '\'' (Quote.double.mark :: t) = none := quotedBy?_of_ne (by decide) t
    rw [literal?, hother, Option.none_or]
    rfl

theorem literal?_quoted {quote : Quote} {inner : Text} (h : quote.mark ∉ inner) :
    literal? (quote.mark :: (inner ++ [quote.mark])) = some inner := by
  have hs : [quote.mark].isSuffixOf? (inner ++ [quote.mark]) = some inner :=
    List.isSuffixOf?_eq_some_iff_append_eq.mpr rfl
  rw [literal?_mark, hs, Option.filter_some, if_pos (by simpa using h)]

/-- **A literal with more after it is no literal**, even if the whole ends in a quote: the quote that
ends the first one is inside. -/
theorem literal?_append (a : Atom) {rest : Text} (h : rest ≠ []) :
    literal? (a.text ++ rest) = none := by
  have hbare : ∀ t : Text, (t.IsWord ∨ Numeral.Unsigned t) → literal? (t ++ rest) = none := by
    intro t ht
    obtain ⟨c, u, rfl, hc⟩ := Atom.exists_cons_of_bare ht
    exact literal?_of_isNumeralChar hc (u ++ rest)
  cases a with
  | word t ht => exact hbare t (.inl ht)
  | numeral t ht => exact hbare t (.inr ht)
  | quoted quote inner hq hu =>
    show literal? (quote.mark :: (inner ++ [quote.mark] ++ rest)) = none
    rw [literal?_mark, Option.filter_eq_none_iff]
    intro whole hw
    rw [List.isSuffixOf?_eq_some_iff_append_eq] at hw
    obtain ⟨rest', d, rfl⟩ := (List.eq_nil_or_concat' rest).resolve_left h
    rw [← List.append_assoc] at hw
    obtain ⟨hw, -⟩ := List.append_inj' hw rfl
    have hmem : quote.mark ∈ whole := by
      rw [hw]
      simp
    simp [hmem]

end Expression

/-! ### Tidy texts -/

/-- **What evaluation can see of a level.** The text is trimmed, no operators other than those of the
level and the levels below are in it, and it begins with an atom. -/
structure Tidy (ops : List Operator) (e : Text) : Prop where
  trim : e.trim = e
  symbols : ∀ op : Operator, op.symbol ∈ e → op ∈ ops
  front : ∃ (a : Atom) (rest : Text), e = a.text ++ rest

theorem tidy_atom (a : Atom) : Tidy [] a.text where
  trim := a.trim
  symbols op h := absurd h (a.uncut op)
  front := ⟨a, [], (List.append_nil _).symm⟩

theorem symbol_not_mem_of_blank (op : Operator) {t : Text} (h : ∀ c ∈ t, isBlank c = true) :
    op.symbol ∉ t := by
  intro hmem
  have hb := h _ hmem
  rw [isBlank_symbol] at hb
  cases hb

namespace Tidy

variable {ops : List Operator} {e e' left right : Text} {op : Operator}

theorem ne_nil (h : Tidy ops e) : e ≠ [] := by
  obtain ⟨a, rest, rfl⟩ := h.front
  exact List.append_ne_nil_of_left_ne_nil a.ne_nil rest

theorem mono (h : Tidy ops e) : Tidy (op :: ops) e where
  trim := h.trim
  symbols op' hop := List.mem_cons_of_mem _ (h.symbols op' hop)
  front := h.front

/-- With blanks around it, the text is still not cut, and trimming gives it back. -/
theorem margins (h : Tidy ops e) (hop : op ∉ ops) (hl : ∀ c ∈ left, isBlank c = true)
    (hr : ∀ c ∈ right, isBlank c = true) :
    op.symbol ∉ left ++ (e ++ right) ∧ (left ++ (e ++ right)).trim = e := by
  constructor
  · simp only [List.mem_append, not_or]
    exact ⟨symbol_not_mem_of_blank op hl, fun hmem => hop (h.symbols op hmem),
      symbol_not_mem_of_blank op hr⟩
  · exact Text.trim_margins hl hr h.ne_nil h.trim

/-- A text between two that are trimmed does not matter to trimming. -/
theorem trim_append (h : Tidy ops e) (h' : Tidy ops e') (mid : Text) :
    (e ++ (mid ++ e')).trim = e ++ (mid ++ e') := by
  obtain ⟨c, u, hc⟩ := List.exists_cons_of_ne_nil h.ne_nil
  obtain ⟨v, d, hd⟩ := (List.eq_nil_or_concat' e').resolve_left h'.ne_nil
  have hcb : isBlank c = false := Text.isBlank_of_trim_cons (hc ▸ h.trim)
  have hdb : isBlank d = false := Text.isBlank_of_trim_concat (hd ▸ h'.trim)
  refine Text.trim_of_ends (c := c) (d := d) ?_ hcb ?_ hdb
  · rw [hc]
    rfl
  · rw [hd, ← List.append_assoc, ← List.append_assoc, List.getLast?_concat]

/-- Two texts with the operator and blanks between them. -/
theorem append (h : Tidy (op :: ops) e) (h' : Tidy (op :: ops) e')
    (hl : ∀ c ∈ left, isBlank c = true) (hr : ∀ c ∈ right, isBlank c = true) :
    Tidy (op :: ops) (e ++ (left ++ op.symbol :: (right ++ e'))) where
  trim := by
    have ht := h.trim_append h' (left ++ op.symbol :: right)
    rwa [List.append_assoc, List.cons_append] at ht
  symbols op' hop := by
    simp only [List.mem_append, List.mem_cons] at hop
    rcases hop with hop | hop | hop | hop | hop
    · exact h.symbols op' hop
    · exact absurd hop (symbol_not_mem_of_blank op' hl)
    · rw [symbol_inj hop]
      exact List.mem_cons_self
    · exact absurd hop (symbol_not_mem_of_blank op' hr)
    · exact h'.symbols op' hop
  front := by
    obtain ⟨a, rest, he⟩ := h.front
    exact ⟨a, rest ++ (left ++ op.symbol :: (right ++ e')), by rw [he, List.append_assoc]⟩

end Tidy

/-! ### Texts that are cut -/

section Cut

variable {s : Scope ν} (hs : s.BindsUncut) (hν : ReadsNumerals ν)
include hs hν

/-- **A text with an operator between blanks is cut.** It is no literal, no name and no numeral. -/
theorem atom?_append {ops : List Operator} {op : Operator} {e mid : Text} {b : Char}
    (h : Tidy ops e) (hb : isBlank b = true) (hop : op.symbol ∈ mid)
    (ht : (e ++ b :: mid).trim = e ++ b :: mid) : Expression.atom? s (e ++ b :: mid) = none := by
  have hlit : Expression.literal? (e ++ b :: mid) = none := by
    obtain ⟨a, rest, rfl⟩ := h.front
    rw [List.append_assoc]
    exact Expression.literal?_append a (List.append_ne_nil_of_right_ne_nil rest (by simp))
  have hname : s.read? (e ++ b :: mid) = none := by
    rcases hv : s.read? (e ++ b :: mid) with _ | v
    · rfl
    · exact absurd (List.mem_append_right e (List.mem_cons_of_mem b hop)) (hs _ v hv op)
  have hnum : (Expression.numeral? (e ++ b :: mid) : Option ν) = none := by
    have hmem : b ∈ e ++ b :: mid := List.mem_append_right e List.mem_cons_self
    have hf := hν _ (Numeral.ofText?_of_blank ht hmem hb)
    rw [Expression.numeral?]
    simp only [hf]
    rfl
  rw [Expression.atom?, hlit, hname, hnum]
  rfl

end Cut

theorem combine_eq_result (op : Operator) (v u : Value ν) (vs : List (Value ν)) :
    op.combine (v :: u :: vs) = op.result v u vs := by
  cases op with
  | add => simp only [Operator.combine, Operator.result, List.foldl_map]
  | sub =>
    simp only [Operator.combine, Operator.result, combineNumbers, List.map_cons, List.foldl_cons,
      List.foldl_map]
  | mul => simp only [Operator.combine, Operator.result, List.foldl_map]
  | div =>
    simp only [Operator.combine, Operator.result, combineNumbers, List.map_cons, List.foldl_cons,
      List.foldl_map]
    rfl

/-! ### One level -/

section Level

variable {α : Type} {ops : List Operator} {op : Operator} {R : α → Text → Prop}

/-- A level is tidy if its operands are. -/
theorem tidy_of_spaced (hR : ∀ x e, R x e → Tidy ops e) {x : Joined α} {e : Text}
    (h : Spaced op R x e) : Tidy (op :: ops) e := by
  induction h with
  | one hx => exact (hR _ _ hx).mono
  | more hx _ hl _ hr _ ih => exact (hR _ _ hx).mono.append ih hl hr

/-- **The pieces of a level** between its operators, trimmed, are its operands as they are written. -/
theorem splitOn_of_spaced (hop : op ∉ ops) (hR : ∀ x e, R x e → Tidy ops e) {x : Joined α}
    {e : Text} (h : Spaced op R x e) (margin : Text) (hm : ∀ c ∈ margin, isBlank c = true) :
    List.Forall₂ (fun x (t : Text) => R x t.trim) (x.first :: x.others)
      ((margin ++ e).splitOn op.symbol) := by
  -- The blanks after an operator are a margin in front of what is left.
  induction h generalizing margin with
  | @one x e hx =>
    have hpiece : op.symbol ∉ margin ++ (e ++ []) ∧ (margin ++ (e ++ [])).trim = e :=
      (hR x e hx).margins hop hm (by simp)
    rw [List.append_nil] at hpiece
    obtain ⟨hnot, htrim⟩ := hpiece
    rw [List.splitOn_eq_singleton hnot]
    exact .cons (by rwa [htrim]) .nil
  | @more x y ys e e' left right hx _ hl _ hr _ ih =>
    obtain ⟨hnot, htrim⟩ := (hR x e hx).margins hop hm hl
    have hassoc : margin ++ (e ++ (left ++ op.symbol :: (right ++ e'))) =
        margin ++ (e ++ left) ++ op.symbol :: (right ++ e') := by simp
    rw [hassoc, List.splitOn_append_cons_self_of_not_mem hnot]
    exact .cons (by rwa [htrim]) (ih right hr)

/-- **What a level is for evaluation**: its texts are tidy, and with any blanks around them they are
evaluated to the values of the level. -/
structure Level (s : Scope ν) (ops : List Operator) (R : α → Text → Prop)
    (value : α → Except EvalError (Value ν)) : Prop where
  tidy : ∀ x e, R x e → Tidy ops e
  operand : ∀ x (t : Text), R x t.trim →
    Expression.operand s (Expression.compound s ops) t = value x

theorem mapM_of_forall₂ {s : Scope ν} {value : α → Except EvalError (Value ν)}
    (hL : Level s ops R value) {xs : List α} {ts : List Text}
    (h : List.Forall₂ (fun x (t : Text) => R x t.trim) xs ts) :
    ts.mapM (Expression.operand s (Expression.compound s ops)) = xs.mapM value := by
  induction h with
  | nil => rfl
  | cons hx _ ih => rw [List.mapM_cons, List.mapM_cons, hL.operand _ _ hx, ih]

theorem Joined.value_eq_combine (op : Operator) (value : α → Except EvalError (Value ν)) (x y : α)
    (ys : List α) : Joined.value op value ⟨x, y :: ys⟩ =
      ((x :: y :: ys).mapM value >>= fun vs => op.combine vs) := by
  rw [List.mapM_cons, List.mapM_cons, Joined.value]
  simp only [bind_assoc, pure_bind, combine_eq_result]

/-- **A level on top of a level.** Its own operator is not used below. -/
theorem Level.joined (op : Operator) {s : Scope ν} {value : α → Except EvalError (Value ν)}
    (hs : s.BindsUncut) (hν : ReadsNumerals ν) (hop : op ∉ ops) (hL : Level s ops R value) :
    Level s (op :: ops) (Spaced op R) (Joined.value op value) where
  tidy _ _ := tidy_of_spaced hL.tidy
  operand x t h := by
    have htidy := tidy_of_spaced hL.tidy h
    have hpieces := splitOn_of_spaced hop hL.tidy h [] (by simp)
    rw [List.nil_append] at hpieces
    generalize he : t.trim = e at h htidy hpieces
    cases h with
    | @one x e hx =>
      -- There is no operator to cut at, and the operand is evaluated by itself.
      have hnot : op.symbol ∉ t.trim := by
        rw [he]
        exact fun hmem => hop ((hL.tidy x e hx).symbols op hmem)
      have hskip : Expression.compound s (op :: ops) t.trim = Expression.compound s ops t.trim := by
        rw [Expression.compound, if_neg (by simpa using hnot)]
      have hx' := hL.operand x t (he ▸ hx)
      rw [Expression.operand, hskip]
      exact hx'
    | @more x y ys e e' left right hx hne hl hne' hr hy =>
      have hatom : Expression.atom? s (e ++ (left ++ op.symbol :: (right ++ e'))) = none := by
        obtain ⟨b, left', rfl⟩ := List.exists_cons_of_ne_nil hne
        have hop' : op.symbol ∈ left' ++ op.symbol :: (right ++ e') := by simp
        exact atom?_append hs hν (hL.tidy x e hx) (hl b List.mem_cons_self) hop' htidy.trim
      rw [Expression.operand, he, hatom, Joined.value_eq_combine]
      show Expression.compound s (op :: ops) _ = _
      rw [Expression.compound, if_pos (by simp), mapM_of_forall₂ hL hpieces]

end Level

/-! ### All levels -/

section Layers

variable {s : Scope ν}

theorem bareValue_eq (s : Scope ν) (t : Text) : bareValue s t =
    match (s.read? t).or ((Expression.numeral? t).map Value.number) with
    | some v => .ok v
    | none => .error (.unbound t) := by
  unfold bareValue Scope.read? Expression.numeral?
  rcases s.block.get? t with _ | v
  · rcases s.globals.get? t with _ | v
    · cases hf : NumberSystem.isFinite (NumberSystem.read t : ν) <;> simp [hf]
    · rfl
  · rfl

/-- The lowest level. -/
theorem level_atoms (s : Scope ν) : Level s [] Atom.Renders (Atom.value s) where
  tidy a e h := h ▸ tidy_atom a
  operand a t h := by
    have hbare : ∀ t : Text, (t.IsWord ∨ Numeral.Unsigned t) →
        (match Expression.atom? s t with
          | some v => .ok v
          | none => Expression.compound s [] t) = bareValue s t := by
      intro t ht
      obtain ⟨c, u, rfl, hc⟩ := Atom.exists_cons_of_bare ht
      rw [Expression.atom?, Expression.literal?_of_isNumeralChar hc, bareValue_eq]
      rfl
    rw [Expression.operand, h]
    cases a with
    | word t ht => exact hbare t (.inl ht)
    | numeral t ht => exact hbare t (.inr ht)
    | quoted quote inner hq hu =>
      have hlit := Expression.literal?_quoted hq
      rw [Expression.atom?, Atom.text, hlit]
      rfl

/-- **The four levels**, one on top of the other. -/
theorem level_layered (hs : s.BindsUncut) (hν : ReadsNumerals ν) :
    Level s Operator.all Layered.Renders (Layered.value s) := by
  have hdiv := (level_atoms s).joined .div hs hν (by decide)
  have hmul := hdiv.joined .mul hs hν (by decide)
  have hsub := hmul.joined .sub hs hν (by decide)
  exact hsub.joined .add hs hν (by decide)

/-- A text of the topmost level evaluates to the value of the level. -/
theorem Level.evaluate_eq {α : Type} {R : α → Text → Prop}
    {value : α → Except EvalError (Value ν)} (h : Level s Operator.all R value) {x : α} {e : Text}
    (he : R x e) : evaluate s e = value x := by
  have htrim : e.trim = e := (h.tidy x e he).trim
  exact h.operand x e (by rwa [htrim])

end Layers

/-- **The layered meaning of expressions.** A tree of atoms, written with blanks around its operators,
is evaluated to what the tree comes to, in every scope that binds words only. A quoted atom is its
text; any other atom is what the block binds to it, else what the globals do, else the finite number
that it says, else an error that names it. A level of one operand is that operand, with its value or
its error. Otherwise the operands are evaluated from left to right up to the first error, and the
operator of the level combines their values. -/
theorem evaluate_layered (s : Scope Float) (hs : s.BindsWords) (x : Layered) (e : Text)
    (h : x.Renders e) : evaluate s e = x.value s :=
  (level_layered hs.bindsUncut readsNumerals_float).evaluate_eq h

/-- A scope in which the block hides a global. -/
def shadowing : Scope Float where
  block := Bindings.empty.insert "n".toList (.number (Binary64.ofInt 7))
  globals := Bindings.empty.insert "n".toList (.text "hidden".toList)

theorem bindsWords_shadowing : shadowing.BindsWords := by
  intro name v hv
  have hname : name = "n".toList := by
    by_contra hne
    have hnone : shadowing.read? name = none := by
      rw [shadowing, Scope.read?, Bindings.get?_insert, Bindings.get?_insert, if_neg hne, if_neg hne]
      rfl
    rw [hnone] at hv
    cases hv
  rw [hname]
  exact .of_all (by decide) (by decide)

/-- A tree with a level for each operator, and an atom of every kind. -/
def fourLevels : Layered :=
  have n : Text.IsWord "n".toList := .of_all (by decide) (by decide)
  have half : Numeral.Unsigned "1.5".toList := ⟨by decide, by decide, by decide, by decide⟩
  have three : Numeral.Unsigned "3".toList := ⟨by decide, by decide, by decide, by decide⟩
  have six : Numeral.Unsigned "6".toList := ⟨by decide, by decide, by decide, by decide⟩
  let quoted := Atom.quoted .single "n is ".toList (by decide) (by decide)
  ⟨⟨⟨⟨quoted, []⟩, []⟩, []⟩,
    [⟨⟨⟨.word _ n, []⟩, [⟨.numeral _ six, []⟩]⟩, [⟨⟨.numeral _ half, [.numeral _ three]⟩, []⟩]⟩]⟩

theorem evaluate_layered_fourLevels :
    fourLevels.Renders "'n is ' + n * 6 - 1.5 / 3".toList ∧
      evaluate shadowing "'n is ' + n * 6 - 1.5 / 3".toList = fourLevels.value shadowing ∧
      fourLevels.value shadowing = .ok (.text "n is 41.5".toList) := by
  have hrenders : fourLevels.Renders "'n is ' + n * 6 - 1.5 / 3".toList := fourLevels.renders_text
  exact ⟨hrenders, evaluate_layered shadowing bindsWords_shadowing fourLevels _ hrenders, rfl⟩

end LessonScript
