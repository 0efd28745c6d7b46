import LessonScript.Proofs.Fields
import LessonScript.Proofs.Lookup
import LessonScript.Proofs.Sequence

/-! # Texts on one line

A line of a program holds no line feed, and a run makes none: a text comes into a run as a piece of
a line or as a written number, and is joined with other texts or copied from one name to another.
So at every moment of a run the bound texts and the printed texts are on one line (`Machine.Clean`),
and a message that ends a run is on one line. The names that are bound are words.

`Moment.Clean` is what every change keeps; the blocks of names that loops saved are part of it,
because a loop gives them back. -/

namespace LessonScript

/-! ### Texts -/

/-- **The text is on one line**: there is no line feed in it. -/
def Text.OneLine (t : Text) : Prop := '\n' ∉ t

instance (t : Text) : Decidable t.OneLine := by
  unfold Text.OneLine
  infer_instance

namespace Text

variable {t u : Text}

theorem OneLine.of_isInfix (h : u.OneLine) (htu : t <:+: u) : t.OneLine :=
  fun ht => h (htu.subset ht)

theorem oneLine_append : (t ++ u).OneLine ↔ t.OneLine ∧ u.OneLine := by
  simp only [OneLine, List.mem_append, not_or]

theorem oneLine_cons {c : Char} : OneLine (c :: t) ↔ c ≠ '\n' ∧ t.OneLine := by
  simp only [OneLine, List.mem_cons, not_or, ne_comm (a := c), ne_eq]

theorem oneLine_of_forall {p : Char → Bool} (hp : p '\n' = false)
    (h : ∀ c ∈ t, p c = true) : t.OneLine := by
  intro ht
  have hc := h '\n' ht
  rw [hp] at hc
  cases hc

theorem oneLine_flatMap {α : Type} {f : α → Text} {xs : List α} (h : ∀ x ∈ xs, (f x).OneLine) :
    OneLine (xs.flatMap f) := by
  intro ht
  obtain ⟨x, hx, hc⟩ := List.mem_flatMap.mp ht
  exact h x hx hc

end Text

open Text (oneLine_append oneLine_cons)

/-! ### Numbers -/

/-- The numbers are written on one line. -/
class NumberSystem.WritesOneLine (ν : Type) [NumberSystem ν] : Prop where
  oneLine_write (x : ν) : (NumberSystem.write x).OneLine

theorem oneLine_toDigits (n : Nat) : Text.OneLine (Nat.toDigits 10 n) :=
  Text.oneLine_of_forall (by decide) Range.isDigit_of_mem_toDigits

namespace NumberLayout

/-- A layout whose own texts are on one line. -/
structure OneLine (l : NumberLayout) : Prop where
  exponentMark : l.exponentMark ≠ '\n'
  notANumber : l.notANumber.OneLine
  infinity : l.infinity.OneLine

variable {l : NumberLayout} {digits : Text}

theorem oneLine_positional (h : digits.OneLine) (point : Int) :
    (positional digits point).OneLine := by
  have hzeros : ∀ n : Nat, Text.OneLine (List.replicate n '0') := fun n hm =>
    absurd (List.eq_of_mem_replicate hm) (by decide)
  unfold positional
  split_ifs
  · exact oneLine_append.mpr ⟨h, hzeros _⟩
  · have htake := h.of_isInfix (List.take_prefix point.toNat digits).isInfix
    have hdrop := h.of_isInfix (List.drop_suffix point.toNat digits).isInfix
    exact oneLine_append.mpr ⟨htake, oneLine_cons.mpr ⟨by decide, hdrop⟩⟩
  · refine oneLine_append.mpr ⟨oneLine_cons.mpr ⟨by decide, oneLine_cons.mpr ⟨by decide, ?_⟩⟩, h⟩
    exact hzeros _

theorem oneLine_scientific (hl : l.OneLine) (h : digits.OneLine) (point : Int) :
    (l.scientific digits point).OneLine := by
  have hfirst := h.of_isInfix (List.take_prefix 1 digits).isInfix
  have hrest := h.of_isInfix (List.drop_suffix 1 digits).isInfix
  have hexp := oneLine_toDigits (point - 1).natAbs
  unfold scientific
  refine oneLine_append.mpr ⟨oneLine_append.mpr ⟨hfirst, ?_⟩, ?_⟩
  · split_ifs
    · exact List.not_mem_nil
    · exact oneLine_cons.mpr ⟨by decide, hrest⟩
  · refine oneLine_cons.mpr ⟨hl.exponentMark, oneLine_cons.mpr ⟨?_, hexp⟩⟩
    split_ifs <;> decide

theorem oneLine_decimal (hl : l.OneLine) (d : Decimal) : (l.decimal d).OneLine := by
  have hdigits := oneLine_toDigits d.coeff
  simp only [decimal]
  split
  · exact oneLine_positional hdigits _
  · exact oneLine_scientific hl hdigits _

theorem oneLine_magnitude (hl : l.OneLine) (bits : Nat) : (l.magnitude bits).OneLine := by
  unfold magnitude
  split_ifs
  · decide
  · exact oneLine_decimal hl _
  · exact hl.infinity

theorem oneLine_write (hl : l.OneLine) (x : Float) : (l.write x).OneLine := by
  have hmagnitude := oneLine_magnitude hl (Binary64.magnitude x)
  unfold write
  split_ifs
  · exact hl.notANumber
  · exact oneLine_cons.mpr ⟨by decide, hmagnitude⟩
  · exact hmagnitude

theorem oneLine_plain : plain.OneLine := ⟨by decide, by decide, by decide⟩

end NumberLayout

instance : NumberSystem.WritesOneLine Float :=
  ⟨NumberLayout.oneLine_write NumberLayout.oneLine_plain⟩

/-! ### Bindings and scopes -/

variable {ν : Type}

/-- A value that is no text, or one on one line. -/
def Value.OneLine : Value ν → Prop
  | number _ => True
  | text t => t.OneLine

/-- **Only words are bound, and only to numbers and texts on one line.** -/
def Bindings.Clean (b : Bindings (Value ν)) : Prop :=
  ∀ name v, b.get? name = some v → name.IsWord ∧ v.OneLine

namespace Bindings

theorem clean_empty : (empty : Bindings (Value ν)).Clean := by
  intro name v h
  rw [get?_empty] at h
  cases h

theorem Clean.insert {b : Bindings (Value ν)} (h : b.Clean) {name : Text} {v : Value ν}
    (hname : name.IsWord) (hv : v.OneLine) : (b.insert name v).Clean := by
  intro other w hw
  rw [get?_insert] at hw
  split_ifs at hw with ho
  · obtain rfl := Option.some.inj hw
    exact ⟨ho ▸ hname, hv⟩
  · exact h other w hw

end Bindings

structure Scope.Clean (s : Scope ν) : Prop where
  block : s.block.Clean
  globals : s.globals.Clean

namespace Scope.Clean

variable {s : Scope ν} (h : s.Clean)
include h

theorem write {name : Text} {v : Value ν} (hname : name.IsWord) (hv : v.OneLine) :
    (s.write name v).Clean := by
  unfold Scope.write
  split
  · exact ⟨h.block.insert hname hv, h.globals⟩
  · exact ⟨h.block, h.globals.insert hname hv⟩

theorem oneLine_of_read? {name : Text} {v : Value ν} (hv : s.read? name = some v) :
    v.OneLine := by
  rcases Option.or_eq_some_iff.mp hv with hv | ⟨-, hv⟩
  · exact (h.block name v hv).2
  · exact (h.globals name v hv).2

end Scope.Clean

/-! ### Values of expressions -/

section Expressions

variable [NumberSystem ν]

theorem Value.OneLine.toText [NumberSystem.WritesOneLine ν] {v : Value ν} (h : v.OneLine) :
    v.toText.OneLine := by
  cases v with
  | number x => exact NumberSystem.WritesOneLine.oneLine_write x
  | text t => exact h

theorem Operator.oneLine_of_combine [NumberSystem.WritesOneLine ν] {op : Operator}
    {vs : List (Value ν)} {v : Value ν} (hvs : ∀ w ∈ vs, w.OneLine) (h : op.combine vs = .ok v) :
    v.OneLine := by
  cases op with
  | add =>
    simp only [combine] at h
    split at h
    · cases h
      trivial
    · cases h
      exact Text.oneLine_flatMap fun w hw => (hvs w hw).toText
  | sub =>
    simp only [combine] at h
    split at h <;> cases h
    trivial
  | mul =>
    cases h
    trivial
  | div =>
    simp only [combine] at h
    split at h <;> cases h
    trivial

namespace Expression

variable {e t : Text} {s : Scope ν} {v : Value ν}

theorem infix_of_quotedBy? {quote : Char} (h : quotedBy? quote e = some t) : t <:+: e := by
  obtain ⟨hcut, -⟩ := Option.filter_eq_some_iff.mp h
  obtain ⟨rest, hrest, ht⟩ := Option.bind_eq_some_iff.mp hcut
  exact (prefix_of_isSuffixOf? ht).isInfix.trans (suffix_of_isPrefixOf? hrest).isInfix

theorem infix_of_literal? (h : literal? e = some t) : t <:+: e := by
  rcases Option.or_eq_some_iff.mp h with h | ⟨-, h⟩
  · exact infix_of_quotedBy? h
  · exact infix_of_quotedBy? h

theorem oneLine_of_atom? (hs : s.Clean) (he : e.OneLine) (h : atom? s e = some v) : v.OneLine := by
  rcases Option.or_eq_some_iff.mp h with h | ⟨-, h⟩
  · obtain ⟨t, ht, rfl⟩ := Option.map_eq_some_iff.mp h
    exact he.of_isInfix (infix_of_literal? ht)
  rcases Option.or_eq_some_iff.mp h with h | ⟨-, h⟩
  · exact hs.oneLine_of_read? h
  · obtain ⟨x, -, rfl⟩ := Option.map_eq_some_iff.mp h
    trivial

theorem oneLine_of_operand {f : Text → Except EvalError (Value ν)} (hs : s.Clean)
    (ht : t.trim.OneLine) (hf : f t.trim = .ok v → v.OneLine) (h : operand s f t = .ok v) :
    v.OneLine := by
  unfold operand at h
  split at h
  · next w hw =>
    cases h
    exact oneLine_of_atom? hs ht hw
  · exact hf h

theorem oneLine_of_compound [NumberSystem.WritesOneLine ν] (hs : s.Clean) (ops : List Operator) :
    ∀ e v, e.OneLine → compound s ops e = .ok v → v.OneLine := by
  induction ops with
  | nil =>
    intro e v _ h
    cases h
  | cons op ops ih =>
    intro e v he h
    by_cases hop : op.symbol ∈ e
    · rw [compound_of_mem hop] at h
      rcases hvs : (e.splitOn op.symbol).mapM (operand s (compound s ops)) with err | vs <;>
        rw [hvs] at h
      · cases h
      refine Operator.oneLine_of_combine (fun w hw => ?_) h
      obtain ⟨t, ht, hw⟩ := exists_of_mapM_ok hvs w hw
      have hstands := Text.standsIn_of_mem_splitOn (isWordChar_symbol op) ht
      have htrim := he.of_isInfix ((Text.trim_standsIn t).trans hstands).isInfix
      exact oneLine_of_operand hs htrim (ih _ w htrim) hw
    · rw [compound_of_not_mem hop] at h
      exact ih e v he h

end Expression

variable {s : Scope ν} {e : Text}

/-- **The value of an expression on one line is on one line.** -/
theorem oneLine_of_evaluate [NumberSystem.WritesOneLine ν] {v : Value ν} (hs : s.Clean)
    (he : e.OneLine) (h : evaluate s e = .ok v) : v.OneLine := by
  have htrim := he.of_isInfix (Text.trim_isInfix e)
  exact Expression.oneLine_of_operand hs htrim (Expression.oneLine_of_compound hs _ _ v htrim) h

theorem oneLine_detail_of_evaluate {err : EvalError} (he : e.OneLine)
    (h : evaluate s e = .error err) : err.detail.OneLine := by
  cases err with
  | unbound name =>
    have hname := he.of_isInfix (standsIn_of_unbound h).isInfix
    exact oneLine_append.mpr ⟨oneLine_append.mpr ⟨by decide, hname⟩, by decide⟩
  | operandType op => cases op <;> decide
  | zeroDivision => decide

end Expressions

/-! ### Lines -/

namespace Line

variable {l x : Line} {ls : List Line}

theorem mem_of_mem_block (h : x ∈ l.block ls) : x ∈ ls :=
  (List.takeWhile_sublist _).subset h

theorem mem_of_mem_elseBlock (h : x ∈ l.elseBlock ls) : x ∈ ls := by
  rw [← branch_append l ls]
  simp only [List.mem_append]
  exact .inr (.inr (.inl h))

theorem mem_of_mem_after (h : x ∈ l.after ls) : x ∈ ls := (after_suffix l ls).subset h

theorem takenFrom_of_statement {s : Statement} (h : l.statement = .ok s) : s.TakenFrom l.text :=
  Statement.takenFrom_of_ofLine h

end Line

theorem oneLine_of_mem_ofSource {source : Text} {l : Line} (h : l ∈ Line.ofSource source) :
    l.text.OneLine := by
  have hmem := List.mem_map_of_mem (f := Line.text) h
  rw [map_text_ofSource] at hmem
  exact newline_not_mem_splitOn source l.text hmem

/-! ### States and tasks -/

/-- **What is bound and what is printed is on one line, and what is bound are words.** -/
structure Machine.Clean (m : Machine ν) : Prop where
  scope : m.scope.Clean
  output : ∀ t ∈ m.output, t.OneLine

theorem Machine.clean_initial : (Machine.initial : Machine ν).Clean :=
  ⟨⟨Bindings.clean_empty, Bindings.clean_empty⟩, fun _ ht => absurd ht List.not_mem_nil⟩

/-- The task is about lines of text, and under names that are words bound to texts on one line. -/
def Task.Clean : Task ν → Prop
  | .lines rest => ∀ l ∈ rest, l.text.OneLine
  | .turns var _ _ body block => var.IsWord ∧ block.Clean ∧ ∀ l ∈ body, l.text.OneLine

structure Moment.Clean (c : Moment ν) : Prop where
  tasks : ∀ t ∈ c.tasks, t.Clean
  machine : c.machine.Clean

/-! ### Messages -/

theorem oneLine_kind (k : ErrorKind) : k.name.OneLine := by cases k <;> decide

theorem oneLine_message {e : RunError} (h : e.detail.OneLine) : e.message.OneLine :=
  oneLine_append.mpr ⟨oneLine_append.mpr ⟨oneLine_kind e.kind, by decide⟩, h⟩

theorem oneLine_stepLimit (n : Nat) : (RunError.stepLimit n).detail.OneLine :=
  oneLine_append.mpr ⟨oneLine_append.mpr ⟨by decide, oneLine_toDigits n⟩, by decide⟩

section Runs

variable [NumberSystem ν] {limit : Option Nat} {c c' : Moment ν} {l : Line} {ls : List Line}
  {m m' : Machine ν} {d : Demand} {e : RunError}

/-- What a message quotes is a piece of the line. -/
theorem oneLine_of_failed (hl : l.text.OneLine) (h : l.Failed limit m e m') :
    e.message.OneLine := by
  refine oneLine_message ?_
  cases h with
  | @header fault _ => cases fault <;> decide
  | stepLimit => exact oneLine_stepLimit _
  | unsupported hs _ =>
    have htext := hl.of_isInfix (Line.takenFrom_of_statement hs)
    exact oneLine_append.mpr ⟨oneLine_append.mpr ⟨by decide, htext⟩, by decide⟩
  | print hs _ he =>
    exact oneLine_detail_of_evaluate (hl.of_isInfix (Line.takenFrom_of_statement hs)) he
  | assign hs _ he =>
    exact oneLine_detail_of_evaluate (hl.of_isInfix (Line.takenFrom_of_statement hs).2) he
  | lhs hs _ he =>
    exact oneLine_detail_of_evaluate (hl.of_isInfix (Line.takenFrom_of_statement hs).1) he
  | rhs hs _ _ he =>
    exact oneLine_detail_of_evaluate (hl.of_isInfix (Line.takenFrom_of_statement hs).2) he

/-- An error changes nothing that is bound or printed. -/
theorem clean_of_failed (h : l.Failed limit m e m') (hm : m.Clean) : m'.Clean := by
  cases h <;> exact ⟨hm.scope, hm.output⟩

/-- **A message that ends a run is on one line**, and the state is clean. -/
theorem oneLine_of_stops (h : c.Stops limit e m) (hc : c.Clean) : e.message.OneLine ∧ m.Clean := by
  obtain ⟨htasks, hm⟩ := hc
  cases Moment.stopped_of_stops h with
  | line hf =>
    have hl := (List.forall_mem_cons.mp (List.forall_mem_cons.mp htasks).1).1
    exact ⟨oneLine_of_failed hl hf, clean_of_failed hf hm⟩
  | turn _ _ =>
    obtain ⟨-, hblock, -⟩ := (List.forall_mem_cons.mp htasks).1
    exact ⟨oneLine_message (oneLine_stepLimit _), ⟨hblock, hm.scope.globals⟩, hm.output⟩

/-! ### Changes -/

/-- What a line demands is about the lines after it, under the names in force. -/
theorem clean_tasks (hls : ∀ x ∈ ls, x.text.OneLine) (h : l.Performed m d m') (hm : m'.Clean) :
    ∀ t ∈ l.tasks ls m'.scope.block d, t.Clean := by
  have hblock : ∀ x ∈ l.block ls, x.text.OneLine := fun x hx => hls x (Line.mem_of_mem_block hx)
  have helse : ∀ x ∈ l.elseBlock ls, x.text.OneLine :=
    fun x hx => hls x (Line.mem_of_mem_elseBlock hx)
  rcases d with _ | ⟨var, range⟩ | _ | _
  · exact fun t ht => absurd ht List.not_mem_nil
  · cases h with
    | loop hs =>
      have hvar : var.IsWord := Line.takenFrom_of_statement hs
      exact List.forall_mem_singleton.mpr ⟨hvar, hm.scope.block, hblock⟩
  · exact List.forall_mem_singleton.mpr helse
  · exact List.forall_mem_singleton.mpr hblock

variable [NumberSystem.WritesOneLine ν]

/-- The part of a line on one line binds a word and prints a text on one line. -/
theorem clean_of_performed (hl : l.text.OneLine) (h : l.Performed m d m') (hm : m.Clean) :
    m'.Clean := by
  cases h with
  | skip _ | loop _ | branch _ _ _ => exact ⟨hm.scope, hm.output⟩
  | print hs hv =>
    have hexpr := hl.of_isInfix (Line.takenFrom_of_statement hs)
    have hvalue := oneLine_of_evaluate hm.scope hexpr hv
    exact ⟨hm.scope, List.forall_mem_cons.mpr ⟨hvalue.toText, hm.output⟩⟩
  | assign hs hv =>
    obtain ⟨htarget, hpiece⟩ := Line.takenFrom_of_statement hs
    have hvalue := oneLine_of_evaluate hm.scope (hl.of_isInfix hpiece) hv
    exact ⟨hm.scope.write htarget hvalue, hm.output⟩

/-- **Every change keeps a moment clean.** -/
theorem clean_of_change (h : c.Change limit c') (hc : c.Clean) : c'.Clean := by
  obtain ⟨htasks, hm⟩ := hc
  cases h with
  | leave => exact ⟨fun t ht => htasks t (List.mem_cons_of_mem _ ht), hm⟩
  | @line l ls ts m m' d hp _ =>
    obtain ⟨hlines, hrest⟩ := List.forall_mem_cons.mp htasks
    obtain ⟨hl, hls⟩ := List.forall_mem_cons.mp hlines
    have hm' := clean_of_performed hl hp hm
    have hafter : Task.Clean (.lines (l.after ls) : Task ν) :=
      fun x hx => hls x (Line.mem_of_mem_after hx)
    refine ⟨fun t ht => ?_, ?_⟩
    · rcases List.mem_append.mp ht with ht | ht
      · exact clean_tasks hls hp hm' t ht
      · exact List.forall_mem_cons.mpr ⟨hafter, hrest⟩ t ht
    · refine ⟨by rw [scope_announced]; exact hm'.scope, ?_⟩
      rw [output_announced]
      exact hm'.output
  -- The end of a loop gives back the block that the loop saved.
  | finish =>
    obtain ⟨⟨-, hblock, -⟩, hrest⟩ := List.forall_mem_cons.mp htasks
    exact ⟨hrest, ⟨hblock, hm.scope.globals⟩, hm.output⟩
  | turn _ =>
    obtain ⟨⟨hvar, hblock, hbody⟩, hrest⟩ := List.forall_mem_cons.mp htasks
    refine ⟨?_, ⟨hblock.insert hvar trivial, hm.scope.globals⟩, hm.output⟩
    exact List.forall_mem_cons.mpr ⟨hbody, List.forall_mem_cons.mpr ⟨⟨hvar, hblock, hbody⟩, hrest⟩⟩

/-! ### Runs of sources -/

/-- **Every moment of a run is clean.** -/
theorem clean_of_ofRun {source : Text} (h : c.OfRun limit source) : c.Clean := by
  refine Moment.of_reaches (fun _ _ => clean_of_change) h ⟨?_, Machine.clean_initial⟩
  exact List.forall_mem_singleton.mpr fun l hl => oneLine_of_mem_ofSource hl

/-- **The printed texts of a run are on one line.** -/
theorem oneLine_of_result_ok {source : Text} {output : List Text}
    (h : (execute ν source limit).result = .ok output) : ∀ t ∈ output, t.OneLine := by
  obtain ⟨m, hrun, rfl⟩ := Moment.exists_of_result_ok h
  have hclean := clean_of_ofRun hrun
  exact fun t ht => hclean.machine.output t (List.mem_reverse.mp ht)

theorem oneLine_of_result_error {source : Text}
    (h : (execute ν source limit).result = .error e) : e.message.OneLine := by
  obtain ⟨c, m, hrun, hs⟩ := Moment.exists_of_result_error h
  exact (oneLine_of_stops hs (clean_of_ofRun hrun)).1

end Runs

end LessonScript
