import LessonScript.Proofs.Cursor
import LessonScript.Proofs.Operations
import LessonScript.Proofs.Tree

/-! # Lines run as the trees that they lay out

A part of a run *has the effect* of a function on worlds if it comes to the same, the log left aside
(`HasEffect`). The lines of a layout, cut into blocks by their indentation, have the effect of the
trees (`effect_of_written`): the block of a header is the layout of its body and the blank lines
after it, so the trees are taken with any blank lines after their layout.

Main statement: `execute_written`. -/

namespace LessonScript

variable {ν : Type} {α : Type}

/-! ### Effects -/

/-- The world of a state: all but its log. -/
def Machine.world (m : Machine ν) : World ν := ⟨m.scope, m.output.reverse, m.steps⟩

/-- What a part of a run comes to, the log left aside. -/
def effect : EStateM.Result RunError (Machine ν) Unit → Except RunError (World ν)
  | .ok _ m => .ok m.world
  | .error e _ => .error e

/-- The part of a run comes to what the function says. -/
def HasEffect (x : Run ν Unit) (f : World ν → Except RunError (World ν)) : Prop :=
  ∀ m, effect (x m) = f m.world

/-- The part of a run gives the value that the function says, or its error, and leaves the world as
it is. -/
def Yields (x : Run ν α) (f : World ν → Except RunError α) : Prop :=
  ∀ m : Machine ν, (∃ a m', x m = .ok a m' ∧ f m.world = .ok a ∧ m'.world = m.world) ∨
    ∃ e m', x m = .error e m' ∧ f m.world = .error e

theorem HasEffect.pure : HasEffect (Pure.pure () : Run ν Unit) .ok := fun _ => rfl

theorem HasEffect.bind {x y : Run ν Unit} {f g : World ν → Except RunError (World ν)}
    (hx : HasEffect x f) (hy : HasEffect y g) :
    HasEffect (x >>= fun _ => y) (fun w => f w >>= g) := by
  intro m
  have hm := hx m
  rcases hr : x m with ⟨u, m'⟩ | ⟨e, m'⟩ <;> rw [hr] at hm
  · rw [Run.bind_of_ok hr]
    show effect (y m') = f m.world >>= g
    rw [← hm]
    exact hy m'
  · rw [Run.bind_of_error hr]
    show effect (.error e m') = f m.world >>= g
    rw [← hm]
    rfl

/-- What is done with a value has its effect in the world that the value was found in. -/
theorem Yields.bind {x : Run ν α} {y : α → Run ν Unit} {f : World ν → Except RunError α}
    {g : α → World ν → Except RunError (World ν)} (hx : Yields x f)
    (hy : ∀ a, HasEffect (y a) (g a)) : HasEffect (x >>= y) (fun w => f w >>= fun a => g a w) := by
  intro m
  show effect ((x >>= y) m) = f m.world >>= fun a => g a m.world
  rcases hx m with ⟨a, m', hr, hf, hw⟩ | ⟨e, m', hr, hf⟩
  · rw [Run.bind_of_ok hr, hf]
    exact (hy a m').trans (by rw [hw]; rfl)
  · rw [Run.bind_of_error hr, hf]
    rfl

/-! ### The effects of operations -/

theorem tick_of_atLimit {limit : Option Nat} {m : Machine ν} {n : Nat} (hl : limit = some n)
    (hn : n < m.steps + 1) : m.world.tick limit = .error (.stepLimit n) := by
  subst hl
  exact if_neg (by show ¬ m.steps < n; omega)

theorem tick_of_not_atLimit {limit : Option Nat} {m : Machine ν} (h : ¬ m.AtLimit limit) :
    m.world.tick limit = .ok m.stepped.world := by
  rcases limit with _ | n
  · rfl
  · refine if_pos ?_
    show m.steps < n
    by_contra hn
    exact h ⟨n, rfl, by omega⟩

theorem effect_step (limit : Option Nat) :
    HasEffect (Run.step limit : Run ν Unit) (World.tick limit) := by
  intro m
  by_cases h : m.AtLimit limit
  · obtain ⟨n, hl, hn⟩ := h
    rw [Run.step_of_atLimit hl hn, tick_of_atLimit hl hn]
    rfl
  · rw [Run.step_of_not_atLimit h, tick_of_not_atLimit h]
    rfl

/-- What only adds to the log has no effect. -/
theorem effect_record {x : Run ν Unit} {f : World ν → Except RunError (World ν)}
    (hx : HasEffect x f) (e : Event) : HasEffect (Run.record e >>= fun _ => x) f :=
  fun m => hx (m.noted e)

theorem effect_begin (limit : Option Nat) (line : Nat) (kind : StatementKind) :
    HasEffect (Run.begin limit line kind : Run ν Unit) (World.tick limit) := by
  intro m
  by_cases h : m.AtLimit limit
  · obtain ⟨n, hl, hn⟩ := h
    rw [Run.begin_of_atLimit hl hn, tick_of_atLimit hl hn]
    rfl
  · rw [Run.begin_of_not_atLimit h, tick_of_not_atLimit h]
    rfl

theorem effect_assign (name : Text) (v : Value ν) :
    HasEffect (Run.assign name v) fun w => .ok (w.assign name v) := fun _ => rfl

variable [NumberSystem ν]

theorem yields_eval (e : Text) : Yields (Run.eval e : Run ν (Value ν)) (World.eval · e) := by
  intro m
  rcases h : evaluate m.scope e with err | v
  · have hw : m.world.eval e = .error (.evaluation err) := congrArg (Except.mapError _) h
    exact .inr ⟨_, _, Run.eval_of_error h, hw⟩
  · have hw : m.world.eval e = .ok v := congrArg (Except.mapError _) h
    exact .inl ⟨v, _, Run.eval_of_ok h, hw, rfl⟩

theorem yields_condition (cond : Condition) :
    Yields (Run.condition cond : Run ν Bool) (World.holds · cond) := by
  intro m
  show (∃ a m', Run.condition cond m = .ok a m' ∧ m.world.holds cond = .ok a ∧ m'.world = m.world) ∨
    ∃ e m', Run.condition cond m = .error e m' ∧ m.world.holds cond = .error e
  have heval : ∀ e, m.world.eval e = (evaluate m.scope e).mapError .evaluation := fun _ => rfl
  rcases ha : evaluate m.scope cond.lhs with err | a
  · refine .inr ⟨_, _, Run.condition_of_lhs ha, ?_⟩
    rw [World.holds, heval, ha]
    rfl
  rcases hb : evaluate m.scope cond.rhs with err | b
  · refine .inr ⟨_, _, Run.condition_of_rhs ha hb, ?_⟩
    rw [World.holds, heval, heval, ha, hb]
    rfl
  · refine .inl ⟨_, _, Run.condition_of_ok ha hb, ?_, rfl⟩
    rw [World.holds, heval, heval, ha, hb]
    rfl

theorem effect_print (v : Value ν) : HasEffect (Run.print v) fun w => .ok (w.print v) := by
  intro m
  have hw : (m.printed v).world = m.world.print v := by
    simp only [Machine.world, Machine.printed, World.print, List.reverse_cons]
  exact congrArg Except.ok hw

theorem effect_turn (limit : Option Nat) (var : Text) (i : Int) {body : Run ν Unit}
    {f : World ν → Except RunError (World ν)} (h : HasEffect body f) :
    HasEffect (Run.step limit >>= fun _ => Run.turn var i body)
      fun w => World.turn limit var f w i := by
  refine (effect_step limit).bind (g := fun w => do
    return (← f (w.enter var i)).withBlock w.scope.block) fun m => ?_
  have hm : effect (body (m.turned m.scope.block var i)) = f (m.world.enter var i) :=
    h (m.turned m.scope.block var i)
  show effect (Run.turn var i body m) =
    (f (m.world.enter var i)).map fun after => after.withBlock m.scope.block
  rcases hr : body (m.turned m.scope.block var i) with ⟨u, m'⟩ | ⟨e, m'⟩ <;> rw [hr] at hm
  · rw [Run.turn_of_ok hr, ← hm]
    rfl
  · rw [Run.turn_of_error hr, ← hm]
    rfl

theorem integers_succ (i : Int) (n : Nat) :
    ((List.range (n + 1)).map fun k : Nat => i + (k : Int)) =
      i :: (List.range n).map fun k : Nat => i + 1 + (k : Int) := by
  rw [List.range_succ_eq_map, List.map_cons, List.map_map]
  refine congrArg₂ List.cons (by simp) (List.map_congr_left fun k _ => ?_)
  simp only [Function.comp_apply, Nat.succ_eq_add_one]
  omega

/-- The turns of a loop run through its integers. -/
theorem effect_turns (limit : Option Nat) (var : Text) {body : Run ν Unit}
    {f : World ν → Except RunError (World ν)} (h : HasEffect body f) (n : Nat) :
    ∀ i, HasEffect (Run.turns limit var body i n)
      (((List.range n).map fun k : Nat => i + (k : Int)).foldlM (World.turn limit var f)) := by
  induction n with
  | zero => exact fun _ => HasEffect.pure
  | succ n ih =>
    intro i
    rw [Run.turns_succ, integers_succ, ← bind_assoc]
    exact (effect_turn limit var i h).bind (ih (i + 1))

/-! ### The effects of nodes -/

section Nodes

variable (limit : Option Nat) (line : Nat)

theorem effect_exec_print (expr : Text) :
    HasEffect (Node.exec limit (.print line expr) : Run ν Unit)
      (Tree.run limit (.print expr)) := by
  intro m
  rw [Tree.run, Node.exec]
  exact ((effect_begin limit line .print).bind ((yields_eval expr).bind effect_print)) m

theorem effect_exec_assign (target value : Text) :
    HasEffect (Node.exec limit (.assign line target value) : Run ν Unit)
      (Tree.run limit (.assign target value)) := by
  intro m
  rw [Tree.run, Node.exec]
  exact ((effect_begin limit line .assign).bind ((yields_eval value).bind (effect_assign target))) m

variable {body thenBody elseBody : List Tree} {nodes thenNodes elseNodes : List Node}

theorem effect_exec_loop (var : Text) (range : Range) (bodyLines : Nat)
    (h : HasEffect (Node.execAll limit nodes : Run ν Unit) (Tree.runAll limit body)) :
    HasEffect (Node.exec limit (.loop line var range bodyLines nodes) : Run ν Unit)
      (Tree.run limit (.loop var range body)) := by
  intro m
  rw [Tree.run, Node.exec]
  exact ((effect_begin limit line .loop).bind
    (effect_record (effect_turns limit var h range.size range.start) _)) m

theorem effect_exec_choose (cond : Condition) (elseLine : Option Nat)
    (hthen : HasEffect (Node.execAll limit thenNodes : Run ν Unit) (Tree.runAll limit thenBody))
    (helse : HasEffect (Node.execAll limit elseNodes : Run ν Unit) (Tree.runAll limit elseBody)) :
    HasEffect (Node.exec limit (.branch line cond thenNodes elseLine elseNodes) : Run ν Unit)
      (Tree.run limit (.choose cond thenBody elseBody)) := by
  intro m
  rw [Tree.run, Node.exec]
  refine ((effect_begin limit line .branch).bind
    ((yields_condition cond).bind (g := fun holds w =>
      if holds then Tree.runAll limit thenBody w else Tree.runAll limit elseBody w)
      fun holds => ?_)) m
  cases holds with
  | false => exact helse
  | true => exact hthen

/-- A branch without a second body does nothing if its condition does not hold. -/
theorem run_when (cond : Condition) (body : List Tree) :
    (Tree.run limit (.when cond body) : World ν → Except RunError (World ν)) =
      Tree.run limit (.choose cond body []) := by
  funext w
  simp only [Tree.run, Tree.runAll]
  rfl

/-- Printing what has a value takes a step. -/
theorem run_print_of_ok {expr : Text} {w : World ν} {v : Value ν} (h : evaluate w.scope expr = .ok v) :
    Tree.run none (.print expr) w =
      .ok { w with output := w.output ++ [v.toText], steps := w.steps + 1 } := by
  have heval : ({ w with steps := w.steps + 1 } : World ν).eval expr = .ok v := by
    rw [World.eval, h]
    rfl
  rw [Tree.run]
  show (World.eval _ expr >>= fun v => _) = _
  rw [heval]
  rfl

theorem runAll_singleton (t : Tree) (w : World ν) : Tree.runAll limit [t] w = Tree.run limit t w := by
  rw [Tree.runAll]
  rcases Tree.run limit t w with e | w' <;> rfl

end Nodes

/-! ### Lines that lay out statements -/

namespace Line

/-- The line is at an indentation and says a statement. -/
structure Says (l : Line) (indent : Nat) (s : Statement) : Prop where
  indent : l.indent = indent
  isBlank : l.isBlank = false
  statement : l.statement = .ok s

theorem indent_of_indented {l : Line} {n : Nat} {c : Char} {t : Text}
    (h : Indented n (c :: t) l.text) (hc : LessonScript.isBlank c = false) :
    l.indent = n ∧ l.isBlank = false := by
  obtain ⟨-, margin, hlen, hm, ht⟩ := h
  constructor
  · rw [Line.indent, ht, List.takeWhile_append_of_pos hm,
      List.takeWhile_cons_of_neg (by simp [hc]), List.append_nil, hlen]
  · simp [Line.isBlank, ht, hc]

theorem says_of_indented {l : Line} {n : Nat} {s : Statement} (hs : s.Plain)
    (h : Indented n s.render l.text) : l.Says n s := by
  obtain ⟨c, t, hr, hc⟩ := Statement.exists_render_cons hs
  obtain ⟨hi, hb⟩ := indent_of_indented (hr ▸ h) hc
  obtain ⟨-, margin, -, hm, ht⟩ := h
  refine ⟨hi, hb, ?_⟩
  rw [Line.statement, ht, Statement.ofLine_render hm hs]

theorem says_of_comment {l : Line} {n : Nat} {t : Text} (h : Indented n ('#' :: t) l.text) :
    l.Says n .skip := by
  obtain ⟨hi, hb⟩ := indent_of_indented h (by decide)
  obtain ⟨-, margin, -, hm, ht⟩ := h
  obtain ⟨u, hu⟩ := Text.exists_trim_cons (c := '#') (by decide) t
  refine ⟨hi, hb, ?_⟩
  rw [Line.statement, ht, Statement.ofLine, Text.trim_append hm, hu]
  rfl

theorem isElse_of_indented {l : Line} {n : Nat} (h : Indented n elseMark l.text) :
    l.isElse = true := by
  obtain ⟨-, margin, -, hm, ht⟩ := h
  rw [Line.isElse, content, ht, Text.trim_append hm]
  decide

theorem isInside_of_else {l : Line} {n p : Nat} (h : Indented n elseMark l.text) (hp : p < n) :
    l.isInside p = true := by
  refine isInside_of_lt_indent ?_
  rwa [(indent_of_indented (c := 'e') h (by decide)).1]

namespace Says

variable {l : Line} {n : Nat} {s : Statement} (h : l.Says n s)
include h

theorem isElse (hs : s ≠ .unrecognized elseMark) : l.isElse = false :=
  isElse_of_statement h.statement hs

theorem isInside {p : Nat} (hp : p < n) : l.isInside p = true := by
  simp [Line.isInside, h.indent, hp]

theorem not_isInside : ¬ l.isInside n = true := by
  simp [Line.isInside, h.indent, h.isBlank]

end Says

/-! ### The lines after a body -/

section Block

variable {l : Line} {bs rest : List Line} (hin : ∀ x ∈ bs, x.isInside l.indent = true)
  (hout : ∀ x xs, rest.dropWhile isBlank = x :: xs → ¬ x.isInside l.indent = true)
include hin hout

/-- Past a body and the blank lines after it, the block of the header is over. -/
theorem past_append : l.past (bs ++ rest) = rest.dropWhile isBlank := by
  rw [past, List.dropWhile_append_of_pos hin,
    ← dropWhile_dropWhile_of_imp (fun x => isInside_of_isBlank x) rest]
  rcases hr : rest.dropWhile isBlank with _ | ⟨x, xs⟩
  · rfl
  · rw [List.dropWhile_cons_of_neg (hout x xs hr)]

/-- The block of a header is its body and the blank lines after it. -/
theorem block_append : l.block (bs ++ rest) = bs ++ rest.takeWhile isBlank := by
  have h := block_append_past l (bs ++ rest)
  rw [past_append hin hout] at h
  refine List.append_cancel_right (h.trans ?_)
  rw [List.append_assoc, List.takeWhile_append_dropWhile]

end Block

end Line

theorem runLines_of_skip {limit : Option Nat} {l : Line}
    (h : l.statement = .ok .skip) (ls : List Line) :
    (runLines limit (l :: ls) : Run ν Unit) = runLines limit ls := by
  rw [runLines, outline_cons, Line.node, Line.after, h]
  rfl

theorem runLines_dropWhile_isBlank (limit : Option Nat) (ls : List Line) :
    (runLines limit (ls.dropWhile Line.isBlank) : Run ν Unit) = runLines limit ls := by
  induction ls with
  | nil => rfl
  | cons l ls ih =>
    by_cases h : l.isBlank = true
    · rw [List.dropWhile_cons_of_pos h, ih, runLines_of_skip (Line.statement_of_isBlank h)]
    · rw [List.dropWhile_cons_of_neg h]

theorem runLines_blanks (limit : Option Nat) {ls : List Line}
    (h : ∀ l ∈ ls, l.isBlank = true) : (runLines limit ls : Run ν Unit) = pure () := by
  rw [← runLines_dropWhile_isBlank, List.dropWhile_eq_nil_iff.mpr h]
  rfl

/-! ### Layouts -/

section Layout

variable {n d : Nat} {ts : List Tree} {texts : List Text}

theorem oneLine_of_written (h : Written n ts texts) : ∀ t ∈ texts, '\n' ∉ t := by
  induction h with
  | nil => simp
  | blank hl _ _ ih => exact List.forall_mem_cons.mpr ⟨hl, ih⟩
  | comment hl _ ih | print hl _ ih | assign _ hl _ ih =>
    exact List.forall_mem_cons.mpr ⟨hl.1, ih⟩
  | loop _ hl _ _ _ ihb ih | when _ hl _ _ _ ihb ih =>
    exact List.forall_mem_cons.mpr ⟨hl.1, List.forall_mem_append.mpr ⟨ihb, ih⟩⟩
  | choose _ hl _ _ hmid _ _ _ ihb ihe ih =>
    exact List.forall_mem_cons.mpr ⟨hl.1, List.forall_mem_append.mpr
      ⟨ihb, List.forall_mem_cons.mpr ⟨hmid.1, List.forall_mem_append.mpr ⟨ihe, ih⟩⟩⟩⟩

theorem plain_print (expr : Text) : (Statement.print expr).Plain := trivial

theorem isInside_cons {p : Nat} {text : Text}
    (hfirst : ∀ l : Line, l.text = text → l.isInside p = true)
    (hrest : ∀ l : Line, l.text ∈ texts → l.isInside p = true) :
    ∀ l : Line, l.text ∈ text :: texts → l.isInside p = true := by
  intro l hl
  rcases List.mem_cons.mp hl with hl | hl
  · exact hfirst l hl
  · exact hrest l hl

theorem isInside_append {p : Nat} {texts' : List Text}
    (h : ∀ l : Line, l.text ∈ texts → l.isInside p = true)
    (h' : ∀ l : Line, l.text ∈ texts' → l.isInside p = true) :
    ∀ l : Line, l.text ∈ texts ++ texts' → l.isInside p = true := by
  intro l hl
  rcases List.mem_append.mp hl with hl | hl
  · exact h l hl
  · exact h' l hl

/-- **The lines of a body are in the block of its header.** -/
theorem isInside_of_written {p : Nat} (h : Written n ts texts) (hp : p < n) :
    ∀ l : Line, l.text ∈ texts → l.isInside p = true := by
  induction h with
  | nil => simp
  | blank _ hb _ ih =>
    refine isInside_cons (fun l hl => ?_) (ih hp)
    subst hl
    exact Line.isInside_of_isBlank l (List.all_eq_true.mpr hb)
  | comment hi _ ih =>
    exact isInside_cons (fun l hl => (Line.says_of_comment (hl ▸ hi)).isInside hp) (ih hp)
  | print hi _ ih =>
    exact isInside_cons (fun l hl => (Line.says_of_indented (plain_print _) (hl ▸ hi)).isInside hp)
      (ih hp)
  | assign hs hi _ ih =>
    exact isInside_cons (fun l hl => (Line.says_of_indented hs (hl ▸ hi)).isInside hp) (ih hp)
  | loop hs hi hlt _ _ ihb ih | when hs hi hlt _ _ ihb ih =>
    exact isInside_cons (fun l hl => (Line.says_of_indented hs (hl ▸ hi)).isInside hp)
      (isInside_append (ihb (hp.trans hlt)) (ih hp))
  | choose hs hi hlt _ hmid hlt' _ _ ihb ihe ih =>
    refine isInside_cons (fun l hl => (Line.says_of_indented hs (hl ▸ hi)).isInside hp)
      (isInside_append (ihb (hp.trans hlt)) (isInside_cons (fun l hl => ?_)
        (isInside_append (ihe (hp.trans hlt')) (ih hp))))
    exact Line.isInside_of_else (hl ▸ hmid) hp

theorem first_of_says {l x : Line} {s : Statement} {ls xs : List Line} (h : l.Says n s)
    (hs : s ≠ .unrecognized Line.elseMark) (hx : (l :: ls).dropWhile Line.isBlank = x :: xs) :
    ¬ x.isInside n = true ∧ x.isElse = false := by
  rw [List.dropWhile_cons_of_neg (by simp [h.isBlank])] at hx
  obtain ⟨rfl, -⟩ := List.cons.inj hx
  exact ⟨h.not_isInside, h.isElse hs⟩

/-- **The first line of a layout** that is not blank is at its indentation, and is no `else:`. -/
theorem first_of_written (h : Written n ts texts) {ls blanks : List Line}
    (hls : ls.map Line.text = texts) (hb : ∀ l ∈ blanks, l.isBlank = true) {x : Line}
    {xs : List Line} (hx : (ls ++ blanks).dropWhile Line.isBlank = x :: xs) :
    ¬ x.isInside n = true ∧ x.isElse = false := by
  induction h generalizing ls with
  | nil =>
    rw [List.map_eq_nil_iff.mp hls, List.nil_append, List.dropWhile_eq_nil_iff.mpr hb] at hx
    cases hx
  | blank _ hbl _ ih =>
    obtain ⟨l, ls, rfl, rfl, hls'⟩ := List.map_eq_cons_iff.mp hls
    have hl : l.isBlank = true := List.all_eq_true.mpr hbl
    rw [List.cons_append, List.dropWhile_cons_of_pos hl] at hx
    exact ih hls' hx
  | comment hi _ _ =>
    obtain ⟨l, ls, rfl, rfl, -⟩ := List.map_eq_cons_iff.mp hls
    exact first_of_says (Line.says_of_comment hi) (by simp) hx
  | print hi _ _ =>
    obtain ⟨l, ls, rfl, rfl, -⟩ := List.map_eq_cons_iff.mp hls
    exact first_of_says (Line.says_of_indented (plain_print _) hi) (by simp) hx
  | assign hs hi | loop hs hi | when hs hi | choose hs hi =>
    obtain ⟨l, ls, rfl, rfl, -⟩ := List.map_eq_cons_iff.mp hls
    exact first_of_says (Line.says_of_indented hs hi) (by simp) hx

end Layout

/-! ### The lines of a layout have the effect of its trees -/

section Effects

variable {limit : Option Nat} {l : Line} {ls : List Line} {t : Tree} {ts : List Tree}

theorem HasEffect.cons (ht : HasEffect (Node.exec limit (l.node ls) : Run ν Unit) (t.run limit))
    (hts : HasEffect (runLines limit (l.after ls) : Run ν Unit) (Tree.runAll limit ts)) :
    HasEffect (runLines limit (l :: ls) : Run ν Unit) (Tree.runAll limit (t :: ts)) := by
  intro m
  rw [runLines, outline_cons, Node.execAll, Tree.runAll]
  exact (ht.bind hts) m

theorem effect_skip (hs : l.statement = .ok .skip)
    (hts : HasEffect (runLines limit ls : Run ν Unit) (Tree.runAll limit ts)) :
    HasEffect (runLines limit (l :: ls) : Run ν Unit) (Tree.runAll limit (.skip :: ts)) := by
  intro m
  rw [runLines_of_skip hs, Tree.runAll, Tree.run]
  exact hts m

/-- The lines have the effect of the trees, also with any blank lines after them. -/
def Layout (ν : Type) [NumberSystem ν] (limit : Option Nat) (ls : List Line) (ts : List Tree) :
    Prop :=
  ∀ blanks : List Line, (∀ l ∈ blanks, l.isBlank = true) →
    HasEffect (runLines limit (ls ++ blanks) : Run ν Unit) (Tree.runAll limit ts)

section Headers

variable {bs rest : List Line} {body : List Tree} (hin : ∀ x ∈ bs, x.isInside l.indent = true)
  (hout : ∀ x xs, rest.dropWhile Line.isBlank = x :: xs → ¬ x.isInside l.indent = true)
  (hbody : Layout ν limit bs body)
  (hrest : HasEffect (runLines limit rest : Run ν Unit) (Tree.runAll limit ts))
include hin hout hbody

/-- The block of a header has the effect of the body that it lays out. -/
theorem effect_block :
    HasEffect (runLines limit (l.block (bs ++ rest)) : Run ν Unit) (Tree.runAll limit body) := by
  rw [Line.block_append hin hout]
  exact hbody _ fun _ hx => List.mem_takeWhile_imp hx

include hrest

theorem effect_loop {var : Text} {range : Range} (hs : l.statement = .ok (.loop var range)) :
    HasEffect (runLines limit (l :: (bs ++ rest)) : Run ν Unit)
      (Tree.runAll limit (.loop var range body :: ts)) := by
  refine .cons ?_ ?_
  · rw [Line.node, hs]
    exact effect_exec_loop limit l.number _ _ _ (effect_block hin hout hbody)
  · rw [Line.after, hs]
    show HasEffect (runLines limit (l.past (bs ++ rest))) _
    rw [Line.past_append hin hout, runLines_dropWhile_isBlank]
    exact hrest

theorem effect_when {cond : Condition} (hs : l.statement = .ok (.branch cond))
    (helse : ∀ x xs, rest.dropWhile Line.isBlank = x :: xs → x.isElse = false) :
    HasEffect (runLines limit (l :: (bs ++ rest)) : Run ν Unit)
      (Tree.runAll limit (.when cond body :: ts)) := by
  have hnone : l.elseLine? (bs ++ rest) = none := by
    have hpast := Line.past_append hin hout
    rcases hr : rest.dropWhile Line.isBlank with _ | ⟨x, xs⟩
    · exact Line.elseLine?_of_nil (hpast.trans hr)
    · refine Line.elseLine?_of_neg (hpast.trans hr) ?_
      simp [Line.isElseAt, helse x xs hr]
  refine .cons ?_ ?_
  · rw [Line.node, hs, run_when]
    refine effect_exec_choose limit l.number _ _ (effect_block hin hout hbody) ?_
    rw [Line.elseBlock_of_none hnone]
    intro m
    rw [Tree.runAll]
    rfl
  · rw [Line.after, hs]
    show HasEffect (runLines limit (l.pastElse (bs ++ rest))) _
    rw [Line.pastElse_of_none hnone, Line.past_append hin hout, runLines_dropWhile_isBlank]
    exact hrest

end Headers

theorem effect_choose {bs es rest : List Line} {e : Line} {thenBody elseBody : List Tree}
    {cond : Condition} (hin : ∀ x ∈ bs, x.isInside l.indent = true)
    (hin' : ∀ x ∈ es, x.isInside l.indent = true)
    (hout : ∀ x xs, rest.dropWhile Line.isBlank = x :: xs → ¬ x.isInside l.indent = true)
    (hs : l.statement = .ok (.branch cond)) (he : e.isElseAt l.indent = true)
    (hthen : Layout ν limit bs thenBody) (helse : Layout ν limit es elseBody)
    (hrest : HasEffect (runLines limit rest : Run ν Unit) (Tree.runAll limit ts)) :
    HasEffect (runLines limit (l :: (bs ++ e :: (es ++ rest))) : Run ν Unit)
      (Tree.runAll limit (.choose cond thenBody elseBody :: ts)) := by
  obtain ⟨heElse, heIndent⟩ : e.isElse = true ∧ e.indent = l.indent := by
    simpa [Line.isElseAt] using he
  have heBlank := Line.isBlank_of_isElse heElse
  have hdrop : (e :: (es ++ rest)).dropWhile Line.isBlank = e :: (es ++ rest) :=
    List.dropWhile_cons_of_neg (by simp [heBlank])
  have hmid : ∀ x xs, (e :: (es ++ rest)).dropWhile Line.isBlank = x :: xs →
      ¬ x.isInside l.indent = true := by
    intro x xs hx
    rw [hdrop] at hx
    obtain ⟨rfl, -⟩ := List.cons.inj hx
    simp [Line.isInside, heBlank, heIndent]
  have hpast : l.past (bs ++ e :: (es ++ rest)) = e :: (es ++ rest) :=
    (Line.past_append hin hmid).trans hdrop
  refine .cons ?_ ?_
  · rw [Line.node, hs]
    refine effect_exec_choose limit l.number _ _ (effect_block hin hmid hthen) ?_
    rw [Line.elseBlock_of_pos hpast he]
    exact effect_block hin' hout helse
  · rw [Line.after, hs]
    show HasEffect (runLines limit (l.pastElse (bs ++ e :: (es ++ rest)))) _
    rw [Line.pastElse_of_pos hpast he, Line.past_append hin' hout, runLines_dropWhile_isBlank]
    exact hrest

theorem isInside_of_layout {d : Nat} {bs : List Line} {body : List Tree}
    (h : Written d body (bs.map Line.text)) (hd : l.indent < d) :
    ∀ x ∈ bs, x.isInside l.indent = true :=
  fun x hx => isInside_of_written h hd x (List.mem_map_of_mem hx)

/-- **Running the lines of a layout has the effect of its trees**, also with blank lines after it. -/
theorem effect_of_written (limit : Option Nat) {n : Nat} {texts : List Text}
    (h : Written n ts texts) :
    ∀ ls : List Line, ls.map Line.text = texts → Layout ν limit ls ts := by
  -- On the layout: the lines after a body are a layout again, with the same blank lines after it.
  induction h with
  | nil =>
    intro ls hls blanks hb m
    rw [List.map_eq_nil_iff.mp hls, List.nil_append, runLines_blanks limit hb, Tree.runAll]
    rfl
  | blank _ hbl _ ih =>
    intro ls hls blanks hb
    obtain ⟨l, ls, rfl, rfl, hls'⟩ := List.map_eq_cons_iff.mp hls
    exact effect_skip (Line.statement_of_isBlank (List.all_eq_true.mpr hbl)) (ih ls hls' blanks hb)
  | comment hi _ ih =>
    intro ls hls blanks hb
    obtain ⟨l, ls, rfl, rfl, hls'⟩ := List.map_eq_cons_iff.mp hls
    exact effect_skip (Line.says_of_comment hi).statement (ih ls hls' blanks hb)
  | print hi _ ih =>
    intro ls hls blanks hb
    obtain ⟨l, ls, rfl, rfl, hls'⟩ := List.map_eq_cons_iff.mp hls
    have hs := (Line.says_of_indented (plain_print _) hi).statement
    refine .cons ?_ ?_
    · rw [Line.node, hs]
      exact effect_exec_print limit l.number _
    · rw [Line.after, hs]
      exact ih ls hls' blanks hb
  | assign hp hi _ ih =>
    intro ls hls blanks hb
    obtain ⟨l, ls, rfl, rfl, hls'⟩ := List.map_eq_cons_iff.mp hls
    have hs := (Line.says_of_indented hp hi).statement
    refine .cons ?_ ?_
    · rw [Line.node, hs]
      exact effect_exec_assign limit l.number _ _
    · rw [Line.after, hs]
      exact ih ls hls' blanks hb
  | loop hp hi hlt hbody hrest ihb ih =>
    intro ls hls blanks hb
    obtain ⟨l, ls, rfl, rfl, hls'⟩ := List.map_eq_cons_iff.mp hls
    obtain ⟨bs, rest, rfl, rfl, rfl⟩ := List.map_eq_append_iff.mp hls'
    obtain ⟨rfl, -, hs⟩ := Line.says_of_indented hp hi
    rw [List.cons_append, List.append_assoc]
    exact effect_loop (isInside_of_layout hbody hlt)
      (fun x xs hx => (first_of_written hrest rfl hb hx).1) (ihb bs rfl) (ih rest rfl blanks hb) hs
  | when hp hi hlt hbody hrest ihb ih =>
    intro ls hls blanks hb
    obtain ⟨l, ls, rfl, rfl, hls'⟩ := List.map_eq_cons_iff.mp hls
    obtain ⟨bs, rest, rfl, rfl, rfl⟩ := List.map_eq_append_iff.mp hls'
    obtain ⟨rfl, -, hs⟩ := Line.says_of_indented hp hi
    rw [List.cons_append, List.append_assoc]
    exact effect_when (isInside_of_layout hbody hlt)
      (fun x xs hx => (first_of_written hrest rfl hb hx).1) (ihb bs rfl) (ih rest rfl blanks hb) hs
      (fun x xs hx => (first_of_written hrest rfl hb hx).2)
  | choose hp hi hlt hbody hmid hlt' helse hrest ihb ihe ih =>
    intro ls hls blanks hb
    obtain ⟨l, ls, rfl, rfl, hls₁⟩ := List.map_eq_cons_iff.mp hls
    obtain ⟨bs, ls, rfl, rfl, hls₂⟩ := List.map_eq_append_iff.mp hls₁
    obtain ⟨e, ls, rfl, rfl, hls₃⟩ := List.map_eq_cons_iff.mp hls₂
    obtain ⟨es, rest, rfl, rfl, rfl⟩ := List.map_eq_append_iff.mp hls₃
    obtain ⟨rfl, -, hs⟩ := Line.says_of_indented hp hi
    have he : e.isElseAt l.indent = true := by
      rw [Line.isElseAt, Line.isElse_of_indented hmid,
        (Line.indent_of_indented (c := 'e') hmid (by decide)).1]
      simp
    simp only [List.cons_append, List.append_assoc]
    exact effect_choose (isInside_of_layout hbody hlt) (isInside_of_layout helse hlt')
      (fun x xs hx => (first_of_written hrest rfl hb hx).1) hs he (ihb bs rfl) (ihe es rfl)
      (ih rest rfl blanks hb)

end Effects

/-! ### Whole programs -/

/-- The lines of a program with a layout as its source. A program without lines has a blank one. -/
theorem exists_lines_of_written {n : Nat} {ts : List Tree} {texts : List Text}
    (h : Written n ts texts) : ∃ ls blanks, Line.ofSource (['\n'].intercalate texts) = ls ++ blanks ∧
      ls.map Line.text = texts ∧ ∀ l ∈ blanks, l.isBlank = true := by
  by_cases hne : texts = []
  · subst hne
    exact ⟨[], Line.ofSource [], rfl, rfl, by decide⟩
  · refine ⟨_, [], (List.append_nil _).symm, ?_, by simp⟩
    rw [map_text_ofSource, List.splitOn_intercalate '\n' (oneLine_of_written h) hne]

omit [NumberSystem ν] in
theorem result_ofResult_eq_map (start : Event)
    (r : EStateM.Result RunError (Machine ν) Unit) :
    (Outcome.ofResult start r).result = (effect r).map World.output := by
  cases r <;> rfl

/-- If the trees of a layout run without an error, so do its lines. -/
theorem exists_of_runAll {n : Nat} {ts : List Tree} {texts : List Text} {limit : Option Nat}
    {w : World ν} (h : Written n ts texts) (hw : Tree.runAll limit ts World.initial = .ok w) :
    ∃ m : Machine ν, (runLines limit (Line.ofSource (['\n'].intercalate texts)) : Run ν Unit) .initial =
      .ok () m ∧ m.world = w := by
  obtain ⟨ls, blanks, hlines, hls, hb⟩ := exists_lines_of_written h
  have heffect : effect (runLines limit (ls ++ blanks) (.initial : Machine ν)) =
      Tree.runAll limit ts World.initial := effect_of_written limit h ls hls blanks hb .initial
  rw [hw, ← hlines] at heffect
  rcases hr : (runLines limit (Line.ofSource (['\n'].intercalate texts)) : Run ν Unit) .initial
    with ⟨u, m⟩ | ⟨e, m⟩ <;> rw [hr] at heffect
  · exact ⟨m, rfl, Except.ok.inj heffect⟩
  · cases heffect

/-- **A program runs as its trees.** Whatever the layout of the trees in lines, the run of the lines
prints what the trees print, or ends with the error that ends them, under every limit on the steps
and without one. -/
theorem execute_written (ν : Type) [NumberSystem ν] {n : Nat} {ts : List Tree} {texts : List Text}
    (h : Written n ts texts) (limit : Option Nat) :
    (execute ν (['\n'].intercalate texts) limit).result = Tree.result ν limit ts := by
  obtain ⟨ls, blanks, hlines, hls, hb⟩ := exists_lines_of_written h
  have heffect : effect (runLines limit (ls ++ blanks) (.initial : Machine ν)) =
      Tree.runAll limit ts World.initial := effect_of_written limit h ls hls blanks hb .initial
  rw [execute_eq, result_ofResult_eq_map, hlines, heffect, Tree.result]

/-- Trees of every kind. -/
def sample : List Tree :=
  [.skip, .loop "i".toList ⟨0, 2⟩ [.choose ⟨"'a'".toList, .lt, "'b'".toList⟩
    [.print "'x'".toList, .assign "t".toList "'y'".toList] [.print "t".toList]],
    .when ⟨"t".toList, .ne, "'y'".toList⟩ [.skip], .print "t".toList]

def sampleLines : List Text :=
  ["# two turns".toList, "for i in range(0, 2):".toList, "  if 'a' < 'b':".toList,
    "    print('x')".toList, "    t = 'y'".toList, "  else:".toList, "   print(t)".toList,
    "if t != 'y':".toList, "".toList, "print(t)".toList]

theorem written_sample : Written 0 sample sampleLines := by
  have hassign : (Statement.assign "t".toList "'y'".toList).Plain :=
    ⟨.of_all (by decide) (by decide), by decide⟩
  have hthen : Written 4 [.print "'x'".toList, .assign "t".toList "'y'".toList]
      ["    print('x')".toList, "    t = 'y'".toList] :=
    .print (indented_of_spaces 4 (by decide))
      (.assign hassign (indented_of_spaces 4 (by decide)) .nil)
  have helse : Written 3 [.print "t".toList] ["   print(t)".toList] :=
    .print (indented_of_spaces 3 (by decide)) .nil
  have hif : (Statement.branch ⟨"'a'".toList, .lt, "'b'".toList⟩).Plain :=
    ⟨by decide, by decide, by decide, by decide, by decide, by decide⟩
  have hbody := Written.choose hif (indented_of_spaces 2 (by decide)) (by decide) hthen
    (indented_of_spaces 2 (by decide)) (by decide) helse .nil
  have hwhen : (Statement.branch ⟨"t".toList, .ne, "'y'".toList⟩).Plain :=
    ⟨by decide, by decide, by decide, by decide, by decide, by decide⟩
  have hblank : Written 1 [.skip] ["".toList] := .blank (by decide) (List.all_eq_true.mp rfl) .nil
  have hlast : Written 0 [.print "t".toList] ["print(t)".toList] :=
    .print (indented_of_spaces 0 (by decide)) .nil
  have hrest := Written.when hwhen (indented_of_spaces 0 (by decide)) (by decide) hblank hlast
  have hloop : (Statement.loop "i".toList ⟨0, 2⟩).Plain :=
    ⟨.of_all (by decide) (by decide), by decide, by decide⟩
  have htop := Written.loop hloop (indented_of_spaces 0 (by decide)) (by decide) hbody hrest
  have hstart : Indented 0 ('#' :: " two turns".toList) "# two turns".toList :=
    indented_of_spaces 0 (by decide)
  exact .comment hstart htop

theorem execute_written_sample : Written 0 sample sampleLines ∧
    (execute Float (['\n'].intercalate sampleLines) none).result =
      .ok ["x".toList, "x".toList, "y".toList] :=
  ⟨written_sample, (execute_written Float written_sample none).trans rfl⟩

end LessonScript
