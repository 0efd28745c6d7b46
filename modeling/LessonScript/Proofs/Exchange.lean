import LessonScript.Proofs.Lookup
import LessonScript.Proofs.Moment
import LessonScript.Proofs.Padding
import LessonScript.Proofs.RoundTrip
import Mathlib.Logic.Function.Basic

/-! # Exchanging assignments

Two assignments one after the other, to different names and neither reading the name of the other, can
be exchanged. The order in which names were bound is in the state and makes no difference: a run sees
what the names are bound to, the printed lines and the number of steps (`Machine.sight`), and lines
do the same in states of the same sight (`performed_of_sight`).

The two runs go side by side (`Moment.Matched`), in states of the same sight, except where one of them
has done the first of the two assignments and the other has not; there the next bit of the one is
followed by both assignments of the other (`performed_exchange`). An error may come earlier in one run
than in the other, so only runs that succeed are compared.

Main statement: `assignments_commute`. -/

namespace LessonScript

/-! ### What a run sees of a state -/

/-- What the names are bound to, the printed lines with the last one first, and the steps. -/
structure Sight (ν : Type) where
  block : Text → Option (Value ν)
  globals : Text → Option (Value ν)
  output : List Text
  steps : Nat

variable {ν : Type}

def Machine.sight (m : Machine ν) : Sight ν :=
  ⟨m.scope.block.get?, m.scope.globals.get?, m.output, m.steps⟩

namespace Sight

def stepped (s : Sight ν) : Sight ν := { s with steps := s.steps + 1 }

/-- A value is written to the block if that binds the name, and to the globals otherwise. -/
def write (s : Sight ν) (name : Text) (v : Value ν) : Sight ν :=
  if (s.block name).isSome then { s with block := Function.update s.block name (some v) }
  else { s with globals := Function.update s.globals name (some v) }

theorem write_of_block {s : Sight ν} {name : Text} (h : (s.block name).isSome = true)
    (v : Value ν) :
    s.write name v = { s with block := Function.update s.block name (some v) } := if_pos h

theorem write_of_not_block {s : Sight ν} {name : Text} (h : ¬ (s.block name).isSome = true)
    (v : Value ν) :
    s.write name v = { s with globals := Function.update s.globals name (some v) } := if_neg h

theorem stepped_write (s : Sight ν) (name : Text) (v : Value ν) :
    (s.write name v).stepped = s.stepped.write name v := by
  by_cases h : (s.block name).isSome = true
  · have h' : (s.stepped.block name).isSome = true := h
    rw [write_of_block h, write_of_block h']
    rfl
  · have h' : ¬ (s.stepped.block name).isSome = true := h
    rw [write_of_not_block h, write_of_not_block h']
    rfl

/-- Writing a name leaves open whether the block binds it, and what it binds others to. -/
theorem block_write_of_ne {name other : Text} (h : other ≠ name) (s : Sight ν) (v : Value ν) :
    (s.write name v).block other = s.block other := by
  unfold write
  split
  · exact Function.update_of_ne h _ _
  · rfl

/-- **Values written to different names** may be written in any order. -/
theorem write_comm {x y : Text} (h : x ≠ y) (s : Sight ν) (a b : Value ν) :
    (s.write x a).write y b = (s.write y b).write x a := by
  have hx : ((s.write y b).block x).isSome = (s.block x).isSome := by rw [block_write_of_ne h]
  have hy : ((s.write x a).block y).isSome = (s.block y).isSome := by rw [block_write_of_ne h.symm]
  by_cases hbx : (s.block x).isSome = true <;> by_cases hby : (s.block y).isSome = true <;>
    rw [← hx] at hbx <;> rw [← hy] at hby
  · rw [write_of_block hbx, write_of_block hby, write_of_block (hx ▸ hbx), write_of_block (hy ▸ hby)]
    exact congrArg ({ s with block := · }) (Function.update_comm h _ _ _)
  · rw [write_of_block hbx, write_of_not_block hby, write_of_block (hx ▸ hbx),
      write_of_not_block (hy ▸ hby)]
  · rw [write_of_not_block hbx, write_of_block hby, write_of_not_block (hx ▸ hbx),
      write_of_block (hy ▸ hby)]
  · rw [write_of_not_block hbx, write_of_not_block hby, write_of_not_block (hx ▸ hbx),
      write_of_not_block (hy ▸ hby)]
    exact congrArg ({ s with globals := · }) (Function.update_comm h _ _ _)

end Sight

theorem Bindings.get?_insert_eq_update {α : Type} (b : Bindings α) (name : Text) (a : α) :
    (b.insert name a).get? = Function.update b.get? name (some a) := by
  funext other
  rw [get?_insert, Function.update_apply]

namespace Machine

variable {m m' : Machine ν}

@[simp] theorem sight_stepped : m.stepped.sight = m.sight.stepped := rfl

@[simp] theorem sight_begun (line : Nat) (kind : StatementKind) :
    (m.begun line kind).sight = m.sight.stepped := rfl

@[simp] theorem sight_noted (e : Event) : (m.noted e).sight = m.sight := rfl

@[simp] theorem sight_withBlock (block : Bindings (Value ν)) :
    (m.withBlock block).sight = { m.sight with block := block.get? } := rfl

@[simp] theorem sight_assigned (name : Text) (v : Value ν) :
    (m.assigned name v).sight = m.sight.write name v := by
  by_cases h : m.scope.block.contains name = true
  · have hw : m.scope.write name v = { m.scope with block := m.scope.block.insert name v } := if_pos h
    have hs : (m.sight.block name).isSome = true := h
    rw [Sight.write_of_block hs, sight, assigned_scope, hw, Bindings.get?_insert_eq_update]
    rfl
  · have hw : m.scope.write name v = { m.scope with globals := m.scope.globals.insert name v } :=
      if_neg h
    have hs : ¬ (m.sight.block name).isSome = true := h
    rw [Sight.write_of_not_block hs, sight, assigned_scope, hw, Bindings.get?_insert_eq_update]
    rfl

variable [NumberSystem ν]

@[simp] theorem sight_visited (e : Text) : (m.visited e).sight = m.sight := rfl

@[simp] theorem sight_printed (v : Value ν) :
    (m.printed v).sight = { m.sight with output := v.toText :: m.sight.output } := rfl

@[simp] theorem sight_turned (block : Bindings (Value ν)) (var : Text) (i : Int) :
    (m.turned block var i).sight = { m.sight with
      block := Function.update block.get? var (some (.number (NumberSystem.ofInt i))) } :=
  congrArg ({ m.sight with block := · }) (Bindings.get?_insert_eq_update _ _ _)

omit [NumberSystem ν] in
theorem atLimit_of_sight {limit : Option Nat} (h : m.sight = m'.sight) :
    m.AtLimit limit ↔ m'.AtLimit limit := atLimit_of_steps (congrArg Sight.steps h)

theorem evaluate_of_sight (h : m.sight = m'.sight) (e : Text) :
    evaluate m.scope e = evaluate m'.scope e := by
  refine evaluate_congr fun v _ => ?_
  show (m.sight.block v).or (m.sight.globals v) = (m'.sight.block v).or (m'.sight.globals v)
  rw [h]

/-- An expression does not see what is written to a word that it does not have. -/
theorem evaluate_assigned {x e : Text} (hx : x.IsWord) (he : x ∉ e.words) (v : Value ν) :
    evaluate (m.assigned x v).scope e = evaluate m.scope e := by
  refine evaluate_congr fun u hu => ?_
  have hne : u ≠ x := by
    rintro rfl
    exact he (hu.mem_words hx)
  exact (Scope.read?_write _ _ _ _).trans (if_neg hne)

end Machine

section Performed

variable [NumberSystem ν] {l l' : Line} {m m' m₁ : Machine ν} {d : Demand}

/-- **Lines that say the same do the same** in states of the same sight. -/
theorem performed_of_sight (hs : l.statement = l'.statement) (h : l.Performed m d m₁)
    (hm : m.sight = m'.sight) :
    ∃ m₁', l'.Performed m' d m₁' ∧ m₁.sight = m₁'.sight := by
  have heval := Machine.evaluate_of_sight hm
  cases h with
  | skip h => exact ⟨m', .skip (hs ▸ h), hm⟩
  | print h hv => exact ⟨_, .print (hs ▸ h) (heval _ ▸ hv), by simp [hm]⟩
  | assign h hv => exact ⟨_, .assign (hs ▸ h) (heval _ ▸ hv), by simp [hm]⟩
  | loop h => exact ⟨_, .loop (hs ▸ h), by simp [hm]⟩
  | branch h ha hb => exact ⟨_, .branch (hs ▸ h) (heval _ ▸ ha) (heval _ ▸ hb), by simp [hm]⟩

theorem performed_assign_iff {x e : Text} (hs : l.statement = .ok (.assign x e)) :
    l.Performed m d m₁ ↔ ∃ v, evaluate m.scope e = .ok v ∧ d = .nothing ∧
      m₁ = ((m.begun l.number .assign).visited e).assigned x v := by
  refine ⟨fun h => ?_, ?_⟩
  · cases h with
    | assign hs' hv =>
      rw [hs] at hs'
      cases hs'
      exact ⟨_, hv, rfl, rfl⟩
    | skip hs' | print hs' _ | loop hs' | branch hs' _ _ =>
      rw [hs] at hs'
      cases hs'
  · rintro ⟨v, hv, rfl, rfl⟩
    exact .assign hs hv

end Performed

/-! ### Programs with assignments exchanged -/

/-- **Two assignments that can be exchanged**: at the same indentation, to different names, and
neither has the name of the other among the words of its expression. -/
structure Line.Independent (l l' : Line) (x e x' e' : Text) : Prop where
  statement : l.statement = .ok (.assign x e)
  statement' : l'.statement = .ok (.assign x' e')
  indent : l.indent = l'.indent
  ne : x ≠ x'
  not_mem : x ∉ e'.words
  not_mem' : x' ∉ e.words

namespace Line.Independent

variable {l l' : Line} {x e x' e' : Text} (h : l.Independent l' x e x' e')
include h

theorem symm (n n' : Nat) : Line.Independent ⟨n, l'.text⟩ ⟨n', l.text⟩ x' e' x e :=
  ⟨h.statement', h.statement, h.indent.symm, h.ne.symm, h.not_mem', h.not_mem⟩

theorem isWord : x.IsWord := (Statement.wellFormed_of_ofLine h.statement).1.1

theorem isInside_iff (p : Nat) : l.isInside p = true ↔ l'.isInside p = true := by
  have hl := isBlank_of_statement h.statement nofun
  have hl' := isBlank_of_statement h.statement' nofun
  simp [isInside, hl, hl', h.indent]

end Line.Independent

/-- **A program and the same program with assignments exchanged** in one or more places. The numbers
of the lines do not matter. -/
inductive Swapped : List Line → List Line → Prop
  | nil : Swapped [] []
  | same (n n' : Nat) (t : Text) {ls ls' : List Line} : Swapped ls ls' →
      Swapped (⟨n, t⟩ :: ls) (⟨n', t⟩ :: ls')
  | swap (n n' : Nat) {l l' : Line} {x e x' e' : Text} {ls ls' : List Line} :
      l.Independent l' x e x' e' → Swapped ls ls' →
      Swapped (l :: l' :: ls) (⟨n, l'.text⟩ :: ⟨n', l.text⟩ :: ls')

namespace Swapped

variable {ls ls' : List Line}

theorem symm (h : Swapped ls ls') : Swapped ls' ls := by
  induction h with
  | nil => exact nil
  | same n n' t _ ih => exact same n' n t ih
  | @swap n n' l l' _ _ _ _ _ _ hind _ ih => exact swap l.number l'.number (hind.symm n n') ih

theorem takeWhile_isInside (h : Swapped ls ls') (p : Nat) :
    Swapped (ls.takeWhile (Line.isInside p)) (ls'.takeWhile (Line.isInside p)) := by
  induction h with
  | nil => exact nil
  | @same n n' t ls ls' _ ih =>
    by_cases hin : (⟨n, t⟩ : Line).isInside p = true
    · have hin' : (⟨n', t⟩ : Line).isInside p = true := hin
      rw [List.takeWhile_cons_of_pos hin, List.takeWhile_cons_of_pos hin']
      exact same n n' t ih
    · have hin' : ¬ (⟨n', t⟩ : Line).isInside p = true := hin
      rw [List.takeWhile_cons_of_neg hin, List.takeWhile_cons_of_neg hin']
      exact nil
  | @swap n n' l l' x e x' e' ls ls' hind _ ih =>
    -- Both assignments belong to the block, or it ends before them.
    have hswap : (⟨n, l'.text⟩ : Line).isInside p = true ↔ l.isInside p = true :=
      (hind.isInside_iff p).symm
    by_cases hin : l.isInside p = true
    · have hin' := (hind.isInside_iff p).mp hin
      have hin'' : (⟨n', l.text⟩ : Line).isInside p = true := hin
      rw [List.takeWhile_cons_of_pos hin, List.takeWhile_cons_of_pos hin',
        List.takeWhile_cons_of_pos (hswap.mpr hin), List.takeWhile_cons_of_pos hin'']
      exact swap n n' hind ih
    · rw [List.takeWhile_cons_of_neg hin, List.takeWhile_cons_of_neg (mt hswap.mp hin)]
      exact nil

theorem dropWhile_isInside (h : Swapped ls ls') (p : Nat) :
    Swapped (ls.dropWhile (Line.isInside p)) (ls'.dropWhile (Line.isInside p)) := by
  induction h with
  | nil => exact nil
  | @same n n' t ls ls' h ih =>
    by_cases hin : (⟨n, t⟩ : Line).isInside p = true
    · have hin' : (⟨n', t⟩ : Line).isInside p = true := hin
      rw [List.dropWhile_cons_of_pos hin, List.dropWhile_cons_of_pos hin']
      exact ih
    · have hin' : ¬ (⟨n', t⟩ : Line).isInside p = true := hin
      rw [List.dropWhile_cons_of_neg hin, List.dropWhile_cons_of_neg hin']
      exact same n n' t h
  | @swap n n' l l' x e x' e' ls ls' hind h ih =>
    have hswap : (⟨n, l'.text⟩ : Line).isInside p = true ↔ l.isInside p = true :=
      (hind.isInside_iff p).symm
    by_cases hin : l.isInside p = true
    · have hin' := (hind.isInside_iff p).mp hin
      have hin'' : (⟨n', l.text⟩ : Line).isInside p = true := hin
      rw [List.dropWhile_cons_of_pos hin, List.dropWhile_cons_of_pos hin',
        List.dropWhile_cons_of_pos (hswap.mpr hin), List.dropWhile_cons_of_pos hin'']
      exact ih
    · rw [List.dropWhile_cons_of_neg hin, List.dropWhile_cons_of_neg (mt hswap.mp hin)]
      exact swap n n' hind h

/-- What is left of two programs after a block: it has an `else:` in both or in neither. -/
theorem elseHalf (h : Swapped ls ls') (n n' : Nat) (t : Text) :
    Swapped (Line.elseBlock ⟨n, t⟩ ls) (Line.elseBlock ⟨n', t⟩ ls') ∧
      Swapped (Line.pastElse ⟨n, t⟩ ls) (Line.pastElse ⟨n', t⟩ ls') := by
  have hpast : Swapped (Line.past ⟨n, t⟩ ls) (Line.past ⟨n', t⟩ ls') := h.dropWhile_isInside _
  have hnone := Line.related_of_no_else nil hpast
  generalize hq : Line.past ⟨n, t⟩ ls = qs at hpast
  generalize hq' : Line.past ⟨n', t⟩ ls' = qs' at hpast
  cases hpast with
  | nil => exact hnone (Line.elseLine?_of_nil hq) (Line.elseLine?_of_nil hq')
  | same m m' u hrest =>
    by_cases he : (⟨m, u⟩ : Line).isElseAt (Line.indent ⟨n, t⟩) = true
    · have he' : (⟨m', u⟩ : Line).isElseAt (Line.indent ⟨n', t⟩) = true := he
      rw [Line.elseBlock_of_pos hq he, Line.elseBlock_of_pos hq' he', Line.pastElse_of_pos hq he,
        Line.pastElse_of_pos hq' he']
      exact ⟨hrest.takeWhile_isInside _, hrest.dropWhile_isInside _⟩
    · exact hnone (Line.elseLine?_of_neg hq he) (Line.elseLine?_of_neg hq' he)
  | swap m m' hind _ =>
    have hassign := Line.isElse_of_statement hind.statement nofun
    have hassign' := Line.isElse_of_statement (hind.symm m m').statement nofun
    exact hnone (Line.elseLine?_of_neg hq (by simp [Line.isElseAt, hassign]))
      (Line.elseLine?_of_neg hq' (by simp [Line.isElseAt, hassign']))

theorem after (h : Swapped ls ls') (n n' : Nat) (t : Text) :
    Swapped (Line.after ⟨n, t⟩ ls) (Line.after ⟨n', t⟩ ls') :=
  Line.related_after rfl (h.dropWhile_isInside _) (h.elseHalf n n' t).2 h

end Swapped

/-! ### Two runs side by side -/

section Runs

variable [NumberSystem ν] {limit : Option Nat} {ts ts' : List (Task ν)} {ls ls' : List Line}
  {m m' m₁ m₂ : Machine ν} {d : Demand}

/-- Tasks of two programs with assignments exchanged, under blocks that bind the same. -/
inductive Task.Matched : Task ν → Task ν → Prop
  | lines {ls ls' : List Line} : Swapped ls ls' → Matched (.lines ls) (.lines ls')
  | turns (var : Text) (i : Int) (n : Nat) {body body' : List Line}
      {block block' : Bindings (Value ν)} : Swapped body body' → block.get? = block'.get? →
      Matched (.turns var i n body block) (.turns var i n body' block')

/-- **Moments of two runs side by side**: in states of the same sight, or with the first of two
assignments done in one run and none of them in the other. -/
inductive Moment.Matched (limit : Option Nat) : Moment ν → Moment ν → Prop
  | level {ts ts' : List (Task ν)} {m m' : Machine ν} : List.Forall₂ Task.Matched ts ts' →
      m.sight = m'.sight → Matched limit ⟨ts, m⟩ ⟨ts', m'⟩
  | between (n n' : Nat) {l l' : Line} {x e x' e' : Text} {ls ls' : List Line}
      {ts ts' : List (Task ν)} {m m₁ m' : Machine ν} : l.Independent l' x e x' e' →
      Swapped ls ls' → List.Forall₂ Task.Matched ts ts' → m.sight = m'.sight →
      l.Performed m .nothing m₁ → ¬ m.AtLimit limit →
      Matched limit ⟨.lines (l' :: ls) :: ts, m₁⟩
        ⟨.lines (⟨n, l'.text⟩ :: ⟨n', l.text⟩ :: ls') :: ts', m'⟩

/-- **Two assignments done the other way round** leave a state of the same sight. The steps are the
same after each of them. -/
theorem performed_exchange {l l' : Line} {x e x' e' : Text} (n n' : Nat)
    (h : l.Independent l' x e x' e') (h₁ : l.Performed m .nothing m₁) (h₂ : l'.Performed m₁ d m₂)
    (hm : m.sight = m'.sight) :
    ∃ m₁' m₂', Line.Performed ⟨n, l'.text⟩ m' .nothing m₁' ∧
      Line.Performed ⟨n', l.text⟩ m₁' .nothing m₂' ∧ d = .nothing ∧ m₁.steps = m₁'.steps ∧
      m₂.sight = m₂'.sight := by
  obtain ⟨v, hv, -, rfl⟩ := (performed_assign_iff h.statement).mp h₁
  obtain ⟨v', hv', rfl, rfl⟩ := (performed_assign_iff h.statement').mp h₂
  have heval : ∀ t, evaluate m.scope t = evaluate m'.scope t := Machine.evaluate_of_sight hm
  -- Neither expression sees what the other assignment wrote.
  have hw' : evaluate m'.scope e' = .ok v' := by
    rw [← heval, ← hv']
    exact (Machine.evaluate_assigned (m := m) h.isWord h.not_mem v).symm
  have hw : evaluate (m'.assigned x' v').scope e = .ok v := by
    rw [Machine.evaluate_assigned (h.symm n n').isWord h.not_mem', ← heval, hv]
  refine ⟨_, _, .assign h.statement' hw', .assign h.statement hw, rfl, ?_, ?_⟩
  · exact congrArg (fun s : Sight ν => s.steps + 1) hm
  · simp only [Machine.sight_assigned, Machine.sight_visited, Machine.sight_begun,
      Sight.stepped_write, hm]
    exact Sight.write_comm h.ne _ _ _

omit [NumberSystem ν] in
/-- The tasks that a line demands in the two runs. -/
theorem matched_tasks (h : Swapped ls ls') (n n' : Nat) (t : Text) (hm : m.sight = m'.sight)
    (hts : List.Forall₂ Task.Matched ts ts') :
    List.Forall₂ Task.Matched
      (Line.tasks ⟨n, t⟩ ls m.scope.block d ++ .lines (Line.after ⟨n, t⟩ ls) :: ts)
      (Line.tasks ⟨n', t⟩ ls' m'.scope.block d ++ .lines (Line.after ⟨n', t⟩ ls') :: ts') := by
  have hrest := List.Forall₂.cons (Task.Matched.lines (ν := ν) (h.after n n' t)) hts
  have hblock := h.takeWhile_isInside (Line.indent ⟨n, t⟩)
  cases d with
  | nothing => exact hrest
  | loop var range => exact .cons (.turns _ _ _ hblock (congrArg Sight.block hm)) hrest
  | branch holds =>
    cases holds with
    | true => exact .cons (.lines hblock) hrest
    | false => exact .cons (.lines (h.elseHalf n n' t).1) hrest

omit [NumberSystem ν] in
theorem sight_announced (l : Line) : (l.announced ls m d).sight = m.sight := by cases d <;> rfl

omit [NumberSystem ν] in
theorem after_of_assign {l : Line} {x e : Text} (hs : l.statement = .ok (.assign x e))
    (ls : List Line) : l.after ls = ls := by
  simp only [Line.after, hs]

/-- The cursor goes to the line after an assignment. -/
theorem change_of_assign (ls : List Line) (ts : List (Task ν)) {l : Line} {x e : Text}
    (hs : l.statement = .ok (.assign x e)) (hp : l.Performed m .nothing m₁)
    (hl : ¬ m.AtLimit limit) :
    Moment.Change limit ⟨.lines (l :: ls) :: ts, m⟩ ⟨.lines ls :: ts, m₁⟩ := by
  have h : Moment.Change limit ⟨.lines (l :: ls) :: ts, m⟩ ⟨.lines (l.after ls) :: ts, m₁⟩ :=
    .line hp (.inr hl)
  rwa [after_of_assign hs] at h

/-- **A run that waited does both assignments**, where the other run has done them. -/
theorem reaches_of_exchange (ls : List Line) (ts : List (Task ν)) {l l' : Line}
    {x e x' e' : Text} (n n' : Nat) (h : l.Independent l' x e x' e')
    (h₁ : l.Performed m .nothing m₁) (h₂ : l'.Performed m₁ d m₂) (hl₁ : ¬ m.AtLimit limit)
    (hl₂ : ¬ m₁.AtLimit limit) (hm : m.sight = m'.sight) :
    d = .nothing ∧ ∃ m₂', m₂.sight = m₂'.sight ∧ Moment.Reaches limit
      ⟨.lines (⟨n, l'.text⟩ :: ⟨n', l.text⟩ :: ls) :: ts, m'⟩ ⟨.lines ls :: ts, m₂'⟩ := by
  obtain ⟨m₁', m₂', hp, hp', hd, hsteps, hm₂⟩ := performed_exchange n n' h h₁ h₂ hm
  have hl : ¬ m'.AtLimit limit := mt (Machine.atLimit_of_sight hm).mpr hl₁
  have hl' : ¬ m₁'.AtLimit limit := mt (Machine.atLimit_of_steps hsteps).mpr hl₂
  have hother := h.symm n n'
  have hfirst := change_of_assign (⟨n', l.text⟩ :: ls) ts hother.statement hp hl
  have hsecond := change_of_assign ls ts hother.statement' hp' hl'
  exact ⟨hd, m₂', hm₂, .tail (.single (Moment.next_of_change hfirst)) (Moment.next_of_change hsecond)⟩

/-- **A line does its part in one run**, and the other run follows. -/
theorem exists_matched_of_line {l : Line} {c' : Moment ν}
    (hmatch : Moment.Matched limit ⟨.lines (l :: ls) :: ts, m⟩ c') (hp : l.Performed m d m₁)
    (hl : l.statement = .ok .skip ∨ ¬ m.AtLimit limit) :
    ∃ c₁', c'.Reaches limit c₁' ∧ Moment.Matched limit
      ⟨l.tasks ls m₁.scope.block d ++ .lines (l.after ls) :: ts, l.announced ls m₁ d⟩ c₁' := by
  cases hmatch with
  | @level _ ts' _ m' hts hm =>
    obtain _ | ⟨⟨hls⟩, hts⟩ := hts
    cases hls with
    | @same n n' t ls ls' hls =>
      have hs : (⟨n, t⟩ : Line).statement = (⟨n', t⟩ : Line).statement := rfl
      obtain ⟨m₁', hp', hm₁⟩ := performed_of_sight hs hp hm
      have hl' : (⟨n', t⟩ : Line).statement = .ok .skip ∨ ¬ m'.AtLimit limit :=
        hl.imp_right (mt (Machine.atLimit_of_sight hm).mpr)
      refine ⟨_, .single (Moment.next_of_change (.line hp' hl')), .level ?_ ?_⟩
      · exact matched_tasks hls n n' t hm₁ hts
      · rw [sight_announced, sight_announced, hm₁]
    | swap n n' hind hls =>
      -- The other run waits for the second of the two assignments.
      obtain ⟨-, -, rfl, -⟩ := (performed_assign_iff hind.statement).mp hp
      have hl' := hl.resolve_left (by simp [hind.statement])
      rw [after_of_assign hind.statement]
      exact ⟨_, .refl, .between n n' hind hls hts hm hp hl'⟩
  | @between n n' _ _ _ _ _ _ _ ls' _ ts' _ _ _ hind hls hts hm hp₀ hl₀ =>
    have hl' := hl.resolve_left (by simp [hind.statement'])
    obtain ⟨rfl, m₂', hm₂, hreach⟩ := reaches_of_exchange ls' ts' n n' hind hp₀ hp hl₀ hl' hm
    rw [after_of_assign hind.statement']
    exact ⟨_, hreach, .level (.cons (.lines hls) hts) hm₂⟩

theorem exists_of_matched_turns {var : Text} {i : Int} {n : Nat} {body : List Line}
    {block : Bindings (Value ν)} {c' : Moment ν}
    (h : Moment.Matched limit ⟨.turns var i n body block :: ts, m⟩ c') :
    ∃ body' block' ts' m', c' = ⟨.turns var i n body' block' :: ts', m'⟩ ∧ Swapped body body' ∧
      block.get? = block'.get? ∧ List.Forall₂ Task.Matched ts ts' ∧ m.sight = m'.sight := by
  cases h with
  | level hts hm =>
    cases hts with
    | cons ht hts =>
      cases ht with
      | turns _ _ _ hbody hblock => exact ⟨_, _, _, _, rfl, hbody, hblock, hts, hm⟩

/-- **Two runs stay side by side**: whatever one of them does next, the other follows. -/
theorem exists_matched_of_change {c c' c₁ : Moment ν} (h : Moment.Matched limit c c')
    (hc : c.Change limit c₁) : ∃ c₁', c'.Reaches limit c₁' ∧ Moment.Matched limit c₁ c₁' := by
  cases hc with
  | leave =>
    cases h with
    | level hts hm =>
      obtain _ | ⟨⟨⟨⟩⟩, hts⟩ := hts
      exact ⟨_, .single (Moment.next_of_change .leave), .level hts hm⟩
  | line hp hl => exact exists_matched_of_line h hp hl
  | finish =>
    obtain ⟨body', block', ts', m', rfl, -, hblock, hts, hm⟩ := exists_of_matched_turns h
    refine ⟨_, .single (Moment.next_of_change .finish), .level hts ?_⟩
    rw [Machine.sight_withBlock, Machine.sight_withBlock, hm, hblock]
  | turn hl =>
    obtain ⟨body', block', ts', m', rfl, hbody, hblock, hts, hm⟩ := exists_of_matched_turns h
    have hl' := mt (Machine.atLimit_of_sight hm).mpr hl
    refine ⟨_, .single (Moment.next_of_change (.turn hl')), .level ?_ ?_⟩
    · exact .cons (.lines hbody) (.cons (.turns _ _ _ hbody hblock) hts)
    · simp only [Machine.sight_turned, Machine.sight_stepped, Machine.sight_withBlock, hm, hblock]

theorem exists_matched_of_reaches {c c' c₁ : Moment ν} (h : Moment.Matched limit c c')
    (hr : c.Reaches limit c₁) : ∃ c₁', c'.Reaches limit c₁' ∧ Moment.Matched limit c₁ c₁' := by
  induction hr with
  | refl => exact ⟨c', .refl, h⟩
  | tail _ hnext ih =>
    obtain ⟨d, hd, hmatch⟩ := ih
    obtain ⟨d', hd', hmatch'⟩ := exists_matched_of_change hmatch (Moment.change_of_next hnext)
    exact ⟨d', hd.trans hd', hmatch'⟩

/-- **A program with assignments exchanged succeeds** where the program does, in a state of the same
sight. -/
theorem exists_of_swapped (h : Swapped ls ls') (hr : runLines limit ls m = .ok () m₁) :
    ∃ m₁', runLines limit ls' m = .ok () m₁' ∧ m₁.sight = m₁'.sight := by
  have hstart : Moment.Matched limit (.start ls m) (.start ls' m) :=
    .level (.cons (.lines h) .nil) rfl
  obtain ⟨c, hc, hmatch⟩ := exists_matched_of_reaches hstart (Moment.runLines_eq_ok_iff.mp hr)
  cases hmatch with
  | level hts hm =>
    cases hts
    exact ⟨_, Moment.runLines_eq_ok_iff.mpr hc, hm⟩

end Runs

/-! ### Sources -/

/-- The source with the line of an index and the one after it exchanged. -/
def swapLines (source : Text) (i : Nat) : Text :=
  let texts := source.splitOn '\n'
  ['\n'].intercalate (texts.take i ++ (((texts.drop i).take 2).reverse ++ texts.drop (i + 2)))

section Sources

variable {source : Text} {pre ls : List Line} {l l' : Line}

theorem map_text_swapLines (h : Line.ofSource source = pre ++ l :: l' :: ls) :
    (Line.ofSource (swapLines source pre.length)).map Line.text =
      pre.map Line.text ++ l'.text :: l.text :: ls.map Line.text := by
  have htexts : source.splitOn '\n' =
      pre.map Line.text ++ l.text :: l'.text :: ls.map Line.text := by
    rw [← map_text_ofSource, h, List.map_append, List.map_cons, List.map_cons]
  have hswap : swapLines source pre.length =
      ['\n'].intercalate (pre.map Line.text ++ l'.text :: l.text :: ls.map Line.text) := by
    have hdrop : ∀ t t' : Text, (pre.map Line.text ++ t :: t' :: ls.map Line.text).drop
        (pre.length + 2) = ls.map Line.text := by
      intro t t'
      rw [List.append_cons, List.append_cons]
      exact List.drop_left' (by simp)
    rw [swapLines, htexts]
    simp [hdrop]
  have hclean : ∀ t ∈ pre.map Line.text ++ l'.text :: l.text :: ls.map Line.text, '\n' ∉ t := by
    intro t ht
    refine newline_not_mem_splitOn source t ?_
    rw [htexts]
    simp only [List.mem_append, List.mem_cons] at ht ⊢
    tauto
  rw [map_text_ofSource, hswap, List.splitOn_intercalate '\n' hclean (by simp)]

theorem swapped_swapLines {x e x' e' : Text} (h : Line.ofSource source = pre ++ l :: l' :: ls)
    (hind : l.Independent l' x e x' e') :
    Swapped (Line.ofSource source) (Line.ofSource (swapLines source pre.length)) := by
  have htexts := map_text_swapLines h
  rw [h]
  refine related_of_map_text .same htexts fun rest' hrest' => ?_
  obtain ⟨k, rest', rfl, hk, hrest'⟩ := List.map_eq_cons_iff.mp hrest'
  obtain ⟨k', ls', rfl, hk', hls⟩ := List.map_eq_cons_iff.mp hrest'
  obtain ⟨n, t⟩ := k
  obtain ⟨n', t'⟩ := k'
  obtain rfl : t = l'.text := hk
  obtain rfl : t' = l.text := hk'
  exact .swap n n' hind (related_of_same_text .nil .same hls)

end Sources

theorem result_of_swapped [NumberSystem ν] {source source' : Text} {limit : Option Nat}
    {output : List Text} (h : Swapped (Line.ofSource source) (Line.ofSource source'))
    (hr : (execute ν source limit).result = .ok output) :
    (execute ν source' limit).result = .ok output := by
  obtain ⟨m, hm, rfl⟩ := Moment.exists_of_result_ok hr
  obtain ⟨m', hm', hsight⟩ := exists_of_swapped h (Moment.runLines_eq_ok_iff.mpr hm)
  rw [execute_eq, hm']
  exact congrArg (fun s : Sight ν => Except.ok s.output.reverse) hsight.symm

/-- **Independent assignments commute.** Let two lines of a source, one right after the other and at
the same indentation, assign to different names, and let neither name be a word of the expression that
the other line assigns. The lines can stand anywhere, in loops and in branches, and the names can be
loop variables. Under every step limit the source with the two lines exchanged succeeds exactly if
the source does, and prints the same. -/
theorem assignments_commute (ν : Type) [NumberSystem ν] {source : Text} {i : Nat} {l l' : Line}
    {x e x' e' : Text} (hl : (Line.ofSource source)[i]? = some l)
    (hl' : (Line.ofSource source)[i + 1]? = some l') (h : l.Independent l' x e x' e')
    (limit : Option Nat) (output : List Text) :
    (execute ν source limit).result = .ok output ↔
      (execute ν (swapLines source i) limit).result = .ok output := by
  obtain ⟨pre, rest, hrest, rfl⟩ := exists_append_of_getElem? hl
  rw [hrest, List.getElem?_append_right (Nat.le_succ _)] at hl'
  have hhead : rest.head? = some l' := by
    rw [List.head?_eq_getElem?]
    simpa using hl'
  obtain ⟨ls, rfl⟩ := List.head?_eq_some_iff.mp hhead
  have hswapped := swapped_swapLines hrest h
  exact ⟨result_of_swapped hswapped, result_of_swapped hswapped.symm⟩

/-- A loop with an assignment to its variable before one to a global. -/
def tens : Text :=
  "t = 3\nfor i in range(2):\n    i = i * 10\n    s = t - 1\n    print(i + s)".toList

theorem assignments_commute_tens :
    swapLines tens 2 =
        "t = 3\nfor i in range(2):\n    s = t - 1\n    i = i * 10\n    print(i + s)".toList ∧
      (execute Float tens (some 10)).result = .ok ["2".toList, "12".toList] ∧
      (execute Float (swapLines tens 2) (some 10)).result = .ok ["2".toList, "12".toList] := by
  have hl : (Line.ofSource tens)[2]? = some ⟨3, "    i = i * 10".toList⟩ := by decide +kernel
  have hl' : (Line.ofSource tens)[3]? = some ⟨4, "    s = t - 1".toList⟩ := by decide +kernel
  have hind : Line.Independent ⟨3, "    i = i * 10".toList⟩ ⟨4, "    s = t - 1".toList⟩
      "i".toList "i * 10".toList "s".toList "t - 1".toList :=
    ⟨by decide, by decide, by decide, by decide, by decide, by decide⟩
  have hr : (execute Float tens (some 10)).result = .ok ["2".toList, "12".toList] := by
    decide +kernel
  exact ⟨by decide, hr, (assignments_commute Float hl hl' hind (some 10) _).mp hr⟩

end LessonScript
