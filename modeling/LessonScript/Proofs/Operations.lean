import LessonScript.Proofs.Cursor
import Mathlib.Tactic.Simps.Basic

/-! # What the operations of a run do

One equation for every operation of a run, and from them the two relations that say everything a
line can do on its own: `Line.Performed`, with the demand and the state that it leaves, and
`Line.Failed`, with the error and the state in which it ends the run. -/

namespace LessonScript

variable {ν : Type} {α β : Type}

/-! ### Changes of the state -/

namespace Machine

@[simps] def stepped (m : Machine ν) : Machine ν := { m with steps := m.steps + 1 }

/-- The state after a statement is begun: it is counted and noted. -/
@[simps] def begun (m : Machine ν) (line : Nat) (kind : StatementKind) : Machine ν :=
  { m with steps := m.steps + 1, log := .executed line kind :: m.log }

@[simps] def noted (m : Machine ν) (e : Event) : Machine ν := { m with log := e :: m.log }

@[simps] def assigned (m : Machine ν) (name : Text) (v : Value ν) : Machine ν :=
  { m with scope := m.scope.write name v }

@[simps] def withBlock (m : Machine ν) (block : Bindings (Value ν)) : Machine ν :=
  { m with scope := { m.scope with block := block } }

/-- One more step is beyond the limit. -/
def AtLimit (m : Machine ν) (limit : Option Nat) : Prop := ∃ n, limit = some n ∧ n < m.steps + 1

theorem atLimit_of_steps {m m' : Machine ν} {limit : Option Nat} (h : m.steps = m'.steps) :
    m.AtLimit limit ↔ m'.AtLimit limit := by
  rw [AtLimit, AtLimit, h]

variable [NumberSystem ν]

/-- The state after an expression is evaluated. -/
@[simps] def visited (m : Machine ν) (e : Text) : Machine ν :=
  { m with log := ((visits m.scope e).map .evaluated).reverse ++ m.log }

@[simps] def printed (m : Machine ν) (v : Value ν) : Machine ν :=
  { m with output := v.toText :: m.output }

/-- The state at the beginning of a loop turn that runs under a block of names. -/
@[simps!] def turned (m : Machine ν) (block : Bindings (Value ν)) (var : Text) (i : Int) :
    Machine ν :=
  m.withBlock (block.insert var (.number (NumberSystem.ofInt i)))

end Machine

/-! ### Sequences -/

namespace Run

theorem bind_apply (x : Run ν α) (f : α → Run ν β) (m : Machine ν) :
    (x >>= f) m = match x m with
      | .ok a m' => f a m'
      | .error e m' => .error e m' := by
  show EStateM.bind x f m = _
  unfold EStateM.bind
  cases x m <;> rfl

theorem bind_of_ok {x : Run ν α} {f : α → Run ν β} {m m' : Machine ν} {a : α}
    (h : x m = .ok a m') : (x >>= f) m = f a m' := by rw [bind_apply, h]

theorem bind_of_error {x : Run ν α} {f : α → Run ν β} {m m' : Machine ν} {e : RunError}
    (h : x m = .error e m') : (x >>= f) m = .error e m' := by rw [bind_apply, h]

/-! ### The operations -/

theorem step_of_atLimit {limit : Option Nat} {m : Machine ν} {n : Nat} (hl : limit = some n)
    (hn : n < m.steps + 1) : step limit m = .error (.stepLimit n) m.stepped := by
  subst hl
  show (if n < m.steps + 1 then throw (.stepLimit n) else pure () : Run ν Unit) _ = _
  rw [if_pos hn]
  rfl

theorem step_of_not_atLimit {limit : Option Nat} {m : Machine ν} (h : ¬ m.AtLimit limit) :
    step limit m = .ok () m.stepped := by
  rcases limit with _ | n
  · rfl
  · show (if n < m.steps + 1 then throw (.stepLimit n) else pure () : Run ν Unit) _ = _
    rw [if_neg fun hn => h ⟨n, rfl, hn⟩]
    rfl

theorem begin_of_atLimit {limit : Option Nat} {m : Machine ν} {n : Nat} (hl : limit = some n)
    (hn : n < m.steps + 1) (line : Nat) (kind : StatementKind) :
    begin limit line kind m = .error (.stepLimit n) m.stepped :=
  bind_of_error (step_of_atLimit hl hn)

theorem begin_of_not_atLimit {limit : Option Nat} {m : Machine ν} (h : ¬ m.AtLimit limit)
    (line : Nat) (kind : StatementKind) :
    begin limit line kind m = .ok () (m.begun line kind) :=
  bind_of_ok (step_of_not_atLimit h)

variable [NumberSystem ν]

theorem foldl_evaluated (ts : List Text) (log : List Event) :
    ts.foldl (fun log t => .evaluated t :: log) log = (ts.map Event.evaluated).reverse ++ log := by
  induction ts generalizing log with
  | nil => rfl
  | cons t ts ih => rw [List.foldl_cons, ih, List.map_cons, List.reverse_cons, List.append_assoc]; rfl

theorem eval_of_ok {m : Machine ν} {e : Text} {v : Value ν} (h : evaluate m.scope e = .ok v) :
    eval e m = .ok v (m.visited e) := by
  rw [eval, bind_of_ok (x := get) rfl, h, Machine.visited, ← foldl_evaluated]
  rfl

theorem eval_of_error {m : Machine ν} {e : Text} {err : EvalError}
    (h : evaluate m.scope e = .error err) :
    eval e m = .error (.evaluation err) (m.visited e) := by
  rw [eval, bind_of_ok (x := get) rfl, h, Machine.visited, ← foldl_evaluated]
  rfl

theorem condition_of_lhs {m : Machine ν} {cond : Condition} {err : EvalError}
    (h : evaluate m.scope cond.lhs = .error err) :
    condition cond m = .error (.evaluation err) (m.visited cond.lhs) :=
  bind_of_error (eval_of_error h)

theorem condition_of_rhs {m : Machine ν} {cond : Condition} {a : Value ν} {err : EvalError}
    (ha : evaluate m.scope cond.lhs = .ok a) (h : evaluate m.scope cond.rhs = .error err) :
    condition cond m = .error (.evaluation err) ((m.visited cond.lhs).visited cond.rhs) := by
  have h' : evaluate (m.visited cond.lhs).scope cond.rhs = .error err := h
  rw [condition, bind_of_ok (eval_of_ok ha)]
  exact bind_of_error (eval_of_error h')

/-- A condition reads its operands one after the other and then compares them. -/
theorem condition_of_ok {m : Machine ν} {cond : Condition} {a b : Value ν}
    (ha : evaluate m.scope cond.lhs = .ok a) (hb : evaluate m.scope cond.rhs = .ok b) :
    condition cond m = .ok (cond.op.holds a b) (((m.visited cond.lhs).visited cond.rhs).noted
      (.decided a.toText cond.op b.toText (cond.op.holds a b))) := by
  have hb' : evaluate (m.visited cond.lhs).scope cond.rhs = .ok b := hb
  rw [condition, bind_of_ok (eval_of_ok ha), bind_of_ok (eval_of_ok hb')]
  rfl

/-- A loop turn runs its body with the variable bound, and then gives the block of names back. -/
theorem turn_of_ok {var : Text} {i : Int} {body : Run ν Unit} {m m' : Machine ν}
    (h : body (m.turned m.scope.block var i) = .ok () m') :
    turn var i body m = .ok () (m'.withBlock m.scope.block) := by
  show (body >>= fun _ => modify fun m' : Machine ν => m'.withBlock m.scope.block)
    (m.turned m.scope.block var i) = _
  rw [bind_of_ok h]
  rfl

theorem turn_of_error {var : Text} {i : Int} {body : Run ν Unit} {m m' : Machine ν} {e : RunError}
    (h : body (m.turned m.scope.block var i) = .error e m') :
    turn var i body m = .error e m' := by
  show (body >>= fun _ => modify fun m' : Machine ν => m'.withBlock m.scope.block)
    (m.turned m.scope.block var i) = _
  exact bind_of_error h

theorem turns_succ (limit : Option Nat) (var : Text) (body : Run ν Unit) (i : Int) (n : Nat) :
    turns limit var body i (n + 1) =
      step limit >>= fun _ => turn var i body >>= fun _ => turns limit var body (i + 1) n := rfl

end Run

/-! ### What a line does on its own -/

namespace Line

variable [NumberSystem ν]

/-- **What the part of a line leaves**: its demand and the state, from the state before it. -/
inductive Performed (l : Line) (m : Machine ν) : Demand → Machine ν → Prop
  | skip : l.statement = .ok .skip → Performed l m .nothing m
  | print {expr : Text} {v : Value ν} : l.statement = .ok (.print expr) →
      evaluate m.scope expr = .ok v →
      Performed l m .nothing (((m.begun l.number .print).visited expr).printed v)
  | assign {target value : Text} {v : Value ν} : l.statement = .ok (.assign target value) →
      evaluate m.scope value = .ok v →
      Performed l m .nothing (((m.begun l.number .assign).visited value).assigned target v)
  | loop {var : Text} {range : Range} : l.statement = .ok (.loop var range) →
      Performed l m (.loop var range) (m.begun l.number .loop)
  | branch {cond : Condition} {a b : Value ν} : l.statement = .ok (.branch cond) →
      evaluate m.scope cond.lhs = .ok a → evaluate m.scope cond.rhs = .ok b →
      Performed l m (.branch (cond.op.holds a b))
        ((((m.begun l.number .branch).visited cond.lhs).visited cond.rhs).noted
          (.decided a.toText cond.op b.toText (cond.op.holds a b)))

/-- **How the part of a line ends a run**: the error and the state, from the state before it. -/
inductive Failed (limit : Option Nat) (l : Line) (m : Machine ν) : RunError → Machine ν → Prop
  /-- A header that cannot be read is an error before it counts as a step. -/
  | header {fault : HeaderFault} : l.statement = .error fault → Failed limit l m (.header fault) m
  /-- Any other line that is no skip may be a step too many. -/
  | stepLimit {s : Statement} {n : Nat} : l.statement = .ok s → s ≠ .skip → limit = some n →
      n < m.steps + 1 → Failed limit l m (.stepLimit n) m.stepped
  /-- A line of no known shape is an error as a step. -/
  | unsupported {text : Text} : l.statement = .ok (.unrecognized text) → ¬ m.AtLimit limit →
      Failed limit l m (.unsupported text) (m.begun l.number .unrecognized)
  | print {expr : Text} {err : EvalError} : l.statement = .ok (.print expr) →
      ¬ m.AtLimit limit → evaluate m.scope expr = .error err →
      Failed limit l m (.evaluation err) ((m.begun l.number .print).visited expr)
  | assign {target value : Text} {err : EvalError} : l.statement = .ok (.assign target value) →
      ¬ m.AtLimit limit → evaluate m.scope value = .error err →
      Failed limit l m (.evaluation err) ((m.begun l.number .assign).visited value)
  | lhs {cond : Condition} {err : EvalError} : l.statement = .ok (.branch cond) →
      ¬ m.AtLimit limit → evaluate m.scope cond.lhs = .error err →
      Failed limit l m (.evaluation err) ((m.begun l.number .branch).visited cond.lhs)
  | rhs {cond : Condition} {a : Value ν} {err : EvalError} : l.statement = .ok (.branch cond) →
      ¬ m.AtLimit limit → evaluate m.scope cond.lhs = .ok a →
      evaluate m.scope cond.rhs = .error err →
      Failed limit l m (.evaluation err)
        (((m.begun l.number .branch).visited cond.lhs).visited cond.rhs)

/-- Whatever a result is, it is what a line leaves or how it ends the run. -/
def Accounted (limit : Option Nat) (l : Line) (m : Machine ν) :
    EStateM.Result RunError (Machine ν) Demand → Prop
  | .ok d m' => l.Performed m d m' ∧ (l.statement = .ok .skip ∨ ¬ m.AtLimit limit)
  | .error e m' => l.Failed limit m e m'

theorem perform_of_atLimit {limit : Option Nat} {l : Line} {m : Machine ν} {s : Statement}
    {n : Nat} (hs : l.statement = .ok s) (hskip : s ≠ .skip) (hn : limit = some n)
    (hlt : n < m.steps + 1) : l.perform limit m = .error (.stepLimit n) m.stepped := by
  cases s with
  | skip => exact absurd rfl hskip
  | _ =>
    simp only [perform, hs]
    exact Run.bind_of_error (Run.begin_of_atLimit hn hlt _ _)

/-- **All that the part of a line can do.** -/
theorem accounted_perform (limit : Option Nat) (l : Line) (m : Machine ν) :
    l.Accounted limit m (l.perform limit m) := by
  rcases hs : l.statement with fault | s
  · simp only [perform, hs]
    exact .header hs
  by_cases hskip : s = .skip
  · subst hskip
    simp only [perform, hs]
    exact ⟨.skip hs, Or.inl hs⟩
  by_cases hl : m.AtLimit limit
  · obtain ⟨n, hn, hlt⟩ := hl
    rw [perform_of_atLimit hs hskip hn hlt]
    exact .stepLimit hs hskip hn hlt
  have hbegin := Run.begin_of_not_atLimit hl l.number
  cases s with
  | skip => exact absurd rfl hskip
  | print expr =>
    simp only [perform, hs, Run.bind_of_ok (hbegin _)]
    rcases hv : evaluate (m.begun l.number .print).scope expr with err | v
    · rw [Run.bind_of_error (Run.eval_of_error hv)]
      exact .print hs hl hv
    · rw [Run.bind_of_ok (Run.eval_of_ok hv)]
      exact ⟨.print hs hv, Or.inr hl⟩
  | assign target value =>
    simp only [perform, hs, Run.bind_of_ok (hbegin _)]
    rcases hv : evaluate (m.begun l.number .assign).scope value with err | v
    · rw [Run.bind_of_error (Run.eval_of_error hv)]
      exact .assign hs hl hv
    · rw [Run.bind_of_ok (Run.eval_of_ok hv)]
      exact ⟨.assign hs hv, Or.inr hl⟩
  | loop var range =>
    simp only [perform, hs, Run.bind_of_ok (hbegin _)]
    exact ⟨.loop hs, Or.inr hl⟩
  | branch cond =>
    simp only [perform, hs, Run.bind_of_ok (hbegin _)]
    rcases ha : evaluate (m.begun l.number .branch).scope cond.lhs with err | a
    · rw [Run.bind_of_error (Run.condition_of_lhs ha)]
      exact .lhs hs hl ha
    rcases hb : evaluate (m.begun l.number .branch).scope cond.rhs with err | b
    · rw [Run.bind_of_error (Run.condition_of_rhs ha hb)]
      exact .rhs hs hl ha hb
    · rw [Run.bind_of_ok (Run.condition_of_ok ha hb)]
      exact ⟨.branch hs ha hb, Or.inr hl⟩
  | unrecognized text =>
    simp only [perform, hs, Run.bind_of_ok (hbegin _)]
    exact .unsupported hs hl

theorem performed_of_perform {limit : Option Nat} {l : Line} {m m' : Machine ν} {d : Demand}
    (h : l.perform limit m = .ok d m') :
    l.Performed m d m' ∧ (l.statement = .ok .skip ∨ ¬ m.AtLimit limit) := by
  have ha := accounted_perform limit l m
  rwa [h] at ha

/-- What a line leaves is what its part comes to, if that is no step too many. -/
theorem perform_of_performed {limit : Option Nat} {l : Line} {m m' : Machine ν} {d : Demand}
    (h : l.Performed m d m') (hl : l.statement = .ok .skip ∨ ¬ m.AtLimit limit) :
    l.perform limit m = .ok d m' := by
  have hbegin : l.statement ≠ .ok .skip → ∀ kind,
      Run.begin limit l.number kind m = .ok () (m.begun l.number kind) :=
    fun hne => Run.begin_of_not_atLimit (hl.resolve_left hne) l.number
  cases h with
  | skip hs =>
    simp only [perform, hs]
    rfl
  | @print expr v hs hv =>
    have hv' : evaluate (m.begun l.number .print).scope expr = .ok v := hv
    simp only [perform, hs, Run.bind_of_ok (hbegin (by simp [hs]) _)]
    exact Run.bind_of_ok (Run.eval_of_ok hv')
  | @assign target value v hs hv =>
    have hv' : evaluate (m.begun l.number .assign).scope value = .ok v := hv
    simp only [perform, hs, Run.bind_of_ok (hbegin (by simp [hs]) _)]
    exact Run.bind_of_ok (Run.eval_of_ok hv')
  | loop hs =>
    simp only [perform, hs, Run.bind_of_ok (hbegin (by simp [hs]) _)]
    rfl
  | @branch cond a b hs ha hb =>
    have ha' : evaluate (m.begun l.number .branch).scope cond.lhs = .ok a := ha
    have hb' : evaluate (m.begun l.number .branch).scope cond.rhs = .ok b := hb
    simp only [perform, hs, Run.bind_of_ok (hbegin (by simp [hs]) _)]
    exact Run.bind_of_ok (Run.condition_of_ok ha' hb')

theorem failed_of_perform {limit : Option Nat} {l : Line} {m m' : Machine ν} {e : RunError}
    (h : l.perform limit m = .error e m') : l.Failed limit m e m' := by
  have ha := accounted_perform limit l m
  rwa [h] at ha

end Line

end LessonScript
