import LessonScript.Proofs.Lookup
import LessonScript.Proofs.Structured

/-! # Programs with one environment

Here a program is run with one environment for all its names: an assignment sets its name, a turn of
a loop sets the loop variable, and nothing is ever given back (`Node.store`). This is not what a run
does, which gives the block of names back after every turn of a loop, but a program that never
writes to a loop variable or reads one outside its loops cannot tell (`Node.Tame`).

While loops over some variables are at work, a world and a store *agree* if they bind every name to
the same value, except for the variables of other loops (`Agrees`): in the store these still have
the values of their last turns. A turn makes the two agree about its variable, and when the block is
given back they agree about everything else.

Main statement: `simulates_execAll`. -/

namespace LessonScript

/-! ### Runs with one environment -/

/-- What a program with one environment can see and change: the values of the names, the printed
lines in order, and the number of steps. -/
structure Store (ν : Type) where
  names : Bindings (Value ν)
  output : List Text
  steps : Nat

variable {ν : Type}

namespace Store

def initial : Store ν := ⟨.empty, [], 0⟩

/-- One more step, which may be one too many. -/
def tick (limit : Option Nat) (s : Store ν) : Except RunError (Store ν) :=
  match limit with
  | some n =>
    if s.steps < n then .ok { s with steps := s.steps + 1 } else .error (.stepLimit n)
  | none => .ok { s with steps := s.steps + 1 }

def set (s : Store ν) (name : Text) (v : Value ν) : Store ν :=
  { s with names := s.names.insert name v }

variable [NumberSystem ν]

/-- The value of an expression, with all names looked up in the one environment. -/
def eval (s : Store ν) (e : Text) : Except RunError (Value ν) :=
  (evaluate ⟨.empty, s.names⟩ e).mapError .evaluation

def holds (s : Store ν) (cond : Condition) : Except RunError Bool := do
  let a ← s.eval cond.lhs
  let b ← s.eval cond.rhs
  return cond.op.holds a b

def print (s : Store ν) (v : Value ν) : Store ν := { s with output := s.output ++ [v.toText] }

/-- A turn of a loop: the variable is set to an integer, and the body runs. -/
def turn (limit : Option Nat) (var : Text) (body : Store ν → Except RunError (Store ν))
    (s : Store ν) (i : Int) : Except RunError (Store ν) := do
  let s ← s.tick limit
  body (s.set var (.number (NumberSystem.ofInt i)))

end Store

section Executor

variable [NumberSystem ν]

mutual

/-- **What a node does with one environment.** -/
def Node.store (limit : Option Nat) : Node → Store ν → Except RunError (Store ν)
  | .skip _, s => .ok s
  | .malformed _ fault, _ => .error (.header fault)
  | .print _ expr, s => do
    let s ← s.tick limit
    return s.print (← s.eval expr)
  | .assign _ target value, s => do
    let s ← s.tick limit
    return s.set target (← s.eval value)
  | .loop _ var range _ body, s => do
    let s ← s.tick limit
    range.integers.foldlM (Store.turn limit var (Node.storeAll limit body)) s
  | .branch _ cond thenBody _ elseBody, s => do
    let s ← s.tick limit
    if ← s.holds cond then Node.storeAll limit thenBody s else Node.storeAll limit elseBody s
  | .unrecognized _ text, s => do
    let _ ← s.tick limit
    .error (.unsupported text)

/-- What nodes do one after the other with one environment. -/
def Node.storeAll (limit : Option Nat) : List Node → Store ν → Except RunError (Store ν)
  | [], s => .ok s
  | n :: ns, s => do Node.storeAll limit ns (← Node.store limit n s)

end

/-- **What a source comes to with one environment**: the printed lines, or the error that ends it.
-/
def executeFlat (ν : Type) [NumberSystem ν] (source : Text) (limit : Option Nat) :
    Except RunError (List Text) :=
  (Node.storeAll limit (outline (Line.ofSource source)) (Store.initial : Store ν)).map Store.output

end Executor

/-! ### Programs that cannot tell -/

/-- The expression reads no variable of a loop that is not at work. `loops` are the variables of all
loops, `active` those of the loops at work. -/
def Reads (loops active : List Text) (e : Text) : Prop := ∀ v ∈ e.words, v ∈ loops → v ∈ active

mutual

/-- **The node cannot tell the two ways to run it apart**: it assigns to no loop variable, no loop
is inside one over the same variable, and a loop variable is read inside its loops only. -/
def Node.Tame (loops : List Text) (active : List Text) : Node → Prop
  | .skip _ | .malformed _ _ | .unrecognized _ _ => True
  | .print _ expr => Reads loops active expr
  | .assign _ target value => target ∉ loops ∧ Reads loops active value
  | .loop _ var _ _ body =>
    var ∈ loops ∧ var ∉ active ∧ Node.TameAll loops (var :: active) body
  | .branch _ cond thenBody _ elseBody =>
    Reads loops active cond.lhs ∧ Reads loops active cond.rhs ∧
      Node.TameAll loops active thenBody ∧ Node.TameAll loops active elseBody

def Node.TameAll (loops : List Text) (active : List Text) : List Node → Prop
  | [] => True
  | n :: ns => Node.Tame loops active n ∧ Node.TameAll loops active ns

end

/-! ### Worlds and stores that agree -/

/-- **The world and the store agree** while loops over the active variables are at work: about what
is printed, the steps, and every name but the variables of other loops. The block of names owns loop
variables only. -/
structure Agrees (loops active : List Text) (w : World ν) (s : Store ν) : Prop where
  output : w.output = s.output
  steps : w.steps = s.steps
  owned : ∀ name, w.scope.block.contains name = true → name ∈ loops
  read : ∀ name, (name ∈ loops → name ∈ active) → w.scope.read? name = s.names.get? name

namespace Agrees

variable {loops active : List Text} {w : World ν} {s : Store ν}

theorem initial : Agrees loops active (World.initial : World ν) Store.initial :=
  ⟨rfl, rfl, fun _ h => (nomatch h), fun _ _ => rfl⟩

/-- An assignment goes to the globals, because the block owns loop variables only. -/
theorem assign (h : Agrees loops active w s) {target : Text} (ht : target ∉ loops) (v : Value ν) :
    Agrees loops active (w.assign target v) (s.set target v) ∧
      (w.assign target v).scope.block = w.scope.block := by
  refine ⟨⟨h.output, h.steps, fun name hname => ?_, fun name hname => ?_⟩, ?_⟩
  · exact h.owned name ((w.scope.contains_block_write target name v).symm.trans hname)
  · have hread := h.read name hname
    show (w.scope.write target v).read? name = (s.names.insert target v).get? name
    rw [Scope.read?_write, Bindings.get?_insert, hread]
  · have howned : w.scope.block.contains target = false := by
      by_contra hc
      exact ht (h.owned target (by simpa using hc))
    show (w.scope.write target v).block = w.scope.block
    rw [Scope.write, if_neg (by simp [howned])]

/-- When the block is given back, the two need not agree about the variable any more. -/
theorem leave {block : Bindings (Value ν)} {var : Text} {v : Value ν}
    (h : Agrees loops (var :: active) w s) (hvar : var ∈ loops) (hactive : var ∉ active)
    (hblock : w.scope.block = block.insert var v) :
    Agrees loops active (w.withBlock block) s := by
  refine ⟨h.output, h.steps, fun name hname => ?_, fun name hname => ?_⟩
  · refine h.owned name ?_
    rw [hblock, Bindings.contains_insert, show block.contains name = true from hname, Bool.or_true]
  · have hne : name ≠ var := by
      rintro rfl
      exact hactive (hname hvar)
    have hread := h.read name fun hl => List.mem_cons_of_mem var (hname hl)
    rw [← hread]
    show (block.get? name).or _ = (w.scope.block.get? name).or _
    rw [hblock, Bindings.get?_insert, if_neg hne]
    rfl

variable [NumberSystem ν]

theorem print (h : Agrees loops active w s) (v : Value ν) :
    Agrees loops active (w.print v) (s.print v) :=
  ⟨congrArg (· ++ [v.toText]) h.output, h.steps, h.owned, h.read⟩

/-- A turn makes the two agree about the variable of its loop. -/
theorem enter (h : Agrees loops active w s) {var : Text} (hvar : var ∈ loops) (i : Int) :
    Agrees loops (var :: active) (w.enter var i) (s.set var (.number (NumberSystem.ofInt i))) := by
  refine ⟨h.output, h.steps, fun name hname => ?_, fun name hname => ?_⟩
  · have hc : (w.scope.block.insert var (.number (NumberSystem.ofInt i))).contains name = true :=
      hname
    rw [Bindings.contains_insert, Bool.or_eq_true, decide_eq_true_eq] at hc
    rcases hc with rfl | hc
    · exact hvar
    · exact h.owned name hc
  · show ((w.scope.block.insert var _).get? name).or (w.scope.globals.get? name) =
      (s.names.insert var _).get? name
    rw [Bindings.get?_insert, Bindings.get?_insert]
    split_ifs with hn
    · rfl
    · refine h.read name fun hl => ?_
      exact (List.mem_cons.mp (hname hl)).resolve_left hn

/-- The two give the same value to an expression that reads no variable of another loop. -/
theorem eval (h : Agrees loops active w s) (hloops : ∀ v ∈ loops, v.IsWord) {e : Text}
    (he : Reads loops active e) : w.eval e = s.eval e := by
  refine congrArg (Except.mapError _) (evaluate_congr fun v hv => ?_)
  -- Only a word can be a loop variable, and a word that is looked up is one of the words.
  exact h.read v fun hl => he v (hv.mem_words (hloops v hl)) hl

theorem holds (h : Agrees loops active w s) (hloops : ∀ v ∈ loops, v.IsWord) {cond : Condition}
    (hl : Reads loops active cond.lhs) (hr : Reads loops active cond.rhs) :
    w.holds cond = s.holds cond := by
  rw [World.holds, Store.holds, h.eval hloops hl, h.eval hloops hr]

end Agrees

/-! ### Parts of runs -/

/-- The same error, or a world and a store that agree, with the given block in force. -/
def Follows (loops active : List Text) (block : Bindings (Value ν)) :
    Except RunError (World ν) → Except RunError (Store ν) → Prop
  | .ok w, .ok s => Agrees loops active w s ∧ w.scope.block = block
  | .error e, .error e' => e = e'
  | _, _ => False

theorem Follows.output {loops active : List Text} {block : Bindings (Value ν)}
    {x : Except RunError (World ν)} {y : Except RunError (Store ν)}
    (h : Follows loops active block x y) : x.map World.output = y.map Store.output := by
  rcases x with e | w <;> rcases y with e' | s
  · exact congrArg Except.error h
  · exact h.elim
  · exact h.elim
  · exact congrArg Except.ok h.1.output

/-- **The part of a run does what the function does with one environment**, and leaves the block of
names as it is. -/
def Simulates (loops active : List Text) (x : Run ν Unit)
    (f : Store ν → Except RunError (Store ν)) : Prop :=
  ∀ (m : Machine ν) s, Agrees loops active m.world s →
    Follows loops active m.scope.block (effect (x m)) (f s)

namespace Simulates

variable {loops active : List Text} {x y : Run ν Unit} {f g : Store ν → Except RunError (Store ν)}
  {limit : Option Nat} {α : Type}

theorem pure : Simulates loops active (Pure.pure () : Run ν Unit) .ok := fun _ _ h => ⟨h, rfl⟩

theorem throw (e : RunError) :
    Simulates loops active (MonadExcept.throw e : Run ν Unit) fun _ => .error e := fun _ _ _ => rfl

theorem bind (hx : Simulates loops active x f) (hy : Simulates loops active y g) :
    Simulates loops active (x >>= fun _ => y) (fun s => f s >>= g) := by
  intro m s h
  show Follows loops active m.scope.block (effect ((x >>= fun _ => y) m)) (f s >>= g)
  have hm := hx m s h
  rcases hr : x m with ⟨u, m'⟩ | ⟨e, m'⟩ <;> rcases hs : f s with e' | s' <;> rw [hr, hs] at hm
  · exact hm.elim
  · obtain ⟨hagrees, hblock⟩ := hm
    rw [Run.bind_of_ok hr, ← show m'.scope.block = m.scope.block from hblock]
    exact hy m' s' hagrees
  · obtain rfl : e = e' := hm
    rw [Run.bind_of_error hr]
    rfl
  · exact hm.elim

/-- What is done with a value that is the same for worlds and stores that agree. -/
theorem of_yields {x : Run ν α} {y : α → Run ν Unit} {p : World ν → Except RunError α}
    {q : Store ν → Except RunError α} {g : α → Store ν → Except RunError (Store ν)}
    (hx : Yields x p) (hpq : ∀ w s, Agrees loops active w s → p w = q s)
    (hy : ∀ a, Simulates loops active (y a) (g a)) :
    Simulates loops active (x >>= y) (fun s => q s >>= fun a => g a s) := by
  intro m s h
  show Follows loops active m.scope.block (effect ((x >>= y) m)) (q s >>= fun a => g a s)
  rw [← hpq m.world s h]
  rcases hx m with ⟨a, m', hr, hp, hw⟩ | ⟨e, m', hr, hp⟩
  · have hblock : m'.scope.block = m.scope.block := congrArg (fun w => w.scope.block) hw
    rw [Run.bind_of_ok hr, hp, ← hblock]
    exact hy a m' s (hw ▸ h)
  · rw [Run.bind_of_error hr, hp]
    rfl

theorem of_effect {p : World ν → Except RunError (World ν)} (hx : HasEffect x p)
    (hp : ∀ w s, Agrees loops active w s → Follows loops active w.scope.block (p w) (f s)) :
    Simulates loops active x f := by
  intro m s h
  rw [hx m]
  exact hp m.world s h

theorem follows_tick {w : World ν} {s : Store ν} (h : Agrees loops active w s) :
    Follows loops active w.scope.block (w.tick limit) (s.tick limit) := by
  have hsteps : w.steps + 1 = s.steps + 1 := congrArg (· + 1) h.steps
  rcases limit with _ | n
  · exact ⟨⟨h.output, hsteps, h.owned, h.read⟩, rfl⟩
  · simp only [World.tick, Store.tick, h.steps]
    split_ifs
    · exact ⟨⟨h.output, rfl, h.owned, h.read⟩, rfl⟩
    · rfl

theorem begin (line : Nat) (kind : StatementKind) :
    Simulates loops active (Run.begin limit line kind : Run ν Unit) (Store.tick limit) :=
  of_effect (effect_begin limit line kind) fun _ _ => follows_tick

theorem record (hx : Simulates loops active x f) (e : Event) :
    Simulates loops active (Run.record e >>= fun _ => x) f := fun m s h => hx (m.noted e) s h

theorem assign {target : Text} (ht : target ∉ loops) (v : Value ν) :
    Simulates loops active (Run.assign target v) fun s => .ok (s.set target v) :=
  of_effect (effect_assign target v) fun _ _ h => h.assign ht v

variable [NumberSystem ν]

theorem print (v : Value ν) :
    Simulates loops active (Run.print v) fun s => .ok (s.print v) :=
  of_effect (effect_print v) fun _ _ h => ⟨h.print v, rfl⟩

/-- **A turn of a loop.** Its body runs with the variable of the loop at work. -/
theorem turn {body : Run ν Unit} {var : Text} (hvar : var ∈ loops) (hactive : var ∉ active)
    (hbody : Simulates loops (var :: active) body f) (i : Int) :
    Simulates loops active (Run.step limit >>= fun _ => Run.turn var i body)
      fun s => Store.turn limit var f s i := by
  refine (of_effect (effect_step limit) fun _ _ => follows_tick).bind
    (g := fun s => f (s.set var (.number (NumberSystem.ofInt i)))) fun m s h => ?_
  have hm := hbody (m.turned m.scope.block var i) _ (h.enter hvar i)
  show Follows loops active m.scope.block (effect (Run.turn var i body m))
    (f (s.set var (.number (NumberSystem.ofInt i))))
  rcases hr : body (m.turned m.scope.block var i) with ⟨u, m'⟩ | ⟨e, m'⟩ <;>
    rcases hs : f (s.set var (.number (NumberSystem.ofInt i))) with e' | s' <;> rw [hr, hs] at hm
  · exact hm.elim
  · obtain ⟨hagrees, hblock⟩ := hm
    rw [Run.turn_of_ok hr]
    exact ⟨hagrees.leave hvar hactive hblock, rfl⟩
  · obtain rfl : e = e' := hm
    rw [Run.turn_of_error hr]
    rfl
  · exact hm.elim

theorem turns {body : Run ν Unit} {var : Text} (hvar : var ∈ loops) (hactive : var ∉ active)
    (hbody : Simulates loops (var :: active) body f) (n : Nat) :
    ∀ i, Simulates loops active (Run.turns limit var body i n)
      (((List.range n).map fun k : Nat => i + (k : Int)).foldlM (Store.turn limit var f)) := by
  induction n with
  | zero => exact fun _ => pure
  | succ n ih =>
    intro i
    rw [Run.turns_succ, integers_succ, ← bind_assoc]
    exact (turn hvar hactive hbody i).bind (ih (i + 1))

end Simulates

/-! ### Nodes -/

section Nodes

variable [NumberSystem ν] {loops : List Text} {limit : Option Nat}

mutual

/-- **A tame node does what it does with one environment.** -/
theorem simulates_exec (hloops : ∀ v ∈ loops, v.IsWord) :
    ∀ (n : Node) (active : List Text), n.Tame loops active →
      Simulates loops active (Node.exec limit n : Run ν Unit) (Node.store limit n)
  | .skip _, _, _ => by
    intro m s h
    rw [Node.exec, Node.store]
    exact Simulates.pure m s h
  | .malformed _ fault, _, _ => by
    intro m s h
    rw [Node.exec, Node.store]
    exact Simulates.throw _ m s h
  | .print line expr, active, htame => by
    intro m s h
    rw [Node.Tame] at htame
    rw [Node.exec, Node.store]
    exact ((Simulates.begin line .print).bind (Simulates.of_yields (yields_eval expr)
      (fun _ _ hws => hws.eval hloops htame) Simulates.print)) m s h
  | .assign line target value, active, htame => by
    intro m s h
    rw [Node.Tame] at htame
    obtain ⟨htarget, hvalue⟩ := htame
    rw [Node.exec, Node.store]
    exact ((Simulates.begin line .assign).bind (Simulates.of_yields (yields_eval value)
      (fun _ _ hws => hws.eval hloops hvalue) (Simulates.assign htarget))) m s h
  | .loop line var range bodyLines body, active, htame => by
    intro m s h
    rw [Node.Tame] at htame
    obtain ⟨hvar, hactive, hbody⟩ := htame
    have hturns : Simulates loops active
        (Run.turns limit var (Node.execAll limit body) range.start range.size : Run ν Unit)
        (range.integers.foldlM (Store.turn limit var (Node.storeAll limit body))) :=
      Simulates.turns hvar hactive (simulates_execAll hloops body (var :: active) hbody) range.size
        range.start
    rw [Node.exec, Node.store]
    exact ((Simulates.begin line .loop).bind (hturns.record _)) m s h
  | .branch line cond thenBody _ elseBody, active, htame => by
    intro m s h
    rw [Node.Tame] at htame
    obtain ⟨hlhs, hrhs, hthen, helse⟩ := htame
    rw [Node.exec, Node.store]
    refine ((Simulates.begin line .branch).bind (Simulates.of_yields (yields_condition cond)
      (fun _ _ hws => hws.holds hloops hlhs hrhs) (g := fun holds s =>
        if holds then Node.storeAll limit thenBody s else Node.storeAll limit elseBody s)
      fun holds => ?_)) m s h
    cases holds with
    | false => exact simulates_execAll hloops elseBody active helse
    | true => exact simulates_execAll hloops thenBody active hthen
  | .unrecognized line text, _, _ => by
    intro m s h
    rw [Node.exec, Node.store]
    exact ((Simulates.begin line .unrecognized).bind (Simulates.throw _)) m s h

/-- **Tame nodes do what they do with one environment.** -/
theorem simulates_execAll (hloops : ∀ v ∈ loops, v.IsWord) :
    ∀ (ns : List Node) (active : List Text), Node.TameAll loops active ns →
      Simulates loops active (Node.execAll limit ns : Run ν Unit) (Node.storeAll limit ns)
  | [], _, _ => by
    intro m s h
    rw [Node.execAll, Node.storeAll]
    exact Simulates.pure m s h
  | n :: ns, active, htame => by
    intro m s h
    rw [Node.TameAll] at htame
    obtain ⟨hn, hns⟩ := htame
    rw [Node.execAll, Node.storeAll]
    exact ((simulates_exec hloops n active hn).bind (simulates_execAll hloops ns active hns)) m s h

end

end Nodes

end LessonScript
