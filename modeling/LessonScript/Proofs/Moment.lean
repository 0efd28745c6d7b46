import LessonScript.Proofs.Operations
import Mathlib.Logic.Relation

/-! # A run, moment by moment

A *moment* of a run is the state together with the *tasks* that are still to be done, the innermost
one first: the lines of a block from the cursor on, or the turns of a loop that are left, with the
block of names that the loop runs under. `advance` does the next bit of the first task: the part of
one line, or the beginning of a turn.

A run of lines is what the moments come to (`runLines_eq_ok_iff`, `runLines_eq_error_iff`), so what
holds at every moment holds in every run. -/

namespace LessonScript

/-- Something that is still to be done in a run. -/
inductive Task (ν : Type)
  /-- The lines of a block from the cursor on. -/
  | lines (rest : List Line)
  /-- So many turns of a loop from an integer on, under a block of names. -/
  | turns (var : Text) (next : Int) (count : Nat) (body : List Line) (block : Bindings (Value ν))

/-- A moment of a run: what is still to be done, the innermost task first, and the state. -/
structure Moment (ν : Type) where
  tasks : List (Task ν)
  machine : Machine ν

variable {ν : Type} [NumberSystem ν]

/-- The tasks that a line demands before the cursor moves on. -/
def Line.tasks (l : Line) (ls : List Line) (block : Bindings (Value ν)) : Demand → List (Task ν)
  | .nothing => []
  | .loop var range => [.turns var range.start range.size (l.block ls) block]
  | .branch true => [.lines (l.block ls)]
  | .branch false => [.lines (l.elseBlock ls)]

/-- The state after a demand is noted in the log, which says how many turns a loop begins with. -/
def Line.announced (l : Line) (ls : List Line) (m : Machine ν) : Demand → Machine ν
  | .loop var range => m.noted (.looped var range.size (l.block ls).length)
  | _ => m

/-- Do the next bit of the first task. -/
def advance (limit : Option Nat) : List (Task ν) → Run ν (List (Task ν))
  | [] => pure []
  | .lines [] :: ts => pure ts
  | .lines (l :: ls) :: ts => do
    let demand ← l.perform limit
    modify fun m => l.announced ls m demand
    return l.tasks ls (← get).scope.block demand ++ .lines (l.after ls) :: ts
  | .turns _ _ 0 _ block :: ts => do
    modify (·.withBlock block)
    return ts
  | .turns var i (n + 1) body block :: ts => do
    modify (·.withBlock block)
    Run.step limit
    modify (·.turned block var i)
    return .lines body :: .turns var (i + 1) n body block :: ts

section Advance

variable {limit : Option Nat} {l : Line} {ls body : List Line} {ts : List (Task ν)}
  {m m' : Machine ν} {d : Demand} {var : Text} {i : Int} {n : Nat} {block : Bindings (Value ν)}

omit [NumberSystem ν] in
@[simp] theorem scope_announced : (l.announced ls m d).scope = m.scope := by cases d <;> rfl

omit [NumberSystem ν] in
@[simp] theorem steps_announced : (l.announced ls m d).steps = m.steps := by cases d <;> rfl

omit [NumberSystem ν] in
@[simp] theorem output_announced : (l.announced ls m d).output = m.output := by cases d <;> rfl

theorem advance_lines_of_ok (h : l.perform limit m = .ok d m') :
    advance limit (.lines (l :: ls) :: ts) m =
      .ok (l.tasks ls m'.scope.block d ++ .lines (l.after ls) :: ts) (l.announced ls m' d) := by
  rw [← scope_announced]
  exact Run.bind_of_ok h

theorem advance_lines_of_error {e : RunError} (h : l.perform limit m = .error e m') :
    advance limit (.lines (l :: ls) :: ts) m = .error e m' :=
  Run.bind_of_error h

theorem advance_turns_zero :
    advance limit (.turns var i 0 body block :: ts) m = .ok ts (m.withBlock block) := rfl

theorem advance_turns_of_atLimit {k : Nat} (hk : limit = some k) (hlt : k < m.steps + 1) :
    advance limit (.turns var i (n + 1) body block :: ts) m =
      .error (.stepLimit k) (m.withBlock block).stepped := by
  have hs : Run.step limit (m.withBlock block) = _ := Run.step_of_atLimit hk hlt
  exact (Run.bind_of_ok rfl).trans (Run.bind_of_error hs)

theorem advance_turns_of_not_atLimit (h : ¬ m.AtLimit limit) :
    advance limit (.turns var i (n + 1) body block :: ts) m =
      .ok (.lines body :: .turns var (i + 1) n body block :: ts)
        ((m.withBlock block).stepped.turned block var i) := by
  have hl : ¬ (m.withBlock block).AtLimit limit := h
  exact (Run.bind_of_ok rfl).trans (Run.bind_of_ok (Run.step_of_not_atLimit hl))

end Advance

namespace Moment

def Next (limit : Option Nat) (c c' : Moment ν) : Prop :=
  c.tasks ≠ [] ∧ advance limit c.tasks c.machine = .ok c'.tasks c'.machine

/-- One moment comes after another, or is the same. -/
def Reaches (limit : Option Nat) : Moment ν → Moment ν → Prop := Relation.ReflTransGen (Next limit)

/-- An error ends the run at the moment. -/
def Stops (limit : Option Nat) (c : Moment ν) (e : RunError) (m : Machine ν) : Prop :=
  advance limit c.tasks c.machine = .error e m

/-- An error ends the run at the moment or at a later one. -/
def Fails (limit : Option Nat) (c : Moment ν) (e : RunError) (m : Machine ν) : Prop :=
  ∃ c', Reaches limit c c' ∧ Stops limit c' e m

/-- The moment at which a run of lines begins. -/
def start (ls : List Line) (m : Machine ν) : Moment ν := ⟨[.lines ls], m⟩

/-- A moment of the run of a source. -/
def OfRun (limit : Option Nat) (source : Text) (c : Moment ν) : Prop :=
  (start (Line.ofSource source) .initial).Reaches limit c

/-- The run from a moment on comes to a result, with some of the tasks left. -/
def Delivers (limit : Option Nat) (c : Moment ν) (ts : List (Task ν)) :
    EStateM.Result RunError (Machine ν) Unit → Prop
  | .ok _ m => Reaches limit c ⟨ts, m⟩
  | .error e m => Fails limit c e m

variable {limit : Option Nat} {c c' : Moment ν} {ts ts' : List (Task ν)}

theorem Delivers.of_reaches {r : EStateM.Result RunError (Machine ν) Unit}
    (h : Reaches limit c c') (hd : Delivers limit c' ts r) : Delivers limit c ts r := by
  cases r with
  | ok u m => exact h.trans hd
  | error e m =>
    obtain ⟨c'', hr, hs⟩ := hd
    exact ⟨c'', h.trans hr, hs⟩

theorem Delivers.bind {x y : Run ν Unit} {m : Machine ν} (hx : Delivers limit c ts' (x m))
    (hy : ∀ m', x m = .ok () m' → Delivers limit ⟨ts', m'⟩ ts (y m')) :
    Delivers limit c ts ((x >>= fun _ => y) m) := by
  rcases hr : x m with ⟨u, m'⟩ | ⟨e, m'⟩
  · rw [Run.bind_of_ok hr]
    rw [hr] at hx
    exact .of_reaches hx (hy m' hr)
  · rw [Run.bind_of_error hr]
    rwa [hr] at hx

/-! ### A run of lines is what its moments come to -/

theorem Delivers.of_next (c' : Moment ν) {r : EStateM.Result RunError (Machine ν) Unit}
    (hne : c.tasks ≠ []) (h : advance limit c.tasks c.machine = .ok c'.tasks c'.machine)
    (hd : Delivers limit c' ts r) : Delivers limit c ts r :=
  .of_reaches (.single ⟨hne, h⟩) hd

theorem Delivers.of_stops {e : RunError} {m : Machine ν} (h : Stops limit c e m) :
    Delivers limit c ts (.error e m) :=
  ⟨c, .refl, h⟩

/-- The turns of a loop, if every run of its body is what its moments come to. The first thing that
the task does is to give back the block of names, so it does not matter which one the moment has. -/
theorem delivers_turns {body : List Line}
    (hbody : ∀ (ts : List (Task ν)) m, Delivers limit ⟨.lines body :: ts, m⟩ ts
      (runLines limit body m)) (var : Text) (block : Bindings (Value ν)) (n : Nat) :
    ∀ (i : Int) (m : Machine ν), Delivers limit ⟨.turns var i n body block :: ts, m⟩ ts
      (Run.turns limit var (runLines limit body) i n (m.withBlock block)) := by
  induction n with
  | zero =>
    intro i m
    exact .of_next ⟨ts, m.withBlock block⟩ (by simp) advance_turns_zero .refl
  | succ n ih =>
    intro i m
    rw [Run.turns_succ]
    by_cases hl : m.AtLimit limit
    · obtain ⟨k, hk, hlt⟩ := hl
      have hs : Run.step limit (m.withBlock block) = _ := Run.step_of_atLimit hk hlt
      rw [Run.bind_of_error hs]
      exact .of_stops (advance_turns_of_atLimit hk hlt)
    have hs : Run.step limit (m.withBlock block) = _ := Run.step_of_not_atLimit hl
    rw [Run.bind_of_ok hs]
    refine .of_next ⟨.lines body :: .turns var (i + 1) n body block :: ts,
      (m.withBlock block).stepped.turned block var i⟩ (by simp)
      (advance_turns_of_not_atLimit hl) ?_
    have hb := hbody (.turns var (i + 1) n body block :: ts)
      ((m.withBlock block).stepped.turned block var i)
    rcases hr : runLines limit body ((m.withBlock block).stepped.turned block var i)
      with ⟨u, m'⟩ | ⟨e, m'⟩
    · rw [hr] at hb
      have ht : Run.turn var i (runLines limit body) (m.withBlock block).stepped = _ :=
        Run.turn_of_ok hr
      rw [Run.bind_of_ok ht]
      exact .of_reaches hb (ih (i + 1) m')
    · rw [hr] at hb
      have ht : Run.turn var i (runLines limit body) (m.withBlock block).stepped = _ :=
        Run.turn_of_error hr
      rw [Run.bind_of_error ht]
      exact hb

/-- The tasks that a line demands come to what finishing the line comes to. -/
theorem delivers_finish {l : Line} {ls : List Line}
    (hblock : ∀ (ts : List (Task ν)) m, Delivers limit ⟨.lines (l.block ls) :: ts, m⟩ ts
      (runLines limit (l.block ls) m))
    (helse : ∀ (ts : List (Task ν)) m, Delivers limit ⟨.lines (l.elseBlock ls) :: ts, m⟩ ts
      (runLines limit (l.elseBlock ls) m)) (d : Demand) (m : Machine ν) :
    Delivers limit ⟨l.tasks ls m.scope.block d ++ ts, l.announced ls m d⟩ ts
      (l.finish limit ls d m) := by
  cases d with
  | nothing => exact .refl
  | loop var range =>
    exact delivers_turns hblock var m.scope.block range.size range.start
      (m.noted (.looped var range.size (l.block ls).length))
  | branch holds =>
    cases holds with
    | false => exact helse ts m
    | true => exact hblock ts m

/-- **The moments of a run of lines come to its result.** -/
theorem delivers_runLines (limit : Option Nat) (ls : List Line) :
    ∀ (ts : List (Task ν)) (m : Machine ν),
      Delivers limit ⟨.lines ls :: ts, m⟩ ts (runLines limit ls m) := by
  induction hn : ls.length using Nat.strong_induction_on generalizing ls with
  | _ n ih =>
    intro ts m
    rcases ls with _ | ⟨l, ls⟩
    · exact .of_next ⟨ts, m⟩ (by simp) rfl .refl
    have hlt : ∀ ls' : List Line, ls'.length ≤ ls.length → ls'.length < n := by
      intro ls' h
      rw [← hn, List.length_cons]
      omega
    have hblock := ih _ (hlt _ (l.length_block_le ls)) (l.block ls) rfl
    have helse := ih _ (hlt _ (l.length_elseBlock_le ls)) (l.elseBlock ls) rfl
    have hafter := ih _ (hlt _ (l.length_after_le ls)) (l.after ls) rfl
    rw [runLines_cons]
    rcases hp : l.perform limit m with ⟨d, m'⟩ | ⟨e, m'⟩
    · rw [Run.bind_of_ok hp]
      -- The blocks that the line demands are shorter than the program, and so is what follows them.
      refine .of_next ⟨_, _⟩ (by simp) (advance_lines_of_ok hp) ?_
      exact (delivers_finish hblock helse d m').bind fun m'' _ => hafter ts m''
    · rw [Run.bind_of_error hp]
      exact .of_stops (advance_lines_of_error hp)

/-! ### Results decide moments -/

theorem rightUnique_next :
    Relator.RightUnique (Next limit : Moment ν → Moment ν → Prop) := by
  rintro c ⟨ts₁, m₁⟩ ⟨ts₂, m₂⟩ h₁ h₂
  simpa using h₁.2.symm.trans h₂.2

/-- No moment is next after this one. -/
def Final (limit : Option Nat) (c : Moment ν) : Prop := ∀ c', ¬ Next limit c c'

theorem final_nil (m : Machine ν) : Final limit ⟨[], m⟩ := fun _ h => h.1 rfl

theorem final_of_stops {e : RunError} {m : Machine ν} (h : Stops limit c e m) : Final limit c := by
  intro c' hn
  have := h.symm.trans hn.2
  cases this

/-- A run comes to one final moment. -/
theorem eq_of_final {c₁ c₂ : Moment ν} (h₁ : Reaches limit c c₁) (h₂ : Reaches limit c c₂)
    (hf₁ : Final limit c₁) (hf₂ : Final limit c₂) : c₁ = c₂ := by
  rcases Relation.ReflTransGen.total_of_right_unique rightUnique_next h₁ h₂ with h | h
  · rcases Relation.ReflTransGen.cases_head h with h | ⟨c', hn, -⟩
    · exact h
    · exact absurd hn (hf₁ c')
  · rcases Relation.ReflTransGen.cases_head h with h | ⟨c', hn, -⟩
    · exact h.symm
    · exact absurd hn (hf₂ c')

/-- **A run of lines succeeds** exactly when its moments come to one at which nothing is left. -/
theorem runLines_eq_ok_iff {ls : List Line} {m m' : Machine ν} :
    runLines limit ls m = .ok () m' ↔ Reaches limit (start ls m) ⟨[], m'⟩ := by
  have hd := delivers_runLines limit ls [] m
  rcases hr : runLines limit ls m with ⟨u, m₁⟩ | ⟨e, m₁⟩ <;> rw [hr] at hd
  · constructor
    · rintro ⟨⟩
      exact hd
    · intro h
      cases eq_of_final hd h (final_nil _) (final_nil _)
      rfl
  · obtain ⟨c, hc, hs⟩ := hd
    refine ⟨nofun, fun h => ?_⟩
    have := eq_of_final hc h (final_of_stops hs) (final_nil _)
    subst this
    cases hs

/-- **A run of lines ends with an error** exactly when its moments come to one that the error
ends. -/
theorem runLines_eq_error_iff {ls : List Line} {m m' : Machine ν} {e : RunError} :
    runLines limit ls m = .error e m' ↔ Fails limit (start ls m) e m' := by
  have hd := delivers_runLines limit ls [] m
  rcases hr : runLines limit ls m with ⟨u, m₁⟩ | ⟨e₁, m₁⟩ <;> rw [hr] at hd
  · refine ⟨nofun, fun ⟨c, hc, hs⟩ => ?_⟩
    have := eq_of_final hd hc (final_nil _) (final_of_stops hs)
    subst this
    cases hs
  · constructor
    · rintro ⟨⟩
      exact hd
    · rintro ⟨c, hc, hs⟩
      obtain ⟨c₁, hc₁, hs₁⟩ := hd
      cases eq_of_final hc₁ hc (final_of_stops hs₁) (final_of_stops hs)
      cases hs₁.symm.trans hs
      rfl

/-! ### What a moment can do -/

/-- **All the ways in which a moment is followed by another.** -/
inductive Change (limit : Option Nat) : Moment ν → Moment ν → Prop
  | leave {ts : List (Task ν)} {m : Machine ν} : Change limit ⟨.lines [] :: ts, m⟩ ⟨ts, m⟩
  /-- A line does its part, and its demand goes before the lines after it. -/
  | line {l : Line} {ls : List Line} {ts : List (Task ν)} {m m' : Machine ν} {d : Demand} :
      l.Performed m d m' → l.statement = .ok .skip ∨ ¬ m.AtLimit limit →
      Change limit ⟨.lines (l :: ls) :: ts, m⟩
        ⟨l.tasks ls m'.scope.block d ++ .lines (l.after ls) :: ts, l.announced ls m' d⟩
  /-- A loop without turns left gives the block of names back. -/
  | finish {var : Text} {i : Int} {body : List Line} {block : Bindings (Value ν)}
      {ts : List (Task ν)} {m : Machine ν} :
      Change limit ⟨.turns var i 0 body block :: ts, m⟩ ⟨ts, m.withBlock block⟩
  | turn {var : Text} {i : Int} {n : Nat} {body : List Line} {block : Bindings (Value ν)}
      {ts : List (Task ν)} {m : Machine ν} : ¬ m.AtLimit limit →
      Change limit ⟨.turns var i (n + 1) body block :: ts, m⟩
        ⟨.lines body :: .turns var (i + 1) n body block :: ts,
          (m.withBlock block).stepped.turned block var i⟩

theorem change_of_next (h : Next limit c c') : Change limit c c' := by
  obtain ⟨hne, h⟩ := h
  obtain ⟨ts, m⟩ := c
  obtain ⟨ts', m'⟩ := c'
  rcases ts with _ | ⟨⟨_ | ⟨l, ls⟩⟩ | ⟨var, i, _ | n, body, block⟩, ts⟩
  · exact absurd rfl hne
  · cases h
    exact .leave
  · rcases hp : l.perform limit m with ⟨d, m₁⟩ | ⟨e, m₁⟩
    · cases h.symm.trans (advance_lines_of_ok hp)
      obtain ⟨hd, hl⟩ := Line.performed_of_perform hp
      exact .line hd hl
    · cases h.symm.trans (advance_lines_of_error hp)
  · have hz : advance limit (.turns var i 0 body block :: ts) m = .ok ts (m.withBlock block) :=
      advance_turns_zero
    obtain ⟨rfl, rfl⟩ := EStateM.Result.ok.inj (h.symm.trans hz)
    exact .finish
  · by_cases hl : m.AtLimit limit
    · obtain ⟨k, hk, hlt⟩ := hl
      cases h.symm.trans (advance_turns_of_atLimit hk hlt)
    · cases h.symm.trans (advance_turns_of_not_atLimit hl)
      exact .turn hl

theorem next_of_change (h : Change limit c c') : Next limit c c' := by
  cases h with
  | leave => exact ⟨by simp, rfl⟩
  | line hp hl => exact ⟨by simp, advance_lines_of_ok (Line.perform_of_performed hp hl)⟩
  | finish => exact ⟨by simp, advance_turns_zero⟩
  | turn hl => exact ⟨by simp, advance_turns_of_not_atLimit hl⟩

/-- **All the ways in which an error ends a run**: at a line, or at a turn that is a step too
many. -/
inductive Stopped (limit : Option Nat) : Moment ν → RunError → Machine ν → Prop
  | line {l : Line} {ls : List Line} {ts : List (Task ν)} {m m' : Machine ν} {e : RunError} :
      l.Failed limit m e m' → Stopped limit ⟨.lines (l :: ls) :: ts, m⟩ e m'
  | turn {var : Text} {i : Int} {n k : Nat} {body : List Line} {block : Bindings (Value ν)}
      {ts : List (Task ν)} {m : Machine ν} : limit = some k → k < m.steps + 1 →
      Stopped limit ⟨.turns var i (n + 1) body block :: ts, m⟩ (.stepLimit k)
        (m.withBlock block).stepped

theorem stopped_of_stops {e : RunError} {m : Machine ν} (h : Stops limit c e m) :
    Stopped limit c e m := by
  obtain ⟨ts, m₀⟩ := c
  rcases ts with _ | ⟨⟨_ | ⟨l, ls⟩⟩ | ⟨var, i, _ | n, body, block⟩, ts⟩
  · cases h
  · cases h
  · rcases hp : l.perform limit m₀ with ⟨d, m₁⟩ | ⟨e₁, m₁⟩
    · cases h.symm.trans (advance_lines_of_ok hp)
    · cases h.symm.trans (advance_lines_of_error hp)
      exact .line (Line.failed_of_perform hp)
  · cases h.symm.trans advance_turns_zero
  · by_cases hl : m₀.AtLimit limit
    · obtain ⟨k, hk, hlt⟩ := hl
      cases h.symm.trans (advance_turns_of_atLimit hk hlt)
      exact .turn hk hlt
    · cases h.symm.trans (advance_turns_of_not_atLimit hl)

/-- **What every change keeps holds at every moment of a run.** -/
theorem of_reaches {P : Moment ν → Prop} (hstep : ∀ c c', Change limit c c' → P c → P c')
    (h : Reaches limit c c') (hc : P c) : P c' := by
  induction h with
  | refl => exact hc
  | tail _ hn ih => exact hstep _ _ (change_of_next hn) ih

/-! ### The result of a source -/

variable {source : Text}

/-- The output of a source is what is printed at a moment at which nothing is left. -/
theorem exists_of_result_ok {output : List Text}
    (h : (execute ν source limit).result = .ok output) :
    ∃ m : Machine ν, OfRun limit source ⟨[], m⟩ ∧ m.output.reverse = output := by
  rw [execute_eq] at h
  rcases hr : (runLines limit (Line.ofSource source) : Run ν Unit) .initial
    with ⟨u, m⟩ | ⟨e, m⟩ <;> rw [hr] at h
  · exact ⟨m, runLines_eq_ok_iff.mp hr, Except.ok.inj h⟩
  · cases h

/-- The error of a source ends its run at one of its moments. -/
theorem exists_of_result_error {e : RunError}
    (h : (execute ν source limit).result = .error e) :
    ∃ (c : Moment ν) (m : Machine ν), OfRun limit source c ∧ Stops limit c e m := by
  rw [execute_eq] at h
  rcases hr : (runLines limit (Line.ofSource source) : Run ν Unit) .initial
    with ⟨u, m⟩ | ⟨e', m⟩ <;> rw [hr] at h
  · cases h
  · obtain rfl : e' = e := Except.error.inj h
    obtain ⟨c, hc, hs⟩ := runLines_eq_error_iff.mp hr
    exact ⟨c, m, hc, hs⟩

end Moment

end LessonScript
