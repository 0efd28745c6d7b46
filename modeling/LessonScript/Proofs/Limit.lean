import LessonScript.Proofs.Balance

/-! # The step limit

A run with a limit is the run without one, up to the step that is one too many. This is a property of
parts of a run that sequencing keeps (`Metered`): steps are counted before anything else is done, so
where the unlimited run takes no more steps than the limit the two are the same, and otherwise the
limited one ends at the first step beyond the limit, with nothing in the log that is not in the log of
the other. What is counted as a step is said by the log and the loop turns that begin
(`steps_of_unlimited`).

Main statement: `step_limit_exact`. -/

namespace LessonScript

variable {ν : Type} {α β : Type}

/-- The state in which a part of a run ends. -/
def endState : EStateM.Result RunError (Machine ν) α → Machine ν
  | .ok _ m => m
  | .error _ m => m

/-- Steps are only added, and so are the entries of the log. -/
structure Machine.Grows (m m' : Machine ν) : Prop where
  steps : m.steps ≤ m'.steps
  log : m.log <:+ m'.log

namespace Machine.Grows

theorem trans {m m' m'' : Machine ν} (h : m.Grows m') (h' : m'.Grows m'') : m.Grows m'' :=
  ⟨h.steps.trans h'.steps, h.log.trans h'.log⟩

end Machine.Grows

/-- **What a limit does to a part of a run** that begins within the limit. -/
structure Metered (x : Option Nat → Run ν α) : Prop where
  /-- Without a limit, steps and entries of the log are only added. -/
  grows : ∀ m : Machine ν, m.Grows (endState (x none m))
  /-- A limit that is not exceeded changes nothing. -/
  within : ∀ limit m, (endState (x none m)).steps ≤ limit → x (some limit) m = x none m
  /-- A limit that is exceeded ends the run at the first step beyond it. -/
  beyond : ∀ limit m, m.steps ≤ limit → limit < (endState (x none m)).steps →
    ∃ m', x (some limit) m = .error (.stepLimit limit) m' ∧ m'.steps = limit + 1 ∧
      m'.log <:+ (endState (x none m)).log

/-- The part of a run counts no steps. -/
def Uncounted (x : Run ν α) : Prop :=
  ∀ m, (endState (x m)).steps = m.steps ∧ m.log <:+ (endState (x m)).log

namespace Uncounted

theorem metered {x : Run ν α} (h : Uncounted x) : Metered fun _ => x where
  grows m := ⟨(h m).1.ge, (h m).2⟩
  within _ _ _ := rfl
  beyond limit m hle hlt := by
    have hsteps := (h m).1
    omega

theorem pure (a : α) : Uncounted (Pure.pure a : Run ν α) := fun _ => ⟨rfl, List.suffix_rfl⟩

theorem throw (e : RunError) : Uncounted (MonadExcept.throw e : Run ν α) :=
  fun _ => ⟨rfl, List.suffix_rfl⟩

theorem record (e : Event) : Uncounted (Run.record e : Run ν Unit) :=
  fun m => ⟨rfl, List.suffix_cons e m.log⟩

theorem assign (name : Text) (v : Value ν) : Uncounted (Run.assign name v) :=
  fun _ => ⟨rfl, List.suffix_rfl⟩

variable [NumberSystem ν]

theorem print (v : Value ν) : Uncounted (Run.print v) := fun _ => ⟨rfl, List.suffix_rfl⟩

theorem eval (e : Text) : Uncounted (Run.eval e : Run ν (Value ν)) := by
  intro m
  have hlog : m.log <:+ (m.visited e).log := List.suffix_append _ _
  rcases h : evaluate m.scope e with err | v
  · rw [Run.eval_of_error h]
    exact ⟨rfl, hlog⟩
  · rw [Run.eval_of_ok h]
    exact ⟨rfl, hlog⟩

end Uncounted

namespace Metered

/-- **Sequencing keeps it.** The first part is cut, or it ends within the limit and the second part
begins where it does in the unlimited run. -/
theorem bind {x : Option Nat → Run ν α} {f : α → Option Nat → Run ν β} (hx : Metered x)
    (hf : ∀ a, Metered (f a)) : Metered fun limit => x limit >>= fun a => f a limit where
  grows m := by
    have hg := hx.grows m
    rcases hr : x none m with ⟨a, m₁⟩ | ⟨e, m₁⟩ <;> rw [hr] at hg
    · rw [Run.bind_of_ok hr]
      exact hg.trans ((hf a).grows m₁)
    · rw [Run.bind_of_error hr]
      exact hg
  within limit m hle := by
    rcases hr : x none m with ⟨a, m₁⟩ | ⟨e, m₁⟩
    · rw [Run.bind_of_ok hr] at hle ⊢
      have hm₁ : m₁.steps ≤ limit := ((hf a).grows m₁).steps.trans hle
      have hxl : x (some limit) m = .ok a m₁ := by
        rw [hx.within limit m (by rwa [hr]), hr]
      rw [Run.bind_of_ok hxl, (hf a).within limit m₁ hle]
    · rw [Run.bind_of_error hr] at hle ⊢
      have hxl : x (some limit) m = .error e m₁ := by
        rw [hx.within limit m (by rwa [hr]), hr]
      rw [Run.bind_of_error hxl]
  beyond limit m hm hlt := by
    rcases hr : x none m with ⟨a, m₁⟩ | ⟨e, m₁⟩
    · rw [Run.bind_of_ok hr] at hlt ⊢
      -- The limit is exceeded in the second part or already in the first one.
      by_cases hm₁ : m₁.steps ≤ limit
      · have hxl : x (some limit) m = .ok a m₁ := by
          rw [hx.within limit m (by rwa [hr]), hr]
        rw [Run.bind_of_ok hxl]
        exact (hf a).beyond limit m₁ hm₁ hlt
      · obtain ⟨m', hxl, hsteps, hlog⟩ := hx.beyond limit m hm (by rw [hr]; exact Nat.not_le.mp hm₁)
        rw [hr] at hlog
        rw [Run.bind_of_error hxl]
        exact ⟨m', rfl, hsteps, hlog.trans ((hf a).grows m₁).log⟩
    · rw [Run.bind_of_error hr] at hlt ⊢
      obtain ⟨m', hxl, hsteps, hlog⟩ := hx.beyond limit m hm (by rw [hr]; exact hlt)
      rw [hr] at hlog
      rw [Run.bind_of_error hxl]
      exact ⟨m', rfl, hsteps, hlog⟩

theorem step : Metered (Run.step : Option Nat → Run ν Unit) where
  grows m := ⟨Nat.le_succ _, List.suffix_rfl⟩
  within limit m hle := by
    have hl : ¬ m.AtLimit (some limit) := by
      rintro ⟨n, hn, hlt⟩
      obtain rfl := Option.some.inj hn
      exact absurd hlt (Nat.not_lt.mpr hle)
    rw [Run.step_of_not_atLimit hl]
    rfl
  beyond limit m hm hlt :=
    ⟨m.stepped, Run.step_of_atLimit rfl hlt, Nat.le_antisymm (Nat.succ_le_succ hm) hlt,
      List.suffix_rfl⟩

theorem begin (line : Nat) (kind : StatementKind) :
    Metered fun limit => (Run.begin limit line kind : Run ν Unit) :=
  step.bind fun _ => (Uncounted.record _).metered

variable [NumberSystem ν]

theorem condition (cond : Condition) :
    Metered fun _ => (Run.condition cond : Run ν Bool) :=
  (Uncounted.eval _).metered.bind fun _ => (Uncounted.eval _).metered.bind fun _ =>
    (Uncounted.record _).metered.bind fun _ => (Uncounted.pure _).metered

theorem turn (var : Text) (i : Int) {body : Option Nat → Run ν Unit} (h : Metered body) :
    Metered fun limit => Run.turn var i (body limit) := by
  have hget : Uncounted (get : Run ν (Machine ν)) := fun _ => ⟨rfl, List.suffix_rfl⟩
  have henter : Uncounted (modify fun m : Machine ν =>
      { m with scope := m.scope.enterTurn var (.number (NumberSystem.ofInt i)) }) :=
    fun _ => ⟨rfl, List.suffix_rfl⟩
  have hleave : ∀ block, Uncounted (modify fun m : Machine ν => m.withBlock block) :=
    fun _ _ => ⟨rfl, List.suffix_rfl⟩
  exact hget.metered.bind fun m => henter.metered.bind fun _ =>
    h.bind fun _ => (hleave m.scope.block).metered

theorem turns (var : Text) {body : Option Nat → Run ν Unit} (h : Metered body) (n : Nat) :
    ∀ i, Metered fun limit => Run.turns limit var (body limit) i n := by
  induction n with
  | zero => exact fun _ => (Uncounted.pure ()).metered
  | succ n ih => exact fun i => step.bind fun _ => (turn var i h).bind fun _ => ih (i + 1)

end Metered

variable [NumberSystem ν]

mutual

/-- **A limit on the run of a node.** -/
theorem metered_exec : ∀ n : Node, Metered fun limit => (Node.exec limit n : Run ν Unit)
  | .skip _ => by
    simp only [Node.exec]
    exact (Uncounted.pure ()).metered
  | .malformed _ fault => by
    simp only [Node.exec]
    exact (Uncounted.throw _).metered
  | .print line expr => by
    simp only [Node.exec]
    exact (Metered.begin line .print).bind fun _ =>
      (Uncounted.eval expr).metered.bind fun v => (Uncounted.print v).metered
  | .assign line target value => by
    simp only [Node.exec]
    exact (Metered.begin line .assign).bind fun _ =>
      (Uncounted.eval value).metered.bind fun v => (Uncounted.assign target v).metered
  | .loop line var range bodyLines body => by
    simp only [Node.exec]
    exact (Metered.begin line .loop).bind fun _ => (Uncounted.record _).metered.bind fun _ =>
      Metered.turns var (metered_execAll body) range.size range.start
  | .branch line cond thenBody _ elseBody => by
    simp only [Node.exec]
    refine (Metered.begin line .branch).bind fun _ => (Metered.condition cond).bind fun holds => ?_
    cases holds with
    | false => exact metered_execAll elseBody
    | true => exact metered_execAll thenBody
  | .unrecognized line text => by
    simp only [Node.exec]
    exact (Metered.begin line .unrecognized).bind fun _ => (Uncounted.throw _).metered

theorem metered_execAll :
    ∀ ns : List Node, Metered fun limit => (Node.execAll limit ns : Run ν Unit)
  | [] => by
    simp only [Node.execAll]
    exact (Uncounted.pure ()).metered
  | n :: ns => by
    simp only [Node.execAll]
    exact (metered_exec n).bind fun _ => metered_execAll ns

end

/-! ### The counter -/

section Counter

variable {limit : Nat} {c c' : Moment ν} {l : Line} {m m' : Machine ν} {d : Demand}

omit [NumberSystem ν] in
theorem steps_lt_of_not_atLimit (h : ¬ m.AtLimit (some limit)) : m.steps < limit := by
  by_contra hn
  exact h ⟨limit, rfl, by omega⟩

theorem steps_of_performed (h : l.Performed m d m')
    (hl : l.statement = .ok .skip ∨ ¬ m.AtLimit (some limit)) (hle : m.steps ≤ limit) :
    m'.steps ≤ limit := by
  have hlt : ∀ s, l.statement = .ok s → s ≠ .skip → m.steps < limit := by
    intro s hs hne
    rcases hl with hskip | hl
    · rw [hs] at hskip
      exact absurd (Except.ok.inj hskip) hne
    · exact steps_lt_of_not_atLimit hl
  cases h with
  | skip _ => exact hle
  | print hs _ | assign hs _ | loop hs | branch hs _ _ => exact hlt _ hs (by simp)

theorem steps_of_change (h : c.Change (some limit) c') (hc : c.machine.steps ≤ limit) :
    c'.machine.steps ≤ limit := by
  cases h with
  | leave | finish => exact hc
  | line hp hl =>
    rw [steps_announced]
    exact steps_of_performed hp hl hc
  | turn hl => exact steps_lt_of_not_atLimit hl

/-- **At every moment of a run the counter is within the limit.** -/
theorem steps_le_of_run {source : Text} (h : c.OfRun (some limit) source) :
    c.machine.steps ≤ limit :=
  Moment.of_reaches (P := fun c => c.machine.steps ≤ limit) (fun _ _ => steps_of_change) h
    (Nat.zero_le limit)

theorem steps_of_stops {e : RunError} (h : c.Stops (some limit) e m') :
    m'.steps ≤ c.machine.steps + 1 := by
  rcases Moment.stopped_of_stops h with ⟨hf⟩ | ⟨-, -⟩
  · cases hf with
    | header _ => exact Nat.le_succ _
    | stepLimit _ _ _ _ | unsupported _ _ | print _ _ _ | assign _ _ _ | lhs _ _ _
    | rhs _ _ _ _ => exact le_rfl
  · exact le_rfl

end Counter

/-! ### Whole runs -/

section Outcome

variable {source : Text} {limit : Nat}

omit [NumberSystem ν] in
theorem result_ofResult (start start' : Event) (r : EStateM.Result RunError (Machine ν) Unit) :
    (Outcome.ofResult start r).result = (Outcome.ofResult start' r).result := by
  cases r <;> rfl

omit [NumberSystem ν] in
/-- The log of a run: its beginning, the entries made on the way, and its end. -/
theorem log_ofResult (r : EStateM.Result RunError (Machine ν) Unit) :
    ∃ ok, ∀ start, (Outcome.ofResult start r).log = start :: ((endState r).log.reverse ++
      [.finished (endState r).steps (endState r).scope.globals.size ok]) := by
  rcases r with ⟨u, m⟩ | ⟨e, m⟩
  · exact ⟨true, fun _ => congrArg _ List.reverse_cons⟩
  · exact ⟨false, fun _ => congrArg _ List.reverse_cons⟩

/-- The unlimited run of a source, before it is made an outcome. -/
def unlimited (ν : Type) [NumberSystem ν] (source : Text) :
    EStateM.Result RunError (Machine ν) Unit :=
  (runLines none (Line.ofSource source) : Run ν Unit) .initial

theorem execute_of_unlimited {m : Machine ν} (h : unlimited ν source = .ok () m) :
    execute ν source none = .ofResult (.started (Line.ofSource source).length none) (.ok () m) := by
  rw [execute_eq, ← h]
  rfl

theorem execute_of_within (h : (endState (unlimited ν source)).steps ≤ limit) :
    execute ν source (some limit) =
      .ofResult (.started (Line.ofSource source).length (some limit)) (unlimited ν source) := by
  rw [execute_eq]
  exact congrArg _ ((metered_execAll _).within limit .initial h)

theorem runLines_of_beyond (h : limit < (endState (unlimited ν source)).steps) :
    ∃ m : Machine ν,
      runLines (some limit) (Line.ofSource source) .initial = .error (.stepLimit limit) m ∧
      m.steps = limit + 1 ∧ m.log <:+ (endState (unlimited ν source)).log :=
  (metered_execAll _).beyond limit .initial (Nat.zero_le limit) h

theorem result_of_within (h : (endState (unlimited ν source)).steps ≤ limit) :
    (execute ν source (some limit)).result = (execute ν source none).result := by
  rw [execute_of_within h]
  exact result_ofResult _ _ _

theorem result_of_beyond (h : limit < (endState (unlimited ν source)).steps) :
    (execute ν source (some limit)).result = .error (.stepLimit limit) := by
  obtain ⟨m, hm, -⟩ := runLines_of_beyond h
  rw [execute_eq, hm]
  rfl

/-- **The steps of a run without a limit** are the statements of its log and the loop turns that begin
before its end. -/
theorem steps_of_unlimited {n : Nat}
    (h : (Moment.start (Line.ofSource source) .initial : Moment ν).EndsAfter none n) :
    (endState (unlimited ν source)).steps =
      total Event.statements (endState (unlimited ν source)).log + n := by
  rcases hr : unlimited ν source with ⟨u, m⟩ | ⟨e, m⟩
  · exact (balanced_of_ok h hr).steps
  · have hsteps := steps_of_error h hr
    rwa [excess_of_unlimited hr] at hsteps

/-- **The log of a run that a limit ends.** The step beyond the limit is counted before anything else is
done, so the statements in the log and the turns begun are as many as the limit. -/
theorem exists_log_of_beyond (h : limit < (endState (unlimited ν source)).steps) :
    ∃ E turns globals, E <+: (endState (unlimited ν source)).log.reverse ∧
      (execute ν source (some limit)).log =
        .started (Line.ofSource source).length (some limit) ::
          (E ++ [.finished (limit + 1) globals false]) ∧
      (∀ n, (Moment.start (Line.ofSource source) .initial : Moment ν).EndsAfter (some limit) n ↔
        n = turns) ∧
      limit = total Event.statements E + turns := by
  obtain ⟨m, hm, hsteps, hsuffix⟩ := runLines_of_beyond h
  obtain ⟨turns, hturns⟩ := exists_endsAfter_iff (ν := ν) (some limit) (Line.ofSource source)
  have hcount : m.steps = total Event.statements m.log + turns + 1 :=
    steps_of_error ((hturns turns).mpr rfl) hm
  refine ⟨m.log.reverse, turns, m.scope.globals.size, List.reverse_prefix.mpr hsuffix, ?_, hturns,
    ?_⟩
  · rw [execute_eq, hm, ← hsteps]
    exact congrArg _ List.reverse_cons
  · rw [total_reverse]
    omega

end Outcome

/-- **The exact meaning of a step limit.** Let the run without a limit take `N` steps and make the
entries `E` between the first and the last one of its log: the steps are the statements in `E` and the
loop turns that begin before the end of the run. A limit of at least `N` changes neither the result
nor the steps nor these entries. A limit below `N` ends the run with the error that says so, at the
step just beyond the limit, and the entries made by then begin `E`; the statements in them and the
turns begun by then are as many as the limit. With a limit below the greatest 64-bit word the counter
fits a 64-bit word at every moment. Raising a limit that was not hit changes no result. -/
theorem step_limit_exact (ν : Type) [NumberSystem ν] (source : Text) :
    ∃ lines N turns globals ok E,
      (execute ν source none).log = .started lines none :: (E ++ [.finished N globals ok]) ∧
      (∀ n, (Moment.start (Line.ofSource source) .initial : Moment ν).EndsAfter none n ↔
        n = turns) ∧
      N = total Event.statements E + turns ∧
      ∀ limit,
        (N ≤ limit → (execute ν source (some limit)).result = (execute ν source none).result ∧
          (execute ν source (some limit)).log =
            .started lines (some limit) :: (E ++ [.finished N globals ok])) ∧
        (limit < N → (execute ν source (some limit)).result = .error (.stepLimit limit) ∧
          ∃ E' turns' globals', E' <+: E ∧ (execute ν source (some limit)).log =
              .started lines (some limit) :: (E' ++ [.finished (limit + 1) globals' false]) ∧
            (∀ n, (Moment.start (Line.ofSource source) .initial : Moment ν).EndsAfter (some limit) n
              ↔ n = turns') ∧
            limit = total Event.statements E' + turns') ∧
        (limit < UInt64.size - 1 → ∀ c : Moment ν, c.OfRun (some limit) source →
          c.machine.steps < UInt64.size ∧
          ∀ e m, c.Stops (some limit) e m → m.steps < UInt64.size) ∧
        ((execute ν source (some limit)).result ≠ .error (.stepLimit limit) →
          (execute ν source none).result = (execute ν source (some limit)).result ∧
          ∀ limit', limit ≤ limit' →
            (execute ν source (some limit')).result = (execute ν source (some limit)).result) := by
  obtain ⟨ok, hlog⟩ := log_ofResult (unlimited ν source)
  obtain ⟨turns, hturns⟩ := exists_endsAfter_iff (ν := ν) none (Line.ofSource source)
  refine ⟨_, _, turns, _, ok, _, hlog _, hturns, ?_, fun limit => ⟨fun h => ⟨result_of_within h, ?_⟩,
    fun h => ⟨result_of_beyond h, exists_log_of_beyond h⟩, fun h c hc => ?_, fun h => ?_⟩⟩
  · rw [total_reverse]
    exact steps_of_unlimited ((hturns turns).mpr rfl)
  · rw [execute_of_within h, hlog]
  · have hle := steps_le_of_run hc
    refine ⟨by omega, fun e m hs => ?_⟩
    have := steps_of_stops hs
    omega
  · have hN : (endState (unlimited ν source)).steps ≤ limit := by
      by_contra hlt
      exact h (result_of_beyond (Nat.not_le.mp hlt))
    refine ⟨(result_of_within hN).symm, fun limit' hle => ?_⟩
    rw [result_of_within hN, result_of_within (hN.trans hle)]

end LessonScript
