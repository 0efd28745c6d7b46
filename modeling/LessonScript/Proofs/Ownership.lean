import LessonScript.Proofs.Moment

/-! # Who owns a name

A run of lines begins under a block of names. The turns of its loops run under larger blocks, each
made from the one that the loop saved, so at every moment the saved blocks are nested: the one that a
loop saved owns the names that the run began with and the variables of the loops around it
(`namesAt`, `Saved`). A value goes to the globals only if the block in force does not own its name.

Main statement: `scope_discipline`. -/

namespace LessonScript

variable {ν : Type}

/-! ### Bindings and scopes -/

namespace Bindings

variable {α : Type}

theorem eq_empty_of_contains {b : Bindings α} (h : ∀ name, b.contains name = false) :
    b = .empty := by
  obtain ⟨es, hn⟩ := b
  rcases es with _ | ⟨⟨key, a⟩, es⟩
  · rfl
  · have hk := h key
    unfold contains get? at hk
    rw [lookup_cons_ite, if_pos rfl] at hk
    cases hk

theorem get?_insert_of_ne (b : Bindings α) {name other : Text} (h : other ≠ name) (a : α) :
    (b.insert name a).get? other = b.get? other := by
  rw [get?_insert, if_neg h]

theorem contains_insert_of_contains {b : Bindings α} {other : Text} (name : Text) (a : α)
    (h : b.contains other = true) : (b.insert name a).contains other = true := by
  rw [contains_insert, h, Bool.or_true]

end Bindings

/-- The globals after a write: what they were, or with a name bound that the block does not own. -/
theorem Scope.globals_write (s : Scope ν) (name : Text) (v : Value ν) :
    (s.write name v).globals = s.globals ∨
      s.block.contains name = false ∧ (s.write name v).globals = s.globals.insert name v := by
  unfold write
  split
  · exact .inl rfl
  · next h => exact .inr ⟨by simpa using h, rfl⟩

/-! ### The block that a run began with -/

/-- The block that the outermost loop of the tasks saved. -/
def savedBlock? : List (Task ν) → Option (Bindings (Value ν))
  | [] => none
  | .lines _ :: ts => savedBlock? ts
  | .turns _ _ _ _ block :: ts => (savedBlock? ts).or (some block)

/-- The block of names that a run of lines began with, as it is at a moment: in a loop it is the one
that the outermost loop saved, and otherwise it is in force. The blocks of a branch share it. -/
def Moment.ownBlock (c : Moment ν) : Bindings (Value ν) :=
  (savedBlock? c.tasks).getD c.machine.scope.block

/-! ### Nested blocks -/

/-- The names of the block under which the first of the tasks runs; the last one runs under a block
with the names `base`. -/
def namesAt (base : Text → Bool) : List (Task ν) → Text → Bool
  | [], name => base name
  | .lines _ :: ts, name => namesAt base ts name
  | .turns var _ _ _ _ :: ts, name => decide (name = var) || namesAt base ts name

/-- Every loop saved a block with the names under which it runs. -/
def Saved (base : Text → Bool) : List (Task ν) → Prop
  | [] => True
  | .lines _ :: ts => Saved base ts
  | .turns _ _ _ _ block :: ts =>
    (∀ name, block.contains name = namesAt base ts name) ∧ Saved base ts

/-- A loop is between two of its turns, or before the first one or after the last one. -/
def BetweenTurns : List (Task ν) → Prop
  | .turns .. :: _ => True
  | _ => False

/-- The blocks of a moment are nested. Between two turns the block in force does not count: it is
the one of the last turn, about to be given up. -/
structure Moment.Nested (base : Text → Bool) (c : Moment ν) : Prop where
  saved : Saved base c.tasks
  inForce : ¬ BetweenTurns c.tasks →
    ∀ name, c.machine.scope.block.contains name = namesAt base c.tasks name

section Names

variable {base : Text → Bool} {ts : List (Task ν)} {block : Bindings (Value ν)} {name : Text}

theorem namesAt_of_base (h : base name = true) (ts : List (Task ν)) :
    namesAt base ts name = true := by
  induction ts with
  | nil => exact h
  | cons t ts ih =>
    cases t with
    | lines rest => exact ih
    | turns var i n body block => rw [namesAt, ih, Bool.or_true]

theorem namesAt_of_turns (pre ts : List (Task ν)) (var : Text) (i : Int) (n : Nat)
    (body : List Line) (block : Bindings (Value ν)) :
    namesAt base (pre ++ .turns var i n body block :: ts) var = true := by
  induction pre with
  | nil => simp [namesAt]
  | cons t pre ih =>
    cases t with
    | lines rest => exact ih
    | turns var' i' n' body' block' => rw [List.cons_append, namesAt, ih, Bool.or_true]

theorem namesAt_of_savedBlock?_none (h : savedBlock? ts = none) :
    namesAt base ts name = base name := by
  induction ts with
  | nil => rfl
  | cons t ts ih =>
    cases t with
    | lines rest => exact ih h
    | turns var i n body b =>
      rw [savedBlock?, Option.or_eq_none_iff] at h
      cases h.2

/-- The block that the outermost loop saved has the names that the run began with. -/
theorem contains_of_savedBlock? (hs : Saved base ts) (h : savedBlock? ts = some block) :
    block.contains name = base name := by
  induction ts with
  | nil => cases h
  | cons t ts ih =>
    cases t with
    | lines rest => exact ih hs h
    | turns var i n body b =>
      rw [savedBlock?, Option.or_eq_some_iff] at h
      rcases h with h | ⟨hn, hb⟩
      · exact ih hs.2 h
      · obtain rfl := Option.some.inj hb
        rw [hs.1 name, namesAt_of_savedBlock?_none hn]

theorem savedBlock?_of_betweenTurns (h : BetweenTurns ts) : savedBlock? ts ≠ none := by
  rcases ts with _ | ⟨_ | _, ts⟩
  · exact h.elim
  · exact h.elim
  · rw [savedBlock?, Ne, Option.or_eq_none_iff]
    exact fun hn => nomatch hn.2

/-- The block that a run began with owns the same names at every moment with nested blocks. -/
theorem contains_ownBlock {c : Moment ν} (h : c.Nested base) :
    c.ownBlock.contains name = base name := by
  unfold Moment.ownBlock
  rcases hb : savedBlock? c.tasks with _ | block
  · have hbetween : ¬ BetweenTurns c.tasks := fun hn => savedBlock?_of_betweenTurns hn hb
    rw [Option.getD_none, h.inForce hbetween, namesAt_of_savedBlock?_none hb]
  · rw [Option.getD_some, contains_of_savedBlock? h.saved hb]

end Names

/-! ### What a change does to the names -/

variable [NumberSystem ν]

section Change

variable {limit : Option Nat} {base : Text → Bool} {c c' : Moment ν} {l : Line} {ls : List Line}
  {m m' : Machine ν} {d : Demand} {ts : List (Task ν)}

/-- The part of a line does nothing to the scope but write a value to a name. -/
theorem scope_of_performed (h : l.Performed m d m') :
    m'.scope = m.scope ∨ ∃ name v, m'.scope = m.scope.write name v := by
  cases h with
  | skip _ | print _ _ | loop _ | branch _ _ _ => exact .inl rfl
  | assign _ _ => exact .inr ⟨_, _, rfl⟩

theorem contains_of_performed (h : l.Performed m d m') (name : Text) :
    m'.scope.block.contains name = m.scope.block.contains name := by
  rcases scope_of_performed h with hs | ⟨other, v, hs⟩
  · rw [hs]
  · rw [hs, Scope.contains_block_write]

/-- What a line demands runs under the names of the line. -/
theorem nested_line (h : Moment.Nested base ⟨.lines (l :: ls) :: ts, m⟩)
    (hp : l.Performed m d m') :
    Moment.Nested base
      ⟨l.tasks ls m'.scope.block d ++ .lines (l.after ls) :: ts, l.announced ls m' d⟩ := by
  have hnames : ∀ name,
      (l.announced ls m' d).scope.block.contains name = namesAt base ts name := by
    intro name
    rw [scope_announced, contains_of_performed hp]
    exact h.inForce (fun hn => hn) name
  have hsaved : Saved base ts := h.saved
  rcases d with _ | ⟨var, range⟩ | _ | _
  · exact ⟨hsaved, fun _ => hnames⟩
  · exact ⟨⟨hnames, hsaved⟩, fun hn => absurd trivial hn⟩
  · exact ⟨hsaved, fun _ => hnames⟩
  · exact ⟨hsaved, fun _ => hnames⟩

/-- **The blocks stay nested.** A turn adds the variable of its loop to the saved block, and the end
of a loop gives the saved block back. -/
theorem nested_of_change (h : c.Change limit c') (hc : c.Nested base) : c'.Nested base := by
  cases h with
  | leave => exact ⟨hc.saved, fun _ => hc.inForce fun hn => hn⟩
  | line hp _ => exact nested_line hc hp
  | finish => exact ⟨hc.saved.2, fun _ => hc.saved.1⟩
  -- The turn runs under the saved block, whatever block the turn before left.
  | turn _ =>
    refine ⟨hc.saved, fun _ name => ?_⟩
    have hsaved := hc.saved.1 name
    simp only [Machine.turned_scope_block, Bindings.contains_insert, hsaved, namesAt]

/-- **What a change does to the globals**: nothing, or it binds a name that no block owns. -/
theorem globals_of_change (h : c.Change limit c') (hc : c.Nested base) :
    c'.machine.scope.globals = c.machine.scope.globals ∨
      ∃ name v, namesAt base c.tasks name = false ∧
        c'.machine.scope.globals = c.machine.scope.globals.insert name v := by
  cases h with
  | leave | finish | turn _ => exact .inl rfl
  | line hp _ =>
    rw [scope_announced]
    rcases scope_of_performed hp with hs | ⟨name, v, hs⟩
    · exact .inl (congrArg Scope.globals hs)
    rcases Scope.globals_write _ name v with hw | ⟨hn, hw⟩
    · exact .inl ((congrArg Scope.globals hs).trans hw)
    · refine .inr ⟨name, v, ?_, (congrArg Scope.globals hs).trans hw⟩
      rw [← hc.inForce (fun hn => hn) name, hn]

theorem get?_globals_of_change {name : Text} (h : c.Change limit c') (hc : c.Nested base)
    (hname : namesAt base c.tasks name = true) :
    c'.machine.scope.globals.get? name = c.machine.scope.globals.get? name := by
  rcases globals_of_change h hc with hg | ⟨other, v, ho, hg⟩
  · rw [hg]
  · rw [hg, Bindings.get?_insert_of_ne]
    rintro rfl
    rw [ho] at hname
    cases hname

theorem contains_globals_of_change {name : Text} (h : c.Change limit c') (hc : c.Nested base)
    (hname : c.machine.scope.globals.contains name = true) :
    c'.machine.scope.globals.contains name = true := by
  rcases globals_of_change h hc with hg | ⟨other, v, -, hg⟩
  · rw [hg, hname]
  · rw [hg, Bindings.contains_insert_of_contains other v hname]

theorem globals_of_stops {e : RunError} (h : c.Stops limit e m') :
    m'.scope.globals = c.machine.scope.globals := by
  rcases Moment.stopped_of_stops h with ⟨hf⟩ | ⟨-, -⟩
  · cases hf <;> rfl
  · rfl

end Change

/-! ### Runs -/

section Runs

variable {limit : Option Nat} {c c' : Moment ν} {ls : List Line} {m m' : Machine ν}

theorem nested_of_reaches {base : Text → Bool} (h : c.Reaches limit c') (hc : c.Nested base) :
    c'.Nested base := Moment.of_reaches (fun _ _ => nested_of_change) h hc

/-- **At every moment of a run of lines the blocks are nested.** -/
theorem nested_of_run (h : (Moment.start ls m).Reaches limit c) :
    c.Nested m.scope.block.contains :=
  nested_of_reaches h ⟨trivial, fun _ _ => rfl⟩

theorem get?_globals_of_reaches {base : Text → Bool} {name : Text} (hname : base name = true)
    (h : c.Reaches limit c') (hc : c.Nested base) :
    c'.machine.scope.globals.get? name = c.machine.scope.globals.get? name := by
  induction h with
  | refl => rfl
  | tail hr hn ih =>
    rw [← ih]
    exact get?_globals_of_change (Moment.change_of_next hn) (nested_of_reaches hr hc)
      (namesAt_of_base hname _)

theorem contains_globals_of_reaches {base : Text → Bool} {name : Text} (h : c.Reaches limit c')
    (hc : c.Nested base) (hname : c.machine.scope.globals.contains name = true) :
    c'.machine.scope.globals.contains name = true := by
  induction h with
  | refl => exact hname
  | tail hr hn ih =>
    exact contains_globals_of_change (Moment.change_of_next hn) (nested_of_reaches hr hc) ih

/-- The turns of a loop give back the block of names, whatever the body does. -/
theorem block_of_turns {var : Text} {body : Run ν Unit} {n : Nat} {i : Int}
    (h : Run.turns limit var body i n m = .ok () m') : m'.scope.block = m.scope.block := by
  induction n generalizing i m with
  | zero =>
    cases h
    rfl
  | succ n ih =>
    rw [Run.turns_succ] at h
    by_cases hl : m.AtLimit limit
    · obtain ⟨k, hk, hlt⟩ := hl
      rw [Run.bind_of_error (Run.step_of_atLimit hk hlt)] at h
      cases h
    rw [Run.bind_of_ok (Run.step_of_not_atLimit hl)] at h
    rcases hb : body (m.stepped.turned m.stepped.scope.block var i) with ⟨u, m₁⟩ | ⟨e, m₁⟩
    · rw [Run.bind_of_ok (Run.turn_of_ok hb)] at h
      have hrest := ih h
      exact hrest
    · rw [Run.bind_of_error (Run.turn_of_error hb)] at h
      cases h

/-- **A loop that is completed leaves the block of names as it was.** -/
theorem block_of_loop {line k : Nat} {var : Text} {range : Range} {body : List Node}
    (h : Node.exec limit (.loop line var range k body) m = .ok () m') :
    m'.scope.block = m.scope.block := by
  rw [Node.exec] at h
  by_cases hl : m.AtLimit limit
  · obtain ⟨n, hn, hlt⟩ := hl
    rw [Run.bind_of_error (Run.begin_of_atLimit hn hlt line .loop)] at h
    cases h
  · rw [Run.bind_of_ok (Run.begin_of_not_atLimit hl line .loop)] at h
    have ht : Run.turns limit var (Node.execAll limit body) range.start range.size
        ((m.begun line .loop).noted (.looped var range.size k)) = .ok () m' := h
    have hblock := block_of_turns ht
    exact hblock

end Runs

/-- **Scope discipline.** At every moment of a run of lines, from any block of names and any globals:
the block that the run began with owns the names that it owned at first; the globals lose no name;
what the globals bind to a name that the block owns is what they bound to it at first; and while a
loop is at work, nothing is done to its variable in the globals. An error leaves the globals as they
are. A completed loop leaves the block of names as it was. The block of a whole program is empty at
every moment. -/
theorem scope_discipline (ν : Type) [NumberSystem ν] (limit : Option Nat) :
    (∀ ls (m : Machine ν) c, (Moment.start ls m).Reaches limit c →
      (∀ name, c.ownBlock.contains name = m.scope.block.contains name) ∧
      (∀ c' name, c.Reaches limit c' → c.machine.scope.globals.contains name = true →
        c'.machine.scope.globals.contains name = true) ∧
      (∀ name, m.scope.block.contains name = true →
        c.machine.scope.globals.get? name = m.scope.globals.get? name) ∧
      (∀ c' pre var i n body block ts, c.tasks = pre ++ .turns var i n body block :: ts →
        c.Next limit c' →
        c'.machine.scope.globals.get? var = c.machine.scope.globals.get? var) ∧
      (∀ e m', c.Stops limit e m' → m'.scope.globals = c.machine.scope.globals)) ∧
    (∀ line var range k body (m m' : Machine ν),
      Node.exec limit (.loop line var range k body) m = .ok () m' →
      m'.scope.block = m.scope.block) ∧
    (∀ source (c : Moment ν), c.OfRun limit source → c.ownBlock = .empty) := by
  refine ⟨fun ls m c h => ?_, fun _ _ _ _ _ _ _ => block_of_loop, fun source c h => ?_⟩
  · have hc := nested_of_run h
    refine ⟨fun name => contains_ownBlock hc,
      fun c' name hr => contains_globals_of_reaches hr hc, fun name hname => ?_, ?_,
      fun e m' => globals_of_stops⟩
    · exact get?_globals_of_reaches hname h ⟨trivial, fun _ _ => rfl⟩
    · intro c' pre var i n body block ts hts hn
      refine get?_globals_of_change (Moment.change_of_next hn) hc ?_
      rw [hts]
      exact namesAt_of_turns pre ts var i n body block
  · refine Bindings.eq_empty_of_contains fun name => ?_
    rw [contains_ownBlock (nested_of_run h)]
    rfl

end LessonScript
