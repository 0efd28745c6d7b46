import LessonScript.Proofs.Moment
import LessonScript.Proofs.Padding

/-! # Blocks that are never entered

What stands in a block does not matter to a run that never enters the block: a loop may make no turn,
a branch may always go the other way, or the run may not come to the header at all. The lines of such
a block can be replaced by any others that are blank or deeper than the header, whatever they say.

`Moment.opened?` is the header whose block is entered at a moment. `Rebodied` relates a program to one
with other lines below a header; blocks of related programs are related
(`Rebodied.takeWhile_isInside`, `Rebodied.dropWhile_isInside`, `Rebodied.elseHalf`), the block of
that header apart. So two runs go side by side
(`keepsPace_advance`) as long as that block is not entered.

Main statement: `execute_replaceBlock`. -/

namespace LessonScript

variable {ν : Type}

/-! ### Entering blocks -/

namespace Line

/-- The line is the header of a block: a loop, a branch, or an `else:`. -/
def headsBlock (l : Line) : Bool :=
  match l.statement with
  | .ok (.loop _ _) => true
  | .ok (.branch _) => true
  | _ => l.isElse

theorem statement_of_headsBlock {l : Line} (h : l.headsBlock = true) :
    (∃ var range, l.statement = .ok (.loop var range)) ∨
      (∃ cond, l.statement = .ok (.branch cond)) ∨ l.isElse = true := by
  unfold headsBlock at h
  split at h
  · next var range hs => exact .inl ⟨var, range, hs⟩
  · next cond hs => exact .inr (.inl ⟨cond, hs⟩)
  · exact .inr (.inr h)

theorem isBlank_of_headsBlock {l : Line} (h : l.headsBlock = true) : l.isBlank = false := by
  rcases statement_of_headsBlock h with ⟨var, range, hs⟩ | ⟨cond, hs⟩ | he
  · exact isBlank_of_statement hs (by simp)
  · exact isBlank_of_statement hs (by simp)
  · exact isBlank_of_isElse he

end Line

namespace Machine

instance (m : Machine ν) (limit : Option Nat) : Decidable (m.AtLimit limit) :=
  decidable_of_iff (limit.any fun n => n < m.steps + 1) <| by
    rcases limit with _ | n <;> simp [AtLimit]

theorem atLimit_of_world {m m' : Machine ν} {limit : Option Nat} (h : m.world = m'.world) :
    m.AtLimit limit ↔ m'.AtLimit limit := atLimit_of_steps (congrArg World.steps h)

end Machine

/-- The number of the header whose block is entered when a line has done its own part and left a
state: that of a loop with a turn to make, if the turn is no step too many, or that of the half of
a branch that is taken. -/
def Line.opened? (limit : Option Nat) (l : Line) (ls : List Line) (m : Machine ν) :
    Demand → Option Nat
  | .nothing => none
  | .loop _ range => if 0 < range.size ∧ ¬ m.AtLimit limit then some l.number else none
  | .branch true => some l.number
  | .branch false => (l.elseLine? ls).map Line.number

variable [NumberSystem ν]

/-- **The number of the header whose block is entered at a moment.** -/
def Moment.opened? (limit : Option Nat) (c : Moment ν) : Option Nat :=
  match c.tasks with
  | .lines (l :: ls) :: _ =>
    match l.perform limit c.machine with
    | .ok d m => l.opened? limit ls m d
    | .error _ _ => none
  | _ => none

/-! ### Programs with another block -/

/-- **A program and the same program with other lines below the header of a number**, all of them
blank or deeper than the header. The other numbers of the lines do not matter. -/
inductive Rebodied (k : Nat) : List Line → List Line → Prop
  | nil : Rebodied k [] []
  | same (n n' : Nat) (t : Text) {ls ls' : List Line} : Rebodied k ls ls' →
      Rebodied k (⟨n, t⟩ :: ls) (⟨n', t⟩ :: ls')
  | header (n' : Nat) (t : Text) {bs bs' ls ls' : List Line} :
      Line.headsBlock ⟨k, t⟩ = true → (∀ b ∈ bs, b.isInside (Line.indent ⟨k, t⟩) = true) →
      (∀ b ∈ bs', b.isInside (Line.indent ⟨k, t⟩) = true) → Rebodied k ls ls' →
      Rebodied k (⟨k, t⟩ :: (bs ++ ls)) (⟨n', t⟩ :: (bs' ++ ls'))

namespace Rebodied

variable {k : Nat} {ls ls' : List Line}

/-- Whatever stands below a header belongs to every block that the header belongs to. -/
theorem inside_of_header {l : Line} {bs : List Line} {p : Nat} (hl : l.isBlank = false)
    (hbs : ∀ b ∈ bs, b.isInside l.indent = true) (hin : l.isInside p = true) :
    ∀ b ∈ bs, b.isInside p = true :=
  fun b hb => Line.isInside_of_le (Line.lt_indent_of_isInside hin hl).le (hbs b hb)

theorem takeWhile_isInside (h : Rebodied k ls ls') (p : Nat) :
    Rebodied k (ls.takeWhile (Line.isInside p)) (ls'.takeWhile (Line.isInside p)) := by
  induction h with
  | nil => exact nil
  | @same n n' t ls ls' h ih =>
    by_cases hin : (⟨n, t⟩ : Line).isInside p = true
    · have hin' : (⟨n', t⟩ : Line).isInside p = true := hin
      rw [List.takeWhile_cons_of_pos hin, List.takeWhile_cons_of_pos hin']
      exact same n n' t ih
    · have hin' : ¬ (⟨n', t⟩ : Line).isInside p = true := hin
      rw [List.takeWhile_cons_of_neg hin, List.takeWhile_cons_of_neg hin']
      exact nil
  | @header n' t bs bs' ls ls' hh hbs hbs' h ih =>
    by_cases hin : (⟨k, t⟩ : Line).isInside p = true
    · have hin' : (⟨n', t⟩ : Line).isInside p = true := hin
      have hblank := Line.isBlank_of_headsBlock hh
      rw [List.takeWhile_cons_of_pos hin, List.takeWhile_cons_of_pos hin',
        List.takeWhile_append_of_pos (inside_of_header hblank hbs hin),
        List.takeWhile_append_of_pos (inside_of_header hblank hbs' hin)]
      exact header n' t hh hbs hbs' ih
    · have hin' : ¬ (⟨n', t⟩ : Line).isInside p = true := hin
      rw [List.takeWhile_cons_of_neg hin, List.takeWhile_cons_of_neg hin']
      exact nil

theorem dropWhile_isInside (h : Rebodied k ls ls') (p : Nat) :
    Rebodied k (ls.dropWhile (Line.isInside p)) (ls'.dropWhile (Line.isInside p)) := by
  induction h with
  | nil => exact nil
  | @same n n' t ls ls' h ih =>
    by_cases hin : (⟨n, t⟩ : Line).isInside p = true
    · have hin' : (⟨n', t⟩ : Line).isInside p = true := hin
      rw [List.dropWhile_cons_of_pos hin, List.dropWhile_cons_of_pos hin']
      exact ih
    · have hin' : ¬ (⟨n', t⟩ : Line).isInside p = true := hin
      rw [List.dropWhile_cons_of_neg hin, List.dropWhile_cons_of_neg hin']
      exact same n n' t h
  | @header n' t bs bs' ls ls' hh hbs hbs' h ih =>
    by_cases hin : (⟨k, t⟩ : Line).isInside p = true
    · have hin' : (⟨n', t⟩ : Line).isInside p = true := hin
      have hblank := Line.isBlank_of_headsBlock hh
      rw [List.dropWhile_cons_of_pos hin, List.dropWhile_cons_of_pos hin',
        List.dropWhile_append_of_pos (inside_of_header hblank hbs hin),
        List.dropWhile_append_of_pos (inside_of_header hblank hbs' hin)]
      exact ih
    · have hin' : ¬ (⟨n', t⟩ : Line).isInside p = true := hin
      rw [List.dropWhile_cons_of_neg hin, List.dropWhile_cons_of_neg hin']
      exact header n' t hh hbs hbs' h

theorem past_header {l : Line} {bs : List Line} (hbs : ∀ b ∈ bs, b.isInside l.indent = true)
    (ls : List Line) : l.past (bs ++ ls) = l.past ls := List.dropWhile_append_of_pos hbs

/-- What is left of two programs after a block: it has an `else:` in both or in neither. The blocks of
the `else:` are related unless it is the header itself. -/
theorem elseHalf (l l' : Line) (hindent : l.indent = l'.indent)
    (h : Rebodied k (l.past ls) (l'.past ls')) :
    ((l.elseLine? ls).map Line.number = some k ∨
        Rebodied k (l.elseBlock ls) (l'.elseBlock ls')) ∧
      Rebodied k (l.pastElse ls) (l'.pastElse ls') := by
  have hnone := fun hn hn' => (Line.related_of_no_else nil h hn hn').imp_left
    (Or.inr (a := (l.elseLine? ls).map Line.number = some k))
  generalize hq : l.past ls = qs at h
  generalize hq' : l'.past ls' = qs' at h
  cases h with
  | nil => exact hnone (Line.elseLine?_of_nil hq) (Line.elseLine?_of_nil hq')
  | same n n' t hrest =>
    by_cases he : (⟨n, t⟩ : Line).isElseAt l.indent = true
    · have he' : (⟨n', t⟩ : Line).isElseAt l'.indent = true := hindent ▸ he
      rw [Line.elseBlock_of_pos hq he, Line.elseBlock_of_pos hq' he', Line.pastElse_of_pos hq he,
        Line.pastElse_of_pos hq' he', Line.block, Line.block, Line.past, Line.past, ← hindent]
      exact ⟨.inr (hrest.takeWhile_isInside _), hrest.dropWhile_isInside _⟩
    · exact hnone (Line.elseLine?_of_neg hq he) (Line.elseLine?_of_neg hq' (hindent ▸ he))
  | @header n' t bs bs' qs qs' hh hbs hbs' hrest =>
    by_cases he : (⟨k, t⟩ : Line).isElseAt l.indent = true
    · have he' : (⟨n', t⟩ : Line).isElseAt l'.indent = true := hindent ▸ he
      have hl : (⟨k, t⟩ : Line).indent = l.indent := by
        rw [Line.isElseAt, Bool.and_eq_true, beq_iff_eq] at he
        exact he.2
      rw [hl] at hbs hbs'
      rw [Line.elseLine?_of_pos hq he, Line.pastElse_of_pos hq he, Line.pastElse_of_pos hq' he',
        past_header hbs, past_header (hindent ▸ hbs'), Line.past, Line.past, ← hindent]
      exact ⟨.inl rfl, hrest.dropWhile_isInside _⟩
    · exact hnone (Line.elseLine?_of_neg hq he) (Line.elseLine?_of_neg hq' (hindent ▸ he))

/-- What the first lines of two related programs make of the lines after them. -/
structure Heads (k : Nat) (l l' : Line) (ls ls' : List Line) : Prop where
  statement : l.statement = l'.statement
  /-- The blocks are related, unless this is the header. -/
  block : l.number = k ∨ Rebodied k (l.block ls) (l'.block ls')
  /-- The blocks of the `else:` are related, unless that is the header. -/
  elseBlock : (l.elseLine? ls).map Line.number = some k ∨
    Rebodied k (l.elseBlock ls) (l'.elseBlock ls')
  /-- So are the lines after both, if the run can go on there. -/
  after : (∀ text, l.statement ≠ .ok (.unrecognized text)) →
    Rebodied k (l.after ls) (l'.after ls')

theorem heads {l l' : Line} (h : Rebodied k (l :: ls) (l' :: ls')) : Heads k l l' ls ls' := by
  cases h with
  | same n n' t h =>
    have hhalf := elseHalf ⟨n, t⟩ ⟨n', t⟩ rfl (h.dropWhile_isInside _)
    exact ⟨rfl, .inr (h.takeWhile_isInside _), hhalf.1, fun _ =>
      Line.related_after rfl (h.dropWhile_isInside _) hhalf.2 h⟩
  | @header n' t bs bs' ls ls' hh hbs hbs' h =>
    have hpast : Rebodied k (Line.past ⟨k, t⟩ (bs ++ ls)) (Line.past ⟨n', t⟩ (bs' ++ ls')) := by
      have hbelow : Line.past ⟨n', t⟩ (bs' ++ ls') = Line.past ⟨n', t⟩ ls' := past_header hbs' ls'
      rw [past_header hbs, hbelow]
      exact h.dropWhile_isInside _
    have hhalf := elseHalf ⟨k, t⟩ ⟨n', t⟩ rfl hpast
    refine ⟨rfl, .inl rfl, hhalf.1, fun hs => ?_⟩
    have hstatement : (⟨k, t⟩ : Line).statement = (⟨n', t⟩ : Line).statement := rfl
    unfold Line.after
    rw [← hstatement]
    rcases Line.statement_of_headsBlock hh with ⟨var, range, hl⟩ | ⟨cond, hb⟩ | he
    · rw [hl]
      exact hpast
    · rw [hb]
      exact hhalf.2
    · exact absurd (Line.statement_of_isElse he) (hs _)

end Rebodied

/-! ### Two runs side by side -/

section Runs

variable {limit : Option Nat} {k : Nat}

/-- Tasks of two runs that are the same, but for the lines below the header. -/
inductive Task.Paired (k : Nat) : Task ν → Task ν → Prop
  | lines {ls ls' : List Line} : Rebodied k ls ls' → Paired k (.lines ls) (.lines ls')
  | turns (var : Text) (i : Int) (n : Nat) (block : Bindings (Value ν)) {body body' : List Line} :
      Rebodied k body body' → Paired k (.turns var i n body block) (.turns var i n body' block)

/-- **Moments of two runs that are the same**, but for the lines below the header and for the log. A
loop that makes no turn may have any block. -/
inductive Moment.Paired (limit : Option Nat) (k : Nat) : Moment ν → Moment ν → Prop
  | tasks {ts ts' : List (Task ν)} {m m' : Machine ν} : List.Forall₂ (Task.Paired k) ts ts' →
      m.world = m'.world → Paired limit k ⟨ts, m⟩ ⟨ts', m'⟩
  | idle (var : Text) (i : Int) {n : Nat} (body body' : List Line) (block : Bindings (Value ν))
      {ts ts' : List (Task ν)} {m m' : Machine ν} : n = 0 ∨ m.AtLimit limit →
      List.Forall₂ (Task.Paired k) ts ts' → m.world = m'.world →
      Paired limit k ⟨.turns var i n body block :: ts, m⟩ ⟨.turns var i n body' block :: ts', m'⟩

/-- What the next bit of two runs leaves is the same again. -/
inductive KeepsPace (limit : Option Nat) (k : Nat) :
    EStateM.Result RunError (Machine ν) (List (Task ν)) →
      EStateM.Result RunError (Machine ν) (List (Task ν)) → Prop
  | ok {ts ts' : List (Task ν)} {m m' : Machine ν} : Moment.Paired limit k ⟨ts, m⟩ ⟨ts', m'⟩ →
      KeepsPace limit k (.ok ts m) (.ok ts' m')
  | error {e : RunError} {m m' : Machine ν} : m.world = m'.world →
      KeepsPace limit k (.error e m) (.error e m')

/-- The tasks that a line demands go side by side, if the block of the header is not entered. -/
theorem paired_line {l l' : Line} {ls ls' : List Line} {ts ts' : List (Task ν)} {d : Demand}
    {m₀ m m' : Machine ν} (h : Rebodied.Heads k l l' ls ls') (hd : l.Performed m₀ d m)
    (hopen : l.opened? limit ls m d ≠ some k) (hts : List.Forall₂ (Task.Paired k) ts ts')
    (hw : m.world = m'.world) :
    Moment.Paired limit k
      ⟨l.tasks ls m.scope.block d ++ .lines (l.after ls) :: ts, l.announced ls m d⟩
      ⟨l'.tasks ls' m'.scope.block d ++ .lines (l'.after ls') :: ts', l'.announced ls' m' d⟩ := by
  have hafter := h.after fun text ht => by
    cases hd <;> simp_all
  have hrest := List.Forall₂.cons (Task.Paired.lines (ν := ν) hafter) hts
  have hblock : m.scope.block = m'.scope.block := congrArg (fun w => w.scope.block) hw
  cases d with
  | nothing => exact .tasks hrest hw
  | loop var range =>
    have hannounced : (l.announced ls m (.loop var range)).world =
        (l'.announced ls' m' (.loop var range)).world := hw
    rw [← hblock]
    rcases h.block with hk | hbody
    · have hidle : range.size = 0 ∨ (l.announced ls m (.loop var range)).AtLimit limit := by
        by_contra hno
        rw [not_or] at hno
        exact hopen (by rw [Line.opened?, if_pos ⟨Nat.pos_of_ne_zero hno.1, hno.2⟩, hk])
      exact .idle var range.start _ _ m.scope.block hidle hrest hannounced
    · exact .tasks (.cons (.turns var range.start range.size m.scope.block hbody) hrest) hannounced
  | branch holds =>
    cases holds with
    | true =>
      have hbody := h.block.resolve_left fun hk => hopen (congrArg some hk)
      exact .tasks (.cons (.lines hbody) hrest) hw
    | false =>
      have hbody := h.elseBlock.resolve_left hopen
      exact .tasks (.cons (.lines hbody) hrest) hw

omit [NumberSystem ν] in
theorem world_withBlock {m m' : Machine ν} (hw : m.world = m'.world)
    (block : Bindings (Value ν)) : (m.withBlock block).world = (m'.withBlock block).world :=
  congrArg (World.withBlock · block) hw

omit [NumberSystem ν] in
theorem world_stepped {m m' : Machine ν} (hw : m.world = m'.world) :
    m.stepped.world = m'.stepped.world := by
  obtain ⟨log, rfl⟩ := Machine.exists_log_of_world hw
  rfl

/-- A loop that makes no turn does the same with any block. -/
theorem keepsPace_idle {var : Text} {i : Int} {n : Nat} {body body' : List Line}
    {block : Bindings (Value ν)} {ts ts' : List (Task ν)} {m m' : Machine ν}
    (hidle : n = 0 ∨ m.AtLimit limit) (hts : List.Forall₂ (Task.Paired k) ts ts')
    (hw : m.world = m'.world) :
    KeepsPace limit k (advance limit (.turns var i n body block :: ts) m)
      (advance limit (.turns var i n body' block :: ts') m') := by
  have hblock := world_withBlock hw block
  rcases n with _ | n
  · exact .ok (.tasks hts hblock)
  · have hl := hidle.resolve_left (Nat.succ_ne_zero n)
    obtain ⟨j, hj, hlt⟩ := hl
    obtain ⟨j', hj', hlt'⟩ := (Machine.atLimit_of_world hw).mp ⟨j, hj, hlt⟩
    obtain rfl := Option.some.inj (hj.symm.trans hj')
    rw [advance_turns_of_atLimit hj hlt, advance_turns_of_atLimit hj hlt']
    exact .error (world_stepped hblock)

/-- **Two runs side by side stay so**, as long as the block of the header is not entered. -/
theorem keepsPace_advance {c c' : Moment ν} (h : Moment.Paired limit k c c')
    (hopen : c.opened? limit ≠ some k) :
    KeepsPace limit k (advance limit c.tasks c.machine) (advance limit c'.tasks c'.machine) := by
  cases h with
  | idle var i body body' block hidle hts hw => exact keepsPace_idle hidle hts hw
  | @tasks ts ts' m m' hts hw =>
    cases hts with
    | nil => exact .ok (.tasks .nil hw)
    | @cons t t' ts ts' ht hts =>
      cases ht with
      | @lines ls ls' hls =>
        rcases ls with _ | ⟨l, ls⟩ <;> rcases ls' with _ | ⟨l', ls'⟩
        · exact .ok (.tasks hts hw)
        · cases hls
        · cases hls
        have hheads := hls.heads
        have halike := alike_perform (ν := ν) hheads.statement limit
        rcases hp : l.perform limit m with ⟨d, m₁⟩ | ⟨e, m₁⟩
        · obtain ⟨m₂, hp', hw₁⟩ := halike.exists_ok hw hp
          rw [advance_lines_of_ok hp, advance_lines_of_ok hp']
          simp only [Moment.opened?, hp] at hopen
          exact .ok (paired_line hheads (Line.performed_of_perform hp).1 hopen hts hw₁)
        · obtain ⟨m₂, hp', hw₁⟩ := halike.exists_error hw hp
          rw [advance_lines_of_error hp, advance_lines_of_error hp']
          exact .error hw₁
      | @turns var i n block body body' hbody =>
        by_cases hidle : n = 0 ∨ m.AtLimit limit
        · exact keepsPace_idle hidle hts hw
        rw [not_or] at hidle
        obtain ⟨n, rfl⟩ := Nat.exists_eq_succ_of_ne_zero hidle.1
        have hidle' : ¬ m'.AtLimit limit := fun hl => hidle.2 ((Machine.atLimit_of_world hw).mpr hl)
        rw [advance_turns_of_not_atLimit hidle.2, advance_turns_of_not_atLimit hidle']
        have hturned : ((m.withBlock block).stepped.turned block var i).world =
            ((m'.withBlock block).stepped.turned block var i).world :=
          world_withBlock (world_stepped (world_withBlock hw block)) _
        exact .ok (.tasks (.cons (.lines hbody) (.cons (.turns var (i + 1) n block hbody) hts)) hturned)

/-- As long as the block of the header is not entered, one run comes to all the moments of the
other. -/
theorem exists_paired_of_reaches {c c' c₁ : Moment ν} (h : Moment.Paired limit k c c')
    (hnever : ∀ d, c.Reaches limit d → d.opened? limit ≠ some k) (hr : c.Reaches limit c₁) :
    ∃ c₂, c'.Reaches limit c₂ ∧ Moment.Paired limit k c₁ c₂ := by
  induction hr with
  | refl => exact ⟨c', .refl, h⟩
  | @tail d d₁ hd hnext ih =>
    obtain ⟨d', hd', hpaired⟩ := ih
    have hpace := keepsPace_advance hpaired (hnever d hd)
    obtain ⟨hne, hadvance⟩ := hnext
    rw [hadvance] at hpace
    have hne' : d'.tasks ≠ [] := by
      cases hpaired with
      | idle => simp
      | tasks hts _ =>
        cases hts with
        | nil => exact absurd rfl hne
        | cons => simp
    rcases ha : advance limit d'.tasks d'.machine with ⟨ts, m⟩ | ⟨e, m⟩ <;> rw [ha] at hpace
    · cases hpace with
      | ok hp => exact ⟨⟨ts, m⟩, hd'.tail ⟨hne', ha⟩, hp⟩
    · cases hpace

/-- **Runs of programs with other lines below a header come to the same**, if no run enters the
block of the header. -/
theorem observed_of_rebodied {ls ls' : List Line} (h : Rebodied k ls ls') (m : Machine ν)
    (hnever : ∀ c, (Moment.start ls m).Reaches limit c → c.opened? limit ≠ some k) :
    observed (runLines limit ls m) = observed (runLines limit ls' m) := by
  have hstart : Moment.Paired limit k (Moment.start ls m) (Moment.start ls' m) :=
    .tasks (.cons (.lines h) .nil) rfl
  rcases hr : runLines limit ls m with ⟨u, m₁⟩ | ⟨e, m₁⟩
  · obtain ⟨c, hc, hp⟩ :=
      exists_paired_of_reaches hstart hnever (Moment.runLines_eq_ok_iff.mp hr)
    cases hp with
    | tasks hts hw =>
      cases hts
      rw [Moment.runLines_eq_ok_iff.mpr hc]
      exact congrArg (Prod.mk _) hw
  · obtain ⟨c, hc, hs⟩ := Moment.runLines_eq_error_iff.mp hr
    obtain ⟨c', hc', hp⟩ := exists_paired_of_reaches hstart hnever hc
    have hpace := keepsPace_advance hp (hnever c hc)
    rw [show advance limit c.tasks c.machine = .error e m₁ from hs] at hpace
    rcases ha : advance limit c'.tasks c'.machine with ⟨ts, m₂⟩ | ⟨e', m₂⟩ <;> rw [ha] at hpace
    · cases hpace
    · cases hpace with
      | error hw =>
        rw [Moment.runLines_eq_error_iff.mpr ⟨c', hc', ha⟩]
        exact congrArg (Prod.mk _) hw

end Runs

/-! ### Runs that can be followed to their end -/

/-- The headers whose blocks are entered from a moment on, if the run is at its end after so many
moments. -/
def Moment.openings (limit : Option Nat) : Nat → Moment ν → Option (List Nat)
  | 0, _ => none
  | n + 1, c =>
    match c.tasks, advance limit c.tasks c.machine with
    | _ :: _, .ok ts m => (openings limit n ⟨ts, m⟩).map ((c.opened? limit).toList ++ ·)
    | _, _ => some (c.opened? limit).toList

theorem Moment.opened?_ne_of_openings {limit : Option Nat} {n k : Nat} {ks : List Nat}
    {c c' : Moment ν} (h : c.openings limit n = some ks) (hk : k ∉ ks)
    (hr : c.Reaches limit c') : c'.opened? limit ≠ some k := by
  induction n generalizing c ks with
  | zero => cases h
  | succ n ih =>
    have hfirst : ∀ rest, ks = (c.opened? limit).toList ++ rest → c.opened? limit ≠ some k := by
      rintro rest rfl hopen
      exact hk (by simp [hopen])
    rw [openings] at h
    rcases Relation.ReflTransGen.cases_head hr with rfl | ⟨c₁, ⟨hne, hadvance⟩, hr'⟩
    · split at h
      · obtain ⟨rest, -, rfl⟩ := Option.map_eq_some_iff.mp h
        exact hfirst rest rfl
      · exact hfirst [] (by rw [List.append_nil]; exact (Option.some.inj h).symm)
    · rw [hadvance] at h
      rcases hts : c.tasks with _ | ⟨t, ts⟩
      · exact absurd hts hne
      · simp only [hts, Option.map_eq_some_iff] at h
        obtain ⟨rest, hrest, rfl⟩ := h
        exact ih hrest (fun hmem => hk (List.mem_append_right _ hmem)) hr'

/-! ### Sources -/

/-- The source with other lines in place of the block after the line of an index, for a header at
the given indentation. -/
def replaceBlock (source : Text) (i parent : Nat) (body : List Text) : Text :=
  let texts := source.splitOn '\n'
  ['\n'].intercalate (texts.take (i + 1) ++
    (body ++ texts.drop (blockAt (Line.ofSource source) (i + 1) parent).2))

theorem rebodied_of_append {pre bs post ls' : List Line} {header : Line} {body : List Text}
    (hh : header.headsBlock = true) (hbs : ∀ b ∈ bs, b.isInside header.indent = true)
    (hbody : ∀ t ∈ body, Line.isInside header.indent ⟨0, t⟩ = true)
    (h : ls'.map Line.text =
      pre.map Line.text ++ header.text :: (body ++ post.map Line.text)) :
    Rebodied header.number (pre ++ header :: (bs ++ post)) ls' := by
  refine related_of_map_text .same h fun rest' hrest' => ?_
  obtain ⟨l', ls', rfl, htext, hrest⟩ := List.map_eq_cons_iff.mp hrest'
  obtain ⟨bs', ls', rfl, hbs', hpost⟩ := List.map_eq_append_iff.mp hrest
  obtain ⟨n', t'⟩ := l'
  obtain ⟨k, t⟩ := header
  obtain rfl : t' = t := htext
  refine .header n' t' hh hbs (fun b hb => ?_) (related_of_same_text .nil .same hpost)
  exact hbody b.text (hbs' ▸ List.mem_map_of_mem hb)

/-- The lines of a source with another block. -/
theorem map_text_replaceBlock {source : Text} {pre ls : List Line} {header : Line}
    {body : List Text} (hls : Line.ofSource source = pre ++ header :: ls)
    (hbody : ∀ t ∈ body, '\n' ∉ t) :
    (Line.ofSource (replaceBlock source pre.length header.indent body)).map Line.text =
      pre.map Line.text ++ header.text :: (body ++ (header.past ls).map Line.text) := by
  have htexts : source.splitOn '\n' = (pre.map Line.text ++ [header.text]) ++
      ((header.block ls).map Line.text ++ (header.past ls).map Line.text) := by
    rw [← map_text_ofSource, hls, ← List.map_append, header.block_append_past, List.map_append,
      List.map_cons, List.append_assoc, List.singleton_append]
  have htake : (source.splitOn '\n').take (pre.length + 1) =
      pre.map Line.text ++ [header.text] := by
    rw [htexts]
    exact List.take_left' (by simp)
  have hdrop : (source.splitOn '\n').drop (pre.length + 1 + (header.block ls).length) =
      (header.past ls).map Line.text := by
    rw [htexts, ← List.append_assoc]
    exact List.drop_left' (by simp only [List.length_append, List.length_map,
      List.length_singleton])
  have hclean : ∀ t ∈ pre.map Line.text ++ [header.text] ++
      (body ++ (header.past ls).map Line.text), '\n' ∉ t := by
    intro t ht
    rw [← htake, ← hdrop] at ht
    rcases List.mem_append.mp ht with ht | ht
    · exact newline_not_mem_splitOn source t (List.mem_of_mem_take ht)
    rcases List.mem_append.mp ht with ht | ht
    · exact hbody t ht
    · exact newline_not_mem_splitOn source t (List.mem_of_mem_drop ht)
  have hreplace : replaceBlock source pre.length header.indent body = ['\n'].intercalate
      (pre.map Line.text ++ [header.text] ++ (body ++ (header.past ls).map Line.text)) := by
    rw [replaceBlock, hls, blockAt_append, htake]
    exact congrArg (fun ts => ['\n'].intercalate (_ ++ (body ++ ts))) hdrop
  rw [map_text_ofSource, hreplace, List.splitOn_intercalate '\n' hclean (by simp),
    List.append_assoc, List.singleton_append]

/-- **Blocks that are never entered do not matter.** Let a line of a source be a loop, a branch, or
the `else:` of one, and let no run of the source under a step limit enter its block: the run does not
come to the header, the loop makes no turn, or the branch goes the other way each time. Then the
lines of the block can be replaced by any others that are blank or deeper than the header, whatever
they say. The result of the run and its number of steps stay the same. -/
theorem execute_replaceBlock (ν : Type) [NumberSystem ν] {source : Text} {limit : Option Nat}
    {i : Nat} {header : Line} {body : List Text}
    (hheader : (Line.ofSource source)[i]? = some header) (hh : header.headsBlock = true)
    (hbody : ∀ t ∈ body, '\n' ∉ t ∧ Line.isInside header.indent ⟨0, t⟩ = true)
    (hnever : ∀ c : Moment ν, c.OfRun limit source → c.opened? limit ≠ some (i + 1)) :
    (execute ν source limit).result =
        (execute ν (replaceBlock source i header.indent body) limit).result ∧
      ∃ steps globals ok E E', (execute ν source limit).log = E ++ [.finished steps globals ok] ∧
        (execute ν (replaceBlock source i header.indent body) limit).log =
          E' ++ [.finished steps globals ok] := by
  obtain ⟨pre, ls, hls, rfl⟩ := exists_append_of_getElem? hheader
  have hnumber : header.number = pre.length + 1 := number_ofSource hheader
  have htexts := map_text_replaceBlock hls fun t ht => (hbody t ht).1
  have hrebodied : Rebodied header.number (Line.ofSource source)
      (Line.ofSource (replaceBlock source pre.length header.indent body)) := by
    rw [hls, ← header.block_append_past ls]
    exact rebodied_of_append hh (fun b => Line.isInside_of_mem_block)
      (fun t ht => (hbody t ht).2) htexts
  have hobserved := observed_of_rebodied hrebodied (.initial : Machine ν) (hnumber ▸ hnever)
  rw [execute_eq, execute_eq]
  exact outcome_of_observed hobserved _ _

/-- A branch in a loop that never goes the other way. -/
def oneWay : Text :=
  "for i in range(3):\n    if i < 5:\n        print(i)\n    else:\n        print('no')\nprint('end')".toList

/-- Lines of which none can be run. -/
def nonsense : List Text := ["         for".toList, [], "     print((".toList]

theorem execute_replaceBlock_oneWay :
    replaceBlock oneWay 3 4 nonsense = ("for i in range(3):\n    if i < 5:\n        print(i)\n" ++
      "    else:\n         for\n\n     print((\nprint('end')").toList ∧
      (execute Float oneWay (some 14)).result =
        (execute Float (replaceBlock oneWay 3 4 nonsense) (some 14)).result := by
  have hheader : (Line.ofSource oneWay)[3]? = some ⟨4, "    else:".toList⟩ := by decide +kernel
  have hopenings : (Moment.start (Line.ofSource oneWay) (.initial : Machine Float)).openings
      (some 14) 30 = some [1, 2, 2, 2] := by decide +kernel
  have hnever : ∀ c : Moment Float, c.OfRun (some 14) oneWay → c.opened? (some 14) ≠ some 4 :=
    fun c => Moment.opened?_ne_of_openings hopenings (by decide)
  exact ⟨by decide +kernel,
    (execute_replaceBlock Float hheader (by decide +kernel) (by decide +kernel) hnever).1⟩

end LessonScript
