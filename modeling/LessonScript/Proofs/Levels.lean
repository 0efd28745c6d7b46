import LessonScript.Proofs.Moment

/-! # The levels of a run

While the lines of a block are run, the block that its header stands in is still being run, and so on
up to the whole program. So the lines of every task are at a *level*, the number of blocks around
them: the program is at level zero, and a block at the level after that of its header.

What holds of the program, and goes over from the lines at a cursor to the lines after the node of
the first one and, one level deeper, to the blocks of that node (`Hereditary`), holds at every moment
of a run of the lines of every task (`atLevels_of_reaches`). -/

namespace LessonScript

variable {ν : Type}

/-- The lines that a task runs. -/
def Task.body : Task ν → List Line
  | .lines rest => rest
  | .turns _ _ _ body _ => body

/-- How many blocks are being run, the whole program being one. -/
def openBlocks : List (Task ν) → Nat
  | [] => 0
  | .lines _ :: ts => openBlocks ts + 1
  | .turns .. :: ts => openBlocks ts

/-- How many blocks are being run inside the whole program, each in the one before. -/
def Moment.depth (c : Moment ν) : Nat := openBlocks c.tasks - 1

/-- **The property goes over from a line and the lines after it** to the lines after its node, and to
the blocks of the node one level deeper. -/
structure Hereditary (P : Nat → List Line → Prop) : Prop where
  after : ∀ {n l ls}, P n (l :: ls) → P n (l.after ls)
  block : ∀ {n l ls}, l.isBlank = false → P n (l :: ls) → P (n + 1) (l.block ls)
  elseBlock : ∀ {n l ls}, l.isBlank = false → P n (l :: ls) → P (n + 1) (l.elseBlock ls)

/-- The lines of every task have the property at their level. -/
def AtLevels (P : Nat → List Line → Prop) : List (Task ν) → Prop
  | [] => True
  | t :: ts => P (openBlocks ts) t.body ∧ AtLevels P ts

variable {P : Nat → List Line → Prop} {ts : List (Task ν)}

theorem AtLevels.exists_of_mem (h : AtLevels P ts) {t : Task ν} (ht : t ∈ ts) : ∃ n, P n t.body := by
  induction ts with
  | nil => cases ht
  | cons t' ts ih =>
    rcases List.mem_cons.mp ht with rfl | ht
    · exact ⟨_, h.1⟩
    · exact ih h.2 ht

/-- The innermost of the blocks that are being run is at the deepest level. -/
theorem AtLevels.exists_of_openBlocks {n : Nat} (h : AtLevels P ts) (hn : openBlocks ts = n + 1) :
    ∃ ls, P n ls := by
  induction ts with
  | nil => cases hn
  | cons t ts ih =>
    cases t with
    | lines rest =>
      obtain rfl : openBlocks ts = n := Nat.succ.inj hn
      exact ⟨rest, h.1⟩
    | turns var i k body block => exact ih h.2 hn

variable [NumberSystem ν] {limit : Option Nat} {c c' : Moment ν} {l : Line} {ls : List Line}
  {m m' : Machine ν} {d : Demand}

theorem atLevels_line (hP : Hereditary P) (h : AtLevels P (.lines (l :: ls) :: ts))
    (hp : l.Performed m d m') (block : Bindings (Value ν)) :
    AtLevels P (l.tasks ls block d ++ .lines (l.after ls) :: ts) := by
  obtain ⟨hl, hts⟩ := h
  have hafter : AtLevels P (.lines (l.after ls) :: ts) := ⟨hP.after hl, hts⟩
  cases hp with
  | skip | print | assign => exact hafter
  | loop hs => exact ⟨hP.block (Line.isBlank_of_statement hs (by simp)) hl, hafter⟩
  | @branch cond a b hs =>
    have hblank := Line.isBlank_of_statement hs (by simp)
    cases cond.op.holds a b with
    | false => exact ⟨hP.elseBlock hblank hl, hafter⟩
    | true => exact ⟨hP.block hblank hl, hafter⟩

theorem atLevels_of_change (hP : Hereditary P) (h : c.Change limit c') (hc : AtLevels P c.tasks) :
    AtLevels P c'.tasks := by
  cases h with
  | leave | finish => exact hc.2
  | line hp => exact atLevels_line hP hc hp _
  | turn => exact ⟨hc.1, hc⟩

/-- **At every moment of a run the lines of every task have the property at their level**, if the
program has it at level zero. -/
theorem atLevels_of_reaches (hP : Hereditary P) (h : (Moment.start ls m).Reaches limit c)
    (hls : P 0 ls) : AtLevels P c.tasks :=
  Moment.of_reaches (P := fun c => AtLevels P c.tasks) (fun _ _ => atLevels_of_change hP) h
    ⟨hls, trivial⟩

end LessonScript
