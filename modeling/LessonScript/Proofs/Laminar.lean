import LessonScript.Proofs.Diagnosis
import LessonScript.Proofs.Levels
import LessonScript.Proofs.Sequence

/-! # Blocks are laminar

The block of a line reaches as far as the lines are blank or deeper (`inBlock_iff`). A line in it that
is not blank is deeper than the header, so what its own block takes in is taken in by the block of the
header as well: two blocks are disjoint, or the second lies inside the first. And what ends the block
of the header ends every block inside, so a block can be cut from the whole program or from a block
that its header lies in (`Line.block_append_past_of_mem`).

A run cuts blocks from blocks. The lines of a task are followed in the program by a line that is in no
block of theirs (`Framed`), whatever the level that they are at, so it cuts what would be cut from
the whole program.

Main statement: `blocks_laminar`. -/

namespace LessonScript

/-! ### Blocks by index -/

section TakeWhile

variable {α : Type} {p : α → Bool} {xs : List α}

theorem lt_length_takeWhile_iff_getElem? {n : Nat} :
    n < (xs.takeWhile p).length ↔ n < xs.length ∧ ∀ k ≤ n, ∀ x ∈ xs[k]?, p x = true := by
  induction xs generalizing n with
  | nil => simp
  | cons x xs ih =>
    by_cases hx : p x = true
    · rw [List.takeWhile_cons_of_pos hx]
      rcases n with _ | n
      · simp [hx]
      rw [List.length_cons, List.length_cons, Nat.add_lt_add_iff_right, Nat.add_lt_add_iff_right, ih]
      refine and_congr_right fun _ => ⟨fun h k hk => ?_, fun h k hk => ?_⟩
      · rcases k with _ | k
        · simpa using hx
        · exact h k (by omega)
      · exact h (k + 1) (by omega)
    · rw [List.takeWhile_cons_of_neg hx]
      refine iff_of_false (by simp) fun h => hx (h.2 0 (Nat.zero_le n) x rfl)

end TakeWhile

/-- The line of the second index is in the block that is cut from the program after the line of the
first index, at the indentation of that line. -/
def InBlock (program : List Line) (p i : Nat) : Prop :=
  ∃ l, program[p]? = some l ∧ p < i ∧ i < (blockAt program (p + 1) l.indent).2

section InBlock

variable {program : List Line} {p q i : Nat} {x y l : Line}

/-- **The block of a line reaches as far as the lines after it are blank or deeper.** -/
theorem inBlock_iff (hl : program[p]? = some l) : InBlock program p i ↔
    p < i ∧ i < program.length ∧
      ∀ k, p < k → k ≤ i → ∀ z ∈ program[k]?, z.isInside l.indent = true := by
  obtain ⟨pre, ls, rfl, rfl⟩ := exists_append_of_getElem? hl
  have hget : ∀ k, (pre ++ l :: ls)[pre.length + 1 + k]? = ls[k]? := by
    intro k
    rw [List.getElem?_append_right (by omega), show pre.length + 1 + k - pre.length = k + 1 by omega]
    rfl
  have hlength : (pre ++ l :: ls).length = pre.length + 1 + ls.length := by simp; omega
  have hin : InBlock (pre ++ l :: ls) pre.length i ↔
      pre.length < i ∧ i < (blockAt (pre ++ l :: ls) (pre.length + 1) l.indent).2 := by
    simp [InBlock]
  rw [hin, blockAt_append, hlength]
  refine and_congr_right fun hi => ?_
  obtain ⟨n, rfl⟩ := Nat.exists_eq_add_of_le (Nat.succ_le_of_lt hi)
  rw [Nat.succ_eq_add_one, Nat.add_lt_add_iff_left, Nat.add_lt_add_iff_left,
    lt_length_takeWhile_iff_getElem?]
  refine and_congr_right fun _ => ⟨fun h k hk hkn => ?_, fun h k hk => ?_⟩
  · obtain ⟨k, rfl⟩ := Nat.exists_eq_add_of_le (Nat.succ_le_of_lt hk)
    rw [Nat.succ_eq_add_one, hget]
    exact h k (by omega)
  · rw [← hget]
    exact h _ (by omega) (by omega)

/-- **Blocks are disjoint, or the second lies inside the first.** -/
theorem disjoint_or_inside (hpq : p < q) (hy : program[q]? = some y) (hb : y.isBlank = false) :
    (∀ i, InBlock program p i → ¬ InBlock program q i) ∨
      ∀ i, InBlock program q i → InBlock program p i := by
  by_cases hin : InBlock program p q
  · right
    obtain ⟨x, hx, -⟩ := id hin
    obtain ⟨-, -, hupto⟩ := (inBlock_iff hx).mp hin
    have hlt : x.indent < y.indent := Line.lt_indent_of_isInside (hupto q hpq le_rfl y hy) hb
    intro i hi
    obtain ⟨hqi, hlen, hbeyond⟩ := (inBlock_iff hy).mp hi
    refine (inBlock_iff hx).mpr ⟨hpq.trans hqi, hlen, fun k hpk hki z hz => ?_⟩
    rcases Nat.lt_or_ge q k with hqk | hkq
    · exact Line.isInside_of_le hlt.le (hbeyond k hqk hki z hz)
    · exact hupto k hpk hkq z hz
  · left
    rintro i hi ⟨-, -, hqi, -⟩
    -- A block that reaches beyond the line of `q` has that line in it.
    obtain ⟨x, hx, -⟩ := id hi
    obtain ⟨-, hlen, hupto⟩ := (inBlock_iff hx).mp hi
    exact hin ((inBlock_iff hx).mpr ⟨hpq, hqi.trans hlen, fun k hpk hkq => hupto k hpk (by omega)⟩)

end InBlock

/-! ### Blocks inside a block -/

namespace Line

/-- What is past a block is past every block inside. -/
theorem not_inside_past_of_mem {l x y : Line} {ls rest : List Line} (hx : x ∈ l.block ls)
    (hb : x.isBlank = false) (hp : l.past ls = y :: rest) : ¬ y.isInside x.indent = true := by
  have hlt := lt_indent_of_isInside (isInside_of_mem_block hx) hb
  exact fun hy => not_inside_of_past hp (isInside_of_le hlt.le hy)

/-- The block of a line in a block ends in that block. -/
theorem block_append_past_of_mem {l x : Line} {ls : List Line} (hx : x ∈ l.block ls)
    (hb : x.isBlank = false) (rest : List Line) :
    x.block (rest ++ l.past ls) = x.block rest := by
  refine takeWhile_append_of_head fun y hy => ?_
  obtain ⟨ys, hys⟩ := List.head?_eq_some_iff.mp hy
  exact not_inside_past_of_mem hx hb hys

end Line

/-- **A block can be cut from the block that its header lies in.** -/
theorem blockAt_blockAt {program : List Line} {p q : Nat} {x y : Line} (hx : program[p]? = some x)
    (hy : program[q]? = some y) (hb : y.isBlank = false) (hin : InBlock program p q) :
    (blockAt program (p + 1) x.indent).1[q - (p + 1)]? = some y ∧
      (blockAt (blockAt program (p + 1) x.indent).1 (q - (p + 1) + 1) y.indent).1 =
        (blockAt program (q + 1) y.indent).1 := by
  obtain ⟨pre, ls, rfl, rfl⟩ := exists_append_of_getElem? hx
  obtain ⟨x', hx', hpq, hq⟩ := hin
  obtain rfl : x' = x := Option.some.inj (hx'.symm.trans hx)
  rw [blockAt_append] at hq ⊢
  show (x'.block ls)[_]? = _ ∧ (blockAt (x'.block ls) _ _).1 = _
  obtain ⟨n, rfl⟩ := Nat.exists_eq_add_of_le (Nat.succ_le_of_lt hpq)
  rw [Nat.succ_eq_add_one] at hq hy ⊢
  have hn : n < (x'.block ls).length := Nat.lt_of_add_lt_add_left hq
  have hsplit : pre ++ x' :: ls = (pre ++ [x']) ++ (x'.block ls ++ x'.past ls) := by
    rw [Line.block_append_past]
    simp
  have hget : (x'.block ls)[n]? = some y := by
    rw [hsplit, List.getElem?_append_right (by simp), List.getElem?_append_left (by simpa using hn)] at hy
    simpa using hy
  obtain ⟨mid, post, hblock, rfl⟩ := exists_append_of_getElem? hget
  have hmem : y ∈ x'.block ls := List.mem_of_getElem? hget
  have hwhole : pre ++ x' :: ls = (pre ++ x' :: mid) ++ y :: (post ++ x'.past ls) := by
    rw [hsplit, hblock]
    simp
  have hlen : pre.length + 1 + mid.length + 1 = (pre ++ x' :: mid).length + 1 := by simp; omega
  rw [Nat.add_sub_cancel_left, hlen, hwhole, blockAt_append]
  refine ⟨hget, ?_⟩
  rw [hblock, blockAt_append]
  exact (Line.block_append_past_of_mem hmem hb post).symm

/-! ### Blocks in a run -/

/-- The lines stand in the program, and what follows them there is in none of their blocks. -/
def Framed (program rest : List Line) : Prop :=
  ∃ before more, program = before ++ (rest ++ more) ∧
    ∀ x ∈ rest, x.isBlank = false → ∀ y ∈ more.head?, ¬ y.isInside x.indent = true

namespace Framed

variable {program ls rest : List Line} {l : Line}

theorem self (program : List Line) : Framed program program := ⟨[], [], by simp, by simp⟩

theorem nil (program : List Line) : Framed program [] := ⟨program, [], by simp, by simp⟩

theorem of_suffix (h : Framed program ls) (hs : rest <:+ ls) : Framed program rest := by
  obtain ⟨before, more, rfl, hmore⟩ := h
  obtain ⟨skipped, rfl⟩ := hs
  exact ⟨before ++ skipped, more, by simp, fun x hx => hmore x (List.mem_append_right skipped hx)⟩

theorem block (h : Framed program (l :: ls)) : Framed program (l.block ls) := by
  obtain ⟨before, more, rfl, hmore⟩ := h
  refine ⟨before ++ [l], l.past ls ++ more, ?_, fun x hx hb y hy => ?_⟩
  · rw [← List.append_assoc (l.block ls), Line.block_append_past]
    simp
  rcases hp : l.past ls with _ | ⟨z, zs⟩ <;> rw [hp] at hy
  · have hls : x ∈ ls := (List.takeWhile_prefix _).subset hx
    exact hmore x (List.mem_cons_of_mem l hls) hb y hy
  · obtain rfl : z = y := Option.some.inj hy
    exact Line.not_inside_past_of_mem hx hb hp

theorem elseLine (h : Framed program (l :: ls)) {e : Line} {es : List Line}
    (he : Line.ElseOf l e ls es) : Framed program (e :: es) := by
  have hpast : l.past ls <:+ l :: ls := (List.dropWhile_suffix _).trans (List.suffix_cons l ls)
  exact h.of_suffix (he.past ▸ hpast)

/-- **What a run cuts is what is cut from the whole program.** -/
theorem exists_blockAt (h : Framed program (l :: ls)) (hb : l.isBlank = false) :
    ∃ p, program[p]? = some l ∧ (blockAt program (p + 1) l.indent).1 = l.block ls := by
  obtain ⟨before, more, rfl, hmore⟩ := h
  refine ⟨before.length, by simp, ?_⟩
  rw [List.cons_append, blockAt_append]
  exact takeWhile_append_of_head (hmore l List.mem_cons_self hb)

end Framed

theorem hereditary_framed (program : List Line) : Hereditary fun _ => Framed program where
  after {_ l ls} h := h.of_suffix ((l.after_suffix ls).trans (List.suffix_cons l ls))
  block _ h := h.block
  elseBlock {_ l ls} _ h := by
    rcases he : l.elseLine? ls with _ | e
    · rw [Line.elseBlock_of_none he]
      exact .nil program
    · obtain ⟨es, he⟩ := Line.elseOf_of_some he
      rw [he.elseBlock_eq]
      exact (h.elseLine he).block

section Run

variable {ν : Type} [NumberSystem ν] {source : Text} {limit : Option Nat} {c : Moment ν} {l : Line}
  {ls : List Line}

theorem framed_of_ofRun (h : c.OfRun limit source) (hl : .lines (l :: ls) ∈ c.tasks) :
    Framed (Line.ofSource source) (l :: ls) := by
  have hlevels := atLevels_of_reaches (hereditary_framed _) h (.self _)
  obtain ⟨-, hframed⟩ := hlevels.exists_of_mem hl
  exact hframed

/-- The lines of a source are known by their numbers. -/
theorem block_of_framed {rest : List Line} (h : Framed (Line.ofSource source) (l :: rest))
    (hb : l.isBlank = false) :
    l.block rest = (blockAt (Line.ofSource source) l.number l.indent).1 := by
  obtain ⟨p, hp, hblock⟩ := h.exists_blockAt hb
  rw [number_ofSource hp, hblock]

end Run

/-- **Blocks are laminar.** Of the blocks of two lines, the second of which is not blank, either no
line is in both or all lines of the second are in the first. If the second line is itself in the first
block then its block is the same, cut from that block or from the whole program. So the block of a
line that is not blank, wherever a run comes to the line, is the one cut from the source, and so is the
block of an `else:` that a header takes up. -/
theorem blocks_laminar (ν : Type) [NumberSystem ν] :
    (∀ program p q y, p < q → program[q]? = some y → y.isBlank = false →
      (∀ i, InBlock program p i → ¬ InBlock program q i) ∨
        ∀ i, InBlock program q i → InBlock program p i) ∧
    (∀ program p q x y, program[p]? = some x → program[q]? = some y → y.isBlank = false →
      InBlock program p q →
      (blockAt program (p + 1) x.indent).1[q - (p + 1)]? = some y ∧
        (blockAt (blockAt program (p + 1) x.indent).1 (q - (p + 1) + 1) y.indent).1 =
          (blockAt program (q + 1) y.indent).1) ∧
    ∀ source limit (c : Moment ν) l ls, c.OfRun limit source → .lines (l :: ls) ∈ c.tasks →
      l.isBlank = false →
      l.block ls = (blockAt (Line.ofSource source) l.number l.indent).1 ∧
        ∀ e, l.elseLine? ls = some e →
          l.elseBlock ls = (blockAt (Line.ofSource source) e.number e.indent).1 := by
  refine ⟨fun _ _ _ _ => disjoint_or_inside, fun _ _ _ _ _ => blockAt_blockAt,
    fun source limit c l ls hc hl hb => ?_⟩
  have hframed := framed_of_ofRun hc hl
  refine ⟨block_of_framed hframed hb, fun e he => ?_⟩
  obtain ⟨es, he⟩ := Line.elseOf_of_some he
  rw [he.elseBlock_eq]
  exact block_of_framed (hframed.elseLine he) (Line.isBlank_of_isElse he.isElse)

/-- A loop with a branch inside, and a line after both. -/
def branchInLoop : Text :=
  "for i in range(2):\n  if i > 0:\n\n     print(i)\n  print('x')\nprint('end')".toList

theorem blocks_laminar_branchInLoop :
    InBlock (Line.ofSource branchInLoop) 0 1 ∧
      ((∀ i, InBlock (Line.ofSource branchInLoop) 0 i → ¬ InBlock (Line.ofSource branchInLoop) 1 i) ∨
        ∀ i, InBlock (Line.ofSource branchInLoop) 1 i → InBlock (Line.ofSource branchInLoop) 0 i) ∧
      (blockAt (blockAt (Line.ofSource branchInLoop) 1 0).1 1 2).1 =
        (blockAt (Line.ofSource branchInLoop) 2 2).1 ∧
      (⟨1, "for i in range(2):".toList⟩ : Line).block (Line.ofSource branchInLoop).tail =
        (blockAt (Line.ofSource branchInLoop) 1 0).1 := by
  have hfirst : (Line.ofSource branchInLoop)[0]? = some ⟨1, "for i in range(2):".toList⟩ := by decide
  have hsecond : (Line.ofSource branchInLoop)[1]? = some ⟨2, "  if i > 0:".toList⟩ := by decide
  have hin : InBlock (Line.ofSource branchInLoop) 0 1 := ⟨_, hfirst, by decide, by decide⟩
  obtain ⟨hlaminar, hinner, hrun⟩ := blocks_laminar Float
  refine ⟨hin, hlaminar _ 0 1 _ (by decide) hsecond (by decide),
    (hinner _ 0 1 _ _ hfirst hsecond (by decide) hin).2, ?_⟩
  exact (hrun branchInLoop none _ _ _ .refl List.mem_cons_self (by decide)).1

end LessonScript
