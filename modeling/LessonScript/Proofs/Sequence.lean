import LessonScript.Proofs.Moment
import LessonScript.Proofs.Padding

/-! # One program after another

Two programs can be run as one, the second after the first, or one after the other. It is the same
if nothing of the second is taken up by a header of the first: if its first line that is not blank
is no `else:`, and no deeper than any line of the first program (`Line.Apart`). The outline of both
is then the outline of the one followed by that of the other (`outline_append`), except that blank
lines in front of the second belong to the last block of the first.

Main statement: `sequential_composition`. -/

namespace LessonScript

open Line (next?)

/-! ### What no block reaches into -/

section Split

variable {α : Type} {p : α → Bool} {xs ys : List α}

theorem takeWhile_append_of_head (h : ∀ y ∈ ys.head?, ¬ p y = true) :
    (xs ++ ys).takeWhile p = xs.takeWhile p := by
  induction xs with
  | nil =>
    rcases ys with _ | ⟨y, ys⟩
    · rfl
    · exact List.takeWhile_cons_of_neg (h y rfl)
  | cons x xs ih =>
    rw [List.cons_append]
    by_cases hx : p x = true
    · rw [List.takeWhile_cons_of_pos hx, List.takeWhile_cons_of_pos hx, ih]
    · rw [List.takeWhile_cons_of_neg hx, List.takeWhile_cons_of_neg hx]

theorem dropWhile_append_of_head (h : ∀ y ∈ ys.head?, ¬ p y = true) :
    (xs ++ ys).dropWhile p = xs.dropWhile p ++ ys := by
  induction xs with
  | nil =>
    rcases ys with _ | ⟨y, ys⟩
    · rfl
    · exact List.dropWhile_cons_of_neg (h y rfl)
  | cons x xs ih =>
    rw [List.cons_append]
    by_cases hx : p x = true
    · rw [List.dropWhile_cons_of_pos hx, List.dropWhile_cons_of_pos hx, ih]
    · rw [List.dropWhile_cons_of_neg hx, List.dropWhile_cons_of_neg hx, List.cons_append]

end Split

namespace Line

/-- **Nothing of the second program is taken up by the first**: its first line that is not blank is
no `else:`, and no deeper than any line of the first program that is not blank. -/
def Apart (ls bs : List Line) : Prop :=
  ∀ b ∈ next? bs, b.isElse = false ∧ ∀ l ∈ ls, l.isBlank = false → b.indent ≤ l.indent

instance (ls bs : List Line) : Decidable (Apart ls bs) := by
  unfold Apart
  infer_instance

/-- The lines begin with a line that is neither in the block of a header nor its `else:`. -/
def Outside (l : Line) (bs : List Line) : Prop :=
  ∀ b ∈ bs.head?, b.isElse = false ∧ ¬ b.isInside l.indent = true

section Outside

variable {l : Line} {bs : List Line} (h : l.Outside bs) (ls : List Line)
include h

theorem block_append_of_outside : l.block (ls ++ bs) = l.block ls :=
  takeWhile_append_of_head fun b hb => (h b hb).2

theorem past_append_of_outside : l.past (ls ++ bs) = l.past ls ++ bs :=
  dropWhile_append_of_head fun b hb => (h b hb).2

theorem elseLine?_of_outside (hp : l.past ls = bs) : l.elseLine? ls = none := by
  rcases bs with _ | ⟨b, bs⟩
  · exact elseLine?_of_nil hp
  · have hb := (h b rfl).1
    exact elseLine?_of_neg hp (by simp [isElseAt, hb])

/-- The `else:` of a header and its block are found before the second program, or not at all. -/
theorem elseHalf_append_of_outside :
    l.elseLine? (ls ++ bs) = l.elseLine? ls ∧ l.elseBlock (ls ++ bs) = l.elseBlock ls ∧
      l.pastElse (ls ++ bs) = l.pastElse ls ++ bs := by
  have hpast := past_append_of_outside h ls
  have hnone : l.elseLine? (ls ++ bs) = none → l.elseLine? ls = none →
      l.elseLine? (ls ++ bs) = l.elseLine? ls ∧ l.elseBlock (ls ++ bs) = l.elseBlock ls ∧
        l.pastElse (ls ++ bs) = l.pastElse ls ++ bs := by
    intro hn hn'
    rw [hn, hn', elseBlock_of_none hn, elseBlock_of_none hn', pastElse_of_none hn,
      pastElse_of_none hn', hpast]
    exact ⟨rfl, rfl, rfl⟩
  rcases hp : l.past ls with _ | ⟨e, es⟩
  · rw [hp, List.nil_append] at hpast
    exact hnone (elseLine?_of_outside h _ hpast) (elseLine?_of_nil hp)
  rw [hp, List.cons_append] at hpast
  by_cases he : e.isElseAt l.indent = true
  · rw [elseLine?_of_pos hpast he, elseLine?_of_pos hp he, elseBlock_of_pos hpast he,
      elseBlock_of_pos hp he, pastElse_of_pos hpast he, pastElse_of_pos hp he]
    exact ⟨rfl, block_append_of_outside h es, past_append_of_outside h es⟩
  · exact hnone (elseLine?_of_neg hpast he) (elseLine?_of_neg hp he)

/-- A header takes up the same lines with the second program after the first. -/
theorem node_append_of_outside : l.node (ls ++ bs) = l.node ls := by
  obtain ⟨hline, helse, -⟩ := elseHalf_append_of_outside h ls
  rw [node, node, block_append_of_outside h ls, hline, helse]

theorem after_append_of_outside : l.after (ls ++ bs) = l.after ls ++ bs := by
  obtain ⟨-, -, hpast⟩ := elseHalf_append_of_outside h ls
  rw [after, after, past_append_of_outside h ls, hpast]
  split <;> rfl

end Outside

theorem pastElse_suffix (l : Line) (ls : List Line) : l.pastElse ls <:+ ls := by
  have h := branch_append l ls
  rw [← List.append_assoc, ← List.append_assoc] at h
  exact ⟨_, h⟩

theorem after_suffix (l : Line) (ls : List Line) : l.after ls <:+ ls := by
  unfold after
  split
  · exact List.dropWhile_suffix _
  · exact pastElse_suffix l ls
  · exact List.suffix_rfl

/-- Only headers take up lines, and they are not blank. -/
theorem node_append_of_skip {l : Line} (h : l.statement = .ok .skip) (ls bs : List Line) :
    l.node (ls ++ bs) = l.node ls ∧ l.after (ls ++ bs) = l.after ls ++ bs := by
  simp only [node, after, h, and_self]

end Line

/-- **The outline of two programs**, the second beginning with a line that is not blank. -/
theorem outline_append {ls bs : List Line}
    (h : ∀ l ∈ ls, l.isBlank = false → l.Outside bs) :
    outline (ls ++ bs) = outline ls ++ outline bs := by
  -- On the number of lines of the first: what comes after its first node is a part of its end.
  induction hn : ls.length using Nat.strong_induction_on generalizing ls with
  | _ n ih =>
    subst hn
    rcases ls with _ | ⟨l, ls⟩
    · rfl
    have hparts : l.node (ls ++ bs) = l.node ls ∧ l.after (ls ++ bs) = l.after ls ++ bs := by
      cases hb : l.isBlank with
      | true => exact Line.node_append_of_skip (Line.statement_of_isBlank hb) ls bs
      | false =>
        have hl := h l List.mem_cons_self hb
        exact ⟨Line.node_append_of_outside hl ls, Line.after_append_of_outside hl ls⟩
    obtain ⟨hnode, hafter⟩ := hparts
    have hsuffix := Line.after_suffix l ls
    have hrest : outline (l.after ls ++ bs) = outline (l.after ls) ++ outline bs := by
      refine ih _ (Nat.lt_succ_of_le hsuffix.length_le) (fun x hx => ?_) rfl
      exact h x (List.mem_cons_of_mem l (hsuffix.subset hx))
    rw [List.cons_append, outline_cons, outline_cons, hnode, hafter, hrest, List.cons_append]

/-! ### Runs -/

section Runs

variable {ν : Type} [NumberSystem ν] {limit : Option Nat} {as bs : List Line}

theorem execAll_append (limit : Option Nat) (ns ns' : List Node) :
    (Node.execAll limit (ns ++ ns') : Run ν Unit) =
      Node.execAll limit ns >>= fun _ => Node.execAll limit ns' := by
  induction ns with
  | nil => rfl
  | cons n ns ih => simp only [List.cons_append, Node.execAll, ih, bind_assoc]

theorem runLines_append (limit : Option Nat) (h : ∀ l ∈ as, l.isBlank = false → l.Outside bs) :
    (runLines limit (as ++ bs) : Run ν Unit) =
      runLines limit as >>= fun _ => runLines limit bs := by
  rw [runLines, outline_append h, execAll_append]
  rfl

/-- Blank lines at the end of a program may be left out. -/
theorem padded_append_blanks (as bs : List Line) :
    Padded (as ++ bs.takeWhile Line.isBlank) as := by
  induction as with
  | nil => exact .takeWhile_isBlank bs
  | cons a as ih => exact .both a.number a.number a.text ih

/-- **Both programs as one are alike to the one after the other.** The blank lines in front of the
second may stand at the end of the first. -/
theorem alike_append (h : Line.Apart as bs) (limit : Option Nat) :
    Alike (runLines limit (as ++ bs) : Run ν Unit)
      (runLines limit as >>= fun _ => runLines limit bs) := by
  have hsplit : as ++ bs = (as ++ bs.takeWhile Line.isBlank) ++ bs.dropWhile Line.isBlank := by
    rw [List.append_assoc, List.takeWhile_append_dropWhile]
  have hnext : next? (bs.dropWhile Line.isBlank) = next? bs := Line.next?_dropWhile_isBlank bs
  have hhead : ∀ b ∈ (bs.dropWhile Line.isBlank).head?, b.isBlank = false ∧ b ∈ next? bs := by
    intro b hb
    obtain ⟨rest, hrest⟩ := List.head?_eq_some_iff.mp hb
    have hblank : b.isBlank = false := by
      have hd := List.head?_dropWhile_not Line.isBlank bs
      rw [hb] at hd
      simpa using hd
    rw [hrest, Line.next?_of_not_isBlank hblank] at hnext
    exact ⟨hblank, hnext.symm⟩
  have houtside : ∀ l ∈ as ++ bs.takeWhile Line.isBlank, l.isBlank = false →
      l.Outside (bs.dropWhile Line.isBlank) := by
    intro l hl hlb b hb
    obtain ⟨hbb, hbn⟩ := hhead b hb
    obtain ⟨helse, hle⟩ := h b hbn
    rcases List.mem_append.mp hl with hl | hl
    · have hdeep := hle l hl hlb
      exact ⟨helse, by simp [Line.isInside, hbb, hdeep]⟩
    · rw [List.mem_takeWhile_imp hl] at hlb
      cases hlb
  rw [hsplit, runLines_append limit houtside, ← runLines_dropWhile_isBlank limit bs]
  have hsame : Padded (bs.dropWhile Line.isBlank) (bs.dropWhile Line.isBlank) :=
    padded_of_map_text rfl
  exact (alike_of_padded (padded_append_blanks as bs) limit).bind fun _ =>
    alike_of_padded hsame limit

/-! ### The output only grows -/

variable {c c' : Moment ν} {m m' : Machine ν}

theorem output_of_performed {l : Line} {d : Demand} (h : l.Performed m d m') :
    m.output <:+ m'.output := by
  cases h with
  | skip _ | assign _ _ | loop _ | branch _ _ _ => exact List.suffix_rfl
  | print _ _ => exact List.suffix_cons _ _

theorem output_of_change (h : c.Change limit c') : c.machine.output <:+ c'.machine.output := by
  cases h with
  | leave | finish | turn _ => exact List.suffix_rfl
  | line hp _ =>
    rw [output_announced]
    exact output_of_performed hp

/-- **A run of lines keeps what was printed before it.** -/
theorem output_of_runLines {ls : List Line} (h : runLines limit ls m = .ok () m') :
    m.output <:+ m'.output :=
  Moment.of_reaches (P := fun c => m.output <:+ c.machine.output)
    (fun _ _ hc hm => hm.trans (output_of_change hc)) (Moment.runLines_eq_ok_iff.mp h)
    List.suffix_rfl

end Runs

/-! ### The main statement -/

/-- **Sequential composition.** Let the first line of `bs` that is not blank be no `else:`, and no
deeper than any line of `as` that is not blank. From every state and under every step limit, running
`as` with `bs` after it is, but for the log, running `as` and then, from the scope, the output and
the number of steps that `as` left, running `bs`. If `as` ends with an error then so do both, in the
same state. If both succeed then what they print is what `as` prints, followed by what `bs` adds to
it. -/
theorem sequential_composition (ν : Type) [NumberSystem ν] {as bs : List Line}
    (h : Line.Apart as bs) (limit : Option Nat) (m : Machine ν) :
    (∀ m₁, runLines limit as m = .ok () m₁ →
      observed (runLines limit (as ++ bs) m) = observed (runLines limit bs m₁)) ∧
    (∀ e m₁, runLines limit as m = .error e m₁ →
      observed (runLines limit (as ++ bs) m) = (.error e, m₁.world)) ∧
    (∀ m', runLines limit (as ++ bs) m = .ok () m' →
      ∃ m₁ m₂ printed, runLines limit as m = .ok () m₁ ∧ runLines limit bs m₁ = .ok () m₂ ∧
        m₂.world.output = m₁.world.output ++ printed ∧ m'.world.output = m₂.world.output) := by
  have halike := alike_append (ν := ν) h limit m m rfl
  have hok : ∀ m₁, runLines limit as m = .ok () m₁ →
      observed (runLines limit (as ++ bs) m) = observed (runLines limit bs m₁) := by
    intro m₁ hm₁
    rw [halike, Run.bind_of_ok hm₁]
  have herror : ∀ e m₁, runLines limit as m = .error e m₁ →
      observed (runLines limit (as ++ bs) m) = (.error e, m₁.world) := by
    intro e m₁ hm₁
    rw [halike, Run.bind_of_error hm₁]
    rfl
  refine ⟨hok, herror, fun m' hm' => ?_⟩
  rcases ha : runLines limit as m with ⟨u, m₁⟩ | ⟨e, m₁⟩
  · have hb := hok m₁ ha
    rw [hm'] at hb
    rcases hr : runLines limit bs m₁ with ⟨u, m₂⟩ | ⟨e, m₂⟩ <;> rw [hr] at hb
    · obtain ⟨printed, hprinted⟩ := output_of_runLines hr
      have hworld : m'.world = m₂.world := (Prod.mk.inj hb).2
      refine ⟨m₁, m₂, printed.reverse, rfl, hr, ?_, congrArg World.output hworld⟩
      show m₂.output.reverse = m₁.output.reverse ++ printed.reverse
      rw [← hprinted, List.reverse_append]
    · cases (Prod.mk.inj hb).1
  · have hb := herror e m₁ ha
    rw [hm'] at hb
    cases (Prod.mk.inj hb).1

/-- A loop, with its block at the end. -/
def twoTurns : List Line := Line.ofSource "for i in range(2):\n    print('x')".toList

/-- A line after blank lines, which the block of a loop before them takes up. -/
def afterGap : List Line := Line.ofSource "\n  \nprint('end')".toList

theorem sequential_composition_afterGap : Line.Apart twoTurns afterGap ∧
    ∃ m₁ : Machine Float, runLines (some 6) twoTurns .initial = .ok () m₁ ∧
      m₁.world.output = ["x".toList, "x".toList] ∧
      observed (runLines (some 6) (twoTurns ++ afterGap) .initial) =
        observed (runLines (some 6) afterGap m₁) := by
  have hapart : Line.Apart twoTurns afterGap := by decide +kernel
  have hprints : (effect (runLines (some 6) twoTurns (.initial : Machine Float))).map World.output =
      .ok ["x".toList, "x".toList] := by decide +kernel
  rcases hr : runLines (some 6) twoTurns (.initial : Machine Float) with ⟨u, m₁⟩ | ⟨e, m₁⟩ <;>
    rw [hr] at hprints
  · have houtput : m₁.world.output = ["x".toList, "x".toList] := Except.ok.inj hprints
    have hboth := (sequential_composition Float hapart (some 6) .initial).1 m₁ hr
    exact ⟨hapart, m₁, rfl, houtput, hboth⟩
  · cases hprints

end LessonScript
