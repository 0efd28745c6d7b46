import LessonScript.Number.Exact
import LessonScript.Proofs.Layered
import Mathlib.Tactic.Ring

/-! # Exact arithmetic

A flat expression is a number and then operators with a number after each. By the usual rules `*` and
`/` bind tighter than `+` and `-`, and operators that bind alike associate to the left (`Usual`).
Evaluation does not go by these rules: it cuts at all `+` first, then at `-`, at `*` and at `/`, so
that `+` binds looser than `-`, and `*` looser than `/`.

Where nothing is rounded the two agree. What follows the first number takes it times a factor and
adds an offset (`Flat.factor`, `Flat.offset`); so it is for a tree of the usual rules
(`Arithmetic.value_flat`) and for every cut of evaluation (`Flat.total_pieces`).

Main statement: `evaluate_flat`. -/

namespace LessonScript

/-! ### The usual rules -/

/-- A number, and operators with the numbers after them. -/
structure Flat where
  first : ℚ
  rest : List (Operator × ℚ)

namespace Operator

/-- How tight an operator binds by the usual rules. -/
def rank : Operator → Nat
  | add => 0
  | sub => 0
  | mul => 1
  | div => 1

theorem rank_le (op : Operator) : op.rank ≤ 1 := by cases op <;> decide

/-- The levels of evaluation: an operator and those that are cut at after it. -/
theorem suffix_all {op : Operator} {ops : List Operator} (h : op :: ops <:+ all) :
    (op = add ∧ ops = [sub, mul, div]) ∨ (op = sub ∧ ops = [mul, div]) ∨
      (op = mul ∧ ops = [div]) ∨ (op = div ∧ ops = []) := by
  simpa [all, List.suffix_cons_iff] using h

theorem rank_pos_iff {op : Operator} : 0 < op.rank ↔ op ∈ [mul, div] := by
  cases op <;> decide

def onRationals : Operator → ℚ → ℚ → ℚ
  | add => (· + ·)
  | sub => (· - ·)
  | mul => (· * ·)
  | div => (· / ·)

end Operator

/-- A way to put brackets into a flat expression. -/
inductive Arithmetic
  | number (q : ℚ)
  | apply (op : Operator) (l r : Arithmetic)

namespace Arithmetic

/-- How tight the tree binds: as its topmost operator does, and a number binds tighter than any. -/
def rank : Arithmetic → Nat
  | number _ => 2
  | apply op _ _ => op.rank

/-- **The brackets are where the usual rules put them**: no operand binds looser than its operator,
and the right one binds tighter. -/
def Usual : Arithmetic → Prop
  | number _ => True
  | apply op l r => l.Usual ∧ r.Usual ∧ op.rank ≤ l.rank ∧ op.rank < r.rank

/-- The tree without its brackets. -/
def flat : Arithmetic → Flat
  | number q => ⟨q, []⟩
  | apply op l r => ⟨l.flat.first, l.flat.rest ++ (op, r.flat.first) :: r.flat.rest⟩

def value : Arithmetic → ℚ
  | number q => q
  | apply op l r => op.onRationals l.value r.value

end Arithmetic

/-! ### Flat expressions as texts -/

/-- What an atom stands for: the number that a word is bound to, or that of an unsigned numeral, as
long as it is not bound itself. -/
inductive Stands (s : Scope Exact) (t : Text) (q : ℚ) : Prop
  | bound : t.IsWord → s.read? t = some (.number (.rational q)) → Stands s t q
  | literal : Numeral.Unsigned t → s.read? t = none → Exact.read t = .rational q → Stands s t q

/-- **How a flat expression is written**, with one or more blanks on both sides of every operator. -/
inductive Flat.Renders (s : Scope Exact) : Flat → Text → Prop
  | one {q : ℚ} {t : Text} : Stands s t q → Renders s ⟨q, []⟩ t
  | more {q p : ℚ} {rest : List (Operator × ℚ)} {t e left right : Text} (op : Operator) :
      Stands s t q → left ≠ [] → (∀ c ∈ left, isBlank c = true) → right ≠ [] →
      (∀ c ∈ right, isBlank c = true) → Renders s ⟨p, rest⟩ e →
      Renders s ⟨q, (op, p) :: rest⟩ (t ++ (left ++ op.symbol :: (right ++ e)))

/-- Nothing is divided by zero. -/
def Flat.DivisorsNonzero (x : Flat) : Prop := ∀ p ∈ x.rest, p.1 = .div → p.2 ≠ 0

/-! ### Factor and offset -/

/-- What comes after a number multiplies it by this. -/
def Flat.factor : List (Operator × ℚ) → ℚ
  | [] => 1
  | (.add, _) :: _ => 1
  | (.sub, _) :: _ => 1
  | (.mul, q) :: rest => q * factor rest
  | (.div, q) :: rest => q⁻¹ * factor rest

/-- What comes after a number adds this to the product. -/
def Flat.offset : List (Operator × ℚ) → ℚ
  | [] => 0
  | (.add, q) :: rest => offset rest + q * factor rest
  | (.sub, q) :: rest => offset rest - q * factor rest
  | (.mul, _) :: rest => offset rest
  | (.div, _) :: rest => offset rest

def Flat.value (x : Flat) : ℚ := x.first * factor x.rest + offset x.rest

/-- There are only `*` and `/`. -/
def Tight (rest : List (Operator × ℚ)) : Prop := ∀ p ∈ rest, 0 < p.1.rank

theorem tight_nil : Tight [] := fun _ hp => absurd hp List.not_mem_nil

namespace Flat

section Append

variable {op : Operator} {rest rest' : List (Operator × ℚ)}

theorem factor_append_of_tight (h : Tight rest) (rest' : List (Operator × ℚ)) :
    factor (rest ++ rest') = factor rest * factor rest' := by
  induction rest with
  | nil => rw [List.nil_append, factor, one_mul]
  | cons p rest ih =>
    obtain ⟨op, q⟩ := p
    obtain ⟨hop, hrest⟩ := List.forall_mem_cons.mp h
    cases op with
    | add => exact absurd hop (Nat.lt_irrefl 0)
    | sub => exact absurd hop (Nat.lt_irrefl 0)
    | mul => rw [List.cons_append, factor, factor, ih hrest, mul_assoc]
    | div => rw [List.cons_append, factor, factor, ih hrest, mul_assoc]

theorem offset_append_of_tight (h : Tight rest) (rest' : List (Operator × ℚ)) :
    offset (rest ++ rest') = offset rest' := by
  induction rest with
  | nil => rfl
  | cons p rest ih =>
    obtain ⟨op, q⟩ := p
    obtain ⟨hop, hrest⟩ := List.forall_mem_cons.mp h
    cases op with
    | add => exact absurd hop (Nat.lt_irrefl 0)
    | sub => exact absurd hop (Nat.lt_irrefl 0)
    | mul => exact ih hrest
    | div => exact ih hrest

theorem offset_of_tight (h : Tight rest) : offset rest = 0 := by
  have happend := offset_append_of_tight h []
  rwa [List.append_nil] at happend

theorem value_of_tight (h : Tight rest) (q : ℚ) : value ⟨q, rest⟩ = q * factor rest := by
  rw [value, offset_of_tight h, add_zero]

/-- The factor ends at a loose operator. -/
theorem factor_append_of_loose (h : op.rank = 0) (p : ℚ) (rest rest' : List (Operator × ℚ)) :
    factor (rest ++ (op, p) :: rest') = factor rest := by
  have hop : factor ((op, p) :: rest') = 1 := by
    cases op with
    | add => rfl
    | sub => rfl
    | mul => cases h
    | div => cases h
  induction rest with
  | nil => exact hop
  | cons p' rest ih =>
    obtain ⟨o, q⟩ := p'
    cases o with
    | add => rfl
    | sub => rfl
    | mul => rw [List.cons_append, factor, factor, ih]
    | div => rw [List.cons_append, factor, factor, ih]

/-- The offsets before and after a loose operator add up. -/
theorem offset_append_of_loose (h : op.rank = 0) (p : ℚ) (rest rest' : List (Operator × ℚ)) :
    offset (rest ++ (op, p) :: rest') = offset rest + offset ((op, p) :: rest') := by
  induction rest with
  | nil => rw [List.nil_append, offset, zero_add]
  | cons p' rest ih =>
    obtain ⟨o, q⟩ := p'
    have hfactor := factor_append_of_loose h p rest rest'
    cases o with
    | add =>
      rw [List.cons_append, offset, offset, ih, hfactor]
      ring
    | sub =>
      rw [List.cons_append, offset, offset, ih, hfactor]
      ring
    | mul => exact ih
    | div => exact ih

/-- A tight operator at the end of tight ones takes in one more number. -/
theorem value_concat_of_tight (hop : 0 < op.rank) (h : Tight rest) (q p : ℚ) :
    value ⟨q, rest ++ [(op, p)]⟩ = op.onRationals (value ⟨q, rest⟩) p := by
  have hconcat : Tight (rest ++ [(op, p)]) :=
    List.forall_mem_append.mpr ⟨h, List.forall_mem_singleton.mpr hop⟩
  rw [value_of_tight hconcat, value_of_tight h, factor_append_of_tight h]
  cases op with
  | add => exact absurd hop (Nat.lt_irrefl 0)
  | sub => exact absurd hop (Nat.lt_irrefl 0)
  | mul =>
    simp only [factor, Operator.onRationals]
    ring
  | div =>
    simp only [factor, Operator.onRationals]
    ring

/-- A loose operator combines what is before it with the tight operators after it. -/
theorem value_append_of_loose (hop : op.rank = 0) (h : Tight rest') (q p : ℚ)
    (rest : List (Operator × ℚ)) : value ⟨q, rest ++ (op, p) :: rest'⟩ =
      op.onRationals (value ⟨q, rest⟩) (value ⟨p, rest'⟩) := by
  rw [value_of_tight h, value, factor_append_of_loose hop, offset_append_of_loose hop, value]
  cases op with
  | add =>
    simp only [offset, offset_of_tight h, Operator.onRationals]
    ring
  | sub =>
    simp only [offset, offset_of_tight h, Operator.onRationals]
    ring
  | mul => cases hop
  | div => cases hop

end Append

end Flat

/-! ### Trees of the usual rules -/

namespace Arithmetic

/-- A tree that binds tight has tight operators only. -/
theorem tight_of_rank_pos {t : Arithmetic} (ht : t.Usual) (h : 0 < t.rank) : Tight t.flat.rest := by
  induction t with
  | number q => exact tight_nil
  | apply op l r ihl ihr =>
    obtain ⟨hl, hr, hlr, hrr⟩ := ht
    have hop : 0 < op.rank := h
    have hltight := ihl hl (by omega)
    have hrtight := ihr hr (by omega)
    intro p hp
    rcases List.mem_append.mp hp with hp | hp
    · exact hltight p hp
    · rcases List.mem_cons.mp hp with rfl | hp
      · exact hop
      · exact hrtight p hp

/-- Only a number binds tighter than all operators. -/
theorem eq_number_of_rank {t : Arithmetic} (h : 1 < t.rank) : ∃ q, t = number q := by
  cases t with
  | number q => exact ⟨q, rfl⟩
  | apply op l r => exact absurd h (Nat.not_lt.mpr op.rank_le)

theorem value_flat_number (q : ℚ) : (number q).flat.value = q :=
  (Flat.value_of_tight tight_nil q).trans (mul_one q)

/-- **A tree of the usual rules comes to what its flat expression does.** -/
theorem value_flat {t : Arithmetic} (ht : t.Usual) : t.flat.value = t.value := by
  induction t with
  | number q => exact value_flat_number q
  | apply op l r ihl ihr =>
    obtain ⟨hl, hr, hlr, hrr⟩ := ht
    rw [value, ← ihl hl, ← ihr hr]
    rcases Nat.eq_zero_or_pos op.rank with hop | hop
    · exact Flat.value_append_of_loose hop (tight_of_rank_pos hr (by omega)) _ _ _
    · obtain ⟨q, rfl⟩ := eq_number_of_rank (t := r) (by omega)
      rw [value_flat_number]
      exact Flat.value_concat_of_tight hop (tight_of_rank_pos hl (by omega)) _ q

/-- One more operator and number at the end of a tree of the usual rules. -/
theorem exists_usual_concat {t : Arithmetic} (ht : t.Usual) (op : Operator) (q : ℚ) :
    ∃ t' : Arithmetic, t'.Usual ∧ t'.flat = ⟨t.flat.first, t.flat.rest ++ [(op, q)]⟩ := by
  have hnumber : (number q).Usual := trivial
  have hq : op.rank < (number q).rank := Nat.lt_succ_of_le op.rank_le
  by_cases h : op.rank ≤ t.rank
  · exact ⟨apply op t (number q), ⟨ht, hnumber, h, hq⟩, rfl⟩
  · -- The operator is tight and the tree is loose: its right operand takes the number.
    cases t with
    | number p => exact absurd (Nat.le_of_lt hq) h
    | apply o l r =>
      obtain ⟨hl, hr, hlr, hrr⟩ := ht
      have hop := op.rank_le
      have ho : o.rank < op.rank := Nat.not_le.mp h
      have hright : (apply op r (number q)).Usual := ⟨hr, hnumber, by omega, hq⟩
      refine ⟨apply o l (apply op r (number q)), ⟨hl, hright, hlr, ho⟩, ?_⟩
      simp [flat]

/-- The usual rules put brackets into every flat expression. -/
theorem exists_usual (x : Flat) : ∃ t : Arithmetic, t.Usual ∧ t.flat = x := by
  obtain ⟨q, rest⟩ := x
  induction rest using List.reverseRecOn with
  | nil => exact ⟨number q, trivial, rfl⟩
  | append_singleton rest p ih =>
    obtain ⟨t, ht, hflat⟩ := ih
    obtain ⟨t', ht', hflat'⟩ := exists_usual_concat ht p.1 p.2
    rw [hflat] at hflat'
    exact ⟨t', ht', hflat'⟩

end Arithmetic

/-! ### Cutting at an operator -/

namespace Flat

/-- What is left of the first place of an operator, and the flat expressions after its places. -/
def cut (op : Operator) : List (Operator × ℚ) → List (Operator × ℚ) × List Flat
  | [] => ([], [])
  | (o, q) :: rest =>
    let (piece, more) := cut op rest
    if o = op then ([], ⟨q, piece⟩ :: more) else ((o, q) :: piece, more)

/-- The pieces between the places of an operator. -/
def pieces (op : Operator) (x : Flat) : Joined Flat :=
  ⟨⟨x.first, (cut op x.rest).1⟩, (cut op x.rest).2⟩

variable {op o : Operator} {q : ℚ} {rest : List (Operator × ℚ)}

theorem cut_of_eq (op : Operator) (q : ℚ) (rest : List (Operator × ℚ)) :
    cut op ((op, q) :: rest) = ([], ⟨q, (cut op rest).1⟩ :: (cut op rest).2) := by
  rw [cut]
  exact if_pos rfl

theorem cut_of_ne (h : o ≠ op) (q : ℚ) (rest : List (Operator × ℚ)) :
    cut op ((o, q) :: rest) = ((o, q) :: (cut op rest).1, (cut op rest).2) := by
  rw [cut]
  exact if_neg h

/-- What is left of the first place comes from the whole, and the operator is not in it. -/
theorem mem_cut_fst {p : Operator × ℚ} (h : p ∈ (cut op rest).1) : p ∈ rest ∧ p.1 ≠ op := by
  induction rest with
  | nil => exact absurd h List.not_mem_nil
  | cons p' rest ih =>
    obtain ⟨o, q⟩ := p'
    by_cases ho : o = op
    · rw [ho, cut_of_eq] at h
      exact absurd h List.not_mem_nil
    · rw [cut_of_ne ho] at h
      rcases List.mem_cons.mp h with rfl | h
      · exact ⟨List.mem_cons_self, ho⟩
      · exact ⟨List.mem_cons_of_mem _ (ih h).1, (ih h).2⟩

/-- So is each of the others; the number it begins with comes after the operator. -/
theorem mem_cut_snd {x : Flat} (h : x ∈ (cut op rest).2) :
    (op, x.first) ∈ rest ∧ ∀ p ∈ x.rest, p ∈ rest ∧ p.1 ≠ op := by
  induction rest with
  | nil => exact absurd h List.not_mem_nil
  | cons p' rest ih =>
    obtain ⟨o, q⟩ := p'
    have hmono : ((op, x.first) ∈ rest ∧ ∀ p ∈ x.rest, p ∈ rest ∧ p.1 ≠ op) →
        (op, x.first) ∈ (o, q) :: rest ∧ ∀ p ∈ x.rest, p ∈ (o, q) :: rest ∧ p.1 ≠ op :=
      fun hx => ⟨List.mem_cons_of_mem _ hx.1,
        fun p hp => ⟨List.mem_cons_of_mem _ (hx.2 p hp).1, (hx.2 p hp).2⟩⟩
    by_cases ho : o = op
    · rw [ho, cut_of_eq] at h
      rcases List.mem_cons.mp h with rfl | h
      · refine ⟨ho ▸ List.mem_cons_self, fun p hp => ?_⟩
        have hcut := mem_cut_fst hp
        exact ⟨List.mem_cons_of_mem _ hcut.1, hcut.2⟩
      · exact hmono (ih h)
    · rw [cut_of_ne ho] at h
      exact hmono (ih h)

/-- Where there is no `+`, the pieces between the places of `-` have tight operators only. -/
theorem tight_cut_sub (h : ∀ p ∈ rest, p.1 ∈ [Operator.sub, .mul, .div]) :
    Tight (cut .sub rest).1 := by
  intro p hp
  obtain ⟨hmem, hsub⟩ := mem_cut_fst hp
  exact Operator.rank_pos_iff.mpr ((List.mem_cons.mp (h p hmem)).resolve_left hsub)

theorem tight_cut_mul (h : ∀ p ∈ rest, p.1 ∈ [Operator.mul, .div]) : Tight (cut .mul rest).1 :=
  fun p hp => Operator.rank_pos_iff.mpr (h p (mem_cut_fst hp).1)

end Flat

/-! ### The pieces come to the whole -/

/-- A number with the others after one operator, exactly. -/
def Operator.total : Operator → ℚ → List ℚ → ℚ
  | add, q, qs => q + qs.sum
  | sub, q, qs => q - qs.sum
  | mul, q, qs => q * qs.prod
  | div, q, qs => q / qs.prod

namespace Flat

/-- Cut at `+`: the offset adds up what comes after it. -/
theorem cut_add (rest : List (Operator × ℚ)) : factor (cut .add rest).1 = factor rest ∧
    offset (cut .add rest).1 + ((cut .add rest).2.map value).sum = offset rest := by
  induction rest with
  | nil => exact ⟨rfl, add_zero _⟩
  | cons p rest ih =>
    obtain ⟨o, q⟩ := p
    obtain ⟨hfactor, hoffset⟩ := ih
    by_cases ho : o = .add
    · rw [ho, cut_of_eq]
      refine ⟨rfl, ?_⟩
      simp only [List.map_cons, List.sum_cons, value, offset, hfactor, ← hoffset]
      ring
    · rw [cut_of_ne ho]
      cases o with
      | add => exact absurd rfl ho
      | sub =>
        refine ⟨rfl, ?_⟩
        simp only [offset, hfactor, ← hoffset]
        ring
      | mul => exact ⟨by simp only [factor, hfactor], hoffset⟩
      | div => exact ⟨by simp only [factor, hfactor], hoffset⟩

/-- Cut at `-` where there is no `+`: the offset takes away what comes after it. -/
theorem cut_sub {rest : List (Operator × ℚ)} (h : ∀ p ∈ rest, p.1 ∈ [Operator.sub, .mul, .div]) :
    factor (cut .sub rest).1 = factor rest ∧
      -((cut .sub rest).2.map value).sum = offset rest := by
  induction rest with
  | nil => exact ⟨rfl, neg_zero⟩
  | cons p rest ih =>
    obtain ⟨o, q⟩ := p
    obtain ⟨(hmem : o ∈ [Operator.sub, .mul, .div]), hrest⟩ := List.forall_mem_cons.mp h
    obtain ⟨hfactor, hoffset⟩ := ih hrest
    have htight := tight_cut_sub hrest
    by_cases ho : o = .sub
    · rw [ho, cut_of_eq]
      refine ⟨rfl, ?_⟩
      simp only [List.map_cons, List.sum_cons, value_of_tight htight, offset, hfactor, ← hoffset]
      ring
    · rw [cut_of_ne ho]
      cases o with
      | add => exact absurd hmem (by decide)
      | sub => exact absurd rfl ho
      | mul => exact ⟨by simp only [factor, hfactor], hoffset⟩
      | div => exact ⟨by simp only [factor, hfactor], hoffset⟩

/-- Cut at `*` where there is no `+` and no `-`: the factor is made up of what comes after it. -/
theorem cut_mul {rest : List (Operator × ℚ)} (h : ∀ p ∈ rest, p.1 ∈ [Operator.mul, .div]) :
    factor (cut .mul rest).1 * ((cut .mul rest).2.map value).prod = factor rest := by
  induction rest with
  | nil => exact mul_one _
  | cons p rest ih =>
    obtain ⟨o, q⟩ := p
    obtain ⟨(hmem : o ∈ [Operator.mul, .div]), hrest⟩ := List.forall_mem_cons.mp h
    have hfactor := ih hrest
    have htight := tight_cut_mul hrest
    by_cases ho : o = .mul
    · rw [ho, cut_of_eq]
      simp only [List.map_cons, List.prod_cons, value_of_tight htight, factor, ← hfactor]
      ring
    · rw [cut_of_ne ho]
      cases o with
      | add => exact absurd hmem (by decide)
      | sub => exact absurd hmem (by decide)
      | mul => exact absurd rfl ho
      | div => simp only [factor, ← hfactor, mul_assoc]

/-- Cut at `/` where there is nothing else: all that is left is numbers, which the factor divides
by. -/
theorem cut_div {rest : List (Operator × ℚ)} (h : ∀ p ∈ rest, p.1 ∈ [Operator.div]) :
    (cut .div rest).1 = [] ∧ (((cut .div rest).2.map value).prod)⁻¹ = factor rest := by
  induction rest with
  | nil => exact ⟨rfl, inv_one⟩
  | cons p rest ih =>
    obtain ⟨o, q⟩ := p
    obtain ⟨hmem, hrest⟩ := List.forall_mem_cons.mp h
    obtain rfl : o = .div := List.mem_singleton.mp hmem
    obtain ⟨hpiece, hfactor⟩ := ih hrest
    rw [cut_of_eq, hpiece]
    refine ⟨rfl, ?_⟩
    have hq : value ⟨q, []⟩ = q := Arithmetic.value_flat_number q
    rw [List.map_cons, List.prod_cons, hq, factor, ← hfactor, mul_inv]

/-- **The pieces come to the whole**, if the operators are those of a level of evaluation. -/
theorem total_pieces {op : Operator} {ops : List Operator} (hops : op :: ops <:+ Operator.all)
    (x : Flat) (h : ∀ p ∈ x.rest, p.1 ∈ op :: ops) :
    op.total (x.pieces op).first.value ((x.pieces op).others.map value) = x.value := by
  obtain ⟨q, rest⟩ := x
  rcases Operator.suffix_all hops with ⟨rfl, rfl⟩ | ⟨rfl, rfl⟩ | ⟨rfl, rfl⟩ | ⟨rfl, rfl⟩
  · obtain ⟨hfactor, hoffset⟩ := cut_add rest
    simp only [pieces, Operator.total, value, hfactor, ← hoffset]
    ring
  · obtain ⟨hfactor, hoffset⟩ := cut_sub h
    simp only [pieces, Operator.total, value_of_tight (tight_cut_sub h), hfactor]
    rw [value, ← hoffset]
    ring
  · have htight : Tight rest := fun p hp => Operator.rank_pos_iff.mpr (h p hp)
    simp only [pieces, Operator.total, value_of_tight (tight_cut_mul h), value_of_tight htight,
      ← cut_mul h]
    ring
  · have htight : Tight rest :=
      fun p hp => Operator.rank_pos_iff.mpr (List.mem_cons_of_mem _ (h p hp))
    obtain ⟨hpiece, hfactor⟩ := cut_div h
    have hq : value ⟨q, []⟩ = q := Arithmetic.value_flat_number q
    simp only [pieces, hpiece, hq, Operator.total, value_of_tight htight, ← hfactor,
      div_eq_mul_inv]

/-- Where there is only `/`, the others are the divisors. -/
theorem pieces_div {x y : Flat} (h : ∀ p ∈ x.rest, p.1 ∈ [Operator.div])
    (hy : y ∈ (x.pieces .div).others) : (.div, y.first) ∈ x.rest ∧ y.value = y.first := by
  obtain ⟨p, rest⟩ := y
  obtain ⟨hmem, hpiece⟩ := mem_cut_snd hy
  have hnil : rest = [] := by
    refine List.eq_nil_iff_forall_not_mem.mpr fun r hr => ?_
    exact (hpiece r hr).2 (List.mem_singleton.mp (h r (hpiece r hr).1))
  subst hnil
  exact ⟨hmem, Arithmetic.value_flat_number p⟩

end Flat

/-! ### Evaluation -/

theorem readsNumerals_exact : ReadsNumerals Exact := by
  intro t ht
  show Exact.isNumber (Exact.read t) = false
  rw [Exact.read, ht]
  rfl

/-- A rational number as a value. -/
def exact (q : ℚ) : Value Exact := .number (.rational q)

/-- The operation of exact numbers. -/
def Operator.onExact : Operator → Exact → Exact → Exact
  | add => (· + ·)
  | sub => (· - ·)
  | mul => (· * ·)
  | div => (· / ·)

theorem Operator.onExact_rational (op : Operator) (q p : ℚ) (h : op = div → p ≠ 0) :
    op.onExact (.rational q) (.rational p) = .rational (op.onRationals q p) := by
  cases op with
  | add => rfl
  | sub => rfl
  | mul => rfl
  | div => exact if_neg (h rfl)

theorem Operator.total_cons (op : Operator) (q p : ℚ) (qs : List ℚ) :
    op.total q (p :: qs) = op.total (op.onRationals q p) qs := by
  cases op with
  | add => simp only [total, onRationals, List.sum_cons, add_assoc]
  | sub => simp only [total, onRationals, List.sum_cons, sub_sub]
  | mul => simp only [total, onRationals, List.prod_cons, mul_assoc]
  | div => simp only [total, onRationals, List.prod_cons, div_div]

/-- Rational numbers taken in one after the other. -/
theorem foldl_onExact (op : Operator) (q : ℚ) (qs : List ℚ) (h : op = .div → ∀ p ∈ qs, p ≠ 0) :
    (qs.map exact).foldl (fun n w => op.onExact n w.toNumber) (.rational q) =
      .rational (op.total q qs) := by
  induction qs generalizing q with
  | nil => cases op <;> simp [Operator.total]
  | cons p qs ih =>
    have hp : op = .div → p ≠ 0 := fun hop => h hop p List.mem_cons_self
    have hqs : op = .div → ∀ p ∈ qs, p ≠ 0 := fun hop p hp => h hop p (List.mem_cons_of_mem _ hp)
    have hstep : op.onExact (.rational q) (exact p).toNumber = .rational (op.onRationals q p) :=
      op.onExact_rational q p hp
    rw [List.map_cons, List.foldl_cons, hstep, ih _ hqs, op.total_cons]

/-- **What rational numbers come to**: there is no error and no text. -/
theorem result_exact (op : Operator) (q p : ℚ) (qs : List ℚ)
    (h : op = .div → ∀ w ∈ p :: qs, w ≠ 0) :
    op.result (exact q) (exact p) (qs.map exact) = .ok (exact (op.total q (p :: qs))) := by
  have hall : ((q :: p :: qs).map exact).all Value.isNumberLike = true := by
    rw [List.all_map]
    exact List.all_eq_true.mpr fun _ _ => rfl
  have hok : ∀ {n m : Exact}, n = m →
      (.ok (.number n) : Except EvalError (Value Exact)) = .ok (.number m) := fun h => by rw [h]
  have hrest := foldl_onExact op q (p :: qs) h
  cases op with
  | add =>
    have hfold := foldl_onExact .add 0 (q :: p :: qs) nofun
    have hzero : Operator.add.onRationals 0 q = q := zero_add q
    rw [Operator.total_cons, hzero] at hfold
    exact (if_pos hall).trans (hok hfold)
  | sub => exact (if_pos hall).trans (hok hrest)
  | mul =>
    have hfold := foldl_onExact .mul 1 (q :: p :: qs) nofun
    have hone : Operator.mul.onRationals 1 q = q := one_mul q
    rw [Operator.total_cons, hone] at hfold
    exact hok hfold
  | div =>
    have hp : (p == 0) = false := beq_eq_false_iff_ne.mpr (h rfl p List.mem_cons_self)
    exact (if_neg (Bool.eq_false_iff.mp hp)).trans (hok hrest)

/-- The value of a flat expression as evaluation gives it. -/
def Flat.outcome (x : Flat) : Except EvalError (Value Exact) := .ok (exact x.value)

/-- The flat expression is written like this, with these operators only, and no divisor is zero. -/
structure Flat.Written (s : Scope Exact) (ops : List Operator) (x : Flat) (e : Text) : Prop where
  renders : x.Renders s e
  operators : ∀ p ∈ x.rest, p.1 ∈ ops
  divisors : x.DivisorsNonzero

theorem Joined.value_exact (op : Operator) {α : Type} (v : α → ℚ) (x : Joined α)
    (h : op = .div → ∀ y ∈ x.others, v y ≠ 0) :
    Joined.value op (fun y => .ok (exact (v y))) x =
      .ok (exact (op.total (v x.first) (x.others.map v))) := by
  have hmapM : ∀ ys : List α, ys.mapM (fun y => .ok (exact (v y))) =
      (.ok ((ys.map v).map exact) : Except EvalError (List (Value Exact))) := by
    intro ys
    induction ys with
    | nil => rfl
    | cons y ys ih =>
      rw [List.mapM_cons, ih]
      rfl
  obtain ⟨x, ys⟩ := x
  cases ys with
  | nil => cases op <;> simp [Joined.value, Operator.total]
  | cons y ys =>
    have hdiv : op = .div → ∀ w ∈ (y :: ys).map v, w ≠ 0 := by
      intro hop w hw
      obtain ⟨y', hy', rfl⟩ := List.mem_map.mp hw
      exact h hop y' hy'
    have hresult := result_exact op (v x) (v y) (ys.map v) hdiv
    rw [Joined.value, hmapM]
    exact hresult

variable {s : Scope Exact}

/-- A text before the first operand. -/
theorem Spaced.prepend {α : Type} {op : Operator} {R : α → Text → Prop} {x x' : α} {ys : List α}
    {front e : Text} (h : Spaced op R ⟨x, ys⟩ e) (hx : ∀ e, R x e → R x' (front ++ e)) :
    Spaced op R ⟨x', ys⟩ (front ++ e) := by
  cases h with
  | one h => exact .one (hx _ h)
  | more h hne hl hne' hr hrest =>
    rw [← List.append_assoc]
    exact .more (hx _ h) hne hl hne' hr hrest

/-- A flat expression is written as its pieces are, with the operator between them. -/
theorem spaced_pieces {op : Operator} {ops : List Operator} {x : Flat} {e : Text}
    (h : x.Written s (op :: ops) e) : Spaced op (Flat.Written s ops) (x.pieces op) e := by
  obtain ⟨hrenders, hops, hdiv⟩ := h
  induction hrenders with
  | one hq => exact .one ⟨.one hq, nofun, nofun⟩
  | @more q p rest t e left right o hq hne hl hne' hr hrest ih =>
    have hrest' := ih (fun p hp => hops p (List.mem_cons_of_mem _ hp))
      (fun p hp => hdiv p (List.mem_cons_of_mem _ hp))
    by_cases ho : o = op
    · subst ho
      rw [Flat.pieces, Flat.cut_of_eq]
      exact .more ⟨.one hq, nofun, nofun⟩ hne hl hne' hr hrest'
    · have hfront : t ++ (left ++ o.symbol :: (right ++ e)) =
          (t ++ (left ++ o.symbol :: right)) ++ e := by simp
      have ho' : o ∈ ops := (List.mem_cons.mp (hops _ List.mem_cons_self)).resolve_left ho
      rw [Flat.pieces, Flat.cut_of_ne ho, hfront]
      refine hrest'.prepend fun e' hpiece => ?_
      have hwritten := Flat.Renders.more o hq hne hl hne' hr hpiece.renders
      have hfront' : t ++ (left ++ o.symbol :: (right ++ e')) =
          (t ++ (left ++ o.symbol :: right)) ++ e' := by simp
      rw [hfront'] at hwritten
      exact ⟨hwritten, List.forall_mem_cons.mpr ⟨ho', hpiece.operators⟩,
        List.forall_mem_cons.mpr ⟨hdiv _ List.mem_cons_self, hpiece.divisors⟩⟩

/-- An atom that stands for a number is evaluated to it. -/
theorem Stands.exists_atom {t : Text} {q : ℚ} (h : Stands s t q) :
    ∃ a : Atom, a.Renders t ∧ a.value s = .ok (exact q) := by
  cases h with
  | bound hword hread =>
    refine ⟨.word t hword, rfl, ?_⟩
    rw [Atom.value, bareValue_eq, hread]
    rfl
  | literal hnumeral hnone hread =>
    have hq : (Expression.numeral? t : Option Exact) = some (.rational q) := by
      show (if (Exact.read t).isNumber then some (Exact.read t) else none) = some (.rational q)
      rw [hread]
      rfl
    refine ⟨.numeral t hnumeral, rfl, ?_⟩
    rw [Atom.value, bareValue_eq, hnone, hq]
    rfl

theorem Level.of_exists {α β : Type} {ops : List Operator} {R : α → Text → Prop}
    {R' : β → Text → Prop} {value : α → Except EvalError (Value Exact)}
    {value' : β → Except EvalError (Value Exact)} (hL : Level s ops R value)
    (h : ∀ y e, R' y e → ∃ x, R x e ∧ value x = value' y) : Level s ops R' value' where
  tidy y e hy := by
    obtain ⟨x, hx, -⟩ := h y e hy
    exact hL.tidy x e hx
  operand y t hy := by
    obtain ⟨x, hx, hvalue⟩ := h y t.trim hy
    rw [hL.operand x t hx, hvalue]

/-- **Every level of evaluation, exactly.** -/
theorem level_written (hs : s.BindsUncut) {ops : List Operator} (h : ops <:+ Operator.all) :
    Level s ops (Flat.Written s ops) Flat.outcome := by
  induction ops with
  | nil =>
    refine (level_atoms s).of_exists fun x e hx => ?_
    obtain ⟨hrenders, hops, -⟩ := hx
    cases hrenders with
    | one hq =>
      obtain ⟨a, ha, hvalue⟩ := hq.exists_atom
      refine ⟨a, ha, ?_⟩
      rw [hvalue, Flat.outcome, Flat.value_of_tight tight_nil]
      show Except.ok (exact _) = .ok (exact (_ * 1))
      rw [mul_one]
    | more o => exact absurd (hops _ List.mem_cons_self) List.not_mem_nil
  | cons op ops ih =>
    have hlevel := ih ((List.suffix_cons op ops).trans h)
    have hop : op ∉ ops := by
      rcases Operator.suffix_all h with ⟨rfl, rfl⟩ | ⟨rfl, rfl⟩ | ⟨rfl, rfl⟩ | ⟨rfl, rfl⟩ <;> decide
    refine (hlevel.joined op hs readsNumerals_exact hop).of_exists fun x e hx => ?_
    refine ⟨x.pieces op, spaced_pieces hx, ?_⟩
    have hdiv : op = .div → ∀ y ∈ (x.pieces op).others, y.value ≠ 0 := by
      rintro rfl y hy
      have hnil : ops = [] := by simpa using Operator.suffix_all h
      obtain ⟨hmem, hvalue⟩ := Flat.pieces_div (hnil ▸ hx.operators) hy
      rw [hvalue]
      exact hx.divisors _ hmem rfl
    rw [Flat.outcome, ← Flat.total_pieces h x hx.operators]
    exact Joined.value_exact op Flat.value (x.pieces op) hdiv

/-- **Evaluation agrees with the usual rules of arithmetic.** A flat expression of words bound to
numbers and of unsigned numerals, in which nothing is divided by zero, is evaluated without rounding
to the value of its tree by the usual rules: there is one, and every such tree gives that value. -/
theorem evaluate_flat (s : Scope Exact) (hs : s.BindsUncut) (x : Flat) (e : Text)
    (h : x.Renders s e) (hd : x.DivisorsNonzero) :
    (∃ t : Arithmetic, t.Usual ∧ t.flat = x) ∧
      ∀ t : Arithmetic, t.Usual → t.flat = x →
        evaluate s e = .ok (.number (.rational t.value)) := by
  refine ⟨Arithmetic.exists_usual x, fun t ht hflat => ?_⟩
  have hwritten : x.Written s Operator.all e := ⟨h, fun p _ => p.1.mem_all, hd⟩
  have hvalue := (level_written hs List.suffix_rfl).evaluate_eq hwritten
  rw [hvalue, ← Arithmetic.value_flat ht, hflat]
  rfl

/-- A scope that binds a negative number. -/
def owing : Scope Exact := Scope.empty.write "x".toList (exact (-3 / 2))

theorem bindsUncut_owing : owing.BindsUncut := by
  intro name v hv
  rw [owing, Scope.read?_write] at hv
  split_ifs at hv with hname
  · rw [hname]
    decide
  · cases hv

/-- The usual brackets of `x - 1.5 * 2 / 2 + 1.5`. -/
def bracketed : Arithmetic :=
  .apply .add
    (.apply .sub (.number (-3 / 2))
      (.apply .div (.apply .mul (.number (3 / 2)) (.number 2)) (.number 2)))
    (.number (3 / 2))

theorem renders_bracketed : bracketed.flat.Renders owing "x - 1.5 * 2 / 2 + 1.5".toList := by
  have hspace : ∀ c ∈ [' '], isBlank c = true := List.forall_mem_singleton.mpr Text.isBlank_space
  have hx : Stands owing "x".toList (-3 / 2) := .bound (.of_all (by decide) (by decide)) rfl
  have htwo : Stands owing "2".toList 2 :=
    .literal ⟨by decide, by decide, by decide, by decide⟩ (by decide) (by decide +kernel)
  have hpoint : Stands owing "1.5".toList (3 / 2) :=
    .literal ⟨by decide, by decide, by decide, by decide⟩ (by decide) (by decide +kernel)
  have hadd := Flat.Renders.more .add htwo (by simp) hspace (by simp) hspace (.one hpoint)
  have hdiv := Flat.Renders.more .div htwo (by simp) hspace (by simp) hspace hadd
  have hmul := Flat.Renders.more .mul hpoint (by simp) hspace (by simp) hspace hdiv
  exact Flat.Renders.more .sub hx (by simp) hspace (by simp) hspace hmul

theorem evaluate_flat_bracketed : bracketed.flat.Renders owing "x - 1.5 * 2 / 2 + 1.5".toList ∧
    evaluate owing "x - 1.5 * 2 / 2 + 1.5".toList = .ok (exact (-3 / 2)) := by
  have hdivisors : bracketed.flat.DivisorsNonzero := by
    show ∀ p ∈ bracketed.flat.rest, p.1 = .div → p.2 ≠ 0
    decide +kernel
  have husual : bracketed.Usual := by
    simp [bracketed, Arithmetic.Usual, Arithmetic.rank, Operator.rank]
  have hvalue : bracketed.value = -3 / 2 := by decide +kernel
  have hagree := evaluate_flat owing bindsUncut_owing bracketed.flat _ renders_bracketed hdivisors
  refine ⟨renders_bracketed, ?_⟩
  rw [hagree.2 bracketed husual rfl, hvalue]
  rfl

end LessonScript
