import LessonScript.Value
import Mathlib.Tactic.SplitIfs

/-! # Comparing values

All six comparisons of two values are decided by one order (`holds_eq_admits`): the order of two
texts, or of two numbers, or no order if one of two values that are not both texts is not a number.
The order of texts is total, and texts of equal rank are identical, because a text is determined by
its 16-bit units (`units_injective`).

Main statement: `comparisons_coherent`. -/

namespace LessonScript

/-! ### Texts -/

namespace Text

/-- The units of a surrogate pair are no characters. -/
theorem not_surrogate (c : Char) : c.toNat < 0xD800 ∨ 0xDFFF < c.toNat ∧ c.toNat < 0x110000 :=
  c.valid

/-- Where the units of two texts agree, their first characters do. -/
theorem charUnits_append_inj {c d : Char} {us vs : List Nat}
    (h : charUnits c ++ us = charUnits d ++ vs) : c = d ∧ us = vs := by
  have hc := not_surrogate c
  have hd := not_surrogate d
  unfold charUnits at h
  split_ifs at h with hcl hdl hdl
  · obtain ⟨hn, hus⟩ := List.cons.inj h
    exact ⟨Char.toNat_inj.mp hn, hus⟩
  · have hn := (List.cons.inj h).1
    omega
  · have hn := (List.cons.inj h).1
    omega
  · obtain ⟨hhigh, hrest⟩ := List.cons.inj h
    obtain ⟨hlow, hus⟩ := List.cons.inj hrest
    exact ⟨Char.toNat_inj.mp (by omega), hus⟩

/-- **A text is determined by its units.** -/
theorem units_injective {s t : Text} (h : units s = units t) : s = t := by
  have hne : ∀ (c : Char) (u : Text), units (c :: u) ≠ [] := by
    intro c u hnil
    rw [units, List.flatMap_cons, charUnits] at hnil
    split_ifs at hnil <;> cases hnil
  induction s generalizing t with
  | nil =>
    cases t with
    | nil => rfl
    | cons d t => exact absurd h.symm (hne d t)
  | cons c s ih =>
    cases t with
    | nil => exact absurd h (hne c s)
    | cons d t =>
      have hunits : charUnits c ++ units s = charUnits d ++ units t := h
      obtain ⟨rfl, hst⟩ := charUnits_append_inj hunits
      rw [ih hst]

/-- The order of texts is that of lists, so it is total and transitive. -/
instance : Std.TransCmp compareUnits where
  eq_swap := Std.OrientedOrd.eq_swap
  isLE_trans := Std.TransOrd.isLE_trans

instance : Std.LawfulEqCmp compareUnits where
  compare_self := Std.ReflOrd.compare_self
  eq_of_compare h := units_injective (Std.LawfulEqOrd.eq_of_compare h)

end Text

/-! ### Numbers -/

namespace Binary64

open Float.Model

theorem compare_sign_swap (s s' : UnpackedFloat.Sign) : compare s' s = (compare s s').swap := by
  cases s <;> cases s' <;> rfl

theorem compare_finite_swap (e e' : Int) (m m' : Nat) :
    (compare e' e).then (compare m' m) = ((compare e e').then (compare m m')).swap := by
  rw [Ordering.swap_then, Int.compare_swap, Nat.compare_swap]

/-- Numbers compared the other way round have the reverse order. -/
theorem compare_unpacked_swap (u v : UnpackedFloat) :
    v.compare u = (u.compare v).map Ordering.swap := by
  cases u with
  | notANumber => cases v <;> rfl
  | infinity s =>
    cases v with
    | infinity s' => exact congrArg some (compare_sign_swap s s')
    | notANumber | zero | finite => cases s <;> rfl
  | zero s =>
    cases v with
    | notANumber | zero => rfl
    | infinity s' | finite s' => cases s' <;> rfl
  | finite s m e =>
    cases v with
    | notANumber => rfl
    | infinity s' => cases s' <;> rfl
    | zero => cases s <;> rfl
    | finite s' m' e' =>
      cases s <;> cases s'
      · exact congrArg some (congrArg Ordering.swap (compare_finite_swap e e' m m'))
      · rfl
      · rfl
      · exact congrArg some (compare_finite_swap e e' m m')

/-- Only what is not a number has no order. -/
theorem compare_unpacked_eq_none_iff (u v : UnpackedFloat) :
    u.compare v = none ↔ u.isNaN = true ∨ v.isNaN = true := by
  -- neither of them being the one that is not a number, the order is computed
  have hordered : ∀ {o : Ordering}, some o = none ↔ false = true ∨ false = true := by simp
  cases u with
  | notANumber => exact ⟨fun _ => .inl rfl, fun _ => by cases v <;> rfl⟩
  | infinity s =>
    cases v with
    | notANumber => exact ⟨fun _ => .inr rfl, fun _ => rfl⟩
    | infinity | zero | finite => cases s <;> exact hordered
  | zero s =>
    cases v with
    | notANumber => exact ⟨fun _ => .inr rfl, fun _ => rfl⟩
    | infinity s' | finite s' => cases s' <;> exact hordered
    | zero => exact hordered
  | finite s m e =>
    cases v with
    | notANumber => exact ⟨fun _ => .inr rfl, fun _ => rfl⟩
    | infinity s' | finite s' => cases s <;> cases s' <;> exact hordered
    | zero => cases s <;> exact hordered

section Order

variable (x y : Float)

theorem lt_iff_compare_unpacked :
    x < y ↔ x.toModel.unpack.compare y.toModel.unpack = some .lt := by
  show decide (x.toModel < y.toModel) = true ↔ _
  rw [decide_eq_true_eq]
  show (x.toModel.unpack.compare y.toModel.unpack == some .lt) = true ↔ _
  rw [beq_iff_eq]

theorem beq_iff_compare_unpacked :
    (x == y) = true ↔ x.toModel.unpack.compare y.toModel.unpack = some .eq := by
  show (x.toModel.unpack.compare y.toModel.unpack == some .eq) = true ↔ _
  rw [beq_iff_eq]

/-- The order found by trying the three relations one after the other. -/
theorem compare?_eq : compare? x y = x.toModel.unpack.compare y.toModel.unpack := by
  have hgt : y < x ↔ x.toModel.unpack.compare y.toModel.unpack = some .gt := by
    rw [lt_iff_compare_unpacked, compare_unpacked_swap]
    rcases x.toModel.unpack.compare y.toModel.unpack with _ | _ | _ | _ <;> simp
  unfold compare?
  simp only [lt_iff_compare_unpacked x y, beq_iff_compare_unpacked, hgt]
  rcases x.toModel.unpack.compare y.toModel.unpack with _ | _ | _ | _ <;> rfl

theorem compare?_swap : compare? y x = (compare? x y).map Ordering.swap := by
  rw [compare?_eq, compare?_eq, compare_unpacked_swap]

theorem compare?_eq_none_iff : compare? x y = none ↔ x.isNaN = true ∨ y.isNaN = true := by
  rw [compare?_eq]
  exact compare_unpacked_eq_none_iff _ _

theorem beq_iff_compare? : (x == y) = true ↔ compare? x y = some .eq := by
  rw [beq_iff_compare_unpacked, compare?_eq]

end Order

end Binary64

/-! ### Values -/

namespace Value

def isText {ν : Type} : Value ν → Bool
  | number _ => false
  | text _ => true

section Pair

variable (a b : Value Float)

/-- Two values are compared as texts, or else both ways as numbers. -/
theorem texts_or_numbers :
    (∃ s t, a = text s ∧ b = text t) ∨
      ¬ (a.isText = true ∧ b.isText = true) ∧
        a.compare? b = Binary64.compare? a.toNumber b.toNumber ∧
        b.compare? a = Binary64.compare? b.toNumber a.toNumber ∧
        a.looseEq b = (a.toNumber == b.toNumber) := by
  cases a with
  | number x =>
    refine .inr ⟨fun h => (by cases h.1), ?_⟩
    cases b <;> exact ⟨rfl, rfl, rfl⟩
  | text s =>
    cases b with
    | number y => exact .inr ⟨fun h => (by cases h.2), rfl, rfl, rfl⟩
    | text t => exact .inl ⟨s, t, rfl, rfl⟩

theorem compare?_text (s t : Text) :
    (text s : Value Float).compare? (text t) = some (Text.compareUnits s t) := rfl

/-- **Equality agrees with the order.** -/
theorem looseEq_iff : a.looseEq b = true ↔ a.compare? b = some .eq := by
  obtain ⟨s, t, rfl, rfl⟩ | ⟨-, hcompare, -, heq⟩ := texts_or_numbers a b
  · rw [compare?_text, Option.some.injEq, Std.LawfulEqCmp.compare_eq_iff_eq]
    exact beq_iff_eq
  · rw [heq, hcompare, Binary64.beq_iff_compare?]

theorem compare?_swap : b.compare? a = (a.compare? b).map Ordering.swap := by
  obtain ⟨s, t, rfl, rfl⟩ | ⟨-, hab, hba, -⟩ := texts_or_numbers a b
  · exact congrArg some Std.OrientedCmp.eq_swap
  · rw [hab, hba, Binary64.compare?_swap]

theorem compare?_eq_none_iff : a.compare? b = none ↔
    ¬ (a.isText = true ∧ b.isText = true) ∧
      (a.toNumber.isNaN = true ∨ b.toNumber.isNaN = true) := by
  obtain ⟨s, t, rfl, rfl⟩ | ⟨hne, hab, -, -⟩ := texts_or_numbers a b
  · exact ⟨fun h => (by cases h), fun h => absurd ⟨rfl, rfl⟩ h.1⟩
  · rw [hab, Binary64.compare?_eq_none_iff, and_iff_right hne]

end Pair

end Value

/-! ### Comparisons -/

namespace CompareOp

/-- The comparison holds of two values in the given order, or without one. -/
def admits (op : CompareOp) (order : Option Ordering) : Bool :=
  match op with
  | ge => order == some .gt || order == some .eq
  | le => order == some .lt || order == some .eq
  | eq => order == some .eq
  | ne => !(order == some .eq)
  | gt => order == some .gt
  | lt => order == some .lt

/-- The comparison of the same two values the other way round. -/
def mirror : CompareOp → CompareOp
  | ge => le
  | le => ge
  | eq => eq
  | ne => ne
  | gt => lt
  | lt => gt

/-- The comparisons of which one holds of two values in order. -/
def strict : List CompareOp := [lt, eq, gt]

/-- **The order of two values decides all comparisons.** -/
theorem holds_eq_admits (op : CompareOp) (a b : Value Float) :
    op.holds a b = op.admits (a.compare? b) := by
  have heq : a.looseEq b = (a.compare? b == some .eq) := by
    rw [Bool.eq_iff_iff, Value.looseEq_iff, beq_iff_eq]
  cases op with
  | eq => exact heq
  | ne => exact congrArg not heq
  | ge | le | gt | lt => rfl

theorem admits_mirror (op : CompareOp) (order : Option Ordering) :
    op.mirror.admits (order.map Ordering.swap) = op.admits order := by
  cases op <;> rcases order with _ | _ | _ | _ <;> rfl

theorem holds_mirror (op : CompareOp) (a b : Value Float) :
    op.mirror.holds b a = op.holds a b := by
  rw [holds_eq_admits, holds_eq_admits, Value.compare?_swap a b, admits_mirror]

theorem eq_of_admits {order : Option Ordering} :
    ∀ op ∈ strict, ∀ op' ∈ strict, op.admits order = true → op'.admits order = true → op = op' := by
  rcases order with _ | _ | _ | _ <;> decide

theorem exists_admits_iff {order : Option Ordering} :
    (∃ op ∈ strict, op.admits order = true) ↔ order ≠ none := by
  rcases order with _ | _ | _ | _ <;> decide

end CompareOp

/-! ### Comparing texts -/

section Texts

variable (s t u : Text)

theorem holds_le_text :
    CompareOp.le.holds (.text s : Value Float) (.text t) = true ↔
      (Text.compareUnits s t).isLE = true := by
  rw [CompareOp.holds_eq_admits, Value.compare?_text]
  rcases Text.compareUnits s t with _ | _ | _ <;> decide

theorem holds_lt_text :
    CompareOp.lt.holds (.text s : Value Float) (.text t) = true ↔ Text.compareUnits s t = .lt := by
  rw [CompareOp.holds_eq_admits, Value.compare?_text]
  rcases Text.compareUnits s t with _ | _ | _ <;> decide

theorem isLE_total : (Text.compareUnits s t).isLE = true ∨ (Text.compareUnits t s).isLE = true := by
  have hswap : Text.compareUnits t s = (Text.compareUnits s t).swap := Std.OrientedCmp.eq_swap
  rw [hswap]
  rcases Text.compareUnits s t with _ | _ | _ <;> decide

end Texts

/-- **The comparisons of values form one coherent system.** Equality agrees with the order, which is
reversed when the values are exchanged, and is missing exactly if the values are not both texts and
one of them is not a number. So at most one of `<`, `==` and `>` holds, and one does if there is an
order; the other three are `>` or `==`, `<` or `==`, and not `==`; and every comparison is its
mirror image of the values exchanged. Texts have a total order, in which only identical ones are
equal. -/
theorem comparisons_coherent :
    (∀ a b : Value Float,
      (a.looseEq b = true ↔ a.compare? b = some .eq) ∧
      b.compare? a = (a.compare? b).map Ordering.swap ∧
      (a.compare? b = none ↔ ¬ (a.isText = true ∧ b.isText = true) ∧
        (a.toNumber.isNaN = true ∨ b.toNumber.isNaN = true)) ∧
      (∀ op ∈ CompareOp.strict, ∀ op' ∈ CompareOp.strict,
        op.holds a b = true → op'.holds a b = true → op = op') ∧
      ((∃ op ∈ CompareOp.strict, op.holds a b = true) ↔ a.compare? b ≠ none) ∧
      CompareOp.ge.holds a b = (CompareOp.gt.holds a b || CompareOp.eq.holds a b) ∧
      CompareOp.le.holds a b = (CompareOp.lt.holds a b || CompareOp.eq.holds a b) ∧
      CompareOp.ne.holds a b = !CompareOp.eq.holds a b ∧
      ∀ op : CompareOp, op.holds a b = op.mirror.holds b a) ∧
    ∀ s t u : Text,
      ((.text s : Value Float).compare? (.text t) = some .eq ↔ s = t) ∧
      (CompareOp.le.holds (.text s : Value Float) (.text t) = true ∨
        CompareOp.le.holds (.text t : Value Float) (.text s) = true) ∧
      (CompareOp.le.holds (.text s : Value Float) (.text t) = true →
        CompareOp.le.holds (.text t : Value Float) (.text u) = true →
          CompareOp.le.holds (.text s : Value Float) (.text u) = true) ∧
      (CompareOp.lt.holds (.text s : Value Float) (.text t) = true →
        CompareOp.lt.holds (.text t : Value Float) (.text u) = true →
          CompareOp.lt.holds (.text s : Value Float) (.text u) = true) := by
  refine ⟨fun a b => ⟨Value.looseEq_iff a b, Value.compare?_swap a b,
    Value.compare?_eq_none_iff a b, ?_, ?_, ?_, ?_, ?_, fun op => (op.holds_mirror a b).symm⟩,
    fun s t u => ⟨?_, ?_, ?_, ?_⟩⟩
  · simp only [CompareOp.holds_eq_admits]
    exact CompareOp.eq_of_admits
  · simp only [CompareOp.holds_eq_admits]
    exact CompareOp.exists_admits_iff
  · simp only [CompareOp.holds_eq_admits, CompareOp.admits]
  · simp only [CompareOp.holds_eq_admits, CompareOp.admits]
  · simp only [CompareOp.holds_eq_admits, CompareOp.admits]
  · rw [Value.compare?_text, Option.some.injEq, Std.LawfulEqCmp.compare_eq_iff_eq]
  · rw [holds_le_text, holds_le_text]
    exact isLE_total s t
  · rw [holds_le_text, holds_le_text, holds_le_text]
    exact Std.TransCmp.isLE_trans
  · rw [holds_lt_text, holds_lt_text, holds_lt_text]
    exact Std.TransCmp.lt_trans

end LessonScript
