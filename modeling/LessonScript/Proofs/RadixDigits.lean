import LessonScript.Number.Exact
import LessonScript.Proofs.Grammar
import LessonScript.Proofs.Nearest
import LessonScript.Proofs.Numerals
import LessonScript.Proofs.Places

/-! # Digits of base sixteen, eight and two

Digits of another base than ten are taken in one after the other, and every one taken in is rounded.
What this comes to is a single rounding of a number that may have zeros where the digits have
something else (`toFloat_radix`): a digit after the first fifty-three binary ones is too small to
make a difference where it is taken in. It is the number nearest to what the digits say unless those
zeros make it a tie that goes down; then it is the one below.

Main statement: `read_digits`. -/

namespace LessonScript

namespace Radix

open Binary64 (Lost IsNearest)

/-! ### Taking in digits -/

section Settled

variable (r : Radix)

/-- The binary digits that one digit of a base is worth. -/
def width : Radix → Nat
  | hexadecimal => 4
  | octal => 3
  | binary => 1

theorem base_eq : r.base = 2 ^ r.width := by cases r <;> rfl

theorem width_le : r.width ≤ 4 := by cases r <;> decide

/-- The number that digits say. -/
def value (ds : List Nat) : Nat := ds.foldl (fun n d => n * r.base + d) 0

/-- A digit is put after a number, or a zero after one that is too long already. -/
def settle (n d : Nat) : Nat := if n < 2 ^ 53 then n * r.base + d else n * r.base

/-- The number that digits say if those after the first fifty-three binary ones are zeros. -/
def settled (ds : List Nat) : Nat := ds.foldl r.settle 0

end Settled

variable {r : Radix} {d : Nat} {ds : List Nat}

/-- **A digit taken in** is put after the number, or is lost. -/
theorem ofInt_settle (hd : d < r.base) (n : Nat) :
    Binary64.ofInt n * Binary64.ofInt r.base + Binary64.ofInt d =
      Binary64.ofInt (r.settle n d : Nat) := by
  rw [base_eq] at hd
  rw [settle, base_eq]
  split_ifs with hn
  · exact Binary64.push_small r.width_le hd hn
  · exact Binary64.push_large r.width_le hd (Nat.le_of_not_lt hn)

theorem foldl_settle (hds : ∀ d ∈ ds, d < r.base) (n : Nat) :
    ds.foldl (fun x (d : Nat) => x * Binary64.ofInt r.base + Binary64.ofInt d) (Binary64.ofInt n) =
      Binary64.ofInt (ds.foldl r.settle n : Nat) := by
  induction ds generalizing n with
  | nil => rfl
  | cons d ds ih =>
    rw [List.forall_mem_cons] at hds
    rw [List.foldl_cons, List.foldl_cons, ofInt_settle hds.1, ih hds.2]

/-- **Taking in digits one after the other rounds once**, what is settled of them. -/
theorem toFloat_radix (hds : ∀ d ∈ ds, d < r.base) :
    (Numeral.radix r ds).toFloat = Binary64.ofInt (r.settled ds : Nat) := foldl_settle hds 0

theorem lt_base_of_digit? {c : Char} (h : r.digit? c = some d) : d < r.base := by
  rw [digit?, Option.filter_eq_some_iff] at h
  exact of_decide_eq_true h.2

theorem lt_base_of_mapM {t : Text} (h : t.mapM r.digit? = some ds) : ∀ d ∈ ds, d < r.base := by
  induction t generalizing ds with
  | nil =>
    obtain rfl := Option.some.inj h
    exact List.forall_mem_nil _
  | cons c t ih =>
    simp only [List.mapM_cons, Option.bind_eq_bind, Option.bind_eq_some_iff] at h
    obtain ⟨d, hd, ds', hds', hcons⟩ := h
    obtain rfl := Option.some.inj hcons
    exact List.forall_mem_cons.mpr ⟨lt_base_of_digit? hd, ih hds'⟩

/-! ### What is lost -/

/-- One more digit loses nothing as long as nothing is lost. -/
theorem exists_lost_settle (hd : d < r.base) {n v j : Nat} (h : Lost n v j) :
    ∃ j', Lost (r.settle n d) (v * r.base + d) j' := by
  rw [base_eq] at hd
  rw [Radix.settle, base_eq]
  split_ifs with hn
  · have hj : j = 0 := by
      refine h.large.resolve_right fun hle => ?_
      have := Nat.pow_le_pow_right (n := 2) two_pos (Nat.le_add_right 53 j)
      omega
    subst hj
    have hv : v = n := by
      have := h.le
      have := h.lt
      omega
    rw [hv]
    exact ⟨0, le_rfl, by omega, one_dvd _, .inl rfl⟩
  · refine ⟨j + r.width, ?_, ?_, ?_, .inr ?_⟩
    · exact (Nat.mul_le_mul_right _ h.le).trans (Nat.le_add_right _ _)
    · have := Nat.mul_le_mul_right (2 ^ r.width) (Nat.succ_le_of_lt h.lt)
      rw [Nat.succ_mul, Nat.add_mul, ← Nat.pow_add] at this
      omega
    · rw [Nat.pow_add]
      exact Nat.mul_dvd_mul_right h.dvd _
    · rw [← Nat.add_assoc, Nat.pow_add _ (53 + j)]
      refine Nat.mul_le_mul_right _ (h.large.elim (fun hj => ?_) id)
      rw [hj]
      exact Nat.le_of_not_lt hn

theorem exists_lost_foldl (hds : ∀ d ∈ ds, d < r.base) {n v j : Nat} (h : Lost n v j) :
    ∃ j', Lost (ds.foldl r.settle n) (ds.foldl (fun n d => n * r.base + d) v) j' := by
  induction ds generalizing n v j with
  | nil => exact ⟨j, h⟩
  | cons d ds ih =>
    rw [List.forall_mem_cons] at hds
    obtain ⟨j', h'⟩ := exists_lost_settle hds.1 h
    exact ih hds.2 h'

/-- **The digits that are settled are those of the number**, but for zeros at the end. -/
theorem exists_lost (hds : ∀ d ∈ ds, d < r.base) : ∃ j, Lost (r.settled ds) (r.value ds) j :=
  exists_lost_foldl hds ⟨le_rfl, Nat.one_pos, one_dvd _, .inl rfl⟩

/-- What is settled of the digits is a finite tie that goes down, and is not all that they say. -/
def MissesRest (r : Radix) (ds : List Nat) : Prop :=
  r.settled ds < r.value ds ∧ Binary64.TiesDown (r.settled ds) ∧ r.settled ds < 2 ^ 1024

instance (r : Radix) (ds : List Nat) : Decidable (r.MissesRest ds) :=
  inferInstanceAs (Decidable (_ ∧ _))

section Rounded

variable (hds : ∀ d ∈ ds, d < r.base)
include hds

/-- Where a rest is missed, the number nearest to what the digits say is the next one above. -/
theorem nearestRat_value_of_misses (h : r.MissesRest ds) :
    Binary64.nearestRat (r.value ds) = Binary64.nearestRat (r.settled ds) + 1 := by
  obtain ⟨j, hj⟩ := exists_lost hds
  exact hj.nearestRat_eq_succ h.1 h.2.1 h.2.2

/-- **What is settled has the same nearest number** as what the digits say, unless a rest is
missed. -/
theorem nearestRat_settled_eq_iff :
    Binary64.nearestRat (r.settled ds) = Binary64.nearestRat (r.value ds) ↔ ¬ r.MissesRest ds := by
  constructor
  · intro heq h
    rw [nearestRat_value_of_misses hds h] at heq
    omega
  · intro h
    obtain ⟨j, hj⟩ := exists_lost hds
    exact (hj.nearestRat_eq h).symm

theorem two_pow_lt_value (h : r.MissesRest ds) : 2 ^ 53 < r.value ds := by
  obtain ⟨j, hj⟩ := exists_lost hds
  calc 2 ^ 53 ≤ 2 ^ (53 + j) := Nat.pow_le_pow_right two_pos (Nat.le_add_right _ _)
    _ ≤ r.settled ds := hj.two_pow_le h.1
    _ < r.value ds := h.1

end Rounded

/-! ### The main statement -/

theorem ofText?_of_digits {c : Char} {t : Text} (hc : r.IsMark c) (hds : t.mapM r.digit? = some ds)
    (hne : t ≠ []) : Numeral.ofText? ('0' :: c :: t) = some (.radix r ds) := by
  have h : Numeral.ofTrimmed? ('0' :: c :: t) = some (.radix r ds) := by
    rw [Numeral.ofTrimmed?_of_mark hc, Numeral.radix?, if_neg hne, hds]
    rfl
  have hblank : ∀ d ∈ '0' :: c :: t, isBlank d = false := fun d hd =>
    isBlank_of_isNumeralChar (Numeral.spelled_of_ofTrimmed? h d hd)
  rw [Numeral.ofText?, Text.trim_of_no_blank hblank, h]

/-- **Digits of base sixteen, eight or two are read as the nearest number unless a tie is missed.**
What is read is the number nearest to what is settled of the digits, infinity beyond the finite
ones. It is the one nearest to what the digits say exactly if and only if the rest after a tie that
goes down is not missed. If it is, then the digits say more than `2 ^ 53`, and the number nearest to
what they say is the next one above the one read. -/
theorem read_digits {c : Char} {t : Text} (hc : r.IsMark c) (hds : t.mapM r.digit? = some ds)
    (hne : t ≠ []) :
    Exact.read ('0' :: c :: t) = .rational (r.value ds) ∧
    Binary64.read ('0' :: c :: t) = Binary64.ofInt (r.settled ds : Nat) ∧
    (IsNearest (r.value ds) (Binary64.magnitude (Binary64.read ('0' :: c :: t))) ↔
      ¬ r.MissesRest ds) ∧
    (r.MissesRest ds → 2 ^ 53 < r.value ds ∧
      IsNearest (r.value ds) (Binary64.magnitude (Binary64.read ('0' :: c :: t)) + 1)) := by
  have hbase := lt_base_of_mapM hds
  have htext := ofText?_of_digits hc hds hne
  have hread : Binary64.read ('0' :: c :: t) = Binary64.ofInt (r.settled ds : Nat) := by
    rw [Binary64.read, htext]
    exact toFloat_radix hbase
  have hnonneg : (0 : ℚ) ≤ r.value ds := Nat.cast_nonneg _
  refine ⟨?_, hread, ?_, fun h => ⟨two_pow_lt_value hbase h, ?_⟩⟩
  · rw [Exact.read, htext]
    rfl
  · rw [hread, Binary64.magnitude_ofInt, Binary64.isNearest_iff hnonneg,
      nearestRat_settled_eq_iff hbase]
  · rw [hread, Binary64.magnitude_ofInt, Binary64.isNearest_iff hnonneg, nearestRat_value_of_misses hbase h]

/-- The digits `200000000000018` come to the tie `2 ^ 57 + 16`, and the eight after it is missed. -/
theorem read_digits_missing :
    Binary64.read "0x200000000000018".toList = Binary64.ofInt (2 ^ 57 + 16) ∧
      ¬ IsNearest (2 ^ 57 + 24 : Nat)
        (Binary64.magnitude (Binary64.read "0x200000000000018".toList)) := by
  have hmark : hexadecimal.IsMark 'x' := .inl rfl
  have hds : "200000000000018".toList.mapM hexadecimal.digit? =
      some [2, 0, 0, 0, 0, 0, 0, 0, 0, 0, 0, 0, 0, 1, 8] := by decide
  have hmisses : hexadecimal.MissesRest [2, 0, 0, 0, 0, 0, 0, 0, 0, 0, 0, 0, 0, 1, 8] := by
    decide +kernel
  have hvalue : hexadecimal.value [2, 0, 0, 0, 0, 0, 0, 0, 0, 0, 0, 0, 0, 1, 8] = 2 ^ 57 + 24 := rfl
  obtain ⟨-, hread, hnearest, -⟩ := read_digits hmark hds (by decide)
  rw [hvalue] at hnearest
  exact ⟨hread, fun h => hnearest.mp h hmisses⟩

/-- **Not all digits are read as the nearest number.** -/
theorem read_digits_not_nearest :
    ¬ ∀ (r : Radix) (c : Char) (t : Text) (ds : List Nat), r.IsMark c →
      t.mapM r.digit? = some ds → t ≠ [] →
        IsNearest (r.value ds) (Binary64.magnitude (Binary64.read ('0' :: c :: t))) := by
  intro h
  have hnearest := h .hexadecimal 'x' "200000000000018".toList
    [2, 0, 0, 0, 0, 0, 0, 0, 0, 0, 0, 0, 0, 1, 8] (.inl rfl) (by decide) (by decide)
  rw [Binary64.isNearest_iff (Nat.cast_nonneg _), Binary64.nearestRat_natCast] at hnearest
  revert hnearest
  decide +kernel

end Radix

end LessonScript
